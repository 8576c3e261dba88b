import CoEpoll.Sock5Ctxt.Taking

/-!
# `Sock5Ctxt`: how the stream is cut

A handler runs once for each {lit}`recv`.  It waits for three or five bytes only, and then it takes out
of {lit}`__rxBuf` what it can; what is left behind its message waits for the next {lit}`recv`.

Main results:

- Theorem {lit}`Stands.step`: a {lit}`recv` that cuts no message takes what can be taken of all bytes so far.
- Theorem {lit}`Stands.stuck`: behind the last {lit}`recv` nothing more can be taken.
- Theorem {lit}`splitting_irrelevant`: two ways of receiving a stream that cut no message have the same
  outcome.
- Theorem {lit}`splitting_matters`: a {lit}`recv` that ends within a greeting changes the outcome.
-/

namespace CoEpoll

open Transition Ring Socks5

namespace Sock5Ctxt

/-! ## Runs that cut no message -/

/-- What a client sends. -/
structure Stream where
  greeting : Greeting
  request : Request
  payload : List UInt8

def Stream.bytes (c : Stream) : List UInt8 :=
  c.greeting.encode ++ (c.request.encode ++ c.payload)

/-- What a client and its destination have seen of a session. -/
def outcome (s : Sock5Ctxt) : Outcome :=
  ⟨s.replied, s.connects, s.__state, s.forwarded⟩

/-- What a send to the remote returns that has accepted {lit}`accepted` bytes and is offered {lit}`n`. -/
def World.remoteSend (w : World) (accepted n : Nat) : SendRet :=
  match w.remoteLimit with
  | none => .sent
  | some limit => if accepted + n ≤ limit then .sent else .failed (limit - accepted)

/-- The outcomes of the calls that the handler makes next. -/
def World.env (w : World) (s : Sock5Ctxt) : Env where
  gethostbyname := w.gethostbyname
  socket := w.socket s.opened.length
  connect := w.connect s.opened.length
  localSend := if s.__state = .SOCK_INIT then w.authSend else w.grantSend
  remoteSend := w.remoteSend s.forwarded.length s.__rxBuf.contents.length

/-- A {lit}`recv` whose handler makes calls in the world {lit}`w`. -/
def InWorld (w : World) (s : Sock5Ctxt) (a : Action) : Prop :=
  ∃ env xs, a = .recv env xs ∧ ∀ hxs, env = w.env (s.receive xs hxs)

/-- A handler waits with the bytes {lit}`y`, or they begin with a whole message that it can read. -/
def Whole (state : SOCK_STATE) (y : List UInt8) : Prop :=
  match state with
  | .SOCK_INIT => y.length < 3 ∨ ∃ (g : Greeting) (z : List UInt8), y = g.encode ++ z
  | .SOCK_REQ =>
      y.length < 5 ∨ ∃ (r : Request) (z : List UInt8), Readable r ∧ y = r.encode ++ z
  | _ => True

/-- A {lit}`recv` does not end within a message. -/
def Uncut (s : Sock5Ctxt) : Action → Prop
  | .recv _ xs => Whole s.__state (s.__rxBuf.contents ++ xs)
  | _ => True

/-- Which bytes begin with a request that {lit}`handleReq` can read. -/
theorem exists_readable_iff {y : List UInt8} :
    (∃ (r : Request) (z : List UInt8), Readable r ∧ y = r.encode ++ z) ↔
      0 < requestLength y ∧ (y.getD 3 0 = 3 → y.getD 4 0 < 128) := by
  rw [← exists_request_iff]
  constructor
  · rintro ⟨r, z, hr, rfl⟩
    refine ⟨⟨r, z, rfl⟩, fun hatyp => ?_⟩
    cases hdest : r.dest with
    | ipv4 addr =>
        rw [Request.encode, hdest] at hatyp
        have hthree : (1 : UInt8) = 3 := hatyp
        exact absurd hthree (by decide)
    | domain name bounded =>
        rw [Readable, hdest] at hr
        rw [Request.encode, hdest]
        change UInt8.ofNat name.length < 128
        rw [UInt8.lt_iff_toNat_lt, toNat_length _ bounded]
        exact hr
  · rintro ⟨⟨r, z, rfl⟩, hlen⟩
    refine ⟨r, z, ?_, rfl⟩
    unfold Readable
    cases hdest : r.dest with
    | ipv4 addr => trivial
    | domain name bounded =>
        rw [Request.encode, hdest] at hlen
        have hlt : UInt8.ofNat name.length < 128 := hlen rfl
        rw [UInt8.lt_iff_toNat_lt, toNat_length _ bounded] at hlt
        exact hlt

instance (state : SOCK_STATE) (y : List UInt8) : Decidable (Whole state y) := by
  cases state with
  | SOCK_INIT => exact decidable_of_iff _ (or_congr_right exists_greeting_iff.symm)
  | SOCK_REQ => exact decidable_of_iff _ (or_congr_right exists_readable_iff.symm)
  | SOCK_AUTH => exact .isTrue trivial
  | SOCK_LINKED => exact .isTrue trivial
  | SOCK_CLOSED => exact .isTrue trivial
  | SOCK_INVALID => exact .isTrue trivial

instance (s : Sock5Ctxt) (a : Action) : Decidable (s.Uncut a) :=
  match a with
  | .recv _ xs => inferInstanceAs (Decidable (Whole s.__state (s.__rxBuf.contents ++ xs)))
  | .recvEnd | .rlink _ _ | .rlinkEnd => .isTrue trivial

/-- The session is linked to a remote that accepts another byte. -/
def Forwards (w : World) (s : Sock5Ctxt) : Prop :=
  (∃ fd, s.__remoteConn = some fd ∧ 0 < fd) ∧
    ∀ limit, w.remoteLimit = some limit → s.forwarded.length < limit

/-- Nothing is left behind that another {lit}`recv` would make the handler take. -/
def Spent (w : World) (s : Sock5Ctxt) : Prop :=
  match s.__state with
  | .SOCK_INIT => s.__rxBuf.contents.length < 3
  | .SOCK_REQ => s.__rxBuf.contents.length < 5
  | _ => s.Forwards w → s.__rxBuf.contents = []

/-! ## What a session has taken -/

/-- The remote accepts nothing any more. -/
def View.Full (w : World) (v : View) : Prop :=
  v.__state = .SOCK_LINKED ∧ ∃ limit, w.remoteLimit = some limit ∧ limit ≤ v.forwarded.length

/-- How many bytes of replies there can be. -/
def maxUnsent : SOCK_STATE → Nat
  | .SOCK_INIT => 0
  | .SOCK_REQ => 2
  | _ => 1023

/-- The session receives and shows {lit}`v`, and it has not taken the bytes {lit}`z`.  A remote that accepts
nothing any more leaves all bytes in {lit}`__rxBuf`. -/
structure Shows (w : World) (s : Sock5Ctxt) (v : View) (z : List UInt8) : Prop where
  phase : s.phase = .recv
  linkflag : s.__linkflag = true
  rx : s.__rxBuf.contents = z ∨ v.Full w
  tx : s.__txBuf.contents = v.unsent
  size : s.__txBuf.__size = 1024
  room : v.unsent.length ≤ maxUnsent v.__state
  outcome : s.outcome = v.toOutcome
  opened : s.opened.length = v.opened
  remote : v.__state = .SOCK_LINKED → s.__remoteConn = some v.remote

/-- The session has come to {lit}`v` by taking what it has received. -/
structure Stands (w : World) (s : Sock5Ctxt) (v : View) (z : List UInt8) : Prop
    extends Shows w s v z where
  taken : Taken w (.start, s.received) (v, z)

variable {s s' : Sock5Ctxt} {w : World} {v : View} {r : Request} {xs z : List UInt8}

theorem stands_construct (w : World) (serv_addr : SockAddr) (sockfd : Int32) :
    Stands w (construct serv_addr sockfd) .start [] where
  phase := rfl
  linkflag := rfl
  rx := .inl (List.eq_nil_of_length_eq_zero (Buffer.length_contents _))
  tx := List.eq_nil_of_length_eq_zero (Buffer.length_contents _)
  size := rfl
  room := Nat.le_refl _
  outcome := rfl
  opened := rfl
  remote h := by cases h
  taken := .refl

theorem Shows.state (h : Shows w s v z) : s.__state = v.__state :=
  congrArg Outcome.__state h.outcome

theorem Shows.replied (h : Shows w s v z) : s.replied = v.replied :=
  congrArg Outcome.replied h.outcome

theorem Shows.connects (h : Shows w s v z) : s.connects = v.connects :=
  congrArg Outcome.connects h.outcome

theorem Shows.forwarded (h : Shows w s v z) : s.forwarded = v.forwarded :=
  congrArg Outcome.forwarded h.outcome

/-- Before it is linked the session has in {lit}`__rxBuf` what it has not taken. -/
theorem Shows.contents (h : Shows w s v z) (hstate : v.__state ≠ .SOCK_LINKED) :
    s.__rxBuf.contents = z :=
  h.rx.resolve_right fun hfull => hstate hfull.1

theorem Stands.receive (h : Stands w s v z) (hxs : xs.length ≤ s.__rxBuf.writeableCap.toNat) :
    Stands w (s.receive xs hxs) v (z ++ xs) where
  phase := h.phase
  linkflag := h.linkflag
  rx := by
    rw [(contents_receive hxs).1]
    exact h.rx.imp_left fun hrx => congrArg (fun ys => ys ++ xs) hrx
  tx := h.tx
  size := h.size
  room := h.room
  outcome := h.outcome
  opened := h.opened
  remote := h.remote
  taken := h.taken.append xs

/-! ## Handlers -/

/-- What a send accepts, and what it leaves in the buffer. -/
theorem sendBuf_eq (b : Buffer UInt8) (r : SendRet) :
    (sendBuf b r).2 = accepts b.contents r ∧ (sendBuf b r).1.contents = leaves b.contents r ∧
      (sendBuf b r).1.__size = b.__size := by
  cases r with
  | sent => exact sendBuf_sent b
  | failed accepted =>
      have hneg : (-1 : Int32) < 0 := by decide
      rw [sendBuf, Connection.send, if_pos hneg, b.flatten_iovec]
      exact ⟨rfl, rfl, rfl⟩

/-- What becomes of a reply that is put into {lit}`__txBuf`. -/
theorem Shows.send (h : Shows w s v z) (hstate : maxUnsent v.__state ≤ 2) (reply : List UInt8)
    (hreply : reply.length ≤ 10) (r : SendRet) :
    (sendBuf (s.__txBuf.insertChs reply) r).2 = accepts (v.unsent ++ reply) r ∧
      (sendBuf (s.__txBuf.insertChs reply) r).1.contents = leaves (v.unsent ++ reply) r ∧
      (sendBuf (s.__txBuf.insertChs reply) r).1.__size = 1024 := by
  have hroom := h.room
  have hfits : s.__txBuf.contents.length + reply.length ≤ s.__txBuf.__size.toNat - 1 := by
    have hsize : (1024 : UInt16).toNat = 1024 := rfl
    rw [h.tx, h.size, hsize]
    omega
  rcases Buffer.contents_insertChs hfits with ⟨hinsert, hinsertsize⟩
  rcases sendBuf_eq (s.__txBuf.insertChs reply) r with ⟨hsent, hleft, hkeep⟩
  rw [hinsert, h.tx] at hsent hleft
  exact ⟨hsent, hleft, hkeep.trans (hinsertsize.trans h.size)⟩

theorem length_leaves_le (ys : List UInt8) (r : SendRet) : (leaves ys r).length ≤ ys.length := by
  cases r with
  | sent => exact Nat.zero_le _
  | failed accepted => exact Nat.le_refl _

/-- {lit}`handleAuth` takes a greeting. -/
theorem Stands.dispatch_greeting {g : Greeting} (h : Stands w s v (g.encode ++ z))
    (hstate : v.__state = .SOCK_INIT) :
    ∃ t, s.dispatch (w.env s) = .ok t ∧ Stands w t (v.greet w g) z := by
  have hpos := List.length_pos_iff.mpr g.some_method
  have hrx := h.contents (by rw [hstate]; decide)
  have hlen : 1 ≤ (g.methods ++ z).length := by
    rw [List.length_append]
    omega
  rcases handleAuth_whole (w.env s) hrx (toNat_length _ g.bounded).symm hlen with
    ⟨rxBuf, hauth, hrest, _⟩
  have hlocal : (w.env s).localSend = w.authSend := by
    rw [World.env, h.state, hstate, if_pos rfl]
  have hroom : maxUnsent v.__state = 0 := by rw [hstate, maxUnsent]
  rcases h.send (by omega) [SOCK5_VERSION, g.method] (Nat.le_of_ble_eq_true rfl) w.authSend with
    ⟨hsent, htx, hsize⟩
  have hmethod : (if 0 ∈ g.methods then 0 else 0xff) = g.method := rfl
  rw [hmethod, hlocal] at hauth
  refine ⟨s.answer rxBuf g.method w.authSend, ?_, ?_⟩
  · rw [dispatch, h.state, hstate]
    dsimp only
    rw [hauth]
    rfl
  · have hempty : v.unsent = [] := by
      apply List.eq_nil_of_length_eq_zero
      have hle := h.room
      omega
    unfold answer
    generalize sendBuf (s.__txBuf.insertChs _) w.authSend = sent at hsent htx hsize ⊢
    refine ⟨⟨h.phase, h.linkflag, .inl hrest, htx, hsize, ?_, ?_, h.opened, nofun⟩, ?_⟩
    · rw [View.greet, View.send, hempty]
      exact length_leaves_le [SOCK5_VERSION, g.method] w.authSend
    · change Outcome.mk (s.replied ++ sent.2) s.connects .SOCK_REQ s.forwarded = _
      rw [hsent, h.replied, h.connects, h.forwarded]
      rfl
    · exact h.taken.tail (.greeting g z hstate)

/-- The success reply of {lit}`handleReq`. -/
theorem Shows.grant (h : Shows w s v z) (hstate : v.__state = .SOCK_REQ)
    (connected : Option Bool) {env : Env} (hlocal : env.localSend = w.grantSend) :
    Shows w (s.grant env connected) (v.grant w s.serv_addr s.sockfd) z := by
  have hroom : maxUnsent v.__state = 2 := by rw [hstate, maxUnsent]
  rcases h.send (by omega) s.reply (Nat.le_of_ble_eq_true rfl) w.grantSend with
    ⟨hsent, htx, hsize⟩
  have hrx := h.contents (by rw [hstate]; decide)
  have hle : v.unsent.length ≤ 2 := hroom ▸ h.room
  unfold Sock5Ctxt.grant
  rw [hlocal]
  generalize sendBuf (s.__txBuf.insertChs s.reply) w.grantSend = sent at hsent htx hsize ⊢
  refine ⟨h.phase, h.linkflag, .inl hrx, htx, hsize, ?_, ?_, h.opened, fun _ => rfl⟩
  · apply Nat.le_trans (length_leaves_le (v.unsent ++ s.reply) w.grantSend)
    have hreply : s.reply.length = 10 := rfl
    rw [List.length_append, hreply]
    change v.unsent.length + 10 ≤ 1023
    omega
  · change Outcome.mk (s.replied ++ sent.2) s.connects .SOCK_LINKED s.forwarded = _
    rw [hsent, h.replied, h.connects, h.forwarded]
    rfl

/-- {lit}`handleReq` makes the calls of the world. -/
theorem Shows.link (h : Shows w s v z) (hstate : v.__state = .SOCK_REQ) {r : Request}
    (htarget : r.target (w.gethostbyname ∘ cString) = some s.serv_addr) {env : Env}
    (hsocket : env.socket = w.socket v.opened) (hconnect : env.connect = w.connect v.opened)
    (hlocal : env.localSend = w.grantSend) : Shows w (s.link env).1 (v.ask w r) z := by
  have hopened : (s.opened ++ [env.socket]).length = v.opened + 1 := by
    rw [List.length_append, h.opened, List.length_singleton]
  have hout : Outcome.mk s.replied s.connects s.__state s.forwarded = v.toOutcome := h.outcome
  rw [View.ask, htarget]
  dsimp only
  rw [← hsocket, ← hconnect]
  by_cases hpos : 0 < env.socket
  · have htried : Shows w
        { s with
          sockfd := env.socket
          opened := s.opened ++ [env.socket]
          connects := s.connects ++ [s.serv_addr] }
        { v with opened := v.opened + 1, connects := v.connects ++ [s.serv_addr] } z := by
      refine ⟨h.phase, h.linkflag, h.rx, h.tx, h.size, h.room, ?_, hopened, h.remote⟩
      rw [← h.connects]
      change Outcome.mk s.replied (s.connects ++ [s.serv_addr]) s.__state s.forwarded = _
      rw [h.replied, h.state, h.forwarded]
    rw [if_pos hpos]
    cases hok : env.connect s.serv_addr with
    | true =>
        rw [link_connected hpos hok, if_pos rfl]
        exact htried.grant hstate (some true) hlocal
    | false =>
        rw [link_failed hpos hok, if_neg Bool.false_ne_true]
        exact ⟨htried.phase, htried.linkflag, htried.rx, htried.tx, htried.size, htried.room,
          htried.outcome, htried.opened, htried.remote⟩
  · have hrefused : Shows w
        { s with sockfd := env.socket, opened := s.opened ++ [env.socket] }
        { v with opened := v.opened + 1 } z :=
      ⟨h.phase, h.linkflag, h.rx, h.tx, h.size, h.room, h.outcome, hopened, h.remote⟩
    rw [if_neg hpos, link_refused hpos]
    exact hrefused.grant hstate none hlocal

theorem received_link (s : Sock5Ctxt) (env : Env) : (s.link env).1.received = s.received := by
  unfold Sock5Ctxt.link
  dsimp only
  split
  · split <;> rfl
  · rfl

/-- {lit}`handleReq` takes a request. -/
theorem Stands.dispatch_request (h : Stands w s v (r.encode ++ z)) (hstate : v.__state = .SOCK_REQ)
    (hr : Readable r) :
    ∃ t, s.dispatch (w.env s) = .ok t ∧ Stands w t (v.ask w r) z := by
  have hrx := h.contents (by rw [hstate]; decide)
  have htaken := h.taken.tail (.request z hstate hr)
  have hdispatch : s.dispatch (w.env s) = (s.handleReq (w.env s)).map Prod.fst := by
    rw [dispatch, h.state, hstate]
  cases htarget : r.target ((w.env s).gethostbyname ∘ cString) with
  | none =>
      have hnone : v.ask w r = v := by
        change r.target (w.gethostbyname ∘ cString) = none at htarget
        rw [View.ask, htarget]
      rcases handleReq_unknown hrx hr htarget with ⟨rxBuf, serv_addr, hrest, hreq⟩
      rw [hdispatch, hreq]
      rw [hnone] at htaken ⊢
      exact ⟨_, rfl, ⟨h.phase, h.linkflag, .inl hrest, h.tx, h.size, h.room, h.outcome, h.opened,
        h.remote⟩, htaken⟩
  | some addr =>
      rcases handleReq_found hrx hr htarget with ⟨rxBuf, hrest, hreq⟩
      have hlocal : (w.env s).localSend = w.grantSend := by
        rw [World.env, h.state, hstate, if_neg (by decide)]
      have hread : Shows w { s with __rxBuf := rxBuf, serv_addr := addr } v z :=
        ⟨h.phase, h.linkflag, .inl hrest, h.tx, h.size, h.room, h.outcome, h.opened, h.remote⟩
      rw [hdispatch, hreq]
      refine ⟨_, rfl, hread.link hstate htarget (congrArg w.socket h.opened)
        (congrArg w.connect h.opened) hlocal, ?_⟩
      rw [received_link]
      exact htaken

/-- What the remote accepts of what it is offered. -/
theorem accepts_remoteSend (w : World) (f : Nat) (ys : List UInt8) :
    ∃ rest, ys = accepts ys (w.remoteSend f ys.length) ++ rest ∧
      (∀ limit, w.remoteLimit = some limit →
        (accepts ys (w.remoteSend f ys.length)).length ≤ limit - f) ∧
      (leaves ys (w.remoteSend f ys.length) = rest ∨ ∃ limit, w.remoteLimit = some limit ∧
        limit ≤ f + (accepts ys (w.remoteSend f ys.length)).length) := by
  unfold World.remoteSend
  cases w.remoteLimit with
  | none => exact ⟨[], (List.append_nil _).symm, nofun, .inl rfl⟩
  | some limit =>
      dsimp only
      by_cases hle : f + ys.length ≤ limit
      · rw [if_pos hle]
        refine ⟨[], (List.append_nil _).symm, ?_, .inl rfl⟩
        rintro _ ⟨⟩
        change ys.length ≤ limit - f
        omega
      · rw [if_neg hle]
        have hlen : (accepts ys (.failed (limit - f))).length = limit - f := by
          rw [accepts, List.length_take]
          omega
        refine ⟨ys.drop (limit - f), (List.take_append_drop _ _).symm, ?_, .inr ⟨limit, rfl, ?_⟩⟩
        · rintro _ ⟨⟩
          exact Nat.le_of_eq hlen
        · omega

/-- A remote that accepts nothing any more. -/
theorem accepts_full {f limit : Nat} (hlimit : w.remoteLimit = some limit) (hle : limit ≤ f)
    (ys : List UInt8) : accepts ys (w.remoteSend f ys.length) = [] := by
  rcases accepts_remoteSend w f ys with ⟨_, _, hlen, _⟩
  have hlen := hlen limit hlimit
  apply List.eq_nil_of_length_eq_zero
  omega

/-- {lit}`__remoteConn->send` takes what the remote accepts. -/
theorem Stands.dispatch_linked (h : Stands w s v z) (hstate : v.__state = .SOCK_LINKED) :
    ∃ t v' z', s.dispatch (w.env s) = .ok t ∧ Stands w t v' z' := by
  have hdispatch : s.dispatch (w.env s) = .ok (s.forward (w.env s).remoteSend) := by
    rw [dispatch, h.state, hstate]
    rfl
  have hsend : (w.env s).remoteSend = w.remoteSend v.forwarded.length s.__rxBuf.contents.length := by
    rw [← h.forwarded, World.env]
  have hforward : s.forward (w.env s).remoteSend =
      { s with
        __rxBuf := (sendBuf s.__rxBuf (if 0 < v.remote then (w.env s).remoteSend else .failed 0)).1
        forwarded := s.forwarded ++
          (sendBuf s.__rxBuf (if 0 < v.remote then (w.env s).remoteSend else .failed 0)).2 } := by
    rw [forward, h.remote hstate]
  rw [hdispatch, hforward, hsend]
  by_cases hremote : 0 < v.remote
  · rw [if_pos hremote]
    rcases sendBuf_eq s.__rxBuf (w.remoteSend v.forwarded.length s.__rxBuf.contents.length) with
      ⟨hsent, hleft, _⟩
    rw [hsent]
    rcases h.rx with hrx | ⟨_, limit, hlimit, hle⟩
    · rcases accepts_remoteSend w v.forwarded.length s.__rxBuf.contents with
        ⟨rest, hsplit, hlen, hrest⟩
      generalize accepts s.__rxBuf.contents (w.remoteSend v.forwarded.length
        s.__rxBuf.contents.length) = accepted at hsplit hlen hrest
      have htaken := h.taken
      rw [← hrx, hsplit] at htaken
      refine ⟨_, { v with forwarded := v.forwarded ++ accepted }, rest, rfl,
        ⟨h.phase, h.linkflag, ?_, h.tx, h.size, h.room, ?_, h.opened, h.remote⟩,
        htaken.trans (Taken.bytes hstate hremote hlen rest)⟩
      · rcases hrest with hrest | ⟨limit, hlimit, hle⟩
        · exact .inl (hleft.trans hrest)
        · refine .inr ⟨hstate, limit, hlimit, ?_⟩
          rw [List.length_append]
          exact hle
      · change Outcome.mk s.replied s.connects s.__state (s.forwarded ++ accepted) = _
        rw [h.replied, h.connects, h.state, h.forwarded]
    · rw [accepts_full hlimit hle, List.append_nil]
      exact ⟨_, v, z, rfl, ⟨h.phase, h.linkflag, .inr ⟨hstate, limit, hlimit, hle⟩, h.tx, h.size,
        h.room, h.outcome, h.opened, h.remote⟩, h.taken⟩
  · rw [if_neg hremote, sendBuf_failed, List.append_nil]
    exact ⟨s, v, z, rfl, h⟩

/-! ## Runs -/

/-- A handler that waits. -/
theorem Stands.dispatch_short (h : Stands w s v z)
    (hshort : v.__state = .SOCK_INIT ∧ s.__rxBuf.contents.length < 3 ∨
      v.__state = .SOCK_REQ ∧ s.__rxBuf.contents.length < 5) :
    s.dispatch (w.env s) = .ok s := by
  rcases hshort with ⟨hstate, hlen⟩ | ⟨hstate, hlen⟩
  · rw [dispatch, h.state, hstate]
    dsimp only
    rw [handleAuth_short hlen]
    rfl
  · rw [dispatch, h.state, hstate]
    dsimp only
    rw [handleReq_short hlen]
    rfl

/-- A handler takes what it can of bytes that do not end within a message. -/
theorem Stands.dispatch (h : Stands w s v z) (hwhole : Whole v.__state s.__rxBuf.contents) :
    ∃ t v' z', s.dispatch (w.env s) = .ok t ∧ Stands w t v' z' := by
  have hkeep : s.dispatch (w.env s) = .ok s →
      ∃ t v' z', s.dispatch (w.env s) = .ok t ∧ Stands w t v' z' :=
    fun hdispatch => ⟨s, v, z, hdispatch, h⟩
  cases hstate : v.__state with
  | SOCK_INIT =>
      rw [hstate] at hwhole
      rcases hwhole with hshort | ⟨g, y, hy⟩
      · exact hkeep (h.dispatch_short (.inl ⟨hstate, hshort⟩))
      · obtain rfl : z = g.encode ++ y := (h.contents (by rw [hstate]; decide)).symm.trans hy
        rcases h.dispatch_greeting hstate with ⟨t, hdispatch, ht⟩
        exact ⟨t, _, _, hdispatch, ht⟩
  | SOCK_REQ =>
      rw [hstate] at hwhole
      rcases hwhole with hshort | ⟨r, y, hr, hy⟩
      · exact hkeep (h.dispatch_short (.inr ⟨hstate, hshort⟩))
      · obtain rfl : z = r.encode ++ y := (h.contents (by rw [hstate]; decide)).symm.trans hy
        rcases h.dispatch_request hstate hr with ⟨t, hdispatch, ht⟩
        exact ⟨t, _, _, hdispatch, ht⟩
  | SOCK_LINKED => exact h.dispatch_linked hstate
  | SOCK_AUTH => exact hkeep (by rw [Sock5Ctxt.dispatch, h.state, hstate]; rfl)
  | SOCK_CLOSED => exact hkeep (by rw [Sock5Ctxt.dispatch, h.state, hstate]; rfl)
  | SOCK_INVALID => exact hkeep (by rw [Sock5Ctxt.dispatch, h.state, hstate]; rfl)

/-- A {lit}`recv` that cuts no message takes what can be taken of all bytes so far. -/
theorem Stands.step {a : Action} (h : Stands w s v z) (hworld : InWorld w s a) (huncut : Uncut s a)
    (hstep : step s a = some s') : ∃ v' z', Stands w s' v' z' := by
  rcases hworld with ⟨env, xs, rfl, henv⟩
  rcases step_cases hstep with ⟨_, _, hxs, rfl⟩
  have hwhole : Whole v.__state (s.receive xs hxs).__rxBuf.contents := by
    rw [(contents_receive hxs).1, ← h.state]
    exact huncut
  rcases (h.receive hxs).dispatch hwhole with ⟨t, v', z', hdispatch, ht⟩
  refine ⟨v', z', ?_⟩
  rw [henv hxs, pass, hdispatch]
  refine ⟨⟨?_, ht.linkflag, ht.rx, ht.tx, ht.size, ht.room, ht.outcome, ht.opened, ht.remote⟩,
    ht.taken⟩
  dsimp only
  rw [ht.linkflag]
  rfl

/-- Behind the last {lit}`recv` nothing more can be taken. -/
theorem Stands.stuck (h : Stands w s v z) (hspent : s.Spent w) (p : View × List UInt8) :
    ¬ Take w (v, z) p := by
  intro htake
  rw [Spent, h.state] at hspent
  cases htake with
  | greeting g y hstate =>
      have hpos := List.length_pos_iff.mpr g.some_method
      rw [hstate] at hspent
      dsimp only at hspent
      rw [h.contents (by rw [hstate]; decide), List.length_append, g.length_encode] at hspent
      omega
  | @request _ r y hstate hr =>
      have hfive := five_le_length_encode r
      rw [hstate] at hspent
      dsimp only at hspent
      rw [h.contents (by rw [hstate]; decide), List.length_append] at hspent
      omega
  | byte byte y hstate hopen =>
      rw [hstate] at hspent
      have hforwards : s.Forwards w := by
        refine ⟨⟨v.remote, h.remote hstate, hopen.1⟩, ?_⟩
        rw [h.forwarded]
        exact hopen.2
      rcases h.rx with hrx | ⟨_, limit, hlimit, hle⟩
      · rw [hspent hforwards] at hrx
        cases hrx
      · have hlt := hopen.2 limit hlimit
        omega

/-- What has been taken at the end of a run that cuts no message. -/
theorem exists_stands {serv_addr : SockAddr} {sockfd : Int32} {as : List Action}
    (hrun : machine.run (construct serv_addr sockfd) as = some s)
    (hworld : machine.Along (InWorld w) (construct serv_addr sockfd) as)
    (huncut : machine.Along Uncut (construct serv_addr sockfd) as) :
    ∃ v z, Stands w s v z := by
  have hboth : machine.Along (fun s a => InWorld w s a ∧ Uncut s a) (construct serv_addr sockfd)
      as := hworld.and huncut
  refine Machine.Along.run (I := fun s => ∃ v z, Stands w s v z) ?_ ?_ hboth hrun
  · rintro s a s' ⟨v, z, h⟩ ⟨hworld, huncut⟩ hstep
    exact h.step hworld huncut hstep
  · exact ⟨_, _, stands_construct w serv_addr sockfd⟩

/-- Two ways of receiving a stream in the same world that cut no message and leave nothing behind
that could be taken have the same outcome. -/
theorem splitting_irrelevant (w : World) (c : Stream) {serv_addr serv_addr' : SockAddr}
    {sockfd sockfd' : Int32} {as as' : List Action}
    (hrun : machine.run (construct serv_addr sockfd) as = some s)
    (hrun' : machine.run (construct serv_addr' sockfd') as' = some s')
    (hworld : machine.Along (InWorld w) (construct serv_addr sockfd) as)
    (hworld' : machine.Along (InWorld w) (construct serv_addr' sockfd') as')
    (hbytes : s.received = c.bytes) (hbytes' : s'.received = c.bytes)
    (huncut : machine.Along Uncut (construct serv_addr sockfd) as)
    (huncut' : machine.Along Uncut (construct serv_addr' sockfd') as')
    (hspent : s.Spent w) (hspent' : s'.Spent w) : s.outcome = s'.outcome := by
  rcases exists_stands hrun hworld huncut with ⟨v, z, h⟩
  rcases exists_stands hrun' hworld' huncut' with ⟨v', z', h'⟩
  have htaken := h.taken
  have htaken' := h'.taken
  rw [hbytes] at htaken
  rw [hbytes'] at htaken'
  have heq := htaken.eq_of_stuck htaken' (h.stuck hspent) (h'.stuck hspent')
  calc
    s.outcome = v.toOutcome := h.outcome
    _ = v'.toOutcome := congrArg (fun p : View × List UInt8 => p.1.toOutcome) heq
    _ = s'.outcome := h'.outcome.symm

/-- A world whose outcomes are always those of {lit}`env`, and whose sends accept all bytes. -/
def World.steady (env : Env) : World where
  gethostbyname := env.gethostbyname
  socket _ := env.socket
  connect _ := env.connect
  authSend := .sent
  grantSend := .sent
  remoteLimit := none

theorem World.env_steady {env : Env} (hlocal : env.localSend = .sent)
    (hremote : env.remoteSend = .sent) (s : Sock5Ctxt) : (World.steady env).env s = env := by
  rcases env with ⟨gethostbyname, socket, connect, localSend, remoteSend⟩
  obtain rfl : localSend = .sent := hlocal
  obtain rfl : remoteSend = .sent := hremote
  simp [World.env, World.steady, World.remoteSend]

theorem along_steady {env : Env} (hlocal : env.localSend = .sent) (hremote : env.remoteSend = .sent)
    (s : Sock5Ctxt) (xss : List (List UInt8)) :
    machine.Along (InWorld (.steady env)) s (xss.map (.recv env)) := by
  apply Machine.along_of_forall
  intro a hmem t
  rcases List.mem_map.mp hmem with ⟨xs, _, rfl⟩
  exact ⟨env, xs, rfl, fun hxs => (World.env_steady hlocal hremote _).symm⟩

theorem spent_of_nil (h : s.__rxBuf.contents = []) : s.Spent w := by
  unfold Spent
  rw [h]
  cases s.__state with
  | SOCK_INIT => exact Nat.zero_lt_succ _
  | SOCK_REQ => exact Nat.zero_lt_succ _
  | SOCK_AUTH => exact fun _ => rfl
  | SOCK_LINKED => exact fun _ => rfl
  | SOCK_CLOSED => exact fun _ => rfl
  | SOCK_INVALID => exact fun _ => rfl

/-- Nobody listens at 1.2.3.4:80. -/
def refusing : Env :=
  { Env.noNames 7 with connect := fun addr => addr.sin_addr.b0 ≠ 1 }

/-- The methods 0 and 2, a request for 1.2.3.4:80, and a payload that begins with a request for
5.6.7.8:443. -/
def sample : Stream where
  greeting := ⟨[0, 2], nofun, by decide⟩
  request := ⟨5, 1, 0, .ipv4 ⟨1, 2, 3, 4⟩, ⟨0, 80⟩⟩
  payload := [5, 1, 0, 1, 5, 6, 7, 8, 1, 187, 9, 9]

/-- One {lit}`recv` for each message. -/
def sampleMessages : List (List UInt8) :=
  [[5, 2, 0, 2], [5, 1, 0, 1, 1, 2, 3, 4, 0, 80], [5, 1, 0, 1, 5, 6, 7, 8, 1, 187], [9, 9]]

/-- Cuts that do no harm. -/
def samplePieces : List (List UInt8) :=
  [[5, 2], [0, 2, 5, 1, 0], [1], [1, 2, 3, 4, 0, 80, 5], [1, 0, 1], [5, 6, 7, 8, 1, 187, 9], [9]]

theorem splitting_irrelevant_sample : ∃ s s' : Sock5Ctxt,
    machine.run (construct ⟨⟨0, 0, 0, 0⟩, ⟨0, 0⟩⟩ 0) (sampleMessages.map (.recv refusing)) =
      some s ∧
    machine.run (construct ⟨⟨0, 0, 0, 0⟩, ⟨0, 0⟩⟩ 0) (samplePieces.map (.recv refusing)) =
      some s' ∧
    s.connects = [⟨⟨1, 2, 3, 4⟩, ⟨0, 80⟩⟩, ⟨⟨5, 6, 7, 8⟩, ⟨1, 187⟩⟩] ∧ s.forwarded = [9, 9] ∧
    s.outcome = s'.outcome := by
  have hmessages : ((machine.restrict Uncut).run (construct ⟨⟨0, 0, 0, 0⟩, ⟨0, 0⟩⟩ 0)
      (sampleMessages.map (.recv refusing))).map
        (fun s => (s.received, s.__rxBuf.contents, s.connects, s.forwarded)) =
      some (sample.bytes, [], [⟨⟨1, 2, 3, 4⟩, ⟨0, 80⟩⟩, ⟨⟨5, 6, 7, 8⟩, ⟨1, 187⟩⟩], [9, 9]) := by
    decide +kernel
  have hpieces : ((machine.restrict Uncut).run (construct ⟨⟨0, 0, 0, 0⟩, ⟨0, 0⟩⟩ 0)
      (samplePieces.map (.recv refusing))).map (fun s => (s.received, s.__rxBuf.contents)) =
      some (sample.bytes, []) := by
    decide +kernel
  rcases Option.map_eq_some_iff.mp hmessages with ⟨s, hs, hvalues⟩
  rcases Option.map_eq_some_iff.mp hpieces with ⟨s', hs', hvalues'⟩
  rcases Machine.restrict_run_iff.mp hs with ⟨hrun, huncut⟩
  rcases Machine.restrict_run_iff.mp hs' with ⟨hrun', huncut'⟩
  simp only [Prod.mk.injEq] at hvalues hvalues'
  rcases hvalues with ⟨hbytes, hnil, hconnects, hforwarded⟩
  rcases hvalues' with ⟨hbytes', hnil'⟩
  refine ⟨s, s', hrun, hrun', hconnects, hforwarded, ?_⟩
  exact splitting_irrelevant (.steady refusing) sample hrun hrun' (along_steady rfl rfl _ _)
    (along_steady rfl rfl _ _) hbytes hbytes' huncut huncut' (spent_of_nil hnil)
    (spent_of_nil hnil')

/-- The methods 0 and 2, a request for 1.2.3.4:80 and two bytes. -/
def plain : Stream where
  greeting := ⟨[0, 2], nofun, by decide⟩
  request := ⟨5, 1, 0, .ipv4 ⟨1, 2, 3, 4⟩, ⟨0, 80⟩⟩
  payload := [9, 9]

/-- A {lit}`recv` that ends before the last method: the method becomes the first byte of the request,
and the remote is what {lit}`serv_addr` happens to hold. -/
theorem splitting_matters : ∃ s s' : Sock5Ctxt,
    machine.run (construct ⟨⟨0, 0, 0, 0⟩, ⟨0, 0⟩⟩ 0)
      ([[5, 2, 0, 2], [5, 1, 0, 1, 1, 2, 3, 4, 0, 80], [9, 9]].map (.recv (.noNames 7))) =
        some s ∧
    machine.run (construct ⟨⟨0, 0, 0, 0⟩, ⟨0, 0⟩⟩ 0)
      ([[5, 2, 0], [2, 5, 1, 0, 1, 1, 2, 3, 4, 0, 80], [9, 9]].map (.recv (.noNames 7))) =
        some s' ∧
    s.received = plain.bytes ∧ s'.received = plain.bytes ∧
    s.outcome = ⟨[5, 0, 5, 0, 0, 1, 1, 2, 3, 4, 1, 187], [⟨⟨1, 2, 3, 4⟩, ⟨0, 80⟩⟩], .SOCK_LINKED,
      [9, 9]⟩ ∧
    s'.outcome = ⟨[5, 0, 5, 0, 0, 1, 0, 0, 0, 0, 1, 187], [⟨⟨0, 0, 0, 0⟩, ⟨0, 0⟩⟩], .SOCK_LINKED,
      [2, 5, 1, 0, 1, 1, 2, 3, 4, 0, 80, 9, 9]⟩ ∧
    s.outcome ≠ s'.outcome := by
  have hwhole : (machine.run (construct ⟨⟨0, 0, 0, 0⟩, ⟨0, 0⟩⟩ 0)
      ([[5, 2, 0, 2], [5, 1, 0, 1, 1, 2, 3, 4, 0, 80], [9, 9]].map (.recv (.noNames 7)))).map
        (fun s => (s.received, s.outcome)) =
      some (plain.bytes, ⟨[5, 0, 5, 0, 0, 1, 1, 2, 3, 4, 1, 187], [⟨⟨1, 2, 3, 4⟩, ⟨0, 80⟩⟩],
        .SOCK_LINKED, [9, 9]⟩) := by
    decide +kernel
  have hcut : (machine.run (construct ⟨⟨0, 0, 0, 0⟩, ⟨0, 0⟩⟩ 0)
      ([[5, 2, 0], [2, 5, 1, 0, 1, 1, 2, 3, 4, 0, 80], [9, 9]].map (.recv (.noNames 7)))).map
        (fun s => (s.received, s.outcome)) =
      some (plain.bytes, ⟨[5, 0, 5, 0, 0, 1, 0, 0, 0, 0, 1, 187], [⟨⟨0, 0, 0, 0⟩, ⟨0, 0⟩⟩],
        .SOCK_LINKED, [2, 5, 1, 0, 1, 1, 2, 3, 4, 0, 80, 9, 9]⟩) := by
    decide +kernel
  rcases Option.map_eq_some_iff.mp hwhole with ⟨s, hs, hvalues⟩
  rcases Option.map_eq_some_iff.mp hcut with ⟨s', hs', hvalues'⟩
  rcases Prod.mk.inj hvalues with ⟨hbytes, houtcome⟩
  rcases Prod.mk.inj hvalues' with ⟨hbytes', houtcome'⟩
  refine ⟨s, s', hs, hs', hbytes, hbytes', houtcome, houtcome', ?_⟩
  rw [houtcome, houtcome']
  decide

end Sock5Ctxt
end CoEpoll
