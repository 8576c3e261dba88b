import CoEpoll.ASocket.Descriptors

/-!
# `Acceptor` and its sessions: the descriptors of the server

{lit}`Acceptor::init` makes the listening descriptor, {lit}`Acceptor::run` accepts, and each accepted descriptor
becomes the {lit}`__localConn` of a session in a coroutine of its own.  A session may make a second descriptor,
which it closes when {lit}`colib::connect` fails and which is its {lit}`__remoteConn` otherwise; behind its loop it
closes the remote connection and then the local one.  The coroutines stand in {lit}`socket`, {lit}`accept` and
{lit}`close` as in {lit}`Descriptors`.

An exception ends a session without closing its local connection.

Main results:

- Theorem {lit}`Books.step`: every held descriptor is that of one connection or of the listener.
- Theorem {lit}`server_accounted`: the server uses and closes only what it holds, and leaks only what a
  session had that has thrown.
-/

namespace CoEpoll
namespace Server

open Transition Colib

/-! ## Sessions -/

/-- Where a session stands, with the descriptors of its connections. -/
inductive Session where
  /-- Not started. -/
  | idle
  /-- In the loop of {lit}`run`, without a remote connection. -/
  | serve (conn : Int32)
  /-- In {lit}`colib::socket`. -/
  | socket (conn : Int32)
  /-- In {lit}`colib::connect`. -/
  | connect (conn sockfd : Int32)
  /-- {lit}`colib::connect` has failed; about to call {lit}`colib::close(sockfd)`. -/
  | refuse (conn sockfd : Int32)
  | refusing (conn : Int32)
  /-- In the loop of {lit}`run`, with {lit}`handleRLink` at work. -/
  | linked (conn remote : Int32)
  /-- Behind the loop, about to call {lit}`__remoteConn->close()`. -/
  | closeRemote (conn remote : Int32)
  | closingRemote (conn : Int32)
  /-- About to call {lit}`__localConn->close()`. -/
  | closeLocal (conn : Int32)
  | closingLocal
  | done
  /-- A handler has thrown. -/
  | thrown (conn : Int32)
deriving DecidableEq

/-- What a caller has of {lit}`fd`: a negative number is no descriptor. -/
def descriptor (fd : Int32) : Option Int32 :=
  if fd < 0 then none else some fd

namespace Session

inductive Action where
  /-- {lit}`handleReq` comes to {lit}`colib::socket`. -/
  | request
  /-- {lit}`colib::socket` returns {lit}`sockfd`. -/
  | opened (sockfd : Int32)
  /-- {lit}`colib::connect` returns. -/
  | connected (ok : Bool)
  | close
  /-- {lit}`colib::close` returns. -/
  | closed
  /-- The loop of {lit}`run` is left. -/
  | leave
  | throw
deriving DecidableEq

/-- One step of a session.  A descriptor that is not positive is linked without {lit}`connect`, and
{lit}`colib::close` of a negative number returns at once. -/
def step : Session → Action → Option Session
  | serve conn, .request => some (.socket conn)
  | socket conn, .opened sockfd =>
      some (if sockfd > 0 then .connect conn sockfd else .linked conn sockfd)
  | connect conn sockfd, .connected ok =>
      some (if ok then .linked conn sockfd else .refuse conn sockfd)
  | refuse conn sockfd, .close => some (if sockfd < 0 then .serve conn else .refusing conn)
  | refusing conn, .closed => some (.serve conn)
  | serve conn, .leave => some (.closeLocal conn)
  | linked conn remote, .leave => some (.closeRemote conn remote)
  | closeRemote conn remote, .close =>
      some (if remote < 0 then .closeLocal conn else .closingRemote conn)
  | closingRemote conn, .closed => some (.closeLocal conn)
  | closeLocal conn, .close => some (if conn < 0 then .done else .closingLocal)
  | closingLocal, .closed => some .done
  | serve conn, .throw => some (.thrown conn)
  | _, _ => none

/-- What the session is about to close. -/
def closing : Session → Option Int32
  | refuse _ sockfd => some sockfd
  | closeRemote _ remote => some remote
  | closeLocal conn => some conn
  | _ => none

/-- The descriptor of {lit}`__localConn`, until it is being closed. -/
def conn : Session → Option Int32
  | serve conn => descriptor conn
  | socket conn => descriptor conn
  | connect conn _ => descriptor conn
  | refuse conn _ => descriptor conn
  | refusing conn => descriptor conn
  | linked conn _ => descriptor conn
  | closeRemote conn _ => descriptor conn
  | closingRemote conn => descriptor conn
  | closeLocal conn => descriptor conn
  | thrown conn => descriptor conn
  | _ => none

/-- {lit}`sockfd`, or the descriptor of {lit}`__remoteConn`, until it is being closed. -/
def remote : Session → Option Int32
  | connect _ sockfd => descriptor sockfd
  | refuse _ sockfd => descriptor sockfd
  | linked _ remote => descriptor remote
  | closeRemote _ remote => descriptor remote
  | _ => none

end Session

/-! ## The server -/

/-- The descriptors of the process, {lit}`Acceptor::__fd` once {lit}`init` has it, and the sessions; the accept
loop is the coroutine {lit}`none`. -/
structure State (σ ι : Type*) where
  desc : Descriptors.State (Option σ) ι
  listener : Option Int32
  session : σ → Session

variable {σ ι : Type*}

/-- A new server in a process in which the descriptors {lit}`other` are open. -/
def State.construct (icus : List ι) (pos : ι → ℕ) (other : Int32 → Bool) : State σ ι where
  desc := .construct icus pos other
  listener := none
  session _ := .idle

inductive Action (σ : Type*) where
  /-- {lit}`::socket` returns {lit}`fd` in {lit}`Acceptor::init`. -/
  | init (fd : Int32)
  /-- {lit}`colib::socket` returns there. -/
  | inited
  /-- {lit}`::accept4` returns {lit}`fd`; the next session to start is {lit}`j`. -/
  | accept (fd : Int32) (j : σ)
  /-- {lit}`colib::accept` returns, and the session {lit}`j` starts when it returns a descriptor. -/
  | accepted (j : σ)
  /-- {lit}`::socket` returns {lit}`fd` to a session. -/
  | socket (j : σ) (fd : Int32)
  /-- {lit}`colib::socket` returns there. -/
  | socketed (j : σ)
  /-- A session calls {lit}`colib::close`. -/
  | close (j : σ)
  /-- {lit}`colib::close` returns there. -/
  | closed (j : σ)
  /-- A session goes on without a call of these. -/
  | session (j : σ) (a : Session.Action)
  /-- {lit}`updateIRQ` with the poller's answer. -/
  | updateIRQ (k : Option σ) (ret : Int)
  /-- {lit}`removeIRQ` with the poller's answer. -/
  | removeIRQ (k : Option σ) (ret : Int)
deriving DecidableEq

/-- The step calls neither {lit}`socket` nor {lit}`close`. -/
def Session.Action.inner : Session.Action → Bool
  | request => true
  | connected _ => true
  | leave => true
  | throw => true
  | _ => false

section Step

variable [DecidableEq σ] [DecidableEq ι]

/-- A session goes on at {lit}`p`. -/
def State.goto (s : State σ ι) (j : σ) (p : Session) : State σ ι :=
  { s with session := Function.update s.session j p }

/-- One step of the server. -/
def step (icus : List ι) (s : State σ ι) : Action σ → Option (State σ ι)
  | .init fd =>
      match s.listener with
      | none => (Descriptors.step icus s.desc (.socket none fd)).map fun desc =>
          { s with desc := desc, listener := if fd > 0 then none else some fd }
      | some _ => none
  | .inited =>
      match s.listener, s.desc.pc none with
      | none, .registered fd ret => (Descriptors.step icus s.desc (.finish none)).map fun desc =>
          { s with desc := desc, listener := some (if ret = 0 then fd else -1) }
      | _, _ => none
  | .accept fd j =>
      match s.listener, s.session j with
      | some listener, .idle =>
          -- waitFile finds no entry for a listener that is not registered
          if fd < 0 ∨ listener > 0 then
            (Descriptors.step icus s.desc (.accept none fd)).map fun desc =>
              if fd < 0 ∨ fd > 0 then { s with desc := desc }
              else { s with desc := desc }.goto j (.serve fd)
          else none
      | _, _ => none
  | .accepted j =>
      match s.listener, s.desc.pc none, s.session j with
      | some _, .registered fd ret, .idle =>
          (Descriptors.step icus s.desc (.finish none)).map fun desc =>
            if ret = 0 then { s with desc := desc }.goto j (.serve fd) else { s with desc := desc }
      | _, _, _ => none
  | .socket j fd =>
      match s.session j with
      | .socket conn => (Descriptors.step icus s.desc (.socket (some j) fd)).map fun desc =>
          if fd > 0 then { s with desc := desc }
          else { s with desc := desc }.goto j (.linked conn fd)
      | _ => none
  | .socketed j =>
      match s.desc.pc (some j) with
      | .registered fd ret =>
          ((s.session j).step (.opened (if ret = 0 then fd else -1))).bind fun p =>
            (Descriptors.step icus s.desc (.finish (some j))).map fun desc =>
              { s with desc := desc }.goto j p
      | _ => none
  | .close j =>
      match (s.session j).closing with
      | some fd => ((s.session j).step .close).bind fun p =>
          (Descriptors.step icus s.desc (.close (some j) fd)).map fun desc =>
            { s with desc := desc }.goto j p
      | none => none
  | .closed j =>
      match s.desc.pc (some j) with
      | .removed _ _ => ((s.session j).step .closed).bind fun p =>
          (Descriptors.step icus s.desc (.finish (some j))).map fun desc =>
            { s with desc := desc }.goto j p
      | _ => none
  | .session j a =>
      if a.inner then ((s.session j).step a).map fun p => s.goto j p else none
  | .updateIRQ k ret => (Descriptors.step icus s.desc (.updateIRQ k ret)).map fun desc =>
      { s with desc := desc }
  | .removeIRQ k ret => (Descriptors.step icus s.desc (.removeIRQ k ret)).map fun desc =>
      { s with desc := desc }

/-- The accept loop, the sessions and the pollers, in any interleaving. -/
def machine (icus : List ι) (other : Int32 → Bool) : Machine (State σ ι) (Action σ) where
  init s := ∃ pos, s = State.construct icus pos other
  step := step icus

end Step

/-! ## What the calls do to the held descriptors -/

section Held

variable {κ : Type*} [DecidableEq κ] {other : Int32 → Bool} {d d' : Descriptors.State κ ι} {k : κ}
  {fd : Int32} {ret : Int}

/-- A positive descriptor is not given out before it is registered. -/
theorem held_make (h : Descriptors.Inv other d) (hstep : Descriptors.make d k fd = some d') :
    (fd > 0 ∧ d'.held = d.held) ∨ ¬ fd > 0 ∧
      ((fd < 0 ∧ d'.held = d.held) ∨ (¬ fd < 0 ∧ fd ∉ d.held ∧ d'.held = d.held ++ [fd])) := by
  rcases Option.ite_none_right_eq_some.mp hstep with ⟨_, hstep⟩
  split at hstep
  · next hneg =>
      cases hstep
      exact Or.inr ⟨Int32.lt_asymm hneg, Or.inl ⟨hneg, rfl⟩⟩
  · next hneg =>
      rcases Option.ite_none_left_eq_some.mp hstep with ⟨hfree, hstep⟩
      have hheld : fd ∉ d.held := fun hmem => hfree ((h.opened fd).mpr (.inr (.inl hmem)))
      dsimp only at hstep
      split at hstep <;> cases hstep
      · exact Or.inl ⟨‹fd > 0›, rfl⟩
      · exact Or.inr ⟨‹¬ fd > 0›, Or.inr ⟨hneg, hheld, rfl⟩⟩

theorem held_registered (h : Descriptors.Inv other d) (hk : d.pc k = .registered fd ret)
    (hstep : Descriptors.finish d k = some d') :
    fd ∉ d.held ∧ ¬ fd < 0 ∧ d'.held = if ret = 0 then d.held ++ [fd] else d.held := by
  have hfd : (d.pc k).fd = some fd := by rw [hk]; rfl
  have hpos := h.fresh k fd (.inr ⟨ret, hk⟩)
  refine ⟨(h.alone hfd).1, ?_, ?_⟩
  · exact Int32.lt_asymm hpos
  · simp only [Descriptors.finish, hk] at hstep
    split at hstep <;> cases hstep
    · next hret => rw [if_pos hret]; rfl
    · next hret => rw [if_neg hret]; rfl

/-- What a call of {lit}`colib::socket` or {lit}`colib::accept` returns that has registered a descriptor. -/
theorem held_returned {r : Int32} (h : Descriptors.Inv other d) (hk : d.pc k = .registered fd ret)
    (hstep : Descriptors.finish d k = some d') (hr : r = if ret = 0 then fd else -1) :
    (r < 0 ∧ d'.held = d.held) ∨ (¬ r < 0 ∧ r ∉ d.held ∧ d'.held = d.held ++ [r]) := by
  rcases held_registered h hk hstep with ⟨hfresh, hneg, hheld⟩
  by_cases hret : ret = 0
  · rw [if_pos hret] at hr hheld
    subst hr
    exact Or.inr ⟨hneg, hfresh, hheld⟩
  · rw [if_neg hret] at hr hheld
    subst hr
    exact Or.inl ⟨by decide, hheld⟩

theorem held_removed (hk : d.pc k = .removed fd ret)
    (hstep : Descriptors.finish d k = some d') : d'.held = d.held := by
  simp only [Descriptors.finish, hk] at hstep
  cases hstep
  rfl

theorem held_close (hstep : Descriptors.close d k fd = some d') :
    d'.held = if fd < 0 then d.held else d.held.erase fd := by
  rcases Option.ite_none_right_eq_some.mp hstep with ⟨_, hstep⟩
  split at hstep <;> cases hstep
  · next hneg => rw [if_pos hneg]
  · next hneg => rw [if_neg hneg]; rfl

theorem held_updateIRQ [DecidableEq ι] {icus : List ι}
    (hstep : Descriptors.step icus d (.updateIRQ k ret) = some d') : d'.held = d.held := by
  simp only [Descriptors.step] at hstep
  split at hstep
  · rcases Option.map_eq_some_iff.mp hstep with ⟨_, _, rfl⟩
    rfl
  · cases hstep

theorem held_removeIRQ [DecidableEq ι] {icus : List ι}
    (hstep : Descriptors.step icus d (.removeIRQ k ret) = some d') : d'.held = d.held := by
  simp only [Descriptors.step] at hstep
  split at hstep
  · rcases Option.map_eq_some_iff.mp hstep with ⟨_, _, rfl⟩
    rfl
  · cases hstep

end Held

/-! ## Whose descriptors they are -/

/-- The descriptors of the listener ({lit}`none`) and of the sessions' local and remote connections. -/
def State.owns (s : State σ ι) : Option (σ × Bool) → Option Int32
  | none => s.listener.bind descriptor
  | some (j, false) => (s.session j).conn
  | some (j, true) => (s.session j).remote

/-- Every held descriptor is one that the listener or one connection has. -/
structure Books (other : Int32 → Bool) (s : State σ ι) : Prop where
  inv : Descriptors.Inv other s.desc
  custody : Custody [] [] s.owns (· ∈ s.desc.held)
  owner : ∀ fd ∈ s.desc.held, ∃ p, s.owns p = some fd

namespace Session

variable {p q : Session} {fd : Int32}

theorem step_inner {a : Action} (ha : a.inner = true) (hstep : p.step a = some q) :
    q.conn = p.conn ∧ q.remote = p.remote := by
  cases a with
  | connected ok => cases ok <;> cases p <;> cases hstep <;> exact ⟨rfl, rfl⟩
  | request =>
      cases p <;> cases hstep
      exact ⟨rfl, rfl⟩
  | leave => cases p <;> cases hstep <;> exact ⟨rfl, rfl⟩
  | throw =>
      cases p <;> cases hstep
      exact ⟨rfl, rfl⟩
  | _ => cases ha

theorem step_opened (hstep : p.step (.opened fd) = some q) :
    q.conn = p.conn ∧ p.remote = none ∧ q.remote = descriptor fd := by
  cases p <;> cases hstep
  split <;> exact ⟨rfl, rfl, rfl⟩

theorem step_closed (hstep : p.step .closed = some q) :
    q.conn = p.conn ∧ q.remote = p.remote := by
  cases p <;> cases hstep <;> exact ⟨rfl, rfl⟩

/-- {lit}`close` lets go of the remote connection's descriptor or of the local one's. -/
theorem step_close (hclosing : p.closing = some fd) (hstep : p.step .close = some q) :
    (q.conn = p.conn ∧ p.remote = descriptor fd ∧ q.remote = none) ∨
      (q.remote = p.remote ∧ p.conn = descriptor fd ∧ q.conn = none) := by
  cases p <;> cases hstep <;> cases hclosing
  · exact Or.inl (by split <;> exact ⟨rfl, rfl, rfl⟩)
  · exact Or.inl (by split <;> exact ⟨rfl, rfl, rfl⟩)
  · exact Or.inr (by split <;> exact ⟨rfl, rfl, rfl⟩)

end Session

section Books

variable {other : Int32 → Bool} {s s' : State σ ι} {j : σ} {p : Option (σ × Bool)} {q : Session}
  {fd : Int32}

/-- Nobody's descriptor changes. -/
theorem Books.keep (h : Books other s) (hinv : Descriptors.Inv other s'.desc)
    (hheld : s'.desc.held = s.desc.held) (howns : s'.owns = s.owns) : Books other s' where
  inv := hinv
  custody := by
    rw [hheld, howns]
    exact h.custody
  owner := by
    rw [hheld, howns]
    exact h.owner

theorem books_construct (icus : List ι) (pos : ι → ℕ) (other : Int32 → Bool) :
    Books other (State.construct (σ := σ) icus pos other) where
  inv := Descriptors.inv_construct icus pos other
  custody := by
    have hnone : ∀ p, (State.construct (σ := σ) icus pos other).owns p = none := by
      intro p
      rcases p with _ | ⟨j, _ | _⟩ <;> rfl
    refine ⟨?_, ?_, ?_, ?_⟩ <;> simp [hnone]
  owner fd hfd := by cases hfd

/-- A session closes the descriptors of its own connections. -/
theorem closing_owns (hclosing : (s.session j).closing = some fd) :
    fd < 0 ∨ ∃ b, s.owns (some (j, b)) = some fd := by
  by_cases hneg : fd < 0
  · exact Or.inl hneg
  · right
    cases hsession : s.session j <;> rw [hsession] at hclosing <;> cases hclosing
    · exact ⟨true, by simp [State.owns, hsession, Session.remote, descriptor, hneg]⟩
    · exact ⟨true, by simp [State.owns, hsession, Session.remote, descriptor, hneg]⟩
    · exact ⟨false, by simp [State.owns, hsession, Session.conn, descriptor, hneg]⟩

variable [DecidableEq σ]

/-- A descriptor is given out. -/
theorem Books.gain (h : Books other s) (hinv : Descriptors.Inv other s'.desc)
    (hfresh : fd ∉ s.desc.held) (hheld : s'.desc.held = s.desc.held ++ [fd])
    (hp : s.owns p = none) (howns : s'.owns = Function.update s.owns p (some fd)) :
    Books other s' where
  inv := hinv
  custody := by
    rw [howns]
    apply h.custody.move
    · intro n hn
      rw [hheld]
      exact List.mem_append_left _ hn
    · intro n hn
      cases hn
      exact Or.inr ⟨hfresh, by simp [hheld]⟩
  owner n hn := by
    rw [hheld, List.mem_append, List.mem_singleton] at hn
    rw [howns]
    rcases hn with hn | rfl
    · rcases h.owner n hn with ⟨p', hp'⟩
      refine ⟨p', ?_⟩
      rw [Function.update_of_ne, hp']
      rintro rfl
      cases hp.symm.trans hp'
    · exact ⟨p, Function.update_self ..⟩

/-- A descriptor is let go. -/
theorem Books.lose (h : Books other s) (hinv : Descriptors.Inv other s'.desc)
    (hp : s.owns p = some fd) (hheld : s'.desc.held = s.desc.held.erase fd)
    (howns : s'.owns = Function.update s.owns p none) : Books other s' where
  inv := hinv
  custody := by
    rw [howns]
    refine (h.custody.drop hp).congr (fun _ => Iff.rfl) fun n => ?_
    rw [hheld, h.inv.nodup.mem_erase_iff]
    exact And.comm
  owner n hn := by
    rw [hheld, h.inv.nodup.mem_erase_iff] at hn
    rcases h.owner n hn.2 with ⟨p', hp'⟩
    refine ⟨p', ?_⟩
    rw [howns, Function.update_of_ne, hp']
    rintro rfl
    exact hn.1 (Option.some.inj (hp'.symm.trans hp))

/-- What {lit}`socket` or {lit}`accept` has returned becomes the descriptor of {lit}`p`. -/
theorem Books.give (h : Books other s) (hinv : Descriptors.Inv other s'.desc)
    (hp : s.owns p = none) (howns : s'.owns = Function.update s.owns p (descriptor fd))
    (hheld : (fd < 0 ∧ s'.desc.held = s.desc.held) ∨
      (¬ fd < 0 ∧ fd ∉ s.desc.held ∧ s'.desc.held = s.desc.held ++ [fd])) : Books other s' := by
  rcases hheld with ⟨hneg, hheld⟩ | ⟨hneg, hfresh, hheld⟩
  · refine h.keep hinv hheld ?_
    rw [howns, descriptor, if_pos hneg, ← hp]
    exact Function.update_eq_self p s.owns
  · rw [descriptor, if_neg hneg] at howns
    exact h.gain hinv hfresh hheld hp howns

/-- {lit}`p` lets go of its descriptor in {lit}`close`. -/
theorem Books.take (h : Books other s) (hinv : Descriptors.Inv other s'.desc)
    (hp : s.owns p = descriptor fd) (howns : s'.owns = Function.update s.owns p none)
    (hheld : s'.desc.held = if fd < 0 then s.desc.held else s.desc.held.erase fd) :
    Books other s' := by
  by_cases hneg : fd < 0
  · rw [descriptor, if_pos hneg] at hp
    rw [if_pos hneg] at hheld
    refine h.keep hinv hheld ?_
    rw [howns, ← hp]
    exact Function.update_eq_self p s.owns
  · rw [descriptor, if_neg hneg] at hp
    rw [if_neg hneg] at hheld
    exact h.lose hinv hp hheld howns

theorem owns_listener (d : Descriptors.State (Option σ) ι) (fd : Int32) :
    ({ s with desc := d, listener := some fd } : State σ ι).owns =
      Function.update s.owns none (descriptor fd) := by
  ext1 p
  rcases p with _ | ⟨i, _ | _⟩ <;> simp [State.owns]

theorem owns_goto_remote (hconn : q.conn = (s.session j).conn) :
    (s.goto j q).owns = Function.update s.owns (some (j, true)) q.remote := by
  ext1 p
  cases p with
  | none => simp [State.owns, State.goto]
  | some slot =>
      rcases slot with ⟨i, _ | _⟩ <;> by_cases hi : i = j <;>
        simp_all [State.owns, State.goto]

theorem owns_goto_conn (hremote : q.remote = (s.session j).remote) :
    (s.goto j q).owns = Function.update s.owns (some (j, false)) q.conn := by
  ext1 p
  cases p with
  | none => simp [State.owns, State.goto]
  | some slot =>
      rcases slot with ⟨i, _ | _⟩ <;> by_cases hi : i = j <;>
        simp_all [State.owns, State.goto]

theorem owns_goto (hconn : q.conn = (s.session j).conn)
    (hremote : q.remote = (s.session j).remote) : (s.goto j q).owns = s.owns := by
  rw [owns_goto_remote hconn, hremote]
  exact Function.update_eq_self (some (j, true)) s.owns

variable [DecidableEq ι] {icus : List ι}

/-- One step of the server keeps the books. -/
theorem Books.step (h : Books other s) {a : Action σ} (hstep : Server.step icus s a = some s') :
    Books other s' := by
  cases a with
  | init fd =>
      simp only [Server.step] at hstep
      split at hstep
      · next hlistener =>
          rcases Option.map_eq_some_iff.mp hstep with ⟨d, hd, rfl⟩
          have hinv := h.inv.step (a := .socket none fd) trivial hd
          have hnone : s.owns none = none := by simp [State.owns, hlistener]
          rcases held_make h.inv hd with ⟨hpos, hheld⟩ | ⟨hpos, hheld⟩
          · rw [if_pos hpos, ← hlistener]
            exact h.keep hinv hheld rfl
          · rw [if_neg hpos]
            exact h.give hinv hnone (owns_listener d fd) hheld
      · cases hstep
  | inited =>
      simp only [Server.step] at hstep
      split at hstep
      · next fd ret hlistener hk =>
          rcases Option.map_eq_some_iff.mp hstep with ⟨d, hd, rfl⟩
          have hinv := h.inv.step (a := .finish none) trivial hd
          exact h.give hinv (by simp [State.owns, hlistener]) (owns_listener d _)
            (held_returned h.inv hk hd rfl)
      · cases hstep
  | accept fd j =>
      simp only [Server.step] at hstep
      split at hstep
      · next hlistener hidle =>
          rcases Option.ite_none_right_eq_some.mp hstep with ⟨_, hstep⟩
          rcases Option.map_eq_some_iff.mp hstep with ⟨d, hd, rfl⟩
          have hinv := h.inv.step (a := .accept none fd) trivial hd
          rcases held_make h.inv hd with ⟨hpos, hheld⟩ | ⟨hpos, ⟨hneg, hheld⟩ | hheld⟩
          · rw [if_pos (Or.inr hpos)]
            exact h.keep hinv hheld rfl
          · rw [if_pos (Or.inl hneg)]
            exact h.keep hinv hheld rfl
          · rw [if_neg (not_or.mpr ⟨hheld.1, hpos⟩)]
            refine h.give (p := some (j, false)) hinv ?_ ?_ (Or.inr hheld)
            · simp [State.owns, hidle, Session.conn]
            · exact owns_goto_conn (by simp [hidle, Session.remote])
      · cases hstep
  | accepted j =>
      simp only [Server.step] at hstep
      split at hstep
      · next fd ret hlistener hk hidle =>
          rcases Option.map_eq_some_iff.mp hstep with ⟨d, hd, rfl⟩
          have hinv := h.inv.step (a := .finish none) trivial hd
          have hheld := held_registered h.inv hk hd
          by_cases hret : ret = 0
          · rw [if_pos hret] at hheld ⊢
            refine h.give (p := some (j, false)) hinv ?_ ?_ (Or.inr ⟨hheld.2.1, hheld.1, hheld.2.2⟩)
            · simp [State.owns, hidle, Session.conn]
            · exact owns_goto_conn (by simp [hidle, Session.remote])
          · rw [if_neg hret] at hheld ⊢
            exact h.keep hinv hheld.2.2 rfl
      · cases hstep
  | socket j fd =>
      simp only [Server.step] at hstep
      split at hstep
      · next conn hsession =>
          rcases Option.map_eq_some_iff.mp hstep with ⟨d, hd, rfl⟩
          have hinv := h.inv.step (a := .socket (some j) fd) trivial hd
          rcases held_make h.inv hd with ⟨hpos, hheld⟩ | ⟨hpos, hheld⟩
          · rw [if_pos hpos]
            exact h.keep hinv hheld rfl
          · rw [if_neg hpos]
            refine h.give (p := some (j, true)) hinv ?_ ?_ hheld
            · simp [State.owns, hsession, Session.remote]
            · exact owns_goto_remote (by simp [hsession, Session.conn])
      · cases hstep
  | socketed j =>
      simp only [Server.step] at hstep
      split at hstep
      · next fd ret hk =>
          rcases Option.bind_eq_some_iff.mp hstep with ⟨q, hq, hstep⟩
          rcases Option.map_eq_some_iff.mp hstep with ⟨d, hd, rfl⟩
          have hinv := h.inv.step (a := .finish (some j)) trivial hd
          rcases Session.step_opened hq with ⟨hconn, hnone, hremote⟩
          refine h.give (p := some (j, true)) hinv hnone ?_ (held_returned h.inv hk hd rfl)
          rw [← hremote]
          exact owns_goto_remote hconn
      · cases hstep
  | close j =>
      simp only [Server.step] at hstep
      split at hstep
      · next fd hclosing =>
          rcases Option.bind_eq_some_iff.mp hstep with ⟨q, hq, hstep⟩
          rcases Option.map_eq_some_iff.mp hstep with ⟨d, hd, rfl⟩
          have hheld : fd < 0 ∨ fd ∈ s.desc.held := by
            rcases closing_owns hclosing with hneg | ⟨b, hown⟩
            · exact Or.inl hneg
            · exact Or.inr (h.custody.owned _ _ hown).1
          have hinv := h.inv.step (a := .close (some j) fd) hheld hd
          rcases Session.step_close hclosing hq with ⟨hconn, hremote, hnone⟩ | ⟨hremote, hconn, hnone⟩
          · refine h.take (p := some (j, true)) hinv hremote ?_ (held_close hd)
            rw [← hnone]
            exact owns_goto_remote hconn
          · refine h.take (p := some (j, false)) hinv hconn ?_ (held_close hd)
            rw [← hnone]
            exact owns_goto_conn hremote
      · cases hstep
  | closed j =>
      simp only [Server.step] at hstep
      split at hstep
      · next fd ret hk =>
          rcases Option.bind_eq_some_iff.mp hstep with ⟨q, hq, hstep⟩
          rcases Option.map_eq_some_iff.mp hstep with ⟨d, hd, rfl⟩
          have hinv := h.inv.step (a := .finish (some j)) trivial hd
          rcases Session.step_closed hq with ⟨hconn, hremote⟩
          exact h.keep hinv (held_removed hk hd) (owns_goto hconn hremote)
      · cases hstep
  | session j a =>
      simp only [Server.step] at hstep
      rcases Option.ite_none_right_eq_some.mp hstep with ⟨ha, hstep⟩
      rcases Option.map_eq_some_iff.mp hstep with ⟨q, hq, rfl⟩
      rcases Session.step_inner ha hq with ⟨hconn, hremote⟩
      exact h.keep h.inv rfl (owns_goto hconn hremote)
  | updateIRQ k ret =>
      rcases Option.map_eq_some_iff.mp hstep with ⟨d, hd, rfl⟩
      have hinv := h.inv.step (a := .updateIRQ k ret) trivial hd
      exact h.keep hinv (held_updateIRQ hd) rfl
  | removeIRQ k ret =>
      rcases Option.map_eq_some_iff.mp hstep with ⟨d, hd, rfl⟩
      have hinv := h.inv.step (a := .removeIRQ k ret) trivial hd
      exact h.keep hinv (held_removeIRQ hd) rfl

end Books

/-! ## What stays open -/

namespace Session

/-- The session has been started, and its local connection is not being closed. -/
def started : Session → Bool
  | idle => false
  | closingLocal => false
  | done => false
  | _ => true

/-- A started session has a descriptor. -/
def Connected (p : Session) : Prop :=
  p.started = true → p.conn ≠ none

theorem Connected.step {p q : Session} {a : Action} (h : p.Connected) (hstep : p.step a = some q) :
    q.Connected := by
  cases a with
  | opened fd =>
      intro _
      rw [(step_opened hstep).1]
      cases p <;> cases hstep
      exact h rfl
  | closed =>
      intro hq
      rw [(step_closed hstep).1]
      cases p <;> cases hstep <;> first | exact h rfl | cases hq
  | close =>
      cases p <;> cases hstep <;> split <;>
        first | exact fun _ => h rfl | exact fun hq => by cases hq
  | request =>
      cases p <;> cases hstep
      exact fun _ => h rfl
  | connected ok => cases ok <;> cases p <;> cases hstep <;> exact fun _ => h rfl
  | leave => cases p <;> cases hstep <;> exact fun _ => h rfl
  | throw =>
      cases p <;> cases hstep
      exact fun _ => h rfl

/-- A session that has thrown does nothing any more. -/
theorem step_thrown (conn : Int32) (a : Action) : (thrown conn).step a = none := by
  cases a <;> rfl

end Session

section Open

variable [DecidableEq σ] [DecidableEq ι] {icus : List ι} {other : Int32 → Bool} {s s' : State σ ι}

/-- A session stays where it is, takes a step of its own, or is started. -/
def Moves (p q : Session) : Prop :=
  q = p ∨ (∃ a, p.step a = some q) ∨ ∃ fd, p = .idle ∧ ¬ fd < 0 ∧ q = .serve fd

omit [DecidableEq ι] in
theorem moves_goto {d : Descriptors.State (Option σ) ι} {j : σ} {q : Session}
    (hmoves : Moves (s.session j) q) (i : σ) :
    Moves (s.session i) (({ s with desc := d } : State σ ι).goto j q |>.session i) := by
  by_cases hij : i = j
  · subst hij
    simpa [State.goto] using hmoves
  · exact Or.inl (Function.update_of_ne hij _ _)

/-- A step moves at most one session. -/
theorem moves_of_step (h : Books other s) {a : Action σ} (hstep : step icus s a = some s') (i : σ) :
    Moves (s.session i) (s'.session i) := by
  cases a with
  | init fd =>
      simp only [step] at hstep
      split at hstep
      · rcases Option.map_eq_some_iff.mp hstep with ⟨d, _, rfl⟩
        exact Or.inl rfl
      · cases hstep
  | inited =>
      simp only [step] at hstep
      split at hstep
      · rcases Option.map_eq_some_iff.mp hstep with ⟨d, _, rfl⟩
        exact Or.inl rfl
      · cases hstep
  | accept fd j =>
      simp only [step] at hstep
      split at hstep
      · next hidle =>
          rcases Option.ite_none_right_eq_some.mp hstep with ⟨_, hstep⟩
          rcases Option.map_eq_some_iff.mp hstep with ⟨d, _, rfl⟩
          split
          · exact Or.inl rfl
          · next hzero =>
              exact moves_goto (Or.inr (Or.inr ⟨fd, hidle, fun hneg => hzero (Or.inl hneg), rfl⟩)) i
      · cases hstep
  | accepted j =>
      simp only [step] at hstep
      split at hstep
      · next fd ret _ hk hidle =>
          rcases Option.map_eq_some_iff.mp hstep with ⟨d, hd, rfl⟩
          split
          · have hneg := (held_registered h.inv hk hd).2.1
            exact moves_goto (Or.inr (Or.inr ⟨fd, hidle, hneg, rfl⟩)) i
          · exact Or.inl rfl
      · cases hstep
  | socket j fd =>
      simp only [step] at hstep
      split at hstep
      · next conn hsession =>
          rcases Option.map_eq_some_iff.mp hstep with ⟨d, _, rfl⟩
          split
          · exact Or.inl rfl
          · next hpos =>
              refine moves_goto (Or.inr (Or.inl ⟨.opened fd, ?_⟩)) i
              exact (congrArg (Session.step · _) hsession).trans (congrArg some (if_neg hpos))
      · cases hstep
  | socketed j =>
      simp only [step] at hstep
      split at hstep
      · rcases Option.bind_eq_some_iff.mp hstep with ⟨q, hq, hstep⟩
        rcases Option.map_eq_some_iff.mp hstep with ⟨d, _, rfl⟩
        exact moves_goto (Or.inr (Or.inl ⟨_, hq⟩)) i
      · cases hstep
  | close j =>
      simp only [step] at hstep
      split at hstep
      · rcases Option.bind_eq_some_iff.mp hstep with ⟨q, hq, hstep⟩
        rcases Option.map_eq_some_iff.mp hstep with ⟨d, _, rfl⟩
        exact moves_goto (Or.inr (Or.inl ⟨_, hq⟩)) i
      · cases hstep
  | closed j =>
      simp only [step] at hstep
      split at hstep
      · rcases Option.bind_eq_some_iff.mp hstep with ⟨q, hq, hstep⟩
        rcases Option.map_eq_some_iff.mp hstep with ⟨d, _, rfl⟩
        exact moves_goto (Or.inr (Or.inl ⟨_, hq⟩)) i
      · cases hstep
  | session j a =>
      simp only [step] at hstep
      rcases Option.ite_none_right_eq_some.mp hstep with ⟨_, hstep⟩
      rcases Option.map_eq_some_iff.mp hstep with ⟨q, hq, rfl⟩
      exact moves_goto (Or.inr (Or.inl ⟨a, hq⟩)) i
  | updateIRQ k ret =>
      rcases Option.map_eq_some_iff.mp hstep with ⟨d, _, rfl⟩
      exact Or.inl rfl
  | removeIRQ k ret =>
      rcases Option.map_eq_some_iff.mp hstep with ⟨d, _, rfl⟩
      exact Or.inl rfl

/-- The books, and that every started session has a descriptor. -/
def Kept (other : Int32 → Bool) (s : State σ ι) : Prop :=
  Books other s ∧ ∀ j, (s.session j).Connected

theorem Kept.step (h : Kept other s) {a : Action σ} (hstep : Server.step icus s a = some s') :
    Kept other s' := by
  refine ⟨h.1.step hstep, fun j => ?_⟩
  rcases moves_of_step h.1 hstep j with hsame | ⟨b, hb⟩ | ⟨fd, _, hneg, hstart⟩
  · rw [hsame]
    exact h.2 j
  · exact (h.2 j).step hb
  · rw [hstart]
    intro _
    simp [Session.conn, descriptor, hneg]

omit [DecidableEq σ] [DecidableEq ι] in
theorem kept_construct (icus : List ι) (pos : ι → ℕ) (other : Int32 → Bool) :
    Kept other (State.construct (σ := σ) icus pos other) :=
  ⟨books_construct icus pos other, fun _ hstarted => by cases hstarted⟩

/-- What is true of the descriptors of the server. -/
structure Accounts (other : Int32 → Bool) (s : State σ ι) : Prop where
  /-- What the kernel and its pollers have of them. -/
  accounted : Descriptors.Accounted other s.desc
  /-- Every open descriptor has its place. -/
  places : ∀ fd, s.desc.isOpen fd = true ↔
    other fd = true ∨ (∃ p, s.owns p = some fd) ∨ ∃ k, (s.desc.pc k).fd = some fd
  /-- The listener's descriptor, or a connection's, is in no other place. -/
  apart : ∀ p fd, s.owns p = some fd → other fd = false ∧ (∀ q, s.owns q = some fd → q = p) ∧
    ∀ k, (s.desc.pc k).fd ≠ some fd
  /-- A session closes its own descriptors. -/
  closes : ∀ j fd, (s.session j).closing = some fd → fd < 0 ∨ ∃ b, s.owns (some (j, b)) = some fd
  /-- A started session has its local connection. -/
  connected : ∀ j, (s.session j).started = true → ∃ fd, s.owns (some (j, false)) = some fd

omit [DecidableEq σ] [DecidableEq ι] in
theorem Kept.accounts (h : Kept other s) : Accounts other s where
  accounted := h.1.inv.accounted
  places fd := by
    have hheld : fd ∈ s.desc.held ↔ ∃ p, s.owns p = some fd :=
      ⟨h.1.owner fd, fun ⟨p, hp⟩ => (h.1.custody.owned p fd hp).1⟩
    rw [← hheld]
    exact h.1.inv.opened fd
  apart p fd hp := by
    have hheld := (h.1.custody.owned p fd hp).1
    refine ⟨(h.1.inv.accounted.held.2 fd hheld).1, fun q hq => h.1.custody.alone q p fd hq hp, ?_⟩
    exact h.1.inv.not_held hheld
  closes j fd hclosing := closing_owns hclosing
  connected j hstarted := Option.ne_none_iff_exists'.mp (h.2 j hstarted)

omit [DecidableEq σ] [DecidableEq ι] in
/-- The local connection of a session that has thrown is open. -/
theorem Kept.open_thrown (h : Kept other s) {j : σ} {conn : Int32}
    (hthrown : s.session j = .thrown conn) : s.desc.isOpen conn = true := by
  have hconn : s.owns (some (j, false)) = descriptor conn := by
    simp [State.owns, hthrown, Session.conn]
  have hne : descriptor conn ≠ none := by
    rw [← hconn]
    exact h.2 j (by rw [hthrown]; rfl)
  have hown : s.owns (some (j, false)) = some conn := by
    rw [hconn]
    unfold descriptor at hne ⊢
    split at hne
    · exact absurd rfl hne
    · next hneg => rw [if_neg hneg]
  exact (h.accounts.places conn).mpr (Or.inr (Or.inl ⟨_, hown⟩))

/-- In every interleaving of the accept loop, the sessions and the answers of the pollers: the server
closes no descriptor but its own, and whatever it has made has one place, which is the listener, one
connection of one session, or the hands of the coroutine that registers or closes it.  A session that has
thrown keeps its local connection open for ever. -/
theorem server_accounted {pos : ι → ℕ} {as bs : List (Action σ)} {t : State σ ι}
    (hrun : (machine icus other).run (State.construct icus pos other) as = some s)
    (hrest : (machine icus other).run s bs = some t) :
    Accounts other s ∧ ∀ j conn, s.session j = .thrown conn →
      t.session j = .thrown conn ∧ t.desc.isOpen conn = true := by
  have hs : Kept other s :=
    Machine.run_keep (fun _ _ _ h hstep => h.step hstep) (kept_construct icus pos other) hrun
  refine ⟨hs.accounts, fun j conn hthrown => ?_⟩
  have hkept := Machine.run_keep (I := fun u => Kept other u ∧ u.session j = .thrown conn)
    (fun u a v hu hstep => by
      refine ⟨hu.1.step hstep, ?_⟩
      rcases moves_of_step hu.1.1 hstep j with hsame | ⟨b, hb⟩ | ⟨fd, hidle, _⟩
      · exact hsame.trans hu.2
      · rw [hu.2, Session.step_thrown] at hb
        cases hb
      · cases hu.2.symm.trans hidle) ⟨hs, hthrown⟩ hrest
  exact ⟨hkept.2, hkept.1.open_thrown hkept.2⟩

end Open

/-- The session {lit}`true` is refused a connection while the session {lit}`false` starts and throws; then the
first one ends. -/
def refusedAndThrown : List (Action Bool) :=
  [.init 3, .updateIRQ none 0, .inited, .accept 5 true, .updateIRQ none 0, .accepted true,
    .session true .request, .socket true 6, .accept 7 false, .updateIRQ (some true) 0,
    .updateIRQ none 0, .socketed true, .accepted false, .session true (.connected false),
    .close true, .session false .throw, .removeIRQ (some true) 0, .closed true]

def lastSession : List (Action Bool) :=
  [.session true .leave, .close true, .removeIRQ (some true) 0, .closed true]

/-- A server with one ICU, in a process without other descriptors. -/
def sampleStart : State Bool Unit :=
  State.construct [()] (fun _ => 0) fun _ => false

theorem server_accounted_sample : ∃ s t : State Bool Unit,
    (machine [()] fun _ => false).run sampleStart refusedAndThrown = some s ∧
    (machine [()] fun _ => false).run s lastSession = some t ∧
    s.desc.held = [3, 5, 7] ∧ t.desc.held = [3, 7] ∧ Accounts (fun _ => false) s ∧
    t.desc.isOpen 7 = true := by
  have hrun : ((machine [()] fun _ => false).run sampleStart refusedAndThrown).map
      (fun s => (s.desc.held, s.session false)) = some ([3, 5, 7], .thrown 7) := by
    decide +kernel
  rcases Option.map_eq_some_iff.mp hrun with ⟨s, hs, hheld⟩
  have hrest : ((machine [()] fun _ => false).run sampleStart
      (refusedAndThrown ++ lastSession)).map (fun s => s.desc.held) = some [3, 7] := by
    decide +kernel
  rw [Machine.run_append, hs] at hrest
  rcases Option.map_eq_some_iff.mp hrest with ⟨t, ht, hheld'⟩
  rcases Prod.mk.inj hheld with ⟨hheld, hthrown⟩
  rcases server_accounted hs ht with ⟨haccounts, hopen⟩
  exact ⟨s, t, hs, ht, hheld, hheld', haccounts, (hopen false 7 hthrown).2⟩

end Server
end CoEpoll
