import CoEpoll.Sock5Ctxt.Handlers

/-!
# `Sock5Ctxt`: what a success reply says

{lit}`handleReq` replies 5, 0 whenever it gets past {lit}`colib::connect`: also when no socket could be created,
when the address type is unknown, and when it has read bytes of a request that are not there yet.

Main results:

- Theorem {lit}`Inv.dispatch`: a handler that meets a whole message keeps {lit}`__rxBuf` in step with the
  messages of the client.
- Theorem {lit}`truthful_along`: in a run whose handlers all do, a success reply is truthful.
- Theorem {lit}`reply_lies`: success replies without a socket and to half a request.
-/

namespace CoEpoll

open Transition Ring Socks5

namespace Sock5Ctxt

/-- The socket was created and connected to the address and port that the request encodes. -/
def GrantTruthful (g : Grant) : Prop :=
  0 < g.sockfd ∧ g.connected = some true ∧ Encodes g.gethostbyname g.request g.addr

/-- Every success reply is truthful, and {lit}`SOCK_LINKED` is entered with one. -/
structure Truthful (s : Sock5Ctxt) : Prop where
  grants : ∀ g ∈ s.grants, GrantTruthful g
  linked : s.__state = .SOCK_LINKED → s.grants ≠ []

/-- The name in the request is a string of C. -/
def NulFree (r : Request) : Prop :=
  match r.dest with
  | .ipv4 _ => True
  | .domain name _ => 0 ∉ name

/-- {lit}`handleAuth` waits, or it ignores another version, or the greeting is there as a whole, or it
does not find a method and throws. -/
def GreetingMet (bytes : List UInt8) : Prop :=
  3 ≤ bytes.length → bytes.head? = some SOCK5_VERSION →
    greetingLength bytes ≤ bytes.length ∨ 0 ∉ bytes.drop 2

/-- {lit}`handleReq` waits, or a request that it can read is there as a whole and a socket is created
for its destination, or the address type is unknown and {lit}`colib::connect` fails. -/
def RequestMet (env : Env) (serv_addr : SockAddr) (bytes : List UInt8) : Prop :=
  5 ≤ bytes.length →
    (∃ (r : Request) (rest : List UInt8), bytes = r.encode ++ rest ∧ Readable r ∧ NulFree r ∧
      (r.target env.gethostbyname ≠ none → 0 < env.socket)) ∨
    ∃ atyp, bytes[3]? = some atyp ∧ atyp ≠ 1 ∧ atyp ≠ 3 ∧ 0 < env.socket ∧
      env.connect serv_addr = false

/-- What the handler of the state finds in {lit}`__rxBuf`. -/
def HandlerMet (s : Sock5Ctxt) (env : Env) (bytes : List UInt8) : Prop :=
  match s.__state with
  | .SOCK_INIT => GreetingMet bytes
  | .SOCK_REQ => RequestMet env s.serv_addr bytes
  | _ => True

/-- The handler of the step meets a whole message. -/
def Met (s : Sock5Ctxt) : Action → Prop
  | .recv env xs => s.HandlerMet env (s.__rxBuf.contents ++ xs)
  | _ => True

/-- {lit}`__rxBuf` holds what the client has sent of its message. -/
structure Tracked (s : Sock5Ctxt) : Prop where
  contents : s.__rxBuf.contents = s.received.drop s.mark
  mark_le : s.mark ≤ s.received.length

/-- {lit}`__rxBuf` is in step with the client until {lit}`SOCK_LINKED`, and the replies are truthful. -/
structure Inv (s : Sock5Ctxt) : Prop where
  tracked : s.__state = .SOCK_LINKED ∨ Tracked s
  truthful : Truthful s

variable {s t : Sock5Ctxt} {env : Env} {r : Request} {rest : List UInt8}

/-! ## Messages that are taken out -/

theorem Tracked.receive (h : Tracked s) {xs : List UInt8}
    (hxs : xs.length ≤ s.__rxBuf.writeableCap.toNat) : Tracked (s.receive xs hxs) where
  contents := by
    rw [(contents_receive hxs).1, h.contents]
    exact (List.drop_append_of_le_length h.mark_le).symm
  mark_le := by
    change s.mark ≤ (s.received ++ xs).length
    rw [List.length_append]
    exact Nat.le_trans h.mark_le (Nat.le_add_right _ _)

/-- A handler that takes a message out of {lit}`__rxBuf` stays in step. -/
theorem Tracked.next (h : Tracked s) (msg : List UInt8) {len : List UInt8 → Nat}
    (hmsg : s.__rxBuf.contents = msg ++ rest) (hlen : len (msg ++ rest) = msg.length)
    (hreceived : t.received = s.received)
    (hmark : t.mark = s.mark + len (s.received.drop s.mark))
    (hrest : t.__rxBuf.contents = rest) : Tracked t := by
  have hdrop : s.received.drop s.mark = msg ++ rest := h.contents.symm.trans hmsg
  have hlength := congrArg List.length hdrop
  rw [List.length_drop, List.length_append] at hlength
  rw [hdrop, hlen] at hmark
  have hle := h.mark_le
  constructor
  · rw [hrest, hreceived, hmark, ← List.drop_drop, hdrop, List.drop_left]
  · rw [hreceived, hmark]
    omega

/-- A state without a new success reply. -/
theorem Truthful.keep (h : Truthful s) (hgrants : t.grants = s.grants)
    (hstate : t.__state = .SOCK_LINKED → s.__state = .SOCK_LINKED) : Truthful t where
  grants := hgrants ▸ h.grants
  linked hlinked := hgrants ▸ h.linked (hstate hlinked)

/-- {lit}`gethostbyname` gets the whole name. -/
theorem target_cString (h : NulFree r) (gethostbyname : List UInt8 → Option InAddr) :
    r.target (gethostbyname ∘ cString) = r.target gethostbyname := by
  unfold NulFree at h
  unfold Request.target
  split
  · rfl
  · rename_i name bounded hdest
    rw [hdest] at h
    rw [Function.comp_apply, cString_eq h]

/-! ## The handlers -/

/-- {lit}`handleAuth` leaves everything as it is, or it answers a whole greeting. -/
theorem handleAuth_met (hmet : GreetingMet s.__rxBuf.contents) {ret : Sock5Ctxt × Int}
    (hret : s.handleAuth env = .ok ret) :
    ret.1 = s ∨ ∃ mNum methods rest rxBuf method,
      s.__rxBuf.contents = SOCK5_VERSION :: mNum :: methods ++ rest ∧
      methods.length = mNum.toNat ∧ rxBuf.contents = rest ∧
      ret.1 = s.answer rxBuf method env.localSend := by
  match hbytes : s.__rxBuf.contents with
  | [] | [_] | [_, _] =>
      rw [handleAuth_short (by simp [hbytes])] at hret
      cases hret
      exact .inl rfl
  | ver :: mNum :: ch :: tail =>
      by_cases hver : ver = SOCK5_VERSION
      · subst hver
        by_cases hwhole : mNum.toNat ≤ (ch :: tail).length
        · have hsplit := List.take_append_drop mNum.toNat (ch :: tail)
          have hlen := List.length_take_of_le hwhole
          rw [← hsplit] at hbytes
          rcases handleAuth_whole env hbytes hlen (by rw [hsplit, List.length_cons]; omega) with
            ⟨rxBuf, hauth, hrest, _⟩
          rw [hauth] at hret
          cases hret
          rw [← hsplit]
          exact .inr ⟨mNum, _, _, rxBuf, _, rfl, hlen, hrest, rfl⟩
        · rw [hbytes] at hmet
          rcases hmet (Nat.le_add_left 3 tail.length) rfl with hle | hzero
          · rw [greetingLength, List.length_cons, List.length_cons] at hle
            omega
          · have hpos : 1 ≤ (ch :: tail).length := Nat.le_add_left 1 tail.length
            rw [handleAuth_truncated hbytes hpos (by omega) hzero] at hret
            cases hret
      · rw [handleAuth_version hbytes (Nat.le_add_left 2 tail.length) hver] at hret
        cases hret
        exact .inl rfl

/-- {lit}`handleAuth` stays in step. -/
theorem Inv.handleAuth (h : Inv s) (htracked : Tracked s)
    (hmet : GreetingMet s.__rxBuf.contents) {ret : Sock5Ctxt × Int}
    (hret : s.handleAuth env = .ok ret) : Inv ret.1 := by
  rcases handleAuth_met hmet hret with heq | ⟨mNum, methods, rest, rxBuf, method, hbytes, hlen,
    hrest, heq⟩
  · rw [heq]
    exact h
  · rw [heq]
    refine ⟨.inr ?_, h.truthful.keep rfl nofun⟩
    refine htracked.next (SOCK5_VERSION :: mNum :: methods) hbytes ?_ rfl rfl hrest
    rw [List.cons_append, List.cons_append, greetingLength, List.length_cons, List.length_cons,
      hlen]
    omega

/-- A connection that has been made for the request at the front of {lit}`__rxBuf`. -/
theorem Inv.link_found (h : Inv s) (htracked : Tracked s)
    (hbytes : s.__rxBuf.contents = r.encode ++ rest) {addr : SockAddr}
    (htarget : r.target env.gethostbyname = some addr) (hsocket : 0 < env.socket)
    {rxBuf : Buffer UInt8} (hrest : rxBuf.contents = rest) :
    Inv ({ s with __rxBuf := rxBuf, serv_addr := addr }.link env).1 := by
  cases hconnect : env.connect addr with
  | true =>
      rw [link_connected hsocket hconnect]
      refine ⟨.inl rfl, ?_, fun _ => List.concat_ne_nil _ _⟩
      intro g hg
      rcases List.mem_append.mp hg with hg | hg
      · exact h.truthful.grants g hg
      · cases List.mem_singleton.mp hg
        exact ⟨hsocket, rfl, r, rest, htracked.contents.symm.trans hbytes, htarget⟩
  | false =>
      rw [link_failed hsocket hconnect]
      refine ⟨.inr ?_, h.truthful.keep rfl id⟩
      exact htracked.next r.encode hbytes (requestLength_encode r rest) rfl rfl hrest

/-- {lit}`handleReq` stays in step, and what it grants is truthful. -/
theorem Inv.handleReq (h : Inv s) (htracked : Tracked s)
    (hmet : RequestMet env s.serv_addr s.__rxBuf.contents) {ret : Sock5Ctxt × Int}
    (hret : s.handleReq env = .ok ret) : Inv ret.1 := by
  by_cases hshort : s.__rxBuf.contents.length < 5
  · rw [handleReq_short hshort] at hret
    cases hret
    exact h
  · rcases hmet (Nat.not_lt.mp hshort) with
      ⟨r, rest, hbytes, hreadable, hnul, hsocket⟩ | ⟨atyp, hatyp, hipv4, hdomain, hsocket, hconnect⟩
    · have hcString := target_cString hnul env.gethostbyname
      cases htarget : r.target env.gethostbyname with
      | none =>
          rcases handleReq_unknown hbytes hreadable (hcString.trans htarget) with
            ⟨rxBuf, serv_addr, hrest, hreq⟩
          rw [hreq] at hret
          cases hret
          refine ⟨.inr ?_, h.truthful.keep rfl id⟩
          exact htracked.next r.encode hbytes (requestLength_encode r rest) rfl rfl hrest
      | some addr =>
          rcases handleReq_found hbytes hreadable (hcString.trans htarget) with
            ⟨rxBuf, hrest, hreq⟩
          rw [hreq] at hret
          cases hret
          refine h.link_found htracked hbytes htarget (hsocket ?_) hrest
          rw [htarget]
          nofun
    · rw [handleReq_unsupported (Nat.not_lt.mp hshort) hatyp hipv4 hdomain,
        link_failed hsocket hconnect] at hret
      cases hret
      refine ⟨.inr ?_, h.truthful.keep rfl id⟩
      exact htracked.next [] rfl (requestLength_unsupported hatyp hipv4 hdomain) rfl rfl rfl

/-- A handler that meets a whole message keeps {lit}`__rxBuf` in step. -/
theorem Inv.dispatch (h : Inv s) (hmet : s.HandlerMet env s.__rxBuf.contents)
    (ht : s.dispatch env = .ok t) : Inv t := by
  unfold Sock5Ctxt.dispatch at ht
  unfold HandlerMet at hmet
  cases hstate : s.__state with
  | SOCK_INIT =>
      rw [hstate] at ht hmet
      rcases map_eq_ok ht with ⟨ret, hret, rfl⟩
      refine h.handleAuth (h.tracked.resolve_left ?_) hmet hret
      rw [hstate]
      nofun
  | SOCK_REQ =>
      rw [hstate] at ht hmet
      rcases map_eq_ok ht with ⟨ret, hret, rfl⟩
      refine h.handleReq (h.tracked.resolve_left ?_) hmet hret
      rw [hstate]
      nofun
  | SOCK_LINKED =>
      rw [hstate] at ht
      cases ht
      unfold forward
      split
      · exact ⟨.inl hstate, h.truthful.keep rfl id⟩
      · exact h
  | SOCK_AUTH | SOCK_CLOSED | SOCK_INVALID =>
      rw [hstate] at ht
      cases ht
      exact h

/-! ## Runs -/

/-- A state that differs elsewhere. -/
theorem Inv.keep (h : Inv s) (hstate : t.__state = s.__state) (hrx : t.__rxBuf = s.__rxBuf)
    (hreceived : t.received = s.received) (hmark : t.mark = s.mark)
    (hgrants : t.grants = s.grants) : Inv t where
  tracked := by
    rw [hstate]
    refine h.tracked.imp id fun htracked => ⟨?_, ?_⟩
    · rw [hrx, hreceived, hmark]
      exact htracked.contents
    · rw [hreceived, hmark]
      exact htracked.mark_le
  truthful := h.truthful.keep hgrants fun hlinked => hstate.symm.trans hlinked

theorem Inv.receive (h : Inv s) {xs : List UInt8}
    (hxs : xs.length ≤ s.__rxBuf.writeableCap.toNat) : Inv (s.receive xs hxs) where
  tracked := h.tracked.imp id fun htracked => htracked.receive hxs
  truthful := h.truthful.keep rfl id

/-- A session that goes on is in step. -/
def Kept (s : Sock5Ctxt) : Prop :=
  Truthful s ∧ (s.phase = .recv → Inv s)

theorem kept_construct (serv_addr : SockAddr) (sockfd : Int32) :
    Kept (construct serv_addr sockfd) := by
  have htruthful : Truthful (construct serv_addr sockfd) := ⟨nofun, nofun⟩
  refine ⟨htruthful, fun _ => ⟨.inr ⟨?_, Nat.le_refl _⟩, htruthful⟩⟩
  exact List.eq_nil_of_length_eq_zero (Buffer.length_contents _)

/-- A step whose handler meets a whole message. -/
theorem Kept.step {a : Action} (h : Kept s) (hmet : Met s a) (hstep : step s a = some t) :
    Kept t := by
  have hcase := step_cases hstep
  cases a with
  | recv env xs =>
      rcases hcase with ⟨hphase, _, hxs, rfl⟩
      have hinv := (h.2 hphase).receive hxs
      have hmet : (s.receive xs hxs).HandlerMet env (s.receive xs hxs).__rxBuf.contents := by
        rw [(contents_receive hxs).1]
        exact hmet
      rcases pass_cases (s.receive xs hxs) env with ⟨u, hdispatch, heq⟩ | heq
      · rw [heq]
        have hinv := hinv.dispatch hmet hdispatch
        exact ⟨hinv.truthful.keep rfl id, fun _ => hinv.keep rfl rfl rfl rfl rfl⟩
      · rw [heq]
        exact ⟨hinv.truthful.keep rfl id, nofun⟩
  | recvEnd =>
      cases hcase
      exact ⟨h.1.keep rfl id, nofun⟩
  | rlink r xs =>
      rcases hcase with ⟨hxs, rfl⟩
      exact ⟨h.1.keep rfl id, fun hphase => (h.2 hphase).keep rfl rfl rfl rfl rfl⟩
  | rlinkEnd =>
      cases hcase
      exact ⟨h.1.keep rfl id, fun hphase => (h.2 hphase).keep rfl rfl rfl rfl rfl⟩

/-- In a run whose handlers all meet whole messages every success reply is truthful, and
{lit}`SOCK_LINKED` is entered with one. -/
theorem truthful_along {serv_addr : SockAddr} {sockfd : Int32} {as : List Action}
    (hmet : machine.Along Met (construct serv_addr sockfd) as)
    (hrun : machine.run (construct serv_addr sockfd) as = some s) : Truthful s := by
  have hkept : Kept s := by
    apply Machine.Along.run (I := Kept) ?_ (kept_construct serv_addr sockfd) hmet hrun
    intro s a t h hok hstep
    exact h.step hok hstep
  exact hkept.1

/-- A greeting, and a request for 1.2.3.4:80. -/
def wholeSession (socket : Int32) : List Action :=
  [.recv (.noNames socket) [5, 1, 0], .recv (.noNames socket) [5, 1, 0, 1, 1, 2, 3, 4, 0, 80]]

theorem truthful_along_session : ∃ s : Sock5Ctxt,
    machine.run (construct ⟨⟨0, 0, 0, 0⟩, ⟨0, 0⟩⟩ 0) (wholeSession 7) = some s ∧
    s.grants ≠ [] ∧ Truthful s := by
  have hfirst : (machine.step (construct ⟨⟨0, 0, 0, 0⟩, ⟨0, 0⟩⟩ 0)
      (.recv (.noNames 7) [5, 1, 0])).map (fun s => (s.__state, s.__rxBuf.contents)) =
        some (.SOCK_REQ, []) := by
    decide +kernel
  have hrun : (machine.run (construct ⟨⟨0, 0, 0, 0⟩, ⟨0, 0⟩⟩ 0) (wholeSession 7)).map
      (fun s => (s.__state, s.connects)) = some (.SOCK_LINKED, [⟨⟨1, 2, 3, 4⟩, ⟨0, 80⟩⟩]) := by
    decide +kernel
  rcases Option.map_eq_some_iff.mp hrun with ⟨s, hs, hlinked⟩
  have hmet : machine.Along Met (construct ⟨⟨0, 0, 0, 0⟩, ⟨0, 0⟩⟩ 0) (wholeSession 7) := by
    refine ⟨fun _ _ => .inl (by decide), fun t ht => ⟨?_, fun _ _ => trivial⟩⟩
    rw [ht] at hfirst
    rcases Prod.mk.inj (Option.some.inj hfirst) with ⟨hstate, hcontents⟩
    unfold Met HandlerMet
    rw [hstate, hcontents]
    intro _
    refine .inl ⟨⟨5, 1, 0, .ipv4 ⟨1, 2, 3, 4⟩, ⟨0, 80⟩⟩, [], rfl, trivial, trivial, fun _ => ?_⟩
    decide
  have htruthful := truthful_along hmet hs
  exact ⟨s, hs, htruthful.linked (Prod.mk.inj hlinked).1, htruthful⟩

/-- A greeting, and half a request. -/
def halfSession : List Action :=
  [.recv (.noNames 7) [5, 1, 0], .recv (.noNames 7) [5, 1, 0, 1, 1, 2, 3, 4]]

/-- A success reply without a socket, and one to half a request, whose port {lit}`serv_addr` happens to
hold: neither is truthful. -/
theorem reply_lies :
    (∃ s, machine.run (construct ⟨⟨0, 0, 0, 0⟩, ⟨0, 0⟩⟩ 0) (wholeSession (-1)) = some s ∧
      s.__state = .SOCK_LINKED ∧ s.replied = [5, 0, 5, 0, 0, 1, 1, 2, 3, 4, 1, 187] ∧
      s.opened = [-1] ∧ s.connects = [] ∧ ¬ Truthful s) ∧
    ∃ s, machine.run (construct ⟨⟨0, 0, 0, 0⟩, ⟨31, 64⟩⟩ 0) halfSession = some s ∧
      s.__state = .SOCK_LINKED ∧ s.replied = [5, 0, 5, 0, 0, 1, 1, 2, 3, 4, 1, 187] ∧
      s.opened = [7] ∧ s.connects = [⟨⟨1, 2, 3, 4⟩, ⟨31, 64⟩⟩] ∧ ¬ Truthful s := by
  constructor
  · have hrun : (machine.run (construct ⟨⟨0, 0, 0, 0⟩, ⟨0, 0⟩⟩ 0) (wholeSession (-1))).map
        (fun s => (s.__state, s.replied, s.opened, s.connects, s.grants.map Grant.sockfd)) =
          some (.SOCK_LINKED, [5, 0, 5, 0, 0, 1, 1, 2, 3, 4, 1, 187], [-1], [], [-1]) := by
      decide +kernel
    rcases Option.map_eq_some_iff.mp hrun with ⟨s, hs, hvalues⟩
    simp only [Prod.mk.injEq] at hvalues
    rcases hvalues with ⟨hstate, hreplied, hopened, hconnects, hsockfd⟩
    refine ⟨s, hs, hstate, hreplied, hopened, hconnects, fun htruthful => ?_⟩
    rcases List.map_eq_singleton_iff.mp hsockfd with ⟨g, hg, hfd⟩
    have hpos : 0 < g.sockfd := (htruthful.grants g (hg ▸ List.mem_singleton_self g)).1
    rw [hfd] at hpos
    exact absurd hpos (by decide)
  · have hrun : (machine.run (construct ⟨⟨0, 0, 0, 0⟩, ⟨31, 64⟩⟩ 0) halfSession).map
        (fun s => (s.__state, s.replied, s.opened, s.connects)) =
          some (.SOCK_LINKED, [5, 0, 5, 0, 0, 1, 1, 2, 3, 4, 1, 187], [7],
            [⟨⟨1, 2, 3, 4⟩, ⟨31, 64⟩⟩]) := by
      decide +kernel
    have hrequest : (machine.run (construct ⟨⟨0, 0, 0, 0⟩, ⟨31, 64⟩⟩ 0) halfSession).map
        (fun s => s.grants.map Grant.request) = some [[5, 1, 0, 1, 1, 2, 3, 4]] := by
      decide +kernel
    rcases Option.map_eq_some_iff.mp hrun with ⟨s, hs, hvalues⟩
    simp only [Prod.mk.injEq] at hvalues
    rcases hvalues with ⟨hstate, hreplied, hopened, hconnects⟩
    rw [hs] at hrequest
    refine ⟨s, hs, hstate, hreplied, hopened, hconnects, fun htruthful => ?_⟩
    rcases List.map_eq_singleton_iff.mp (Option.some.inj hrequest) with ⟨g, hg, hbytes⟩
    rcases (htruthful.grants g (hg ▸ List.mem_singleton_self g)).2.2 with ⟨r, rest, hsplit, _⟩
    have hwhole : 0 < requestLength g.request := exists_request_iff.mp ⟨r, rest, hsplit⟩
    rw [hbytes] at hwhole
    exact absurd hwhole (by decide)

end Sock5Ctxt
end CoEpoll
