import CoEpoll.Sock5Ctxt.Handlers

/-!
# `Sock5Ctxt`: a client without an acceptable method

{lit}`handleAuth` keeps {lit}`method` in a local variable, and it goes on to {lit}`SOCK_REQ` whatever it has answered.

Main results:

- Theorem {lit}`refused_step`: the step that answers 5, 0xff enters {lit}`SOCK_REQ`.
- Theorem {lit}`refused_not_shut`: no run in which the server has answered 5, 0xff keeps the client out.
- Theorem {lit}`refused_served`: a refused client is connected to a remote and its bytes are forwarded.
-/

namespace CoEpoll

open Transition Socks5

namespace Sock5Ctxt

/-- After the answer 5, 0xff no request is accepted, no remote socket is opened and no byte is
relayed. -/
def Shut (s : Sock5Ctxt) : Prop :=
  s.refused = true → s.__state ≠ .SOCK_REQ ∧ s.__state ≠ .SOCK_LINKED ∧ s.opened = [] ∧
    s.forwarded = [] ∧ s.relayed = []

variable {s s' : Sock5Ctxt} {env : Env}

/-- {lit}`handleReq` does not touch the negotiation. -/
theorem refused_handleReq {ret : Sock5Ctxt × Int} (h : s.handleReq env = .ok ret) :
    ret.1.refused = s.refused := by
  rcases handleReq_cases h with ⟨rxBuf, serv_addr, h | h | h⟩
  · rw [h]
    unfold link
    dsimp only
    split
    · split <;> rfl
    · rfl
  · rw [h]
    rfl
  · rw [h]

theorem refused_forward (s : Sock5Ctxt) (r : SendRet) : (s.forward r).refused = s.refused := by
  unfold forward
  split <;> rfl

/-- The handler that answers a greeting enters {lit}`SOCK_REQ`. -/
theorem refused_dispatch {t : Sock5Ctxt} (h : s.dispatch env = .ok t) :
    t.refused = s.refused ∨ t.__state = .SOCK_REQ := by
  unfold dispatch at h
  split at h
  · rcases map_eq_ok h with ⟨ret, hauth, rfl⟩
    rcases handleAuth_cases hauth with heq | ⟨rxBuf, method, heq⟩
    · exact .inl (congrArg refused heq)
    · exact .inr (congrArg __state heq)
  · rcases map_eq_ok h with ⟨ret, hreq, rfl⟩
    exact .inl (refused_handleReq hreq)
  · cases h
    exact .inl (refused_forward s env.remoteSend)
  · cases h
    exact .inl rfl

/-- The step that answers 5, 0xff enters {lit}`SOCK_REQ`. -/
theorem refused_step {a : Action} (hstep : step s a = some s') :
    s'.refused = s.refused ∨ s'.__state = .SOCK_REQ := by
  have hcase := step_cases hstep
  cases a with
  | recv env xs =>
      rcases hcase with ⟨_, _, hxs, rfl⟩
      rcases pass_cases (s.receive xs hxs) env with ⟨t, hdispatch, heq⟩ | heq
      · rw [heq]
        rcases refused_dispatch hdispatch with hkeep | hreq
        · exact .inl hkeep
        · exact .inr hreq
      · rw [heq]
        exact .inl rfl
  | recvEnd =>
      cases hcase
      exact .inl rfl
  | rlink r xs =>
      rcases hcase with ⟨hxs, rfl⟩
      exact .inl rfl
  | rlinkEnd =>
      cases hcase
      exact .inl rfl

/-- A run that keeps out whoever has been refused does not refuse anybody. -/
theorem not_refused_of_shut {as : List Action} (hs : s.refused = false)
    (halways : machine.Always Shut s as) (hrun : machine.run s as = some s') :
    s'.refused = false := by
  apply Machine.Always.run (I := fun s => s.refused = false) ?_ hs halways hrun
  intro s a s' hs hstep hshut
  rcases refused_step hstep with heq | hreq
  · exact heq.trans hs
  · by_contra hrefused
    exact (hshut (Bool.eq_true_of_not_eq_false hrefused)).1 hreq

/-- In no run in which the server has answered 5, 0xff the client is kept out. -/
theorem refused_not_shut {serv_addr : SockAddr} {sockfd : Int32} {as : List Action}
    (hrun : machine.run (construct serv_addr sockfd) as = some s) (hrefused : s.refused = true) :
    ¬ machine.Always Shut (construct serv_addr sockfd) as := by
  intro halways
  have hnot := not_refused_of_shut rfl halways hrun
  cases hrefused.symm.trans hnot

/-- The client offers method 2 only, asks for 1.2.3.4:80 nevertheless and sends a byte. -/
def refusedSession : List Action :=
  [.recv (.noNames 7) [5, 1, 2], .recv (.noNames 7) [5, 1, 0, 1, 1, 2, 3, 4, 0, 80],
    .recv (.noNames 7) [9]]

theorem refused_not_shut_session :
    ¬ machine.Always Shut (construct ⟨⟨0, 0, 0, 0⟩, ⟨0, 0⟩⟩ 0) refusedSession := by
  have hrun : (machine.run (construct ⟨⟨0, 0, 0, 0⟩, ⟨0, 0⟩⟩ 0) refusedSession).map refused =
      some true := by
    decide +kernel
  rcases Option.map_eq_some_iff.mp hrun with ⟨s, hs, hrefused⟩
  exact refused_not_shut hs hrefused

/-- The refused client is connected, and its byte is forwarded. -/
theorem refused_served :
    (machine.run (construct ⟨⟨0, 0, 0, 0⟩, ⟨0, 0⟩⟩ 0) refusedSession).map
        (fun s => (s.refused, s.replied, s.__state)) =
      some (true, [5, 0xff, 5, 0, 0, 1, 1, 2, 3, 4, 1, 187], .SOCK_LINKED) ∧
    (machine.run (construct ⟨⟨0, 0, 0, 0⟩, ⟨0, 0⟩⟩ 0) refusedSession).map
        (fun s => (s.opened, s.forwarded)) = some ([7], [9]) := by
  constructor
  · decide +kernel
  · decide +kernel

end Sock5Ctxt
end CoEpoll
