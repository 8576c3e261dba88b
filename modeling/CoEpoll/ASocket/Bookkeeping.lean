import CoEpoll.ASocket.Position
import CoEpoll.ASocket.WritevCall

/-!
# `colib::writev`: the bookkeeping of its callback

The arrays are accessed inside of their bounds, so what an invocation does is what it does on
lists, and the position stays in step with the bytes that have been accepted.

Main results:

- Theorem {lit}`Tiov.build_eq`: the array {lit}`tiov` holds what is offered next.
- Theorem {lit}`Tiov.advance_eq`: the loop over {lit}`tiov` is the loop over what is offered.
- Theorem {lit}`writev_bookkept`: after every invocation the captured variables and the result tell how
  far the call has come.
-/

namespace CoEpoll
namespace Colib

open Transition Irq

variable {β : Type*}

/-! ## The accesses to the arrays -/

namespace Tiov

variable {iov segs : List (List β)} {tcnt : Nat}

/-- An array whose first cells hold {lit}`segs`. -/
def holding (segs : List (List β)) (rest : Nat) : Tiov β :=
  segs.map some ++ List.replicate rest none

theorem put_holding (segs : List (List β)) (seg : List β) (rest : Nat) :
    (holding segs (rest + 1)).put segs.length seg = some (holding (segs ++ [seg]) rest) := by
  have hlt : segs.length < (holding segs (rest + 1)).length := by
    simp [holding]
  rw [put, if_pos hlt]
  simp [holding, List.replicate_succ]

/-- The loop copies the elements behind those that have been copied. -/
theorem copy_holding (segs : List (List β)) (n rest : Nat)
    (hn : tcnt + segs.length + n ≤ iov.length) :
    copy iov tcnt n segs.length (holding segs (n + rest)) =
      some (holding (segs ++ (iov.drop (tcnt + segs.length)).take n) rest) := by
  induction n generalizing segs with
  | zero => simp [copy]
  | succ n ih =>
      have hlt : tcnt + segs.length < iov.length := by omega
      have hrest : n + 1 + rest = n + rest + 1 := by omega
      have hih := ih (segs ++ [iov[tcnt + segs.length]]) (by
        rw [List.length_append, List.length_singleton]
        omega)
      rw [List.length_append, List.length_singleton] at hih
      rw [copy, List.getElem?_eq_getElem hlt]
      dsimp only
      rw [hrest, put_holding, Option.bind_some, hih, List.drop_eq_getElem_cons hlt,
        List.take_succ_cons, List.append_assoc, List.singleton_append, Nat.add_assoc]

/-- The array holds what is offered next. -/
theorem build_eq {c : Writev β} {n : Nat} (h : c.StandsAt n) (hlt : c.tcnt < c.iov.length) :
    build c = some (holding c.tiov c.tcnt) := by
  have hseg : c.iov[c.tcnt]? = some c.iov[c.tcnt] := List.getElem?_eq_getElem hlt
  have hnew : (List.replicate c.iov.length none : Tiov β) =
      holding [] (c.iov.length - c.tcnt - 1 + c.tcnt + 1) := by
    have hlen : c.iov.length - c.tcnt - 1 + c.tcnt + 1 = c.iov.length := by omega
    rw [hlen]
    rfl
  have hfit : c.tcnt + [c.iov[c.tcnt].drop c.offset].length + (c.iov.length - c.tcnt - 1) ≤
      c.iov.length := by
    rw [List.length_singleton]
    omega
  have hcopy := copy_holding _ _ c.tcnt hfit
  have hrest : (c.iov.drop (c.tcnt + 1)).take (c.iov.length - c.tcnt - 1) =
      c.iov.drop (c.tcnt + 1) := by
    refine List.take_of_length_le ?_
    rw [List.length_drop]
    omega
  have htiov : c.tiov = c.iov[c.tcnt].drop c.offset :: c.iov.drop (c.tcnt + 1) := by
    rw [Writev.tiov, Colib.tiov, List.drop_eq_getElem_cons hlt]
  have hput := put_holding [] (c.iov[c.tcnt].drop c.offset)
    (c.iov.length - c.tcnt - 1 + c.tcnt)
  rw [List.length_nil, List.nil_append] at hput
  rw [List.length_singleton, hrest, List.singleton_append, ← htiov] at hcopy
  rw [build, hseg]
  dsimp only
  rw [if_pos (h.offset_le hseg), hnew, hput, Option.bind_some, hcopy]

/-- The system call reads what is offered. -/
theorem offer_holding (segs : List (List β)) (rest : Nat) :
    (holding segs rest).offer segs.length = some segs := by
  induction segs with
  | nil =>
      rw [List.length_nil]
      cases (holding [] rest : Tiov β) <;> rfl
  | cons seg segs ih =>
      change (offer (holding segs rest) segs.length).map _ = _
      rw [ih]
      rfl

theorem fetch_holding (done : List (List β)) (seg : List β) (segs : List (List β)) (rest : Nat) :
    (holding (done ++ seg :: segs) rest).fetch done.length = some seg := by
  simp [fetch, holding]

/-- The loop over the array is the loop over what is offered. -/
theorem advance_eq (done segs : List (List β)) (rest size offset tcnt : Nat) :
    advance (holding (done ++ segs) rest) segs.length done.length size offset tcnt =
      some (Colib.advance segs size offset tcnt) := by
  induction segs generalizing done size offset tcnt with
  | nil => rfl
  | cons seg segs ih =>
      have hih := ih (done ++ [seg]) (size - seg.length) 0 (tcnt + 1)
      rw [List.append_assoc, List.singleton_append, List.length_append,
        List.length_singleton] at hih
      rw [List.length_cons, advance, fetch_holding, Colib.advance]
      dsimp only
      split
      · rfl
      · exact hih

end Tiov

/-! ## The steps of a call -/

namespace WritevCall

variable {iov : List (List β)} {s s' : WritevCall β} {call : Nat}

/-- The captured variables, the array of an invocation in progress and the last result agree
with the bytes that have been accepted. -/
structure Inv (iov : List (List β)) (s : WritevCall β) : Prop where
  array : s.vars.iov = iov
  stands : s.vars.StandsAt s.accepted.length
  accepted : s.accepted = iov.flatten.take s.accepted.length
  phase : s.phase = .idle ∨
    s.vars.tcnt < iov.length ∧ s.phase = .inCall (Tiov.holding s.vars.tiov s.vars.tcnt)
  last : ∀ r, s.last = some r → r.exhausted = r.block ∧
    (r.block = true ↔ s.vars.tcnt < iov.length) ∧ (r.block = false → r.ret = s.vars.sendBytes)
  first : s.last = none → s.vars.tcnt < iov.length

theorem inv_construct (hne : iov ≠ []) : Inv iov (construct call iov) where
  array := rfl
  stands := Writev.standsAt_start call iov
  accepted := rfl
  phase := .inl rfl
  last _ h := nomatch h
  first _ := List.length_pos_iff.mpr hne

/-- A callback that has not been erased has elements left. -/
theorem Inv.tcnt_lt (h : Inv iov s) (herased : s.erased = false) : s.vars.tcnt < iov.length := by
  unfold erased at herased
  cases hlast : s.last with
  | none => exact h.first hlast
  | some r =>
      rw [hlast, Bool.not_eq_false'] at herased
      exact (h.last r hlast).2.1.mp herased

theorem Inv.invoke (h : Inv iov s) (hlt : s.vars.tcnt < iov.length) {events : Events}
    (hev : events &&& EPOLLRDHUP = 0) : Inv iov (s.invoke events) := by
  have hbuild := Tiov.build_eq h.stands (by rw [h.array]; exact hlt)
  have hinvoke : s.invoke events =
      { s with phase := .inCall (Tiov.holding s.vars.tiov s.vars.tcnt) } := by
    rw [WritevCall.invoke, if_neg (not_not.mpr hev), hbuild]
  rw [hinvoke]
  exact { h with phase := .inr ⟨hlt, rfl⟩ }

/-- What an invocation does with the accepted bytes is what it does on lists. -/
theorem accept_eq (s : WritevCall β) (size : Nat) :
    s.accept (Tiov.holding s.vars.tiov s.vars.tcnt) s.vars.tiov size =
      { s with
        vars := s.vars.sent size
        accepted := s.accepted ++ s.vars.tiov.flatten.take size
        : WritevCall β }.finish
          ⟨(s.vars.sent size).sendBytes, (s.vars.sent size).unfinished,
            (s.vars.sent size).unfinished⟩ := by
  have hlen : s.vars.tiov.length = s.riovcnt := length_tiov _ _ _
  have hadvance := Tiov.advance_eq [] s.vars.tiov s.vars.tcnt size
    s.vars.offset s.vars.tcnt
  rw [List.nil_append, List.length_nil, hlen] at hadvance
  rw [accept, hadvance]
  rfl

/-- The system call reads what is offered next. -/
theorem offer_eq (s : WritevCall β) :
    (Tiov.holding s.vars.tiov s.vars.tcnt).offer s.riovcnt = some s.vars.tiov := by
  have hlen : s.vars.tiov.length = s.riovcnt := length_tiov _ _ _
  rw [← hlen]
  exact Tiov.offer_holding s.vars.tiov s.vars.tcnt

theorem Inv.accept (h : Inv iov s) (hmax : iov.flatten.length ≤ INT_MAX) {size : Nat}
    (hsize : size ≤ s.vars.tiov.flatten.length) :
    Inv iov (s.accept (Tiov.holding s.vars.tiov s.vars.tcnt) s.vars.tiov size) := by
  rw [accept_eq]
  have hstands := h.stands.sent hsize (by rw [h.array]; exact hmax)
  have hlen : (s.accepted ++ s.vars.tiov.flatten.take size).length = s.accepted.length + size := by
    rw [List.length_append, List.length_take, Nat.min_eq_left hsize]
  refine ⟨h.array, by rw [← hlen] at hstands; exact hstands, ?_, .inl rfl, ?_, nofun⟩
  · change s.accepted ++ _ = iov.flatten.take (s.accepted ++ _).length
    rw [hlen, List.take_add, ← h.accepted, ← h.array, h.stands.flatten_tiov]
  · intro r hr
    cases hr
    refine ⟨rfl, ?_, fun _ => rfl⟩
    dsimp only [finish]
    rw [Writev.unfinished, decide_eq_true_iff]
    exact iff_of_eq (congrArg _ (congrArg _ h.array))

theorem Inv.sysret (h : Inv iov s) (hmax : iov.flatten.length ≤ INT_MAX)
    (hlt : s.vars.tcnt < iov.length) {r : SysRet} (hr : r ≠ .error)
    (hstep : s.sysret (Tiov.holding s.vars.tiov s.vars.tcnt) r = some s') : Inv iov s' := by
  rw [WritevCall.sysret, s.offer_eq] at hstep
  cases r with
  | eintr =>
      cases hstep
      exact h
  | wouldBlock =>
      cases hstep
      refine { h with phase := .inl rfl, last := ?_, first := nofun }
      intro r hr
      cases hr
      exact ⟨rfl, iff_of_true rfl hlt, nofun⟩
  | error => exact absurd rfl hr
  | ok size =>
      rcases Option.ite_none_right_eq_some.mp hstep with ⟨⟨hsize, _⟩, hstep⟩
      cases hstep
      exact h.accept hmax hsize

/-- What a step is: the callback is called, or its {lit}`::writev` returns. -/
theorem Inv.step_cases (h : Inv iov s) {a : Action} (hstep : s.step a = some s') :
    (∃ events, a = .invoke events ∧ s.phase = .idle ∧ s.erased = false ∧
        s' = s.invoke events) ∨
      ∃ r, a = .sysret r ∧ s.vars.tcnt < iov.length ∧
        s.sysret (Tiov.holding s.vars.tiov s.vars.tcnt) r = some s' := by
  rcases h.phase with hphase | ⟨hlt, hphase⟩
  · cases a with
    | invoke events =>
        simp only [WritevCall.step, hphase] at hstep
        rcases Option.ite_none_left_eq_some.mp hstep with ⟨herased, hstep⟩
        cases hstep
        exact .inl ⟨events, rfl, hphase, Bool.eq_false_iff.mpr herased, rfl⟩
    | sysret r => simp only [WritevCall.step, hphase, reduceCtorEq] at hstep
  · cases a with
    | invoke events => simp only [WritevCall.step, hphase, reduceCtorEq] at hstep
    | sysret r =>
        simp only [WritevCall.step, hphase] at hstep
        exact .inr ⟨r, rfl, hlt, hstep⟩

/-- A step in which neither {lit}`EPOLLRDHUP` nor a hard error is reported keeps the bookkeeping. -/
theorem Inv.step (h : Inv iov s) (hmax : iov.flatten.length ≤ INT_MAX) {a : Action}
    (hok : Unbroken a) (hstep : s.step a = some s') : Inv iov s' := by
  rcases h.step_cases hstep with ⟨events, rfl, _, herased, rfl⟩ | ⟨r, rfl, hlt, hstep⟩
  · exact h.invoke (h.tcnt_lt herased) hok
  · exact h.sysret hmax hlt hok hstep

/-- A call whose invocations see no {lit}`EPOLLRDHUP` and no hard error. -/
def unbrokenMachine (call : Nat) (iov : List (List β)) : Machine (WritevCall β) Action :=
  (machine call iov).restrict fun _ a => Unbroken a

theorem inductive_inv (call : Nat) (hne : iov ≠ []) (hmax : iov.flatten.length ≤ INT_MAX) :
    (unbrokenMachine call iov).Inductive (Inv iov) where
  init := by
    rintro _ rfl
    exact inv_construct hne
  step := by
    intro s a s' h hstep
    rcases Machine.restrict_step_eq_some.mp hstep with ⟨hok, hstep⟩
    exact h.step hmax hok hstep

/-- A callback that does not block any longer has seen everything accepted and returns the
number of the bytes. -/
theorem Inv.returned (h : Inv iov s) {r : IoRet} (hr : s.last = some r) (hblock : r.block = false) :
    s.accepted = iov.flatten ∧ r.ret.toInt = iov.flatten.length := by
  rcases h.last r hr with ⟨_, hiff, hret⟩
  have hfin : s.vars.unfinished = false := by
    rw [Writev.unfinished, decide_eq_false_iff_not, h.array, ← hiff, hblock]
    exact Bool.false_ne_true
  have hall := h.stands.eq_of_finished hfin
  rw [h.array] at hall
  constructor
  · rw [h.accepted, hall, List.take_length]
  · rw [hret hblock, h.stands.count, hall]

/-! ## What the bookkeeping says -/

/-- The captured variables and the last result tell how far the call has come. -/
structure Bookkept (iov : List (List β)) (s : WritevCall β) : Prop where
  inBounds : s.phase ≠ .fault
  count : s.vars.sendBytes.toInt = s.accepted.length
  accepted : s.accepted = iov.flatten.take s.vars.sendBytes.toInt.toNat
  position : (iov.take s.vars.tcnt).flatten.length + s.vars.offset = s.accepted.length
  inside : ∀ seg, iov[s.vars.tcnt]? = some seg →
    s.vars.offset < seg.length ∨ seg = [] ∧ s.vars.offset = 0
  remains : ∀ r, s.last = some r → r.exhausted = r.block ∧
    (r.block = true ↔ s.accepted.length < iov.flatten.length ∨ s.vars.tcnt < iov.length)
  returns : ∀ r, s.last = some r → r.block = false → r.ret.toInt = iov.flatten.length

theorem Inv.bookkept (h : Inv iov s) : Bookkept iov s where
  inBounds := by
    rcases h.phase with hphase | ⟨_, hphase⟩
    · rw [hphase]
      nofun
    · rw [hphase]
      nofun
  count := h.stands.count
  accepted := by
    rw [h.stands.count, Int.toNat_natCast]
    exact h.accepted
  position := h.array ▸ h.stands.position
  inside := h.array ▸ h.stands.inside
  remains r hr := by
    rcases h.last r hr with ⟨hex, hblock, _⟩
    refine ⟨hex, hblock.trans ⟨.inr, ?_⟩⟩
    rintro (hbytes | hlt)
    · by_contra hge
      have hfin : s.vars.unfinished = false := by
        rw [Writev.unfinished, decide_eq_false_iff_not, h.array]
        exact hge
      have hall := h.stands.eq_of_finished hfin
      rw [h.array] at hall
      omega
    · exact hlt
  returns _ hr hblock := (h.returned hr hblock).2

/-- After every invocation of the callback the captured variables and the result tell how far
the call has come, and no array is accessed outside of its bounds. -/
theorem writev_bookkept (call : Nat) (hne : iov ≠ []) (hmax : iov.flatten.length ≤ INT_MAX)
    (s : WritevCall β) (hs : (unbrokenMachine call iov).Reachable s) : Bookkept iov s :=
  ((inductive_inv call hne hmax).reachable hs).bookkept

/-- Two short counts and a refusal on an array with empty elements. -/
theorem writev_bookkept_short :
    ∃ s : WritevCall UInt8, s.accepted = [1, 2, 3] ∧ s.vars.tcnt = 4 ∧
      Bookkept [[], [1, 2], [], [3]] s := by
  have hrun : ((unbrokenMachine 0 [[], [1, 2], [], [3]]).run
      (construct 0 ([[], [1, 2], [], [3]] : List (List UInt8)))
      [.invoke 0, .sysret .wouldBlock, .invoke 0, .sysret (.ok 1), .invoke 0, .sysret .eintr,
        .sysret (.ok 1), .invoke 0, .sysret (.ok 1)]).map
          (fun s => (s.accepted, s.vars.tcnt)) = some ([1, 2, 3], 4) := by
    decide +kernel
  rcases Option.map_eq_some_iff.mp hrun with ⟨s, hs, hvalues⟩
  exact ⟨s, congrArg Prod.fst hvalues, congrArg Prod.snd hvalues,
    writev_bookkept 0 (by decide) (by decide) s ⟨_, _, rfl, hs⟩⟩

end WritevCall
end Colib
end CoEpoll
