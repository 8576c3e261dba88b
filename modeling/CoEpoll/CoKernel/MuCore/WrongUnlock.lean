import CoEpoll.CoKernel.MuCore

/-!
# `MuCore`: an unlock by a coroutine that is not the owner

The compare-exchange of {lit}`UnlockAwaiter` takes the caller's {lit}`UTCB::tid` by
reference.  When it fails it leaves the mutex alone but writes the owner's task id
into the caller's {lit}`UTCB`; the caller's next {lit}`unlock` then passes for the owner's.

Main results:

- Theorem {lit}`unlock_of_ne`: what one wrong {lit}`unlock` does.
- Theorem {lit}`unlock_unlock_of_ne`: two of them release the mutex of its owner.
- Theorem {lit}`unaffected_iff`: nothing is changed exactly when no call is made.
-/

namespace CoEpoll
namespace MuCore

open Transition

variable {κ : Type*} [DecidableEq κ]

/-- The mutex is as before, nobody was woken, and an owner still holds it. -/
structure MutexKept (s s' : State κ × List (Event κ)) : Prop where
  tid_ : s'.1.tid_ = s.1.tid_
  waiter_ : s'.1.waiter_ = s.1.waiter_
  items_ : s'.1.items_ = s.1.items_
  woken : woken s'.2 = woken s.2
  owner : ∀ j, s.1.pc j = .held → s.1.tcb j = s.1.tid_ →
    s'.1.pc j = .held ∧ s'.1.tcb j = s'.1.tid_

/-- Coroutine {lit}`k` has changed neither the mutex nor its own task id. -/
structure Unaffected (k : κ) (s s' : State κ × List (Event κ)) : Prop extends
    MutexKept s s' where
  tcb : s'.1.tcb k = s.1.tcb k

/-- Coroutine {lit}`k` alone, with at most {lit}`n` calls of {lit}`unlock` and no other call. -/
structure UnlockCalls (k : κ) (n : ℕ) (as : List (Action κ)) : Prop where
  own : ∀ a ∈ as, a = .unlock k ∨ a = .go k
  calls : as.count (.unlock k) ≤ n

/-- A wrong {lit}`unlock` gives the caller the task id of the owner. -/
theorem unlock_of_ne {s : State κ} {k : κ} (hne : s.tcb k ≠ s.tid_) :
    unlock s k = { s with tcb := Function.update s.tcb k s.tid_ } :=
  if_neg hne.symm

/-- The second of two wrong calls passes for the owner's. -/
theorem unlock_unlock_of_ne {s : State κ} {k : κ} (hne : s.tcb k ≠ s.tid_) :
    unlock (unlock s k) k =
      { s with tid_ := 0, tcb := Function.update s.tcb k s.tid_ }.goto k .unlockDec := by
  rw [unlock_of_ne hne]
  exact if_pos (by simp)

/-- A call of {lit}`unlock` from outside a call. -/
theorem step_unlock {tid : κ → Int} {k : κ} {s : State κ × List (Event κ)}
    (hfree : (s.1.pc k).free = true) :
    ((machine tid).observe emit).step s (.unlock k) = some (unlock s.1 k, s.2) := by
  simp [Machine.observe, machine, step, hfree, emit]

/-- A coroutine in no call cannot go on without a call. -/
theorem advance_of_free {s : State κ} {k : κ} (hfree : (s.pc k).free = true) :
    advance s k = none := by
  unfold advance
  cases hpc : s.pc k <;> simp [hpc, Pc.free] at hfree ⊢

/-- Without a call nothing happens. -/
theorem run_of_no_call {tid : κ → Int} {k : κ} {s s' : State κ × List (Event κ)}
    {as : List (Action κ)} (hfree : (s.1.pc k).free = true) (has : UnlockCalls k 0 as)
    (hrun : ((machine tid).observe emit).run s as = some s') : s' = s := by
  cases as with
  | nil =>
      cases hrun
      rfl
  | cons a as =>
      rcases has.own a List.mem_cons_self with rfl | rfl
      · have hcalls := has.calls
        simp at hcalls
      · rcases Machine.run_cons_eq_some.mp hrun with ⟨t, ht, _⟩
        have hstep : advance s.1 k = some t.1 := (Machine.observe_step_eq_some.mp ht).1
        rw [advance_of_free hfree] at hstep
        cases hstep

/-- With at most one wrong call the caller's task id is all that changes. -/
theorem run_of_one_call {tid : κ → Int} {k : κ} {s s' : State κ × List (Event κ)}
    {as : List (Action κ)} (hfree : (s.1.pc k).free = true) (hne : s.1.tcb k ≠ s.1.tid_)
    (has : UnlockCalls k 1 as) (hrun : ((machine tid).observe emit).run s as = some s') :
    s' = s ∨ s' = (unlock s.1 k, s.2) := by
  cases as with
  | nil =>
      cases hrun
      exact Or.inl rfl
  | cons a as =>
      rcases Machine.run_cons_eq_some.mp hrun with ⟨t, ht, hrest⟩
      rcases has.own a List.mem_cons_self with rfl | rfl
      · rw [step_unlock hfree] at ht
        cases ht
        refine Or.inr (run_of_no_call (k := k) ?_ ?_ hrest)
        · simpa [unlock_of_ne hne] using hfree
        · refine ⟨fun a ha => has.own a (List.mem_cons_of_mem _ ha), ?_⟩
          simpa using has.calls
      · have hstep : advance s.1 k = some t.1 := (Machine.observe_step_eq_some.mp ht).1
        rw [advance_of_free hfree] at hstep
        cases hstep

omit [DecidableEq κ] in
theorem MutexKept.refl (s : State κ × List (Event κ)) : MutexKept s s :=
  ⟨rfl, rfl, rfl, rfl, fun _ hj htid => ⟨hj, htid⟩⟩

/-- One wrong {lit}`unlock` keeps the mutex. -/
theorem MutexKept.of_unlock {s : State κ × List (Event κ)} {k : κ}
    (hne : s.1.tcb k ≠ s.1.tid_) : MutexKept s (unlock s.1 k, s.2) := by
  rw [unlock_of_ne hne]
  refine ⟨rfl, rfl, rfl, rfl, fun j hj htid => ⟨hj, ?_⟩⟩
  have hjk : j ≠ k := by
    rintro rfl
    exact hne htid
  simpa [Function.update_of_ne hjk] using htid

/-- Two wrong calls, and the decrement that follows them, change {lit}`waiter_`. -/
theorem run_of_two_calls (tid : κ → Int) {k : κ} {s : State κ × List (Event κ)}
    (hfree : (s.1.pc k).free = true) (hne : s.1.tcb k ≠ s.1.tid_) :
    ∃ s', ((machine tid).observe emit).run s [.unlock k, .unlock k, .go k] = some s' ∧
      s'.1.waiter_ = s.1.waiter_ - 1 := by
  have hfree' : ((unlock s.1 k).pc k).free = true := by simpa [unlock_of_ne hne] using hfree
  have hdec : ((machine tid).observe emit).step (unlock (unlock s.1 k) k, s.2) (.go k) =
      some ({ unlock (unlock s.1 k) k with waiter_ := s.1.waiter_ - 1 }.goto k
        (if 1 < s.1.waiter_ then .unlockPop else .out), s.2) := by
    simp only [Machine.observe, machine, step, advance, emit, unlock_unlock_of_ne hne,
      State.goto_pc, Function.update_self, Option.map_some, List.append_nil]
    rfl
  exact ⟨_, Machine.run_cons_eq_some.mpr ⟨_, step_unlock hfree,
    Machine.run_cons_eq_some.mpr ⟨_, step_unlock hfree',
      Machine.run_cons_eq_some.mpr ⟨_, hdec, rfl⟩⟩⟩, rfl⟩

/-- A coroutine whose task id differs from {lit}`tid_` leaves everything as it is exactly
when it makes no {lit}`unlock` call, and the mutex exactly when it makes at most one. -/
theorem unaffected_iff (tid : κ → Int) (k : κ) (n : ℕ) (s : State κ × List (Event κ))
    (hfree : (s.1.pc k).free = true) (hne : s.1.tcb k ≠ s.1.tid_) :
    ((∀ as s', UnlockCalls k n as →
      ((machine tid).observe emit).run s as = some s' → Unaffected k s s') ↔ n = 0) ∧
    ((∀ as s', UnlockCalls k n as →
      ((machine tid).observe emit).run s as = some s' → MutexKept s s') ↔ n ≤ 1) := by
  refine ⟨⟨fun hall => ?_, ?_⟩, ⟨fun hall => ?_, fun hn as s' has hrun => ?_⟩⟩
  · by_contra hn
    -- one call already changes the caller's task id
    have hcalls : UnlockCalls k n [.unlock k] :=
      ⟨by simp, by simpa using Nat.one_le_iff_ne_zero.mpr hn⟩
    have hrun : ((machine tid).observe emit).run s [.unlock k] = some (unlock s.1 k, s.2) :=
      Machine.run_cons_eq_some.mpr ⟨_, step_unlock hfree, rfl⟩
    have htcb := (hall _ _ hcalls hrun).tcb
    rw [unlock_of_ne hne] at htcb
    exact hne (by simpa using htcb.symm)
  · rintro rfl as s' has hrun
    rw [run_of_no_call hfree has hrun]
    exact ⟨MutexKept.refl s, rfl⟩
  · by_contra hn
    rcases run_of_two_calls tid hfree hne with ⟨s', hrun, hwaiter⟩
    have hcalls : UnlockCalls k n [.unlock k, .unlock k, .go k] := by
      refine ⟨by simp, ?_⟩
      have hcount : [Action.unlock k, .unlock k, .go k].count (.unlock k) = 2 := by simp
      rw [hcount]
      omega
    have hkept := (hall _ _ hcalls hrun).waiter_
    rw [hwaiter] at hkept
    grind
  · have has' : UnlockCalls k 1 as := ⟨has.own, Nat.le_trans has.calls hn⟩
    rcases run_of_one_call hfree hne has' hrun with rfl | rfl
    · exact MutexKept.refl s'
    · exact MutexKept.of_unlock hne

/-- The task ids 1 and 2. -/
def twoIds (k : Fin 2) : Int :=
  k + 1

/-- Coroutine 0 holds the mutex and coroutine 1 is outside. -/
def heldByZero : State (Fin 2) where
  tid_ := 1
  waiter_ := 1
  items_ := []
  tcb := twoIds
  pc := fun k => if k = 0 then .held else .out

/-- Two calls of coroutine 1 do not leave everything as it is. -/
theorem unaffected_iff_heldByZero :
    ¬ ∀ as s', UnlockCalls (1 : Fin 2) 2 as →
      ((machine twoIds).observe emit).run (heldByZero, []) as = some s' →
        Unaffected 1 (heldByZero, []) s' := by
  rw [(unaffected_iff twoIds 1 2 (heldByZero, []) rfl (by decide)).1]
  decide

/-- {lit}`tid_`, {lit}`waiter_`, the task ids of both coroutines and where they are. -/
structure View where
  tid_ : Int
  waiter_ : UInt32
  tcb : List Int
  pc : List (Pc (Fin 2))
deriving DecidableEq

/-- What is to be seen in a state. -/
def view (s : State (Fin 2) × List (Event (Fin 2))) : View :=
  ⟨s.1.tid_, s.1.waiter_, [s.1.tcb 0, s.1.tcb 1], [s.1.pc 0, s.1.pc 1]⟩

/-- Coroutine 0 locks; two {lit}`unlock` calls of coroutine 1 release the mutex; then
coroutine 1 locks and both hold it. -/
theorem unlock_takes_mutex :
    ∃ s s' t, ((machine twoIds).observe emit).Reachable s ∧
      view s = ⟨1, 1, [1, 2], [.held, .out]⟩ ∧
      UnlockCalls (1 : Fin 2) 2 [.unlock 1, .unlock 1, .go 1] ∧
      ((machine twoIds).observe emit).run s [.unlock 1, .unlock 1, .go 1] = some s' ∧
      view s' = ⟨0, 0, [1, 1], [.held, .out]⟩ ∧ ¬ Unaffected 1 s s' ∧
      ((machine twoIds).observe emit).run s' [.lock 1, .go 1] = some t ∧
      view t = ⟨1, 1, [1, 1], [.held, .held]⟩ := by
  have hviews : ((((machine twoIds).observe emit).run (State.construct twoIds, [])
      [.lock 0, .go 0]).bind fun s =>
        (((machine twoIds).observe emit).run s [.unlock 1, .unlock 1, .go 1]).bind fun s' =>
          (((machine twoIds).observe emit).run s' [.lock 1, .go 1]).map fun t =>
            [view s, view s', view t]) =
      some [⟨1, 1, [1, 2], [.held, .out]⟩, ⟨0, 0, [1, 1], [.held, .out]⟩,
        ⟨1, 1, [1, 1], [.held, .held]⟩] := by
    decide +kernel
  rcases Option.bind_eq_some_iff.mp hviews with ⟨s, hs, hviews⟩
  rcases Option.bind_eq_some_iff.mp hviews with ⟨s', hs', hviews⟩
  rcases Option.map_eq_some_iff.mp hviews with ⟨t, ht, hviews⟩
  simp only [List.cons.injEq, and_true] at hviews
  rcases hviews with ⟨hview, hview', hviewt⟩
  refine ⟨s, s', t, ⟨(State.construct twoIds, []), _, ⟨rfl, rfl⟩, hs⟩, hview,
    ⟨by decide, by decide⟩, hs', hview', ?_, ht, hviewt⟩
  intro h
  have htid : (view s').tid_ = (view s).tid_ := h.tid_
  rw [hview, hview'] at htid
  exact absurd htid (by decide)

end MuCore
end CoEpoll
