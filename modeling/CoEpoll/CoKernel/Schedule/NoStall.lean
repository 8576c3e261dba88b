import CoEpoll.CoKernel.Schedule
import CoEpoll.Transition.Tally
import Mathlib.Tactic.Abel

/-!
# `CoKernel::schedule`: no handle is left in the ready queue while the CPU threads sleep

Each handle in the queue is covered by a notification that is still to come or by a CPU thread
that is about to test the queue.  A CPU thread that has no notification to come goes to sleep only
under {lit}`hmu` and with the queue empty; a CPU thread that takes a handle without {lit}`hmu` leaves one more
cover than there are handles.

Main results:

- Theorem {lit}`Locked.step`: {lit}`hmu` has one holder at a time.
- Theorem {lit}`Covered.cpu`, {lit}`Covered.caller`, {lit}`Covered.notify`: what a step does to the covers.
- Theorem {lit}`no_stall`: no handle is resumed more often than it is enqueued, and while a CPU thread
  sleeps every handle in the queue is covered.
-/

namespace CoEpoll
namespace Schedule

open Transition

variable {τ κ η : Type*}

/-! ## What the parties count for -/

/-- The thread holds {lit}`hmu`. -/
def Cpu.holds : Cpu η → Bool
  | test => true
  | sleep => true
  | unlock _ => true
  | _ => false

/-- The thread is awake and about to test the queue under {lit}`hmu`. -/
def Cpu.testing : Cpu η → Bool
  | lock => true
  | test => true
  | _ => false

/-- The handle that the thread has taken and not resumed yet. -/
def Cpu.hand : Cpu η → Option η
  | unlock h => some h
  | resume h => some h
  | _ => none

/-- The caller holds {lit}`hmu`. -/
def Caller.holds : Caller η → Bool
  | enqueue _ => true
  | unlock => true
  | _ => false

/-- The caller has enqueued, and its {lit}`notify_one` is still to come. -/
def Caller.notifying : Caller η → Bool
  | unlock => true
  | notify => true
  | _ => false

namespace State

variable (s : State τ κ η)

/-- A CPU thread or a caller holds {lit}`hmu`. -/
def holds : τ ⊕ κ → Bool
  | .inl t => (s.cpu t).holds
  | .inr c => (s.caller c).holds

/-- Whoever is where it holds {lit}`hmu` is its holder. -/
def Locked : Prop :=
  ∀ p, s.holds p = true → s.hmu = some p

/-- A thread that is about to sleep has left the queue empty. -/
def GivenUp : Prop :=
  ∀ t, s.cpu t = .sleep → s.readyRo_ = []

variable [Fintype τ] [Fintype κ]

/-- While a CPU thread sleeps, there are at most as many handles in the queue as notifications to
come and threads about to test it. -/
def Covered : Prop :=
  (∃ t, (s.cpu t).isAsleep = true) →
    s.readyRo_.length ≤
      census (fun c => (s.caller c).notifying) + census fun t => (s.cpu t).testing

omit [Fintype τ] [Fintype κ] in
/-- Every handle that has been enqueued has been resumed, is in the hands of a CPU thread, or is
in the queue. -/
def Accounted : Prop :=
  ∃ m, Tally (fun t => (s.cpu t).hand) m ∧
    (s.passed : Multiset η) = ↑s.resumed + m + ↑s.readyRo_

end State

variable {s s' : State τ κ η} {p : τ ⊕ κ}

/-! ## What a step does -/

section Moves

variable [Fintype τ] [DecidableEq τ] [DecidableEq κ]

/-- The steps by what the party that moves does. -/
inductive Moves (s : State τ κ η) : State τ κ η → Prop
  | call {c : κ} {h : η} : s.caller c = .idle → Moves s (s.onCaller c (.lock h))
  | callerLock {c : κ} {h : η} : s.caller c = .lock h → s.hmu = none →
      Moves s { s.onCaller c (.enqueue h) with hmu := some (.inr c) }
  | enqueue {c : κ} {h : η} : s.caller c = .enqueue h →
      Moves s { s.onCaller c .unlock with
        readyRo_ := s.readyRo_ ++ [h]
        passed := s.passed ++ [h] }
  | callerUnlock {c : κ} : s.caller c = .unlock →
      Moves s { s.onCaller c .notify with hmu := none }
  | notify {c : κ} {t : τ} : s.caller c = .notify → s.cpu t = .asleep →
      Moves s ((s.onCaller c .idle).onCpu t .lock)
  | notifyNone {c : κ} : s.caller c = .notify → (∀ t, (s.cpu t).isAsleep = false) →
      Moves s (s.onCaller c .idle)
  | cpuLock {t : τ} : s.cpu t = .lock → s.hmu = none →
      Moves s { s.onCpu t .test with hmu := some (.inl t) }
  | testTrue {t : τ} {h : η} {rest : List η} : s.cpu t = .test → s.readyRo_ = h :: rest →
      Moves s { s.onCpu t (.unlock h) with readyRo_ := rest }
  | testFalse {t : τ} : s.cpu t = .test → s.readyRo_ = [] → Moves s (s.onCpu t .sleep)
  | sleep {t : τ} : s.cpu t = .sleep → Moves s { s.onCpu t .asleep with hmu := none }
  | cpuUnlock {t : τ} {h : η} : s.cpu t = .unlock h →
      Moves s { s.onCpu t (.resume h) with hmu := none }
  | resume {t : τ} {h : η} : s.cpu t = .resume h →
      Moves s { s.onCpu t .drain with resumed := s.resumed ++ [h] }
  | drainTrue {t : τ} {h : η} {rest : List η} : s.cpu t = .drain → s.readyRo_ = h :: rest →
      Moves s { s.onCpu t (.resume h) with readyRo_ := rest }
  | drainFalse {t : τ} : s.cpu t = .drain → s.readyRo_ = [] → Moves s (s.onCpu t .lock)
  | spurious {t : τ} : s.cpu t = .asleep → Moves s (s.onCpu t .lock)

omit [Fintype τ] [DecidableEq τ] [DecidableEq κ] in
theorem eq_asleep {pc : Cpu η} (h : pc.isAsleep = true) : pc = .asleep := by
  cases pc <;> first | rfl | cases h

omit [Fintype τ] in
theorem moves_of_stepCaller {c : κ} (hstep : s.stepCaller c = some s') : Moves s s' := by
  unfold State.stepCaller at hstep
  split at hstep
  · rename_i hc
    rcases Option.ite_none_right_eq_some.mp hstep with ⟨hfree, hstep⟩
    cases hstep
    exact .callerLock hc hfree
  · rename_i hc
    cases hstep
    exact .enqueue hc
  · rename_i hc
    cases hstep
    exact .callerUnlock hc
  · cases hstep

theorem moves_of_notify {c : κ} {woken : Option τ} (hstep : s.notify c woken = some s') :
    Moves s s' := by
  unfold State.notify at hstep
  split at hstep
  · rename_i hc
    rcases Option.ite_none_right_eq_some.mp hstep with ⟨hasleep, hstep⟩
    cases hstep
    exact .notify hc (eq_asleep hasleep)
  · rename_i hc
    rcases Option.ite_none_right_eq_some.mp hstep with ⟨hnone, hstep⟩
    cases hstep
    exact .notifyNone hc hnone
  · cases hstep

omit [Fintype τ] in
theorem moves_of_stepCpu {t : τ} (hstep : s.stepCpu t = some s') : Moves s s' := by
  unfold State.stepCpu at hstep
  split at hstep
  · rename_i ht
    rcases Option.ite_none_right_eq_some.mp hstep with ⟨hfree, hstep⟩
    cases hstep
    exact .cpuLock ht hfree
  · rename_i ht
    split at hstep
    · rename_i hqueue
      cases hstep
      exact .testTrue ht hqueue
    · rename_i hqueue
      cases hstep
      exact .testFalse ht hqueue
  · rename_i ht
    cases hstep
    exact .sleep ht
  · cases hstep
  · rename_i ht
    cases hstep
    exact .cpuUnlock ht
  · rename_i ht
    cases hstep
    exact .resume ht
  · rename_i ht
    split at hstep
    · rename_i hqueue
      cases hstep
      exact .drainTrue ht hqueue
    · rename_i hqueue
      cases hstep
      exact .drainFalse ht hqueue

theorem step_moves {a : Action τ κ η} (hstep : step s a = some s') : Moves s s' := by
  cases a with
  | call c h =>
      simp only [step] at hstep
      split at hstep
      · rename_i hc
        cases hstep
        exact .call hc
      · cases hstep
  | caller c => exact moves_of_stepCaller hstep
  | notify c woken => exact moves_of_notify hstep
  | cpu t => exact moves_of_stepCpu hstep
  | spurious t =>
      rcases Option.ite_none_right_eq_some.mp hstep with ⟨hasleep, hstep⟩
      cases hstep
      exact .spurious (eq_asleep hasleep)

end Moves

/-! ## The holder of `hmu` -/

section Locked

/-- A party takes {lit}`hmu` when it is free. -/
theorem Locked.take (h : s.Locked) (hfree : s.hmu = none) (hother : ∀ q ≠ p, s'.holds q = s.holds q)
    (hmu : s'.hmu = some p) : s'.Locked := by
  intro q hq
  by_cases heq : q = p
  · rw [heq]
    exact hmu
  · rw [hother q heq] at hq
    cases hfree.symm.trans (h q hq)

/-- The holder of {lit}`hmu` releases it. -/
theorem Locked.release (h : s.Locked) (hheld : s.holds p = true)
    (hother : ∀ q ≠ p, s'.holds q = s.holds q) (hp : s'.holds p = false) : s'.Locked := by
  intro q hq
  by_cases heq : q = p
  · rw [heq, hp] at hq
    cases hq
  · rw [hother q heq] at hq
    exact absurd (Option.some.inj ((h p hheld).symm.trans (h q hq))).symm heq

/-- Nobody takes or releases {lit}`hmu`. -/
theorem Locked.keep (h : s.Locked) (hmu : s'.hmu = s.hmu)
    (hother : ∀ q ≠ p, s'.holds q = s.holds q) (hp : s'.holds p = s.holds p) : s'.Locked := by
  intro q hq
  rw [hmu]
  apply h
  by_cases heq : q = p
  · rw [heq] at hq ⊢
    exact hp.symm.trans hq
  · exact (hother q heq).symm.trans hq

variable {t : τ} {c : κ} {pc : Cpu η} {pc' : Caller η}

/-- A CPU thread that moves leaves the others as they are. -/
theorem holds_cpu [DecidableEq τ] (hcpu : s'.cpu = Function.update s.cpu t pc)
    (hcaller : s'.caller = s.caller) :
    (∀ q ≠ .inl t, s'.holds q = s.holds q) ∧ s'.holds (.inl t) = pc.holds := by
  constructor
  · intro q hq
    cases q with
    | inl t' =>
        have hne : t' ≠ t := fun heq => hq (congrArg _ heq)
        rw [State.holds, State.holds, hcpu, Function.update_of_ne hne]
    | inr c => rw [State.holds, State.holds, hcaller]
  · rw [State.holds, hcpu, Function.update_self]

/-- A caller that moves leaves the others as they are. -/
theorem holds_caller [DecidableEq κ] (hcaller : s'.caller = Function.update s.caller c pc')
    (hcpu : s'.cpu = s.cpu) :
    (∀ q ≠ .inr c, s'.holds q = s.holds q) ∧ s'.holds (.inr c) = pc'.holds := by
  constructor
  · intro q hq
    cases q with
    | inl t => rw [State.holds, State.holds, hcpu]
    | inr c' =>
        have hne : c' ≠ c := fun heq => hq (congrArg _ heq)
        rw [State.holds, State.holds, hcaller, Function.update_of_ne hne]
  · rw [State.holds, hcaller, Function.update_self]

section Cpu

variable [DecidableEq τ]

theorem Locked.cpuTake (h : s.Locked) (hfree : s.hmu = none)
    (hcpu : s'.cpu = Function.update s.cpu t pc) (hcaller : s'.caller = s.caller)
    (hmu : s'.hmu = some (.inl t)) : s'.Locked :=
  Locked.take h hfree (holds_cpu hcpu hcaller).1 hmu

theorem Locked.cpuRelease (h : s.Locked) {old : Cpu η} (ht : s.cpu t = old)
    (hheld : old.holds = true) (hcpu : s'.cpu = Function.update s.cpu t pc)
    (hcaller : s'.caller = s.caller) (hpc : pc.holds = false) : s'.Locked := by
  rcases holds_cpu hcpu hcaller with ⟨hother, hself⟩
  have hholds : s.holds (.inl t) = true := (congrArg Cpu.holds ht).trans hheld
  exact Locked.release h hholds hother (hself.trans hpc)

theorem Locked.cpuKeep (h : s.Locked) {old : Cpu η} (ht : s.cpu t = old)
    (hcpu : s'.cpu = Function.update s.cpu t pc) (hcaller : s'.caller = s.caller)
    (hmu : s'.hmu = s.hmu) (hpc : pc.holds = old.holds) : s'.Locked := by
  rcases holds_cpu hcpu hcaller with ⟨hother, hself⟩
  have hholds : s'.holds (.inl t) = s.holds (.inl t) := by
    rw [hself, hpc, ← ht]
    rfl
  exact Locked.keep h hmu hother hholds

end Cpu

section Caller

variable [DecidableEq κ]

theorem Locked.callerTake (h : s.Locked) (hfree : s.hmu = none)
    (hcaller : s'.caller = Function.update s.caller c pc') (hcpu : s'.cpu = s.cpu)
    (hmu : s'.hmu = some (.inr c)) : s'.Locked :=
  Locked.take h hfree (holds_caller hcaller hcpu).1 hmu

theorem Locked.callerRelease (h : s.Locked) {old : Caller η} (hc : s.caller c = old)
    (hheld : old.holds = true) (hcaller : s'.caller = Function.update s.caller c pc')
    (hcpu : s'.cpu = s.cpu) (hpc : pc'.holds = false) : s'.Locked := by
  rcases holds_caller hcaller hcpu with ⟨hother, hself⟩
  have hholds : s.holds (.inr c) = true := (congrArg Caller.holds hc).trans hheld
  exact Locked.release h hholds hother (hself.trans hpc)

theorem Locked.callerKeep (h : s.Locked) {old : Caller η} (hc : s.caller c = old)
    (hcaller : s'.caller = Function.update s.caller c pc') (hcpu : s'.cpu = s.cpu)
    (hmu : s'.hmu = s.hmu) (hpc : pc'.holds = old.holds) : s'.Locked := by
  rcases holds_caller hcaller hcpu with ⟨hother, hself⟩
  have hholds : s'.holds (.inr c) = s.holds (.inr c) := by
    rw [hself, hpc, ← hc]
    rfl
  exact Locked.keep h hmu hother hholds

end Caller

variable [DecidableEq τ] [DecidableEq κ]

theorem Locked.step (h : s.Locked) (hmove : Moves s s') : s'.Locked := by
  cases hmove with
  | call hc => exact Locked.callerKeep h hc rfl rfl rfl rfl
  | callerLock hc hfree => exact Locked.callerTake h hfree rfl rfl rfl
  | enqueue hc => exact Locked.callerKeep h hc rfl rfl rfl rfl
  | callerUnlock hc => exact Locked.callerRelease h hc rfl rfl rfl rfl
  | @notify c _ hc ht =>
      have hmid : (s.onCaller c .idle).Locked := Locked.callerKeep h hc rfl rfl rfl rfl
      exact Locked.cpuKeep hmid ht rfl rfl rfl rfl
  | notifyNone hc hnone => exact Locked.callerKeep h hc rfl rfl rfl rfl
  | cpuLock ht hfree => exact Locked.cpuTake h hfree rfl rfl rfl
  | testTrue ht hqueue => exact Locked.cpuKeep h ht rfl rfl rfl rfl
  | testFalse ht hqueue => exact Locked.cpuKeep h ht rfl rfl rfl rfl
  | sleep ht => exact Locked.cpuRelease h ht rfl rfl rfl rfl
  | cpuUnlock ht => exact Locked.cpuRelease h ht rfl rfl rfl rfl
  | resume ht => exact Locked.cpuKeep h ht rfl rfl rfl rfl
  | drainTrue ht hqueue => exact Locked.cpuKeep h ht rfl rfl rfl rfl
  | drainFalse ht hqueue => exact Locked.cpuKeep h ht rfl rfl rfl rfl
  | spurious ht => exact Locked.cpuKeep h ht rfl rfl rfl rfl

end Locked

/-! ## A thread that is about to sleep -/

section GivenUp

variable [DecidableEq τ] [DecidableEq κ]

omit [DecidableEq κ] in
/-- A thread that moves somewhere else, and a queue that does not grow. -/
theorem GivenUp.cpu (h : s.GivenUp) {t : τ} {pc : Cpu η}
    (hcpu : s'.cpu = Function.update s.cpu t pc) (hpc : pc = .sleep → s.readyRo_ = [])
    (hqueue : s.readyRo_ = [] → s'.readyRo_ = []) : s'.GivenUp := by
  intro t' ht'
  apply hqueue
  rw [hcpu] at ht'
  by_cases heq : t' = t
  · subst heq
    apply hpc
    rw [Function.update_self] at ht'
    exact ht'
  · apply h t'
    exact (Function.update_of_ne heq _ _).symm.trans ht'

theorem GivenUp.step (h : s.GivenUp) (hlocked : s.Locked) (hmove : Moves s s') : s'.GivenUp := by
  cases hmove with
  | call hc => exact h
  | callerLock hc hfree => exact h
  | enqueue hc =>
      -- The thread that is about to sleep holds `hmu`, and so does the caller.
      intro t ht
      have hcpu := hlocked (.inl t) (congrArg Cpu.holds ht)
      have hcaller := hlocked (.inr _) (congrArg Caller.holds hc)
      cases hcpu.symm.trans hcaller
  | callerUnlock hc => exact h
  | notify hc ht => exact GivenUp.cpu h rfl nofun id
  | notifyNone hc hnone => exact h
  | cpuLock ht hfree => exact GivenUp.cpu h rfl nofun id
  | testTrue ht hqueue =>
      exact GivenUp.cpu h rfl nofun fun hnil => nomatch hqueue.symm.trans hnil
  | testFalse ht hqueue => exact GivenUp.cpu h rfl (fun _ => hqueue) id
  | sleep ht => exact GivenUp.cpu h rfl nofun id
  | cpuUnlock ht => exact GivenUp.cpu h rfl nofun id
  | resume ht => exact GivenUp.cpu h rfl nofun id
  | drainTrue ht hqueue =>
      exact GivenUp.cpu h rfl nofun fun hnil => nomatch hqueue.symm.trans hnil
  | drainFalse ht hqueue => exact GivenUp.cpu h rfl nofun id
  | spurious ht => exact GivenUp.cpu h rfl nofun id

end GivenUp

/-! ## The handles in the queue are covered -/

section Covered

variable [Fintype τ] [Fintype κ] [DecidableEq τ] [DecidableEq κ]

omit [Fintype τ] [Fintype κ] [DecidableEq κ] in
/-- A thread that moves and is not asleep afterwards leaves those asleep that were. -/
theorem exists_asleep {t : τ} {pc : Cpu η} (hcpu : s'.cpu = Function.update s.cpu t pc)
    (hpc : pc.isAsleep = false) (h : ∃ t, (s'.cpu t).isAsleep = true) :
    ∃ t, (s.cpu t).isAsleep = true := by
  rcases h with ⟨t', ht'⟩
  rw [hcpu] at ht'
  by_cases heq : t' = t
  · rw [heq, Function.update_self, hpc] at ht'
    cases ht'
  · rw [Function.update_of_ne heq] at ht'
    exact ⟨t', ht'⟩

omit [DecidableEq τ] [DecidableEq κ] in
theorem covered_of_nil (hqueue : s.readyRo_ = []) : s.Covered := by
  intro _
  rw [hqueue]
  exact Nat.zero_le _

omit [DecidableEq κ] in
/-- A CPU thread that moves covers as many handles more as there are more, or as many less. -/
theorem Covered.cpu (h : s.Covered) {t : τ} {pc : Cpu η}
    (hcpu : s'.cpu = Function.update s.cpu t pc) (hcaller : s'.caller = s.caller)
    (hpc : pc.isAsleep = false)
    (hqueue : s'.readyRo_.length + (s.cpu t).testing.toNat ≤
      s.readyRo_.length + pc.testing.toNat) : s'.Covered := by
  intro hasleep
  have hold := h (exists_asleep hcpu hpc hasleep)
  have hcensus := census_update Cpu.testing s.cpu t pc
  rw [hcpu, hcaller]
  omega

omit [DecidableEq τ] in
/-- A caller that moves covers as many handles more as there are more, or as many less. -/
theorem Covered.caller (h : s.Covered) {c : κ} {pc : Caller η}
    (hcaller : s'.caller = Function.update s.caller c pc) (hcpu : s'.cpu = s.cpu)
    (hqueue : s'.readyRo_.length + (s.caller c).notifying.toNat ≤
      s.readyRo_.length + pc.notifying.toNat) : s'.Covered := by
  intro hasleep
  rw [hcpu] at hasleep
  have hold := h hasleep
  have hcensus := census_update Caller.notifying s.caller c pc
  rw [hcpu, hcaller]
  omega

/-- The thread that is woken covers what the notification has covered. -/
theorem Covered.notify (h : s.Covered) {c : κ} {t : τ} (ht : s.cpu t = .asleep) :
    ((s.onCaller c .idle).onCpu t .lock).Covered := by
  intro _
  have hold := h ⟨t, congrArg Cpu.isAsleep ht⟩
  have hcaller := census_update Caller.notifying s.caller c .idle
  have hcpu := census_update Cpu.testing s.cpu t .lock
  have hbefore : (s.cpu t).testing.toNat = 0 := by
    rw [ht]
    rfl
  have hafter : (Cpu.lock : Cpu η).testing.toNat = 1 := rfl
  have hidle : (Caller.idle : Caller η).notifying.toNat = 0 := rfl
  have hone := Bool.toNat_le (s.caller c).notifying
  dsimp only [State.onCpu, State.onCaller]
  omega

theorem Covered.step (h : s.Covered) (hgiven : s.GivenUp) (hmove : Moves s s') : s'.Covered := by
  cases hmove with
  | call hc =>
      refine Covered.caller h rfl rfl ?_
      rw [hc]
      exact Nat.le_refl _
  | callerLock hc hfree =>
      refine Covered.caller h rfl rfl ?_
      rw [hc]
      exact Nat.le_refl _
  | enqueue hc =>
      refine Covered.caller h rfl rfl ?_
      rw [hc, List.length_append]
      exact Nat.le_refl _
  | callerUnlock hc =>
      refine Covered.caller h rfl rfl ?_
      rw [hc]
      exact Nat.le_refl _
  | notify hc ht => exact Covered.notify h ht
  | notifyNone hc hnone =>
      rintro ⟨t, ht⟩
      cases (hnone t).symm.trans ht
  | cpuLock ht hfree =>
      refine Covered.cpu h rfl rfl rfl ?_
      rw [ht]
      exact Nat.le_refl _
  | testTrue ht hqueue =>
      refine Covered.cpu h rfl rfl rfl ?_
      rw [ht, hqueue]
      exact Nat.le_refl _
  | testFalse ht hqueue => exact covered_of_nil hqueue
  | sleep ht => exact covered_of_nil (hgiven _ ht)
  | cpuUnlock ht =>
      refine Covered.cpu h rfl rfl rfl ?_
      rw [ht]
      exact Nat.le_refl _
  | resume ht =>
      refine Covered.cpu h rfl rfl rfl ?_
      rw [ht]
      exact Nat.le_refl _
  | drainTrue ht hqueue =>
      refine Covered.cpu h rfl rfl rfl ?_
      rw [ht, hqueue]
      exact Nat.le_succ _
  | drainFalse ht hqueue => exact covered_of_nil hqueue
  | spurious ht =>
      refine Covered.cpu h rfl rfl rfl ?_
      rw [ht]
      exact Nat.le_succ _

end Covered

/-! ## Every handle is in one place -/

section Accounted

variable [DecidableEq τ] [DecidableEq κ]

omit [DecidableEq κ] in
/-- A CPU thread that keeps its handle. -/
theorem Accounted.cpu (h : s.Accounted) {t : τ} {old pc : Cpu η} (ht : s.cpu t = old)
    (hcpu : s'.cpu = Function.update s.cpu t pc) (hpc : pc.hand = old.hand)
    (hpassed : s'.passed = s.passed) (hresumed : s'.resumed = s.resumed)
    (hqueue : s'.readyRo_ = s.readyRo_) : s'.Accounted := by
  rcases h with ⟨m, hm, hall⟩
  refine ⟨m, ?_, by rw [hpassed, hresumed, hqueue]; exact hall⟩
  have hhand : (fun t => (s'.cpu t).hand) = fun t => (s.cpu t).hand := by
    funext j
    rw [hcpu]
    exact update_keep Cpu.hand (hpc.trans (congrArg Cpu.hand ht.symm)) j
  rw [hhand]
  exact hm

omit [DecidableEq κ] in
/-- What the threads have in their hands after one of them has moved. -/
theorem hand_update (t : τ) (pc : Cpu η) :
    (fun j => ((s.onCpu t pc).cpu j).hand) =
      Function.update (fun j => (s.cpu j).hand) t pc.hand := by
  funext j
  dsimp only [State.onCpu]
  by_cases hj : j = t
  · rw [hj, Function.update_self, Function.update_self]
  · rw [Function.update_of_ne hj, Function.update_of_ne hj]

omit [DecidableEq κ] in
/-- A CPU thread takes the first handle of the queue. -/
theorem Accounted.pop (h : s.Accounted) {t : τ} {pc : Cpu η} {handle : η} {rest : List η}
    (ht : (s.cpu t).hand = none) (hpc : pc.hand = some handle)
    (hqueue : s.readyRo_ = handle :: rest) :
    { s.onCpu t pc with readyRo_ := rest }.Accounted := by
  rcases h with ⟨m, hm, hall⟩
  refine ⟨{handle} + m, ?_, ?_⟩
  · have hadd := hm.add ht handle
    rw [← hpc, ← hand_update] at hadd
    exact hadd
  · dsimp only [State.onCpu]
    rw [hall, hqueue, ← Multiset.cons_coe, ← Multiset.singleton_add]
    abel

theorem Accounted.step (h : s.Accounted) (hmove : Moves s s') : s'.Accounted := by
  cases hmove with
  | call hc => exact h
  | callerLock hc hfree => exact h
  | enqueue hc =>
      rcases h with ⟨m, hm, hall⟩
      refine ⟨m, hm, ?_⟩
      dsimp only [State.onCaller]
      rw [← Multiset.coe_add, hall, ← Multiset.coe_add]
      abel
  | callerUnlock hc => exact h
  | notify hc ht => exact Accounted.cpu h ht rfl rfl rfl rfl rfl
  | notifyNone hc hnone => exact h
  | cpuLock ht hfree => exact Accounted.cpu h ht rfl rfl rfl rfl rfl
  | testTrue ht hqueue => exact Accounted.pop h (congrArg Cpu.hand ht) rfl hqueue
  | testFalse ht hqueue => exact Accounted.cpu h ht rfl rfl rfl rfl rfl
  | sleep ht => exact Accounted.cpu h ht rfl rfl rfl rfl rfl
  | cpuUnlock ht => exact Accounted.cpu h ht rfl rfl rfl rfl rfl
  | @resume t handle ht =>
      rcases h with ⟨m, hm, hall⟩
      rcases hm.remove (congrArg Cpu.hand ht) with ⟨r, hr, hrest⟩
      refine ⟨r, ?_, ?_⟩
      · have hhand := hand_update (s := s) t .drain
        exact hhand ▸ hrest
      · dsimp only [State.onCpu]
        rw [hall, hr, ← Multiset.coe_add, Multiset.coe_singleton]
        abel
  | drainTrue ht hqueue => exact Accounted.pop h (congrArg Cpu.hand ht) rfl hqueue
  | drainFalse ht hqueue => exact Accounted.cpu h ht rfl rfl rfl rfl rfl
  | spurious ht => exact Accounted.cpu h ht rfl rfl rfl rfl rfl

end Accounted

/-! ## No handle is left behind -/

variable [Fintype τ] [Fintype κ] [DecidableEq τ] [DecidableEq κ]

/-- The clauses of the invariant. -/
structure Inv (s : State τ κ η) : Prop where
  locked : s.Locked
  givenUp : s.GivenUp
  covered : s.Covered
  accounted : s.Accounted

theorem inductive_inv : (machine : Machine (State τ κ η) (Action τ κ η)).Inductive Inv where
  init := by
    rintro _ rfl
    refine ⟨?_, nofun, covered_of_nil rfl, 0, Tally.empty fun _ => rfl, rfl⟩
    rintro (t | c) hp <;> cases hp
  step := by
    intro s a s' h hstep
    have hmove := step_moves hstep
    exact ⟨Locked.step h.locked hmove, GivenUp.step h.givenUp h.locked hmove,
      Covered.step h.covered h.givenUp hmove, Accounted.step h.accounted hmove⟩

/-- No handle is resumed more often than it is enqueued, and while a CPU thread sleeps, there are
at most as many handles in the queue as notifications to come and threads about to test it. -/
theorem no_stall [DecidableEq η] (s : State τ κ η)
    (hs : (machine : Machine (State τ κ η) (Action τ κ η)).Reachable s) :
    (∀ h, s.resumed.count h ≤ s.passed.count h) ∧ s.Covered := by
  have hinv := inductive_inv.reachable hs
  refine ⟨fun h => ?_, hinv.covered⟩
  rcases hinv.accounted with ⟨m, _, hall⟩
  have hcount := congrArg (Multiset.count h) hall
  rw [Multiset.count_add, Multiset.count_add, Multiset.coe_count, Multiset.coe_count] at hcount
  omega

/-- One handle has been resumed, one thread sleeps and the other one is about to test while another
handle waits; its notification has woken nobody yet. -/
theorem no_stall_asleep :
    ∃ s : State Bool Unit Nat, (s.cpu false).isAsleep = true ∧ s.readyRo_ = [7] ∧
      s.passed = [3, 7] ∧ s.resumed = [3] ∧
      (∀ h, s.resumed.count h ≤ s.passed.count h) ∧ s.Covered := by
  have hrun : ((machine : Machine (State Bool Unit Nat) _).run State.construct
      [.call () 3, .caller (), .caller (), .caller (), .notify () none, .cpu true, .cpu true,
        .cpu true, .cpu true, .cpu true, .cpu false, .cpu false, .cpu false,
        .call () 7, .caller (), .caller (), .caller (), .cpu true]).map
        (fun s => ((s.cpu false).isAsleep, s.readyRo_, s.passed, s.resumed)) =
          some (true, [7], [3, 7], [3]) := by
    decide
  rcases Option.map_eq_some_iff.mp hrun with ⟨s, hs, hvalues⟩
  simp only [Prod.mk.injEq] at hvalues
  rcases hvalues with ⟨hasleep, hready, hpassed, hresumed⟩
  exact ⟨s, hasleep, hready, hpassed, hresumed, no_stall s ⟨_, _, rfl, hs⟩⟩

end Schedule
end CoEpoll
