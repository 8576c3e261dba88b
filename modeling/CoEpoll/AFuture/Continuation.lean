import CoEpoll.AFuture
import Mathlib.Data.List.Nodup

/-!
# `waitflag`: when every getter is continued exactly once

A getter that has pushed its handle and then reads the flag as true goes on at
once, although its handle is in the queue.  That is harmless only when
{lit}`notify` no longer looks at the queue.

Main results:

- Structure {lit}`Once`: the invariant of the runs in which flag and queue stay apart.
- Theorem {lit}`Doomed.step`: a getter caught between both stays caught.
- Theorem {lit}`continued_once_iff`: a finished run continues every getter exactly once
  if and only if flag and queue stayed apart.
- Theorem {lit}`continued_twice`: a run that continues a getter twice.
-/

namespace CoEpoll
namespace Waitflag

open Transition

/-- The flag is not set yet. -/
def Notify.pending : Notify → Bool
  | idle => true
  | lock => true
  | unlock => true
  | set => true
  | _ => false

/-- The flag is set and the queue not yet found empty. -/
def Notify.serving : Notify → Bool
  | test => true
  | wake => true
  | pop => true
  | _ => false

/-- The getter has not pushed its handle yet, and may still do so. -/
def Wait.early : Wait → Bool
  | idle => true
  | lock => true
  | unlock => true
  | test => true
  | push => true
  | _ => false

variable {γ : Type*}

/-- The flag is set while no getter is between its push and its final read, and no
handle is pushed while {lit}`notify` serves the queue. -/
def Apart (s : State γ) : Action γ → Prop
  | .goNotify => s.notify = .set → ∀ g, s.wait g ≠ .read
  | .goGet g => s.wait g = .push → s.notify.serving = false
  | _ => True

/-- The handles not yet given to {lit}`wakeUpReady`: the front is given before it is
popped. -/
def State.unserved (s : State γ) : List γ :=
  if s.notify = .pop then s.waitQ.tail else s.waitQ

/-- All handles pushed so far, in order. -/
def State.line (s : State γ) : List γ :=
  s.readyRo_ ++ s.unserved

/-! ## Invariants -/

/-- What holds in every run. -/
structure Base (s : State γ) : Prop where
  flag : s.flag = true ↔ s.notify.pending = false
  pushed : s.notify.pending = true → ∀ g, s.wait g = .read → g ∈ s.waitQ
  front : s.notify = .pop → s.waitQ ≠ []

/-- What holds in the runs in which flag and queue stay apart. -/
structure Once (s : State γ) : Prop where
  flag : s.flag = true ↔ s.notify.pending = false
  nodup : s.line.Nodup
  early : ∀ g, (s.wait g).early = true → g ∉ s.line
  unwoken : s.notify.pending = true → s.readyRo_ = []
  pending : s.notify.pending = true →
    ∀ g, g ∈ s.line ↔ s.wait g = .read ∨ s.wait g = .suspended
  serving : s.notify.serving = true → ∀ g, g ∈ s.line ↔ s.wait g = .suspended
  done : s.notify = .done → ∀ g, g ∈ s.readyRo_ ↔ s.wait g = .suspended

/-- Getter {lit}`g` has gone on or will go on inline, and its handle is or will be given to
{lit}`wakeUpReady`. -/
structure Doomed (g : γ) (s : State γ) : Prop where
  flag : s.flag = true
  inline : s.wait g = .read ∨ s.wait g = .inline
  woken : g ∈ s.readyRo_ ∨ (g ∈ s.unserved ∧ s.notify.serving = true)

variable {s s' : State γ} {g j : γ} {w : Wait}

/-- Before the flag is set it is false. -/
theorem flag_eq_false (hflag : s.flag = true ↔ s.notify.pending = false)
    (hp : s.notify.pending = true) : s.flag = false := by
  cases hf : s.flag with
  | false => rfl
  | true => exact absurd (hp.symm.trans (hflag.mp hf)) nofun

/-! ## Steps of the producer -/

/-- The producer sets the flag once and serves the queue until it is empty. -/
theorem Base.notify (h : Base s) (hstep : stepNotify s = some s') : Base s' := by
  rcases h with ⟨hflag, hpushed, hfront⟩
  unfold stepNotify at hstep
  cases hn : s.notify <;> simp only [hn, reduceCtorEq] at hstep <;> rw [hn] at hflag hpushed
  case lock =>
    split at hstep <;> cases hstep
    exact ⟨hflag, hpushed, by simp⟩
  case unlock =>
    cases hstep
    exact ⟨hflag, hpushed, by simp⟩
  case set =>
    cases hstep
    exact ⟨by simp [Notify.pending], by simp [Notify.pending], by simp⟩
  case test =>
    cases hstep
    refine ⟨?_, ?_, ?_⟩ <;> split <;> simp_all [Notify.pending]
  case wake =>
    split at hstep
    next => cases hstep
    next x rest hq =>
      cases hstep
      exact ⟨hflag, by simp [Notify.pending], by simp [hq]⟩
  case pop =>
    cases hstep
    exact ⟨hflag, by simp [Notify.pending], by simp⟩

/-- The producer moves handles along the line and touches no getter. -/
theorem Once.of_line (h : Once s) (hwait : s'.wait = s.wait) (hline : s'.line = s.line)
    (hflag : s'.flag = true ↔ s'.notify.pending = false)
    (hpending : s'.notify.pending = true → s.notify.pending = true ∧ s'.readyRo_ = s.readyRo_)
    (hserving : s'.notify.serving = true → s.notify.serving = true ∨
      (s.notify.pending = true ∧ ∀ g, s.wait g ≠ .read))
    (hdone : s'.notify = .done → s.notify.serving = true ∧ s'.unserved = []) : Once s' := by
  refine ⟨hflag, ?_, ?_, ?_, ?_, ?_, ?_⟩
  · rw [hline]
    exact h.nodup
  · rw [hline, hwait]
    exact h.early
  · intro hp
    rw [(hpending hp).2]
    exact h.unwoken (hpending hp).1
  · intro hp
    rw [hline, hwait]
    exact h.pending (hpending hp).1
  · intro hs g
    rw [hline, hwait]
    rcases hserving hs with hs | ⟨hp, hread⟩
    · exact h.serving hs g
    · rw [h.pending hp g]
      exact or_iff_right (hread g)
  · intro hd g
    have hready : s'.readyRo_ = s'.line := by rw [State.line, (hdone hd).2, List.append_nil]
    rw [hready, hline, hwait]
    exact h.serving (hdone hd).1 g

/-- The producer keeps the invariant when it sets the flag while nobody is between
push and final read. -/
theorem Once.notify (h : Once s) (hapart : Apart s .goNotify)
    (hstep : stepNotify s = some s') : Once s' := by
  have hflag := h.flag
  unfold stepNotify at hstep
  cases hn : s.notify <;> simp only [hn, reduceCtorEq] at hstep <;> rw [hn] at hflag
  case lock =>
    split at hstep <;> cases hstep
    refine h.of_line rfl ?_ hflag ?_ ?_ ?_ <;>
      simp [State.line, State.unserved, hn, Notify.pending, Notify.serving]
  case unlock =>
    cases hstep
    refine h.of_line rfl ?_ hflag ?_ ?_ ?_ <;>
      simp [State.line, State.unserved, hn, Notify.pending, Notify.serving]
  case set =>
    cases hstep
    refine h.of_line rfl ?_ ?_ ?_ (fun _ => Or.inr ⟨?_, hapart hn⟩) ?_ <;>
      simp [State.line, State.unserved, hn, Notify.pending]
  case test =>
    cases hstep
    by_cases hq : s.waitQ = []
    · refine h.of_line rfl ?_ ?_ ?_ ?_ ?_ <;>
        simp_all [State.line, State.unserved, Notify.pending, Notify.serving]
    · refine h.of_line rfl ?_ ?_ ?_ ?_ ?_ <;>
        simp_all [State.line, State.unserved, Notify.pending, Notify.serving]
  case wake =>
    split at hstep
    next => cases hstep
    next x rest hq =>
      cases hstep
      refine h.of_line rfl ?_ hflag ?_ ?_ ?_ <;>
        simp [State.line, State.unserved, hn, hq, Notify.pending, Notify.serving]
  case pop =>
    cases hstep
    refine h.of_line rfl ?_ hflag ?_ ?_ ?_ <;>
      simp [State.line, State.unserved, hn, Notify.pending, Notify.serving]

/-- The producer does not save a doomed getter: it finds the queue empty only after
its handle has been given away. -/
theorem Doomed.notify (hd : Doomed g s) (hstep : stepNotify s = some s') : Doomed g s' := by
  rcases hd with ⟨hflag, hinline, hwoken⟩
  unfold stepNotify at hstep
  cases hn : s.notify <;> simp only [hn, reduceCtorEq] at hstep <;>
    simp only [hn, State.unserved, Notify.serving, and_false, or_false, and_true, if_true,
      if_false, reduceCtorEq] at hwoken
  case lock =>
    split at hstep <;> cases hstep
    exact ⟨hflag, hinline, Or.inl hwoken⟩
  case unlock =>
    cases hstep
    exact ⟨hflag, hinline, Or.inl hwoken⟩
  case set =>
    cases hstep
    exact ⟨rfl, hinline, Or.inl hwoken⟩
  case test =>
    cases hstep
    refine ⟨hflag, hinline, ?_⟩
    by_cases hq : s.waitQ = []
    · simp_all
    · simpa [State.unserved, hq, Notify.serving] using hwoken
  case wake =>
    split at hstep
    next => cases hstep
    next x rest hq =>
      cases hstep
      refine ⟨hflag, hinline, ?_⟩
      simpa [State.unserved, Notify.serving, hq, or_assoc] using hwoken
  case pop =>
    cases hstep
    exact ⟨hflag, hinline, by simpa [State.unserved, Notify.serving] using hwoken⟩

/-! ## Steps of a getter -/

variable [DecidableEq γ]

/-- A getter that neither pushes nor decides to wait. -/
theorem Base.goto (h : Base s) (hw : s.notify.pending = true → w ≠ .read) :
    Base (s.goto g w) := by
  refine ⟨h.flag, fun hp j hj => ?_, h.front⟩
  by_cases hjg : j = g
  · subst j
    exact absurd (by simpa [State.goto] using hj) (hw hp)
  · exact h.pushed hp j (by simpa [State.goto, Function.update_of_ne hjg] using hj)

/-- A getter that stays on its side of the push. -/
theorem Once.goto (h : Once s) (hearly : w.early = true → (s.wait g).early = true)
    (hpending : s.notify.pending = true →
      ((w = .read ∨ w = .suspended) ↔ (s.wait g = .read ∨ s.wait g = .suspended)))
    (hset : s.notify.pending = false → (w = .suspended ↔ s.wait g = .suspended)) :
    Once (s.goto g w) := by
  have hother : ∀ j, j ≠ g → (s.goto g w).wait j = s.wait j := fun j hj =>
    Function.update_of_ne hj _ _
  have hself : (s.goto g w).wait g = w := Function.update_self _ _ _
  refine ⟨h.flag, h.nodup, fun j hj => ?_, h.unwoken, fun hp j => ?_, fun hs j => ?_,
    fun hd j => ?_⟩ <;> by_cases hjg : j = g
  · subst j
    rw [hself] at hj
    exact h.early g (hearly hj)
  · rw [hother j hjg] at hj
    exact h.early j hj
  · subst j
    rw [hself, hpending hp]
    exact h.pending hp g
  · rw [hother j hjg]
    exact h.pending hp j
  · subst j
    rw [hself, hset (by cases hn : s.notify <;> simp_all [State.goto, Notify.serving, Notify.pending])]
    exact h.serving hs g
  · rw [hother j hjg]
    exact h.serving hs j
  · subst j
    rw [hself, hset (by simp_all [State.goto, Notify.pending])]
    exact h.done hd g
  · rw [hother j hjg]
    exact h.done hd j

/-- A getter that is not doomed itself leaves the doomed ones alone. -/
theorem Doomed.goto (h : Doomed g s) (hw : j = g → w = .inline) :
    Doomed g (s.goto j w) := by
  refine ⟨h.flag, ?_, h.woken⟩
  by_cases hjg : g = j
  · subst j
    exact Or.inr (by simpa [State.goto] using hw rfl)
  · simpa [State.goto, Function.update_of_ne hjg] using h.inline

/-- The getters: a handle is pushed before the flag is set, or the flag is set. -/
theorem Base.wait (h : Base s) (hstep : stepWait s g = some s') : Base s' := by
  unfold stepWait at hstep
  cases hg : s.wait g <;> simp only [hg, reduceCtorEq] at hstep
  case lock =>
    split at hstep <;> cases hstep
    exact Base.goto (s := { s with fl := true }) ⟨h.flag, h.pushed, h.front⟩ (by simp)
  case unlock =>
    cases hstep
    exact Base.goto (s := { s with fl := false }) ⟨h.flag, h.pushed, h.front⟩ (by simp)
  case test =>
    cases hstep
    exact h.goto fun hp => by simp [flag_eq_false h.flag hp]
  case push =>
    cases hstep
    refine ⟨h.flag, fun hp j hj => ?_, fun hn => by simp [State.goto]⟩
    by_cases hjg : j = g
    · subst j
      simp [State.goto]
    · refine List.mem_append_left _ (h.pushed hp j ?_)
      simpa [State.goto, Function.update_of_ne hjg] using hj
  case read =>
    cases hstep
    exact h.goto fun _ => by split <;> simp

/-- A push that no {lit}`notify` is about to serve, or before the flag is set. -/
theorem Once.push (h : Once s) (hg : s.wait g = .push) (hapart : s.notify.serving = false) :
    Once ({ s with waitQ := s.waitQ ++ [g] }.goto g .read) := by
  have hpop : s.notify ≠ .pop := by
    intro hn
    simp [hn, Notify.serving] at hapart
  have hline : ({ s with waitQ := s.waitQ ++ [g] }.goto g .read).line = s.line ++ [g] := by
    simp [State.line, State.unserved, State.goto, hpop]
  have hnew : g ∉ s.line := h.early g (by rw [hg]; rfl)
  have hother : ∀ j, j ≠ g →
      ({ s with waitQ := s.waitQ ++ [g] }.goto g .read).wait j = s.wait j := fun j hj =>
    Function.update_of_ne hj _ _
  have hself : ({ s with waitQ := s.waitQ ++ [g] }.goto g .read).wait g = .read :=
    Function.update_self _ _ _
  refine ⟨h.flag, ?_, fun j hj => ?_, h.unwoken, fun hp j => ?_, fun hs => ?_, fun hd j => ?_⟩
  · rw [hline, List.nodup_append]
    refine ⟨h.nodup, by simp, fun a ha b hb hab => hnew ?_⟩
    rwa [← List.mem_singleton.mp hb, ← hab]
  · rw [hline]
    by_cases hjg : j = g
    · subst j
      rw [hself] at hj
      cases hj
    · rw [hother j hjg] at hj
      simpa [hjg] using h.early j hj
  · rw [hline]
    by_cases hjg : j = g
    · subst j
      simp [hself]
    · rw [hother j hjg, ← h.pending hp j]
      simp [hjg]
  · exact absurd hs (by simp [State.goto, hapart])
  · have hdone := h.done hd j
    by_cases hjg : j = g
    · subst j
      rw [hself]
      rw [hg] at hdone
      simpa [State.goto] using hdone
    · rw [hother j hjg]
      exact hdone

/-- A getter keeps the invariant when it does not push while the queue is served. -/
theorem Once.wait (h : Once s) (hapart : Apart s (.goGet g))
    (hstep : stepWait s g = some s') : Once s' := by
  have hfl : ∀ b, Once { s with fl := b } := fun b =>
    ⟨h.flag, h.nodup, h.early, h.unwoken, h.pending, h.serving, h.done⟩
  unfold stepWait at hstep
  cases hg : s.wait g <;> simp only [hg, reduceCtorEq] at hstep
  case lock =>
    split at hstep <;> cases hstep
    exact (hfl true).goto (by simp [hg, Wait.early]) (by simp [hg]) (by simp [hg])
  case unlock =>
    cases hstep
    exact (hfl false).goto (by simp [hg, Wait.early]) (by simp [hg]) (by simp [hg])
  case test =>
    cases hstep
    refine h.goto (by simp [hg, Wait.early]) (fun hp => ?_) (fun _ => ?_)
    · simp [flag_eq_false h.flag hp, hg]
    · split <;> simp [hg]
  case push =>
    cases hstep
    exact h.push hg (hapart hg)
  case read =>
    cases hstep
    refine h.goto ?_ (fun hp => ?_) (fun hp => ?_)
    · split <;> simp [Wait.early]
    · simp [flag_eq_false h.flag hp, hg]
    · simp [h.flag.mpr hp, hg]

/-- No getter saves a doomed one, and the doomed one goes on inline. -/
theorem Doomed.wait (hd : Doomed g s) (hstep : stepWait s j = some s') : Doomed g s' := by
  have hne : s.wait j ≠ .read → s.wait j ≠ .inline → j ≠ g := by
    rintro hr hi rfl
    exact hd.inline.elim hr hi
  unfold stepWait at hstep
  cases hj : s.wait j <;> simp only [hj, reduceCtorEq] at hstep <;>
    simp only [hj, ne_eq, reduceCtorEq, not_false_eq_true, not_true_eq_false, forall_const,
      false_implies] at hne
  case lock =>
    split at hstep <;> cases hstep
    exact Doomed.goto (s := { s with fl := true }) ⟨hd.flag, hd.inline, hd.woken⟩
      fun hjg => absurd hjg hne
  case unlock =>
    cases hstep
    exact Doomed.goto (s := { s with fl := false }) ⟨hd.flag, hd.inline, hd.woken⟩
      fun hjg => absurd hjg hne
  case test =>
    cases hstep
    exact hd.goto fun hjg => absurd hjg hne
  case push =>
    cases hstep
    refine Doomed.goto (s := { s with waitQ := s.waitQ ++ [j] }) ⟨hd.flag, hd.inline, ?_⟩
      fun hjg => absurd hjg hne
    refine hd.woken.imp_right fun ⟨hmem, hserving⟩ => ⟨?_, hserving⟩
    unfold State.unserved at hmem ⊢
    split at hmem
    next hn =>
      cases hq : s.waitQ with
      | nil => simp [hq] at hmem
      | cons x rest => simp_all
    next hn => simp [hn, hmem]
  case read =>
    cases hstep
    exact hd.goto fun _ => by simp [hd.flag]

/-! ## Whole runs -/

theorem Base.step {a : Action γ} (h : Base s) (hstep : step s a = some s') : Base s' := by
  cases a with
  | get g =>
      simp only [Waitflag.step] at hstep
      split at hstep <;> cases hstep
      exact h.goto (by simp)
  | goGet g => exact h.wait hstep
  | notify =>
      simp only [Waitflag.step] at hstep
      split at hstep <;> cases hstep
      next hn =>
        have hflag := h.flag
        have hpushed := h.pushed
        rw [hn] at hflag hpushed
        exact ⟨hflag, hpushed, by simp⟩
  | goNotify => exact h.notify hstep

theorem Once.step {a : Action γ} (h : Once s) (hapart : Apart s a)
    (hstep : step s a = some s') : Once s' := by
  cases a with
  | get g =>
      simp only [Waitflag.step] at hstep
      split at hstep <;> cases hstep
      next hg => exact h.goto (by simp [hg, Wait.early]) (by simp [hg]) (by simp [hg])
  | goGet g => exact h.wait hapart hstep
  | notify =>
      simp only [Waitflag.step] at hstep
      split at hstep <;> cases hstep
      next hn =>
        have hflag := h.flag
        rw [hn] at hflag
        refine h.of_line rfl ?_ hflag ?_ ?_ ?_ <;>
          simp [State.line, State.unserved, hn, Notify.pending, Notify.serving]
  | goNotify => exact h.notify hapart hstep

theorem Doomed.step {a : Action γ} (hd : Doomed g s) (hstep : step s a = some s') :
    Doomed g s' := by
  cases a with
  | get j =>
      simp only [Waitflag.step] at hstep
      split at hstep <;> cases hstep
      next hj =>
        refine hd.goto fun hjg => ?_
        subst j
        rcases hd.inline with hg | hg <;> simp [hg] at hj
  | goGet j => exact hd.wait hstep
  | notify =>
      simp only [Waitflag.step] at hstep
      split at hstep <;> cases hstep
      next hn =>
        refine ⟨hd.flag, hd.inline, Or.inl ?_⟩
        simpa [hn, Notify.serving] using hd.woken
  | goNotify => exact hd.notify hstep

/-- A step at which flag and queue do not stay apart dooms a getter. -/
theorem Base.doomed {a : Action γ} (h : Base s) (hapart : ¬ Apart s a)
    (hstep : Waitflag.step s a = some s') : ∃ g, Doomed g s' := by
  cases a with
  | get g => exact absurd trivial hapart
  | notify => exact absurd trivial hapart
  | goGet g =>
      simp only [Apart, Classical.not_imp, Bool.not_eq_false] at hapart
      rcases hapart with ⟨hg, hserving⟩
      have hs : { s with waitQ := s.waitQ ++ [g] }.goto g .read = s' := by
        simpa [Waitflag.step, stepWait, hg] using hstep
      subst s'
      refine ⟨g, ?_, Or.inl (by simp [State.goto]), Or.inr ⟨?_, hserving⟩⟩
      · exact h.flag.mpr (by cases hn : s.notify <;> simp_all [Notify.serving, Notify.pending])
      · unfold State.unserved
        split
        next hn =>
          cases hq : s.waitQ with
          | nil => exact absurd hq (h.front hn)
          | cons x rest => simp [State.goto]
        next => simp [State.goto]
  | goNotify =>
      simp only [Apart, Classical.not_imp, not_forall, not_not] at hapart
      rcases hapart with ⟨hn, g, hg⟩
      have hs : { s with flag := true, notify := .test } = s' := by
        simpa [Waitflag.step, stepNotify, hn] using hstep
      subst s'
      have hmem : g ∈ s.waitQ := h.pushed (by rw [hn]; rfl) g hg
      exact ⟨g, rfl, Or.inl hg, Or.inr ⟨by simpa [State.unserved] using hmem, rfl⟩⟩

omit [DecidableEq γ] in
theorem base_construct : Base (State.construct : State γ) :=
  ⟨by simp [State.construct, Notify.pending], by simp [State.construct],
    by simp [State.construct]⟩

omit [DecidableEq γ] in
theorem once_construct : Once (State.construct : State γ) := by
  constructor <;> simp [State.construct, State.line, State.unserved, Notify.pending,
    Notify.serving]

/-- Every getter that called {lit}`get` has been continued once, and no suspended one has
its handle left in the queue. -/
def State.OnceEach (s : State γ) : Prop :=
  ∀ g, s.wait g ≠ .idle → s.continued g = 1 ∧ (s.wait g = .suspended → g ∉ s.waitQ)

omit [DecidableEq γ] in
/-- A getter that is inline has no handle with {lit}`wakeUpReady`. -/
theorem Once.not_mem_readyRo (h : Once s) (hg : s.wait g ≠ .suspended)
    (hr : s.wait g ≠ .read) : g ∉ s.readyRo_ := by
  intro hmem
  have hline : g ∈ s.line := List.mem_append_left _ hmem
  cases hp : s.notify.pending with
  | true => exact ((h.pending hp g).mp hline).elim hr hg
  | false =>
      cases hs : s.notify.serving with
      | true => exact hg ((h.serving hs g).mp hline)
      | false =>
          have hd : s.notify = .done := by
            cases hn : s.notify <;> simp [hn, Notify.pending, Notify.serving] at hp hs ⊢
          exact hg ((h.done hd g).mp hmem)

/-- No getter is continued twice. -/
theorem Once.continued_le (h : Once s) (g : γ) : s.continued g ≤ 1 := by
  unfold State.continued
  split
  next hg =>
    have hzero : s.readyRo_.count g = 0 :=
      List.count_eq_zero.mpr (h.not_mem_readyRo (by simp [hg]) (by simp [hg]))
    omega
  next =>
    have hnodup : s.readyRo_.Nodup := (List.nodup_append.mp h.nodup).1
    simpa using List.nodup_iff_count_le_one.mp hnodup g

/-- Once everything has finished every getter has been continued. -/
theorem Once.onceEach (h : Once s) (hfin : s.Finished) : s.OnceEach := by
  intro g hg
  have hnodup : (s.readyRo_ ++ s.unserved).Nodup := h.nodup
  have hunserved : s.unserved = s.waitQ := by simp [State.unserved, hfin.1]
  rw [hunserved, List.nodup_append] at hnodup
  rcases hfin.2 g with hidle | hinline | hsusp
  · exact absurd hidle hg
  · refine ⟨?_, fun hs => by rw [hinline] at hs; cases hs⟩
    unfold State.continued
    rw [if_pos hinline,
      List.count_eq_zero.mpr (h.not_mem_readyRo (by simp [hinline]) (by simp [hinline]))]
  · have hmem : g ∈ s.readyRo_ := (h.done hfin.1 g).mpr hsusp
    refine ⟨?_, fun _ hq => hnodup.2.2 g hmem g hq rfl⟩
    unfold State.continued
    rw [if_neg (by simp [hsusp]), List.count_eq_one_of_mem hnodup.1 hmem]

/-- A doomed getter is continued twice in the end. -/
theorem Doomed.not_onceEach (hd : Doomed g s) (hfin : s.Finished) : ¬ s.OnceEach := by
  intro hall
  have hinline : s.wait g = .inline := by
    refine hd.inline.resolve_left fun hread => ?_
    rcases hfin.2 g with hg | hg | hg <;> rw [hread] at hg <;> cases hg
  have hready : g ∈ s.readyRo_ := by
    refine hd.woken.resolve_right fun hs => ?_
    simpa [hfin.1, Notify.serving] using hs.2
  have hone := (hall g (by simp [hinline])).1
  unfold State.continued at hone
  rw [if_pos hinline] at hone
  have hpos : 0 < s.readyRo_.count g := List.count_pos_iff.mpr hready
  omega

/-- In every run that keeps flag and queue apart no getter is continued twice, and a
finished run continues every getter exactly once if and only if it keeps them apart. -/
theorem continued_once_iff (as : List (Action γ)) (s : State γ)
    (hrun : machine.run State.construct as = some s) :
    (machine.Along Apart State.construct as → ∀ g, s.continued g ≤ 1) ∧
      (s.Finished → (s.OnceEach ↔ machine.Along Apart State.construct as)) := by
  have honce : machine.Along Apart State.construct as → Once s := fun halong =>
    Machine.Along.run (fun _ _ _ h hapart hstep => h.step hapart hstep) once_construct halong
      hrun
  refine ⟨fun halong => (honce halong).continued_le, fun hfin => ⟨fun hall => ?_, fun halong =>
    (honce halong).onceEach hfin⟩⟩
  refine Machine.along_of_not_doomed (I := Base) (D := fun t => ∃ g, Doomed g t)
    (fun _ _ _ h hstep => h.step hstep) (fun _ _ _ h hapart hstep => h.doomed hapart hstep)
    ?_ base_construct hrun ?_
  · rintro t a t' _ ⟨g, hg⟩ hstep
    exact ⟨g, hg.step hstep⟩
  · rintro ⟨g, hg⟩
    exact hg.not_onceEach hfin hall

/-- One getter waits before {lit}`notify` starts. -/
def waitThenNotify : List (Action (Fin 1)) :=
  .get 0 :: List.replicate 5 (.goGet 0) ++ .notify :: List.replicate 7 .goNotify

/-- What is to be seen of one getter. -/
def view (s : State (Fin 1)) : Notify × Wait × List (Fin 1) × List (Fin 1) :=
  (s.notify, s.wait 0, s.waitQ, s.readyRo_)

/-- The getter is continued once, so the run keeps flag and queue apart. -/
theorem waitThenNotify_apart : machine.Along Apart State.construct waitThenNotify := by
  have hrun : (machine.run State.construct waitThenNotify).map view =
      some (.done, .suspended, [], [0]) := by decide +kernel
  rcases Option.map_eq_some_iff.mp hrun with ⟨s, hs, hview⟩
  simp only [view, Prod.mk.injEq] at hview
  rcases hview with ⟨hnotify, hwait, hwaitQ, hready⟩
  have hfin : s.Finished :=
    ⟨hnotify, fun g => Or.inr (Or.inr (by rw [Subsingleton.elim g 0, hwait]))⟩
  refine ((continued_once_iff waitThenNotify s hs).2 hfin).mp fun g _ => ?_
  rw [Subsingleton.elim g 0, State.continued, hwait, hwaitQ, hready]
  decide

/-- The flag is set between the push and the final read of a getter. -/
def setBeforeRead : List (Action (Fin 1)) :=
  .get 0 :: List.replicate 4 (.goGet 0) ++ .notify :: List.replicate 3 .goNotify ++
  .goGet 0 :: List.replicate 4 .goNotify

/-- That getter goes on inline and is given to {lit}`wakeUpReady`. -/
theorem continued_twice :
    ∃ s, machine.run State.construct setBeforeRead = some s ∧ s.Finished ∧
      s.wait 0 = .inline ∧ s.readyRo_ = [0] ∧ s.continued 0 = 2 := by
  have hrun : (machine.run State.construct setBeforeRead).map view =
      some (.done, .inline, [], [0]) := by decide +kernel
  rcases Option.map_eq_some_iff.mp hrun with ⟨s, hs, hview⟩
  simp only [view, Prod.mk.injEq] at hview
  rcases hview with ⟨hnotify, hwait, hwaitQ, hready⟩
  have hfin : s.Finished :=
    ⟨hnotify, fun g => Or.inr (Or.inl (by rw [Subsingleton.elim g 0, hwait]))⟩
  refine ⟨s, hs, hfin, hwait, hready, ?_⟩
  rw [State.continued, hwait, hready]
  decide

end Waitflag
end CoEpoll
