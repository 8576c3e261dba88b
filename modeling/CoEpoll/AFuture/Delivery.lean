import CoEpoll.AFuture.Continuation
import Mathlib.Data.Fintype.Basic

/-!
# `colib::async` and `future::get`: what a getter reads

{lit}`async_help` runs the callable, stores what it has returned in {lit}`_state->value` and only then awaits
{lit}`SetAwaiter`; when the callable throws it does neither.  A getter that goes on, inline or when a
CPU thread resumes the handle that {lit}`wakeUpReady` has been given, reads {lit}`_state_ptr->value` once and
returns.  {lit}`readyRo_` is taken as an atomic queue.

Main results:

- Theorem {lit}`Woken.step`: nobody goes on before the flag is set.
- Theorem {lit}`Performed.step`: every continuation of a getter has read the value, or was one too many.
- Theorem {lit}`async_delivers`: under every interleaving {lit}`get` returns nothing but the value of the
  callable; where flag and queue stay apart, every getter returns it, once.
-/

namespace CoEpoll
namespace Waitflag

variable {γ : Type*}

/-- Nobody goes on, and nobody is given to {lit}`wakeUpReady`, before the flag is set. -/
structure Woken (s : State γ) : Prop where
  flag : s.flag = true ↔ s.notify.pending = false
  readyRo_ : s.notify.pending = true → s.readyRo_ = []
  inline : s.notify.pending = true → ∀ g, s.wait g ≠ .inline

variable {s s' : State γ} {g : γ}

theorem woken_construct : Woken (State.construct : State γ) := by
  constructor <;> simp [State.construct, Notify.pending]

/-- The producer gives handles away only behind its store to the flag. -/
theorem Woken.notify (h : Woken s) (hstep : stepNotify s = some s') : Woken s' := by
  rcases h with ⟨hflag, hready, hinline⟩
  unfold stepNotify at hstep
  cases hn : s.notify <;> simp only [hn, reduceCtorEq] at hstep <;> rw [hn] at hflag hready hinline
  case lock =>
    split at hstep <;> cases hstep
    exact ⟨hflag, hready, hinline⟩
  case unlock =>
    cases hstep
    exact ⟨hflag, hready, hinline⟩
  case set =>
    cases hstep
    exact ⟨by simp [Notify.pending], by simp [Notify.pending], by simp [Notify.pending]⟩
  case test =>
    cases hstep
    refine ⟨?_, ?_, ?_⟩ <;> dsimp only <;> split <;>
      simp_all [Notify.pending]
  case wake =>
    split at hstep
    next => cases hstep
    next => cases hstep; exact ⟨hflag, by simp [Notify.pending], by simp [Notify.pending]⟩
  case pop =>
    cases hstep
    exact ⟨hflag, by simp [Notify.pending], by simp [Notify.pending]⟩

variable [DecidableEq γ] {w : Wait}

theorem goto_wait_self (s : State γ) (g : γ) (w : Wait) : (s.goto g w).wait g = w :=
  Function.update_self _ _ _

theorem goto_wait_of_ne (s : State γ) {g j : γ} (hj : j ≠ g) (w : Wait) :
    (s.goto g w).wait j = s.wait j :=
  Function.update_of_ne hj _ _

/-- A getter that does not go on. -/
theorem Woken.goto (h : Woken s) (hw : s.notify.pending = true → w ≠ .inline) :
    Woken (s.goto g w) := by
  refine ⟨h.flag, h.readyRo_, fun hp j => ?_⟩
  by_cases hj : j = g
  · subst hj
    rw [goto_wait_self]
    exact hw hp
  · rw [goto_wait_of_ne s hj]
    exact h.inline hp j

theorem Woken.wait (h : Woken s) (hstep : stepWait s g = some s') : Woken s' := by
  unfold stepWait at hstep
  cases hg : s.wait g <;> simp only [hg, reduceCtorEq] at hstep
  case lock =>
    split at hstep <;> cases hstep
    exact Woken.goto (s := { s with fl := true }) ⟨h.flag, h.readyRo_, h.inline⟩ (by simp)
  case unlock =>
    cases hstep
    exact Woken.goto (s := { s with fl := false }) ⟨h.flag, h.readyRo_, h.inline⟩ (by simp)
  case test =>
    cases hstep
    exact h.goto fun _ => by split <;> simp
  case push =>
    cases hstep
    exact Woken.goto (s := { s with waitQ := s.waitQ ++ [g] }) ⟨h.flag, h.readyRo_, h.inline⟩
      (by simp)
  case read =>
    cases hstep
    exact h.goto fun hp => by simp [flag_eq_false h.flag hp]

theorem Woken.step {a : Action γ} (h : Woken s) (hstep : step s a = some s') : Woken s' := by
  cases a with
  | get g =>
      simp only [Waitflag.step] at hstep
      split at hstep <;> cases hstep
      exact h.goto (by simp)
  | goGet g => exact h.wait hstep
  | notify =>
      simp only [Waitflag.step] at hstep
      split at hstep <;> cases hstep
      next hn =>
        rcases h with ⟨hflag, hready, hinline⟩
        rw [hn] at hflag hready hinline
        exact ⟨hflag, hready, hinline⟩
  | goNotify => exact h.notify hstep

/-- Of what has been given to {lit}`wakeUpReady` nothing is taken back, and who has gone on inline stays
there. -/
theorem step_monotone {a : Action γ} (hstep : step s a = some s') :
    s.readyRo_ <+: s'.readyRo_ ∧ ∀ g, s.wait g = .inline → s'.wait g = .inline := by
  have hgoto : ∀ (t : State γ) (g : γ) (w : Wait), t.wait g ≠ .inline →
      ∀ j, t.wait j = .inline → (t.goto g w).wait j = .inline := by
    intro t g w hg j hj
    have hne : j ≠ g := fun heq => hg (heq ▸ hj)
    rw [goto_wait_of_ne t hne]
    exact hj
  cases a with
  | get g =>
      simp only [Waitflag.step] at hstep
      split at hstep <;> cases hstep
      next hg => exact ⟨List.prefix_refl _, hgoto s g _ (by simp [hg])⟩
  | goGet g =>
      simp only [Waitflag.step, stepWait] at hstep
      cases hg : s.wait g <;> simp only [hg, reduceCtorEq] at hstep
      case lock =>
        split at hstep <;> cases hstep
        exact ⟨List.prefix_refl _, hgoto { s with fl := true } g _ (by simp [hg])⟩
      case unlock =>
        cases hstep
        exact ⟨List.prefix_refl _, hgoto { s with fl := false } g _ (by simp [hg])⟩
      case test =>
        cases hstep
        exact ⟨List.prefix_refl _, hgoto s g _ (by simp [hg])⟩
      case push =>
        cases hstep
        exact ⟨List.prefix_refl _, hgoto { s with waitQ := s.waitQ ++ [g] } g _ (by simp [hg])⟩
      case read =>
        cases hstep
        exact ⟨List.prefix_refl _, hgoto s g _ (by simp [hg])⟩
  | notify =>
      simp only [Waitflag.step] at hstep
      split at hstep <;> cases hstep
      exact ⟨List.prefix_refl _, fun _ hg => hg⟩
  | goNotify =>
      simp only [Waitflag.step, stepNotify] at hstep
      cases hn : s.notify <;> simp only [hn, reduceCtorEq] at hstep
      case lock =>
        split at hstep <;> cases hstep
        exact ⟨List.prefix_refl _, fun _ hg => hg⟩
      case wake =>
        split at hstep
        next => cases hstep
        next =>
          cases hstep
          exact ⟨List.prefix_append _ _, fun _ hg => hg⟩
      all_goals
        cases hstep
        exact ⟨List.prefix_refl _, fun _ hg => hg⟩

end Waitflag

namespace Async

open Transition Waitflag

/-- The shared state of a {lit}`future`, the producer and the getters: what the callable has come to,
which getters have gone on behind an inline {lit}`wait`, how many of the handles in the ready queue the
CPU threads have taken, what {lit}`get` has returned, and how often a getter has been resumed although
it had gone on already. -/
structure State (γ ε T : Type*) where
  wf : Waitflag.State γ
  called : Option (Except ε T)
  value : Option T
  inline : γ → Bool
  taken : Nat
  got : γ → Option (Option T)
  again : γ → Nat

variable {γ ε T : Type*}

/-- {lit}`std::make_shared<state<RET>>()`, before any call. -/
def State.construct : State γ ε T where
  wf := .construct
  called := none
  value := none
  inline := fun _ => false
  taken := 0
  got := fun _ => none
  again := fun _ => 0

inductive Action (γ ε T : Type*) where
  /-- A step of {lit}`wait` or of {lit}`notify`. -/
  | flag (a : Waitflag.Action γ)
  /-- {lit}`__f` returns or throws. -/
  | called (r : Except ε T)
  /-- {lit}`_state->value` is assigned. -/
  | store
  /-- A getter goes on behind an inline {lit}`wait`. -/
  | inline (g : γ)
  /-- A CPU thread takes the next handle from the ready queue and resumes it. -/
  | resume

variable [DecidableEq γ]

/-- {lit}`get` reads {lit}`_state_ptr->value` and returns, if it has not done so already. -/
def State.goOn (s : State γ ε T) (g : γ) : State γ ε T :=
  match s.got g with
  | none => { s with got := Function.update s.got g (some s.value) }
  | some _ => { s with again := Function.update s.again g (s.again g + 1) }

/-- {lit}`SetAwaiter` is behind the assignment. -/
def State.Enabled (s : State γ ε T) : Waitflag.Action γ → Prop
  | .notify => s.value.isSome
  | _ => True

instance (s : State γ ε T) (a : Waitflag.Action γ) : Decidable (s.Enabled a) := by
  unfold State.Enabled
  split <;> infer_instance

/-- One step. -/
def step (s : State γ ε T) : Action γ ε T → Option (State γ ε T)
  | .flag a =>
      if s.Enabled a then (Waitflag.step s.wf a).map fun wf => { s with wf := wf } else none
  | .called r =>
      match s.called with
      | none => some { s with called := some r }
      | some _ => none
  | .store =>
      match s.called, s.value with
      | some (.ok v), none => some { s with value := some v }
      | _, _ => none
  | .inline g =>
      if s.wf.wait g = .inline ∧ s.inline g = false then
        some ({ s with inline := Function.update s.inline g true }.goOn g)
      else none
  | .resume =>
      match s.wf.readyRo_[s.taken]? with
      | some g => some ({ s with taken := s.taken + 1 }.goOn g)
      | none => none

/-- One {lit}`async`, any number of getters and CPU threads under any interleaving. -/
def machine : Machine (State γ ε T) (Action γ ε T) where
  init s := s = State.construct
  step := step

/-- Flag and queue stay apart. -/
def Apart (s : State γ ε T) : Action γ ε T → Prop
  | .flag a => Waitflag.Apart s.wf a
  | _ => True

instance [Fintype γ] (s : State γ ε T) (a : Action γ ε T) : Decidable (Apart s a) := by
  unfold Apart
  split
  · unfold Waitflag.Apart
    split <;> infer_instance
  · infer_instance

/-- {lit}`notify` and all calls of {lit}`wait` have finished, and everybody who is to go on has gone on. -/
structure State.Settled (s : State γ ε T) : Prop where
  finished : s.wf.Finished
  inline : ∀ g, s.wf.wait g = .inline → s.inline g = true
  taken : s.taken = s.wf.readyRo_.length

/-! ## The value -/

/-- Who has gone on has read the value, and the value is the callable's. -/
structure Valued (s : State γ ε T) : Prop where
  woken : Woken s.wf
  called : ∀ v, s.value = some v → s.called = some (.ok v)
  idle : s.value = none → s.wf.notify = .idle
  got : ∀ g r, s.got g = some r → s.value ≠ none ∧ r = s.value

variable {s s' : State γ ε T} {g : γ} {a : Action γ ε T}

theorem goOn_frame (s : State γ ε T) (g : γ) :
    (s.goOn g).wf = s.wf ∧ (s.goOn g).called = s.called ∧ (s.goOn g).value = s.value ∧
      (s.goOn g).inline = s.inline ∧ (s.goOn g).taken = s.taken := by
  unfold State.goOn
  split <;> exact ⟨rfl, rfl, rfl, rfl, rfl⟩

omit [DecidableEq γ] in
/-- Nobody goes on before the value is stored. -/
theorem Valued.stored (h : Valued s) (hpending : s.wf.notify.pending = false) : s.value ≠ none := by
  intro hnone
  rw [h.idle hnone] at hpending
  cases hpending

theorem Valued.goOn (h : Valued s) (hpending : s.wf.notify.pending = false) :
    Valued (s.goOn g) := by
  rcases goOn_frame s g with ⟨hwf, hcalled, hvalue, _, _⟩
  refine ⟨by rw [hwf]; exact h.woken, by rw [hvalue, hcalled]; exact h.called,
    by rw [hvalue, hwf]; exact h.idle, ?_⟩
  intro j r hj
  rw [hvalue]
  unfold State.goOn at hj
  split at hj
  · dsimp only at hj
    by_cases hjg : j = g
    · subst hjg
      rw [Function.update_self] at hj
      cases hj
      exact ⟨h.stored hpending, rfl⟩
    · rw [Function.update_of_ne hjg] at hj
      exact h.got j r hj
  · exact h.got j r hj

theorem Valued.step (h : Valued s) (hstep : step s a = some s') : Valued s' := by
  cases a with
  | flag a =>
      simp only [Async.step] at hstep
      split at hstep
      · rename_i henabled
        rcases Option.map_eq_some_iff.mp hstep with ⟨wf, hwf, rfl⟩
        refine ⟨h.woken.step hwf, h.called, ?_, h.got⟩
        intro hnone
        have hnone : s.value = none := hnone
        have hidle := h.idle hnone
        cases a with
        | notify => simp [State.Enabled, hnone] at henabled
        | goNotify =>
            simp only [Waitflag.step, stepNotify, hidle] at hwf
            cases hwf
        | get g =>
            simp only [Waitflag.step] at hwf
            split at hwf <;> cases hwf
            exact hidle
        | goGet g =>
            simp only [Waitflag.step, stepWait] at hwf
            cases hg : s.wf.wait g <;> simp only [hg, reduceCtorEq] at hwf
            case lock =>
              split at hwf <;> cases hwf
              exact hidle
            all_goals
              cases hwf
              exact hidle
      · cases hstep
  | called r =>
      simp only [Async.step] at hstep
      split at hstep <;> cases hstep
      rename_i hcalled
      refine ⟨h.woken, fun v hv => ?_, h.idle, h.got⟩
      cases hcalled.symm.trans (h.called v hv)
  | store =>
      simp only [Async.step] at hstep
      split at hstep <;> cases hstep
      rename_i v hcalled hvalue
      refine ⟨h.woken, ?_, ?_, ?_⟩
      · intro u hu
        cases hu
        exact hcalled
      · intro hnone
        cases hnone
      · intro g r hg
        exact absurd hvalue (h.got g r hg).1
  | inline g =>
      simp only [Async.step] at hstep
      split at hstep <;> cases hstep
      rename_i hat
      have hset : s.wf.notify.pending = false := by
        cases hp : s.wf.notify.pending with
        | false => rfl
        | true => exact absurd hat.1 (h.woken.inline hp g)
      exact Valued.goOn (s := { s with inline := Function.update s.inline g true })
        ⟨h.woken, h.called, h.idle, h.got⟩ hset
  | resume =>
      simp only [Async.step] at hstep
      split at hstep <;> cases hstep
      rename_i g hg
      have hset : s.wf.notify.pending = false := by
        cases hp : s.wf.notify.pending with
        | false => rfl
        | true =>
            rw [h.woken.readyRo_ hp] at hg
            cases hg
      exact Valued.goOn (s := { s with taken := s.taken + 1 })
        ⟨h.woken, h.called, h.idle, h.got⟩ hset

omit [DecidableEq γ] in
theorem valued_construct : Valued (State.construct : State γ ε T) := by
  refine ⟨woken_construct, ?_, fun _ => rfl, ?_⟩
  · intro v hv
    cases hv
  · intro g r hg
    cases hg

/-! ## The continuations -/

/-- How often {lit}`g` has gone on: inline, and as a handle from the ready queue. -/
def State.performed (s : State γ ε T) (g : γ) : Nat :=
  (s.inline g).toNat + (s.wf.readyRo_.take s.taken).count g

/-- How often {lit}`g` has read the value or was found to have done so. -/
def State.served (s : State γ ε T) (g : γ) : Nat :=
  (s.got g).isSome.toNat + s.again g

/-- Every continuation of a getter has read the value, or was one too many. -/
structure Performed (s : State γ ε T) : Prop where
  served : ∀ g, s.performed g = s.served g
  again : ∀ g, s.got g = none → s.again g = 0
  inline : ∀ g, s.inline g = true → s.wf.wait g = .inline
  taken : s.taken ≤ s.wf.readyRo_.length

/-- A getter that goes on is served once more. -/
theorem served_goOn (s : State γ ε T) (g j : γ) :
    (s.goOn g).served j = s.served j + if j = g then 1 else 0 := by
  unfold State.goOn State.served
  by_cases hj : j = g
  · subst hj
    rw [if_pos rfl]
    cases hgot : s.got j with
    | none => simp [Nat.add_comm]
    | some r => simp [hgot, Nat.add_assoc]
  · rw [if_neg hj]
    cases hgot : s.got g with
    | none => simp [Function.update_of_ne hj]
    | some r => simp [Function.update_of_ne hj]

/-- Nobody goes on again who has not gone on. -/
theorem again_goOn (h : ∀ j, s.got j = none → s.again j = 0) (g j : γ)
    (hj : (s.goOn g).got j = none) : (s.goOn g).again j = 0 := by
  unfold State.goOn at hj ⊢
  cases hgot : s.got g with
  | none =>
      simp only [hgot] at hj ⊢
      apply h
      by_cases hjg : j = g
      · exact hjg ▸ hgot
      · rwa [Function.update_of_ne hjg] at hj
  | some r =>
      simp only [hgot] at hj ⊢
      have hjg : j ≠ g := fun hjg => by rw [hjg, hgot] at hj; cases hj
      rw [Function.update_of_ne hjg]
      exact h j hj

theorem performed_construct : Performed (State.construct : State γ ε T) where
  served g := by simp [State.performed, State.served, State.construct, Waitflag.State.construct]
  again _ _ := rfl
  inline g h := by cases h
  taken := Nat.le_refl _

theorem Performed.step (h : Performed s) (hstep : step s a = some s') : Performed s' := by
  cases a with
  | flag a =>
      simp only [Async.step] at hstep
      split at hstep
      · rcases Option.map_eq_some_iff.mp hstep with ⟨wf, hwf, rfl⟩
        rcases step_monotone hwf with ⟨hbegins, hinline⟩
        rcases hbegins with ⟨rest, hrest⟩
        refine ⟨?_, h.again, fun g hg => hinline g (h.inline g hg), ?_⟩
        · intro g
          have hserved := h.served g
          unfold State.performed at hserved ⊢
          dsimp only at hserved ⊢
          rw [← hrest, List.take_append_of_le_length h.taken]
          exact hserved
        · dsimp only
          rw [← hrest, List.length_append]
          exact Nat.le_trans h.taken (Nat.le_add_right _ _)
      · cases hstep
  | called r =>
      simp only [Async.step] at hstep
      split at hstep <;> cases hstep
      exact ⟨h.served, h.again, h.inline, h.taken⟩
  | store =>
      simp only [Async.step] at hstep
      split at hstep <;> cases hstep
      exact ⟨h.served, h.again, h.inline, h.taken⟩
  | inline g =>
      simp only [Async.step] at hstep
      split at hstep <;> cases hstep
      rename_i hat
      rcases goOn_frame { s with inline := Function.update s.inline g true } g with
        ⟨hwf, _, _, hinline, htaken⟩
      refine ⟨fun j => ?_, again_goOn (s := { s with inline := Function.update s.inline g true })
        h.again g, fun j hj => ?_, ?_⟩
      · rw [served_goOn]
        have hserved := h.served j
        unfold State.performed at hserved ⊢
        rw [hwf, hinline, htaken]
        dsimp only [State.served] at hserved ⊢
        by_cases hjg : j = g
        · subst hjg
          rw [hat.2, Bool.toNat_false] at hserved
          rw [Function.update_self, Bool.toNat_true, if_pos rfl]
          omega
        · rw [Function.update_of_ne hjg, if_neg hjg]
          omega
      · rw [hinline] at hj
        rw [hwf]
        dsimp only at hj ⊢
        by_cases hjg : j = g
        · subst hjg
          exact hat.1
        · rw [Function.update_of_ne hjg] at hj
          exact h.inline j hj
      · rw [hwf, htaken]
        exact h.taken
  | resume =>
      simp only [Async.step] at hstep
      split at hstep <;> cases hstep
      rename_i g hg
      rcases goOn_frame { s with taken := s.taken + 1 } g with ⟨hwf, _, _, hinline, htaken⟩
      refine ⟨fun j => ?_, again_goOn (s := { s with taken := s.taken + 1 }) h.again g,
        fun j hj => ?_, ?_⟩
      · rw [served_goOn]
        have hserved := h.served j
        unfold State.performed at hserved ⊢
        rw [hwf, hinline, htaken]
        dsimp only [State.served] at hserved ⊢
        rw [List.take_add_one, hg, List.count_append]
        by_cases hjg : j = g
        · subst hjg
          simp only [Option.toList_some, List.count_singleton_self, if_pos]
          omega
        · simp only [Option.toList_some, if_neg hjg,
            List.count_singleton, beq_iff_eq, if_neg (Ne.symm hjg)]
          omega
      · rw [hinline] at hj
        rw [hwf]
        exact h.inline j hj
      · rw [hwf, htaken]
        exact (List.getElem?_eq_some_iff.mp hg).1

/-! ## Whole runs -/

/-- A step of the flag is one of the machine of the flag. -/
theorem once_step (h : Once s.wf) (hapart : Apart s a) (hstep : step s a = some s') :
    Once s'.wf := by
  cases a with
  | flag a =>
      simp only [Async.step] at hstep
      split at hstep
      · rcases Option.map_eq_some_iff.mp hstep with ⟨wf, hwf, rfl⟩
        exact h.step hapart hwf
      · cases hstep
  | called r =>
      simp only [Async.step] at hstep
      split at hstep <;> cases hstep
      exact h
  | store =>
      simp only [Async.step] at hstep
      split at hstep <;> cases hstep
      exact h
  | inline g =>
      simp only [Async.step] at hstep
      split at hstep <;> cases hstep
      rw [(goOn_frame _ g).1]
      exact h
  | resume =>
      simp only [Async.step] at hstep
      split at hstep <;> cases hstep
      rw [(goOn_frame _ _).1]
      exact h

/-- When the callable has not returned, or has thrown, nobody has gone on or will. -/
theorem Valued.nobody (h : Valued s) (hcalled : ∀ v, s.called ≠ some (.ok v)) (g : γ) :
    s.got g = none ∧ s.wf.continued g = 0 := by
  have hnone : s.value = none := by
    cases hvalue : s.value with
    | none => rfl
    | some v => exact absurd (h.called v hvalue) (hcalled v)
  have hpending : s.wf.notify.pending = true := by
    rw [h.idle hnone]
    rfl
  constructor
  · cases hgot : s.got g with
    | none => rfl
    | some r => exact absurd hnone (h.got g r hgot).1
  · unfold Waitflag.State.continued
    rw [if_neg (h.woken.inline hpending g), h.woken.readyRo_ hpending, List.count_nil]

/-- What has gone on has been continued. -/
theorem Performed.le_continued (h : Performed s) (g : γ) :
    s.performed g ≤ s.wf.continued g := by
  have hsub := (List.take_sublist s.taken s.wf.readyRo_).count_le g
  unfold State.performed Waitflag.State.continued
  cases hg : s.inline g with
  | false =>
      rw [Bool.toNat_false]
      split <;> omega
  | true =>
      rw [if_pos (h.inline g hg), Bool.toNat_true]
      omega

/-- Once everything has settled everybody who is to go on has done so. -/
theorem State.Settled.performed (h : s.Settled) (hperformed : Performed s) (g : γ) :
    s.performed g = s.wf.continued g := by
  unfold State.performed Waitflag.State.continued
  rw [h.taken, List.take_length]
  cases hg : s.inline g with
  | false =>
      rw [if_neg, Bool.toNat_false]
      intro hwait
      cases hg.symm.trans (h.inline g hwait)
  | true => rw [if_pos (hperformed.inline g hg), Bool.toNat_true]

/-- Under every interleaving {lit}`get` returns nothing but what the callable has returned; when it has
thrown nobody goes on.  As long as flag and queue stay apart nobody goes on twice, and when
everything has settled everybody who has called {lit}`get` has returned the value. -/
theorem async_delivers (as : List (Action γ ε T)) (s : State γ ε T)
    (hrun : machine.run State.construct as = some s) :
    (∀ g r, s.got g = some r → ∃ v, r = some v ∧ s.called = some (.ok v)) ∧
      ((∀ v, s.called ≠ some (.ok v)) → ∀ g, s.got g = none ∧ s.wf.continued g = 0) ∧
      (machine.Along Apart State.construct as → (∀ g, s.again g = 0) ∧
        (s.Settled → ∀ g, s.wf.wait g ≠ .idle →
          ∃ v, s.called = some (.ok v) ∧ s.got g = some (some v))) := by
  have hvalued : Valued s :=
    Machine.run_keep (fun _ _ _ h hstep => h.step hstep) valued_construct hrun
  have hperformed : Performed s :=
    Machine.run_keep (fun _ _ _ h hstep => h.step hstep) performed_construct hrun
  have hread : ∀ g r, s.got g = some r → ∃ v, r = some v ∧ s.called = some (.ok v) := by
    intro g r hgot
    rcases hvalued.got g r hgot with ⟨hne, rfl⟩
    rcases Option.ne_none_iff_exists'.mp hne with ⟨v, hv⟩
    exact ⟨v, hv, hvalued.called v hv⟩
  refine ⟨hread, hvalued.nobody, fun halong => ?_⟩
  have honce : Once s.wf := Machine.Along.run (I := fun s : State γ ε T => Once s.wf)
    (fun _ _ _ h hapart hstep => once_step h hapart hstep) once_construct halong hrun
  refine ⟨fun g => ?_, fun hsettled g hg => ?_⟩
  · have hserved := hperformed.served g
    have hle := hperformed.le_continued g
    have hone := honce.continued_le g
    unfold State.served at hserved
    cases hgot : s.got g with
    | some r =>
        rw [hgot, Option.isSome_some, Bool.toNat_true] at hserved
        omega
    | none => exact hperformed.again g hgot
  · have hone := (honce.onceEach hsettled.finished g hg).1
    have hserved := hperformed.served g
    rw [hsettled.performed hperformed, hone] at hserved
    unfold State.served at hserved
    cases hgot : s.got g with
    | none =>
        rw [hgot, hperformed.again g hgot] at hserved
        cases hserved
    | some r =>
        rcases hread g r hgot with ⟨v, rfl, hv⟩
        exact ⟨v, hv, rfl⟩

/-- A getter waits, the callable returns 7, and the getter is resumed. -/
theorem async_delivers_sample :
    ∃ s : State Unit Unit Nat, s.Settled ∧ s.again () = 0 ∧
      ∃ v, s.called = some (.ok v) ∧ s.got () = some (some v) := by
  let as : List (Action Unit Unit Nat) :=
    .flag (.get ()) :: List.replicate 5 (.flag (.goGet ())) ++
      .called (.ok 7) :: .store :: .flag .notify :: List.replicate 7 (.flag .goNotify) ++ [.resume]
  have hrun : ((machine.restrict Apart).run State.construct as).map
      (fun s => (s.wf.notify, s.wf.wait (), s.wf.readyRo_, s.taken)) =
        some (.done, .suspended, [()], 1) := by
    decide +kernel
  rcases Option.map_eq_some_iff.mp hrun with ⟨s, hs, hat⟩
  simp only [Prod.mk.injEq] at hat
  rcases hat with ⟨hnotify, hwait, hready, htaken⟩
  rcases Machine.restrict_run_iff.mp hs with ⟨hs, halong⟩
  have hsettled : s.Settled := by
    refine ⟨⟨hnotify, fun _ => .inr (.inr hwait)⟩, fun _ hinline => ?_, ?_⟩
    · cases hwait.symm.trans hinline
    · rw [htaken, hready]
      rfl
  rcases (async_delivers as s hs).2.2 halong with ⟨hagain, hall⟩
  refine ⟨s, hsettled, hagain (), hall hsettled () ?_⟩
  rw [hwait]
  decide

end Async
end CoEpoll
