import Mathlib.Data.List.Basic
import Mathlib.Logic.Relation

/-!
# Code that calls, waits and spawns, in direct style

The code is a function from local states to what is done next.  A call runs the callee to its end
and goes on with its outcome; a wait is answered from outside.  The evaluation gives the code its
meaning as nested calls, the stack machine runs it with an explicit list of suspended callers.

Main results:

- Theorem {lit}`steps_iff_evals`: the stack machine comes to an end with an outcome exactly when the
  code evaluates to it.
- Theorem {lit}`Evals.unique`: the answers determine the events and the outcome.
-/

namespace Direct

/-- What the code does next: {lit}`σ` are its local states, {lit}`T` is what it can ask for, {lit}`V` and {lit}`E` are the
values and the errors it ends with, {lit}`X` and {lit}`R` what it waits for and the answers. -/
inductive Op (σ T V E X R : Type*) where
  | done (o : Except E V)
  /-- Call {lit}`callee`, and go on with what it ends with. -/
  | call (callee : σ) (k : Except E V → σ)
  /-- Wait for {lit}`x`, and go on with the answer. -/
  | wait (x : X) (k : R → σ)
  /-- Ask for the value that is the same everywhere in one evaluation. -/
  | ask (k : T → σ)
  /-- Have {lit}`body` evaluated elsewhere. -/
  | spawn (body : σ) (k : σ)

/-- What an evaluation does that can be seen from outside. -/
inductive Event (σ X R : Type*) where
  | answered (x : X) (r : R)
  | spawned (body : σ)

variable {σ T V E X R : Type*}

/-- The answers among the events. -/
def answers : List (Event σ X R) → List R
  | [] => []
  | .answered _ r :: es => r :: answers es
  | .spawned _ :: es => answers es

@[simp] theorem answers_nil : answers ([] : List (Event σ X R)) = [] := rfl

@[simp] theorem answers_answered (x : X) (r : R) (es : List (Event σ X R)) :
    answers (.answered x r :: es) = r :: answers es := rfl

@[simp] theorem answers_spawned (b : σ) (es : List (Event σ X R)) :
    answers (.spawned b :: es) = answers es := rfl

@[simp] theorem answers_append (es fs : List (Event σ X R)) :
    answers (es ++ fs) = answers es ++ answers fs := by
  induction es with
  | nil => rfl
  | cons e es ih => cases e <;> simp [ih]

variable (code : σ → Op σ T V E X R) (t : T)

/-! ## Evaluation -/

/-- {lit}`Evals code t s es o`: from {lit}`s`, the code ends with {lit}`o` after the events {lit}`es`. -/
inductive Evals : σ → List (Event σ X R) → Except E V → Prop
  | done {s o} (hs : code s = .done o) : Evals s [] o
  | call {s callee k es₁ o₁ es₂ o} (hs : code s = .call callee k) (hcallee : Evals callee es₁ o₁)
      (hk : Evals (k o₁) es₂ o) : Evals s (es₁ ++ es₂) o
  | wait {s x k r es o} (hs : code s = .wait x k) (hk : Evals (k r) es o) :
      Evals s (.answered x r :: es) o
  | ask {s k es o} (hs : code s = .ask k) (hk : Evals (k t) es o) : Evals s es o
  | spawn {s b s' es o} (hs : code s = .spawn b s') (hk : Evals s' es o) :
      Evals s (.spawned b :: es) o

/-! ## The stack machine -/

/-- The stack machine is in a local state, above the callers that wait for its outcome, innermost
first, or it has come to an end. -/
inductive Config (σ V E : Type*) where
  | inside (s : σ) (callers : List (Except E V → σ))
  | ended (o : Except E V)

/-- One step of the stack machine and the events it shows. -/
inductive Step : Config σ V E → List (Event σ X R) → Config σ V E → Prop
  | call {s callee k ks} (hs : code s = .call callee k) :
      Step (.inside s ks) [] (.inside callee (k :: ks))
  | back {s o k ks} (hs : code s = .done o) : Step (.inside s (k :: ks)) [] (.inside (k o) ks)
  | ended {s o} (hs : code s = .done o) : Step (.inside s []) [] (.ended o)
  | wait {s x k ks} (r : R) (hs : code s = .wait x k) :
      Step (.inside s ks) [.answered x r] (.inside (k r) ks)
  | ask {s k ks} (hs : code s = .ask k) : Step (.inside s ks) [] (.inside (k t) ks)
  | spawn {s b s' ks} (hs : code s = .spawn b s') :
      Step (.inside s ks) [.spawned b] (.inside s' ks)

/-- Steps in a row. -/
inductive Steps : Config σ V E → List (Event σ X R) → Config σ V E → Prop
  | refl (c) : Steps c [] c
  | tail {c es d fs e} (hinit : Steps c es d) (hlast : Step code t d fs e) : Steps c (es ++ fs) e

variable {code t}

theorem Step.steps {c d : Config σ V E} {es : List (Event σ X R)} (h : Step code t c es d) :
    Steps code t c es d :=
  List.nil_append es ▸ Steps.tail (.refl c) h

theorem Steps.trans {c d e : Config σ V E} {es fs : List (Event σ X R)}
    (h₁ : Steps code t c es d) (h₂ : Steps code t d fs e) : Steps code t c (es ++ fs) e := by
  induction h₂ with
  | refl => simpa using h₁
  | tail _ hlast ih =>
      rw [← List.append_assoc]
      exact ih.tail hlast

/-! ## An evaluation runs on the stack machine -/

/-- Where the stack machine goes on after an outcome. -/
def back (o : Except E V) : List (Except E V → σ) → Config σ V E
  | [] => .ended o
  | k :: ks => .inside (k o) ks

theorem step_back {s : σ} {o : Except E V} (hs : code s = .done o) (ks : List (Except E V → σ)) :
    Step code t (.inside s ks) [] (back o ks) := by
  cases ks with
  | nil => exact .ended hs
  | cons k ks => exact .back hs

/-- What is evaluated above a stack of callers comes back to it. -/
theorem Evals.steps {s : σ} {es : List (Event σ X R)} {o : Except E V} (h : Evals code t s es o)
    (ks : List (Except E V → σ)) : Steps code t (.inside s ks) es (back o ks) := by
  induction h generalizing ks with
  | done hs => exact (step_back hs ks).steps
  | call hs _ _ ih₁ ih₂ => exact ((Step.call hs).steps.trans (ih₁ _)).trans (ih₂ ks)
  | wait hs _ ih => exact (Step.wait _ hs).steps.trans (ih ks)
  | ask hs _ ih => exact (Step.ask hs).steps.trans (ih ks)
  | spawn hs _ ih => exact (Step.spawn hs).steps.trans (ih ks)

/-! ## A run of the stack machine is an evaluation -/

/-- The callers make {lit}`o'` of the outcome {lit}`o`. -/
inductive Unwinds (code : σ → Op σ T V E X R) (t : T) :
    Except E V → List (Except E V → σ) → List (Event σ X R) → Except E V → Prop
  | nil (o) : Unwinds code t o [] [] o
  | cons {o k ks es o₁ fs o'} (hk : Evals code t (k o) es o₁) (hks : Unwinds code t o₁ ks fs o') :
      Unwinds code t o (k :: ks) (es ++ fs) o'

/-- From the configuration, the code ends with {lit}`o` after the events {lit}`es`. -/
inductive Ends (code : σ → Op σ T V E X R) (t : T) :
    Config σ V E → List (Event σ X R) → Except E V → Prop
  | inside {s ks es o fs o'} (hs : Evals code t s es o) (hks : Unwinds code t o ks fs o') :
      Ends code t (.inside s ks) (es ++ fs) o'
  | ended (o) : Ends code t (.ended o) [] o

/-- A step in front of an evaluation belongs to it. -/
theorem Step.ends {c d : Config σ V E} {es fs : List (Event σ X R)} {o : Except E V}
    (hstep : Step code t c es d) (hends : Ends code t d fs o) : Ends code t c (es ++ fs) o := by
  cases hstep with
  | call hs =>
      cases hends with
      | inside hcallee hks =>
          cases hks with
          | cons hk hks =>
              rw [List.nil_append, ← List.append_assoc]
              exact .inside (.call hs hcallee hk) hks
  | back hs =>
      cases hends with
      | inside hk hks => exact .inside (.done hs) (.cons hk hks)
  | ended hs =>
      cases hends with
      | ended => exact .inside (.done hs) (.nil _)
  | wait r hs =>
      cases hends with
      | inside hk hks =>
          have hends := Ends.inside (Evals.wait hs hk) hks
          exact hends
  | ask hs =>
      cases hends with
      | inside hk hks =>
          have hends := Ends.inside (Evals.ask hs hk) hks
          exact hends
  | spawn hs =>
      cases hends with
      | inside hk hks =>
          have hends := Ends.inside (Evals.spawn hs hk) hks
          exact hends

theorem Steps.ends {c d : Config σ V E} {es fs : List (Event σ X R)} {o : Except E V}
    (hsteps : Steps code t c es d) (hends : Ends code t d fs o) : Ends code t c (es ++ fs) o := by
  induction hsteps generalizing fs with
  | refl => exact hends
  | tail _ hlast ih =>
      rw [List.append_assoc]
      exact ih (hlast.ends hends)

/-- The stack machine comes to an end with {lit}`o` exactly when the code evaluates to it. -/
theorem steps_iff_evals {s : σ} {es : List (Event σ X R)} {o : Except E V} :
    Steps code t (.inside s []) es (.ended o) ↔ Evals code t s es o := by
  constructor
  · intro h
    have hends := h.ends (.ended o)
    rw [List.append_nil] at hends
    cases hends with
    | inside hs hks =>
        cases hks
        rw [List.append_nil]
        exact hs
  · intro h
    exact h.steps []

/-! ## The answers determine the evaluation -/

/-- Two evaluations that are given the same answers, whatever is left of these, show the same events
and end with the same outcome. -/
theorem Evals.unique_of_append {s : σ} {es fs : List (Event σ X R)} {o o' : Except E V}
    (h : Evals code t s es o) (h' : Evals code t s fs o') {u w : List R}
    (hanswers : answers es ++ u = answers fs ++ w) : es = fs ∧ o = o' := by
  induction h generalizing fs o' u w with
  | done hs =>
      cases h' with
      | done hs' =>
          cases hs.symm.trans hs'
          exact ⟨rfl, rfl⟩
      | call hs' _ _ | wait hs' _ | ask hs' _ | spawn hs' _ => cases hs.symm.trans hs'
  | call hs _ _ ih₁ ih₂ =>
      cases h' with
      | call hs' hcallee' hk' =>
          cases hs.symm.trans hs'
          rw [answers_append, answers_append, List.append_assoc, List.append_assoc] at hanswers
          rcases ih₁ hcallee' hanswers with ⟨rfl, rfl⟩
          rcases ih₂ hk' (List.append_cancel_left hanswers) with ⟨rfl, rfl⟩
          exact ⟨rfl, rfl⟩
      | done hs' | wait hs' _ | ask hs' _ | spawn hs' _ => cases hs.symm.trans hs'
  | wait hs _ ih =>
      cases h' with
      | wait hs' hk' =>
          cases hs.symm.trans hs'
          rw [answers_answered, answers_answered, List.cons_append, List.cons_append,
            List.cons.injEq] at hanswers
          rcases hanswers with ⟨rfl, hrest⟩
          rcases ih hk' hrest with ⟨rfl, rfl⟩
          exact ⟨rfl, rfl⟩
      | done hs' | call hs' _ _ | ask hs' _ | spawn hs' _ => cases hs.symm.trans hs'
  | ask hs _ ih =>
      cases h' with
      | ask hs' hk' =>
          cases hs.symm.trans hs'
          exact ih hk' hanswers
      | done hs' | call hs' _ _ | wait hs' _ | spawn hs' _ => cases hs.symm.trans hs'
  | spawn hs _ ih =>
      cases h' with
      | spawn hs' hk' =>
          cases hs.symm.trans hs'
          rcases ih hk' hanswers with ⟨rfl, rfl⟩
          exact ⟨rfl, rfl⟩
      | done hs' | call hs' _ _ | wait hs' _ | ask hs' _ => cases hs.symm.trans hs'

/-- The answers determine the events and the outcome. -/
theorem Evals.unique {s : σ} {es fs : List (Event σ X R)} {o o' : Except E V}
    (h : Evals code t s es o) (h' : Evals code t s fs o') (hanswers : answers es = answers fs) :
    es = fs ∧ o = o' :=
  h.unique_of_append h' (u := []) (w := []) (by simp [hanswers])

end Direct
