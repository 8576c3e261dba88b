import Mathlib.Data.List.Basic
import Mathlib.Logic.Function.Basic

/-!
# Machines with labelled atomic actions

A machine is a state type together with a partial step function: the action
label resolves every choice, so a run is determined by the list of its
actions.  Quantifying over action lists is quantifying over interleavings.

Main results:

- Theorem {lit}`Machine.Inductive.reachable`: a property that holds initially and
  survives every step holds in every reachable state.
- Theorem {lit}`Machine.exists_run_replicate`: repeating an action that decreases a measure comes to
  an end.
- Theorem {lit}`Machine.countP_le_of_measure`: how often a run does something is bounded by a measure
  that it uses up.
- Theorem {lit}`Machine.restrict_run_iff`: the runs of a restricted machine are the
  runs of the machine all of whose steps meet the restriction.
- Theorem {lit}`Machine.always_iff_along`: a property that exactly the good steps keep holds all
  along exactly the good runs.
- Theorem {lit}`Machine.observe_step_eq_some`: recording emitted events changes no step.
-/

namespace Transition

/-- A machine whose action label fixes the outcome of a step; {lit}`none` means
that the action is not enabled. -/
structure Machine (σ α : Type*) where
  init : σ → Prop
  step : σ → α → Option σ

namespace Machine

variable {σ α ε : Type*} {M : Machine σ α}

/-- Perform a list of actions in order. -/
def run (M : Machine σ α) : σ → List α → Option σ
  | s, [] => some s
  | s, a :: as => (M.step s a).bind fun s' => M.run s' as

/-- The states reached by some run from an initial state. -/
def Reachable (M : Machine σ α) (s : σ) : Prop :=
  ∃ s₀ as, M.init s₀ ∧ M.run s₀ as = some s

theorem run_cons (s : σ) (a : α) (as : List α) :
    M.run s (a :: as) = (M.step s a).bind fun s' => M.run s' as :=
  rfl

/-- A run of a nonempty action list splits at its first step. -/
theorem run_cons_eq_some {s s' : σ} {a : α} {as : List α} :
    M.run s (a :: as) = some s' ↔ ∃ t, M.step s a = some t ∧ M.run t as = some s' := by
  rw [run_cons, Option.bind_eq_some_iff]

/-- A run from a state in which no action is enabled is empty. -/
theorem run_of_stuck {s s' : σ} {as : List α} (hstuck : ∀ a, M.step s a = none)
    (hrun : M.run s as = some s') : as = [] ∧ s' = s := by
  cases as with
  | nil =>
      cases hrun
      exact ⟨rfl, rfl⟩
  | cons a as =>
      rcases run_cons_eq_some.mp hrun with ⟨t, hstep, _⟩
      cases (hstuck a).symm.trans hstep

/-- Runs compose along concatenation of their action lists. -/
theorem run_append (s : σ) (as bs : List α) :
    M.run s (as ++ bs) = (M.run s as).bind fun s' => M.run s' bs := by
  induction as generalizing s with
  | nil => rfl
  | cons a as ih =>
      rw [List.cons_append, run_cons, run_cons, Option.bind_assoc]
      cases M.step s a with
      | none => rfl
      | some t => exact ih t

/-! ## Inductive invariants -/

/-- A property established by every initial state and kept by every step. -/
structure Inductive (M : Machine σ α) (I : σ → Prop) : Prop where
  init : ∀ s, M.init s → I s
  step : ∀ s a s', I s → M.step s a = some s' → I s'

/-- A property kept by every step is kept by every run. -/
theorem run_keep {I : σ → Prop} {s s' : σ} {as : List α}
    (hstep : ∀ s a s', I s → M.step s a = some s' → I s') (hs : I s)
    (hrun : M.run s as = some s') : I s' := by
  induction as generalizing s with
  | nil =>
      cases hrun
      exact hs
  | cons a as ih =>
      rcases run_cons_eq_some.mp hrun with ⟨t, ht, hrest⟩
      exact ih (hstep s a t hs ht) hrest

/-- One run keeps an inductive property. -/
theorem Inductive.run {I : σ → Prop} (hI : M.Inductive I) {s s' : σ} {as : List α}
    (hs : I s) (hrun : M.run s as = some s') : I s' :=
  run_keep hI.step hs hrun

/-- An inductive property holds in every reachable state. -/
theorem Inductive.reachable {I : σ → Prop} (hI : M.Inductive I) {s : σ}
    (hs : M.Reachable s) : I s := by
  rcases hs with ⟨s₀, as, hinit, hrun⟩
  exact hI.run (hI.init s₀ hinit) hrun

/-- When an action is enabled until {lit}`D` holds and decreases a measure, repeating it comes to a state
with {lit}`D`. -/
theorem exists_run_replicate {I D : σ → Prop} (a : α) (μ : σ → Nat)
    (hstep : ∀ s, I s → ¬ D s → ∃ t, M.step s a = some t ∧ I t ∧ μ t < μ s) (s : σ) (hs : I s) :
    ∃ n t, M.run s (List.replicate n a) = some t ∧ D t := by
  induction hn : μ s using Nat.strongRecOn generalizing s with
  | ind m ih =>
      by_cases hdone : D s
      · exact ⟨0, s, rfl, hdone⟩
      · rcases hstep s hs hdone with ⟨t, ht, hIt, hlt⟩
        rcases ih (μ t) (hn ▸ hlt) t hIt rfl with ⟨n, u, hu, hD⟩
        refine ⟨n + 1, u, ?_, hD⟩
        rw [List.replicate_succ]
        exact run_cons_eq_some.mpr ⟨t, ht, hu⟩

/-- The actions of one kind in a run are no more than what they take off a measure that no step
increases. -/
theorem countP_le_of_measure {I : σ → Prop} (p : α → Bool) (μ : σ → Nat)
    (hstep : ∀ s a t, I s → M.step s a = some t → I t ∧ (if p a then 1 else 0) + μ t ≤ μ s)
    {s s' : σ} {as : List α} (hs : I s) (hrun : M.run s as = some s') :
    as.countP p + μ s' ≤ μ s := by
  induction as generalizing s with
  | nil =>
      cases hrun
      exact Nat.le_of_eq (Nat.zero_add _)
  | cons a as ih =>
      rcases run_cons_eq_some.mp hrun with ⟨t, ht, hrest⟩
      rcases hstep s a t hs ht with ⟨hIt, hle⟩
      have hrest := ih hIt hrest
      rw [List.countP_cons]
      omega

/-- What every action of one kind adds one to, and nothing else changes, counts these actions. -/
theorem countP_eq_of_measure (p : α → Bool) (μ : σ → Nat)
    (hstep : ∀ s a t, M.step s a = some t → μ t = (if p a then 1 else 0) + μ s)
    {s s' : σ} {as : List α} (hrun : M.run s as = some s') : μ s' = as.countP p + μ s := by
  induction as generalizing s with
  | nil =>
      cases hrun
      exact (Nat.zero_add _).symm
  | cons a as ih =>
      rcases run_cons_eq_some.mp hrun with ⟨t, ht, hrest⟩
      rw [ih hrest, hstep s a t ht, List.countP_cons]
      omega

/-- A run is not longer than a measure that every step decreases. -/
theorem length_le_of_measure {I : σ → Prop} (μ : σ → Nat)
    (hstep : ∀ s a t, I s → M.step s a = some t → I t ∧ μ t < μ s) {s s' : σ} {as : List α}
    (hs : I s) (hrun : M.run s as = some s') : as.length ≤ μ s := by
  have hcount := countP_le_of_measure (fun _ => true) μ
    (fun s a t hs ht => ⟨(hstep s a t hs ht).1, by rw [if_pos rfl, Nat.add_comm]; exact
      (hstep s a t hs ht).2⟩) hs hrun
  rw [List.countP_true] at hcount
  omega

/-! ## Restricting the steps of a machine -/

/-- Keep only the steps whose state and action meet {lit}`ok`. -/
def restrict (M : Machine σ α) (ok : σ → α → Prop) [∀ s a, Decidable (ok s a)] :
    Machine σ α where
  init := M.init
  step s a := if ok s a then M.step s a else none

/-- Every step of the run meets {lit}`ok` in the state in which it is taken. -/
def Along (M : Machine σ α) (ok : σ → α → Prop) : σ → List α → Prop
  | _, [] => True
  | s, a :: as => ok s a ∧ ∀ t, M.step s a = some t → M.Along ok t as

theorem along_cons {ok : σ → α → Prop} {s t : σ} {a : α} (ht : M.step s a = some t)
    (as : List α) : M.Along ok s (a :: as) ↔ ok s a ∧ M.Along ok t as := by
  refine and_congr_right fun _ => ⟨fun h => h t ht, fun h u hu => ?_⟩
  cases ht.symm.trans hu
  exact h

/-- A restriction that the actions meet in every state. -/
theorem along_of_forall {ok : σ → α → Prop} {as : List α} (h : ∀ a ∈ as, ∀ s, ok s a) (s : σ) :
    M.Along ok s as := by
  induction as generalizing s with
  | nil => trivial
  | cons a as ih =>
      refine ⟨h a List.mem_cons_self s, fun t _ => ?_⟩
      exact ih (fun b hb => h b (List.mem_cons_of_mem a hb)) t

/-- Two restrictions that a run meets. -/
theorem Along.and {ok ok' : σ → α → Prop} {s : σ} {as : List α} (h : M.Along ok s as)
    (h' : M.Along ok' s as) : M.Along (fun s a => ok s a ∧ ok' s a) s as := by
  induction as generalizing s with
  | nil => trivial
  | cons a as ih =>
      refine ⟨⟨h.1, h'.1⟩, fun t ht => ?_⟩
      exact ih (h.2 t ht) (h'.2 t ht)

/-- Restrictions that agree wherever an invariant holds admit the same runs. -/
theorem along_congr {ok ok' : σ → α → Prop} {I : σ → Prop} {s s' : σ} {as : List α}
    (hI : ∀ s a s', I s → M.step s a = some s' → I s') (hok : ∀ s a, I s → (ok s a ↔ ok' s a))
    (hs : I s) (hrun : M.run s as = some s') : M.Along ok s as ↔ M.Along ok' s as := by
  induction as generalizing s with
  | nil => exact Iff.rfl
  | cons a as ih =>
      rcases run_cons_eq_some.mp hrun with ⟨t, ht, hrest⟩
      rw [along_cons ht, along_cons ht]
      exact and_congr (hok s a hs) (ih (hI s a t hs ht) hrest)

/-- A property kept by every step that meets {lit}`ok` is kept by a run all of whose steps
do. -/
theorem Along.run {ok : σ → α → Prop} {I : σ → Prop} {s s' : σ} {as : List α}
    (hstep : ∀ s a s', I s → ok s a → M.step s a = some s' → I s') (hs : I s)
    (halong : M.Along ok s as) (hrun : M.run s as = some s') : I s' := by
  induction as generalizing s with
  | nil =>
      cases hrun
      exact hs
  | cons a as ih =>
      rcases run_cons_eq_some.mp hrun with ⟨t, ht, hrest⟩
      rcases (along_cons ht as).mp halong with ⟨hok, hrestok⟩
      exact ih (hstep s a t hs hok ht) hrestok hrest

/-- When a step that does not meet {lit}`ok` dooms the run, a run that is not doomed meets
{lit}`ok` all along. -/
theorem along_of_not_doomed {ok : σ → α → Prop} {I D : σ → Prop} {s s' : σ} {as : List α}
    (hI : ∀ s a s', I s → M.step s a = some s' → I s')
    (hbad : ∀ s a s', I s → ¬ ok s a → M.step s a = some s' → D s')
    (hD : ∀ s a s', I s → D s → M.step s a = some s' → D s') (hs : I s)
    (hrun : M.run s as = some s') (hgood : ¬ D s') : M.Along ok s as := by
  have hdoomed : ∀ (as : List α) (t : σ), I t → D t → M.run t as = some s' → D s' := by
    intro as t hIt hDt hrun
    have hboth : ∀ s a s', I s ∧ D s → M.step s a = some s' → I s' ∧ D s' := by
      rintro s a s' ⟨hIs, hDs⟩ hstep
      exact ⟨hI s a s' hIs hstep, hD s a s' hIs hDs hstep⟩
    exact (run_keep hboth ⟨hIt, hDt⟩ hrun).2
  induction as generalizing s with
  | nil => trivial
  | cons a as ih =>
      rcases run_cons_eq_some.mp hrun with ⟨t, ht, hrest⟩
      have hIt := hI s a t hs ht
      refine (along_cons ht as).mpr ⟨?_, ih hIt hrest⟩
      by_contra hnot
      exact hgood (hdoomed as t hIt (hbad s a t hs hnot ht) hrest)

/-- {lit}`P` holds in every state that the run comes through. -/
def Always (M : Machine σ α) (P : σ → Prop) : σ → List α → Prop
  | s, [] => P s
  | s, a :: as => P s ∧ ∀ t, M.step s a = some t → M.Always P t as

theorem always_cons {P : σ → Prop} {s t : σ} {a : α} (ht : M.step s a = some t) (as : List α) :
    M.Always P s (a :: as) ↔ P s ∧ M.Always P t as := by
  refine and_congr_right fun _ => ⟨fun h => h t ht, fun h u hu => ?_⟩
  cases ht.symm.trans hu
  exact h

theorem Always.head {P : σ → Prop} {s : σ} {as : List α} (h : M.Always P s as) : P s := by
  cases as with
  | nil => exact h
  | cons _ _ => exact h.1

/-- A property that survives every step into a state with {lit}`P` survives a run that keeps {lit}`P`. -/
theorem Always.run {P I : σ → Prop} {s s' : σ} {as : List α}
    (hstep : ∀ s a s', I s → M.step s a = some s' → P s' → I s') (hs : I s)
    (halways : M.Always P s as) (hrun : M.run s as = some s') : I s' := by
  induction as generalizing s with
  | nil =>
      cases hrun
      exact hs
  | cons a as ih =>
      rcases run_cons_eq_some.mp hrun with ⟨t, ht, hrest⟩
      have halways := ((always_cons ht as).mp halways).2
      exact ih (hstep s a t hs ht halways.head) halways hrest

/-- When exactly the steps that meet {lit}`ok` keep {lit}`P`, it holds all along exactly the runs whose
steps all do. -/
theorem always_iff_along {ok : σ → α → Prop} {I P : σ → Prop} {s s' : σ} {as : List α}
    (hI : ∀ s a s', I s → M.step s a = some s' → I s')
    (hP : ∀ s a s', I s → P s → M.step s a = some s' → (P s' ↔ ok s a)) (hs : I s) (hPs : P s)
    (hrun : M.run s as = some s') : M.Always P s as ↔ M.Along ok s as := by
  induction as generalizing s with
  | nil => exact ⟨fun _ => trivial, fun _ => hPs⟩
  | cons a as ih =>
      rcases run_cons_eq_some.mp hrun with ⟨t, ht, hrest⟩
      have hIt := hI s a t hs ht
      have hiff := hP s a t hs hPs ht
      rw [always_cons ht, along_cons ht]
      constructor
      · rintro ⟨_, halways⟩
        exact ⟨hiff.mp halways.head, (ih hIt halways.head hrest).mp halways⟩
      · rintro ⟨hok, halong⟩
        exact ⟨hPs, (ih hIt (hiff.mpr hok) hrest).mpr halong⟩

section Restrict

variable {ok : σ → α → Prop} [∀ s a, Decidable (ok s a)]

theorem restrict_step_eq_some {s s' : σ} {a : α} :
    (M.restrict ok).step s a = some s' ↔ ok s a ∧ M.step s a = some s' := by
  by_cases h : ok s a <;> simp [restrict, h]

/-- The runs of the restricted machine are the runs whose steps all meet the
restriction. -/
theorem restrict_run_iff {s s' : σ} {as : List α} :
    (M.restrict ok).run s as = some s' ↔ M.run s as = some s' ∧ M.Along ok s as := by
  induction as generalizing s with
  | nil => simp [run, Along]
  | cons a as ih =>
      rw [run_cons_eq_some, run_cons_eq_some]
      constructor
      · rintro ⟨t, hstep, hrest⟩
        rcases restrict_step_eq_some.mp hstep with ⟨hok, ht⟩
        rcases ih.mp hrest with ⟨hrun, halong⟩
        exact ⟨⟨t, ht, hrun⟩, (along_cons ht as).mpr ⟨hok, halong⟩⟩
      · rintro ⟨⟨t, ht, hrun⟩, halong⟩
        rcases (along_cons ht as).mp halong with ⟨hok, hrest⟩
        exact ⟨t, restrict_step_eq_some.mpr ⟨hok, ht⟩, ih.mpr ⟨hrun, hrest⟩⟩

end Restrict

/-! ## Mapping the states of a machine -/

/-- When every step of {lit}`M` is mapped to the step of {lit}`N` with the same action, so is every run. -/
theorem map_run {τ : Type*} {N : Machine τ α} {f : σ → τ}
    (hstep : ∀ s a, (M.step s a).map f = N.step (f s) a) (s : σ) (as : List α) :
    (M.run s as).map f = N.run (f s) as := by
  induction as generalizing s with
  | nil => rfl
  | cons a as ih =>
      rw [run_cons, run_cons, ← hstep]
      cases M.step s a with
      | none => rfl
      | some t => exact ih t

/-! ## Recording what the steps emit -/

/-- Carry along the list of events that the steps taken so far have emitted. -/
def observe (M : Machine σ α) (emit : σ → α → List ε) : Machine (σ × List ε) α where
  init s := M.init s.1 ∧ s.2 = []
  step s a := (M.step s.1 a).map fun s' => (s', s.2 ++ emit s.1 a)

section Observe

variable {emit : σ → α → List ε}

theorem observe_step_eq_some {s s' : σ × List ε} {a : α} :
    (M.observe emit).step s a = some s' ↔
      M.step s.1 a = some s'.1 ∧ s'.2 = s.2 ++ emit s.1 a := by
  rcases s' with ⟨t, es⟩
  simp only [observe, Option.map_eq_some_iff, Prod.mk.injEq]
  constructor
  · rintro ⟨t', ht, rfl, rfl⟩
    exact ⟨ht, rfl⟩
  · rintro ⟨ht, rfl⟩
    exact ⟨t, ht, rfl, rfl⟩

end Observe

end Machine

/-! ## Infinite runs -/

/-- A measure that no step from {lit}`N` on increases stays below its value there. -/
theorem measure_le (μ : Nat → Nat) {N n : Nat} (hle : ∀ n, N ≤ n → μ (n + 1) ≤ μ n) (hn : N ≤ n) :
    μ n ≤ μ N := by
  induction hn with
  | refl => exact Nat.le_refl _
  | step hk ih => exact Nat.le_trans (hle _ hk) ih

/-- A measure that no step from {lit}`N` on increases cannot be decreased again and again. -/
theorem eventually_not_of_measure {tick : Nat → Prop} (μ : Nat → Nat) (N : Nat)
    (hle : ∀ n, N ≤ n → μ (n + 1) ≤ μ n) (hlt : ∀ n, N ≤ n → tick n → μ (n + 1) < μ n) :
    ∃ M, ∀ n, M ≤ n → ¬ tick n := by
  induction hm : μ N using Nat.strongRecOn generalizing N with
  | ind m ih =>
      by_cases htick : ∃ n, N ≤ n ∧ tick n
      · rcases htick with ⟨n, hn, htick⟩
        have hbelow := measure_le μ hle hn
        exact ih (μ (n + 1)) (hm ▸ Nat.lt_of_lt_of_le (hlt n hn htick) hbelow) (n + 1)
          (fun k hk => hle k (by omega)) (fun k hk => hlt k (by omega)) rfl
      · exact ⟨N, fun n hn ht => htick ⟨n, hn, ht⟩⟩

/-! ## The parties of a machine -/

/-- What the party that moves keeps is kept for every party. -/
theorem update_keep {κ π γ : Type*} [DecidableEq κ] (g : π → γ) {f : κ → π} {k : κ} {x : π}
    (hx : g x = g (f k)) (j : κ) : g (Function.update f k x j) = g (f j) := by
  by_cases hj : j = k
  · subst hj
    rw [Function.update_self]
    exact hx
  · rw [Function.update_of_ne hj]

end Transition
