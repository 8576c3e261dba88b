import Mathlib.Algebra.BigOperators.Group.Finset.Basic
import Mathlib.Algebra.Order.Group.Multiset

/-!
# Tallies of what the parties of a machine hold

Each party of a machine holds at most one value at a time, and only finitely
many parties hold one.  A tally is the multiset of the values held.  Changing
one party changes the tally by that party's old and new value.
-/

namespace Transition

variable {τ V : Type*}

/-- The multiset of an optional value. -/
def heldBy : Option V → Multiset V
  | none => 0
  | some v => {v}

@[simp]
theorem heldBy_none : heldBy (none : Option V) = 0 :=
  rfl

@[simp]
theorem heldBy_some (v : V) : heldBy (some v) = {v} :=
  rfl

/-- {lit}`m` is the multiset of the values that the parties hold under {lit}`f`. -/
def Tally (f : τ → Option V) (m : Multiset V) : Prop :=
  ∃ P : Finset τ, (∀ t, f t ≠ none → t ∈ P) ∧ m = ∑ t ∈ P, heldBy (f t)

/-- Nobody holds anything. -/
theorem Tally.empty {f : τ → Option V} (hf : ∀ t, f t = none) : Tally f 0 :=
  ⟨∅, fun t ht => (ht (hf t)).elim, by simp⟩

/-- When nobody holds anything the tally is empty. -/
theorem Tally.eq_zero {f : τ → Option V} {m : Multiset V} (h : Tally f m)
    (hf : ∀ t, f t = none) : m = 0 := by
  rcases h with ⟨P, _, rfl⟩
  exact Finset.sum_eq_zero fun t _ => by rw [hf t, heldBy_none]

variable [DecidableEq τ]

/-- Changing what one party holds exchanges its value in the tally. -/
theorem Tally.update {f : τ → Option V} {m : Multiset V} (h : Tally f m) (t : τ)
    (x : Option V) :
    ∃ r, m = heldBy (f t) + r ∧ Tally (Function.update f t x) (heldBy x + r) := by
  rcases h with ⟨P, hP, rfl⟩
  have hold : ∑ u ∈ insert t P, heldBy (f u) = ∑ u ∈ P, heldBy (f u) := by
    refine Finset.sum_insert_of_eq_zero_if_notMem fun ht => ?_
    by_contra hne
    exact ht (hP t fun hnone => hne (by rw [hnone, heldBy_none]))
  have ht : t ∉ P.erase t := Finset.notMem_erase t P
  have hsplit : insert t (P.erase t) = insert t P := by
    ext u
    by_cases hut : u = t <;> simp [hut]
  refine ⟨∑ u ∈ P.erase t, heldBy (f u), ?_, insert t (P.erase t), ?_, ?_⟩
  · rw [← hold, ← hsplit, Finset.sum_insert ht]
  · intro u hu
    by_cases hut : u = t
    · simp [hut]
    · rw [Function.update_of_ne hut] at hu
      simp [hut, hP u hu]
  · rw [Finset.sum_insert ht, Function.update_self]
    congr 1
    refine Finset.sum_congr rfl fun u hu => ?_
    rw [Function.update_of_ne (Finset.ne_of_mem_erase hu)]

/-- A party that held nothing takes a value. -/
theorem Tally.add {f : τ → Option V} {m : Multiset V} (h : Tally f m) {t : τ}
    (ht : f t = none) (v : V) : Tally (Function.update f t (some v)) ({v} + m) := by
  rcases h.update t (some v) with ⟨r, hm, hr⟩
  rw [ht, heldBy_none, zero_add] at hm
  rw [hm]
  exact hr

/-- A party gives up the value it held. -/
theorem Tally.remove {f : τ → Option V} {m : Multiset V} (h : Tally f m) {t : τ} {v : V}
    (ht : f t = some v) : ∃ r, m = {v} + r ∧ Tally (Function.update f t none) r := by
  rcases h.update t none with ⟨r, hm, hr⟩
  rw [heldBy_none, zero_add] at hr
  exact ⟨r, by rw [hm, ht, heldBy_some], hr⟩

/-- A party that keeps its value keeps the tally. -/
theorem Tally.keep {f : τ → Option V} {m : Multiset V} (h : Tally f m) {t : τ}
    {x : Option V} (ht : f t = x) : Tally (Function.update f t x) m := by
  rw [← ht, Function.update_eq_self]
  exact h

end Transition
