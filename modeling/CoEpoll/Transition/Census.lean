import CoEpoll.Transition.Machine
import Mathlib.Data.Fintype.Card

/-!
# Counting the parties of a machine

The census of a property is the number of parties that have it.  One party that
gains or loses the property changes the census by one.
-/

namespace Transition

variable {κ π : Type*} [Fintype κ]

/-- How many parties have the property {lit}`p`. -/
def census (p : κ → Bool) : ℕ :=
  (Finset.univ.filter fun k => p k = true).card

/-- Nobody is counted exactly when nobody has the property. -/
theorem census_eq_zero {p : κ → Bool} : census p = 0 ↔ ∀ k, p k = false := by
  simp [census, Finset.filter_eq_empty_iff]

/-- Somebody is counted exactly when somebody has the property. -/
theorem census_pos {p : κ → Bool} : 0 < census p ↔ ∃ k, p k = true := by
  simp [census, Finset.card_pos, Finset.Nonempty]

/-- The census is at most the number of parties. -/
theorem census_le (p : κ → Bool) : census p ≤ Fintype.card κ :=
  Finset.card_le_univ _

variable [DecidableEq κ]

/-- A party that keeps the property keeps the census. -/
theorem census_keep {g : π → Bool} {f : κ → π} {k : κ} {x : π} (hx : g x = g (f k)) :
    census (fun j => g (Function.update f k x j)) = census fun j => g (f j) := by
  congr 1
  exact funext (update_keep g hx)

/-- A party that gains the property. -/
theorem census_gain {g : π → Bool} {f : κ → π} {k : κ} {x : π} (hk : g (f k) = false)
    (hx : g x = true) :
    census (fun j => g (Function.update f k x j)) = (census fun j => g (f j)) + 1 := by
  have hset : (Finset.univ.filter fun j => g (Function.update f k x j) = true) =
      insert k (Finset.univ.filter fun j => g (f j) = true) := by
    ext j
    by_cases hj : j = k
    · subst j
      simp [hx]
    · simp [hj]
  unfold census
  rw [hset, Finset.card_insert_of_notMem (by simp [hk])]

/-- A party that loses the property. -/
theorem census_lose {g : π → Bool} {f : κ → π} {k : κ} {x : π} (hk : g (f k) = true)
    (hx : g x = false) :
    census (fun j => g (f j)) = (census fun j => g (Function.update f k x j)) + 1 := by
  have hgain := census_gain (g := g) (f := Function.update f k x) (k := k) (x := f k)
    (by simpa using hx) hk
  rwa [Function.update_idem, Function.update_eq_self] at hgain

/-- One party moves, and the census changes by what this party counts. -/
theorem census_update (g : π → Bool) (f : κ → π) (k : κ) (x : π) :
    census (fun j => g (Function.update f k x j)) + (g (f k)).toNat =
      census (fun j => g (f j)) + (g x).toNat := by
  cases hk : g (f k) with
  | false =>
      cases hx : g x with
      | false => rw [census_keep (hx.trans hk.symm)]
      | true =>
          rw [census_gain hk hx]
          rfl
  | true =>
      cases hx : g x with
      | false =>
          rw [census_lose hk hx]
          rfl
      | true => rw [census_keep (hx.trans hk.symm)]

end Transition
