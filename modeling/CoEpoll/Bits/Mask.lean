import Mathlib.Tactic.TypeStar

/-!
# Bit masks

A machine word as a set of flags: which masks two words share, and what setting
and clearing a mask does to it.

Main results:

- Theorem {lit}`and_or_eq_zero`: a word misses a union when it misses both parts.
- Theorem {lit}`Within.diff`: clearing flags that a word does not have keeps it covered.
-/

namespace Mask

variable {w : Nat} {a b m : BitVec w}

/-- Every flag of {lit}`a` is a flag of {lit}`b`. -/
def Within (a b : BitVec w) : Prop :=
  a &&& b = a

instance : Decidable (Within a b) :=
  inferInstanceAs (Decidable (_ = _))

theorem and_eq_zero_iff :
    a &&& b = 0 ↔ ∀ i, i < w → a.getLsbD i = true → b.getLsbD i = false := by
  constructor
  · intro h i _ ha
    have hi := congrArg (fun v => v.getLsbD i) h
    simpa [ha] using hi
  · intro h
    refine BitVec.eq_of_getLsbD_eq fun i hi => ?_
    cases ha : a.getLsbD i with
    | false => simp [ha]
    | true => simp [h i hi ha]

theorem within_iff : Within a b ↔ ∀ i, i < w → a.getLsbD i = true → b.getLsbD i = true := by
  constructor
  · intro h i _ ha
    have hi := congrArg (fun v => v.getLsbD i) h
    simpa [ha] using hi
  · intro h
    refine BitVec.eq_of_getLsbD_eq fun i hi => ?_
    cases ha : a.getLsbD i with
    | false => simp [ha]
    | true => simp [ha, h i hi ha]

/-- A word misses a union when it misses both parts. -/
theorem and_or_eq_zero : a &&& (b ||| m) = 0 ↔ a &&& b = 0 ∧ a &&& m = 0 := by
  simp only [and_eq_zero_iff, BitVec.getLsbD_or, Bool.or_eq_false_iff]
  exact ⟨fun h => ⟨fun i hi ha => (h i hi ha).1, fun i hi ha => (h i hi ha).2⟩,
    fun h i hi ha => ⟨h.1 i hi ha, h.2 i hi ha⟩⟩

theorem Within.refl (a : BitVec w) : Within a a :=
  BitVec.and_self

theorem within_zero (a : BitVec w) : Within 0 a :=
  BitVec.zero_and

/-- Setting a word covers it. -/
theorem within_or_right (a b : BitVec w) : Within b (a ||| b) := by
  rw [within_iff]
  intro i _ hb
  simp [hb]

theorem Within.trans (hab : Within a b) (hbm : Within b m) : Within a m := by
  rw [within_iff] at *
  exact fun i hi ha => hbm i hi (hab i hi ha)

/-- A covered word misses what its cover misses. -/
theorem Within.and_eq_zero (hab : Within a b) (hb : b &&& m = 0) : a &&& m = 0 := by
  rw [within_iff] at hab
  rw [and_eq_zero_iff] at *
  exact fun i hi ha => hb i hi (hab i hi ha)

/-- What is left after clearing is what the mask does not have. -/
theorem getLsbD_diff {i : Nat} (hi : i < w) :
    (a &&& ~~~m).getLsbD i = true ↔ a.getLsbD i = true ∧ m.getLsbD i = false := by
  rw [BitVec.getLsbD_and, BitVec.getLsbD_not, Bool.and_eq_true]
  simp [hi]

/-- Clearing flags that a word does not have keeps it covered. -/
theorem Within.diff (hab : Within a b) (ha : a &&& m = 0) : Within a (b &&& ~~~m) := by
  rw [within_iff] at *
  rw [and_eq_zero_iff] at ha
  exact fun i hi hai => (getLsbD_diff hi).mpr ⟨hab i hi hai, ha i hi hai⟩

/-- Clearing flags leaves a covered word. -/
theorem within_diff (a m : BitVec w) : Within (a &&& ~~~m) a := by
  rw [within_iff]
  exact fun i hi h => ((getLsbD_diff hi).mp h).1

/-- A covered word is not greater. -/
theorem Within.toNat_le (hab : Within a b) : a.toNat ≤ b.toNat := by
  rw [← hab, BitVec.toNat_and]
  exact Nat.and_le_right

/-- Clearing a flag that a word has makes it smaller. -/
theorem toNat_diff_lt (h : a &&& m ≠ 0) : (a &&& ~~~m).toNat < a.toNat := by
  refine Nat.lt_of_le_of_ne (within_diff a m).toNat_le fun heq => h ?_
  have hsame : a &&& ~~~m = a := BitVec.eq_of_toNat_eq heq
  rw [and_eq_zero_iff]
  intro i hi ha
  rw [← hsame] at ha
  exact ((getLsbD_diff hi).mp ha).2

end Mask
