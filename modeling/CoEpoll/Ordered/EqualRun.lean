import Mathlib.Data.List.Pairwise
import Mathlib.Data.List.Nodup
import Mathlib.Logic.Function.Basic
import Mathlib.Order.Defs.PartialOrder

/-!
# Lists sorted by a key that changes

An entry of a sorted list may be exchanged with any entry of the same key.  At
the end of its run of equal keys its key may grow up to the next key, at the
start of the run it may shrink down to the previous one; the list stays sorted.

Main results:

- Theorem {lit}`SortedBy.exchange`: exchanging two entries of equal keys.
- Theorem {lit}`SortedBy.update`: changing one key within its two neighbours.
-/

namespace Ordered

variable {α β : Type*} {l : List α} {f : α → β} {a b : α} {i j : ℕ}

/-- The keys do not decrease along the list. -/
def SortedBy [LE β] (f : α → β) (l : List α) : Prop :=
  l.Pairwise fun a b => f a ≤ f b

/-- Keys at ordered positions are ordered. -/
theorem SortedBy.le [Preorder β] (h : SortedBy f l) (hij : i ≤ j) (hi : l[i]? = some a)
    (hj : l[j]? = some b) : f a ≤ f b := by
  rcases List.getElem?_eq_some_iff.mp hi with ⟨hil, rfl⟩
  rcases List.getElem?_eq_some_iff.mp hj with ⟨hjl, rfl⟩
  rcases Nat.eq_or_lt_of_le hij with rfl | hlt
  · exact le_rfl
  · exact List.pairwise_iff_getElem.mp h i j hil hjl hlt

/-- A list is sorted when keys at ordered positions are. -/
theorem sortedBy_of_le [LE β]
    (h : ∀ (i j : ℕ) (a b : α), i < j → l[i]? = some a → l[j]? = some b → f a ≤ f b) :
    SortedBy f l :=
  List.pairwise_iff_getElem.mpr fun i j hi hj hij =>
    h i j l[i] l[j] hij (List.getElem?_eq_getElem hi) (List.getElem?_eq_getElem hj)

/-- Without repetitions an entry stands at one position. -/
theorem position_unique (hnodup : l.Nodup) (hi : l[i]? = some a) (hj : l[j]? = some a) :
    i = j := by
  rcases List.getElem?_eq_some_iff.mp hi with ⟨hil, _⟩
  exact (List.getElem?_inj hil hnodup).mp (hi.trans hj.symm)

/-- Entry by entry, an exchange of two positions. -/
theorem getElem?_exchange (hi : l[i]? = some a) (hj : l[j]? = some b) (k : ℕ) :
    ((l.set i b).set j a)[k]? =
      if k = j then some a else if k = i then some b else l[k]? := by
  rcases List.getElem?_eq_some_iff.mp hi with ⟨hil, _⟩
  rcases List.getElem?_eq_some_iff.mp hj with ⟨hjl, _⟩
  by_cases hkj : k = j
  · subst k
    simp [hjl]
  · by_cases hki : k = i
    · subst k
      simp [hil, hkj, Ne.symm hkj]
    · simp [hkj, hki, Ne.symm hkj, Ne.symm hki]

/-- An exchange of two positions is a permutation. -/
theorem perm_exchange (hi : l[i]? = some a) (hj : l[j]? = some b) :
    ((l.set i b).set j a).Perm l := by
  rcases List.getElem?_eq_some_iff.mp hi with ⟨hil, rfl⟩
  rcases List.getElem?_eq_some_iff.mp hj with ⟨hjl, rfl⟩
  exact List.set_set_perm hil hjl

/-- Exchanging two entries of equal keys keeps the list sorted. -/
theorem SortedBy.exchange [Preorder β] (h : SortedBy f l) (hi : l[i]? = some a)
    (hj : l[j]? = some b) (hab : f a = f b) : SortedBy f ((l.set i b).set j a) := by
  -- the list of the keys does not change
  have hkeys : ∀ k : ℕ, (((l.set i b).set j a)[k]?).map f = (l[k]?).map f := by
    intro k
    rw [getElem?_exchange hi hj]
    by_cases hkj : k = j
    · subst k
      simp [hj, hab]
    · by_cases hki : k = i
      · subst k
        simp [hkj, hi, hab]
      · simp [hkj, hki]
  refine sortedBy_of_le fun p q c d hpq hc hd => ?_
  have hc' := hkeys p
  have hd' := hkeys q
  rw [hc, Option.map_some] at hc'
  rw [hd, Option.map_some] at hd'
  rcases Option.map_eq_some_iff.mp hc'.symm with ⟨x, hx, hxc⟩
  rcases Option.map_eq_some_iff.mp hd'.symm with ⟨y, hy, hyd⟩
  rw [← hxc, ← hyd]
  exact h.le (Nat.le_of_lt hpq) hx hy

/-- A key may change as long as it stays between the keys around it. -/
theorem SortedBy.update [DecidableEq α] [Preorder β] {v : β} (h : SortedBy f l)
    (hnodup : l.Nodup) (hi : l[i]? = some a)
    (hbefore : ∀ (k : ℕ) (c : α), k < i → l[k]? = some c → f c ≤ v)
    (hafter : ∀ (k : ℕ) (c : α), i < k → l[k]? = some c → v ≤ f c) :
    SortedBy (Function.update f a v) l := by
  have hpos : ∀ {k : ℕ} {c : α}, l[k]? = some c → (c = a ↔ k = i) := by
    intro k c hk
    constructor
    · rintro rfl
      exact position_unique hnodup hk hi
    · rintro rfl
      exact Option.some.inj (hk.symm.trans hi)
  refine sortedBy_of_le fun p q c d hpq hc hd => ?_
  by_cases hp : p = i
  · have hq : d ≠ a := fun hda => by
      have := (hpos hd).mp hda
      omega
    rw [(hpos hc).mpr hp, Function.update_self, Function.update_of_ne hq]
    exact hafter q d (hp ▸ hpq) hd
  · have hca : c ≠ a := fun hca => hp ((hpos hc).mp hca)
    rw [Function.update_of_ne hca]
    by_cases hq : q = i
    · rw [(hpos hd).mpr hq, Function.update_self]
      exact hbefore p c (hq ▸ hpq) hc
    · have hda : d ≠ a := fun hda => hq ((hpos hd).mp hda)
      rw [Function.update_of_ne hda]
      exact h.le (Nat.le_of_lt hpq) hc hd

end Ordered
