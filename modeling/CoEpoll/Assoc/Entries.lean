import Mathlib.Data.List.Nodup
import Mathlib.Data.List.Perm.Basic

/-!
# Association lists with distinct keys

A list of entries with distinct keys as a model of a hash map, as far as the
order of its entries does not matter.

Main results:

- Theorem {lit}`Keyed.find_eq_some_iff`: with distinct keys the entries are what is found.
- Theorem {lit}`Keyed.perm_erase`: erasing a key removes its one entry.
- Theorem {lit}`Keyed.mem_values_erase`: with distinct values this drops one value.
- Theorem {lit}`find_modify`, {lit}`find_erase`: both touch one key only.
-/

namespace Assoc

variable {κ β : Type*} [DecidableEq κ] {l : List (κ × β)} {k : κ} {b : β}

/-- The value of a key. -/
def find (l : List (κ × β)) (k : κ) : Option β :=
  (l.find? fun e => e.1 = k).map Prod.snd

/-- Remove the entry of a key. -/
def erase (l : List (κ × β)) (k : κ) : List (κ × β) :=
  l.filter fun e => e.1 ≠ k

/-- Change the value of a key. -/
def modify (l : List (κ × β)) (k : κ) (g : β → β) : List (κ × β) :=
  l.map fun e => if e.1 = k then (e.1, g e.2) else e

/-- No two entries have the same key. -/
def Keyed (l : List (κ × β)) : Prop :=
  (l.map Prod.fst).Nodup

theorem find_eq_none : find l k = none ↔ k ∉ l.map Prod.fst := by
  simp only [find, Option.map_eq_none_iff, List.find?_eq_none, decide_eq_true_eq, List.mem_map,
    not_exists, not_and]

theorem mem_of_find (h : find l k = some b) : (k, b) ∈ l := by
  rcases Option.map_eq_some_iff.mp h with ⟨⟨k', b'⟩, hfind, rfl⟩
  have hmem := List.mem_of_find?_eq_some hfind
  have hkey : k' = k := by simpa using List.find?_some hfind
  exact hkey ▸ hmem

theorem find_cons (e : κ × β) (l : List (κ × β)) (k : κ) :
    find (e :: l) k = if e.1 = k then some e.2 else find l k := by
  by_cases h : e.1 = k <;> simp [find, h]

/-- Changing a value changes what is found for its key only. -/
theorem find_modify (l : List (κ × β)) (k k' : κ) (g : β → β) :
    find (modify l k g) k' = if k' = k then (find l k').map g else find l k' := by
  induction l with
  | nil => simp [modify, find]
  | cons e l ih =>
      rw [modify, List.map_cons, ← modify]
      simp only [find_cons, ih]
      split_ifs <;> simp_all

/-- Erasing a key keeps what is found for the others. -/
theorem find_erase (l : List (κ × β)) (k k' : κ) :
    find (erase l k) k' = if k' = k then none else find l k' := by
  induction l with
  | nil => simp [erase, find]
  | cons e l ih =>
      by_cases h : e.1 = k
      · rw [erase, List.filter_cons_of_neg (by simp [h]), ← erase, ih, find_cons]
        split_ifs <;> simp_all
      · rw [erase, List.filter_cons_of_pos (by simp [h]), ← erase, find_cons, find_cons, ih]
        split_ifs <;> simp_all

/-- A new key keeps the keys distinct. -/
theorem Keyed.cons (h : Keyed l) (hk : find l k = none) : Keyed ((k, b) :: l) :=
  List.nodup_cons.mpr ⟨find_eq_none.mp hk, h⟩

theorem Keyed.erase (h : Keyed l) (k : κ) : Keyed (erase l k) :=
  (List.filter_sublist.map Prod.fst).nodup h

/-- Changing a value keeps the keys. -/
theorem map_fst_modify (l : List (κ × β)) (k : κ) (g : β → β) :
    (modify l k g).map Prod.fst = l.map Prod.fst := by
  simp only [modify, List.map_map]
  refine List.map_congr_left fun e _ => ?_
  simp only [Function.comp_apply]
  split <;> rfl

theorem Keyed.modify (h : Keyed l) (k : κ) (g : β → β) : Keyed (modify l k g) := by
  unfold Keyed
  rw [map_fst_modify]
  exact h

/-- With distinct keys the entries are what is found. -/
theorem Keyed.find_eq_some_iff (h : Keyed l) : find l k = some b ↔ (k, b) ∈ l := by
  refine ⟨mem_of_find, fun hmem => ?_⟩
  induction l with
  | nil => cases hmem
  | cons e l ih =>
      rcases List.nodup_cons.mp h with ⟨hnew, hrest⟩
      rw [find_cons]
      rcases List.mem_cons.mp hmem with rfl | hmem
      · exact if_pos rfl
      · rw [if_neg]
        · exact ih hrest hmem
        · rintro rfl
          exact hnew (List.mem_map.mpr ⟨_, hmem, rfl⟩)

/-- Changing a value changes nothing exactly when the new value is the old one. -/
theorem Keyed.modify_eq_self_iff (h : Keyed l) (hfind : find l k = some b) (g : β → β) :
    Assoc.modify l k g = l ↔ g b = b := by
  constructor
  · intro hsame
    have hfound := find_modify l k k g
    rw [hsame, if_pos rfl, hfind] at hfound
    exact (Option.some.inj hfound).symm
  · intro hg
    refine (List.map_congr_left ?_).trans (List.map_id l)
    rintro ⟨k', b'⟩ he
    rw [id_eq]
    split
    · rename_i hk
      dsimp only at hk
      subst hk
      have hb : b = b' := Option.some.inj (hfind.symm.trans (h.find_eq_some_iff.mpr he))
      rw [← hb, hg]
    · rfl

/-- Erasing a key removes its one entry. -/
theorem Keyed.perm_erase (h : Keyed l) (hmem : (k, b) ∈ l) :
    l.Perm ((k, b) :: Assoc.erase l k) := by
  induction l with
  | nil => cases hmem
  | cons e l ih =>
      rcases List.nodup_cons.mp h with ⟨hnew, hrest⟩
      rcases List.mem_cons.mp hmem with rfl | hmem'
      · have hkeep : Assoc.erase l k = l := by
          refine List.filter_eq_self.mpr fun e he => ?_
          simp only [ne_eq, decide_eq_true_eq]
          exact fun hek => hnew (List.mem_map.mpr ⟨e, he, hek⟩)
        have hdrop : Assoc.erase ((k, b) :: l) k = Assoc.erase l k :=
          List.filter_cons_of_neg (by simp)
        rw [hdrop, hkeep]
      · have hne : e.1 ≠ k := fun hek => hnew (List.mem_map.mpr ⟨(k, b), hmem', hek.symm⟩)
        have hkeep : Assoc.erase (e :: l) k = e :: Assoc.erase l k :=
          List.filter_cons_of_pos (by simpa using hne)
        rw [hkeep]
        exact ((ih hrest hmem').cons e).trans (List.Perm.swap _ _ _)

/-- Erasing a key drops its value and no other one. -/
theorem Keyed.mem_values_erase (h : Keyed l) (hvalues : (l.map Prod.snd).Nodup)
    (hfind : find l k = some b) {b' : β} :
    b' ∈ (Assoc.erase l k).map Prod.snd ↔ b' ∈ l.map Prod.snd ∧ b' ≠ b := by
  have hperm := (h.perm_erase (mem_of_find hfind)).map Prod.snd
  have hnot := (List.nodup_cons.mp (hperm.nodup_iff.mp hvalues)).1
  rw [hperm.mem_iff, List.map_cons, List.mem_cons]
  constructor
  · intro hmem
    exact ⟨.inr hmem, fun heq => hnot (heq ▸ hmem)⟩
  · rintro ⟨rfl | hmem, hne⟩
    · exact absurd rfl hne
    · exact hmem

end Assoc
