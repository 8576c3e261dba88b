import CoEpoll.Assoc.Entries
import Mathlib.Data.List.Perm.Basic
import Mathlib.Data.Fintype.EquivFin
import Mathlib.Logic.Function.Basic

/-!
# A memory and the list of its cells

The cells that a memory holds are listed in any order, each address once.  Writing, allocating and
freeing a cell change the list at that cell only.
-/

namespace Assoc

variable {κ β : Type*} {mem : κ → Option β} {l l' : List (κ × β)} {k : κ} {b : β}

/-- The memory holds exactly the cells of the list. -/
structure Holds (mem : κ → Option β) (l : List (κ × β)) : Prop where
  keyed : Keyed l
  cells : ∀ k b, mem k = some b ↔ (k, b) ∈ l

theorem holds_nil : Holds (fun _ : κ => (none : Option β)) [] where
  keyed := List.nodup_nil
  cells k b := by simp

namespace Holds

theorem get (h : Holds mem l) (hmem : (k, b) ∈ l) : mem k = some b :=
  (h.cells k b).mpr hmem

theorem head (h : Holds mem ((k, b) :: l)) : mem k = some b :=
  h.get List.mem_cons_self

/-- The order of the cells does not matter. -/
theorem perm (h : Holds mem l) (hperm : l.Perm l') : Holds mem l' where
  keyed := (hperm.map Prod.fst).nodup_iff.mp h.keyed
  cells k b := by rw [h.cells, hperm.mem_iff]

theorem swap {e e' : κ × β} (h : Holds mem (e :: e' :: l)) : Holds mem (e' :: e :: l) :=
  h.perm (List.Perm.swap e' e l)

/-- An address that holds nothing is not listed. -/
theorem notMem (h : Holds mem l) (hk : mem k = none) : k ∉ l.map Prod.fst := by
  intro hmem
  rcases List.mem_map.mp hmem with ⟨⟨_, b⟩, hb, rfl⟩
  cases hk.symm.trans (h.get hb)

/-- The address of a cell is not that of another one. -/
theorem head_notMem (h : Holds mem ((k, b) :: l)) : k ∉ l.map Prod.fst :=
  (List.nodup_cons.mp h.keyed).1

theorem ne_of_mem (h : Holds mem ((k, b) :: l)) {k' : κ} {c : β} (hmem : (k', c) ∈ l) : k' ≠ k := by
  rintro rfl
  exact h.head_notMem (List.mem_map_of_mem hmem)

/-- Among infinitely many addresses there is one that holds nothing. -/
theorem exists_free [Infinite κ] (h : Holds mem l) (avoid : Finset κ) :
    ∃ k, mem k = none ∧ k ∉ avoid := by
  classical
  rcases Infinite.exists_notMem_finset (avoid ∪ (l.map Prod.fst).toFinset) with ⟨k, hk⟩
  rw [Finset.mem_union, List.mem_toFinset, not_or] at hk
  refine ⟨k, ?_, hk.1⟩
  rw [Option.eq_none_iff_forall_ne_some]
  intro b hb
  exact hk.2 (List.mem_map_of_mem ((h.cells k b).mp hb))

variable [DecidableEq κ]

/-- Allocating a cell at an address that holds nothing. -/
theorem alloc (h : Holds mem l) (hk : mem k = none) (c : β) :
    Holds (Function.update mem k (some c)) ((k, c) :: l) where
  keyed := List.nodup_cons.mpr ⟨h.notMem hk, h.keyed⟩
  cells k' b' := by
    by_cases hk' : k' = k
    · subst hk'
      rw [Function.update_self, List.mem_cons, Option.some_inj]
      constructor
      · rintro rfl
        exact .inl rfl
      · rintro (heq | hmem)
        · exact (Prod.mk.inj heq).2.symm
        · exact absurd (List.mem_map_of_mem hmem) (h.notMem hk)
    · rw [Function.update_of_ne hk', h.cells]
      simp [hk']

/-- Freeing a cell. -/
theorem free (h : Holds mem ((k, b) :: l)) : Holds (Function.update mem k none) l where
  keyed := (List.nodup_cons.mp h.keyed).2
  cells k' b' := by
    by_cases hk : k' = k
    · subst hk
      rw [Function.update_self]
      constructor
      · intro hnone
        cases hnone
      · intro hmem
        exact absurd rfl (h.ne_of_mem hmem)
    · rw [Function.update_of_ne hk, h.cells]
      simp [hk]

/-- Writing a cell. -/
theorem write (h : Holds mem ((k, b) :: l)) (c : β) :
    Holds (Function.update mem k (some c)) ((k, c) :: l) := by
  have halloc := h.free.alloc (Function.update_self k none mem) c
  rwa [Function.update_idem] at halloc

end Holds
end Assoc
