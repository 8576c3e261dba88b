import CoEpoll.CoKernel.LoadOrder.Balance

/-!
# Where `CoKernel::removeIRQ` looks for an ICU

The removal starts at {lit}`icus_[icu->pos]`.  With two or more ICUs a registration has written
{lit}`pos` before a removal reads it.  A single ICU is never exchanged with another one, so that its
{lit}`pos` stays what it happened to be at its construction.

Main results:

- Theorem {lit}`decrement_eq_none_iff`: the removal goes wrong exactly at an index out of range.
- Theorem {lit}`Alone.run`: a single ICU keeps its place and its {lit}`pos`.
- Theorem {lit}`removeIRQ_finds_iff`: when every removal finds the ICU's slot.
-/

namespace CoEpoll
namespace CoKernel

open Transition

variable {ι : Type*}

/-! ## The indices that a removal uses -/

/-- The indices at which {lit}`for (i = n - 1; i >= 0; i--)` reads {lit}`icus_`. -/
def scannedDown (s : State ι) (irqnPos : UInt32) (n : Nat) : List Nat :=
  match n with
  | 0 => []
  | i + 1 =>
      i :: match s.icus_[i]? with
        | none => []
        | some icu => if s.irqn icu < irqnPos then [] else scannedDown s irqnPos i

/-- The indices at which {lit}`removeIRQ` reads or writes {lit}`icus_`. -/
def State.usedIndices (s : State ι) (icu : ι) : List Nat :=
  s.pos icu ::
    match s.icus_[s.pos icu]? with
    | none => []
    | some atPos =>
        scannedDown s (s.irqn atPos) (s.pos icu) ++
          match scanDown s (s.irqn atPos) (s.pos icu) with
          | none => []
          | some i => if i ≠ (s.pos icu : Int) - 1 then [(i + 1).toNat] else []

/-- A removal for {lit}`icu` starts at the slot that holds it and stays within {lit}`icus_`. -/
structure State.FindsSlot (s : State ι) (icu : ι) : Prop where
  slot : s.icus_[s.pos icu]? = some icu
  inRange : ∀ i ∈ s.usedIndices icu, i < s.icus_.length

variable {s s' : State ι} {c : ι} {p : Nat}

theorem lt_of_mem_scannedDown {irqnPos : UInt32} {n i : Nat} (h : i ∈ scannedDown s irqnPos n) :
    i < n := by
  induction n with
  | zero => cases h
  | succ n ih =>
      rcases List.mem_cons.mp h with rfl | h
      · exact Nat.lt_succ_self _
      · split at h
        · cases h
        · split at h
          · cases h
          · exact Nat.lt_succ_of_lt (ih h)

/-- No index lies above the one that the removal starts from. -/
theorem le_of_mem_usedIndices {i : Nat} (h : i ∈ s.usedIndices c) : i ≤ s.pos c := by
  rcases List.mem_cons.mp h with rfl | h
  · exact Nat.le_refl _
  · split at h
    · cases h
    · rename_i atPos hpos
      have hlen := (List.getElem?_eq_some_iff.mp hpos).1
      rcases scanDown_spec (s.irqn atPos) hlen.le with ⟨b, hscan, hb, _⟩
      rcases List.mem_append.mp h with h | h
      · exact (lt_of_mem_scannedDown h).le
      · rw [hscan] at h
        dsimp only at h
        split at h
        · have hi : i = ((b : Int) - 1 + 1).toNat := List.mem_singleton.mp h
          omega
        · cases h

/-- The slot is all that a removal needs. -/
theorem findsSlot_of_slot (h : s.icus_[s.pos c]? = some c) : s.FindsSlot c where
  slot := h
  inRange _ hi :=
    Nat.lt_of_le_of_lt (le_of_mem_usedIndices hi) (List.getElem?_eq_some_iff.mp h).1

variable [DecidableEq ι]

/-- The removal goes wrong exactly when one of its indices is out of range. -/
theorem decrement_eq_none_iff :
    s.decrement c = none ↔ ∃ i ∈ s.usedIndices c, s.icus_.length ≤ i := by
  cases hpos : s.icus_[s.pos c]? with
  | none =>
      have hout : s.icus_.length ≤ s.pos c := List.getElem?_eq_none_iff.mp hpos
      constructor
      · intro _
        exact ⟨s.pos c, List.mem_cons_self, hout⟩
      · intro _
        rw [State.decrement, hpos]
        rfl
  | some atPos =>
      have hlen := (List.getElem?_eq_some_iff.mp hpos).1
      rcases scanDown_spec (s.irqn atPos) hlen.le with ⟨b, hscan, hb, _⟩
      have hget : s.icus_[b]? = some s.icus_[b] := List.getElem?_eq_getElem (by omega)
      constructor
      · intro hnone
        exfalso
        rw [State.decrement, hpos, Option.bind_some, hscan, Option.bind_some] at hnone
        dsimp only at hnone
        split at hnone
        · simp [hget, hlen] at hnone
        · cases hnone
      · rintro ⟨i, hi, hout⟩
        have := le_of_mem_usedIndices hi
        omega

/-! ## A single ICU -/

/-- {lit}`c` is the only ICU, it polls every descriptor, and its {lit}`pos` is {lit}`p`. -/
structure Alone (c : ι) (p : Nat) (s : State ι) : Prop where
  icus : s.icus_ = [c]
  pos : s.pos c = p
  owner : ∀ e ∈ s.fileWQPtrs_, e.2.icu_ = c

omit [DecidableEq ι] in
theorem alone_construct (c : ι) (pos : ι → Nat) : Alone c (pos c) (State.construct [c] pos) where
  icus := rfl
  pos := rfl
  owner e he := by cases he

omit [DecidableEq ι] in
/-- The only slot is slot 0. -/
theorem Alone.slot_iff (h : Alone c p s) : s.icus_[s.pos c]? = some c ↔ p = 0 := by
  rw [h.icus, h.pos]
  cases p with
  | zero => simp
  | succ p => simp

omit [DecidableEq ι] in
theorem Alone.front (h : Alone c p s) : s.icus_[0]? = some c := by
  rw [h.icus]
  rfl

/-- A registration only counts. -/
theorem Alone.increment (h : Alone c p s) :
    s.increment = some { s with irqn := Function.update s.irqn c (s.irqn c + 1) } := by
  simp [State.increment, scanUp, h.icus]

/-- A removal does not get past another slot than slot 0. -/
theorem Alone.decrement (h : Alone c p s) (hdec : s.decrement c = some s') :
    s' = { s with irqn := Function.update s.irqn c (s.irqn c - 1) } := by
  cases p with
  | zero =>
      simp [State.decrement, h.front, h.pos, scanDown] at hdec
      exact hdec.symm
  | succ p =>
      simp [State.decrement, h.icus, h.pos] at hdec

/-- Every call leaves the ICU in its place and does not touch its {lit}`pos`. -/
theorem Alone.step (h : Alone c p s) (a : Action) (hstep : step s a = some s') : Alone c p s' := by
  cases a with
  | updateIRQ fd events ret =>
      simp only [CoKernel.step, updateIRQ] at hstep
      split at hstep
      · rw [h.front, Option.bind_some] at hstep
        split at hstep
        · have hadded : Alone c p
              { s with fileWQPtrs_ := (fd, ⟨fd, c, events⟩) :: s.fileWQPtrs_ : State ι } := by
            refine ⟨h.icus, h.pos, ?_⟩
            intro e he
            rcases List.mem_cons.mp he with rfl | he
            · rfl
            · exact h.owner e he
          rw [hadded.increment] at hstep
          cases hstep
          exact ⟨hadded.icus, hadded.pos, hadded.owner⟩
        · cases hstep
          exact h
      · cases hstep
        refine ⟨h.icus, h.pos, ?_⟩
        intro e he
        rcases List.mem_map.mp he with ⟨e', he', rfl⟩
        split
        · exact h.owner e' he'
        · exact h.owner e' he'
  | removeIRQ fd ret =>
      simp only [CoKernel.step, removeIRQ] at hstep
      split at hstep
      · cases hstep
        exact h
      · rename_i fq hfind
        have herased : Alone c p
            { s with fileWQPtrs_ := Assoc.erase s.fileWQPtrs_ fd : State ι } :=
          ⟨h.icus, h.pos, fun e he => h.owner e (List.mem_of_mem_filter he)⟩
        rw [h.owner _ (Assoc.mem_of_find hfind)] at hstep
        rw [herased.decrement hstep]
        exact ⟨herased.icus, herased.pos, herased.owner⟩

/-- A single ICU keeps its place and its {lit}`pos` along every run. -/
theorem Alone.run {as : List Action} (h : Alone c p s)
    (hrun : (machine [c]).run s as = some s') : Alone c p s' :=
  Machine.run_keep (fun _ a _ h hstep => h.step a hstep) h hrun

/-- One registration leads to a removal that a single ICU can fail. -/
theorem run_register (c : ι) (pos : ι → Nat) (fd : Int32) :
    (machine [c]).run (State.construct [c] pos) [.updateIRQ fd 1 0] =
      some { State.construct [c] pos with
        fileWQPtrs_ := [(fd, ⟨fd, c, 1⟩)]
        irqn := Function.update (fun _ => 0) c 1 } := by
  simp [Machine.run, machine, CoKernel.step, updateIRQ, State.construct, Assoc.find, State.increment,
    scanUp]

/-! ## Whole runs -/

/-- Whatever the {lit}`pos` fields hold at first, every removal of every run finds the slot of the
descriptor's ICU, if and only if there are two ICUs or the {lit}`pos` of the only one happens to be
0. -/
theorem removeIRQ_finds_iff {icus : List ι} (hne : icus ≠ []) (hnodup : icus.Nodup)
    (pos : ι → Nat) :
    (∀ as s fd fq, (machine icus).run (State.construct icus pos) as = some s →
        Assoc.find s.fileWQPtrs_ fd = some fq → s.FindsSlot fq.icu_) ↔
      2 ≤ icus.length ∨ ∀ c ∈ icus, pos c = 0 := by
  rcases icus with _ | ⟨c, _ | ⟨d, icus⟩⟩
  · exact absurd rfl hne
  · constructor
    · intro hfinds
      right
      intro c' hc'
      rw [List.mem_singleton.mp hc']
      have hrun := run_register c pos 0
      have hslot := (hfinds _ _ 0 ⟨0, c, 1⟩ hrun (by simp [Assoc.find])).slot
      exact ((alone_construct c pos).run hrun).slot_iff.mp hslot
    · rintro (htwo | hzero)
      · exact absurd htwo (by simp)
      · intro as s fd fq hrun hfind
        have h := (alone_construct c pos).run hrun
        apply findsSlot_of_slot
        rw [h.owner _ (Assoc.mem_of_find hfind)]
        exact h.slot_iff.mpr (hzero c (by simp))
  · have htwo : 2 ≤ (c :: d :: icus).length := by simp
    constructor
    · intro _
      exact .inl htwo
    · intro _ as s fd fq hrun hfind
      have h := (inductive_inv hnodup htwo).reachable ⟨_, as, ⟨pos, rfl⟩, hrun⟩
      have hload := h.irqn_ne_zero (Assoc.mem_of_find hfind)
      exact findsSlot_of_slot (h.getElem_pos hload)

/-- Two ICUs whose {lit}`pos` fields hold 77 at first. -/
theorem removeIRQ_finds_iff_two : ∃ s : State (Fin 2),
    (machine [0, 1]).run (State.construct [0, 1] fun _ => 77) [.updateIRQ 5 1 0] = some s ∧
      s.fileWQPtrs_ = [(5, ⟨5, 0, 1⟩)] ∧ s.FindsSlot 0 := by
  have hrun : ((machine [0, 1]).run (State.construct [(0 : Fin 2), 1] fun _ => 77)
      [.updateIRQ 5 1 0]).map State.fileWQPtrs_ = some [(5, ⟨5, 0, 1⟩)] := by
    decide +kernel
  rcases Option.map_eq_some_iff.mp hrun with ⟨s, hs, hptrs⟩
  have hfind : Assoc.find s.fileWQPtrs_ 5 = some ⟨5, 0, 1⟩ := by
    rw [hptrs]
    rfl
  have htwo : 2 ≤ [(0 : Fin 2), 1].length := by decide
  have hfinds := (removeIRQ_finds_iff (by decide) (by decide) fun _ => 77).mpr (.inl htwo)
  exact ⟨s, hs, hptrs, hfinds _ s 5 ⟨5, 0, 1⟩ hs hfind⟩

/-- A single ICU whose {lit}`pos` holds 77 at first: the removal reads {lit}`icus_[77]`. -/
theorem removeIRQ_misses_slot : ∃ s : State (Fin 1),
    (machine [0]).run (State.construct [0] fun _ => 77) [.updateIRQ 5 1 0] = some s ∧
      Assoc.find s.fileWQPtrs_ 5 = some ⟨5, 0, 1⟩ ∧ 77 ∈ s.usedIndices 0 ∧ s.icus_.length = 1 ∧
      ¬ s.FindsSlot 0 ∧ removeIRQ s 5 = none := by
  refine ⟨_, run_register 0 _ 5, rfl, List.mem_cons_self, rfl, ?_, rfl⟩
  intro h
  exact absurd h.slot (by decide)

end CoKernel
end CoEpoll
