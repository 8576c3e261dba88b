import CoEpoll.CoKernel.LoadOrder
import CoEpoll.Ordered.EqualRun
import Mathlib.Data.FinEnum

/-!
# `icus_` stays ordered by load

An ICU's {lit}`pos` is trusted once it polls a descriptor; the first ICU's is trusted as
soon as any ICU polls one.  The two scans find the ends of a run of equal loads,
and one exchange there keeps the order.

Main results:

- Theorems {lit}`scanUp_spec` and {lit}`scanDown_spec`: what the loops find.
- Theorems {lit}`Inv.add` and {lit}`Inv.remove`: registration and removal keep the invariant.
- Theorem {lit}`icus_balanced`: order, counts and positions in every reachable state.
-/

namespace CoEpoll
namespace CoKernel

open Transition Ordered

variable {ι : Type*}

/-! ## The loops -/

/-- The upward scan stops at the first greater load or at the end. -/
theorem scanUp_spec {s : State ι} (irqn0 : UInt32) {fuel i : Nat}
    (hlen : i + fuel = s.icus_.length) :
    ∃ j, scanUp s irqn0 fuel i = some j ∧ i ≤ j ∧ j ≤ s.icus_.length ∧
      (∀ k c, i ≤ k → k < j → s.icus_[k]? = some c → s.irqn c ≤ irqn0) ∧
      ∀ c, s.icus_[j]? = some c → irqn0 < s.irqn c := by
  induction fuel generalizing i with
  | zero =>
      refine ⟨i, rfl, le_rfl, hlen.le, fun k c hik hki => absurd hki (by omega), ?_⟩
      intro c hc
      rw [List.getElem?_eq_none (by omega)] at hc
      cases hc
  | succ fuel ih =>
      have hi : i < s.icus_.length := by omega
      have hget : s.icus_[i]? = some s.icus_[i] := List.getElem?_eq_getElem hi
      by_cases hgt : s.irqn s.icus_[i] > irqn0
      · refine ⟨i, by simp [scanUp, hget, hgt], le_rfl, hi.le,
          fun k c hik hki => absurd hki (by omega), ?_⟩
        intro c hc
        rw [hget] at hc
        exact Option.some.inj hc ▸ hgt
      · rcases ih (i := i + 1) (by omega) with ⟨j, hj, hij, hjl, hrun, hstop⟩
        refine ⟨j, by simp [scanUp, hget, hgt, hj], by omega, hjl, ?_, hstop⟩
        intro k c hik hkj hc
        rcases Nat.eq_or_lt_of_le hik with rfl | hlt
        · rw [hget] at hc
          exact Option.some.inj hc ▸ UInt32.not_lt.mp hgt
        · exact hrun k c hlt hkj hc

/-- The downward scan stops behind the first smaller load or at the start. -/
theorem scanDown_spec {s : State ι} (irqnPos : UInt32) {n : Nat}
    (hlen : n ≤ s.icus_.length) :
    ∃ b : Nat, scanDown s irqnPos n = some ((b : Int) - 1) ∧ b ≤ n ∧
      (∀ k c, b ≤ k → k < n → s.icus_[k]? = some c → irqnPos ≤ s.irqn c) ∧
      ∀ k c, k < b → s.icus_[k]? = some c → k + 1 = b → s.irqn c < irqnPos := by
  induction n with
  | zero =>
      exact ⟨0, rfl, le_rfl, fun k c _ hk => absurd hk (by omega), fun k c hk => absurd hk (by omega)⟩
  | succ n ih =>
      have hn : n < s.icus_.length := by omega
      have hget : s.icus_[n]? = some s.icus_[n] := List.getElem?_eq_getElem hn
      by_cases hlt : s.irqn s.icus_[n] < irqnPos
      · refine ⟨n + 1, by simp [scanDown, hget, hlt], le_rfl,
          fun k c hk hkn => absurd hkn (by omega), ?_⟩
        intro k c _ hc hk
        have hkn : k = n := by omega
        subst k
        rw [hget] at hc
        exact Option.some.inj hc ▸ hlt
      · rcases ih (by omega) with ⟨b, hb, hbn, hrun, hstop⟩
        refine ⟨b, by simp [scanDown, hget, hlt, hb], by omega, ?_, hstop⟩
        intro k c hbk hkn hc
        rcases Nat.lt_or_ge k n with hk | hk
        · exact hrun k c hbk hk hc
        · have hkn' : k = n := by omega
          subst k
          rw [hget] at hc
          exact Option.some.inj hc ▸ UInt32.not_lt.mp hlt

/-! ## The invariant -/

/-- The number of entries that belong to an ICU. -/
def State.polled [DecidableEq ι] (s : State ι) (c : ι) : Nat :=
  s.fileWQPtrs_.countP fun e => e.2.icu_ = c

/-- The invariant of the kernel with the ICUs {lit}`icus`. -/
structure Inv [DecidableEq ι] (icus : List ι) (s : State ι) : Prop where
  perm : s.icus_.Perm icus
  sorted : SortedBy (fun c => (s.irqn c).toNat) s.icus_
  load : ∀ c, (s.irqn c).toNat = s.polled c
  owner : ∀ e ∈ s.fileWQPtrs_, e.2.icu_ ∈ s.icus_
  keyed : Assoc.Keyed s.fileWQPtrs_
  pos : ∀ k c, s.icus_[k]? = some c → s.irqn c ≠ 0 → s.pos c = k
  front : (∀ c, s.icus_[0]? = some c → s.pos c = 0) ∨ ∀ c, s.irqn c = 0

variable {s s' : State ι} {fd : Int32} {fq : FileWQ ι} {c x y : ι}

/-- There are not more descriptors than values of type {lit}`int`. -/
theorem length_le (hkeyed : Assoc.Keyed s.fileWQPtrs_) : s.fileWQPtrs_.length ≤ 2 ^ 32 := by
  have hcard := List.Nodup.length_le_card hkeyed
  rw [List.length_map, ← FinEnum.card_eq_fintypeCard] at hcard
  exact hcard

variable [DecidableEq ι]

/-- Two ICUs share the descriptors. -/
theorem polled_add_le (s : State ι) (hxy : x ≠ y) :
    s.polled x + s.polled y ≤ s.fileWQPtrs_.length := by
  unfold State.polled
  induction s.fileWQPtrs_ with
  | nil => simp
  | cons e l ih =>
      rw [List.countP_cons, List.countP_cons, List.length_cons]
      by_cases hx : e.2.icu_ = x
      · have hy : e.2.icu_ ≠ y := hx ▸ hxy
        simp only [hx, hxy, decide_true, decide_false, if_true, Bool.false_eq_true, if_false]
        omega
      · simp only [hx, decide_false, Bool.false_eq_true, if_false]
        split <;> omega

/-- Only an ICU of {lit}`icus_` polls anything. -/
theorem Inv.mem_of_irqn {icus : List ι} (h : Inv icus s) (hc : s.irqn c ≠ 0) :
    c ∈ s.icus_ := by
  have hpos : 0 < s.polled c := by
    rw [← h.load c, Nat.pos_iff_ne_zero]
    intro hzero
    exact hc (UInt32.toNat_inj.mp (by simpa using hzero))
  rcases List.countP_pos_iff.mp hpos with ⟨e, he, hec⟩
  have hicu : e.2.icu_ = c := by simpa using hec
  exact hicu ▸ h.owner e he

/-- The load of an ICU that polls something is positive. -/
theorem Inv.irqn_ne_zero {icus : List ι} (h : Inv icus s) {e : Int32 × FileWQ ι}
    (he : e ∈ s.fileWQPtrs_) : s.irqn e.2.icu_ ≠ 0 := by
  intro hzero
  have hpos : 0 < s.polled e.2.icu_ := List.countP_pos_iff.mpr ⟨e, he, by simp⟩
  rw [← h.load, hzero] at hpos
  exact absurd hpos (by simp)

/-! ## Registration -/

/-- One more descriptor does not overflow the smallest load. -/
theorem Inv.irqn_front_lt {icus : List ι} (h : Inv icus s) (hnodup : icus.Nodup)
    (htwo : 2 ≤ icus.length) (hfd : Assoc.find s.fileWQPtrs_ fd = none)
    (hx : s.icus_[0]? = some x) : (s.irqn x).toNat + 1 < 2 ^ 32 := by
  have hlen : 1 < s.icus_.length := by rw [h.perm.length_eq]; omega
  have hy : s.icus_[1]? = some s.icus_[1] := List.getElem?_eq_getElem hlen
  have hxy : x ≠ s.icus_[1] := by
    intro heq
    have hinj := position_unique (h.perm.nodup_iff.mpr hnodup) hx (heq ▸ hy)
    cases hinj
  have hle : (s.irqn x).toNat ≤ (s.irqn s.icus_[1]).toNat := h.sorted.le (by omega) hx hy
  have htotal := polled_add_le s hxy
  rw [← h.load, ← h.load] at htotal
  have hroom : s.fileWQPtrs_.length + 1 ≤ 2 ^ 32 := by
    have hcons := h.keyed.cons (b := ⟨fd, x, 0⟩) hfd
    exact length_le (s := { s with fileWQPtrs_ := (fd, ⟨fd, x, 0⟩) :: s.fileWQPtrs_ }) hcons
  omega

/-- The load of the first ICU grows and the ICU moves to the end {lit}`e` of its run of equal
loads; {lit}`pos` is right where it is trusted. -/
theorem Inv.grow {icus : List ι} {e : Nat} (h : Inv icus s) (hnodup : icus.Nodup)
    (hroom : (s.irqn x).toNat + 1 < 2 ^ 32) (hkeyed : Assoc.Keyed s'.fileWQPtrs_)
    (hptrs : s'.fileWQPtrs_ = (fd, fq) :: s.fileWQPtrs_) (hicu : fq.icu_ = x)
    (hx : s.icus_[0]? = some x) (hy : s.icus_[e]? = some y) (hxy : s.irqn x = s.irqn y)
    (hnext : ∀ k c, e < k → s.icus_[k]? = some c → s.irqn x < s.irqn c)
    (hicus : s'.icus_ = (s.icus_.set 0 y).set e x)
    (hirqn : s'.irqn = Function.update s.irqn x (s.irqn x + 1))
    (hpos : ∀ k c, s'.icus_[k]? = some c → s'.irqn c ≠ 0 → s'.pos c = k)
    (hfront : ∀ c, s'.icus_[0]? = some c → s'.pos c = 0) : Inv icus s' := by
  have hperm : s'.icus_.Perm s.icus_ := hicus ▸ perm_exchange hx hy
  have hadd : (s.irqn x + 1).toNat = (s.irqn x).toNat + 1 := by
    rw [UInt32.toNat_add, UInt32.toNat_one]
    exact Nat.mod_eq_of_lt hroom
  have hloads : (fun c => (s'.irqn c).toNat) =
      Function.update (fun c => (s.irqn c).toNat) x ((s.irqn x).toNat + 1) := by
    funext c
    rw [hirqn]
    by_cases hc : c = x
    · subst c
      simpa using hadd
    · simp [Function.update_of_ne hc]
  refine ⟨hperm.trans h.perm, ?_, ?_, ?_, hkeyed, hpos, Or.inl hfront⟩
  · rw [hloads, hicus]
    have hsorted := h.sorted.exchange hx hy (by rw [hxy])
    have hat : ((s.icus_.set 0 y).set e x)[e]? = some x := by
      simp [getElem?_exchange hx hy]
    refine hsorted.update ((perm_exchange hx hy).nodup_iff.mpr (h.perm.nodup_iff.mpr hnodup)) hat
      (fun k c hk hc => ?_) (fun k c hk hc => ?_)
    · exact (hsorted.le hk.le hc hat).trans (Nat.le_succ _)
    · rw [getElem?_exchange hx hy, if_neg (by omega), if_neg (by omega)] at hc
      exact UInt32.lt_iff_toNat_lt.mp (hnext k c hk hc)
  · intro c
    have hc := congrFun hloads c
    rw [hc, State.polled, hptrs, List.countP_cons, hicu]
    by_cases hcx : c = x
    · subst c
      simp [h.load, State.polled]
    · simp [Function.update_of_ne hcx, h.load, State.polled, Ne.symm hcx]
  · intro entry hentry
    rw [hperm.mem_iff]
    rw [hptrs] at hentry
    rcases List.mem_cons.mp hentry with rfl | hold
    · rw [hicu]
      exact List.mem_of_getElem? hx
    · exact h.owner entry hold

/-- Registering a descriptor with the first ICU. -/
theorem Inv.add {icus : List ι} (fq : FileWQ ι) (h : Inv icus s) (hnodup : icus.Nodup)
    (htwo : 2 ≤ icus.length) (hfd : Assoc.find s.fileWQPtrs_ fd = none)
    (hx : s.icus_[0]? = some x) (hicu : fq.icu_ = x) :
    ∃ s', { s with fileWQPtrs_ := (fd, fq) :: s.fileWQPtrs_ : State ι }.increment = some s' ∧
      Inv icus s' ∧ s'.fileWQPtrs_ = (fd, fq) :: s.fileWQPtrs_ := by
  have hlen : 2 ≤ s.icus_.length := by rw [h.perm.length_eq]; exact htwo
  have hnodup' : s.icus_.Nodup := h.perm.nodup_iff.mpr hnodup
  have hroom := h.irqn_front_lt hnodup htwo hfd hx
  have hkeyed : Assoc.Keyed ((fd, fq) :: s.fileWQPtrs_) := h.keyed.cons hfd
  have hfuel : 1 + (s.icus_.length - 1) = s.icus_.length := by omega
  rcases scanUp_spec (s := { s with fileWQPtrs_ := (fd, fq) :: s.fileWQPtrs_ }) (s.irqn x) hfuel
    with ⟨j, hscan, hj, hjl, hrun, hstop⟩
  dsimp only at hjl hrun hstop
  have hy : s.icus_[j - 1]? = some s.icus_[j - 1] := List.getElem?_eq_getElem (by omega)
  generalize s.icus_[j - 1] = y at hy
  have hle : (s.irqn x).toNat ≤ (s.irqn y).toNat := h.sorted.le (Nat.zero_le _) hx hy
  -- the run of loads equal to the first one ends at `j - 1`
  have hxy : s.irqn x = s.irqn y := by
    rcases Nat.eq_or_lt_of_le hj with rfl | hlt
    · rw [Option.some.inj (hx.symm.trans hy)]
    · have hge := hrun (j - 1) y (by omega) (by omega) hy
      exact UInt32.toNat_inj.mp (le_antisymm hle (UInt32.le_iff_toNat_le.mp hge))
  have hnext : ∀ k c, j - 1 < k → s.icus_[k]? = some c → s.irqn x < s.irqn c := by
    intro k c hk hc
    have hkl : k < s.icus_.length := (List.getElem?_eq_some_iff.mp hc).1
    have hz : s.icus_[j]? = some s.icus_[j] := List.getElem?_eq_getElem (by omega)
    have hlt := UInt32.lt_iff_toNat_lt.mp (hstop _ hz)
    exact UInt32.lt_iff_toNat_lt.mpr (hlt.trans_le (h.sorted.le (by omega) hz hc))
  by_cases hj1 : j = 1
  · -- the first ICU stays first
    subst j
    have hyx : y = x := Option.some.inj (hy.symm.trans hx)
    subst y
    have hsame : (s.icus_.set 0 x).set (1 - 1) x = s.icus_ := by
      rcases List.getElem?_eq_some_iff.mp hx with ⟨hl, rfl⟩
      simp
    have hfront : s.pos x = 0 := by
      rcases h.front with hf | hzero
      · exact hf x hx
      · have hz : s.icus_[1]? = some s.icus_[1] := List.getElem?_eq_getElem (by omega)
        have hlt := hnext 1 _ (by omega) hz
        rw [hzero x, hzero] at hlt
        exact absurd hlt (by decide)
    refine ⟨{ s with
        fileWQPtrs_ := (fd, fq) :: s.fileWQPtrs_
        irqn := Function.update s.irqn x (s.irqn x + 1) }, ?_, ?_, rfl⟩
    · simp [State.increment, hx, hscan]
    · refine h.grow hnodup hroom hkeyed rfl hicu hx hy rfl hnext hsame.symm rfl ?_ ?_
      · intro k c hk hc
        by_cases hcx : c = x
        · subst c
          rw [← position_unique hnodup' hx hk]
          exact hfront
        · exact h.pos k c hk (by simpa [Function.update_of_ne hcx] using hc)
      · intro c hc
        rw [Option.some.inj (hc.symm.trans hx)]
        exact hfront
  · have hyx : y ≠ x := by
      rintro rfl
      have := position_unique hnodup' hx hy
      omega
    have hat := getElem?_exchange hx hy
    refine ⟨{ s with
        fileWQPtrs_ := (fd, fq) :: s.fileWQPtrs_
        icus_ := (s.icus_.set 0 y).set (j - 1) x
        irqn := Function.update s.irqn x (s.irqn x + 1)
        pos := Function.update (Function.update s.pos y 0) x (j - 1) }, ?_, ?_, rfl⟩
    · simp [State.increment, hx, hscan, hj1, hy]
    · refine h.grow hnodup hroom hkeyed rfl hicu hx hy hxy hnext rfl rfl ?_ ?_
      · intro k c hk hc
        rw [hat] at hk
        split at hk
        next hkj =>
          cases hk
          simp [hkj]
        next hkj =>
          split at hk
          next hk0 =>
            cases hk
            simp [Function.update_of_ne hyx, hk0]
          next hk0 =>
            have hcx : c ≠ x := by
              rintro rfl
              exact hk0 (position_unique hnodup' hk hx)
            have hcy : c ≠ y := by
              rintro rfl
              exact hkj (position_unique hnodup' hk hy)
            simp only [Function.update_of_ne hcx, Function.update_of_ne hcy] at hc ⊢
            exact h.pos k c hk hc
      · intro c hc
        rw [hat, if_neg (by omega), if_pos rfl] at hc
        cases hc
        simp [Function.update_of_ne hyx]

/-! ## Removal -/

/-- The load of an ICU shrinks and the ICU moves to the start {lit}`b` of its run of equal
loads. -/
theorem Inv.shrink {icus : List ι} {b p : Nat} (h : Inv icus s) (hnodup : icus.Nodup)
    (hmem : (fd, fq) ∈ s.fileWQPtrs_) (hicu : fq.icu_ = x)
    (hptrs : s'.fileWQPtrs_ = Assoc.erase s.fileWQPtrs_ fd)
    (hx : s.icus_[p]? = some x) (hy : s.icus_[b]? = some y) (hxy : s.irqn x = s.irqn y)
    (hprev : ∀ k c, k < b → s.icus_[k]? = some c → s.irqn c < s.irqn x)
    (hicus : s'.icus_ = (s.icus_.set p y).set b x)
    (hirqn : s'.irqn = Function.update s.irqn x (s.irqn x - 1))
    (hpos : ∀ k c, s'.icus_[k]? = some c → s'.irqn c ≠ 0 → s'.pos c = k)
    (hfront : ∀ c, s'.icus_[0]? = some c → s'.pos c = 0) : Inv icus s' := by
  have hperm : s'.icus_.Perm s.icus_ := hicus ▸ perm_exchange hx hy
  have hne : s.irqn x ≠ 0 := hicu ▸ h.irqn_ne_zero hmem
  have hpositive : 0 < (s.irqn x).toNat := by
    rw [Nat.pos_iff_ne_zero]
    intro hzero
    exact hne (UInt32.toNat_inj.mp (by simpa using hzero))
  have hsub : (s.irqn x - 1).toNat = (s.irqn x).toNat - 1 := by
    rw [UInt32.toNat_sub_of_le _ _ (by rw [UInt32.le_iff_toNat_le]; exact hpositive),
      UInt32.toNat_one]
  have hloads : (fun c => (s'.irqn c).toNat) =
      Function.update (fun c => (s.irqn c).toNat) x ((s.irqn x).toNat - 1) := by
    funext c
    rw [hirqn]
    by_cases hc : c = x
    · subst c
      simpa using hsub
    · simp [Function.update_of_ne hc]
  have hsplit := h.keyed.perm_erase hmem
  rw [← hptrs] at hsplit
  refine ⟨hperm.trans h.perm, ?_, ?_, ?_, hptrs ▸ h.keyed.erase fd, hpos, Or.inl hfront⟩
  · rw [hloads, hicus]
    have hsorted := h.sorted.exchange hx hy (by rw [hxy])
    have hat : ((s.icus_.set p y).set b x)[b]? = some x := by
      simp [getElem?_exchange hx hy]
    refine hsorted.update ((perm_exchange hx hy).nodup_iff.mpr (h.perm.nodup_iff.mpr hnodup)) hat
      (fun k c hk hc => ?_) (fun k c hk hc => ?_)
    · have hkp : k ≠ p := by
        rintro rfl
        exact absurd (hprev k x hk hx) (by simp)
      rw [getElem?_exchange hx hy, if_neg (by omega), if_neg hkp] at hc
      exact Nat.le_sub_one_of_lt (UInt32.lt_iff_toNat_lt.mp (hprev k c hk hc))
    · exact (Nat.sub_le _ _).trans (hsorted.le hk.le hat hc)
  · intro c
    have hc := congrFun hloads c
    have hcount := hsplit.countP_eq (fun e => decide (e.2.icu_ = c))
    rw [List.countP_cons, hicu] at hcount
    have hold := h.load c
    unfold State.polled at hold ⊢
    rw [hc]
    by_cases hcx : c = x
    · subst c
      simp only [decide_true, if_true] at hcount
      rw [Function.update_self]
      omega
    · have hxc : ¬ x = c := fun heq => hcx heq.symm
      simp only [hxc, decide_false, Bool.false_eq_true, if_false] at hcount
      rw [Function.update_of_ne hcx]
      omega
  · intro entry hentry
    rw [hperm.mem_iff]
    exact h.owner entry (hsplit.mem_iff.mpr (List.mem_cons_of_mem _ hentry))

/-- An ICU that polls something stands where its {lit}`pos` says. -/
theorem Inv.getElem_pos {icus : List ι} (h : Inv icus s) (hx : s.irqn x ≠ 0) :
    s.icus_[s.pos x]? = some x := by
  rcases List.mem_iff_getElem?.mp (h.mem_of_irqn hx) with ⟨k, hk⟩
  rw [h.pos k x hk hx]
  exact hk

/-- Removing a registered descriptor. -/
theorem Inv.remove {icus : List ι} (h : Inv icus s) (hnodup : icus.Nodup)
    (hfd : Assoc.find s.fileWQPtrs_ fd = some fq) :
    ∃ s', { s with fileWQPtrs_ := Assoc.erase s.fileWQPtrs_ fd : State ι }.decrement fq.icu_ =
        some s' ∧ Inv icus s' ∧ s'.fileWQPtrs_ = Assoc.erase s.fileWQPtrs_ fd := by
  have hmem := Assoc.mem_of_find hfd
  obtain ⟨x, hicu⟩ : ∃ x, fq.icu_ = x := ⟨_, rfl⟩
  rw [hicu]
  have hnodup' : s.icus_.Nodup := h.perm.nodup_iff.mpr hnodup
  have hne : s.irqn x ≠ 0 := hicu ▸ h.irqn_ne_zero hmem
  have hx := h.getElem_pos hne
  obtain ⟨p, hp⟩ : ∃ p, s.pos x = p := ⟨_, rfl⟩
  rw [hp] at hx
  have hpl : p < s.icus_.length := (List.getElem?_eq_some_iff.mp hx).1
  rcases scanDown_spec (s := { s with fileWQPtrs_ := Assoc.erase s.fileWQPtrs_ fd })
    (s.irqn x) hpl.le with ⟨b, hscan, hbp, hrun, hstop⟩
  dsimp only at hrun hstop
  have hy : s.icus_[b]? = some s.icus_[b] := List.getElem?_eq_getElem (by omega)
  generalize s.icus_[b] = y at hy
  have hle : (s.irqn y).toNat ≤ (s.irqn x).toNat := h.sorted.le hbp hy hx
  -- the run of loads equal to that of `x` starts at `b`
  have hxy : s.irqn x = s.irqn y := by
    rcases Nat.eq_or_lt_of_le hbp with rfl | hlt
    · rw [Option.some.inj (hx.symm.trans hy)]
    · exact UInt32.toNat_inj.mp
        (le_antisymm (UInt32.le_iff_toNat_le.mp (hrun b y le_rfl hlt hy)) hle)
  have hprev : ∀ k c, k < b → s.icus_[k]? = some c → s.irqn c < s.irqn x := by
    intro k c hk hc
    have hz : s.icus_[b - 1]? = some s.icus_[b - 1] := List.getElem?_eq_getElem (by omega)
    have hlt := UInt32.lt_iff_toNat_lt.mp (hstop (b - 1) _ (by omega) hz (by omega))
    exact UInt32.lt_iff_toNat_lt.mpr ((h.sorted.le (by omega) hc hz).trans_lt hlt)
  have hfront : ∀ c, s.icus_[0]? = some c → s.pos c = 0 := by
    rcases h.front with hf | hzero
    · exact hf
    · exact absurd (hzero x) hne
  have hat := getElem?_exchange hx hy
  by_cases hbp' : b = p
  · -- the ICU is the first of its run and stays where it is
    subst b
    have hyx : y = x := Option.some.inj (hy.symm.trans hx)
    subst y
    have hsame : (s.icus_.set p x).set p x = s.icus_ := by
      rcases List.getElem?_eq_some_iff.mp hx with ⟨hl, rfl⟩
      simp
    refine ⟨{ s with
        fileWQPtrs_ := Assoc.erase s.fileWQPtrs_ fd
        irqn := Function.update s.irqn x (s.irqn x - 1) }, ?_, ?_, rfl⟩
    · simp [State.decrement, hp, hx, hscan]
    · refine h.shrink hnodup hmem hicu rfl hx hy rfl hprev hsame.symm rfl ?_ hfront
      intro k c hk hc
      by_cases hcx : c = x
      · subst c
        rw [← position_unique hnodup' hx hk]
        exact hp
      · exact h.pos k c hk (by simpa [Function.update_of_ne hcx] using hc)
  · have hyx : y ≠ x := by
      rintro rfl
      exact hbp' (position_unique hnodup' hy hx)
    have hmoved : ((s.icus_.set p y).set b x)[p]? = some y := by
      rw [hat, if_neg (Ne.symm hbp'), if_pos rfl]
    refine ⟨{ s with
        fileWQPtrs_ := Assoc.erase s.fileWQPtrs_ fd
        icus_ := (s.icus_.set p y).set b x
        irqn := Function.update s.irqn x (s.irqn x - 1)
        pos := Function.update (Function.update s.pos y p) x b }, ?_, ?_, rfl⟩
    · have hneq : (b : Int) - 1 ≠ (p : Int) - 1 := by omega
      simp [State.decrement, hp, hx, hscan, hneq, hy, hmoved]
    · refine h.shrink hnodup hmem hicu rfl hx hy hxy hprev rfl rfl ?_ ?_
      · intro k c hk hc
        rw [hat] at hk
        split at hk
        next hkb =>
          cases hk
          simp [hkb]
        next hkb =>
          split at hk
          next hkp =>
            cases hk
            simp [Function.update_of_ne hyx, hkp]
          next hkp =>
            have hcx : c ≠ x := by
              rintro rfl
              exact hkp (position_unique hnodup' hk hx)
            have hcy : c ≠ y := by
              rintro rfl
              exact hkb (position_unique hnodup' hk hy)
            simp only [Function.update_of_ne hcx, Function.update_of_ne hcy] at hc ⊢
            exact h.pos k c hk hc
      · intro c hc
        rw [hat] at hc
        split at hc
        next hb0 =>
          cases hc
          simp [← hb0]
        next hb0 =>
          rw [if_neg (by omega)] at hc
          have hcx : c ≠ x := by
            rintro rfl
            have := position_unique hnodup' hc hx
            omega
          have hcy : c ≠ y := by
            rintro rfl
            exact hb0 (position_unique hnodup' hc hy)
          simp only [Function.update_of_ne hcx, Function.update_of_ne hcy]
          exact hfront c hc

/-! ## Whole runs -/

/-- Changing the events of a registered descriptor. -/
theorem Inv.modify {icus : List ι} (h : Inv icus s) (fd : Int32) (events : UInt32) :
    Inv icus { s with
      fileWQPtrs_ := Assoc.modify s.fileWQPtrs_ fd fun fq => { fq with wevents_ := events } } := by
  have hicu : ∀ e : Int32 × FileWQ ι,
      (if e.1 = fd then (e.1, { e.2 with wevents_ := events }) else e).2.icu_ = e.2.icu_ := by
    intro e
    split <;> rfl
  refine ⟨h.perm, h.sorted, ?_, ?_, ?_, h.pos, h.front⟩
  · intro c
    rw [h.load, State.polled, State.polled, Assoc.modify, List.countP_map]
    refine List.countP_congr fun e _ => ?_
    simp [hicu]
  · intro e he
    rcases List.mem_map.mp he with ⟨e', he', rfl⟩
    rw [hicu]
    exact h.owner e' he'
  · exact h.keyed.modify fd fun fq => { fq with wevents_ := events }

/-- Every call has a next state, and it keeps the invariant. -/
theorem Inv.step {icus : List ι} (h : Inv icus s) (hnodup : icus.Nodup)
    (htwo : 2 ≤ icus.length) (a : Action) : ∃ s', step s a = some s' ∧ Inv icus s' := by
  have hlen : 2 ≤ s.icus_.length := by rw [h.perm.length_eq]; exact htwo
  have hx : s.icus_[0]? = some s.icus_[0] := List.getElem?_eq_getElem (by omega)
  cases a with
  | updateIRQ fd events ret =>
      cases hfd : Assoc.find s.fileWQPtrs_ fd with
      | none =>
          by_cases hret : ret = 0
          · rcases h.add ⟨fd, s.icus_[0], events⟩ hnodup htwo hfd hx rfl with
              ⟨s', hs', hinv, _⟩
            refine ⟨s', ?_, hinv⟩
            simp only [CoKernel.step, updateIRQ, hfd, hx, Option.bind_some, if_pos hret]
            exact hs'
          · refine ⟨s, ?_, h⟩
            simp [CoKernel.step, updateIRQ, hfd, hx, hret]
      | some fq =>
          exact ⟨_, by simp [CoKernel.step, updateIRQ, hfd], h.modify fd events⟩
  | removeIRQ fd ret =>
      cases hfd : Assoc.find s.fileWQPtrs_ fd with
      | none => exact ⟨s, by simp [CoKernel.step, removeIRQ, hfd], h⟩
      | some fq =>
          rcases h.remove hnodup hfd with ⟨s', hs', hinv, _⟩
          refine ⟨s', ?_, hinv⟩
          simp only [CoKernel.step, removeIRQ, hfd]
          exact hs'

/-- A new kernel, whatever the {lit}`pos` fields hold. -/
theorem inv_construct (icus : List ι) (pos : ι → Nat) : Inv icus (State.construct icus pos) where
  perm := List.Perm.refl _
  sorted := List.pairwise_of_forall fun _ _ => le_rfl
  load _ := rfl
  owner e he := by cases he
  keyed := List.nodup_nil
  pos k c _ hc := absurd rfl hc
  front := Or.inr fun _ => rfl

/-- The invariant holds along every run. -/
theorem inductive_inv {icus : List ι} (hnodup : icus.Nodup) (htwo : 2 ≤ icus.length) :
    (machine icus).Inductive (Inv icus) where
  init := by
    rintro s ⟨pos, rfl⟩
    exact inv_construct icus pos
  step := by
    intro s a s' h hstep
    rcases h.step hnodup htwo a with ⟨t, ht, hinv⟩
    cases ht.symm.trans hstep
    exact hinv

/-- What the kernel relies on when it chooses an ICU. -/
structure Balanced (icus : List ι) (s : State ι) : Prop where
  perm : s.icus_.Perm icus
  ordered : s.icus_.Pairwise fun c d => s.irqn c ≤ s.irqn d
  load : ∀ c, (s.irqn c).toNat = s.fileWQPtrs_.countP fun e => e.2.icu_ = c
  /-- The load that a removal decrements is not 0. -/
  noWrap : ∀ e ∈ s.fileWQPtrs_, s.irqn e.2.icu_ ≠ 0
  pos : ∀ e ∈ s.fileWQPtrs_, s.icus_[s.pos e.2.icu_]? = some e.2.icu_
  /-- No call reads {lit}`icus_` out of range. -/
  total : ∀ a, ∃ s', step s a = some s'
  /-- A new descriptor goes to an ICU of the smallest load. -/
  smallest : ∀ fd events, Assoc.find s.fileWQPtrs_ fd = none → ∃ s' icu,
    updateIRQ s fd events 0 = some s' ∧
    s'.fileWQPtrs_ = (fd, ⟨fd, icu, events⟩) :: s.fileWQPtrs_ ∧
    ∀ c ∈ s.icus_, s.irqn icu ≤ s.irqn c

/-- With at least two ICUs, whatever their {lit}`pos` fields hold at first, every sequence
of calls leaves {lit}`icus_` balanced. -/
theorem icus_balanced {icus : List ι} (hnodup : icus.Nodup) (htwo : 2 ≤ icus.length)
    (s : State ι) (hs : (machine icus).Reachable s) : Balanced icus s := by
  have h := (inductive_inv hnodup htwo).reachable hs
  refine ⟨h.perm, ?_, h.load, fun e he => h.irqn_ne_zero he, fun e he => ?_, fun a => ?_, ?_⟩
  · exact h.sorted.imp fun hle => UInt32.le_iff_toNat_le.mpr hle
  · exact h.getElem_pos (h.irqn_ne_zero he)
  · rcases h.step hnodup htwo a with ⟨s', hs', _⟩
    exact ⟨s', hs'⟩
  · intro fd events hfd
    have hlen : 2 ≤ s.icus_.length := by rw [h.perm.length_eq]; exact htwo
    have hx : s.icus_[0]? = some s.icus_[0] := List.getElem?_eq_getElem (by omega)
    rcases h.add ⟨fd, s.icus_[0], events⟩ hnodup htwo hfd hx rfl with ⟨s', hs', _, hptrs⟩
    refine ⟨s', s.icus_[0], ?_, hptrs, fun c hc => ?_⟩
    · simp only [updateIRQ, hfd, hx, Option.bind_some, if_true]
      exact hs'
    · rcases List.mem_iff_getElem?.mp hc with ⟨k, hk⟩
      exact UInt32.le_iff_toNat_le.mpr (h.sorted.le (Nat.zero_le k) hx hk)

/-- Two ICUs whose {lit}`pos` fields hold 77 at first: two registrations and a removal. -/
theorem icus_balanced_two : ∃ s : State (Fin 2), (machine [0, 1]).Reachable s ∧
    s.icus_ = [1, 0] ∧ Balanced [0, 1] s := by
  have hrun : ((machine [0, 1]).run (State.construct [(0 : Fin 2), 1] fun _ => 77)
      [.updateIRQ 5 1 0, .updateIRQ 6 1 0, .removeIRQ 6 0]).map State.icus_ = some [1, 0] := by
    decide +kernel
  rcases Option.map_eq_some_iff.mp hrun with ⟨s, hs, hicus⟩
  have hreach : (machine [0, 1]).Reachable s := ⟨_, _, ⟨_, rfl⟩, hs⟩
  exact ⟨s, hreach, hicus, icus_balanced (by decide) (by decide) s hreach⟩

end CoKernel
end CoEpoll
