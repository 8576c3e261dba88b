import CoEpoll.CoKernel.MuCore
import CoEpoll.Transition.Census
import Mathlib.Algebra.Group.Nat.Defs

/-!
# `MuCore`: mutual exclusion, the counter and the hand-over

At most one coroutine is inside: past the first action of a {lit}`lock` that found the
mutex free, or woken, and not yet at the end of its {lit}`unlock`.  {lit}`waiter_` counts
the coroutines that have entered and not yet decremented it, and whenever it is
positive somebody is inside.  The coroutines suspended in {lit}`lock` stand in one line:
at most one popped item in the hand of an {lit}`unlock`, then {lit}`items_`.

Main results:

- Structures {lit}`Turn`, {lit}`Count` and {lit}`Line`: who is inside, what is counted and who
  waits in which order.
- Theorem {lit}`inductive_inv`: the invariant holds along every disciplined run.
-/

namespace CoEpoll
namespace MuCore

open Transition

variable {κ : Type*}

/-! ## What a program counter says -/

namespace Pc

/-- Has incremented {lit}`waiter_` and not decremented it yet. -/
def counted : Pc κ → Bool
  | lockStore => true
  | lockQueue => true
  | suspended => true
  | ready => true
  | tryStore => true
  | held => true
  | unlockDec => true
  | _ => false

/-- Past {lit}`lock`, or certain to be without waiting, and not yet done with the
hand-over. -/
def inside : Pc κ → Bool
  | lockStore => true
  | ready => true
  | tryStore => true
  | held => true
  | unlockDec => true
  | unlockPop => true
  | unlockStore _ => true
  | unlockWake _ => true
  | _ => false

/-- In {lit}`unlock`, after the decrement that found somebody waiting. -/
def passing : Pc κ → Bool
  | unlockPop => true
  | unlockStore _ => true
  | unlockWake _ => true
  | _ => false

/-- {lit}`tid_` is the coroutine's task id. -/
def owns : Pc κ → Bool
  | ready => true
  | held => true
  | _ => false

/-- The item popped and not yet handed to {lit}`wakeUpReady`. -/
def item : Pc κ → Option (WaitItem κ)
  | unlockStore newItem => some newItem
  | unlockWake newItem => some newItem
  | _ => none

theorem inside_of_owns {p : Pc κ} (h : p.owns = true) : p.inside = true := by
  cases p <;> simp_all [owns, inside]

theorem inside_of_passing {p : Pc κ} (h : p.passing = true) : p.inside = true := by
  cases p <;> simp_all [passing, inside]

theorem inside_of_item {p : Pc κ} {x : WaitItem κ} (h : p.item = some x) :
    p.inside = true := by
  cases p <;> simp_all [item, inside]

theorem counted_or_passing {p : Pc κ} (h : p.inside = true) :
    p.counted = true ∨ p.passing = true := by
  cases p <;> simp_all [counted, inside, passing]

end Pc

/-! ## The invariant -/

/-- Whose turn it is. -/
structure Turn (tid : κ → Int) (s : State κ) : Prop where
  tcb : s.tcb = tid
  exclusive : ∀ j k, (s.pc j).inside = true → (s.pc k).inside = true → j = k
  owner : ∀ k, (s.pc k).owns = true → s.tid_ = tid k
  handed : ∀ k x, s.pc k = .unlockWake x → s.tid_ = tid x.h_

/-- What {lit}`waiter_` counts. -/
structure Count [Fintype κ] (s : State κ) : Prop where
  counter : s.waiter_.toNat = census fun k => (s.pc k).counted
  passing : ∀ k, (s.pc k).passing = true → s.waiter_ ≠ 0
  token : s.waiter_ ≠ 0 → ∃ k, (s.pc k).inside = true

/-- The coroutines suspended in {lit}`lock`: {lit}`hand` is the item popped from {lit}`items_` by
an {lit}`unlock` that has not woken it yet. -/
structure Line (tid : κ → Int) (s : State κ) (hand : List κ) (es : List (Event κ)) :
    Prop where
  order : queued es = woken es ++ (hand ++ s.items_.map WaitItem.h_)
  waiting : ∀ k, k ∈ hand ++ s.items_.map WaitItem.h_ ↔ s.pc k = .suspended
  nodup : (hand ++ s.items_.map WaitItem.h_).Nodup
  inHand : ∀ k x, (s.pc k).item = some x → hand = [x.h_] ∧ x.tid_ = tid x.h_
  noHand : (∀ k, (s.pc k).item = none) → hand = []
  tids : ∀ x ∈ s.items_, x.tid_ = tid x.h_

/-- The invariant of a mutex used with discipline. -/
structure Inv [Fintype κ] (tid : κ → Int) (s : State κ) (hand : List κ)
    (es : List (Event κ)) : Prop where
  turn : Turn tid s
  count : Count s
  line : Line tid s hand es

variable {tid : κ → Int} {s s' : State κ} {hand : List κ} {es : List (Event κ)} {k : κ}
  {p : Pc κ}

section Frames

variable [DecidableEq κ]

/-- {lit}`tid_` is written, and the inside entered, only by a coroutine that is inside
or while nobody is. -/
theorem Turn.goto (h : Turn tid s) (hpc : s'.pc = Function.update s.pc k p)
    (htcb : s'.tcb = s.tcb)
    (hturn : ((s.pc k).inside = true ∨ ∀ j, (s.pc j).inside = false) ∨
      (s'.tid_ = s.tid_ ∧ p.inside = false))
    (hown : p.owns = true → s'.tid_ = tid k)
    (hhand : ∀ x, p = .unlockWake x → s'.tid_ = tid x.h_) : Turn tid s' := by
  -- another coroutine that is inside sees the old `tid_`
  have hother : ∀ j, j ≠ k → (s.pc j).inside = true → s'.tid_ = s.tid_ ∧ p.inside = false := by
    intro j hj hin
    rcases hturn with (hk | hnone) | hkeep
    · exact absurd (h.exclusive j k hin hk) hj
    · exact absurd hin (by simp [hnone j])
    · exact hkeep
  refine ⟨htcb.trans h.tcb, ?_, ?_, ?_⟩
  · intro i j hi hj
    rw [hpc] at hi hj
    by_cases hik : i = k <;> by_cases hjk : j = k
    · rw [hik, hjk]
    · subst i
      rw [Function.update_self] at hi
      rw [Function.update_of_ne hjk] at hj
      simp [(hother j hjk hj).2] at hi
    · subst j
      rw [Function.update_self] at hj
      rw [Function.update_of_ne hik] at hi
      simp [(hother i hik hi).2] at hj
    · rw [Function.update_of_ne hik] at hi
      rw [Function.update_of_ne hjk] at hj
      exact h.exclusive i j hi hj
  · intro j hj
    rw [hpc] at hj
    by_cases hjk : j = k
    · subst j
      exact hown (by simpa using hj)
    · rw [Function.update_of_ne hjk] at hj
      rw [(hother j hjk (Pc.inside_of_owns hj)).1]
      exact h.owner j hj
  · intro j x hj
    rw [hpc] at hj
    by_cases hjk : j = k
    · subst j
      exact hhand x (by simpa using hj)
    · rw [Function.update_of_ne hjk] at hj
      rw [(hother j hjk (by rw [hj]; rfl)).1]
      exact h.handed j x hj

/-- A step outside {lit}`items_` of a coroutine that is not suspended and has no item. -/
theorem Line.goto (h : Line tid s hand es) (hpc : s'.pc = Function.update s.pc k p)
    (hitems : s'.items_ = s.items_) (hk : s.pc k ≠ .suspended) (hp : p ≠ .suspended)
    (hitem : p.item = (s.pc k).item) : Line tid s' hand es := by
  have hsame : ∀ j, (s'.pc j).item = (s.pc j).item := by
    intro j
    rw [hpc]
    exact update_keep Pc.item hitem j
  refine ⟨?_, ?_, ?_, ?_, ?_, ?_⟩
  · rw [hitems]
    exact h.order
  · intro j
    rw [hitems, hpc, h.waiting]
    by_cases hjk : j = k
    · subst j
      simp [hk, hp]
    · rw [Function.update_of_ne hjk]
  · rw [hitems]
    exact h.nodup
  · intro j x hj
    exact h.inHand j x (hsame j ▸ hj)
  · intro hnone
    exact h.noHand fun j => hsame j ▸ hnone j
  · rw [hitems]
    exact h.tids

end Frames

/-! ## The counter -/

variable [Fintype κ]

/-- With {lit}`waiter_` at 0 nobody is inside. -/
theorem Count.none_inside (h : Count s) (hw : s.waiter_ = 0) (k : κ) :
    (s.pc k).inside = false := by
  cases hk : (s.pc k).inside with
  | false => rfl
  | true =>
      rcases Pc.counted_or_passing hk with hc | hp
      · have hpos : 0 < census fun j => (s.pc j).counted := census_pos.mpr ⟨k, hc⟩
        rw [← h.counter, hw] at hpos
        exact absurd hpos (lt_irrefl 0)
      · exact absurd hw (h.passing k hp)

/-- A coroutine that is counted keeps {lit}`waiter_` positive. -/
theorem Count.waiter_ne_zero (h : Count s) {k : κ} (hk : (s.pc k).counted = true) :
    s.waiter_ ≠ 0 := by
  intro hw
  have hpos : 0 < census fun j => (s.pc j).counted := census_pos.mpr ⟨k, hk⟩
  rw [← h.counter, hw] at hpos
  exact absurd hpos (lt_irrefl 0)

/-- While nobody has popped an item the hand is empty. -/
theorem Inv.hand_eq_nil (h : Inv tid s hand es) (hin : (s.pc k).inside = true)
    (hitem : (s.pc k).item = none) : hand = [] := by
  refine h.line.noHand fun j => ?_
  cases hj : (s.pc j).item with
  | none => rfl
  | some x =>
      have hjk : j = k := h.turn.exclusive j k (Pc.inside_of_item hj) hin
      rw [hjk, hitem] at hj
      cases hj

variable [DecidableEq κ]

/-- A step that leaves {lit}`waiter_` alone. -/
theorem Count.goto (h : Count s) (hpc : s'.pc = Function.update s.pc k p)
    (hw : s'.waiter_ = s.waiter_) (hcounted : p.counted = (s.pc k).counted)
    (hpassing : p.passing = true → s.waiter_ ≠ 0)
    (hin : (s.pc k).inside = true → p.inside = true) : Count s' := by
  refine ⟨?_, ?_, ?_⟩
  · rw [hw, hpc, census_keep hcounted]
    exact h.counter
  · intro j hj
    rw [hpc] at hj
    rw [hw]
    by_cases hjk : j = k
    · subst j
      exact hpassing (by simpa using hj)
    · exact h.passing j (by rwa [Function.update_of_ne hjk] at hj)
  · intro hne
    rw [hw] at hne
    rcases h.token hne with ⟨j, hj⟩
    refine ⟨j, ?_⟩
    rw [hpc]
    by_cases hjk : j = k
    · subst j
      rw [Function.update_self]
      exact hin hj
    · rw [Function.update_of_ne hjk]
      exact hj

/-- A step that increments {lit}`waiter_`. -/
theorem Count.gain (h : Count s) (hpc : s'.pc = Function.update s.pc k p)
    (hw : s'.waiter_.toNat = s.waiter_.toNat + 1) (hk : (s.pc k).counted = false)
    (hp : p.counted = true) (hkin : (s.pc k).inside = false)
    (hin : s.waiter_ = 0 → p.inside = true) : Count s' := by
  have hne : s'.waiter_ ≠ 0 := by
    intro hzero
    rw [hzero] at hw
    exact absurd hw (by simp)
  refine ⟨?_, fun _ _ => hne, fun _ => ?_⟩
  · rw [hw, hpc, census_gain hk hp, h.counter]
  · rw [hpc]
    by_cases hzero : s.waiter_ = 0
    · exact ⟨k, by simpa using hin hzero⟩
    · rcases h.token hzero with ⟨j, hj⟩
      have hjk : j ≠ k := by
        rintro rfl
        simp [hkin] at hj
      exact ⟨j, by simpa [Function.update_of_ne hjk] using hj⟩

/-! ## Every action keeps the invariant -/

/-- {lit}`lock`: the increment never wraps, and it enters when the mutex is unused. -/
theorem Inv.lock (h : Inv tid s hand es) (hcard : Fintype.card κ < 2 ^ 32)
    (hk : s.pc k = .out) : Inv tid (lock s k) hand es := by
  have hpc : (MuCore.lock s k).pc =
      Function.update s.pc k (if s.waiter_ = 0 then .lockStore else .lockQueue) := rfl
  refine ⟨?_, ?_, ?_⟩
  · refine h.turn.goto hpc rfl ?_ ?_ ?_
    · by_cases hw : s.waiter_ = 0
      · exact Or.inl (Or.inr (h.count.none_inside hw))
      · exact Or.inr ⟨rfl, by rw [if_neg hw]; rfl⟩
    · split <;> simp [Pc.owns]
    · split <;> simp
  · refine h.count.gain hpc ?_ (by rw [hk]; rfl) (by split <;> rfl) (by rw [hk]; rfl) ?_
    · -- one more coroutine is counted, and there are fewer than `2 ^ 32` of them
      have hgain := census_gain (g := Pc.counted) (f := s.pc) (k := k) (x := .lockQueue)
        (by rw [hk]; rfl) rfl
      have hle := census_le fun j => (Function.update s.pc k .lockQueue j).counted
      rw [hgain, ← h.count.counter] at hle
      change (s.waiter_ + 1).toNat = s.waiter_.toNat + 1
      rw [UInt32.toNat_add, UInt32.toNat_one]
      exact Nat.mod_eq_of_lt (hle.trans_lt hcard)
    · intro hw
      rw [if_pos hw]
      rfl
  · refine h.line.goto hpc rfl (by rw [hk]; simp) ?_ ?_
    · split <;> simp
    · rw [hk]
      split <;> rfl

/-- {lit}`try_to_lock`: the compare-exchange enters only an unused mutex. -/
theorem Inv.tryLock (h : Inv tid s hand es) (hk : s.pc k = .out) :
    Inv tid (tryLock s k) hand es := by
  unfold MuCore.tryLock
  by_cases hw : s.waiter_ = 0
  · rw [if_pos hw]
    refine ⟨?_, ?_, ?_⟩
    · exact h.turn.goto (k := k) (p := .tryStore) rfl rfl
        (Or.inl (Or.inr (h.count.none_inside hw))) (by simp [Pc.owns]) (by simp)
    · exact h.count.gain (k := k) (p := .tryStore) rfl (by simp [hw]) (by rw [hk]; rfl) rfl
        (by rw [hk]; rfl) fun _ => rfl
    · exact h.line.goto (k := k) (p := .tryStore) rfl rfl (by rw [hk]; simp) (by simp)
        (by rw [hk]; rfl)
  · rw [if_neg hw]
    exact h

/-- {lit}`unlock`: the compare-exchange of an owner succeeds. -/
theorem Inv.unlock (h : Inv tid s hand es) (hk : s.pc k = .held) :
    Inv tid (unlock s k) hand es := by
  have howner : s.tid_ = s.tcb k := by
    rw [h.turn.tcb]
    exact h.turn.owner k (by rw [hk]; rfl)
  unfold MuCore.unlock
  rw [if_pos howner]
  refine ⟨?_, ?_, ?_⟩
  · exact h.turn.goto (k := k) (p := .unlockDec) rfl rfl (Or.inl (Or.inl (by rw [hk]; rfl)))
      (by simp [Pc.owns]) (by simp)
  · exact h.count.goto (k := k) (p := .unlockDec) rfl rfl (by rw [hk]; rfl) (by simp [Pc.passing])
      fun _ => rfl
  · exact h.line.goto (k := k) (p := .unlockDec) rfl rfl (by rw [hk]; simp) (by simp)
      (by rw [hk]; rfl)

/-- The store of {lit}`tid_` that completes {lit}`lock` or {lit}`try_to_lock`. -/
theorem Inv.storeTid (h : Inv tid s hand es) (hk : s.pc k = .lockStore ∨ s.pc k = .tryStore) :
    Inv tid ({ s with tid_ := s.tcb k }.goto k .held) hand es := by
  have hin : (s.pc k).inside = true := by
    rcases hk with hk | hk <;> rw [hk] <;> rfl
  refine ⟨?_, ?_, ?_⟩
  · refine h.turn.goto (k := k) (p := .held) rfl rfl (Or.inl (Or.inl hin)) ?_ (by simp)
    intro _
    change s.tcb k = tid k
    rw [h.turn.tcb]
  · refine h.count.goto (k := k) (p := .held) rfl rfl ?_ (by simp [Pc.passing]) fun _ => rfl
    rcases hk with hk | hk <;> rw [hk] <;> rfl
  · refine h.line.goto (k := k) (p := .held) rfl rfl ?_ (by simp) ?_
    · rcases hk with hk | hk <;> rw [hk] <;> simp
    · rcases hk with hk | hk <;> rw [hk] <;> rfl

/-- A woken coroutine runs again. -/
theorem Inv.resume (h : Inv tid s hand es) (hk : s.pc k = .ready) :
    Inv tid (s.goto k .held) hand es := by
  refine ⟨?_, ?_, ?_⟩
  · exact h.turn.goto (k := k) (p := .held) rfl rfl (Or.inl (Or.inl (by rw [hk]; rfl)))
      (fun _ => h.turn.owner k (by rw [hk]; rfl)) (by simp)
  · exact h.count.goto (k := k) (p := .held) rfl rfl (by rw [hk]; rfl) (by simp [Pc.passing])
      fun _ => rfl
  · exact h.line.goto (k := k) (p := .held) rfl rfl (by rw [hk]; simp) (by simp)
      (by rw [hk]; rfl)

/-- A coroutine that found the mutex in use joins the end of the line. -/
theorem Inv.enqueue (h : Inv tid s hand es) (hk : s.pc k = .lockQueue) :
    Inv tid ({ s with items_ := s.items_ ++ [WaitItem.mk (s.tcb k) k] }.goto k .suspended) hand
      (es ++ [.queued k]) := by
  have hnot : k ∉ hand ++ s.items_.map WaitItem.h_ := by
    rw [h.line.waiting, hk]
    simp
  have hitem : ∀ j, (Function.update s.pc k .suspended j).item = (s.pc j).item :=
    update_keep Pc.item (by rw [hk]; rfl)
  refine ⟨?_, ?_, ?_, ?_, ?_, ?_, ?_, ?_⟩
  · exact h.turn.goto (k := k) (p := .suspended) rfl rfl (Or.inr ⟨rfl, rfl⟩) (by simp [Pc.owns])
      (by simp)
  · exact h.count.goto (k := k) (p := .suspended) rfl rfl (by rw [hk]; rfl) (by simp [Pc.passing])
      (by simp [hk, Pc.inside])
  · have horder := h.line.order
    simp only [queued, woken] at horder ⊢
    simp [horder]
  · intro j
    have hwait := h.line.waiting j
    by_cases hjk : j = k
    · subst j
      simp
    · rw [State.goto_pc, Function.update_of_ne hjk, ← hwait]
      simp [hjk]
  · rw [State.goto_items, List.map_append, ← List.append_assoc]
    exact List.nodup_append.mpr ⟨h.line.nodup, by simp, fun a ha b hb hab => hnot (by
      have hbk : b = k := by simpa using hb
      rwa [← hbk, ← hab])⟩
  · intro j x hj
    exact h.line.inHand j x (by rwa [State.goto_pc, hitem] at hj)
  · intro hnone
    refine h.line.noHand fun j => ?_
    have hj := hnone j
    rwa [State.goto_pc, hitem] at hj
  · intro x hx
    rcases List.mem_append.mp hx with hx | hx
    · exact h.line.tids x hx
    · rw [List.mem_singleton.mp hx, h.turn.tcb]

/-- The decrement of {lit}`unlock`: with nobody else counted the mutex is unused again. -/
theorem Inv.decrement (h : Inv tid s hand es) (hk : s.pc k = .unlockDec) :
    Inv tid ({ s with waiter_ := s.waiter_ - 1 }.goto k
      (if 1 < s.waiter_ then .unlockPop else .out)) hand es := by
  have hin : (s.pc k).inside = true := by
    rw [hk]
    rfl
  have hne : s.waiter_ ≠ 0 := h.count.waiter_ne_zero (k := k) (by rw [hk]; rfl)
  have hpos : 1 ≤ s.waiter_.toNat := by
    rw [Nat.one_le_iff_ne_zero]
    intro hzero
    exact hne (UInt32.toNat_inj.mp (by simpa using hzero))
  have hsub : (s.waiter_ - 1).toNat = s.waiter_.toNat - 1 := by
    rw [UInt32.toNat_sub_of_le _ _ (by simpa [UInt32.le_iff_toNat_le] using hpos),
      UInt32.toNat_one]
  have hmore : s.waiter_ - 1 ≠ 0 ↔ 1 < s.waiter_ := by
    rw [UInt32.lt_iff_toNat_lt, UInt32.toNat_one, ne_eq, ← UInt32.toNat_inj, hsub,
      UInt32.toNat_zero]
    omega
  refine ⟨?_, ⟨?_, ?_, ?_⟩, ?_⟩
  · refine h.turn.goto (k := k) rfl rfl (Or.inl (Or.inl hin)) ?_ ?_
    · split <;> simp [Pc.owns]
    · split <;> simp
  · have hlose := census_lose (g := Pc.counted) (f := s.pc) (k := k)
      (x := if 1 < s.waiter_ then .unlockPop else .out) (by rw [hk]; rfl) (by split <;> rfl)
    rw [← h.count.counter] at hlose
    change (s.waiter_ - 1).toNat = _
    rw [hsub, hlose]
    rfl
  · intro j hj
    by_cases hjk : j = k
    · subst j
      refine hmore.mpr ?_
      by_contra hnot
      simp [hnot, Pc.passing] at hj
    · rw [State.goto_pc, Function.update_of_ne hjk] at hj
      exact absurd (h.turn.exclusive j k (Pc.inside_of_passing hj) hin) hjk
  · intro hleft
    refine ⟨k, ?_⟩
    rw [State.goto_pc, Function.update_self, if_pos (hmore.mp hleft)]
    rfl
  · refine h.line.goto (k := k) rfl rfl (by rw [hk]; simp) ?_ ?_
    · split <;> simp
    · rw [hk]
      split <;> rfl

/-- The successful dequeue: the first of the line moves into the hand. -/
theorem Inv.pop {newItem : WaitItem κ} {items : List (WaitItem κ)} (h : Inv tid s hand es)
    (hk : s.pc k = .unlockPop) (hitems : s.items_ = newItem :: items) :
    Inv tid ({ s with items_ := items }.goto k (.unlockStore newItem)) [newItem.h_] es := by
  have hin : (s.pc k).inside = true := by
    rw [hk]
    rfl
  have hhand : hand = [] := h.hand_eq_nil hin (by rw [hk]; rfl)
  have hline := h.line
  rw [hhand] at hline
  have hlist : [] ++ s.items_.map WaitItem.h_ =
      [newItem.h_] ++ items.map WaitItem.h_ := by simp [hitems]
  refine ⟨?_, ?_, ?_, ?_, ?_, ?_, ?_, ?_⟩
  · exact h.turn.goto (k := k) rfl rfl (Or.inl (Or.inl hin)) (by simp [Pc.owns]) (by simp)
  · exact h.count.goto (k := k) rfl rfl (by rw [hk]; rfl)
      (fun _ => h.count.passing k (by rw [hk]; rfl)) fun _ => rfl
  · rw [State.goto_items, ← hlist]
    exact hline.order
  · intro j
    rw [State.goto_items, ← hlist, hline.waiting]
    by_cases hjk : j = k
    · subst j
      simp [hk]
    · rw [State.goto_pc, Function.update_of_ne hjk]
  · rw [State.goto_items, ← hlist]
    exact hline.nodup
  · intro j x hj
    by_cases hjk : j = k
    · subst j
      have hx : newItem = x := by simpa [Pc.item] using hj
      exact ⟨by rw [hx], hline.tids x (by simp [hitems, hx])⟩
    · rw [State.goto_pc, Function.update_of_ne hjk] at hj
      exact absurd (h.turn.exclusive j k (Pc.inside_of_item hj) hin) hjk
  · intro hnone
    simpa [Pc.item] using hnone k
  · intro x hx
    exact hline.tids x (by rw [hitems]; exact List.mem_cons_of_mem _ hx)

/-- {lit}`tid_` gets the task id of the coroutine in hand. -/
theorem Inv.handOver {newItem : WaitItem κ} (h : Inv tid s hand es)
    (hk : s.pc k = .unlockStore newItem) :
    Inv tid ({ s with tid_ := newItem.tid_ }.goto k (.unlockWake newItem)) hand es := by
  refine ⟨?_, ?_, ?_⟩
  · refine h.turn.goto (k := k) rfl rfl (Or.inl (Or.inl (by rw [hk]; rfl))) (by simp [Pc.owns]) ?_
    intro x hx
    cases hx
    exact (h.line.inHand k newItem (by rw [hk]; rfl)).2
  · exact h.count.goto (k := k) rfl rfl (by rw [hk]; rfl)
      (fun _ => h.count.passing k (by rw [hk]; rfl)) fun _ => rfl
  · exact h.line.goto (k := k) rfl rfl (by rw [hk]; simp) (by simp) (by rw [hk]; rfl)

/-- {lit}`wakeUpReady`: the coroutine in hand is inside in place of the one that unlocked. -/
theorem Inv.wake {newItem : WaitItem κ} (h : Inv tid s hand es)
    (hk : s.pc k = .unlockWake newItem) :
    Inv tid ((s.goto newItem.h_ .ready).goto k .out) [] (es ++ [.woken newItem.h_]) := by
  have hin : (s.pc k).inside = true := by
    rw [hk]
    rfl
  have hhand : hand = [newItem.h_] := (h.line.inHand k newItem (by rw [hk]; rfl)).1
  have hsusp : s.pc newItem.h_ = .suspended := by
    rw [← h.line.waiting, hhand]
    simp
  have hne : newItem.h_ ≠ k := by
    intro heq
    rw [heq, hk] at hsusp
    cases hsusp
  -- afterwards the woken coroutine is the only one inside
  have hpc : ∀ j, j ≠ newItem.h_ →
      (((s.goto newItem.h_ .ready).goto k .out).pc j).inside = false := by
    intro j hj
    by_cases hjk : j = k
    · subst j
      simp [Pc.inside]
    · rw [State.goto_pc, Function.update_of_ne hjk, State.goto_pc, Function.update_of_ne hj]
      cases hjin : (s.pc j).inside with
      | false => rfl
      | true => exact absurd (h.turn.exclusive j k hjin hin) hjk
  have hready : ((s.goto newItem.h_ .ready).goto k .out).pc newItem.h_ = .ready := by
    simp [Function.update_of_ne hne]
  have honly : ∀ j, (((s.goto newItem.h_ .ready).goto k .out).pc j).inside = true →
      j = newItem.h_ := by
    intro j hj
    by_contra hne'
    rw [hpc j hne'] at hj
    cases hj
  have hnoItem : ∀ j, (((s.goto newItem.h_ .ready).goto k .out).pc j).item = none := by
    intro j
    cases hj : (((s.goto newItem.h_ .ready).goto k .out).pc j).item with
    | none => rfl
    | some x =>
        rw [honly j (Pc.inside_of_item hj), hready] at hj
        cases hj
  have hline := h.line
  rw [hhand] at hline
  refine ⟨⟨h.turn.tcb, ?_, ?_, ?_⟩, ⟨?_, ?_, ?_⟩, ⟨?_, ?_, ?_, ?_, ?_, hline.tids⟩⟩
  · intro i j hi hj
    rw [honly i hi, honly j hj]
  · intro j hj
    rw [honly j (Pc.inside_of_owns hj)]
    exact h.turn.handed k newItem hk
  · intro j x hj
    have hjin := honly j (by rw [hj]; rfl)
    rw [hjin, hready] at hj
    cases hj
  · rw [State.goto_pc, census_keep (by simp [Function.update_of_ne hne.symm, hk]; rfl),
      State.goto_pc, census_keep (by rw [hsusp]; rfl)]
    exact h.count.counter
  · intro j hj
    have hjin := honly j (Pc.inside_of_passing hj)
    rw [hjin, hready] at hj
    cases hj
  · exact fun _ => ⟨newItem.h_, by rw [hready]; rfl⟩
  · have horder := hline.order
    simp only [queued, woken] at horder ⊢
    simpa using horder
  · intro j
    have hwait := hline.waiting j
    have hnodup := List.nodup_cons.mp hline.nodup
    by_cases hj : j = newItem.h_
    · subst j
      rw [hready]
      simpa using hnodup.1
    · by_cases hjk : j = k
      · subst j
        rw [hk] at hwait
        simp_all
      · rw [State.goto_pc, Function.update_of_ne hjk, State.goto_pc, Function.update_of_ne hj,
          ← hwait]
        simp [hj]
  · exact (List.nodup_cons.mp hline.nodup).2
  · intro j x hj
    rw [hnoItem j] at hj
    cases hj
  · exact fun _ => rfl

/-! ## The invariant along runs -/

/-- The next action of a coroutine keeps the invariant. -/
theorem Inv.advance (h : Inv tid s hand es) (hstep : advance s k = some s') :
    ∃ hand', Inv tid s' hand' (es ++ emit s (.go k)) := by
  unfold MuCore.advance at hstep
  unfold emit
  cases hk : s.pc k <;> simp only [hk, reduceCtorEq] at hstep ⊢
  case lockStore =>
    cases hstep
    exact ⟨hand, by simpa using h.storeTid (Or.inl hk)⟩
  case lockQueue =>
    cases hstep
    exact ⟨hand, h.enqueue hk⟩
  case ready =>
    cases hstep
    exact ⟨hand, by simpa using h.resume hk⟩
  case tryStore =>
    cases hstep
    exact ⟨hand, by simpa using h.storeTid (Or.inr hk)⟩
  case unlockDec =>
    cases hstep
    exact ⟨hand, by simpa using h.decrement hk⟩
  case unlockPop =>
    split at hstep
    next =>
      cases hstep
      exact ⟨hand, by simpa using h⟩
    next newItem items hitems =>
      cases hstep
      exact ⟨_, by simpa using h.pop hk hitems⟩
  case unlockStore newItem =>
    cases hstep
    exact ⟨hand, by simpa using h.handOver hk⟩
  case unlockWake newItem =>
    cases hstep
    exact ⟨[], h.wake hk⟩

/-- A disciplined action keeps the invariant. -/
theorem Inv.step {a : Action κ} (h : Inv tid s hand es) (hcard : Fintype.card κ < 2 ^ 32)
    (hok : Disciplined s a) (hstep : step s a = some s') :
    ∃ hand', Inv tid s' hand' (es ++ emit s a) := by
  cases a with
  | lock k =>
      change s.pc k = .out at hok
      have hs : some (MuCore.lock s k) = some s' := by simpa [MuCore.step, hok, Pc.free] using hstep
      cases hs
      exact ⟨hand, by simpa [emit] using h.lock hcard hok⟩
  | tryLock k =>
      change s.pc k = .out at hok
      have hs : some (MuCore.tryLock s k) = some s' := by
        simpa [MuCore.step, hok, Pc.free] using hstep
      cases hs
      exact ⟨hand, by simpa [emit] using h.tryLock hok⟩
  | unlock k =>
      change s.pc k = .held at hok
      have hs : some (MuCore.unlock s k) = some s' := by
        simpa [MuCore.step, hok, Pc.free] using hstep
      cases hs
      exact ⟨hand, by simpa [emit] using h.unlock hok⟩
  | go k => exact h.advance hstep

omit [DecidableEq κ] in
/-- An unused mutex and coroutines in no call. -/
theorem inv_construct (tid : κ → Int) : Inv tid (State.construct tid) [] [] where
  turn := by
    refine ⟨rfl, ?_, ?_, ?_⟩ <;> simp [State.construct, Pc.inside, Pc.owns]
  count := by
    refine ⟨?_, ?_, ?_⟩
    · exact (census_eq_zero.mpr fun _ => rfl).symm
    · simp [State.construct, Pc.passing]
    · simp [State.construct]
  line := by
    refine ⟨rfl, ?_, ?_, ?_, ?_, ?_⟩ <;> simp [State.construct, Pc.item]

/-- The mutex used with discipline, with the record of its queue. -/
def disciplinedMachine (tid : κ → Int) : Machine (State κ × List (Event κ)) (Action κ) :=
  ((machine tid).restrict Disciplined).observe emit

/-- The invariant holds along every disciplined run. -/
theorem inductive_inv (tid : κ → Int) (hcard : Fintype.card κ < 2 ^ 32) :
    (disciplinedMachine tid).Inductive fun s => ∃ hand, Inv tid s.1 hand s.2 where
  init := by
    rintro ⟨s, es⟩ ⟨rfl, rfl⟩
    exact ⟨[], inv_construct tid⟩
  step := by
    rintro ⟨s, es⟩ a ⟨s', es'⟩ ⟨hand, h⟩ hstep
    rcases Machine.observe_step_eq_some.mp hstep with ⟨hs, rfl⟩
    rcases Machine.restrict_step_eq_some.mp hs with ⟨hok, hs⟩
    exact h.step hcard hok hs

end MuCore
end CoEpoll
