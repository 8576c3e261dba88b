import CoEpoll.CoKernel.MuCore.Exclusion
import Mathlib.Order.Interval.Finset.Defs
import Mathlib.Data.Int.Interval

/-!
# `MuCore`: every suspended coroutine is woken once and in order

The coroutine inside can always go on: it finishes its {lit}`lock`, calls {lit}`unlock`, and
its hand-over finds the first of the line.  So the line moves, and each of its
coroutines can reach {lit}`wakeUpReady`.

Main results:

- Theorem {lit}`Inv.turnover`: the first of the line can be woken.
- Theorem {lit}`Inv.exists_woken`: so can every suspended coroutine.
- Theorem {lit}`mutex_safe`: exclusion, the meaning of {lit}`waiter_`, the order of the
  wake-ups and the state of an unused mutex, in every disciplined run.
-/

namespace CoEpoll
namespace MuCore

open Transition

variable {κ : Type*} [Fintype κ] [DecidableEq κ] {tid : κ → Int} {s s' : State κ}
  {hand : List κ} {es es' : List (Event κ)} {j k x : κ}

/-! ## The line moves -/

/-- A run after which {lit}`x` is woken and {lit}`rest` is the line. -/
def CanWake (tid : κ → Int) (s : State κ) (es : List (Event κ)) (x : κ) (rest : List κ) :
    Prop :=
  ∃ as t es', (disciplinedMachine tid).run (s, es) as = some (t, es') ∧
    t.pc x = .ready ∧ Inv tid t [] es' ∧ t.items_.map WaitItem.h_ = rest

theorem CanWake.of_step {rest : List κ} {a : Action κ} (hok : Disciplined s a)
    (hstep : step s a = some s') (h : CanWake tid s' (es ++ emit s a) x rest) :
    CanWake tid s es x rest := by
  rcases h with ⟨as, t, es', hrun, hx⟩
  refine ⟨a :: as, t, es', Machine.run_cons_eq_some.mpr ⟨_, ?_, hrun⟩, hx⟩
  exact Machine.observe_step_eq_some.mpr
    ⟨Machine.restrict_step_eq_some.mpr ⟨hok, hstep⟩, rfl⟩

/-- At {lit}`wakeUpReady` the coroutine in hand is woken. -/
theorem Inv.canWake_unlockWake {newItem : WaitItem κ} (h : Inv tid s hand es)
    (hk : s.pc k = .unlockWake newItem) :
    CanWake tid s es newItem.h_ (s.items_.map WaitItem.h_) := by
  have hsusp : s.pc newItem.h_ = .suspended := by
    rw [← h.line.waiting, (h.line.inHand k newItem (by rw [hk]; rfl)).1]
    simp
  have hne : newItem.h_ ≠ k := by
    intro heq
    rw [heq, hk] at hsusp
    cases hsusp
  have hstep : MuCore.step s (.go k) = some ((s.goto newItem.h_ .ready).goto k .out) := by
    simp [MuCore.step, MuCore.advance, hk]
  have hemit : emit s (.go k) = [.woken newItem.h_] := by simp [emit, hk]
  refine CanWake.of_step (a := .go k) trivial hstep ?_
  rw [hemit]
  exact ⟨[], _, _, rfl, by simp [Function.update_of_ne hne], h.wake hk, rfl⟩

/-- An {lit}`unlock` that has popped an item wakes it. -/
theorem Inv.canWake_unlockStore {newItem : WaitItem κ} (h : Inv tid s hand es)
    (hk : s.pc k = .unlockStore newItem) :
    CanWake tid s es newItem.h_ (s.items_.map WaitItem.h_) := by
  have hstep : MuCore.step s (.go k) =
      some ({ s with tid_ := newItem.tid_ }.goto k (.unlockWake newItem)) := by
    simp [MuCore.step, MuCore.advance, hk]
  have hemit : emit s (.go k) = [] := by simp [emit, hk]
  refine CanWake.of_step (a := .go k) trivial hstep ?_
  rw [hemit, List.append_nil]
  exact (h.handOver hk).canWake_unlockWake (k := k) (by simp)

/-- The dequeue of an {lit}`unlock` finds the first of the line. -/
theorem Inv.canWake_unlockPop {rest : List κ} (h : Inv tid s hand es)
    (hk : s.pc k = .unlockPop) (hline : hand ++ s.items_.map WaitItem.h_ = x :: rest) :
    CanWake tid s es x rest := by
  have hhand : hand = [] := h.hand_eq_nil (by rw [hk]; rfl) (by rw [hk]; rfl)
  rw [hhand] at hline
  cases hitems : s.items_ with
  | nil => simp [hitems] at hline
  | cons newItem items =>
      rw [hitems] at hline
      rcases List.cons.inj hline with ⟨hx, hrest⟩
      have hstep : MuCore.step s (.go k) =
          some ({ s with items_ := items }.goto k (.unlockStore newItem)) := by
        simp [MuCore.step, MuCore.advance, hk, hitems]
      have hemit : emit s (.go k) = [] := by simp [emit, hk]
      refine CanWake.of_step (a := .go k) trivial hstep ?_
      rw [hemit, List.append_nil, ← hx, ← hrest]
      exact (h.pop hk hitems).canWake_unlockStore (k := k) (by simp)

/-- The decrement of an {lit}`unlock` finds that somebody waits. -/
theorem Inv.canWake_unlockDec {rest : List κ} (h : Inv tid s hand es)
    (hk : s.pc k = .unlockDec) (hline : hand ++ s.items_.map WaitItem.h_ = x :: rest) :
    CanWake tid s es x rest := by
  have hsusp : s.pc x = .suspended := by
    rw [← h.line.waiting, hline]
    simp
  have hnext := h.decrement hk
  have hxk : x ≠ k := by
    rintro rfl
    rw [hk] at hsusp
    cases hsusp
  have hmore : 1 < s.waiter_ := by
    by_contra hnot
    rw [if_neg hnot] at hnext
    -- nobody would be inside, but `x` is still counted
    have hne := hnext.count.waiter_ne_zero (k := x) (by
      simp [Function.update_of_ne hxk, hsusp, Pc.counted])
    rcases hnext.count.token hne with ⟨i, hi⟩
    by_cases hik : i = k
    · subst i
      simp [Pc.inside] at hi
    · rw [State.goto_pc, Function.update_of_ne hik] at hi
      exact hik (h.turn.exclusive i k hi (by rw [hk]; rfl))
  rw [if_pos hmore] at hnext
  have hstep : MuCore.step s (.go k) =
      some ({ s with waiter_ := s.waiter_ - 1 }.goto k .unlockPop) := by
    simp [MuCore.step, MuCore.advance, hk, hmore]
  have hemit : emit s (.go k) = [] := by simp [emit, hk]
  refine CanWake.of_step (a := .go k) trivial hstep ?_
  rw [hemit, List.append_nil]
  exact hnext.canWake_unlockPop (k := k) (by simp) hline

/-- The owner calls {lit}`unlock`. -/
theorem Inv.canWake_held {rest : List κ} (h : Inv tid s hand es) (hk : s.pc k = .held)
    (hline : hand ++ s.items_.map WaitItem.h_ = x :: rest) : CanWake tid s es x rest := by
  have howner : s.tid_ = s.tcb k := by
    rw [h.turn.tcb]
    exact h.turn.owner k (by rw [hk]; rfl)
  have hunlock : MuCore.unlock s k = { s with tid_ := 0 }.goto k .unlockDec := if_pos howner
  have hstep : MuCore.step s (.unlock k) = some (MuCore.unlock s k) := by simp [MuCore.step, hk, Pc.free]
  have hnext := h.unlock hk
  refine CanWake.of_step (a := .unlock k) hk hstep ?_
  rw [hunlock] at hnext ⊢
  exact (by simpa [emit] using hnext.canWake_unlockDec (k := k) (by simp) hline)

/-- The first of the line can be woken. -/
theorem Inv.turnover {rest : List κ} (h : Inv tid s hand es)
    (hline : hand ++ s.items_.map WaitItem.h_ = x :: rest) : CanWake tid s es x rest := by
  have hsusp : s.pc x = .suspended := by
    rw [← h.line.waiting, hline]
    simp
  have hne := h.count.waiter_ne_zero (k := x) (by rw [hsusp]; rfl)
  rcases h.count.token hne with ⟨k, hin⟩
  -- two stores of `tid_` and the resumption lead to `held`
  have hheld : ∀ t, Inv tid t hand es → t.items_ = s.items_ → t.pc k = .held →
      MuCore.step s (.go k) = some t → emit s (.go k) = [] → CanWake tid s es x rest := by
    intro t hinv hitems hk hstep hemit
    refine CanWake.of_step (a := .go k) trivial hstep ?_
    rw [hemit, List.append_nil]
    exact hinv.canWake_held hk (by rw [hitems]; exact hline)
  cases hk : s.pc k with
  | out => simp [hk, Pc.inside] at hin
  | lockStore =>
      exact hheld _ (h.storeTid (Or.inl hk)) rfl (by simp) (by simp [MuCore.step, MuCore.advance, hk])
        (by simp [emit, hk])
  | lockQueue => simp [hk, Pc.inside] at hin
  | suspended => simp [hk, Pc.inside] at hin
  | ready =>
      exact hheld _ (h.resume hk) rfl (by simp) (by simp [MuCore.step, MuCore.advance, hk])
        (by simp [emit, hk])
  | tryStore =>
      exact hheld _ (h.storeTid (Or.inr hk)) rfl (by simp) (by simp [MuCore.step, MuCore.advance, hk])
        (by simp [emit, hk])
  | held => exact h.canWake_held hk hline
  | unlockDec => exact h.canWake_unlockDec hk hline
  | unlockPop => exact h.canWake_unlockPop hk hline
  | unlockStore newItem =>
      have hhand := (h.line.inHand k newItem (by rw [hk]; rfl)).1
      rw [hhand] at hline
      rcases List.cons.inj hline with ⟨hx, hrest⟩
      rw [← hx, ← hrest]
      exact h.canWake_unlockStore hk
  | unlockWake newItem =>
      have hhand := (h.line.inHand k newItem (by rw [hk]; rfl)).1
      rw [hhand] at hline
      rcases List.cons.inj hline with ⟨hx, hrest⟩
      rw [← hx, ← hrest]
      exact h.canWake_unlockWake hk

/-- Every suspended coroutine can be woken: the line moves until it is the first. -/
theorem Inv.exists_woken (h : Inv tid s hand es) (hk : s.pc k = .suspended) :
    ∃ as t es', (disciplinedMachine tid).run (s, es) as = some (t, es') ∧ t.pc k = .ready := by
  have hmem := (h.line.waiting k).mpr hk
  generalize hline : hand ++ s.items_.map WaitItem.h_ = line at hmem
  induction line generalizing s hand es with
  | nil => cases hmem
  | cons x rest ih =>
      rcases h.turnover hline with ⟨as, t, es', hrun, hx, hinv, hrest⟩
      by_cases hkx : k = x
      · subst k
        exact ⟨as, t, es', hrun, hx⟩
      · have hmem' : k ∈ rest := (List.mem_cons.mp hmem).resolve_left hkx
        have hk' : t.pc k = .suspended := by
          rw [← hinv.line.waiting, hrest]
          exact hmem'
        rcases ih hinv hk' hrest hmem' with ⟨bs, u, es'', hrun', hu⟩
        refine ⟨as ++ bs, u, es'', ?_, hu⟩
        rw [Machine.run_append, hrun]
        exact hrun'

/-! ## What the mutex guarantees -/

/-- What the users of the mutex rely on. -/
structure Safe (tid : κ → Int) (s : State κ) (es : List (Event κ)) : Prop where
  /-- At most one coroutine is past {lit}`lock` and not yet past the hand-over. -/
  exclusive : ∀ j k, (s.pc j).inside = true → (s.pc k).inside = true → j = k
  counter : s.waiter_.toNat = census fun k => (s.pc k).counted
  noWrap : ∀ k, s.pc k = .unlockDec → s.waiter_ ≠ 0
  /-- The wake-ups come in the order of {lit}`items_`; those to come are of the
  suspended coroutines. -/
  order : ∃ line, queued es = MuCore.woken es ++ line ∧ s.items_.map WaitItem.h_ <:+ line ∧
    line.Nodup ∧ ∀ k, k ∈ line ↔ s.pc k = .suspended
  once : ∀ k, (queued es).count k =
    (MuCore.woken es).count k + if s.pc k = .suspended then 1 else 0
  /-- No suspended coroutine is forgotten. -/
  canWake : ∀ k, s.pc k = .suspended → ∃ as t es',
    (disciplinedMachine tid).run (s, es) as = some (t, es') ∧ t.pc k = .ready
  unused : (∀ k, s.pc k = .out) → s.waiter_ = 0 ∧ s.items_ = []

/-- The invariant gives the users what they rely on. -/
theorem Inv.safe (h : Inv tid s hand es) : Safe tid s es where
  exclusive := h.turn.exclusive
  counter := h.count.counter
  noWrap k hk := h.count.waiter_ne_zero (k := k) (by rw [hk]; rfl)
  order := ⟨_, h.line.order, List.suffix_append _ _, h.line.nodup, h.line.waiting⟩
  once k := by
    rw [h.line.order, List.count_append, h.line.nodup.count]
    simp only [h.line.waiting]
  canWake _ hk := h.exists_woken hk
  unused hout := by
    constructor
    · by_contra hne
      rcases h.count.token hne with ⟨k, hk⟩
      simp [hout k, Pc.inside] at hk
    · have hnone : ∀ k, k ∉ hand ++ s.items_.map WaitItem.h_ := by
        intro k hk
        rw [h.line.waiting, hout k] at hk
        cases hk
      have hnil := List.eq_nil_iff_forall_not_mem.mpr hnone
      simpa using (List.append_eq_nil_iff.mp hnil).2

omit [DecidableEq κ] in
/-- Distinct positive task ids of type {lit}`int` leave room in {lit}`waiter_`. -/
theorem card_lt_of_tids (hinj : Function.Injective tid)
    (htid : ∀ k, 0 < tid k ∧ tid k < 2 ^ 31) : Fintype.card κ < 2 ^ 32 := by
  have hmaps : ∀ k ∈ (Finset.univ : Finset κ), tid k ∈ Finset.Ioo (0 : Int) (2 ^ 31) :=
    fun k _ => Finset.mem_Ioo.mpr (htid k)
  have hcard := Finset.card_le_card_of_injOn tid hmaps hinj.injOn
  rw [Int.card_Ioo] at hcard
  refine hcard.trans_lt ?_
  decide

/-- In every disciplined run of coroutines with distinct positive task ids the mutex
is safe. -/
theorem mutex_safe (hinj : Function.Injective tid) (htid : ∀ k, 0 < tid k ∧ tid k < 2 ^ 31)
    (s : State κ × List (Event κ)) (hs : (disciplinedMachine tid).Reachable s) :
    Safe tid s.1 s.2 := by
  rcases (inductive_inv tid (card_lt_of_tids hinj htid)).reachable hs with ⟨hand, h⟩
  exact h.safe

/-- Coroutine 0 locks, coroutine 1 waits and is handed the mutex. -/
theorem mutex_safe_handOver :
    ∃ s : State (Fin 2) × List (Event (Fin 2)),
      (disciplinedMachine fun k : Fin 2 => (k : Int) + 1).Reachable s ∧ s.1.tid_ = 2 ∧
        Safe (fun k : Fin 2 => (k : Int) + 1) s.1 s.2 := by
  have hrun : (((disciplinedMachine fun k : Fin 2 => (k : Int) + 1).run
      (State.construct fun k => (k : Int) + 1, [])
      [.lock 0, .lock 1, .go 0, .go 1, .unlock 0, .go 0, .go 0, .go 0, .go 0, .go 1]).map
        fun s => s.1.tid_) = some 2 := by
    decide +kernel
  rcases Option.map_eq_some_iff.mp hrun with ⟨s, hs, htid⟩
  have hreach : (disciplinedMachine fun k : Fin 2 => (k : Int) + 1).Reachable s :=
    ⟨(State.construct _, []), _, ⟨rfl, rfl⟩, hs⟩
  exact ⟨s, hreach, htid, mutex_safe (by decide) (by decide) s hreach⟩

end MuCore
end CoEpoll
