import CoEpoll.CoKernel.Irq.TimeWQ
import CoEpoll.Transition.Machine

/-!
# `TimeWQ`: who is woken, and in which order

The items are named by the order in which they have been emplaced.  {lit}`wakeup` is a generator: each
step takes it to the return of a callback, to a {lit}`co_yield` or to its end, and no other call on the
{lit}`TimeWQ` runs in between.

Main results:

- Theorem {lit}`Sorted.place`: both overloads of {lit}`addWait` keep equal deadlines in insertion order.
- Theorem {lit}`Inv.step`: the items that a walk has removed are the first ones, and they are due.
- Theorem {lit}`wakeup_exact`: every walk ends, and it serves exactly the items that are due, in order.
-/

namespace CoEpoll
namespace Irq
namespace TimeWQ
namespace Deadlines

open Transition

/-- What a walk does for an item. -/
inductive Event (κ γ : Type*) where
  /-- {lit}`iter->cb_()` -/
  | call (node : Nat) (cb : γ)
  /-- {lit}`co_yield h` -/
  | yield (h : κ)

/-- A call of {lit}`wakeup`: the {lit}`now` that it has sampled, the items before it and the items it leaves,
and what it has done. -/
structure Walk (τ κ γ : Type*) where
  now : τ
  before : List (TimeItem Nat τ κ γ)
  after : List (TimeItem Nat τ κ γ)
  events : List (Event κ γ)

/-- Where a call on the {lit}`TimeWQ` is. -/
inductive Pc (τ κ γ : Type*) where
  | idle
  /-- At the head of the loop in {lit}`wakeup`. -/
  | loop (w : Walk τ κ γ)
  /-- Behind {lit}`iter->cb_()`. -/
  | called (w : Walk τ κ γ)
  /-- Suspended at {lit}`co_yield`. -/
  | suspended (w : Walk τ κ γ)

/-- A {lit}`TimeWQ`, the number of items that have been emplaced, and the walks that have ended. -/
structure State (τ κ γ : Type*) where
  wq : TimeWQ Nat τ κ γ
  count : Nat
  pc : Pc τ κ γ
  walks : List (Walk τ κ γ)

/-- A new {lit}`TimeWQ`. -/
def State.construct {τ κ γ : Type*} : State τ κ γ where
  wq := TimeWQ.construct
  count := 0
  pc := .idle
  walks := []

inductive Action (τ κ γ : Type*) where
  /-- {lit}`addWait` with a handle and a callback, either of which may be empty. -/
  | addWait (h : Option κ) (when_ : τ) (cb : Option γ)
  /-- {lit}`addWait` without them. -/
  | addWaitWhen (when_ : τ)
  /-- The caller stores a handle or a callback through its iterator. -/
  | setHandle (it : Nat) (h : κ)
  | setCallback (it : Nat) (cb : γ)
  /-- {lit}`delWait` is called with an iterator to an item. -/
  | delWait (it : Nat)
  /-- {lit}`wakeup` is called and samples {lit}`now`. -/
  | wakeup (now : τ)
  /-- {lit}`wakeup` goes on. -/
  | go

variable {τ κ γ : Type*} [LinearOrder τ]

/-- {lit}`if (iter->cb_) iter->cb_()` -/
def calls (item : TimeItem Nat τ κ γ) : List (Event κ γ) :=
  item.cb_.toList.map (.call item.node)

/-- {lit}`if (h) co_yield h` -/
def yields (item : TimeItem Nat τ κ γ) : List (Event κ γ) :=
  item.h_.toList.map .yield

namespace State

variable (s : State τ κ γ)

/-- The walk is over. -/
def finish (w : Walk τ κ γ) : State τ κ γ :=
  { s with pc := .idle, walks := s.walks ++ [{ w with after := s.wq.items_ }] }

/-- The loop up to the return of the callback, or its end; {lit}`resetTimerfd` changes no item. -/
def iterate (w : Walk τ κ γ) : State τ κ γ :=
  match s.wq.turn w.now with
  | .finish => s.finish w
  | .rearm _ => s.finish w
  | .expire item => { s with pc := .called { w with events := w.events ++ calls item } }

/-- {lit}`auto h = iter->h_`, the erasure and the {lit}`co_yield`. -/
def erase (w : Walk τ κ γ) : State τ κ γ :=
  match s.wq.items_ with
  | [] => s
  | item :: items =>
      let w := { w with events := w.events ++ yields item }
      match item.h_ with
      | some _ => { s with wq := ⟨items⟩, pc := .suspended w }
      | none => { s with wq := ⟨items⟩, pc := .loop w }

/-- The next step of {lit}`wakeup`. -/
def go : Option (State τ κ γ) :=
  match s.pc with
  | .idle => none
  | .loop w => some (s.iterate w)
  | .called w => some (s.erase w)
  | .suspended w => some { s with pc := .loop w }

/-- A call that runs between the walks. -/
def outside (t : State τ κ γ) : Option (State τ κ γ) :=
  match s.pc with
  | .idle => some t
  | _ => none

/-- {lit}`it` is a valid iterator. -/
def Valid (it : Nat) : Prop :=
  it ∈ s.wq.items_.map TimeItem.node

instance (it : Nat) : Decidable (s.Valid it) :=
  inferInstanceAs (Decidable (_ ∈ _))

end State

/-- One step. -/
def step (s : State τ κ γ) : Action τ κ γ → Option (State τ κ γ)
  | .addWait h when_ cb =>
      s.outside { s with wq := s.wq.addWait ⟨s.count, h, cb, when_⟩, count := s.count + 1 }
  | .addWaitWhen when_ =>
      s.outside { s with wq := s.wq.addWaitWhen s.count when_, count := s.count + 1 }
  | .setHandle it h =>
      if s.Valid it then s.outside { s with wq := s.wq.setHandle it h } else none
  | .setCallback it cb =>
      if s.Valid it then s.outside { s with wq := s.wq.setCallback it cb } else none
  | .delWait it => if s.Valid it then s.outside { s with wq := s.wq.delWait it } else none
  | .wakeup now => s.outside { s with pc := .loop ⟨now, s.wq.items_, [], []⟩ }
  | .go => s.go

/-- Calls on a {lit}`TimeWQ` in any order. -/
def machine : Machine (State τ κ γ) (Action τ κ γ) where
  init s := s = State.construct
  step := step

/-! ## The order of the items -/

/-- The items are ordered by deadline, and those with equal deadlines by insertion. -/
def Sorted (items : List (TimeItem Nat τ κ γ)) : Prop :=
  items.Pairwise fun a b => a.when_ < b.when_ ∨ a.when_ = b.when_ ∧ a.node < b.node

variable {items : List (TimeItem Nat τ κ γ)} {item : TimeItem Nat τ κ γ}

/-- {lit}`addWait` emplaces a new item behind those that are not later. -/
theorem Sorted.place (h : Sorted items) (hnew : ∀ i ∈ items, i.node < item.node) :
    Sorted (TimeWQ.place item items) := by
  induction items with
  | nil => exact List.pairwise_singleton _ _
  | cons next items ih =>
      rcases List.pairwise_cons.mp h with ⟨hnext, hrest⟩
      unfold TimeWQ.place
      split
      · rename_i hlater
        apply List.pairwise_cons.mpr
        refine ⟨fun i hi => ?_, h⟩
        rcases List.mem_cons.mp hi with heq | hi
        · rw [heq]
          exact .inl hlater
        · rcases hnext i hi with hlt | ⟨heq, _⟩
          · exact .inl (hlater.trans hlt)
          · exact .inl (heq ▸ hlater)
      · rename_i hle
        apply List.pairwise_cons.mpr
        refine ⟨fun i hi => ?_, ih hrest fun i hi => hnew i (List.mem_cons_of_mem _ hi)⟩
        have hi := (perm_place item items).mem_iff.mp hi
        rcases List.mem_cons.mp hi with heq | hi
        · rw [heq]
          rcases lt_or_eq_of_le (not_lt.mp hle) with hlt | heq
          · exact .inl hlt
          · exact .inr ⟨heq, hnew next List.mem_cons_self⟩
        · exact hnext i hi

/-- Storing a handle or a callback keeps the order. -/
theorem Sorted.assign {q : TimeWQ Nat τ κ γ} (h : Sorted q.items_) (it : Nat)
    {f : TimeItem Nat τ κ γ → TimeItem Nat τ κ γ}
    (hf : ∀ i, (f i).when_ = i.when_ ∧ (f i).node = i.node) : Sorted (q.assign it f).items_ := by
  apply List.pairwise_map.mpr
  refine h.imp fun {a b} hab => ?_
  have hkeep : ∀ i : TimeItem Nat τ κ γ,
      (if i.node = it then f i else i).when_ = i.when_ ∧
        (if i.node = it then f i else i).node = i.node := by
    intro i
    split
    · exact hf i
    · exact ⟨rfl, rfl⟩
  rw [(hkeep a).1, (hkeep a).2, (hkeep b).1, (hkeep b).2]
  exact hab

/-- When the first item is later than {lit}`now`, all are. -/
theorem Sorted.later (h : Sorted (item :: items)) {now : τ} (hitem : now < item.when_) :
    ∀ i ∈ item :: items, now < i.when_ := by
  intro i hi
  rcases List.mem_cons.mp hi with heq | hi
  · rw [heq]
    exact hitem
  · rcases (List.pairwise_cons.mp h).1 i hi with hlt | ⟨heq, _⟩
    · exact hitem.trans hlt
    · exact heq ▸ hitem

/-! ## The walks -/

/-- What a walk does for the items that it removes. -/
def serve (items : List (TimeItem Nat τ κ γ)) : List (Event κ γ) :=
  items.flatMap fun item => calls item ++ yields item

namespace Walk

/-- The items whose deadline is not later than {lit}`now`. -/
def due (w : Walk τ κ γ) : List (TimeItem Nat τ κ γ) :=
  w.before.filter fun item => item.when_ ≤ w.now

/-- The other items. -/
def later (w : Walk τ κ γ) : List (TimeItem Nat τ κ γ) :=
  w.before.filter fun item => w.now < item.when_

/-- The walk has removed the items that are due, has called their callbacks and yielded their
handles in order, and has left the others as they were. -/
structure Exact (w : Walk τ κ γ) : Prop where
  sorted : Sorted w.before
  events : w.events = serve w.due
  after : w.after = w.later

/-- The walk has served the items before {lit}`items`, and they are due. -/
def Serving (w : Walk τ κ γ) (items : List (TimeItem Nat τ κ γ)) (extra : List (Event κ γ)) : Prop :=
  ∃ served, w.before = served ++ items ∧ (∀ item ∈ served, item.when_ ≤ w.now) ∧
    w.events = serve served ++ extra

end Walk

variable {w : Walk τ κ γ} {s s' : State τ κ γ} {a : Action τ κ γ}

/-- The served items are due, so that the items that are left decide the rest. -/
theorem Walk.Serving.due_later {extra : List (Event κ γ)} (h : w.Serving items extra) :
    ∃ served, w.events = serve served ++ extra ∧
      w.due = served ++ (items.filter fun item => item.when_ ≤ w.now) ∧
      w.later = items.filter fun item => w.now < item.when_ := by
  rcases h with ⟨served, hbefore, hserved, hevents⟩
  refine ⟨served, hevents, ?_, ?_⟩
  · rw [Walk.due, hbefore, List.filter_append]
    congr 1
    exact List.filter_eq_self.mpr fun item hitem => decide_eq_true (hserved item hitem)
  · have hnone : (served.filter fun item => decide (w.now < item.when_)) = [] :=
      List.filter_eq_nil_iff.mpr fun item hitem hlt =>
        absurd (of_decide_eq_true hlt) (not_lt.mpr (hserved item hitem))
    rw [Walk.later, hbefore, List.filter_append, hnone, List.nil_append]

/-- When only later items are left, the walk has served exactly those that are due. -/
theorem Walk.Serving.finished (h : w.Serving items [])
    (hlater : ∀ item ∈ items, w.now < item.when_) :
    w.later = items ∧ w.events = serve w.due := by
  rcases h.due_later with ⟨served, hevents, hdue, hrest⟩
  have hnone : (items.filter fun item => decide (item.when_ ≤ w.now)) = [] :=
    List.filter_eq_nil_iff.mpr fun item hitem hle =>
      absurd (of_decide_eq_true hle) (not_le.mpr (hlater item hitem))
  constructor
  · rw [hrest]
    exact List.filter_eq_self.mpr fun item hitem => decide_eq_true (hlater item hitem)
  · rw [hevents, hdue, hnone, List.append_nil, List.append_nil]

/-- What a walk has done so far is the beginning of what it does for the items that are due. -/
theorem Walk.Serving.begun (h : w.Serving items []) : w.events <+: serve w.due := by
  rcases h.due_later with ⟨served, hevents, hdue, _⟩
  rw [hevents, List.append_nil, hdue, serve, serve, List.flatMap_append]
  exact List.prefix_append _ _

/-- The same when the callback of the first item has been called already. -/
theorem Walk.Serving.begun_called (h : w.Serving (item :: items) (calls item))
    (hdue : item.when_ ≤ w.now) : w.events <+: serve w.due := by
  rcases h.due_later with ⟨served, hevents, hserved, _⟩
  have hcons : (item :: items).filter (fun item => decide (item.when_ ≤ w.now)) =
      item :: items.filter fun item => decide (item.when_ ≤ w.now) :=
    List.filter_cons_of_pos (decide_eq_true hdue)
  rw [hevents, hserved, hcons, serve, serve, List.flatMap_append, List.flatMap_cons,
    List.append_assoc]
  exact (List.prefix_append_right_inj _).mpr (List.prefix_append _ _)

/-- What holds at each point of a walk. -/
def PcOk (s : State τ κ γ) : Prop :=
  match s.pc with
  | .idle => True
  | .loop w => Sorted w.before ∧ w.Serving s.wq.items_ []
  | .called w => Sorted w.before ∧ ∃ item items, s.wq.items_ = item :: items ∧
      item.when_ ≤ w.now ∧ w.Serving s.wq.items_ (calls item)
  | .suspended w => Sorted w.before ∧ w.Serving s.wq.items_ []

/-- The items are in order, and every walk has served those that are due. -/
structure Inv (s : State τ κ γ) : Prop where
  sorted : Sorted s.wq.items_
  fresh : ∀ item ∈ s.wq.items_, item.node < s.count
  pc : PcOk s
  walks : ∀ w ∈ s.walks, w.Exact

theorem inv_construct : Inv (.construct : State τ κ γ) where
  sorted := List.Pairwise.nil
  fresh _ h := absurd h List.not_mem_nil
  pc := trivial
  walks _ h := absurd h List.not_mem_nil

omit [LinearOrder τ] in
/-- A call between the walks. -/
theorem outside_eq_some {t : State τ κ γ} (h : s.outside t = some s') :
    s.pc = .idle ∧ s' = t := by
  unfold State.outside at h
  cases hpc : s.pc with
  | idle =>
      rw [hpc] at h
      exact ⟨rfl, (Option.some.inj h).symm⟩
  | loop w => simp [hpc] at h
  | called w => simp [hpc] at h
  | suspended w => simp [hpc] at h

/-- An item is emplaced. -/
theorem Inv.addWait (h : Inv s) (hpc : s.pc = .idle) (handle : Option κ) (when_ : τ)
    (cb : Option γ) :
    Inv { s with wq := s.wq.addWait ⟨s.count, handle, cb, when_⟩, count := s.count + 1 } where
  sorted := h.sorted.place h.fresh
  fresh item hitem := by
    rcases List.mem_cons.mp ((perm_place _ _).mem_iff.mp hitem) with heq | hitem
    · rw [heq]
      exact Nat.lt_succ_self _
    · exact Nat.lt_succ_of_lt (h.fresh item hitem)
  pc := by
    rw [PcOk, hpc]
    trivial
  walks := h.walks

/-- A field of an item is stored. -/
theorem Inv.assign (h : Inv s) (hpc : s.pc = .idle) (it : Nat)
    {f : TimeItem Nat τ κ γ → TimeItem Nat τ κ γ}
    (hf : ∀ i, (f i).when_ = i.when_ ∧ (f i).node = i.node) :
    Inv { s with wq := s.wq.assign it f } where
  sorted := h.sorted.assign it hf
  fresh item hitem := by
    rcases List.mem_map.mp hitem with ⟨old, hold, heq⟩
    rw [← heq]
    split
    · rw [(hf old).2]
      exact h.fresh old hold
    · exact h.fresh old hold
  pc := by
    rw [PcOk, hpc]
    trivial
  walks := h.walks

/-- An item is erased. -/
theorem Inv.delWait (h : Inv s) (hpc : s.pc = .idle) (it : Nat) :
    Inv { s with wq := s.wq.delWait it } where
  sorted := h.sorted.filter _
  fresh item hitem := h.fresh item (List.mem_of_mem_filter hitem)
  pc := by
    rw [PcOk, hpc]
    trivial
  walks := h.walks

/-- A walk ends when no item is left, or when the first one is later. -/
theorem Inv.finish (h : Inv s) (hsorted : Sorted w.before) (hserving : w.Serving s.wq.items_ [])
    (hlater : ∀ item ∈ s.wq.items_, w.now < item.when_) : Inv (s.finish w) where
  sorted := h.sorted
  fresh := h.fresh
  pc := trivial
  walks w' hw' := by
    rcases List.mem_append.mp hw' with hw' | hw'
    · exact h.walks w' hw'
    · rcases hserving.finished hlater with ⟨hafter, hevents⟩
      rw [List.mem_singleton.mp hw']
      exact ⟨hsorted, hevents, hafter.symm⟩

/-- The tests of the loop, and the callback of an item that is due. -/
theorem Inv.iterate (h : Inv s) (hpc : s.pc = .loop w) : Inv (s.iterate w) := by
  have hwalk : Sorted w.before ∧ w.Serving s.wq.items_ [] := by
    have hok := h.pc
    rwa [PcOk, hpc] at hok
  rcases hwalk with ⟨hsorted, hserving⟩
  unfold State.iterate turn
  cases hitems : s.wq.items_ with
  | nil =>
      apply h.finish hsorted hserving
      intro item hitem
      rw [hitems] at hitem
      exact absurd hitem List.not_mem_nil
  | cons item items =>
      have hinv := h.sorted
      rw [hitems] at hinv
      dsimp only
      by_cases hlater : item.when_ > w.now
      · rw [if_pos hlater]
        apply h.finish hsorted hserving
        rw [hitems]
        exact hinv.later hlater
      · rw [if_neg hlater]
        rcases hserving with ⟨served, hbefore, hserved, hevents⟩
        refine ⟨h.sorted, h.fresh, ⟨hsorted, item, items, hitems, not_lt.mp hlater, ?_⟩, h.walks⟩
        exact ⟨served, hbefore, hserved, by rw [hevents, List.append_nil]⟩

/-- The item is erased, and its handle yielded. -/
theorem Inv.erase (h : Inv s) (hpc : s.pc = .called w) : Inv (s.erase w) := by
  have hok := h.pc
  rw [PcOk, hpc] at hok
  rcases hok with ⟨hsorted, item, items, hitems, hdue, served, hbefore, hserved, hevents⟩
  have hserving : ({ w with events := w.events ++ yields item } : Walk τ κ γ).Serving items [] := by
    refine ⟨served ++ [item], ?_, fun i hi => ?_, ?_⟩
    · rw [List.append_assoc, List.singleton_append, ← hitems]
      exact hbefore
    · rcases List.mem_append.mp hi with hi | hi
      · exact hserved i hi
      · rw [List.mem_singleton.mp hi]
        exact hdue
    · dsimp only
      rw [hevents, serve, serve, List.flatMap_append, List.flatMap_singleton, List.append_assoc,
        List.append_nil]
  have hinv := h.sorted
  have hfresh := h.fresh
  rw [hitems] at hinv hfresh
  unfold State.erase
  rw [hitems]
  dsimp only
  split
  · exact ⟨(List.pairwise_cons.mp hinv).2, fun i hi => hfresh i (List.mem_cons_of_mem _ hi),
      ⟨hsorted, hserving⟩, h.walks⟩
  · exact ⟨(List.pairwise_cons.mp hinv).2, fun i hi => hfresh i (List.mem_cons_of_mem _ hi),
      ⟨hsorted, hserving⟩, h.walks⟩

theorem Inv.step (h : Inv s) (hstep : step s a = some s') : Inv s' := by
  cases a with
  | addWait handle when_ cb =>
      rcases outside_eq_some hstep with ⟨hpc, rfl⟩
      exact h.addWait hpc handle when_ cb
  | addWaitWhen when_ =>
      rcases outside_eq_some hstep with ⟨hpc, rfl⟩
      exact h.addWait hpc none when_ none
  | setHandle it handle =>
      rcases Option.ite_none_right_eq_some.mp hstep with ⟨_, hstep⟩
      rcases outside_eq_some hstep with ⟨hpc, rfl⟩
      exact h.assign hpc it fun _ => ⟨rfl, rfl⟩
  | setCallback it cb =>
      rcases Option.ite_none_right_eq_some.mp hstep with ⟨_, hstep⟩
      rcases outside_eq_some hstep with ⟨hpc, rfl⟩
      exact h.assign hpc it fun _ => ⟨rfl, rfl⟩
  | delWait it =>
      rcases Option.ite_none_right_eq_some.mp hstep with ⟨_, hstep⟩
      rcases outside_eq_some hstep with ⟨hpc, rfl⟩
      exact h.delWait hpc it
  | wakeup now =>
      rcases outside_eq_some hstep with ⟨_, rfl⟩
      exact { h with pc := ⟨h.sorted, [], rfl, nofun, rfl⟩ }
  | go =>
      unfold Deadlines.step State.go at hstep
      cases hpc : s.pc with
      | idle => simp [hpc] at hstep
      | loop w =>
          rw [hpc] at hstep
          cases hstep
          exact h.iterate hpc
      | called w =>
          rw [hpc] at hstep
          cases hstep
          exact h.erase hpc
      | suspended w =>
          rw [hpc] at hstep
          cases hstep
          have hok := h.pc
          rw [PcOk, hpc] at hok
          exact { h with pc := hok }

theorem inductive_inv : (machine : Machine (State τ κ γ) (Action τ κ γ)).Inductive Inv where
  init := by
    rintro _ rfl
    exact inv_construct
  step _ _ _ h hstep := h.step hstep

/-! ## What a walk does as a whole -/

/-- The walk in progress. -/
def Pc.walk : Pc τ κ γ → Option (Walk τ κ γ)
  | .idle => none
  | .loop w | .called w | .suspended w => some w

/-- The steps that a walk can still take. -/
def remaining (s : State τ κ γ) : Nat :=
  match s.pc with
  | .idle => 0
  | .loop _ => 3 * s.wq.items_.length + 1
  | .called _ => 3 * s.wq.items_.length
  | .suspended _ => 3 * s.wq.items_.length + 2

/-- A walk goes on until it has ended. -/
theorem Inv.go (h : Inv s) (hpc : s.pc ≠ .idle) :
    ∃ t, Deadlines.step s .go = some t ∧ Inv t ∧ remaining t < remaining s := by
  unfold Deadlines.step State.go
  cases hwalk : s.pc with
  | idle => exact absurd hwalk hpc
  | loop w =>
      refine ⟨_, rfl, h.iterate hwalk, ?_⟩
      have hrem : remaining s = 3 * s.wq.items_.length + 1 := by
        rw [remaining, hwalk]
      rw [hrem]
      unfold State.iterate
      split
      · exact Nat.succ_pos _
      · exact Nat.succ_pos _
      · exact Nat.lt_succ_self _
  | called w =>
      refine ⟨_, rfl, h.erase hwalk, ?_⟩
      have hok := h.pc
      rw [PcOk, hwalk] at hok
      rcases hok with ⟨_, item, items, hitems, _, _⟩
      have hrem : remaining s = 3 * (items.length + 1) := by
        rw [remaining, hwalk, hitems, List.length_cons]
      rw [hrem]
      unfold State.erase
      rw [hitems]
      dsimp only
      split
      · change 3 * items.length + 2 < _
        omega
      · change 3 * items.length + 1 < _
        omega
  | suspended w =>
      have hok := h.pc
      rw [PcOk, hwalk] at hok
      refine ⟨_, rfl, { h with pc := hok }, ?_⟩
      rw [remaining, remaining, hwalk]
      exact Nat.lt_succ_self _

/-- A step of a walk goes on with it, or ends and records it. -/
theorem walk_go {t : State τ κ γ} (hw : s.pc.walk = some w) (hgo : s.go = some t) :
    (∃ w', t.pc.walk = some w' ∧ t.walks = s.walks ∧ w'.now = w.now ∧ w'.before = w.before) ∨
      t.pc = .idle ∧ t.walks = s.walks ++ [{ w with after := t.wq.items_ }] := by
  unfold State.go at hgo
  cases hpc : s.pc with
  | idle =>
      rw [hpc] at hw
      cases hw
  | loop v =>
      rw [hpc] at hw hgo
      cases hw
      cases hgo
      unfold State.iterate
      split
      · exact .inr ⟨rfl, rfl⟩
      · exact .inr ⟨rfl, rfl⟩
      · exact .inl ⟨_, rfl, rfl, rfl, rfl⟩
  | called v =>
      rw [hpc] at hw hgo
      cases hw
      cases hgo
      unfold State.erase
      split
      · exact .inl ⟨w, by rw [hpc]; rfl, rfl, rfl, rfl⟩
      · dsimp only
        split
        · exact .inl ⟨_, rfl, rfl, rfl, rfl⟩
        · exact .inl ⟨_, rfl, rfl, rfl, rfl⟩
  | suspended v =>
      rw [hpc] at hw hgo
      cases hw
      cases hgo
      exact .inl ⟨w, rfl, rfl, rfl, rfl⟩

/-- A walk that has gone on to its end is the one that is recorded last. -/
theorem walk_recorded {n : Nat} {t : State τ κ γ} (hw : s.pc.walk = some w)
    (hrun : machine.run s (List.replicate n .go) = some t) (hidle : t.pc = .idle) :
    ∃ w', t.walks = s.walks ++ [w'] ∧ w'.now = w.now ∧ w'.before = w.before ∧
      w'.after = t.wq.items_ := by
  induction n generalizing s w with
  | zero =>
      cases hrun
      rw [hidle] at hw
      cases hw
  | succ n ih =>
      rcases Machine.run_cons_eq_some.mp hrun with ⟨u, hgo, hrun⟩
      rcases walk_go hw hgo with ⟨v, hv, hwalks, hnow, hbefore⟩ | ⟨hended, hwalks⟩
      · rcases ih hv hrun with ⟨w', hlast, hnow', hbefore', hafter⟩
        exact ⟨w', hwalks ▸ hlast, hnow'.trans hnow, hbefore'.trans hbefore, hafter⟩
      · cases n with
        | zero =>
            cases hrun
            exact ⟨_, hwalks, rfl, rfl, rfl⟩
        | succ n =>
            -- a walk that has ended takes no step
            rcases Machine.run_cons_eq_some.mp hrun with ⟨_, hgo, _⟩
            change u.go = _ at hgo
            rw [State.go, hended] at hgo
            cases hgo

/-- The items are in order; every walk ends, and a call of {lit}`wakeup` that has ended has recorded its
walk over the items; one that has ended has served exactly the items that were due, and one in
progress has served the first of them. -/
structure Stable (s : State τ κ γ) : Prop where
  ordered : Sorted s.wq.items_
  ends : ∃ n t, machine.run s (List.replicate n .go) = some t ∧ t.pc = .idle
  recorded : ∀ now n t, machine.run s (.wakeup now :: List.replicate n .go) = some t →
    t.pc = .idle → ∃ w, t.walks = s.walks ++ [w] ∧ w.now = now ∧ w.before = s.wq.items_ ∧
      w.after = t.wq.items_ ∧ w.Exact
  served : ∀ w ∈ s.walks, w.Exact
  underway : ∀ w, s.pc.walk = some w → Sorted w.before ∧ w.events <+: serve w.due

theorem Inv.underway (h : Inv s) (hw : s.pc.walk = some w) :
    Sorted w.before ∧ w.events <+: serve w.due := by
  have hok := h.pc
  unfold PcOk at hok
  cases hpc : s.pc with
  | idle =>
      rw [hpc] at hw
      cases hw
  | loop w' =>
      rw [hpc] at hw hok
      cases hw
      exact ⟨hok.1, hok.2.begun⟩
  | called w' =>
      rw [hpc] at hw hok
      cases hw
      rcases hok with ⟨hsorted, item, items, hitems, hdue, hserving⟩
      rw [hitems] at hserving
      exact ⟨hsorted, hserving.begun_called hdue⟩
  | suspended w' =>
      rw [hpc] at hw hok
      cases hw
      exact ⟨hok.1, hok.2.begun⟩

/-- A call of {lit}`wakeup` that has ended has recorded its walk. -/
theorem Inv.recorded (h : Inv s) {now : τ} {n : Nat} {t : State τ κ γ}
    (hrun : machine.run s (.wakeup now :: List.replicate n .go) = some t) (hidle : t.pc = .idle) :
    ∃ w, t.walks = s.walks ++ [w] ∧ w.now = now ∧ w.before = s.wq.items_ ∧
      w.after = t.wq.items_ ∧ w.Exact := by
  have hinv : Inv t := inductive_inv.run h hrun
  rcases Machine.run_cons_eq_some.mp hrun with ⟨u, hwakeup, hgo⟩
  change s.outside _ = some u at hwakeup
  unfold State.outside at hwakeup
  split at hwakeup <;> cases hwakeup
  rcases walk_recorded rfl hgo hidle with ⟨w, hwalks, hnow, hbefore, hafter⟩
  refine ⟨w, hwalks, hnow, hbefore, hafter, hinv.walks w ?_⟩
  rw [hwalks]
  exact List.mem_append_right _ (List.mem_singleton_self w)

/-- After any sequence of calls the items are in order, and every walk wakes exactly those that
are due, in order of deadline and insertion. -/
theorem wakeup_exact (s : State τ κ γ) (hs : machine.Reachable s) : Stable s := by
  have h := inductive_inv.reachable hs
  exact {
    ordered := h.sorted
    ends := Machine.exists_run_replicate (D := fun t => t.pc = .idle) Action.go remaining
      (fun _ h hpc => h.go hpc) s h
    recorded := fun _ _ _ hrun hidle => h.recorded hrun hidle
    served := h.walks
    underway := fun _ hw => h.underway hw }

/-- Two equal deadlines, one item of each overload, and one that is later: the first two are served in
the order of their insertion. -/
theorem wakeup_exact_three :
    ∃ s : State Nat Nat Nat, s.pc.walk = none ∧ s.wq.items_.map TimeItem.node = [1] ∧
      s.walks.map (fun w => (w.now, w.before.map TimeItem.node, w.after.map TimeItem.node)) =
        [(5, [0, 2, 1], [1])] ∧
      s.walks.map Walk.events = [[.call 0 8, .yield 7, .yield 4]] ∧ Stable s := by
  let as : List (Action Nat Nat Nat) :=
    [.addWait (some 7) 5 (some 8), .addWait none 9 none, .addWaitWhen 5, .setHandle 2 4,
      .wakeup 5, .go, .go, .go, .go, .go, .go, .go]
  obtain ⟨s, hs, hidle, hitems, hwalks, hevents⟩ :
      ∃ s : State Nat Nat Nat, machine.run .construct as = some s ∧ s.pc.walk = none ∧
        s.wq.items_.map TimeItem.node = [1] ∧
        s.walks.map (fun w => (w.now, w.before.map TimeItem.node, w.after.map TimeItem.node)) =
          [(5, [0, 2, 1], [1])] ∧
        s.walks.map Walk.events = [[.call 0 8, .yield 7, .yield 4]] :=
    ⟨_, rfl, rfl, rfl, rfl, rfl⟩
  exact ⟨s, hidle, hitems, hwalks, hevents, wakeup_exact s ⟨_, _, rfl, hs⟩⟩

end Deadlines
end TimeWQ
end Irq
end CoEpoll
