import CoEpoll.CoKernel.Irq.TimeWQ
import CoEpoll.Transition.Machine
import Mathlib.Algebra.Order.Ring.Int

/-!
# `TimeWQ`: when does its timerfd expire

Time points are nanoseconds of the one monotonic clock.  {lit}`resetTimerfd` reads the clock, and then
arms the timerfd relative to the moment of {lit}`timerfd_settime`; time may pass at any point of a
call.  The timer is armed only when an item comes to the head of {lit}`items_` and when {lit}`wakeup` meets an
item that is not due.

Main results:

- Theorem {lit}`ns_itValue`: the {lit}`itimerspec` is the clamped number of microseconds.
- Theorem {lit}`Inv.step`: the last arming is early enough for every item.
- Theorem {lit}`armed_early`: between the calls the timerfd has expired unread or is armed early enough
  for the first item, and every {lit}`itimerspec` is valid.
- Theorem {lit}`armed_late`: it is armed too late by the time that passes inside of {lit}`resetTimerfd`.
-/

namespace CoEpoll
namespace Irq
namespace TimeWQ

open Transition

/-! ## `resetTimerfd` -/

/-- {lit}`itimerspec::it_value` -/
structure Timespec where
  tv_sec : Int
  tv_nsec : Int
deriving DecidableEq

/-- The nanoseconds until the timer expires. -/
def Timespec.ns (value : Timespec) : Int :=
  value.tv_sec * 1000000000 + value.tv_nsec

/-- {lit}`timerfd_settime` arms the timer with it. -/
def Timespec.Valid (value : Timespec) : Prop :=
  (value.tv_sec ≠ 0 ∨ value.tv_nsec ≠ 0) ∧ 0 ≤ value.tv_sec ∧ 0 ≤ value.tv_nsec ∧
    value.tv_nsec < 1000000000

/-- The {lit}`duration_cast` of {lit}`expiration - now` to microseconds, and at least 100. -/
def microSeconds (expiration now : Int) : Int :=
  let microSeconds := (expiration - now).tdiv 1000
  if microSeconds < 100 then 100 else microSeconds

/-- {lit}`newValue.it_value` -/
def itValue (microSeconds : Int) : Timespec where
  tv_sec := microSeconds.tdiv 1000000
  tv_nsec := microSeconds.tmod 1000000 * 1000

/-- {lit}`x` is a count of {lit}`std::chrono::nanoseconds`. -/
def Int64 (x : Int) : Prop :=
  -2 ^ 63 ≤ x ∧ x < 2 ^ 63

instance (x : Int) : Decidable (Int64 x) :=
  inferInstanceAs (Decidable (_ ∧ _))

theorem ns_itValue (us : Int) : (itValue us).ns = us * 1000 := by
  have hdiv := Int.mul_tdiv_add_tmod us 1000000
  unfold itValue Timespec.ns
  dsimp only
  omega

theorem valid_itValue {us : Int} (hpos : 0 < us) : (itValue us).Valid := by
  have hdiv := Int.mul_tdiv_add_tmod us 1000000
  have hsec : 0 ≤ us.tdiv 1000000 := Int.tdiv_nonneg (by omega) (by omega)
  have hmod : 0 ≤ us.tmod 1000000 := Int.tmod_nonneg _ (by omega)
  have hlt : us.tmod 1000000 < 1000000 := Int.tmod_lt_of_pos us (by omega)
  unfold itValue Timespec.Valid
  dsimp only
  omega

theorem microSeconds_pos (expiration now : Int) : 0 < microSeconds expiration now := by
  unfold microSeconds
  dsimp only
  split <;> omega

/-- The cast rounds down what is not below the bound. -/
theorem microSeconds_le (expiration now : Int) :
    microSeconds expiration now * 1000 ≤ max (expiration - now) 100000 := by
  unfold microSeconds
  dsimp only
  split
  · omega
  · rename_i hge
    have hdiv := Int.mul_tdiv_add_tmod (expiration - now) 1000
    have hrest := Int.lt_tmod_of_pos (expiration - now) (show (0 : Int) < 1000 by omega)
    have hnonneg : 0 ≤ expiration - now := by omega
    have hmod : 0 ≤ (expiration - now).tmod 1000 := Int.tmod_nonneg _ hnonneg
    omega

/-! ## The calls -/

/-- Where a call on the {lit}`TimeWQ` is; {lit}`next` is the item that {lit}`addWait` emplaces. -/
inductive Pc (ν κ γ : Type*) where
  | idle
  /-- {lit}`resetTimerfd` is about to read the clock. -/
  | reset (expiration : Int) (next : Option (TimeItem ν Int κ γ))
  /-- {lit}`resetTimerfd` has read the clock at {lit}`read` and is about to call {lit}`timerfd_settime`. -/
  | settime (value : Timespec) (read : Int) (next : Option (TimeItem ν Int κ γ))
  /-- {lit}`wakeup` has read the clock and is about to read the timerfd. -/
  | read (now : Int)
  /-- At the head of the loop in {lit}`wakeup`. -/
  | loop (now : Int)

/-- When an arming has read the clock, and when it has armed the timerfd. -/
structure Arming where
  read : Int
  set : Int

/-- A {lit}`TimeWQ`, the clock and the timerfd; {lit}`armed` is when the timer expires, {lit}`unread` tells whether
an expiry is there to be read, and {lit}`last` and {lit}`written` record the armings. -/
structure State (ν κ γ : Type*) where
  wq : TimeWQ ν Int κ γ
  clock : Int
  armed : Option Int
  unread : Bool
  pc : Pc ν κ γ
  last : Option Arming
  written : List Timespec

variable {ν κ γ : Type*}

/-- A new {lit}`TimeWQ` at the time {lit}`clock`. -/
def State.construct (clock : Int) : State ν κ γ where
  wq := TimeWQ.construct
  clock := clock
  armed := none
  unread := false
  pc := .idle
  last := none
  written := []

inductive Action (ν κ γ : Type*) where
  /-- {lit}`addWait` is called. -/
  | addWait (item : TimeItem ν Int κ γ)
  /-- {lit}`delWait` is called with an iterator to an item. -/
  | delWait (it : ν)
  /-- {lit}`wakeup` is called. -/
  | wakeup
  /-- The call goes on. -/
  | go
  /-- {lit}`n` nanoseconds pass. -/
  | tick (n : Nat)
  /-- The timer expires. -/
  | expire

/-- The loop in {lit}`addWait` stops at {lit}`items_.begin()`. -/
def AtHead (q : TimeWQ ν Int κ γ) (when_ : Int) : Prop :=
  ∀ first ∈ q.items_.head?, first.when_ > when_

instance (q : TimeWQ ν Int κ γ) (when_ : Int) : Decidable (q.AtHead when_) :=
  inferInstanceAs (Decidable (∀ first ∈ q.items_.head?, first.when_ > when_))

namespace State

variable (s : State ν κ γ)

/-- {lit}`timerfd_settime`, which drops an unread expiry, and the rest of the call. -/
def settime (value : Timespec) (read : Int) (next : Option (TimeItem ν Int κ γ)) :
    State ν κ γ where
  wq := match next with
    | some item => s.wq.addWait item
    | none => s.wq
  clock := s.clock
  armed := some (s.clock + value.ns)
  unread := false
  pc := .idle
  last := some ⟨read, s.clock⟩
  written := s.written ++ [value]

/-- One iteration of the loop in {lit}`wakeup`. -/
def iterate (now : Int) : State ν κ γ :=
  match s.wq.turn now with
  | .finish => { s with pc := .idle }
  | .rearm expiration => { s with pc := .reset expiration none }
  | .expire _ => { s with wq := ⟨s.wq.items_.tail⟩ }

/-- The next step of the call.  A difference of time points that is not representable is
undefined. -/
def go : Option (State ν κ γ) :=
  match s.pc with
  | .idle => none
  | .reset expiration next =>
      if Int64 (expiration - s.clock) then
        some { s with pc := .settime (itValue (microSeconds expiration s.clock)) s.clock next }
      else none
  | .settime value read next => some (s.settime value read next)
  | .read now => some { s with unread := false, pc := .loop now }
  | .loop now => some (s.iterate now)

end State

variable [DecidableEq ν]

/-- One step. -/
def step (s : State ν κ γ) : Action ν κ γ → Option (State ν κ γ)
  | .addWait item =>
      match s.pc with
      | .idle =>
          if item.node ∈ s.wq.items_.map TimeItem.node then none
          else if s.wq.AtHead item.when_ then some { s with pc := .reset item.when_ (some item) }
          else some { s with wq := s.wq.addWait item }
      | _ => none
  | .delWait it =>
      match s.pc with
      | .idle =>
          if it ∈ s.wq.items_.map TimeItem.node then some { s with wq := s.wq.delWait it } else none
      | _ => none
  | .wakeup =>
      match s.pc with
      | .idle => some { s with pc := .read s.clock }
      | _ => none
  | .go => s.go
  | .tick n => some { s with clock := s.clock + n }
  | .expire =>
      match s.armed with
      | some expiry =>
          if expiry ≤ s.clock then some { s with armed := none, unread := true } else none
      | none => none

/-- Calls on a {lit}`TimeWQ` in any order, with time passing at any point. -/
def machine : Machine (State ν κ γ) (Action ν κ γ) where
  init s := ∃ clock, s = State.construct clock
  step := step

/-! ## The order of the items -/

/-- The items are ordered by deadline. -/
def Ordered (items : List (TimeItem ν Int κ γ)) : Prop :=
  items.Pairwise fun a b => a.when_ ≤ b.when_

omit [DecidableEq ν] in
theorem mem_place {item item' : TimeItem ν Int κ γ} {items : List (TimeItem ν Int κ γ)} :
    item' ∈ place item items ↔ item' = item ∨ item' ∈ items := by
  rw [(perm_place item items).mem_iff, List.mem_cons]

omit [DecidableEq ν] in
/-- {lit}`addWait` keeps the order. -/
theorem Ordered.place {items : List (TimeItem ν Int κ γ)} (h : Ordered items)
    (item : TimeItem ν Int κ γ) : Ordered (TimeWQ.place item items) := by
  induction items with
  | nil => exact List.pairwise_singleton _ _
  | cons next items ih =>
      rcases List.pairwise_cons.mp h with ⟨hnext, hrest⟩
      unfold TimeWQ.place
      split
      · rename_i hlater
        apply List.pairwise_cons.mpr
        refine ⟨fun item' hmem => ?_, h⟩
        rcases List.mem_cons.mp hmem with heq | hmem
        · rw [heq]
          omega
        · have hle := hnext item' hmem
          omega
      · rename_i hle
        apply List.pairwise_cons.mpr
        refine ⟨fun item' hmem => ?_, ih hrest⟩
        rcases mem_place.mp hmem with heq | hmem
        · rw [heq]
          omega
        · exact hnext item' hmem

omit [DecidableEq ν] in
/-- What is not later than the first item is not later than any. -/
theorem Ordered.le {q : TimeWQ ν Int κ γ} (h : Ordered q.items_) {when_ : Int}
    (hhead : q.AtHead when_) {item : TimeItem ν Int κ γ} (hmem : item ∈ q.items_) :
    when_ ≤ item.when_ := by
  unfold AtHead at hhead
  cases hitems : q.items_ with
  | nil =>
      rw [hitems] at hmem
      cases hmem
  | cons first items =>
      rw [hitems] at h hmem hhead
      have hfirst : first.when_ > when_ := hhead first rfl
      rcases List.mem_cons.mp hmem with heq | hmem
      · rw [heq]
        omega
      · have hle := (List.pairwise_cons.mp h).1 item hmem
        omega

/-! ## The last arming -/

/-- The latest moment at which the timer may expire for an item: its deadline and the time that
has passed between the clock reading and {lit}`timerfd_settime`, or 100 microseconds after that. -/
def Arming.bound (a : Arming) (when_ : Int) : Int :=
  max (when_ + (a.set - a.read)) (a.set + 100000)

/-- The timer has expired, or it is early enough for all items. -/
def State.Covered (s : State ν κ γ) : Prop :=
  s.wq.items_ ≠ [] → s.unread = true ∨ ∃ expiry a, s.armed = some expiry ∧ s.last = some a ∧
    ∀ item ∈ s.wq.items_, expiry ≤ a.bound item.when_

/-- The timer is being armed for the first of the items. -/
def State.Leads (s : State ν κ γ) (expiration : Int) (next : Option (TimeItem ν Int κ γ)) : Prop :=
  (∀ item ∈ s.wq.items_, expiration ≤ item.when_) ∧ ∀ item, next = some item → item.when_ = expiration

/-- What holds at each point of a call. -/
def State.PcOk (s : State ν κ γ) : Prop :=
  match s.pc with
  | .idle => s.Covered
  | .reset expiration next => s.Leads expiration next
  | .settime value read next =>
      ∃ expiration, value = itValue (microSeconds expiration read) ∧ s.Leads expiration next
  | _ => True

/-- The items are in order, and every arming is valid and early enough. -/
structure Inv (s : State ν κ γ) : Prop where
  ordered : Ordered s.wq.items_
  valid : ∀ value ∈ s.written, value.Valid
  pc : s.PcOk

variable {s s' : State ν κ γ}

omit [DecidableEq ν] in
theorem inv_construct (clock : Int) : Inv (.construct clock : State ν κ γ) where
  ordered := List.Pairwise.nil
  valid _ h := nomatch h
  pc h := absurd rfl h

omit [DecidableEq ν] in
/-- An item behind the first one is as late as that, so the arming is early enough for it. -/
theorem Inv.addWait (h : Inv s) (hpc : s.pc = .idle) {item : TimeItem ν Int κ γ}
    (hhead : ¬ s.wq.AtHead item.when_) : Inv { s with wq := s.wq.addWait item } where
  ordered := h.ordered.place item
  valid := h.valid
  pc := by
    have hcovered : s.Covered := by
      have hok := h.pc
      rw [State.PcOk, hpc] at hok
      exact hok
    have hfirst : ∃ first ∈ s.wq.items_, first.when_ ≤ item.when_ := by
      unfold AtHead at hhead
      push Not at hhead
      rcases hhead with ⟨first, hmem, hle⟩
      exact ⟨first, List.mem_of_mem_head? hmem, hle⟩
    rcases hfirst with ⟨first, hmem, hle⟩
    change State.PcOk { s with wq := s.wq.addWait item }
    rw [State.PcOk]
    dsimp only
    rw [hpc]
    intro _
    rcases hcovered (List.ne_nil_of_mem hmem) with hunread | ⟨expiry, a, harmed, hlast, hbound⟩
    · exact .inl hunread
    · refine .inr ⟨expiry, a, harmed, hlast, fun item' hmem' => ?_⟩
      rcases mem_place.mp hmem' with heq | hmem'
      · have hearly := hbound first hmem
        unfold Arming.bound at hearly ⊢
        rw [heq]
        omega
      · exact hbound item' hmem'

/-- Deleting an item leaves the arming early enough for the others. -/
theorem Inv.delWait (h : Inv s) (hpc : s.pc = .idle) (it : ν) :
    Inv { s with wq := s.wq.delWait it } where
  ordered := h.ordered.filter _
  valid := h.valid
  pc := by
    have hcovered : s.Covered := by
      have hok := h.pc
      rw [State.PcOk, hpc] at hok
      exact hok
    rw [State.PcOk]
    dsimp only
    rw [hpc]
    intro hne
    rcases List.exists_mem_of_ne_nil _ hne with ⟨some', hmem⟩
    have hmem : some' ∈ s.wq.items_ := List.mem_of_mem_filter hmem
    rcases hcovered (List.ne_nil_of_mem hmem) with hunread | ⟨expiry, a, harmed, hlast, hbound⟩
    · exact .inl hunread
    · refine .inr ⟨expiry, a, harmed, hlast, fun item hitem => ?_⟩
      exact hbound item (List.mem_of_mem_filter hitem)

omit [DecidableEq ν] in
/-- {lit}`timerfd_settime` arms the timer early enough for the items and for the one that is emplaced. -/
theorem Inv.settime (h : Inv s) {value : Timespec} {read : Int}
    {next : Option (TimeItem ν Int κ γ)} (hpc : s.pc = .settime value read next) :
    Inv (s.settime value read next) := by
  have hok := h.pc
  rw [State.PcOk, hpc] at hok
  rcases hok with ⟨expiration, hvalue, hitems, hnext⟩
  have hns := microSeconds_le expiration read
  have hexpiry : s.clock + value.ns ≤ Arming.bound ⟨read, s.clock⟩ expiration := by
    rw [hvalue, ns_itValue]
    unfold Arming.bound
    dsimp only
    omega
  have hmono : ∀ when_, expiration ≤ when_ →
      s.clock + value.ns ≤ Arming.bound ⟨read, s.clock⟩ when_ := by
    intro when_ hle
    unfold Arming.bound at hexpiry ⊢
    dsimp only at hexpiry ⊢
    omega
  refine ⟨?_, ?_, ?_⟩
  · cases next with
    | none => exact h.ordered
    | some item => exact h.ordered.place item
  · intro value' hmem
    rcases List.mem_append.mp hmem with hmem | hmem
    · exact h.valid value' hmem
    · rw [List.mem_singleton.mp hmem, hvalue]
      exact valid_itValue (microSeconds_pos _ _)
  · intro _
    refine .inr ⟨_, _, rfl, rfl, fun item hmem => ?_⟩
    apply hmono
    cases next with
    | none => exact hitems item hmem
    | some item' =>
        rcases mem_place.mp hmem with heq | hmem
        · rw [heq, hnext item' rfl]
        · exact hitems item hmem

omit [DecidableEq ν] in
/-- The loop arms the timer for the first item that it meets that is not due. -/
theorem Inv.iterate (h : Inv s) {now : Int} (hpc : s.pc = .loop now) : Inv (s.iterate now) := by
  unfold State.iterate turn
  cases hitems : s.wq.items_ with
  | nil => exact ⟨h.ordered, h.valid, fun hne => absurd hitems hne⟩
  | cons first items =>
      have hordered := h.ordered
      rw [hitems] at hordered
      have hrest := (List.pairwise_cons.mp hordered).1
      dsimp only
      split
      · rename_i heq
        split at heq <;> cases heq
      · rename_i heq
        split at heq <;> cases heq
        refine ⟨h.ordered, h.valid, fun item hmem => ?_, nofun⟩
        dsimp only at hmem
        rw [hitems] at hmem
        rcases List.mem_cons.mp hmem with heq | hmem
        · rw [heq]
        · exact hrest item hmem
      · refine ⟨?_, h.valid, ?_⟩
        · exact (List.pairwise_cons.mp hordered).2
        · rw [State.PcOk]
          dsimp only
          rw [hpc]
          trivial

omit [DecidableEq ν] in
theorem Inv.go (h : Inv s) (hstep : s.go = some s') : Inv s' := by
  unfold State.go at hstep
  split at hstep
  · cases hstep
  · rename_i expiration next hpc
    rcases Option.ite_none_right_eq_some.mp hstep with ⟨_, hstep⟩
    cases hstep
    have hok := h.pc
    rw [State.PcOk, hpc] at hok
    exact ⟨h.ordered, h.valid, expiration, rfl, hok⟩
  · rename_i hpc
    cases hstep
    exact h.settime hpc
  · cases hstep
    exact ⟨h.ordered, h.valid, trivial⟩
  · rename_i hpc
    cases hstep
    exact h.iterate hpc

theorem Inv.step (h : Inv s) {a : Action ν κ γ} (hstep : TimeWQ.step s a = some s') : Inv s' := by
  cases a with
  | addWait item =>
      simp only [TimeWQ.step] at hstep
      split at hstep
      · rename_i hpc
        split at hstep
        · cases hstep
        · split at hstep
          · rename_i hhead
            cases hstep
            refine ⟨h.ordered, h.valid, fun item' hmem => h.ordered.le hhead hmem, ?_⟩
            rintro _ ⟨⟩
            rfl
          · rename_i hhead
            cases hstep
            exact h.addWait hpc hhead
      · cases hstep
  | delWait it =>
      simp only [TimeWQ.step] at hstep
      split at hstep
      · rename_i hpc
        rcases Option.ite_none_right_eq_some.mp hstep with ⟨_, hstep⟩
        cases hstep
        exact h.delWait hpc it
      · cases hstep
  | wakeup =>
      simp only [TimeWQ.step] at hstep
      split at hstep
      · cases hstep
        exact ⟨h.ordered, h.valid, trivial⟩
      · cases hstep
  | go => exact h.go hstep
  | tick n =>
      cases hstep
      exact ⟨h.ordered, h.valid, h.pc⟩
  | expire =>
      simp only [TimeWQ.step] at hstep
      split at hstep
      · rcases Option.ite_none_right_eq_some.mp hstep with ⟨_, hstep⟩
        cases hstep
        refine ⟨h.ordered, h.valid, ?_⟩
        have hok := h.pc
        unfold State.PcOk at hok ⊢
        dsimp only
        cases hpc : s.pc with
        | idle => exact fun _ => .inl rfl
        | reset expiration next =>
            rw [hpc] at hok
            exact hok
        | settime value read next =>
            rw [hpc] at hok
            exact hok
        | read now => trivial
        | loop now => trivial
      · cases hstep

/-! ## Between the calls -/

/-- The timer has expired unread, or it expires no later than the first item needs it. -/
def State.Timely (s : State ν κ γ) : Prop :=
  ∀ first, s.wq.items_.head? = some first → s.unread = true ∨
    ∃ expiry a, s.armed = some expiry ∧ s.last = some a ∧ expiry ≤ a.bound first.when_

/-- Between the calls the timerfd has expired unread or is armed early enough for the first item,
and every {lit}`itimerspec` that has been written is valid. -/
theorem armed_early (s : State ν κ γ) (hs : machine.Reachable s) :
    (s.pc = .idle → s.Timely) ∧ ∀ value ∈ s.written, value.Valid := by
  have hinv : Inv s := by
    have hind : (machine : Machine (State ν κ γ) (Action ν κ γ)).Inductive Inv := by
      refine ⟨?_, fun _ _ _ h hstep => h.step hstep⟩
      rintro _ ⟨clock, rfl⟩
      exact inv_construct clock
    exact hind.reachable hs
  refine ⟨fun hpc first hfirst => ?_, hinv.valid⟩
  have hcovered := hinv.pc
  rw [State.PcOk, hpc] at hcovered
  have hmem : first ∈ s.wq.items_ := List.mem_of_mem_head? hfirst
  rcases hcovered (List.ne_nil_of_mem hmem) with hunread | ⟨expiry, a, harmed, hlast, hbound⟩
  · exact .inl hunread
  · exact .inr ⟨expiry, a, harmed, hlast, hbound first hmem⟩

/-- An item is due in a millisecond, and half a millisecond passes inside of {lit}`resetTimerfd`. -/
def slowReset : List (Action Nat Unit Unit) :=
  [.addWait ⟨0, some (), none, 1000000⟩, .go, .tick 500000, .go]

/-- The timer is then armed for half a millisecond more. -/
theorem armed_early_slowReset :
    ∃ s, machine.run (.construct 0) slowReset = some s ∧ s.armed = some 1500000 ∧ s.Timely :=
  ⟨_, rfl, rfl, (armed_early _ ⟨.construct 0, slowReset, ⟨0, rfl⟩, rfl⟩).1 rfl⟩

/-- So it expires later than the deadline, and later than 100 microseconds after it was armed. -/
theorem armed_late :
    ∃ s first expiry a, machine.run (.construct 0) slowReset = some s ∧ s.pc = .idle ∧
      s.wq.items_.head? = some first ∧ s.unread = false ∧ s.armed = some expiry ∧
      s.last = some a ∧ max first.when_ (a.set + 100000) < expiry :=
  ⟨_, _, _, _, rfl, rfl, rfl, rfl, rfl, rfl, by decide⟩

end TimeWQ
end Irq
end CoEpoll
