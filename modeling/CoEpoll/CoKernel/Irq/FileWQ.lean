import CoEpoll.Bits.Mask
import Mathlib.Data.List.InsertIdx

/-!
# `FileWQ`: the waiters of a descriptor

The kernel's events are collected in {lit}`revents_`.  {lit}`FileWQ::wakeup` goes through the
waiters and calls those that wait for one of them; a waiter's callback says whether the
events it waits for are used up and whether it waits on.

Main results:

- Theorem {lit}`Passed.quiet`: when the loop ends, no waiter waits for an event in
  {lit}`revents_`.
- Theorem {lit}`Passed.settle`: what the loop does with the result of a callback keeps the
  waiters it has passed.
-/

namespace CoEpoll
namespace Irq

/-- The {lit}`uint` of an event mask. -/
abbrev Events := BitVec 32

def EPOLLIN : Events := 0x001#32
def EPOLLPRI : Events := 0x002#32
def EPOLLOUT : Events := 0x004#32
def EPOLLRDHUP : Events := 0x2000#32

/-- {lit}`ioret` -/
structure IoRet where
  ret : Int32
  exhausted : Bool
  block : Bool
deriving DecidableEq

/-- {lit}`FileWQ::WaitItem`, with callbacks {lit}`γ`. -/
structure WaitItem (κ γ : Type*) where
  h_ : Option κ
  cb_ : Option γ
  events_ : Events

/-- {lit}`FileWQ`; {lit}`fdCallbck_` is installed or not. -/
structure FileWQ (κ γ : Type*) where
  revents_ : Events
  waked_ : Bool
  fdCallbck_ : Bool
  items_ : List (WaitItem κ γ)

namespace FileWQ

variable {κ γ : Type*} {q : FileWQ κ γ} {item : WaitItem κ γ} {cb : γ} {events : Events}
  {iter : Nat} {r : IoRet}

/-- {lit}`FileWQ::FileWQ`, and what {lit}`waked_` happens to hold. -/
def construct (waked fdCallbck : Bool) : FileWQ κ γ where
  revents_ := 0
  waked_ := waked
  fdCallbck_ := fdCallbck
  items_ := []

/-- {lit}`FileWQ::addWait` -/
def addWait (q : FileWQ κ γ) (h : Option κ) (events : Events) (cb : γ) : FileWQ κ γ :=
  { q with items_ := q.items_ ++ [⟨h, some cb, events⟩] }

/-- {lit}`IRQAbs::addREvents` -/
def addREvents (q : FileWQ κ γ) (revents : Events) : FileWQ κ γ :=
  { q with revents_ := q.revents_ ||| revents }

/-- {lit}`IRQAbs::setWaked` -/
def setWaked (q : FileWQ κ γ) (waked : Bool) : FileWQ κ γ :=
  { q with waked_ := waked }

/-! ## One iteration of the loop in `wakeup` -/

/-- {lit}`revents_ & (iter->events_ | EPOLLRDHUP)` -/
def due (q : FileWQ κ γ) (item : WaitItem κ γ) : Events :=
  q.revents_ &&& (item.events_ ||| EPOLLRDHUP)

/-- What the loop does with {lit}`iter`. -/
inductive Turn (γ : Type*) where
  /-- {lit}`iter == items_.end()`, or {lit}`break`. -/
  | finish
  /-- {lit}`iter->cb_(fd_, events)` -/
  | call (events : Events) (cb : γ)
  /-- Erase a waiter without a callback. -/
  | erase
  /-- {lit}`iter++` -/
  | next

/-- The tests of the loop. -/
def turn (q : FileWQ κ γ) (iter : Nat) : Turn γ :=
  match q.items_[iter]? with
  | none => .finish
  | some item =>
      if q.revents_ = 0 then .finish
      else if q.due item ≠ 0 then
        match item.cb_ with
        | some cb => .call (q.due item) cb
        | none => .erase
      else .next

/-- The captured variables of the callback at {lit}`iter` after a call. -/
def store (q : FileWQ κ γ) (iter : Nat) (cb : γ) : FileWQ κ γ :=
  { q with items_ := q.items_.modify iter fun item => { item with cb_ := some cb } }

/-- {lit}`items_.erase(iter)` -/
def erase (q : FileWQ κ γ) (iter : Nat) : FileWQ κ γ :=
  { q with items_ := q.items_.eraseIdx iter }

/-- {lit}`revents_ &= ~(iter->events_)` -/
def exhaust (q : FileWQ κ γ) (iter : Nat) : FileWQ κ γ :=
  match q.items_[iter]? with
  | none => q
  | some item => { q with revents_ := q.revents_ &&& ~~~item.events_ }

/-- What the loop does with the result of the callback at {lit}`iter`. -/
def settle (q : FileWQ κ γ) (iter : Nat) (r : IoRet) : FileWQ κ γ :=
  let q := if r.exhausted then q.exhaust iter else q
  if r.block then q else q.erase iter

/-- The handle that {lit}`co_yield` gives out when {lit}`iter` is erased. -/
def handle (q : FileWQ κ γ) (iter : Nat) : List κ :=
  (q.items_[iter]?.bind WaitItem.h_).toList

/-! ## Waiters that have been passed -/

/-- No event in {lit}`revents_` concerns a waiter before {lit}`iter`. -/
def Passed (q : FileWQ κ γ) (iter : Nat) : Prop :=
  ∀ item ∈ q.items_.take iter, q.due item = 0

/-- An event in {lit}`revents_` concerns the waiter at {lit}`iter`. -/
def Called (q : FileWQ κ γ) (iter : Nat) : Prop :=
  ∃ item, q.items_[iter]? = some item ∧ q.due item ≠ 0

/-- No event in {lit}`revents_` concerns a waiter. -/
def Quiet (q : FileWQ κ γ) : Prop :=
  ∀ item ∈ q.items_, q.due item = 0

theorem passed_zero (q : FileWQ κ γ) : q.Passed 0 := by
  intro item hmem
  rw [List.take_zero] at hmem
  exact absurd hmem List.not_mem_nil

theorem due_eq_zero_of_revents (h : q.revents_ = 0) (item : WaitItem κ γ) : q.due item = 0 := by
  rw [due, h]
  exact BitVec.zero_and

/-- The callback that is called has an event that it waits for. -/
theorem turn_eq_call (h : q.turn iter = .call events cb) :
    ∃ item, q.items_[iter]? = some item ∧ item.cb_ = some cb ∧ events = q.due item ∧
      q.due item ≠ 0 := by
  unfold turn at h
  cases hitem : q.items_[iter]? with
  | none => simp [hitem] at h
  | some item =>
      simp only [hitem] at h
      split at h
      · cases h
      · split at h
        · rename_i hdue
          cases hcb : item.cb_ with
          | none => simp [hcb] at h
          | some cb' =>
              simp only [hcb, Turn.call.injEq] at h
              exact ⟨item, rfl, h.2 ▸ hcb, h.1.symm, hdue⟩
        · cases h

/-- A waiter that is erased without a call has no callback. -/
theorem turn_eq_erase (h : q.turn iter = .erase) :
    ∃ item, q.items_[iter]? = some item ∧ item.cb_ = none := by
  unfold turn at h
  cases hitem : q.items_[iter]? with
  | none => simp [hitem] at h
  | some item =>
      simp only [hitem] at h
      split at h
      · cases h
      · split at h
        · cases hcb : item.cb_ with
          | none => exact ⟨item, rfl, hcb⟩
          | some cb => simp [hcb] at h
        · cases h

theorem called_of_turn (h : q.turn iter = .call events cb) : q.Called iter := by
  rcases turn_eq_call h with ⟨item, hitem, _, _, hdue⟩
  exact ⟨item, hitem, hdue⟩

/-- No waiter before the one that is called waits for the same events. -/
theorem Passed.events_ne (h : q.Passed iter) (hcalled : q.Called iter)
    (hitem : q.items_[iter]? = some item) {earlier : WaitItem κ γ}
    (hmem : earlier ∈ q.items_.take iter) : earlier.events_ ≠ item.events_ := by
  intro heq
  rcases hcalled with ⟨called, hcall, hdue⟩
  cases hcall.symm.trans hitem
  refine hdue ?_
  rw [due, ← heq]
  exact h earlier hmem

/-- The loop ends at the end of the list or without an event. -/
theorem Passed.quiet (h : q.Passed iter) (hturn : q.turn iter = .finish) : q.Quiet := by
  unfold turn at hturn
  intro item hmem
  cases hiter : q.items_[iter]? with
  | none =>
      rw [List.getElem?_eq_none_iff] at hiter
      refine h item ?_
      rwa [List.take_of_length_le hiter]
  | some w =>
      simp only [hiter] at hturn
      split at hturn
      · rename_i hzero
        exact due_eq_zero_of_revents hzero item
      · split at hturn
        · cases hcb : w.cb_ <;> simp [hcb] at hturn
        · cases hturn

/-- The loop moves on from a waiter that none of the events concerns. -/
theorem Passed.next (h : q.Passed iter) (hturn : q.turn iter = .next) : q.Passed (iter + 1) := by
  unfold turn at hturn
  cases hiter : q.items_[iter]? with
  | none => simp [hiter] at hturn
  | some w =>
      simp only [hiter] at hturn
      split at hturn
      · cases hturn
      · split at hturn
        · cases hcb : w.cb_ <;> simp [hcb] at hturn
        · rename_i hdue
          intro item hmem
          rw [List.take_add_one, hiter, List.mem_append] at hmem
          rcases hmem with hmem | hmem
          · exact h item hmem
          · rw [Option.toList_some, List.mem_singleton] at hmem
            rw [hmem]
            exact not_not.mp hdue

/-! ## What the steps keep -/

@[simp]
theorem settle_waked_ : (q.settle iter r).waked_ = q.waked_ := by
  unfold settle exhaust
  cases q.items_[iter]? <;> cases r.exhausted <;> cases r.block <;> rfl

theorem settle_revents_ :
    (q.settle iter r).revents_ =
      if r.exhausted then (q.exhaust iter).revents_ else q.revents_ := by
  unfold settle
  cases r.exhausted <;> cases r.block <;> rfl

/-- Exhausting clears events. -/
theorem within_exhaust (q : FileWQ κ γ) (iter : Nat) :
    Mask.Within (q.exhaust iter).revents_ q.revents_ := by
  unfold exhaust
  split
  · exact Mask.Within.refl _
  · exact Mask.within_diff _ _

@[simp]
theorem exhaust_items_ : (q.exhaust iter).items_ = q.items_ := by
  unfold exhaust
  split <;> rfl

/-- The list around {lit}`iter`. -/
theorem items_eq (h : q.items_[iter]? = some item) :
    q.items_ = q.items_.take iter ++ item :: q.items_.drop (iter + 1) := by
  rcases List.getElem?_eq_some_iff.mp h with ⟨hlt, rfl⟩
  rw [← List.drop_eq_getElem_cons hlt, List.take_append_drop]

theorem erase_items_ : (q.erase iter).items_ = q.items_.take iter ++ q.items_.drop (iter + 1) :=
  List.eraseIdx_eq_take_drop_succ _ _

theorem store_items_ (h : q.items_[iter]? = some item) (cb : γ) :
    (q.store iter cb).items_ =
      q.items_.take iter ++ { item with cb_ := some cb } :: q.items_.drop (iter + 1) := by
  rcases List.getElem?_eq_some_iff.mp h with ⟨hlt, rfl⟩
  exact List.modify_eq_take_cons_drop hlt

/-- A callback that waits on stays in the list. -/
theorem settle_items_ :
    (q.settle iter r).items_ = if r.block then q.items_ else (q.erase iter).items_ := by
  have hitems : (if r.exhausted then q.exhaust iter else q).items_ = q.items_ := by
    split
    · exact exhaust_items_
    · rfl
  unfold settle
  cases r.block with
  | true => exact hitems
  | false => exact congrArg (fun items => items.eraseIdx iter) hitems

theorem mem_of_mem_erase (h : item ∈ (q.erase iter).items_) : item ∈ q.items_ :=
  List.mem_of_mem_eraseIdx h

theorem mem_of_mem_settle (h : item ∈ (q.settle iter r).items_) : item ∈ q.items_ := by
  rw [settle_items_] at h
  split at h
  · exact h
  · exact mem_of_mem_erase h

theorem getElem?_store (h : q.items_[iter]? = some item) (cb : γ) :
    (q.store iter cb).items_[iter]? = some { item with cb_ := some cb } := by
  rw [store, List.getElem?_modify, h]
  simp

theorem Called.store (h : q.Called iter) (cb : γ) : (q.store iter cb).Called iter := by
  rcases h with ⟨item, hitem, hdue⟩
  exact ⟨_, getElem?_store hitem cb, hdue⟩

/-- A call of the callback at {lit}`iter` changes that waiter only. -/
theorem mem_of_mem_store (h : item ∈ (q.store iter cb).items_) :
    item ∈ q.items_ ∨
      ∃ old, q.items_[iter]? = some old ∧ item = { old with cb_ := some cb } := by
  rcases List.mem_iff_getElem?.mp h with ⟨i, hi⟩
  rw [store, List.getElem?_modify] at hi
  rcases Option.map_eq_some_iff.mp hi with ⟨old, hold, hitem⟩
  by_cases hi : iter = i
  · rw [if_pos hi] at hitem
    exact .inr ⟨old, hi ▸ hold, hitem.symm⟩
  · rw [if_neg hi] at hitem
    exact .inl (hitem ▸ List.mem_of_getElem? hold)

/-- Fewer events concern fewer waiters. -/
theorem due_eq_zero_of_within {q' : FileWQ κ γ} (hw : Mask.Within q'.revents_ q.revents_)
    (h : q.due item = 0) : q'.due item = 0 :=
  hw.and_eq_zero h

theorem Passed.exhaust (h : q.Passed iter) : (q.exhaust iter).Passed iter := by
  intro item hmem
  rw [exhaust_items_] at hmem
  exact due_eq_zero_of_within (within_exhaust q iter) (h item hmem)

theorem Passed.erase (h : q.Passed iter) : (q.erase iter).Passed iter := by
  intro item hmem
  rw [FileWQ.erase, List.take_eraseIdx_eq_take_of_le _ _ _ (Nat.le_refl _)] at hmem
  exact h item hmem

theorem Passed.store (h : q.Passed iter) (cb : γ) : (q.store iter cb).Passed iter := by
  intro item hmem
  simp only [FileWQ.store, List.take_modify, List.modify_eq_self (List.length_take_le _ _)] at hmem
  exact h item hmem

/-- What is done with the result of a callback keeps the waiters passed. -/
theorem Passed.settle (h : q.Passed iter) (r : IoRet) : (q.settle iter r).Passed iter := by
  unfold FileWQ.settle
  cases r.exhausted <;> cases r.block
  · exact h.erase
  · exact h
  · exact h.exhaust.erase
  · exact h.exhaust

end FileWQ
end Irq
end CoEpoll
