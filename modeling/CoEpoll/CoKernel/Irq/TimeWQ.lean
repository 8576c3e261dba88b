import Mathlib.Data.List.Basic
import Mathlib.Order.Lattice

/-!
# `TimeWQ`: the timers of an ICU

The list {lit}`items_` is ordered by deadline.  An iterator into it is the name {lit}`node` of an
item, so that erasing through it finds the item wherever it stands.
-/

namespace CoEpoll
namespace Irq

/-- {lit}`TimeWQ::WaitItem`, with time points {lit}`τ`, handles {lit}`κ` and callbacks {lit}`γ`. -/
structure TimeItem (ν τ κ γ : Type*) where
  node : ν
  h_ : Option κ
  cb_ : Option γ
  when_ : τ

/-- {lit}`TimeWQ` -/
structure TimeWQ (ν τ κ γ : Type*) where
  items_ : List (TimeItem ν τ κ γ)

namespace TimeWQ

variable {ν τ κ γ : Type*}

/-- No timer. -/
def construct : TimeWQ ν τ κ γ where
  items_ := []

section Order

variable [LinearOrder τ]

/-- The position before the first item that is later. -/
def place (item : TimeItem ν τ κ γ) : List (TimeItem ν τ κ γ) → List (TimeItem ν τ κ γ)
  | [] => [item]
  | next :: items => if next.when_ > item.when_ then item :: next :: items else next :: place item items

/-- {lit}`TimeWQ::addWait` -/
def addWait (q : TimeWQ ν τ κ γ) (item : TimeItem ν τ κ γ) : TimeWQ ν τ κ γ where
  items_ := place item q.items_

/-- {lit}`TimeWQ::addWait`, the overload that leaves the handle and the callback to its caller. -/
def addWaitWhen (q : TimeWQ ν τ κ γ) (node : ν) (when_ : τ) : TimeWQ ν τ κ γ :=
  q.addWait ⟨node, none, none, when_⟩

/-- What the loop in {lit}`wakeup` does with the first item. -/
inductive Turn (ν τ κ γ : Type*) where
  /-- {lit}`iter == items_.end()` -/
  | finish
  /-- {lit}`resetTimerfd(iter->when_)` and {lit}`break`. -/
  | rearm (expiration : τ)
  /-- The item is due. -/
  | expire (item : TimeItem ν τ κ γ)

/-- The tests of the loop. -/
def turn (q : TimeWQ ν τ κ γ) (now : τ) : Turn ν τ κ γ :=
  match q.items_ with
  | [] => .finish
  | item :: _ => if item.when_ > now then .rearm item.when_ else .expire item

theorem turn_eq_expire {q : TimeWQ ν τ κ γ} {now : τ} {item : TimeItem ν τ κ γ}
    (h : q.turn now = .expire item) : ∃ items, q.items_ = item :: items := by
  unfold turn at h
  cases hitems : q.items_ with
  | nil => simp [hitems] at h
  | cons first items =>
      simp only [hitems] at h
      split at h
      · cases h
      · cases h
        exact ⟨items, rfl⟩

theorem perm_place (item : TimeItem ν τ κ γ) (items : List (TimeItem ν τ κ γ)) :
    (place item items).Perm (item :: items) := by
  induction items with
  | nil => exact List.Perm.refl _
  | cons next items ih =>
      unfold place
      split
      · exact List.Perm.refl _
      · exact (ih.cons next).trans (List.Perm.swap _ _ _)

end Order

/-- {lit}`TimeWQ::delWait` -/
def delWait [DecidableEq ν] (q : TimeWQ ν τ κ γ) (it : ν) : TimeWQ ν τ κ γ where
  items_ := q.items_.filter fun item => item.node ≠ it

/-- Storing through the iterator {lit}`it`. -/
def assign [DecidableEq ν] (q : TimeWQ ν τ κ γ) (it : ν)
    (f : TimeItem ν τ κ γ → TimeItem ν τ κ γ) : TimeWQ ν τ κ γ where
  items_ := q.items_.map fun item => if item.node = it then f item else item

/-- {lit}`it->h_ = h` -/
def setHandle [DecidableEq ν] (q : TimeWQ ν τ κ γ) (it : ν) (h : κ) : TimeWQ ν τ κ γ :=
  q.assign it fun item => { item with h_ := some h }

/-- {lit}`it->cb_ = cb` -/
def setCallback [DecidableEq ν] (q : TimeWQ ν τ κ γ) (it : ν) (cb : γ) : TimeWQ ν τ κ γ :=
  q.assign it fun item => { item with cb_ := some cb }

end TimeWQ
end Irq
end CoEpoll
