import CoEpoll.Transition.Machine

/-!
# `MuCore`: the coroutine mutex at its atomic actions

A mutex consists of the owner's task id {lit}`tid_`, the number {lit}`waiter_` of the
coroutines that want or have it, and the queue {lit}`items_` of the coroutines
suspended in {lit}`lock`.  {lit}`LockAwaiter`, {lit}`TryLockAwaiter` and {lit}`UnlockAwaiter` work on
it with single atomic actions; {lit}`items_` is an atomic first-in first-out queue.

The compare-exchange of {lit}`UnlockAwaiter` takes its expected value by reference
from the caller's {lit}`UTCB`, so a failing one writes there.
-/

namespace CoEpoll
namespace MuCore

open Transition

/-- {lit}`MuCore::WaitItem`. -/
structure WaitItem (κ : Type*) where
  tid_ : Int
  h_ : κ
deriving DecidableEq

/-- The next action of a coroutine. -/
inductive Pc (κ : Type*) where
  /-- Its last call, if any, was a completed {lit}`unlock` or a failed {lit}`try_to_lock`. -/
  | out
  -- `LockAwaiter`, after the increment of `waiter_`
  | lockStore
  | lockQueue
  | suspended
  /-- Handed to {lit}`wakeUpReady` and not resumed yet. -/
  | ready
  -- `TryLockAwaiter`, after the successful compare-exchange of `waiter_`
  | tryStore
  /-- Past {lit}`lock`. -/
  | held
  -- `UnlockAwaiter`, after the successful compare-exchange of `tid_`
  | unlockDec
  | unlockPop
  | unlockStore (newItem : WaitItem κ)
  | unlockWake (newItem : WaitItem κ)
deriving DecidableEq

/-- The mutex, the {lit}`UTCB::tid` of every coroutine and what each is about to do. -/
structure State (κ : Type*) where
  tid_ : Int
  waiter_ : UInt32
  items_ : List (WaitItem κ)
  tcb : κ → Int
  pc : κ → Pc κ

variable {κ : Type*}

/-- A new mutex and coroutines with the task ids {lit}`tid`. -/
def State.construct (tid : κ → Int) : State κ where
  tid_ := 0
  waiter_ := 0
  items_ := []
  tcb := tid
  pc := fun _ => .out

/-- A coroutine makes a call, or performs the next action of the call it is in. -/
inductive Action (κ : Type*) where
  | lock (k : κ)
  | tryLock (k : κ)
  | unlock (k : κ)
  | go (k : κ)
deriving DecidableEq

/-- In no call, so that the coroutine can make one. -/
def Pc.free : Pc κ → Bool
  | out => true
  | held => true
  | _ => false

variable [DecidableEq κ]

/-- Coroutine {lit}`k` continues at {lit}`p`. -/
def State.goto (s : State κ) (k : κ) (p : Pc κ) : State κ :=
  { s with pc := Function.update s.pc k p }

@[simp]
theorem State.goto_waiter (s : State κ) (k : κ) (p : Pc κ) : (s.goto k p).waiter_ = s.waiter_ :=
  rfl

@[simp]
theorem State.goto_items (s : State κ) (k : κ) (p : Pc κ) : (s.goto k p).items_ = s.items_ :=
  rfl

@[simp]
theorem State.goto_pc (s : State κ) (k : κ) (p : Pc κ) :
    (s.goto k p).pc = Function.update s.pc k p :=
  rfl

/-- {lit}`LockAwaiter::await_suspend`, its first action: {lit}`old = waiter_++`. -/
def lock (s : State κ) (k : κ) : State κ :=
  { s with waiter_ := s.waiter_ + 1 }.goto k (if s.waiter_ = 0 then .lockStore else .lockQueue)

/-- {lit}`TryLockAwaiter::await_suspend`, its first action: {lit}`waiter_` from 0 to 1. -/
def tryLock (s : State κ) (k : κ) : State κ :=
  if s.waiter_ = 0 then { s with waiter_ := 1 }.goto k .tryStore else s

/-- {lit}`UnlockAwaiter::await_suspend`, its first action: {lit}`tid_` from the caller's
{lit}`UTCB::tid` to 0; when {lit}`tid_` differs it is written into the caller's {lit}`UTCB::tid`. -/
def unlock (s : State κ) (k : κ) : State κ :=
  if s.tid_ = s.tcb k then { s with tid_ := 0 }.goto k .unlockDec
  else { s with tcb := Function.update s.tcb k s.tid_ }

/-- The next action of a coroutine that is in a call. -/
def advance (s : State κ) (k : κ) : Option (State κ) :=
  match s.pc k with
  | .out => none
  | .lockStore => some ({ s with tid_ := s.tcb k }.goto k .held)
  | .lockQueue => some ({ s with items_ := s.items_ ++ [WaitItem.mk (s.tcb k) k] }.goto k .suspended)
  | .suspended => none
  | .ready => some (s.goto k .held)
  | .tryStore => some ({ s with tid_ := s.tcb k }.goto k .held)
  | .held => none
  | .unlockDec =>
      some ({ s with waiter_ := s.waiter_ - 1 }.goto k
        (if 1 < s.waiter_ then .unlockPop else .out))
  | .unlockPop =>
      match s.items_ with
      | [] => some s
      | newItem :: items => some ({ s with items_ := items }.goto k (.unlockStore newItem))
  | .unlockStore newItem => some ({ s with tid_ := newItem.tid_ }.goto k (.unlockWake newItem))
  | .unlockWake newItem => some ((s.goto newItem.h_ .ready).goto k .out)

/-- One action of one coroutine. -/
def step (s : State κ) : Action κ → Option (State κ)
  | .lock k => if (s.pc k).free then some (lock s k) else none
  | .tryLock k => if (s.pc k).free then some (tryLock s k) else none
  | .unlock k => if (s.pc k).free then some (unlock s k) else none
  | .go k => advance s k

/-- The mutex under any interleaving of any calls, rightful or not. -/
def machine (tid : κ → Int) : Machine (State κ) (Action κ) where
  init s := s = State.construct tid
  step := step

/-- A coroutine locks only when it does not hold the mutex and unlocks only when it
does. -/
def Disciplined (s : State κ) : Action κ → Prop
  | .lock k => s.pc k = .out
  | .tryLock k => s.pc k = .out
  | .unlock k => s.pc k = .held
  | .go _ => True

instance (s : State κ) (a : Action κ) : Decidable (Disciplined s a) := by
  cases a <;> unfold Disciplined <;> infer_instance

/-- What happens to the coroutines suspended in {lit}`lock`. -/
inductive Event (κ : Type*) where
  | queued (k : κ)
  | woken (k : κ)
deriving DecidableEq

/-- {lit}`queued` when a coroutine enters {lit}`items_`, {lit}`woken` when it is handed to
{lit}`wakeUpReady`. -/
def emit (s : State κ) : Action κ → List (Event κ)
  | .go k =>
      match s.pc k with
      | .lockQueue => [.queued k]
      | .unlockWake newItem => [.woken newItem.h_]
      | _ => []
  | _ => []

/-- The coroutines that entered {lit}`items_`, in that order. -/
def queued (es : List (Event κ)) : List κ :=
  es.filterMap fun
    | .queued k => some k
    | _ => none

/-- The coroutines handed to {lit}`wakeUpReady`, in that order. -/
def woken (es : List (Event κ)) : List κ :=
  es.filterMap fun
    | .woken k => some k
    | _ => none

end MuCore
end CoEpoll
