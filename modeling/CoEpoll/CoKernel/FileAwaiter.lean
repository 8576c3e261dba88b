import CoEpoll.CoKernel.Irq.FileWQ
import CoEpoll.CoKernel.Irq.TimeWQ
import CoEpoll.Transition.Machine
import Mathlib.Logic.Function.Basic

/-!
# `FileAwaiter`: waits with a timeout

A wait with a timeout has an entry in the {lit}`items_` of its {lit}`FileWQ` and one in the {lit}`items_`
of the ICU's {lit}`TimeWQ`.  The callback of each of the two holds an iterator to the other and
erases it.  Both lists belong to the ICU's thread, which runs the queued functions and
the two {lit}`wakeup` generators one after the other.

Each wait has its own coroutine frame, so its handle names its entries.  A callback may
return anything.  An erasure is recorded also when the iterator dangles.
-/

namespace CoEpoll
namespace FileAwaiter

open Transition Irq

/-- The callback of a waiter; {lit}`timed it` captures the iterator to the timer. -/
inductive Callback (ω : Type*) where
  | timed (it : ω)
  | untimed
deriving DecidableEq

/-- What a coroutine waits for. -/
inductive Wait (ι : Type*) where
  /-- {lit}`waitFile` with a timeout. -/
  | timed (fd : ι)
  /-- {lit}`waitFile` without timeout. -/
  | untimed (fd : ι)
  /-- {lit}`waitTime` -/
  | sleep
deriving DecidableEq

/-- The {lit}`wakeup` generator that the loop is in. -/
inductive Generator (ι τ : Type*) where
  /-- {lit}`FileWQ::wakeup` -/
  | file (fd : ι) (iter : Nat)
  /-- {lit}`TimeWQ::wakeup` -/
  | timer (now : τ)
deriving DecidableEq

/-- The wait queues of an ICU, the waits so far, and what has been erased and yielded;
the callback of a timer captures the {lit}`FileWQ` and the iterator into it. -/
structure State (ι ω τ : Type*) where
  wq : ι → FileWQ ω (Callback ω)
  timer : TimeWQ ω τ ω (ι × ω)
  ge : Option (Generator ι τ)
  waits : ω → Option (Wait ι)
  fileErased : List ω
  timeErased : List ω
  yielded : List ω

variable {ι ω τ : Type*}

/-- No waits yet. -/
def State.construct : State ι ω τ where
  wq := fun _ => FileWQ.construct false false
  timer := TimeWQ.construct
  ge := none
  waits := fun _ => none
  fileErased := []
  timeErased := []
  yielded := []

/-- The steps of the ICU's thread. -/
inductive Action (ι ω τ : Type*) where
  /-- {lit}`epoll_wait` returns events of a descriptor. -/
  | event (fd : ι) (revents : Events)
  /-- The function that {lit}`FileAwaiter` queues; {lit}`point` is the deadline if there is one. -/
  | waitFile (fd : ι) (h : ω) (events : Events) (point : Option τ)
  /-- The function that {lit}`TimeAwaiter` queues. -/
  | waitTime (h : ω) (point : τ)
  /-- The walk calls {lit}`FileWQ::wakeup`. -/
  | wakeFile (fd : ι)
  /-- The walk calls {lit}`TimeWQ::wakeup` at {lit}`now`. -/
  | wakeTimer (now : τ)
  /-- The next iteration of the generator; a callback in it returns {lit}`r`. -/
  | walk (r : IoRet)

variable [DecidableEq ι] [DecidableEq ω]

namespace State

variable (s : State ι ω τ)

/-- Change one {lit}`FileWQ`. -/
def onWQ (fd : ι) (f : FileWQ ω (Callback ω) → FileWQ ω (Callback ω)) : State ι ω τ :=
  { s with wq := Function.update s.wq fd (f (s.wq fd)) }

/-- {lit}`fq_->delWait(fit)` -/
def delFile (fd : ι) (fit : ω) : State ι ω τ :=
  { s.onWQ fd fun q => { q with items_ := q.items_.filter fun item => item.h_ ≠ some fit } with
    fileErased := s.fileErased ++ [fit] }

/-- {lit}`timer->delWait(it)` -/
def delTimer (it : ω) : State ι ω τ :=
  { s with
    timer := s.timer.delWait it
    timeErased := s.timeErased ++ [it] }

/-- The callback of a waiter: {lit}`func_`, and {lit}`timer->delWait(it)` whatever {lit}`func_` returns. -/
def callback : Callback ω → State ι ω τ
  | .timed it => s.delTimer it
  | .untimed => s

/-- What {lit}`FileWQ::wakeup` does with the result of a callback. -/
def settle (fd : ι) (iter : Nat) (r : IoRet) : State ι ω τ :=
  let s' := s.onWQ fd fun q => q.settle iter r
  if r.block then s'
  else { s' with
    fileErased := s.fileErased ++ (s.wq fd).handle iter
    yielded := s.yielded ++ (s.wq fd).handle iter }

/-- One iteration of {lit}`FileWQ::wakeup`. -/
def walkFile (fd : ι) (iter : Nat) (r : IoRet) : State ι ω τ :=
  match (s.wq fd).turn iter with
  | .finish => { s with ge := none }
  | .next => { s with ge := some (.file fd (iter + 1)) }
  | .erase => { s.onWQ fd fun q => q.erase iter with
      fileErased := s.fileErased ++ (s.wq fd).handle iter
      yielded := s.yielded ++ (s.wq fd).handle iter }
  | .call _ cb => (s.callback cb).settle fd iter r

/-- The callback of a timer. -/
def expired : Option (ι × ω) → State ι ω τ
  | none => s
  | some (fd, fit) => s.delFile fd fit

/-- {lit}`iter = items_.erase(iter)` and {lit}`co_yield h` for the first timer. -/
def pop (item : TimeItem ω τ ω (ι × ω)) : State ι ω τ :=
  { s with
    timer := ⟨s.timer.items_.tail⟩
    timeErased := s.timeErased ++ [item.node]
    yielded := s.yielded ++ item.h_.toList }

variable [LinearOrder τ]

/-- One iteration of {lit}`TimeWQ::wakeup`. -/
def walkTimer (now : τ) : State ι ω τ :=
  match s.timer.turn now with
  | .finish => { s with ge := none }
  | .rearm _ => { s with ge := none }
  | .expire item => (s.expired item.cb_).pop item

/-- The function that {lit}`FileAwaiter` queues. -/
def waitFile (fd : ι) (h : ω) (events : Events) : Option τ → State ι ω τ
  | some point => { s.onWQ fd fun q => q.addWait (some h) events (.timed h) with
      timer := s.timer.addWait ⟨h, some h, some (fd, h), point⟩
      waits := Function.update s.waits h (some (.timed fd)) }
  | none => { s.onWQ fd fun q => q.addWait (some h) events .untimed with
      waits := Function.update s.waits h (some (.untimed fd)) }

/-- The function that {lit}`TimeAwaiter` queues. -/
def waitTime (h : ω) (point : τ) : State ι ω τ :=
  { s with
    timer := s.timer.addWait ⟨h, some h, none, point⟩
    waits := Function.update s.waits h (some .sleep) }

end State

variable [LinearOrder τ]

/-- One step. -/
def step (s : State ι ω τ) : Action ι ω τ → Option (State ι ω τ)
  | .event fd revents => some (s.onWQ fd fun q => q.addREvents revents)
  | .waitFile fd h events point =>
      if s.ge = none ∧ s.waits h = none then some (s.waitFile fd h events point) else none
  | .waitTime h point =>
      if s.ge = none ∧ s.waits h = none then some (s.waitTime h point) else none
  | .wakeFile fd => if s.ge = none then some { s with ge := some (.file fd 0) } else none
  | .wakeTimer now => if s.ge = none then some { s with ge := some (.timer now) } else none
  | .walk r =>
      match s.ge with
      | some (.file fd iter) => some (s.walkFile fd iter r)
      | some (.timer now) => some (s.walkTimer now)
      | none => none

/-- The ICU's thread under any sequence of events, waits, expiries and callback results. -/
def machine : Machine (State ι ω τ) (Action ι ω τ) where
  init s := s = State.construct
  step := step

end FileAwaiter
end CoEpoll
