import CoEpoll.Transition.Machine

/-!
# `future::get` and `waitflag`

A {lit}`waitflag` is a flag and a queue of the coroutines that wait for it.  Both
{lit}`wait` and {lit}`notify` begin with the statement {lit}`std::lock_guard\{ fl };`, a
temporary that is destroyed at the end of the statement: the mutex is released
before the flag or the queue is touched.  So the test of the flag, the push and
the final read of a {lit}`wait`, and the store of the flag and the single accesses to
the queue of a {lit}`notify`, interleave freely.
-/

namespace CoEpoll
namespace Waitflag

open Transition

/-- The next step of a coroutine in {lit}`GetAwaiter::await_suspend`. -/
inductive Wait where
  | idle
  | lock
  | unlock
  | test
  | push
  | read
  /-- {lit}`wait` returned true: the coroutine went on at once. -/
  | inline
  /-- {lit}`wait` returned false. -/
  | suspended
deriving DecidableEq

/-- The next step of the producer in {lit}`notify`. -/
inductive Notify where
  | idle
  | lock
  | unlock
  | set
  | test
  | wake
  | pop
  | done
deriving DecidableEq

/-- The {lit}`waitflag`, the handles given to {lit}`wakeUpReady` so far, the getters and the
producer. -/
structure State (γ : Type*) where
  fl : Bool
  flag : Bool
  waitQ : List γ
  readyRo_ : List γ
  wait : γ → Wait
  notify : Notify

variable {γ : Type*}

/-- {lit}`waitflag::waitflag`, before any call. -/
def State.construct : State γ where
  fl := false
  flag := false
  waitQ := []
  readyRo_ := []
  wait := fun _ => .idle
  notify := .idle

/-- A getter calls {lit}`get` or goes on; the producer calls {lit}`notify` or goes on. -/
inductive Action (γ : Type*) where
  | get (g : γ)
  | goGet (g : γ)
  | notify
  | goNotify

variable [DecidableEq γ]

/-- Getter {lit}`g` continues at {lit}`w`. -/
def State.goto (s : State γ) (g : γ) (w : Wait) : State γ :=
  { s with wait := Function.update s.wait g w }

/-- The next step of {lit}`waitflag::wait`. -/
def stepWait (s : State γ) (g : γ) : Option (State γ) :=
  match s.wait g with
  | .idle => none
  | .lock => if s.fl = false then some ({ s with fl := true }.goto g .unlock) else none
  | .unlock => some ({ s with fl := false }.goto g .test)
  | .test => some (s.goto g (if s.flag = false then .push else .read))
  | .push => some ({ s with waitQ := s.waitQ ++ [g] }.goto g .read)
  | .read => some (s.goto g (if s.flag = true then .inline else .suspended))
  | .inline => none
  | .suspended => none

/-- The next step of {lit}`waitflag::notify`. -/
def stepNotify (s : State γ) : Option (State γ) :=
  match s.notify with
  | .idle => none
  | .lock => if s.fl = false then some { s with fl := true, notify := .unlock } else none
  | .unlock => some { s with fl := false, notify := .set }
  | .set => some { s with flag := true, notify := .test }
  | .test => some { s with notify := if s.waitQ = [] then .done else .wake }
  | .wake =>
      match s.waitQ with
      | [] => none
      | g :: _ => some { s with readyRo_ := s.readyRo_ ++ [g], notify := .pop }
  | .pop => some { s with waitQ := s.waitQ.tail, notify := .test }
  | .done => none

/-- One step of one getter or of the producer. -/
def step (s : State γ) : Action γ → Option (State γ)
  | .get g => if s.wait g = .idle then some (s.goto g .lock) else none
  | .goGet g => stepWait s g
  | .notify => if s.notify = .idle then some { s with notify := .lock } else none
  | .goNotify => stepNotify s

/-- Any number of getters and one producer under any interleaving. -/
def machine : Machine (State γ) (Action γ) where
  init s := s = State.construct
  step := step

/-- {lit}`notify` and all calls of {lit}`wait` have finished. -/
def State.Finished (s : State γ) : Prop :=
  s.notify = .done ∧ ∀ g, s.wait g = .idle ∨ s.wait g = .inline ∨ s.wait g = .suspended

/-- How often getter {lit}`g` has been continued: inline, and through {lit}`wakeUpReady`. -/
def State.continued (s : State γ) (g : γ) : ℕ :=
  (if s.wait g = .inline then 1 else 0) + s.readyRo_.count g

end Waitflag
end CoEpoll
