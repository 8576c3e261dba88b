import CoEpoll.Transition.Census

/-!
# `CoKernel::schedule` and `CoKernel::wakeUpReady`: the ready queue of the CPU threads

A caller enqueues a handle under {lit}`hmu` and notifies after it has released it.  A CPU thread waits
on {lit}`hcv` with the queue's {lit}`dequeue` as its predicate, and after each handle it tries
{lit}`dequeue` again without {lit}`hmu`.  A sleeping thread can be woken without a notification, and a
notification that finds nobody asleep is dropped.
-/

namespace CoEpoll
namespace Schedule

open Transition

/-- Where {lit}`CoKernel::schedule` is. -/
inductive Cpu (η : Type*) where
  /-- About to take {lit}`hmu`, at the start of {lit}`schedule` or when {lit}`hcv` has woken it. -/
  | lock
  /-- It holds {lit}`hmu` and is about to test the predicate. -/
  | test
  /-- It holds {lit}`hmu`, and its predicate has been false. -/
  | sleep
  /-- In {lit}`hcv.wait`, without {lit}`hmu`. -/
  | asleep
  /-- It holds {lit}`hmu`, and its predicate has taken {lit}`h`. -/
  | unlock (h : η)
  /-- About to call {lit}`h.resume()`. -/
  | resume (h : η)
  /-- About to try {lit}`readyRo_.dequeue(h)` without {lit}`hmu`. -/
  | drain

/-- The thread can be woken. -/
def Cpu.isAsleep {η : Type*} : Cpu η → Bool
  | asleep => true
  | _ => false

/-- Where a call of {lit}`CoKernel::wakeUpReady` is. -/
inductive Caller (η : Type*) where
  | idle
  /-- About to take {lit}`hmu`. -/
  | lock (h : η)
  /-- It holds {lit}`hmu` and is about to enqueue {lit}`h`. -/
  | enqueue (h : η)
  /-- It holds {lit}`hmu` and has enqueued. -/
  | unlock
  /-- About to call {lit}`hcv.notify_one()`. -/
  | notify

/-- The CPU threads {lit}`τ` and the callers {lit}`κ`; {lit}`passed` and {lit}`resumed` record the handles that have been
enqueued and those that have been resumed. -/
structure State (τ κ η : Type*) where
  hmu : Option (τ ⊕ κ)
  readyRo_ : List η
  cpu : τ → Cpu η
  caller : κ → Caller η
  passed : List η
  resumed : List η

variable {τ κ η : Type*}

/-- Every CPU thread is about to call {lit}`schedule`. -/
def State.construct : State τ κ η where
  hmu := none
  readyRo_ := []
  cpu := fun _ => .lock
  caller := fun _ => .idle
  passed := []
  resumed := []

inductive Action (τ κ η : Type*) where
  /-- {lit}`wakeUpReady(h)` is called. -/
  | call (c : κ) (h : η)
  /-- The caller goes on, up to its {lit}`notify_one`. -/
  | caller (c : κ)
  /-- {lit}`notify_one` wakes {lit}`woken`; it wakes nobody only when nobody is asleep. -/
  | notify (c : κ) (woken : Option τ)
  /-- The CPU thread goes on. -/
  | cpu (t : τ)
  /-- The CPU thread leaves {lit}`hcv.wait` without a notification. -/
  | spurious (t : τ)

variable [Fintype τ] [DecidableEq τ] [DecidableEq κ]

namespace State

variable (s : State τ κ η)

/-- Move a CPU thread. -/
def onCpu (t : τ) (pc : Cpu η) : State τ κ η :=
  { s with cpu := Function.update s.cpu t pc }

/-- Move a caller. -/
def onCaller (c : κ) (pc : Caller η) : State τ κ η :=
  { s with caller := Function.update s.caller c pc }

/-- The next step of a caller. -/
def stepCaller (c : κ) : Option (State τ κ η) :=
  match s.caller c with
  | .lock h =>
      if s.hmu = none then some { s.onCaller c (.enqueue h) with hmu := some (.inr c) } else none
  | .enqueue h =>
      some { s.onCaller c .unlock with
        readyRo_ := s.readyRo_ ++ [h]
        passed := s.passed ++ [h] }
  | .unlock => some { s.onCaller c .notify with hmu := none }
  | _ => none

/-- {lit}`hcv.notify_one()` -/
def notify (c : κ) (woken : Option τ) : Option (State τ κ η) :=
  match s.caller c, woken with
  | .notify, some t =>
      if (s.cpu t).isAsleep then some ((s.onCaller c .idle).onCpu t .lock) else none
  | .notify, none =>
      if ∀ t, (s.cpu t).isAsleep = false then some (s.onCaller c .idle) else none
  | _, _ => none

/-- The next step of a CPU thread. -/
def stepCpu (t : τ) : Option (State τ κ η) :=
  match s.cpu t with
  | .lock => if s.hmu = none then some { s.onCpu t .test with hmu := some (.inl t) } else none
  | .test =>
      match s.readyRo_ with
      | h :: rest => some { s.onCpu t (.unlock h) with readyRo_ := rest }
      | [] => some (s.onCpu t .sleep)
  | .sleep => some { s.onCpu t .asleep with hmu := none }
  | .asleep => none
  | .unlock h => some { s.onCpu t (.resume h) with hmu := none }
  | .resume h => some { s.onCpu t .drain with resumed := s.resumed ++ [h] }
  | .drain =>
      match s.readyRo_ with
      | h :: rest => some { s.onCpu t (.resume h) with readyRo_ := rest }
      | [] => some (s.onCpu t .lock)

end State

/-- One step. -/
def step (s : State τ κ η) : Action τ κ η → Option (State τ κ η)
  | .call c h =>
      match s.caller c with
      | .idle => some (s.onCaller c (.lock h))
      | _ => none
  | .caller c => s.stepCaller c
  | .notify c woken => s.notify c woken
  | .cpu t => s.stepCpu t
  | .spurious t => if (s.cpu t).isAsleep then some (s.onCpu t .lock) else none

/-- The CPU threads and the callers under any interleaving. -/
def machine : Machine (State τ κ η) (Action τ κ η) where
  init s := s = State.construct
  step := step

end Schedule
end CoEpoll
