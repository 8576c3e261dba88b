import CoEpoll.Direct.Calls
import CoEpoll.Transition.Machine

/-!
# `Lazy` and `Task`: the coroutine frames and the CPU threads that resume them

A coroutine function is given by its code in direct style.  Its frame is a cell of the memory: it holds
where the coroutine stands, an awaiter included, and the promise.  {lit}`co_await` of a Lazy links the frames
through {lit}`_continuation` and hands the thread over by symmetric transfer; {lit}`await_resume` destroys the
callee's frame.  An address can be used again once its frame has been destroyed.  A thread that uses
a null pointer or a destroyed frame sets {lit}`fault`.

{lit}`make_task` reads {lit}`TaskPromise::cnt` in one step and stores the successor in a later one, so that two
threads can read the same value.

What is assumed of the code around these two classes:

- An awaiter either suspends the coroutine and gives its handle to one party, which answers once, or
  it goes on and gives the handle to nobody.  {lit}`GetAwaiter` can do both at once, when the flag is set
  behind its push.
- {lit}`readyRo_` is an atomic queue, which neither loses a handle nor gives it out twice.
- {lit}`tid` is written by {lit}`TaskPromise()` alone.  {lit}`UnlockAwaiter` overwrites it when a coroutine unlocks a
  mutex that it does not hold.
- A Lazy is awaited by the coroutine that has made it, as soon as it is made, or given to
  {lit}`make_task`; none is kept, moved on or dropped.
-/

namespace CoEpoll
namespace Lazy

open Direct Transition

/-- Where a {lit}`Lazy` coroutine stands. -/
inductive Point (η σ V E X R : Type*) where
  /-- In {lit}`initial_suspend`. -/
  | start (s : σ)
  /-- In its body. -/
  | body (s : σ)
  /-- In a call of {lit}`make_task(lazy)` that has read {lit}`cnt`; it goes on at {lit}`s`. -/
  | counted (tid : ℕ) (lazy : σ) (s : σ)
  /-- In {lit}`co_await` of a Lazy, with the {lit}`ValueAwaiter` of {lit}`_handle`. -/
  | await (_handle : η) (k : Except E V → σ)
  /-- In {lit}`co_await` of {lit}`x`, which waits for a party outside; {lit}`ret` is what that party has stored. -/
  | suspended (x : X) (k : R → σ) (ret : Option R)
  /-- In {lit}`final_suspend`. -/
  | final

/-- {lit}`LazyPromise<T>`; {lit}`_tcb` points into the frame of a Task. -/
structure LazyPromise (η V E : Type*) where
  _continuation : Option η
  _tcb : Option η
  _value : Option (Except E V)

/-- Where the coroutine {lit}`make_task` stands. -/
inductive TaskPoint (η : Type*) where
  /-- In {lit}`InitAwaiter`; the frame holds the parameter. -/
  | start (lazy : η)
  /-- In {lit}`co_await lazy`. -/
  | await (_handle : η)

/-- A coroutine frame; {lit}`TaskPromise` holds {lit}`_tcb.tid`. -/
inductive Frame (η σ V E X R : Type*) where
  | lazy (point : Point η σ V E X R) (promise : LazyPromise η V E)
  | task (tid : ℕ) (point : TaskPoint η)

/-- {lit}`LazyPromise()` -/
def LazyPromise.construct {η V E : Type*} : LazyPromise η V E where
  _continuation := none
  _tcb := none
  _value := none

/-- {lit}`return_value` and {lit}`unhandled_exception` -/
def LazyPromise.finish {η V E : Type*} (p : LazyPromise η V E) (o : Except E V) :
    LazyPromise η V E :=
  { p with _value := some o }

/-- {lit}`promise()._tcb`, or its address in the promise that holds the {lit}`UTCB` itself. -/
def Frame.tcb {η σ V E X R : Type*} (h : η) : Frame η σ V E X R → Option η
  | .lazy _ p => p._tcb
  | .task _ _ => some h

/-- What is recorded of a Task: the Lazy it has been made for, and its events. -/
structure Record (σ X R : Type*) where
  body : σ
  tid : ℕ
  log : List (Event σ X R)

def Record.add {σ X R : Type*} (record : Record σ X R) (e : Event σ X R) : Record σ X R :=
  { record with log := record.log ++ [e] }

/-- The frames, the ready queue and the coroutines that the CPU threads {lit}`τ` are in; {lit}`record` and {lit}`finished`
record what the Tasks have done and no step reads them. -/
structure State (τ η σ V E X R : Type*) where
  frames : η → Option (Frame η σ V E X R)
  readyRo_ : List η
  cpu : τ → Option η
  cnt : ℕ
  fault : Bool
  record : η → Record σ X R
  finished : List (Record σ X R × Except E V)

variable {τ η σ V E X R : Type*}

/-- No coroutine has been made; {lit}`record` is arbitrary. -/
def State.construct (record : η → Record σ X R) : State τ η σ V E X R where
  frames := fun _ => none
  readyRo_ := []
  cpu := fun _ => none
  cnt := 1
  fault := false
  record := record
  finished := []

inductive Action (τ η σ R : Type*) where
  /-- {lit}`async_run` from outside the coroutines; the frames come to lie at {lit}`lazy` and {lit}`task`. -/
  | async_run (body : σ) (lazy task : η)
  /-- The thread takes a handle off the ready queue and resumes it. -/
  | schedule (θ : τ)
  /-- The thread goes on in its coroutine. -/
  | cpu (θ : τ)
  /-- The coroutine calls another and awaits it; its frame comes to lie at {lit}`callee`. -/
  | call (θ : τ) (callee : η)
  /-- {lit}`make_task` goes on behind the reading of {lit}`cnt`. -/
  | make_task (θ : τ) (lazy task : η)
  /-- {lit}`await_suspend` returns {lit}`true`. -/
  | suspend (θ : τ)
  /-- {lit}`await_suspend` returns {lit}`false`, and {lit}`await_resume` returns {lit}`r`. -/
  | pass (θ : τ) (r : R)
  /-- The party that has been given {lit}`h` stores {lit}`r` and wakes the coroutine. -/
  | wake (h : η) (r : R)

variable [DecidableEq τ] [DecidableEq η]

namespace State

variable (s : State τ η σ V E X R)

/-- A null pointer or a destroyed frame has been used. -/
@[simps] def fail : State τ η σ V E X R :=
  { s with fault := true }

@[simps] def write (h : η) (f : Frame η σ V E X R) : State τ η σ V E X R :=
  { s with frames := Function.update s.frames h (some f) }

@[simps] def destroy (h : η) : State τ η σ V E X R :=
  { s with frames := Function.update s.frames h none }

/-- The thread goes on in {lit}`h`, or it returns to {lit}`schedule`. -/
@[simps] def transfer (θ : τ) (h : Option η) : State τ η σ V E X R :=
  { s with cpu := Function.update s.cpu θ h }

/-- {lit}`CoKernel::wakeUpReady`, with an atomic {lit}`enqueue`. -/
@[simps] def wakeUpReady (h : η) : State τ η σ V E X R :=
  { s with readyRo_ := s.readyRo_ ++ [h] }

/-- Record an event of the coroutine's Task. -/
def note (h : η) (e : Event σ X R) : State τ η σ V E X R :=
  match (s.frames h).bind (Frame.tcb h) with
  | some t => { s with record := Function.update s.record t ((s.record t).add e) }
  | none => s

/-- {lit}`ValueAwaiter::await_suspend` -/
def awaitSuspend (_handle continuation : η) : State τ η σ V E X R :=
  match s.frames _handle, s.frames continuation with
  | some (.lazy point p), some f =>
      s.write _handle (.lazy point
        { p with _continuation := some continuation, _tcb := f.tcb continuation })
  | _, _ => s.fail

/-- {lit}`ValueAwaiter::await_resume`: what {lit}`result()` returns or throws, and the frame is destroyed. -/
def awaitResume (_handle : η) : Option (Except E V × State τ η σ V E X R) :=
  match s.frames _handle with
  | some (.lazy .final p) => p._value.map fun o => (o, s.destroy _handle)
  | _ => none

/-- {lit}`FinalAwaiter::await_suspend` -/
def finalSuspend (θ : τ) (h : η) (p : LazyPromise η V E) : State τ η σ V E X R :=
  match p._continuation with
  | some c => (s.write h (.lazy .final p)).transfer θ (some c)
  | none => s.fail

/-- {lit}`make_task` of a new coroutine: {lit}`cnt` is stored, the frame of the Task is made and {lit}`InitAwaiter`
puts it on the ready queue. -/
def makeTask (tid : ℕ) (body : σ) (lazy task : η) : State τ η σ V E X R :=
  let s := (s.write lazy (.lazy (.start body) .construct)).write task (.task tid (.start lazy))
  { s.wakeUpReady task with
    cnt := tid + 1
    record := Function.update s.record task { body := body, tid := tid, log := [] } }

/-- The {lit}`Lazy` coroutine that the thread is in. -/
def current (θ : τ) : Option (η × Point η σ V E X R × LazyPromise η V E) :=
  match s.cpu θ with
  | some h =>
      match s.frames h with
      | some (.lazy point p) => some (h, point, p)
      | _ => none
  | none => none

end State

/-- Both addresses are free. -/
def Fresh (s : State τ η σ V E X R) (lazy task : η) : Prop :=
  s.frames lazy = none ∧ s.frames task = none ∧ lazy ≠ task

instance (s : State τ η σ V E X R) (lazy task : η) : Decidable (Fresh s lazy task) :=
  decidable_of_iff ((s.frames lazy).isNone ∧ (s.frames task).isNone ∧ lazy ≠ task) <| by
    rw [Option.isNone_iff_eq_none, Option.isNone_iff_eq_none, Fresh]

variable (code : σ → Op σ ℕ V E X R) (s : State τ η σ V E X R)

/-- The thread goes on in the body of {lit}`h`, as far as this needs nothing from outside. -/
def stepBody (θ : τ) (h : η) (p : LazyPromise η V E) (x : σ) : Option (State τ η σ V E X R) :=
  match code x with
  | .done o => some (s.finalSuspend θ h (p.finish o))
  | .ask k =>
      -- `GetTCB` returns `false` from `await_suspend`; nobody has written to the `UTCB` since
      match p._tcb.bind s.frames with
      | some (.task tid _) => some (s.write h (.lazy (.body (k tid)) p))
      | _ => some s.fail
  | .spawn lazy x' => some (s.write h (.lazy (.counted s.cnt lazy x') p))
  | _ => none

/-- The thread goes on in its coroutine. -/
def stepCpu (θ : τ) : Option (State τ η σ V E X R) :=
  match s.cpu θ with
  | none => none
  | some h =>
      match s.frames h with
      | none => some s.fail
      | some (.task tid (.start lazy)) =>
          let s := (s.write h (.task tid (.await lazy))).awaitSuspend lazy h
          some (s.transfer θ (some lazy))
      | some (.task _ (.await callee)) =>
          match s.awaitResume callee with
          | some (o, s') =>
              -- an exception ends in `TaskPromise::unhandled_exception`; `final_suspend` never
              -- suspends, so the frame is destroyed and `resume()` returns
              some { (s'.destroy h).transfer θ none with
                finished := s.finished ++ [(s.record h, o)] }
          | none => some s.fail
      | some (.lazy (.start x) p) => some (s.write h (.lazy (.body x) p))
      | some (.lazy (.body x) p) => stepBody code s θ h p x
      | some (.lazy (.counted _ _ _) _) => none
      | some (.lazy (.await callee k) p) =>
          match s.awaitResume callee with
          | some (o, s') => some (s'.write h (.lazy (.body (k o)) p))
          | none => some s.fail
      | some (.lazy (.suspended _ k (some r)) p) => some (s.write h (.lazy (.body (k r)) p))
      | some (.lazy (.suspended _ _ none) _) => some s.fail
      | some (.lazy .final _) => some s.fail

/-- The coroutine calls another one and awaits it. -/
def stepCall (θ : τ) (callee : η) : Option (State τ η σ V E X R) :=
  match s.current θ with
  | some (h, .body x, p) =>
      match code x with
      | .call c k =>
          if (s.frames callee).isNone then
            let s := s.write callee (.lazy (.start c) .construct)
            let s := (s.write h (.lazy (.await callee k) p)).awaitSuspend callee h
            some (s.transfer θ (some callee))
          else none
      | _ => none
  | _ => none

/-- The second part of {lit}`make_task`. -/
def stepMakeTask (θ : τ) (lazy task : η) : Option (State τ η σ V E X R) :=
  match s.current θ with
  | some (h, .counted tid body x, p) =>
      if Fresh s lazy task then
        some (((s.note h (.spawned body)).write h (.lazy (.body x) p)).makeTask tid body lazy task)
      else none
  | _ => none

/-- The coroutine is suspended by an awaiter that gives its handle to one party, and {lit}`resume()`
returns. -/
def stepSuspend (θ : τ) : Option (State τ η σ V E X R) :=
  match s.current θ with
  | some (h, .body x, p) =>
      match code x with
      | .wait aw k => some ((s.write h (.lazy (.suspended aw k none) p)).transfer θ none)
      | _ => none
  | _ => none

/-- The awaiter does not suspend the coroutine, and gives its handle to nobody. -/
def stepPass (θ : τ) (r : R) : Option (State τ η σ V E X R) :=
  match s.current θ with
  | some (h, .body x, p) =>
      match code x with
      | .wait aw k => some ((s.note h (.answered aw r)).write h (.lazy (.body (k r)) p))
      | _ => none
  | _ => none

/-- The party that has the handle answers, once. -/
def stepWake (h : η) (r : R) : Option (State τ η σ V E X R) :=
  match s.frames h with
  | some (.lazy (.suspended aw k none) p) =>
      let s := s.note h (.answered aw r)
      some ((s.write h (.lazy (.suspended aw k (some r)) p)).wakeUpReady h)
  | _ => none

/-- One step. -/
def step : Action τ η σ R → Option (State τ η σ V E X R)
  | .async_run body lazy task =>
      if Fresh s lazy task then some (s.makeTask s.cnt body lazy task) else none
  | .schedule θ =>
      match s.cpu θ, s.readyRo_ with
      | none, h :: rest => some { s.transfer θ (some h) with readyRo_ := rest }
      | _, _ => none
  | .cpu θ => stepCpu code s θ
  | .call θ callee => stepCall code s θ callee
  | .make_task θ lazy task => stepMakeTask s θ lazy task
  | .suspend θ => stepSuspend code s θ
  | .pass θ r => stepPass code s θ r
  | .wake h r => stepWake s h r

/-- The CPU threads under any interleaving, any answers and any placing of the frames. -/
def machine : Machine (State τ η σ V E X R) (Action τ η σ R) where
  init s := ∃ record, s = State.construct record
  step s a := step code s a

/-! ## A run -/

/-- From {lit}`0` on the code calls a coroutine that waits for a number, and adds to what it returns. -/
def sample : ℕ → Op ℕ ℕ ℕ String Unit ℕ
  | 0 => .call 1 fun o => o.toOption.getD 0 + 2
  | 1 => .wait () fun r => r + 2
  | n => .done (.ok n)

/-- The Task at {lit}`1` waits in the coroutine at {lit}`2`. -/
def sampleCall : List (Action Unit ℕ ℕ ℕ) :=
  [.async_run 0 0 1, .schedule (), .cpu (), .cpu (), .call () 2, .cpu (), .suspend ()]

/-- It is woken with {lit}`5` and runs to its end. -/
def sampleEnd : List (Action Unit ℕ ℕ ℕ) :=
  [.wake 2 5, .schedule (), .cpu (), .cpu (), .cpu (), .cpu (), .cpu ()]

/-- No coroutine has been made. -/
def sampleStart : State Unit ℕ ℕ ℕ String Unit ℕ :=
  State.construct fun _ => ⟨0, 0, []⟩

end Lazy
end CoEpoll
