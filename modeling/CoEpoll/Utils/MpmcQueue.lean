import CoEpoll.Transition.LinkedChain
import CoEpoll.Transition.Machine

/-!
# `MpmcQueue`: the two node chains at their atomic actions

The queue keeps a chain of used nodes, from {lit}`uHead_` to {lit}`uTail_`, and a
chain of spare nodes, from {lit}`sHead_` to {lit}`sTail_`.  An {lit}`enqueue` takes the
first spare node under {lit}`sLk_` and appends it to the used chain without a lock;
a {lit}`dequeue` takes the first used node under {lit}`uLk_` and appends it to the spare
chain without a lock.  Every load, store and exchange is one action of the
machine, so an action list is an interleaving of the calls.
-/

namespace CoEpoll
namespace MpmcQueue

open Transition

/-- The address of a {lit}`BufferNode`; addresses are handed out in order. -/
abbrev NodePtr := Nat

/-- The next action of a thread, with the local variables it still needs. -/
inductive Pc (T : Type*) where
  | idle
  -- `enqueue`, under `sLk_` from `enqHead` to `enqUnlock`
  | enqLock (input : T)
  | enqHead (input : T)
  | enqNext (input : T) (pres : NodePtr)
  | enqCmpHead (input : T) (pres : NodePtr)
  | enqCmpTail (input : T) (pres head : NodePtr)
  | enqNew (input : T) (pres : NodePtr)
  | enqStoreTail (input : T) (pres nexts : NodePtr)
  | enqStoreHead (input : T) (pres nexts : NodePtr)
  | enqUnlock (input : T) (pres : NodePtr)
  | enqData (input : T) (pres : NodePtr)
  | enqNull (input : T) (pres : NodePtr)
  | enqExch (input : T) (pres : NodePtr)
  | enqLink (preu pres : NodePtr)
  -- `dequeue`, under `uLk_` from `deqHead` to `deqUnlock`
  | deqLock
  | deqHead
  | deqNext (preu : NodePtr)
  | deqCmpHead (preu : NodePtr)
  | deqCmpTail (preu head : NodePtr)
  | deqFail
  | deqStoreHead (preu nextu : NodePtr)
  | deqData (preu nextu : NodePtr)
  | deqUnlock (preu : NodePtr) (output : T)
  | deqNull (preu : NodePtr) (output : T)
  | deqExch (preu : NodePtr) (output : T)
  | deqLink (preu pres : NodePtr) (output : T)

/-- The queue, the memory of its nodes and the threads that use it.  A lock
records the thread that holds it. -/
structure State (τ T : Type*) where
  data : NodePtr → T
  next_ : NodePtr → Option NodePtr
  allocated : Nat
  uHead_ : NodePtr
  uTail_ : NodePtr
  uLk_ : Option τ
  sHead_ : NodePtr
  sTail_ : NodePtr
  sLk_ : Option τ
  pc : τ → Pc T

variable {τ T : Type*}

/-- {lit}`MpmcQueue::MpmcQueue`: one used node and one spare node. -/
def State.construct [Inhabited T] : State τ T where
  data := fun _ => default
  next_ := fun _ => none
  allocated := 2
  uHead_ := 0
  uTail_ := 0
  uLk_ := none
  sHead_ := 1
  sTail_ := 1
  sLk_ := none
  pc := fun _ => .idle

/-- A thread calls {lit}`enqueue` or {lit}`dequeue`, or performs its next atomic action. -/
inductive Action (τ T : Type*) where
  | enqueue (t : τ) (input : T)
  | dequeue (t : τ)
  | go (t : τ)

variable [DecidableEq τ]

/-- Thread {lit}`t` continues at {lit}`p`. -/
def State.goto (q : State τ T) (t : τ) (p : Pc T) : State τ T :=
  { q with pc := Function.update q.pc t p }

@[simp] theorem State.goto_data (q : State τ T) (t : τ) (p : Pc T) :
    (q.goto t p).data = q.data := rfl
@[simp] theorem State.goto_next (q : State τ T) (t : τ) (p : Pc T) :
    (q.goto t p).next_ = q.next_ := rfl
@[simp] theorem State.goto_allocated (q : State τ T) (t : τ) (p : Pc T) :
    (q.goto t p).allocated = q.allocated := rfl
@[simp] theorem State.goto_uHead (q : State τ T) (t : τ) (p : Pc T) :
    (q.goto t p).uHead_ = q.uHead_ := rfl
@[simp] theorem State.goto_uTail (q : State τ T) (t : τ) (p : Pc T) :
    (q.goto t p).uTail_ = q.uTail_ := rfl
@[simp] theorem State.goto_uLk (q : State τ T) (t : τ) (p : Pc T) :
    (q.goto t p).uLk_ = q.uLk_ := rfl
@[simp] theorem State.goto_sHead (q : State τ T) (t : τ) (p : Pc T) :
    (q.goto t p).sHead_ = q.sHead_ := rfl
@[simp] theorem State.goto_sTail (q : State τ T) (t : τ) (p : Pc T) :
    (q.goto t p).sTail_ = q.sTail_ := rfl
@[simp] theorem State.goto_sLk (q : State τ T) (t : τ) (p : Pc T) :
    (q.goto t p).sLk_ = q.sLk_ := rfl
@[simp] theorem State.goto_pc (q : State τ T) (t : τ) (p : Pc T) :
    (q.goto t p).pc = Function.update q.pc t p := rfl

/-- The next atomic action of thread {lit}`t`.  {lit}`moved v` is what {lit}`std::move`
leaves behind in an object that held {lit}`v`. -/
def advance [Inhabited T] (moved : T → T) (q : State τ T) (t : τ) : Option (State τ T) :=
  match q.pc t with
  | .idle => none
  | .enqLock input =>
      if q.sLk_ = none then
        some ({ q with sLk_ := some t }.goto t (.enqHead input))
      else none
  | .enqHead input => some (q.goto t (.enqNext input q.sHead_))
  | .enqNext input pres =>
      match q.next_ pres with
      | some nexts => some (q.goto t (.enqStoreHead input pres nexts))
      | none => some (q.goto t (.enqCmpHead input pres))
  | .enqCmpHead input pres => some (q.goto t (.enqCmpTail input pres q.sHead_))
  | .enqCmpTail input pres head =>
      if head = q.sTail_ then some (q.goto t (.enqNew input pres))
      else some (q.goto t (.enqNext input pres))
  | .enqNew input pres =>
      some ({ q with
        data := Function.update q.data q.allocated default
        next_ := Function.update q.next_ q.allocated none
        allocated := q.allocated + 1 }.goto t (.enqStoreTail input pres q.allocated))
  | .enqStoreTail input pres nexts =>
      some ({ q with sTail_ := nexts }.goto t (.enqStoreHead input pres nexts))
  | .enqStoreHead input pres nexts =>
      some ({ q with sHead_ := nexts }.goto t (.enqUnlock input pres))
  | .enqUnlock input pres => some ({ q with sLk_ := none }.goto t (.enqData input pres))
  | .enqData input pres =>
      some ({ q with data := Function.update q.data pres input }.goto t (.enqNull input pres))
  | .enqNull input pres =>
      some ({ q with next_ := Function.update q.next_ pres none }.goto t (.enqExch input pres))
  | .enqExch _ pres => some ({ q with uTail_ := pres }.goto t (.enqLink q.uTail_ pres))
  | .enqLink preu pres =>
      some ({ q with next_ := Function.update q.next_ preu (some pres) }.goto t .idle)
  | .deqLock =>
      if q.uLk_ = none then some ({ q with uLk_ := some t }.goto t .deqHead) else none
  | .deqHead => some (q.goto t (.deqNext q.uHead_))
  | .deqNext preu =>
      match q.next_ preu with
      | some nextu => some (q.goto t (.deqStoreHead preu nextu))
      | none => some (q.goto t (.deqCmpHead preu))
  | .deqCmpHead preu => some (q.goto t (.deqCmpTail preu q.uHead_))
  | .deqCmpTail preu head =>
      if head = q.uTail_ then some (q.goto t .deqFail)
      else some (q.goto t (.deqNext preu))
  | .deqFail => some ({ q with uLk_ := none }.goto t .idle)
  | .deqStoreHead preu nextu => some ({ q with uHead_ := nextu }.goto t (.deqData preu nextu))
  | .deqData preu nextu =>
      some ({ q with data := Function.update q.data nextu (moved (q.data nextu)) }.goto t
        (.deqUnlock preu (q.data nextu)))
  | .deqUnlock preu output => some ({ q with uLk_ := none }.goto t (.deqNull preu output))
  | .deqNull preu output =>
      some ({ q with next_ := Function.update q.next_ preu none }.goto t (.deqExch preu output))
  | .deqExch preu output =>
      some ({ q with sTail_ := preu }.goto t (.deqLink preu q.sTail_ output))
  | .deqLink preu pres _ =>
      some ({ q with next_ := Function.update q.next_ pres (some preu) }.goto t .idle)

/-- One action of one thread; a call starts only when the thread is in no call. -/
def step [Inhabited T] (moved : T → T) (q : State τ T) : Action τ T → Option (State τ T)
  | .enqueue t input =>
      match q.pc t with
      | .idle => some (q.goto t (.enqLock input))
      | _ => none
  | .dequeue t =>
      match q.pc t with
      | .idle => some (q.goto t .deqLock)
      | _ => none
  | .go t => advance moved q t

/-- The queue from its construction on, under any interleaving. -/
def machine [Inhabited T] (moved : T → T) : Machine (State τ T) (Action τ T) where
  init q := q = State.construct
  step := step moved

/-! ## What the calls show to their callers -/

/-- Values passed in and out, and the two moments that order them. -/
inductive Event (T : Type*) where
  | called (v : T)
  | exchanged (v : T)
  | taken (v : T)
  | returned (v : T)
deriving DecidableEq

/-- {lit}`called` when {lit}`enqueue` starts, {lit}`exchanged` when it exchanges {lit}`uTail_`,
{lit}`taken` when {lit}`dequeue` reads the value and {lit}`returned` when it returns true. -/
def emit (q : State τ T) : Action τ T → List (Event T)
  | .enqueue _ input => [.called input]
  | .dequeue _ => []
  | .go t =>
      match q.pc t with
      | .enqExch input _ => [.exchanged input]
      | .deqData _ nextu => [.taken (q.data nextu)]
      | .deqLink _ _ output => [.returned output]
      | _ => []

/-- The values passed to {lit}`enqueue`, in the order of the calls. -/
def calledValues (es : List (Event T)) : List T :=
  es.filterMap fun
    | .called v => some v
    | _ => none

/-- The enqueued values, in the order in which the calls exchanged {lit}`uTail_`. -/
def exchangedValues (es : List (Event T)) : List T :=
  es.filterMap fun
    | .exchanged v => some v
    | _ => none

/-- The values read by {lit}`dequeue`, in the order of the reads. -/
def takenValues (es : List (Event T)) : List T :=
  es.filterMap fun
    | .taken v => some v
    | _ => none

/-- The values of the successful {lit}`dequeue` calls, in the order of their returns. -/
def returnedValues (es : List (Event T)) : List T :=
  es.filterMap fun
    | .returned v => some v
    | _ => none

/-- The nodes after {lit}`uHead_` up to {lit}`uTail_`, as the next pointers spell them. -/
def State.usedNodes (q : State τ T) : List NodePtr :=
  follow q.next_ q.uTail_ q.allocated q.uHead_

/-- No thread is in a call. -/
def State.Quiet (q : State τ T) : Prop :=
  ∀ t, q.pc t = .idle

end MpmcQueue
end CoEpoll
