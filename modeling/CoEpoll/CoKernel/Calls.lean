import CoEpoll.CoKernel.LoadOrder.Masks
import CoEpoll.CoKernel.MuCore

/-!
# `updateIRQ`, `removeIRQ` and `waitFile` as coroutines

The calls that use {lit}`fileWQPtrs_` and {lit}`icus_` take {lit}`fMapLk_`, ask an ICU through its queue of functions
and are suspended until the ICU has asked its poller.  Here a call is a sequence of steps, and the
steps of all coroutines and ICUs come in any order; the mutex is the one of {lit}`MuCore`.  {lit}`waitFile` is
modelled up to the end of its lookup.

The ICUs are modelled by the functions that they run, one after the other, at any time: the phases of
{lit}`ICU::loop`, its eventfd and {lit}`epoll_wait` are left out, and {lit}`funcs_` is an atomic queue.  That an ICU
comes to its queue again is assumed wherever a call is said to go on.

Beside it stands the kernel in which a call takes effect in one step between its beginning and its
end.
-/

namespace CoEpoll
namespace CoKernel
namespace Calls

open Transition

/-- A call that uses {lit}`fMapLk_`. -/
inductive Call where
  | updateIRQ (fd : Int32) (events : UInt32)
  | removeIRQ (fd : Int32)
  | waitFile (fd : Int32)
deriving DecidableEq

/-- A call and what it returns; {lit}`waitFile` goes on with the {lit}`fq` that it has found. -/
inductive Done (ι : Type*) where
  | irq (a : CoKernel.Action)
  | waitFile (fd : Int32) (fq : Option (FileWQ ι))
deriving DecidableEq

def Done.call {ι : Type*} : Done ι → Call
  | irq (.updateIRQ fd events _) => .updateIRQ fd events
  | irq (.removeIRQ fd _) => .removeIRQ fd
  | waitFile fd _ => .waitFile fd

/-- {lit}`EPOLL_CTL_ADD`, {lit}`EPOLL_CTL_MOD` and {lit}`EPOLL_CTL_DEL` -/
inductive Op where
  | add
  | mod
  | del
deriving DecidableEq

/-- The function that {lit}`ICUFAwaiter` is given; {lit}`fd` is the parameter of the call. -/
structure Request (ι : Type*) where
  op : Op
  fd : Int32
  fq : FileWQ ι
deriving DecidableEq

def Request.call {ι : Type*} (r : Request ι) : Call :=
  match r.op with
  | .add => .updateIRQ r.fd r.fq.wevents_
  | .mod => .updateIRQ r.fd r.fq.wevents_
  | .del => .removeIRQ r.fd

/-- What the call returns after the answer {lit}`ret`. -/
def Request.done {ι : Type*} (r : Request ι) (ret : Int) : Done ι :=
  match r.op with
  | .add => .irq (.updateIRQ r.fd r.fq.wevents_ ret)
  | .mod => .irq (.updateIRQ r.fd r.fq.wevents_ ret)
  | .del => .irq (.removeIRQ r.fd ret)

/-- The mask that {lit}`IRQPoll::updateIRQ` reads; for {lit}`modIRQ` the {lit}`FileWQ` is the one in the map. -/
def Request.mask {ι : Type*} (s : CoKernel.State ι) (r : Request ι) : Option UInt32 :=
  match r.op with
  | .add => some r.fq.wevents_
  | .mod => (Assoc.find s.fileWQPtrs_ r.fd).map FileWQ.wevents_
  | .del => none

/-- Where a coroutine stands. -/
inductive Stage (ι : Type*) where
  /-- In no call. -/
  | idle
  /-- In {lit}`co_await CoRoLock(fMapLk_)`, or about to call {lit}`fileWQPtrs_.find`. -/
  | lock (c : Call)
  /-- About to call {lit}`file->second->setWEvents`. -/
  | setWEvents (fd : Int32) (fq : FileWQ ι) (events : UInt32)
  /-- In {lit}`ICUFAwaiter::await_suspend`. -/
  | queueInLoop (r : Request ι)
  /-- Suspended until the ICU has run the function. -/
  | waiting (r : Request ι)
  /-- Woken with the answer of the poller. -/
  | resumed (r : Request ι) (ret : Int)
  /-- {lit}`fileWQPtrs_` has been changed, {lit}`icus_` not yet. -/
  | reorder (r : Request ι) (ret : Int)
  /-- In {lit}`co_await CoRoUnlock(fMapLk_)`, or about to return. -/
  | unlock (d : Done ι)
deriving DecidableEq

/-- The kernel, the pollers, the functions queued in each ICU, given by the coroutines that have
queued them, and where each coroutine stands. -/
structure State (κ ι : Type*) where
  fMapLk_ : MuCore.State κ
  polled : Polled ι
  funcs_ : ι → List κ
  stage : κ → Stage ι

variable {κ ι : Type*}

/-- A new kernel and coroutines with the task ids {lit}`tid`. -/
def State.construct (icus : List ι) (pos : ι → Nat) (tid : κ → Int) : State κ ι where
  fMapLk_ := MuCore.State.construct tid
  polled := Polled.construct icus pos
  funcs_ _ := []
  stage _ := .idle

inductive Action (κ ι : Type*) where
  | call (k : κ) (c : Call)
  /-- The next step of the coroutine. -/
  | go (k : κ)
  /-- The ICU runs the first function of its queue, and its poller answers {lit}`ret`. -/
  | loop (icu : ι) (ret : Int)
deriving DecidableEq

/-- {lit}`fileWQPtrs_.find` and the branch that is taken. -/
def look (s : CoKernel.State ι) : Call → Option (Stage ι)
  | .updateIRQ fd events =>
      match Assoc.find s.fileWQPtrs_ fd with
      | none => s.icus_[0]?.map fun icu => .queueInLoop ⟨.add, fd, ⟨fd, icu, events⟩⟩
      | some fq => some (.setWEvents fd fq events)
  | .removeIRQ fd =>
      match Assoc.find s.fileWQPtrs_ fd with
      | none => some (.unlock (.irq (.removeIRQ fd 0)))
      | some fq => some (.queueInLoop ⟨.del, fd, fq⟩)
  | .waitFile fd => some (.unlock (.waitFile fd (Assoc.find s.fileWQPtrs_ fd)))

@[simps] def State.setKernel (s : State κ ι) (kernel : CoKernel.State ι) : State κ ι :=
  { s with polled := { s.polled with kernel := kernel } }

@[simps] def State.setMutex (s : State κ ι) (fMapLk_ : MuCore.State κ) : State κ ι :=
  { s with fMapLk_ := fMapLk_ }

/-- {lit}`fileWQPtrs_.insert`, or {lit}`fileWQPtrs_.erase` -/
def Request.store (r : Request ι) (s : CoKernel.State ι) : CoKernel.State ι :=
  match r.op with
  | .add => { s with fileWQPtrs_ := (r.fd, r.fq) :: s.fileWQPtrs_ }
  | .mod => s
  | .del => { s with fileWQPtrs_ := Assoc.erase s.fileWQPtrs_ r.fd }

/-- After the answer {lit}`ret` the call changes {lit}`fileWQPtrs_`. -/
def Request.stores (r : Request ι) (ret : Int) : Bool :=
  match r.op with
  | .add => ret = 0
  | .mod => false
  | .del => true

section Step

variable [DecidableEq κ]

/-- The coroutine goes on at {lit}`st`. -/
@[simps] def State.goto (s : State κ ι) (k : κ) (st : Stage ι) : State κ ι :=
  { s with stage := Function.update s.stage k st }

variable [DecidableEq ι]

/-- The order of {lit}`icus_` is restored. -/
def Request.reorder (r : Request ι) (s : CoKernel.State ι) : Option (CoKernel.State ι) :=
  match r.op with
  | .add => s.increment
  | .mod => some s
  | .del => s.decrement r.fq.icu_

/-- The next step of a coroutine. -/
def go (s : State κ ι) (k : κ) : Option (State κ ι) :=
  match s.stage k with
  | .idle => none
  | .lock c =>
      if s.fMapLk_.pc k = .held then (look s.polled.kernel c).map (s.goto k)
      else (MuCore.advance s.fMapLk_ k).map s.setMutex
  | .setWEvents fd fq events =>
      let kernel := { s.polled.kernel with
        fileWQPtrs_ := Assoc.modify s.polled.kernel.fileWQPtrs_ fd fun fq =>
          { fq with wevents_ := events } }
      some ((s.setKernel kernel).goto k (.queueInLoop ⟨.mod, fd, { fq with wevents_ := events }⟩))
  | .queueInLoop r =>
      let funcs := Function.update s.funcs_ r.fq.icu_ (s.funcs_ r.fq.icu_ ++ [k])
      some ({ s with funcs_ := funcs }.goto k (.waiting r))
  | .waiting _ => none
  | .resumed r ret =>
      if r.stores ret then some ((s.setKernel (r.store s.polled.kernel)).goto k (.reorder r ret))
      else some (s.goto k (.unlock (r.done ret)))
  | .reorder r ret =>
      (r.reorder s.polled.kernel).map fun kernel =>
        (s.setKernel kernel).goto k (.unlock (r.done ret))
  | .unlock _ =>
      match s.fMapLk_.pc k with
      | .held => some (s.setMutex (MuCore.unlock s.fMapLk_ k))
      | .out => some (s.goto k .idle)
      | _ => (MuCore.advance s.fMapLk_ k).map s.setMutex

/-- {lit}`ICU::loop` runs the first function, whatever else it does before and behind. -/
def loop (s : State κ ι) (icu : ι) (ret : Int) : Option (State κ ι) :=
  match s.funcs_ icu with
  | [] => none
  | k :: rest =>
      match s.stage k with
      | .waiting r =>
          let interest := epollCtl s.polled.interest icu r.fq.fd_ (r.mask s.polled.kernel) ret
          some ({ s with
            funcs_ := Function.update s.funcs_ icu rest
            polled := { s.polled with interest := interest } }.goto k (.resumed r ret))
      | _ => none

/-- One step of one party. -/
def step (s : State κ ι) : Action κ ι → Option (State κ ι)
  | .call k c =>
      match s.stage k with
      | .idle => some ((s.setMutex (MuCore.lock s.fMapLk_ k)).goto k (.lock c))
      | _ => none
  | .go k => go s k
  | .loop icu ret => loop s icu ret

/-- The coroutines and the ICUs under any interleaving. -/
def machine (icus : List ι) (tid : κ → Int) : Machine (State κ ι) (Action κ ι) where
  init s := ∃ pos, s = State.construct icus pos tid
  step := step

end Step

/-! ## Calls in one step -/

/-- What a call shows. -/
inductive Event (κ ι : Type*) where
  | invoked (k : κ) (c : Call)
  | committed (k : κ) (d : Done ι)
  | returned (k : κ) (d : Done ι)
deriving DecidableEq

/-- The event in a coroutine's way from one stage to the next. -/
def Stage.event (k : κ) : Stage ι → Stage ι → List (Event κ ι)
  | .idle, .lock c => [.invoked k c]
  | .unlock d, .idle => [.returned k d]
  | .unlock _, .unlock _ => []
  | _, .unlock d => [.committed k d]
  | _, _ => []

/-- Where a coroutine stands with its call. -/
inductive Phase (ι : Type*) where
  | idle
  | called (c : Call)
  | decided (d : Done ι)
deriving DecidableEq

/-- The kernel whose calls take effect at once. -/
structure Spec (κ ι : Type*) where
  polled : Polled ι
  phase : κ → Phase ι

def Spec.construct (icus : List ι) (pos : ι → Nat) : Spec κ ι where
  polled := Polled.construct icus pos
  phase _ := .idle

variable [DecidableEq κ] [DecidableEq ι]

/-- What a step shows. -/
def emit (s : State κ ι) : Action κ ι → List (Event κ ι)
  | .call k c => (s.stage k).event k (.lock c)
  | .go k =>
      match go s k with
      | none => []
      | some s' => (s.stage k).event k (s'.stage k)
  | .loop _ _ => []

/-- The call with its result, in one step. -/
def Done.apply (icus : List ι) (p : Polled ι) : Done ι → Option (Polled ι)
  | .irq a => (pollers icus).step p a
  | .waitFile fd fq => if Assoc.find p.kernel.fileWQPtrs_ fd = fq then some p else none

/-- Each call takes effect in one step between its invocation and its return, and returns what it
has found there. -/
def atomic (icus : List ι) : Machine (Spec κ ι) (Event κ ι) where
  init a := ∃ pos, a = Spec.construct icus pos
  step a
    | .invoked k c =>
        if a.phase k = .idle then some { a with phase := Function.update a.phase k (.called c) }
        else none
    | .committed k d =>
        if a.phase k = .called d.call then
          (d.apply icus a.polled).map fun p =>
            { a with polled := p, phase := Function.update a.phase k (.decided d) }
        else none
    | .returned k d =>
        if a.phase k = .decided d then some { a with phase := Function.update a.phase k .idle }
        else none

end Calls
end CoKernel
end CoEpoll
