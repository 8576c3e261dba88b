import CoEpoll.Assoc.Entries
import CoEpoll.CoKernel.ICU
import CoEpoll.Transition.Machine
import Mathlib.Data.Finset.Basic
import Mathlib.Logic.Function.Basic

/-!
# `fileWQPtrs_` and an ICU: who owns a `FileWQ`

A {lit}`FileWQ` is owned by shared pointers: its entry in {lit}`fileWQPtrs_` and the {lit}`FileAwaiter`s of the
coroutines that wait on it.  The ICU's {lit}`list_` has plain pointers.  {lit}`updateIRQ` and
{lit}`removeIRQ` run on CPU threads under {lit}`fMapLk_` and have the ICU do the {lit}`epoll_ctl` in
between; the interleaving of the two sides is left to the actions.
-/

namespace CoEpoll
namespace Registry

open Transition ICU

/-- An entry of {lit}`list_`. -/
inductive Entry (φ : Type*) where
  | file (fq : φ)
  | timerWQ
  | wakeUpWQ
deriving DecidableEq

/-- {lit}`epoll_wait` can return the entry; it knows the eventfd and the timer from the start. -/
def Entry.Polled {φ : Type*} (polled : Finset φ) : Entry φ → Prop
  | file fq => fq ∈ polled
  | timerWQ => True
  | wakeUpWQ => True

instance {φ : Type*} [DecidableEq φ] (polled : Finset φ) (entry : Entry φ) :
    Decidable (entry.Polled polled) := by
  unfold Entry.Polled
  split <;> infer_instance

/-- The operation of an {lit}`epoll_ctl`. -/
inductive Op where
  | add
  | mod
  | del
deriving DecidableEq

/-- A queued function: the one of an {lit}`ICUFAwaiter`, or the one of a {lit}`FileAwaiter`. -/
inductive Func (φ ω : Type*) where
  | ctl (op : Op) (fq : φ)
  | wait (w : ω) (fq : φ)
deriving DecidableEq

/-- The {lit}`updateIRQ` or {lit}`removeIRQ` that holds {lit}`fMapLk_` and waits for the ICU; {lit}`done` tells
whether its function has run and whether it returned 0. -/
structure Call (δ φ : Type*) where
  op : Op
  fd : δ
  fq : φ
  done : Option Bool
deriving DecidableEq

/-- How far a {lit}`waitFile` has come that holds a {lit}`FileWQ`. -/
inductive Stage where
  /-- It has found the {lit}`FileWQ` and runs. -/
  | found
  /-- It is suspended, and its function is queued. -/
  | queued
  /-- It is suspended, and it is in {lit}`items_`. -/
  | waiting
  /-- It is suspended, and its handle has been passed to {lit}`wakeUpReady`. -/
  | woken
deriving DecidableEq

/-- The ICU's loop, the kernel's interest list, the registered {lit}`FileWQ`s and the coroutines
that use them; {lit}`used` has every {lit}`FileWQ` that has been made. -/
structure State (δ φ ω : Type*) where
  phase : Phase (Entry φ)
  list_ : List (Entry φ)
  funcs_ : List (Func φ ω)
  waked_ : φ → Bool
  polled : Finset φ
  fileWQPtrs_ : List (δ × φ)
  call : Option (Call δ φ)
  awaiters : ω → Option (φ × Stage)
  used : Finset φ

variable {δ φ ω : Type*}

/-- Nothing is registered. -/
def State.construct : State δ φ ω where
  phase := .drain
  list_ := []
  funcs_ := []
  waked_ := fun _ => false
  polled := ∅
  fileWQPtrs_ := []
  call := none
  awaiters := fun _ => none
  used := ∅

/-- The steps of the CPU threads and of the ICU's thread. -/
inductive Action (δ φ ω : Type*) where
  /-- {lit}`updateIRQ` takes {lit}`fMapLk_` and queues its function; {lit}`fq` is what {lit}`make_shared` returns,
  with {lit}`waked` in {lit}`waked_`. -/
  | updateIRQ (fd : δ) (fq : φ) (waked : Bool)
  /-- {lit}`removeIRQ` takes {lit}`fMapLk_` and queues its function. -/
  | removeIRQ (fd : δ)
  /-- {lit}`updateIRQ` or {lit}`removeIRQ` is resumed, changes the map and releases {lit}`fMapLk_`. -/
  | resumeCall
  /-- {lit}`waitFile` looks its descriptor up. -/
  | waitFile (w : ω) (fd : δ)
  /-- {lit}`FileAwaiter::await_suspend` -/
  | suspend (w : ω)
  /-- {lit}`waitFile` is resumed and ends. -/
  | resumeWait (w : ω)
  /-- The ICU runs a queued function; {lit}`ok` tells whether an {lit}`epoll_ctl` in it succeeds. -/
  | run (ok : Bool)
  /-- {lit}`funcs_` is empty. -/
  | drained
  /-- The ICU walks an entry of {lit}`list_` and wakes {lit}`woken`. -/
  | walk (woken : List ω)
  /-- {lit}`list_.clear()` -/
  | clear
  /-- {lit}`epoll_wait` fills {lit}`list_`. -/
  | waitIRQ (entries : List (Entry φ))

variable [DecidableEq δ] [DecidableEq φ] [DecidableEq ω]

namespace State

variable (s : State δ φ ω)

/-- {lit}`updateIRQ` up to its {lit}`co_await`. -/
def updateIRQ (fd : δ) (fq : φ) (waked : Bool) : Option (State δ φ ω) :=
  match Assoc.find s.fileWQPtrs_ fd with
  | some old => some { s with
      call := some ⟨.mod, fd, old, none⟩
      funcs_ := s.funcs_ ++ [.ctl .mod old] }
  | none =>
      if fq ∈ s.used then none
      else some { s with
        call := some ⟨.add, fd, fq, none⟩
        funcs_ := s.funcs_ ++ [.ctl .add fq]
        waked_ := Function.update s.waked_ fq waked
        used := insert fq s.used }

/-- {lit}`removeIRQ` up to its {lit}`co_await`. -/
def removeIRQ (fd : δ) : State δ φ ω :=
  match Assoc.find s.fileWQPtrs_ fd with
  | some fq => { s with
      call := some ⟨.del, fd, fq, none⟩
      funcs_ := s.funcs_ ++ [.ctl .del fq] }
  | none => s

/-- {lit}`updateIRQ` or {lit}`removeIRQ` from its {lit}`co_await` on; {lit}`ok` tells whether the result is 0. -/
def finishCall (c : Call δ φ) (ok : Bool) : State δ φ ω :=
  match c.op with
  | .add => { s with
      fileWQPtrs_ := if ok then (c.fd, c.fq) :: s.fileWQPtrs_ else s.fileWQPtrs_
      call := none }
  | .mod => { s with call := none }
  | .del => { s with
      fileWQPtrs_ := Assoc.erase s.fileWQPtrs_ c.fd
      call := none }

/-- {lit}`ICU::wakeWQ` -/
def wakeWQ (fq : φ) : State δ φ ω :=
  if s.waked_ fq then s
  else { s with
    waked_ := Function.update s.waked_ fq true
    list_ := s.list_ ++ [.file fq] }

/-- The interest list after an {lit}`epoll_ctl`; {lit}`del` fails only for what is not in it. -/
def epollCtl (op : Op) (fq : φ) (ok : Bool) : Finset φ :=
  match op with
  | .add => if ok then insert fq s.polled else s.polled
  | .mod => s.polled
  | .del => s.polled.erase fq

/-- A queued function. -/
def runFunc (ok : Bool) : Func φ ω → State δ φ ω
  | .ctl op fq => { s with
      polled := s.epollCtl op fq ok
      call := s.call.map fun c => { c with done := some ok } }
  | .wait w fq =>
      { s with awaiters := Function.update s.awaiters w (some (fq, .waiting)) : State δ φ ω }.wakeWQ fq

/-- The waiters that the walk of an entry can wake. -/
def CanWake (entry : Entry φ) (w : ω) : Prop :=
  match entry with
  | .file fq => s.awaiters w = some (fq, .waiting)
  | .timerWQ => (s.awaiters w).map Prod.snd = some .waiting
  | .wakeUpWQ => False

instance (entry : Entry φ) (w : ω) : Decidable (s.CanWake entry w) := by
  unfold CanWake
  split <;> infer_instance

/-- The waiters {lit}`woken` are passed to {lit}`wakeUpReady`. -/
def wake (woken : List ω) : ω → Option (φ × Stage) :=
  fun w => if w ∈ woken then (s.awaiters w).map fun a => (a.1, .woken) else s.awaiters w

/-- {lit}`setWaked(false)` for a {lit}`FileWQ` that is walked. -/
def unwake (entry : Entry φ) : φ → Bool :=
  match entry with
  | .file fq => Function.update s.waked_ fq false
  | _ => s.waked_

/-- {lit}`setWaked(true)` for the {lit}`FileWQ`s that {lit}`epoll_wait` returns. -/
def rewake (entries : List (Entry φ)) : φ → Bool :=
  fun fq => if Entry.file fq ∈ entries then true else s.waked_ fq

end State

/-- One step. -/
def step (s : State δ φ ω) : Action δ φ ω → Option (State δ φ ω)
  | .updateIRQ fd fq waked => if s.call = none then s.updateIRQ fd fq waked else none
  | .removeIRQ fd => if s.call = none then some (s.removeIRQ fd) else none
  | .resumeCall =>
      match s.call with
      | some ⟨op, fd, fq, some ok⟩ => some (s.finishCall ⟨op, fd, fq, some ok⟩ ok)
      | _ => none
  | .waitFile w fd =>
      match s.call, s.awaiters w, Assoc.find s.fileWQPtrs_ fd with
      | none, none, some fq =>
          some { s with awaiters := Function.update s.awaiters w (some (fq, .found)) }
      | _, _, _ => none
  | .suspend w =>
      match s.awaiters w with
      | some (fq, .found) => some { s with
          awaiters := Function.update s.awaiters w (some (fq, .queued))
          funcs_ := s.funcs_ ++ [.wait w fq] }
      | _ => none
  | .resumeWait w =>
      match s.awaiters w with
      | some (_, .woken) => some { s with awaiters := Function.update s.awaiters w none }
      | _ => none
  | .run ok =>
      match s.phase, s.funcs_ with
      | .drain, func :: funcs => some ({ s with funcs_ := funcs : State δ φ ω }.runFunc ok func)
      | _, _ => none
  | .drained =>
      match s.phase, s.funcs_ with
      | .drain, [] => some { s with phase := .walk s.list_ }
      | _, _ => none
  | .walk woken =>
      match s.phase with
      | .walk (entry :: rest) =>
          if ∀ w ∈ woken, s.CanWake entry w then
            some { s with
              phase := .walk rest
              awaiters := s.wake woken
              waked_ := s.unwake entry }
          else none
      | _ => none
  | .clear =>
      match s.phase with
      | .walk [] => some { s with phase := .poll, list_ := [] }
      | _ => none
  | .waitIRQ entries =>
      match s.phase with
      | .poll =>
          if ∀ entry ∈ entries, entry.Polled s.polled then
            some { s with
              phase := .drain
              list_ := s.list_ ++ entries
              waked_ := s.rewake entries }
          else none
      | _ => none

/-- The CPU threads and the ICU under any interleaving. -/
def machine : Machine (State δ φ ω) (Action δ φ ω) where
  init s := s = State.construct
  step := step

end Registry
end CoEpoll
