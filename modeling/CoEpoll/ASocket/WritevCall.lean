import CoEpoll.ASocket
import CoEpoll.Transition.Machine

/-!
# `colib::writev`: its callback at the accesses to `iov` and `tiov`

Every invocation of the callback builds the array {lit}`tiov` anew from the position where the last
one has stopped, hands it to the system call and moves the position on.  Here every access
to an array has its index; an access outside of the array, or to a cell that has not been
written, is a fault.
-/

namespace CoEpoll
namespace Colib

open Transition Irq

variable {β : Type*}

/-- The array {lit}`tiov`; a cell that has not been written holds nothing. -/
abbrev Tiov (β : Type*) := List (Option (List β))

namespace Tiov

/-- {lit}`tiov[i] = seg` -/
def put (t : Tiov β) (i : Nat) (seg : List β) : Option (Tiov β) :=
  if i < t.length then some (t.set i (some seg)) else none

/-- {lit}`tiov[i]` -/
def fetch (t : Tiov β) (i : Nat) : Option (List β) :=
  t[i]?.join

/-- The loop that copies {lit}`iov[tcnt + i]` to {lit}`tiov[i]`; {lit}`n` iterations are left. -/
def copy (iov : List (List β)) (tcnt : Nat) : Nat → Nat → Tiov β → Option (Tiov β)
  | 0, _, t => some t
  | n + 1, i, t =>
      match iov[tcnt + i]? with
      | some seg => (t.put i seg).bind (copy iov tcnt n (i + 1))
      | none => none

/-- {lit}`new iovec[iovcnt]`, the shifted first element and the loop for the others. -/
def build (c : Writev β) : Option (Tiov β) :=
  match c.iov[c.tcnt]? with
  | some seg =>
      if c.offset ≤ seg.length then
        (put (List.replicate c.iov.length none) 0 (seg.drop c.offset)).bind
          (copy c.iov c.tcnt (c.iov.length - c.tcnt - 1) 1)
      else none
  | none => none

/-- The first {lit}`riovcnt` elements, which the system call reads. -/
def offer : Tiov β → Nat → Option (List (List β))
  | _, 0 => some []
  | some seg :: t, n + 1 => (offer t n).map fun segs => seg :: segs
  | _, _ + 1 => none

/-- The loop that moves {lit}`offset` and {lit}`tcnt` on; {lit}`n` iterations are left. -/
def advance (t : Tiov β) : Nat → Nat → Nat → Nat → Nat → Option (Nat × Nat)
  | 0, _, _, offset, tcnt => some (offset, tcnt)
  | n + 1, i, size, offset, tcnt =>
      match t.fetch i with
      | some seg =>
          if seg.length > size then some (offset + size, tcnt)
          else advance t n (i + 1) (size - seg.length) 0 (tcnt + 1)
      | none => none

end Tiov

/-! ## The invocations of one call -/

/-- Where an invocation of the callback is. -/
inductive WritevPhase (β : Type*) where
  /-- The callback is not running. -/
  | idle
  /-- In {lit}`::writev`. -/
  | inCall (t : Tiov β)
  /-- An array has been accessed outside of its bounds or before it was written. -/
  | fault

/-- A call of {lit}`colib::writev`: the captured variables, the result of the last invocation and
the bytes that have been accepted. -/
structure WritevCall (β : Type*) where
  vars : Writev β
  phase : WritevPhase β
  last : Option IoRet
  accepted : List β

namespace WritevCall

/-- Before the first invocation. -/
def construct (call : Nat) (iov : List (List β)) : WritevCall β where
  vars := Writev.start call iov
  phase := .idle
  last := none
  accepted := []

inductive Action where
  /-- {lit}`FileWQ::wakeup` calls the callback. -/
  | invoke (events : Events)
  /-- {lit}`::writev` returns. -/
  | sysret (r : SysRet)

/-- The callback returns {lit}`r`. -/
def finish (s : WritevCall β) (r : IoRet) : WritevCall β :=
  { s with phase := .idle, last := some r }

/-- The callback up to its system call. -/
def invoke (s : WritevCall β) (events : Events) : WritevCall β :=
  if events &&& EPOLLRDHUP ≠ 0 then s.finish ⟨-1, false, false⟩
  else match Tiov.build s.vars with
    | some t => { s with phase := .inCall t }
    | none => { s with phase := .fault }

/-- {lit}`riovcnt` -/
def riovcnt (s : WritevCall β) : Nat :=
  s.vars.iov.length - s.vars.tcnt

/-- The callback after {lit}`::writev` has accepted {lit}`size` of the bytes {lit}`segs`. -/
def accept (s : WritevCall β) (t : Tiov β) (segs : List (List β)) (size : Nat) : WritevCall β :=
  match t.advance s.riovcnt 0 size s.vars.offset s.vars.tcnt with
  | none => { s with phase := .fault }
  | some (offset, tcnt) =>
      let vars : Writev β := { s.vars with
        sendBytes := s.vars.sendBytes + Int32.ofNat size
        offset := offset
        tcnt := tcnt }
      { s with
        vars := vars
        accepted := s.accepted ++ segs.flatten.take size
        : WritevCall β }.finish ⟨vars.sendBytes, vars.unfinished, vars.unfinished⟩

/-- The system call returns; it accepts at most what it is offered. -/
def sysret (s : WritevCall β) (t : Tiov β) (r : SysRet) : Option (WritevCall β) :=
  match t.offer s.riovcnt with
  | none => some { s with phase := .fault }
  | some segs =>
      match r with
      | .eintr => some s
      | .wouldBlock => some (s.finish ⟨-1, true, true⟩)
      | .error => some (s.finish ⟨-1, false, false⟩)
      | .ok size =>
          if size ≤ segs.flatten.length ∧ size ≤ INT_MAX then some (s.accept t segs size) else none

/-- {lit}`FileWQ::wakeup` has erased the waiter. -/
def erased (s : WritevCall β) : Bool :=
  match s.last with
  | some r => !r.block
  | none => false

/-- One step. -/
def step (s : WritevCall β) : Action → Option (WritevCall β)
  | .invoke events =>
      match s.phase with
      | .idle => if s.erased then none else some (s.invoke events)
      | _ => none
  | .sysret r =>
      match s.phase with
      | .inCall t => s.sysret t r
      | _ => none

/-- A call under any sequence of invocations and results. -/
def machine (call : Nat) (iov : List (List β)) : Machine (WritevCall β) Action where
  init s := s = construct call iov
  step := step

/-- No {lit}`EPOLLRDHUP` is reported and no hard error returned. -/
def Unbroken : Action → Prop
  | .invoke events => events &&& EPOLLRDHUP = 0
  | .sysret r => r ≠ .error

instance (a : Action) : Decidable (Unbroken a) := by
  cases a <;> unfold Unbroken <;> infer_instance

end WritevCall
end Colib
end CoEpoll
