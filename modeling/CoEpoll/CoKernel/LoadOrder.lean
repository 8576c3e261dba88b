import CoEpoll.Assoc.Entries
import CoEpoll.Transition.Machine

/-!
# `CoKernel::updateIRQ` and `CoKernel::removeIRQ`: the load of the ICUs

The kernel keeps its ICUs in {lit}`icus_`, ordered by the number {lit}`irqn` of the
descriptors that each polls, so that {lit}`icus_[0]` is the one to register the next
descriptor.  A registration and a removal each restore the order with a single
exchange at the end of a run of equal loads.  To find an ICU in {lit}`icus_` the
removal uses its field {lit}`pos`, which no constructor initialises.

Both functions run under {lit}`fMapLk_`, so a call is one action.  A step is
{lit}`none` when it would read {lit}`icus_` out of range.
-/

namespace CoEpoll
namespace CoKernel

open Transition

/-- The fields of a {lit}`FileWQ` that these functions use. -/
structure FileWQ (ι : Type*) where
  fd_ : Int32
  icu_ : ι
  wevents_ : UInt32
deriving DecidableEq

/-- The kernel and the ICUs; an ICU's {lit}`pos` may hold anything. -/
structure State (ι : Type*) where
  icus_ : List ι
  irqn : ι → UInt32
  pos : ι → Nat
  fileWQPtrs_ : List (Int32 × FileWQ ι)

variable {ι : Type*}

/-- {lit}`CoKernel::CoKernel` with the ICUs {lit}`icus` and what their {lit}`pos` happens to hold. -/
def State.construct (icus : List ι) (pos : ι → Nat) : State ι where
  icus_ := icus
  irqn := fun _ => 0
  pos := pos
  fileWQPtrs_ := []

/-- {lit}`for (; i < icuNum_; i++)` up to the first ICU with more than {lit}`irqn0`; {lit}`fuel` is
{lit}`icuNum_ - i`. -/
def scanUp (s : State ι) (irqn0 : UInt32) (fuel i : Nat) : Option Nat :=
  match fuel with
  | 0 => some i
  | fuel + 1 =>
      match s.icus_[i]? with
      | none => none
      | some icu => if s.irqn icu > irqn0 then some i else scanUp s irqn0 fuel (i + 1)

/-- {lit}`for (i = n - 1; i >= 0; i--)` down to the first ICU with less than {lit}`irqnPos`; the
signed {lit}`i` ends at -1, which as an unsigned number is {lit}`icu->pos - 1` at position 0. -/
def scanDown (s : State ι) (irqnPos : UInt32) (n : Nat) : Option Int :=
  match n with
  | 0 => some (-1)
  | i + 1 =>
      match s.icus_[i]? with
      | none => none
      | some icu => if s.irqn icu < irqnPos then some i else scanDown s irqnPos i

variable [DecidableEq ι]

/-- {lit}`icus_[0]->irqn++` and the exchange that restores the order. -/
def State.increment (s : State ι) : Option (State ι) :=
  s.icus_[0]?.bind fun front =>
    (scanUp s (s.irqn front) (s.icus_.length - 1) 1).bind fun i =>
      let irqn := Function.update s.irqn front (s.irqn front + 1)
      if i ≠ 1 then
        s.icus_[i - 1]?.map fun last =>
          { s with
            icus_ := (s.icus_.set 0 last).set (i - 1) front
            irqn := irqn
            pos := Function.update (Function.update s.pos last 0) front (i - 1) }
      else
        some { s with irqn := irqn }

/-- {lit}`icus_[icu->pos]->irqn--` and the exchange that restores the order. -/
def State.decrement (s : State ι) (icu : ι) : Option (State ι) :=
  s.icus_[s.pos icu]?.bind fun atPos =>
    (scanDown s (s.irqn atPos) (s.pos icu)).bind fun i =>
      let irqn := Function.update s.irqn atPos (s.irqn atPos - 1)
      if i ≠ (s.pos icu : Int) - 1 then
        s.icus_[(i + 1).toNat]?.bind fun first =>
          let icus := (s.icus_.set (s.pos icu) first).set (i + 1).toNat icu
          icus[s.pos icu]?.map fun moved =>
            { s with
              icus_ := icus
              irqn := irqn
              pos := Function.update (Function.update s.pos moved (s.pos icu)) icu
                (i + 1).toNat }
      else
        some { s with irqn := irqn }

/-- {lit}`CoKernel::updateIRQ`; {lit}`ret` is what the poller answers. -/
def updateIRQ (s : State ι) (fd : Int32) (events : UInt32) (ret : Int) : Option (State ι) :=
  match Assoc.find s.fileWQPtrs_ fd with
  | none =>
      s.icus_[0]?.bind fun icu =>
        if ret = 0 then
          { s with fileWQPtrs_ := (fd, ⟨fd, icu, events⟩) :: s.fileWQPtrs_ : State ι }.increment
        else some s
  | some _ =>
      some { s with
        fileWQPtrs_ := Assoc.modify s.fileWQPtrs_ fd fun fq => { fq with wevents_ := events } }

/-- {lit}`CoKernel::removeIRQ`; what the poller answers is only returned. -/
def removeIRQ (s : State ι) (fd : Int32) : Option (State ι) :=
  match Assoc.find s.fileWQPtrs_ fd with
  | none => some s
  | some fq =>
      { s with fileWQPtrs_ := Assoc.erase s.fileWQPtrs_ fd : State ι }.decrement fq.icu_

/-- A call, and what the poller answers in it. -/
inductive Action where
  | updateIRQ (fd : Int32) (events : UInt32) (ret : Int)
  | removeIRQ (fd : Int32) (ret : Int)
deriving DecidableEq

/-- One call. -/
def step (s : State ι) : Action → Option (State ι)
  | .updateIRQ fd events ret => updateIRQ s fd events ret
  | .removeIRQ fd _ => removeIRQ s fd

/-- The kernel with the ICUs {lit}`icus` under any sequence of calls. -/
def machine (icus : List ι) : Machine (State ι) Action where
  init s := ∃ pos, s = State.construct icus pos
  step := step

end CoKernel
end CoEpoll
