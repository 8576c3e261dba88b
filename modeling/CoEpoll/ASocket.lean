import CoEpoll.CoKernel.Irq.FileWQ

/-!
# `colib::accept`, `colib::readv`, `colib::writev`: their callbacks

Each of these functions waits on a {lit}`FileWQ` with a callback that repeats its system call
until the call is not interrupted.  The callback of {lit}`writev` captures by value how far it
has come, so that the next call of it resumes there.

Main results:

- Theorem {lit}`WQCB.resume_exhausted`: a callback reports exhaustion only after
  {lit}`EWOULDBLOCK` or a short {lit}`writev`.
- Theorem {lit}`Writev.flatten_tiov_sent`: the next {lit}`writev` offers exactly the bytes that the
  last one has not accepted.
-/

namespace CoEpoll
namespace Colib

open Irq

/-- The outcome of one system call; {lit}`ok n` is a result that is not -1. -/
inductive SysRet where
  | eintr
  | wouldBlock
  | error
  | ok (n : Nat)
deriving DecidableEq

/-- The largest {lit}`int`; no call of {lit}`writev` transfers more. -/
def INT_MAX : Nat := 0x7fffffff

/-- The captured variables of {lit}`wvfunc`; {lit}`call` tells the calls of {lit}`colib::writev` apart. -/
structure Writev (β : Type*) where
  call : Nat
  iov : List (List β)
  offset : Nat
  tcnt : Nat
  sendBytes : Int32

variable {β : Type*}

/-- The captured variables before the first call. -/
def Writev.start (call : Nat) (iov : List (List β)) : Writev β where
  call := call
  iov := iov
  offset := 0
  tcnt := 0
  sendBytes := 0

/-- {lit}`tiov`: the segments from position {lit}`offset` of segment {lit}`tcnt` on. -/
def tiov (iov : List (List β)) (offset tcnt : Nat) : List (List β) :=
  match iov.drop tcnt with
  | [] => []
  | seg :: segs => seg.drop offset :: segs

/-- The segments that the next {lit}`writev` offers. -/
def Writev.tiov (c : Writev β) : List (List β) :=
  Colib.tiov c.iov c.offset c.tcnt

/-- The loop that moves {lit}`offset` and {lit}`tcnt` on by {lit}`size` bytes. -/
def advance : List (List β) → Nat → Nat → Nat → Nat × Nat
  | [], _, offset, tcnt => (offset, tcnt)
  | seg :: segs, size, offset, tcnt =>
      if seg.length > size then (offset + size, tcnt)
      else advance segs (size - seg.length) 0 (tcnt + 1)

/-- {lit}`wvfunc` after {lit}`writev` has accepted {lit}`size` bytes. -/
def Writev.sent (c : Writev β) (size : Nat) : Writev β :=
  { c with
    sendBytes := c.sendBytes + Int32.ofNat size
    offset := (advance c.tiov size c.offset c.tcnt).1
    tcnt := (advance c.tiov size c.offset c.tcnt).2 }

/-- {lit}`tcnt < iovcnt` -/
def Writev.unfinished (c : Writev β) : Bool :=
  decide (c.tcnt < c.iov.length)

/-- The callbacks {lit}`acfunc`, {lit}`rvfunc` and {lit}`wvfunc`. -/
inductive WQCB (β : Type*) where
  | accept
  | readv
  | writev (c : Writev β)

namespace WQCB

/-- The events that the function waits for. -/
def events : WQCB β → Events
  | accept => EPOLLIN ||| EPOLLPRI
  | readv => EPOLLIN ||| EPOLLPRI
  | writev _ => EPOLLOUT

/-- What the callback returns before its system call. -/
def enter (cb : WQCB β) (events : Events) : Option IoRet :=
  match cb with
  | accept => none
  | readv => none
  | writev _ => if events &&& EPOLLRDHUP ≠ 0 then some ⟨-1, false, false⟩ else none

/-- What the callback returns after its system call, and its captured variables then;
{lit}`none` is {lit}`continue`. -/
def resume : WQCB β → SysRet → Option (IoRet × WQCB β)
  | _, .eintr => none
  | cb, .wouldBlock => some (⟨-1, true, true⟩, cb)
  | cb, .error => some (⟨-1, false, false⟩, cb)
  | accept, .ok clifd => some (⟨Int32.ofNat clifd, false, false⟩, accept)
  | readv, .ok size => some (⟨Int32.ofNat size, false, false⟩, readv)
  | writev c, .ok size =>
      some (⟨(c.sent size).sendBytes, (c.sent size).unfinished, (c.sent size).unfinished⟩,
        writev (c.sent size))

/-- The system call can have this outcome: {lit}`writev` accepts what it is offered. -/
def Offered : WQCB β → SysRet → Prop
  | writev c, .ok size => size ≤ c.tiov.flatten.length ∧ size ≤ INT_MAX
  | _, _ => True

instance (cb : WQCB β) (r : SysRet) : Decidable (cb.Offered r) := by
  unfold Offered
  split <;> infer_instance

/-- The system call has accepted less than it was offered. -/
def Short : WQCB β → SysRet → Prop
  | writev c, .ok size => size < c.tiov.flatten.length
  | _, _ => False

instance (cb : WQCB β) (r : SysRet) : Decidable (cb.Short r) := by
  unfold Short
  split <;> infer_instance

/-- The bytes that the system call has accepted, each with the call of {lit}`colib::writev`
that it comes from. -/
def accepted : WQCB β → SysRet → List (Nat × β)
  | writev c, .ok size => (c.tiov.flatten.take size).map (Prod.mk c.call)
  | _, _ => []

/-- The direction of the system call. -/
def direction : WQCB β → Events
  | accept => EPOLLIN
  | readv => EPOLLIN
  | writev _ => EPOLLOUT

end WQCB

/-! ## The resume position of `wvfunc` -/

theorem length_tiov (iov : List (List β)) (offset tcnt : Nat) :
    (tiov iov offset tcnt).length = iov.length - tcnt := by
  unfold tiov
  rw [← List.length_drop]
  cases iov.drop tcnt <;> rfl

/-- At the start of a segment nothing of it is left out. -/
theorem tiov_zero (iov : List (List β)) (tcnt : Nat) : tiov iov 0 tcnt = iov.drop tcnt := by
  unfold tiov
  cases iov.drop tcnt <;> rfl

/-- The loop ends where the accepted bytes end. -/
theorem flatten_tiov_advance (iov : List (List β)) :
    ∀ (segs : List (List β)) (size offset tcnt : Nat), tiov iov offset tcnt = segs →
      size ≤ segs.flatten.length →
      (tiov iov (advance segs size offset tcnt).1 (advance segs size offset tcnt).2).flatten =
        segs.flatten.drop size := by
  intro segs
  induction segs with
  | nil =>
      intro size offset tcnt htiov _
      rw [advance, htiov]
      exact List.drop_nil.symm
  | cons seg segs ih =>
      intro size offset tcnt htiov hsize
      have hdrop : ∃ full, iov.drop tcnt = full :: segs ∧ full.drop offset = seg := by
        unfold tiov at htiov
        cases hiov : iov.drop tcnt with
        | nil => simp [hiov] at htiov
        | cons full segs' =>
            simp only [hiov, List.cons.injEq] at htiov
            exact ⟨full, by rw [htiov.2], htiov.1⟩
      rcases hdrop with ⟨full, hiov, hseg⟩
      rw [List.flatten_cons, List.length_append] at hsize
      rw [List.flatten_cons]
      unfold advance
      split
      · rename_i hlt
        have htail : tiov iov (offset + size) tcnt = seg.drop size :: segs := by
          unfold tiov
          rw [hiov, ← hseg, List.drop_drop]
        rw [htail, List.flatten_cons, List.drop_append_of_le_length (Nat.le_of_lt hlt)]
      · rename_i hge
        have hnext : tiov iov 0 (tcnt + 1) = segs := by
          rw [tiov_zero, ← List.drop_drop, hiov]
          rfl
        have hgone : seg.drop size = [] := List.drop_of_length_le (Nat.le_of_not_lt hge)
        rw [ih _ _ _ hnext (by omega), List.drop_append, hgone, List.nil_append]

/-- When all is accepted, the loop goes through all segments. -/
theorem advance_all (segs : List (List β)) :
    ∀ (size offset tcnt : Nat), segs.flatten.length ≤ size →
      (advance segs size offset tcnt).2 = tcnt + segs.length := by
  induction segs with
  | nil => exact fun _ _ _ _ => rfl
  | cons seg segs ih =>
      intro size offset tcnt hsize
      rw [List.flatten_cons, List.length_append] at hsize
      rw [advance, if_neg (by omega), ih _ _ _ (by omega), List.length_cons]
      omega

namespace Writev

variable {c : Writev β} {size : Nat}

/-- What is left to offer after {lit}`size` bytes have been accepted. -/
theorem flatten_tiov_sent (h : size ≤ c.tiov.flatten.length) :
    (c.sent size).tiov.flatten = c.tiov.flatten.drop size :=
  flatten_tiov_advance c.iov c.tiov size c.offset c.tcnt rfl h

@[simp]
theorem start_tiov (call : Nat) (iov : List (List β)) : (start call iov).tiov = iov :=
  tiov_zero iov 0

/-- A finished callback has nothing left to offer. -/
theorem tiov_of_finished (h : c.unfinished = false) : c.tiov = [] := by
  rw [unfinished, decide_eq_false_iff_not] at h
  refine List.eq_nil_of_length_eq_zero ?_
  rw [tiov, length_tiov]
  exact Nat.sub_eq_zero_of_le (Nat.le_of_not_lt h)

/-- A callback that is unfinished after a {lit}`writev` has offered more than was accepted. -/
theorem short_of_unfinished (h : (c.sent size).unfinished = true) :
    size < c.tiov.flatten.length := by
  by_contra hle
  have htcnt : (c.sent size).tcnt = c.tcnt + c.tiov.length :=
    advance_all c.tiov size c.offset c.tcnt (Nat.le_of_not_lt hle)
  have hlen : c.tiov.length = c.iov.length - c.tcnt := length_tiov _ _ _
  have hlt : (c.sent size).tcnt < c.iov.length := of_decide_eq_true h
  omega

end Writev

/-! ## What the callbacks report -/

namespace WQCB

variable {cb cb' : WQCB β} {r : SysRet} {ret : IoRet}

/-- A call that is repeated has accepted nothing. -/
theorem accepted_of_continue (h : cb.resume r = none) : cb.accepted r = [] := by
  cases r <;> cases cb <;> first | rfl | cases h

/-- What the callback of a {lit}`writev` has still to offer after a call. -/
theorem resume_writev {c : Writev β} (h : (writev c).resume r = some (ret, cb'))
    (hoffered : (writev c).Offered r) :
    ∃ c' bytes, cb' = writev c' ∧ c'.call = c.call ∧
      (writev c).accepted r = bytes.map (Prod.mk c.call) ∧
      bytes ++ c'.tiov.flatten = c.tiov.flatten := by
  cases r with
  | eintr => cases h
  | wouldBlock => cases h; exact ⟨c, [], rfl, rfl, rfl, rfl⟩
  | error => cases h; exact ⟨c, [], rfl, rfl, rfl, rfl⟩
  | ok n =>
      cases h
      refine ⟨c.sent n, c.tiov.flatten.take n, rfl, rfl, rfl, ?_⟩
      rw [Writev.flatten_tiov_sent hoffered.1, List.take_append_drop]

/-- A callback of another function accepts nothing and stays what it is. -/
theorem resume_of_ne_writev (h : cb.resume r = some (ret, cb')) (hne : ∀ c, cb ≠ writev c) :
    cb' = cb ∧ cb.accepted r = [] := by
  cases r <;> cases cb <;> cases h <;> first | exact ⟨rfl, rfl⟩ | exact absurd rfl (hne _)

/-- A call changes only the captured variables of the callback. -/
theorem resume_events (h : cb.resume r = some (ret, cb')) : cb'.events = cb.events := by
  cases r <;> cases cb <;> cases h <;> rfl

/-- A callback reports exhaustion only after {lit}`EWOULDBLOCK` or a short {lit}`writev`. -/
theorem resume_exhausted (h : cb.resume r = some (ret, cb')) (hex : ret.exhausted = true) :
    r = .wouldBlock ∨ cb.Short r := by
  cases r with
  | eintr => cases h
  | wouldBlock => exact .inl rfl
  | error => cases cb <;> cases h <;> cases hex
  | ok n =>
      cases cb with
      | accept => cases h; cases hex
      | readv => cases h; cases hex
      | writev c =>
          cases h
          exact .inr (Writev.short_of_unfinished hex)

/-- A {lit}`writev` that completes with a result that is not negative has nothing left to
offer. -/
theorem resume_done {c : Writev β} (h : cb.resume r = some (ret, writev c))
    (hblock : ret.block = false) (hret : 0 ≤ ret.ret) : c.tiov = [] := by
  cases r with
  | eintr => cases h
  | wouldBlock => cases h; cases hblock
  | error => cases h; exact absurd hret (by decide)
  | ok n =>
      cases cb with
      | accept => cases h
      | readv => cases h
      | writev c₀ =>
          cases h
          exact Writev.tiov_of_finished hblock

/-- Besides its direction a callback waits for out-of-band data at most. -/
theorem and_events_eq_zero {ready : Events} (hdir : ready &&& cb.direction = 0)
    (hpri : ready &&& EPOLLPRI = 0) : ready &&& cb.events = 0 := by
  cases cb with
  | accept => exact Mask.and_or_eq_zero.mpr ⟨hdir, hpri⟩
  | readv => exact Mask.and_or_eq_zero.mpr ⟨hdir, hpri⟩
  | writev c => exact hdir

theorem enter_eq_some {events : Events} (h : cb.enter events = some ret) :
    ret = ⟨-1, false, false⟩ := by
  unfold enter at h
  cases cb with
  | accept => cases h
  | readv => cases h
  | writev c =>
      dsimp only at h
      split at h
      · exact (Option.some.inj h).symm
      · cases h

end WQCB
end Colib
end CoEpoll
