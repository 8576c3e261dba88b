import CoEpoll.ASocket
import CoEpoll.ASocket.Send

/-!
# The callbacks of `ASocket.cpp`

All six functions wait on a {lit}`FileWQ` with a callback that turns what one system call returns, and
{lit}`errno` then, into an {lit}`ioret`.

Main results:

- Theorem {lit}`Callback.exhausted_of_block`: a callback that waits on reports its events used up.
- Theorem {lit}`Callback.enter_block`: what {lit}`writev` returns on {lit}`EPOLLRDHUP` ends its wait.
-/

namespace CoEpoll
namespace Colib

open Irq

/-- The result of {lit}`accept4`, {lit}`readv` or {lit}`writev` as its callback tells them apart. -/
def SysResult.outcome (r : SysResult) : SysRet :=
  if r.size = -1 then
    if r.errno = EWOULDBLOCK then .wouldBlock
    else if r.errno = EINTR then .eintr
    else .error
  else .ok r.size.toInt.toNat

/-- The callbacks: {lit}`acfunc`, {lit}`rvfunc` of {lit}`readv` and {lit}`wvfunc`, {lit}`confunc`, {lit}`rvfunc` of {lit}`recv`, and
{lit}`sendfunc`. -/
inductive Callback (β : Type*) where
  | wqcb (cb : WQCB β)
  | confunc
  | rvfunc (nbytes : UInt64)
  | sendfunc (c : Send)

variable {β : Type*}

/-- {lit}`rvfunc` of {lit}`recv` after {lit}`::recv`; {lit}`none` is {lit}`continue`. -/
def recvfunc (nbytes : UInt64) (r : SysResult) : Option IoRet :=
  if r.size = -1 ∧ r.errno = EWOULDBLOCK then some ⟨r.size, true, true⟩
  else if r.size = -1 ∧ r.errno = EINTR then none
  else if UInt64.ofInt r.size.toInt = nbytes then some ⟨r.size, false, false⟩
  else some ⟨r.size, true, false⟩

namespace Callback

/-- What the callback returns before its system call. -/
def enter : Callback β → Events → Option IoRet
  | wqcb cb, events => cb.enter events
  | _, _ => none

/-- What the callback returns after its system call, and its captured variables then;
{lit}`none` is {lit}`continue`. -/
def resume : Callback β → SysResult → Option (IoRet × Callback β)
  | wqcb cb, r => (cb.resume r.outcome).map fun (ret, cb) => (ret, wqcb cb)
  | confunc, r => some (⟨r.size, false, false⟩, confunc)
  | rvfunc nbytes, r => (recvfunc nbytes r).map fun ret => (ret, rvfunc nbytes)
  | sendfunc c, r => (c.resume r).map fun (ret, c) => (ret, sendfunc c)

end Callback

variable {ret : IoRet}

/-- {lit}`accept`, {lit}`readv` and {lit}`writev` wait on with their events used up. -/
theorem WQCB.exhausted_of_block {cb cb' : WQCB β} {r : SysRet} (h : cb.resume r = some (ret, cb'))
    (hblock : ret.block = true) : ret.exhausted = true := by
  cases r with
  | eintr => cases h
  | wouldBlock => cases h; rfl
  | error => cases h; cases hblock
  | ok size =>
      cases cb with
      | accept => cases h; cases hblock
      | readv => cases h; cases hblock
      | writev c => cases h; exact hblock

/-- So does {lit}`recv`. -/
theorem recvfunc_exhausted {nbytes : UInt64} {r : SysResult} (h : recvfunc nbytes r = some ret)
    (hblock : ret.block = true) : ret.exhausted = true := by
  unfold recvfunc at h
  split at h
  · cases h; rfl
  · split at h
    · cases h
    · split at h
      · cases h; cases hblock
      · cases h; rfl

/-- So does {lit}`send`. -/
theorem Send.exhausted_of_block {c c' : Send} {r : SysResult} (h : c.resume r = some (ret, c'))
    (hblock : ret.block = true) : ret.exhausted = true := by
  unfold Send.resume at h
  split at h
  · split at h
    · cases h
    · split at h
      · cases h; rfl
      · cases h; rfl
  · cases h; exact hblock

namespace Callback

variable {cb cb' : Callback β} {r : SysResult} {events : Events}

/-- A callback that waits on reports its events used up. -/
theorem exhausted_of_block (h : cb.resume r = some (ret, cb')) (hblock : ret.block = true) :
    ret.exhausted = true := by
  unfold resume at h
  cases cb with
  | wqcb cb =>
      rcases Option.map_eq_some_iff.mp h with ⟨⟨ret', cb'⟩, hres, heq⟩
      cases heq
      exact WQCB.exhausted_of_block hres hblock
  | confunc => cases h; cases hblock
  | rvfunc nbytes =>
      rcases Option.map_eq_some_iff.mp h with ⟨ret', hres, heq⟩
      cases heq
      exact recvfunc_exhausted hres hblock
  | sendfunc c =>
      rcases Option.map_eq_some_iff.mp h with ⟨⟨ret', c'⟩, hres, heq⟩
      cases heq
      exact Send.exhausted_of_block hres hblock

/-- What {lit}`writev` returns on {lit}`EPOLLRDHUP` ends its wait. -/
theorem enter_block (h : cb.enter events = some ret) : ret.block = false := by
  cases cb with
  | wqcb cb => rw [WQCB.enter_eq_some h]
  | confunc => cases h
  | rvfunc nbytes => cases h
  | sendfunc c => cases h

end Callback
end Colib
end CoEpoll
