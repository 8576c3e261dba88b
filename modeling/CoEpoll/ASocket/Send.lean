import CoEpoll.CoKernel.Irq.FileWQ
import CoEpoll.Transition.Machine
import Mathlib.Algebra.Ring.Nat
import Mathlib.Data.List.Range

/-!
# `colib::send`: which bytes are put on the wire

The callback looks at {lit}`errno` after a {lit}`::send` that has succeeded too, although a success leaves
in it what an earlier call has put there.  Only with a left-over {lit}`EINTR` are the bytes counted.

Main results:

- Theorem {lit}`Inv.once_step_iff`: which steps put a byte on the wire again or end the wait early.
- Theorem {lit}`Past.counted_iff`: the same steps by the results of {lit}`::send` alone.
- Theorem {lit}`once_iff_regular`: every byte is put on the wire once, in every state of a run, if and
  only if the results of {lit}`::send` are regular.
- Theorem {lit}`send_repeats`: after a short {lit}`::send` the same bytes are offered again.
-/

namespace CoEpoll
namespace Colib

open Transition Irq

/-- {lit}`errno` -/
abbrev Errno := Int32

def EINTR : Errno := 4
def EWOULDBLOCK : Errno := 11

/-- What a system call returns, and {lit}`errno` then. -/
structure SysResult where
  size : Int32
  errno : Errno
deriving DecidableEq

/-- The captured variables of {lit}`sendfunc` that it computes with. -/
structure Send where
  nbytes : UInt64
  sendbytes : Int32
deriving DecidableEq

namespace Send

/-- The captured variables before the first call. -/
def start (nbytes : UInt64) : Send where
  nbytes := nbytes
  sendbytes := 0

/-- {lit}`sendbytes`, converted to {lit}`size_t`. -/
def sizeSent (c : Send) : UInt64 :=
  .ofInt c.sendbytes.toInt

/-- {lit}`sendbytes < nbytes` -/
def unfinished (c : Send) : Bool :=
  decide (c.sizeSent < c.nbytes)

/-- {lit}`sendfunc` after a {lit}`::send`; {lit}`none` is {lit}`continue`. -/
def resume (c : Send) (r : SysResult) : Option (IoRet × Send) :=
  if r.size < 0 ∨ r.errno ≠ EINTR then
    if r.errno = EINTR then none
    else if r.errno = EWOULDBLOCK then some (⟨c.sendbytes, true, true⟩, c)
    else some (⟨r.size, true, false⟩, c)
  else
    let c := { c with sendbytes := c.sendbytes + r.size }
    some (⟨c.sendbytes, c.unfinished, c.unfinished⟩, c)

/-- {lit}`::send(fd, buff + sendbytes, nbytes - sendbytes, ..)` can return this: it accepts at most what
it is offered. -/
def Offered (c : Send) (r : SysResult) : Prop :=
  r.size = -1 ∨ 0 ≤ r.size ∧ r.size.toInt ≤ (c.nbytes - c.sizeSent).toNat

instance (c : Send) (r : SysResult) : Decidable (c.Offered r) :=
  inferInstanceAs (Decidable (_ ∨ _))

/-- The positions in {lit}`buff` of the bytes that the system call has accepted. -/
def accepted (c : Send) (r : SysResult) : List Int :=
  (List.range r.size.toInt.toNat).map fun i : Nat => c.sendbytes.toInt + i

end Send

/-! ## The invocations of one call -/

/-- A call of {lit}`colib::send`: the captured variables, whether the callback is in {lit}`::send`, the result
of its last invocation, and the positions in {lit}`buff` of the bytes that have been accepted. -/
structure SendCall where
  vars : Send
  inCall : Bool
  last : Option IoRet
  accepted : List Int

namespace SendCall

/-- Before the first invocation. -/
def construct (nbytes : UInt64) : SendCall where
  vars := .start nbytes
  inCall := false
  last := none
  accepted := []

inductive Action where
  /-- {lit}`FileWQ::wakeup` calls the callback. -/
  | invoke
  /-- {lit}`::send` returns. -/
  | sysret (r : SysResult)

/-- The callback returns {lit}`ret`. -/
def finish (s : SendCall) (ret : IoRet) (vars : Send) (bytes : List Int) : SendCall where
  vars := vars
  inCall := false
  last := some ret
  accepted := s.accepted ++ bytes

/-- The callback after {lit}`::send`. -/
def sysret (s : SendCall) (r : SysResult) : SendCall :=
  match s.vars.resume r with
  | none => s
  | some (ret, vars) => s.finish ret vars (s.vars.accepted r)

/-- {lit}`FileWQ::wakeup` has erased the waiter. -/
def erased (s : SendCall) : Bool :=
  match s.last with
  | some r => !r.block
  | none => false

/-- One step. -/
def step (s : SendCall) : Action → Option SendCall
  | .invoke => if s.inCall ∨ s.erased then none else some { s with inCall := true }
  | .sysret r => if s.inCall ∧ s.vars.Offered r then some (s.sysret r) else none

/-- A call under any sequence of results. -/
def machine (nbytes : UInt64) : Machine SendCall Action where
  init s := s = construct nbytes
  step := step

/-- The bytes that have been accepted are the first ones of {lit}`buff`, in order and each once, and a
result that is not negative is their number and the full length. -/
structure OnceOnWire (nbytes : UInt64) (s : SendCall) : Prop where
  accepted : s.accepted = (List.range s.accepted.length).map Int.ofNat
  result : ∀ r, s.last = some r → r.block = false → 0 ≤ r.ret →
    r.ret.toInt = s.accepted.length ∧ s.accepted.length = nbytes.toNat

/-- A {lit}`::send` that accepts bytes finds all earlier ones counted, and one that succeeds with an
{lit}`errno` other than {lit}`EINTR` and {lit}`EWOULDBLOCK` is the first to accept bytes and accepts all. -/
def Counted (nbytes : UInt64) (s : SendCall) : Action → Prop
  | .invoke => True
  | .sysret r => 0 ≤ r.size →
      (0 < r.size → s.vars.sendbytes.toInt = s.accepted.length) ∧
        (r.errno ≠ EINTR → r.errno ≠ EWOULDBLOCK →
          s.accepted = [] ∧ r.size.toInt = nbytes.toNat)

/-! ## One step -/

/-- What a result of {lit}`::send` does. -/
theorem sysret_cases (s : SendCall) (r : SysResult) :
    (r.size < 0 ∧ s.sysret r = s) ∨
      (r.errno = EWOULDBLOCK ∧
        s.sysret r = s.finish ⟨s.vars.sendbytes, true, true⟩ s.vars (s.vars.accepted r)) ∨
      (r.errno ≠ EINTR ∧ r.errno ≠ EWOULDBLOCK ∧
        s.sysret r = s.finish ⟨r.size, true, false⟩ s.vars (s.vars.accepted r)) ∨
      (0 ≤ r.size ∧ r.errno = EINTR ∧
        ∃ c : Send, c = { s.vars with sendbytes := s.vars.sendbytes + r.size } ∧
          s.sysret r =
            s.finish ⟨c.sendbytes, c.unfinished, c.unfinished⟩ c (s.vars.accepted r)) := by
  unfold sysret Send.resume
  by_cases hintr : r.errno = EINTR
  · by_cases hneg : r.size < 0
    · left
      exact ⟨hneg, by simp [hintr, hneg]⟩
    · right; right; right
      refine ⟨Int32.not_lt.mp hneg, hintr, _, rfl, ?_⟩
      simp [hintr, hneg]
  · by_cases hblock : r.errno = EWOULDBLOCK
    · right; left
      have hne : EWOULDBLOCK ≠ EINTR := hblock ▸ hintr
      exact ⟨hblock, by simp [hblock, hne]⟩
    · right; right; left
      exact ⟨hintr, hblock, by simp [hintr, hblock]⟩

/-- A callback that has not been erased has bytes left, unless there were none. -/
structure Inv (nbytes : UInt64) (s : SendCall) : Prop where
  length : s.vars.nbytes = nbytes
  running : s.inCall = true → s.erased = false
  left : s.erased = false →
    s.vars.unfinished = true ∨ nbytes = 0 ∧ s.vars.sendbytes = 0 ∧ s.accepted = []

variable {nbytes : UInt64} {s s' : SendCall} {a : Action} {r : SysResult}

theorem inv_construct (nbytes : UInt64) : Inv nbytes (construct nbytes) where
  length := rfl
  running := nofun
  left _ := by
    by_cases hzero : nbytes = 0
    · exact .inr ⟨hzero, rfl, rfl⟩
    · left
      apply decide_eq_true
      exact UInt64.pos_iff_ne_zero.mpr hzero

theorem length_accepted (c : Send) (r : SysResult) :
    (c.accepted r).length = r.size.toInt.toNat := by
  rw [Send.accepted, List.length_map, List.length_range]

/-- A result that has accepted nothing leaves no position. -/
theorem accepted_eq_nil {c : Send} (h : r.size.toInt ≤ 0) : c.accepted r = [] := by
  have hzero : r.size.toInt.toNat = 0 := by omega
  rw [Send.accepted, hzero]
  rfl

/-- A negative result and one for an empty buffer have accepted nothing. -/
theorem offered_nothing {c : Send} (h : c.Offered r) (hn : c.nbytes = 0)
    (hs : c.sendbytes = 0) : c.accepted r = [] := by
  apply accepted_eq_nil
  rcases h with h | ⟨_, h⟩
  · rw [h]
    decide
  · have hrest : (c.nbytes - c.sizeSent).toNat = 0 := by
      rw [hn, Send.sizeSent, hs]
      rfl
    omega

theorem Inv.sysret (h : Inv nbytes s) (hcall : s.inCall = true) (hoffered : s.vars.Offered r) :
    Inv nbytes (s.sysret r) := by
  have hleft := h.left (h.running hcall)
  rcases sysret_cases s r with ⟨_, heq⟩ | ⟨_, heq⟩ | ⟨_, _, heq⟩ | ⟨_, _, c, hc, heq⟩ <;> rw [heq]
  · exact h
  · refine ⟨h.length, nofun, fun _ => ?_⟩
    rcases hleft with hleft | ⟨hn, hs, hacc⟩
    · exact .inl hleft
    · have hnil := offered_nothing hoffered (h.length.trans hn) hs
      refine .inr ⟨hn, hs, ?_⟩
      rw [finish, hacc, hnil]
      rfl
  · exact ⟨h.length, nofun, nofun⟩
  · refine ⟨?_, nofun, fun herased => .inl ?_⟩
    · rw [hc] at *
      exact h.length
    · simpa [finish, erased] using herased

theorem Inv.step (h : Inv nbytes s) (hstep : s.step a = some s') : Inv nbytes s' := by
  cases a with
  | invoke =>
      rcases Option.ite_none_left_eq_some.mp hstep with ⟨hidle, hstep⟩
      cases hstep
      have herased : s.erased = false := Bool.eq_false_iff.mpr fun he => hidle (.inr he)
      exact ⟨h.length, fun _ => herased, h.left⟩
  | sysret r =>
      rcases Option.ite_none_right_eq_some.mp hstep with ⟨⟨hcall, hoffered⟩, hstep⟩
      cases hstep
      exact h.sysret hcall hoffered

/-- Which positions continue the first ones. -/
theorem append_positions_iff (k n : Nat) (p : Int) :
    (List.range k).map Int.ofNat ++ (List.range n).map (fun i : Nat => p + i) =
      (List.range (k + n)).map Int.ofNat ↔ (0 < n → p = k) := by
  rw [List.range_add, List.map_append, List.append_cancel_left_eq, List.map_map]
  constructor
  · intro heq hn
    have hzero := List.map_inj_left.mp heq 0 (List.mem_range.mpr hn)
    simpa using hzero
  · intro hp
    apply List.map_congr_left
    intro i hi
    rw [hp (Nat.zero_lt_of_lt (List.mem_range.mp hi))]
    rfl

/-- Whether the positions accepted by a result continue those accepted before. -/
theorem append_accepted_iff (hs : s.accepted = (List.range s.accepted.length).map Int.ofNat) :
    s.accepted ++ s.vars.accepted r =
        (List.range (s.accepted ++ s.vars.accepted r).length).map Int.ofNat ↔
      (0 < r.size → s.vars.sendbytes.toInt = s.accepted.length) := by
  have hpos : 0 < r.size ↔ 0 < r.size.toInt.toNat := by
    rw [Int32.lt_iff_toInt_lt, Int32.toInt_zero]
    omega
  rw [hpos, List.length_append, length_accepted, ← append_positions_iff, ← hs]
  rfl

/-- A wait that has not ended keeps the bytes on the wire once if the new ones follow the others. -/
theorem once_finish_block_iff (hs : OnceOnWire nbytes s) {ret : IoRet} (hblock : ret.block = true)
    (c : Send) :
    OnceOnWire nbytes (s.finish ret c (s.vars.accepted r)) ↔
      (0 < r.size → s.vars.sendbytes.toInt = s.accepted.length) := by
  rw [← append_accepted_iff hs.accepted]
  refine ⟨fun h => h.accepted, fun h => ⟨h, fun r' hr' hend => ?_⟩⟩
  cases hr'
  exact absurd hblock (Bool.eq_false_iff.mp hend)

/-- The sum of two counts is not negative as an {lit}`int` only when it fits. -/
theorem toInt_add_of_nonneg {a b : Int32} (ha : 0 ≤ a.toInt) (hb : 0 ≤ b.toInt)
    (hab : 0 ≤ (a + b).toInt) : (a + b).toInt = a.toInt + b.toInt := by
  have hlta := a.toInt_lt
  have hltb := b.toInt_lt
  rw [Int32.toInt_add, Int.bmod_def] at *
  split at hab
  · rename_i hsmall
    rw [if_pos hsmall]
    omega
  · omega

/-- A count that is not negative is the same as a {lit}`size_t`. -/
theorem toNat_sizeSent {c : Send} (h : 0 ≤ c.sendbytes.toInt) :
    (c.sizeSent.toNat : Int) = c.sendbytes.toInt := by
  have hlt := c.sendbytes.toInt_lt
  have hmod : (c.sendbytes.toInt % 2 ^ 64).toNat < 2 ^ 64 := by omega
  rw [Send.sizeSent, UInt64.ofInt, UInt64.toNat_ofNat_of_lt' hmod]
  omega

/-- A callback whose counted bytes fill the buffer returns their number. -/
theorem result_of_finished {c : Send} {k : Nat} (hk : s.vars.sendbytes.toInt = k)
    (hleft : s.vars.unfinished = true) (hsize : 0 ≤ r.size) (hoffered : s.vars.Offered r)
    (hc : c = { s.vars with sendbytes := s.vars.sendbytes + r.size })
    (hfin : c.unfinished = false) (hret : 0 ≤ c.sendbytes) :
    c.sendbytes.toInt = k + r.size.toInt ∧ k + r.size.toInt = s.vars.nbytes.toNat := by
  rw [Int32.le_iff_toInt_le, Int32.toInt_zero] at hsize hret
  have hk0 : 0 ≤ s.vars.sendbytes.toInt := by omega
  have hsum : c.sendbytes.toInt = s.vars.sendbytes.toInt + r.size.toInt := by
    rw [hc] at hret ⊢
    exact toInt_add_of_nonneg hk0 hsize hret
  have hsent := toNat_sizeSent hk0
  have hsent' := toNat_sizeSent hret
  have hlt : s.vars.sizeSent.toNat < s.vars.nbytes.toNat :=
    UInt64.lt_iff_toNat_lt.mp (of_decide_eq_true hleft)
  have hge : s.vars.nbytes.toNat ≤ c.sizeSent.toNat := by
    have hnot := of_decide_eq_false hfin
    rw [UInt64.lt_iff_toNat_lt, hc] at hnot
    rw [hc]
    exact Nat.le_of_not_lt hnot
  have hle : r.size.toInt ≤ (s.vars.nbytes.toNat - s.vars.sizeSent.toNat : Nat) := by
    rcases hoffered with h | ⟨_, h⟩
    · rw [h] at hsize
      exact absurd hsize (by decide)
    · rwa [UInt64.toNat_sub_of_le _ _ (UInt64.le_of_lt (UInt64.lt_iff_toNat_lt.mpr hlt))] at h
  omega

/-- A result that ends the wait uncounted must be that of the whole buffer. -/
theorem once_uncounted_iff (hs : OnceOnWire nbytes s) :
    OnceOnWire nbytes (s.finish ⟨r.size, true, false⟩ s.vars (s.vars.accepted r)) ↔
      (0 ≤ r.size → (0 < r.size → s.vars.sendbytes.toInt = s.accepted.length) ∧
        s.accepted = [] ∧ r.size.toInt = nbytes.toNat) := by
  have hlen := length_accepted s.vars r
  constructor
  · intro honce hsize
    have hret := honce.result _ rfl rfl hsize
    rw [finish, List.length_append, hlen] at hret
    rw [Int32.le_iff_toInt_le, Int32.toInt_zero] at hsize
    have hnone : s.accepted.length = 0 := by
      dsimp only at hret
      omega
    refine ⟨(append_accepted_iff hs.accepted).mp honce.accepted, List.eq_nil_of_length_eq_zero hnone,
      ?_⟩
    dsimp only at hret
    omega
  · intro hcounted
    constructor
    · refine (append_accepted_iff hs.accepted).mpr fun hpos => ?_
      exact (hcounted (Int32.le_of_lt hpos)).1 hpos
    · intro ret hret _ hsize
      cases hret
      rcases hcounted hsize with ⟨_, hnone, hall⟩
      rw [Int32.le_iff_toInt_le, Int32.toInt_zero] at hsize
      rw [finish, List.length_append, hlen, hnone, List.length_nil]
      dsimp only
      omega

/-- A result that is counted puts its bytes on the wire once if all earlier ones are counted. -/
theorem Inv.once_counted_iff (h : Inv nbytes s) (hcall : s.inCall = true)
    (hoffered : s.vars.Offered r) (hs : OnceOnWire nbytes s) (hsize : 0 ≤ r.size) {c : Send}
    (hc : c = { s.vars with sendbytes := s.vars.sendbytes + r.size }) :
    OnceOnWire nbytes (s.finish ⟨c.sendbytes, c.unfinished, c.unfinished⟩ c (s.vars.accepted r)) ↔
      (0 < r.size → s.vars.sendbytes.toInt = s.accepted.length) := by
  have hlen := length_accepted s.vars r
  refine ⟨fun honce => (append_accepted_iff hs.accepted).mp honce.accepted, fun hcounted => ?_⟩
  refine ⟨(append_accepted_iff hs.accepted).mpr hcounted, fun ret hret hfin hpos => ?_⟩
  cases hret
  rw [finish, List.length_append, hlen]
  dsimp only at hfin hpos ⊢
  rcases h.left (h.running hcall) with hleft | ⟨hn, hzero, hnone⟩
  · by_cases hnew : 0 < r.size
    · have hres := result_of_finished (hcounted hnew) hleft hsize hoffered hc hfin hpos
      rw [h.length] at hres
      rw [Int32.le_iff_toInt_le, Int32.toInt_zero] at hsize
      omega
    · -- Nothing is accepted, so what was unfinished stays so.
      have hsame : c = s.vars := by
        rw [hc, Int32.le_antisymm (Int32.not_lt.mp hnew) hsize, Int32.add_zero]
      rw [hsame, hleft] at hfin
      cases hfin
  · have hnothing : (s.vars.accepted r).length = 0 := by
      rw [offered_nothing hoffered (h.length.trans hn) hzero, List.length_nil]
    rw [Int32.le_iff_toInt_le, Int32.toInt_zero] at hsize
    have hr : r.size = 0 := by
      rw [← Int32.toInt_inj, Int32.toInt_zero]
      omega
    rw [hc, hzero, hnone, hr, hn]
    exact ⟨rfl, rfl⟩

/-- Whether a step keeps the bytes on the wire once. -/
theorem Inv.once_step_iff (h : Inv nbytes s) (hs : OnceOnWire nbytes s)
    (hstep : s.step a = some s') : OnceOnWire nbytes s' ↔ Counted nbytes s a := by
  cases a with
  | invoke =>
      rcases Option.ite_none_left_eq_some.mp hstep with ⟨_, hstep⟩
      cases hstep
      exact iff_of_true ⟨hs.accepted, hs.result⟩ trivial
  | sysret r =>
      rcases Option.ite_none_right_eq_some.mp hstep with ⟨⟨hcall, hoffered⟩, hstep⟩
      cases hstep
      rcases sysret_cases s r with ⟨hneg, heq⟩ | ⟨hblock, heq⟩ | ⟨hintr, hblock, heq⟩ |
        ⟨hsize, hintr, c, hc, heq⟩ <;> rw [heq, Counted]
      · exact iff_of_true hs fun hsize => absurd hneg (Int32.not_lt.mpr hsize)
      · rw [once_finish_block_iff hs rfl]
        exact ⟨fun hnew _ => ⟨hnew, fun _ hne => absurd hblock hne⟩,
          fun hcounted hnew => (hcounted (Int32.le_of_lt hnew)).1 hnew⟩
      · rw [once_uncounted_iff hs]
        exact ⟨fun hcounted hsize => ⟨(hcounted hsize).1, fun _ _ => (hcounted hsize).2⟩,
          fun hcounted hsize => ⟨(hcounted hsize).1, (hcounted hsize).2 hintr hblock⟩⟩
      · rw [h.once_counted_iff hcall hoffered hs hsize hc]
        exact ⟨fun hnew _ => ⟨hnew, fun hne => absurd hintr hne⟩,
          fun hcounted hnew => (hcounted hsize).1 hnew⟩

/-! ## The results of `::send` -/

/-- How many bytes a result has accepted. -/
def taken (r : SysResult) : Nat :=
  r.size.toInt.toNat

/-- How many bytes a result adds to {lit}`sendbytes`. -/
def counted (r : SysResult) : Nat :=
  if r.errno = EINTR then taken r else 0

/-- A result that accepts bytes comes after results that have left {lit}`EINTR` whenever they accepted
bytes, and whose bytes an {lit}`int` can count.  A success with an {lit}`errno` other than {lit}`EINTR` and
{lit}`EWOULDBLOCK` is the first to accept bytes and accepts all. -/
def Follows (nbytes : UInt64) (past : List SysResult) (r : SysResult) : Prop :=
  0 ≤ r.size →
    (0 < r.size → (∀ q ∈ past, 0 < q.size → q.errno = EINTR) ∧ (past.map taken).sum < 2 ^ 31) ∧
      (r.errno ≠ EINTR → r.errno ≠ EWOULDBLOCK →
        (∀ q ∈ past, q.size ≤ 0) ∧ r.size.toInt = nbytes.toNat)

/-- Every result follows the results {lit}`past` and those before it. -/
def Regular (nbytes : UInt64) : List SysResult → List SysResult → Prop
  | _, [] => True
  | past, r :: rs => Follows nbytes past r ∧ Regular nbytes (past ++ [r]) rs

/-- The results of {lit}`::send` in a run. -/
def results (as : List Action) : List SysResult :=
  as.filterMap fun
    | .invoke => none
    | .sysret r => some r

/-- What the results so far have added to {lit}`sendbytes`, and how many bytes they have accepted. -/
structure Past (past : List SysResult) (s : SendCall) : Prop where
  sendbytes : s.vars.sendbytes = .ofNat (past.map counted).sum
  accepted : s.accepted.length = (past.map taken).sum

variable {past : List SysResult}

theorem past_construct (nbytes : UInt64) : Past [] (construct nbytes) where
  sendbytes := rfl
  accepted := rfl

theorem counted_le_taken (r : SysResult) : counted r ≤ taken r := by
  unfold counted
  split
  · exact Nat.le_refl _
  · exact Nat.zero_le _

theorem sum_counted_le (past : List SysResult) :
    (past.map counted).sum ≤ (past.map taken).sum := by
  induction past with
  | nil => exact Nat.le_refl _
  | cons r past ih =>
      have hr := counted_le_taken r
      simp only [List.map_cons, List.sum_cons]
      omega

theorem taken_eq_zero_iff : taken r = 0 ↔ r.size ≤ 0 := by
  rw [taken, Int32.le_iff_toInt_le, Int32.toInt_zero]
  omega

/-- All bytes are counted when every result that accepts bytes leaves {lit}`EINTR`. -/
theorem sum_counted_eq_iff :
    (past.map counted).sum = (past.map taken).sum ↔
      ∀ q ∈ past, 0 < q.size → q.errno = EINTR := by
  induction past with
  | nil => simp
  | cons r past ih =>
      have hr := counted_le_taken r
      have hsum := sum_counted_le past
      have hhead : counted r = taken r ↔ (0 < r.size → r.errno = EINTR) := by
        unfold counted
        split
        · rename_i hintr
          exact iff_of_true rfl fun _ => hintr
        · rename_i hintr
          rw [eq_comm, taken_eq_zero_iff, ← Int32.not_lt]
          exact ⟨fun h hpos => absurd hpos h, fun h hpos => hintr (h hpos)⟩
      rw [List.forall_mem_cons, ← ih, ← hhead]
      simp only [List.map_cons, List.sum_cons]
      omega

theorem sum_taken_eq_zero_iff : (past.map taken).sum = 0 ↔ ∀ q ∈ past, q.size ≤ 0 := by
  induction past with
  | nil => simp
  | cons r past ih =>
      rw [List.forall_mem_cons, ← ih, ← taken_eq_zero_iff]
      simp only [List.map_cons, List.sum_cons]
      omega

/-- An {lit}`int` that counts {lit}`n` modulo {lit}`2 ^ 32` is {lit}`m`, which is not less, if and only if they agree and it
fits. -/
theorem toInt_ofNat_eq_iff {n m : Nat} (hle : n ≤ m) :
    (Int32.ofNat n).toInt = m ↔ n = m ∧ m < 2 ^ 31 := by
  have hsize : Int32.size = 4294967296 := rfl
  rw [Int32.toInt_ofNat', Int.bmod_def, hsize]
  split <;> omega

/-- The condition on a step by the results so far. -/
theorem Past.counted_iff (h : Past past s) :
    Counted nbytes s (.sysret r) ↔ Follows nbytes past r := by
  have hcounter : s.vars.sendbytes.toInt = s.accepted.length ↔
      (∀ q ∈ past, 0 < q.size → q.errno = EINTR) ∧ (past.map taken).sum < 2 ^ 31 := by
    rw [h.sendbytes, h.accepted, toInt_ofNat_eq_iff (sum_counted_le past), sum_counted_eq_iff]
  have hnone : s.accepted = [] ↔ ∀ q ∈ past, q.size ≤ 0 := by
    rw [← List.length_eq_zero_iff, h.accepted, sum_taken_eq_zero_iff]
  rw [Counted, Follows, hcounter, hnone]

/-- A result adds to what the results so far have done. -/
theorem Past.sysret (h : Past past s) (r : SysResult) : Past (past ++ [r]) (s.sysret r) := by
  have hsum : ∀ f : SysResult → Nat, ((past ++ [r]).map f).sum = (past.map f).sum + f r := by
    intro f
    simp
  have hlen : (s.vars.accepted r).length = taken r := length_accepted s.vars r
  have hkeep : r.errno ≠ EINTR → counted r = 0 := fun hne => if_neg hne
  rcases sysret_cases s r with ⟨hneg, heq⟩ | ⟨hblock, heq⟩ | ⟨hintr, _, heq⟩ |
    ⟨hsize, hintr, c, hc, heq⟩ <;> rw [heq]
  · have htaken : taken r = 0 := taken_eq_zero_iff.mpr (Int32.le_of_lt hneg)
    have hcounted : counted r = 0 := Nat.le_zero.mp (htaken ▸ counted_le_taken r)
    refine ⟨?_, ?_⟩
    · rw [hsum, h.sendbytes, hcounted, Nat.add_zero]
    · rw [hsum, h.accepted, htaken, Nat.add_zero]
  · have hne : r.errno ≠ EINTR := by
      rw [hblock]
      decide
    refine ⟨?_, ?_⟩
    · rw [hsum, hkeep hne, Nat.add_zero]
      exact h.sendbytes
    · rw [hsum, finish, List.length_append, h.accepted, hlen]
  · refine ⟨?_, ?_⟩
    · rw [hsum, hkeep hintr, Nat.add_zero]
      exact h.sendbytes
    · rw [hsum, finish, List.length_append, h.accepted, hlen]
  · refine ⟨?_, ?_⟩
    · have hcounted : counted r = r.size.toInt.toNat := if_pos hintr
      have hr : r.size = .ofNat (counted r) := by
        rw [Int32.le_iff_toInt_le, Int32.toInt_zero] at hsize
        rw [hcounted, ← Int32.ofInt_eq_ofNat, Int.toNat_of_nonneg hsize, Int32.ofInt_toInt]
      rw [hsum, Int32.ofNat_add, ← hr, ← h.sendbytes, hc]
      rfl
    · rw [hsum, finish, List.length_append, h.accepted, hlen]

/-! ## Runs -/

/-- The steps of a run meet {lit}`Counted` if and only if its results are regular. -/
theorem Past.along_iff {as : List Action} (h : Past past s)
    (hrun : (machine nbytes).run s as = some s') :
    (machine nbytes).Along (Counted nbytes) s as ↔ Regular nbytes past (results as) := by
  induction as generalizing s past with
  | nil => exact Iff.rfl
  | cons a as ih =>
      rcases Machine.run_cons_eq_some.mp hrun with ⟨t, hstep, hrest⟩
      rw [Machine.along_cons hstep]
      cases a with
      | invoke =>
          rcases Option.ite_none_left_eq_some.mp hstep with ⟨_, heq⟩
          cases heq
          exact (and_iff_right trivial).trans (ih ⟨h.sendbytes, h.accepted⟩ hrest)
      | sysret r =>
          rcases Option.ite_none_right_eq_some.mp hstep with ⟨_, heq⟩
          cases heq
          exact and_congr h.counted_iff (ih (h.sysret r) hrest)

/-- In every run of a call, every byte is put on the wire once and the result is the full length
if and only if every result of {lit}`::send` follows those before it. -/
theorem once_iff_regular (nbytes : UInt64) (as : List Action) (s : SendCall)
    (hrun : (machine nbytes).run (construct nbytes) as = some s) :
    (machine nbytes).Always (OnceOnWire nbytes) (construct nbytes) as ↔
      Regular nbytes [] (results as) := by
  have honce : OnceOnWire nbytes (construct nbytes) := ⟨rfl, nofun⟩
  rw [← (past_construct nbytes).along_iff hrun]
  exact Machine.always_iff_along (I := Inv nbytes) (fun _ _ _ h hstep => h.step hstep)
    (fun _ _ _ h hs hstep => h.once_step_iff hs hstep) (inv_construct nbytes) honce hrun

/-- Three bytes in two parts, with {lit}`EINTR` left over both times. -/
def parts : List Action :=
  [.invoke, .sysret ⟨2, EINTR⟩, .invoke, .sysret ⟨-1, EINTR⟩, .sysret ⟨1, EINTR⟩]

theorem regular_parts : Regular 3 [] (results parts) := by
  refine ⟨fun _ => ⟨fun _ => ⟨nofun, by decide⟩, fun hne => absurd rfl hne⟩,
    fun hsize => absurd hsize (by decide),
    fun _ => ⟨fun _ => ⟨?_, by decide⟩, fun hne => absurd rfl hne⟩, trivial⟩
  intro q hq _
  rcases List.mem_cons.mp hq with rfl | hq
  · rfl
  · rw [List.mem_singleton.mp hq]

theorem once_iff_regular_parts :
    ∃ s : SendCall, s.accepted = [0, 1, 2] ∧ s.last = some ⟨3, false, false⟩ ∧
      (machine 3).Always (OnceOnWire 3) (construct 3) parts := by
  have hrun : ((machine 3).run (construct 3) parts).map (fun s => (s.accepted, s.last)) =
      some ([0, 1, 2], some ⟨3, false, false⟩) := by
    decide +kernel
  rcases Option.map_eq_some_iff.mp hrun with ⟨s, hs, hvalues⟩
  exact ⟨s, congrArg Prod.fst hvalues, congrArg Prod.snd hvalues,
    (once_iff_regular 3 parts s hs).mpr regular_parts⟩

/-- Of four bytes two are accepted while {lit}`errno` still holds {lit}`EWOULDBLOCK`; the next {lit}`::send` offers
the same two again. -/
theorem send_repeats :
    ¬ ∀ (nbytes : UInt64) (s : SendCall), (machine nbytes).Reachable s → OnceOnWire nbytes s := by
  intro hclaim
  have hrun : ((machine 4).run (construct 4)
      [.invoke, .sysret ⟨2, EWOULDBLOCK⟩, .invoke, .sysret ⟨2, EWOULDBLOCK⟩]).map
        (fun s => s.accepted) = some [0, 1, 0, 1] := by
    decide +kernel
  rcases Option.map_eq_some_iff.mp hrun with ⟨s, hs, haccepted⟩
  have honce := (hclaim 4 s ⟨_, _, rfl, hs⟩).accepted
  rw [haccepted] at honce
  exact absurd honce (by decide)

end SendCall
end Colib
end CoEpoll
