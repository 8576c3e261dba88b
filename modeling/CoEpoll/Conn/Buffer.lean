import CoEpoll.Ring.Window
import Mathlib.Data.List.Basic

/-!
# `Buffer`: the byte buffer of a connection

The bytes stand in the array {lit}`__buf` from {lit}`__start` up to {lit}`__end`, around the end of the
array; one cell is always left free.  The fields are 16-bit numbers that take part in {lit}`int`
arithmetic, so a result is truncated when it is stored or returned.
-/

namespace CoEpoll

open Ring

/-- {lit}`Buffer`; the array has {lit}`__size` cells and both positions lie in it. -/
structure Buffer (α : Type*) where
  __buf : List α
  __start : UInt16
  __end : UInt16
  __size : UInt16
  length_buf : __buf.length = __size.toNat
  start_lt : __start.toNat < __size.toNat
  end_lt : __end.toNat < __size.toNat

namespace Buffer

variable {α : Type*}

/-- The promotion to {lit}`int`. -/
def int (x : UInt16) : Int :=
  x.toNat

/-- Storing a position of the array loses nothing. -/
theorem toNat_mod {size : UInt16} (n : Nat) (hsize : 0 < size.toNat) :
    (UInt16.ofNat (n % size.toNat)).toNat = n % size.toNat := by
  have hlt := Nat.mod_lt n hsize
  have hsize := size.toNat_lt
  rw [UInt16.toNat_ofNat']
  exact Nat.mod_eq_of_lt (by omega)

theorem toNat_mod_lt {size : UInt16} (n : Nat) (hsize : 0 < size.toNat) :
    (UInt16.ofNat (n % size.toNat)).toNat < size.toNat := by
  rw [toNat_mod n hsize]
  exact Nat.mod_lt n hsize

/-- {lit}`Buffer::Buffer` -/
def construct [Inhabited α] (size : UInt16) (hsize : 0 < size) : Buffer α where
  __buf := List.replicate size.toNat default
  __start := 0
  __end := 0
  __size := size
  length_buf := List.length_replicate
  start_lt := UInt16.lt_iff_toNat_lt.mp hsize
  end_lt := UInt16.lt_iff_toNat_lt.mp hsize

/-- The contexts have buffers of this size. -/
theorem zero_lt_1024 : (0 : UInt16) < 1024 := by
  decide

variable (b : Buffer α)

theorem size_pos : 0 < b.__size.toNat :=
  Nat.lt_of_le_of_lt (Nat.zero_le _) b.start_lt

/-! ## The capacities -/

/-- {lit}`Buffer::readableCap` -/
def readableCap : UInt16 :=
  .ofInt (if int b.__start ≤ int b.__end then int b.__end - int b.__start
    else int b.__size - int b.__start + int b.__end)

/-- {lit}`Buffer::writeableCap` -/
def writeableCap : UInt16 :=
  .ofInt (if int b.__start > int b.__end then int b.__start - int b.__end - 1
    else int b.__size + int b.__start - int b.__end - 1)

/-- {lit}`Buffer::getCap` -/
def getCap : UInt16 :=
  .ofInt (int b.__size - 1)

/-- {lit}`Buffer::readable` -/
def readable : Bool :=
  b.__start != b.__end

/-- {lit}`Buffer::writeable` -/
def writeable : Bool :=
  b.__start.toNat != (b.__end.toNat + 1) % b.__size.toNat

/-! ## The operations -/

/-- {lit}`Buffer::operator[]`: the cell that is referred to. -/
def index (index : Int) : Except String (Fin b.__size.toNat) :=
  if index < 0 ∨ index ≥ int b.readableCap then throw "OutOfRangeException"
  else return ⟨(b.__start.toNat + index.toNat) % b.__size.toNat, Nat.mod_lt _ b.size_pos⟩

/-- What a cell holds. -/
def cell (i : Fin b.__size.toNat) : α :=
  b.__buf.get (i.cast b.length_buf.symm)

/-- {lit}`__start = 0` and {lit}`__end = 0` -/
def rewind : Buffer α :=
  { b with
    __start := 0
    __end := 0
    start_lt := b.size_pos
    end_lt := b.size_pos }

/-- {lit}`Buffer::clear()` -/
def clearAll : Buffer α × Int :=
  (b.rewind, int b.readableCap)

/-- {lit}`__start = (__start + n) % __size` -/
def advanceStart (n : Nat) : Buffer α :=
  { b with
    __start := .ofNat ((b.__start.toNat + n) % b.__size.toNat)
    start_lt := toNat_mod_lt _ b.size_pos }

/-- {lit}`__end = (__end + n) % __size` -/
def advanceEnd (n : Nat) : Buffer α :=
  { b with
    __end := .ofNat ((b.__end.toNat + n) % b.__size.toNat)
    end_lt := toNat_mod_lt _ b.size_pos }

/-- {lit}`Buffer::clear(n)` -/
def clear (n : UInt16) : Buffer α × Int :=
  let n := if n > b.readableCap then b.readableCap else n
  (b.advanceStart n.toNat, int n)

/-- {lit}`Buffer::insert` -/
def insert (n : UInt16) : Buffer α × Int :=
  let n := if n > b.writeableCap then b.writeableCap else n
  (b.advanceEnd n.toNat, int n)

/-- {lit}`__buf[__end] = ch` -/
def setEnd (ch : α) : Buffer α :=
  { b with
    __buf := b.__buf.set b.__end.toNat ch
    length_buf := (List.length_set).trans b.length_buf }

/-- {lit}`Buffer::insertCh` -/
def insertCh (ch : α) : Buffer α × Int :=
  if b.writeable then ((b.setEnd ch).advanceEnd 1, 1) else (b, 0)

/-- {lit}`Buffer::data`: the segments to read from, or those to write to. -/
def data (read : Bool) : List Segment :=
  let head := if read then b.__start.toNat else b.__end.toNat
  let tail :=
    if read then b.__end.toNat else (b.__start.toNat + b.__size.toNat - 1) % b.__size.toNat
  if head < tail then [⟨head, tail - head⟩]
  else if head > tail then
    ⟨head, b.__size.toNat - head⟩ :: if tail > 0 then [⟨0, tail⟩] else []
  else []

/-- The loop of {lit}`retriveStr`: what it appends to {lit}`str` and adds to {lit}`retrive`.  The
comparison with {lit}`iov_len` is one of {lit}`size_t`. -/
def retriveStrLoop (cells : List α) : List Segment → Int → List α × Nat
  | [], _ => ([], 0)
  | iov :: iovs, n =>
      let len := if n % 2 ^ 64 < iov.len then (n % 2 ^ 64).toNat else iov.len
      let rest := retriveStrLoop cells iovs (n - len)
      ((cells.drop iov.base).take len ++ rest.1, len + rest.2)

/-- {lit}`Buffer::retriveStr` -/
def retriveStr (n : Int) : Buffer α × List α :=
  let r := retriveStrLoop b.__buf (b.data true) n
  ((b.clear (.ofNat r.2)).1, r.1)

/-- The cells that the loop of {lit}`retriveRaw` copies. -/
def rawCells (n : Nat) : List α :=
  (List.range n).filterMap fun i => b.__buf[(b.__start.toNat + i) % b.__size.toNat]?

/-- {lit}`Buffer::retriveRaw`: the bytes that it copies, and what it returns. -/
def retriveRaw (n : Int) : Buffer α × List α × UInt16 :=
  if n > int b.readableCap then (b, [], 0)
  else ((b.clear (.ofInt n)).1, b.rawCells n.toNat, .ofInt n)

end Buffer
end CoEpoll
