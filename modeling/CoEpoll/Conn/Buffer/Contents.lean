import CoEpoll.Conn.Buffer

/-!
# `Buffer`: what its operations do to its contents

The contents are the window of the array from {lit}`__start` on.

Main results:

- Theorem {lit}`data_true`, {lit}`data_false`: the segments to read from are those of the contents, the
  segments to write to those of the free cells behind them.
- Theorems {lit}`contents_clear`, {lit}`contents_insertCh`: what is taken out in front and put in behind.
- Theorems {lit}`retriveStr_eq`, {lit}`retriveRaw_eq`: what is copied out.
-/

namespace CoEpoll
namespace Buffer

open Ring

variable {α : Type*}

/-- A number below {lit}`2 ^ 16` survives its truncation. -/
theorem int_ofInt {x : Int} (hpos : 0 ≤ x) (hlt : x < 2 ^ 16) : int (.ofInt x) = x := by
  have hmod : x % 2 ^ 16 = x := Int.emod_eq_of_lt hpos hlt
  have hnat : (UInt16.ofInt x).toNat = x.toNat := by
    rw [UInt16.ofInt, hmod, UInt16.toNat_ofNat']
    omega
  rw [int, hnat]
  exact Int.toNat_of_nonneg hpos

/-- How many bytes the buffer holds. -/
def length (b : Buffer α) : Nat :=
  if b.__start.toNat ≤ b.__end.toNat then b.__end.toNat - b.__start.toNat
  else b.__size.toNat - b.__start.toNat + b.__end.toNat

/-- The bytes in the buffer. -/
def contents (b : Buffer α) : List α :=
  window b.__buf b.__start.toNat b.length

variable {b : Buffer α}

theorem length_lt (b : Buffer α) : b.length < b.__size.toNat := by
  have hstart := b.start_lt
  have hend := b.end_lt
  unfold length
  split <;> omega

@[simp]
theorem length_contents (b : Buffer α) : b.contents.length = b.length := by
  have hlt := b.length_lt
  have hbuf := b.length_buf
  exact length_window (by omega)

/-- {lit}`__end` is behind the contents. -/
theorem end_eq (b : Buffer α) : b.__end.toNat = (b.__start.toNat + b.length) % b.__size.toNat := by
  have hstart := b.start_lt
  have hend := b.end_lt
  unfold length
  split
  · rw [Nat.add_sub_cancel' (by assumption), Nat.mod_eq_of_lt hend]
  · have haround : b.__start.toNat + (b.__size.toNat - b.__start.toNat + b.__end.toNat) =
        b.__end.toNat + b.__size.toNat := by omega
    rw [haround, Nat.add_mod_right, Nat.mod_eq_of_lt hend]

/-- The positions determine how much the buffer holds. -/
theorem length_of_end {n : Nat} (hn : n < b.__size.toNat)
    (hend : b.__end.toNat = (b.__start.toNat + n) % b.__size.toNat) : b.length = n := by
  have hstart := b.start_lt
  unfold length
  by_cases hturn : b.__start.toNat + n < b.__size.toNat
  · rw [Nat.mod_eq_of_lt hturn] at hend
    rw [if_pos (by omega)]
    omega
  · rw [Nat.mod_eq_sub_mod (by omega), Nat.mod_eq_of_lt (by omega)] at hend
    rw [if_neg (by omega)]
    omega

/-! ## The capacities -/

theorem int_readableCap (b : Buffer α) : int b.readableCap = b.length := by
  have hstart := b.start_lt
  have hend := b.end_lt
  have hsize := b.__size.toNat_lt
  have hvalue : (if int b.__start ≤ int b.__end then int b.__end - int b.__start
      else int b.__size - int b.__start + int b.__end) = (b.length : Int) := by
    unfold int length
    split <;> split <;> omega
  have hlt := b.length_lt
  rw [readableCap, hvalue, int_ofInt (by omega) (by omega)]

theorem toNat_readableCap (b : Buffer α) : b.readableCap.toNat = b.length := by
  have h := b.int_readableCap
  unfold int at h
  omega

theorem int_writeableCap (b : Buffer α) :
    int b.writeableCap = b.__size.toNat - 1 - (b.length : Int) := by
  have hstart := b.start_lt
  have hend := b.end_lt
  have hsize := b.__size.toNat_lt
  have hvalue : (if int b.__start > int b.__end then int b.__start - int b.__end - 1
      else int b.__size + int b.__start - int b.__end - 1) =
        b.__size.toNat - 1 - (b.length : Int) := by
    unfold int length
    split <;> split <;> omega
  have hlt := b.length_lt
  rw [writeableCap, hvalue, int_ofInt (by omega) (by omega)]

theorem toNat_writeableCap (b : Buffer α) :
    b.writeableCap.toNat = b.__size.toNat - 1 - b.length := by
  have h := b.int_writeableCap
  have hlt := b.length_lt
  unfold int at h
  omega

theorem readable_iff (b : Buffer α) : b.readable = true ↔ b.length ≠ 0 := by
  have hstart := b.start_lt
  have hend := b.end_lt
  rw [readable, bne_iff_ne, ← UInt16.toNat_inj.ne]
  unfold length
  split <;> omega

theorem writeable_iff (b : Buffer α) : b.writeable = true ↔ b.length < b.__size.toNat - 1 := by
  have hstart := b.start_lt
  have hend := b.end_lt
  rw [writeable, bne_iff_ne]
  unfold length
  by_cases hlast : b.__end.toNat + 1 < b.__size.toNat
  · rw [Nat.mod_eq_of_lt hlast]
    split <;> omega
  · have hturn : b.__end.toNat + 1 = b.__size.toNat := by omega
    rw [hturn, Nat.mod_self]
    split <;> omega

/-! ## The segments -/

/-- The segments to read from are those of the contents. -/
theorem data_true (b : Buffer α) :
    b.data true = segments b.__buf.length b.__start.toNat b.length := by
  have hstart := b.start_lt
  have hend := b.end_lt
  rw [b.length_buf]
  unfold data segments length
  simp only [if_true]
  by_cases hle : b.__start.toNat ≤ b.__end.toNat
  · rw [if_pos hle]
    by_cases heq : b.__start.toNat = b.__end.toNat
    · rw [heq, if_neg (by omega), if_neg (by omega), if_pos (by omega)]
    · rw [if_pos (by omega), if_neg (by omega), if_pos (by omega)]
  · rw [if_neg hle, if_neg (by omega), if_pos (by omega)]
    by_cases hzero : b.__end.toNat = 0
    · rw [if_neg (by omega), if_neg (by omega), if_pos (by omega), hzero, Nat.add_zero]
    · have hrest : b.__start.toNat + (b.__size.toNat - b.__start.toNat + b.__end.toNat) -
          b.__size.toNat = b.__end.toNat := by omega
      rw [if_pos (by omega), if_neg (by omega), if_neg (by omega), hrest]

/-- The segments to write to are those of the free cells behind the contents, but for one. -/
theorem data_false (b : Buffer α) :
    b.data false =
      segments b.__buf.length ((b.__start.toNat + b.length) % b.__buf.length)
        (b.__size.toNat - 1 - b.length) := by
  have hstart := b.start_lt
  have hend := b.end_lt
  rw [b.length_buf, ← b.end_eq]
  unfold data segments length
  simp only [Bool.false_eq_true, if_false]
  by_cases hzero : b.__start.toNat = 0
  · have htail : (b.__start.toNat + b.__size.toNat - 1) % b.__size.toNat = b.__size.toNat - 1 := by
      rw [hzero, Nat.zero_add, Nat.mod_eq_of_lt (by omega)]
    rw [htail, if_pos (c := b.__start.toNat ≤ b.__end.toNat) (by omega), hzero]
    by_cases hfull : b.__end.toNat = b.__size.toNat - 1
    · rw [if_neg (by omega), if_neg (by omega), if_pos (by omega)]
    · rw [if_pos (by omega), if_neg (by omega), if_pos (by omega)]
      rfl
  · have htail : (b.__start.toNat + b.__size.toNat - 1) % b.__size.toNat = b.__start.toNat - 1 := by
      rw [Nat.mod_eq_sub_mod (by omega), Nat.mod_eq_of_lt (by omega)]
      omega
    rw [htail]
    by_cases hle : b.__start.toNat ≤ b.__end.toNat
    · rw [if_pos hle, if_neg (by omega), if_pos (by omega)]
      by_cases hone : b.__start.toNat = 1
      · have hrest : b.__size.toNat - b.__end.toNat =
            b.__size.toNat - 1 - (b.__end.toNat - b.__start.toNat) := by omega
        rw [if_neg (by omega), if_neg (by omega), if_pos (by omega), hrest]
      · have hrest : b.__end.toNat + (b.__size.toNat - 1 - (b.__end.toNat - b.__start.toNat)) -
            b.__size.toNat = b.__start.toNat - 1 := by omega
        rw [if_pos (by omega), if_neg (by omega), if_neg (by omega), hrest]
    · have hrest : b.__start.toNat - 1 - b.__end.toNat =
          b.__size.toNat - 1 - (b.__size.toNat - b.__start.toNat + b.__end.toNat) := by omega
      rw [if_neg hle]
      by_cases hfull : b.__end.toNat = b.__start.toNat - 1
      · rw [if_neg (by omega), if_neg (by omega), if_pos (by omega)]
      · rw [if_pos (by omega), if_neg (by omega), if_pos (by omega), hrest]

/-- Without room there is no segment to write to. -/
theorem data_false_eq_nil (b : Buffer α) : b.data false = [] ↔ ¬ b.writeable = true := by
  rw [b.writeable_iff, b.data_false, segments]
  split
  · rename_i hzero
    exact iff_of_true rfl (by omega)
  · rename_i hroom
    refine iff_of_false ?_ (by omega)
    split
    · exact List.cons_ne_nil _ _
    · exact List.cons_ne_nil _ _

/-- Reading the segments of {lit}`data(true)` in order gives the contents. -/
theorem gather_data (b : Buffer α) : gather b.__buf (b.data true) = b.contents := by
  have hstart := b.start_lt
  have hlt := b.length_lt
  have hbuf := b.length_buf
  rw [b.data_true, gather_segments (by omega) (by omega), contents]

/-! ## Taking out -/

theorem length_advanceStart {n : Nat} (hn : n ≤ b.length) :
    (b.advanceStart n).length = b.length - n := by
  have hlt := b.length_lt
  refine length_of_end (b := b.advanceStart n) (n := b.length - n) ?_ ?_
  · exact Nat.lt_of_le_of_lt (Nat.sub_le _ _) hlt
  · have hsum : b.__start.toNat + n + (b.length - n) = b.__start.toNat + b.length := by omega
    dsimp only [advanceStart]
    rw [toNat_mod _ b.size_pos, Nat.mod_add_mod, hsum, b.end_eq]

theorem contents_advanceStart {n : Nat} (hn : n ≤ b.length) :
    (b.advanceStart n).contents = b.contents.drop n := by
  have hlt := b.length_lt
  have hbuf := b.length_buf
  rw [contents, length_advanceStart hn]
  dsimp only [advanceStart]
  rw [toNat_mod _ b.size_pos, ← b.length_buf, window_mod, contents, drop_window hn (by omega)]

/-- What {lit}`clear(n)` returns. -/
theorem clear_snd (b : Buffer α) (n : UInt16) : (b.clear n).2 = min n.toNat b.length := by
  have hcap := b.toNat_readableCap
  unfold clear int
  dsimp only
  split
  · rename_i hgt
    have hgt := UInt16.lt_iff_toNat_lt.mp hgt
    omega
  · rename_i hle
    have hle := mt UInt16.lt_iff_toNat_lt.mpr hle
    omega

/-- {lit}`clear(n)` takes out the first {lit}`n` bytes. -/
theorem contents_clear (b : Buffer α) (n : UInt16) :
    (b.clear n).1.contents = b.contents.drop n.toNat := by
  have hcap := b.toNat_readableCap
  have hlen := b.length_contents
  unfold clear
  dsimp only
  split
  · rename_i hgt
    have hgt := UInt16.lt_iff_toNat_lt.mp hgt
    rw [contents_advanceStart (by omega), List.drop_of_length_le (by omega),
      List.drop_of_length_le (by omega)]
  · rename_i hle
    have hle := mt UInt16.lt_iff_toNat_lt.mpr hle
    exact contents_advanceStart (by omega)

@[simp]
theorem size_clear (b : Buffer α) (n : UInt16) : (b.clear n).1.__size = b.__size :=
  rfl

theorem contents_rewind (b : Buffer α) : b.rewind.contents = [] := by
  refine List.eq_nil_of_length_eq_zero ?_
  rw [length_contents]
  rfl

/-! ## Putting in -/

/-- {lit}`readv` into the segments of {lit}`data(false)`. -/
def fill (b : Buffer α) (xs : List α) (hxs : xs.length ≤ b.writeableCap.toNat) : Buffer α :=
  { b with
    __buf := scatter b.__buf (b.data false) xs
    length_buf := by
      have hlt := b.length_lt
      have hbuf := b.length_buf
      rw [b.toNat_writeableCap] at hxs
      rw [b.data_false, length_scatter (Nat.mod_lt _ (by omega)) (by omega) hxs, hbuf] }

theorem length_advanceEnd {n : Nat} (hn : b.length + n < b.__size.toNat) :
    (b.advanceEnd n).length = b.length + n := by
  refine length_of_end (b := b.advanceEnd n) (n := b.length + n) hn ?_
  dsimp only [advanceEnd]
  rw [toNat_mod _ b.size_pos, b.end_eq, Nat.mod_add_mod, Nat.add_assoc]

/-- What has been written behind the contents belongs to them when {lit}`__end` has moved on. -/
theorem contents_fill_advanceEnd {xs : List α} (hxs : xs.length ≤ b.writeableCap.toNat) :
    ((b.fill xs hxs).advanceEnd xs.length).contents = b.contents ++ xs := by
  have hlt := b.length_lt
  have hbuf := b.length_buf
  have hroom := hxs
  rw [b.toNat_writeableCap] at hroom
  have hlen : ((b.fill xs hxs).advanceEnd xs.length).length = b.length + xs.length :=
    length_advanceEnd (b := b.fill xs hxs) (by
      change b.length + xs.length < b.__size.toNat
      omega)
  rw [contents, hlen]
  dsimp only [advanceEnd, fill]
  rw [b.data_false, contents, ← window_scatter (by omega) (by omega) hroom]

/-- What {lit}`insert` does when there is room. -/
theorem insert_eq {n : UInt16} (hn : n.toNat ≤ b.writeableCap.toNat) :
    b.insert n = (b.advanceEnd n.toNat, int n) := by
  have hle : ¬ n > b.writeableCap := fun hgt =>
    absurd (UInt16.lt_iff_toNat_lt.mp hgt) (Nat.not_lt_of_le hn)
  rw [insert, if_neg hle]

/-- One byte is written to the first free cell. -/
theorem setEnd_eq_fill {ch : α} (hxs : [ch].length ≤ b.writeableCap.toNat) :
    b.setEnd ch = b.fill [ch] hxs := by
  have hlt := b.length_lt
  have hbuf := b.length_buf
  have hroom := hxs
  rw [b.toNat_writeableCap, List.length_singleton] at hroom
  have hset : b.__buf.set b.__end.toNat ch = scatter b.__buf (b.data false) [ch] := by
    rw [b.data_false, scatter_singleton (Nat.mod_lt _ (by omega)) (by omega), hbuf, ← b.end_eq]
  unfold setEnd fill
  simp only [hset]

/-- {lit}`insertCh` puts a byte behind the others if there is room. -/
theorem contents_insertCh (b : Buffer α) (ch : α) :
    (b.insertCh ch).1.contents =
      if b.length < b.__size.toNat - 1 then b.contents ++ [ch] else b.contents := by
  have hwriteable := b.writeable_iff
  unfold insertCh
  by_cases hroom : b.length < b.__size.toNat - 1
  · have hxs : [ch].length ≤ b.writeableCap.toNat := by
      rw [b.toNat_writeableCap, List.length_singleton]
      omega
    rw [if_pos (hwriteable.mpr hroom), if_pos hroom, setEnd_eq_fill hxs]
    exact contents_fill_advanceEnd hxs
  · rw [if_neg (mt hwriteable.mp hroom), if_neg hroom]

theorem insertCh_snd (b : Buffer α) (ch : α) :
    (b.insertCh ch).2 = if b.length < b.__size.toNat - 1 then 1 else 0 := by
  have hwriteable := b.writeable_iff
  unfold insertCh
  by_cases hroom : b.length < b.__size.toNat - 1
  · rw [if_pos (hwriteable.mpr hroom), if_pos hroom]
  · rw [if_neg (mt hwriteable.mp hroom), if_neg hroom]

@[simp]
theorem size_insertCh (b : Buffer α) (ch : α) : (b.insertCh ch).1.__size = b.__size := by
  unfold insertCh
  split <;> rfl

/-! ## Looking at a byte -/

/-- {lit}`operator[]` throws exactly outside of the contents. -/
theorem index_eq_ok_iff {i : Int} {j : Fin b.__size.toNat} :
    b.index i = .ok j ↔
      0 ≤ i ∧ i < b.length ∧ j.val = (b.__start.toNat + i.toNat) % b.__size.toNat := by
  have hcap := b.int_readableCap
  unfold index
  by_cases hout : i < 0 ∨ i ≥ int b.readableCap
  · rw [if_pos hout]
    refine iff_of_false nofun ?_
    rintro ⟨hpos, hlt, _⟩
    omega
  · rw [if_neg hout]
    constructor
    · intro hj
      cases hj
      exact ⟨by omega, by omega, rfl⟩
    · rintro ⟨_, _, hj⟩
      exact congrArg Except.ok (Fin.ext hj.symm)

theorem index_eq_error {i : Int} (hout : i < 0 ∨ b.length ≤ i) :
    b.index i = .error "OutOfRangeException" := by
  have hcap := b.int_readableCap
  rw [index, if_pos (by omega)]
  rfl

/-- The cell that {lit}`operator[]` refers to holds the byte of the contents. -/
theorem cell_index {i : Int} {j : Fin b.__size.toNat} (h : b.index i = .ok j) :
    b.contents[i.toNat]? = some (b.cell j) := by
  have hlt := b.length_lt
  have hbuf := b.length_buf
  rcases index_eq_ok_iff.mp h with ⟨hpos, hi, hj⟩
  have hcell : b.__buf[j.val]? = some (b.cell j) := List.getElem?_eq_getElem _
  rw [contents, getElem?_window (by omega) (by omega), hbuf, ← hj, hcell]

/-! ## Copying out -/

/-- What the loop of {lit}`retriveStr` copies when {lit}`n` is not negative. -/
theorem retriveStrLoop_of_nonneg {cells : List α} {iovs : List Segment}
    (hin : ∀ iov ∈ iovs, iov.base + iov.len ≤ cells.length) {n : Int} (hpos : 0 ≤ n)
    (hlt : n < 2 ^ 63) :
    retriveStrLoop cells iovs n =
      ((gather cells iovs).take n.toNat, min n.toNat (gather cells iovs).length) := by
  induction iovs generalizing n with
  | nil => simp [retriveStrLoop, gather]
  | cons iov iovs ih =>
      have hiov := hin iov List.mem_cons_self
      have hseg : ((cells.drop iov.base).take iov.len).length = iov.len := by
        rw [List.length_take, List.length_drop]
        omega
      have hmod : n % 2 ^ 64 = n := Int.emod_eq_of_lt hpos (by omega)
      have hgather : gather cells (iov :: iovs) =
          (cells.drop iov.base).take iov.len ++ gather cells iovs := rfl
      have hcount : (if n % 2 ^ 64 < iov.len then (n % 2 ^ 64).toNat else iov.len) =
          min n.toNat iov.len := by
        rw [hmod]
        split <;> omega
      have hrest := ih (n := n - (min n.toNat iov.len : Nat))
        (fun iov hmem => hin iov (List.mem_cons_of_mem _ hmem)) (by omega) (by omega)
      have hleft : (n - (min n.toNat iov.len : Nat)).toNat = n.toNat - iov.len := by omega
      rw [hleft] at hrest
      rw [retriveStrLoop, hcount, hrest, hgather, List.take_append, hseg, List.length_append, hseg,
        List.take_take]
      refine Prod.ext rfl ?_
      dsimp only
      omega

/-- A negative {lit}`n` becomes a huge {lit}`size_t`, and the loop copies everything. -/
theorem retriveStrLoop_of_neg {cells : List α} {iovs : List Segment}
    (hin : ∀ iov ∈ iovs, iov.base + iov.len ≤ cells.length) {n : Int} (hneg : n < 0)
    (hroom : -2 ^ 63 ≤ n - total iovs) (hcells : cells.length < 2 ^ 16) :
    retriveStrLoop cells iovs n = (gather cells iovs, (gather cells iovs).length) := by
  induction iovs generalizing n with
  | nil => rfl
  | cons iov iovs ih =>
      have hiov := hin iov List.mem_cons_self
      have hseg : ((cells.drop iov.base).take iov.len).length = iov.len := by
        rw [List.length_take, List.length_drop]
        omega
      have htotal : total (iov :: iovs) = iov.len + total iovs := rfl
      have hmod : n % 2 ^ 64 = n + 2 ^ 64 := by
        rw [← Int.add_emod_right, Int.emod_eq_of_lt (by omega) (by omega)]
      have hgather : gather cells (iov :: iovs) =
          (cells.drop iov.base).take iov.len ++ gather cells iovs := rfl
      have hrest := ih (n := n - iov.len)
        (fun iov hmem => hin iov (List.mem_cons_of_mem _ hmem)) (by omega) (by omega)
      rw [retriveStrLoop, if_neg (by omega), hrest, hgather, List.length_append, hseg]

/-- The segments to read from lie in the array. -/
theorem mem_data_true {iov : Segment} (hmem : iov ∈ b.data true) :
    iov.base < b.__size.toNat ∧ iov.base + iov.len ≤ b.__size.toNat := by
  have hlt := b.length_lt
  rw [b.data_true, b.length_buf] at hmem
  exact mem_segments b.start_lt (Nat.le_of_lt hlt) hmem

/-- The segments to write to lie in the array. -/
theorem mem_data_false {iov : Segment} (hmem : iov ∈ b.data false) :
    iov.base < b.__size.toNat ∧ iov.base + iov.len ≤ b.__size.toNat := by
  rw [b.data_false, b.length_buf] at hmem
  exact mem_segments (Nat.mod_lt _ b.size_pos) (by omega) hmem

/-- {lit}`retriveStr` takes out and returns the first {lit}`n` bytes, or all of them when {lit}`n` is
negative. -/
theorem retriveStr_eq {n : Int} (hmin : -2 ^ 31 ≤ n) (hmax : n < 2 ^ 31) :
    let k := if n < 0 then b.length else min n.toNat b.length
    (b.retriveStr n).2 = b.contents.take k ∧
      (b.retriveStr n).1.contents = b.contents.drop k := by
  have hlt := b.length_lt
  have hbuf := b.length_buf
  have hsize := b.__size.toNat_lt
  have hlen := b.length_contents
  have hin : ∀ iov ∈ b.data true, iov.base + iov.len ≤ b.__buf.length := by
    intro iov hmem
    rw [hbuf]
    exact (mem_data_true hmem).2
  have htotal : total (b.data true) = b.length := by
    rw [b.data_true, total_segments (by have := b.start_lt; omega)]
  have hloop : retriveStrLoop b.__buf (b.data true) n =
      (b.contents.take (if n < 0 then b.length else min n.toNat b.length),
        if n < 0 then b.length else min n.toNat b.length) := by
    by_cases hneg : n < 0
    · rw [retriveStrLoop_of_neg hin hneg (by omega) (by omega), gather_data, if_pos hneg,
        List.take_of_length_le (by omega), hlen]
    · rw [retriveStrLoop_of_nonneg hin (by omega) (by omega), gather_data, if_neg hneg, hlen]
      refine Prod.ext ?_ rfl
      rw [← hlen, List.take_eq_take_min]
  have hsmall : (if n < 0 then b.length else min n.toNat b.length) < 2 ^ 16 := by
    split <;> omega
  dsimp only
  unfold retriveStr
  dsimp only
  rw [hloop, contents_clear, UInt16.toNat_ofNat', Nat.mod_eq_of_lt hsmall]
  exact ⟨rfl, rfl⟩

@[simp]
theorem size_retriveStr (b : Buffer α) (n : Int) : (b.retriveStr n).1.__size = b.__size :=
  rfl

/-- The loop of {lit}`retriveRaw` copies the first bytes. -/
theorem rawCells_eq {n : Nat} (hn : n ≤ b.length) : b.rawCells n = b.contents.take n := by
  have hlt := b.length_lt
  have hbuf := b.length_buf
  unfold rawCells
  induction n with
  | zero => rfl
  | succ n ih =>
      have hcell : b.__buf[(b.__start.toNat + n) % b.__size.toNat]? = b.contents[n]? := by
        rw [contents, getElem?_window (by omega) (by omega), hbuf]
      rw [List.range_succ, List.filterMap_append, ih (by omega), List.take_add_one, ← hcell]
      simp only [List.filterMap_cons, List.filterMap_nil]
      cases b.__buf[(b.__start.toNat + n) % b.__size.toNat]? <;> rfl

/-- {lit}`retriveRaw` takes out and returns the first {lit}`n` bytes if there are as many. -/
theorem retriveRaw_eq {n : Int} (hpos : 0 ≤ n) :
    (b.retriveRaw n).2.1 = (if n ≤ b.length then b.contents.take n.toNat else []) ∧
      (b.retriveRaw n).1.contents = (if n ≤ b.length then b.contents.drop n.toNat else b.contents) ∧
      int (b.retriveRaw n).2.2 = if n ≤ b.length then n else 0 := by
  have hlt := b.length_lt
  have hsize := b.__size.toNat_lt
  have hcap := b.int_readableCap
  unfold retriveRaw
  by_cases hle : n ≤ b.length
  · have hraw : int (UInt16.ofInt n) = n := int_ofInt hpos (by omega)
    have hnat : (UInt16.ofInt n).toNat = n.toNat := by
      unfold int at hraw
      omega
    rw [if_neg (by omega), if_pos hle, if_pos hle, if_pos hle]
    dsimp only
    rw [rawCells_eq (by omega), contents_clear, hnat]
    exact ⟨rfl, rfl, hraw⟩
  · rw [if_pos (by omega), if_neg hle, if_neg hle, if_neg hle]
    exact ⟨rfl, rfl, rfl⟩

@[simp]
theorem size_retriveRaw (b : Buffer α) (n : Int) : (b.retriveRaw n).1.__size = b.__size := by
  unfold retriveRaw
  split <;> rfl

end Buffer
end CoEpoll
