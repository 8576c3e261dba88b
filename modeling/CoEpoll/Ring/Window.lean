import Mathlib.Data.List.Rotate
import Mathlib.Data.Nat.ModEq

/-!
# Windows of a circular array

A window is a run of cells that may go around the end of the array.  In memory it is one
or two segments: reading the segments in order gives the window, and writing through them
in order fills it from its start on.

Main results:

- Theorem {lit}`gather_segments`: the segments of a window have its contents.
- Theorem {lit}`window_scatter`: writing behind a window extends it and keeps it.
- Theorem {lit}`drop_window`: leaving out the first cells of a window moves its start.
-/

namespace Ring

variable {α : Type*} {cells xs : List α} {start n : Nat}

/-- The {lit}`n` cells from {lit}`start` on. -/
def window (cells : List α) (start n : Nat) : List α :=
  (cells.rotate start).take n

/-- A run of cells that does not go around the end. -/
structure Segment where
  base : Nat
  len : Nat
deriving DecidableEq

/-- The segments of the {lit}`n` cells from {lit}`start` on in an array of {lit}`size` cells. -/
def segments (size start n : Nat) : List Segment :=
  if n = 0 then []
  else if start + n ≤ size then [⟨start, n⟩]
  else [⟨start, size - start⟩, ⟨0, start + n - size⟩]

/-- Read the segments in order. -/
def gather (cells : List α) (segs : List Segment) : List α :=
  segs.flatMap fun seg => (cells.drop seg.base).take seg.len

/-- Write {lit}`xs` from {lit}`base` on. -/
def overwrite (cells : List α) (base : Nat) (xs : List α) : List α :=
  cells.take base ++ xs ++ cells.drop (base + xs.length)

/-- Write {lit}`xs` through the segments in order. -/
def scatter : List α → List Segment → List α → List α
  | cells, [], _ => cells
  | cells, seg :: segs, xs =>
      scatter (overwrite cells seg.base (xs.take seg.len)) segs (xs.drop seg.len)

/-- How many cells the segments have. -/
def total (segs : List Segment) : Nat :=
  (segs.map Segment.len).sum

/-! ## Reading -/

theorem length_window (hn : n ≤ cells.length) : (window cells start n).length = n := by
  rw [window, List.length_take, List.length_rotate]
  omega

theorem window_mod : window cells (start % cells.length) n = window cells start n := by
  rw [window, window, List.rotate_mod]

theorem getElem?_window {i : Nat} (hi : i < n) (hn : n ≤ cells.length) :
    (window cells start n)[i]? = cells[(start + i) % cells.length]? := by
  rw [window, List.getElem?_take_of_lt hi, List.getElem?_rotate (by omega), Nat.add_comm]

/-- The first cells of a window. -/
theorem take_window (m : Nat) : (window cells start n).take m = window cells start (min m n) := by
  rw [window, window, List.take_take]

/-- Leaving out the first cells of a window moves its start. -/
theorem drop_window {m : Nat} (hm : m ≤ n) (hn : n ≤ cells.length) :
    (window cells start n).drop m = window cells (start + m) (n - m) := by
  have hlen : (cells.rotate start).length = cells.length := List.length_rotate _ _
  have hrotate : cells.rotate (start + m) =
      (cells.rotate start).drop m ++ (cells.rotate start).take m := by
    rw [← List.rotate_rotate, List.rotate_eq_drop_append_take (l := cells.rotate start) (by omega)]
  rw [window, window, hrotate, List.drop_take, List.take_append_of_le_length]
  rw [List.length_drop]
  omega

/-- The segments of a window have its contents. -/
theorem gather_segments (hstart : start ≤ cells.length) (hn : n ≤ cells.length) :
    gather cells (segments cells.length start n) = window cells start n := by
  rw [window, List.rotate_eq_drop_append_take hstart]
  unfold segments
  split
  · rename_i hzero
    rw [hzero]
    rfl
  · split
    · rename_i hfits
      rw [List.take_append_of_le_length (by rw [List.length_drop]; omega)]
      simp [gather]
    · have hrest : n - (cells.length - start) = start + n - cells.length := by omega
      rw [List.take_append, List.length_drop, hrest, List.take_take,
        List.take_of_length_le (by rw [List.length_drop]; omega), Nat.min_eq_left (by omega)]
      simp [gather, List.take_of_length_le]

theorem total_segments {size : Nat} (hstart : start ≤ size) :
    total (segments size start n) = n := by
  unfold segments
  split
  · rename_i hzero
    exact hzero.symm
  · split
    · simp [total]
    · simp only [total, List.map_cons, List.map_nil, List.sum_cons, List.sum_nil]
      omega

/-- The segments of a window lie inside the array. -/
theorem mem_segments {size : Nat} {seg : Segment} (hstart : start < size) (hn : n ≤ size)
    (hseg : seg ∈ segments size start n) : seg.base < size ∧ seg.base + seg.len ≤ size := by
  unfold segments at hseg
  split at hseg
  · cases hseg
  · split at hseg
    · cases List.mem_singleton.mp hseg
      exact ⟨hstart, by assumption⟩
    · rcases List.mem_cons.mp hseg with rfl | hseg
      · exact ⟨hstart, by dsimp only; omega⟩
      · cases List.mem_singleton.mp hseg
        exact ⟨by dsimp only; omega, by dsimp only; omega⟩

/-- The positions of a segment's cells. -/
def Segment.positions (seg : Segment) : List Nat :=
  List.range' seg.base seg.len

/-- The segments of a window have its cells, in order. -/
theorem positions_segments {size : Nat} (hstart : start < size) (hn : n ≤ size) :
    (segments size start n).flatMap Segment.positions =
      (List.range n).map fun i => (start + i) % size := by
  have hfirst : ∀ m, start + m ≤ size →
      (List.range m).map (fun i => (start + i) % size) = List.range' start m := by
    intro m hm
    rw [List.range'_eq_map_range]
    refine List.map_congr_left fun i hi => ?_
    have hi := List.mem_range.mp hi
    exact Nat.mod_eq_of_lt (by omega)
  unfold segments
  split
  · rename_i hzero
    rw [hzero]
    rfl
  · split
    · rename_i hfits
      rw [hfirst n hfits]
      simp [Segment.positions]
    · have hsplit : n = (size - start) + (start + n - size) := by omega
      have hrest : (List.range (start + n - size)).map
          ((fun i => (start + i) % size) ∘ fun i => size - start + i) =
            List.range' 0 (start + n - size) := by
        rw [List.range'_eq_map_range]
        refine List.map_congr_left fun i hi => ?_
        have hi := List.mem_range.mp hi
        have haround : start + (size - start + i) = i + size := by omega
        dsimp only [Function.comp]
        rw [haround, Nat.add_mod_right, Nat.mod_eq_of_lt (by omega), Nat.zero_add]
      conv => rhs; rw [hsplit, List.range_add, List.map_append, List.map_map, hrest,
        hfirst _ (by omega)]
      simp [Segment.positions]

/-- The cells of a window differ. -/
theorem nodup_positions {size : Nat} (hn : n ≤ size) :
    ((List.range n).map fun i => (start + i) % size).Nodup := by
  refine List.Nodup.map_on ?_ List.nodup_range
  intro i hi j hj hij
  have hi := List.mem_range.mp hi
  have hj := List.mem_range.mp hj
  have hmod : i % size = j % size := Nat.ModEq.add_left_cancel' start hij
  rwa [Nat.mod_eq_of_lt (by omega), Nat.mod_eq_of_lt (by omega)] at hmod

/-! ## Writing -/

@[simp]
theorem overwrite_nil (base : Nat) : overwrite cells base [] = cells := by
  simp [overwrite]

theorem length_overwrite {base : Nat} (h : base + xs.length ≤ cells.length) :
    (overwrite cells base xs).length = cells.length := by
  simp only [overwrite, List.length_append, List.length_take, List.length_drop]
  omega

/-- Seen from its start, what is overwritten comes first. -/
theorem rotate_overwrite {base : Nat} (h : base + xs.length ≤ cells.length) :
    (overwrite cells base xs).rotate base = xs ++ (cells.rotate base).drop xs.length := by
  have hbase : (cells.take base).length = base := by
    rw [List.length_take]
    omega
  rw [List.rotate_eq_drop_append_take (by rw [length_overwrite h]; omega),
    List.rotate_eq_drop_append_take (by omega), overwrite, List.append_assoc,
    List.drop_append_of_le_length (by omega), List.drop_of_length_le (by omega),
    List.take_append_of_le_length (by omega), List.take_of_length_le (by omega), List.nil_append,
    List.append_assoc, List.drop_append_of_le_length (by rw [List.length_drop]; omega),
    List.drop_drop]

/-- Two writes, of which the second goes on at the first cell. -/
theorem rotate_overwrite_around {ys : List α} {base : Nat}
    (hxs : base + xs.length = cells.length) (hys : ys.length ≤ base) :
    (overwrite (overwrite cells base xs) 0 ys).rotate base =
      xs ++ ys ++ (cells.rotate base).drop (xs ++ ys).length := by
  have hbase : (cells.take base).length = base := by
    rw [List.length_take]
    omega
  have hfirst : overwrite cells base xs = cells.take base ++ xs := by
    rw [overwrite, List.drop_of_length_le (by omega), List.append_nil]
  have hboth : overwrite (overwrite cells base xs) 0 ys =
      ys ++ (cells.take base).drop ys.length ++ xs := by
    rw [hfirst, overwrite, List.take_zero, List.nil_append, Nat.zero_add,
      List.drop_append_of_le_length (by omega), List.append_assoc]
  have hlen : (ys ++ (cells.take base).drop ys.length).length = base := by
    rw [List.length_append, List.length_drop]
    omega
  have hrest : (cells.rotate base).drop (xs ++ ys).length = (cells.take base).drop ys.length := by
    rw [List.rotate_eq_drop_append_take (by omega), List.length_append, List.drop_append,
      List.drop_of_length_le (by rw [List.length_drop]; omega), List.nil_append, List.length_drop]
    congr 1
    omega
  have hturn := List.rotate_append_length_eq (ys ++ (cells.take base).drop ys.length) xs
  rw [hlen] at hturn
  rw [hboth, hrest, hturn, List.append_assoc]

/-- Writing through the segments of a window fills it from its start on. -/
theorem rotate_scatter (hstart : start < cells.length) (hn : n ≤ cells.length)
    (hxs : xs.length ≤ n) :
    (scatter cells (segments cells.length start n) xs).rotate start =
      xs ++ (cells.rotate start).drop xs.length := by
  unfold segments
  split
  · rename_i hzero
    have hnil : xs = [] := List.eq_nil_of_length_eq_zero (by omega)
    rw [hnil]
    rfl
  · split
    · rename_i hfits
      rw [scatter, scatter]
      dsimp only
      rw [List.take_of_length_le hxs, rotate_overwrite (by omega)]
    · rename_i hturn
      rw [scatter, scatter, scatter]
      dsimp only
      rw [List.take_of_length_le (l := xs.drop _) (by rw [List.length_drop]; omega)]
      by_cases hshort : xs.length ≤ cells.length - start
      · rw [List.drop_of_length_le hshort, overwrite_nil, List.take_of_length_le hshort,
          rotate_overwrite (by omega)]
      · have htake : (xs.take (cells.length - start)).length = cells.length - start := by
          rw [List.length_take]
          omega
        rw [rotate_overwrite_around (by omega) (by rw [List.length_drop]; omega),
          List.take_append_drop]

theorem length_scatter (hstart : start < cells.length) (hn : n ≤ cells.length)
    (hxs : xs.length ≤ n) :
    (scatter cells (segments cells.length start n) xs).length = cells.length := by
  rw [← List.length_rotate _ start, rotate_scatter hstart hn hxs, List.length_append,
    List.length_drop, List.length_rotate]
  omega

/-- A write of one cell goes to the first one. -/
theorem scatter_singleton (hstart : start < cells.length) (hn : 0 < n) (x : α) :
    scatter cells (segments cells.length start n) [x] = cells.set start x := by
  have hset : cells.set start x = overwrite cells start [x] := by
    rw [List.set_eq_take_append_cons_drop, if_pos hstart]
    simp [overwrite]
  unfold segments
  rw [if_neg (by omega), hset]
  split
  · rw [scatter, scatter]
    dsimp only
    rw [List.take_of_length_le hn]
  · have hlen : [x].length ≤ cells.length - start := by
      rw [List.length_singleton]
      omega
    rw [scatter, scatter, scatter]
    dsimp only
    rw [List.take_of_length_le hlen, List.drop_of_length_le hlen, List.take_nil, overwrite_nil]

/-- A window of what has been turned back by its length. -/
theorem window_eq_drop (hn : n ≤ cells.length) :
    window cells start n =
      (cells.rotate ((start + n) % cells.length)).drop (cells.length - n) := by
  have hback : cells.rotate start =
      (cells.rotate ((start + n) % cells.length)).rotate (cells.length - n) := by
    have haround : start + n + (cells.length - n) = start + cells.length * 1 := by omega
    rw [List.rotate_mod, List.rotate_rotate, haround, ← List.rotate_mod _ (start + _),
      Nat.add_mul_mod_self_left, List.rotate_mod]
  have hlen : (cells.rotate ((start + n) % cells.length)).length = cells.length :=
    List.length_rotate _ _
  rw [window, hback, List.rotate_eq_drop_append_take (by omega), List.take_append_of_le_length,
    List.take_of_length_le]
  · rw [List.length_drop]
    omega
  · rw [List.length_drop]
    omega

/-- Writing behind a window extends it and keeps it. -/
theorem window_scatter {m : Nat} (hcells : 0 < cells.length) (hroom : n + m ≤ cells.length)
    (hxs : xs.length ≤ m) :
    window (scatter cells (segments cells.length ((start + n) % cells.length) m) xs) start
        (n + xs.length) = window cells start n ++ xs := by
  have hat : (start + n) % cells.length < cells.length := Nat.mod_lt _ hcells
  have hm : m ≤ cells.length := by omega
  have hlen := length_scatter hat hm hxs
  have hrotate := rotate_scatter hat hm hxs
  generalize scatter cells (segments cells.length ((start + n) % cells.length) m) xs = cells' at *
  have hkept : window cells' start n = window cells start n := by
    rw [window_eq_drop (by omega), window_eq_drop (by omega), hlen, hrotate, List.drop_append,
      List.drop_of_length_le (l := xs) (by omega), List.nil_append, List.drop_drop]
    congr 1
    omega
  have hnew : window cells' (start + n) xs.length = xs := by
    rw [← window_mod, hlen, window, hrotate, List.take_append_of_le_length (Nat.le_refl _),
      List.take_of_length_le (Nat.le_refl _)]
  calc window cells' start (n + xs.length)
      = (window cells' start (n + xs.length)).take n ++
          (window cells' start (n + xs.length)).drop n := (List.take_append_drop _ _).symm
    _ = window cells start n ++ xs := by
        rw [take_window, Nat.min_eq_left (by omega), hkept, drop_window (by omega) (by omega),
          Nat.add_sub_cancel_left, hnew]

end Ring
