import CoEpoll.Conn.Buffer.Contents
import CoEpoll.Transition.Machine

/-!
# `Buffer` is a bounded queue of bytes

What a connection needs of its buffer is a queue that holds at most {lit}`__size - 1` bytes.  The
queue is given by its bytes alone, and a {lit}`Buffer` stands for the queue of its contents.

Main results:

- Theorem {lit}`toFifo_exec`: an operation on a {lit}`Buffer` is the operation on its queue.
- Theorem {lit}`agrees`: the capacities, the segments and {lit}`operator[]` fit the queue.
- Theorem {lit}`refines_fifo`: every sequence of operations on a new {lit}`Buffer` has the results that it
  has on an empty queue.
-/

namespace CoEpoll

open Transition Ring

/-- A queue of at most {lit}`cap` bytes. -/
@[ext]
structure Fifo (α : Type*) where
  items : List α
  cap : Nat
  bounded : items.length ≤ cap

namespace Buffer

variable {α : Type*}

/-- The operations; {lit}`receive` writes through the segments of {lit}`data(false)` and calls {lit}`insert`. -/
inductive Op (α : Type*) where
  | insertCh (ch : α)
  | receive (xs : List α)
  | clear (n : UInt16)
  | clearAll
  | retriveStr (n : Int)
  | retriveRaw (n : Int)
  | index (i : Int)

/-- What an operation returns: a count, bytes and a count, or a byte or an exception. -/
inductive Ret (α : Type*) where
  | count (n : Int)
  | bytes (xs : List α) (n : Int)
  | byte (r : Except String α)

/-- {lit}`n` is an {lit}`int` that is not negative. -/
def Natural (n : Int) : Prop :=
  0 ≤ n ∧ n < 2 ^ 31

instance (n : Int) : Decidable (Natural n) :=
  inferInstanceAs (Decidable (_ ∧ _))

/-- An operation on the buffer. -/
def exec (b : Buffer α) : Op α → Option (Buffer α × Ret α)
  | .insertCh ch => some ((b.insertCh ch).1, .count (b.insertCh ch).2)
  | .receive xs =>
      if hxs : xs.length ≤ b.writeableCap.toNat then
        let r := (b.fill xs hxs).insert (.ofNat xs.length)
        some (r.1, .count r.2)
      else none
  | .clear n => some ((b.clear n).1, .count (b.clear n).2)
  | .clearAll => some (b.clearAll.1, .count b.clearAll.2)
  | .retriveStr n =>
      if Natural n then
        some ((b.retriveStr n).1, .bytes (b.retriveStr n).2 (b.retriveStr n).2.length)
      else none
  | .retriveRaw n =>
      if Natural n then
        some ((b.retriveRaw n).1, .bytes (b.retriveRaw n).2.1 (int (b.retriveRaw n).2.2))
      else none
  | .index i => some (b, .byte ((b.index i).map b.cell))

end Buffer

namespace Fifo

variable {α : Type*}

open Buffer

/-- The queue without bytes. -/
def empty (cap : Nat) : Fifo α where
  items := []
  cap := cap
  bounded := Nat.zero_le cap

/-- Take out the first {lit}`n` bytes. -/
def drop (q : Fifo α) (n : Nat) : Fifo α :=
  { q with
    items := q.items.drop n
    bounded := Nat.le_trans (List.drop_sublist n q.items).length_le q.bounded }

/-- Put bytes behind the others. -/
def append (q : Fifo α) (xs : List α) (h : q.items.length + xs.length ≤ q.cap) : Fifo α :=
  { q with
    items := q.items ++ xs
    bounded := List.length_append.trans_le h }

/-- The byte at position {lit}`i`. -/
def index (q : Fifo α) (i : Int) : Except String α :=
  match (if i < 0 then none else q.items[i.toNat]?) with
  | some ch => .ok ch
  | none => .error "OutOfRangeException"

/-- An operation on the queue. -/
def exec (q : Fifo α) : Op α → Option (Fifo α × Ret α)
  | .insertCh ch =>
      if h : q.items.length + [ch].length ≤ q.cap then some (q.append [ch] h, .count 1)
      else some (q, .count 0)
  | .receive xs =>
      if h : q.items.length + xs.length ≤ q.cap then some (q.append xs h, .count xs.length)
      else none
  | .clear n => some (q.drop n.toNat, .count ↑(min n.toNat q.items.length))
  | .clearAll => some (q.drop q.items.length, .count q.items.length)
  | .retriveStr n =>
      if Natural n then
        some (q.drop n.toNat, .bytes (q.items.take n.toNat) ↑(min n.toNat q.items.length))
      else none
  | .retriveRaw n =>
      if Natural n then
        if n ≤ q.items.length then some (q.drop n.toNat, .bytes (q.items.take n.toNat) n)
        else some (q, .bytes [] 0)
      else none
  | .index i => some (q, .byte (q.index i))

end Fifo

namespace Buffer

variable {α : Type*} {b : Buffer α}

/-! ## Each operation is the operation on the queue -/

/-- The queue that the buffer stands for. -/
def toFifo (b : Buffer α) : Fifo α where
  items := b.contents
  cap := b.__size.toNat - 1
  bounded := by
    have hlt := b.length_lt
    rw [b.length_contents]
    omega

theorem items_length (b : Buffer α) : b.toFifo.items.length = b.length :=
  b.length_contents

theorem insertCh_refines (b : Buffer α) (ch : α) :
    (b.exec (.insertCh ch)).map (Prod.map toFifo id) = b.toFifo.exec (.insertCh ch) := by
  have hlen := b.items_length
  have hcap : b.toFifo.cap = b.__size.toNat - 1 := rfl
  simp only [exec, Fifo.exec, Option.map_some, Prod.map, id]
  by_cases hroom : b.length < b.__size.toNat - 1
  · rw [dif_pos (by rw [List.length_singleton]; omega), insertCh_snd, if_pos hroom]
    have hfifo : (b.insertCh ch).1.toFifo = b.toFifo.append [ch] (by
        rw [List.length_singleton]
        omega) := by
      apply Fifo.ext
      · exact (contents_insertCh b ch).trans (if_pos hroom)
      · simp [toFifo, Fifo.append]
    rw [hfifo]
  · rw [dif_neg (by rw [List.length_singleton]; omega), insertCh_snd, if_neg hroom]
    have hfifo : (b.insertCh ch).1.toFifo = b.toFifo := by
      apply Fifo.ext
      · exact (contents_insertCh b ch).trans (if_neg hroom)
      · simp [toFifo]
    rw [hfifo]

theorem receive_refines (b : Buffer α) (xs : List α) :
    (b.exec (.receive xs)).map (Prod.map toFifo id) = b.toFifo.exec (.receive xs) := by
  have hlen := b.items_length
  have hlt := b.length_lt
  have hsize := b.__size.toNat_lt
  have hcap : b.toFifo.cap = b.__size.toNat - 1 := rfl
  have hwriteable := b.toNat_writeableCap
  simp only [exec, Fifo.exec]
  by_cases hxs : xs.length ≤ b.writeableCap.toNat
  · have hnat : (UInt16.ofNat xs.length).toNat = xs.length := by
      rw [UInt16.toNat_ofNat', Nat.mod_eq_of_lt (by omega)]
    have hinsert : (b.fill xs hxs).insert (.ofNat xs.length) =
        ((b.fill xs hxs).advanceEnd xs.length, (xs.length : Int)) := by
      rw [insert_eq (by rw [hnat]; exact hxs), int, hnat]
    have hfifo : ((b.fill xs hxs).advanceEnd xs.length).toFifo = b.toFifo.append xs (by omega) := by
      apply Fifo.ext
      · exact contents_fill_advanceEnd hxs
      · rfl
    rw [dif_pos hxs, dif_pos (by omega), hinsert, ← hfifo]
    rfl
  · rw [dif_neg hxs, dif_neg (by omega)]
    rfl

theorem retriveStr_refines (b : Buffer α) (n : Int) :
    (b.exec (.retriveStr n)).map (Prod.map toFifo id) = b.toFifo.exec (.retriveStr n) := by
  have hlen := b.items_length
  simp only [exec, Fifo.exec]
  by_cases hn : Natural n
  · have heq := retriveStr_eq (b := b) (n := n) (by have := hn.1; omega) hn.2
    dsimp only at heq
    rw [if_neg (Int.not_lt.mpr hn.1)] at heq
    have htake : b.contents.take (min n.toNat b.length) = b.contents.take n.toNat := by
      rw [← b.length_contents, ← List.take_eq_take_min]
    have hdrop : b.contents.drop (min n.toNat b.length) = b.contents.drop n.toNat := by
      by_cases hle : n.toNat ≤ b.length
      · rw [Nat.min_eq_left hle]
      · rw [List.drop_of_length_le (by rw [b.length_contents]; omega),
          List.drop_of_length_le (by rw [b.length_contents]; omega)]
    have hfifo : (b.retriveStr n).1.toFifo = b.toFifo.drop n.toNat := by
      apply Fifo.ext
      · exact heq.2.trans hdrop
      · rfl
    rw [if_pos hn, if_pos hn, Option.map_some, Prod.map, heq.1, htake, hfifo, List.length_take]
    rfl
  · rw [if_neg hn, if_neg hn]
    rfl

theorem retriveRaw_refines (b : Buffer α) (n : Int) :
    (b.exec (.retriveRaw n)).map (Prod.map toFifo id) = b.toFifo.exec (.retriveRaw n) := by
  have hlen := b.items_length
  simp only [exec, Fifo.exec]
  by_cases hn : Natural n
  · rcases retriveRaw_eq (b := b) hn.1 with ⟨hbytes, hcontents, hret⟩
    rw [if_pos hn, if_pos hn, Option.map_some, Prod.map, hlen]
    by_cases hle : n ≤ b.length
    · rw [if_pos hle] at hbytes hcontents hret
      have hfifo : (b.retriveRaw n).1.toFifo = b.toFifo.drop n.toNat := by
        apply Fifo.ext
        · exact hcontents
        · simp [toFifo, Fifo.drop]
      rw [if_pos hle, hbytes, hret, hfifo]
      rfl
    · rw [if_neg hle] at hbytes hcontents hret
      have hfifo : (b.retriveRaw n).1.toFifo = b.toFifo := by
        apply Fifo.ext
        · exact hcontents
        · simp [toFifo]
      rw [if_neg hle, hbytes, hret, hfifo]
      rfl
  · rw [if_neg hn, if_neg hn]
    rfl

theorem index_refines (b : Buffer α) (i : Int) : (b.index i).map b.cell = b.toFifo.index i := by
  have hlen := b.items_length
  unfold Fifo.index
  by_cases hout : i < 0 ∨ b.length ≤ i
  · have hnone : (if i < 0 then none else b.toFifo.items[i.toNat]?) = none := by
      split
      · rfl
      · exact List.getElem?_eq_none (by omega)
    rw [index_eq_error hout, hnone]
    rfl
  · have hok : ∃ j, b.index i = .ok j :=
      ⟨⟨(b.__start.toNat + i.toNat) % b.__size.toNat, Nat.mod_lt _ b.size_pos⟩,
        index_eq_ok_iff.mpr ⟨by omega, by omega, rfl⟩⟩
    rcases hok with ⟨j, hj⟩
    rw [hj, if_neg (by omega), toFifo, cell_index hj]
    rfl

/-- An operation on a {lit}`Buffer` is the operation on its queue. -/
theorem toFifo_exec (b : Buffer α) (op : Op α) :
    (b.exec op).map (Prod.map toFifo id) = b.toFifo.exec op := by
  cases op with
  | insertCh ch => exact insertCh_refines b ch
  | receive xs => exact receive_refines b xs
  | clear n =>
      have hfifo : (b.clear n).1.toFifo = b.toFifo.drop n.toNat := by
        apply Fifo.ext
        · exact contents_clear b n
        · rfl
      simp only [exec, Fifo.exec, Option.map_some, Prod.map, id, hfifo, clear_snd, items_length]
  | clearAll =>
      have hfifo : b.rewind.toFifo = b.toFifo.drop b.toFifo.items.length := by
        apply Fifo.ext
        · exact (contents_rewind b).trans (List.drop_length).symm
        · rfl
      simp only [exec, clearAll, Fifo.exec, Option.map_some, Prod.map, id, hfifo, int_readableCap,
        items_length]
  | retriveStr n => exact retriveStr_refines b n
  | retriveRaw n => exact retriveRaw_refines b n
  | index i => simp only [exec, Fifo.exec, Option.map_some, Prod.map, id, index_refines]

/-! ## The positions, capacities and segments -/

/-- How the positions, the capacities, the segments and {lit}`operator[]` fit the queue. -/
structure Agrees (b : Buffer α) : Prop where
  start_lt : b.__start.toNat < b.__size.toNat
  end_lt : b.__end.toNat < b.__size.toNat
  readableCap : b.readableCap.toNat = b.contents.length
  writeableCap : b.writeableCap.toNat = b.__size.toNat - 1 - b.contents.length
  readable : b.readable = true ↔ b.contents ≠ []
  writeable : b.writeable = true ↔ b.contents.length < b.__size.toNat - 1
  gather : gather b.__buf (b.data true) = b.contents
  total : total (b.data false) = b.writeableCap.toNat
  inside : ∀ read, ∀ iov ∈ b.data read, iov.base < b.__size.toNat ∧
    iov.base + iov.len ≤ b.__size.toNat
  disjoint : ((b.data true ++ b.data false).flatMap Segment.positions).Nodup
  index : ∀ i j, b.index i = .ok j → b.contents[i.toNat]? = some (b.cell j)
  throws : ∀ i, (∃ msg, b.index i = .error msg) ↔ i < 0 ∨ b.contents.length ≤ i

/-- The segments to read from and those to write to have no cell twice. -/
theorem nodup_data (b : Buffer α) :
    ((b.data true ++ b.data false).flatMap Segment.positions).Nodup := by
  have hlt := b.length_lt
  have hbuf := b.length_buf
  have hall : (b.data true ++ b.data false).flatMap Segment.positions =
      (List.range (b.length + (b.__size.toNat - 1 - b.length))).map
        fun i => (b.__start.toNat + i) % b.__size.toNat := by
    rw [List.flatMap_append, b.data_true, b.data_false, hbuf,
      positions_segments b.start_lt (by omega),
      positions_segments (Nat.mod_lt _ b.size_pos) (by omega), List.range_add, List.map_append,
      List.map_map]
    refine congrArg _ (List.map_congr_left fun i _ => ?_)
    dsimp only [Function.comp]
    rw [Nat.mod_add_mod, Nat.add_assoc]
  rw [hall]
  exact nodup_positions (by omega)

theorem agrees (b : Buffer α) : b.Agrees where
  start_lt := b.start_lt
  end_lt := b.end_lt
  readableCap := by rw [b.toNat_readableCap, b.length_contents]
  writeableCap := by rw [b.toNat_writeableCap, b.length_contents]
  readable := by rw [b.readable_iff, ← b.length_contents, List.length_eq_zero_iff.ne]
  writeable := by rw [b.writeable_iff, b.length_contents]
  gather := b.gather_data
  total := by
    have hbuf := b.length_buf
    have hend := Nat.mod_lt (b.__start.toNat + b.length) b.size_pos
    rw [b.data_false, hbuf, total_segments (by omega), b.toNat_writeableCap]
  inside read iov hmem := by
    cases read with
    | true => exact mem_data_true hmem
    | false => exact mem_data_false hmem
  disjoint := b.nodup_data
  index _ _ h := cell_index h
  throws i := by
    rw [b.length_contents]
    constructor
    · rintro ⟨msg, hmsg⟩
      by_contra hin
      have hok := index_eq_ok_iff (b := b) (i := i)
        (j := ⟨(b.__start.toNat + i.toNat) % b.__size.toNat, Nat.mod_lt _ b.size_pos⟩)
      rw [hmsg] at hok
      exact nomatch hok.mpr ⟨by omega, by omega, rfl⟩
    · exact fun hout => ⟨_, index_eq_error hout⟩

/-! ## Sequences of operations -/

/-- A new buffer, and the results of the operations on it. -/
def machine [Inhabited α] (size : UInt16) (hsize : 0 < size) :
    Machine (Buffer α × List (Ret α)) (Op α) where
  init s := s = (construct size hsize, [])
  step s op := (s.1.exec op).map fun r => (r.1, s.2 ++ [r.2])

/-- An empty queue, and the results of the operations on it. -/
def fifoMachine (cap : Nat) : Machine (Fifo α × List (Ret α)) (Op α) where
  init s := s = (Fifo.empty cap, [])
  step s op := (s.1.exec op).map fun r => (r.1, s.2 ++ [r.2])

theorem toFifo_construct [Inhabited α] (size : UInt16) (hsize : 0 < size) :
    (construct size hsize : Buffer α).toFifo = Fifo.empty (size.toNat - 1) := by
  apply Fifo.ext
  · exact List.eq_nil_of_length_eq_zero (length_contents _)
  · rfl

/-- No operation changes the size of the array. -/
theorem size_exec {b' : Buffer α} {op : Op α} {r : Ret α} (h : b.exec op = some (b', r)) :
    b'.__size = b.__size := by
  cases op with
  | insertCh ch =>
      cases h
      exact b.size_insertCh ch
  | receive xs =>
      simp only [exec] at h
      split at h
      · cases h
        rfl
      · cases h
  | clear n =>
      cases h
      rfl
  | clearAll =>
      cases h
      rfl
  | retriveStr n =>
      rcases Option.ite_none_right_eq_some.mp h with ⟨_, h⟩
      cases h
      rfl
  | retriveRaw n =>
      rcases Option.ite_none_right_eq_some.mp h with ⟨_, h⟩
      cases h
      exact b.size_retriveRaw n
  | index i =>
      cases h
      rfl

theorem inductive_size [Inhabited α] (size : UInt16) (hsize : 0 < size) :
    (machine size hsize : Machine (Buffer α × List (Ret α)) (Op α)).Inductive
      fun s => s.1.__size = size where
  init := by
    rintro _ rfl
    rfl
  step := by
    intro s op s' hs hstep
    rcases Option.map_eq_some_iff.mp hstep with ⟨⟨b, r⟩, hexec, rfl⟩
    exact (size_exec hexec).trans hs

/-- Every sequence of operations on a new {lit}`Buffer` has the results that it has on an empty
queue, leaves the bytes that the queue then has, and keeps the positions, capacities and segments
in step with them. -/
theorem refines_fifo [Inhabited α] (size : UInt16) (hsize : 0 < size) (ops : List (Op α)) :
    ((machine size hsize).run (construct size hsize, []) ops).map (Prod.map toFifo id) =
        (fifoMachine (size.toNat - 1)).run (Fifo.empty (size.toNat - 1), []) ops ∧
      ∀ b rets, (machine size hsize).run (construct size hsize, []) ops = some (b, rets) →
        b.Agrees ∧ b.__size = size := by
  have hstep : ∀ (s : Buffer α × List (Ret α)) op,
      ((machine size hsize).step s op).map (Prod.map toFifo id) =
        (fifoMachine (size.toNat - 1)).step (Prod.map toFifo id s) op := by
    rintro ⟨b, rets⟩ op
    simp only [machine, fifoMachine, Prod.map, ← toFifo_exec, Option.map_map]
    rfl
  have hrun := Machine.map_run hstep (construct size hsize, []) ops
  rw [Prod.map, toFifo_construct] at hrun
  exact ⟨hrun, fun b rets hb => ⟨b.agrees, (inductive_size size hsize).run rfl hb⟩⟩

/-- A buffer that goes around the end of its array. -/
theorem refines_fifo_around :
    ∃ b rets, (machine 4 (by decide)).run ((construct 4 (by decide) : Buffer UInt8), [])
        [.receive [1, 2, 3], .clear 2, .insertCh 4, .insertCh 5, .retriveRaw 2, .index 0] =
          some (b, rets) ∧ b.contents = [5] ∧ b.Agrees := by
  have hrun : ((machine 4 (by decide)).run ((construct 4 (by decide) : Buffer UInt8), [])
      [.receive [1, 2, 3], .clear 2, .insertCh 4, .insertCh 5, .retriveRaw 2, .index 0]).map
        (fun s => s.1.contents) = some [5] := by
    decide +kernel
  rcases Option.map_eq_some_iff.mp hrun with ⟨⟨b, rets⟩, hb, hcontents⟩
  exact ⟨b, rets, hb, hcontents, ((refines_fifo 4 (by decide) _).2 b rets hb).1⟩

end Buffer
end CoEpoll
