import CoEpoll.ASocket
import CoEpoll.Conn.Buffer.Contents

/-!
# `Connection`: receiving into a buffer and sending from it

Both functions hand the segments of the buffer to {lit}`colib::readv` or {lit}`colib::writev` and tell the
buffer afterwards how many bytes have gone through.

Main results:

- Theorem {lit}`recv_fill`: what has been received stands behind the other bytes.
- Theorem {lit}`send_all`: a buffer that has been sent as a whole is empty.
-/

namespace CoEpoll

open Ring

namespace Buffer

variable {α : Type*}

/-- What the segments of {lit}`data(read)` hold. -/
def iovec (b : Buffer α) (read : Bool) : List (List α) :=
  (b.data read).map fun iov => (b.__buf.drop iov.base).take iov.len

theorem flatten_iovec (b : Buffer α) : (b.iovec true).flatten = b.contents := by
  rw [← b.gather_data, gather, List.flatMap_def, iovec]

theorem iovec_ne_nil {b : Buffer α} (h : b.contents ≠ []) : b.iovec true ≠ [] := by
  intro hnil
  rw [← b.flatten_iovec, hnil] at h
  exact h rfl

/-- An empty buffer has no segments. -/
theorem iovec_eq_nil {b : Buffer α} (h : b.contents = []) : b.iovec true = [] := by
  have hlen : b.length = 0 := by rw [← b.length_contents, h, List.length_nil]
  rw [iovec, b.data_true, hlen, segments, if_pos rfl, List.map_nil]

/-- The segments hold less than {lit}`colib::writev` can count. -/
theorem length_iovec_le (b : Buffer α) : (b.iovec true).flatten.length ≤ Colib.INT_MAX := by
  have hlt := b.length_lt
  have hsize := b.__size.toNat_lt
  rw [b.flatten_iovec, b.length_contents, Colib.INT_MAX]
  omega

end Buffer

namespace Connection

variable {α : Type*}

/-- {lit}`Connection::recv` after {lit}`colib::readv` has returned {lit}`n`. -/
def recv (buf : Buffer α) (n : Int32) : Buffer α × Int :=
  if n < 0 then (buf, n.toInt) else buf.insert (.ofInt n.toInt)

/-- {lit}`Connection::send` after {lit}`colib::writev` has returned {lit}`n`. -/
def send (buf : Buffer α) (n : Int32) : Buffer α × Int :=
  if n < 0 then (buf, n.toInt) else buf.clear (.ofInt n.toInt)

variable {b : Buffer α} {n : Int32} {k : Nat}

/-- A count of at most {lit}`2 ^ 16 - 1` bytes is passed on as it is. -/
theorem toNat_ofInt (hn : n.toInt = k) (hk : k < 2 ^ 16) : (UInt16.ofInt n.toInt).toNat = k := by
  have hint : Buffer.int (.ofInt n.toInt) = n.toInt := Buffer.int_ofInt (by omega) (by omega)
  unfold Buffer.int at hint
  omega

theorem not_neg (hn : n.toInt = k) : ¬ n < 0 := by
  rw [Int32.lt_iff_toInt_lt, hn, Int32.toInt_zero]
  omega

/-- What has been received stands behind the other bytes. -/
theorem recv_fill {xs : List α} (hxs : xs.length ≤ b.writeableCap.toNat)
    (hn : n.toInt = xs.length) :
    (recv (b.fill xs hxs) n).1.contents = b.contents ++ xs ∧
      (recv (b.fill xs hxs) n).1.__size = b.__size ∧ (recv (b.fill xs hxs) n).2 = xs.length := by
  have hcap := b.writeableCap.toNat_lt
  have hcount := toNat_ofInt hn (by omega)
  rw [recv, if_neg (not_neg hn), Buffer.insert_eq (by rw [hcount]; exact hxs), Buffer.int, hcount]
  exact ⟨Buffer.contents_fill_advanceEnd hxs, rfl, rfl⟩

/-- A buffer that has been sent as a whole is empty. -/
theorem send_all (hn : n.toInt = b.length) :
    (send b n).1.contents = [] ∧ (send b n).1.__size = b.__size := by
  have hlt := b.length_lt
  have hsize := b.__size.toNat_lt
  have hcount := toNat_ofInt hn (by omega)
  rw [send, if_neg (not_neg hn), Buffer.contents_clear, hcount, ← b.length_contents,
    List.drop_length]
  exact ⟨rfl, rfl⟩

end Connection
end CoEpoll
