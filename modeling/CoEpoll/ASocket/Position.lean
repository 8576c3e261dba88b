import CoEpoll.ASocket

/-!
# `colib::writev`: the position of its callback

The captured variables {lit}`tcnt`, {lit}`offset` and {lit}`sendBytes` say how many bytes have been accepted.

Main results:

- Theorem {lit}`StandsAt.flatten_tiov`: what is offered next is all that has not been accepted.
- Theorem {lit}`StandsAt.sent`: a system call that accepts bytes moves the position on by them.
- Theorem {lit}`StandsAt.eq_of_finished`: a callback that has gone through all elements has come to
  the end.
-/

namespace CoEpoll
namespace Colib
namespace Writev

variable {β : Type*} {c : Writev β} {n size : Nat}

/-- The callback stands at byte {lit}`n` of the elements: at a byte of element {lit}`tcnt`, before an empty
element, or at the end. -/
structure StandsAt (c : Writev β) (n : Nat) : Prop where
  position : (c.iov.take c.tcnt).flatten.length + c.offset = n
  inside : ∀ seg, c.iov[c.tcnt]? = some seg → c.offset < seg.length ∨ seg = [] ∧ c.offset = 0
  ended : c.tcnt ≤ c.iov.length ∧ (c.tcnt = c.iov.length → c.offset = 0)
  count : c.sendBytes.toInt = n

theorem standsAt_start (call : Nat) (iov : List (List β)) : (start call iov).StandsAt 0 where
  position := rfl
  inside seg _ := by
    cases seg with
    | nil => exact .inr ⟨rfl, rfl⟩
    | cons _ _ => exact .inl (Nat.succ_pos _)
  ended := ⟨Nat.zero_le _, fun _ => rfl⟩
  count := rfl

/-- The position lies inside of the element, or just behind it. -/
theorem StandsAt.offset_le (h : c.StandsAt n) {seg : List β} (hseg : c.iov[c.tcnt]? = some seg) :
    c.offset ≤ seg.length := by
  rcases h.inside seg hseg with hlt | ⟨_, hzero⟩
  · exact Nat.le_of_lt hlt
  · rw [hzero]
    exact Nat.zero_le _

/-- What is offered next is all that has not been accepted. -/
theorem StandsAt.flatten_tiov (h : c.StandsAt n) : c.tiov.flatten = c.iov.flatten.drop n := by
  have hsplit : c.iov.flatten = (c.iov.take c.tcnt).flatten ++ (c.iov.drop c.tcnt).flatten := by
    rw [← List.flatten_append, List.take_append_drop]
  rw [← h.position, hsplit, List.drop_length_add_append, tiov, Colib.tiov]
  cases hdrop : c.iov.drop c.tcnt with
  | nil => simp
  | cons seg segs =>
      have hseg : c.iov[c.tcnt]? = some seg := by
        rw [← List.head?_drop, hdrop]
        rfl
      dsimp only
      rw [List.flatten_cons, List.flatten_cons,
        List.drop_append_of_le_length (h.offset_le hseg)]

theorem StandsAt.le (h : c.StandsAt n) : n ≤ c.iov.flatten.length := by
  have hsplit : c.iov.flatten = (c.iov.take c.tcnt).flatten ++ (c.iov.drop c.tcnt).flatten := by
    rw [← List.flatten_append, List.take_append_drop]
  have hoffset : c.offset ≤ (c.iov.drop c.tcnt).flatten.length := by
    cases hdrop : c.iov.drop c.tcnt with
    | nil =>
        have hend : c.tcnt = c.iov.length := by
          have hle := List.drop_eq_nil_iff.mp hdrop
          exact Nat.le_antisymm h.ended.1 hle
        rw [h.ended.2 hend]
        exact Nat.zero_le _
    | cons seg segs =>
        have hseg : c.iov[c.tcnt]? = some seg := by
          rw [← List.head?_drop, hdrop]
          rfl
        rw [List.flatten_cons, List.length_append]
        exact Nat.le_trans (h.offset_le hseg) (Nat.le_add_right _ _)
  rw [hsplit, List.length_append, ← h.position]
  omega

/-- A callback that has gone through all elements has come to the end. -/
theorem StandsAt.eq_of_finished (h : c.StandsAt n) (hfin : c.unfinished = false) :
    n = c.iov.flatten.length := by
  rw [unfinished, decide_eq_false_iff_not] at hfin
  have hend : c.tcnt = c.iov.length := Nat.le_antisymm h.ended.1 (Nat.le_of_not_lt hfin)
  rw [← h.position, h.ended.2 hend, hend, List.take_length, Nat.add_zero]

/-- Where the loop stops that moves the position on. -/
theorem advance_stands (iov : List (List β)) :
    ∀ (segs : List (List β)) (size offset tcnt : Nat), Colib.tiov iov offset tcnt = segs →
      (∀ seg, iov[tcnt]? = some seg → offset ≤ seg.length) → tcnt ≤ iov.length →
      (tcnt = iov.length → offset = 0) → size ≤ segs.flatten.length →
      let p := advance segs size offset tcnt
      (iov.take p.2).flatten.length + p.1 = (iov.take tcnt).flatten.length + offset + size ∧
        (∀ seg, iov[p.2]? = some seg → p.1 < seg.length) ∧ p.2 ≤ iov.length ∧
        (p.2 = iov.length → p.1 = 0) := by
  intro segs
  induction segs with
  | nil =>
      intro size offset tcnt htiov _ hle hend hsize
      have hlen := length_tiov iov offset tcnt
      rw [htiov, List.length_nil] at hlen
      have htcnt : tcnt = iov.length := by omega
      have hzero : size = 0 := Nat.le_zero.mp hsize
      refine ⟨?_, fun seg hseg => ?_, hle, hend⟩
      · rw [hzero]
        rfl
      · rw [advance, htcnt, List.getElem?_eq_none (Nat.le_refl _)] at hseg
        cases hseg
  | cons seg segs ih =>
      intro size offset tcnt htiov hinside hle hend hsize
      have hlen := length_tiov iov offset tcnt
      rw [htiov, List.length_cons] at hlen
      have htcnt : tcnt < iov.length := by omega
      have hfull : iov[tcnt]? = some iov[tcnt] := List.getElem?_eq_getElem htcnt
      have hoffset : offset ≤ iov[tcnt].length := hinside _ hfull
      have hparts : seg = iov[tcnt].drop offset ∧ segs = iov.drop (tcnt + 1) := by
        rw [Colib.tiov, List.drop_eq_getElem_cons htcnt] at htiov
        exact ⟨(List.cons.inj htiov).1.symm, (List.cons.inj htiov).2.symm⟩
      have hseg : seg.length = iov[tcnt].length - offset := by
        rw [hparts.1, List.length_drop]
      unfold advance
      split
      · rename_i hlt
        refine ⟨by dsimp only; omega, fun full hfull' => ?_, hle, fun heq => ?_⟩
        · dsimp only at hfull' ⊢
          rw [hfull] at hfull'
          cases hfull'
          omega
        · dsimp only at heq
          omega
      · rename_i hge
        have hnext : Colib.tiov iov 0 (tcnt + 1) = segs := by
          rw [tiov_zero, hparts.2]
        rw [List.flatten_cons, List.length_append] at hsize
        have hrest := ih (size - seg.length) 0 (tcnt + 1) hnext (fun _ _ => Nat.zero_le _)
          (by omega) (fun _ => rfl) (by omega)
        dsimp only at hrest ⊢
        refine ⟨?_, hrest.2⟩
        rw [hrest.1, List.take_add_one, hfull, Option.toList_some, List.flatten_append,
          List.length_append, List.flatten_singleton]
        omega

/-- A system call that accepts bytes moves the position on by them. -/
theorem StandsAt.sent (h : c.StandsAt n) (hsize : size ≤ c.tiov.flatten.length)
    (hmax : c.iov.flatten.length ≤ INT_MAX) : (c.sent size).StandsAt (n + size) := by
  have hstands := advance_stands c.iov c.tiov size c.offset c.tcnt rfl
    (fun _ hseg => h.offset_le hseg) h.ended.1 h.ended.2 hsize
  have hbytes : n + size ≤ INT_MAX := by
    have hle := h.le
    rw [h.flatten_tiov, List.length_drop] at hsize
    omega
  refine ⟨?_, fun seg hseg => .inl (hstands.2.1 seg hseg), hstands.2.2, ?_⟩
  · rw [← h.position]
    exact hstands.1
  · have hsmall : n + size < 2 ^ 31 := Nat.lt_of_le_of_lt hbytes (by decide)
    change (c.sendBytes + Int32.ofNat size).toInt = _
    rw [Int32.toInt_add, h.count, Int32.toInt_ofNat_of_lt (by omega), Int.bmod_eq_of_le
      (by omega) (by omega)]
    rfl

end Writev
end Colib
end CoEpoll
