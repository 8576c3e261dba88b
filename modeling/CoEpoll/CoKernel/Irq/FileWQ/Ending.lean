import CoEpoll.ASocket.Callbacks
import CoEpoll.CoKernel.Irq.FileWQ.Walk

/-!
# `FileWQ::wakeup`: when does it end

A callback that waits on clears the events of its waiter from {lit}`revents_`, but never {lit}`EPOLLRDHUP`, for
which every waiter is called.  A waiter that is called for {lit}`EPOLLRDHUP` alone and waits on is
called again at once.

Main results:

- Theorem {lit}`measure_advance`: every other iteration comes closer to the end.
- Theorem {lit}`wakeup_ends_iff`: the loop performs finitely many iterations if and only if it stays at
  such a waiter only finitely often.
- Theorem {lit}`wakeup_spins`: it does not end when the socket stays unwritable.
-/

namespace CoEpoll
namespace Irq
namespace FileWQ
namespace Walk

open Transition Colib

variable {κ γ β : Type*}

/-! ## Waiters of `ASocket.cpp` -/

/-- The walk goes on by one step; in a callback the system call returns {lit}`r`. -/
def advance (s : Walk κ (Callback β)) (r : SysResult) : Walk κ (Callback β) :=
  match s.pc with
  | .loop => s.iterate
  | .calling events cb =>
      match cb.enter events with
      | some ret => s.ret ret cb
      | none =>
          match cb.resume r with
          | some (ret, cb) => s.ret ret cb
          | none => s
  | .suspended => { s with pc := .loop }
  | .ended => s

/-- The walk over the waiters of {lit}`q` after {lit}`n` steps. -/
def trace (q : FileWQ κ (Callback β)) (answers : Nat → SysResult) : Nat → Walk κ (Callback β)
  | 0 => start q
  | n + 1 => (trace q answers n).advance (answers n)

/-- The callback of a waiter that is called for {lit}`EPOLLRDHUP` alone waits on. -/
def Stays (s : Walk κ (Callback β)) (r : SysResult) : Prop :=
  match s.pc with
  | .calling events cb =>
      (∃ item, s.wq.items_[s.iter]? = some item ∧ s.wq.revents_ &&& item.events_ = 0) ∧
        cb.enter events = none ∧ ∃ ret cb', cb.resume r = some (ret, cb') ∧ ret.block = true
  | _ => False

/-- What a step of the walk is. -/
theorem advance_cases (s : Walk κ (Callback β)) (r : SysResult) :
    (s.pc = .loop ∧ s.advance r = s.iterate) ∨
      (s.pc = .suspended ∧ s.advance r = { s with pc := .loop }) ∨
      (s.pc ≠ .loop ∧ s.advance r = s) ∨
      ∃ events cb ret cb', s.pc = .calling events cb ∧ s.advance r = s.ret ret cb' ∧
        (ret.block = true → cb.enter events = none ∧ cb.resume r = some (ret, cb')) := by
  unfold advance
  cases hpc : s.pc with
  | loop => exact .inl ⟨rfl, rfl⟩
  | suspended => exact .inr (.inl ⟨rfl, rfl⟩)
  | ended => exact .inr (.inr (.inl ⟨by simp, rfl⟩))
  | calling events cb =>
      right; right
      cases henter : cb.enter events with
      | some ret =>
          have hends := Callback.enter_block henter
          exact .inr ⟨events, cb, ret, cb, rfl, by simp only [henter],
            fun hblock => absurd (hblock.symm.trans hends) (by simp)⟩
      | none =>
          cases hresume : cb.resume r with
          | none => exact .inl ⟨by simp, by simp only [henter, hresume]⟩
          | some res =>
              exact .inr ⟨events, cb, res.1, res.2, rfl, by simp only [henter, hresume],
                fun _ => ⟨henter, hresume⟩⟩

theorem inv_trace (q : FileWQ κ (Callback β)) (answers : Nat → SysResult) (n : Nat) :
    Inv q (trace q answers n) := by
  induction n with
  | zero => exact inv_start q
  | succ n ih =>
      rw [trace]
      rcases advance_cases (trace q answers n) (answers n) with ⟨hpc, heq⟩ | ⟨hpc, heq⟩ | ⟨_, heq⟩ |
        ⟨events, cb, ret, cb', hpc, heq, _⟩ <;> rw [heq]
      · exact ih.iterate hpc
      · have hok := ih.pc
        rw [PcOk, hpc] at hok
        exact { ih with pc := hok }
      · exact ih
      · exact ih.ret hpc ret cb'

/-! ## How far the walk has come -/

def rank : WalkPc γ → Nat
  | .ended => 0
  | .calling _ _ => 1
  | .loop => 2
  | .suspended => 3

/-- What is left of the list and of {lit}`revents_`, and of the iteration. -/
def measure (s : Walk κ γ) : Nat :=
  3 * (s.wq.items_.length - s.iter + s.wq.revents_.toNat) + rank s.pc

variable {s : Walk κ γ} {r : IoRet} {cb : γ}

/-- Removing the waiter at the iterator comes closer to the end. -/
theorem measure_remove {wq : FileWQ κ γ} (hlt : s.iter < s.wq.items_.length)
    (hlen : wq.items_.length = s.wq.items_.length - 1)
    (hwithin : Mask.Within wq.revents_ s.wq.revents_) (hpc : 1 ≤ rank s.pc) :
    (s.remove wq).measure < s.measure := by
  have hbits := hwithin.toNat_le
  have hrank : rank (s.remove wq).pc ≤ 3 := by
    unfold Walk.remove
    dsimp only
    split
    · exact Nat.le_succ 2
    · exact Nat.le_refl 3
  change 3 * (wq.items_.length - s.iter + wq.revents_.toNat) + rank (s.remove wq).pc < _
  unfold measure
  omega

/-- An iteration up to the call of a callback comes closer to the end. -/
theorem measure_iterate (hpc : s.pc = .loop) : s.iterate.measure < s.measure := by
  unfold Walk.iterate
  cases hturn : s.wq.turn s.iter with
  | finish =>
      rw [measure, measure, hpc]
      dsimp only [rank]
      omega
  | call events cb =>
      rw [measure, measure, hpc]
      dsimp only [rank]
      omega
  | erase =>
      rcases turn_eq_erase hturn with ⟨item, hitem, _⟩
      rcases List.getElem?_eq_some_iff.mp hitem with ⟨hlt, _⟩
      have hpos : 1 ≤ rank s.pc := by
        rw [hpc]
        exact Nat.le_succ 1
      exact measure_remove hlt (List.length_eraseIdx_of_lt hlt) (Mask.Within.refl _) hpos
  | next =>
      have hlt : s.iter < s.wq.items_.length := by
        by_contra hge
        rw [turn, List.getElem?_eq_none (Nat.le_of_not_lt hge)] at hturn
        cases hturn
      rw [measure, measure, hpc]
      dsimp only [rank]
      omega

section Ret

variable {item : WaitItem κ γ}

/-- The list and the events behind a call of a callback. -/
theorem length_settle_store (r : IoRet) (cb : γ)
    (hitem : s.wq.items_[s.iter]? = some item) :
    ((s.wq.store s.iter cb).settle s.iter r).items_.length =
      if r.block then s.wq.items_.length else s.wq.items_.length - 1 := by
  rcases List.getElem?_eq_some_iff.mp hitem with ⟨hlt, _⟩
  have hlen : (s.wq.store s.iter cb).items_.length = s.wq.items_.length :=
    List.length_modify _ _ _
  rw [settle_items_]
  split
  · exact hlen
  · rw [← hlen]
    exact List.length_eraseIdx_of_lt (hlen ▸ hlt)

theorem revents_settle_store (r : IoRet) (cb : γ)
    (hitem : s.wq.items_[s.iter]? = some item) :
    ((s.wq.store s.iter cb).settle s.iter r).revents_ =
      if r.exhausted then s.wq.revents_ &&& ~~~item.events_ else s.wq.revents_ := by
  rw [settle_revents_, FileWQ.exhaust, getElem?_store hitem]
  rfl

theorem within_settle_store (r : IoRet) (cb : γ)
    (hitem : s.wq.items_[s.iter]? = some item) :
    Mask.Within ((s.wq.store s.iter cb).settle s.iter r).revents_ s.wq.revents_ := by
  rw [revents_settle_store r cb hitem]
  split
  · exact Mask.within_diff _ _
  · exact Mask.Within.refl _

/-- A callback whose waiter leaves comes closer to the end. -/
theorem measure_ret_lt (hitem : s.wq.items_[s.iter]? = some item) (hpc : 1 ≤ rank s.pc)
    (hblock : r.block = false) : (s.ret r cb).measure < s.measure := by
  rcases List.getElem?_eq_some_iff.mp hitem with ⟨hlt, _⟩
  have hlen := length_settle_store r cb hitem
  have hends : ¬ r.block = true := Bool.eq_false_iff.mp hblock
  rw [if_neg hends] at hlen
  rw [Walk.ret, if_neg hends]
  exact measure_remove hlt hlen (within_settle_store r cb hitem) hpc

/-- It comes closer to the end when it has used up one of its waiter's own events. -/
theorem measure_ret_lt_of_exhausted (hitem : s.wq.items_[s.iter]? = some item)
    (hblock : r.block = true) (hex : r.exhausted = true)
    (hown : s.wq.revents_ &&& item.events_ ≠ 0) : (s.ret r cb).measure < s.measure := by
  have hlen := length_settle_store r cb hitem
  have hbits := Mask.toNat_diff_lt hown
  have hrevents := revents_settle_store r cb hitem
  rw [if_pos hblock] at hlen
  rw [if_pos hex] at hrevents
  have hrank : rank (.loop : WalkPc γ) = 2 := rfl
  rw [Walk.ret, if_pos hblock, measure, measure]
  dsimp only
  rw [hlen, hrevents]
  omega

end Ret

/-! ## The walk as a whole -/

variable {w : Walk κ (Callback β)} {answer : SysResult} {q : FileWQ κ (Callback β)}

/-- A call that does not stay at its waiter comes closer to the end. -/
theorem measure_call_lt (h : Inv q w) {events : Events} {cb cb' : Callback β} {ret : IoRet}
    (hpc : w.pc = .calling events cb)
    (hret : ret.block = true → cb.enter events = none ∧ cb.resume answer = some (ret, cb'))
    (hstays : ¬ w.Stays answer) : (w.ret ret cb').measure < w.measure := by
  have hok := h.pc
  rw [PcOk, hpc] at hok
  rcases turn_eq_call hok.2 with ⟨item, hitem, _⟩
  have hpos : 1 ≤ rank w.pc := by
    rw [hpc]
    exact Nat.le_refl 1
  cases hblock : ret.block with
  | false => exact measure_ret_lt hitem hpos hblock
  | true =>
      rcases hret hblock with ⟨henter, hresume⟩
      apply measure_ret_lt_of_exhausted hitem hblock (Callback.exhausted_of_block hresume hblock)
      intro hown
      rw [Stays, hpc] at hstays
      exact hstays ⟨⟨item, hitem, hown⟩, henter, ret, cb', hresume, hblock⟩

/-- A step that does not stay at a waiter comes no further from the end, and the beginning of an
iteration comes closer to it. -/
theorem measure_advance (h : Inv q w) (hstays : ¬ w.Stays answer) :
    (w.advance answer).measure ≤ w.measure ∧
      (w.pc = .loop → (w.advance answer).measure < w.measure) := by
  rcases advance_cases w answer with ⟨hpc, heq⟩ | ⟨hpc, heq⟩ | ⟨hpc, heq⟩ |
    ⟨events, cb, ret, cb', hpc, heq, hret⟩ <;> rw [heq]
  · have hlt := measure_iterate hpc
    exact ⟨Nat.le_of_lt hlt, fun _ => hlt⟩
  · have hrank : rank (.loop : WalkPc (Callback β)) < rank (.suspended : WalkPc (Callback β)) :=
      Nat.lt_succ_self 2
    rw [hpc, measure, measure, hpc]
    dsimp only
    exact ⟨by omega, nofun⟩
  · exact ⟨Nat.le_refl _, fun hloop => absurd hloop hpc⟩
  · rw [hpc]
    exact ⟨Nat.le_of_lt (measure_call_lt h hpc hret hstays), nofun⟩

/-- A step that stays at a waiter begins another iteration. -/
theorem pc_advance_of_stays (hstays : w.Stays answer) : (w.advance answer).pc = .loop := by
  unfold Stays at hstays
  cases hpc : w.pc with
  | loop => simp [hpc] at hstays
  | suspended => simp [hpc] at hstays
  | ended => simp [hpc] at hstays
  | calling events cb =>
      rw [hpc] at hstays
      rcases hstays with ⟨_, henter, ret, cb', hresume, hblock⟩
      have heq : w.advance answer = w.ret ret cb' := by
        simp only [advance, hpc, henter, hresume]
      rw [heq, Walk.ret, if_pos hblock]

/-- The loop in {lit}`wakeup` performs finitely many iterations if and only if it stays only finitely often
at a waiter that it calls for {lit}`EPOLLRDHUP` alone. -/
theorem wakeup_ends_iff (q : FileWQ κ (Callback β)) (answers : Nat → SysResult) :
    (∃ N, ∀ n, N ≤ n → (trace q answers n).pc ≠ .loop) ↔
      ∃ N, ∀ n, N ≤ n → ¬ (trace q answers n).Stays (answers n) := by
  constructor
  · rintro ⟨N, hends⟩
    refine ⟨N, fun n hn hstays => ?_⟩
    exact hends (n + 1) (Nat.le_succ_of_le hn) (pc_advance_of_stays hstays)
  · rintro ⟨N, hfree⟩
    exact eventually_not_of_measure (fun n => (trace q answers n).measure) N
      (fun n hn => (measure_advance (inv_trace q answers n) (hfree n hn)).1)
      (fun n hn => (measure_advance (inv_trace q answers n) (hfree n hn)).2)

/-- A waiter of {lit}`send` on a socket that has {lit}`EPOLLRDHUP` and stays unwritable is called for ever. -/
theorem wakeup_spins :
    ¬ ∀ (q : FileWQ Nat (Callback UInt8)) (answers : Nat → SysResult),
      ∃ N, ∀ n, N ≤ n → (trace q answers n).pc ≠ .loop := by
  intro hclaim
  rcases hclaim ⟨EPOLLRDHUP, true, false, [⟨some 0, some (.sendfunc (.start 1)), EPOLLOUT⟩]⟩
    (fun _ => ⟨-1, EWOULDBLOCK⟩) with ⟨N, hends⟩
  generalize hq : (⟨EPOLLRDHUP, true, false, [⟨some 0, some (.sendfunc (.start 1)), EPOLLOUT⟩]⟩ :
    FileWQ Nat (Callback UInt8)) = q at hends
  have hround : ((start q).advance ⟨-1, EWOULDBLOCK⟩).advance ⟨-1, EWOULDBLOCK⟩ = start q := by
    rw [← hq]
    rfl
  have htrace : ∀ k, trace q (fun _ => ⟨-1, EWOULDBLOCK⟩) (2 * k) = start q := by
    intro k
    induction k with
    | zero => rfl
    | succ k ih =>
        rw [Nat.mul_succ, trace, trace, ih]
        exact hround
  refine hends (2 * N) (by omega) ?_
  rw [htrace]
  rfl

end Walk
end FileWQ
end Irq
end CoEpoll
