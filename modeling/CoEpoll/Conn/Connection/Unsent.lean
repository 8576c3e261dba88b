import CoEpoll.ASocket.Bookkeeping
import CoEpoll.Conn.Connection

/-!
# `Connection::send`: what the buffer holds afterwards

How far {lit}`colib::writev` has come is known to its callback only.  A wait that a hard error or
{lit}`EPOLLRDHUP` ends returns -1, and {lit}`Connection::send` leaves the buffer as it is, whatever the kernel
has accepted before.

Main results:

- Theorem {lit}`WritevCall.Inv.run_cases`: a run is unbroken, or its last step ends the wait with -1.
- Theorem {lit}`unsent_iff`: the buffer holds what the kernel has not accepted if and only if the wait
  is not broken off, or nothing has been accepted until then.
- Theorem {lit}`send_keeps_accepted`: a buffer can hold bytes that have been accepted.
-/

namespace CoEpoll

open Transition Irq Colib

namespace Colib
namespace WritevCall

variable {β : Type*} {iov : List (List β)} {s s' : WritevCall β} {a : Action} {call : Nat}

/-- How many bytes the kernel accepts in this step. -/
def Action.size : Action → Nat
  | .sysret (.ok size) => size
  | _ => 0

/-- The accepted bytes grow by what is accepted. -/
theorem Inv.length_accepted (h : Inv iov s) (hstep : s.step a = some s') :
    s'.accepted.length = s.accepted.length + a.size := by
  rcases h.step_cases hstep with ⟨events, rfl, _, _, rfl⟩ | ⟨r, rfl, _, hstep⟩
  · unfold WritevCall.invoke
    split
    · rfl
    · split <;> rfl
  · rw [WritevCall.sysret, s.offer_eq] at hstep
    cases r with
    | eintr => cases hstep; rfl
    | wouldBlock => cases hstep; rfl
    | error => cases hstep; rfl
    | ok size =>
        rcases Option.ite_none_right_eq_some.mp hstep with ⟨⟨hsize, _⟩, hstep⟩
        cases hstep
        rw [accept_eq, finish, List.length_append, List.length_take, Nat.min_eq_left hsize]
        rfl

/-- {lit}`EPOLLRDHUP` and a hard error end the wait with -1. -/
theorem Inv.broken (h : Inv iov s) (hbad : ¬ Unbroken a) (hstep : s.step a = some s') :
    s'.phase = .idle ∧ s'.last = some ⟨-1, false, false⟩ := by
  rcases h.step_cases hstep with ⟨events, rfl, hphase, _, rfl⟩ | ⟨r, rfl, _, hstep⟩
  · have hev : events &&& EPOLLRDHUP ≠ 0 := hbad
    rw [WritevCall.invoke, if_pos hev]
    exact ⟨rfl, rfl⟩
  · have hr : r = .error := not_not.mp hbad
    rw [WritevCall.sysret, s.offer_eq, hr] at hstep
    cases hstep
    exact ⟨rfl, rfl⟩

/-- No step follows the end of the wait. -/
theorem step_of_ended {r : IoRet} (hphase : s.phase = .idle) (hlast : s.last = some r)
    (hend : r.block = false) : s.step a = none := by
  cases a with
  | invoke events => simp [WritevCall.step, hphase, erased, hlast, hend]
  | sysret r => simp only [WritevCall.step, hphase]

/-- A run is unbroken, or it ends with -1. -/
theorem Inv.run_cases {as : List Action} (h : Inv iov s) (hmax : iov.flatten.length ≤ INT_MAX)
    (hrun : (machine call iov).run s as = some s') :
    s'.accepted.length = s.accepted.length + (as.map Action.size).sum ∧
      ((∀ a ∈ as, Unbroken a) ∧ Inv iov s' ∨
        (¬ ∀ a ∈ as, Unbroken a) ∧ s'.phase = .idle ∧ s'.last = some ⟨-1, false, false⟩) := by
  induction as generalizing s with
  | nil =>
      cases hrun
      exact ⟨rfl, .inl ⟨fun a ha => absurd ha List.not_mem_nil, h⟩⟩
  | cons a as ih =>
      rcases Machine.run_cons_eq_some.mp hrun with ⟨t, hstep, hrest⟩
      have hlen := h.length_accepted hstep
      rw [List.map_cons, List.sum_cons]
      by_cases hok : Unbroken a
      · rcases ih (h.step hmax hok hstep) hrest with ⟨hsum, hcases⟩
        refine ⟨by omega, ?_⟩
        simpa only [List.forall_mem_cons, hok, true_and] using hcases
      · rcases h.broken hok hstep with ⟨hphase, hlast⟩
        have hstuck : ∀ b, t.step b = none := fun _ => step_of_ended hphase hlast rfl
        rcases Machine.run_of_stuck hstuck hrest with ⟨rfl, rfl⟩
        exact ⟨hlen, .inr ⟨fun hall => hok (hall a List.mem_cons_self), hphase, hlast⟩⟩

end WritevCall
end Colib

namespace Connection

open WritevCall

variable {α : Type*} {b : Buffer α} {s : WritevCall α} {call : Nat} {as : List Action} {r : IoRet}

/-- After {lit}`Connection::send` has returned, the buffer holds what the kernel has not accepted. -/
def KeepsUnsent (b : Buffer α) (s : WritevCall α) (r : IoRet) : Prop :=
  b.contents = s.accepted ++ (send b r.ret).1.contents

/-- The wait is not broken off, or nothing has been accepted. -/
def UnbrokenOrUnsent (as : List Action) : Prop :=
  (∀ a ∈ as, Unbroken a) ∨ ∀ a ∈ as, a.size = 0

/-- When the wait ends, the buffer is left with what the kernel has not accepted if and only if
the wait is not broken off, or nothing has been accepted until then. -/
theorem unsent_iff (call : Nat) (hne : b.contents ≠ [])
    (hrun : (machine call (b.iovec true)).run (construct call (b.iovec true)) as = some s)
    (hlast : s.last = some r) (hend : r.block = false) :
    KeepsUnsent b s r ↔ UnbrokenOrUnsent as := by
  have hinit : Inv (b.iovec true) (construct call (b.iovec true)) :=
    inv_construct (Buffer.iovec_ne_nil hne)
  have hcases := hinit.run_cases b.length_iovec_le hrun
  rcases hcases with ⟨hsum, ⟨hok, hinv⟩ | ⟨hbad, _, hbroken⟩⟩
  · rcases hinv.returned hlast hend with ⟨hall, hret⟩
    rw [b.flatten_iovec] at hall hret
    rw [b.length_contents] at hret
    refine iff_of_true ?_ (.inl hok)
    rw [KeepsUnsent, (send_all hret).1, hall, List.append_nil]
  · cases hlast.symm.trans hbroken
    have hnone : s.accepted = [] ↔ ∀ a ∈ as, a.size = 0 := by
      rw [← List.length_eq_zero_iff, hsum, construct, List.length_nil, Nat.zero_add,
        List.sum_eq_zero_iff_forall_eq_nat, List.forall_mem_map]
    have hkeep : (send b (-1)).1 = b := rfl
    rw [KeepsUnsent, UnbrokenOrUnsent, or_iff_right hbad, ← hnone, hkeep, List.self_eq_append_left]

/-- A buffer of two bytes, in one segment. -/
theorem exists_pair : ∃ b : Buffer UInt8, b.contents = [1, 2] ∧ b.iovec true = [[1, 2]] :=
  ⟨⟨[1, 2, 0], 0, 2, 3, rfl, by decide, by decide⟩, by decide, by decide⟩

/-- A buffer that is sent in two parts. -/
theorem unsent_iff_parts :
    ∃ (b : Buffer UInt8) (s : WritevCall UInt8), b.contents = [1, 2] ∧ s.accepted = [1, 2] ∧
      KeepsUnsent b s ⟨2, false, false⟩ := by
  rcases exists_pair with ⟨b, hcontents, hiovec⟩
  have hrun : ((machine 0 (b.iovec true)).run (construct 0 (b.iovec true))
      [.invoke 0, .sysret (.ok 1), .invoke 0, .sysret (.ok 1)]).map
        (fun s => (s.accepted, s.last)) = some ([1, 2], some ⟨2, false, false⟩) := by
    rw [hiovec]
    decide +kernel
  rcases Option.map_eq_some_iff.mp hrun with ⟨s, hs, hvalues⟩
  refine ⟨b, s, hcontents, congrArg Prod.fst hvalues, ?_⟩
  apply (unsent_iff 0 (by simp [hcontents]) hs (congrArg Prod.snd hvalues) rfl).mpr
  exact .inl (by decide)

/-- The first of two bytes is accepted, then the connection is reset: the buffer holds both. -/
theorem send_keeps_accepted :
    ¬ ∀ (b : Buffer UInt8) (as : List Action) (s : WritevCall UInt8) (r : IoRet), b.contents ≠ [] →
      (machine 0 (b.iovec true)).run (construct 0 (b.iovec true)) as = some s →
      s.last = some r → r.block = false → KeepsUnsent b s r := by
  intro hclaim
  rcases exists_pair with ⟨b, hcontents, hiovec⟩
  have hrun : ((machine 0 (b.iovec true)).run (construct 0 (b.iovec true))
      [.invoke 0, .sysret (.ok 1), .invoke 0, .sysret .error]).map
        (fun s => (s.accepted, s.last)) = some ([1], some ⟨-1, false, false⟩) := by
    rw [hiovec]
    decide +kernel
  rcases Option.map_eq_some_iff.mp hrun with ⟨s, hs, hvalues⟩
  have hkept := hclaim b _ s _ (by simp [hcontents]) hs (congrArg Prod.snd hvalues) rfl
  have haccepted : s.accepted = [1] := congrArg Prod.fst hvalues
  rw [KeepsUnsent, haccepted, send, if_pos (by decide), hcontents] at hkept
  exact absurd hkept (by decide)

end Connection
end CoEpoll
