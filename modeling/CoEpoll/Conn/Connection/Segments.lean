import CoEpoll.Conn.Connection.Unsent

/-!
# `Connection::send`: none, one or two segments

The callback of {lit}`colib::writev` takes the first element of {lit}`iov` outside of the loop that copies the
others.  A buffer that is empty has no segment at all.  A descriptor that {lit}`waitFile` does not find
ends the call before any invocation.

Main results:

- Theorem {lit}`WritevCall.Inv.ne_fault`: with at least one segment no array is accessed outside of its
  bounds, also when the wait is broken off.
- Theorem {lit}`WritevCall.run_nil_cases`: without a segment the first invocation is the last one.
- Theorem {lit}`Sending.run_cases`: a call is refused before any invocation, or it is a run of the callback.
- Theorem {lit}`sentSafely_iff`: {lit}`send` is safe if and only if the buffer is not empty, or the call has
  neither been refused nor come to the callback.
-/

namespace CoEpoll

open Transition Irq Colib

namespace Colib
namespace WritevCall

variable {β : Type*} {iov : List (List β)} {s s' : WritevCall β} {call : Nat} {as : List Action}

/-- With at least one segment no array is accessed outside of its bounds. -/
theorem Inv.ne_fault (h : Inv iov s) (hmax : iov.flatten.length ≤ INT_MAX)
    (hrun : (machine call iov).run s as = some s') : s'.phase ≠ .fault := by
  rcases (h.run_cases hmax hrun).2 with ⟨_, hinv⟩ | ⟨_, hphase, _⟩
  · exact hinv.bookkept.inBounds
  · intro hfault
    cases hphase.symm.trans hfault

/-- Without a segment the callback accesses {lit}`iov[0]`, unless it returns before. -/
theorem invoke_nil (call : Nat) (events : Events) :
    ((construct call ([] : List (List β))).invoke events).phase = .fault ∨
      ((construct call ([] : List (List β))).invoke events).phase = .idle ∧
        ((construct call ([] : List (List β))).invoke events).last = some ⟨-1, false, false⟩ := by
  unfold invoke
  split
  · exact .inr ⟨rfl, rfl⟩
  · exact .inl rfl

/-- No step follows an access outside of the bounds. -/
theorem step_of_fault {a : Action} (hphase : s.phase = .fault) : s.step a = none := by
  cases a with
  | invoke events => simp only [WritevCall.step, hphase]
  | sysret r => simp only [WritevCall.step, hphase]

/-- Without a segment the first invocation is the last one: it accesses {lit}`iov[0]`, or {lit}`EPOLLRDHUP` ends
the wait with -1. -/
theorem run_nil_cases
    (hrun : (machine call []).run (construct call ([] : List (List β))) as = some s) :
    as = [] ∧ s.phase = .idle ∧ s.last = none ∨
      as ≠ [] ∧ (s.phase = .fault ∨ s.phase = .idle ∧ s.last = some ⟨-1, false, false⟩) := by
  cases as with
  | nil =>
      cases hrun
      exact .inl ⟨rfl, rfl, rfl⟩
  | cons a as =>
      rcases Machine.run_cons_eq_some.mp hrun with ⟨t, hstep, hrest⟩
      have hfirst : t.phase = .fault ∨ t.phase = .idle ∧ t.last = some ⟨-1, false, false⟩ := by
        cases a with
        | invoke events =>
            cases hstep
            exact invoke_nil call events
        | sysret r => cases hstep
      have hstuck : ∀ b, t.step b = none := by
        intro b
        rcases hfirst with hfault | ⟨hphase, hlast⟩
        · exact step_of_fault hfault
        · exact step_of_ended hphase hlast rfl
      rcases Machine.run_of_stuck hstuck hrest with ⟨rfl, rfl⟩
      exact .inr ⟨List.cons_ne_nil _ _, hfirst⟩

end WritevCall
end Colib

namespace Connection

open WritevCall

variable {α : Type*}

/-! ## The whole call -/

/-- A call of {lit}`send`: that of {lit}`colib::writev`, and whether {lit}`waitFile` has refused it. -/
structure Sending (α : Type*) where
  call : WritevCall α
  refused : Bool

namespace Sending

/-- {lit}`send` of a buffer with the segments {lit}`iov`, before {lit}`waitFile` has looked for the descriptor. -/
def construct (call : Nat) (iov : List (List α)) : Sending α where
  call := .construct call iov
  refused := false

inductive Action where
  /-- {lit}`waitFile` does not find the descriptor and returns -1. -/
  | missing
  /-- The callback is invoked, or its {lit}`::writev` returns. -/
  | writev (a : WritevCall.Action)

/-- {lit}`waitFile` returns -1 before it waits. -/
def missing (s : Sending α) : Option (Sending α) :=
  match s.call.phase, s.call.last with
  | .idle, none => some { s with refused := true }
  | _, _ => none

/-- One step. -/
def step (s : Sending α) (a : Action) : Option (Sending α) :=
  if s.refused then none
  else match a with
    | .missing => s.missing
    | .writev a => (s.call.step a).map fun call => { s with call := call }

/-- A call under any sequence of invocations and results. -/
def machine (call : Nat) (iov : List (List α)) : Machine (Sending α) Action where
  init s := s = construct call iov
  step := step

/-- What {lit}`colib::writev` returns, once {lit}`waitFile` has refused it or the callback has ended the wait. -/
def result (s : Sending α) : Option Int32 :=
  if s.refused then some (-1)
  else match s.call.last with
    | some r => if r.block then none else some r.ret
    | none => none

variable {s s' : Sending α} {call : Nat} {iov : List (List α)} {as : List Action}

/-- What a step does. -/
theorem step_cases {a : Action} (hstep : s.step a = some s') :
    s.refused = false ∧
      ((a = .missing ∧ s' = { s with refused := true }) ∨
        ∃ b call, a = .writev b ∧ s.call.step b = some call ∧ s' = { s with call := call }) := by
  rcases Option.ite_none_left_eq_some.mp hstep with ⟨hrefused, hstep⟩
  refine ⟨Bool.eq_false_iff.mpr hrefused, ?_⟩
  cases a with
  | missing =>
      change s.missing = some s' at hstep
      unfold missing at hstep
      split at hstep
      · cases hstep
        exact .inl ⟨rfl, rfl⟩
      · cases hstep
  | writev b =>
      change (s.call.step b).map _ = some s' at hstep
      rcases Option.map_eq_some_iff.mp hstep with ⟨call, hcall, rfl⟩
      exact .inr ⟨b, call, rfl, hcall, rfl⟩

/-- No step follows the refusal. -/
theorem step_of_refused (hrefused : s.refused = true) (a : Action) : s.step a = none := by
  unfold step
  rw [if_pos hrefused]

/-- A call is a run of the callback, which the refusal may follow. -/
theorem run_cases (hs : s.refused = false) (hrun : (machine call iov).run s as = some s') :
    ∃ bs, (WritevCall.machine call iov).run s.call bs = some s'.call ∧
      (as = bs.map .writev ∧ s'.refused = false ∨
        as = bs.map .writev ++ [.missing] ∧ s'.refused = true) := by
  induction as generalizing s with
  | nil =>
      cases hrun
      exact ⟨[], rfl, .inl ⟨rfl, hs⟩⟩
  | cons a as ih =>
      rcases Machine.run_cons_eq_some.mp hrun with ⟨t, hstep, hrest⟩
      rcases (step_cases hstep).2 with ⟨rfl, rfl⟩ | ⟨b, c, rfl, hcall, rfl⟩
      · have hstuck : ∀ b, (machine call iov).step { s with refused := true } b = none :=
          step_of_refused (s := { s with refused := true }) rfl
        rcases Machine.run_of_stuck hstuck hrest with ⟨rfl, rfl⟩
        exact ⟨[], rfl, .inr ⟨rfl, rfl⟩⟩
      · have hs' : ({ s with call := c } : Sending α).refused = false := hs
        rcases ih hs' hrest with ⟨bs, hbs, hcases⟩
        refine ⟨b :: bs, Machine.run_cons_eq_some.mpr ⟨c, hcall, hbs⟩, ?_⟩
        rcases hcases with ⟨rfl, hrefused⟩ | ⟨rfl, hrefused⟩
        · exact .inl ⟨rfl, hrefused⟩
        · exact .inr ⟨rfl, hrefused⟩

end Sending

variable {b : Buffer α} {s : Sending α} {call : Nat} {as : List Sending.Action}

/-- No array has been accessed outside of its bounds, and {lit}`send` of an empty buffer returns 0 and
leaves it empty. -/
structure SentSafely (b : Buffer α) (s : Sending α) : Prop where
  inBounds : s.call.phase ≠ .fault
  empty : b.contents = [] → ∀ n, s.result = some n →
    (send b n).2 = 0 ∧ (send b n).1.contents = []

/-- An empty buffer for which {lit}`colib::writev` returns -1 is not sent safely. -/
theorem not_sentSafely_of_result (hempty : b.contents = []) (hresult : s.result = some (-1)) :
    ¬ SentSafely b s := by
  intro hsafe
  have hzero := (hsafe.empty hempty _ hresult).1
  have hret : (send b (-1)).2 = -1 := rfl
  exact absurd (hret.symm.trans hzero) (by decide)

/-- An empty buffer is sent safely only until the call is refused or comes to the callback. -/
theorem sentSafely_empty_iff
    (hrun : (Sending.machine call []).run (.construct call ([] : List (List α))) as = some s)
    (hempty : b.contents = []) : SentSafely b s ↔ as = [] := by
  rcases Sending.run_cases rfl hrun with ⟨bs, hbs, ⟨rfl, hrefused⟩ | ⟨rfl, hrefused⟩⟩
  · rcases run_nil_cases hbs with ⟨rfl, hphase, hlast⟩ | ⟨hne, hbad⟩
    · refine iff_of_true ⟨?_, ?_⟩ rfl
      · rw [hphase]
        intro hfault
        cases hfault
      · intro _ n hn
        simp [Sending.result, hrefused, hlast] at hn
    · refine iff_of_false (fun hsafe => ?_) (fun hnil => hne (List.map_eq_nil_iff.mp hnil))
      rcases hbad with hfault | ⟨_, hlast⟩
      · exact hsafe.inBounds hfault
      · exact not_sentSafely_of_result hempty (by simp [Sending.result, hrefused, hlast]) hsafe
  · refine iff_of_false (not_sentSafely_of_result hempty (if_pos hrefused)) ?_
    exact List.append_ne_nil_of_right_ne_nil _ (List.cons_ne_nil _ _)

/-- In every run of a call no array is accessed outside of its bounds, and an empty buffer
is left empty with the result 0, if and only if the buffer is not empty or the call has neither been
refused nor come to the callback. -/
theorem sentSafely_iff (call : Nat)
    (hrun : (Sending.machine call (b.iovec true)).run (.construct call (b.iovec true)) as =
      some s) :
    SentSafely b s ↔ b.contents ≠ [] ∨ as = [] := by
  by_cases hempty : b.contents = []
  · rw [Buffer.iovec_eq_nil hempty] at hrun
    rw [sentSafely_empty_iff hrun hempty]
    exact (or_iff_right (not_not.mpr hempty)).symm
  · refine iff_of_true ⟨?_, fun h => absurd h hempty⟩ (.inl hempty)
    have hinit : Inv (b.iovec true) (WritevCall.construct call (b.iovec true)) :=
      inv_construct (Buffer.iovec_ne_nil hempty)
    rcases Sending.run_cases rfl hrun with ⟨bs, hbs, _⟩
    exact hinit.ne_fault b.length_iovec_le hbs

/-- A buffer whose two bytes are sent in two parts. -/
theorem sentSafely_iff_parts :
    ∃ (b : Buffer UInt8) (s : Sending UInt8), b.contents = [1, 2] ∧ s.result = some 2 ∧
      SentSafely b s := by
  rcases exists_pair with ⟨b, hcontents, hiovec⟩
  have hrun : ((Sending.machine 0 (b.iovec true)).run (.construct 0 (b.iovec true))
      [.writev (.invoke 0), .writev (.sysret (.ok 1)), .writev (.invoke 0),
        .writev (.sysret (.ok 1))]).map Sending.result = some (some 2) := by
    rw [hiovec]
    decide +kernel
  rcases Option.map_eq_some_iff.mp hrun with ⟨s, hs, hresult⟩
  exact ⟨b, s, hcontents, hresult, (sentSafely_iff 0 hs).mpr (.inl (by simp [hcontents]))⟩

/-- The callback accesses {lit}`iov[0]` of an empty buffer, which has no segments. -/
theorem empty_out_of_bounds :
    ¬ ∀ (b : Buffer UInt8) (as : List Sending.Action) (s : Sending UInt8),
      (Sending.machine 0 (b.iovec true)).run (.construct 0 (b.iovec true)) as = some s →
      SentSafely b s := by
  intro hclaim
  have hempty : (Buffer.construct (α := UInt8) 1024 Buffer.zero_lt_1024).contents = [] :=
    List.eq_nil_of_length_eq_zero (Buffer.length_contents _)
  have hiovec := Buffer.iovec_eq_nil hempty
  have hsafe := hclaim (.construct 1024 Buffer.zero_lt_1024) [.writev (.invoke EPOLLOUT)] _ rfl
  refine hsafe.inBounds ?_
  rw [hiovec]
  rfl

end Connection
end CoEpoll
