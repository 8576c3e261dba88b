import CoEpoll.CoKernel.ICU
import CoEpoll.Transition.Machine
import Mathlib.Data.Finset.Basic

/-!
# `ICU::queueInLoop`: requests of other threads

A thread enqueues a function on {lit}`funcs_` and then writes to the ICU's eventfd, which is
registered edge-triggered.  The loop runs the queued functions at the start of a
pass and reads the eventfd later in the same pass, when it walks {lit}`list_`.  A request
that comes between the two is not run in this pass, and the read takes its write
away.

Main results:

- Theorem {lit}`noticed_of_notSwallowed`: as long as no read takes such a write away, no
  request is stranded in {lit}`epoll_wait`.
- Theorem {lit}`stranded_of_swallow`: after such a read the loop strands the request.
- Theorem {lit}`request_stranded`: a run in which it happens.
-/

namespace CoEpoll
namespace QueueInLoop

open Transition ICU

/-- An entry of {lit}`list_`: the eventfd's {lit}`FileWQ` or another one. -/
inductive Entry where
  | wakeUpWQ
  | other
deriving DecidableEq

/-- The loop, the kernel's side of the eventfd, and the threads that are between
their {lit}`enqueue` and their {lit}`write`. -/
structure State (φ κ : Type*) where
  funcs_ : List φ
  list_ : List Entry
  phase : Phase Entry
  counter : Nat
  pending : Bool
  writing : Finset κ

variable {φ κ : Type*}

/-- A new loop. -/
def State.construct : State φ κ where
  funcs_ := []
  list_ := []
  phase := .drain
  counter := 0
  pending := false
  writing := ∅

/-- The steps of the other threads, of the loop and of the kernel. -/
inductive Action (φ κ : Type*) where
  /-- {lit}`funcs_.enqueue`. -/
  | enqueue (c : κ) (func : φ)
  /-- {lit}`write` to the eventfd. -/
  | write (c : κ)
  /-- {lit}`funcs_.dequeue`, and a function that wakes {lit}`woken` other {lit}`FileWQ`s. -/
  | dequeue (woken : Nat)
  /-- The next entry of the walk, or the end of the walk. -/
  | walk
  /-- {lit}`epoll_wait` drops a pending eventfd whose counter is 0. -/
  | drop
  /-- {lit}`epoll_wait` returns {lit}`before` other events, the eventfd if it looks at it and finds
  it ready, and {lit}`after` other events. -/
  | wait (before after : Nat) (look : Bool)

/-- The eventfd is an event for {lit}`epoll_wait` to return. -/
def State.ready (s : State φ κ) : Bool :=
  s.pending && decide (0 < s.counter)

/-- The end of the drain, or one function of it. -/
def dequeue (s : State φ κ) (woken : Nat) : State φ κ :=
  match s.funcs_ with
  | [] => { s with phase := .walk s.list_ }
  | _ :: funcs => { s with
      funcs_ := funcs
      list_ := s.list_ ++ List.replicate woken .other }

/-- The events of one {lit}`epoll_wait`, in the order of {lit}`events_`. -/
def State.events (s : State φ κ) (before after : Nat) (look : Bool) : List Entry :=
  List.replicate before .other ++ (if look && s.ready then [.wakeUpWQ] else []) ++
    List.replicate after .other

/-- {lit}`epoll_wait` fills {lit}`list_` with at most 128 events; it leaves out a pending eventfd
only when 128 other events come first. -/
def wait (s : State φ κ) (before after : Nat) (look : Bool) : Option (State φ κ) :=
  if (s.events before after look).length ≤ 128 ∧
      (s.pending = true → look = true ∨ before = 128) then
    some { s with
      list_ := s.list_ ++ s.events before after look
      pending := s.pending && !look
      phase := .drain }
  else none

variable [DecidableEq κ]

/-- One step. -/
def step (s : State φ κ) : Action φ κ → Option (State φ κ)
  | .enqueue c func =>
      if c ∉ s.writing then
        some { s with
          funcs_ := s.funcs_ ++ [func]
          writing := insert c s.writing }
      else none
  | .write c =>
      if c ∈ s.writing then
        some { s with
          counter := s.counter + 1
          pending := true
          writing := s.writing.erase c }
      else none
  | .dequeue woken =>
      match s.phase with
      | .drain => some (dequeue s woken)
      | _ => none
  | .walk =>
      match s.phase with
      | .walk [] => some { s with list_ := [], phase := .poll }
      | .walk (.wakeUpWQ :: rest) => some { s with counter := 0, phase := .walk rest }
      | .walk (.other :: rest) => some { s with phase := .walk rest }
      | _ => none
  | .drop =>
      match s.phase with
      | .poll => if s.counter = 0 then some { s with pending := false } else none
      | _ => none
  | .wait before after look =>
      match s.phase with
      | .poll => wait s before after look
      | _ => none

/-- The loop and any number of other threads under any interleaving. -/
def machine : Machine (State φ κ) (Action φ κ) where
  init s := s = State.construct
  step := step

/-- A request waits, and every thread that has enqueued one has also written. -/
def State.Waiting (s : State φ κ) : Prop :=
  s.funcs_ ≠ [] ∧ s.writing = ∅

/-- A waiting request is noticed: {lit}`epoll_wait` has the eventfd to return. -/
def State.Noticed (s : State φ κ) : Prop :=
  s.Waiting → s.ready = true

/-- The eventfd is not read while a request waits whose thread has already written. -/
def NotSwallowed (s : State φ κ) : Action φ κ → Prop
  | .walk =>
      match s.phase with
      | .walk (.wakeUpWQ :: _) => s.funcs_.isEmpty = true ∨ s.writing ≠ ∅
      | _ => True
  | _ => True

instance (s : State φ κ) (a : Action φ κ) : Decidable (NotSwallowed s a) := by
  unfold NotSwallowed
  split
  · split <;> infer_instance
  · infer_instance

/-! ## Runs that swallow no write -/

/-- Outside the drain a waiting request is noticed. -/
def Inv (s : State φ κ) : Prop :=
  s.phase ≠ .drain → s.Noticed

variable {s s' : State φ κ}

omit [DecidableEq κ] in
/-- The loop leaves {lit}`epoll_wait` for the next drain. -/
theorem wait_eq_some {before after : Nat} {look : Bool}
    (h : wait s before after look = some s') : s'.phase = .drain ∧ s'.funcs_ = s.funcs_ := by
  unfold wait at h
  split at h
  next =>
    cases h
    exact ⟨rfl, rfl⟩
  next => cases h

/-- A thread that has enqueued will write; a thread that has written has made the
eventfd ready. -/
theorem Inv.step {a : Action φ κ} (h : Inv s) (hok : NotSwallowed s a)
    (hstep : step s a = some s') : Inv s' := by
  cases a with
  | enqueue c func =>
      simp only [QueueInLoop.step] at hstep
      split at hstep <;> cases hstep
      exact fun _ hwaiting => absurd hwaiting.2 (Finset.insert_ne_empty _ _)
  | write c =>
      simp only [QueueInLoop.step] at hstep
      split at hstep <;> cases hstep
      intro _ _
      simp [State.ready]
  | dequeue woken =>
      simp only [QueueInLoop.step] at hstep
      split at hstep <;> cases hstep
      next hphase =>
        unfold dequeue
        split
        next hnil => exact fun _ hwaiting => absurd hnil hwaiting.1
        next => exact fun hne => absurd hphase hne
  | walk =>
      simp only [QueueInLoop.step] at hstep
      split at hstep <;> cases hstep
      next hphase => exact fun _ => h (by rw [hphase]; simp)
      next rest hphase =>
        simp only [NotSwallowed, hphase, List.isEmpty_iff] at hok
        exact fun _ hwaiting => (hok.elim hwaiting.1 fun hne => hne hwaiting.2).elim
      next rest hphase => exact fun _ => h (by rw [hphase]; simp)
  | drop =>
      simp only [QueueInLoop.step] at hstep
      split at hstep
      next hphase =>
        split at hstep <;> cases hstep
        next hzero =>
          intro _ hwaiting
          have hready := h (by rw [hphase]; simp) hwaiting
          simp [State.ready, hzero] at hready
      next => cases hstep
  | wait before after look =>
      simp only [QueueInLoop.step] at hstep
      split at hstep
      next =>
        rcases wait_eq_some hstep with ⟨hphase, _⟩
        exact fun hne => absurd hphase hne
      next => cases hstep

/-- In every run that swallows no write, a request that waits in {lit}`epoll_wait` is
noticed. -/
theorem noticed_of_notSwallowed (s : State φ κ) (hs : (machine.restrict NotSwallowed).Reachable s)
    (hpoll : s.phase = .poll) : s.Noticed := by
  have hinv : (machine.restrict (σ := State φ κ) NotSwallowed).Inductive Inv :=
    { init := fun s hinit => by
        cases hinit
        exact fun hne => absurd rfl hne
      step := fun s a s' h hstep => by
        rcases Machine.restrict_step_eq_some.mp hstep with ⟨hok, hstep⟩
        exact Inv.step h hok hstep }
  exact hinv.reachable hs (by rw [hpoll]; simp)

/-- A request that comes while the loop is in {lit}`epoll_wait` is noticed. -/
theorem noticed_in_poll : ∃ s : State Unit Unit, (machine.restrict NotSwallowed).run
    State.construct [.dequeue 0, .walk, .enqueue () (), .write ()] = some s ∧
      s.Waiting ∧ s.Noticed := by
  refine ⟨_, rfl, ⟨by decide, by decide⟩, ?_⟩
  exact noticed_of_notSwallowed _ ⟨_, [.dequeue 0, .walk, .enqueue () (), .write ()], rfl, rfl⟩ rfl

/-! ## Reads that swallow a write -/

/-- The rest of a walk after the eventfd has been read. -/
theorem run_walk {rest : List Entry} (s : State φ κ) (hphase : s.phase = .walk rest)
    (hzero : s.counter = 0) :
    machine.run s (List.replicate (rest.length + 1) .walk) =
      some { s with list_ := [], phase := .poll } := by
  induction rest generalizing s with
  | nil => simp [Machine.run, machine, step, hphase]
  | cons entry rest ih =>
      have hnext : step s .walk = some { s with phase := .walk rest } := by
        cases entry with
        | other => simp [step, hphase]
        | wakeUpWQ => simp [step, hphase, ← hzero]
      rw [List.length_cons, List.replicate_succ, Machine.run_cons]
      change (step s .walk).bind _ = _
      rw [hnext]
      exact ih { s with phase := .walk rest } rfl hzero

/-- After a read that swallows a write the loop alone goes into {lit}`epoll_wait` with the
request waiting and nothing to return for it. -/
theorem stranded_of_swallow (s s' : State φ κ) (hswallow : ¬ NotSwallowed s .walk)
    (hstep : step s .walk = some s') :
    ∃ n t, machine.run s' (List.replicate n .walk) = some t ∧ t.phase = .poll ∧
      ¬ t.Noticed := by
  unfold NotSwallowed at hswallow
  simp only at hswallow
  split at hswallow
  next rest hphase =>
    rw [not_or, List.isEmpty_iff, not_ne_iff] at hswallow
    have hs' : { s with counter := 0, phase := .walk rest } = s' := by
      simpa [step, hphase] using hstep
    subst s'
    refine ⟨rest.length + 1, _, run_walk _ rfl rfl, rfl, fun hnoticed => ?_⟩
    have hready := hnoticed hswallow
    simp [State.ready] at hready
  next => exact absurd trivial hswallow

/-- One thread and two requests: the second comes between the end of the drain and
the read of the eventfd. -/
def secondRequest : List (Action Unit Unit) :=
  -- an empty pass, then the first request is noticed and run
  [.dequeue 0, .walk, .enqueue () (), .write (), .wait 0 0 true, .dequeue 0, .dequeue 0,
    -- the second request, and the rest of the pass
    .enqueue () (), .write (), .walk, .walk]

/-- The second request is stranded in {lit}`epoll_wait`. -/
theorem request_stranded :
    ∃ s, machine.run State.construct secondRequest = some s ∧ s.phase = .poll ∧
      s.Waiting ∧ s.ready = false := by
  refine ⟨_, rfl, rfl, ⟨by decide, by decide⟩, by decide⟩

end QueueInLoop
end CoEpoll
