import CoEpoll.CoKernel.CompStarter
import CoEpoll.CoKernel.ICU.QueueInLoop
import CoEpoll.CoKernel.Schedule

/-!
# `~CompStarter`: when the join returns

The destructor has stored {lit}`quit_` and waits for the thread.  The thread sees the store unless its own
{lit}`quit_.store(false)` has come behind it, and it sees it at the end of the pass that it is in.  An ICU
ends its pass when {lit}`epoll_wait` returns, which the write of {lit}`ICU::wakeUp` is to bring about; a CPU ends
it when {lit}`CoKernel::schedule` returns, and {lit}`CPU::quit` wakes nobody.  Nobody else calls {lit}`quit`, and
the queues {lit}`funcs_` and {lit}`readyRo_` are taken as atomic.

Main results:

- Theorem {lit}`joins_iff`: the thread comes to its end exactly from the states that are closing.
- Theorem {lit}`icu_joins_iff`: the join of an ICU, with and without events from elsewhere.
- Theorem {lit}`cpu_joins_iff`: the join of a CPU.
-/

namespace CoEpoll
namespace CompStarter

open Transition

variable {β ι : Type*}

/-- The thread goes on, and of the steps in and around its loop those that {lit}`ok` lets pass. -/
def OnItsOwn (ok : β → ι → Bool) (s : State β) : Action ι → Prop
  | .worker => True
  | .body i => ok s.body i = true
  | _ => False

instance (ok : β → ι → Bool) (s : State β) (a : Action ι) : Decidable (OnItsOwn ok s a) := by
  cases a <;> unfold OnItsOwn <;> infer_instance

section General

variable (L : Component β ι) (ok : β → ι → Bool)

/-- The thread can come to its end, so that {lit}`join` returns. -/
def Joins (s : State β) : Prop :=
  ∃ as t, ((machine L).restrict (OnItsOwn ok)).run s as = some t ∧ t.worker = .ended

/-- The pass that the loop is in can be completed. -/
inductive EndsPass : β → Prop
  | ends {b b' : β} {i : ι} : ok b i = true → L.step b i = some b' → L.own i = true →
      L.ends b i = true → EndsPass b
  | step {b b' : β} {i : ι} : ok b i = true → L.step b i = some b' → EndsPass b' → EndsPass b

/-- The thread has left its loop, or it will see {lit}`quit_` and comes to look at it. -/
def Closing (s : State β) : Prop :=
  s.worker.left = true ∨
    s.quit_ = true ∧ (s.worker = .check ∨ s.worker = .body ∧ EndsPass L ok s.body)

variable {L ok} {s s' : State β}

/-! ## No other state comes to an end -/

theorem guard_owner (ok : Bool) (t : State β) (ht : t.owner = s.owner) :
    (s.guard ok t).owner = s.owner := by
  cases ok with
  | true => exact ht
  | false => rfl

theorem drop_owner {t : State β} {ref inLoop : Bool} (hdrop : t.drop L ref inLoop = some s') :
    s'.owner = t.owner := by
  unfold State.drop at hdrop
  split at hdrop
  · rcases Option.ite_none_left_eq_some.mp hdrop with ⟨_, hdrop⟩
    cases hdrop
    rfl
  · cases hdrop
    rfl

/-- The steps of the thread move it alone. -/
theorem stepWorker_owner (hstep : s.stepWorker L = some s') : s'.owner = s.owner := by
  unfold State.stepWorker at hstep
  split at hstep
  case h_3 =>
    split at hstep
    · cases hstep
      rfl
    · rcases Option.ite_none_right_eq_some.mp hstep with ⟨_, hstep⟩
      cases hstep
      rfl
  case h_9 =>
    split at hstep
    · cases hstep
      rfl
    · exact (drop_owner hstep).trans rfl
  case h_10 => exact (drop_owner hstep).trans rfl
  all_goals
    cases hstep
    try exact guard_owner _ _ rfl

theorem stepBody_owner {i : ι} (hstep : s.stepBody L i = some s') : s'.owner = s.owner := by
  unfold State.stepBody at hstep
  split at hstep
  · split at hstep
    · rcases Option.map_eq_some_iff.mp hstep with ⟨b, _, rfl⟩
      exact guard_owner _ _ rfl
    · cases hstep
  · rcases Option.map_eq_some_iff.mp hstep with ⟨b, _, rfl⟩
    rfl

/-- While the thread is not in its loop yet, or {lit}`quit_` is not set, the thread is not closing. -/
theorem not_closing (hleft : s.worker.left = false)
    (hloop : s.quit_ = true → s.worker ≠ .check ∧ s.worker ≠ .body) : ¬ Closing L ok s := by
  rintro (hl | ⟨hquit, hcheck | ⟨hbody, _⟩⟩)
  · cases hleft.symm.trans hl
  · exact (hloop hquit).1 hcheck
  · exact (hloop hquit).2 hbody

theorem not_closing_guard {b : Bool} {t : State β} (hs : ¬ Closing L ok s) (ht : ¬ Closing L ok t) :
    ¬ Closing L ok (s.guard b t) := by
  cases b with
  | true => exact ht
  | false => exact hs

/-- The thread's steps outside the body lead only from a closing state to a closing one. -/
theorem Closing.of_worker (hstep : s.stepWorker L = some s') (hclosing : Closing L ok s') :
    Closing L ok s := by
  by_contra hnot
  refine absurd hclosing ?_
  cases hworker : s.worker with
  | switch =>
      simp only [State.stepWorker, hworker, Option.some.injEq] at hstep
      exact hstep ▸ not_closing_guard hnot (not_closing rfl fun _ => by simp)
  | publish =>
      simp only [State.stepWorker, hworker, Option.some.injEq] at hstep
      exact hstep ▸ not_closing_guard hnot (not_closing rfl fun _ => by simp)
  | getRun =>
      simp only [State.stepWorker, hworker] at hstep
      split at hstep
      · cases hstep
        exact not_closing rfl fun _ => by simp
      · rcases Option.ite_none_right_eq_some.mp hstep with ⟨_, hstep⟩
        cases hstep
        exact not_closing rfl fun _ => by simp
  | enter =>
      simp only [State.stepWorker, hworker, Option.some.injEq] at hstep
      exact hstep ▸ not_closing_guard hnot (not_closing rfl fun _ => by simp)
  | reset =>
      -- a quit_ that has been stored before is lost here
      simp only [State.stepWorker, hworker, Option.some.injEq] at hstep
      exact hstep ▸ not_closing_guard hnot (not_closing rfl fun hq => by cases hq)
  | check =>
      cases hquit : s.quit_ with
      | true => exact absurd (Or.inr ⟨hquit, Or.inl hworker⟩) hnot
      | false =>
          simp only [State.stepWorker, hworker, Option.some.injEq] at hstep
          refine hstep ▸ not_closing_guard hnot (not_closing ?_ fun hq => ?_)
          · simp [hquit, Worker.left]
          · cases hquit.symm.trans hq
  | body => simp only [State.stepWorker, hworker] at hstep; cases hstep
  | cleanup => exact absurd (Or.inl (by rw [hworker]; rfl)) hnot
  | clear => exact absurd (Or.inl (by rw [hworker]; rfl)) hnot
  | exit => exact absurd (Or.inl (by rw [hworker]; rfl)) hnot
  | ended => exact absurd (Or.inl (by rw [hworker]; rfl)) hnot

/-- So do the steps of the component. -/
theorem Closing.of_body {i : ι} (hok : ok s.body i = true) (hstep : s.stepBody L i = some s')
    (hclosing : Closing L ok s') : Closing L ok s := by
  unfold State.stepBody at hstep
  split at hstep
  · next hown =>
      split at hstep
      · next hworker =>
          rcases Option.map_eq_some_iff.mp hstep with ⟨b, hb, rfl⟩
          by_contra hnot
          refine absurd hclosing (not_closing_guard hnot ?_)
          -- the pass goes on, or it ends here
          cases hends : L.ends s.body i with
          | true =>
              refine not_closing rfl fun hquit => ?_
              exact absurd (Or.inr ⟨hquit, Or.inr ⟨hworker, .ends hok hb hown hends⟩⟩) hnot
          | false =>
              rintro (hleft | ⟨hquit, hcheck | ⟨_, hrest⟩⟩)
              · cases hleft
              · cases hcheck
              · exact hnot (Or.inr ⟨hquit, Or.inr ⟨hworker, .step hok hb hrest⟩⟩)
      · cases hstep
  · rcases Option.map_eq_some_iff.mp hstep with ⟨b, hb, rfl⟩
    rcases hclosing with hleft | ⟨hquit, hcheck | ⟨hbody, hends⟩⟩
    · exact Or.inl hleft
    · exact Or.inr ⟨hquit, Or.inl hcheck⟩
    · exact Or.inr ⟨hquit, Or.inr ⟨hbody, .step hok hb hends⟩⟩

theorem Closing.of_step {a : Action ι} (hok : OnItsOwn ok s a)
    (hstep : CompStarter.step L s a = some s') (hclosing : Closing L ok s') : Closing L ok s := by
  unfold CompStarter.step at hstep
  split at hstep
  · cases hstep
  · cases a with
    | worker => exact hclosing.of_worker hstep
    | body i => exact hclosing.of_body hok hstep
    | _ => cases hok

/-- From a state that is not closing the thread does not come to its end. -/
theorem Closing.of_joins (hjoins : Joins L ok s) : Closing L ok s := by
  rcases hjoins with ⟨as, t, hrun, hended⟩
  by_contra hnot
  have hkept := Machine.run_keep (I := fun s => ¬ Closing L ok s)
    (fun s a s' hs hstep => by
      rcases Machine.restrict_step_eq_some.mp hstep with ⟨hok, hstep⟩
      exact fun hclosing => hs (hclosing.of_step hok hstep)) hnot hrun
  exact hkept (Or.inl (by rw [hended]; rfl))

/-! ## A closing state comes to an end -/

theorem Joins.cons {a : Action ι} (hok : OnItsOwn ok s a)
    (hstep : CompStarter.step L s a = some s') (hjoins : Joins L ok s') : Joins L ok s := by
  rcases hjoins with ⟨as, t, hrun, hended⟩
  refine ⟨a :: as, t, ?_, hended⟩
  exact Machine.run_cons_eq_some.mpr ⟨s', Machine.restrict_step_eq_some.mpr ⟨hok, hstep⟩, hrun⟩

/-- Behind the constructor nothing undefined has happened to a thread that is in the loop. -/
theorem Inv.defined (h : Inv s) (hjoin : s.owner = .join) (hentered : s.worker.entered = true) :
    s.undefined = false := by
  by_contra hu
  rcases h.undef (by simpa using hu) with hc | hc
  · rw [hjoin] at hc
    cases hc
  · cases (h.entered hentered).symm.trans hc

/-- A step of the thread, while the owner waits. -/
theorem Inv.joins_worker (h : Inv s) (hjoin : s.owner = .join) (hentered : s.worker.entered = true)
    (t : State β) (hstep : s.stepWorker L = some t)
    (hnext : Inv t → t.owner = .join → Joins L ok t) : Joins L ok s := by
  have hdo : CompStarter.step L s .worker = some t := by
    rw [CompStarter.step, h.defined hjoin hentered]
    exact hstep
  exact .cons (a := .worker) trivial hdo
    (hnext (h.step hdo) ((stepWorker_owner hstep).trans hjoin))

theorem Inv.joins_exit (h : Inv s) (hjoin : s.owner = .join) (hworker : s.worker = .exit) :
    Joins L ok s := by
  have hcomp := h.comp_of_left (by rw [hworker]; rfl) (by rw [hworker]; rfl)
  refine h.joins_worker hjoin (by rw [hworker]; rfl)
    { s with loopComp := false, worker := .ended } ?_ fun _ _ => ⟨[], _, rfl, rfl⟩
  simp only [State.stepWorker, hworker]
  exact State.drop_of_held (by simp [State.held, hcomp])

theorem Inv.joins_clear (h : Inv s) (hjoin : s.owner = .join) (hworker : s.worker = .clear) :
    Joins L ok s := by
  have hcomp := h.comp_of_left (by rw [hworker]; rfl) (by rw [hworker]; rfl)
  refine h.joins_worker hjoin (by rw [hworker]; rfl)
    { s with comp_ := false, worker := .exit } ?_ fun h hjoin => h.joins_exit hjoin rfl
  simp only [State.stepWorker, hworker, h.lacks_eq_false (by simp [hworker])]
  exact State.drop_of_held (by simp [State.held, hcomp])

theorem Inv.joins_cleanup (h : Inv s) (hjoin : s.owner = .join) (hworker : s.worker = .cleanup) :
    Joins L ok s := by
  refine h.joins_worker hjoin (by rw [hworker]; rfl)
    { s with looping_ := false, worker := .clear } ?_ fun h hjoin => h.joins_clear hjoin rfl
  simp only [State.stepWorker, hworker, State.guard, h.alive (by simp [hjoin])]
  rfl

theorem Inv.joins_check (h : Inv s) (hjoin : s.owner = .join) (hworker : s.worker = .check)
    (hquit : s.quit_ = true) : Joins L ok s := by
  refine h.joins_worker hjoin (by rw [hworker]; rfl) { s with worker := .cleanup } ?_
    fun h hjoin => h.joins_cleanup hjoin rfl
  simp only [State.stepWorker, hworker, State.guard, h.alive (by simp [hjoin]), hquit]
  rfl

/-- A step of the component, while the owner waits. -/
theorem Inv.joins_body {i : ι} (h : Inv s) (hjoin : s.owner = .join) (hworker : s.worker = .body)
    (hok : ok s.body i = true) (t : State β) (hstep : s.stepBody L i = some t)
    (hnext : Inv t → t.owner = .join → Joins L ok t) : Joins L ok s := by
  have hdo : CompStarter.step L s (.body i) = some t := by
    rw [CompStarter.step, h.defined hjoin (by rw [hworker]; rfl)]
    exact hstep
  exact .cons (a := .body i) hok hdo (hnext (h.step hdo) ((stepBody_owner hstep).trans hjoin))

/-- A pass that can be completed brings the thread to its test of {lit}`quit_`. -/
theorem EndsPass.joins {b : β} (hends : EndsPass L ok b) (h : Inv s) (hjoin : s.owner = .join)
    (hworker : s.worker = .body) (hquit : s.quit_ = true) (hb : s.body = b) : Joins L ok s := by
  induction hends generalizing s with
  | @ends b b' i hok hstep hown hend =>
      subst hb
      refine h.joins_body hjoin hworker hok { s with body := b', worker := .check } ?_
        fun h hjoin => h.joins_check hjoin rfl hquit
      simp only [State.stepBody, hown, hworker, hstep, hend, State.guard, h.alive (by simp [hjoin])]
      rfl
  | @step b b' i hok hstep _ ih =>
      subst hb
      cases hown : L.own i with
      | false =>
          refine h.joins_body hjoin hworker hok
            { s with body := b', misused := s.misused || !s.there } ?_
            fun h hjoin => ih h hjoin hworker hquit rfl
          simp only [State.stepBody, hown, hstep]
          rfl
      | true =>
          cases hend : L.ends s.body i with
          | true =>
              refine h.joins_body hjoin hworker hok { s with body := b', worker := .check }
                ?_ fun h hjoin => h.joins_check hjoin rfl hquit
              simp only [State.stepBody, hown, hworker, hstep, hend, State.guard,
                h.alive (by simp [hjoin])]
              rfl
          | false =>
              refine h.joins_body hjoin hworker hok { s with body := b', worker := .body }
                ?_ fun h hjoin => ih h hjoin rfl hquit rfl
              simp only [State.stepBody, hown, hworker, hstep, hend, State.guard,
                h.alive (by simp [hjoin])]
              rfl

/-- While the destructor waits, the thread can come to its end exactly from the closing states. -/
theorem joins_iff (h : Inv s) (hjoin : s.owner = .join) : Joins L ok s ↔ Closing L ok s := by
  constructor
  · exact Closing.of_joins
  · rintro (hleft | ⟨hquit, hcheck | ⟨hbody, hends⟩⟩)
    · cases hworker : s.worker with
      | cleanup => exact h.joins_cleanup hjoin hworker
      | clear => exact h.joins_clear hjoin hworker
      | exit => exact h.joins_exit hjoin hworker
      | ended => exact ⟨[], s, rfl, hworker⟩
      | _ =>
          rw [hworker] at hleft
          cases hleft
    · exact h.joins_check hjoin hcheck hquit
    · exact hends.joins h hjoin hbody hquit rfl

end General

/-! ## The join of an ICU -/

section ICU

open QueueInLoop

variable {φ κ : Type*}

/-- What is still ahead of the walk over {lit}`list_` before the next {lit}`epoll_wait`. -/
def ahead (b : QueueInLoop.State φ κ) : List Entry :=
  match b.phase with
  | .drain => b.list_
  | .walk rest => rest
  | .poll => []

/-- Without other events: {lit}`epoll_wait` returns only with the eventfd, and with nothing else. -/
def alone (b : QueueInLoop.State φ κ) : QueueInLoop.Action φ κ → Bool
  | .enqueue _ _ => false
  | .write _ => false
  | .wait before after look => b.ready && look && before = 0 && after = 0
  | _ => true

variable [DecidableEq κ]

/-- {lit}`ICU::loop`; {lit}`quit` writes to the eventfd. -/
def icu : Component (QueueInLoop.State φ κ) (QueueInLoop.Action φ κ) where
  init := .construct
  step := QueueInLoop.step
  own
    | .enqueue _ _ => false
    | .write _ => false
    | _ => true
  ends _
    | .wait _ _ _ => true
    | _ => false
  wakeUp b := { b with counter := b.counter + 1, pending := true }

variable {b b' : QueueInLoop.State φ κ}

/-- What the eventfd and the walk are for the end of the pass was so before a step of the loop. -/
theorem awake_of_step {i : QueueInLoop.Action φ κ} (hok : alone b i = true)
    (hstep : QueueInLoop.step b i = some b') (hready : b'.ready = true)
    (hahead : .wakeUpWQ ∉ ahead b') : b.ready = true ∧ .wakeUpWQ ∉ ahead b := by
  cases i with
  | enqueue c func => cases hok
  | write c => cases hok
  | dequeue woken =>
      simp only [QueueInLoop.step] at hstep
      split at hstep <;> cases hstep
      next hphase =>
        unfold dequeue at hready hahead
        split at hready
        · simp_all [ahead, State.ready]
        · simp_all [ahead, State.ready]
  | walk =>
      simp only [QueueInLoop.step] at hstep
      split at hstep <;> cases hstep
      · next hphase => simp_all [ahead, State.ready]
      · simp [State.ready] at hready
      · next hphase => simp_all [ahead, State.ready]
  | drop =>
      simp only [QueueInLoop.step] at hstep
      split at hstep
      · rcases Option.ite_none_right_eq_some.mp hstep with ⟨_, hstep⟩
        cases hstep
        simp [State.ready] at hready
      · cases hstep
  | wait before after look =>
      simp only [QueueInLoop.step] at hstep
      split at hstep
      · next hphase =>
          simp only [alone, Bool.and_eq_true] at hok
          exact ⟨hok.1.1.1, by simp [ahead, hphase]⟩
      · cases hstep

/-- {lit}`epoll_wait` can return. -/
theorem endsPass_poll {ok : QueueInLoop.State φ κ → QueueInLoop.Action φ κ → Bool}
    (hphase : b.phase = .poll) (hok : ok b (.wait 0 0 true) = true) : EndsPass icu ok b := by
  have hwait : ∃ b', QueueInLoop.step b (.wait 0 0 true) = some b' := by
    simp only [QueueInLoop.step, hphase, QueueInLoop.wait]
    refine ⟨_, if_pos ⟨?_, fun _ => Or.inl trivial⟩⟩
    cases hready : b.ready <;> simp [QueueInLoop.State.events, hready]
  rcases hwait with ⟨b', hb'⟩
  exact .ends hok hb' rfl rfl

/-- The walk comes to {lit}`epoll_wait`, and leaves the eventfd alone that it has not ahead of it. -/
theorem endsPass_walk {ok : QueueInLoop.State φ κ → QueueInLoop.Action φ κ → Bool}
    (hwalk : ∀ b, ok b .walk = true) (rest : List Entry) (hphase : b.phase = .walk rest)
    (hpoll : ∀ b' : QueueInLoop.State φ κ, b'.phase = .poll →
      (.wakeUpWQ ∉ rest → b'.ready = b.ready) → EndsPass icu ok b') : EndsPass icu ok b := by
  induction rest generalizing b with
  | nil =>
      have hstep : QueueInLoop.step b .walk = some { b with list_ := [], phase := .poll } := by
        simp [QueueInLoop.step, hphase]
      exact .step (hwalk b) hstep (hpoll _ rfl fun _ => rfl)
  | cons entry rest ih =>
      cases entry with
      | other =>
          have hstep : QueueInLoop.step b .walk = some { b with phase := .walk rest } := by
            simp [QueueInLoop.step, hphase]
          refine .step (hwalk b) hstep (ih rfl fun b' hb' hready => hpoll b' hb' fun hnot => ?_)
          exact hready fun hmem => hnot (List.mem_cons_of_mem _ hmem)
      | wakeUpWQ =>
          have hstep : QueueInLoop.step b .walk =
              some { b with counter := 0, phase := .walk rest } := by
            simp [QueueInLoop.step, hphase]
          exact .step (hwalk b) hstep (ih rfl fun b' hb' _ => hpoll b' hb' fun hnot =>
            absurd List.mem_cons_self hnot)

/-- The loop comes to {lit}`epoll_wait`. -/
theorem endsPass_of_poll {ok : QueueInLoop.State φ κ → QueueInLoop.Action φ κ → Bool}
    (hwalk : ∀ b, ok b .walk = true) (hdequeue : ∀ b, ok b (.dequeue 0) = true)
    (hpoll : ∀ b' : QueueInLoop.State φ κ, b'.phase = .poll →
      (.wakeUpWQ ∉ ahead b → b'.ready = b.ready) → EndsPass icu ok b') : EndsPass icu ok b := by
  cases hphase : b.phase with
  | poll => exact hpoll b hphase fun _ => rfl
  | walk rest =>
      refine endsPass_walk hwalk rest hphase fun b' hb' hready => hpoll b' hb' fun hnot => ?_
      exact hready (by simpa [ahead, hphase] using hnot)
  | drain =>
      induction hfuncs : b.funcs_ generalizing b with
      | nil =>
          have hstep : QueueInLoop.step b (.dequeue 0) = some { b with phase := .walk b.list_ } := by
            simp [QueueInLoop.step, hphase, dequeue, hfuncs]
          refine .step (hdequeue b) hstep ?_
          refine endsPass_walk hwalk b.list_ rfl fun b' hb' hready => hpoll b' hb' fun hnot => ?_
          exact hready (by simpa [ahead, hphase] using hnot)
      | cons func funcs ih =>
          have hstep : QueueInLoop.step b (.dequeue 0) = some { b with funcs_ := funcs } := by
            simp [QueueInLoop.step, hphase, dequeue, hfuncs]
          refine .step (hdequeue b) hstep ?_
          refine ih (fun b' hb' hready => hpoll b' hb' fun hnot => hready ?_) hphase rfl
          simpa [ahead, hphase] using hnot

/-- Without other events the pass ends exactly when the eventfd is ready and the walk does not
read it first. -/
theorem endsPass_alone_iff :
    EndsPass icu alone b ↔ b.ready = true ∧ .wakeUpWQ ∉ ahead b := by
  constructor
  · intro hends
    induction hends with
    | @ends b b' i hok hstep _ hend =>
        cases i with
        | wait before after look =>
            simp only [icu, QueueInLoop.step] at hstep
            split at hstep
            · next hphase =>
                simp only [alone, Bool.and_eq_true] at hok
                exact ⟨hok.1.1.1, by simp [ahead, hphase]⟩
            · cases hstep
        | _ => cases hend
    | @step b b' i hok hstep _ ih => exact awake_of_step hok hstep ih.1 ih.2
  · rintro ⟨hready, hahead⟩
    refine endsPass_of_poll (fun _ => rfl) (fun _ => rfl) fun b' hb' hsame => ?_
    exact endsPass_poll hb' (by simp [alone, hsame hahead, hready])

/-- An ICU's join returns without other events exactly when the thread has left its loop, or is to see
{lit}`quit_` and the write of {lit}`wakeUp` is not swallowed; with other events, or behind the timeout of
{lit}`epoll_wait`, exactly when it has left its loop, or {lit}`quit_` is set and it is at its test or in a pass.
Nobody but the destructor calls {lit}`quit`. -/
theorem icu_joins_iff (s : State (QueueInLoop.State φ κ)) (hs : (machine icu).Reachable s)
    (hjoin : s.owner = .join) :
    (Joins icu alone s ↔ s.worker.left = true ∨ s.quit_ = true ∧ (s.worker = .check ∨
      s.worker = .body ∧ s.body.ready = true ∧ .wakeUpWQ ∉ ahead s.body)) ∧
    (Joins icu (fun _ _ => true) s ↔ s.worker.left = true ∨
      s.quit_ = true ∧ (s.worker = .check ∨ s.worker = .body)) := by
  have h := inductive_inv.reachable hs
  constructor
  · rw [joins_iff h hjoin, Closing, endsPass_alone_iff]
  · rw [joins_iff h hjoin, Closing]
    have hany : EndsPass icu (fun _ _ => true) s.body :=
      endsPass_of_poll (fun _ => rfl) (fun _ => rfl) fun b' hb' _ => endsPass_poll hb' rfl
    simp [hany]

end ICU

/-- An ICU is started and run, and gets a request; its destructor's write comes when the eventfd is
still ahead of the walk. -/
def swallowedQuit : List (Action (QueueInLoop.Action Unit Unit)) :=
  [.owner, .owner, .owner, .owner, .worker, .worker, .owner, .run, .worker, .worker, .worker, .worker,
    -- a pass that ends with the request's write
    .body (.dequeue 0), .body .walk, .body (.enqueue () ()), .body (.write ()),
    .body (.wait 0 0 true), .worker,
    .destroy, .owner, .owner, .owner, .owner]

/-- The destructor stores {lit}`quit_` before the loop has begun. -/
def lostQuit : List (Action (QueueInLoop.Action Unit Unit)) :=
  [.owner, .owner, .owner, .owner, .worker, .worker, .owner, .run, .worker, .worker,
    .destroy, .owner, .owner, .owner, .owner]

/-- The first join returns with the next event from elsewhere only, the second one never. -/
theorem icu_joins_iff_quits :
    (∃ s, (machine icu).run (.construct icu .COMP_ICU) swallowedQuit = some s ∧
      s.owner = .join ∧ ¬ Joins icu alone s ∧ Joins icu (fun _ _ => true) s) ∧
    ∃ s, (machine icu).run (.construct icu .COMP_ICU) lostQuit = some s ∧
      s.owner = .join ∧ ¬ Joins icu (fun _ _ => true) s := by
  have hreach : ∀ as s, (machine icu).run (.construct icu .COMP_ICU) as = some s →
      (machine (icu : Component (QueueInLoop.State Unit Unit) _)).Reachable s :=
    fun as s hrun => ⟨_, as, ⟨.COMP_ICU, rfl⟩, hrun⟩
  constructor
  · refine ⟨_, rfl, rfl, ?_, ?_⟩
    · rw [(icu_joins_iff _ (hreach swallowedQuit _ rfl) rfl).1]
      decide
    · rw [(icu_joins_iff _ (hreach swallowedQuit _ rfl) rfl).2]
      decide
  · refine ⟨_, rfl, rfl, ?_⟩
    rw [(icu_joins_iff _ (hreach lostQuit _ rfl) rfl).2]
    decide

/-! ## The join of a CPU -/

section CPU

variable {τ κ η : Type*} [Fintype τ] [DecidableEq τ] [DecidableEq κ]

/-- {lit}`CPU::loop` of the thread {lit}`t`, whose {lit}`scheCB_` is {lit}`CoKernel::schedule`; {lit}`quit` wakes nobody. -/
def cpu (t : τ) : Component (Schedule.State τ κ η) (Schedule.Action τ κ η) where
  init := .construct
  step := Schedule.step
  own
    | .cpu t' => t' = t
    | .spurious t' => t' = t
    | _ => false
  ends b
    | .cpu t' => match b.cpu t', b.readyRo_ with
      | .drain, [] => t' = t
      | _, _ => false
    | _ => false
  wakeUp b := b

/-- Only {lit}`t` goes on, and nobody wakes it. -/
def onlyCpu (t : τ) (_ : Schedule.State τ κ η) : Schedule.Action τ κ η → Bool
  | .cpu t' => t' = t
  | _ => false

/-- {lit}`schedule` comes to its end in {lit}`t` by itself: it has a handle or is behind one, or it finds one. -/
def finishes (t : τ) (b : Schedule.State τ κ η) : Prop :=
  match b.cpu t with
  | .lock => b.hmu = none ∧ b.readyRo_ ≠ []
  | .test => b.readyRo_ ≠ []
  | .sleep => False
  | .asleep => False
  | _ => True

variable {t : τ} {b b' : Schedule.State τ κ η}

omit [Fintype τ] [DecidableEq κ] in
/-- Whether {lit}`schedule` comes to its end is not decided by a step of the thread. -/
theorem finishes_of_step (hstep : b.stepCpu t = some b') (hfinishes : finishes t b') :
    finishes t b := by
  cases hcpu : b.cpu t with
  | lock =>
      simp only [Schedule.State.stepCpu, hcpu] at hstep
      rcases Option.ite_none_right_eq_some.mp hstep with ⟨hfree, hstep⟩
      cases hstep
      simp only [finishes, Schedule.State.onCpu, Function.update_self] at hfinishes
      simpa only [finishes, hcpu] using ⟨hfree, hfinishes⟩
  | test =>
      simp only [Schedule.State.stepCpu, hcpu] at hstep
      split at hstep
      · next hqueue => simp [finishes, hcpu, hqueue]
      · cases hstep
        simp [finishes, Schedule.State.onCpu] at hfinishes
  | sleep =>
      simp only [Schedule.State.stepCpu, hcpu] at hstep
      cases hstep
      simp [finishes, Schedule.State.onCpu] at hfinishes
  | asleep =>
      simp only [Schedule.State.stepCpu, hcpu] at hstep
      cases hstep
  | _ => simp [finishes, hcpu]

/-- A step of the thread by itself. -/
theorem EndsPass.cpu (hstep : b.stepCpu t = some b')
    (hrest : EndsPass (CompStarter.cpu t) (onlyCpu t) b') :
    EndsPass (CompStarter.cpu (κ := κ) t) (onlyCpu t) b :=
  .step (i := .cpu t) (decide_eq_true rfl) hstep hrest

/-- Behind a handle the thread empties the queue. -/
theorem endsPass_drain (hcpu : b.cpu t = .drain) : EndsPass (cpu t) (onlyCpu t) b := by
  induction hqueue : b.readyRo_ generalizing b with
  | nil =>
      have hstep : b.stepCpu t = some (b.onCpu t .lock) := by
        simp [Schedule.State.stepCpu, hcpu, hqueue]
      exact .ends (i := .cpu t) (decide_eq_true rfl) hstep (decide_eq_true rfl)
        (by simp [cpu, hcpu, hqueue])
  | cons h rest ih =>
      have htake : b.stepCpu t = some { b.onCpu t (.resume h) with readyRo_ := rest } := by
        simp [Schedule.State.stepCpu, hcpu, hqueue]
      have hresume : ∃ b', Schedule.State.stepCpu
          { b.onCpu t (.resume h) with readyRo_ := rest } t = some b' ∧
            b'.cpu t = .drain ∧ b'.readyRo_ = rest := by
        simp [Schedule.State.stepCpu, Schedule.State.onCpu]
      rcases hresume with ⟨b', hresume, hdrain, hrest⟩
      exact .cpu htake (.cpu hresume (ih hdrain hrest))

theorem endsPass_resume {h : η} (hcpu : b.cpu t = .resume h) :
    EndsPass (cpu t) (onlyCpu t) b := by
  have hstep : b.stepCpu t = some { b.onCpu t .drain with resumed := b.resumed ++ [h] } := by
    simp [Schedule.State.stepCpu, hcpu]
  exact .cpu hstep (endsPass_drain (by simp [Schedule.State.onCpu]))

theorem endsPass_unlock {h : η} (hcpu : b.cpu t = .unlock h) :
    EndsPass (cpu t) (onlyCpu t) b := by
  have hstep : b.stepCpu t = some { b.onCpu t (.resume h) with hmu := none } := by
    simp [Schedule.State.stepCpu, hcpu]
  exact .cpu hstep (endsPass_resume (h := h) (by simp [Schedule.State.onCpu]))

theorem endsPass_test (hcpu : b.cpu t = .test) (hqueue : b.readyRo_ ≠ []) :
    EndsPass (cpu t) (onlyCpu t) b := by
  rcases List.exists_cons_of_ne_nil hqueue with ⟨h, rest, hqueue⟩
  have hstep : b.stepCpu t = some { b.onCpu t (.unlock h) with readyRo_ := rest } := by
    simp [Schedule.State.stepCpu, hcpu, hqueue]
  exact .cpu hstep (endsPass_unlock (h := h) (by simp [Schedule.State.onCpu]))

theorem endsPass_lock (hcpu : b.cpu t = .lock) (hfree : b.hmu = none) (hqueue : b.readyRo_ ≠ []) :
    EndsPass (cpu t) (onlyCpu t) b := by
  have hstep : b.stepCpu t = some { b.onCpu t .test with hmu := some (.inl t) } := by
    simp [Schedule.State.stepCpu, hcpu, hfree]
  exact .cpu hstep (endsPass_test (by simp [Schedule.State.onCpu]) hqueue)

/-- By itself the thread completes its pass exactly when it has a handle, is behind one or finds one. -/
theorem endsPass_onlyCpu_iff : EndsPass (cpu t) (onlyCpu t) b ↔ finishes t b := by
  constructor
  · intro hends
    induction hends with
    | @ends b b' i hok hstep _ hend =>
        cases i with
        | cpu t' =>
            cases of_decide_eq_true hok
            simp only [cpu] at hend
            split at hend
            · next hcpu _ => simp [finishes, hcpu]
            · cases hend
        | _ => cases hok
    | @step b b' i hok hstep _ ih =>
        cases i with
        | cpu t' =>
            cases of_decide_eq_true hok
            exact finishes_of_step hstep ih
        | _ => cases hok
  · intro hfinishes
    unfold finishes at hfinishes
    cases hcpu : b.cpu t with
    | lock =>
        rw [hcpu] at hfinishes
        exact endsPass_lock hcpu hfinishes.1 hfinishes.2
    | test =>
        rw [hcpu] at hfinishes
        exact endsPass_test hcpu hfinishes
    | unlock h => exact endsPass_unlock hcpu
    | resume h => exact endsPass_resume hcpu
    | drain => exact endsPass_drain hcpu
    | _ =>
        rw [hcpu] at hfinishes
        exact hfinishes.elim

/-- The CPU threads go on, while nothing is passed to {lit}`wakeUpReady`. -/
def cpusOnly (_ : Schedule.State τ κ η) : Schedule.Action τ κ η → Bool
  | .cpu _ => true
  | _ => false

/-- The thread sleeps on {lit}`hcv`, or is about to. -/
def Dormant (t : τ) (b : Schedule.State τ κ η) : Prop :=
  b.cpu t = .sleep ∨ b.cpu t = .asleep

omit [Fintype τ] [DecidableEq κ] in
theorem stepCpu_of_ne {t' : τ} (hne : t ≠ t') (hstep : b.stepCpu t' = some b') :
    b'.cpu t = b.cpu t := by
  have hupdate : ∀ pc, Function.update b.cpu t' pc t = b.cpu t := fun pc =>
    Function.update_of_ne hne _ _
  unfold Schedule.State.stepCpu at hstep
  split at hstep
  · rcases Option.ite_none_right_eq_some.mp hstep with ⟨_, hstep⟩
    cases hstep
    exact hupdate _
  · split at hstep <;> cases hstep <;> exact hupdate _
  · cases hstep
    exact hupdate _
  · cases hstep
  · cases hstep
    exact hupdate _
  · cases hstep
    exact hupdate _
  · split at hstep <;> cases hstep <;> exact hupdate _

omit [Fintype τ] [DecidableEq κ] in
/-- No CPU thread wakes another one. -/
theorem Dormant.step {t' : τ} (h : Dormant t b) (hstep : b.stepCpu t' = some b') :
    Dormant t b' := by
  by_cases heq : t = t'
  · subst heq
    rcases h with hcpu | hcpu <;> simp only [Schedule.State.stepCpu, hcpu] at hstep
    · cases hstep
      exact Or.inr (Function.update_self ..)
    · cases hstep
  · rw [Dormant, stepCpu_of_ne heq hstep]
    exact h

/-- A pass in which the thread sleeps is not completed by the CPU threads. -/
theorem Dormant.not_endsPass (h : Dormant t b) : ¬ EndsPass (cpu t) cpusOnly b := by
  intro hends
  induction hends with
  | @ends b b' i hok hstep hown hend =>
      cases i with
      | cpu t' =>
          cases of_decide_eq_true hown
          simp only [cpu] at hend
          split at hend
          · next hcpu _ => rcases h with hd | hd <;> cases hcpu.symm.trans hd
          · cases hend
      | _ => cases hok
  | @step b b' i hok hstep _ ih =>
      cases i with
      | cpu t' => exact ih (h.step hstep)
      | _ => cases hok

/-- A CPU's join returns by itself exactly when the thread has left its loop, or is to see {lit}`quit_` and
has a handle, is behind one or finds one; a thread that sleeps is not brought to its end by the CPU
threads while nobody passes a handle to {lit}`wakeUpReady`; and one whose {lit}`quit_` has been overwritten comes
to no end at all, since nobody but the destructor calls {lit}`quit`. -/
theorem cpu_joins_iff (t : τ) (s : State (Schedule.State τ κ η))
    (hs : (machine (cpu t)).Reachable s) (hjoin : s.owner = .join) :
    (Joins (cpu t) (onlyCpu t) s ↔ s.worker.left = true ∨
      s.quit_ = true ∧ (s.worker = .check ∨ s.worker = .body ∧ finishes t s.body)) ∧
    (s.worker = .body → Dormant t s.body → ¬ Joins (cpu t) cpusOnly s) ∧
    (Joins (cpu t) (fun _ _ => true) s → s.worker.left = true ∨
      s.quit_ = true ∧ (s.worker = .check ∨ s.worker = .body)) := by
  have h := inductive_inv.reachable hs
  refine ⟨?_, fun hbody hdormant hjoins => ?_, fun hjoins => ?_⟩
  · rw [joins_iff h hjoin, Closing, endsPass_onlyCpu_iff]
  · rcases Closing.of_joins hjoins with hleft | ⟨_, hcheck | ⟨_, hends⟩⟩
    · rw [hbody] at hleft
      cases hleft
    · cases hbody.symm.trans hcheck
    · exact hdormant.not_endsPass hends
  · rcases Closing.of_joins hjoins with hleft | ⟨hquit, hcheck | ⟨hbody, _⟩⟩
    · exact Or.inl hleft
    · exact Or.inr ⟨hquit, Or.inl hcheck⟩
    · exact Or.inr ⟨hquit, Or.inr hbody⟩

end CPU

/-- The only CPU thread has gone to sleep when its starter is destroyed. -/
def sleepingCpu : List (Action (Schedule.Action Unit Unit Unit)) :=
  [.owner, .owner, .owner, .owner, .worker, .worker, .owner, .run, .worker, .worker, .worker, .worker,
    .body (.cpu ()), .body (.cpu ()), .body (.cpu ()),
    .destroy, .owner, .owner, .owner, .owner]

/-- Its join does not return. -/
theorem cpu_joins_iff_sleeping :
    ∃ s, (machine (cpu ())).run (.construct (cpu ()) .COMP_CPU) sleepingCpu = some s ∧
      s.owner = .join ∧ ¬ Joins (cpu ()) (onlyCpu ()) s ∧ ¬ Joins (cpu ()) cpusOnly s := by
  have hreach : ∀ s, (machine (cpu ())).run (.construct (cpu ()) .COMP_CPU) sleepingCpu = some s →
      (machine (cpu () : Component (Schedule.State Unit Unit Unit) _)).Reachable s :=
    fun s hrun => ⟨_, sleepingCpu, ⟨.COMP_CPU, rfl⟩, hrun⟩
  refine ⟨_, rfl, rfl, ?_, ?_⟩
  · rw [(cpu_joins_iff () _ (hreach _ rfl) rfl).1]
    rintro (hleft | ⟨_, hcheck | ⟨_, hfinishes⟩⟩)
    · cases hleft
    · cases hcheck
    · exact hfinishes
  · exact (cpu_joins_iff () _ (hreach _ rfl) rfl).2.1 rfl (Or.inr rfl)

end CompStarter
end CoEpoll
