import CoEpoll.CoRo.Lazy.Steps

/-!
# The Tasks run as their code in direct style

Main results:

- Theorem {lit}`runs_as_code`: no thread uses a null pointer or a destroyed frame, and every Task that has
  ended has ended as its code does when {lit}`co_await` of a Lazy is a plain call.
- Theorem {lit}`thread_goes_on`: a thread in a coroutine is never stuck.
- Theorem {lit}`exists_run_iff`: the first Task can end with an outcome exactly when its code does.
- Theorem {lit}`outcome_independent`: the schedule and the placing of the frames do not matter.
-/

namespace CoEpoll
namespace Lazy

open Direct Transition Assoc

variable {τ η σ V E X R : Type*} [DecidableEq τ] [DecidableEq η] {code : σ → Op σ ℕ V E X R}
  {s s' : State τ η σ V E X R} {rest : List (Activity τ η σ V E X R)}

/-- No thread uses a null pointer or a destroyed frame.  Every Task that has ended is an evaluation of
its code, whose {lit}`co_await`s of Lazies are plain calls and whose {lit}`GetTCB`s all give its own tid; every
Task that has not ended is a part of one. -/
theorem runs_as_code (h : (machine code).Reachable s) :
    s.fault = false ∧ (∀ e ∈ s.finished, Evals code e.1.tid e.1.body e.1.log e.2) ∧
      ∀ t tid p, s.frames t = some (.task tid p) →
        ∃ c, Steps code tid (.inside (s.record t).body []) (s.record t).log c := by
  rcases reachable_good h with ⟨acts, hgood⟩
  refine ⟨hgood.sound, hgood.ended, ?_⟩
  intro t tid p ht
  rcases List.mem_flatMap.mp ((hgood.cells.cells t _).mp ht) with ⟨A, hA, hmem⟩
  rcases task_mem_cells hmem with ⟨rfl, rfl⟩
  rcases hgood.runs A hA with ⟨_, c, _, hsteps⟩
  exact ⟨c, hsteps⟩

theorem sample_ends : ∃ s, (machine sample).run sampleStart (sampleCall ++ sampleEnd) = some s ∧
    s.finished = [(⟨0, 1, [.answered () 5]⟩, .ok 9)] :=
  ⟨_, rfl, rfl⟩

theorem runs_as_code_sample : ∃ s : State Unit ℕ ℕ ℕ String Unit ℕ, s.finished ≠ [] ∧
    s.fault = false ∧ Evals sample 1 0 [.answered () 5] (.ok 9) := by
  rcases sample_ends with ⟨s, hrun, hfinished⟩
  have hall := runs_as_code ⟨sampleStart, _, ⟨_, rfl⟩, hrun⟩
  refine ⟨s, by rw [hfinished]; exact List.cons_ne_nil _ _, hall.1, ?_⟩
  exact hall.2.1 (⟨0, 1, [.answered () 5]⟩, .ok 9) (hfinished ▸ List.mem_singleton_self _)

/-! ## A thread goes on until its coroutine waits -/

/-- The thread that acts. -/
def Action.thread : Action τ η σ R → Option τ
  | .schedule θ | .cpu θ | .call θ _ | .make_task θ _ _ | .suspend θ | .pass θ _ => some θ
  | .async_run _ _ _ | .wake _ _ => none

/-- A thread that is in a coroutine has a next step. -/
theorem thread_goes_on [Infinite η] (h : (machine code).Reachable s) {θ : τ}
    (hθ : s.cpu θ ≠ none) :
    ∃ a s', a.thread = some θ ∧ (machine code).step s a = some s' ∧ s'.fault = false := by
  rcases reachable_good h with ⟨acts, hgood⟩
  have hgoes : ∀ {a : Action τ η σ R} {acts' record finished}, a.thread = some θ →
      Leads code (step code s a) acts' record finished →
        ∃ a s', a.thread = some θ ∧ (machine code).step s a = some s' ∧ s'.fault = false := by
    rintro a acts' record finished hthread ⟨s', hstep, hgood', _⟩
    exact ⟨a, s', hthread, hstep, hgood'.sound⟩
  rcases Option.ne_none_iff_exists'.mp hθ with ⟨g, hcpu⟩
  rcases hgood.of_cpu hcpu with ⟨⟨t, tid, stage, place⟩, rest, h, hplace, _⟩
  dsimp only at hplace
  subst hplace
  rcases h.runs_head with ⟨_, c, hstands, _⟩
  cases hstands with
  | taken => exact hgoes (a := .cpu θ) rfl h.enter
  | start => exact hgoes (a := .cpu θ) rfl h.begin
  | @body g x cs =>
      cases hx : code x with
      | done o => exact hgoes (a := .cpu θ) rfl (h.finish hx)
      | ask k => exact hgoes (a := .cpu θ) rfl (h.ask hx)
      | spawn body x' => exact hgoes (a := .cpu θ) rfl (h.count hx)
      | call c k =>
          rcases h.cells.exists_free ∅ with ⟨callee, hfree, _⟩
          exact hgoes (a := .call θ callee) rfl (h.enterCallee hx hfree)
      | wait aw k => exact hgoes (a := .suspend θ) rfl (h.suspend hx)
  | counted hx =>
      rcases h.cells.exists_free ∅ with ⟨lazy, hlazy, _⟩
      rcases h.cells.exists_free {lazy} with ⟨task, htask, hne⟩
      rw [Finset.mem_singleton] at hne
      exact hgoes (a := .make_task θ lazy task) rfl (h.makeTask ⟨hlazy, htask, Ne.symm hne⟩)
  | resumed => exact hgoes (a := .cpu θ) rfl h.resumed
  | @returned g x o cs =>
      cases cs with
      | nil => exact hgoes (a := .cpu θ) rfl h.endTask
      | cons c cs => exact hgoes (a := .cpu θ) rfl h.giveBack

/-- In a run the thread of the sample has just come into the coroutine at {lit}`2`. -/
theorem thread_goes_on_sample : ∃ (s : State Unit ℕ ℕ ℕ String Unit ℕ)
    (a : Action Unit ℕ ℕ ℕ) (s' : State Unit ℕ ℕ ℕ String Unit ℕ),
    a.thread = some () ∧ (machine sample).step s a = some s' ∧ s'.fault = false := by
  have hrun : ∃ s, (machine sample).run sampleStart (sampleCall.take 5) = some s ∧
      s.cpu () = some 2 := ⟨_, rfl, rfl⟩
  rcases hrun with ⟨s, hrun, hcpu⟩
  have hθ : s.cpu () ≠ none := by simp [hcpu]
  rcases thread_goes_on ⟨sampleStart, _, ⟨_, rfl⟩, hrun⟩ hθ with ⟨a, s', hgoes⟩
  exact ⟨s, a, s', hgoes⟩

/-! ## Every evaluation is the run of a Task -/

/-- There is a run from {lit}`s` to {lit}`s'` in which the Task at {lit}`t` shows the events {lit}`es` and no Task ends. -/
structure Arrives (code : σ → Op σ ℕ V E X R) (t : η) (es : List (Event σ X R))
    (s s' : State τ η σ V E X R) : Prop where
  run : ∃ as, (machine code).run s as = some s'
  record : s'.record t = { s.record t with log := (s.record t).log ++ es }
  finished : s'.finished = s.finished

variable {t : η} {es fs : List (Event σ X R)}

theorem Arrives.refl (s : State τ η σ V E X R) : Arrives code t [] s s where
  run := ⟨[], rfl⟩
  record := by rw [List.append_nil]
  finished := rfl

theorem Arrives.trans {s₁ s₂ s₃ : State τ η σ V E X R} (h₁ : Arrives code t es s₁ s₂)
    (h₂ : Arrives code t fs s₂ s₃) : Arrives code t (es ++ fs) s₁ s₃ where
  run := by
    rcases h₁.run with ⟨as, has⟩
    rcases h₂.run with ⟨bs, hbs⟩
    refine ⟨as ++ bs, ?_⟩
    rw [Machine.run_append, has, Option.bind_some, hbs]
  record := by rw [h₂.record, h₁.record, List.append_assoc]
  finished := h₂.finished.trans h₁.finished

theorem Arrives.single {a : Action τ η σ R} (hstep : step code s a = some s')
    (hrecord : s'.record t = { s.record t with log := (s.record t).log ++ es })
    (hfinished : s'.finished = s.finished) : Arrives code t es s s' where
  run := ⟨[a], Machine.run_cons_eq_some.mpr ⟨s', hstep, rfl⟩⟩
  record := hrecord
  finished := hfinished

/-- A step that records nothing. -/
theorem Leads.arrives {a : Action τ η σ R} {acts : List (Activity τ η σ V E X R)}
    (h : Leads code (step code s a) acts s.record s.finished) :
    ∃ s', Arrives code t [] s s' ∧ Good code s' acts := by
  rcases h with ⟨s', hstep, hgood, hrecord, hfinished⟩
  refine ⟨s', Arrives.single hstep ?_ hfinished, hgood⟩
  rw [hrecord, List.append_nil]

/-- A step that records an event of the Task. -/
theorem Leads.arrives_event {a : Action τ η σ R} {e : Event σ X R}
    {acts : List (Activity τ η σ V E X R)} {record : η → Record σ X R}
    (h : Leads code (step code s a) acts record s.finished)
    (hrecord : record t = (s.record t).add e) :
    ∃ s', Arrives code t [e] s s' ∧ Good code s' acts := by
  rcases h with ⟨s', hstep, hgood, rfl, hfinished⟩
  exact ⟨s', Arrives.single hstep hrecord hfinished, hgood⟩

/-- What the code evaluates to, a Task can do on its thread. -/
theorem Good.realises [Infinite η] {tid : ℕ} {x : σ} {o : Except E V}
    (heval : Evals code tid x es o) {g : η} {cs : Callers η σ V E} {θ : τ}
    (h : Good code s (⟨t, tid, .inside g (.body x) cs, .on θ⟩ :: rest)) :
    ∃ s' rest' y, Arrives code t es s s' ∧ code y = .done o ∧
      Good code s' (⟨t, tid, .inside g (.body y) cs, .on θ⟩ :: rest') := by
  induction heval generalizing s rest g cs with
  | done hx => exact ⟨s, rest, _, .refl s, hx, h⟩
  | call hx _ _ ih₁ ih₂ =>
      rcases h.cells.exists_free ∅ with ⟨callee, hfree, _⟩
      rcases (h.enterCallee hx hfree).arrives (a := .call θ callee) with ⟨s₁, ha₁, h₁⟩
      rcases h₁.begin.arrives (a := .cpu θ) with ⟨s₂, ha₂, h₂⟩
      rcases ih₁ h₂ with ⟨s₃, rest₃, y, ha₃, hy, h₃⟩
      rcases (h₃.finish hy).arrives (a := .cpu θ) with ⟨s₄, ha₄, h₄⟩
      rcases h₄.giveBack.arrives (a := .cpu θ) with ⟨s₅, ha₅, h₅⟩
      rcases ih₂ h₅ with ⟨s₆, rest₆, z, ha₆, hz, h₆⟩
      refine ⟨s₆, rest₆, z, ?_, hz, h₆⟩
      have harrives := ((((ha₁.trans ha₂).trans ha₃).trans ha₄).trans ha₅).trans ha₆
      simpa using harrives
  | @wait x aw k r es o hx _ ih =>
      rcases (h.pass hx r).arrives_event (a := .pass θ r) (t := t) (Function.update_self _ _ _)
        with ⟨s₁, ha₁, h₁⟩
      rcases ih h₁ with ⟨s₂, rest₂, y, ha₂, hy, h₂⟩
      exact ⟨s₂, rest₂, y, ha₁.trans ha₂, hy, h₂⟩
  | ask hx _ ih =>
      rcases (h.ask hx).arrives (a := .cpu θ) with ⟨s₁, ha₁, h₁⟩
      rcases ih h₁ with ⟨s₂, rest₂, y, ha₂, hy, h₂⟩
      exact ⟨s₂, rest₂, y, ha₁.trans ha₂, hy, h₂⟩
  | spawn hx _ ih =>
      rcases (h.count hx).arrives (a := .cpu θ) with ⟨s₁, ha₁, h₁⟩
      rcases h₁.cells.exists_free ∅ with ⟨lazy, hlazy, _⟩
      rcases h₁.cells.exists_free {lazy} with ⟨task, htask, hne⟩
      rw [Finset.mem_singleton] at hne
      have hroot : t ≠ task := by
        rintro rfl
        rcases Activity.root_mem ⟨t, tid, .inside g (.counted s.cnt _ _) cs, .on θ⟩ with ⟨p, hp⟩
        have hcell := h₁.cells.get (List.mem_append_left _ hp)
        cases htask.symm.trans hcell
      have hmake := h₁.makeTask ⟨hlazy, htask, Ne.symm hne⟩
      rcases hmake.arrives_event (a := .make_task θ lazy task) (t := t)
        ((Function.update_of_ne hroot _ _).trans (Function.update_self _ _ _)) with ⟨s₂, ha₂, h₂⟩
      rcases ih (h₂.perm (List.Perm.swap _ _ _)) with ⟨s₃, rest₃, y, ha₃, hy, h₃⟩
      exact ⟨s₃, rest₃, y, (ha₁.trans ha₂).trans ha₃, hy, h₃⟩

/-- A Task that is made first can do what its code evaluates to. -/
theorem exists_run [Nonempty τ] [Infinite η] {body : σ} {log : List (Event σ X R)} {o : Except E V}
    (heval : Evals code 1 body log o) :
    ∃ s : State τ η σ V E X R, (machine code).Reachable s ∧ (⟨body, 1, log⟩, o) ∈ s.finished := by
  rcases ‹Nonempty τ› with ⟨θ⟩
  rcases Infinite.exists_notMem_finset (∅ : Finset η) with ⟨lazy, _⟩
  rcases Infinite.exists_notMem_finset {lazy} with ⟨t, hne⟩
  rw [Finset.mem_singleton] at hne
  let s₀ : State τ η σ V E X R := State.construct fun _ => ⟨body, 1, []⟩
  have hfresh : Fresh s₀ lazy t := ⟨rfl, rfl, Ne.symm hne⟩
  have h₁ : Good code (s₀.makeTask 1 body lazy t) [⟨t, 1, .made lazy body, .ready⟩] :=
    (Good.construct _).born hfresh
  let s₂ : State τ η σ V E X R :=
    { (s₀.makeTask 1 body lazy t).transfer θ (some t) with readyRo_ := [] }
  have h₂ : Good code s₂ [⟨t, 1, .made lazy body, .on θ⟩] := h₁.take rfl rfl (List.Perm.refl _)
  rcases h₂.enter.arrives (a := .cpu θ) (t := t) with ⟨s₃, ha₃, h₃⟩
  rcases h₃.begin.arrives (a := .cpu θ) (t := t) with ⟨s₄, ha₄, h₄⟩
  rcases Good.realises heval h₄ with ⟨s₅, rest₅, y, ha₅, hy, h₅⟩
  rcases (h₅.finish hy).arrives (a := .cpu θ) (t := t) with ⟨s₆, ha₆, h₆⟩
  rcases h₆.endTask with ⟨s₇, hstep, _, _, hfinished⟩
  have harrives := ((ha₃.trans ha₄).trans ha₅).trans ha₆
  rcases harrives.run with ⟨as, has⟩
  refine ⟨s₇, ⟨s₀, .async_run body lazy t :: .schedule θ :: (as ++ [.cpu θ]), ⟨_, rfl⟩, ?_⟩, ?_⟩
  · refine Machine.run_cons_eq_some.mpr ⟨s₀.makeTask 1 body lazy t, if_pos hfresh, ?_⟩
    refine Machine.run_cons_eq_some.mpr ⟨_, rfl, ?_⟩
    rw [Machine.run_append, Option.bind_eq_some_iff]
    exact ⟨s₆, has, Machine.run_cons_eq_some.mpr ⟨s₇, hstep, rfl⟩⟩
  · have hrecord : s₆.record t = ⟨body, 1, log⟩ := by
      have hmade : s₂.record t = ⟨body, 1, []⟩ := Function.update_self _ _ _
      rw [harrives.record, hmade]
      simp
    rw [hfinished, hrecord]
    exact List.mem_append_right _ (List.mem_singleton_self _)

/-- The first Task can end with an outcome after some events exactly when its code evaluates to it. -/
theorem exists_run_iff [Nonempty τ] [Infinite η] {body : σ} {log : List (Event σ X R)}
    {o : Except E V} :
    (∃ s : State τ η σ V E X R, (machine code).Reachable s ∧ (⟨body, 1, log⟩, o) ∈ s.finished) ↔
      Evals code 1 body log o := by
  constructor
  · rintro ⟨s, hreach, hmem⟩
    exact (runs_as_code hreach).2.1 _ hmem
  · exact exists_run

theorem exists_run_iff_sample : ∃ s : State Unit ℕ ℕ ℕ String Unit ℕ,
    (machine sample).Reachable s ∧ (⟨0, 1, [.answered () 5]⟩, .ok 9) ∈ s.finished := by
  apply exists_run_iff.mpr
  have hback : Evals sample 1 9 [] (.ok 9) := .done rfl
  have hcallee : Evals sample 1 1 [.answered () 5] (.ok 7) := by
    apply Evals.wait rfl
    exact .done rfl
  have hcall : sample 0 = .call 1 fun o => o.toOption.getD 0 + 2 := rfl
  exact .call hcall hcallee hback

/-- Two Tasks with the same code and tid that have been given the same answers have shown the same
events and have ended with the same outcome, on whatever threads and at whatever addresses. -/
theorem outcome_independent {τ' η' : Type*} [DecidableEq τ'] [DecidableEq η']
    {s' : State τ' η' σ V E X R} (h : (machine code).Reachable s)
    (h' : (machine code).Reachable s') {r r' : Record σ X R} {o o' : Except E V}
    (hr : (r, o) ∈ s.finished) (hr' : (r', o') ∈ s'.finished) (htid : r.tid = r'.tid)
    (hbody : r.body = r'.body) (hanswers : answers r.log = answers r'.log) :
    r.log = r'.log ∧ o = o' := by
  have heval := (runs_as_code h).2.1 _ hr
  have heval' := (runs_as_code h').2.1 _ hr'
  rw [← htid, ← hbody] at heval'
  exact heval.unique heval' hanswers

/-- The same code on another thread, at other addresses and with an awaiter that does not suspend it. -/
def samplePass : List (Action Bool ℕ ℕ ℕ) :=
  [.async_run 0 3 4, .schedule true, .cpu true, .cpu true, .call true 0, .cpu true, .pass true 5,
    .cpu true, .cpu true, .cpu true, .cpu true]

theorem outcome_independent_sample : ∃ (s : State Unit ℕ ℕ ℕ String Unit ℕ)
    (s' : State Bool ℕ ℕ ℕ String Unit ℕ) (r r' : Record ℕ Unit ℕ) (o o' : Except String ℕ),
    (r, o) ∈ s.finished ∧ (r', o') ∈ s'.finished ∧ r.log = r'.log ∧ o = o' := by
  rcases sample_ends with ⟨s, hrun, hfinished⟩
  have hpass : ∃ s', (machine sample).run (State.construct fun _ => ⟨0, 0, []⟩) samplePass = some s' ∧
      s'.finished = [(⟨0, 1, [.answered () 5]⟩, .ok 9)] := ⟨_, rfl, rfl⟩
  rcases hpass with ⟨s', hrun', hfinished'⟩
  have hmem : (⟨0, 1, [.answered () 5]⟩, .ok 9) ∈ s.finished :=
    hfinished ▸ List.mem_singleton_self _
  have hmem' : (⟨0, 1, [.answered () 5]⟩, .ok 9) ∈ s'.finished :=
    hfinished' ▸ List.mem_singleton_self _
  refine ⟨s, s', _, _, _, _, hmem, hmem', ?_⟩
  exact outcome_independent ⟨_, _, ⟨_, rfl⟩, hrun⟩ ⟨_, _, ⟨_, rfl⟩, hrun'⟩ hmem hmem' rfl rfl rfl

end Lazy
end CoEpoll
