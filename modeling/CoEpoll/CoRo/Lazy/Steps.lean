import CoEpoll.CoRo.Lazy.Activities

/-!
# What a step does to the frames of the Tasks

Main results:

- Theorem {lit}`Good.step`: every step keeps the memory made of the chains of the unfinished Tasks.
- Theorem {lit}`reachable_good`: so it is in every reachable state.
-/

namespace CoEpoll
namespace Lazy

open Direct Transition Assoc

variable {τ η σ V E X R : Type*} {code : σ → Op σ ℕ V E X R}
  {s s' : State τ η σ V E X R} {acts rest : List (Activity τ η σ V E X R)}

/-! ## Finding the Task of a step -/

/-- A thread that is in a coroutine is in the one that goes on next in some Task. -/
theorem Good.of_cpu (h : Good code s acts) {θ : τ} {g : η} (hcpu : s.cpu θ = some g) :
    ∃ A rest, Good code s (A :: rest) ∧ A.place = .on θ ∧ A.actor = g := by
  rcases List.mem_filterMap.mp ((h.seats.cells θ g).mp hcpu) with ⟨A, hA, hseat⟩
  rcases h.front hA with ⟨rest, hfront⟩
  refine ⟨A, rest, hfront, ?_⟩
  unfold Activity.seat at hseat
  split at hseat
  · rename_i θ' hplace
    cases hseat
    exact ⟨hplace, rfl⟩
  · cases hseat

/-- A coroutine at the head of the ready queue is the one that goes on next in some Task. -/
theorem Good.of_ready (h : Good code s acts) {g : η} {q : List η} (hq : s.readyRo_ = g :: q) :
    ∃ A rest, Good code s (A :: rest) ∧ A.place = .ready ∧ A.actor = g ∧
      q.Perm (rest.filterMap Activity.queued) := by
  have hmem : g ∈ s.readyRo_ := hq ▸ List.mem_cons_self
  rcases List.mem_filterMap.mp (h.queue.mem_iff.mp hmem) with ⟨A, hA, hqueued⟩
  rcases h.front hA with ⟨rest, hfront⟩
  have hqueue := hfront.queue
  rw [hq, List.filterMap_cons_some hqueued] at hqueue
  refine ⟨A, rest, hfront, ?_⟩
  unfold Activity.queued at hqueued
  split at hqueued
  · rename_i hplace
    cases hqueued
    exact ⟨hplace, rfl, hqueue.cons_inv⟩
  · cases hqueued

/-- A coroutine that waits is where its Task is. -/
theorem suspended_mem_cells {t g : η} {tid : ℕ} {stage : Stage η σ V E X R} {aw : X} {k : R → σ}
    {ret : Option R} {p : LazyPromise η V E}
    (hmem : (g, Frame.lazy (.suspended aw k ret) p) ∈ stage.cells t tid) :
    ∃ cs, stage = .inside g (.suspended aw k ret) cs ∧ p = ⟨some (parent t cs), some t, none⟩ := by
  have hspine : ∀ (cs : Callers η σ V E) (g' : η),
      (g, Frame.lazy (.suspended aw k ret) p) ∉ spine t tid g' cs := by
    intro cs
    induction cs with
    | nil => simp [spine]
    | cons c cs ih => simp [spine, ih]
  cases stage with
  | made g' body => simp [Stage.cells] at hmem
  | inside g' point cs =>
      rcases List.mem_cons.mp hmem with heq | hmem
      · cases heq
        exact ⟨cs, rfl, rfl⟩
      · exact absurd hmem (hspine cs g')
  | returned g' o cs =>
      rcases List.mem_cons.mp hmem with heq | hmem
      · cases heq
      · exact absurd hmem (hspine cs g')

theorem Good.of_suspended (h : Good code s acts) {g : η} {aw : X} {k : R → σ}
    {p : LazyPromise η V E} (hframe : s.frames g = some (.lazy (.suspended aw k none) p)) :
    ∃ t tid cs rest, p = ⟨some (parent t cs), some t, none⟩ ∧
      Good code s (⟨t, tid, .inside g (.suspended aw k none) cs, .waiting⟩ :: rest) := by
  rcases List.mem_flatMap.mp ((h.cells.cells g _).mp hframe) with ⟨⟨t, tid, stage, place⟩, hA, hmem⟩
  rcases h.front hA with ⟨rest, hfront⟩
  rcases suspended_mem_cells hmem with ⟨cs, hstage, rfl⟩
  dsimp only at hstage
  subst hstage
  rcases hfront.runs _ List.mem_cons_self with ⟨_, c, hstands, _⟩
  cases hstands
  exact ⟨t, tid, cs, rest, rfl, hfront⟩

/-- The coroutine that a thread is in. -/
theorem Good.cpu_eq {t : η} {tid : ℕ} {stage : Stage η σ V E X R} {θ : τ}
    (h : Good code s (⟨t, tid, stage, .on θ⟩ :: rest)) : s.cpu θ = some (stage.actor t) :=
  Holds.head h.seats

/-- A Task is recorded with its tid, and what is recorded is a run. -/
theorem Good.runs_head {t : η} {tid : ℕ} {stage : Stage η σ V E X R} {place : Place τ}
    (h : Good code s (⟨t, tid, stage, place⟩ :: rest)) :
    Activity.Runs ⟨t, tid, stage, place⟩ code (s.record t) :=
  h.runs _ List.mem_cons_self

/-- The record of a Task after a step of the stack machine that shows nothing. -/
theorem Activity.runs_silent {t : η} {tid : ℕ} {stage : Stage η σ V E X R} {place : Place τ}
    {record : Record σ X R} {c c' : Config σ V E} (hstep : Step code tid c [] c')
    (hstands : Stands code stage place c') (htid : record.tid = tid)
    (hsteps : Steps code tid (.inside record.body []) record.log c) :
    Activity.Runs ⟨t, tid, stage, place⟩ code record := by
  refine ⟨htid, c', hstands, ?_⟩
  have htail := hsteps.tail hstep
  rwa [List.append_nil] at htail

/-- The record of a Task after a step of the stack machine that shows an event. -/
theorem Activity.runs_event {t : η} {tid : ℕ} {stage : Stage η σ V E X R} {place : Place τ}
    {record : Record σ X R} {c c' : Config σ V E} {e : Event σ X R}
    (hstep : Step code tid c [e] c') (hstands : Stands code stage place c')
    (htid : record.tid = tid) (hsteps : Steps code tid (.inside record.body []) record.log c) :
    Activity.Runs ⟨t, tid, stage, place⟩ code (record.add e) :=
  ⟨htid, c', hstands, hsteps.tail hstep⟩

/-- The step leads to a state that is made of the given Tasks, with the given records. -/
def Leads (code : σ → Op σ ℕ V E X R) (step : Option (State τ η σ V E X R))
    (acts : List (Activity τ η σ V E X R)) (record : η → Record σ X R)
    (finished : List (Record σ X R × Except E V)) : Prop :=
  ∃ s', step = some s' ∧ Good code s' acts ∧ s'.record = record ∧ s'.finished = finished

theorem Leads.good {step : Option (State τ η σ V E X R)} {record : η → Record σ X R}
    {finished : List (Record σ X R × Except E V)} (h : Leads code step acts record finished)
    (hstep : step = some s') : Good code s' acts := by
  rcases h with ⟨s₁, hs₁, hgood, _⟩
  cases hs₁.symm.trans hstep
  exact hgood

/-- The frame that a thread is in, and the cells beside it. -/
theorem Good.cells_inside {t g : η} {tid : ℕ} {point : Point η σ V E X R}
    {cs : Callers η σ V E} {place : Place τ}
    (h : Good code s (⟨t, tid, .inside g point cs, place⟩ :: rest)) :
    Holds s.frames ((g, .lazy point ⟨some (parent t cs), some t, none⟩) ::
      (spine t tid g cs ++ rest.flatMap Activity.cells)) :=
  h.cells

theorem Good.frame_inside {t g : η} {tid : ℕ} {point : Point η σ V E X R}
    {cs : Callers η σ V E} {place : Place τ}
    (h : Good code s (⟨t, tid, .inside g point cs, place⟩ :: rest)) :
    s.frames g = some (.lazy point ⟨some (parent t cs), some t, none⟩) :=
  h.cells_inside.head

/-! ## A Task that goes on, on its thread -/

section Thread

variable [DecidableEq τ]

theorem Good.update_cpu {t : η} {tid : ℕ} {stage : Stage η σ V E X R} {θ : τ}
    (h : Good code s (⟨t, tid, stage, .on θ⟩ :: rest)) :
    s.cpu = Function.update s.cpu θ (some (stage.actor t)) := by
  rw [← h.cpu_eq, Function.update_eq_self]

/-- A Task goes on, on its thread. -/
theorem Good.goOn {t : η} {tid : ℕ} {stage stage' : Stage η σ V E X R} {θ : τ}
    (h : Good code s (⟨t, tid, stage, .on θ⟩ :: rest)) (hsound : s'.fault = false)
    (hcells : Holds s'.frames (stage'.cells t tid ++ rest.flatMap Activity.cells))
    (hcpu : s'.cpu = Function.update s.cpu θ (some (stage'.actor t)))
    (hqueue : s'.readyRo_ = s.readyRo_) (hrecord : ∀ t', t' ≠ t → s'.record t' = s.record t')
    (hruns : Activity.Runs ⟨t, tid, stage', .on θ⟩ code (s'.record t))
    (hfinished : s'.finished = s.finished) :
    Good code s' (⟨t, tid, stage', .on θ⟩ :: rest) := by
  have hseats : Holds s'.cpu ((θ, stage'.actor t) :: rest.filterMap Activity.seat) := by
    rw [hcpu]
    exact Holds.write h.seats _
  have hready : s'.readyRo_.Perm (rest.filterMap Activity.queued) := hqueue ▸ h.queue
  exact h.move (C := ⟨t, tid, stage', .on θ⟩) rfl hsound hcells hseats hready hrecord hruns
    hfinished

end Thread


section Steps

variable [DecidableEq τ] [DecidableEq η]

/-! ## The steps of a thread -/

omit [DecidableEq τ] in
theorem awaitSuspend_eq {g c : η} {point : Point η σ V E X R} {p : LazyPromise η V E}
    {f : Frame η σ V E X R} (hg : s.frames g = some (.lazy point p)) (hc : s.frames c = some f) :
    s.awaitSuspend g c =
      s.write g (.lazy point { p with _continuation := some c, _tcb := f.tcb c }) := by
  rw [State.awaitSuspend, hg, hc]

omit [DecidableEq τ] in
theorem awaitResume_eq {g : η} {c t : Option η} {o : Except E V}
    (hg : s.frames g = some (.lazy .final ⟨c, t, some o⟩)) :
    s.awaitResume g = some (o, s.destroy g) := by
  rw [State.awaitResume, hg]
  rfl

/-- The first step of a Task awaits the Lazy that it has been made for. -/
theorem Good.enter {t g : η} {tid : ℕ} {body : σ} {θ : τ}
    (h : Good code s (⟨t, tid, .made g body, .on θ⟩ :: rest)) :
    Leads code (stepCpu code s θ) (⟨t, tid, .inside g (.start body) [], .on θ⟩ :: rest)
      s.record s.finished := by
  have hcells : Holds s.frames ((t, .task tid (.start g)) :: (g, .lazy (.start body) .construct) ::
      rest.flatMap Activity.cells) := h.cells
  have hcpu : s.cpu θ = some t := h.cpu_eq
  have hwrite := hcells.write (.task tid (.await g))
  have hsuspend : State.awaitSuspend (s.write t (.task tid (.await g))) g t =
      (s.write t (.task tid (.await g))).write g
        (.lazy (.start body) ⟨some t, some t, none⟩) :=
    awaitSuspend_eq (s := s.write t (.task tid (.await g))) hwrite.swap.head hwrite.head
  have hstep : stepCpu code s θ = some (((s.write t (.task tid (.await g))).write g
      (.lazy (.start body) ⟨some t, some t, none⟩)).transfer θ (some g)) := by
    simp only [stepCpu, hcpu, hcells.head, hsuspend]
  rcases h.runs_head with ⟨htid, c, hstands, hsteps⟩
  cases hstands
  refine ⟨_, hstep, ?_, rfl, rfl⟩
  exact h.goOn h.sound (hwrite.swap.write _) rfl rfl (fun _ _ => rfl) ⟨htid, _, .start, hsteps⟩ rfl

/-- The coroutine goes from one point to another one, and nothing else changes. -/
theorem Good.writePoint {t g : η} {tid : ℕ} {point point' : Point η σ V E X R}
    {cs : Callers η σ V E} {θ : τ}
    (h : Good code s (⟨t, tid, .inside g point cs, .on θ⟩ :: rest))
    (hruns : Activity.Runs ⟨t, tid, .inside g point' cs, .on θ⟩ code (s.record t)) :
    Good code (s.write g (.lazy point' ⟨some (parent t cs), some t, none⟩))
      (⟨t, tid, .inside g point' cs, .on θ⟩ :: rest) :=
  h.goOn h.sound (h.cells_inside.write _) h.update_cpu rfl (fun _ _ => rfl) hruns rfl

/-- A coroutine begins. -/
theorem Good.begin {t g : η} {tid : ℕ} {x : σ} {cs : Callers η σ V E} {θ : τ}
    (h : Good code s (⟨t, tid, .inside g (.start x) cs, .on θ⟩ :: rest)) :
    Leads code (stepCpu code s θ) (⟨t, tid, .inside g (.body x) cs, .on θ⟩ :: rest)
      s.record s.finished := by
  have hcpu : s.cpu θ = some g := h.cpu_eq
  rcases h.runs_head with ⟨htid, c, hstands, hsteps⟩
  cases hstands
  exact ⟨_, by simp only [stepCpu, hcpu, h.frame_inside],
    h.writePoint ⟨htid, _, .body, hsteps⟩, rfl, rfl⟩

/-- A coroutine that has been woken goes on with the answer. -/
theorem Good.resumed {t g : η} {tid : ℕ} {aw : X} {k : R → σ} {r : R} {cs : Callers η σ V E}
    {θ : τ}
    (h : Good code s (⟨t, tid, .inside g (.suspended aw k (some r)) cs, .on θ⟩ :: rest)) :
    Leads code (stepCpu code s θ) (⟨t, tid, .inside g (.body (k r)) cs, .on θ⟩ :: rest)
      s.record s.finished := by
  have hcpu : s.cpu θ = some g := h.cpu_eq
  rcases h.runs_head with ⟨htid, c, hstands, hsteps⟩
  cases hstands
  exact ⟨_, by simp only [stepCpu, hcpu, h.frame_inside],
    h.writePoint ⟨htid, _, .body, hsteps⟩, rfl, rfl⟩

theorem Good.stepCpu_body {t g : η} {tid : ℕ} {x : σ} {cs : Callers η σ V E} {θ : τ}
    (h : Good code s (⟨t, tid, .inside g (.body x) cs, .on θ⟩ :: rest)) :
    stepCpu code s θ = stepBody code s θ g ⟨some (parent t cs), some t, none⟩ x := by
  have hcpu : s.cpu θ = some g := h.cpu_eq
  simp only [stepCpu, hcpu, h.frame_inside]

/-- {lit}`GetTCB` finds the tid of the coroutine's own Task. -/
theorem Good.ask {t g : η} {tid : ℕ} {x : σ} {k : ℕ → σ} {cs : Callers η σ V E} {θ : τ}
    (h : Good code s (⟨t, tid, .inside g (.body x) cs, .on θ⟩ :: rest)) (hx : code x = .ask k) :
    Leads code (stepCpu code s θ) (⟨t, tid, .inside g (.body (k tid)) cs, .on θ⟩ :: rest)
      s.record s.finished := by
  rcases root_mem_spine (X := X) (R := R) t tid g cs with ⟨p, hp⟩
  have ht : s.frames t = some (.task tid p) :=
    h.cells_inside.get (List.mem_cons_of_mem _ (List.mem_append_left _ hp))
  rcases h.runs_head with ⟨htid, c, hstands, hsteps⟩
  cases hstands
  refine ⟨_, ?_, h.writePoint (Activity.runs_silent (.ask hx) .body htid hsteps), rfl, rfl⟩
  rw [h.stepCpu_body, stepBody, hx]
  simp only [Option.bind_some, ht]

/-- {lit}`make_task` reads {lit}`cnt`. -/
theorem Good.count {t g : η} {tid : ℕ} {x x' body : σ} {cs : Callers η σ V E} {θ : τ}
    (h : Good code s (⟨t, tid, .inside g (.body x) cs, .on θ⟩ :: rest))
    (hx : code x = .spawn body x') :
    Leads code (stepCpu code s θ) (⟨t, tid, .inside g (.counted s.cnt body x') cs, .on θ⟩ :: rest)
      s.record s.finished := by
  rcases h.runs_head with ⟨htid, c, hstands, hsteps⟩
  cases hstands
  refine ⟨_, ?_, h.writePoint ⟨htid, _, .counted hx, hsteps⟩, rfl, rfl⟩
  rw [h.stepCpu_body, stepBody, hx]

/-- A coroutine ends and hands its thread to the one that awaits it. -/
theorem Good.finish {t g : η} {tid : ℕ} {x : σ} {o : Except E V} {cs : Callers η σ V E} {θ : τ}
    (h : Good code s (⟨t, tid, .inside g (.body x) cs, .on θ⟩ :: rest)) (hx : code x = .done o) :
    Leads code (stepCpu code s θ) (⟨t, tid, .returned g o cs, .on θ⟩ :: rest)
      s.record s.finished := by
  rcases h.runs_head with ⟨htid, c, hstands, hsteps⟩
  cases hstands
  have hstep : stepCpu code s θ = some ((s.write g (.lazy .final
      ⟨some (parent t cs), some t, some o⟩)).transfer θ (some (parent t cs))) := by
    rw [h.stepCpu_body, stepBody, hx]
    rfl
  refine ⟨_, hstep, ?_, rfl, rfl⟩
  exact h.goOn h.sound (h.cells_inside.write _) rfl rfl (fun _ _ => rfl)
    ⟨htid, _, .returned hx, hsteps⟩ rfl

/-- A caller gets the outcome, and the callee's frame is destroyed. -/
theorem Good.giveBack {t g p : η} {tid : ℕ} {o : Except E V} {k : Except E V → σ}
    {cs : Callers η σ V E} {θ : τ}
    (h : Good code s (⟨t, tid, .returned g o ((p, k) :: cs), .on θ⟩ :: rest)) :
    Leads code (stepCpu code s θ) (⟨t, tid, .inside p (.body (k o)) cs, .on θ⟩ :: rest)
      s.record s.finished := by
  have hcells : Holds s.frames ((g, .lazy .final ⟨some p, some t, some o⟩) ::
      (p, .lazy (.await g k) ⟨some (parent t cs), some t, none⟩) ::
      (spine t tid p cs ++ rest.flatMap Activity.cells)) := h.cells
  have hcpu : s.cpu θ = some p := h.cpu_eq
  rcases h.runs_head with ⟨htid, c, hstands, hsteps⟩
  cases hstands with
  | returned hx =>
  have hresume := awaitResume_eq hcells.head
  have hstep : stepCpu code s θ = some ((s.destroy g).write p
      (.lazy (.body (k o)) ⟨some (parent t cs), some t, none⟩)) := by
    simp only [stepCpu, hcpu, hcells.swap.head, hresume]
  refine ⟨_, hstep, ?_, rfl, rfl⟩
  exact h.goOn h.sound (hcells.free.write _) h.update_cpu rfl (fun _ _ => rfl)
    (Activity.runs_silent (.back hx) .body htid hsteps) rfl

/-- The Task's coroutine has ended, and the Task ends with it. -/
theorem Good.endTask {t g : η} {tid : ℕ} {o : Except E V} {θ : τ}
    (h : Good code s (⟨t, tid, .returned g o [], .on θ⟩ :: rest)) :
    Leads code (stepCpu code s θ) rest s.record (s.finished ++ [(s.record t, o)]) := by
  have hcells : Holds s.frames ((g, .lazy .final ⟨some t, some t, some o⟩) ::
      (t, .task tid (.await g)) :: rest.flatMap Activity.cells) := h.cells
  have hcpu : s.cpu θ = some t := h.cpu_eq
  rcases h.runs_head with ⟨htid, c, hstands, hsteps⟩
  cases hstands with
  | returned hx =>
  have hresume := awaitResume_eq hcells.head
  have hstep : stepCpu code s θ = some { ((s.destroy g).destroy t).transfer θ none with
      finished := s.finished ++ [(s.record t, o)] } := by
    simp only [stepCpu, hcpu, hcells.swap.head, hresume]
  have hseats : Holds s.cpu ((θ, t) :: rest.filterMap Activity.seat) := h.seats
  refine ⟨_, hstep, ?_, rfl, rfl⟩
  constructor
  · exact h.sound
  · exact hcells.free.free
  · exact hseats.free
  · exact h.queue
  · intro B hB
    exact h.runs B (List.mem_cons_of_mem _ hB)
  · intro e he
    rcases List.mem_append.mp he with he | he
    · exact h.ended e he
    · rw [List.mem_singleton.mp he]
      have hover := hsteps.tail (.ended hx)
      rw [List.append_nil] at hover
      dsimp only at htid
      rw [htid]
      exact steps_iff_evals.mp hover

/-! ## Calling, suspending and waking -/

omit [DecidableEq τ] [DecidableEq η] in
theorem Good.current_eq {t g : η} {tid : ℕ} {point : Point η σ V E X R} {cs : Callers η σ V E}
    {θ : τ} (h : Good code s (⟨t, tid, .inside g point cs, .on θ⟩ :: rest)) :
    s.current θ = some (g, point, ⟨some (parent t cs), some t, none⟩) := by
  have hcpu : s.cpu θ = some g := h.cpu_eq
  simp only [State.current, hcpu, h.frame_inside]

/-- A coroutine calls another one: the frames are linked, and the thread goes on in the callee. -/
theorem Good.enterCallee {t g callee : η} {tid : ℕ} {x c : σ} {k : Except E V → σ}
    {cs : Callers η σ V E} {θ : τ}
    (h : Good code s (⟨t, tid, .inside g (.body x) cs, .on θ⟩ :: rest)) (hx : code x = .call c k)
    (hfree : s.frames callee = none) :
    Leads code (stepCall code s θ callee)
      (⟨t, tid, .inside callee (.start c) ((g, k) :: cs), .on θ⟩ :: rest)
      s.record s.finished := by
  have hmade := h.cells_inside.alloc hfree (.lazy (.start c) .construct)
  have hwrite := hmade.swap.write (.lazy (.await callee k) ⟨some (parent t cs), some t, none⟩)
  rcases h.runs_head with ⟨htid, c', hstands, hsteps⟩
  cases hstands
  let s₁ := (s.write callee (.lazy (.start c) .construct)).write g
    (.lazy (.await callee k) ⟨some (parent t cs), some t, none⟩)
  have hsuspend : s₁.awaitSuspend callee g =
      s₁.write callee (.lazy (.start c) ⟨some g, some t, none⟩) :=
    awaitSuspend_eq (s := s₁) hwrite.swap.head hwrite.head
  have hstep : stepCall code s θ callee = some ((s₁.write callee
      (.lazy (.start c) ⟨some g, some t, none⟩)).transfer θ (some callee)) := by
    simp only [stepCall, h.current_eq, hx, hfree, Option.isNone_none, if_true, ← hsuspend, s₁]
  refine ⟨_, hstep, ?_, rfl, rfl⟩
  exact h.goOn h.sound (hwrite.swap.write _) rfl rfl (fun _ _ => rfl)
    (Activity.runs_silent (.call hx) .start htid hsteps) rfl

omit [DecidableEq τ] in
/-- What is recorded of a coroutine is recorded of its Task. -/
theorem Good.note_eq {t g : η} {tid : ℕ} {point : Point η σ V E X R} {cs : Callers η σ V E}
    {place : Place τ} (h : Good code s (⟨t, tid, .inside g point cs, place⟩ :: rest))
    (e : Event σ X R) :
    s.note g e = { s with record := Function.update s.record t ((s.record t).add e) } := by
  simp only [State.note, h.frame_inside, Option.bind_some, Frame.tcb]

/-- The awaiter does not suspend the coroutine. -/
theorem Good.pass {t g : η} {tid : ℕ} {x : σ} {aw : X} {k : R → σ} {cs : Callers η σ V E} {θ : τ}
    (h : Good code s (⟨t, tid, .inside g (.body x) cs, .on θ⟩ :: rest)) (hx : code x = .wait aw k)
    (r : R) :
    Leads code (stepPass code s θ r) (⟨t, tid, .inside g (.body (k r)) cs, .on θ⟩ :: rest)
      (Function.update s.record t ((s.record t).add (.answered aw r))) s.finished := by
  have hstep : stepPass code s θ r = some ((s.note g (.answered aw r)).write g
      (.lazy (.body (k r)) ⟨some (parent t cs), some t, none⟩)) := by
    simp only [stepPass, h.current_eq, hx]
  rcases h.runs_head with ⟨htid, c, hstands, hsteps⟩
  cases hstands
  rw [h.note_eq] at hstep
  refine ⟨_, hstep, ?_, rfl, rfl⟩
  refine h.goOn h.sound (h.cells_inside.write _) h.update_cpu rfl ?_ ?_ rfl
  · intro t' ht'
    exact Function.update_of_ne ht' _ _
  · show Activity.Runs _ code (Function.update s.record t _ t)
    rw [Function.update_self]
    exact Activity.runs_event (.wait r hx) .body htid hsteps

/-- The awaiter suspends the coroutine, and the thread is free. -/
theorem Good.suspend {t g : η} {tid : ℕ} {x : σ} {aw : X} {k : R → σ} {cs : Callers η σ V E}
    {θ : τ} (h : Good code s (⟨t, tid, .inside g (.body x) cs, .on θ⟩ :: rest))
    (hx : code x = .wait aw k) :
    Leads code (stepSuspend code s θ)
      (⟨t, tid, .inside g (.suspended aw k none) cs, .waiting⟩ :: rest) s.record s.finished := by
  have hstep : stepSuspend code s θ = some ((s.write g
      (.lazy (.suspended aw k none) ⟨some (parent t cs), some t, none⟩)).transfer θ none) := by
    simp only [stepSuspend, h.current_eq, hx]
  rcases h.runs_head with ⟨htid, c, hstands, hsteps⟩
  cases hstands
  have hseats : Holds s.cpu ((θ, g) :: rest.filterMap Activity.seat) := h.seats
  refine ⟨_, hstep, ?_, rfl, rfl⟩
  exact h.move (C := ⟨t, tid, .inside g (.suspended aw k none) cs, .waiting⟩) rfl h.sound
    (h.cells_inside.write _) hseats.free h.queue (fun _ _ => rfl)
    ⟨htid, _, .waiting hx, hsteps⟩ rfl

omit [DecidableEq τ] in
/-- The party outside answers, and the coroutine is put on the ready queue. -/
theorem Good.wake {t g : η} {tid : ℕ} {aw : X} {k : R → σ} {cs : Callers η σ V E}
    (h : Good code s (⟨t, tid, .inside g (.suspended aw k none) cs, .waiting⟩ :: rest)) (r : R) :
    Leads code (stepWake s g r)
      (⟨t, tid, .inside g (.suspended aw k (some r)) cs, .ready⟩ :: rest)
      (Function.update s.record t ((s.record t).add (.answered aw r))) s.finished := by
  have hstep : stepWake s g r = some (((s.note g (.answered aw r)).write g
      (.lazy (.suspended aw k (some r)) ⟨some (parent t cs), some t, none⟩)).wakeUpReady g) := by
    simp only [stepWake, h.frame_inside]
  rcases h.runs_head with ⟨htid, c, hstands, hsteps⟩
  cases hstands with
  | waiting hx =>
  rw [h.note_eq] at hstep
  refine ⟨_, hstep, ?_, rfl, rfl⟩
  refine h.move (C := ⟨t, tid, .inside g (.suspended aw k (some r)) cs, .ready⟩) rfl h.sound
    (h.cells_inside.write _) h.seats ?_ ?_ ?_ rfl
  · exact (List.perm_append_singleton g s.readyRo_).trans (h.queue.cons g)
  · intro t' ht'
    exact Function.update_of_ne ht' _ _
  · show Activity.Runs _ code (Function.update s.record t _ t)
    rw [Function.update_self]
    exact Activity.runs_event (.wait r hx) .answered htid hsteps

omit [DecidableEq η] in
/-- A thread takes the head of the ready queue. -/
theorem Good.take {A : Activity τ η σ V E X R} {θ : τ} {q : List η}
    (h : Good code s (A :: rest)) (hplace : A.place = .ready) (hcpu : s.cpu θ = none)
    (hqueue : q.Perm (rest.filterMap Activity.queued)) :
    Good code { s.transfer θ (some A.actor) with readyRo_ := q }
      ({ A with place := .on θ } :: rest) := by
  rcases A with ⟨t, tid, stage, place⟩
  cases hplace
  have hseats : Holds s.cpu (rest.filterMap Activity.seat) := h.seats
  rcases h.runs_head with ⟨htid, c, hstands, hsteps⟩
  refine h.move (C := ⟨t, tid, stage, .on θ⟩) rfl h.sound h.cells (hseats.alloc hcpu _) hqueue
    (fun _ _ => rfl) ⟨htid, c, ?_, hsteps⟩ rfl
  cases hstands with
  | fresh => exact .taken
  | answered => exact .resumed

omit [DecidableEq τ] in
/-- A Task is made. -/
theorem Good.born {g t : η} {n : ℕ} {body : σ} (h : Good code s acts) (hfresh : Fresh s g t) :
    Good code (s.makeTask n body g t) (⟨t, n, .made g body, .ready⟩ :: acts) := by
  rcases hfresh with ⟨hg, ht, hne⟩
  have hmade := h.cells.alloc hg (.lazy (.start body) .construct)
  have hfree : Function.update s.frames g (some (.lazy (.start body) .construct)) t = none := by
    rw [Function.update_of_ne (Ne.symm hne), ht]
  have hcells := hmade.alloc hfree (.task n (.start g))
  constructor
  · exact h.sound
  · exact hcells
  · exact h.seats
  · exact (List.perm_append_singleton t s.readyRo_).trans (h.queue.cons t)
  · intro B hB
    rcases List.mem_cons.mp hB with rfl | hB
    · show Activity.Runs _ code (Function.update s.record t _ t)
      rw [Function.update_self]
      exact ⟨rfl, _, .fresh, .refl _⟩
    · have hroot : B.root ≠ t := by
        intro heq
        rcases B.root_mem with ⟨p, hp⟩
        have hroot := h.cells.get (List.mem_flatMap.mpr ⟨B, hB, hp⟩)
        cases ht.symm.trans (heq ▸ hroot)
      show Activity.Runs _ code (Function.update s.record t _ B.root)
      rw [Function.update_of_ne hroot]
      exact h.runs B hB
  · exact h.ended

/-- {lit}`make_task` stores {lit}`cnt` and makes the Task. -/
theorem Good.makeTask {t g lazy task : η} {tid n : ℕ} {x' body : σ} {cs : Callers η σ V E}
    {θ : τ} (h : Good code s (⟨t, tid, .inside g (.counted n body x') cs, .on θ⟩ :: rest))
    (hfresh : Fresh s lazy task) :
    Leads code (stepMakeTask s θ lazy task)
      (⟨task, n, .made lazy body, .ready⟩ :: ⟨t, tid, .inside g (.body x') cs, .on θ⟩ :: rest)
      (Function.update (Function.update s.record t ((s.record t).add (.spawned body))) task
        ⟨body, n, []⟩) s.finished := by
  have hstep : stepMakeTask s θ lazy task = some (((s.note g (.spawned body)).write g
      (.lazy (.body x') ⟨some (parent t cs), some t, none⟩)).makeTask n body lazy task) := by
    simp only [stepMakeTask, h.current_eq, hfresh, if_true]
  rcases h.runs_head with ⟨htid, c, hstands, hsteps⟩
  cases hstands with
  | counted hx =>
  rw [h.note_eq] at hstep
  refine ⟨_, hstep, ?_, rfl, rfl⟩
  apply Good.born
  · refine h.goOn h.sound (h.cells_inside.write _) h.update_cpu rfl ?_ ?_ rfl
    · intro t' ht'
      exact Function.update_of_ne ht' _ _
    · show Activity.Runs _ code (Function.update s.record t _ t)
      rw [Function.update_self]
      exact Activity.runs_event (.spawn hx) .body htid hsteps
  · rcases hfresh with ⟨hlazy, htask, hne⟩
    have hframe := h.frame_inside
    have hlazy' : lazy ≠ g := by
      rintro rfl
      cases hlazy.symm.trans hframe
    have htask' : task ≠ g := by
      rintro rfl
      cases htask.symm.trans hframe
    exact ⟨(Function.update_of_ne hlazy' _ _).trans hlazy,
      (Function.update_of_ne htask' _ _).trans htask, hne⟩

/-! ## Every step -/

/-- A thread goes on in its coroutine. -/
theorem Good.stepCpu {θ : τ} (h : Good code s acts) (hstep : stepCpu code s θ = some s') :
    ∃ acts', Good code s' acts' := by
  cases hcpu : s.cpu θ with
  | none =>
      rw [Lazy.stepCpu, hcpu] at hstep
      cases hstep
  | some g =>
      rcases h.of_cpu hcpu with ⟨⟨t, tid, stage, place⟩, rest, h, hplace, _⟩
      dsimp only at hplace
      subst hplace
      rcases h.runs_head with ⟨_, c, hstands, _⟩
      cases hstands with
      | taken => exact ⟨_, h.enter.good hstep⟩
      | start => exact ⟨_, h.begin.good hstep⟩
      | @body g x cs =>
          cases hx : code x with
          | done o => exact ⟨_, (h.finish hx).good hstep⟩
          | ask k => exact ⟨_, (h.ask hx).good hstep⟩
          | spawn body x' => exact ⟨_, (h.count hx).good hstep⟩
          | call c k =>
              rw [h.stepCpu_body, stepBody, hx] at hstep
              cases hstep
          | wait aw k =>
              rw [h.stepCpu_body, stepBody, hx] at hstep
              cases hstep
      | counted hx =>
          have hcpu := h.cpu_eq
          simp only [Lazy.stepCpu, hcpu, Stage.actor, h.frame_inside, reduceCtorEq] at hstep
      | resumed => exact ⟨_, h.resumed.good hstep⟩
      | @returned g x o cs =>
          cases cs with
          | nil => exact ⟨_, h.endTask.good hstep⟩
          | cons c cs => exact ⟨_, h.giveBack.good hstep⟩

omit [DecidableEq τ] [DecidableEq η] in
/-- A coroutine that a thread is in and that awaits no other one is inside its Task. -/
theorem Good.of_current {θ : τ} {g : η} {point : Point η σ V E X R} {p : LazyPromise η V E}
    (h : Good code s acts) (hcurrent : s.current θ = some (g, point, p))
    (hawait : ∀ c k, point ≠ .await c k) :
    ∃ t tid cs rest, Good code s (⟨t, tid, .inside g point cs, .on θ⟩ :: rest) := by
  unfold State.current at hcurrent
  split at hcurrent
  swap
  · cases hcurrent
  rename_i g' hcpu
  split at hcurrent
  swap
  · cases hcurrent
  rename_i point' p' hframe
  cases hcurrent
  rcases h.of_cpu hcpu with ⟨⟨t, tid, stage, place⟩, rest, h, hplace, hactor⟩
  dsimp only at hplace
  subst hplace
  dsimp only [Activity.actor] at hactor
  subst hactor
  cases stage with
  | made g' body =>
      have ht : s.frames t = some (.task tid (.start g')) := h.cells.head
      cases ht.symm.trans hframe
  | inside g' point' cs =>
      cases h.frame_inside.symm.trans hframe
      exact ⟨t, tid, cs, rest, h⟩
  | returned g' o cs =>
      cases cs with
      | nil =>
          have ht : s.frames t = some (.task tid (.await g')) := h.cells.swap.head
          cases ht.symm.trans hframe
      | cons c cs =>
          have hp : s.frames c.1 = some (.lazy (.await g' c.2) ⟨some (parent t cs), some t, none⟩) :=
            h.cells.swap.head
          cases hp.symm.trans hframe
          exact absurd rfl (hawait _ _)

theorem Good.stepCall {θ : τ} {callee : η} (h : Good code s acts)
    (hstep : stepCall code s θ callee = some s') : ∃ acts', Good code s' acts' := by
  have hdef := hstep
  unfold Lazy.stepCall at hdef
  split at hdef
  · rename_i g x p hcurrent
    rcases h.of_current hcurrent (fun _ _ heq => by cases heq) with ⟨t, tid, cs, rest, hin⟩
    split at hdef
    · rename_i c k hx
      split at hdef
      · rename_i hfree
        exact ⟨_, (hin.enterCallee hx (Option.isNone_iff_eq_none.mp hfree)).good hstep⟩
      · cases hdef
    · cases hdef
  · cases hdef

theorem Good.stepMakeTask {θ : τ} {lazy task : η} (h : Good code s acts)
    (hstep : stepMakeTask s θ lazy task = some s') : ∃ acts', Good code s' acts' := by
  have hdef := hstep
  unfold Lazy.stepMakeTask at hdef
  split at hdef
  · rename_i g n body x p hcurrent
    rcases h.of_current hcurrent (fun _ _ heq => by cases heq) with ⟨t, tid, cs, rest, hin⟩
    split at hdef
    · rename_i hfresh
      exact ⟨_, (hin.makeTask hfresh).good hstep⟩
    · cases hdef
  · cases hdef

theorem Good.stepSuspend {θ : τ} (h : Good code s acts)
    (hstep : stepSuspend code s θ = some s') : ∃ acts', Good code s' acts' := by
  have hdef := hstep
  unfold Lazy.stepSuspend at hdef
  split at hdef
  · rename_i g x p hcurrent
    rcases h.of_current hcurrent (fun _ _ heq => by cases heq) with ⟨t, tid, cs, rest, hin⟩
    split at hdef
    · rename_i aw k hx
      exact ⟨_, (hin.suspend hx).good hstep⟩
    · cases hdef
  · cases hdef

theorem Good.stepPass {θ : τ} {r : R} (h : Good code s acts)
    (hstep : stepPass code s θ r = some s') : ∃ acts', Good code s' acts' := by
  have hdef := hstep
  unfold Lazy.stepPass at hdef
  split at hdef
  · rename_i g x p hcurrent
    rcases h.of_current hcurrent (fun _ _ heq => by cases heq) with ⟨t, tid, cs, rest, hin⟩
    split at hdef
    · rename_i aw k hx
      exact ⟨_, (hin.pass hx r).good hstep⟩
    · cases hdef
  · cases hdef

omit [DecidableEq τ] in
theorem Good.stepWake {g : η} {r : R} (h : Good code s acts) (hstep : stepWake s g r = some s') :
    ∃ acts', Good code s' acts' := by
  have hdef := hstep
  unfold Lazy.stepWake at hdef
  split at hdef
  · rename_i aw k p hframe
    rcases h.of_suspended hframe with ⟨t, tid, cs, rest, _, hin⟩
    exact ⟨_, (hin.wake r).good hstep⟩
  · cases hdef

/-- Every step keeps the memory made of the chains of the unfinished Tasks. -/
theorem Good.step {a : Action τ η σ R} (h : Good code s acts) (hstep : step code s a = some s') :
    ∃ acts', Good code s' acts' := by
  cases a with
  | async_run body lazy task =>
      dsimp only [Lazy.step] at hstep
      split at hstep
      · rename_i hfresh
        cases hstep
        exact ⟨_, h.born hfresh⟩
      · cases hstep
  | schedule θ =>
      dsimp only [Lazy.step] at hstep
      split at hstep
      · rename_i g q hcpu hq
        cases hstep
        rcases h.of_ready hq with ⟨A, rest, h, hplace, rfl, hqueue⟩
        exact ⟨_, h.take hplace hcpu hqueue⟩
      · cases hstep
  | cpu θ => exact h.stepCpu hstep
  | call θ callee => exact h.stepCall hstep
  | make_task θ lazy task => exact h.stepMakeTask hstep
  | suspend θ => exact h.stepSuspend hstep
  | pass θ r => exact h.stepPass hstep
  | wake g r => exact h.stepWake hstep

/-- In every reachable state the memory is made of the chains of the unfinished Tasks. -/
theorem reachable_good (h : (machine code).Reachable s) : ∃ acts, Good code s acts := by
  have hinv : (machine code).Inductive fun s : State τ η σ V E X R => ∃ acts, Good code s acts := by
    constructor
    · rintro s ⟨record, rfl⟩
      exact ⟨[], Good.construct record⟩
    · rintro s a s' ⟨acts, hgood⟩ hstep
      exact hgood.step hstep
  exact hinv.reachable h

end Steps

end Lazy
end CoEpoll
