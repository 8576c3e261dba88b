import CoEpoll.Assoc.Cells
import CoEpoll.CoRo.Lazy

/-!
# The frames of the Tasks

An unfinished Task owns its own frame and one frame for each of its nested calls.  The frames of a Task
make a chain: each caller awaits the next frame, whose {lit}`_continuation` leads back, and every {lit}`_tcb`
leads to the Task.  The memory is made of these chains, and the Task stands in the ready queue, on a
thread or with an awaiter.

Main results:

- Theorem {lit}`Good.construct`: at first there is no Task.
- Theorem {lit}`Good.move`: a step of one Task leaves the others as they are.
-/

namespace CoEpoll
namespace Lazy

open Direct Transition Assoc

variable {τ η σ V E X R : Type*}

/-- The callers that wait in {lit}`co_await`, innermost first, with what they do with the outcome. -/
abbrev Callers (η σ V E : Type*) := List (η × (Except E V → σ))

/-- Who gets the outcome: the innermost caller or the Task. -/
def parent (t : η) : Callers η σ V E → η
  | [] => t
  | (p, _) :: _ => p

/-- The frames of the callers, of which the innermost awaits {lit}`g`, and of the Task at {lit}`t`. -/
def spine (t : η) (tid : ℕ) : η → Callers η σ V E → List (η × Frame η σ V E X R)
  | g, [] => [(t, .task tid (.await g))]
  | g, (p, k) :: cs => (p, .lazy (.await g k) ⟨some (parent t cs), some t, none⟩) :: spine t tid p cs

/-- How far a Task has come. -/
inductive Stage (η σ V E X R : Type*) where
  /-- It has been made for the Lazy at {lit}`g`. -/
  | made (g : η) (body : σ)
  /-- It is in the frame at {lit}`g`. -/
  | inside (g : η) (point : Point η σ V E X R) (callers : Callers η σ V E)
  /-- The coroutine at {lit}`g` has ended, and its caller has not yet been told. -/
  | returned (g : η) (o : Except E V) (callers : Callers η σ V E)

/-- Where a Task is. -/
inductive Place (τ : Type*) where
  | ready
  | on (θ : τ)
  | waiting

/-- An unfinished Task. -/
structure Activity (τ η σ V E X R : Type*) where
  root : η
  tid : ℕ
  stage : Stage η σ V E X R
  place : Place τ

/-- The coroutine that goes on next. -/
def Stage.actor (t : η) : Stage η σ V E X R → η
  | .made _ _ => t
  | .inside g _ _ => g
  | .returned _ _ cs => parent t cs

/-- The frames of a Task at this stage. -/
def Stage.cells (t : η) (tid : ℕ) : Stage η σ V E X R → List (η × Frame η σ V E X R)
  | .made g body => [(t, .task tid (.start g)), (g, .lazy (.start body) .construct)]
  | .inside g point cs => (g, .lazy point ⟨some (parent t cs), some t, none⟩) :: spine t tid g cs
  | .returned g o cs => (g, .lazy .final ⟨some (parent t cs), some t, some o⟩) :: spine t tid g cs

namespace Activity

variable (A : Activity τ η σ V E X R)

def actor : η := A.stage.actor A.root

def cells : List (η × Frame η σ V E X R) := A.stage.cells A.root A.tid

/-- The thread that the Task is on and the coroutine it is in there. -/
def seat : Option (τ × η) :=
  match A.place with
  | .on θ => some (θ, A.actor)
  | _ => none

/-- What the Task has on the ready queue. -/
def queued : Option η :=
  match A.place with
  | .ready => some A.actor
  | _ => none

/-- The configuration of the stack machine that the stage stands for. -/
inductive Stands (code : σ → Op σ ℕ V E X R) :
    Stage η σ V E X R → Place τ → Config σ V E → Prop
  | fresh {g body} : Stands code (.made g body) .ready (.inside body [])
  | taken {g body θ} : Stands code (.made g body) (.on θ) (.inside body [])
  | start {g x cs θ} :
      Stands code (.inside g (.start x) cs) (.on θ) (.inside x (cs.map Prod.snd))
  | body {g x cs θ} :
      Stands code (.inside g (.body x) cs) (.on θ) (.inside x (cs.map Prod.snd))
  | counted {g n lazy x x' cs θ} (hx : code x = .spawn lazy x') :
      Stands code (.inside g (.counted n lazy x') cs) (.on θ) (.inside x (cs.map Prod.snd))
  | waiting {g x aw k cs} (hx : code x = .wait aw k) :
      Stands code (.inside g (.suspended aw k none) cs) .waiting (.inside x (cs.map Prod.snd))
  | answered {g aw k r cs} :
      Stands code (.inside g (.suspended aw k (some r)) cs) .ready
        (.inside (k r) (cs.map Prod.snd))
  | resumed {g aw k r cs θ} :
      Stands code (.inside g (.suspended aw k (some r)) cs) (.on θ)
        (.inside (k r) (cs.map Prod.snd))
  | returned {g x o cs θ} (hx : code x = .done o) :
      Stands code (.returned g o cs) (.on θ) (.inside x (cs.map Prod.snd))

/-- What is recorded of the Task is a run of the stack machine up to where it stands. -/
def Runs (code : σ → Op σ ℕ V E X R) (record : Record σ X R) : Prop :=
  record.tid = A.tid ∧ ∃ c, Stands code A.stage A.place c ∧
    Steps code A.tid (.inside record.body []) record.log c

end Activity

/-! ## The addresses of a Task -/

theorem spine_eq_cons (t : η) (tid : ℕ) (g : η) (cs : Callers η σ V E) :
    ∃ f l, spine (X := X) (R := R) t tid g cs = (parent t cs, f) :: l := by
  cases cs with
  | nil => exact ⟨_, _, rfl⟩
  | cons c cs => exact ⟨_, _, rfl⟩

/-- The frame of the Task ends the chain. -/
theorem root_mem_spine (t : η) (tid : ℕ) (g : η) (cs : Callers η σ V E) :
    ∃ p, (t, Frame.task tid p) ∈ spine (X := X) (R := R) t tid g cs := by
  induction cs generalizing g with
  | nil => exact ⟨_, List.mem_singleton_self _⟩
  | cons c cs ih =>
      rcases ih c.1 with ⟨p, hp⟩
      exact ⟨p, List.mem_cons_of_mem _ hp⟩

theorem Activity.root_mem (A : Activity τ η σ V E X R) :
    ∃ p, (A.root, Frame.task A.tid p) ∈ A.cells := by
  unfold Activity.cells
  cases A.stage with
  | made g body => exact ⟨_, List.mem_cons_self⟩
  | inside g point cs =>
      rcases root_mem_spine A.root A.tid g cs with ⟨p, hp⟩
      exact ⟨p, List.mem_cons_of_mem _ hp⟩
  | returned g o cs =>
      rcases root_mem_spine A.root A.tid g cs with ⟨p, hp⟩
      exact ⟨p, List.mem_cons_of_mem _ hp⟩

theorem Activity.root_mem_keys (A : Activity τ η σ V E X R) : A.root ∈ A.cells.map Prod.fst := by
  rcases A.root_mem with ⟨p, hp⟩
  exact List.mem_map_of_mem hp

theorem Activity.actor_mem (A : Activity τ η σ V E X R) : A.actor ∈ A.cells.map Prod.fst := by
  unfold Activity.actor Activity.cells
  cases A.stage with
  | made g body => exact List.mem_cons_self
  | inside g point cs => exact List.mem_cons_self
  | returned g o cs =>
      rcases spine_eq_cons (X := X) (R := R) A.root A.tid g cs with ⟨f, l, hspine⟩
      simp [Stage.cells, Stage.actor, hspine]

/-- Only the frame of the Task itself is one of a Task. -/
theorem task_mem_spine {t t' g : η} {tid tid' : ℕ} {p : TaskPoint η} {cs : Callers η σ V E}
    (h : (t', Frame.task tid' p) ∈ spine (X := X) (R := R) t tid g cs) : t' = t ∧ tid' = tid := by
  induction cs generalizing g with
  | nil =>
      cases List.mem_singleton.mp h
      exact ⟨rfl, rfl⟩
  | cons c cs ih =>
      rcases List.mem_cons.mp h with heq | hmem
      · cases heq
      · exact ih hmem

theorem task_mem_cells {A : Activity τ η σ V E X R} {t : η} {tid : ℕ} {p : TaskPoint η}
    (h : (t, Frame.task tid p) ∈ A.cells) : t = A.root ∧ tid = A.tid := by
  unfold Activity.cells at h
  cases hstage : A.stage with
  | made g body =>
      rw [hstage] at h
      rcases List.mem_cons.mp h with heq | hmem
      · cases heq
        exact ⟨rfl, rfl⟩
      · cases List.mem_singleton.mp hmem
  | inside g point cs =>
      rw [hstage] at h
      rcases List.mem_cons.mp h with heq | hmem
      · cases heq
      · exact task_mem_spine hmem
  | returned g o cs =>
      rw [hstage] at h
      rcases List.mem_cons.mp h with heq | hmem
      · cases heq
      · exact task_mem_spine hmem

/-! ## The invariant -/

/-- The memory, the threads and the ready queue are made of the unfinished Tasks, and all of them run
as their code says. -/
structure Good (code : σ → Op σ ℕ V E X R) (s : State τ η σ V E X R)
    (acts : List (Activity τ η σ V E X R)) : Prop where
  sound : s.fault = false
  cells : Holds s.frames (acts.flatMap Activity.cells)
  seats : Holds s.cpu (acts.filterMap Activity.seat)
  queue : s.readyRo_.Perm (acts.filterMap Activity.queued)
  runs : ∀ A ∈ acts, A.Runs code (s.record A.root)
  ended : ∀ e ∈ s.finished, Evals code e.1.tid e.1.body e.1.log e.2

variable {code : σ → Op σ ℕ V E X R} {s s' : State τ η σ V E X R}
  {A B C : Activity τ η σ V E X R} {acts rest : List (Activity τ η σ V E X R)}

namespace Good

theorem construct (record : η → Record σ X R) :
    Good code (State.construct record : State τ η σ V E X R) [] where
  sound := rfl
  cells := holds_nil
  seats := holds_nil
  queue := List.Perm.nil
  runs A hA := by cases hA
  ended e he := by cases he

/-- The order of the Tasks does not matter. -/
theorem perm (h : Good code s acts) (hperm : acts.Perm rest) : Good code s rest where
  sound := h.sound
  cells := h.cells.perm (hperm.flatMap_right _)
  seats := h.seats.perm (hperm.filterMap _)
  queue := h.queue.trans (hperm.filterMap _)
  runs A hA := h.runs A (hperm.mem_iff.mpr hA)
  ended := h.ended

theorem front (h : Good code s acts) (hA : A ∈ acts) : ∃ rest, Good code s (A :: rest) := by
  rcases List.append_of_mem hA with ⟨l₁, l₂, rfl⟩
  exact ⟨l₁ ++ l₂, h.perm List.perm_middle⟩

/-- An address of one Task is not an address of another one. -/
theorem disjoint (h : Good code s (A :: rest)) (hB : B ∈ rest) {g : η}
    (hgA : g ∈ A.cells.map Prod.fst) : g ∉ B.cells.map Prod.fst := by
  have hkeyed := h.cells.keyed
  rw [Keyed, List.flatMap_cons, List.map_append, List.nodup_append'] at hkeyed
  intro hgB
  rcases List.mem_map.mp hgB with ⟨e, he, rfl⟩
  exact hkeyed.2.2 hgA (List.mem_map_of_mem (List.mem_flatMap.mpr ⟨B, hB, he⟩))

theorem root_ne (h : Good code s (A :: rest)) (hB : B ∈ rest) : B.root ≠ A.root := by
  intro heq
  exact h.disjoint hB A.root_mem_keys (heq ▸ B.root_mem_keys)

/-- A step of one Task leaves the others as they are. -/
theorem move (h : Good code s (A :: rest)) (hroot : C.root = A.root) (hsound : s'.fault = false)
    (hcells : Holds s'.frames (C.cells ++ rest.flatMap Activity.cells))
    (hseats : Holds s'.cpu ((C :: rest).filterMap Activity.seat))
    (hqueue : s'.readyRo_.Perm ((C :: rest).filterMap Activity.queued))
    (hrecord : ∀ t, t ≠ A.root → s'.record t = s.record t)
    (hruns : C.Runs code (s'.record A.root)) (hfinished : s'.finished = s.finished) :
    Good code s' (C :: rest) where
  sound := hsound
  cells := hcells
  seats := hseats
  queue := hqueue
  runs B hB := by
    rcases List.mem_cons.mp hB with rfl | hB
    · rw [hroot]
      exact hruns
    · rw [hrecord _ (h.root_ne hB)]
      exact h.runs B (List.mem_cons_of_mem _ hB)
  ended := by
    rw [hfinished]
    exact h.ended

end Good
end Lazy
end CoEpoll
