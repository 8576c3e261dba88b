import CoEpoll.CoRo.Lazy.Steps
import Mathlib.Logic.Relation
import Mathlib.Data.List.Nodup

/-!
# Who owns a coroutine frame, and where a Task stands

A frame holds the one whose Lazy it has as its parameter or in its {lit}`ValueAwaiter`; it is the one that
destroys it.

Main results:

- Theorem {lit}`owned_once`: every frame belongs to exactly one unfinished Task, and its promise leads
  back to the frame that holds it and to this Task.
- Theorem {lit}`one_spot`: every unfinished Task stands in exactly one position of the ready queue, on one
  thread or with one awaiter, and nothing else stands there.
-/

namespace CoEpoll
namespace Lazy

open Direct Transition Assoc

variable {τ η σ V E X R : Type*} {code : σ → Op σ ℕ V E X R}
  {s : State τ η σ V E X R} {acts rest : List (Activity τ η σ V E X R)}

/-- The frame whose handle is in this one. -/
def Frame.held : Frame η σ V E X R → Option η
  | .lazy (.await g _) _ => some g
  | .lazy _ _ => none
  | .task _ (.start g) => some g
  | .task _ (.await g) => some g

/-- The frame at {lit}`h` holds the frame at {lit}`g`. -/
def State.Holds (s : State τ η σ V E X R) (h g : η) : Prop :=
  ∃ f, s.frames h = some f ∧ f.held = some g

/-- The frame at {lit}`g` is held by the frame at {lit}`t`, through any number of frames in between. -/
def State.Owns (s : State τ η σ V E X R) (t g : η) : Prop :=
  Relation.ReflTransGen s.Holds t g

/-- The frame of an unfinished Task is at {lit}`t`. -/
def State.IsTask (s : State τ η σ V E X R) (t : η) : Prop :=
  ∃ tid p, s.frames t = some (.task tid p)

/-- A position in which a coroutine can stand. -/
inductive Spot (τ η : Type*) where
  /-- Number {lit}`i` of the ready queue. -/
  | ready (i : ℕ)
  | on (θ : τ)
  /-- With the awaiter in the frame at {lit}`g`, which has not been answered. -/
  | waiting (g : η)

/-- The coroutine that stands there. -/
def State.at (s : State τ η σ V E X R) : Spot τ η → Option η
  | .ready i => s.readyRo_[i]?
  | .on θ => s.cpu θ
  | .waiting g =>
      match s.frames g with
      | some (.lazy (.suspended _ _ none) _) => some g
      | _ => none

/-! ## The frames of a Task are those that it owns -/

theorem Good.of_isTask (h : Good code s acts) {t : η} (ht : s.IsTask t) :
    ∃ A ∈ acts, A.root = t := by
  rcases ht with ⟨tid, p, hp⟩
  rcases List.mem_flatMap.mp ((h.cells.cells t _).mp hp) with ⟨A, hA, hmem⟩
  exact ⟨A, hA, (task_mem_cells hmem).1.symm⟩

theorem Good.mem_cells (h : Good code s acts) {A : Activity τ η σ V E X R} (hA : A ∈ acts)
    {e : η × Frame η σ V E X R} (he : e ∈ A.cells) : s.frames e.1 = some e.2 :=
  h.cells.get (List.mem_flatMap.mpr ⟨A, hA, he⟩)

theorem Good.isTask_root (h : Good code s acts) {A : Activity τ η σ V E X R} (hA : A ∈ acts) :
    s.IsTask A.root := by
  rcases A.root_mem with ⟨p, hp⟩
  exact ⟨A.tid, p, h.mem_cells hA hp⟩

/-- The frames of the callers and the one they wait for are owned by the Task. -/
theorem owns_spine {t g : η} {tid : ℕ} {cs : Callers η σ V E}
    (h : ∀ e ∈ spine t tid g cs, s.frames e.1 = some e.2) :
    s.Owns t g ∧ ∀ e ∈ spine (X := X) (R := R) t tid g cs, s.Owns t e.1 := by
  induction cs generalizing g with
  | nil =>
      have ht := h _ (List.mem_singleton_self _)
      constructor
      · exact .single ⟨_, ht, rfl⟩
      · intro e he
        cases List.mem_singleton.mp he
        exact .refl
  | cons c cs ih =>
      have hc := h _ List.mem_cons_self
      rcases ih fun e he => h e (List.mem_cons_of_mem _ he) with ⟨hp, hspine⟩
      constructor
      · exact hp.tail ⟨_, hc, rfl⟩
      · intro e he
        rcases List.mem_cons.mp he with rfl | he
        · exact hp
        · exact hspine e he

/-- What a frame of the callers holds is one of them or the coroutine that they wait for. -/
theorem held_mem_spine {t g g' : η} {tid : ℕ} {cs : Callers η σ V E} {e : η × Frame η σ V E X R}
    (he : e ∈ spine t tid g cs) (hheld : e.2.held = some g') :
    g' = g ∨ g' ∈ (spine (X := X) (R := R) t tid g cs).map Prod.fst := by
  induction cs generalizing g with
  | nil =>
      cases List.mem_singleton.mp he
      cases hheld
      exact .inl rfl
  | cons c cs ih =>
      rcases List.mem_cons.mp he with rfl | he
      · cases hheld
        exact .inl rfl
      · right
        rcases ih he with rfl | hmem
        · exact List.mem_cons_self
        · exact List.mem_cons_of_mem _ hmem

theorem held_mem_cells {A : Activity τ η σ V E X R} {g : η} {e : η × Frame η σ V E X R}
    {c : Config σ V E} (hstands : Activity.Stands code A.stage A.place c) (he : e ∈ A.cells)
    (hheld : e.2.held = some g) : g ∈ A.cells.map Prod.fst := by
  rcases A with ⟨t, tid, stage, place⟩
  unfold Activity.cells at he ⊢
  dsimp only at he hstands ⊢
  cases stage with
  | made g' body =>
      rcases List.mem_cons.mp he with rfl | he
      · cases hheld
        exact List.mem_cons_of_mem _ (List.mem_singleton_self _)
      · cases List.mem_singleton.mp he
        cases hheld
  | inside g' point cs =>
      rcases List.mem_cons.mp he with rfl | he
      · cases hstands <;> cases hheld
      · rcases held_mem_spine he hheld with rfl | hmem
        · exact List.mem_cons_self
        · exact List.mem_cons_of_mem _ hmem
  | returned g' o cs =>
      rcases List.mem_cons.mp he with rfl | he
      · cases hheld
      · rcases held_mem_spine he hheld with rfl | hmem
        · exact List.mem_cons_self
        · exact List.mem_cons_of_mem _ hmem

/-- A Task owns exactly its frames. -/
theorem Good.owns_iff (h : Good code s acts) {A : Activity τ η σ V E X R} (hA : A ∈ acts) (g : η) :
    s.Owns A.root g ↔ g ∈ A.cells.map Prod.fst := by
  constructor
  · intro howns
    induction howns with
    | refl => exact A.root_mem_keys
    | tail _ hholds ih =>
        rcases hholds with ⟨f, hf, hheld⟩
        rcases List.mem_map.mp ih with ⟨e, he, rfl⟩
        cases hf.symm.trans (h.mem_cells hA he)
        rcases (h.runs A hA).2 with ⟨c, hstands, _⟩
        exact held_mem_cells hstands he hheld
  · intro hmem
    rcases List.mem_map.mp hmem with ⟨e, he, rfl⟩
    have hcells : ∀ e ∈ A.cells, s.frames e.1 = some e.2 := fun e he => h.mem_cells hA he
    rcases A with ⟨t, tid, stage, place⟩
    unfold Activity.cells at he hcells
    cases stage with
    | made g' body =>
        rcases List.mem_cons.mp he with rfl | he
        · exact .refl
        · cases List.mem_singleton.mp he
          exact .single ⟨_, hcells _ List.mem_cons_self, rfl⟩
    | inside g' point cs =>
        have hspine := owns_spine fun e he => hcells e (List.mem_cons_of_mem _ he)
        rcases List.mem_cons.mp he with rfl | he
        · exact hspine.1
        · exact hspine.2 e he
    | returned g' o cs =>
        have hspine := owns_spine fun e he => hcells e (List.mem_cons_of_mem _ he)
        rcases List.mem_cons.mp he with rfl | he
        · exact hspine.1
        · exact hspine.2 e he

/-- Two Tasks that have an address in common are the same. -/
theorem Good.eq_of_common (h : Good code s acts) {A B : Activity τ η σ V E X R} (hA : A ∈ acts)
    (hB : B ∈ acts) {g : η} (hgA : g ∈ A.cells.map Prod.fst) (hgB : g ∈ B.cells.map Prod.fst) :
    A = B := by
  rcases List.append_of_mem hA with ⟨l₁, l₂, rfl⟩
  have hfront := h.perm List.perm_middle
  rcases List.mem_cons.mp (List.perm_middle.mem_iff.mp hB) with rfl | hB
  · rfl
  · exact absurd hgB (hfront.disjoint hB hgA)

/-! ## Every frame belongs to one Task -/

/-- What the promise of a coroutine says about the frames around it. -/
theorem promise_mem_cells {A : Activity τ η σ V E X R} {g : η} {point : Point η σ V E X R}
    {p : LazyPromise η V E} (h : (g, Frame.lazy point p) ∈ A.cells) :
    (p._continuation = none ∧ p._tcb = none ∧ ∃ x, point = .start x) ∨
      (p._tcb = some A.root ∧ ∃ e ∈ A.cells, p._continuation = some e.1 ∧ e.2.held = some g) := by
  rcases A with ⟨t, tid, stage, place⟩
  unfold Activity.cells at h ⊢
  dsimp only at h ⊢
  have hparent : ∀ (cs : Callers η σ V E) (g' : η),
      ∃ e ∈ spine (X := X) (R := R) t tid g' cs, parent t cs = e.1 ∧ e.2.held = some g' := by
    intro cs g'
    cases cs with
    | nil => exact ⟨_, List.mem_cons_self, rfl, rfl⟩
    | cons c cs => exact ⟨_, List.mem_cons_self, rfl, rfl⟩
  have hspine : ∀ (cs : Callers η σ V E) (g' : η),
      (g, Frame.lazy point p) ∈ spine (X := X) (R := R) t tid g' cs → p._tcb = some t ∧
        ∃ e ∈ spine (X := X) (R := R) t tid g' cs,
          p._continuation = some e.1 ∧ e.2.held = some g := by
    intro cs
    induction cs with
    | nil =>
        intro g' hmem
        cases List.mem_singleton.mp hmem
    | cons c cs ih =>
        intro g' hmem
        rcases List.mem_cons.mp hmem with heq | hmem
        · cases heq
          rcases hparent cs c.1 with ⟨e, he, hp, hheld⟩
          exact ⟨rfl, e, List.mem_cons_of_mem _ he, congrArg some hp, hheld⟩
        · rcases ih c.1 hmem with ⟨htcb, e, he, hcont, hheld⟩
          exact ⟨htcb, e, List.mem_cons_of_mem _ he, hcont, hheld⟩
  cases stage with
  | made g' body =>
      rcases List.mem_cons.mp h with heq | hmem
      · cases heq
      · cases List.mem_singleton.mp hmem
        exact .inl ⟨rfl, rfl, body, rfl⟩
  | inside g' point' cs =>
      right
      rcases List.mem_cons.mp h with heq | hmem
      · cases heq
        rcases hparent cs g with ⟨e, he, hp, hheld⟩
        exact ⟨rfl, e, List.mem_cons_of_mem _ he, congrArg some hp, hheld⟩
      · rcases hspine cs g' hmem with ⟨htcb, e, he, hcont, hheld⟩
        exact ⟨htcb, e, List.mem_cons_of_mem _ he, hcont, hheld⟩
  | returned g' o cs =>
      right
      rcases List.mem_cons.mp h with heq | hmem
      · cases heq
        rcases hparent cs g with ⟨e, he, hp, hheld⟩
        exact ⟨rfl, e, List.mem_cons_of_mem _ he, congrArg some hp, hheld⟩
      · rcases hspine cs g' hmem with ⟨htcb, e, he, hcont, hheld⟩
        exact ⟨htcb, e, List.mem_cons_of_mem _ he, hcont, hheld⟩

/-- What the promise of the coroutine at {lit}`g` refers to: nothing before it is awaited, then the frame
that holds it and the Task. -/
def Linked (s : State τ η σ V E X R) (t g : η) : Frame η σ V E X R → Prop
  | .task _ _ => g = t
  | .lazy point p =>
      (p._continuation = none ∧ p._tcb = none ∧ ∃ x, point = .start x) ∨
        (p._tcb = some t ∧ ∃ c, p._continuation = some c ∧ s.Holds c g)

theorem Good.owned (h : Good code s acts) {g : η} {f : Frame η σ V E X R}
    (hf : s.frames g = some f) :
    (∃! t, s.IsTask t ∧ s.Owns t g) ∧ ∀ t, s.IsTask t → s.Owns t g → Linked s t g f := by
  rcases List.mem_flatMap.mp ((h.cells.cells g f).mp hf) with ⟨A, hA, hmem⟩
  have hg : g ∈ A.cells.map Prod.fst := List.mem_map_of_mem hmem
  have hunique : ∀ t, s.IsTask t → s.Owns t g → t = A.root := by
    intro t ht howns
    rcases h.of_isTask ht with ⟨B, hB, rfl⟩
    rw [h.eq_of_common hA hB hg ((h.owns_iff hB g).mp howns)]
  constructor
  · refine ⟨A.root, ⟨h.isTask_root hA, (h.owns_iff hA g).mpr hg⟩, ?_⟩
    rintro t ⟨ht, howns⟩
    exact hunique t ht howns
  · intro t ht howns
    cases hunique t ht howns
    cases f with
    | task tid p => exact (task_mem_cells hmem).1
    | lazy point p =>
        rcases promise_mem_cells hmem with hnone | ⟨htcb, e, he, hcont, hheld⟩
        · exact .inl hnone
        · exact .inr ⟨htcb, e.1, hcont, e.2, h.mem_cells hA he, hheld⟩

/-! ## Every Task stands in one position -/

/-- The position of a coroutine fits the place of its Task. -/
inductive Fits (s : State τ η σ V E X R) (g : η) : Place τ → Spot τ η → Prop
  | ready {i} (hi : s.readyRo_[i]? = some g) : Fits s g .ready (.ready i)
  | on (θ) : Fits s g (.on θ) (.on θ)
  | waiting : Fits s g .waiting (.waiting g)

/-- What stands somewhere is the coroutine that goes on next in a Task that is there. -/
theorem Good.of_at (h : Good code s acts) {spot : Spot τ η} {g : η} (hat : s.at spot = some g) :
    ∃ A ∈ acts, A.actor = g ∧ Fits s g A.place spot := by
  cases spot with
  | ready i =>
      have hmem := h.queue.mem_iff.mp (List.mem_of_getElem? hat)
      rcases List.mem_filterMap.mp hmem with ⟨A, hA, hqueued⟩
      unfold Activity.queued at hqueued
      split at hqueued
      · rename_i hplace
        cases hqueued
        exact ⟨A, hA, rfl, hplace ▸ .ready hat⟩
      · cases hqueued
  | on θ =>
      rcases List.mem_filterMap.mp ((h.seats.cells θ g).mp hat) with ⟨A, hA, hseat⟩
      unfold Activity.seat at hseat
      split at hseat
      · rename_i θ' hplace
        cases hseat
        exact ⟨A, hA, rfl, hplace ▸ .on θ⟩
      · cases hseat
  | waiting g' =>
      dsimp only [State.at] at hat
      split at hat
      · rename_i aw k p hframe
        cases hat
        rcases List.mem_flatMap.mp ((h.cells.cells g _).mp hframe) with ⟨⟨t, tid, stage, place⟩, hA, hmem⟩
        rcases suspended_mem_cells hmem with ⟨cs, hstage, _⟩
        rcases (h.runs _ hA).2 with ⟨c, hstands, _⟩
        dsimp only at hstage
        subst hstage
        cases hstands
        exact ⟨_, hA, rfl, .waiting⟩
      · cases hat

/-- The coroutine that goes on next stands where its Task is. -/
theorem Good.at_of_fits (h : Good code s acts) {A : Activity τ η σ V E X R} (hA : A ∈ acts)
    {spot : Spot τ η} (hfits : Fits s A.actor A.place spot) : s.at spot = some A.actor := by
  rcases A with ⟨t, tid, stage, place⟩
  dsimp only at hfits
  cases hfits with
  | ready hi => exact hi
  | on θ => exact h.seats.get (List.mem_filterMap.mpr ⟨_, hA, rfl⟩)
  | waiting =>
      rcases (h.runs _ hA).2 with ⟨c, hstands, _⟩
      cases hstands with
      | @waiting g x aw k cs hx =>
          have hframe : s.frames g = some (.lazy (.suspended aw k none) _) :=
            h.mem_cells hA List.mem_cons_self
          show s.at (.waiting g) = some g
          simp only [State.at, hframe]

theorem Good.exists_fits (h : Good code s acts) {A : Activity τ η σ V E X R} (hA : A ∈ acts) :
    ∃ spot, Fits s A.actor A.place spot := by
  cases hplace : A.place with
  | ready =>
      have hqueued : A.queued = some A.actor := by rw [Activity.queued, hplace]
      have hmem := h.queue.mem_iff.mpr (List.mem_filterMap.mpr ⟨A, hA, hqueued⟩)
      rcases List.mem_iff_getElem?.mp hmem with ⟨i, hi⟩
      exact ⟨_, .ready hi⟩
  | on θ => exact ⟨_, .on θ⟩
  | waiting => exact ⟨_, .waiting⟩

/-- No coroutine is on the ready queue twice. -/
theorem Good.queue_nodup (h : Good code s acts) : s.readyRo_.Nodup := by
  rw [h.queue.nodup_iff]
  have hkeyed := h.cells.keyed
  rw [Keyed, List.map_flatMap, List.nodup_flatMap] at hkeyed
  rw [List.Nodup, List.pairwise_filterMap]
  refine hkeyed.2.imp ?_
  intro A B hdisjoint g hg g' hg' heq
  have hA : g ∈ A.cells.map Prod.fst := by
    unfold Activity.queued at hg
    split at hg
    · cases hg
      exact A.actor_mem
    · cases hg
  have hB : g ∈ B.cells.map Prod.fst := by
    unfold Activity.queued at hg'
    split at hg'
    · cases hg'
      exact heq ▸ B.actor_mem
    · cases hg'
  exact hdisjoint hA hB

theorem Good.fits_unique (h : Good code s acts) {g : η} {place : Place τ} {spot spot' : Spot τ η}
    (hfits : Fits s g place spot) (hfits' : Fits s g place spot') : spot = spot' := by
  cases hfits with
  | ready hi =>
      cases hfits' with
      | ready hj =>
          have hlt := (List.getElem?_eq_some_iff.mp hi).1
          rw [(List.getElem?_inj hlt h.queue_nodup).mp (hi.trans hj.symm)]
  | on θ =>
      cases hfits'
      rfl
  | waiting =>
      cases hfits'
      rfl

/-- The coroutine that goes on next is the only one of its Task that stands anywhere, and it stands in
one position. -/
theorem Good.stands_once (h : Good code s acts) {A : Activity τ η σ V E X R} (hA : A ∈ acts) :
    ∃! spot, ∃ g, s.at spot = some g ∧ s.Owns A.root g := by
  rcases h.exists_fits hA with ⟨spot, hfits⟩
  refine ⟨spot, ⟨A.actor, h.at_of_fits hA hfits, (h.owns_iff hA _).mpr A.actor_mem⟩, ?_⟩
  rintro spot' ⟨g, hat, howns⟩
  rcases h.of_at hat with ⟨B, hB, rfl, hfits'⟩
  cases h.eq_of_common hA hB ((h.owns_iff hA _).mp howns) B.actor_mem
  exact h.fits_unique hfits' hfits

/-! ## In every reachable state -/

variable [DecidableEq τ] [DecidableEq η]

/-- Every frame belongs to exactly one unfinished Task, and its promise leads back to the frame that
holds it and to this Task. -/
theorem owned_once (h : (machine code).Reachable s) {g : η} {f : Frame η σ V E X R}
    (hf : s.frames g = some f) :
    (∃! t, s.IsTask t ∧ s.Owns t g) ∧ ∀ t, s.IsTask t → s.Owns t g → Linked s t g f := by
  rcases reachable_good h with ⟨acts, hgood⟩
  exact hgood.owned hf

theorem sample_waits : ∃ s p, (machine sample).run sampleStart sampleCall = some s ∧
    (∃ f, s.frames 2 = some f) ∧ s.frames 1 = some (.task 1 p) :=
  ⟨_, _, rfl, ⟨_, rfl⟩, rfl⟩

theorem owned_once_sample : ∃ s : State Unit ℕ ℕ ℕ String Unit ℕ,
    (∃ f, s.frames 2 = some f) ∧ ∃! t, s.IsTask t ∧ s.Owns t 2 := by
  rcases sample_waits with ⟨s, p, hrun, ⟨f, hf⟩, _⟩
  exact ⟨s, ⟨f, hf⟩, (owned_once ⟨sampleStart, _, ⟨_, rfl⟩, hrun⟩ hf).1⟩

/-- What stands in any position is a coroutine of an unfinished Task, and every unfinished Task stands in
exactly one position. -/
theorem one_spot (h : (machine code).Reachable s) :
    (∀ spot g, s.at spot = some g → ∃ t, s.IsTask t ∧ s.Owns t g) ∧
      ∀ t, s.IsTask t → ∃! spot, ∃ g, s.at spot = some g ∧ s.Owns t g := by
  rcases reachable_good h with ⟨acts, hgood⟩
  constructor
  · intro spot g hat
    rcases hgood.of_at hat with ⟨A, hA, rfl, _⟩
    exact ⟨A.root, hgood.isTask_root hA, (hgood.owns_iff hA _).mpr A.actor_mem⟩
  · intro t ht
    rcases hgood.of_isTask ht with ⟨A, hA, rfl⟩
    exact hgood.stands_once hA

theorem one_spot_sample : ∃ s : State Unit ℕ ℕ ℕ String Unit ℕ, s.IsTask 1 ∧
    ∃! spot, ∃ g, s.at spot = some g ∧ s.Owns 1 g := by
  rcases sample_waits with ⟨s, p, hrun, _, ht⟩
  exact ⟨s, ⟨1, p, ht⟩, (one_spot ⟨sampleStart, _, ⟨_, rfl⟩, hrun⟩).2 1 ⟨1, p, ht⟩⟩

end Lazy
end CoEpoll
