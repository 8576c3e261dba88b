import CoEpoll.CoKernel.Registry.Steps

/-!
# `ICU::loop`: when does a `FileWQ` in `list_` have an owner

{lit}`epoll_wait` puts a pointer into {lit}`list_`, and the loop walks it only after the next drain.  In
the meantime {lit}`removeIRQ` can erase the entry of {lit}`fileWQPtrs_`, and a waiter can end, so that
the last owner is gone when the loop comes to the pointer.

Main results:

- Theorem {lit}`Inv.walkable_iff`: which steps leave a pointer without an owner.
- Theorem {lit}`owned_iff`: all pointers have an owner in every state of a run if and only if no
  step of the run is one of these.
- Theorem {lit}`walk_dangling`: a run in which the loop walks a pointer without an owner.
-/

namespace CoEpoll
namespace Registry

open Transition ICU

variable {δ φ ω : Type*}

namespace State

variable (s : State δ φ ω)

/-- The entries of {lit}`list_` that the loop has still to walk. -/
def toWalk : List (Entry φ) :=
  match s.phase with
  | .drain => s.list_
  | .walk rest => rest
  | .poll => []

/-- {lit}`w` is suspended with a {lit}`FileAwaiter` that holds {lit}`fq`. -/
def Suspended (w : ω) (fq : φ) : Prop :=
  ∃ stage, s.awaiters w = some (fq, stage) ∧ stage ≠ .found

/-- {lit}`fq` has an owner. -/
def Owned (fq : φ) : Prop :=
  s.Registered fq ∨ ∃ w, s.Suspended w fq

/-- Every pointer that the loop goes on to walk has an owner. -/
def Walkable : Prop :=
  ∀ fq, Entry.file fq ∈ s.toWalk → s.Owned fq

end State

/-- The step leaves an owner to what is still to be walked: {lit}`removeIRQ` erases its entry, and
a coroutine drops its {lit}`FileAwaiter`, only if the {lit}`FileWQ` is not to be walked or another owner is
left; and {lit}`epoll_wait` does not return what {lit}`updateIRQ` has not inserted yet. -/
def OwnerLeft (s : State δ φ ω) : Action δ φ ω → Prop
  | .resumeCall =>
      ∀ fd fq ok, s.call = some ⟨.del, fd, fq, some ok⟩ →
        .file fq ∉ s.toWalk ∨ ∃ w, s.Suspended w fq
  | .resumeWait w =>
      ∀ fq, s.awaiters w = some (fq, .woken) →
        .file fq ∉ s.toWalk ∨ s.Registered fq ∨ ∃ w', w' ≠ w ∧ s.Suspended w' fq
  | .waitIRQ entries =>
      ∀ fd fq done, s.call = some ⟨.add, fd, fq, done⟩ → .file fq ∉ entries
  | _ => True

variable [DecidableEq δ] [DecidableEq φ] [DecidableEq ω]
variable {s s' : State δ φ ω} {op : Op} {fd : δ} {fq : φ} {w : ω} {ok : Bool}

/-! ## Owners of what is to be walked -/

omit [DecidableEq δ] [DecidableEq φ] [DecidableEq ω] in
/-- Owners stay, and nothing new is to be walked. -/
theorem Walkable.mono (hwalkable : s.Walkable)
    (hwalk : ∀ fq, Entry.file fq ∈ s'.toWalk → Entry.file fq ∈ s.toWalk)
    (hreg : ∀ fq, s.Registered fq → s'.Registered fq)
    (hsusp : ∀ w fq, s.Suspended w fq → s'.Suspended w fq) : s'.Walkable := by
  intro fq hfq
  rcases hwalkable fq (hwalk fq hfq) with hfile | ⟨w, hw⟩
  · exact .inl (hreg fq hfile)
  · exact .inr ⟨w, hsusp w fq hw⟩

omit [DecidableEq δ] [DecidableEq φ] in
/-- A coroutine that comes to hold what it held stays suspended. -/
theorem suspended_update {stage : Stage} {w' : ω} {fq' : φ} (hstage : stage ≠ .found)
    (hw : ∀ stage', s.awaiters w = some (fq', stage') → stage' ≠ .found → fq = fq')
    (hsusp : s.Suspended w' fq') :
    { s with awaiters := Function.update s.awaiters w (some (fq, stage)) }.Suspended w' fq' := by
  rcases hsusp with ⟨stage', hw', hne⟩
  by_cases heq : w' = w
  · subst heq
    cases hw stage' hw' hne
    exact ⟨stage, Function.update_self .., hstage⟩
  · exact ⟨stage', (Function.update_of_ne heq _ _).trans hw', hne⟩

omit [DecidableEq δ] [DecidableEq φ] in
/-- A coroutine that drops its {lit}`FileAwaiter` leaves the others suspended. -/
theorem suspended_update_none {w' : ω} :
    { s with awaiters := Function.update s.awaiters w none }.Suspended w' fq ↔
      w' ≠ w ∧ s.Suspended w' fq := by
  constructor
  · rintro ⟨stage, hw', hne⟩
    dsimp only at hw'
    by_cases heq : w' = w
    · subst heq
      rw [Function.update_self] at hw'
      cases hw'
    · rw [Function.update_of_ne heq] at hw'
      exact ⟨heq, stage, hw', hne⟩
  · rintro ⟨heq, stage, hw', hne⟩
    exact ⟨stage, (Function.update_of_ne heq _ _).trans hw', hne⟩

omit [DecidableEq ω] in
/-- A call that ends keeps the owners of what is to be walked, unless it erases the last one. -/
theorem Inv.walkable_finishCall (h : Inv s) (hwalkable : s.Walkable)
    (hcall : s.call = some ⟨op, fd, fq, some ok⟩) :
    (s.finishCall ⟨op, fd, fq, some ok⟩ ok).Walkable ↔ OwnerLeft s .resumeCall := by
  cases op with
  | add =>
      refine iff_of_true ?_ fun fd' fq' ok' hdel => ?_
      · refine Walkable.mono hwalkable (fun _ => id) (fun fq' hfq' => ?_) fun _ _ => id
        cases ok with
        | true => exact List.mem_cons_of_mem _ hfq'
        | false => exact hfq'
      · cases hcall.symm.trans hdel
  | mod =>
      refine iff_of_true hwalkable fun fd' fq' ok' hdel => ?_
      cases hcall.symm.trans hdel
  | del =>
      have herase := h.registered_finish_del (h.call _ hcall).1 (some ok) ok
      constructor
      · intro hafter fd' fq' ok' hdel
        cases hcall.symm.trans hdel
        by_cases hmem : Entry.file fq ∈ s.toWalk
        · rcases hafter fq hmem with hreg | hsusp
          · exact absurd rfl ((herase fq).mp hreg).2
          · exact .inr hsusp
        · exact .inl hmem
      · intro hleft fq' hmem
        rcases hwalkable fq' hmem with hreg | hsusp
        · by_cases heq : fq' = fq
          · subst heq
            rcases hleft fd fq' ok hcall with hnot | hsusp
            · exact absurd hmem hnot
            · exact .inr hsusp
          · exact .inl ((herase fq').mpr ⟨hreg, heq⟩)
        · exact .inr hsusp

omit [DecidableEq δ] in
/-- A coroutine that ends keeps the owners of what is to be walked, unless it drops the last
one. -/
theorem walkable_resumeWait (hwalkable : s.Walkable) (hw : s.awaiters w = some (fq, .woken)) :
    { s with awaiters := Function.update s.awaiters w none }.Walkable ↔
      OwnerLeft s (.resumeWait w) := by
  constructor
  · intro hafter fq' hfq'
    by_cases hmem : Entry.file fq' ∈ s.toWalk
    · rcases hafter fq' hmem with hreg | ⟨w', hsusp⟩
      · exact .inr (.inl hreg)
      · exact .inr (.inr ⟨w', suspended_update_none.mp hsusp⟩)
    · exact .inl hmem
  · intro hleft fq' hmem
    rcases hwalkable fq' hmem with hreg | ⟨w', hsusp⟩
    · exact .inl hreg
    · by_cases heq : w' = w
      · subst heq
        rcases hsusp with ⟨stage, hstage, _⟩
        cases hw.symm.trans hstage
        rcases hleft fq hw with hnot | hreg | ⟨w₁, hsusp⟩
        · exact absurd hmem hnot
        · exact .inl hreg
        · exact .inr ⟨w₁, suspended_update_none.mpr hsusp⟩
      · exact .inr ⟨w', suspended_update_none.mpr ⟨heq, hsusp⟩⟩

omit [DecidableEq ω] in
/-- {lit}`epoll_wait` returns what has an entry, or what {lit}`updateIRQ` is about to insert. -/
theorem Inv.walkable_waitIRQ (h : Inv s) (hphase : s.phase = .poll) {entries : List (Entry φ)}
    (hpolled : ∀ entry ∈ entries, entry.Polled s.polled) :
    { s with
      phase := .drain
      list_ := s.list_ ++ entries
      waked_ := s.rewake entries }.Walkable ↔ OwnerLeft s (.waitIRQ entries) := by
  constructor
  · intro hafter fd fq done hadd hmem
    have hok := h.call _ hadd
    rcases hafter fq (List.mem_append_right _ hmem) with hreg | ⟨w, stage, hw, _⟩
    · exact hok.2.1 hreg
    · exact hok.2.2.1 w stage hw
  · intro hleft fq hmem
    have hnew : Entry.file fq ∈ entries := by
      rcases List.mem_append.mp hmem with hold | hnew
      · rw [h.cleared hphase] at hold
        cases hold
      · exact hnew
    rcases h.polled fq (hpolled _ hnew) with hreg | ⟨⟨op, fd, fq', done⟩, hcall, hop, hfq⟩
    · exact .inl hreg
    · cases hop
      cases hfq
      exact absurd hnew (hleft fd fq' done hcall)

omit [DecidableEq δ] [DecidableEq ω] in
/-- {lit}`wakeWQ` is called for what has an owner. -/
theorem walkable_wakeWQ (hphase : s.phase = .drain) (hwalkable : s.Walkable)
    (howned : s.Owned fq) : (s.wakeWQ fq).Walkable := by
  have hwalk : s.toWalk = s.list_ := by rw [State.toWalk, hphase]
  unfold State.wakeWQ
  split
  · exact hwalkable
  · intro fq' hmem
    have hmem : Entry.file fq' ∈ s.list_ ++ [.file fq] := by
      rw [State.toWalk, hphase] at hmem
      exact hmem
    rcases List.mem_append.mp hmem with hmem | hmem
    · exact hwalkable fq' (hwalk ▸ hmem)
    · cases List.mem_singleton.mp hmem
      exact howned

/-- While the ICU runs the function of a {lit}`FileAwaiter`, its coroutine is an owner. -/
theorem Inv.walkable_runWait (h : Inv s) (hphase : s.phase = .drain) (hwalkable : s.Walkable)
    {funcs : List (Func φ ω)} (hfuncs : s.funcs_ = .wait w fq :: funcs) (ok : Bool) :
    ({ s with funcs_ := funcs : State δ φ ω }.runFunc ok (.wait w fq)).Walkable := by
  have hqueued : s.awaiters w = some (fq, .queued) := by
    refine h.waits w fq ?_
    rw [hfuncs]
    exact List.mem_cons_self
  have hkeep : { s with
      funcs_ := funcs
      awaiters := Function.update s.awaiters w (some (fq, .waiting)) : State δ φ ω }.Walkable := by
    refine Walkable.mono hwalkable (fun _ => id) (fun _ => id) fun w' fq' => ?_
    refine suspended_update nofun fun stage' hw' _ => ?_
    cases hqueued.symm.trans hw'
    rfl
  exact walkable_wakeWQ hphase hkeep (.inr ⟨w, .waiting, Function.update_self .., nofun⟩)

/-- Which steps leave what is to be walked without an owner. -/
theorem Inv.walkable_iff (h : Inv s) (hwalkable : s.Walkable) {a : Action δ φ ω}
    (hstep : Registry.step s a = some s') : s'.Walkable ↔ OwnerLeft s a := by
  have hcase := step_cases hstep
  cases a with
  | updateIRQ fd fq waked =>
      refine iff_of_true ?_ trivial
      rcases updateIRQ_cases hcase.2 with ⟨old, _, rfl⟩ | ⟨_, _, rfl⟩
      · exact hwalkable
      · exact hwalkable
  | removeIRQ fd =>
      rcases hcase with ⟨_, rfl⟩
      refine iff_of_true ?_ trivial
      unfold State.removeIRQ
      split <;> exact hwalkable
  | resumeCall =>
      rcases hcase with ⟨op, fd, fq, ok, hcall, rfl⟩
      exact h.walkable_finishCall hwalkable hcall
  | waitFile w fd =>
      rcases hcase with ⟨fq, _, hw, _, rfl⟩
      refine iff_of_true (Walkable.mono hwalkable (fun _ => id) (fun _ => id) ?_) trivial
      rintro w' fq' ⟨stage, hw', hne⟩
      have heq : w' ≠ w := fun heq => nomatch (heq ▸ hw').symm.trans hw
      exact ⟨stage, (Function.update_of_ne heq _ _).trans hw', hne⟩
  | suspend w =>
      rcases hcase with ⟨fq, hw, rfl⟩
      refine iff_of_true (Walkable.mono hwalkable (fun _ => id) (fun _ => id) ?_) trivial
      refine fun w' fq' => suspended_update nofun fun stage hw' hne => ?_
      cases hw.symm.trans hw'
      rfl
  | resumeWait w =>
      rcases hcase with ⟨fq, hw, rfl⟩
      exact walkable_resumeWait hwalkable hw
  | run ok =>
      rcases hcase with ⟨func, funcs, hphase, hfuncs, rfl⟩
      refine iff_of_true ?_ trivial
      cases func with
      | ctl op fq => exact hwalkable
      | wait w fq => exact h.walkable_runWait hphase hwalkable hfuncs ok
  | drained =>
      rcases hcase with ⟨hphase, rfl⟩
      refine iff_of_true (Walkable.mono hwalkable (fun fq hmem => ?_) (fun _ => id) fun _ _ => id)
        trivial
      simp only [State.toWalk, hphase]
      exact hmem
  | walk woken =>
      rcases hcase with ⟨entry, rest, hphase, _, rfl⟩
      refine iff_of_true (Walkable.mono hwalkable (fun fq hmem => ?_) (fun _ => id) ?_) trivial
      · simp only [State.toWalk, hphase]
        exact List.mem_cons_of_mem _ hmem
      · rintro w fq ⟨stage, hw, hne⟩
        by_cases hmem : w ∈ woken
        · refine ⟨.woken, (if_pos hmem).trans ?_, nofun⟩
          rw [hw]
          rfl
        · exact ⟨stage, (if_neg hmem).trans hw, hne⟩
  | clear =>
      rcases hcase with ⟨_, rfl⟩
      exact iff_of_true (fun fq hmem => nomatch hmem) trivial
  | waitIRQ entries =>
      rcases hcase with ⟨hphase, hpolled, rfl⟩
      exact h.walkable_waitIRQ hphase hpolled

/-- In every state of a run all that the loop goes on to walk has an owner, if and only if every
step of the run leaves it one. -/
theorem owned_iff {as : List (Action δ φ ω)} {s : State δ φ ω}
    (hrun : machine.run State.construct as = some s) :
    machine.Always State.Walkable State.construct as ↔
      machine.Along OwnerLeft State.construct as :=
  Machine.always_iff_along (fun _ _ _ h hstep => Inv.step h hstep)
    (fun _ _ _ h hwalkable hstep => Inv.walkable_iff h hwalkable hstep) inv_construct
    (fun _ hmem => nomatch hmem) hrun

/-- A descriptor is removed while a coroutine waits on it. -/
def removeWhileWaiting : List (Action Nat Nat Nat) :=
  [.updateIRQ 0 0 false, .run true, .resumeCall, .waitFile 0 0, .suspend 0, .run true,
    .removeIRQ 0, .run true, .resumeCall, .drained, .walk [0], .resumeWait 0]

/-- Its coroutine stays an owner until the walk. -/
theorem removeWhileWaiting_owned :
    machine.Always State.Walkable State.construct removeWhileWaiting := by
  refine (owned_iff rfl).mpr ?_
  refine (Machine.along_cons rfl _).mpr ⟨trivial, ?_⟩
  refine (Machine.along_cons rfl _).mpr ⟨trivial, ?_⟩
  refine (Machine.along_cons rfl _).mpr ⟨nofun, ?_⟩
  refine (Machine.along_cons rfl _).mpr ⟨trivial, ?_⟩
  refine (Machine.along_cons rfl _).mpr ⟨trivial, ?_⟩
  refine (Machine.along_cons rfl _).mpr ⟨trivial, ?_⟩
  refine (Machine.along_cons rfl _).mpr ⟨trivial, ?_⟩
  refine (Machine.along_cons rfl _).mpr ⟨trivial, ?_⟩
  refine (Machine.along_cons rfl _).mpr ⟨?_, ?_⟩
  · rintro fd fq ok ⟨⟩
    exact .inr ⟨0, .waiting, rfl, nofun⟩
  refine (Machine.along_cons rfl _).mpr ⟨trivial, ?_⟩
  refine (Machine.along_cons rfl _).mpr ⟨trivial, ?_⟩
  refine (Machine.along_cons rfl _).mpr ⟨fun _ _ => .inl List.not_mem_nil, trivial⟩

/-- A descriptor is removed between the delivery of its event and the walk. -/
def removeThenWalk : List (Action Nat Nat Nat) :=
  [.updateIRQ 0 0 false, .run true, .resumeCall, .drained, .clear, .waitIRQ [.file 0],
    .removeIRQ 0, .run true, .resumeCall, .drained]

/-- The loop goes on to walk a {lit}`FileWQ` without an owner. -/
theorem walk_dangling :
    ∃ s, machine.run State.construct removeThenWalk = some s ∧ s.phase = .walk [.file 0] ∧
      ¬ s.Owned 0 := by
  refine ⟨_, rfl, rfl, ?_⟩
  rintro (hreg | ⟨w, stage, hw, _⟩)
  · cases hreg
  · cases hw

end Registry
end CoEpoll
