import CoEpoll.CoKernel.Registry.Steps

/-!
# `removeIRQ`: the coroutines that still wait on the descriptor

{lit}`waitFile` does not suspend on a descriptor without an entry in {lit}`fileWQPtrs_`, but it releases
{lit}`fMapLk_` before it suspends, and {lit}`removeIRQ` does not look at the {lit}`items_` of the {lit}`FileWQ` whose
entry it erases.

Main results:

- Theorem {lit}`Inv.attended_step_iff`: which steps leave a coroutine on a {lit}`FileWQ` without an entry.
- Theorem {lit}`attended_iff`: every suspended coroutine is on a registered {lit}`FileWQ` in every state of
  a run if and only if no step of the run is one of these.
- Theorem {lit}`close_strands`: a run in which {lit}`removeIRQ` completes while a coroutine waits.
-/

namespace CoEpoll
namespace Registry

open Transition ICU

variable {δ φ ω : Type*}

/-- {lit}`w` is suspended and has not been passed to {lit}`wakeUpReady`: it is in the {lit}`items_` of {lit}`fq`, or the
function that puts it there is queued. -/
def State.Waits (s : State δ φ ω) (w : ω) (fq : φ) : Prop :=
  s.awaiters w = some (fq, .queued) ∨ s.awaiters w = some (fq, .waiting)

/-- Every coroutine that is suspended on file I/O is on a {lit}`FileWQ` that has its entry. -/
def State.Attended (s : State δ φ ω) : Prop :=
  ∀ w fq, s.Waits w fq → s.Registered fq

/-- The step strands nobody: {lit}`removeIRQ` erases its entry only if no coroutine is suspended on
the {lit}`FileWQ`, and {lit}`waitFile` suspends only on a {lit}`FileWQ` that still has its entry. -/
def NoneLeft (s : State δ φ ω) : Action δ φ ω → Prop
  | .resumeCall => ∀ fd fq ok, s.call = some ⟨.del, fd, fq, some ok⟩ → ∀ w, ¬ s.Waits w fq
  | .suspend w => ∀ fq, s.awaiters w = some (fq, .found) → s.Registered fq
  | _ => True

variable [DecidableEq δ] [DecidableEq φ] [DecidableEq ω]
variable {s s' : State δ φ ω} {op : Op} {fd : δ} {fq : φ} {w : ω} {ok : Bool}

/-! ## What a step leaves behind -/

omit [DecidableEq δ] [DecidableEq φ] [DecidableEq ω] in
/-- Entries stay, and nobody new is suspended. -/
theorem Attended.mono (h : s.Attended) (hreg : ∀ fq, s.Registered fq → s'.Registered fq)
    (hwaits : ∀ w fq, s'.Waits w fq → s.Waits w fq) : s'.Attended := by
  intro w fq hw
  apply hreg
  exact h w fq (hwaits w fq hw)

omit [DecidableEq δ] [DecidableEq φ] in
/-- Whether another coroutine is suspended does not depend on this one. -/
theorem waits_update {value : Option (φ × Stage)} {w' : ω} (hne : w' ≠ w) {fq' : φ} :
    { s with awaiters := Function.update s.awaiters w value }.Waits w' fq' ↔ s.Waits w' fq' := by
  unfold State.Waits
  dsimp only
  rw [Function.update_of_ne hne]

omit [DecidableEq δ] [DecidableEq φ] in
/-- A coroutine that is not suspended afterwards leaves the others as they are. -/
theorem Attended.update (h : s.Attended) {value : Option (φ × Stage)}
    (hvalue : ∀ fq, value ≠ some (fq, .queued) ∧ value ≠ some (fq, .waiting)) :
    { s with awaiters := Function.update s.awaiters w value }.Attended := by
  refine Attended.mono h (fun _ => id) ?_
  intro w' fq' hw'
  by_cases heq : w' = w
  · subst heq
    rcases hw' with hw' | hw'
    · exact absurd ((Function.update_self ..).symm.trans hw') (hvalue fq').1
    · exact absurd ((Function.update_self ..).symm.trans hw') (hvalue fq').2
  · exact (waits_update heq).mp hw'

omit [DecidableEq φ] [DecidableEq ω] in
/-- A call that ends strands those who are suspended on what it erases. -/
theorem Inv.attended_finishCall (h : Inv s) (hattended : s.Attended)
    (hcall : s.call = some ⟨op, fd, fq, some ok⟩) :
    (s.finishCall ⟨op, fd, fq, some ok⟩ ok).Attended ↔ NoneLeft s .resumeCall := by
  cases op with
  | add =>
      apply iff_of_true
      · refine Attended.mono hattended ?_ fun _ _ => id
        intro fq' hreg
        cases ok with
        | true => exact List.mem_cons_of_mem _ hreg
        | false => exact hreg
      · intro fd' fq' ok' hdel
        cases hcall.symm.trans hdel
  | mod =>
      apply iff_of_true hattended
      intro fd' fq' ok' hdel
      cases hcall.symm.trans hdel
  | del =>
      have herase := h.registered_finish_del (h.call _ hcall).1 (some ok) ok
      constructor
      · intro hafter fd' fq' ok' hdel w hw
        cases hcall.symm.trans hdel
        exact ((herase fq).mp (hafter w fq hw)).2 rfl
      · intro hnone w fq' hw
        apply (herase fq').mpr
        refine ⟨hattended w fq' hw, ?_⟩
        rintro rfl
        exact hnone fd fq' ok hcall w hw

omit [DecidableEq δ] [DecidableEq φ] in
/-- A coroutine that suspends is left alone if its {lit}`FileWQ` has lost its entry. -/
theorem attended_suspend (hattended : s.Attended) (hw : s.awaiters w = some (fq, .found)) :
    { s with
      awaiters := Function.update s.awaiters w (some (fq, .queued))
      funcs_ := s.funcs_ ++ [.wait w fq] : State δ φ ω }.Attended ↔ NoneLeft s (.suspend w) := by
  constructor
  · intro hafter fq' hw'
    cases hw.symm.trans hw'
    exact hafter w fq (.inl (Function.update_self ..))
  · intro hreg w' fq' hw'
    by_cases heq : w' = w
    · subst heq
      have hfq : fq = fq' := by
        rcases hw' with hw' | hw'
        · cases (Function.update_self ..).symm.trans hw'
          rfl
        · cases (Function.update_self ..).symm.trans hw'
      exact hfq ▸ hreg fq hw
    · exact hattended w' fq' ((waits_update heq).mp hw')

omit [DecidableEq δ] [DecidableEq ω] in
@[simp]
theorem waits_wakeWQ {fq' : φ} : (s.wakeWQ fq).Waits w fq' ↔ s.Waits w fq' := by
  unfold State.wakeWQ
  split <;> exact Iff.rfl

omit [DecidableEq δ] [DecidableEq ω] in
@[simp]
theorem registered_wakeWQ {fq' : φ} : (s.wakeWQ fq).Registered fq' ↔ s.Registered fq' := by
  unfold State.wakeWQ
  split <;> exact Iff.rfl

/-- A coroutine that comes into {lit}`items_` was suspended before. -/
theorem Inv.attended_runFunc (h : Inv s) (hattended : s.Attended) {func : Func φ ω}
    {funcs : List (Func φ ω)} (hfuncs : s.funcs_ = func :: funcs) (ok : Bool) :
    ({ s with funcs_ := funcs : State δ φ ω }.runFunc ok func).Attended := by
  cases func with
  | ctl op fq => exact hattended
  | wait w fq =>
      have hqueued : s.awaiters w = some (fq, .queued) := by
        apply h.waits w fq
        rw [hfuncs]
        exact List.mem_cons_self
      intro w' fq' hw'
      apply registered_wakeWQ.mpr
      have hw' := waits_wakeWQ.mp hw'
      apply hattended w' fq'
      by_cases heq : w' = w
      · subst heq
        rcases hw' with hw' | hw'
        · cases (Function.update_self ..).symm.trans hw'
        · cases (Function.update_self ..).symm.trans hw'
          exact .inl hqueued
      · exact (waits_update heq).mp hw'

omit [DecidableEq δ] [DecidableEq φ] in
/-- Waking coroutines suspends nobody. -/
theorem waits_of_wake {woken : List ω} (hw : { s with awaiters := s.wake woken }.Waits w fq) :
    s.Waits w fq := by
  have hold : ∀ stage, stage ≠ .woken → s.wake woken w = some (fq, stage) →
      s.awaiters w = some (fq, stage) := by
    intro stage hne hwake
    unfold State.wake at hwake
    split at hwake
    · rcases Option.map_eq_some_iff.mp hwake with ⟨_, _, heq⟩
      cases heq
      exact absurd rfl hne
    · exact hwake
  rcases hw with hw | hw
  · exact .inl (hold .queued nofun hw)
  · exact .inr (hold .waiting nofun hw)

/-- Which steps strand a coroutine. -/
theorem Inv.attended_step_iff (h : Inv s) (hattended : s.Attended) {a : Action δ φ ω}
    (hstep : Registry.step s a = some s') : s'.Attended ↔ NoneLeft s a := by
  have hcase := step_cases hstep
  cases a with
  | updateIRQ fd fq waked =>
      apply iff_of_true _ trivial
      rcases updateIRQ_cases hcase.2 with ⟨old, _, rfl⟩ | ⟨_, _, rfl⟩
      · exact hattended
      · exact hattended
  | removeIRQ fd =>
      rcases hcase with ⟨_, rfl⟩
      apply iff_of_true _ trivial
      unfold State.removeIRQ
      split <;> exact hattended
  | resumeCall =>
      rcases hcase with ⟨op, fd, fq, ok, hcall, rfl⟩
      exact h.attended_finishCall hattended hcall
  | waitFile w fd =>
      rcases hcase with ⟨fq, _, _, _, rfl⟩
      exact iff_of_true (Attended.update hattended fun _ => ⟨nofun, nofun⟩) trivial
  | suspend w =>
      rcases hcase with ⟨fq, hw, rfl⟩
      exact attended_suspend hattended hw
  | resumeWait w =>
      rcases hcase with ⟨fq, _, rfl⟩
      exact iff_of_true (Attended.update hattended fun _ => ⟨nofun, nofun⟩) trivial
  | run ok =>
      rcases hcase with ⟨func, funcs, _, hfuncs, rfl⟩
      exact iff_of_true (h.attended_runFunc hattended hfuncs ok) trivial
  | drained =>
      rcases hcase with ⟨_, rfl⟩
      exact iff_of_true hattended trivial
  | walk woken =>
      rcases hcase with ⟨entry, rest, _, _, rfl⟩
      apply iff_of_true _ trivial
      exact Attended.mono hattended (fun _ => id) fun _ _ => waits_of_wake
  | clear =>
      rcases hcase with ⟨_, rfl⟩
      exact iff_of_true hattended trivial
  | waitIRQ entries =>
      rcases hcase with ⟨_, _, rfl⟩
      exact iff_of_true hattended trivial

/-! ## Runs -/

/-- In every state of a run every suspended coroutine is on a {lit}`FileWQ` that has its entry, if and
only if no step of the run strands one. -/
theorem attended_iff {as : List (Action δ φ ω)} {s : State δ φ ω}
    (hrun : machine.run State.construct as = some s) :
    machine.Always State.Attended State.construct as ↔
      machine.Along NoneLeft State.construct as := by
  apply Machine.always_iff_along (I := Inv)
  · exact fun _ _ _ h hstep => Inv.step h hstep
  · exact fun _ _ _ h hattended hstep => Inv.attended_step_iff h hattended hstep
  · exact inv_construct
  · rintro w fq (hw | hw) <;> cases hw
  · exact hrun

/-- A descriptor is removed when its only waiter has been woken. -/
def closeAfterWake : List (Action Nat Nat Unit) :=
  [.updateIRQ 0 0 false, .run true, .resumeCall, .waitFile () 0, .suspend (), .run true,
    .drained, .walk [()], .removeIRQ 0, .clear, .waitIRQ [], .run true, .resumeCall]

theorem closeAfterWake_attended :
    machine.Always State.Attended State.construct closeAfterWake := by
  apply (attended_iff (s := _) rfl).mpr
  refine (Machine.along_cons rfl _).mpr ⟨trivial, ?_⟩
  refine (Machine.along_cons rfl _).mpr ⟨trivial, ?_⟩
  refine (Machine.along_cons rfl _).mpr ⟨nofun, ?_⟩
  refine (Machine.along_cons rfl _).mpr ⟨trivial, ?_⟩
  refine (Machine.along_cons rfl _).mpr ⟨?_, ?_⟩
  · rintro fq ⟨⟩
    exact List.mem_singleton_self _
  refine (Machine.along_cons rfl _).mpr ⟨trivial, ?_⟩
  refine (Machine.along_cons rfl _).mpr ⟨trivial, ?_⟩
  refine (Machine.along_cons rfl _).mpr ⟨trivial, ?_⟩
  refine (Machine.along_cons rfl _).mpr ⟨trivial, ?_⟩
  refine (Machine.along_cons rfl _).mpr ⟨trivial, ?_⟩
  refine (Machine.along_cons rfl _).mpr ⟨trivial, ?_⟩
  refine (Machine.along_cons rfl _).mpr ⟨trivial, ?_⟩
  refine (Machine.along_cons rfl _).mpr ⟨?_, trivial⟩
  rintro fd fq ok ⟨⟩ ⟨⟩ (hw | hw) <;> cases hw

/-- A descriptor is removed while a coroutine waits on it. -/
def closeWhileWaiting : List (Action Nat Nat Nat) :=
  [.updateIRQ 0 0 false, .run true, .resumeCall, .waitFile 0 0, .suspend 0, .run true,
    .drained, .walk [], .clear, .removeIRQ 0, .waitIRQ [], .run true, .resumeCall]

/-- {lit}`removeIRQ` completes, and the coroutine is still in {lit}`items_`; the ICU has no pointer to the
{lit}`FileWQ` left and the kernel does not poll it. -/
theorem close_strands :
    ∃ s, machine.run State.construct closeWhileWaiting = some s ∧ s.call = none ∧
      s.awaiters 0 = some (0, .waiting) ∧ s.list_ = [] ∧ s.funcs_ = [] ∧ s.polled = ∅ ∧
      ¬ s.Registered 0 := by
  refine ⟨_, rfl, rfl, rfl, rfl, rfl, rfl, ?_⟩
  exact List.not_mem_nil

end Registry
end CoEpoll
