import CoEpoll.CoKernel.Registry

/-!
# `fileWQPtrs_` and an ICU: the invariant

The call that holds {lit}`fMapLk_` has at most one function in the ICU's queue, the kernel polls what
is registered or about to be inserted, and each queued waiter has one function.

Main results:

- Theorem {lit}`step_cases`: what a step does.
- Theorem {lit}`Inv.step`: every step keeps the invariant.
-/

namespace CoEpoll
namespace Registry

open Transition ICU

variable {δ φ ω : Type*}

/-- {lit}`fq` has an entry in {lit}`fileWQPtrs_`. -/
def State.Registered (s : State δ φ ω) (fq : φ) : Prop :=
  fq ∈ s.fileWQPtrs_.map Prod.snd

/-! ## The invariant -/

/-- The function of an {lit}`ICUFAwaiter`. -/
def Func.ctl? : Func φ ω → Option (Op × φ)
  | ctl op fq => some (op, fq)
  | wait _ _ => none

/-- The coroutine of a {lit}`FileAwaiter`. -/
def Func.wait? : Func φ ω → Option ω
  | ctl _ _ => none
  | wait w _ => some w

/-- The function of the call that has not run yet. -/
def pendingCtl : Option (Call δ φ) → List (Op × φ)
  | some ⟨op, _, fq, none⟩ => [(op, fq)]
  | _ => []

/-- What a call relies on while it waits for the ICU: nobody has got hold of a {lit}`FileWQ` that is
being added, and one that is being removed has its entry. -/
def CallOk [DecidableEq δ] (s : State δ φ ω) : Call δ φ → Prop
  | ⟨.add, fd, fq, done⟩ =>
      fq ∈ s.used ∧ ¬ s.Registered fq ∧ (∀ w stage, s.awaiters w ≠ some (fq, stage)) ∧
        Assoc.find s.fileWQPtrs_ fd = none ∧ (done ≠ some true → fq ∉ s.polled)
  | ⟨.mod, _, _, _⟩ => True
  | ⟨.del, fd, fq, done⟩ =>
      Assoc.find s.fileWQPtrs_ fd = some fq ∧ (done ≠ none → fq ∉ s.polled)

/-- The map, the interest list, the function queue and the call in progress agree. -/
structure Inv [DecidableEq δ] (s : State δ φ ω) : Prop where
  keyed : Assoc.Keyed s.fileWQPtrs_
  distinct : (s.fileWQPtrs_.map Prod.snd).Nodup
  made : ∀ fq, s.Registered fq → fq ∈ s.used
  held : ∀ w fq stage, s.awaiters w = some (fq, stage) → fq ∈ s.used
  call : ∀ c, s.call = some c → CallOk s c
  polled : ∀ fq, fq ∈ s.polled → s.Registered fq ∨ ∃ c, s.call = some c ∧ c.op = .add ∧ c.fq = fq
  ctls : s.funcs_.filterMap Func.ctl? = pendingCtl s.call
  waits : ∀ w fq, Func.wait w fq ∈ s.funcs_ → s.awaiters w = some (fq, .queued)
  once : (s.funcs_.filterMap Func.wait?).Nodup
  cleared : s.phase = .poll → s.list_ = []

variable [DecidableEq δ]

theorem inv_construct : Inv (State.construct : State δ φ ω) where
  keyed := List.nodup_nil
  distinct := List.nodup_nil
  made _ h := absurd h List.not_mem_nil
  held _ _ _ h := nomatch h
  call _ h := nomatch h
  polled fq h := absurd h (Finset.notMem_empty fq)
  ctls := rfl
  waits _ _ h := absurd h List.not_mem_nil
  once := List.nodup_nil
  cleared h := nomatch h

variable {s s' : State δ φ ω} {op : Op} {fd : δ} {fq : φ} {w : ω} {ok : Bool}

theorem Registered.of_find (h : Assoc.find s.fileWQPtrs_ fd = some fq) : s.Registered fq :=
  List.mem_map.mpr ⟨_, Assoc.mem_of_find h, rfl⟩

/-- A call that begins queues its function. -/
theorem Inv.begin (h : Inv s) (hnone : s.call = none) (op : Op) (used : Finset φ)
    (waked : φ → Bool) (hused : ∀ fq, fq ∈ s.used → fq ∈ used)
    (hok : CallOk { s with used := used } ⟨op, fd, fq, none⟩) :
    Inv { s with
      call := some ⟨op, fd, fq, none⟩
      funcs_ := s.funcs_ ++ [.ctl op fq]
      waked_ := waked
      used := used } where
  keyed := h.keyed
  distinct := h.distinct
  made fq hfq := hused fq (h.made fq hfq)
  held w fq stage hw := hused fq (h.held w fq stage hw)
  call c hc := by
    cases hc
    cases op <;> exact hok
  polled fq hfq := by
    rcases h.polled fq hfq with hreg | ⟨c, hc, _⟩
    · exact .inl hreg
    · exact absurd (hnone.symm.trans hc) nofun
  ctls := by
    have hctls := h.ctls
    rw [hnone] at hctls
    rw [List.filterMap_append, hctls]
    rfl
  waits w fq hmem := by
    rcases List.mem_append.mp hmem with hmem | hmem
    · exact h.waits w fq hmem
    · cases List.mem_singleton.mp hmem
  once := by
    rw [List.filterMap_append]
    exact (List.append_nil (s.funcs_.filterMap Func.wait?)).symm ▸ h.once
  cleared := h.cleared

/-- A step that leaves the map, the calls and the queue alone. -/
theorem Inv.keep (h : Inv s) (hmap : s'.fileWQPtrs_ = s.fileWQPtrs_) (hcall : s'.call = s.call)
    (hpolled : s'.polled = s.polled) (hused : s'.used = s.used)
    (hheld : ∀ w fq stage, s'.awaiters w = some (fq, stage) →
      s.Registered fq ∧ s.call = none ∨ ∃ stage', s.awaiters w = some (fq, stage'))
    (hctls : s'.funcs_.filterMap Func.ctl? = s.funcs_.filterMap Func.ctl?)
    (hwaits : ∀ w fq, Func.wait w fq ∈ s'.funcs_ → s'.awaiters w = some (fq, .queued))
    (honce : (s'.funcs_.filterMap Func.wait?).Nodup)
    (hcleared : s'.phase = .poll → s'.list_ = []) : Inv s' where
  keyed := hmap ▸ h.keyed
  distinct := hmap ▸ h.distinct
  made fq hfq := by
    rw [State.Registered, hmap] at hfq
    exact hused ▸ h.made fq hfq
  held w fq stage hw := by
    rw [hused]
    rcases hheld w fq stage hw with ⟨hreg, _⟩ | ⟨stage', hw'⟩
    · exact h.made fq hreg
    · exact h.held w fq stage' hw'
  call c hc := by
    have hold := h.call c (hcall ▸ hc)
    rcases c with ⟨op, fd, fq, done⟩
    cases op with
    | add =>
        rcases hold with ⟨hmade, hreg, hfree, hfind, hnot⟩
        refine ⟨hused ▸ hmade, ?_, fun w stage hw => ?_, hmap ▸ hfind, hpolled ▸ hnot⟩
        · rwa [State.Registered, hmap]
        · rcases hheld w fq stage hw with ⟨_, hnone⟩ | ⟨stage', hw'⟩
          · rw [hcall, hnone] at hc
            cases hc
          · exact hfree w stage' hw'
    | mod => trivial
    | del => exact ⟨hmap ▸ hold.1, hpolled ▸ hold.2⟩
  polled fq hfq := by
    rw [State.Registered, hmap, hcall]
    exact h.polled fq (hpolled ▸ hfq)
  ctls := by rw [hctls, hcall, h.ctls]
  waits := hwaits
  once := honce
  cleared := hcleared

variable [DecidableEq φ] [DecidableEq ω]

/-! ## What a step does -/

/-- The steps by their effect. -/
def Steps (s : State δ φ ω) (a : Action δ φ ω) (s' : State δ φ ω) : Prop :=
  match a with
  | .updateIRQ fd fq waked => s.call = none ∧ s.updateIRQ fd fq waked = some s'
  | .removeIRQ fd => s.call = none ∧ s' = s.removeIRQ fd
  | .resumeCall =>
      ∃ op fd fq ok, s.call = some ⟨op, fd, fq, some ok⟩ ∧
        s' = s.finishCall ⟨op, fd, fq, some ok⟩ ok
  | .waitFile w fd =>
      ∃ fq, s.call = none ∧ s.awaiters w = none ∧ Assoc.find s.fileWQPtrs_ fd = some fq ∧
        s' = { s with awaiters := Function.update s.awaiters w (some (fq, .found)) }
  | .suspend w =>
      ∃ fq, s.awaiters w = some (fq, .found) ∧
        s' = { s with
          awaiters := Function.update s.awaiters w (some (fq, .queued))
          funcs_ := s.funcs_ ++ [.wait w fq] }
  | .resumeWait w =>
      ∃ fq, s.awaiters w = some (fq, .woken) ∧
        s' = { s with awaiters := Function.update s.awaiters w none }
  | .run ok =>
      ∃ func funcs, s.phase = .drain ∧ s.funcs_ = func :: funcs ∧
        s' = { s with funcs_ := funcs : State δ φ ω }.runFunc ok func
  | .drained => s.phase = .drain ∧ s' = { s with phase := .walk s.list_ }
  | .walk woken =>
      ∃ entry rest, s.phase = .walk (entry :: rest) ∧ (∀ w ∈ woken, s.CanWake entry w) ∧
        s' = { s with
          phase := .walk rest
          awaiters := s.wake woken
          waked_ := s.unwake entry }
  | .clear => s.phase = .walk [] ∧ s' = { s with phase := .poll, list_ := [] }
  | .waitIRQ entries =>
      s.phase = .poll ∧ (∀ entry ∈ entries, entry.Polled s.polled) ∧
        s' = { s with
          phase := .drain
          list_ := s.list_ ++ entries
          waked_ := s.rewake entries }

theorem step_cases {a : Action δ φ ω} (hstep : step s a = some s') : Steps s a s' := by
  cases a with
  | updateIRQ fd fq waked => exact Option.ite_none_right_eq_some.mp hstep
  | removeIRQ fd =>
      rcases Option.ite_none_right_eq_some.mp hstep with ⟨hnone, hstep⟩
      cases hstep
      exact ⟨hnone, rfl⟩
  | resumeCall =>
      simp only [step] at hstep
      split at hstep
      · rename_i hcall
        cases hstep
        exact ⟨_, _, _, _, hcall, rfl⟩
      · cases hstep
  | waitFile w fd =>
      simp only [step] at hstep
      split at hstep
      · rename_i hcall hw hfind
        cases hstep
        exact ⟨_, hcall, hw, hfind, rfl⟩
      · cases hstep
  | suspend w =>
      simp only [step] at hstep
      split at hstep
      · rename_i hw
        cases hstep
        exact ⟨_, hw, rfl⟩
      · cases hstep
  | resumeWait w =>
      simp only [step] at hstep
      split at hstep
      · rename_i hw
        cases hstep
        exact ⟨_, hw, rfl⟩
      · cases hstep
  | run ok =>
      simp only [step] at hstep
      split at hstep
      · rename_i hphase hfuncs
        cases hstep
        exact ⟨_, _, hphase, hfuncs, rfl⟩
      · cases hstep
  | drained =>
      simp only [step] at hstep
      split at hstep
      · rename_i hphase _
        cases hstep
        exact ⟨hphase, rfl⟩
      · cases hstep
  | walk woken =>
      simp only [step] at hstep
      split at hstep
      · rename_i hphase
        rcases Option.ite_none_right_eq_some.mp hstep with ⟨hcan, hstep⟩
        cases hstep
        exact ⟨_, _, hphase, hcan, rfl⟩
      · cases hstep
  | clear =>
      simp only [step] at hstep
      split at hstep
      · rename_i hphase
        cases hstep
        exact ⟨hphase, rfl⟩
      · cases hstep
  | waitIRQ entries =>
      simp only [step] at hstep
      split at hstep
      · rename_i hphase
        rcases Option.ite_none_right_eq_some.mp hstep with ⟨hpolled, hstep⟩
        cases hstep
        exact ⟨hphase, hpolled, rfl⟩
      · cases hstep

/-! ## The steps of the CPU threads -/

omit [DecidableEq ω] in
/-- {lit}`updateIRQ` uses the {lit}`FileWQ` that is registered, or makes one. -/
theorem updateIRQ_cases {waked : Bool} (hstep : s.updateIRQ fd fq waked = some s') :
    (∃ old, Assoc.find s.fileWQPtrs_ fd = some old ∧
        s' = { s with
          call := some ⟨.mod, fd, old, none⟩
          funcs_ := s.funcs_ ++ [.ctl .mod old] }) ∨
      Assoc.find s.fileWQPtrs_ fd = none ∧ fq ∉ s.used ∧
        s' = { s with
          call := some ⟨.add, fd, fq, none⟩
          funcs_ := s.funcs_ ++ [.ctl .add fq]
          waked_ := Function.update s.waked_ fq waked
          used := insert fq s.used } := by
  unfold State.updateIRQ at hstep
  cases hfind : Assoc.find s.fileWQPtrs_ fd with
  | some old =>
      simp only [hfind] at hstep
      cases hstep
      exact .inl ⟨old, rfl, rfl⟩
  | none =>
      simp only [hfind] at hstep
      rcases Option.ite_none_left_eq_some.mp hstep with ⟨hnew, hstep⟩
      cases hstep
      exact .inr ⟨rfl, hnew, rfl⟩

omit [DecidableEq ω] in
theorem Inv.updateIRQ (h : Inv s) (hnone : s.call = none) {waked : Bool}
    (hstep : s.updateIRQ fd fq waked = some s') : Inv s' := by
  rcases updateIRQ_cases hstep with ⟨old, _, rfl⟩ | ⟨hfind, hnew, rfl⟩
  · exact h.begin hnone .mod s.used s.waked_ (fun _ => id) trivial
  · refine h.begin hnone .add (insert fq s.used) _ (fun _ => Finset.mem_insert_of_mem) ?_
    refine ⟨Finset.mem_insert_self _ _, fun hreg => hnew (h.made fq hreg),
      fun w stage hw => hnew (h.held w fq stage hw), hfind, fun _ hpolled => ?_⟩
    rcases h.polled fq hpolled with hreg | ⟨c, hc, _⟩
    · exact hnew (h.made fq hreg)
    · cases hnone.symm.trans hc

omit [DecidableEq φ] [DecidableEq ω] in
theorem Inv.removeIRQ (h : Inv s) (hnone : s.call = none) (fd : δ) : Inv (s.removeIRQ fd) := by
  unfold State.removeIRQ
  cases hfind : Assoc.find s.fileWQPtrs_ fd with
  | none => exact h
  | some fq => exact h.begin hnone .del s.used s.waked_ (fun _ => id) ⟨hfind, absurd rfl⟩

omit [DecidableEq φ] [DecidableEq ω] in
/-- Erasing the entry of a descriptor drops its {lit}`FileWQ` and no other one. -/
theorem Inv.registered_finish_del (h : Inv s) (hfind : Assoc.find s.fileWQPtrs_ fd = some fq)
    (done : Option Bool) (ok : Bool) (fq' : φ) :
    (s.finishCall ⟨.del, fd, fq, done⟩ ok).Registered fq' ↔ s.Registered fq' ∧ fq' ≠ fq :=
  h.keyed.mem_values_erase h.distinct hfind

omit [DecidableEq φ] [DecidableEq ω] in
theorem Inv.finishCall (h : Inv s) (hcall : s.call = some ⟨op, fd, fq, some ok⟩) :
    Inv (s.finishCall ⟨op, fd, fq, some ok⟩ ok) := by
  have hctls : s.funcs_.filterMap Func.ctl? = [] := by
    rw [h.ctls, hcall]
    rfl
  have hpolled : ∀ fq', fq' ∈ s.polled → s.Registered fq' ∨ op = .add ∧ fq = fq' := by
    intro fq' hfq'
    rcases h.polled fq' hfq' with hreg | ⟨c, hc, hop, hfq⟩
    · exact .inl hreg
    · cases hcall.symm.trans hc
      exact .inr ⟨hop, hfq⟩
  have hok := h.call _ hcall
  cases op with
  | mod =>
      refine { h with call := nofun, polled := fun fq' hfq' => ?_, ctls := hctls }
      rcases hpolled fq' hfq' with hreg | ⟨hop, _⟩
      · exact .inl hreg
      · cases hop
  | add =>
      rcases hok with ⟨hmade, hreg, _, hfind, hnot⟩
      cases ok with
      | true =>
          refine { h with
            keyed := h.keyed.cons hfind
            distinct := List.nodup_cons.mpr ⟨hreg, h.distinct⟩
            made := fun fq' hfq' => ?_
            call := nofun
            polled := fun fq' hfq' => .inl ?_
            ctls := hctls }
          · rcases List.mem_cons.mp hfq' with rfl | hfq'
            · exact hmade
            · exact h.made fq' hfq'
          · rcases hpolled fq' hfq' with hold | ⟨_, rfl⟩
            · exact List.mem_cons_of_mem _ hold
            · exact List.mem_cons_self
      | false =>
          refine { h with call := nofun, polled := fun fq' hfq' => ?_, ctls := hctls }
          rcases hpolled fq' hfq' with hold | ⟨_, rfl⟩
          · exact .inl hold
          · exact absurd hfq' (hnot nofun)
  | del =>
      have herase := h.registered_finish_del hok.1 (some ok) ok
      refine { h with
        keyed := h.keyed.erase fd
        distinct := (List.filter_sublist.map Prod.snd).nodup h.distinct
        made := fun fq' hfq' => h.made fq' ((herase fq').mp hfq').1
        call := nofun
        polled := fun fq' hfq' => .inl ((herase fq').mpr ?_)
        ctls := hctls }
      rcases hpolled fq' hfq' with hreg | ⟨hop, _⟩
      · exact ⟨hreg, fun heq => hok.2 nofun (heq ▸ hfq')⟩
      · cases hop

omit [DecidableEq φ] in
/-- What a coroutine holds changes; the queue does not. -/
theorem Inv.change (h : Inv s) {value : Option (φ × Stage)}
    (hheld : ∀ fq stage, value = some (fq, stage) →
      s.Registered fq ∧ s.call = none ∨ ∃ stage', s.awaiters w = some (fq, stage'))
    (hwait : ∀ fq, Func.wait w fq ∉ s.funcs_) :
    Inv { s with awaiters := Function.update s.awaiters w value } := by
  refine h.keep rfl rfl rfl rfl (fun w' fq' stage hw' => ?_) rfl (fun w' fq' hmem => ?_) h.once
    h.cleared
  · dsimp only at hw'
    by_cases hw : w' = w
    · subst hw
      rw [Function.update_self] at hw'
      exact hheld fq' stage hw'
    · rw [Function.update_of_ne hw] at hw'
      exact .inr ⟨stage, hw'⟩
  · have hw : w' ≠ w := fun heq => hwait fq' (heq ▸ hmem)
    exact (Function.update_of_ne hw _ _).trans (h.waits w' fq' hmem)

omit [DecidableEq φ] [DecidableEq ω] in
/-- Only a queued waiter has a function in the queue. -/
theorem Inv.not_mem_funcs (h : Inv s) (hw : ∀ fq, s.awaiters w ≠ some (fq, .queued)) (fq : φ) :
    Func.wait w fq ∉ s.funcs_ :=
  fun hmem => hw fq (h.waits w fq hmem)

omit [DecidableEq φ] in
/-- {lit}`FileAwaiter::await_suspend` queues its function. -/
theorem Inv.suspend (h : Inv s) (hw : s.awaiters w = some (fq, .found)) :
    Inv { s with
      awaiters := Function.update s.awaiters w (some (fq, .queued))
      funcs_ := s.funcs_ ++ [.wait w fq] } := by
  have hnot : ∀ fq', Func.wait w fq' ∉ s.funcs_ := by
    refine h.not_mem_funcs fun fq' hqueued => ?_
    cases hw.symm.trans hqueued
  have hchange : Inv { s with
      awaiters := Function.update s.awaiters w (some (fq, .queued)) } := by
    refine h.change (fun fq' stage heq => ?_) hnot
    cases heq
    exact .inr ⟨_, hw⟩
  refine { hchange with ctls := ?_, waits := fun w' fq' hmem => ?_, once := ?_ }
  · rw [List.filterMap_append]
    exact (List.append_nil _).trans h.ctls
  · rcases List.mem_append.mp hmem with hmem | hmem
    · exact hchange.waits w' fq' hmem
    · cases List.mem_singleton.mp hmem
      exact Function.update_self ..
  · rw [List.filterMap_append]
    refine List.nodup_append.mpr ⟨h.once, List.nodup_singleton w, fun a ha b hb heq => ?_⟩
    cases List.mem_singleton.mp hb
    rcases List.mem_filterMap.mp ha with ⟨func, hmem, hfunc⟩
    cases func with
    | ctl _ _ => cases hfunc
    | wait w' fq' =>
        cases hfunc
        exact hnot fq' (heq ▸ hmem)

/-! ## The steps of the ICU -/

omit [DecidableEq φ] [DecidableEq ω] in
/-- The function of the call in progress is the only one of its kind in the queue. -/
theorem Inv.front_ctl (h : Inv s) {funcs : List (Func φ ω)}
    (hfuncs : s.funcs_ = .ctl op fq :: funcs) :
    ∃ fd, s.call = some ⟨op, fd, fq, none⟩ ∧ funcs.filterMap Func.ctl? = [] := by
  have hctls : (op, fq) :: funcs.filterMap Func.ctl? = pendingCtl s.call := by
    rw [← h.ctls, hfuncs]
    rfl
  cases hcall : s.call with
  | none =>
      rw [hcall] at hctls
      cases hctls
  | some c =>
      rcases c with ⟨op', fd, fq', done⟩
      rw [hcall] at hctls
      cases done with
      | some _ => cases hctls
      | none =>
          injection hctls with hhead htail
          cases hhead
          exact ⟨fd, rfl, htail⟩

theorem Inv.runCtl (h : Inv s) {funcs : List (Func φ ω)}
    (hfuncs : s.funcs_ = .ctl op fq :: funcs) (ok : Bool) :
    Inv ({ s with funcs_ := funcs : State δ φ ω }.runFunc ok (.ctl op fq)) := by
  rcases h.front_ctl hfuncs with ⟨fd, hcall, hrest⟩
  have hold := h.call _ hcall
  have hsub : ∀ w' fq', Func.wait w' fq' ∈ funcs → Func.wait w' fq' ∈ s.funcs_ :=
    fun w' fq' hmem => hfuncs ▸ List.mem_cons_of_mem _ hmem
  have honce : (funcs.filterMap Func.wait?).Nodup := by
    have honce := h.once
    rw [hfuncs] at honce
    exact honce
  have hmap : s.call.map (fun c => { c with done := some ok }) = some ⟨op, fd, fq, some ok⟩ := by
    rw [hcall]
    rfl
  have hpolled : ∀ fq', fq' ∈ s.polled → s.Registered fq' ∨ op = .add ∧ fq = fq' := by
    intro fq' hfq'
    rcases h.polled fq' hfq' with hreg | ⟨c, hc, hop, hfq⟩
    · exact .inl hreg
    · cases hcall.symm.trans hc
      exact .inr ⟨hop, hfq⟩
  refine { h with
    call := fun c hc => ?_
    polled := fun fq' hfq' => ?_
    ctls := hrest.trans (by rw [State.runFunc, hmap]; rfl)
    waits := fun w' fq' hmem => h.waits w' fq' (hsub w' fq' hmem)
    once := honce }
  · cases hmap.symm.trans hc
    cases op with
    | mod => trivial
    | add =>
        rcases hold with ⟨hmade, hreg, hfree, hfind, hnot⟩
        refine ⟨hmade, hreg, hfree, hfind, fun hne => ?_⟩
        cases ok with
        | true => exact absurd rfl hne
        | false => exact hnot nofun
    | del => exact ⟨hold.1, fun _ => Finset.notMem_erase fq s.polled⟩
  · have hnew : s.Registered fq' ∨ op = .add ∧ fq = fq' := by
      cases op with
      | mod => exact hpolled fq' hfq'
      | del => exact hpolled fq' (Finset.mem_of_mem_erase hfq')
      | add =>
          cases ok with
          | false => exact hpolled fq' hfq'
          | true =>
              rcases Finset.mem_insert.mp hfq' with rfl | hfq'
              · exact .inr ⟨rfl, rfl⟩
              · exact hpolled fq' hfq'
    rcases hnew with hreg | ⟨hop, hfq⟩
    · exact .inl hreg
    · exact .inr ⟨_, hmap, hop, hfq⟩

omit [DecidableEq ω] in
theorem Inv.wakeWQ (h : Inv s) (hphase : s.phase = .drain) (fq : φ) : Inv (s.wakeWQ fq) := by
  unfold State.wakeWQ
  split
  · exact h
  · refine { h with cleared := fun hpoll => ?_ }
    cases hphase.symm.trans hpoll

theorem Inv.runWait (h : Inv s) (hphase : s.phase = .drain) {funcs : List (Func φ ω)}
    (hfuncs : s.funcs_ = .wait w fq :: funcs) (ok : Bool) :
    Inv ({ s with funcs_ := funcs : State δ φ ω }.runFunc ok (.wait w fq)) := by
  have hsub : ∀ w' fq', Func.wait w' fq' ∈ funcs → Func.wait w' fq' ∈ s.funcs_ :=
    fun w' fq' hmem => hfuncs ▸ List.mem_cons_of_mem _ hmem
  have honce : (w :: funcs.filterMap Func.wait?).Nodup := by
    have honce := h.once
    rw [hfuncs] at honce
    exact honce
  have hrest : Inv { s with funcs_ := funcs } := by
    refine { h with
      ctls := ?_
      waits := fun w' fq' hmem => h.waits w' fq' (hsub w' fq' hmem)
      once := (List.nodup_cons.mp honce).2 }
    rw [← h.ctls, hfuncs]
    rfl
  have hqueued : s.awaiters w = some (fq, .queued) := by
    refine h.waits w fq ?_
    rw [hfuncs]
    exact List.mem_cons_self
  refine Inv.wakeWQ (hrest.change (fun fq' stage heq => ?_) fun fq' hmem => ?_) hphase fq
  · cases heq
    exact .inr ⟨_, hqueued⟩
  · exact (List.nodup_cons.mp honce).1 (List.mem_filterMap.mpr ⟨_, hmem, rfl⟩)

omit [DecidableEq δ] [DecidableEq φ] in
/-- A waiter that is woken keeps its {lit}`FileWQ`. -/
theorem State.wake_eq (woken : List ω) {stage : Stage}
    (hw : s.wake woken w = some (fq, stage)) : ∃ stage', s.awaiters w = some (fq, stage') := by
  unfold State.wake at hw
  split at hw
  · rcases Option.map_eq_some_iff.mp hw with ⟨a, ha, heq⟩
    cases heq
    exact ⟨a.2, ha⟩
  · exact ⟨stage, hw⟩

theorem Inv.walk (h : Inv s) {entry : Entry φ} {rest : List (Entry φ)} {woken : List ω}
    (hcan : ∀ w ∈ woken, s.CanWake entry w) :
    Inv { s with
      phase := .walk rest
      awaiters := s.wake woken
      waked_ := s.unwake entry } := by
  refine h.keep rfl rfl rfl rfl (fun w fq stage hw => .inr (State.wake_eq woken hw)) rfl
    (fun w fq hmem => ?_) h.once nofun
  have hqueued := h.waits w fq hmem
  have hnot : w ∉ woken := by
    intro hw
    have hwake := hcan w hw
    cases entry with
    | file fq' => cases hqueued.symm.trans hwake
    | timerWQ =>
        unfold State.CanWake at hwake
        rw [hqueued] at hwake
        cases hwake
    | wakeUpWQ => exact hwake
  exact (if_neg hnot).trans hqueued

/-- Every step keeps the invariant. -/
theorem Inv.step (h : Inv s) {a : Action δ φ ω} (hstep : Registry.step s a = some s') :
    Inv s' := by
  have hcase := step_cases hstep
  cases a with
  | updateIRQ fd fq waked => exact h.updateIRQ hcase.1 hcase.2
  | removeIRQ fd =>
      rcases hcase with ⟨hnone, rfl⟩
      exact h.removeIRQ hnone fd
  | resumeCall =>
      rcases hcase with ⟨op, fd, fq, ok, hcall, rfl⟩
      exact h.finishCall hcall
  | waitFile w fd =>
      rcases hcase with ⟨fq, hcall, hw, hfind, rfl⟩
      refine h.change (fun fq' stage heq => ?_) (h.not_mem_funcs fun fq' hqueued => ?_)
      · cases heq
        exact .inl ⟨Registered.of_find hfind, hcall⟩
      · cases hw.symm.trans hqueued
  | suspend w =>
      rcases hcase with ⟨fq, hw, rfl⟩
      exact h.suspend hw
  | resumeWait w =>
      rcases hcase with ⟨fq, hw, rfl⟩
      refine h.change nofun (h.not_mem_funcs fun fq' hqueued => ?_)
      cases hw.symm.trans hqueued
  | run ok =>
      rcases hcase with ⟨func, funcs, hphase, hfuncs, rfl⟩
      cases func with
      | ctl op fq => exact h.runCtl hfuncs ok
      | wait w fq => exact h.runWait hphase hfuncs ok
  | drained =>
      rcases hcase with ⟨_, rfl⟩
      exact { h with cleared := nofun }
  | walk woken =>
      rcases hcase with ⟨entry, rest, _, hcan, rfl⟩
      exact h.walk hcan
  | clear =>
      rcases hcase with ⟨_, rfl⟩
      exact { h with cleared := fun _ => rfl }
  | waitIRQ entries =>
      rcases hcase with ⟨_, _, rfl⟩
      exact { h with cleared := nofun }

end Registry
end CoEpoll
