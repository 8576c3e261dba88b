import CoEpoll.CoKernel.LoadOrder

/-!
# `CoKernel::updateIRQ` and a poller that says no

A {lit}`FileWQ` records in {lit}`wevents_` the mask that its descriptor is polled with.  For a new
descriptor the entry is made after the poller has accepted the request.  For a registered one the
mask is recorded before the poller is asked, and stays recorded when the poller rejects it.

Main results:

- Theorem {lit}`updateIRQ_cases`, {lit}`removeIRQ_cases`: what the calls do to the registered
  descriptors.
- Theorem {lit}`rejected_iff`: when a rejected request leaves the kernel as it was.
- Theorem {lit}`Agree.step_iff`: when a call keeps the recorded masks equal to the polled ones.
- Theorem {lit}`rejected_changes_nothing_iff`: both along whole runs.
-/

namespace CoEpoll
namespace CoKernel

open Transition

variable {ι : Type*}

/-! ## The pollers -/

/-- The masks with which each ICU's {lit}`epoll_fd_` polls its descriptors. -/
abbrev Interest (ι : Type*) := ι → Int32 → Option UInt32

/-- The kernel and the interest lists of its ICUs' pollers. -/
structure Polled (ι : Type*) where
  kernel : State ι
  interest : Interest ι

/-- {lit}`State.construct` with pollers that poll no descriptor of the kernel. -/
def Polled.construct (icus : List ι) (pos : ι → Nat) : Polled ι where
  kernel := State.construct icus pos
  interest _ _ := none

variable [DecidableEq ι]

/-- {lit}`IRQPoll::updateIRQ` of the ICU {lit}`icu`: the mask {lit}`mask`, or none after
{lit}`EPOLL_CTL_DEL`, is in force when {lit}`epoll_ctl` answers 0. -/
def epollCtl (interest : Interest ι) (icu : ι) (fd : Int32) (mask : Option UInt32) (ret : Int) :
    Interest ι :=
  if ret = 0 then Function.update interest icu (Function.update (interest icu) fd mask)
  else interest

/-- The request that a call makes: {lit}`addIRQ`, {lit}`modIRQ` or {lit}`delIRQ`. -/
def Polled.request (p : Polled ι) : Action → Interest ι
  | .updateIRQ fd events ret =>
      match Assoc.find p.kernel.fileWQPtrs_ fd with
      | none =>
          match p.kernel.icus_[0]? with
          | none => p.interest
          | some icu => epollCtl p.interest icu fd (some events) ret
      | some fq => epollCtl p.interest fq.icu_ fd (some events) ret
  | .removeIRQ fd ret =>
      match Assoc.find p.kernel.fileWQPtrs_ fd with
      | none => p.interest
      | some fq => epollCtl p.interest fq.icu_ fd none ret

/-- The kernel with the ICUs {lit}`icus` and their pollers under any sequence of calls. -/
def pollers (icus : List ι) : Machine (Polled ι) Action where
  init p := ∃ pos, p = Polled.construct icus pos
  step p a := (step p.kernel a).map fun s => ⟨s, p.request a⟩

omit [DecidableEq ι] in
/-- Every recorded mask is the one that the poller holds. -/
def Agree (p : Polled ι) : Prop :=
  ∀ fd fq, Assoc.find p.kernel.fileWQPtrs_ fd = some fq → p.interest fq.icu_ fd = some fq.wevents_

/-- A call that is not a rejected {lit}`updateIRQ`, or leaves the kernel as it was. -/
def Harmless (p : Polled ι) : Action → Prop
  | .updateIRQ fd events ret =>
      ret ≠ 0 → ∀ s, updateIRQ p.kernel fd events ret = some s → s = p.kernel
  | .removeIRQ _ _ => True

omit [DecidableEq ι] in
/-- A call that is not a rejected {lit}`updateIRQ` of a registered descriptor, or one that repeats the
recorded mask. -/
def Repeats (p : Polled ι) : Action → Prop
  | .updateIRQ fd events ret =>
      ret ≠ 0 → ∀ fq, Assoc.find p.kernel.fileWQPtrs_ fd = some fq → fq.wevents_ = events
  | .removeIRQ _ _ => True

variable {s s' : State ι} {p p' : Polled ι} {icus : List ι} {icu icu' : ι} {fd fd' : Int32}
  {fq : FileWQ ι} {events : UInt32} {mask : Option UInt32} {ret : Int}

@[simp] theorem epollCtl_of_ne_zero (interest : Interest ι) (h : ret ≠ 0) :
    epollCtl interest icu fd mask ret = interest :=
  if_neg h

@[simp] theorem epollCtl_self (interest : Interest ι) :
    epollCtl interest icu fd mask 0 icu fd = mask := by
  simp [epollCtl]

theorem epollCtl_of_ne (interest : Interest ι) (h : fd' ≠ fd) :
    epollCtl interest icu fd mask ret icu' fd' = interest icu' fd' := by
  unfold epollCtl
  split
  · by_cases hicu : icu' = icu
    · subst hicu
      simp [h]
    · simp [hicu]
  · rfl

/-! ## What the calls do to the registered descriptors -/

theorem increment_fileWQPtrs (h : s.increment = some s') : s'.fileWQPtrs_ = s.fileWQPtrs_ := by
  rcases Option.bind_eq_some_iff.mp h with ⟨front, _, h⟩
  rcases Option.bind_eq_some_iff.mp h with ⟨i, _, h⟩
  dsimp only at h
  split at h
  · rcases Option.map_eq_some_iff.mp h with ⟨last, _, rfl⟩
    rfl
  · cases h
    rfl

theorem decrement_fileWQPtrs (h : s.decrement icu = some s') : s'.fileWQPtrs_ = s.fileWQPtrs_ := by
  rcases Option.bind_eq_some_iff.mp h with ⟨atPos, _, h⟩
  rcases Option.bind_eq_some_iff.mp h with ⟨i, _, h⟩
  dsimp only at h
  split at h
  · rcases Option.bind_eq_some_iff.mp h with ⟨first, _, h⟩
    rcases Option.map_eq_some_iff.mp h with ⟨moved, _, rfl⟩
    rfl
  · cases h
    rfl

/-- {lit}`updateIRQ` adds an entry, changes one, or does nothing. -/
theorem updateIRQ_cases (h : updateIRQ s fd events ret = some s') :
    (Assoc.find s.fileWQPtrs_ fd = none ∧ ret ≠ 0 ∧ s' = s) ∨
    (∃ icu, Assoc.find s.fileWQPtrs_ fd = none ∧ ret = 0 ∧ s.icus_[0]? = some icu ∧
      s'.fileWQPtrs_ = (fd, ⟨fd, icu, events⟩) :: s.fileWQPtrs_) ∨
    (∃ fq, Assoc.find s.fileWQPtrs_ fd = some fq ∧
      s' = { s with fileWQPtrs_ :=
        Assoc.modify s.fileWQPtrs_ fd fun fq => { fq with wevents_ := events } }) := by
  unfold updateIRQ at h
  split at h
  · rename_i hfind
    rcases Option.bind_eq_some_iff.mp h with ⟨icu, hicu, h⟩
    split at h
    · rename_i hret
      exact .inr (.inl ⟨icu, hfind, hret, hicu, increment_fileWQPtrs h⟩)
    · rename_i hret
      exact .inl ⟨hfind, hret, (Option.some.inj h).symm⟩
  · rename_i fq hfind
    exact .inr (.inr ⟨fq, hfind, (Option.some.inj h).symm⟩)

/-- {lit}`removeIRQ` erases an entry or does nothing. -/
theorem removeIRQ_cases (h : removeIRQ s fd = some s') :
    (Assoc.find s.fileWQPtrs_ fd = none ∧ s' = s) ∨
    (∃ fq, Assoc.find s.fileWQPtrs_ fd = some fq ∧
      s'.fileWQPtrs_ = Assoc.erase s.fileWQPtrs_ fd) := by
  unfold removeIRQ at h
  split at h
  · rename_i hfind
    exact .inl ⟨hfind, (Option.some.inj h).symm⟩
  · rename_i fq hfind
    exact .inr ⟨fq, hfind, decrement_fileWQPtrs h⟩

/-- A descriptor has one entry. -/
theorem keyed_step (h : Assoc.Keyed s.fileWQPtrs_) {a : Action} (hstep : step s a = some s') :
    Assoc.Keyed s'.fileWQPtrs_ := by
  cases a with
  | updateIRQ fd events ret =>
      rcases updateIRQ_cases hstep with ⟨_, _, rfl⟩ | ⟨icu, hfind, _, _, hptrs⟩ | ⟨fq, _, rfl⟩
      · exact h
      · rw [hptrs]
        exact h.cons hfind
      · exact h.modify fd fun fq => { fq with wevents_ := events }
  | removeIRQ fd ret =>
      rcases removeIRQ_cases hstep with ⟨_, rfl⟩ | ⟨fq, _, hptrs⟩
      · exact h
      · rw [hptrs]
        exact h.erase fd

/-! ## A rejected request -/

/-- A rejected request leaves the kernel as it was exactly when its descriptor is not registered or
is registered with the same mask. -/
theorem rejected_iff (h : Assoc.Keyed s.fileWQPtrs_) (hret : ret ≠ 0)
    (hupdate : updateIRQ s fd events ret = some s') :
    s' = s ↔ ∀ fq, Assoc.find s.fileWQPtrs_ fd = some fq → fq.wevents_ = events := by
  rcases updateIRQ_cases hupdate with ⟨hfind, _, rfl⟩ | ⟨_, _, rfl, _⟩ | ⟨fq, hfind, rfl⟩
  · constructor
    · intro _ fq hfq
      cases hfind.symm.trans hfq
    · intro _
      rfl
  · exact absurd rfl hret
  · have hsame := h.modify_eq_self_iff hfind fun fq => { fq with wevents_ := events }
    constructor
    · intro heq fq' hfq'
      have hfq := hsame.mp (congrArg State.fileWQPtrs_ heq)
      rw [← Option.some.inj (hfind.symm.trans hfq'), ← hfq]
    · intro hmask
      have hfq : { fq with wevents_ := events } = fq := by rw [← hmask fq hfind]
      rw [hsame.mpr hfq]

theorem harmless_iff_repeats (h : Assoc.Keyed p.kernel.fileWQPtrs_) (a : Action) :
    Harmless p a ↔ Repeats p a := by
  cases a with
  | removeIRQ fd ret => exact Iff.rfl
  | updateIRQ fd events ret =>
      constructor
      · intro hharmless hret fq hfind
        have hmodify : updateIRQ p.kernel fd events ret =
            some { p.kernel with
              fileWQPtrs_ := Assoc.modify p.kernel.fileWQPtrs_ fd fun fq =>
                { fq with wevents_ := events } } := by
          rw [updateIRQ, hfind]
        exact (rejected_iff h hret hmodify).mp (hharmless hret _ hmodify) fq hfind
      · intro hrepeats hret s hupdate
        exact (rejected_iff h hret hupdate).mpr (hrepeats hret)

/-! ## Recorded and polled masks -/

theorem pollers_step_eq_some {a : Action} :
    (pollers icus).step p a = some p' ↔
      step p.kernel a = some p'.kernel ∧ p'.interest = p.request a := by
  rcases p' with ⟨s, interest⟩
  simp only [pollers, Option.map_eq_some_iff, Polled.mk.injEq]
  constructor
  · rintro ⟨t, ht, rfl, rfl⟩
    exact ⟨ht, rfl⟩
  · rintro ⟨ht, rfl⟩
    exact ⟨s, ht, rfl, rfl⟩

/-- The poller accepted a new descriptor. -/
theorem Agree.add (h : Agree p)
    (hptrs : p'.kernel.fileWQPtrs_ = (fd, ⟨fd, icu, events⟩) :: p.kernel.fileWQPtrs_)
    (hinterest : p'.interest = epollCtl p.interest icu fd (some events) 0) : Agree p' := by
  intro fd' fq' hfind'
  rw [hptrs, Assoc.find_cons] at hfind'
  split at hfind'
  · rename_i heq
    cases hfind'
    dsimp only at heq
    rw [hinterest, heq, epollCtl_self]
  · rename_i hne
    rw [hinterest, epollCtl_of_ne _ (Ne.symm hne)]
    exact h fd' fq' hfind'

/-- The mask of a registered descriptor was recorded, whether the poller accepted it or not. -/
theorem Agree.modify_iff (h : Agree p) (hfind : Assoc.find p.kernel.fileWQPtrs_ fd = some fq)
    (hptrs : p'.kernel.fileWQPtrs_ =
      Assoc.modify p.kernel.fileWQPtrs_ fd fun fq => { fq with wevents_ := events })
    (hinterest : p'.interest = epollCtl p.interest fq.icu_ fd (some events) ret) :
    Agree p' ↔ (ret ≠ 0 → fq.wevents_ = events) := by
  have hself : Assoc.find p'.kernel.fileWQPtrs_ fd = some { fq with wevents_ := events } := by
    rw [hptrs, Assoc.find_modify, if_pos rfl, hfind]
    rfl
  constructor
  · intro hagree hret
    have hnew := hagree fd _ hself
    rw [hinterest, epollCtl_of_ne_zero _ hret] at hnew
    exact Option.some.inj ((h fd fq hfind).symm.trans hnew)
  · intro hmask fd' fq' hfind'
    by_cases hfd : fd' = fd
    · subst hfd
      cases hself.symm.trans hfind'
      by_cases hret : ret = 0
      · rw [hinterest, hret, epollCtl_self]
      · rw [hinterest, epollCtl_of_ne_zero _ hret, h fd' fq hfind, hmask hret]
    · rw [hptrs, Assoc.find_modify, if_neg hfd] at hfind'
      rw [hinterest, epollCtl_of_ne _ hfd]
      exact h fd' fq' hfind'

/-- A descriptor is not registered any more, whether the poller has let it go or not. -/
theorem Agree.erase (h : Agree p)
    (hptrs : p'.kernel.fileWQPtrs_ = Assoc.erase p.kernel.fileWQPtrs_ fd)
    (hinterest : p'.interest = epollCtl p.interest icu fd none ret) : Agree p' := by
  intro fd' fq' hfind'
  rw [hptrs, Assoc.find_erase] at hfind'
  split at hfind'
  · cases hfind'
  · rename_i hne
    rw [hinterest, epollCtl_of_ne _ hne]
    exact h fd' fq' hfind'

/-- A call keeps the recorded masks equal to the polled ones exactly when it is not a rejected change
of a recorded mask. -/
theorem Agree.step_iff (h : Agree p) {a : Action} (hstep : (pollers icus).step p a = some p') :
    Agree p' ↔ Repeats p a := by
  rcases p' with ⟨s, interest⟩
  rcases pollers_step_eq_some.mp hstep with ⟨hkernel, hinterest⟩
  dsimp only at hkernel hinterest
  cases a with
  | removeIRQ fd ret =>
      refine iff_of_true ?_ trivial
      rcases removeIRQ_cases hkernel with ⟨hfind, rfl⟩ | ⟨fq, hfind, hptrs⟩
      · rw [Polled.request, hfind] at hinterest
        rw [hinterest]
        exact h
      · rw [Polled.request, hfind] at hinterest
        exact h.erase hptrs hinterest
  | updateIRQ fd events ret =>
      rcases updateIRQ_cases hkernel with
        ⟨hfind, hret, rfl⟩ | ⟨icu, hfind, rfl, hicu, hptrs⟩ | ⟨fq, hfind, rfl⟩
      · have hsame : interest = p.interest := by
          rw [hinterest, Polled.request, hfind]
          dsimp only
          split
          · rfl
          · exact epollCtl_of_ne_zero _ hret
        rw [hsame]
        refine iff_of_true h fun _ fq hfq => ?_
        cases hfind.symm.trans hfq
      · rw [Polled.request, hfind] at hinterest
        dsimp only at hinterest
        rw [hicu] at hinterest
        exact iff_of_true (h.add hptrs hinterest) fun hret => absurd rfl hret
      · rw [Polled.request, hfind] at hinterest
        rw [h.modify_iff hfind rfl hinterest]
        refine forall_congr' fun _ => ?_
        constructor
        · intro hmask fq' hfq'
          rw [← Option.some.inj (hfind.symm.trans hfq')]
          exact hmask
        · intro hmask
          exact hmask fq hfind

/-! ## Whole runs -/

omit [DecidableEq ι] in
theorem agree_construct (icus : List ι) (pos : ι → Nat) : Agree (Polled.construct icus pos) := by
  intro fd fq hfind
  cases hfind

/-- In every run, the rejected {lit}`updateIRQ` calls change nothing and the recorded masks are always
the polled ones, if and only if every rejected call was for a descriptor that is not registered or is
registered with the same mask. -/
theorem rejected_changes_nothing_iff {pos : ι → Nat} {as : List Action}
    (hrun : (pollers icus).run (Polled.construct icus pos) as = some p) :
    (pollers icus).Along Harmless (Polled.construct icus pos) as ∧
        (pollers icus).Always Agree (Polled.construct icus pos) as ↔
      (pollers icus).Along Repeats (Polled.construct icus pos) as := by
  have hkeyed : ∀ p a p', Assoc.Keyed p.kernel.fileWQPtrs_ → (pollers icus).step p a = some p' →
      Assoc.Keyed p'.kernel.fileWQPtrs_ := by
    intro p a p' h hstep
    exact keyed_step h (pollers_step_eq_some.mp hstep).1
  have hinit : Assoc.Keyed (Polled.construct icus pos).kernel.fileWQPtrs_ := List.nodup_nil
  have hharmless := Machine.along_congr hkeyed (fun p a h => harmless_iff_repeats h a) hinit hrun
  have hagree := Machine.always_iff_along (I := fun _ => True) (fun _ _ _ _ _ => trivial)
    (fun p a p' _ h hstep => h.step_iff hstep) trivial (agree_construct icus pos) hrun
  rw [hharmless, hagree, and_self]

/-- The poller rejects a registration, then accepts it, rejects a request with the same mask and accepts
one with another mask. -/
def repeated : List Action :=
  [.updateIRQ 5 1 (-17), .updateIRQ 5 1 0, .updateIRQ 5 1 (-22), .updateIRQ 5 4 0]

theorem rejected_changes_nothing_iff_repeated :
    ∃ p : Polled Nat, p.kernel.fileWQPtrs_ = [(5, ⟨5, 0, 4⟩)] ∧ p.interest 0 5 = some 4 ∧
      (pollers [0, 1]).Along Harmless (Polled.construct [0, 1] fun _ => 77) repeated ∧
      (pollers [0, 1]).Always Agree (Polled.construct [0, 1] fun _ => 77) repeated := by
  obtain ⟨p, hrun, hptrs, hinterest⟩ :
      ∃ p, (pollers [0, 1]).run (Polled.construct [0, 1] fun _ => 77) repeated = some p ∧
        p.kernel.fileWQPtrs_ = [(5, ⟨5, 0, 4⟩)] ∧ p.interest 0 5 = some 4 :=
    ⟨_, rfl, rfl, rfl⟩
  refine ⟨p, hptrs, hinterest, (rejected_changes_nothing_iff hrun).mpr ?_⟩
  -- the first request is for a descriptor without an entry, the third one has the recorded mask
  refine ⟨fun _ fq hfind => ?_, fun _ h₁ => ⟨fun h => absurd rfl h, fun _ h₂ =>
    ⟨fun _ fq hfind => ?_, fun _ _ => ⟨fun h => absurd rfl h, fun _ _ => trivial⟩⟩⟩⟩
  · cases hfind
  · cases h₁
    cases h₂
    cases hfind
    rfl

/-- The poller rejects {lit}`EPOLLEXCLUSIVE` in an {lit}`EPOLL_CTL_MOD`: the recorded mask has it, the
polled one does not. -/
theorem rejected_change_recorded : ∃ p p' : Polled (Fin 2),
    (pollers [0, 1]).run (Polled.construct [0, 1] fun _ => 0) [.updateIRQ 5 1 0] = some p ∧
      (pollers [0, 1]).step p (.updateIRQ 5 0x10000001 (-22)) = some p' ∧
      p.kernel.fileWQPtrs_ = [(5, ⟨5, 0, 1⟩)] ∧
      p'.kernel.fileWQPtrs_ = [(5, ⟨5, 0, 0x10000001⟩)] ∧ p'.interest 0 5 = some 1 ∧
      ¬ Harmless p (.updateIRQ 5 0x10000001 (-22)) ∧ ¬ Agree p' := by
  have hrun : ((pollers [0, 1]).run (Polled.construct [(0 : Fin 2), 1] fun _ => 0)
      [.updateIRQ 5 1 0]).map (fun p => (p.kernel.fileWQPtrs_, p.interest 0 5)) =
        some ([(5, ⟨5, 0, 1⟩)], some 1) := by
    decide +kernel
  rcases Option.map_eq_some_iff.mp hrun with ⟨p, hp, hvalues⟩
  rcases Prod.mk.inj hvalues with ⟨hptrs, hinterest⟩
  have hfind : Assoc.find p.kernel.fileWQPtrs_ 5 = some ⟨5, 0, 1⟩ := by
    rw [hptrs]
    rfl
  have hagree : Agree p := by
    intro fd fq hfd
    rw [hptrs, Assoc.find_cons] at hfd
    split at hfd
    · rename_i heq
      cases hfd
      rw [← heq]
      exact hinterest
    · cases hfd
  have hrepeats : ¬ Repeats p (.updateIRQ 5 0x10000001 (-22)) := by
    intro h
    exact absurd (h (by decide) _ hfind) (by decide)
  have hstep : (pollers [0, 1]).step p (.updateIRQ 5 0x10000001 (-22)) = some
      ⟨{ p.kernel with
          fileWQPtrs_ := Assoc.modify p.kernel.fileWQPtrs_ 5 fun fq =>
            { fq with wevents_ := 0x10000001 } },
        p.request (.updateIRQ 5 0x10000001 (-22))⟩ := by
    apply pollers_step_eq_some.mpr
    exact ⟨by rw [step, updateIRQ, hfind], rfl⟩
  refine ⟨p, _, hp, hstep, hptrs, ?_, ?_, ?_, ?_⟩
  · rw [hptrs]
    rfl
  · rw [Polled.request, hfind]
    exact hinterest
  · intro h
    have hkeyed : Assoc.Keyed p.kernel.fileWQPtrs_ := by
      rw [hptrs]
      exact List.nodup_singleton 5
    exact hrepeats ((harmless_iff_repeats hkeyed _).mp h)
  · intro h
    exact hrepeats ((hagree.step_iff hstep).mp h)

end CoKernel
end CoEpoll
