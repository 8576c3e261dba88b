import CoEpoll.CoKernel.Calls
import CoEpoll.CoKernel.MuCore.Exclusion

/-!
# `updateIRQ`, `removeIRQ` and `waitFile` take effect at once

Between {lit}`CoRoLock` and {lit}`CoRoUnlock` a call changes the kernel in several steps, with the answer of an
ICU in between.  The coroutine that does so holds {lit}`fMapLk_`, so nobody sees the kernel in between, and
the call may as well happen as a whole when its last change is made.

Main results:

- Definition {lit}`Stage.effect`: what of the call at hand has been done already.
- Theorem {lit}`Request.Valid.apply_done`: the rest of it makes the call complete.
- Theorem {lit}`calls_atomic`: every run shows the events of a run of the kernel whose calls take one step.
-/

namespace CoEpoll
namespace CoKernel
namespace Calls

open Transition

variable {κ ι : Type*}

/-! ## Stages and the mutex -/

/-- In {lit}`co_await CoRoLock`, or past it. -/
def locking : MuCore.Pc κ → Bool
  | .lockStore => true
  | .lockQueue => true
  | .suspended => true
  | .ready => true
  | .held => true
  | _ => false

/-- In {lit}`co_await CoRoUnlock`, or past it. -/
def unlocking : MuCore.Pc κ → Bool
  | .held => true
  | .out => true
  | .unlockDec => true
  | .unlockPop => true
  | .unlockStore _ => true
  | .unlockWake _ => true
  | _ => false

/-- Where a coroutine at this stage stands with {lit}`fMapLk_`. -/
def Stage.Fits (p : MuCore.Pc κ) : Stage ι → Prop
  | .idle => p = .out
  | .lock _ => locking p = true
  | .unlock _ => unlocking p = true
  | _ => p = .held

/-- Between the lookup and {lit}`CoRoUnlock`. -/
def Stage.middle : Stage ι → Bool
  | .idle => false
  | .lock _ => false
  | .unlock _ => false
  | _ => true

def Stage.phase : Stage ι → Phase ι
  | .idle => .idle
  | .lock c => .called c
  | .setWEvents fd _ events => .called (.updateIRQ fd events)
  | .queueInLoop r => .called r.call
  | .waiting r => .called r.call
  | .resumed r _ => .called r.call
  | .reorder r _ => .called r.call
  | .unlock d => .decided d

theorem Stage.Fits.held {st : Stage ι} {p : MuCore.Pc κ} (h : st.Fits p)
    (hmiddle : st.middle = true) : p = .held := by
  cases st with
  | idle => cases hmiddle
  | lock c => cases hmiddle
  | unlock d => cases hmiddle
  | setWEvents fd fq events => exact h
  | queueInLoop r => exact h
  | waiting r => exact h
  | resumed r ret => exact h
  | reorder r ret => exact h

@[simp] theorem Request.call_done (r : Request ι) (ret : Int) : (r.done ret).call = r.call := by
  unfold done call
  cases r.op <;> rfl

/-! ## What has been done of a call -/

/-- The lookup has found what the request says. -/
def Request.Valid (p : Polled ι) (r : Request ι) : Prop :=
  match r.op with
  | .add => Assoc.find p.kernel.fileWQPtrs_ r.fd = none ∧
      p.kernel.icus_[0]? = some r.fq.icu_ ∧ r.fq.fd_ = r.fd
  | .mod => ∃ fq, Assoc.find p.kernel.fileWQPtrs_ r.fd = some fq ∧
      r.fq = { fq with wevents_ := r.fq.wevents_ }
  | .del => Assoc.find p.kernel.fileWQPtrs_ r.fd = some r.fq

/-- A mask is recorded before the request is made. -/
def Request.record (p : Polled ι) (r : Request ι) : Polled ι :=
  match r.op with
  | .mod => { p with kernel := { p.kernel with
      fileWQPtrs_ := Assoc.modify p.kernel.fileWQPtrs_ r.fd fun fq =>
        { fq with wevents_ := r.fq.wevents_ } } }
  | _ => p

/-- The poller's answer is {lit}`ret`. -/
def Request.ask [DecidableEq ι] (p : Polled ι) (r : Request ι) (ret : Int) : Polled ι :=
  let mask := if r.op = .del then none else some r.fq.wevents_
  { r.record p with interest := epollCtl p.interest r.fq.icu_ r.fd mask ret }

/-- {lit}`fileWQPtrs_` is changed. -/
def Request.change [DecidableEq ι] (p : Polled ι) (r : Request ι) (ret : Int) : Polled ι :=
  { r.ask p ret with kernel := r.store (r.ask p ret).kernel }

/-- What of the call at hand has been done, when it finds {lit}`p`. -/
def Stage.effect [DecidableEq ι] (p : Polled ι) : Stage ι → Polled ι
  | .queueInLoop r => r.record p
  | .waiting r => r.record p
  | .resumed r ret => r.ask p ret
  | .reorder r ret => r.change p ret
  | _ => p

/-- What the call at hand relies on, when it finds {lit}`p`. -/
def Stage.Stands (p : Polled ι) : Stage ι → Prop
  | .setWEvents fd fq _ => Assoc.find p.kernel.fileWQPtrs_ fd = some fq
  | .queueInLoop r => r.Valid p
  | .waiting r => r.Valid p
  | .resumed r _ => r.Valid p
  | .reorder r ret => r.Valid p ∧ r.stores ret = true
  | _ => True

/-- A {lit}`FileWQ` in the map is the one of its descriptor. -/
def Named (p : Polled ι) : Prop :=
  ∀ fd fq, Assoc.find p.kernel.fileWQPtrs_ fd = some fq → fq.fd_ = fd

theorem Stage.stands_of_not_middle {st : Stage ι} (h : st.middle = false) (p : Polled ι) :
    st.Stands p := by
  cases st with
  | idle => trivial
  | lock c => trivial
  | unlock d => trivial
  | setWEvents fd fq events => cases h
  | queueInLoop r => cases h
  | waiting r => cases h
  | resumed r ret => cases h
  | reorder r ret => cases h

variable {p p' : Polled ι} {r : Request ι}

theorem Request.Valid.fd_eq (h : r.Valid p) (hnamed : Named p) : r.fq.fd_ = r.fd := by
  unfold Valid at h
  split at h
  · exact h.2.2
  · rcases h with ⟨fq, hfind, heq⟩
    rw [heq]
    change fq.fd_ = r.fd
    exact hnamed _ _ hfind
  · exact hnamed _ _ h

variable [DecidableEq ι]

theorem Stage.effect_of_not_middle {st : Stage ι} (h : st.middle = false) (p : Polled ι) :
    st.effect p = p := by
  cases st with
  | idle => rfl
  | lock c => rfl
  | unlock d => rfl
  | setWEvents fd fq events => cases h
  | queueInLoop r => cases h
  | waiting r => cases h
  | resumed r ret => cases h
  | reorder r ret => cases h

omit [DecidableEq ι] in
/-- What the ICU asks its poller for. -/
theorem Request.Valid.mask_eq (h : r.Valid p) :
    r.mask (r.record p).kernel = if r.op = .del then none else some r.fq.wevents_ := by
  unfold Valid at h
  unfold mask record
  split at h
  · rename_i hop
    simp [hop]
  · rename_i hop
    rcases h with ⟨fq, hfind, _⟩
    simp [hop, Assoc.find_modify, hfind]
  · rename_i hop
    simp [hop]

/-- What is left of a call after the poller's answer makes it complete. -/
theorem Request.Valid.apply_done (h : r.Valid p) (icus : List ι) (ret : Int) :
    (r.done ret).apply icus p =
      if r.stores ret then
        (r.reorder (r.change p ret).kernel).map fun kernel => { r.ask p ret with kernel := kernel }
      else some (r.ask p ret) := by
  rcases r with ⟨op, fd, ⟨fd', icu, events⟩⟩
  cases op with
  | add =>
      rcases h with ⟨hfind, hicu, hfd⟩
      dsimp only at hfind hicu hfd
      subst hfd
      by_cases hret : ret = 0
      · subst hret
        simp [done, Done.apply, pollers, CoKernel.step, updateIRQ, hfind, hicu, stores, reorder,
          change, store, ask, record, Polled.request]
      · simp [done, Done.apply, pollers, CoKernel.step, updateIRQ, hfind, hicu, stores, hret,
          ask, record, Polled.request]
  | mod =>
      rcases h with ⟨fq, hfind, heq⟩
      dsimp only at hfind heq
      have hicu : icu = fq.icu_ := congrArg FileWQ.icu_ heq
      simp [done, Done.apply, pollers, CoKernel.step, updateIRQ, hfind, stores, ask, record,
        Polled.request, hicu]
  | del =>
      change Assoc.find p.kernel.fileWQPtrs_ fd = _ at h
      simp [done, Done.apply, pollers, CoKernel.step, removeIRQ, h, stores, reorder, change, store,
        ask, record, Polled.request]

/-- A call keeps {lit}`Named`. -/
theorem Named.apply (h : Named p) {icus : List ι} {d : Done ι} (happly : d.apply icus p = some p') : Named p' := by
  cases d with
  | waitFile fd fq =>
      simp only [Done.apply, Option.ite_none_right_eq_some, Option.some.injEq] at happly
      rcases happly with ⟨_, rfl⟩
      exact h
  | irq a =>
      have hstep := (pollers_step_eq_some.mp happly).1
      cases a with
      | updateIRQ fd events ret =>
          rcases updateIRQ_cases hstep with ⟨_, _, hsame⟩ | ⟨icu, _, _, _, hptrs⟩ | ⟨fq, _, hsame⟩
          · intro fd' fq' hfind
            rw [hsame] at hfind
            exact h fd' fq' hfind
          · intro fd' fq' hfind
            rw [hptrs, Assoc.find_cons] at hfind
            split at hfind
            · cases hfind
              assumption
            · exact h fd' fq' hfind
          · intro fd' fq' hfind
            rw [hsame, Assoc.find_modify] at hfind
            split at hfind
            · rcases Option.map_eq_some_iff.mp hfind with ⟨fq'', hold, rfl⟩
              exact h fd' fq'' hold
            · exact h fd' fq' hfind
      | removeIRQ fd ret =>
          rcases removeIRQ_cases hstep with ⟨_, hsame⟩ | ⟨fq, _, hptrs⟩
          · intro fd' fq' hfind
            rw [hsame] at hfind
            exact h fd' fq' hfind
          · intro fd' fq' hfind
            rw [hptrs, Assoc.find_erase] at hfind
            split at hfind
            · cases hfind
            · exact h fd' fq' hfind

/-! ## The steps of the mutex -/

section Mutex

variable [DecidableEq κ] {m m' : MuCore.State κ} {k : κ}

/-- The next action of a coroutine in a call of the mutex moves it on, and wakes at most the coroutine
whose item it has popped. -/
theorem advance_cases (hadvance : MuCore.advance m k = some m') :
    (∃ x, m.pc k = .unlockWake x ∧ m' = (m.goto x.h_ .ready).goto k .out) ∨
    (∃ q, m'.pc = Function.update m.pc k q ∧ (locking (m.pc k) = true → locking q = true) ∧
      (unlocking (m.pc k) = true → unlocking q = true)) := by
  unfold MuCore.advance at hadvance
  cases hpc : m.pc k with
  | out | suspended | held => simp [hpc] at hadvance
  | lockStore | lockQueue | ready | tryStore | unlockStore =>
      simp only [hpc, Option.some.injEq] at hadvance
      subst hadvance
      exact .inr ⟨_, rfl, by simp [locking], by simp [unlocking]⟩
  | unlockDec =>
      simp only [hpc, Option.some.injEq] at hadvance
      subst hadvance
      refine .inr ⟨_, rfl, by simp [locking], fun _ => ?_⟩
      split <;> rfl
  | unlockPop =>
      simp only [hpc] at hadvance
      split at hadvance
      · cases hadvance
        exact .inr ⟨.unlockPop, by rw [← hpc, Function.update_eq_self], by simp [locking],
          fun _ => rfl⟩
      · cases hadvance
        exact .inr ⟨_, rfl, by simp [locking], fun _ => rfl⟩
  | unlockWake x =>
      simp only [hpc, Option.some.injEq] at hadvance
      exact .inl ⟨x, rfl, hadvance.symm⟩

/-- The next action of a coroutine in a call of the mutex moves no other coroutine, but a suspended
one can be woken. -/
theorem advance_other [Fintype κ] {tid : κ → Int} {hand : List κ} {es : List (MuCore.Event κ)}
    (hinv : MuCore.Inv tid m hand es) (hadvance : MuCore.advance m k = some m') {j : κ}
    (hj : j ≠ k) : m'.pc j = m.pc j ∨ (m.pc j = .suspended ∧ m'.pc j = .ready) := by
  rcases advance_cases hadvance with ⟨x, hpc, rfl⟩ | ⟨q, hpc, _, _⟩
  · have hhand := (hinv.line.inHand k x (by rw [hpc]; rfl)).1
    rw [MuCore.State.goto_pc, Function.update_of_ne hj, MuCore.State.goto_pc]
    by_cases hjx : j = x.h_
    · rw [hjx, Function.update_self, ← hinv.line.waiting, hhand]
      exact .inr ⟨by simp, rfl⟩
    · rw [Function.update_of_ne hjx]
      exact .inl rfl
  · rw [hpc, Function.update_of_ne hj]
    exact .inl rfl

/-- The next action of a coroutine in a call of the mutex stays in this call, or ends it. -/
theorem advance_self (hadvance : MuCore.advance m k = some m') :
    (locking (m.pc k) = true → locking (m'.pc k) = true) ∧
      (unlocking (m.pc k) = true → unlocking (m'.pc k) = true) := by
  rcases advance_cases hadvance with ⟨x, hpc, rfl⟩ | ⟨q, hpc, hlocking, hunlocking⟩
  · rw [MuCore.State.goto_pc, Function.update_self, hpc]
    exact ⟨fun h => Bool.noConfusion h, fun _ => rfl⟩
  · rw [hpc, Function.update_self]
    exact ⟨hlocking, hunlocking⟩

end Mutex

/-! ## The simulation -/

/-- The concurrent kernel {lit}`s` stands as the kernel {lit}`a` whose calls take one step. -/
structure Sim [Fintype κ] (tid : κ → Int) (s : State κ ι) (a : Spec κ ι) : Prop where
  mutex : ∃ hand es, MuCore.Inv tid s.fMapLk_ hand es
  fits : ∀ k, (s.stage k).Fits (s.fMapLk_.pc k)
  phase : ∀ k, a.phase k = (s.stage k).phase
  stands : ∀ k, (s.stage k).Stands a.polled
  /-- The coroutine between lookup and unlock has done a part of its call. -/
  effect : ∀ k, (s.stage k).middle = true → s.polled = (s.stage k).effect a.polled
  rest : (∀ k, (s.stage k).middle = false) → s.polled = a.polled
  named : Named a.polled
  funcs : ∀ icu, ∀ k ∈ s.funcs_ icu, ∃ r, s.stage k = .waiting r ∧ r.fq.icu_ = icu
  nodup : ∀ icu, (s.funcs_ icu).Nodup

section Simulation

variable [Fintype κ] {tid : κ → Int} {s s' : State κ ι} {a a' : Spec κ ι} {k : κ} {st : Stage ι}

theorem sim_construct (icus : List ι) (pos : ι → Nat) (tid : κ → Int) :
    Sim tid (State.construct icus pos tid) (Spec.construct icus pos) where
  mutex := ⟨[], [], MuCore.inv_construct tid⟩
  fits _ := rfl
  phase _ := rfl
  stands _ := trivial
  effect _ h := by cases h
  rest _ := rfl
  named _ _ h := by cases h
  funcs _ _ h := by cases h
  nodup _ := List.nodup_nil

/-- While a coroutine holds the mutex no other one is in the middle of a call. -/
theorem Sim.alone (h : Sim tid s a) (hk : s.fMapLk_.pc k = .held) {j : κ} (hj : j ≠ k) :
    (s.stage j).middle = false := by
  cases hmiddle : (s.stage j).middle with
  | false => rfl
  | true =>
      rcases h.mutex with ⟨hand, es, hinv⟩
      have hheld := (h.fits j).held hmiddle
      exact absurd (hinv.turn.exclusive j k (by rw [hheld]; rfl) (by rw [hk]; rfl)) hj

/-- What the holder of the mutex has done is all that has been done. -/
theorem Sim.polled_eq (h : Sim tid s a) (hk : s.fMapLk_.pc k = .held) :
    s.polled = (s.stage k).effect a.polled := by
  cases hmiddle : (s.stage k).middle with
  | true => exact h.effect k hmiddle
  | false =>
      rw [Stage.effect_of_not_middle hmiddle]
      apply h.rest
      intro j
      by_cases hj : j = k
      · rw [hj]
        exact hmiddle
      · exact h.alone hk hj

theorem Sim.not_queued (h : Sim tid s a) (hk : ∀ r, s.stage k ≠ .waiting r) (icu : ι) :
    k ∉ s.funcs_ icu := by
  intro hmem
  rcases h.funcs icu k hmem with ⟨r, hr, _⟩
  exact hk r hr

variable [DecidableEq κ]

/-- The holder of the mutex goes on. -/
theorem Sim.hold (h : Sim tid s a) (hk : s.fMapLk_.pc k = .held)
    (hstage : s'.stage = Function.update s.stage k st) (hmutex : s'.fMapLk_ = s.fMapLk_)
    (hfits : st.Fits (.held : MuCore.Pc κ))
    (hphase : a'.phase = Function.update a.phase k st.phase) (hstands : st.Stands a'.polled)
    (heffect : s'.polled = st.effect a'.polled) (hnamed : Named a'.polled)
    (hfuncs : ∀ icu, ∀ j ∈ s'.funcs_ icu,
      (j ≠ k ∧ j ∈ s.funcs_ icu) ∨ (j = k ∧ ∃ r, st = .waiting r ∧ r.fq.icu_ = icu))
    (hnodup : ∀ icu, (s'.funcs_ icu).Nodup) : Sim tid s' a' := by
  have hself : s'.stage k = st := by rw [hstage, Function.update_self]
  have hother : ∀ j, j ≠ k → s'.stage j = s.stage j := by
    intro j hj
    rw [hstage, Function.update_of_ne hj]
  have halone : ∀ j, j ≠ k → (s'.stage j).middle = false := by
    intro j hj
    rw [hother j hj]
    exact h.alone hk hj
  refine ⟨?_, ?_, ?_, ?_, ?_, ?_, hnamed, ?_, hnodup⟩
  · rw [hmutex]
    exact h.mutex
  · intro j
    rw [hmutex]
    by_cases hj : j = k
    · subst hj
      rw [hself, hk]
      exact hfits
    · rw [hother j hj]
      exact h.fits j
  · intro j
    by_cases hj : j = k
    · subst hj
      rw [hself, hphase, Function.update_self]
    · rw [hother j hj, hphase, Function.update_of_ne hj]
      exact h.phase j
  · intro j
    by_cases hj : j = k
    · subst hj
      rw [hself]
      exact hstands
    · exact Stage.stands_of_not_middle (halone j hj) _
  · intro j hmiddle
    by_cases hj : j = k
    · subst hj
      rw [hself]
      exact heffect
    · rw [halone j hj] at hmiddle
      cases hmiddle
  · intro hnone
    rw [heffect, Stage.effect_of_not_middle]
    rw [← hself]
    exact hnone k
  · intro icu j hmem
    rcases hfuncs icu j hmem with ⟨hj, hmem⟩ | ⟨rfl, r, hr, hicu⟩
    · rw [hother j hj]
      exact h.funcs icu j hmem
    · exact ⟨r, hself.trans hr, hicu⟩

/-- A coroutine goes on in the mutex, or into it or out of it. -/
theorem Sim.move (h : Sim tid s a) (hstage : s'.stage = Function.update s.stage k st)
    (hk : (s.stage k).middle = false) (hst : st.middle = false)
    (hmutex : ∃ hand es, MuCore.Inv tid s'.fMapLk_ hand es)
    (hfits : ∀ j, (s'.stage j).Fits (s'.fMapLk_.pc j))
    (hphase : a'.phase = Function.update a.phase k st.phase) (hpolled : s'.polled = s.polled)
    (hpolled' : a'.polled = a.polled) (hfuncs : s'.funcs_ = s.funcs_) : Sim tid s' a' := by
  have hself : s'.stage k = st := by rw [hstage, Function.update_self]
  have hother : ∀ j, j ≠ k → s'.stage j = s.stage j := by
    intro j hj
    rw [hstage, Function.update_of_ne hj]
  refine ⟨hmutex, hfits, ?_, ?_, ?_, ?_, hpolled' ▸ h.named, ?_, hfuncs ▸ h.nodup⟩
  · intro j
    by_cases hj : j = k
    · subst hj
      rw [hself, hphase, Function.update_self]
    · rw [hother j hj, hphase, Function.update_of_ne hj]
      exact h.phase j
  · intro j
    by_cases hj : j = k
    · subst hj
      rw [hself]
      exact Stage.stands_of_not_middle hst _
    · rw [hother j hj, hpolled']
      exact h.stands j
  · intro j hmiddle
    by_cases hj : j = k
    · subst hj
      rw [hself, hst] at hmiddle
      cases hmiddle
    · rw [hother j hj] at hmiddle ⊢
      rw [hpolled, hpolled']
      exact h.effect j hmiddle
  · intro hnone
    rw [hpolled, hpolled']
    apply h.rest
    intro j
    by_cases hj : j = k
    · subst hj
      exact hk
    · rw [← hother j hj]
      exact hnone j
  · intro icu j hmem
    rw [hfuncs] at hmem
    have hj : j ≠ k := by
      rintro rfl
      rcases h.funcs icu j hmem with ⟨r, hr, _⟩
      rw [hr] at hk
      cases hk
    rw [hother j hj]
    exact h.funcs icu j hmem

/-- A coroutine goes on in the mutex. -/
theorem Sim.advance (h : Sim tid s a) (hk : (s.stage k).middle = false) {m' : MuCore.State κ}
    (hadvance : MuCore.advance s.fMapLk_ k = some m') : Sim tid (s.setMutex m') a := by
  rcases h.mutex with ⟨hand, es, hinv⟩
  rcases hinv.advance hadvance with ⟨hand', hinv'⟩
  have hstage : (s.setMutex m').stage = Function.update s.stage k (s.stage k) :=
    (Function.update_eq_self k s.stage).symm
  refine h.move hstage hk hk ⟨hand', _, hinv'⟩ ?_ (by rw [← h.phase k]; simp) rfl rfl rfl
  intro j
  have hj := h.fits j
  change (s.stage j).Fits (m'.pc j)
  by_cases hjk : j = k
  · subst hjk
    have hself := advance_self hadvance
    cases hst : s.stage j with
    | idle =>
        rw [hst] at hj
        change s.fMapLk_.pc j = .out at hj
        simp [MuCore.advance, hj] at hadvance
    | lock c =>
        rw [hst] at hj
        exact hself.1 hj
    | unlock d =>
        rw [hst] at hj
        exact hself.2 hj
    | setWEvents | queueInLoop | waiting | resumed | reorder =>
        rw [hst] at hk
        cases hk
  · rcases advance_other hinv hadvance hjk with hsame | ⟨hsusp, hready⟩
    · rw [hsame]
      exact hj
    · -- the woken coroutine is in `CoRoLock`
      rw [hsusp] at hj
      rw [hready]
      cases hst : s.stage j <;> simp_all [Stage.Fits, locking, unlocking]

/-- A coroutine calls. -/
theorem Sim.call (h : Sim tid s a) (hcard : Fintype.card κ < 2 ^ 32) (hk : s.stage k = .idle)
    (c : Call) :
    Sim tid ((s.setMutex (MuCore.lock s.fMapLk_ k)).goto k (.lock c))
      { a with phase := Function.update a.phase k (.called c) } := by
  rcases h.mutex with ⟨hand, es, hinv⟩
  have hout : s.fMapLk_.pc k = .out := by
    have hfits := h.fits k
    rw [hk] at hfits
    exact hfits
  refine h.move rfl (by rw [hk]; rfl) rfl ⟨hand, es, hinv.lock hcard hout⟩ ?_ rfl rfl rfl rfl
  intro j
  change (Function.update s.stage k (.lock c) j).Fits (Function.update s.fMapLk_.pc k _ j)
  by_cases hj : j = k
  · subst hj
    rw [Function.update_self, Function.update_self]
    change locking _ = true
    split <;> rfl
  · rw [Function.update_of_ne hj, Function.update_of_ne hj]
    exact h.fits j

/-- A coroutine starts to unlock. -/
theorem Sim.unlock (h : Sim tid s a) {d : Done ι} (hk : s.stage k = .unlock d)
    (hheld : s.fMapLk_.pc k = .held) : Sim tid (s.setMutex (MuCore.unlock s.fMapLk_ k)) a := by
  rcases h.mutex with ⟨hand, es, hinv⟩
  have howner : s.fMapLk_.tid_ = s.fMapLk_.tcb k := by
    rw [hinv.turn.tcb]
    exact hinv.turn.owner k (by rw [hheld]; rfl)
  have hstage : (s.setMutex (MuCore.unlock s.fMapLk_ k)).stage =
      Function.update s.stage k (s.stage k) := (Function.update_eq_self k s.stage).symm
  have hmiddle : (s.stage k).middle = false := by rw [hk]; rfl
  refine h.move hstage hmiddle hmiddle ⟨hand, es, hinv.unlock hheld⟩ ?_ (by rw [← h.phase k]; simp)
    rfl rfl rfl
  intro j
  change (s.stage j).Fits ((MuCore.unlock s.fMapLk_ k).pc j)
  rw [MuCore.unlock, if_pos howner, MuCore.State.goto_pc]
  by_cases hj : j = k
  · subst hj
    rw [Function.update_self, hk]
    rfl
  · rw [Function.update_of_ne hj]
    exact h.fits j

/-- A coroutine returns. -/
theorem Sim.back (h : Sim tid s a) {d : Done ι} (hk : s.stage k = .unlock d)
    (hout : s.fMapLk_.pc k = .out) :
    Sim tid (s.goto k .idle) { a with phase := Function.update a.phase k .idle } := by
  refine h.move rfl (by rw [hk]; rfl) rfl h.mutex ?_ rfl rfl rfl rfl
  intro j
  change (Function.update s.stage k .idle j).Fits (s.fMapLk_.pc j)
  by_cases hj : j = k
  · subst hj
    rw [Function.update_self]
    exact hout
  · rw [Function.update_of_ne hj]
    exact h.fits j

/-! ## The steps between lookup and unlock -/

theorem Done.apply_idle_remove {p : Polled ι} {fd : Int32} (icus : List ι)
    (hfind : Assoc.find p.kernel.fileWQPtrs_ fd = none) :
    (Done.irq (.removeIRQ fd 0)).apply icus p = some p := by
  simp [Done.apply, pollers, CoKernel.step, removeIRQ, hfind, Polled.request]

/-- After the lookup the call is done and has changed nothing, or it is in the middle. -/
theorem look_cases (icus : List ι) {p : Polled ι} {c : Call} (hlook : look p.kernel c = some st) :
    (∃ d, st = .unlock d ∧ d.call = c ∧ d.apply icus p = some p) ∨
    (st.middle = true ∧ st.phase = .called c ∧ st.Stands p ∧ st.effect p = p ∧
      ∀ r, st ≠ .waiting r) := by
  cases c with
  | waitFile fd =>
      cases hlook
      exact .inl ⟨_, rfl, rfl, if_pos rfl⟩
  | removeIRQ fd =>
      simp only [look] at hlook
      split at hlook
      · rename_i hfind
        cases hlook
        exact .inl ⟨_, rfl, rfl, Done.apply_idle_remove icus hfind⟩
      · rename_i fq hfind
        cases hlook
        exact .inr ⟨rfl, rfl, hfind, rfl, by simp⟩
  | updateIRQ fd events =>
      simp only [look] at hlook
      split at hlook
      · rename_i hfind
        rcases Option.map_eq_some_iff.mp hlook with ⟨icu, hicu, rfl⟩
        exact .inr ⟨rfl, rfl, ⟨hfind, hicu, rfl⟩, rfl, by simp⟩
      · rename_i fq hfind
        cases hlook
        exact .inr ⟨rfl, rfl, hfind, rfl, by simp⟩

omit [Fintype κ] in
theorem run_single {e : Event κ ι} (hstep : (atomic icus).step a e = some a') :
    (atomic icus).run a [e] = some a' :=
  Machine.run_cons_eq_some.mpr ⟨a', hstep, rfl⟩

/-- The call is decided, with the effect of its last change. -/
theorem Sim.commit (h : Sim tid s a) {d : Done ι} {c : Call} {p : Polled ι}
    (hheld : s.fMapLk_.pc k = .held) (hc : (s.stage k).phase = .called c)
    (hwaiting : ∀ r, s.stage k ≠ .waiting r) (hd : d.call = c)
    (happly : d.apply icus a.polled = some p) (hstage : s'.stage = Function.update s.stage k (.unlock d))
    (hmutex : s'.fMapLk_ = s.fMapLk_) (hfuncs : s'.funcs_ = s.funcs_) (hpolled : s'.polled = p) :
    ∃ a', (atomic icus).run a [.committed k d] = some a' ∧ Sim tid s' a' := by
  have hstep : (atomic icus).step a (.committed k d) =
      some { polled := p, phase := Function.update a.phase k (.decided d) } := by
    simp only [atomic, h.phase k, hc, hd, if_true, happly, Option.map_some]
  refine ⟨_, run_single hstep, h.hold hheld hstage hmutex rfl rfl trivial hpolled
    (h.named.apply happly) ?_ (hfuncs ▸ h.nodup)⟩
  · intro icu j hj
    rw [hfuncs] at hj
    refine .inl ⟨?_, hj⟩
    rintro rfl
    exact h.not_queued hwaiting icu hj

/-- The call goes on in the middle and has shown nothing. -/
theorem Sim.keep (h : Sim tid s a) (hheld : s.fMapLk_.pc k = .held)
    (hwaiting : ∀ r, s.stage k ≠ .waiting r) (hphase : st.phase = (s.stage k).phase)
    (hfits : st.Fits (.held : MuCore.Pc κ)) (hstands : st.Stands a.polled)
    (hstage : s'.stage = Function.update s.stage k st) (hmutex : s'.fMapLk_ = s.fMapLk_)
    (hfuncs : s'.funcs_ = s.funcs_) (heffect : s'.polled = st.effect a.polled) : Sim tid s' a := by
  refine h.hold hheld hstage hmutex hfits ?_ hstands heffect h.named ?_ (hfuncs ▸ h.nodup)
  · rw [hphase, ← h.phase k, Function.update_eq_self]
  · intro icu j hj
    rw [hfuncs] at hj
    refine .inl ⟨?_, hj⟩
    rintro rfl
    exact h.not_queued hwaiting icu hj

/-- The lookup. -/
theorem Sim.look (icus : List ι) (h : Sim tid s a) {c : Call} (hk : s.stage k = .lock c)
    (hheld : s.fMapLk_.pc k = .held) (hlook : look s.polled.kernel c = some st) :
    ∃ a', (atomic icus).run a ((s.stage k).event k st) = some a' ∧ Sim tid (s.goto k st) a' := by
  have hpolled : s.polled = a.polled := by
    rw [h.polled_eq hheld, hk]
    rfl
  have hwaiting : ∀ r, s.stage k ≠ .waiting r := by simp [hk]
  rw [hpolled] at hlook
  rcases look_cases icus hlook with ⟨d, rfl, hd, happly⟩ | ⟨hmiddle, hphase, hstands, heffect, hne⟩
  · rw [hk]
    exact h.commit hheld (by rw [hk]; rfl) hwaiting hd happly rfl rfl rfl hpolled
  · refine ⟨a, ?_, h.keep hheld hwaiting (by rw [hphase, hk]; rfl) ?_ hstands rfl rfl rfl ?_⟩
    · rw [hk]
      cases st <;> first | rfl | cases hmiddle
    · cases st <;> first | rfl | cases hmiddle
    · rw [heffect]
      exact hpolled

/-- {lit}`setWEvents` of a registered descriptor. -/
theorem Sim.setWEvents (h : Sim tid s a) {fd : Int32} {fq : FileWQ ι} {events : UInt32}
    (hk : s.stage k = .setWEvents fd fq events)
    (hstage : s'.stage =
      Function.update s.stage k (.queueInLoop ⟨.mod, fd, { fq with wevents_ := events }⟩))
    (hmutex : s'.fMapLk_ = s.fMapLk_) (hfuncs : s'.funcs_ = s.funcs_)
    (hpolled : s'.polled = { s.polled with kernel := { s.polled.kernel with
      fileWQPtrs_ := Assoc.modify s.polled.kernel.fileWQPtrs_ fd fun fq =>
        { fq with wevents_ := events } } }) : Sim tid s' a := by
  have hheld : s.fMapLk_.pc k = .held := (h.fits k).held (by rw [hk]; rfl)
  have hstands := h.stands k
  rw [hk] at hstands
  have hvalid : (Stage.queueInLoop ⟨.mod, fd, { fq with wevents_ := events }⟩).Stands a.polled :=
    ⟨fq, hstands, rfl⟩
  refine h.keep hheld (by simp [hk]) ?_ ?_ hvalid hstage hmutex hfuncs ?_
  · rw [hk]
    rfl
  · rfl
  rw [hpolled, h.polled_eq hheld, hk]
  rfl

/-- The function is put into the queue of the ICU. -/
theorem Sim.queueInLoop (h : Sim tid s a) {r : Request ι} (hk : s.stage k = .queueInLoop r)
    (hstage : s'.stage = Function.update s.stage k (.waiting r))
    (hmutex : s'.fMapLk_ = s.fMapLk_) (hpolled : s'.polled = s.polled)
    (hfuncs : s'.funcs_ = Function.update s.funcs_ r.fq.icu_ (s.funcs_ r.fq.icu_ ++ [k])) :
    Sim tid s' a := by
  have hheld : s.fMapLk_.pc k = .held := (h.fits k).held (by rw [hk]; rfl)
  have hstands := h.stands k
  have hnot := h.not_queued (k := k) (by simp [hk])
  rw [hk] at hstands
  refine h.hold hheld hstage hmutex rfl ?_ hstands ?_ h.named ?_ ?_
  · rw [← Function.update_eq_self k a.phase, h.phase k, hk]
    simp [Stage.phase]
  · rw [hpolled, h.polled_eq hheld, hk]
    rfl
  · intro icu j hj
    by_cases hicu : icu = r.fq.icu_
    · subst hicu
      rw [hfuncs, Function.update_self, List.mem_append, List.mem_singleton] at hj
      rcases hj with hj | rfl
      · exact .inl ⟨fun heq => hnot _ (heq ▸ hj), hj⟩
      · exact .inr ⟨rfl, r, rfl, rfl⟩
    · rw [hfuncs, Function.update_of_ne hicu] at hj
      exact .inl ⟨fun heq => hnot _ (heq ▸ hj), hj⟩
  · intro icu
    by_cases hicu : icu = r.fq.icu_
    · subst hicu
      rw [hfuncs, Function.update_self]
      refine List.nodup_append.mpr ⟨h.nodup _, List.nodup_singleton k, ?_⟩
      rintro i hi j hj rfl
      rw [List.mem_singleton.mp hj] at hi
      exact hnot _ hi
    · rw [hfuncs, Function.update_of_ne hicu]
      exact h.nodup icu

/-- The ICU asks its poller. -/
theorem Sim.loop (h : Sim tid s a) {icu : ι} {rest : List κ} {r : Request ι} {ret : Int}
    (hqueue : s.funcs_ icu = k :: rest) (hk : s.stage k = .waiting r)
    (hstage : s'.stage = Function.update s.stage k (.resumed r ret))
    (hmutex : s'.fMapLk_ = s.fMapLk_) (hfuncs : s'.funcs_ = Function.update s.funcs_ icu rest)
    (hpolled : s'.polled = { s.polled with
      interest := epollCtl s.polled.interest icu r.fq.fd_ (r.mask s.polled.kernel) ret }) :
    Sim tid s' a := by
  have hheld : s.fMapLk_.pc k = .held := (h.fits k).held (by rw [hk]; rfl)
  have hstands := h.stands k
  rw [hk] at hstands
  change r.Valid a.polled at hstands
  have hicu : r.fq.icu_ = icu := by
    rcases h.funcs icu k (by rw [hqueue]; exact List.mem_cons_self) with ⟨r', hr', hicu⟩
    cases hk.symm.trans hr'
    exact hicu
  have hnodup := h.nodup icu
  rw [hqueue] at hnodup
  refine h.hold hheld hstage hmutex rfl ?_ hstands ?_ h.named ?_ ?_
  · rw [← Function.update_eq_self k a.phase, h.phase k, hk]
    simp [Stage.phase]
  · have hbefore : s.polled = r.record a.polled := by
      rw [h.polled_eq hheld, hk]
      rfl
    rw [hpolled, hbefore, hstands.mask_eq, hstands.fd_eq h.named, ← hicu]
    have hinterest : (r.record a.polled).interest = a.polled.interest := by
      unfold Request.record
      split <;> rfl
    rw [hinterest]
    rfl
  · intro icu' j hj
    by_cases heq : icu' = icu
    · subst heq
      rw [hfuncs, Function.update_self] at hj
      refine .inl ⟨fun hjk => (List.nodup_cons.mp hnodup).1 (hjk ▸ hj), ?_⟩
      rw [hqueue]
      exact List.mem_cons_of_mem _ hj
    · rw [hfuncs, Function.update_of_ne heq] at hj
      refine .inl ⟨?_, hj⟩
      rintro rfl
      rcases h.funcs icu' j hj with ⟨r', hr', hicu'⟩
      cases hk.symm.trans hr'
      exact heq (hicu'.symm.trans hicu)
  · intro icu'
    by_cases heq : icu' = icu
    · subst heq
      rw [hfuncs, Function.update_self]
      exact (List.nodup_cons.mp hnodup).2
    · rw [hfuncs, Function.update_of_ne heq]
      exact h.nodup icu'

/-- The coroutine has been woken with the poller's answer. -/
theorem Sim.resume (icus : List ι) (h : Sim tid s a) {r : Request ι} {ret : Int}
    (hk : s.stage k = .resumed r ret)
    (hs' : (if r.stores ret then
        some ((s.setKernel (r.store s.polled.kernel)).goto k (.reorder r ret))
      else some (s.goto k (.unlock (r.done ret)))) = some s') :
    ∃ a', (atomic icus).run a ((s.stage k).event k (s'.stage k)) = some a' ∧ Sim tid s' a' := by
  have hheld : s.fMapLk_.pc k = .held := (h.fits k).held (by rw [hk]; rfl)
  have hstands := h.stands k
  rw [hk] at hstands
  change r.Valid a.polled at hstands
  have hbefore : s.polled = r.ask a.polled ret := by
    rw [h.polled_eq hheld, hk]
    rfl
  have hwaiting : ∀ r, s.stage k ≠ .waiting r := by simp [hk]
  have hdone := hstands.apply_done icus ret
  split at hs'
  · rename_i hstores
    cases hs'
    have hvalid : (Stage.reorder r ret).Stands a.polled := ⟨hstands, hstores⟩
    refine ⟨a, ?_, h.keep hheld hwaiting (by rw [hk]; rfl) ?_ hvalid rfl rfl rfl ?_⟩
    · simp [hk, Stage.event, State.goto, Machine.run]
    · rfl
    · simp only [State.goto, State.setKernel, hbefore]
      rfl
  · rename_i hstores
    cases hs'
    rw [if_neg hstores] at hdone
    have hevent : (s.stage k).event k ((s.goto k (.unlock (r.done ret))).stage k) =
        [.committed k (r.done ret)] := by
      simp [hk, Stage.event, State.goto]
    rw [hevent]
    exact h.commit hheld (by rw [hk]; rfl) hwaiting (r.call_done ret) hdone rfl rfl rfl hbefore

/-- The order of {lit}`icus_` is restored. -/
theorem Sim.reorder (icus : List ι) (h : Sim tid s a) {r : Request ι} {ret : Int}
    {kernel : CoKernel.State ι} (hk : s.stage k = .reorder r ret)
    (hkernel : r.reorder s.polled.kernel = some kernel) :
    ∃ a', (atomic icus).run a [.committed k (r.done ret)] = some a' ∧
      Sim tid ((s.setKernel kernel).goto k (.unlock (r.done ret))) a' := by
  have hheld : s.fMapLk_.pc k = .held := (h.fits k).held (by rw [hk]; rfl)
  have hstands := h.stands k
  rw [hk] at hstands
  rcases hstands with ⟨hvalid, hstores⟩
  have hbefore : s.polled = r.change a.polled ret := by
    rw [h.polled_eq hheld, hk]
    rfl
  have hdone := hvalid.apply_done icus ret
  rw [hbefore] at hkernel
  rw [if_pos hstores, hkernel, Option.map_some] at hdone
  refine h.commit hheld (by rw [hk]; rfl) (by simp [hk]) (r.call_done ret) hdone rfl rfl rfl ?_
  simp only [State.goto, State.setKernel, hbefore]
  rfl

/-! ## Whole runs -/

theorem Sim.go (icus : List ι) (h : Sim tid s a) (hgo : go s k = some s') :
    ∃ a', (atomic icus).run a ((s.stage k).event k (s'.stage k)) = some a' ∧ Sim tid s' a' := by
  unfold Calls.go at hgo
  cases hk : s.stage k with
  | idle =>
      simp only [hk, reduceCtorEq] at hgo
  | waiting r =>
      simp only [hk, reduceCtorEq] at hgo
  | lock c =>
      simp only [hk] at hgo
      split at hgo
      · rename_i hheld
        rcases Option.map_eq_some_iff.mp hgo with ⟨st, hlook, rfl⟩
        rw [← hk, State.goto_stage, Function.update_self]
        exact h.look icus hk hheld hlook
      · rcases Option.map_eq_some_iff.mp hgo with ⟨m', hadvance, rfl⟩
        refine ⟨a, ?_, h.advance (by rw [hk]; rfl) hadvance⟩
        rw [State.setMutex_stage, hk]
        rfl
  | setWEvents fd fq events =>
      simp only [hk, Option.some.injEq] at hgo
      refine ⟨a, ?_, h.setWEvents hk ?_ ?_ ?_ ?_⟩ <;> subst hgo
      · simp [State.goto, Stage.event, Machine.run]
      all_goals rfl
  | queueInLoop r =>
      simp only [hk, Option.some.injEq] at hgo
      refine ⟨a, ?_, h.queueInLoop hk ?_ ?_ ?_ ?_⟩ <;> subst hgo
      · simp [State.goto, Stage.event, Machine.run]
      all_goals rfl
  | resumed r ret =>
      simp only [hk] at hgo
      rw [← hk]
      exact h.resume icus hk hgo
  | reorder r ret =>
      simp only [hk] at hgo
      rcases Option.map_eq_some_iff.mp hgo with ⟨kernel, hkernel, rfl⟩
      rw [State.goto_stage, Function.update_self]
      exact h.reorder icus hk hkernel
  | unlock d =>
      simp only [hk] at hgo
      split at hgo
      · rename_i hheld
        cases hgo
        refine ⟨a, ?_, h.unlock hk hheld⟩
        rw [State.setMutex_stage, hk]
        rfl
      · rename_i hout
        cases hgo
        refine ⟨_, ?_, h.back hk hout⟩
        rw [State.goto_stage, Function.update_self]
        apply run_single
        have hphase : a.phase k = .decided d := by
          rw [h.phase k, hk]
          rfl
        exact if_pos hphase
      · rcases Option.map_eq_some_iff.mp hgo with ⟨m', hadvance, rfl⟩
        refine ⟨a, ?_, h.advance (by rw [hk]; rfl) hadvance⟩
        rw [State.setMutex_stage, hk]
        rfl

/-- Each step is a run of the atomic kernel with the events that it shows. -/
theorem Sim.step (icus : List ι) (hcard : Fintype.card κ < 2 ^ 32) (h : Sim tid s a)
    {x : Action κ ι} (hstep : step s x = some s') :
    ∃ a', (atomic icus).run a (emit s x) = some a' ∧ Sim tid s' a' := by
  cases x with
  | call k c =>
      simp only [Calls.step] at hstep
      split at hstep
      · rename_i hk
        cases hstep
        refine ⟨_, ?_, h.call hcard hk c⟩
        simp only [emit, hk]
        apply run_single
        have hphase : a.phase k = .idle := by
          rw [h.phase k, hk]
          rfl
        exact if_pos hphase
      · cases hstep
  | go k =>
      change Calls.go s k = some s' at hstep
      simp only [emit, hstep]
      exact h.go icus hstep
  | loop icu ret =>
      simp only [Calls.step, Calls.loop] at hstep
      split at hstep
      · cases hstep
      · rename_i k rest hqueue
        split at hstep
        · rename_i r hk
          cases hstep
          exact ⟨a, rfl, h.loop hqueue hk rfl rfl rfl rfl⟩
        · cases hstep

/-- In every interleaving of coroutines and ICUs the calls take effect one at a time, each at once
between its invocation and its return and with the result that it returns; while nobody holds
{lit}`fMapLk_` the kernel and the pollers are as these calls have left them. -/
theorem calls_atomic {icus : List ι} {pos : ι → ℕ} {as : List (Action κ ι)}
    {es : List (Event κ ι)} (hcard : Fintype.card κ < 2 ^ 32)
    (hrun : ((machine icus tid).observe emit).run (State.construct icus pos tid, []) as =
      some (s, es)) :
    ∃ a, (atomic icus).run (Spec.construct icus pos) es = some a ∧
      (∀ k, a.phase k = (s.stage k).phase) ∧
      ((∀ k, s.fMapLk_.pc k ≠ .held) → s.polled = a.polled) := by
  have hkeep : ∀ (t : State κ ι × List (Event κ ι)) x t',
      (∃ a, (atomic icus).run (Spec.construct icus pos) t.2 = some a ∧ Sim tid t.1 a) →
      ((machine icus tid).observe emit).step t x = some t' →
      ∃ a, (atomic icus).run (Spec.construct icus pos) t'.2 = some a ∧ Sim tid t'.1 a := by
    rintro t x t' ⟨a, ha, hsim⟩ hstep
    rcases Machine.observe_step_eq_some.mp hstep with ⟨hstep, hes⟩
    rcases hsim.step icus hcard hstep with ⟨a', ha', hsim'⟩
    refine ⟨a', ?_, hsim'⟩
    rw [hes, Machine.run_append, ha]
    exact ha'
  rcases Machine.run_keep hkeep ⟨_, rfl, sim_construct icus pos tid⟩ hrun with ⟨a, ha, hsim⟩
  refine ⟨a, ha, hsim.phase, fun hfree => hsim.rest fun k => ?_⟩
  cases hmiddle : (s.stage k).middle with
  | false => rfl
  | true => exact absurd ((hsim.fits k).held hmiddle) (hfree k)

end Simulation

/-! ## A run -/

/-- Two coroutines: {lit}`false` registers descriptor 5 with the ICU {lit}`false` while {lit}`true` is suspended in
{lit}`CoRoLock`, to look it up. -/
def sample : List (Action Bool Bool) :=
  [.call false (.updateIRQ 5 1), .go false, .call true (.waitFile 5), .go true, .go false,
    .go false, .loop false 0, .go false, .go false, .go false, .go false, .go false, .go false,
    .go false, .go true, .go true, .go true, .go true, .go true, .go false]

/-- What they show. -/
def sampleEvents : List (Event Bool Bool) :=
  [.invoked false (.updateIRQ 5 1), .invoked true (.waitFile 5),
    .committed false (.irq (.updateIRQ 5 1 0)), .committed true (.waitFile 5 (some ⟨5, false, 1⟩)),
    .returned true (.waitFile 5 (some ⟨5, false, 1⟩)), .returned false (.irq (.updateIRQ 5 1 0))]

def sampleTid (k : Bool) : Int :=
  if k then 2 else 1

/-- The kernel before the run. -/
def sampleStart : State Bool Bool :=
  State.construct [false, true] (fun _ => 7) sampleTid

/-- The lookup finds what the registration has made. -/
theorem calls_atomic_sample :
    ∃ (s : State Bool Bool) (a : Spec Bool Bool),
      ((machine [false, true] sampleTid).observe emit).run (sampleStart, []) sample =
        some (s, sampleEvents) ∧
      (atomic [false, true]).run (Spec.construct [false, true] fun _ => 7) sampleEvents = some a ∧
      s.polled = a.polled := by
  have hrun : (((machine [false, true] sampleTid).observe emit).run (sampleStart, []) sample).map
      (fun t => (t.2, t.1.fMapLk_.pc false, t.1.fMapLk_.pc true)) =
        some (sampleEvents, .out, .out) := by
    decide +kernel
  rcases Option.map_eq_some_iff.mp hrun with ⟨⟨s, es⟩, hs, hfields⟩
  simp only [Prod.mk.injEq] at hfields
  rcases hfields with ⟨rfl, hfalse, htrue⟩
  rcases calls_atomic (by decide) hs with ⟨a, ha, _, hfree⟩
  exact ⟨s, a, hs, ha, hfree (Bool.forall_bool.mpr ⟨by simp [hfalse], by simp [htrue]⟩)⟩

end Calls
end CoKernel
end CoEpoll
