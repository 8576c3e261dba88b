import CoEpoll.CoKernel.Calls.Atomic
import CoEpoll.CoKernel.LoadOrder.Balance
import Mathlib.Algebra.Order.BigOperators.Group.Finset

/-!
# The calls come to an end

A call keeps {lit}`fMapLk_` while it waits for an ICU, and other coroutines wait for {lit}`fMapLk_`.  Nobody
waits in a circle: the ICUs wait for no coroutine, and the one coroutine inside goes on as soon as its
function has been run.  That its ICU does run it is assumed: a wake-up that {lit}`ICU::loop` swallows leaves
it in the queue until {lit}`epoll_wait` returns.  An {lit}`unlock` can spin on an empty queue of the mutex, until the coroutine that it
waits for has put itself into the queue.

Main results:

- Definition {lit}`State.work`: the number of steps that are left to the calls at hand.
- Theorem {lit}`Sim.work_step`: every step but a new call and the spinning takes away from it.
- Theorem {lit}`calls_complete`: while a call is not finished, some step goes on that takes away from it.
-/

namespace CoEpoll
namespace CoKernel
namespace Calls

open Transition

variable {κ ι : Type*}

/-! ## The steps that are left -/

/-- A bound for the steps of a coroutine until it returns. -/
def Stage.left (p : MuCore.Pc κ) : Stage ι → ℕ
  | .idle => 0
  | .lock _ =>
      match p with
      | .lockQueue => 20
      | .suspended => 19
      | .ready => 18
      | .lockStore => 18
      | _ => 17
  | .setWEvents _ _ _ => 16
  | .queueInLoop _ => 15
  | .waiting _ => 14
  | .resumed _ _ => 13
  | .reorder _ _ => 12
  | .unlock _ =>
      match p with
      | .held => 11
      | .unlockDec => 10
      | .unlockPop => 9
      | .unlockStore _ => 8
      | .unlockWake _ => 7
      | _ => 6

theorem Stage.left_le_of_middle {st : Stage ι} (h : st.middle = true) (p : MuCore.Pc κ) :
    st.left p ≤ 16 := by
  cases st with
  | idle => cases h
  | lock c => cases h
  | unlock d => cases h
  | setWEvents | queueInLoop | waiting | resumed | reorder => simp [left]

/-- A bound for the steps of all coroutines until all have returned. -/
def State.work [Fintype κ] (s : State κ ι) : ℕ :=
  ∑ k, (s.stage k).left (s.fMapLk_.pc k)

/-- Not a new call, and not {lit}`while (!mu_->items_.dequeue(newItem));` on an empty queue. -/
def Works (s : State κ ι) : Action κ ι → Prop
  | .call _ _ => False
  | .go k => ¬ (s.fMapLk_.pc k = .unlockPop ∧ s.fMapLk_.items_ = [])
  | .loop _ _ => True

/-- Some coroutine goes on, and the others stay or are woken. -/
theorem work_lt [Fintype κ] {s s' : State κ ι} {k : κ}
    (hk : (s'.stage k).left (s'.fMapLk_.pc k) < (s.stage k).left (s.fMapLk_.pc k))
    (hother : ∀ j, j ≠ k →
      (s'.stage j).left (s'.fMapLk_.pc j) ≤ (s.stage j).left (s.fMapLk_.pc j)) :
    s'.work < s.work := by
  apply Finset.sum_lt_sum
  · intro j _
    by_cases hj : j = k
    · subst hj
      exact hk.le
    · exact hother j hj
  · exact ⟨k, Finset.mem_univ k, hk⟩

variable [DecidableEq κ] [DecidableEq ι] [Fintype κ] {icus : List ι} {tid : κ → Int}
  {s s' : State κ ι} {a a' : Spec κ ι} {k : κ} {st : Stage ι}

instance (s : State κ ι) (x : Action κ ι) : Decidable (Works s x) :=
  match x with
  | .call _ _ => .isFalse id
  | .go k => inferInstanceAs (Decidable (¬ (s.fMapLk_.pc k = .unlockPop ∧ s.fMapLk_.items_ = [])))
  | .loop _ _ => .isTrue trivial

omit [Fintype κ] [DecidableEq ι] in
/-- A coroutine that goes on outside the mutex. -/
theorem work_lt_of_goto [Fintype κ] (hstage : s'.stage = Function.update s.stage k st)
    (hmutex : s'.fMapLk_ = s.fMapLk_)
    (hlt : st.left (s.fMapLk_.pc k) < (s.stage k).left (s.fMapLk_.pc k)) : s'.work < s.work := by
  apply work_lt (k := k)
  · rw [hstage, hmutex, Function.update_self]
    exact hlt
  · intro j hj
    rw [hstage, hmutex, Function.update_of_ne hj]

omit [Fintype κ] [DecidableEq ι] in
/-- A coroutine that goes on in the mutex and does not spin. -/
theorem advance_left {m m' : MuCore.State κ} (hadvance : MuCore.advance m k = some m')
    (hfits : st.Fits (m.pc k)) (hmiddle : st.middle = false)
    (hspin : ¬ (m.pc k = .unlockPop ∧ m.items_ = [])) :
    st.left (m'.pc k) < st.left (m.pc k) := by
  unfold MuCore.advance at hadvance
  cases hpc : m.pc k <;> simp only [hpc, reduceCtorEq, Option.some.injEq] at hadvance
  case lockStore | lockQueue | ready | unlockStore =>
    subst hadvance
    cases st <;> simp_all [Stage.Fits, Stage.left, locking, unlocking, Stage.middle]
  case tryStore =>
    cases st <;> simp_all [Stage.Fits, locking, unlocking]
  case unlockDec =>
    subst hadvance
    rw [MuCore.State.goto_pc, Function.update_self]
    split <;> cases st <;> simp_all [Stage.Fits, Stage.left, locking, unlocking, Stage.middle]
  case unlockPop =>
    split at hadvance
    · rename_i hempty
      exact absurd ⟨hpc, hempty⟩ hspin
    · cases hadvance
      rw [MuCore.State.goto_pc, Function.update_self]
      cases st <;> simp_all [Stage.Fits, Stage.left, locking, unlocking, Stage.middle]
  case unlockWake x =>
    subst hadvance
    rw [MuCore.State.goto_pc, Function.update_self]
    cases st <;> simp_all [Stage.Fits, Stage.left, locking, unlocking, Stage.middle]

theorem Sim.work_advance (h : Sim tid s a) (hk : (s.stage k).middle = false)
    {m' : MuCore.State κ} (hadvance : MuCore.advance s.fMapLk_ k = some m')
    (hspin : ¬ (s.fMapLk_.pc k = .unlockPop ∧ s.fMapLk_.items_ = [])) :
    (s.setMutex m').work < s.work := by
  rcases h.mutex with ⟨hand, es, hinv⟩
  apply work_lt (k := k)
  · exact advance_left hadvance (h.fits k) hk hspin
  · intro j hj
    change (s.stage j).left (m'.pc j) ≤ _
    rcases advance_other hinv hadvance hj with hsame | ⟨hsusp, hready⟩
    · rw [hsame]
    · rw [hsusp, hready]
      cases s.stage j <;> simp [Stage.left]

/-- Every step but a new call and the spinning takes away from the work that is left. -/
theorem Sim.work_step (h : Sim tid s a) {x : Action κ ι} (hworks : Works s x)
    (hstep : Calls.step s x = some s') : s'.work < s.work := by
  cases x with
  | call k c => exact hworks.elim
  | loop icu ret =>
      simp only [Calls.step, Calls.loop] at hstep
      split at hstep
      · cases hstep
      · rename_i k rest hqueue
        split at hstep
        · rename_i r hk
          cases hstep
          refine work_lt_of_goto (k := k) rfl rfl ?_
          simp [hk, Stage.left]
        · cases hstep
  | go k =>
      change Calls.go s k = some s' at hstep
      unfold Calls.go at hstep
      cases hk : s.stage k with
      | idle | waiting =>
          simp only [hk, reduceCtorEq] at hstep
      | lock c =>
          simp only [hk] at hstep
          split at hstep
          · rename_i hheld
            rcases Option.map_eq_some_iff.mp hstep with ⟨st, hlook, rfl⟩
            refine work_lt_of_goto (k := k) rfl rfl ?_
            rw [hk, hheld]
            rcases look_cases [] hlook with ⟨d, rfl, _⟩ | ⟨hmiddle, _⟩
            · simp [Stage.left]
            · exact Nat.lt_of_le_of_lt (Stage.left_le_of_middle hmiddle _) (by simp [Stage.left])
          · rcases Option.map_eq_some_iff.mp hstep with ⟨m', hadvance, rfl⟩
            exact h.work_advance (by rw [hk]; rfl) hadvance hworks
      | setWEvents | queueInLoop =>
          simp only [hk, Option.some.injEq] at hstep
          cases hstep
          refine work_lt_of_goto (k := k) rfl rfl ?_
          simp [hk, Stage.left]
      | resumed r ret =>
          have hheld := (h.fits k).held (by rw [hk]; rfl)
          simp only [hk] at hstep
          split at hstep <;> cases hstep <;>
          · refine work_lt_of_goto (k := k) rfl rfl ?_
            simp [hk, Stage.left, hheld]
      | reorder r ret =>
          have hheld := (h.fits k).held (by rw [hk]; rfl)
          simp only [hk] at hstep
          rcases Option.map_eq_some_iff.mp hstep with ⟨kernel, hkernel, rfl⟩
          refine work_lt_of_goto (k := k) rfl rfl ?_
          simp [hk, Stage.left, hheld]
      | unlock d =>
          simp only [hk] at hstep
          split at hstep
          · rename_i hheld
            rcases h.mutex with ⟨hand, es, hinv⟩
            have howner : s.fMapLk_.tid_ = s.fMapLk_.tcb k := by
              rw [hinv.turn.tcb]
              exact hinv.turn.owner k (by rw [hheld]; rfl)
            cases hstep
            apply work_lt (k := k)
            · simp [hk, hheld, MuCore.unlock, howner, Stage.left]
            · intro j hj
              simp [MuCore.unlock, howner, hj]
          · rename_i hout
            cases hstep
            refine work_lt_of_goto (k := k) rfl rfl ?_
            simp [hk, hout, Stage.left]
          · rcases Option.map_eq_some_iff.mp hstep with ⟨m', hadvance, rfl⟩
            exact h.work_advance (by rw [hk]; rfl) hadvance hworks

/-! ## Whoever waits for an ICU is in its queue -/

omit [DecidableEq ι] [Fintype κ] [DecidableEq κ] in
/-- A coroutine that waits for its function is in the queue of the ICU. -/
def Queued (s : State κ ι) : Prop :=
  ∀ k r, s.stage k = .waiting r → k ∈ s.funcs_ r.fq.icu_

omit [Fintype κ] [DecidableEq ι] in
/-- One coroutine goes on, and the others stay in the queues. -/
theorem Queued.goto (h : Queued s) (hstage : s'.stage = Function.update s.stage k st)
    (hself : ∀ r, st = .waiting r → k ∈ s'.funcs_ r.fq.icu_)
    (hother : ∀ icu, ∀ j ∈ s.funcs_ icu, j ≠ k → j ∈ s'.funcs_ icu) : Queued s' := by
  intro j r hj
  rw [hstage] at hj
  by_cases hjk : j = k
  · subst hjk
    rw [Function.update_self] at hj
    exact hself r hj
  · rw [Function.update_of_ne hjk] at hj
    exact hother _ j (h j r hj) hjk

omit [Fintype κ] in
theorem Queued.step (h : Queued s) {x : Action κ ι} (hstep : Calls.step s x = some s') :
    Queued s' := by
  cases x with
  | call k c =>
      simp only [Calls.step] at hstep
      split at hstep
      · cases hstep
        exact h.goto (k := k) rfl (by simp) fun icu j hj _ => hj
      · cases hstep
  | loop icu ret =>
      simp only [Calls.step, Calls.loop] at hstep
      split at hstep
      · cases hstep
      · rename_i k rest hqueue
        split at hstep
        · cases hstep
          refine h.goto (k := k) rfl (by simp) fun icu' j hj hjk => ?_
          change j ∈ Function.update s.funcs_ icu rest icu'
          by_cases hicu : icu' = icu
          · subst hicu
            rw [hqueue] at hj
            rw [Function.update_self]
            exact (List.mem_cons.mp hj).resolve_left hjk
          · rw [Function.update_of_ne hicu]
            exact hj
        · cases hstep
  | go k =>
      change Calls.go s k = some s' at hstep
      unfold Calls.go at hstep
      cases hk : s.stage k with
      | idle | waiting =>
          simp only [hk, reduceCtorEq] at hstep
      | lock c =>
          simp only [hk] at hstep
          split at hstep
          · rcases Option.map_eq_some_iff.mp hstep with ⟨st, hlook, rfl⟩
            refine h.goto (k := k) rfl (fun r hr => ?_) fun icu j hj _ => hj
            rcases look_cases [] hlook with ⟨d, rfl, _⟩ | ⟨_, _, _, _, hne⟩
            · cases hr
            · exact absurd hr (hne r)
          · rcases Option.map_eq_some_iff.mp hstep with ⟨m', hadvance, rfl⟩
            exact h
      | setWEvents fd fq events =>
          simp only [hk, Option.some.injEq] at hstep
          subst hstep
          exact h.goto (k := k) rfl (by simp) fun icu j hj _ => hj
      | resumed r ret =>
          simp only [hk] at hstep
          split at hstep
          · cases hstep
            exact h.goto (k := k) rfl (by simp) fun icu j hj _ => hj
          · cases hstep
            exact h.goto (k := k) rfl (by simp) fun icu j hj _ => hj
      | reorder r ret =>
          simp only [hk] at hstep
          rcases Option.map_eq_some_iff.mp hstep with ⟨kernel, hkernel, rfl⟩
          exact h.goto (k := k) rfl (by simp) fun icu j hj _ => hj
      | queueInLoop r =>
          simp only [hk, Option.some.injEq] at hstep
          subst hstep
          refine h.goto (k := k) rfl ?_ fun icu j hj _ => ?_
          · intro r' hr'
            cases hr'
            simp [State.goto]
          · by_cases hicu : icu = r.fq.icu_
            · subst hicu
              simp [State.goto, hj]
            · simp [State.goto, hicu, hj]
      | unlock d =>
          simp only [hk] at hstep
          split at hstep
          · cases hstep
            exact h
          · cases hstep
            exact h.goto (k := k) rfl (by simp) fun icu j hj _ => hj
          · rcases Option.map_eq_some_iff.mp hstep with ⟨m', hadvance, rfl⟩
            exact h

/-! ## The invariant -/

/-- The coroutines and ICUs stand as in a kernel whose calls take one step, and with its loads
balanced. -/
def Standing (icus : List ι) (tid : κ → Int) (s : State κ ι) : Prop :=
  (∃ a, Sim tid s a ∧ CoKernel.Inv icus a.polled.kernel) ∧ Queued s

omit [Fintype κ] [DecidableEq κ] in
theorem Done.keep_inv {p p' : Polled ι} {d : Done ι} (hinv : CoKernel.Inv icus p.kernel)
    (hnodup : icus.Nodup) (htwo : 2 ≤ icus.length) (happly : d.apply icus p = some p') :
    CoKernel.Inv icus p'.kernel := by
  cases d with
  | irq x =>
      have hstep := (pollers_step_eq_some.mp happly).1
      rcases hinv.step hnodup htwo x with ⟨kernel, hkernel, hinv'⟩
      cases hkernel.symm.trans hstep
      exact hinv'
  | waitFile fd fq =>
      simp only [Done.apply, Option.ite_none_right_eq_some, Option.some.injEq] at happly
      rcases happly with ⟨_, rfl⟩
      exact hinv

omit [Fintype κ] in
theorem atomic_keep_inv (hnodup : icus.Nodup) (htwo : 2 ≤ icus.length) {es : List (Event κ ι)}
    (hinv : CoKernel.Inv icus a.polled.kernel) (hrun : (atomic icus).run a es = some a') :
    CoKernel.Inv icus a'.polled.kernel := by
  refine Machine.run_keep (I := fun a => CoKernel.Inv icus a.polled.kernel) ?_ hinv hrun
  intro a e a' hinv hstep
  cases e with
  | invoked k c | returned k d =>
      simp only [atomic, Option.ite_none_right_eq_some, Option.some.injEq] at hstep
      rcases hstep with ⟨_, rfl⟩
      exact hinv
  | committed k d =>
      simp only [atomic, Option.ite_none_right_eq_some, Option.map_eq_some_iff] at hstep
      rcases hstep with ⟨_, p, happly, rfl⟩
      exact Done.keep_inv hinv hnodup htwo happly

theorem Standing.step (h : Standing icus tid s) (hnodup : icus.Nodup) (htwo : 2 ≤ icus.length)
    (hcard : Fintype.card κ < 2 ^ 32) {x : Action κ ι} (hstep : Calls.step s x = some s') :
    Standing icus tid s' := by
  rcases h with ⟨⟨a, hsim, hinv⟩, hqueued⟩
  rcases hsim.step icus hcard hstep with ⟨a', hrun, hsim'⟩
  exact ⟨⟨a', hsim', atomic_keep_inv hnodup htwo hinv hrun⟩, hqueued.step hstep⟩

theorem inductive_standing (hnodup : icus.Nodup) (htwo : 2 ≤ icus.length)
    (hcard : Fintype.card κ < 2 ^ 32) : (machine icus tid).Inductive (Standing icus tid) where
  init := by
    rintro s ⟨pos, rfl⟩
    refine ⟨⟨_, sim_construct icus pos tid, CoKernel.inv_construct icus pos⟩, ?_⟩
    intro k r hk
    cases hk
  step s x s' h hstep := h.step hnodup htwo hcard hstep

/-! ## Somebody goes on -/

/-- The coroutine can take a step that is no spinning. -/
def Goes (s : State κ ι) (k : κ) : Prop :=
  Works s (.go k) ∧ ∃ s', Calls.step s (.go k) = some s'

/-- The ICU can run a function, whatever its poller answers. -/
def Runs (s : State κ ι) (icu : ι) : Prop :=
  ∀ ret, ∃ s', Calls.step s (.loop icu ret) = some s'

omit [Fintype κ] [DecidableEq κ] in
theorem look_some {s : CoKernel.State ι} (hinv : CoKernel.Inv icus s) (htwo : 2 ≤ icus.length)
    (c : Call) : ∃ st, look s c = some st := by
  have hlen : 0 < s.icus_.length := by
    rw [hinv.perm.length_eq]
    omega
  cases c with
  | waitFile fd => exact ⟨_, rfl⟩
  | removeIRQ fd =>
      simp only [look]
      split
      · exact ⟨_, rfl⟩
      · exact ⟨_, rfl⟩
  | updateIRQ fd events =>
      simp only [look]
      split
      · exact ⟨_, by rw [List.getElem?_eq_getElem hlen]; rfl⟩
      · exact ⟨_, rfl⟩

omit [Fintype κ] [DecidableEq κ] in
/-- The ICU of a request belongs to the kernel. -/
theorem Request.Valid.mem_icus {p : Polled ι} {r : Request ι} (h : r.Valid p)
    (hinv : CoKernel.Inv icus p.kernel) : r.fq.icu_ ∈ icus := by
  rw [← hinv.perm.mem_iff]
  unfold Request.Valid at h
  split at h
  · exact List.mem_of_getElem? h.2.1
  · rcases h with ⟨fq, hfind, heq⟩
    rw [heq]
    exact hinv.owner _ (Assoc.mem_of_find hfind)
  · exact hinv.owner _ (Assoc.mem_of_find h)

omit [Fintype κ] [DecidableEq κ] in
theorem Done.irq_some {p : Polled ι} (hinv : CoKernel.Inv icus p.kernel) (hnodup : icus.Nodup)
    (htwo : 2 ≤ icus.length) (x : CoKernel.Action) :
    ∃ p', (Done.irq x).apply icus p = some p' := by
  rcases hinv.step hnodup htwo x with ⟨kernel, hkernel, _⟩
  exact ⟨⟨kernel, p.request x⟩, pollers_step_eq_some.mpr ⟨hkernel, rfl⟩⟩

omit [Fintype κ] [DecidableEq κ] in
/-- The order of {lit}`icus_` can be restored. -/
theorem Request.Valid.reorder_some {p : Polled ι} {r : Request ι} {ret : Int} (h : r.Valid p)
    (hstores : r.stores ret = true) (hinv : CoKernel.Inv icus p.kernel) (hnodup : icus.Nodup)
    (htwo : 2 ≤ icus.length) : ∃ kernel, r.reorder (r.change p ret).kernel = some kernel := by
  have hdone := h.apply_done icus ret
  rw [if_pos hstores] at hdone
  have hsome : ∃ p', (r.done ret).apply icus p = some p' := by
    unfold Request.done
    split
    · exact Done.irq_some hinv hnodup htwo _
    · exact Done.irq_some hinv hnodup htwo _
    · exact Done.irq_some hinv hnodup htwo _
  rcases hsome with ⟨p', hp'⟩
  rw [hp'] at hdone
  rcases Option.map_eq_some_iff.mp hdone.symm with ⟨kernel, hkernel, _⟩
  exact ⟨kernel, hkernel⟩

/-- The holder of the mutex goes on, or the ICU that it waits for. -/
theorem Standing.holder (h : Standing icus tid s) (hnodup : icus.Nodup) (htwo : 2 ≤ icus.length)
    (hheld : s.fMapLk_.pc k = .held) : Goes s k ∨ ∃ icu ∈ icus, Runs s icu := by
  rcases h with ⟨⟨a, hsim, hinv⟩, hqueued⟩
  have hworks : Works s (.go k) := by
    rintro ⟨hpop, _⟩
    rw [hheld] at hpop
    cases hpop
  have hpolled := hsim.polled_eq hheld
  have hstands := hsim.stands k
  cases hk : s.stage k with
  | idle =>
      have hfits := hsim.fits k
      rw [hk, hheld] at hfits
      cases hfits
  | lock c =>
      rw [hk] at hpolled
      have hlook := look_some hinv htwo c
      rcases hlook with ⟨st, hlook⟩
      refine .inl ⟨hworks, s.goto k st, ?_⟩
      change Calls.go s k = _
      simp only [Calls.go, hk, hheld, if_true]
      rw [hpolled]
      exact Option.map_eq_some_iff.mpr ⟨st, hlook, rfl⟩
  | setWEvents fd fq events => exact .inl ⟨hworks, _, by simp only [Calls.step, Calls.go, hk]; rfl⟩
  | queueInLoop r => exact .inl ⟨hworks, _, by simp only [Calls.step, Calls.go, hk]; rfl⟩
  | resumed r ret =>
      refine .inl ⟨hworks, ?_⟩
      simp only [Calls.step, Calls.go, hk]
      split
      · exact ⟨_, rfl⟩
      · exact ⟨_, rfl⟩
  | unlock d =>
      refine .inl ⟨hworks, s.setMutex (MuCore.unlock s.fMapLk_ k), ?_⟩
      simp only [Calls.step, Calls.go, hk, hheld]
  | reorder r ret =>
      rw [hk] at hpolled hstands
      rcases hstands.1.reorder_some hstands.2 hinv hnodup htwo with ⟨kernel, hkernel⟩
      refine .inl ⟨hworks, ?_⟩
      simp only [Calls.step, Calls.go, hk, hpolled]
      exact ⟨_, Option.map_eq_some_iff.mpr ⟨kernel, hkernel, rfl⟩⟩
  | waiting r =>
      rw [hk] at hstands
      refine .inr ⟨r.fq.icu_, hstands.mem_icus hinv, fun ret => ?_⟩
      -- the first of the queue waits for its function
      have hmem := hqueued k r hk
      cases hqueue : s.funcs_ r.fq.icu_ with
      | nil =>
          rw [hqueue] at hmem
          cases hmem
      | cons j rest =>
          rcases hsim.funcs r.fq.icu_ j (by rw [hqueue]; exact List.mem_cons_self) with ⟨r', hj, _⟩
          exact ⟨_, by simp only [Calls.step, Calls.loop, hqueue, hj]; rfl⟩

omit [Fintype κ] [DecidableEq ι] in
theorem advance_some {m : MuCore.State κ} (hout : m.pc k ≠ .out) (hsusp : m.pc k ≠ .suspended)
    (hheld : m.pc k ≠ .held) : ∃ m', MuCore.advance m k = some m' := by
  unfold MuCore.advance
  cases hpc : m.pc k with
  | out => exact absurd hpc hout
  | suspended => exact absurd hpc hsusp
  | held => exact absurd hpc hheld
  | lockStore | lockQueue | ready | tryStore | unlockDec | unlockStore | unlockWake =>
      exact ⟨_, rfl⟩
  | unlockPop =>
      cases m.items_ with
      | nil => exact ⟨_, rfl⟩
      | cons x rest => exact ⟨_, rfl⟩

/-- A coroutine in a call of the mutex goes on, unless it is suspended or spins. -/
theorem Sim.goes (h : Sim tid s a) (hout : s.fMapLk_.pc k ≠ .out)
    (hsusp : s.fMapLk_.pc k ≠ .suspended) (hheld : s.fMapLk_.pc k ≠ .held)
    (hworks : Works s (.go k)) : Goes s k := by
  rcases advance_some hout hsusp hheld with ⟨m', hadvance⟩
  refine ⟨hworks, s.setMutex m', ?_⟩
  have hfits := h.fits k
  cases hst : s.stage k with
  | idle =>
      rw [hst] at hfits
      exact absurd hfits hout
  | lock c => simp only [Calls.step, Calls.go, hst, if_neg hheld, hadvance, Option.map_some]
  | unlock d =>
      simp only [Calls.step, Calls.go, hst]
      rw [hadvance]
      rfl
  | setWEvents | queueInLoop | waiting | resumed | reorder =>
      rw [hst] at hfits
      exact absurd hfits hheld

omit [DecidableEq κ] in
theorem Sim.not_middle (h : Sim tid s a) (hk : s.fMapLk_.pc k ≠ .held) :
    (s.stage k).middle = false := by
  cases hmiddle : (s.stage k).middle with
  | false => rfl
  | true => exact absurd ((h.fits k).held hmiddle) hk

omit [DecidableEq κ] in
/-- With nobody else in the queue of the mutex, a coroutine that has announced itself is about to
enter the queue. -/
theorem exists_lockQueue {m : MuCore.State κ} {hand : List κ} {es : List (MuCore.Event κ)}
    (h : MuCore.Inv tid m hand es) (hpop : m.pc k = .unlockPop) (hempty : m.items_ = []) :
    ∃ j, m.pc j = .lockQueue := by
  have hin : (m.pc k).inside = true := by rw [hpop]; rfl
  have hhand : hand = [] := h.hand_eq_nil hin (by rw [hpop]; rfl)
  have hne : m.waiter_ ≠ 0 := h.count.passing k (by rw [hpop]; rfl)
  have hpos : 0 < census fun j => (m.pc j).counted := by
    rw [← h.count.counter, Nat.pos_iff_ne_zero]
    intro hzero
    exact hne (UInt32.toNat_inj.mp (by simpa using hzero))
  rcases census_pos.mp hpos with ⟨j, hj⟩
  refine ⟨j, ?_⟩
  -- it is counted, so it is not `k`, and it is not inside with `k`
  have hjk : (m.pc j).inside = false := by
    cases hjin : (m.pc j).inside with
    | false => rfl
    | true =>
        rw [h.turn.exclusive j k hjin hin, hpop] at hj
        cases hj
  have hsusp : m.pc j ≠ .suspended := by
    rw [ne_eq, ← h.line.waiting, hhand, hempty]
    exact List.not_mem_nil
  cases hpc : m.pc j <;> simp_all [MuCore.Pc.counted, MuCore.Pc.inside]

/-- Whoever is inside the mutex goes on, or somebody that it waits for. -/
theorem Standing.inside (h : Standing icus tid s) (hnodup : icus.Nodup) (htwo : 2 ≤ icus.length)
    (hin : (s.fMapLk_.pc k).inside = true) :
    (∃ j, Goes s j) ∨ ∃ icu ∈ icus, Runs s icu := by
  have hsim := h.1
  rcases hsim with ⟨a, hsim, _⟩
  rcases hsim.mutex with ⟨hand, es, hinv⟩
  cases hpc : s.fMapLk_.pc k with
  | held =>
      rcases h.holder hnodup htwo hpc with hgoes | hruns
      · exact .inl ⟨k, hgoes⟩
      · exact .inr hruns
  | out | lockQueue | suspended =>
      rw [hpc] at hin
      cases hin
  | unlockPop =>
      cases hitems : s.fMapLk_.items_ with
      | nil =>
          rcases exists_lockQueue hinv hpc hitems with ⟨j, hj⟩
          exact .inl ⟨j, hsim.goes (by simp [hj]) (by simp [hj]) (by simp [hj]) (by simp [Works, hj])⟩
      | cons x rest =>
          exact .inl ⟨k, hsim.goes (by simp [hpc]) (by simp [hpc]) (by simp [hpc])
            (by simp [Works, hitems])⟩
  | lockStore | ready | tryStore | unlockDec | unlockStore | unlockWake =>
      exact .inl ⟨k, hsim.goes (by simp [hpc]) (by simp [hpc]) (by simp [hpc])
        (by simp [Works, hpc])⟩

/-- While a call is not finished, somebody goes on. -/
theorem Standing.goes_on (h : Standing icus tid s) (hnodup : icus.Nodup)
    (htwo : 2 ≤ icus.length) (hk : s.stage k ≠ .idle) :
    (∃ j, Goes s j) ∨ ∃ icu ∈ icus, Runs s icu := by
  rcases h.1 with ⟨a, hsim, _⟩
  rcases hsim.mutex with ⟨hand, es, hinv⟩
  by_cases hzero : s.fMapLk_.waiter_ = 0
  · -- nobody is in the mutex, so the coroutine is about to return
    have hnone := hinv.count.none_inside hzero k
    have hcounted : (s.fMapLk_.pc k).counted = false := by
      cases hc : (s.fMapLk_.pc k).counted with
      | false => rfl
      | true => exact absurd hzero (hinv.count.waiter_ne_zero hc)
    have hfits := hsim.fits k
    have hnot : s.fMapLk_.pc k ≠ .held := by
      intro hheld
      rw [hheld] at hnone
      cases hnone
    have hout : s.fMapLk_.pc k = .out := by
      have hmiddle := hsim.not_middle hnot
      cases hst : s.stage k <;> cases hpc : s.fMapLk_.pc k <;>
        simp_all [Stage.Fits, Stage.middle, locking, unlocking, MuCore.Pc.counted,
          MuCore.Pc.inside]
    have hmiddle := hsim.not_middle hnot
    cases hst : s.stage k with
    | idle => exact absurd hst hk
    | lock c =>
        rw [hst, hout] at hfits
        cases hfits
    | unlock d =>
        refine .inl ⟨k, by simp [Works, hout], s.goto k .idle, ?_⟩
        simp only [Calls.step, Calls.go, hst, hout]
    | setWEvents | queueInLoop | waiting | resumed | reorder =>
        rw [hst] at hmiddle
        cases hmiddle
  · rcases hinv.count.token hzero with ⟨j, hj⟩
    exact h.inside hnodup htwo hj

/-! ## Every call comes to an end -/

/-- The coroutines and ICUs make no new call and do not spin. -/
def working (icus : List ι) (tid : κ → Int) : Machine (State κ ι) (Action κ ι) :=
  (machine icus tid).restrict Works

/-- With at least two ICUs, from every reachable state there are only boundedly many steps until a new
call is made, the spinning of {lit}`unlock` left out, and as long as a call is not finished one of them can be
taken, whatever the pollers answer: the calls never wait for each other in a circle, and every schedule
that lets everybody go on, the ICUs with the functions in their queues included, completes them. -/
theorem calls_complete (hnodup : icus.Nodup) (htwo : 2 ≤ icus.length)
    (hcard : Fintype.card κ < 2 ^ 32) (hs : (machine icus tid).Reachable s) :
    (∀ as s', (working icus tid).run s as = some s' → as.length ≤ s.work) ∧
    ((∃ k, s.stage k ≠ .idle) →
      (∃ k s', (working icus tid).step s (.go k) = some s') ∨
      ∃ icu ∈ icus, ∀ ret, ∃ s', (working icus tid).step s (.loop icu ret) = some s') := by
  have hstanding := (inductive_standing hnodup htwo hcard).reachable hs
  constructor
  · intro as s' hrun
    refine Machine.length_le_of_measure (I := Standing icus tid) State.work ?_ hstanding hrun
    intro s x t h hstep
    rcases Machine.restrict_step_eq_some.mp hstep with ⟨hworks, hstep⟩
    rcases h.1 with ⟨a, hsim, _⟩
    exact ⟨h.step hnodup htwo hcard hstep, hsim.work_step hworks hstep⟩
  · rintro ⟨k, hk⟩
    rcases hstanding.goes_on hnodup htwo hk with ⟨j, hworks, s', hstep⟩ | ⟨icu, hicu, hruns⟩
    · exact .inl ⟨j, s', Machine.restrict_step_eq_some.mpr ⟨hworks, hstep⟩⟩
    · refine .inr ⟨icu, hicu, fun ret => ?_⟩
      rcases hruns ret with ⟨s', hstep⟩
      exact ⟨s', Machine.restrict_step_eq_some.mpr ⟨trivial, hstep⟩⟩

/-- One coroutine waits for an ICU and holds the mutex, the other one is suspended in {lit}`CoRoLock`. -/
theorem calls_complete_sample : ∃ s : State Bool Bool,
    (machine [false, true] sampleTid).Reachable s ∧ s.fMapLk_.pc false = .held ∧
    s.fMapLk_.pc true = .suspended ∧
    (∀ as s', (working [false, true] sampleTid).run s as = some s' → as.length ≤ 33) ∧
    ((∃ k s', (working [false, true] sampleTid).step s (.go k) = some s') ∨
      ∃ icu ∈ [false, true], ∀ ret, ∃ s',
        (working [false, true] sampleTid).step s (.loop icu ret) = some s') := by
  have hrun : ((machine [false, true] sampleTid).run sampleStart (sample.take 6)).map
      (fun s => (s.fMapLk_.pc false, s.fMapLk_.pc true, s.stage true, s.work)) =
        some (.held, .suspended, .lock (.waitFile 5), 33) := by
    decide +kernel
  rcases Option.map_eq_some_iff.mp hrun with ⟨s, hs, hfields⟩
  simp only [Prod.mk.injEq] at hfields
  rcases hfields with ⟨hheld, hsuspended, hstage, hwork⟩
  have hreach : (machine [false, true] sampleTid).Reachable s := ⟨_, _, ⟨_, rfl⟩, hs⟩
  rcases calls_complete (by decide) (by decide) (by decide) hreach with ⟨hbound, hgoes⟩
  exact ⟨s, hreach, hheld, hsuspended, hwork ▸ hbound, hgoes ⟨true, by simp [hstage]⟩⟩

end Calls
end CoKernel
end CoEpoll
