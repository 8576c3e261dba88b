import CoEpoll.CoKernel.ICU.EventLoop
import Mathlib.Data.List.Nodup

/-!
# `ICU::loop`: no lost readiness

The descriptors are registered edge-triggered, so {lit}`epoll_wait` reports a readiness only
once, and {lit}`revents_` has to remember it until a callback has used it up.  A waiter
that registers later finds it there, because its registration puts the {lit}`FileWQ` into
{lit}`list_`.

Main results:

- Theorem {lit}`Listed.step`: {lit}`waked_` tells what is in {lit}`list_`, and a {lit}`FileWQ` that is not to be
  walked has no event for a waiter.
- Theorem {lit}`Cached.step`: {lit}`revents_` has every readiness that is not pending.
- Theorem {lit}`no_lost_readiness`: in {lit}`epoll_wait` no waiter waits for what is ready.
-/

namespace CoEpoll
namespace EventLoop

open Transition ICU Irq Colib

variable {ι κ β : Type*}

/-- What the kernel promises: each change of the readiness makes an event pending,
{lit}`epoll_wait` returns pending descriptors with their readiness, and a system call that
returns {lit}`EWOULDBLOCK` or accepts less than it is offered leaves its direction not
ready. -/
def Contract (s : State ι κ β) : Action ι κ β → Prop
  | .change _ ready pending => pending = true ∧ ready &&& EPOLLPRI = 0
  | .sysret r ready =>
      match s.running with
      | some (fd, _, cb) =>
          Mask.Within ready (s.sock fd).ready ∧
            (r = .wouldBlock ∨ cb.Short r → ready &&& cb.direction = 0)
      | none => True
  | .waitIRQ events =>
      (events.map Prod.fst).Nodup ∧
        ∀ event ∈ events, (s.sock event.1).pending = true ∧ event.2 = (s.sock event.1).ready
  | _ => True

instance [DecidableEq ι] (s : State ι κ β) (a : Action ι κ β) : Decidable (Contract s a) := by
  unfold Contract
  split
  · infer_instance
  · split <;> infer_instance
  · infer_instance
  · infer_instance

/-- The {lit}`FileWQ`s that the loop has still to walk. -/
def State.toWalk (s : State ι κ β) : List ι :=
  match s.phase with
  | .drain => s.list_
  | .walk rest => rest
  | .poll => []

/-- {lit}`waked_` tells what is in {lit}`list_`, and a {lit}`FileWQ` that is neither walked nor to be
walked has no event for a waiter. -/
structure Listed (s : State ι κ β) : Prop where
  nodup : s.list_.Nodup
  sublist : s.toWalk.Sublist s.list_
  polled : s.phase = .poll → s.list_ = []
  waked : ∀ fd, (s.wq fd).waked_ = true ↔ fd ∈ s.toWalk
  quiet : ∀ fd, (s.wq fd).Quiet ∨ fd ∈ s.toWalk ∨ ∃ w, s.ge = some w ∧ w.fq = fd

/-- {lit}`revents_` has every readiness that is not pending, also when the events of a
callback that has reported exhaustion are cleared. -/
structure Cached (s : State ι κ β) : Prop where
  within : ∀ fd, (s.sock fd).pending = true ∨
    Mask.Within (s.sock fd).ready (s.wq fd).revents_
  noPri : ∀ fd, (s.sock fd).ready &&& EPOLLPRI = 0
  exhausted : ∀ fd iter r item, s.ge = some ⟨fd, iter, .returned r⟩ → r.exhausted = true →
    (s.wq fd).items_[iter]? = some item →
    (s.sock fd).pending = true ∨ (s.sock fd).ready &&& item.events_ = 0

variable {s s' : State ι κ β} {fd : ι} {iter : Nat} {rest : List ι}

theorem listed_construct (fdCallbck : ι → Bool) :
    Listed (State.construct (fun _ => false) fdCallbck : State ι κ β) where
  nodup := List.nodup_nil
  sublist := List.Sublist.refl _
  polled _ := rfl
  waked _ := ⟨nofun, fun h => absurd h List.not_mem_nil⟩
  quiet _ := .inl fun _ h => absurd h List.not_mem_nil

theorem cached_construct (waked fdCallbck : ι → Bool) :
    Cached (State.construct waked fdCallbck : State ι κ β) where
  within _ := .inr (Mask.within_zero _)
  noPri _ := BitVec.zero_and
  exhausted _ _ _ _ h := nomatch h

variable [DecidableEq ι]

/-! ## What is in `list_` -/

/-- A step of the generator leaves {lit}`list_` alone. -/
theorem Listed.of_walk (h : Listed s) (fd : ι) (q : FileWQ κ (WQCB β))
    (hwq : s'.wq = Function.update s.wq fd q) (hphase : s'.phase = s.phase)
    (hlist : s'.list_ = s.list_) (hwaked : q.waked_ = (s.wq fd).waked_)
    (hge : ∀ w, s.ge = some w → w.fq = fd)
    (hquiet : q.Quiet ∨ ∃ w, s'.ge = some w ∧ w.fq = fd) : Listed s' := by
  have htoWalk : s'.toWalk = s.toWalk := by
    unfold State.toWalk
    rw [hphase, hlist]
  refine ⟨hlist ▸ h.nodup, htoWalk ▸ hlist ▸ h.sublist, hphase ▸ hlist ▸ h.polled, ?_, ?_⟩
  · intro fd'
    rw [htoWalk, ← h.waked fd', hwq, Function.update_apply]
    split
    · rename_i hfd
      rw [hwaked, hfd]
    · rfl
  · intro fd'
    rw [htoWalk, hwq]
    by_cases hfd : fd' = fd
    · subst hfd
      rw [Function.update_self]
      exact hquiet.imp_right .inr
    · rw [Function.update_of_ne hfd]
      rcases h.quiet fd' with hq | hq | ⟨w, hw, hfq⟩
      · exact .inl hq
      · exact .inr (.inl hq)
      · exact absurd (hfq.symm.trans (hge w hw)) hfd

/-- Putting a {lit}`FileWQ` into {lit}`list_` unless it is there. -/
theorem Listed.wakeWQ (h : Listed s) (hphase : s.phase = .drain) {s₀ : State ι κ β}
    (hge : s₀.ge = s.ge) (hphase₀ : s₀.phase = s.phase) (hlist : s₀.list_ = s.list_)
    (hwaked : ∀ fd', (s₀.wq fd').waked_ = (s.wq fd').waked_)
    (hother : ∀ fd', fd' ≠ fd → s₀.wq fd' = s.wq fd') : Listed (s₀.wakeWQ fd) := by
  have hwalk : s.toWalk = s.list_ := by rw [State.toWalk, hphase]
  have hmem : ∀ fd', (s.wq fd').waked_ = true ↔ fd' ∈ s.list_ := fun fd' => hwalk ▸ h.waked fd'
  have hquiet : ∀ fd', fd' ≠ fd →
      (s₀.wq fd').Quiet ∨ fd' ∈ s.list_ ∨ ∃ w, s₀.ge = some w ∧ w.fq = fd' := by
    intro fd' hfd
    rw [hother fd' hfd, hge]
    exact hwalk ▸ h.quiet fd'
  unfold State.wakeWQ
  split
  · rename_i hfd
    have hwalk₀ : s₀.toWalk = s.list_ := by rw [State.toWalk, hphase₀, hphase, hlist]
    rw [hwaked fd, hmem] at hfd
    refine ⟨hlist ▸ h.nodup, by rw [hwalk₀, hlist], ?_, ?_, ?_⟩
    · exact fun hpoll => nomatch hphase.symm.trans (hphase₀.symm.trans hpoll)
    · intro fd'
      rw [hwaked, hwalk₀, hmem]
    · intro fd'
      rw [hwalk₀]
      by_cases heq : fd' = fd
      · exact .inr (.inl (heq ▸ hfd))
      · exact hquiet fd' heq
  · rename_i hfd
    rw [hwaked fd, hmem] at hfd
    have hnew : ∀ fd', fd' ∈ s₀.list_ ++ [fd] ↔ fd' ∈ s.list_ ∨ fd' = fd := by
      intro fd'
      rw [hlist, List.mem_append, List.mem_singleton]
    have hwalk₀ : State.toWalk
        { s₀.onWQ fd fun q => q.setWaked true with list_ := s₀.list_ ++ [fd] } =
          s₀.list_ ++ [fd] := by
      simp only [State.toWalk, State.onWQ, hphase₀, hphase]
    refine ⟨?_, by rw [hwalk₀], ?_, ?_, ?_⟩
    · rw [hlist]
      exact List.nodup_append.mpr ⟨h.nodup, List.nodup_singleton fd, fun a ha b hb heq =>
        hfd (List.mem_singleton.mp hb ▸ heq ▸ ha)⟩
    · exact fun hpoll => nomatch hphase.symm.trans (hphase₀.symm.trans hpoll)
    · intro fd'
      rw [hwalk₀, hnew, ← hmem]
      by_cases heq : fd' = fd
      · subst heq
        simp [State.onWQ, FileWQ.setWaked]
      · simp [State.onWQ, heq, hwaked]
    · intro fd'
      rw [hwalk₀, hnew]
      by_cases heq : fd' = fd
      · exact .inr (.inl (.inr heq))
      · rcases hquiet fd' heq with hq | hq | hq
        · left
          dsimp only [State.onWQ]
          rwa [Function.update_of_ne heq]
        · exact .inr (.inl (.inl hq))
        · exact .inr (.inr hq)

theorem Listed.addWait (h : Listed s) (hphase : s.phase = .drain) (fd : ι) (k : κ)
    (req : Request β) : Listed (s.addWait fd k req) := by
  refine h.wakeWQ hphase rfl rfl rfl (fun fd' => ?_) fun fd' hfd => ?_
  · dsimp only [State.onWQ]
    refine update_keep FileWQ.waked_ ?_ fd'
    rfl
  · exact Function.update_of_ne hfd _ _

omit [DecidableEq ι] in
/-- The end of the walk. -/
theorem Listed.clear (h : Listed s) (hphase : s.phase = .walk []) :
    Listed { s with phase := .poll, list_ := [] } where
  nodup := List.nodup_nil
  sublist := List.Sublist.refl _
  polled _ := rfl
  waked fd := by
    have hwaked := h.waked fd
    rwa [State.toWalk, hphase] at hwaked
  quiet fd := by
    have hquiet := h.quiet fd
    rwa [State.toWalk, hphase] at hquiet

theorem Listed.startWakeup (h : Listed s) (hphase : s.phase = .walk (fd :: rest))
    (hge : s.ge = none) : Listed (s.startWakeup fd rest) := by
  have hwalk : s.toWalk = fd :: rest := by rw [State.toWalk, hphase]
  have hsub : (fd :: rest).Sublist s.list_ := hwalk ▸ h.sublist
  have hnew : fd ∉ rest := (List.nodup_cons.mp (hsub.nodup h.nodup)).1
  have hwalk' : (s.startWakeup fd rest).toWalk = rest := by
    rw [State.toWalk, State.startWakeup_phase]
  constructor
  · rw [State.startWakeup_list_]
    exact h.nodup
  · rw [hwalk', State.startWakeup_list_]
    exact (List.sublist_cons_self fd rest).trans hsub
  · intro hpoll
    cases State.startWakeup_phase.symm.trans hpoll
  · intro fd'
    rw [hwalk', State.startWakeup_wq]
    by_cases hfd : fd' = fd
    · subst hfd
      rw [Function.update_self]
      exact ⟨nofun, fun hmem => absurd hmem hnew⟩
    · rw [Function.update_of_ne hfd, h.waked fd', hwalk, List.mem_cons]
      exact or_iff_right hfd
  · intro fd'
    rw [hwalk', State.startWakeup_wq, State.startWakeup_ge]
    by_cases hfd : fd' = fd
    · exact .inr (.inr ⟨_, rfl, hfd.symm⟩)
    · rw [Function.update_of_ne hfd]
      rcases h.quiet fd' with hq | hq | ⟨w, hw, _⟩
      · exact .inl hq
      · rw [hwalk, List.mem_cons] at hq
        exact .inr (.inl (hq.resolve_left hfd))
      · exact absurd (hge.symm.trans hw) nofun

theorem Listed.iterate (h : Listed s) (hinv : Inv s) (hge : s.ge = some ⟨fd, iter, .loop⟩) :
    Listed (s.iterate fd iter) := by
  have hsame : s.wq = Function.update s.wq fd (s.wq fd) := (Function.update_eq_self _ _).symm
  have hfq : ∀ w, s.ge = some w → w.fq = fd := fun w hw => by
    cases hge.symm.trans hw
    rfl
  unfold State.iterate
  cases hturn : (s.wq fd).turn iter with
  | finish =>
      exact h.of_walk fd _ hsame rfl rfl rfl hfq (.inl ((hinv.passed _ hge).quiet hturn))
  | next => exact h.of_walk fd _ hsame rfl rfl rfl hfq (.inr ⟨_, rfl, rfl⟩)
  | erase => exact h.of_walk fd _ rfl rfl rfl rfl hfq (.inr ⟨_, rfl, rfl⟩)
  | call events cb =>
      dsimp only
      cases cb.enter events with
      | none => exact h.of_walk fd _ hsame rfl rfl rfl hfq (.inr ⟨_, rfl, rfl⟩)
      | some r => exact h.of_walk fd _ hsame rfl rfl rfl hfq (.inr ⟨_, rfl, rfl⟩)

theorem Listed.settle (h : Listed s) {r : IoRet} (hge : s.ge = some ⟨fd, iter, .returned r⟩) :
    Listed (s.settle fd iter r) := by
  have hfq : ∀ w, s.ge = some w → w.fq = fd := fun w hw => by
    cases hge.symm.trans hw
    rfl
  unfold State.settle
  split <;> exact h.of_walk fd _ rfl rfl rfl FileWQ.settle_waked_ hfq (.inr ⟨_, rfl, rfl⟩)

theorem Listed.sysret (h : Listed s) {cb : WQCB β} (hrun : s.running = some (fd, iter, cb))
    (r : SysRet) (ready : Events) : Listed (s.sysret fd iter cb r ready) := by
  have hge := (running_eq_some hrun).1
  have hfq : ∀ w, s.ge = some w → w.fq = fd := fun w hw => by
    cases hge.symm.trans hw
    rfl
  unfold State.sysret
  cases cb.resume r with
  | none => exact ⟨h.nodup, h.sublist, h.polled, h.waked, h.quiet⟩
  | some res => exact h.of_walk fd _ rfl rfl rfl rfl hfq (.inr ⟨_, rfl, rfl⟩)

theorem Listed.waitIRQ (h : Listed s) (hphase : s.phase = .poll) (hge : s.ge = none)
    {events : List (ι × Events)} (hnodup : (events.map Prod.fst).Nodup) :
    Listed ((s.epoll_wait events).waitIRQ events) := by
  have hempty : (s.epoll_wait events).list_ = [] := h.polled hphase
  have hlist : ((s.epoll_wait events).waitIRQ events).list_ = events.map Prod.fst := by
    rw [State.waitIRQ_list_, hempty, List.nil_append]
  have hwalk : s.toWalk = [] := by rw [State.toWalk, hphase]
  have hwalk' : ((s.epoll_wait events).waitIRQ events).toWalk = events.map Prod.fst := hlist
  have hwq : ∀ fd, (s.epoll_wait events).wq fd = s.wq fd := fun _ => rfl
  have hidle : (s.epoll_wait events).ge = none := hge
  constructor
  · rwa [hlist]
  · rw [hwalk', hlist]
  · intro hpoll
    cases hpoll
  · intro fd
    rw [hwalk']
    by_cases hmem : fd ∈ events.map Prod.fst
    · rcases List.mem_map.mp hmem with ⟨event, hevent, rfl⟩
      rw [State.waitIRQ_of_mem hnodup hevent]
      exact iff_of_true rfl hmem
    · rw [State.waitIRQ_of_not_mem hmem, hwq, h.waked, hwalk]
      exact iff_of_false List.not_mem_nil hmem
  · intro fd
    rw [hwalk']
    by_cases hmem : fd ∈ events.map Prod.fst
    · exact .inr (.inl hmem)
    · rw [State.waitIRQ_of_not_mem hmem, State.waitIRQ_ge, hidle, hwq]
      have hquiet := h.quiet fd
      rw [hwalk, hge] at hquiet
      exact .inl (hquiet.resolve_right (by simp))

theorem Listed.step {a : Action ι κ β} (h : Listed s) (hinv : Inv s) (hok : Contract s a)
    (hstep : EventLoop.step s a = some s') : Listed s' := by
  have hcase := step_cases hstep
  cases a with
  | change fd ready pending =>
      cases hcase
      exact ⟨h.nodup, h.sublist, h.polled, h.waked, h.quiet⟩
  | addWait fd k req =>
      rcases hcase with ⟨hphase, rfl⟩
      exact h.addWait hphase fd k req
  | drained =>
      rcases hcase with ⟨hphase, rfl⟩
      have hwalk : s.toWalk = s.list_ := by rw [State.toWalk, hphase]
      exact ⟨h.nodup, List.Sublist.refl _, nofun, hwalk ▸ h.waked, hwalk ▸ h.quiet⟩
  | walk =>
      rcases hcase with ⟨hphase, _, rfl⟩ | ⟨fd, rest, hphase, hge, rfl⟩ |
        ⟨fd, iter, rest, _, hge, rfl⟩ | ⟨fd, iter, r, rest, _, hge, rfl⟩
      · exact h.clear hphase
      · exact h.startWakeup hphase hge
      · exact h.iterate hinv hge
      · exact h.settle hge
  | sysret r ready =>
      rcases hcase with ⟨fd, iter, cb, hrun, _, rfl⟩
      exact h.sysret hrun r ready
  | waitIRQ events =>
      rcases hcase with ⟨hphase, _, rfl⟩
      exact h.waitIRQ hphase (hinv.ge_eq_none (.inr hphase)) hok.1

/-! ## What `revents_` remembers -/

omit [DecidableEq ι] in
/-- A step that clears no event and makes nothing ready. -/
theorem Cached.keep (h : Cached s) (hrevents : ∀ fd, (s'.wq fd).revents_ = (s.wq fd).revents_)
    (hpending : ∀ fd, (s'.sock fd).pending = (s.sock fd).pending)
    (hready : ∀ fd, Mask.Within (s'.sock fd).ready (s.sock fd).ready)
    (hexhausted : ∀ fd iter r item, s'.ge = some ⟨fd, iter, .returned r⟩ →
      r.exhausted = true → (s'.wq fd).items_[iter]? = some item →
      (s'.sock fd).ready &&& item.events_ = 0) : Cached s' where
  within fd := by
    rw [hrevents, hpending]
    exact (h.within fd).imp_right (hready fd).trans
  noPri fd := (hready fd).and_eq_zero (h.noPri fd)
  exhausted fd iter r item hge hex hitem := .inr (hexhausted fd iter r item hge hex hitem)

theorem Cached.change (h : Cached s) (fd : ι) {ready : Events} (hready : ready &&& EPOLLPRI = 0) :
    Cached (s.onSock fd fun k => { k with ready := ready, pending := true }) where
  within fd' := by
    dsimp only [State.onSock]
    by_cases hfd : fd' = fd
    · subst hfd
      rw [Function.update_self]
      exact .inl rfl
    · rw [Function.update_of_ne hfd]
      exact h.within fd'
  noPri fd' := by
    dsimp only [State.onSock]
    by_cases hfd : fd' = fd
    · subst hfd
      rw [Function.update_self]
      exact hready
    · rw [Function.update_of_ne hfd]
      exact h.noPri fd'
  exhausted fd' iter r item hge hex hitem := by
    dsimp only [State.onSock]
    by_cases hfd : fd' = fd
    · subst hfd
      rw [Function.update_self]
      exact .inl rfl
    · rw [Function.update_of_ne hfd]
      exact h.exhausted fd' iter r item hge hex hitem

theorem Cached.addWait (h : Cached s) (hge : s.ge = none) (fd : ι) (k : κ) (req : Request β) :
    Cached (s.addWait fd k req) := by
  have hsock : (s.addWait fd k req).sock = s.sock := State.wakeWQ_sock
  refine h.keep (fun fd' => ?_) (fun fd' => by rw [hsock])
    (fun fd' => by rw [hsock]; exact Mask.Within.refl _) ?_
  · rw [State.addWait, State.wakeWQ_revents_]
    dsimp only [State.onWQ]
    refine update_keep FileWQ.revents_ ?_ fd'
    rfl
  · intro fd' iter r item hge'
    have hnone : (s.addWait fd k req).ge = none := State.wakeWQ_ge.trans hge
    cases hnone.symm.trans hge'

theorem Cached.startWakeup (h : Cached s) (fd : ι) (rest : List ι) :
    Cached (s.startWakeup fd rest) := by
  refine h.keep (fun fd' => ?_) (fun fd' => State.startWakeup_sock.1)
    (fun fd' => State.startWakeup_sock.2) ?_
  · rw [State.startWakeup_wq]
    refine update_keep FileWQ.revents_ ?_ fd'
    rfl
  · intro fd' iter r item hge
    exact absurd (State.startWakeup_ge.symm.trans hge) nofun

theorem Cached.iterate (h : Cached s) (fd : ι) (iter : Nat) : Cached (s.iterate fd iter) := by
  have hsame : ∀ fd, Mask.Within (s.sock fd).ready (s.sock fd).ready :=
    fun _ => Mask.Within.refl _
  unfold State.iterate
  cases hturn : (s.wq fd).turn iter with
  | finish => exact h.keep (fun _ => rfl) (fun _ => rfl) hsame nofun
  | next => exact h.keep (fun _ => rfl) (fun _ => rfl) hsame nofun
  | erase =>
      refine h.keep (fun fd' => ?_) (fun _ => rfl) hsame nofun
      dsimp only [State.onWQ]
      refine update_keep FileWQ.revents_ ?_ fd'
      rfl
  | call events cb =>
      dsimp only
      cases henter : cb.enter events with
      | none => exact h.keep (fun _ => rfl) (fun _ => rfl) hsame nofun
      | some r =>
          refine h.keep (fun _ => rfl) (fun _ => rfl) hsame fun fd' iter' r' item hge hex => ?_
          cases hge
          rw [WQCB.enter_eq_some henter] at hex
          cases hex

theorem Cached.settle (h : Cached s) {r : IoRet} (hge : s.ge = some ⟨fd, iter, .returned r⟩) :
    Cached (s.settle fd iter r) := by
  refine ⟨fun fd' => ?_, State.settle_sock (s := s) ▸ h.noPri, fun fd' iter' r' item hw =>
    absurd (State.settle_ge.symm.trans hw) nofun⟩
  rw [State.settle_wq, State.settle_sock]
  by_cases hfd : fd' = fd
  · subst hfd
    rw [Function.update_self, FileWQ.settle_revents_]
    split
    · rename_i hex
      cases hitem : (s.wq fd').items_[iter]? with
      | none =>
          rw [FileWQ.exhaust, hitem]
          exact h.within fd'
      | some item =>
          rw [FileWQ.exhaust, hitem]
          rcases h.exhausted fd' iter r item hge hex hitem with hp | hclear
          · exact .inl hp
          · exact (h.within fd').imp_right fun hw => hw.diff hclear
    · exact h.within fd'
  · rw [Function.update_of_ne hfd]
    exact h.within fd'

theorem Cached.sysret (h : Cached s) (hinv : Inv s) {cb : WQCB β}
    (hrun : s.running = some (fd, iter, cb)) {r : SysRet}
    {ready : Events} (hready : Mask.Within ready (s.sock fd).ready)
    (hdir : r = .wouldBlock ∨ cb.Short r → ready &&& cb.direction = 0) :
    Cached (s.sysret fd iter cb r ready) := by
  rcases running_eq_some hrun with ⟨hge, item, hitem, hcb⟩
  have hpri : ready &&& EPOLLPRI = 0 := hready.and_eq_zero (h.noPri fd)
  have hsock : (s.sysret fd iter cb r ready).sock =
      Function.update s.sock fd { s.sock fd with
        ready := ready, sent := (s.sock fd).sent ++ cb.accepted r } := by
    unfold State.sysret
    split <;> rfl
  have hwithin : ∀ fd', Mask.Within ((s.sysret fd iter cb r ready).sock fd').ready
      (s.sock fd').ready := by
    intro fd'
    rw [hsock]
    by_cases hfd : fd' = fd
    · subst hfd
      rw [Function.update_self]
      exact hready
    · rw [Function.update_of_ne hfd]
      exact Mask.Within.refl _
  have hpending : ∀ fd', ((s.sysret fd iter cb r ready).sock fd').pending =
      (s.sock fd').pending := by
    intro fd'
    rw [hsock]
    refine update_keep Sock.pending ?_ fd'
    rfl
  refine h.keep (fun fd' => ?_) hpending hwithin fun fd' iter' ret item' hge' hex hitem' => ?_
  · unfold State.sysret
    split
    · rfl
    · dsimp only [State.onWQ, State.onSock]
      refine update_keep FileWQ.revents_ ?_ fd'
      rfl
  · rw [hsock]
    unfold State.sysret at hge' hitem'
    split at hge'
    · exact absurd (hge.symm.trans hge') nofun
    · rename_i ret' cb' hresume
      cases hge'
      rw [hresume] at hitem'
      dsimp only [State.onWQ, State.onSock] at hitem'
      rw [Function.update_self] at hitem' ⊢
      rw [FileWQ.getElem?_store hitem] at hitem'
      cases hitem'
      have hevents := hinv.events fd item cb (List.mem_of_getElem? hitem) hcb
      dsimp only
      rw [hevents]
      exact WQCB.and_events_eq_zero (hdir (WQCB.resume_exhausted hresume hex)) hpri

theorem Cached.waitIRQ (h : Cached s) (hge : s.ge = none) {events : List (ι × Events)}
    (hnodup : (events.map Prod.fst).Nodup)
    (hready : ∀ event ∈ events, event.2 = (s.sock event.1).ready) :
    Cached ((s.epoll_wait events).waitIRQ events) := by
  have hidle : ((s.epoll_wait events).waitIRQ events).ge = none := State.waitIRQ_ge.trans hge
  refine ⟨fun fd => ?_, fun fd => ?_, fun fd iter r item hw =>
    absurd (hidle.symm.trans hw) nofun⟩
  · rw [State.waitIRQ_sock]
    by_cases hmem : fd ∈ events.map Prod.fst
    · rcases List.mem_map.mp hmem with ⟨event, hevent, rfl⟩
      rw [State.waitIRQ_of_mem hnodup hevent, State.epoll_wait_of_mem hmem]
      refine .inr ?_
      rw [← hready event hevent]
      exact Mask.within_or_right _ _
    · rw [State.waitIRQ_of_not_mem hmem, State.epoll_wait_of_not_mem hmem]
      exact h.within fd
  · rw [State.waitIRQ_sock]
    by_cases hmem : fd ∈ events.map Prod.fst
    · rw [State.epoll_wait_of_mem hmem]
      exact h.noPri fd
    · rw [State.epoll_wait_of_not_mem hmem]
      exact h.noPri fd

theorem Cached.step {a : Action ι κ β} (h : Cached s) (hinv : Inv s) (hok : Contract s a)
    (hstep : EventLoop.step s a = some s') : Cached s' := by
  have hcase := step_cases hstep
  cases a with
  | change fd ready pending =>
      cases hcase
      rcases hok with ⟨rfl, hready⟩
      exact h.change fd hready
  | addWait fd k req =>
      rcases hcase with ⟨hphase, rfl⟩
      exact h.addWait (hinv.ge_eq_none (.inl hphase)) fd k req
  | drained =>
      rcases hcase with ⟨_, rfl⟩
      exact ⟨h.within, h.noPri, h.exhausted⟩
  | walk =>
      rcases hcase with ⟨_, _, rfl⟩ | ⟨fd, rest, _, _, rfl⟩ | ⟨fd, iter, rest, _, _, rfl⟩ |
        ⟨fd, iter, r, rest, _, hge, rfl⟩
      · exact ⟨h.within, h.noPri, h.exhausted⟩
      · exact h.startWakeup fd rest
      · exact h.iterate fd iter
      · exact h.settle hge
  | sysret r ready =>
      rcases hcase with ⟨fd, iter, cb, hrun, _, rfl⟩
      simp only [Contract, hrun] at hok
      exact h.sysret hinv hrun hok.1 hok.2
  | waitIRQ events =>
      rcases hcase with ⟨hphase, _, rfl⟩
      exact h.waitIRQ (hinv.ge_eq_none (.inr hphase)) hok.1
        fun event hevent => (hok.2 event hevent).2

/-! ## In `epoll_wait` -/

/-- The three invariants under the kernel's contract. -/
theorem inductive_ready (fdCallbck : ι → Bool) :
    ((machine (fun _ => false) fdCallbck : Machine (State ι κ β) (Action ι κ β)).restrict
      Contract).Inductive fun s => Inv s ∧ Listed s ∧ Cached s where
  init _ hs := hs ▸
    ⟨inv_construct _ _, listed_construct fdCallbck, cached_construct _ fdCallbck⟩
  step _ _ _ h hstep := by
    rcases Machine.restrict_step_eq_some.mp hstep with ⟨hok, hstep'⟩
    exact ⟨h.1.step hstep', h.2.1.step h.1 hok hstep', h.2.2.step h.1 hok hstep'⟩

/-- While the loop is in {lit}`epoll_wait` and a descriptor is not pending, none of its waiters
waits for what it is ready for; and {lit}`list_` has no {lit}`FileWQ` twice. -/
theorem no_lost_readiness {fdCallbck : ι → Bool} {s : State ι κ β}
    (hs : ((machine (fun _ => false) fdCallbck : Machine (State ι κ β) (Action ι κ β)).restrict
      Contract).Reachable s) :
    (s.phase = .poll → ∀ fd, (s.sock fd).pending = false → ∀ item ∈ (s.wq fd).items_,
      (s.sock fd).ready &&& (item.events_ ||| EPOLLRDHUP) = 0) ∧ s.list_.Nodup := by
  rcases (inductive_ready fdCallbck).reachable hs with ⟨hinv, hlisted, hcached⟩
  refine ⟨fun hphase fd hpending item hitem => ?_, hlisted.nodup⟩
  have hge := hinv.ge_eq_none (.inr hphase)
  have hwalk : s.toWalk = [] := by rw [State.toWalk, hphase]
  have hquiet : (s.wq fd).Quiet := by
    have hq := hlisted.quiet fd
    rw [hwalk, hge] at hq
    exact hq.resolve_right (by simp)
  have hwithin := (hcached.within fd).resolve_left (by simp [hpending])
  exact hwithin.and_eq_zero (hquiet item hitem)

/-- A reader and a writer wait on one descriptor when data arrives; the reader is
served, and the writer waits on in {lit}`epoll_wait`. -/
theorem no_lost_readiness_writer :
    ∃ s : State Unit Nat Nat, s.phase = .poll ∧ (s.sock ()).pending = false ∧
      (s.wq ()).items_.length = 1 ∧
      (∀ item ∈ (s.wq ()).items_, (s.sock ()).ready &&& (item.events_ ||| EPOLLRDHUP) = 0) ∧
      s.list_.Nodup := by
  let acts : List (Action Unit Nat Nat) :=
    [.addWait () 0 .readv, .addWait () 1 (.writev [[7]]), .drained, .walk, .walk, .walk,
      .change () EPOLLIN true, .waitIRQ [((), EPOLLIN)], .drained, .walk, .walk,
      .sysret (.ok 1) 0, .walk, .walk, .walk, .walk]
  have hview : ((((machine (fun _ => false) fun _ => false).restrict Contract).run
      (State.construct (fun _ => false) fun _ => false) acts).map fun s =>
        (s.phase, (s.sock ()).pending, (s.wq ()).items_.length)) = some (.poll, false, 1) := by
    decide +kernel
  rcases Option.map_eq_some_iff.mp hview with ⟨s, hrun, heq⟩
  simp only [Prod.mk.injEq] at heq
  have hready := no_lost_readiness ⟨_, acts, rfl, hrun⟩
  exact ⟨s, heq.1, heq.2.1, heq.2.2, hready.1 heq.1 () heq.2.1, hready.2⟩

end EventLoop
end CoEpoll
