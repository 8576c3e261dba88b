import CoEpoll.ASocket
import CoEpoll.CoKernel.ICU
import CoEpoll.Transition.Machine
import Mathlib.Logic.Function.Basic

/-!
# `ICU::loop`: file events and the waiters of the descriptors

One ICU with the descriptors that it polls.  The functions that the loop runs
while it drains {lit}`funcs_` are those of {lit}`FileAwaiter` without timeout; which of them
comes next is left to the action, so every order is covered.  The kernel's side
of a descriptor is its readiness, whether {lit}`epoll` has an event pending for it, and
the bytes it has accepted; what the kernel answers is left to the action, too.

Main results:

- Theorem {lit}`step_cases`: what a step does.
- Theorem {lit}`Inv.step`: the walk has no event left for a waiter that it has passed.
-/

namespace CoEpoll
namespace EventLoop

open Transition ICU Irq Colib

/-- The kernel's side of a descriptor. -/
structure Sock (β : Type*) where
  ready : Events
  pending : Bool
  sent : List (Nat × β)

/-- Where the generator of {lit}`FileWQ::wakeup` is. -/
inductive Stage where
  /-- At the head of the loop over {lit}`items_`. -/
  | loop
  /-- In the system call of a callback. -/
  | inCall
  /-- A callback has returned {lit}`r`. -/
  | returned (r : IoRet)
deriving DecidableEq

/-- The generator {lit}`ge` of the walk. -/
structure Wake (ι : Type*) where
  fq : ι
  iter : Nat
  stage : Stage
deriving DecidableEq

/-- The loop, its {lit}`FileWQ`s and the kernel.  For each descriptor {lit}`entered` records the
segments of the calls of {lit}`colib::writev` in the order in which they enter {lit}`items_`, and
{lit}`finished` the results of those that have completed. -/
structure State (ι κ β : Type*) where
  phase : Phase ι
  ge : Option (Wake ι)
  list_ : List ι
  wq : ι → FileWQ κ (WQCB β)
  sock : ι → Sock β
  readyRo_ : List κ
  entered : ι → List (List (List β))
  finished : ι → List (Nat × Int32)

variable {ι κ β : Type*}

/-- A new loop whose {lit}`FileWQ`s have {lit}`waked` in {lit}`waked_`. -/
def State.construct (waked fdCallbck : ι → Bool) : State ι κ β where
  phase := .drain
  ge := none
  list_ := []
  wq := fun fd => FileWQ.construct (waked fd) (fdCallbck fd)
  sock := fun _ => ⟨0, false, []⟩
  readyRo_ := []
  entered := fun _ => []
  finished := fun _ => []

/-- The functions that wait for a descriptor without timeout. -/
inductive Request (β : Type*) where
  | accept
  | readv
  | writev (iov : List (List β))

/-- The callback with which the function waits. -/
def Request.callback (call : Nat) : Request β → WQCB β
  | accept => .accept
  | readv => .readv
  | writev iov => .writev (Writev.start call iov)

/-- The segments of a {lit}`writev`. -/
def Request.segments : Request β → List (List (List β))
  | writev iov => [iov]
  | _ => []

/-- The steps of the loop and of the kernel. -/
inductive Action (ι κ β : Type*) where
  /-- The readiness of a descriptor changes. -/
  | change (fd : ι) (ready : Events) (pending : Bool)
  /-- The function that {lit}`FileAwaiter` queues. -/
  | addWait (fd : ι) (h : κ) (req : Request β)
  /-- {lit}`funcs_` is empty. -/
  | drained
  /-- The next step of the walk. -/
  | walk
  /-- The system call of a callback returns and leaves the descriptor {lit}`ready`. -/
  | sysret (r : SysRet) (ready : Events)
  /-- {lit}`epoll_wait` returns. -/
  | waitIRQ (events : List (ι × Events))

variable [DecidableEq ι]

namespace State

variable (s : State ι κ β)

/-- Change one {lit}`FileWQ`. -/
def onWQ (fd : ι) (f : FileWQ κ (WQCB β) → FileWQ κ (WQCB β)) : State ι κ β :=
  { s with wq := Function.update s.wq fd (f (s.wq fd)) }

/-- Change the kernel's side of one descriptor. -/
def onSock (fd : ι) (f : Sock β → Sock β) : State ι κ β :=
  { s with sock := Function.update s.sock fd (f (s.sock fd)) }

/-- {lit}`ICU::wakeWQ` -/
def wakeWQ (fd : ι) : State ι κ β :=
  if (s.wq fd).waked_ then s
  else { s.onWQ fd fun q => q.setWaked true with list_ := s.list_ ++ [fd] }

/-- The function that {lit}`FileAwaiter` queues: {lit}`addWait`, then {lit}`wakeWQ`. -/
def addWait (fd : ι) (h : κ) (req : Request β) : State ι κ β :=
  let cb := req.callback (s.entered fd).length
  { s.onWQ fd fun q => q.addWait (some h) cb.events cb with
    entered := Function.update s.entered fd (s.entered fd ++ req.segments) : State ι κ β }.wakeWQ fd

/-- {lit}`i->setWaked(false)` and the start of {lit}`i->wakeup()`; the callback {lit}`fdCallbck_` reads
the descriptor. -/
def startWakeup (fd : ι) (rest : List ι) : State ι κ β :=
  let s' := { s.onWQ fd fun q => q.setWaked false with
    phase := .walk rest
    ge := some ⟨fd, 0, .loop⟩ }
  if (s.wq fd).fdCallbck_ then
    s'.onSock fd fun k => { k with ready := k.ready &&& ~~~EPOLLIN }
  else s'

/-- One iteration of the loop over {lit}`items_`, up to the system call of a callback. -/
def iterate (fd : ι) (iter : Nat) : State ι κ β :=
  match (s.wq fd).turn iter with
  | .finish => { s with ge := none }
  | .next => { s with ge := some ⟨fd, iter + 1, .loop⟩ }
  | .erase => { s.onWQ fd fun q => q.erase iter with
      readyRo_ := s.readyRo_ ++ (s.wq fd).handle iter
      ge := some ⟨fd, iter, .loop⟩ }
  | .call events cb =>
      match cb.enter events with
      | none => { s with ge := some ⟨fd, iter, .inCall⟩ }
      | some r => { s with ge := some ⟨fd, iter, .returned r⟩ }

/-- The call of {lit}`colib::writev` that waits at {lit}`iter`. -/
def callAt (fd : ι) (iter : Nat) : List Nat :=
  match (s.wq fd).items_[iter]?.bind WaitItem.cb_ with
  | some (.writev c) => [c.call]
  | _ => []

/-- The rest of the iteration after a callback has returned {lit}`r`. -/
def settle (fd : ι) (iter : Nat) (r : IoRet) : State ι κ β :=
  let s' := { s.onWQ fd fun q => q.settle iter r with ge := some ⟨fd, iter, .loop⟩ }
  if r.block then s'
  else { s' with
    readyRo_ := s.readyRo_ ++ (s.wq fd).handle iter
    finished := Function.update s.finished fd
      (s.finished fd ++ (s.callAt fd iter).map fun call => (call, r.ret)) }

/-- The callback that is in its system call, with its {lit}`FileWQ` and position. -/
def running : Option (ι × Nat × WQCB β) :=
  match s.ge with
  | some ⟨fd, iter, .inCall⟩ =>
      ((s.wq fd).items_[iter]?.bind WaitItem.cb_).map fun cb => (fd, iter, cb)
  | _ => none

/-- The system call returns {lit}`r`, and the callback goes on to its {lit}`return` or its
{lit}`continue`. -/
def sysret (fd : ι) (iter : Nat) (cb : WQCB β) (r : SysRet) (ready : Events) : State ι κ β :=
  let s' := s.onSock fd fun k => { k with ready := ready, sent := k.sent ++ cb.accepted r }
  match cb.resume r with
  | none => s'
  | some (ret, cb') => { s'.onWQ fd fun q => q.store iter cb' with
      ge := some ⟨fd, iter, .returned ret⟩ }

/-- The kernel returns events from {lit}`epoll_wait`, and has them pending no more. -/
def epoll_wait (events : List (ι × Events)) : State ι κ β :=
  { s with sock := fun fd =>
      if events.any fun event => event.1 = fd then { s.sock fd with pending := false }
      else s.sock fd }

/-- What {lit}`IRQPoll::waitIRQ` does with one event. -/
def deliver (event : ι × Events) : State ι κ β :=
  { s.onWQ event.1 fun q => (q.addREvents event.2).setWaked true with
    list_ := s.list_ ++ [event.1] }

/-- {lit}`IRQPoll::waitIRQ` behind its {lit}`epoll_wait`. -/
def waitIRQ (events : List (ι × Events)) : State ι κ β :=
  { events.foldl deliver s with phase := .drain }

end State

/-- One step. -/
def step (s : State ι κ β) : Action ι κ β → Option (State ι κ β)
  | .change fd ready pending =>
      some (s.onSock fd fun k => { k with ready := ready, pending := pending })
  | .addWait fd h req =>
      match s.phase with
      | .drain => some (s.addWait fd h req)
      | _ => none
  | .drained =>
      match s.phase with
      | .drain => some { s with phase := .walk s.list_ }
      | _ => none
  | .walk =>
      match s.phase, s.ge with
      | .walk [], none => some { s with phase := .poll, list_ := [] }
      | .walk (fd :: rest), none => some (s.startWakeup fd rest)
      | .walk _, some ⟨fd, iter, .loop⟩ => some (s.iterate fd iter)
      | .walk _, some ⟨fd, iter, .returned r⟩ => some (s.settle fd iter r)
      | _, _ => none
  | .sysret r ready =>
      match s.running with
      | some (fd, iter, cb) =>
          if cb.Offered r then some (s.sysret fd iter cb r ready) else none
      | none => none
  | .waitIRQ events =>
      match s.phase with
      | .poll =>
          if events.length ≤ 128 then some ((s.epoll_wait events).waitIRQ events) else none
      | _ => none

/-- The loop under any order of kernel events and requests, whatever {lit}`waked_` holds
in its new {lit}`FileWQ`s. -/
def machine (waked fdCallbck : ι → Bool) : Machine (State ι κ β) (Action ι κ β) where
  init s := s = State.construct waked fdCallbck
  step := step

/-! ## What the steps change -/

namespace State

variable {s : State ι κ β} {fd fd' : ι} {events : List (ι × Events)}
  {rest : List ι}

@[simp]
theorem wakeWQ_items_ : ((s.wakeWQ fd).wq fd').items_ = (s.wq fd').items_ := by
  unfold wakeWQ
  split
  · rfl
  · dsimp only [onWQ]
    refine update_keep FileWQ.items_ ?_ fd'
    rfl

@[simp]
theorem wakeWQ_revents_ : ((s.wakeWQ fd).wq fd').revents_ = (s.wq fd').revents_ := by
  unfold wakeWQ
  split
  · rfl
  · dsimp only [onWQ]
    refine update_keep FileWQ.revents_ ?_ fd'
    rfl

@[simp]
theorem wakeWQ_ge : (s.wakeWQ fd).ge = s.ge := by
  unfold wakeWQ
  split <;> rfl

@[simp]
theorem wakeWQ_sock : (s.wakeWQ fd).sock = s.sock := by
  unfold wakeWQ
  split <;> rfl

@[simp]
theorem wakeWQ_entered : (s.wakeWQ fd).entered = s.entered := by
  unfold wakeWQ
  split <;> rfl

@[simp]
theorem wakeWQ_finished : (s.wakeWQ fd).finished = s.finished := by
  unfold wakeWQ
  split <;> rfl

@[simp]
theorem startWakeup_wq :
    (s.startWakeup fd rest).wq = Function.update s.wq fd ((s.wq fd).setWaked false) := by
  unfold startWakeup
  split <;> rfl

@[simp]
theorem startWakeup_phase : (s.startWakeup fd rest).phase = .walk rest := by
  unfold startWakeup
  split <;> rfl

@[simp]
theorem startWakeup_ge : (s.startWakeup fd rest).ge = some ⟨fd, 0, .loop⟩ := by
  unfold startWakeup
  split <;> rfl

@[simp]
theorem startWakeup_list_ : (s.startWakeup fd rest).list_ = s.list_ := by
  unfold startWakeup
  split <;> rfl

@[simp]
theorem startWakeup_entered : (s.startWakeup fd rest).entered = s.entered := by
  unfold startWakeup
  split <;> rfl

@[simp]
theorem startWakeup_finished : (s.startWakeup fd rest).finished = s.finished := by
  unfold startWakeup
  split <;> rfl

@[simp]
theorem startWakeup_sent : ((s.startWakeup fd rest).sock fd').sent = (s.sock fd').sent := by
  unfold startWakeup
  split
  · dsimp only [onSock, onWQ]
    refine update_keep Sock.sent ?_ fd'
    rfl
  · rfl

/-- Reading the descriptor makes nothing ready. -/
theorem startWakeup_sock :
    ((s.startWakeup fd rest).sock fd').pending = (s.sock fd').pending ∧
      Mask.Within ((s.startWakeup fd rest).sock fd').ready (s.sock fd').ready := by
  unfold startWakeup
  split
  · by_cases h : fd' = fd
    · subst h
      dsimp only [onSock, onWQ]
      rw [Function.update_self]
      exact ⟨rfl, Mask.within_diff _ _⟩
    · dsimp only [onSock, onWQ]
      rw [Function.update_of_ne h]
      exact ⟨rfl, Mask.Within.refl _⟩
  · exact ⟨rfl, Mask.Within.refl _⟩

section Settle

variable {iter : Nat} {r : IoRet}

@[simp]
theorem settle_phase : (s.settle fd iter r).phase = s.phase := by
  unfold settle
  split <;> rfl

@[simp]
theorem settle_ge : (s.settle fd iter r).ge = some ⟨fd, iter, .loop⟩ := by
  unfold settle
  split <;> rfl

@[simp]
theorem settle_wq :
    (s.settle fd iter r).wq = Function.update s.wq fd ((s.wq fd).settle iter r) := by
  unfold settle
  split <;> rfl

@[simp]
theorem settle_sock : (s.settle fd iter r).sock = s.sock := by
  unfold settle
  split <;> rfl

@[simp]
theorem settle_entered : (s.settle fd iter r).entered = s.entered := by
  unfold settle
  split <;> rfl

end Settle

/-- What no event changes {lit}`waitIRQ` does not change. -/
theorem waitIRQ_frame {γ : Type*} (f : State ι κ β → γ)
    (hdeliver : ∀ (s : State ι κ β) event, f (s.deliver event) = f s)
    (hphase : ∀ s : State ι κ β, f { s with phase := .drain } = f s) :
    f (s.waitIRQ events) = f s := by
  unfold waitIRQ
  rw [hphase]
  induction events generalizing s with
  | nil => rfl
  | cons event events ih => exact (ih (s := s.deliver event)).trans (hdeliver s event)

@[simp]
theorem waitIRQ_ge : (s.waitIRQ events).ge = s.ge :=
  waitIRQ_frame State.ge (fun _ _ => rfl) fun _ => rfl

@[simp]
theorem waitIRQ_sock : (s.waitIRQ events).sock = s.sock :=
  waitIRQ_frame State.sock (fun _ _ => rfl) fun _ => rfl

@[simp]
theorem waitIRQ_entered : (s.waitIRQ events).entered = s.entered :=
  waitIRQ_frame State.entered (fun _ _ => rfl) fun _ => rfl

@[simp]
theorem waitIRQ_finished : (s.waitIRQ events).finished = s.finished :=
  waitIRQ_frame State.finished (fun _ _ => rfl) fun _ => rfl

@[simp]
theorem waitIRQ_items_ : ((s.waitIRQ events).wq fd).items_ = (s.wq fd).items_ := by
  refine waitIRQ_frame (fun s => (s.wq fd).items_) (fun s event => ?_) fun _ => rfl
  dsimp only [deliver, onWQ]
  refine update_keep FileWQ.items_ ?_ fd
  rfl

theorem waitIRQ_list_ : (s.waitIRQ events).list_ = s.list_ ++ events.map Prod.fst := by
  unfold waitIRQ
  induction events generalizing s with
  | nil => exact (List.append_nil _).symm
  | cons event events ih =>
      refine (ih (s := s.deliver event)).trans ?_
      rw [List.map_cons, List.append_cons]
      rfl

/-- {lit}`waitIRQ` leaves alone the {lit}`FileWQ`s that have no event. -/
theorem waitIRQ_of_not_mem (h : fd ∉ events.map Prod.fst) :
    (s.waitIRQ events).wq fd = s.wq fd := by
  unfold waitIRQ
  induction events generalizing s with
  | nil => rfl
  | cons event events ih =>
      rw [List.map_cons, List.mem_cons, not_or] at h
      exact (ih (s := s.deliver event) h.2).trans (Function.update_of_ne h.1 _ _)

/-- What {lit}`waitIRQ` does with a {lit}`FileWQ` that has one event. -/
theorem waitIRQ_of_mem {revents : Events} (hnodup : (events.map Prod.fst).Nodup)
    (h : (fd, revents) ∈ events) :
    (s.waitIRQ events).wq fd = ((s.wq fd).addREvents revents).setWaked true := by
  induction events generalizing s with
  | nil => cases h
  | cons event events ih =>
      rw [List.map_cons, List.nodup_cons] at hnodup
      have hcons : s.waitIRQ (event :: events) = (s.deliver event).waitIRQ events := rfl
      rw [hcons]
      rcases List.mem_cons.mp h with rfl | hmem
      · exact (waitIRQ_of_not_mem (s := s.deliver (fd, revents)) hnodup.1).trans
          (Function.update_self _ _ _)
      · have hne : fd ≠ event.1 := fun heq =>
          hnodup.1 (heq ▸ List.mem_map.mpr ⟨_, hmem, rfl⟩)
        have hwq : (s.deliver event).wq fd = s.wq fd := Function.update_of_ne hne _ _
        rw [ih (s := s.deliver event) hnodup.2 hmem, hwq]

/-- {lit}`epoll_wait` leaves alone what it does not return. -/
theorem epoll_wait_of_not_mem (h : fd ∉ events.map Prod.fst) :
    (s.epoll_wait events).sock fd = s.sock fd := by
  refine if_neg ?_
  rw [List.any_eq_true]
  rintro ⟨event, hevent, heq⟩
  exact h (List.mem_map.mpr ⟨event, hevent, of_decide_eq_true heq⟩)

theorem epoll_wait_of_mem (h : fd ∈ events.map Prod.fst) :
    (s.epoll_wait events).sock fd = { s.sock fd with pending := false } := by
  rcases List.mem_map.mp h with ⟨event, hevent, heq⟩
  exact if_pos (List.any_eq_true.mpr ⟨event, hevent, decide_eq_true heq⟩)

@[simp]
theorem epoll_wait_sent : ((s.epoll_wait events).sock fd).sent = (s.sock fd).sent := by
  by_cases h : fd ∈ events.map Prod.fst
  · rw [epoll_wait_of_mem h]
  · rw [epoll_wait_of_not_mem h]

end State

/-! ## What a step does -/

/-- The steps by their effect. -/
def Steps (s : State ι κ β) (a : Action ι κ β) (s' : State ι κ β) : Prop :=
  match a with
  | .change fd ready pending =>
      s' = s.onSock fd fun k => { k with ready := ready, pending := pending }
  | .addWait fd h req => s.phase = .drain ∧ s' = s.addWait fd h req
  | .drained => s.phase = .drain ∧ s' = { s with phase := .walk s.list_ }
  | .walk =>
      (s.phase = .walk [] ∧ s.ge = none ∧ s' = { s with phase := .poll, list_ := [] }) ∨
      (∃ fd rest, s.phase = .walk (fd :: rest) ∧ s.ge = none ∧ s' = s.startWakeup fd rest) ∨
      (∃ fd iter rest, s.phase = .walk rest ∧ s.ge = some ⟨fd, iter, .loop⟩ ∧
        s' = s.iterate fd iter) ∨
      ∃ fd iter r rest, s.phase = .walk rest ∧ s.ge = some ⟨fd, iter, .returned r⟩ ∧
        s' = s.settle fd iter r
  | .sysret r ready =>
      ∃ fd iter cb, s.running = some (fd, iter, cb) ∧ cb.Offered r ∧
        s' = s.sysret fd iter cb r ready
  | .waitIRQ events =>
      s.phase = .poll ∧ events.length ≤ 128 ∧ s' = (s.epoll_wait events).waitIRQ events

theorem step_cases {s s' : State ι κ β} {a : Action ι κ β} (hstep : step s a = some s') :
    Steps s a s' := by
  cases a with
  | change fd ready pending =>
      cases hstep
      rfl
  | addWait fd h req =>
      simp only [step] at hstep
      split at hstep
      · rename_i hphase
        cases hstep
        exact ⟨hphase, rfl⟩
      · cases hstep
  | drained =>
      simp only [step] at hstep
      split at hstep
      · rename_i hphase
        cases hstep
        exact ⟨hphase, rfl⟩
      · cases hstep
  | walk =>
      simp only [step] at hstep
      split at hstep <;> cases hstep
      · rename_i hphase hge
        exact .inl ⟨hphase, hge, rfl⟩
      · rename_i hphase hge
        exact .inr (.inl ⟨_, _, hphase, hge, rfl⟩)
      · rename_i hphase hge
        exact .inr (.inr (.inl ⟨_, _, _, hphase, hge, rfl⟩))
      · rename_i hphase hge
        exact .inr (.inr (.inr ⟨_, _, _, _, hphase, hge, rfl⟩))
  | sysret r ready =>
      simp only [step] at hstep
      split at hstep
      · rename_i hrun
        rcases Option.ite_none_right_eq_some.mp hstep with ⟨hoffered, hstep⟩
        cases hstep
        exact ⟨_, _, _, hrun, hoffered, rfl⟩
      · cases hstep
  | waitIRQ events =>
      simp only [step] at hstep
      split at hstep
      · rename_i hphase
        rcases Option.ite_none_right_eq_some.mp hstep with ⟨hlen, hstep⟩
        cases hstep
        exact ⟨hphase, hlen, rfl⟩
      · cases hstep

/-! ## The walk -/

/-- The generator runs in the walk only, it has passed only waiters that no event
concerns, it calls only a waiter that an event concerns, and every waiter waits for
the events of its callback. -/
structure Inv (s : State ι κ β) : Prop where
  walking : ∀ w, s.ge = some w → ∃ rest, s.phase = .walk rest
  passed : ∀ w, s.ge = some w → (s.wq w.fq).Passed w.iter
  called : ∀ w, s.ge = some w → w.stage ≠ .loop → (s.wq w.fq).Called w.iter
  events : ∀ fd item cb, item ∈ (s.wq fd).items_ → item.cb_ = some cb → item.events_ = cb.events

section Inv

variable {s s' : State ι κ β} {fd : ι} {iter : Nat} {rest : List ι}

omit [DecidableEq ι] in
theorem inv_construct (waked fdCallbck : ι → Bool) :
    Inv (State.construct waked fdCallbck : State ι κ β) where
  walking _ h := nomatch h
  passed _ h := nomatch h
  called _ h := nomatch h
  events _ _ _ h := absurd h List.not_mem_nil

omit [DecidableEq ι] in
/-- Outside the walk there is no generator. -/
theorem Inv.ge_eq_none (h : Inv s) (hphase : s.phase = .drain ∨ s.phase = .poll) :
    s.ge = none := by
  cases hge : s.ge with
  | none => rfl
  | some w =>
      rcases h.walking w hge with ⟨rest, hrest⟩
      rw [hrest] at hphase
      rcases hphase with hphase | hphase <;> cases hphase

omit [DecidableEq ι] in
/-- The callback in its system call is that of a waiter. -/
theorem running_eq_some {cb : WQCB β} (h : s.running = some (fd, iter, cb)) :
    s.ge = some ⟨fd, iter, .inCall⟩ ∧
      ∃ item, (s.wq fd).items_[iter]? = some item ∧ item.cb_ = some cb := by
  unfold State.running at h
  split at h
  · rename_i fd' iter' hge
    rcases Option.map_eq_some_iff.mp h with ⟨cb', hbind, heq⟩
    cases heq
    exact ⟨hge, Option.bind_eq_some_iff.mp hbind⟩
  · cases h

omit [DecidableEq ι] in
/-- Outside a walk only the waiters count. -/
theorem Inv.of_idle (hge : s'.ge = none)
    (hevents : ∀ fd item cb, item ∈ (s'.wq fd).items_ → item.cb_ = some cb →
      item.events_ = cb.events) : Inv s' where
  walking _ hw := absurd (hge.symm.trans hw) nofun
  passed _ hw := absurd (hge.symm.trans hw) nofun
  called _ hw := absurd (hge.symm.trans hw) nofun
  events := hevents

/-- A step of the generator changes one {lit}`FileWQ`. -/
theorem Inv.of_walk (h : Inv s) (fd : ι) (q : FileWQ κ (WQCB β))
    (hwq : s'.wq = Function.update s.wq fd q)
    (hphase : ∃ rest, s'.phase = .walk rest)
    (hge : ∀ w, s'.ge = some w → w.fq = fd ∧ q.Passed w.iter ∧
      (w.stage ≠ .loop → q.Called w.iter))
    (hevents : ∀ item cb, item ∈ q.items_ → item.cb_ = some cb → item.events_ = cb.events) :
    Inv s' where
  walking _ _ := hphase
  passed w hw := by
    rcases hge w hw with ⟨rfl, hpassed, _⟩
    rw [hwq, Function.update_self]
    exact hpassed
  called w hw hstage := by
    rcases hge w hw with ⟨rfl, _, hcalled⟩
    rw [hwq, Function.update_self]
    exact hcalled hstage
  events fd' item cb hitem hcb := by
    rw [hwq] at hitem
    by_cases hfd : fd' = fd
    · subst hfd
      rw [Function.update_self] at hitem
      exact hevents item cb hitem hcb
    · rw [Function.update_of_ne hfd] at hitem
      exact h.events fd' item cb hitem hcb

theorem Inv.addWait (h : Inv s) (hphase : s.phase = .drain) (fd : ι) (k : κ) (req : Request β) :
    Inv (s.addWait fd k req) := by
  have hge := h.ge_eq_none (.inl hphase)
  refine Inv.of_idle (State.wakeWQ_ge.trans hge) fun fd' item cb hitem hcb => ?_
  rw [State.addWait, State.wakeWQ_items_] at hitem
  dsimp only [State.onWQ] at hitem
  by_cases hfd : fd' = fd
  · subst hfd
    rw [Function.update_self, FileWQ.addWait, List.mem_append, List.mem_singleton] at hitem
    rcases hitem with hitem | rfl
    · exact h.events fd' item cb hitem hcb
    · cases hcb
      rfl
  · rw [Function.update_of_ne hfd] at hitem
    exact h.events fd' item cb hitem hcb

theorem Inv.startWakeup (h : Inv s) (fd : ι) (rest : List ι) : Inv (s.startWakeup fd rest) := by
  refine h.of_walk fd _ State.startWakeup_wq ⟨rest, State.startWakeup_phase⟩ ?_ (h.events fd)
  intro w hw
  cases State.startWakeup_ge.symm.trans hw
  exact ⟨rfl, FileWQ.passed_zero _, absurd rfl⟩

theorem Inv.iterate (h : Inv s) (hphase : s.phase = .walk rest)
    (hge : s.ge = some ⟨fd, iter, .loop⟩) : Inv (s.iterate fd iter) := by
  have hpassed := h.passed _ hge
  have hsame : Function.update s.wq fd (s.wq fd) = s.wq := Function.update_eq_self _ _
  unfold State.iterate
  cases hturn : (s.wq fd).turn iter with
  | finish => exact h.of_walk fd _ hsame.symm ⟨rest, hphase⟩ nofun (h.events fd)
  | next =>
      refine h.of_walk fd _ hsame.symm ⟨rest, hphase⟩ (fun w hw => ?_) (h.events fd)
      cases hw
      exact ⟨rfl, hpassed.next hturn, absurd rfl⟩
  | erase =>
      refine h.of_walk fd _ rfl ⟨rest, hphase⟩ (fun w hw => ?_) fun item cb hitem =>
        h.events fd item cb (FileWQ.mem_of_mem_erase hitem)
      cases hw
      exact ⟨rfl, hpassed.erase, absurd rfl⟩
  | call events cb =>
      have hcall : ∀ stage, Inv { s with ge := some ⟨fd, iter, stage⟩ } := by
        intro stage
        refine h.of_walk fd _ hsame.symm ⟨rest, hphase⟩ (fun w hw => ?_) (h.events fd)
        cases hw
        exact ⟨rfl, hpassed, fun _ => FileWQ.called_of_turn hturn⟩
      dsimp only
      cases cb.enter events with
      | none => exact hcall _
      | some r => exact hcall _

theorem Inv.settle (h : Inv s) (hphase : s.phase = .walk rest) {r : IoRet}
    (hge : s.ge = some ⟨fd, iter, .returned r⟩) : Inv (s.settle fd iter r) := by
  refine h.of_walk fd ((s.wq fd).settle iter r) State.settle_wq
    ⟨rest, State.settle_phase.trans hphase⟩ (fun w hw => ?_)
    fun item cb hitem => h.events fd item cb (FileWQ.mem_of_mem_settle hitem)
  cases State.settle_ge.symm.trans hw
  exact ⟨rfl, (h.passed _ hge).settle r, absurd rfl⟩

theorem Inv.sysret (h : Inv s) {cb : WQCB β} (hrun : s.running = some (fd, iter, cb))
    (r : SysRet) (ready : Events) : Inv (s.sysret fd iter cb r ready) := by
  rcases running_eq_some hrun with ⟨hge, item, hitem, hcb⟩
  unfold State.sysret
  cases hresume : cb.resume r with
  | none => exact ⟨h.walking, h.passed, h.called, h.events⟩
  | some res =>
      rcases res with ⟨ret, cb'⟩
      refine h.of_walk fd ((s.wq fd).store iter cb') rfl (h.walking _ hge) ?_ ?_
      · intro w hw
        cases hw
        exact ⟨rfl, (h.passed _ hge).store cb', fun _ => (h.called _ hge nofun).store cb'⟩
      · intro item' cb'' hitem' hcb''
        rcases FileWQ.mem_of_mem_store hitem' with hold | ⟨old, hold, rfl⟩
        · exact h.events fd item' cb'' hold hcb''
        · cases hitem.symm.trans hold
          cases hcb''
          rw [WQCB.resume_events hresume]
          exact h.events fd item cb (List.mem_of_getElem? hitem) hcb

theorem Inv.waitIRQ (h : Inv s) (hphase : s.phase = .poll) (events : List (ι × Events)) :
    Inv ((s.epoll_wait events).waitIRQ events) := by
  have hge := h.ge_eq_none (.inr hphase)
  refine Inv.of_idle (State.waitIRQ_ge.trans hge) fun fd item cb hitem hcb => ?_
  rw [State.waitIRQ_items_] at hitem
  exact h.events fd item cb hitem hcb

/-- Every step keeps the invariant. -/
theorem Inv.step {a : Action ι κ β} (h : Inv s) (hstep : EventLoop.step s a = some s') :
    Inv s' := by
  have hcase := step_cases hstep
  cases a with
  | change fd ready pending =>
      cases hcase
      exact ⟨h.walking, h.passed, h.called, h.events⟩
  | addWait fd k req =>
      rcases hcase with ⟨hphase, rfl⟩
      exact h.addWait hphase fd k req
  | drained =>
      rcases hcase with ⟨_, rfl⟩
      exact ⟨fun _ _ => ⟨_, rfl⟩, h.passed, h.called, h.events⟩
  | walk =>
      rcases hcase with ⟨_, hge, rfl⟩ | ⟨fd, rest, _, _, rfl⟩ | ⟨fd, iter, rest, hphase, hge, rfl⟩ |
        ⟨fd, iter, r, rest, hphase, hge, rfl⟩
      · exact Inv.of_idle hge h.events
      · exact h.startWakeup fd rest
      · exact h.iterate hphase hge
      · exact h.settle hphase hge
  | sysret r ready =>
      rcases hcase with ⟨fd, iter, cb, hrun, _, rfl⟩
      exact h.sysret hrun r ready
  | waitIRQ events =>
      rcases hcase with ⟨hphase, _, rfl⟩
      exact h.waitIRQ hphase events

end Inv

end EventLoop
end CoEpoll
