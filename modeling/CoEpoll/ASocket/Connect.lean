import CoEpoll.CoKernel.Irq.FileWQ
import CoEpoll.Transition.Machine

/-!
# `colib::connect`: when does it return 0

After {lit}`EINPROGRESS` the function waits for {lit}`EPOLLOUT`, and its callback reads {lit}`SO_ERROR`.  The
callback returns what {lit}`getsockopt` has returned and not the error that it has read, and it is
also called for an {lit}`EPOLLOUT` that was reported before the attempt began and has stayed in
{lit}`revents_`.

Main results:

- Theorem {lit}`Inv.step_kinds`: a step ends the call, calls {lit}`confunc`, or leaves the result open.
- Theorem {lit}`Inv.established_iff`: {lit}`confunc` finds a connection if and only if the attempt has not
  failed and the event is not older than its end.
- Theorem {lit}`truthful_iff`: the function returns 0 only when the connection is established, in every
  state of a run, if and only if every call of {lit}`confunc` in it is sound.
- Theorem {lit}`connect_lies`: it returns 0 while the attempt is in progress, and after it has failed.
-/

namespace CoEpoll
namespace Connect

open Transition Irq

/-- The kernel's side of the socket. -/
inductive Conn where
  | unconnected
  | inProgress
  | established
  | failed (err : Int32)
deriving DecidableEq

/-- {lit}`SO_ERROR` -/
def Conn.soError : Conn → Int32
  | failed err => err
  | _ => 0

/-- What {lit}`getsockopt` returns and what it stores in {lit}`connect_error`. -/
def Conn.getsockopt (conn : Conn) (ok : Bool) : Int32 × Int32 :=
  if ok then (0, conn.soError) else (-1, 0)

/-- {lit}`confunc` -/
def confunc (conn : Conn) (ok : Bool) : IoRet :=
  let (n, _connect_error) := conn.getsockopt ok
  ⟨n, false, false⟩

/-- The callbacks of the waiters: that of {lit}`colib::connect`, or one of another function. -/
inductive Callback where
  | confunc
  | other
deriving DecidableEq

/-- Where {lit}`colib::connect` is. -/
inductive Pc where
  /-- Before {lit}`::connect`. -/
  | start
  /-- {lit}`waitFile` looks the descriptor up. -/
  | waitFile
  /-- It is suspended, and the function of its {lit}`FileAwaiter` is queued. -/
  | queued
  /-- It is suspended, and it is in {lit}`items_`. -/
  | waiting
  /-- Its handle has been passed to {lit}`wakeUpReady`; {lit}`FileAwaiter::ret` is {lit}`ret`. -/
  | woken (ret : Int32)
  | returned (ret : Int32)
deriving DecidableEq

/-- A socket with its {lit}`FileWQ` and a call of {lit}`colib::connect`; {lit}`timed` tells whether {lit}`ti` is not
0, and {lit}`iter` is where {lit}`FileWQ::wakeup` is. -/
structure State where
  conn : Conn
  wq : FileWQ Unit Callback
  iter : Option Nat
  pc : Pc
  timed : Bool

/-- A socket that {lit}`colib::socket` has made. -/
def State.construct (timed waked : Bool) : State where
  conn := .unconnected
  wq := .construct waked false
  iter := none
  pc := .start
  timed := timed

/-- The outcome of {lit}`::connect`. -/
inductive Outcome where
  | success
  | inProgress
  | error

inductive Action where
  /-- {lit}`::connect` returns. -/
  | connect (r : Outcome)
  /-- {lit}`waitFile` finds the descriptor in {lit}`fileWQPtrs_`, or does not, and suspends. -/
  | waitFile (found : Bool)
  /-- The ICU runs the function of the {lit}`FileAwaiter`. -/
  | addWait
  /-- Another coroutine comes into {lit}`items_`. -/
  | addOther (events : Events)
  /-- {lit}`IRQPoll::waitIRQ` reports events. -/
  | deliver (events : Events)
  /-- {lit}`ICU::loop` calls {lit}`FileWQ::wakeup`. -/
  | wakeup
  /-- An iteration of its loop; {lit}`ok` tells whether {lit}`getsockopt` succeeds in {lit}`confunc`, and {lit}`r` is
  what another callback returns. -/
  | iterate (ok : Bool) (r : IoRet)
  /-- The timer ends the wait. -/
  | timeout
  /-- The coroutine is resumed and returns. -/
  | resume
  /-- The attempt succeeds. -/
  | establish
  /-- The attempt fails. -/
  | fail (err : Int32)

namespace State

variable (s : State)

/-- {lit}`::connect` and the test of its result. -/
def connect : Outcome → State
  | .success => { s with conn := .established, pc := .returned 0 }
  | .inProgress => { s with conn := .inProgress, pc := .waitFile }
  | .error => { s with pc := .returned (-1) }

/-- {lit}`FileAwaiter`'s callback: it stores what {lit}`confunc` returns, and the waiter is erased. -/
def callConfunc (iter : Nat) (ok : Bool) : State :=
  let r := confunc s.conn ok
  { s with
    wq := s.wq.settle iter r
    pc := .woken r.ret }

/-- An iteration of the loop in {lit}`FileWQ::wakeup`. -/
def iterate (iter : Nat) (ok : Bool) (r : IoRet) : State :=
  match s.wq.turn iter with
  | .finish => { s with iter := none }
  | .next => { s with iter := some (iter + 1) }
  | .erase => { s with wq := s.wq.erase iter }
  | .call _ .confunc => s.callConfunc iter ok
  | .call _ .other => { s with wq := s.wq.settle iter r }

/-- {lit}`FileAwaiter`'s timer callback. -/
def timeout : State :=
  { s with
    wq := { s.wq with
      items_ := s.wq.items_.eraseP fun item => item.cb_ = some .confunc }
    pc := .woken (-1) }

end State

/-- One step. -/
def step (s : State) : Action → Option State
  | .connect r => if s.pc = .start then some (s.connect r) else none
  | .waitFile found =>
      if s.pc = .waitFile then
        some { s with pc := if found then .queued else .returned (-1) }
      else none
  | .addWait =>
      if s.pc = .queued ∧ s.iter = none then
        some { s with wq := s.wq.addWait (some ()) EPOLLOUT .confunc, pc := .waiting }
      else none
  | .addOther events =>
      if s.iter = none then some { s with wq := s.wq.addWait none events .other } else none
  | .deliver events =>
      if s.iter = none ∧ (s.conn = .inProgress → events &&& EPOLLOUT = 0) then
        some { s with wq := s.wq.addREvents events }
      else none
  | .wakeup => if s.iter = none then some { s with iter := some 0 } else none
  | .iterate ok r => s.iter.map fun iter => s.iterate iter ok r
  | .timeout =>
      if s.pc = .waiting ∧ s.iter = none ∧ s.timed = true then some s.timeout else none
  | .resume =>
      match s.pc with
      | .woken ret => some { s with pc := .returned ret }
      | _ => none
  | .establish => if s.conn = .inProgress then some { s with conn := .established } else none
  | .fail err =>
      if s.conn = .inProgress ∧ err ≠ 0 then some { s with conn := .failed err } else none

/-- A call of {lit}`colib::connect` under any outcome and any order of events; {lit}`epoll` reports no
{lit}`EPOLLOUT` while the attempt is in progress. -/
def machine (timed waked : Bool) : Machine State Action where
  init s := s = State.construct timed waked
  step := step

/-! ## What a result of 0 says -/

/-- The function has returned 0 only when the connection is established. -/
def State.Truthful (s : State) : Prop :=
  s.pc = .returned 0 → s.conn = .established

/-- {lit}`confunc` is called, and its {lit}`getsockopt` succeeds. -/
def State.probes (s : State) : Action → Bool
  | .iterate true _ =>
      match s.iter.map s.wq.turn with
      | some (.call _ .confunc) => true
      | _ => false
  | _ => false

/-- An event that {lit}`confunc` is called for is in {lit}`revents_` before the attempt has ended. -/
def State.Stale (s : State) : Prop :=
  s.conn = .inProgress ∧ s.wq.revents_ &&& (EPOLLOUT ||| EPOLLRDHUP) ≠ 0

/-- The attempt succeeds before the coroutine is resumed. -/
def succeedsFirst : List Action → Bool
  | [] => true
  | .resume :: _ => false
  | .establish :: _ => true
  | _ :: later => succeedsFirst later

/-- A call of {lit}`confunc` is for an event that is not older than the end of the attempt, and the
attempt has not failed; otherwise it succeeds in the steps {lit}`later`, before the coroutine is
resumed. -/
def Sound (s : State) (a : Action) (later : List Action) : Prop :=
  s.probes a = true →
    (¬ s.Stale ∧ ∀ err, s.conn ≠ .failed err) ∨ succeedsFirst later = true

/-- Every call of {lit}`confunc` in a run is sound. -/
def SoundAlong : State → List Action → Prop
  | _, [] => True
  | s, a :: as => Sound s a as ∧ ∀ t, step s a = some t → SoundAlong t as

theorem soundAlong_cons {s t : State} {a : Action} (ht : step s a = some t) (as : List Action) :
    SoundAlong s (a :: as) ↔ Sound s a as ∧ SoundAlong t as := by
  refine and_congr_right fun _ => ⟨fun h => h t ht, fun h u hu => ?_⟩
  cases ht.symm.trans hu
  exact h

/-- What is called then. -/
theorem probes_iterate {s : State} {iter : Nat} {ok : Bool} {r : IoRet} (hiter : s.iter = some iter)
    (h : s.probes (.iterate ok r) = true) :
    ok = true ∧ ∃ events, s.wq.turn iter = .call events .confunc := by
  cases ok with
  | false => cases h
  | true =>
      rw [State.probes, hiter, Option.map_some] at h
      split at h
      · rename_i events hturn
        exact ⟨rfl, events, Option.some.inj hturn⟩
      · cases h

/-! ## What the coroutine waits for -/

/-- The waiter of {lit}`colib::connect`. -/
def isConfunc (item : WaitItem Unit Callback) : Bool :=
  decide (item.cb_ = some .confunc)

/-- The coroutine has one waiter while it waits and else none, and {lit}`::connect` has been called
then. -/
structure Inv (s : State) : Prop where
  count : s.wq.items_.countP isConfunc = if s.pc = .waiting then 1 else 0
  events : ∀ item ∈ s.wq.items_, isConfunc item = true → item.events_ = EPOLLOUT
  begun : s.conn = .unconnected → s.pc = .start ∨ ∃ ret, s.pc = .returned ret

variable {s s' : State}

/-- {lit}`::connect` has been called while {lit}`colib::connect` waits for its outcome. -/
theorem Inv.connecting (h : Inv s) (hstart : s.pc ≠ .start)
    (hreturned : ∀ ret, s.pc ≠ .returned ret) : s.conn ≠ .unconnected := by
  intro hconn
  rcases h.begun hconn with hpc | ⟨ret, hpc⟩
  · exact hstart hpc
  · exact hreturned ret hpc

theorem inv_construct (timed waked : Bool) : Inv (.construct timed waked) where
  count := rfl
  events _ hmem := absurd hmem List.not_mem_nil
  begun _ := .inl rfl

/-- A step that changes neither where the coroutine waits nor its waiter. -/
theorem Inv.keep (h : Inv s) (hpc : s'.pc = .waiting ↔ s.pc = .waiting)
    (hcount : s'.wq.items_.countP isConfunc = s.wq.items_.countP isConfunc)
    (hitems : ∀ item ∈ s'.wq.items_, isConfunc item = true → item ∈ s.wq.items_)
    (hbegun : s'.conn = .unconnected → s'.pc = .start ∨ ∃ ret, s'.pc = .returned ret) :
    Inv s' where
  count := by
    rw [hcount, h.count]
    simp only [hpc]
  events item hmem hconfunc := h.events item (hitems item hmem hconfunc) hconfunc
  begun := hbegun

/-- A step that moves the coroutine only. -/
theorem Inv.move (h : Inv s) (hwq : s'.wq.items_ = s.wq.items_)
    (hpc : s'.pc = .waiting ↔ s.pc = .waiting)
    (hbegun : s'.conn = .unconnected → s'.pc = .start ∨ ∃ ret, s'.pc = .returned ret) :
    Inv s' := by
  apply h.keep hpc _ _ hbegun
  · rw [hwq]
  · intro item hmem _
    rw [hwq] at hmem
    exact hmem

/-- How many waiters of a kind there are without the one at {lit}`iter`. -/
theorem countP_erase {q : FileWQ Unit Callback} {iter : Nat} {item : WaitItem Unit Callback}
    (hitem : q.items_[iter]? = some item) :
    (q.erase iter).items_.countP isConfunc + (if isConfunc item then 1 else 0) =
      q.items_.countP isConfunc := by
  rw [FileWQ.erase_items_]
  conv =>
    rhs
    rw [FileWQ.items_eq hitem]
  rw [List.countP_append, List.countP_append, List.countP_cons]
  omega

/-- A waiter that is erased and is not that of {lit}`colib::connect`. -/
theorem Inv.erase_other (h : Inv s) {wq : FileWQ Unit Callback} {iter : Nat}
    {item : WaitItem Unit Callback} (hitem : s.wq.items_[iter]? = some item)
    (hother : isConfunc item = false)
    (hwq : wq.items_ = s.wq.items_ ∨ wq.items_ = (s.wq.erase iter).items_) :
    Inv { s with wq := wq } := by
  have hcount := countP_erase hitem
  rw [hother] at hcount
  refine h.keep Iff.rfl ?_ ?_ h.begun
  · rcases hwq with hwq | hwq
    · exact congrArg _ hwq
    · exact (congrArg _ hwq).trans hcount
  · intro w hmem _
    rcases hwq with hwq | hwq
    · rw [← hwq]
      exact hmem
    · have herase : w ∈ (s.wq.erase iter).items_ := by
        rw [← hwq]
        exact hmem
      exact FileWQ.mem_of_mem_erase herase

/-- {lit}`confunc` is called only while the coroutine waits, and for {lit}`EPOLLOUT` or {lit}`EPOLLRDHUP`. -/
theorem Inv.waiting_of_turn (h : Inv s) {iter : Nat} {events : Events}
    (hturn : s.wq.turn iter = .call events .confunc) :
    s.pc = .waiting ∧ s.wq.revents_ &&& (EPOLLOUT ||| EPOLLRDHUP) ≠ 0 := by
  rcases FileWQ.turn_eq_call hturn with ⟨item, hitem, hcb, _, hdue⟩
  have hconfunc : isConfunc item = true := by
    rw [isConfunc, hcb]
    rfl
  have hmem := List.mem_of_getElem? hitem
  constructor
  · by_contra hpc
    have hcount := h.count
    rw [if_neg hpc, List.countP_eq_zero] at hcount
    exact hcount item hmem hconfunc
  · rw [FileWQ.due, h.events item hmem hconfunc] at hdue
    exact hdue

/-- {lit}`confunc` is called once. -/
theorem Inv.callConfunc (h : Inv s) {iter : Nat} {events : Events}
    (hturn : s.wq.turn iter = .call events .confunc) (ok : Bool) : Inv (s.callConfunc iter ok) := by
  have hpc := (h.waiting_of_turn hturn).1
  rcases FileWQ.turn_eq_call hturn with ⟨item, hitem, hcb, _, _⟩
  have hconfunc : isConfunc item = true := by
    rw [isConfunc, hcb]
    rfl
  have hitems : (s.callConfunc iter ok).wq.items_ = (s.wq.erase iter).items_ :=
    FileWQ.settle_items_
  refine ⟨?_, fun w hmem => ?_, fun hconn => ?_⟩
  · have hcount := countP_erase hitem
    rw [h.count, if_pos hpc, hconfunc, if_pos rfl] at hcount
    rw [hitems]
    exact Nat.succ.inj hcount
  · rw [hitems] at hmem
    exact h.events w (FileWQ.mem_of_mem_erase hmem)
  · exact absurd hconn (h.connecting (by simp [hpc]) (by simp [hpc]))

theorem Inv.iterate (h : Inv s) (iter : Nat) (ok : Bool) (r : IoRet) :
    Inv (s.iterate iter ok r) := by
  unfold State.iterate
  cases hturn : s.wq.turn iter with
  | finish => exact h.move rfl Iff.rfl h.begun
  | next => exact h.move rfl Iff.rfl h.begun
  | erase =>
      rcases FileWQ.turn_eq_erase hturn with ⟨item, hitem, hcb⟩
      apply h.erase_other hitem _ (.inr rfl)
      rw [isConfunc, hcb]
      rfl
  | call events cb =>
      cases cb with
      | confunc => exact h.callConfunc hturn ok
      | other =>
          rcases FileWQ.turn_eq_call hturn with ⟨item, hitem, hcb, _, _⟩
          apply h.erase_other hitem
          · rw [isConfunc, hcb]
            rfl
          · rw [FileWQ.settle_items_]
            cases r.block with
            | true => exact .inl rfl
            | false => exact .inr rfl

/-- The timer erases the waiter. -/
theorem Inv.timeout (h : Inv s) (hpc : s.pc = .waiting) : Inv s.timeout := by
  have hcount := h.count
  rw [if_pos hpc] at hcount
  have hpos : ∃ item ∈ s.wq.items_, isConfunc item = true := by
    apply List.countP_pos_iff.mp
    rw [hcount]
    exact Nat.one_pos
  rcases hpos with ⟨item, hmem, hconfunc⟩
  rcases List.exists_of_eraseP hmem hconfunc with ⟨_, before, later, _, hfirst, hlist, herase⟩
  rw [hlist, List.countP_append, List.countP_cons_of_pos hfirst] at hcount
  refine ⟨?_, fun w hmem => ?_, fun hconn => ?_⟩
  · change (s.wq.items_.eraseP isConfunc).countP isConfunc = 0
    rw [herase, List.countP_append]
    omega
  · exact h.events w (List.mem_of_mem_eraseP hmem)
  · exact absurd hconn (h.connecting (by simp [hpc]) (by simp [hpc]))

/-- What the steps do. -/
theorem step_cases {a : Action} (hstep : step s a = some s') :
    match a with
    | .connect r => s.pc = .start ∧ s' = s.connect r
    | .waitFile found =>
        s.pc = .waitFile ∧ s' = { s with pc := if found then .queued else .returned (-1) }
    | .addWait =>
        s.pc = .queued ∧
          s' = { s with wq := s.wq.addWait (some ()) EPOLLOUT .confunc, pc := .waiting }
    | .addOther events => s' = { s with wq := s.wq.addWait none events .other }
    | .deliver events => s' = { s with wq := s.wq.addREvents events }
    | .wakeup => s' = { s with iter := some 0 }
    | .iterate ok r => ∃ iter, s.iter = some iter ∧ s' = s.iterate iter ok r
    | .timeout => s.pc = .waiting ∧ s' = s.timeout
    | .resume => ∃ ret, s.pc = .woken ret ∧ s' = { s with pc := .returned ret }
    | .establish => s.conn = .inProgress ∧ s' = { s with conn := .established }
    | .fail err => s.conn = .inProgress ∧ s' = { s with conn := .failed err } := by
  cases a with
  | connect r =>
      rcases Option.ite_none_right_eq_some.mp hstep with ⟨hpc, hstep⟩
      exact ⟨hpc, (Option.some.inj hstep).symm⟩
  | waitFile found =>
      rcases Option.ite_none_right_eq_some.mp hstep with ⟨hpc, hstep⟩
      exact ⟨hpc, (Option.some.inj hstep).symm⟩
  | addWait =>
      rcases Option.ite_none_right_eq_some.mp hstep with ⟨⟨hpc, _⟩, hstep⟩
      exact ⟨hpc, (Option.some.inj hstep).symm⟩
  | addOther events =>
      rcases Option.ite_none_right_eq_some.mp hstep with ⟨_, hstep⟩
      exact (Option.some.inj hstep).symm
  | deliver events =>
      rcases Option.ite_none_right_eq_some.mp hstep with ⟨_, hstep⟩
      exact (Option.some.inj hstep).symm
  | wakeup =>
      rcases Option.ite_none_right_eq_some.mp hstep with ⟨_, hstep⟩
      exact (Option.some.inj hstep).symm
  | iterate ok r =>
      rcases Option.map_eq_some_iff.mp hstep with ⟨iter, hiter, heq⟩
      exact ⟨iter, hiter, heq.symm⟩
  | timeout =>
      rcases Option.ite_none_right_eq_some.mp hstep with ⟨⟨hpc, _⟩, hstep⟩
      exact ⟨hpc, (Option.some.inj hstep).symm⟩
  | resume =>
      simp only [Connect.step] at hstep
      split at hstep
      · rename_i ret hpc
        exact ⟨ret, hpc, (Option.some.inj hstep).symm⟩
      · cases hstep
  | establish =>
      rcases Option.ite_none_right_eq_some.mp hstep with ⟨hconn, hstep⟩
      exact ⟨hconn, (Option.some.inj hstep).symm⟩
  | fail err =>
      rcases Option.ite_none_right_eq_some.mp hstep with ⟨⟨hconn, _⟩, hstep⟩
      exact ⟨hconn, (Option.some.inj hstep).symm⟩

theorem Inv.step (h : Inv s) {a : Action} (hstep : Connect.step s a = some s') : Inv s' := by
  have hcase := step_cases hstep
  cases a with
  | connect r =>
      rcases hcase with ⟨hpc, rfl⟩
      have hwait : s.pc ≠ .waiting := by
        rw [hpc]
        decide
      cases r with
      | success => exact h.move rfl (iff_of_false nofun hwait) nofun
      | inProgress => exact h.move rfl (iff_of_false nofun hwait) nofun
      | error => exact h.move rfl (iff_of_false nofun hwait) fun _ => .inr ⟨-1, rfl⟩
  | waitFile found =>
      rcases hcase with ⟨hpc, rfl⟩
      have hwait : s.pc ≠ .waiting := by
        rw [hpc]
        decide
      cases found with
      | true =>
          refine h.move rfl (iff_of_false nofun hwait) fun hconn => ?_
          exact absurd hconn (h.connecting (by simp [hpc]) (by simp [hpc]))
      | false => exact h.move rfl (iff_of_false nofun hwait) fun _ => .inr ⟨-1, rfl⟩
  | addWait =>
      rcases hcase with ⟨hpc, rfl⟩
      have hcount := h.count
      rw [hpc, if_neg (by decide)] at hcount
      refine ⟨?_, fun item hmem => ?_, fun hconn => ?_⟩
      · change (s.wq.items_ ++ _).countP isConfunc = 1
        rw [List.countP_append, hcount]
        rfl
      · rcases List.mem_append.mp hmem with hmem | hmem
        · exact h.events item hmem
        · rw [List.mem_singleton.mp hmem]
          exact fun _ => rfl
      · exact absurd hconn (h.connecting (by simp [hpc]) (by simp [hpc]))
  | addOther events =>
      cases hcase
      refine h.keep Iff.rfl ?_ ?_ h.begun
      · change (s.wq.items_ ++ _).countP isConfunc = _
        rw [List.countP_append]
        rfl
      · intro item hmem hconfunc
        rcases List.mem_append.mp hmem with hmem | hmem
        · exact hmem
        · rw [List.mem_singleton.mp hmem] at hconfunc
          cases hconfunc
  | deliver events =>
      cases hcase
      exact h.move rfl Iff.rfl h.begun
  | wakeup =>
      cases hcase
      exact h.move rfl Iff.rfl h.begun
  | iterate ok r =>
      rcases hcase with ⟨iter, _, rfl⟩
      exact h.iterate iter ok r
  | timeout =>
      rcases hcase with ⟨hpc, rfl⟩
      exact h.timeout hpc
  | resume =>
      rcases hcase with ⟨ret, hpc, rfl⟩
      have hwait : s.pc ≠ .waiting := by
        rw [hpc]
        nofun
      exact h.move rfl (iff_of_false nofun hwait) fun _ => .inr ⟨ret, rfl⟩
  | establish =>
      rcases hcase with ⟨_, rfl⟩
      exact h.move rfl Iff.rfl nofun
  | fail err =>
      rcases hcase with ⟨_, rfl⟩
      exact h.move rfl Iff.rfl nofun

/-! ## Which steps decide what is returned -/

/-- {lit}`confunc` finds a connection if and only if the event is not older than the end of the attempt
and the attempt has not failed. -/
theorem Inv.established_iff (h : Inv s) (hpc : s.pc = .waiting)
    (hevents : s.wq.revents_ &&& (EPOLLOUT ||| EPOLLRDHUP) ≠ 0) :
    s.conn = .established ↔ ¬ s.Stale ∧ ∀ err, s.conn ≠ .failed err := by
  constructor
  · intro hconn
    refine ⟨fun hstale => ?_, fun err hfailed => ?_⟩
    · cases hconn.symm.trans hstale.1
    · cases hconn.symm.trans hfailed
  · rintro ⟨hstale, hfailed⟩
    cases hconn : s.conn with
    | unconnected => exact absurd hconn (h.connecting (by simp [hpc]) (by simp [hpc]))
    | inProgress => exact absurd ⟨hconn, hevents⟩ hstale
    | established => rfl
    | failed err => exact absurd hconn (hfailed err)

/-- A step that leaves the result of the function open as before. -/
structure Aside (s : State) (a : Action) (s' : State) : Prop where
  probes : s.probes a = false
  truthful : s.Truthful → s'.Truthful
  woken : s'.pc = .woken 0 ↔ s.pc = .woken 0
  opened : s.pc = .woken 0 → ∀ later,
    (s'.conn = .established ∨ succeedsFirst later = true ↔
      s.conn = .established ∨ succeedsFirst (a :: later) = true)

/-- A step that ends no wait with 0 and is no progress of the attempt. -/
theorem Aside.of_conn {a : Action} (hprobes : s.probes a = false) (hconn : s'.conn = s.conn)
    (hreturned : s'.pc = .returned 0 → s.pc = .returned 0)
    (hwoken : s'.pc = .woken 0 ↔ s.pc = .woken 0)
    (hlater : ∀ later, succeedsFirst (a :: later) = succeedsFirst later) : Aside s a s' where
  probes := hprobes
  truthful h hret := hconn.trans (h (hreturned hret))
  woken := hwoken
  opened _ later := by rw [hconn, hlater]

/-- A step of a coroutine whose wait has not begun or has not ended. -/
theorem Aside.of_pending {a : Action} (hprobes : s.probes a = false) (hs : s.pc ≠ .woken 0)
    (htruthful : s'.Truthful) (hwoken : s'.pc ≠ .woken 0) : Aside s a s' where
  probes := hprobes
  truthful _ := htruthful
  woken := iff_of_false hwoken hs
  opened h := absurd h hs

/-- An iteration that does not call {lit}`confunc`, or in which {lit}`getsockopt` fails. -/
theorem Inv.aside_iterate (h : Inv s) {iter : Nat} {ok : Bool} {r : IoRet}
    (hiter : s.iter = some iter) (hprobes : s.probes (.iterate ok r) = false) :
    Aside s (.iterate ok r) (s.iterate iter ok r) := by
  have hlater : ∀ later, succeedsFirst (.iterate ok r :: later) = succeedsFirst later := by
    intro later
    rfl
  unfold State.iterate
  cases hturn : s.wq.turn iter with
  | finish => exact .of_conn hprobes rfl id Iff.rfl hlater
  | next => exact .of_conn hprobes rfl id Iff.rfl hlater
  | erase => exact .of_conn hprobes rfl id Iff.rfl hlater
  | call events cb =>
      cases cb with
      | other => exact .of_conn hprobes rfl id Iff.rfl hlater
      | confunc =>
          have hpc := (h.waiting_of_turn hturn).1
          cases ok with
          | true =>
              rw [State.probes, hiter, Option.map_some, hturn] at hprobes
              cases hprobes
          | false =>
              apply Aside.of_pending hprobes
              · rw [hpc]
                decide
              · exact nofun
              · intro hret
                have hzero : (-1 : Int32) = 0 := Pc.woken.inj hret
                exact absurd hzero (by decide)

/-- A step ends the call, calls {lit}`confunc` with a {lit}`getsockopt` that succeeds, or leaves the result
open as before. -/
theorem Inv.step_kinds (h : Inv s) {a : Action} (hstep : Connect.step s a = some s') :
    (∃ ret, a = .resume ∧ s.pc = .woken ret ∧ s' = { s with pc := .returned ret }) ∨
      (s.probes a = true ∧ s.pc = .waiting ∧
        s.wq.revents_ &&& (EPOLLOUT ||| EPOLLRDHUP) ≠ 0 ∧ s'.pc = .woken 0 ∧ s'.conn = s.conn) ∨
      Aside s a s' := by
  have hcase := step_cases hstep
  cases a with
  | connect r =>
      rcases hcase with ⟨hpc, rfl⟩
      have hs : s.pc ≠ .woken 0 := by
        rw [hpc]
        decide
      right; right
      cases r with
      | success => exact .of_pending rfl hs (fun _ => rfl) nofun
      | inProgress => exact .of_pending rfl hs nofun nofun
      | error =>
          exact .of_pending rfl hs (fun hret => absurd (Pc.returned.inj hret) (by decide)) nofun
  | waitFile found =>
      rcases hcase with ⟨hpc, rfl⟩
      have hs : s.pc ≠ .woken 0 := by
        rw [hpc]
        decide
      right; right
      cases found with
      | true => exact .of_pending rfl hs nofun nofun
      | false =>
          exact .of_pending rfl hs (fun hret => absurd (Pc.returned.inj hret) (by decide)) nofun
  | addWait =>
      rcases hcase with ⟨hpc, rfl⟩
      have hs : s.pc ≠ .woken 0 := by
        rw [hpc]
        decide
      exact .inr (.inr (.of_pending rfl hs nofun nofun))
  | addOther events =>
      cases hcase
      exact .inr (.inr (.of_conn rfl rfl id Iff.rfl fun _ => rfl))
  | deliver events =>
      cases hcase
      exact .inr (.inr (.of_conn rfl rfl id Iff.rfl fun _ => rfl))
  | wakeup =>
      cases hcase
      exact .inr (.inr (.of_conn rfl rfl id Iff.rfl fun _ => rfl))
  | iterate ok r =>
      rcases hcase with ⟨iter, hiter, rfl⟩
      right
      cases hprobes : s.probes (.iterate ok r) with
      | false => exact .inr (h.aside_iterate hiter hprobes)
      | true =>
          left
          rcases probes_iterate hiter hprobes with ⟨rfl, events, hturn⟩
          rcases h.waiting_of_turn hturn with ⟨hpc, hevents⟩
          have hafter : s.iterate iter true r = s.callConfunc iter true := by
            rw [State.iterate, hturn]
          rw [hafter]
          exact ⟨rfl, hpc, hevents, rfl, rfl⟩
  | timeout =>
      rcases hcase with ⟨hpc, rfl⟩
      right; right
      apply Aside.of_pending rfl
      · rw [hpc]
        decide
      · exact nofun
      · exact fun hret => absurd (Pc.woken.inj hret) (by decide)
  | resume =>
      rcases hcase with ⟨ret, hpc, rfl⟩
      exact .inl ⟨ret, rfl, hpc, rfl⟩
  | establish =>
      rcases hcase with ⟨_, rfl⟩
      exact .inr (.inr ⟨rfl, fun _ _ => rfl, Iff.rfl, fun _ _ => iff_of_true (.inl rfl) (.inr rfl)⟩)
  | fail err =>
      rcases hcase with ⟨hconn, rfl⟩
      have hne : s.conn ≠ .established := by
        rw [hconn]
        decide
      right; right
      refine ⟨rfl, fun htrue hret => absurd (htrue hret) hne, Iff.rfl, fun _ later => ?_⟩
      exact or_congr (iff_of_false nofun hne) Iff.rfl

/-! ## Runs -/

/-- From any state on, the function returns 0 only when the connection is established if and only
if the calls of {lit}`confunc` are sound and a result of 0 that it has given already is. -/
theorem Inv.always_iff {timed waked : Bool} {as : List Action} (h : Inv s) (htrue : s.Truthful)
    (hrun : (machine timed waked).run s as = some s') :
    (machine timed waked).Always State.Truthful s as ↔
      SoundAlong s as ∧
        (s.pc = .woken 0 → s.conn = .established ∨ succeedsFirst as = true) := by
  induction as generalizing s with
  | nil => exact iff_of_true htrue ⟨trivial, fun _ => .inr rfl⟩
  | cons a as ih =>
      rcases Machine.run_cons_eq_some.mp hrun with ⟨t, hstep, hrest⟩
      rw [Machine.always_cons hstep, soundAlong_cons hstep, and_iff_right htrue]
      have ih := ih (h.step hstep)
      rcases h.step_kinds hstep with ⟨ret, rfl, hpc, rfl⟩ | ⟨hprobes, hpc, hevents, hwoken, hconn⟩ |
        haside
      · have hsound : Sound s .resume as := fun hprobes => by cases hprobes
        rw [and_iff_right hsound]
        by_cases htrue' : State.Truthful { s with pc := .returned ret }
        · rw [ih htrue' hrest]
          refine and_congr_right fun _ => iff_of_true (fun hpc => nomatch hpc) fun hzero => ?_
          rw [hpc] at hzero
          rw [Pc.woken.inj hzero] at htrue'
          exact .inl (htrue' rfl)
        · refine iff_of_false (fun halways => htrue' halways.head) fun hend => ?_
          refine htrue' fun hzero => ?_
          rw [← Pc.returned.inj hzero] at hend
          rcases hend.2 hpc with hconn | hfirst
          · exact hconn
          · cases hfirst
      · have htrue' : t.Truthful := by
          intro hret
          cases hwoken.symm.trans hret
        have hsound : Sound s a as ↔ t.conn = .established ∨ succeedsFirst as = true := by
          rw [hconn, h.established_iff hpc hevents, Sound, forall_prop_of_true hprobes]
        have hopen : s.pc = .woken 0 →
            s.conn = .established ∨ succeedsFirst (a :: as) = true := by
          intro hzero
          cases hpc.symm.trans hzero
        rw [ih htrue' hrest, hsound, forall_prop_of_true hwoken, and_iff_left hopen]
        exact and_comm
      · have ih := ih (haside.truthful htrue) hrest
        have hsound : Sound s a as := fun hprobes => by
          rw [haside.probes] at hprobes
          cases hprobes
        rw [ih, haside.woken, and_iff_right hsound]
        exact and_congr_right fun _ => forall_congr' fun hpc => haside.opened hpc as

/-- In every state of a run the function has returned 0 only when the connection is established, if
and only if every call of {lit}`confunc` in the run is sound. -/
theorem truthful_iff {timed waked : Bool} {as : List Action}
    (hrun : (machine timed waked).run (.construct timed waked) as = some s) :
    (machine timed waked).Always State.Truthful (.construct timed waked) as ↔
      SoundAlong (.construct timed waked) as := by
  rw [(inv_construct timed waked).always_iff nofun hrun]
  exact and_iff_left nofun

/-- {lit}`EPOLLOUT` is reported only after the connection has been established. -/
def reportedAfter : List Action :=
  [.connect .inProgress, .waitFile true, .addWait, .establish, .deliver EPOLLOUT, .wakeup,
    .iterate true ⟨0, false, false⟩, .resume]

theorem reportedAfter_truthful :
    (machine false false).Always State.Truthful (.construct false false) reportedAfter := by
  apply (truthful_iff (s := _) rfl).mpr
  refine (soundAlong_cons rfl _).mpr ⟨nofun, ?_⟩
  refine (soundAlong_cons rfl _).mpr ⟨nofun, ?_⟩
  refine (soundAlong_cons rfl _).mpr ⟨nofun, ?_⟩
  refine (soundAlong_cons rfl _).mpr ⟨nofun, ?_⟩
  refine (soundAlong_cons rfl _).mpr ⟨nofun, ?_⟩
  refine (soundAlong_cons rfl _).mpr ⟨nofun, ?_⟩
  refine (soundAlong_cons rfl _).mpr ⟨fun _ => .inl ⟨nofun, nofun⟩, ?_⟩
  exact (soundAlong_cons rfl _).mpr ⟨nofun, trivial⟩

/-- The {lit}`EPOLLOUT` of the unconnected socket is reported before {lit}`::connect`. -/
def reportedBefore : List Action :=
  [.deliver EPOLLOUT, .wakeup, .iterate true ⟨0, false, false⟩, .connect .inProgress,
    .waitFile true, .addWait, .wakeup, .iterate true ⟨0, false, false⟩, .resume]

/-- The attempt is refused. -/
def refused : List Action :=
  [.connect .inProgress, .waitFile true, .addWait, .fail 111, .deliver EPOLLOUT, .wakeup,
    .iterate true ⟨0, false, false⟩, .resume]

/-- {lit}`colib::connect` returns 0 while the attempt is in progress, and after it has failed. -/
theorem connect_lies :
    (∃ s, (machine false false).run (.construct false false) reportedBefore = some s ∧
        s.conn = .inProgress ∧ ¬ s.Truthful) ∧
      ∃ s, (machine false false).run (.construct false false) refused = some s ∧
        s.conn = .failed 111 ∧ ¬ s.Truthful := by
  have hbefore : ((machine false false).run (.construct false false) reportedBefore).map
      (fun s => (s.pc, s.conn)) = some (.returned 0, .inProgress) := by decide
  have hrefused : ((machine false false).run (.construct false false) refused).map
      (fun s => (s.pc, s.conn)) = some (.returned 0, .failed 111) := by decide
  rcases Option.map_eq_some_iff.mp hbefore with ⟨s, hs, hvalues⟩
  rcases Option.map_eq_some_iff.mp hrefused with ⟨t, ht, hvalues'⟩
  have hconn : s.conn = .inProgress := congrArg Prod.snd hvalues
  have hconn' : t.conn = .failed 111 := congrArg Prod.snd hvalues'
  refine ⟨⟨s, hs, hconn, fun htrue => ?_⟩, ⟨t, ht, hconn', fun htrue => ?_⟩⟩
  · cases hconn.symm.trans (htrue (congrArg Prod.fst hvalues))
  · cases hconn'.symm.trans (htrue (congrArg Prod.fst hvalues'))

end Connect
end CoEpoll
