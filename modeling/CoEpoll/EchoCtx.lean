import CoEpoll.ASocket.Bookkeeping
import CoEpoll.Conn.Buffer.Fifo
import CoEpoll.Conn.Connection

/-!
# `EchoCtx`: a connection that is sent back what it sends

The coroutine receives into its buffer and sends what the buffer holds, round by round.  The
outcome of every system call is an action, and so is every invocation of the callback of
{lit}`colib::writev`.  The descriptor stays registered until the coroutine closes it.

Main results:

- Theorem {lit}`Inv.recvd`, {lit}`Inv.writev`, {lit}`Inv.sent`: the parts of a round keep the bytes that are under way
  in the buffer.
- Theorem {lit}`echo_faithful`: what has been accepted is always a prefix of what has been received,
  and all of it when the coroutine receives.
-/

namespace CoEpoll

open Transition Irq Colib Ring

/-- Where {lit}`EchoCtx::run` is. -/
inductive EchoPhase where
  /-- In {lit}`__localConn->recv(__rxBuf)`. -/
  | recv
  /-- In {lit}`__localConn->send(__rxBuf)`. -/
  | send (call : WritevCall UInt8)
  /-- Behind the loop. -/
  | close

/-- {lit}`EchoCtx`, with the bytes that the kernel has delivered and those that it has accepted in the
calls of {lit}`send` that have returned. -/
structure EchoCtx where
  __rxBuf : Buffer UInt8
  phase : EchoPhase
  received : List UInt8
  sent : List UInt8

namespace EchoCtx

/-- {lit}`EchoCtx::EchoCtx`, and {lit}`run` up to its first {lit}`recv`. -/
def construct : EchoCtx where
  __rxBuf := .construct 1024 Buffer.zero_lt_1024
  phase := .recv
  received := []
  sent := []

/-- All bytes that the kernel has accepted. -/
def accepted (s : EchoCtx) : List UInt8 :=
  match s.phase with
  | .send call => s.sent ++ call.accepted
  | _ => s.sent

inductive Action where
  /-- {lit}`::readv` returns and has written {lit}`xs`. -/
  | readv (r : SysRet) (xs : List UInt8)
  /-- The callback of {lit}`colib::writev` is invoked, or its {lit}`::writev` returns. -/
  | writev (a : WritevCall.Action)
  /-- The coroutine is resumed behind {lit}`colib::writev`. -/
  | resume

/-- {lit}`::readv` has written as many bytes as it returns. -/
def Written (r : SysRet) (xs : List UInt8) : Prop :=
  match r with
  | .ok n => xs.length = n
  | _ => xs = []

instance (r : SysRet) (xs : List UInt8) : Decidable (Written r xs) :=
  match r with
  | .ok n => inferInstanceAs (Decidable (xs.length = n))
  | .eintr | .wouldBlock | .error => inferInstanceAs (Decidable (xs = []))

/-- The coroutine is resumed behind {lit}`colib::readv`, which has written {lit}`xs` to {lit}`buf`. -/
def recvd (s : EchoCtx) (buf : Buffer UInt8) (xs : List UInt8) (n : Int32) : EchoCtx :=
  let r := Connection.recv buf n
  { s with
    __rxBuf := r.1
    phase := if r.2 > 0 then .send (.construct 0 (r.1.iovec true)) else .close
    received := s.received ++ xs }

/-- The callback of {lit}`colib::readv` after its system call. -/
def readv (s : EchoCtx) (r : SysRet) (xs : List UInt8)
    (hxs : xs.length ≤ s.__rxBuf.writeableCap.toNat) : EchoCtx :=
  match (WQCB.readv : WQCB UInt8).resume r with
  | none => s
  | some (ret, _) => if ret.block then s else s.recvd (s.__rxBuf.fill xs hxs) xs ret.ret

/-- The coroutine is resumed behind {lit}`colib::writev`, which has returned {lit}`n`. -/
def sendDone (s : EchoCtx) (call : WritevCall UInt8) (n : Int32) : EchoCtx :=
  { s with
    __rxBuf := (Connection.send s.__rxBuf n).1
    phase := .recv
    sent := s.sent ++ call.accepted }

/-- One step. -/
def step (s : EchoCtx) : Action → Option EchoCtx
  | .readv r xs =>
      match s.phase with
      | .recv =>
          if h : xs.length ≤ s.__rxBuf.writeableCap.toNat ∧ Written r xs then
            some (s.readv r xs h.1)
          else none
      | _ => none
  | .writev a =>
      match s.phase with
      | .send call => (call.step a).map fun call => { s with phase := .send call }
      | _ => none
  | .resume =>
      match s.phase with
      | .send call =>
          match call.last with
          | some r => if r.block then none else some (s.sendDone call r.ret)
          | none => none
      | _ => none

/-- A connection under any outcomes of its system calls. -/
def machine : Machine EchoCtx Action where
  init s := s = construct
  step := step

/-- {lit}`colib::writev` sees no {lit}`EPOLLRDHUP` and no hard error. -/
def Unbroken : Action → Prop
  | .writev a => WritevCall.Unbroken a
  | _ => True

instance (a : Action) : Decidable (Unbroken a) := by
  cases a <;> unfold Unbroken <;> infer_instance

/-- A connection whose calls of {lit}`send` are not broken off. -/
def unbrokenMachine : Machine EchoCtx Action :=
  machine.restrict fun _ a => Unbroken a

/-! ## One round -/

/-- Nothing is under way while the coroutine receives; while it sends, the buffer holds what has
been received last. -/
structure Inv (s : EchoCtx) : Prop where
  size : s.__rxBuf.__size = 1024
  recv : s.phase = .recv → s.__rxBuf.contents = [] ∧ s.sent = s.received
  send : ∀ call, s.phase = .send call → s.__rxBuf.contents ≠ [] ∧
    s.received = s.sent ++ s.__rxBuf.contents ∧ WritevCall.Inv (s.__rxBuf.iovec true) call
  close : s.phase = .close → s.sent = s.received

variable {s s' : EchoCtx}

theorem inv_construct : Inv construct where
  size := rfl
  recv _ := ⟨List.eq_nil_of_length_eq_zero (Buffer.length_contents _), rfl⟩
  send _ h := nomatch h
  close h := nomatch h

/-- What has been received goes into the buffer and is handed to {lit}`send`. -/
theorem Inv.recvd (h : Inv s) (hphase : s.phase = .recv) {xs : List UInt8}
    (hxs : xs.length ≤ s.__rxBuf.writeableCap.toNat) {n : Int32} (hn : n.toInt = xs.length) :
    Inv (s.recvd (s.__rxBuf.fill xs hxs) xs n) := by
  rcases h.recv hphase with ⟨hempty, hall⟩
  rcases Connection.recv_fill hxs hn with ⟨hcontents, hsize, hcount⟩
  rw [hempty, List.nil_append] at hcontents
  have hflag : (Connection.recv (s.__rxBuf.fill xs hxs) n).2 > 0 ↔ xs ≠ [] := by
    rw [hcount, ← List.length_pos_iff]
    omega
  refine ⟨hsize.trans h.size, ?_, ?_, ?_⟩
  · intro hrecv
    dsimp only [EchoCtx.recvd] at hrecv
    split at hrecv <;> cases hrecv
  · intro call hsend
    dsimp only [EchoCtx.recvd] at hsend ⊢
    by_cases hpos : (Connection.recv (s.__rxBuf.fill xs hxs) n).2 > 0
    · rw [if_pos hpos] at hsend
      cases hsend
      have hne : (Connection.recv (s.__rxBuf.fill xs hxs) n).1.contents ≠ [] := by
        rw [hcontents]
        exact hflag.mp hpos
      exact ⟨hne, by rw [hcontents, hall],
        WritevCall.inv_construct (Buffer.iovec_ne_nil hne)⟩
    · rw [if_neg hpos] at hsend
      cases hsend
  · intro hclose
    dsimp only [EchoCtx.recvd] at hclose ⊢
    by_cases hpos : (Connection.recv (s.__rxBuf.fill xs hxs) n).2 > 0
    · rw [if_pos hpos] at hclose
      cases hclose
    · rw [not_not.mp (mt hflag.mpr hpos), List.append_nil]
      exact hall

/-- A coroutine that has received nothing leaves the loop. -/
theorem Inv.failed (h : Inv s) (hphase : s.phase = .recv)
    (hxs : [].length ≤ s.__rxBuf.writeableCap.toNat) :
    Inv (s.recvd (s.__rxBuf.fill [] hxs) [] (-1)) where
  size := h.size
  recv hrecv := nomatch hrecv
  send _ hsend := nomatch hsend
  close _ := by
    dsimp only [EchoCtx.recvd]
    rw [List.append_nil]
    exact (h.recv hphase).2

theorem Inv.readv (h : Inv s) (hphase : s.phase = .recv) {r : SysRet} {xs : List UInt8}
    (hxs : xs.length ≤ s.__rxBuf.writeableCap.toNat) (hwritten : Written r xs) :
    Inv (s.readv r xs hxs) := by
  cases r with
  | eintr => exact h
  | wouldBlock => exact h
  | error =>
      cases hwritten
      exact h.failed hphase hxs
  | ok n =>
      have hlen : xs.length = n := hwritten
      have hcap := s.__rxBuf.writeableCap.toNat_lt
      have hn : (Int32.ofNat n).toInt = xs.length := by
        rw [Int32.toInt_ofNat_of_lt (by omega), hlen]
      exact h.recvd hphase hxs hn

/-- A step of the callback of {lit}`colib::writev` leaves the buffer as it is. -/
theorem Inv.writev (h : Inv s) {call call' : WritevCall UInt8} (hphase : s.phase = .send call)
    {a : WritevCall.Action} (hok : WritevCall.Unbroken a) (hstep : call.step a = some call') :
    Inv { s with phase := .send call' } where
  size := h.size
  recv hrecv := nomatch hrecv
  send _ hsend := by
    cases hsend
    rcases h.send call hphase with ⟨hne, hall, hcall⟩
    exact ⟨hne, hall, hcall.step s.__rxBuf.length_iovec_le hok hstep⟩
  close hclose := nomatch hclose

/-- A call of {lit}`send` that returns has sent all that the buffer held. -/
theorem Inv.sent (h : Inv s) {call : WritevCall UInt8} (hphase : s.phase = .send call)
    {r : IoRet} (hlast : call.last = some r) (hblock : r.block = false) :
    Inv (s.sendDone call r.ret) := by
  rcases h.send call hphase with ⟨_, hall, hcall⟩
  rcases hcall.returned hlast hblock with ⟨haccepted, hret⟩
  rw [Buffer.flatten_iovec] at haccepted hret
  rw [Buffer.length_contents] at hret
  rcases Connection.send_all hret with ⟨hempty, hsize⟩
  refine ⟨hsize.trans h.size, fun _ => ⟨hempty, ?_⟩, nofun, nofun⟩
  dsimp only [EchoCtx.sendDone]
  rw [haccepted, hall]

theorem inductive_inv : unbrokenMachine.Inductive Inv where
  init := by
    rintro _ rfl
    exact inv_construct
  step := by
    intro s a s' h hstep
    rcases Machine.restrict_step_eq_some.mp hstep with ⟨hok, hstep⟩
    cases a with
    | readv r xs =>
        simp only [machine, step] at hstep
        split at hstep
        · rename_i hphase
          split at hstep
          · rename_i hin
            cases hstep
            exact h.readv hphase hin.1 hin.2
          · cases hstep
        · cases hstep
    | writev a =>
        simp only [machine, step] at hstep
        split at hstep
        · rename_i call hphase
          rcases Option.map_eq_some_iff.mp hstep with ⟨call', hcall, rfl⟩
          exact h.writev hphase hok hcall
        · cases hstep
    | resume =>
        simp only [machine, step] at hstep
        split at hstep
        · rename_i call hphase
          split at hstep
          · rename_i r hlast
            split at hstep
            · cases hstep
            · rename_i hblock
              cases hstep
              exact h.sent hphase hlast (Bool.eq_false_iff.mpr hblock)
          · cases hstep
        · cases hstep

/-! ## The echo -/

/-- What has been accepted is what has been received, up to what is still under way; nothing is
when the coroutine receives. -/
structure Faithful (s : EchoCtx) : Prop where
  accepted : s.accepted <+: s.received
  idle : s.phase = .recv → s.accepted = s.received ∧ s.__rxBuf.readable = false ∧
    s.__rxBuf.contents = [] ∧ s.__rxBuf.writeableCap = s.__rxBuf.getCap ∧
    total (s.__rxBuf.data false) = s.__rxBuf.getCap.toNat

theorem Inv.faithful (h : Inv s) : Faithful s where
  accepted := by
    unfold EchoCtx.accepted
    cases hphase : s.phase with
    | recv => exact (h.recv hphase).2 ▸ List.prefix_refl _
    | send call =>
        rcases h.send call hphase with ⟨_, hall, hcall⟩
        dsimp only
        rw [hall, List.prefix_append_right_inj, hcall.accepted, Buffer.flatten_iovec]
        exact List.take_prefix _ _
    | close => exact h.close hphase ▸ List.prefix_refl _
  idle hphase := by
    rcases h.recv hphase with ⟨hempty, hall⟩
    have hlen : s.__rxBuf.length = 0 := by
      rw [← Buffer.length_contents, hempty, List.length_nil]
    have hcap : s.__rxBuf.writeableCap = s.__rxBuf.getCap := by
      apply UInt16.toNat_inj.mp
      rw [Buffer.toNat_writeableCap, hlen, Buffer.getCap, h.size]
      decide
    have haccepted : s.accepted = s.received := by
      rw [EchoCtx.accepted, hphase]
      exact hall
    refine ⟨haccepted, ?_, hempty, hcap, ?_⟩
    · rw [Bool.eq_false_iff, ne_eq, Buffer.readable_iff]
      exact not_not.mpr hlen
    · rw [← hcap]
      exact s.__rxBuf.agrees.total

/-- In every run whose calls of {lit}`send` are not broken off, what has been accepted is a prefix of
what has been received; when the coroutine receives it is all of it, and the buffer is empty and
offers its whole capacity. -/
theorem echo_faithful (s : EchoCtx) (hs : unbrokenMachine.Reachable s) : Faithful s :=
  (inductive_inv.reachable hs).faithful

/-- Two rounds, the first of which is sent in two parts. -/
theorem echo_faithful_two :
    ∃ s : EchoCtx, s.accepted = [1, 2, 3, 4] ∧ Faithful s := by
  have hrun : (unbrokenMachine.run construct
      [.readv .wouldBlock [], .readv (.ok 3) [1, 2, 3], .writev (.invoke 0),
        .writev (.sysret (.ok 2)), .writev (.invoke 0), .writev (.sysret .eintr),
        .writev (.sysret (.ok 1)), .resume, .readv (.ok 2) [4, 5], .writev (.invoke 0),
        .writev (.sysret (.ok 1))]).map EchoCtx.accepted = some [1, 2, 3, 4] := by
    decide +kernel
  rcases Option.map_eq_some_iff.mp hrun with ⟨s, hs, haccepted⟩
  exact ⟨s, haccepted, echo_faithful s ⟨_, _, rfl, hs⟩⟩

end EchoCtx
end CoEpoll
