import CoEpoll.ASocket.WritevCall
import CoEpoll.Conn.Buffer.Fifo
import CoEpoll.Conn.Connection

/-!
# `Connection::recv`: when it returns 0

A connection whose calls of {lit}`recv` and {lit}`send` follow each other in any order, together with what the
peer does.  The kernel reads what the peer has sent, and {lit}`::readv` without segments returns 0.

Main results:

- Theorem {lit}`Session.step_cases`: what a step does to the result of {lit}`recv` and to the end of the stream.
- Theorem {lit}`Session.endOnly_iff`: {lit}`recv` returns 0 only at the end of the stream if and only if every
  {lit}`::readv` finds room in the buffer or the stream at its end.
- Theorem {lit}`Session.recv_zero_unread`: behind a failed {lit}`send` it can return 0 with a byte unread.
-/

namespace CoEpoll
namespace Connection

open Transition Irq Colib Ring

/-- Which call is under way. -/
inductive SessionPhase (α : Type*) where
  | idle
  | recv
  | send (call : WritevCall α)

/-- A connection with its buffer: the bytes of the peer that have not been read, whether the peer
has closed its side, and what the last {lit}`recv` has returned. -/
structure Session (α : Type*) where
  buf : Buffer α
  phase : SessionPhase α
  incoming : List α
  closed : Bool
  returned : Option Int

namespace Session

variable {α : Type*}

/-- A new connection and a new buffer. -/
def construct [Inhabited α] (size : UInt16) (hsize : 0 < size) : Session α where
  buf := .construct size hsize
  phase := .idle
  incoming := []
  closed := false
  returned := none

inductive Action (α : Type*) where
  /-- {lit}`recv` is called. -/
  | callRecv
  /-- {lit}`send` is called. -/
  | callSend
  /-- {lit}`waitFile` does not find the descriptor. -/
  | missing
  /-- {lit}`::readv` returns. -/
  | readv (r : SysRet)
  /-- The callback of {lit}`colib::writev` is invoked, or its {lit}`::writev` returns. -/
  | writev (a : WritevCall.Action)
  /-- The coroutine is resumed behind {lit}`colib::writev`. -/
  | resume
  /-- The peer sends {lit}`xs`. -/
  | peerSend (xs : List α)
  /-- The peer closes its side. -/
  | peerClose

/-- The peer has closed its side and all its bytes have been read. -/
def AtEnd (s : Session α) : Prop :=
  s.closed = true ∧ s.incoming = []

instance (s : Session α) : Decidable s.AtEnd :=
  inferInstanceAs (Decidable (_ ∧ _))

/-- {lit}`::readv` can have this outcome: it returns 0 without segments, and else only at the end of the
stream. -/
def Readable (s : Session α) : SysRet → Prop
  | .ok n => n ≤ s.incoming.length ∧ n ≤ total (s.buf.data false) ∧
      (n = 0 → s.buf.data false = [] ∨ s.AtEnd)
  | _ => s.buf.data false ≠ []

instance (s : Session α) (r : SysRet) : Decidable (s.Readable r) :=
  match r with
  | .ok n => inferInstanceAs (Decidable (n ≤ s.incoming.length ∧ n ≤ total (s.buf.data false) ∧
      (n = 0 → s.buf.data false = [] ∨ s.AtEnd)))
  | .eintr | .wouldBlock | .error => inferInstanceAs (Decidable (s.buf.data false ≠ []))

/-- The bytes that {lit}`::readv` writes to the segments. -/
def bytes (s : Session α) : SysRet → List α
  | .ok n => s.incoming.take n
  | _ => []

theorem length_bytes_le {s : Session α} {r : SysRet} (h : s.Readable r) :
    (s.bytes r).length ≤ s.buf.writeableCap.toNat := by
  cases r with
  | ok n =>
      rw [← s.buf.agrees.total, bytes, List.length_take]
      exact Nat.le_trans (Nat.min_le_left _ _) h.2.1
  | eintr => exact Nat.zero_le _
  | wouldBlock => exact Nat.zero_le _
  | error => exact Nat.zero_le _

/-- The coroutine is resumed behind {lit}`colib::readv`, which has written {lit}`xs` to {lit}`buf`. -/
def recvd (s : Session α) (buf : Buffer α) (xs : List α) (n : Int32) : Session α :=
  let r := recv buf n
  { s with
    buf := r.1
    phase := .idle
    incoming := s.incoming.drop xs.length
    returned := some r.2 }

/-- The callback of {lit}`colib::readv` after its system call. -/
def readv (s : Session α) (r : SysRet) (h : s.Readable r) : Session α :=
  match (WQCB.readv : WQCB α).resume r with
  | none => s
  | some (ret, _) =>
      if ret.block then s
      else s.recvd (s.buf.fill (s.bytes r) (length_bytes_le h)) (s.bytes r) ret.ret

/-- The coroutine is resumed behind {lit}`colib::writev`, which has returned {lit}`n`. -/
def sendDone (s : Session α) (n : Int32) : Session α :=
  { s with buf := (send s.buf n).1, phase := .idle }

/-- {lit}`waitFile` returns -1 before it waits. -/
def missing (s : Session α) : Option (Session α) :=
  match s.phase with
  | .idle => none
  | .recv => some (s.recvd s.buf [] (-1))
  | .send call =>
      match call.phase, call.last with
      | .idle, none => some (s.sendDone (-1))
      | _, _ => none

/-- One step. -/
def step (s : Session α) : Action α → Option (Session α)
  | .callRecv =>
      match s.phase with
      | .idle => some { s with phase := .recv }
      | _ => none
  | .callSend =>
      match s.phase with
      | .idle => some { s with phase := .send (.construct 0 (s.buf.iovec true)) }
      | _ => none
  | .missing => s.missing
  | .readv r =>
      match s.phase with
      | .recv => if h : s.Readable r then some (s.readv r h) else none
      | _ => none
  | .writev a =>
      match s.phase with
      | .send call => (call.step a).map fun call => { s with phase := .send call }
      | _ => none
  | .resume =>
      match s.phase with
      | .send call =>
          match call.last with
          | some r => if r.block then none else some (s.sendDone r.ret)
          | none => none
      | _ => none
  | .peerSend xs => if s.closed then none else some { s with incoming := s.incoming ++ xs }
  | .peerClose => some { s with closed := true }

/-- A connection under any calls and outcomes. -/
def machine [Inhabited α] (size : UInt16) (hsize : 0 < size) :
    Machine (Session α) (Action α) where
  init s := s = construct size hsize
  step := step

/-- The last {lit}`recv` has not returned 0 before the end of the stream. -/
def EndOnly (s : Session α) : Prop :=
  s.returned = some 0 → s.AtEnd

/-- {lit}`::readv` finds room in the buffer or the stream at its end. -/
def RoomOrEnd (s : Session α) : Action α → Prop
  | .readv _ => s.buf.writeable = true ∨ s.AtEnd
  | _ => True

variable {s s' : Session α} {a : Action α}

/-! ## The steps -/

/-- A system call that does not return a count has room. -/
theorem Readable.writeable {r : SysRet} (h : s.Readable r) (hr : ∀ n, r ≠ .ok n) :
    s.buf.writeable = true := by
  have hdata : s.buf.data false ≠ [] := by
    cases r with
    | ok n => exact absurd rfl (hr n)
    | eintr => exact h
    | wouldBlock => exact h
    | error => exact h
  exact not_not.mp (mt (Buffer.data_false_eq_nil _).mpr hdata)

/-- A system call that returns a positive count has room. -/
theorem Readable.writeable_of_pos {n : Nat} (h : s.Readable (.ok n)) (hn : n ≠ 0) :
    s.buf.writeable = true := by
  by_contra hfull
  have hdata := s.buf.data_false_eq_nil.mpr hfull
  have hle : n ≤ total (s.buf.data false) := h.2.1
  rw [hdata] at hle
  exact hn (Nat.le_zero.mp hle)

/-- What has been read is what {lit}`recv` returns, and it is left out of the stream. -/
theorem readv_ok {n : Nat} (h : s.Readable (.ok n)) :
    (s.readv (.ok n) h).returned = some (n : Int) ∧ (s.readv (.ok n) h).closed = s.closed ∧
      (s.readv (.ok n) h).incoming = s.incoming.drop n := by
  have hcap := s.buf.writeableCap.toNat_lt
  have hlen : (s.bytes (.ok n)).length = n := by
    rw [bytes, List.length_take, Nat.min_eq_left h.1]
  have hle := length_bytes_le h
  rw [hlen] at hle
  have hn : (Int32.ofNat n).toInt = (s.bytes (.ok n)).length := by
    rw [hlen, Int32.toInt_ofNat_of_lt (by omega)]
  have hfill := recv_fill (length_bytes_le h) hn
  rw [hlen] at hfill
  refine ⟨congrArg some hfill.2.2, rfl, ?_⟩
  change s.incoming.drop (s.bytes (.ok n)).length = _
  rw [hlen]

/-- A failed wait leaves the stream as it is. -/
theorem recvd_failed (buf : Buffer α) :
    (s.recvd buf [] (-1)).returned = some (-1) ∧ (s.recvd buf [] (-1)).closed = s.closed ∧
      (s.recvd buf [] (-1)).incoming = s.incoming :=
  ⟨rfl, rfl, List.drop_zero⟩

/-- Other outcomes of {lit}`::readv` leave the stream as it is. -/
theorem readv_failed {r : SysRet} (h : s.Readable r) (hr : ∀ n, r ≠ .ok n) :
    ((s.readv r h).returned = s.returned ∨ (s.readv r h).returned = some (-1)) ∧
      (s.readv r h).closed = s.closed ∧ (s.readv r h).incoming = s.incoming := by
  cases r with
  | ok n => exact absurd rfl (hr n)
  | eintr => exact ⟨.inl rfl, rfl, rfl⟩
  | wouldBlock => exact ⟨.inl rfl, rfl, rfl⟩
  | error => exact (recvd_failed _).imp_left .inr


/-- A step in which no {lit}`::readv` returns a count. -/
structure Uncounted (s : Session α) (a : Action α) (s' : Session α) : Prop where
  room : RoomOrEnd s a
  returned : s'.returned = s.returned ∨ s'.returned = some (-1)
  atEnd : s.AtEnd → s'.AtEnd

/-- A step that changes neither the stream nor the result. -/
theorem uncounted_of_eq (hroom : RoomOrEnd s a) (hreturned : s'.returned = s.returned)
    (hclosed : s'.closed = s.closed) (hincoming : s'.incoming = s.incoming) :
    Uncounted s a s' where
  room := hroom
  returned := .inl hreturned
  atEnd h := ⟨hclosed.trans h.1, hincoming.trans h.2⟩

theorem uncounted_missing (hstep : s.missing = some s') : Uncounted s .missing s' := by
  unfold missing at hstep
  split at hstep
  · cases hstep
  · cases hstep
    have hfailed := recvd_failed (s := s) s.buf
    exact ⟨trivial, .inr hfailed.1, fun h => ⟨hfailed.2.1.trans h.1, hfailed.2.2.trans h.2⟩⟩
  · split at hstep
    · cases hstep
      exact uncounted_of_eq trivial rfl rfl rfl
    · cases hstep

/-- What a step does to the result of {lit}`recv` and to the end of the stream. -/
theorem step_cases (hstep : s.step a = some s') :
    Uncounted s a s' ∨
      ∃ n, a = .readv (.ok n) ∧ s.Readable (.ok n) ∧ s'.returned = some (n : Int) ∧
        s'.closed = s.closed ∧ s'.incoming = s.incoming.drop n := by
  cases a with
  | callRecv =>
      simp only [step] at hstep
      split at hstep
      · cases hstep
        exact .inl (uncounted_of_eq trivial rfl rfl rfl)
      · cases hstep
  | callSend =>
      simp only [step] at hstep
      split at hstep
      · cases hstep
        exact .inl (uncounted_of_eq trivial rfl rfl rfl)
      · cases hstep
  | missing => exact .inl (uncounted_missing hstep)
  | readv r =>
      simp only [step] at hstep
      split at hstep
      · rcases Option.dite_none_right_eq_some.mp hstep with ⟨h, hstep⟩
        cases hstep
        by_cases hr : ∃ n, r = .ok n
        · rcases hr with ⟨n, rfl⟩
          exact .inr ⟨n, rfl, h, readv_ok h⟩
        · have hr : ∀ n, r ≠ .ok n := fun n hn => hr ⟨n, hn⟩
          rcases readv_failed h hr with ⟨hreturned, hclosed, hincoming⟩
          exact .inl ⟨.inl (h.writeable hr), hreturned,
            fun hend => ⟨hclosed.trans hend.1, hincoming.trans hend.2⟩⟩
      · cases hstep
  | writev a =>
      simp only [step] at hstep
      split at hstep
      · rcases Option.map_eq_some_iff.mp hstep with ⟨call, _, rfl⟩
        exact .inl (uncounted_of_eq trivial rfl rfl rfl)
      · cases hstep
  | resume =>
      simp only [step] at hstep
      split at hstep
      · split at hstep
        · rcases Option.ite_none_left_eq_some.mp hstep with ⟨_, hstep⟩
          cases hstep
          exact .inl (uncounted_of_eq trivial rfl rfl rfl)
        · cases hstep
      · cases hstep
  | peerSend xs =>
      rcases Option.ite_none_left_eq_some.mp hstep with ⟨hopen, hstep⟩
      cases hstep
      exact .inl ⟨trivial, .inl rfl, fun h => absurd h.1 hopen⟩
  | peerClose =>
      cases hstep
      exact .inl ⟨trivial, .inl rfl, fun h => ⟨rfl, h.2⟩⟩

/-- A step keeps the end of the stream apart from a full buffer if and only if it finds room or the
stream at its end. -/
theorem endOnly_step_iff (hend : s.EndOnly) (hstep : s.step a = some s') :
    s'.EndOnly ↔ RoomOrEnd s a := by
  rcases step_cases hstep with hother | ⟨n, rfl, h, hreturned, hclosed, hincoming⟩
  · refine iff_of_true (fun hzero => ?_) hother.room
    rcases hother.returned with heq | heq
    · exact hother.atEnd (hend (heq.symm.trans hzero))
    · exact absurd (heq.symm.trans hzero) (by decide)
  · by_cases hn : n = 0
    · have hsame : s'.AtEnd ↔ s.AtEnd := by
        rw [AtEnd, AtEnd, hclosed, hincoming, hn, List.drop_zero]
      have hzero : s'.returned = some 0 := by
        rw [hreturned, hn]
        rfl
      rw [EndOnly, imp_iff_right hzero, hsame, RoomOrEnd]
      refine ⟨.inr, ?_⟩
      rintro (hroom | hatEnd)
      · have hdata := mt s.buf.data_false_eq_nil.mp (not_not.mpr hroom)
        exact (h.2.2 hn).resolve_left hdata
      · exact hatEnd
    · refine iff_of_true (fun hzero => ?_) (.inl (h.writeable_of_pos hn))
      have hcount := Option.some.inj (hreturned.symm.trans hzero)
      exact absurd (Int.natCast_eq_zero.mp hcount) hn

/-! ## Runs -/

/-- In every run from a new connection, {lit}`recv` has returned 0 only at the end of the stream if and
only if every {lit}`::readv` has found room in the buffer or the stream at its end. -/
theorem endOnly_iff [Inhabited α] (size : UInt16) (hsize : 0 < size) {as : List (Action α)}
    (hrun : (machine size hsize).run (construct size hsize) as = some s) :
    (machine size hsize).Always EndOnly (construct size hsize) as ↔
      (machine size hsize).Along RoomOrEnd (construct size hsize) as := by
  have hinit : (construct size hsize : Session α).EndOnly := fun hzero => nomatch hzero
  exact Machine.always_iff_along (I := fun _ => True) (fun _ _ _ _ _ => trivial)
    (fun _ _ _ _ hend hstep => endOnly_step_iff hend hstep) trivial hinit hrun

/-- The peer sends two bytes and closes its side, and {lit}`send` empties the buffer before the next {lit}`recv`. -/
def echoed : List (Action UInt8) :=
  [.peerSend [1, 2], .callRecv, .readv (.ok 2), .callSend, .writev (.invoke 0),
    .writev (.sysret (.ok 2)), .resume, .peerClose, .callRecv, .readv (.ok 0)]

theorem endOnly_iff_echo :
    ∃ s : Session UInt8, s.returned = some 0 ∧
      (machine 3 (by decide)).Always EndOnly (construct 3 (by decide)) echoed := by
  have hrun : ((machine 3 (by decide)).run (construct 3 (by decide) : Session UInt8) echoed).map
      Session.returned = some (some 0) := by
    decide +kernel
  rcases Option.map_eq_some_iff.mp hrun with ⟨s, hs, hzero⟩
  refine ⟨s, hzero, (endOnly_iff 3 (by decide) hs).mpr ?_⟩
  refine (Machine.along_cons rfl _).mpr ⟨trivial, ?_⟩
  refine (Machine.along_cons rfl _).mpr ⟨trivial, ?_⟩
  refine (Machine.along_cons rfl _).mpr ⟨.inl rfl, ?_⟩
  refine (Machine.along_cons rfl _).mpr ⟨trivial, ?_⟩
  refine (Machine.along_cons rfl _).mpr ⟨trivial, ?_⟩
  refine (Machine.along_cons rfl _).mpr ⟨trivial, ?_⟩
  refine (Machine.along_cons rfl _).mpr ⟨trivial, ?_⟩
  refine (Machine.along_cons rfl _).mpr ⟨trivial, ?_⟩
  refine (Machine.along_cons rfl _).mpr ⟨trivial, ?_⟩
  exact (Machine.along_cons rfl _).mpr ⟨.inl rfl, trivial⟩

/-- The peer sends three bytes and closes its side.  The buffer holds two of them, {lit}`send` fails on
{lit}`EPOLLRDHUP`, and the next {lit}`recv` returns 0 with the third byte unread. -/
theorem recv_zero_unread :
    ¬ ∀ s : Session UInt8, (machine 3 (by decide)).Reachable s → s.EndOnly := by
  intro hclaim
  have hrun : ((machine 3 (by decide)).run (construct 3 (by decide) : Session UInt8)
      [.peerSend [1, 2, 3], .peerClose, .callRecv, .readv (.ok 2), .callSend,
        .writev (.invoke EPOLLRDHUP), .resume, .callRecv, .readv (.ok 0)]).map
          (fun s => (s.returned, s.incoming)) = some (some 0, [3]) := by
    decide +kernel
  rcases Option.map_eq_some_iff.mp hrun with ⟨s, hs, hvalues⟩
  have hzero : s.returned = some 0 := congrArg Prod.fst hvalues
  have hunread : s.incoming = [3] := congrArg Prod.snd hvalues
  have hend := hclaim s ⟨_, _, rfl, hs⟩ hzero
  exact absurd (hunread.symm.trans hend.2) (by decide)

end Session
end Connection
end CoEpoll
