import CoEpoll.Sock5Ctxt.Handlers

/-!
# `Sock5Ctxt`: the two relays of a linked session

From {lit}`SOCK_LINKED` on the loops of {lit}`run` and of {lit}`handleRLink` are at work at the same time, each of
them with a buffer of its own; they share {lit}`__linkflag`.  Every access to the flag, every {lit}`recv` and
every {lit}`send` is a step, and so are {lit}`__rf.get()` and the calls of {lit}`close` behind the loop of {lit}`run`.
{lit}`__rf.get()` is taken as a join that returns once.

Main results:

- Theorem {lit}`relay_lossless`: under every interleaving nothing that has been received is lost or
  passed on in another order, and what is sent is exactly that when the sends succeed.
- Theorem {lit}`relay_ends`: the connections are closed once each, after both loops have ended; when
  one peer has ended its stream the session comes to its end within nine steps.
- Theorem {lit}`session_relayed`: the session whose passes are single steps is one of the
  interleavings.
-/

namespace CoEpoll

open Transition Ring

/-! ## One loop -/

/-- Where a loop is that passes on what it receives. -/
inductive PumpPhase where
  /-- At {lit}`while (__linkflag)`. -/
  | test
  | recv
  | send
  /-- Behind the loop. -/
  | left
deriving DecidableEq

/-- The loop of {lit}`run` from {lit}`SOCK_LINKED` on or the one of {lit}`handleRLink`, with the bytes that it has
received and those that its sends have been rid of. -/
structure Pump where
  buf : Buffer UInt8
  phase : PumpPhase
  received : List UInt8
  sent : List UInt8

namespace Pump

inductive Action where
  /-- {lit}`__linkflag` is read. -/
  | test
  /-- {lit}`recv` returns and has put {lit}`xs` into the buffer. -/
  | recv (xs : List UInt8)
  /-- {lit}`recv` returns -1. -/
  | recvFailed
  /-- {lit}`send` returns. -/
  | send (r : SendRet)

/-- A loop that begins. -/
def start (buf : Buffer UInt8) : Pump where
  buf := buf
  phase := .test
  received := []
  sent := []

/-- The loop behind its {lit}`recv`, and {lit}`__linkflag`. -/
def recvd (p : Pump) (linkflag : Bool) (ret : Buffer UInt8 × Int) (xs : List UInt8) :
    Pump × Bool :=
  if ret.2 > 0 then
    ({ p with buf := ret.1, phase := .send, received := p.received ++ xs }, linkflag)
  else ({ p with buf := ret.1, phase := .test, received := p.received ++ xs }, false)

/-- The loop behind its {lit}`send`. -/
def sendDone (p : Pump) (r : SendRet) : Pump :=
  { p with
    buf := (Sock5Ctxt.sendBuf p.buf r).1
    phase := .test
    sent := p.sent ++ (Sock5Ctxt.sendBuf p.buf r).2 }

/-- One step, and {lit}`__linkflag` afterwards. -/
def step (p : Pump) (linkflag : Bool) : Action → Option (Pump × Bool)
  | .test =>
      match p.phase with
      | .test => some ({ p with phase := if linkflag then .recv else .left }, linkflag)
      | _ => none
  | .recv xs =>
      match p.phase with
      | .recv =>
          if h : xs.length ≤ p.buf.writeableCap.toNat then
            some (p.recvd linkflag (Connection.recv (p.buf.fill xs h) (.ofNat xs.length)) xs)
          else none
      | _ => none
  | .recvFailed =>
      match p.phase with
      | .recv => some (p.recvd linkflag (Connection.recv p.buf (-1)) [])
      | _ => none
  | .send r =>
      match p.phase with
      | .send => some (p.sendDone r, linkflag)
      | _ => none

/-- A {lit}`send` is not broken off. -/
def Whole : Action → Prop
  | .send (.failed _) => False
  | _ => True

instance (a : Action) : Decidable (Whole a) := by
  unfold Whole
  split <;> infer_instance

variable {p p' : Pump} {linkflag linkflag' : Bool} {a : Action}

/-- What a step does. -/
theorem step_cases (h : p.step linkflag a = some (p', linkflag')) :
    (a = .test ∧ p.phase = .test ∧ linkflag' = linkflag ∧
      p' = { p with phase := if linkflag then .recv else .left }) ∨
    (∃ xs buf, a = .recv xs ∧ p.phase = .recv ∧ xs ≠ [] ∧ linkflag' = linkflag ∧
      buf.contents = p.buf.contents ++ xs ∧
      p' = { p with buf := buf, phase := .send, received := p.received ++ xs }) ∨
    (p.phase = .recv ∧ linkflag' = false ∧ (a = .recv [] ∨ a = .recvFailed) ∧
      ∃ buf, buf.contents = p.buf.contents ∧ p' = { p with buf := buf, phase := .test }) ∨
    (∃ r, a = .send r ∧ p.phase = .send ∧ linkflag' = linkflag ∧ p' = p.sendDone r) := by
  cases a with
  | test =>
      simp only [step] at h
      split at h
      · rename_i hphase
        cases h
        exact .inl ⟨rfl, hphase, rfl, rfl⟩
      · cases h
  | recv xs =>
      simp only [step] at h
      split at h
      · rename_i hphase
        split at h
        · rename_i hxs
          have hcap := p.buf.writeableCap.toNat_lt
          have hn : (Int32.ofNat xs.length).toInt = xs.length :=
            Int32.toInt_ofNat_of_lt (by omega)
          rcases Connection.recv_fill hxs hn with ⟨hcontents, _, hcount⟩
          rw [recvd, hcount] at h
          split at h
          · rename_i hpos
            cases h
            have hne : xs ≠ [] := List.length_pos_iff.mp (by omega)
            exact .inr (.inl ⟨xs, _, rfl, hphase, hne, rfl, hcontents, rfl⟩)
          · rename_i hzero
            cases h
            have hnil : xs = [] := List.eq_nil_of_length_eq_zero (by omega)
            subst hnil
            rw [List.append_nil] at hcontents
            refine .inr (.inr (.inl ⟨hphase, rfl, .inl rfl, _, hcontents, ?_⟩))
            rw [List.append_nil]
        · cases h
      · cases h
  | recvFailed =>
      simp only [step] at h
      split at h
      · rename_i hphase
        have hneg : (-1 : Int32) < 0 := by decide
        have hret : ¬ (-1 : Int32).toInt > 0 := by decide
        rw [recvd, Connection.recv, if_pos hneg, if_neg hret] at h
        cases h
        refine .inr (.inr (.inl ⟨hphase, rfl, .inr rfl, _, rfl, ?_⟩))
        rw [List.append_nil]
      · cases h
  | send r =>
      simp only [step] at h
      split at h
      · rename_i hphase
        cases h
        exact .inr (.inr (.inr ⟨r, rfl, hphase, rfl, rfl⟩))
      · cases h

/-- A round: something is received and sent on, and the flag is read again. -/
theorem run_round (linkflag : Bool) (hphase : p.phase = .recv) {xs : List UInt8} (hne : xs ≠ [])
    (hxs : xs.length ≤ p.buf.writeableCap.toNat) (r : SendRet) :
    ∃ q, p.step linkflag (.recv xs) = some (q, linkflag) ∧
      q.step linkflag (.send r) = some (q.sendDone r, linkflag) ∧
      (q.sendDone r).step linkflag .test =
        some ({ q.sendDone r with phase := if linkflag then .recv else .left }, linkflag) ∧
      q = { p with
        buf := (Connection.recv (p.buf.fill xs hxs) (.ofNat xs.length)).1
        phase := .send
        received := p.received ++ xs } := by
  have hcap := p.buf.writeableCap.toNat_lt
  have hn : (Int32.ofNat xs.length).toInt = xs.length := Int32.toInt_ofNat_of_lt (by omega)
  have hcount := (Connection.recv_fill hxs hn).2.2
  have hpos := List.length_pos_iff.mpr hne
  refine ⟨_, ?_, rfl, rfl, rfl⟩
  simp only [step, hphase]
  rw [dif_pos hxs, recvd, if_pos (by rw [hcount]; omega)]

/-- The stream ends, and the loop is left. -/
theorem run_end (linkflag : Bool) (hphase : p.phase = .recv) :
    p.step linkflag .recvFailed = some ({ p with phase := .test }, false) ∧
      step { p with phase := .test } false .test = some ({ p with phase := .left }, false) := by
  have hneg : (-1 : Int32) < 0 := by decide
  have hret : ¬ (-1 : Int32).toInt > 0 := by decide
  refine ⟨?_, rfl⟩
  simp only [step, hphase]
  rw [recvd, Connection.recv, if_pos hneg, if_neg hret, List.append_nil]

/-! ### What has been received -/

/-- Nothing is lost and the order is kept: of what the buffer held at first and what has been
received since, all but what is in the buffer has been sent. -/
def Lossless (rest : List UInt8) (p : Pump) : Prop :=
  ∃ delivered, delivered.Sublist p.sent ∧ delivered ++ p.buf.contents = rest ++ p.received

/-- What has been sent is what has been received, up to what is in the buffer; between two rounds
the buffer is empty, unless nothing has been received yet. -/
structure Exact (rest : List UInt8) (p : Pump) : Prop where
  sent : p.sent ++ p.buf.contents = rest ++ p.received
  idle : p.phase ≠ .send → p.buf.contents = [] ∨ p.received = []

/-- The buffer that is handed to {lit}`send` is not empty. -/
def Sends (p : Pump) : Prop :=
  p.phase = .send → p.buf.contents ≠ []

variable {rest : List UInt8}

theorem lossless_start (buf : Buffer UInt8) : Lossless buf.contents (start buf) :=
  ⟨[], List.Sublist.refl _, by rw [List.nil_append, start, List.append_nil]⟩

theorem exact_start (buf : Buffer UInt8) : Exact buf.contents (start buf) where
  sent := by rw [start, List.nil_append, List.append_nil]
  idle _ := .inr rfl

/-- A send that has failed leaves all bytes in the buffer, one that has succeeded none. -/
theorem sendBuf_cases (b : Buffer UInt8) (r : SendRet) :
    (r = .sent ∧ (Sock5Ctxt.sendBuf b r).1.contents = [] ∧
      (Sock5Ctxt.sendBuf b r).2 = b.contents) ∨
    ((Sock5Ctxt.sendBuf b r).1 = b ∧ ∃ accepted, r = .failed accepted) := by
  cases r with
  | sent =>
      rcases Sock5Ctxt.sendBuf_sent b with ⟨hsent, hempty, _⟩
      exact .inl ⟨rfl, hempty, hsent⟩
  | failed accepted =>
      have hneg : (-1 : Int32) < 0 := by decide
      refine .inr ⟨?_, accepted, rfl⟩
      rw [Sock5Ctxt.sendBuf, Connection.send, if_pos hneg]

theorem Lossless.sendDone (h : Lossless rest p) (r : SendRet) : Lossless rest (p.sendDone r) := by
  rcases h with ⟨delivered, hsub, hall⟩
  rcases sendBuf_cases p.buf r with ⟨_, hempty, hsent⟩ | ⟨hbuf, _⟩
  · refine ⟨delivered ++ p.buf.contents, ?_, ?_⟩
    · rw [Pump.sendDone, hsent]
      exact hsub.append_right _
    · rw [Pump.sendDone, hempty, List.append_nil]
      exact hall
  · refine ⟨delivered, hsub.trans (List.sublist_append_left _ _), ?_⟩
    rw [Pump.sendDone, hbuf]
    exact hall

theorem Lossless.step (h : Lossless rest p) (hstep : p.step linkflag a = some (p', linkflag')) :
    Lossless rest p' := by
  rcases step_cases hstep with ⟨_, _, _, rfl⟩ | ⟨xs, buf, _, _, _, _, hbuf, rfl⟩ |
    ⟨_, _, _, buf, hbuf, rfl⟩ | ⟨r, _, _, _, rfl⟩
  · exact h
  · rcases h with ⟨delivered, hsub, hall⟩
    refine ⟨delivered, hsub, ?_⟩
    rw [hbuf, ← List.append_assoc, hall, List.append_assoc]
  · rcases h with ⟨delivered, hsub, hall⟩
    exact ⟨delivered, hsub, by rw [hbuf, hall]⟩
  · exact h.sendDone r

theorem Exact.step (h : Exact rest p) (hwhole : Whole a)
    (hstep : p.step linkflag a = some (p', linkflag')) : Exact rest p' := by
  rcases step_cases hstep with ⟨_, hphase, _, rfl⟩ | ⟨xs, buf, _, _, _, _, hbuf, rfl⟩ |
    ⟨hphase, _, _, buf, hbuf, rfl⟩ | ⟨r, rfl, _, _, rfl⟩
  · refine ⟨h.sent, fun _ => h.idle ?_⟩
    rw [hphase]
    decide
  · refine ⟨?_, fun hne => absurd rfl hne⟩
    rw [hbuf, ← List.append_assoc, h.sent, List.append_assoc]
  · refine ⟨by rw [hbuf, h.sent], fun _ => ?_⟩
    rw [hbuf]
    apply h.idle
    rw [hphase]
    decide
  · rcases sendBuf_cases p.buf r with ⟨_, hempty, hsent⟩ | ⟨_, accepted, rfl⟩
    · refine ⟨?_, fun _ => .inl hempty⟩
      rw [Pump.sendDone, hempty, hsent, List.append_nil]
      exact h.sent
    · cases hwhole

theorem Sends.step (hstep : p.step linkflag a = some (p', linkflag')) : Sends p' := by
  rcases step_cases hstep with ⟨_, _, _, rfl⟩ | ⟨xs, buf, _, _, hne, _, hbuf, rfl⟩ |
    ⟨_, _, _, buf, _, rfl⟩ | ⟨r, _, _, _, rfl⟩
  · intro hphase
    cases linkflag <;> cases hphase
  · intro _ hnil
    exact hne (List.append_eq_nil_iff.mp (hbuf.symm.trans hnil)).2
  · intro hphase
    cases hphase
  · intro hphase
    cases hphase


/-! ### The end of a loop -/

/-- A loop is left only when it reads a cleared flag, and nobody sets the flag. -/
theorem flag_of_left {f f' : Bool} {P : Prop}
    (hleft : p.phase = .left ∨ P → f = false) (hstep : p.step f a = some (p', f')) :
    (p'.phase = .left ∨ P → f' = false) ∧ p.phase ≠ .left := by
  rcases step_cases hstep with ⟨_, hphase, rfl, rfl⟩ | ⟨xs, buf, _, hphase, _, rfl, _, rfl⟩ |
    ⟨hphase, rfl, _, buf, _, rfl⟩ | ⟨r, _, hphase, rfl, rfl⟩
  · rw [hphase]
    refine ⟨fun h => ?_, by decide⟩
    cases f' with
    | false => rfl
    | true =>
        rcases h with h | h
        · cases h
        · exact hleft (.inr h)
  · rw [hphase]
    refine ⟨fun h => hleft (.inr (h.resolve_left ?_)), by decide⟩
    intro h
    cases h
  · rw [hphase]
    exact ⟨fun _ => rfl, by decide⟩
  · rw [hphase]
    refine ⟨fun h => hleft (.inr (h.resolve_left ?_)), by decide⟩
    intro h
    cases h

/-- A loop that has not been left can take a step. -/
theorem exists_step (f : Bool) (hp : p.phase ≠ .left) :
    ∃ a r, p.step f a = some r := by
  cases hphase : p.phase with
  | test => exact ⟨.test, _, by simp only [step, hphase]; rfl⟩
  | recv => exact ⟨.recvFailed, _, by simp only [step, hphase]; rfl⟩
  | send => exact ⟨.send .sent, _, by simp only [step, hphase]; rfl⟩
  | left => exact absurd hphase hp

/-- The steps that a loop has before it once the flag is cleared. -/
def stepsLeft : PumpPhase → Nat
  | .recv => 3
  | .send => 2
  | .test => 1
  | .left => 0

/-- The calls of {lit}`recv` that a loop has before it once the flag is cleared. -/
def recvsLeft : PumpPhase → Nat
  | .recv => 1
  | _ => 0

/-- A return of {lit}`recv`. -/
def recvs : Action → Bool
  | .recv _ | .recvFailed => true
  | _ => false

/-- Once the flag is cleared it stays so, and a loop comes nearer to its end with every step. -/
theorem step_cleared {f : Bool}
    (hstep : p.step false a = some (p', f)) :
    f = false ∧ stepsLeft p'.phase < stepsLeft p.phase ∧
      (if recvs a then 1 else 0) + recvsLeft p'.phase ≤ recvsLeft p.phase := by
  rcases step_cases hstep with ⟨rfl, hphase, rfl, rfl⟩ | ⟨xs, buf, rfl, hphase, _, rfl, _, rfl⟩ |
    ⟨hphase, rfl, rfl | rfl, buf, _, rfl⟩ | ⟨r, rfl, hphase, rfl, rfl⟩ <;> rw [hphase] <;>
    exact ⟨rfl, by simp [stepsLeft, sendDone], by simp [recvs, recvsLeft, sendDone]⟩

end Pump

/-! ## The session -/

inductive Side where
  | localConn
  | remoteConn
deriving DecidableEq

/-- Where {lit}`run` is behind its loop. -/
inductive Ending where
  /-- Not yet through {lit}`__rf.get()`. -/
  | rlink
  /-- At {lit}`__remoteConn->close()`. -/
  | remote
  /-- At {lit}`__localConn->close()`. -/
  | local_
  | done
deriving DecidableEq

/-- A session from {lit}`SOCK_LINKED` on; {lit}`closed` are the calls of {lit}`Connection::close`. -/
structure Relay where
  run : Pump
  handleRLink : Pump
  __linkflag : Bool
  ending : Ending
  closed : List Side

namespace Relay

/-- What {lit}`handleReq` leaves. -/
def start (s : Sock5Ctxt) : Relay where
  run := .start s.__rxBuf
  handleRLink := .start s.__txBuf
  __linkflag := s.__linkflag
  ending := .rlink
  closed := []

inductive Action where
  | run (a : Pump.Action)
  | handleRLink (a : Pump.Action)
  /-- {lit}`__rf.get()` goes on. -/
  | get
  /-- The next {lit}`close`. -/
  | close

/-- One step. -/
def step (s : Relay) : Action → Option Relay
  | .run a =>
      (s.run.step s.__linkflag a).map fun r => { s with run := r.1, __linkflag := r.2 }
  | .handleRLink a =>
      (s.handleRLink.step s.__linkflag a).map fun r =>
        { s with handleRLink := r.1, __linkflag := r.2 }
  | .get =>
      if s.run.phase = .left ∧ s.handleRLink.phase = .left ∧ s.ending = .rlink then
        some { s with ending := .remote }
      else none
  | .close =>
      match s.ending with
      | .remote => some { s with ending := .local_, closed := s.closed ++ [.remoteConn] }
      | .local_ => some { s with ending := .done, closed := s.closed ++ [.localConn] }
      | _ => none

/-- The two loops under any interleaving, once {lit}`handleReq` has made the link. -/
def machine : Machine Relay Action where
  init r := ∃ (s : Sock5Ctxt) (env : Env) (connected : Option Bool),
    r = start (s.grant env connected)
  step := step

/-- No {lit}`send` is broken off. -/
def Whole (_ : Relay) : Action → Prop
  | .run a | .handleRLink a => Pump.Whole a
  | _ => True

instance (s : Relay) (a : Action) : Decidable (Whole s a) := by
  unfold Whole
  split <;> infer_instance

variable {s s' : Relay} {a : Action}

/-- A step is one of a loop, or one of {lit}`run` behind its loop. -/
theorem step_cases (h : step s a = some s') :
    (∃ b p linkflag, a = .run b ∧ s.run.step s.__linkflag b = some (p, linkflag) ∧
      s' = { s with run := p, __linkflag := linkflag }) ∨
    (∃ b p linkflag, a = .handleRLink b ∧
      s.handleRLink.step s.__linkflag b = some (p, linkflag) ∧
      s' = { s with handleRLink := p, __linkflag := linkflag }) ∨
    (a = .get ∧ s.run.phase = .left ∧ s.handleRLink.phase = .left ∧ s.ending = .rlink ∧
      s' = { s with ending := .remote }) ∨
    (a = .close ∧ s.ending = .remote ∧
      s' = { s with ending := .local_, closed := s.closed ++ [.remoteConn] }) ∨
    (a = .close ∧ s.ending = .local_ ∧
      s' = { s with ending := .done, closed := s.closed ++ [.localConn] }) := by
  cases a with
  | run b =>
      rcases Option.map_eq_some_iff.mp h with ⟨⟨p, linkflag⟩, hp, rfl⟩
      exact .inl ⟨b, p, linkflag, rfl, hp, rfl⟩
  | handleRLink b =>
      rcases Option.map_eq_some_iff.mp h with ⟨⟨p, linkflag⟩, hp, rfl⟩
      exact .inr (.inl ⟨b, p, linkflag, rfl, hp, rfl⟩)
  | get =>
      simp only [step] at h
      split at h
      · rename_i hat
        cases h
        exact .inr (.inr (.inl ⟨rfl, hat.1, hat.2.1, hat.2.2, rfl⟩))
      · cases h
  | close =>
      simp only [step] at h
      split at h
      · rename_i hending
        cases h
        exact .inr (.inr (.inr (.inl ⟨rfl, hending, rfl⟩)))
      · rename_i hending
        cases h
        exact .inr (.inr (.inr (.inr ⟨rfl, hending, rfl⟩)))
      · cases h

/-! ## The bytes -/

/-- What holds of both loops when it holds of each of them. -/
def Both (P Q : Pump → Prop) (s : Relay) : Prop :=
  P s.run ∧ Q s.handleRLink

/-- What every step of a loop keeps is kept for both loops. -/
theorem Both.step {P Q : Pump → Prop} (h : Both P Q s) (hstep : step s a = some s')
    (hP : ∀ b p p' f f', P p → a = .run b → p.step f b = some (p', f') → P p')
    (hQ : ∀ b p p' f f', Q p → a = .handleRLink b → p.step f b = some (p', f') → Q p') :
    Both P Q s' := by
  rcases step_cases hstep with ⟨b, p, f, ha, hp, rfl⟩ | ⟨b, p, f, ha, hp, rfl⟩ |
    ⟨_, _, _, _, rfl⟩ | ⟨_, _, rfl⟩ | ⟨_, _, rfl⟩
  · exact ⟨hP b _ p _ f h.1 ha hp, h.2⟩
  · exact ⟨h.1, hQ b _ p _ f h.2 ha hp⟩
  · exact h
  · exact h
  · exact h

/-- Under every interleaving and whatever the peers and the sends do, all that {lit}`run` has received
and all that was left in {lit}`__rxBuf` has been sent to the remote in its order or is in the buffer,
and so for the other direction.  When no send is broken off, each peer has been sent exactly this. -/
theorem relay_lossless (c : Sock5Ctxt) {as : List Action} {s : Relay}
    (hrun : machine.run (start c) as = some s) :
    Both (Pump.Lossless c.__rxBuf.contents) (Pump.Lossless c.__txBuf.contents) s ∧
      (machine.Along Whole (start c) as →
        Both (Pump.Exact c.__rxBuf.contents) (Pump.Exact c.__txBuf.contents) s) := by
  refine ⟨?_, fun halong => ?_⟩
  · apply Machine.run_keep _ _ hrun
    · intro s a s' h hstep
      exact h.step hstep (fun _ _ _ _ _ hp _ hstep => hp.step hstep)
        fun _ _ _ _ _ hp _ hstep => hp.step hstep
    · exact ⟨Pump.lossless_start _, Pump.lossless_start _⟩
  · apply Machine.Along.run (I := Both (Pump.Exact _) (Pump.Exact _)) _ _ halong hrun
    · rintro s a s' h hok hstep
      apply h.step hstep
      · rintro b p p' f f' hp rfl hstep
        exact hp.step hok hstep
      · rintro b p p' f f' hp rfl hstep
        exact hp.step hok hstep
    · exact ⟨Pump.exact_start _, Pump.exact_start _⟩

/-- Both peers send while the other direction is under way, and both streams end. -/
theorem relay_lossless_sample :
    ∃ s : Relay, (s.run.sent, s.handleRLink.sent, s.closed) =
        ([1, 2], [9, 8], [.remoteConn, .localConn]) ∧
      Both (Pump.Exact []) (Pump.Exact []) s := by
  have hrun : ((machine.restrict Whole).run (start (.construct ⟨⟨0, 0, 0, 0⟩, ⟨0, 0⟩⟩ 5))
      [.run .test, .handleRLink .test, .run (.recv [1, 2]), .handleRLink (.recv [9]),
        .run (.send .sent), .handleRLink (.send .sent), .handleRLink .test, .run .test,
        .run (.recv []), .handleRLink (.recv [8]), .handleRLink (.send .sent),
        .handleRLink .test, .run .test, .get, .close, .close]).map
      (fun s => (s.run.sent, s.handleRLink.sent, s.closed)) =
        some ([1, 2], [9, 8], [.remoteConn, .localConn]) := by
    decide +kernel
  rcases Option.map_eq_some_iff.mp hrun with ⟨s, hs, hsent⟩
  rcases Machine.restrict_run_iff.mp hs with ⟨hs, halong⟩
  have hempty : (Buffer.construct 1024 Buffer.zero_lt_1024 : Buffer UInt8).contents = [] := rfl
  have hexact := (relay_lossless _ hs).2 halong
  dsimp only [Sock5Ctxt.construct] at hexact
  rw [hempty] at hexact
  exact ⟨s, hsent, hexact⟩

/-! ## The end of the session -/

/-- A loop is left only when the flag has been cleared; {lit}`run` is through {lit}`__rf.get()` only when
both loops have been left; and then it closes the remote connection first. -/
structure Closing (s : Relay) : Prop where
  sends : Both Pump.Sends Pump.Sends s
  flag : s.run.phase = .left ∨ s.handleRLink.phase = .left → s.__linkflag = false
  left : s.ending ≠ .rlink → s.run.phase = .left ∧ s.handleRLink.phase = .left
  closed : s.closed =
    match s.ending with
    | .rlink | .remote => []
    | .local_ => [.remoteConn]
    | .done => [.remoteConn, .localConn]

theorem inductive_closing : machine.Inductive Closing where
  init := by
    rintro _ ⟨s, env, connected, rfl⟩
    refine ⟨⟨?_, ?_⟩, ?_, fun h => absurd rfl h, rfl⟩
    · intro h
      cases h
    · intro h
      cases h
    · rintro (h | h) <;> cases h
  step := by
    intro s a s' h hstep
    have hsends : Both Pump.Sends Pump.Sends s' :=
      h.sends.step hstep (fun _ _ _ _ _ _ _ hstep => Pump.Sends.step hstep)
        fun _ _ _ _ _ _ _ hstep => Pump.Sends.step hstep
    rcases step_cases hstep with ⟨b, p, f, _, hp, rfl⟩ | ⟨b, p, f, _, hp, rfl⟩ |
      ⟨_, hrun, hrlink, hending, rfl⟩ | ⟨_, hending, rfl⟩ | ⟨_, hending, rfl⟩
    · rcases Pump.flag_of_left h.flag hp with ⟨hflag, hne⟩
      exact ⟨hsends, hflag, fun hending => absurd (h.left hending).1 hne, h.closed⟩
    · rcases Pump.flag_of_left (fun hleft => h.flag hleft.symm) hp with ⟨hflag, hne⟩
      exact ⟨hsends, fun hleft => hflag hleft.symm,
        fun hending => absurd (h.left hending).2 hne, h.closed⟩
    · refine ⟨hsends, h.flag, fun _ => ⟨hrun, hrlink⟩, ?_⟩
      have hclosed := h.closed
      rw [hending] at hclosed
      exact hclosed
    · have hclosed := h.closed
      have hleft := h.left (by rw [hending]; decide)
      rw [hending] at hclosed
      refine ⟨hsends, h.flag, fun _ => hleft, ?_⟩
      dsimp only
      rw [hclosed, List.nil_append]
    · have hclosed := h.closed
      have hleft := h.left (by rw [hending]; decide)
      rw [hending] at hclosed
      refine ⟨hsends, h.flag, fun _ => hleft, ?_⟩
      dsimp only
      rw [hclosed, List.singleton_append]

/-- The session waits for nothing but its peers until both connections are closed. -/
theorem Closing.stuck_iff (h : Closing s) :
    (∀ a, step s a = none) ↔ s.closed = [.remoteConn, .localConn] := by
  have hclosed := h.closed
  constructor
  · intro hstuck
    by_cases hrun : s.run.phase = .left
    · by_cases hrlink : s.handleRLink.phase = .left
      · cases hending : s.ending with
        | rlink =>
            have hget := hstuck .get
            rw [step, if_pos ⟨hrun, hrlink, hending⟩] at hget
            cases hget
        | remote =>
            have hclose := hstuck .close
            simp only [step, hending] at hclose
            cases hclose
        | local_ =>
            have hclose := hstuck .close
            simp only [step, hending] at hclose
            cases hclose
        | done =>
            rw [hending] at hclosed
            exact hclosed
      · rcases Pump.exists_step s.__linkflag hrlink with ⟨b, r, hr⟩
        have hnone := hstuck (.handleRLink b)
        rw [step, hr] at hnone
        cases hnone
    · rcases Pump.exists_step s.__linkflag hrun with ⟨b, r, hr⟩
      have hnone := hstuck (.run b)
      rw [step, hr] at hnone
      cases hnone
  · intro hall a
    have hending : s.ending = .done := by
      rw [hall] at hclosed
      cases hending : s.ending <;> rw [hending] at hclosed <;> first | rfl | cases hclosed
    have hleft := h.left (by rw [hending]; decide)
    cases hnext : step s a with
    | none => rfl
    | some s' =>
        rcases step_cases hnext with ⟨b, p, f, _, hp, _⟩ | ⟨b, p, f, _, hp, _⟩ |
          ⟨_, _, _, hat, _⟩ | ⟨_, hat, _⟩ | ⟨_, hat, _⟩
        · exact absurd hleft.1 (Pump.flag_of_left h.flag hp).2
        · exact absurd hleft.2 (Pump.flag_of_left (fun hleft => h.flag hleft.symm) hp).2
        · cases hending.symm.trans hat
        · cases hending.symm.trans hat
        · cases hending.symm.trans hat

/-- The steps that {lit}`run` has before it behind its loop. -/
def endingSteps : Ending → Nat
  | .rlink => 3
  | .remote => 2
  | .local_ => 1
  | .done => 0

/-- The steps that are left once the flag is cleared. -/
def stepsLeft (s : Relay) : Nat :=
  Pump.stepsLeft s.run.phase + Pump.stepsLeft s.handleRLink.phase + endingSteps s.ending

/-- The returns of {lit}`recv` in {lit}`run`. -/
def runRecvs : Action → Bool
  | .run b => Pump.recvs b
  | _ => false

/-- The returns of {lit}`recv` in {lit}`handleRLink`. -/
def rlinkRecvs : Action → Bool
  | .handleRLink b => Pump.recvs b
  | _ => false

theorem stepsLeft_le (s : Relay) : s.stepsLeft ≤ 9 := by
  have hpump : ∀ phase, Pump.stepsLeft phase ≤ 3 := by
    intro phase
    cases phase <;> decide
  have hending : endingSteps s.ending ≤ 3 := by
    cases s.ending <;> decide
  have hrun := hpump s.run.phase
  have hrlink := hpump s.handleRLink.phase
  unfold stepsLeft
  omega

/-- So does the session. -/
theorem step_cleared (hflag : s.__linkflag = false) (hstep : step s a = some s') :
    s'.__linkflag = false ∧ s'.stepsLeft < s.stepsLeft ∧
      (if runRecvs a then 1 else 0) + Pump.recvsLeft s'.run.phase ≤
        Pump.recvsLeft s.run.phase ∧
      (if rlinkRecvs a then 1 else 0) + Pump.recvsLeft s'.handleRLink.phase ≤
        Pump.recvsLeft s.handleRLink.phase := by
  unfold stepsLeft
  rcases step_cases hstep with ⟨b, p, f, rfl, hp, rfl⟩ | ⟨b, p, f, rfl, hp, rfl⟩ |
    ⟨rfl, _, _, hending, rfl⟩ | ⟨rfl, hending, rfl⟩ | ⟨rfl, hending, rfl⟩
  · rw [hflag] at hp
    rcases Pump.step_cleared hp with ⟨hf, hlt, hle⟩
    exact ⟨hf, by dsimp only; omega, hle, by simp [rlinkRecvs]⟩
  · rw [hflag] at hp
    rcases Pump.step_cleared hp with ⟨hf, hlt, hle⟩
    exact ⟨hf, by dsimp only; omega, by simp [runRecvs], hle⟩
  all_goals
    rw [hending]
    refine ⟨hflag, ?_, by simp [runRecvs], by simp [rlinkRecvs]⟩
    dsimp only [endingSteps]
    omega

/-- In every reachable state: {lit}`send` is never called with an empty buffer; no connection is closed
while a loop is running, and the remote one is closed before the local one, each of them once; the
session can go on until both are closed.  And once a peer has ended its stream or failed, at most
nine steps follow, with at most one {lit}`recv` in either direction. -/
structure Ends (s : Relay) : Prop where
  sends : Both Pump.Sends Pump.Sends s
  closed : s.closed <+: [.remoteConn, .localConn]
  quiet : s.closed ≠ [] → s.run.phase = .left ∧ s.handleRLink.phase = .left
  stuck : (∀ a, machine.step s a = none) ↔ s.closed = [.remoteConn, .localConn]
  bounded : s.__linkflag = false → ∀ as s', machine.run s as = some s' →
    as.length ≤ 9 ∧ as.countP runRecvs ≤ 1 ∧ as.countP rlinkRecvs ≤ 1

theorem relay_ends (s : Relay) (hs : machine.Reachable s) : Ends s where
  sends := (inductive_closing.reachable hs).sends
  closed := by
    rw [(inductive_closing.reachable hs).closed]
    cases s.ending <;> simp
  quiet hne := by
    have hclosing := inductive_closing.reachable hs
    apply hclosing.left
    intro hending
    have hclosed := hclosing.closed
    rw [hending] at hclosed
    exact hne hclosed
  stuck := (inductive_closing.reachable hs).stuck_iff
  bounded := by
    intro hflag as s' hrun
    have hle : ∀ phase, Pump.recvsLeft phase ≤ 1 := by
      intro phase
      cases phase <;> decide
    have hlength := Machine.length_le_of_measure (I := fun s => s.__linkflag = false) stepsLeft
      (fun s a t hs hstep => ⟨(step_cleared hs hstep).1, (step_cleared hs hstep).2.1⟩) hflag hrun
    have hruns := Machine.countP_le_of_measure (I := fun s => s.__linkflag = false) runRecvs
      (fun s => Pump.recvsLeft s.run.phase)
      (fun s a t hs hstep => ⟨(step_cleared hs hstep).1, (step_cleared hs hstep).2.2.1⟩) hflag hrun
    have hrlinks := Machine.countP_le_of_measure (I := fun s => s.__linkflag = false) rlinkRecvs
      (fun s => Pump.recvsLeft s.handleRLink.phase)
      (fun s a t hs hstep => ⟨(step_cleared hs hstep).1, (step_cleared hs hstep).2.2.2⟩) hflag hrun
    have hrun := hle s.run.phase
    have hrlink := hle s.handleRLink.phase
    have hbound := s.stepsLeft_le
    exact ⟨by omega, by omega, by omega⟩

/-- The remote ends its stream while {lit}`run` is about to send. -/
theorem relay_ends_sample :
    ∃ s : Relay, (s.__linkflag, s.run.phase, s.handleRLink.phase) = (false, .send, .left) ∧
      Ends s := by
  have hrun : (machine.run
      (start (.grant (.construct ⟨⟨0, 0, 0, 0⟩, ⟨0, 0⟩⟩ 5) (.noNames 5) (some true)))
      [.run .test, .handleRLink .test, .run (.recv [1, 2]), .handleRLink .recvFailed,
        .handleRLink .test]).map (fun s => (s.__linkflag, s.run.phase, s.handleRLink.phase)) =
        some (false, .send, .left) := by
    decide +kernel
  rcases Option.map_eq_some_iff.mp hrun with ⟨s, hs, hat⟩
  exact ⟨s, hat, relay_ends s ⟨_, _, ⟨_, _, _, rfl⟩, hs⟩⟩

/-! ## The session in single steps -/

/-- Where a loop of the session stands in the relay. -/
def atPhase (p : Pump) : RunPhase → Prop
  | .recv => p.phase = .recv
  | .close => p.phase = .left
  | .thrown => False

/-- Where {lit}`handleRLink` of the session stands in the relay. -/
def atRLink (p : Pump) : RLink → Prop
  | .notStarted => False
  | .recv => p.phase = .recv
  | .done => p.phase = .left

/-- The relay {lit}`s` has come from {lit}`c` to what the session {lit}`c'` is. -/
structure Relayed (c c' : Sock5Ctxt) (s : Relay) : Prop where
  state : c'.__state = .SOCK_LINKED
  conn : c'.__remoteConn = c.__remoteConn
  run : s.run.buf = c'.__rxBuf
  rlink : s.handleRLink.buf = c'.__txBuf
  flag : s.__linkflag = c'.__linkflag
  atRun : atPhase s.run c'.phase
  atRLink : atRLink s.handleRLink c'.rlink
  received : c'.received = c.received ++ s.run.received
  forwarded : c'.forwarded = c.forwarded ++ s.run.sent
  relayed : c'.relayed = c.relayed ++ s.handleRLink.sent

variable {c c' : Sock5Ctxt}

/-- What {lit}`send` on the remote connection comes to. -/
def remoteRet (fd : Int32) (r : SendRet) : SendRet :=
  if fd > 0 then r else .failed 0

/-- A pass of the loop in {lit}`run` is a round of the relay. -/
theorem Relayed.pass (h : Relayed c c' s) {fd : Int32} (hconn : c.__remoteConn = some fd)
    (hphase : c'.phase = .recv) (env : Env) {xs : List UInt8} (hne : xs ≠ [])
    (hxs : xs.length ≤ c'.__rxBuf.writeableCap.toNat) :
    ∃ bs s', machine.run s bs = some s' ∧ Relayed c ((c'.receive xs hxs).pass env) s' := by
  have hat := h.atRun
  rw [hphase] at hat
  have hrun := h.run
  have hconn' := h.conn.trans hconn
  have hstate := h.state
  have hpass : (c'.receive xs hxs).pass env =
      { (c'.receive xs hxs).forward env.remoteSend with
        phase := if c'.__linkflag then .recv else .close } := by
    simp only [Sock5Ctxt.pass, Sock5Ctxt.dispatch, Sock5Ctxt.receive, hstate,
      Sock5Ctxt.forward, hconn']
    rfl
  rcases Pump.run_round s.__linkflag hat hne (hrun ▸ hxs)
    (remoteRet fd env.remoteSend) with ⟨q, hrecv, hsend, htest, hq⟩
  refine ⟨[.run (.recv xs), .run (.send (remoteRet fd env.remoteSend)), .run .test],
    { s with run := { q.sendDone (remoteRet fd env.remoteSend) with
        phase := if s.__linkflag then .recv else .left } }, ?_, ?_⟩
  · apply Machine.run_cons_eq_some.mpr ⟨{ s with run := q }, ?_, ?_⟩
    · simp only [machine, step, hrecv, Option.map_some]
    apply Machine.run_cons_eq_some.mpr
      ⟨{ s with run := q.sendDone (remoteRet fd env.remoteSend) }, ?_, ?_⟩
    · simp only [machine, step, hsend, Option.map_some]
    apply Machine.run_cons_eq_some.mpr ⟨_, ?_, rfl⟩
    simp only [machine, step, htest, Option.map_some]
  · subst hq
    rw [hpass]
    have hforward : (c'.receive xs hxs).forward env.remoteSend =
        { c'.receive xs hxs with
          __rxBuf := (Sock5Ctxt.sendBuf (c'.receive xs hxs).__rxBuf (remoteRet fd env.remoteSend)).1
          forwarded := c'.forwarded ++
            (Sock5Ctxt.sendBuf (c'.receive xs hxs).__rxBuf (remoteRet fd env.remoteSend)).2 } := by
      simp only [Sock5Ctxt.forward, Sock5Ctxt.receive, hconn']
      rfl
    rw [hforward]
    have hbuf : (Connection.recv (s.run.buf.fill xs (hrun ▸ hxs)) (.ofNat xs.length)).1 =
        (c'.receive xs hxs).__rxBuf := by
      simp only [hrun, Sock5Ctxt.receive]
    refine ⟨hstate, h.conn, ?_, h.rlink, h.flag, ?_, h.atRLink, ?_, ?_, h.relayed⟩
    · simp only [Pump.sendDone, hbuf]
    · have hflag := h.flag
      cases hlink : c'.__linkflag <;> rw [hlink] at hflag <;>
        simp only [hflag, atPhase] <;> rfl
    · simp only [Pump.sendDone, Sock5Ctxt.receive, h.received, List.append_assoc]
    · simp only [Pump.sendDone, hbuf, h.forwarded, List.append_assoc]

/-- So is a pass of the loop in {lit}`handleRLink`. -/
theorem Relayed.back (h : Relayed c c' s) (hrlink : c'.rlink = .recv) (r : SendRet)
    {xs : List UInt8} (hne : xs ≠ []) (hxs : xs.length ≤ c'.__txBuf.writeableCap.toNat) :
    ∃ bs s', machine.run s bs = some s' ∧ Relayed c (c'.relay r xs hxs) s' := by
  have hat := h.atRLink
  rw [hrlink] at hat
  have hbuf := h.rlink
  rcases Pump.run_round s.__linkflag hat hne (hbuf ▸ hxs) r with
    ⟨q, hrecv, hsend, htest, hq⟩
  refine ⟨[.handleRLink (.recv xs), .handleRLink (.send r), .handleRLink .test],
    { s with handleRLink := { q.sendDone r with
        phase := if s.__linkflag then .recv else .left } }, ?_, ?_⟩
  · apply Machine.run_cons_eq_some.mpr ⟨{ s with handleRLink := q }, ?_, ?_⟩
    · simp only [machine, step, hrecv, Option.map_some]
    apply Machine.run_cons_eq_some.mpr ⟨{ s with handleRLink := q.sendDone r }, ?_, ?_⟩
    · simp only [machine, step, hsend, Option.map_some]
    apply Machine.run_cons_eq_some.mpr ⟨_, ?_, rfl⟩
    simp only [machine, step, htest, Option.map_some]
  · subst hq
    have hfill : (Connection.recv (s.handleRLink.buf.fill xs (hbuf ▸ hxs))
        (.ofNat xs.length)).1 = (Connection.recv (c'.__txBuf.fill xs hxs) (.ofNat xs.length)).1 := by
      simp only [hbuf]
    refine ⟨h.state, h.conn, h.run, ?_, h.flag, h.atRun, ?_, h.received, h.forwarded, ?_⟩
    · simp only [Pump.sendDone, hfill, Sock5Ctxt.relay]
    · have hflag := h.flag
      cases hlink : c'.__linkflag <;> rw [hlink] at hflag <;>
        simp only [hflag, Sock5Ctxt.relay, hlink] <;> rfl
    · simp only [Pump.sendDone, hfill, Sock5Ctxt.relay, h.relayed, List.append_assoc]

/-- Every step of the session is a piece of a run of the relay. -/
theorem Relayed.step (h : Relayed c c' s) {fd : Int32} (hconn : c.__remoteConn = some fd)
    {a : Sock5Ctxt.Action} {c'' : Sock5Ctxt} (hstep : c'.step a = some c'') :
    ∃ bs s', machine.run s bs = some s' ∧ Relayed c c'' s' := by
  cases a with
  | recv env xs =>
      rcases Sock5Ctxt.step_cases hstep with ⟨hphase, hne, hxs, rfl⟩
      exact h.pass hconn hphase env hne hxs
  | recvEnd =>
      simp only [Sock5Ctxt.step] at hstep
      split at hstep
      · rename_i hphase
        cases hstep
        have hat := h.atRun
        rw [hphase] at hat
        rcases Pump.run_end s.__linkflag hat with ⟨hfailed, htest⟩
        refine ⟨[.run .recvFailed, .run .test],
          { s with run := { s.run with phase := .left }, __linkflag := false }, ?_, ?_⟩
        · apply Machine.run_cons_eq_some.mpr
            ⟨{ s with run := { s.run with phase := .test }, __linkflag := false }, ?_, ?_⟩
          · simp only [machine, Relay.step, hfailed, Option.map_some]
          apply Machine.run_cons_eq_some.mpr ⟨_, ?_, rfl⟩
          simp only [machine, Relay.step, htest, Option.map_some]
        · exact ⟨h.state, h.conn, h.run, h.rlink, rfl, rfl, h.atRLink, h.received, h.forwarded,
            h.relayed⟩
      · cases hstep
  | rlink r xs =>
      simp only [Sock5Ctxt.step] at hstep
      split at hstep
      · rename_i hrlink
        split at hstep
        · rename_i hin
          cases hstep
          exact h.back hrlink r hin.1 hin.2
        · cases hstep
      · cases hstep
  | rlinkEnd =>
      simp only [Sock5Ctxt.step] at hstep
      split at hstep
      · rename_i hrlink
        cases hstep
        have hat := h.atRLink
        rw [hrlink] at hat
        rcases Pump.run_end s.__linkflag hat with ⟨hfailed, htest⟩
        refine ⟨[.handleRLink .recvFailed, .handleRLink .test],
          { s with handleRLink := { s.handleRLink with phase := .left }, __linkflag := false },
          ?_, ?_⟩
        · apply Machine.run_cons_eq_some.mpr
            ⟨{ s with handleRLink := { s.handleRLink with phase := .test }, __linkflag := false },
              ?_, ?_⟩
          · simp only [machine, Relay.step, hfailed, Option.map_some]
          apply Machine.run_cons_eq_some.mpr ⟨_, ?_, rfl⟩
          simp only [machine, Relay.step, htest, Option.map_some]
        · exact ⟨h.state, h.conn, h.run, h.rlink, rfl, h.atRun, rfl, h.received, h.forwarded,
            h.relayed⟩
      · cases hstep

/-- A session that has made its link: every run of it, with each pass as a single step, is a run of
the relay, in which the same bytes are received and sent in both directions. -/
theorem session_relayed (c : Sock5Ctxt) (env : Env) (connected : Option Bool)
    (hphase : c.phase = .recv) (hflag : c.__linkflag = true) {as : List Sock5Ctxt.Action}
    {c' : Sock5Ctxt} (hrun : Sock5Ctxt.machine.run (c.grant env connected) as = some c') :
    ∃ bs s, machine.run (start (c.grant env connected)) bs = some s ∧
      Relayed (c.grant env connected) c' s := by
  let g := c.grant env connected
  have hinit : ∃ bs s, machine.run (start g) bs = some s ∧ Relayed g g s := by
    have htest : ∀ buf, (Pump.start buf).step true .test =
        some ({ Pump.start buf with phase := .recv }, true) := fun _ => rfl
    refine ⟨[.run .test, .handleRLink .test], { start g with
      run := { Pump.start g.__rxBuf with phase := .recv }
      handleRLink := { Pump.start g.__txBuf with phase := .recv } }, ?_, ?_⟩
    · have hlink : (start g).__linkflag = true := hflag
      apply Machine.run_cons_eq_some.mpr
        ⟨{ start g with run := { Pump.start g.__rxBuf with phase := .recv } }, ?_, ?_⟩
      · simp only [machine, Relay.step, hlink]
        rfl
      apply Machine.run_cons_eq_some.mpr ⟨_, ?_, rfl⟩
      simp only [machine, Relay.step, hlink]
      rfl
    · refine ⟨rfl, rfl, rfl, rfl, rfl, ?_, rfl, ?_, ?_, ?_⟩
      · have hat : g.phase = .recv := hphase
        rw [hat]
        rfl
      all_goals exact (List.append_nil _).symm
  apply Machine.run_keep (I := fun c' => ∃ bs s, machine.run (start g) bs = some s ∧ Relayed g c' s)
    _ hinit hrun
  rintro c' a c'' ⟨bs, s, hrun, h⟩ hstep
  have hconn : g.__remoteConn = some c.sockfd := rfl
  rcases h.step hconn hstep with ⟨bs', s', hrun', h'⟩
  refine ⟨bs ++ bs', s', ?_, h'⟩
  rw [Machine.run_append, hrun]
  exact hrun'

/-- Three bytes to the remote, one back, and the client ends its stream. -/
theorem session_relayed_sample :
    ∃ c' : Sock5Ctxt, (c'.forwarded, c'.relayed, c'.phase) = ([1, 2, 3], [9], .close) ∧
      ∃ bs s, machine.run
          (start (.grant (.construct ⟨⟨0, 0, 0, 0⟩, ⟨0, 0⟩⟩ 5) (.noNames 5) (some true))) bs =
          some s ∧
        Relayed (.grant (.construct ⟨⟨0, 0, 0, 0⟩, ⟨0, 0⟩⟩ 5) (.noNames 5) (some true)) c' s := by
  have hrun : (Sock5Ctxt.machine.run
      (.grant (.construct ⟨⟨0, 0, 0, 0⟩, ⟨0, 0⟩⟩ 5) (.noNames 5) (some true))
      [.recv (.noNames 5) [1, 2], .rlink .sent [9], .recv (.noNames 5) [3], .recvEnd]).map
      (fun c' => (c'.forwarded, c'.relayed, c'.phase)) = some ([1, 2, 3], [9], .close) := by
    decide +kernel
  rcases Option.map_eq_some_iff.mp hrun with ⟨c', hc', hat⟩
  exact ⟨c', hat, session_relayed _ _ _ rfl rfl hc'⟩

end Relay
end CoEpoll
