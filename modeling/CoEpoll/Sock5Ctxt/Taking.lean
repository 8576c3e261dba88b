import CoEpoll.Sock5Ctxt.Handlers
import Mathlib.Logic.Relation

/-!
# `Sock5Ctxt`: a stream that is taken message by message

What a session makes of its stream when no message is cut: it takes the greeting, then requests
until one of them is granted, and then byte by byte what it forwards.  The outcomes of the calls are
those of a world that does not know how the stream has been cut.

Main results:

- Theorem {lit}`Take.append`: what is taken does not depend on what follows it.
- Theorem {lit}`take_rightUnique`: there is one thing only that can be taken.
- Theorem {lit}`Taken.eq_of_stuck`: a stream is taken in one way only.
-/

namespace CoEpoll

open Socks5

namespace Sock5Ctxt

/-- The outcomes of the calls of a session: what the names stand for, what {lit}`colib::socket` and
{lit}`colib::connect` return by how many sockets there have been before, the sends of the two replies,
and how many bytes the remote accepts before its sends fail. -/
structure World where
  gethostbyname : List UInt8 → Option InAddr
  socket : Nat → Int32
  connect : Nat → SockAddr → Bool
  authSend : SendRet
  grantSend : SendRet
  remoteLimit : Option Nat

/-- What a client and its destination see of a session. -/
structure Outcome where
  replied : List UInt8
  connects : List SockAddr
  __state : SOCK_STATE
  forwarded : List UInt8
deriving DecidableEq

/-- How far a session has come: the replies that have not been accepted, how many sockets there
have been, and that of the remote. -/
structure View extends Outcome where
  unsent : List UInt8
  opened : Nat
  remote : Int32

/-- What a send accepts of {lit}`xs`. -/
def accepts (xs : List UInt8) : SendRet → List UInt8
  | .sent => xs
  | .failed accepted => xs.take accepted

/-- What stays in the buffer. -/
def leaves (xs : List UInt8) : SendRet → List UInt8
  | .sent => []
  | .failed _ => xs

namespace View

/-- Before the first byte. -/
def start : View where
  replied := []
  connects := []
  __state := .SOCK_INIT
  forwarded := []
  unsent := []
  opened := 0
  remote := 0

variable (w : World) (v : View)

/-- A reply is sent behind those that have not been accepted. -/
def send (reply : List UInt8) (r : SendRet) : View :=
  { v with
    replied := v.replied ++ accepts (v.unsent ++ reply) r
    unsent := leaves (v.unsent ++ reply) r }

/-- A greeting is answered. -/
def greet (g : Greeting) : View :=
  { v.send [SOCK5_VERSION, g.method] w.authSend with __state := .SOCK_REQ }

/-- A request for {lit}`addr` is granted. -/
def grant (addr : SockAddr) (socket : Int32) : View :=
  { v.send ([SOCK5_VERSION, 0x00, 0x00, 0x01] ++ addr.sin_addr.bytes ++ [0x01, 0xbb]) w.grantSend with
    __state := .SOCK_LINKED
    remote := socket }

/-- A request is handled. -/
def ask (r : Request) : View :=
  match r.target (w.gethostbyname ∘ cString) with
  | none => v
  | some addr =>
      let socket := w.socket v.opened
      let opened := { v with opened := v.opened + 1 }
      if 0 < socket then
        let tried := { opened with connects := v.connects ++ [addr] }
        if w.connect v.opened addr then tried.grant w addr socket else tried
      else opened.grant w addr socket

/-- The remote accepts another byte. -/
def Open : Prop :=
  0 < v.remote ∧ ∀ limit, w.remoteLimit = some limit → v.forwarded.length < limit

/-- A byte is forwarded. -/
def forward (byte : UInt8) : View :=
  { v with forwarded := v.forwarded ++ [byte] }

end View

/-- A message is taken from the front of the stream. -/
inductive Take (w : World) : View × List UInt8 → View × List UInt8 → Prop where
  | greeting {v : View} (g : Greeting) (z : List UInt8) (hstate : v.__state = .SOCK_INIT) :
      Take w (v, g.encode ++ z) (v.greet w g, z)
  | request {v : View} {r : Request} (z : List UInt8) (hstate : v.__state = .SOCK_REQ)
      (hreadable : Readable r) : Take w (v, r.encode ++ z) (v.ask w r, z)
  | byte {v : View} (byte : UInt8) (z : List UInt8) (hstate : v.__state = .SOCK_LINKED)
      (hopen : v.Open w) : Take w (v, byte :: z) (v.forward byte, z)

/-- Messages are taken, one after the other. -/
abbrev Taken (w : World) : View × List UInt8 → View × List UInt8 → Prop :=
  Relation.ReflTransGen (Take w)

variable {w : World} {v v' : View} {z z' : List UInt8} {p q q' : View × List UInt8}

/-- What is taken does not depend on what follows it. -/
theorem Take.append (h : Take w p q) (xs : List UInt8) :
    Take w (p.1, p.2 ++ xs) (q.1, q.2 ++ xs) := by
  cases h with
  | greeting g z hstate =>
      rw [List.append_assoc]
      exact .greeting g (z ++ xs) hstate
  | request z hstate hreadable =>
      rw [List.append_assoc]
      exact .request (z ++ xs) hstate hreadable
  | byte byte z hstate hopen => exact .byte byte (z ++ xs) hstate hopen

theorem Taken.append (h : Taken w p q) (xs : List UInt8) :
    Taken w (p.1, p.2 ++ xs) (q.1, q.2 ++ xs) :=
  h.lift (fun p => (p.1, p.2 ++ xs)) fun _ _ htake => htake.append xs

/-- There is one thing only that can be taken. -/
theorem take_rightUnique (w : World) : Relator.RightUnique (Take w) := by
  rintro ⟨v, y⟩ q q' h h'
  generalize hy : y = y' at h'
  cases h with
  | greeting g z hstate =>
      cases h' with
      | greeting g' z' _ =>
          rcases Greeting.encode_append_inj hy with ⟨rfl, rfl⟩
          rfl
      | request z' hstate' _ => cases hstate.symm.trans hstate'
      | byte b z' hstate' _ => cases hstate.symm.trans hstate'
  | request z hstate _ =>
      cases h' with
      | greeting g' z' hstate' => cases hstate.symm.trans hstate'
      | request z' _ _ =>
          rcases Request.encode_append_inj hy with ⟨rfl, rfl⟩
          rfl
      | byte b z' hstate' _ => cases hstate.symm.trans hstate'
  | byte b z hstate _ =>
      cases h' with
      | greeting g' z' hstate' => cases hstate.symm.trans hstate'
      | request z' hstate' _ => cases hstate.symm.trans hstate'
      | byte b' z' _ _ =>
          rcases List.cons.inj hy with ⟨rfl, rfl⟩
          rfl

/-- A stream is taken in one way only. -/
theorem Taken.eq_of_stuck (h : Taken w p q) (h' : Taken w p q') (hstuck : ∀ r, ¬ Take w q r)
    (hstuck' : ∀ r, ¬ Take w q' r) : q = q' := by
  rcases Relation.ReflTransGen.total_of_right_unique (take_rightUnique w) h h' with hto | hto
  · rcases hto.cases_head with heq | ⟨r, htake, _⟩
    · exact heq
    · exact absurd htake (hstuck r)
  · rcases hto.cases_head with heq | ⟨r, htake, _⟩
    · exact heq.symm
    · exact absurd htake (hstuck' r)

/-- As many bytes as the remote accepts are taken one after the other. -/
theorem Taken.bytes (hstate : v.__state = .SOCK_LINKED) (hremote : 0 < v.remote)
    (hlimit : ∀ limit, w.remoteLimit = some limit → z.length ≤ limit - v.forwarded.length)
    (rest : List UInt8) :
    Taken w (v, z ++ rest) ({ v with forwarded := v.forwarded ++ z }, rest) := by
  induction z generalizing v with
  | nil =>
      rw [List.append_nil]
      exact .refl
  | cons byte z ih =>
      have hopen : v.Open w := by
        refine ⟨hremote, fun limit heq => ?_⟩
        have hle := hlimit limit heq
        rw [List.length_cons] at hle
        omega
      have hrest := ih (v := v.forward byte) hstate hremote fun limit heq => by
        have hle := hlimit limit heq
        rw [View.forward, List.length_append, List.length_singleton]
        rw [List.length_cons] at hle
        omega
      rw [View.forward, List.append_assoc, List.singleton_append] at hrest
      exact .head (.byte byte (z ++ rest) hstate hopen) hrest

end Sock5Ctxt
end CoEpoll
