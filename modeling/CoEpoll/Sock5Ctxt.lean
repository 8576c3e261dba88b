import CoEpoll.Conn.Connection
import CoEpoll.Sock5Ctxt.Messages
import CoEpoll.Transition.Machine

/-!
# `Sock5Ctxt`: a SOCKS5 session

{lit}`run` receives into {lit}`__rxBuf` and calls the handler of the state once for each {lit}`recv`; what the
handler returns is not looked at.  An exception of a handler ends the session.  The outcomes of
{lit}`gethostbyname`, {lit}`colib::socket`, {lit}`colib::connect` and of the sends come with the {lit}`recv` that the
handler belongs to.  A {lit}`char` is signed.
-/

namespace CoEpoll

open Transition Ring Socks5

namespace Buffer

variable {α : Type*}

/-- {lit}`operator[]`, and the byte that it refers to. -/
def fetch (b : Buffer α) (index : Int) : Except String α :=
  (b.index index).map b.cell

/-- {lit}`retrive` into an {lit}`in_addr_t`, which keeps its value when there are too few bytes. -/
def retriveAddr (b : Buffer UInt8) (addr : InAddr) : Buffer UInt8 × InAddr :=
  match b.retriveRaw 4 with
  | (b', [b0, b1, b2, b3], _) => (b', ⟨b0, b1, b2, b3⟩)
  | (b', _, _) => (b', addr)

/-- {lit}`retrive` into an {lit}`in_port_t`, which keeps its value when there are too few bytes. -/
def retrivePort (b : Buffer UInt8) (port : InPort) : Buffer UInt8 × InPort :=
  match b.retriveRaw 2 with
  | (b', [b0, b1], _) => (b', ⟨b0, b1⟩)
  | (b', _, _) => (b', port)

/-- {lit}`insertCh` of one byte after the other. -/
def insertChs (b : Buffer α) (chs : List α) : Buffer α :=
  chs.foldl (fun b ch => (b.insertCh ch).1) b

end Buffer

/-- {lit}`Sock5Ctxt::SOCK_STATE` -/
inductive SOCK_STATE where
  | SOCK_INIT
  | SOCK_AUTH
  | SOCK_REQ
  | SOCK_LINKED
  | SOCK_CLOSED
  | SOCK_INVALID
deriving DecidableEq

def SOCK5_VERSION : UInt8 := 0x05

/-- The outcome of a send: everything, or a failure after {lit}`accepted` bytes. -/
inductive SendRet where
  | sent
  | failed (accepted : Nat)

/-- The outcomes of the calls that a handler makes; {lit}`connect` tells whether {lit}`colib::connect` returns
0 or -1. -/
structure Env where
  gethostbyname : List UInt8 → Option InAddr
  socket : Int32
  connect : SockAddr → Bool
  localSend : SendRet
  remoteSend : SendRet

/-- No name is known, {lit}`colib::socket` returns {lit}`socket`, and everything else succeeds. -/
def Env.noNames (socket : Int32) : Env where
  gethostbyname _ := none
  socket := socket
  connect _ := true
  localSend := .sent
  remoteSend := .sent

/-- Where {lit}`run` is. -/
inductive RunPhase where
  /-- In {lit}`__localConn->recv(__rxBuf)`. -/
  | recv
  /-- Behind the loop. -/
  | close
  /-- A handler has thrown. -/
  | thrown
deriving DecidableEq

/-- Where {lit}`handleRLink` is. -/
inductive RLink where
  | notStarted
  /-- In {lit}`__remoteConn->recv(__txBuf)`. -/
  | recv
  | done
deriving DecidableEq

/-- A success reply: what the client had sent of its request, and the calls that were made for it;
{lit}`connected` is none when {lit}`colib::connect` was not called. -/
structure Grant where
  request : List UInt8
  gethostbyname : List UInt8 → Option InAddr
  sockfd : Int32
  connected : Option Bool
  addr : SockAddr

/-- {lit}`Sock5Ctxt`, with a record of the session: the bytes {lit}`received` from the client and where in them
the message begins that it is sending ({lit}`mark`), the bytes {lit}`replied`, whether 5, 0xff was answered
({lit}`refused`), the calls of {lit}`colib::socket` and {lit}`colib::connect`, the success replies, and the bytes
relayed to the remote ({lit}`forwarded`) and back ({lit}`relayed`). -/
structure Sock5Ctxt where
  phase : RunPhase
  __state : SOCK_STATE
  __rxBuf : Buffer UInt8
  __txBuf : Buffer UInt8
  serv_addr : SockAddr
  sockfd : Int32
  __remoteConn : Option Int32
  __linkflag : Bool
  rlink : RLink
  received : List UInt8
  mark : Nat
  replied : List UInt8
  refused : Bool
  opened : List Int32
  connects : List SockAddr
  grants : List Grant
  forwarded : List UInt8
  relayed : List UInt8

namespace Sock5Ctxt

/-- {lit}`Sock5Ctxt::Sock5Ctxt`; {lit}`serv_addr` and {lit}`sockfd` are not initialized. -/
def construct (serv_addr : SockAddr) (sockfd : Int32) : Sock5Ctxt where
  phase := .recv
  __state := .SOCK_INIT
  __rxBuf := .construct 1024 Buffer.zero_lt_1024
  __txBuf := .construct 1024 Buffer.zero_lt_1024
  serv_addr := serv_addr
  sockfd := sockfd
  __remoteConn := none
  __linkflag := true
  rlink := .notStarted
  received := []
  mark := 0
  replied := []
  refused := false
  opened := []
  connects := []
  grants := []
  forwarded := []
  relayed := []

/-- {lit}`Connection::send`: the buffer afterwards, and the bytes that have been accepted. -/
def sendBuf (buf : Buffer UInt8) : SendRet → Buffer UInt8 × List UInt8
  | .sent =>
      ((Connection.send buf (.ofNat (total (buf.data true)))).1, (buf.iovec true).flatten)
  | .failed accepted => ((Connection.send buf (-1)).1, (buf.iovec true).flatten.take accepted)

/-- The {lit}`int` of a {lit}`char`. -/
def charInt (ch : UInt8) : Int :=
  ch.toInt8.toInt

/-- {lit}`addr.data()` as a string of C. -/
def cString (str : List UInt8) : List UInt8 :=
  str.takeWhile (· ≠ 0)

/-! ## The handlers -/

/-- The loop in {lit}`handleAuth`; {lit}`n` iterations are left. -/
def findMethod (rxBuf : Buffer UInt8) : Nat → Nat → Except String UInt8
  | 0, _ => return 0xff
  | n + 1, i => do
      if (← rxBuf.fetch i) = 0 then return 0
      else findMethod rxBuf n (i + 1)

/-- {lit}`handleAuth` from its second message byte on: what is left in {lit}`__rxBuf`, and {lit}`method`. -/
def readMethods (rxBuf : Buffer UInt8) : Except String (Buffer UInt8 × UInt8) := do
  let mNum ← rxBuf.fetch 1
  let rxBuf := (rxBuf.clear 2).1
  let mNum := if mNum < 255 then mNum else 255
  let method ← findMethod rxBuf mNum.toNat 0
  return ((rxBuf.clear (.ofNat mNum.toNat)).1, method)

variable (s : Sock5Ctxt)

/-- The client begins the next message {lit}`len` bytes on. -/
def nextMessage (len : List UInt8 → Nat) : Sock5Ctxt :=
  { s with mark := s.mark + len (s.received.drop s.mark) }

/-- {lit}`handleAuth` from its reply on. -/
def answer (rxBuf : Buffer UInt8) (method : UInt8) (r : SendRet) : Sock5Ctxt :=
  let sent := sendBuf (s.__txBuf.insertChs [SOCK5_VERSION, method]) r
  { s.nextMessage greetingLength with
    __rxBuf := rxBuf
    __txBuf := sent.1
    __state := .SOCK_REQ
    replied := s.replied ++ sent.2
    refused := s.refused || method = 0xff }

/-- {lit}`Sock5Ctxt::handleAuth` -/
def handleAuth (env : Env) : Except String (Sock5Ctxt × Int) :=
  if Buffer.int s.__rxBuf.readableCap < 3 then return (s, 0)
  else do
    if (← s.__rxBuf.fetch 0) ≠ SOCK5_VERSION then return (s, 1)
    else
      let (rxBuf, method) ← readMethods s.__rxBuf
      return (s.answer rxBuf method env.localSend, 0)

/-- {lit}`handleReq` for address type 1; the result is what {lit}`co_return` gives, if it is reached. -/
def parseIpv4 : Sock5Ctxt × Option Int :=
  let rxBuf := (s.__rxBuf.clear 4).1
  if Buffer.int rxBuf.readableCap < 4 then ({ s with __rxBuf := rxBuf }, some 0)
  else
    let addr := rxBuf.retriveAddr s.serv_addr.sin_addr
    let port := addr.1.retrivePort s.serv_addr.sin_port
    ({ s with __rxBuf := port.1, serv_addr := ⟨addr.2, port.2⟩ }, none)

/-- {lit}`handleReq` for address type 3. -/
def parseDomain (gethostbyname : List UInt8 → Option InAddr) (len : Int) :
    Sock5Ctxt × Option Int :=
  let rxBuf := (s.__rxBuf.clear 5).1
  if Buffer.int rxBuf.readableCap < len then ({ s with __rxBuf := rxBuf }, some 0)
  else
    let addr := rxBuf.retriveStr len
    let port := addr.1.retrivePort s.serv_addr.sin_port
    let s := { s with __rxBuf := port.1, serv_addr := { s.serv_addr with sin_port := port.2 } }
    match gethostbyname (cString addr.2) with
    | none => (s, some 1)
    | some sin_addr => ({ s with serv_addr := { s.serv_addr with sin_addr := sin_addr } }, none)

/-- {lit}`handleReq` up to {lit}`colib::socket`. -/
def parseReq (gethostbyname : List UInt8 → Option InAddr) :
    Except String (Sock5Ctxt × Option Int) := do
  let atyp ← s.__rxBuf.fetch 3
  if atyp = 1 then return s.parseIpv4
  else if atyp = 3 then return s.parseDomain gethostbyname (charInt (← s.__rxBuf.fetch 4))
  else return (s, none)

/-- The success reply. -/
def reply : List UInt8 :=
  [SOCK5_VERSION, 0x00, 0x00, 0x01] ++ s.serv_addr.sin_addr.bytes ++ [0x01, 0xbb]

/-- {lit}`handleReq` from its reply on. -/
def grant (env : Env) (connected : Option Bool) : Sock5Ctxt :=
  let sent := sendBuf (s.__txBuf.insertChs s.reply) env.localSend
  { s.nextMessage requestLength with
    __txBuf := sent.1
    __remoteConn := some s.sockfd
    rlink := .recv
    __state := .SOCK_LINKED
    replied := s.replied ++ sent.2
    grants := s.grants ++
      [⟨s.received.drop s.mark, env.gethostbyname, s.sockfd, connected, s.serv_addr⟩] }

/-- {lit}`handleReq` from {lit}`colib::socket` on. -/
def link (env : Env) : Sock5Ctxt × Int :=
  let s := { s with sockfd := env.socket, opened := s.opened ++ [env.socket] }
  if env.socket > 0 then
    let s := { s with connects := s.connects ++ [s.serv_addr] }
    if env.connect s.serv_addr then (s.grant env (some true), 0)
    else (s.nextMessage requestLength, 2)
  else (s.grant env none, 0)

/-- {lit}`Sock5Ctxt::handleReq` -/
def handleReq (env : Env) : Except String (Sock5Ctxt × Int) :=
  if Buffer.int s.__rxBuf.readableCap < 5 then return (s, 0)
  else do
    match ← s.parseReq env.gethostbyname with
    | (s, none) => return s.link env
    | (s, some ret) =>
        if ret = 1 then return (s.nextMessage requestLength, ret) else return (s, ret)

/-- {lit}`__remoteConn->send(__rxBuf)`; a descriptor that {lit}`colib::socket` has not registered refuses. -/
def forward (r : SendRet) : Sock5Ctxt :=
  match s.__remoteConn with
  | some fd =>
      let sent := sendBuf s.__rxBuf (if fd > 0 then r else .failed 0)
      { s with __rxBuf := sent.1, forwarded := s.forwarded ++ sent.2 }
  | none => s

/-- The {lit}`switch` in {lit}`run`. -/
def dispatch (env : Env) : Except String Sock5Ctxt :=
  match s.__state with
  | .SOCK_INIT => (s.handleAuth env).map Prod.fst
  | .SOCK_REQ => (s.handleReq env).map Prod.fst
  | .SOCK_LINKED => return s.forward env.remoteSend
  | _ => return s

/-! ## The session -/

inductive Action where
  /-- {lit}`__localConn->recv` returns {lit}`xs`, and the handler runs. -/
  | recv (env : Env) (xs : List UInt8)
  /-- {lit}`__localConn->recv` returns 0 or an error. -/
  | recvEnd
  /-- {lit}`__remoteConn->recv` returns {lit}`xs`, and {lit}`handleRLink` sends it to the client. -/
  | rlink (r : SendRet) (xs : List UInt8)
  /-- {lit}`__remoteConn->recv` returns 0 or an error. -/
  | rlinkEnd

/-- {lit}`Connection::recv` puts {lit}`xs` into {lit}`__rxBuf`. -/
def receive (xs : List UInt8) (hxs : xs.length ≤ s.__rxBuf.writeableCap.toNat) : Sock5Ctxt :=
  { s with
    __rxBuf := (Connection.recv (s.__rxBuf.fill xs hxs) (.ofNat xs.length)).1
    received := s.received ++ xs }

/-- A pass of the loop in {lit}`run`, up to the next {lit}`recv`. -/
def pass (env : Env) : Sock5Ctxt :=
  match s.dispatch env with
  | .ok s => { s with phase := if s.__linkflag then .recv else .close }
  | .error _ => { s with phase := .thrown }

/-- A pass of the loop in {lit}`handleRLink`. -/
def relay (r : SendRet) (xs : List UInt8) (hxs : xs.length ≤ s.__txBuf.writeableCap.toNat) :
    Sock5Ctxt :=
  let txBuf := (Connection.recv (s.__txBuf.fill xs hxs) (.ofNat xs.length)).1
  let sent := sendBuf txBuf r
  { s with
    __txBuf := sent.1
    rlink := if s.__linkflag then .recv else .done
    relayed := s.relayed ++ sent.2 }

/-- One step. -/
def step (s : Sock5Ctxt) : Action → Option Sock5Ctxt
  | .recv env xs =>
      match s.phase with
      | .recv =>
          if h : xs ≠ [] ∧ xs.length ≤ s.__rxBuf.writeableCap.toNat then
            some ((s.receive xs h.2).pass env)
          else none
      | _ => none
  | .recvEnd =>
      match s.phase with
      | .recv => some { s with __linkflag := false, phase := .close }
      | _ => none
  | .rlink r xs =>
      match s.rlink with
      | .recv =>
          if h : xs ≠ [] ∧ xs.length ≤ s.__txBuf.writeableCap.toNat then some (s.relay r xs h.2)
          else none
      | _ => none
  | .rlinkEnd =>
      match s.rlink with
      | .recv => some { s with __linkflag := false, rlink := .done }
      | _ => none

/-- A session from whatever {lit}`serv_addr` and {lit}`sockfd` happen to hold. -/
def machine : Machine Sock5Ctxt Action where
  init s := ∃ serv_addr sockfd, s = construct serv_addr sockfd
  step := step

end Sock5Ctxt
end CoEpoll
