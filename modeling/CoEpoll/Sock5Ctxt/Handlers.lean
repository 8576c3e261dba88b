import CoEpoll.Conn.Buffer.Fifo
import CoEpoll.Sock5Ctxt
import Mathlib.Data.List.TakeWhile

/-!
# `Sock5Ctxt`: what the handlers do with whole messages

A handler that finds its message as a whole at the front of {lit}`__rxBuf` takes out this message and
leaves what is behind it.

Main results:

- Theorem {lit}`handleAuth_whole`: the answer to a greeting.
- Theorem {lit}`parseReq_whole`: the destination of a request.
- Theorem {lit}`sendBuf_sent`: a reply that is sent leaves the buffer empty.
-/

namespace CoEpoll

open Ring Socks5

/-! ## Single accesses -/

namespace Buffer

variable {b : Buffer UInt8}

theorem fetch_eq (b : Buffer UInt8) (i : Int) : b.fetch i = b.toFifo.index i :=
  index_refines b i

/-- A byte of the contents. -/
theorem fetch_of_getElem? {n : Nat} {ch : UInt8} (h : b.contents[n]? = some ch) :
    b.fetch n = .ok ch := by
  have hindex : (if (n : Int) < 0 then none else b.toFifo.items[(n : Int).toNat]?) = some ch := by
    rw [if_neg (by omega), Int.toNat_natCast]
    exact h
  rw [fetch_eq, Fifo.index, hindex]

/-- {lit}`operator[]` throws behind the contents. -/
theorem fetch_of_le {n : Nat} (h : b.contents.length ≤ n) :
    b.fetch n = .error "OutOfRangeException" := by
  have hindex : (if (n : Int) < 0 then none else b.toFifo.items[(n : Int).toNat]?) = none := by
    rw [if_neg (by omega), Int.toNat_natCast]
    exact List.getElem?_eq_none h
  rw [fetch_eq, Fifo.index, hindex]

/-- {lit}`retriveRaw` of the bytes at the front. -/
theorem retriveRaw_append {xs rest : List UInt8} (h : b.contents = xs ++ rest) :
    (b.retriveRaw xs.length).2.1 = xs ∧ (b.retriveRaw xs.length).1.contents = rest ∧
      (b.retriveRaw xs.length).1.__size = b.__size := by
  have hle : (xs.length : Int) ≤ b.length := by
    rw [← b.length_contents, h, List.length_append]
    omega
  rcases retriveRaw_eq (b := b) (n := xs.length) (by omega) with ⟨hbytes, hrest, _⟩
  rw [if_pos hle, Int.toNat_natCast, h] at hbytes hrest
  rw [List.take_left] at hbytes
  rw [List.drop_left] at hrest
  exact ⟨hbytes, hrest, b.size_retriveRaw _⟩

theorem retriveAddr_append {addr : InAddr} {rest : List UInt8}
    (h : b.contents = addr.bytes ++ rest) (old : InAddr) :
    (b.retriveAddr old).2 = addr ∧ (b.retriveAddr old).1.contents = rest ∧
      (b.retriveAddr old).1.__size = b.__size := by
  rcases retriveRaw_append h with ⟨hbytes, hrest, hsize⟩
  have hraw : b.retriveRaw 4 = ((b.retriveRaw 4).1, addr.bytes, (b.retriveRaw 4).2.2) := by
    rw [← hbytes]
    rfl
  unfold retriveAddr
  rw [hraw]
  exact ⟨rfl, hrest, hsize⟩

theorem retrivePort_append {port : InPort} {rest : List UInt8}
    (h : b.contents = port.bytes ++ rest) (old : InPort) :
    (b.retrivePort old).2 = port ∧ (b.retrivePort old).1.contents = rest ∧
      (b.retrivePort old).1.__size = b.__size := by
  rcases retriveRaw_append h with ⟨hbytes, hrest, hsize⟩
  have hraw : b.retriveRaw 2 = ((b.retriveRaw 2).1, port.bytes, (b.retriveRaw 2).2.2) := by
    rw [← hbytes]
    rfl
  unfold retrivePort
  rw [hraw]
  exact ⟨rfl, hrest, hsize⟩

/-- {lit}`retriveStr` of the bytes at the front. -/
theorem retriveStr_append {xs rest : List UInt8} (h : b.contents = xs ++ rest) :
    (b.retriveStr xs.length).2 = xs ∧ (b.retriveStr xs.length).1.contents = rest := by
  have hlt := b.length_lt
  have hsize := b.__size.toNat_lt
  have hle : xs.length ≤ b.length := by
    rw [← b.length_contents, h, List.length_append]
    omega
  have heq := retriveStr_eq (b := b) (n := xs.length) (by omega) (by omega)
  dsimp only at heq
  rw [if_neg (by omega), Int.toNat_natCast, Nat.min_eq_left hle, h, List.take_left,
    List.drop_left] at heq
  exact heq

/-- {lit}`insertCh` of bytes for which there is room. -/
theorem contents_insertChs {chs : List UInt8}
    (h : b.contents.length + chs.length ≤ b.__size.toNat - 1) :
    (b.insertChs chs).contents = b.contents ++ chs ∧ (b.insertChs chs).__size = b.__size := by
  induction chs generalizing b with
  | nil => exact ⟨(List.append_nil _).symm, rfl⟩
  | cons ch chs ih =>
      rw [List.length_cons, b.length_contents] at h
      have hch : (b.insertCh ch).1.contents = b.contents ++ [ch] := by
        rw [contents_insertCh, if_pos (by omega)]
      have hrest := ih (b := (b.insertCh ch).1) (by
        rw [hch, b.size_insertCh, List.length_append, List.length_singleton, b.length_contents]
        omega)
      rw [hch, b.size_insertCh, List.append_assoc, List.singleton_append] at hrest
      exact hrest

theorem int_readableCap_lt {k : Int} : int b.readableCap < k ↔ (b.contents.length : Int) < k := by
  rw [b.int_readableCap, b.length_contents]

end Buffer

namespace Sock5Ctxt

variable {s : Sock5Ctxt} {b : Buffer UInt8} {env : Env}

/-- A reply that is sent leaves the buffer empty. -/
theorem sendBuf_sent (b : Buffer UInt8) :
    (sendBuf b .sent).2 = b.contents ∧ (sendBuf b .sent).1.contents = [] ∧
      (sendBuf b .sent).1.__size = b.__size := by
  have hlt := b.length_lt
  have hsize := b.__size.toNat_lt
  have htotal : total (b.data true) = b.length := by
    have hstart := b.start_lt
    have hbuf := b.length_buf
    rw [b.data_true, total_segments (by omega)]
  have hcount : (Int32.ofNat (total (b.data true))).toInt = b.length := by
    rw [htotal, Int32.toInt_ofNat_of_lt (by omega)]
  rcases Connection.send_all hcount with ⟨hempty, hkeep⟩
  exact ⟨b.flatten_iovec, hempty, hkeep⟩

/-- A send that fails leaves the buffer as it is. -/
theorem sendBuf_failed (b : Buffer UInt8) : sendBuf b (.failed 0) = (b, []) := by
  have hneg : (-1 : Int32) < 0 := by decide
  rw [sendBuf, Connection.send, if_pos hneg, List.take_zero]

/-- What {lit}`recv` puts into the buffer. -/
theorem contents_receive {xs : List UInt8} (hxs : xs.length ≤ s.__rxBuf.writeableCap.toNat) :
    (s.receive xs hxs).__rxBuf.contents = s.__rxBuf.contents ++ xs ∧
      (s.receive xs hxs).__rxBuf.__size = s.__rxBuf.__size := by
  have hcap := s.__rxBuf.writeableCap.toNat_lt
  have hcount : (Int32.ofNat xs.length).toInt = xs.length :=
    Int32.toInt_ofNat_of_lt (by omega)
  rcases Connection.recv_fill hxs hcount with ⟨hcontents, hsize, _⟩
  exact ⟨hcontents, hsize⟩

theorem charInt_ofNat {n : Nat} (h : n < 128) : charInt (.ofNat n) = n := by
  have hbits : (UInt8.ofNat n).toInt8.toBitVec = BitVec.ofNat 8 n := rfl
  have hnat : (BitVec.ofNat 8 n).toNat = n := by
    rw [BitVec.toNat_ofNat]
    omega
  rw [charInt, ← Int8.toInt_toBitVec, hbits, BitVec.toInt_eq_toNat_of_lt (by omega), hnat]

/-- A string without NUL is not cut. -/
theorem cString_eq {str : List UInt8} (h : 0 ∉ str) : cString str = str := by
  apply List.takeWhile_eq_self_iff.mpr
  intro ch hmem
  apply decide_eq_true
  rintro rfl
  exact h hmem

/-! ## The greeting -/

/-- The loop over methods that have all been received. -/
theorem findMethod_eq {n i : Nat} (h : i + n ≤ b.contents.length) :
    findMethod b n i = .ok (if 0 ∈ (b.contents.drop i).take n then 0 else 0xff) := by
  induction n generalizing i with
  | zero => rfl
  | succ n ih =>
      have hlt : i < b.contents.length := by omega
      have hfetch := Buffer.fetch_of_getElem? (List.getElem?_eq_getElem hlt)
      have hdrop : (b.contents.drop i).take (n + 1) =
          b.contents[i] :: (b.contents.drop (i + 1)).take n := by
        rw [List.drop_eq_getElem_cons hlt, List.take_succ_cons]
      rw [findMethod, hfetch, hdrop]
      change (if b.contents[i] = 0 then Except.ok 0 else findMethod b n (i + 1)) = _
      by_cases hzero : b.contents[i] = 0
      · rw [if_pos hzero, if_pos (by rw [hzero]; exact List.mem_cons_self)]
      · have hmem : 0 ∈ b.contents[i] :: (b.contents.drop (i + 1)).take n ↔
            0 ∈ (b.contents.drop (i + 1)).take n := by
          rw [List.mem_cons, or_iff_right (Ne.symm hzero)]
        rw [if_neg hzero, ih (by omega)]
        simp only [hmem]

/-- The loop throws when it comes to the end of what has been received. -/
theorem findMethod_truncated {n i : Nat} (hi : i ≤ b.contents.length)
    (h : b.contents.length < i + n) (hzero : 0 ∉ b.contents.drop i) :
    findMethod b n i = .error "OutOfRangeException" := by
  induction n generalizing i with
  | zero => omega
  | succ n ih =>
      rw [findMethod]
      by_cases hlt : i < b.contents.length
      · have hfetch := Buffer.fetch_of_getElem? (List.getElem?_eq_getElem hlt)
        rw [List.drop_eq_getElem_cons hlt, List.mem_cons, not_or] at hzero
        rw [hfetch]
        change (if b.contents[i] = 0 then Except.ok 0 else findMethod b n (i + 1)) = _
        rw [if_neg (Ne.symm hzero.1)]
        exact ih (by omega) (by omega) hzero.2
      · rw [Buffer.fetch_of_le (by omega)]
        rfl

/-- {lit}`handleAuth` looks for a method among as many bytes as the greeting says. -/
theorem readMethods_eq {ver mNum : UInt8} {tail : List UInt8}
    (h : b.contents = ver :: mNum :: tail) :
    (b.clear 2).1.contents = tail ∧
      readMethods b = (findMethod (b.clear 2).1 mNum.toNat 0).map fun method =>
        (((b.clear 2).1.clear (.ofNat mNum.toNat)).1, method) := by
  have hmax : (if mNum < 255 then mNum else 255) = mNum := by
    split
    · rfl
    · rename_i hge
      apply UInt8.toNat_inj.mp
      have hge := mt UInt8.lt_iff_toNat_lt.mpr hge
      have hlt := mNum.toNat_lt
      have htop : (255 : UInt8).toNat = 255 := rfl
      omega
  have hfetch : b.fetch 1 = .ok mNum := by
    apply Buffer.fetch_of_getElem? (n := 1)
    rw [h]
    rfl
  constructor
  · rw [Buffer.contents_clear, h]
    rfl
  · rw [readMethods, hfetch]
    dsimp only [bind, Except.bind]
    rw [hmax]
    cases findMethod (b.clear 2).1 mNum.toNat 0 <;> rfl

/-- The methods of a greeting that has been received as a whole. -/
theorem readMethods_whole {ver mNum : UInt8} {methods rest : List UInt8}
    (h : b.contents = ver :: mNum :: (methods ++ rest)) (hlen : methods.length = mNum.toNat) :
    ∃ rxBuf, readMethods b = .ok (rxBuf, if 0 ∈ methods then 0 else 0xff) ∧
      rxBuf.contents = rest ∧ rxBuf.__size = b.__size := by
  rcases readMethods_eq h with ⟨hcleared, hread⟩
  have hcount : (UInt16.ofNat mNum.toNat).toNat = mNum.toNat := by
    have hlt := mNum.toNat_lt
    rw [UInt16.toNat_ofNat', Nat.mod_eq_of_lt (by omega)]
  have hfind := findMethod_eq (b := (b.clear 2).1) (n := mNum.toNat) (i := 0) (by
    rw [hcleared, List.length_append]
    omega)
  rw [hcleared, List.drop_zero, ← hlen, List.take_left] at hfind
  refine ⟨((b.clear 2).1.clear (.ofNat mNum.toNat)).1, ?_, ?_, rfl⟩
  · rw [hread, ← hlen, hfind]
    rfl
  · rw [Buffer.contents_clear, hcount, hcleared, ← hlen, List.drop_left]

/-- {lit}`handleAuth` waits for three bytes. -/
theorem handleAuth_short (h : s.__rxBuf.contents.length < 3) : s.handleAuth env = .ok (s, 0) := by
  rw [handleAuth, if_pos (Buffer.int_readableCap_lt.mpr (by omega))]
  rfl

/-- {lit}`handleAuth` ignores another version. -/
theorem handleAuth_version {ver : UInt8} {rest : List UInt8}
    (h : s.__rxBuf.contents = ver :: rest) (hlen : 2 ≤ rest.length) (hver : ver ≠ SOCK5_VERSION) :
    s.handleAuth env = .ok (s, 1) := by
  have hfetch : s.__rxBuf.fetch 0 = .ok ver := by
    apply Buffer.fetch_of_getElem? (n := 0)
    rw [h]
    rfl
  rw [handleAuth, if_neg (by rw [Buffer.int_readableCap_lt, h, List.length_cons]; omega), hfetch]
  dsimp only [bind, Except.bind]
  rw [if_pos hver]
  rfl

/-- {lit}`handleAuth` answers a greeting that has been received as a whole. -/
theorem handleAuth_whole (env : Env) {mNum : UInt8} {methods rest : List UInt8}
    (h : s.__rxBuf.contents = SOCK5_VERSION :: mNum :: (methods ++ rest))
    (hlen : methods.length = mNum.toNat) (hthree : 1 ≤ (methods ++ rest).length) :
    ∃ rxBuf, s.handleAuth env =
        .ok (s.answer rxBuf (if 0 ∈ methods then 0 else 0xff) env.localSend, 0) ∧
      rxBuf.contents = rest ∧ rxBuf.__size = s.__rxBuf.__size := by
  rcases readMethods_whole h hlen with ⟨rxBuf, hread, hrest, hsize⟩
  have hfetch : s.__rxBuf.fetch 0 = .ok SOCK5_VERSION := by
    apply Buffer.fetch_of_getElem? (n := 0)
    rw [h]
    rfl
  refine ⟨rxBuf, ?_, hrest, hsize⟩
  rw [handleAuth, if_neg (by
    rw [Buffer.int_readableCap_lt, h, List.length_cons, List.length_cons]
    omega), hfetch]
  dsimp only [bind, Except.bind]
  rw [if_neg (not_not.mpr rfl), hread]
  rfl

/-- {lit}`handleAuth` throws when the methods have not all been received and none of them is 0. -/
theorem handleAuth_truncated {mNum : UInt8} {tail : List UInt8}
    (h : s.__rxBuf.contents = SOCK5_VERSION :: mNum :: tail) (hpos : 1 ≤ tail.length)
    (hlen : tail.length < mNum.toNat) (hzero : 0 ∉ tail) :
    s.handleAuth env = .error "OutOfRangeException" := by
  rcases readMethods_eq h with ⟨hcleared, hread⟩
  have hfind := findMethod_truncated (b := (s.__rxBuf.clear 2).1) (n := mNum.toNat) (i := 0)
    (by omega) (by rw [hcleared]; omega) (by rw [hcleared]; exact hzero)
  have hfetch : s.__rxBuf.fetch 0 = .ok SOCK5_VERSION := by
    apply Buffer.fetch_of_getElem? (n := 0)
    rw [h]
    rfl
  rw [handleAuth, if_neg (by
    rw [Buffer.int_readableCap_lt, h, List.length_cons, List.length_cons]
    omega), hfetch]
  dsimp only [bind, Except.bind]
  rw [if_neg (not_not.mpr rfl), hread, hfind]
  rfl

/-! ## The request -/

/-- {lit}`handleReq` reads the length of a name as a {lit}`char`. -/
def Readable (r : Request) : Prop :=
  match r.dest with
  | .ipv4 _ => True
  | .domain name _ => name.length < 128

/-- What {lit}`handleReq` has read when it looks the destination up: what is left in {lit}`__rxBuf`, {lit}`sin_addr`
or the string {lit}`addr`, and {lit}`sin_port`. -/
structure Reading where
  rxBuf : Buffer UInt8
  dest : InAddr ⊕ List UInt8
  sin_port : InPort

/-- The reading of address type 1, if {lit}`handleReq` does not wait for more. -/
def readIpv4 (s : Sock5Ctxt) : Option Reading :=
  let rxBuf := (s.__rxBuf.clear 4).1
  if Buffer.int rxBuf.readableCap < 4 then none
  else
    let addr := rxBuf.retriveAddr s.serv_addr.sin_addr
    let port := addr.1.retrivePort s.serv_addr.sin_port
    some ⟨port.1, .inl addr.2, port.2⟩

/-- The reading of address type 3. -/
def readDomain (s : Sock5Ctxt) (len : Int) : Option Reading :=
  let rxBuf := (s.__rxBuf.clear 5).1
  if Buffer.int rxBuf.readableCap < len then none
  else
    let addr := rxBuf.retriveStr len
    let port := addr.1.retrivePort s.serv_addr.sin_port
    some ⟨port.1, .inr addr.2, port.2⟩

/-- {lit}`handleReq` behind the reading. -/
def lookUp (s : Sock5Ctxt) (gethostbyname : List UInt8 → Option InAddr) (reading : Reading) :
    Sock5Ctxt × Option Int :=
  let s := { s with
    __rxBuf := reading.rxBuf
    serv_addr := ⟨s.serv_addr.sin_addr, reading.sin_port⟩ }
  match reading.dest with
  | .inl addr => ({ s with serv_addr := { s.serv_addr with sin_addr := addr } }, none)
  | .inr name =>
      match gethostbyname (cString name) with
      | none => (s, some 1)
      | some addr => ({ s with serv_addr := { s.serv_addr with sin_addr := addr } }, none)

variable {r : Request} {rest : List UInt8} {addr : InAddr} {name : List UInt8} {reading : Reading}

theorem parseIpv4_of_read (h : s.readIpv4 = some reading)
    (gethostbyname : List UInt8 → Option InAddr) : s.parseIpv4 = s.lookUp gethostbyname reading := by
  unfold readIpv4 at h
  unfold parseIpv4
  dsimp only at h ⊢
  split at h
  · cases h
  · rename_i henough
    rw [if_neg henough, ← Option.some.inj h]
    rfl

theorem parseDomain_of_read {len : Int} (h : s.readDomain len = some reading)
    (gethostbyname : List UInt8 → Option InAddr) :
    s.parseDomain gethostbyname len = s.lookUp gethostbyname reading := by
  unfold readDomain at h
  unfold parseDomain
  dsimp only at h ⊢
  split at h
  · cases h
  · rename_i henough
    rw [if_neg henough, ← Option.some.inj h]
    rfl

/-- {lit}`handleReq` takes the address and the port out of a request for an address. -/
theorem readIpv4_whole (h : s.__rxBuf.contents = r.encode ++ rest) (hdest : r.dest = .ipv4 addr) :
    ∃ rxBuf : Buffer UInt8, rxBuf.contents = rest ∧
      s.readIpv4 = some ⟨rxBuf, .inl addr, r.port⟩ := by
  have hcleared : (s.__rxBuf.clear 4).1.contents = addr.bytes ++ (r.port.bytes ++ rest) := by
    rw [Buffer.contents_clear, h, Request.encode, hdest, Dest.encode]
    rfl
  rcases Buffer.retriveAddr_append hcleared s.serv_addr.sin_addr with ⟨haddr, hafter, _⟩
  rcases Buffer.retrivePort_append hafter s.serv_addr.sin_port with ⟨hport, hrest, _⟩
  refine ⟨_, hrest, ?_⟩
  rw [readIpv4, if_neg]
  · dsimp only
    rw [haddr, hport]
  · rw [Buffer.int_readableCap_lt, hcleared, List.length_append, InAddr.bytes]
    dsimp only [List.length_cons, List.length_nil]
    omega

/-- What follows the length of the name in a request for a name. -/
theorem contents_clear_domain {bounded : name.length < 256}
    (h : s.__rxBuf.contents = r.encode ++ rest) (hdest : r.dest = .domain name bounded) :
    (s.__rxBuf.clear 5).1.contents = name ++ (r.port.bytes ++ rest) := by
  rw [Buffer.contents_clear, h, Request.encode, hdest, Dest.encode, ← List.append_assoc]
  rfl

/-- {lit}`handleReq` takes the name and the port out of a request for a name. -/
theorem readDomain_whole {bounded : name.length < 256}
    (h : s.__rxBuf.contents = r.encode ++ rest) (hdest : r.dest = .domain name bounded) :
    ∃ rxBuf : Buffer UInt8, rxBuf.contents = rest ∧
      s.readDomain name.length = some ⟨rxBuf, .inr name, r.port⟩ := by
  have hcleared := contents_clear_domain h hdest
  rcases Buffer.retriveStr_append hcleared with ⟨hname, hafter⟩
  rcases Buffer.retrivePort_append hafter s.serv_addr.sin_port with ⟨hport, hrest, _⟩
  refine ⟨_, hrest, ?_⟩
  rw [readDomain, if_neg]
  · dsimp only
    rw [hname, hport]
  · rw [Buffer.int_readableCap_lt, hcleared, List.length_append]
    omega

theorem parseIpv4_whole (h : s.__rxBuf.contents = r.encode ++ rest)
    (hdest : r.dest = .ipv4 addr) :
    ∃ rxBuf : Buffer UInt8, rxBuf.contents = rest ∧
      s.parseIpv4 = ({ s with __rxBuf := rxBuf, serv_addr := ⟨addr, r.port⟩ }, none) := by
  rcases readIpv4_whole h hdest with ⟨rxBuf, hrest, hread⟩
  exact ⟨rxBuf, hrest, parseIpv4_of_read hread fun _ => none⟩

/-- {lit}`handleReq` looks the name up. -/
theorem parseDomain_whole {bounded : name.length < 256}
    (h : s.__rxBuf.contents = r.encode ++ rest) (hdest : r.dest = .domain name bounded)
    (gethostbyname : List UInt8 → Option InAddr) :
    ∃ rxBuf : Buffer UInt8, rxBuf.contents = rest ∧
      s.parseDomain gethostbyname name.length =
        match gethostbyname (cString name) with
        | none => ({ s with
            __rxBuf := rxBuf, serv_addr := ⟨s.serv_addr.sin_addr, r.port⟩ }, some 1)
        | some addr => ({ s with __rxBuf := rxBuf, serv_addr := ⟨addr, r.port⟩ }, none) := by
  rcases readDomain_whole h hdest with ⟨rxBuf, hrest, hread⟩
  exact ⟨rxBuf, hrest, parseDomain_of_read hread gethostbyname⟩

theorem fetch_ipv4 (h : s.__rxBuf.contents = r.encode ++ rest) (hdest : r.dest = .ipv4 addr) :
    s.__rxBuf.fetch 3 = .ok 1 := by
  apply Buffer.fetch_of_getElem? (n := 3)
  rw [h, Request.encode, hdest]
  rfl

theorem fetch_domain {bounded : name.length < 256} (h : s.__rxBuf.contents = r.encode ++ rest)
    (hdest : r.dest = .domain name bounded) :
    s.__rxBuf.fetch 3 = .ok 3 ∧ s.__rxBuf.fetch 4 = .ok (.ofNat name.length) := by
  constructor
  · apply Buffer.fetch_of_getElem? (n := 3)
    rw [h, Request.encode, hdest]
    rfl
  · apply Buffer.fetch_of_getElem? (n := 4)
    rw [h, Request.encode, hdest]
    rfl

/-- {lit}`handleReq` up to {lit}`colib::socket`, for a request that it can read. -/
theorem parseReq_whole (h : s.__rxBuf.contents = r.encode ++ rest) (hr : Readable r)
    (gethostbyname : List UInt8 → Option InAddr) :
    ∃ (rxBuf : Buffer UInt8) (serv_addr : SockAddr), rxBuf.contents = rest ∧
      (∀ addr, r.target (gethostbyname ∘ cString) = some addr → serv_addr = addr) ∧
      s.parseReq gethostbyname = .ok ({ s with __rxBuf := rxBuf, serv_addr := serv_addr },
        if r.target (gethostbyname ∘ cString) = none then some 1 else none) := by
  cases hdest : r.dest with
  | ipv4 addr =>
      have hatyp := fetch_ipv4 h hdest
      have htarget : r.target (gethostbyname ∘ cString) = some ⟨addr, r.port⟩ := by
        rw [Request.target, hdest]
      rcases parseIpv4_whole h hdest with ⟨rxBuf, hrest, hparse⟩
      refine ⟨rxBuf, ⟨addr, r.port⟩, hrest, ?_, ?_⟩
      · rw [htarget]
        exact fun _ heq => Option.some.inj heq
      · rw [parseReq, hatyp, htarget]
        exact congrArg Except.ok hparse
  | domain name bounded =>
      rcases fetch_domain h hdest with ⟨hatyp, hfetch⟩
      have hlt : name.length < 128 := by
        rw [Readable, hdest] at hr
        exact hr
      have htarget : r.target (gethostbyname ∘ cString) =
          (gethostbyname (cString name)).map fun addr => ⟨addr, r.port⟩ := by
        rw [Request.target, hdest]
        rfl
      rcases parseDomain_whole h hdest gethostbyname with ⟨rxBuf, hrest, hparse⟩
      have hreq : s.parseReq gethostbyname = .ok (s.parseDomain gethostbyname name.length) := by
        rw [parseReq, hatyp, ← charInt_ofNat hlt]
        dsimp only [bind, Except.bind]
        rw [hfetch]
        rfl
      rw [hreq, hparse, htarget]
      cases gethostbyname (cString name) with
      | none =>
          refine ⟨rxBuf, _, hrest, fun addr heq => ?_, rfl⟩
          cases heq
      | some addr => exact ⟨rxBuf, _, hrest, fun _ heq => Option.some.inj heq, rfl⟩

/-- {lit}`handleReq` waits for five bytes. -/
theorem handleReq_short (h : s.__rxBuf.contents.length < 5) : s.handleReq env = .ok (s, 0) := by
  rw [handleReq, if_pos (Buffer.int_readableCap_lt.mpr (by omega))]
  rfl

theorem five_le_length_encode (r : Request) : 5 ≤ r.encode.length := by
  rw [Request.encode]
  cases r.dest <;> simp [Dest.encode, InAddr.bytes, InPort.bytes]

/-- {lit}`handleReq` goes on with a destination that it has found. -/
theorem handleReq_found (h : s.__rxBuf.contents = r.encode ++ rest) (hr : Readable r)
    {addr : SockAddr} (htarget : r.target (env.gethostbyname ∘ cString) = some addr) :
    ∃ rxBuf : Buffer UInt8, rxBuf.contents = rest ∧
      s.handleReq env = .ok ({ s with __rxBuf := rxBuf, serv_addr := addr }.link env) := by
  rcases parseReq_whole h hr env.gethostbyname with ⟨rxBuf, serv_addr, hrest, haddr, hparse⟩
  cases haddr addr htarget
  refine ⟨rxBuf, hrest, ?_⟩
  rw [handleReq, if_neg, hparse, htarget]
  · rfl
  · have hfive := five_le_length_encode r
    rw [Buffer.int_readableCap_lt, h, List.length_append]
    omega

/-- {lit}`handleReq` gives up a request for a name that cannot be looked up. -/
theorem handleReq_unknown (h : s.__rxBuf.contents = r.encode ++ rest) (hr : Readable r)
    (htarget : r.target (env.gethostbyname ∘ cString) = none) :
    ∃ (rxBuf : Buffer UInt8) (serv_addr : SockAddr), rxBuf.contents = rest ∧
      s.handleReq env = .ok ({ s with
        __rxBuf := rxBuf, serv_addr := serv_addr }.nextMessage requestLength, 1) := by
  rcases parseReq_whole h hr env.gethostbyname with ⟨rxBuf, serv_addr, hrest, _, hparse⟩
  refine ⟨rxBuf, serv_addr, hrest, ?_⟩
  rw [handleReq, if_neg, hparse, htarget]
  · rfl
  · have hfive := five_le_length_encode r
    rw [Buffer.int_readableCap_lt, h, List.length_append]
    omega

/-- {lit}`handleReq` goes on with what {lit}`serv_addr` holds when it does not know the address type. -/
theorem handleReq_unsupported {atyp : UInt8} (hlen : 5 ≤ s.__rxBuf.contents.length)
    (hatyp : s.__rxBuf.contents[3]? = some atyp) (hipv4 : atyp ≠ 1) (hdomain : atyp ≠ 3) :
    s.handleReq env = .ok (s.link env) := by
  have hfetch : s.__rxBuf.fetch 3 = .ok atyp := Buffer.fetch_of_getElem? hatyp
  have hparse : s.parseReq env.gethostbyname = .ok (s, none) := by
    rw [parseReq, hfetch]
    dsimp only [bind, Except.bind]
    rw [if_neg hipv4, if_neg hdomain]
    rfl
  rw [handleReq, if_neg (by rw [Buffer.int_readableCap_lt]; omega), hparse]
  rfl

/-! ## The connection -/

/-- {lit}`colib::connect` returns 0. -/
theorem link_connected (hsocket : 0 < env.socket) (hconnect : env.connect s.serv_addr = true) :
    s.link env = ({ s with
      sockfd := env.socket
      opened := s.opened ++ [env.socket]
      connects := s.connects ++ [s.serv_addr] }.grant env (some true), 0) := by
  rw [link, if_pos hsocket, if_pos hconnect]

/-- {lit}`colib::connect` returns -1. -/
theorem link_failed (hsocket : 0 < env.socket) (hconnect : env.connect s.serv_addr = false) :
    s.link env = ({ s with
      sockfd := env.socket
      opened := s.opened ++ [env.socket]
      connects := s.connects ++ [s.serv_addr] }.nextMessage requestLength, 2) := by
  rw [link, if_pos hsocket, if_neg (by rw [hconnect]; decide)]

/-- {lit}`colib::socket` returns no descriptor. -/
theorem link_refused (hsocket : ¬ 0 < env.socket) :
    s.link env = ({ s with
      sockfd := env.socket
      opened := s.opened ++ [env.socket] }.grant env none, 0) := by
  rw [link, if_neg hsocket]

/-! ## What a handler can do -/

theorem bind_eq_ok {α β : Type} {x : Except String α} {f : α → Except String β} {b : β}
    (h : (x >>= f) = .ok b) : ∃ a, x = .ok a ∧ f a = .ok b := by
  cases x with
  | error e => cases h
  | ok a => exact ⟨a, rfl, h⟩

theorem map_eq_ok {α β : Type} {x : Except String α} {f : α → β} {b : β}
    (h : x.map f = .ok b) : ∃ a, x = .ok a ∧ f a = b := by
  cases x with
  | error e => cases h
  | ok a => exact ⟨a, rfl, Except.ok.inj h⟩

/-- {lit}`handleAuth` answers, or it leaves everything as it is. -/
theorem handleAuth_cases {ret : Sock5Ctxt × Int} (h : s.handleAuth env = .ok ret) :
    ret.1 = s ∨ ∃ rxBuf method, ret.1 = s.answer rxBuf method env.localSend := by
  unfold handleAuth at h
  split at h
  · cases h
    exact .inl rfl
  · rcases bind_eq_ok h with ⟨ver, _, h⟩
    split at h
    · cases h
      exact .inl rfl
    · rcases bind_eq_ok h with ⟨⟨rxBuf, method⟩, _, h⟩
      cases h
      exact .inr ⟨rxBuf, method, rfl⟩

/-- {lit}`handleReq` writes to {lit}`__rxBuf` and {lit}`serv_addr` before it calls {lit}`colib::socket`. -/
theorem parseReq_frame {gethostbyname : List UInt8 → Option InAddr} {ret : Sock5Ctxt × Option Int}
    (h : s.parseReq gethostbyname = .ok ret) :
    ∃ rxBuf serv_addr, ret.1 = { s with __rxBuf := rxBuf, serv_addr := serv_addr } := by
  rcases bind_eq_ok h with ⟨atyp, _, h⟩
  split at h
  · cases h
    unfold parseIpv4
    dsimp only
    split <;> exact ⟨_, _, rfl⟩
  · split at h
    · rcases bind_eq_ok h with ⟨len, _, h⟩
      cases h
      unfold parseDomain
      dsimp only
      split
      · exact ⟨_, _, rfl⟩
      · split <;> exact ⟨_, _, rfl⟩
    · cases h
      exact ⟨_, _, rfl⟩

/-- {lit}`handleReq` goes on to {lit}`colib::socket`, or it gives the request up, or it waits. -/
theorem handleReq_cases {ret : Sock5Ctxt × Int} (h : s.handleReq env = .ok ret) :
    ∃ rxBuf serv_addr, let t := { s with __rxBuf := rxBuf, serv_addr := serv_addr }
      ret.1 = (t.link env).1 ∨ ret.1 = t.nextMessage requestLength ∨ ret.1 = t := by
  unfold handleReq at h
  split at h
  · cases h
    exact ⟨_, _, .inr (.inr rfl)⟩
  · rcases bind_eq_ok h with ⟨⟨t, code⟩, hparse, h⟩
    rcases parseReq_frame hparse with ⟨rxBuf, serv_addr, rfl⟩
    refine ⟨rxBuf, serv_addr, ?_⟩
    cases code with
    | none =>
        cases h
        exact .inl rfl
    | some code =>
        dsimp only at h
        split at h <;> cases h
        · exact .inr (.inl rfl)
        · exact .inr (.inr rfl)

/-- A pass ends with what the handler leaves, or the handler throws. -/
theorem pass_cases (s : Sock5Ctxt) (env : Env) :
    (∃ t, s.dispatch env = .ok t ∧
      s.pass env = { t with phase := if t.__linkflag then .recv else .close }) ∨
    s.pass env = { s with phase := .thrown } := by
  unfold pass
  cases hdispatch : s.dispatch env with
  | error e => exact .inr rfl
  | ok t => exact .inl ⟨t, rfl, rfl⟩

/-- What the steps do. -/
theorem step_cases {a : Action} {s' : Sock5Ctxt} (h : step s a = some s') :
    match a with
    | .recv env xs => s.phase = .recv ∧ xs ≠ [] ∧ ∃ hxs, s' = (s.receive xs hxs).pass env
    | .recvEnd => s' = { s with __linkflag := false, phase := .close }
    | .rlink r xs => ∃ hxs, s' = s.relay r xs hxs
    | .rlinkEnd => s' = { s with __linkflag := false, rlink := .done } := by
  cases a with
  | recv env xs =>
      simp only [step] at h
      split at h
      · rename_i hphase
        split at h
        · rename_i hin
          cases h
          exact ⟨hphase, hin.1, hin.2, rfl⟩
        · cases h
      · cases h
  | recvEnd =>
      simp only [step] at h
      split at h
      · cases h
        rfl
      · cases h
  | rlink r xs =>
      simp only [step] at h
      split at h
      · split at h
        · rename_i hin
          cases h
          exact ⟨hin.2, rfl⟩
        · cases h
      · cases h
  | rlinkEnd =>
      simp only [step] at h
      split at h
      · cases h
        rfl
      · cases h

end Sock5Ctxt
end CoEpoll
