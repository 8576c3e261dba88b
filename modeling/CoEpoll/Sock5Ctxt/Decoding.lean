import CoEpoll.Sock5Ctxt.Handlers

/-!
# `Sock5Ctxt::handleReq`: what it reads of a whole request

The length of a name goes through a {lit}`char`, so that one of 128 bytes or more is negative, and
{lit}`retriveStr` takes all that is there.

Main results:

- Theorem {lit}`handleReq_of_read`: {lit}`handleReq` goes on with what it has read.
- Theorem {lit}`decodes_iff`: the destination and the port are read exactly if and only if the name is
  shorter than 128 bytes.
- Theorem {lit}`long_name_misread`: a name of 128 bytes is not read.
-/

namespace CoEpoll

open Ring Socks5

namespace Socks5

/-- The address or the name. -/
def Dest.value : Dest → InAddr ⊕ List UInt8
  | ipv4 addr => .inl addr
  | domain name _ => .inr name

end Socks5

namespace Sock5Ctxt

variable {s : Sock5Ctxt} {env : Env} {r : Request} {rest name : List UInt8} {reading : Reading}

/-- {lit}`handleReq` up to the use of what it has read. -/
def readReq (s : Sock5Ctxt) : Except String (Option Reading) :=
  if Buffer.int s.__rxBuf.readableCap < 5 then return none
  else do
    let atyp ← s.__rxBuf.fetch 3
    if atyp = 1 then return s.readIpv4
    else if atyp = 3 then return s.readDomain (charInt (← s.__rxBuf.fetch 4))
    else return none

/-- {lit}`handleReq` has read the destination and the port of the request, and {lit}`__rxBuf` holds what is
behind it. -/
def Decodes (s : Sock5Ctxt) (r : Request) (rest : List UInt8) : Prop :=
  ∃ reading, s.readReq = .ok (some reading) ∧ reading.dest = r.dest.value ∧
    reading.sin_port = r.port ∧ reading.rxBuf.contents = rest

/-- The parts of {lit}`handleReq` read what {lit}`readReq` says. -/
theorem parseReq_of_read (h : s.readReq = .ok (some reading)) :
    ¬ Buffer.int s.__rxBuf.readableCap < 5 ∧
      s.parseReq env.gethostbyname = .ok (s.lookUp env.gethostbyname reading) := by
  unfold readReq at h
  split at h
  · cases h
  · rename_i henough
    refine ⟨henough, ?_⟩
    unfold parseReq
    rcases bind_eq_ok h with ⟨atyp, hatyp, h⟩
    rw [hatyp]
    dsimp only [bind, Except.bind]
    split at h
    · rename_i hipv4
      rw [if_pos hipv4, parseIpv4_of_read (Except.ok.inj h) env.gethostbyname]
      rfl
    · rename_i hipv4
      split at h
      · rename_i hdomain
        rcases bind_eq_ok h with ⟨len, hlen, h⟩
        rw [if_neg hipv4, if_pos hdomain, hlen]
        dsimp only
        rw [parseDomain_of_read (Except.ok.inj h) env.gethostbyname]
        rfl
      · cases h

/-- {lit}`handleReq` goes on with what it has read. -/
theorem handleReq_of_read (h : s.readReq = .ok (some reading)) :
    s.handleReq env = match s.lookUp env.gethostbyname reading with
      | (t, none) => .ok (t.link env)
      | (t, some ret) => if ret = 1 then .ok (t.nextMessage requestLength, ret) else .ok (t, ret) := by
  have hparts : _ ∧ s.parseReq env.gethostbyname = _ := parseReq_of_read h
  rw [handleReq, if_neg hparts.1, hparts.2]
  rfl

/-- A request has at least five bytes. -/
theorem enough_of_whole (h : s.__rxBuf.contents = r.encode ++ rest) :
    ¬ Buffer.int s.__rxBuf.readableCap < 5 := by
  have hfive := five_le_length_encode r
  rw [Buffer.int_readableCap_lt, h, List.length_append]
  omega

theorem readReq_ipv4 {addr : InAddr} (h : s.__rxBuf.contents = r.encode ++ rest)
    (hdest : r.dest = .ipv4 addr) : s.readReq = .ok s.readIpv4 := by
  rw [readReq, if_neg (enough_of_whole h), fetch_ipv4 h hdest]
  rfl

theorem readReq_domain {bounded : name.length < 256} (h : s.__rxBuf.contents = r.encode ++ rest)
    (hdest : r.dest = .domain name bounded) :
    s.readReq = .ok (s.readDomain (charInt (.ofNat name.length))) := by
  rcases fetch_domain h hdest with ⟨hatyp, hlen⟩
  rw [readReq, if_neg (enough_of_whole h), hatyp]
  dsimp only [bind, Except.bind]
  rw [hlen]
  rfl

/-- A length of 128 or more is negative. -/
theorem charInt_neg {n : Nat} (hn : 128 ≤ n) (hlt : n < 256) : charInt (.ofNat n) = n - 256 := by
  have hbits : (UInt8.ofNat n).toInt8.toBitVec = BitVec.ofNat 8 n := rfl
  have hnat : (BitVec.ofNat 8 n).toNat = n := by
    rw [BitVec.toNat_ofNat]
    omega
  rw [charInt, ← Int8.toInt_toBitVec, hbits, BitVec.toInt_eq_toNat_cond, if_neg (by omega), hnat]
  rfl

/-- A name of 128 bytes or more takes everything behind it along. -/
theorem readDomain_long {bounded : name.length < 256} (h : s.__rxBuf.contents = r.encode ++ rest)
    (hdest : r.dest = .domain name bounded) (hlong : 128 ≤ name.length) :
    ∃ reading, s.readDomain (charInt (.ofNat name.length)) = some reading ∧
      reading.dest = .inr (name ++ (r.port.bytes ++ rest)) := by
  have hcleared := contents_clear_domain h hdest
  have hneg := charInt_neg hlong bounded
  rcases Buffer.retriveStr_eq (b := (s.__rxBuf.clear 5).1) (n := charInt (.ofNat name.length))
    (by omega) (by omega) with ⟨hall, _⟩
  rw [if_pos (by omega), hcleared, ← Buffer.length_contents, hcleared, List.take_length] at hall
  rw [readDomain, if_neg]
  · exact ⟨_, rfl, congrArg Sum.inr hall⟩
  · rw [Buffer.int_readableCap_lt]
    omega

/-- A request is decoded exactly if and only if its destination is an address, or a name of fewer
than 128 bytes. -/
theorem decodes_iff (s : Sock5Ctxt) (r : Request) (rest : List UInt8)
    (h : s.__rxBuf.contents = r.encode ++ rest) : s.Decodes r rest ↔ Readable r := by
  unfold Decodes Readable
  cases hdest : r.dest with
  | ipv4 addr =>
      rcases readIpv4_whole h hdest with ⟨rxBuf, hrest, hread⟩
      refine iff_of_true ⟨⟨rxBuf, .inl addr, r.port⟩, ?_, rfl, rfl, hrest⟩ trivial
      rw [readReq_ipv4 h hdest, hread]
  | domain name bounded =>
      rw [readReq_domain h hdest]
      constructor
      · rintro ⟨reading, hread, hname, _⟩
        dsimp only
        by_contra hlong
        rcases readDomain_long h hdest (Nat.le_of_not_lt hlong) with ⟨reading', hread', hname'⟩
        rw [hread'] at hread
        cases hread
        have heq : name ++ (r.port.bytes ++ rest) = name := Sum.inr.inj (hname'.symm.trans hname)
        have hnil := List.append_right_eq_self.mp heq
        rw [InPort.bytes] at hnil
        cases hnil
      · intro hshort
        rcases readDomain_whole h hdest with ⟨rxBuf, hrest, hread⟩
        refine ⟨⟨rxBuf, .inr name, r.port⟩, ?_, rfl, rfl, hrest⟩
        rw [charInt_ofNat hshort, hread]

/-- A session whose buffer holds these bytes. -/
theorem exists_received (xs : List UInt8) (hxs : xs.length < 1024) :
    ∃ s : Sock5Ctxt, s.__rxBuf.contents = xs := by
  have hempty : (construct ⟨⟨0, 0, 0, 0⟩, ⟨0, 0⟩⟩ 0).__rxBuf.contents = [] := by
    decide +kernel
  have hroom : (construct ⟨⟨0, 0, 0, 0⟩, ⟨0, 0⟩⟩ 0).__rxBuf.writeableCap.toNat = 1023 := by
    decide +kernel
  have hfits : xs.length ≤ (construct ⟨⟨0, 0, 0, 0⟩, ⟨0, 0⟩⟩ 0).__rxBuf.writeableCap.toNat := by
    rw [hroom]
    exact Nat.le_of_lt_succ hxs
  refine ⟨_, (contents_receive hfits).1.trans ?_⟩
  rw [hempty, List.nil_append]

/-- A request for a name of three bytes. -/
theorem decodes_iff_short :
    ∃ (s : Sock5Ctxt) (r : Request), r.dest = .domain [97, 46, 98] (by decide) ∧
      s.Decodes r [7] := by
  rcases exists_received
    ((⟨5, 1, 0, .domain [97, 46, 98] (by decide), ⟨0, 80⟩⟩ : Request).encode ++ [7])
    (by decide) with ⟨s, hs⟩
  have hshort : [97, 46, 98].length < 128 := by decide
  exact ⟨s, _, rfl, (decodes_iff s _ _ hs).mpr hshort⟩

/-- The length of a name of 128 bytes is read as -128. -/
theorem long_name_misread :
    ¬ ∀ (s : Sock5Ctxt) (r : Request) (rest : List UInt8),
      s.__rxBuf.contents = r.encode ++ rest → s.Decodes r rest := by
  intro hclaim
  have hlen : (List.replicate 128 (97 : UInt8)).length = 128 := List.length_replicate
  have hbounded : (List.replicate 128 (97 : UInt8)).length < 256 := by
    omega
  generalize List.replicate 128 (97 : UInt8) = name at hlen hbounded
  rcases exists_received
    ((⟨5, 1, 0, .domain name hbounded, ⟨0, 80⟩⟩ : Request).encode ++ []) (by
      simp [Request.encode, Dest.encode, InPort.bytes, hlen]) with ⟨s, hs⟩
  rcases hclaim s _ _ hs with ⟨reading, hread, hname, _⟩
  rcases readDomain_long hs rfl (Nat.le_of_eq hlen.symm) with ⟨reading', hread', hname'⟩
  rw [readReq_domain hs rfl, hread'] at hread
  cases hread
  have heq := congrArg List.length (Sum.inr.inj (hname'.symm.trans hname))
  rw [List.length_append] at heq
  simp [InPort.bytes] at heq

end Sock5Ctxt
end CoEpoll
