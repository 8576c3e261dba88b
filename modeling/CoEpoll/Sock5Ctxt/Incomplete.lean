import CoEpoll.Sock5Ctxt.Decoding

/-!
# `Sock5Ctxt`: messages that have not been received as a whole

Each handler waits for a fixed number of bytes, and takes bytes out of {lit}`__rxBuf` before it knows how
long its message is.

Main results:

- Theorem {lit}`length_handleAuth`, {lit}`length_handleReq`: a handler that has these bytes takes some out.
- Theorem {lit}`intact_iff`: the beginning of a message is left intact if and only if it is shorter than
  three bytes of a greeting, or than five of a request.
- Theorem {lit}`half_request_lost`: a request that is cut behind its fifth byte is not left intact.
-/

namespace CoEpoll

open Ring Socks5

namespace Buffer

variable {b : Buffer UInt8}

/-- {lit}`retriveRaw` takes out what it takes, or nothing. -/
theorem length_retriveRaw_le {n : Int} (hn : 0 ≤ n) :
    (b.retriveRaw n).1.contents.length ≤ b.contents.length := by
  rw [(retriveRaw_eq hn).2.1]
  split
  · rw [List.length_drop]
    omega
  · exact Nat.le_refl _

theorem length_retriveAddr_le (addr : InAddr) :
    (b.retriveAddr addr).1.contents.length ≤ b.contents.length := by
  have hraw : (b.retriveAddr addr).1 = (b.retriveRaw 4).1 := by
    unfold retriveAddr
    split <;> simp [*]
  rw [hraw]
  exact length_retriveRaw_le (by decide)

theorem length_retrivePort_le (port : InPort) :
    (b.retrivePort port).1.contents.length ≤ b.contents.length := by
  have hraw : (b.retrivePort port).1 = (b.retriveRaw 2).1 := by
    unfold retrivePort
    split <;> simp [*]
  rw [hraw]
  exact length_retriveRaw_le (by decide)

theorem length_retriveStr_le {n : Int} (hmin : -2 ^ 31 ≤ n) (hmax : n < 2 ^ 31) :
    (b.retriveStr n).1.contents.length ≤ b.contents.length := by
  have hdrop := (retriveStr_eq (b := b) hmin hmax).2
  rw [hdrop, List.length_drop]
  exact Nat.sub_le _ _

end Buffer

namespace Sock5Ctxt

variable {s t : Sock5Ctxt} {env : Env} {ret : Int}

/-- The handler asks for more, and has left everything as it was. -/
def Intact (s : Sock5Ctxt) (out : Except String (Sock5Ctxt × Int)) : Prop :=
  ∃ t, out = .ok (t, 0) ∧ t.__rxBuf = s.__rxBuf ∧ t.__txBuf = s.__txBuf ∧
    t.serv_addr = s.serv_addr ∧ t.__state = s.__state

/-- A handler that takes bytes out does not leave everything as it was. -/
theorem not_intact {out : Except String (Sock5Ctxt × Int)}
    (h : ∀ t ret, out = .ok (t, ret) → t.__rxBuf.contents.length < s.__rxBuf.contents.length) :
    ¬ s.Intact out := by
  rintro ⟨t, hout, hrx, _⟩
  have hlt := h t 0 hout
  rw [hrx] at hlt
  exact Nat.lt_irrefl _ hlt

/-! ## The greeting -/

/-- With three bytes of a greeting {lit}`handleAuth` takes out at least two, or it throws. -/
theorem length_handleAuth {mNum : UInt8} {tail : List UInt8}
    (h : s.__rxBuf.contents = SOCK5_VERSION :: mNum :: tail) (hpos : 1 ≤ tail.length)
    (hret : s.handleAuth env = .ok (t, ret)) :
    t.__rxBuf.contents.length < s.__rxBuf.contents.length := by
  rcases readMethods_eq h with ⟨hcleared, hread⟩
  have hfetch : s.__rxBuf.fetch 0 = .ok SOCK5_VERSION := by
    apply Buffer.fetch_of_getElem? (n := 0)
    rw [h]
    rfl
  have henough : ¬ Buffer.int s.__rxBuf.readableCap < 3 := by
    rw [Buffer.int_readableCap_lt, h, List.length_cons, List.length_cons]
    omega
  rw [handleAuth, if_neg henough, hfetch] at hret
  dsimp only [bind, Except.bind] at hret
  rw [if_neg (not_not.mpr rfl), hread] at hret
  rcases bind_eq_ok hret with ⟨⟨rxBuf, method⟩, hmap, hret⟩
  rcases map_eq_ok hmap with ⟨m, _, heq⟩
  cases heq
  cases hret
  change (((s.__rxBuf.clear 2).1.clear (.ofNat mNum.toNat)).1).contents.length < _
  rw [Buffer.contents_clear, hcleared, h, List.length_drop, List.length_cons, List.length_cons]
  omega

/-! ## The request -/

/-- From {lit}`colib::socket` on {lit}`handleReq` takes nothing out. -/
theorem rxBuf_link (env : Env) : (s.link env).1.__rxBuf = s.__rxBuf := by
  by_cases hsocket : 0 < env.socket
  · cases hconnect : env.connect s.serv_addr with
    | true =>
        rw [link_connected hsocket hconnect]
        rfl
    | false =>
        rw [link_failed hsocket hconnect]
        rfl
  · rw [link_refused hsocket]
    rfl

theorem length_clear_lt {b : Buffer UInt8} {n : UInt16} (hn : 0 < n.toNat)
    (hb : 0 < b.contents.length) : (b.clear n).1.contents.length < b.contents.length := by
  rw [Buffer.contents_clear, List.length_drop]
  omega

theorem length_parseIpv4 (h : 0 < s.__rxBuf.contents.length) :
    s.parseIpv4.1.__rxBuf.contents.length < s.__rxBuf.contents.length := by
  have hclear := length_clear_lt (b := s.__rxBuf) (n := 4) (by decide) h
  unfold parseIpv4
  dsimp only
  split
  · exact hclear
  · have haddr := Buffer.length_retriveAddr_le (b := (s.__rxBuf.clear 4).1) s.serv_addr.sin_addr
    have hport := Buffer.length_retrivePort_le
      (b := ((s.__rxBuf.clear 4).1.retriveAddr s.serv_addr.sin_addr).1) s.serv_addr.sin_port
    dsimp only
    omega

theorem length_parseDomain (h : 0 < s.__rxBuf.contents.length)
    (gethostbyname : List UInt8 → Option InAddr) (len : UInt8) :
    (s.parseDomain gethostbyname (charInt len)).1.__rxBuf.contents.length <
      s.__rxBuf.contents.length := by
  have hclear := length_clear_lt (b := s.__rxBuf) (n := 5) (by decide) h
  have hmin := Int8.le_toInt len.toInt8
  have hmax := Int8.toInt_lt len.toInt8
  have hstr := Buffer.length_retriveStr_le (b := (s.__rxBuf.clear 5).1) (n := charInt len)
    (by unfold charInt; omega) (by unfold charInt; omega)
  have hport := Buffer.length_retrivePort_le
    (b := ((s.__rxBuf.clear 5).1.retriveStr (charInt len)).1) s.serv_addr.sin_port
  unfold parseDomain
  dsimp only
  split
  · exact hclear
  · split
    · dsimp only
      omega
    · dsimp only
      omega

/-- With five bytes of a request for an address or a name {lit}`handleReq` takes out at least four, or it
throws. -/
theorem length_handleReq {atyp : UInt8} (h : 5 ≤ s.__rxBuf.contents.length)
    (hatyp : s.__rxBuf.contents[3]? = some atyp) (hknown : atyp = 1 ∨ atyp = 3)
    (hret : s.handleReq env = .ok (t, ret)) :
    t.__rxBuf.contents.length < s.__rxBuf.contents.length := by
  have hpos : 0 < s.__rxBuf.contents.length := by omega
  have henough : ¬ Buffer.int s.__rxBuf.readableCap < 5 := by
    rw [Buffer.int_readableCap_lt]
    omega
  have hfetch : s.__rxBuf.fetch 3 = .ok atyp := Buffer.fetch_of_getElem? hatyp
  rw [handleReq, if_neg henough] at hret
  rcases bind_eq_ok hret with ⟨⟨u, code⟩, hparse, hret⟩
  have hu : u.__rxBuf.contents.length < s.__rxBuf.contents.length := by
    rw [parseReq, hfetch] at hparse
    dsimp only [bind, Except.bind] at hparse
    rcases hknown with rfl | rfl
    · rw [if_pos rfl] at hparse
      have hlen := length_parseIpv4 hpos
      rw [Except.ok.inj hparse] at hlen
      exact hlen
    · rw [if_neg (by decide), if_pos rfl] at hparse
      rcases bind_eq_ok hparse with ⟨len, _, hparse⟩
      have hlen := length_parseDomain hpos env.gethostbyname len
      rw [Except.ok.inj hparse] at hlen
      exact hlen
  cases code with
  | none =>
      have ht := congrArg Prod.fst (Except.ok.inj hret)
      rw [← show (u.link env).1 = t from ht, rxBuf_link]
      exact hu
  | some code =>
      dsimp only at hret
      split at hret
      · cases hret
        exact hu
      · cases hret
        exact hu

/-! ## Prefixes of messages -/

/-- The fourth byte of a prefix of a request is its address type. -/
theorem atyp_of_begun {r : Request} {bytes : List UInt8} (h : bytes <+: r.encode)
    (hlen : 5 ≤ bytes.length) : ∃ atyp, bytes[3]? = some atyp ∧ (atyp = 1 ∨ atyp = 3) := by
  have heq : bytes[3]? = r.encode[3]? := by
    rcases h with ⟨rest, hrest⟩
    rw [← hrest, List.getElem?_append_left (by omega)]
  rw [heq, Request.encode]
  cases r.dest with
  | ipv4 addr => exact ⟨1, rfl, .inl rfl⟩
  | domain name bounded => exact ⟨3, rfl, .inr rfl⟩

/-- A prefix of a greeting of three bytes or more has its length byte. -/
theorem eq_of_begun {g : Greeting} {bytes : List UInt8} (h : bytes <+: g.encode)
    (hlen : 3 ≤ bytes.length) :
    ∃ mNum tail, bytes = SOCK5_VERSION :: mNum :: tail ∧ 1 ≤ tail.length := by
  rcases h with ⟨rest, hrest⟩
  cases bytes with
  | nil => simp at hlen
  | cons ver bytes =>
      cases bytes with
      | nil => simp at hlen
      | cons mNum tail =>
          rw [List.cons_append, List.cons_append, Greeting.encode] at hrest
          rw [List.length_cons, List.length_cons] at hlen
          refine ⟨mNum, tail, ?_, by omega⟩
          rw [(List.cons.inj hrest).1]
          rfl

/-- When {lit}`__rxBuf` holds the beginning of a message, the handler leaves it intact and asks for more
if and only if it holds fewer than three bytes of a greeting, or fewer than five of a request. -/
theorem intact_iff (s : Sock5Ctxt) (env : Env) :
    (∀ g : Greeting, s.__rxBuf.contents <+: g.encode → s.__rxBuf.contents ≠ g.encode →
      (s.Intact (s.handleAuth env) ↔ s.__rxBuf.contents.length < 3)) ∧
    ∀ r : Request, s.__rxBuf.contents <+: r.encode → s.__rxBuf.contents ≠ r.encode →
      (s.Intact (s.handleReq env) ↔ s.__rxBuf.contents.length < 5) := by
  constructor
  · intro g hbegun _
    constructor
    · intro hintact
      by_contra hlong
      rcases eq_of_begun hbegun (Nat.le_of_not_lt hlong) with ⟨mNum, tail, hcontents, hpos⟩
      exact not_intact (fun _ _ hret => length_handleAuth hcontents hpos hret) hintact
    · intro hshort
      exact ⟨s, handleAuth_short hshort, rfl, rfl, rfl, rfl⟩
  · intro r hbegun _
    constructor
    · intro hintact
      by_contra hlong
      rcases atyp_of_begun hbegun (Nat.le_of_not_lt hlong) with ⟨atyp, hatyp, hknown⟩
      exact not_intact
        (fun _ _ hret => length_handleReq (Nat.le_of_not_lt hlong) hatyp hknown hret) hintact
    · intro hshort
      exact ⟨s, handleReq_short hshort, rfl, rfl, rfl, rfl⟩

/-- Two bytes of a greeting that offers three methods. -/
theorem intact_iff_two :
    ∃ s : Sock5Ctxt, s.__rxBuf.contents = [5, 3] ∧
      s.Intact (s.handleAuth (.noNames 7)) := by
  rcases exists_received [5, 3] (by decide) with ⟨s, hs⟩
  refine ⟨s, hs, ((intact_iff s (.noNames 7)).1 ⟨[0, 1, 2], by decide, by decide⟩ ?_ ?_).mpr ?_⟩
  · rw [hs]
    exact ⟨[0, 1, 2], rfl⟩
  · rw [hs]
    decide
  · rw [hs]
    decide

/-- A request for an address that is cut behind its sixth byte. -/
theorem half_request_lost :
    ¬ ∀ (s : Sock5Ctxt) (env : Env) (r : Request), s.__rxBuf.contents <+: r.encode →
      s.__rxBuf.contents ≠ r.encode → s.Intact (s.handleReq env) := by
  intro hclaim
  rcases exists_received [5, 1, 0, 1, 10, 0] (by decide) with ⟨s, hs⟩
  have hintact := hclaim s (.noNames 7) ⟨5, 1, 0, .ipv4 ⟨10, 0, 0, 1⟩, ⟨0, 80⟩⟩
    (by rw [hs]; exact ⟨[0, 1, 0, 80], rfl⟩) (by rw [hs]; decide)
  have hatyp : s.__rxBuf.contents[3]? = some 1 := by
    rw [hs]
    rfl
  have hlen : 5 ≤ s.__rxBuf.contents.length := by
    rw [hs]
    decide
  exact not_intact (fun _ _ hret => length_handleReq hlen hatyp (.inl rfl) hret) hintact

end Sock5Ctxt
end CoEpoll
