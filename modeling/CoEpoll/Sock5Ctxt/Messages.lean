import Mathlib.Data.List.Basic

/-!
# SOCKS5: the messages of a client

A client sends a greeting, a request for a destination, and then the bytes for that destination.
A greeting and a request tell their own lengths.

Main results:

- Theorem {lit}`greetingLength_encode`: where a greeting ends.
- Theorem {lit}`requestLength_encode`: where a request ends.
- Theorems {lit}`exists_greeting_iff` and {lit}`exists_request_iff`: which bytes begin with a message.
- Theorems {lit}`Greeting.encode_append_inj` and {lit}`Request.encode_append_inj`: the message at the start of
  a stream is the only one there.
-/

namespace CoEpoll
namespace Socks5

/-- {lit}`in_addr`, in network order. -/
structure InAddr where
  b0 : UInt8
  b1 : UInt8
  b2 : UInt8
  b3 : UInt8
deriving DecidableEq

def InAddr.bytes (addr : InAddr) : List UInt8 :=
  [addr.b0, addr.b1, addr.b2, addr.b3]

/-- {lit}`in_port_t`, in network order. -/
structure InPort where
  b0 : UInt8
  b1 : UInt8
deriving DecidableEq

def InPort.bytes (port : InPort) : List UInt8 :=
  [port.b0, port.b1]

/-- {lit}`sockaddr_in` -/
structure SockAddr where
  sin_addr : InAddr
  sin_port : InPort
deriving DecidableEq

/-! ## Greetings -/

/-- A greeting offers methods. -/
structure Greeting where
  methods : List UInt8
  some_method : methods ≠ []
  bounded : methods.length < 256

namespace Greeting

def encode (g : Greeting) : List UInt8 :=
  5 :: .ofNat g.methods.length :: g.methods

/-- The method that the server chooses: method 0 or none. -/
def method (g : Greeting) : UInt8 :=
  if 0 ∈ g.methods then 0 else 0xff

end Greeting

/-- The length of the greeting at the start of the bytes. -/
def greetingLength : List UInt8 → Nat
  | _ :: mNum :: _ => 2 + mNum.toNat
  | _ => 0

theorem toNat_length (xs : List UInt8) (h : xs.length < 256) :
    (UInt8.ofNat xs.length).toNat = xs.length := by
  rw [UInt8.toNat_ofNat']
  exact Nat.mod_eq_of_lt h

theorem Greeting.length_encode (g : Greeting) : g.encode.length = 2 + g.methods.length := by
  rw [encode, List.length_cons, List.length_cons]
  omega

theorem greetingLength_encode (g : Greeting) (rest : List UInt8) :
    greetingLength (g.encode ++ rest) = g.encode.length := by
  rw [g.length_encode, Greeting.encode, List.cons_append, List.cons_append, greetingLength,
    toNat_length _ g.bounded]

/-- A greeting tells where it ends. -/
theorem Greeting.encode_append_inj {g g' : Greeting} {rest rest' : List UInt8}
    (h : g.encode ++ rest = g'.encode ++ rest') : g = g' ∧ rest = rest' := by
  have hlen : g.encode.length = g'.encode.length := by
    rw [← greetingLength_encode g rest, h, greetingLength_encode]
  rcases List.append_inj h hlen with ⟨hencode, hrest⟩
  refine ⟨?_, hrest⟩
  rcases g with ⟨methods, _, _⟩
  rcases g' with ⟨methods', _, _⟩
  have hmethods : methods = methods' := (List.cons.inj (List.cons.inj hencode).2).2
  subst hmethods
  rfl

/-- Which bytes begin with a greeting. -/
theorem exists_greeting_iff {bytes : List UInt8} :
    (∃ (g : Greeting) (rest : List UInt8), bytes = g.encode ++ rest) ↔
      bytes.head? = some 5 ∧ 2 < greetingLength bytes ∧ greetingLength bytes ≤ bytes.length := by
  constructor
  · rintro ⟨g, rest, rfl⟩
    have hpos := List.length_pos_iff.mpr g.some_method
    rw [greetingLength_encode, List.length_append, g.length_encode]
    exact ⟨rfl, by omega, by omega⟩
  · rintro ⟨hver, hpos, hle⟩
    match bytes with
    | ver :: mNum :: tail =>
        obtain rfl : ver = 5 := Option.some.inj hver
        rw [greetingLength, List.length_cons, List.length_cons] at hle
        rw [greetingLength] at hpos
        have hlt := mNum.toNat_lt
        have hlen : (tail.take mNum.toNat).length = mNum.toNat := by
          rw [List.length_take]
          omega
        refine ⟨⟨tail.take mNum.toNat, ?_, by omega⟩, tail.drop mNum.toNat, ?_⟩
        · apply List.ne_nil_of_length_pos
          omega
        · have hcount : UInt8.ofNat (tail.take mNum.toNat).length = mNum := by
            rw [hlen, UInt8.ofNat_toNat]
          change 5 :: mNum :: tail = 5 :: UInt8.ofNat (tail.take mNum.toNat).length ::
            (tail.take mNum.toNat ++ tail.drop mNum.toNat)
          rw [hcount, List.take_append_drop]

/-! ## Requests -/

/-- The destination of a request. -/
inductive Dest where
  | ipv4 (addr : InAddr)
  | domain (name : List UInt8) (bounded : name.length < 256)

def Dest.encode : Dest → List UInt8
  | ipv4 addr => 1 :: addr.bytes
  | domain name _ => 3 :: .ofNat name.length :: name

/-- A request of any version and command. -/
structure Request where
  ver : UInt8
  cmd : UInt8
  rsv : UInt8
  dest : Dest
  port : InPort

namespace Request

def encode (r : Request) : List UInt8 :=
  r.ver :: r.cmd :: r.rsv :: (r.dest.encode ++ r.port.bytes)

/-- The address and port that the request encodes. -/
def target (gethostbyname : List UInt8 → Option InAddr) (r : Request) : Option SockAddr :=
  match r.dest with
  | .ipv4 addr => some ⟨addr, r.port⟩
  | .domain name _ => (gethostbyname name).map fun addr => ⟨addr, r.port⟩

end Request

/-- The length of the request at the start of the bytes, if it is there as a whole. -/
def requestLength : List UInt8 → Nat
  | _ :: _ :: _ :: atyp :: rest =>
      if atyp = 1 then if 6 ≤ rest.length then 10 else 0
      else if atyp = 3 then
        match rest with
        | len :: rest => if len.toNat + 2 ≤ rest.length then len.toNat + 7 else 0
        | [] => 0
      else 0
  | _ => 0

theorem requestLength_encode (r : Request) (rest : List UInt8) :
    requestLength (r.encode ++ rest) = r.encode.length := by
  rcases r with ⟨ver, cmd, rsv, dest, port⟩
  cases dest with
  | ipv4 addr =>
      simp [Request.encode, Dest.encode, InAddr.bytes, InPort.bytes, requestLength]
  | domain name bounded =>
      have hlen := toNat_length name bounded
      simp [Request.encode, Dest.encode, InPort.bytes, requestLength, hlen]

theorem Dest.encode_inj {d d' : Dest} (h : d.encode = d'.encode) : d = d' := by
  cases d with
  | ipv4 addr =>
      cases d' with
      | ipv4 addr' =>
          rcases addr with ⟨b0, b1, b2, b3⟩
          rcases addr' with ⟨c0, c1, c2, c3⟩
          simp only [Dest.encode, InAddr.bytes, List.cons.injEq, and_true, true_and] at h
          rcases h with ⟨rfl, rfl, rfl, rfl⟩
          rfl
      | domain name bounded => exact absurd (List.cons.inj h).1 (by decide)
  | domain name bounded =>
      cases d' with
      | ipv4 addr => exact absurd (List.cons.inj h).1 (by decide)
      | domain name' bounded' =>
          have hname : name = name' := (List.cons.inj (List.cons.inj h).2).2
          subst hname
          rfl

/-- A request tells where it ends. -/
theorem Request.encode_append_inj {r r' : Request} {rest rest' : List UInt8}
    (h : r.encode ++ rest = r'.encode ++ rest') : r = r' ∧ rest = rest' := by
  have hlen : r.encode.length = r'.encode.length := by
    rw [← requestLength_encode r rest, h, requestLength_encode]
  rcases List.append_inj h hlen with ⟨hencode, hrest⟩
  refine ⟨?_, hrest⟩
  rcases r with ⟨ver, cmd, rsv, dest, ⟨p0, p1⟩⟩
  rcases r' with ⟨ver', cmd', rsv', dest', ⟨q0, q1⟩⟩
  simp only [Request.encode, List.cons.injEq] at hencode
  rcases hencode with ⟨rfl, rfl, rfl, htail⟩
  rcases List.append_inj' htail rfl with ⟨hdest, hport⟩
  simp only [InPort.bytes, List.cons.injEq, and_true] at hport
  rcases hport with ⟨rfl, rfl⟩
  rw [Dest.encode_inj hdest]

/-- Which bytes begin with a request. -/
theorem exists_request_iff {bytes : List UInt8} :
    (∃ (r : Request) (rest : List UInt8), bytes = r.encode ++ rest) ↔ 0 < requestLength bytes := by
  constructor
  · rintro ⟨r, rest, rfl⟩
    rw [requestLength_encode, Request.encode]
    exact Nat.zero_lt_succ _
  · intro hpos
    unfold requestLength at hpos
    split at hpos
    · rename_i ver cmd rsv atyp tail
      split at hpos
      · rename_i hatyp
        split at hpos
        · rename_i hsix
          match tail with
          | b0 :: b1 :: b2 :: b3 :: p0 :: p1 :: rest =>
              refine ⟨⟨ver, cmd, rsv, .ipv4 ⟨b0, b1, b2, b3⟩, ⟨p0, p1⟩⟩, rest, ?_⟩
              rw [hatyp]
              rfl
        · cases hpos
      · split at hpos
        · rename_i hatyp
          split at hpos
          · rename_i len tail
            split at hpos
            · rename_i hle
              have hlt := len.toNat_lt
              have hlen : (tail.take len.toNat).length = len.toNat := by
                rw [List.length_take]
                omega
              have hdrop : 2 ≤ (tail.drop len.toNat).length := by
                rw [List.length_drop]
                omega
              match hport : tail.drop len.toNat with
              | p0 :: p1 :: rest =>
                  refine ⟨⟨ver, cmd, rsv, .domain (tail.take len.toNat) (by omega), ⟨p0, p1⟩⟩,
                    rest, ?_⟩
                  have htail := List.take_append_drop len.toNat tail
                  have hcount : UInt8.ofNat (tail.take len.toNat).length = len := by
                    rw [hlen, UInt8.ofNat_toNat]
                  rw [hport] at htail
                  change ver :: cmd :: rsv :: atyp :: len :: tail = ver :: cmd :: rsv :: 3 ::
                    UInt8.ofNat (tail.take len.toNat).length ::
                      (tail.take len.toNat ++ [p0, p1] ++ rest)
                  rw [hcount, hatyp, List.append_assoc]
                  exact congrArg (fun ys => ver :: cmd :: rsv :: 3 :: len :: ys) htail.symm
              | [p0] => simp [hport] at hdrop
              | [] => simp [hport] at hdrop
            · cases hpos
          · cases hpos
        · cases hpos
    · cases hpos

/-- A request with another address type has no end. -/
theorem requestLength_unsupported {bytes : List UInt8} {atyp : UInt8}
    (h : bytes[3]? = some atyp) (hipv4 : atyp ≠ 1) (hdomain : atyp ≠ 3) :
    requestLength bytes = 0 := by
  unfold requestLength
  split
  · cases h
    rw [if_neg hipv4, if_neg hdomain]
  · rfl

/-- The bytes begin with a request that encodes {lit}`addr`. -/
def Encodes (gethostbyname : List UInt8 → Option InAddr) (bytes : List UInt8) (addr : SockAddr) :
    Prop :=
  ∃ (r : Request) (rest : List UInt8), bytes = r.encode ++ rest ∧
    r.target gethostbyname = some addr

end Socks5
end CoEpoll
