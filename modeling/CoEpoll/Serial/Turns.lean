import Mathlib.Data.List.Basic
import Mathlib.Tactic.TypeStar

/-!
# Writers that take turns on one stream

Writers queue up with a payload each.  Only the first of them writes, as much at a
time as the stream accepts, and it leaves the queue when it is done or gives up.  The
stream is then the concatenation of a prefix of each payload in the order of the
queue.

Main results:

- Theorem {lit}`Turns.wire_accept`: what the first writer writes comes at the end of the stream.
- Theorem {lit}`Turns.wire_enter`, Theorem {lit}`Turns.wire_leave`: entering and leaving do not change
  the stream.
-/

namespace Serial

variable {β : Type*}

/-- The concatenation of the parts, each byte with the number of its part. -/
def tagged (parts : List (List β)) : List (Nat × β) :=
  (parts.mapIdx fun i part => part.map (Prod.mk i)).flatten

/-- A payload and the prefix of it that is on the stream. -/
structure Share (β : Type*) where
  payload : List β
  part : List β
  isPrefix : part <+: payload

/-- The writers that have left the queue and those in it, of which only the first
may have written. -/
structure Turns (β : Type*) where
  gone : List (Share β)
  waiting : List (Share β)
  fresh : ∀ share ∈ waiting.tail, share.part = []

namespace Turns

/-- No writer yet. -/
def empty : Turns β where
  gone := []
  waiting := []
  fresh _ h := absurd h List.not_mem_nil

/-- All writers in the order in which they have entered. -/
def shares (t : Turns β) : List (Share β) :=
  t.gone ++ t.waiting

/-- The stream. -/
def wire (t : Turns β) : List (Nat × β) :=
  tagged (t.shares.map Share.part)

/-- A new writer enters the queue. -/
def enter (t : Turns β) (payload : List β) : Turns β where
  gone := t.gone
  waiting := t.waiting ++ [⟨payload, [], List.nil_prefix⟩]
  fresh share hmem := by
    cases hwaiting : t.waiting with
    | nil =>
        rw [hwaiting] at hmem
        exact absurd hmem List.not_mem_nil
    | cons first rest =>
        rw [hwaiting, List.cons_append, List.tail_cons, List.mem_append,
          List.mem_singleton] at hmem
        rcases hmem with hmem | rfl
        · exact t.fresh share (by rwa [hwaiting, List.tail_cons])
        · rfl

section First

variable {t : Turns β} {first : Share β} {rest : List (Share β)}

/-- The first writer writes {lit}`bytes` more of its payload. -/
def accept (t : Turns β) (h : t.waiting = first :: rest) (bytes : List β)
    (hbytes : first.part ++ bytes <+: first.payload) : Turns β where
  gone := t.gone
  waiting := ⟨first.payload, first.part ++ bytes, hbytes⟩ :: rest
  fresh share hmem := t.fresh share (by rwa [h])

/-- The first writer leaves the queue. -/
def leave (t : Turns β) (h : t.waiting = first :: rest) : Turns β where
  gone := t.gone ++ [first]
  waiting := rest
  fresh share hmem := t.fresh share (by
    rw [h, List.tail_cons]
    exact List.mem_of_mem_tail hmem)

/-- Writers that have not written add nothing. -/
theorem flatten_mapIdx_nil {α : Type*} {parts : List (List β)} (f : Nat → β → α)
    (h : ∀ part ∈ parts, part = []) : (parts.mapIdx fun i part => part.map (f i)).flatten = [] := by
  rw [List.flatten_eq_nil_iff]
  intro l hl
  rcases List.mem_mapIdx.mp hl with ⟨i, hi, rfl⟩
  rw [h _ (List.getElem_mem hi), List.map_nil]

/-- The stream ends with what the first writer in the queue has written. -/
theorem wire_eq (h : t.waiting = first :: rest) :
    t.wire = tagged (t.gone.map Share.part) ++ first.part.map (Prod.mk t.gone.length) := by
  have hrest : ∀ part ∈ rest.map Share.part, part = [] := by
    intro part hpart
    rcases List.mem_map.mp hpart with ⟨share, hshare, rfl⟩
    exact t.fresh share (by rwa [h])
  rw [wire, shares, h, List.map_append, List.map_cons, tagged, List.mapIdx_append,
    List.flatten_append, List.mapIdx_cons, List.flatten_cons,
    flatten_mapIdx_nil (fun i => Prod.mk (i + 1 + (t.gone.map Share.part).length)) hrest,
    List.append_nil, List.length_map, Nat.zero_add, tagged]

/-- What the first writer writes comes at the end of the stream. -/
theorem wire_accept (h : t.waiting = first :: rest) (bytes : List β)
    (hbytes : first.part ++ bytes <+: first.payload) :
    (t.accept h bytes hbytes).wire = t.wire ++ bytes.map (Prod.mk t.gone.length) := by
  have hnew : (t.accept h bytes hbytes).waiting =
      ⟨first.payload, first.part ++ bytes, hbytes⟩ :: rest := rfl
  rw [wire_eq h, wire_eq hnew, List.map_append, List.append_assoc]
  rfl

@[simp]
theorem shares_leave (h : t.waiting = first :: rest) : (t.leave h).shares = t.shares := by
  rw [shares, shares, leave, h, List.append_assoc, List.singleton_append]

/-- Leaving does not change the stream. -/
@[simp]
theorem wire_leave (h : t.waiting = first :: rest) : (t.leave h).wire = t.wire := by
  rw [wire, shares_leave, wire]

end First

/-- Entering does not change the stream. -/
@[simp]
theorem wire_enter (t : Turns β) (payload : List β) : (t.enter payload).wire = t.wire := by
  rw [wire, shares, enter, ← List.append_assoc, List.map_append, tagged, List.mapIdx_append,
    List.flatten_append]
  simp [wire, shares, tagged]

end Turns
end Serial
