import CoEpoll.Transition.Custody
import CoEpoll.Transition.Tally
import CoEpoll.Utils.MpmcQueue

/-!
# `MpmcQueue`: the invariant of half-finished calls

At every moment each node is in exactly one place: in the used chain, in the
spare chain, or in the hands of one thread.  The two chains are linked chains
in the sense of {lit}`Transition.LinkedChain`: a link may still be owed by the
thread that exchanged the tail pointer.  The ledger relates the values in the
used chain to the values passed in and out.

Main results:

- Structure {lit}`Shape`: where the nodes are.
- Structure {lit}`Locks`: who is in which critical section, and what it knows there.
- Structure {lit}`Ledger`: what happened to the values.
- Theorems {lit}`Shape.of_private`, {lit}`Locks.keep` and {lit}`Ledger.keep`: the steps
  that touch only a thread's own node keep all three.
-/

namespace CoEpoll
namespace MpmcQueue

open Transition

variable {τ T : Type*}

/-! ## What a program counter says -/

namespace Pc

/-- The node that only this thread may touch. -/
def owned : Pc T → Option NodePtr
  | enqStoreTail _ _ nexts => some nexts
  | enqStoreHead _ pres _ => some pres
  | enqUnlock _ pres => some pres
  | enqData _ pres => some pres
  | enqNull _ pres => some pres
  | enqExch _ pres => some pres
  | deqStoreHead preu _ => some preu
  | deqData preu _ => some preu
  | deqUnlock preu _ => some preu
  | deqNull preu _ => some preu
  | deqExch preu _ => some preu
  | _ => none

/-- The link of the used chain that this thread still has to store. -/
def uLink : Pc T → Option (NodePtr × NodePtr)
  | enqLink preu pres => some (preu, pres)
  | _ => none

/-- The link of the spare chain that this thread still has to store. -/
def sLink : Pc T → Option (NodePtr × NodePtr)
  | deqLink preu pres _ => some (pres, preu)
  | _ => none

/-- The value that {lit}`uHead_` is about to get. -/
def newUHead : Pc T → Option NodePtr
  | deqStoreHead _ nextu => some nextu
  | _ => none

/-- The value that {lit}`sHead_` is about to get. -/
def newSHead : Pc T → Option NodePtr
  | enqStoreHead _ _ nexts => some nexts
  | _ => none

/-- The node whose value is about to be read. -/
def reading : Pc T → Option NodePtr
  | deqStoreHead _ nextu => some nextu
  | deqData _ nextu => some nextu
  | _ => none

/-- The value of an {lit}`enqueue` that has not exchanged {lit}`uTail_` yet. -/
def input : Pc T → Option T
  | enqLock input => some input
  | enqHead input => some input
  | enqNext input _ => some input
  | enqCmpHead input _ => some input
  | enqCmpTail input _ _ => some input
  | enqNew input _ => some input
  | enqStoreTail input _ _ => some input
  | enqStoreHead input _ _ => some input
  | enqUnlock input _ => some input
  | enqData input _ => some input
  | enqNull input _ => some input
  | enqExch input _ => some input
  | _ => none

/-- The value of a {lit}`dequeue` that has read it and not returned yet. -/
def output : Pc T → Option T
  | deqUnlock _ output => some output
  | deqNull _ output => some output
  | deqExch _ output => some output
  | deqLink _ _ output => some output
  | _ => none

/-- In the section under {lit}`uLk_`. -/
def inUsed : Pc T → Bool
  | deqHead => true
  | deqNext _ => true
  | deqCmpHead _ => true
  | deqCmpTail _ _ => true
  | deqFail => true
  | deqStoreHead _ _ => true
  | deqData _ _ => true
  | deqUnlock _ _ => true
  | _ => false

/-- In the section under {lit}`sLk_`. -/
def inSpare : Pc T → Bool
  | enqHead _ => true
  | enqNext _ _ => true
  | enqCmpHead _ _ => true
  | enqCmpTail _ _ _ => true
  | enqNew _ _ => true
  | enqStoreTail _ _ _ => true
  | enqStoreHead _ _ _ => true
  | enqUnlock _ _ => true
  | _ => false

/-- What the local variables of a thread say about the shared state. -/
def Ok (q : State τ T) : Pc T → Prop
  | enqNext _ pres => pres = q.sHead_
  | enqCmpHead _ pres => pres = q.sHead_
  | enqCmpTail _ pres head => pres = q.sHead_ ∧ head = q.sHead_
  | enqNew _ pres => pres = q.sHead_
  | enqStoreTail _ pres nexts => pres = q.sHead_ ∧ q.next_ nexts = none
  | enqNull input pres => q.data pres = input
  | enqExch input pres => q.data pres = input ∧ q.next_ pres = none
  | deqNext preu => preu = q.uHead_
  | deqCmpHead preu => preu = q.uHead_
  | deqCmpTail preu head => preu = q.uHead_ ∧ head = q.uHead_
  | deqData _ nextu => nextu = q.uHead_
  | deqExch preu _ => q.next_ preu = none
  | _ => True

/-- A thread keeps what it knows while its head pointer and its own node stay. -/
theorem Ok.frame {q q' : State τ T} {p : Pc T} (h : p.Ok q)
    (hu : p.inUsed = true → q'.uHead_ = q.uHead_)
    (hs : p.inSpare = true → q'.sHead_ = q.sHead_)
    (hn : ∀ n, p.owned = some n → q'.next_ n = q.next_ n ∧ q'.data n = q.data n) :
    p.Ok q' := by
  cases p <;> simp_all [Ok, inUsed, inSpare, owned]

end Pc

/-! ## The invariant -/

/-- The first used node, as soon as the store of {lit}`uHead_` is certain. -/
def State.usedHead (q : State τ T) : NodePtr :=
  (q.uLk_.bind fun t => (q.pc t).newUHead).getD q.uHead_

/-- The first spare node, as soon as the store of {lit}`sHead_` is certain. -/
def State.spareHead (q : State τ T) : NodePtr :=
  (q.sLk_.bind fun t => (q.pc t).newSHead).getD q.sHead_

/-- The value about to be read under {lit}`uLk_`, if there is one. -/
def State.beingRead (q : State τ T) : List T :=
  ((q.uLk_.bind fun t => (q.pc t).reading).map q.data).toList

/-- Where the nodes are: {lit}`ur` and {lit}`sr` are the used and the spare nodes after the
first one of each chain. -/
structure Shape (q : State τ T) (ur sr : List NodePtr) : Prop where
  used : LinkedChain q.next_ (fun t => (q.pc t).uLink) (q.usedHead :: ur)
  spare : LinkedChain q.next_ (fun t => (q.pc t).sLink) (q.spareHead :: sr)
  uTail : (q.usedHead :: ur).getLast? = some q.uTail_
  sTail : (q.spareHead :: sr).getLast? = some q.sTail_
  apart : ∀ n ∈ q.usedHead :: ur, n ∉ q.spareHead :: sr
  bound : ∀ n, n ∈ q.usedHead :: ur ∨ n ∈ q.spareHead :: sr → n < q.allocated
  owned : ∀ t n, (q.pc t).owned = some n →
    n < q.allocated ∧ n ∉ q.usedHead :: ur ∧ n ∉ q.spareHead :: sr
  alone : ∀ t t' n, (q.pc t).owned = some n → (q.pc t').owned = some n → t = t'

/-- Who is in which section, and what every thread knows. -/
structure Locks (q : State τ T) : Prop where
  uLk : ∀ t, (q.pc t).inUsed = true ↔ q.uLk_ = some t
  sLk : ∀ t, (q.pc t).inSpare = true ↔ q.sLk_ = some t
  ok : ∀ t, (q.pc t).Ok q

/-- The values: what was exchanged in is what was taken out, what is being read
and what is in the used nodes; calls in progress hold the difference to what
was passed in and returned. -/
structure Ledger (q : State τ T) (es : List (Event T)) (ur : List NodePtr) : Prop where
  values : exchangedValues es = takenValues es ++ q.beingRead ++ ur.map q.data
  inputs : ∃ m, Tally (fun t => (q.pc t).input) m ∧
    (calledValues es : Multiset T) = exchangedValues es + m
  outputs : ∃ m, Tally (fun t => (q.pc t).output) m ∧
    (takenValues es : Multiset T) = returnedValues es + m

/-- The invariant of the queue. -/
structure Inv (q : State τ T) (es : List (Event T)) (ur sr : List NodePtr) : Prop where
  shape : Shape q ur sr
  locks : Locks q
  ledger : Ledger q es ur

/-- Each node is in one place. -/
theorem Shape.custody {q : State τ T} {ur sr : List NodePtr} (h : Shape q ur sr) :
    Custody (q.usedHead :: ur) (q.spareHead :: sr) (fun t => (q.pc t).owned) (· < q.allocated) :=
  ⟨h.apart, h.bound, h.owned, h.alone⟩

/-! ## Reading the lock holder's program counter -/

theorem usedHead_of_holder {q : State τ T} {t : τ} (ht : q.uLk_ = some t) :
    q.usedHead = (q.pc t).newUHead.getD q.uHead_ := by
  simp [State.usedHead, ht]

theorem spareHead_of_holder {q : State τ T} {t : τ} (ht : q.sLk_ = some t) :
    q.spareHead = (q.pc t).newSHead.getD q.sHead_ := by
  simp [State.spareHead, ht]

theorem beingRead_of_holder {q : State τ T} {t : τ} (ht : q.uLk_ = some t) :
    q.beingRead = ((q.pc t).reading.map q.data).toList := by
  simp [State.beingRead, ht]

/-- The other threads keep what they know when the heads stay and the memory
changes only outside their own nodes. -/
theorem Inv.others {q q' : State τ T} {es : List (Event T)} {ur sr : List NodePtr} {t : τ}
    (h : Inv q es ur sr)
    (huH : q'.uHead_ = q.uHead_ ∨ (q.pc t).inUsed = true)
    (hsH : q'.sHead_ = q.sHead_ ∨ (q.pc t).inSpare = true)
    (hmem : ∀ n, n < q.allocated → n ∉ q.usedHead :: ur → n ∉ q.spareHead :: sr →
      (q.pc t).owned ≠ some n → q'.next_ n = q.next_ n ∧ q'.data n = q.data n) :
    ∀ u, u ≠ t → (q.pc u).Ok q' := by
  intro u hut
  refine (h.locks.ok u).frame ?_ ?_ ?_
  · intro hin
    refine huH.resolve_right fun ht => hut ?_
    exact Option.some.inj (((h.locks.uLk u).mp hin).symm.trans ((h.locks.uLk t).mp ht))
  · intro hin
    refine hsH.resolve_right fun ht => hut ?_
    exact Option.some.inj (((h.locks.sLk u).mp hin).symm.trans ((h.locks.sLk t).mp ht))
  · intro n hn
    rcases h.shape.owned u n hn with ⟨hlt, hnu, hns⟩
    exact hmem n hlt hnu hns fun ht => hut (h.shape.alone u t n hn ht)

variable [DecidableEq τ]

/-- Reading a projection of the program counters after one thread has moved. -/
theorem proj_update {β : Type*} (g : Pc T → β) (pc : τ → Pc T) (t : τ) (p : Pc T) :
    (fun u => g (Function.update pc t p u)) = Function.update (fun u => g (pc u)) t (g p) :=
  Function.comp_update g pc t p

theorem usedHead_goto {q q' : State τ T} {t : τ} {p : Pc T}
    (hpc : q'.pc = Function.update q.pc t p) (hlk : q'.uLk_ = q.uLk_)
    (hh : q'.uHead_ = q.uHead_) (hp : p.newUHead = (q.pc t).newUHead) :
    q'.usedHead = q.usedHead := by
  simp only [State.usedHead, hpc, hlk, hh, update_keep Pc.newUHead hp]

theorem spareHead_goto {q q' : State τ T} {t : τ} {p : Pc T}
    (hpc : q'.pc = Function.update q.pc t p) (hlk : q'.sLk_ = q.sLk_)
    (hh : q'.sHead_ = q.sHead_) (hp : p.newSHead = (q.pc t).newSHead) :
    q'.spareHead = q.spareHead := by
  simp only [State.spareHead, hpc, hlk, hh, update_keep Pc.newSHead hp]

/-! ## Steps that touch only the thread's own node -/

/-- A step that keeps the head and tail pointers and the owed links, and writes
at most the thread's own node or a fresh one, keeps the shape. -/
theorem Shape.of_private {q q' : State τ T} {ur sr : List NodePtr} {t : τ} {p : Pc T}
    (h : Shape q ur sr) (hpc : q'.pc = Function.update q.pc t p)
    (huH : q'.usedHead = q.usedHead) (hsH : q'.spareHead = q.spareHead)
    (huT : q'.uTail_ = q.uTail_) (hsT : q'.sTail_ = q.sTail_)
    (hnext : ∀ n, n < q.allocated → (q.pc t).owned ≠ some n → q'.next_ n = q.next_ n)
    (hall : q.allocated ≤ q'.allocated)
    (hu : p.uLink = (q.pc t).uLink) (hs : p.sLink = (q.pc t).sLink)
    (hown : ∀ n, p.owned = some n →
      (q.pc t).owned = some n ∨ (q.allocated ≤ n ∧ n < q'.allocated)) :
    Shape q' ur sr := by
  have huN : ∀ n ∈ q.usedHead :: ur, q'.next_ n = q.next_ n := fun n hn =>
    hnext n (h.bound n (Or.inl hn)) fun ho => (h.owned t n ho).2.1 hn
  have hsN : ∀ n ∈ q.spareHead :: sr, q'.next_ n = q.next_ n := fun n hn =>
    hnext n (h.bound n (Or.inr hn)) fun ho => (h.owned t n ho).2.2 hn
  have huL : (fun u => (q'.pc u).uLink) = fun u => (q.pc u).uLink := by
    funext u
    rw [hpc, update_keep Pc.uLink hu]
  have hsL : (fun u => (q'.pc u).sLink) = fun u => (q.pc u).sLink := by
    funext u
    rw [hpc, update_keep Pc.sLink hs]
  have hcustody : Custody (q'.usedHead :: ur) (q'.spareHead :: sr)
      (fun u => (q'.pc u).owned) (· < q'.allocated) := by
    rw [huH, hsH, hpc, proj_update Pc.owned]
    exact h.custody.move (fun n hn => hn.trans_le hall)
      fun n hn => (hown n hn).imp_right (And.imp_left not_lt_of_ge)
  refine ⟨?_, ?_, ?_, ?_, hcustody.apart, hcustody.bound, hcustody.owned, hcustody.alone⟩
  · rw [huH, huL]
    exact h.used.frame huN
  · rw [hsH, hsL]
    exact h.spare.frame hsN
  · rw [huH, huT]
    exact h.uTail
  · rw [hsH, hsT]
    exact h.sTail

/-- A step inside or outside the sections keeps the locks. -/
theorem Locks.keep {q q' : State τ T} {t : τ} {p : Pc T} (h : Locks q)
    (hpc : q'.pc = Function.update q.pc t p)
    (huLk : q'.uLk_ = q.uLk_) (hsLk : q'.sLk_ = q.sLk_)
    (hu : p.inUsed = (q.pc t).inUsed) (hs : p.inSpare = (q.pc t).inSpare)
    (hok : p.Ok q') (hother : ∀ u, u ≠ t → (q.pc u).Ok q') : Locks q' := by
  refine ⟨fun u => ?_, fun u => ?_, fun u => ?_⟩
  · rw [hpc, huLk, update_keep Pc.inUsed hu]
    exact h.uLk u
  · rw [hpc, hsLk, update_keep Pc.inSpare hs]
    exact h.sLk u
  · by_cases hut : u = t
    · subst u
      rw [hpc, Function.update_self]
      exact hok
    · rw [hpc, Function.update_of_ne hut]
      exact hother u hut

/-- A step without events that keeps the values in the used nodes keeps the
ledger. -/
theorem Ledger.keep {q q' : State τ T} {es : List (Event T)} {ur : List NodePtr} {t : τ}
    {p : Pc T} (h : Ledger q es ur) (hpc : q'.pc = Function.update q.pc t p)
    (hread : q'.beingRead = q.beingRead) (hdata : ur.map q'.data = ur.map q.data)
    (hin : p.input = (q.pc t).input) (hout : p.output = (q.pc t).output) :
    Ledger q' es ur where
  values := by
    rw [hread, hdata]
    exact h.values
  inputs := by
    simp only [hpc, update_keep Pc.input hin]
    exact h.inputs
  outputs := by
    simp only [hpc, update_keep Pc.output hout]
    exact h.outputs

/-- A step that keeps the lock and the node being read keeps the value read. -/
theorem beingRead_goto {q q' : State τ T} {t : τ} {p : Pc T}
    (hpc : q'.pc = Function.update q.pc t p) (hlk : q'.uLk_ = q.uLk_)
    (hp : p.reading = (q.pc t).reading)
    (hdata : ∀ u n, q.uLk_ = some u → (q.pc u).reading = some n → q'.data n = q.data n) :
    q'.beingRead = q.beingRead := by
  simp only [State.beingRead, hpc, hlk, update_keep Pc.reading hp]
  cases hu : q.uLk_ with
  | none => rfl
  | some u =>
      cases hr : (q.pc u).reading with
      | none => simp [hr]
      | some n => simp [hr, hdata u n hu hr]

end MpmcQueue
end CoEpoll
