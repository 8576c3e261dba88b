import CoEpoll.Utils.MpmcQueue

/-!
# `MpmcQueue` used by one thread at a time

When no two calls overlap, each call is a function of the heap.  The number of spare nodes is then
determined by the number of values in the queue, so that a node is allocated exactly when the
queue is fuller than ever before.

Main results:

- Theorems {lit}`Layout.enqueue`, {lit}`Layout.dequeue_cons` and {lit}`Layout.dequeue_nil`: a
  call moves a node from one chain to the other.
- Theorem {lit}`sequential_fifo`: the queue returns its values in order, recycles its nodes
  exactly, and deletes each of them once.
- Theorems {lit}`run_calls` and {lit}`sequential_run`: the atomic actions of one thread do what the
  functions on the heap say.
-/

namespace CoEpoll
namespace MpmcQueue
namespace Sequential

open Transition

/-- The memory of the nodes and the ends of the two chains. -/
structure Heap (T : Type*) where
  data : NodePtr → T
  next_ : NodePtr → Option NodePtr
  allocated : Nat
  uHead_ : NodePtr
  uTail_ : NodePtr
  sHead_ : NodePtr
  sTail_ : NodePtr

namespace Heap

variable {T : Type*}

/-- {lit}`MpmcQueue::MpmcQueue` -/
def construct [Inhabited T] : Heap T where
  data _ := default
  next_ _ := none
  allocated := 2
  uHead_ := 0
  uTail_ := 0
  sHead_ := 1
  sTail_ := 1

/-- {lit}`nexts = new BufferNode{}` and {lit}`sTail_ = nexts` -/
def alloc [Inhabited T] (q : Heap T) : Heap T :=
  { q with
    data := Function.update q.data q.allocated default
    next_ := Function.update q.next_ q.allocated none
    allocated := q.allocated + 1
    sTail_ := q.allocated }

/-- {lit}`enqueue` from {lit}`sHead_ = nexts` on. -/
def append (q : Heap T) (pres nexts : NodePtr) (input : T) : Heap T :=
  { q with
    sHead_ := nexts
    data := Function.update q.data pres input
    uTail_ := pres
    next_ := Function.update (Function.update q.next_ pres none) q.uTail_ (some pres) }

/-- {lit}`enqueue`; without a second thread its loop goes on for ever when a successor is
missing. -/
def enqueue [Inhabited T] (q : Heap T) (input : T) : Option (Heap T) :=
  match q.next_ q.sHead_ with
  | some nexts => some (q.append q.sHead_ nexts input)
  | none =>
      if q.sHead_ = q.sTail_ then some (q.alloc.append q.sHead_ q.allocated input) else none

/-- {lit}`dequeue` from {lit}`uHead_ = nextu` on. -/
def recycle (moved : T → T) (q : Heap T) (preu nextu : NodePtr) : Heap T :=
  { q with
    uHead_ := nextu
    data := Function.update q.data nextu (moved (q.data nextu))
    sTail_ := preu
    next_ := Function.update (Function.update q.next_ preu none) q.sTail_ (some preu) }

/-- {lit}`dequeue`, and the value that it returns true with. -/
def dequeue (moved : T → T) (q : Heap T) : Option (Heap T × Option T) :=
  match q.next_ q.uHead_ with
  | some nextu => some (q.recycle moved q.uHead_ nextu, some (q.data nextu))
  | none => if q.uHead_ = q.uTail_ then some (q, none) else none

/-- A loop of the destructor: the nodes that it deletes, one by one. -/
def deleteChain (next_ : NodePtr → Option NodePtr) : Nat → Option NodePtr → Option (List NodePtr)
  | _, none => some []
  | 0, some _ => none
  | fuel + 1, some temp => (deleteChain next_ fuel (next_ temp)).map fun nodes => temp :: nodes

/-- {lit}`MpmcQueue::~MpmcQueue`: the nodes that it deletes, in order. -/
def destruct (q : Heap T) : Option (List NodePtr) :=
  match deleteChain q.next_ q.allocated (some q.sHead_),
    deleteChain q.next_ q.allocated (some q.uHead_) with
  | some spare, some used => some (spare ++ used)
  | _, _ => none

end Heap

/-! ## The layout of the two chains -/

section Layout

variable {T : Type*} {q : Heap T} {held : List T} {used spare : List NodePtr}

/-- The used chain is {lit}`uHead_ :: used`, the spare chain is {lit}`sHead_ :: spare`, no node is
in both or lost, and the used nodes behind the dummy carry {lit}`held`. -/
structure Layout (q : Heap T) (held : List T) (used spare : List NodePtr) : Prop where
  uChain : ClosedChain q.next_ (q.uHead_ :: used)
  uLast : (q.uHead_ :: used).getLast? = some q.uTail_
  sChain : ClosedChain q.next_ (q.sHead_ :: spare)
  sLast : (q.sHead_ :: spare).getLast? = some q.sTail_
  nodes : (q.uHead_ :: used ++ q.sHead_ :: spare).Perm (List.range q.allocated)
  carried : used.map q.data = held

namespace Layout

theorem nodup (h : Layout q held used spare) : (q.uHead_ :: used ++ q.sHead_ :: spare).Nodup :=
  h.nodes.nodup_iff.mpr List.nodup_range

theorem length_eq (h : Layout q held used spare) :
    held.length + spare.length + 2 = q.allocated := by
  have hlen := h.nodes.length_eq
  simp only [List.length_append, List.length_cons, List.length_range] at hlen
  have hheld : held.length = used.length := by rw [← h.carried, List.length_map]
  omega

theorem lt_allocated (h : Layout q held used spare) {p : NodePtr}
    (hp : p ∈ q.uHead_ :: used ++ q.sHead_ :: spare) : p < q.allocated :=
  List.mem_range.mp (h.nodes.mem_iff.mp hp)

/-- The constructor makes two chains of one node each. -/
theorem construct [Inhabited T] : Layout (Heap.construct : Heap T) [] [] [] where
  uChain := LinkedChain.singleton rfl fun _ => rfl
  uLast := rfl
  sChain := LinkedChain.singleton rfl fun _ => rfl
  sLast := rfl
  nodes := List.Perm.refl _
  carried := rfl

/-- {lit}`pres` has been taken from the spare chain, which starts at {lit}`nexts` now. -/
structure Detached (q : Heap T) (held : List T) (used : List NodePtr) (pres nexts : NodePtr)
    (spare : List NodePtr) : Prop where
  uChain : ClosedChain q.next_ (q.uHead_ :: used)
  uLast : (q.uHead_ :: used).getLast? = some q.uTail_
  sChain : ClosedChain q.next_ (nexts :: spare)
  sLast : (nexts :: spare).getLast? = some q.sTail_
  nodes : (q.uHead_ :: used ++ pres :: nexts :: spare).Perm (List.range q.allocated)
  carried : used.map q.data = held

/-- Appending the detached node to the used chain adds its value at the end. -/
theorem Detached.append {pres nexts : NodePtr} (h : Detached q held used pres nexts spare)
    (v : T) : Layout (q.append pres nexts v) (held ++ [v]) (used ++ [pres]) spare := by
  have hnodup := h.nodes.nodup_iff.mpr List.nodup_range
  rcases List.nodup_append.mp hnodup with ⟨_, hright, hdisj⟩
  have hpres : pres ∉ q.uHead_ :: used := fun hp => hdisj pres hp pres (by simp) rfl
  have htail : q.uTail_ ∉ nexts :: spare := fun hp =>
    hdisj q.uTail_ (List.mem_of_getLast? h.uLast) q.uTail_ (List.mem_cons_of_mem _ hp) rfl
  constructor
  · exact h.uChain.append hpres h.uLast
  · rw [← List.cons_append, List.getLast?_concat]
    rfl
  · exact h.sChain.append_other (List.nodup_cons.mp hright).1 htail
  · exact h.sLast
  · apply List.Perm.trans _ h.nodes
    simp [Heap.append]
  · rw [List.map_append, ← h.carried]
    congr 1
    · apply List.map_congr_left
      intro p hp
      apply Function.update_of_ne
      rintro rfl
      exact hpres (List.mem_cons_of_mem _ hp)
    · simp [Heap.append]

/-- A spare node behind the first one is detached by reading the first one's next pointer. -/
theorem detach {nexts : NodePtr} (h : Layout q held used (nexts :: spare)) :
    Detached q held used q.sHead_ nexts spare where
  uChain := h.uChain
  uLast := h.uLast
  sChain := h.sChain.rest
  sLast := by
    rw [← h.sLast, List.getLast?_cons_cons]
  nodes := h.nodes
  carried := h.carried

/-- {lit}`dequeue` returns the value behind the dummy node and recycles the dummy. -/
theorem dequeue_cons {v : T} {held : List T} (h : Layout q (v :: held) used spare)
    (moved : T → T) :
    ∃ q', q.dequeue moved = some (q', some v) ∧
      Layout q' held used.tail (spare ++ [q.uHead_]) ∧ q'.allocated = q.allocated := by
  cases used with
  | nil => cases h.carried
  | cons nextu used =>
      rcases List.cons.inj h.carried with ⟨rfl, hheld⟩
      have hnext : q.next_ q.uHead_ = some nextu := h.uChain.next_head
      refine ⟨q.recycle moved q.uHead_ nextu, ?_, ?_, rfl⟩
      · rw [Heap.dequeue, hnext]
      · rcases List.nodup_append.mp h.nodup with ⟨hleft, _, hdisj⟩
        have hpreu : q.uHead_ ∉ q.sHead_ :: spare := fun hp =>
          hdisj q.uHead_ (by simp) q.uHead_ hp rfl
        have htail : q.sTail_ ∉ nextu :: used := fun hp =>
          hdisj q.sTail_ (List.mem_cons_of_mem _ hp) q.sTail_ (List.mem_of_getLast? h.sLast) rfl
        have hnotin := (List.nodup_cons.mp hleft).1
        have hnextu := (List.nodup_cons.mp (List.nodup_cons.mp hleft).2).1
        constructor
        · exact h.uChain.rest.append_other hnotin htail
        · have hlast := h.uLast
          rw [List.getLast?_cons_cons] at hlast
          exact hlast
        · exact h.sChain.append hpreu h.sLast
        · rw [← List.cons_append, List.getLast?_concat]
          rfl
        · apply List.Perm.trans _ h.nodes
          have hswap : (nextu :: used ++ q.sHead_ :: spare ++ [q.uHead_]).Perm
              (q.uHead_ :: (nextu :: used ++ q.sHead_ :: spare)) :=
            List.perm_append_singleton _ _
          simpa [Heap.recycle] using hswap
        · rw [← hheld]
          apply List.map_congr_left
          intro p hp
          apply Function.update_of_ne
          rintro rfl
          exact hnextu hp

/-- On an empty queue {lit}`dequeue` fails and changes nothing. -/
theorem dequeue_nil (h : Layout q [] used spare) (moved : T → T) :
    q.dequeue moved = some (q, none) := by
  have hused : used = [] := List.map_eq_nil_iff.mp h.carried
  subst hused
  have hnext : q.next_ q.uHead_ = none := h.uChain.last q.uHead_ rfl
  have htail : q.uHead_ = q.uTail_ := Option.some.inj h.uLast
  rw [Heap.dequeue, hnext]
  exact if_pos htail

variable [Inhabited T]

/-- The only spare node is replaced by a new one. -/
theorem alloc (h : Layout q held used []) :
    Detached q.alloc held used q.sHead_ q.allocated [] := by
  have hold : ∀ p ∈ q.uHead_ :: used, p ≠ q.allocated := by
    rintro p hp rfl
    exact absurd (h.lt_allocated (List.mem_append_left _ hp)) (Nat.lt_irrefl _)
  constructor
  · apply h.uChain.frame
    intro p hp
    exact Function.update_of_ne (hold p hp) _ _
  · exact h.uLast
  · exact LinkedChain.singleton (Function.update_self _ _ _) fun _ => rfl
  · rfl
  · have hnodes := h.nodes.append_right [q.allocated]
    rw [← List.range_succ] at hnodes
    simpa [Heap.alloc] using hnodes
  · rw [← h.carried]
    apply List.map_congr_left
    intro p hp
    exact Function.update_of_ne (hold p (List.mem_cons_of_mem _ hp)) _ _

/-- {lit}`enqueue` takes the first spare node, or a new one when it is the only one. -/
theorem enqueue (h : Layout q held used spare) (v : T) :
    ∃ q', q.enqueue v = some q' ∧
      Layout q' (held ++ [v]) (used ++ [q.sHead_]) spare.tail ∧
      q'.allocated = if spare = [] then q.allocated + 1 else q.allocated := by
  cases spare with
  | nil =>
      have hnext : q.next_ q.sHead_ = none := h.sChain.last q.sHead_ rfl
      have htail : q.sHead_ = q.sTail_ := Option.some.inj h.sLast
      refine ⟨q.alloc.append q.sHead_ q.allocated v, ?_, h.alloc.append v, rfl⟩
      rw [Heap.enqueue, hnext]
      exact if_pos htail
  | cons nexts spare =>
      have hnext : q.next_ q.sHead_ = some nexts := h.sChain.next_head
      refine ⟨q.append q.sHead_ nexts v, ?_, h.detach.append v, rfl⟩
      rw [Heap.enqueue, hnext]

end Layout

end Layout

/-! ## Sequences of calls -/

section Calls

variable {T : Type*}

/-- A call of the only thread that uses the queue. -/
inductive Call (T : Type*) where
  | enqueue (input : T)
  | dequeue

/-- What a list does on a call, and what {lit}`dequeue` returns. -/
def Call.onList (held : List T) : Call T → List T × List (Option T)
  | .enqueue input => (held ++ [input], [])
  | .dequeue => (held.tail, [held.head?])

/-- What the calls return when the queue is a list. -/
def fifo : List T → List (Call T) → List (Option T)
  | _, [] => []
  | held, call :: calls => (call.onList held).2 ++ fifo (call.onList held).1 calls

/-- The values that remain in the list. -/
def remaining : List T → List (Call T) → List T
  | held, [] => held
  | held, call :: calls => remaining (call.onList held).1 calls

/-- The largest number of values in the list at once. -/
def mostHeld : List T → List (Call T) → Nat
  | held, [] => held.length
  | held, call :: calls => max held.length (mostHeld (call.onList held).1 calls)

namespace Heap

variable [Inhabited T]

/-- One call, and what {lit}`dequeue` returns. -/
def call (moved : T → T) (q : Heap T) : Call T → Option (Heap T × List (Option T))
  | .enqueue input => (q.enqueue input).map fun q' => (q', [])
  | .dequeue => (q.dequeue moved).map fun (q', output) => (q', [output])

/-- The calls one after the other. -/
def calls (moved : T → T) : Heap T → List (Call T) → Option (Heap T × List (Option T))
  | q, [] => some (q, [])
  | q, call :: calls =>
      (q.call moved call).bind fun (q', outputs) =>
        (Heap.calls moved q' calls).map fun (q'', outputs') => (q'', outputs ++ outputs')

end Heap

variable {q : Heap T} {held : List T} {used spare : List NodePtr}

theorem length_le_mostHeld (held : List T) (calls : List (Call T)) :
    held.length ≤ mostHeld held calls := by
  cases calls with
  | nil => exact Nat.le_refl _
  | cons call calls => exact Nat.le_max_left _ _

/-- A loop of the destructor deletes exactly the nodes of its chain. -/
theorem deleteChain_eq {next_ : NodePtr → Option NodePtr} {l : List NodePtr} {p : NodePtr}
    {fuel : Nat} (h : ClosedChain next_ (p :: l)) (hfuel : l.length < fuel) :
    Heap.deleteChain next_ fuel (some p) = some (p :: l) := by
  induction l generalizing p fuel with
  | nil =>
      cases fuel with
      | zero => cases hfuel
      | succ fuel =>
          have hnext : next_ p = none := h.last p rfl
          simp [Heap.deleteChain, hnext]
  | cons r l ih =>
      cases fuel with
      | zero => cases hfuel
      | succ fuel =>
          rw [Heap.deleteChain, h.next_head, ih h.rest (Nat.lt_of_succ_lt_succ hfuel)]
          rfl

/-- The destructor deletes the spare chain and then the used chain. -/
theorem Layout.destruct (h : Layout q held used spare) :
    q.destruct = some (q.sHead_ :: spare ++ q.uHead_ :: used) := by
  have hlen := h.nodes.length_eq
  simp only [List.length_append, List.length_cons, List.length_range] at hlen
  rw [Heap.destruct, deleteChain_eq h.sChain (by omega), deleteChain_eq h.uChain (by omega)]

/-- A chain from {lit}`head` to {lit}`tail` that the next pointers spell and that ends in a null
pointer. -/
structure Spells (next_ : NodePtr → Option NodePtr) (head tail : NodePtr) (nodes : List NodePtr) :
    Prop where
  first : nodes.head? = some head
  last : nodes.getLast? = some tail
  linked : nodes.IsChain fun p p' => next_ p = some p'
  null : next_ tail = none

theorem spells_of_chain {next_ : NodePtr → Option NodePtr} {l : List NodePtr} {p tail : NodePtr}
    (h : ClosedChain next_ (p :: l)) (hlast : (p :: l).getLast? = some tail) :
    Spells next_ p tail (p :: l) where
  first := rfl
  last := hlast
  linked := h.isChain
  null := h.last tail hlast

variable [Inhabited T]

/-- A call does to the chains what it does to a list; it allocates a node only when no spare node
would remain. -/
theorem Layout.call (h : Layout q held used spare) (moved : T → T) (call : Call T) :
    ∃ q' used' spare', q.call moved call = some (q', (call.onList held).2) ∧
      Layout q' (call.onList held).1 used' spare' ∧
      q'.allocated = max q.allocated ((call.onList held).1.length + 2) := by
  have hlen := h.length_eq
  cases call with
  | enqueue input =>
      rcases h.enqueue input with ⟨q', hq', h', halloc⟩
      refine ⟨q', _, _, by rw [Heap.call, hq']; rfl, h', ?_⟩
      rw [halloc, Call.onList, List.length_append, List.length_singleton]
      cases spare with
      | nil =>
          rw [List.length_nil] at hlen
          rw [if_pos rfl]
          omega
      | cons nexts spare =>
          rw [List.length_cons] at hlen
          rw [if_neg (List.cons_ne_nil _ _)]
          omega
  | dequeue =>
      cases held with
      | nil =>
          refine ⟨q, used, spare, by rw [Heap.call, h.dequeue_nil]; rfl, h, ?_⟩
          rw [List.length_nil] at hlen
          simp only [Call.onList, List.tail_nil, List.length_nil]
          omega
      | cons v held =>
          rcases h.dequeue_cons moved with ⟨q', hq', h', halloc⟩
          refine ⟨q', _, _, by rw [Heap.call, hq']; rfl, h', ?_⟩
          rw [List.length_cons] at hlen
          rw [halloc]
          simp only [Call.onList, List.tail_cons]
          omega

/-- Every sequence of calls ends, returns what a list returns and leaves two chains that hold every
node. -/
theorem Layout.calls (h : Layout q held used spare) (moved : T → T) (calls : List (Call T)) :
    ∃ q' used' spare', q.calls moved calls = some (q', fifo held calls) ∧
      Layout q' (remaining held calls) used' spare' ∧
      q'.allocated = max q.allocated (mostHeld held calls + 2) := by
  induction calls generalizing q held used spare with
  | nil =>
      have hlen := h.length_eq
      refine ⟨q, used, spare, rfl, h, ?_⟩
      rw [mostHeld]
      omega
  | cons call calls ih =>
      rcases h.call moved call with ⟨q₁, used₁, spare₁, hq₁, h₁, halloc₁⟩
      rcases ih h₁ with ⟨q₂, used₂, spare₂, hq₂, h₂, halloc₂⟩
      have hlen := h.length_eq
      have hmost := length_le_mostHeld (call.onList held).1 calls
      refine ⟨q₂, used₂, spare₂, ?_, h₂, ?_⟩
      · rw [Heap.calls, hq₁, Option.bind_some]
        dsimp only
        rw [hq₂]
        rfl
      · rw [halloc₂, halloc₁, mostHeld]
        omega

/-- Used by one thread, {lit}`dequeue` returns the oldest value that it has not returned yet and
fails when there is none.  The two chains hold every allocated node exactly once, there are two
nodes more than the largest number of values held at once, and the destructor deletes each of
them once. -/
theorem sequential_fifo (moved : T → T) (calls : List (Call T)) :
    ∃ q used spare deleted, Heap.construct.calls moved calls = some (q, fifo [] calls) ∧
      Spells q.next_ q.uHead_ q.uTail_ used ∧ Spells q.next_ q.sHead_ q.sTail_ spare ∧
      (used ++ spare).Perm (List.range q.allocated) ∧
      q.allocated = 2 + mostHeld [] calls ∧
      q.destruct = some deleted ∧ deleted.Perm (List.range q.allocated) := by
  rcases Layout.construct.calls moved calls with ⟨q, used, spare, hq, h, halloc⟩
  refine ⟨q, _, _, _, hq, spells_of_chain h.uChain h.uLast, spells_of_chain h.sChain h.sLast,
    h.nodes, ?_, h.destruct, ?_⟩
  · have htwo : (Heap.construct : Heap T).allocated = 2 := rfl
    rw [halloc, htwo]
    omega
  · exact List.perm_append_comm.trans h.nodes

end Calls

/-! ## A call as a run of its atomic actions -/

section Atomic

variable {τ T : Type*} {moved : T → T} {q : State τ T} {t : τ}

/-- The heap of a queue between its calls. -/
def heap (q : State τ T) : Heap T where
  data := q.data
  next_ := q.next_
  allocated := q.allocated
  uHead_ := q.uHead_
  uTail_ := q.uTail_
  sHead_ := q.sHead_
  sTail_ := q.sTail_

/-- The same threads and locks over another heap. -/
def withHeap (q : State τ T) (h : Heap T) : State τ T :=
  { q with
    data := h.data
    next_ := h.next_
    allocated := h.allocated
    uHead_ := h.uHead_
    uTail_ := h.uTail_
    sHead_ := h.sHead_
    sTail_ := h.sTail_ }

/-- No call is in progress. -/
structure Free (q : State τ T) : Prop where
  quiet : q.Quiet
  uLk : q.uLk_ = none
  sLk : q.sLk_ = none

theorem Free.withHeap (h : Free q) (h' : Heap T) : Free (withHeap q h') where
  quiet := h.quiet
  uLk := h.uLk
  sLk := h.sLk

theorem free_construct [Inhabited T] : Free (State.construct : State τ T) where
  quiet _ := rfl
  uLk := rfl
  sLk := rfl

/-- Thread {lit}`t` makes a call and performs its {lit}`n` atomic actions. -/
def actions (t : τ) (n : Nat) : Call T → List (Action τ T)
  | .enqueue input => .enqueue t input :: List.replicate n (.go t)
  | .dequeue => .dequeue t :: List.replicate n (.go t)

variable [DecidableEq τ] [Inhabited T]

/-- One atomic action at the head of a run. -/
theorem run_go {q₁ : State τ T} {n : Nat} {es es₁ : List (Event T)} {r : State τ T × List (Event T)}
    (hadvance : advance moved q t = some q₁) (hemit : emit q (.go t) = es₁)
    (hrest : ((machine moved).observe emit).run (q₁, es ++ es₁) (List.replicate n (.go t)) =
      some r) :
    ((machine moved).observe emit).run (q, es) (List.replicate (n + 1) (.go t)) = some r := by
  rw [List.replicate_succ]
  apply Machine.run_cons_eq_some.mpr
  exact ⟨(q₁, es ++ es₁), Machine.observe_step_eq_some.mpr ⟨hadvance, by rw [hemit]⟩, hrest⟩

/-- An {lit}`enqueue` that is not interleaved with other calls does what the function says. -/
theorem run_enqueue (h : Free q) (t : τ) {v : T} {h' : Heap T} (es : List (Event T))
    (hcall : (heap q).enqueue v = some h') :
    ∃ n, ((machine moved).observe emit).run (q, es) (actions t n (.enqueue v)) =
      some (withHeap q h', es ++ [.called v, .exchanged v]) := by
  have hpc := h.quiet t
  have hfree : Function.update q.pc t .idle = q.pc := by rw [← hpc, Function.update_eq_self]
  have hlk := h.sLk
  rcases q with ⟨data, next_, allocated, uHead_, uTail_, uLk_, sHead_, sTail_, sLk_, pc⟩
  dsimp only at hpc hfree hlk
  subst hlk
  have hstart : ((machine moved).observe emit).step
      (⟨data, next_, allocated, uHead_, uTail_, uLk_, sHead_, sTail_, none, pc⟩, es)
      (.enqueue t v) = some
        (⟨data, next_, allocated, uHead_, uTail_, uLk_, sHead_, sTail_, none,
          Function.update pc t (.enqLock v)⟩, es ++ [.called v]) := by
    apply Machine.observe_step_eq_some.mpr
    simp [machine, step, hpc, emit, State.goto]
  unfold Heap.enqueue heap at hcall
  dsimp only at hcall
  split at hcall
  · rename_i nexts hnext
    cases hcall
    refine ⟨9, Machine.run_cons_eq_some.mpr ⟨_, hstart, ?_⟩⟩
    -- every action is enabled and the state after it is read off its branch of `advance`
    iterate 9
      apply run_go
        (by simp only [advance, State.goto, Function.update_self, Function.update_idem, if_true,
              hnext]
            rfl)
        (by simp only [emit, Function.update_self]; rfl)
    simp [Machine.run, withHeap, Heap.append, hfree]
  · rename_i hnext
    split at hcall
    · rename_i htail
      cases hcall
      subst htail
      refine ⟨13, Machine.run_cons_eq_some.mpr ⟨_, hstart, ?_⟩⟩
      iterate 13
        apply run_go
          (by simp only [advance, State.goto, Function.update_self, Function.update_idem, if_true,
                hnext]
              rfl)
          (by simp only [emit, Function.update_self]; rfl)
      simp [Machine.run, withHeap, Heap.append, Heap.alloc, hfree]
    · cases hcall

/-- What a {lit}`dequeue` shows. -/
def dequeueEvents : Option T → List (Event T)
  | some v => [.taken v, .returned v]
  | none => []

/-- A {lit}`dequeue` that is not interleaved with other calls does what the function says. -/
theorem run_dequeue (h : Free q) (t : τ) {h' : Heap T} {output : Option T} (es : List (Event T))
    (hcall : (heap q).dequeue moved = some (h', output)) :
    ∃ n, ((machine moved).observe emit).run (q, es) (actions t n .dequeue) =
      some (withHeap q h', es ++ dequeueEvents output) := by
  have hpc := h.quiet t
  have hfree : Function.update q.pc t .idle = q.pc := by rw [← hpc, Function.update_eq_self]
  have hlk := h.uLk
  rcases q with ⟨data, next_, allocated, uHead_, uTail_, uLk_, sHead_, sTail_, sLk_, pc⟩
  dsimp only at hpc hfree hlk
  subst hlk
  have hstart : ((machine moved).observe emit).step
      (⟨data, next_, allocated, uHead_, uTail_, none, sHead_, sTail_, sLk_, pc⟩, es)
      (.dequeue t) = some
        (⟨data, next_, allocated, uHead_, uTail_, none, sHead_, sTail_, sLk_,
          Function.update pc t .deqLock⟩, es) := by
    apply Machine.observe_step_eq_some.mpr
    simp [machine, step, hpc, emit, State.goto]
  unfold Heap.dequeue heap at hcall
  dsimp only at hcall
  split at hcall
  · rename_i nextu hnext
    cases hcall
    refine ⟨9, Machine.run_cons_eq_some.mpr ⟨_, hstart, ?_⟩⟩
    iterate 9
      apply run_go
        (by simp only [advance, State.goto, Function.update_self, Function.update_idem, if_true,
              hnext]
            rfl)
        (by simp only [emit, Function.update_self]; rfl)
    simp [Machine.run, withHeap, Heap.recycle, dequeueEvents, hfree]
  · rename_i hnext
    split at hcall
    · rename_i htail
      cases hcall
      subst htail
      refine ⟨6, Machine.run_cons_eq_some.mpr ⟨_, hstart, ?_⟩⟩
      iterate 6
        apply run_go
          (by simp only [advance, State.goto, Function.update_self, Function.update_idem, if_true,
                hnext]
              rfl)
          (by simp only [emit, Function.update_self]; rfl)
      simp [Machine.run, withHeap, dequeueEvents, hfree]
    · cases hcall

/-- A call is a run of atomic actions of the thread that makes it. -/
theorem run_call (h : Free q) (t : τ) (call : Call T) {h' : Heap T} {outputs : List (Option T)}
    (es : List (Event T)) (hcall : (heap q).call moved call = some (h', outputs)) :
    ∃ n es', ((machine moved).observe emit).run (q, es) (actions t n call) =
      some (withHeap q h', es ++ es') ∧ returnedValues es' = outputs.filterMap id := by
  cases call with
  | enqueue v =>
      rcases Option.map_eq_some_iff.mp hcall with ⟨h₁, henq, heq⟩
      rcases Prod.mk.inj heq with ⟨rfl, rfl⟩
      rcases run_enqueue h t es henq with ⟨n, hrun⟩
      exact ⟨n, _, hrun, rfl⟩
  | dequeue =>
      rcases Option.map_eq_some_iff.mp hcall with ⟨⟨h₁, output⟩, hdeq, heq⟩
      rcases Prod.mk.inj heq with ⟨rfl, rfl⟩
      rcases run_dequeue h t es hdeq with ⟨n, hrun⟩
      refine ⟨n, _, hrun, ?_⟩
      cases output <;> rfl

/-- So is a sequence of calls: the atomic machine refines the functions on the heap. -/
theorem run_calls (h : Free q) (t : τ) (calls : List (Call T)) {h' : Heap T}
    {outputs : List (Option T)} (es : List (Event T))
    (hcalls : (heap q).calls moved calls = some (h', outputs)) :
    ∃ as es', ((machine moved).observe emit).run (q, es) as = some (withHeap q h', es ++ es') ∧
      returnedValues es' = outputs.filterMap id := by
  induction calls generalizing q es outputs with
  | nil =>
      cases hcalls
      exact ⟨[], [], by rw [List.append_nil]; rfl, rfl⟩
  | cons call calls ih =>
      rcases Option.bind_eq_some_iff.mp hcalls with ⟨⟨h₁, outputs₁⟩, hcall, hrest⟩
      rcases Option.map_eq_some_iff.mp hrest with ⟨⟨h₂, outputs₂⟩, hcalls₂, heq⟩
      rcases Prod.mk.inj heq with ⟨rfl, rfl⟩
      rcases run_call h t call es hcall with ⟨n, es₁, hrun₁, hout₁⟩
      rcases ih (h.withHeap h₁) (es ++ es₁) hcalls₂ with ⟨as, es₂, hrun₂, hout₂⟩
      refine ⟨actions t n call ++ as, es₁ ++ es₂, ?_, ?_⟩
      · rw [Machine.run_append, hrun₁, Option.bind_some, hrun₂, List.append_assoc]
        rfl
      · rw [List.filterMap_append, ← hout₁, ← hout₂, returnedValues, List.filterMap_append]
        rfl

/-- In a new queue one thread's atomic actions perform any sequence of calls and return what a list
returns. -/
theorem sequential_run (moved : T → T) (t : τ) (calls : List (Call T)) :
    ∃ (as : List (Action τ T)) (s : State τ T) (es : List (Event T)),
      ((machine moved).observe emit).run (State.construct, []) as = some (s, es) ∧ Free s ∧
      Heap.construct.calls moved calls = some (heap s, fifo [] calls) ∧
      returnedValues es = (fifo [] calls).filterMap id := by
  rcases Layout.construct.calls moved calls with ⟨h', _, _, hcalls, _, _⟩
  rcases run_calls free_construct t calls [] hcalls with ⟨as, es, hrun, hout⟩
  exact ⟨as, _, es, hrun, free_construct.withHeap h', hcalls, hout⟩

end Atomic

end Sequential
end MpmcQueue
end CoEpoll
