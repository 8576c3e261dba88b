import CoEpoll.Utils.MpmcQueue.Transfers
import Mathlib.Algebra.Ring.Nat

/-!
# `MpmcQueue`: what the callers get

An {lit}`enqueue` that finds the spare chain exhausted compares {lit}`sHead_` with
{lit}`sTail_` and later stores {lit}`sTail_`.  A {lit}`dequeue` exchanges {lit}`sTail_` without
{lit}`sLk_`, so it can run between the two; the store then forgets the node it
appended, and the link it still owes lands in a node of the used chain.  As long
as no store of {lit}`sTail_` forgets an exchange, the queue delivers.

Main results:

- Theorem {lit}`inductive_inv`: the invariant holds along every run that forgets no
  exchange.
- Theorem {lit}`delivers_of_tailKept`: in such a run no value is invented, repeated or
  lost.
- Theorem {lit}`returns_twice`: an exchange between the comparison and the store makes
  the queue return a value twice.
-/

namespace CoEpoll
namespace MpmcQueue

open Transition

variable {τ T : Type*}

/-- A store of {lit}`sTail_` happens while {lit}`sTail_` is still the node that was
compared: no {lit}`dequeue` has exchanged it since. -/
def TailKept (q : State τ T) : Action τ T → Prop
  | .go t =>
      match q.pc t with
      | .enqStoreTail _ pres _ => q.sTail_ = pres
      | _ => True
  | _ => True

instance (q : State τ T) (a : Action τ T) : Decidable (TailKept q a) := by
  unfold TailKept
  split
  · split <;> infer_instance
  · infer_instance

/-- What the callers of the queue rely on. -/
structure Delivers (q : State τ T) (es : List (Event T)) : Prop where
  /-- Every returned value was passed in, as often as it is returned. -/
  returned : (returnedValues es : Multiset T) ≤ calledValues es
  /-- After all calls every value passed in was exchanged in, the oldest ones
  are those returned, and the others are in the used nodes in order. -/
  quiet : q.Quiet → (exchangedValues es : Multiset T) = calledValues es ∧
    ∃ n, (returnedValues es : Multiset T) = (exchangedValues es).take n ∧
      q.usedNodes.map q.data = (exchangedValues es).drop n

variable {q q' : State τ T} {es : List (Event T)} {ur sr : List NodePtr}

/-! ## What the invariant gives the callers -/

/-- When no call is in progress the next pointers spell the used nodes. -/
theorem Inv.usedNodes_eq (h : Inv q es ur sr) (hquiet : q.Quiet) : q.usedNodes = ur := by
  have hnone : q.uLk_ = none := by
    cases hlk : q.uLk_ with
    | none => rfl
    | some t => simpa [hquiet t, Pc.inUsed] using (h.locks.uLk t).mpr hlk
  have hhead : q.usedHead = q.uHead_ := by simp [State.usedHead, hnone]
  have hused := h.shape.used
  have htail := h.shape.uTail
  rw [hhead] at hused htail
  refine hused.follow_eq (fun t => by rw [hquiet t]; rfl) htail ?_
  -- the used nodes are distinct addresses below `allocated`
  have hsub : ur ⊆ List.range q.allocated := fun n hn =>
    List.mem_range.mpr (h.shape.bound n (Or.inl (List.mem_cons_of_mem _ hn)))
  have hnodup : ur.Nodup := (List.nodup_cons.mp hused.nodup).2
  simpa using (hnodup.subperm hsub).length_le

/-- The invariant gives the callers what they rely on. -/
theorem Inv.delivers (h : Inv q es ur sr) : Delivers q es := by
  rcases h.ledger.inputs with ⟨m, hm, hcalled⟩
  rcases h.ledger.outputs with ⟨r, hr, htaken⟩
  have hvalues := h.ledger.values
  refine ⟨?_, fun hquiet => ?_⟩
  · calc (returnedValues es : Multiset T)
        ≤ takenValues es := htaken ▸ Multiset.le_add_right _ _
      _ ≤ exchangedValues es := by
          rw [hvalues, List.append_assoc, ← Multiset.coe_add]
          exact Multiset.le_add_right _ _
      _ ≤ calledValues es := hcalled ▸ Multiset.le_add_right _ _
  · have hm0 := hm.eq_zero fun t => by rw [hquiet t]; rfl
    have hr0 := hr.eq_zero fun t => by rw [hquiet t]; rfl
    have hread : q.beingRead = [] := by
      unfold State.beingRead
      cases q.uLk_ with
      | none => rfl
      | some t => simp [hquiet t, Pc.reading]
    rw [hread, List.append_nil] at hvalues
    rw [hm0, add_zero] at hcalled
    rw [hr0, add_zero] at htaken
    refine ⟨hcalled.symm, (takenValues es).length, ?_, ?_⟩
    · rw [hvalues, List.take_left, htaken]
    · rw [hvalues, List.drop_left, h.usedNodes_eq hquiet]

/-! ## The invariant along runs -/

variable [Inhabited T]

/-- The constructor establishes the invariant: both chains have one node. -/
theorem inv_construct : Inv (State.construct : State τ T) [] [] [] where
  shape :=
    { used := LinkedChain.singleton rfl fun _ => rfl
      spare := LinkedChain.singleton rfl fun _ => rfl
      uTail := rfl
      sTail := rfl
      apart := by
        intro n hu hs
        have hn : n = 0 := by simpa [State.usedHead, State.construct] using hu
        simp [hn, State.spareHead, State.construct] at hs
      bound := by
        intro n hn
        have hn' : n = 0 ∨ n = 1 := by
          simpa [State.usedHead, State.spareHead, State.construct] using hn
        change n < 2
        rcases hn' with rfl | rfl <;> decide
      owned := fun t n hn => by simp [State.construct, Pc.owned] at hn
      alone := fun t t' n hn => by simp [State.construct, Pc.owned] at hn }
  locks :=
    { uLk := fun t => by simp [State.construct, Pc.inUsed]
      sLk := fun t => by simp [State.construct, Pc.inSpare]
      ok := fun t => trivial }
  ledger :=
    { values := rfl
      inputs := ⟨0, Tally.empty fun _ => rfl, rfl⟩
      outputs := ⟨0, Tally.empty fun _ => rfl, rfl⟩ }

variable [DecidableEq τ]

/-- One atomic action of a thread keeps the invariant. -/
theorem Inv.advance {moved : T → T} {t : τ} (h : Inv q es ur sr)
    (hkept : TailKept q (.go t)) (hstep : advance moved q t = some q') :
    ∃ ur' sr', Inv q' (es ++ emit q (.go t)) ur' sr' := by
  have hok := h.locks.ok t
  -- a step that only loads or compares moves the program counter to `p`
  have hmove : ∀ p : Pc T, p.owned = (q.pc t).owned → p.Same (q.pc t) → p.Ok q →
      some (q.goto t p) = some q' → ∃ ur' sr', Inv q' (es ++ []) ur' sr' := by
    intro p hown hsame hp hq
    cases hq
    exact ⟨ur, sr, by simpa using h.move hown hsame hp⟩
  unfold MpmcQueue.advance at hstep
  unfold emit
  cases hpc : q.pc t <;> rw [hpc] at hok hmove <;>
    simp only [hpc, TailKept, reduceCtorEq] at hstep hkept ⊢
  case enqLock v =>
    split at hstep
    next hlk =>
      cases hstep
      exact ⟨ur, sr, by simpa using h.enqLock hpc hlk⟩
    next => cases hstep
  case enqHead v => exact hmove (.enqNext v q.sHead_) rfl (by constructor <;> rfl) rfl hstep
  case enqNext v pres =>
    split at hstep
    next nexts hnext =>
      cases hstep
      rcases h.enqNext_some hpc hnext with ⟨sr', h'⟩
      exact ⟨ur, sr', by simpa using h'⟩
    next => exact hmove (.enqCmpHead v pres) rfl (by constructor <;> rfl) hok hstep
  case enqCmpHead v pres => exact hmove (.enqCmpTail v pres q.sHead_) rfl (by constructor <;> rfl) ⟨hok, rfl⟩ hstep
  case enqCmpTail v pres head =>
    split at hstep
    next => exact hmove (.enqNew v pres) rfl (by constructor <;> rfl) hok.1 hstep
    next => exact hmove (.enqNext v pres) rfl (by constructor <;> rfl) hok.1 hstep
  case enqNew v pres =>
    cases hstep
    exact ⟨ur, sr, by simpa using h.enqNew hpc⟩
  case enqStoreTail v pres nexts =>
    cases hstep
    exact ⟨ur, [], by simpa using h.enqStoreTail hpc hkept⟩
  case enqStoreHead v pres nexts =>
    cases hstep
    exact ⟨ur, sr, by simpa using h.enqStoreHead hpc⟩
  case enqUnlock v pres =>
    cases hstep
    exact ⟨ur, sr, by simpa using h.enqUnlock hpc⟩
  case enqData v pres =>
    cases hstep
    exact ⟨ur, sr, by simpa using h.enqData hpc⟩
  case enqNull v pres =>
    cases hstep
    exact ⟨ur, sr, by simpa using h.enqNull hpc⟩
  case enqExch v pres =>
    cases hstep
    exact ⟨ur ++ [pres], sr, h.enqExch hpc⟩
  case enqLink preu pres =>
    cases hstep
    exact ⟨ur, sr, by simpa using h.enqLink hpc⟩
  case deqLock =>
    split at hstep
    next hlk =>
      cases hstep
      exact ⟨ur, sr, by simpa using h.deqLock hpc hlk⟩
    next => cases hstep
  case deqHead => exact hmove (.deqNext q.uHead_) rfl (by constructor <;> rfl) rfl hstep
  case deqNext preu =>
    split at hstep
    next nextu hnext =>
      cases hstep
      rcases h.deqNext_some hpc hnext with ⟨ur', h'⟩
      exact ⟨ur', sr, by simpa using h'⟩
    next => exact hmove (.deqCmpHead preu) rfl (by constructor <;> rfl) hok hstep
  case deqCmpHead preu => exact hmove (.deqCmpTail preu q.uHead_) rfl (by constructor <;> rfl) ⟨hok, rfl⟩ hstep
  case deqCmpTail preu head =>
    split at hstep
    next => exact hmove .deqFail rfl (by constructor <;> rfl) trivial hstep
    next => exact hmove (.deqNext preu) rfl (by constructor <;> rfl) hok.1 hstep
  case deqFail =>
    cases hstep
    refine ⟨ur, sr, ?_⟩
    rw [List.append_nil]
    apply h.deqRelease <;> first | rw [hpc]; rfl | trivial | simp [Pc.owned]
  case deqStoreHead preu nextu =>
    cases hstep
    exact ⟨ur, sr, by simpa using h.deqStoreHead hpc⟩
  case deqData preu nextu =>
    cases hstep
    exact ⟨ur, sr, h.deqData moved hpc⟩
  case deqUnlock preu output =>
    cases hstep
    refine ⟨ur, sr, ?_⟩
    rw [List.append_nil]
    apply h.deqRelease <;> first | rw [hpc]; rfl | trivial | simp [hpc, Pc.owned]
  case deqNull preu output =>
    cases hstep
    exact ⟨ur, sr, by simpa using h.deqNull hpc⟩
  case deqExch preu output =>
    cases hstep
    exact ⟨ur, sr ++ [preu], by simpa using h.deqExch hpc⟩
  case deqLink preu pres output =>
    cases hstep
    exact ⟨ur, sr, h.deqLink hpc⟩

/-- One action keeps the invariant, with the events it emits. -/
theorem Inv.step {moved : T → T} {a : Action τ T} (h : Inv q es ur sr) (hkept : TailKept q a)
    (hstep : step moved q a = some q') : ∃ ur' sr', Inv q' (es ++ emit q a) ur' sr' := by
  cases a with
  | enqueue t input =>
      cases hpc : q.pc t <;> simp only [MpmcQueue.step, hpc, reduceCtorEq] at hstep
      cases hstep
      exact ⟨ur, sr, h.enqueue hpc input⟩
  | dequeue t =>
      cases hpc : q.pc t <;> simp only [MpmcQueue.step, hpc, reduceCtorEq] at hstep
      cases hstep
      exact ⟨ur, sr, by simpa [emit] using h.dequeue hpc⟩
  | go t => exact h.advance hkept hstep

/-- The queue with the values that its callers see, as long as no store of
{lit}`sTail_` forgets an exchange. -/
def keptMachine (moved : T → T) : Machine (State τ T × List (Event T)) (Action τ T) :=
  ((machine moved).restrict TailKept).observe emit

/-- The invariant holds along every run that forgets no exchange. -/
theorem inductive_inv (moved : T → T) :
    (keptMachine (τ := τ) moved).Inductive fun s => ∃ ur sr, Inv s.1 s.2 ur sr where
  init := by
    rintro ⟨q, es⟩ ⟨rfl, rfl⟩
    exact ⟨[], [], inv_construct⟩
  step := by
    rintro ⟨q, es⟩ a ⟨q', es'⟩ ⟨ur, sr, h⟩ hstep
    rcases Machine.observe_step_eq_some.mp hstep with ⟨hq, rfl⟩
    rcases Machine.restrict_step_eq_some.mp hq with ⟨hkept, hq⟩
    exact h.step hkept hq

/-- In every run of any number of threads in which no {lit}`dequeue` exchanges {lit}`sTail_`
between the comparison and the store of an {lit}`enqueue`, the queue delivers. -/
theorem delivers_of_tailKept (moved : T → T) (s : State τ T × List (Event T))
    (hs : (keptMachine moved).Reachable s) : Delivers s.1 s.2 := by
  rcases (inductive_inv moved).reachable hs with ⟨ur, sr, h⟩
  exact h.delivers

/-- The values passed in and the values returned by a run. -/
def valuesOf (M : Machine (State (Fin 2) ℕ × List (Event ℕ)) (Action (Fin 2) ℕ))
    (as : List (Action (Fin 2) ℕ)) : Option (List ℕ × List ℕ) :=
  (M.run (State.construct, []) as).map fun s => (calledValues s.2, returnedValues s.2)

theorem exists_of_valuesOf {M : Machine (State (Fin 2) ℕ × List (Event ℕ)) (Action (Fin 2) ℕ)}
    {as : List (Action (Fin 2) ℕ)} {vs ws : List ℕ} (hinit : M.init (State.construct, []))
    (h : valuesOf M as = some (vs, ws)) :
    ∃ s, M.Reachable s ∧ calledValues s.2 = vs ∧ returnedValues s.2 = ws := by
  rcases Option.map_eq_some_iff.mp h with ⟨s, hrun, hs⟩
  exact ⟨s, ⟨_, as, hinit, hrun⟩, congrArg Prod.fst hs, congrArg Prod.snd hs⟩

/-- The numbers of two threads are literals of {lit}`Fin 2`. -/
theorem neZero_two : NeZero 2 :=
  ⟨two_ne_zero⟩

attribute [local instance] neZero_two

/-- One thread enqueues, dequeues and enqueues alone; the other takes that value and
pauses before it exchanges {lit}`sTail_`. -/
def beforeExchange : List (Action (Fin 2) ℕ) :=
  .enqueue 0 7 :: List.replicate 13 (.go 0) ++
  .dequeue 0 :: List.replicate 9 (.go 0) ++
  .enqueue 0 1 :: List.replicate 9 (.go 0) ++
  .dequeue 1 :: List.replicate 7 (.go 1)

/-- A run that delivers. -/
theorem beforeExchange_delivers :
    ∃ s : State (Fin 2) ℕ × List (Event ℕ), (keptMachine id).Reachable s ∧
      calledValues s.2 = [7, 1] ∧ returnedValues s.2 = [7] ∧ Delivers s.1 s.2 := by
  have hvals : valuesOf (keptMachine id) beforeExchange = some ([7, 1], [7]) := by
    decide +kernel
  rcases exists_of_valuesOf (by exact ⟨rfl, rfl⟩) hvals with ⟨s, hs, hcalled, hreturned⟩
  exact ⟨s, hs, hcalled, hreturned, delivers_of_tailKept id s hs⟩

/-- A run in which the exchange falls between the comparison and the store. -/
def forgottenExchange : List (Action (Fin 2) ℕ) :=
  beforeExchange ++
  -- thread 0 finds `sHead_ == sTail_`
  .enqueue 0 2 :: List.replicate 5 (.go 0) ++
  -- thread 1 exchanges `sTail_`, thread 0 stores it and finishes
  .go 1 :: List.replicate 8 (.go 0) ++
  -- thread 1 stores the link it owes into a node of the used chain
  .go 1 ::
  .dequeue 0 :: List.replicate 9 (.go 0) ++
  .dequeue 0 :: List.replicate 9 (.go 0)

/-- Without the condition a value that was passed in once is returned twice. -/
theorem returns_twice :
    ∃ s : State (Fin 2) ℕ × List (Event ℕ), ((machine id).observe emit).Reachable s ∧
      calledValues s.2 = [7, 1, 2] ∧ returnedValues s.2 = [7, 1, 2, 7] ∧ ¬ Delivers s.1 s.2 := by
  have hvals : valuesOf ((machine id).observe emit) forgottenExchange =
      some ([7, 1, 2], [7, 1, 2, 7]) := by
    decide +kernel
  rcases exists_of_valuesOf (by exact ⟨rfl, rfl⟩) hvals with ⟨s, hs, hcalled, hreturned⟩
  refine ⟨s, hs, hcalled, hreturned, fun h => ?_⟩
  have hcount := Multiset.le_iff_count.mp h.returned 7
  rw [hcalled, hreturned] at hcount
  revert hcount
  decide

end MpmcQueue
end CoEpoll
