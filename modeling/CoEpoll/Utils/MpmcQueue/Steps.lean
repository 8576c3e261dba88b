import CoEpoll.Utils.MpmcQueue.Chains

/-!
# `MpmcQueue`: every atomic action keeps the invariant

One lemma for each kind of action.  The only action that needs a condition is
{lit}`sTail_ = nexts` of an {lit}`enqueue` that has found the spare chain exhausted: it is
a plain store, and it keeps the invariant only while {lit}`sTail_` is still the node
that was compared.
-/

namespace CoEpoll
namespace MpmcQueue

open Transition

variable {τ T : Type*} [DecidableEq τ] {q : State τ T} {es : List (Event T)}
  {ur sr : List NodePtr} {t : τ}

/-! ## Loads, comparisons and writes of the thread's own node -/

/-- Two program points that differ only in the owned node and in what is known. -/
structure Pc.Same (p p' : Pc T) : Prop where
  uLink : p.uLink = p'.uLink
  sLink : p.sLink = p'.sLink
  newUHead : p.newUHead = p'.newUHead
  newSHead : p.newSHead = p'.newSHead
  reading : p.reading = p'.reading
  input : p.input = p'.input
  output : p.output = p'.output
  inUsed : p.inUsed = p'.inUsed
  inSpare : p.inSpare = p'.inSpare

omit [DecidableEq τ] in
/-- The node whose value is about to be read is the first used node. -/
theorem Inv.reading_eq {u : τ} {n : NodePtr} (h : Inv q es ur sr) (hlk : q.uLk_ = some u)
    (hn : (q.pc u).reading = some n) : n = q.usedHead := by
  have hok := h.locks.ok u
  rw [usedHead_of_holder hlk]
  cases hp : q.pc u <;> rw [hp] at hn hok <;>
    simp_all [Pc.reading, Pc.newUHead, Pc.Ok]

/-- A step that writes at most the thread's own node or a fresh one. -/
theorem Inv.write {q' : State τ T} {p : Pc T} (h : Inv q es ur sr)
    (hpc : q'.pc = Function.update q.pc t p)
    (huLk : q'.uLk_ = q.uLk_) (hsLk : q'.sLk_ = q.sLk_)
    (huH : q'.uHead_ = q.uHead_) (huT : q'.uTail_ = q.uTail_)
    (hsH : q'.sHead_ = q.sHead_) (hsT : q'.sTail_ = q.sTail_)
    (hmem : ∀ n, n < q.allocated → (q.pc t).owned ≠ some n →
      q'.next_ n = q.next_ n ∧ q'.data n = q.data n)
    (hall : q.allocated ≤ q'.allocated)
    (hown : ∀ n, p.owned = some n →
      (q.pc t).owned = some n ∨ (q.allocated ≤ n ∧ n < q'.allocated))
    (hp : p.Same (q.pc t)) (hok : p.Ok q') : Inv q' es ur sr := by
  have hused : ∀ n ∈ q.usedHead :: ur, q'.data n = q.data n := fun n hn =>
    (hmem n (h.shape.bound n (Or.inl hn)) fun ho => (h.shape.owned t n ho).2.1 hn).2
  refine ⟨?_, ?_, ?_⟩
  · exact h.shape.of_private hpc (usedHead_goto hpc huLk huH hp.newUHead)
      (spareHead_goto hpc hsLk hsH hp.newSHead) huT hsT (fun n hn ho => (hmem n hn ho).1) hall
      hp.uLink hp.sLink hown
  · exact h.locks.keep hpc huLk hsLk hp.inUsed hp.inSpare hok
      (h.others (Or.inl huH) (Or.inl hsH) fun n hn _ _ ho => hmem n hn ho)
  · refine h.ledger.keep hpc (beingRead_goto hpc huLk hp.reading ?_) ?_ hp.input hp.output
    · intro u n hlk hn
      rw [h.reading_eq hlk hn]
      exact hused _ List.mem_cons_self
    · exact List.map_congr_left fun n hn => hused n (List.mem_cons_of_mem _ hn)

/-- A step that only moves the program counter. -/
theorem Inv.move {p : Pc T} (h : Inv q es ur sr) (hown : p.owned = (q.pc t).owned)
    (hp : p.Same (q.pc t)) (hok : p.Ok q) : Inv (q.goto t p) es ur sr :=
  h.write rfl rfl rfl rfl rfl rfl rfl (fun _ _ _ => ⟨rfl, rfl⟩) le_rfl
    (fun _ hn => Or.inl (hown ▸ hn)) hp
    (hok.frame (fun _ => rfl) (fun _ => rfl) fun _ _ => ⟨rfl, rfl⟩)

/-- {lit}`nexts = new BufferNode`: the fresh node belongs to the thread. -/
theorem Inv.enqNew [Inhabited T] {v : T} {pres : NodePtr} (h : Inv q es ur sr)
    (hpc : q.pc t = .enqNew v pres) :
    Inv ({ q with
      data := Function.update q.data q.allocated default
      next_ := Function.update q.next_ q.allocated none
      allocated := q.allocated + 1 }.goto t (.enqStoreTail v pres q.allocated)) es ur sr := by
  have hok := h.locks.ok t
  rw [hpc] at hok
  refine h.write (t := t) (p := .enqStoreTail v pres q.allocated) rfl rfl rfl rfl rfl rfl rfl ?_
    (Nat.le_succ _) ?_ ?_ ?_
  · intro n hn _
    simp [Function.update_of_ne hn.ne]
  · intro n hn
    have hn' : q.allocated = n := by simpa [Pc.owned] using hn
    exact Or.inr ⟨hn'.le, hn' ▸ Nat.lt_succ_self _⟩
  · rw [hpc]
    constructor <;> rfl
  · exact ⟨hok, by simp⟩

/-- {lit}`pres->data = input`. -/
theorem Inv.enqData {v : T} {pres : NodePtr} (h : Inv q es ur sr)
    (hpc : q.pc t = .enqData v pres) :
    Inv ({ q with data := Function.update q.data pres v }.goto t (.enqNull v pres)) es ur sr := by
  refine h.write (t := t) (p := .enqNull v pres) rfl rfl rfl rfl rfl rfl rfl ?_ le_rfl ?_ ?_ ?_
  · intro n _ hn
    rw [hpc] at hn
    have hne : n ≠ pres := fun hnp => hn (by rw [hnp]; rfl)
    simp [Function.update_of_ne hne]
  · intro n hn
    rw [hpc]
    exact Or.inl hn
  · rw [hpc]
    constructor <;> rfl
  · simp [Pc.Ok]

/-- {lit}`pres->next_ = nullptr` of an {lit}`enqueue`. -/
theorem Inv.enqNull {v : T} {pres : NodePtr} (h : Inv q es ur sr)
    (hpc : q.pc t = .enqNull v pres) :
    Inv ({ q with next_ := Function.update q.next_ pres none }.goto t (.enqExch v pres))
      es ur sr := by
  have hok := h.locks.ok t
  rw [hpc] at hok
  refine h.write (t := t) (p := .enqExch v pres) rfl rfl rfl rfl rfl rfl rfl ?_ le_rfl ?_ ?_ ?_
  · intro n _ hn
    rw [hpc] at hn
    have hne : n ≠ pres := fun hnp => hn (by rw [hnp]; rfl)
    simp [Function.update_of_ne hne]
  · intro n hn
    rw [hpc]
    exact Or.inl hn
  · rw [hpc]
    constructor <;> rfl
  · exact ⟨hok, by simp⟩

/-- {lit}`preu->next_ = nullptr` of a {lit}`dequeue`. -/
theorem Inv.deqNull {out : T} {preu : NodePtr} (h : Inv q es ur sr)
    (hpc : q.pc t = .deqNull preu out) :
    Inv ({ q with next_ := Function.update q.next_ preu none }.goto t (.deqExch preu out))
      es ur sr := by
  refine h.write (t := t) (p := .deqExch preu out) rfl rfl rfl rfl rfl rfl rfl ?_ le_rfl ?_ ?_ ?_
  · intro n _ hn
    rw [hpc] at hn
    have hne : n ≠ preu := fun hnp => hn (by rw [hnp]; rfl)
    simp [Function.update_of_ne hne]
  · intro n hn
    rw [hpc]
    exact Or.inl hn
  · rw [hpc]
    constructor <;> rfl
  · simp [Pc.Ok]

/-! ## Entering and leaving the calls and the sections -/

/-- The number of recorded calls grows with the call. -/
theorem Inv.enqueue (h : Inv q es ur sr) (hpc : q.pc t = .idle) (v : T) :
    Inv (q.goto t (.enqLock v)) (es ++ [.called v]) ur sr := by
  have hread : (q.goto t (.enqLock v)).beingRead = q.beingRead :=
    beingRead_goto rfl rfl (by rw [hpc]; rfl) fun _ _ _ _ => rfl
  refine ⟨?_, ?_, ?_, ?_, ?_⟩
  · refine h.shape.of_private rfl (usedHead_goto rfl rfl rfl (by rw [hpc]; rfl))
      (spareHead_goto rfl rfl rfl (by rw [hpc]; rfl)) rfl rfl (fun _ _ _ => rfl) le_rfl
      (by rw [hpc]; rfl) (by rw [hpc]; rfl) (fun n hn => ?_)
    simp [Pc.owned] at hn
  · exact h.locks.keep rfl rfl rfl (by rw [hpc]; rfl) (by rw [hpc]; rfl) trivial
      (h.others (Or.inl rfl) (Or.inl rfl) fun _ _ _ _ _ => ⟨rfl, rfl⟩)
  · rw [hread]
    simpa [exchangedValues, takenValues] using h.ledger.values
  · rcases h.ledger.inputs with ⟨m, hm, hes⟩
    refine ⟨{v} + m, ?_, ?_⟩
    · simp only [State.goto_pc, proj_update Pc.input]
      exact hm.add (by rw [hpc]; rfl) v
    · have hc : calledValues (es ++ [.called v]) = calledValues es ++ [v] := by
        simp [calledValues]
      have he : exchangedValues (es ++ [.called v]) = exchangedValues es := by
        simp [exchangedValues]
      rw [hc, he, ← Multiset.coe_add, hes, Multiset.coe_singleton, add_assoc, add_comm m]
  · rcases h.ledger.outputs with ⟨m, hm, hes⟩
    refine ⟨m, ?_, by simpa [takenValues, returnedValues] using hes⟩
    simp only [State.goto_pc, proj_update Pc.output]
    exact hm.keep (by rw [hpc]; rfl)

/-- A thread starts a {lit}`dequeue`. -/
theorem Inv.dequeue (h : Inv q es ur sr) (hpc : q.pc t = .idle) :
    Inv (q.goto t .deqLock) es ur sr := by
  refine h.move (by rw [hpc]; rfl) ?_ trivial
  rw [hpc]
  constructor <;> rfl

/-- Taking {lit}`sLk_`. -/
theorem Inv.enqLock {v : T} (h : Inv q es ur sr) (hpc : q.pc t = .enqLock v)
    (hlk : q.sLk_ = none) :
    Inv ({ q with sLk_ := some t }.goto t (.enqHead v)) es ur sr := by
  have hspare : ({ q with sLk_ := some t }.goto t (.enqHead v)).spareHead = q.spareHead := by
    simp [State.spareHead, hlk, Pc.newSHead]
  have hnot : ∀ u, (q.pc u).inSpare = false := fun u => by
    cases hu : (q.pc u).inSpare with
    | false => rfl
    | true => simpa [hlk] using (h.locks.sLk u).mp hu
  refine ⟨?_, ⟨?_, ?_, ?_⟩, ?_⟩
  · refine h.shape.of_private rfl (usedHead_goto rfl rfl rfl (by rw [hpc]; rfl)) hspare rfl rfl
      (fun _ _ _ => rfl) le_rfl (by rw [hpc]; rfl) (by rw [hpc]; rfl) (fun n hn => ?_)
    simp [Pc.owned] at hn
  · intro u
    rw [State.goto_pc, update_keep Pc.inUsed (by rw [hpc]; rfl)]
    exact h.locks.uLk u
  · intro u
    by_cases hut : u = t
    · subst u
      simp [Pc.inSpare]
    · simp [Function.update_of_ne hut, hnot u, Ne.symm hut]
  · intro u
    by_cases hut : u = t
    · subst u
      simp [Pc.Ok]
    · rw [State.goto_pc, Function.update_of_ne hut]
      exact h.others (Or.inl rfl) (Or.inl rfl) (fun _ _ _ _ _ => ⟨rfl, rfl⟩) u hut
  · exact h.ledger.keep rfl (beingRead_goto rfl rfl (by rw [hpc]; rfl) fun _ _ _ _ => rfl) rfl
      (by rw [hpc]; rfl) (by rw [hpc]; rfl)

/-- Releasing {lit}`sLk_`. -/
theorem Inv.enqUnlock {v : T} {pres : NodePtr} (h : Inv q es ur sr)
    (hpc : q.pc t = .enqUnlock v pres) :
    Inv ({ q with sLk_ := none }.goto t (.enqData v pres)) es ur sr := by
  have hlk : q.sLk_ = some t := (h.locks.sLk t).mp (by rw [hpc]; rfl)
  have hspare : ({ q with sLk_ := none }.goto t (.enqData v pres)).spareHead = q.spareHead := by
    rw [spareHead_of_holder hlk, hpc]
    rfl
  refine ⟨?_, ⟨?_, ?_, ?_⟩, ?_⟩
  · refine h.shape.of_private rfl (usedHead_goto rfl rfl rfl (by rw [hpc]; rfl)) hspare rfl rfl
      (fun _ _ _ => rfl) le_rfl (by rw [hpc]; rfl) (by rw [hpc]; rfl) (fun n hn => Or.inl ?_)
    rw [hpc]
    exact hn
  · intro u
    rw [State.goto_pc, update_keep Pc.inUsed (by rw [hpc]; rfl)]
    exact h.locks.uLk u
  · intro u
    by_cases hut : u = t
    · subst u
      simp [Pc.inSpare]
    · have hu := h.locks.sLk u
      rw [hlk] at hu
      simp [Function.update_of_ne hut, hu, Ne.symm hut]
  · intro u
    by_cases hut : u = t
    · subst u
      simp [Pc.Ok]
    · rw [State.goto_pc, Function.update_of_ne hut]
      exact h.others (Or.inl rfl) (Or.inl rfl) (fun _ _ _ _ _ => ⟨rfl, rfl⟩) u hut
  · exact h.ledger.keep rfl (beingRead_goto rfl rfl (by rw [hpc]; rfl) fun _ _ _ _ => rfl) rfl
      (by rw [hpc]; rfl) (by rw [hpc]; rfl)

/-- Taking {lit}`uLk_`. -/
theorem Inv.deqLock (h : Inv q es ur sr) (hpc : q.pc t = .deqLock) (hlk : q.uLk_ = none) :
    Inv ({ q with uLk_ := some t }.goto t .deqHead) es ur sr := by
  have hused : ({ q with uLk_ := some t }.goto t .deqHead).usedHead = q.usedHead := by
    simp [State.usedHead, hlk, Pc.newUHead]
  have hread : ({ q with uLk_ := some t }.goto t .deqHead).beingRead = q.beingRead := by
    simp [State.beingRead, hlk, Pc.reading]
  have hnot : ∀ u, (q.pc u).inUsed = false := fun u => by
    cases hu : (q.pc u).inUsed with
    | false => rfl
    | true => simpa [hlk] using (h.locks.uLk u).mp hu
  refine ⟨?_, ⟨?_, ?_, ?_⟩, ?_⟩
  · refine h.shape.of_private rfl hused (spareHead_goto rfl rfl rfl (by rw [hpc]; rfl)) rfl rfl
      (fun _ _ _ => rfl) le_rfl (by rw [hpc]; rfl) (by rw [hpc]; rfl) (fun n hn => ?_)
    simp [Pc.owned] at hn
  · intro u
    by_cases hut : u = t
    · subst u
      simp [Pc.inUsed]
    · simp [Function.update_of_ne hut, hnot u, Ne.symm hut]
  · intro u
    rw [State.goto_pc, update_keep Pc.inSpare (by rw [hpc]; rfl)]
    exact h.locks.sLk u
  · intro u
    by_cases hut : u = t
    · subst u
      simp [Pc.Ok]
    · rw [State.goto_pc, Function.update_of_ne hut]
      exact h.others (Or.inl rfl) (Or.inl rfl) (fun _ _ _ _ _ => ⟨rfl, rfl⟩) u hut
  · exact h.ledger.keep rfl hread rfl (by rw [hpc]; rfl) (by rw [hpc]; rfl)

/-- Releasing {lit}`uLk_`, from either of the two ends of its section. -/
theorem Inv.deqRelease {p : Pc T} (h : Inv q es ur sr) (hin : (q.pc t).inUsed = true)
    (hp : p.inUsed = false) (hsec : p.inSpare = (q.pc t).inSpare)
    (hhead : (q.pc t).newUHead = none) (hread : (q.pc t).reading = none)
    (hhead' : p.newSHead = (q.pc t).newSHead)
    (hown : ∀ n, p.owned = some n → (q.pc t).owned = some n)
    (hu : p.uLink = (q.pc t).uLink) (hs : p.sLink = (q.pc t).sLink)
    (hinput : p.input = (q.pc t).input) (houtput : p.output = (q.pc t).output)
    (hok : p.Ok q) :
    Inv ({ q with uLk_ := none }.goto t p) es ur sr := by
  have hlk : q.uLk_ = some t := (h.locks.uLk t).mp hin
  have hused : ({ q with uLk_ := none }.goto t p).usedHead = q.usedHead := by
    rw [usedHead_of_holder hlk, hhead]
    rfl
  have hread' : ({ q with uLk_ := none }.goto t p).beingRead = q.beingRead := by
    rw [beingRead_of_holder hlk, hread]
    rfl
  refine ⟨?_, ⟨?_, ?_, ?_⟩, ?_⟩
  · exact h.shape.of_private rfl hused (spareHead_goto rfl rfl rfl hhead') rfl rfl
      (fun _ _ _ => rfl) le_rfl hu hs (fun n hn => Or.inl (hown n hn))
  · intro u
    by_cases hut : u = t
    · subst u
      simp [hp]
    · have hu := h.locks.uLk u
      rw [hlk] at hu
      simp [Function.update_of_ne hut, hu, Ne.symm hut]
  · intro u
    rw [State.goto_pc, update_keep Pc.inSpare hsec]
    exact h.locks.sLk u
  · intro u
    by_cases hut : u = t
    · subst u
      rw [State.goto_pc, Function.update_self]
      exact hok.frame (fun _ => rfl) (fun _ => rfl) fun _ _ => ⟨rfl, rfl⟩
    · rw [State.goto_pc, Function.update_of_ne hut]
      exact h.others (Or.inl rfl) (Or.inl rfl) (fun _ _ _ _ _ => ⟨rfl, rfl⟩) u hut
  · exact h.ledger.keep rfl hread' rfl hinput houtput

end MpmcQueue
end CoEpoll
