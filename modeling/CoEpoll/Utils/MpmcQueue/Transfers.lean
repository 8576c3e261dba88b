import CoEpoll.Utils.MpmcQueue.Steps

/-!
# `MpmcQueue`: nodes that change hands

A node leaves a chain at its head, under the chain's lock, and enters the other
chain at its tail, by an exchange that owes one link.  These are the actions
that change the two chains.

The store {lit}`sTail_ = nexts` of an {lit}`enqueue` is the one transfer that is not
safe by itself: theorem {lit}`Inv.enqStoreTail` needs {lit}`sTail_` to be still the node
{lit}`pres` that the comparison saw.
-/

namespace CoEpoll
namespace MpmcQueue

open Transition

variable {τ T : Type*} [DecidableEq τ] {q : State τ T} {es : List (Event T)}
  {ur sr : List NodePtr} {t : τ}

/-! ## Leaving the spare chain -/

/-- The first spare node passes to the thread; the rest of the spare chain is
{lit}`head :: sr'`. -/
theorem Shape.of_takeSpare {q' : State τ T} {p : Pc T} {sr' : List NodePtr}
    (h : Shape q ur sr) (hpc : q'.pc = Function.update q.pc t p)
    (huH : q'.usedHead = q.usedHead) (huT : q'.uTail_ = q.uTail_)
    (hnext : q'.next_ = q.next_) (hall : q'.allocated = q.allocated)
    (hspare : LinkedChain q.next_ (fun u => (q.pc u).sLink) (q'.spareHead :: sr'))
    (hsT : (q'.spareHead :: sr').getLast? = some q'.sTail_)
    (hmem : ∀ n ∈ q'.spareHead :: sr', n ≠ q.spareHead ∧
      (n ∈ q.spareHead :: sr ∨ (q.pc t).owned = some n))
    (hu : p.uLink = (q.pc t).uLink) (hs : p.sLink = (q.pc t).sLink)
    (hown : p.owned = some q.spareHead) : Shape q' ur sr' := by
  have huL : (fun u => (q'.pc u).uLink) = fun u => (q.pc u).uLink := by
    funext u
    rw [hpc, update_keep Pc.uLink hu]
  have hsL : (fun u => (q'.pc u).sLink) = fun u => (q.pc u).sLink := by
    funext u
    rw [hpc, update_keep Pc.sLink hs]
  have hcustody : Custody (q'.usedHead :: ur) (q'.spareHead :: sr')
      (fun u => (q'.pc u).owned) (· < q'.allocated) := by
    rw [huH, hall, hpc, proj_update Pc.owned, hown]
    exact (h.custody.swap.take List.mem_cons_self hmem).swap
  refine ⟨?_, ?_, ?_, hsT, hcustody.apart, hcustody.bound, hcustody.owned, hcustody.alone⟩
  · rw [huH, huL, hnext]
    exact h.used
  · rw [hsL, hnext]
    exact hspare
  · rw [huH, huT]
    exact h.uTail

/-- {lit}`enqueue` finds a successor of the first spare node. -/
theorem Inv.enqNext_some {v : T} {pres nexts : NodePtr} (h : Inv q es ur sr)
    (hpc : q.pc t = .enqNext v pres) (hnext : q.next_ pres = some nexts) :
    ∃ sr', Inv (q.goto t (.enqStoreHead v pres nexts)) es ur sr' := by
  have hlk : q.sLk_ = some t := (h.locks.sLk t).mp (by rw [hpc]; rfl)
  have hpres : pres = q.sHead_ := by
    have hok := h.locks.ok t
    rwa [hpc] at hok
  have hhead : q.spareHead = pres := by
    rw [spareHead_of_holder hlk, hpc, hpres]
    rfl
  have hspare := h.shape.spare
  have htail := h.shape.sTail
  cases hsr : sr with
  | nil =>
      rw [hsr, hhead] at hspare
      have := hspare.last pres (by simp)
      simp [hnext] at this
  | cons b sr' =>
      rw [hsr, hhead] at hspare htail
      have hb : nexts = b := hspare.next_eq hnext
      have hhead' : (q.goto t (.enqStoreHead v pres nexts)).spareHead = b := by
        rw [spareHead_of_holder (t := t) (by simpa using hlk)]
        simp [Pc.newSHead, hb]
      refine ⟨sr', ?_, ?_, ?_⟩
      · refine h.shape.of_takeSpare rfl (usedHead_goto rfl rfl rfl (by rw [hpc]; rfl)) rfl rfl rfl
          ?_ ?_ ?_ (by rw [hpc]; rfl) (by rw [hpc]; rfl) (by rw [hhead]; rfl)
        · rw [hhead']
          exact hspare.tail (by simp [hnext])
        · rw [hhead']
          simpa [List.getLast?_cons_cons] using htail
        · rw [hhead', hhead, hsr]
          intro n hn
          refine ⟨?_, Or.inl (List.mem_cons_of_mem _ hn)⟩
          rintro rfl
          exact (List.nodup_cons.mp hspare.nodup).1 hn
      · exact h.locks.keep rfl rfl rfl (by rw [hpc]; rfl) (by rw [hpc]; rfl) trivial
          (h.others (Or.inl rfl) (Or.inl rfl) fun _ _ _ _ _ => ⟨rfl, rfl⟩)
      · exact h.ledger.keep rfl (beingRead_goto rfl rfl (by rw [hpc]; rfl) fun _ _ _ _ => rfl) rfl
          (by rw [hpc]; rfl) (by rw [hpc]; rfl)

/-- {lit}`sTail_ = nexts` while {lit}`sTail_` is still the compared node: the fresh node
becomes the whole spare chain. -/
theorem Inv.enqStoreTail {v : T} {pres nexts : NodePtr} (h : Inv q es ur sr)
    (hpc : q.pc t = .enqStoreTail v pres nexts) (htail : q.sTail_ = pres) :
    Inv ({ q with sTail_ := nexts }.goto t (.enqStoreHead v pres nexts)) es ur [] := by
  have hlk : q.sLk_ = some t := (h.locks.sLk t).mp (by rw [hpc]; rfl)
  have hok := h.locks.ok t
  rw [hpc] at hok
  have hhead : q.spareHead = pres := by
    rw [spareHead_of_holder hlk, hpc, hok.1]
    rfl
  have hown : (q.pc t).owned = some nexts := by
    rw [hpc]
    rfl
  -- the compared node is first and last, so the spare chain has no other node
  have hlast := h.shape.sTail
  have hspare := h.shape.spare
  rw [htail, hhead] at hlast
  rw [hhead] at hspare
  have hlink : ∀ u, (q.pc u).sLink = none := by
    cases hsr : sr with
    | nil =>
        rw [hsr] at hspare
        exact fun u => hspare.link_eq_none u
    | cons b sr' =>
        rw [hsr] at hspare hlast
        exact (pair_infix_ne_last hspare.nodup ⟨[], sr', rfl⟩ hlast).elim
  have hhead' : ({ q with sTail_ := nexts }.goto t (.enqStoreHead v pres nexts)).spareHead
      = nexts := by
    rw [spareHead_of_holder (t := t) (by simpa using hlk)]
    simp [Pc.newSHead]
  refine ⟨?_, ?_, ?_⟩
  · refine h.shape.of_takeSpare rfl (usedHead_goto rfl rfl rfl (by rw [hpc]; rfl)) rfl rfl rfl
      ?_ ?_ ?_ (by rw [hpc]; rfl) (by rw [hpc]; rfl) (by rw [hhead]; rfl)
    · rw [hhead']
      exact LinkedChain.singleton hok.2 hlink
    · simp [hhead']
    · rw [hhead']
      intro n hn
      have hn' : n = nexts := by simpa using hn
      subst n
      refine ⟨?_, Or.inr hown⟩
      intro hne
      exact (h.shape.owned t nexts hown).2.2 (hne ▸ List.mem_cons_self)
  · exact h.locks.keep rfl rfl rfl (by rw [hpc]; rfl) (by rw [hpc]; rfl) trivial
      (h.others (Or.inl rfl) (Or.inl rfl) fun _ _ _ _ _ => ⟨rfl, rfl⟩)
  · exact h.ledger.keep rfl (beingRead_goto rfl rfl (by rw [hpc]; rfl) fun _ _ _ _ => rfl) rfl
      (by rw [hpc]; rfl) (by rw [hpc]; rfl)

/-- {lit}`sHead_ = nexts`. -/
theorem Inv.enqStoreHead {v : T} {pres nexts : NodePtr} (h : Inv q es ur sr)
    (hpc : q.pc t = .enqStoreHead v pres nexts) :
    Inv ({ q with sHead_ := nexts }.goto t (.enqUnlock v pres)) es ur sr := by
  have hlk : q.sLk_ = some t := (h.locks.sLk t).mp (by rw [hpc]; rfl)
  have hspare : ({ q with sHead_ := nexts }.goto t (.enqUnlock v pres)).spareHead
      = q.spareHead := by
    rw [spareHead_of_holder hlk, hpc, spareHead_of_holder (t := t) (by simpa using hlk)]
    simp [Pc.newSHead]
  refine ⟨?_, ?_, ?_⟩
  · refine h.shape.of_private rfl (usedHead_goto rfl rfl rfl (by rw [hpc]; rfl)) hspare rfl rfl
      (fun _ _ _ => rfl) le_rfl (by rw [hpc]; rfl) (by rw [hpc]; rfl) (fun n hn => Or.inl ?_)
    rw [hpc]
    exact hn
  · exact h.locks.keep rfl rfl rfl (by rw [hpc]; rfl) (by rw [hpc]; rfl) trivial
      (h.others (Or.inl rfl) (Or.inr (by rw [hpc]; rfl)) fun _ _ _ _ _ => ⟨rfl, rfl⟩)
  · exact h.ledger.keep rfl (beingRead_goto rfl rfl (by rw [hpc]; rfl) fun _ _ _ _ => rfl) rfl
      (by rw [hpc]; rfl) (by rw [hpc]; rfl)

/-! ## Leaving the used chain -/

/-- The first used node passes to the thread; the rest of the used chain is
{lit}`b :: ur'`. -/
theorem Shape.of_takeUsed {q' : State τ T} {p : Pc T} {b : NodePtr} {ur' : List NodePtr}
    (h : Shape q (b :: ur') sr) (hpc : q'.pc = Function.update q.pc t p)
    (huH : q'.usedHead = b) (huT : q'.uTail_ = q.uTail_)
    (hsH : q'.spareHead = q.spareHead) (hsT : q'.sTail_ = q.sTail_)
    (hnext : q'.next_ = q.next_) (hall : q'.allocated = q.allocated)
    (hstored : q.next_ q.usedHead ≠ none)
    (hu : p.uLink = (q.pc t).uLink) (hs : p.sLink = (q.pc t).sLink)
    (hown : p.owned = some q.usedHead) : Shape q' ur' sr := by
  have huL : (fun u => (q'.pc u).uLink) = fun u => (q.pc u).uLink := by
    funext u
    rw [hpc, update_keep Pc.uLink hu]
  have hsL : (fun u => (q'.pc u).sLink) = fun u => (q.pc u).sLink := by
    funext u
    rw [hpc, update_keep Pc.sLink hs]
  have hcustody : Custody (q'.usedHead :: ur') (q'.spareHead :: sr)
      (fun u => (q'.pc u).owned) (· < q'.allocated) := by
    rw [huH, hsH, hall, hpc, proj_update Pc.owned, hown]
    refine h.custody.take List.mem_cons_self fun n hn => ⟨?_, Or.inl (List.mem_cons_of_mem _ hn)⟩
    rintro rfl
    exact (List.nodup_cons.mp h.used.nodup).1 hn
  refine ⟨?_, ?_, ?_, ?_, hcustody.apart, hcustody.bound, hcustody.owned, hcustody.alone⟩
  · rw [huH, huL, hnext]
    exact h.used.tail hstored
  · rw [hsH, hsL, hnext]
    exact h.spare
  · rw [huH, huT]
    simpa [List.getLast?_cons_cons] using h.uTail
  · rw [hsH, hsT]
    exact h.sTail

/-- {lit}`dequeue` finds a successor of the first used node. -/
theorem Inv.deqNext_some {preu nextu : NodePtr} (h : Inv q es ur sr)
    (hpc : q.pc t = .deqNext preu) (hnext : q.next_ preu = some nextu) :
    ∃ ur', Inv (q.goto t (.deqStoreHead preu nextu)) es ur' sr := by
  have hlk : q.uLk_ = some t := (h.locks.uLk t).mp (by rw [hpc]; rfl)
  have hpreu : preu = q.uHead_ := by
    have hok := h.locks.ok t
    rwa [hpc] at hok
  have hhead : q.usedHead = preu := by
    rw [usedHead_of_holder hlk, hpc, hpreu]
    rfl
  cases ur with
  | nil =>
      have := h.shape.used.last q.usedHead (by simp)
      simp [hhead, hnext] at this
  | cons b ur' =>
      have hb : nextu = b := h.shape.used.next_eq (hhead ▸ hnext)
      subst b
      have hhead' : (q.goto t (.deqStoreHead preu nextu)).usedHead = nextu := by
        rw [usedHead_of_holder (t := t) (by simpa using hlk)]
        simp [Pc.newUHead]
      refine ⟨ur', ?_, ?_, ?_, ?_, ?_⟩
      · exact h.shape.of_takeUsed rfl hhead' rfl (spareHead_goto rfl rfl rfl (by rw [hpc]; rfl))
          rfl rfl rfl (by simp [hhead, hnext]) (by rw [hpc]; rfl) (by rw [hpc]; rfl)
          (by rw [hhead]; rfl)
      · exact h.locks.keep rfl rfl rfl (by rw [hpc]; rfl) (by rw [hpc]; rfl) trivial
          (h.others (Or.inl rfl) (Or.inl rfl) fun _ _ _ _ _ => ⟨rfl, rfl⟩)
      · -- the value of the new first node is now the one being read
        have hold : q.beingRead = [] := by
          rw [beingRead_of_holder hlk, hpc]
          rfl
        have hnew : (q.goto t (.deqStoreHead preu nextu)).beingRead = [q.data nextu] := by
          rw [beingRead_of_holder (t := t) (by simpa using hlk)]
          simp [Pc.reading]
        rw [h.ledger.values, hold, hnew]
        simp
      · rcases h.ledger.inputs with ⟨m, hm, hes⟩
        refine ⟨m, ?_, hes⟩
        simp only [State.goto_pc, proj_update Pc.input]
        exact hm.keep (by rw [hpc]; rfl)
      · rcases h.ledger.outputs with ⟨m, hm, hes⟩
        refine ⟨m, ?_, hes⟩
        simp only [State.goto_pc, proj_update Pc.output]
        exact hm.keep (by rw [hpc]; rfl)

/-- {lit}`uHead_ = nextu`. -/
theorem Inv.deqStoreHead {preu nextu : NodePtr} (h : Inv q es ur sr)
    (hpc : q.pc t = .deqStoreHead preu nextu) :
    Inv ({ q with uHead_ := nextu }.goto t (.deqData preu nextu)) es ur sr := by
  have hlk : q.uLk_ = some t := (h.locks.uLk t).mp (by rw [hpc]; rfl)
  have hused : ({ q with uHead_ := nextu }.goto t (.deqData preu nextu)).usedHead
      = q.usedHead := by
    rw [usedHead_of_holder hlk, hpc, usedHead_of_holder (t := t) (by simpa using hlk)]
    simp [Pc.newUHead]
  refine ⟨?_, ?_, ?_⟩
  · refine h.shape.of_private rfl hused (spareHead_goto rfl rfl rfl (by rw [hpc]; rfl)) rfl rfl
      (fun _ _ _ => rfl) le_rfl (by rw [hpc]; rfl) (by rw [hpc]; rfl) (fun n hn => Or.inl ?_)
    rw [hpc]
    exact hn
  · exact h.locks.keep rfl rfl rfl (by rw [hpc]; rfl) (by rw [hpc]; rfl) rfl
      (h.others (Or.inr (by rw [hpc]; rfl)) (Or.inl rfl) fun _ _ _ _ _ => ⟨rfl, rfl⟩)
  · exact h.ledger.keep rfl (beingRead_goto rfl rfl (by rw [hpc]; rfl) fun _ _ _ _ => rfl) rfl
      (by rw [hpc]; rfl) (by rw [hpc]; rfl)

/-- {lit}`output = std::move(nextu->data)`: the value leaves the queue. -/
theorem Inv.deqData {preu nextu : NodePtr} (moved : T → T) (h : Inv q es ur sr)
    (hpc : q.pc t = .deqData preu nextu) :
    Inv ({ q with data := Function.update q.data nextu (moved (q.data nextu)) }.goto t
      (.deqUnlock preu (q.data nextu))) (es ++ [.taken (q.data nextu)]) ur sr := by
  have hlk : q.uLk_ = some t := (h.locks.uLk t).mp (by rw [hpc]; rfl)
  have hhead : nextu = q.usedHead := h.reading_eq hlk (by rw [hpc]; rfl)
  have hnot : nextu ∉ ur := hhead ▸ (List.nodup_cons.mp h.shape.used.nodup).1
  refine ⟨?_, ?_, ?_, ?_, ?_⟩
  · refine h.shape.of_private rfl (usedHead_goto rfl rfl rfl (by rw [hpc]; rfl))
      (spareHead_goto rfl rfl rfl (by rw [hpc]; rfl)) rfl rfl (fun _ _ _ => rfl) le_rfl
      (by rw [hpc]; rfl) (by rw [hpc]; rfl) (fun n hn => Or.inl ?_)
    rw [hpc]
    exact hn
  · refine h.locks.keep rfl rfl rfl (by rw [hpc]; rfl) (by rw [hpc]; rfl) trivial
      (h.others (Or.inl rfl) (Or.inl rfl) fun n _ hnu _ _ => ⟨rfl, ?_⟩)
    have hne : n ≠ nextu := by
      rintro rfl
      exact hnu (hhead ▸ List.mem_cons_self)
    simp [Function.update_of_ne hne]
  · have hold : q.beingRead = [q.data nextu] := by
      rw [beingRead_of_holder hlk, hpc]
      simp [Pc.reading]
    have hdata : ur.map (Function.update q.data nextu (moved (q.data nextu))) =
        ur.map q.data :=
      List.map_congr_left fun n hn =>
        Function.update_of_ne (fun hne : n = nextu => hnot (hne ▸ hn)) _ _
    have hvals := h.ledger.values
    rw [hold] at hvals
    rw [beingRead_of_holder (t := t) (by simpa using hlk)]
    simpa [exchangedValues, takenValues, Pc.reading, hdata] using hvals
  · rcases h.ledger.inputs with ⟨m, hm, hes⟩
    refine ⟨m, ?_, by simpa [calledValues, exchangedValues] using hes⟩
    simp only [State.goto_pc, proj_update Pc.input]
    exact hm.keep (by rw [hpc]; rfl)
  · rcases h.ledger.outputs with ⟨m, hm, hes⟩
    refine ⟨{q.data nextu} + m, ?_, ?_⟩
    · simp only [State.goto_pc, proj_update Pc.output]
      exact hm.add (by rw [hpc]; rfl) (q.data nextu)
    · have ht : takenValues (es ++ [.taken (q.data nextu)]) =
          takenValues es ++ [q.data nextu] := by
        simp [takenValues]
      have hr : returnedValues (es ++ [.taken (q.data nextu)]) = returnedValues es := by
        simp [returnedValues]
      rw [ht, hr, ← Multiset.coe_add, hes, Multiset.coe_singleton, add_assoc, add_comm m]

/-! ## Entering a chain by an exchange -/

/-- {lit}`uTail_.exchange(pres)`: the thread's node becomes the last used node, and the
thread owes the link to it. -/
theorem Inv.enqExch {v : T} {pres : NodePtr} (h : Inv q es ur sr)
    (hpc : q.pc t = .enqExch v pres) :
    Inv ({ q with uTail_ := pres }.goto t (.enqLink q.uTail_ pres)) (es ++ [.exchanged v])
      (ur ++ [pres]) sr := by
  have hok := h.locks.ok t
  rw [hpc] at hok
  rcases hok with ⟨hdata, hnull⟩
  have hnu : pres ∉ q.usedHead :: ur := (h.shape.owned t pres (by rw [hpc]; rfl)).2.1
  have hused : ({ q with uTail_ := pres }.goto t (.enqLink q.uTail_ pres)).usedHead
      = q.usedHead := usedHead_goto rfl rfl rfl (by rw [hpc]; rfl)
  have hspare : ({ q with uTail_ := pres }.goto t (.enqLink q.uTail_ pres)).spareHead
      = q.spareHead := spareHead_goto rfl rfl rfl (by rw [hpc]; rfl)
  have hread : ({ q with uTail_ := pres }.goto t (.enqLink q.uTail_ pres)).beingRead
      = q.beingRead := beingRead_goto rfl rfl (by rw [hpc]; rfl) fun _ _ _ _ => rfl
  have hcustody : Custody (q.usedHead :: (ur ++ [pres])) (q.spareHead :: sr)
      (fun u => (Function.update q.pc t (.enqLink q.uTail_ pres) u).owned) (· < q.allocated) := by
    rw [proj_update Pc.owned]
    exact h.shape.custody.give (by rw [hpc]; rfl)
  rw [← hused, ← hspare] at hcustody
  refine ⟨⟨?_, ?_, ?_, ?_, hcustody.apart, hcustody.bound, hcustody.owned, hcustody.alone⟩,
    ?_, ?_, ?_, ?_⟩
  · rw [hused, State.goto_pc, proj_update Pc.uLink]
    exact h.shape.used.concat hnu hnull h.shape.uTail (by rw [hpc]; rfl)
  · have hsL : (fun u => (Function.update q.pc t (.enqLink q.uTail_ pres) u).sLink) =
        fun u => (q.pc u).sLink := by
      funext u
      exact update_keep Pc.sLink (by rw [hpc]; rfl) u
    rw [hspare, State.goto_pc, hsL]
    exact h.shape.spare
  · rw [← List.cons_append, List.getLast?_concat]
    rfl
  · rw [hspare]
    exact h.shape.sTail
  · exact h.locks.keep rfl rfl rfl (by rw [hpc]; rfl) (by rw [hpc]; rfl) trivial
      (h.others (Or.inl rfl) (Or.inl rfl) fun _ _ _ _ _ => ⟨rfl, rfl⟩)
  · have hvals := h.ledger.values
    rw [hread]
    simp only [exchangedValues, takenValues] at hvals ⊢
    simp [hvals, hdata]
  · rcases h.ledger.inputs with ⟨m, hm, hes⟩
    rcases hm.remove (t := t) (v := v) (by rw [hpc]; rfl) with ⟨r, hr, htally⟩
    refine ⟨r, ?_, ?_⟩
    · rw [State.goto_pc, proj_update Pc.input]
      exact htally
    · have hc : calledValues (es ++ [.exchanged v]) = calledValues es := by
        simp [calledValues]
      have he : exchangedValues (es ++ [.exchanged v]) = exchangedValues es ++ [v] := by
        simp [exchangedValues]
      rw [hc, he, hes, hr, ← Multiset.coe_add, Multiset.coe_singleton, add_assoc]
  · rcases h.ledger.outputs with ⟨m, hm, hes⟩
    refine ⟨m, ?_, by simpa [takenValues, returnedValues] using hes⟩
    rw [State.goto_pc, proj_update Pc.output]
    exact hm.keep (by rw [hpc]; rfl)

/-- {lit}`sTail_.exchange(preu)`: the thread's node becomes the last spare node, and the
thread owes the link to it. -/
theorem Inv.deqExch {out : T} {preu : NodePtr} (h : Inv q es ur sr)
    (hpc : q.pc t = .deqExch preu out) :
    Inv ({ q with sTail_ := preu }.goto t (.deqLink preu q.sTail_ out)) es ur
      (sr ++ [preu]) := by
  have hnull := h.locks.ok t
  rw [hpc] at hnull
  have hns : preu ∉ q.spareHead :: sr := (h.shape.owned t preu (by rw [hpc]; rfl)).2.2
  have hused : ({ q with sTail_ := preu }.goto t (.deqLink preu q.sTail_ out)).usedHead
      = q.usedHead := usedHead_goto rfl rfl rfl (by rw [hpc]; rfl)
  have hspare : ({ q with sTail_ := preu }.goto t (.deqLink preu q.sTail_ out)).spareHead
      = q.spareHead := spareHead_goto rfl rfl rfl (by rw [hpc]; rfl)
  have hcustody : Custody (q.usedHead :: ur) (q.spareHead :: (sr ++ [preu]))
      (fun u => (Function.update q.pc t (.deqLink preu q.sTail_ out) u).owned)
      (· < q.allocated) := by
    rw [proj_update Pc.owned]
    exact (h.shape.custody.swap.give (by rw [hpc]; rfl)).swap
  rw [← hused, ← hspare] at hcustody
  refine ⟨⟨?_, ?_, ?_, ?_, hcustody.apart, hcustody.bound, hcustody.owned, hcustody.alone⟩, ?_, ?_⟩
  · have huL : (fun u => (Function.update q.pc t (.deqLink preu q.sTail_ out) u).uLink) =
        fun u => (q.pc u).uLink := by
      funext u
      exact update_keep Pc.uLink (by rw [hpc]; rfl) u
    rw [hused, State.goto_pc, huL]
    exact h.shape.used
  · rw [hspare, State.goto_pc, proj_update Pc.sLink]
    exact h.shape.spare.concat hns hnull h.shape.sTail (by rw [hpc]; rfl)
  · rw [hused]
    exact h.shape.uTail
  · rw [← List.cons_append, List.getLast?_concat]
    rfl
  · exact h.locks.keep rfl rfl rfl (by rw [hpc]; rfl) (by rw [hpc]; rfl) trivial
      (h.others (Or.inl rfl) (Or.inl rfl) fun _ _ _ _ _ => ⟨rfl, rfl⟩)
  · exact h.ledger.keep rfl (beingRead_goto rfl rfl (by rw [hpc]; rfl) fun _ _ _ _ => rfl) rfl
      (by rw [hpc]; rfl) (by rw [hpc]; rfl)

/-! ## Storing an owed link -/

/-- A step that stores one next pointer of a chain node and pays the link owed
for it. -/
theorem Shape.of_store {q' : State τ T} {p : Pc T} {a b : NodePtr} (h : Shape q ur sr)
    (hpc : q'.pc = Function.update q.pc t p) (hnext : q'.next_ = Function.update q.next_ a (some b))
    (huH : q'.usedHead = q.usedHead) (hsH : q'.spareHead = q.spareHead)
    (huT : q'.uTail_ = q.uTail_) (hsT : q'.sTail_ = q.sTail_)
    (hall : q'.allocated = q.allocated) (hown : p.owned = none)
    (hu : p.uLink = none) (hs : p.sLink = none)
    (howes : ((q.pc t).uLink = some (a, b) ∧ (q.pc t).sLink = none) ∨
      ((q.pc t).sLink = some (a, b) ∧ (q.pc t).uLink = none)) : Shape q' ur sr := by
  have hframe : ∀ n, n ≠ a → Function.update q.next_ a (some b) n = q.next_ n := fun n hn =>
    Function.update_of_ne hn _ _
  have hcustody : Custody (q'.usedHead :: ur) (q'.spareHead :: sr)
      (fun u => (q'.pc u).owned) (· < q'.allocated) := by
    rw [huH, hsH, hall, hpc, proj_update Pc.owned, hown]
    exact h.custody.move (fun _ => id) nofun
  refine ⟨?_, ?_, ?_, ?_, hcustody.apart, hcustody.bound, hcustody.owned, hcustody.alone⟩
  · rw [huH, hpc, hnext, proj_update Pc.uLink, hu]
    rcases howes with ⟨howe, _⟩ | ⟨howe, hnone⟩
    · exact h.used.store howe
    · rw [← hnone, Function.update_eq_self]
      refine h.used.frame fun n hn => hframe n ?_
      rintro rfl
      exact h.apart n hn ((h.spare.owed t n b howe).1.subset (by simp))
  · rw [hsH, hpc, hnext, proj_update Pc.sLink, hs]
    rcases howes with ⟨howe, hnone⟩ | ⟨howe, _⟩
    · rw [← hnone, Function.update_eq_self]
      refine h.spare.frame fun n hn => hframe n ?_
      rintro rfl
      exact h.apart n ((h.used.owed t n b howe).1.subset (by simp)) hn
    · exact h.spare.store howe
  · rw [huH, huT]
    exact h.uTail
  · rw [hsH, hsT]
    exact h.sTail

/-- {lit}`preu->next_.store(pres)`: the {lit}`enqueue` is over. -/
theorem Inv.enqLink {preu pres : NodePtr} (h : Inv q es ur sr)
    (hpc : q.pc t = .enqLink preu pres) :
    Inv ({ q with next_ := Function.update q.next_ preu (some pres) }.goto t .idle) es ur sr := by
  have howe : (q.pc t).uLink = some (preu, pres) := by
    rw [hpc]
    rfl
  have hmem : preu ∈ q.usedHead :: ur := (h.shape.used.owed t preu pres howe).1.subset (by simp)
  refine ⟨?_, ?_, ?_⟩
  · exact h.shape.of_store rfl rfl (usedHead_goto rfl rfl rfl (by rw [hpc]; rfl))
      (spareHead_goto rfl rfl rfl (by rw [hpc]; rfl)) rfl rfl rfl rfl rfl rfl
      (Or.inl ⟨howe, by rw [hpc]; rfl⟩)
  · refine h.locks.keep rfl rfl rfl (by rw [hpc]; rfl) (by rw [hpc]; rfl) trivial
      (h.others (Or.inl rfl) (Or.inl rfl) fun n _ hnu _ _ => ⟨?_, rfl⟩)
    exact Function.update_of_ne (fun hne : n = preu => hnu (hne ▸ hmem)) _ _
  · exact h.ledger.keep rfl (beingRead_goto rfl rfl (by rw [hpc]; rfl) fun _ _ _ _ => rfl) rfl
      (by rw [hpc]; rfl) (by rw [hpc]; rfl)

/-- {lit}`pres->next_.store(preu)`: the {lit}`dequeue` returns its value. -/
theorem Inv.deqLink {preu pres : NodePtr} {out : T} (h : Inv q es ur sr)
    (hpc : q.pc t = .deqLink preu pres out) :
    Inv ({ q with next_ := Function.update q.next_ pres (some preu) }.goto t .idle)
      (es ++ [.returned out]) ur sr := by
  have howe : (q.pc t).sLink = some (pres, preu) := by
    rw [hpc]
    rfl
  have hmem : pres ∈ q.spareHead :: sr := (h.shape.spare.owed t pres preu howe).1.subset (by simp)
  have hread : ({ q with next_ := Function.update q.next_ pres (some preu) }.goto t .idle).beingRead
      = q.beingRead := beingRead_goto rfl rfl (by rw [hpc]; rfl) fun _ _ _ _ => rfl
  refine ⟨?_, ?_, ?_, ?_, ?_⟩
  · exact h.shape.of_store rfl rfl (usedHead_goto rfl rfl rfl (by rw [hpc]; rfl))
      (spareHead_goto rfl rfl rfl (by rw [hpc]; rfl)) rfl rfl rfl rfl rfl rfl
      (Or.inr ⟨howe, by rw [hpc]; rfl⟩)
  · refine h.locks.keep rfl rfl rfl (by rw [hpc]; rfl) (by rw [hpc]; rfl) trivial
      (h.others (Or.inl rfl) (Or.inl rfl) fun n _ _ hns _ => ⟨?_, rfl⟩)
    exact Function.update_of_ne (fun hne : n = pres => hns (hne ▸ hmem)) _ _
  · rw [hread]
    simpa [exchangedValues, takenValues] using h.ledger.values
  · rcases h.ledger.inputs with ⟨m, hm, hes⟩
    refine ⟨m, ?_, by simpa [calledValues, exchangedValues] using hes⟩
    rw [State.goto_pc, proj_update Pc.input]
    exact hm.keep (by rw [hpc]; rfl)
  · rcases h.ledger.outputs with ⟨m, hm, hes⟩
    rcases hm.remove (t := t) (v := out) (by rw [hpc]; rfl) with ⟨r, hr, htally⟩
    refine ⟨r, ?_, ?_⟩
    · rw [State.goto_pc, proj_update Pc.output]
      exact htally
    · have ht : takenValues (es ++ [.returned out]) = takenValues es := by
        simp [takenValues]
      have he : returnedValues (es ++ [.returned out]) = returnedValues es ++ [out] := by
        simp [returnedValues]
      rw [ht, he, hes, hr, ← Multiset.coe_add, Multiset.coe_singleton, add_assoc]

end MpmcQueue
end CoEpoll
