import CoEpoll.CoKernel.Irq.FileWQ
import CoEpoll.Transition.Machine

/-!
# `FileWQ::wakeup`: who is removed, and who is left

The generator goes through the list with one iterator, while {lit}`revents_` shrinks.  A callback may
return anything, and it changes its captured variables only.  The walk records where the waiters
stood in the list before it.

Main results:

- Theorem {lit}`Inv.remove`: the waiter at the iterator is the first of those that have not been passed,
  so the waiters are removed in list order.
- Theorem {lit}`wakeup_serves`: the handles yielded are those of the waiters removed, the others are left
  in their order, and no event is left for them.
-/

namespace CoEpoll
namespace Irq
namespace FileWQ

open Transition

/-- Where the generator is. -/
inductive WalkPc (γ : Type*) where
  /-- At the head of the loop. -/
  | loop
  /-- In {lit}`iter->cb_(fd_, events)`. -/
  | calling (events : Events) (cb : γ)
  /-- Suspended at {lit}`co_yield`. -/
  | suspended
  /-- Behind the loop. -/
  | ended
deriving DecidableEq

/-- A run of {lit}`wakeup`; {lit}`origin` and {lit}`removed` tell where the waiters in {lit}`items_`, and those that have been
erased, stood before it. -/
structure Walk (κ γ : Type*) where
  wq : FileWQ κ γ
  iter : Nat
  pc : WalkPc γ
  origin : List Nat
  removed : List Nat
  yielded : List κ

namespace Walk

variable {κ γ : Type*}

/-- At {lit}`items_.begin()`, behind the call of {lit}`fdCallbck_`. -/
def start (q : FileWQ κ γ) : Walk κ γ where
  wq := q
  iter := 0
  pc := .loop
  origin := List.range q.items_.length
  removed := []
  yielded := []

inductive Action (γ : Type*) where
  /-- The generator goes on. -/
  | go
  /-- The callback returns {lit}`r`, with its captured variables as in {lit}`cb`. -/
  | ret (r : IoRet) (cb : γ)

/-- The waiter at {lit}`iter` has been erased, which leaves {lit}`wq`; its handle is yielded. -/
def remove (s : Walk κ γ) (wq : FileWQ κ γ) : Walk κ γ where
  wq := wq
  iter := s.iter
  pc := match s.wq.handle s.iter with
    | [] => .loop
    | _ => .suspended
  origin := s.origin.eraseIdx s.iter
  removed := s.removed ++ s.origin[s.iter]?.toList
  yielded := s.yielded ++ s.wq.handle s.iter

/-- An iteration up to the call of a callback. -/
def iterate (s : Walk κ γ) : Walk κ γ :=
  match s.wq.turn s.iter with
  | .finish => { s with pc := .ended }
  | .call events cb => { s with pc := .calling events cb }
  | .erase => s.remove (s.wq.erase s.iter)
  | .next => { s with iter := s.iter + 1 }

/-- The rest of an iteration whose callback has returned. -/
def ret (s : Walk κ γ) (r : IoRet) (cb : γ) : Walk κ γ :=
  let wq := (s.wq.store s.iter cb).settle s.iter r
  if r.block then { s with wq := wq, pc := .loop } else s.remove wq

/-- One step. -/
def step (s : Walk κ γ) : Action γ → Option (Walk κ γ)
  | .go =>
      match s.pc with
      | .loop => some s.iterate
      | .suspended => some { s with pc := .loop }
      | _ => none
  | .ret r cb =>
      match s.pc with
      | .calling _ _ => some (s.ret r cb)
      | _ => none

/-- A run of {lit}`wakeup` over the waiters of {lit}`q`. -/
def machine (q : FileWQ κ γ) : Machine (Walk κ γ) (Action γ) where
  init s := s = start q
  step := step

/-! ## The invariant -/

/-- What a call of its callback does not change of a waiter. -/
def key (item : WaitItem κ γ) : Option κ × Events :=
  (item.h_, item.events_)

/-- What holds at each point of a run. -/
def PcOk (s : Walk κ γ) : Prop :=
  match s.pc with
  | .loop | .suspended => s.wq.Passed s.iter
  | .calling events cb => s.wq.Passed s.iter ∧ s.wq.turn s.iter = .call events cb
  | .ended => s.wq.Quiet

/-- The waiters are removed and left in the order of the list {lit}`q.items_`. -/
structure Inv (q : FileWQ κ γ) (s : Walk κ γ) : Prop where
  origin : s.origin.Pairwise (· < ·)
  removed : s.removed.Pairwise (· < ·)
  behind : ∀ k ∈ s.removed, ∀ k' ∈ s.origin.drop s.iter, k < k'
  all : (s.origin ++ s.removed).Perm (List.range q.items_.length)
  items : s.wq.items_.map (some ∘ key) = s.origin.map fun k => q.items_[k]?.map key
  yielded : s.yielded = s.removed.filterMap fun k => q.items_[k]?.bind WaitItem.h_
  within : Mask.Within s.wq.revents_ q.revents_
  pc : s.PcOk

variable {q : FileWQ κ γ} {s s' : Walk κ γ} {a : Action γ}

theorem inv_start (q : FileWQ κ γ) : Inv q (start q) where
  origin := List.pairwise_lt_range
  removed := List.Pairwise.nil
  behind _ h := absurd h List.not_mem_nil
  all := by
    rw [start, List.append_nil]
  items := by
    apply List.ext_getElem?
    intro i
    by_cases hi : i < q.items_.length
    · simp [start, hi]
    · simp [start, hi]
  yielded := rfl
  within := Mask.Within.refl _
  pc := passed_zero q

/-- Where the waiter at the iterator stood. -/
theorem Inv.origin_eq (h : Inv q s) {item : WaitItem κ γ} (hitem : s.wq.items_[s.iter]? = some item) :
    ∃ k, s.origin[s.iter]? = some k ∧
      s.origin = s.origin.take s.iter ++ k :: s.origin.drop (s.iter + 1) ∧
      q.items_[k]?.map key = some (key item) := by
  have hmap := congrArg (fun keys => keys[s.iter]?) h.items
  simp only [List.getElem?_map, hitem, Option.map_some, Function.comp_apply] at hmap
  rcases Option.map_eq_some_iff.mp hmap.symm with ⟨k, hk, hkey⟩
  refine ⟨k, hk, ?_, hkey⟩
  rcases List.getElem?_eq_some_iff.mp hk with ⟨hlt, rfl⟩
  rw [← List.drop_eq_getElem_cons hlt, List.take_append_drop]

/-- The handle that is yielded is that of the waiter in the list {lit}`q.items_`. -/
theorem bind_h_of_key {o : Option (WaitItem κ γ)} {item : WaitItem κ γ}
    (h : o.map key = some (key item)) : o.bind WaitItem.h_ = item.h_ := by
  rcases Option.map_eq_some_iff.mp h with ⟨old, hold, hkey⟩
  rw [hold, Option.bind_some]
  exact congrArg Prod.fst hkey

/-- The waiter at the iterator is removed: it is the first of those that have not been passed. -/
theorem Inv.remove (h : Inv q s) {item : WaitItem κ γ}
    (hitem : s.wq.items_[s.iter]? = some item) {wq : FileWQ κ γ}
    (hitems : wq.items_.map (some ∘ key) = (s.wq.items_.map (some ∘ key)).eraseIdx s.iter)
    (hwithin : Mask.Within wq.revents_ s.wq.revents_) (hpassed : wq.Passed s.iter) :
    Inv q (s.remove wq) := by
  rcases h.origin_eq hitem with ⟨k, hk, hsplit, hkey⟩
  have horigin : (s.remove wq).origin = s.origin.take s.iter ++ s.origin.drop (s.iter + 1) :=
    List.eraseIdx_eq_take_drop_succ _ _
  have hremoved : (s.remove wq).removed = s.removed ++ [k] := by
    rw [Walk.remove, hk, Option.toList_some]
  have hdrop : s.origin.drop s.iter = k :: s.origin.drop (s.iter + 1) := by
    rcases List.getElem?_eq_some_iff.mp hk with ⟨hlt, rfl⟩
    exact List.drop_eq_getElem_cons hlt
  have hafter : ∀ k' ∈ s.origin.drop (s.iter + 1), k < k' := by
    have hpair := h.origin.drop (i := s.iter)
    rw [hdrop] at hpair
    exact (List.pairwise_cons.mp hpair).1
  have hlen : (s.origin.take s.iter).length = s.iter := by
    rcases List.getElem?_eq_some_iff.mp hk with ⟨hlt, _⟩
    rw [List.length_take]
    omega
  constructor
  · rw [horigin, ← List.eraseIdx_eq_take_drop_succ]
    exact h.origin.sublist (List.eraseIdx_sublist _ _)
  · rw [hremoved, List.pairwise_append]
    refine ⟨h.removed, List.pairwise_singleton _ _, fun r hr k' hk' => ?_⟩
    rw [List.mem_singleton.mp hk']
    exact h.behind r hr k (hdrop ▸ List.mem_cons_self)
  · intro r hr k' hk'
    have hk' : k' ∈ s.origin.drop (s.iter + 1) := by
      rwa [horigin, Walk.remove, List.drop_left' hlen] at hk'
    rw [hremoved] at hr
    rcases List.mem_append.mp hr with hr | hr
    · exact h.behind r hr k' (hdrop ▸ List.mem_cons_of_mem _ hk')
    · rw [List.mem_singleton.mp hr]
      exact hafter k' hk'
  · refine List.Perm.trans ?_ h.all
    rw [horigin, hremoved]
    nth_rewrite 3 [hsplit]
    rw [List.append_assoc, List.append_assoc, List.cons_append]
    refine List.Perm.append_left _ ?_
    rw [← List.append_assoc]
    exact List.perm_append_singleton _ _
  · rw [horigin, ← List.eraseIdx_eq_take_drop_succ, ← List.eraseIdx_map, ← h.items]
    exact hitems
  · rw [hremoved, List.filterMap_append, ← h.yielded, Walk.remove, handle, hitem, Option.bind_some,
      ← bind_h_of_key hkey]
    cases hh : q.items_[k]?.bind WaitItem.h_ <;> simp [hh]
  · exact hwithin.trans h.within
  · unfold PcOk Walk.remove
    dsimp only
    cases s.wq.handle s.iter <;> exact hpassed

/-- An iteration up to the call of a callback. -/
theorem Inv.iterate (h : Inv q s) (hpc : s.pc = .loop) : Inv q s.iterate := by
  have hpassed : s.wq.Passed s.iter := by
    have hok := h.pc
    rwa [PcOk, hpc] at hok
  unfold Walk.iterate
  cases hturn : s.wq.turn s.iter with
  | finish => exact { h with pc := hpassed.quiet hturn }
  | call events cb => exact { h with pc := ⟨hpassed, hturn⟩ }
  | erase =>
      rcases turn_eq_erase hturn with ⟨item, hitem, _⟩
      exact h.remove hitem (List.eraseIdx_map _ _ _).symm (Mask.Within.refl _) hpassed.erase
  | next =>
      refine { h with behind := fun k hk k' hk' => ?_, pc := ?_ }
      · rw [← List.tail_drop] at hk'
        exact h.behind k hk k' (List.mem_of_mem_tail hk')
      · rw [PcOk, hpc]
        exact hpassed.next hturn

/-- A call of a callback changes no handle and no mask. -/
theorem map_key_store {wq : FileWQ κ γ} {iter : Nat} {item : WaitItem κ γ}
    (hitem : wq.items_[iter]? = some item) (cb : γ) :
    (wq.store iter cb).items_.map (some ∘ key) = wq.items_.map (some ∘ key) := by
  rw [store_items_ hitem, List.map_append, List.map_cons]
  nth_rewrite 3 [items_eq hitem]
  rw [List.map_append, List.map_cons]
  rfl

/-- The rest of an iteration whose callback has returned. -/
theorem Inv.ret (h : Inv q s) {events : Events} {called : γ} (hpc : s.pc = .calling events called)
    (r : IoRet) (cb : γ) : Inv q (s.ret r cb) := by
  have hok := h.pc
  rw [PcOk, hpc] at hok
  rcases hok with ⟨hpassed, hturn⟩
  rcases turn_eq_call hturn with ⟨item, hitem, _⟩
  have hkeys := map_key_store hitem cb
  have hpassed := (hpassed.store cb).settle r
  have hwithin : Mask.Within ((s.wq.store s.iter cb).settle s.iter r).revents_ s.wq.revents_ := by
    rw [settle_revents_]
    split
    · exact within_exhaust _ _
    · exact Mask.Within.refl _
  unfold Walk.ret
  dsimp only
  split
  · rename_i hblock
    refine { h with items := ?_, within := hwithin.trans h.within, pc := hpassed }
    rw [settle_items_, if_pos hblock, hkeys]
    exact h.items
  · rename_i hblock
    apply h.remove hitem _ hwithin hpassed
    rw [settle_items_, if_neg hblock, ← hkeys]
    exact (List.eraseIdx_map _ _ _).symm

theorem Inv.step (h : Inv q s) (hstep : s.step a = some s') : Inv q s' := by
  unfold Walk.step at hstep
  cases a with
  | go =>
      cases hpc : s.pc with
      | loop =>
          rw [hpc] at hstep
          cases hstep
          exact h.iterate hpc
      | calling events cb => simp [hpc] at hstep
      | suspended =>
          rw [hpc] at hstep
          cases hstep
          have hok := h.pc
          rw [PcOk, hpc] at hok
          exact { h with pc := hok }
      | ended => simp [hpc] at hstep
  | ret r cb =>
      cases hpc : s.pc with
      | calling events called =>
          rw [hpc] at hstep
          cases hstep
          exact h.ret hpc r cb
      | loop => simp [hpc] at hstep
      | suspended => simp [hpc] at hstep
      | ended => simp [hpc] at hstep

theorem inductive_inv (q : FileWQ κ γ) : (machine q).Inductive (Inv q) where
  init := by
    rintro _ rfl
    exact inv_start q
  step _ _ _ h hstep := h.step hstep

/-! ## What a walk does as a whole -/

/-- The handles yielded are those of the waiters removed, in list order, the others are left in
their order, no event is new, and none that is left concerns one of them. -/
structure Complete (q : FileWQ κ γ) (s : Walk κ γ) : Prop where
  all : (s.origin ++ s.removed).Perm (List.range q.items_.length)
  removed : s.removed.Pairwise (· < ·)
  yielded : s.yielded = s.removed.filterMap fun k => q.items_[k]?.bind WaitItem.h_
  left : s.origin.Pairwise (· < ·)
  items : s.wq.items_.map (some ∘ key) = s.origin.map fun k => q.items_[k]?.map key
  within : Mask.Within s.wq.revents_ q.revents_
  quiet : ∀ item ∈ s.wq.items_, s.wq.revents_ &&& (item.events_ ||| EPOLLRDHUP) = 0

/-- No waiter before the one that is called waits for the same events. -/
def CallsFirst (s : Walk κ γ) : Prop :=
  ∃ item, s.wq.items_[s.iter]? = some item ∧
    ∀ earlier ∈ s.wq.items_.take s.iter, earlier.events_ ≠ item.events_

/-- However the callbacks answer, {lit}`wakeup` serves its waiters in order, and completely when it ends. -/
theorem wakeup_serves (q : FileWQ κ γ) (s : Walk κ γ) (hs : (machine q).Reachable s) :
    (∀ events cb, s.pc = .calling events cb → s.CallsFirst) ∧ (s.pc = .ended → Complete q s) := by
  have h := (inductive_inv q).reachable hs
  have hok := h.pc
  constructor
  · intro events cb hpc
    rw [PcOk, hpc] at hok
    rcases turn_eq_call hok.2 with ⟨item, hitem, _⟩
    exact ⟨item, hitem, fun earlier hmem =>
      hok.1.events_ne (called_of_turn hok.2) hitem hmem⟩
  · intro hpc
    rw [PcOk, hpc] at hok
    exact ⟨h.all, h.removed, h.yielded, h.origin, h.items, h.within, hok⟩

/-- Of four waiters the second has another mask, and the third uses up what is left of its own. -/
theorem wakeup_serves_four :
    ∃ s : Walk Nat Nat, s.yielded = [1] ∧ s.origin = [1, 2, 3] ∧ s.pc = .ended ∧
      ((∀ events cb, s.pc = .calling events cb → s.CallsFirst) ∧
        (s.pc = .ended → Complete ⟨EPOLLIN, true, false, [⟨some 1, some 0, EPOLLIN⟩,
          ⟨some 2, some 0, EPOLLOUT⟩, ⟨some 3, some 0, EPOLLIN⟩, ⟨none, none, EPOLLIN⟩]⟩ s)) := by
  generalize hq : (⟨EPOLLIN, true, false, [⟨some 1, some 0, EPOLLIN⟩, ⟨some 2, some 0, EPOLLOUT⟩,
    ⟨some 3, some 0, EPOLLIN⟩, ⟨none, none, EPOLLIN⟩]⟩ : FileWQ Nat Nat) = q
  have hrun : ((machine q).run (start q)
      [.go, .ret ⟨5, false, false⟩ 0, .go, .go, .go, .ret ⟨-1, true, true⟩ 1, .go]).map
        (fun s => (s.yielded, s.origin, s.pc)) = some ([1], [1, 2, 3], .ended) := by
    rw [← hq]
    decide +kernel
  rcases Option.map_eq_some_iff.mp hrun with ⟨s, hs, hvalues⟩
  rcases Prod.ext_iff.mp hvalues with ⟨hyielded, hrest⟩
  rcases Prod.ext_iff.mp hrest with ⟨horigin, hpc⟩
  exact ⟨s, hyielded, horigin, hpc, wakeup_serves q s ⟨_, _, rfl, hs⟩⟩

end Walk
end FileWQ
end Irq
end CoEpoll
