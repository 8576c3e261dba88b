import Mathlib.Data.List.Infix
import Mathlib.Data.List.Nodup
import Mathlib.Logic.Function.Basic

/-!
# Chains of nodes with links still to be stored

A concurrent linked list that appends by first exchanging its tail pointer and
then storing the predecessor's next pointer has, between the two, a link that
exists only in the appending party's program counter.  A chain is the list of
the nodes in the order of the exchanges; every neighbouring pair is either
linked in memory or owed by exactly one party.

Main results:

- Theorem {lit}`LinkedChain.concat`: an exchange appends a node and owes its link.
- Theorem {lit}`LinkedChain.store`: storing the owed link pays it.
- Theorem {lit}`LinkedChain.tail`: the first node can be taken once its link is stored.
- Theorem {lit}`ClosedChain.append`: with all links stored, an append is two stores.
- Theorem {lit}`LinkedChain.follow_eq`: without owed links the memory spells the chain.
-/

namespace Transition

variable {P τ : Type*}

/-! ## Neighbours in a list without repetitions -/

/-- A neighbouring pair of an extended list is an old pair or the new end. -/
theorem pair_infix_concat {l : List P} {a b x : P} (h : [a, b] <:+: l ++ [x]) :
    [a, b] <:+: l ∨ (l.getLast? = some a ∧ b = x) := by
  rcases h with ⟨p, s, hps⟩
  rcases List.eq_nil_or_concat s with rfl | ⟨s', y, rfl⟩
  · right
    have h2 : (p ++ [a]) ++ [b] = l ++ [x] := by simpa using hps
    rcases List.append_inj' h2 rfl with ⟨rfl, hb⟩
    exact ⟨by simp, by simpa using hb⟩
  · left
    have h2 : (p ++ [a, b] ++ s') ++ [y] = l ++ [x] := by simpa using hps
    rcases List.append_inj' h2 rfl with ⟨rfl, _⟩
    exact ⟨p, s', rfl⟩

/-- The last node of a list without repetitions has no successor. -/
theorem pair_infix_ne_last {l : List P} {a b : P} (hl : l.Nodup) (h : [a, b] <:+: l) :
    l.getLast? ≠ some a := by
  rcases h with ⟨p, s, rfl⟩
  intro hlast
  have hmem : a ∈ b :: s := by
    rw [List.append_assoc, List.getLast?_append] at hlast
    rcases hs : (b :: s).getLast? with _ | c
    · simp at hs
    · have hac : c = a := by
        simpa [List.getLast?_cons_cons, hs] using hlast
      exact hac ▸ List.mem_of_getLast? hs
  have hnd : (a :: b :: s).Nodup := by
    have := (List.nodup_append.mp (by simpa using hl)).2.1
    exact this
  exact (List.nodup_cons.mp hnd).1 hmem

/-- In a list without repetitions the successor of a node is unique. -/
theorem pair_infix_unique {l : List P} {a b c : P} (hl : l.Nodup) (hb : [a, b] <:+: l)
    (hc : [a, c] <:+: l) : b = c := by
  induction l with
  | nil => simp at hb
  | cons x l ih =>
      have hx := List.nodup_cons.mp hl
      rcases List.infix_cons_iff.mp hb with hb | hb <;>
        rcases List.infix_cons_iff.mp hc with hc | hc
      · rcases hb with ⟨s, hs⟩
        rcases hc with ⟨s', hs'⟩
        simp only [List.cons_append, List.nil_append, List.cons.injEq] at hs hs'
        have := hs.2.trans hs'.2.symm
        simpa using (List.cons.inj this).1
      · have hax : a = x := by
          rcases hb with ⟨s, hs⟩
          simpa using (List.cons.inj hs).1
        exact (hx.1 (hax ▸ hc.subset (by simp))).elim
      · have hax : a = x := by
          rcases hc with ⟨s, hs⟩
          simpa using (List.cons.inj hs).1
        exact (hx.1 (hax ▸ hb.subset (by simp))).elim
      · exact ih hx.2 hb hc

/-! ## Chains -/

/-- The nodes {lit}`l` in order; {lit}`link t = some (a, b)` means that party {lit}`t` has put
{lit}`b` behind {lit}`a` and still owes the store of {lit}`a`'s next pointer. -/
structure LinkedChain (next : P → Option P) (link : τ → Option (P × P))
    (l : List P) : Prop where
  nodup : l.Nodup
  linked : ∀ a b, [a, b] <:+: l → next a = some b ∨ ∃ t, link t = some (a, b)
  last : ∀ p, l.getLast? = some p → next p = none
  owed : ∀ t a b, link t = some (a, b) → [a, b] <:+: l ∧ next a = none
  unique : ∀ t t' a b b', link t = some (a, b) → link t' = some (a, b') → t = t'

namespace LinkedChain

variable {next next' : P → Option P} {link : τ → Option (P × P)} {l : List P} {t : τ}

/-- Only the next pointers of the chain's own nodes matter. -/
theorem frame (h : LinkedChain next link l) (hnext : ∀ p ∈ l, next' p = next p) :
    LinkedChain next' link l where
  nodup := h.nodup
  linked a b hab := by
    rw [hnext a (hab.subset (by simp))]
    exact h.linked a b hab
  last p hp := by
    rw [hnext p (List.mem_of_getLast? hp)]
    exact h.last p hp
  owed t a b ht := by
    rcases h.owed t a b ht with ⟨hab, hnone⟩
    exact ⟨hab, by rw [hnext a (hab.subset (by simp)), hnone]⟩
  unique := h.unique

/-- A single node with no next pointer, and nothing owed. -/
theorem singleton {p : P} (hp : next p = none) (hlink : ∀ t, link t = none) :
    LinkedChain next link [p] where
  nodup := List.nodup_singleton p
  linked a b hab := absurd hab.length_le (by simp)
  last q hq := by
    have hqp : p = q := by simpa using hq
    exact hqp ▸ hp
  owed t a b ht := by simp [hlink t] at ht
  unique t t' a b b' ht := by simp [hlink t] at ht

/-- A chain of one node owes nothing. -/
theorem link_eq_none {p : P} (h : LinkedChain next link [p]) (t : τ) : link t = none := by
  cases ht : link t with
  | none => rfl
  | some ab => exact absurd (h.owed t ab.1 ab.2 ht).1.length_le (by simp)

/-- The first node's stored successor is the second node. -/
theorem next_eq {a b c : P} (h : LinkedChain next link (a :: b :: l)) (hc : next a = some c) :
    c = b := by
  rcases h.linked a b ⟨[], l, rfl⟩ with hab | ⟨t, ht⟩
  · exact Option.some.inj (hc.symm.trans hab)
  · have := (h.owed t a b ht).2
    simp [this] at hc

/-- The first node can be taken once its link is stored. -/
theorem tail {a b : P} (h : LinkedChain next link (a :: b :: l)) (hab : next a ≠ none) :
    LinkedChain next link (b :: l) where
  nodup := (List.nodup_cons.mp h.nodup).2
  linked c d hcd := h.linked c d (List.infix_cons hcd)
  last p hp := h.last p (by simpa [List.getLast?_cons_cons] using hp)
  owed t c d ht := by
    rcases h.owed t c d ht with ⟨hcd, hnone⟩
    rcases List.infix_cons_iff.mp hcd with hpre | hcd
    · rcases hpre with ⟨s, hs⟩
      have hca : c = a := by simpa using (List.cons.inj hs).1
      exact (hab (hca ▸ hnone)).elim
    · exact ⟨hcd, hnone⟩
  unique := h.unique

variable [DecidableEq τ]

/-- Exchanging the tail pointer appends a node and owes the link to it. -/
theorem concat {a x : P} (h : LinkedChain next link l) (hx : x ∉ l) (hnext : next x = none)
    (ha : l.getLast? = some a) (ht : link t = none) :
    LinkedChain next (Function.update link t (some (a, x))) (l ++ [x]) where
  nodup := List.nodup_append.mpr ⟨h.nodup, List.nodup_singleton x, by
    intro p hp q hq
    rw [List.mem_singleton.mp hq]
    exact fun hpx => hx (hpx ▸ hp)⟩
  linked c d hcd := by
    rcases pair_infix_concat hcd with hcd | ⟨hc, rfl⟩
    · rcases h.linked c d hcd with hn | ⟨u, hu⟩
      · exact Or.inl hn
      · refine Or.inr ⟨u, ?_⟩
        rw [Function.update_of_ne (by rintro rfl; simp [ht] at hu)]
        exact hu
    · have hca : c = a := Option.some.inj (hc.symm.trans ha)
      exact Or.inr ⟨t, by rw [Function.update_self, hca]⟩
  last p hp := by
    have hpx : x = p := by simpa using hp
    exact hpx ▸ hnext
  owed u c d hu := by
    by_cases hut : u = t
    · subst u
      have hcd : (a, x) = (c, d) := by simpa using hu
      rcases Prod.mk.inj hcd with ⟨rfl, rfl⟩
      refine ⟨?_, h.last a ha⟩
      rcases List.eq_nil_or_concat l with rfl | ⟨l', y, rfl⟩
      · simp at ha
      · have hya : y = a := by simpa using ha
        exact ⟨l', [], by simp [hya]⟩
    · rw [Function.update_of_ne hut] at hu
      rcases h.owed u c d hu with ⟨hcd, hnone⟩
      exact ⟨hcd.trans (List.prefix_append l [x]).isInfix, hnone⟩
  unique u u' c d d' hu hu' := by
    have hnot : ∀ v e, link v ≠ some (a, e) := fun v e hv =>
      pair_infix_ne_last h.nodup (h.owed v a e hv).1 ha
    by_cases hut : u = t <;> by_cases hut' : u' = t
    · rw [hut, hut']
    · subst u
      have hac : (a, x) = (c, d) := by simpa using hu
      rw [Function.update_of_ne hut', ← (Prod.mk.inj hac).1] at hu'
      exact (hnot u' d' hu').elim
    · subst u'
      have hac : (a, x) = (c, d') := by simpa using hu'
      rw [Function.update_of_ne hut, ← (Prod.mk.inj hac).1] at hu
      exact (hnot u d hu).elim
    · rw [Function.update_of_ne hut] at hu
      rw [Function.update_of_ne hut'] at hu'
      exact h.unique u u' c d d' hu hu'

/-- Storing an owed link pays it. -/
theorem store [DecidableEq P] {a b : P} (h : LinkedChain next link l)
    (ht : link t = some (a, b)) :
    LinkedChain (Function.update next a (some b)) (Function.update link t none) l := by
  have hab := (h.owed t a b ht).1
  refine ⟨h.nodup, ?_, ?_, ?_, ?_⟩
  · intro c d hcd
    by_cases hca : c = a
    · subst c
      rw [Function.update_self, pair_infix_unique h.nodup hab hcd]
      exact Or.inl rfl
    · rw [Function.update_of_ne hca]
      rcases h.linked c d hcd with hn | ⟨u, hu⟩
      · exact Or.inl hn
      · refine Or.inr ⟨u, ?_⟩
        rw [Function.update_of_ne]
        · exact hu
        · rintro rfl
          exact hca (Prod.mk.inj (Option.some.inj (hu.symm.trans ht))).1
  · intro p hp
    have hpa : p ≠ a := by
      rintro rfl
      exact pair_infix_ne_last h.nodup hab hp
    rw [Function.update_of_ne hpa]
    exact h.last p hp
  · intro u c d hu
    have hut : u ≠ t := by
      rintro rfl
      simp at hu
    rw [Function.update_of_ne hut] at hu
    have hca : c ≠ a := by
      rintro rfl
      exact hut (h.unique u t c d b hu ht)
    rw [Function.update_of_ne hca]
    exact h.owed u c d hu
  · intro u u' c d d' hu hu'
    have hut : u ≠ t := by
      rintro rfl
      simp at hu
    have hut' : u' ≠ t := by
      rintro rfl
      simp at hu'
    rw [Function.update_of_ne hut] at hu
    rw [Function.update_of_ne hut'] at hu'
    exact h.unique u u' c d d' hu hu'

end LinkedChain

/-! ## Chains without debts -/

/-- A chain all of whose links are stored. -/
abbrev ClosedChain (next : P → Option P) (l : List P) : Prop :=
  LinkedChain next (fun _ : Unit => none) l

namespace ClosedChain

variable {next : P → Option P} {l : List P}

/-- The first node points to the second. -/
theorem next_head {p q : P} (h : ClosedChain next (p :: q :: l)) : next p = some q := by
  rcases h.linked p q ⟨[], l, rfl⟩ with hn | ⟨_, ht⟩
  · exact hn
  · cases ht

/-- A chain without its first node. -/
theorem rest {p q : P} (h : ClosedChain next (p :: q :: l)) : ClosedChain next (q :: l) :=
  h.tail (by simp [h.next_head])

/-- The next pointers spell the chain. -/
theorem isChain (h : ClosedChain next l) : l.IsChain fun p q => next p = some q := by
  induction l with
  | nil => exact .nil
  | cons p l ih =>
      cases l with
      | nil => exact .singleton p
      | cons q l => exact .cons_cons h.next_head (ih h.rest)

variable [DecidableEq P]

/-- Storing the last node's next pointer appends a node. -/
theorem append {a x : P} (h : ClosedChain next l) (hx : x ∉ l) (ha : l.getLast? = some a) :
    ClosedChain (Function.update (Function.update next x none) a (some x)) (l ++ [x]) := by
  have hcleared : ClosedChain (Function.update next x none) l := by
    apply h.frame
    intro p hp
    rw [Function.update_of_ne]
    rintro rfl
    exact hx hp
  have howed := hcleared.concat hx (Function.update_self x none next) ha (t := ()) rfl
  have hstored := howed.store (Function.update_self () _ _)
  rw [Function.update_idem, Function.update_eq_self] at hstored
  exact hstored

/-- Appending a node to one chain leaves a chain that it is not in as it is. -/
theorem append_other {a x : P} (h : ClosedChain next l) (hx : x ∉ l) (ha : a ∉ l) :
    ClosedChain (Function.update (Function.update next x none) a (some x)) l := by
  apply h.frame
  intro p hp
  rw [Function.update_of_ne, Function.update_of_ne]
  · rintro rfl
    exact hx hp
  · rintro rfl
    exact ha hp

end ClosedChain

/-! ## Reading a chain off the memory -/

/-- The nodes met after {lit}`p` when following next pointers up to {lit}`stop`. -/
def follow [DecidableEq P] (next : P → Option P) (stop : P) : Nat → P → List P
  | 0, _ => []
  | fuel + 1, p =>
      if p = stop then []
      else
        match next p with
        | none => []
        | some q => q :: follow next stop fuel q

/-- When no link is owed, following the next pointers spells the chain. -/
theorem LinkedChain.follow_eq [DecidableEq P] {next : P → Option P}
    {link : τ → Option (P × P)} {l : List P} {p stop : P} {fuel : Nat}
    (h : LinkedChain next link (p :: l)) (hlink : ∀ t, link t = none)
    (hstop : (p :: l).getLast? = some stop) (hfuel : l.length ≤ fuel) :
    follow next stop fuel p = l := by
  induction l generalizing p fuel with
  | nil =>
      have hp : p = stop := by simpa using hstop
      cases fuel <;> simp [follow, hp]
  | cons q l ih =>
      cases fuel with
      | zero => simp at hfuel
      | succ fuel =>
          have hpq : next p = some q := by
            rcases h.linked p q ⟨[], l, rfl⟩ with hn | ⟨t, ht⟩
            · exact hn
            · simp [hlink t] at ht
          have hne : p ≠ stop := by
            rintro rfl
            exact pair_infix_ne_last h.nodup ⟨[], l, rfl⟩ hstop
          have hrest := ih (h.tail (by simp [hpq]))
            (by simpa [List.getLast?_cons_cons] using hstop) (by simpa using hfuel)
          simp [follow, hne, hpq, hrest]

end Transition
