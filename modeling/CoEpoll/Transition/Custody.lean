import Mathlib.Data.List.Basic
import Mathlib.Logic.Function.Basic

/-!
# Nodes in one place

Nodes that have been made are in one of two lists or in the hands of one party,
and never in two places.  A party takes a node out of a list and gives it to a
list; both lists play the same part.

Main results:

- Theorem {lit}`Custody.take`: a party takes a node out of a list.
- Theorem {lit}`Custody.give`: a party gives its node to a list.
- Theorem {lit}`Custody.move`: a party moves on with its own node or a fresh one.
- Theorem {lit}`Custody.drop`: a party destroys its node.
- Theorem {lit}`Custody.enter`: a fresh node comes into a list.
-/

namespace Transition

variable {N τ : Type*}

/-- No node is in two of {lit}`us`, {lit}`ss` and the hands of the parties. -/
structure Custody (us ss : List N) (own : τ → Option N) (made : N → Prop) : Prop where
  apart : ∀ n ∈ us, n ∉ ss
  bound : ∀ n, n ∈ us ∨ n ∈ ss → made n
  owned : ∀ t n, own t = some n → made n ∧ n ∉ us ∧ n ∉ ss
  alone : ∀ t t' n, own t = some n → own t' = some n → t = t'

namespace Custody

variable {us us' ss : List N} {own : τ → Option N} {made made' : N → Prop} {t : τ} {x : N}

theorem swap (h : Custody us ss own made) : Custody ss us own made where
  apart n hs hu := h.apart n hu hs
  bound n hn := h.bound n hn.symm
  owned t n hn := (h.owned t n hn).imp_right And.symm
  alone := h.alone

/-- Only who is a member of which list counts, and what has been made. -/
theorem congr (h : Custody us ss own made) (hmem : ∀ n, n ∈ us' ↔ n ∈ us)
    (hmade : ∀ n, made n ↔ made' n) : Custody us' ss own made' where
  apart n hn := h.apart n ((hmem n).mp hn)
  bound n hn := (hmade n).mp (h.bound n (hn.imp_left (hmem n).mp))
  owned t n hn := by
    rcases h.owned t n hn with ⟨hn, hus, hss⟩
    exact ⟨(hmade n).mp hn, fun hmem' => hus ((hmem n).mp hmem'), hss⟩
  alone := h.alone

/-- A fresh node comes into {lit}`us`. -/
theorem enter (h : Custody us ss own made) (hx : ¬ made x) :
    Custody (x :: us) ss own (fun n => made n ∨ n = x) := by
  refine ⟨fun n hn hs => ?_, fun n hn => ?_, fun t n hn => ?_, h.alone⟩
  · rcases List.mem_cons.mp hn with rfl | hn
    · exact hx (h.bound n (.inr hs))
    · exact h.apart n hn hs
  · rcases hn with hn | hn
    · rcases List.mem_cons.mp hn with heq | hn
      · exact .inr heq
      · exact .inl (h.bound n (.inl hn))
    · exact .inl (h.bound n (.inr hn))
  · rcases h.owned t n hn with ⟨hn, hus, hss⟩
    refine ⟨.inl hn, fun hmem => ?_, hss⟩
    rcases List.mem_cons.mp hmem with rfl | hmem
    · exact hx hn
    · exact hus hmem

variable [DecidableEq τ]

/-- A party takes {lit}`x` out of {lit}`us`, and what is left may have the node that it had before. -/
theorem take (h : Custody us ss own made) (hx : x ∈ us)
    (hsub : ∀ n ∈ us', n ≠ x ∧ (n ∈ us ∨ own t = some n)) :
    Custody us' ss (Function.update own t (some x)) made where
  apart n hn := by
    rcases (hsub n hn).2 with hold | hold
    · exact h.apart n hold
    · exact (h.owned t n hold).2.2
  bound n hn := by
    rcases hn with hn | hn
    · rcases (hsub n hn).2 with hold | hold
      · exact h.bound n (Or.inl hold)
      · exact (h.owned t n hold).1
    · exact h.bound n (Or.inr hn)
  owned u n hn := by
    by_cases hut : u = t
    · subst u
      rw [Function.update_self] at hn
      cases hn
      exact ⟨h.bound x (Or.inl hx), fun hmem => (hsub x hmem).1 rfl, h.apart x hx⟩
    · rw [Function.update_of_ne hut] at hn
      rcases h.owned u n hn with ⟨hmade, hnu, hns⟩
      refine ⟨hmade, fun hmem => ?_, hns⟩
      rcases (hsub n hmem).2 with hold | hold
      · exact hnu hold
      · exact hut (h.alone u t n hn hold)
  alone u u' n hn hn' := by
    have hfree : ∀ v, own v ≠ some x := fun v hv => (h.owned v x hv).2.1 hx
    by_cases hut : u = t <;> by_cases hut' : u' = t
    · rw [hut, hut']
    · subst u
      rw [Function.update_self] at hn
      rw [Function.update_of_ne hut', ← hn] at hn'
      exact (hfree u' hn').elim
    · subst u'
      rw [Function.update_self] at hn'
      rw [Function.update_of_ne hut, ← hn'] at hn
      exact (hfree u hn).elim
    · rw [Function.update_of_ne hut] at hn
      rw [Function.update_of_ne hut'] at hn'
      exact h.alone u u' n hn hn'

/-- A party moves on with the node that it has, with a fresh one or with none. -/
theorem move (h : Custody us ss own made) {y : Option N} (hmade : ∀ n, made n → made' n)
    (hy : ∀ n, y = some n → own t = some n ∨ (¬ made n ∧ made' n)) :
    Custody us ss (Function.update own t y) made' := by
  -- a node owned after the step was owned before by the same party, or is fresh
  have howned : ∀ u n, Function.update own t y u = some n →
      own u = some n ∨ (u = t ∧ ¬ made n ∧ made' n) := by
    intro u n hn
    by_cases hut : u = t
    · subst u
      rw [Function.update_self] at hn
      exact (hy n hn).imp_right fun hfresh => ⟨rfl, hfresh⟩
    · rw [Function.update_of_ne hut] at hn
      exact Or.inl hn
  refine ⟨h.apart, fun n hn => hmade n (h.bound n hn), fun u n hn => ?_, fun u u' n hn hn' => ?_⟩
  · rcases howned u n hn with hold | ⟨_, hfresh, hmade'⟩
    · exact (h.owned u n hold).imp_left (hmade n)
    · exact ⟨hmade', fun hmem => hfresh (h.bound n (Or.inl hmem)),
        fun hmem => hfresh (h.bound n (Or.inr hmem))⟩
  · rcases howned u n hn with hold | ⟨rfl, hfresh, _⟩ <;>
      rcases howned u' n hn' with hold' | ⟨rfl, hfresh', _⟩
    · exact h.alone u u' n hold hold'
    · exact (hfresh' (h.owned u n hold).1).elim
    · exact (hfresh (h.owned u' n hold').1).elim
    · rfl

/-- A party gives its node to {lit}`us`. -/
theorem give (h : Custody us ss own made) (hx : own t = some x) :
    Custody (us ++ [x]) ss (Function.update own t none) made := by
  have hrest : Custody us ss (Function.update own t none) made := h.move (fun _ => id) nofun
  rcases h.owned t x hx with ⟨hmade, _, hns⟩
  refine ⟨fun n hn => ?_, fun n hn => ?_, fun u n hn => ?_, hrest.alone⟩
  · rcases List.mem_append.mp hn with hn | hn
    · exact h.apart n hn
    · exact List.mem_singleton.mp hn ▸ hns
  · rw [List.mem_append, List.mem_singleton] at hn
    rcases hn with (hn | rfl) | hn
    · exact h.bound n (Or.inl hn)
    · exact hmade
    · exact h.bound n (Or.inr hn)
  · have hut : u ≠ t := by
      rintro rfl
      rw [Function.update_self] at hn
      cases hn
    rcases hrest.owned u n hn with ⟨hmade', hnu, hns'⟩
    refine ⟨hmade', fun hmem => ?_, hns'⟩
    rcases List.mem_append.mp hmem with hmem | hmem
    · exact hnu hmem
    · rw [Function.update_of_ne hut, List.mem_singleton.mp hmem] at hn
      exact hut (h.alone u t x hn hx)

/-- A party destroys its node. -/
theorem drop (h : Custody us ss own made) (hx : own t = some x) :
    Custody us ss (Function.update own t none) (fun n => made n ∧ n ≠ x) := by
  rcases h.owned t x hx with ⟨_, hxu, hxs⟩
  have hother : ∀ u n, Function.update own t none u = some n → u ≠ t ∧ own u = some n := by
    intro u n hn
    by_cases hut : u = t
    · subst u
      rw [Function.update_self] at hn
      cases hn
    · rw [Function.update_of_ne hut] at hn
      exact ⟨hut, hn⟩
  refine ⟨h.apart, fun n hn => ⟨h.bound n hn, ?_⟩, fun u n hn => ?_, fun u u' n hn hn' => ?_⟩
  · rintro rfl
    exact hn.elim hxu hxs
  · rcases hother u n hn with ⟨hut, hown⟩
    rcases h.owned u n hown with ⟨hmade, hnu, hns⟩
    refine ⟨⟨hmade, ?_⟩, hnu, hns⟩
    rintro rfl
    exact hut (h.alone u t n hown hx)
  · exact h.alone u u' n (hother u n hn).2 (hother u' n hn').2

end Custody

end Transition
