import Mathlib.Data.List.Basic

/-!
# `Generator`: the values that a coroutine yields

Both operators resume the body when the slot of the promise is empty.  The flag {lit}`ready` tells whether
the slot holds a value; the promise does not initialise it.

A body is given by what it does when it is resumed: it yields a value and is suspended behind
it, or it runs to its end.  The generator has not been moved from.

Main results:

- Theorem {lit}`Pending.exec`: what an operator returns and what it leaves to be returned.
- Theorem {lit}`delivers_iff`: the operators deliver exactly the yielded values if and only if {lit}`ready` is
  false before the first of them.
- Theorem {lit}`wakeLoop_eq`: then the loop of {lit}`ICU::loop` comes to an end and hands over all of them.
-/

namespace CoEpoll

/-- {lit}`Generator<T>` with its coroutine: the frame of the body and the fields of the promise. -/
structure Generator (σ T : Type*) where
  frame : σ
  done : Bool
  value : T
  ready : Bool

namespace Generator

variable {σ T : Type*}

/-- The body is suspended before its first statement; {lit}`value` and {lit}`ready` are what the memory holds. -/
def construct (frame : σ) (value : T) (ready : Bool) : Generator σ T where
  frame := frame
  done := false
  value := value
  ready := ready

/-- {lit}`h_.resume()`: up to {lit}`yield_value` or to {lit}`final_suspend`. -/
def resume (body : σ → Option (T × σ)) (g : Generator σ T) : Generator σ T :=
  match body g.frame with
  | some (value, frame) => { g with frame := frame, value := value, ready := true }
  | none => { g with done := true }

/-- {lit}`Generator::has_next` -/
def has_next (body : σ → Option (T × σ)) (g : Generator σ T) : Generator σ T × Bool :=
  if g.ready then (g, true)
  else if g.done then (g, false)
  else
    let g := g.resume body
    if g.ready then (g, true) else (g, false)

/-- {lit}`Generator::operator()` -/
def next (body : σ → Option (T × σ)) (g : Generator σ T) : Generator σ T × Except String T :=
  let r := g.has_next body
  if r.2 then ({ r.1 with ready := false }, .ok r.1.value)
  else (r.1, .error "ExhaustedException")

/-- A call of an operator. -/
inductive Call where
  /-- {lit}`operator bool` -/
  | test
  /-- {lit}`operator()` -/
  | next
deriving DecidableEq

/-- What a call returns or throws. -/
inductive Result (T : Type*) where
  | test (b : Bool)
  | next (r : Except String T)

def exec (body : σ → Option (T × σ)) (g : Generator σ T) : Call → Generator σ T × Result T
  | .test => ((g.has_next body).1, .test (g.has_next body).2)
  | .next => ((g.next body).1, .next (g.next body).2)

/-- The generator after a sequence of calls. -/
def after (body : σ → Option (T × σ)) (g : Generator σ T) (calls : List Call) : Generator σ T :=
  calls.foldl (fun g call => (g.exec body call).1) g

/-! ## What the body yields -/

/-- From {lit}`frame` on the body yields exactly these values, then it returns. -/
inductive Yields (body : σ → Option (T × σ)) : σ → List T → Prop where
  | finish {frame : σ} (h : body frame = none) : Yields body frame []
  | yield {frame frame' : σ} {x : T} {xs : List T} (h : body frame = some (x, frame'))
      (hrest : Yields body frame' xs) : Yields body frame (x :: xs)

/-- What a call returns when the values {lit}`xs` have not been returned. -/
def expected (xs : List T) : Call → Result T
  | .test => .test !xs.isEmpty
  | .next => .next (xs.head?.elim (.error "ExhaustedException") .ok)

/-- Every call returns what it should: {lit}`operator bool` whether a value is left behind the {lit}`n` calls of
{lit}`operator()` before, {lit}`operator()` value number {lit}`n` or, when there is none, the exception. -/
def Delivers (body : σ → Option (T × σ)) (g : Generator σ T) (xs : List T) : Prop :=
  ∀ calls call, ((g.after body calls).exec body call).2 =
    expected (xs.drop (calls.count .next)) call

/-- What the body has still to yield. -/
inductive Left (body : σ → Option (T × σ)) (g : Generator σ T) : List T → Prop where
  | done (hdone : g.done = true) : Left body g []
  | suspended {xs : List T} (hdone : g.done = false) (h : Yields body g.frame xs) : Left body g xs

/-- What the generator has still to return: what is in the slot and what is left. -/
inductive Pending (body : σ → Option (T × σ)) (g : Generator σ T) : List T → Prop where
  | full {xs : List T} (hready : g.ready = true) (h : Left body g xs) :
      Pending body g (g.value :: xs)
  | empty {xs : List T} (hready : g.ready = false) (h : Left body g xs) : Pending body g xs

variable {body : σ → Option (T × σ)} {g : Generator σ T} {xs : List T}

/-! ## The operators -/

/-- The body fills the slot if it has something left to yield. -/
theorem Yields.resume (h : Yields body g.frame xs) (hready : g.ready = false)
    (hdone : g.done = false) :
    Pending body (g.resume body) xs ∧ (g.resume body).ready = !xs.isEmpty := by
  unfold Generator.resume
  cases h with
  | finish hbody =>
      rw [hbody]
      exact ⟨.empty hready (.done rfl), hready⟩
  | yield hbody hrest =>
      rw [hbody]
      exact ⟨.full rfl (.suspended hdone hrest), rfl⟩

/-- {lit}`has_next` tells whether a value is to be returned, and leaves the values as they are. -/
theorem Pending.has_next (h : Pending body g xs) :
    Pending body (g.has_next body).1 xs ∧ (g.has_next body).2 = !xs.isEmpty ∧
      (g.has_next body).1.ready = !xs.isEmpty := by
  unfold Generator.has_next
  cases h with
  | full hready hleft =>
      rw [if_pos hready]
      exact ⟨.full hready hleft, rfl, hready⟩
  | empty hready hleft =>
      rw [if_neg (by rw [hready]; exact Bool.false_ne_true)]
      cases hleft with
      | done hdone =>
          rw [if_pos hdone]
          exact ⟨.empty hready (.done hdone), rfl, hready⟩
      | suspended hdone hyields =>
          rw [if_neg (by rw [hdone]; exact Bool.false_ne_true)]
          rcases hyields.resume hready hdone with ⟨hpending, hslot⟩
          dsimp only
          split
          · rename_i hfull
            exact ⟨hpending, hfull.symm.trans hslot, hslot⟩
          · rename_i hempty
            exact ⟨hpending, (Bool.eq_false_iff.mpr hempty).symm.trans hslot, hslot⟩

/-- {lit}`operator()` returns the first value, or throws when there is none. -/
theorem Pending.next (h : Pending body g xs) :
    Pending body (g.next body).1 (xs.drop 1) ∧
      (g.next body).2 = xs.head?.elim (.error "ExhaustedException") .ok := by
  rcases h.has_next with ⟨hpending, hnext, hslot⟩
  unfold Generator.next
  cases xs with
  | nil =>
      have hnone : (g.has_next body).2 = false := hnext
      simp only [hnone, Bool.false_eq_true, if_false]
      exact ⟨hpending, rfl⟩
  | cons x xs =>
      have hsome : (g.has_next body).2 = true := hnext
      simp only [hsome, if_true]
      cases hpending with
      | full _ hleft =>
          refine ⟨.empty rfl ?_, rfl⟩
          cases hleft with
          | done hdone => exact .done hdone
          | suspended hdone hyields => exact .suspended hdone hyields
      | empty hready => cases hslot.symm.trans hready

/-- What an operator returns and what it leaves to be returned. -/
theorem Pending.exec (h : Pending body g xs) (call : Call) :
    Pending body (g.exec body call).1 (xs.drop ([call].count .next)) ∧
      (g.exec body call).2 = expected xs call := by
  cases call with
  | test => exact ⟨h.has_next.1, congrArg Result.test h.has_next.2.1⟩
  | next => exact ⟨h.next.1, congrArg Result.next h.next.2⟩

/-- What a sequence of calls leaves to be returned. -/
theorem Pending.after (h : Pending body g xs) (calls : List Call) :
    Pending body (g.after body calls) (xs.drop (calls.count .next)) := by
  induction calls generalizing g xs with
  | nil => exact h
  | cons call calls ih =>
      have hrest := ih (h.exec call).1
      rw [List.drop_drop, ← List.count_append, List.singleton_append] at hrest
      exact hrest

/-- A generator delivers what it has still to return. -/
theorem Pending.delivers (h : Pending body g xs) : Delivers body g xs :=
  fun calls call => ((h.after calls).exec call).2

/-! ## A new generator -/

/-- A new generator has still to return the yielded values, behind {lit}`value` when {lit}`ready` is true. -/
theorem pending_construct {frame : σ} (h : Yields body frame xs) (value : T) (ready : Bool) :
    Pending body (construct frame value ready) (if ready then value :: xs else xs) := by
  cases ready with
  | true => exact .full rfl (.suspended rfl h)
  | false => exact .empty rfl (.suspended rfl h)

/-- Under any sequence of calls {lit}`operator()` returns the yielded values in order, each once and no
other, and throws when all have been returned, and {lit}`operator bool` tells whether one has not been
returned, if and only if {lit}`ready` is false before the first call. -/
theorem delivers_iff {frame : σ} (h : Yields body frame xs) (value : T) (ready : Bool) :
    Delivers body (construct frame value ready) xs ↔ ready = false := by
  have hdelivers := (pending_construct h value ready).delivers
  cases ready with
  | false => exact iff_of_true hdelivers rfl
  | true =>
      refine iff_of_false (fun hexact => ?_) Bool.noConfusion
      -- behind one call for each value the slot still counts as full
      have hcount : (List.replicate xs.length Call.next).count .next = xs.length :=
        List.count_replicate_self
      have hone := hdelivers (List.replicate xs.length .next) .test
      have hnone := hexact (List.replicate xs.length .next) .test
      rw [hcount] at hone hnone
      rw [hone, List.drop_length, expected, expected, Result.test.injEq] at hnone
      have hlen := congrArg List.length (List.isEmpty_iff.mp (Bool.not_inj hnone))
      rw [if_pos rfl, List.length_drop, List.length_cons, List.length_nil] at hlen
      omega

/-- A body that walks through a list. -/
def listBody : List T → Option (T × List T)
  | [] => none
  | x :: xs => some (x, xs)

/-- It yields the elements of the list. -/
theorem yields_listBody (xs : List T) : Yields listBody xs xs := by
  induction xs with
  | nil => exact .finish rfl
  | cons x xs ih => exact .yield rfl ih

/-- A body that yields two values, with {lit}`ready` false. -/
theorem delivers_iff_pair : Delivers listBody (construct [4, 5] 0 false) [4, 5] :=
  (delivers_iff (yields_listBody [4, 5]) 0 false).mpr rfl

/-- With {lit}`ready` true the first {lit}`operator()` returns a value that has not been yielded. -/
theorem delivers_not_yielded :
    ¬ ∀ (body : List Nat → Option (Nat × List Nat)) (frame xs : List Nat) (value : Nat)
      (ready : Bool), Yields body frame xs → Delivers body (construct frame value ready) xs := by
  intro hclaim
  have hfirst := hclaim _ [4] [4] 0 true (yields_listBody [4]) [] .next
  exact absurd hfirst (by simp [exec, next, after, has_next, construct, expected])

/-! ## The loop of `ICU::loop` -/

/-- {lit}`while (bool(ge)) wakeCB_(ge())`: the handles that are woken; {lit}`n` rounds are left. -/
def wakeLoop (body : σ → Option (T × σ)) : Nat → Generator σ T → Option (List T)
  | 0, _ => none
  | n + 1, ge =>
      let r := ge.has_next body
      if r.2 then
        match r.1.next body with
        | (ge, .ok h) => (wakeLoop body n ge).map fun hs => h :: hs
        | (_, .error _) => none
      else some []

/-- The loop comes to an end and wakes what the generator has still to return. -/
theorem Pending.wakeLoop (h : Pending body g xs) {n : Nat} (hn : xs.length < n) :
    wakeLoop body n g = some xs := by
  induction n generalizing g xs with
  | zero => exact absurd hn (Nat.not_lt_zero _)
  | succ n ih =>
      rcases h.has_next with ⟨hpending, htest, _⟩
      rcases hpending.next with ⟨hrest, hvalue⟩
      unfold Generator.wakeLoop
      cases xs with
      | nil =>
          have hnone : (g.has_next body).2 = false := htest
          simp only [hnone, Bool.false_eq_true, if_false]
      | cons x xs =>
          have hsome : (g.has_next body).2 = true := htest
          have hvalue : ((g.has_next body).1.next body).2 = .ok x := hvalue
          have hloop := ih hrest (Nat.lt_of_succ_lt_succ hn)
          simp only [hsome, if_true]
          split
          · rename_i hcall
            rw [hcall] at hvalue hloop
            cases hvalue
            rw [hloop]
            rfl
          · rename_i hcall
            rw [hcall] at hvalue
            cases hvalue

/-- The loop wakes exactly the yielded handles if {lit}`ready` is false, and else also what the memory
held. -/
theorem wakeLoop_eq {frame : σ} (h : Yields body frame xs) (value : T) (ready : Bool) :
    wakeLoop body (xs.length + 2) (construct frame value ready) =
      some (if ready then value :: xs else xs) := by
  apply (pending_construct h value ready).wakeLoop
  cases ready with
  | true => exact Nat.lt_succ_self _
  | false => exact Nat.lt_succ_of_lt (Nat.lt_succ_self _)

end Generator
end CoEpoll
