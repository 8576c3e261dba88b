import CoEpoll.Transition.Machine

/-!
# `CompStarter`: a component on a thread of its own

The constructor starts the thread before it has initialized the members that are declared after
{lit}`thread_`, and then waits for the component that the thread makes.  The thread enters the
component's loop when {lit}`run` has been called; the destructor calls {lit}`run`, takes a reference to the
component, asks it to quit and joins the thread.  The loop itself begins with {lit}`quit_.store(false)`.
Others use the component at any time, but nobody else calls its {lit}`quit`, and nobody calls {lit}`wait`.

Main results:

- Theorem {lit}`Inv.step`: where the two threads can be at the same time, and who holds the component.
- Theorem {lit}`starter_defined_iff`: the runs in which nothing is used that is not there.
- Theorem {lit}`starter_sound`: {lit}`run` gates the loop, and the component lives as long as it is used.
-/

namespace CoEpoll

open Transition

/-- A {lit}`Component`, by what its own thread and the others do while it is in {lit}`while (!quit_)`. -/
structure Component (β ι : Type*) where
  init : β
  step : β → ι → Option β
  /-- The step is one of the loop's thread. -/
  own : ι → Bool
  /-- The step ends a pass of the loop. -/
  ends : β → ι → Bool
  /-- What {lit}`quit` does behind its store when another thread calls it. -/
  wakeUp : β → β

namespace CompStarter

/-- {lit}`CompStarter::COMP_CATE` -/
inductive COMP_CATE where
  | COMP_ICU
  | COMP_CPU
  | COMP_INVALID
deriving DecidableEq

/-- The {lit}`switch` in {lit}`loopFuncs` makes a component. -/
def COMP_CATE.made : COMP_CATE → Bool
  | COMP_ICU => true
  | COMP_CPU => true
  | COMP_INVALID => false

/-- The members that are declared after {lit}`thread_`. -/
inductive Member where
  | loopMutex_
  | promiseForCompPtr_
  | promiseForRun_
  | cate_
deriving DecidableEq

/-- Where the thread of the owner is. -/
inductive Owner where
  /-- The thread runs, and the members {lit}`rest` are still to be initialized. -/
  | construct (rest : List Member)
  /-- {lit}`comp_ = f.get()` in the constructor. -/
  | getComp
  /-- Between two calls. -/
  | idle
  /-- {lit}`run()` in the destructor. -/
  | run
  /-- {lit}`comp = comp_` under {lit}`loopMutex_`. -/
  | load
  /-- {lit}`quit_.store(true)` in {lit}`comp->quit()`. -/
  | quit
  /-- {lit}`wakeUp()` in {lit}`comp->quit()`. -/
  | wakeUp
  | join
  /-- The destructor's own {lit}`comp` goes. -/
  | release
  | destroyed
deriving DecidableEq

/-- Where the thread of the component is. -/
inductive Worker where
  /-- {lit}`switch (cate_)` -/
  | switch
  /-- {lit}`promiseForCompPtr_.set_value(comp)` -/
  | publish
  /-- {lit}`f.get()` of {lit}`promiseForRun_`. -/
  | getRun
  /-- {lit}`looping_.store(true)`, at the start of {lit}`loop`. -/
  | enter
  /-- {lit}`quit_.store(false)` -/
  | reset
  /-- {lit}`while (!quit_.load())` -/
  | check
  | body
  /-- {lit}`looping_.store(false)` when {lit}`loop` is left. -/
  | cleanup
  /-- {lit}`comp_ = nullptr` under {lit}`loopMutex_`. -/
  | clear
  /-- The thread's own {lit}`comp` goes. -/
  | exit
  | ended
deriving DecidableEq

/-- The two threads.  A reference to the component is whether it is one: {lit}`comp_`, the {lit}`comp` of the
destructor, the {lit}`loopComp` of the thread and the one in {lit}`promiseForCompPtr_`.  {lit}`promiseForRun_` counts
how often it is set, and {lit}`destroyed` how often the component is; {lit}`undefined` records that the
starter has used something that is not there, and {lit}`misused` that another thread has. -/
structure State (β : Type*) where
  owner : Owner
  worker : Worker
  body : β
  cate_ : COMP_CATE
  comp_ : Bool
  comp : Bool
  loopComp : Bool
  promiseForCompPtr_ : Option Bool
  promiseForRun_ : Nat
  once_ : Bool
  looping_ : Bool
  quit_ : Bool
  destroyed : Nat
  undefined : Bool
  misused : Bool

variable {β ι : Type*} (L : Component β ι)

/-- The constructor has started the thread. -/
def State.construct (cate : COMP_CATE) : State β where
  owner := .construct [.loopMutex_, .promiseForCompPtr_, .promiseForRun_, .cate_]
  worker := .switch
  body := L.init
  cate_ := cate
  comp_ := false
  comp := false
  loopComp := false
  promiseForCompPtr_ := none
  promiseForRun_ := 0
  once_ := false
  looping_ := false
  quit_ := false
  destroyed := 0
  undefined := false
  misused := false

/-- The constructor has not initialized {lit}`m` yet. -/
def Owner.lacks (m : Member) : Owner → Bool
  | construct rest => rest.elem m
  | _ => false

inductive Action (ι : Type*) where
  /-- The constructor or the destructor goes on. -/
  | owner
  /-- The owner calls {lit}`run`. -/
  | run
  /-- The owner calls {lit}`~CompStarter`. -/
  | destroy
  /-- The thread goes on, outside the body of the loop. -/
  | worker
  /-- A step of the loop's body, or one of another thread that uses the component. -/
  | body (i : ι)

namespace State

variable (s : State β)

/-- The next state, when what the step uses is there. -/
def guard (ok : Bool) (t : State β) : State β :=
  if ok then t else { s with undefined := true }

/-- The component has not been destroyed. -/
def alive : Bool :=
  s.destroyed = 0

/-- The component has been made and not been destroyed. -/
def there : Bool :=
  s.worker ≠ .switch && s.cate_.made && s.alive

/-- Somebody has a reference to the component. -/
def held : Bool :=
  s.comp_ || s.comp || s.loopComp || s.promiseForCompPtr_ = some true

/-- A reference has gone.  With the last one goes the component: {lit}`~ICU` and {lit}`~CPU` call {lit}`quit` and
wait for {lit}`looping_`. -/
def drop (ref inLoop : Bool) : Option (State β) :=
  if ref && !s.held then
    if s.looping_ then none
    else some { s with
      quit_ := true
      body := if inLoop then s.body else L.wakeUp s.body
      destroyed := s.destroyed + 1 }
  else some s

/-- {lit}`CompStarter::run` -/
def run : State β :=
  if s.once_ then s else { s with once_ := true, promiseForRun_ := s.promiseForRun_ + 1 }

/-- The next step of the constructor or the destructor. -/
def stepOwner : Option (State β) :=
  match s.owner with
  | .construct (_ :: m :: rest) => some { s with owner := .construct (m :: rest) }
  | .construct _ => some { s with owner := .getComp }
  | .getComp =>
      -- the pointer is moved out of the promise
      match s.promiseForCompPtr_ with
      | some ref => some { s with
          owner := .idle
          comp_ := ref
          promiseForCompPtr_ := some false }
      | none => none
  | .idle => none
  | .run => some { s.run with owner := .load }
  | .load => some { s with comp := s.comp_, owner := if s.comp_ then .quit else .join }
  | .quit => some (s.guard s.alive { s with quit_ := true, owner := .wakeUp })
  | .wakeUp => some (s.guard s.alive { s with body := L.wakeUp s.body, owner := .join })
  | .join => if s.worker = .ended then some { s with owner := .release } else none
  | .release => State.drop L { s with comp := false, owner := .destroyed } s.comp false
  | .destroyed => none

/-- The next step of the thread outside the body of the loop. -/
def stepWorker : Option (State β) :=
  match s.worker with
  | .switch => some (s.guard (!s.owner.lacks .cate_)
      { s with loopComp := s.cate_.made, worker := .publish })
  | .publish => some (s.guard (!s.owner.lacks .promiseForCompPtr_)
      { s with promiseForCompPtr_ := some s.loopComp, worker := .getRun })
  | .getRun =>
      if s.owner.lacks .promiseForRun_ then some { s with undefined := true }
      else if 0 < s.promiseForRun_ then some { s with worker := .enter } else none
  | .enter => some (s.guard (s.loopComp && s.alive && !s.looping_)
      { s with looping_ := true, worker := .reset })
  | .reset => some (s.guard s.alive { s with quit_ := false, worker := .check })
  | .check => some (s.guard s.alive { s with worker := if s.quit_ then .cleanup else .body })
  | .body => none
  | .cleanup => some (s.guard s.alive { s with looping_ := false, worker := .clear })
  | .clear =>
      if s.owner.lacks .loopMutex_ then some { s with undefined := true }
      else State.drop L { s with comp_ := false, worker := .exit } s.comp_ true
  | .exit => State.drop L { s with loopComp := false, worker := .ended } s.loopComp true
  | .ended => none

/-- A step of the component while its thread is in the body, or of another thread at any time. -/
def stepBody (i : ι) : Option (State β) :=
  if L.own i then
    match s.worker with
    | .body => (L.step s.body i).map fun b => s.guard s.alive
        { s with body := b, worker := if L.ends s.body i then .check else .body }
    | _ => none
  else (L.step s.body i).map fun b => { s with body := b, misused := s.misused || !s.there }

end State

/-- One step; behind something undefined in the starter there is none. -/
def step (s : State β) (a : Action ι) : Option (State β) :=
  if s.undefined then none
  else match a with
    | .owner => s.stepOwner L
    | .run => if s.owner = .idle then some s.run else none
    | .destroy => if s.owner = .idle then some { s with owner := .run } else none
    | .worker => s.stepWorker L
    | .body i => s.stepBody L i

/-- The owner, the thread and everybody who uses the component, under any interleaving. -/
def machine : Machine (State β) (Action ι) where
  init s := ∃ cate, s = State.construct L cate
  step := step L

/-! ## Where the two threads are -/

namespace Owner

/-- The constructor is still initializing. -/
def constructing : Owner → Bool
  | construct _ => true
  | _ => false

/-- The constructor has returned. -/
def made : Owner → Bool
  | construct _ => false
  | getComp => false
  | _ => true

/-- The destructor has called {lit}`run`. -/
def begun : Owner → Bool
  | load => true
  | quit => true
  | wakeUp => true
  | join => true
  | release => true
  | destroyed => true
  | _ => false

/-- The destructor is in {lit}`comp->quit()`. -/
def quitting : Owner → Bool
  | quit => true
  | wakeUp => true
  | _ => false

/-- The destructor's {lit}`comp` has been loaded. -/
def holds : Owner → Bool
  | quit => true
  | wakeUp => true
  | join => true
  | release => true
  | _ => false

/-- The destructor is behind its {lit}`quit_.store(true)`. -/
def asked : Owner → Bool
  | wakeUp => true
  | join => true
  | release => true
  | destroyed => true
  | _ => false

/-- {lit}`thread_.join()` has returned. -/
def joined : Owner → Bool
  | release => true
  | destroyed => true
  | _ => false

end Owner

namespace Worker

/-- The component has been published. -/
def published : Worker → Bool
  | switch => false
  | publish => false
  | _ => true

/-- The thread has its {lit}`comp`. -/
def holds : Worker → Bool
  | switch => false
  | ended => false
  | _ => true

/-- {lit}`run` has been called. -/
def running : Worker → Bool
  | switch => false
  | publish => false
  | getRun => false
  | _ => true

/-- The thread has entered the loop. -/
def entered : Worker → Bool
  | enter => false
  | pc => pc.running

/-- The thread has left the loop. -/
def left : Worker → Bool
  | cleanup => true
  | clear => true
  | exit => true
  | ended => true
  | _ => false

/-- {lit}`looping_` is set. -/
def looping : Worker → Bool
  | reset => true
  | check => true
  | body => true
  | cleanup => true
  | _ => false

/-- {lit}`comp_` is reset. -/
def cleared : Worker → Bool
  | exit => true
  | ended => true
  | _ => false

theorem left_of_cleared {pc : Worker} (h : pc.cleared = true) : pc.left = true := by
  cases pc <;> first | rfl | cases h

theorem entered_of_left {pc : Worker} (h : pc.left = true) : pc.entered = true := by
  cases pc <;> first | rfl | cases h

theorem running_of_entered {pc : Worker} (h : pc.entered = true) : pc.running = true := by
  cases pc <;> first | exact h | cases h

end Worker

/-- Where the two threads can be at the same time, and what follows for the members. -/
structure Inv (s : State β) : Prop where
  lacks : ∀ rest, s.owner = .construct rest → ∃ done, rest = done ++ [.cate_]
  undef : s.undefined = true → s.owner.constructing = true ∨ s.cate_.made = false
  waits : s.owner.constructing = true → s.worker = .switch
  loopComp : s.loopComp = (s.cate_.made && s.worker.holds)
  promiseForCompPtr_ : s.promiseForCompPtr_ =
    if s.worker.published then some (s.cate_.made && !s.owner.made) else none
  published : s.owner.made = true → s.worker.published = true
  comp_ : s.comp_ = (s.cate_.made && s.owner.made && !s.worker.cleared)
  comp : s.comp = (s.cate_.made && s.owner.holds)
  quitting : s.owner.quitting = true → s.cate_.made = true
  promiseForRun_ : s.promiseForRun_ = s.once_.toNat
  once : s.once_ = true → s.owner.made = true
  begun : s.owner.begun = true → s.once_ = true
  running : s.worker.running = true → s.once_ = true
  entered : s.worker.entered = true → s.cate_.made = true
  looping : s.looping_ = s.worker.looping
  quit : s.quit_ = true → s.owner.asked = true
  left : s.worker.left = true → s.owner.asked = true
  joined : s.owner.joined = true → s.worker = .ended
  destroyed : s.destroyed = (s.cate_.made && s.owner = .destroyed).toNat

section Kept

variable {L} {s s' : State β}

theorem Inv.construct (cate : COMP_CATE) : Inv (State.construct L cate) where
  lacks rest hrest := ⟨[.loopMutex_, .promiseForCompPtr_, .promiseForRun_], by cases hrest; rfl⟩
  undef h := Or.inl rfl
  waits _ := rfl
  loopComp := (Bool.and_false _).symm
  promiseForCompPtr_ := rfl
  published h := by cases h
  comp_ := by simp [State.construct, Owner.made]
  comp := (Bool.and_false _).symm
  quitting h := by cases h
  promiseForRun_ := rfl
  once h := by cases h
  begun h := by cases h
  running h := by cases h
  entered h := by cases h
  looping := rfl
  quit h := by cases h
  left h := by cases h
  joined h := by cases h
  destroyed := by simp [State.construct]

/-- The component is there until the destructor is done. -/
theorem Inv.alive (h : Inv s) (howner : s.owner ≠ .destroyed) : s.alive = true := by
  simp [State.alive, h.destroyed, howner]

/-- {lit}`run` is called by the owner. -/
theorem Inv.run (h : Inv s) (hmade : s.owner.made = true) : Inv s.run := by
  unfold State.run
  split
  · exact h
  · next honce =>
      have hzero := h.promiseForRun_
      rw [Bool.not_eq_true] at honce
      rw [honce] at hzero
      exact { h with
        promiseForRun_ := by simp [hzero]
        once := fun _ => hmade
        begun := fun _ => rfl
        running := fun _ => rfl }

/-- The destructor goes on to the component. -/
theorem Inv.toLoad (h : Inv s) (howner : s.owner = .run) (honce : s.once_ = true)
    (hundef : s.undefined = false) : Inv { s with owner := .load } := by
  rcases s with ⟨owner, worker, body, cate_, comp_, comp, loopComp, promiseForCompPtr_,
    promiseForRun_, once_, looping_, quit_, destroyed, undefined, misused⟩
  cases howner
  cases hundef
  exact { h with
    lacks := fun rest hrest => by cases hrest
    undef := fun hu => by cases hu
    begun := fun _ => honce }

/-- The constructor and the destructor. -/
theorem Inv.owner (h : Inv s) (hundef : s.undefined = false) (hstep : s.stepOwner L = some s') :
    Inv s' := by
  rcases s with ⟨owner, worker, body, cate_, comp_, comp, loopComp, promiseForCompPtr_,
    promiseForRun_, once_, looping_, quit_, destroyed, undefined, misused⟩
  cases hundef
  cases owner with
  | construct rest =>
      rcases h.lacks rest rfl with ⟨done, rfl⟩
      rcases done with _ | ⟨first, _ | ⟨second, done⟩⟩
      · cases hstep
        exact { h with
          lacks := fun rest hrest => by cases hrest
          waits := fun hc => by cases hc
          undef := fun hu => by cases hu }
      · cases hstep
        exact { h with
          lacks := fun rest hrest => ⟨[], by cases hrest; rfl⟩
          undef := fun hu => by cases hu }
      · cases hstep
        exact { h with
          lacks := fun rest hrest => ⟨second :: done, by cases hrest; rfl⟩
          undef := fun hu => by cases hu }
  | getComp =>
      have hpromise := h.promiseForCompPtr_
      dsimp only [State.stepOwner] at hstep hpromise
      cases hpub : worker.published with
      | false =>
          rw [hpromise, hpub] at hstep
          cases hstep
      | true =>
          rw [hpromise, hpub] at hstep
          cases hstep
          exact { h with
            lacks := fun rest hrest => by cases hrest
            undef := fun hu => by cases hu
            promiseForCompPtr_ := by simp [hpub, Owner.made]
            published := fun _ => hpub
            comp_ := by
              have hcleared : worker.cleared = false := by
                by_contra hc
                have honce := h.once (h.running (Worker.running_of_entered
                  (Worker.entered_of_left (Worker.left_of_cleared (by simpa using hc)))))
                cases honce
              simp [hcleared, Owner.made]
            once := fun _ => rfl }
  | idle => cases hstep
  | run =>
      cases hstep
      exact (h.run rfl).toLoad (by cases once_ <;> rfl) (by cases once_ <;> rfl)
        (by cases once_ <;> rfl)
  | load =>
      cases hstep
      -- the loop goes on until the destructor has stored quit_
      have hleft : worker.left = false := by
        by_contra hl
        cases h.left (by simpa using hl)
      have hcleared : worker.cleared = false := by
        by_contra hc
        rw [Worker.left_of_cleared (by simpa using hc)] at hleft
        cases hleft
      have hcomp : comp_ = cate_.made := by
        have hcomp := h.comp_
        simpa [hcleared, Owner.made] using hcomp
      cases comp_ with
      | false =>
          exact { h with
            lacks := fun rest hrest => by cases hrest
            undef := fun hu => by cases hu
            comp := by rw [← hcomp]; rfl
            quit := fun _ => rfl
            left := fun _ => rfl }
      | true =>
          exact { h with
            lacks := fun rest hrest => by cases hrest
            undef := fun hu => by cases hu
            comp := by rw [← hcomp]; rfl
            quitting := fun _ => hcomp.symm
            quit := fun hq => by cases h.quit hq
            left := fun hl => by cases h.left hl }
  | quit =>
      rw [State.stepOwner, State.guard, h.alive (fun hd => by cases hd), if_pos rfl] at hstep
      cases hstep
      exact { h with
        lacks := fun rest hrest => by cases hrest
        undef := fun hu => by cases hu
        quitting := fun _ => h.quitting rfl
        quit := fun _ => rfl
        left := fun _ => rfl }
  | wakeUp =>
      rw [State.stepOwner, State.guard, h.alive (fun hd => by cases hd), if_pos rfl] at hstep
      cases hstep
      exact { h with
        lacks := fun rest hrest => by cases hrest
        undef := fun hu => by cases hu
        quitting := fun hq => by cases hq }
  | join =>
      rcases Option.ite_none_right_eq_some.mp hstep with ⟨hended, hstep⟩
      cases hstep
      exact { h with
        lacks := fun rest hrest => by cases hrest
        undef := fun hu => by cases hu
        joined := fun _ => hended }
  | release =>
      have hended := h.joined rfl
      have hheld : comp_ = false ∧ loopComp = false ∧ promiseForCompPtr_ = some false := by
        have hcomp_ := h.comp_
        have hloop := h.loopComp
        have hpromise := h.promiseForCompPtr_
        dsimp only at hended hcomp_ hloop hpromise
        subst hended
        simp_all [Worker.cleared, Worker.holds, Worker.published, Owner.made]
      rcases hheld with ⟨rfl, rfl, rfl⟩
      have hlooping := h.looping
      have hcomp := h.comp
      have hzero := h.destroyed
      dsimp only at hended hlooping hcomp hzero
      subst hended
      cases hlooping
      cases comp with
      | false =>
          cases hstep
          exact { h with
            lacks := fun rest hrest => by cases hrest
            undef := fun hu => by cases hu
            comp := (Bool.and_false _).symm
            begun := fun _ => h.begun rfl
            destroyed := by simp_all [Owner.holds] }
      | true =>
          cases hstep
          exact { h with
            lacks := fun rest hrest => by cases hrest
            undef := fun hu => by cases hu
            comp := (Bool.and_false _).symm
            begun := fun _ => h.begun rfl
            quit := fun _ => rfl
            destroyed := by simp_all [Owner.holds] }
  | destroyed => cases hstep

theorem State.drop_of_held {ref inLoop : Bool} (hheld : s.held = true) :
    s.drop L ref inLoop = some s := by
  simp [State.drop, hheld]

theorem Owner.holds_of_asked {pc : Owner} (hasked : pc.asked = true) (hjoined : pc.joined = false) :
    pc.holds = true := by
  revert hasked hjoined
  cases pc <;> simp [asked, joined, holds]

/-- The destructor's reference outlives the thread. -/
theorem Inv.comp_of_left (h : Inv s) (hleft : s.worker.left = true)
    (hended : s.worker.holds = true) : s.comp = true := by
  have hjoined : s.owner.joined = false := by
    by_contra hj
    rw [h.joined (by simpa using hj)] at hended
    cases hended
  rw [h.comp, h.entered (Worker.entered_of_left hleft), Owner.holds_of_asked (h.left hleft) hjoined]
  rfl

/-- Something undefined changes nothing else. -/
theorem Inv.toUndefined (h : Inv s)
    (hwhy : s.owner.constructing = true ∨ s.cate_.made = false) :
    Inv { s with undefined := true } :=
  { h with undef := fun _ => hwhy }

/-- The constructor initializes {lit}`cate_` last. -/
theorem Inv.lacks_eq_false (h : Inv s) (hworker : s.worker ≠ .switch) (m : Member) :
    s.owner.lacks m = false := by
  cases howner : s.owner with
  | construct rest => exact absurd (h.waits (by rw [howner]; rfl)) hworker
  | _ => rfl

/-- The thread outside the body of the loop. -/
theorem Inv.worker (h : Inv s) (hundef : s.undefined = false) (hstep : s.stepWorker L = some s') :
    Inv s' := by
  have halive : s.worker ≠ .ended → s.alive = true := fun hne =>
    h.alive fun hd => hne (h.joined (by rw [hd]; rfl))
  have hlacks := h.lacks_eq_false
  rcases s with ⟨owner, worker, body, cate_, comp_, comp, loopComp, promiseForCompPtr_,
    promiseForRun_, once_, looping_, quit_, destroyed, undefined, misused⟩
  cases hundef
  cases worker with
  | switch =>
      cases hcate : owner.lacks .cate_ with
      | true =>
          simp only [State.stepWorker, State.guard, hcate] at hstep
          cases hstep
          refine h.toUndefined (Or.inl ?_)
          cases owner <;> first | rfl | cases hcate
      | false =>
          simp only [State.stepWorker, State.guard, hcate] at hstep
          cases hstep
          have hmade : owner.made = false := by
            by_contra hmade
            cases h.published (by simpa using hmade)
          exact { h with
            undef := fun hu => by cases hu
            waits := fun hc => by
              cases owner with
              | construct rest =>
                  rcases h.lacks rest rfl with ⟨done, rfl⟩
                  simp [Owner.lacks] at hcate
              | _ => cases hc
            loopComp := (Bool.and_true _).symm
            published := fun hp => by cases hmade.symm.trans hp
            joined := fun hj => by cases h.joined hj }
  | publish =>
      have hmade : owner.made = false := by
        by_contra hmade
        cases h.published (by simpa using hmade)
      have hloop := h.loopComp
      dsimp only at hloop
      simp only [State.stepWorker, State.guard, hlacks (fun hd => by cases hd)] at hstep
      cases hstep
      exact { h with
        waits := fun hc => by cases h.waits hc
        promiseForCompPtr_ := by simp [hloop, hmade, Worker.published, Worker.holds]
        published := fun _ => rfl
        joined := fun hj => by cases h.joined hj }
  | getRun =>
      simp only [State.stepWorker, hlacks (fun hd => by cases hd)] at hstep
      rcases Option.ite_none_right_eq_some.mp hstep with ⟨hrun, hstep⟩
      cases hstep
      exact { h with
        waits := fun hc => by cases h.waits hc
        running := fun _ => by
          have hcount : promiseForRun_ = once_.toNat := h.promiseForRun_
          cases once_ with
          | true => rfl
          | false =>
              subst hcount
              cases hrun
        joined := fun hj => by cases h.joined hj }
  | enter =>
      have hlooping : looping_ = false := h.looping
      have hloop : loopComp = cate_.made := h.loopComp.trans (Bool.and_true _)
      have hok : (loopComp && State.alive ⟨owner, .enter, body, cate_, comp_, comp, loopComp,
          promiseForCompPtr_, promiseForRun_, once_, looping_, quit_, destroyed, false, misused⟩ &&
            !looping_) = cate_.made := by
        rw [halive (fun hd => by cases hd), hloop, hlooping, Bool.and_true, Bool.not_false,
          Bool.and_true]
      simp only [State.stepWorker, State.guard, hok] at hstep
      cases hmade : cate_.made with
      | false =>
          rw [hmade] at hstep
          cases hstep
          exact h.toUndefined (Or.inr hmade)
      | true =>
          rw [hmade] at hstep
          cases hstep
          exact { h with
            waits := fun hc => by cases h.waits hc
            entered := fun _ => hmade
            looping := rfl
            joined := fun hj => by cases h.joined hj }
  | reset =>
      simp only [State.stepWorker, State.guard, halive (fun hd => by cases hd)] at hstep
      cases hstep
      exact { h with
        waits := fun hc => by cases h.waits hc
        quit := fun hq => by cases hq
        joined := fun hj => by cases h.joined hj }
  | check =>
      simp only [State.stepWorker, State.guard, halive (fun hd => by cases hd)] at hstep
      cases hstep
      cases quit_ with
      | false => exact { h with
          waits := fun hc => by cases h.waits hc
          joined := fun hj => by cases h.joined hj }
      | true => exact { h with
          waits := fun hc => by cases h.waits hc
          joined := fun hj => by cases h.joined hj
          left := fun _ => h.quit rfl }
  | body => cases hstep
  | cleanup =>
      simp only [State.stepWorker, State.guard, halive (fun hd => by cases hd)] at hstep
      cases hstep
      exact { h with
        waits := fun hc => by cases h.waits hc
        looping := rfl
        joined := fun hj => by cases h.joined hj }
  | clear =>
      have hcomp : comp = true := h.comp_of_left rfl rfl
      simp only [State.stepWorker, hlacks (fun hd => by cases hd)] at hstep
      rw [if_neg Bool.false_ne_true, State.drop_of_held (by simp [State.held, hcomp])] at hstep
      cases hstep
      exact { h with
        waits := fun hc => by cases h.waits hc
        comp_ := (Bool.and_false _).symm
        joined := fun hj => by cases h.joined hj }
  | exit =>
      have hcomp : comp = true := h.comp_of_left rfl rfl
      simp only [State.stepWorker] at hstep
      rw [State.drop_of_held (by simp [State.held, hcomp])] at hstep
      cases hstep
      exact { h with
        waits := fun hc => by cases h.waits hc
        loopComp := (Bool.and_false _).symm
        joined := fun _ => rfl }
  | ended => cases hstep

/-- The body of the loop, and what the others do. -/
theorem Inv.body {i : ι} (h : Inv s) (hstep : s.stepBody L i = some s') : Inv s' := by
  unfold State.stepBody at hstep
  split at hstep
  · split at hstep
    · next hworker =>
        rcases Option.map_eq_some_iff.mp hstep with ⟨b, hb, rfl⟩
        have hne : s.owner ≠ .destroyed := fun hd => by
          cases hworker.symm.trans (h.joined (by rw [hd]; rfl))
        rcases s with ⟨owner, worker, body, cate_, comp_, comp, loopComp, promiseForCompPtr_,
          promiseForRun_, once_, looping_, quit_, destroyed, undefined, misused⟩
        cases hworker
        simp only [State.guard, h.alive hne, if_pos]
        cases L.ends body i with
        | false => exact { h with }
        | true => exact { h with
            waits := fun hc => by cases h.waits hc
            left := fun hl => by cases hl
            joined := fun hj => by cases h.joined hj }
    · cases hstep
  · rcases Option.map_eq_some_iff.mp hstep with ⟨b, hb, rfl⟩
    exact { h with }

/-- Every step keeps the invariant. -/
theorem Inv.step {a : Action ι} (h : Inv s) (hstep : step L s a = some s') : Inv s' := by
  unfold CompStarter.step at hstep
  split at hstep
  · cases hstep
  · next hundef =>
      rw [Bool.not_eq_true] at hundef
      cases a with
      | owner => exact h.owner hundef hstep
      | run =>
          rcases Option.ite_none_right_eq_some.mp hstep with ⟨hidle, hstep⟩
          cases hstep
          exact h.run (by rw [hidle]; rfl)
      | destroy =>
          rcases Option.ite_none_right_eq_some.mp hstep with ⟨hidle, hstep⟩
          cases hstep
          rcases s with ⟨owner, worker, body, cate_, comp_, comp, loopComp, promiseForCompPtr_,
            promiseForRun_, once_, looping_, quit_, destroyed, undefined, misused⟩
          cases hidle
          exact { h with lacks := fun rest hrest => by cases hrest }
      | worker => exact h.worker hundef hstep
      | body i => exact h.body hstep

theorem inductive_inv : (machine L).Inductive Inv where
  init s hinit := by
    rcases hinit with ⟨cate, rfl⟩
    exact .construct cate
  step _ _ _ h hstep := h.step hstep

/-! ## When something undefined happens -/

variable (L) in
/-- The thread reads {lit}`cate_` only when it is initialized, and enters the loop of no null pointer;
others use the component only while it is there. -/
def Timely (s : State β) : Action ι → Prop
  | .worker => (s.worker = .switch → s.owner.lacks .cate_ = false) ∧
      (s.worker = .enter → s.cate_.made = true)
  | .body i => L.own i = false → s.there = true
  | _ => True

/-- Nothing has been used that is not there. -/
def State.Defined (s : State β) : Prop :=
  s.undefined = false ∧ s.misused = false

theorem State.guard_undefined {ok : Bool} {t : State β} (ht : t.undefined = false) :
    (s.guard ok t).undefined = !ok := by
  cases ok with
  | true => exact ht
  | false => rfl

theorem State.drop_undefined {ref inLoop : Bool} (hdrop : s.drop L ref inLoop = some s') :
    s'.undefined = s.undefined := by
  unfold State.drop at hdrop
  split at hdrop
  · rcases Option.ite_none_left_eq_some.mp hdrop with ⟨_, hdrop⟩
    cases hdrop
    rfl
  · cases hdrop
    rfl

/-- The owner does nothing undefined. -/
theorem Inv.owner_undefined (h : Inv s) (hs : s.undefined = false)
    (hstep : s.stepOwner L = some s') : s'.undefined = false := by
  cases howner : s.owner with
  | construct rest =>
      simp only [State.stepOwner, howner] at hstep
      rcases rest with _ | ⟨_, _ | ⟨_, _⟩⟩ <;>
        · cases hstep
          exact hs
  | getComp =>
      simp only [State.stepOwner, howner] at hstep
      split at hstep <;> cases hstep
      exact hs
  | idle => simp only [State.stepOwner, howner] at hstep; cases hstep
  | run =>
      simp only [State.stepOwner, howner] at hstep
      cases hstep
      unfold State.run
      split <;> exact hs
  | load =>
      simp only [State.stepOwner, howner] at hstep
      cases hstep
      exact hs
  | quit =>
      simp only [State.stepOwner, howner] at hstep
      cases hstep
      rw [State.guard_undefined (by exact hs), h.alive (by simp [howner])]
      rfl
  | wakeUp =>
      simp only [State.stepOwner, howner] at hstep
      cases hstep
      rw [State.guard_undefined (by exact hs), h.alive (by simp [howner])]
      rfl
  | join =>
      simp only [State.stepOwner, howner] at hstep
      rcases Option.ite_none_right_eq_some.mp hstep with ⟨_, hstep⟩
      cases hstep
      exact hs
  | release =>
      simp only [State.stepOwner, howner] at hstep
      exact (State.drop_undefined hstep).trans hs
  | destroyed => simp only [State.stepOwner, howner] at hstep; cases hstep

/-- The body of the loop runs while the component is there. -/
theorem Inv.body_undefined {i : ι} (h : Inv s) (hs : s.undefined = false)
    (hstep : s.stepBody L i = some s') : s'.undefined = false := by
  unfold State.stepBody at hstep
  split at hstep
  · split at hstep
    · next hworker =>
        rcases Option.map_eq_some_iff.mp hstep with ⟨b, _, rfl⟩
        rw [State.guard_undefined (by exact hs), h.alive fun hd => by
          cases hworker.symm.trans (h.joined (by rw [hd]; rfl))]
        rfl
    · cases hstep
  · rcases Option.map_eq_some_iff.mp hstep with ⟨b, _, rfl⟩
    exact hs

/-- What the thread does is defined as long as it is timely. -/
theorem Inv.worker_undefined_iff (h : Inv s) (hs : s.undefined = false)
    (hstep : s.stepWorker L = some s') :
    s'.undefined = false ↔ (s.worker = .switch → s.owner.lacks .cate_ = false) ∧
      (s.worker = .enter → s.cate_.made = true) := by
  have halive : s.worker ≠ .ended → s.alive = true := fun hne =>
    h.alive fun hd => hne (h.joined (by rw [hd]; rfl))
  have hlacks := h.lacks_eq_false
  cases hworker : s.worker with
  | switch =>
      simp only [State.stepWorker, hworker] at hstep
      cases hstep
      rw [State.guard_undefined (by exact hs), Bool.not_not]
      simp
  | publish =>
      simp only [State.stepWorker, hworker] at hstep
      cases hstep
      rw [State.guard_undefined (by exact hs), hlacks (by simp [hworker])]
      simp
  | getRun =>
      simp only [State.stepWorker, hworker, hlacks (by simp [hworker])] at hstep
      rcases Option.ite_none_right_eq_some.mp hstep with ⟨_, hstep⟩
      cases hstep
      simp [hs]
  | enter =>
      simp only [State.stepWorker, hworker] at hstep
      cases hstep
      rw [State.guard_undefined (by exact hs), halive (by simp [hworker]), h.loopComp, h.looping,
        hworker]
      simp [Worker.holds, Worker.looping]
  | reset =>
      simp only [State.stepWorker, hworker] at hstep
      cases hstep
      rw [State.guard_undefined (by exact hs), halive (by simp [hworker])]
      simp
  | check =>
      simp only [State.stepWorker, hworker] at hstep
      cases hstep
      rw [State.guard_undefined (by exact hs), halive (by simp [hworker])]
      simp
  | body => simp only [State.stepWorker, hworker] at hstep; cases hstep
  | cleanup =>
      simp only [State.stepWorker, hworker] at hstep
      cases hstep
      rw [State.guard_undefined (by exact hs), halive (by simp [hworker])]
      simp
  | clear =>
      simp only [State.stepWorker, hworker, hlacks (by simp [hworker])] at hstep
      simp [(State.drop_undefined hstep).trans hs]
  | exit =>
      simp only [State.stepWorker, hworker] at hstep
      simp [(State.drop_undefined hstep).trans hs]
  | ended => simp only [State.stepWorker, hworker] at hstep; cases hstep

theorem State.guard_misused {ok : Bool} {t : State β} (ht : t.misused = s.misused) :
    (s.guard ok t).misused = s.misused := by
  cases ok with
  | true => exact ht
  | false => rfl

theorem State.drop_misused {ref inLoop : Bool} (hdrop : s.drop L ref inLoop = some s') :
    s'.misused = s.misused := by
  unfold State.drop at hdrop
  split at hdrop
  · rcases Option.ite_none_left_eq_some.mp hdrop with ⟨_, hdrop⟩
    cases hdrop
    rfl
  · cases hdrop
    rfl

theorem State.run_misused : s.run.misused = s.misused := by
  unfold State.run
  split <;> rfl

/-- The owner is no other user of the component. -/
theorem stepOwner_misused (hstep : s.stepOwner L = some s') : s'.misused = s.misused := by
  unfold State.stepOwner at hstep
  split at hstep
  case h_3 =>
    split at hstep
    · cases hstep
      rfl
    · cases hstep
  case h_5 =>
    cases hstep
    exact State.run_misused
  case h_7 =>
    cases hstep
    exact State.guard_misused rfl
  case h_8 =>
    cases hstep
    exact State.guard_misused rfl
  case h_9 =>
    rcases Option.ite_none_right_eq_some.mp hstep with ⟨_, hstep⟩
    cases hstep
    rfl
  case h_10 => exact (State.drop_misused hstep).trans rfl
  all_goals
    cases hstep
    try rfl

/-- Nor is the thread. -/
theorem stepWorker_misused (hstep : s.stepWorker L = some s') : s'.misused = s.misused := by
  unfold State.stepWorker at hstep
  split at hstep
  case h_3 =>
    split at hstep
    · cases hstep
      rfl
    · rcases Option.ite_none_right_eq_some.mp hstep with ⟨_, hstep⟩
      cases hstep
      rfl
  case h_9 =>
    split at hstep
    · cases hstep
      rfl
    · exact (State.drop_misused hstep).trans rfl
  case h_10 => exact (State.drop_misused hstep).trans rfl
  all_goals
    cases hstep
    try exact State.guard_misused rfl

theorem stepBody_misused {i : ι} (hstep : s.stepBody L i = some s') :
    s'.misused = (s.misused || (!L.own i && !s.there)) := by
  unfold State.stepBody at hstep
  split at hstep
  · next hown =>
      split at hstep
      · rcases Option.map_eq_some_iff.mp hstep with ⟨b, _, rfl⟩
        rw [State.guard_misused (by rfl), hown]
        simp
      · cases hstep
  · next hown =>
      rcases Option.map_eq_some_iff.mp hstep with ⟨b, _, rfl⟩
      rw [Bool.not_eq_true] at hown
      simp [hown]

/-- A step is defined exactly when it is timely. -/
theorem Inv.defined_iff {a : Action ι} (h : Inv s) (hs : s.Defined)
    (hstep : CompStarter.step L s a = some s') : s'.Defined ↔ Timely L s a := by
  rcases hs with ⟨hs, hgood⟩
  unfold CompStarter.step at hstep
  rw [hs, if_neg Bool.false_ne_true] at hstep
  cases a with
  | owner =>
      refine iff_of_true ⟨h.owner_undefined hs hstep, ?_⟩ trivial
      exact (stepOwner_misused hstep).trans hgood
  | run =>
      rcases Option.ite_none_right_eq_some.mp hstep with ⟨_, hstep⟩
      cases hstep
      refine iff_of_true ⟨?_, State.run_misused.trans hgood⟩ trivial
      unfold State.run
      split <;> exact hs
  | destroy =>
      rcases Option.ite_none_right_eq_some.mp hstep with ⟨_, hstep⟩
      cases hstep
      exact iff_of_true ⟨rfl, hgood⟩ trivial
  | worker =>
      have hkeep := (stepWorker_misused hstep).trans hgood
      exact (and_iff_left hkeep).trans (h.worker_undefined_iff hs hstep)
  | body i =>
      have hmisused := stepBody_misused hstep
      rw [hgood, Bool.false_or] at hmisused
      rw [State.Defined, and_iff_right (h.body_undefined hs hstep), hmisused, Timely]
      cases L.own i <;> simp

/-- What is not defined stays so. -/
theorem not_defined_step {a : Action ι} (hs : ¬ s.Defined)
    (hstep : CompStarter.step L s a = some s') : ¬ s'.Defined := by
  unfold CompStarter.step at hstep
  split at hstep
  · cases hstep
  · next hundef =>
      rw [Bool.not_eq_true] at hundef
      have hmisused : s.misused = true := by
        by_contra hgood
        exact hs ⟨hundef, by simpa using hgood⟩
      have hkeep : s'.misused = true := by
        cases a with
        | owner => exact (stepOwner_misused hstep).trans hmisused
        | run =>
            rcases Option.ite_none_right_eq_some.mp hstep with ⟨_, hstep⟩
            cases hstep
            exact State.run_misused.trans hmisused
        | destroy =>
            rcases Option.ite_none_right_eq_some.mp hstep with ⟨_, hstep⟩
            cases hstep
            exact hmisused
        | worker => exact (stepWorker_misused hstep).trans hmisused
        | body i => rw [stepBody_misused hstep, hmisused, Bool.true_or]
      intro hdefined
      cases hkeep.symm.trans hdefined.2

/-- In a run nothing is used that is not there exactly when the thread reads {lit}`cate_` only behind the
step of the constructor that initializes it, and enters the loop only of a component that it has made,
and others use the component only when it has been made and not been destroyed.  No lock orders the
read and the initialization, so that for C++ they race even then. -/
theorem starter_defined_iff (cate : COMP_CATE) {as : List (Action ι)}
    (hrun : (machine L).run (.construct L cate) as = some s) :
    s.Defined ↔ (machine L).Along (Timely L) (.construct L cate) as := by
  constructor
  · intro hgood
    refine Machine.along_of_not_doomed (I := Inv) (D := fun s => ¬ s.Defined)
      (fun _ _ _ h hstep => h.step hstep) ?_ (fun _ _ _ _ hs hstep => not_defined_step hs hstep)
      (.construct cate) hrun (not_not.mpr hgood)
    intro s a s' h hnot hstep
    by_cases hs : s.Defined
    · exact mt (h.defined_iff hs hstep).mp hnot
    · exact not_defined_step hs hstep
  · intro halong
    have hkept := Machine.Along.run (I := fun s => Inv s ∧ s.Defined)
      (fun _ _ _ h hok hstep => ⟨h.1.step hstep, (h.1.defined_iff h.2 hstep).mpr hok⟩)
      ⟨.construct cate, rfl, rfl⟩ halong hrun
    exact hkept.2

end Kept

/-- {lit}`CPU::loop` without a {lit}`scheCB_`. -/
def spin : Component Unit Unit where
  init := ()
  step _ _ := some ()
  own _ := true
  ends _ _ := true
  wakeUp _ := ()

/-- A thread that is faster than the constructor reads {lit}`cate_` too early. -/
theorem starter_defined_iff_early : ∃ as : List (Action Unit),
    ((machine spin).run (.construct spin .COMP_CPU) as).map State.undefined = some true ∧
      ¬ (machine spin).Along (Timely spin) (.construct spin .COMP_CPU) as := by
  have hrun : ((machine spin).run (.construct spin .COMP_CPU) [.owner, .worker]).map
      State.undefined = some true := rfl
  rcases Option.map_eq_some_iff.mp hrun with ⟨s, hs, hundef⟩
  refine ⟨_, hrun, fun halong => ?_⟩
  rw [((starter_defined_iff .COMP_CPU hs).mpr halong).1] at hundef
  cases hundef

section Sound

variable {L} {s : State β}

/-! ## What the starter guarantees -/

variable (s) in
/-- {lit}`run` gates the loop, {lit}`getComp` hands out the component until its loop has been left, and the
component is destroyed once, by the destructor and behind the join: nobody else calls {lit}`quit`, and nobody
calls {lit}`wait`. -/
structure State.Sound : Prop where
  gated : s.worker.running = true → s.once_ = true
  runOnce : s.promiseForRun_ ≤ 1
  getComp : s.owner.made = true →
    (s.comp_ = true ↔ s.cate_.made = true ∧ s.worker.cleared = false)
  alive : s.worker.holds = true ∨ s.owner.holds = true → s.destroyed = 0
  destroyed : s.destroyed = (s.cate_.made && s.owner = .destroyed).toNat
  returned : s.owner = .destroyed → s.worker = .ended ∧ s.looping_ = false ∧ s.held = false

/-- Every reachable state is sound. -/
theorem starter_sound (hs : (machine L).Reachable s) : s.Sound := by
  have h := inductive_inv.reachable hs
  refine ⟨h.running, ?_, ?_, ?_, h.destroyed, ?_⟩
  · rw [h.promiseForRun_]
    exact Bool.toNat_le _
  · intro hmade
    simp [h.comp_, hmade]
  · intro hholds
    have hne : s.owner ≠ .destroyed := by
      intro hd
      have hended := h.joined (by rw [hd]; rfl)
      simp [hd, hended, Worker.holds, Owner.holds] at hholds
    simp [h.destroyed, hne]
  · intro hd
    have hended := h.joined (by rw [hd]; rfl)
    refine ⟨hended, by rw [h.looping, hended]; rfl, ?_⟩
    simp [State.held, h.comp_, h.comp, h.loopComp, h.promiseForCompPtr_, hd, hended,
      Worker.cleared, Owner.holds, Worker.holds, Owner.made, Worker.published]

end Sound

/-- The thread is started, run, and destroyed within a pass of the loop. -/
def lifetime : List (Action Unit) :=
  -- the constructor up to its wait for the component
  [.owner, .owner, .owner, .owner, .worker, .worker, .owner,
    -- run, and the loop up to its first pass
    .run, .worker, .worker, .worker, .worker,
    -- the destructor up to its join, and the rest of the pass
    .destroy, .owner, .owner, .owner, .owner, .body (),
    -- the loop is left, and the thread ends
    .worker, .worker, .worker, .worker, .owner, .owner]

theorem starter_sound_lifetime :
    ∃ s, (machine spin).run (.construct spin .COMP_CPU) lifetime = some s ∧
      s.owner = .destroyed ∧ s.Sound := by
  refine ⟨_, rfl, rfl, starter_sound (L := spin) ⟨_, lifetime, ⟨.COMP_CPU, rfl⟩, rfl⟩⟩

end CompStarter
end CoEpoll
