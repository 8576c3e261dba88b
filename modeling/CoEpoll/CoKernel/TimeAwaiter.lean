import CoEpoll.CoKernel.Irq.TimeWQ.Arming
import CoEpoll.Transition.Custody

/-!
# `TimeAwaiter`: from `sleep_for` to the resumption

A coroutine that sleeps has put a function into the queue of the ICU.  This adds its item to the
{lit}`TimeWQ`; when the item is due {lit}`wakeup` yields its handle, {lit}`wakeCB_` puts this into the ready queue,
and a CPU thread takes and resumes it.  The calls on the {lit}`TimeWQ` and on its timerfd are those of the
machine of {lit}`TimeWQ`; the queue of the ICU and the ready queue are taken as atomic.  The rest of
{lit}`ICU::loop` is left out: nothing is said of when the ICU comes to its queue.

Main results:

- Theorem {lit}`Inv.step`: every coroutine that sleeps is in one place, and is not yielded early.
- Theorem {lit}`sleep_sound`: nobody is resumed early, twice or without sleeping, and nobody is lost.
-/

namespace CoEpoll
namespace TimeAwaiter

open Transition Irq

/-- A resumption of {lit}`k`, which has slept until {lit}`deadline`. -/
structure Woken (κ : Type*) where
  k : κ
  deadline : Int
  clock : Int

/-- The timers of the ICU with the clock, the functions of the {lit}`TimeAwaiter`s in the queue of the ICU,
the handle that {lit}`wakeup` has yielded, the ready queue and the CPU threads with what they are about
to resume; {lit}`deadline` tells until when a coroutine sleeps, {lit}`log` are the resumptions, and {lit}`spurious`
counts those of coroutines that did not sleep. -/
structure State (κ τ : Type*) where
  timer : TimeWQ.State Nat κ Unit
  funcs_ : List (κ × Int)
  count : Nat
  hand : Option κ
  readyRo_ : List κ
  thread : τ → Option κ
  deadline : κ → Option Int
  log : List (Woken κ)
  spurious : Nat

variable {κ τ : Type*}

/-- Nobody sleeps. -/
def State.construct (clock : Int) : State κ τ where
  timer := .construct clock
  funcs_ := []
  count := 0
  hand := none
  readyRo_ := []
  thread := fun _ => none
  deadline := fun _ => none
  log := []
  spurious := 0

inductive Action (κ τ : Type*) where
  /-- {lit}`co_await waitTime(point)` -/
  | waitTime (k : κ) (point : Int)
  /-- {lit}`co_await sleep_for(rtime)`, in nanoseconds. -/
  | sleep_for (k : κ) (rtime : Int)
  /-- The ICU runs the next function of its queue. -/
  | func
  /-- {lit}`wakeup` is called. -/
  | wakeup
  /-- The call on the {lit}`TimeWQ` goes on. -/
  | go
  /-- {lit}`n` nanoseconds pass. -/
  | tick (n : Nat)
  /-- The timer expires. -/
  | expire
  /-- {lit}`wakeCB_` is called with the handle that has been yielded. -/
  | wakeCB_
  /-- A CPU thread takes the next handle. -/
  | dequeue (t : τ)
  /-- It resumes this. -/
  | resume (t : τ)

/-- The function of a {lit}`TimeAwaiter`, with its {lit}`it->h_ = h`. -/
def item (node : Nat) (entry : κ × Int) : TimeItem Nat Int κ Unit :=
  ⟨node, some entry.1, none, entry.2⟩

/-- What {lit}`wakeup` yields in its next step. -/
def yielded (timer : TimeWQ.State Nat κ Unit) : Option κ :=
  match timer.pc with
  | .loop now =>
      match timer.wq.turn now with
      | .expire item => item.h_
      | _ => none
  | _ => none

/-- A step of the {lit}`TimeWQ`. -/
def State.onTimer (s : State κ τ) (a : TimeWQ.Action Nat κ Unit) : Option (State κ τ) :=
  (TimeWQ.step s.timer a).map fun timer => { s with timer := timer }

section Step

variable [DecidableEq κ] [DecidableEq τ]

/-- {lit}`TimeAwaiter::await_suspend` -/
def waitTime (s : State κ τ) (k : κ) (point : Int) : Option (State κ τ) :=
  match s.deadline k with
  | none =>
      some { s with
        funcs_ := s.funcs_ ++ [(k, point)]
        deadline := Function.update s.deadline k (some point) }
  | some _ => none

/-- {lit}`sleep_for`: the time point that {lit}`sleep_util` is called with; nobody sleeps for a time that is
not positive. -/
def sleep_for (s : State κ τ) (k : κ) (rtime : Int) : Option (State κ τ) :=
  if rtime > 0 then waitTime s k (s.timer.clock + rtime.tdiv 1000 * 1000) else some s

/-- {lit}`h.resume()` -/
def resume (s : State κ τ) (t : τ) : Option (State κ τ) :=
  match s.thread t with
  | none => none
  | some k =>
      let s := { s with thread := Function.update s.thread t none }
      match s.deadline k with
      | some deadline =>
          some { s with
            deadline := Function.update s.deadline k none
            log := s.log ++ [⟨k, deadline, s.timer.clock⟩] }
      | none => some { s with spurious := s.spurious + 1 }

/-- One step. -/
def step (s : State κ τ) : Action κ τ → Option (State κ τ)
  | .waitTime k point => waitTime s k point
  | .sleep_for k rtime => sleep_for s k rtime
  | .func =>
      match s.funcs_ with
      | [] => none
      | entry :: funcs =>
          { s with funcs_ := funcs, count := s.count + 1 }.onTimer (.addWait (item s.count entry))
  | .wakeup => s.onTimer .wakeup
  | .go =>
      match s.hand with
      | none => { s with hand := yielded s.timer }.onTimer .go
      | some _ => none
  | .tick n => s.onTimer (.tick n)
  | .expire => s.onTimer .expire
  | .wakeCB_ =>
      match s.hand with
      | none => none
      | some h => some { s with hand := none, readyRo_ := s.readyRo_ ++ [h] }
  | .dequeue t =>
      match s.thread t, s.readyRo_ with
      | none, h :: rest =>
          some { s with thread := Function.update s.thread t (some h), readyRo_ := rest }
      | _, _ => none
  | .resume t => resume s t

/-- Any number of sleeping coroutines and CPU threads under any interleaving. -/
def machine : Machine (State κ τ) (Action κ τ) where
  init s := ∃ clock, s = State.construct clock
  step := step

end Step

/-! ## The items of the `TimeWQ` -/

/-- The item that a call of {lit}`addWait` is about to emplace. -/
def next : TimeWQ.Pc Nat κ Unit → Option (TimeItem Nat Int κ Unit)
  | .reset _ next => next
  | .settime _ _ next => next
  | _ => none

/-- The items of a {lit}`TimeWQ`, the one that is being added among them. -/
def items (timer : TimeWQ.State Nat κ Unit) : List (TimeItem Nat Int κ Unit) :=
  (next timer.pc).toList ++ timer.wq.items_

/-- The {lit}`now` that a call of {lit}`wakeup` has read. -/
def sampled : TimeWQ.Pc Nat κ Unit → Option Int
  | .read now => some now
  | .loop now => some now
  | _ => none

/-- What a step of the {lit}`TimeWQ` does to its items. -/
structure Served (timer timer' : TimeWQ.State Nat κ Unit)
    (added removed : List (TimeItem Nat Int κ Unit)) : Prop where
  items : (removed ++ TimeAwaiter.items timer').Perm (added ++ TimeAwaiter.items timer)
  clock : timer.clock ≤ timer'.clock
  sampled : ∀ now, sampled timer'.pc = some now → sampled timer.pc = some now ∨ now = timer'.clock

variable {timer timer' : TimeWQ.State Nat κ Unit}

/-- {lit}`addWait` adds an item. -/
theorem served_addWait {new : TimeItem Nat Int κ Unit}
    (hstep : TimeWQ.step timer (.addWait new) = some timer') :
    timer.pc = .idle ∧ Served timer timer' [new] [] := by
  simp only [TimeWQ.step] at hstep
  split at hstep
  · rename_i hpc
    refine ⟨hpc, ?_⟩
    split at hstep
    · cases hstep
    · split at hstep <;> cases hstep
      · refine ⟨?_, Int.le_refl _, fun now hnow => by cases hnow⟩
        simp [TimeAwaiter.items, next, hpc]
      · refine ⟨?_, Int.le_refl _, fun now hnow => .inl hnow⟩
        simp only [TimeAwaiter.items, next, hpc, TimeWQ.addWait]
        exact TimeWQ.perm_place _ _
  · cases hstep

/-- {lit}`wakeup` and the clock and the timerfd leave the items as they are. -/
theorem served_other {a : TimeWQ.Action Nat κ Unit}
    (ha : a = .wakeup ∨ (∃ n, a = .tick n) ∨ a = .expire)
    (hstep : TimeWQ.step timer a = some timer') : Served timer timer' [] [] := by
  rcases ha with rfl | ⟨n, rfl⟩ | rfl
  · simp only [TimeWQ.step] at hstep
    split at hstep <;> cases hstep
    rename_i hpc
    refine ⟨?_, Int.le_refl _, fun now hnow => .inr ?_⟩
    · simp [TimeAwaiter.items, next, hpc]
    · cases hnow
      rfl
  · cases hstep
    exact ⟨List.Perm.refl _, by dsimp only; omega, fun now hnow => .inl hnow⟩
  · simp only [TimeWQ.step] at hstep
    split at hstep
    · rcases Option.ite_none_right_eq_some.mp hstep with ⟨_, hstep⟩
      cases hstep
      exact ⟨List.Perm.refl _, Int.le_refl _, fun now hnow => .inl hnow⟩
    · cases hstep

/-- {lit}`wakeup` removes the first item when it is due, and yields its handle. -/
theorem served_go (hstep : TimeWQ.step timer .go = some timer') :
    ∃ removed, Served timer timer' [] removed ∧
      removed.filterMap TimeItem.h_ = (yielded timer).toList ∧
      ∀ item ∈ removed, ∃ now, sampled timer.pc = some now ∧ item.when_ ≤ now := by
  have hnone : (∀ now, timer.pc ≠ .loop now) → yielded timer = none := by
    intro hpc
    unfold yielded
    split
    · rename_i now hloop
      exact absurd hloop (hpc now)
    · rfl
  simp only [TimeWQ.step, TimeWQ.State.go] at hstep
  split at hstep
  · cases hstep
  · rename_i expiration next' hpc
    rcases Option.ite_none_right_eq_some.mp hstep with ⟨_, hstep⟩
    cases hstep
    refine ⟨[], ⟨?_, Int.le_refl _, fun now hnow => by cases hnow⟩, ?_, fun _ h => by cases h⟩
    · simp [TimeAwaiter.items, next, hpc]
    · rw [hnone (by simp [hpc])]
      rfl
  · rename_i value read next' hpc
    cases hstep
    refine ⟨[], ⟨?_, Int.le_refl _, fun now hnow => by cases hnow⟩, ?_, fun _ h => by cases h⟩
    · cases next' with
      | none => simp [TimeAwaiter.items, next, hpc, TimeWQ.State.settime]
      | some item =>
          simp only [TimeAwaiter.items, next, hpc, TimeWQ.State.settime, TimeWQ.addWait,
            Option.toList_some, Option.toList_none, List.nil_append, List.singleton_append]
          exact TimeWQ.perm_place _ _
    · rw [hnone (by simp [hpc])]
      rfl
  · rename_i now hpc
    cases hstep
    refine ⟨[], ⟨?_, Int.le_refl _, fun now' hnow => .inl ?_⟩, ?_, fun _ h => by cases h⟩
    · simp [TimeAwaiter.items, next, hpc]
    · rw [hpc]
      exact hnow
    · rw [hnone (by simp [hpc])]
      rfl
  · rename_i now hpc
    cases hstep
    have hyielded : yielded timer =
        match timer.wq.turn now with
        | .expire item => item.h_
        | _ => none := by
      unfold yielded
      rw [hpc]
    rw [hyielded]
    unfold TimeWQ.State.iterate
    cases hturn : timer.wq.turn now with
    | finish =>
        refine ⟨[], ⟨?_, Int.le_refl _, fun now' hnow => by cases hnow⟩, rfl, fun _ h => by cases h⟩
        simp [TimeAwaiter.items, next, hpc]
    | rearm expiration =>
        refine ⟨[], ⟨?_, Int.le_refl _, fun now' hnow => by cases hnow⟩, rfl, fun _ h => by cases h⟩
        simp [TimeAwaiter.items, next, hpc]
    | expire first =>
        rcases TimeWQ.turn_eq_expire hturn with ⟨rest, hitems⟩
        refine ⟨[first], ⟨?_, Int.le_refl _, fun now' hnow => .inl hnow⟩, ?_, ?_⟩
        · simp [TimeAwaiter.items, next, hpc, hitems]
        · cases hh : first.h_ <;> simp [hh]
        · intro item hitem
          rw [List.mem_singleton.mp hitem, hpc]
          refine ⟨now, rfl, ?_⟩
          unfold TimeWQ.turn at hturn
          rw [hitems] at hturn
          dsimp only at hturn
          split at hturn
          · cases hturn
          · rename_i hle
            cases hturn
            omega

/-! ## Where the coroutines are -/

/-- The handles and time points of the items. -/
def entry (item : TimeItem Nat Int κ Unit) : Option (κ × Int) :=
  item.h_.map fun h => (h, item.when_)

/-- The coroutines that wait for their time, and those that have been yielded. -/
def State.asleep (s : State κ τ) : List (κ × Int) :=
  s.funcs_ ++ (items s.timer).filterMap entry

/-- The coroutines whose time has come. -/
def State.due (s : State κ τ) : List κ :=
  s.hand.toList ++ s.readyRo_

/-- The coroutines that are not with a CPU thread. -/
def State.line (s : State κ τ) : List κ :=
  s.asleep.map Prod.fst ++ s.due

/-- Every coroutine that sleeps is in one place with its own deadline, and where its time has come
its deadline is over. -/
structure Inv (s : State κ τ) : Prop where
  timer : TimeWQ.Inv s.timer
  sampled : ∀ now, sampled s.timer.pc = some now → now ≤ s.timer.clock
  handles : ∀ item ∈ items s.timer, item.h_ ≠ none
  asleep : ∀ k point, (k, point) ∈ s.asleep → s.deadline k = some point
  due : ∀ k, k ∈ s.due ∨ (∃ t, s.thread t = some k) →
    ∃ deadline, s.deadline k = some deadline ∧ deadline ≤ s.timer.clock
  custody : Custody s.line [] s.thread (fun k => s.deadline k ≠ none)
  nodup : s.line.Nodup
  placed : ∀ k, s.deadline k ≠ none → k ∈ s.line ∨ ∃ t, s.thread t = some k
  early : ∀ w ∈ s.log, w.deadline ≤ w.clock
  spurious : s.spurious = 0

theorem inv_construct (clock : Int) : Inv (.construct clock : State κ τ) where
  timer := TimeWQ.inv_construct clock
  sampled now h := by cases h
  handles item h := by cases h
  asleep k point h := by cases h
  due k h := by
    rcases h with h | ⟨t, h⟩
    · cases h
    · cases h
  custody := by
    constructor
    · intro n hn
      cases hn
    · rintro n (hn | hn) <;> cases hn
    · intro t n hn
      cases hn
    · intro t t' n hn
      cases hn
  nodup := List.nodup_nil
  placed k h := absurd rfl h
  early w h := by cases h
  spurious := rfl

variable {s s' : State κ τ}

/-- A step that moves the coroutines along towards the ready queue. -/
theorem Inv.move (h : Inv s) (hthread : s'.thread = s.thread) (hdeadline : s'.deadline = s.deadline)
    (hlog : s'.log = s.log) (hspurious : s'.spurious = s.spurious)
    (hclock : s.timer.clock ≤ s'.timer.clock) (hline : s'.line.Perm s.line)
    (hasleep : ∀ entry ∈ s'.asleep, entry ∈ s.asleep)
    (hdue : ∀ k ∈ s'.due, k ∈ s.due ∨ ∃ point, (k, point) ∈ s.asleep ∧ point ≤ s'.timer.clock)
    (htimer : TimeWQ.Inv s'.timer)
    (hsampled : ∀ now, TimeAwaiter.sampled s'.timer.pc = some now → now ≤ s'.timer.clock)
    (hhandles : ∀ item ∈ items s'.timer, item.h_ ≠ none) : Inv s' where
  timer := htimer
  sampled := hsampled
  handles := hhandles
  asleep k point hmem := by
    rw [hdeadline]
    exact h.asleep k point (hasleep _ hmem)
  due k hk := by
    rw [hdeadline]
    rw [hthread] at hk
    have hold : (k ∈ s.due ∨ ∃ t, s.thread t = some k) ∨
        ∃ point, (k, point) ∈ s.asleep ∧ point ≤ s'.timer.clock := by
      rcases hk with hk | hk
      · exact (hdue k hk).imp_left .inl
      · exact .inl (.inr hk)
    rcases hold with hold | ⟨point, hmem, hle⟩
    · rcases h.due k hold with ⟨deadline, hd, hle⟩
      exact ⟨deadline, hd, Int.le_trans hle hclock⟩
    · exact ⟨point, h.asleep k point hmem, hle⟩
  custody := by
    rw [hthread, hdeadline]
    exact h.custody.congr (fun _ => hline.mem_iff) fun _ => Iff.rfl
  nodup := hline.nodup_iff.mpr h.nodup
  placed k hk := by
    rw [hthread, hline.mem_iff]
    rw [hdeadline] at hk
    exact h.placed k hk
  early := by
    rw [hlog]
    exact h.early
  spurious := hspurious.trans h.spurious

theorem entry_of_mem {item : TimeItem Nat Int κ Unit} (h : Inv s) (hitem : item ∈ items s.timer) :
    ∃ k, item.h_ = some k ∧ entry item = some (k, item.when_) ∧ (k, item.when_) ∈ s.asleep := by
  rcases Option.ne_none_iff_exists'.mp (h.handles item hitem) with ⟨k, hk⟩
  have hentry : entry item = some (k, item.when_) := by
    unfold entry
    rw [hk]
    rfl
  refine ⟨k, hk, hentry, List.mem_append_right _ ?_⟩
  exact List.mem_filterMap.mpr ⟨item, hitem, hentry⟩

/-- A step of the {lit}`TimeWQ` that neither adds nor removes an item. -/
theorem Inv.onTimer (h : Inv s) {a : TimeWQ.Action Nat κ Unit}
    (ha : a = .wakeup ∨ (∃ n, a = .tick n) ∨ a = .expire) (hstep : s.onTimer a = some s') :
    Inv s' := by
  rcases Option.map_eq_some_iff.mp hstep with ⟨timer, htimer, rfl⟩
  have hserved := served_other ha htimer
  have hperm : (items timer).Perm (items s.timer) := hserved.items
  have hasleep : ((items timer).filterMap entry).Perm ((items s.timer).filterMap entry) :=
    hperm.filterMap _
  refine h.move rfl rfl rfl rfl hserved.clock ?_ ?_ ?_ (h.timer.step htimer) ?_ ?_
  · exact ((hasleep.append_left s.funcs_).map _).append_right _
  · intro entry hmem
    exact (hasleep.append_left s.funcs_).mem_iff.mp hmem
  · exact fun k hk => .inl hk
  · intro now hnow
    rcases hserved.sampled now hnow with hold | heq
    · exact Int.le_trans (h.sampled now hold) hserved.clock
    · exact Int.le_of_eq heq
  · intro item hitem
    exact h.handles item (hperm.mem_iff.mp hitem)

/-- The ICU runs a function: its entry goes to the {lit}`TimeWQ`. -/
theorem Inv.func (h : Inv s) {e : κ × Int} {funcs : List (κ × Int)} (hfuncs : s.funcs_ = e :: funcs)
    (hstep : { s with funcs_ := funcs, count := s.count + 1 }.onTimer
      (.addWait (item s.count e)) = some s') : Inv s' := by
  rcases Option.map_eq_some_iff.mp hstep with ⟨timer, htimer, rfl⟩
  rcases served_addWait htimer with ⟨_, hserved⟩
  have hperm : (items timer).Perm (item s.count e :: items s.timer) := hserved.items
  have hasleep : (funcs ++ (items timer).filterMap entry).Perm s.asleep := by
    have hentries := hperm.filterMap entry
    have hnew : entry (item s.count e) = some e := rfl
    rw [List.filterMap_cons_some hnew] at hentries
    refine (hentries.append_left funcs).trans ?_
    rw [State.asleep, hfuncs]
    exact List.perm_middle
  refine h.move rfl rfl rfl rfl hserved.clock ?_ ?_ ?_ (h.timer.step htimer) ?_ ?_
  · exact (hasleep.map _).append_right _
  · intro entry hmem
    exact hasleep.mem_iff.mp hmem
  · exact fun k hk => .inl hk
  · intro now hnow
    rcases hserved.sampled now hnow with hold | heq
    · exact Int.le_trans (h.sampled now hold) hserved.clock
    · exact Int.le_of_eq heq
  · intro i hi
    rcases List.mem_cons.mp (hperm.mem_iff.mp hi) with heq | hmem
    · subst heq
      exact fun h => by cases h
    · exact h.handles i hmem

/-- A step of {lit}`wakeup` or of {lit}`resetTimerfd`: what it yields is due. -/
theorem Inv.go (h : Inv s) (hhand : s.hand = none)
    (hstep : { s with hand := yielded s.timer }.onTimer .go = some s') : Inv s' := by
  rcases Option.map_eq_some_iff.mp hstep with ⟨timer, htimer, rfl⟩
  rcases served_go htimer with ⟨removed, hserved, hyielded, hpast⟩
  have hperm : (removed ++ items timer).Perm (items s.timer) := hserved.items
  have hentries : ((removed ++ items timer).filterMap entry).Perm
      ((items s.timer).filterMap entry) := hperm.filterMap _
  rw [List.filterMap_append] at hentries
  have hhandles : (removed.filterMap entry).map Prod.fst = (yielded s.timer).toList := by
    rw [← hyielded, List.map_filterMap]
    congr 1
    funext item
    unfold entry
    cases item.h_ <;> rfl
  have hmem : ∀ item ∈ removed, item ∈ items s.timer := fun item hitem =>
    hperm.mem_iff.mp (List.mem_append_left _ hitem)
  refine h.move rfl rfl rfl rfl hserved.clock ?_ ?_ ?_ (h.timer.step htimer) ?_ ?_
  · unfold State.line State.due State.asleep
    dsimp only
    rw [hhand, ← hhandles, Option.toList_none, List.nil_append, ← List.append_assoc,
      ← List.map_append]
    apply List.Perm.append_right
    apply List.Perm.map
    rw [List.append_assoc]
    exact ((List.perm_append_comm).trans hentries).append_left _
  · intro entry' hentry
    rcases List.mem_append.mp hentry with hentry | hentry
    · exact List.mem_append_left _ hentry
    · exact List.mem_append_right _ (hentries.mem_iff.mp (List.mem_append_right _ hentry))
  · intro k hk
    unfold State.due at hk
    dsimp only at hk
    rcases List.mem_append.mp hk with hk | hk
    · rw [← hyielded] at hk
      rcases List.mem_filterMap.mp hk with ⟨item, hitem, hh⟩
      rcases entry_of_mem h (hmem item hitem) with ⟨k', hk', _, hasleep⟩
      cases hk'.symm.trans hh
      rcases hpast item hitem with ⟨now, hnow, hle⟩
      refine .inr ⟨item.when_, hasleep, ?_⟩
      exact Int.le_trans hle (Int.le_trans (h.sampled now hnow) hserved.clock)
    · exact .inl (List.mem_append_right _ hk)
  · intro now hnow
    rcases hserved.sampled now hnow with hold | heq
    · exact Int.le_trans (h.sampled now hold) hserved.clock
    · exact Int.le_of_eq heq
  · intro item hitem
    exact h.handles item (hperm.mem_iff.mp (List.mem_append_right _ hitem))

/-- {lit}`wakeUpReady` puts the handle into the ready queue. -/
theorem Inv.wakeCB_ (h : Inv s) {k : κ} (hhand : s.hand = some k) :
    Inv { s with hand := none, readyRo_ := s.readyRo_ ++ [k] } := by
  have hdue : (s.readyRo_ ++ [k]).Perm s.due := by
    rw [State.due, hhand]
    exact List.perm_append_singleton _ _
  exact h.move rfl rfl rfl rfl (Int.le_refl _) (hdue.append_left _) (fun _ hmem => hmem)
    (fun j hj => .inl (hdue.mem_iff.mp hj)) h.timer h.sampled h.handles

variable [DecidableEq κ]

/-- A coroutine goes to sleep. -/
theorem Inv.waitTime (h : Inv s) {k : κ} {point : Int} (hstep : waitTime s k point = some s') :
    Inv s' := by
  unfold TimeAwaiter.waitTime at hstep
  split at hstep <;> cases hstep
  rename_i hawake
  have hfree : k ∉ s.line := fun hmem => h.custody.bound k (.inl hmem) hawake
  have hasleep : (s.funcs_ ++ [(k, point)] ++ (items s.timer).filterMap entry).Perm
      ((k, point) :: s.asleep) := by
    rw [List.append_assoc]
    exact List.perm_middle
  have hline : ((s.funcs_ ++ [(k, point)] ++ (items s.timer).filterMap entry).map Prod.fst ++
      s.due).Perm (k :: s.line) := (hasleep.map _).append_right _
  have hother : ∀ j, j ≠ k → Function.update s.deadline k (some point) j = s.deadline j :=
    fun j hj => Function.update_of_ne hj _ _
  have hmade : ∀ j, (s.deadline j ≠ none ∨ j = k) ↔
      Function.update s.deadline k (some point) j ≠ none := by
    intro j
    by_cases hj : j = k
    · subst hj
      rw [Function.update_self]
      exact ⟨fun _ h => (by cases h), fun _ => .inr rfl⟩
    · rw [hother j hj]
      exact or_iff_left hj
  refine ⟨h.timer, h.sampled, h.handles, ?_, ?_, ?_, ?_, ?_, h.early, h.spurious⟩
  · intro j q hmem
    rcases List.mem_cons.mp (hasleep.mem_iff.mp hmem) with heq | hmem
    · cases heq
      exact Function.update_self _ _ _
    · have hold := h.asleep j q hmem
      have hj : j ≠ k := by
        rintro rfl
        cases hawake.symm.trans hold
      exact (hother j hj).trans hold
  · intro j hj
    rcases h.due j hj with ⟨deadline, hdeadline, hle⟩
    have hne : j ≠ k := by
      rintro rfl
      cases hawake.symm.trans hdeadline
    exact ⟨deadline, (hother j hne).trans hdeadline, hle⟩
  · exact (h.custody.enter (not_not.mpr hawake)).congr (fun _ => hline.mem_iff) hmade
  · exact hline.nodup_iff.mpr (List.nodup_cons.mpr ⟨hfree, h.nodup⟩)
  · intro j hj
    rcases (hmade j).mpr hj with hold | rfl
    · rcases h.placed j hold with hmem | hthread
      · exact .inl (hline.mem_iff.mpr (List.mem_cons_of_mem _ hmem))
      · exact .inr hthread
    · exact .inl (hline.mem_iff.mpr List.mem_cons_self)

variable [DecidableEq τ]

omit [DecidableEq κ] in
/-- A CPU thread takes the next handle. -/
theorem Inv.dequeue (h : Inv s) {t : τ} {k : κ} {rest : List κ} (hfree : s.thread t = none)
    (hready : s.readyRo_ = k :: rest) :
    Inv { s with thread := Function.update s.thread t (some k), readyRo_ := rest } := by
  have hdue : s.due.Perm (k :: (s.hand.toList ++ rest)) := by
    rw [State.due, hready]
    exact List.perm_middle
  have hline : s.line.Perm (k :: (s.asleep.map Prod.fst ++ (s.hand.toList ++ rest))) :=
    (hdue.append_left _).trans List.perm_middle
  have hk : k ∈ s.line := hline.mem_iff.mpr List.mem_cons_self
  have hnodup := List.nodup_cons.mp (hline.nodup_iff.mp h.nodup)
  refine ⟨h.timer, h.sampled, h.handles, h.asleep, ?_, ?_, hnodup.2, ?_, h.early, h.spurious⟩
  · intro j hj
    apply h.due j
    rcases hj with hj | ⟨u, hu⟩
    · exact .inl (hdue.mem_iff.mpr (List.mem_cons_of_mem _ hj))
    · by_cases hut : u = t
      · subst hut
        dsimp only at hu
        rw [Function.update_self] at hu
        cases hu
        exact .inl (hdue.mem_iff.mpr List.mem_cons_self)
      · dsimp only at hu
        rw [Function.update_of_ne hut] at hu
        exact .inr ⟨u, hu⟩
  · refine h.custody.take hk fun n hn => ⟨?_, .inl (hline.mem_iff.mpr (List.mem_cons_of_mem _ hn))⟩
    rintro rfl
    exact hnodup.1 hn
  · intro j hj
    rcases h.placed j hj with hmem | ⟨u, hu⟩
    · rcases List.mem_cons.mp (hline.mem_iff.mp hmem) with rfl | hmem
      · exact .inr ⟨t, Function.update_self _ _ _⟩
      · exact .inl hmem
    · have hut : u ≠ t := by
        rintro rfl
        cases hfree.symm.trans hu
      exact .inr ⟨u, (Function.update_of_ne hut _ _).trans hu⟩

/-- A CPU thread resumes a coroutine, which sleeps and whose time has come. -/
theorem Inv.resume (h : Inv s) {t : τ} (hstep : resume s t = some s') : Inv s' := by
  unfold TimeAwaiter.resume at hstep
  split at hstep
  · cases hstep
  · rename_i k hthread
    rcases h.due k (.inr ⟨t, hthread⟩) with ⟨deadline, hdeadline, hle⟩
    dsimp only at hstep
    rw [hdeadline] at hstep
    cases hstep
    have hgone := h.custody.owned t k hthread
    have hother : ∀ j, j ≠ k → Function.update s.deadline k none j = s.deadline j :=
      fun j hj => Function.update_of_ne hj _ _
    have hmade : ∀ j, (s.deadline j ≠ none ∧ j ≠ k) ↔ Function.update s.deadline k none j ≠ none := by
      intro j
      by_cases hj : j = k
      · subst hj
        rw [Function.update_self]
        exact ⟨fun h => absurd rfl h.2, fun h => absurd rfl h⟩
      · rw [hother j hj]
        exact and_iff_left hj
    have hrest : ∀ j u, Function.update s.thread t none u = some j → u ≠ t ∧ s.thread u = some j := by
      intro j u hu
      by_cases hut : u = t
      · subst hut
        rw [Function.update_self] at hu
        cases hu
      · rw [Function.update_of_ne hut] at hu
        exact ⟨hut, hu⟩
    refine ⟨h.timer, h.sampled, h.handles, ?_, ?_, ?_, h.nodup, ?_, ?_, h.spurious⟩
    · intro j q hmem
      have hj : j ≠ k := by
        rintro rfl
        exact hgone.2.1 (List.mem_append_left _ (List.mem_map_of_mem hmem))
      exact (hother j hj).trans (h.asleep j q hmem)
    · intro j hj
      have hold : j ≠ k ∧ (j ∈ s.due ∨ ∃ u, s.thread u = some j) := by
        rcases hj with hj | ⟨u, hu⟩
        · refine ⟨?_, .inl hj⟩
          rintro rfl
          exact hgone.2.1 (List.mem_append_right _ hj)
        · rcases hrest j u hu with ⟨hut, hu'⟩
          refine ⟨?_, .inr ⟨u, hu'⟩⟩
          rintro rfl
          exact hut (h.custody.alone u t j hu' hthread)
      rcases h.due j hold.2 with ⟨deadline, hdeadline, hle⟩
      exact ⟨deadline, (hother j hold.1).trans hdeadline, hle⟩
    · exact (h.custody.drop hthread).congr (fun _ => Iff.rfl) hmade
    · intro j hj
      rcases (hmade j).mpr hj with ⟨hold, hne⟩
      rcases h.placed j hold with hmem | ⟨u, hu⟩
      · exact .inl hmem
      · have hut : u ≠ t := by
          rintro rfl
          cases hthread.symm.trans hu
          exact hne rfl
        exact .inr ⟨u, (Function.update_of_ne hut _ _).trans hu⟩
    · intro w hw
      rcases List.mem_append.mp hw with hw | hw
      · exact h.early w hw
      · rw [List.mem_singleton.mp hw]
        exact hle

theorem Inv.step {a : Action κ τ} (h : Inv s) (hstep : step s a = some s') : Inv s' := by
  cases a with
  | waitTime k point => exact h.waitTime hstep
  | sleep_for k rtime =>
      simp only [TimeAwaiter.step, sleep_for] at hstep
      split at hstep
      · exact h.waitTime hstep
      · cases hstep
        exact h
  | func =>
      simp only [TimeAwaiter.step] at hstep
      split at hstep
      · cases hstep
      · rename_i e funcs hfuncs
        exact h.func hfuncs hstep
  | wakeup => exact h.onTimer (.inl rfl) hstep
  | go =>
      simp only [TimeAwaiter.step] at hstep
      split at hstep
      · rename_i hhand
        exact h.go hhand hstep
      · cases hstep
  | tick n => exact h.onTimer (.inr (.inl ⟨n, rfl⟩)) hstep
  | expire => exact h.onTimer (.inr (.inr rfl)) hstep
  | wakeCB_ =>
      simp only [TimeAwaiter.step] at hstep
      split at hstep <;> cases hstep
      rename_i k hhand
      exact h.wakeCB_ hhand
  | dequeue t =>
      simp only [TimeAwaiter.step] at hstep
      split at hstep <;> cases hstep
      rename_i k rest hfree hready
      exact h.dequeue hfree hready
  | resume t => exact h.resume hstep

theorem inductive_inv : (machine : Machine (State κ τ) (Action κ τ)).Inductive Inv where
  init := by
    rintro _ ⟨clock, rfl⟩
    exact inv_construct clock
  step _ _ _ h hstep := h.step hstep

/-! ## Whole runs -/

/-- {lit}`k` goes to sleep. -/
def sleeps (k : κ) : Action κ τ → Bool
  | .waitTime j _ => j = k
  | .sleep_for j rtime => j = k ∧ rtime > 0
  | _ => false

/-- How often {lit}`k` has been resumed from a sleep, and the sleep that it is in. -/
def State.slept (s : State κ τ) (k : κ) : Nat :=
  s.log.countP (fun w => w.k = k) + (s.deadline k).isSome.toNat

omit [DecidableEq τ] in
theorem slept_waitTime {k : κ} {point : Int} (hstep : waitTime s k point = some s') (j : κ) :
    s'.slept j = (if k = j then 1 else 0) + s.slept j := by
  unfold waitTime at hstep
  split at hstep <;> cases hstep
  rename_i hawake
  unfold State.slept
  dsimp only
  by_cases hj : k = j
  · subst hj
    rw [if_pos rfl, Function.update_self, hawake, Option.isSome_some, Option.isSome_none,
      Bool.toNat_true, Bool.toNat_false]
    omega
  · rw [if_neg hj, Nat.zero_add, Function.update_of_ne (Ne.symm hj)]

theorem slept_resume {t : τ} (hstep : resume s t = some s') (j : κ) : s'.slept j = s.slept j := by
  unfold resume at hstep
  split at hstep
  · cases hstep
  · rename_i k _
    dsimp only at hstep
    split at hstep <;> cases hstep
    · rename_i deadline hdeadline
      unfold State.slept
      dsimp only
      rw [List.countP_append, List.countP_singleton]
      by_cases hj : k = j
      · subst hj
        rw [Function.update_self, hdeadline, Option.isSome_some, Option.isSome_none,
          Bool.toNat_true, Bool.toNat_false, if_pos (by simp)]
      · rw [if_neg (by simpa using hj), Function.update_of_ne (Ne.symm hj), Nat.add_zero]
    · rfl

/-- Who goes to sleep is resumed once from it, or is asleep. -/
theorem slept_step {a : Action κ τ} (hstep : step s a = some s') (k : κ) :
    s'.slept k = (if sleeps k a then 1 else 0) + s.slept k := by
  have honTimer : ∀ {t t' : State κ τ} {b : TimeWQ.Action Nat κ Unit}, t.onTimer b = some t' →
      t'.log = t.log ∧ t'.deadline = t.deadline := by
    intro t t' b hb
    rcases Option.map_eq_some_iff.mp hb with ⟨timer, _, rfl⟩
    exact ⟨rfl, rfl⟩
  have hkeep : s'.log = s.log → s'.deadline = s.deadline → s'.slept k = 0 + s.slept k := by
    intro hlog hdeadline
    rw [Nat.zero_add, State.slept, hlog, hdeadline, State.slept]
  cases a with
  | waitTime j point =>
      rw [slept_waitTime hstep]
      simp [sleeps]
  | sleep_for j rtime =>
      simp only [step, sleep_for] at hstep
      split at hstep
      · rename_i hpos
        rw [slept_waitTime hstep]
        simp [sleeps, hpos]
      · rename_i hpos
        cases hstep
        simp [sleeps, hpos]
  | func =>
      simp only [step] at hstep
      split at hstep
      · cases hstep
      · exact hkeep (honTimer hstep).1 (honTimer hstep).2
  | wakeup => exact hkeep (honTimer hstep).1 (honTimer hstep).2
  | go =>
      simp only [step] at hstep
      split at hstep
      · exact hkeep (honTimer hstep).1 (honTimer hstep).2
      · cases hstep
  | tick n => exact hkeep (honTimer hstep).1 (honTimer hstep).2
  | expire => exact hkeep (honTimer hstep).1 (honTimer hstep).2
  | wakeCB_ =>
      simp only [step] at hstep
      split at hstep <;> cases hstep
      exact hkeep rfl rfl
  | dequeue t =>
      simp only [step] at hstep
      split at hstep <;> cases hstep
      exact hkeep rfl rfl
  | resume t =>
      rw [slept_resume hstep]
      exact (Nat.zero_add _).symm

/-- Nobody is resumed early or without sleeping.  Who sleeps is in exactly one place: with its own
deadline in the queue of the ICU or in the {lit}`TimeWQ`, or, when this is over, as what {lit}`wakeup` has
yielded, in the ready queue or with one CPU thread.  Between the calls on the {lit}`TimeWQ` the timerfd has
expired and is unread, or for every item it expires within the bound of its last arming. -/
structure Sound (s : State κ τ) : Prop where
  early : ∀ w ∈ s.log, w.deadline ≤ w.clock
  spurious : s.spurious = 0
  placed : ∀ k, s.deadline k ≠ none ↔ k ∈ s.line ∨ ∃ t, s.thread t = some k
  nodup : s.line.Nodup
  alone : ∀ t k, s.thread t = some k → k ∉ s.line ∧ ∀ t', s.thread t' = some k → t' = t
  asleep : ∀ k point, (k, point) ∈ s.asleep → s.deadline k = some point
  due : ∀ k, k ∈ s.due ∨ (∃ t, s.thread t = some k) →
    ∃ deadline, s.deadline k = some deadline ∧ deadline ≤ s.timer.clock
  armed : s.timer.pc = .idle → ∀ item ∈ s.timer.wq.items_, s.timer.unread = true ∨
    ∃ expiry a, s.timer.armed = some expiry ∧ s.timer.last = some a ∧ expiry ≤ a.bound item.when_

omit [DecidableEq κ] [DecidableEq τ] in
theorem Inv.sound (h : Inv s) : Sound s where
  early := h.early
  spurious := h.spurious
  placed k := by
    refine ⟨h.placed k, fun hk => ?_⟩
    rcases hk with hk | ⟨t, ht⟩
    · exact h.custody.bound k (.inl hk)
    · exact (h.custody.owned t k ht).1
  nodup := h.nodup
  alone t k ht := ⟨(h.custody.owned t k ht).2.1, fun t' ht' => h.custody.alone t' t k ht' ht⟩
  asleep := h.asleep
  due := h.due
  armed hpc item hitem := by
    have hcovered := h.timer.pc
    rw [TimeWQ.State.PcOk, hpc] at hcovered
    rcases hcovered (List.ne_nil_of_mem hitem) with hunread | ⟨expiry, a, harmed, hlast, hbound⟩
    · exact .inl hunread
    · exact .inr ⟨expiry, a, harmed, hlast, hbound item hitem⟩

/-- In every run nobody is resumed early, without sleeping or twice from one sleep, and nobody who
sleeps is lost. -/
theorem sleep_sound (clock : Int) {as : List (Action κ τ)} {s : State κ τ}
    (hrun : machine.run (.construct clock) as = some s) :
    Sound s ∧ ∀ k, as.countP (sleeps k) =
      s.log.countP (fun w => w.k = k) + (s.deadline k).isSome.toNat := by
  have hinv : Inv s := inductive_inv.run (inv_construct clock) hrun
  refine ⟨hinv.sound, fun k => ?_⟩
  have hcount := Machine.countP_eq_of_measure (sleeps k) (fun s => s.slept k)
    (fun _ _ _ hstep => slept_step hstep k) hrun
  exact hcount.symm

/-- Two coroutines sleep, the one that sleeps longer first; the other one is resumed. -/
theorem sleep_sound_two :
    ∃ s : State Bool Unit, (s.log.map fun w => (w.k, w.deadline, w.clock)) =
        [(false, 2000000, 2000500)] ∧ s.deadline true = some 5000000 ∧ Sound s := by
  let as : List (Action Bool Unit) :=
    [.waitTime true 5000000, .func, .go, .go, .sleep_for false 2000999, .func, .go, .go,
      .tick 2000000, .expire, .wakeup, .go, .go, .wakeCB_, .go, .go, .go, .dequeue (), .tick 500,
      .resume ()]
  have hrun : (machine.run (.construct 0) as).map
      (fun s => (s.log.map fun w => (w.k, w.deadline, w.clock), s.deadline true)) =
        some ([(false, 2000000, 2000500)], some 5000000) := by
    decide +kernel
  rcases Option.map_eq_some_iff.mp hrun with ⟨s, hs, hat⟩
  simp only [Prod.mk.injEq] at hat
  exact ⟨s, hat.1, hat.2, (sleep_sound 0 hs).1⟩

end TimeAwaiter
end CoEpoll
