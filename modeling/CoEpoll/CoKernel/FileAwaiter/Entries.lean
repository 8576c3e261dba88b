import CoEpoll.CoKernel.FileAwaiter

/-!
# `FileAwaiter`: the entries of the waits

Every entry of the two kinds of {lit}`items_` belongs to a wait that has begun, and the two
callbacks of a wait with a timeout have iterators to each other's entries.

Main results:

- Theorem {lit}`step_cases`: what a step does.
- Theorems {lit}`Typed.walkFile_cases` and {lit}`Typed.walkTimer_cases`: what an iteration of the
  generators does.
- Theorem {lit}`Typed.step`: every step keeps the entries those of waits.
-/

namespace CoEpoll
namespace FileAwaiter

open Transition Irq

variable {ι ω τ : Type*}

/-- Every entry belongs to a wait, and the two callbacks of a wait with a timeout have
iterators to each other's entries. -/
structure Typed (s : State ι ω τ) : Prop where
  file : ∀ fd item, item ∈ (s.wq fd).items_ → ∃ w, item.h_ = some w ∧
    (s.waits w = some (.timed fd) ∧ item.cb_ = some (.timed w) ∨
      s.waits w = some (.untimed fd) ∧ item.cb_ = some .untimed)
  time : ∀ item, item ∈ s.timer.items_ → item.h_ = some item.node ∧
    ((∃ fd, s.waits item.node = some (.timed fd) ∧ item.cb_ = some (fd, item.node)) ∨
      s.waits item.node = some .sleep ∧ item.cb_ = none)
  logs : ∀ w, w ∈ s.fileErased ∨ w ∈ s.timeErased ∨ w ∈ s.yielded → s.waits w ≠ none

variable {s s' : State ι ω τ} {fd : ι} {w h it : ω} {iter : Nat} {r : IoRet}
  {item : WaitItem ω (Callback ω)}

theorem handle_eq (hitem : (s.wq fd).items_[iter]? = some item) (hh : item.h_ = some h) :
    (s.wq fd).handle iter = [h] := by
  rw [FileWQ.handle, hitem, Option.bind_some, hh, Option.toList_some]

variable [DecidableEq ι] [DecidableEq ω]

/-! ## What a step does -/

/-- The steps by their effect. -/
def Steps [LinearOrder τ] (s : State ι ω τ) (a : Action ι ω τ) (s' : State ι ω τ) : Prop :=
  match a with
  | .event fd revents => s' = s.onWQ fd fun q => q.addREvents revents
  | .waitFile fd h events point =>
      s.ge = none ∧ s.waits h = none ∧ s' = s.waitFile fd h events point
  | .waitTime h point => s.ge = none ∧ s.waits h = none ∧ s' = s.waitTime h point
  | .wakeFile fd => s.ge = none ∧ s' = { s with ge := some (.file fd 0) }
  | .wakeTimer now => s.ge = none ∧ s' = { s with ge := some (.timer now) }
  | .walk r =>
      (∃ fd iter, s.ge = some (.file fd iter) ∧ s' = s.walkFile fd iter r) ∨
        ∃ now, s.ge = some (.timer now) ∧ s' = s.walkTimer now

theorem step_cases [LinearOrder τ] {a : Action ι ω τ} (hstep : step s a = some s') :
    Steps s a s' := by
  cases a with
  | event fd revents =>
      cases hstep
      rfl
  | waitFile fd h events point =>
      rcases Option.ite_none_right_eq_some.mp hstep with ⟨hidle, hstep⟩
      cases hstep
      exact ⟨hidle.1, hidle.2, rfl⟩
  | waitTime h point =>
      rcases Option.ite_none_right_eq_some.mp hstep with ⟨hidle, hstep⟩
      cases hstep
      exact ⟨hidle.1, hidle.2, rfl⟩
  | wakeFile fd =>
      rcases Option.ite_none_right_eq_some.mp hstep with ⟨hidle, hstep⟩
      cases hstep
      exact ⟨hidle, rfl⟩
  | wakeTimer now =>
      rcases Option.ite_none_right_eq_some.mp hstep with ⟨hidle, hstep⟩
      cases hstep
      exact ⟨hidle, rfl⟩
  | walk r =>
      simp only [step] at hstep
      split at hstep <;> cases hstep
      · rename_i hge
        exact .inl ⟨_, _, hge, rfl⟩
      · rename_i hge
        exact .inr ⟨_, hge, rfl⟩

/-! ## What an iteration does -/

/-- An iteration of {lit}`FileWQ::wakeup` moves on, or it calls the callback of a wait. -/
theorem Typed.walkFile_cases (ht : Typed s) (fd : ι) (iter : Nat) (r : IoRet) :
    ((∃ ge, s.walkFile fd iter r = { s with ge := ge }) ∧
        ∀ events cb, (s.wq fd).turn iter ≠ .call events cb) ∨
      ∃ item h events, (s.wq fd).items_[iter]? = some item ∧ item.h_ = some h ∧
        (s.waits h = some (.timed fd) ∧ (s.wq fd).turn iter = .call events (.timed h) ∧
            s.walkFile fd iter r = (s.delTimer h).settle fd iter r ∨
          s.waits h = some (.untimed fd) ∧ (s.wq fd).turn iter = .call events .untimed ∧
            s.walkFile fd iter r = s.settle fd iter r) := by
  unfold State.walkFile
  cases hturn : (s.wq fd).turn iter with
  | finish => exact .inl ⟨⟨_, rfl⟩, nofun⟩
  | next => exact .inl ⟨⟨_, rfl⟩, nofun⟩
  | erase =>
      rcases FileWQ.turn_eq_erase hturn with ⟨item, hitem, hcb⟩
      rcases ht.file fd item (List.mem_of_getElem? hitem) with ⟨h, _, hcase⟩
      rcases hcase with ⟨_, hcb'⟩ | ⟨_, hcb'⟩ <;> exact absurd (hcb.symm.trans hcb') nofun
  | call events cb =>
      right
      rcases FileWQ.turn_eq_call hturn with ⟨item, hitem, hcb, _⟩
      rcases ht.file fd item (List.mem_of_getElem? hitem) with ⟨h, hh, hcase⟩
      refine ⟨item, h, events, hitem, hh, ?_⟩
      rcases hcase with ⟨hwait, hcb'⟩ | ⟨hwait, hcb'⟩
      · cases hcb.symm.trans hcb'
        exact .inl ⟨hwait, rfl, rfl⟩
      · cases hcb.symm.trans hcb'
        exact .inr ⟨hwait, rfl, rfl⟩

/-- An iteration of {lit}`TimeWQ::wakeup` ends it, or it expires the first timer. -/
theorem Typed.walkTimer_cases [LinearOrder τ] (ht : Typed s) (now : τ) :
    s.walkTimer now = { s with ge := none } ∨
      ∃ item items, s.timer.items_ = item :: items ∧ item.h_ = some item.node ∧
        ((∃ fd, s.waits item.node = some (.timed fd) ∧
            s.walkTimer now = (s.delFile fd item.node).pop item) ∨
          s.waits item.node = some .sleep ∧ s.walkTimer now = s.pop item) := by
  unfold State.walkTimer
  cases hturn : s.timer.turn now with
  | finish => exact .inl rfl
  | rearm _ => exact .inl rfl
  | expire item =>
      right
      rcases TimeWQ.turn_eq_expire hturn with ⟨items, hitems⟩
      have hmem : item ∈ s.timer.items_ := hitems ▸ List.mem_cons_self
      rcases ht.time item hmem with ⟨hh, hcase⟩
      refine ⟨item, items, hitems, hh, ?_⟩
      rcases hcase with ⟨fd, hwait, hcb⟩ | ⟨hwait, hcb⟩
      · refine .inl ⟨fd, hwait, ?_⟩
        dsimp only
        rw [hcb]
        rfl
      · refine .inr ⟨hwait, ?_⟩
        dsimp only
        rw [hcb]
        rfl

/-! ## Every entry belongs to a wait -/

omit [DecidableEq ι] [DecidableEq ω] in
theorem typed_construct : Typed (State.construct : State ι ω τ) where
  file _ _ hmem := absurd hmem List.not_mem_nil
  time _ hmem := absurd hmem List.not_mem_nil
  logs _ hmem := by
    rcases hmem with hmem | hmem | hmem <;> exact absurd hmem List.not_mem_nil

omit [DecidableEq ι] [DecidableEq ω] in
/-- A step that only erases entries of waits. -/
theorem Typed.of_subset (ht : Typed s) (hwaits : s'.waits = s.waits)
    (hfile : ∀ fd item, item ∈ (s'.wq fd).items_ → item ∈ (s.wq fd).items_)
    (htime : ∀ item, item ∈ s'.timer.items_ → item ∈ s.timer.items_)
    (hlogs : ∀ w, w ∈ s'.fileErased ∨ w ∈ s'.timeErased ∨ w ∈ s'.yielded →
      (w ∈ s.fileErased ∨ w ∈ s.timeErased ∨ w ∈ s.yielded) ∨ s.waits w ≠ none) : Typed s' where
  file fd item hmem := hwaits ▸ ht.file fd item (hfile fd item hmem)
  time item hmem := hwaits ▸ ht.time item (htime item hmem)
  logs w hmem := hwaits ▸ (hlogs w hmem).elim (ht.logs w) id

omit [DecidableEq ω] in
theorem settle_wq :
    (s.settle fd iter r).wq = Function.update s.wq fd ((s.wq fd).settle iter r) := by
  unfold State.settle
  split <;> rfl

omit [DecidableEq ω] in
theorem Typed.settle (ht : Typed s) (hitem : (s.wq fd).items_[iter]? = some item)
    (hh : item.h_ = some h) (hwait : s.waits h ≠ none) : Typed (s.settle fd iter r) := by
  refine ht.of_subset ?_ (fun fd' item' hmem => ?_) (fun item' hmem => ?_) fun w hmem => ?_
  · unfold State.settle
    split <;> rfl
  · rw [settle_wq] at hmem
    by_cases hfd : fd' = fd
    · subst hfd
      rw [Function.update_self] at hmem
      exact FileWQ.mem_of_mem_settle hmem
    · rwa [Function.update_of_ne hfd] at hmem
  · unfold State.settle at hmem
    split at hmem <;> exact hmem
  · unfold State.settle at hmem
    split at hmem
    · exact .inl hmem
    · rw [handle_eq hitem hh] at hmem
      simp only [List.mem_append, List.mem_singleton] at hmem
      rcases hmem with (hmem | rfl) | hmem | hmem | rfl
      · exact .inl (.inl hmem)
      · exact .inr hwait
      · exact .inl (.inr (.inl hmem))
      · exact .inl (.inr (.inr hmem))
      · exact .inr hwait

omit [DecidableEq ι] in
theorem Typed.delTimer (ht : Typed s) (hwait : s.waits it ≠ none) : Typed (s.delTimer it) := by
  refine ht.of_subset rfl (fun _ _ => id) (fun item hmem => List.mem_of_mem_filter hmem)
    fun w hmem => ?_
  simp only [State.delTimer, List.mem_append, List.mem_singleton] at hmem
  rcases hmem with hmem | (hmem | rfl) | hmem
  · exact .inl (.inl hmem)
  · exact .inl (.inr (.inl hmem))
  · exact .inr hwait
  · exact .inl (.inr (.inr hmem))

theorem Typed.delFile (ht : Typed s) (hwait : s.waits h ≠ none) (fd : ι) :
    Typed (s.delFile fd h) := by
  refine ht.of_subset rfl (fun fd' item hmem => ?_) (fun _ => id) fun w hmem => ?_
  · dsimp only [State.delFile, State.onWQ] at hmem
    by_cases hfd : fd' = fd
    · subst hfd
      rw [Function.update_self] at hmem
      exact List.mem_of_mem_filter hmem
    · rwa [Function.update_of_ne hfd] at hmem
  · simp only [State.delFile, List.mem_append, List.mem_singleton] at hmem
    rcases hmem with (hmem | rfl) | hmem | hmem
    · exact .inl (.inl hmem)
    · exact .inr hwait
    · exact .inl (.inr (.inl hmem))
    · exact .inl (.inr (.inr hmem))

omit [DecidableEq ι] [DecidableEq ω] in
theorem Typed.pop (ht : Typed s) {item : TimeItem ω τ ω (ι × ω)} (hh : item.h_ = some item.node)
    (hwait : s.waits item.node ≠ none) : Typed (s.pop item) := by
  refine ht.of_subset rfl (fun _ _ => id) (fun _ hmem => List.mem_of_mem_tail hmem)
    fun w hmem => ?_
  simp only [State.pop, hh, Option.toList_some, List.mem_append, List.mem_singleton] at hmem
  rcases hmem with hmem | (hmem | rfl) | hmem | rfl
  · exact .inl (.inl hmem)
  · exact .inl (.inr (.inl hmem))
  · exact .inr hwait
  · exact .inl (.inr (.inr hmem))
  · exact .inr hwait

omit [DecidableEq ι] in
/-- A new wait changes nothing for the others. -/
theorem Typed.waits_of_new {wait wait' : Wait ι} (hnew : s.waits h = none)
    (hw : s.waits w = some wait) : Function.update s.waits h (some wait') w = some wait := by
  have hne : w ≠ h := fun heq => by
    rw [heq, hnew] at hw
    cases hw
  rw [Function.update_of_ne hne]
  exact hw

variable [LinearOrder τ]

omit [DecidableEq ι] [DecidableEq ω] in
theorem mem_addWait {q : TimeWQ ω τ ω (ι × ω)} {item item' : TimeItem ω τ ω (ι × ω)}
    (hmem : item' ∈ (q.addWait item).items_) : item' = item ∨ item' ∈ q.items_ :=
  List.mem_cons.mp ((TimeWQ.perm_place item q.items_).mem_iff.mp hmem)

omit [DecidableEq ι] [LinearOrder τ] in
/-- The entries of the waits before a new one. -/
theorem Typed.of_new (ht : Typed s) (hnew : s.waits h = none) (wait : Wait ι)
    (hwaits : s'.waits = Function.update s.waits h (some wait))
    (hfile : ∀ fd item, item ∈ (s'.wq fd).items_ → item ∈ (s.wq fd).items_ ∨
      item.h_ = some h ∧ (wait = .timed fd ∧ item.cb_ = some (.timed h) ∨
        wait = .untimed fd ∧ item.cb_ = some .untimed))
    (htime : ∀ item, item ∈ s'.timer.items_ → item ∈ s.timer.items_ ∨
      item.node = h ∧ item.h_ = some h ∧
        ((∃ fd, wait = .timed fd ∧ item.cb_ = some (fd, h)) ∨ wait = .sleep ∧ item.cb_ = none))
    (hlogs : s'.fileErased = s.fileErased ∧ s'.timeErased = s.timeErased ∧
      s'.yielded = s.yielded) : Typed s' := by
  have hself : s'.waits h = some wait := by rw [hwaits, Function.update_self]
  have hold : ∀ {w wait'}, s.waits w = some wait' → s'.waits w = some wait' :=
    fun hw => hwaits ▸ Typed.waits_of_new hnew hw
  constructor
  · intro fd item hmem
    rcases hfile fd item hmem with hmem | ⟨hh, hcase⟩
    · rcases ht.file fd item hmem with ⟨w, hw, hcase⟩
      exact ⟨w, hw, hcase.imp (And.imp_left hold) (And.imp_left hold)⟩
    · refine ⟨h, hh, ?_⟩
      rw [hself]
      exact hcase.imp (And.imp_left (congrArg some)) (And.imp_left (congrArg some))
  · intro item hmem
    rcases htime item hmem with hmem | ⟨hnode, hh, hcase⟩
    · rcases ht.time item hmem with ⟨hh, hcase⟩
      refine ⟨hh, hcase.imp ?_ (And.imp_left hold)⟩
      exact fun ⟨fd, hw, hcb⟩ => ⟨fd, hold hw, hcb⟩
    · rw [hnode, hself]
      refine ⟨hh, hcase.imp ?_ (And.imp_left (congrArg some))⟩
      exact fun ⟨fd, hw, hcb⟩ => ⟨fd, congrArg some hw, hcb⟩
  · intro w hmem
    rw [hlogs.1, hlogs.2.1, hlogs.2.2] at hmem
    cases hw : s.waits w with
    | none => exact absurd hw (ht.logs w hmem)
    | some wait' =>
        rw [hold hw]
        exact nofun

theorem Typed.waitFile (ht : Typed s) (hnew : s.waits h = none) (fd : ι) (events : Events)
    (point : Option τ) : Typed (s.waitFile fd h events point) := by
  have hadd : ∀ (cb : Callback ω) fd' item,
      item ∈ ((s.onWQ fd fun q => q.addWait (some h) events cb).wq fd').items_ →
        item ∈ (s.wq fd').items_ ∨ item.h_ = some h ∧ fd' = fd ∧ item.cb_ = some cb := by
    intro cb fd' item hmem
    dsimp only [State.onWQ] at hmem
    by_cases hfd : fd' = fd
    · subst hfd
      rw [Function.update_self, FileWQ.addWait, List.mem_append, List.mem_singleton] at hmem
      rcases hmem with hmem | rfl
      · exact .inl hmem
      · exact .inr ⟨rfl, rfl, rfl⟩
    · rw [Function.update_of_ne hfd] at hmem
      exact .inl hmem
  cases point with
  | none =>
      refine ht.of_new hnew (.untimed fd) rfl (fun fd' item hmem => ?_)
        (fun item hmem => .inl hmem) ⟨rfl, rfl, rfl⟩
      rcases hadd .untimed fd' item hmem with hmem | ⟨hh, rfl, hcb⟩
      · exact .inl hmem
      · exact .inr ⟨hh, .inr ⟨rfl, hcb⟩⟩
  | some point =>
      refine ht.of_new hnew (.timed fd) rfl (fun fd' item hmem => ?_)
        (fun item hmem => ?_) ⟨rfl, rfl, rfl⟩
      · rcases hadd (.timed h) fd' item hmem with hmem | ⟨hh, rfl, hcb⟩
        · exact .inl hmem
        · exact .inr ⟨hh, .inl ⟨rfl, hcb⟩⟩
      · rcases mem_addWait hmem with rfl | hmem
        · exact .inr ⟨rfl, rfl, .inl ⟨fd, rfl, rfl⟩⟩
        · exact .inl hmem

omit [DecidableEq ι] in
theorem Typed.waitTime (ht : Typed s) (hnew : s.waits h = none) (point : τ) :
    Typed (s.waitTime h point) := by
  refine ht.of_new hnew .sleep rfl (fun _ _ hmem => .inl hmem) (fun item hmem => ?_)
    ⟨rfl, rfl, rfl⟩
  rcases mem_addWait hmem with rfl | hmem
  · exact .inr ⟨rfl, rfl, .inr ⟨rfl, rfl⟩⟩
  · exact .inl hmem

theorem Typed.walkTimer (ht : Typed s) (now : τ) : Typed (s.walkTimer now) := by
  rcases ht.walkTimer_cases now with heq | ⟨item, items, hitems, hh, hcase⟩
  · rw [heq]
    exact ⟨ht.file, ht.time, ht.logs⟩
  · rcases hcase with ⟨fd, hwait, heq⟩ | ⟨hwait, heq⟩
    · have hsome : s.waits item.node ≠ none := by simp [hwait]
      rw [heq]
      exact (ht.delFile hsome fd).pop hh hsome
    · rw [heq]
      exact ht.pop hh (by simp [hwait])

omit [LinearOrder τ] in
theorem Typed.walkFile (ht : Typed s) (fd : ι) (iter : Nat) (r : IoRet) :
    Typed (s.walkFile fd iter r) := by
  rcases ht.walkFile_cases fd iter r with ⟨⟨ge, heq⟩, _⟩ | ⟨item, h, events, hitem, hh, hcase⟩
  · rw [heq]
    exact ⟨ht.file, ht.time, ht.logs⟩
  · rcases hcase with ⟨hwait, _, heq⟩ | ⟨hwait, _, heq⟩
    · have hsome : s.waits h ≠ none := by simp [hwait]
      rw [heq]
      exact (ht.delTimer hsome).settle hitem hh hsome
    · rw [heq]
      exact ht.settle hitem hh (by simp [hwait])

/-- Every step keeps the entries those of waits. -/
theorem Typed.step {a : Action ι ω τ} (ht : Typed s)
    (hstep : FileAwaiter.step s a = some s') : Typed s' := by
  have hcase := step_cases hstep
  cases a with
  | event fd revents =>
      cases hcase
      refine ht.of_subset rfl (fun fd' item hmem => ?_) (fun _ => id) fun _ => .inl
      dsimp only [State.onWQ] at hmem
      rwa [update_keep FileWQ.items_ (by rfl)] at hmem
  | waitFile fd h events point =>
      rcases hcase with ⟨_, hnew, rfl⟩
      exact ht.waitFile hnew fd events point
  | waitTime h point =>
      rcases hcase with ⟨_, hnew, rfl⟩
      exact ht.waitTime hnew point
  | wakeFile fd =>
      rcases hcase with ⟨_, rfl⟩
      exact ⟨ht.file, ht.time, ht.logs⟩
  | wakeTimer now =>
      rcases hcase with ⟨_, rfl⟩
      exact ⟨ht.file, ht.time, ht.logs⟩
  | walk r =>
      rcases hcase with ⟨fd, iter, _, rfl⟩ | ⟨now, _, rfl⟩
      · exact ht.walkFile fd iter r
      · exact ht.walkTimer now

/-! ## The waits -/

omit [LinearOrder τ] in
theorem walkFile_waits (fd : ι) (iter : Nat) (r : IoRet) :
    (s.walkFile fd iter r).waits = s.waits := by
  unfold State.walkFile
  split
  · rfl
  · rfl
  · rfl
  · rename_i cb _
    unfold State.settle
    cases cb <;> split <;> rfl

theorem walkTimer_waits (now : τ) : (s.walkTimer now).waits = s.waits := by
  unfold State.walkTimer
  split
  · rfl
  · rfl
  · rename_i item _
    cases hcb : item.cb_ <;> rfl

/-- A step leaves the waits as they are or begins a new one. -/
theorem waits_cases {a : Action ι ω τ} (hstep : FileAwaiter.step s a = some s') :
    s'.waits = s.waits ∨
      (∃ fd h events point, s.waits h = none ∧ s' = s.waitFile fd h events point) ∨
      ∃ h point, s.waits h = none ∧ s' = s.waitTime h point := by
  have hcase := step_cases hstep
  cases a with
  | event fd revents =>
      cases hcase
      exact .inl rfl
  | waitFile fd h events point => exact .inr (.inl ⟨fd, h, events, point, hcase.2⟩)
  | waitTime h point => exact .inr (.inr ⟨h, point, hcase.2⟩)
  | wakeFile fd =>
      rcases hcase with ⟨_, rfl⟩
      exact .inl rfl
  | wakeTimer now =>
      rcases hcase with ⟨_, rfl⟩
      exact .inl rfl
  | walk r =>
      rcases hcase with ⟨fd, iter, _, rfl⟩ | ⟨now, _, rfl⟩
      · exact .inl (walkFile_waits fd iter r)
      · exact .inl (walkTimer_waits now)

/-- A wait keeps its entry in {lit}`waits`. -/
theorem waits_of_step {a : Action ι ω τ} {wait : Wait ι}
    (hstep : FileAwaiter.step s a = some s') (hw : s.waits w = some wait) :
    s'.waits w = some wait := by
  rcases waits_cases hstep with hsame | ⟨fd, h, events, point, hnew, rfl⟩ | ⟨h, point, hnew, rfl⟩
  · rw [hsame]
    exact hw
  · cases point <;> exact Typed.waits_of_new hnew hw
  · exact Typed.waits_of_new hnew hw

end FileAwaiter
end CoEpoll
