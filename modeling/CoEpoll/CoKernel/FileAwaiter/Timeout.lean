import CoEpoll.CoKernel.FileAwaiter.Entries
import Mathlib.Data.List.Count
import Mathlib.Data.Nat.Basic

/-!
# `FileAwaiter`: which waits with a timeout complete exactly once

The callback that {lit}`FileAwaiter` wraps around {lit}`func_` erases the timer whatever {lit}`func_`
returns.  A wait that goes on after a callback has lost its timer, and the next
callback erases through a dangling iterator.

Main results:

- Theorem {lit}`step_move`: what a step does to the entries of one wait.
- Theorem {lit}`completes_once_iff`: all waits complete exactly once as long as no callback of a
  wait with a timeout waits on, and not longer.
- Theorem {lit}`timer_erased_twice`: a run in which a timer is erased twice.
-/

namespace CoEpoll
namespace FileAwaiter

open Transition Irq

variable {ι ω τ : Type*}

/-! ## The account of one wait -/

/-- How often a wait is in the two lists, how often its entries have been erased and how
often its handle has been yielded. -/
@[ext]
structure Account where
  file : Nat
  time : Nat
  fileErased : Nat
  timeErased : Nat
  yielded : Nat
deriving DecidableEq

/-- The entries of a wait stand and fall together, each is erased exactly once, and the
handle is yielded exactly once. -/
def Account.Once (a : Account) : Prop :=
  (0 < a.file ↔ 0 < a.time) ∧
    (0 < a.file → a.fileErased = 0 ∧ a.timeErased = 0 ∧ a.yielded = 0) ∧
    (a.file = 0 → a.fileErased = 1 ∧ a.timeErased = 1 ∧ a.yielded = 1)

instance (a : Account) : Decidable a.Once := by
  unfold Account.Once
  infer_instance

/-- What a step can do to the account of a wait with a timeout; {lit}`blocked` is possible only
if {lit}`p` holds. -/
inductive Move (p : Prop) : Account → Account → Prop where
  /-- The step does not concern the wait. -/
  | same (a : Account) : Move p a a
  /-- The callback waits on, but its timer is erased. -/
  | blocked (a : Account) (hp : p) (h : 0 < a.file) :
      Move p a { a with time := 0, timeErased := a.timeErased + 1 }
  /-- The callback ends the wait. -/
  | served (a : Account) (h : 0 < a.file) :
      Move p a ⟨a.file - 1, 0, a.fileErased + 1, a.timeErased + 1, a.yielded + 1⟩
  /-- The timer expires. -/
  | expired (a : Account) (h : 0 < a.time) :
      Move p a ⟨0, a.time - 1, a.fileErased + 1, a.timeErased + 1, a.yielded + 1⟩

/-- Each entry is in its list or has been erased once, and both at the same time. -/
structure Account.Good (a : Account) : Prop where
  file : a.file + a.fileErased = 1
  time : a.time + a.timeErased = 1
  erased : a.fileErased = a.timeErased
  yielded : a.yielded = a.timeErased

/-- The timer is in its list until it is erased. -/
def Account.Timed (a : Account) : Prop :=
  a.time = 1 ∧ a.timeErased = 0 ∨ a.time = 0 ∧ 0 < a.timeErased

/-- The timer has been erased while the waiter waits on, or has been erased twice. -/
def Account.Doomed (a : Account) : Prop :=
  0 < a.timeErased ∧ 0 < a.file ∨ 1 < a.timeErased

section Account

variable {a b : Account} {p : Prop}

theorem Account.Good.once (h : a.Good) : a.Once := by
  rcases h with ⟨hfile, htime, herased, hyielded⟩
  unfold Account.Once
  omega

theorem Account.Doomed.not_once (h : a.Doomed) : ¬ a.Once := by
  unfold Account.Doomed at h
  unfold Account.Once
  omega

theorem Move.good (h : Move p a b) (hp : ¬ p) (ha : a.Good) : b.Good := by
  rcases ha with ⟨hfile, htime, herased, hyielded⟩
  cases h with
  | same => exact ⟨hfile, htime, herased, hyielded⟩
  | blocked hblock _ => exact absurd hblock hp
  | served hpos => constructor <;> dsimp only at * <;> omega
  | expired hpos => constructor <;> dsimp only at * <;> omega

theorem Move.timed (h : Move p a b) (ha : a.Timed) : b.Timed := by
  cases h with
  | same => exact ha
  | blocked _ _ => exact .inr ⟨rfl, Nat.succ_pos _⟩
  | served _ => exact .inr ⟨rfl, Nat.succ_pos _⟩
  | expired hpos =>
      rcases ha with ⟨hone, _⟩ | ⟨hzero, _⟩
      · exact .inr ⟨by rw [hone], Nat.succ_pos _⟩
      · exact absurd hpos (by omega)

/-- A lost timer is not found again. -/
theorem Move.doomed (h : Move p a b) (ha : a.Timed) (hd : a.Doomed) : b.Doomed := by
  have herased : 0 < a.timeErased := hd.elim And.left Nat.zero_lt_of_lt
  cases h with
  | same => exact hd
  | blocked _ _ => exact .inr (Nat.succ_lt_succ herased)
  | served _ => exact .inr (Nat.succ_lt_succ herased)
  | expired hpos =>
      rcases ha with ⟨_, hzero⟩ | ⟨hzero, _⟩
      · exact absurd herased (by omega)
      · exact absurd hpos (by omega)

end Account

variable [DecidableEq ι] [DecidableEq ω]

/-- The account of the wait {lit}`w` on {lit}`fd`. -/
def State.account (s : State ι ω τ) (fd : ι) (w : ω) : Account where
  file := (s.wq fd).items_.countP fun item => item.h_ = some w
  time := s.timer.items_.countP fun item => item.node = w
  fileErased := s.fileErased.count w
  timeErased := s.timeErased.count w
  yielded := s.yielded.count w

/-- No callback of a wait with a timeout waits on. -/
def NotBlocked (s : State ι ω τ) : Action ι ω τ → Prop
  | .walk r =>
      match s.ge with
      | some (.file fd iter) =>
          match (s.wq fd).turn iter with
          | .call _ (.timed _) => r.block = false
          | _ => True
      | _ => True
  | _ => True

omit [DecidableEq ι] [DecidableEq ω] in
instance (s : State ι ω τ) (a : Action ι ω τ) : Decidable (NotBlocked s a) := by
  unfold NotBlocked
  split
  · split
    · split <;> infer_instance
    · infer_instance
  · infer_instance

variable {s s' : State ι ω τ} {fd fd' : ι} {w h it : ω} {iter : Nat} {r : IoRet}
  {item : WaitItem ω (Callback ω)}

/-! ## What the operations do to an account -/

omit [DecidableEq ι] in
theorem countP_erase {q : FileWQ ω (Callback ω)} (hitem : q.items_[iter]? = some item) :
    (q.items_.countP fun item => item.h_ = some w) =
      ((q.erase iter).items_.countP fun item => item.h_ = some w) +
        if item.h_ = some w then 1 else 0 := by
  conv_lhs => rw [FileWQ.items_eq hitem]
  rw [FileWQ.erase_items_, List.countP_append, List.countP_append, List.countP_cons,
    Nat.add_assoc]
  simp only [decide_eq_true_eq]

omit [DecidableEq ι] in
/-- Erasing a named entry leaves the others. -/
theorem countP_filter_ne {α : Type*} {f : α → Option ω} {l : List α} :
    ((l.filter fun a => f a ≠ some h).countP fun a => f a = some w) =
      if h = w then 0 else l.countP fun a => f a = some w := by
  rw [List.countP_filter]
  split
  · rename_i heq
    rw [heq]
    exact List.countP_eq_zero.mpr fun a _ => by simp
  · rename_i hne
    refine List.countP_congr fun a _ => ?_
    by_cases hw : f a = some w
    · simp [hw, Ne.symm hne]
    · simp [hw]

theorem count_concat (l : List ω) : (l ++ [h]).count w = l.count w + if h = w then 1 else 0 := by
  rw [List.count_append, List.count_singleton]
  simp only [beq_iff_eq]

omit [DecidableEq ι] in
/-- The account of a wait whose entries a step does not touch. -/
theorem account_congr (hitems : (s'.wq fd).items_ = (s.wq fd).items_)
    (htimer : s'.timer = s.timer) (hfile : s'.fileErased = s.fileErased)
    (htime : s'.timeErased = s.timeErased) (hyielded : s'.yielded = s.yielded) :
    s'.account fd w = s.account fd w := by
  rw [State.account, State.account, hitems, htimer, hfile, htime, hyielded]

omit [DecidableEq ι] in
theorem account_delTimer : (s.delTimer it).account fd w =
    if it = w then
      { s.account fd w with time := 0, timeErased := (s.account fd w).timeErased + 1 }
    else s.account fd w := by
  have htime : ((s.timer.delWait it).items_.countP fun item => item.node = w) =
      if it = w then 0 else s.timer.items_.countP fun item => item.node = w := by
    have hfilter := countP_filter_ne (h := it) (w := w) (l := s.timer.items_)
      (f := fun item => some item.node)
    simpa [TimeWQ.delWait] using hfilter
  have herased := count_concat (h := it) (w := w) s.timeErased
  split at htime
  · rename_i heq
    rw [if_pos heq] at herased
    simp only [State.account, State.delTimer, htime, herased]
    rw [if_pos heq]
  · rename_i hne
    rw [if_neg hne] at herased
    simp only [State.account, State.delTimer, htime, herased]
    rw [if_neg hne]
    rfl

theorem account_delFile_self : (s.delFile fd w).account fd w =
    { s.account fd w with file := 0, fileErased := (s.account fd w).fileErased + 1 } := by
  have hfile := countP_filter_ne (h := w) (w := w) (l := (s.wq fd).items_)
    (f := fun item => item.h_)
  rw [if_pos rfl] at hfile
  have herased := count_concat (h := w) (w := w) s.fileErased
  rw [if_pos rfl] at herased
  simp only [State.account, State.delFile, State.onWQ, Function.update_self, hfile, herased]

theorem account_delFile_of_ne (hne : h ≠ w) :
    (s.delFile fd' h).account fd w = s.account fd w := by
  have herased := count_concat (h := h) (w := w) s.fileErased
  rw [if_neg hne] at herased
  have hfile : (((s.delFile fd' h).wq fd).items_.countP fun item => item.h_ = some w) =
      (s.wq fd).items_.countP fun item => item.h_ = some w := by
    dsimp only [State.delFile, State.onWQ]
    by_cases hfd : fd = fd'
    · subst hfd
      rw [Function.update_self]
      exact countP_filter_ne.trans (if_neg hne)
    · rw [Function.update_of_ne hfd]
  simp only [State.account, hfile]
  simp only [State.delFile, State.onWQ, herased]
  rfl

/-- The waiter stays in the list or is erased and yielded. -/
theorem account_settle_self (hitem : (s.wq fd).items_[iter]? = some item)
    (hh : item.h_ = some w) : (s.settle fd iter r).account fd w =
      if r.block then s.account fd w
      else { s.account fd w with
        file := (s.account fd w).file - 1
        fileErased := (s.account fd w).fileErased + 1
        yielded := (s.account fd w).yielded + 1 } := by
  unfold State.settle
  cases hblock : r.block with
  | true =>
      rw [if_pos rfl, if_pos rfl]
      refine account_congr ?_ rfl rfl rfl rfl
      dsimp only [State.onWQ]
      rw [Function.update_self, FileWQ.settle_items_, if_pos hblock]
  | false =>
      rw [if_neg Bool.false_ne_true, if_neg Bool.false_ne_true]
      have hfile := countP_erase (w := w) hitem
      rw [if_pos hh] at hfile
      have hsettle : ((s.wq fd).settle iter r).items_ = ((s.wq fd).erase iter).items_ := by
        rw [FileWQ.settle_items_, if_neg (by simp [hblock])]
      have herased := count_concat (h := w) (w := w) s.fileErased
      have hyielded := count_concat (h := w) (w := w) s.yielded
      rw [if_pos rfl] at herased hyielded
      simp only [State.account, State.onWQ, Function.update_self, hsettle, hfile,
        handle_eq hitem hh, herased, hyielded, Nat.add_sub_cancel]

theorem account_settle_of_ne (hitem : (s.wq fd').items_[iter]? = some item)
    (hh : item.h_ = some h) (hne : h ≠ w) :
    (s.settle fd' iter r).account fd w = s.account fd w := by
  have hfile : (((s.settle fd' iter r).wq fd).items_.countP fun item => item.h_ = some w) =
      (s.wq fd).items_.countP fun item => item.h_ = some w := by
    rw [settle_wq]
    by_cases hfd : fd = fd'
    · subst hfd
      rw [Function.update_self, FileWQ.settle_items_]
      split
      · rfl
      · have hcount := countP_erase (w := w) hitem
        rw [if_neg (by rw [hh]; simpa using hne), Nat.add_zero] at hcount
        exact hcount.symm
    · rw [Function.update_of_ne hfd]
  have herased := count_concat (h := h) (w := w) s.fileErased
  have hyielded := count_concat (h := h) (w := w) s.yielded
  rw [if_neg hne, Nat.add_zero] at herased hyielded
  simp only [State.account, hfile]
  unfold State.settle
  split
  · rfl
  · rw [handle_eq hitem hh]
    simp only [State.onWQ, herased, hyielded]

omit [DecidableEq ι] in
/-- The first timer is erased and yielded. -/
theorem account_pop {item : TimeItem ω τ ω (ι × ω)} {items : List (TimeItem ω τ ω (ι × ω))}
    (hitems : s.timer.items_ = item :: items) (hh : item.h_ = some item.node) :
    (s.pop item).account fd w =
      if item.node = w then
        { s.account fd w with
          time := (s.account fd w).time - 1
          timeErased := (s.account fd w).timeErased + 1
          yielded := (s.account fd w).yielded + 1 }
      else s.account fd w := by
  have htime : (s.account fd w).time =
      (items.countP fun item => item.node = w) + if item.node = w then 1 else 0 := by
    dsimp only [State.account]
    rw [hitems, List.countP_cons]
    simp only [decide_eq_true_eq]
  have hcount : ∀ l : List ω, (l ++ [item.node]).count w =
      l.count w + if item.node = w then 1 else 0 := count_concat
  have htail : (s.pop item).account fd w =
      { s.account fd w with
        time := items.countP fun item => item.node = w
        timeErased := (s.account fd w).timeErased + if item.node = w then 1 else 0
        yielded := (s.account fd w).yielded + if item.node = w then 1 else 0 } := by
    simp only [State.account, State.pop, hitems, hh, List.tail_cons, Option.toList_some, hcount]
  rw [htail]
  split
  · rename_i heq
    rw [if_pos heq] at htime
    rw [htime, Nat.add_sub_cancel]
  · rename_i hne
    rw [if_neg hne, Nat.add_zero] at htime
    rw [← htime]
    rfl

variable [LinearOrder τ]

/-! ## What a step does to an account -/

omit [DecidableEq ι] [LinearOrder τ] in
/-- A wait that has not begun has no entries. -/
theorem Typed.account_of_new (ht : Typed s) (hnew : s.waits w = none) (fd : ι) :
    s.account fd w = ⟨0, 0, 0, 0, 0⟩ := by
  ext
  · refine List.countP_eq_zero.mpr fun item hmem hitem => ?_
    rcases ht.file fd item hmem with ⟨w', hw', hcase⟩
    cases hw'.symm.trans (of_decide_eq_true hitem)
    rw [hnew] at hcase
    simp at hcase
  · refine List.countP_eq_zero.mpr fun item hmem hitem => ?_
    have hcase := (ht.time item hmem).2
    rw [of_decide_eq_true hitem, hnew] at hcase
    simp at hcase
  · exact List.count_eq_zero.mpr fun hmem => ht.logs w (.inl hmem) hnew
  · exact List.count_eq_zero.mpr fun hmem => ht.logs w (.inr (.inl hmem)) hnew
  · exact List.count_eq_zero.mpr fun hmem => ht.logs w (.inr (.inr hmem)) hnew

omit [DecidableEq ι] in
theorem countP_addWait (q : TimeWQ ω τ ω (ι × ω)) (item : TimeItem ω τ ω (ι × ω)) (w : ω) :
    ((q.addWait item).items_.countP fun item => item.node = w) =
      (q.items_.countP fun item => item.node = w) + if item.node = w then 1 else 0 := by
  rw [TimeWQ.addWait, (TimeWQ.perm_place item q.items_).countP_eq, List.countP_cons]
  simp only [decide_eq_true_eq]

omit [LinearOrder τ] in
theorem countP_onWQ_addWait (s : State ι ω τ) (fd fd' : ι) (h w : ω) (cb : Callback ω)
    (events : Events) :
    (((s.onWQ fd' fun q => q.addWait (some h) events cb).wq fd).items_.countP
        fun item => item.h_ = some w) =
      ((s.wq fd).items_.countP fun item => item.h_ = some w) +
        if fd = fd' ∧ h = w then 1 else 0 := by
  dsimp only [State.onWQ]
  by_cases hfd : fd = fd'
  · subst hfd
    rw [Function.update_self, FileWQ.addWait, List.countP_append, List.countP_singleton]
    simp
  · rw [Function.update_of_ne hfd, if_neg fun h => hfd h.1, Nat.add_zero]

theorem account_waitFile_self (events : Events) (point : τ) :
    (s.waitFile fd w events (some point)).account fd w =
      { s.account fd w with
        file := (s.account fd w).file + 1
        time := (s.account fd w).time + 1 } := by
  have hfile := countP_onWQ_addWait s fd fd w w (.timed w) events
  rw [if_pos ⟨rfl, rfl⟩] at hfile
  have htime := countP_addWait s.timer ⟨w, some w, some (fd, w), point⟩ w
  rw [if_pos rfl] at htime
  ext
  · exact hfile
  · exact htime
  · rfl
  · rfl
  · rfl

theorem account_waitFile_of_ne (hne : h ≠ w) (events : Events) (point : Option τ) :
    (s.waitFile fd' h events point).account fd w = s.account fd w := by
  have hfile : ∀ cb : Callback ω, _ := fun cb => countP_onWQ_addWait s fd fd' h w cb events
  simp only [hne, and_false, if_false, Nat.add_zero] at hfile
  cases point with
  | none =>
      ext
      · exact hfile .untimed
      · rfl
      · rfl
      · rfl
      · rfl
  | some point =>
      ext
      · exact hfile (.timed h)
      · exact (countP_addWait _ _ w).trans (by simp [hne, State.account])
      · rfl
      · rfl
      · rfl

omit [LinearOrder τ] in
theorem Typed.walkFile_move (ht : Typed s) {fd₀ : ι} (hge : s.ge = some (.file fd₀ iter))
    (hw : s.waits w = some (.timed fd)) (r : IoRet) :
    Move (¬ NotBlocked s (.walk r)) (s.account fd w) ((s.walkFile fd₀ iter r).account fd w) := by
  rcases ht.walkFile_cases fd₀ iter r with ⟨⟨ge, heq⟩, _⟩ | ⟨item, h, events, hitem, hh, hcase⟩
  · rw [heq]
    exact .same _
  · rcases hcase with ⟨hwait, hturn, heq⟩ | ⟨hwait, _, heq⟩
    · rw [heq]
      by_cases hhw : h = w
      · subst hhw
        cases hw.symm.trans hwait
        have hpos : 0 < (s.account fd h).file :=
          List.countP_pos_iff.mpr ⟨item, List.mem_of_getElem? hitem, decide_eq_true hh⟩
        rw [account_settle_self (s := s.delTimer h) hitem hh, account_delTimer, if_pos rfl]
        split
        · rename_i hblock
          refine .blocked _ (fun hok => ?_) hpos
          simp only [NotBlocked, hge, hturn, hblock] at hok
          cases hok
        · exact .served _ hpos
      · rw [account_settle_of_ne (s := s.delTimer h) hitem hh hhw, account_delTimer, if_neg hhw]
        exact .same _
    · have hne : h ≠ w := fun hhw => by
        rw [hhw, hw] at hwait
        cases hwait
      rw [heq, account_settle_of_ne hitem hh hne]
      exact .same _

theorem Typed.walkTimer_move (ht : Typed s) (hw : s.waits w = some (.timed fd)) (now : τ)
    (p : Prop) : Move p (s.account fd w) ((s.walkTimer now).account fd w) := by
  rcases ht.walkTimer_cases now with heq | ⟨item, items, hitems, hh, hcase⟩
  · rw [heq]
    exact .same _
  · rcases hcase with ⟨fd₀, hwait, heq⟩ | ⟨hwait, heq⟩
    · rw [heq, account_pop (s := s.delFile fd₀ item.node) hitems hh]
      by_cases hnode : item.node = w
      · subst hnode
        cases hw.symm.trans hwait
        have hpos : 0 < (s.account fd item.node).time :=
          List.countP_pos_iff.mpr ⟨item, hitems ▸ List.mem_cons_self, decide_eq_true rfl⟩
        rw [if_pos rfl, account_delFile_self]
        exact .expired _ hpos
      · rw [if_neg hnode, account_delFile_of_ne hnode]
        exact .same _
    · have hne : item.node ≠ w := fun hnode => by
        rw [hnode, hw] at hwait
        cases hwait
      rw [heq, account_pop hitems hh, if_neg hne]
      exact .same _

omit [DecidableEq ι] in
theorem account_waitTime_of_ne (hne : h ≠ w) (point : τ) :
    (s.waitTime h point).account fd w = s.account fd w := by
  ext
  · rfl
  · exact (countP_addWait _ _ w).trans (by simp [hne, State.account])
  · rfl
  · rfl
  · rfl

/-- What a step does to the entries of a wait with a timeout. -/
theorem step_move {a : Action ι ω τ} (ht : Typed s) (hstep : FileAwaiter.step s a = some s')
    (hw : s.waits w = some (.timed fd)) :
    Move (¬ NotBlocked s a) (s.account fd w) (s'.account fd w) := by
  have hother : ∀ {h}, s.waits h = none → h ≠ w := by
    rintro h hnone rfl
    rw [hnone] at hw
    cases hw
  have hcase := step_cases hstep
  cases a with
  | event fd' revents =>
      cases hcase
      have hitems : ((s.onWQ fd' fun q => q.addREvents revents).wq fd).items_ =
          (s.wq fd).items_ := by
        dsimp only [State.onWQ]
        refine update_keep FileWQ.items_ ?_ fd
        rfl
      rw [account_congr hitems rfl rfl rfl rfl]
      exact .same _
  | waitFile fd' h events point =>
      rcases hcase with ⟨_, hnew, rfl⟩
      rw [account_waitFile_of_ne (hother hnew)]
      exact .same _
  | waitTime h point =>
      rcases hcase with ⟨_, hnew, rfl⟩
      rw [account_waitTime_of_ne (hother hnew)]
      exact .same _
  | wakeFile fd' =>
      rcases hcase with ⟨_, rfl⟩
      exact .same _
  | wakeTimer now =>
      rcases hcase with ⟨_, rfl⟩
      exact .same _
  | walk r =>
      rcases hcase with ⟨fd', iter, hge, rfl⟩ | ⟨now, _, rfl⟩
      · exact ht.walkFile_move hge hw r
      · exact ht.walkTimer_move hw now _

/-! ## Runs -/

/-- A wait with a timeout has been there before, or it begins with an entry in each list. -/
theorem timed_of_step {a : Action ι ω τ} (ht : Typed s) (hstep : FileAwaiter.step s a = some s')
    (hw : s'.waits w = some (.timed fd)) :
    s.waits w = some (.timed fd) ∨ s'.account fd w = ⟨1, 1, 0, 0, 0⟩ := by
  cases hold : s.waits w with
  | some wait =>
      rw [waits_of_step hstep hold] at hw
      exact .inl hw
  | none =>
      right
      rcases waits_cases hstep with hsame | ⟨fd', h, events, point, _, rfl⟩ | ⟨h, point, _, rfl⟩
      · rw [hsame, hold] at hw
        cases hw
      · by_cases hwh : w = h
        · subst hwh
          cases point with
          | none =>
              cases (Function.update_self w _ s.waits).symm.trans hw
          | some point =>
              cases (Function.update_self w _ s.waits).symm.trans hw
              rw [account_waitFile_self, ht.account_of_new hold]
        · have hsame : (s.waitFile fd' h events point).waits w = s.waits w := by
            cases point <;> exact Function.update_of_ne hwh _ _
          rw [hsame, hold] at hw
          cases hw
      · dsimp only [State.waitTime] at hw
        by_cases hwh : w = h
        · subst hwh
          rw [Function.update_self] at hw
          cases hw
        · rw [Function.update_of_ne hwh, hold] at hw
          cases hw

/-- A property of the accounts of all waits with a timeout. -/
def Accounts (P : Account → Prop) (s : State ι ω τ) : Prop :=
  Typed s ∧ ∀ w fd, s.waits w = some (.timed fd) → P (s.account fd w)

omit [DecidableEq ι] [LinearOrder τ] in
theorem accounts_construct (P : Account → Prop) :
    Accounts P (State.construct : State ι ω τ) :=
  ⟨typed_construct, nofun⟩

/-- A property that new waits have and that moves keep is kept by a step. -/
theorem Accounts.step {P : Account → Prop} {a : Action ι ω τ} (h : Accounts P s)
    (hnew : P ⟨1, 1, 0, 0, 0⟩)
    (hmove : ∀ b c, Move (¬ NotBlocked s a) b c → P b → P c)
    (hstep : FileAwaiter.step s a = some s') : Accounts P s' := by
  refine ⟨h.1.step hstep, fun w fd hw => ?_⟩
  rcases timed_of_step h.1 hstep hw with hold | heq
  · exact hmove _ _ (step_move h.1 hstep hold) (h.2 w fd hold)
  · exact heq ▸ hnew

/-- A callback of a wait with a timeout that waits on loses the timer. -/
theorem doomed_of_blocked {a : Action ι ω τ} (ht : Typed s) (hbad : ¬ NotBlocked s a)
    (hstep : FileAwaiter.step s a = some s') :
    ∃ w fd, s'.waits w = some (.timed fd) ∧ (s'.account fd w).Doomed := by
  cases a with
  | walk r =>
      rcases step_cases hstep with ⟨fd, iter, hge, rfl⟩ | ⟨now, hge, rfl⟩
      · rcases ht.walkFile_cases fd iter r with ⟨_, hno⟩ | ⟨item, h, events, hitem, hh, hcase⟩
        · refine absurd ?_ hbad
          simp only [NotBlocked, hge]
          split
          · rename_i hturn
            exact absurd hturn (hno _ _)
          · trivial
        · rcases hcase with ⟨hwait, hturn, heq⟩ | ⟨_, hturn, _⟩
          · refine ⟨h, fd, by rwa [walkFile_waits], ?_⟩
            have hblock : r.block = true := by
              simpa [NotBlocked, hge, hturn] using hbad
            have hpos : 0 < (s.account fd h).file :=
              List.countP_pos_iff.mpr ⟨item, List.mem_of_getElem? hitem, decide_eq_true hh⟩
            rw [heq, account_settle_self (s := s.delTimer h) hitem hh, if_pos hblock,
              account_delTimer, if_pos rfl]
            exact .inl ⟨Nat.succ_pos _, hpos⟩
          · refine absurd ?_ hbad
            simp only [NotBlocked, hge, hturn]
      · refine absurd ?_ hbad
        simp only [NotBlocked, hge]
  | _ => exact absurd trivial hbad

/-- In the state that a run reaches all waits with a timeout complete exactly once if and only
if no callback of such a wait has waited on in it. -/
theorem completes_once_iff {s : State ι ω τ} {as : List (Action ι ω τ)}
    (hrun : machine.run State.construct as = some s) :
    (∀ w fd, s.waits w = some (.timed fd) → (s.account fd w).Once) ↔
      machine.Along NotBlocked State.construct as := by
  constructor
  · intro honce
    refine Machine.along_of_not_doomed (I := (Accounts Account.Timed : State ι ω τ → Prop))
      (D := fun s : State ι ω τ => ∃ w fd, s.waits w = some (.timed fd) ∧ (s.account fd w).Doomed)
      (fun s a s' h hstep => h.step (.inl ⟨rfl, rfl⟩) (fun _ _ hmove => hmove.timed) hstep)
      (fun s a s' h hbad hstep => doomed_of_blocked h.1 hbad hstep) ?_ (accounts_construct _)
      hrun ?_
    · rintro s a s' h ⟨w, fd, hw, hd⟩ hstep
      exact ⟨w, fd, waits_of_step hstep hw, (step_move h.1 hstep hw).doomed (h.2 w fd hw) hd⟩
    · rintro ⟨w, fd, hw, hd⟩
      exact hd.not_once (honce w fd hw)
  · intro halong w fd hw
    have hgood : Accounts Account.Good s :=
      halong.run (fun s a s' h hok hstep =>
        h.step ⟨rfl, rfl, rfl, rfl⟩ (fun _ _ hmove => hmove.good (not_not.mpr hok)) hstep)
        (accounts_construct _) hrun
    exact (hgood.2 w fd hw).once

/-- A read with a timeout that completes. -/
def firstRead : List (Action Unit Nat Nat) :=
  [.waitFile () 0 EPOLLIN (some 5), .event () EPOLLIN, .wakeFile (), .walk ⟨4, false, false⟩,
    .walk ⟨0, false, false⟩]

/-- A second read finds the event of the first in {lit}`revents_` and nothing to read, and data
comes later. -/
def secondRead : List (Action Unit Nat Nat) :=
  [.waitFile () 1 EPOLLIN (some 9), .wakeFile (), .walk ⟨-1, true, true⟩,
    .walk ⟨0, false, false⟩, .event () EPOLLIN, .wakeFile (), .walk ⟨4, false, false⟩]

/-- The first read completes exactly once. -/
theorem firstRead_completes_once :
    ∃ s, machine.run State.construct firstRead = some s ∧ s.waits 0 = some (.timed ()) ∧
      (s.account () 0).Once := by
  have hview : ((machine.restrict NotBlocked).run State.construct firstRead).map
      (fun s => s.waits 0) = some (some (.timed ())) := by
    decide +kernel
  rcases Option.map_eq_some_iff.mp hview with ⟨s, hrun, hwait⟩
  rcases Machine.restrict_run_iff.mp hrun with ⟨hrun', halong⟩
  exact ⟨s, hrun', hwait, (completes_once_iff hrun').mpr halong 0 () hwait⟩

/-- The timer of the second read is erased by the callback that waits on, and once more
through the dangling iterator by the next one. -/
theorem timer_erased_twice :
    ∃ s, machine.run State.construct (firstRead ++ secondRead) = some s ∧
      s.waits 1 = some (.timed ()) ∧ s.timeErased.count 1 = 2 ∧ ¬ (s.account () 1).Once := by
  have hview : (machine.run State.construct (firstRead ++ secondRead)).map
      (fun s => (s.waits 1, s.timeErased.count 1, s.account () 1)) =
        some (some (.timed ()), 2, ⟨0, 0, 1, 2, 1⟩) := by
    decide +kernel
  rcases Option.map_eq_some_iff.mp hview with ⟨s, hrun, heq⟩
  simp only [Prod.mk.injEq] at heq
  rcases heq with ⟨hwait, herased, haccount⟩
  refine ⟨s, hrun, hwait, herased, ?_⟩
  rw [haccount]
  decide

end FileAwaiter
end CoEpoll
