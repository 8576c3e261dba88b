import CoEpoll.CoKernel.Registry.Owners

/-!
# `ICU::loop`: the walks that are requested

The function of a {lit}`FileAwaiter` asks for a walk of its {lit}`FileWQ` with {lit}`wakeWQ`, which leaves {lit}`list_` as it
is when {lit}`waked_` is set.  The flag is set by {lit}`wakeWQ` and {lit}`waitIRQ`, which put the {lit}`FileWQ` into {lit}`list_`,
and reset by the walk; no constructor gives it a value.

Main results:

- Theorem {lit}`Passing.step`: but for a {lit}`FileWQ` whose flag has been left set by its constructor, the flag
  tells whether the {lit}`FileWQ` is still to be walked.
- Theorem {lit}`served_iff`: every requested walk happens, once, if and only if no function of a
  {lit}`FileAwaiter` runs for a {lit}`FileWQ` that has such a flag.
- Theorem {lit}`request_skipped`: a run in which a requested walk does not happen.
-/

namespace CoEpoll
namespace Registry

open Transition ICU

/-- The ICU, with what the pass of its loop has done: the {lit}`FileWQ`s for which the function of a
{lit}`FileAwaiter` has run, the entries of {lit}`list_` that have been walked, and the {lit}`FileWQ`s that have
{lit}`waked_` from their constructor because {lit}`epoll_wait` has not returned them. -/
structure Pass (δ φ ω : Type*) where
  icu : State δ φ ω
  requested : List φ
  visited : List (Entry φ)
  stale : List φ

variable {δ φ ω : Type*}

namespace Pass

/-- Before the first pass. -/
def construct : Pass δ φ ω where
  icu := .construct
  requested := []
  visited := []
  stale := []

/-- The {lit}`FileWQ` for which a function asks for a walk. -/
def request : List (Func φ ω) → List φ
  | .wait _ fq :: _ => [fq]
  | _ => []

/-- The entry that is walked next. -/
def visit : Phase (Entry φ) → List (Entry φ)
  | .walk (entry :: _) => [entry]
  | _ => []

/-- {lit}`epoll_wait` returns a descriptor once at most. -/
def Reported : Action δ φ ω → Prop
  | .waitIRQ entries => entries.Nodup
  | _ => True

variable [DecidableEq δ] [DecidableEq φ] [DecidableEq ω]

instance (a : Action δ φ ω) : Decidable (Reported a) :=
  match a with
  | .waitIRQ entries => inferInstanceAs (Decidable entries.Nodup)
  | .updateIRQ _ _ _ | .removeIRQ _ | .resumeCall | .waitFile _ _ | .suspend _ | .resumeWait _
  | .run _ | .drained | .walk _ | .clear => inferInstanceAs (Decidable True)

/-- What the step records. -/
def record (p : Pass δ φ ω) (a : Action δ φ ω) (icu : State δ φ ω) : Pass δ φ ω :=
  match a with
  | .updateIRQ fd fq waked => { p with
      icu := icu
      stale := if waked = true ∧ Assoc.find p.icu.fileWQPtrs_ fd = none then fq :: p.stale
        else p.stale }
  | .run _ => { p with icu := icu, requested := request p.icu.funcs_ ++ p.requested }
  | .walk _ => { p with icu := icu, visited := p.visited ++ visit p.icu.phase }
  | .waitIRQ entries =>
      { icu := icu
        requested := []
        visited := []
        stale := p.stale.filter fun fq => !entries.contains (.file fq) }
  | _ => { p with icu := icu }

/-- One step. -/
def step (p : Pass δ φ ω) (a : Action δ φ ω) : Option (Pass δ φ ω) :=
  if Reported a then (Registry.step p.icu a).map (p.record a) else none

/-- The ICU and the CPU threads under any interleaving. -/
def machine : Machine (Pass δ φ ω) (Action δ φ ω) where
  init p := p = construct
  step := step

/-- Every requested {lit}`FileWQ` is in {lit}`list_` exactly once until it is cleared, and has then been walked
exactly once. -/
structure Served (p : Pass δ φ ω) : Prop where
  listed : p.icu.phase ≠ .poll → ∀ fq ∈ p.requested, p.icu.list_.count (.file fq) = 1
  walked : p.icu.phase = .poll → ∀ fq ∈ p.requested, p.visited.count (.file fq) = 1

omit [DecidableEq δ] [DecidableEq φ] [DecidableEq ω] in
/-- No function of a {lit}`FileAwaiter` runs for a {lit}`FileWQ` that has {lit}`waked_` from its constructor. -/
def Fresh (p : Pass δ φ ω) : Action δ φ ω → Prop
  | .run _ => ∀ fq ∈ request p.icu.funcs_, fq ∉ p.stale
  | _ => True

instance (p : Pass δ φ ω) (a : Action δ φ ω) : Decidable (Fresh p a) :=
  match a with
  | .run _ => inferInstanceAs (Decidable (∀ fq ∈ request p.icu.funcs_, fq ∉ p.stale))
  | .updateIRQ _ _ _ | .removeIRQ _ | .resumeCall | .waitFile _ _ | .suspend _ | .resumeWait _
  | .drained | .walk _ | .clear | .waitIRQ _ => inferInstanceAs (Decidable True)

end Pass
/-! ## The flag and the list -/

/-- What the walk of this pass visits. -/
def Pass.walks (p : Pass δ φ ω) : List (Entry φ) :=
  p.visited ++ p.icu.toWalk

/-- The flags agree with {lit}`list_`, but for those that have been left set by a constructor. -/
structure Passing [DecidableEq δ] (p : Pass δ φ ω) : Prop where
  inv : Inv p.icu
  made : ∀ fq, Entry.file fq ∈ p.icu.list_ → fq ∈ p.icu.used
  split : p.icu.phase ≠ .poll → p.walks = p.icu.list_
  once : p.walks.Nodup
  flag : ∀ fq, fq ∉ p.stale → (p.icu.waked_ fq = true ↔ Entry.file fq ∈ p.icu.toWalk)
  stale : ∀ fq ∈ p.stale, fq ∈ p.icu.used ∧ p.icu.waked_ fq = true ∧ Entry.file fq ∉ p.icu.list_

variable [DecidableEq δ]

theorem passing_construct : Passing (Pass.construct : Pass δ φ ω) where
  inv := inv_construct
  made _ h := absurd h List.not_mem_nil
  split _ := rfl
  once := List.nodup_nil
  flag fq _ := by
    apply iff_of_false Bool.false_ne_true
    exact List.not_mem_nil
  stale _ h := absurd h List.not_mem_nil

variable {p p' : Pass δ φ ω} {icu : State δ φ ω} {fd : δ} {fq : φ} {w : ω}

/-- What is still to be walked is in {lit}`list_`. -/
theorem Passing.toWalk_subset (h : Passing p) {entry : Entry φ} (hmem : entry ∈ p.icu.toWalk) :
    entry ∈ p.icu.list_ := by
  rw [← h.split]
  · exact List.mem_append_right _ hmem
  · intro hpoll
    rw [State.toWalk, hpoll] at hmem
    cases hmem

/-- In a drain nothing has been walked. -/
theorem Passing.walks_drain (h : Passing p) (hphase : p.icu.phase = .drain) :
    p.walks = p.icu.list_ ∧ p.icu.toWalk = p.icu.list_ := by
  constructor
  · apply h.split
    intro hpoll
    cases hphase.symm.trans hpoll
  · rw [State.toWalk, hphase]

/-- A step of the ICU that leaves the flags and what is to be walked alone. -/
theorem Passing.keep (h : Passing p) (hinv : Inv icu) (htoWalk : icu.toWalk = p.icu.toWalk)
    (hlist : ∀ entry, entry ∈ icu.list_ → entry ∈ p.icu.list_)
    (hsplit : icu.phase ≠ .poll → p.icu.phase ≠ .poll ∧ icu.list_ = p.icu.list_)
    (hwaked : icu.waked_ = p.icu.waked_) (hused : icu.used = p.icu.used) :
    Passing { p with icu := icu } where
  inv := hinv
  made fq hmem := hused ▸ h.made fq (hlist _ hmem)
  split hphase := by
    rcases hsplit hphase with ⟨hold, heq⟩
    rw [Pass.walks, htoWalk, heq]
    exact h.split hold
  once := by
    rw [Pass.walks, htoWalk]
    exact h.once
  flag fq hfq := by
    rw [htoWalk, hwaked]
    exact h.flag fq hfq
  stale fq hfq := by
    rcases h.stale fq hfq with ⟨hmade, hflag, hnot⟩
    exact ⟨hused ▸ hmade, hwaked ▸ hflag, fun hmem => hnot (hlist _ hmem)⟩

variable [DecidableEq φ] [DecidableEq ω]

/-! ## The steps -/

omit [DecidableEq ω] in
/-- A new {lit}`FileWQ` is not in {lit}`list_`, and its flag is what its constructor has left. -/
theorem Passing.make (h : Passing p) (hnew : fq ∉ p.icu.used) (waked : Bool)
    (hinv : Inv icu) (hphase : icu.phase = p.icu.phase) (hlist : icu.list_ = p.icu.list_)
    (hwaked : icu.waked_ = Function.update p.icu.waked_ fq waked)
    (hused : icu.used = insert fq p.icu.used) :
    Passing { p with icu := icu, stale := if waked = true then fq :: p.stale else p.stale } := by
  have hnot : Entry.file fq ∉ p.icu.list_ := fun hmem => hnew (h.made fq hmem)
  have htoWalk : icu.toWalk = p.icu.toWalk := by
    rw [State.toWalk, State.toWalk, hphase, hlist]
  have hother : ∀ fq', fq' ≠ fq → icu.waked_ fq' = p.icu.waked_ fq' := by
    intro fq' hne
    rw [hwaked, Function.update_of_ne hne]
  have hself : icu.waked_ fq = waked := by rw [hwaked, Function.update_self]
  refine
    { inv := hinv
      made := fun fq' hmem => ?_
      split := fun hpoll => ?_
      once := ?_
      flag := fun fq' hfq' => ?_
      stale := fun fq' hfq' => ?_ }
  · rw [hlist] at hmem
    rw [hused]
    exact Finset.mem_insert_of_mem (h.made fq' hmem)
  · rw [Pass.walks, htoWalk, hlist]
    exact h.split (hphase ▸ hpoll)
  · rw [Pass.walks, htoWalk]
    exact h.once
  · rw [htoWalk]
    by_cases heq : fq' = fq
    · subst heq
      apply iff_of_false
      · rw [hself]
        intro hset
        rw [if_pos hset] at hfq'
        exact hfq' List.mem_cons_self
      · exact fun hmem => hnot (h.toWalk_subset hmem)
    · rw [hother fq' heq]
      apply h.flag
      intro hmem
      apply hfq'
      split
      · exact List.mem_cons_of_mem _ hmem
      · exact hmem
  · rw [hused, hlist]
    have hcase : waked = true ∧ fq' = fq ∨ fq' ∈ p.stale := by
      dsimp only at hfq'
      split at hfq'
      · rename_i hset
        rcases List.mem_cons.mp hfq' with heq | hold
        · exact .inl ⟨hset, heq⟩
        · exact .inr hold
      · exact .inr hfq'
    rcases hcase with ⟨hset, rfl⟩ | hold
    · exact ⟨Finset.mem_insert_self _ _, hself.trans hset, hnot⟩
    · rcases h.stale fq' hold with ⟨hmade, hflag, habsent⟩
      have hne : fq' ≠ fq := fun heq => hnew (heq ▸ hmade)
      exact ⟨Finset.mem_insert_of_mem hmade, (hother fq' hne).trans hflag, habsent⟩

omit [DecidableEq δ] [DecidableEq ω] in
theorem list_wakeWQ (s : State δ φ ω) (fq : φ) : (s.wakeWQ fq).list_ =
    if s.waked_ fq = true then s.list_ else s.list_ ++ [.file fq] := by
  unfold State.wakeWQ
  split <;> rfl

omit [DecidableEq δ] [DecidableEq ω] in
theorem waked_wakeWQ (s : State δ φ ω) (fq : φ) : (s.wakeWQ fq).waked_ =
    if s.waked_ fq = true then s.waked_ else Function.update s.waked_ fq true := by
  unfold State.wakeWQ
  split <;> rfl

omit [DecidableEq δ] [DecidableEq ω] in
@[simp]
theorem phase_wakeWQ (s : State δ φ ω) (fq : φ) : (s.wakeWQ fq).phase = s.phase := by
  unfold State.wakeWQ
  split <;> rfl

omit [DecidableEq δ] [DecidableEq ω] in
@[simp]
theorem used_wakeWQ (s : State δ φ ω) (fq : φ) : (s.wakeWQ fq).used = s.used := by
  unfold State.wakeWQ
  split <;> rfl

omit [DecidableEq δ] [DecidableEq ω] in
/-- {lit}`wakeWQ` takes nothing out of {lit}`list_`. -/
theorem mem_list_wakeWQ {s : State δ φ ω} {entry : Entry φ} (hmem : entry ∈ s.list_) (fq : φ) :
    entry ∈ (s.wakeWQ fq).list_ := by
  rw [list_wakeWQ]
  split
  · exact hmem
  · exact List.mem_append_left _ hmem

omit [DecidableEq ω] in
/-- {lit}`wakeWQ` lists the {lit}`FileWQ` unless its flag has been left set by its constructor. -/
theorem Passing.mem_wakeWQ (h : Passing p) (hphase : p.icu.phase = .drain) :
    Entry.file fq ∈ (p.icu.wakeWQ fq).list_ ↔ fq ∉ p.stale := by
  rw [list_wakeWQ]
  split
  · rename_i hset
    constructor
    · exact fun hmem hstale => (h.stale fq hstale).2.2 hmem
    · intro hfresh
      rw [← (h.walks_drain hphase).2]
      exact (h.flag fq hfresh).mp hset
  · rename_i hset
    apply iff_of_true
    · exact List.mem_append_right _ (List.mem_singleton_self _)
    · exact fun hstale => hset (h.stale fq hstale).2.1

omit [DecidableEq ω] in
/-- {lit}`wakeWQ` puts a {lit}`FileWQ` into {lit}`list_` whose flag is not set. -/
theorem Passing.wakeWQ (h : Passing p) (hphase : p.icu.phase = .drain) (hmade : fq ∈ p.icu.used)
    (hinv : Inv icu) (hnext : icu.phase = .drain) (hlist : icu.list_ = (p.icu.wakeWQ fq).list_)
    (hwaked : icu.waked_ = (p.icu.wakeWQ fq).waked_) (hused : icu.used = p.icu.used) :
    Passing { p with icu := icu } := by
  rcases h.walks_drain hphase with ⟨hwalks, htoWalk⟩
  have hafter : icu.toWalk = icu.list_ := by rw [State.toWalk, hnext]
  rw [list_wakeWQ] at hlist
  rw [waked_wakeWQ] at hwaked
  by_cases hset : p.icu.waked_ fq = true
  · rw [if_pos hset] at hlist hwaked
    apply h.keep hinv
    · rw [hafter, htoWalk, hlist]
    · exact fun entry hmem => hlist ▸ hmem
    · intro _
      refine ⟨fun hpoll => ?_, hlist⟩
      cases hphase.symm.trans hpoll
    · exact hwaked
    · exact hused
  · rw [if_neg hset] at hlist hwaked
    have hfresh : fq ∉ p.stale := fun hmem => hset (h.stale fq hmem).2.1
    have hnot : Entry.file fq ∉ p.icu.list_ := by
      rw [← htoWalk]
      exact mt (h.flag fq hfresh).mpr hset
    have hvisited : p.visited = [] := by
      rw [Pass.walks, htoWalk] at hwalks
      exact List.self_eq_append_left.mp hwalks.symm
    have hother : ∀ fq', fq' ≠ fq → icu.waked_ fq' = p.icu.waked_ fq' := by
      intro fq' hne
      rw [hwaked, Function.update_of_ne hne]
    have hall : p.visited ++ icu.toWalk = icu.list_ := by
      rw [hafter, hvisited, List.nil_append]
    refine
      { inv := hinv
        made := fun fq' hmem => ?_
        split := fun _ => hall
        once := ?_
        flag := fun fq' hfq' => ?_
        stale := fun fq' hfq' => ?_ }
    · rw [hlist] at hmem
      rw [hused]
      rcases List.mem_append.mp hmem with hold | hnew
      · exact h.made fq' hold
      · cases List.mem_singleton.mp hnew
        exact hmade
    · have honce := h.once
      rw [hwalks] at honce
      rw [Pass.walks, hall, hlist, List.nodup_append_comm, List.singleton_append]
      exact List.nodup_cons.mpr ⟨hnot, honce⟩
    · rw [hafter, hlist, List.mem_append, List.mem_singleton, Entry.file.injEq, ← htoWalk]
      by_cases heq : fq' = fq
      · subst heq
        apply iff_of_true _ (.inr rfl)
        rw [hwaked, Function.update_self]
      · rw [or_iff_left heq, hother fq' heq]
        exact h.flag fq' hfq'
    · rcases h.stale fq' hfq' with ⟨hold, hflag, habsent⟩
      have hne : fq' ≠ fq := fun heq => hfresh (heq ▸ hfq')
      refine ⟨hused ▸ hold, (hother fq' hne).trans hflag, fun hmem => ?_⟩
      rw [hlist] at hmem
      rcases List.mem_append.mp hmem with hmem | hmem
      · exact habsent hmem
      · exact hne (Entry.file.inj (List.mem_singleton.mp hmem))

omit [DecidableEq ω] in
/-- The walk of an entry resets its flag. -/
theorem Passing.walk (h : Passing p) {entry : Entry φ} {rest : List (Entry φ)}
    (hphase : p.icu.phase = .walk (entry :: rest)) (hinv : Inv icu)
    (hnext : icu.phase = .walk rest) (hlist : icu.list_ = p.icu.list_)
    (hwaked : icu.waked_ = p.icu.unwake entry) (hused : icu.used = p.icu.used) :
    Passing { p with icu := icu, visited := p.visited ++ [entry] } ∧
      ({ p with icu := icu, visited := p.visited ++ [entry] } : Pass δ φ ω).walks = p.walks := by
  have htoWalk : p.icu.toWalk = entry :: rest := by rw [State.toWalk, hphase]
  have hrest : icu.toWalk = rest := by rw [State.toWalk, hnext]
  have hwalks : p.visited ++ [entry] ++ icu.toWalk = p.walks := by
    rw [hrest, Pass.walks, htoWalk, List.append_assoc, List.singleton_append]
  have hsplit : p.walks = p.icu.list_ := by
    apply h.split
    intro hpoll
    cases hphase.symm.trans hpoll
  have hnotin : entry ∉ rest := by
    have honce := h.once
    rw [Pass.walks, htoWalk, List.nodup_append] at honce
    exact (List.nodup_cons.mp honce.2.1).1
  -- another entry keeps its flag, and its place among those that are left
  have hother : ∀ fq, Entry.file fq ≠ entry → icu.waked_ fq = p.icu.waked_ fq := by
    intro fq hne
    rw [hwaked]
    cases entry with
    | file fq' => exact Function.update_of_ne (fun heq => hne (congrArg Entry.file heq)) _ _
    | timerWQ => rfl
    | wakeUpWQ => rfl
  refine ⟨
    { inv := hinv
      made := fun fq hmem => ?_
      split := fun _ => ?_
      once := ?_
      flag := fun fq hfq => ?_
      stale := fun fq hfq => ?_ }, hwalks⟩
  · rw [hlist] at hmem
    rw [hused]
    exact h.made fq hmem
  · exact hwalks.trans (hsplit.trans hlist.symm)
  · have honce := h.once
    rw [← hwalks] at honce
    exact honce
  · rw [hrest]
    by_cases heq : Entry.file fq = entry
    · subst heq
      apply iff_of_false _ hnotin
      rw [hwaked, State.unwake, Function.update_self]
      exact Bool.false_ne_true
    · have hflag := h.flag fq hfq
      rw [htoWalk, List.mem_cons, or_iff_right heq] at hflag
      rw [hother fq heq]
      exact hflag
  · rcases h.stale fq hfq with ⟨hmade, hflag, habsent⟩
    have hne : Entry.file fq ≠ entry := by
      rintro rfl
      apply habsent
      apply h.toWalk_subset
      rw [htoWalk]
      exact List.mem_cons_self
    exact ⟨hused ▸ hmade, (hother fq hne).trans hflag, hlist ▸ habsent⟩

omit [DecidableEq ω] in
/-- What {lit}`epoll_wait` returns is in {lit}`list_` and has its flag set. -/
theorem Passing.waitIRQ (h : Passing p) (hphase : p.icu.phase = .poll) {entries : List (Entry φ)}
    (honce : entries.Nodup) (hpolled : ∀ entry ∈ entries, entry.Polled p.icu.polled)
    (hinv : Inv icu) (hnext : icu.phase = .drain) (hlist : icu.list_ = p.icu.list_ ++ entries)
    (hwaked : icu.waked_ = p.icu.rewake entries) (hused : icu.used = p.icu.used) :
    Passing
      { icu := icu
        requested := []
        visited := []
        stale := p.stale.filter fun fq => !entries.contains (.file fq) } := by
  rw [h.inv.cleared hphase, List.nil_append] at hlist
  have htoWalk : icu.toWalk = entries := by rw [State.toWalk, hnext, hlist]
  have hold : p.icu.toWalk = [] := by rw [State.toWalk, hphase]
  have hflags : ∀ fq, icu.waked_ fq = true ↔ Entry.file fq ∈ entries ∨ p.icu.waked_ fq = true := by
    intro fq
    rw [hwaked, State.rewake]
    split
    · rename_i hmem
      exact iff_of_true rfl (.inl hmem)
    · rename_i hmem
      exact (or_iff_right hmem).symm
  refine
    { inv := hinv
      made := fun fq hmem => ?_
      split := fun _ => htoWalk.trans hlist.symm
      once := htoWalk.symm ▸ honce
      flag := fun fq hfq => ?_
      stale := fun fq hfq => ?_ }
  · rw [hlist] at hmem
    rw [hused]
    rcases h.inv.polled fq (hpolled _ hmem) with hreg | ⟨⟨op, fd, fq', done⟩, hcall, hop, hfq⟩
    · exact h.inv.made fq hreg
    · cases hop
      cases hfq
      exact (h.inv.call _ hcall).1
  · rw [htoWalk, hflags]
    apply or_iff_left_of_imp
    intro hset
    by_contra hmem
    have hfresh : fq ∉ p.stale := fun hstale =>
      hfq (List.mem_filter.mpr ⟨hstale, by simpa using hmem⟩)
    have hnone := (h.flag fq hfresh).mp hset
    rw [hold] at hnone
    cases hnone
  · rcases List.mem_filter.mp hfq with ⟨hstale, hmem⟩
    rcases h.stale fq hstale with ⟨hmade, hflag, _⟩
    refine ⟨hused ▸ hmade, (hflags fq).mpr (.inr hflag), ?_⟩
    rw [hlist]
    simpa using hmem

/-- What a step does to the requests, and to what the walk of this pass visits. -/
inductive Outcome (p : Pass δ φ ω) (a : Action δ φ ω) (p' : Pass δ φ ω) : Prop where
  | keeps (fresh : Pass.Fresh p a) (requested : p'.requested = p.requested)
      (walks : p'.walks = p.walks)
  | resets (fresh : Pass.Fresh p a) (requested : p'.requested = [])
  | requests (fq : φ) (fresh : Pass.Fresh p a ↔ Entry.file fq ∈ p'.walks)
      (requested : p'.requested = fq :: p.requested)
      (walks : ∀ entry, entry ∈ p.walks → entry ∈ p'.walks)

omit [DecidableEq φ] [DecidableEq ω] in
/-- The requests are not part of the bookkeeping. -/
theorem Passing.setRequested (h : Passing p) (requested : List φ) :
    Passing { p with requested := requested } :=
  ⟨h.inv, h.made, h.split, h.once, h.flag, h.stale⟩

omit [DecidableEq φ] [DecidableEq ω] in
/-- A step that leaves {lit}`list_` and the flags alone. -/
theorem Passing.side (h : Passing p) {a : Action δ φ ω} (hinv : Inv icu)
    (hphase : icu.phase = p.icu.phase) (hlist : icu.list_ = p.icu.list_)
    (hwaked : icu.waked_ = p.icu.waked_) (hused : icu.used = p.icu.used)
    (hfresh : Pass.Fresh p a) :
    Passing { p with icu := icu } ∧ Outcome p a { p with icu := icu } := by
  have htoWalk : icu.toWalk = p.icu.toWalk := by
    rw [State.toWalk, State.toWalk, hphase, hlist]
  constructor
  · apply h.keep hinv htoWalk
    · exact fun entry hmem => hlist ▸ hmem
    · exact fun hpoll => ⟨hphase ▸ hpoll, hlist⟩
    · exact hwaked
    · exact hused
  · refine .keeps hfresh rfl ?_
    rw [Pass.walks, htoWalk, Pass.walks]

omit [DecidableEq ω] in
theorem Passing.updateIRQ (h : Passing p) {waked : Bool} (hinv : Inv icu)
    (hstep : p.icu.updateIRQ fd fq waked = some icu) :
    Passing (p.record (.updateIRQ fd fq waked) icu) ∧
      Outcome p (.updateIRQ fd fq waked) (p.record (.updateIRQ fd fq waked) icu) := by
  rcases updateIRQ_cases hstep with ⟨old, hfind, rfl⟩ | ⟨hfind, hnew, rfl⟩
  · simp only [Pass.record, hfind, reduceCtorEq, and_false, if_false]
    exact h.side hinv rfl rfl rfl rfl trivial
  · simp only [Pass.record, hfind, and_true]
    exact ⟨h.make hnew waked hinv rfl rfl rfl rfl, .keeps trivial rfl rfl⟩

/-- A queued function. -/
theorem Passing.runFunc (h : Passing p) (ok : Bool) {func : Func φ ω} {funcs : List (Func φ ω)}
    (hphase : p.icu.phase = .drain) (hfuncs : p.icu.funcs_ = func :: funcs)
    (hicu : icu = { p.icu with funcs_ := funcs : State δ φ ω }.runFunc ok func) (hinv : Inv icu) :
    Passing (p.record (.run ok) icu) ∧ Outcome p (.run ok) (p.record (.run ok) icu) := by
  cases func with
  | ctl op fq =>
      have hrequest : Pass.request p.icu.funcs_ = [] := by
        rw [hfuncs]
        rfl
      have hfresh : Pass.Fresh p (.run ok) := by
        intro fq' hmem
        rw [hrequest] at hmem
        cases hmem
      simp only [Pass.record, hrequest, List.nil_append]
      subst hicu
      exact h.side hinv rfl rfl rfl rfl hfresh
  | wait w fq =>
      have hrequest : Pass.request p.icu.funcs_ = [fq] := by rw [hfuncs, Pass.request]
      have hmade : fq ∈ p.icu.used := by
        apply h.inv.held w fq .queued
        apply h.inv.waits
        rw [hfuncs]
        exact List.mem_cons_self
      have hlist : icu.list_ = (p.icu.wakeWQ fq).list_ := by
        rw [hicu, State.runFunc, list_wakeWQ, list_wakeWQ]
      have hwaked : icu.waked_ = (p.icu.wakeWQ fq).waked_ := by
        rw [hicu, State.runFunc, waked_wakeWQ, waked_wakeWQ]
      have hused : icu.used = p.icu.used := by
        rw [hicu, State.runFunc, used_wakeWQ]
      have hnext : icu.phase = .drain := by
        rw [hicu, State.runFunc, phase_wakeWQ]
        exact hphase
      have hpassing := h.wakeWQ hphase hmade hinv hnext hlist hwaked hused
      have hwalks := (hpassing.walks_drain hnext).1
      simp only [Pass.record, hrequest, List.singleton_append]
      refine ⟨hpassing.setRequested _, .requests fq ?_ rfl ?_⟩
      · have hmem : Entry.file fq ∈ (p.icu.wakeWQ fq).list_ ↔ fq ∉ p.stale := h.mem_wakeWQ hphase
        rw [Pass.Fresh, hrequest, List.forall_mem_singleton, ← hmem, ← hlist]
        exact Iff.of_eq (congrArg _ hwalks.symm)
      · intro entry hentry
        rw [(h.walks_drain hphase).1] at hentry
        change entry ∈ Pass.walks { p with icu := icu }
        rw [hwalks, hlist]
        exact mem_list_wakeWQ hentry fq

/-- Every step keeps the bookkeeping. -/
theorem Passing.step (h : Passing p) {a : Action δ φ ω} (hstep : Pass.step p a = some p') :
    Passing p' ∧ Outcome p a p' := by
  rcases Option.ite_none_right_eq_some.mp hstep with ⟨hreported, hstep⟩
  rcases Option.map_eq_some_iff.mp hstep with ⟨icu, hicu, rfl⟩
  have hinv := h.inv.step hicu
  have hcase := step_cases hicu
  cases a with
  | updateIRQ fd fq waked => exact h.updateIRQ hinv hcase.2
  | removeIRQ fd =>
      rcases hcase with ⟨_, rfl⟩
      unfold State.removeIRQ at hinv ⊢
      split at hinv
      · exact h.side hinv rfl rfl rfl rfl trivial
      · exact h.side hinv rfl rfl rfl rfl trivial
  | resumeCall =>
      rcases hcase with ⟨op, fd, fq, ok, _, rfl⟩
      cases op with
      | add => exact h.side hinv rfl rfl rfl rfl trivial
      | mod => exact h.side hinv rfl rfl rfl rfl trivial
      | del => exact h.side hinv rfl rfl rfl rfl trivial
  | waitFile w fd =>
      rcases hcase with ⟨fq, _, _, _, rfl⟩
      exact h.side hinv rfl rfl rfl rfl trivial
  | suspend w =>
      rcases hcase with ⟨fq, _, rfl⟩
      exact h.side hinv rfl rfl rfl rfl trivial
  | resumeWait w =>
      rcases hcase with ⟨fq, _, rfl⟩
      exact h.side hinv rfl rfl rfl rfl trivial
  | run ok =>
      rcases hcase with ⟨func, funcs, hphase, hfuncs, hrun⟩
      exact h.runFunc ok hphase hfuncs hrun hinv
  | drained =>
      rcases hcase with ⟨hphase, rfl⟩
      have htoWalk := (h.walks_drain hphase).2
      constructor
      · apply h.keep hinv htoWalk.symm
        · exact fun _ => id
        · intro _
          refine ⟨fun hpoll => ?_, rfl⟩
          cases hphase.symm.trans hpoll
        · rfl
        · rfl
      · refine .keeps trivial rfl ?_
        rw [Pass.walks, Pass.walks, htoWalk]
        rfl
  | walk woken =>
      rcases hcase with ⟨entry, rest, hphase, _, rfl⟩
      have hvisit : Pass.visit p.icu.phase = [entry] := by rw [hphase, Pass.visit]
      simp only [Pass.record, hvisit]
      rcases h.walk hphase hinv rfl rfl rfl rfl with ⟨hpassing, hwalks⟩
      exact ⟨hpassing, .keeps trivial rfl hwalks⟩
  | clear =>
      rcases hcase with ⟨hphase, rfl⟩
      have htoWalk : p.icu.toWalk = [] := by rw [State.toWalk, hphase]
      constructor
      · apply h.keep hinv htoWalk.symm
        · exact fun _ hmem => absurd hmem List.not_mem_nil
        · exact fun hpoll => absurd rfl hpoll
        · rfl
        · rfl
      · refine .keeps trivial rfl ?_
        rw [Pass.walks, Pass.walks, htoWalk]
        rfl
  | waitIRQ entries =>
      rcases hcase with ⟨hphase, hpolled, rfl⟩
      exact ⟨h.waitIRQ hphase hreported hpolled hinv rfl rfl rfl rfl, .resets trivial rfl⟩

/-! ## The requested walks -/

omit [DecidableEq ω] in
/-- A requested walk happens once if it happens at all. -/
theorem Passing.served_iff_mem (h : Passing p) :
    p.Served ↔ ∀ fq ∈ p.requested, Entry.file fq ∈ p.walks := by
  have hcount : ∀ entry : Entry φ, entry ∈ p.walks ↔ p.walks.count entry = 1 := by
    intro entry
    constructor
    · exact List.count_eq_one_of_mem h.once
    · intro hone
      apply List.count_pos_iff.mp
      omega
  have hall : (∀ fq ∈ p.requested, Entry.file fq ∈ p.walks) ↔
      ∀ fq ∈ p.requested, p.walks.count (.file fq) = 1 :=
    forall₂_congr fun fq _ => hcount (.file fq)
  rw [hall]
  by_cases hphase : p.icu.phase = .poll
  · have hwalks : p.walks = p.visited := by
      rw [Pass.walks, State.toWalk, hphase, List.append_nil]
    rw [hwalks]
    constructor
    · exact fun hserved => hserved.walked hphase
    · exact fun hvisited => ⟨fun hne => absurd hphase hne, fun _ => hvisited⟩
  · rw [h.split hphase]
    constructor
    · exact fun hserved => hserved.listed hphase
    · exact fun hlisted => ⟨fun _ => hlisted, fun hpoll => absurd hpoll hphase⟩

/-- Which steps skip a requested walk. -/
theorem Passing.served_step_iff (h : Passing p) (hserved : p.Served) {a : Action δ φ ω}
    (hstep : Pass.step p a = some p') : p'.Served ↔ Pass.Fresh p a := by
  rcases h.step hstep with ⟨hpassing, houtcome⟩
  have hall := h.served_iff_mem.mp hserved
  rw [hpassing.served_iff_mem]
  cases houtcome with
  | keeps hfresh hrequested hwalks =>
      rw [hrequested, hwalks]
      exact iff_of_true hall hfresh
  | resets hfresh hrequested =>
      rw [hrequested]
      exact iff_of_true (fun _ hmem => absurd hmem List.not_mem_nil) hfresh
  | requests fq hfresh hrequested hwalks =>
      rw [hrequested, List.forall_mem_cons, hfresh, and_iff_left_iff_imp]
      exact fun _ fq' hmem => hwalks _ (hall fq' hmem)

theorem inductive_passing :
    (Pass.machine : Machine (Pass δ φ ω) (Action δ φ ω)).Inductive Passing where
  init := by
    rintro _ rfl
    exact passing_construct
  step _ _ _ h hstep := (h.step hstep).1

/-- In every state of a run every {lit}`FileWQ` for which the function of a {lit}`FileAwaiter` has run is in
{lit}`list_` exactly once and is walked exactly once, if and only if no such function runs for a {lit}`FileWQ`
that has {lit}`waked_` from its constructor. -/
theorem served_iff {as : List (Action δ φ ω)} (hrun : Pass.machine.run .construct as = some p) :
    Pass.machine.Always Pass.Served .construct as ↔
      Pass.machine.Along Pass.Fresh .construct as := by
  apply Machine.always_iff_along (I := Passing)
  · exact inductive_passing.step
  · exact fun _ _ _ h hserved hstep => h.served_step_iff hserved hstep
  · exact passing_construct
  · refine ⟨fun _ _ hmem => absurd hmem List.not_mem_nil, fun hpoll => ?_⟩
    cases hpoll
  · exact hrun

/-- A constructor leaves {lit}`waked_` set, but {lit}`epoll_wait` returns the {lit}`FileWQ` before a coroutine waits
on it. -/
def reportedFirst : List (Action Nat Nat Nat) :=
  [.updateIRQ 0 0 true, .run true, .resumeCall, .drained, .clear, .waitIRQ [.file 0], .drained,
    .walk [], .clear, .waitIRQ [], .waitFile 0 0, .suspend 0, .run true, .drained, .walk [0],
    .clear]

theorem reportedFirst_served :
    ∃ p : Pass Nat Nat Nat, p.requested = [0] ∧ p.visited = [.file 0] ∧
      Pass.machine.Always Pass.Served .construct reportedFirst := by
  have hrun : ((Pass.machine.restrict Pass.Fresh).run .construct reportedFirst).map
      (fun p : Pass Nat Nat Nat => (p.requested, p.visited)) = some ([0], [.file 0]) := by
    decide +kernel
  rcases Option.map_eq_some_iff.mp hrun with ⟨p, hp, hvalues⟩
  rcases Machine.restrict_run_iff.mp hp with ⟨hp, hfresh⟩
  exact ⟨p, congrArg Prod.fst hvalues, congrArg Prod.snd hvalues, (served_iff hp).mpr hfresh⟩

/-- A constructor leaves {lit}`waked_` set, and a coroutine waits on the {lit}`FileWQ` before {lit}`epoll_wait` has
returned it: {lit}`wakeWQ` does not list it, and it is not walked. -/
theorem request_skipped :
    ¬ ∀ p : Pass Nat Nat Nat, Pass.machine.Reachable p → p.Served := by
  intro hclaim
  have hrun : (Pass.machine.run .construct
      [.updateIRQ 0 0 true, .run true, .resumeCall, .waitFile 0 0, .suspend 0, .run true, .drained,
        .clear]).map (fun p : Pass Nat Nat Nat => (p.requested, p.visited, p.icu.toWalk)) =
          some ([0], [], []) := by
    decide +kernel
  rcases Option.map_eq_some_iff.mp hrun with ⟨p, hp, hvalues⟩
  have hserved := hclaim p ⟨_, _, rfl, hp⟩
  have hrequested : p.requested = [0] := congrArg Prod.fst hvalues
  have hwalks : p.visited = [] ∧ p.icu.toWalk = [] :=
    ⟨congrArg (fun v => v.2.1) hvalues, congrArg (fun v => v.2.2) hvalues⟩
  have hpassing : Passing p := inductive_passing.reachable ⟨_, _, rfl, hp⟩
  have hall := hpassing.served_iff_mem.mp hserved
  rw [hrequested, List.forall_mem_singleton, Pass.walks, hwalks.1, hwalks.2] at hall
  cases hall

end Registry
end CoEpoll
