import CoEpoll.CoKernel.LoadOrder.Masks
import CoEpoll.Transition.Custody

/-!
# `colib::socket`, `colib::accept` and `colib::close`: the life of a descriptor

A descriptor that {lit}`::socket` or {lit}`::accept4` returns is registered with {lit}`updateIRQ` before the caller gets
it; when this fails it is closed again.  {lit}`colib::close` calls {lit}`removeIRQ` and then {lit}`::close`.  In between,
the other coroutines make and close descriptors, and the system gives out any number that is not in
use.  {lit}`updateIRQ` and {lit}`removeIRQ` are single steps here, and a removal whose ICU has a {lit}`pos` out of
range is none.

A descriptor 0 is returned without having been registered.

Main results:

- Theorem {lit}`Inv.step`: when only held descriptors are closed, every step keeps the books.
- Theorem {lit}`descriptors_accounted`: no descriptor is lost, and none is polled without its {lit}`FileWQ`.
-/

namespace CoEpoll
namespace Colib
namespace Descriptors

open Transition CoKernel

/-- {lit}`EPOLLIN | EPOLLOUT | EPOLLRDHUP | EPOLLET` -/
def EVENTS : UInt32 := 0x80002005

/-- Where a coroutine stands in {lit}`socket`, {lit}`accept` or {lit}`close`. -/
inductive Pc where
  | idle
  /-- The system has made {lit}`fd`; about to call {lit}`updateIRQ`. -/
  | made (fd : Int32)
  /-- {lit}`updateIRQ` has returned {lit}`ret`. -/
  | registered (fd : Int32) (ret : Int)
  /-- In {lit}`close`, about to call {lit}`removeIRQ`. -/
  | closing (fd : Int32)
  /-- {lit}`removeIRQ` has returned {lit}`ret`; about to call {lit}`::close`. -/
  | removed (fd : Int32) (ret : Int)
deriving DecidableEq

/-- The descriptor that the coroutine is at. -/
def Pc.fd : Pc → Option Int32
  | .idle => none
  | .made fd => some fd
  | .registered fd _ => some fd
  | .closing fd => some fd
  | .removed fd _ => some fd

/-- The kernel and its pollers, the descriptors that are open, those that callers have been given and
not closed, and the coroutines. -/
structure State (κ ι : Type*) where
  polled : Polled ι
  isOpen : Int32 → Bool
  held : List Int32
  pc : κ → Pc

variable {κ ι : Type*}

/-- A new kernel in a process in which the descriptors {lit}`other` are open. -/
def State.construct (icus : List ι) (pos : ι → ℕ) (other : Int32 → Bool) : State κ ι where
  polled := Polled.construct icus pos
  isOpen := other
  held := []
  pc _ := .idle

inductive Action (κ : Type*) where
  /-- {lit}`::socket` returns {lit}`fd`. -/
  | socket (k : κ) (fd : Int32)
  /-- {lit}`::accept4` returns {lit}`fd`, and {lit}`accept` goes on. -/
  | accept (k : κ) (fd : Int32)
  /-- {lit}`updateIRQ` with the poller's answer. -/
  | updateIRQ (k : κ) (ret : Int)
  | close (k : κ) (fd : Int32)
  /-- {lit}`removeIRQ` with the poller's answer. -/
  | removeIRQ (k : κ) (ret : Int)
  /-- {lit}`socket`, {lit}`accept` or {lit}`close` returns, after {lit}`::close` where it calls this. -/
  | finish (k : κ)
deriving DecidableEq

section Step

variable [DecidableEq κ]

/-- The coroutine goes on at {lit}`p`. -/
@[simps] def State.goto (s : State κ ι) (k : κ) (p : Pc) : State κ ι :=
  { s with pc := Function.update s.pc k p }

omit [DecidableEq κ] in
/-- {lit}`::close`: the descriptor is free, and the system takes it off every interest list. -/
@[simps] def State.close (s : State κ ι) (fd : Int32) : State κ ι :=
  { s with
    polled := { s.polled with
      interest := fun icu => Function.update (s.polled.interest icu) fd none }
    isOpen := Function.update s.isOpen fd false }

/-- The system returns an error or a number that is not in use; {lit}`if (fd > 0)` it is registered. -/
def make (s : State κ ι) (k : κ) (fd : Int32) : Option (State κ ι) :=
  if s.pc k = .idle then
    if fd < 0 then some s
    else if s.isOpen fd then none
    else
      let s := { s with isOpen := Function.update s.isOpen fd true }
      if fd > 0 then some (s.goto k (.made fd)) else some { s with held := s.held ++ [fd] }
  else none

/-- {lit}`colib::socket` after {lit}`::socket` -/
def socket (s : State κ ι) (k : κ) (fd : Int32) : Option (State κ ι) :=
  make s k fd

/-- {lit}`colib::accept` after {lit}`waitFile` -/
def accept (s : State κ ι) (k : κ) (fd : Int32) : Option (State κ ι) :=
  make s k fd

/-- {lit}`colib::close` up to {lit}`removeIRQ`; a negative number is refused. -/
def close (s : State κ ι) (k : κ) (fd : Int32) : Option (State κ ι) :=
  if s.pc k = .idle then
    if fd < 0 then some s
    else some ({ s with held := s.held.erase fd }.goto k (.closing fd))
  else none

/-- The return of {lit}`socket`, {lit}`accept` and {lit}`close`. -/
def finish (s : State κ ι) (k : κ) : Option (State κ ι) :=
  match s.pc k with
  | .registered fd ret =>
      if ret = 0 then some ({ s with held := s.held ++ [fd] }.goto k .idle)
      else some ((s.close fd).goto k .idle)
  | .removed fd _ => some ((s.close fd).goto k .idle)
  | _ => none

variable [DecidableEq ι]

/-- One step of a coroutine. -/
def step (icus : List ι) (s : State κ ι) : Action κ → Option (State κ ι)
  | .socket k fd => socket s k fd
  | .accept k fd => accept s k fd
  | .updateIRQ k ret =>
      match s.pc k with
      | .made fd =>
          ((pollers icus).step s.polled (.updateIRQ fd EVENTS ret)).map fun p =>
            { s with polled := p }.goto k (.registered fd ret)
      | _ => none
  | .close k fd => close s k fd
  | .removeIRQ k ret =>
      match s.pc k with
      | .closing fd =>
          ((pollers icus).step s.polled (.removeIRQ fd ret)).map fun p =>
            { s with polled := p }.goto k (.removed fd ret)
      | _ => none
  | .finish k => finish s k

/-- Coroutines that make and close descriptors, in any interleaving. -/
def machine (icus : List ι) (other : Int32 → Bool) : Machine (State κ ι) (Action κ) where
  init s := ∃ pos, s = State.construct icus pos other
  step := step icus

end Step

/-- Only a descriptor that has been given out and not been closed is closed. -/
def ClosesHeld (s : State κ ι) : Action κ → Prop
  | .close _ fd => fd < 0 ∨ fd ∈ s.held
  | _ => True

instance (s : State κ ι) (a : Action κ) : Decidable (ClosesHeld s a) := by
  cases a <;> unfold ClosesHeld <;> infer_instance

/-- What is true of the descriptors, the map and the interest lists. -/
structure Accounted (other : Int32 → Bool) (s : State κ ι) : Prop where
  /-- Every open descriptor is somewhere. -/
  opened : ∀ fd, s.isOpen fd = true ↔
    other fd = true ∨ fd ∈ s.held ∨ ∃ k, (s.pc k).fd = some fd
  /-- No descriptor is in two places. -/
  held : s.held.Nodup ∧ ∀ fd ∈ s.held, other fd = false ∧ ∀ k, (s.pc k).fd ≠ some fd
  hands : ∀ k fd, (s.pc k).fd = some fd → other fd = false ∧ ∀ j, (s.pc j).fd = some fd → j = k
  /-- What has an entry in {lit}`fileWQPtrs_`. -/
  entries : ∀ fd, Assoc.find s.polled.kernel.fileWQPtrs_ fd ≠ none ↔
    0 < fd ∧ (fd ∈ s.held ∨ ∃ k, s.pc k = .registered fd 0 ∨ s.pc k = .closing fd)
  /-- An entry is polled with the mask that it records. -/
  polled : ∀ fd fq, Assoc.find s.polled.kernel.fileWQPtrs_ fd = some fq →
    fq.fd_ = fd ∧ fq.wevents_ = EVENTS ∧ s.polled.interest fq.icu_ fd = some EVENTS
  /-- What is polled has its entry, unless {lit}`EPOLL_CTL_DEL` has failed and {lit}`::close` is still to come. -/
  owned : ∀ icu fd, s.polled.interest icu fd ≠ none →
    (∃ fq, Assoc.find s.polled.kernel.fileWQPtrs_ fd = some fq ∧ fq.icu_ = icu) ∨
    ∃ k ret, s.pc k = .removed fd ret ∧ ret ≠ 0

/-! ## One coroutine moves -/

theorem exists_split {τ π : Type*} (Q : π → Prop) (f : τ → π) (k : τ) :
    (∃ j, Q (f j)) ↔ Q (f k) ∨ ∃ j, j ≠ k ∧ Q (f j) := by
  constructor
  · rintro ⟨j, hj⟩
    by_cases hjk : j = k
    · exact .inl (hjk ▸ hj)
    · exact .inr ⟨j, hjk, hj⟩
  · rintro (hk | ⟨j, _, hj⟩)
    · exact ⟨k, hk⟩
    · exact ⟨j, hj⟩

theorem exists_update {τ π : Type*} [DecidableEq τ] (Q : π → Prop) (f : τ → π) (k : τ) (x : π) :
    (∃ j, Q (Function.update f k x j)) ↔ Q x ∨ ∃ j, j ≠ k ∧ Q (f j) := by
  rw [exists_split Q _ k, Function.update_self]
  refine or_congr_right (exists_congr fun j => and_congr_right fun hj => ?_)
  rw [Function.update_of_ne hj]

/-! ## The invariant -/

/-- A coroutine at this place has {lit}`fd`. -/
def Pc.Has (fd : Int32) (p : Pc) : Prop :=
  p.fd = some fd

/-- A coroutine at this place keeps the entry of {lit}`fd`. -/
def Pc.Keeps (fd : Int32) (p : Pc) : Prop :=
  p = .registered fd 0 ∨ p = .closing fd

/-- A coroutine at this place has failed to take {lit}`fd` off the interest list. -/
def Pc.Leaves (fd : Int32) (p : Pc) : Prop :=
  ∃ ret, p = .removed fd ret ∧ ret ≠ 0

/-- A descriptor at this place is to be registered. -/
def Pc.Fresh (p : Pc) : Prop :=
  ∀ fd, (p = .made fd ∨ ∃ ret, p = .registered fd ret) → 0 < fd

/-- The descriptors that the coroutines are at. -/
def State.own (s : State κ ι) (k : κ) : Option Int32 :=
  (s.pc k).fd

/-- The descriptors that the callers or the coroutines have. -/
def State.ours (other : Int32 → Bool) (s : State κ ι) (fd : Int32) : Prop :=
  s.isOpen fd = true ∧ other fd = false

/-- The invariant. -/
structure Inv (other : Int32 → Bool) (s : State κ ι) : Prop where
  custody : Custody s.held [] s.own (s.ours other)
  nodup : s.held.Nodup
  opened : ∀ fd, s.isOpen fd = true ↔
    other fd = true ∨ fd ∈ s.held ∨ ∃ k, (s.pc k).Has fd
  fresh : ∀ k, (s.pc k).Fresh
  entries : ∀ fd, Assoc.find s.polled.kernel.fileWQPtrs_ fd ≠ none ↔
    0 < fd ∧ (fd ∈ s.held ∨ ∃ k, (s.pc k).Keeps fd)
  polled : ∀ fd fq, Assoc.find s.polled.kernel.fileWQPtrs_ fd = some fq →
    fq.fd_ = fd ∧ fq.wevents_ = EVENTS ∧ s.polled.interest fq.icu_ fd = some EVENTS
  owned : ∀ icu fd, s.polled.interest icu fd ≠ none →
    (∃ fq, Assoc.find s.polled.kernel.fileWQPtrs_ fd = some fq ∧ fq.icu_ = icu) ∨
    ∃ k, (s.pc k).Leaves fd

variable {other : Int32 → Bool} {s s' : State κ ι} {k : κ} {fd : Int32} {ret : Int}

theorem inv_construct (icus : List ι) (pos : ι → ℕ) (other : Int32 → Bool) :
    Inv other (State.construct (κ := κ) icus pos other) where
  custody := by
    refine ⟨?_, ?_, ?_, ?_⟩ <;> simp [State.construct, State.own, Pc.fd]
  nodup := List.nodup_nil
  opened fd := by simp [State.construct, Pc.Has, Pc.fd]
  fresh k fd h := by simp [State.construct] at h
  entries fd := by simp [State.construct, Polled.construct, CoKernel.State.construct, Pc.Keeps,
    Assoc.find]
  polled fd fq h := by cases h
  owned icu fd h := absurd rfl h

theorem Inv.other_open (h : Inv other s) (hother : other fd = true) : s.isOpen fd = true :=
  (h.opened fd).mpr (.inl hother)

/-- A descriptor that a coroutine is at is in no other place. -/
theorem Inv.alone (h : Inv other s) (hk : (s.pc k).fd = some fd) :
    fd ∉ s.held ∧ ∀ j, (s.pc j).fd = some fd → j = k :=
  ⟨(h.custody.owned k fd hk).2.1, fun j hj => h.custody.alone j k fd hj hk⟩

theorem Inv.not_held (h : Inv other s) (hheld : fd ∈ s.held) (k : κ) : (s.pc k).fd ≠ some fd :=
  fun hk => (h.alone hk).1 hheld

/-- What the invariant says for the caller. -/
theorem Inv.accounted (h : Inv other s) : Accounted other s where
  opened := h.opened
  held := by
    refine ⟨h.nodup, fun fd hheld => ⟨?_, h.not_held hheld⟩⟩
    exact (h.custody.bound fd (.inl hheld)).2
  hands k fd hk := ⟨(h.custody.owned k fd hk).1.2, (h.alone hk).2⟩
  entries := h.entries
  polled := h.polled
  owned icu fd hne := by
    rcases h.owned icu fd hne with hfq | ⟨k, ret, hk⟩
    · exact .inl hfq
    · exact .inr ⟨k, ret, hk⟩

/-! ## The calls of the kernel -/

section Kernel

variable [DecidableEq ι] {icus : List ι} {p p' : Polled ι} {events : UInt32}

/-- {lit}`updateIRQ` of a descriptor without an entry. -/
theorem pollers_register (hfind : Assoc.find p.kernel.fileWQPtrs_ fd = none)
    (hstep : (pollers icus).step p (.updateIRQ fd events ret) = some p') :
    (ret ≠ 0 ∧ p' = p) ∨
    (∃ icu, ret = 0 ∧
      p'.kernel.fileWQPtrs_ = (fd, ⟨fd, icu, events⟩) :: p.kernel.fileWQPtrs_ ∧
      p'.interest = epollCtl p.interest icu fd (some events) 0) := by
  rcases p' with ⟨kernel, interest⟩
  rcases pollers_step_eq_some.mp hstep with ⟨hkernel, hinterest⟩
  dsimp only at hkernel hinterest
  rw [Polled.request, hfind] at hinterest
  dsimp only at hinterest
  rcases updateIRQ_cases hkernel with ⟨_, hret, rfl⟩ | ⟨icu, _, rfl, hicu, hptrs⟩ | ⟨fq, hfq, _⟩
  · refine .inl ⟨hret, ?_⟩
    have hsame : interest = p.interest := by
      rw [hinterest]
      split
      · rfl
      · exact epollCtl_of_ne_zero _ hret
    rw [hsame]
  · rw [hicu] at hinterest
    exact .inr ⟨icu, rfl, hptrs, hinterest⟩
  · cases hfind.symm.trans hfq

/-- {lit}`removeIRQ` erases the entry. -/
theorem pollers_remove (hstep : (pollers icus).step p (.removeIRQ fd ret) = some p') :
    (Assoc.find p.kernel.fileWQPtrs_ fd = none ∧ p' = p) ∨
    (∃ fq, Assoc.find p.kernel.fileWQPtrs_ fd = some fq ∧
      p'.kernel.fileWQPtrs_ = Assoc.erase p.kernel.fileWQPtrs_ fd ∧
      p'.interest = epollCtl p.interest fq.icu_ fd none ret) := by
  rcases p' with ⟨kernel, interest⟩
  rcases pollers_step_eq_some.mp hstep with ⟨hkernel, hinterest⟩
  dsimp only at hkernel hinterest
  rcases removeIRQ_cases hkernel with ⟨hfind, rfl⟩ | ⟨fq, hfind, hptrs⟩
  · rw [Polled.request, hfind] at hinterest
    exact .inl ⟨hfind, by rw [hinterest]⟩
  · rw [Polled.request, hfind] at hinterest
    exact .inr ⟨fq, hfind, hptrs, hinterest⟩

end Kernel

/-! ## Every step keeps the invariant -/

section Moves

variable {p q : Pc}

/-- What the invariant says of the coroutine {lit}`k` and of the others. -/
theorem Inv.opened_at (h : Inv other s) (hk : s.pc k = p) (fd : Int32) : s.isOpen fd = true ↔
    other fd = true ∨ fd ∈ s.held ∨ p.Has fd ∨ ∃ j, j ≠ k ∧ (s.pc j).Has fd := by
  rw [h.opened, exists_split (Pc.Has fd) s.pc k, hk]

theorem Inv.entries_at (h : Inv other s) (hk : s.pc k = p) (fd : Int32) :
    Assoc.find s.polled.kernel.fileWQPtrs_ fd ≠ none ↔
      0 < fd ∧ (fd ∈ s.held ∨ p.Keeps fd ∨ ∃ j, j ≠ k ∧ (s.pc j).Keeps fd) := by
  rw [h.entries, exists_split (Pc.Keeps fd) s.pc k, hk]

theorem Inv.owned_at (h : Inv other s) (hk : s.pc k = p) {icu : ι} {fd : Int32}
    (hne : s.polled.interest icu fd ≠ none) :
    (∃ fq, Assoc.find s.polled.kernel.fileWQPtrs_ fd = some fq ∧ fq.icu_ = icu) ∨
      p.Leaves fd ∨ ∃ j, j ≠ k ∧ (s.pc j).Leaves fd := by
  rw [← hk, ← exists_split (Pc.Leaves fd) s.pc k]
  exact h.owned icu fd hne

/-- No other coroutine is at a descriptor of this one. -/
theorem Inv.not_other (h : Inv other s) (hk : (s.pc k).fd = some fd) {Q : Pc → Prop}
    (hQ : ∀ p, Q p → p.fd = some fd) : ¬ ∃ j, j ≠ k ∧ Q (s.pc j) := by
  rintro ⟨j, hj, hjQ⟩
  exact hj ((h.alone hk).2 j (hQ _ hjQ))

theorem Pc.Keeps.fd_eq (h : p.Keeps fd) : p.fd = some fd := by
  rcases h with rfl | rfl <;> rfl

theorem Pc.Leaves.fd_eq (h : p.Leaves fd) : p.fd = some fd := by
  rcases h with ⟨ret, rfl, _⟩
  rfl

variable [DecidableEq κ]

/-- One coroutine moves to {lit}`q`. -/
theorem Inv.move (h : Inv other s) (hpc : s'.pc = Function.update s.pc k q)
    (hcustody : Custody s'.held [] (Function.update s.own k q.fd) (s'.ours other))
    (hnodup : s'.held.Nodup)
    (hopened : ∀ fd, s'.isOpen fd = true ↔
      other fd = true ∨ fd ∈ s'.held ∨ q.Has fd ∨ ∃ j, j ≠ k ∧ (s.pc j).Has fd)
    (hfresh : q.Fresh)
    (hentries : ∀ fd, Assoc.find s'.polled.kernel.fileWQPtrs_ fd ≠ none ↔
      0 < fd ∧ (fd ∈ s'.held ∨ q.Keeps fd ∨ ∃ j, j ≠ k ∧ (s.pc j).Keeps fd))
    (hpolled : ∀ fd fq, Assoc.find s'.polled.kernel.fileWQPtrs_ fd = some fq →
      fq.fd_ = fd ∧ fq.wevents_ = EVENTS ∧ s'.polled.interest fq.icu_ fd = some EVENTS)
    (howned : ∀ icu fd, s'.polled.interest icu fd ≠ none →
      (∃ fq, Assoc.find s'.polled.kernel.fileWQPtrs_ fd = some fq ∧ fq.icu_ = icu) ∨
        q.Leaves fd ∨ ∃ j, j ≠ k ∧ (s.pc j).Leaves fd) : Inv other s' where
  custody := by
    have hown : s'.own = Function.update s.own k q.fd := by
      funext j
      unfold State.own
      rw [hpc]
      by_cases hj : j = k
      · subst hj
        simp
      · simp [hj]
    rw [hown]
    exact hcustody
  nodup := hnodup
  opened fd := by
    rw [hpc, exists_update (Pc.Has fd)]
    exact hopened fd
  fresh j := by
    rw [hpc]
    by_cases hj : j = k
    · rw [hj, Function.update_self]
      exact hfresh
    · rw [Function.update_of_ne hj]
      exact h.fresh j
  entries fd := by
    rw [hpc, exists_update (Pc.Keeps fd)]
    exact hentries fd
  polled := hpolled
  owned icu fd hne := by
    rw [hpc, exists_update (Pc.Leaves fd)]
    exact howned icu fd hne

/-- A free number is in no place. -/
theorem Inv.open_custody (h : Inv other s) (hfree : s.isOpen fd = false) (k : κ) :
    Custody s.held [] (Function.update s.own k (some fd)) fun n =>
      Function.update s.isOpen fd true n = true ∧ other n = false := by
  refine h.custody.move (fun n hn => ⟨?_, hn.2⟩) fun n hn => ?_
  · by_cases hnfd : n = fd
    · rw [hnfd, Function.update_self]
    · rw [Function.update_of_ne hnfd]
      exact hn.1
  · cases hn
    refine .inr ⟨fun hours => ?_, Function.update_self .., ?_⟩
    · cases hfree.symm.trans hours.1
    · cases hother : other fd with
      | false => rfl
      | true => cases hfree.symm.trans (h.other_open hother)

/-- The system has made a descriptor that is to be registered. -/
theorem Inv.make (h : Inv other s) (hk : s.pc k = .idle) (hfree : s.isOpen fd = false)
    (hpos : 0 < fd) :
    Inv other ({ s with isOpen := Function.update s.isOpen fd true }.goto k (.made fd)) := by
  refine h.move rfl (h.open_custody hfree k) h.nodup (fun fd' => ?_) ?_ (fun fd' => ?_) h.polled
    fun icu fd' hne => ?_
  · have hold := h.opened_at hk fd'
    change Function.update s.isOpen fd true fd' = true ↔ _
    by_cases hfd : fd' = fd
    · subst hfd
      simp [Pc.Has, Pc.fd]
    · rw [Function.update_of_ne hfd, hold]
      simp [Pc.Has, Pc.fd, Ne.symm hfd]
  · rintro fd' (hfd' | ⟨ret, hfd'⟩)
    · cases hfd'
      exact hpos
    · cases hfd'
  · have hold := h.entries_at hk fd'
    simpa [Pc.Keeps] using hold
  · have hold := h.owned_at hk hne
    simpa [Pc.Leaves] using hold

/-- The system has made descriptor 0, and the caller gets it. -/
theorem Inv.makeZero (h : Inv other s) (hk : s.pc k = .idle) (hfree : s.isOpen fd = false)
    (hzero : ¬ 0 < fd) :
    Inv other { s with isOpen := Function.update s.isOpen fd true, held := s.held ++ [fd] } := by
  have hnot : fd ∉ s.held := by
    intro hheld
    cases hfree.symm.trans ((h.opened fd).mpr (.inr (.inl hheld)))
  have hcustody := (h.open_custody hfree k).give (Function.update_self ..)
  rw [Function.update_idem] at hcustody
  refine h.move (k := k) (q := .idle) ?_ hcustody ?_ (fun fd' => ?_) ?_ (fun fd' => ?_) h.polled
    fun icu fd' hne => ?_
  · rw [← hk, Function.update_eq_self]
  · refine List.nodup_append.mpr ⟨h.nodup, List.nodup_singleton fd, ?_⟩
    rintro x hx y hy rfl
    rw [List.mem_singleton.mp hy] at hx
    exact hnot hx
  · have hold := h.opened_at hk fd'
    change Function.update s.isOpen fd true fd' = true ↔ _
    rw [List.mem_append, List.mem_singleton]
    by_cases hfd : fd' = fd
    · subst hfd
      simp
    · rw [Function.update_of_ne hfd, hold]
      simp [hfd]
  · rintro fd' (hfd' | ⟨ret, hfd'⟩) <;> cases hfd'
  · have hold := h.entries_at hk fd'
    rw [hold, List.mem_append, List.mem_singleton]
    refine and_congr_right fun hpos => ?_
    have hfd : fd' ≠ fd := by
      rintro rfl
      exact hzero hpos
    simp [hfd]
  · exact h.owned_at hk hne

/-- A registered descriptor goes to the caller. -/
theorem Inv.giveOut (h : Inv other s) (hk : s.pc k = .registered fd 0) :
    Inv other ({ s with held := s.held ++ [fd] }.goto k .idle) := by
  have hfd : (s.pc k).fd = some fd := by rw [hk]; rfl
  refine h.move rfl (h.custody.give hfd) ?_ (fun fd' => ?_) ?_ (fun fd' => ?_) h.polled
    fun icu fd' hne => ?_
  · refine List.nodup_append.mpr ⟨h.nodup, List.nodup_singleton fd, ?_⟩
    rintro x hx y hy rfl
    rw [List.mem_singleton.mp hy] at hx
    exact (h.alone hfd).1 hx
  · have hold := h.opened_at hk fd'
    change s.isOpen fd' = true ↔ _ ∨ fd' ∈ s.held ++ [fd] ∨ _
    rw [hold, List.mem_append, List.mem_singleton]
    simp only [Pc.Has, Pc.fd, Option.some.injEq, reduceCtorEq, false_or, eq_comm (a := fd), or_assoc]
  · rintro fd' (hfd' | ⟨ret, hfd'⟩) <;> cases hfd'
  · have hold := h.entries_at hk fd'
    change _ ↔ 0 < fd' ∧ (fd' ∈ s.held ++ [fd] ∨ _)
    rw [State.goto_polled, hold, List.mem_append, List.mem_singleton]
    simp only [Pc.Keeps, Pc.registered.injEq, reduceCtorEq, and_true, or_false, false_or,
      eq_comm (a := fd), or_assoc]
  · have hold := h.owned_at hk hne
    simpa [Pc.Leaves] using hold

/-- {lit}`::close` of a descriptor that has no entry. -/
theorem Inv.close (h : Inv other s) (hk : s.pc k = p) (hfd : p.fd = some fd)
    (hkeeps : ¬ p.Keeps fd) : Inv other ((s.close fd).goto k .idle) := by
  have hown : (s.pc k).fd = some fd := by rw [hk, hfd]
  have hnone : Assoc.find s.polled.kernel.fileWQPtrs_ fd = none := by
    by_contra hne
    rcases (h.entries_at hk fd).mp hne with ⟨_, hheld | hk' | hj⟩
    · exact (h.alone hown).1 hheld
    · exact hkeeps hk'
    · exact h.not_other hown (fun _ => Pc.Keeps.fd_eq) hj
  have hinterest : ∀ icu fd', fd' ≠ fd →
      ((s.close fd).goto k .idle).polled.interest icu fd' = s.polled.interest icu fd' := by
    intro icu fd' hne
    exact Function.update_of_ne hne _ _
  refine h.move rfl ?_ h.nodup (fun fd' => ?_) ?_ (fun fd' => ?_) (fun fd' fq hfq => ?_)
    fun icu fd' hne => ?_
  · have hdrop := h.custody.drop hown
    refine ⟨hdrop.apart, fun n hn => ?_, fun j n hn => ?_, hdrop.alone⟩
    · rcases hdrop.bound n hn with ⟨⟨hopen, hours⟩, hne⟩
      exact ⟨(Function.update_of_ne hne _ _).trans hopen, hours⟩
    · rcases hdrop.owned j n hn with ⟨⟨⟨hopen, hours⟩, hne⟩, hnot⟩
      exact ⟨⟨(Function.update_of_ne hne _ _).trans hopen, hours⟩, hnot⟩
  · change Function.update s.isOpen fd false fd' = true ↔ other fd' = true ∨ fd' ∈ s.held ∨ _
    by_cases hfd' : fd' = fd
    · subst hfd'
      have hothers := h.not_other hown (Q := Pc.Has fd') fun _ hp => hp
      have hours := (h.custody.owned k fd' hown).1.2
      simp only [Function.update_self, hours, (h.alone hown).1, hothers]
      simp [Pc.Has, Pc.fd]
    · have hp : ¬ p.Has fd' := fun hp => hfd' (Option.some.inj (hp.symm.trans hfd))
      have hidle : ¬ (Pc.idle).Has fd' := by simp [Pc.Has, Pc.fd]
      rw [Function.update_of_ne hfd', h.opened_at hk]
      simp only [hp, hidle]
  · rintro fd' (hfd' | ⟨ret, hfd'⟩) <;> cases hfd'
  · have hold := h.entries_at hk fd'
    change Assoc.find s.polled.kernel.fileWQPtrs_ fd' ≠ none ↔ 0 < fd' ∧ (fd' ∈ s.held ∨ _)
    rw [hold]
    have hidle : ¬ (Pc.idle).Keeps fd' := by simp [Pc.Keeps]
    have hp : ¬ p.Keeps fd' := by
      intro hp
      have hsame := hfd.symm.trans hp.fd_eq
      cases hsame
      exact hkeeps hp
    simp only [hidle, hp]
  · have hne : fd' ≠ fd := by
      rintro rfl
      cases hnone.symm.trans hfq
    rw [hinterest _ _ hne]
    exact h.polled fd' fq hfq
  · have hfd' : fd' ≠ fd := by
      rintro rfl
      exact hne (Function.update_self ..)
    rw [hinterest _ _ hfd'] at hne
    refine (h.owned_at hk hne).imp_right fun hleaves => .inr ?_
    refine hleaves.resolve_left fun hp => hfd' ?_
    exact Option.some.inj (hp.fd_eq.symm.trans hfd)

/-- {lit}`close` of a held descriptor. -/
theorem Inv.beginClose (h : Inv other s) (hk : s.pc k = .idle) (hheld : fd ∈ s.held) :
    Inv other ({ s with held := s.held.erase fd }.goto k (.closing fd)) := by
  have herase : ∀ n, n ∈ s.held.erase fd ↔ n ≠ fd ∧ n ∈ s.held := fun n => h.nodup.mem_erase_iff
  refine h.move rfl ?_ (h.nodup.erase fd) (fun fd' => ?_) ?_ (fun fd' => ?_) h.polled
    fun icu fd' hne => ?_
  · exact h.custody.take hheld fun n hn => ⟨((herase n).mp hn).1, .inl ((herase n).mp hn).2⟩
  · change s.isOpen fd' = true ↔ _ ∨ fd' ∈ s.held.erase fd ∨ _
    rw [h.opened_at hk, herase]
    by_cases hfd : fd' = fd
    · subst hfd
      simp [Pc.Has, Pc.fd, hheld]
    · simp [Pc.Has, Pc.fd, hfd, Ne.symm hfd]
  · rintro fd' (hfd' | ⟨ret, hfd'⟩) <;> cases hfd'
  · change _ ↔ 0 < fd' ∧ (fd' ∈ s.held.erase fd ∨ _)
    rw [State.goto_polled, h.entries_at hk, herase]
    by_cases hfd : fd' = fd
    · subst hfd
      simp [Pc.Keeps, hheld]
    · simp [Pc.Keeps, hfd, Ne.symm hfd]
  · have hold := h.owned_at hk hne
    simpa [Pc.Leaves] using hold

section Kernel

variable [DecidableEq ι] {icus : List ι} {p' : Polled ι}

/-- {lit}`updateIRQ` of a new descriptor. -/
theorem Inv.register (h : Inv other s) (hk : s.pc k = .made fd)
    (hstep : (pollers icus).step s.polled (.updateIRQ fd EVENTS ret) = some p') :
    Inv other ({ s with polled := p' }.goto k (.registered fd ret)) := by
  have hown : (s.pc k).fd = some fd := by rw [hk]; rfl
  have hpos : 0 < fd := h.fresh k fd (.inl hk)
  have hnone : Assoc.find s.polled.kernel.fileWQPtrs_ fd = none := by
    by_contra hne
    rcases (h.entries_at hk fd).mp hne with ⟨_, hheld | hkeeps | hj⟩
    · exact (h.alone hown).1 hheld
    · simp [Pc.Keeps] at hkeeps
    · exact h.not_other hown (fun _ => Pc.Keeps.fd_eq) hj
  have hcustody : Custody s.held [] (Function.update s.own k (some fd)) (s.ours other) := by
    rw [← hown]
    change Custody _ _ (Function.update s.own k (s.own k)) _
    rw [Function.update_eq_self]
    exact h.custody
  have hfresh : (Pc.registered fd ret).Fresh := by
    rintro fd' (hfd' | ⟨ret', hfd'⟩) <;> cases hfd'
    exact hpos
  rcases pollers_register hnone hstep with ⟨hret, rfl⟩ | ⟨icu, rfl, hptrs, hinterest⟩
  · refine h.move rfl hcustody h.nodup (fun fd' => h.opened_at hk fd') hfresh (fun fd' => ?_)
      h.polled fun icu fd' hne => ?_
    · have hold := h.entries_at hk fd'
      simpa [Pc.Keeps, hret] using hold
    · have hold := h.owned_at hk hne
      simpa [Pc.Leaves] using hold
  · refine h.move rfl hcustody h.nodup (fun fd' => h.opened_at hk fd') hfresh (fun fd' => ?_)
      (fun fd' fq hfq => ?_) fun icu' fd' hne => ?_
    · change Assoc.find p'.kernel.fileWQPtrs_ fd' ≠ none ↔ 0 < fd' ∧ (fd' ∈ s.held ∨ _)
      rw [hptrs, Assoc.find_cons]
      by_cases hfd : fd' = fd
      · subst hfd
        simp [Pc.Keeps, hpos]
      · have hold := h.entries_at hk fd'
        simpa [Pc.Keeps, Ne.symm hfd] using hold
    · change Assoc.find p'.kernel.fileWQPtrs_ fd' = some fq at hfq
      change _ ∧ _ ∧ p'.interest fq.icu_ fd' = some EVENTS
      rw [hptrs, Assoc.find_cons] at hfq
      rw [hinterest]
      by_cases hfd : fd' = fd
      · subst hfd
        rw [if_pos rfl] at hfq
        cases hfq
        exact ⟨rfl, rfl, epollCtl_self _⟩
      · rw [if_neg (Ne.symm hfd)] at hfq
        rw [epollCtl_of_ne _ hfd]
        exact h.polled fd' fq hfq
    · change p'.interest icu' fd' ≠ none at hne
      change (∃ fq, Assoc.find p'.kernel.fileWQPtrs_ fd' = some fq ∧ fq.icu_ = icu') ∨ _
      rw [hptrs, Assoc.find_cons]
      rw [hinterest] at hne
      by_cases hfd : fd' = fd
      · subst hfd
        rw [if_pos rfl]
        by_cases hicu : icu' = icu
        · exact .inl ⟨_, rfl, hicu.symm⟩
        · -- no other ICU polls a descriptor that has just been made
          have hold : s.polled.interest icu' fd' ≠ none := by
            simpa [epollCtl, hicu] using hne
          rcases h.owned_at hk hold with ⟨fq, hfq, _⟩ | hleaves | hj
          · cases hnone.symm.trans hfq
          · simp [Pc.Leaves] at hleaves
          · exact absurd hj (h.not_other hown fun _ => Pc.Leaves.fd_eq)
      · rw [if_neg (Ne.symm hfd)]
        rw [epollCtl_of_ne _ hfd] at hne
        have hold := h.owned_at hk hne
        simpa [Pc.Leaves] using hold

/-- {lit}`removeIRQ` in {lit}`close`. -/
theorem Inv.remove (h : Inv other s) (hk : s.pc k = .closing fd)
    (hstep : (pollers icus).step s.polled (.removeIRQ fd ret) = some p') :
    Inv other ({ s with polled := p' }.goto k (.removed fd ret)) := by
  have hown : (s.pc k).fd = some fd := by rw [hk]; rfl
  have hcustody : Custody s.held [] (Function.update s.own k (some fd)) (s.ours other) := by
    rw [← hown]
    change Custody _ _ (Function.update s.own k (s.own k)) _
    rw [Function.update_eq_self]
    exact h.custody
  have hfresh : (Pc.removed fd ret).Fresh := by
    rintro fd' (hfd' | ⟨ret', hfd'⟩) <;> cases hfd'
  have hothers := h.not_other hown (Q := Pc.Keeps fd) fun _ => Pc.Keeps.fd_eq
  rcases pollers_remove hstep with ⟨hnone, rfl⟩ | ⟨fq, hfq, hptrs, hinterest⟩
  · -- descriptor 0 has never been registered
    have hpos : ¬ 0 < fd := by
      intro hpos
      exact (h.entries_at hk fd).mpr ⟨hpos, .inr (.inl (.inr rfl))⟩ hnone
    refine h.move rfl hcustody h.nodup (fun fd' => h.opened_at hk fd') hfresh (fun fd' => ?_)
      h.polled fun icu fd' hne => ?_
    · change Assoc.find s.polled.kernel.fileWQPtrs_ fd' ≠ none ↔ 0 < fd' ∧ (fd' ∈ s.held ∨ _)
      rw [h.entries_at hk fd']
      refine and_congr_right fun hpos' => ?_
      have hne : fd ≠ fd' := by
        rintro rfl
        exact hpos hpos'
      simp [Pc.Keeps, hne]
    · rcases h.owned_at hk hne with hfq | hleaves | hj
      · exact .inl hfq
      · simp [Pc.Leaves] at hleaves
      · exact .inr (.inr hj)
  · refine h.move rfl hcustody h.nodup (fun fd' => h.opened_at hk fd') hfresh (fun fd' => ?_)
      (fun fd' fq' hfq' => ?_) fun icu' fd' hne => ?_
    · change Assoc.find p'.kernel.fileWQPtrs_ fd' ≠ none ↔ 0 < fd' ∧ (fd' ∈ s.held ∨ _)
      rw [hptrs, Assoc.find_erase]
      by_cases hfd : fd' = fd
      · subst hfd
        have hself : ¬ (Pc.removed fd' ret).Keeps fd' := by simp [Pc.Keeps]
        simp only [if_true, (h.alone hown).1, hself, hothers, ne_eq, not_true, or_false, and_false]
      · rw [if_neg hfd, h.entries_at hk fd']
        simp [Pc.Keeps, Ne.symm hfd]
    · change Assoc.find p'.kernel.fileWQPtrs_ fd' = some fq' at hfq'
      change _ ∧ _ ∧ p'.interest fq'.icu_ fd' = some EVENTS
      rw [hptrs, Assoc.find_erase] at hfq'
      rw [hinterest]
      split at hfq'
      · cases hfq'
      · rename_i hfd
        rw [epollCtl_of_ne _ hfd]
        exact h.polled fd' fq' hfq'
    · change p'.interest icu' fd' ≠ none at hne
      change (∃ fq, Assoc.find p'.kernel.fileWQPtrs_ fd' = some fq ∧ fq.icu_ = icu') ∨ _
      rw [hptrs, Assoc.find_erase]
      rw [hinterest] at hne
      by_cases hfd : fd' = fd
      · subst hfd
        by_cases hret : ret = 0
        · -- the ICU of the entry was the only one that polled it
          subst hret
          by_cases hicu : icu' = fq.icu_
          · rw [hicu, epollCtl_self] at hne
            exact absurd rfl hne
          · have hold : s.polled.interest icu' fd' ≠ none := by
              simpa [epollCtl, hicu] using hne
            rcases h.owned_at hk hold with ⟨fq', hfq', hicu'⟩ | hleaves | hj
            · cases hfq.symm.trans hfq'
              exact absurd hicu'.symm hicu
            · simp [Pc.Leaves] at hleaves
            · exact absurd hj (h.not_other hown fun _ => Pc.Leaves.fd_eq)
        · exact .inr (.inl ⟨ret, rfl, hret⟩)
      · rw [if_neg hfd]
        rw [epollCtl_of_ne _ hfd] at hne
        rcases h.owned_at hk hne with hfq' | hleaves | hj
        · exact .inl hfq'
        · simp [Pc.Leaves] at hleaves
        · exact .inr (.inr hj)

end Kernel

end Moves

/-! ## Whole runs -/

section Runs

variable [DecidableEq κ] [DecidableEq ι] {icus : List ι}

/-- A step that closes only what is held keeps the invariant. -/
theorem Inv.step (h : Inv other s) {a : Action κ} (hok : ClosesHeld s a)
    (hstep : step icus s a = some s') : Inv other s' := by
  have hmake : ∀ k fd, Descriptors.make s k fd = some s' → Inv other s' := by
    intro k fd hmake
    unfold Descriptors.make at hmake
    rcases Option.ite_none_right_eq_some.mp hmake with ⟨hk, hmake⟩
    split at hmake
    · cases hmake
      exact h
    · rcases Option.ite_none_left_eq_some.mp hmake with ⟨hfree, hmake⟩
      rw [Bool.not_eq_true] at hfree
      dsimp only at hmake
      split at hmake
      · rename_i hpos
        cases hmake
        exact h.make hk hfree hpos
      · rename_i hzero
        cases hmake
        exact h.makeZero hk hfree hzero
  cases a with
  | socket k fd => exact hmake k fd hstep
  | accept k fd => exact hmake k fd hstep
  | updateIRQ k ret =>
      simp only [Descriptors.step] at hstep
      split at hstep
      · rename_i fd hk
        rcases Option.map_eq_some_iff.mp hstep with ⟨p', hp', rfl⟩
        exact h.register hk hp'
      · cases hstep
  | removeIRQ k ret =>
      simp only [Descriptors.step] at hstep
      split at hstep
      · rename_i fd hk
        rcases Option.map_eq_some_iff.mp hstep with ⟨p', hp', rfl⟩
        exact h.remove hk hp'
      · cases hstep
  | close k fd =>
      simp only [Descriptors.step, Descriptors.close] at hstep
      rcases Option.ite_none_right_eq_some.mp hstep with ⟨hk, hstep⟩
      split at hstep
      · cases hstep
        exact h
      · rename_i hneg
        cases hstep
        exact h.beginClose hk (hok.resolve_left hneg)
  | finish k =>
      simp only [Descriptors.step, Descriptors.finish] at hstep
      split at hstep
      · rename_i fd ret hk
        split at hstep
        · rename_i hret
          cases hstep
          rw [hret] at hk
          exact h.giveOut hk
        · rename_i hret
          cases hstep
          exact h.close hk rfl (by simp [Pc.Keeps, hret])
      · rename_i fd ret hk
        cases hstep
        exact h.close hk rfl (by simp [Pc.Keeps])
      · cases hstep

/-- In every interleaving of {lit}`socket`, {lit}`accept` and {lit}`close` in which only held descriptors are closed,
whatever the pollers answer: every descriptor that has been made is held by one caller, in the hands of
one coroutine, or closed; those with an entry are the held ones and those about to be given out or
removed; a positive held descriptor is polled with the full mask by the ICU of its entry, and nothing
else is polled, a failed {lit}`EPOLL_CTL_DEL` before {lit}`::close` apart. -/
theorem descriptors_accounted {pos : ι → ℕ} {as : List (Action κ)}
    (hheld : (machine icus other).Along ClosesHeld (State.construct icus pos other) as)
    (hrun : (machine icus other).run (State.construct icus pos other) as = some s) :
    Accounted other s := by
  have hinv : Inv other s := by
    refine Machine.Along.run (I := Inv other) ?_ (inv_construct icus pos other) hheld hrun
    intro s a s' h hok hstep
    exact h.step hok hstep
  exact hinv.accounted

/-- One coroutine accepts descriptor 5 while the other one closes descriptor 4. -/
def sample : List (Action Bool) :=
  [.socket true 4, .updateIRQ true 0, .finish true, .accept false 5, .close true 4,
    .updateIRQ false 0, .removeIRQ true 0, .finish false, .finish true]

/-- A process without other descriptors. -/
def sampleStart : State Bool Bool :=
  State.construct [false, true] (fun _ => 7) fun _ => false

theorem descriptors_accounted_sample : ∃ s : State Bool Bool,
    (machine [false, true] fun _ => false).run sampleStart sample = some s ∧ s.held = [5] ∧
    Accounted (fun _ => false) s := by
  have hrun : (((machine [false, true] fun _ => false).restrict ClosesHeld).run sampleStart
      sample).map State.held = some [5] := by
    decide +kernel
  rcases Option.map_eq_some_iff.mp hrun with ⟨s, hs, hheld⟩
  rcases Machine.restrict_run_iff.mp hs with ⟨hs, halong⟩
  exact ⟨s, hs, hheld, descriptors_accounted halong hs⟩

end Runs

end Descriptors
end Colib
end CoEpoll
