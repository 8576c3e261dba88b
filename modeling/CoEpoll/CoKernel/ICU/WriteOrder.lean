import CoEpoll.CoKernel.ICU.EventLoop
import CoEpoll.Serial.Turns
import Mathlib.Data.List.Forall2

/-!
# `colib::writev`: concurrent writers never interleave

The writers of a descriptor take turns: {lit}`FileWQ::wakeup` calls only the first one, since
all wait for the same events and a callback that waits on has these events cleared.
Nothing is assumed of the kernel's events and results.

Main results:

- Theorem {lit}`Inv.writers_eq`: a writer that is called is the first writer in {lit}`items_`.
- Theorem {lit}`Ordered.step`: each step of the loop is a step of the writers that take turns.
- Theorem {lit}`writes_contiguous`: the accepted bytes are one prefix of each payload after the
  other.
-/

namespace CoEpoll
namespace EventLoop

open Transition ICU Irq Colib Serial

variable {ι κ β : Type*}

/-- The captured variables of a waiter that is a {lit}`writev`. -/
def writer? (item : WaitItem κ (WQCB β)) : Option (Writev β) :=
  match item.cb_ with
  | some (.writev c) => some c
  | _ => none

/-- The writers among the waiters. -/
def writers (items : List (WaitItem κ (WQCB β))) : List (Writev β) :=
  items.filterMap writer?

/-- The writers of {lit}`fd` are those of {lit}`t`. -/
structure Serves (s : State ι κ β) (fd : ι) (t : Turns β) : Prop where
  entered : (s.entered fd).map List.flatten = t.shares.map Share.payload
  sent : (s.sock fd).sent = t.wire
  waiting : List.Forall₂ (fun c share => share.part ++ c.tiov.flatten = share.payload)
    (writers (s.wq fd).items_) t.waiting
  calls : (writers (s.wq fd).items_).map Writev.call =
    List.range' t.gone.length (writers (s.wq fd).items_).length
  finished : ∀ call ret, (call, ret) ∈ s.finished fd → 0 ≤ ret →
    ∃ share, t.gone[call]? = some share ∧ share.part = share.payload

/-- A {lit}`writev` that is about to complete with a result that is not negative has nothing
left to offer. -/
def Done (s : State ι κ β) : Prop :=
  ∀ fd iter r item c, s.ge = some ⟨fd, iter, .returned r⟩ → (s.wq fd).items_[iter]? = some item →
    writer? item = some c → r.block = false → 0 ≤ r.ret → c.tiov = []

/-- The writers of every descriptor take turns. -/
structure Ordered (s : State ι κ β) : Prop where
  serves : ∀ fd, ∃ t, Serves s fd t
  done : Done s

variable {s s' : State ι κ β} {fd : ι} {iter : Nat} {rest : List ι} {t : Turns β}
  {item : WaitItem κ (WQCB β)} {items : List (WaitItem κ (WQCB β))} {c : Writev β}

/-! ## The writers in `items_` -/

theorem writer?_eq_some : writer? item = some c ↔ item.cb_ = some (.writev c) := by
  unfold writer?
  split
  · rename_i c' hcb
    rw [hcb, Option.some.injEq, Option.some.injEq, WQCB.writev.injEq]
  · rename_i hno
    exact ⟨nofun, fun hcb => absurd hcb (hno c)⟩

theorem writers_append (items items' : List (WaitItem κ (WQCB β))) :
    writers (items ++ items') = writers items ++ writers items' :=
  List.filterMap_append

theorem writers_cons_of_some (h : writer? item = some c) :
    writers (item :: items) = c :: writers items :=
  List.filterMap_cons_some h

theorem writers_cons_of_none (h : writer? item = none) : writers (item :: items) = writers items :=
  List.filterMap_cons_none h

/-- A writer that is called is the first writer in {lit}`items_`. -/
theorem Inv.writers_eq (h : Inv s) {stage : Stage} (hge : s.ge = some ⟨fd, iter, stage⟩)
    (hstage : stage ≠ .loop) (hitem : (s.wq fd).items_[iter]? = some item)
    (hwriter : writer? item = some c) :
    writers ((s.wq fd).items_.take iter) = [] ∧
      writers (s.wq fd).items_ = c :: writers ((s.wq fd).items_.drop (iter + 1)) := by
  have hmask : ∀ item c, item ∈ (s.wq fd).items_ → writer? item = some c →
      item.events_ = EPOLLOUT :=
    fun item c hmem hw => h.events fd item _ hmem (writer?_eq_some.mp hw)
  have hearlier : writers ((s.wq fd).items_.take iter) = [] := by
    refine List.filterMap_eq_nil_iff.mpr fun earlier hmem => ?_
    cases hw : writer? earlier with
    | none => rfl
    | some c' =>
        have hne := (h.passed _ hge).events_ne (h.called _ hge hstage) hitem hmem
        refine absurd ?_ hne
        rw [hmask earlier c' (List.mem_of_mem_take hmem) hw,
          hmask item c (List.mem_of_getElem? hitem) hwriter]
  refine ⟨hearlier, ?_⟩
  rw [FileWQ.items_eq hitem, writers_append, hearlier, writers_cons_of_some hwriter,
    List.nil_append]
  congr 1
  rw [← FileWQ.items_eq hitem]

/-! ## The steps of the writers -/

theorem serves_construct (waked fdCallbck : ι → Bool) (fd : ι) :
    Serves (State.construct waked fdCallbck : State ι κ β) fd Turns.empty where
  entered := rfl
  sent := rfl
  waiting := .nil
  calls := rfl
  finished _ _ h := absurd h List.not_mem_nil

/-- A step that leaves the writers alone. -/
theorem Serves.keep (h : Serves s fd t) (hentered : s'.entered fd = s.entered fd)
    (hsent : (s'.sock fd).sent = (s.sock fd).sent)
    (hwriters : writers (s'.wq fd).items_ = writers (s.wq fd).items_)
    (hfinished : s'.finished fd = s.finished fd) : Serves s' fd t where
  entered := hentered ▸ h.entered
  sent := hsent ▸ h.sent
  waiting := hwriters ▸ h.waiting
  calls := hwriters ▸ h.calls
  finished := hfinished ▸ h.finished

/-- As many calls have been made as writers have entered. -/
theorem Serves.length_entered (h : Serves s fd t) :
    (s.entered fd).length = t.gone.length + (writers (s.wq fd).items_).length := by
  have hlen := congrArg List.length h.entered
  rw [List.length_map, List.length_map, Turns.shares, List.length_append,
    ← h.waiting.length_eq] at hlen
  exact hlen

/-- A writer enters. -/
theorem Serves.enter (h : Serves s fd t) {iov : List (List β)}
    (hentered : s'.entered fd = s.entered fd ++ [iov])
    (hsent : (s'.sock fd).sent = (s.sock fd).sent)
    (hwriters : writers (s'.wq fd).items_ =
      writers (s.wq fd).items_ ++ [Writev.start (s.entered fd).length iov])
    (hfinished : s'.finished fd = s.finished fd) : Serves s' fd (t.enter iov.flatten) where
  entered := by
    rw [hentered, List.map_append, h.entered]
    simp [Turns.shares, Turns.enter]
  sent := by rw [hsent, h.sent, Turns.wire_enter]
  waiting := by
    rw [hwriters]
    refine List.rel_append h.waiting (.cons ?_ .nil)
    rw [Writev.start_tiov, List.nil_append]
  calls := by
    rw [hwriters, List.map_append, List.length_append, h.calls, h.length_entered]
    rw [List.length_singleton, List.range'_concat, Nat.one_mul]
    rfl
  finished := hfinished ▸ h.finished

/-- The first writer has bytes accepted. -/
theorem Serves.accept (h : Serves s fd t) {c' : Writev β} {cs : List (Writev β)}
    {bytes : List β} (hold : writers (s.wq fd).items_ = c :: cs)
    (hrest : bytes ++ c'.tiov.flatten = c.tiov.flatten) (hcall : c'.call = c.call)
    (hentered : s'.entered fd = s.entered fd)
    (hsent : (s'.sock fd).sent = (s.sock fd).sent ++ bytes.map (Prod.mk c.call))
    (hwriters : writers (s'.wq fd).items_ = c' :: cs)
    (hfinished : s'.finished fd = s.finished fd) : ∃ t', Serves s' fd t' := by
  have hwaiting := h.waiting
  rw [hold] at hwaiting
  rcases List.forall₂_cons_left_iff.mp hwaiting with ⟨first, others, hfirst, hothers, heq⟩
  have hpart : first.part ++ bytes ++ c'.tiov.flatten = first.payload := by
    rw [List.append_assoc, hrest, hfirst]
  have hbytes : first.part ++ bytes <+: first.payload := ⟨_, hpart⟩
  have hnum : c.call = t.gone.length := by
    have hcalls := h.calls
    rw [hold, List.map_cons, List.length_cons, List.range'_succ] at hcalls
    exact (List.cons.inj hcalls).1
  refine ⟨t.accept heq bytes hbytes, ?_⟩
  constructor
  · rw [hentered, h.entered]
    simp [Turns.shares, Turns.accept, heq]
  · rw [hsent, h.sent, Turns.wire_accept, hnum]
  · rw [hwriters]
    exact .cons hpart hothers
  · have hcalls := h.calls
    rw [hold, List.map_cons] at hcalls
    rw [hwriters, List.map_cons, hcall]
    exact hcalls
  · exact hfinished ▸ h.finished

/-- The first writer leaves with the result {lit}`ret`. -/
theorem Serves.leave (h : Serves s fd t) {cs : List (Writev β)} {ret : Int32}
    (hold : writers (s.wq fd).items_ = c :: cs) (hdone : 0 ≤ ret → c.tiov = [])
    (hentered : s'.entered fd = s.entered fd) (hsent : (s'.sock fd).sent = (s.sock fd).sent)
    (hwriters : writers (s'.wq fd).items_ = cs)
    (hfinished : s'.finished fd = s.finished fd ++ [(c.call, ret)]) :
    ∃ t', Serves s' fd t' := by
  have hwaiting := h.waiting
  rw [hold] at hwaiting
  rcases List.forall₂_cons_left_iff.mp hwaiting with ⟨first, others, hfirst, hothers, heq⟩
  have hcalls := h.calls
  rw [hold, List.map_cons, List.length_cons, List.range'_succ] at hcalls
  rcases List.cons.inj hcalls with ⟨hnum, hnums⟩
  refine ⟨t.leave heq, ?_⟩
  constructor
  · rw [hentered, h.entered, Turns.shares_leave]
  · rw [hsent, h.sent, Turns.wire_leave]
  · rw [hwriters]
    exact hothers
  · rw [hwriters, hnums, Turns.leave, List.length_append]
    rfl
  · intro call ret' hmem hret
    rw [hfinished, List.mem_append, List.mem_singleton, Prod.mk.injEq] at hmem
    rcases hmem with hmem | ⟨rfl, rfl⟩
    · rcases h.finished call ret' hmem hret with ⟨share, hshare, hfull⟩
      refine ⟨share, ?_, hfull⟩
      exact (List.getElem?_append_left (List.getElem?_eq_some_iff.mp hshare).1).trans hshare
    · refine ⟨first, ?_, ?_⟩
      · rw [hnum]
        exact List.getElem?_concat_length
      · rw [← hfirst, hdone hret, List.flatten_nil, List.append_nil]

/-! ## The steps of the loop -/

variable [DecidableEq ι]

theorem Ordered.addWait (h : Ordered s) (hge : s.ge = none) (fd : ι) (k : κ) (req : Request β) :
    Ordered (s.addWait fd k req) := by
  have hsock : (s.addWait fd k req).sock = s.sock := State.wakeWQ_sock
  have hfinished : (s.addWait fd k req).finished = s.finished := State.wakeWQ_finished
  have hentered : (s.addWait fd k req).entered =
      Function.update s.entered fd (s.entered fd ++ req.segments) := State.wakeWQ_entered
  have hnone : (s.addWait fd k req).ge = none := State.wakeWQ_ge.trans hge
  refine ⟨fun fd' => ?_, fun fd' iter r item c hge' => absurd (hnone.symm.trans hge') nofun⟩
  rcases h.serves fd' with ⟨t, ht⟩
  by_cases hfd : fd' = fd
  · subst hfd
    have hitems : ((s.addWait fd' k req).wq fd').items_ = (s.wq fd').items_ ++
        [⟨some k, some (req.callback (s.entered fd').length),
          (req.callback (s.entered fd').length).events⟩] := by
      rw [State.addWait, State.wakeWQ_items_]
      dsimp only [State.onWQ]
      rw [Function.update_self]
      rfl
    have hself := congrFun hentered fd'
    rw [Function.update_self] at hself
    cases req with
    | accept =>
        refine ⟨t, ht.keep (hself.trans (List.append_nil _)) (by rw [hsock]) ?_ (by rw [hfinished])⟩
        rw [hitems, writers_append]
        exact List.append_nil _
    | readv =>
        refine ⟨t, ht.keep (hself.trans (List.append_nil _)) (by rw [hsock]) ?_ (by rw [hfinished])⟩
        rw [hitems, writers_append]
        exact List.append_nil _
    | writev iov =>
        refine ⟨t.enter iov.flatten, ht.enter hself (by rw [hsock]) ?_ (by rw [hfinished])⟩
        rw [hitems, writers_append]
        rfl
  · refine ⟨t, ht.keep ?_ (by rw [hsock]) ?_ (by rw [hfinished])⟩
    · rw [hentered, Function.update_of_ne hfd]
    · rw [State.addWait, State.wakeWQ_items_]
      dsimp only [State.onWQ]
      rw [Function.update_of_ne hfd]

theorem Ordered.startWakeup (h : Ordered s) (fd : ι) (rest : List ι) :
    Ordered (s.startWakeup fd rest) := by
  refine ⟨fun fd' => ?_, fun fd' iter r item c hge =>
    absurd (State.startWakeup_ge.symm.trans hge) nofun⟩
  rcases h.serves fd' with ⟨t, ht⟩
  refine ⟨t, ht.keep (by rw [State.startWakeup_entered]) State.startWakeup_sent ?_
    (by rw [State.startWakeup_finished])⟩
  rw [State.startWakeup_wq]
  refine congrArg writers (update_keep FileWQ.items_ ?_ fd')
  rfl

theorem Ordered.iterate (h : Ordered s) (fd : ι) (iter : Nat) : Ordered (s.iterate fd iter) := by
  have hserves : ∀ ge fd', ∃ t, Serves { s with ge := ge } fd' t := by
    intro ge fd'
    rcases h.serves fd' with ⟨t, ht⟩
    exact ⟨t, ht.keep rfl rfl rfl rfl⟩
  unfold State.iterate
  cases hturn : (s.wq fd).turn iter with
  | finish => exact ⟨hserves _, nofun⟩
  | next => exact ⟨hserves _, nofun⟩
  | erase =>
      refine ⟨fun fd' => ?_, nofun⟩
      rcases h.serves fd' with ⟨t, ht⟩
      refine ⟨t, ht.keep rfl rfl ?_ rfl⟩
      dsimp only [State.onWQ]
      by_cases hfd : fd' = fd
      · subst hfd
        rcases FileWQ.turn_eq_erase hturn with ⟨item, hitem, hcb⟩
        have hno : writer? item = none := by rw [writer?, hcb]
        rw [Function.update_self, FileWQ.erase_items_, writers_append]
        conv_rhs => rw [FileWQ.items_eq hitem, writers_append, writers_cons_of_none hno]
      · rw [Function.update_of_ne hfd]
  | call events cb =>
      dsimp only
      cases henter : cb.enter events with
      | none => exact ⟨hserves _, nofun⟩
      | some ret =>
          refine ⟨hserves _, fun fd' iter' r item c hge _ _ _ hret => ?_⟩
          cases hge
          rw [WQCB.enter_eq_some henter] at hret
          exact absurd hret (by decide)

theorem Ordered.settle (h : Ordered s) (hinv : Inv s) {r : IoRet}
    (hge : s.ge = some ⟨fd, iter, .returned r⟩) : Ordered (s.settle fd iter r) := by
  refine ⟨fun fd' => ?_, fun fd' iter' r' item c hw =>
    absurd (State.settle_ge.symm.trans hw) nofun⟩
  rcases h.serves fd' with ⟨t, ht⟩
  by_cases hfd : fd' = fd
  · subst hfd
    rcases hinv.called _ hge nofun with ⟨item, hitem, _⟩
    have hitems : ((s.settle fd' iter r).wq fd').items_ =
        if r.block then (s.wq fd').items_ else ((s.wq fd').erase iter).items_ := by
      rw [State.settle_wq, Function.update_self, FileWQ.settle_items_]
    cases hblock : r.block with
    | true =>
        rw [hblock, if_pos rfl] at hitems
        refine ⟨t, ht.keep (by rw [State.settle_entered]) (by rw [State.settle_sock]) (by rw [hitems]) ?_⟩
        unfold State.settle
        rw [if_pos hblock]
        rfl
    | false =>
        rw [hblock, if_neg Bool.false_ne_true, FileWQ.erase_items_] at hitems
        have hfinished : (s.settle fd' iter r).finished fd' =
            s.finished fd' ++ (s.callAt fd' iter).map fun call => (call, r.ret) := by
          unfold State.settle
          rw [if_neg (by simp [hblock])]
          exact Function.update_self ..
        cases hwriter : writer? item with
        | none =>
            have hcall : s.callAt fd' iter = [] := by
              unfold State.callAt
              split
              · rename_i c hbind
                rw [hitem] at hbind
                rw [writer?_eq_some.mpr hbind] at hwriter
                cases hwriter
              · rfl
            refine ⟨t, ht.keep (by rw [State.settle_entered]) (by rw [State.settle_sock]) ?_ ?_⟩
            · rw [hitems, writers_append]
              conv_rhs => rw [FileWQ.items_eq hitem, writers_append, writers_cons_of_none hwriter]
            · rw [hfinished, hcall]
              exact List.append_nil _
        | some c =>
            have hcall : s.callAt fd' iter = [c.call] := by
              unfold State.callAt
              rw [hitem, Option.bind_some, writer?_eq_some.mp hwriter]
            rcases hinv.writers_eq hge nofun hitem hwriter with ⟨hearlier, hfirst⟩
            refine ht.leave hfirst (h.done fd' iter r item c hge hitem hwriter hblock)
              (by rw [State.settle_entered]) (by rw [State.settle_sock]) ?_ ?_
            · rw [hitems, writers_append, hearlier, List.nil_append]
            · rw [hfinished, hcall]
              rfl
  · refine ⟨t, ht.keep (by rw [State.settle_entered]) (by rw [State.settle_sock]) ?_ ?_⟩
    · rw [State.settle_wq, Function.update_of_ne hfd]
    · unfold State.settle
      split
      · rfl
      · exact Function.update_of_ne hfd _ _

/-- The system call of a callback returns. -/
theorem Serves.sysret (h : Serves s fd t) (hinv : Inv s) (hge : s.ge = some ⟨fd, iter, .inCall⟩)
    (hitem : (s.wq fd).items_[iter]? = some item) {cb cb' : WQCB β} (hcb : item.cb_ = some cb)
    {r : SysRet} {ret : IoRet} (hresume : cb.resume r = some (ret, cb')) (hoffered : cb.Offered r)
    (ready : Events) :
    ∃ t', Serves { (s.onSock fd fun k =>
      { k with ready := ready, sent := k.sent ++ cb.accepted r }).onWQ fd
        fun q => q.store iter cb' with ge := some ⟨fd, iter, .returned ret⟩ } fd t' := by
  by_cases hwritev : ∃ c, cb = .writev c
  · rcases hwritev with ⟨c, rfl⟩
    rcases hinv.writers_eq hge nofun hitem (writer?_eq_some.mpr hcb) with ⟨hearlier, hfirst⟩
    rcases WQCB.resume_writev hresume hoffered with ⟨c', bytes, rfl, hcall, hbytes, hrest⟩
    refine h.accept hfirst hrest hcall rfl ?_ ?_ rfl
    · dsimp only [State.onWQ, State.onSock]
      rw [Function.update_self, hbytes]
    · dsimp only [State.onWQ, State.onSock]
      rw [Function.update_self, FileWQ.store_items_ hitem, writers_append, hearlier,
        writers_cons_of_some (writer?_eq_some.mpr rfl), List.nil_append]
  · rcases WQCB.resume_of_ne_writev hresume fun c hc => hwritev ⟨c, hc⟩ with ⟨rfl, haccepted⟩
    refine ⟨t, h.keep rfl ?_ ?_ rfl⟩
    · dsimp only [State.onWQ, State.onSock]
      rw [Function.update_self, haccepted]
      exact List.append_nil _
    · have hsame : { item with cb_ := some cb' } = item := by rw [← hcb]
      dsimp only [State.onWQ, State.onSock]
      rw [Function.update_self, FileWQ.store_items_ hitem, hsame, ← FileWQ.items_eq hitem]

theorem Ordered.sysret (h : Ordered s) (hinv : Inv s) {cb : WQCB β}
    (hrun : s.running = some (fd, iter, cb)) {r : SysRet} (hoffered : cb.Offered r)
    (ready : Events) : Ordered (s.sysret fd iter cb r ready) := by
  rcases running_eq_some hrun with ⟨hge, item, hitem, hcb⟩
  cases hresume : cb.resume r with
  | none =>
      have hsent : ∀ fd', ((s.sysret fd iter cb r ready).sock fd').sent = (s.sock fd').sent := by
        intro fd'
        unfold State.sysret
        rw [hresume]
        dsimp only [State.onSock]
        by_cases hfd : fd' = fd
        · subst hfd
          rw [Function.update_self]
          exact WQCB.accepted_of_continue hresume ▸ List.append_nil _
        · rw [Function.update_of_ne hfd]
      have hge' : (s.sysret fd iter cb r ready).ge = s.ge := by
        unfold State.sysret
        rw [hresume]
        rfl
      refine ⟨fun fd' => ?_, fun fd' iter' r' item' c hw =>
        absurd (hge.symm.trans (hge'.symm.trans hw)) nofun⟩
      rcases h.serves fd' with ⟨t, ht⟩
      refine ⟨t, ht.keep ?_ (hsent fd') ?_ ?_⟩ <;>
      · unfold State.sysret
        rw [hresume]
        rfl
  | some res =>
      rcases res with ⟨ret, cb'⟩
      have heq : s.sysret fd iter cb r ready = { (s.onSock fd fun k =>
          { k with ready := ready, sent := k.sent ++ cb.accepted r }).onWQ fd
            fun q => q.store iter cb' with ge := some ⟨fd, iter, .returned ret⟩ } := by
        unfold State.sysret
        rw [hresume]
      rw [heq]
      constructor
      · intro fd'
        rcases h.serves fd' with ⟨t, ht⟩
        by_cases hfd : fd' = fd
        · subst hfd
          exact ht.sysret hinv hge hitem hcb hresume hoffered ready
        · refine ⟨t, ht.keep rfl ?_ ?_ rfl⟩
          · dsimp only [State.onWQ, State.onSock]
            rw [Function.update_of_ne hfd]
          · dsimp only [State.onWQ, State.onSock]
            rw [Function.update_of_ne hfd]
      · intro fd' iter' r' item' c hw hitem' hwriter hblock hret
        cases hw
        dsimp only [State.onWQ, State.onSock] at hitem'
        rw [Function.update_self, FileWQ.getElem?_store hitem] at hitem'
        cases hitem'
        have hcb' : cb' = .writev c := Option.some.inj (writer?_eq_some.mp hwriter)
        exact WQCB.resume_done (hcb' ▸ hresume) hblock hret

theorem Ordered.waitIRQ (h : Ordered s) (hge : s.ge = none) (events : List (ι × Events)) :
    Ordered ((s.epoll_wait events).waitIRQ events) := by
  have hidle : ((s.epoll_wait events).waitIRQ events).ge = none := State.waitIRQ_ge.trans hge
  refine ⟨fun fd => ?_, fun fd iter r item c hw => absurd (hidle.symm.trans hw) nofun⟩
  rcases h.serves fd with ⟨t, ht⟩
  have hsent : (((s.epoll_wait events).waitIRQ events).sock fd).sent = (s.sock fd).sent := by
    rw [State.waitIRQ_sock, State.epoll_wait_sent]
  exact ⟨t, ht.keep (by rw [State.waitIRQ_entered]; rfl) hsent
    (by rw [State.waitIRQ_items_]; rfl) (by rw [State.waitIRQ_finished]; rfl)⟩

omit [DecidableEq ι] in
/-- A step that only moves the loop on. -/
theorem Ordered.idle (h : Ordered s) (phase : Phase ι) (list_ : List ι) :
    Ordered { s with phase := phase, list_ := list_ } := by
  refine ⟨fun fd => ?_, h.done⟩
  rcases h.serves fd with ⟨t, ht⟩
  exact ⟨t, ht.keep rfl rfl rfl rfl⟩

theorem Ordered.change (h : Ordered s) (fd : ι) (ready : Events) (pending : Bool) :
    Ordered (s.onSock fd fun k => { k with ready := ready, pending := pending }) := by
  refine ⟨fun fd' => ?_, h.done⟩
  rcases h.serves fd' with ⟨t, ht⟩
  refine ⟨t, ht.keep rfl ?_ rfl rfl⟩
  dsimp only [State.onSock]
  refine update_keep Sock.sent ?_ fd'
  rfl

theorem Ordered.step {a : Action ι κ β} (h : Ordered s) (hinv : Inv s)
    (hstep : EventLoop.step s a = some s') : Ordered s' := by
  have hcase := step_cases hstep
  cases a with
  | change fd ready pending =>
      cases hcase
      exact h.change fd ready pending
  | addWait fd k req =>
      rcases hcase with ⟨hphase, rfl⟩
      exact h.addWait (hinv.ge_eq_none (.inl hphase)) fd k req
  | drained =>
      rcases hcase with ⟨_, rfl⟩
      exact h.idle _ _
  | walk =>
      rcases hcase with ⟨_, _, rfl⟩ | ⟨fd, rest, _, _, rfl⟩ | ⟨fd, iter, rest, _, _, rfl⟩ |
        ⟨fd, iter, r, rest, _, hge, rfl⟩
      · exact h.idle _ _
      · exact h.startWakeup fd rest
      · exact h.iterate fd iter
      · exact h.settle hinv hge
  | sysret r ready =>
      rcases hcase with ⟨fd, iter, cb, hrun, hoffered, rfl⟩
      exact h.sysret hinv hrun hoffered ready
  | waitIRQ events =>
      rcases hcase with ⟨hphase, _, rfl⟩
      exact h.waitIRQ (hinv.ge_eq_none (.inr hphase)) events

theorem inductive_ordered (waked fdCallbck : ι → Bool) :
    (machine waked fdCallbck : Machine (State ι κ β) (Action ι κ β)).Inductive
      fun s => Inv s ∧ Ordered s where
  init _ hs := hs ▸ ⟨inv_construct _ _,
    ⟨fun fd => ⟨_, serves_construct waked fdCallbck fd⟩, nofun⟩⟩
  step _ _ _ h hstep := ⟨h.1.step hstep, h.2.step h.1 hstep⟩

/-- The bytes that the kernel has accepted are, in the order in which the calls have
entered {lit}`items_`, one prefix of each call's payload after the other, each byte with its call;
the prefix of a call that has completed with a result that is not negative is its whole
payload. -/
theorem writes_contiguous {waked fdCallbck : ι → Bool} {s : State ι κ β}
    (hs : (machine waked fdCallbck : Machine (State ι κ β) (Action ι κ β)).Reachable s) (fd : ι) :
    ∃ parts : List (List β),
      List.Forall₂ (fun part iov => part <+: iov.flatten) parts (s.entered fd) ∧
      (s.sock fd).sent = (parts.mapIdx fun call part => part.map (Prod.mk call)).flatten ∧
      ∀ call ret, (call, ret) ∈ s.finished fd → 0 ≤ ret →
        ∃ iov, (s.entered fd)[call]? = some iov ∧ parts[call]? = some iov.flatten := by
  rcases ((inductive_ordered waked fdCallbck).reachable hs).2.serves fd with ⟨t, ht⟩
  refine ⟨t.shares.map Share.part, ?_, ht.sent, fun call ret hmem hret => ?_⟩
  · have hpayload : List.Forall₂ (fun part payload => part <+: payload)
        (t.shares.map Share.part) ((s.entered fd).map List.flatten) := by
      rw [ht.entered, List.forall₂_map_left_iff, List.forall₂_map_right_iff,
        List.forall₂_same]
      exact fun share _ => share.isPrefix
    exact List.forall₂_map_right_iff.mp hpayload
  · rcases ht.finished call ret hmem hret with ⟨share, hshare, hfull⟩
    have hall : t.shares[call]? = some share :=
      (List.getElem?_append_left (List.getElem?_eq_some_iff.mp hshare).1).trans hshare
    have hpayload : ((s.entered fd).map List.flatten)[call]? = some share.payload := by
      rw [ht.entered, List.getElem?_map, hall]
      rfl
    rw [List.getElem?_map] at hpayload
    rcases Option.map_eq_some_iff.mp hpayload with ⟨iov, hiov, hflat⟩
    refine ⟨iov, hiov, ?_⟩
    rw [List.getElem?_map, hall, Option.map_some, hfull, hflat]

/-- Two writers, the first of which needs two calls of {lit}`::writev`, while the second is in the
middle of its payload. -/
theorem writes_contiguous_two :
    ∃ s : State Unit Nat Nat,
      s.entered () = [[[1, 2]], [[3], [4]]] ∧ s.finished () = [(0, 2)] ∧
      (s.sock ()).sent = [(0, 1), (0, 2), (1, 3)] ∧
      ∃ parts : List (List Nat),
        List.Forall₂ (fun part iov => part <+: iov.flatten) parts [[[1, 2]], [[3], [4]]] ∧
        (s.sock ()).sent = (parts.mapIdx fun call part => part.map (Prod.mk call)).flatten ∧
        ∃ iov, [[[1, 2]], [[3], [4]]][0]? = some iov ∧ parts[0]? = some iov.flatten := by
  let acts : List (Action Unit Nat Nat) :=
    [.addWait () 0 (.writev [[1, 2]]), .addWait () 1 (.writev [[3], [4]]), .drained, .walk, .walk,
      .walk, .waitIRQ [((), EPOLLOUT)], .drained, .walk, .walk, .sysret (.ok 1) 0, .walk, .walk,
      .walk, .waitIRQ [((), EPOLLOUT)], .drained, .walk, .walk, .sysret (.ok 1) 0, .walk, .walk,
      .sysret (.ok 1) 0, .walk]
  have hview : ((machine (fun _ => false) fun _ => false).run
      (State.construct (fun _ => false) fun _ => false) acts).map (fun s =>
        (s.entered (), s.finished (), (s.sock ()).sent)) =
      some ([[[1, 2]], [[3], [4]]], [(0, 2)], [(0, 1), (0, 2), (1, 3)]) := by
    decide +kernel
  rcases Option.map_eq_some_iff.mp hview with ⟨s, hrun, heq⟩
  simp only [Prod.mk.injEq] at heq
  rcases heq with ⟨hentered, hfinished, hsent⟩
  rcases writes_contiguous ⟨_, acts, rfl, hrun⟩ () with ⟨parts, hparts, hwire, hdone⟩
  rw [hentered] at hparts hdone
  exact ⟨s, hentered, hfinished, hsent, parts, hparts, hwire,
    hdone 0 2 (by rw [hfinished]; exact List.mem_singleton.mpr rfl) (by decide)⟩

end EventLoop
end CoEpoll
