import CoEpoll.Conn.Acceptor
import CoEpoll.Sock5Ctxt.Handlers

/-!
# `Sock5Ctxt` as a session of the server

A session makes at most one connection at a time beside its local one: {lit}`handleReq` makes it, closes it
when {lit}`colib::connect` fails, and leaves it to the relay otherwise.  A handler throws only before there
is a remote connection.

Main results:

- Theorem {lit}`walks_dispatch`: what a handler does to the connections.
- Theorem {lit}`session_connections`: a SOCKS5 session is a session of the server.
-/

namespace CoEpoll
namespace Sock5Ctxt

open Transition Server Socks5

/-- A session of the server by itself. -/
def sessions (conn : Int32) : Machine Session Session.Action where
  init p := p = .serve conn
  step := Session.step

/-- Where the session stands, when {lit}`conn` is the descriptor of its local connection. -/
def place (conn : Int32) (s : Sock5Ctxt) : Session :=
  match s.phase, s.__remoteConn with
  | .recv, none => .serve conn
  | .recv, some fd => .linked conn fd
  | .close, none => .closeLocal conn
  | .close, some fd => .closeRemote conn fd
  | .thrown, _ => .thrown conn

/-- What {lit}`colib::socket` has returned to the session. -/
def opens (bs : List Session.Action) : List Int32 :=
  bs.filterMap fun
    | .opened fd => some fd
    | _ => none

/-- How often {lit}`colib::connect` has returned to the session. -/
def connectCount (bs : List Session.Action) : Nat :=
  bs.countP fun
    | .connected _ => true
    | _ => false

variable {s t : Sock5Ctxt} {conn : Int32} {env : Env}

/-- There is a remote connection only in {lit}`SOCK_LINKED`. -/
def Linked (s : Sock5Ctxt) : Prop :=
  s.__remoteConn ≠ none → s.__state = .SOCK_LINKED

/-- From {lit}`s` to {lit}`t` the session has taken the steps {lit}`bs`. -/
structure Walks (conn : Int32) (s t : Sock5Ctxt) (bs : List Session.Action) : Prop where
  run : (sessions conn).run (s.place conn) bs = some (t.place conn)
  opened : t.opened = s.opened ++ opens bs
  connects : t.connects.length = s.connects.length + connectCount bs

theorem Walks.refl (conn : Int32) (hplace : t.place conn = s.place conn)
    (hopened : t.opened = s.opened) (hconnects : t.connects = s.connects) : Walks conn s t [] where
  run := by rw [hplace]; rfl
  opened := by rw [hopened]; exact (List.append_nil _).symm
  connects := by rw [hconnects]; rfl

theorem Walks.trans {u : Sock5Ctxt} {bs cs : List Session.Action} (h : Walks conn s t bs)
    (h' : Walks conn t u cs) : Walks conn s u (bs ++ cs) where
  run := by rw [Machine.run_append, h.run]; exact h'.run
  opened := by
    rw [h'.opened, h.opened, List.append_assoc]
    congr 1
    exact (List.filterMap_append ..).symm
  connects := by
    rw [h'.connects, h.connects, Nat.add_assoc]
    congr 1
    exact (List.countP_append ..).symm

/-- A handler leaves the session between two passes, with what {lit}`Linked` says. -/
def Between (t : Sock5Ctxt) : Prop :=
  t.phase = .recv ∧ Linked t

theorem place_serve (hphase : s.phase = .recv) (hremote : s.__remoteConn = none) :
    s.place conn = .serve conn := by
  simp only [place, hphase, hremote]

theorem place_linked {fd : Int32} (hphase : s.phase = .recv) (hremote : s.__remoteConn = some fd) :
    s.place conn = .linked conn fd := by
  simp only [place, hphase, hremote]

theorem run_place {p q : Session} {bs : List Session.Action} (hp : s.place conn = p)
    (hq : t.place conn = q) (hrun : (sessions conn).run p bs = some q) :
    (sessions conn).run (s.place conn) bs = some (t.place conn) := by
  rw [hp, hq]
  exact hrun

/-- {lit}`handleReq` from {lit}`colib::socket` on. -/
theorem walks_link (conn : Int32) (hphase : s.phase = .recv) (hremote : s.__remoteConn = none)
    (env : Env) : Between (s.link env).1 ∧ ∃ bs, Walks conn s (s.link env).1 bs := by
  have hserve : s.place conn = .serve conn := place_serve hphase hremote
  by_cases hsocket : 0 < env.socket
  · have hopened : (Session.socket conn).step (.opened env.socket) =
        some (.connect conn env.socket) := congrArg some (if_pos hsocket)
    cases hconnect : env.connect s.serv_addr with
    | true =>
        rw [link_connected hsocket hconnect]
        refine ⟨⟨hphase, fun _ => rfl⟩, [.request, .opened env.socket, .connected true], ?_, rfl, ?_⟩
        · refine run_place hserve (place_linked (by exact hphase) (by rfl)) ?_
          apply Machine.run_cons_eq_some.mpr ⟨_, rfl, ?_⟩
          apply Machine.run_cons_eq_some.mpr ⟨_, hopened, ?_⟩
          rfl
        · exact List.length_append
    | false =>
        rw [link_failed hsocket hconnect]
        refine ⟨⟨hphase, fun hne => absurd hremote hne⟩,
          [.request, .opened env.socket, .connected false, .close, .closed], ?_, rfl, ?_⟩
        · -- the descriptor is closed again
          have hclose : (Session.refuse conn env.socket).step .close = some (.refusing conn) :=
            congrArg some (if_neg (Int32.lt_asymm hsocket))
          refine run_place hserve (place_serve (by exact hphase) (by exact hremote)) ?_
          apply Machine.run_cons_eq_some.mpr ⟨_, rfl, ?_⟩
          apply Machine.run_cons_eq_some.mpr ⟨_, hopened, ?_⟩
          apply Machine.run_cons_eq_some.mpr ⟨_, rfl, ?_⟩
          apply Machine.run_cons_eq_some.mpr ⟨_, hclose, ?_⟩
          rfl
        · exact List.length_append
  · have hopened : (Session.socket conn).step (.opened env.socket) =
        some (.linked conn env.socket) := congrArg some (if_neg hsocket)
    rw [link_refused hsocket]
    refine ⟨⟨hphase, fun _ => rfl⟩, [.request, .opened env.socket], ?_, rfl, rfl⟩
    refine run_place hserve (place_linked (by exact hphase) (by rfl)) ?_
    apply Machine.run_cons_eq_some.mpr ⟨_, rfl, ?_⟩
    apply Machine.run_cons_eq_some.mpr ⟨_, hopened, rfl⟩

/-- What a handler does to the connections. -/
theorem walks_dispatch (conn : Int32) (h : Between s) (hdispatch : s.dispatch env = .ok t) :
    Between t ∧ ∃ bs, Walks conn s t bs := by
  rcases h with ⟨hphase, hlinked⟩
  have hstay : ∀ u : Sock5Ctxt, u.phase = s.phase → u.__state = s.__state →
      u.__remoteConn = s.__remoteConn → u.opened = s.opened → u.connects = s.connects →
      Between u ∧ ∃ bs, Walks conn s u bs := by
    intro u hphase' hstate hremote hopened hconnects
    refine ⟨⟨hphase'.trans hphase, ?_⟩, [], .refl conn ?_ hopened hconnects⟩
    · rw [Linked, hremote, hstate]
      exact hlinked
    · rw [place, place, hphase', hremote]
  unfold dispatch at hdispatch
  split at hdispatch
  · next hstate =>
      rcases map_eq_ok hdispatch with ⟨ret, hret, rfl⟩
      rcases handleAuth_cases hret with hsame | ⟨rxBuf, method, hanswer⟩
      · rw [hsame]
        exact hstay s rfl rfl rfl rfl rfl
      · rw [hanswer]
        have hremote : s.__remoteConn = none := by
          by_contra hne
          cases hstate.symm.trans (hlinked hne)
        refine ⟨⟨hphase, fun hne => absurd hremote hne⟩, [], .refl conn ?_ rfl rfl⟩
        exact (place_serve (by exact hphase) (by exact hremote)).trans
          (place_serve hphase hremote).symm
  · next hstate =>
      rcases map_eq_ok hdispatch with ⟨ret, hret, rfl⟩
      have hremote : s.__remoteConn = none := by
        by_contra hne
        cases hstate.symm.trans (hlinked hne)
      rcases handleReq_cases hret with ⟨rxBuf, serv_addr, hlink | hgiven | hwait⟩
      · rw [hlink]
        rcases walks_link conn (s := { s with __rxBuf := rxBuf, serv_addr := serv_addr })
          hphase hremote env with ⟨hbetween, bs, hwalks⟩
        exact ⟨hbetween, bs, hwalks.run, hwalks.opened, hwalks.connects⟩
      · rw [hgiven]
        exact hstay _ rfl rfl rfl rfl rfl
      · rw [hwait]
        exact hstay _ rfl rfl rfl rfl rfl
  · cases hdispatch
    unfold forward
    split <;> exact hstay _ rfl rfl rfl rfl rfl
  · cases hdispatch
    exact hstay s rfl rfl rfl rfl rfl

/-- The loop of {lit}`run` is left. -/
theorem walks_leave (conn : Int32) (h : Between s) (linkflag : Bool) :
    Walks conn s { s with __linkflag := linkflag, phase := .close } [.leave] where
  run := by
    cases hremote : s.__remoteConn with
    | none => exact run_place (place_serve h.1 hremote) (by simp [place]) rfl
    | some fd => exact run_place (place_linked h.1 hremote) (by simp [place]) rfl
  opened := (List.append_nil _).symm
  connects := rfl

/-- The loop of {lit}`run` goes on, or it is left. -/
theorem walks_again (conn : Int32) (h : Between s) :
    ∃ bs, Walks conn s { s with phase := if s.__linkflag then .recv else .close } bs := by
  cases hflag : s.__linkflag with
  | true => exact ⟨[], .refl conn (by simp [place, h.1]) rfl rfl⟩
  | false =>
      have hleave := walks_leave conn h s.__linkflag
      rw [hflag] at hleave
      exact ⟨[.leave], hleave⟩

/-- A pass of the loop of {lit}`run`. -/
theorem walks_pass (conn : Int32) (h : Between s) (env : Env) :
    ((s.pass env).phase = .recv → Linked (s.pass env)) ∧ ∃ bs, Walks conn s (s.pass env) bs := by
  unfold pass
  cases hdispatch : s.dispatch env with
  | ok t =>
      rcases walks_dispatch conn h hdispatch with ⟨hbetween, bs, hwalks⟩
      rcases walks_again conn hbetween with ⟨cs, hagain⟩
      exact ⟨fun _ => hbetween.2, bs ++ cs, hwalks.trans hagain⟩
  | error e =>
      -- a linked session only forwards, and that does not throw
      have hremote : s.__remoteConn = none := by
        by_contra hne
        rw [dispatch, h.2 hne] at hdispatch
        cases hdispatch
      refine ⟨fun hphase => (by cases hphase), [.throw], ?_, (List.append_nil _).symm, rfl⟩
      exact run_place (place_serve h.1 hremote) (by simp [place]) rfl

/-- A step of the session is some steps of its connections. -/
theorem walks_step (conn : Int32) {a : Action} (h : s.phase = .recv → Linked s)
    (hstep : step s a = some t) :
    (t.phase = .recv → Linked t) ∧ ∃ bs, Walks conn s t bs := by
  cases a with
  | recv env xs =>
      rcases step_cases hstep with ⟨hphase, _, hxs, rfl⟩
      have hbetween : Between (s.receive xs hxs) := ⟨hphase, h hphase⟩
      rcases walks_pass conn hbetween env with ⟨hlinked, bs, hwalks⟩
      exact ⟨hlinked, bs, hwalks.run, hwalks.opened, hwalks.connects⟩
  | recvEnd =>
      simp only [step] at hstep
      split at hstep
      · next hphase =>
          cases hstep
          exact ⟨fun hp => (by cases hp), _, walks_leave conn ⟨hphase, h hphase⟩ false⟩
      · cases hstep
  | rlink r xs =>
      rcases step_cases hstep with ⟨hxs, rfl⟩
      exact ⟨h, [], .refl conn rfl rfl rfl⟩
  | rlinkEnd =>
      cases step_cases hstep
      exact ⟨h, [], .refl conn rfl rfl rfl⟩

/-- A SOCKS5 session is a session of the server: every run of it from its local connection's descriptor
{lit}`conn` is a run of its connections to where it stands, in which {lit}`colib::socket` has returned the
descriptors that it records and {lit}`colib::connect` as often as it records. -/
theorem session_connections (conn : Int32) (serv_addr : SockAddr) (sockfd : Int32)
    {as : List Action} (hrun : machine.run (construct serv_addr sockfd) as = some s) :
    ∃ bs, (sessions conn).run (.serve conn) bs = some (s.place conn) ∧
      opens bs = s.opened ∧ connectCount bs = s.connects.length := by
  have hkept := Machine.run_keep
    (I := fun s => (s.phase = .recv → Linked s) ∧
      ∃ bs, Walks conn (construct serv_addr sockfd) s bs)
    (fun s a t hs hstep => by
      rcases hs with ⟨hlinked, bs, hwalks⟩
      rcases walks_step conn hlinked hstep with ⟨hlinked', cs, hwalks'⟩
      exact ⟨hlinked', bs ++ cs, hwalks.trans hwalks'⟩)
    ⟨fun _ hne => absurd rfl hne, [], .refl conn rfl rfl rfl⟩ hrun
  rcases hkept with ⟨_, bs, hwalks⟩
  refine ⟨bs, hwalks.run, ?_, ?_⟩
  · rw [hwalks.opened]
    exact (List.nil_append _).symm
  · rw [hwalks.connects]
    exact (Nat.zero_add _).symm

/-- The client greets, its first request is refused and its second one granted. -/
def refusedAndGranted : List Action :=
  let request : List UInt8 := [5, 1, 0, 1, 10, 0, 0, 1, 0, 80]
  [.recv (.noNames 0) [5, 1, 0], .recv { Env.noNames 6 with connect := fun _ => false } request,
    .recv (.noNames 6) request, .recv (.noNames 0) [1, 2], .recvEnd]

theorem session_connections_refused : ∃ s : Sock5Ctxt,
    machine.run (construct ⟨⟨0, 0, 0, 0⟩, ⟨0, 0⟩⟩ 0) refusedAndGranted = some s ∧
    s.place 5 = .closeRemote 5 6 ∧ ∃ bs, (sessions 5).run (.serve 5) bs = some (s.place 5) ∧
      opens bs = s.opened ∧ connectCount bs = s.connects.length := by
  have hrun : (machine.run (construct ⟨⟨0, 0, 0, 0⟩, ⟨0, 0⟩⟩ 0) refusedAndGranted).map
      (fun s => (s.opened, s.connects.length, s.place 5)) = some ([6, 6], 2, .closeRemote 5 6) := by
    decide +kernel
  rcases Option.map_eq_some_iff.mp hrun with ⟨s, hs, hat⟩
  rcases Prod.mk.inj hat with ⟨_, hat⟩
  exact ⟨s, hs, (Prod.mk.inj hat).2, session_connections 5 _ _ hs⟩

end Sock5Ctxt
end CoEpoll
