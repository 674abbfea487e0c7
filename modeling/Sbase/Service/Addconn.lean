import Sbase.Service.Table
import Sbase.Service.GroupId

/-! `service_addconn` and what it calls, up to the registration of the new connection at its thread, on
the same thread or through a message.

A `CONN` is named by its address. `conn->parent` stands for the assignments of
`procthread_add_connection`; the ids of timers and the addresses of a connection are left out. -/
namespace Sbase
open Slots

def SB_QCONN_MAX : ℕ := 256
def WORKING_PROC : ℕ := 0x00
def WORKING_THREAD : ℕ := 0x01

/-- What a `PROCTHREAD` hands on to its connections: whether it is locked, whether it has a message
queue and an event base, and whether a daemon writes for it. -/
structure PthFields where
  lock : ℤ
  messageQueue : Bool
  evbase : Bool
  outdaemon : Bool

/-- The fields of the `SESSION` that a connection is added with. -/
structure NewSession where
  session : Session
  flags : ℕ
  timeout : ℤ
  groupid : ℤ
  parent : Option ℕ
  parentid : ℤ
  child : Option ℕ
  childid : ℤ

/-- The arguments of `service_addconn`, and what `conn_init` returns if it is called. -/
structure NewConn where
  fd : ℤ
  status : ℕ
  ssl : Bool
  session : Option NewSession
  fresh : Option ℕ

/-- A service with its threads and its queue of unused connections, the connections with a registered
timer or event, and the messages `MESSAGE_NEW_SESSION` that wait. -/
structure AddWorld where
  service : Service
  workingMode : ℕ
  daemon : Option PthFields
  nprocthreads : ℕ
  procthreads : ℕ → Option PthFields
  evtimer : Bool
  qconns : List ℕ
  freed : List ℕ
  timeouts : ℕ → ℤ
  parents : ℕ → Option PthFields
  timers : ℕ → Bool
  events : ℕ → Bool
  outevents : ℕ → Bool
  newSessions : List (PthFields × ℕ)
  closed : List ℤ

/-- `conn_init` -/
def connInit : ServiceConn := { ServiceConn.init with fd := 0 }

namespace AddWorld

/-- `service_pushtoq`, which frees the connection when the queue is full. -/
def servicePushtoq (w : AddWorld) (c : ℕ) : AddWorld :=
  if w.qconns.length < SB_QCONN_MAX then { w with qconns := c::w.qconns }
  else { w with freed := c::w.freed }

/-- `service_popfromq` -/
def servicePopfromq (w : AddWorld) (fresh : Option ℕ) : AddWorld × Option ℕ :=
  match w.qconns with
  | c::rest => ({ w with qconns := rest }, some c)
  | [] => (fresh.elim w fun c => { w with service := w.service.modify c fun _ => connInit }, fresh)

/-- `conn_set_timeout` -/
def connSetTimeout (w : AddWorld) (c : ℕ) : AddWorld :=
  if closing (w.service.conns c).dState then w
  else if 0 < w.timeouts c ∧ w.evtimer = true then { w with timers := Function.update w.timers c true }
  else w

/-- `conn_set_session` -/
def connSetSession (w : AddWorld) (c : ℕ) (x : NewSession) : AddWorld :=
  if closing (w.service.conns c).dState then w
  else
    let w : AddWorld :=
      { w with timeouts := Function.update w.timeouts c x.timeout,
               service := w.service.modify c fun d =>
                 { d with session := x.session, flags := x.flags, parent := x.parent,
                          parentid := x.parentid, child := x.child, childid := x.childid } }
    if (w.parents c).isSome ∧ 0 < x.timeout then w.connSetTimeout c else w

/-- The assignments of `service_addconn` to the connection that it has taken. -/
def fillConn (w : AddWorld) (c : ℕ) (a : NewConn) (x : NewSession) : AddWorld :=
  { w with service := w.service.modify c fun d =>
      { d with fd := a.fd, ssl := a.ssl, status := a.status, groupid := x.groupid } }.connSetSession c x

/-- `conn_set` -/
def connSet (w : AddWorld) (c : ℕ) : AddWorld × ℤ :=
  if 0 < (w.service.conns c).fd then
    match w.parents c with
    | some pth =>
      let w := if 0 < w.timeouts c then w.connSetTimeout c else w
      let w := if pth.outdaemon then { w with outevents := Function.update w.outevents c true } else w
      if pth.evbase then ({ w with events := Function.update w.events c true }, 0) else (w,-1)
    | none => (w,-1)
  else (w,-1)

/-- `procthread_add_connection` -/
def procthreadAddConnection (w : AddWorld) (pth : PthFields) (c : ℕ) : AddWorld :=
  let r := w.service.servicePushconn c
  let w := { w with parents := Function.update w.parents c (some pth), service := r.1 }
  if r.2 = 0 then (w.connSet c).1 else w

/-- `procthread_addconn` -/
def procthreadAddconn (w : AddWorld) (pth : PthFields) (c : ℕ) : AddWorld :=
  if pth.messageQueue = true ∧ pth.lock = 0 then { w with newSessions := w.newSessions ++ [(pth,c)] }
  else w

/-- The thread that `service_addconn` gives a descriptor to. -/
def threadFor (w : AddWorld) (fd : ℤ) : Option PthFields :=
  if w.workingMode = WORKING_PROC then w.daemon
  else if w.workingMode = WORKING_THREAD ∧ 0 < w.nprocthreads then
    w.procthreads (fd % w.nprocthreads).toNat
  else none

/-- The connection is registered within the call. -/
def direct (w : AddWorld) (a : NewConn) : Bool :=
  w.workingMode = WORKING_PROC ∨ a.status = CONN_STATUS_FREE

/-- The end of `service_addconn`, which gives the connection to its thread. -/
def route (w : AddWorld) (a : NewConn) (c : ℕ) : AddWorld :=
  match w.threadFor a.fd with
  | some pth =>
    if w.direct a then w.procthreadAddConnection pth c else w.procthreadAddconn pth c
  | none => w.servicePushtoq c

/-- `service_addconn` -/
def serviceAddconn (w : AddWorld) (a : NewConn) : AddWorld × Option ℕ :=
  match a.session with
  | some x =>
    if w.service.lock = 0 ∧ 0 < a.fd then
      match w.servicePopfromq a.fresh with
      | (w,some c) => ((w.fillConn c a x).route a c, some c)
      | (w,none) => (w,none)
    else (w,none)
  | none => (w,none)

/-! ### Registration -/

/-- The `CONN` that the call takes, from the queue or from `conn_init`. -/
def takes (w : AddWorld) (a : NewConn) : Option ℕ :=
  if a.session.isSome ∧ w.service.lock = 0 ∧ 0 < a.fd then (w.servicePopfromq a.fresh).2 else none

/-- The thread and the connection of the message that the call posts. -/
def posted (w : AddWorld) (a : NewConn) : Option (PthFields × ℕ) :=
  match w.takes a, w.threadFor a.fd with
  | some c, some pth =>
    if w.direct a = false ∧ pth.messageQueue = true ∧ pth.lock = 0 then some (pth,c) else none
  | _, _ => none

/-- The world when the call and the message that it posts have been handled, with `between` for all that
happens before the message is. -/
def settled (w : AddWorld) (a : NewConn) (between : AddWorld → AddWorld) : AddWorld :=
  match w.posted a with
  | some (pth,c) => (between (w.serviceAddconn a).1).procthreadAddConnection pth c
  | none => (w.serviceAddconn a).1

/-- The world in which the call or its message begins to register the connection. -/
def begun (w : AddWorld) (a : NewConn) (between : AddWorld → AddWorld) : AddWorld :=
  if (w.posted a).isSome then between (w.serviceAddconn a).1 else w

/-- The world, the thread and the connection with which `procthread_add_connection` is called, if it
is. -/
def registering (w : AddWorld) (a : NewConn) (between : AddWorld → AddWorld) :
    Option (AddWorld × PthFields × ℕ) :=
  match a.session, w.takes a, w.threadFor a.fd with
  | some x, some c, some pth =>
    if w.direct a then some ((w.servicePopfromq a.fresh).1.fillConn c a x,pth,c)
    else if pth.messageQueue = true ∧ pth.lock = 0 then
      some (between (w.serviceAddconn a).1,pth,c)
    else none
  | _, _, _ => none

/-- The service takes the connection: it is not locked, its table has room, and the thread has an event
base. -/
def Accepts (w : AddWorld) (pth : PthFields) (c : ℕ) : Prop :=
  w.service.lock = 0 ∧ w.service.freeSlot.isSome ∧ pth.evbase = true ∧ 0 < (w.service.conns c).fd

/-- The new connection can be registered. -/
def CanRegister (w : AddWorld) (a : NewConn) (between : AddWorld → AddWorld) : Prop :=
  ∃ v pth c, w.registering a between = some (v,pth,c) ∧ v.Accepts pth c

/-- `service_addconn` takes no connection: there is no session, the service is locked, the descriptor is not
one, or the queue is empty and `conn_init` has no memory. -/
def Refused (w : AddWorld) (a : NewConn) : Prop :=
  a.session = none ∨ w.service.lock ≠ 0 ∨ a.fd ≤ 0 ∨ w.qconns = [] ∧ a.fresh = none

/-- A connection as `conn_reset` leaves it. -/
structure ConnReset (d : ServiceConn) : Prop where
  fd : d.fd = 0
  status : d.status = CONN_STATUS_FREE
  index : d.index = -1
  groupid : d.groupid = -1
  gindex : d.gindex = -1
  xindex : d.xindex = -1
  states : d.dState = D_STATE_FREE ∧ d.eState = E_STATE_OFF ∧ d.cState = C_STATE_FREE ∧
    d.sState = S_STATE_READY
  flags : d.flags = 0
  family : d.parent = none ∧ d.child = none

/-- The counters and free lists of the pool and of the groups, and the number of connections, left as they
are. -/
structure SameCounters (s t : Service) : Prop where
  runningConnections : t.runningConnections = s.runningConnections
  nconnsFree : t.nconnsFree = s.nconnsFree
  nconnections : t.nconnections = s.nconnections
  connsFree : t.connsFree = s.connsFree
  groups : t.groups = s.groups

/-- The threads and the closed descriptors, left as they are. -/
structure SameSetup (w v : AddWorld) : Prop where
  workingMode : v.workingMode = w.workingMode
  daemon : v.daemon = w.daemon
  nprocthreads : v.nprocthreads = w.nprocthreads
  procthreads : v.procthreads = w.procthreads
  closed : v.closed = w.closed

/-- How often the descriptor is closed from `v` on: by the service, and by the caller that is told of a
failure. -/
def closes (w : AddWorld) (a : NewConn) (between : AddWorld → AddWorld) : ℕ :=
  (w.settled a between).closed.count a.fd - (w.begun a between).closed.count a.fd +
    if (w.serviceAddconn a).2 = none then 1 else 0

/-- A registration that fails leaves nothing behind. -/
structure LeaksNothing (w : AddWorld) (a : NewConn) (between : AddWorld → AddWorld) : Prop where
  reports : (w.serviceAddconn a).2 = none
  queued : ∀ c, w.takes a = some c →
    c ∈ (w.settled a between).qconns ∧ ConnReset ((w.settled a between).service.conns c)
  closed : w.closes a between = 1
  counters : SameCounters w.service (w.serviceAddconn a).1.service ∧
    SameCounters (w.begun a between).service (w.settled a between).service
  events : ∀ c, w.takes a = some c → (w.settled a between).timers c = false ∧
    (w.settled a between).events c = false ∧ (w.settled a between).outevents c = false

section
variable {w v : AddWorld} {a : NewConn} {between : AddWorld → AddWorld} {pth : PthFields} {c : ℕ}

theorem SameCounters.rfl' (s : Service) : SameCounters s s := ⟨rfl,rfl,rfl,rfl,rfl⟩

/-- Whatever becomes of the connection, the call returns it once it has been taken. -/
theorem serviceAddconn_returns (w : AddWorld) (a : NewConn) : (w.serviceAddconn a).2 = w.takes a := by
  unfold serviceAddconn takes
  cases a.session with
  | none => rfl
  | some x =>
    dsimp only [Option.isSome]
    by_cases hopen : w.service.lock = 0 ∧ 0 < a.fd
    · rw [if_pos hopen,if_pos ⟨rfl,hopen⟩]
      cases hpop : w.servicePopfromq a.fresh with
      | mk u o =>
        cases o with
        | none => rfl
        | some c => rfl
    · rw [if_neg hopen,if_neg fun hc => hopen hc.2]

/-- A call that takes no connection leaves the service as it is. -/
theorem serviceAddconn_none (h : w.takes a = none) : (w.serviceAddconn a).1 = w := by
  unfold takes at h
  unfold serviceAddconn
  cases hsession : a.session with
  | none => rfl
  | some x =>
    rw [hsession] at h
    dsimp only
    by_cases hopen : w.service.lock = 0 ∧ 0 < a.fd
    · rw [if_pos ⟨rfl,hopen⟩] at h
      rw [if_pos hopen]
      unfold servicePopfromq at h ⊢
      cases hq : w.qconns with
      | cons c rest =>
        rw [hq] at h
        cases h
      | nil =>
        rw [hq] at h
        dsimp only at h ⊢
        rw [h]
        rfl
    · rw [if_neg hopen]

theorem posted_none (h : w.takes a = none) : w.posted a = none := by
  unfold posted
  rw [h]

theorem SameSetup.rfl' (w : AddWorld) : SameSetup w w := ⟨rfl,rfl,rfl,rfl,rfl⟩

theorem SameSetup.trans {u : AddWorld} (h : SameSetup w v) (k : SameSetup v u) : SameSetup w u :=
  ⟨k.workingMode.trans h.workingMode,k.daemon.trans h.daemon,k.nprocthreads.trans h.nprocthreads,
    k.procthreads.trans h.procthreads,k.closed.trans h.closed⟩

theorem SameSetup.threadFor (h : SameSetup w v) (fd : ℤ) : v.threadFor fd = w.threadFor fd := by
  unfold AddWorld.threadFor
  rw [h.workingMode,h.daemon,h.nprocthreads,h.procthreads]

theorem SameSetup.direct (h : SameSetup w v) (a : NewConn) : v.direct a = w.direct a := by
  unfold AddWorld.direct
  rw [h.workingMode]

theorem connSetTimeout_setup (w : AddWorld) (c : ℕ) : SameSetup w (w.connSetTimeout c) := by
  unfold connSetTimeout
  split_ifs <;> exact ⟨rfl,rfl,rfl,rfl,rfl⟩

theorem connSetSession_setup (w : AddWorld) (c : ℕ) (x : NewSession) :
    SameSetup w (w.connSetSession c x) := by
  unfold connSetSession
  dsimp only
  split_ifs
  · exact .rfl' w
  · obtain ⟨hmode,hdaemon,hn,hthreads,hclosed⟩ := connSetTimeout_setup { w with
      timeouts := Function.update w.timeouts c x.timeout,
      service := w.service.modify c fun d =>
        { d with session := x.session, flags := x.flags, parent := x.parent, parentid := x.parentid,
                 child := x.child, childid := x.childid } } c
    exact ⟨hmode,hdaemon,hn,hthreads,hclosed⟩
  · exact ⟨rfl,rfl,rfl,rfl,rfl⟩

theorem servicePopfromq_setup (w : AddWorld) (fresh : Option ℕ) :
    SameSetup w (w.servicePopfromq fresh).1 := by
  unfold servicePopfromq
  cases w.qconns with
  | cons d rest => exact ⟨rfl,rfl,rfl,rfl,rfl⟩
  | nil => cases fresh <;> exact ⟨rfl,rfl,rfl,rfl,rfl⟩

/-- Taking and filling a connection leaves the threads as they are. -/
theorem fillConn_setup (w : AddWorld) (a : NewConn) (c : ℕ) (x : NewSession) :
    SameSetup w ((w.servicePopfromq a.fresh).1.fillConn c a x) := by
  apply (servicePopfromq_setup w a.fresh).trans
  obtain ⟨hmode,hdaemon,hn,hthreads,hclosed⟩ := connSetSession_setup
    { (w.servicePopfromq a.fresh).1 with
      service := (w.servicePopfromq a.fresh).1.service.modify c fun d =>
        { d with fd := a.fd, ssl := a.ssl, status := a.status, groupid := x.groupid } } c x
  exact ⟨hmode,hdaemon,hn,hthreads,hclosed⟩

/-- A call that takes a connection. -/
theorem serviceAddconn_some {x : NewSession} (hsession : a.session = some x) (h : w.takes a = some c) :
    (w.serviceAddconn a).1 = ((w.servicePopfromq a.fresh).1.fillConn c a x).route a c := by
  unfold takes at h
  unfold serviceAddconn
  rw [hsession] at h ⊢
  dsimp only [Option.isSome] at h ⊢
  by_cases hopen : w.service.lock = 0 ∧ 0 < a.fd
  · rw [if_pos ⟨rfl,hopen⟩] at h
    rw [if_pos hopen]
    cases hpop : w.servicePopfromq a.fresh with
    | mk u o =>
      rw [hpop] at h
      dsimp only at h
      rw [h]
  · rw [if_neg fun hc => hopen hc.2] at h
    cases h

/-! ### A registration that goes through -/

/-- Assignments to other fields of one connection. -/
theorem update_fd {s t : Service} {d : ℕ} {x : ServiceConn} (h : t.conns = Function.update s.conns c x)
    (hx : x.fd = (s.conns c).fd) : (t.conns d).fd = (s.conns d).fd := by
  rw [h]
  by_cases hd : d = c
  · rw [hd,Function.update_self]
    exact hx
  · rw [Function.update_of_ne hd]

theorem connBindProxy_fd (x : ServiceConn) (child : ℕ) (i : ℤ) : (x.connBindProxy child i).fd = x.fd := by
  unfold ServiceConn.connBindProxy Control.connPushMessage
  dsimp only
  split_ifs <;> rfl

theorem bindParent_fd (s : Service) (c d : ℕ) : ((s.bindParent c).conns d).fd = (s.conns d).fd := by
  unfold Service.bindParent
  dsimp only
  cases (s.conns c).parent with
  | none => rfl
  | some parent =>
    dsimp only
    split_ifs
    · exact update_fd rfl (connBindProxy_fd _ c _)
    · rfl

theorem joinGroup_fd (s : Service) (c d : ℕ) : ((s.joinGroup c).conns d).fd = (s.conns d).fd := by
  unfold Service.joinGroup
  dsimp only
  cases s.freeGroupSlot (s.conns c).groupid with
  | none => rfl
  | some x =>
    have hfill : ((s.fillGroup (s.conns c).groupid c x).conns d).fd = (s.conns d).fd := update_fd rfl rfl
    dsimp only
    split_ifs <;> exact hfill

theorem joinPool_fd (s : Service) (c d : ℕ) : ((s.joinPool c).conns d).fd = (s.conns d).fd := by
  unfold Service.joinPool
  cases s.freePoolSlot with
  | none => rfl
  | some x => exact update_fd (t := s.fillPool c x) rfl rfl

theorem occupy_fd (s : Service) (c i d : ℕ) : ((s.occupy c i).conns d).fd = (s.conns d).fd := by
  have hplace : ((s.place c i).conns d).fd = (s.conns d).fd := update_fd rfl rfl
  unfold Service.occupy
  dsimp only
  split_ifs
  · exact (joinGroup_fd _ c d).trans hplace
  · exact (joinPool_fd _ c d).trans hplace
  · exact hplace

/-- `service_pushconn` leaves the descriptors of the connections as they are. -/
theorem pushconn_fd (s : Service) (c d : ℕ) : ((s.servicePushconn c).1.conns d).fd = (s.conns d).fd := by
  unfold Service.servicePushconn
  split_ifs
  · cases s.freeSlot with
    | none => exact bindParent_fd s c d
    | some i => exact (bindParent_fd _ c d).trans (occupy_fd s c i d)
  · rfl

theorem connSetTimeout_service (w : AddWorld) (c : ℕ) : (w.connSetTimeout c).service = w.service := by
  unfold connSetTimeout
  split_ifs <;> rfl

/-- `conn_set` registers timers and events only. -/
theorem connSet_service (w : AddWorld) (c : ℕ) :
    (w.connSet c).1.service = w.service ∧ (w.connSet c).1.closed = w.closed := by
  unfold connSet
  cases w.parents c with
  | none => split_ifs <;> exact ⟨rfl,rfl⟩
  | some pth =>
    dsimp only
    split_ifs <;>
      first
      | exact ⟨rfl,rfl⟩
      | exact ⟨connSetTimeout_service w c,(connSetTimeout_setup w c).closed⟩

/-- Where the service takes it, the connection is in the table and its event is registered. -/
theorem Accepts.registers (h : v.Accepts pth c) :
    (v.procthreadAddConnection pth c).events c = true ∧
      ∃ i, (v.procthreadAddConnection pth c).service.connections i = some c := by
  obtain ⟨hlock,hroom,hevbase,hfd⟩ := h
  obtain ⟨i,hi⟩ := Option.isSome_iff_exists.mp hroom
  obtain ⟨htable,hret⟩ := Service.pushconn_table (c := c) hlock hi
  have hslot : (v.service.servicePushconn c).1.connections i = some c := by
    rw [htable.connections]
    exact Function.update_self ..
  rw [← pushconn_fd v.service c c] at hfd
  unfold procthreadAddConnection
  dsimp only
  rw [if_pos hret]
  constructor
  · unfold connSet
    dsimp only
    rw [if_pos hfd,Function.update_self]
    dsimp only
    rw [if_pos hevbase]
    exact Function.update_self ..
  · refine ⟨i,?_⟩
    rw [(connSet_service _ c).1]
    exact hslot

/-! ### A registration that fails -/

theorem procthreadAddConnection_closed (w : AddWorld) (pth : PthFields) (c : ℕ) :
    (w.procthreadAddConnection pth c).closed = w.closed := by
  unfold procthreadAddConnection
  dsimp only
  split_ifs
  · exact (connSet_service _ c).2
  · rfl

theorem route_closed (w : AddWorld) (a : NewConn) (c : ℕ) : (w.route a c).closed = w.closed := by
  unfold route
  cases w.threadFor a.fd with
  | none =>
    change (w.servicePushtoq c).closed = _
    unfold servicePushtoq
    split_ifs <;> rfl
  | some pth =>
    dsimp only
    split_ifs
    · exact procthreadAddConnection_closed w pth c
    · unfold procthreadAddconn
      split_ifs <;> rfl

theorem takes_none_iff : w.takes a = none ↔ w.Refused a := by
  unfold takes Refused servicePopfromq
  cases a.session with
  | none => simp
  | some x =>
    cases w.qconns with
    | nil => grind
    | cons c rest => grind

/-- No path of the call closes a descriptor. -/
theorem serviceAddconn_closed (w : AddWorld) (a : NewConn) : (w.serviceAddconn a).1.closed = w.closed := by
  cases htakes : w.takes a with
  | none => rw [serviceAddconn_none htakes]
  | some c =>
    cases hsession : a.session with
    | none =>
      unfold takes at htakes
      rw [hsession] at htakes
      cases htakes
    | some x =>
      rw [serviceAddconn_some hsession htakes,← (fillConn_setup w a c x).closed]
      exact route_closed _ a c

/-- Whatever becomes of a connection that has been taken, its descriptor is closed by no one. -/
theorem closes_taken (h : w.takes a = some c) : w.closes a between = 0 := by
  have hreturns : (w.serviceAddconn a).2 = some c := (serviceAddconn_returns w a).trans h
  have hclosed : (w.settled a between).closed = (w.begun a between).closed := by
    unfold settled begun
    cases w.posted a with
    | none => exact serviceAddconn_closed w a
    | some p => exact procthreadAddConnection_closed _ p.1 p.2
  unfold closes
  rw [hreturns,hclosed,Nat.sub_self]
  rfl

/-- Where no connection is taken, the call is over and has changed nothing. -/
theorem Refused.settled (h : w.Refused a) : w.settled a between = w := by
  have htakes := takes_none_iff.mpr h
  unfold AddWorld.settled
  rw [posted_none htakes,serviceAddconn_none htakes]

theorem Refused.begun (h : w.Refused a) : w.begun a between = w := by
  unfold AddWorld.begun
  rw [posted_none (takes_none_iff.mpr h),Option.isSome_none,if_neg Bool.false_ne_true]

theorem Refused.leaksNothing (h : w.Refused a) : LeaksNothing w a between := by
  have htakes := takes_none_iff.mpr h
  have hreturns : (w.serviceAddconn a).2 = none := (serviceAddconn_returns w a).trans htakes
  refine ⟨hreturns,?_,?_,⟨?_,?_⟩,?_⟩
  · intro c hc
    rw [htakes] at hc
    cases hc
  · unfold closes
    rw [h.settled,h.begun,hreturns,if_pos rfl,Nat.sub_self]
  · rw [serviceAddconn_none htakes]
    exact .rfl' _
  · rw [h.settled,h.begun]
    exact .rfl' _
  · intro c hc
    rw [htakes] at hc
    cases hc

/-- The caller learns of a failed registration only where no connection has been taken. -/
theorem addconn_leaks_nothing_iff (w : AddWorld) (a : NewConn) (between : AddWorld → AddWorld) :
    (¬CanRegister w a between → LeaksNothing w a between) ↔
      CanRegister w a between ∨ w.Refused a := by
  constructor
  · intro h
    by_cases hcan : CanRegister w a between
    · exact .inl hcan
    · right
      have hreports := (h hcan).reports
      rw [serviceAddconn_returns] at hreports
      exact takes_none_iff.mp hreports
  · intro h hcan
    exact (h.resolve_left hcan).leaksNothing

end

/-- A service for threads that has none, with one connection in its queue. -/
def noThreads : AddWorld where
  service := { Service.init 2 1 S_SERVICE with lock := 0 }
  workingMode := WORKING_THREAD
  daemon := none
  nprocthreads := 0
  procthreads _ := none
  evtimer := false
  qconns := [1]
  freed := []
  timeouts _ := 0
  parents _ := none
  timers _ := false
  events _ := false
  outevents _ := false
  newSessions := []
  closed := []

/-- An accepted connection with the session of the service. -/
def accepted : NewConn :=
  ⟨7,CONN_STATUS_FREE,false,some ⟨ServiceConn.init.session,0,0,-1,none,-1,none,-1⟩,none⟩

/-- There is no thread for the descriptor: the connection goes back to the queue as it has been filled, and
the caller is given its address. -/
theorem addconn_without_threads :
    ¬ ∀ w a between, ¬CanRegister w a between → LeaksNothing w a between := by
  intro h
  have hcan : ¬CanRegister noThreads accepted id := by
    rintro ⟨v,pth,c,hregistering,-⟩
    cases hregistering
  have hreports := (h noThreads accepted id hcan).reports
  cases hreports

end AddWorld

end Sbase
