import Sbase.Conn.Recv
import Sbase.Lib.Slots

/-! The connection table of a service, its pool of idle connections and the pools of its groups:
`service.c`, and the operations of `conn.c` that it calls or that call it.

A `CONN` is named by its address. Every operation holds the mutex of the service, so that each is
one step. -/
namespace Sbase
open Slots

def SB_CONN_MAX : ℕ := 40960
def SB_GROUP_CONN_MAX : ℕ := 512
def SB_GROUPS_MAX : ℤ := 256

def S_SERVICE : ℕ := 0x00
def C_SERVICE : ℕ := 0x01

def SB_MULTICAST : ℕ := 0x04

/-- The value of an `unsigned short` after the assignment of an `int`. -/
def ushortOfInt (n : ℤ) : ℕ := (n % 65536).toNat

theorem ushortOfInt_natCast {n : ℕ} (h : n < 65536) : ushortOfInt n = n := by
  have hmod : ((n : ℤ) % 65536) = n := by omega
  rw [ushortOfInt,hmod,Int.toNat_natCast]

/-- The fields of a `CONN` that its service uses, next to those of the receiving half. -/
structure ServiceConn extends RecvConn where
  index : ℤ
  groupid : ℤ
  gindex : ℤ
  xindex : ℤ
  cState : ℕ
  flags : ℕ
  parent : Option ℕ
  parentid : ℤ
  child : Option ℕ
  childid : ℤ

namespace ServiceConn

def withControl (c : ServiceConn) (k : Control) : ServiceConn := { c with toControl := k }

/-- The test by which a connection belongs to a group. -/
def grouped (c : ServiceConn) : Bool := 0 < c.groupid ∧ c.groupid < SB_GROUPS_MAX

/-- The test of a connection that `service_getconn` may hand out. -/
def idle (c : ServiceConn) : Bool :=
  c.status = CONN_STATUS_FREE ∧ c.dState = D_STATE_FREE ∧ c.cState = C_STATE_FREE

/-- `conn_close` -/
def connClose (c : ServiceConn) : ServiceConn :=
  c.withControl (c.toControl.connShut D_STATE_CLOSE E_STATE_OFF)

/-- `conn_start_cstate`, the send queue apart. -/
def connStartCstate (c : ServiceConn) : ServiceConn :=
  if closing c.dState then c
  else if c.cState = C_STATE_FREE then
    { c with cState := C_STATE_USING, packet := mmblockReset c.packet,
             buffer := mmblockReset c.buffer, oob := mmblockReset c.oob,
             exchange := mmblockReset c.exchange, chunk := chunkReset c.chunk }
  else c

/-- `conn_over_cstate`, its timer apart. -/
def connOverCstate (c : ServiceConn) : ServiceConn :=
  if closing c.dState then c else { c with cState := C_STATE_FREE }

/-- `SESSION_RESET` -/
def sessionReset (c : ServiceConn) : ServiceConn :=
  { c with toRecvConn := c.toRecvConn.sessionReset }

/-- `conn_bind_proxy` -/
def connBindProxy (c : ServiceConn) (child : ℕ) (childIndex : ℤ) : ServiceConn :=
  if closing c.dState then c
  else
    let c : ServiceConn :=
      { c with session := { c.session with packetType := c.session.packetType ||| PACKET_PROXY },
               childid := childIndex, child := some child }
    c.withControl (c.toControl.connPushMessage .proxy)

end ServiceConn

/-- The counters and the free list of a `CNGROUP`. -/
structure Group where
  limit : ℤ
  nconnected : ℤ
  total : ℤ
  nconnsFree : ℤ
  connsFree : ℕ → ℕ

/-- The fields of a `SERVICE` that keep its connections, and the `CONN` objects; `flags` are those of
its session. -/
structure Service where
  lock : ℤ
  connectionsLimit : ℤ
  indexMax : ℤ
  runningConnections : ℤ
  nconnsFree : ℤ
  nconnections : ℤ
  connsLimit : ℤ
  serviceType : ℕ
  flags : ℕ
  ngroups : ℤ
  connsFree : ℕ → ℕ
  connections : ℕ → Option ℕ
  groups : ℕ → Group
  conns : ℕ → ServiceConn

namespace Service

/-- An assignment to fields of the connection `c`. -/
def modify (s : Service) (c : ℕ) (f : ServiceConn → ServiceConn) : Service :=
  { s with conns := Function.update s.conns c (f (s.conns c)) }

/-- An assignment to fields of the group `id`. -/
def modifyGroup (s : Service) (id : ℤ) (f : Group → Group) : Service :=
  { s with groups := Function.update s.groups id.toNat (f (s.groups id.toNat)) }

/-- The test of a service that keeps a pool. -/
def pooling (s : Service) : Bool := s.serviceType = C_SERVICE ∨ s.flags &&& SB_MULTICAST ≠ 0

/-- The first free slot of the table. -/
def freeSlot (s : Service) : Option ℕ :=
  seek (fun i => s.connections i = none) 1 s.connectionsLimit.toNat

/-- The first free slot of the pool. -/
def freePoolSlot (s : Service) : Option ℕ := seek (fun x => s.connsFree x = 0) 0 s.connsLimit.toNat

/-- The first free slot of the group `id`. -/
def freeGroupSlot (s : Service) (id : ℤ) : Option ℕ :=
  seek (fun x => (s.groups id.toNat).connsFree x = 0) 0 SB_GROUP_CONN_MAX

/-- The assignments to slot `x` of the pool, which name the connection `c` in it. -/
def fillPool (s : Service) (c x : ℕ) : Service :=
  ({ s with connsFree := Function.update s.connsFree x (ushortOfInt (s.conns c).index),
            nconnsFree := s.nconnsFree + 1 }).modify c fun d => { d with xindex := x }

/-- The assignments to slot `x` of the group `id`, which name the connection `c` in it. -/
def fillGroup (s : Service) (id : ℤ) (c x : ℕ) : Service :=
  (s.modifyGroup id fun g =>
    { g with connsFree := Function.update g.connsFree x (ushortOfInt (s.conns c).index),
             nconnsFree := g.nconnsFree + 1 }).modify c fun d => { d with gindex := x }

/-- The part of `service_pushconn` that puts a new connection into its group. -/
def joinGroup (s : Service) (c : ℕ) : Service :=
  let id := (s.conns c).groupid
  match s.freeGroupSlot id with
  | some x =>
    let s := s.fillGroup id c x
    if (s.conns c).status = CONN_STATUS_FREE then
      s.modifyGroup id fun g => { g with nconnected := g.nconnected + 1 }
    else s
  | none => s

/-- The part of `service_pushconn` that puts a new connection into the pool. -/
def joinPool (s : Service) (c : ℕ) : Service :=
  match s.freePoolSlot with
  | some x => s.fillPool c x
  | none => s

/-- The first assignments to a table slot in `service_pushconn`. -/
def place (s : Service) (c i : ℕ) : Service :=
  ({ s with connections := Function.update s.connections i (some c),
            runningConnections := s.runningConnections + 1 }).modify c fun d => { d with index := i }

/-- The body of the search for a table slot in `service_pushconn`. -/
def occupy (s : Service) (c i : ℕ) : Service :=
  let s := s.place c i
  let s :=
    if (s.conns c).grouped then s.joinGroup c
    else if s.pooling then s.joinPool c
    else s
  { s with indexMax := if s.indexMax < i then i else s.indexMax }

/-- The end of `service_pushconn`, which binds a proxy to its parent. -/
def bindParent (s : Service) (c : ℕ) : Service :=
  let d := s.conns c
  match d.parent with
  | some parent =>
    if d.session.packetType &&& PACKET_PROXY ≠ 0 ∧ 0 < d.parentid ∧ d.parentid ≤ s.indexMax ∧
        s.connections d.parentid.toNat = some parent then
      s.modify parent fun p => p.connBindProxy c d.index
    else s
  | none => s

/-- `service_pushconn` -/
def servicePushconn (s : Service) (c : ℕ) : Service × ℤ :=
  if s.lock = 0 then
    match s.freeSlot with
    | some i => ((s.occupy c i).bindParent c, 0)
    | none => (s.bindParent c, -1)
  else (s,-1)

/-- The test by which `service_popconn` finds a connection in the table. -/
def listed (s : Service) (c : ℕ) : Bool :=
  0 < (s.conns c).index ∧ (s.conns c).index ≤ s.indexMax ∧
    s.connections (s.conns c).index.toNat = some c

/-- The part of `service_popconn` that takes a connection out of its group. -/
def leaveGroup (s : Service) (c : ℕ) : Service :=
  let d := s.conns c
  let g := s.groups d.groupid.toNat
  let s :=
    if 0 ≤ d.gindex ∧ d.gindex < SB_CONN_MAX ∧ 0 < g.connsFree d.gindex.toNat ∧
        (g.connsFree d.gindex.toNat : ℤ) = d.index then
      s.modifyGroup d.groupid fun g =>
        { g with connsFree := Function.update g.connsFree d.gindex.toNat 0,
                 nconnsFree := g.nconnsFree - 1 }
    else s
  let s :=
    if d.status = CONN_STATUS_FREE then
      s.modifyGroup d.groupid fun g => { g with nconnected := g.nconnected - 1 }
    else s
  s.modifyGroup d.groupid fun g => { g with total := g.total - 1 }

/-- The part of `service_popconn` that takes a connection out of the pool. -/
def leavePool (s : Service) (c : ℕ) : Service :=
  let d := s.conns c
  if 0 ≤ d.xindex ∧ d.xindex < s.connsLimit ∧ 0 < s.connsFree d.xindex.toNat ∧
      (s.connsFree d.xindex.toNat : ℤ) = d.index then
    { s with connsFree := Function.update s.connsFree d.xindex.toNat 0,
             nconnsFree := s.nconnsFree - 1, nconnections := s.nconnections - 1 }
  else s

/-- The last assignments of `service_popconn`, to the slot of its connection. -/
def vacate (s : Service) (c : ℕ) : Service :=
  let index := (s.conns c).index
  { s with connections := Function.update s.connections index.toNat none,
           runningConnections := s.runningConnections - 1,
           indexMax := if s.indexMax = index then s.indexMax - 1 else s.indexMax }

/-- `service_popconn` -/
def servicePopconn (s : Service) (c : ℕ) : Service × ℤ :=
  if s.lock = 0 ∧ s.listed c then
    let s :=
      if (s.conns c).grouped then s.leaveGroup c
      else if s.pooling then s.leavePool c
      else s
    (s.vacate c, 0)
  else (s,-1)

/-- `service_okconn` -/
def serviceOkconn (s : Service) (c : ℕ) : Service :=
  let id := (s.conns c).groupid
  let s :=
    if 0 < id ∧ id ≤ s.ngroups then
      s.modifyGroup id fun g => { g with nconnected := g.nconnected + 1 }
    else s
  s.modify c fun d => { d with status := CONN_STATUS_FREE }

/-- The test of an entry of a free list in `service_getconn`. -/
def ready (s : Service) (i : ℕ) : Bool :=
  0 < i ∧ (s.connections i).any fun c => (s.conns c).idle

/-- The assignments of `service_getconn` that take the connection `c` from slot `x` of the group
`id`. -/
def takeFromGroup (s : Service) (id : ℤ) (c x : ℕ) : Service :=
  (s.modifyGroup id fun g =>
    { g with connsFree := Function.update g.connsFree x 0,
             nconnsFree := g.nconnsFree - 1 }).modify c fun d =>
      ({ d with gindex := -1 }).connStartCstate

/-- The assignments of `service_getconn` that take the connection `c` from slot `x` of the pool. -/
def takeFromPool (s : Service) (c x : ℕ) : Service :=
  ({ s with connsFree := Function.update s.connsFree x 0,
            nconnsFree := s.nconnsFree - 1 }).modify c fun d =>
      ({ d with xindex := -1 }).connStartCstate

/-- The part of `service_getconn` that searches the group `id`. -/
def takeGroup (s : Service) (id : ℤ) : Service × Option ℕ :=
  let g := s.groups id.toNat
  if 0 < g.nconnsFree then
    match seek (fun x => s.ready (g.connsFree x)) 0 SB_GROUP_CONN_MAX with
    | some x =>
      match s.connections (g.connsFree x) with
      | some c => (s.takeFromGroup id c x, some c)
      | none => (s,none)
    | none => (s,none)
  else (s,none)

/-- The part of `service_getconn` that searches the pool. -/
def takePool (s : Service) : Service × Option ℕ :=
  if 0 < s.nconnsFree then
    match seek (fun x => s.ready (s.connsFree x)) 0 s.connsLimit.toNat with
    | some x =>
      match s.connections (s.connsFree x) with
      | some c => (s.takeFromPool c x, some c)
      | none => (s,none)
    | none => (s,none)
  else (s,none)

/-- `service_getconn` -/
def serviceGetconn (s : Service) (groupid : ℤ) : Service × Option ℕ :=
  if s.lock = 0 then
    if 0 < groupid ∧ groupid ≤ s.ngroups then s.takeGroup groupid else s.takePool
  else (s,none)

/-- `service_freeconn` -/
def serviceFreeconn (s : Service) (c : ℕ) : Service :=
  let d := s.conns c
  if d.grouped then
    if (s.groups d.groupid.toNat).limit ≤ 0 then s.modify c ServiceConn.connClose
    else
      match s.freeGroupSlot d.groupid with
      | some x => (s.fillGroup d.groupid c x).modify c ServiceConn.connOverCstate
      | none => s
  else if s.nconnsFree < s.connsLimit then
    match s.freePoolSlot with
    | some x => (s.fillPool c x).modify c ServiceConn.connOverCstate
    | none => s
  else s.modify c ServiceConn.connClose

/-- The test by which `conn_over_session` gives its connection back. -/
def givesBack (s : Service) (c : ℕ) : Bool :=
  (s.conns c).flags &&& SB_MULTICAST ≠ 0 ∨ s.serviceType = C_SERVICE

/-- `conn_over_session` -/
def connOverSession (s : Service) (c : ℕ) : Service :=
  if closing (s.conns c).dState then s
  else
    let s := s.modify c ServiceConn.sessionReset
    if s.givesBack c then s.serviceFreeconn c else s

end Service

/-- The operations on the connections of a service. -/
inductive ServiceOp
  | pushconn (c : ℕ)
  | popconn (c : ℕ)
  | okconn (c : ℕ)
  | getconn (groupid : ℤ)
  | freeconn (c : ℕ)
  | overSession (c : ℕ)
  | close (c : ℕ)

/-- A service with the record of its callers: the connections pushed and not popped since, and those
that `service_getconn` has handed out and that have not been given back since. -/
structure ServiceWorld where
  service : Service
  pushed : Finset ℕ
  held : Finset ℕ

namespace ServiceWorld

def pushconn (w : ServiceWorld) (c : ℕ) : ServiceWorld :=
  let r := w.service.servicePushconn c
  { w with service := r.1, pushed := if r.2 = 0 then insert c w.pushed else w.pushed }

def popconn (w : ServiceWorld) (c : ℕ) : ServiceWorld :=
  let r := w.service.servicePopconn c
  { w with service := r.1, pushed := if r.2 = 0 then w.pushed.erase c else w.pushed }

def getconn (w : ServiceWorld) (groupid : ℤ) : ServiceWorld :=
  let r := w.service.serviceGetconn groupid
  { w with service := r.1, held := r.2.elim w.held fun c => insert c w.held }

def freeconn (w : ServiceWorld) (c : ℕ) : ServiceWorld :=
  { w with service := w.service.serviceFreeconn c, held := w.held.erase c }

def overSession (w : ServiceWorld) (c : ℕ) : ServiceWorld :=
  { w with service := w.service.connOverSession c,
           held := if closing (w.service.conns c).dState = false ∧ w.service.givesBack c then
             w.held.erase c else w.held }

end ServiceWorld

def ServiceOp.apply (w : ServiceWorld) : ServiceOp → ServiceWorld
  | .pushconn c => w.pushconn c
  | .popconn c => w.popconn c
  | .okconn c => { w with service := w.service.serviceOkconn c }
  | .getconn groupid => w.getconn groupid
  | .freeconn c => w.freeconn c
  | .overSession c => w.overSession c
  | .close c => { w with service := w.service.modify c ServiceConn.connClose }

/-- A running service without connections yet, with the sizes of its table and its pool within those
of their arrays, for any `CONN` objects. -/
structure Service.Fresh (s : Service) : Prop where
  running : s.lock = 0
  connectionsLimit_pos : 0 < s.connectionsLimit
  connectionsLimit_le : s.connectionsLimit ≤ SB_CONN_MAX
  connsLimit_le : s.connsLimit ≤ SB_CONN_MAX
  connections : ∀ i, s.connections i = none
  indexMax : s.indexMax = 0
  runningConnections : s.runningConnections = 0
  connsFree : ∀ x, s.connsFree x = 0
  nconnsFree : s.nconnsFree = 0
  groups : ∀ id, (s.groups id).nconnsFree = 0 ∧ ∀ x, (s.groups id).connsFree x = 0

/-- The world in which such a service starts. -/
def Service.start (s : Service) : ServiceWorld := ⟨s,∅,∅⟩

/-- A `CONN` as `conn_init` makes it, around a connected socket. -/
def ServiceConn.init : ServiceConn where
  fd := 3
  status := CONN_STATUS_FREE
  dState := D_STATE_FREE
  eState := E_STATE_OFF
  messages := []
  inMessages := []
  outMessages := []
  session := ⟨0,0,none,0,false,none,none,none,none,none,none,none⟩
  ssl := false
  buffer := mmblockInit
  packet := mmblockInit
  oob := mmblockInit
  exchange := mmblockInit
  chunk := chunkInit
  sState := S_STATE_READY
  received := []
  handed := []
  relayed := []
  index := -1
  groupid := -1
  gindex := -1
  xindex := 0
  cState := C_STATE_FREE
  flags := 0
  parent := none
  parentid := 0
  child := none
  childid := 0

/-- A service of zeroed memory with its limits and its type. -/
def Service.init (connectionsLimit connsLimit : ℤ) (serviceType : ℕ) : Service where
  lock := 0
  connectionsLimit := connectionsLimit
  indexMax := 0
  runningConnections := 0
  nconnsFree := 0
  nconnections := 0
  connsLimit := connsLimit
  serviceType := serviceType
  flags := 0
  ngroups := 0
  connsFree _ := 0
  connections _ := none
  groups _ := ⟨0,0,0,0,fun _ => 0⟩
  conns _ := .init

theorem Service.init_fresh {connectionsLimit connsLimit : ℤ} (hpos : 0 < connectionsLimit)
    (hle : connectionsLimit ≤ SB_CONN_MAX) (hpool : connsLimit ≤ SB_CONN_MAX) (serviceType : ℕ) :
    (Service.init connectionsLimit connsLimit serviceType).Fresh where
  running := rfl
  connectionsLimit_pos := hpos
  connectionsLimit_le := hle
  connsLimit_le := hpool
  connections _ := rfl
  indexMax := rfl
  runningConnections := rfl
  connsFree _ := rfl
  nconnsFree := rfl
  groups _ := ⟨rfl,fun _ => rfl⟩

end Sbase
