import Sbase.Service.Addconn

/-! How connections are shut down: the messages that lead from `conn_shut` through the daemons to
`procthread_terminate_connection`, and how `service_addconn` takes connections into use, again and again.

A `CONN` is named by its address, a `PROCTHREAD` and its message queue by one number. The handlers that do
not shut a connection down are left out: what they do to it are steps of their own. -/
namespace Sbase
open Slots Runs

/-- The threads of a service, and the daemons that each hands on to its connections. -/
structure ServiceThreads where
  workingMode : ℕ
  daemon : Option ℕ
  nprocthreads : ℕ
  procthreads : ℕ → Option ℕ
  indaemon : ℕ → Option ℕ
  outdaemon : ℕ → Option ℕ

/-- The thread to which `service_addconn` and `service_newtransaction` give a descriptor. -/
def ServiceThreads.threadFor (T : ServiceThreads) (fd : ℤ) : Option ℕ :=
  if T.workingMode = WORKING_PROC then T.daemon
  else if T.workingMode = WORKING_THREAD ∧ 0 < T.nprocthreads then T.procthreads (fd % T.nprocthreads).toNat
  else none

inductive EventSide
  | event | outevent
  deriving DecidableEq

/-- A message for a connection in the queue of a thread; `born` tells for which incarnation it was pushed. -/
structure ConnMessage where
  thread : ℕ
  id : MessageId
  index : ℤ
  fd : ℤ
  parent : Option ℕ
  conn : ℕ
  born : ℕ
  deriving DecidableEq

/-- What can happen to an incarnation of a connection. -/
inductive Happening
  | shut (n : ℕ)
  | destroyed (side : EventSide) (n : ℕ)
  | terminated (n : ℕ)
  | closed (n : ℕ)
  | dispatched (m : ConnMessage) (n : ℕ)
  deriving DecidableEq

/-- The fields of a `CONN` that its shutdown uses, the number of its incarnation, and what has happened to
it, the latest first. -/
structure ThreadConn where
  fd : ℤ
  dState : ℕ
  index : ℤ
  messageQueue : Option ℕ
  inqmessage : Option ℕ
  outqmessage : Option ℕ
  parent : Option ℕ
  indaemon : Option ℕ
  outdaemon : Option ℕ
  born : ℕ
  past : List Happening

/-- `conn_init` -/
def ThreadConn.init : ThreadConn := ⟨0,D_STATE_FREE,-1,none,none,none,none,none,none,0,[]⟩

/-- The ids that `conn.c` gives to `conn_push_message`. -/
inductive Posted
  | packet | data | «end» | free | timeout | proxy
  deriving DecidableEq

def Posted.id : Posted → MessageId
  | packet => .packet
  | data => .data
  | «end» => .end
  | free => .free
  | timeout => .timeout
  | proxy => .proxy

/-- The messages that are pushed for a connection by others than those that shut it down: `PUSH_INQMESSAGE`
with two ids, `CONN_OUTEVENT_MESSAGE`, the `MESSAGE_BUFFER` of a datagram, and a transaction. -/
inductive Push
  | posted (p : Posted)
  | buffer
  | chunkio
  | out
  | accepted
  | transaction
  deriving DecidableEq

/-- How far one who pushes a message has got: it has looked at the connection, in its incarnation `n`, or has read
from it the arguments of `qmessage_push`. -/
inductive PushState
  | idle
  | looked (c n : ℕ) (p : Push)
  | ready (m : ConnMessage)
  deriving DecidableEq

/-- A service with its connections, those that wait in `qconns`, its table, the locks of the service and of
its threads, the messages of all queues, the oldest first, and how far the pushes have got that are under way. -/
structure ShutWorld where
  conns : ℕ → ThreadConn
  nconns : ℕ
  qconns : List ℕ
  connections : ℕ → Option ℕ
  connectionsLimit : ℕ
  indexMax : ℤ
  lock : Bool
  locks : ℕ → Bool
  messages : List ConnMessage
  pushers : ℕ → PushState

namespace ShutWorld

def init (connectionsLimit : ℕ) : ShutWorld :=
  ⟨fun _ => .init,0,[],fun _ => none,connectionsLimit,0,false,fun _ => false,[],fun _ => .idle⟩

def modify (w : ShutWorld) (c : ℕ) (f : ThreadConn → ThreadConn) : ShutWorld :=
  { w with conns := Function.update w.conns c (f (w.conns c)) }

def note (w : ShutWorld) (c : ℕ) (h : ℕ → Happening) : ShutWorld :=
  w.modify c fun d => { d with past := h d.born::d.past }

/-- `qmessage_push`, which does nothing without a queue. -/
def qmessagePush (w : ShutWorld) (queue : Option ℕ) (id : MessageId) (index : ℤ) (parent : Option ℕ) (c : ℕ) :
    ShutWorld :=
  match queue with
  | some t =>
    { w with messages := w.messages ++ [⟨t,id,index,(w.conns c).fd,parent,c,(w.conns c).born⟩] }
  | none => w

/-- `conn__push__message` -/
def pushMessage (w : ShutWorld) (c : ℕ) (id : MessageId) : ShutWorld :=
  match (w.conns c).parent with
  | some p => w.qmessagePush (w.conns c).messageQueue id (w.conns c).index (some p) c
  | none => w

/-- `conn_shut`, its timer apart. -/
def connShut (w : ShutWorld) (c dState : ℕ) : ShutWorld :=
  let d := w.conns c
  if closing d.dState then w
  else if d.dState = D_STATE_FREE ∧ 0 < d.fd then
    let w := w.modify c fun d => { d with dState := d.dState ||| dState }
    if d.messageQueue.isSome ∧ d.parent.isSome then (w.pushMessage c .shut).note c .shut else w
  else w

/-! ### From `MESSAGE_SHUT` to `MESSAGE_QUIT` -/

/-- `event_destroy` of one of the events. -/
def eventDestroy (w : ShutWorld) (side : EventSide) (c : ℕ) : ShutWorld := w.note c (.destroyed side)

/-- The last branches of `conn_shut_handler` and of `conn_shutout_handler`. -/
def shutInput (w : ShutWorld) (c : ℕ) : ShutWorld :=
  let d := w.conns c
  match d.indaemon with
  | some i => w.qmessagePush d.inqmessage .over d.index (some i) c
  | none =>
    match d.parent with
    | some p => w.qmessagePush d.messageQueue .quit d.index (some p) c
    | none => w

/-- `conn_shut_handler` -/
def connShutHandler (w : ShutWorld) (c : ℕ) : ShutWorld :=
  let d := w.conns c
  match d.outdaemon with
  | some o => w.qmessagePush d.outqmessage .shutout d.index (some o) c
  | none => w.shutInput c

/-- `conn_shutout_handler` -/
def connShutoutHandler (w : ShutWorld) (c : ℕ) : ShutWorld :=
  (if (w.conns c).outdaemon.isSome then w.eventDestroy .outevent c else w).shutInput c

/-- `service_overconn` -/
def serviceOverconn (T : ServiceThreads) (w : ShutWorld) (c : ℕ) : ShutWorld :=
  match T.daemon with
  | some daemon => w.qmessagePush (some daemon) .quit (w.conns c).index (some daemon) c
  | none => w

/-- `procthread_over_connection` -/
def procthreadOverConnection (T : ServiceThreads) (w : ShutWorld) (c : ℕ) : ShutWorld :=
  serviceOverconn T (w.eventDestroy .event c) c

/-! ### Into use and out of use -/

/-- `service_popconn`, as far as it is about the table. -/
def servicePopconn (w : ShutWorld) (c : ℕ) : ShutWorld :=
  let index := (w.conns c).index
  if w.lock = false ∧ 0 < index ∧ index ≤ w.indexMax ∧ w.connections index.toNat = some c then
    { w with connections := Function.update w.connections index.toNat none,
             indexMax := if w.indexMax = index then w.indexMax - 1 else w.indexMax }
  else w

/-- `conn_terminate` -/
def connTerminate (w : ShutWorld) (c : ℕ) : ShutWorld :=
  let w := if 0 < (w.conns c).fd then w.note c .closed else w
  w.modify c fun d => { d with dState := D_STATE_CLOSE, fd := -1 }

/-- `conn_reset`, which leaves `indaemon` and `outdaemon` as they are. -/
def connReset (w : ShutWorld) (c : ℕ) : ShutWorld :=
  w.modify c fun d =>
    { d with index := -1, dState := D_STATE_FREE, fd := 0, messageQueue := none, inqmessage := none,
             outqmessage := none, parent := none }

/-- `service_pushtoq`; the connection is cleaned if it has no place in the queue. -/
def servicePushtoq (w : ShutWorld) (c : ℕ) : ShutWorld :=
  if w.qconns.length < SB_QCONN_MAX then { w with qconns := c::w.qconns } else w

/-- `procthread_terminate_connection`; the connection is cleaned if the thread is locked. -/
def procthreadTerminateConnection (w : ShutWorld) (pth c : ℕ) : ShutWorld :=
  let w := ((w.note c .terminated).servicePopconn c).connTerminate c
  if w.locks pth then w else (w.connReset c).servicePushtoq c

/-- `service_pushconn`, as far as it is about the table. -/
def servicePushconn (w : ShutWorld) (c : ℕ) : ShutWorld :=
  if w.lock = false then
    match seek (fun i => w.connections i = none) 1 w.connectionsLimit with
    | some i =>
      { w.modify c fun d => { d with index := i } with
        connections := Function.update w.connections i (some c),
        indexMax := if w.indexMax < i then i else w.indexMax }
    | none => w
  else w

/-- `procthread_add_connection`, without the registration of the events. -/
def procthreadAddConnection (T : ServiceThreads) (w : ShutWorld) (pth c : ℕ) : ShutWorld :=
  (w.modify c fun d =>
    { d with messageQueue := some pth, indaemon := T.indaemon pth, inqmessage := T.indaemon pth,
             outdaemon := T.outdaemon pth, outqmessage := T.outdaemon pth, parent := some pth }).servicePushconn c

/-- `procthread_addconn` -/
def procthreadAddconn (w : ShutWorld) (pth c : ℕ) : ShutWorld :=
  if w.locks pth = false then w.qmessagePush (some pth) .newSession (-1) (some pth) c else w

/-- `service_popfromq`, where `conn_init` may fail. -/
def servicePopfromq (w : ShutWorld) (fresh : Bool) : ShutWorld × Option ℕ :=
  match w.qconns with
  | c::rest => ({ w with qconns := rest },some c)
  | [] =>
    if fresh then
      ({ w with nconns := w.nconns + 1, conns := Function.update w.conns w.nconns .init },some w.nconns)
    else (w,none)

/-- The end of `service_addconn`, which gives the connection to its thread. -/
def route (T : ServiceThreads) (w : ShutWorld) (c : ℕ) (fd : ℤ) (status : ℕ) : ShutWorld :=
  match T.threadFor fd with
  | some pth =>
    if T.workingMode = WORKING_PROC ∨ status = CONN_STATUS_FREE then procthreadAddConnection T w pth c
    else w.procthreadAddconn pth c
  | none => w.servicePushtoq c

/-- `service_addconn`, with which an incarnation begins. -/
def serviceAddconn (T : ServiceThreads) (w : ShutWorld) (fd : ℤ) (status : ℕ) (fresh : Bool) : ShutWorld :=
  if w.lock = false ∧ 0 < fd then
    match w.servicePopfromq fresh with
    | (w,some c) => route T (w.modify c fun d => { d with fd := fd, born := d.born + 1 }) c fd status
    | (w,none) => w
  else w

/-! ### Messages -/

/-- The test of `d_state` with which a push begins, if it has one. -/
def looks (w : ShutWorld) (c : ℕ) : Push → Bool
  | .posted _ => !closing (w.conns c).dState
  | .buffer | .chunkio => (w.conns c).dState = 0
  | .out | .accepted | .transaction => true

/-- The message of a push for the incarnation `n`, as the fields of the connection are when it reads them. Without
a queue, `qmessage_push` does nothing. -/
def reads (T : ServiceThreads) (w : ShutWorld) (c n : ℕ) (p : Push) : Option ConnMessage :=
  let d := w.conns c
  match p with
  | .posted p =>
    match d.parent with
    | some pth => d.messageQueue.map (⟨·,p.id,d.index,d.fd,some pth,c,n⟩)
    | none => none
  | .buffer => d.inqmessage.map (⟨·,.buffer,d.index,d.fd,d.indaemon,c,n⟩)
  | .chunkio => d.inqmessage.map (⟨·,.chunkio,d.index,d.fd,d.indaemon,c,n⟩)
  | .out =>
    match d.outdaemon, d.indaemon with
    | some o, _ => d.outqmessage.map (⟨·,.out,d.index,d.fd,some o,c,n⟩)
    | none, some i => d.inqmessage.map (⟨·,.out,d.index,d.fd,some i,c,n⟩)
    | none, none => none
  | .accepted => d.parent.map fun pth => ⟨pth,.buffer,d.index,d.fd,some pth,c,n⟩
  | .transaction =>
    if w.lock = false ∧ 0 < d.fd then
      match T.threadFor d.fd with
      | some pth => if w.locks pth = false then some ⟨pth,.transaction,-1,d.fd,some pth,c,n⟩ else none
      | none => none
    else none

def setPusher (w : ShutWorld) (j : ℕ) (s : PushState) : ShutWorld :=
  { w with pushers := Function.update w.pushers j s }

/-- A push begins. -/
def look (w : ShutWorld) (j c : ℕ) (p : Push) : ShutWorld :=
  match w.pushers j with
  | .idle => if c < w.nconns ∧ w.looks c p then w.setPusher j (.looked c (w.conns c).born p) else w
  | _ => w

/-- It reads its arguments. -/
def readArgs (T : ServiceThreads) (w : ShutWorld) (j : ℕ) : ShutWorld :=
  match w.pushers j with
  | .looked c n p => w.setPusher j (((w.reads T c n p).map .ready).getD .idle)
  | _ => w

/-- It gets the lock of the queue, and the message is in. -/
def push (w : ShutWorld) (j : ℕ) : ShutWorld :=
  match w.pushers j with
  | .ready m => { w.setPusher j .idle with messages := w.messages ++ [m] }
  | _ => w

/-- The `switch` of `qmessage_handler`. -/
def dispatch (T : ServiceThreads) (w : ShutWorld) (pth : ℕ) (m : ConnMessage) : ShutWorld :=
  match m.id with
  | .newSession => procthreadAddConnection T w pth m.conn
  | .shut => w.connShutHandler m.conn
  | .shutout => w.connShutoutHandler m.conn
  | .over => procthreadOverConnection T w m.conn
  | .quit => w.procthreadTerminateConnection pth m.conn
  | _ => w

/-- The tests of `qmessage_handler` before the `switch`. -/
def accepts (w : ShutWorld) (m : ConnMessage) : Bool :=
  m.fd = (w.conns m.conn).fd ∧ ¬ (0 ≤ m.index ∧ w.connections m.index.toNat ≠ some m.conn)

/-- `qmessage_handler` of a thread, one message of it. -/
def qmessageHandler (T : ServiceThreads) (w : ShutWorld) (t : ℕ) : ShutWorld :=
  match w.messages.find? (·.thread = t) with
  | some m =>
    let w : ShutWorld := { w with messages := w.messages.eraseP (·.thread = t) }
    match m.parent with
    | some pth => if w.accepts m then dispatch T (w.note m.conn (.dispatched m)) pth m else w
    | none => w
  | none => w

end ShutWorld

/-- The steps of the threads: `service_addconn`, and for a connection from `conn_init`, `conn_shut` for a
close and for an error, and an event destroyed by a handler; the three steps of a push, between which all
others may come; a message handled, and the locks that stopping sets. -/
inductive ShutOp
  | addconn (fd : ℤ) (status : ℕ) (fresh : Bool)
  | close (c : ℕ)
  | fail (c : ℕ)
  | destroy (side : EventSide) (c : ℕ)
  | look (j c : ℕ) (p : Push)
  | readArgs (j : ℕ)
  | push (j : ℕ)
  | handle (t : ℕ)
  | stopThread (t : ℕ)
  | stopService

def ShutOp.step (T : ServiceThreads) (w : ShutWorld) : ShutOp → ShutWorld
  | addconn fd status fresh => w.serviceAddconn T fd status fresh
  | close c => if c < w.nconns then w.connShut c D_STATE_CLOSE else w
  | fail c => if c < w.nconns then w.connShut c (D_STATE_CLOSE ||| D_STATE_RCLOSE ||| D_STATE_WCLOSE) else w
  | destroy side c => if c < w.nconns then w.eventDestroy side c else w
  | look j c p => w.look j c p
  | readArgs j => w.readArgs T j
  | push j => w.push j
  | handle t => w.qmessageHandler T t
  | stopThread t => { w with locks := Function.update w.locks t true }
  | stopService => { w with lock := true }

end Sbase
