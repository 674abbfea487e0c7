import Sbase.Conn.State
import Sbase.Utils.EvtimerInvariant

/-! The timer operations of `conn.c` and `service.c`: any number of connections and the service's
heartbeat share one `EVTIMER`, and each keeps the id of its node in `evid`.

A `CONN` is named by its address. Handlers of the user run between the steps modelled here and act
by further steps. -/
namespace Sbase

/-- The handlers that are put into timer nodes. -/
inductive EvtHandler
  | connEvtimerHandler
  | serviceEvtimerHandler
  deriving DecidableEq, Repr

/-- The argument of a timer node: a `CONN` or the `SERVICE`. -/
inductive Owner
  | conn (c : ℕ)
  | service
  deriving DecidableEq, Repr

/-- The parts of a `SESSION` that the timer operations read; the flags say that the pointers
`evtimeout_handler` and `timeout_handler` are set. -/
structure TimeoutSession where
  timeout : ℤ
  evtimeoutHandler : Bool
  timeoutHandler : Bool

/-- The fields of a `CONN` that the timer operations use; `evtimer` says that the pointer is set. -/
structure TimerConn where
  fd : ℤ
  dState : ℕ
  cState : ℕ
  evtimer : Bool
  evid : ℤ
  timeout : ℤ
  evstate : ℕ
  session : TimeoutSession

/-- A `CONN` of zeroed memory, as `conn_init` makes it. -/
def TimerConn.zero : TimerConn :=
  ⟨0,D_STATE_FREE,C_STATE_FREE,false,0,0,EVSTATE_INIT,⟨0,false,false⟩⟩

/-- The shared timer, the `CONN` objects, and the service's own timer id and interval. -/
structure TimerWorld where
  timer : EvTimer EvtHandler Owner
  conns : ℕ → TimerConn
  evid : ℤ
  heartbeatInterval : ℤ

namespace TimerWorld

/-- An assignment to fields of the connection `c`. -/
def modify (w : TimerWorld) (c : ℕ) (f : TimerConn → TimerConn) : TimerWorld :=
  { w with conns := Function.update w.conns c (f (w.conns c)) }

/-- `EVTIMER_DEL(conn->evtimer, conn->evid)`, which refuses a null timer. -/
def evtimerDel (w : TimerWorld) (c : ℕ) : TimerWorld :=
  if (w.conns c).evtimer then { w with timer := (evtimerDelete w.timer (w.conns c).evid).1 } else w

/-- `CONN_EVTIMER_SET` -/
def connEvtimerSet (w : TimerWorld) (c : ℕ) (now : ℤ) : TimerWorld :=
  let conn := w.conns c
  if conn.evtimer ∧ 0 < conn.timeout then
    if 0 ≤ conn.evid then
      { w with timer := (evtimerUpdate w.timer conn.evid now conn.timeout
          (some .connEvtimerHandler) (some (.conn c))).1 }
    else
      let r := evtimerAdd w.timer now conn.timeout (some .connEvtimerHandler) (some (.conn c))
      ({ w with timer := r.1 }).modify c fun d => { d with evid := r.2 }
  else w

/-- `conn_set_timeout` -/
def connSetTimeout (w : TimerWorld) (c : ℕ) (timeoutUsec now : ℤ) : TimerWorld :=
  if closing (w.conns c).dState then w
  else if 0 < timeoutUsec then
    (w.modify c fun d => { d with timeout := timeoutUsec }).connEvtimerSet c now
  else w

/-- `conn_wait_evtimeout` -/
def connWaitEvtimeout (w : TimerWorld) (c : ℕ) (timeoutUsec now : ℤ) : TimerWorld :=
  if closing (w.conns c).dState then w
  else if 0 < timeoutUsec then
    (w.modify c fun d => { d with evstate := EVSTATE_WAIT, timeout := timeoutUsec }).connEvtimerSet
      c now
  else w

/-- `conn_over_timeout` -/
def connOverTimeout (w : TimerWorld) (c : ℕ) : TimerWorld :=
  let conn := w.conns c
  if closing conn.dState then w
  else
    let w := if conn.evtimer ∧ 0 < conn.timeout ∧ 0 ≤ conn.evid then w.evtimerDel c else w
    w.modify c fun d => { d with timeout := 0, evid := -1 }

/-- `conn_over_cstate` -/
def connOverCstate (w : TimerWorld) (c : ℕ) : TimerWorld :=
  if closing (w.conns c).dState then w
  else (w.modify c fun d => { d with cState := C_STATE_FREE }).evtimerDel c

/-- `conn_start_cstate`, by which `service_getconn` hands out a connection. -/
def connStartCstate (w : TimerWorld) (c : ℕ) : TimerWorld :=
  if closing (w.conns c).dState then w
  else if (w.conns c).cState = C_STATE_FREE then
    w.modify c fun d => { d with cState := C_STATE_USING }
  else w

/-- `conn_shut`, and with it `conn_close`. -/
def connShut (w : TimerWorld) (c : ℕ) (dState : ℕ) : TimerWorld :=
  if closing (w.conns c).dState then w
  else
    let w := w.connOverTimeout c
    if (w.conns c).dState = D_STATE_FREE ∧ 0 < (w.conns c).fd then
      w.modify c fun d => { d with dState := d.dState ||| dState }
    else w

/-- `conn_timeout_handler` up to the call of the session's own handler. -/
def connTimeoutHandler (w : TimerWorld) (c : ℕ) : TimerWorld :=
  let conn := w.conns c
  if closing conn.dState then w
  else if 0 ≤ conn.evid then
    if conn.evstate = EVSTATE_WAIT ∧ conn.session.evtimeoutHandler then
      (w.modify c fun d => { d with evstate := EVSTATE_INIT }).connOverTimeout c
    else if conn.session.timeoutHandler then w
    else w.connShut c D_STATE_CLOSE
  else w

/-- `service_freeconn` -/
def serviceFreeconn (w : TimerWorld) (c : ℕ) : Disposal → TimerWorld
  | .close => w.connShut c D_STATE_CLOSE
  | .pooled => w.connOverCstate c
  | .full => w

/-- `conn_terminate` -/
def connTerminate (w : TimerWorld) (c : ℕ) : TimerWorld :=
  let w := (w.modify c fun d => { d with dState := D_STATE_CLOSE }).evtimerDel c
  w.modify c fun d => { d with fd := -1 }

/-- `conn_reset` -/
def connReset (w : TimerWorld) (c : ℕ) : TimerWorld :=
  w.modify c fun _ => { TimerConn.zero with evid := -1 }

/-- `procthread_terminate_connection` -/
def procthreadTerminateConnection (w : TimerWorld) (c : ℕ) : TimerWorld :=
  (w.connTerminate c).connReset c

/-- `service_addconn` for an object of the free queue, up to the end of `conn_set`. -/
def serviceAddconn (w : TimerWorld) (c : ℕ) (fd : ℤ) (session : TimeoutSession) (now : ℤ) :
    TimerWorld :=
  if 0 < fd ∧ (w.conns c).evtimer = false then
    let w := w.modify c fun d => { d with fd := fd, evtimer := true, session := session, evid := -1 }
    if 0 < session.timeout then w.connSetTimeout c session.timeout now else w
  else w

/-- The part of `service_run` that starts the heartbeat. -/
def serviceRun (w : TimerWorld) (interval now : ℤ) : TimerWorld :=
  let r := evtimerAdd w.timer now interval (some .serviceEvtimerHandler) (some .service)
  { w with timer := r.1, evid := r.2, heartbeatInterval := interval }

/-- The end of `service_active_heartbeat`. -/
def serviceActiveHeartbeat (w : TimerWorld) (now : ℤ) : TimerWorld :=
  { w with timer := (evtimerUpdate w.timer w.evid now w.heartbeatInterval
      (some .serviceEvtimerHandler) (some .service)).1 }

end TimerWorld

/-- The steps of the timer's users. `fire` is `evtimer_check` up to its handlers: the one of a
connection only posts `MESSAGE_TIMEOUT`, handled by `timeout`, and the service's is `heartbeat`. -/
inductive TimerStep
  | addconn (c : ℕ) (fd : ℤ) (session : TimeoutSession) (now : ℤ)
  | setTimeout (c : ℕ) (timeoutUsec now : ℤ)
  | waitEvtimeout (c : ℕ) (timeoutUsec now : ℤ)
  | overTimeout (c : ℕ)
  | overCstate (c : ℕ)
  | getconn (c : ℕ)
  | freeconn (c : ℕ) (disposal : Disposal)
  | timeout (c : ℕ)
  | close (c : ℕ)
  | terminate (c : ℕ)
  | run (interval now : ℤ)
  | heartbeat (now : ℤ)
  | fire (now : ℤ)

def TimerStep.apply (w : TimerWorld) : TimerStep → TimerWorld
  | .addconn c fd session now => w.serviceAddconn c fd session now
  | .setTimeout c timeoutUsec now => w.connSetTimeout c timeoutUsec now
  | .waitEvtimeout c timeoutUsec now => w.connWaitEvtimeout c timeoutUsec now
  | .overTimeout c => w.connOverTimeout c
  | .overCstate c => w.connOverCstate c
  | .getconn c => w.connStartCstate c
  | .freeconn c disposal => w.serviceFreeconn c disposal
  | .timeout c => w.connTimeoutHandler c
  | .close c => w.connShut c D_STATE_CLOSE
  | .terminate c => w.procthreadTerminateConnection c
  | .run interval now => w.serviceRun interval now
  | .heartbeat now => w.serviceActiveHeartbeat now
  | .fire now => { w with timer := evtimerCheckLocked w.timer now }

/-- Before any connection and before the service runs. -/
def TimerWorld.init : TimerWorld := ⟨evtimerInit,fun _ => .zero,0,0⟩

end Sbase
