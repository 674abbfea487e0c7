import Mathlib.Tactic

/-! The state constants of `sbase.h`, the message ids of `message.h`, and the part of a connection
that every thread works on: its states and its messages. -/
namespace Sbase

def CONN_STATUS_FREE : ℕ := 0x00
def CONN_STATUS_READY : ℕ := 0x01

def C_STATE_FREE : ℕ := 0x00
def C_STATE_USING : ℕ := 0x04

def E_STATE_OFF : ℕ := 0x00
def E_STATE_ON : ℕ := 0x01

def D_STATE_FREE : ℕ := 0x00
def D_STATE_RCLOSE : ℕ := 0x02
def D_STATE_WCLOSE : ℕ := 0x04
def D_STATE_CLOSE : ℕ := 0x08

def EVSTATE_INIT : ℕ := 0
def EVSTATE_WAIT : ℕ := 1

/-- The ids of `message.h`. -/
inductive MessageId
  | newConn | newSession | input | output | buffer | packet | chunk | data | over | shut | quit
  | transaction | task | heartbeat | state | timeout | stop | proxy | «end» | shutout | out | free
  | chunkio
  deriving DecidableEq, Repr

/-- The ways in which `service_freeconn` disposes of a connection, chosen by the free lists of the
service: closed, put on a free list, or left alone where no slot is free. -/
inductive Disposal
  | close
  | pooled
  | full
  deriving DecidableEq, Repr

/-- The test `conn->d_state & mask` of `CONN_CHECK` and `CONN_CHECK_RET`, at which an operation
returns without effect. -/
def connCheck (dState mask : ℕ) : Bool := dState &&& mask ≠ 0

/-- The test with the mask `D_STATE_CLOSE`. -/
def closing (dState : ℕ) : Bool := connCheck dState D_STATE_CLOSE

@[simp] theorem connCheck_free (mask : ℕ) : connCheck D_STATE_FREE mask = false := by
  simp [connCheck, D_STATE_FREE]

@[simp] theorem closing_free : closing D_STATE_FREE = false := rfl

/-- The states of a connection in use, and the messages that wait for it: at its procthread, and at
the daemons of its input and its output. -/
structure Control where
  fd : ℤ
  status : ℕ
  dState : ℕ
  eState : ℕ
  messages : List MessageId
  inMessages : List MessageId
  outMessages : List MessageId

namespace Control

/-- `conn__push__message` and, after its test, `conn_push_message`: a message to the procthread. -/
def pushMessage (k : Control) (id : MessageId) : Control :=
  { k with messages := k.messages ++ [id] }

/-- `conn_push_message` -/
def connPushMessage (k : Control) (id : MessageId) : Control :=
  if closing k.dState then k else k.pushMessage id

/-- `PUSH_INQMESSAGE` -/
def pushInqmessage (k : Control) (id : MessageId) : Control :=
  if k.dState = 0 then { k with inMessages := k.inMessages ++ [id] } else k

/-- `conn_shut`, its timer apart. -/
def connShut (k : Control) (dState eState : ℕ) : Control :=
  if closing k.dState then k
  else if k.dState = D_STATE_FREE ∧ 0 < k.fd then
    ({ k with dState := k.dState ||| dState,
              eState := if k.eState = E_STATE_OFF then eState else k.eState }).pushMessage .shut
  else k

end Control

end Sbase
