import Sbase.Utils.Chunk
import Sbase.Conn.State

/-! The sending half of `conn.c`: the pool of blocks, the send queue, the two write handlers and the
messages and events that drive them.

A block is named by its place in `qblocks`. The stack `qleft` has its top first, and `wire` is what
the socket has taken of the connection's bytes. -/
namespace Sbase
open Memory

def SB_QBLOCK_MAX : ℕ := 16

/-- The fields of a `CONN` that sending uses. The flags are `session.flags & SB_MULTICAST`, whether
the two daemons are set, and whether `E_WRITE` is registered on `event` and on `outevent`. -/
structure SendConn extends Control where
  qblocks : ℕ → Chunk
  qnext : ℕ → Option ℕ
  qhead : Option ℕ
  qtail : Option ℕ
  nsendq : ℕ
  qleft : List ℕ
  qblockMax : ℕ
  cState : ℕ
  multicast : Bool
  outdaemon : Bool
  indaemon : Bool
  eventWrite : Bool
  outeventWrite : Bool
  sentDataTotal : ℕ
  wire : List UInt8

namespace SendConn

/-- An assignment to the chunk of the block `b`. -/
def setChunk (s : SendConn) (b : ℕ) (c : Chunk) : SendConn :=
  { s with qblocks := Function.update s.qblocks b c }

def withControl (s : SendConn) (k : Control) : SendConn := { s with toControl := k }

/-! ### The pool and the queue -/

/-- `conn_pushto_sendq` -/
def connPushtoSendq (s : SendConn) (b : ℕ) : SendConn :=
  let qnext := Function.update s.qnext b none
  match s.qtail with
  | some t => { s with qnext := Function.update qnext t (some b), qtail := some b,
                       nsendq := s.nsendq + 1 }
  | none => { s with qnext := qnext, qhead := some b, qtail := some b, nsendq := s.nsendq + 1 }

/-- `conn_popfrom_sendq` -/
def connPopfromSendq (s : SendConn) : SendConn × Option ℕ :=
  match s.qhead with
  | some b => ({ s with qhead := s.qnext b, qtail := if s.qnext b = none then none else s.qtail,
                        nsendq := s.nsendq - 1 }, some b)
  | none => (s,none)

/-- `conn_popchunk`: the place in `qblocks` of the block, in bounds or not. -/
def connPopchunk (s : SendConn) : SendConn × ℕ :=
  match s.qleft with
  | b::rest => ({ s with qleft := rest }, b)
  | [] => ({ s with qblockMax := s.qblockMax + 1 }, s.qblockMax)

/-- `conn_freechunk` -/
def connFreechunk (s : SendConn) (b : ℕ) : SendConn :=
  { s.setChunk b (chunkReset (s.qblocks b)) with qleft := b::s.qleft }

/-- `conn_newchunk` -/
def connNewchunk (s : SendConn) (alloc : Bool) (junk : Mem) (len : ℕ) : SendConn × Option ℕ :=
  if 0 < len then
    let r := s.connPopchunk
    let s := r.1.setChunk r.2 (chunkMem alloc junk (r.1.qblocks r.2) len)
    if (s.qblocks r.2).data = none then (s.connFreechunk r.2, none) else (s, some r.2)
  else (s,none)

/-- `conn_mnewchunk`, which clears the bytes. -/
def connMnewchunk (s : SendConn) (alloc : Bool) (junk : Mem) (len : ℕ) : SendConn × Option ℕ :=
  if 0 < len then
    let r := s.connPopchunk
    let s := r.1.setChunk r.2 (chunkMem alloc junk (r.1.qblocks r.2) len)
    match (s.qblocks r.2).data with
    | some d =>
      (s.setChunk r.2 { s.qblocks r.2 with data := some (write d 0 (List.replicate len 0)) }, some r.2)
    | none => (s.connFreechunk r.2, none)
  else (s,none)

/-- Popping the head of the queue and freeing it, as the write handlers and the loops that empty the
queue do. -/
def popFree (s : SendConn) : SendConn :=
  let r := s.connPopfromSendq
  match r.2 with
  | some b => r.1.connFreechunk b
  | none => r.1

/-- The loop `while((cp = SENDQPOP(conn))) conn_freechunk(conn, cp)`, for at most `fuel` rounds. -/
def sendqDrain : ℕ → SendConn → SendConn
  | 0, s => s
  | fuel+1, s =>
    match s.qhead with
    | some _ => sendqDrain fuel s.popFree
    | none => s

/-! ### Events and messages -/

/-- `CONN_OUTEVENT_ADD` -/
def outeventAdd (s : SendConn) : SendConn :=
  if s.outdaemon then { s with outeventWrite := true } else { s with eventWrite := true }

/-- `CONN_OUTEVENT_DEL`, and as far as `E_WRITE` is concerned `CONN_OUTEVENT_DESTROY`. -/
def outeventDel (s : SendConn) : SendConn :=
  if s.outdaemon then { s with outeventWrite := false } else { s with eventWrite := false }

/-- `CONN_OUTEVENT_MESSAGE` -/
def outeventMessage (s : SendConn) : SendConn :=
  if s.outdaemon then { s with outMessages := s.outMessages ++ [.out] }
  else if s.indaemon then { s with inMessages := s.inMessages ++ [.out] }
  else { s with eventWrite := true }

/-- The shutdown after an output error. -/
def shutError (s : SendConn) : SendConn :=
  s.withControl (s.connShut (D_STATE_CLOSE ||| D_STATE_RCLOSE ||| D_STATE_WCLOSE) E_STATE_ON)

/-! ### What the user calls -/

/-- The test of the pushing functions. -/
def pushable (s : SendConn) : Bool :=
  !connCheck s.dState (D_STATE_CLOSE ||| D_STATE_WCLOSE ||| D_STATE_RCLOSE)

/-- `conn_push_chunk` -/
def connPushChunk (s : SendConn) (alloc : Bool) (junk : Mem) (data : List UInt8) : SendConn × ℤ :=
  if s.pushable ∧ s.status = CONN_STATUS_FREE ∧ 0 < data.length then
    let r := s.connPopchunk
    let c := chunkMemCopy (chunkMem alloc junk (r.1.qblocks r.2) data.length) data
    (((r.1.setChunk r.2 c).connPushtoSendq r.2).outeventMessage, 0)
  else (s,-1)

/-- `conn_push_file` -/
def connPushFile (s : SendConn) (filename : String) (offset size : ℕ) : SendConn × ℤ :=
  if s.pushable ∧ s.status = CONN_STATUS_FREE ∧ 0 < size then
    let r := s.connPopchunk
    let c := chunkFile (r.1.qblocks r.2) filename offset size
    (((r.1.setChunk r.2 c).connPushtoSendq r.2).outeventMessage, 0)
  else (s,-1)

/-- `conn_send_chunk` -/
def connSendChunk (s : SendConn) (b : ℕ) (len : ℕ) : SendConn × ℤ :=
  if s.pushable then
    (((s.setChunk b { s.qblocks b with left := len }).connPushtoSendq b).outeventMessage, 0)
  else (s,-1)

/-- `conn_over_chunk` -/
def connOverChunk (s : SendConn) : SendConn × ℤ :=
  if s.pushable ∧ s.status = CONN_STATUS_FREE then
    let r := s.connPopchunk
    ((r.1.connPushtoSendq r.2).outeventMessage, 0)
  else (s,-1)

/-! ### The write handlers -/

/-- The call that `conn_write_chunk` chooses; its branch with SSL differs from the plain one in the
socket alone. -/
def writeCall (fs : FileSystem) (s : SendConn) (b : ℕ) (e : Send) : Sent :=
  if s.multicast then chunkSendto (s.qblocks b) e
  else if (s.qblocks b).type = CHUNK_MEM then chunkWrite (s.qblocks b) e
  else chunkWriteFromFile fs true (s.qblocks b) e

/-- `conn_write_chunk` -/
def connWriteChunk (fs : FileSystem) (s : SendConn) (b : ℕ) (e : Send) : SendConn × ℤ :=
  let r := s.writeCall fs b e
  ({ s.setChunk b r.chunk with wire := s.wire ++ r.bytes }, r.ret)

/-- The end of both write handlers, after an over marker or not. -/
def finishWrite (s : SendConn) (chunkOver : Bool) : SendConn :=
  if chunkOver then
    let s := s.outeventDel
    if s.multicast then s.withControl (s.connPushMessage .free)
    else s.withControl (s.connShut D_STATE_CLOSE E_STATE_OFF)
  else if s.nsendq < 1 then
    let s := s.outeventDel
    s.withControl (s.connPushMessage .end)
  else s

/-- What both write handlers do first with the head block `b`: they send from it, or find that it is
an over marker. The results are the connection, `chunk_over` and `ret`. -/
def sendHead (fs : FileSystem) (s : SendConn) (b : ℕ) (e : Send) : SendConn × Bool × ℤ :=
  if (s.qblocks b).left ≠ 0 then
    let r := s.connWriteChunk fs b e
    if 0 < r.2 then ({ r.1 with sentDataTotal := s.sentDataTotal + r.2.toNat }, false, r.2)
    else if e.again then (r.1,false,0)
    else (r.1,false,-1)
  else (s,true,0)

/-- What `conn_write_handler` does next: the block is dropped when it is over, and so is an over
marker that follows it. -/
def writeDone (s : SendConn) (b : ℕ) (chunkOver : Bool) : SendConn :=
  let s := if (s.qblocks b).left = 0 then s.popFree else s
  match s.qhead with
  | some b => if (s.qblocks b).left = 0 then s.popFree.finishWrite true else s.finishWrite chunkOver
  | none => s.finishWrite chunkOver

/-- `conn_write_handler` -/
def connWriteHandler (fs : FileSystem) (s : SendConn) (e : Send) : SendConn × ℤ :=
  if connCheck s.dState (D_STATE_CLOSE ||| D_STATE_WCLOSE) then (s,-1)
  else if 0 < s.nsendq then
    match s.qhead with
    | some b =>
      let r := s.sendHead fs b e
      if r.2.2 < 0 then (r.1,-1) else (r.1.writeDone b r.2.1, r.2.2)
    | none => (s,-1)
  else (s.outeventDel,0)

/-- `conn_send_handler`. Every branch of its loop's body ends in a `break`, so that the body runs
once, and after `EAGAIN` the block still has bytes left. -/
def connSendHandler (fs : FileSystem) (s : SendConn) (e : Send) : SendConn × ℤ :=
  if connCheck s.dState (D_STATE_CLOSE ||| D_STATE_WCLOSE) then (s,-1)
  else if 0 < s.nsendq then
    match s.qhead with
    | some b =>
      let r := s.sendHead fs b e
      if r.2.2 < 0 then (r.1,-1)
      else if (r.1.qblocks b).left = 0 then (r.1.popFree.finishWrite r.2.1, 0)
      else (r.1,r.2.2)
    | none => (s,-1)
  else (s.outeventDel,0)

/-- The handler that an event calls: `conn_send_handler` when the service has `SB_WHILE_SEND`. -/
def outHandler (whileSend : Bool) (fs : FileSystem) (s : SendConn) (e : Send) : SendConn × ℤ :=
  if whileSend then s.connSendHandler fs e else s.connWriteHandler fs e

/-- `conn_outevent_handler` -/
def connOuteventHandler (whileSend : Bool) (fs : FileSystem) (s : SendConn) (e : Send) : SendConn :=
  if 0 < s.nsendq then
    let r := s.outHandler whileSend fs e
    if r.2 < 0 then r.1.outeventDel.shutError
    else
      let s : SendConn := { r.1 with sentDataTotal := r.1.sentDataTotal + r.2.toNat }
      if 0 < s.nsendq then s.outeventAdd else s
  else s

/-- `conn_output_handler` for a write event. -/
def connOutputHandler (whileSend : Bool) (fs : FileSystem) (s : SendConn) (e : Send) : SendConn :=
  let r := s.outHandler whileSend fs e
  if r.2 < 0 then r.1.outeventDel.shutError
  else { r.1 with sentDataTotal := r.1.sentDataTotal + r.2.toNat }

/-- `conn_event_handler` for a write event: the end of a connect that went well, or output where no
outdaemon is there to do it. -/
def connEventHandler (whileSend : Bool) (fs : FileSystem) (s : SendConn) (e : Send) : SendConn :=
  if s.status = CONN_STATUS_READY then { s with status := CONN_STATUS_FREE, eventWrite := false }
  else if s.outdaemon then ({ s with eventWrite := false }).shutError
  else
    let r := s.outHandler whileSend fs e
    if r.2 < 0 then ({ r.1 with eventWrite := false }).shutError else r.1

/-- A write event on the side that drains the queue. -/
def writeEvent (whileSend : Bool) (fs : FileSystem) (s : SendConn) (e : Send) : SendConn :=
  if s.outdaemon then s.connOutputHandler whileSend fs e else s.connEventHandler whileSend fs e

/-! ### The rest of a connection's life -/

/-- `conn_end_handler`, its test for buffered input apart. -/
def connEndHandler (s : SendConn) : SendConn :=
  if closing s.dState then s else if 0 < s.nsendq then s.outeventMessage else s

/-- `conn_free_handler`, its reset of the input apart. -/
def connFreeHandler (s : SendConn) (disposal : Disposal) : SendConn :=
  if closing s.dState ∨ ¬ s.multicast then s
  else
    match disposal with
    | .close => s.withControl (s.connShut D_STATE_CLOSE E_STATE_OFF)
    | .pooled => { s with cState := C_STATE_FREE }
    | .full => s

/-- `conn_start_cstate` -/
def connStartCstate (s : SendConn) : SendConn :=
  if closing s.dState then s
  else if s.cState = C_STATE_FREE then
    let s : SendConn := { s with cState := C_STATE_USING }
    sendqDrain s.nsendq s
  else s

/-- `conn_terminate` -/
def connTerminate (s : SendConn) : SendConn :=
  let s : SendConn := { s with dState := D_STATE_CLOSE }
  { sendqDrain s.nsendq s with fd := -1 }

/-- `conn_reset`, which detaches the connection from its queues. The pool is kept. -/
def connReset (s : SendConn) : SendConn :=
  let k : Control := ⟨0,CONN_STATUS_FREE,D_STATE_FREE,E_STATE_OFF,[],[],[]⟩
  let s : SendConn := { s with toControl := k, sentDataTotal := 0, cState := C_STATE_FREE,
                               multicast := false }
  sendqDrain s.nsendq s

end SendConn

end Sbase
