import Sbase.Utils.Chunk
import Sbase.Conn.State

/-! The receiving half of `conn.c`: reading from the socket, cutting packets and chunks out of the
buffer, and the messages that hand them to the session.

The handlers of a session are functions of the data that they are given. Arithmetic on lengths is
that of the source over unbounded integers. -/
namespace Sbase
open Memory

def S_STATE_READY : ℕ := 0x00
def S_STATE_READ_CHUNK : ℕ := 0x02
def S_STATE_PACKET_HANDLING : ℕ := 0x08
def S_STATE_DATA_HANDLING : ℕ := 0x10
def S_STATE_CHUNK_READING : ℕ := 0x40

def PACKET_CUSTOMIZED : ℕ := 0x01
def PACKET_CERTAIN_LENGTH : ℕ := 0x02
def PACKET_DELIMITER : ℕ := 0x04
def PACKET_PROXY : ℕ := 0x08
def PACKET_ALL : ℕ := 0x0f

/-- What a handler asks of its connection before it returns. -/
inductive Choice
  | finish
  | recvChunk (size : ℕ)
  | recv2Chunk (size : ℕ) (data : List UInt8)
  | recvFile (filename : String) (offset size : ℕ)
  | readChunk

/-- The options and handlers of a `SESSION` that the receiving half uses. -/
structure Session where
  packetType : ℕ
  packetLength : ℤ
  packetDelimiter : Option (List UInt8)
  packetDelimiterLength : ℤ
  useOOB : Bool
  packetReader : Option (List UInt8 → ℤ)
  quickHandler : Option (List UInt8 → ℤ)
  chunkReader : Option (List UInt8 → ℤ)
  oobHandler : Option (List UInt8 → ℤ)
  packetHandler : Option (List UInt8 → Choice)
  dataHandler : Option (List UInt8 → List UInt8 → Choice)
  fileHandler : Option (List UInt8 → String → Choice)

/-- What the handlers of a session have been given. -/
inductive Handed
  | packet (bs : List UInt8)
  | chunk (bs : List UInt8)
  | file (name : String)
  deriving DecidableEq, Repr

/-- The fields of a `CONN` that receiving uses. The last three record what the socket has delivered,
what has been handed to the session, and what has been relayed to the peer of a proxy. -/
structure RecvConn extends Control where
  session : Session
  ssl : Bool
  buffer : MMBlock
  packet : MMBlock
  oob : MMBlock
  exchange : MMBlock
  chunk : Chunk
  sState : ℕ
  received : List UInt8
  handed : List Handed
  relayed : List UInt8

/-- What a call meets: the results of its reads, memory and files, and whether the peer of a proxy
is still there. -/
structure RecvEnv where
  oob : Recv
  recv : Recv
  alloc : Bool
  junk : Mem
  openOk : Bool
  peer : Bool

namespace RecvConn

def withControl (s : RecvConn) (k : Control) : RecvConn := { s with toControl := k }

/-! ### Chunks -/

/-- `CHUNK_FILL` -/
def chunkFill (openOk : Bool) (c : Chunk) (bs : List UInt8) : Chunk × ℤ :=
  if c.type = CHUNK_MEM then chunkMemFill c bs else chunkFileFill openOk c bs

/-- A completed chunk. -/
def chunkDone (s : RecvConn) : RecvConn :=
  ({ s with sState := S_STATE_DATA_HANDLING }).withControl (s.connPushMessage .data)

/-- `conn__read__chunk` -/
def connReadChunk' (openOk : Bool) (s : RecvConn) : RecvConn × ℤ :=
  if s.sState = S_STATE_READ_CHUNK ∧ s.session.packetType ≠ PACKET_PROXY ∧ 0 < s.chunk.left ∧
      0 < s.buffer.ndata then
    let r := chunkFill openOk s.chunk s.buffer.bytes
    let s : RecvConn := { s with chunk := r.1,
                                 buffer := if 0 < r.2 then (mmblockDel s.buffer r.2).1 else s.buffer }
    let s := if chunkStatus s.chunk = CHUNK_STATUS_OVER then s.chunkDone else s
    (s, if 0 < r.2 then 0 else -1)
  else (s,-1)

/-- `conn_reading_chunk`, with the results of the reads from the socket that it performs and the
bytes that they deliver. -/
def connReadingChunk (s : RecvConn) (env : RecvEnv) : RecvConn × ℤ × List ℤ :=
  let c := s.chunk
  if c.type = CHUNK_MEM then
    let r := if s.ssl then chunkReadSSL c env.recv else chunkRead c env.recv
    let got := env.recv.take c.left
    if c.data.isSome ∧ c.end.isSome ∧ 0 < c.left then
      ({ s with chunk := r.1, received := s.received ++ got.1 }, r.2, [got.2])
    else (s,r.2,[])
  else
    let r := chunkReadToFile env.openOk c env.recv
    let got := env.recv.take (min c.left c.bsize)
    if c.data.isSome ∧ 0 < c.left ∧ (chunkFileCheck env.openOk c).fd then
      ({ s with chunk := r.1, received := s.received ++ got.1 }, r.2.2, [got.2])
    else ({ s with chunk := r.1 }, r.2.2, [])

/-- `CONN_CHUNK_READ`, which leaves `n` as it is in another state. -/
def connChunkRead (s : RecvConn) (env : RecvEnv) (n : ℤ) : RecvConn × ℤ × List ℤ :=
  if s.sState = S_STATE_READ_CHUNK then
    let r := s.connReadingChunk env
    if r.2.1 ≤ 0 then r
    else if chunkStatus r.1.chunk = CHUNK_STATUS_OVER then (r.1.chunkDone,r.2)
    else r
  else (s,n,[])

/-- `conn_chunk_reading` -/
def connChunkReading (env : RecvEnv) (s : RecvConn) : RecvConn × ℤ :=
  match s.session.chunkReader with
  | some reader =>
    let n := reader s.buffer.bytes
    if 0 < n then
      let s : RecvConn := { s with chunk := chunkMem env.alloc env.junk s.chunk n.toNat,
                                   sState := S_STATE_READ_CHUNK }
      ((s.connReadChunk' env.openOk).1, 0)
    else (s,-1)
  | none => (s,-1)

/-! ### Packets -/

/-- The place of the delimiter in the string at `data` of the buffer, the result of `strstr`. -/
def delimiterAt (s : RecvConn) (delimiter : List UInt8) : Option ℕ :=
  match s.buffer.data with
  | some d => firstMatch delimiter (cstr d 0 s.buffer.size.toNat)
  | none => none

/-- The length of the packet at the front of the buffer, as `conn_packet_reader` finds it. -/
def packetLen (s : RecvConn) : ℤ :=
  let t := s.session.packetType
  if t &&& PACKET_CUSTOMIZED ≠ 0 ∧ s.session.packetReader.isSome then
    s.session.packetReader.elim (-1) fun reader => reader s.buffer.bytes
  else if t &&& PACKET_CERTAIN_LENGTH ≠ 0 ∧ s.session.packetLength ≤ s.buffer.ndata then
    s.session.packetLength
  else if t &&& PACKET_DELIMITER ≠ 0 ∧ 0 < s.session.packetDelimiterLength then
    match s.session.packetDelimiter.bind s.delimiterAt with
    | some p => p + s.session.packetDelimiterLength
    | none => -1
  else -1

/-- The packet of length `len` moves from the buffer to `packet`. -/
def takePacket (alloc : Bool) (s : RecvConn) (len : ℕ) : RecvConn :=
  let packet := mmblockReset s.packet
  { s with packet := s.buffer.data.elim packet fun d => (mmblockPush alloc packet (read d 0 len)).1,
           buffer := (mmblockDel s.buffer len).1 }

/-- The result of `quick_handler` on the packet, when more data waits behind it. -/
def quickLen (s : RecvConn) : ℤ :=
  if 0 < s.buffer.ndata then s.session.quickHandler.elim 0 fun quick => quick s.packet.bytes else 0

/-- `conn_packet_reader` -/
def connPacketReader (env : RecvEnv) (s : RecvConn) : RecvConn × ℤ :=
  if closing s.dState then (s,-1)
  else if s.sState = S_STATE_READY then
    if s.session.packetType &&& PACKET_ALL = 0 then
      (s.withControl (s.connShut D_STATE_CLOSE E_STATE_ON), -1)
    else
      let len := s.packetLen
      if 0 < len then
        let s := s.takePacket env.alloc len.toNat
        if 0 < s.quickLen then
          let s : RecvConn := { s with
            chunk := chunkMem env.alloc env.junk s.chunk s.quickLen.toNat,
            sState := S_STATE_READ_CHUNK }
          ((s.connReadChunk' env.openOk).1, len)
        else
          (({ s with sState := S_STATE_PACKET_HANDLING }).withControl (s.connPushMessage .packet),
            len)
      else (s,len)
  else (s,-1)

/-! ### Proxies -/

/-- `conn_proxy_handler` -/
def connProxyHandler (peer : Bool) (s : RecvConn) : RecvConn × ℤ :=
  if peer then
    let s : RecvConn :=
      if 0 < s.exchange.ndata then
        { s with relayed := s.relayed ++ s.exchange.bytes, exchange := mmblockReset s.exchange }
      else s
    let s : RecvConn :=
      if 0 < s.chunk.ndata then
        { s with relayed := s.relayed ++ s.chunk.data.elim [] fun d => read d 0 s.chunk.ndata,
                 chunk := chunkReset s.chunk }
      else s
    let s : RecvConn :=
      if s.session.packetType = PACKET_PROXY ∧ 0 < s.buffer.ndata then
        { s with relayed := s.relayed ++ s.buffer.bytes,
                 buffer := (mmblockDel s.buffer s.buffer.ndata).1 }
      else s
    (s,0)
  else (s,-1)

/-! ### Read events -/

/-- The results of the reads that `mmblock_read` performs on a block. -/
def blockReads (alloc : Bool) (m : MMBlock) (r : Recv) : List ℤ :=
  let m := readBlock alloc m
  if m.data.isSome ∧ m.end.isSome ∧ 0 < m.left then [(r.take m.left.toNat).2] else []

/-- The bytes that they deliver. -/
def blockBytes (alloc : Bool) (m : MMBlock) (r : Recv) : List UInt8 :=
  let m := readBlock alloc m
  if m.data.isSome ∧ m.end.isSome ∧ 0 < m.left then (r.take m.left.toNat).1 else []

/-- `conn_oob_handler` -/
def connOobHandler (s : RecvConn) : ℤ :=
  s.session.oobHandler.elim (-1) fun handler => handler s.oob.bytes

/-- What `conn_read_handler` does with the data that it has read. -/
def readData (env : RecvEnv) (s : RecvConn) : RecvConn × ℤ :=
  let p := if s.session.packetType &&& PACKET_PROXY ≠ 0 then s.connProxyHandler env.peer else (s,-1)
  if s.session.packetType = PACKET_PROXY then p
  else
    let s := p.1
    let s := if s.sState = S_STATE_READY ∧ s.packet.ndata = 0 then (s.connPacketReader env).1 else s
    let s := if s.sState = S_STATE_CHUNK_READING then (s.connChunkReading env).1 else s
    (s,0)

/-- The part of `conn_read_handler` behind its reads of urgent data and of chunks. -/
def readBuffer (env : RecvEnv) (s : RecvConn) : RecvConn × ℤ × List ℤ :=
  let r := mmblockRead env.alloc s.buffer env.recv
  let reads := blockReads env.alloc s.buffer env.recv
  let s : RecvConn := { s with buffer := r.1,
                               received := s.received ++ blockBytes env.alloc s.buffer env.recv }
  if r.2 < 1 then (s,-1,reads)
  else
    let p := s.readData env
    (p.1,p.2,reads)

/-- A chunk is being received, so that the socket is read into it. -/
def receiving (s : RecvConn) : Prop :=
  s.sState = S_STATE_READ_CHUNK ∧ s.session.packetType ≠ PACKET_PROXY ∧ 0 < s.chunk.left

instance (s : RecvConn) : Decidable s.receiving :=
  inferInstanceAs (Decidable (_ ∧ _ ∧ _))

/-- The part of `conn_read_handler` that receives to the chunk, called with the value of `n`. -/
def readChunkFirst (env : RecvEnv) (s : RecvConn) (n : ℤ) : RecvConn × ℤ × List ℤ :=
  let p := if 0 < s.buffer.ndata then s.connReadChunk' env.openOk else (s,-1)
  if p.1.buffer.ndata ≤ 0 then
    let r := p.1.connChunkRead env n
    (r.1, if r.2.1 = 0 then -1 else r.2.1, r.2.2)
  else (p.1,p.2,[])

/-- `conn_read_handler`: the connection, the return value, and the results of the reads from the
socket that the call performs. -/
def connReadHandler (env : RecvEnv) (s : RecvConn) : RecvConn × ℤ × List ℤ :=
  if connCheck s.dState (D_STATE_RCLOSE ||| D_STATE_CLOSE) then (s,-1,[])
  else
    let o := if s.session.useOOB then mmblockRecv env.alloc s.oob env.oob else (s.oob,-1)
    let reads := if s.session.useOOB then blockReads env.alloc s.oob env.oob else []
    let s : RecvConn := { s with oob := o.1 }
    if s.session.useOOB ∧ 0 < o.2 then
      let n := s.connOobHandler
      ({ s with oob := if 0 < n then (mmblockDel s.oob n).1 else s.oob }, 0, reads)
    else
      let r := if s.receiving then s.readChunkFirst env o.2 else s.readBuffer env
      (r.1,r.2.1,reads ++ r.2.2)

/-- `conn_event_handler` for a read event of a connected session. -/
def readEvent (env : RecvEnv) (s : RecvConn) : RecvConn :=
  let r := s.connReadHandler env
  if r.2.1 < 0 then
    r.1.withControl (r.1.connShut (D_STATE_CLOSE ||| D_STATE_RCLOSE ||| D_STATE_WCLOSE) E_STATE_ON)
  else r.1

/-! ### What a handler calls -/

/-- The end of `conn_recv_chunk` and its siblings. -/
def awaitChunk (openOk : Bool) (s : RecvConn) : RecvConn :=
  let s : RecvConn := { s with sState := S_STATE_READ_CHUNK }
  if closing s.dState then (s.connReadChunk' openOk).1
  else s.withControl (s.pushInqmessage .chunkio)

/-- `conn_recv_chunk` -/
def connRecvChunk (env : RecvEnv) (s : RecvConn) (size : ℕ) : RecvConn :=
  if 0 < size then
    awaitChunk env.openOk { s with chunk := chunkMem env.alloc env.junk s.chunk size }
  else s

/-- `conn_recv2_chunk` -/
def connRecv2Chunk (env : RecvEnv) (s : RecvConn) (size : ℕ) (data : List UInt8) : RecvConn :=
  let c := chunkMem env.alloc env.junk s.chunk (size + data.length)
  let c := if 0 < data.length then (chunkFill env.openOk c data).1 else c
  awaitChunk env.openOk { s with chunk := c }

/-- `conn_recv_file` -/
def connRecvFile (env : RecvEnv) (s : RecvConn) (filename : String) (offset size : ℕ) : RecvConn :=
  if 0 < size then awaitChunk env.openOk { s with chunk := chunkFile s.chunk filename offset size }
  else s

/-- `conn_read_chunk` -/
def connReadChunk (env : RecvEnv) (s : RecvConn) : RecvConn :=
  let s : RecvConn := { s with sState := S_STATE_CHUNK_READING }
  if closing s.dState then (s.connChunkReading env).1
  else s.withControl (s.pushInqmessage .chunkio)

def choose (env : RecvEnv) (s : RecvConn) : Choice → RecvConn
  | .finish => s
  | .recvChunk size => s.connRecvChunk env size
  | .recv2Chunk size data => s.connRecv2Chunk env size data
  | .recvFile filename offset size => s.connRecvFile env filename offset size
  | .readChunk => s.connReadChunk env

/-! ### Messages -/

/-- `SESSION_RESET` -/
def sessionReset (s : RecvConn) : RecvConn :=
  let s : RecvConn := { s with packet := mmblockReset s.packet, chunk := chunkReset s.chunk,
                               sState := S_STATE_READY }
  if 0 < s.buffer.ndata then s.withControl (s.pushInqmessage .buffer) else s

/-- `conn_packet_handler` -/
def connPacketHandler (env : RecvEnv) (s : RecvConn) : RecvConn :=
  if closing s.dState then s
  else
    match s.session.packetHandler with
    | some handler =>
      let bs := s.packet.bytes
      let s := choose env { s with handed := s.handed ++ [.packet bs] } (handler bs)
      if s.sState = S_STATE_PACKET_HANDLING then s.sessionReset else s
    | none => s

/-- The bytes of the chunk that `data_handler` is given. -/
def chunkBytes (s : RecvConn) : List UInt8 := s.chunk.data.elim [] fun d => read d 0 s.chunk.ndata

/-- `conn_data_handler` -/
def connDataHandler (env : RecvEnv) (s : RecvConn) : RecvConn :=
  if closing s.dState then s
  else if s.session.packetType = PACKET_PROXY then (s.connProxyHandler env.peer).1
  else
    let s :=
      if s.chunk.type = CHUNK_MEM then
        s.session.dataHandler.elim s fun handler =>
          choose env { s with handed := s.handed ++ [.chunk s.chunkBytes] }
            (handler s.packet.bytes s.chunkBytes)
      else if s.chunk.type = CHUNK_FILE then
        s.session.fileHandler.elim s fun handler =>
          choose env { s with handed := s.handed ++ [.file s.chunk.filename] }
            (handler s.packet.bytes s.chunk.filename)
      else s
    if s.sState = S_STATE_DATA_HANDLING then s.sessionReset else s

/-- `conn_buffer_handler` -/
def connBufferHandler (env : RecvEnv) (s : RecvConn) : RecvConn :=
  if closing s.dState then s
  else if s.sState = S_STATE_READY then (s.connPacketReader env).1 else s

/-- `conn_chunkio_handler` -/
def connChunkioHandler (env : RecvEnv) (s : RecvConn) : RecvConn :=
  if closing s.dState then s
  else if s.sState = S_STATE_CHUNK_READING then (s.connChunkReading env).1
  else if s.sState = S_STATE_READ_CHUNK then (s.connReadChunk' env.openOk).1
  else s

end RecvConn

end Sbase
