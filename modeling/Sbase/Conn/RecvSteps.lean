import Sbase.Utils.MmblockQueue
import Sbase.Utils.ChunkContent
import Sbase.Conn.Recv
import Sbase.Lib.Runs

/-! The runs of the receiving half: read events, the messages of the procthread and of the daemon of
the input, and calls on the connection from other threads. -/
namespace Sbase
open Memory

namespace RecvConn

/-- `qmessage_handler` on the queue of the procthread, for the messages of the receiving half. -/
def dispatch (env : RecvEnv) (s : RecvConn) : MessageId → RecvConn
  | .packet => s.connPacketHandler env
  | .data => s.connDataHandler env
  | .proxy => (s.connProxyHandler env.peer).1
  | _ => s

/-- `qmessage_handler` on the queue of the daemon. -/
def dispatchIn (env : RecvEnv) (s : RecvConn) : MessageId → RecvConn
  | .buffer => s.connBufferHandler env
  | .chunkio => s.connChunkioHandler env
  | _ => s

/-- The first message of the procthread. -/
def nextMessage (env : RecvEnv) (s : RecvConn) : RecvConn :=
  match s.messages with
  | [] => s
  | id::rest => dispatch env (s.withControl { s.toControl with messages := rest }) id

/-- The first message of the daemon. -/
def nextInMessage (env : RecvEnv) (s : RecvConn) : RecvConn :=
  match s.inMessages with
  | [] => s
  | id::rest => dispatchIn env (s.withControl { s.toControl with inMessages := rest }) id

/-- `conn_bind_proxy` -/
def connBindProxy (s : RecvConn) : RecvConn :=
  if closing s.dState then s
  else
    { s with session := { s.session with
        packetType := s.session.packetType ||| PACKET_PROXY } }.withControl
      (s.connPushMessage .proxy)

/-- A connection at the start of its life: its blocks hold no data, whatever they held before. -/
structure Fresh (s : RecvConn) : Prop where
  buffer : Holds s.buffer []
  packet : Holds s.packet []
  oob : Holds s.oob []
  chunk : s.chunk.Backed
  sState : s.sState = S_STATE_READY
  dState : s.dState = D_STATE_FREE
  messages : s.messages = []
  inMessages : s.inMessages = []
  received : s.received = []
  handed : s.handed = []

/-- A new connection of a session. -/
def start (session : Session) : RecvConn where
  fd := 3
  status := CONN_STATUS_FREE
  dState := D_STATE_FREE
  eState := E_STATE_OFF
  messages := []
  inMessages := []
  outMessages := []
  session := session
  ssl := false
  buffer := mmblockInit
  packet := mmblockInit
  oob := mmblockInit
  exchange := mmblockInit
  chunk := chunkInit
  sState := S_STATE_READY
  received := []
  handed := []
  relayed := []

theorem start_fresh (session : Session) : Fresh (start session) where
  buffer := mmblockInit_holds
  packet := mmblockInit_holds
  oob := mmblockInit_holds
  chunk := chunkInit_backed
  sState := rfl
  dState := rfl
  messages := rfl
  inMessages := rfl
  received := rfl
  handed := rfl

end RecvConn

/-- What happens to a connection that receives. A call is one that a thread makes outside the
handlers of the session. -/
inductive RecvStep
  | read (env : RecvEnv)
  | message (env : RecvEnv)
  | inMessage (env : RecvEnv)
  | call (env : RecvEnv) (choice : Choice)
  | bindProxy
  | shut (dState eState : ℕ)

def RecvStep.apply (s : RecvConn) : RecvStep → RecvConn
  | .read env => s.readEvent env
  | .message env => s.nextMessage env
  | .inMessage env => s.nextInMessage env
  | .call env choice => s.choose env choice
  | .bindProxy => s.connBindProxy
  | .shut dState eState => s.withControl (s.connShut dState eState)

namespace RecvConn

/-- The blocks into which the socket is read hold some queue each. -/
structure Orderly (s : RecvConn) : Prop where
  buffer : ∃ q, Holds s.buffer q
  oob : ∃ q, Holds s.oob q

section
variable {s : RecvConn} {env : RecvEnv}

theorem Fresh.orderly (h : Fresh s) : Orderly s where
  buffer := ⟨[], h.buffer⟩
  oob := ⟨[], h.oob⟩

theorem Orderly.of_eq {s' : RecvConn} (h : Orderly s) (hbuffer : s'.buffer = s.buffer)
    (hoob : s'.oob = s.oob) : Orderly s' where
  buffer := hbuffer ▸ h.buffer
  oob := hoob ▸ h.oob

/-- Data is dropped from the front of the buffer. -/
theorem Orderly.del {s' : RecvConn} (h : Orderly s) {n : ℤ}
    (hbuffer : s'.buffer = (mmblockDel s.buffer n).1) (hoob : s'.oob = s.oob) : Orderly s' where
  buffer := by
    obtain ⟨q, hq⟩ := h.buffer
    exact ⟨_, hbuffer ▸ mmblockDel_holds hq n⟩
  oob := hoob ▸ h.oob

theorem Orderly.withControl (h : Orderly s) (k : Control) : Orderly (s.withControl k) :=
  h.of_eq rfl rfl

theorem Orderly.connReadChunk' (h : Orderly s) (openOk : Bool) :
    Orderly (s.connReadChunk' openOk).1 := by
  unfold RecvConn.connReadChunk'
  split_ifs with hready
  · dsimp only
    split_ifs with hpos
    · exact h.del rfl rfl
    · exact h.of_eq rfl rfl
    · exact h.del rfl rfl
    · exact h.of_eq rfl rfl
  · exact h

theorem Orderly.connReadingChunk (h : Orderly s) (env : RecvEnv) : Orderly (s.connReadingChunk env).1 := by
  unfold RecvConn.connReadingChunk
  dsimp only
  split_ifs <;> exact h.of_eq rfl rfl

theorem Orderly.connChunkRead (h : Orderly s) (n : ℤ) : Orderly (s.connChunkRead env n).1 := by
  have hread := h.connReadingChunk env
  unfold RecvConn.connChunkRead
  dsimp only
  split_ifs
  · exact hread
  · exact hread.of_eq rfl rfl
  · exact hread
  · exact h

theorem Orderly.connChunkReading (h : Orderly s) : Orderly (s.connChunkReading env).1 := by
  unfold RecvConn.connChunkReading
  cases s.session.chunkReader with
  | none => exact h
  | some reader =>
    dsimp only
    split_ifs
    · apply Orderly.connReadChunk'
      exact h.of_eq rfl rfl
    · exact h

theorem Orderly.connPacketReader (h : Orderly s) : Orderly (s.connPacketReader env).1 := by
  unfold RecvConn.connPacketReader
  dsimp only
  have htake : Orderly (s.takePacket env.alloc s.packetLen.toNat) := h.del rfl rfl
  split_ifs
  · exact h
  · exact h.withControl _
  · apply Orderly.connReadChunk'
    exact htake.of_eq rfl rfl
  · exact htake.of_eq rfl rfl
  · exact h
  · exact h

theorem Orderly.connProxyHandler (h : Orderly s) (peer : Bool) :
    Orderly (s.connProxyHandler peer).1 := by
  unfold RecvConn.connProxyHandler
  dsimp only
  split_ifs <;> first | exact h | exact h.of_eq rfl rfl | exact h.del rfl rfl

theorem Orderly.readData (h : Orderly s) : Orderly (s.readData env).1 := by
  have hproxy : Orderly (if s.session.packetType &&& PACKET_PROXY ≠ 0 then
      s.connProxyHandler env.peer else (s,-1)).1 := by
    split_ifs
    · exact h.connProxyHandler env.peer
    · exact h
  unfold RecvConn.readData
  dsimp only
  generalize (if s.session.packetType &&& PACKET_PROXY ≠ 0 then s.connProxyHandler env.peer
    else (s,-1)) = p at hproxy ⊢
  have hpacket : Orderly (if p.1.sState = S_STATE_READY ∧ p.1.packet.ndata = 0 then
      (p.1.connPacketReader env).1 else p.1) := by
    split_ifs
    · exact hproxy.connPacketReader
    · exact hproxy
  generalize (if p.1.sState = S_STATE_READY ∧ p.1.packet.ndata = 0 then
    (p.1.connPacketReader env).1 else p.1) = t at hpacket ⊢
  split_ifs
  · exact hproxy
  · exact hpacket.connChunkReading
  · exact hpacket

theorem Orderly.readBuffer (h : Orderly s) : Orderly (s.readBuffer env).1 := by
  obtain ⟨q, hq⟩ := h.buffer
  have hread : ∃ q, Holds (mmblockRead env.alloc s.buffer env.recv).1 q :=
    mmblockRead_keeps hq env.alloc env.recv
  unfold RecvConn.readBuffer
  dsimp only
  split_ifs
  · exact ⟨hread, h.oob⟩
  · exact Orderly.readData ⟨hread, h.oob⟩

theorem Orderly.readChunkFirst (h : Orderly s) (n : ℤ) : Orderly (s.readChunkFirst env n).1 := by
  have hchunk : Orderly (if 0 < s.buffer.ndata then s.connReadChunk' env.openOk else (s,-1)).1 := by
    split_ifs
    · exact h.connReadChunk' env.openOk
    · exact h
  unfold RecvConn.readChunkFirst
  dsimp only
  generalize (if 0 < s.buffer.ndata then s.connReadChunk' env.openOk else (s,-1)) = p at hchunk ⊢
  by_cases hempty : p.1.buffer.ndata ≤ 0
  · rw [if_pos hempty]
    exact hchunk.connChunkRead n
  · rw [if_neg hempty]
    exact hchunk

theorem Orderly.connReadHandler (h : Orderly s) : Orderly (s.connReadHandler env).1 := by
  obtain ⟨o, ho⟩ := h.oob
  have hoob : ∃ o, Holds (if s.session.useOOB then mmblockRecv env.alloc s.oob env.oob
      else (s.oob,-1)).1 o := by
    split_ifs
    · exact mmblockRead_keeps ho env.alloc env.oob
    · exact ⟨o, ho⟩
  unfold RecvConn.connReadHandler
  dsimp only
  generalize (if s.session.useOOB then mmblockRecv env.alloc s.oob env.oob
    else (s.oob,-1)) = r at hoob ⊢
  generalize (if s.session.useOOB then blockReads env.alloc s.oob env.oob else []) = reads
  have hs : Orderly { s with oob := r.1 } := ⟨h.buffer, hoob⟩
  obtain ⟨o', ho'⟩ := hoob
  split_ifs
  · exact h
  · exact ⟨h.buffer, _, mmblockDel_holds ho' _⟩
  · exact hs
  · exact hs.readChunkFirst r.2
  · exact hs.readBuffer

theorem Orderly.readEvent (h : Orderly s) : Orderly (s.readEvent env) := by
  unfold RecvConn.readEvent
  dsimp only
  split_ifs
  · exact h.connReadHandler.withControl _
  · exact h.connReadHandler

theorem Orderly.awaitChunk (h : Orderly s) (openOk : Bool) : Orderly (awaitChunk openOk s) := by
  unfold RecvConn.awaitChunk
  dsimp only
  split_ifs
  · apply Orderly.connReadChunk'
    exact h.of_eq rfl rfl
  · exact h.of_eq rfl rfl

theorem Orderly.choose (h : Orderly s) (choice : Choice) : Orderly (s.choose env choice) := by
  cases choice with
  | finish => exact h
  | recvChunk size =>
    unfold RecvConn.choose connRecvChunk
    dsimp only
    split_ifs
    · apply Orderly.awaitChunk
      exact h.of_eq rfl rfl
    · exact h
  | recv2Chunk size data =>
    unfold RecvConn.choose connRecv2Chunk
    apply Orderly.awaitChunk
    exact h.of_eq rfl rfl
  | recvFile filename offset size =>
    unfold RecvConn.choose connRecvFile
    dsimp only
    split_ifs
    · apply Orderly.awaitChunk
      exact h.of_eq rfl rfl
    · exact h
  | readChunk =>
    unfold RecvConn.choose connReadChunk
    dsimp only
    split_ifs
    · apply Orderly.connChunkReading
      exact h.of_eq rfl rfl
    · exact h.of_eq rfl rfl

theorem Orderly.sessionReset (h : Orderly s) : Orderly s.sessionReset := by
  unfold RecvConn.sessionReset
  dsimp only
  split_ifs <;> exact h.of_eq rfl rfl

theorem Orderly.connPacketHandler (h : Orderly s) : Orderly (s.connPacketHandler env) := by
  unfold RecvConn.connPacketHandler
  cases s.session.packetHandler with
  | none => split_ifs <;> exact h
  | some handler =>
    have hchoice : Orderly (RecvConn.choose env
        { s with handed := s.handed ++ [.packet s.packet.bytes] } (handler s.packet.bytes)) := by
      apply Orderly.choose
      exact h.of_eq rfl rfl
    dsimp only
    split_ifs
    · exact h
    · exact hchoice.sessionReset
    · exact hchoice

/-- What the chunk handlers do to a connection. -/
theorem Orderly.handler {α : Type} (h : Orderly s) (env : RecvEnv) (handler : Option α) (handed : Handed)
    (choice : α → Choice) :
    Orderly (handler.elim s fun f =>
      RecvConn.choose env { s with handed := s.handed ++ [handed] } (choice f)) := by
  cases handler with
  | none => exact h
  | some f =>
    apply Orderly.choose
    exact h.of_eq rfl rfl

theorem Orderly.connDataHandler (h : Orderly s) : Orderly (s.connDataHandler env) := by
  have hmem := h.handler env s.session.dataHandler (.chunk s.chunkBytes)
    fun f => f s.packet.bytes s.chunkBytes
  have hfile := h.handler env s.session.fileHandler (.file s.chunk.filename)
    fun f => f s.packet.bytes s.chunk.filename
  unfold RecvConn.connDataHandler
  dsimp only
  split_ifs
  · exact h
  · exact h.connProxyHandler env.peer
  · exact hmem.sessionReset
  · exact hmem
  · exact hfile.sessionReset
  · exact hfile
  · exact h.sessionReset
  · exact h

theorem Orderly.connBufferHandler (h : Orderly s) : Orderly (s.connBufferHandler env) := by
  unfold RecvConn.connBufferHandler
  split_ifs
  · exact h
  · exact h.connPacketReader
  · exact h

theorem Orderly.connChunkioHandler (h : Orderly s) : Orderly (s.connChunkioHandler env) := by
  unfold RecvConn.connChunkioHandler
  split_ifs
  · exact h
  · exact h.connChunkReading
  · exact h.connReadChunk' env.openOk
  · exact h

theorem Orderly.dispatch (h : Orderly s) (id : MessageId) : Orderly (s.dispatch env id) := by
  cases id with
  | packet => exact h.connPacketHandler
  | data => exact h.connDataHandler
  | proxy => exact h.connProxyHandler env.peer
  | _ => exact h

theorem Orderly.dispatchIn (h : Orderly s) (id : MessageId) : Orderly (s.dispatchIn env id) := by
  cases id with
  | buffer => exact h.connBufferHandler
  | chunkio => exact h.connChunkioHandler
  | _ => exact h

theorem Orderly.nextMessage (h : Orderly s) : Orderly (s.nextMessage env) := by
  unfold RecvConn.nextMessage
  split
  · exact h
  · exact (h.withControl _).dispatch _

theorem Orderly.nextInMessage (h : Orderly s) : Orderly (s.nextInMessage env) := by
  unfold RecvConn.nextInMessage
  split
  · exact h
  · exact (h.withControl _).dispatchIn _

theorem Orderly.connBindProxy (h : Orderly s) : Orderly s.connBindProxy := by
  unfold RecvConn.connBindProxy
  split_ifs
  · exact h
  · exact h.of_eq rfl rfl

/-- Every step leaves the blocks in order, whether or not memory is there. -/
theorem Orderly.apply (h : Orderly s) (step : RecvStep) : Orderly (step.apply s) := by
  cases step with
  | read env => exact h.readEvent
  | message env => exact h.nextMessage
  | inMessage env => exact h.nextInMessage
  | call env choice => exact h.choose choice
  | bindProxy => exact h.connBindProxy
  | shut dState eState => exact h.withControl _

open Runs in
/-- The blocks are in order in every run. -/
theorem Fresh.run_orderly {t : RecvConn} {ls : List RecvStep} (h : Fresh s)
    (run : Run (ofFun RecvStep.apply) s ls t) : Orderly t := by
  apply run.invariant Orderly h.orderly
  rintro a step b ha rfl
  exact ha.apply step

end

end RecvConn

end Sbase
