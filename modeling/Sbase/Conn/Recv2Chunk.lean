import Sbase.Conn.Segmentation
import Sbase.Utils.ChunkBounds

/-! `conn_recv2_chunk`: a chunk of which the first bytes are given. It is handed over whole when it
still lacks bytes that the buffer does not hold exactly; one that lacks none is never handed over. -/
namespace Sbase
open Memory Runs

namespace RecvConn

/-- `conn_recv2_chunk` with its `int`s. There is no result where one of them overflows: `size+ndata`, or
the size that `chunk_mem` rounds up for it, which is larger than any block that a chunk has. -/
def connRecv2ChunkInt (env : RecvEnv) (s : RecvConn) (size : ℕ) (data : List UInt8) : Option RecvConn :=
  if size + data.length + 1 ≤ ChunkWorld.needMax then some (s.connRecv2Chunk env size data) else none

/-- A connection with the data `q` in its buffer, whose session takes chunks, and for which no
packet, chunk or relayed data waits to be handed over. -/
structure Idle (s : RecvConn) (q : List UInt8) : Prop where
  fd : 0 < s.fd
  dState : s.dState = D_STATE_FREE
  proxy : s.session.packetType &&& PACKET_PROXY = 0
  handler : s.session.dataHandler.isSome
  buffer : Holds s.buffer q
  backed : s.chunk.Backed
  messages : .packet ∉ s.messages ∧ .data ∉ s.messages ∧ .proxy ∉ s.messages

/-- A chunk of `n` bytes has `f` and waits for more, with `r` in the buffer. -/
structure Fills (t : RecvConn) (r f : List UInt8) (n : ℕ) : Prop where
  dState : t.dState = D_STATE_FREE
  proxy : t.session.packetType &&& PACKET_PROXY = 0
  buffer : Holds t.buffer r
  state : t.sState = S_STATE_READ_CHUNK
  chunk : t.chunk.Filled f n
  left : 0 < t.chunk.left
  messages : .data ∉ t.messages

/-- The chunk `f` of `n` bytes is complete and waits for its message. -/
structure Full (t : RecvConn) (r f : List UInt8) (n : ℕ) : Prop where
  dState : t.dState = D_STATE_FREE
  proxy : t.session.packetType &&& PACKET_PROXY = 0
  buffer : Holds t.buffer r
  state : t.sState = S_STATE_DATA_HANDLING
  chunk : t.chunk.Filled f n
  left : t.chunk.left = 0
  messages : t.messages.count .data = 1

/-- How far the chunk is. While it waits, the buffer is empty or a message will look into it, and it
does not hold exactly what the chunk lacks. -/
inductive Stage (t : RecvConn) (r f : List UInt8) (n : ℕ) : Prop
  | fills (h : Fills t r f n) (wakes : r ≠ [] → .chunkio ∈ t.inMessages)
      (other : r.length ≠ t.chunk.left)
  | full (h : Full t r f n)

/-- What a step that hands nothing over leaves alone. -/
structure Advances (t t' : RecvConn) : Prop where
  session : t'.session = t.session
  handed : t'.handed = t.handed
  messages : ∀ id ∈ t'.messages, id ∈ t.messages ∨ id = .data

/-- The chunk goes on, and the bytes `all` are those that it has and those behind it. -/
def Carries (t : RecvConn) (all : List UInt8) (n : ℕ) : Prop :=
  ∃ r f, f ++ r = all ∧ Stage t r f n

section
variable {s t : RecvConn} {env : RecvEnv} {r f bs : List UInt8} {n : ℕ}

theorem Advances.rfl' (t : RecvConn) : Advances t t := ⟨rfl,rfl,fun _ h => Or.inl h⟩

theorem Fills.plain (h : Fills t r f n) : t.session.packetType ≠ PACKET_PROXY := by
  intro hproxy
  have hbit := h.proxy
  rw [hproxy] at hbit
  exact absurd hbit (by decide)

theorem Fills.receiving (h : Fills t r f n) : t.receiving := ⟨h.state,h.plain,h.left⟩

/-- The chunk has taken its last byte. -/
theorem Fills.done {t' : RecvConn} {r' f' : List UInt8} (h : Fills t r f n)
    (hsession : t'.session = t.session) (hcontrol : t'.toControl = t.toControl)
    (hbuffer : Holds t'.buffer r') (hchunk : t'.chunk.Filled f' n) (hleft : t'.chunk.left = 0) :
    Full t'.chunkDone r' f' n := by
  have hdState : t'.dState = D_STATE_FREE := by
    rw [hcontrol]
    exact h.dState
  have hmessages : t'.chunkDone.messages = t.messages ++ [.data] := by
    unfold chunkDone
    rw [Control.connPushMessage_free hdState,hcontrol]
    rfl
  refine ⟨?_,?_,hbuffer,rfl,hchunk,hleft,?_⟩
  · unfold chunkDone
    rw [Control.connPushMessage_free hdState]
    exact hdState
  · change t'.session.packetType &&& PACKET_PROXY = 0
    rw [hsession]
    exact h.proxy
  · rw [hmessages,List.count_append,List.count_eq_zero_of_not_mem h.messages]
    rfl

theorem chunkDone_advances {t' : RecvConn} (hdState : t.dState = D_STATE_FREE)
    (hsession : t'.session = t.session) (hcontrol : t'.toControl = t.toControl)
    (hhanded : t'.handed = t.handed) : Advances t t'.chunkDone := by
  refine ⟨hsession,hhanded,fun id hid => ?_⟩
  unfold chunkDone at hid
  rw [Control.connPushMessage_free (by rw [hcontrol]; exact hdState),hcontrol] at hid
  exact (List.mem_append.mp hid).imp_right List.mem_singleton.mp

/-! ### The buffer -/

/-- What the buffer gives to the chunk. -/
theorem Fills.fillFrom (h : Fills t r f n) (hr : r ≠ []) :
    Holds (t.fillFrom r).buffer (r.drop t.chunk.left) ∧
      (t.fillFrom r).chunk.Filled (f ++ r.take t.chunk.left) n ∧
      (t.fillFrom r).chunk.left = t.chunk.left - r.length := by
  have hfill := h.chunk.fill h.left hr
  have hleft := hfill.left
  have hold := h.chunk.left
  rw [List.length_append,List.length_take] at hleft
  exact ⟨fillFrom_buffer h.buffer hr (h.chunk.filling h.left),hfill,
    show (chunkMemFill t.chunk r).1.left = _ by omega⟩

/-- `conn__read__chunk` moves bytes from the buffer to the chunk. -/
theorem connReadChunk'_stage (h : Fills t r f n) (openOk : Bool) :
    Advances t (t.connReadChunk' openOk).1 ∧ (t.connReadChunk' openOk).1.received = t.received ∧
      Carries (t.connReadChunk' openOk).1 (f ++ r) n := by
  by_cases hr : r = []
  · have hskip : t.connReadChunk' openOk = (t,-1) := by
      unfold connReadChunk'
      rw [if_neg fun hc => ?_]
      have hpos := hc.2.2.2
      rw [h.buffer.ndata_eq,hr] at hpos
      exact lt_irrefl 0 hpos
    have hleft := h.left
    rw [hskip]
    refine ⟨.rfl' t,rfl,r,f,rfl,.fills h (fun hne => absurd hr hne) ?_⟩
    rw [hr]
    exact hleft.ne
  · obtain ⟨hbuffer,hchunk,hleft⟩ := h.fillFrom hr
    rw [connReadChunk'_eq h.buffer h.receiving hr (h.chunk.filling h.left)]
    dsimp only
    by_cases hdone : t.chunk.left ≤ r.length
    · rw [if_pos hdone]
      refine ⟨chunkDone_advances h.dState rfl rfl rfl,rfl,_,_,?_,
        .full (h.done rfl rfl hbuffer hchunk (by omega))⟩
      rw [List.append_assoc,List.take_append_drop]
    · rw [if_neg hdone]
      rw [List.drop_eq_nil_of_le (not_le.mp hdone).le] at hbuffer
      rw [List.take_of_length_le (not_le.mp hdone).le] at hchunk
      have hpos : 0 < (t.fillFrom r).chunk.left := by omega
      exact ⟨⟨rfl,rfl,fun _ hid => Or.inl hid⟩,rfl,[],f ++ r,List.append_nil _,
        .fills ⟨h.dState,h.proxy,hbuffer,h.state,hchunk,hpos,h.messages⟩
          (fun hne => absurd rfl hne) hpos.ne⟩

/-! ### Read events -/

/-- Bytes have arrived, and nothing has been handed over. -/
structure Arrive (t t' : RecvConn) (all : List UInt8) (n : ℕ) : Prop where
  advances : Advances t t'
  arrived : ∃ got, t'.received = t.received ++ got ∧ Carries t' (all ++ got) n

/-- The socket is read into the chunk, when the buffer is empty. -/
theorem connChunkRead_arrive (h : Fills t [] f n) (hrecv : env.recv = .bytes bs) (hbs : bs ≠ [])
    (k : ℤ) : Arrive t (t.connChunkRead env k).1 f n ∧ 0 < (t.connChunkRead env k).2.1 := by
  obtain ⟨c,ret,hread,hfilled,hpos⟩ := connReadingChunk_filled h.chunk h.left hrecv hbs
  unfold connChunkRead
  rw [if_pos h.state,hread]
  dsimp only
  rw [if_neg (not_le.mpr hpos)]
  by_cases hdone : chunkStatus c = CHUNK_STATUS_OVER
  · rw [if_pos hdone]
    exact ⟨⟨chunkDone_advances h.dState rfl rfl rfl,_,rfl,[],_,List.append_nil _,
      .full (h.done rfl rfl h.buffer hfilled ((chunkStatus_over_iff c).mp hdone))⟩,hpos⟩
  · rw [if_neg hdone]
    have hleft : 0 < c.left := Nat.pos_of_ne_zero (mt (chunkStatus_over_iff c).mpr hdone)
    exact ⟨⟨⟨rfl,rfl,fun _ hid => Or.inl hid⟩,_,rfl,[],_,List.append_nil _,
      .fills ⟨h.dState,h.proxy,h.buffer,h.state,hfilled,hleft,h.messages⟩
        (fun hne => absurd rfl hne) hleft.ne⟩,hpos⟩

/-- A read event while the chunk waits. -/
theorem readChunkFirst_arrive (h : Fills t r f n) (hother : r.length ≠ t.chunk.left)
    (hrecv : env.recv = .bytes bs) (hbs : bs ≠ []) (k : ℤ) :
    Arrive t (t.readChunkFirst env k).1 (f ++ r) n ∧ 0 ≤ (t.readChunkFirst env k).2.1 := by
  have hfilling := h.chunk.filling h.left
  by_cases hr : r = []
  · subst hr
    obtain ⟨harrive,hpos⟩ := connChunkRead_arrive h hrecv hbs k
    have hnd : t.buffer.ndata = 0 := h.buffer.ndata_eq
    unfold readChunkFirst
    rw [hnd,if_neg (lt_irrefl 0)]
    dsimp only
    rw [hnd,if_pos le_rfl,List.append_nil,if_neg hpos.ne']
    exact ⟨harrive,hpos.le⟩
  · obtain ⟨hbuffer,hchunk,hleft⟩ := h.fillFrom hr
    rcases lt_or_gt_of_ne hother with hlt | hgt
    · rw [List.drop_eq_nil_of_le hlt.le] at hbuffer
      rw [List.take_of_length_le hlt.le] at hchunk
      have hfills : Fills (t.fillFrom r) [] (f ++ r) n :=
        ⟨h.dState,h.proxy,hbuffer,h.state,hchunk,by omega,h.messages⟩
      obtain ⟨harrive,hpos⟩ := connChunkRead_arrive hfills hrecv hbs k
      rw [readChunkFirst_partly h.buffer h.receiving hr hfilling hlt]
      dsimp only
      rw [if_neg hpos.ne']
      exact ⟨⟨⟨harrive.advances.session,harrive.advances.handed,harrive.advances.messages⟩,
        harrive.arrived⟩,hpos.le⟩
    · rw [readChunkFirst_beyond h.buffer h.receiving hr hfilling hgt]
      refine ⟨⟨chunkDone_advances h.dState rfl rfl rfl,[],(List.append_nil _).symm,_,_,?_,
        .full (h.done rfl rfl hbuffer hchunk (by omega))⟩,le_rfl⟩
      rw [List.append_nil,List.append_assoc,List.take_append_drop]

/-- Behind a complete chunk, the data stays in the buffer. -/
theorem Full.readData (h : Full t r f n) (env : RecvEnv) : t.readData env = (t,0) := by
  have hplain : ¬ t.session.packetType = PACKET_PROXY := by
    intro hproxy
    have hbit := h.proxy
    rw [hproxy] at hbit
    exact absurd hbit (by decide)
  have hready : ¬ (t.sState = S_STATE_READY ∧ t.packet.ndata = 0) := by
    rw [h.state]
    exact fun hc => absurd hc.1 (by decide)
  have hreading : ¬ t.sState = S_STATE_CHUNK_READING := by
    rw [h.state]
    decide
  unfold RecvConn.readData
  rw [if_neg (not_not.mpr h.proxy)]
  dsimp only
  rw [if_neg hplain,if_neg hready,if_neg hreading]

theorem readBuffer_arrive (h : Full t r f n) (halloc : env.alloc = true)
    (hrecv : env.recv = .bytes bs) (hbs : bs ≠ []) :
    Arrive t (t.readBuffer env).1 (f ++ r) n ∧ 0 ≤ (t.readBuffer env).2.1 := by
  have hread := (mmblockRead_holds h.buffer (.bytes bs)).1
  obtain ⟨reads,heq⟩ := readBuffer_eq h.buffer halloc hrecv hbs
  have hfull : Full { t with
      buffer := (mmblockRead true t.buffer (.bytes bs)).1,
      received := t.received ++ readBytes t.buffer (.bytes bs) }
      (r ++ readBytes t.buffer (.bytes bs)) f n :=
    ⟨h.dState,h.proxy,hread,h.state,h.chunk,h.left,h.messages⟩
  rw [heq]
  dsimp only
  rw [hfull.readData env]
  refine ⟨⟨⟨rfl,rfl,fun _ hid => Or.inl hid⟩,_,rfl,_,_,?_,.full hfull⟩,le_rfl⟩
  exact (List.append_assoc _ _ _).symm

end

/-- A read event at which the socket has data and memory can be had. -/
def Arrives (env : RecvEnv) : Prop := env.alloc = true ∧ ∃ bs, bs ≠ [] ∧ env.recv = .bytes bs

section
variable {s t : RecvConn} {env : RecvEnv} {q r f all data : List UInt8} {n size : ℕ}

/-- Urgent data ends the call, and the rest of the connection is as it was. -/
theorem connReadHandler_urgent (huse : t.session.useOOB = true)
    (hpos : 0 < (mmblockRecv env.alloc t.oob env.oob).2)
    (hopen : connCheck t.dState (D_STATE_RCLOSE ||| D_STATE_CLOSE) = false) :
    (∃ o, (t.connReadHandler env).1 = { t with oob := o }) ∧ (t.connReadHandler env).2.1 = 0 := by
  unfold connReadHandler
  rw [hopen,if_neg Bool.false_ne_true]
  simp only [huse,if_true,true_and,hpos]
  exact ⟨⟨_,rfl⟩,trivial⟩

theorem Stage.withOob (h : Stage t r f n) (o : MMBlock) : Stage { t with oob := o } r f n := by
  cases h with
  | fills h wakes other =>
    exact .fills ⟨h.dState,h.proxy,h.buffer,h.state,h.chunk,h.left,h.messages⟩ wakes other
  | full h => exact .full ⟨h.dState,h.proxy,h.buffer,h.state,h.chunk,h.left,h.messages⟩

theorem Stage.dState (h : Stage t r f n) : t.dState = D_STATE_FREE := by
  cases h with
  | fills h => exact h.dState
  | full h => exact h.dState

theorem connReadHandler_arrive (h : Stage t r f n) (hdata : Arrives env) :
    Arrive t (t.connReadHandler env).1 (f ++ r) n ∧ 0 ≤ (t.connReadHandler env).2.1 := by
  obtain ⟨halloc,bs,hbs,hrecv⟩ := hdata
  have hopen : connCheck t.dState (D_STATE_RCLOSE ||| D_STATE_CLOSE) = false := by
    rw [h.dState]
    exact connCheck_free _
  by_cases hoob : t.session.useOOB = true ∧ 0 < (mmblockRecv env.alloc t.oob env.oob).2
  · obtain ⟨⟨o,heq⟩,hret⟩ := connReadHandler_urgent hoob.1 hoob.2 hopen
    rw [heq,hret]
    exact ⟨⟨⟨rfl,rfl,fun _ hid => Or.inl hid⟩,[],(List.append_nil _).symm,r,f,
      (List.append_nil _).symm,h.withOob o⟩,le_rfl⟩
  · obtain ⟨o,k,-,-,heq⟩ := connReadHandler_rest env hoob hopen
    have hstage := h.withOob o
    rw [heq]
    dsimp only
    cases hstage with
    | fills hfills wakes other =>
      have hreceiving : t.receiving := hfills.receiving
      rw [if_pos hreceiving]
      obtain ⟨harrive,hret⟩ := readChunkFirst_arrive hfills other hrecv hbs k
      exact ⟨⟨⟨harrive.advances.session,harrive.advances.handed,harrive.advances.messages⟩,
        harrive.arrived⟩,hret⟩
    | full hfull =>
      have hreceiving : ¬ t.receiving := fun hc => absurd (hfull.state.symm.trans hc.1) (by decide)
      rw [if_neg hreceiving]
      obtain ⟨harrive,hret⟩ := readBuffer_arrive hfull halloc hrecv hbs
      exact ⟨⟨⟨harrive.advances.session,harrive.advances.handed,harrive.advances.messages⟩,
        harrive.arrived⟩,hret⟩

theorem readEvent_arrive (h : Stage t r f n) (hdata : Arrives env) :
    Arrive t (t.readEvent env) (f ++ r) n := by
  obtain ⟨harrive,hret⟩ := connReadHandler_arrive h hdata
  unfold readEvent
  dsimp only
  rw [if_neg (not_lt.mpr hret)]
  exact harrive

/-! ### Messages -/

theorem dispatch_other {id : MessageId} (hpacket : id ≠ .packet) (hdata : id ≠ .data)
    (hproxy : id ≠ .proxy) (env : RecvEnv) (t : RecvConn) : dispatch env t id = t := by
  cases id with
  | packet => exact absurd rfl hpacket
  | data => exact absurd rfl hdata
  | proxy => exact absurd rfl hproxy
  | _ => rfl

/-- A message of the daemon that is not about a chunk finds no packet awaited. -/
theorem dispatchIn_other {id : MessageId} (hid : id ≠ .chunkio) (hstate : t.sState ≠ S_STATE_READY)
    (env : RecvEnv) : dispatchIn env t id = t := by
  cases id with
  | chunkio => exact absurd rfl hid
  | buffer =>
    change t.connBufferHandler env = t
    unfold connBufferHandler
    rw [if_neg hstate,ite_self]
  | _ => rfl

theorem Fills.withControl (h : Fills t r f n) {k : Control} (hdState : k.dState = t.dState)
    (hmessages : ∀ id ∈ k.messages, id ∈ t.messages) : Fills (t.withControl k) r f n :=
  ⟨hdState.trans h.dState,h.proxy,h.buffer,h.state,h.chunk,h.left,fun hid => h.messages (hmessages _ hid)⟩

/-- The daemon's messages take a waiting chunk further, and find nothing to do for a complete one. -/
theorem nextInMessage_stage (h : Stage t r f n) (env : RecvEnv) :
    Arrive t (t.nextInMessage env) (f ++ r) n := by
  cases hids : t.inMessages with
  | nil =>
    rw [nextInMessage,hids]
    exact ⟨.rfl' t,[],(List.append_nil _).symm,r,f,(List.append_nil _).symm,h⟩
  | cons id ids =>
    rw [nextInMessage,hids]
    dsimp only
    cases h with
    | fills h wakes other =>
      have hpopped : Fills (t.withControl { t.toControl with inMessages := ids }) r f n :=
        h.withControl rfl fun _ hid => hid
      by_cases hid : id = .chunkio
      · subst hid
        obtain ⟨hadvances,hreceived,hcarries⟩ := connReadChunk'_stage hpopped env.openOk
        have hchunkio : dispatchIn env (t.withControl { t.toControl with inMessages := ids }) .chunkio =
            ((t.withControl { t.toControl with inMessages := ids }).connReadChunk' env.openOk).1 := by
          change connChunkioHandler env _ = _
          unfold connChunkioHandler
          rw [hpopped.dState,if_neg (by decide),hpopped.state,if_neg (by decide),if_pos rfl]
        rw [hchunkio]
        refine ⟨⟨hadvances.session,hadvances.handed,hadvances.messages⟩,[],?_,?_⟩
        · rw [List.append_nil]
          exact hreceived
        · rw [List.append_nil]
          exact hcarries
      · have hready : (t.withControl { t.toControl with inMessages := ids }).sState ≠ S_STATE_READY := by
          rw [hpopped.state]
          decide
        have hskip := dispatchIn_other hid hready env
        dsimp only at hskip
        rw [hskip]
        refine ⟨⟨rfl,rfl,fun _ hid => Or.inl hid⟩,[],(List.append_nil _).symm,r,f,
          (List.append_nil _).symm,.fills hpopped (fun hne => ?_) other⟩
        have hmem := wakes hne
        rw [hids,List.mem_cons] at hmem
        exact hmem.resolve_left (Ne.symm hid)
    | full h =>
      have hskip : dispatchIn env (t.withControl { t.toControl with inMessages := ids }) id =
          t.withControl { t.toControl with inMessages := ids } := by
        by_cases hid : id = .chunkio
        · subst hid
          change connChunkioHandler env _ = _
          unfold connChunkioHandler
          rw [show (t.withControl { t.toControl with inMessages := ids }).sState =
            S_STATE_DATA_HANDLING from h.state,if_neg (show ¬ S_STATE_DATA_HANDLING = S_STATE_CHUNK_READING by
            decide),if_neg (show ¬ S_STATE_DATA_HANDLING = S_STATE_READ_CHUNK by decide),ite_self]
        · apply dispatchIn_other hid
          rw [show (t.withControl { t.toControl with inMessages := ids }).sState =
            S_STATE_DATA_HANDLING from h.state]
          decide
      rw [hskip]
      exact ⟨⟨rfl,rfl,fun _ hid => Or.inl hid⟩,[],(List.append_nil _).symm,r,f,(List.append_nil _).symm,
        .full ⟨h.dState,h.proxy,h.buffer,h.state,h.chunk,h.left,h.messages⟩⟩

/-- What a handler's choice and the reset of a session leave alone on an open connection. -/
structure Leaves (t t' : RecvConn) : Prop where
  handed : t'.handed = t.handed
  buffer : t'.buffer = t.buffer
  received : t'.received = t.received
  messages : t'.messages = t.messages
  dState : t'.dState = t.dState

theorem awaitChunk_leaves (hdState : t.dState = D_STATE_FREE) (openOk : Bool) :
    Leaves t (awaitChunk openOk t) := by
  unfold awaitChunk
  dsimp only
  rw [hdState,if_neg (by decide),Control.pushInqmessage_free hdState]
  exact ⟨rfl,rfl,rfl,rfl,rfl⟩

theorem choose_leaves (hdState : t.dState = D_STATE_FREE) (env : RecvEnv) (choice : Choice) :
    Leaves t (t.choose env choice) := by
  have hawait (c : Chunk) : Leaves t (awaitChunk env.openOk { t with chunk := c }) := by
    obtain ⟨hhanded,hbuffer,hreceived,hmessages,hd⟩ :=
      awaitChunk_leaves (t := { t with chunk := c }) hdState env.openOk
    exact ⟨hhanded,hbuffer,hreceived,hmessages,hd⟩
  cases choice with
  | finish => exact ⟨rfl,rfl,rfl,rfl,rfl⟩
  | recvChunk size =>
    unfold choose connRecvChunk
    dsimp only
    split_ifs
    · exact hawait _
    · exact ⟨rfl,rfl,rfl,rfl,rfl⟩
  | recv2Chunk size data => exact hawait _
  | recvFile filename offset size =>
    unfold choose connRecvFile
    dsimp only
    split_ifs
    · exact hawait _
    · exact ⟨rfl,rfl,rfl,rfl,rfl⟩
  | readChunk =>
    unfold choose connReadChunk
    dsimp only
    rw [hdState,if_neg (by decide),Control.pushInqmessage_free hdState]
    exact ⟨rfl,rfl,rfl,rfl,rfl⟩

theorem sessionReset_leaves (hdState : t.dState = D_STATE_FREE) : Leaves t t.sessionReset := by
  unfold sessionReset
  dsimp only
  split_ifs
  · rw [Control.pushInqmessage_free hdState]
    exact ⟨rfl,rfl,rfl,rfl,rfl⟩
  · exact ⟨rfl,rfl,rfl,rfl,rfl⟩

/-- The message about a complete chunk calls `data_handler` with it. -/
theorem connDataHandler_delivers (hdState : t.dState = D_STATE_FREE)
    (hproxy : t.session.packetType &&& PACKET_PROXY = 0) (hhandler : t.session.dataHandler.isSome)
    (hchunk : t.chunk.Filled f n) (env : RecvEnv) :
    Leaves { t with handed := t.handed ++ [.chunk f] } (t.connDataHandler env) := by
  obtain ⟨handler,hsome⟩ := Option.isSome_iff_exists.mp hhandler
  have hplain : ¬ t.session.packetType = PACKET_PROXY := by
    intro htype
    rw [htype] at hproxy
    exact absurd hproxy (by decide)
  unfold connDataHandler
  rw [hdState,if_neg (by decide),if_neg hplain,if_pos hchunk.type,hsome,Option.elim_some]
  rw [show t.chunkBytes = f from hchunk.bytes_eq]
  dsimp only
  have hchoice := choose_leaves (t := { t with handed := t.handed ++ [.chunk f] }) hdState env
    (handler t.packet.bytes f)
  generalize RecvConn.choose env { t with handed := t.handed ++ [.chunk f] }
    (handler t.packet.bytes f) = t' at hchoice ⊢
  split_ifs
  · have hreset := sessionReset_leaves (hchoice.dState.trans hdState)
    exact ⟨hreset.handed.trans hchoice.handed,hreset.buffer.trans hchoice.buffer,
      hreset.received.trans hchoice.received,hreset.messages.trans hchoice.messages,
      hreset.dState.trans hchoice.dState⟩
  · exact hchoice

/-- The first message of the procthread hands the chunk over, or leaves all as it is. -/
theorem nextMessage_stage (h : Stage t r f n) (hhandler : t.session.dataHandler.isSome)
    (hmessages : .packet ∉ t.messages ∧ .proxy ∉ t.messages) (env : RecvEnv) :
    (Advances t (t.nextMessage env) ∧ (t.nextMessage env).received = t.received ∧
      Stage (t.nextMessage env) r f n) ∨
    ((t.nextMessage env).handed = t.handed ++ [.chunk f] ∧ (t.nextMessage env).received = t.received ∧
      (t.nextMessage env).buffer = t.buffer ∧ .data ∉ (t.nextMessage env).messages ∧
      Holds t.buffer r ∧ f.length = n) := by
  cases hids : t.messages with
  | nil =>
    rw [nextMessage,hids]
    exact Or.inl ⟨.rfl' t,rfl,h⟩
  | cons id ids =>
    rw [nextMessage,hids]
    dsimp only
    rw [hids,List.mem_cons,List.mem_cons,not_or,not_or] at hmessages
    have hsub : ∀ i ∈ ids, i ∈ t.messages := by
      rw [hids]
      exact fun i hi => List.mem_cons_of_mem id hi
    have hadvances : Advances t (t.withControl { t.toControl with messages := ids }) :=
      ⟨rfl,rfl,fun i hi => Or.inl (hsub i hi)⟩
    cases h with
    | fills h wakes other =>
      have hdata : id ≠ .data := by
        rintro rfl
        apply h.messages
        rw [hids]
        exact List.mem_cons_self
      have hskip := dispatch_other (Ne.symm hmessages.1.1) hdata (Ne.symm hmessages.2.1) env
        (t.withControl { t.toControl with messages := ids })
      dsimp only at hskip
      rw [hskip]
      exact Or.inl ⟨hadvances,rfl,.fills (h.withControl rfl hsub) wakes other⟩
    | full h =>
      have hcount := h.messages
      rw [hids] at hcount
      by_cases hdata : id = .data
      · subst hdata
        rw [List.count_cons_self,Nat.add_eq_right] at hcount
        have hdelivers := connDataHandler_delivers
          (t := t.withControl { t.toControl with messages := ids }) h.dState h.proxy hhandler h.chunk env
        have hleft := h.chunk.left
        rw [h.left] at hleft
        refine Or.inr ⟨hdelivers.handed,hdelivers.received,hdelivers.buffer,?_,h.buffer,hleft⟩
        change .data ∉ (connDataHandler env (t.withControl { t.toControl with messages := ids })).messages
        rw [hdelivers.messages]
        exact List.count_eq_zero.mp hcount
      · have hskip := dispatch_other (Ne.symm hmessages.1.1) hdata (Ne.symm hmessages.2.1) env
          (t.withControl { t.toControl with messages := ids })
        dsimp only at hskip
        rw [hskip]
        rw [List.count_cons_of_ne (Ne.symm (Ne.symm hdata))] at hcount
        exact Or.inl ⟨hadvances,rfl,
          .full ⟨h.dState,h.proxy,h.buffer,h.state,h.chunk,h.left,hcount⟩⟩

end

/-! ### Runs -/

/-- The bytes of the stream from the call on: those that were in the buffer, and those that have been
received since. -/
def streamSince (s t : RecvConn) : List UInt8 :=
  s.buffer.bytes ++ t.received.drop s.received.length

/-- `data_handler` has been called once, with `data` and the next `size` bytes of the stream; the bytes
behind them are in the buffer, and no message will call it again. -/
structure Delivered (s : RecvConn) (data : List UInt8) (size : ℕ) (t : RecvConn) : Prop where
  handed : t.handed = s.handed ++ [.chunk (data ++ (streamSince s t).take size)]
  buffer : t.buffer.bytes = (streamSince s t).drop size
  messages : .data ∉ t.messages

/-- All pending messages have been handled, and the stream has the bytes that were asked for. -/
def Quiet (s : RecvConn) (size : ℕ) (t : RecvConn) : Prop :=
  t.messages = [] ∧ t.inMessages = [] ∧ size ≤ (streamSince s t).length

/-- The chunk that `s` asked for is on its way in `t`. -/
structure Awaits (s : RecvConn) (data : List UInt8) (size : ℕ) (t : RecvConn) : Prop where
  session : t.session = s.session
  handed : t.handed = s.handed
  messages : .packet ∉ t.messages ∧ .proxy ∉ t.messages
  received : s.received <+: t.received
  carries : Carries t (data ++ streamSince s t) (data.length + size)

end RecvConn

/-- Read events with data, and the messages of both queues. -/
def RecvStep.Segment : RecvStep → Prop
  | .read env => RecvConn.Arrives env
  | .message _ => True
  | .inMessage _ => True
  | _ => False

namespace RecvConn

section
variable {s t t' : RecvConn} {env : RecvEnv} {q data : List UInt8} {size : ℕ}

theorem streamSince_append {got : List UInt8} (h : s.received <+: t.received)
    (hgot : t'.received = t.received ++ got) : streamSince s t' = streamSince s t ++ got := by
  unfold streamSince
  rw [hgot,List.drop_append_of_le_length h.length_le,List.append_assoc]

theorem Awaits.arrive (h : Awaits s data size t)
    (harrive : Arrive t t' (data ++ streamSince s t) (data.length + size)) : Awaits s data size t' := by
  obtain ⟨got,hgot,hcarries⟩ := harrive.arrived
  have hkeeps (id : MessageId) (hold : id ∉ t.messages) (hne : id ≠ .data) : id ∉ t'.messages :=
    fun hid => (harrive.advances.messages id hid).elim hold hne
  refine ⟨harrive.advances.session.trans h.session,harrive.advances.handed.trans h.handed,
    ⟨hkeeps _ h.messages.1 (by decide),hkeeps _ h.messages.2 (by decide)⟩,?_,?_⟩
  · rw [hgot]
    exact h.received.trans (List.prefix_append _ _)
  · rw [streamSince_append h.received hgot,← List.append_assoc]
    exact hcarries

/-- Each step takes the chunk further, or hands it over. -/
theorem Awaits.step (h : Awaits s data size t) (hhandler : s.session.dataHandler.isSome)
    {l : RecvStep} (hl : l.Segment) :
    Awaits s data size (l.apply t) ∨ Delivered s data size (l.apply t) := by
  obtain ⟨r,f,hall,hstage⟩ := h.carries
  cases l with
  | read env =>
    have harrive := readEvent_arrive hstage hl
    rw [hall] at harrive
    exact Or.inl (h.arrive harrive)
  | inMessage env =>
    have harrive := nextInMessage_stage hstage env
    rw [hall] at harrive
    exact Or.inl (h.arrive harrive)
  | message env =>
    have hset : t.session.dataHandler.isSome := by
      rw [h.session]
      exact hhandler
    obtain ⟨hadvances,hreceived,hnext⟩ | ⟨hhanded,hreceived,hbuffer,hmessages,hholds,hlength⟩ :=
      nextMessage_stage hstage hset h.messages env
    · apply Or.inl
      apply h.arrive
      exact ⟨hadvances,[],by rw [List.append_nil]; exact hreceived,r,f,
        by rw [List.append_nil]; exact hall,hnext⟩
    · have hsince : streamSince s (t.nextMessage env) = streamSince s t := by
        unfold streamSince
        rw [hreceived]
      have htake := congrArg (List.take (data.length + size)) hall
      have hdrop := congrArg (List.drop (data.length + size)) hall
      rw [List.take_left' hlength,List.take_length_add_append] at htake
      rw [List.drop_left' hlength,List.drop_length_add_append] at hdrop
      refine Or.inr ⟨?_,?_,hmessages⟩
      · rw [RecvStep.apply,hsince,hhanded,h.handed,htake]
      · rw [RecvStep.apply,hsince,hbuffer,hholds.bytes_eq,hdrop]
  | call env choice => exact hl.elim
  | bindProxy => exact hl.elim
  | shut dState eState => exact hl.elim

/-- In every run, the chunk is on its way or has been handed over. -/
theorem Awaits.run (h : Awaits s data size t) (hhandler : s.session.dataHandler.isSome)
    (ls : List RecvStep) (hls : ∀ l ∈ ls, l.Segment) :
    Awaits s data size (ls.foldl RecvStep.apply t) ∨
      ∃ ks, ks <+: ls ∧ Delivered s data size (ks.foldl RecvStep.apply t) := by
  induction ls using List.reverseRecOn with
  | nil => exact Or.inl h
  | append_singleton ls l ih =>
    obtain hawaits | ⟨ks,hpre,hdone⟩ := ih fun k hk => hls k (List.mem_append_left _ hk)
    · obtain hstep | hdone := hawaits.step hhandler (hls l List.mem_concat_self)
      · rw [List.foldl_concat]
        exact Or.inl hstep
      · exact Or.inr ⟨ls ++ [l],List.prefix_rfl,by rwa [List.foldl_concat]⟩
    · exact Or.inr ⟨ks,hpre.trans (List.prefix_append _ _),hdone⟩

/-- While messages are pending or bytes are missing only, the chunk is on its way. -/
theorem Awaits.not_quiet (h : Awaits s data size t) : ¬ Quiet s size t := by
  rintro ⟨hmessages,hin,henough⟩
  obtain ⟨r,f,hall,hstage⟩ := h.carries
  cases hstage with
  | fills h wakes other =>
    have hr : r = [] := by
      by_contra hne
      have hwake := wakes hne
      rw [hin] at hwake
      cases hwake
    have hleft := h.chunk.left
    have hpos := h.left
    have hlength := congrArg List.length hall
    rw [hr,List.append_nil,List.length_append] at hlength
    omega
  | full h =>
    have hcount := h.messages
    rw [hmessages] at hcount
    exact absurd hcount (by decide)

/-! ### The call -/

/-- The call puts what it is given in front of the stream, and leaves the room of `size` bytes. -/
theorem connRecv2Chunk_chunk (h : Idle s q) (halloc : env.alloc = true) (hsome : 0 < size + data.length) :
    ∃ c, c.Filled data (data.length + size) ∧ s.connRecv2Chunk env size data =
      { s with chunk := c, sState := S_STATE_READ_CHUNK,
               inMessages := s.inMessages ++ [.chunkio] } := by
  have hroom := chunkMem_filled h.backed env.junk hsome
  have hawait (c : Chunk) : awaitChunk env.openOk { s with chunk := c } =
      { s with chunk := c, sState := S_STATE_READ_CHUNK,
               inMessages := s.inMessages ++ [.chunkio] } := by
    have hopen : ¬ closing s.dState = true := by
      rw [h.dState]
      decide
    unfold awaitChunk
    dsimp only
    rw [if_neg hopen,Control.pushInqmessage_free h.dState]
    rfl
  unfold connRecv2Chunk
  rw [halloc]
  dsimp only
  refine ⟨_,?_,hawait _⟩
  rw [Nat.add_comm] at hroom ⊢
  by_cases hdata : 0 < data.length
  · have hleft := hroom.left
    rw [List.length_nil,Nat.zero_add] at hleft
    have hfill := hroom.fill (by omega) (List.ne_nil_of_length_pos hdata)
    rw [hleft,List.nil_append,List.take_of_length_le (Nat.le_add_right _ _)] at hfill
    unfold chunkFill
    rw [if_pos hdata,if_pos hroom.type]
    exact hfill
  · have hnil : data = [] := List.length_eq_zero_iff.mp (by omega)
    rw [if_neg hdata,hnil]
    rw [hnil] at hroom
    exact hroom

theorem Idle.streamSince_self (h : Idle s q) (ht : t.received = s.received) : streamSince s t = q := by
  unfold streamSince
  rw [ht,List.drop_length,List.append_nil,h.buffer.bytes_eq]

/-- A chunk that lacks bytes is awaited, unless the buffer holds exactly these. -/
theorem connRecv2Chunk_awaits (h : Idle s q) (halloc : env.alloc = true) (hsize : 0 < size)
    (hother : q.length ≠ size) : Awaits s data size (s.connRecv2Chunk env size data) := by
  have hsome : 0 < size + data.length := by omega
  obtain ⟨c,hchunk,heq⟩ := connRecv2Chunk_chunk h halloc hsome
  have hleft := hchunk.left
  have hroom : c.left = size := by omega
  rw [heq]
  refine ⟨rfl,rfl,⟨h.messages.1,h.messages.2.2⟩,List.prefix_rfl,q,data,?_,?_⟩
  · exact congrArg (data ++ ·) (h.streamSince_self rfl).symm
  · refine .fills ⟨h.dState,h.proxy,h.buffer,rfl,hchunk,?_,h.messages.2.1⟩
      (fun _ => List.mem_append_right _ (List.mem_singleton_self _)) ?_
    · rwa [hroom]
    · rwa [hroom]

/-! ### Chunks that are never handed over -/

/-- No message of the connection hands anything over: it is closing, or a chunk that lacks no bytes is
awaited. -/
structure Stuck (t : RecvConn) : Prop where
  idle : closing t.dState = true ∨
    t.sState = S_STATE_READ_CHUNK ∧ t.chunk.left = 0 ∧ .packet ∉ t.messages ∧ .data ∉ t.messages
  proxy : .proxy ∉ t.messages

theorem dispatch_closing {id : MessageId} (h : closing t.dState = true) (hproxy : id ≠ .proxy)
    (env : RecvEnv) : dispatch env t id = t := by
  cases id with
  | packet => exact if_pos h
  | data => exact if_pos h
  | proxy => exact absurd rfl hproxy
  | _ => rfl

theorem dispatchIn_closing (h : closing t.dState = true) (env : RecvEnv) (id : MessageId) :
    dispatchIn env t id = t := by
  cases id with
  | buffer => exact if_pos h
  | chunkio => exact if_pos h
  | _ => rfl

theorem connReadChunk'_idle (h : t.chunk.left = 0) (openOk : Bool) : t.connReadChunk' openOk = (t,-1) := by
  unfold connReadChunk'
  rw [if_neg]
  intro hc
  have hpos := hc.2.2.1
  omega

theorem dispatchIn_idle (hstate : t.sState = S_STATE_READ_CHUNK) (hleft : t.chunk.left = 0)
    (env : RecvEnv) (id : MessageId) : dispatchIn env t id = t := by
  by_cases hid : id = .chunkio
  · subst hid
    change connChunkioHandler env t = t
    unfold connChunkioHandler
    rw [hstate,if_neg (show ¬ S_STATE_READ_CHUNK = S_STATE_CHUNK_READING by decide),if_pos rfl,
      connReadChunk'_idle hleft,ite_self]
  · apply dispatchIn_other hid
    rw [hstate]
    decide

/-- The first message of the procthread only leaves its queue. -/
theorem Stuck.nextMessage (h : Stuck t) {id : MessageId} {ids : List MessageId}
    (hids : t.messages = id::ids) (env : RecvEnv) :
    t.nextMessage env = t.withControl { t.toControl with messages := ids } := by
  have hproxy := h.proxy
  rw [hids,List.mem_cons,not_or] at hproxy
  rw [RecvConn.nextMessage,hids]
  obtain hclosing | ⟨-,-,hpacket,hdata⟩ := h.idle
  · exact dispatch_closing (t := t.withControl { t.toControl with messages := ids }) hclosing
      (Ne.symm hproxy.1) env
  · rw [hids,List.mem_cons,not_or] at hpacket hdata
    exact dispatch_other (Ne.symm hpacket.1) (Ne.symm hdata.1) (Ne.symm hproxy.1) env _

theorem Stuck.nextInMessage (h : Stuck t) {id : MessageId} {ids : List MessageId}
    (hids : t.inMessages = id::ids) (env : RecvEnv) :
    t.nextInMessage env = t.withControl { t.toControl with inMessages := ids } := by
  rw [RecvConn.nextInMessage,hids]
  obtain hclosing | ⟨hstate,hleft,-,-⟩ := h.idle
  · exact dispatchIn_closing (t := t.withControl { t.toControl with inMessages := ids }) hclosing env id
  · exact dispatchIn_idle (t := t.withControl { t.toControl with inMessages := ids }) hstate hleft env id

theorem Stuck.withControl (h : Stuck t) {k : Control} (hdState : k.dState = t.dState)
    (hmessages : ∀ id ∈ k.messages, id ∈ t.messages) : Stuck (t.withControl k) := by
  refine ⟨?_,fun hid => h.proxy (hmessages _ hid)⟩
  obtain hclosing | ⟨hstate,hleft,hpacket,hdata⟩ := h.idle
  · apply Or.inl
    change closing k.dState = true
    rwa [hdState]
  · exact Or.inr ⟨hstate,hleft,fun hid => hpacket (hmessages _ hid),fun hid => hdata (hmessages _ hid)⟩

/-- All messages can be handled, with nothing handed over on the way. -/
theorem Stuck.drains (h : Stuck t) (env : RecvEnv) :
    ∃ ls, (∀ l ∈ ls, l.Segment) ∧ (ls.foldl RecvStep.apply t).messages = [] ∧
      (ls.foldl RecvStep.apply t).inMessages = [] ∧
      (ls.foldl RecvStep.apply t).received = t.received ∧
      ∀ ks, ks <+: ls → (ks.foldl RecvStep.apply t).handed = t.handed := by
  -- the messages of the procthread go first
  generalize hm : t.messages = ms
  generalize hin : t.inMessages = ins
  induction ms generalizing t with
  | nil =>
    induction ins generalizing t with
    | nil =>
      refine ⟨[],by simp,hm,hin,rfl,fun ks hks => ?_⟩
      rw [List.prefix_nil.mp hks]
      rfl
    | cons id ids ih =>
      have hstep := h.nextInMessage hin env
      obtain ⟨ls,hls,hmessages,hins,hreceived,hhanded⟩ :=
        ih (h.withControl (k := { t.toControl with inMessages := ids }) rfl fun _ hid => hid) hm rfl
      refine ⟨.inMessage env::ls,List.forall_mem_cons.mpr ⟨trivial,hls⟩,?_⟩
      rw [List.foldl_cons,RecvStep.apply,hstep]
      refine ⟨hmessages,hins,hreceived,fun ks hks => ?_⟩
      cases ks with
      | nil => rfl
      | cons k ks =>
        obtain ⟨rfl,hpre⟩ := List.cons_prefix_cons.mp hks
        rw [List.foldl_cons,RecvStep.apply,hstep]
        exact hhanded ks hpre
  | cons id ids ih =>
    have hstep := h.nextMessage hm env
    have hsub : ∀ i ∈ ids, i ∈ t.messages := by
      rw [hm]
      exact fun i hi => List.mem_cons_of_mem id hi
    obtain ⟨ls,hls,hmessages,hins,hreceived,hhanded⟩ :=
      ih (h.withControl (k := { t.toControl with messages := ids }) rfl hsub) rfl hin
    refine ⟨.message env::ls,List.forall_mem_cons.mpr ⟨trivial,hls⟩,?_⟩
    rw [List.foldl_cons,RecvStep.apply,hstep]
    refine ⟨hmessages,hins,hreceived,fun ks hks => ?_⟩
    cases ks with
    | nil => rfl
    | cons k ks =>
      obtain ⟨rfl,hpre⟩ := List.cons_prefix_cons.mp hks
      rw [List.foldl_cons,RecvStep.apply,hstep]
      exact hhanded ks hpre

theorem not_delivered (h : t.handed = s.handed) : ¬ Delivered s data size t := by
  intro hdelivered
  have hlength := congrArg List.length (h.symm.trans hdelivered.handed)
  rw [List.length_append,List.length_singleton] at hlength
  omega

/-- A stuck connection whose stream has the bytes runs to its end without the chunk. -/
theorem Stuck.never (h : Stuck t) (hhanded : t.handed = s.handed)
    (henough : size ≤ (streamSince s t).length) (data : List UInt8) (env : RecvEnv) :
    ∃ ls : List RecvStep, (∀ l ∈ ls, l.Segment) ∧ Quiet s size (ls.foldl RecvStep.apply t) ∧
      ¬ ∃ ks, ks <+: ls ∧ Delivered s data size (ks.foldl RecvStep.apply t) := by
  obtain ⟨ls,hls,hmessages,hin,hsame,hnone⟩ := h.drains env
  refine ⟨ls,hls,⟨hmessages,hin,?_⟩,?_⟩
  · unfold streamSince at henough ⊢
    rwa [hsame]
  · rintro ⟨ks,hpre,hdelivered⟩
    exact not_delivered ((hnone ks hpre).trans hhanded) hdelivered

/-- A chunk that lacks nothing. -/
theorem connRecv2Chunk_stuck (h : Idle s q) (halloc : env.alloc = true) (hsome : 0 < data.length) :
    Stuck (s.connRecv2Chunk env 0 data) ∧ (s.connRecv2Chunk env 0 data).handed = s.handed ∧
      (s.connRecv2Chunk env 0 data).received = s.received := by
  have hsize : 0 < 0 + data.length := by omega
  obtain ⟨c,hchunk,heq⟩ := connRecv2Chunk_chunk h halloc hsize
  have hleft := hchunk.left
  rw [heq]
  exact ⟨⟨Or.inr ⟨rfl,show c.left = 0 by omega,h.messages.1,h.messages.2.1⟩,h.messages.2.2⟩,rfl,rfl⟩

theorem chunkDone_control (h : t.dState = D_STATE_FREE) :
    t.chunkDone.toControl = t.toControl.pushMessage .data :=
  Control.connPushMessage_free h .data

/-- Shutting an open connection. -/
theorem connShut_free {k : Control} (eState : ℕ) (hdState : k.dState = D_STATE_FREE) (hfd : 0 < k.fd) :
    closing (k.connShut (D_STATE_CLOSE ||| D_STATE_RCLOSE ||| D_STATE_WCLOSE) eState).dState = true ∧
      (k.connShut (D_STATE_CLOSE ||| D_STATE_RCLOSE ||| D_STATE_WCLOSE) eState).messages =
        k.messages ++ [.shut] := by
  unfold Control.connShut
  rw [hdState,if_neg (by decide),if_pos ⟨rfl,hfd⟩]
  refine ⟨?_,rfl⟩
  change closing (D_STATE_FREE ||| (D_STATE_CLOSE ||| D_STATE_RCLOSE ||| D_STATE_WCLOSE)) = true
  decide

/-- A read event that finds exactly what the chunk lacks in the buffer closes the connection. -/
theorem readEvent_exactly {r f : List UInt8} {n : ℕ} (h : Fills t r f n) (hfd : 0 < t.fd)
    (hproxy : .proxy ∉ t.messages) (hexact : r.length = t.chunk.left) (hoob : env.oob = .fail 1) :
    Stuck (t.readEvent env) ∧ (t.readEvent env).handed = t.handed ∧
      (t.readEvent env).received = t.received := by
  have hopen : connCheck t.dState (D_STATE_RCLOSE ||| D_STATE_CLOSE) = false := by
    rw [h.dState]
    exact connCheck_free _
  have hurgent : ¬ 0 < (mmblockRecv env.alloc t.oob env.oob).2 := by
    rw [hoob]
    exact mmblockRecv_fail env.alloc t.oob 1
  obtain ⟨o,k,hnone,hsome,heq⟩ := connReadHandler_rest env (fun hc => hurgent hc.2) hopen
  have hk : k ≤ 0 := by
    cases huse : t.session.useOOB with
    | false =>
      rw [hnone huse]
      decide
    | true =>
      rw [hsome huse]
      exact not_lt.mp hurgent
  have hneg : (if k = 0 then -1 else k) < 0 := by
    split_ifs
    · decide
    · omega
  have hoobbed : Fills { t with oob := o } r f n :=
    ⟨h.dState,h.proxy,h.buffer,h.state,h.chunk,h.left,h.messages⟩
  have hr : r ≠ [] := by
    apply List.ne_nil_of_length_pos
    rw [hexact]
    exact h.left
  have hexactly : ({ t with oob := o } : RecvConn).readChunkFirst env k = _ :=
    readChunkFirst_exactly hoobbed.buffer hoobbed.receiving hr (hoobbed.chunk.filling hoobbed.left) hexact k
  dsimp only at heq
  rw [if_pos h.receiving,hexactly] at heq
  unfold readEvent
  rw [heq]
  dsimp only
  rw [if_pos hneg]
  have hcontrol : (({ t with oob := o } : RecvConn).fillFrom r).chunkDone.toControl =
      t.toControl.pushMessage .data :=
    chunkDone_control (t := ({ t with oob := o } : RecvConn).fillFrom r) h.dState
  obtain ⟨hclosing,hmessages⟩ := connShut_free (k := t.toControl.pushMessage .data) E_STATE_ON
    h.dState hfd
  rw [hcontrol]
  refine ⟨⟨Or.inl hclosing,?_⟩,rfl,rfl⟩
  intro hid
  have hmem := hmessages ▸ (show _ ∈ (Control.connShut (t.toControl.pushMessage .data)
    (D_STATE_CLOSE ||| D_STATE_RCLOSE ||| D_STATE_WCLOSE) E_STATE_ON).messages from hid)
  change _ ∈ (t.messages ++ [MessageId.data]) ++ [MessageId.shut] at hmem
  simp only [List.mem_append,List.mem_singleton] at hmem
  obtain (hold | hdata) | hshut := hmem
  · exact hproxy hold
  · cases hdata
  · cases hshut

/-- Exactly the bytes that are asked for wait in the buffer, and a read event comes before the message
about them. -/
theorem connRecv2Chunk_exactly (h : Idle s q) (halloc : env.alloc = true) (hsize : 0 < size)
    (hexact : q.length = size) (data : List UInt8) (later : RecvEnv) (hoob : later.oob = .fail 1) :
    (s.connRecv2Chunk env size data).handed = s.handed ∧
      Stuck ((s.connRecv2Chunk env size data).readEvent later) ∧
      ((s.connRecv2Chunk env size data).readEvent later).handed = s.handed ∧
      ((s.connRecv2Chunk env size data).readEvent later).received = s.received := by
  have hsome : 0 < size + data.length := by omega
  obtain ⟨c,hchunk,heq⟩ := connRecv2Chunk_chunk h halloc hsome
  have hleft := hchunk.left
  have hroom : c.left = size := by omega
  have hpos : 0 < c.left := by omega
  have hfills : Fills (s.connRecv2Chunk env size data) q data (data.length + size) := by
    rw [heq]
    exact ⟨h.dState,h.proxy,h.buffer,rfl,hchunk,hpos,h.messages.2.1⟩
  have hlack : q.length = (s.connRecv2Chunk env size data).chunk.left := by
    rw [heq,hexact]
    exact hroom.symm
  have hread := readEvent_exactly hfills (by rw [heq]; exact h.fd) (by rw [heq]; exact h.messages.2.2)
    hlack hoob
  obtain ⟨hstuck,hhanded,hreceived⟩ := hread
  refine ⟨?_,hstuck,hhanded.trans ?_,hreceived.trans ?_⟩
  · rw [heq]
  · rw [heq]
  · rw [heq]

/-- The chunk is handed over exactly where it lacks bytes, and the buffer does not hold just as many. -/
theorem recv2Chunk_completes {s : RecvConn} {q data : List UInt8} {size : ℕ} {env : RecvEnv}
    (h : Idle s q) (halloc : env.alloc = true) (hsome : 0 < size + data.length) :
    (∀ ls : List RecvStep, (∀ l ∈ ls, l.Segment) →
      Quiet s size (ls.foldl RecvStep.apply (s.connRecv2Chunk env size data)) →
      ∃ ks, ks <+: ls ∧
        Delivered s data size (ks.foldl RecvStep.apply (s.connRecv2Chunk env size data))) ↔
      0 < size ∧ q.length ≠ size := by
  constructor
  · intro hall
    by_contra hcond
    obtain rfl | hsize := Nat.eq_zero_or_pos size
    · rw [Nat.zero_add] at hsome
      obtain ⟨hstuck,hhanded,-⟩ := connRecv2Chunk_stuck h halloc hsome
      obtain ⟨ls,hls,hquiet,hnone⟩ := hstuck.never hhanded (Nat.zero_le _) data env
      exact hnone (hall ls hls hquiet)
    · have hexact : q.length = size := by
        by_contra hne
        exact hcond ⟨hsize,hne⟩
      obtain ⟨hstart,hstuck,hhanded,hreceived⟩ :=
        connRecv2Chunk_exactly h halloc hsize hexact data (socketHas [0]) rfl
      have henough : size ≤ (streamSince s ((s.connRecv2Chunk env size data).readEvent
          (socketHas [0]))).length := by
        rw [h.streamSince_self hreceived]
        exact hexact.ge
      obtain ⟨ls,hls,hquiet,hnone⟩ := hstuck.never hhanded henough data env
      have hread : (RecvStep.read (socketHas [0])).Segment := ⟨rfl,[0],List.cons_ne_nil _ _,rfl⟩
      obtain ⟨ks,hpre,hdelivered⟩ :=
        hall (.read (socketHas [0])::ls) (List.forall_mem_cons.mpr ⟨hread,hls⟩) hquiet
      cases ks with
      | nil => exact not_delivered hstart hdelivered
      | cons k ks =>
        obtain ⟨rfl,hks⟩ := List.cons_prefix_cons.mp hpre
        exact hnone ⟨ks,hks,hdelivered⟩
  · rintro ⟨hsize,hother⟩ ls hls hquiet
    obtain hawaits | hdone := (connRecv2Chunk_awaits h halloc hsize hother).run h.handler ls hls
    · exact absurd hquiet hawaits.not_quiet
    · exact hdone

end

end RecvConn

open RecvConn

/-- However the stream is cut into reads, and in whatever order reads and messages are handled, the chunk
is handed over once when its bytes are there and all messages are handled, with the bytes behind it left
in the buffer, exactly where it lacks bytes, the buffer does not hold just as many, and no `int` of its
size overflows. -/
theorem recv2_chunk_completes_iff {s : RecvConn} {q data : List UInt8} {size : ℕ} {env : RecvEnv}
    (h : Idle s q) (halloc : env.alloc = true) (hsome : 0 < size + data.length) :
    (∃ t, s.connRecv2ChunkInt env size data = some t ∧ ∀ ls : List RecvStep, (∀ l ∈ ls, l.Segment) →
      Quiet s size (ls.foldl RecvStep.apply t) →
      ∃ ks, ks <+: ls ∧ Delivered s data size (ks.foldl RecvStep.apply t)) ↔
      0 < size ∧ q.length ≠ size ∧ size + data.length + 1 ≤ ChunkWorld.needMax := by
  rw [connRecv2ChunkInt]
  split_ifs with hint
  · simp only [Option.some.injEq,exists_eq_left']
    exact (recv2Chunk_completes h halloc hsome).trans
      ⟨fun hc => ⟨hc.1,hc.2,hint⟩,fun hc => ⟨hc.1,hc.2.1⟩⟩
  · exact iff_of_false (fun ⟨_,ht,_⟩ => nomatch ht) fun hc => hint hc.2.2

theorem pairSession_idle : Idle (start pairSession) [] where
  fd := by decide
  dState := rfl
  proxy := by decide
  handler := rfl
  buffer := mmblockInit_holds
  backed := chunkInit_backed
  messages := ⟨List.not_mem_nil,List.not_mem_nil,List.not_mem_nil⟩

/-- One byte is given and one is asked for. -/
theorem recv2_chunk_completes_pair :
    (∃ t, (start pairSession).connRecv2ChunkInt (socketHas []) 1 [97] = some t ∧
      ∀ ls : List RecvStep, (∀ l ∈ ls, l.Segment) →
        Quiet (start pairSession) 1 (ls.foldl RecvStep.apply t) →
        ∃ ks, ks <+: ls ∧ Delivered (start pairSession) [97] 1 (ks.foldl RecvStep.apply t)) ↔
    0 < 1 ∧ ([] : List UInt8).length ≠ 1 ∧ 1 + [(97 : UInt8)].length + 1 ≤ ChunkWorld.needMax :=
  recv2_chunk_completes_iff pairSession_idle rfl (by decide)

/-- All of the chunk is given, and its message finds nothing to do. -/
theorem recv2_chunk_given_whole :
    ¬ ∀ s q data size env, Idle s q → env.alloc = true → 0 < size + data.length →
      ∃ t, s.connRecv2ChunkInt env size data = some t ∧ ∀ ls : List RecvStep, (∀ l ∈ ls, l.Segment) →
        Quiet s size (ls.foldl RecvStep.apply t) →
        ∃ ks, ks <+: ls ∧ Delivered s data size (ks.foldl RecvStep.apply t) := by
  intro hall
  obtain ⟨t,ht,hrun⟩ := hall _ _ [97] 0 (socketHas []) pairSession_idle rfl (by decide)
  rw [connRecv2ChunkInt,if_pos (by decide)] at ht
  cases ht
  obtain ⟨ks,hpre,hdelivered⟩ := hrun [.inMessage (socketHas [])] (by simp [RecvStep.Segment])
    ⟨rfl,rfl,Nat.zero_le _⟩
  cases ks with
  | nil =>
    apply not_delivered ?_ hdelivered
    rfl
  | cons k ks =>
    obtain ⟨rfl,hnil⟩ := List.cons_prefix_cons.mp hpre
    rw [List.prefix_nil.mp hnil] at hdelivered
    apply not_delivered ?_ hdelivered
    rfl

end Sbase
