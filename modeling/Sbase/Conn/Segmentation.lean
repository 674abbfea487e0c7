import Sbase.Conn.ReadHandler
import Sbase.Conn.FramingRule

/-! Framing against segmentation: however the stream is cut into reads, and in whatever order reads
and messages are handled, the handlers are given the frames of the stream. -/
namespace Sbase
open Memory Runs Framing

namespace Control

theorem connPushMessage_free {k : Control} (h : k.dState = D_STATE_FREE) (id : MessageId) :
    k.connPushMessage id = k.pushMessage id := by
  unfold connPushMessage
  rw [h, if_neg (by decide)]

theorem pushInqmessage_free {k : Control} (h : k.dState = D_STATE_FREE) (id : MessageId) :
    k.pushInqmessage id = { k with inMessages := k.inMessages ++ [id] } := by
  exact if_pos h

end Control

namespace RecvConn

/-- The blocks of an open connection: `q` waits in the buffer, and `p` is the packet in hand. -/
structure Receives (s : RecvConn) (q p : List UInt8) : Prop where
  session : s.session.Framed
  buffer : Holds s.buffer q
  terminated : Terminated s.buffer
  packet : Holds s.packet p
  dState : s.dState = D_STATE_FREE
  backed : s.chunk.Backed

/-- What each state says about the stream: the mode it is in and the bytes that are still to be
framed, and the messages that will take it further. -/
inductive Phase (s : RecvConn) (q p : List UInt8) : Mode → List UInt8 → Prop
  | ready (state : s.sState = S_STATE_READY) (messages : s.messages = []) (none : p = [])
      (wakes : s.session.frameLen q ≠ .none → .buffer ∈ s.inMessages) : Phase s q p .packet q
  | packet (state : s.sState = S_STATE_PACKET_HANDLING) (messages : s.messages = [.packet])
      (framed : s.session.frameLen (p ++ q) = some p.length) : Phase s q p .packet (p ++ q)
  | filling {f : List UInt8} {n : ℕ} (state : s.sState = S_STATE_READ_CHUNK)
      (messages : s.messages = []) (chunk : s.chunk.Filled f n) (left : 0 < s.chunk.left)
      (wakes : q ≠ [] → .chunkio ∈ s.inMessages) : Phase s q p (.chunk p n) (f ++ q)
  | data {f : List UInt8} (state : s.sState = S_STATE_DATA_HANDLING)
      (messages : s.messages = [.data]) (chunk : s.chunk.Filled f f.length) (some : f ≠ []) :
      Phase s q p (.chunk p f.length) (f ++ q)

/-- The connection goes on with `rest` in the mode `m`. -/
def Stands (s : RecvConn) (m : Mode) (rest : List UInt8) : Prop :=
  ∃ q p, Receives s q p ∧ Phase s q p m rest

/-- Nothing has been read or handed over. -/
structure SameRecord (s s' : RecvConn) : Prop where
  session : s'.session = s.session
  received : s'.received = s.received
  handed : s'.handed = s.handed

theorem SameRecord.rfl' (s : RecvConn) : SameRecord s s := ⟨rfl,rfl,rfl⟩

section
variable {s : RecvConn} {env : RecvEnv} {q p : List UInt8}

/-! ### Packets -/

theorem takePacket_spec (h : Receives s q p) {n : ℕ} (hn : s.session.frameLen q = some n)
    (hfits : s.PacketFits q) :
    Holds (s.takePacket true n).buffer (q.drop n) ∧ Terminated (s.takePacket true n).buffer ∧
      Holds (s.takePacket true n).packet (q.take n) := by
  obtain ⟨hpos, hle⟩ := Session.frameLen_bounds hn
  have hq : q ≠ [] := by
    rintro rfl
    exact absurd hle (not_le.mpr hpos)
  obtain ⟨d, hd, hread⟩ := h.buffer.nonempty hq
  have hdel := mmblockDel_holds h.buffer n
  rw [Int.toNat_natCast] at hdel
  have htake : read d 0 n = q.take n := by rw [← hread, take_read d 0 hle]
  have hlen : (q.take n).length = n := List.length_take_of_le hle
  have hpush := @mmblockPush_holds _ _ (mmblockReset_holds h.packet) (q.take n)
    (List.length_pos_iff.mp (by omega))
  rw [hlen, if_pos (hfits n hn), List.nil_append] at hpush
  refine ⟨hdel, mmblockDel_terminated h.buffer h.terminated n, ?_⟩
  unfold takePacket
  dsimp only
  rw [hd, Option.elim_some, htake]
  exact hpush.1

theorem packetType_all (hf : s.session.Framed) : ¬ s.session.packetType &&& PACKET_ALL = 0 := by
  obtain ⟨htype, -⟩ | ⟨htype, -⟩ := hf.rule
  · rw [htype]
    decide
  · rw [htype]
    decide

/-- `conn_packet_reader` puts the packet at the front of the buffer in hand, if there is one. -/
theorem connPacketReader_stands (h : Receives s q []) (hstate : s.sState = S_STATE_READY)
    (hmessages : s.messages = []) (halloc : env.alloc = true) (hstale : q = [] → s.NotStale)
    (hclear : s.session.Clear q) (hfits : s.PacketFits q) :
    Stands (s.connPacketReader env).1 .packet q ∧ SameRecord s (s.connPacketReader env).1 := by
  have hlen := packetLen_eq h.session h.buffer h.terminated hstale hclear
  unfold connPacketReader
  rw [h.dState, if_neg (by decide), if_pos hstate, if_neg (packetType_all h.session), hlen]
  dsimp only
  cases hn : s.session.frameLen q with
  | none =>
    rw [Option.elim_none, if_neg (by decide)]
    exact ⟨⟨q, [], h, .ready hstate hmessages rfl fun hne => absurd hn hne⟩, .rfl' s⟩
  | some n =>
    obtain ⟨hpos, hle⟩ := Session.frameLen_bounds hn
    obtain ⟨hbuffer, hterm, hpacket⟩ := takePacket_spec h hn hfits
    rw [Option.elim_some, if_pos (Int.natCast_pos.mpr hpos), Int.toNat_natCast, halloc]
    have hquick : ¬ 0 < (s.takePacket true n).quickLen := by
      unfold quickLen
      rw [show (s.takePacket true n).session.quickHandler = none from h.session.quick]
      split_ifs <;> exact lt_irrefl 0
    rw [if_neg hquick,
      Control.connPushMessage_free (k := (s.takePacket true n).toControl) h.dState]
    have hphase : s.session.frameLen (q.take n ++ q.drop n) = some (q.take n).length := by
      rw [List.take_append_drop, hn, List.length_take_of_le hle]
    have hstands : Phase
        (({ s.takePacket true n with sState := S_STATE_PACKET_HANDLING } : RecvConn).withControl
          ((s.takePacket true n).pushMessage .packet))
        (q.drop n) (q.take n) .packet (q.take n ++ q.drop n) := by
      refine .packet rfl ?_ hphase
      exact congrArg (· ++ [MessageId.packet]) hmessages
    rw [List.take_append_drop] at hstands
    exact ⟨⟨_, _, ⟨h.session, hbuffer, hterm, hpacket, h.dState, h.backed⟩, hstands⟩, ⟨rfl,rfl,rfl⟩⟩

/-! ### Chunks -/

theorem Receives.receiving (h : Receives s q p) (hstate : s.sState = S_STATE_READ_CHUNK)
    (hleft : 0 < s.chunk.left) : s.receiving := by
  refine ⟨hstate, fun hproxy => ?_, hleft⟩
  obtain ⟨htype, -⟩ | ⟨htype, -⟩ := h.session.rule
  · exact absurd (htype.symm.trans hproxy) (by decide)
  · exact absurd (htype.symm.trans hproxy) (by decide)

theorem Receives.chunkDone (h : Receives s q p) : Receives s.chunkDone q p := by
  refine ⟨h.session, h.buffer, h.terminated, h.packet, ?_, h.backed⟩
  unfold RecvConn.chunkDone
  rw [Control.connPushMessage_free h.dState]
  exact h.dState

theorem chunkDone_phase {f : List UInt8} {n : ℕ} (h : Receives s q p) (hmessages : s.messages = [])
    (hchunk : s.chunk.Filled f n) (hdone : s.chunk.left = 0) (hf : f ≠ []) :
    Phase s.chunkDone q p (.chunk p n) (f ++ q) := by
  obtain rfl : f.length = n := by
    have := hchunk.left
    omega
  refine .data rfl ?_ hchunk hf
  unfold RecvConn.chunkDone
  rw [Control.connPushMessage_free h.dState]
  exact congrArg (· ++ [MessageId.data]) hmessages

theorem fillFrom_receives {f : List UInt8} {n : ℕ} (h : Receives s q p) (hq : q ≠ [])
    (hchunk : s.chunk.Filled f n) (hleft : 0 < s.chunk.left) :
    Receives (s.fillFrom q) (q.drop s.chunk.left) p ∧
      (s.fillFrom q).chunk.Filled (f ++ q.take s.chunk.left) n := by
  have hfill := hchunk.fill hleft hq
  exact ⟨⟨h.session, fillFrom_buffer h.buffer hq (hchunk.filling hleft),
    mmblockDel_terminated h.buffer h.terminated _, h.packet, h.dState, hfill.backed⟩, hfill⟩

/-- `conn__read__chunk` moves bytes from the buffer to the chunk, which go on with the same. -/
theorem connReadChunk'_stands {f : List UInt8} {n : ℕ} (h : Receives s q p)
    (hstate : s.sState = S_STATE_READ_CHUNK) (hmessages : s.messages = [])
    (hchunk : s.chunk.Filled f n) (hleft : 0 < s.chunk.left) (openOk : Bool) :
    Stands (s.connReadChunk' openOk).1 (.chunk p n) (f ++ q) ∧
      SameRecord s (s.connReadChunk' openOk).1 := by
  by_cases hq : q = []
  · have hskip : s.connReadChunk' openOk = (s,-1) := by
      unfold connReadChunk'
      rw [if_neg fun hc => ?_]
      have hpos := hc.2.2.2
      rw [h.buffer.ndata_eq, hq] at hpos
      exact lt_irrefl 0 hpos
    rw [hskip]
    exact ⟨⟨q, p, h, .filling hstate hmessages hchunk hleft fun hne => absurd hq hne⟩, .rfl' s⟩
  · obtain ⟨hrec, hfilled⟩ := fillFrom_receives h hq hchunk hleft
    have hrest : (f ++ q.take s.chunk.left) ++ q.drop s.chunk.left = f ++ q := by
      rw [List.append_assoc, List.take_append_drop]
    have hnleft := hfilled.left
    have holdleft := hchunk.left
    rw [List.length_append, List.length_take] at hnleft
    rw [connReadChunk'_eq h.buffer (h.receiving hstate hleft) hq (hchunk.filling hleft), ← hrest]
    by_cases hdone : s.chunk.left ≤ q.length
    · rw [if_pos hdone]
      refine ⟨⟨_, _, hrec.chunkDone, chunkDone_phase hrec hmessages hfilled (by omega) ?_⟩,
        ⟨rfl,rfl,rfl⟩⟩
      refine List.append_ne_nil_of_right_ne_nil f (List.length_pos_iff.mp ?_)
      rw [List.length_take]
      omega
    · have hpos : 0 < (s.fillFrom q).chunk.left := by omega
      rw [if_neg hdone]
      refine ⟨⟨_, _, hrec, .filling hstate hmessages hfilled hpos fun hne => ?_⟩, ⟨rfl,rfl,rfl⟩⟩
      exact absurd (List.drop_eq_nil_of_le (not_le.mp hdone).le) hne

/-- Bytes have arrived, and nothing has been handed over. -/
structure Feeds (s s' : RecvConn) (m : Mode) (rest : List UInt8) : Prop where
  session : s'.session = s.session
  handed : s'.handed = s.handed
  arrived : ∃ got, Stands s' m (rest ++ got) ∧ s'.received = s.received ++ got

theorem Feeds.of_same {s' : RecvConn} {m : Mode} {rest : List UInt8} (h : Stands s' m rest)
    (hsame : SameRecord s s') : Feeds s s' m rest where
  session := hsame.session
  handed := hsame.handed
  arrived := ⟨[], by rwa [List.append_nil], by rw [List.append_nil]; exact hsame.received⟩

/-- The socket is read into the room that is left in the chunk. -/
theorem connReadingChunk_filled {f bs : List UInt8} {n : ℕ} (hchunk : s.chunk.Filled f n)
    (hleft : 0 < s.chunk.left) (hrecv : env.recv = .bytes bs) (hbs : bs ≠ []) :
    ∃ c ret, s.connReadingChunk env =
      ({ s with chunk := c, received := s.received ++ bs.take s.chunk.left }, ret,
        [((bs.take s.chunk.left).length : ℤ)]) ∧ c.Filled (f ++ bs.take s.chunk.left) n ∧ 0 < ret := by
  have hfilling := hchunk.filling hleft
  unfold connReadingChunk
  rw [if_pos hchunk.type]
  dsimp only
  rw [if_pos ⟨hfilling.data, hfilling.end, hleft⟩, hrecv]
  cases s.ssl with
  | true =>
    obtain ⟨hf, hp⟩ := hchunk.recv hleft hbs 1
    exact ⟨_, _, rfl, hf, hp⟩
  | false =>
    obtain ⟨hf, hp⟩ := hchunk.recv hleft hbs (-2)
    exact ⟨_, _, rfl, hf, hp⟩

/-- The socket is read into the chunk, when the buffer is empty. -/
theorem connChunkRead_feeds {f bs : List UInt8} {n : ℕ} (h : Receives s [] p)
    (hstate : s.sState = S_STATE_READ_CHUNK) (hmessages : s.messages = [])
    (hchunk : s.chunk.Filled f n) (hleft : 0 < s.chunk.left) (hrecv : env.recv = .bytes bs)
    (hbs : bs ≠ []) (k : ℤ) :
    Feeds s (s.connChunkRead env k).1 (.chunk p n) f ∧ 0 < (s.connChunkRead env k).2.1 := by
  obtain ⟨c, ret, hread, hfilled, hpos⟩ := connReadingChunk_filled hchunk hleft hrecv hbs
  have hrec : Receives { s with chunk := c, received := s.received ++ bs.take s.chunk.left } [] p :=
    ⟨h.session, h.buffer, h.terminated, h.packet, h.dState, hfilled.backed⟩
  have hgot : f ++ bs.take s.chunk.left ≠ [] := by
    refine List.append_ne_nil_of_right_ne_nil f (List.length_pos_iff.mp ?_)
    have := List.length_pos_iff.mpr hbs
    rw [List.length_take]
    omega
  unfold connChunkRead
  rw [if_pos hstate, hread]
  dsimp only
  rw [if_neg (not_le.mpr hpos)]
  by_cases hdone : chunkStatus c = CHUNK_STATUS_OVER
  · rw [if_pos hdone]
    have hphase := chunkDone_phase hrec hmessages hfilled ((chunkStatus_over_iff c).mp hdone) hgot
    rw [List.append_nil] at hphase
    exact ⟨⟨rfl, rfl, _, ⟨_, _, hrec.chunkDone, hphase⟩, rfl⟩, hpos⟩
  · rw [if_neg hdone]
    have hcleft : 0 < c.left := Nat.pos_of_ne_zero (mt (chunkStatus_over_iff c).mpr hdone)
    have hphase := Phase.filling (s := { s with
        chunk := c, received := s.received ++ bs.take s.chunk.left }) (q := []) (p := p)
      hstate hmessages hfilled hcleft fun hne => absurd rfl hne
    rw [List.append_nil] at hphase
    exact ⟨⟨rfl, rfl, _, ⟨_, _, hrec, hphase⟩, rfl⟩, hpos⟩

/-- A read event while a chunk is received, when the buffer does not hold exactly what is left. -/
theorem readChunkFirst_feeds {f bs : List UInt8} {n : ℕ} (h : Receives s q p)
    (hstate : s.sState = S_STATE_READ_CHUNK) (hmessages : s.messages = [])
    (hchunk : s.chunk.Filled f n) (hleft : 0 < s.chunk.left) (hrecv : env.recv = .bytes bs)
    (hbs : bs ≠ []) (hne : q.length ≠ s.chunk.left) (k : ℤ) :
    Feeds s (s.readChunkFirst env k).1 (.chunk p n) (f ++ q) ∧ 0 ≤ (s.readChunkFirst env k).2.1 := by
  have hr := h.receiving hstate hleft
  have hfilling := hchunk.filling hleft
  by_cases hq : q = []
  · subst hq
    obtain ⟨hfeeds, hpos⟩ := connChunkRead_feeds h hstate hmessages hchunk hleft hrecv hbs k
    have hnd : s.buffer.ndata = 0 := h.buffer.ndata_eq
    unfold readChunkFirst
    rw [hnd, if_neg (lt_irrefl 0)]
    dsimp only
    rw [hnd, if_pos le_rfl, List.append_nil, if_neg hpos.ne']
    exact ⟨hfeeds, hpos.le⟩
  · obtain ⟨hrec, hfilled⟩ := fillFrom_receives h hq hchunk hleft
    have hnleft := hfilled.left
    have holdleft := hchunk.left
    rw [List.length_append, List.length_take] at hnleft
    rcases lt_or_gt_of_ne hne with hlt | hgt
    · rw [List.drop_eq_nil_of_le hlt.le] at hrec
      rw [List.take_of_length_le hlt.le] at hfilled
      obtain ⟨hfeeds, hpos⟩ := connChunkRead_feeds hrec hstate hmessages hfilled (by omega) hrecv hbs k
      rw [readChunkFirst_partly h.buffer hr hq hfilling hlt]
      dsimp only
      rw [if_neg hpos.ne']
      exact ⟨⟨hfeeds.session, hfeeds.handed, hfeeds.arrived⟩, hpos.le⟩
    · have hrest : (f ++ q.take s.chunk.left) ++ q.drop s.chunk.left = f ++ q := by
        rw [List.append_assoc, List.take_append_drop]
      have hsome : f ++ q.take s.chunk.left ≠ [] := by
        refine List.append_ne_nil_of_right_ne_nil f (List.length_pos_iff.mp ?_)
        rw [List.length_take]
        omega
      have hphase := chunkDone_phase hrec hmessages hfilled (by omega) hsome
      rw [hrest] at hphase
      rw [readChunkFirst_beyond h.buffer hr hq hfilling hgt]
      exact ⟨.of_same ⟨_, _, hrec.chunkDone, hphase⟩ ⟨rfl,rfl,rfl⟩, le_rfl⟩

/-! ### Read events -/

/-- The messages that take the connection further are kept. -/
theorem Phase.of_same {s' : RecvConn} {m : Mode} {rest : List UInt8} (h : Phase s q p m rest)
    (hsession : s'.session = s.session) (hstate : s'.sState = s.sState)
    (hmessages : s'.messages = s.messages) (hchunk : s'.chunk = s.chunk)
    (hbuffer : s.sState = S_STATE_READY → .buffer ∈ s.inMessages → .buffer ∈ s'.inMessages)
    (hchunkio : s.sState = S_STATE_READ_CHUNK → .chunkio ∈ s.inMessages →
      .chunkio ∈ s'.inMessages) :
    Phase s' q p m rest := by
  cases h with
  | ready state messages none wakes =>
    refine .ready (hstate.trans state) (hmessages.trans messages) none fun hne => ?_
    exact hbuffer state (wakes (hsession ▸ hne))
  | packet state messages framed =>
    exact .packet (hstate.trans state) (hmessages.trans messages) (hsession ▸ framed)
  | filling state messages chunk left wakes =>
    refine .filling (hstate.trans state) (hmessages.trans messages) (hchunk ▸ chunk)
      (hchunk ▸ left) fun hne => ?_
    exact hchunkio state (wakes hne)
  | data state messages chunk some =>
    exact .data (hstate.trans state) (hmessages.trans messages) (hchunk ▸ chunk) some

theorem blockBytes_eq {m : MMBlock} (h : Holds m q) (r : Recv) :
    blockBytes true m r = readBytes m r := by
  obtain ⟨hb, hleft, hsome⟩ := readBlock_holds h
  unfold blockBytes
  dsimp only
  rw [if_pos ⟨hsome, by rw [hb.end_eq, Option.isSome_map]; exact hsome, hleft⟩]
  rfl

/-- A session that frames its stream is no proxy. -/
theorem readData_framed (hf : s.session.Framed) (env : RecvEnv) :
    s.readData env =
      (let s' := if s.sState = S_STATE_READY ∧ s.packet.ndata = 0 then (s.connPacketReader env).1
        else s
       if s'.sState = S_STATE_CHUNK_READING then (s'.connChunkReading env).1 else s', 0) := by
  have hproxy : ¬ s.session.packetType &&& PACKET_PROXY ≠ 0 ∧
      ¬ s.session.packetType = PACKET_PROXY := by
    obtain ⟨htype, -⟩ | ⟨htype, -⟩ := hf.rule
    · rw [htype]
      decide
    · rw [htype]
      decide
  unfold readData
  rw [if_neg hproxy.1]
  dsimp only
  rw [if_neg hproxy.2]

theorem Stands.not_chunkReading {m : Mode} {rest : List UInt8} (h : Stands s m rest) :
    ¬ s.sState = S_STATE_CHUNK_READING := by
  obtain ⟨q, p, -, hphase⟩ := h
  cases hphase with
  | ready state => rw [state]; decide
  | packet state => rw [state]; decide
  | filling state => rw [state]; decide
  | data state => rw [state]; decide

/-- Where no packet is awaited, the data stays in the buffer. -/
theorem readData_busy {m : Mode} {rest : List UInt8} (hf : s.session.Framed) (h : Stands s m rest)
    (hstate : ¬ s.sState = S_STATE_READY) (env : RecvEnv) : s.readData env = (s,0) := by
  have hskip : ¬ (s.sState = S_STATE_READY ∧ s.packet.ndata = 0) := fun hc => hstate hc.1
  rw [readData_framed hf, if_neg hskip]
  dsimp only
  rw [if_neg h.not_chunkReading]

theorem readData_ready (env : RecvEnv) (h : Receives s q []) (hstate : s.sState = S_STATE_READY)
    (hmessages : s.messages = []) (halloc : env.alloc = true) (hq : q ≠ [])
    (hclear : s.session.Clear q) (hfits : s.PacketFits q) :
    Stands (s.readData env).1 .packet q ∧ SameRecord s (s.readData env).1 ∧
      (s.readData env).2 = 0 := by
  obtain ⟨hstands, hsame⟩ := connPacketReader_stands h hstate hmessages halloc
    (fun hnil => absurd hnil hq) hclear hfits
  have hready : s.sState = S_STATE_READY ∧ s.packet.ndata = 0 := ⟨hstate, h.packet.ndata_eq⟩
  rw [readData_framed h.session, if_pos hready]
  dsimp only
  rw [if_neg hstands.not_chunkReading]
  exact ⟨hstands, hsame, rfl⟩

/-- The bytes that a successful read hands over. -/
theorem readBytes_ne_nil (h : Holds s.buffer q) {bs : List UInt8} (hbs : bs ≠ []) :
    readBytes s.buffer (.bytes bs) ≠ [] ∧ 0 < (mmblockRead true s.buffer (.bytes bs)).2 := by
  have hspace := readSpace_pos h
  have hlen := List.length_pos_iff.mpr hbs
  have hgot : 0 < (bs.take (readSpace s.buffer)).length := by
    rw [List.length_take]
    omega
  refine ⟨List.length_pos_iff.mp hgot, ?_⟩
  rw [(mmblockRead_holds h (.bytes bs)).2]
  exact Int.natCast_pos.mpr hgot

/-- A successful read into the buffer. -/
theorem readBuffer_eq {bs : List UInt8} (h : Holds s.buffer q) (halloc : env.alloc = true)
    (hrecv : env.recv = .bytes bs) (hbs : bs ≠ []) :
    ∃ reads, s.readBuffer env =
      (let s' : RecvConn := { s with buffer := (mmblockRead true s.buffer (.bytes bs)).1,
                                     received := s.received ++ readBytes s.buffer (.bytes bs) }
       ((s'.readData env).1, (s'.readData env).2, reads)) := by
  have hpos := (readBytes_ne_nil h hbs).2
  refine ⟨blockReads true s.buffer (.bytes bs), ?_⟩
  unfold readBuffer
  rw [halloc, hrecv, blockBytes_eq h]
  dsimp only
  rw [if_neg (by omega)]

/-- A read into the buffer, outside the states in which chunks are received. -/
theorem readBuffer_feeds {m : Mode} {rest bs : List UInt8} (h : Receives s q p)
    (hphase : Phase s q p m rest) (hnot : ¬ s.receiving) (halloc : env.alloc = true)
    (hrecv : env.recv = .bytes bs) (hbs : bs ≠ [])
    (hsearch : s.sState = S_STATE_READY → s.session.Clear (q ++ readBytes s.buffer env.recv) ∧
      s.PacketFits (q ++ readBytes s.buffer env.recv)) :
    Feeds s (s.readBuffer env).1 m rest ∧ 0 ≤ (s.readBuffer env).2.1 := by
  rw [hrecv] at hsearch
  have hread := (mmblockRead_holds h.buffer (.bytes bs)).1
  obtain ⟨hgot, hpos⟩ := readBytes_ne_nil h.buffer hbs
  have hterm := mmblockRead_terminated h.buffer hpos
  obtain ⟨reads, heq⟩ := readBuffer_eq h.buffer halloc hrecv hbs
  rw [heq]
  generalize readBytes s.buffer (.bytes bs) = got at hread hgot hsearch
  generalize mmblockRead true s.buffer (.bytes bs) = b at hread hterm
  dsimp only
  have hrec : Receives { s with buffer := b.1, received := s.received ++ got } (q ++ got) p :=
    ⟨h.session, hread, hterm, h.packet, h.dState, h.backed⟩
  cases hphase with
  | ready state messages none wakes =>
    subst none
    obtain ⟨hclear, hfits⟩ := hsearch state
    obtain ⟨hstands, hsame, hret⟩ := readData_ready env hrec state messages halloc
      (List.append_ne_nil_of_right_ne_nil q hgot) hclear hfits
    exact ⟨⟨hsame.session, hsame.handed, got, hstands, hsame.received⟩, hret.ge⟩
  | packet state messages framed =>
    have hframed : s.session.frameLen (p ++ (q ++ got)) = some p.length := by
      rw [← List.append_assoc]
      exact Session.frameLen_append framed got
    have hstands : Stands { s with buffer := b.1, received := s.received ++ got } .packet
        ((p ++ q) ++ got) := by
      rw [List.append_assoc]
      exact ⟨_, _, hrec, .packet state messages hframed⟩
    rw [readData_busy hrec.session hstands fun hc => absurd (state.symm.trans hc) (by decide)]
    exact ⟨⟨rfl, rfl, got, hstands, rfl⟩, le_rfl⟩
  | filling state messages chunk left => exact absurd (h.receiving state left) hnot
  | @data f state messages chunk some =>
    have hstands : Stands { s with buffer := b.1, received := s.received ++ got }
        (.chunk p f.length) ((f ++ q) ++ got) := by
      rw [List.append_assoc]
      exact ⟨_, _, hrec, .data state messages chunk some⟩
    rw [readData_busy hrec.session hstands fun hc => absurd (state.symm.trans hc) (by decide)]
    exact ⟨⟨rfl, rfl, got, hstands, rfl⟩, le_rfl⟩

theorem mmblockRecv_fail (alloc : Bool) (m : MMBlock) (n : ℕ) :
    ¬ 0 < (mmblockRecv alloc m (.fail n)).2 := by
  unfold mmblockRecv
  obtain ⟨-, hret⟩ | hone := mmblockRead_ret alloc m (.fail n)
  · rw [hret]
    decide
  · unfold blockReads at hone
    dsimp only [Recv.take] at hone
    split_ifs at hone
    have hret := List.singleton_injective hone
    omega

end

/-- A read event at which the socket has data, memory can be had, and no urgent data arrives. -/
def ReadsData (env : RecvEnv) : Prop :=
  env.alloc = true ∧ (∃ bs, bs ≠ [] ∧ env.recv = .bytes bs) ∧ ∃ n, env.oob = .fail n

/-- The packet at the front of the data `q` is found and fits. -/
def SearchFits (s : RecvConn) (q : List UInt8) : Prop := s.session.Clear q ∧ s.PacketFits q

/-- A read event keeps the frames in order: the buffer does not hold exactly what a chunk still
needs, and a packet that the read completes is found and fits. -/
def ReadFits (env : RecvEnv) (s : RecvConn) : Prop :=
  (s.receiving → s.buffer.ndata ≠ s.chunk.left) ∧
    (s.sState = S_STATE_READY → s.SearchFits (s.buffer.bytes ++ readBytes s.buffer env.recv))

section
variable {s : RecvConn} {env : RecvEnv} {q p : List UInt8} {m : Mode} {rest : List UInt8}

theorem connReadHandler_feeds (h : Receives s q p) (hphase : Phase s q p m rest)
    (hdata : ReadsData env) (hfits : s.ReadFits env) :
    Feeds s (s.connReadHandler env).1 m rest ∧ 0 ≤ (s.connReadHandler env).2.1 := by
  obtain ⟨halloc, ⟨bs, hbs, hrecv⟩, n, hoob⟩ := hdata
  obtain ⟨hexact, hsearch⟩ := hfits
  rw [h.buffer.bytes_eq] at hsearch
  have hopen : connCheck s.dState (D_STATE_RCLOSE ||| D_STATE_CLOSE) = false := by
    rw [h.dState]
    exact connCheck_free _
  obtain ⟨o, k, -, -, heq⟩ := connReadHandler_rest env
    (fun hc => mmblockRecv_fail env.alloc s.oob n (hoob ▸ hc.2)) hopen
  have hrec : Receives { s with oob := o } q p :=
    ⟨h.session, h.buffer, h.terminated, h.packet, h.dState, h.backed⟩
  have hphase' : Phase { s with oob := o } q p m rest :=
    hphase.of_same rfl rfl rfl rfl (fun _ hb => hb) fun _ hc => hc
  rw [heq]
  dsimp only
  by_cases hr : s.receiving
  · rw [if_pos hr]
    cases hphase' with
    | ready state => exact absurd (hr.1.symm.trans state) (by decide)
    | packet state => exact absurd (hr.1.symm.trans state) (by decide)
    | filling state messages chunk left wakes =>
      have hne : q.length ≠ s.chunk.left := by
        intro hlen
        exact hexact hr (by rw [h.buffer.ndata_eq, hlen])
      obtain ⟨hfeeds, hret⟩ := readChunkFirst_feeds hrec state messages chunk left hrecv hbs hne k
      exact ⟨⟨hfeeds.session, hfeeds.handed, hfeeds.arrived⟩, hret⟩
    | data state => exact absurd (hr.1.symm.trans state) (by decide)
  · rw [if_neg hr]
    obtain ⟨hfeeds, hret⟩ := readBuffer_feeds hrec hphase' hr halloc hrecv hbs hsearch
    exact ⟨⟨hfeeds.session, hfeeds.handed, hfeeds.arrived⟩, hret⟩

theorem readEvent_feeds (h : Receives s q p) (hphase : Phase s q p m rest) (hdata : ReadsData env)
    (hfits : s.ReadFits env) : Feeds s (s.readEvent env) m rest := by
  obtain ⟨hfeeds, hret⟩ := connReadHandler_feeds h hphase hdata hfits
  unfold readEvent
  dsimp only
  rw [if_neg (not_lt.mpr hret)]
  exact hfeeds

end

end RecvConn

end Sbase
