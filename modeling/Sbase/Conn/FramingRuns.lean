import Sbase.Conn.Segmentation

/-! The messages of the receiving half, and the runs of reads and messages: what is handed to the
handlers of the session is what its stream parses to. -/
namespace Sbase
open Memory Runs Framing

namespace RecvConn

section
variable {s : RecvConn} {env : RecvEnv} {q p : List UInt8} {m : Mode} {rest : List UInt8}

/-! ### What follows a handler -/

theorem sessionReset_stands (h : Receives s q p) (hmessages : s.messages = []) :
    Stands s.sessionReset .packet q ∧ SameRecord s s.sessionReset := by
  have hreset := mmblockReset_holds h.packet
  have hback := chunkReset_backed h.backed
  unfold sessionReset
  dsimp only
  by_cases hq : 0 < s.buffer.ndata
  · rw [if_pos hq, Control.pushInqmessage_free h.dState]
    refine ⟨⟨q, [], ⟨h.session, h.buffer, h.terminated, hreset, h.dState, hback⟩, ?_⟩, ⟨rfl,rfl,rfl⟩⟩
    exact .ready rfl hmessages rfl fun _ => List.mem_append_right _ (List.mem_singleton_self _)
  · rw [if_neg hq]
    refine ⟨⟨q, [], ⟨h.session, h.buffer, h.terminated, hreset, h.dState, hback⟩, ?_⟩, ⟨rfl,rfl,rfl⟩⟩
    refine .ready rfl hmessages rfl fun hne => absurd ?_ hne
    have hnil : q = [] := by
      rw [h.buffer.ndata_eq] at hq
      exact List.length_eq_zero_iff.mp (by omega)
    cases hn : s.session.frameLen q with
    | none => rfl
    | some n =>
      have hbounds := Session.frameLen_bounds hn
      rw [hnil, List.length_nil] at hbounds
      omega

theorem connRecvChunk_stands {n : ℕ} (h : Receives s q p) (hmessages : s.messages = [])
    (halloc : env.alloc = true) (hn : 0 < n) :
    Stands (s.connRecvChunk env n) (.chunk p n) q ∧ SameRecord s (s.connRecvChunk env n) ∧
      (s.connRecvChunk env n).sState = S_STATE_READ_CHUNK := by
  have hfilled := chunkMem_filled h.backed env.junk hn
  unfold connRecvChunk awaitChunk
  rw [if_pos hn, halloc]
  dsimp only
  rw [h.dState, if_neg (by decide), Control.pushInqmessage_free h.dState]
  refine ⟨⟨q, p, ⟨h.session, h.buffer, h.terminated, h.packet, h.dState, hfilled.backed⟩, ?_⟩,
    ⟨rfl,rfl,rfl⟩, rfl⟩
  have hleft : 0 < (chunkMem true env.junk s.chunk n).left := by
    have hall := hfilled.left
    rw [List.length_nil, Nat.zero_add] at hall
    rwa [hall]
  rw [← List.nil_append q]
  exact .filling rfl hmessages hfilled hleft
    fun _ => List.mem_append_right _ (List.mem_singleton_self _)

/-- A handler finishes, and the session is reset, or it asks for a chunk. -/
theorem choose_stands {choice : Choice} {state : ℕ} (h : Receives s q p)
    (hmessages : s.messages = []) (halloc : env.alloc = true) (hplain : choice.Plain)
    (hstate : s.sState = state) (hne : state ≠ S_STATE_READ_CHUNK) :
    let s' := choose env s choice
    Stands (if s'.sState = state then s'.sessionReset else s') (Mode.after p choice) q ∧
      SameRecord s (if s'.sState = state then s'.sessionReset else s') := by
  cases choice with
  | finish =>
    dsimp only [choose]
    rw [if_pos hstate]
    exact sessionReset_stands h hmessages
  | recvChunk n =>
    obtain ⟨hstands, hsame, hread⟩ := connRecvChunk_stands h hmessages halloc hplain
    dsimp only [choose]
    rw [if_neg fun hc => hne (hc.symm.trans hread)]
    exact ⟨hstands, hsame⟩
  | recv2Chunk size data => exact hplain.elim
  | recvFile filename offset size => exact hplain.elim
  | readChunk => exact hplain.elim

/-- A frame has been handed over. -/
structure Hands (s s' : RecvConn) (f : Handed) (m : Mode) (rest : List UInt8) : Prop where
  session : s'.session = s.session
  received : s'.received = s.received
  handed : s'.handed = s.handed ++ [f]
  stands : Stands s' m rest

theorem connPacketHandler_hands (h : Receives s q p) (hmessages : s.messages = [])
    (halloc : env.alloc = true) (hstate : s.sState = S_STATE_PACKET_HANDLING) :
    Hands s (s.connPacketHandler env) (.packet p) (s.session.afterPacket p) q := by
  obtain ⟨handler, hhandler, hplain⟩ := h.session.packets
  have hrec : Receives { s with handed := s.handed ++ [.packet p] } q p :=
    ⟨h.session, h.buffer, h.terminated, h.packet, h.dState, h.backed⟩
  obtain ⟨hstands, hsame⟩ := choose_stands hrec hmessages halloc (hplain p) hstate (by decide)
  unfold connPacketHandler Session.afterPacket
  rw [h.dState, if_neg (by decide), hhandler, Option.elim_some]
  dsimp only
  rw [h.packet.bytes_eq]
  exact ⟨hsame.session, hsame.received, hsame.handed, hstands⟩

theorem connDataHandler_hands {f : List UInt8} {n : ℕ} (h : Receives s q p)
    (hmessages : s.messages = []) (halloc : env.alloc = true)
    (hstate : s.sState = S_STATE_DATA_HANDLING) (hchunk : s.chunk.Filled f n) :
    Hands s (s.connDataHandler env) (.chunk f) (s.session.afterChunk p f) q := by
  obtain ⟨handler, hhandler, hplain⟩ := h.session.chunks
  have hrec : Receives { s with handed := s.handed ++ [.chunk f] } q p :=
    ⟨h.session, h.buffer, h.terminated, h.packet, h.dState, h.backed⟩
  have hproxy : ¬ s.session.packetType = PACKET_PROXY := by
    obtain ⟨htype, -⟩ | ⟨htype, -⟩ := h.session.rule
    · rw [htype]
      decide
    · rw [htype]
      decide
  obtain ⟨hstands, hsame⟩ := choose_stands hrec hmessages halloc (hplain p f) hstate (by decide)
  unfold connDataHandler Session.afterChunk
  rw [h.dState, if_neg (by decide), if_neg hproxy, if_pos hchunk.type, hhandler, Option.elim_some,
    Option.elim_some]
  dsimp only
  rw [h.packet.bytes_eq, show s.chunkBytes = f from hchunk.bytes_eq]
  exact ⟨hsame.session, hsame.received, hsame.handed, hstands⟩

/-! ### The queues -/

/-- The first message of the daemon, when it is not what the connection waits for. -/
theorem Phase.pop {id : MessageId} {ids : List MessageId} (h : Phase s q p m rest)
    (hids : s.inMessages = id::ids) (hbuffer : s.sState = S_STATE_READY → id ≠ .buffer)
    (hchunkio : s.sState = S_STATE_READ_CHUNK → id ≠ .chunkio) :
    Phase (s.withControl { s.toControl with inMessages := ids }) q p m rest := by
  refine h.of_same rfl rfl rfl rfl (fun hstate hmem => ?_) fun hstate hmem => ?_
  · rw [hids, List.mem_cons] at hmem
    exact hmem.resolve_left (hbuffer hstate).symm
  · rw [hids, List.mem_cons] at hmem
    exact hmem.resolve_left (hchunkio hstate).symm

theorem Receives.withControl (h : Receives s q p) {k : Control} (hk : k.dState = s.dState) :
    Receives (s.withControl k) q p :=
  ⟨h.session, h.buffer, h.terminated, h.packet, hk.trans h.dState, h.backed⟩

theorem nextMessage_hands (h : Receives s q p) (hphase : Phase s q p m rest)
    (halloc : env.alloc = true) :
    s.nextMessage env = s ∨ ∃ f m' n, s.session.next m rest = some (f,m',n) ∧
      Hands s (s.nextMessage env) f m' (rest.drop n) := by
  cases hphase with
  | ready state messages none wakes => exact Or.inl (by rw [nextMessage, messages])
  | filling state messages chunk left wakes => exact Or.inl (by rw [nextMessage, messages])
  | packet state messages framed =>
    refine Or.inr ⟨.packet p, s.session.afterPacket p, p.length, ?_, ?_⟩
    · rw [Session.next, framed, Option.map_some, List.take_left]
    · rw [List.drop_left, nextMessage, messages]
      dsimp only [dispatch]
      have hrec := h.withControl (k := { s.toControl with messages := [] }) rfl
      have hhands := connPacketHandler_hands hrec rfl halloc state
      exact ⟨hhands.session, hhands.received, hhands.handed, hhands.stands⟩
  | @data f state messages chunk some =>
    refine Or.inr ⟨.chunk f, s.session.afterChunk p f, f.length, ?_, ?_⟩
    · have hpos := List.length_pos_iff.mpr some
      rw [Session.next, if_pos ⟨hpos, by rw [List.length_append]; omega⟩, List.take_left]
    · rw [List.drop_left, nextMessage, messages]
      dsimp only [dispatch]
      have hrec := h.withControl (k := { s.toControl with messages := [] }) rfl
      have hhands := connDataHandler_hands hrec rfl halloc state chunk
      exact ⟨hhands.session, hhands.received, hhands.handed, hhands.stands⟩

/-- A message about the buffer finds no stale delimiter, and the packet at the front fits. -/
def BufferFits (s : RecvConn) : Prop :=
  s.inMessages.head? = some .buffer → s.sState = S_STATE_READY →
    s.NotStale ∧ s.SearchFits s.buffer.bytes

theorem connBufferHandler_ready (h : Receives s q []) (hstate : s.sState = S_STATE_READY)
    (hmessages : s.messages = []) (halloc : env.alloc = true) (hstale : s.NotStale)
    (hfits : s.SearchFits q) :
    Stands (s.connBufferHandler env) .packet q ∧ SameRecord s (s.connBufferHandler env) := by
  unfold connBufferHandler
  rw [h.dState, if_neg (by decide), if_pos hstate]
  exact connPacketReader_stands h hstate hmessages halloc (fun _ => hstale) hfits.1 hfits.2

theorem connBufferHandler_busy (h : s.sState ≠ S_STATE_READY) : s.connBufferHandler env = s := by
  unfold connBufferHandler
  rw [if_neg h, ite_self]

theorem connChunkioHandler_filling (env : RecvEnv) {f : List UInt8} {n : ℕ} (h : Receives s q p)
    (hstate : s.sState = S_STATE_READ_CHUNK) (hmessages : s.messages = [])
    (hchunk : s.chunk.Filled f n) (hleft : 0 < s.chunk.left) :
    Stands (s.connChunkioHandler env) (.chunk p n) (f ++ q) ∧
      SameRecord s (s.connChunkioHandler env) := by
  have hother : ¬ s.sState = S_STATE_CHUNK_READING := by rw [hstate]; decide
  unfold connChunkioHandler
  rw [h.dState, if_neg (by decide), if_neg hother, if_pos hstate]
  exact connReadChunk'_stands h hstate hmessages hchunk hleft env.openOk

theorem connChunkioHandler_other (h : Stands s m rest) (hstate : s.sState ≠ S_STATE_READ_CHUNK) :
    s.connChunkioHandler env = s := by
  unfold connChunkioHandler
  rw [if_neg h.not_chunkReading, if_neg hstate, ite_self]

theorem nextInMessage_stands (h : Receives s q p) (hphase : Phase s q p m rest)
    (halloc : env.alloc = true) (hfits : s.BufferFits) :
    Stands (s.nextInMessage env) m rest ∧ SameRecord s (s.nextInMessage env) := by
  cases hids : s.inMessages with
  | nil =>
    rw [nextInMessage, hids]
    exact ⟨⟨q, p, h, hphase⟩, .rfl' s⟩
  | cons id ids =>
    rw [nextInMessage, hids]
    dsimp only
    have hrec := h.withControl (k := { s.toControl with inMessages := ids }) rfl
    have hpop (hbuffer : s.sState = S_STATE_READY → id ≠ .buffer)
        (hchunkio : s.sState = S_STATE_READ_CHUNK → id ≠ .chunkio) :
        Stands (s.withControl { s.toControl with inMessages := ids }) m rest :=
      ⟨q, p, hrec, hphase.pop hids hbuffer hchunkio⟩
    have hsame : SameRecord s (s.withControl { s.toControl with inMessages := ids }) := ⟨rfl,rfl,rfl⟩
    by_cases hready : s.sState = S_STATE_READY ∧ id = .buffer
    · obtain ⟨hstate, rfl⟩ := hready
      obtain ⟨hstale, hsearch⟩ := hfits (by rw [hids]; rfl) hstate
      rw [h.buffer.bytes_eq] at hsearch
      cases hphase with
      | ready state messages none wakes =>
        subst none
        obtain ⟨hstands, hsame⟩ := connBufferHandler_ready hrec state messages halloc hstale hsearch
        exact ⟨hstands, hsame.session, hsame.received, hsame.handed⟩
      | packet state => exact absurd (hstate.symm.trans state) (by decide)
      | filling state => exact absurd (hstate.symm.trans state) (by decide)
      | data state => exact absurd (hstate.symm.trans state) (by decide)
    · by_cases hfilling : s.sState = S_STATE_READ_CHUNK ∧ id = .chunkio
      · obtain ⟨hstate, rfl⟩ := hfilling
        cases hphase with
        | ready state => exact absurd (hstate.symm.trans state) (by decide)
        | packet state => exact absurd (hstate.symm.trans state) (by decide)
        | filling state messages chunk left wakes =>
          obtain ⟨hstands, hsame⟩ := connChunkioHandler_filling env hrec state messages chunk left
          exact ⟨hstands, hsame.session, hsame.received, hsame.handed⟩
        | data state => exact absurd (hstate.symm.trans state) (by decide)
      · have hstands := hpop (fun hs hid => hready ⟨hs, hid⟩) fun hs hid => hfilling ⟨hs, hid⟩
        have hskip : dispatchIn env (s.withControl { s.toControl with inMessages := ids }) id =
            s.withControl { s.toControl with inMessages := ids } := by
          cases id with
          | buffer => exact connBufferHandler_busy fun hs => hready ⟨hs, rfl⟩
          | chunkio => exact connChunkioHandler_other hstands fun hs => hfilling ⟨hs, rfl⟩
          | _ => rfl
        rw [hskip]
        exact ⟨hstands, hsame⟩

end

/-! ### Runs -/

/-- The handlers of the session `c` have been given what its stream starts with, and the connection
keeps the bytes behind it. -/
def Sound (c : Session) (s : RecvConn) : Prop :=
  s.session = c ∧ ∃ m rest, Stands s m rest ∧ c.deframer.Tracks .packet s.received s.handed m rest

end RecvConn

/-- Read events with data, and the messages of both queues, while memory is to be had. -/
def RecvStep.Ordinary : RecvStep → Prop
  | .read env => RecvConn.ReadsData env
  | .message env => env.alloc = true
  | .inMessage env => env.alloc = true
  | _ => False

/-- The condition of the steps that search for a packet or fill a chunk. -/
def FramesFit (s : RecvConn) : RecvStep → Prop
  | .read env => s.ReadFits env
  | .inMessage _ => s.BufferFits
  | _ => True

namespace RecvConn

section
variable {c : Session} {s s' : RecvConn}

theorem Fresh.sound (h : Fresh s) (hf : s.session.Framed) : Sound s.session s := by
  refine ⟨rfl, .packet, [], ⟨[], [], ⟨hf, h.buffer, ?_, h.packet, h.dState, h.chunk⟩, ?_⟩, ?_⟩
  · intro d _ hpos
    rw [h.buffer.ndata_eq] at hpos
    exact absurd hpos (lt_irrefl 0)
  · refine .ready h.sState h.messages rfl fun hne => ?_
    cases hn : s.session.frameLen [] with
    | none => exact absurd hn hne
    | some n =>
      obtain ⟨hpos, hle⟩ := Session.frameLen_bounds hn
      exact absurd hle (not_le.mpr hpos)
  · rw [h.received, h.handed]
    exact .start

theorem Sound.feeds {m : Mode} {rest : List UInt8} (hc : s.session = c)
    (htracks : c.deframer.Tracks .packet s.received s.handed m rest) (h : Feeds s s' m rest) :
    Sound c s' := by
  obtain ⟨got, hstands, hreceived⟩ := h.arrived
  refine ⟨h.session.trans hc, m, rest ++ got, hstands, ?_⟩
  rw [hreceived, h.handed]
  exact htracks.feed got

/-- Each step keeps the handlers in step with the stream. -/
theorem Sound.apply (h : Sound c s) (l : RecvStep) (ho : l.Ordinary) (hfits : FramesFit s l) :
    Sound c (l.apply s) := by
  obtain ⟨hc, m, rest, ⟨q, p, hrec, hphase⟩, htracks⟩ := h
  cases l with
  | read env => exact .feeds hc htracks (readEvent_feeds hrec hphase ho hfits)
  | message env =>
    obtain heq | ⟨f, m', n, hnext, hhands⟩ := nextMessage_hands hrec hphase ho
    · rw [RecvStep.apply, heq]
      exact ⟨hc, m, rest, ⟨q, p, hrec, hphase⟩, htracks⟩
    · refine ⟨hhands.session.trans hc, m', rest.drop n, hhands.stands, ?_⟩
      rw [hc] at hnext
      rw [RecvStep.apply, hhands.received, hhands.handed]
      exact htracks.hand hnext
  | inMessage env =>
    obtain ⟨hstands, hsame⟩ := nextInMessage_stands hrec hphase ho hfits
    exact .feeds hc htracks (.of_same hstands hsame)
  | call env choice => exact ho.elim
  | bindProxy => exact ho.elim
  | shut dState eState => exact ho.elim

/-- Without a message pending, no frame is complete that has not been handed over. -/
theorem Stands.quiet {m : Mode} {rest : List UInt8} (h : Stands s m rest) (hm : s.messages = [])
    (hin : s.inMessages = []) : s.session.next m rest = none := by
  obtain ⟨q, p, hrec, hphase⟩ := h
  cases hphase with
  | ready state messages none wakes =>
    cases hn : s.session.frameLen rest with
    | none => rw [Session.next, hn]; rfl
    | some n =>
      have hwake := wakes (by rw [hn]; exact Option.some_ne_none n)
      rw [hin] at hwake
      cases hwake
  | packet state messages => exact absurd (hm.symm.trans messages) (List.cons_ne_nil _ _).symm
  | @filling f n state messages chunk left wakes =>
    have hq : q = [] := by
      by_contra hne
      have hwake := wakes hne
      rw [hin] at hwake
      cases hwake
    have hall := chunk.left
    rw [Session.next, hq, List.append_nil, if_neg fun hc => ?_]
    omega
  | data state messages => exact absurd (hm.symm.trans messages) (List.cons_ne_nil _ _).symm

end

end RecvConn

/-- However the stream is cut into reads, and in whatever order reads and messages are handled, the
packets and chunks handed over are a prefix of the parse of the whole stream, and all of the parse of
what was received when no message is pending. -/
theorem framing_independent {s t : RecvConn} {ls : List RecvStep} (h : RecvConn.Fresh s)
    (hf : s.session.Framed)
    (run : Run (Guarded (fun s l => l.Ordinary ∧ FramesFit s l) (ofFun RecvStep.apply)) s ls t) :
    (∀ more, t.handed <+: s.session.deframer.parse .packet (t.received ++ more)) ∧
      (t.messages = [] → t.inMessages = [] →
        t.handed = s.session.deframer.parse .packet t.received) := by
  obtain ⟨hc, m, rest, hstands, htracks⟩ := run.invariant (RecvConn.Sound s.session) (h.sound hf) (by
    rintro a l _ ha ⟨⟨ho, hfits⟩, rfl⟩
    exact ha.apply l ho hfits)
  refine ⟨htracks.safe, fun hm hin => htracks.complete ?_⟩
  rw [← hc]
  exact hstands.quiet hm hin

theorem pairSession_framed : pairSession.Framed where
  rule := Or.inl ⟨rfl, by decide⟩
  quick := rfl
  packets := ⟨_, rfl, fun _ => Nat.one_pos⟩
  chunks := ⟨_, rfl, fun _ _ => trivial⟩

theorem socketHas_readsData {bs : List UInt8} (hbs : bs ≠ []) : RecvConn.ReadsData (socketHas bs) :=
  ⟨rfl, ⟨bs, hbs, rfl⟩, 1, rfl⟩

/-- A packet and its chunk in one read, with all messages handled. -/
def pairHandled : List RecvStep :=
  [.read (socketHas [97,98]), .message (socketHas []), .inMessage (socketHas []),
    .message (socketHas [])]

theorem framing_independent_pair :
    (pairHandled.foldl RecvStep.apply (RecvConn.start pairSession)).handed =
      pairSession.deframer.parse .packet [97,98] := by
  have hallowed : Allowed (fun s l => l.Ordinary ∧ FramesFit s l) RecvStep.apply
      (RecvConn.start pairSession) pairHandled := by
    refine ⟨⟨socketHas_readsData (by decide), fun hr => absurd hr (by decide), fun _ => ?_⟩,
      ⟨rfl, trivial⟩, ⟨rfl, ?_⟩, ⟨rfl, trivial⟩, trivial⟩
    · refine ⟨fun htype => absurd htype (by decide), fun n hn => ?_⟩
      have hone : pairSession.frameLen [97,98] = some 1 := by decide
      obtain rfl : 1 = n := Option.some.inj (hone.symm.trans hn)
      decide
    · exact fun hhead => absurd hhead (by decide)
  exact (framing_independent (RecvConn.start_fresh pairSession) pairSession_framed
    hallowed.run).2 (by decide) (by decide)

/-- Packets that end in a line feed. -/
def lineSession : Session where
  packetType := PACKET_DELIMITER
  packetLength := 0
  packetDelimiter := some [10]
  packetDelimiterLength := 1
  useOOB := false
  packetReader := none
  quickHandler := none
  chunkReader := none
  oobHandler := none
  packetHandler := some fun _ => .finish
  dataHandler := some fun _ _ => .finish
  fileHandler := none

/-- The message about the buffer is handled when the next read has already taken the packet. -/
def lineTwice : List RecvStep :=
  [.read (socketHas [97,10,98]), .message (socketHas []), .read (socketHas [10]),
    .message (socketHas []), .inMessage (socketHas []), .message (socketHas [])]

/-- The second of two lines is handed over twice, from the old bytes of the emptied buffer. -/
theorem framing_duplicates :
    ¬ ∀ s ls t, RecvConn.Fresh s → s.session.Framed →
      Run (Guarded (fun _ l => l.Ordinary) (ofFun RecvStep.apply)) s ls t →
      t.messages = [] → t.inMessages = [] →
        t.handed = s.session.deframer.parse .packet t.received := by
  intro hall
  have hframed : lineSession.Framed :=
    ⟨Or.inr ⟨rfl, [10], rfl, by decide, by decide, rfl⟩, rfl, ⟨_, rfl, fun _ => trivial⟩,
      ⟨_, rfl, fun _ _ => trivial⟩⟩
  have hallowed : Allowed (fun _ l => l.Ordinary) RecvStep.apply (RecvConn.start lineSession)
      lineTwice :=
    ⟨socketHas_readsData (by decide), rfl, socketHas_readsData (by decide), rfl, rfl, rfl, trivial⟩
  have hbad := hall _ _ _ (RecvConn.start_fresh lineSession) hframed hallowed.run
    (by decide +kernel) (by decide +kernel)
  revert hbad
  decide +kernel

end Sbase
