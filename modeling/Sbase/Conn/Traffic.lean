import Sbase.Conn.ReadHandler
import Sbase.Conn.SendStream

/-! The counters `sent_data_total` and `recv_data_total` of a connection, against what the socket has taken
and what it has delivered. -/
namespace Sbase
open Memory Runs

namespace SendConn

/-- The counter and what it counts, left as they are. -/
structure SameTraffic (s s' : SendConn) : Prop where
  total : s'.sentDataTotal = s.sentDataTotal
  wire : s'.wire = s.wire

/-- What the socket takes in a call of a write handler. -/
def socketTakes (fs : FileSystem) (s : SendConn) (e : Send) : ℕ :=
  if connCheck s.dState (D_STATE_CLOSE ||| D_STATE_WCLOSE) then 0
  else if 0 < s.nsendq then
    match s.qhead with
    | some b => if (s.qblocks b).left ≠ 0 then (s.writeCall fs b e).bytes.length else 0
    | none => 0
  else 0

/-- The bytes that the first block of the queue still has to send. -/
def headLeft (s : SendConn) : ℕ := s.qhead.elim 0 fun b => (s.qblocks b).left

/-- The total is the number of bytes that the socket has taken. -/
def Counted (s : SendConn) : Prop := s.sentDataTotal = s.wire.length

variable {fs : FileSystem} {s t u : SendConn} {b : ℕ} {e : Send}

theorem SameTraffic.refl (s : SendConn) : SameTraffic s s := ⟨rfl,rfl⟩

theorem SameTraffic.trans (h : SameTraffic s t) (k : SameTraffic t u) : SameTraffic s u :=
  ⟨k.total.trans h.total,k.wire.trans h.wire⟩

theorem SameTraffic.counted (h : SameTraffic s t) : t.Counted ↔ s.Counted := by
  rw [Counted,Counted,h.total,h.wire]

/-! ### What leaves the counter alone -/

theorem connPopchunk_traffic (s : SendConn) : SameTraffic s s.connPopchunk.1 := by
  rw [connPopchunk]
  cases s.qleft <;> exact ⟨rfl,rfl⟩

theorem connPushtoSendq_traffic (s : SendConn) (b : ℕ) : SameTraffic s (s.connPushtoSendq b) := by
  rw [connPushtoSendq]
  cases s.qtail <;> exact ⟨rfl,rfl⟩

theorem popFree_traffic (s : SendConn) : SameTraffic s s.popFree := by
  rw [popFree,connPopfromSendq]
  cases s.qhead <;> exact ⟨rfl,rfl⟩

theorem outeventMessage_traffic (s : SendConn) : SameTraffic s s.outeventMessage := by
  rw [outeventMessage]
  split_ifs <;> exact ⟨rfl,rfl⟩

theorem outeventAdd_traffic (s : SendConn) : SameTraffic s s.outeventAdd := by
  rw [outeventAdd]
  split_ifs <;> exact ⟨rfl,rfl⟩

theorem outeventDel_traffic (s : SendConn) : SameTraffic s s.outeventDel := by
  rw [outeventDel]
  split_ifs <;> exact ⟨rfl,rfl⟩

theorem finishWrite_traffic (s : SendConn) (chunkOver : Bool) : SameTraffic s (s.finishWrite chunkOver) := by
  have hdel := outeventDel_traffic s
  rw [finishWrite]
  dsimp only
  split_ifs
  · exact hdel.trans ⟨rfl,rfl⟩
  · exact hdel.trans ⟨rfl,rfl⟩
  · exact hdel.trans ⟨rfl,rfl⟩
  · exact .refl s

theorem writeDone_traffic (s : SendConn) (b : ℕ) (chunkOver : Bool) :
    SameTraffic s (s.writeDone b chunkOver) := by
  have hpop : SameTraffic s (if (s.qblocks b).left = 0 then s.popFree else s) := by
    split_ifs
    · exact popFree_traffic s
    · exact .refl s
  rw [writeDone]
  generalize (if (s.qblocks b).left = 0 then s.popFree else s) = t at hpop
  cases t.qhead with
  | none => exact hpop.trans (finishWrite_traffic t chunkOver)
  | some c =>
    dsimp only
    split_ifs
    · exact (hpop.trans (popFree_traffic t)).trans (finishWrite_traffic _ true)
    · exact hpop.trans (finishWrite_traffic t chunkOver)

theorem setChunk_traffic (s : SendConn) (b : ℕ) (c : Chunk) : SameTraffic s (s.setChunk b c) := ⟨rfl,rfl⟩

theorem pushed_traffic (s : SendConn) (b : ℕ) (c : Chunk) :
    SameTraffic s (((s.connPopchunk.1.setChunk b c).connPushtoSendq b).outeventMessage) :=
  (((connPopchunk_traffic s).trans (setChunk_traffic _ b c)).trans (connPushtoSendq_traffic _ b)).trans
    (outeventMessage_traffic _)

/-! ### The write handlers -/

/-- A call that sends returns how many bytes the socket has taken, and one that fails has sent none. -/
theorem chunkWrite_ret (c : Chunk) (e : Send) :
    (chunkWrite c e).ret.toNat = (chunkWrite c e).bytes.length := by
  rw [chunkWrite]
  cases c.data with
  | none => rfl
  | some d =>
    cases c.end with
    | none => rfl
    | some x =>
      dsimp only
      split_ifs
      · exact Int.toNat_natCast _
      · rfl
      · rfl

theorem windowWrite_ret (c : Chunk) (e : Send) :
    (windowWrite c e).ret.toNat = (windowWrite c e).bytes.length := by
  rw [windowWrite]
  cases c.mmap with
  | none => rfl
  | some w =>
    by_cases hsent : 0 < (e.take (Memory.read w c.mmoff c.mmleft)).length
    · simp only [hsent,if_true,Int.toNat_natCast]
    · simp only [hsent,if_false]
      rfl

theorem writeCall_ret (fs : FileSystem) (s : SendConn) (b : ℕ) (e : Send) :
    (s.writeCall fs b e).ret.toNat = (s.writeCall fs b e).bytes.length := by
  rw [writeCall,chunkSendto]
  split_ifs
  · exact chunkWrite_ret _ e
  · exact chunkWrite_ret _ e
  · rw [chunkWriteFromFile]
    dsimp only
    split_ifs
    · exact windowWrite_ret _ e
    · rfl
    · rfl

/-- What a write handler does with the head block. -/
theorem sendHead_spec (fs : FileSystem) (e : Send) (hleft : (s.qblocks b).left ≠ 0) :
    (s.sendHead fs b e).1.sentDataTotal = s.sentDataTotal + (s.writeCall fs b e).bytes.length ∧
      (s.sendHead fs b e).1.wire = s.wire ++ (s.writeCall fs b e).bytes ∧
      (s.sendHead fs b e).2.2.toNat = (s.writeCall fs b e).bytes.length := by
  have hret := writeCall_ret fs s b e
  refine ⟨?_,sendHead_wire hleft,?_⟩
  · rw [sendHead,if_pos hleft]
    dsimp only
    split_ifs with hpos
    · rw [← hret]
      rfl
    · change s.sentDataTotal = _
      have hle : (s.writeCall fs b e).ret ≤ 0 := not_lt.mp hpos
      omega
    · change s.sentDataTotal = _
      have hle : (s.writeCall fs b e).ret ≤ 0 := not_lt.mp hpos
      omega
  · rw [sendHead,if_pos hleft]
    dsimp only
    split_ifs with hpos
    · exact hret
    · have hle : (s.writeCall fs b e).ret ≤ 0 := not_lt.mp hpos
      change (0 : ℤ).toNat = _
      omega
    · have hle : (s.writeCall fs b e).ret ≤ 0 := not_lt.mp hpos
      change (-1 : ℤ).toNat = _
      omega

theorem chunkWrite_left (c : Chunk) (e : Send) :
    (chunkWrite c e).chunk.left = c.left - (chunkWrite c e).bytes.length := by
  rw [chunkWrite]
  cases c.data with
  | none => rfl
  | some d =>
    cases c.end with
    | none => rfl
    | some x =>
      dsimp only
      split_ifs <;> rfl

theorem windowWrite_left (c : Chunk) (e : Send) :
    (windowWrite c e).chunk.left = c.left - (windowWrite c e).bytes.length := by
  rw [windowWrite]
  cases c.mmap with
  | none => rfl
  | some w =>
    by_cases hsent : 0 < (e.take (Memory.read w c.mmoff c.mmleft)).length
    · simp only [hsent,if_true]
    · simp only [hsent,if_false]
      rfl

theorem writeCall_left (fs : FileSystem) (s : SendConn) (b : ℕ) (e : Send) :
    (s.writeCall fs b e).chunk.left = (s.qblocks b).left - (s.writeCall fs b e).bytes.length := by
  have hcheck : ∀ c : Chunk, (chunkMmap fs (chunkFileCheck true c)).left = c.left ∧
      (chunkFileCheck true c).left = c.left := by
    intro c
    rw [chunkMmap,chunkFileCheck]
    split_ifs <;> exact ⟨rfl,rfl⟩
  rw [writeCall,chunkSendto]
  split_ifs
  · exact chunkWrite_left _ e
  · exact chunkWrite_left _ e
  · rw [chunkWriteFromFile]
    dsimp only
    split_ifs
    · exact (windowWrite_left _ e).trans (by rw [(hcheck _).1])
    · exact (hcheck _).2
    · rfl

/-- What a write handler returns when the socket has taken `n` bytes: with `SB_WHILE_SEND` nothing where
they end the block. -/
def returned (whileSend : Bool) (s : SendConn) (n : ℕ) : ℕ :=
  if whileSend ∧ s.headLeft ≤ n then 0 else n

/-- A write handler counts what the socket takes. -/
structure Sends (s s' : SendConn) (n : ℕ) : Prop where
  total : s'.sentDataTotal = s.sentDataTotal + n
  wire : s'.wire.length = s.wire.length + n

theorem Sends.of_same (h : SameTraffic s t) : Sends s t 0 := ⟨h.total,congrArg List.length h.wire⟩

theorem Sends.trans {n : ℕ} (h : Sends s t n) (k : SameTraffic t u) : Sends s u n :=
  ⟨k.total.trans h.total,(congrArg List.length k.wire).trans h.wire⟩

/-- A handler that finds a head block, or an over marker, sends from it. -/
theorem sendHead_sends (fs : FileSystem) (e : Send) (hb : s.qhead = some b) (hopen : connCheck s.dState
    (D_STATE_CLOSE ||| D_STATE_WCLOSE) = false) (htotal : 0 < s.nsendq) :
    Sends s (s.sendHead fs b e).1 (s.socketTakes fs e) ∧
      (s.sendHead fs b e).2.2.toNat = s.socketTakes fs e ∧
      ((s.sendHead fs b e).1.qblocks b).left = s.headLeft - s.socketTakes fs e := by
  have htakes : s.socketTakes fs e =
      if (s.qblocks b).left ≠ 0 then (s.writeCall fs b e).bytes.length else 0 := by
    rw [socketTakes,hopen,if_neg Bool.false_ne_true,if_pos htotal,hb]
  have hhead : s.headLeft = (s.qblocks b).left := by
    rw [headLeft,hb]
    rfl
  rw [htakes,hhead]
  by_cases hleft : (s.qblocks b).left ≠ 0
  · rw [if_pos hleft]
    obtain ⟨hcount,hwire,hret⟩ := sendHead_spec fs e hleft
    refine ⟨⟨hcount,?_⟩,hret,?_⟩
    · rw [hwire,List.length_append]
    · rw [sendHead_qblocks fs s e hleft,writeCall_left]
  · rw [if_neg hleft,sendHead,if_neg hleft]
    exact ⟨.of_same (.refl s),rfl,rfl⟩

theorem connWriteHandler_sends (fs : FileSystem) (s : SendConn) (e : Send) :
    Sends s (s.connWriteHandler fs e).1 (s.socketTakes fs e) ∧
      (s.connWriteHandler fs e).2.toNat = s.socketTakes fs e := by
  rw [connWriteHandler]
  split_ifs with hclosed htotal
  · rw [socketTakes,if_pos hclosed]
    exact ⟨.of_same (.refl s),rfl⟩
  · cases hb : s.qhead with
    | none =>
      rw [socketTakes,if_neg hclosed,if_pos htotal,hb]
      exact ⟨.of_same (.refl s),rfl⟩
    | some b =>
      obtain ⟨hsends,hret,-⟩ := sendHead_sends fs e hb (by simpa using hclosed) htotal
      dsimp only
      split_ifs with hneg
      · have hzero : s.socketTakes fs e = 0 := by omega
        refine ⟨hsends,?_⟩
        rw [hzero]
        rfl
      · exact ⟨hsends.trans (writeDone_traffic _ b _),hret⟩
  · rw [socketTakes,if_neg hclosed,if_neg htotal]
    exact ⟨.of_same (outeventDel_traffic s),rfl⟩

theorem connSendHandler_sends (fs : FileSystem) (s : SendConn) (e : Send) :
    Sends s (s.connSendHandler fs e).1 (s.socketTakes fs e) ∧
      (s.connSendHandler fs e).2.toNat = s.returned true (s.socketTakes fs e) := by
  have hzero : s.returned true 0 = 0 := by
    rw [returned]
    split_ifs <;> rfl
  rw [connSendHandler]
  split_ifs with hclosed htotal
  · rw [socketTakes,if_pos hclosed,hzero]
    exact ⟨.of_same (.refl s),rfl⟩
  · cases hb : s.qhead with
    | none =>
      rw [socketTakes,if_neg hclosed,if_pos htotal,hb,hzero]
      exact ⟨.of_same (.refl s),rfl⟩
    | some b =>
      obtain ⟨hsends,hret,hleft⟩ := sendHead_sends fs e hb (by simpa using hclosed) htotal
      dsimp only
      split_ifs with hneg hover
      · have hnone : s.socketTakes fs e = 0 := by omega
        refine ⟨hsends,?_⟩
        rw [hnone,hzero]
        rfl
      · refine ⟨hsends.trans ((popFree_traffic _).trans (finishWrite_traffic _ _)),?_⟩
        rw [returned,if_pos ⟨rfl,by omega⟩]
        rfl
      · refine ⟨hsends,?_⟩
        rw [returned,if_neg fun h => hover (by omega)]
        exact hret
  · rw [socketTakes,if_neg hclosed,if_neg htotal,hzero]
    exact ⟨.of_same (outeventDel_traffic s),rfl⟩

theorem outHandler_sends (whileSend : Bool) (fs : FileSystem) (s : SendConn) (e : Send) :
    Sends s (s.outHandler whileSend fs e).1 (s.socketTakes fs e) ∧
      (s.outHandler whileSend fs e).2.toNat = s.returned whileSend (s.socketTakes fs e) := by
  rw [outHandler]
  cases whileSend with
  | true => exact connSendHandler_sends fs s e
  | false => exact connWriteHandler_sends fs s e

/-- The caller that adds what the handler returns counts the bytes again, unless that is nothing. -/
def CountsOnce (whileSend : Bool) (fs : FileSystem) (s : SendConn) (e : Send) : Prop :=
  s.socketTakes fs e = 0 ∨ whileSend ∧ s.headLeft ≤ s.socketTakes fs e

theorem Sends.counted {n : ℕ} (h : Sends s t n) (hs : s.Counted) : t.Counted := by
  rw [Counted,h.total,h.wire,hs]

/-- The end of the two handlers that add the return value to the total. -/
theorem added_counted (whileSend : Bool) (fs : FileSystem) (e : Send) (hs : s.Counted) :
    (if (s.outHandler whileSend fs e).2 < 0 then
        (s.outHandler whileSend fs e).1.outeventDel.shutError
      else { (s.outHandler whileSend fs e).1 with
        sentDataTotal := (s.outHandler whileSend fs e).1.sentDataTotal +
          (s.outHandler whileSend fs e).2.toNat }).Counted ↔ s.CountsOnce whileSend fs e := by
  obtain ⟨hsends,hret⟩ := outHandler_sends whileSend fs s e
  have hcounted := hsends.counted hs
  have honce : s.CountsOnce whileSend fs e ↔ s.returned whileSend (s.socketTakes fs e) = 0 := by
    rw [CountsOnce,returned]
    split_ifs with hall
    · exact iff_of_true (.inr hall) rfl
    · exact ⟨fun h => h.resolve_right hall,.inl⟩
  rw [honce,← hret]
  split_ifs with hneg
  · have hsame : SameTraffic (s.outHandler whileSend fs e).1
        (s.outHandler whileSend fs e).1.outeventDel.shutError :=
      (outeventDel_traffic _).trans ⟨rfl,rfl⟩
    exact iff_of_true (hsame.counted.mpr hcounted) (by omega)
  · rw [Counted]
    dsimp only
    rw [Counted] at hcounted
    omega

theorem connOutputHandler_counted {whileSend : Bool} (hs : s.Counted) :
    (s.connOutputHandler whileSend fs e).Counted ↔ s.CountsOnce whileSend fs e := by
  rw [connOutputHandler]
  exact added_counted whileSend fs e hs

theorem connOuteventHandler_counted {whileSend : Bool} (hs : s.Counted) :
    (s.connOuteventHandler whileSend fs e).Counted ↔ s.CountsOnce whileSend fs e := by
  rw [connOuteventHandler]
  split_ifs with htotal
  · have hadded := added_counted whileSend fs e hs
    dsimp only
    split_ifs with hneg hmore
    · rwa [if_pos hneg] at hadded
    · rw [if_neg hneg] at hadded
      rw [(outeventAdd_traffic _).counted]
      exact hadded
    · rwa [if_neg hneg] at hadded
  · have hnone : s.socketTakes fs e = 0 := by
      rw [socketTakes,if_neg htotal]
      split_ifs <;> rfl
    exact iff_of_true hs (.inl hnone)

theorem connEventHandler_counted (whileSend : Bool) (hs : s.Counted) :
    (s.connEventHandler whileSend fs e).Counted := by
  have hcounted := (outHandler_sends whileSend fs s e).1.counted hs
  rw [connEventHandler]
  dsimp only
  split_ifs
  · exact hs
  · exact hs
  · exact hcounted
  · exact hcounted

end SendConn

namespace SendWorld

open SendConn

variable {fs : FileSystem} {w : SendWorld}

/-- The condition on a step: an event or a message of a connection with an outdaemon, or a `MESSAGE_OUT`,
finds a socket that takes nothing, or with `SB_WHILE_SEND` one that takes all of the block. -/
def CountsOnce (fs : FileSystem) (w : SendWorld) : SendStep → Prop
  | .write whileSend e => w.conn.outdaemon → w.conn.CountsOnce whileSend fs e
  | .out whileSend e => w.conn.drainMessages.head? = some .out → w.conn.CountsOnce whileSend fs e
  | _ => True

theorem takeDrainMessage_counts (fs : FileSystem) (s : SendConn) (whileSend : Bool) (e : Send) :
    (s.takeDrainMessage.CountsOnce whileSend fs e ↔ s.CountsOnce whileSend fs e) ∧
      SameTraffic s s.takeDrainMessage := by
  rw [takeDrainMessage]
  split_ifs <;> exact ⟨Iff.rfl,rfl,rfl⟩

/-- The steps that do not write leave the counter alone. -/
theorem step_traffic (l : SendStep) (hwrite : ∀ whileSend e, l ≠ .write whileSend e)
    (hout : ∀ whileSend e, l ≠ .out whileSend e) : SameTraffic w.conn (l.apply fs w).conn := by
  cases l with
  | pushChunk alloc junk data =>
    change SameTraffic w.conn (w.conn.connPushChunk alloc junk data).1
    rw [connPushChunk]
    split_ifs
    · exact pushed_traffic ..
    · exact .refl _
  | pushFile filename offset size =>
    change SameTraffic w.conn (w.conn.connPushFile filename offset size).1
    rw [connPushFile]
    split_ifs
    · exact pushed_traffic ..
    · exact .refl _
  | newchunk alloc junk len =>
    change SameTraffic w.conn (w.conn.connNewchunk alloc junk len).1
    have hpop := connPopchunk_traffic w.conn
    rw [connNewchunk]
    dsimp only
    split_ifs
    · exact hpop.trans ⟨rfl,rfl⟩
    · exact hpop.trans ⟨rfl,rfl⟩
    · exact .refl _
  | mnewchunk alloc junk len =>
    change SameTraffic w.conn (w.conn.connMnewchunk alloc junk len).1
    have hpop := connPopchunk_traffic w.conn
    rw [connMnewchunk]
    dsimp only
    split_ifs
    · split
      · exact hpop.trans ⟨rfl,rfl⟩
      · exact hpop.trans ⟨rfl,rfl⟩
    · exact .refl _
  | fill b off bs =>
    change SameTraffic w.conn (w.fill b off bs).conn
    rw [fill]
    split_ifs <;> exact ⟨rfl,rfl⟩
  | sendChunk b len =>
    have hsend : SameTraffic w.conn (w.conn.connSendChunk b len).1 := by
      rw [connSendChunk]
      split_ifs
      · exact ((setChunk_traffic _ b _).trans (connPushtoSendq_traffic _ b)).trans (outeventMessage_traffic _)
      · exact .refl _
    change SameTraffic w.conn (w.sendChunk b len).conn
    rw [sendChunk]
    dsimp only
    split_ifs
    · exact hsend
    · exact hsend
    · exact .refl _
  | freechunk b =>
    change SameTraffic w.conn (w.freechunk b).conn
    rw [freechunk]
    split_ifs <;> exact ⟨rfl,rfl⟩
  | overChunk =>
    change SameTraffic w.conn w.conn.connOverChunk.1
    rw [connOverChunk]
    split_ifs
    · exact ((connPopchunk_traffic _).trans (connPushtoSendq_traffic _ _)).trans (outeventMessage_traffic _)
    · exact .refl _
  | write whileSend e => exact absurd rfl (hwrite whileSend e)
  | out whileSend e => exact absurd rfl (hout whileSend e)
  | message disposal =>
    change SameTraffic w.conn (w.message disposal).conn
    rw [message]
    cases w.conn.messages with
    | nil => exact .refl _
    | cons id rest =>
      let s : SendConn := { w.conn with messages := rest }
      have hend : SameTraffic s s.connEndHandler := by
        rw [connEndHandler]
        split_ifs
        · exact .refl s
        · exact outeventMessage_traffic s
        · exact .refl s
      have hfree : SameTraffic s (s.connFreeHandler disposal) := by
        cases disposal <;> simp only [connFreeHandler] <;> split_ifs <;> exact ⟨rfl,rfl⟩
      cases id with
      | «end» => exact SameTraffic.trans (t := s) ⟨rfl,rfl⟩ hend
      | free => exact SameTraffic.trans (t := s) ⟨rfl,rfl⟩ hfree
      | _ => exact ⟨rfl,rfl⟩

/-- A step keeps the total right exactly where it counts what it sends once. -/
theorem step_counted_iff (hw : w.conn.Counted) (l : SendStep) :
    (l.apply fs w).conn.Counted ↔ w.CountsOnce fs l := by
  cases l with
  | write whileSend e =>
    change (w.conn.writeEvent whileSend fs e).Counted ↔ (w.conn.outdaemon → _)
    rw [writeEvent]
    split_ifs with hout
    · rw [connOutputHandler_counted hw]
      exact ⟨fun h _ => h,fun h => h hout⟩
    · exact iff_of_true (connEventHandler_counted whileSend hw) fun h => absurd h hout
  | out whileSend e =>
    obtain ⟨honce,hsame⟩ := takeDrainMessage_counts fs w.conn whileSend e
    change (w.out whileSend fs e).conn.Counted ↔ (w.conn.drainMessages.head? = some .out → _)
    rw [out]
    cases w.conn.drainMessages with
    | nil => exact iff_of_true hw nofun
    | cons id rest =>
      dsimp only
      split_ifs with hid
      · rw [connOuteventHandler_counted (hsame.counted.mpr hw),honce]
        exact ⟨fun h _ => h,fun h => h (by rw [hid]; rfl)⟩
      · refine iff_of_true (hsame.counted.mpr hw) fun h => absurd ?_ hid
        exact Option.some.inj h
  | _ =>
    refine iff_of_true ((SameTraffic.counted ?_).mpr hw) trivial
    apply step_traffic
    · intro _ _ h
      cases h
    · intro _ _ h
      cases h

end SendWorld

/-! ### What the socket has delivered -/

namespace RecvConn

variable {s : RecvConn} {env : RecvEnv}

theorem connReadChunk'_received (openOk : Bool) (s : RecvConn) :
    (s.connReadChunk' openOk).1.received = s.received := by
  rw [connReadChunk']
  split_ifs
  · dsimp only
    split_ifs <;> rfl
  · rfl

theorem connChunkReading_received (env : RecvEnv) (s : RecvConn) :
    (s.connChunkReading env).1.received = s.received := by
  rw [connChunkReading]
  cases s.session.chunkReader with
  | none => rfl
  | some reader =>
    dsimp only
    split_ifs
    · exact connReadChunk'_received env.openOk _
    · rfl

theorem connPacketReader_received (env : RecvEnv) (s : RecvConn) :
    (s.connPacketReader env).1.received = s.received := by
  rw [connPacketReader]
  dsimp only
  split_ifs
  · rfl
  · rfl
  · exact connReadChunk'_received env.openOk _
  · rfl
  · rfl
  · rfl

theorem connProxyHandler_received (peer : Bool) (s : RecvConn) :
    (s.connProxyHandler peer).1.received = s.received := by
  rw [connProxyHandler]
  dsimp only
  split_ifs <;> rfl

theorem readData_received (env : RecvEnv) (s : RecvConn) : (s.readData env).1.received = s.received := by
  have hproxy : (if s.session.packetType &&& PACKET_PROXY ≠ 0 then
      s.connProxyHandler env.peer else (s,-1)).1.received = s.received := by
    split_ifs
    · exact connProxyHandler_received env.peer s
    · rfl
  rw [readData]
  dsimp only
  generalize (if s.session.packetType &&& PACKET_PROXY ≠ 0 then s.connProxyHandler env.peer
    else (s,-1)) = p at hproxy
  have hpacket : (if p.1.sState = S_STATE_READY ∧ p.1.packet.ndata = 0 then
      (p.1.connPacketReader env).1 else p.1).received = s.received := by
    split_ifs
    · exact (connPacketReader_received env p.1).trans hproxy
    · exact hproxy
  generalize (if p.1.sState = S_STATE_READY ∧ p.1.packet.ndata = 0 then
    (p.1.connPacketReader env).1 else p.1) = t at hpacket
  split_ifs
  · exact hproxy
  · exact (connChunkReading_received env t).trans hpacket
  · exact hpacket

theorem awaitChunk_received (openOk : Bool) (s : RecvConn) : (awaitChunk openOk s).received = s.received := by
  rw [awaitChunk]
  dsimp only
  split_ifs
  · exact connReadChunk'_received openOk _
  · rfl

theorem choose_received (env : RecvEnv) (s : RecvConn) (choice : Choice) :
    (choose env s choice).received = s.received := by
  cases choice with
  | finish => rfl
  | recvChunk size =>
    rw [choose,connRecvChunk]
    split_ifs
    · exact awaitChunk_received env.openOk _
    · rfl
  | recv2Chunk size data => exact awaitChunk_received env.openOk _
  | recvFile filename offset size =>
    rw [choose,connRecvFile]
    split_ifs
    · exact awaitChunk_received env.openOk _
    · rfl
  | readChunk =>
    rw [choose,connReadChunk]
    dsimp only
    split_ifs
    · exact connChunkReading_received env _
    · rfl

theorem sessionReset_received (s : RecvConn) : s.sessionReset.received = s.received := by
  rw [sessionReset]
  dsimp only
  split_ifs <;> rfl

theorem connPacketHandler_received (env : RecvEnv) (s : RecvConn) :
    (s.connPacketHandler env).received = s.received := by
  rw [connPacketHandler]
  cases s.session.packetHandler with
  | none => split_ifs <;> rfl
  | some handler =>
    have hchoice := choose_received env { s with handed := s.handed ++ [.packet s.packet.bytes] }
      (handler s.packet.bytes)
    dsimp only
    split_ifs
    · rfl
    · exact (sessionReset_received _).trans hchoice
    · exact hchoice

theorem handler_received {α : Type} (env : RecvEnv) (s : RecvConn) (handler : Option α) (handed : Handed)
    (choice : α → Choice) : (handler.elim s fun f =>
      RecvConn.choose env { s with handed := s.handed ++ [handed] } (choice f)).received = s.received := by
  cases handler with
  | none => rfl
  | some f => exact choose_received env _ (choice f)

theorem connDataHandler_received (env : RecvEnv) (s : RecvConn) :
    (s.connDataHandler env).received = s.received := by
  have hmem := handler_received env s s.session.dataHandler (.chunk s.chunkBytes)
    fun f => f s.packet.bytes s.chunkBytes
  have hfile := handler_received env s s.session.fileHandler (.file s.chunk.filename)
    fun f => f s.packet.bytes s.chunk.filename
  rw [connDataHandler]
  dsimp only
  split_ifs
  · rfl
  · exact connProxyHandler_received env.peer s
  · exact (sessionReset_received _).trans hmem
  · exact hmem
  · exact (sessionReset_received _).trans hfile
  · exact hfile
  · exact sessionReset_received s
  · rfl

theorem nextMessage_received (env : RecvEnv) (s : RecvConn) : (s.nextMessage env).received = s.received := by
  rw [nextMessage]
  cases s.messages with
  | nil => rfl
  | cons id rest =>
    cases id with
    | packet => exact connPacketHandler_received env _
    | data => exact connDataHandler_received env _
    | proxy => exact connProxyHandler_received env.peer _
    | _ => rfl

theorem connBufferHandler_received (env : RecvEnv) (s : RecvConn) :
    (s.connBufferHandler env).received = s.received := by
  rw [connBufferHandler]
  split_ifs
  · rfl
  · exact connPacketReader_received env s
  · rfl

theorem connChunkioHandler_received (env : RecvEnv) (s : RecvConn) :
    (s.connChunkioHandler env).received = s.received := by
  rw [connChunkioHandler]
  split_ifs
  · rfl
  · exact connChunkReading_received env s
  · exact connReadChunk'_received env.openOk s
  · rfl

theorem nextInMessage_received (env : RecvEnv) (s : RecvConn) :
    (s.nextInMessage env).received = s.received := by
  rw [nextInMessage]
  cases s.inMessages with
  | nil => rfl
  | cons id rest =>
    cases id with
    | buffer => exact connBufferHandler_received env _
    | chunkio => exact connChunkioHandler_received env _
    | _ => rfl

/-- The block of urgent data that a read event starts with. -/
def urgent (env : RecvEnv) (s : RecvConn) : MMBlock × ℤ :=
  if s.session.useOOB then mmblockRecv env.alloc s.oob env.oob else (s.oob,-1)

/-- A read event that comes to the normal data. -/
def comesToData (env : RecvEnv) (s : RecvConn) : Prop :=
  connCheck s.dState (D_STATE_RCLOSE ||| D_STATE_CLOSE) = false ∧
    ¬ (s.session.useOOB ∧ 0 < (s.urgent env).2)

instance (env : RecvEnv) (s : RecvConn) : Decidable (s.comesToData env) :=
  inferInstanceAs (Decidable (_ ∧ _))

/-- What `conn_read_handler` adds to `recv_data_total`. -/
def countedBytes (env : RecvEnv) (s : RecvConn) : ℕ :=
  if s.comesToData env then
    if s.receiving then 0
    else
      let r := mmblockRead env.alloc s.buffer env.recv
      if r.2 < 1 then 0 else r.2.toNat
  else 0

/-- The bytes that the socket delivers into a chunk. -/
def intoChunk (env : RecvEnv) (s : RecvConn) : List UInt8 :=
  if s.sState = S_STATE_READ_CHUNK then
    let c := s.chunk
    if c.type = CHUNK_MEM then
      if c.data.isSome ∧ c.end.isSome ∧ 0 < c.left then (env.recv.take c.left).1 else []
    else if c.data.isSome ∧ 0 < c.left ∧ (chunkFileCheck env.openOk c).fd then
      (env.recv.take (min c.left c.bsize)).1
    else []
  else []

/-- The bytes that a read event receives into the chunk, which the buffer has been used up for. -/
def directBytes (env : RecvEnv) (s : RecvConn) : List UInt8 :=
  if s.comesToData env then
    if s.receiving then
      let s : RecvConn := { s with oob := (s.urgent env).1 }
      let t := if 0 < s.buffer.ndata then (s.connReadChunk' env.openOk).1 else s
      if t.buffer.ndata ≤ 0 then t.intoChunk env else []
    else []
  else []

theorem connChunkRead_received (env : RecvEnv) (s : RecvConn) (n : ℤ) :
    (s.connChunkRead env n).1.received = s.received ++ s.intoChunk env := by
  have hread : (s.connReadingChunk env).1.received = s.received ++
      (if s.chunk.type = CHUNK_MEM then
        if s.chunk.data.isSome ∧ s.chunk.end.isSome ∧ 0 < s.chunk.left then
          (env.recv.take s.chunk.left).1 else []
      else if s.chunk.data.isSome ∧ 0 < s.chunk.left ∧ (chunkFileCheck env.openOk s.chunk).fd then
        (env.recv.take (min s.chunk.left s.chunk.bsize)).1
      else []) := by
    rw [connReadingChunk]
    dsimp only
    split_ifs <;> first | rfl | exact (List.append_nil _).symm
  rw [connChunkRead,intoChunk]
  by_cases hstate : s.sState = S_STATE_READ_CHUNK
  · rw [if_pos hstate,if_pos hstate,← hread]
    dsimp only
    split_ifs <;> rfl
  · rw [if_neg hstate,if_neg hstate]
    exact (List.append_nil _).symm

theorem Recv.take_count (r : Recv) (want : ℕ) : (r.take want).1.length = (r.take want).2.toNat := by
  cases r with
  | bytes bs => exact (Int.toNat_natCast _).symm
  | fail n =>
    change 0 = (-(n : ℤ)).toNat
    omega

/-- The bytes of a read into the buffer, against what the read returns. -/
theorem blockBytes_length (alloc : Bool) (m : MMBlock) (r : Recv) :
    (blockBytes alloc m r).length = (mmblockRead alloc m r).2.toNat := by
  rw [blockBytes,mmblockRead,recvInto]
  generalize readBlock alloc m = m'
  dsimp only
  cases hd : m'.data with
  | none => rfl
  | some d =>
    cases he : m'.end with
    | none => rfl
    | some e =>
      by_cases hleft : 0 < m'.left
      · simp only [Option.isSome_some,hleft,and_self,if_true]
        rw [Recv.take_count]
        split_ifs <;> rfl
      · simp only [hleft,and_false,if_false]
        rfl

theorem readBuffer_received (env : RecvEnv) (s : RecvConn) :
    (s.readBuffer env).1.received = s.received ++ blockBytes env.alloc s.buffer env.recv := by
  rw [readBuffer]
  dsimp only
  split_ifs
  · rfl
  · exact readData_received env _

theorem readChunkFirst_received (env : RecvEnv) (s : RecvConn) (n : ℤ) :
    (s.readChunkFirst env n).1.received = s.received ++
      if (if 0 < s.buffer.ndata then (s.connReadChunk' env.openOk).1 else s).buffer.ndata ≤ 0 then
        (if 0 < s.buffer.ndata then (s.connReadChunk' env.openOk).1 else s).intoChunk env
      else [] := by
  have hchunk : (if 0 < s.buffer.ndata then s.connReadChunk' env.openOk else (s,-1)).1 =
      if 0 < s.buffer.ndata then (s.connReadChunk' env.openOk).1 else s := by
    split_ifs <;> rfl
  have hreceived : (if 0 < s.buffer.ndata then (s.connReadChunk' env.openOk).1 else s).received =
      s.received := by
    split_ifs
    · exact connReadChunk'_received env.openOk s
    · rfl
  rw [readChunkFirst]
  dsimp only
  rw [← hchunk] at hreceived ⊢
  generalize (if 0 < s.buffer.ndata then s.connReadChunk' env.openOk else (s,-1)) = p at hreceived
  by_cases hempty : p.1.buffer.ndata ≤ 0
  · rw [if_pos hempty,if_pos hempty,← hreceived]
    exact connChunkRead_received env p.1 n
  · rw [if_neg hempty,if_neg hempty,List.append_nil]
    exact hreceived

/-- What a read event delivers is what it counts, and what goes into the chunk. -/
theorem readEvent_received (env : RecvEnv) (s : RecvConn) : (s.readEvent env).received.length =
    s.received.length + s.countedBytes env + (s.directBytes env).length := by
  have hevent : (s.readEvent env).received = (s.connReadHandler env).1.received := by
    rw [readEvent]
    split_ifs <;> rfl
  rw [hevent,countedBytes,directBytes,connReadHandler]
  have hurgent : (if s.session.useOOB then mmblockRecv env.alloc s.oob env.oob else (s.oob,-1)) =
    s.urgent env := rfl
  dsimp only
  rw [hurgent]
  by_cases hclosed : connCheck s.dState (D_STATE_RCLOSE ||| D_STATE_CLOSE)
  · have hno : ¬ s.comesToData env := fun h => by rw [h.1] at hclosed; cases hclosed
    rw [if_pos hclosed,if_neg hno,if_neg hno]
    rfl
  · rw [if_neg hclosed]
    by_cases hoob : s.session.useOOB ∧ 0 < (s.urgent env).2
    · have hno : ¬ s.comesToData env := fun h => h.2 hoob
      rw [if_pos hoob,if_neg hno,if_neg hno]
      rfl
    · have hyes : s.comesToData env := ⟨by simpa using hclosed,hoob⟩
      rw [if_neg hoob,if_pos hyes,if_pos hyes]
      have hreceiving : ({ s with oob := (s.urgent env).1 } : RecvConn).receiving ↔ s.receiving := Iff.rfl
      by_cases hr : s.receiving
      · rw [if_pos (hreceiving.mpr hr),if_pos hr,if_pos hr,readChunkFirst_received,List.length_append]
        rfl
      · rw [if_neg (fun h => hr (hreceiving.mp h)),if_neg hr,if_neg hr,readBuffer_received,List.length_append,
          blockBytes_length]
        change s.received.length + (mmblockRead env.alloc s.buffer env.recv).2.toNat = s.received.length +
          (if (mmblockRead env.alloc s.buffer env.recv).2 < 1 then 0
            else (mmblockRead env.alloc s.buffer env.recv).2.toNat) + 0
        split_ifs <;> omega

/-- A step outside a read event delivers nothing. -/
theorem step_received (l : RecvStep) (hread : ∀ env, l ≠ .read env) :
    (l.apply s).received = s.received := by
  cases l with
  | read env => exact absurd rfl (hread env)
  | message env => exact nextMessage_received env s
  | inMessage env => exact nextInMessage_received env s
  | call env choice => exact choose_received env s choice
  | bindProxy =>
    change s.connBindProxy.received = _
    rw [connBindProxy]
    split_ifs <;> rfl
  | shut dState eState => rfl

end RecvConn

/-- Both halves of a connection, with the counter of what it has received. -/
structure TrafficWorld where
  send : SendWorld
  recv : RecvConn
  recvDataTotal : ℕ

/-- What happens to a connection: a step of one of its halves, or a change of the states and the messages
that both of them see. -/
inductive TrafficStep
  | send (l : SendStep)
  | recv (l : RecvStep)
  | control (k : Control)

namespace TrafficWorld

def apply (fs : FileSystem) (w : TrafficWorld) : TrafficStep → TrafficWorld
  | .send l => { w with send := l.apply fs w.send }
  | .recv l => { w with recv := l.apply w.recv,
                        recvDataTotal := w.recvDataTotal +
                          match l with
                          | .read env => w.recv.countedBytes env
                          | _ => 0 }
  | .control k => { w with send := { w.send with conn := w.send.conn.withControl k },
                           recv := w.recv.withControl k }

/-- The totals are the numbers of bytes that the socket has taken and delivered. -/
structure Accounts (w : TrafficWorld) : Prop where
  sent : w.send.conn.sentDataTotal = w.send.conn.wire.length
  received : w.recvDataTotal = w.recv.received.length

/-- The condition on a step: it counts what it sends once, and receives nothing into a chunk directly. -/
def CountsOnce (fs : FileSystem) (w : TrafficWorld) : TrafficStep → Prop
  | .send l => w.send.CountsOnce fs l
  | .recv (.read env) => w.recv.directBytes env = []
  | _ => True

variable {fs : FileSystem} {w : TrafficWorld}

theorem step_iff (hw : w.Accounts) (l : TrafficStep) : (w.apply fs l).Accounts ↔ w.CountsOnce fs l := by
  cases l with
  | send l =>
    refine Iff.trans ?_ (SendWorld.step_counted_iff (w := w.send) hw.sent l)
    exact ⟨fun h => h.sent,fun h => ⟨h,hw.received⟩⟩
  | recv l =>
    cases l with
    | read env =>
      have hlength := RecvConn.readEvent_received env w.recv
      have hold := hw.received
      rw [CountsOnce,← List.length_eq_zero_iff]
      constructor
      · intro h
        have hnew : w.recvDataTotal + w.recv.countedBytes env = (w.recv.readEvent env).received.length :=
          h.received
        omega
      · intro hnone
        refine ⟨hw.sent,?_⟩
        change w.recvDataTotal + w.recv.countedBytes env = (w.recv.readEvent env).received.length
        omega
    | _ =>
      refine iff_of_true ⟨hw.sent,hw.received.trans ?_⟩ trivial
      apply congrArg List.length
      apply Eq.symm
      apply RecvConn.step_received
      intro env h
      cases h
  | control k => exact iff_of_true ⟨hw.sent,hw.received⟩ trivial

/-- In every run of a connection that has just been added, both totals are right in every state exactly where
no handler counts twice what it has sent and no read event receives into a chunk. -/
theorem traffic_iff (hsent : w.send.conn.sentDataTotal = 0 ∧ w.send.conn.wire = [])
    (hreceived : w.recvDataTotal = 0 ∧ w.recv.received = []) (ls : List TrafficStep) :
    (∀ ks, ks <+: ls → (ks.foldl (apply fs) w).Accounts) ↔ Allowed (CountsOnce fs) (apply fs) w ls := by
  apply always_iff_allowed (I := Accounts)
  · exact fun _ h => h
  · exact fun _ l h hl => (step_iff h l).mpr hl
  · exact fun _ l h hl hnew => hl ((step_iff h l).mp hnew)
  · refine ⟨?_,?_⟩
    · rw [hsent.1,hsent.2]
      rfl
    · rw [hreceived.1,hreceived.2]
      rfl

/-- A new connection, with a daemon for its output or not. -/
def added (outdaemon : Bool) : TrafficWorld where
  send := { SendWorld.opened false with conn := { (SendWorld.opened false).conn with outdaemon := outdaemon } }
  recv := RecvConn.start pairSession
  recvDataTotal := 0

/-- A byte that is pushed, and taken at a write event. -/
def pushedByte : List TrafficStep :=
  [.send (.pushChunk true (fun _ => 0) [97]), .send (.write false ⟨some 0,false⟩)]

theorem traffic_event : (pushedByte.foldl (apply fun _ _ => 0) (added false)).Accounts :=
  (traffic_iff ⟨rfl,rfl⟩ ⟨rfl,rfl⟩ pushedByte).mpr ⟨trivial,fun h => absurd h (by decide),trivial⟩ _
    (List.prefix_refl _)

/-- With an outdaemon it is counted twice. -/
theorem traffic_outdaemon : ¬ (pushedByte.foldl (apply fun _ _ => 0) (added true)).Accounts := by
  intro h
  exact absurd h.sent (by decide)

end TrafficWorld

end Sbase
