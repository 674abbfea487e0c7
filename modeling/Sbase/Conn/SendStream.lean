import Mathlib.Data.List.ReduceOption
import Sbase.Conn.SendEvents

/-! The stream of a connection: what the socket has taken is a prefix of what was queued, and an over
marker closes the connection when all before it has been sent.

The stream is a list of bytes and of over markers `none`, in queueing order. -/
namespace Sbase
open Memory SendConn Runs

/-- What a queued chunk adds to the stream: the bytes that are left of it, or the marker it is. -/
def Chunk.symbols (fs : FileSystem) (c : Chunk) : List (Option UInt8) :=
  if c.left = 0 then [none] else (c.content fs).map some

/-- The socket has taken all that was queued before some over marker, and no more. -/
def AtMarker (queued : List (Option UInt8)) (wire : List UInt8) : Prop :=
  ∃ before after, queued = before ++ none::after ∧ wire = before.reduceOption

theorem AtMarker.append {queued : List (Option UInt8)} {wire : List UInt8} (h : AtMarker queued wire)
    (more : List (Option UInt8)) : AtMarker (queued ++ more) wire := by
  obtain ⟨before, after, rfl, hw⟩ := h
  exact ⟨before, after ++ more, by simp, hw⟩

/-- The part of the stream `queued` that the socket has taken ends where the chunks of the queue
begin. Callers hold the blocks `held`, of which `granted` are theirs to fill and to send. -/
structure SendFlow (fs : FileSystem) (s : SendConn) (q held granted : List ℕ)
    (queued : List (Option UInt8)) : Prop where
  pool : PoolInv SB_QBLOCK_MAX s q held
  loaded : ∀ b ∈ q, (s.qblocks b).left ≠ 0 → (s.qblocks b).Loaded fs
  granted : ∀ b ∈ granted, (s.qblocks b).Granted
  flow : ∃ consumed, queued = consumed ++ q.flatMap (fun b => (s.qblocks b).symbols fs) ∧
    s.wire = consumed.reduceOption
  closed : s.dState = D_STATE_CLOSE → AtMarker queued s.wire

section
variable {fs : FileSystem} {s s' : SendConn} {q q' held granted : List ℕ} {b : ℕ}
  {queued : List (Option UInt8)}

theorem SendFlow.same (h : SendFlow fs s q held granted queued) (hs : SamePool s s')
    (hd : s'.dState = D_STATE_CLOSE → s.dState = D_STATE_CLOSE) :
    SendFlow fs s' q held granted queued := by
  refine ⟨h.pool.same hs, ?_, ?_, ?_, fun hc => hs.wire ▸ h.closed (hd hc)⟩
  · rw [hs.qblocks]
    exact h.loaded
  · rw [hs.qblocks]
    exact h.granted
  · rw [hs.qblocks, hs.wire]
    exact h.flow

/-- The blocks of the queue, and those granted, keep their chunks. -/
theorem SendFlow.frame (h : SendFlow fs s q held granted queued)
    (hp : PoolInv SB_QBLOCK_MAX s' q q') (hq : ∀ b ∈ q, s'.qblocks b = s.qblocks b)
    {granted' : List ℕ} (hg : ∀ b ∈ granted', (s'.qblocks b).Granted) (hw : s'.wire = s.wire)
    (hd : s'.dState = s.dState) : SendFlow fs s' q q' granted' queued := by
  refine ⟨hp, fun b hb => ?_, hg, ?_, fun hc => hw ▸ h.closed (hd ▸ hc)⟩
  · rw [hq b hb]
    exact h.loaded b hb
  · obtain ⟨consumed, hqueued, hwire⟩ := h.flow
    refine ⟨consumed, ?_, hw.trans hwire⟩
    rw [hqueued]
    congr 1
    exact List.flatMap_congr fun b hb => by rw [hq b hb]

theorem PoolInv.not_mem_queue (h : PoolInv SB_QBLOCK_MAX s q (b::held)) : b ∉ q := by
  have hnd := (List.nodup_append.mp h.nodup).2.1
  exact fun hm => List.disjoint_of_nodup_append hnd hm List.mem_cons_self

theorem PoolInv.not_mem_held (h : PoolInv SB_QBLOCK_MAX s q (b::held)) : b ∉ held := by
  have hnd := (List.nodup_append.mp h.nodup).2.1
  exact (List.nodup_cons.mp (List.nodup_append.mp hnd).2.1).1

theorem SendFlow.held_perm {held' : List ℕ} (h : SendFlow fs s q held granted queued)
    (hp : held.Perm held') : SendFlow fs s q held' granted queued :=
  ⟨h.pool.held_perm hp, h.loaded, h.granted, h.flow, h.closed⟩

theorem SendFlow.popchunk (h : SendFlow fs s q held granted queued) (hfit : PopFits s) :
    SendFlow fs s.connPopchunk.1 q (s.connPopchunk.2::held) granted queued ∧
      (s.connPopchunk.1.qblocks s.connPopchunk.2).Clean := by
  have hpop := h.pool.popchunk hfit
  have hblocks : s.connPopchunk.1.qblocks = s.qblocks := by
    unfold connPopchunk
    cases s.qleft <;> rfl
  have hwire : s.connPopchunk.1.wire = s.wire := by
    unfold connPopchunk
    cases s.qleft <;> rfl
  refine ⟨h.frame hpop.1 (fun b _ => by rw [hblocks]) ?_ hwire ?_, ?_⟩
  · rw [hblocks]
    exact h.granted
  · exact congrArg Control.dState (sameEvents_popchunk s).control
  · rw [hblocks]
    apply h.pool.clean
    intro hm
    exact hpop.2 (List.mem_append_right _ hm)

theorem SendFlow.setHeld (h : SendFlow fs s q (b::held) held queued) {c : Chunk} (hc : c.Backed) :
    SendFlow fs (s.setChunk b c) q (b::held) held queued := by
  have hne : ∀ i, i ≠ b → (s.setChunk b c).qblocks i = s.qblocks i := fun i hi => by
    simp [SendConn.setChunk, hi]
  refine h.frame (h.pool.setHeld hc) (fun i hi => hne i ?_) (fun i hi => ?_) rfl rfl
  · exact fun he => h.pool.not_mem_queue (he ▸ hi)
  · rw [hne i fun he => h.pool.not_mem_held (he ▸ hi)]
    exact h.granted i hi

/-- One of the blocks that callers hold. -/
theorem SendFlow.take (h : SendFlow fs s q held held queued) (hb : b ∈ held) :
    SendFlow fs s q (b::held.erase b) (held.erase b) queued :=
  ⟨h.pool.held_perm (List.perm_cons_erase hb), h.loaded,
    fun i hi => h.granted i (List.mem_of_mem_erase hi), h.flow, h.closed⟩

/-- The popped block becomes the caller's. -/
theorem SendFlow.grant (h : SendFlow fs s q (b::held) held queued) (hb : (s.qblocks b).Granted) :
    SendFlow fs s q (b::held) (b::held) queued :=
  ⟨h.pool, h.loaded, by simpa using ⟨hb, h.granted⟩, h.flow, h.closed⟩

theorem SendFlow.freechunk (h : SendFlow fs s q (b::held) held queued) :
    SendFlow fs (s.connFreechunk b) q held held queued := by
  have hne : ∀ i, i ≠ b → (s.connFreechunk b).qblocks i = s.qblocks i := fun i hi => by
    simp [connFreechunk, SendConn.setChunk, hi]
  refine h.frame h.pool.freechunk (fun i hi => hne i ?_) (fun i hi => ?_) rfl rfl
  · exact fun he => h.pool.not_mem_queue (he ▸ hi)
  · rw [hne i fun he => h.pool.not_mem_held (he ▸ hi)]
    exact h.granted i hi

/-- What the caller's chunk holds joins the end of the stream. -/
theorem SendFlow.pushto (h : SendFlow fs s q (b::held) held queued)
    (hb : (s.qblocks b).left ≠ 0 → (s.qblocks b).Loaded fs) :
    SendFlow fs (s.connPushtoSendq b).outeventMessage (q ++ [b]) held held
      (queued ++ (s.qblocks b).symbols fs) := by
  have hblocks : (s.connPushtoSendq b).qblocks = s.qblocks := by
    unfold connPushtoSendq
    cases s.qtail <;> rfl
  have hwire : (s.connPushtoSendq b).wire = s.wire := by
    unfold connPushtoSendq
    cases s.qtail <;> rfl
  have hd : (s.connPushtoSendq b).outeventMessage.dState = s.dState := by
    rw [← congrArg Control.dState (sameEvents_pushtoSendq s b).control]
    unfold outeventMessage
    split_ifs <;> rfl
  have hsame := samePool_outeventMessage (s.connPushtoSendq b)
  refine ⟨h.pool.pushto.same hsame, ?_, ?_, ?_, fun hc => ?_⟩
  · rw [hsame.qblocks, hblocks]
    intro i hi
    rcases List.mem_append.mp hi with hi | hi
    · exact h.loaded i hi
    · rw [List.mem_singleton.mp hi]
      exact hb
  · rw [hsame.qblocks, hblocks]
    exact h.granted
  · rw [hsame.qblocks, hblocks, hsame.wire, hwire]
    obtain ⟨consumed, hqueued, hw⟩ := h.flow
    exact ⟨consumed, by simp [hqueued], hw⟩
  · rw [hsame.wire, hwire]
    exact (h.closed (hd ▸ hc)).append _

/-! ### The write handlers -/

/-- The socket would take bytes of a file chunk of a multicast session from the memory that its block
kept from an earlier chunk. -/
def SendConn.stale (s : SendConn) (b : ℕ) (e : Send) : Prop :=
  s.multicast = true ∧ e.accept.isSome = true ∧ (s.qblocks b).left ≠ 0 ∧
    (s.qblocks b).type ≠ CHUNK_MEM ∧ (s.qblocks b).data.isSome = true

theorem writeCall_sent {e : Send} (hload : (s.qblocks b).Loaded fs) (hdata : (s.qblocks b).left ≠ 0)
    (hg : ¬ s.stale b e) : SentFrom fs (s.qblocks b) (s.writeCall fs b e) := by
  unfold SendConn.writeCall
  by_cases hm : (s.qblocks b).type = CHUNK_MEM
  · rw [if_pos hm]
    split_ifs <;> exact chunkWrite_sent hm hload e
  · rw [if_neg hm]
    split_ifs with hmulti
    · have hnone : chunkSendto (s.qblocks b) e = ⟨s.qblocks b,-1,[]⟩ := by
        unfold chunkSendto chunkWrite
        cases hd : (s.qblocks b).data with
        | none => rfl
        | some d =>
          have hacc : e.accept = none := by
            by_contra hacc
            exact hg ⟨hmulti, Option.isSome_iff_ne_none.mpr hacc, hdata, hm, hd ▸ rfl⟩
          cases (s.qblocks b).end <;> simp [Send.take, hacc]
      rw [hnone]
      exact ⟨rfl, hload, fun _ => rfl⟩
    · exact chunkWriteFromFile_sent hm hload true e

/-- The head chunk has sent a part of its bytes. -/
structure HeadSent (fs : FileSystem) (s : SendConn) (b : ℕ) (q held : List ℕ)
    (queued : List (Option UInt8)) : Prop where
  pool : PoolInv SB_QBLOCK_MAX s (b::q) held
  loaded : ∀ i ∈ b::q, (s.qblocks i).left ≠ 0 → (s.qblocks i).Loaded fs
  granted : ∀ i ∈ held, (s.qblocks i).Granted
  flow : ∃ consumed, queued = consumed ++ (((s.qblocks b).content fs).map some ++
    q.flatMap fun i => (s.qblocks i).symbols fs) ∧ s.wire = consumed.reduceOption

theorem PoolInv.head_ne (h : PoolInv SB_QBLOCK_MAX s (b::q) held) :
    (∀ i ∈ q, i ≠ b) ∧ ∀ i ∈ held, i ≠ b := by
  have hnd := (List.nodup_append.mp h.nodup).2.1
  refine ⟨fun i hi he => ?_, fun i hi he => ?_⟩
  · exact (List.nodup_cons.mp h.chain.nodup).1 (he ▸ hi)
  · exact List.disjoint_of_nodup_append hnd List.mem_cons_self (he ▸ hi)

theorem sendHead_wire {e : Send} (hdata : (s.qblocks b).left ≠ 0) :
    (s.sendHead fs b e).1.wire = s.wire ++ (s.writeCall fs b e).bytes := by
  unfold sendHead connWriteChunk
  rw [if_pos hdata]
  dsimp only
  split_ifs <;> rfl

/-- After a failed send the block is as long as before. -/
theorem sendHead_failed {e : Send} (hload : (s.qblocks b).Loaded fs)
    (hdata : (s.qblocks b).left ≠ 0) (hg : ¬ s.stale b e) (hret : (s.sendHead fs b e).2.2 < 0) :
    ((s.sendHead fs b e).1.qblocks b).left ≠ 0 := by
  have hle : (s.writeCall fs b e).ret ≤ 0 := by
    by_contra hpos
    unfold sendHead connWriteChunk at hret
    rw [if_pos hdata] at hret
    dsimp only at hret
    rw [if_pos (not_le.mp hpos)] at hret
    dsimp only at hret
    omega
  rw [sendHead_qblocks fs s e hdata, (writeCall_sent hload hdata hg).kept hle]
  exact hdata

theorem SendFlow.sendHead {e : Send} (h : SendFlow fs s (b::q) held held queued)
    (hdata : (s.qblocks b).left ≠ 0) (hg : ¬ s.stale b e) :
    HeadSent fs (s.sendHead fs b e).1 b q held queued := by
  have hsent := writeCall_sent (h.loaded b List.mem_cons_self hdata) hdata hg
  have hhead := sendHead_qblocks fs s e hdata
  have hne : ∀ i, i ≠ b → (s.sendHead fs b e).1.qblocks i = s.qblocks i :=
    fun i => sendHead_qblocks_of_ne fs s e
  obtain ⟨hq, hheld⟩ := h.pool.head_ne
  refine ⟨h.pool.sendHead fs e, fun i hi => ?_, fun i hi => ?_, ?_⟩
  · rcases List.mem_cons.mp hi with rfl | hi
    · rw [hhead]
      exact fun _ => hsent.loaded
    · rw [hne i (hq i hi)]
      exact h.loaded i (List.mem_cons_of_mem b hi)
  · rw [hne i (hheld i hi)]
    exact h.granted i hi
  · obtain ⟨consumed, hqueued, hw⟩ := h.flow
    refine ⟨consumed ++ (s.writeCall fs b e).bytes.map some, ?_, ?_⟩
    · have hrest : q.flatMap (fun i => ((s.sendHead fs b e).1.qblocks i).symbols fs) =
          q.flatMap fun i => (s.qblocks i).symbols fs :=
        List.flatMap_congr fun i hi => by rw [hne i (hq i hi)]
      rw [hqueued, hrest, hhead, List.flatMap_cons, Chunk.symbols, if_neg hdata, hsent.content]
      simp
    · rw [sendHead_wire hdata, hw, List.reduceOption_append]
      simp [List.reduceOption, List.filterMap_map]

theorem HeadSent.part (h : HeadSent fs s b q held queued) (hleft : (s.qblocks b).left ≠ 0)
    (hd : s.dState ≠ D_STATE_CLOSE) : SendFlow fs s (b::q) held held queued := by
  refine ⟨h.pool, h.loaded, h.granted, ?_, fun hc => absurd hc hd⟩
  obtain ⟨consumed, hqueued, hw⟩ := h.flow
  refine ⟨consumed, ?_, hw⟩
  rw [hqueued, List.flatMap_cons, Chunk.symbols, if_neg hleft]

theorem popFree_wire (s : SendConn) : s.popFree.wire = s.wire := by
  unfold SendConn.popFree connPopfromSendq
  cases s.qhead <;> rfl

/-- The head block is dropped when the symbols it had are consumed. -/
theorem SendFlow.dropHead (hp : PoolInv SB_QBLOCK_MAX s (b::q) held)
    (hl : ∀ i ∈ q, (s.qblocks i).left ≠ 0 → (s.qblocks i).Loaded fs)
    (hg : ∀ i ∈ held, (s.qblocks i).Granted) (consumed : List (Option UInt8))
    (hqueued : queued = consumed ++ q.flatMap fun i => (s.qblocks i).symbols fs)
    (hw : s.wire = consumed.reduceOption) (hd : s.dState ≠ D_STATE_CLOSE) :
    SendFlow fs s.popFree q held held queued := by
  obtain ⟨hq, hheld⟩ := hp.head_ne
  refine ⟨hp.popFree, fun i hi => ?_, fun i hi => ?_, ⟨consumed, ?_, (popFree_wire s).trans hw⟩,
    fun hc => absurd hc ?_⟩
  · rw [hp.popFree_qblocks (hq i hi)]
    exact hl i hi
  · rw [hp.popFree_qblocks (hheld i hi)]
    exact hg i hi
  · rw [hqueued]
    congr 1
    exact List.flatMap_congr fun i hi => by rw [hp.popFree_qblocks (hq i hi)]
  · rw [congrArg Control.dState (sameEvents_popFree s).control]
    exact hd

theorem HeadSent.sent (h : HeadSent fs s b q held queued) (hleft : (s.qblocks b).left = 0)
    (hd : s.dState ≠ D_STATE_CLOSE) : SendFlow fs s.popFree q held held queued := by
  obtain ⟨consumed, hqueued, hw⟩ := h.flow
  rw [Chunk.content_nil hleft, List.map_nil, List.nil_append] at hqueued
  exact SendFlow.dropHead h.pool (fun i hi => h.loaded i (List.mem_cons_of_mem b hi)) h.granted
    consumed hqueued hw hd

/-- An over marker is reached with all before it sent. -/
theorem SendFlow.popMarker (h : SendFlow fs s (b::q) held held queued)
    (mark : (s.qblocks b).left = 0) (hd : s.dState ≠ D_STATE_CLOSE) :
    SendFlow fs s.popFree q held held queued ∧ AtMarker queued s.popFree.wire := by
  obtain ⟨consumed, hqueued, hw⟩ := h.flow
  rw [List.flatMap_cons, Chunk.symbols, if_pos mark] at hqueued
  refine ⟨SendFlow.dropHead h.pool (fun i hi => h.loaded i (List.mem_cons_of_mem b hi)) h.granted
    (consumed ++ [none]) ?_ ?_ hd, ?_⟩
  · simpa using hqueued
  · rw [hw, List.reduceOption_append]
    simp [List.reduceOption]
  · rw [popFree_wire]
    exact ⟨consumed, _, hqueued, hw⟩

/-- The end of a write handler: nothing that the stream depends on changes but `d_state`. -/
theorem SendFlow.finishWrite (h : SendFlow fs s q held held queued) (chunkOver : Bool)
    (hm : chunkOver = true → AtMarker queued s.wire) (hd : s.dState ≠ D_STATE_CLOSE) :
    SendFlow fs (s.finishWrite chunkOver) q held held queued := by
  have hsame := samePool_finishWrite s chunkOver
  refine ⟨h.pool.same hsame, ?_, ?_, ?_, fun hc => ?_⟩
  · rw [hsame.qblocks]
    exact h.loaded
  · rw [hsame.qblocks]
    exact h.granted
  · rw [hsame.qblocks, hsame.wire]
    exact h.flow
  · rw [hsame.wire]
    cases chunkOver with
    | true => exact hm rfl
    | false =>
      apply absurd hc
      obtain ⟨hcontrol, -⟩ := outeventDel_control s
      unfold SendConn.finishWrite
      dsimp only
      rw [if_neg Bool.false_ne_true]
      split_ifs
      · rw [show (s.outeventDel.withControl (s.outeventDel.connPushMessage .end)).dState =
          s.outeventDel.dState from (connPushMessage_steady s.outeventDel.toControl .end).2.2, hcontrol]
        exact hd
      · exact hd

theorem popFree_ne_close (h : s.dState ≠ D_STATE_CLOSE) : s.popFree.dState ≠ D_STATE_CLOSE := by
  rwa [congrArg Control.dState (sameEvents_popFree s).control]

theorem writable_ne_close (h : s.writable = true) : s.dState ≠ D_STATE_CLOSE := by
  intro he
  rw [SendConn.writable, he] at h
  exact absurd h (by decide)

theorem WriteOutcome.stream {whileSend : Bool} {e : Send} {r : SendConn × ℤ}
    (o : WriteOutcome fs s whileSend e q r q') (h : SendFlow fs s q held held queued)
    (hg : s.writable = true → ∀ b ∈ q.head?, ¬ s.stale b e) :
    SendFlow fs r.1 q' held held queued := by
  have hhead : ∀ b, (s.sendHead fs b e).1.dState = s.dState := fun b =>
    congrArg Control.dState (sameEvents_sendHead fs s b e).control
  cases o with
  | refused => exact h
  | empty isOpen =>
    have hcontrol := (outeventDel_control s).1
    exact h.same (samePool_outeventDel s) fun hc => by rwa [hcontrol] at hc
  | @failed b rest isOpen data ret =>
    have hd := writable_ne_close isOpen
    have hleft := sendHead_failed (h.loaded b List.mem_cons_self data) data (hg isOpen b rfl) ret
    exact (h.sendHead data (hg isOpen b rfl)).part hleft (hhead b ▸ hd)
  | @part b rest n isOpen data left =>
    have hd := writable_ne_close isOpen
    exact (h.sendHead data (hg isOpen b rfl)).part left (hhead b ▸ hd)
  | @sent b rest n isOpen data left =>
    have hd : (s.sendHead fs b e).1.dState ≠ D_STATE_CLOSE := hhead b ▸ writable_ne_close isOpen
    have hsent := (h.sendHead data (hg isOpen b rfl)).sent left hd
    exact hsent.finishWrite false (fun hf => absurd hf Bool.false_ne_true) (popFree_ne_close hd)
  | @sentMarker b c rest n isOpen data left mark =>
    have hd : (s.sendHead fs b e).1.dState ≠ D_STATE_CLOSE := hhead b ▸ writable_ne_close isOpen
    have hsent := (h.sendHead data (hg isOpen b rfl)).sent left hd
    have hmark : ((s.sendHead fs b e).1.popFree.qblocks c).left = 0 := by
      rw [(h.pool.sendHead fs e).popFree_qblocks h.pool.next_ne,
        sendHead_qblocks_of_ne fs s e h.pool.next_ne]
      exact mark
    have hd' := popFree_ne_close hd
    obtain ⟨hflow, hat⟩ := hsent.popMarker hmark hd'
    exact hflow.finishWrite true (fun _ => hat) (popFree_ne_close hd')
  | @marker b rest isOpen mark =>
    have hd := writable_ne_close isOpen
    obtain ⟨hflow, hat⟩ := h.popMarker mark hd
    exact hflow.finishWrite true (fun _ => hat) (popFree_ne_close hd)
  | @markers b c rest isOpen mark mark' =>
    have hd := writable_ne_close isOpen
    obtain ⟨hflow, -⟩ := h.popMarker mark hd
    have hmark : (s.popFree.qblocks c).left = 0 := by
      rw [h.pool.popFree_qblocks h.pool.next_ne]
      exact mark'
    have hd' := popFree_ne_close hd
    obtain ⟨hflow', hat⟩ := hflow.popMarker hmark hd'
    exact hflow'.finishWrite true (fun _ => hat) (popFree_ne_close hd')

/-! ### Handlers -/

theorem connShut_dState (k : Control) (dState eState : ℕ) :
    (k.connShut dState eState).dState = k.dState ∨
      (k.dState = D_STATE_FREE ∧ (k.connShut dState eState).dState = k.dState ||| dState) := by
  unfold Control.connShut
  by_cases hc : closing k.dState = true
  · rw [if_pos hc]
    exact Or.inl rfl
  · rw [if_neg hc]
    by_cases hf : k.dState = D_STATE_FREE ∧ 0 < k.fd
    · rw [if_pos hf]
      exact Or.inr ⟨hf.1, rfl⟩
    · rw [if_neg hf]
      exact Or.inl rfl

/-- An output error does not close the connection as an over marker does. -/
theorem shutError_dState (h : s.shutError.dState = D_STATE_CLOSE) : s.dState = D_STATE_CLOSE := by
  obtain hsame | ⟨hfree, hshut⟩ := connShut_dState s.toControl
    (D_STATE_CLOSE ||| D_STATE_RCLOSE ||| D_STATE_WCLOSE) E_STATE_ON
  · exact hsame.symm.trans h
  · rw [hfree] at hshut
    exact absurd (hshut.symm.trans h) (by decide)

theorem outeventAdd_dState (s : SendConn) : s.outeventAdd.dState = s.dState := by
  unfold SendConn.outeventAdd
  split_ifs <;> rfl

theorem outeventMessage_dState (s : SendConn) : s.outeventMessage.dState = s.dState := by
  unfold SendConn.outeventMessage
  split_ifs <;> rfl

theorem takeDrainMessage_dState (s : SendConn) : s.takeDrainMessage.dState = s.dState := by
  unfold SendConn.takeDrainMessage
  split_ifs <;> rfl

theorem SendFlow.shutOutput (h : SendFlow fs s q held held queued) :
    SendFlow fs s.outeventDel.shutError q held held queued := by
  have hsame := (samePool_outeventDel s).trans (samePool_shutError s.outeventDel)
  refine h.same hsame fun hc => ?_
  have hd := shutError_dState hc
  rwa [(outeventDel_control s).1] at hd

theorem SendFlow.outeventHandler (h : SendFlow fs s q held held queued) (whileSend : Bool) (e : Send)
    (hg : s.writable = true → ∀ b ∈ q.head?, ¬ s.stale b e) :
    ∃ q', SendFlow fs (s.connOuteventHandler whileSend fs e) q' held held queued := by
  unfold connOuteventHandler
  obtain ⟨q', o⟩ := h.pool.outHandler whileSend fs e
  have h' := o.stream h hg
  dsimp only
  split_ifs
  · exact ⟨q', h'.shutOutput⟩
  · have hsame := samePool_outeventAdd { (s.outHandler whileSend fs e).1 with
      sentDataTotal := (s.outHandler whileSend fs e).1.sentDataTotal +
        (s.outHandler whileSend fs e).2.toNat }
    refine ⟨q', SendFlow.same ?_ hsame fun hc => ?_⟩
    · exact h'.same ⟨rfl,rfl,rfl,rfl,rfl,rfl,rfl,rfl⟩ id
    · rwa [outeventAdd_dState] at hc
  · exact ⟨q', h'.same ⟨rfl,rfl,rfl,rfl,rfl,rfl,rfl,rfl⟩ id⟩
  · exact ⟨q, h⟩

theorem SendFlow.writeEvent (h : SendFlow fs s q held held queued) (whileSend : Bool) (e : Send)
    (hg : s.writable = true → ∀ b ∈ q.head?, ¬ s.stale b e) :
    ∃ q', SendFlow fs (s.writeEvent whileSend fs e) q' held held queued := by
  unfold SendConn.writeEvent connOutputHandler connEventHandler
  obtain ⟨q', o⟩ := h.pool.outHandler whileSend fs e
  have h' := o.stream h hg
  dsimp only
  split_ifs
  · exact ⟨q', h'.shutOutput⟩
  · exact ⟨q', h'.same ⟨rfl,rfl,rfl,rfl,rfl,rfl,rfl,rfl⟩ id⟩
  · exact ⟨q, h.same ⟨rfl,rfl,rfl,rfl,rfl,rfl,rfl,rfl⟩ id⟩
  · exact ⟨q', h'.same ⟨rfl,rfl,rfl,rfl,rfl,rfl,rfl,rfl⟩ fun hc => shutError_dState hc⟩
  · exact ⟨q', h'⟩

theorem SendFlow.endHandler (h : SendFlow fs s q held held queued) :
    SendFlow fs s.connEndHandler q held held queued := by
  refine h.same (samePool_endHandler s) fun hc => ?_
  unfold connEndHandler at hc
  split_ifs at hc
  · exact hc
  · rwa [outeventMessage_dState] at hc
  · exact hc

theorem SendFlow.freeHandler (h : SendFlow fs s q held held queued) {disposal : Disposal}
    (hne : disposal ≠ .close) : SendFlow fs (s.connFreeHandler disposal) q held held queued := by
  refine h.same (samePool_freeHandler s disposal) fun hc => ?_
  unfold connFreeHandler at hc
  split_ifs at hc
  · exact hc
  · cases disposal
    · exact absurd rfl hne
    · exact hc
    · exact hc

end

/-! ### Runs -/

/-- A connection and the stream that was queued on it. -/
structure StreamWorld where
  world : SendWorld
  queued : List (Option UInt8)

/-- What a call queues: the bytes of the memory or of the range of the file, or an over marker. -/
def SendStep.adds (fs : FileSystem) (w : SendWorld) : SendStep → List (Option UInt8)
  | .pushChunk alloc junk data =>
    if (w.conn.connPushChunk alloc junk data).2 = 0 then data.map some else []
  | .pushFile filename offset size =>
    if (w.conn.connPushFile filename offset size).2 = 0 then
      (read (fs filename) offset size).map some
    else []
  | .sendChunk b len =>
    match (w.conn.qblocks b).data with
    | some d =>
      if b ∈ w.held ∧ (w.conn.connSendChunk b len).2 = 0 then (read d 0 len).map some else []
    | none => []
  | .overChunk => if w.conn.connOverChunk.2 = 0 then [none] else []
  | _ => []

def StreamWorld.apply (fs : FileSystem) (v : StreamWorld) (l : SendStep) : StreamWorld :=
  ⟨l.apply fs v.world,v.queued ++ l.adds fs v.world⟩

/-- The steps of a connection whose memory can be had and whose pool is not exhausted, on which
nobody but the write path asks for a close. -/
def Ordinary (w : SendWorld) (l : SendStep) : Prop :=
  (l.pops w.conn → PopFits w.conn) ∧
    match l with
    | .pushChunk alloc _ _ => alloc = true
    | .sendChunk b len => 0 < len ∧ len ≤ (w.conn.qblocks b).bsize
    | .message disposal => disposal ≠ .close
    | _ => True

/-- No write handler of a multicast session meets a file chunk whose block kept memory from an
earlier chunk, when the socket would take bytes. -/
def NoStaleSend (w : SendWorld) (l : SendStep) : Prop :=
  ∀ whileSend e, l = .write whileSend e ∨
      (l = .out whileSend e ∧ w.conn.drainMessages.head? = some .out) →
    w.conn.writable = true → ∀ b ∈ w.conn.qhead, ¬ w.conn.stale b e

/-- The invariant of the stream. -/
def StreamWorld.Sound (fs : FileSystem) (v : StreamWorld) : Prop :=
  ∃ q, SendFlow fs v.world.conn q v.world.held v.world.held v.queued

section
variable {fs : FileSystem} {v : StreamWorld}

theorem StreamWorld.Sound.out (h : v.Sound fs) (whileSend : Bool) (e : Send)
    (hg : NoStaleSend v.world (.out whileSend e)) :
    ∃ q, SendFlow fs (v.world.out whileSend fs e).conn q v.world.held v.world.held v.queued := by
  obtain ⟨q, h⟩ := h
  unfold SendWorld.out
  cases hm : v.world.conn.drainMessages with
  | nil => exact ⟨q, h⟩
  | cons id rest =>
    have h' := h.same (samePool_takeDrainMessage v.world.conn) fun hc => by
      rwa [takeDrainMessage_dState] at hc
    dsimp only
    split_ifs with hid
    · subst hid
      refine h'.outeventHandler whileSend e fun hw b hb hstale => ?_
      have hblocks := (samePool_takeDrainMessage v.world.conn).qblocks
      refine hg whileSend e (Or.inr ⟨rfl, by rw [hm]; rfl⟩) ?_ b ?_ ?_
      · rwa [SendConn.writable, takeDrainMessage_dState] at hw
      · rw [h.pool.head_eq]
        exact hb
      · have hmulti : v.world.conn.takeDrainMessage.multicast = v.world.conn.multicast := by
          unfold takeDrainMessage
          split_ifs <;> rfl
        rwa [SendConn.stale, hblocks, hmulti] at hstale
    · exact ⟨q, h'⟩

theorem StreamWorld.Sound.message (h : v.Sound fs) {disposal : Disposal} (hne : disposal ≠ .close) :
    ∃ q, SendFlow fs (v.world.message disposal).conn q v.world.held v.world.held v.queued := by
  obtain ⟨q, h⟩ := h
  unfold SendWorld.message
  cases hm : v.world.conn.messages with
  | nil => exact ⟨q, h⟩
  | cons id rest =>
    have h' : SendFlow fs { v.world.conn with messages := rest } q v.world.held v.world.held
        v.queued := h.same ⟨rfl,rfl,rfl,rfl,rfl,rfl,rfl,rfl⟩ fun hc => hc
    dsimp only
    split
    · exact ⟨q, h'.endHandler⟩
    · exact ⟨q, h'.freeHandler hne⟩
    · exact ⟨q, h'⟩

theorem StreamWorld.Sound.newchunk (h : v.Sound fs) (alloc : Bool) (junk : Mem) (len : ℕ)
    (hfit : 0 < len → PopFits v.world.conn) :
    ∃ q, SendFlow fs (v.world.grant (v.world.conn.connNewchunk alloc junk len)).conn q
      (v.world.grant (v.world.conn.connNewchunk alloc junk len)).held
      (v.world.grant (v.world.conn.connNewchunk alloc junk len)).held v.queued := by
  obtain ⟨q, h⟩ := h
  unfold SendWorld.grant connNewchunk
  split_ifs with hlen
  · obtain ⟨hpop, -⟩ := h.popchunk (hfit hlen)
    have hset := hpop.setHeld (chunkMem_backed (hpop.pool.backed v.world.conn.connPopchunk.2)
      alloc junk len)
    dsimp only
    split_ifs with hd
    · exact ⟨q, hset.freechunk⟩
    · refine ⟨q, hset.grant ?_⟩
      simp only [SendConn.setChunk, Function.update_self] at hd ⊢
      exact chunkMem_granted hlen hd
  · exact ⟨q, h⟩

theorem StreamWorld.Sound.mnewchunk (h : v.Sound fs) (alloc : Bool) (junk : Mem) (len : ℕ)
    (hfit : 0 < len → PopFits v.world.conn) :
    ∃ q, SendFlow fs (v.world.grant (v.world.conn.connMnewchunk alloc junk len)).conn q
      (v.world.grant (v.world.conn.connMnewchunk alloc junk len)).held
      (v.world.grant (v.world.conn.connMnewchunk alloc junk len)).held v.queued := by
  obtain ⟨q, h⟩ := h
  unfold SendWorld.grant connMnewchunk
  split_ifs with hlen
  · obtain ⟨hpop, -⟩ := h.popchunk (hfit hlen)
    have hset := hpop.setHeld (chunkMem_backed (hpop.pool.backed v.world.conn.connPopchunk.2)
      alloc junk len)
    dsimp only
    split
    · rename_i d hd
      refine ⟨q, (hset.setHeld fun _ => rfl).grant ?_⟩
      simp only [SendConn.setChunk, Function.update_self] at hd ⊢
      exact (chunkMem_granted hlen (by rw [hd]; simp)).setData _
    · exact ⟨q, hset.freechunk⟩
  · exact ⟨q, h⟩

theorem StreamWorld.Sound.fill (h : v.Sound fs) (b off : ℕ) (bs : List UInt8) :
    ∃ q, SendFlow fs (v.world.fill b off bs).conn q (v.world.fill b off bs).held
      (v.world.fill b off bs).held v.queued := by
  obtain ⟨q, h⟩ := h
  unfold SendWorld.fill
  split_ifs with hb
  · have hp := List.perm_cons_erase hb
    have hg := h.granted b hb
    obtain ⟨d, hd⟩ := Option.isSome_iff_exists.mp hg.data
    have hset := ((h.take hb).setHeld (c := { v.world.conn.qblocks b with
      data := (v.world.conn.qblocks b).data.map fun d => write d off bs }) ?_).grant ?_
    · refine ⟨q, hset.pool.held_perm hp.symm, hset.loaded, fun i hi => ?_, hset.flow, hset.closed⟩
      exact hset.granted i (hp.mem_iff.mp hi)
    · intro hs
      simp [hd]
    · simp only [SendConn.setChunk, Function.update_self]
      exact ⟨hg.type, hg.end, by simp [hd]⟩
  · exact ⟨q, h⟩

theorem StreamWorld.Sound.pushed (h : v.Sound fs) (hfit : PopFits v.world.conn) {c : Chunk}
    (hback : c.Backed) (hload : c.left ≠ 0 → c.Loaded fs) :
    ∃ q, SendFlow fs (((v.world.conn.connPopchunk.1.setChunk v.world.conn.connPopchunk.2 c).connPushtoSendq
      v.world.conn.connPopchunk.2).outeventMessage) q v.world.held v.world.held
      (v.queued ++ c.symbols fs) := by
  obtain ⟨q, h⟩ := h
  have hset := (h.popchunk hfit).1.setHeld hback
  have hblock : (v.world.conn.connPopchunk.1.setChunk v.world.conn.connPopchunk.2 c).qblocks
      v.world.conn.connPopchunk.2 = c := by
    simp [SendConn.setChunk]
  have hpush := hset.pushto (by rwa [hblock])
  rw [hblock] at hpush
  exact ⟨_, hpush⟩

theorem symbols_of_content {c : Chunk} {bs : List UInt8} {n : ℕ} (hleft : c.left = n) (hn : 0 < n)
    (hc : c.content fs = bs) : c.symbols fs = bs.map some := by
  rw [Chunk.symbols, if_neg (hleft.trans_ne hn.ne'), hc]

theorem out_held (w : SendWorld) (whileSend : Bool) (e : Send) :
    (w.out whileSend fs e).held = w.held := by
  unfold SendWorld.out
  split <;> rfl

theorem message_held (w : SendWorld) (disposal : Disposal) : (w.message disposal).held = w.held := by
  unfold SendWorld.message
  split
  · dsimp only
    split <;> rfl
  · rfl

/-- The step lemma of the stream. -/
theorem StreamWorld.Sound.step (h : v.Sound fs) (l : SendStep) (ho : Ordinary v.world l)
    (hg : NoStaleSend v.world l) : (v.apply fs l).Sound fs := by
  unfold StreamWorld.Sound StreamWorld.apply
  cases l with
  | pushChunk alloc junk data =>
    obtain ⟨hfit, rfl⟩ := ho
    by_cases hok : v.world.conn.pushable ∧ v.world.conn.status = CONN_STATUS_FREE ∧ 0 < data.length
    · simp only [SendStep.apply, SendStep.adds, connPushChunk, if_pos hok, if_true]
      have hback := (h.choose_spec.popchunk (hfit hok)).1.pool.backed v.world.conn.connPopchunk.2
      obtain ⟨hgrant, hleft, hcontent⟩ := chunkMemCopy_content fs junk hok.2.2 hback
      obtain ⟨q, hq⟩ := h.pushed (hfit hok)
        (chunkMemCopy_backed (chunkMem_backed hback true junk data.length) data)
        (fun _ => hgrant.loaded)
      rw [symbols_of_content hleft hok.2.2 hcontent] at hq
      exact ⟨q, hq⟩
    · simp only [SendStep.apply, SendStep.adds, connPushChunk, if_neg hok]
      simpa [StreamWorld.Sound] using h
  | pushFile filename offset size =>
    by_cases hok : v.world.conn.pushable ∧ v.world.conn.status = CONN_STATUS_FREE ∧ 0 < size
    · simp only [SendStep.apply, SendStep.adds, connPushFile, if_pos hok, if_true]
      have hpop := h.choose_spec.popchunk (ho.1 hok)
      obtain ⟨hleft, hload, hcontent⟩ := chunkFile_content fs filename offset hok.2.2 hpop.2
      obtain ⟨q, hq⟩ := h.pushed (ho.1 hok)
        (chunkFile_backed (hpop.1.pool.backed _) filename offset size) (fun _ => hload)
      rw [symbols_of_content hleft hok.2.2 hcontent] at hq
      exact ⟨q, hq⟩
    · simp only [SendStep.apply, SendStep.adds, connPushFile, if_neg hok]
      simpa [StreamWorld.Sound] using h
  | newchunk alloc junk len =>
    simpa [SendStep.apply, SendStep.adds] using h.newchunk alloc junk len ho.1
  | mnewchunk alloc junk len =>
    simpa [SendStep.apply, SendStep.adds] using h.mnewchunk alloc junk len ho.1
  | fill b off bs => simpa [SendStep.apply, SendStep.adds] using h.fill b off bs
  | sendChunk b len =>
    obtain ⟨q, h⟩ := h
    by_cases hb : b ∈ v.world.held
    · have hgrant := h.granted b hb
      obtain ⟨d, hd⟩ := Option.isSome_iff_exists.mp hgrant.data
      by_cases hp : v.world.conn.pushable = true
      · have hadds : SendStep.adds fs v.world (.sendChunk b len) = (read d 0 len).map some := by
          simp [SendStep.adds, connSendChunk, hb, hd, hp]
        rw [hadds]
        simp only [SendStep.apply, SendWorld.sendChunk, connSendChunk, if_pos hp, if_pos hb, if_true]
        have hback : Chunk.Backed { v.world.conn.qblocks b with left := len } := h.pool.backed b
        have hset := (h.take hb).setHeld hback
        have hblock : (v.world.conn.setChunk b { v.world.conn.qblocks b with left := len }).qblocks b =
            { v.world.conn.qblocks b with left := len } := by
          simp [SendConn.setChunk]
        have hgrant' : Chunk.Granted { v.world.conn.qblocks b with left := len } :=
          ⟨hgrant.type, hgrant.end, hgrant.data⟩
        have hpush := hset.pushto (by rw [hblock]; exact fun _ => hgrant'.loaded)
        rw [hblock, symbols_of_content rfl ho.2.1 (hgrant'.content hd)] at hpush
        exact ⟨_, hpush⟩
      · have hadds : SendStep.adds fs v.world (.sendChunk b len) = [] := by
          simp [SendStep.adds, connSendChunk, hd, hp]
        rw [hadds, List.append_nil]
        simp only [SendStep.apply, SendWorld.sendChunk, connSendChunk, if_neg hp, if_pos hb]
        exact ⟨q, h⟩
    · have hadds : SendStep.adds fs v.world (.sendChunk b len) = [] := by
        simp only [SendStep.adds, hb, false_and, if_false]
        split <;> rfl
      rw [hadds, List.append_nil]
      simp only [SendStep.apply, SendWorld.sendChunk, if_neg hb]
      exact ⟨q, h⟩
  | freechunk b =>
    obtain ⟨q, h⟩ := h
    simp only [SendStep.apply, SendStep.adds, SendWorld.freechunk, List.append_nil]
    split_ifs with hb
    · exact ⟨q, (h.take hb).freechunk⟩
    · exact ⟨q, h⟩
  | overChunk =>
    by_cases hok : v.world.conn.pushable ∧ v.world.conn.status = CONN_STATUS_FREE
    · simp only [SendStep.apply, SendStep.adds, connOverChunk, if_pos hok, if_true]
      obtain ⟨q, h⟩ := h
      obtain ⟨hpop, hclean⟩ := h.popchunk (ho.1 hok)
      have hpush := hpop.pushto fun hne => absurd hclean.left hne
      rw [Chunk.symbols, if_pos hclean.left] at hpush
      exact ⟨_, hpush⟩
    · simp only [SendStep.apply, SendStep.adds, connOverChunk, if_neg hok]
      simpa [StreamWorld.Sound] using h
  | write whileSend e =>
    obtain ⟨q, h⟩ := h
    simp only [SendStep.apply, SendStep.adds, List.append_nil]
    refine h.writeEvent whileSend e fun hw b hb => hg whileSend e (Or.inl rfl) hw b ?_
    rw [h.pool.head_eq]
    exact hb
  | out whileSend e =>
    simp only [SendStep.apply, SendStep.adds, List.append_nil]
    rw [out_held]
    exact h.out whileSend e hg
  | message disposal =>
    simp only [SendStep.apply, SendStep.adds, List.append_nil]
    rw [message_held]
    exact h.message ho.2

end

/-- A connection that has just been given its socket. -/
structure SendWorld.Opened (w : SendWorld) : Prop where
  dState : w.conn.dState = D_STATE_FREE
  empty : w.conn.nsendq = 0
  held : w.held = []
  wire : w.conn.wire = []

/-- In every run of a connection, whatever its object was used for before, the socket has taken a
prefix of what was queued, and the close for an over marker comes when just that was sent which was
queued before it. -/
theorem send_stream {fs : FileSystem} {w₀ : SendWorld} {ks : List PoolStep}
    (life : Run (Guarded PopsFit (ofFun (PoolStep.apply fs))) SendWorld.init ks w₀)
    (hopen : w₀.Opened) {v : StreamWorld} {ls : List SendStep}
    (run : Run (Guarded (fun v l => Ordinary v.world l ∧ NoStaleSend v.world l)
      (ofFun (StreamWorld.apply fs))) ⟨w₀,[]⟩ ls v) :
    v.world.conn.wire <+: v.queued.reduceOption ∧
      (v.world.conn.dState = D_STATE_CLOSE → AtMarker v.queued v.world.conn.wire) := by
  obtain ⟨q, hpool⟩ := life.invariant (SendWorld.Sound SB_QBLOCK_MAX) (SendWorld.init_sound _) (by
    rintro w l _ h ⟨hfit, rfl⟩
    exact h.reuse fs l hfit)
  have hq : q = [] := List.length_eq_zero_iff.mp (hpool.total.symm.trans hopen.empty)
  subst hq
  have h₀ : StreamWorld.Sound fs ⟨w₀,[]⟩ := by
    refine ⟨[], hpool, by simp, ?_, ⟨[], rfl, hopen.wire⟩, fun hc => ?_⟩
    · rw [hopen.held]
      simp
    · exact absurd (hopen.dState.symm.trans hc) (by decide)
  obtain ⟨q, h⟩ := run.invariant (StreamWorld.Sound fs) h₀ (by
    rintro v l _ h ⟨⟨ho, hg⟩, rfl⟩
    exact h.step l ho hg)
  refine ⟨?_, h.closed⟩
  obtain ⟨consumed, hqueued, hw⟩ := h.flow
  rw [hqueued, hw, List.reduceOption_append]
  exact List.prefix_append _ _

theorem SendWorld.opened_opened (multicast : Bool) :
    ∃ ks, Run (Guarded PopsFit (ofFun (PoolStep.apply fun _ _ => 0))) SendWorld.init ks
      (SendWorld.opened multicast) ∧ (SendWorld.opened multicast).Opened := by
  refine ⟨_, Run.one ⟨?_, rfl⟩, rfl, rfl, rfl, rfl⟩
  rintro k hk
  cases hk

/-- Two bytes that the socket takes one at a time, and an over marker behind them. -/
def closingRun : List SendStep :=
  [.pushChunk true (fun _ => 0) [97,98], .overChunk, .out false ⟨some 0,false⟩,
    .write false ⟨some 0,false⟩]

theorem send_stream_closed :
    AtMarker (closingRun.foldl (StreamWorld.apply fun _ _ => 0) ⟨SendWorld.opened false,[]⟩).queued
      (closingRun.foldl (StreamWorld.apply fun _ _ => 0) ⟨SendWorld.opened false,[]⟩).world.conn.wire := by
  obtain ⟨ks, life, hopen⟩ := SendWorld.opened_opened false
  have hallowed : Allowed (fun v l => Ordinary v.world l ∧ NoStaleSend v.world l)
      (StreamWorld.apply fun _ _ => 0) ⟨SendWorld.opened false,[]⟩ closingRun := by
    have hstale : ∀ (w : SendWorld) (l : SendStep), w.conn.multicast = false → NoStaleSend w l :=
      fun w l hm whileSend e _ _ b _ hs => by simp [SendConn.stale, hm] at hs
    refine ⟨⟨⟨?_, rfl⟩, hstale _ _ rfl⟩, ⟨⟨?_, trivial⟩, hstale _ _ rfl⟩, ⟨⟨?_, trivial⟩, hstale _ _ rfl⟩,
      ⟨⟨?_, trivial⟩, hstale _ _ rfl⟩, trivial⟩
    · exact fun _ => Or.inr (by decide)
    · exact fun _ => Or.inr (by decide)
    · exact fun hpops => hpops.elim
    · exact fun hpops => hpops.elim
  exact (send_stream life hopen hallowed.run).2 (by decide)

/-- On a multicast session the file that follows a chunk is sent from the memory of that chunk. -/
theorem send_stream_stale :
    ¬ ∀ fs ks w₀, Run (Guarded PopsFit (ofFun (PoolStep.apply fs))) SendWorld.init ks w₀ →
      w₀.Opened → ∀ ls v, Run (Guarded (fun v l => Ordinary v.world l) (ofFun (StreamWorld.apply fs)))
        ⟨w₀,[]⟩ ls v → v.world.conn.wire <+: v.queued.reduceOption := by
  intro hall
  obtain ⟨ks, life, hopen⟩ := SendWorld.opened_opened true
  have hallowed : Allowed (fun v l => Ordinary v.world l) (StreamWorld.apply fun _ _ => 0)
      ⟨SendWorld.opened true,[]⟩
      [.pushChunk true (fun _ => 0) [97], .out false ⟨some 0,false⟩, .pushFile "f" 0 1,
        .out false ⟨some 0,false⟩] := by
    refine ⟨⟨?_, rfl⟩, ⟨?_, trivial⟩, ⟨?_, trivial⟩, ⟨?_, trivial⟩, trivial⟩
    · exact fun _ => Or.inr (by decide)
    · exact fun hpops => hpops.elim
    · exact fun _ => Or.inl (by decide)
    · exact fun hpops => hpops.elim
  have hbad := hall _ ks _ life hopen _ _ hallowed.run
  revert hbad
  decide

end Sbase
