import Sbase.Conn.SendPool

/-! No stuck output: while blocks are queued, something is on its way that will send them. -/
namespace Sbase
open LinkedList SendConn Runs

namespace SendConn

/-- The blocks of the send queue, in order. -/
def sendq (s : SendConn) : List ℕ := walk s.qnext s.nsendq s.qhead

/-- `E_WRITE` is registered on the event of the side that drains the queue. -/
def writeArmed (s : SendConn) : Bool := if s.outdaemon then s.outeventWrite else s.eventWrite

/-- A `MESSAGE_OUT` waits for the side that drains the queue, or a `MESSAGE_END` that will post
one. -/
def outPending (s : SendConn) : Prop :=
  .out ∈ s.drainMessages ∨ .end ∈ s.messages

instance (s : SendConn) : Decidable s.outPending := inferInstanceAs (Decidable (_ ∨ _))

/-- A send takes all that is left of the block, where `conn_write_chunk` uses `CHUNK_SENDTO`. -/
def sentWhole (s : SendConn) (b : ℕ) (e : Send) : Bool :=
  (s.qblocks b).data.isSome && (s.qblocks b).end.isSome &&
    e.accept.any fun k => decide ((s.qblocks b).left ≤ k+1)

/-- The blocks that stay behind the over marker which a write event of a multicast session takes off
the queue; none where it takes none. -/
def behindMarker (s : SendConn) (whileSend : Bool) (e : Send) : List ℕ :=
  match s.sendq with
  | b::c::rest =>
    if s.writable = false then []
    else if (s.qblocks b).left = 0 then
      if whileSend = false ∧ (s.qblocks c).left = 0 then rest else c::rest
    else if whileSend = false ∧ s.sentWhole b e ∧ (s.qblocks c).left = 0 then rest
    else []
  | _ => []

end SendConn

/-- The states and events of a connection, by which `Flowing` speaks about it. -/
structure SameEvents (s s' : SendConn) : Prop where
  control : s'.toControl = s.toControl
  multicast : s'.multicast = s.multicast
  outdaemon : s'.outdaemon = s.outdaemon
  indaemon : s'.indaemon = s.indaemon
  eventWrite : s'.eventWrite = s.eventWrite
  outeventWrite : s'.outeventWrite = s.outeventWrite

theorem SameEvents.refl (s : SendConn) : SameEvents s s := ⟨rfl,rfl,rfl,rfl,rfl,rfl⟩

theorem SameEvents.trans {s s' s'' : SendConn} (h : SameEvents s s') (h' : SameEvents s' s'') :
    SameEvents s s'' :=
  ⟨h'.control.trans h.control, h'.multicast.trans h.multicast, h'.outdaemon.trans h.outdaemon,
    h'.indaemon.trans h.indaemon, h'.eventWrite.trans h.eventWrite,
    h'.outeventWrite.trans h.outeventWrite⟩

/-- The connection is connected, and closed in no way but wholly. -/
structure Connected (s : SendConn) : Prop where
  fd : 0 < s.fd
  status : s.status = CONN_STATUS_FREE
  dState : s.dState = D_STATE_FREE ∨ closing s.dState = true

/-- What is queued will be sent, or the connection is closing. -/
def Flowing (s : SendConn) : Prop :=
  closing s.dState = true ∨ s.nsendq = 0 ∨ s.writeArmed = true ∨ s.outPending

section
variable {max : ℕ} {s s' : SendConn} {q q' held : List ℕ} {b : ℕ}

theorem Connected.same (h : Connected s) (hs : SameEvents s s') : Connected s' :=
  ⟨hs.control ▸ h.fd, hs.control ▸ h.status, hs.control ▸ h.dState⟩

theorem SameEvents.writeArmed (hs : SameEvents s s') : s'.writeArmed = s.writeArmed := by
  simp [SendConn.writeArmed, hs.outdaemon, hs.eventWrite, hs.outeventWrite]

theorem SameEvents.outPending (hs : SameEvents s s') : s'.outPending ↔ s.outPending := by
  simp [SendConn.outPending, drainMessages, hs.outdaemon, hs.control]

theorem Flowing.same (h : Flowing s) (hs : SameEvents s s') (hq : s.nsendq = 0 → s'.nsendq = 0) :
    Flowing s' := by
  rcases h with hc | hnil | ha | hp
  · exact Or.inl (hs.control ▸ hc)
  · exact Or.inr (Or.inl (hq hnil))
  · exact Or.inr (Or.inr (Or.inl (hs.writeArmed ▸ ha)))
  · exact Or.inr (Or.inr (Or.inr (hs.outPending.mpr hp)))

theorem sameEvents_setChunk (s : SendConn) (b : ℕ) (c : Chunk) : SameEvents s (s.setChunk b c) :=
  ⟨rfl,rfl,rfl,rfl,rfl,rfl⟩

theorem sameEvents_popchunk (s : SendConn) : SameEvents s s.connPopchunk.1 := by
  unfold connPopchunk
  cases s.qleft <;> exact ⟨rfl,rfl,rfl,rfl,rfl,rfl⟩

theorem sameEvents_freechunk (s : SendConn) (b : ℕ) : SameEvents s (s.connFreechunk b) :=
  ⟨rfl,rfl,rfl,rfl,rfl,rfl⟩

theorem sameEvents_pushtoSendq (s : SendConn) (b : ℕ) : SameEvents s (s.connPushtoSendq b) := by
  unfold connPushtoSendq
  cases s.qtail <;> exact ⟨rfl,rfl,rfl,rfl,rfl,rfl⟩

theorem sameEvents_popFree (s : SendConn) : SameEvents s s.popFree := by
  unfold SendConn.popFree connPopfromSendq
  cases s.qhead <;> exact ⟨rfl,rfl,rfl,rfl,rfl,rfl⟩

theorem sameEvents_sendHead (fs : FileSystem) (s : SendConn) (b : ℕ) (e : Send) :
    SameEvents s (s.sendHead fs b e).1 := by
  unfold sendHead connWriteChunk
  dsimp only
  split_ifs <;> exact ⟨rfl,rfl,rfl,rfl,rfl,rfl⟩

/-! ### Shutting, arming and posting -/

theorem connShut_closing {k : Control} {dState : ℕ} (eState : ℕ) (hfd : 0 < k.fd)
    (hd : k.dState = D_STATE_FREE ∨ closing k.dState = true) (hm : closing dState = true) :
    closing (k.connShut dState eState).dState = true := by
  unfold Control.connShut
  rcases hd with hd | hd
  · rw [if_neg (by simp [hd]), if_pos ⟨hd,hfd⟩]
    show closing (k.dState ||| dState) = true
    rw [hd]
    simpa [D_STATE_FREE] using hm
  · rw [if_pos hd]
    exact hd

theorem connShut_steady (k : Control) (dState eState : ℕ) :
    (k.connShut dState eState).fd = k.fd ∧ (k.connShut dState eState).status = k.status := by
  unfold Control.connShut Control.pushMessage
  split_ifs <;> exact ⟨rfl,rfl⟩

theorem connPushMessage_steady (k : Control) (id : MessageId) :
    (k.connPushMessage id).fd = k.fd ∧ (k.connPushMessage id).status = k.status ∧
      (k.connPushMessage id).dState = k.dState := by
  unfold Control.connPushMessage Control.pushMessage
  split_ifs <;> exact ⟨rfl,rfl,rfl⟩

theorem Connected.shut (h : Connected s) {dState eState : ℕ} (hm : closing dState = true) :
    Connected (s.withControl (s.connShut dState eState)) ∧
      closing (s.withControl (s.connShut dState eState)).dState = true := by
  have hc := connShut_closing eState h.fd h.dState hm
  obtain ⟨hfd, hstatus⟩ := connShut_steady s.toControl dState eState
  exact ⟨⟨hfd ▸ h.fd, hstatus ▸ h.status, Or.inr hc⟩, hc⟩

theorem Connected.push (h : Connected s) (id : MessageId) :
    Connected (s.withControl (s.connPushMessage id)) := by
  obtain ⟨hfd, hstatus, hd⟩ := connPushMessage_steady s.toControl id
  exact ⟨hfd ▸ h.fd, hstatus ▸ h.status, hd ▸ h.dState⟩

theorem outeventDel_control (s : SendConn) : s.outeventDel.toControl = s.toControl ∧
    s.outeventDel.multicast = s.multicast ∧ s.outeventDel.outdaemon = s.outdaemon := by
  unfold outeventDel
  split_ifs <;> exact ⟨rfl,rfl,rfl⟩

theorem Connected.outeventDel (h : Connected s) : Connected s.outeventDel := by
  obtain ⟨hc, -⟩ := outeventDel_control s
  exact ⟨hc ▸ h.fd, hc ▸ h.status, hc ▸ h.dState⟩

theorem Connected.shutError (h : Connected s) :
    Connected s.shutError ∧ closing s.shutError.dState = true :=
  h.shut rfl

theorem Connected.outeventMessage (h : Connected s) :
    Connected s.outeventMessage ∧ Flowing s.outeventMessage := by
  unfold SendConn.outeventMessage
  split_ifs with ho hi
  · refine ⟨⟨h.fd, h.status, h.dState⟩, Or.inr (Or.inr (Or.inr (Or.inl ?_)))⟩
    simp [drainMessages, ho]
  · refine ⟨⟨h.fd, h.status, h.dState⟩, Or.inr (Or.inr (Or.inr (Or.inl ?_)))⟩
    simp [drainMessages, ho]
  · refine ⟨⟨h.fd, h.status, h.dState⟩, Or.inr (Or.inr (Or.inl ?_))⟩
    simp [SendConn.writeArmed, ho]

theorem Connected.outeventAdd (h : Connected s) :
    Connected s.outeventAdd ∧ Flowing s.outeventAdd := by
  unfold SendConn.outeventAdd
  split_ifs with ho
  · exact ⟨⟨h.fd, h.status, h.dState⟩, Or.inr (Or.inr (Or.inl (by simp [SendConn.writeArmed, ho])))⟩
  · exact ⟨⟨h.fd, h.status, h.dState⟩, Or.inr (Or.inr (Or.inl (by simp [SendConn.writeArmed, ho])))⟩

theorem Connected.finishWrite (h : Connected s) (chunkOver : Bool) :
    Connected (s.finishWrite chunkOver) := by
  unfold SendConn.finishWrite
  dsimp only
  split_ifs
  · exact h.outeventDel.push .free
  · exact (h.outeventDel.shut rfl).1
  · exact h.outeventDel.push .end
  · exact h

/-- After an over marker nothing is lost when the queue is empty, a message is pending, or the
session is not multicast, so that the connection closes. -/
theorem Connected.finishWrite_marker (h : Connected s)
    (hq : s.multicast = true → ¬ s.outPending → s.nsendq = 0) : Flowing (s.finishWrite true) := by
  obtain ⟨hcontrol, hmulticast, hout⟩ := outeventDel_control s
  have hsame := (samePool_outeventDel s).nsendq
  unfold SendConn.finishWrite
  dsimp only
  rw [if_pos rfl]
  by_cases hm : s.multicast = true
  · rw [if_pos (hmulticast.trans hm)]
    by_cases hp : s.outPending
    · apply Or.inr ∘ Or.inr ∘ Or.inr
      unfold SendConn.outPending drainMessages at hp ⊢
      simp only [SendConn.withControl, Control.connPushMessage, Control.pushMessage, hcontrol, hout]
      split_ifs at hp ⊢ <;> simp_all
    · exact Or.inr (Or.inl (hsame.trans (hq hm hp)))
  · rw [if_neg (by rw [hmulticast]; exact hm)]
    exact Or.inl (h.outeventDel.shut rfl).2

theorem Flowing.finishWrite (h : Flowing s) : Flowing (s.finishWrite false) := by
  unfold SendConn.finishWrite
  dsimp only
  rw [if_neg Bool.false_ne_true]
  split_ifs with hq
  · exact Or.inr (Or.inl ((samePool_outeventDel s).nsendq.trans (Nat.lt_one_iff.mp hq)))
  · exact h

theorem PoolInv.sendq_eq (h : PoolInv max s q held) : s.sendq = q := by
  unfold SendConn.sendq
  rw [h.total]
  exact h.chain.walk_eq

theorem chunkWrite_taken {c : Chunk} {e : Send} (h : (chunkWrite c e).chunk.left = 0)
    (hdata : c.left ≠ 0) : c.data.isSome ∧ c.end.isSome ∧ ∃ k, e.accept = some k ∧ c.left ≤ k+1 := by
  unfold chunkWrite at h
  cases hd : c.data with
  | none => simp [hd, hdata] at h
  | some d =>
    cases he : c.end with
    | none => simp [hd, he, hdata] at h
    | some p =>
      refine ⟨rfl, rfl, ?_⟩
      simp only [hd, he] at h
      split_ifs at h
      · cases ha : e.accept with
        | none => simp [Send.take, ha, hdata] at h
        | some k =>
          refine ⟨k, rfl, ?_⟩
          simp [Send.take, ha] at h
          omega
      · exact absurd h hdata
      · exact absurd h hdata

theorem sendHead_sentWhole {fs : FileSystem} {e : Send} (hm : s.multicast = true)
    (hdata : (s.qblocks b).left ≠ 0) (hleft : ((s.sendHead fs b e).1.qblocks b).left = 0) :
    s.sentWhole b e = true := by
  have hwrite : (chunkWrite (s.qblocks b) e).chunk.left = 0 := by
    rwa [sendHead_qblocks fs s e hdata, writeCall, if_pos hm] at hleft
  obtain ⟨hd, he, k, hk, hle⟩ := chunkWrite_taken hwrite hdata
  simp [SendConn.sentWhole, hd, he, hk, hle]

theorem WriteOutcome.connected {fs : FileSystem} {whileSend : Bool} {e : Send}
    {r : SendConn × ℤ} (o : WriteOutcome fs s whileSend e q r q') (h : Connected s) :
    Connected r.1 := by
  cases o with
  | refused => exact h
  | empty => exact h.outeventDel
  | @failed b | @part b => exact h.same (sameEvents_sendHead fs s b e)
  | @sent b =>
    have hpop := (sameEvents_sendHead fs s b e).trans (sameEvents_popFree _)
    exact (h.same hpop).finishWrite false
  | @sentMarker b =>
    have hpop := (sameEvents_sendHead fs s b e).trans (sameEvents_popFree _)
    exact (h.same (hpop.trans (sameEvents_popFree _))).finishWrite true
  | marker => exact (h.same (sameEvents_popFree s)).finishWrite true
  | markers =>
    exact (h.same ((sameEvents_popFree s).trans (sameEvents_popFree _))).finishWrite true

/-- A write event keeps the queue flowing unless it takes an over marker of a multicast session off
the queue, with blocks behind it and no message pending. -/
theorem WriteOutcome.flowing {fs : FileSystem} {whileSend : Bool} {e : Send} {r : SendConn × ℤ}
    (o : WriteOutcome fs s whileSend e q r q') (h : PoolInv max s q held) (hc : Connected s)
    (hf : Flowing s)
    (hg : s.multicast = true → ¬ s.outPending → s.behindMarker whileSend e = []) :
    r.2 < 0 ∨ Flowing r.1 := by
  have hq := h.sendq_eq
  unfold SendConn.behindMarker at hg
  rw [hq] at hg
  cases o with
  | refused | failed => exact Or.inl (by simp)
  | empty => exact Or.inr (Or.inr (Or.inl ((samePool_outeventDel s).nsendq.trans h.total)))
  | @part b =>
    have hn : (s.sendHead fs b e).1.nsendq = s.nsendq := (h.sendHead fs e).total.trans h.total.symm
    exact Or.inr (hf.same (sameEvents_sendHead fs s b e) hn.trans)
  | @sent b =>
    have hpop := (sameEvents_sendHead fs s b e).trans (sameEvents_popFree _)
    have hn := h.total
    exact Or.inr ((hf.same hpop fun h0 => by simp [h0] at hn).finishWrite)
  | @sentMarker b c rest n isOpen data left mark write =>
    have hpop := (sameEvents_sendHead fs s b e).trans (sameEvents_popFree _)
    have hsame := hpop.trans (sameEvents_popFree _)
    have hn := (h.sendHead fs e).popFree.popFree.total
    refine Or.inr ((hc.same hsame).finishWrite_marker fun hm hp => ?_)
    rw [hsame.multicast] at hm
    rw [hsame.outPending] at hp
    simpa [hn, isOpen, data, mark, write, sendHead_sentWhole hm data left] using hg hm hp
  | @marker b _ isOpen mark data =>
    have hsame := sameEvents_popFree s
    refine Or.inr ((hc.same hsame).finishWrite_marker fun hm hp => ?_)
    rw [hsame.multicast] at hm
    rw [hsame.outPending] at hp
    rw [h.popFree.total]
    cases q' with
    | nil => rfl
    | cons c rest =>
      have hnext : ¬ (whileSend = false ∧ (s.qblocks c).left = 0) := fun hw => data hw.1 c rfl hw.2
      simpa [isOpen, mark, hnext] using hg hm hp
  | @markers b c rest isOpen mark mark' write =>
    have hsame := (sameEvents_popFree s).trans (sameEvents_popFree _)
    refine Or.inr ((hc.same hsame).finishWrite_marker fun hm hp => ?_)
    rw [hsame.multicast] at hm
    rw [hsame.outPending] at hp
    simpa [h.popFree.popFree.total, isOpen, mark, mark', write] using hg hm hp

/-! ### Handlers -/

/-- `MESSAGE_OUT` sends, and arms `E_WRITE` while blocks are left. -/
theorem Connected.outeventHandler (hc : Connected s) (h : PoolInv max s q held) (whileSend : Bool)
    (fs : FileSystem) (e : Send) :
    Connected (s.connOuteventHandler whileSend fs e) ∧
      Flowing (s.connOuteventHandler whileSend fs e) := by
  unfold connOuteventHandler
  obtain ⟨q', o⟩ := h.outHandler whileSend fs e
  have hc' := o.connected hc
  dsimp only
  split_ifs with hpos hret hpos'
  · exact ⟨hc'.outeventDel.shutError.1, Or.inl hc'.outeventDel.shutError.2⟩
  · exact Connected.outeventAdd ⟨hc'.fd, hc'.status, hc'.dState⟩
  · exact ⟨⟨hc'.fd, hc'.status, hc'.dState⟩, Or.inr (Or.inl (Nat.le_zero.mp (not_lt.mp hpos')))⟩
  · exact ⟨hc, Or.inr (Or.inl (Nat.le_zero.mp (not_lt.mp hpos)))⟩

theorem Connected.writeEvent (hc : Connected s) (h : PoolInv max s q held) (whileSend : Bool)
    (fs : FileSystem) (e : Send) (hf : Flowing s)
    (hg : s.multicast = true → ¬ s.outPending → s.behindMarker whileSend e = []) :
    Connected (s.writeEvent whileSend fs e) ∧ Flowing (s.writeEvent whileSend fs e) := by
  unfold SendConn.writeEvent connOutputHandler connEventHandler
  obtain ⟨q', o⟩ := h.outHandler whileSend fs e
  have hc' := o.connected hc
  have hf' := o.flowing h hc hf hg
  dsimp only
  rw [if_neg (show ¬ s.status = CONN_STATUS_READY by rw [hc.status]; decide)]
  split_ifs with hout hret hret
  · exact ⟨hc'.outeventDel.shutError.1, Or.inl hc'.outeventDel.shutError.2⟩
  · exact ⟨⟨hc'.fd, hc'.status, hc'.dState⟩, hf'.resolve_left hret⟩
  · have hshut := Connected.shutError (s := { (s.outHandler whileSend fs e).1 with eventWrite := false })
      ⟨hc'.fd, hc'.status, hc'.dState⟩
    exact ⟨hshut.1, Or.inl hshut.2⟩
  · exact ⟨hc', hf'.resolve_left hret⟩

theorem Connected.endHandler (hc : Connected s) :
    Connected s.connEndHandler ∧ Flowing s.connEndHandler := by
  unfold connEndHandler
  split_ifs with hd hpos
  · exact ⟨hc, Or.inl hd⟩
  · exact hc.outeventMessage
  · exact ⟨hc, Or.inr (Or.inl (Nat.le_zero.mp (not_lt.mp hpos)))⟩

theorem Connected.freeHandler (hc : Connected s) (hf : Flowing s) (disposal : Disposal) :
    Connected (s.connFreeHandler disposal) ∧ Flowing (s.connFreeHandler disposal) := by
  unfold connFreeHandler
  split_ifs
  · exact ⟨hc, hf⟩
  · cases disposal
    · exact ⟨(hc.shut rfl).1, Or.inl (hc.shut rfl).2⟩
    · exact ⟨⟨hc.fd, hc.status, hc.dState⟩, hf⟩
    · exact ⟨hc, hf⟩

end

/-! ### Runs -/

/-- The invariant of a connection in use. -/
structure SendWorld.Live (w : SendWorld) : Prop where
  sound : ∃ max, w.Sound max
  connected : Connected w.conn
  flowing : Flowing w.conn

/-- A write event of a multicast session takes no over marker off the queue when blocks are queued
behind it and no message is pending. -/
def NoBlocksBehind (w : SendWorld) (l : SendStep) : Prop :=
  ∀ whileSend e, l = .write whileSend e → w.conn.multicast = true → ¬ w.conn.outPending →
    w.conn.behindMarker whileSend e = []

section
variable {w : SendWorld}

theorem SendWorld.Sound.more {max : ℕ} (h : w.Sound max) : w.Sound (max+1) := by
  obtain ⟨q, h⟩ := h
  exact ⟨q, h.chain, h.tail, h.total, h.perm, h.bound.trans (Nat.le_succ max), h.clean,
    h.backed⟩

/-- The pool of a run without a bound. -/
theorem SendWorld.Sound.step_any (h : ∃ max, w.Sound max) (fs : FileSystem) (l : SendStep) :
    ∃ max, (l.apply fs w).Sound max := by
  obtain ⟨max, h⟩ := h
  obtain ⟨q, hq⟩ := h
  exact ⟨max+1, SendWorld.Sound.step (SendWorld.Sound.more ⟨q, hq⟩) fs l
    fun _ => Or.inr (Nat.lt_succ_of_le hq.bound)⟩

theorem SendWorld.Live.message (h : w.Live) (disposal : Disposal) :
    Connected (w.message disposal).conn ∧ Flowing (w.message disposal).conn := by
  unfold SendWorld.message
  cases hm : w.conn.messages with
  | nil => exact ⟨h.connected, h.flowing⟩
  | cons id rest =>
    have hc : Connected { w.conn with messages := rest } :=
      ⟨h.connected.fd, h.connected.status, h.connected.dState⟩
    have hf : id ≠ .end → Flowing { w.conn with messages := rest } := by
      intro hid
      rcases h.flowing with hd | hn | ha | ho | he
      · exact Or.inl hd
      · exact Or.inr (Or.inl hn)
      · exact Or.inr (Or.inr (Or.inl ha))
      · exact Or.inr (Or.inr (Or.inr (Or.inl ho)))
      · rw [hm] at he
        exact Or.inr (Or.inr (Or.inr (Or.inr ((List.mem_cons.mp he).resolve_left hid.symm))))
    dsimp only
    split
    · exact hc.endHandler
    · exact hc.freeHandler (hf (by simp)) disposal
    · rename_i hne _
      exact ⟨hc, hf hne⟩

theorem Flowing.takeDrainMessage {s : SendConn} {id : MessageId} {rest : List MessageId}
    (h : Flowing s) (hm : s.drainMessages = id::rest) (hid : id ≠ .out) :
    Flowing s.takeDrainMessage := by
  unfold SendConn.drainMessages at hm
  unfold SendConn.takeDrainMessage
  rcases h with hd | hn | ha | hp | he
  · apply Or.inl
    split_ifs <;> exact hd
  · apply Or.inr ∘ Or.inl
    split_ifs <;> exact hn
  · apply Or.inr ∘ Or.inr ∘ Or.inl
    split_ifs <;> exact ha
  · apply Or.inr ∘ Or.inr ∘ Or.inr ∘ Or.inl
    unfold SendConn.drainMessages at hp ⊢
    split_ifs at hm hp ⊢ with ho
    · rw [hm] at hp ⊢
      exact (List.mem_cons.mp hp).resolve_left hid.symm
    · rw [hm] at hp ⊢
      exact (List.mem_cons.mp hp).resolve_left hid.symm
  · apply Or.inr ∘ Or.inr ∘ Or.inr ∘ Or.inr
    split_ifs <;> exact he

theorem Connected.takeDrainMessage {s : SendConn} (h : Connected s) :
    Connected s.takeDrainMessage := by
  unfold SendConn.takeDrainMessage
  split_ifs <;> exact ⟨h.fd, h.status, h.dState⟩

theorem SendWorld.Live.out (h : w.Live) (whileSend : Bool) (fs : FileSystem) (e : Send) :
    Connected (w.out whileSend fs e).conn ∧ Flowing (w.out whileSend fs e).conn := by
  obtain ⟨max, q, hq⟩ := h.sound
  unfold SendWorld.out
  cases hm : w.conn.drainMessages with
  | nil => exact ⟨h.connected, h.flowing⟩
  | cons id rest =>
    have hc := h.connected.takeDrainMessage
    dsimp only
    split_ifs with hid
    · exact hc.outeventHandler (hq.same (samePool_takeDrainMessage w.conn)) whileSend fs e
    · exact ⟨hc, h.flowing.takeDrainMessage hm hid⟩

/-- What a user does to the blocks leaves the events and the queue alone, or ends in
`CONN_OUTEVENT_MESSAGE`. -/
theorem SendWorld.Live.use {w' : SendWorld} (h : w.Live)
    (hw : (SameEvents w.conn w'.conn ∧ w'.conn.nsendq = w.conn.nsendq) ∨
      ∃ s, SameEvents w.conn s ∧ w'.conn = s.outeventMessage) :
    Connected w'.conn ∧ Flowing w'.conn := by
  obtain ⟨hs, hn⟩ | ⟨s, hs, heq⟩ := hw
  · exact ⟨h.connected.same hs, h.flowing.same hs hn.trans⟩
  · rw [heq]
    exact (h.connected.same hs).outeventMessage

/-- A popped chunk that is set up, and freed again where that fails, leaves the events and the queue
alone. -/
theorem popchunk_set_same (s : SendConn) (c : Chunk) :
    SameEvents s (s.connPopchunk.1.setChunk s.connPopchunk.2 c) ∧
      (s.connPopchunk.1.setChunk s.connPopchunk.2 c).nsendq = s.nsendq := by
  refine ⟨(sameEvents_popchunk s).trans (sameEvents_setChunk _ _ _), ?_⟩
  show s.connPopchunk.1.nsendq = s.nsendq
  unfold connPopchunk
  cases s.qleft <;> rfl

theorem newchunk_same (s : SendConn) (alloc : Bool) (junk : Mem) (len : ℕ) :
    SameEvents s (s.connNewchunk alloc junk len).1 ∧
      (s.connNewchunk alloc junk len).1.nsendq = s.nsendq := by
  unfold connNewchunk
  split_ifs
  · obtain ⟨hs, hn⟩ := popchunk_set_same s
      (chunkMem alloc junk (s.connPopchunk.1.qblocks s.connPopchunk.2) len)
    dsimp only
    split_ifs
    · exact ⟨hs.trans (sameEvents_freechunk _ _), hn⟩
    · exact ⟨hs, hn⟩
  · exact ⟨SameEvents.refl s, rfl⟩

theorem mnewchunk_same (s : SendConn) (alloc : Bool) (junk : Mem) (len : ℕ) :
    SameEvents s (s.connMnewchunk alloc junk len).1 ∧
      (s.connMnewchunk alloc junk len).1.nsendq = s.nsendq := by
  unfold connMnewchunk
  split_ifs
  · obtain ⟨hs, hn⟩ := popchunk_set_same s
      (chunkMem alloc junk (s.connPopchunk.1.qblocks s.connPopchunk.2) len)
    dsimp only
    split
    · exact ⟨hs.trans (sameEvents_setChunk _ _ _), hn⟩
    · exact ⟨hs.trans (sameEvents_freechunk _ _), hn⟩
  · exact ⟨SameEvents.refl s, rfl⟩

/-- The step lemma. -/
theorem SendWorld.Live.step (h : w.Live) (fs : FileSystem) (l : SendStep)
    (hg : NoBlocksBehind w l) : (l.apply fs w).Live := by
  suffices hcf : Connected (l.apply fs w).conn ∧ Flowing (l.apply fs w).conn from
    ⟨SendWorld.Sound.step_any h.sound fs l, hcf.1, hcf.2⟩
  cases l with
  | pushChunk alloc junk data =>
    apply h.use
    simp only [SendStep.apply, connPushChunk]
    split_ifs
    · obtain ⟨hs, -⟩ := popchunk_set_same w.conn (chunkMemCopy (chunkMem alloc junk
        (w.conn.connPopchunk.1.qblocks w.conn.connPopchunk.2) data.length) data)
      exact Or.inr ⟨_, hs.trans (sameEvents_pushtoSendq _ _), rfl⟩
    · exact Or.inl ⟨SameEvents.refl _, rfl⟩
  | pushFile filename offset size =>
    apply h.use
    simp only [SendStep.apply, connPushFile]
    split_ifs
    · obtain ⟨hs, -⟩ := popchunk_set_same w.conn
        (chunkFile (w.conn.connPopchunk.1.qblocks w.conn.connPopchunk.2) filename offset size)
      exact Or.inr ⟨_, hs.trans (sameEvents_pushtoSendq _ _), rfl⟩
    · exact Or.inl ⟨SameEvents.refl _, rfl⟩
  | newchunk alloc junk len => exact h.use (Or.inl (newchunk_same w.conn alloc junk len))
  | mnewchunk alloc junk len => exact h.use (Or.inl (mnewchunk_same w.conn alloc junk len))
  | fill b off bs =>
    apply h.use
    simp only [SendStep.apply, SendWorld.fill]
    split_ifs
    · exact Or.inl ⟨sameEvents_setChunk _ _ _, rfl⟩
    · exact Or.inl ⟨SameEvents.refl _, rfl⟩
  | sendChunk b len =>
    apply h.use
    by_cases hb : b ∈ w.held
    · by_cases hp : w.conn.pushable = true
      · simp only [SendStep.apply, SendWorld.sendChunk, if_pos hb, connSendChunk, if_pos hp, if_true]
        exact Or.inr ⟨_, (sameEvents_setChunk _ _ _).trans (sameEvents_pushtoSendq _ _), rfl⟩
      · simp only [SendStep.apply, SendWorld.sendChunk, if_pos hb, connSendChunk, if_neg hp]
        exact Or.inl ⟨SameEvents.refl _, rfl⟩
    · simp only [SendStep.apply, SendWorld.sendChunk, if_neg hb]
      exact Or.inl ⟨SameEvents.refl _, trivial⟩
  | freechunk b =>
    apply h.use
    simp only [SendStep.apply, SendWorld.freechunk]
    split_ifs
    · exact Or.inl ⟨sameEvents_freechunk _ _, rfl⟩
    · exact Or.inl ⟨SameEvents.refl _, rfl⟩
  | overChunk =>
    apply h.use
    simp only [SendStep.apply, connOverChunk]
    split_ifs
    · exact Or.inr ⟨_, (sameEvents_popchunk _).trans (sameEvents_pushtoSendq _ _), rfl⟩
    · exact Or.inl ⟨SameEvents.refl _, rfl⟩
  | write whileSend e =>
    obtain ⟨max, q, hq⟩ := h.sound
    exact h.connected.writeEvent hq whileSend fs e h.flowing (hg whileSend e rfl)
  | out whileSend e => exact h.out whileSend fs e
  | message disposal => exact h.message disposal

end

/-- A connection in use before anything is queued. -/
structure SendWorld.Fresh (w : SendWorld) : Prop where
  sound : ∃ max, w.Sound max
  connected : Connected w.conn
  empty : w.conn.nsendq = 0

theorem SendWorld.Fresh.live {w : SendWorld} (h : w.Fresh) : w.Live :=
  ⟨h.sound, h.connected, Or.inr (Or.inl h.empty)⟩

/-- While blocks are queued on a connection that is not closing, `E_WRITE` is registered for them or
a message is pending, in every run in which no write event of a multicast session takes an over
marker off the queue and leaves blocks behind it. -/
theorem send_not_stuck {fs : FileSystem} {w₀ w : SendWorld} {ls : List SendStep} (h₀ : w₀.Fresh)
    (run : Run (Guarded NoBlocksBehind (ofFun (SendStep.apply fs))) w₀ ls w)
    (hopen : closing w.conn.dState = false) (hqueued : 0 < w.conn.nsendq) :
    w.conn.writeArmed = true ∨ w.conn.outPending := by
  have h : w.Live := run.invariant SendWorld.Live h₀.live (by
    rintro w l _ h ⟨hg, rfl⟩
    exact h.step fs l hg)
  rcases h.flowing with hd | hn | hflow
  · rw [hopen] at hd
    cases hd
  · exact absurd hn hqueued.ne'
  · exact hflow

/-- A connection of a service with or without `SB_MULTICAST`, whose queue is drained by the indaemon,
before anything is queued. -/
def SendWorld.opened (multicast : Bool) : SendWorld :=
  PoolStep.apply (fun _ _ => 0) SendWorld.init
    (.addconn ⟨5,CONN_STATUS_FREE,D_STATE_FREE,E_STATE_OFF,[],[],[]⟩ multicast false true false)

theorem SendWorld.opened_fresh (multicast : Bool) : (SendWorld.opened multicast).Fresh := by
  refine ⟨⟨SB_QBLOCK_MAX, ?_⟩, ⟨by cases multicast <;> decide, rfl, Or.inl rfl⟩, rfl⟩
  exact (SendWorld.init_sound _).reuse _ _ (by rintro k hk; cases hk)

/-- Two chunks on either side of an over marker, and a first attempt to send them that fails. -/
def markerRun : List SendStep :=
  [.pushChunk true (fun _ => 0) [97], .overChunk, .pushChunk true (fun _ => 0) [98],
    .out false ⟨none,true⟩, .out false ⟨none,true⟩, .out false ⟨none,true⟩]

theorem send_not_stuck_waiting :
    (markerRun.foldl (SendStep.apply fun _ _ => 0) (SendWorld.opened true)).conn.writeArmed = true ∨
      (markerRun.foldl (SendStep.apply fun _ _ => 0) (SendWorld.opened true)).conn.outPending := by
  have hfits : Allowed NoBlocksBehind (SendStep.apply fun _ _ => 0) (SendWorld.opened true)
      markerRun := by
    refine ⟨?_, ?_, ?_, ?_, ?_, ?_, trivial⟩ <;> (intro whileSend e hl; cases hl)
  exact send_not_stuck (SendWorld.opened_fresh true) hfits.run (by decide) (by decide)

/-- The write event that then takes the first chunk and the over marker drops `E_WRITE`, and nothing
is left that would send the second chunk. -/
theorem send_stuck :
    ¬ ∀ fs w₀ ls w, SendWorld.Fresh w₀ → Run (ofFun (SendStep.apply fs)) w₀ ls w →
      closing w.conn.dState = false → 0 < w.conn.nsendq →
      w.conn.writeArmed = true ∨ w.conn.outPending := by
  intro hall
  have hbad := hall (fun _ _ => 0) (SendWorld.opened true) (markerRun ++ [.write false ⟨some 0,false⟩])
    _ (SendWorld.opened_fresh true) (run_ofFun_iff.mpr rfl) (by decide) (by decide)
  revert hbad
  decide

end Sbase
