import Sbase.Lib.LinkedList
import Sbase.Lib.Runs
import Sbase.Conn.Send
import Sbase.Utils.ChunkContent

/-! The pool of blocks: every block ever taken from `qblocks` is in exactly one place, on the stack
of free blocks, in the send queue, or in the hands of a caller. -/
namespace Sbase
open LinkedList SendConn Runs

/-- The fields of the pool and the queue, by which `PoolInv` speaks about a connection. -/
structure SamePool (s s' : SendConn) : Prop where
  qnext : s'.qnext = s.qnext
  qhead : s'.qhead = s.qhead
  qtail : s'.qtail = s.qtail
  nsendq : s'.nsendq = s.nsendq
  qleft : s'.qleft = s.qleft
  qblockMax : s'.qblockMax = s.qblockMax
  qblocks : s'.qblocks = s.qblocks
  wire : s'.wire = s.wire

theorem SamePool.refl (s : SendConn) : SamePool s s := ⟨rfl,rfl,rfl,rfl,rfl,rfl,rfl,rfl⟩

theorem SamePool.trans {s s' s'' : SendConn} (h : SamePool s s') (h' : SamePool s' s'') :
    SamePool s s'' :=
  ⟨h'.qnext.trans h.qnext, h'.qhead.trans h.qhead, h'.qtail.trans h.qtail,
    h'.nsendq.trans h.nsendq, h'.qleft.trans h.qleft, h'.qblockMax.trans h.qblockMax,
    h'.qblocks.trans h.qblocks, h'.wire.trans h.wire⟩

/-- The send queue holds the blocks `q`, callers hold the blocks `held`, and these and the free
ones are all the blocks taken so far, each once and at most `max` of them. The others are clean. -/
structure PoolInv (max : ℕ) (s : SendConn) (q held : List ℕ) : Prop where
  chain : Chain s.qnext s.qhead q
  tail : s.qtail = q.getLast?
  total : s.nsendq = q.length
  perm : (s.qleft ++ (q ++ held)).Perm (List.range s.qblockMax)
  bound : s.qblockMax ≤ max
  clean : ∀ b ∉ q ++ held, (s.qblocks b).Clean
  backed : ∀ b, (s.qblocks b).Backed

section
variable {max : ℕ} {s s' : SendConn} {q held : List ℕ} {b : ℕ}

theorem PoolInv.same (h : PoolInv max s q held) (hs : SamePool s s') : PoolInv max s' q held := by
  refine ⟨?_, hs.qtail.trans h.tail, hs.nsendq.trans h.total, ?_, hs.qblockMax.trans_le h.bound, ?_,
    hs.qblocks ▸ h.backed⟩
  · rw [hs.qnext, hs.qhead]
    exact h.chain
  · rw [hs.qleft, hs.qblockMax]
    exact h.perm
  · rw [hs.qblocks]
    exact h.clean

/-- An assignment to a chunk in use. -/
theorem PoolInv.setChunk (h : PoolInv max s q held) (hb : b ∈ q ++ held) {c : Chunk}
    (hc : c.Backed) : PoolInv max (s.setChunk b c) q held := by
  refine ⟨h.chain, h.tail, h.total, h.perm, h.bound, fun i hi => ?_, fun i => ?_⟩
  · have hne : i ≠ b := fun he => hi (he ▸ hb)
    simpa [SendConn.setChunk, hne] using h.clean i hi
  · by_cases hib : i = b
    · subst hib
      simpa [SendConn.setChunk] using hc
    · simpa [SendConn.setChunk, hib] using h.backed i

theorem PoolInv.setHeld (h : PoolInv max s q (b::held)) {c : Chunk} (hc : c.Backed) :
    PoolInv max (s.setChunk b c) q (b::held) :=
  h.setChunk (by simp) hc

theorem PoolInv.nodup (h : PoolInv max s q held) : (s.qleft ++ (q ++ held)).Nodup :=
  h.perm.nodup_iff.mpr List.nodup_range

theorem PoolInv.lt (h : PoolInv max s q held) (hb : b ∈ s.qleft ++ (q ++ held)) : b < s.qblockMax :=
  List.mem_range.mp (h.perm.mem_iff.mp hb)

theorem PoolInv.length (h : PoolInv max s q held) :
    s.qleft.length + (q.length + held.length) = s.qblockMax := by
  have := h.perm.length_eq
  simpa using this

theorem PoolInv.held_perm {held' : List ℕ} (h : PoolInv max s q held) (hp : held.Perm held') :
    PoolInv max s q held' :=
  ⟨h.chain, h.tail, h.total, ((hp.symm.append_left q).append_left s.qleft).trans h.perm,
    h.bound, fun i hi => h.clean i fun hm => hi ((hp.append_left q).mem_iff.mp hm), h.backed⟩

theorem PoolInv.head_eq (h : PoolInv max s q held) : s.qhead = q.head? := by
  cases q with
  | nil => exact h.chain
  | cons b q => exact h.chain.1

/-- A block popped from the pool is not in use, and becomes the caller's. -/
theorem PoolInv.popchunk (h : PoolInv max s q held) (hfit : s.qleft ≠ [] ∨ s.qblockMax < max) :
    PoolInv max s.connPopchunk.1 q (s.connPopchunk.2::held) ∧
      s.connPopchunk.2 ∉ s.connPopchunk.1.qleft ++ (q ++ held) := by
  have hnd := h.nodup
  unfold connPopchunk
  cases hq : s.qleft with
  | nil =>
    have hperm := h.perm
    rw [hq, List.nil_append] at hperm
    have hlt : s.qblockMax < max := hfit.resolve_left fun hne => hne hq
    refine ⟨⟨h.chain, h.tail, h.total, ?_, hlt, fun i hi => h.clean i fun hm => hi ?_, h.backed⟩, ?_⟩
    · simp only [List.nil_append]
      rw [List.range_succ]
      refine List.perm_middle.trans ?_
      exact (hperm.cons _).trans (List.perm_append_singleton _ _).symm
    · simp only [List.mem_append, List.mem_cons] at hm ⊢
      tauto
    · intro hm
      have hlt : s.qblockMax < s.qblockMax := h.lt (by simpa [hq] using hm)
      omega
  | cons b rest =>
    rw [hq] at hnd
    refine ⟨⟨h.chain, h.tail, h.total, ?_, h.bound, fun i hi => h.clean i fun hm => hi ?_, h.backed⟩,
      (List.nodup_cons.mp hnd).1⟩
    · have hperm := h.perm
      rw [hq] at hperm
      refine List.Perm.trans ?_ hperm
      rw [← List.append_assoc, ← List.append_assoc]
      exact List.perm_middle
    · simp only [List.mem_append, List.mem_cons] at hm ⊢
      tauto

theorem PoolInv.pushto (h : PoolInv max s q (b::held)) : PoolInv max (s.connPushtoSendq b) (q ++ [b]) held := by
  have hnd : (q ++ b::held).Nodup := (List.nodup_append.mp h.nodup).2.1
  have hb : b ∉ q := fun hm => (List.disjoint_of_nodup_append hnd) hm (by simp)
  have hperm : (s.qleft ++ (q ++ [b] ++ held)).Perm (List.range s.qblockMax) := by
    have := h.perm
    simpa using this
  have hclean : ∀ i ∉ q ++ [b] ++ held, (s.qblocks i).Clean := by
    intro i hi
    exact h.clean i (by simpa using hi)
  unfold connPushtoSendq
  cases ht : s.qtail with
  | none =>
    have hnil : q = [] := List.getLast?_eq_none_iff.mp (h.tail.symm.trans ht)
    subst hnil
    exact ⟨⟨rfl, by simp [Chain]⟩, rfl, by simp [h.total], hperm, h.bound, hclean, h.backed⟩
  | some t =>
    have hlast : q.getLast? = some t := h.tail.symm.trans ht
    have htb : b ≠ t := fun he => hb (he ▸ List.mem_of_mem_getLast? hlast)
    refine ⟨?_, by simp, by simp [h.total], hperm, h.bound, hclean, h.backed⟩
    refine h.chain.concat ?_ ?_ ?_
    · intro i hi
      have hib : i ≠ b := fun he => hb (he ▸ hi)
      rw [hlast]
      by_cases hit : i = t
      · subst hit
        simp
      · simp [Function.update_of_ne hit, Function.update_of_ne hib, Ne.symm hit]
    · simp [Function.update_of_ne htb]
    · rw [h.head_eq]
      cases q with
      | nil => cases hlast
      | cons x q => simp

theorem PoolInv.popfrom (h : PoolInv max s (b::q) held) :
    PoolInv max s.connPopfromSendq.1 q (b::held) ∧ s.connPopfromSendq.2 = some b := by
  have hhead : s.qhead = some b := h.chain.1
  have hnext : s.qnext b = q.head? := by
    cases q with
    | nil => exact h.chain.2
    | cons c q => exact h.chain.2.1
  unfold connPopfromSendq
  rw [hhead]
  refine ⟨⟨h.chain.2, ?_, ?_, ?_, h.bound, fun i hi => h.clean i fun hm => hi ?_, h.backed⟩, rfl⟩
  · have htail := h.tail
    cases q with
    | nil => simp [hnext]
    | cons c q =>
      rw [List.getLast?_cons_cons] at htail
      simp [hnext, htail]
  · simp [h.total]
  · refine List.Perm.trans ?_ h.perm
    exact List.perm_middle.append_left s.qleft
  · simp only [List.mem_append, List.mem_cons] at hm ⊢
    tauto

theorem PoolInv.freechunk (h : PoolInv max s q (b::held)) : PoolInv max (s.connFreechunk b) q held := by
  refine ⟨h.chain, h.tail, h.total, ?_, h.bound, fun i hi => ?_, fun i => ?_⟩
  · refine List.Perm.trans ?_ h.perm
    show (b::(s.qleft ++ (q ++ held))).Perm _
    rw [← List.append_assoc, ← List.append_assoc]
    exact List.perm_middle.symm
  · by_cases hib : i = b
    · subst hib
      simpa [connFreechunk, SendConn.setChunk] using chunkReset_clean (s.qblocks i)
    · have hclean := h.clean i (by simp only [List.mem_append, List.mem_cons] at hi ⊢; tauto)
      simpa [connFreechunk, SendConn.setChunk, hib] using hclean
  · by_cases hib : i = b
    · subst hib
      simpa [connFreechunk, SendConn.setChunk] using chunkReset_backed (h.backed i)
    · simpa [connFreechunk, SendConn.setChunk, hib] using h.backed i

theorem PoolInv.popFree (h : PoolInv max s (b::q) held) : PoolInv max s.popFree q held := by
  obtain ⟨hpop, hret⟩ := h.popfrom
  unfold SendConn.popFree
  simp only [hret]
  exact hpop.freechunk

theorem PoolInv.drain {fuel : ℕ} (h : PoolInv max s q held) (hf : q.length ≤ fuel) :
    PoolInv max (sendqDrain fuel s) [] held := by
  induction fuel generalizing s q with
  | zero =>
    obtain rfl := List.length_eq_zero_iff.mp (Nat.le_zero.mp hf)
    exact h
  | succ fuel ih =>
    unfold sendqDrain
    have hhead := h.head_eq
    cases q with
    | nil =>
      rw [List.head?_nil] at hhead
      rw [hhead]
      exact h
    | cons b q =>
      rw [List.head?_cons] at hhead
      rw [hhead]
      exact ih h.popFree (by simpa using hf)

/-! ### What leaves the pool alone -/

theorem samePool_withControl (s : SendConn) (k : Control) : SamePool s (s.withControl k) :=
  ⟨rfl,rfl,rfl,rfl,rfl,rfl,rfl,rfl⟩

theorem samePool_outeventAdd (s : SendConn) : SamePool s s.outeventAdd := by
  unfold outeventAdd
  split_ifs <;> exact ⟨rfl,rfl,rfl,rfl,rfl,rfl,rfl,rfl⟩

theorem samePool_outeventDel (s : SendConn) : SamePool s s.outeventDel := by
  unfold outeventDel
  split_ifs <;> exact ⟨rfl,rfl,rfl,rfl,rfl,rfl,rfl,rfl⟩

theorem samePool_outeventMessage (s : SendConn) : SamePool s s.outeventMessage := by
  unfold outeventMessage
  split_ifs <;> exact ⟨rfl,rfl,rfl,rfl,rfl,rfl,rfl,rfl⟩

theorem samePool_shutError (s : SendConn) : SamePool s s.shutError := ⟨rfl,rfl,rfl,rfl,rfl,rfl,rfl,rfl⟩

theorem PoolInv.writeCall_backed (h : PoolInv max s q held) (fs : FileSystem) (e : Send) :
    (s.writeCall fs b e).chunk.Backed := by
  unfold SendConn.writeCall
  split_ifs
  · exact chunkWrite_backed (h.backed b) e
  · exact chunkWrite_backed (h.backed b) e
  · exact chunkWriteFromFile_backed (h.backed b) true e

theorem PoolInv.sendHead (h : PoolInv max s (b::q) held) (fs : FileSystem) (e : Send) :
    PoolInv max (s.sendHead fs b e).1 (b::q) held := by
  have hset := h.setChunk (List.mem_append_left held List.mem_cons_self)
    (h.writeCall_backed (b := b) fs e)
  unfold SendConn.sendHead connWriteChunk
  dsimp only
  split_ifs
  · exact ⟨hset.chain, hset.tail, hset.total, hset.perm, hset.bound, hset.clean, hset.backed⟩
  · exact ⟨hset.chain, hset.tail, hset.total, hset.perm, hset.bound, hset.clean, hset.backed⟩
  · exact ⟨hset.chain, hset.tail, hset.total, hset.perm, hset.bound, hset.clean, hset.backed⟩
  · exact h

theorem samePool_finishWrite (s : SendConn) (chunkOver : Bool) : SamePool s (s.finishWrite chunkOver) := by
  unfold finishWrite
  have hdel := samePool_outeventDel s
  dsimp only
  split_ifs
  · exact hdel.trans (samePool_withControl _ _)
  · exact hdel.trans (samePool_withControl _ _)
  · exact hdel.trans (samePool_withControl _ _)
  · exact SamePool.refl s

/-! ### The write handlers -/

/-- The write handlers' test of `d_state`. -/
def SendConn.writable (s : SendConn) : Bool :=
  !connCheck s.dState (D_STATE_CLOSE ||| D_STATE_WCLOSE)

/-- What a write handler can do with the queue `q`, and the queue that it leaves. A block is dropped
when it has nothing left, and `conn_write_handler` also drops an over marker behind it. -/
inductive WriteOutcome (fs : FileSystem) (s : SendConn) (whileSend : Bool) (e : Send) :
    List ℕ → SendConn × ℤ → List ℕ → Prop
  | refused {qs : List ℕ} (closed : s.writable = false) :
      WriteOutcome fs s whileSend e qs (s,-1) qs
  | empty (isOpen : s.writable = true) : WriteOutcome fs s whileSend e [] (s.outeventDel,0) []
  | failed {b : ℕ} {rest : List ℕ} (isOpen : s.writable = true) (data : (s.qblocks b).left ≠ 0)
      (ret : (s.sendHead fs b e).2.2 < 0) :
      WriteOutcome fs s whileSend e (b::rest) ((s.sendHead fs b e).1,-1) (b::rest)
  | part {b : ℕ} {rest : List ℕ} {n : ℤ} (isOpen : s.writable = true)
      (data : (s.qblocks b).left ≠ 0) (left : ((s.sendHead fs b e).1.qblocks b).left ≠ 0) :
      WriteOutcome fs s whileSend e (b::rest) ((s.sendHead fs b e).1,n) (b::rest)
  | sent {b : ℕ} {rest : List ℕ} {n : ℤ} (isOpen : s.writable = true)
      (data : (s.qblocks b).left ≠ 0) (left : ((s.sendHead fs b e).1.qblocks b).left = 0) :
      WriteOutcome fs s whileSend e (b::rest)
        ((s.sendHead fs b e).1.popFree.finishWrite false,n) rest
  | sentMarker {b c : ℕ} {rest : List ℕ} {n : ℤ} (isOpen : s.writable = true)
      (data : (s.qblocks b).left ≠ 0) (left : ((s.sendHead fs b e).1.qblocks b).left = 0)
      (mark : (s.qblocks c).left = 0) (write : whileSend = false) :
      WriteOutcome fs s whileSend e (b::c::rest)
        ((s.sendHead fs b e).1.popFree.popFree.finishWrite true,n) rest
  | marker {b : ℕ} {rest : List ℕ} (isOpen : s.writable = true) (mark : (s.qblocks b).left = 0)
      (data : whileSend = false → ∀ c ∈ rest.head?, (s.qblocks c).left ≠ 0) :
      WriteOutcome fs s whileSend e (b::rest) (s.popFree.finishWrite true,0) rest
  | markers {b c : ℕ} {rest : List ℕ} (isOpen : s.writable = true)
      (mark : (s.qblocks b).left = 0) (mark' : (s.qblocks c).left = 0)
      (write : whileSend = false) :
      WriteOutcome fs s whileSend e (b::c::rest) (s.popFree.popFree.finishWrite true,0) rest

theorem sendHead_qblocks_of_ne {b c : ℕ} (fs : FileSystem) (s : SendConn) (e : Send) (h : c ≠ b) :
    (s.sendHead fs b e).1.qblocks c = s.qblocks c := by
  unfold sendHead connWriteChunk
  dsimp only
  split_ifs <;> simp [SendConn.setChunk, h]

theorem sendHead_qblocks {b : ℕ} (fs : FileSystem) (s : SendConn) (e : Send)
    (h : (s.qblocks b).left ≠ 0) :
    (s.sendHead fs b e).1.qblocks b = (s.writeCall fs b e).chunk := by
  unfold sendHead connWriteChunk
  rw [if_pos h]
  dsimp only
  split_ifs <;> simp [SendConn.setChunk]

theorem sendHead_marker {b : ℕ} (fs : FileSystem) (s : SendConn) (e : Send)
    (h : (s.qblocks b).left = 0) : s.sendHead fs b e = (s,true,0) := by
  unfold sendHead
  rw [if_neg (not_not.mpr h)]

theorem sendHead_chunkOver {b : ℕ} (fs : FileSystem) (s : SendConn) (e : Send)
    (h : (s.qblocks b).left ≠ 0) : (s.sendHead fs b e).2.1 = false := by
  unfold sendHead
  rw [if_pos h]
  dsimp only
  split_ifs <;> rfl

theorem PoolInv.popFree_qblocks (h : PoolInv max s (b::q) held) {c : ℕ} (hc : c ≠ b) :
    s.popFree.qblocks c = s.qblocks c := by
  have hhead : s.qhead = some b := h.chain.1
  simp [SendConn.popFree, connPopfromSendq, hhead, connFreechunk, SendConn.setChunk, hc]

theorem PoolInv.next_ne {c : ℕ} (h : PoolInv max s (b::c::q) held) : c ≠ b := by
  have := h.chain.nodup
  simp at this
  exact fun he => this.1.1 he.symm

theorem PoolInv.finishWrite_false (h : PoolInv max s (b::q) held) : s.finishWrite false = s := by
  have := h.total
  simp [SendConn.finishWrite, this]

/-- How `conn_write_handler` goes on once the head block has nothing left. -/
theorem PoolInv.writeDone_dropped (h : PoolInv max s (b::q) held) (hleft : (s.qblocks b).left = 0)
    (chunkOver : Bool) :
    (s.writeDone b chunkOver = s.popFree.finishWrite chunkOver ∧
        ∀ c ∈ q.head?, (s.qblocks c).left ≠ 0) ∨
      ∃ c rest, q = c::rest ∧ (s.qblocks c).left = 0 ∧
        s.writeDone b chunkOver = s.popFree.popFree.finishWrite true := by
  have hhead := h.popFree.head_eq
  unfold SendConn.writeDone
  rw [if_pos hleft]
  dsimp only
  cases q with
  | nil =>
    rw [List.head?_nil] at hhead
    rw [hhead]
    exact Or.inl ⟨rfl, by simp⟩
  | cons c rest =>
    rw [List.head?_cons] at hhead
    rw [hhead]
    simp only [h.popFree_qblocks h.next_ne]
    split_ifs with hc
    · exact Or.inr ⟨c, rest, rfl, hc, rfl⟩
    · exact Or.inl ⟨rfl, by simpa using hc⟩

theorem PoolInv.writeHandler (h : PoolInv max s q held) (fs : FileSystem) (e : Send) :
    ∃ q', WriteOutcome fs s false e q (s.connWriteHandler fs e) q' := by
  unfold connWriteHandler
  split_ifs with hclosed hpos
  · exact ⟨q, .refused (by simp [writable, hclosed])⟩
  all_goals have hopen : s.writable = true := by simp [writable, hclosed]
  · cases q with
    | nil => exact absurd h.total hpos.ne'
    | cons b q =>
      have hhead : s.qhead = some b := h.chain.1
      have hsent := h.sendHead fs e
      rw [hhead]
      dsimp only
      by_cases hleft : (s.qblocks b).left = 0
      · rw [sendHead_marker fs s e hleft, if_neg (lt_irrefl 0)]
        obtain ⟨heq, hnext⟩ | ⟨c, rest, rfl, hc, heq⟩ := h.writeDone_dropped hleft true
        · rw [heq]
          exact ⟨q, .marker hopen hleft fun _ => hnext⟩
        · rw [heq]
          exact ⟨rest, .markers hopen hleft hc rfl⟩
      · split_ifs with hret
        · exact ⟨b::q, .failed hopen hleft hret⟩
        · rw [sendHead_chunkOver fs s e hleft]
          by_cases hleft' : ((s.sendHead fs b e).1.qblocks b).left = 0
          · obtain ⟨heq, -⟩ | ⟨c, rest, rfl, hc, heq⟩ := hsent.writeDone_dropped hleft' false
            · rw [heq]
              exact ⟨q, .sent hopen hleft hleft'⟩
            · rw [heq]
              rw [sendHead_qblocks_of_ne fs s e h.next_ne] at hc
              exact ⟨rest, .sentMarker hopen hleft hleft' hc rfl⟩
          · have hsame : (s.sendHead fs b e).1.writeDone b false = (s.sendHead fs b e).1 := by
              unfold SendConn.writeDone
              rw [if_neg hleft']
              dsimp only
              rw [hsent.chain.1]
              dsimp only
              rw [if_neg hleft', hsent.finishWrite_false]
            rw [hsame]
            exact ⟨b::q, .part hopen hleft hleft'⟩
  · cases q with
    | nil => exact ⟨[], .empty hopen⟩
    | cons b q => exact absurd (h.total ▸ Nat.succ_pos q.length) hpos

theorem PoolInv.sendHandler (h : PoolInv max s q held) (fs : FileSystem) (e : Send) :
    ∃ q', WriteOutcome fs s true e q (s.connSendHandler fs e) q' := by
  unfold connSendHandler
  split_ifs with hclosed hpos
  · exact ⟨q, .refused (by simp [writable, hclosed])⟩
  all_goals have hopen : s.writable = true := by simp [writable, hclosed]
  · cases q with
    | nil => exact absurd h.total hpos.ne'
    | cons b q =>
      have hhead : s.qhead = some b := h.chain.1
      rw [hhead]
      dsimp only
      by_cases hleft : (s.qblocks b).left = 0
      · rw [sendHead_marker fs s e hleft, if_neg (lt_irrefl 0), if_pos hleft]
        exact ⟨q, .marker hopen hleft (by simp)⟩
      · split_ifs with hret hleft'
        · exact ⟨b::q, .failed hopen hleft hret⟩
        · rw [sendHead_chunkOver fs s e hleft]
          exact ⟨q, .sent hopen hleft hleft'⟩
        · exact ⟨b::q, .part hopen hleft hleft'⟩
  · cases q with
    | nil => exact ⟨[], .empty hopen⟩
    | cons b q => exact absurd (h.total ▸ Nat.succ_pos q.length) hpos

/-- The inversion lemma of the write handlers. -/
theorem PoolInv.outHandler (h : PoolInv max s q held) (whileSend : Bool) (fs : FileSystem) (e : Send) :
    ∃ q', WriteOutcome fs s whileSend e q (s.outHandler whileSend fs e) q' := by
  cases whileSend
  · exact h.writeHandler fs e
  · exact h.sendHandler fs e

theorem WriteOutcome.pool {fs : FileSystem} {whileSend : Bool} {e : Send} {r : SendConn × ℤ}
    {q' : List ℕ} (o : WriteOutcome fs s whileSend e q r q') (h : PoolInv max s q held) :
    PoolInv max r.1 q' held := by
  cases o with
  | refused => exact h
  | empty => exact h.same (samePool_outeventDel s)
  | failed | part => exact h.sendHead fs e
  | sent =>
    have hsent := h.sendHead fs e
    exact hsent.popFree.same (samePool_finishWrite _ false)
  | sentMarker =>
    have hsent := h.sendHead fs e
    exact hsent.popFree.popFree.same (samePool_finishWrite _ true)
  | marker => exact h.popFree.same (samePool_finishWrite _ true)
  | markers => exact h.popFree.popFree.same (samePool_finishWrite _ true)

theorem PoolInv.outeventHandler (h : PoolInv max s q held) (whileSend : Bool) (fs : FileSystem)
    (e : Send) : ∃ q', PoolInv max (s.connOuteventHandler whileSend fs e) q' held := by
  unfold connOuteventHandler
  obtain ⟨q', o⟩ := h.outHandler whileSend fs e
  have h' := o.pool h
  dsimp only
  split_ifs
  · exact ⟨q', (h'.same (samePool_outeventDel _)).same (samePool_shutError _)⟩
  · refine ⟨q', PoolInv.same ?_ (samePool_outeventAdd _)⟩
    exact h'.same ⟨rfl,rfl,rfl,rfl,rfl,rfl,rfl,rfl⟩
  · exact ⟨q', h'.same ⟨rfl,rfl,rfl,rfl,rfl,rfl,rfl,rfl⟩⟩
  · exact ⟨q, h⟩

theorem PoolInv.writeEvent (h : PoolInv max s q held) (whileSend : Bool) (fs : FileSystem) (e : Send) :
    ∃ q', PoolInv max (s.writeEvent whileSend fs e) q' held := by
  unfold SendConn.writeEvent connOutputHandler connEventHandler
  obtain ⟨q', o⟩ := h.outHandler whileSend fs e
  have h' := o.pool h
  dsimp only
  split_ifs
  · exact ⟨q', (h'.same (samePool_outeventDel _)).same (samePool_shutError _)⟩
  · exact ⟨q', h'.same ⟨rfl,rfl,rfl,rfl,rfl,rfl,rfl,rfl⟩⟩
  · exact ⟨q, h.same ⟨rfl,rfl,rfl,rfl,rfl,rfl,rfl,rfl⟩⟩
  · exact ⟨q', h'.same ⟨rfl,rfl,rfl,rfl,rfl,rfl,rfl,rfl⟩⟩
  · exact ⟨q', h'⟩

end

/-! ### Runs -/

/-- A connection with the blocks that callers have popped and neither sent nor freed. -/
structure SendWorld where
  conn : SendConn
  held : List ℕ

/-- What the users and the threads of a connection do to its sending half. A caller fills, sends and
frees only blocks that it holds. -/
inductive SendStep
  | pushChunk (alloc : Bool) (junk : Mem) (data : List UInt8)
  | pushFile (filename : String) (offset size : ℕ)
  | newchunk (alloc : Bool) (junk : Mem) (len : ℕ)
  | mnewchunk (alloc : Bool) (junk : Mem) (len : ℕ)
  | fill (b off : ℕ) (bs : List UInt8)
  | sendChunk (b len : ℕ)
  | freechunk (b : ℕ)
  | overChunk
  | write (whileSend : Bool) (e : Send)
  | out (whileSend : Bool) (e : Send)
  | message (disposal : Disposal)

namespace SendConn

/-- The messages that wait for the daemon that drains the queue. -/
def drainMessages (s : SendConn) : List MessageId :=
  if s.outdaemon then s.outMessages else s.inMessages

/-- That daemon takes its next message. -/
def takeDrainMessage (s : SendConn) : SendConn :=
  if s.outdaemon then { s with outMessages := s.outMessages.tail }
  else { s with inMessages := s.inMessages.tail }

end SendConn

namespace SendWorld

/-- The blocks after a call that may hand one out. -/
def grant (w : SendWorld) (r : SendConn × Option ℕ) : SendWorld :=
  ⟨r.1,r.2.toList ++ w.held⟩

/-- A caller stores bytes at `data` of a chunk that it holds. -/
def fill (w : SendWorld) (b off : ℕ) (bs : List UInt8) : SendWorld :=
  if b ∈ w.held then
    let c := w.conn.qblocks b
    let c := { c with data := c.data.map fun d => Memory.write d off bs }
    { w with conn := w.conn.setChunk b c }
  else w

def sendChunk (w : SendWorld) (b len : ℕ) : SendWorld :=
  if b ∈ w.held then
    let r := w.conn.connSendChunk b len
    if r.2 = 0 then ⟨r.1,w.held.erase b⟩ else ⟨r.1,w.held⟩
  else w

def freechunk (w : SendWorld) (b : ℕ) : SendWorld :=
  if b ∈ w.held then ⟨w.conn.connFreechunk b,w.held.erase b⟩ else w

/-- The daemon that drains the queue handles its next message; those other than `MESSAGE_OUT` do
not touch the queue. -/
def out (w : SendWorld) (whileSend : Bool) (fs : FileSystem) (e : Send) : SendWorld :=
  match w.conn.drainMessages with
  | id::_ =>
    let s := w.conn.takeDrainMessage
    { w with conn := if id = .out then connOuteventHandler whileSend fs s e else s }
  | [] => w

/-- The procthread handles its next message. -/
def message (w : SendWorld) (disposal : Disposal) : SendWorld :=
  match w.conn.messages with
  | id::rest =>
    let s : SendConn := { w.conn with messages := rest }
    match id with
    | .end => { w with conn := s.connEndHandler }
    | .free => { w with conn := s.connFreeHandler disposal }
    | _ => { w with conn := s }
  | [] => w

end SendWorld

def SendStep.apply (fs : FileSystem) (w : SendWorld) : SendStep → SendWorld
  | .pushChunk alloc junk data => { w with conn := (w.conn.connPushChunk alloc junk data).1 }
  | .pushFile filename offset size => { w with conn := (w.conn.connPushFile filename offset size).1 }
  | .newchunk alloc junk len => w.grant (w.conn.connNewchunk alloc junk len)
  | .mnewchunk alloc junk len => w.grant (w.conn.connMnewchunk alloc junk len)
  | .fill b off bs => w.fill b off bs
  | .sendChunk b len => w.sendChunk b len
  | .freechunk b => w.freechunk b
  | .overChunk => { w with conn := w.conn.connOverChunk.1 }
  | .write whileSend e => { w with conn := w.conn.writeEvent whileSend fs e }
  | .out whileSend e => w.out whileSend fs e
  | .message disposal => w.message disposal

/-- The steps that call `conn_popchunk`. -/
def SendStep.pops (s : SendConn) : SendStep → Prop
  | .pushChunk _ _ data => s.pushable = true ∧ s.status = CONN_STATUS_FREE ∧ 0 < data.length
  | .pushFile _ _ size => s.pushable = true ∧ s.status = CONN_STATUS_FREE ∧ 0 < size
  | .newchunk _ _ len | .mnewchunk _ _ len => 0 < len
  | .overChunk => s.pushable = true ∧ s.status = CONN_STATUS_FREE
  | _ => False

/-- The pool has a free block, or one that it has not handed out yet. -/
def PopFits (s : SendConn) : Prop := s.qleft ≠ [] ∨ s.qblockMax < SB_QBLOCK_MAX

/-- The pool invariant of a world. -/
def SendWorld.Sound (max : ℕ) (w : SendWorld) : Prop := ∃ q, PoolInv max w.conn q w.held

section
variable {max : ℕ} {s : SendConn} {w : SendWorld} {held : List ℕ}

theorem PoolInv.pushed {q : List ℕ} (h : PoolInv max s q held)
    (hfit : s.qleft ≠ [] ∨ s.qblockMax < max) {c : Chunk} (hc : c.Backed) :
    PoolInv max (((s.connPopchunk.1.setChunk s.connPopchunk.2 c).connPushtoSendq
      s.connPopchunk.2).outeventMessage) (q ++ [s.connPopchunk.2]) held :=
  ((((h.popchunk hfit).1).setHeld hc).pushto).same (samePool_outeventMessage _)

theorem SendWorld.Sound.newchunk (h : w.Sound max) (alloc : Bool) (junk : Mem) (len : ℕ)
    (hfit : 0 < len → w.conn.qleft ≠ [] ∨ w.conn.qblockMax < max) :
    (w.grant (w.conn.connNewchunk alloc junk len)).Sound max := by
  obtain ⟨q, h⟩ := h
  unfold grant connNewchunk
  split_ifs with hlen
  · have hpop := (h.popchunk (hfit hlen)).1
    have hset := hpop.setHeld (chunkMem_backed (hpop.backed w.conn.connPopchunk.2) alloc junk len)
    dsimp only
    split_ifs
    · exact ⟨q, hset.freechunk⟩
    · exact ⟨q, hset⟩
  · exact ⟨q, h⟩

theorem SendWorld.Sound.mnewchunk (h : w.Sound max) (alloc : Bool) (junk : Mem) (len : ℕ)
    (hfit : 0 < len → w.conn.qleft ≠ [] ∨ w.conn.qblockMax < max) :
    (w.grant (w.conn.connMnewchunk alloc junk len)).Sound max := by
  obtain ⟨q, h⟩ := h
  unfold grant connMnewchunk
  split_ifs with hlen
  · have hpop := (h.popchunk (hfit hlen)).1
    have hset := hpop.setHeld (chunkMem_backed (hpop.backed w.conn.connPopchunk.2) alloc junk len)
    dsimp only
    split
    · exact ⟨q, hset.setHeld fun _ => rfl⟩
    · exact ⟨q, hset.freechunk⟩
  · exact ⟨q, h⟩

theorem SendWorld.Sound.fill (h : w.Sound max) (b off : ℕ) (bs : List UInt8) :
    (w.fill b off bs).Sound max := by
  obtain ⟨q, h⟩ := h
  unfold SendWorld.fill
  split_ifs with hb
  · exact ⟨q, h.setChunk (List.mem_append_right q hb) fun hd => by simpa using h.backed b hd⟩
  · exact ⟨q, h⟩

theorem SendWorld.Sound.sendChunk (h : w.Sound max) (b len : ℕ) : (w.sendChunk b len).Sound max := by
  obtain ⟨q, h⟩ := h
  by_cases hb : b ∈ w.held
  · have h' := h.held_perm (List.perm_cons_erase hb)
    by_cases hp : w.conn.pushable = true
    · simp only [SendWorld.sendChunk, if_pos hb, connSendChunk, if_pos hp, if_true]
      have hback : Chunk.Backed { w.conn.qblocks b with left := len } := h.backed b
      exact ⟨q ++ [b], ((h'.setHeld hback).pushto).same (samePool_outeventMessage _)⟩
    · simp only [SendWorld.sendChunk, if_pos hb, connSendChunk, if_neg hp]
      exact ⟨q, h⟩
  · simp only [SendWorld.sendChunk, if_neg hb]
    exact ⟨q, h⟩

theorem SendWorld.Sound.freechunk (h : w.Sound max) (b : ℕ) : (w.freechunk b).Sound max := by
  obtain ⟨q, h⟩ := h
  unfold SendWorld.freechunk
  split_ifs with hb
  · exact ⟨q, (h.held_perm (List.perm_cons_erase hb)).freechunk⟩
  · exact ⟨q, h⟩

theorem samePool_takeDrainMessage (s : SendConn) : SamePool s s.takeDrainMessage := by
  unfold takeDrainMessage
  split_ifs <;> exact ⟨rfl,rfl,rfl,rfl,rfl,rfl,rfl,rfl⟩

theorem SendWorld.Sound.out (h : w.Sound max) (whileSend : Bool) (fs : FileSystem) (e : Send) :
    (w.out whileSend fs e).Sound max := by
  obtain ⟨q, h⟩ := h
  unfold SendWorld.out
  cases w.conn.drainMessages with
  | nil => exact ⟨q, h⟩
  | cons id rest =>
    have h' := h.same (samePool_takeDrainMessage w.conn)
    dsimp only
    split_ifs
    · exact h'.outeventHandler whileSend fs e
    · exact ⟨q, h'⟩

theorem samePool_endHandler (s : SendConn) : SamePool s s.connEndHandler := by
  unfold connEndHandler
  split_ifs
  · exact SamePool.refl s
  · exact samePool_outeventMessage s
  · exact SamePool.refl s

theorem samePool_freeHandler (s : SendConn) (disposal : Disposal) :
    SamePool s (s.connFreeHandler disposal) := by
  unfold connFreeHandler
  split_ifs
  · exact SamePool.refl s
  · cases disposal <;> exact ⟨rfl,rfl,rfl,rfl,rfl,rfl,rfl,rfl⟩

theorem SendWorld.Sound.message (h : w.Sound max) (disposal : Disposal) :
    (w.message disposal).Sound max := by
  obtain ⟨q, h⟩ := h
  unfold SendWorld.message
  cases hm : w.conn.messages with
  | nil => exact ⟨q, h⟩
  | cons id rest =>
    have h' : PoolInv max { w.conn with messages := rest } q w.held :=
      h.same ⟨rfl,rfl,rfl,rfl,rfl,rfl,rfl,rfl⟩
    dsimp only
    split
    · exact ⟨q, h'.same (samePool_endHandler _)⟩
    · exact ⟨q, h'.same (samePool_freeHandler _ _)⟩
    · exact ⟨q, h'⟩

/-- The step lemma of the pool. -/
theorem SendWorld.Sound.step (h : w.Sound max) (fs : FileSystem) (l : SendStep)
    (hfit : l.pops w.conn → w.conn.qleft ≠ [] ∨ w.conn.qblockMax < max) :
    (l.apply fs w).Sound max := by
  cases l with
  | pushChunk alloc junk data =>
    obtain ⟨q, h⟩ := h
    simp only [SendStep.apply, connPushChunk]
    split_ifs with hok
    · have hpop := (h.popchunk (hfit hok)).1
      exact ⟨_, h.pushed (hfit hok)
        (chunkMemCopy_backed (chunkMem_backed (hpop.backed _) alloc junk data.length) data)⟩
    · exact ⟨q, h⟩
  | pushFile filename offset size =>
    obtain ⟨q, h⟩ := h
    simp only [SendStep.apply, connPushFile]
    split_ifs with hok
    · have hpop := (h.popchunk (hfit hok)).1
      exact ⟨_, h.pushed (hfit hok) (chunkFile_backed (hpop.backed _) filename offset size)⟩
    · exact ⟨q, h⟩
  | newchunk alloc junk len => exact h.newchunk alloc junk len hfit
  | mnewchunk alloc junk len => exact h.mnewchunk alloc junk len hfit
  | fill b off bs => exact h.fill b off bs
  | sendChunk b len => exact h.sendChunk b len
  | freechunk b => exact h.freechunk b
  | overChunk =>
    obtain ⟨q, h⟩ := h
    simp only [SendStep.apply, connOverChunk]
    split_ifs with hok
    · exact ⟨_, (h.popchunk (hfit hok)).1.pushto.same (samePool_outeventMessage _)⟩
    · exact ⟨q, h⟩
  | write whileSend e =>
    obtain ⟨q, h⟩ := h
    exact h.writeEvent whileSend fs e
  | out whileSend e => exact h.out whileSend fs e
  | message disposal => exact h.message disposal

end

/-! ### Reuse -/

/-- The steps of a `CONN` object over its connections: the sending of one, and the calls by which it
is given the next. -/
inductive PoolStep
  | send (l : SendStep)
  | addconn (k : Control) (multicast outdaemon indaemon eventWrite : Bool)
  | startCstate
  | terminate
  | reset

def PoolStep.apply (fs : FileSystem) (w : SendWorld) : PoolStep → SendWorld
  | .send l => l.apply fs w
  | .addconn k multicast outdaemon indaemon eventWrite =>
    { w with conn := { w.conn with
      toControl := k, wire := [], multicast := multicast, outdaemon := outdaemon, indaemon := indaemon,
      eventWrite := eventWrite, outeventWrite := false } }
  | .startCstate => { w with conn := w.conn.connStartCstate }
  | .terminate => { w with conn := w.conn.connTerminate }
  | .reset => { w with conn := w.conn.connReset }

/-- The calls of `conn_popchunk` find a free block, or one of the array. -/
def PopsFit (w : SendWorld) (l : PoolStep) : Prop :=
  ∀ k, l = .send k → k.pops w.conn → PopFits w.conn

/-- A `CONN` object of zeroed memory. -/
def SendConn.init : SendConn :=
  { fd := 0, status := CONN_STATUS_FREE, dState := D_STATE_FREE, eState := E_STATE_OFF,
    messages := [], inMessages := [], outMessages := [],
    qblocks := fun _ => chunkInit, qnext := fun _ => none, qhead := none, qtail := none,
    nsendq := 0, qleft := [], qblockMax := 0, cState := C_STATE_FREE,
    multicast := false, outdaemon := false, indaemon := false,
    eventWrite := false, outeventWrite := false, sentDataTotal := 0, wire := [] }

def SendWorld.init : SendWorld := ⟨SendConn.init,[]⟩

theorem SendWorld.init_sound (max : ℕ) : SendWorld.init.Sound max :=
  ⟨[], rfl, rfl, rfl, by simp [SendWorld.init, SendConn.init], Nat.zero_le max,
    fun _ _ => ⟨rfl,rfl,rfl⟩, fun _ => chunkInit_backed⟩

section
variable {max : ℕ} {s s' : SendConn} {q held : List ℕ} {w : SendWorld}

theorem PoolInv.drained (h : PoolInv max s q held) (hs : SamePool s s') :
    PoolInv max (sendqDrain s'.nsendq s') [] held := by
  have h' := h.same hs
  exact h'.drain h'.total.ge

/-- The step lemma of the pool over the lives of a `CONN` object. -/
theorem SendWorld.Sound.reuse (h : w.Sound SB_QBLOCK_MAX) (fs : FileSystem) (l : PoolStep)
    (hfit : PopsFit w l) : (l.apply fs w).Sound SB_QBLOCK_MAX := by
  cases l with
  | send k => exact h.step fs k (hfit k rfl)
  | addconn k multicast outdaemon indaemon eventWrite =>
    obtain ⟨q, h⟩ := h
    exact ⟨q, h.chain, h.tail, h.total, h.perm, h.bound, h.clean, h.backed⟩
  | startCstate =>
    obtain ⟨q, h⟩ := h
    simp only [PoolStep.apply, connStartCstate]
    split_ifs
    · exact ⟨q, h⟩
    · have hsame : SamePool w.conn { w.conn with cState := C_STATE_USING } :=
        ⟨rfl,rfl,rfl,rfl,rfl,rfl,rfl,rfl⟩
      exact ⟨[], h.drained hsame⟩
    · exact ⟨q, h⟩
  | terminate =>
    obtain ⟨q, h⟩ := h
    have hdrain := h.drained
      (samePool_withControl w.conn { w.conn.toControl with dState := D_STATE_CLOSE })
    exact ⟨[], hdrain.same ⟨rfl,rfl,rfl,rfl,rfl,rfl,rfl,rfl⟩⟩
  | reset =>
    obtain ⟨q, h⟩ := h
    refine ⟨[], ?_⟩
    apply PoolInv.drained h
    exact ⟨rfl,rfl,rfl,rfl,rfl,rfl,rfl,rfl⟩

/-- With at most `max` blocks, the pool can serve a pop just when fewer than `max` are outstanding. -/
theorem PoolInv.popFits_iff (h : PoolInv SB_QBLOCK_MAX s q held) :
    PopFits s ↔ (q ++ held).length < SB_QBLOCK_MAX := by
  have hlen := h.length
  have hbound := h.bound
  rw [List.length_append]
  unfold PopFits
  constructor
  · rintro (hne | hlt)
    · have := List.length_pos_iff.mpr hne
      omega
    · omega
  · intro hlt
    by_cases hne : s.qleft = []
    · rw [hne, List.length_nil] at hlen
      exact Or.inr (by omega)
    · exact Or.inl hne

/-- What `conn_popchunk` returns is good exactly when the pool can serve it. -/
theorem PoolInv.popchunk_good_iff (h : PoolInv SB_QBLOCK_MAX s q held) :
    (s.connPopchunk.2 < SB_QBLOCK_MAX ∧ s.connPopchunk.2 ∉ q ++ held) ↔ PopFits s := by
  constructor
  · rintro ⟨hlt, -⟩
    by_cases hne : s.qleft = []
    · apply Or.inr
      simpa [connPopchunk, hne] using hlt
    · exact Or.inl hne
  · intro hfit
    obtain ⟨hpop, hnot⟩ := h.popchunk hfit
    refine ⟨(hpop.lt (by simp)).trans_le hpop.bound, fun hm => hnot ?_⟩
    exact List.mem_append_right _ hm

end

/-- The pool is safe in every run whose pops meet fewer than `SB_QBLOCK_MAX` outstanding blocks,
those in the send queue `q` and those held by callers. -/
theorem conn_popchunk_safe {fs : FileSystem} {w : SendWorld} {ls : List PoolStep}
    (run : Run (Guarded PopsFit (ofFun (PoolStep.apply fs))) SendWorld.init ls w) :
    ∃ q, Chain w.conn.qnext w.conn.qhead q ∧
      w.conn.qleft.length ≤ SB_QBLOCK_MAX ∧ w.conn.qleft.Nodup ∧
      (∀ b ∈ w.conn.qleft, b < SB_QBLOCK_MAX ∧ b ∉ q ++ w.held) ∧
      (∀ b ∈ q ++ w.held, b < SB_QBLOCK_MAX) ∧
      ((w.conn.connPopchunk.2 < SB_QBLOCK_MAX ∧ w.conn.connPopchunk.2 ∉ q ++ w.held) ↔
        PopFits w.conn) ∧
      (PopFits w.conn ↔ (q ++ w.held).length < SB_QBLOCK_MAX) := by
  obtain ⟨q, h⟩ := run.invariant (SendWorld.Sound SB_QBLOCK_MAX) (SendWorld.init_sound _) (by
    rintro w l _ h ⟨hfit, rfl⟩
    exact h.reuse fs l hfit)
  have hlen := h.length
  have hbound := h.bound
  have hnd := List.nodup_append.mp h.nodup
  refine ⟨q, h.chain, by omega, hnd.1, fun b hb => ⟨?_, fun hm => ?_⟩, fun b hb => ?_,
    h.popchunk_good_iff, h.popFits_iff⟩
  · exact (h.lt (List.mem_append_left _ hb)).trans_le hbound
  · exact hnd.2.2 b hb b hm rfl
  · exact (h.lt (List.mem_append_right _ hb)).trans_le hbound

/-- A connection that pushes a chunk, sends it, and takes the block again. -/
def poolRun : List PoolStep :=
  [.addconn ⟨5,CONN_STATUS_FREE,D_STATE_FREE,E_STATE_OFF,[],[],[]⟩ false false false false,
    .send (.pushChunk true (fun _ => 0) [97]), .send (.write false ⟨some 1,false⟩),
    .send (.newchunk true (fun _ => 0) 1)]

theorem conn_popchunk_safe_reused :
    ∃ q, ((poolRun.foldl (PoolStep.apply fun _ _ => 0) SendWorld.init).conn.connPopchunk.2 <
        SB_QBLOCK_MAX ∧
      (poolRun.foldl (PoolStep.apply fun _ _ => 0) SendWorld.init).conn.connPopchunk.2 ∉
        q ++ (poolRun.foldl (PoolStep.apply fun _ _ => 0) SendWorld.init).held ↔
      PopFits (poolRun.foldl (PoolStep.apply fun _ _ => 0) SendWorld.init).conn) := by
  have hfits : Allowed PopsFit (PoolStep.apply fun _ _ => 0) SendWorld.init poolRun := by
    refine ⟨?_, ?_, ?_, ?_, trivial⟩
    · rintro k hk
      cases hk
    · rintro k hk -
      exact Or.inr (by decide)
    · rintro k hk hpops
      cases hk
      exact hpops.elim
    · rintro k hk -
      exact Or.inl (by decide)
  obtain ⟨q, -, -, -, -, -, hgood, -⟩ := conn_popchunk_safe hfits.run
  exact ⟨q, hgood⟩

/-- The seventeenth block that a caller takes is not one of the array. -/
theorem conn_popchunk_overruns :
    ¬ ∀ fs ls w, Run (ofFun (PoolStep.apply fs)) SendWorld.init ls w →
      w.conn.connPopchunk.2 < SB_QBLOCK_MAX := by
  intro hall
  have hbad := hall (fun _ _ => 0)
    (List.replicate 16 (.send (.newchunk true (fun _ => 0) 1))) _ (run_ofFun_iff.mpr rfl)
  revert hbad
  decide

end Sbase
