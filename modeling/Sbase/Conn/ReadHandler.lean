import Sbase.Utils.MmblockQueue
import Sbase.Conn.RecvSteps
import Sbase.Utils.ChunkFill

/-! When `conn_read_handler` fails: what a negative return value says about the socket. -/
namespace Sbase
open Memory RecvConn Runs

namespace RecvConn

/-- The peer of a proxy session no longer exists. -/
def ProxyGone (env : RecvEnv) (s : RecvConn) : Prop :=
  s.session.packetType = PACKET_PROXY ∧ env.peer = false

/-- A read from the socket performed by the call failed. -/
def ReadFailed (reads : List ℤ) : Prop := ∃ n ∈ reads, n ≤ 0

/-- The read handler closes the connection only for a failed read or a proxy without its peer. -/
def HealthyRead (env : RecvEnv) (s : RecvConn) : Prop :=
  (s.connReadHandler env).2.1 < 0 → ReadFailed (s.connReadHandler env).2.2 ∨ ProxyGone env s

/-- The chunk can take what the buffer and the socket have: the buffer does not hold exactly what is
left of it, its memory is there, and it is not a file that has bytes to take. -/
def ChunkTakes (env : RecvEnv) (s : RecvConn) : Prop :=
  if 0 < s.buffer.ndata then
    s.chunk.type = CHUNK_MEM ∧ (s.chunk.data.isSome ∧ s.chunk.end.isSome) ∧
      s.buffer.ndata ≠ s.chunk.left
  else if s.chunk.type = CHUNK_MEM then s.ssl = true ∨ (s.chunk.data.isSome ∧ s.chunk.end.isSome)
  else s.chunk.data.isSome ∧ (chunkFileCheck env.openOk s.chunk).fd = true ∧
    ¬ 0 < (env.recv.take (min s.chunk.left s.chunk.bsize)).2

/-- The block has room for a read, or memory to grow. -/
def CanRead (env : RecvEnv) (m : MMBlock) : Prop := MMBLOCK_MIN ≤ m.left ∨ env.alloc = true

/-- The condition under which the read handler is healthy: urgent data is asked for, or the chunk in
progress can take the data, or the buffer has room for a read. -/
def ReadKeeps (env : RecvEnv) (s : RecvConn) : Prop :=
  (s.session.useOOB = true ∧ CanRead env s.oob) ∨
    if s.receiving then s.ChunkTakes env else CanRead env s.buffer ∨ ProxyGone env s

instance (env : RecvEnv) (s : RecvConn) : Decidable (ProxyGone env s) :=
  inferInstanceAs (Decidable (_ ∧ _))

instance (env : RecvEnv) (m : MMBlock) : Decidable (CanRead env m) :=
  inferInstanceAs (Decidable (_ ∨ _))

instance (env : RecvEnv) (s : RecvConn) : Decidable (s.ChunkTakes env) :=
  inferInstanceAs (Decidable (ite _ _ (ite _ _ _)))

instance (env : RecvEnv) (s : RecvConn) : Decidable (ReadKeeps env s) :=
  inferInstanceAs (Decidable (_ ∨ ite _ _ _))

end RecvConn

section
variable {s : RecvConn} {env : RecvEnv} {q : List UInt8}

/-- The return value of a read of a block is that of the receiving call, when there was one. -/
theorem mmblockRead_ret (alloc : Bool) (m : MMBlock) (r : Recv) :
    (blockReads alloc m r = [] ∧ (mmblockRead alloc m r).2 = -1) ∨
      blockReads alloc m r = [(mmblockRead alloc m r).2] := by
  unfold blockReads mmblockRead recvInto
  generalize readBlock alloc m = m'
  dsimp only
  cases hd : m'.data with
  | none => simp
  | some d =>
    cases he : m'.end with
    | none => simp
    | some e =>
      by_cases hleft : 0 < m'.left
      · right
        simp only [Option.isSome_some, hleft, and_self, if_true]
        split_ifs <;> rfl
      · left
        simp [hleft]

/-- A block in order is read into when it has room. -/
theorem blockReads_ne_nil_iff {m : MMBlock} (h : Holds m q) (r : Recv) :
    blockReads env.alloc m r ≠ [] ↔ CanRead env m := by
  have hroom : blockReads env.alloc m r ≠ [] ↔ (readBlock env.alloc m).data.isSome ∧
      (readBlock env.alloc m).end.isSome ∧ 0 < (readBlock env.alloc m).left := by
    unfold blockReads
    dsimp only
    split_ifs with hr <;> simp [hr]
  have hend {m' : MMBlock} (h' : Holds m' q) (hd : m'.data.isSome) : m'.end.isSome := by
    rw [h'.end_eq, Option.isSome_map]
    exact hd
  rw [hroom]
  unfold CanRead
  constructor
  · rintro ⟨hdata, -, hleft⟩
    by_contra hno
    obtain ⟨hlt, halloc⟩ := not_or.mp hno
    rw [Bool.not_eq_true] at halloc
    rw [halloc, readBlock, if_pos (not_le.mp hlt)] at hdata
    simp [mmblockIncre, xmmResize, MMBLOCK_BASE] at hdata
  · intro hroom
    by_cases hlt : m.left < MMBLOCK_MIN
    · rw [hroom.resolve_left (not_le.mpr hlt)]
      obtain ⟨hb, hleft, hsome⟩ := readBlock_holds h
      exact ⟨hsome, hend hb hsome, hleft⟩
    · obtain ⟨-, hleft, hsome⟩ := readBlock_holds h
      unfold readBlock at hleft hsome ⊢
      rw [if_neg hlt] at hleft hsome ⊢
      exact ⟨hsome, hend h hsome, hleft⟩

theorem readData_ret : (s.readData env).2 < 0 → ProxyGone env s := by
  unfold readData
  dsimp only
  by_cases htype : s.session.packetType = PACKET_PROXY
  · rw [if_pos htype, if_pos (by rw [htype]; decide)]
    intro hneg
    refine ⟨htype, ?_⟩
    cases hp : env.peer with
    | false => rfl
    | true => simp [connProxyHandler, hp] at hneg
  · rw [if_neg htype]
    intro hneg
    exact absurd hneg (lt_irrefl 0)

theorem readBuffer_healthy :
    ((s.readBuffer env).2.1 < 0 → ReadFailed (s.readBuffer env).2.2 ∨ ProxyGone env s) ↔
      blockReads env.alloc s.buffer env.recv ≠ [] ∨ ProxyGone env s := by
  unfold readBuffer
  dsimp only
  obtain ⟨hnone, hret⟩ | hone := mmblockRead_ret env.alloc s.buffer env.recv
  · rw [hret, if_pos (by decide), hnone]
    simp [ReadFailed]
  · rw [hone]
    refine ⟨fun _ => Or.inl (by simp), fun _ => ?_⟩
    split_ifs with hn
    · exact fun _ => Or.inl ⟨_, List.mem_singleton_self _, by omega⟩
    · intro hneg
      have hgone := readData_ret hneg
      exact Or.inr hgone

theorem chunkStatus_over_iff (c : Chunk) : chunkStatus c = CHUNK_STATUS_OVER ↔ c.left = 0 := by
  unfold chunkStatus
  split_ifs with h <;> simp [h, CHUNK_STATUS_OVER, CHUNK_STATUS_ON]

/-- The chunk takes what it can from the data `q` of the buffer. -/
def RecvConn.fillFrom (s : RecvConn) (q : List UInt8) : RecvConn :=
  { s with chunk := (chunkMemFill s.chunk q).1,
           buffer := (mmblockDel s.buffer (chunkMemFill s.chunk q).2).1 }

theorem fillFrom_buffer (h : Holds s.buffer q) (hq : q ≠ []) (hc : Filling s.chunk) :
    Holds (s.fillFrom q).buffer (q.drop s.chunk.left) := by
  obtain ⟨d, e, -, -, hret, -⟩ := chunkMemFill_spec hc hq
  have hdel := mmblockDel_holds h (chunkMemFill s.chunk q).2
  have hdrop : q.drop (min s.chunk.left q.length) = q.drop s.chunk.left := by
    rcases Nat.le_total s.chunk.left q.length with hle | hle
    · rw [Nat.min_eq_left hle]
    · rw [Nat.min_eq_right hle, List.drop_length, List.drop_eq_nil_of_le hle]
  rw [hret, Int.toNat_natCast, hdrop] at hdel
  unfold fillFrom
  rw [hret]
  exact hdel

/-- Filling a chunk from the buffer completes the chunk when the buffer has all that is left of it. -/
theorem connReadChunk'_eq (h : Holds s.buffer q) (hr : s.receiving) (hq : q ≠ [])
    (hc : Filling s.chunk) (openOk : Bool) :
    s.connReadChunk' openOk =
      (if s.chunk.left ≤ q.length then (s.fillFrom q).chunkDone else s.fillFrom q, 0) := by
  obtain ⟨d, e, hd, he, hret, hchunk⟩ := chunkMemFill_spec hc hq
  have hlen := List.length_pos_iff.mpr hq
  have hleft := hc.left
  have hpos : 0 < (chunkMemFill s.chunk q).2 := by rw [hret]; omega
  have hn : 0 < s.buffer.ndata := by rw [h.ndata_eq]; omega
  have hover : chunkStatus (chunkMemFill s.chunk q).1 = CHUNK_STATUS_OVER ↔
      s.chunk.left ≤ q.length := by
    rw [chunkStatus_over_iff, hchunk]
    exact Nat.sub_eq_zero_iff_le
  unfold connReadChunk' chunkFill fillFrom
  rw [if_pos ⟨hr.1, hr.2.1, hr.2.2, hn⟩, if_pos hc.type, h.bytes_eq]
  simp only [hpos, if_true, hover]

/-- Where the chunk cannot take it, the buffer stays as it is and the call fails. -/
theorem connReadChunk'_refused (h : Holds s.buffer q) (hr : s.receiving) (hq : q ≠ [])
    (hc : ¬ (s.chunk.type = CHUNK_MEM ∧ s.chunk.data.isSome ∧ s.chunk.end.isSome)) (openOk : Bool) :
    (s.connReadChunk' openOk).2 = -1 ∧ (s.connReadChunk' openOk).1.buffer = s.buffer := by
  have hlen := List.length_pos_iff.mpr hq
  have hn : 0 < s.buffer.ndata := by rw [h.ndata_eq]; omega
  obtain ⟨hret, hleft⟩ : (chunkFill openOk s.chunk q).2 ≤ 0 ∧
      (chunkFill openOk s.chunk q).1.left = s.chunk.left := by
    unfold chunkFill
    split_ifs with hm
    · unfold chunkMemFill
      split
      · rename_i d e hd he
        exact absurd ⟨hm, by simp [hd], by simp [he]⟩ hc
      · exact ⟨le_rfl, rfl⟩
    · unfold chunkFileFill chunkFileCheck
      split_ifs <;> exact ⟨show (-1 : ℤ) ≤ 0 by decide, rfl⟩
  have hstatus : ¬ chunkStatus (chunkFill openOk s.chunk q).1 = CHUNK_STATUS_OVER := by
    rw [chunkStatus_over_iff, hleft]
    exact hr.2.2.ne'
  unfold connReadChunk'
  rw [if_pos ⟨hr.1, hr.2.1, hr.2.2, hn⟩, h.bytes_eq]
  simp only [hstatus, not_lt.mpr hret, if_false]
  exact ⟨trivial, trivial⟩

theorem chunkReadWith_ret {c : Chunk} {refused : ℤ} (r : Recv) :
    (chunkReadWith refused c r).2 =
      if c.data.isSome ∧ c.end.isSome ∧ 0 < c.left then (r.take c.left).2 else refused := by
  unfold chunkReadWith
  cases hd : c.data with
  | none => simp
  | some d =>
    cases he : c.end with
    | none => simp
    | some e =>
      by_cases hleft : 0 < c.left
      · simp only [Option.isSome_some, hleft, and_self, if_true]
        split_ifs <;> rfl
      · simp [hleft]

/-- Reading from the socket into a chunk of memory. -/
theorem connReadingChunk_mem (hm : s.chunk.type = CHUNK_MEM) :
    (s.connReadingChunk env).2 =
      if s.chunk.data.isSome ∧ s.chunk.end.isSome ∧ 0 < s.chunk.left then
        ((env.recv.take s.chunk.left).2, [(env.recv.take s.chunk.left).2])
      else (if s.ssl then 1 else -2, []) := by
  unfold connReadingChunk
  rw [if_pos hm]
  cases hs : s.ssl
  · simp only [Bool.false_eq_true, if_false, chunkRead]
    split_ifs with hroom <;> simp [chunkReadWith_ret, hroom]
  · simp only [if_true, chunkReadSSL]
    split_ifs with hroom <;> simp [chunkReadWith_ret, hroom]

/-- Reading from the socket into a file, which never succeeds. -/
theorem connReadingChunk_file (hm : s.chunk.type ≠ CHUNK_MEM) :
    (s.connReadingChunk env).2 =
      (-1, if s.chunk.data.isSome ∧ 0 < s.chunk.left ∧ (chunkFileCheck env.openOk s.chunk).fd then
        [(env.recv.take (min s.chunk.left s.chunk.bsize)).2] else []) := by
  have hret : (chunkReadToFile env.openOk s.chunk env.recv).2.2 = -1 := by
    unfold chunkReadToFile
    split
    · dsimp only
      split_ifs <;> rfl
    · rfl
  unfold connReadingChunk
  rw [if_neg hm]
  simp only [hret]
  split_ifs <;> rfl

theorem connChunkRead_ret (hs : s.sState = S_STATE_READ_CHUNK) (n : ℤ) :
    (s.connChunkRead env n).2 = (s.connReadingChunk env).2 := by
  unfold connChunkRead
  rw [if_pos hs]
  dsimp only
  split_ifs <;> rfl

/-- A read into a chunk of memory fails as the socket does. -/
theorem connChunkRead_healthy (hs : s.sState = S_STATE_READ_CHUNK) (hm : s.chunk.type = CHUNK_MEM)
    (hleft : 0 < s.chunk.left) (n : ℤ) :
    ((if (s.connChunkRead env n).2.1 = 0 then -1 else (s.connChunkRead env n).2.1) < 0 →
        ReadFailed (s.connChunkRead env n).2.2) ↔
      s.ssl = true ∨ (s.chunk.data.isSome ∧ s.chunk.end.isSome) := by
  by_cases hroom : s.chunk.data.isSome ∧ s.chunk.end.isSome
  · have hread : (s.connChunkRead env n).2 =
        ((env.recv.take s.chunk.left).2, [(env.recv.take s.chunk.left).2]) := by
      rw [connChunkRead_ret hs, connReadingChunk_mem hm, if_pos ⟨hroom.1, hroom.2, hleft⟩]
    rw [hread]
    refine ⟨fun _ => Or.inr hroom, fun _ hneg => ⟨_, List.mem_singleton_self _, ?_⟩⟩
    dsimp only at hneg
    split_ifs at hneg with hzero
    · exact hzero.le
    · exact hneg.le
  · have hread : (s.connChunkRead env n).2 = (if s.ssl then 1 else -2, []) := by
      rw [connChunkRead_ret hs, connReadingChunk_mem hm]
      rw [if_neg fun hall => hroom ⟨hall.1, hall.2.1⟩]
    rw [hread]
    cases hssl : s.ssl
    · simp [ReadFailed, hroom]
    · simp

theorem connChunkRead_file_healthy (hs : s.sState = S_STATE_READ_CHUNK)
    (hm : s.chunk.type ≠ CHUNK_MEM) (hleft : 0 < s.chunk.left) (n : ℤ) :
    ((if (s.connChunkRead env n).2.1 = 0 then -1 else (s.connChunkRead env n).2.1) < 0 →
        ReadFailed (s.connChunkRead env n).2.2) ↔
      s.chunk.data.isSome ∧ (chunkFileCheck env.openOk s.chunk).fd = true ∧
        ¬ 0 < (env.recv.take (min s.chunk.left s.chunk.bsize)).2 := by
  by_cases hroom : s.chunk.data.isSome ∧ (chunkFileCheck env.openOk s.chunk).fd = true
  · have hread : (s.connChunkRead env n).2 =
        (-1, [(env.recv.take (min s.chunk.left s.chunk.bsize)).2]) := by
      rw [connChunkRead_ret hs, connReadingChunk_file hm, if_pos ⟨hroom.1, hleft, hroom.2⟩]
    rw [hread]
    simp [ReadFailed, hroom.1, hroom.2]
  · have hread : (s.connChunkRead env n).2 = (-1, []) := by
      rw [connChunkRead_ret hs, connReadingChunk_file hm]
      rw [if_neg fun hall => hroom ⟨hall.1, hall.2.2⟩]
    rw [hread]
    constructor
    · intro hneg
      obtain ⟨k, hk, -⟩ := hneg (show (-1 : ℤ) < 0 by decide)
      cases hk
    · intro hall
      exact absurd ⟨hall.1, hall.2.1⟩ hroom

theorem ndata_pos (h : Holds s.buffer q) (hq : q ≠ []) : 0 < s.buffer.ndata := by
  have := List.length_pos_iff.mpr hq
  rw [h.ndata_eq]
  omega

/-- The buffer does not complete the chunk, so that the socket is read. -/
theorem readChunkFirst_partly (h : Holds s.buffer q) (hr : s.receiving) (hq : q ≠ [])
    (hc : Filling s.chunk) (hlt : q.length < s.chunk.left) (n : ℤ) :
    s.readChunkFirst env n =
      (let r := (s.fillFrom q).connChunkRead env n
       (r.1, if r.2.1 = 0 then -1 else r.2.1, r.2.2)) := by
  have hholds := (fillFrom_buffer h hq hc).ndata_eq
  rw [List.drop_eq_nil_of_le hlt.le] at hholds
  unfold readChunkFirst
  rw [if_pos (ndata_pos h hq), connReadChunk'_eq h hr hq hc, if_neg (not_le.mpr hlt)]
  dsimp only
  rw [if_pos (show (s.fillFrom q).buffer.ndata ≤ 0 from hholds.le)]

/-- The buffer completes the chunk and is empty then. -/
theorem readChunkFirst_exactly (h : Holds s.buffer q) (hr : s.receiving) (hq : q ≠ [])
    (hc : Filling s.chunk) (heq : q.length = s.chunk.left) (n : ℤ) :
    s.readChunkFirst env n = ((s.fillFrom q).chunkDone, if n = 0 then -1 else n, []) := by
  have hholds := (fillFrom_buffer h hq hc).ndata_eq
  rw [List.drop_eq_nil_of_le heq.le] at hholds
  have hskip : (s.fillFrom q).chunkDone.connChunkRead env n = ((s.fillFrom q).chunkDone, n, []) := by
    unfold connChunkRead
    rw [if_neg (show ¬ (s.fillFrom q).chunkDone.sState = S_STATE_READ_CHUNK from
      show ¬ S_STATE_DATA_HANDLING = S_STATE_READ_CHUNK by decide)]
  unfold readChunkFirst
  rw [if_pos (ndata_pos h hq), connReadChunk'_eq h hr hq hc, if_pos heq.ge]
  dsimp only
  rw [if_pos (show (s.fillFrom q).chunkDone.buffer.ndata ≤ 0 from hholds.le), hskip]

/-- The buffer completes the chunk and has more. -/
theorem readChunkFirst_beyond (h : Holds s.buffer q) (hr : s.receiving) (hq : q ≠ [])
    (hc : Filling s.chunk) (hlt : s.chunk.left < q.length) (n : ℤ) :
    s.readChunkFirst env n = ((s.fillFrom q).chunkDone, 0, []) := by
  have hholds := (fillFrom_buffer h hq hc).ndata_eq
  rw [List.length_drop] at hholds
  unfold readChunkFirst
  rw [if_pos (ndata_pos h hq), connReadChunk'_eq h hr hq hc, if_pos hlt.le]
  dsimp only
  rw [if_neg (show ¬ (s.fillFrom q).chunkDone.buffer.ndata ≤ 0 from fun hle => by
    have : (s.fillFrom q).buffer.ndata ≤ 0 := hle
    omega)]

theorem readChunkFirst_healthy (h : Holds s.buffer q) (hr : s.receiving) :
    ((s.readChunkFirst env (-1)).2.1 < 0 → ReadFailed (s.readChunkFirst env (-1)).2.2) ↔
      s.ChunkTakes env := by
  have hnd := h.ndata_eq
  unfold ChunkTakes
  by_cases hn : 0 < s.buffer.ndata
  · have hq : q ≠ [] := by
      rintro rfl
      rw [hnd] at hn
      exact lt_irrefl 0 hn
    rw [if_pos hn]
    by_cases hc : s.chunk.type = CHUNK_MEM ∧ s.chunk.data.isSome ∧ s.chunk.end.isSome
    · have hfill : Filling s.chunk := ⟨hc.1, hr.2.2, hc.2.1, hc.2.2⟩
      obtain ⟨d, e, hd, he, -, hchunk⟩ := chunkMemFill_spec hfill hq
      rcases lt_trichotomy q.length s.chunk.left with hlt | heq | hgt
      · have hmem : (s.fillFrom q).chunk.type = CHUNK_MEM := by
          unfold fillFrom
          rw [hchunk]
          exact hc.1
        have hroom : (s.fillFrom q).chunk.data.isSome ∧ (s.fillFrom q).chunk.end.isSome := by
          unfold fillFrom
          rw [hchunk]
          exact ⟨rfl, rfl⟩
        have hleft : 0 < (s.fillFrom q).chunk.left := by
          unfold fillFrom
          rw [hchunk]
          exact Nat.sub_pos_of_lt hlt
        rw [readChunkFirst_partly h hr hq hfill hlt]
        dsimp only
        rw [connChunkRead_healthy (s := s.fillFrom q) hr.1 hmem hleft]
        exact ⟨fun _ => ⟨hc.1, hc.2, by omega⟩, fun _ => Or.inr hroom⟩
      · rw [readChunkFirst_exactly h hr hq hfill heq]
        refine ⟨fun hneg => ?_, fun hne => absurd (by omega) hne.2.2⟩
        obtain ⟨k, hk, -⟩ := hneg (show (if (-1 : ℤ) = 0 then -1 else -1) < 0 by decide)
        cases hk
      · rw [readChunkFirst_beyond h hr hq hfill hgt]
        exact ⟨fun _ => ⟨hc.1, hc.2, by omega⟩, fun _ hneg => absurd hneg (lt_irrefl 0)⟩
    · obtain ⟨hret, hbuffer⟩ := connReadChunk'_refused h hr hq hc env.openOk
      unfold readChunkFirst
      rw [if_pos hn]
      dsimp only
      rw [hret, hbuffer, if_neg (not_le.mpr hn)]
      refine ⟨fun hneg => ?_, fun hall => absurd ⟨hall.1,hall.2.1⟩ hc⟩
      obtain ⟨k, hk, -⟩ := hneg (show (-1 : ℤ) < 0 by decide)
      cases hk
  · unfold readChunkFirst
    rw [if_neg hn, if_neg hn]
    dsimp only
    rw [if_pos (not_lt.mp hn)]
    by_cases hm : s.chunk.type = CHUNK_MEM
    · rw [if_pos hm]
      exact connChunkRead_healthy hr.1 hm hr.2.2 (-1)
    · rw [if_neg hm]
      exact connChunkRead_file_healthy hr.1 hm hr.2.2 (-1)

/-- The results of the reads of urgent data. -/
def oobReads (env : RecvEnv) (s : RecvConn) : List ℤ :=
  if s.session.useOOB then blockReads env.alloc s.oob env.oob else []

/-- Urgent data ends the call. -/
theorem connReadHandler_oob (huse : s.session.useOOB = true)
    (hpos : 0 < (mmblockRecv env.alloc s.oob env.oob).2)
    (hopen : connCheck s.dState (D_STATE_RCLOSE ||| D_STATE_CLOSE) = false) :
    (s.connReadHandler env).2.1 = 0 := by
  unfold connReadHandler
  rw [hopen, if_neg Bool.false_ne_true]
  simp only [huse, if_true, true_and, hpos]

/-- Without urgent data the call goes on to the chunk or to the buffer. -/
theorem connReadHandler_rest (env : RecvEnv)
    (hoob : ¬ (s.session.useOOB = true ∧ 0 < (mmblockRecv env.alloc s.oob env.oob).2))
    (hopen : connCheck s.dState (D_STATE_RCLOSE ||| D_STATE_CLOSE) = false) :
    ∃ o n, (s.session.useOOB = false → n = -1) ∧
      (s.session.useOOB = true → n = (mmblockRecv env.alloc s.oob env.oob).2) ∧
      s.connReadHandler env =
        (let s' : RecvConn := { s with oob := o }
         let r := if s.receiving then s'.readChunkFirst env n else s'.readBuffer env
         (r.1, r.2.1, oobReads env s ++ r.2.2)) := by
  unfold connReadHandler oobReads
  rw [hopen, if_neg Bool.false_ne_true]
  cases huse : s.session.useOOB with
  | false =>
    refine ⟨s.oob, -1, fun _ => rfl, fun h => absurd h Bool.false_ne_true, ?_⟩
    simp only [huse, Bool.false_eq_true, false_and, if_false]
  | true =>
    have hpos : ¬ 0 < (mmblockRecv env.alloc s.oob env.oob).2 := fun h => hoob ⟨huse, h⟩
    refine ⟨(mmblockRecv env.alloc s.oob env.oob).1, _, fun h => absurd h.symm Bool.false_ne_true,
      fun _ => rfl, ?_⟩
    simp only [huse, if_true, true_and, hpos, if_false]
    rfl

/-- The exact condition, in a state whose buffer is in order. -/
theorem healthyRead_iff {o : List UInt8} (h : Holds s.buffer q) (ho : Holds s.oob o)
    (hopen : connCheck s.dState (D_STATE_RCLOSE ||| D_STATE_CLOSE) = false) :
    HealthyRead env s ↔ ReadKeeps env s := by
  unfold HealthyRead ReadKeeps
  rw [← blockReads_ne_nil_iff h env.recv, ← blockReads_ne_nil_iff ho env.oob]
  by_cases hoob : s.session.useOOB = true ∧ blockReads env.alloc s.oob env.oob ≠ []
  · refine ⟨fun _ => Or.inl hoob, fun _ hneg => Or.inl ?_⟩
    obtain ⟨hnone, -⟩ | hone := mmblockRead_ret env.alloc s.oob env.oob
    · exact absurd hnone hoob.2
    by_cases hpos : 0 < (mmblockRecv env.alloc s.oob env.oob).2
    · rw [connReadHandler_oob hoob.1 hpos hopen] at hneg
      exact absurd hneg (lt_irrefl 0)
    · obtain ⟨o, n, -, -, heq⟩ := connReadHandler_rest env (fun hp => hpos hp.2) hopen
      rw [heq]
      refine ⟨_, List.mem_append_left _ ?_, not_lt.mp hpos⟩
      rw [oobReads, if_pos hoob.1, hone]
      exact List.mem_singleton_self _
  · have hnone : oobReads env s = [] := by
      unfold oobReads
      split_ifs with huse
      · exact not_not.mp fun hne => hoob ⟨huse, hne⟩
      · rfl
    have hret : s.session.useOOB = true → (mmblockRecv env.alloc s.oob env.oob).2 = -1 := by
      intro huse
      obtain ⟨-, hret⟩ | hone := mmblockRead_ret env.alloc s.oob env.oob
      · exact hret
      · exact absurd ⟨huse, by rw [hone]; simp⟩ hoob
    obtain ⟨o, n, hfalse, htrue, heq⟩ := connReadHandler_rest env
      (fun hp => absurd hp.2 (by rw [hret hp.1]; decide)) hopen
    have hn : n = -1 := by
      cases huse : s.session.useOOB with
      | false => exact hfalse huse
      | true => rw [htrue huse, hret huse]
    rw [heq, hnone, hn]
    simp only [hoob, false_or, List.nil_append]
    by_cases hr : s.receiving
    · have hproxy : ¬ ProxyGone env s := fun hp => hr.2.1 hp.1
      rw [if_pos hr, if_pos hr, or_iff_left hproxy]
      exact readChunkFirst_healthy (s := { s with oob := o }) h hr
    · rw [if_neg hr, if_neg hr]
      exact readBuffer_healthy (s := { s with oob := o })

end

open Runs

/-- In every state that a connection reaches, whatever has been read, handled and called before, the
read handler is healthy under just that condition. -/
theorem conn_read_handler_healthy_iff {s t : RecvConn} {ls : List RecvStep} {env : RecvEnv}
    (h : Fresh s) (run : Run (ofFun RecvStep.apply) s ls t)
    (hopen : connCheck t.dState (D_STATE_RCLOSE ||| D_STATE_CLOSE) = false) :
    HealthyRead env t ↔ ReadKeeps env t := by
  have hord := h.run_orderly run
  obtain ⟨q, hq⟩ := hord.buffer
  obtain ⟨o, ho⟩ := hord.oob
  exact healthyRead_iff hq ho hopen

/-- Packets of one byte, each followed by a chunk of one byte. -/
def pairSession : Session where
  packetType := PACKET_CERTAIN_LENGTH
  packetLength := 1
  packetDelimiter := none
  packetDelimiterLength := 0
  useOOB := false
  packetReader := none
  quickHandler := none
  chunkReader := none
  oobHandler := none
  packetHandler := some fun _ => .recvChunk 1
  dataHandler := some fun _ _ => .finish
  fileHandler := none

/-- A socket that has `bs`. -/
def socketHas (bs : List UInt8) : RecvEnv where
  oob := .fail 1
  recv := .bytes bs
  alloc := true
  junk := fun _ => 0
  openOk := true
  peer := true

/-- Both bytes arrive at once. -/
def pairArrives : List RecvStep := [.read (socketHas [97,98])]

/-- The packet has been handled, so that its chunk waits in the buffer. -/
def pairWaits : List RecvStep := pairArrives ++ [.message (socketHas [])]

theorem conn_read_handler_healthy_pair :
    HealthyRead (socketHas [99]) (pairArrives.foldl RecvStep.apply (RecvConn.start pairSession)) := by
  have hrun := run_ofFun_iff.mpr (Eq.refl (pairArrives.foldl RecvStep.apply (RecvConn.start pairSession)))
  exact (conn_read_handler_healthy_iff (RecvConn.start_fresh pairSession) hrun (by decide)).mpr
    (by decide)

/-- A read event before the message about the chunk completes the chunk from the buffer, and the
handler fails without a read. -/
theorem conn_read_handler_unhealthy :
    ¬ ∀ s ls t env, Fresh s → Run (ofFun RecvStep.apply) s ls t →
      connCheck t.dState (D_STATE_RCLOSE ||| D_STATE_CLOSE) = false → HealthyRead env t := by
  intro hall
  have hrun := run_ofFun_iff.mpr (Eq.refl (pairWaits.foldl RecvStep.apply (RecvConn.start pairSession)))
  have hbad := hall _ _ _ (socketHas [99]) (RecvConn.start_fresh pairSession) hrun (by decide)
  revert hbad
  unfold HealthyRead ReadFailed ProxyGone
  decide

end Sbase
