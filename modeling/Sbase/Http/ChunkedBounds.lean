import Sbase.Http.Chunked

/-! `http_chunked_parse` on any body.

Every line of a size leads to the next one, at a distance that may be negative: eight digits overflow an
`int`. The loop ends where the body does, or at a size of zero. -/
namespace Sbase
open Function

/-- The size that is read at a position of the buffer. -/
def chunkSize (data : List UInt8) (p : ℤ) : ℤ := httpHextodec ((data.drop p.toNat).takeWhile isAlnum)

/-- Where the data begins behind the line of a size. -/
def chunkStart (data : List UInt8) (p : ℤ) : ℤ :=
  let line := data.drop p.toNat
  p + (line.takeWhile isAlnum).length + ((line.dropWhile isAlnum).takeWhile notLineEnd).length + 2

/-- Where the next size is read. -/
def nextChunk (data : List UInt8) (p : ℤ) : ℤ := chunkStart data p + chunkSize data p + 2

/-- The end of the line behind a size of zero. -/
def lineEnd (data : List UInt8) (p : ℤ) : ℤ :=
  chunkStart data p + ((data.drop (chunkStart data p).toNat).takeWhile notLineEnd).length

/-- The line behind a size of zero ends with CRLF. -/
def LineEnded (data : List UInt8) (p : ℤ) : Prop :=
  byteAt data (lineEnd data p) = some 13 ∧ byteAt data (lineEnd data p + 1) = some 10

instance (data : List UInt8) (p : ℤ) : Decidable (LineEnded data p) := inferInstanceAs (Decidable (_ ∧ _))

/-- A chunk is read at a position inside of the buffer. -/
def ChunkAt (data : List UInt8) (p : ℤ) : Prop := 0 ≤ p ∧ p < data.length ∧ chunkSize data p ≠ 0

/-- The position of a chunk by its number. -/
def chunkPos (data : List UInt8) (i : ℕ) : ℤ := (nextChunk data)^[i] 0

/-- The value that is returned where the loop ends. -/
def chunkRet (data : List UInt8) (p : ℤ) : ℤ :=
  if p < data.length ∧ LineEnded data p then lineEnd data p + 2 else -1

/-- The loop ends at a position. -/
def EndsAt (data : List UInt8) (p : ℤ) : Prop :=
  data.length ≤ p ∨ 0 ≤ p ∧ p < data.length ∧ chunkSize data p = 0

instance (data : List UInt8) (p : ℤ) : Decidable (EndsAt data p) := inferInstanceAs (Decidable (_ ∨ _))

theorem chunkStart_ge (data : List UInt8) (p : ℤ) : p + 2 ≤ chunkStart data p := by
  unfold chunkStart
  dsimp only
  omega

theorem lineEnd_ge (data : List UInt8) (p : ℤ) : chunkStart data p ≤ lineEnd data p := by
  unfold lineEnd
  omega

/-- A round of the loop, by the position. -/
theorem httpChunkedLoop_round (data : List UInt8) (slots k : ℕ) (p : ℤ) (chunks : ℕ → HttpK) :
    httpChunkedLoop data slots k p chunks =
      if data.length ≤ p then some (-1,chunks,k)
      else if p < 0 then none
      else if chunkSize data p = 0 then some (chunkRet data p,chunks,k)
      else
        match slots with
        | 0 => none
        | slots+1 => httpChunkedLoop data slots (k+1) (nextChunk data p)
            (update chunks k ⟨chunkStart data p,chunkSize data p⟩) := by
  rw [httpChunkedLoop.eq_def]
  dsimp only
  by_cases hend : (data.length : ℤ) ≤ p
  · rw [if_neg (not_lt.2 hend),if_pos hend]
  have hlt : p < data.length := not_le.1 hend
  rw [if_pos hlt,if_neg hend]
  by_cases hneg : p < 0
  · rw [scan,if_pos hneg,if_pos hneg]
    rfl
  let word := (data.drop p.toNat).takeWhile isAlnum
  have hlen : (p + (word.length : ℤ) - p).toNat = word.length := by omega
  have hsize : (data.drop p.toNat).take word.length = word :=
    (List.prefix_iff_eq_take.1 (List.takeWhile_prefix _)).symm
  have hrest : data.drop (p + (word.length : ℤ)).toNat = (data.drop p.toNat).dropWhile isAlnum := by
    have hpos : (p + (word.length : ℤ)).toNat = p.toNat + word.length := by omega
    have hsplit := congrArg (List.drop word.length)
      (List.takeWhile_append_dropWhile (p := isAlnum) (l := data.drop p.toNat))
    rw [List.drop_left] at hsplit
    rw [hpos,← List.drop_drop,hsplit]
  have hline : scan notLineEnd data (p + (word.length : ℤ)) = some (chunkStart data p - 2) := by
    rw [scan,if_neg (by omega),hrest,chunkStart]
    congr 1
    dsimp only [word]
    ring
  have hstart := chunkStart_ge data p
  have hlast : scan notLineEnd data (chunkStart data p) = some (lineEnd data p) := by
    rw [scan,if_neg (by omega)]
    rfl
  rw [scan,if_neg hneg,if_neg hneg,Option.bind_some]
  change (scan notLineEnd data (p + (word.length : ℤ))).bind _ = _
  rw [hline,Option.bind_some,hlen,hsize,sub_add_cancel,← chunkSize]
  by_cases hzero : chunkSize data p = 0
  · rw [if_pos hzero,if_pos hzero,hlast,Option.bind_some]
    by_cases hcrlf : LineEnded data p
    · have hret : chunkRet data p = lineEnd data p + 2 := if_pos ⟨hlt,hcrlf⟩
      rw [hret]
      exact if_pos hcrlf
    · have hret : chunkRet data p = -1 := if_neg fun h => hcrlf h.2
      rw [hret]
      exact if_neg hcrlf
  · rw [if_neg hzero,if_neg hzero]
    rfl

/-- Where no chunk is read, the loop is over. -/
theorem httpChunkedLoop_no_chunk {data : List UInt8} {p : ℤ} (hno : ¬ ChunkAt data p) (slots k : ℕ)
    (chunks : ℕ → HttpK) : httpChunkedLoop data slots k p chunks =
      if EndsAt data p then some (chunkRet data p,chunks,k) else none := by
  rw [httpChunkedLoop_round]
  by_cases hend : (data.length : ℤ) ≤ p
  · rw [if_pos hend,if_pos (.inl hend),chunkRet,if_neg fun h => absurd h.1 (not_lt.2 hend)]
  have hlt : p < data.length := not_le.1 hend
  rw [if_neg hend]
  by_cases hneg : p < 0
  · have hends : ¬ EndsAt data p := by
      rintro (h | h)
      · exact hend h
      · exact absurd h.1 (not_le.2 hneg)
    rw [if_pos hneg,if_neg hends]
  · have hzero : chunkSize data p = 0 := by
      by_contra hsize
      exact hno ⟨not_lt.1 hneg,hlt,hsize⟩
    rw [if_neg hneg,if_pos hzero,if_pos (.inr ⟨not_lt.1 hneg,hlt,hzero⟩)]

/-- A chunk takes an entry of the table. -/
theorem httpChunkedLoop_at {data : List UInt8} {p : ℤ} (h : ChunkAt data p) (slots k : ℕ)
    (chunks : ℕ → HttpK) : httpChunkedLoop data slots k p chunks =
      match slots with
      | 0 => none
      | slots+1 => httpChunkedLoop data slots (k+1) (nextChunk data p)
          (update chunks k ⟨chunkStart data p,chunkSize data p⟩) := by
  rw [httpChunkedLoop_round,if_neg (not_le.2 h.2.1),if_neg (not_lt.2 h.1),if_neg h.2.2]

theorem ChunkAt.not_end {data : List UInt8} {p : ℤ} (h : ChunkAt data p) : ¬ EndsAt data p := by
  rintro (hend | ⟨-,-,hzero⟩)
  · exact absurd hend (not_le.2 h.2.1)
  · exact h.2.2 hzero

/-- The table behind some chunks. -/
def fillChunks (data : List UInt8) : ℕ → ℤ → (ℕ → HttpK) → ℕ → ℕ → HttpK
  | _, _, chunks, 0 => chunks
  | k, p, chunks, m+1 => fillChunks data (k+1) (nextChunk data p)
      (update chunks k ⟨chunkStart data p,chunkSize data p⟩) m

theorem fillChunks_before (data : List UInt8) (m k i : ℕ) (p : ℤ) (chunks : ℕ → HttpK)
    (hi : i < k ∨ k + m ≤ i) : fillChunks data k p chunks m i = chunks i := by
  induction m generalizing k p chunks with
  | zero => rfl
  | succ m ih => rw [fillChunks,ih (k+1) _ _ (by omega),update_of_ne (by omega)]

theorem fillChunks_at (data : List UInt8) (m k i : ℕ) (p : ℤ) (chunks : ℕ → HttpK) (hi : i < m) :
    fillChunks data k p chunks m (k + i) =
      ⟨chunkStart data ((nextChunk data)^[i] p),chunkSize data ((nextChunk data)^[i] p)⟩ := by
  induction m generalizing k i p chunks with
  | zero => exact absurd hi (Nat.not_lt_zero i)
  | succ m ih =>
    cases i with
    | zero =>
      rw [fillChunks,fillChunks_before data m _ _ _ _ (.inl (by omega)),Nat.add_zero,update_self]
      rfl
    | succ i =>
      have hk : k + (i+1) = k + 1 + i := by omega
      rw [fillChunks,hk,ih (k+1) i _ _ (by omega),iterate_succ_apply]

/-- The loop returns exactly when, behind chunks that fit in the table, it comes to an end. -/
theorem httpChunkedLoop_eq_some (data : List UInt8) (slots k : ℕ) (p : ℤ) (chunks : ℕ → HttpK)
    (r : ℤ × (ℕ → HttpK) × ℕ) :
    httpChunkedLoop data slots k p chunks = some r ↔
      ∃ m ≤ slots, (∀ i < m, ChunkAt data ((nextChunk data)^[i] p)) ∧
        EndsAt data ((nextChunk data)^[m] p) ∧
        r = (chunkRet data ((nextChunk data)^[m] p),fillChunks data k p chunks m,k+m) := by
  induction slots generalizing k p chunks with
  | zero =>
    have hzero : httpChunkedLoop data 0 k p chunks =
        if EndsAt data p then some (chunkRet data p,chunks,k) else none := by
      by_cases hchunk : ChunkAt data p
      · rw [httpChunkedLoop_at hchunk,if_neg hchunk.not_end]
      · exact httpChunkedLoop_no_chunk hchunk 0 k chunks
    rw [hzero]
    constructor
    · intro h
      split_ifs at h with hend
      cases h
      exact ⟨0,le_rfl,fun i hi => absurd hi (Nat.not_lt_zero i),hend,rfl⟩
    · rintro ⟨m,hm,-,hend,rfl⟩
      cases Nat.le_zero.1 hm
      rw [iterate_zero_apply] at hend
      rw [if_pos hend]
      rfl
  | succ slots ih =>
    by_cases hchunk : ChunkAt data p
    · rw [httpChunkedLoop_at hchunk]
      dsimp only
      rw [ih]
      constructor
      · rintro ⟨m,hm,hall,hend,hr⟩
        refine ⟨m+1,Nat.succ_le_succ hm,fun i hi => ?_,hend,?_⟩
        · cases i with
          | zero => exact hchunk
          | succ i => exact hall i (Nat.lt_of_succ_lt_succ hi)
        · rw [hr,fillChunks,iterate_succ_apply,show k + 1 + m = k + (m + 1) by omega]
      · rintro ⟨m,hm,hall,hend,hr⟩
        cases m with
        | zero => exact absurd hend hchunk.not_end
        | succ m =>
          refine ⟨m,Nat.le_of_succ_le_succ hm,fun i hi => hall (i+1) (Nat.succ_lt_succ hi),hend,?_⟩
          rw [hr,fillChunks,iterate_succ_apply,show k + 1 + m = k + (m + 1) by omega]
    · rw [httpChunkedLoop_no_chunk hchunk]
      constructor
      · intro h
        split_ifs at h with hend
        cases h
        exact ⟨0,Nat.zero_le _,fun i hi => absurd hi (Nat.not_lt_zero i),hend,rfl⟩
      · rintro ⟨m,-,hall,hend,rfl⟩
        cases m with
        | zero =>
          rw [iterate_zero_apply] at hend
          rw [if_pos hend]
          rfl
        | succ m => exact absurd (hall 0 (Nat.succ_pos m)) hchunk

/-! ### Chunks in order -/

/-- The chunks of a table that are recorded lie one behind the other, and end by the returned place. -/
structure ChunksRight (chunk : HttpChunk) (ret : ℤ) : Prop where
  off : ∀ i : ℕ, i < chunk.nchunks → 0 ≤ (chunk.chunks i).off ∧ 0 < (chunk.chunks i).len
  fits : ∀ i : ℕ, i < chunk.nchunks → (chunk.chunks i).off + (chunk.chunks i).len ≤ ret
  order : ∀ i j : ℕ, i < j → j < chunk.nchunks →
    (chunk.chunks i).off + (chunk.chunks i).len ≤ (chunk.chunks j).off

/-- The parser returns, with no entry written but those of the table; and where it returns a length, this
is one of the body, and the chunks are right. -/
def ChunkedSafe (chunk : HttpChunk) (data : List UInt8) : Prop :=
  ∃ out ret, httpChunkedParse chunk data = some (out,ret) ∧
    (∀ i ≥ HTTP_CHUNKED_MAX, out.chunks i = chunk.chunks i) ∧
      (0 ≤ ret → ret ≤ data.length ∧ ChunksRight out ret)

/-- No more than 256 chunks follow each other from the start of the body, with no position in front of it,
up to its end or to a size of zero; and if the line behind that size ends with CRLF, no size is negative. -/
def ChunkedFits (data : List UInt8) : Prop :=
  ∃ m ≤ HTTP_CHUNKED_MAX, (∀ i < m, ChunkAt data (chunkPos data i)) ∧ EndsAt data (chunkPos data m) ∧
    (chunkPos data m < data.length → LineEnded data (chunkPos data m) →
      ∀ i < m, 0 < chunkSize data (chunkPos data i))

theorem byteAt_lt {data : List UInt8} {p : ℤ} {b : UInt8} (h : byteAt data p = some b) :
    p < data.length := by
  unfold byteAt at h
  split_ifs at h with hneg
  have hlt := (List.getElem?_eq_some_iff.1 h).1
  omega

theorem chunkRet_nonneg {data : List UInt8} {p : ℤ} (hp : 0 ≤ p) :
    0 ≤ chunkRet data p ↔ p < data.length ∧ LineEnded data p := by
  have hstart := chunkStart_ge data p
  have hline := lineEnd_ge data p
  unfold chunkRet
  split_ifs with h
  · exact iff_of_true (by omega) h
  · exact iff_of_false (by omega) h

theorem chunkRet_le {data : List UInt8} {p : ℤ} (h : p < data.length ∧ LineEnded data p) :
    p ≤ chunkRet data p ∧ chunkRet data p ≤ data.length := by
  have hstart := chunkStart_ge data p
  have hline := lineEnd_ge data p
  have hlast := byteAt_lt h.2.2
  unfold chunkRet
  rw [if_pos h]
  omega

/-- With sizes above zero, every chunk ends before the next one begins. -/
theorem chunkPos_mono {data : List UInt8} {m : ℕ} (hsize : ∀ i < m, 0 < chunkSize data (chunkPos data i))
    {i j : ℕ} (hij : i < j) (hj : j ≤ m) :
    chunkStart data (chunkPos data i) + chunkSize data (chunkPos data i) + 2 ≤ chunkPos data j := by
  induction j with
  | zero => exact absurd hij (Nat.not_lt_zero i)
  | succ j ih =>
    have hstep : chunkPos data (j+1) = nextChunk data (chunkPos data j) := iterate_succ_apply' _ _ _
    rcases Nat.lt_succ_iff_lt_or_eq.1 hij with hlt | rfl
    · have hbefore := ih hlt (Nat.le_of_succ_le hj)
      have hpos := hsize j hj
      have hstart := chunkStart_ge data (chunkPos data j)
      rw [hstep,nextChunk]
      omega
    · rw [hstep,nextChunk]

theorem EndsAt.nonneg {data : List UInt8} {p : ℤ} (h : EndsAt data p) : 0 ≤ p := by
  rcases h with h | ⟨h,-⟩
  · exact (Int.natCast_nonneg _).trans h
  · exact h

/-- What the parser returns on a body that is not empty. -/
theorem httpChunkedParse_eq_some (chunk out : HttpChunk) {data : List UInt8} (hdata : data ≠ []) (ret : ℤ) :
    httpChunkedParse chunk data = some (out,ret) ↔
      ∃ m ≤ HTTP_CHUNKED_MAX, (∀ i < m, ChunkAt data (chunkPos data i)) ∧ EndsAt data (chunkPos data m) ∧
        ret = chunkRet data (chunkPos data m) ∧ out = ⟨fillChunks data 0 0 chunk.chunks m,m⟩ := by
  rw [httpChunkedParse,if_neg hdata]
  constructor
  · intro h
    obtain ⟨r,hloop,hr⟩ := Option.map_eq_some_iff.1 h
    obtain ⟨m,hm,hall,hend,rfl⟩ := (httpChunkedLoop_eq_some data _ 0 0 chunk.chunks r).1 hloop
    cases hr
    exact ⟨m,hm,hall,hend,rfl,by rw [Nat.zero_add]⟩
  · rintro ⟨m,hm,hall,hend,rfl,rfl⟩
    have hloop := (httpChunkedLoop_eq_some data HTTP_CHUNKED_MAX 0 0 chunk.chunks _).2 ⟨m,hm,hall,hend,rfl⟩
    rw [hloop,Option.map_some,Nat.zero_add]
    rfl

/-- A body is parsed safely exactly when its chunks fit in the table and in front of its end, with no
negative size in a body that is complete. -/
theorem http_chunked_safe_iff (chunk : HttpChunk) (data : List UInt8) :
    ChunkedSafe chunk data ↔ ChunkedFits data := by
  by_cases hdata : data = []
  · subst hdata
    refine iff_of_true ⟨chunk,-1,rfl,fun _ _ => rfl,fun h => absurd h (by decide)⟩ ?_
    exact ⟨0,Nat.zero_le _,fun i hi => absurd hi (Nat.not_lt_zero i),.inl le_rfl,
      fun hlt => absurd hlt (by decide)⟩
  constructor
  · rintro ⟨out,ret,hparse,-,hsafe⟩
    obtain ⟨m,hm,hall,hend,rfl,rfl⟩ := (httpChunkedParse_eq_some chunk out hdata ret).1 hparse
    refine ⟨m,hm,hall,hend,fun hlt hcrlf i hi => ?_⟩
    obtain ⟨-,hright⟩ := hsafe ((chunkRet_nonneg hend.nonneg).2 ⟨hlt,hcrlf⟩)
    have hlen := (hright.off i (Int.ofNat_lt.2 hi)).2
    have hentry := fillChunks_at data m 0 i 0 chunk.chunks hi
    rw [Nat.zero_add] at hentry
    dsimp only at hlen
    rw [hentry] at hlen
    exact hlen
  · rintro ⟨m,hm,hall,hend,hsizes⟩
    refine ⟨_,_,(httpChunkedParse_eq_some chunk _ hdata _).2 ⟨m,hm,hall,hend,rfl,rfl⟩,fun i hi => ?_,
      fun hret => ?_⟩
    · exact fillChunks_before data m 0 i 0 chunk.chunks (.inr (by omega))
    obtain ⟨hlt,hcrlf⟩ := (chunkRet_nonneg hend.nonneg).1 hret
    have hsize := hsizes hlt hcrlf
    obtain ⟨hlow,hhigh⟩ := chunkRet_le ⟨hlt,hcrlf⟩
    have hentry : ∀ i < m, fillChunks data 0 0 chunk.chunks m i =
        ⟨chunkStart data (chunkPos data i),chunkSize data (chunkPos data i)⟩ := by
      intro i hi
      have hentry := fillChunks_at data m 0 i 0 chunk.chunks hi
      rwa [Nat.zero_add] at hentry
    refine ⟨hhigh,fun i hi => ?_,fun i hi => ?_,fun i j hij hj => ?_⟩
    · have hi : i < m := Int.ofNat_lt.1 hi
      have hstart := chunkStart_ge data (chunkPos data i)
      have hpos := (hall i hi).1
      dsimp only
      rw [hentry i hi]
      exact ⟨by dsimp only; omega,hsize i hi⟩
    · have hi : i < m := Int.ofNat_lt.1 hi
      have hnext := chunkPos_mono hsize hi le_rfl
      dsimp only
      rw [hentry i hi]
      dsimp only
      omega
    · have hj : j < m := Int.ofNat_lt.1 hj
      have hnext := chunkPos_mono hsize hij hj.le
      have hstart := chunkStart_ge data (chunkPos data j)
      dsimp only
      rw [hentry i (hij.trans hj),hentry j hj]
      dsimp only
      omega

/-- The size `FFFFFFF4` leads back to its own line, until the table is full. -/
theorem http_chunked_backwards :
    ¬ ChunkedSafe ⟨fun _ => ⟨0,0⟩,0⟩ [70,70,70,70,70,70,70,52,13,10] := by
  rintro ⟨out,ret,hparse,-⟩
  have hnone : (httpChunkedParse ⟨fun _ => ⟨0,0⟩,0⟩ [70,70,70,70,70,70,70,52,13,10]).isSome = false := by
    decide +kernel
  rw [hparse] at hnone
  cases hnone

end Sbase
