import Sbase.Utils.Chunk

/-! What a chunk still has to send, and what the functions of `utils/chunk.c` do to it. -/
namespace Sbase
open Memory

/-- A chunk as `chunk_reset` leaves it, its memory apart. -/
structure Chunk.Clean (c : Chunk) : Prop where
  left : c.left = 0
  mmleft : c.mmleft = 0
  fd : c.fd = false

/-- `bsize` counts allocated bytes. -/
def Chunk.Backed (c : Chunk) : Prop := c.bsize ≠ 0 → c.data.isSome

/-- A chunk of memory as `chunk_mem` hands it out. -/
structure Chunk.Granted (c : Chunk) : Prop where
  type : c.type = CHUNK_MEM
  «end» : c.end = some 0
  data : c.data.isSome

/-- The bytes that are left to send. -/
def Chunk.content (fs : FileSystem) (c : Chunk) : List UInt8 :=
  if c.type = CHUNK_MEM then
    match c.data, c.end with
    | some d, some e => read d e c.left
    | _, _ => []
  else read (fs c.filename) c.offset c.left

/-- A chunk that can be sent: its memory is there, or its window shows the file from `offset` on. -/
structure Chunk.Loaded (fs : FileSystem) (c : Chunk) : Prop where
  memory : c.type = CHUNK_MEM → c.data.isSome ∧ c.end.isSome
  mmleft : c.type ≠ CHUNK_MEM → c.mmleft ≤ c.left
  window : c.type ≠ CHUNK_MEM → 0 < c.mmleft →
    ∃ w, c.mmap = some w ∧ ∀ i, w (c.mmoff + i) = fs c.filename (c.offset + i)

section
variable {fs : FileSystem} {c : Chunk}

theorem Chunk.content_nil (h : c.left = 0) : c.content fs = [] := by
  unfold Chunk.content
  rw [h]
  split_ifs
  · cases c.data <;> cases c.end <;> rfl
  · rfl

/-! ### Memory -/

theorem chunkInit_backed : chunkInit.Backed := fun h => absurd rfl h

theorem chunkReset_clean (c : Chunk) : (chunkReset c).Clean := by
  unfold chunkReset
  dsimp only
  split_ifs <;> exact ⟨rfl,rfl,rfl⟩

theorem chunkReset_backed (h : c.Backed) : (chunkReset c).Backed := by
  unfold chunkReset
  dsimp only
  split_ifs
  · exact fun hb => absurd rfl hb
  · exact h

theorem chunkRoom_backed (h : c.Backed) (alloc : Bool) (junk : Mem) (need : ℕ) :
    (chunkRoom alloc junk c need).Backed := by
  unfold chunkRoom
  by_cases hb : c.bsize < need
  · rw [if_pos hb]
    cases alloc
    · exact fun hb => absurd rfl hb
    · exact fun _ => rfl
  · rw [if_neg hb]
    exact h

/-- With memory to be had, there is room. -/
theorem chunkRoom_data (h : c.Backed) (junk : Mem) {need : ℕ} (hneed : 0 < need) :
    (chunkRoom true junk c need).data.isSome := by
  unfold chunkRoom
  by_cases hb : c.bsize < need
  · rw [if_pos hb]
    rfl
  · rw [if_neg hb]
    exact h (by omega)

theorem chunkMem_backed (h : c.Backed) (alloc : Bool) (junk : Mem) (len : ℕ) :
    (chunkMem alloc junk c len).Backed := by
  unfold chunkMem
  split_ifs
  · dsimp only
    split
    · exact fun _ => rfl
    · exact chunkRoom_backed h alloc junk (len+1)
  · exact h

theorem chunkMem_granted {alloc : Bool} {junk : Mem} {len : ℕ} (hlen : 0 < len)
    (hd : (chunkMem alloc junk c len).data ≠ none) : (chunkMem alloc junk c len).Granted := by
  unfold chunkMem at hd ⊢
  rw [if_pos hlen] at hd ⊢
  dsimp only at hd ⊢
  cases hdata : (chunkRoom alloc junk c (len+1)).data with
  | none => simp [hdata] at hd
  | some d => exact ⟨rfl,rfl,rfl⟩

theorem chunkMem_left (junk : Mem) {len : ℕ} (hlen : 0 < len) (h : c.Backed) :
    (chunkMem true junk c len).Granted ∧ (chunkMem true junk c len).left = len ∧
      (chunkMem true junk c len).size = len := by
  unfold chunkMem
  rw [if_pos hlen]
  dsimp only
  obtain ⟨d, hd⟩ := Option.isSome_iff_exists.mp (chunkRoom_data h junk (Nat.succ_pos len))
  rw [hd]
  exact ⟨⟨rfl,rfl,rfl⟩,rfl,rfl⟩

theorem Chunk.Granted.loaded (h : c.Granted) : c.Loaded fs := by
  refine ⟨fun _ => ⟨h.data, by rw [h.end]; rfl⟩, fun hne => ?_, fun hne => ?_⟩
  · exact absurd h.type hne
  · exact absurd h.type hne

theorem Chunk.Granted.content {d : Mem} (h : c.Granted) (hd : c.data = some d) :
    c.content fs = read d 0 c.left := by
  simp [Chunk.content, h.type, h.end, hd]

theorem chunkMemCopy_backed (h : c.Backed) (bs : List UInt8) : (chunkMemCopy c bs).Backed := by
  unfold chunkMemCopy
  split
  · split_ifs
    · exact fun _ => rfl
    · exact h
  · exact h

/-- What `conn_push_chunk` puts into a block. -/
theorem chunkMemCopy_content (fs : FileSystem) (junk : Mem) {data : List UInt8} (hlen : 0 < data.length)
    (h : c.Backed) :
    let c' := chunkMemCopy (chunkMem true junk c data.length) data
    c'.Granted ∧ c'.left = data.length ∧ c'.content fs = data := by
  obtain ⟨hg, hleft, hsize⟩ := chunkMem_left junk hlen h
  obtain ⟨d, hd⟩ := Option.isSome_iff_exists.mp hg.data
  have hcopy : chunkMemCopy (chunkMem true junk c data.length) data =
      { chunkMem true junk c data.length with data := some (write d 0 data) } := by
    unfold chunkMemCopy
    simp only [hd, hg.end, hsize, hleft, List.take_length]
    rw [if_pos ⟨hlen,hlen⟩]
  intro c'
  have hc' : c' = { chunkMem true junk c data.length with data := some (write d 0 data) } := hcopy
  rw [hc']
  refine ⟨⟨hg.type, hg.end, rfl⟩, hleft, ?_⟩
  have hg' : Chunk.Granted { chunkMem true junk c data.length with data := some (write d 0 data) } :=
    ⟨hg.type, hg.end, rfl⟩
  rw [hg'.content rfl, hleft, read_write_self]

theorem chunkFile_backed (h : c.Backed) (file : String) (offset len : ℕ) :
    (chunkFile c file offset len).Backed := by
  unfold chunkFile
  split_ifs <;> exact h

/-- What `conn_push_file` puts into a clean block. -/
theorem chunkFile_content (fs : FileSystem) (file : String) (offset : ℕ) {len : ℕ} (hlen : 0 < len) (h : c.Clean) :
    (chunkFile c file offset len).left = len ∧ (chunkFile c file offset len).Loaded fs ∧
      (chunkFile c file offset len).content fs = read (fs file) offset len := by
  unfold chunkFile
  rw [if_pos hlen]
  refine ⟨rfl, ⟨fun hm => ?_, fun _ => ?_, fun _ hpos => ?_⟩, rfl⟩
  · exact absurd hm (show ¬ CHUNK_FILE = CHUNK_MEM by decide)
  · exact h.mmleft.trans_le (Nat.zero_le len)
  · exact absurd h.mmleft hpos.ne'

/-- A caller's bytes. -/
theorem Chunk.Granted.setData (h : c.Granted) (d : Mem) :
    Chunk.Granted { c with data := some d } :=
  ⟨h.type, h.end, rfl⟩

/-! ### Sending -/

/-- The socket takes the first bytes that it is offered. -/
theorem Send.take_read (s : Send) (m : Mem) (off n : ℕ) :
    s.take (read m off n) = read m off (s.take (read m off n)).length ∧
      (s.take (read m off n)).length ≤ n := by
  unfold Send.take
  cases s.accept with
  | none => exact ⟨rfl, Nat.zero_le n⟩
  | some k =>
    dsimp only
    rw [List.length_take, read_length]
    refine ⟨?_, Nat.min_le_right _ _⟩
    rcases Nat.le_total (k+1) n with hk | hk
    · rw [Nat.min_eq_left hk, Memory.take_read m off hk]
    · rw [Nat.min_eq_right hk, List.take_of_length_le (by simpa using hk)]

/-- What a sending function does to a chunk: the bytes it sends come off the front, and after an
error they are all left. -/
structure SentFrom (fs : FileSystem) (c : Chunk) (r : Sent) : Prop where
  content : c.content fs = r.bytes ++ r.chunk.content fs
  loaded : r.chunk.Loaded fs
  kept : r.ret ≤ 0 → r.chunk.left = c.left

theorem chunkWrite_sent (hm : c.type = CHUNK_MEM) (h : c.Loaded fs) (s : Send) :
    SentFrom fs c (chunkWrite c s) := by
  obtain ⟨hd, he⟩ := h.memory hm
  obtain ⟨d, hd⟩ := Option.isSome_iff_exists.mp hd
  obtain ⟨e, he⟩ := Option.isSome_iff_exists.mp he
  obtain ⟨htake, hle⟩ := s.take_read d e c.left
  unfold chunkWrite
  simp only [hd, he]
  generalize s.take (read d e c.left) = bs at htake hle ⊢
  split_ifs
  · refine ⟨?_, ⟨fun _ => ⟨by simp, rfl⟩, fun hne => absurd hm hne, fun hne => absurd hm hne⟩,
      fun hret => ?_⟩
    · simp only [Chunk.content, hm, hd, he, if_true]
      conv_rhs => rw [htake]
      rw [read_length, ← read_append, Nat.add_sub_cancel' hle]
    · dsimp only at hret
      omega
  · exact ⟨rfl, h, fun _ => rfl⟩
  · exact ⟨rfl, h, fun _ => rfl⟩

theorem chunkWrite_backed (h : c.Backed) (s : Send) : (chunkWrite c s).chunk.Backed := by
  unfold chunkWrite
  split
  · dsimp only
    split_ifs <;> exact h
  · exact h

theorem windowWrite_backed (h : c.Backed) (s : Send) : (windowWrite c s).chunk.Backed := by
  unfold windowWrite
  split
  · dsimp only
    split_ifs <;> exact h
  · exact h

theorem chunkWriteFromFile_backed (h : c.Backed) (openOk : Bool) (s : Send) :
    (chunkWriteFromFile fs openOk c s).chunk.Backed := by
  have hopen : (chunkFileCheck openOk c).Backed := by
    unfold chunkFileCheck
    split_ifs <;> exact h
  have hmap : (chunkMmap fs (chunkFileCheck openOk c)).Backed := by
    unfold chunkMmap
    split_ifs <;> exact hopen
  unfold chunkWriteFromFile
  dsimp only
  split_ifs
  · exact windowWrite_backed hmap s
  · exact hopen
  · exact h

/-- A fresh window shows the file from `offset` on. -/
theorem chunkMmap_loaded (hf : c.type ≠ CHUNK_MEM) (h : c.Loaded fs) :
    (chunkMmap fs c).Loaded fs ∧ (chunkMmap fs c).content fs = c.content fs ∧
      (chunkMmap fs c).type = c.type ∧ (chunkMmap fs c).left = c.left := by
  unfold chunkMmap
  split_ifs with hnew
  · refine ⟨⟨fun hm => absurd hm hf, fun _ => Nat.min_le_left _ _, fun _ _ => ⟨_, rfl, fun i => ?_⟩⟩,
      ?_, rfl, rfl⟩
    · dsimp only
      congr 1
      have := Nat.div_mul_le_self c.offset MMAP_PAGE_SIZE
      omega
    · simp [Chunk.content, hf]
  · exact ⟨h, rfl, rfl, rfl⟩

theorem chunkFileCheck_loaded (openOk : Bool) (h : c.Loaded fs) :
    (chunkFileCheck openOk c).Loaded fs ∧ (chunkFileCheck openOk c).content fs = c.content fs ∧
      (chunkFileCheck openOk c).type = c.type ∧ (chunkFileCheck openOk c).left = c.left := by
  unfold chunkFileCheck
  split_ifs
  · exact ⟨h, rfl, rfl, rfl⟩
  · exact ⟨⟨h.memory, h.mmleft, h.window⟩, rfl, rfl, rfl⟩

theorem windowWrite_sent (hf : c.type ≠ CHUNK_MEM) (h : c.Loaded fs) (s : Send) :
    SentFrom fs c (windowWrite c s) := by
  unfold windowWrite
  cases hw : c.mmap with
  | none => exact ⟨rfl, h, fun _ => rfl⟩
  | some w =>
    obtain ⟨htake, hle⟩ := s.take_read w c.mmoff c.mmleft
    dsimp only
    generalize hbs : s.take (read w c.mmoff c.mmleft) = bs at htake hle
    by_cases hpos : 0 < bs.length
    · rw [if_pos hpos]
      have hmm : 0 < c.mmleft := hpos.trans_le hle
      obtain ⟨w', hw', hwindow⟩ := h.window hf hmm
      obtain rfl : w = w' := Option.some.inj (hw.symm.trans hw')
      have hleft : bs.length ≤ c.left := hle.trans (h.mmleft hf)
      have hread : bs = read (fs c.filename) c.offset bs.length := by
        conv_lhs => rw [htake]
        exact read_congr_shift hwindow
      refine ⟨?_, ⟨fun hm => absurd hm hf, fun _ => Nat.sub_le_sub_right (h.mmleft hf) _,
        fun _ hrest => ⟨w, ?_, fun i => ?_⟩⟩, fun hret => ?_⟩
      · simp only [Chunk.content, hf, if_false]
        conv_rhs => rw [hread]
        rw [read_length, ← read_append, Nat.add_sub_cancel' hleft]
      · exact if_neg hrest.ne'
      · simpa [Nat.add_assoc] using hwindow (bs.length + i)
      · dsimp only at hret
        omega
    · rw [if_neg hpos]
      exact ⟨rfl, h, fun _ => rfl⟩

theorem chunkWriteFromFile_sent (hf : c.type ≠ CHUNK_MEM) (h : c.Loaded fs) (openOk : Bool)
    (s : Send) : SentFrom fs c (chunkWriteFromFile fs openOk c s) := by
  obtain ⟨hopen, hcopen, htopen, hlopen⟩ := chunkFileCheck_loaded openOk h
  have hfopen : (chunkFileCheck openOk c).type ≠ CHUNK_MEM := htopen ▸ hf
  obtain ⟨hmap, hcmap, htmap, hlmap⟩ := chunkMmap_loaded hfopen hopen
  have hsent := windowWrite_sent (htmap ▸ hfopen) hmap s
  unfold chunkWriteFromFile
  by_cases hleft : 0 < c.left
  · rw [if_pos hleft]
    dsimp only
    by_cases hfd : (chunkFileCheck openOk c).fd = true
    · rw [if_pos hfd]
      exact ⟨hcopen.symm.trans (hcmap.symm.trans hsent.content), hsent.loaded,
        fun hret => (hsent.kept hret).trans (hlmap.trans hlopen)⟩
    · rw [if_neg hfd]
      exact ⟨hcopen.symm, hopen, fun _ => hlopen⟩
  · rw [if_neg hleft]
    exact ⟨rfl, h, fun _ => rfl⟩

end

end Sbase
