import Sbase.Lqftp.Task

/-! The table that `tasktable_ready` makes of a file. -/
namespace Sbase

/-- The number of blocks of a file. -/
def blockCount (size blockSize : ℕ) : ℕ :=
  size / blockSize + if size % blockSize ≠ 0 then 1 else 0

/-- The ranges follow each other from `a` to `b`. -/
def Consecutive : ℕ → List (ℕ × ℕ) → ℕ → Prop
  | a,[],b => a = b
  | a,(offset,size)::rest,b => offset = a ∧ 0 < size ∧ Consecutive (a+size) rest b

/-- What a block is for; no operation on a table changes it. -/
def TBlock.plan (b : TBlock) : BlockCmd × ℕ × ℕ := (b.cmdid,b.offset,b.size)

/-- A filled entry of a table. -/
def TBlock.entry (i : ℕ) (cmdid : BlockCmd) (offset size : ℕ) : TBlock :=
  { zeroBlock with id := i,cmdid := cmdid,offset := offset,size := size }

/-- The PUT blocks of a file from `offset` on. -/
def cutFile (putId : ℕ → ℕ) (blockSize : ℕ) (hpos : 0 < blockSize) (i offset size : ℕ) : List TBlock :=
  if 0 < size then
    let n := if size < blockSize then size else blockSize
    TBlock.entry (putId i) .put offset n::cutFile putId blockSize hpos (i+1) (offset+n) (size-n)
  else []
termination_by size
decreasing_by
  split
  · omega
  · omega

section

variable {putId : ℕ → ℕ} {blockSize : ℕ} {hpos : 0 < blockSize} {i k offset size : ℕ}

theorem blockCount_zero (blockSize : ℕ) : blockCount 0 blockSize = 0 := by
  simp [blockCount]

/-- The last block of a file may be short. -/
theorem blockCount_short (hsize : 0 < size) (h : size < blockSize) : blockCount size blockSize = 1 := by
  rw [blockCount,Nat.div_eq_of_lt h,Nat.mod_eq_of_lt h,if_pos (by omega)]

theorem blockCount_step (hpos : 0 < blockSize) (h : ¬ size < blockSize) :
    blockCount size blockSize = blockCount (size-blockSize) blockSize+1 := by
  obtain ⟨m,rfl⟩ := Nat.exists_eq_add_of_le' (not_lt.mp h)
  rw [Nat.add_sub_cancel,blockCount,blockCount,Nat.add_div_right _ hpos,Nat.add_mod_right]
  omega

/-- One round of the loop takes one block off the count. -/
theorem blockCount_cut (hpos : 0 < blockSize) (hsize : 0 < size) :
    blockCount size blockSize =
      blockCount (size-if size < blockSize then size else blockSize) blockSize+1 := by
  by_cases h : size < blockSize
  · rw [if_pos h,Nat.sub_self,blockCount_zero,blockCount_short hsize h]
  · rw [if_neg h,blockCount_step hpos h]

theorem cutFile_pos (hsize : 0 < size) : cutFile putId blockSize hpos i offset size =
    TBlock.entry (putId i) .put offset (if size < blockSize then size else blockSize)::
      cutFile putId blockSize hpos (i+1) (offset+if size < blockSize then size else blockSize)
        (size-if size < blockSize then size else blockSize) := by
  rw [cutFile,if_pos hsize]

theorem cutFile_zero : cutFile putId blockSize hpos i offset 0 = [] := by
  rw [cutFile,if_neg (lt_irrefl 0)]

/-- The blocks of a file are a partition of it. -/
theorem consecutive_cutFile (hpos : 0 < blockSize) (i offset size : ℕ) :
    Consecutive offset ((cutFile putId blockSize hpos i offset size).map fun b => (b.offset,b.size))
      (offset+size) := by
  induction size using Nat.strong_induction_on generalizing i offset with
  | _ size ih =>
    by_cases hsize : 0 < size
    · rw [cutFile_pos hsize]
      have hn : 0 < (if size < blockSize then size else blockSize) ∧
          (if size < blockSize then size else blockSize) ≤ size := by
        split_ifs with h
        · exact ⟨hsize,le_rfl⟩
        · exact ⟨hpos,not_lt.mp h⟩
      generalize (if size < blockSize then size else blockSize) = n at hn ⊢
      have hrest := ih (size-n) (by omega) (i+1) (offset+n)
      rw [Nat.add_assoc,Nat.add_sub_cancel' hn.2] at hrest
      exact ⟨rfl,hn.1,hrest⟩
    · rw [Nat.eq_zero_of_not_pos hsize,cutFile_zero]
      rfl

theorem cutFile_put (b : TBlock) (hb : b ∈ cutFile putId blockSize hpos i offset size) : b.cmdid = .put := by
  induction size using Nat.strong_induction_on generalizing i offset with
  | _ size ih =>
    by_cases hsize : 0 < size
    · rw [cutFile_pos hsize,List.mem_cons] at hb
      cases hb with
      | inl hb => rw [hb,TBlock.entry]
      | inr hb =>
        refine ih _ ?_ hb
        split_ifs
        · omega
        · omega
    · rw [Nat.eq_zero_of_not_pos hsize,cutFile_zero] at hb
      cases hb

/-! ### The loop -/

theorem writeBlock_zero (front back : List TBlock) (id : ℕ) (cmdid : BlockCmd) (offset size : ℕ) :
    writeBlock (front ++ zeroBlock::back) front.length id cmdid offset size =
      some (front ++ TBlock.entry id cmdid offset size::back) := by
  rw [writeBlock,dif_pos (by simp)]
  simp [TBlock.entry]

theorem writeBlock_end (blocks : List TBlock) (id : ℕ) (cmdid : BlockCmd) (offset size : ℕ) :
    writeBlock blocks blocks.length id cmdid offset size = none := by
  rw [writeBlock,dif_neg (lt_irrefl _)]

/-- The loop fills the entries behind the first ones, and leaves the table where it is too short. -/
theorem putBlocks_eq (putId : ℕ → ℕ) (hpos : 0 < blockSize) (offset size : ℕ) (front : List TBlock)
    (hi : front.length = i) :
    putBlocks putId blockSize hpos (front ++ List.replicate k zeroBlock) i offset size =
      if blockCount size blockSize ≤ k then
        some (front ++ cutFile putId blockSize hpos i offset size ++
          List.replicate (k-blockCount size blockSize) zeroBlock,i+blockCount size blockSize)
      else none := by
  induction size using Nat.strong_induction_on generalizing i offset k front with
  | _ size ih =>
    by_cases hsize : 0 < size
    · rw [putBlocks,if_pos hsize,cutFile_pos hsize,blockCount_cut hpos hsize]
      have hn : 0 < (if size < blockSize then size else blockSize) := by
        split_ifs
        · exact hsize
        · exact hpos
      generalize (if size < blockSize then size else blockSize) = n at hn ⊢
      subst hi
      cases k with
      | zero =>
        have hend := writeBlock_end front (putId front.length) .put offset n
        simp [hend]
      | succ k =>
        dsimp only
        rw [List.replicate_succ,writeBlock_zero]
        have hrest := ih (size-n) (by omega) (k := k) (i := front.length+1) (offset+n)
          (front ++ [TBlock.entry (putId front.length) .put offset n]) (by simp)
        simp only [List.append_assoc,List.singleton_append] at hrest
        simp only [Option.bind_eq_bind,Option.bind_some,hrest]
        by_cases hk : blockCount (size-n) blockSize ≤ k
        · rw [if_pos hk,if_pos (by omega)]
          simp [Nat.add_assoc,Nat.add_comm 1]
        · rw [if_neg hk,if_neg (by omega)]
    · have h0 := Nat.eq_zero_of_not_pos hsize
      rw [putBlocks,if_neg hsize,h0,cutFile_zero,blockCount_zero]
      simp

/-! ### The table -/

/-- The table of a file. -/
def fileTable (putId : ℕ → ℕ) (blockSize : ℕ) (hpos : 0 < blockSize) (size : ℕ) : List TBlock :=
  TBlock.entry 0 .truncate 0 size::cutFile putId blockSize hpos 1 0 size ++
    [TBlock.entry (blockCount size blockSize+1) .md5sum 0 size]

theorem cutFile_ready (b : TBlock) (hb : b ∈ cutFile putId blockSize hpos i offset size) : b.status = .ready := by
  induction size using Nat.strong_induction_on generalizing i offset with
  | _ size ih =>
    by_cases hsize : 0 < size
    · rw [cutFile_pos hsize,List.mem_cons] at hb
      rcases hb with hb | hb
      · rw [hb]
        rfl
      · exact ih _ (by split_ifs <;> omega) hb
    · rw [Nat.eq_zero_of_not_pos hsize,cutFile_zero] at hb
      cases hb

theorem fileTable_ready (b : TBlock) (hb : b ∈ fileTable putId blockSize hpos size) : b.status = .ready := by
  rw [fileTable,List.mem_append,List.mem_cons,List.mem_singleton] at hb
  rcases hb with (rfl | hb) | rfl
  · rfl
  · exact cutFile_ready b hb
  · rfl

theorem nblockOf_eq (size blockSize : ℕ) :
    nblockOf size blockSize = int32 (blockCount size blockSize+2) := by
  have hstep (z c : ℤ) : int32 (int32 z+c) = int32 (z+c) := Int.bmod_add_bmod
  unfold nblockOf blockCount
  split_ifs
  · simp only [hstep]
    push_cast
    ring_nf
  · simp only [hstep]
    push_cast
    ring_nf

theorem reallocStatus_nonneg {n : ℕ} (h : (n : ℤ) < 2^31) :
    reallocStatus n = some (List.replicate n zeroBlock) := by
  have hmod : (sizeofTBlock*n) % 2^64 = sizeofTBlock*n := by
    unfold sizeofTBlock
    omega
  have hle : sizeofTBlock*n ≤ PTRDIFF_MAX := by
    unfold sizeofTBlock PTRDIFF_MAX
    omega
  have hdiv : (sizeofTBlock*n/sizeofTBlock).toNat = n := by
    rw [Int.mul_ediv_cancel_left _ (by decide),Int.toNat_natCast]
  unfold reallocStatus
  simp only [hmod,if_pos hle,hdiv]

theorem reallocStatus_neg {z : ℤ} (hneg : z < 0) (hlow : -2^31 ≤ z) : reallocStatus z = none := by
  have hmod : (sizeofTBlock*z) % 2^64 = sizeofTBlock*z+2^64 := by
    rw [← Int.add_emod_right,Int.emod_eq_of_lt]
    · unfold sizeofTBlock
      omega
    · unfold sizeofTBlock
      omega
  have hlarge : ¬ (sizeofTBlock*z) % 2^64 ≤ PTRDIFF_MAX := by
    rw [hmod]
    unfold sizeofTBlock PTRDIFF_MAX
    omega
  unfold reallocStatus
  simp only [if_neg hlarge]

theorem length_cutFile : (cutFile putId blockSize hpos i offset size).length = blockCount size blockSize := by
  induction size using Nat.strong_induction_on generalizing i offset with
  | _ size ih =>
    by_cases hsize : 0 < size
    · rw [cutFile_pos hsize,blockCount_cut hpos hsize,List.length_cons,ih]
      split_ifs
      · omega
      · omega
    · rw [Nat.eq_zero_of_not_pos hsize,cutFile_zero,blockCount_zero]
      rfl

/-- The three parts of the table are written when it has room for them. -/
theorem fill_eq (n : ℕ) :
    ((writeBlock (List.replicate n zeroBlock) 0 0 .truncate 0 size).bind fun blocks =>
      (putBlocks putId blockSize hpos blocks 1 0 size).bind fun x => writeBlock x.1 x.2 x.2 .md5sum 0 size) =
      if blockCount size blockSize+2 ≤ n then
        some (fileTable putId blockSize hpos size ++
          List.replicate (n-(blockCount size blockSize+2)) zeroBlock)
      else none := by
  cases n with
  | zero => simp [writeBlock]
  | succ n =>
    have hfirst := writeBlock_zero [] (List.replicate n zeroBlock) 0 .truncate 0 size
    have hput := putBlocks_eq (i := 1) (k := n) putId hpos 0 size [TBlock.entry 0 .truncate 0 size] rfl
    simp only [List.nil_append,List.length_nil,List.singleton_append] at hfirst hput
    rw [List.replicate_succ,hfirst,Option.bind_some,hput]
    by_cases hn : blockCount size blockSize ≤ n
    · rw [if_pos hn,Option.bind_some]
      have hlen : (TBlock.entry 0 .truncate 0 size::cutFile putId blockSize hpos 1 0 size).length =
          1+blockCount size blockSize := by
        rw [List.length_cons,length_cutFile,Nat.add_comm]
      by_cases hlast : blockCount size blockSize = n
      · have hend := writeBlock_end
          (TBlock.entry 0 .truncate 0 size::cutFile putId blockSize hpos 1 0 size) (1+blockCount size blockSize) .md5sum 0 size
        rw [hlen] at hend
        rw [if_neg (by omega),hlast,Nat.sub_self,List.replicate_zero,List.append_nil,← hlast,hend]
      · obtain ⟨m,hm⟩ : ∃ m, n = blockCount size blockSize+(m+1) :=
          ⟨n-blockCount size blockSize-1,by omega⟩
        have hwrite := writeBlock_zero
          (TBlock.entry 0 .truncate 0 size::cutFile putId blockSize hpos 1 0 size)
          (List.replicate m zeroBlock) (1+blockCount size blockSize) .md5sum 0 size
        rw [hlen] at hwrite
        rw [if_pos (by omega),hm,Nat.add_sub_cancel_left,List.replicate_succ,hwrite,fileTable]
        have hrest : blockCount size blockSize+(m+1)+1-(blockCount size blockSize+2) = m := by omega
        rw [hrest,Nat.add_comm 1]
        simp
    · rw [if_neg hn,if_neg (by omega),Option.bind_none]

/-- The task is made ready exactly when the number of its blocks is one of an `int`. -/
theorem tasktableReady_iff {t u : TaskTable}
    (hid : 0 ≤ t.runningTask.id ∧ t.runningTask.id < t.ntask) :
    tasktableReady t (some size) = some (u,0) ↔ blockCount size t.blockSize+2 < 2^31 ∧
      u = { t with status := some (fileTable t.putId t.blockSize t.block_pos size) } := by
  have hnone : reallocStatus (nblockOf size t.blockSize) = none →
      tasktableReady t (some size) = some ({ t with status := none },-1) := by
    intro hrealloc
    simp only [tasktableReady,if_pos hid,hrealloc]
  have hsome : ∀ {blocks}, reallocStatus (nblockOf size t.blockSize) = some blocks →
      tasktableReady t (some size) = ((writeBlock blocks 0 0 .truncate 0 size).bind fun blocks =>
        (putBlocks t.putId t.blockSize t.block_pos blocks 1 0 size).bind fun x =>
          writeBlock x.1 x.2 x.2 .md5sum 0 size).bind fun blocks =>
            some ({ t with status := some blocks },0) := by
    intro blocks hrealloc
    simp only [tasktableReady,if_pos hid,hrealloc,Option.bind_assoc]
    rfl
  rw [nblockOf_eq] at hnone hsome
  by_cases hsmall : blockCount size t.blockSize+2 < 2^31
  · have hint : int32 (blockCount size t.blockSize+2) = ((blockCount size t.blockSize+2 : ℕ) : ℤ) := by
      rw [int32_of_bounds (by omega) (by omega)]
      push_cast
      rfl
    rw [hint] at hsome
    rw [hsome (reallocStatus_nonneg (by omega))]
    simp only [fill_eq,le_refl,if_true,Nat.sub_self,List.replicate_zero,List.append_nil,Option.bind_some,
      Option.some.injEq,Prod.mk.injEq,and_true,hsmall,true_and,eq_comm]
  · have hlow : -2^31 ≤ int32 (blockCount size t.blockSize+2) := Int.le_bmod (by decide)
    have hhigh : int32 (blockCount size t.blockSize+2) < 2^31 := Int.bmod_lt (by decide)
    simp only [hsmall,false_and,iff_false]
    generalize int32 (blockCount size t.blockSize+2) = z at hlow hhigh hnone hsome
    by_cases hneg : z < 0
    · rw [hnone (reallocStatus_neg hneg hlow)]
      simp
    · obtain ⟨n,rfl⟩ := Int.eq_ofNat_of_zero_le (not_lt.mp hneg)
      rw [hsome (reallocStatus_nonneg hhigh)]
      simp only [fill_eq]
      rw [if_neg (by omega)]
      simp

end

end Sbase
