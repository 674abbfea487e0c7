import Sbase.Utils.ChunkContent

/-! The window through which `chunk_write_from_file` sends a range of a file: where it stands after any
sends, those that take a part or nothing among them. -/
namespace Sbase
open Memory

/-- A file chunk that is being sent, with the offset at which its window was last mapped and the number of
bytes that have been accepted. -/
structure WindowLoop where
  chunk : Chunk
  base : ℕ
  accepted : ℕ

namespace WindowLoop

/-- A chunk in any state, reset and set up for `size` bytes of a file. -/
def start (c : Chunk) (file : String) (offset size : ℕ) : WindowLoop :=
  ⟨chunkFile (chunkReset c) file offset size,0,0⟩

/-- What is done before every send: the file is opened and the next window mapped, where that is due. -/
def ready (fs : FileSystem) (g : WindowLoop) : WindowLoop :=
  let c := chunkFileCheck true g.chunk
  { g with chunk := chunkMmap fs c
           base := if 0 < c.left ∧ c.fd ∧ c.mmleft = 0 then c.offset / MMAP_PAGE_SIZE * MMAP_PAGE_SIZE
                   else g.base }

/-- A call of `chunk_write_from_file`, or of `chunk_write_from_file_SSL`. -/
def send (fs : FileSystem) (g : WindowLoop) (s : Send) : WindowLoop :=
  let r := chunkWriteFromFile fs true g.chunk s
  ⟨r.chunk,if 0 < g.chunk.left then (g.ready fs).base else g.base,g.accepted + r.bytes.length⟩

/-- A window with bytes in it, which stands at the offset of its chunk. -/
structure Mapped (fs : FileSystem) (file : String) (g : WindowLoop) : Prop where
  fd : g.chunk.fd = true
  mmap : g.chunk.mmap = some fun i => fs file (g.base + i)
  aligned : MMAP_PAGE_SIZE ∣ g.base
  position : g.base + g.chunk.mmoff = g.chunk.offset
  inside : g.chunk.mmoff + g.chunk.mmleft ≤ MMAP_CHUNK_SIZE

/-- The chunk after some of the `size` bytes from `offset` on have been accepted. -/
structure Placed (fs : FileSystem) (file : String) (offset size : ℕ) (g : WindowLoop) : Prop where
  filename : g.chunk.filename = file
  counted : g.chunk.left + g.accepted = size
  offset : g.chunk.offset = offset + g.accepted
  within : g.chunk.mmleft ≤ g.chunk.left
  mapped : 0 < g.chunk.mmleft → g.Mapped fs file
  status : g.chunk.status = chunkStatus g.chunk
  closed : g.chunk.left = 0 → g.chunk.fd = false

/-- A window from which a send is made. -/
structure Offered (fs : FileSystem) (file : String) (g : WindowLoop) : Prop where
  pos : 0 < g.chunk.mmleft
  within : g.chunk.mmleft ≤ g.chunk.left
  inside : g.chunk.mmoff + g.chunk.mmleft ≤ MMAP_CHUNK_SIZE
  aligned : MMAP_PAGE_SIZE ∣ g.base
  position : g.base + g.chunk.mmoff = g.chunk.offset
  mmap : g.chunk.mmap = some fun i => fs file (g.base + i)

/-- What the loop keeps: the next send is made from a window at the offset, a window that is mapped is
made ready by doing nothing, a failed send changes nothing more, and the end is reached with the last of
the `size` bytes. -/
structure Keeps (fs : FileSystem) (file : String) (offset size : ℕ) (g : WindowLoop) : Prop where
  offset : g.chunk.offset = offset + g.accepted
  left : g.chunk.left + g.accepted = size
  offered : 0 < g.chunk.left → (g.ready fs).Offered fs file ∧
    (g.ready fs).chunk.offset = g.chunk.offset ∧ (g.ready fs).chunk.left = g.chunk.left
  mapped : 0 < g.chunk.mmleft → (g.ready fs).chunk = g.chunk
  failed : ∀ s, s.accept = none → 0 < g.chunk.left → (g.send fs s).chunk = (g.ready fs).chunk
  taken : ∀ s k, s.accept = some k → 0 < g.chunk.left →
    (g.send fs s).accepted = g.accepted + min (k+1) (g.ready fs).chunk.mmleft
  ended : g.chunk.status = CHUNK_STATUS_OVER ∧ g.chunk.fd = false ↔ g.accepted = size

section

variable {fs : FileSystem} {file : String} {offset size : ℕ} {g : WindowLoop}

theorem start_placed (c : Chunk) (hsize : 0 < size) :
    (start c file offset size).Placed fs file offset size := by
  have hclean := chunkReset_clean c
  rw [start,chunkFile,if_pos hsize]
  refine ⟨rfl,rfl,rfl,hclean.mmleft.trans_le (Nat.zero_le size),fun hpos => ?_,?_,fun hleft => ?_⟩
  · exact absurd hclean.mmleft hpos.ne'
  · exact (if_neg hsize.ne').symm
  · exact absurd hleft hsize.ne'

/-- A window that is due reaches to the end of the range or of the map, whichever comes first. -/
theorem Placed.ready (h : g.Placed fs file offset size) (hleft : 0 < g.chunk.left) :
    (g.ready fs).Placed fs file offset size ∧ 0 < (g.ready fs).chunk.mmleft ∧
      (0 < g.chunk.mmleft → (g.ready fs).chunk = g.chunk) := by
  by_cases hmap : 0 < g.chunk.mmleft
  · have hcheck : chunkFileCheck true g.chunk = g.chunk := if_pos (h.mapped hmap).fd
    have hsame : g.ready fs = g := by
      rw [WindowLoop.ready,hcheck,chunkMmap,if_neg fun hdue => hmap.ne' hdue.2.2,
        if_neg fun hdue => hmap.ne' hdue.2.2]
    rw [hsame]
    exact ⟨h,hmap,fun _ => rfl⟩
  · have hzero : g.chunk.mmleft = 0 := Nat.eq_zero_of_not_pos hmap
    have hcheck : chunkFileCheck true g.chunk = { g.chunk with fd := true } := by
      rw [chunkFileCheck]
      split_ifs with hfd
      · rw [← hfd]
      · rfl
    have hpage : g.chunk.offset / MMAP_PAGE_SIZE * MMAP_PAGE_SIZE ≤ g.chunk.offset := Nat.div_mul_le_self _ _
    have hrest : g.chunk.offset - g.chunk.offset / MMAP_PAGE_SIZE * MMAP_PAGE_SIZE < MMAP_CHUNK_SIZE := by
      have hmod : g.chunk.offset % MMAP_PAGE_SIZE < MMAP_PAGE_SIZE := Nat.mod_lt _ (by decide)
      have hsum := Nat.div_add_mod' g.chunk.offset MMAP_PAGE_SIZE
      have hsizes : MMAP_PAGE_SIZE ≤ MMAP_CHUNK_SIZE := by decide
      omega
    rw [WindowLoop.ready,hcheck,chunkMmap,if_pos ⟨hleft,rfl,hzero⟩]
    dsimp only
    rw [if_pos ⟨hleft,rfl,hzero⟩]
    refine ⟨⟨h.filename,h.counted,h.offset,Nat.min_le_left _ _,fun _ => ?_,h.status,fun hend => ?_⟩,
      lt_min hleft (Nat.sub_pos_of_lt hrest),fun hpos => absurd hzero hpos.ne'⟩
    · exact {
        fd := rfl
        mmap := congrArg some (funext fun i => by rw [h.filename])
        aligned := Dvd.intro_left _ rfl
        position := Nat.add_sub_cancel' hpage
        inside := by
          have hmin := Nat.min_le_right g.chunk.left
            (MMAP_CHUNK_SIZE - (g.chunk.offset - g.chunk.offset / MMAP_PAGE_SIZE * MMAP_PAGE_SIZE))
          dsimp only
          omega }
    · exact absurd hend hleft.ne'

/-- A call is a send from the window that is ready. -/
theorem send_eq (hleft : 0 < g.chunk.left) (s : Send) :
    g.send fs s = ⟨(windowWrite (g.ready fs).chunk s).chunk,(g.ready fs).base,
      g.accepted + (windowWrite (g.ready fs).chunk s).bytes.length⟩ := by
  have hopen : (chunkFileCheck true g.chunk).fd = true := by
    rw [chunkFileCheck]
    split_ifs with hfd
    · exact hfd
    · rfl
  rw [send,chunkWriteFromFile,if_pos hleft,if_pos hleft]
  dsimp only
  rw [if_pos hopen]
  rfl

/-- A send moves the window and the offset by what it takes. -/
theorem Placed.windowWrite (h : g.Placed fs file offset size) (hpos : 0 < g.chunk.mmleft) (s : Send) :
    Placed fs file offset size ⟨(windowWrite g.chunk s).chunk,g.base,
      g.accepted + (windowWrite g.chunk s).bytes.length⟩ := by
  have hmapped := h.mapped hpos
  rw [Sbase.windowWrite,hmapped.mmap]
  dsimp only
  obtain ⟨-,hle⟩ := s.take_read (fun i => fs file (g.base + i)) g.chunk.mmoff g.chunk.mmleft
  generalize s.take (read (fun i => fs file (g.base + i)) g.chunk.mmoff g.chunk.mmleft) = bs at hle ⊢
  have hcounted := h.counted
  have hwithin := h.within
  have hposition := hmapped.position
  have hinside := hmapped.inside
  by_cases hbs : 0 < bs.length
  · rw [if_pos hbs]
    have hfirst : chunkStatus g.chunk = CHUNK_STATUS_ON := if_neg (by omega)
    refine ⟨h.filename,?_,?_,Nat.sub_le_sub_right hwithin _,fun hrest => ?_,?_,fun hend => ?_⟩
    · dsimp only
      omega
    · dsimp only
      rw [h.offset,Nat.add_assoc]
    · dsimp only at hrest
      exact {
        fd := (if_neg (by omega)).trans hmapped.fd
        mmap := if_neg (by omega)
        aligned := hmapped.aligned
        position := by
          dsimp only
          omega
        inside := by
          dsimp only
          omega }
    · rw [chunkStatus,← hfirst,← h.status]
    · exact if_pos hend
  · rw [if_neg hbs]
    exact h

theorem Placed.send (h : g.Placed fs file offset size) (s : Send) :
    (g.send fs s).Placed fs file offset size := by
  by_cases hleft : 0 < g.chunk.left
  · obtain ⟨hready,hpos,-⟩ := h.ready hleft
    rw [send_eq hleft]
    exact hready.windowWrite hpos s
  · have hsame : g.send fs s = g := by
      rw [WindowLoop.send,chunkWriteFromFile,if_neg hleft,if_neg hleft]
      rfl
    rw [hsame]
    exact h

theorem Placed.run (h : g.Placed fs file offset size) (ss : List Send) :
    (ss.foldl (WindowLoop.send fs) g).Placed fs file offset size := by
  induction ss generalizing g with
  | nil => exact h
  | cons s ss ih => exact ih (h.send s)

/-- The bytes that a send takes from the window. -/
theorem Mapped.windowWrite_length (h : g.Mapped fs file) (s : Send) :
    (windowWrite g.chunk s).bytes.length = s.accept.elim 0 fun k => min (k+1) g.chunk.mmleft := by
  rw [Sbase.windowWrite,h.mmap]
  dsimp only
  cases haccept : s.accept with
  | none => simp [Send.take,haccept]
  | some k =>
    have hlen : (s.take (read (fun i => fs file (g.base + i)) g.chunk.mmoff g.chunk.mmleft)).length =
        min (k+1) g.chunk.mmleft := by
      simp [Send.take,haccept]
    by_cases hpos : 0 < (s.take (read (fun i => fs file (g.base + i)) g.chunk.mmoff g.chunk.mmleft)).length
    · rw [if_pos hpos]
      exact hlen
    · rw [if_neg hpos]
      exact (Nat.eq_zero_of_not_pos hpos).symm.trans hlen

theorem Mapped.windowWrite_failed (h : g.Mapped fs file) {s : Send} (hs : s.accept = none) :
    (windowWrite g.chunk s).chunk = g.chunk := by
  rw [Sbase.windowWrite,h.mmap]
  simp [Send.take,hs]

theorem Placed.keeps (h : g.Placed fs file offset size) : g.Keeps fs file offset size where
  offset := h.offset
  left := h.counted
  offered hleft := by
    obtain ⟨hready,hpos,-⟩ := h.ready hleft
    have hmapped := hready.mapped hpos
    refine ⟨⟨hpos,hready.within,hmapped.inside,hmapped.aligned,hmapped.position,hmapped.mmap⟩,?_,?_⟩
    · exact hready.offset.trans h.offset.symm
    · exact Nat.add_right_cancel (hready.counted.trans h.counted.symm)
  mapped hpos := (h.ready (hpos.trans_le h.within)).2.2 hpos
  failed s hs hleft := by
    obtain ⟨hready,hpos,-⟩ := h.ready hleft
    rw [send_eq hleft]
    exact (hready.mapped hpos).windowWrite_failed hs
  taken s k hs hleft := by
    obtain ⟨hready,hpos,-⟩ := h.ready hleft
    rw [send_eq hleft,(hready.mapped hpos).windowWrite_length s,hs]
    rfl
  ended := by
    have hcounted := h.counted
    constructor
    · rintro ⟨hover,-⟩
      by_contra hne
      have hon : g.chunk.status = CHUNK_STATUS_ON := h.status.trans (if_neg (by omega))
      rw [hon] at hover
      exact absurd hover (by decide)
    · intro hend
      have hleft : g.chunk.left = 0 := by omega
      exact ⟨h.status.trans (if_pos hleft),h.closed hleft⟩

end

end WindowLoop

/-- Whatever was in the chunk before and however the sends go. -/
theorem chunk_window_loop (fs : FileSystem) (c : Chunk) (file : String) (offset : ℕ) {size : ℕ}
    (hsize : 0 < size) (ss : List Send) :
    (ss.foldl (WindowLoop.send fs) (.start c file offset size)).Keeps fs file offset size :=
  ((WindowLoop.start_placed c hsize).run ss).keeps

/-- A range that begins within a page and ends at the end of a window, after a part and a failure. -/
theorem chunk_window_loop_unaligned :
    ([⟨some 99,false⟩,⟨none,true⟩].foldl (WindowLoop.send fun _ _ => 0)
      (.start chunkInit "f" 5000 1047672)).Keeps (fun _ _ => 0) "f" 5000 1047672 :=
  chunk_window_loop _ _ _ _ (by decide) _

end Sbase
