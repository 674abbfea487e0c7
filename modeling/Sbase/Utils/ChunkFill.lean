import Sbase.Utils.MmblockQueue
import Sbase.Utils.ChunkContent

/-! What a chunk of memory has received, and what `chunk_mem_fill` and `chunk_read` add to it. -/
namespace Sbase
open Memory

/-- A chunk of memory that has room. -/
structure Filling (c : Chunk) : Prop where
  type : c.type = CHUNK_MEM
  left : 0 < c.left
  data : c.data.isSome
  «end» : c.end.isSome

theorem chunkMemFill_spec {c : Chunk} {bs : List UInt8} (h : Filling c) (hbs : bs ≠ []) :
    ∃ d e, c.data = some d ∧ c.end = some e ∧
      (chunkMemFill c bs).2 = min c.left bs.length ∧
      (chunkMemFill c bs).1 =
        { c with data := some (write d e (bs.take c.left)), «end» := some (e + min c.left bs.length),
                 left := c.left - bs.length, ndata := c.ndata + min c.left bs.length,
                 status := if c.left ≤ bs.length then CHUNK_STATUS_OVER else c.status } := by
  obtain ⟨d, hd⟩ := Option.isSome_iff_exists.mp h.data
  obtain ⟨e, he⟩ := Option.isSome_iff_exists.mp h.end
  have hlen := List.length_pos_iff.mpr hbs
  have hleft := h.left
  refine ⟨d, e, hd, he, ?_⟩
  unfold chunkMemFill
  simp only [hd, he]
  rw [if_pos ⟨hlen,hleft⟩]
  refine ⟨by simp, ?_⟩
  have htake : bs.take (min c.left bs.length) = bs.take c.left := by
    rw [List.take_eq_take_iff]
    omega
  have hsub : c.left - min c.left bs.length = c.left - bs.length := by omega
  dsimp only
  rw [htake, hsub]
  simp only [Nat.sub_eq_zero_iff_le]

/-- A chunk of `n` bytes, of which `f` have been received. -/
structure Chunk.Filled (c : Chunk) (f : List UInt8) (n : ℕ) : Prop where
  type : c.type = CHUNK_MEM
  data : ∃ d, c.data = some d ∧ read d 0 f.length = f
  «end» : c.end = some f.length
  left : f.length + c.left = n
  ndata : c.ndata = f.length

section
variable {c : Chunk} {f bs : List UInt8} {n : ℕ}

theorem Chunk.Filled.filling (h : c.Filled f n) (hleft : 0 < c.left) : Filling c where
  type := h.type
  left := hleft
  data := by
    obtain ⟨d, hd, -⟩ := h.data
    rw [hd]
    rfl
  «end» := by rw [h.end]; rfl

/-- The bytes that the chunk shows. -/
theorem Chunk.Filled.bytes_eq (h : c.Filled f n) :
    (c.data.elim [] fun d => read d 0 c.ndata) = f := by
  obtain ⟨d, hd, hread⟩ := h.data
  rw [hd, h.ndata]
  exact hread

theorem Chunk.Filled.backed (h : c.Filled f n) : c.Backed := by
  obtain ⟨d, hd, -⟩ := h.data
  exact fun _ => by rw [hd]; rfl

/-- A chunk that is asked for is empty. -/
theorem chunkMem_filled (h : c.Backed) (junk : Mem) (hn : 0 < n) :
    (chunkMem true junk c n).Filled [] n := by
  obtain ⟨d, hd⟩ := Option.isSome_iff_exists.mp (chunkRoom_data h junk (Nat.succ_pos n))
  unfold chunkMem
  rw [if_pos hn]
  dsimp only
  rw [hd]
  exact ⟨rfl, ⟨_, rfl, rfl⟩, rfl, Nat.zero_add n, rfl⟩

/-- Bytes are stored behind those received. -/
theorem Chunk.Filled.store {c' : Chunk} {d : Mem} (h : c.Filled f n) (hd : c.data = some d)
    (hle : bs.length ≤ c.left) (htype : c'.type = c.type)
    (hdata : c'.data = some (write d f.length bs)) (hend : c'.end = some (f.length + bs.length))
    (hleft : c'.left = c.left - bs.length) (hndata : c'.ndata = c.ndata + bs.length) :
    c'.Filled (f ++ bs) n := by
  obtain ⟨d', hd', hread⟩ := h.data
  cases hd.symm.trans hd'
  have hn := h.left
  refine ⟨htype.trans h.type, ⟨_, hdata, ?_⟩, by rw [hend, List.length_append], ?_, ?_⟩
  · have happend := read_write_append d f.length bs []
    rwa [List.append_nil, hread, ← List.length_append] at happend
  · rw [List.length_append, hleft]
    omega
  · rw [hndata, h.ndata, List.length_append]

/-- `chunk_mem_fill` takes what the chunk has room for. -/
theorem Chunk.Filled.fill (h : c.Filled f n) (hleft : 0 < c.left) (hbs : bs ≠ []) :
    (chunkMemFill c bs).1.Filled (f ++ bs.take c.left) n := by
  obtain ⟨d, e, hd, he, -, hc⟩ := chunkMemFill_spec (h.filling hleft) hbs
  have hlen : (bs.take c.left).length = min c.left bs.length := List.length_take
  cases he.symm.trans h.end
  rw [hc]
  refine h.store hd (by omega) rfl rfl (by rw [hlen]) ?_ (by rw [hlen])
  dsimp only
  omega

/-- So does a receiving call, from the socket. -/
theorem Chunk.Filled.recv (h : c.Filled f n) (hleft : 0 < c.left) (hbs : bs ≠ []) (refused : ℤ) :
    (chunkReadWith refused c (.bytes bs)).1.Filled (f ++ bs.take c.left) n ∧
      0 < (chunkReadWith refused c (.bytes bs)).2 := by
  obtain ⟨d, hd, -⟩ := h.data
  have hpos : 0 < (bs.take c.left).length := by
    have := List.length_pos_iff.mpr hbs
    rw [List.length_take]
    omega
  have hle : (bs.take c.left).length ≤ c.left := List.length_take_le _ _
  have htake : (Recv.bytes bs).take c.left = (bs.take c.left, ((bs.take c.left).length : ℤ)) := rfl
  have hgot : (0 : ℤ) < ((bs.take c.left).length : ℤ) := by omega
  unfold chunkReadWith
  simp only [hd, h.end, hleft, if_true]
  rw [htake]
  dsimp only
  rw [if_pos hgot]
  exact ⟨h.store hd hle rfl rfl rfl rfl rfl, hgot⟩

end

end Sbase
