import Mathlib.Tactic
import Sbase.Http.Chunked
import Sbase.Lib.Runs
import Sbase.Utils.Chunk
import Sbase.Utils.MmblockQueue

/-! The block and the cursor of a memory chunk over any sequence of operations, with the arithmetic of
`chunk_mem` on its `int` variables. -/
namespace Sbase
open Memory Runs

def INT_MAX : ℕ := 2147483647

/-- The room that `chunk_mem` makes, where the allocation of a positive size succeeds; a size that has
become negative is one that no allocation can give. -/
def chunkRoomInt (junk : Mem) (c : Chunk) (need : ℤ) : Chunk :=
  if c.bsize < need then
    let n := need / CHUNK_BLOCK_SIZE + if need % CHUNK_BLOCK_SIZE ≠ 0 then 1 else 0
    let size := int32 (n * CHUNK_BLOCK_SIZE)
    if 0 < size then { c with data := some junk, bsize := size.toNat }
    else { c with data := none, bsize := 0 }
  else c

/-- The last assignments of `chunk_mem`, to a chunk that has its room. -/
def chunkSetMem (c : Chunk) (len : ℕ) : Chunk :=
  match c.data with
  | some d => { c with type := CHUNK_MEM, status := CHUNK_STATUS_ON, size := len, left := len,
                       «end» := some 0, data := some (Function.update d len 0), ndata := 0 }
  | none => c

/-- `chunk_mem` with its `int` variables. -/
def chunkMemInt (junk : Mem) (c : Chunk) (len : ℕ) : Chunk :=
  if 0 < len then chunkSetMem (chunkRoomInt junk c (int32 (len+1))) len else c

/-- The operations on a memory chunk; a length above `INT_MAX` stands for no call. -/
inductive ChunkOp
  | mem (len : ℕ) (junk : Mem)
  | fill (bs : List UInt8)
  | copy (bs : List UInt8)
  | read (r : Recv)
  | write (s : Send)
  | reset

namespace ChunkOp

def apply (c : Chunk) : ChunkOp → Chunk
  | .mem len junk => chunkMemInt junk c len
  | .fill bs => (chunkMemFill c bs).1
  | .copy bs => chunkMemCopy c bs
  | .read r => (chunkRead c r).1
  | .write s => (chunkWrite c s).chunk
  | .reset => chunkReset c

/-- The bytes that the operation writes, with the offset from `data` that they go to. -/
def written (c : Chunk) : ChunkOp → Option (ℕ × List UInt8)
  | .mem len junk =>
    if 0 < len ∧ (chunkRoomInt junk c (int32 (len+1))).data.isSome then some (len,[0]) else none
  | .fill bs =>
    match c.data, c.end with
    | some _, some e =>
      if 0 < bs.length ∧ 0 < c.left then some (e,bs.take (min c.left bs.length)) else none
    | _, _ => none
  | .copy bs =>
    match c.data, c.end with
    | some _, some e => if 0 < bs.length ∧ 0 < c.left then some (e,bs.take c.size) else none
    | _, _ => none
  | .read r =>
    match c.data, c.end with
    | some _, some e =>
      if 0 < c.left ∧ 0 < (r.take c.left).2 then some (e,(r.take c.left).1) else none
    | _, _ => none
  | .write _ => none
  | .reset => none

/-- The block that the operation writes to. -/
def base (c : Chunk) : ChunkOp → Option Mem
  | .mem len junk => if 0 < len then (chunkRoomInt junk c (int32 (len+1))).data else c.data
  | .reset => (chunkReset c).data
  | _ => c.data

end ChunkOp

/-- A chunk with the last write to its block, and whether it has been set up by `chunk_mem` and only
received into since. -/
structure ChunkWorld where
  chunk : Chunk
  wrote : Option (ℕ × ℕ)
  receiving : Bool

namespace ChunkWorld

/-- A chunk as `conn_init` makes it. -/
def init : ChunkWorld := ⟨chunkInit,none,false⟩

def apply (w : ChunkWorld) (op : ChunkOp) : ChunkWorld where
  chunk := op.apply w.chunk
  wrote := (op.written w.chunk).map fun r => (r.1,r.2.length)
  receiving :=
    match op with
    | .mem len _ => 0 < len ∨ w.receiving
    | .fill _ | .read _ => w.receiving
    | .copy _ | .write _ | .reset => false

/-- The last write was inside the block, the cursor is inside the data, and while data is received the
counters say how far. -/
structure Kept (w : ChunkWorld) : Prop where
  inside : ∀ off n, w.wrote = some (off,n) → off + n ≤ w.chunk.bsize
  cursor : ∀ e, w.chunk.data.isSome → w.chunk.end = some e → e ≤ w.chunk.size
  received : w.receiving → w.chunk.data.isSome ∧ w.chunk.ndata + w.chunk.left = w.chunk.size ∧
    w.chunk.end = some w.chunk.ndata

/-- The largest size that `chunk_mem` can round up. -/
def needMax : ℕ := INT_MAX + 1 - CHUNK_BLOCK_SIZE

/-- The condition on an operation: a length whose rounded size is an `int`, and a copy that ends within
the block. -/
def Fits (w : ChunkWorld) : ChunkOp → Prop
  | .mem len _ => len + 1 ≤ needMax
  | .copy bs => ∀ e, w.chunk.data.isSome → w.chunk.end = some e → 0 < bs.length → 0 < w.chunk.left →
      e + min w.chunk.size bs.length ≤ w.chunk.bsize
  | _ => True

/-- The invariant. -/
structure Blocked (w : ChunkWorld) : Prop extends Kept w where
  block : w.chunk.bsize ≤ needMax
  empty : w.chunk.data = none → w.chunk.bsize = 0 ∧ w.chunk.left = 0
  room : ∀ d, w.chunk.data = some d → ∃ e, w.chunk.end = some e ∧ e + w.chunk.left ≤ w.chunk.size ∧
    (0 < w.chunk.left → w.chunk.size < w.chunk.bsize)

variable {w : ChunkWorld} {c : Chunk}

/-! ### What each operation writes -/

theorem chunkSetMem_data (c : Chunk) (len : ℕ) :
    (chunkSetMem c len).data = c.data.map fun d => Function.update d len 0 := by
  rw [chunkSetMem]
  cases hd : c.data with
  | none => exact hd
  | some d => rfl

theorem chunkSetMem_bsize (c : Chunk) (len : ℕ) : (chunkSetMem c len).bsize = c.bsize := by
  rw [chunkSetMem]
  cases c.data <;> rfl

/-- The block after an operation is the one before it, or a new one, with the bytes written to it. -/
theorem apply_data (c : Chunk) (op : ChunkOp) : (op.apply c).data = (op.base c).map fun d =>
    (op.written c).elim d fun r => Memory.write d r.1 r.2 := by
  cases op with
  | mem len junk =>
    rw [ChunkOp.apply,ChunkOp.base,ChunkOp.written]
    by_cases hpos : 0 < len
    · rw [chunkMemInt,if_pos hpos,chunkSetMem_data,if_pos hpos]
      cases (chunkRoomInt junk c (int32 (len+1))).data with
      | none => rfl
      | some d =>
        rw [if_pos ⟨hpos,rfl⟩]
        exact congrArg some (Memory.write_singleton d len 0).symm
    · rw [if_neg hpos,if_neg fun h => hpos h.1,chunkMemInt,if_neg hpos]
      exact Option.map_id'.symm
  | fill bs =>
    change (chunkMemFill c bs).1.data = c.data.map _
    rw [chunkMemFill,ChunkOp.written]
    cases hd : c.data with
    | none => exact hd
    | some d =>
      cases he : c.end with
      | none => exact hd
      | some e =>
        by_cases hfill : 0 < bs.length ∧ 0 < c.left
        · simp only [hfill,and_self,if_true,Option.map_some,Option.elim_some]
        · simp only [hfill,if_false,Option.map_some,Option.elim_none,hd]
  | copy bs =>
    change (chunkMemCopy c bs).data = c.data.map _
    rw [chunkMemCopy,ChunkOp.written]
    cases hd : c.data with
    | none => exact hd
    | some d =>
      cases he : c.end with
      | none => exact hd
      | some e =>
        by_cases hcopy : 0 < bs.length ∧ 0 < c.left
        · simp only [hcopy,and_self,if_true,Option.map_some,Option.elim_some]
        · simp only [hcopy,if_false,Option.map_some,Option.elim_none,hd]
  | read r =>
    change (chunkRead c r).1.data = c.data.map _
    rw [chunkRead,chunkReadWith,ChunkOp.written]
    cases hd : c.data with
    | none => exact hd
    | some d =>
      cases he : c.end with
      | none => exact hd
      | some e =>
        by_cases hleft : 0 < c.left
        · by_cases hgot : 0 < (r.take c.left).2
          · simp only [hleft,hgot,and_self,if_true,Option.map_some,Option.elim_some]
          · simp only [hleft,hgot,and_false,if_true,if_false,Option.map_some,Option.elim_none,hd]
        · simp only [hleft,false_and,if_false,Option.map_some,Option.elim_none,hd]
  | write s =>
    change (chunkWrite c s).chunk.data = c.data.map _
    rw [chunkWrite,ChunkOp.written]
    cases hd : c.data with
    | none => exact hd
    | some d =>
      cases he : c.end with
      | none => exact hd
      | some e =>
        dsimp only
        split_ifs
        · rfl
        · exact hd
        · exact hd
  | reset => exact Option.map_id'.symm

/-! ### The size of the block -/

/-- The number of pages that `chunk_mem` asks for. -/
def pages (need : ℤ) : ℤ := need / CHUNK_BLOCK_SIZE + if need % CHUNK_BLOCK_SIZE ≠ 0 then 1 else 0

theorem pages_bounds (need : ℤ) : pages need * CHUNK_BLOCK_SIZE = 4096 * pages need ∧
    need ≤ 4096 * pages need ∧ 4096 * pages need < need + 4096 := by
  have hsize : (CHUNK_BLOCK_SIZE : ℤ) = 4096 := rfl
  rw [pages,hsize]
  split_ifs <;> omega

theorem chunkRoomInt_eq (junk : Mem) (c : Chunk) (need : ℤ) : chunkRoomInt junk c need =
    if c.bsize < need then
      if 0 < int32 (pages need * CHUNK_BLOCK_SIZE) then
        { c with data := some junk, bsize := (int32 (pages need * CHUNK_BLOCK_SIZE)).toNat }
      else { c with data := none, bsize := 0 }
    else c := rfl

/-- A size that can be rounded up gets its room. -/
theorem chunkRoomInt_fits (junk : Mem) {need : ℕ} (hpos : 0 < need) (hneed : need ≤ needMax)
    (hblock : c.bsize ≤ needMax) (hempty : c.data = none → c.bsize = 0) : ∃ d b,
      chunkRoomInt junk c need = { c with data := some d, bsize := b } ∧ need ≤ b ∧ b ≤ needMax := by
  have hmax : needMax = 2147479552 := rfl
  have hsize : (CHUNK_BLOCK_SIZE : ℤ) = 4096 := rfl
  rw [chunkRoomInt_eq]
  split_ifs with hlt hroom
  · obtain ⟨hpages,hle,hlt⟩ := pages_bounds need
    rw [hpages,int32_of_bounds (by omega) (by omega)]
    exact ⟨junk,_,rfl,by omega,by omega⟩
  · obtain ⟨hpages,hle,hlt⟩ := pages_bounds need
    rw [hpages,int32_of_bounds (by omega) (by omega)] at hroom
    omega
  · cases hd : c.data with
    | none =>
      have hzero := hempty hd
      omega
    | some d =>
      refine ⟨d,c.bsize,?_,by omega,hblock⟩
      rw [← hd]

/-- Where the size can be rounded up, `chunk_mem` over unbounded integers computes the same. -/
theorem chunkMemInt_eq_chunkMem (junk : Mem) (c : Chunk) {len : ℕ} (hlen : len + 1 ≤ needMax) :
    chunkMemInt junk c len = chunkMem true junk c len := by
  have hmax : needMax = 2147479552 := rfl
  have hsize : CHUNK_BLOCK_SIZE = 4096 := rfl
  have hint : int32 ((len : ℤ)+1) = ((len+1 : ℕ) : ℤ) := by
    rw [int32_of_bounds (by omega) (by omega),Nat.cast_succ]
  have hroom : chunkRoomInt junk c ((len+1 : ℕ) : ℤ) = chunkRoom true junk c (len+1) := by
    obtain ⟨hpages,hle,hlt⟩ := pages_bounds ((len+1 : ℕ) : ℤ)
    have hbytes : (pages ((len+1 : ℕ) : ℤ) * CHUNK_BLOCK_SIZE).toNat =
        ((len+1) / CHUNK_BLOCK_SIZE + if (len+1) % CHUNK_BLOCK_SIZE ≠ 0 then 1 else 0) *
          CHUNK_BLOCK_SIZE := by
      rw [hpages,hsize]
      split_ifs <;> omega
    rw [chunkRoomInt_eq,chunkRoom]
    by_cases hroom : c.bsize < len+1
    · rw [if_pos (by omega),if_pos hroom,hpages,int32_of_bounds (by omega) (by omega),if_pos (by omega),
        ← hpages,hbytes]
      rfl
    · rw [if_neg (by omega),if_neg hroom]
  rw [chunkMemInt,chunkMem,hint,hroom]
  rfl

/-- Any other size gets none, or a block that is too small for it. -/
theorem chunkRoomInt_overflow (junk : Mem) {len : ℕ} (hlen : needMax < len+1) (hblock : c.bsize ≤ needMax) :
    (chunkRoomInt junk c (int32 (len+1))).data = none ∨
      (chunkRoomInt junk c (int32 (len+1))).bsize < len+1 := by
  have hmax : needMax = 2147479552 := rfl
  have hsize : (CHUNK_BLOCK_SIZE : ℤ) = 4096 := rfl
  rw [chunkRoomInt_eq]
  split_ifs with hlt hroom
  · right
    dsimp only
    have hint : int32 (pages (int32 (len+1)) * CHUNK_BLOCK_SIZE) < 2^31 := Int.bmod_lt (by decide)
    by_contra hge
    -- a length that is an `int` has a rounded size that is none
    have hlen' : int32 (len+1) = len+1 := int32_of_bounds (by omega) (by omega)
    obtain ⟨hpages,hle,hlt⟩ := pages_bounds (len+1)
    have hover : pages (len+1) * CHUNK_BLOCK_SIZE = 2147483648 := by omega
    rw [hlen',hover] at hroom
    exact absurd hroom (by decide)
  · exact .inl rfl
  · right
    omega

/-! ### The invariant -/

theorem Blocked.of_chunk {w' : ChunkWorld} (h : Blocked w) (hdata : w'.chunk.data.isSome = w.chunk.data.isSome)
    (hbsize : w'.chunk.bsize = w.chunk.bsize) (hkept : Kept w')
    (hleft : w.chunk.left = 0 → w'.chunk.left = 0)
    (hroom : ∀ d, w.chunk.data = some d → ∃ e, w'.chunk.end = some e ∧
      e + w'.chunk.left ≤ w'.chunk.size ∧ (0 < w'.chunk.left → w'.chunk.size < w'.chunk.bsize)) :
    Blocked w' where
  toKept := hkept
  block := hbsize ▸ h.block
  empty := by
    intro hnone
    have hnone' : w.chunk.data = none := by
      rw [← Option.not_isSome_iff_eq_none,← hdata,hnone]
      decide
    rw [hbsize]
    exact ⟨(h.empty hnone').1,hleft (h.empty hnone').2⟩
  room := by
    intro d hd
    have hsome : w.chunk.data.isSome := by
      rw [← hdata,hd]
      rfl
    obtain ⟨d',hd'⟩ := Option.isSome_iff_exists.mp hsome
    exact hroom d' hd'

theorem chunkMemInt_fits (junk : Mem) {len : ℕ} (hpos : 0 < len) (hlen : len + 1 ≤ needMax)
    (hblock : c.bsize ≤ needMax) (hempty : c.data = none → c.bsize = 0) : ∃ d b,
      chunkRoomInt junk c (int32 (len+1)) = { c with data := some d, bsize := b } ∧
      chunkMemInt junk c len = { c with data := some (Function.update d len 0), bsize := b, type := CHUNK_MEM,
                                        status := CHUNK_STATUS_ON, size := len, left := len, «end» := some 0,
                                        ndata := 0 } ∧ len < b ∧ b ≤ needMax := by
  have hmax : needMax = 2147479552 := rfl
  have hint : int32 ((len : ℤ)+1) = ((len+1 : ℕ) : ℤ) := by
    rw [int32_of_bounds (by omega) (by omega),Nat.cast_succ]
  obtain ⟨d,b,hroom,hle,hmax⟩ := chunkRoomInt_fits junk (Nat.succ_pos len) hlen hblock hempty
  rw [chunkMemInt,if_pos hpos,hint,hroom]
  exact ⟨d,b,rfl,rfl,hle,hmax⟩

theorem Blocked.mem (h : Blocked w) {len : ℕ} {junk : Mem} (hlen : len + 1 ≤ needMax) :
    Blocked (w.apply (.mem len junk)) := by
  by_cases hpos : 0 < len
  · obtain ⟨d,b,hroom,hmem,hlt,hmax⟩ := chunkMemInt_fits junk hpos hlen h.block
      fun hnone => (h.empty hnone).1
    have hworld : w.apply (.mem len junk) =
        ⟨{ w.chunk with
            data := some (Function.update d len 0), bsize := b, type := CHUNK_MEM
            status := CHUNK_STATUS_ON, size := len, left := len, «end» := some 0, ndata := 0 },
          some (len,1),true⟩ := by
      rw [apply,ChunkOp.apply,ChunkOp.written,hroom,hmem,if_pos ⟨hpos,rfl⟩]
      simp only [hpos,true_or,decide_true]
      rfl
    rw [hworld]
    refine ⟨⟨?_,?_,?_⟩,hmax,nofun,?_⟩
    · intro off n hwrote
      cases hwrote
      exact hlt
    · intro e _ he
      cases he
      exact Nat.zero_le _
    · intro _
      exact ⟨rfl,Nat.zero_add len,rfl⟩
    · intro d' _
      exact ⟨0,rfl,(Nat.zero_add len).le,fun _ => hlt⟩
  · have hworld : w.apply (.mem len junk) = { w with wrote := none } := by
      simp only [apply,ChunkOp.apply,ChunkOp.written,chunkMemInt,if_neg hpos]
      simp [hpos]
    rw [hworld]
    exact h.of_chunk rfl rfl ⟨nofun,h.cursor,h.received⟩ id h.room

/-- Bytes that are received at the cursor, no more than are left. -/
theorem Blocked.advance (h : Blocked w) {d d' : Mem} {e n status : ℕ}
    (hd : w.chunk.data = some d) (he : w.chunk.end = some e) (hn : n ≤ w.chunk.left)
    (hleft : 0 < w.chunk.left) :
    Blocked ⟨{ w.chunk with data := some d', «end» := some (e+n), left := w.chunk.left - n,
                            ndata := w.chunk.ndata + n, status := status },
      some (e,n),w.receiving⟩ := by
  obtain ⟨e',he',hle,hroom⟩ := h.room d hd
  rw [he] at he'
  cases he'
  have hsize := hroom hleft
  refine h.of_chunk (by rw [hd]; rfl) rfl ⟨?_,?_,?_⟩ ?_ ?_
  · intro off m hwrote
    cases hwrote
    change e + n ≤ w.chunk.bsize
    omega
  · intro x _ hx
    cases hx
    change e + n ≤ w.chunk.size
    omega
  · intro hreceiving
    obtain ⟨-,hsum,hend⟩ := h.received hreceiving
    rw [he] at hend
    cases hend
    refine ⟨rfl,?_,rfl⟩
    change w.chunk.ndata + n + (w.chunk.left - n) = w.chunk.size
    omega
  · intro hzero
    omega
  · intro _ _
    refine ⟨_,rfl,?_,fun _ => hsize⟩
    change e + n + (w.chunk.left - n) ≤ w.chunk.size
    omega

/-- An operation that leaves the block and the cursor alone. -/
theorem Blocked.idle (h : Blocked w) {receiving : Bool} (hreceiving : receiving → w.receiving) :
    Blocked ⟨w.chunk,none,receiving⟩ :=
  h.of_chunk rfl rfl ⟨nofun,h.cursor,fun hr => h.received (hreceiving hr)⟩ id h.room

theorem Blocked.fill (h : Blocked w) (bs : List UInt8) : Blocked (w.apply (.fill bs)) := by
  rw [apply,ChunkOp.apply,ChunkOp.written,chunkMemFill]
  cases hd : w.chunk.data with
  | none => exact h.idle id
  | some d =>
    cases he : w.chunk.end with
    | none => exact h.idle id
    | some e =>
      by_cases hfill : 0 < bs.length ∧ 0 < w.chunk.left
      · have hlen : (bs.take (min w.chunk.left bs.length)).length = min w.chunk.left bs.length := by
          rw [List.length_take]
          omega
        simp only [hfill,and_self,if_true,Option.map_some,hlen]
        exact h.advance hd he (Nat.min_le_left _ _) hfill.2
      · simp only [hfill,if_false,Option.map_none]
        exact h.idle id

theorem Blocked.read (h : Blocked w) (r : Recv) : Blocked (w.apply (.read r)) := by
  rw [apply,ChunkOp.apply,ChunkOp.written,chunkRead,chunkReadWith]
  cases hd : w.chunk.data with
  | none => exact h.idle id
  | some d =>
    cases he : w.chunk.end with
    | none => exact h.idle id
    | some e =>
      by_cases hleft : 0 < w.chunk.left
      · by_cases hgot : 0 < (r.take w.chunk.left).2
        · simp only [hleft,hgot,and_self,if_true,Option.map_some]
          exact h.advance hd he (r.take_length hgot).2 hleft
        · simp only [hleft,hgot,and_false,if_true,if_false,Option.map_none]
          exact h.idle id
      · simp only [hleft,false_and,if_false,Option.map_none]
        exact h.idle id

theorem Blocked.copy (h : Blocked w) {bs : List UInt8} (hfits : Fits w (.copy bs)) :
    Blocked (w.apply (.copy bs)) := by
  rw [apply,ChunkOp.apply,ChunkOp.written,chunkMemCopy]
  cases hd : w.chunk.data with
  | none => exact h.idle nofun
  | some d =>
    cases he : w.chunk.end with
    | none => exact h.idle nofun
    | some e =>
      obtain ⟨e',he',hroom⟩ := h.room d hd
      rw [he] at he'
      cases he'
      by_cases hcopy : 0 < bs.length ∧ 0 < w.chunk.left
      · simp only [hcopy,and_self,if_true,Option.map_some]
        refine h.of_chunk (by rw [hd]; rfl) rfl ⟨?_,?_,nofun⟩ id fun _ _ => ⟨e,rfl,hroom⟩
        · intro off n hwrote
          simp only [Option.some.injEq,Prod.mk.injEq,List.length_take] at hwrote
          obtain ⟨rfl,rfl⟩ := hwrote
          exact hfits e (by rw [hd]; rfl) he hcopy.1 hcopy.2
        · intro x _ hx
          exact h.cursor x (by rw [hd]; rfl) (he.trans hx)
      · simp only [hcopy,if_false,Option.map_none]
        exact h.idle nofun

theorem Blocked.write (h : Blocked w) (s : Send) : Blocked (w.apply (.write s)) := by
  rw [apply,ChunkOp.apply,ChunkOp.written,chunkWrite]
  cases hd : w.chunk.data with
  | none => exact h.idle nofun
  | some d =>
    cases he : w.chunk.end with
    | none => exact h.idle nofun
    | some e =>
      dsimp only
      split_ifs with hleft hsent
      · have hn : (s.take (Memory.read d e w.chunk.left)).length ≤ w.chunk.left := by
          have hlen := Memory.read_length d e w.chunk.left
          rw [Send.take]
          cases s.accept with
          | none => exact Nat.zero_le _
          | some k =>
            dsimp only
            rw [List.length_take]
            omega
        generalize (s.take (Memory.read d e w.chunk.left)).length = n at hsent hn
        obtain ⟨e',he',hle,hroom⟩ := h.room d hd
        rw [he] at he'
        cases he'
        refine h.of_chunk (by rw [hd]) rfl ⟨nofun,?_,nofun⟩ ?_ ?_
        · intro x _ hx
          cases hx
          change e + n ≤ w.chunk.size
          omega
        · intro hzero
          change w.chunk.left - n = 0
          omega
        · intro _ _
          refine ⟨_,rfl,?_,fun _ => hroom hleft⟩
          change e + n + (w.chunk.left - n) ≤ w.chunk.size
          omega
      · exact h.idle nofun
      · exact h.idle nofun

theorem Blocked.reset (h : Blocked w) : Blocked (w.apply .reset) := by
  have hend : ∀ (c : Chunk) e, (chunkReset c).end = some e → e = 0 := by
    intro c e he
    rw [chunkReset] at he
    obtain ⟨_,-,rfl⟩ := Option.map_eq_some_iff.mp he
    rfl
  have hleft : (chunkReset w.chunk).left = 0 := by
    rw [chunkReset]
    dsimp only
    split_ifs <;> rfl
  refine ⟨⟨nofun,?_,nofun⟩,?_,?_,?_⟩
  · intro e _ he
    rw [hend _ e he]
    exact Nat.zero_le _
  · change (chunkReset w.chunk).bsize ≤ needMax
    rw [chunkReset]
    dsimp only
    split_ifs
    · exact Nat.zero_le _
    · exact h.block
  · intro hnone
    refine ⟨?_,hleft⟩
    change (chunkReset w.chunk).data = none at hnone
    change (chunkReset w.chunk).bsize = 0
    rw [chunkReset] at hnone ⊢
    dsimp only at hnone ⊢
    split_ifs at hnone ⊢
    · rfl
    · exact (h.empty hnone).1
  · intro d hd
    refine ⟨0,?_,?_,fun hpos => absurd hleft hpos.ne'⟩
    · change (chunkReset w.chunk).data = some d at hd
      change (chunkReset w.chunk).end = some 0
      rw [chunkReset] at hd ⊢
      dsimp only at hd ⊢
      rw [hd]
      rfl
    · change 0 + (chunkReset w.chunk).left ≤ (chunkReset w.chunk).size
      rw [hleft]
      exact Nat.zero_le _

theorem Blocked.step (h : Blocked w) {op : ChunkOp} (hop : Fits w op) : Blocked (w.apply op) := by
  cases op with
  | mem len junk => exact h.mem hop
  | fill bs => exact h.fill bs
  | copy bs => exact h.copy hop
  | read r => exact h.read r
  | write s => exact h.write s
  | reset => exact h.reset

/-- An operation outside its condition writes outside the block, or sets up no data. -/
theorem Blocked.bad (h : Blocked w) {op : ChunkOp} (hop : ¬ Fits w op) : ¬ Kept (w.apply op) := by
  intro hkept
  cases op with
  | mem len junk =>
    have hlen : needMax < len+1 := not_le.mp hop
    have hpos : 0 < len := by
      have hmax : needMax = 2147479552 := rfl
      omega
    obtain ⟨hsome,-,-⟩ := hkept.received (by simp only [apply,hpos,true_or,decide_true])
    change ((ChunkOp.mem len junk).apply w.chunk).data.isSome at hsome
    rw [apply_data,Option.isSome_map,ChunkOp.base,if_pos hpos] at hsome
    obtain hnone | hsmall := chunkRoomInt_overflow junk hlen h.block
    · rw [hnone] at hsome
      cases hsome
    · have hwrote : (w.apply (.mem len junk)).wrote = some (len,1) := by
        simp only [apply,ChunkOp.written,hpos,hsome,and_self,if_true,Option.map_some,List.length_singleton]
      have hbsize : (w.apply (.mem len junk)).chunk.bsize =
          (chunkRoomInt junk w.chunk (int32 (len+1))).bsize := by
        change (chunkMemInt junk w.chunk len).bsize = _
        rw [chunkMemInt,if_pos hpos,chunkSetMem_bsize]
      have hinside := hkept.inside len 1 hwrote
      rw [hbsize] at hinside
      omega
  | copy bs =>
    simp only [Fits,not_forall] at hop
    obtain ⟨e,hsome,he,hbs,hleft,hover⟩ := hop
    obtain ⟨d,hd⟩ := Option.isSome_iff_exists.mp hsome
    have hwrote : (w.apply (.copy bs)).wrote = some (e,min w.chunk.size bs.length) := by
      rw [apply,ChunkOp.written,hd,he]
      dsimp only
      rw [if_pos ⟨hbs,hleft⟩,Option.map_some,List.length_take]
    have hbsize : (w.apply (.copy bs)).chunk.bsize = w.chunk.bsize := by
      change (chunkMemCopy w.chunk bs).bsize = _
      rw [chunkMemCopy,hd,he]
      dsimp only
      rw [if_pos ⟨hbs,hleft⟩]
    have hinside := hkept.inside _ _ hwrote
    rw [hbsize] at hinside
    exact hover hinside
  | fill bs => exact hop trivial
  | read r => exact hop trivial
  | write s => exact hop trivial
  | reset => exact hop trivial

theorem init_blocked : Blocked init :=
  ⟨⟨nofun,nofun,nofun⟩,Nat.zero_le _,fun _ => ⟨rfl,rfl⟩,nofun⟩

/-- In every run on one chunk, each write is inside the block and the cursor and the counters are right in
every state exactly where each length of `chunk_mem` can be rounded up and each copy that `chunk_mem_copy`
makes ends within the block. -/
theorem chunk_bounds_iff (ops : List ChunkOp) :
    (∀ ks, ks <+: ops → Kept (ks.foldl apply init)) ↔ Allowed Fits apply init ops :=
  always_iff_allowed (fun _ h => h.toKept) (fun _ _ h hop => h.step hop) (fun _ _ h hop => h.bad hop)
    init_blocked ops

/-- A copy of a whole chunk ends one byte behind the block. -/
theorem copy_behind_block : ¬ ∀ ks, ks <+: [ChunkOp.mem 4095 fun _ => 0, .fill [1,2],
    .copy (List.replicate 4095 1)] → Kept (ks.foldl apply init) := by
  rw [always_iff_allowed (fun _ h => h.toKept) (fun _ _ h (hop : Fits _ _) => h.step hop)
    (fun _ _ h hop => h.bad hop) init_blocked]
  intro ⟨_,_,hfits,_⟩
  have hend := hfits 2 rfl rfl (by rw [List.length_replicate]; decide) (by decide)
  rw [List.length_replicate] at hend
  exact absurd hend (by decide)

end ChunkWorld

end Sbase
