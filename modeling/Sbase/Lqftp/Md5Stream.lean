import Sbase.Lqftp.Md5

/-! The digest that `md5_init`, `md5_update` and `md5_final` compute is that of the whole text, however it
is cut. -/
namespace Sbase
open BlockFold

/-! ### The lines as turns -/

/-- Turn `i`: its function, the word that it takes, and by how much it rotates. -/
def md5Turn (i : ℕ) : Md5Func × ℕ × UInt32 :=
  match i/16 with
  | 0 => (.ff,i%16,[7,12,17,22].getD (i%4) 0)
  | 1 => (.gg,(5*i+1)%16,[5,9,14,20].getD (i%4) 0)
  | 2 => (.hh,(3*i+5)%16,[4,11,16,23].getD (i%4) 0)
  | _ => (.ii,7*i%16,[6,10,15,21].getD (i%4) 0)

/-- The constant of turn `i`. -/
def md5Const (i : ℕ) : UInt32 := (md5Lines[i]?.map Md5Line.ac).getD 0

/-- A turn works on the first word and moves it behind the second. -/
def md5Rotate (x : ℕ → UInt32) (i : ℕ) : UInt32 × UInt32 × UInt32 × UInt32 → UInt32 × UInt32 × UInt32 × UInt32
  | (a,b,c,d) =>
    let (func,k,s) := md5Turn i
    (d,lrotate (a+(func.apply b c d+x k+md5Const i)) s+b,b,c)

/-- The register that turn `i` takes at place `j`. -/
def md5Reg (i j : ℕ) : Fin 4 := ⟨(j+3*(i%4))%4,Nat.mod_lt _ four_pos⟩

/-- The registers as turn `i` takes them. -/
def md5View (i : ℕ) (r : Vector UInt32 4) : UInt32 × UInt32 × UInt32 × UInt32 :=
  (r[md5Reg i 0],r[md5Reg i 1],r[md5Reg i 2],r[md5Reg i 3])

/-- Sixty-four turns over a block. -/
def md5Compress (state : Vector UInt32 4) (block : List UInt8) : Vector UInt32 4 :=
  let (a,b,c,d) := (List.range 64).foldl (fun r i => md5Rotate (md5Word block) i r) (md5View 0 state)
  state.zipWith (· + ·) #v[a,b,c,d]

def md5Line (i : ℕ) : Md5Line :=
  let (func,k,s) := md5Turn i
  ⟨func,md5Reg i 0,md5Reg i 1,md5Reg i 2,md5Reg i 3,k,s,md5Const i⟩

theorem md5Lines_eq : md5Lines = (List.range 64).map md5Line := by decide

variable {x : ℕ → UInt32} {r state : Vector UInt32 4} {block : List UInt8}

theorem md5View_run (i : ℕ) (r : Vector UInt32 4) :
    md5View (i+1) ((md5Line i).run x r) = md5Rotate x i (md5View i r) := by
  have hturn : i%4 = 0 ∧ (i+1)%4 = 1 ∨ i%4 = 1 ∧ (i+1)%4 = 2 ∨ i%4 = 2 ∧ (i+1)%4 = 3 ∨
      i%4 = 3 ∧ (i+1)%4 = 0 := by omega
  rcases hturn with ⟨h,h'⟩ | ⟨h,h'⟩ | ⟨h,h'⟩ | ⟨h,h'⟩ <;>
    simp [md5View,md5Line,Md5Line.run,md5Rotate,md5Reg,h,h']

theorem md5View_lines (n : ℕ) (r : Vector UInt32 4) :
    md5View n (((List.range n).map md5Line).foldl (Md5Line.run x) r) =
      (List.range n).foldl (fun r i => md5Rotate x i r) (md5View 0 r) := by
  induction n with
  | zero => rfl
  | succ n ih => simp [List.range_succ,md5View_run,ih]

/-- `MD5_CALCULATE` is the sixty-four turns. -/
theorem md5Calculate_eq : md5Calculate = md5Compress := by
  funext state block
  have hregs : ∀ r : Vector UInt32 4, #v[r[0],r[1],r[2],r[3]] = r := by
    intro r
    ext i hi
    interval_cases i <;> rfl
  rw [md5Calculate,md5Compress,← md5View_lines,← md5Lines_eq]
  exact congrArg (state.zipWith (· + ·)) (hregs _).symm

/-! ### The buffer -/

/-- What a context has taken in: the words of the whole blocks, what is left over in front of the buffer,
and the number of bits modulo `2^64`. -/
structure Md5Ctx.Holds (ctx : Md5Ctx) (msg : List UInt8) : Prop where
  state : ctx.state = (consume md5Calculate MD5_BLOCK_N md5InitState msg).1
  left : ctx.buf.take (msg.length%MD5_BLOCK_N) = (consume md5Calculate MD5_BLOCK_N md5InitState msg).2
  buf : ctx.buf.length = MD5_BLOCK_N
  low : ctx.total0 = 8*msg.length%2^32
  high : ctx.total1 = 8*msg.length/2^32%2^32

variable {ctx : Md5Ctx} {msg data : List UInt8}

theorem md5Init_holds : md5Init.Holds [] :=
  ⟨by rw [consume_nil]; rfl,by rw [consume_nil]; rfl,rfl,rfl,rfl⟩

theorem length_md5Copy {buf : List UInt8} {offset : ℕ} (h : offset+data.length ≤ buf.length) :
    (md5Copy buf offset data).length = buf.length := by
  simp [md5Copy]
  omega

theorem take_md5Copy {buf : List UInt8} {offset : ℕ} (h : offset+data.length ≤ buf.length) :
    (md5Copy buf offset data).take (offset+data.length) = buf.take offset ++ data := by
  have hlen : (buf.take offset ++ data).length = offset+data.length := by
    simp
    omega
  rw [md5Copy,← hlen,List.take_left]

/-- The loop takes the whole blocks and stops before what is left over. -/
theorem md5Blocks_eq {i : ℕ} (state : Vector UInt32 4) (hdata : data.length+MD5_BLOCK_N ≤ 2^32) (hi : i ≤ data.length) :
    ∃ j ≤ data.length, md5Blocks state data i =
        some ((consume md5Calculate MD5_BLOCK_N state (data.drop i)).1,j) ∧
      data.drop j = (consume md5Calculate MD5_BLOCK_N state (data.drop i)).2 := by
  induction hlen : data.length-i using Nat.strong_induction_on generalizing state i with
  | _ k ih =>
    subst hlen
    have hwrap : (i+MD5_BLOCK_N-1)%2^32 = i+MD5_BLOCK_N-1 := Nat.mod_eq_of_lt (by simp only [MD5_BLOCK_N] at *; omega)
    rw [md5Blocks,hwrap]
    split_ifs with hlt hle
    · rw [consume_step (by decide) (by simp only [List.length_drop,MD5_BLOCK_N] at *; omega),List.drop_drop]
      exact ih _ (by simp only [MD5_BLOCK_N] at *; omega) _ hle rfl
    · simp only [MD5_BLOCK_N] at *
      omega
    · rw [consume_short (by simp only [List.length_drop,MD5_BLOCK_N] at *; omega)]
      exact ⟨i,hi,rfl,rfl⟩

/-- Where the buffer goes on. -/
theorem Md5Ctx.Holds.offset (h : ctx.Holds msg) : (ctx.total0 >>> 3)%MD5_BLOCK_N = msg.length%MD5_BLOCK_N := by
  rw [h.low,Nat.shiftRight_eq_div_pow]
  simp only [MD5_BLOCK_N]
  omega

/-- The number of bits goes on, the carry included. -/
theorem Md5Ctx.Holds.counts (h : ctx.Holds msg) (data : List UInt8) :
    let bits := (data.length <<< 3)%2^32
    let total0 := (ctx.total0+bits)%2^32
    total0 = 8*(msg ++ data).length%2^32 ∧
      ((if total0 < bits then (ctx.total1+1)%2^32 else ctx.total1)+data.length >>> 29)%2^32 =
        8*(msg ++ data).length/2^32%2^32 := by
  rw [h.low,h.high,Nat.shiftLeft_eq,Nat.shiftRight_eq_div_pow,List.length_append]
  refine ⟨by omega,?_⟩
  split_ifs <;> omega

theorem md5Update_holds (h : ctx.Holds msg) (data : List UInt8) (hdata : data.length+MD5_BLOCK_N ≤ 2^32) :
    ∃ ctx', md5Update ctx data = some ctx' ∧ ctx'.Holds (msg ++ data) := by
  obtain ⟨hlow,hhigh⟩ := h.counts data
  have hoffset : msg.length%MD5_BLOCK_N < MD5_BLOCK_N := Nat.mod_lt _ (by decide)
  have happend : consume md5Calculate MD5_BLOCK_N md5InitState (msg ++ data) =
      consume md5Calculate MD5_BLOCK_N ctx.state (ctx.buf.take (msg.length%MD5_BLOCK_N) ++ data) := by
    rw [consume_append (by decide),h.state,h.left]
  have hleft : (ctx.buf.take (msg.length%MD5_BLOCK_N)).length = msg.length%MD5_BLOCK_N := by
    simp [h.buf,hoffset.le]
  unfold md5Update
  simp only [h.offset]
  have hmod : (msg ++ data).length%MD5_BLOCK_N = (msg.length%MD5_BLOCK_N+data.length)%MD5_BLOCK_N := by simp
  generalize msg.length%MD5_BLOCK_N = offset at *
  rcases lt_or_ge data.length (MD5_BLOCK_N-offset) with hpart | hpart
  · have hfits : offset+data.length ≤ ctx.buf.length := by
      rw [h.buf]
      omega
    have hend : consume md5Calculate MD5_BLOCK_N md5InitState (msg ++ data) =
        (ctx.state,ctx.buf.take offset ++ data) := by
      rw [happend,consume_short (by rw [List.length_append,hleft]; omega)]
    rw [if_neg (not_le.mpr hpart)]
    refine ⟨_,rfl,?_,?_,(length_md5Copy hfits).trans h.buf,hlow,hhigh⟩
    · rw [hend]
    · rw [hend,hmod,Nat.mod_eq_of_lt (by omega),take_md5Copy hfits]
  · -- The buffer is filled up to a block, which comes before the others.
    have hlen : (data.take (MD5_BLOCK_N-offset)).length = MD5_BLOCK_N-offset := by simp [hpart]
    have hfull : offset+(data.take (MD5_BLOCK_N-offset)).length = MD5_BLOCK_N := by omega
    have hblock : md5Copy ctx.buf offset (data.take (MD5_BLOCK_N-offset)) =
        ctx.buf.take offset ++ data.take (MD5_BLOCK_N-offset) := by
      rw [md5Copy,hfull,List.drop_of_length_le h.buf.le,List.append_nil]
    obtain ⟨j,hj,hblocks,hrest⟩ := md5Blocks_eq (md5Calculate ctx.state (md5Copy ctx.buf offset
      (data.take (MD5_BLOCK_N-offset)))) hdata hpart
    have hend : consume md5Calculate MD5_BLOCK_N md5InitState (msg ++ data) =
        consume md5Calculate MD5_BLOCK_N (md5Calculate ctx.state (md5Copy ctx.buf offset
          (data.take (MD5_BLOCK_N-offset)))) (data.drop (MD5_BLOCK_N-offset)) := by
      rw [happend,hblock,← consume_block (by decide) (by rw [List.length_append,hleft,hlen]; omega),
        List.append_assoc,List.take_append_drop]
    have hshort : (data.drop j).length = (msg ++ data).length%MD5_BLOCK_N := by
      rw [hrest,← hend,consume_left (by decide)]
    have hfits : 0+(data.drop j).length ≤ (List.replicate MD5_BLOCK_N (0 : UInt8)).length := by
      rw [hshort,Nat.zero_add,List.length_replicate]
      exact (Nat.mod_lt _ (by decide)).le
    rw [if_pos hpart,hblocks]
    refine ⟨_,rfl,?_,?_,(length_md5Copy hfits).trans List.length_replicate,hlow,hhigh⟩
    · rw [hend]
    · have htake := take_md5Copy hfits
      rw [Nat.zero_add,hshort] at htake
      rw [htake,hrest,hend]
      rfl

theorem md5Updates_holds (pieces : List (List UInt8)) (h : ctx.Holds msg)
    (hpieces : ∀ p ∈ pieces, p.length+MD5_BLOCK_N ≤ 2^32) :
    ∃ ctx', pieces.foldlM md5Update ctx = some ctx' ∧ ctx'.Holds (msg ++ pieces.flatten) := by
  induction pieces generalizing ctx msg with
  | nil => exact ⟨ctx,rfl,by simpa using h⟩
  | cons p pieces ih =>
    obtain ⟨ctx₁,hupdate,hholds⟩ := md5Update_holds h p (hpieces p (by simp))
    obtain ⟨ctx₂,hrest,hend⟩ := ih hholds fun q hq => hpieces q (by simp [hq])
    exact ⟨ctx₂,by simp [hupdate,hrest],by simpa using hend⟩

/-! ### The digest -/

/-- A text up to a whole block: a bit, zeros and the number of bits of the text. -/
def md5Pad (msg : List UInt8) : List UInt8 :=
  msg ++ 0x80::List.replicate ((119-msg.length%64)%64) 0 ++
    (List.range 8).map fun i => UInt8.ofNat (8*msg.length/256^i)

/-- The digest of a text, block by block. -/
def md5Digest (msg : List UInt8) : List UInt8 :=
  (consume md5Compress 64 md5InitState (md5Pad msg)).1.toList.flatMap fun w => md5Bytes w.toNat

theorem Md5Ctx.Holds.bits (h : ctx.Holds msg) : md5Bytes ctx.total0 ++ md5Bytes ctx.total1 =
    (List.range 8).map fun i => UInt8.ofNat (8*msg.length/256^i) := by
  rw [h.low,h.high]
  simp only [md5Bytes,List.range_succ,List.range_zero,Nat.shiftRight_eq_div_pow]
  simp [← UInt8.toNat_inj]
  omega

theorem md5Padding_take {index : ℕ} (hindex : index < MD5_BLOCK_N) :
    md5Padding.take (if index < MD5_SET_N then MD5_SET_N-index else MD5_SET_N+MD5_BLOCK_N-index) =
      0x80::List.replicate ((119-index)%64) 0 := by
  have hpad : (if index < MD5_SET_N then MD5_SET_N-index else MD5_SET_N+MD5_BLOCK_N-index) =
      (119-index)%64+1 := by
    rcases lt_or_ge index MD5_SET_N with hset | hset
    · rw [if_pos hset]
      simp only [MD5_SET_N] at *
      omega
    · rw [if_neg (not_lt.mpr hset)]
      simp only [MD5_SET_N,MD5_BLOCK_N] at *
      omega
  rw [hpad,md5Padding,List.take_succ_cons,List.take_replicate,min_eq_left (by omega)]

theorem md5Final_eq (h : ctx.Holds msg) : md5Final ctx = some (md5Digest msg) := by
  have hpadding := md5Padding_take (Nat.mod_lt msg.length (by decide : 0 < MD5_BLOCK_N))
  obtain ⟨ctx₁,hfirst,hpadded⟩ := md5Update_holds h (0x80::List.replicate ((119-msg.length%64)%64) 0)
    (by simp [MD5_BLOCK_N]; omega)
  obtain ⟨ctx₂,hsecond,hdone⟩ := md5Update_holds hpadded (md5Bytes ctx.total0 ++ md5Bytes ctx.total1)
    (by simp [md5Bytes,MD5_BLOCK_N])
  have hstate : ctx₂.state = (consume md5Compress 64 md5InitState (md5Pad msg)).1 := by
    rw [hdone.state,h.bits,md5Calculate_eq]
    rfl
  simp only [md5Final,h.offset]
  rw [hpadding]
  simp only [MD5_BLOCK_N,Option.bind_eq_bind]
  rw [hfirst,Option.bind_some,hsecond,Option.bind_some,hstate]
  rfl

/-- The digest of a file does not depend on the pieces in which it is read. -/
theorem md5_stream (pieces : List (List UInt8)) (h : ∀ p ∈ pieces, p.length+MD5_BLOCK_N ≤ 2^32) :
    md5File pieces = some (md5Digest pieces.flatten) := by
  obtain ⟨ctx,hupdates,hholds⟩ := md5Updates_holds pieces md5Init_holds h
  rw [md5File,hupdates]
  exact md5Final_eq hholds

theorem md5_stream_abc : md5File [[97,98],[99]] = some (md5Digest [97,98,99]) :=
  md5_stream [[97,98],[99]] (by decide)

end Sbase
