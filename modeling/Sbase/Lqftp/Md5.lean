import Mathlib.Data.UInt
import Sbase.Lib.BlockFold

/-! The message digest of lqftp, `md5.h` and `md5.c`: the lines of `MD5_CALCULATE`, the buffer of
`md5_update`, and the padding of `md5_final`.

A `u_int32_t` that counts bytes is a number below `2^32`; reading behind the data has no result. -/
namespace Sbase

def MD5_BLOCK_N : ℕ := 64
def MD5_SET_N : ℕ := 56
def MD5_BUF_SIZE : ℕ := 131072

/-- An `MD5_CTX`, its digest apart. -/
structure Md5Ctx where
  state : Vector UInt32 4
  total0 : ℕ
  total1 : ℕ
  buf : List UInt8

/-! ### One block -/

/-- The functions of the four rounds. -/
inductive Md5Func
  | ff | gg | hh | ii
  deriving DecidableEq

def Md5Func.apply (x y z : UInt32) : Md5Func → UInt32
  | .ff => (x &&& y) ||| (~~~x &&& z)
  | .gg => (x &&& z) ||| (y &&& ~~~z)
  | .hh => x ^^^ y ^^^ z
  | .ii => y ^^^ (x ||| ~~~z)

def lrotate (x n : UInt32) : UInt32 := (x <<< n) ||| (x >>> (32-n))

/-- A line `FF (a, b, c, d, x[k], s, ac)`, and those of the other rounds. -/
structure Md5Line where
  func : Md5Func
  a : Fin 4
  b : Fin 4
  c : Fin 4
  d : Fin 4
  k : ℕ
  s : UInt32
  ac : UInt32
  deriving DecidableEq

def Md5Line.run (x : ℕ → UInt32) (r : Vector UInt32 4) (l : Md5Line) : Vector UInt32 4 :=
  let a := r[l.a] + (l.func.apply r[l.b] r[l.c] r[l.d] + x l.k + l.ac)
  r.set l.a (lrotate a l.s + r[l.b])

/-- The lines of `MD5_CALCULATE`; the registers are `a`, `b`, `c` and `d` in this order. -/
def md5Lines : List Md5Line := [
  ⟨.ff,0,1,2,3,0,7,0xd76aa478⟩, ⟨.ff,3,0,1,2,1,12,0xe8c7b756⟩,
  ⟨.ff,2,3,0,1,2,17,0x242070db⟩, ⟨.ff,1,2,3,0,3,22,0xc1bdceee⟩,
  ⟨.ff,0,1,2,3,4,7,0xf57c0faf⟩, ⟨.ff,3,0,1,2,5,12,0x4787c62a⟩,
  ⟨.ff,2,3,0,1,6,17,0xa8304613⟩, ⟨.ff,1,2,3,0,7,22,0xfd469501⟩,
  ⟨.ff,0,1,2,3,8,7,0x698098d8⟩, ⟨.ff,3,0,1,2,9,12,0x8b44f7af⟩,
  ⟨.ff,2,3,0,1,10,17,0xffff5bb1⟩, ⟨.ff,1,2,3,0,11,22,0x895cd7be⟩,
  ⟨.ff,0,1,2,3,12,7,0x6b901122⟩, ⟨.ff,3,0,1,2,13,12,0xfd987193⟩,
  ⟨.ff,2,3,0,1,14,17,0xa679438e⟩, ⟨.ff,1,2,3,0,15,22,0x49b40821⟩,
  ⟨.gg,0,1,2,3,1,5,0xf61e2562⟩, ⟨.gg,3,0,1,2,6,9,0xc040b340⟩,
  ⟨.gg,2,3,0,1,11,14,0x265e5a51⟩, ⟨.gg,1,2,3,0,0,20,0xe9b6c7aa⟩,
  ⟨.gg,0,1,2,3,5,5,0xd62f105d⟩, ⟨.gg,3,0,1,2,10,9,0x2441453⟩,
  ⟨.gg,2,3,0,1,15,14,0xd8a1e681⟩, ⟨.gg,1,2,3,0,4,20,0xe7d3fbc8⟩,
  ⟨.gg,0,1,2,3,9,5,0x21e1cde6⟩, ⟨.gg,3,0,1,2,14,9,0xc33707d6⟩,
  ⟨.gg,2,3,0,1,3,14,0xf4d50d87⟩, ⟨.gg,1,2,3,0,8,20,0x455a14ed⟩,
  ⟨.gg,0,1,2,3,13,5,0xa9e3e905⟩, ⟨.gg,3,0,1,2,2,9,0xfcefa3f8⟩,
  ⟨.gg,2,3,0,1,7,14,0x676f02d9⟩, ⟨.gg,1,2,3,0,12,20,0x8d2a4c8a⟩,
  ⟨.hh,0,1,2,3,5,4,0xfffa3942⟩, ⟨.hh,3,0,1,2,8,11,0x8771f681⟩,
  ⟨.hh,2,3,0,1,11,16,0x6d9d6122⟩, ⟨.hh,1,2,3,0,14,23,0xfde5380c⟩,
  ⟨.hh,0,1,2,3,1,4,0xa4beea44⟩, ⟨.hh,3,0,1,2,4,11,0x4bdecfa9⟩,
  ⟨.hh,2,3,0,1,7,16,0xf6bb4b60⟩, ⟨.hh,1,2,3,0,10,23,0xbebfbc70⟩,
  ⟨.hh,0,1,2,3,13,4,0x289b7ec6⟩, ⟨.hh,3,0,1,2,0,11,0xeaa127fa⟩,
  ⟨.hh,2,3,0,1,3,16,0xd4ef3085⟩, ⟨.hh,1,2,3,0,6,23,0x4881d05⟩,
  ⟨.hh,0,1,2,3,9,4,0xd9d4d039⟩, ⟨.hh,3,0,1,2,12,11,0xe6db99e5⟩,
  ⟨.hh,2,3,0,1,15,16,0x1fa27cf8⟩, ⟨.hh,1,2,3,0,2,23,0xc4ac5665⟩,
  ⟨.ii,0,1,2,3,0,6,0xf4292244⟩, ⟨.ii,3,0,1,2,7,10,0x432aff97⟩,
  ⟨.ii,2,3,0,1,14,15,0xab9423a7⟩, ⟨.ii,1,2,3,0,5,21,0xfc93a039⟩,
  ⟨.ii,0,1,2,3,12,6,0x655b59c3⟩, ⟨.ii,3,0,1,2,3,10,0x8f0ccc92⟩,
  ⟨.ii,2,3,0,1,10,15,0xffeff47d⟩, ⟨.ii,1,2,3,0,1,21,0x85845dd1⟩,
  ⟨.ii,0,1,2,3,8,6,0x6fa87e4f⟩, ⟨.ii,3,0,1,2,15,10,0xfe2ce6e0⟩,
  ⟨.ii,2,3,0,1,6,15,0xa3014314⟩, ⟨.ii,1,2,3,0,13,21,0x4e0811a1⟩,
  ⟨.ii,0,1,2,3,4,6,0xf7537e82⟩, ⟨.ii,3,0,1,2,11,10,0xbd3af235⟩,
  ⟨.ii,2,3,0,1,2,15,0x2ad7d2bb⟩, ⟨.ii,1,2,3,0,9,21,0xeb86d391⟩]

/-- `DECODE`, one word. -/
def md5Word (block : List UInt8) (i : ℕ) : UInt32 :=
  let byte := fun j => (block.getD (4*i+j) 0).toUInt32
  byte 0 ||| (byte 1 <<< 8) ||| (byte 2 <<< 16) ||| (byte 3 <<< 24)

/-- `MD5_CALCULATE` -/
def md5Calculate (state : Vector UInt32 4) (block : List UInt8) : Vector UInt32 4 :=
  let r := md5Lines.foldl (Md5Line.run (md5Word block)) state
  state.zipWith (· + ·) r

/-! ### The stream -/

/-- `ENCODE`, one word. -/
def md5Bytes (w : ℕ) : List UInt8 :=
  [UInt8.ofNat w,UInt8.ofNat (w >>> 8),UInt8.ofNat (w >>> 16),UInt8.ofNat (w >>> 24)]

def md5InitState : Vector UInt32 4 := #v[0x67452301,0xefcdab89,0x98badcfe,0x10325476]

def md5Init : Md5Ctx := ⟨md5InitState,0,0,List.replicate MD5_BLOCK_N 0⟩

/-- `MEMCPY((context->buf + offset), data, n)` -/
def md5Copy (buf : List UInt8) (offset : ℕ) (data : List UInt8) : List UInt8 :=
  buf.take offset ++ data ++ buf.drop (offset+data.length)

/-- The loop of `md5_update` over whole blocks; `i` is a `u_int32_t`. -/
def md5Blocks (state : Vector UInt32 4) (data : List UInt8) (i : ℕ) : Option (Vector UInt32 4 × ℕ) :=
  if (i+MD5_BLOCK_N-1)%2^32 < data.length then
    if i+MD5_BLOCK_N ≤ data.length then
      md5Blocks (md5Calculate state ((data.drop i).take MD5_BLOCK_N)) data (i+MD5_BLOCK_N)
    else none
  else some (state,i)
termination_by data.length-i
decreasing_by simp only [MD5_BLOCK_N] at *; omega

/-- `md5_update` -/
def md5Update (ctx : Md5Ctx) (data : List UInt8) : Option Md5Ctx :=
  let offset := (ctx.total0 >>> 3) % MD5_BLOCK_N
  let bits := (data.length <<< 3) % 2^32
  let total0 := (ctx.total0+bits)%2^32
  let total1 := if total0 < bits then (ctx.total1+1)%2^32 else ctx.total1
  let total1 := (total1+data.length >>> 29)%2^32
  let npart := MD5_BLOCK_N-offset
  if npart ≤ data.length then
    let buf := md5Copy ctx.buf offset (data.take npart)
    (md5Blocks (md5Calculate ctx.state buf) data npart).map fun (state,i) =>
      ⟨state,total0,total1,md5Copy (List.replicate MD5_BLOCK_N 0) 0 (data.drop i)⟩
  else some ⟨ctx.state,total0,total1,md5Copy ctx.buf offset data⟩

/-- `PADDING` -/
def md5Padding : List UInt8 := 0x80::List.replicate 63 0

/-- `md5_final`, which leaves the digest. -/
def md5Final (ctx : Md5Ctx) : Option (List UInt8) := do
  let bits := md5Bytes ctx.total0 ++ md5Bytes ctx.total1
  let index := (ctx.total0 >>> 3) % MD5_BLOCK_N
  let npad := if index < MD5_SET_N then MD5_SET_N-index else MD5_SET_N+MD5_BLOCK_N-index
  let ctx ← md5Update ctx (md5Padding.take npad)
  let ctx ← md5Update ctx bits
  some (ctx.state.toList.flatMap fun w => md5Bytes w.toNat)

/-- `md5_file`, which reads the content in pieces. -/
def md5File (pieces : List (List UInt8)) : Option (List UInt8) := do
  let ctx ← pieces.foldlM md5Update md5Init
  md5Final ctx

end Sbase
