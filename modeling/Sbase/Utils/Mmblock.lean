import Mathlib.Data.UInt
import Sbase.Lib.Memory

/-! `utils/mmblock.c`: the growing byte buffer behind `conn->buffer`, `conn->packet`,
`conn->cache`, `conn->oob` and `conn->exchange`.

The arithmetic on sizes is that of the source over unbounded integers: a size beyond `INT_MAX`
is reached only by a request that `xmm_resize` cannot serve. -/
namespace Sbase
open Memory

/-- Bytes of memory. -/
abbrev Mem := Block UInt8

def MMBLOCK_BASE : ℤ := 32768
def MMBLOCK_MIN : ℤ := 1024
def MMBLOCK_MAX : ℤ := 262144

/-- `MMBLOCK`. The pointer `data` is `none` when it is NULL, and `end` is kept as its offset
from `data`. -/
structure MMBlock where
  data : Option Mem
  ndata : ℤ
  size : ℤ
  left : ℤ
  «end» : Option ℕ

/-- `mmblock_init`: a zeroed block. -/
def mmblockInit : MMBlock := ⟨none,0,0,0,none⟩

/-- `xmm_resize`: fresh zero pages with the old contents copied in front. The flag says whether
`calloc` or `mmap` succeeds. -/
def xmmResize (alloc : Bool) (old : Option Mem) (oldSize newSize : ℤ) : Option Mem :=
  if 0 < newSize ∧ oldSize < newSize ∧ alloc then
    match old with
    | some d => some (write (fun _ => 0) 0 (read d 0 oldSize.toNat))
    | none => some (fun _ => 0)
  else none

/-- The size to which `mmblock_incre` rounds a request. -/
def mmblockRound (size : ℤ) : ℤ :=
  (size / MMBLOCK_BASE + if size % MMBLOCK_BASE ≠ 0 then 1 else 0) * MMBLOCK_BASE

/-- `mmblock_incre` -/
def mmblockIncre (alloc : Bool) (m : MMBlock) (increSize : ℤ) : MMBlock × ℤ :=
  if 0 < increSize then
    let size := mmblockRound (m.size + increSize)
    match xmmResize alloc m.data m.size size with
    | some d => (⟨some d, m.ndata, size, size - m.ndata - 1, some m.ndata.toNat⟩, 0)
    | none => (⟨none,0,0,0,none⟩, -1)
  else (m,-1)

/-- What the kernel has for a `recv`: some bytes, of which it hands over as many as fit, or an
end of stream or an error, for which the call returns `-n`. -/
inductive Recv
  | bytes (bs : List UInt8)
  | fail (n : ℕ)
  deriving DecidableEq, Repr

/-- The bytes and the return value of a `recv` into `want` bytes of space. -/
def Recv.take (r : Recv) (want : ℕ) : List UInt8 × ℤ :=
  match r with
  | .bytes bs => (bs.take want, (bs.take want).length)
  | .fail n => ([],-n)

/-- The block into which `mmblock_read` receives: grown when little space is left. -/
def readBlock (alloc : Bool) (m : MMBlock) : MMBlock :=
  if m.left < MMBLOCK_MIN then (mmblockIncre alloc m MMBLOCK_BASE).1 else m

/-- The receiving half of `mmblock_read`. -/
def recvInto (m : MMBlock) (r : Recv) : MMBlock × ℤ :=
  match m.data, m.end with
  | some d, some e =>
    if 0 < m.left then
      let got := r.take m.left.toNat
      if 0 < got.2 then
        ({ m with data := some (write d e (got.1 ++ [0])), ndata := m.ndata + got.2,
                  «end» := some (e + got.2.toNat), left := m.left - got.2 }, got.2)
      else (m,got.2)
    else (m,-1)
  | _, _ => (m,-1)

/-- `mmblock_read`, and `mmblock_recv` and `mmblock_read_SSL`, which differ from it in the
receiving call alone. -/
def mmblockRead (alloc : Bool) (m : MMBlock) (r : Recv) : MMBlock × ℤ :=
  recvInto (readBlock alloc m) r

def mmblockRecv (alloc : Bool) (m : MMBlock) (r : Recv) : MMBlock × ℤ := mmblockRead alloc m r

/-- The block into which `mmblock_push` copies `n` bytes: grown when they do not fit. -/
def pushBlock (alloc : Bool) (m : MMBlock) (n : ℤ) : MMBlock :=
  if m.left < n then (mmblockIncre alloc m (n+1)).1 else m

/-- The copying half of `mmblock_push`: the space left must exceed the data. -/
def pushInto (m : MMBlock) (bs : List UInt8) : MMBlock × ℤ :=
  match m.data, m.end with
  | some d, some e =>
    if bs.length < m.left then
      ({ m with data := some (write d e (bs ++ [0])), ndata := m.ndata + bs.length,
                «end» := some (e + bs.length), left := m.left - bs.length }, bs.length)
    else (m,-1)
  | _, _ => (m,-1)

/-- `mmblock_push` -/
def mmblockPush (alloc : Bool) (m : MMBlock) (bs : List UInt8) : MMBlock × ℤ :=
  if 0 < bs.length then pushInto (pushBlock alloc m bs.length) bs else (m,-1)

/-- `mmblock_del`. Deleting everything leaves the old bytes in place, without a terminator. -/
def mmblockDel (m : MMBlock) (n : ℤ) : MMBlock × ℤ :=
  if 0 < n then
    if m.ndata ≤ n then
      ({ m with «end» := m.data.map fun _ => 0, left := m.size - 1, ndata := 0 }, 0)
    else
      match m.data, m.end with
      | some d, some e =>
        let k := e - n.toNat
        ({ m with data := some (write (copyDown d 0 n.toNat k) k [0]), «end» := some k,
                  left := m.left + n, ndata := m.ndata - n }, 0)
      | _, _ => (m,0)
  else (m,-1)

/-- `mmblock_reset` -/
def mmblockReset (m : MMBlock) : MMBlock :=
  if MMBLOCK_MAX < m.size then ⟨none,0,0,0,none⟩
  else { m with «end» := m.data.map fun _ => 0, left := m.size - 1, ndata := 0 }

/-- The first `ndata` bytes at `data`. -/
def MMBlock.bytes (m : MMBlock) : List UInt8 :=
  match m.data with
  | some d => read d 0 m.ndata.toNat
  | none => []

end Sbase
