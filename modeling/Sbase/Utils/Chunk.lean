import Sbase.Lib.Memory
import Sbase.Utils.Mmblock

/-! `utils/chunk.c`: a piece of input or output of known length, in memory or in a file.

Offsets and lengths are natural numbers; `end` is kept as its offset from `data`, and a file
descriptor as the fact that it is open. The contents of files are given by `fs`, and `mmap`
succeeds. -/
namespace Sbase
open Memory

def CHUNK_MEM : ℕ := 0x02
def CHUNK_FILE : ℕ := 0x04
def CHUNK_BLOCK_MAX : ℕ := 524288
def CHUNK_BLOCK_SIZE : ℕ := 4096
def MMAP_PAGE_SIZE : ℕ := 4096
def MMAP_CHUNK_SIZE : ℕ := 1048576
def CHUNK_STATUS_ON : ℕ := 0x01
def CHUNK_STATUS_OVER : ℕ := 0x02

/-- The contents of the files, by name. -/
abbrev FileSystem := String → Mem

/-- `CHUNK`; `mmap` is the mapped window of the file. -/
structure Chunk where
  data : Option Mem
  ndata : ℕ
  status : ℕ
  bsize : ℕ
  type : ℕ
  fd : Bool
  size : ℕ
  offset : ℕ
  left : ℕ
  mmleft : ℕ
  mmoff : ℕ
  mmap : Option Mem
  «end» : Option ℕ
  filename : String

/-- A `CHUNK` of zeroed memory. -/
def chunkInit : Chunk := ⟨none,0,0,0,0,false,0,0,0,0,0,none,none,""⟩

/-- `CHUNK_STATUS` -/
def chunkStatus (c : Chunk) : ℕ := if c.left = 0 then CHUNK_STATUS_OVER else CHUNK_STATUS_ON

/-- The room that `chunk_mem` makes: fresh pages when the old ones are too small. Their contents are
not cleared, so `junk` stands for what they hold. -/
def chunkRoom (alloc : Bool) (junk : Mem) (c : Chunk) (need : ℕ) : Chunk :=
  if c.bsize < need then
    let n := need / CHUNK_BLOCK_SIZE + if need % CHUNK_BLOCK_SIZE ≠ 0 then 1 else 0
    if alloc then { c with data := some junk, bsize := n * CHUNK_BLOCK_SIZE }
    else { c with data := none, bsize := 0 }
  else c

/-- `chunk_mem`: room for `len` bytes and a terminator. Its sizes are natural numbers; up to those that an
`int` can hold, `chunkMemInt` computes the same. -/
def chunkMem (alloc : Bool) (junk : Mem) (c : Chunk) (len : ℕ) : Chunk :=
  if 0 < len then
    let c := chunkRoom alloc junk c (len+1)
    match c.data with
    | some d => { c with type := CHUNK_MEM, status := CHUNK_STATUS_ON, size := len, left := len,
                         «end» := some 0, data := some (Function.update d len 0), ndata := 0 }
    | none => c
  else c

/-- `chunk_file`, for a name that has room in `filename`, to which it is copied without a bound. -/
def chunkFile (c : Chunk) (file : String) (offset len : ℕ) : Chunk :=
  if 0 < len then
    { c with type := CHUNK_FILE, status := CHUNK_STATUS_ON, size := len, left := len,
             offset := offset, ndata := 0, filename := file }
  else c

/-- The common body of `chunk_read` and `chunk_read_SSL`, which return `refused` when there is
nothing to receive into. -/
def chunkReadWith (refused : ℤ) (c : Chunk) (r : Recv) : Chunk × ℤ :=
  match c.data, c.end with
  | some d, some e =>
    if 0 < c.left then
      let got := r.take c.left
      if 0 < got.2 then
        let left := c.left - got.1.length
        ({ c with data := some (write d e got.1), left := left, «end» := some (e + got.1.length),
                  ndata := c.ndata + got.1.length,
                  status := if left = 0 then CHUNK_STATUS_OVER else c.status }, got.2)
      else (c,got.2)
    else (c,refused)
  | _, _ => (c,refused)

def chunkRead (c : Chunk) (r : Recv) : Chunk × ℤ := chunkReadWith (-2) c r

def chunkReadSSL (c : Chunk) (r : Recv) : Chunk × ℤ := chunkReadWith 1 c r

/-- `chunk_mem_fill` -/
def chunkMemFill (c : Chunk) (bs : List UInt8) : Chunk × ℤ :=
  match c.data, c.end with
  | some d, some e =>
    if 0 < bs.length ∧ 0 < c.left then
      let n := min c.left bs.length
      let left := c.left - n
      ({ c with data := some (write d e (bs.take n)), «end» := some (e + n), left := left,
                ndata := c.ndata + n,
                status := if left = 0 then CHUNK_STATUS_OVER else c.status }, n)
    else (c,0)
  | _, _ => (c,0)

/-- `chunk_mem_copy`, which leaves `end` where it is. -/
def chunkMemCopy (c : Chunk) (bs : List UInt8) : Chunk :=
  match c.data, c.end with
  | some d, some e =>
    if 0 < bs.length ∧ 0 < c.left then { c with data := some (write d e (bs.take c.size)) } else c
  | _, _ => c

/-- `chunk_file_check`: opens the file for reading. -/
def chunkFileCheck (openOk : Bool) (c : Chunk) : Chunk :=
  if c.fd then c else { c with fd := openOk }

/-- What a socket makes of a send: it takes `k+1` bytes, or all that it is offered, or it fails.
After a failure, or where no send was made, `again` says whether `errno` is `EINTR` or `EAGAIN`. -/
structure Send where
  accept : Option ℕ
  again : Bool
  deriving DecidableEq, Repr

/-- The bytes that the socket takes. -/
def Send.take (s : Send) (offered : List UInt8) : List UInt8 :=
  match s.accept with
  | some k => offered.take (k+1)
  | none => []

/-- The bytes taken by a sending function, and its return value. -/
structure Sent where
  chunk : Chunk
  ret : ℤ
  bytes : List UInt8

/-- `chunk_write`, `chunk_write_SSL` and `chunk_sendto`, which offer the `left` bytes at `end`. -/
def chunkWrite (c : Chunk) (s : Send) : Sent :=
  match c.data, c.end with
  | some d, some e =>
    if 0 < c.left then
      let bs := s.take (read d e c.left)
      if 0 < bs.length then
        ⟨{ c with left := c.left - bs.length, «end» := some (e + bs.length) },bs.length,bs⟩
      else ⟨c,-1,[]⟩
    else ⟨c,-1,[]⟩
  | _, _ => ⟨c,-1,[]⟩

def chunkSendto (c : Chunk) (s : Send) : Sent := chunkWrite c s

/-- `chunk_mmap`: the next window of the file, mapped at a page boundary. -/
def chunkMmap (fs : FileSystem) (c : Chunk) : Chunk :=
  if 0 < c.left ∧ c.fd ∧ c.mmleft = 0 then
    let offset := c.offset / MMAP_PAGE_SIZE * MMAP_PAGE_SIZE
    let mmoff := c.offset - offset
    { c with mmap := some fun i => fs c.filename (offset + i), mmoff := mmoff,
             mmleft := min c.left (MMAP_CHUNK_SIZE - mmoff) }
  else c

/-- The write from the mapped window, which is unmapped when it has been sent; the file is closed
with the last byte. -/
def windowWrite (c : Chunk) (s : Send) : Sent :=
  match c.mmap with
  | some w =>
    let bs := s.take (read w c.mmoff c.mmleft)
    if 0 < bs.length then
      let mmleft := c.mmleft - bs.length
      let left := c.left - bs.length
      ⟨{ c with mmoff := c.mmoff + bs.length, mmleft := mmleft,
                mmap := if mmleft = 0 then none else c.mmap,
                offset := c.offset + bs.length, left := left,
                status := if left = 0 then CHUNK_STATUS_OVER else c.status,
                fd := if left = 0 then false else c.fd },bs.length,bs⟩
    else ⟨c,-1,[]⟩
  | none => ⟨c,-1,[]⟩

/-- `chunk_write_from_file` and `chunk_write_from_file_SSL` -/
def chunkWriteFromFile (fs : FileSystem) (openOk : Bool) (c : Chunk) (s : Send) : Sent :=
  if 0 < c.left then
    let c := chunkFileCheck openOk c
    if c.fd then windowWrite (chunkMmap fs c) s else ⟨c,-1,[]⟩
  else ⟨c,-1,[]⟩

/-- `chunk_read_to_file` and `chunk_read_to_file_SSL`: the bytes are received before `pwrite` is
tried on the descriptor, which `chunk_file_check` opened for reading only. -/
def chunkReadToFile (openOk : Bool) (c : Chunk) (r : Recv) : Chunk × List UInt8 × ℤ :=
  match c.data with
  | some d =>
    if 0 < c.left then
      let want := min c.left c.bsize
      let c := chunkFileCheck openOk c
      if c.fd then
        let got := r.take want
        if 0 < got.2 then ({ c with data := some (write d 0 got.1) },got.1,-1) else (c,[],-1)
      else (c,[],-1)
    else (c,[],-1)
  | none => (c,[],-1)

/-- `chunk_file_fill`: `write` fails on a descriptor opened for reading only. -/
def chunkFileFill (openOk : Bool) (c : Chunk) (bs : List UInt8) : Chunk × ℤ :=
  if 0 < bs.length ∧ 0 < c.left then (chunkFileCheck openOk c,-1) else (c,-1)

/-- `chunk_reset`: a block beyond `CHUNK_BLOCK_MAX` is freed, a smaller one is kept. -/
def chunkReset (c : Chunk) : Chunk :=
  let c := { c with mmap := none, fd := false, status := 0, type := 0, ndata := 0, offset := 0,
                    left := 0, mmoff := 0, mmleft := 0 }
  let c := if CHUNK_BLOCK_MAX < c.bsize then { c with data := none, bsize := 0 } else c
  { c with «end» := c.data.map fun _ => 0 }

end Sbase
