import Mathlib.Tactic
import Sbase.Http.Chunked

/-! The task table of lqftp: the file of a task is cut into blocks, which the sessions fetch, report on and
let time out. -/
namespace Sbase

/-- The `BLOCK_STATUS_*` values. -/
inductive BlockStatus
  | ready
  | working
  | error
  | over
  | timeout
  deriving DecidableEq, Repr

/-- The `TASK_STATUS_*` values. -/
inductive TaskStatus
  | wait
  | over
  | timeout
  | discard
  deriving DecidableEq, Repr

/-- The `CMD_*` values. -/
inductive BlockCmd
  | truncate
  | put
  | del
  | md5sum
  deriving DecidableEq, Repr

structure LqTask where
  id : ℤ
  timeout : ℤ
  status : TaskStatus
  times : ℤ
  bytes : ℤ
  deriving DecidableEq, Repr

structure TBlock where
  id : ℕ
  cmdid : BlockCmd
  status : BlockStatus
  sid : ℤ
  arg : Option ℕ
  times : ℤ
  offset : ℕ
  size : ℕ
  deriving DecidableEq, Repr

/-- The table; `tasks` is the content of `taskfile`, and `nblock` the length of `status`. `putId` is the `id`
that the compiled `status[i].id = i++` leaves in the PUT block at a place: C orders neither the increment nor
the search for the entry, which may be found behind it. -/
structure TaskTable where
  blockSize : ℕ
  tasks : List LqTask
  runningTask : LqTask
  runningTaskId : ℤ
  status : Option (List TBlock)
  times : ℤ
  bytes : ℤ
  putId : ℕ → ℕ
  block_pos : 0 < blockSize

/-- `sizeof(TBLOCK)` -/
def sizeofTBlock : ℤ := 48

/-- The largest block that an allocator hands out. -/
def PTRDIFF_MAX : ℤ := 2^63-1

/-- A block of the zeroed table. -/
def zeroBlock : TBlock := ⟨0,.truncate,.ready,0,none,0,0,0⟩

namespace TaskTable

def ntask (t : TaskTable) : ℤ := t.tasks.length

/-- `tasktable_dump_task` -/
def dumpTask (t : TaskTable) : TaskTable :=
  if 0 ≤ t.runningTask.id ∧ t.runningTask.id < t.ntask then
    { t with tasks := t.tasks.set t.runningTask.id.toNat t.runningTask }
  else t

/-- `tasktable_free_status` -/
def freeStatus (t : TaskTable) : TaskTable := { t with status := none }

end TaskTable

/-- `nblock`, which is an `int`. -/
def nblockOf (size blockSize : ℕ) : ℤ :=
  let nblock := int32 (size / blockSize : ℕ)
  let nblock := if size % blockSize ≠ 0 then int32 (nblock+1) else nblock
  let nblock := int32 (nblock+1)
  int32 (nblock+1)

/-- `realloc(status, sizeof(TBLOCK) * nblock)` and the `memset` behind it. -/
def reallocStatus (nblock : ℤ) : Option (List TBlock) :=
  let bytes := (sizeofTBlock*nblock) % 2^64
  if bytes ≤ PTRDIFF_MAX then some (List.replicate (bytes/sizeofTBlock).toNat zeroBlock) else none

/-- Fill the `i`-th entry; there is none behind the allocated ones. -/
def writeBlock (blocks : List TBlock) (i id : ℕ) (cmdid : BlockCmd) (offset size : ℕ) :
    Option (List TBlock) :=
  if h : i < blocks.length then
    some (blocks.set i { blocks[i] with id := id,cmdid := cmdid,offset := offset,size := size })
  else none

/-- The loop over the file; `i` is advanced once the entry is filled. -/
def putBlocks (putId : ℕ → ℕ) (blockSize : ℕ) (hpos : 0 < blockSize) (blocks : List TBlock) (i offset size : ℕ) :
    Option (List TBlock × ℕ) :=
  if 0 < size then do
    let n := if size < blockSize then size else blockSize
    let blocks ← writeBlock blocks i (putId i) .put offset n
    putBlocks putId blockSize hpos blocks (i+1) (offset+n) (size-n)
  else some (blocks,i)
termination_by size
decreasing_by
  split
  · omega
  · omega

/-- `none` where an entry behind the table is written; `stat` is the size of the file. -/
def tasktableReady (t : TaskTable) (stat : Option ℕ) : Option (TaskTable × ℤ) :=
  match stat with
  | some size =>
    if 0 ≤ t.runningTask.id ∧ t.runningTask.id < t.ntask then
      match reallocStatus (nblockOf size t.blockSize) with
      | none => some ({ t with status := none },-1)
      | some blocks => do
        let blocks ← writeBlock blocks 0 0 .truncate 0 size
        let (blocks,i) ← putBlocks t.putId t.blockSize t.block_pos blocks 1 0 size
        let blocks ← writeBlock blocks i i .md5sum 0 size
        some ({ t with status := some blocks },0)
    else some (t,-1)
  | none => some (t,-1)

/-- A block that `tasktable_check_timeout` gives up. -/
def TBlock.expired (timeout now : ℤ) (b : TBlock) : Bool :=
  decide (b.status = .working ∧ now-b.times ≥ timeout)

/-- The table and the number of blocks that timed out. -/
def tasktableCheckTimeout (t : TaskTable) (timeout now : ℤ) : TaskTable × ℕ :=
  match t.status with
  | none => (t,0)
  | some blocks =>
    let n : ℕ := blocks.countP (TBlock.expired timeout now)
    let u : TaskTable := { t with status := some (blocks.map fun b =>
      if b.expired timeout now then { b with status := .timeout } else b) }
    if n > 0 ∧ u.runningTask.id ≥ 0 then
      (TaskTable.dumpTask { u with
        runningTask := { u.runningTask with timeout := u.runningTask.timeout+n } },n)
    else (u,n)

/-- Read tasks up to the first one that is not over. -/
def nextTask : List LqTask → LqTask → LqTask × Bool
  | [],r => (r,false)
  | x::xs,_ => if x.status ≠ .over then (x,true) else nextTask xs x

def tasktableCheckStatus (t : TaskTable) : TaskTable × ℤ :=
  match t.status with
  | some _ => (t,0)
  | none =>
    if t.runningTaskId < t.ntask then
      let (task,found) := nextTask (t.tasks.drop (t.runningTaskId+1).toNat) t.runningTask
      if found then ({ t with runningTask := task,runningTaskId := task.id },0)
      else ({ t with runningTask := task },-1)
    else (t,-1)

/-- The scan of `tasktable_pop_block` from the `i`-th block on: the block to hand out, and `nover`. -/
def scanBlocks : List TBlock → ℕ → ℕ → ℕ → Option ℕ × ℕ
  | [],_,_,nover => (none,nover)
  | b::bs,i,n,nover =>
    if b.status ≠ .over then
      if b.cmdid = .truncate then
        if b.status = .working then (none,nover) else (some i,nover)
      else if b.status = .working ∧ b.arg ≠ none then scanBlocks bs (i+1) (n+1) nover
      else if b.cmdid = .md5sum then (if n = 0 then some i else none,nover)
      else (some i,nover)
    else scanBlocks bs (i+1) n (nover+1)

/-- `tasktable_pop_block` where the table is there. -/
def popReady (t : TaskTable) (sid : ℤ) (arg : Option ℕ) (now : ℤ) : TaskTable × Option ℕ :=
  let blocks := t.status.getD []
  let (block,nover) := scanBlocks blocks 0 0 0
  let t := if nover > 0 ∧ nover = blocks.length ∧ t.runningTask.status ≠ .over then
      (TaskTable.dumpTask { t with runningTask := { t.runningTask with status := .over } }).freeStatus
    else t
  match block with
  | none => (t,none)
  | some i =>
    ({ t with status := t.status.map fun blocks => blocks.modify i fun b =>
      { b with status := .working,times := now,sid := sid,arg := arg } },some i)

/-- `none` where `tasktable_ready` writes behind the table. -/
def tasktablePopBlock (t : TaskTable) (stat : Option ℕ) (sid : ℤ) (arg : Option ℕ) (now : ℤ) :
    Option (TaskTable × Option ℕ) :=
  if t.ntask > 0 then
    let (t,ret) := tasktableCheckStatus t
    if ret ≠ 0 then some (t,none)
    else if t.status = none then do
      let (t,ret) ← tasktableReady t stat
      if ret ≠ 0 then some (t,none) else some (popReady t sid arg now)
    else some (popReady t sid arg now)
  else some (t,none)

/-- The block that a report is about, where the report is not passed over. -/
def acceptedBlock (t : TaskTable) (blockid sid : ℤ) : Option TBlock :=
  if blockid < 0 then none
  else ((t.status.getD [])[blockid.toNat]?).filter fun b => decide (b.status ≠ .over ∧ b.sid = sid)

def tasktableUpdateStatus (t : TaskTable) (blockid : ℤ) (status : BlockStatus) (sid now : ℤ) :
    TaskTable :=
  match acceptedBlock t blockid sid with
  | none => t
  | some b =>
    let times := now-b.times
    let t := if status = .over ∧ times > 0 then
        TaskTable.dumpTask { t with runningTask := { t.runningTask with
          times := t.runningTask.times+times,bytes := t.runningTask.bytes+b.size } }
      else t
    let t := { t with status := t.status.map fun blocks => blocks.modify blockid.toNat fun b =>
      { b with status := status,sid := -1,arg := none } }
    if b.cmdid = .md5sum then
      if status = .over then
        let t := { t with times := t.times+t.runningTask.times,bytes := t.bytes+t.runningTask.bytes }
        (TaskTable.dumpTask { t with runningTask := { t.runningTask with status := .over } }).freeStatus
      else t.freeStatus
    else t

end Sbase
