import Sbase.Lib.Memory
import Sbase.Lib.PagePool
import Sbase.Lib.Runs

/-! The block store of hido, `db.c`: records in runs of pages of data files, and free runs on links by
their number of pages, the links but the first written in the free pages themselves.

The calls of the system succeed. An `int` is the number of its bits, so that it is not negative when it is
below `2^31`. The files of links and records read as zero beyond what has been written. -/
namespace Sbase
open Memory PagePool Runs

def DB_PAGE_SIZE : ℕ := 512
def DB_MFILE_SIZE : ℕ := 1073741824
def DB_MFILE_MAX : ℕ := 2048
def DB_DBX_MAX : ℕ := 20000000
def DB_DBX_INCREMENT : ℕ := 100000

/-- The record of an id. -/
structure Dbx where
  blockSize : ℕ
  blockid : ℕ
  ndata : ℕ
  index : ℕ

/-- The first free run of some number of pages, and how many there are. -/
structure Xlnk where
  index : ℕ
  blockid : ℕ
  count : ℕ

/-- The `XIO` of a data file and what the file contains; the map is shared. -/
structure DataFile where
  map : Bool
  size : ℕ
  bytes : Block UInt8

/-- A `DB` with its files; `dbxEnd` is the number of records in the file of records. -/
structure Db (κ : Type*) where
  kmap : κ
  isMmap : Bool
  lastId : ℕ
  lastOff : ℕ
  links : ℕ → Xlnk
  dbx : ℕ → Dbx
  dbxEnd : ℕ
  dbsio : ℕ → DataFile

/-- The test of an `int` that it is not negative. -/
def nonneg (n : ℕ) : Bool := n < 2147483648

/-- The bytes of an `int`. -/
def intBytes (n : ℕ) : List UInt8 :=
  [UInt8.ofNat n,UInt8.ofNat (n/256),UInt8.ofNat (n/65536),UInt8.ofNat (n/16777216)]

/-- The `int` that some bytes are. -/
def intOfBytes : List UInt8 → ℕ
  | [] => 0
  | b::bs => b.toNat + 256*intOfBytes bs

def dbBlocksCount (size : ℕ) : ℕ := size/DB_PAGE_SIZE + if 0 < size%DB_PAGE_SIZE then 1 else 0

namespace Db
variable {κ : Type*}

/-- `memcpy` to the map of a data file, or `lseek` and `write`. -/
def writeFile (db : Db κ) (index off : ℕ) (data : List UInt8) : Db κ :=
  let file := db.dbsio index
  { db with dbsio := Function.update db.dbsio index { file with bytes := write file.bytes off data } }

/-- `memcpy` from the map of a data file, or `lseek` and `read`. -/
def readFile (db : Db κ) (index off n : ℕ) : List UInt8 := read (db.dbsio index).bytes off n

def setLink (db : Db κ) (x : ℕ) (lnk : Xlnk) : Db κ := { db with links := Function.update db.links x lnk }

def setDbx (db : Db κ) (id : ℕ) (d : Dbx) : Db κ := { db with dbx := Function.update db.dbx id d }

/-- The link in the first page of a free run. -/
def linkAt (db : Db κ) (b : ℕ × ℕ) : ℕ × ℕ :=
  (intOfBytes (db.readFile b.1 (b.2*DB_PAGE_SIZE) 4),intOfBytes (db.readFile b.1 (b.2*DB_PAGE_SIZE+4) 4))

/-- `db_push_block` -/
def pushBlock (db : Db κ) (index blockid blockSize : ℕ) : Db κ × ℤ :=
  let x := dbBlocksCount blockSize
  if nonneg blockid ∧ 0 < x ∧ index < DB_MFILE_MAX then
    let lnk := db.links x
    let db :=
      if 0 < lnk.count then
        if (db.dbsio index).map then
          db.writeFile index (blockid*DB_PAGE_SIZE) (intBytes lnk.index ++ intBytes lnk.blockid)
        else
          db.writeFile index (blockid*DB_PAGE_SIZE)
            (intBytes lnk.index ++ intBytes lnk.blockid ++ intBytes 0)
      else db
    (db.setLink x ⟨index,blockid,lnk.count+1⟩,0)
  else (db,-1)

/-- The new data file of `db_pop_block`. -/
def openFile (db : Db κ) (x : ℕ) : Db κ :=
  let file := db.dbsio x
  { db with dbsio := Function.update db.dbsio x
                       { file with size := DB_MFILE_SIZE, map := file.map || db.isMmap } }

/-- `db_pop_block` -/
def popBlock (db : Db κ) (x : ℕ) : Db κ × Option (ℕ × ℕ) :=
  if 0 < x then
    let lnk := db.links x
    if 0 < lnk.count ∧ lnk.index < DB_MFILE_MAX then
      let next := if 1 < lnk.count then db.linkAt (lnk.index,lnk.blockid) else (lnk.index,lnk.blockid)
      (db.setLink x ⟨next.1,next.2,lnk.count-1⟩,some (lnk.index,lnk.blockid))
    else
      let last := db.lastId
      let left := (db.dbsio last).size-db.lastOff
      if left < DB_PAGE_SIZE*x then
        let db := if 0 < left then (db.pushBlock last (db.lastOff/DB_PAGE_SIZE) left).1 else db
        let db := { db with lastOff := DB_PAGE_SIZE*x, lastId := last+1 }
        if last+1 < DB_MFILE_MAX then (db.openFile (last+1),some (last+1,0)) else (db,none)
      else
        ({ db with lastOff := db.lastOff+DB_PAGE_SIZE*x },some (last,db.lastOff/DB_PAGE_SIZE))
  else (db,none)

/-- `CHECK_DBXIO` -/
def checkDbxio (db : Db κ) (id : ℕ) : Db κ :=
  if db.dbxEnd ≤ id then { db with dbxEnd := (id/DB_DBX_INCREMENT+1)*DB_DBX_INCREMENT } else db

/-- Bytes written to the record at `off`, which then has `off` bytes and those. -/
def store (db : Db κ) (id off : ℕ) (data : List UInt8) : Db κ :=
  let d := db.dbx id
  (db.writeFile d.index (d.blockid*DB_PAGE_SIZE+off) data).setDbx id { d with ndata := off+data.length }

/-- `db__set__data` -/
def setData (db : Db κ) (id : ℕ) (data : List UInt8) : Db κ × ℤ :=
  let db := db.checkDbxio id
  let d := db.dbx id
  if d.blockSize < data.length then
    let db := if 0 < d.blockSize then (db.pushBlock d.index d.blockid d.blockSize).1 else db
    let db := db.setDbx id { d with blockSize := 0, blockid := 0, ndata := 0 }
    let count := dbBlocksCount data.length
    match db.popBlock count with
    | (db,some lnk) => ((db.setDbx id ⟨count*DB_PAGE_SIZE,lnk.2,0,lnk.1⟩).store id 0 data,id)
    | (db,none) => (db,-1)
  else (db.store id 0 data,id)

/-- `db__add__data` -/
def addData (db : Db κ) (id : ℕ) (data : List UInt8) : Db κ × ℤ :=
  let db := db.checkDbxio id
  let d := db.dbx id
  let size := d.ndata+data.length
  if d.blockSize < size then
    let count := dbBlocksCount size
    match db.popBlock count with
    | (db,some lnk) =>
      if 0 < d.ndata then
        let old := db.readFile d.index (d.blockid*DB_PAGE_SIZE) d.ndata
        let moved : Dbx := ⟨count*DB_PAGE_SIZE,lnk.2,size,lnk.1⟩
        if db.isMmap ∧ (db.dbsio d.index).map ∧ (db.dbsio lnk.1).map then
          let db := db.writeFile lnk.1 (lnk.2*DB_PAGE_SIZE) old
          let db := (db.pushBlock d.index d.blockid d.blockSize).1
          let db := db.writeFile lnk.1 (lnk.2*DB_PAGE_SIZE+d.ndata) data
          (db.setDbx id moved,id)
        else
          let db := (db.pushBlock d.index d.blockid d.blockSize).1
          let db := db.writeFile lnk.1 (lnk.2*DB_PAGE_SIZE) (old ++ data)
          (db.setDbx id moved,id)
      else ((db.setDbx id ⟨count*DB_PAGE_SIZE,lnk.2,d.ndata,lnk.1⟩).store id d.ndata data,id)
    | (db,none) => (db,-1)
  else (db.store id d.ndata data,id)

/-- The end of `db_del_data` once the id is in the file of records. -/
def delData (db : Db κ) (id : ℕ) : Db κ :=
  let db := db.checkDbxio id
  let d := db.dbx id
  (db.pushBlock d.index d.blockid d.blockSize).1.setDbx id { d with blockSize := 0, blockid := 0, ndata := 0 }

end Db

/-- `db_init` in an empty directory. -/
def dbInit {κ : Type*} (isMmap : Bool) (kmap : κ) : Db κ where
  kmap := kmap
  isMmap := isMmap
  lastId := 0
  lastOff := 0
  links _ := ⟨0,0,0⟩
  dbx _ := ⟨0,0,0,0⟩
  dbxEnd := DB_DBX_MAX
  dbsio i := if i = 0 then ⟨isMmap,DB_MFILE_SIZE,fun _ => 0⟩ else ⟨false,0,fun _ => 0⟩

section
variable {κ : Type*}

/-- `db_set_data` -/
def dbSetData (db : Db κ) (id : ℤ) (data : List UInt8) : Db κ × ℤ :=
  if 0 ≤ id ∧ data ≠ [] then db.setData id.toNat data else (db,-1)

/-- `db_add_data` -/
def dbAddData (db : Db κ) (id : ℤ) (data : List UInt8) : Db κ × ℤ :=
  if 0 ≤ id ∧ data ≠ [] then db.addData id.toNat data else (db,-1)

/-- `db_xset_data`, with `xadd` for `mmtrie_xadd`. -/
def dbXsetData (xadd : κ → List UInt8 → κ × ℤ) (db : Db κ) (key data : List UInt8) : Db κ × ℤ :=
  if key ≠ [] ∧ data ≠ [] then
    let (kmap,id) := xadd db.kmap key
    let db := { db with kmap := kmap }
    if 0 < id then db.setData id.toNat data else (db,-1)
  else (db,-1)

/-- `db_xadd_data`, with `xadd` for `mmtrie_xadd`. -/
def dbXaddData (xadd : κ → List UInt8 → κ × ℤ) (db : Db κ) (key data : List UInt8) : Db κ × ℤ :=
  if key ≠ [] ∧ data ≠ [] then
    let (kmap,id) := xadd db.kmap key
    let db := { db with kmap := kmap }
    if 0 < id then db.addData id.toNat data else (db,-1)
  else (db,-1)

/-- `db_del_data` -/
def dbDelData (db : Db κ) (id : ℤ) : Db κ × ℤ := if 0 ≤ id then (db.delData id.toNat,id) else (db,-1)

/-- `db_get_data`; no bytes where it returns `-1`. -/
def dbGetData (db : Db κ) (id : ℤ) : Db κ × Option (List UInt8) :=
  if 0 ≤ id then
    let db := db.checkDbxio id.toNat
    let d := db.dbx id.toNat
    (db,if 0 < d.ndata then some (db.readFile d.index (d.blockid*DB_PAGE_SIZE) d.ndata) else none)
  else (db,none)

/-- `db_read_data`; no bytes where it returns `-1`. -/
def dbReadData (db : Db κ) (id : ℤ) : Option (List UInt8) :=
  if 0 ≤ id ∧ id.toNat < db.dbxEnd then
    let d := db.dbx id.toNat
    if nonneg d.blockid ∧ 0 < d.ndata then some (db.readFile d.index (d.blockid*DB_PAGE_SIZE) d.ndata)
    else none
  else none

end

end Sbase
