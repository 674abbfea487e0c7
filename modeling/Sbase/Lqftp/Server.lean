import Sbase.Http.RequestParse
import Sbase.Lib.Lines
import Sbase.Lib.Scanf
import Sbase.Lqftp.Md5
import Sbase.Lqftp.Task
import Sbase.Lqftp.UrlCode

/-! The server of lqftp, `lqftpd.c`: how `cb_packet_handler` reads a request and what it does to the files.

A pointer is what lies from it on, the memory behind the packet included; reading behind that memory, filling
a third entry of `plist` and writing behind `fullpath` have no result. A path is that of a regular file or of
nothing. The calls of the system may fail. Sums of sizes are no larger than a `long long`. -/
namespace Sbase
open Scanf

def CMD_MAX_LEN : ℕ := 8
def PATH_MAX_SIZE : ℕ := 4096
def PNUM_MAX : ℕ := 2
def MD5SUM_SIZE : ℕ := 32

/-- The `RESP_*` texts. -/
inductive LqResp
  | ok
  | notImplement
  | badReq
  | serverError
  | fileNotExists
  | invalidMd5
  deriving DecidableEq

def LqResp.text : LqResp → List UInt8
  | ok => ascii "200 OK\r\n\r\n"
  | notImplement => ascii "201 not implement\r\n\r\n"
  | badReq => ascii "203 bad requestment\r\n\r\n"
  | serverError => ascii "205 service error\r\n\r\n"
  | fileNotExists => ascii "207 file not exists\r\n\r\n"
  | invalidMd5 => ascii "209 invalid md5\r\n\r\n"

/-- What the handler does with the connection. -/
inductive LqReaction
  | respond (resp : LqResp)
  | recvFile (path : List UInt8) (offset size : ℤ)
  deriving DecidableEq

/-! ### Files -/

/-- The regular files, by their paths. -/
abbrev Disk := List UInt8 → Option (List UInt8)

/-- The calls that do not fail. -/
structure DiskCalls where
  pmkdir : Bool
  creat : Bool
  stat : Bool
  truncate : Bool
  unlink : Bool
  read : Bool

/-- A file that is cut, or filled with zeros. -/
def resize (n : ℕ) (content : List UInt8) : List UInt8 :=
  content.take n ++ List.replicate (n-content.length) 0

/-- The call `truncate`, and whether it returns 0. -/
def truncateCall (calls : DiskCalls) (disk : Disk) (file : List UInt8) (size : ℤ) : Disk × Bool :=
  match disk file with
  | some content =>
    if calls.truncate ∧ 0 ≤ size then (Function.update disk file (some (resize size.toNat content)),true)
    else (disk,false)
  | none => (disk,false)

/-- `open` with `O_CREAT` of a file that is not there. -/
def createCall (calls : DiskCalls) (disk : Disk) (file : List UInt8) : Disk :=
  if calls.creat then Function.update disk file (some []) else disk

/-- `mod_file_size`, and whether it returns 0. -/
def modFileSize (calls : DiskCalls) (disk : Disk) (file : List UInt8) (size : ℤ) : Disk × Bool :=
  match disk file with
  | none => truncateCall calls (createCall calls disk file) file size
  | some content =>
    if calls.stat then if size ≤ content.length then (disk,true) else truncateCall calls disk file size
    else (disk,false)

/-- `truncate_file`, and whether it returns 0. -/
def truncateFile (calls : DiskCalls) (disk : Disk) (file : List UInt8) (size : ℤ) : Disk × Bool :=
  match disk file with
  | none => truncateCall calls (createCall calls disk file) file size
  | some _ => truncateCall calls disk file size

/-- What the reads of `md5_file` return. -/
def fileReads (content : List UInt8) : List (List UInt8) :=
  if content = [] then [] else Lines.parts MD5_BUF_SIZE content

/-- A digit of the conversion `02x`. -/
def lowerHex (d : UInt8) : UInt8 := if d < 10 then 48+d else 87+d

/-- The text of a digest. -/
def md5Hex (digest : List UInt8) : List UInt8 := digest.flatMap fun b : UInt8 => [lowerHex (b >>> 4),lowerHex (b &&& 15)]

/-! ### Requests -/

/-- Loop while a byte is one of some, and in front of the end of the packet, behind which `k` bytes lie. -/
def advance (k : ℕ) (f : UInt8 → Bool) : List UInt8 → List UInt8
  | [] => []
  | c::p => if k < (c::p).length ∧ f c then advance k f p else c::p

/-- `atoll` -/
def strtoll (p : List UInt8) : ℤ := max (-2^63) (min (2^63-1) ((scanInt none p).elim 0 Prod.fst))

structure KItem where
  key : List UInt8
  data : List UInt8

/-- `cmdlist` -/
def lqCmdlist : List (List UInt8 × BlockCmd) :=
  [(ascii "TRUNCATE",.truncate),(ascii "PUT",.put),(ascii "DEL",.del),(ascii "MD5SUM",.md5sum)]

/-- `GET_CMDID` -/
def getCmdid (p : List UInt8) : List (List UInt8 × BlockCmd) → Option (Option BlockCmd)
  | [] => some none
  | (name,cmd)::cmds => do
    if ← strncasecmp p name then some (some cmd) else getCmdid p cmds

/-- `GET_PROPERTY`, with room for some entries. -/
def getProperty (k : ℕ) : ℕ → List UInt8 → Option (List KItem)
  | 0,p => if k < p.length then none else some []
  | room+1,p =>
    if k < p.length then do
      let key := advance k (· = 32) p
      let data := (advance k (· = 32) (advance k (· ≠ 58) key)).drop 1
      let p := (advance k (· ≠ 10) data).drop 1
      let c ← p.head?
      if c = 13 ∨ c = 10 then some [⟨key,data⟩]
      else do
        let rest ← getProperty k room p
        some (⟨key,data⟩::rest)
    else some []

variable (calls : DiskCalls) (disk : Disk) (fullpath : List UInt8) (plist : List KItem)

/-- The properties of `put`: an offset, if there is one, and a size. -/
def putProperties : Option (Option ℤ × ℤ) :=
  plist.foldlM (fun st it => do
    if ← strncasecmp it.key (ascii "offset") then some (some (strtoll it.data),st.2)
    else if ← strncasecmp it.key (ascii "size") then some (st.1,strtoll it.data)
    else some st) (none,0)

def truncateProperties : Option ℤ :=
  plist.foldlM (fun size it => do
    if ← strncasecmp it.key (ascii "size") then some (strtoll it.data) else some size) 0

/-- The properties of `md5sum`: 32 bytes, if they are there. -/
def md5sumProperties : Option (Option (List UInt8)) :=
  plist.foldlM (fun md5 it => do
    if ← strncasecmp it.key (ascii "md5") then
      if MD5SUM_SIZE ≤ it.data.length then some (some (it.data.take MD5SUM_SIZE)) else none
    else some md5) none

def opTruncate : Option (Disk × LqReaction) :=
  if ¬ calls.pmkdir then some (disk,.respond .serverError)
  else if plist.isEmpty then some (disk,.respond .notImplement)
  else do
    let size ← truncateProperties plist
    if size = 0 then some (disk,.respond .badReq)
    else
      let (disk,done) := truncateFile calls disk fullpath size
      some (disk,.respond (if done then .ok else .serverError))

def opPut : Option (Disk × LqReaction) :=
  if plist.isEmpty then some (disk,.respond .notImplement)
  else do
    let (offset,size) ← putProperties plist
    match offset with
    | none => some (disk,.respond .badReq)
    | some offset =>
      if size = 0 then some (disk,.respond .badReq)
      else if ¬ calls.pmkdir then some (disk,.respond .serverError)
      else
        let (disk,done) := modFileSize calls disk fullpath (offset+size)
        some (disk,if done then .recvFile fullpath offset size else .respond .serverError)

def opDel : Disk × LqReaction :=
  match disk fullpath with
  | some _ =>
    if calls.unlink then (Function.update disk fullpath none,.respond .ok) else (disk,.respond .serverError)
  | none => (disk,.respond .fileNotExists)

/-- The comparison of the two sums, which `log_task` follows. -/
def opMd5sum : Option (Disk × LqReaction) :=
  if plist.isEmpty then some (disk,.respond .notImplement)
  else do
    let md5 ← md5sumProperties plist
    match md5 with
    | none => some (disk,.respond .badReq)
    | some pmd5sum =>
      match disk fullpath with
      | none => some (disk,.respond .fileNotExists)
      | some content =>
        if calls.read then do
          let digest ← md5File (fileReads content)
          if ← strncasecmp pmd5sum (md5Hex digest) then some (disk,.respond .ok)
          else some (disk,.respond .invalidMd5)
        else some (disk,.respond .serverError)

/-- `cb_packet_handler`, for a packet and the memory behind it. -/
def cbPacketHandler (root data behind : List UInt8) : Option (Disk × LqReaction) := do
  let k := behind.length
  let p := data ++ behind
  let cmdid ← if data.length > CMD_MAX_LEN then getCmdid p lqCmdlist else some none
  let p := advance k (fun c => c ≠ 13 ∧ c ≠ 10 ∧ c ≠ 32) p
  let p := advance k (· = 32) p
  let q := advance k (fun c => c ≠ 32 ∧ c ≠ 13 ∧ c ≠ 10) p
  let path := p.take (p.length-q.length)
  if path.length > PATH_MAX_SIZE then some (disk,.respond .badReq)
  else do
    let plist ← getProperty k PNUM_MAX ((advance k (· ≠ 10) q).drop 1)
    -- Behind a path of the largest size there is no zero.
    if path.length = PATH_MAX_SIZE ∧ 0 ∉ path then none
    else
      let path := path.takeWhile (· ≠ 0)
      if path = [] then some (disk,.respond .badReq)
      else
        let fullpath := root ++ urldecode path
        if PATH_MAX_SIZE ≤ fullpath.length then none
        else match cmdid with
          | none => some (disk,.respond .notImplement)
          | some .truncate => opTruncate calls disk fullpath plist
          | some .put => opPut calls disk fullpath plist
          | some .del => some (opDel calls disk fullpath)
          | some .md5sum => opMd5sum calls disk fullpath plist

/-! ### The client -/

/-- What `cb_serv_heartbeat_handler` pushes for a block: a command, and the part of the file behind it. -/
def TBlock.command (destfile md5 : List UInt8) (b : TBlock) : List UInt8 × Option (ℕ × ℕ) :=
  match b.cmdid with
  | .truncate => (ascii "truncate " ++ destfile ++ ascii "\r\nsize:" ++ printInt 1 b.size ++ ascii "\r\n\r\n",none)
  | .put => (ascii "put " ++ destfile ++ ascii "\r\noffset:" ++ printInt 1 b.offset ++ ascii "\r\nsize:" ++
      printInt 1 b.size ++ ascii "\r\n\r\n",some (b.offset,b.size))
  | .del => ([],none)
  | .md5sum => (ascii "md5sum " ++ destfile ++ ascii "\r\nmd5:" ++ md5 ++ ascii "\r\n\r\n",none)

/-- `resplist` -/
def resplist : List ℤ := [200,201,203,205,207,209]

/-- `GET_RESPID`, which leaves the number where it is not in the list. -/
def getRespid (p : List UInt8) : ℤ :=
  let respid := int32 (strtoll (p.dropWhile fun c => c = 32 ∨ c = 9))
  if respid ∈ resplist then resplist.idxOf respid else respid

/-- The status that `cb_transport_packet_handler` reports for an answer. -/
def cbTransportStatus (packet : List UInt8) : BlockStatus := if getRespid packet = 0 then .over else .error

end Sbase
