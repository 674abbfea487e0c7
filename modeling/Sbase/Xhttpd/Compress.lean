import Sbase.Utils.Stime
import Sbase.Xhttpd.Encoders
import Sbase.Xhttpd.Namemap

/-! `xhttpd_compress_handler`: a file is answered compressed, out of the cache where it holds the file.

The file system is seen through the directory that the part of a name before its last slash leads to, so
that names which lead to one directory name the same files. A text that is longer than the array it is
printed to ends the run. -/
namespace Sbase

def HTTP_MMAP_MAX : ℕ := 157810688
def HTTP_BUF_SIZE : ℕ := 8192

/-- `httpd_compress` and `httpd_compress_cachedir` -/
structure CompressConf where
  compress : Bool
  cachedir : List Char

/-- The arguments of the handler: the interval from `lo` (`from`) to `hi` (`to`) of a file with its
current `content`. -/
structure FileRequest where
  host : List Char
  root : List Char
  mimeid : ℤ
  connection : Option (List UInt8)
  need : ℕ
  mtime : UInt64
  content : List UInt8
  lo : ℕ
  hi : ℕ
  lo_lt : lo < hi
  hi_le : hi ≤ content.length

/-- The entries of a directory. -/
inductive CacheNode
  | file (bytes : List UInt8)
  | link (target : List Char)

/-- What stands in the directories, under the names in them. -/
abbrev CacheFs (δ : Type) := δ × List Char → Option CacheNode

/-- What a request meets outside of the program: the directories that paths lead to before and after the
missing ones are made, the bytes that happen to stand in `zoldfile`, and the time. -/
structure CompressEnv (δ : Type) where
  before : List Char → Option δ
  after : List Char → Option δ
  stale : List Char
  now : ℤ

/-- The name in its directory: what stands behind the last slash of a path. -/
def baseName (path : List Char) : List Char := path.rtakeWhile (· ≠ '/')

/-- Where a path leads to. -/
def cacheEntry {δ : Type} (dirs : List Char → Option δ) (path : List Char) : Option (δ × List Char) :=
  (dirs (path.rdropWhile (· ≠ '/'))).map fun dir => (dir,baseName path)

namespace CacheFs

variable {δ : Type}

/-- The bytes behind a name, through a link. -/
def resolve (fs : CacheFs δ) (dirs : List Char → Option δ) (path : List Char) : Option (List UInt8) :=
  match (cacheEntry dirs path).bind fs with
  | some (.file bytes) => some bytes
  | some (.link target) =>
    match (cacheEntry dirs target).bind fs with
    | some (.file bytes) => some bytes
    | _ => none
  | none => none

variable [DecidableEq δ]

def unlink (fs : CacheFs δ) (dirs : List Char → Option δ) (path : List Char) : CacheFs δ :=
  match cacheEntry dirs path with
  | some p => Function.update fs p none
  | none => fs

/-- `open(zfile, O_CREAT|O_WRONLY)`, then `symlink(zfile, linkfile)` and `write`, which is left out where
the link is not made. Nothing is done without the directory. -/
def store (fs : CacheFs δ) (dirs : List Char → Option δ) (zfile linkfile : List Char)
    (zstream : List UInt8) : CacheFs δ :=
  match cacheEntry dirs zfile,cacheEntry dirs linkfile with
  | some p,some link =>
    let old := (fs.resolve dirs zfile).getD []
    let fs : CacheFs δ := Function.update fs p (some (.file old))
    if (fs link).isSome then fs
    else
      Function.update (Function.update fs link (some (.link zfile))) p
        (some (.file (zstream ++ old.drop zstream.length)))
  | _,_ => fs

end CacheFs

/-- A header and the body behind it; `body` is empty where no body was queued. -/
structure CompressedAnswer where
  range : Option (ℕ × ℕ × ℕ)
  mimeid : ℤ
  connection : Option (List UInt8)
  lastModified : UInt64
  encoding : Option HttpEncoding
  contentLength : ℕ
  body : List UInt8
  deriving DecidableEq

def decimal (n : ℕ) : List Char := (Nat.repr n).toList

/-- `http_mime_types[mimeid].s`, or the type where there is no `mimeid`. -/
def mimeText (mimeid : ℤ) : String :=
  if 0 ≤ mimeid then (httpMimeTypes[mimeid.toNat]?.map fun m => m.s).getD "" else "application/octet-stream"

namespace FileRequest

/-- The bytes that are asked for. -/
def bytes (q : FileRequest) : List UInt8 := (q.content.drop q.lo).take (q.hi-q.lo)

def linkfile (conf : CompressConf) (q : FileRequest) (e : HttpEncoding) : List Char :=
  conf.cachedir ++ ['/'] ++ q.host ++ q.root ++
    (if q.lo = 0 ∧ q.hi = q.content.length then []
      else ['-'] ++ decimal q.lo ++ ['-'] ++ decimal q.hi) ++ '.'::e.name

def zfile (conf : CompressConf) (q : FileRequest) (e : HttpEncoding) : List Char :=
  q.linkfile conf e ++ '.'::decimal q.mtime.toNat

/-- `len` at `COMPRESS`: the bytes from the last multiple of `HTTP_MMAP_MAX` on. -/
def mapLen (q : FileRequest) : ℕ := q.hi-q.lo/HTTP_MMAP_MAX*HTTP_MMAP_MAX

/-- The bytes at `in`; the file is mapped from its start. -/
def window (q : FileRequest) : List UInt8 := (q.content.drop (q.lo % HTTP_MMAP_MAX)).take (q.hi-q.lo)

/-- What is queued at `OVER`. -/
def answer (q : FileRequest) (lo : ℕ) (encoding : Option HttpEncoding) (len : ℕ) (body : List UInt8) :
    CompressedAnswer where
  range := if lo > 0 then some (lo,q.hi-1,q.content.length) else none
  mimeid := q.mimeid
  connection := q.connection
  lastModified := q.mtime
  encoding := encoding
  contentLength := len
  body := body

/-- The header of an answer, as it is printed to `buf`. -/
def header (q : FileRequest) (a : CompressedAnswer) (now : ℤ) : List UInt8 :=
  (match a.range with
    | some (lo,last,size) => ascii "HTTP/1.1 206 Partial Content\r\nAccept-Ranges: bytes\r\n" ++
        ascii s!"Content-Range: bytes {lo}-{last}/{size}\r\n"
    | none => ascii "HTTP/1.1 200 OK\r\nAccept-Ranges: bytes\r\n") ++
  ascii "Content-Type: " ++ ascii (mimeText q.mimeid) ++ ascii "; charset=UTF-8\r\n" ++
  ascii "Connection: " ++ q.connection.getD (ascii "close") ++ ascii "\r\n" ++
  ascii "Last-Modified:" ++ gmtStrdate q.mtime.toInt64.toInt now ++ ascii "\r\n" ++
  (match a.encoding with
    | some e => ascii "Content-Encoding: " ++ ascii (String.ofList e.name) ++ ascii "\r\n"
    | none => []) ++
  ascii "Content-Length: " ++ ascii (Nat.repr a.contentLength) ++ ascii "\r\n" ++
  ascii "Date: " ++ gmtStrdate now now ++ ascii "\r\n" ++ ascii "Server: xhttpd/1.0.4\r\n\r\n"

end FileRequest

/-- The compression of the mapped window: the encoding, and `zstream` where there is one. `none` where the
handler leaves at `err`. -/
def compressWindow (z : Codec) (encoding : Option HttpEncoding) (q : FileRequest) :
    Option (HttpEncoding × Option (List UInt8)) :=
  if HttpEncoding.deflate.among q.need then
    (xhttpdDeflate z q.window).map fun out => (.deflate,some out)
  else if HttpEncoding.gzip.among q.need then
    (xhttpdGzip z q.window q.mtime).map fun out => (.gzip,some out)
  else if encoding = none ∧ HttpEncoding.bzip2.among q.need then
    let (out,zlen) := xhttpdBzip2 z q.window
    if zlen ≤ 0 then none else some (.bzip2,out)
  else encoding.map fun e => (e,none)

section

variable {δ : Type} [DecidableEq δ]

/-- From `COMPRESS` on; `files` are `zfile` and `linkfile` where the cache is in use. -/
def compressFile (z : Codec) (fs : CacheFs δ) (dirs : List Char → Option δ) (q : FileRequest)
    (encoding : Option HttpEncoding) (files : Option (List Char × List Char)) :
    CacheFs δ × Option CompressedAnswer :=
  if q.mapLen < HTTP_MMAP_MAX then
    match compressWindow z encoding q with
    | none => (fs,none)
    | some (e,some zstream) =>
      (match files with
        | some (zfile,linkfile) => fs.store dirs zfile linkfile zstream
        | none => fs,
        some (q.answer q.lo (some e) zstream.length zstream))
    -- `push_file` queues nothing, as `outfile` is `NULL`.
    | some (e,none) => (fs,some (q.answer q.lo (some e) q.mapLen []))
  else (fs,some (q.answer q.lo encoding q.mapLen []))

/-- Take the old entries of the file away. In `zoldfile` the text of the link, which `readlink` does not
terminate, has the old bytes behind it. -/
def dropOld (fs : CacheFs δ) (env : CompressEnv δ) (linkfile : List Char) : CacheFs δ :=
  if (fs.resolve env.before linkfile).isSome then
    match (cacheEntry env.before linkfile).bind fs with
    | some (.link target) => (fs.unlink env.before (target ++ env.stale)).unlink env.before linkfile
    | _ => (fs.unlink env.before env.stale).unlink env.before linkfile
  else fs

/-- Where paths lead to when the file is written: the directories are made where the link is not found. -/
def CompressEnv.dirs (env : CompressEnv δ) (fs : CacheFs δ) (linkfile : List Char) : List Char → Option δ :=
  if (fs.resolve env.before linkfile).isSome then env.before else env.after

/-- The new cache and what is queued, where the texts fit in their arrays; nothing is queued where the
handler returns -1. -/
def compressReply (conf : CompressConf) (z : Codec) (fs : CacheFs δ) (q : FileRequest)
    (env : CompressEnv δ) : CacheFs δ × Option CompressedAnswer :=
  if q.need = 0 then (fs,none)
  else if conf.compress then
    match HttpEncoding.first q.need with
    | some e =>
      match fs.resolve env.before (q.zfile conf e) with
      | some zbytes => (fs,some (q.answer 0 (some e) zbytes.length zbytes))
      | none => compressFile z (dropOld fs env (q.linkfile conf e)) (env.dirs fs (q.linkfile conf e)) q
          (some e) (some (q.zfile conf e,q.linkfile conf e))
    | none => compressFile z fs env.before q none none
  else compressFile z fs env.before q none none

/-- The names that the handler prints are shorter than `linkfile` and `zfile`. -/
def NamesFit (conf : CompressConf) (q : FileRequest) : Prop :=
  conf.compress = true → ∀ e, HttpEncoding.first q.need = some e → (q.zfile conf e).length < HTTP_PATH_MAX

instance (conf : CompressConf) (q : FileRequest) : Decidable (NamesFit conf q) :=
  inferInstanceAs (Decidable (conf.compress = true → ∀ e ∈ HttpEncoding.first q.need,
    (q.zfile conf e).length < HTTP_PATH_MAX))

/-- The new cache and what is queued; `none` where a text is longer than its array. -/
def xhttpdCompressHandler (conf : CompressConf) (z : Codec) (fs : CacheFs δ) (q : FileRequest)
    (env : CompressEnv δ) : Option (CacheFs δ × Option CompressedAnswer) :=
  let r := compressReply conf z fs q env
  if NamesFit conf q ∧ ∀ a ∈ r.2, (q.header a env.now).length < HTTP_BUF_SIZE then some r else none

end

end Sbase
