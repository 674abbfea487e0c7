import Sbase.Lib.Runs
import Sbase.Xhttpd.Compress

/-! The answers of `xhttpd_compress_handler` over runs of requests, each of which may be answered from what
an earlier one left in the cache. -/
namespace Sbase

open Runs

/-- Compress a text in one of the two encodings that `xhttpd_compress_handler` gets bytes for. -/
def encodeBody (z : Codec) (mtime : UInt64) : HttpEncoding → List UInt8 → Option (List UInt8)
  | .deflate,s => xhttpdDeflate z s
  | .gzip,s => xhttpdGzip z s mtime
  | _,_ => none

section

variable {δ : Type} [DecidableEq δ]

/-- The cache with the last request and its answer, and whether a text was longer than its array; `writer`
is no data of the program, it tells in which request a file of the cache got its bytes. -/
structure CompressWorld (δ : Type) where
  fs : CacheFs δ
  writer : δ × List Char → Option FileRequest
  last : Option (FileRequest × Option CompressedAnswer)
  overrun : Bool

/-- An empty cache. -/
def compressInit : CompressWorld δ := ⟨fun _ => none,fun _ => none,none,false⟩

/-- A request, with what it meets. -/
def compressStep (conf : CompressConf) (z : Codec) (w : CompressWorld δ)
    (op : FileRequest × CompressEnv δ) : CompressWorld δ :=
  match xhttpdCompressHandler conf z w.fs op.1 op.2 with
  | none => { w with overrun := true }
  | some r =>
    { fs := r.1
      writer := fun p =>
        match w.fs p,r.1 p with
        | some (.file _),_ => w.writer p
        | _,some (.file (_::_)) => some op.1
        | _,_ => none
      last := some (op.1,r.2)
      overrun := w.overrun }

/-- The header and the body that are queued fit each other and the request, and are those of an empty
cache. -/
def Answered (δ : Type) [DecidableEq δ] (conf : CompressConf) (z : Codec) (check : Bool) (q : FileRequest)
    (answer : Option CompressedAnswer) : Prop :=
  ∀ a, answer = some a → a.contentLength = a.body.length ∧
    decodeBody z check a.encoding a.body = some q.bytes ∧
    ∀ env : CompressEnv δ, (compressReply conf z (fun _ => none) q env).2 = some a

/-- No array was overrun, and the last request was answered as it should be. -/
def LastAnswered (conf : CompressConf) (z : Codec) (check : Bool) (w : CompressWorld δ) : Prop :=
  w.overrun = false ∧ ∀ q answer, w.last = some (q,answer) → Answered δ conf z check q answer

/-- What is compressed is what was asked for, and a check sum that is looked at is right. -/
def WindowFits (z : Codec) (check : Bool) (q : FileRequest) (e : HttpEncoding) : Prop :=
  encodeBody z q.mtime e q.window ≠ none →
    q.window = q.bytes ∧ (e = .gzip → check = true → httpCrc32 q.bytes = crc32 q.bytes)

/-- The encoding that is chosen before the file is read. -/
def FileRequest.chosen (conf : CompressConf) (q : FileRequest) : Option HttpEncoding :=
  if conf.compress then HttpEncoding.first q.need else none

/-- The cache does not hold the file. -/
def Misses (conf : CompressConf) (fs : CacheFs δ) (q : FileRequest) (env : CompressEnv δ) : Prop :=
  ∀ e, q.chosen conf = some e → fs.resolve env.before (q.zfile conf e) = none

/-- The directories are as they should be: those that are there stay, and nothing stands in one that has
yet to be made. -/
structure CompressEnv.Lawful (env : CompressEnv δ) (fs : CacheFs δ) : Prop where
  stays : ∀ path dir, env.before path = some dir → env.after path = some dir
  made : ∀ path dir, env.before path = none → env.after path = some dir → ∀ name, fs (dir,name) = none

/-- The cache, as it is in `w`, or the file itself gives the bytes that are asked for. -/
structure ServesEncoded (conf : CompressConf) (z : Codec) (check : Bool) (w : CompressWorld δ) (q : FileRequest)
    (env : CompressEnv δ) : Prop where
  /-- Where the cache has the file, the whole of a text is asked for, the same as by the request that
  filled it. -/
  cached : ∀ e zbytes, q.chosen conf = some e → w.fs.resolve env.before (q.zfile conf e) = some zbytes →
    q.lo = 0 ∧ ∃ r, (cacheEntry env.before (q.zfile conf e)).bind w.writer = some r ∧ r.bytes = q.bytes
  /-- Where the cache is in use and lacks the file, the first accepted encoding is deflate or gzip. -/
  encoding : Misses conf w.fs q env → ∀ e, q.chosen conf = some e → e = .deflate ∨ e = .gzip
  /-- What is compressed is mapped as a whole. -/
  window : Misses conf w.fs q env → q.need ≠ 0 →
    q.mapLen < HTTP_MMAP_MAX ∧ ∀ e, HttpEncoding.first q.need = some e → WindowFits z check q e

/-- The header of an answer is shorter than `buf`. -/
def HeaderFits (q : FileRequest) (lo : ℕ) (e : HttpEncoding) (body : List UInt8) (now : ℤ) : Prop :=
  (q.header (q.answer lo (some e) body.length body) now).length < HTTP_BUF_SIZE

/-- The request is one that the handler answers right, where the cache is as in `w`. -/
structure Answerable (conf : CompressConf) (z : Codec) (check : Bool) (w : CompressWorld δ)
    (op : FileRequest × CompressEnv δ) : Prop where
  served : ServesEncoded conf z check w op.1 op.2
  names : NamesFit conf op.1
  cachedHeader : ∀ e zbytes, op.1.chosen conf = some e →
    w.fs.resolve op.2.before (op.1.zfile conf e) = some zbytes → HeaderFits op.1 0 e zbytes op.2.now
  header : Misses conf w.fs op.1 op.2 → ∀ e out, HttpEncoding.first op.1.need = some e →
    encodeBody z op.1.mtime e op.1.window = some out → HeaderFits op.1 op.1.lo e out op.2.now

variable {conf : CompressConf} {z : Codec} {check : Bool} {w : CompressWorld δ} {q r : FileRequest}
  {e e' : HttpEncoding} {env : CompressEnv δ} {dirs : List Char → Option δ} {fs : CacheFs δ}

/-! ### The names of the cache files -/

/-- The parts on both sides of the last dot of a name are determined by it. -/
theorem append_dot_inj {a b c d : List Char} (h : a ++ '.'::c = b ++ '.'::d) (hc : '.' ∉ c) (hd : '.' ∉ d) :
    a = b ∧ c = d := by
  obtain ⟨k,hb,hk⟩ | ⟨k,ha,hk⟩ := List.append_eq_append_iff.mp h
  · cases k with
    | nil =>
      rw [List.append_nil] at hb
      exact ⟨hb.symm,(List.cons.inj hk).2⟩
    | cons x k =>
      have hmem : '.' ∈ c := by
        rw [(List.cons.inj hk).2]
        simp
      exact absurd hmem hc
  · cases k with
    | nil =>
      rw [List.append_nil] at ha
      exact ⟨ha,(List.cons.inj hk).2.symm⟩
    | cons x k =>
      have hmem : '.' ∈ d := by
        rw [(List.cons.inj hk).2]
        simp
      exact absurd hmem hd

theorem decimal_inj {n m : ℕ} (h : decimal n = decimal m) : n = m := by
  have hvalue := congrArg (fun cs => Nat.ofDigitChars 10 cs 0) h
  simpa [decimal] using hvalue

theorem isDigit_of_mem_decimal {c : Char} {n : ℕ} (h : c ∈ decimal n) : c.isDigit = true := by
  rw [decimal,Nat.toList_repr] at h
  exact Nat.isDigit_of_mem_toDigits (by decide) (by decide) h

theorem dot_notMem_decimal (n : ℕ) : '.' ∉ decimal n := by
  intro h
  exact absurd (isDigit_of_mem_decimal h) (by decide)

theorem HttpEncoding.dot_notMem_name (e : HttpEncoding) : '.' ∉ e.name := by
  cases e with
  | deflate => decide
  | gzip => decide
  | bzip2 => decide
  | compress => decide

theorem HttpEncoding.name_inj (h : e.name = e'.name) : e = e' := by
  revert h
  cases e <;> cases e' <;> decide

/-- What is appended without a slash belongs to the name in the directory. -/
theorem baseName_append (path : List Char) {cs : List Char} (hcs : '/' ∉ cs) :
    baseName (path ++ cs) = baseName path ++ cs ∧
      (path ++ cs).rdropWhile (· ≠ '/') = path.rdropWhile (· ≠ '/') := by
  have hplain : ∀ c ∈ cs.reverse, decide (c ≠ '/') = true := fun c hc =>
    decide_eq_true (ne_of_mem_of_not_mem (List.mem_reverse.mp hc) hcs)
  rw [baseName,baseName,List.rdropWhile,List.rtakeWhile,List.reverse_append,
    List.dropWhile_append_of_pos hplain,List.takeWhile_append_of_pos hplain,List.reverse_append,
    List.reverse_reverse]
  exact ⟨rfl,rfl⟩

/-- The name of a cache file in its directory. -/
def FileRequest.zbase (conf : CompressConf) (q : FileRequest) (e : HttpEncoding) : List Char :=
  baseName (q.linkfile conf e) ++ '.'::decimal q.mtime.toNat

theorem slash_notMem_mtime (q : FileRequest) : '/' ∉ '.'::decimal q.mtime.toNat := by
  intro h
  rcases List.mem_cons.mp h with h | h
  · exact absurd h (by decide)
  · exact absurd (isDigit_of_mem_decimal h) (by decide)

omit [DecidableEq δ] in
/-- A cache file and its link stand in one directory. -/
theorem cacheEntry_zfile (dirs : List Char → Option δ) (q : FileRequest) (e : HttpEncoding) :
    cacheEntry dirs (q.zfile conf e) =
      (dirs ((q.linkfile conf e).rdropWhile (· ≠ '/'))).map fun dir => (dir,q.zbase conf e) := by
  obtain ⟨hbase,hdir⟩ := baseName_append (q.linkfile conf e) (slash_notMem_mtime q)
  rw [cacheEntry,FileRequest.zfile,hbase,hdir]
  rfl

/-- The link ends in the name of its encoding. -/
theorem linkfile_base (conf : CompressConf) (q : FileRequest) (e : HttpEncoding) :
    ∃ name, baseName (q.linkfile conf e) = name ++ '.'::e.name := by
  have hplain : '/' ∉ '.'::e.name := by
    cases e with
    | deflate => decide
    | gzip => decide
    | bzip2 => decide
    | compress => decide
  exact ⟨_,(baseName_append _ hplain).1⟩

/-- The name of a cache file tells the encoding and the time of its file. -/
theorem zbase_inj (h : r.zbase conf e = q.zbase conf e') : e = e' ∧ r.mtime = q.mtime := by
  obtain ⟨hlink,htime⟩ := append_dot_inj h (dot_notMem_decimal _) (dot_notMem_decimal _)
  obtain ⟨name,hname⟩ := linkfile_base conf r e
  obtain ⟨name',hname'⟩ := linkfile_base conf q e'
  rw [hname,hname'] at hlink
  obtain ⟨_,hname⟩ := append_dot_inj hlink e.dot_notMem_name e'.dot_notMem_name
  exact ⟨HttpEncoding.name_inj hname,UInt64.toNat_inj.mp (decimal_inj htime)⟩

/-- No name is that of a cache file and of a link. -/
theorem zbase_ne_linkfile : r.zbase conf e ≠ baseName (q.linkfile conf e') := by
  intro h
  obtain ⟨name,hlink⟩ := linkfile_base conf q e'
  rw [hlink] at h
  obtain ⟨_,hname⟩ := append_dot_inj h (dot_notMem_decimal _) e'.dot_notMem_name
  have hdigit : ∀ c ∈ e'.name, c.isDigit = true := by
    rw [← hname]
    intro c hc
    exact isDigit_of_mem_decimal hc
  cases e' with
  | deflate => exact absurd (hdigit 'd' (by decide)) (by decide)
  | gzip => exact absurd (hdigit 'g' (by decide)) (by decide)
  | bzip2 => exact absurd (hdigit 'b' (by decide)) (by decide)
  | compress => exact absurd (hdigit 'c' (by decide)) (by decide)

/-! ### An answer without the cache -/

/-- The answer from the file itself. -/
def freshAnswer (z : Codec) (q : FileRequest) (encoding : Option HttpEncoding) : Option CompressedAnswer :=
  if q.mapLen < HTTP_MMAP_MAX then
    match compressWindow z encoding q with
    | none => none
    | some (e,some zstream) => some (q.answer q.lo (some e) zstream.length zstream)
    | some (e,none) => some (q.answer q.lo (some e) q.mapLen [])
  else some (q.answer q.lo encoding q.mapLen [])

theorem compressFile_snd (encoding : Option HttpEncoding) (files : Option (List Char × List Char)) :
    (compressFile z fs dirs q encoding files).2 = freshAnswer z q encoding := by
  unfold compressFile freshAnswer
  split
  · cases compressWindow z encoding q with
    | none => rfl
    | some r =>
      obtain ⟨e,_ | zstream⟩ := r
      · rfl
      · rfl
  · rfl

theorem chosen_eq_some : q.chosen conf = some e ↔ conf.compress = true ∧ HttpEncoding.first q.need = some e := by
  rw [FileRequest.chosen]
  split
  · next hc => simp [hc]
  · next hc => simp [hc]

theorem handler_unused (hneed : q.need ≠ 0) (he : q.chosen conf = none) :
    compressReply conf z fs q env = compressFile z fs env.before q none none := by
  rw [compressReply,if_neg hneed]
  split
  · next hc =>
    rw [FileRequest.chosen,if_pos hc] at he
    simp only [he]
  · rfl

theorem handler_fresh (hneed : q.need ≠ 0) (he : q.chosen conf = some e)
    (hz : fs.resolve env.before (q.zfile conf e) = none) :
    compressReply conf z fs q env =
      compressFile z (dropOld fs env (q.linkfile conf e)) (env.dirs fs (q.linkfile conf e)) q (some e)
        (some (q.zfile conf e,q.linkfile conf e)) := by
  obtain ⟨hc,hf⟩ := chosen_eq_some.mp he
  rw [compressReply,if_neg hneed,if_pos hc]
  simp only [hf,hz]

theorem handler_hit {zbytes : List UInt8} (hneed : q.need ≠ 0) (he : q.chosen conf = some e)
    (hz : fs.resolve env.before (q.zfile conf e) = some zbytes) :
    compressReply conf z fs q env = (fs,some (q.answer 0 (some e) zbytes.length zbytes)) := by
  obtain ⟨hc,hf⟩ := chosen_eq_some.mp he
  rw [compressReply,if_neg hneed,if_pos hc]
  simp only [hf,hz]

theorem handler_miss (hneed : q.need ≠ 0) (hmiss : Misses conf fs q env) :
    (compressReply conf z fs q env).2 = freshAnswer z q (q.chosen conf) := by
  cases he : q.chosen conf with
  | none => rw [handler_unused hneed he,compressFile_snd]
  | some e => rw [handler_fresh hneed he (hmiss e he),compressFile_snd]

omit [DecidableEq δ] in
theorem resolve_empty (dirs : List Char → Option δ) (path : List Char) :
    CacheFs.resolve (fun _ => none) dirs path = none := by
  rw [CacheFs.resolve]
  simp

omit [DecidableEq δ] in
/-- The cache has the file, or it misses it. -/
theorem hit_or_misses (conf : CompressConf) (fs : CacheFs δ) (q : FileRequest) (env : CompressEnv δ) :
    (∃ e zbytes, q.chosen conf = some e ∧ fs.resolve env.before (q.zfile conf e) = some zbytes) ∨
      Misses conf fs q env := by
  by_cases hhit : ∃ e zbytes, q.chosen conf = some e ∧ fs.resolve env.before (q.zfile conf e) = some zbytes
  · exact .inl hhit
  · refine .inr fun e he => ?_
    cases hz : fs.resolve env.before (q.zfile conf e) with
    | none => rfl
    | some zbytes => exact absurd ⟨e,zbytes,he,hz⟩ hhit

omit [DecidableEq δ] in
/-- A cache that misses the file has nothing to answer with. -/
theorem Misses.absent {zbytes : List UInt8} (hmiss : Misses conf fs q env) (he : q.chosen conf = some e) :
    fs.resolve env.before (q.zfile conf e) ≠ some zbytes := by
  rw [hmiss e he]
  exact (Option.some_ne_none zbytes).symm

omit [DecidableEq δ] in
theorem misses_of_chosen (he : q.chosen conf = some e) (hz : fs.resolve env.before (q.zfile conf e) = none) :
    Misses conf fs q env := by
  intro e' he'
  obtain rfl : e = e' := Option.some.inj (he.symm.trans he')
  exact hz

theorem handler_empty (hneed : q.need ≠ 0) :
    (compressReply conf z (fun _ => none) q env).2 = freshAnswer z q (q.chosen conf) :=
  handler_miss hneed fun _ _ => resolve_empty _ _

/-- The first accepted encoding is the one in which the window is compressed. -/
theorem compressWindow_first {encoding : Option HttpEncoding} (hf : HttpEncoding.first q.need = some e)
    (he : e = .deflate ∨ e = .gzip) :
    compressWindow z encoding q = (encodeBody z q.mtime e q.window).map fun out => (e,some out) := by
  obtain rfl | rfl := he
  · have hdeflate : HttpEncoding.deflate.among q.need = true := List.find?_some hf
    rw [compressWindow,if_pos hdeflate]
    rfl
  · have hgzip : HttpEncoding.gzip.among q.need = true := List.find?_some hf
    have hdeflate : ¬ HttpEncoding.deflate.among q.need = true := by
      intro h
      rw [HttpEncoding.first,List.find?_cons_of_pos h] at hf
      cases hf
    rw [compressWindow,if_neg hdeflate,if_pos hgzip]
    rfl

/-- No other encoding gets any bytes. -/
theorem compressWindow_none {encoding : Option HttpEncoding} (hd : HttpEncoding.first q.need ≠ some .deflate)
    (hg : HttpEncoding.first q.need ≠ some .gzip) :
    compressWindow z encoding q = encoding.map fun e => (e,none) := by
  have hdeflate : ¬ HttpEncoding.deflate.among q.need = true := by
    intro h
    exact hd (by rw [HttpEncoding.first,List.find?_cons_of_pos h])
  have hgzip : ¬ HttpEncoding.gzip.among q.need = true := by
    intro h
    exact hg (by rw [HttpEncoding.first,List.find?_cons_of_neg hdeflate,List.find?_cons_of_pos h])
  rw [compressWindow,if_neg hdeflate,if_neg hgzip]
  split
  · next h =>
    rw [h.1]
    simp [xhttpdBzip2]
  · rfl

theorem decode_encodeBody (check : Bool) {s out : List UInt8} {mtime : UInt64}
    (h : encodeBody z mtime e s = some out) :
    decodeBody z check (some e) out =
      (if e = .gzip ∧ check = true ∧ httpCrc32 s ≠ crc32 s then none else some s) ∧ out ≠ [] := by
  cases e with
  | deflate => simpa using decode_deflate check h
  | gzip => simpa using decode_gzip check h
  | bzip2 => cases h
  | compress => cases h

theorem mapLen_pos (q : FileRequest) : 0 < q.mapLen := by
  have hlt := q.lo_lt
  have hle := Nat.div_mul_le_self q.lo HTTP_MMAP_MAX
  rw [FileRequest.mapLen]
  omega

/-- What a fresh answer is, where the window is compressed. -/
theorem freshAnswer_first {encoding : Option HttpEncoding} (hlen : q.mapLen < HTTP_MMAP_MAX)
    (hf : HttpEncoding.first q.need = some e) (he : e = .deflate ∨ e = .gzip) :
    freshAnswer z q encoding = (encodeBody z q.mtime e q.window).map fun out =>
      q.answer q.lo (some e) out.length out := by
  rw [freshAnswer,if_pos hlen,compressWindow_first hf he]
  cases encodeBody z q.mtime e q.window with
  | none => rfl
  | some out => rfl

/-- What it is, where nothing is compressed. -/
theorem freshAnswer_none {encoding : Option HttpEncoding} (hlen : q.mapLen < HTTP_MMAP_MAX)
    (hd : HttpEncoding.first q.need ≠ some .deflate) (hg : HttpEncoding.first q.need ≠ some .gzip) :
    freshAnswer z q encoding = encoding.map fun e => q.answer q.lo (some e) q.mapLen [] := by
  rw [freshAnswer,if_pos hlen,compressWindow_none hd hg]
  cases encoding with
  | none => rfl
  | some e => rfl

theorem freshAnswer_large {encoding : Option HttpEncoding} (hlen : ¬ q.mapLen < HTTP_MMAP_MAX) :
    freshAnswer z q encoding = some (q.answer q.lo encoding q.mapLen []) := by
  rw [freshAnswer,if_neg hlen]

/-- Where only deflate and gzip are chosen, a fresh answer is that with the compressed window. -/
theorem freshAnswer_eq_some_iff {a : CompressedAnswer} (hlen : q.mapLen < HTTP_MMAP_MAX)
    (hchosen : ∀ e, q.chosen conf = some e → e = .deflate ∨ e = .gzip) :
    freshAnswer z q (q.chosen conf) = some a ↔ ∃ e out, HttpEncoding.first q.need = some e ∧
      encodeBody z q.mtime e q.window = some out ∧ q.answer q.lo (some e) out.length out = a := by
  by_cases he : ∃ e, HttpEncoding.first q.need = some e ∧ (e = .deflate ∨ e = .gzip)
  · obtain ⟨e,hf,he⟩ := he
    rw [freshAnswer_first hlen hf he,Option.map_eq_some_iff]
    constructor
    · rintro ⟨out,hout,ha⟩
      exact ⟨e,out,hf,hout,ha⟩
    · rintro ⟨e',out,hf',hout,ha⟩
      obtain rfl : e = e' := Option.some.inj (hf.symm.trans hf')
      exact ⟨out,hout,ha⟩
  · have hnone : q.chosen conf = none := by
      cases hc : q.chosen conf with
      | none => rfl
      | some e => exact absurd ⟨e,(chosen_eq_some.mp hc).2,hchosen e hc⟩ he
    rw [freshAnswer_none hlen (fun h => he ⟨_,h,.inl rfl⟩) (fun h => he ⟨_,h,.inr rfl⟩),hnone]
    refine iff_of_false (fun h => by cases h) ?_
    rintro ⟨e,out,hf,hout,-⟩
    cases e with
    | deflate => exact he ⟨_,hf,.inl rfl⟩
    | gzip => exact he ⟨_,hf,.inr rfl⟩
    | bzip2 => cases hout
    | compress => cases hout

/-- A fresh answer tells the interval that was asked for. -/
theorem freshAnswer_range {a : CompressedAnswer} {encoding : Option HttpEncoding}
    (h : freshAnswer z q encoding = some a) :
    a.range = if q.lo > 0 then some (q.lo,q.hi-1,q.content.length) else none := by
  unfold freshAnswer at h
  split at h
  · cases hr : compressWindow z encoding q with
    | none =>
      rw [hr] at h
      cases h
    | some r =>
      rw [hr] at h
      obtain ⟨e,_ | zstream⟩ := r
      · rw [← Option.some.inj h]
        rfl
      · rw [← Option.some.inj h]
        rfl
  · rw [← Option.some.inj h]
    rfl

/-- A fresh answer announces a body. -/
theorem freshAnswer_pos {a : CompressedAnswer} {encoding : Option HttpEncoding}
    (h : freshAnswer z q encoding = some a) : 0 < a.contentLength := by
  by_cases hlen : q.mapLen < HTTP_MMAP_MAX
  · by_cases he : ∃ e, HttpEncoding.first q.need = some e ∧ (e = .deflate ∨ e = .gzip)
    · obtain ⟨e,hf,he⟩ := he
      rw [freshAnswer_first hlen hf he] at h
      obtain ⟨out,hout,ha⟩ := Option.map_eq_some_iff.mp h
      rw [← ha]
      exact List.length_pos_iff.mpr (decode_encodeBody false hout).2
    · rw [freshAnswer_none hlen (fun h => he ⟨_,h,.inl rfl⟩) (fun h => he ⟨_,h,.inr rfl⟩)] at h
      obtain ⟨e,_,ha⟩ := Option.map_eq_some_iff.mp h
      rw [← ha]
      exact mapLen_pos q
  · rw [freshAnswer_large hlen] at h
    rw [← Option.some.inj h]
    exact mapLen_pos q

/-- A header without its body is no answer. -/
theorem not_answered_empty {encoding : Option HttpEncoding} {lo : ℕ} :
    ¬ Answered δ conf z check q (some (q.answer lo encoding q.mapLen [])) := by
  intro h
  have hlen : q.mapLen = 0 := (h _ rfl).1
  exact absurd (mapLen_pos q) (by simp [hlen])

theorem answered_fresh_iff (hneed : q.need ≠ 0) :
    Answered δ conf z check q (freshAnswer z q (q.chosen conf)) ↔
      ∀ a, freshAnswer z q (q.chosen conf) = some a → a.contentLength = a.body.length ∧
        decodeBody z check a.encoding a.body = some q.bytes := by
  constructor
  · intro h a ha
    exact ⟨(h a ha).1,(h a ha).2.1⟩
  · intro h a ha
    refine ⟨(h a ha).1,(h a ha).2,fun env => ?_⟩
    rw [handler_empty hneed,ha]

theorem windowFits_iff {out : List UInt8} (hout : encodeBody z q.mtime e q.window = some out) :
    WindowFits z check q e ↔ decodeBody z check (some e) out = some q.bytes := by
  rw [(decode_encodeBody check hout).1,WindowFits,hout]
  constructor
  · intro h
    obtain ⟨hwindow,hsum⟩ := h (by simp)
    rw [if_neg,hwindow]
    intro hbad
    exact hbad.2.2 (by rw [hwindow,hsum hbad.1 hbad.2.1])
  · intro h _
    split at h
    · cases h
    · next hbad =>
      have hwindow : q.window = q.bytes := Option.some.inj h
      refine ⟨hwindow,fun he hcheck => ?_⟩
      rw [← hwindow]
      by_contra hsum
      exact hbad ⟨he,hcheck,hsum⟩

/-- Deflate and gzip are sent exactly where the window is what was asked for. -/
theorem freshAnswer_stream_iff (hneed : q.need ≠ 0) (hlen : q.mapLen < HTTP_MMAP_MAX)
    (hf : HttpEncoding.first q.need = some e) (he : e = .deflate ∨ e = .gzip) :
    Answered δ conf z check q (freshAnswer z q (q.chosen conf)) ↔ WindowFits z check q e := by
  rw [answered_fresh_iff hneed,freshAnswer_first hlen hf he]
  constructor
  · intro h
    cases hout : encodeBody z q.mtime e q.window with
    | none => exact fun hne => absurd hout hne
    | some out =>
      rw [windowFits_iff hout]
      exact (h _ (by rw [hout]; rfl)).2
  · intro h a ha
    obtain ⟨out,hout,ha⟩ := Option.map_eq_some_iff.mp ha
    rw [← ha]
    exact ⟨rfl,(windowFits_iff hout).mp h⟩

/-- Without them, nothing is compressed, and the answer is right exactly where no encoding has been named. -/
theorem freshAnswer_other_iff (hlen : q.mapLen < HTTP_MMAP_MAX)
    (hother : ∀ e, HttpEncoding.first q.need = some e → e ≠ .deflate ∧ e ≠ .gzip) :
    Answered δ conf z check q (freshAnswer z q (q.chosen conf)) ↔ q.chosen conf = none := by
  rw [freshAnswer_none hlen (fun h => (hother _ h).1 rfl) (fun h => (hother _ h).2 rfl)]
  cases hchosen : q.chosen conf with
  | none =>
    refine iff_of_true (fun a ha => ?_) rfl
    cases ha
  | some e => exact iff_of_false not_answered_empty (Option.some_ne_none e)

/-- The fresh answer of a request is right exactly where its window is compressed as a whole. -/
theorem freshAnswer_answered_iff (hneed : q.need ≠ 0) :
    Answered δ conf z check q (freshAnswer z q (q.chosen conf)) ↔
      q.mapLen < HTTP_MMAP_MAX ∧ (∀ e, q.chosen conf = some e → e = .deflate ∨ e = .gzip) ∧
        ∀ e, HttpEncoding.first q.need = some e → WindowFits z check q e := by
  by_cases hlen : q.mapLen < HTTP_MMAP_MAX
  · by_cases he : ∃ e, HttpEncoding.first q.need = some e ∧ (e = .deflate ∨ e = .gzip)
    · obtain ⟨e,hf,he⟩ := he
      have hfirst : ∀ e', HttpEncoding.first q.need = some e' → e' = e := by
        intro e' h
        rw [hf] at h
        exact (Option.some.inj h).symm
      rw [freshAnswer_stream_iff hneed hlen hf he]
      constructor
      · intro h
        refine ⟨hlen,fun e' h' => ?_,fun e' h' => ?_⟩
        · rw [hfirst e' (chosen_eq_some.mp h').2]
          exact he
        · rw [hfirst e' h']
          exact h
      · intro h
        exact h.2.2 e hf
    · have hother : ∀ e, HttpEncoding.first q.need = some e → e ≠ .deflate ∧ e ≠ .gzip := by
        intro e hf
        exact ⟨fun h => he ⟨e,hf,.inl h⟩,fun h => he ⟨e,hf,.inr h⟩⟩
      rw [freshAnswer_other_iff hlen hother]
      constructor
      · intro hchosen
        refine ⟨hlen,fun e h' => ?_,fun e hf hne => ?_⟩
        · rw [hchosen] at h'
          cases h'
        · obtain ⟨hd,hg⟩ := hother e hf
          cases e with
          | deflate => exact absurd rfl hd
          | gzip => exact absurd rfl hg
          | bzip2 => exact absurd rfl hne
          | compress => exact absurd rfl hne
      · rintro ⟨-,hchosen,-⟩
        cases hc : q.chosen conf with
        | none => rfl
        | some e => exact absurd ⟨e,(chosen_eq_some.mp hc).2,hchosen e hc⟩ he
  · rw [freshAnswer_large hlen]
    constructor
    · intro h
      exact absurd h not_answered_empty
    · intro h
      exact absurd h.1 hlen

/-! ### What a request does to the cache -/

theorem mem_unlink {path : List Char} {p : δ × List Char} {n : CacheNode}
    (h : fs.unlink dirs path p = some n) : fs p = some n := by
  rw [CacheFs.unlink] at h
  cases he : cacheEntry dirs path with
  | none =>
    rw [he] at h
    exact h
  | some p' =>
    rw [he] at h
    dsimp only at h
    by_cases hp : p = p'
    · rw [hp,Function.update_self] at h
      cases h
    · rwa [Function.update_of_ne hp] at h

theorem mem_dropOld {link : List Char} {p : δ × List Char} {n : CacheNode}
    (h : dropOld fs env link p = some n) : fs p = some n := by
  rw [dropOld] at h
  split at h
  · cases hl : (cacheEntry env.before link).bind fs with
    | none =>
      rw [hl] at h
      exact mem_unlink (mem_unlink h)
    | some node =>
      rw [hl] at h
      cases node with
      | file bytes => exact mem_unlink (mem_unlink h)
      | link target => exact mem_unlink (mem_unlink h)
  · exact h

/-- What is stored behind a name that is free. -/
theorem mem_store {zfile link : List Char} {p : δ × List Char} {zstream : List UInt8} {n : CacheNode}
    (hz : ∀ pz, cacheEntry dirs zfile = some pz → fs pz = none) (h : fs.store dirs zfile link zstream p = some n) :
    fs p = some n ∨ (cacheEntry dirs zfile = some p ∧ (n = .file zstream ∨ n = .file [])) ∨
      cacheEntry dirs link = some p ∧ n = .link zfile := by
  rw [CacheFs.store] at h
  cases hpz : cacheEntry dirs zfile with
  | none =>
    rw [hpz] at h
    exact .inl h
  | some pz =>
    cases hpl : cacheEntry dirs link with
    | none =>
      rw [hpz,hpl] at h
      exact .inl h
    | some pl =>
      have hold : fs.resolve dirs zfile = none := by
        rw [CacheFs.resolve,hpz,Option.bind_some,hz pz hpz]
      rw [hpz,hpl,hold] at h
      simp only [Option.getD_none,List.drop_nil,List.append_nil] at h
      by_cases hp : p = pz
      · subst hp
        refine .inr (.inl ⟨rfl,?_⟩)
        split at h
        · rw [Function.update_self] at h
          exact .inr (Option.some.inj h).symm
        · rw [Function.update_self] at h
          exact .inl (Option.some.inj h).symm
      · split at h
        · rw [Function.update_of_ne hp] at h
          exact .inl h
        · rw [Function.update_of_ne hp] at h
          by_cases hl : p = pl
          · rw [hl,Function.update_self] at h
            rw [hl]
            exact .inr (.inr ⟨rfl,(Option.some.inj h).symm⟩)
          · rw [Function.update_of_ne hl,Function.update_of_ne hp] at h
            exact .inl h

/-- Where there are compressed bytes, they are the window in the first accepted encoding. -/
theorem compressWindow_some {encoding : Option HttpEncoding} {out : List UInt8}
    (h : compressWindow z encoding q = some (e,some out)) :
    HttpEncoding.first q.need = some e ∧ encodeBody z q.mtime e q.window = some out := by
  by_cases hfirst : ∃ e, HttpEncoding.first q.need = some e ∧ (e = .deflate ∨ e = .gzip)
  · obtain ⟨e',hf,he⟩ := hfirst
    rw [compressWindow_first hf he] at h
    obtain ⟨out',hout,heq⟩ := Option.map_eq_some_iff.mp h
    simp only [Prod.mk.injEq,Option.some.injEq] at heq
    rw [← heq.1,← heq.2]
    exact ⟨hf,hout⟩
  · rw [compressWindow_none (fun h => hfirst ⟨_,h,.inl rfl⟩) (fun h => hfirst ⟨_,h,.inr rfl⟩)] at h
    obtain ⟨e',_,heq⟩ := Option.map_eq_some_iff.mp h
    simp at heq

theorem compressFile_fst_none (encoding : Option HttpEncoding) :
    (compressFile z fs dirs q encoding none).1 = fs := by
  unfold compressFile
  split
  · cases compressWindow z encoding q with
    | none => rfl
    | some r =>
      obtain ⟨e,_ | zstream⟩ := r
      · rfl
      · rfl
  · rfl

theorem compressFile_fst_some (fs : CacheFs δ) (dirs : List Char → Option δ) (encoding : Option HttpEncoding) (zfile link : List Char) :
    (compressFile z fs dirs q encoding (some (zfile,link))).1 = fs ∨
      ∃ e out, HttpEncoding.first q.need = some e ∧ encodeBody z q.mtime e q.window = some out ∧
        q.mapLen < HTTP_MMAP_MAX ∧
        (compressFile z fs dirs q encoding (some (zfile,link))).1 = fs.store dirs zfile link out := by
  unfold compressFile
  split
  · next hlen =>
    cases hr : compressWindow z encoding q with
    | none => exact .inl rfl
    | some r =>
      obtain ⟨e,_ | out⟩ := r
      · exact .inl rfl
      · obtain ⟨hf,hout⟩ := compressWindow_some hr
        exact .inr ⟨e,out,hf,hout,hlen,rfl⟩
  · exact .inl rfl

/-- The cache after a request: as before, or with the bytes of the window put behind a name. -/
theorem handler_fst (conf : CompressConf) (z : Codec) (fs : CacheFs δ) (q : FileRequest) (env : CompressEnv δ) :
    (∀ p n, (compressReply conf z fs q env).1 p = some n → fs p = some n) ∨
      ∃ e out, q.chosen conf = some e ∧ fs.resolve env.before (q.zfile conf e) = none ∧
        encodeBody z q.mtime e q.window = some out ∧ q.mapLen < HTTP_MMAP_MAX ∧
        (compressReply conf z fs q env).1 = (dropOld fs env (q.linkfile conf e)).store
          (env.dirs fs (q.linkfile conf e)) (q.zfile conf e) (q.linkfile conf e) out := by
  by_cases hneed : q.need = 0
  · rw [compressReply,if_pos hneed]
    exact .inl fun p n h => h
  · cases he : q.chosen conf with
    | none =>
      rw [handler_unused hneed he,compressFile_fst_none]
      exact .inl fun p n h => h
    | some e =>
      cases hz : fs.resolve env.before (q.zfile conf e) with
      | some zbytes =>
        rw [handler_hit hneed he hz]
        exact .inl fun p n h => h
      | none =>
        rw [handler_fresh hneed he hz]
        obtain hsame | ⟨e',out,hf,hout,hlen,hstore⟩ := compressFile_fst_some (z := z) (q := q)
          (dropOld fs env (q.linkfile conf e)) (env.dirs fs (q.linkfile conf e)) (some e)
          (q.zfile conf e) (q.linkfile conf e)
        · rw [hsame]
          exact .inl fun p n h => mem_dropOld h
        · obtain rfl : e = e' := Option.some.inj ((chosen_eq_some.mp he).2.symm.trans hf)
          exact .inr ⟨e,out,rfl,hz,hout,hlen,hstore⟩

/-- A file that the cache lacks is not found behind the name that it is written to either. -/
def Free (conf : CompressConf) (fs : CacheFs δ) (q : FileRequest) (env : CompressEnv δ) : Prop :=
  ∀ e, fs.resolve env.before (q.zfile conf e) = none → ∀ p,
    cacheEntry (env.dirs fs (q.linkfile conf e)) (q.zfile conf e) = some p → fs p = none

/-- A new entry of the cache is the compressed window, or empty where the link could not be made. -/
theorem mem_handler {p : δ × List Char} {n : CacheNode} (hfree : Free conf fs q env)
    (h : (compressReply conf z fs q env).1 p = some n) :
    fs p = some n ∨ ∃ e out, q.chosen conf = some e ∧ fs.resolve env.before (q.zfile conf e) = none ∧
      encodeBody z q.mtime e q.window = some out ∧ q.mapLen < HTTP_MMAP_MAX ∧
      ((fs p = none ∧ p.2 = q.zbase conf e ∧ (n = .file out ∨ n = .file [])) ∨
        p.2 = baseName (q.linkfile conf e) ∧ n = .link (q.zfile conf e)) := by
  obtain hold | ⟨e,out,he,hz,hout,hlen,hstore⟩ := handler_fst conf z fs q env
  · exact .inl (hold p n h)
  · have hnone : ∀ pz, cacheEntry (env.dirs fs (q.linkfile conf e)) (q.zfile conf e) = some pz →
        dropOld fs env (q.linkfile conf e) pz = none := by
      intro pz hpz
      cases hd : dropOld fs env (q.linkfile conf e) pz with
      | none => rfl
      | some n =>
        have hsome := mem_dropOld hd
        rw [hfree e hz pz hpz] at hsome
        cases hsome
    rw [hstore] at h
    obtain hdrop | ⟨hpz,hn⟩ | ⟨hpl,hn⟩ := mem_store hnone h
    · exact .inl (mem_dropOld hdrop)
    · refine .inr ⟨e,out,he,hz,hout,hlen,.inl ⟨hfree e hz p hpz,?_,hn⟩⟩
      rw [cacheEntry_zfile] at hpz
      obtain ⟨dir,-,rfl⟩ := Option.map_eq_some_iff.mp hpz
      rfl
    · refine .inr ⟨e,out,he,hz,hout,hlen,.inr ⟨?_,hn⟩⟩
      obtain ⟨dir,-,rfl⟩ := Option.map_eq_some_iff.mp hpl
      rfl

/-! ### Runs -/

/-- What a file of the cache holds and where its links stand. -/
structure CacheConsistent (conf : CompressConf) (z : Codec) (check : Bool) (w : CompressWorld δ) : Prop where
  /-- A file is empty, or it holds the text of the request that wrote it. -/
  file : ∀ p bs, w.fs p = some (.file bs) → w.writer p = none ∧ bs = [] ∨
    ∃ r e, w.writer p = some r ∧ p.2 = r.zbase conf e ∧ encodeBody z r.mtime e r.bytes = some bs ∧
      r.mapLen < HTTP_MMAP_MAX ∧ (e = .gzip → check = true → httpCrc32 r.bytes = crc32 r.bytes)
  link : ∀ p target, w.fs p = some (.link target) →
    ∃ (r : FileRequest) (e : HttpEncoding), p.2 = baseName (r.linkfile conf e)
  answered : LastAnswered conf z check w

/-- No link stands behind the name of a cache file. -/
theorem CacheConsistent.zfile_node (hw : CacheConsistent conf z check w) {p : δ × List Char}
    (hp : p.2 = q.zbase conf e) : w.fs p = none ∨ ∃ bs, w.fs p = some (.file bs) := by
  cases hn : w.fs p with
  | none => exact .inl rfl
  | some n =>
    cases n with
    | file bs => exact .inr ⟨bs,rfl⟩
    | link target =>
      obtain ⟨r,e',hlink⟩ := hw.link p target hn
      exact absurd (hp.symm.trans hlink) zbase_ne_linkfile

omit [DecidableEq δ] in
theorem zfile_base {p : δ × List Char} (hp : cacheEntry dirs (q.zfile conf e) = some p) :
    p.2 = q.zbase conf e := by
  rw [cacheEntry_zfile] at hp
  obtain ⟨dir,-,rfl⟩ := Option.map_eq_some_iff.mp hp
  rfl

/-- What the cache has under a name is a file. -/
theorem CacheConsistent.zfile_some {zbytes : List UInt8} (hw : CacheConsistent conf z check w)
    (h : w.fs.resolve dirs (q.zfile conf e) = some zbytes) :
    ∃ p, cacheEntry dirs (q.zfile conf e) = some p ∧ w.fs p = some (.file zbytes) := by
  rw [CacheFs.resolve] at h
  cases hp : cacheEntry dirs (q.zfile conf e) with
  | none =>
    rw [hp] at h
    cases h
  | some p =>
    rw [hp,Option.bind_some] at h
    obtain hnone | ⟨bs,hbs⟩ := hw.zfile_node (zfile_base hp)
    · rw [hnone] at h
      cases h
    · rw [hbs] at h
      cases h
      exact ⟨p,rfl,hbs⟩

theorem CacheConsistent.zfile_none (hw : CacheConsistent conf z check w)
    (h : w.fs.resolve dirs (q.zfile conf e) = none) {p : δ × List Char}
    (hp : cacheEntry dirs (q.zfile conf e) = some p) : w.fs p = none := by
  obtain hnone | ⟨bs,hbs⟩ := hw.zfile_node (zfile_base hp)
  · exact hnone
  · rw [CacheFs.resolve,hp,Option.bind_some,hbs] at h
    cases h

/-- Where directories are as they should be, a name is as free when it is written as when it was looked
up. -/
theorem CacheConsistent.free (hw : CacheConsistent conf z check w) (henv : env.Lawful w.fs) :
    Free conf w.fs q env := by
  intro e hz p hp
  rw [CompressEnv.dirs] at hp
  split at hp
  · exact hw.zfile_none hz hp
  · rw [cacheEntry_zfile] at hp
    obtain ⟨dir,hdir,rfl⟩ := Option.map_eq_some_iff.mp hp
    cases hbefore : env.before ((q.linkfile conf e).rdropWhile (· ≠ '/')) with
    | none => exact henv.made _ _ hbefore hdir _
    | some dir' =>
      have hsame := (henv.stays _ _ hbefore).symm.trans hdir
      cases hsame
      apply hw.zfile_none hz
      rw [cacheEntry_zfile,hbefore]
      rfl

theorem length_bytes_le (q : FileRequest) : q.bytes.length ≤ q.mapLen := by
  have hle := Nat.div_mul_le_self q.lo HTTP_MMAP_MAX
  have hlt := q.lo_lt
  rw [FileRequest.bytes,FileRequest.mapLen,List.length_take]
  omega

/-- From the start of the file on, the window is what was asked for. -/
theorem window_eq_bytes (h : q.lo = 0) : q.window = q.bytes := by
  rw [FileRequest.window,FileRequest.bytes,h,Nat.zero_mod]

theorem mapLen_eq_length (h : q.lo = 0) : q.mapLen = q.bytes.length := by
  have hle := q.hi_le
  rw [FileRequest.mapLen,FileRequest.bytes,h,List.length_take,List.length_drop]
  simp
  omega

/-- An answer from the cache is right exactly where the whole of a text is asked for, the same as by the
request that filled the cache. -/
theorem hit_answered_iff {zbytes : List UInt8} (hw : CacheConsistent conf z check w) (hneed : q.need ≠ 0)
    (he : q.chosen conf = some e) (hz : w.fs.resolve env.before (q.zfile conf e) = some zbytes) :
    Answered δ conf z check q (some (q.answer 0 (some e) zbytes.length zbytes)) ↔ q.lo = 0 ∧
      ∃ r, (cacheEntry env.before (q.zfile conf e)).bind w.writer = some r ∧ r.bytes = q.bytes := by
  obtain ⟨p,hp,hbytes⟩ := hw.zfile_some hz
  have hfile := hw.file p zbytes hbytes
  rw [hp,Option.bind_some]
  constructor
  · intro h
    obtain ⟨_,hdecode,hfresh⟩ := h _ rfl
    have hsame := hfresh env
    rw [handler_empty hneed] at hsame
    constructor
    · have hrange : none = if q.lo > 0 then _ else none := freshAnswer_range hsame
      by_contra hlo
      rw [if_pos (Nat.pos_of_ne_zero hlo)] at hrange
      cases hrange
    · obtain ⟨_,hnil⟩ | ⟨r,e',hr,hname,hout,_,hsum⟩ := hfile
      · have hpos : 0 < zbytes.length := freshAnswer_pos hsame
        rw [hnil] at hpos
        exact absurd hpos (Nat.lt_irrefl 0)
      · obtain ⟨rfl,_⟩ := zbase_inj ((zfile_base hp).symm.trans hname)
        refine ⟨r,hr,?_⟩
        have hr := (decode_encodeBody check hout).1
        rw [if_neg fun hbad => hbad.2.2 (hsum hbad.1 hbad.2.1)] at hr
        exact Option.some.inj (hr.symm.trans hdecode)
  · intro h
    obtain ⟨hlo,r,hr,hbytes⟩ := h
    obtain ⟨hnone,_⟩ | ⟨r',e',hr',hname,hout,hlen,hsum⟩ := hfile
    · rw [hr] at hnone
      cases hnone
    · obtain rfl : r = r' := Option.some.inj (hr.symm.trans hr')
      obtain ⟨rfl,htime⟩ := zbase_inj ((zfile_base hp).symm.trans hname)
      rw [hbytes] at hsum hout
      rw [← htime] at hout
      have hdecode := (decode_encodeBody check hout).1
      rw [if_neg fun hbad => hbad.2.2 (hsum hbad.1 hbad.2.1)] at hdecode
      have hshort : q.mapLen < HTTP_MMAP_MAX := by
        rw [mapLen_eq_length hlo,← hbytes]
        exact lt_of_le_of_lt (length_bytes_le r) hlen
      have hkind : e = .deflate ∨ e = .gzip := by
        cases e with
        | deflate => exact .inl rfl
        | gzip => exact .inr rfl
        | bzip2 => cases hout
        | compress => cases hout
      intro a ha
      rw [← Option.some.inj ha]
      refine ⟨rfl,hdecode,fun env => ?_⟩
      rw [handler_empty hneed,freshAnswer_first hshort (chosen_eq_some.mp he).2 hkind,
        window_eq_bytes hlo,hout,hlo]
      rfl

theorem chosen_zero (hneed : q.need = 0) : q.chosen conf = none := by
  rw [FileRequest.chosen,hneed]
  split <;> rfl

/-- A reply is right exactly where the cache or the file gives what is asked for. -/
theorem reply_answered_iff (hw : CacheConsistent conf z check w) :
    Answered δ conf z check q (compressReply conf z w.fs q env).2 ↔ ServesEncoded conf z check w q env := by
  by_cases hneed : q.need = 0
  · have hchosen : q.chosen conf = none := chosen_zero hneed
    constructor
    · intro _
      constructor
      · intro e _ he
        rw [hchosen] at he
        cases he
      · intro _ e he
        rw [hchosen] at he
        cases he
      · intro _ h
        exact absurd hneed h
    · intro _
      rw [compressReply,if_pos hneed]
      intro a ha
      cases ha
  · obtain ⟨e,zbytes,he,hz⟩ | hmiss := hit_or_misses conf w.fs q env
    · have hno : ¬ Misses conf w.fs q env := fun hmiss => hmiss.absent he hz
      rw [handler_hit hneed he hz,hit_answered_iff hw hneed he hz]
      constructor
      · intro h
        constructor
        · intro e' zbytes' he' hz'
          obtain rfl : e = e' := Option.some.inj (he.symm.trans he')
          exact h
        · intro hmiss
          exact absurd hmiss hno
        · intro hmiss
          exact absurd hmiss hno
      · intro h
        exact h.cached e zbytes he hz
    · rw [handler_miss hneed hmiss,freshAnswer_answered_iff hneed]
      constructor
      · intro h
        constructor
        · intro e zbytes he hz
          exact absurd hz (hmiss.absent he)
        · intro _
          exact h.2.1
        · intro _ _
          exact ⟨h.1,h.2.2⟩
      · intro h
        exact ⟨(h.window hmiss hneed).1,h.encoding hmiss,(h.window hmiss hneed).2⟩

/-- The header of a right reply fits in `buf` exactly where that of the cached or of the compressed bytes
does. -/
theorem reply_header_iff (h : ServesEncoded conf z check w q env) :
    (∀ a ∈ (compressReply conf z w.fs q env).2, (q.header a env.now).length < HTTP_BUF_SIZE) ↔
      (∀ e zbytes, q.chosen conf = some e → w.fs.resolve env.before (q.zfile conf e) = some zbytes →
        HeaderFits q 0 e zbytes env.now) ∧
      (Misses conf w.fs q env → ∀ e out, HttpEncoding.first q.need = some e →
        encodeBody z q.mtime e q.window = some out → HeaderFits q q.lo e out env.now) := by
  by_cases hneed : q.need = 0
  · have hfirst : HttpEncoding.first q.need = none := by
      rw [hneed]
      rfl
    rw [compressReply,if_pos hneed]
    constructor
    · intro _
      refine ⟨fun e zbytes he => ?_,fun _ e out he => ?_⟩
      · rw [chosen_zero hneed] at he
        cases he
      · rw [hfirst] at he
        cases he
    · intro _ a ha
      cases ha
  · obtain ⟨e,zbytes,he,hz⟩ | hmiss := hit_or_misses conf w.fs q env
    · rw [handler_hit hneed he hz]
      constructor
      · intro hfits
        refine ⟨fun e' zbytes' he' hz' => ?_,fun hmiss => ?_⟩
        · obtain rfl : e = e' := Option.some.inj (he.symm.trans he')
          obtain rfl : zbytes = zbytes' := Option.some.inj (hz.symm.trans hz')
          exact hfits _ rfl
        · exact absurd hz (hmiss.absent he)
      · rintro ⟨hcached,-⟩ a ha
        cases ha
        exact hcached e zbytes he hz
    · obtain ⟨hlen,hwindow⟩ := h.window hmiss hneed
      have hfresh : ∀ a, freshAnswer z q (q.chosen conf) = some a ↔ ∃ e out,
          HttpEncoding.first q.need = some e ∧ encodeBody z q.mtime e q.window = some out ∧
            q.answer q.lo (some e) out.length out = a :=
        fun a => freshAnswer_eq_some_iff hlen (h.encoding hmiss)
      rw [handler_miss hneed hmiss]
      constructor
      · intro hfits
        refine ⟨fun e zbytes he hz => absurd hz (hmiss.absent he),fun _ e out he hout => ?_⟩
        exact hfits _ ((hfresh _).mpr ⟨e,out,he,hout,rfl⟩)
      · rintro ⟨-,hheader⟩ a ha
        obtain ⟨e,out,he,hout,rfl⟩ := (hfresh a).mp ha
        exact hheader hmiss e out he hout

/-- A request is answered right exactly where it is answerable. -/
theorem handler_answered_iff (hw : CacheConsistent conf z check w) :
    (∃ r, xhttpdCompressHandler conf z w.fs q env = some r ∧ Answered δ conf z check q r.2) ↔
      Answerable conf z check w (q,env) := by
  rw [xhttpdCompressHandler]
  constructor
  · rintro ⟨r,hr,hanswered⟩
    split_ifs at hr with hfits
    cases hr
    have hserved := (reply_answered_iff hw).mp hanswered
    obtain ⟨hcached,hheader⟩ := (reply_header_iff hserved).mp hfits.2
    exact ⟨hserved,hfits.1,hcached,hheader⟩
  · intro h
    have hheader := (reply_header_iff h.served).mpr ⟨h.cachedHeader,h.header⟩
    exact ⟨_,if_pos ⟨h.names,hheader⟩,(reply_answered_iff hw).mpr h.served⟩

/-- A world behind a request whose texts fit in their arrays. -/
theorem compressStep_some {r : CacheFs δ × Option CompressedAnswer}
    (h : xhttpdCompressHandler conf z w.fs q env = some r) :
    (compressStep conf z w (q,env)).fs = (compressReply conf z w.fs q env).1 ∧
      (compressStep conf z w (q,env)).last = some (q,(compressReply conf z w.fs q env).2) ∧
      (compressStep conf z w (q,env)).overrun = w.overrun := by
  have hr : r = compressReply conf z w.fs q env := by
    rw [xhttpdCompressHandler] at h
    split_ifs at h
    exact (Option.some.inj h).symm
  rw [compressStep,h,hr]
  exact ⟨rfl,rfl,rfl⟩

/-- An answerable request keeps the cache consistent. -/
theorem consistent_step (hw : CacheConsistent conf z check w) (henv : env.Lawful w.fs)
    (h : Answerable conf z check w (q,env)) :
    CacheConsistent conf z check (compressStep conf z w (q,env)) := by
  obtain ⟨r,hr,hanswered⟩ := (handler_answered_iff hw).mpr h
  obtain ⟨hfs,hlast,hoverrun⟩ := compressStep_some hr
  have hfree : Free conf w.fs q env := hw.free henv
  constructor
  · intro p bs hp
    rw [hfs] at hp
    obtain hold | ⟨e,out,he,hz,hout,hlen,⟨hnone,hbase,hn⟩ | ⟨_,hn⟩⟩ := mem_handler hfree hp
    · have hwriter : (compressStep conf z w (q,env)).writer p = w.writer p := by
        rw [compressStep,hr]
        dsimp only
        rw [hold]
      rw [hwriter]
      exact hw.file p bs hold
    · have hmiss : Misses conf w.fs q env := misses_of_chosen he hz
      have hwriter : (compressStep conf z w (q,env)).writer p = if bs = [] then none else some q := by
        rw [← hfs] at hp
        rw [compressStep,hr] at hp ⊢
        dsimp only at hp ⊢
        rw [hnone,hp]
        cases bs <;> rfl
      have hneed : q.need ≠ 0 := by
        intro hzero
        rw [chosen_zero hzero] at he
        cases he
      obtain ⟨hbytes,hsum⟩ := (h.served.window hmiss hneed).2 e (chosen_eq_some.mp he).2 (by simp [hout])
      rw [hwriter]
      by_cases hnil : bs = []
      · exact .inl ⟨if_pos hnil,hnil⟩
      · have hbs : bs = out := by
          obtain hn | hn := hn
          · exact CacheNode.file.inj hn
          · exact absurd (CacheNode.file.inj hn) hnil
        refine .inr ⟨q,e,if_neg hnil,hbase,?_,hlen,hsum⟩
        rw [← hbytes,hbs]
        exact hout
    · cases hn
  · intro p target hp
    rw [hfs] at hp
    obtain hold | ⟨e,out,_,_,_,_,⟨_,_,hn⟩ | ⟨hlink,_⟩⟩ := mem_handler hfree hp
    · exact hw.link p target hold
    · obtain hn | hn := hn
      · cases hn
      · cases hn
    · exact ⟨q,e,hlink⟩
  · refine ⟨hoverrun.trans hw.answered.1,fun q' answer hq => ?_⟩
    rw [hlast] at hq
    obtain ⟨rfl,rfl⟩ := Prod.mk.inj (Option.some.inj hq)
    exact (reply_answered_iff hw).mpr h.served

/-- A request that is not answerable is not answered as it should be. -/
theorem not_answered_step (hw : CacheConsistent conf z check w) (h : ¬ Answerable conf z check w (q,env)) :
    ¬ LastAnswered conf z check (compressStep conf z w (q,env)) := by
  rintro ⟨hoverrun,hlast⟩
  apply h
  rw [← handler_answered_iff hw]
  cases hr : xhttpdCompressHandler conf z w.fs q env with
  | none =>
    rw [compressStep,hr] at hoverrun
    cases hoverrun
  | some r =>
    refine ⟨r,rfl,hlast q r.2 ?_⟩
    rw [compressStep,hr]

theorem consistent_init : CacheConsistent conf z check (compressInit : CompressWorld δ) := by
  constructor
  · intro p bs h
    cases h
  · intro p target h
    cases h
  · refine ⟨rfl,fun q answer h => ?_⟩
    cases h

end

/-- Compressors that store a text as it is. -/
def storing : Codec where
  deflate := fun _ s => some s
  inflate := some
  bzCompress := some
  bzDecompress := some
  inflate_deflate := fun _ _ _ h => h.symm
  bzDecompress_bzCompress := fun _ _ h => h.symm

/-- The whole of a file of five bytes for a client that accepts the encodings `need`. -/
def helloRequest (need : ℕ) : FileRequest where
  host := "a".toList
  root := "/f".toList
  mimeid := 0
  connection := none
  need := need
  mtime := 1
  content := [104,101,108,108,111]
  lo := 0
  hi := 5
  lo_lt := by decide
  hi_le := by decide

/-- A file system with a single directory, at the time 1. -/
def flatEnv : CompressEnv Unit := ⟨fun _ => some (),fun _ => some (),[],1⟩

end Sbase
