import Mathlib.Data.List.DropRight
import Sbase.Xhttpd.Path

/-! The names of `xhttpd`: extensions of files and names of virtual hosts are looked up in one trie, and
what is found there is an index into two tables. -/
namespace Sbase
open Memory

def HTTP_MIME_NUM : ℕ := 99
def HTTP_VHOST_MAX : ℕ := 256
def HEAD_REQ_HOST : ℕ := 22

/-- `HTTP_ELEMENT`, as an entry of `http_mime_types`. -/
structure HttpMimeType where
  elen : ℕ
  e : String
  s : String

def httpMimeTypes : List HttpMimeType :=
  [⟨4,"html","text/html"⟩, ⟨3,"htm","text/html"⟩, ⟨5,"shtml","text/html"⟩, ⟨3,"css","text/css"⟩,
   ⟨3,"xml","text/xml"⟩, ⟨3,"gif","image/gif"⟩, ⟨4,"jpeg","image/jpeg"⟩, ⟨3,"jpg","image/jpeg"⟩,
   ⟨2,"js","application/x-javascript"⟩, ⟨4,"atom","application/atom+xml"⟩,
   ⟨3,"rss","application/rss+xml"⟩, ⟨3,"mml","text/mathml"⟩, ⟨3,"txt","text/plain"⟩,
   ⟨3,"jad","text/vnd.sun.j2me.app-descriptor"⟩, ⟨3,"wml","text/vnd.wap.wml"⟩,
   ⟨3,"htc","text/x-component"⟩, ⟨3,"png","image/png"⟩, ⟨3,"tif","image/tiff"⟩,
   ⟨4,"tiff","image/tiff"⟩, ⟨4,"wbmp","image/vnd.wap.wbmp"⟩, ⟨3,"ico","image/x-icon"⟩,
   ⟨3,"jng","image/x-jng"⟩, ⟨3,"bmp","image/x-ms-bmp"⟩, ⟨3,"svg","image/svg+xml"⟩,
   ⟨3,"jar","application/java-archive"⟩, ⟨3,"war","application/java-archive"⟩,
   ⟨3,"ear","application/java-archive"⟩, ⟨3,"hqx","application/mac-binhex40"⟩,
   ⟨3,"doc","application/msterm"⟩, ⟨3,"pdf","application/pdf"⟩, ⟨2,"ps","application/postscript"⟩,
   ⟨3,"eps","application/postscript"⟩, ⟨2,"ai","application/postscript"⟩,
   ⟨3,"rtf","application/rtf"⟩, ⟨3,"xls","application/vnd.ms-excel"⟩,
   ⟨3,"ppt","application/vnd.ms-powerpoint"⟩, ⟨4,"wmlc","application/vnd.wap.wmlc"⟩,
   ⟨5,"xhtml","application/vnd.wap.xhtml+xml"⟩, ⟨3,"kml","application/vnd.google-earth.kml+xml"⟩,
   ⟨3,"kmz","application/vnd.google-earth.kmz"⟩, ⟨3,"cco","application/x-cocoa"⟩,
   ⟨7,"jardiff","application/x-java-archive-diff"⟩, ⟨4,"jnlp","application/x-java-jnlp-file"⟩,
   ⟨3,"run","application/x-makeself"⟩, ⟨2,"pl","application/x-perl"⟩,
   ⟨2,"pm","application/x-perl"⟩, ⟨3,"prc","application/x-pilot"⟩, ⟨3,"pdb","application/x-pilot"⟩,
   ⟨3,"rar","application/x-rar-compressed"⟩, ⟨3,"rpm","application/x-redhat-package-manager"⟩,
   ⟨3,"sea","application/x-sea"⟩, ⟨3,"swf","application/x-shockwave-flash"⟩,
   ⟨3,"sit","application/x-stuffit"⟩, ⟨3,"tcl","application/x-tcl"⟩, ⟨2,"tk","application/x-tcl"⟩,
   ⟨3,"der","application/x-x509-ca-cert"⟩, ⟨3,"pem","application/x-x509-ca-cert"⟩,
   ⟨3,"crt","application/x-x509-ca-cert"⟩, ⟨3,"xpi","application/x-xpinstall"⟩,
   ⟨3,"zip","application/zip"⟩, ⟨3,"bin","application/octet-stream"⟩,
   ⟨3,"exe","application/octet-stream"⟩, ⟨3,"dll","application/octet-stream"⟩,
   ⟨3,"deb","application/octet-stream"⟩, ⟨3,"dmg","application/octet-stream"⟩,
   ⟨3,"eot","application/octet-stream"⟩, ⟨3,"img","application/octet-stream"⟩,
   ⟨3,"iso","application/octet-stream"⟩, ⟨3,"msi","application/octet-stream"⟩,
   ⟨3,"msp","application/octet-stream"⟩, ⟨3,"msm","application/octet-stream"⟩,
   ⟨3,"mid","audio/midi"⟩, ⟨4,"midi","audio/midi"⟩, ⟨3,"kar","audio/midi"⟩, ⟨3,"mp3","audio/mpeg"⟩,
   ⟨2,"ra","audio/x-realaudio"⟩, ⟨4,"3gpp","video/3gpp"⟩, ⟨3,"3gp","video/3gpp"⟩,
   ⟨4,"mpeg","video/mpeg"⟩, ⟨3,"mpg","video/mpeg"⟩, ⟨3,"mov","video/quicktime"⟩,
   ⟨3,"flv","video/x-flv"⟩, ⟨3,"mng","video/x-mng"⟩, ⟨3,"asx","video/x-ms-asf"⟩,
   ⟨3,"asf","video/x-ms-asf"⟩, ⟨3,"wmv","video/x-ms-wmv"⟩, ⟨3,"avi","video/x-msvideo"⟩,
   ⟨3,"dmg","application/octet-stream"⟩, ⟨3,"php","text/plain"⟩, ⟨2,"am","text/plain"⟩,
   ⟨2,"in","text/plain"⟩, ⟨3,"cpp","text/plain"⟩, ⟨1,"c","text/plain"⟩, ⟨1,"h","text/plain"⟩,
   ⟨2,"m4","text/plain"⟩, ⟨2,"sh","text/plain"⟩, ⟨5,"guess","text/plain"⟩, ⟨3,"sub","text/plain"⟩,
   ⟨3,"awk","text/plain"⟩]

/-- `HTTP_VHOST` -/
structure HttpVhost where
  name : List UInt8
  home : List UInt8

/-! ### Registration -/

/-- The two kinds of names. -/
inductive NameKind
  | mime
  | vhost
deriving DecidableEq

/-- The size of the table that a kind of name indexes. -/
def NameKind.size : NameKind → ℕ
  | mime => HTTP_MIME_NUM
  | vhost => HTTP_VHOST_MAX

/-- A name that is registered for an entry of a table. -/
structure NameEntry where
  kind : NameKind
  index : ℕ
  name : List UInt8
  inTable : index < kind.size
  named : name ≠ []

/-- The calls of `mtrie_add` for names, in order. -/
def registerNames (t : Mtrie) (es : List NameEntry) : Mtrie :=
  es.foldl (fun t e => (mtrieAdd t e.name (e.index + 1)).1) t

/-- The names of a table from the index `i` on; an empty name is not registered. -/
def tableNames (kind : NameKind) (i : ℕ) : List (List UInt8) → List NameEntry
  | [] => []
  | name::names =>
    if h : i < kind.size ∧ name ≠ [] then
      ⟨kind,i,name,h.1,h.2⟩::tableNames kind (i + 1) names
    else tableNames kind (i + 1) names

/-- What is registered for a list of virtual hosts: all the extensions, and then the hosts. -/
def configNames (vhosts : List HttpVhost) : List NameEntry :=
  tableNames .mime 0 (httpMimeTypes.map fun m => (ascii m.e).take m.elen) ++
    tableNames .vhost 0 (vhosts.map HttpVhost.name)

/-- `namemap` -/
def namemapInit (vhosts : List HttpVhost) : Mtrie := registerNames mtrieInit (configNames vhosts)

/-! ### Lookup -/

/-- `mtrie_get(namemap, key, n) - 1`, where it is not negative. -/
def lookupName (namemap : Mtrie) (key : List UInt8) : Option ℕ :=
  let i := mtrieGet namemap key - 1
  if 0 ≤ i then some i.toNat else none

/-- The name of the host that a request is for: in lower case, without `www.` and without its port. -/
def hostName (req : HttpReq) : Option (List UInt8) :=
  let n := req.headers HEAD_REQ_HOST
  if 0 < n then
    let p := cstr req.hlines n (HTTP_HEADER_MAX - n)
    let host := if (p.take 4).map lower = ascii "www." then p.drop 4 else p
    some ((host.takeWhile fun c => c ≠ 58).map lower)
  else none

/-- The index into `httpd_vhosts` that the `Host` header of a request selects. -/
def vhostIndex (namemap : Mtrie) (req : HttpReq) : Option ℕ := (hostName req).bind (lookupName namemap)

/-- The home directory of the virtual host, or of the server. -/
def vhostHome (httpdHome : List UInt8) (vhosts : List HttpVhost) (i : Option ℕ) : List UInt8 :=
  ((i.bind fun i => vhosts[i]?).map HttpVhost.home).getD httpdHome

/-- The extension of a file, in lower case: what follows the last dot, which is looked for down to the
first byte of the name and up to the size of `line`. -/
def mimeExtension (file : List UInt8) : List UInt8 :=
  let mime := file.tail.rtakeWhile fun c => c ≠ 46 ∧ c ≠ 47
  let rest := file.take (file.length - mime.length)
  if rest.getLast? = some 46 ∧ mime.length < HTTP_PATH_MAX - 1 then mime.map lower else []

/-- The index into `http_mime_types` that the name of a file selects. -/
def mimeIndex (namemap : Mtrie) (file : List UInt8) : Option ℕ :=
  let mime := mimeExtension file
  if 0 < mime.length then lookupName namemap mime else none

/-- The type in the header `Content-Type`. -/
def contentType (mimeid : Option ℕ) (nmime : ℕ) : String :=
  match mimeid.bind fun i => httpMimeTypes[i]? with
  | some m => m.s
  | none => if 0 < nmime then "application/octet-stream" else "text/plain"

/-! ### The map that the trie stands for -/

variable {t : Mtrie} {a : KeyMap} {es : List NameEntry} {kind : NameKind} {key : List UInt8}

/-- The entry that is kept for a name: the first that is registered under it. -/
def keptEntry (es : List NameEntry) (key : List UInt8) : Option NameEntry := es.find? fun e => e.name = key

theorem mtrieAdd_mapped (h : Mapped t a) (e : NameEntry) :
    Mapped (mtrieAdd t e.name (e.index + 1)).1 ((MapOp.add e.name (e.index + 1)).serve a).1 := by
  have hproper : (MapOp.add e.name (e.index + 1)).Proper := ⟨e.named,by omega⟩
  refine (h.serve hproper ?_).2
  rintro ⟨c,hsought,-⟩
  cases hsought

theorem serve_add_value (a : KeyMap) (name : List UInt8) (data : ℤ) (key : List UInt8) :
    ((MapOp.add name data).serve a).1.value key =
      if a.value key = 0 then if name = key then data else 0 else a.value key := by
  rw [MapOp.serve]
  by_cases hname : a.value name = 0
  · rw [if_pos hname]
    dsimp only
    rw [Function.update_apply]
    by_cases heq : key = name
    · subst heq
      rw [if_pos rfl,if_pos hname,if_pos rfl]
    · rw [if_neg heq,if_neg (Ne.symm heq)]
      split_ifs with hkey
      · exact hkey
      · rfl
  · rw [if_neg hname]
    split_ifs with hkey heq
    · exact absurd (heq ▸ hkey) hname
    · exact hkey
    · rfl

theorem keptEntry_cons (e : NameEntry) (es : List NameEntry) (key : List UInt8) :
    keptEntry (e::es) key = if e.name = key then some e else keptEntry es key := by
  rw [keptEntry,List.find?_cons]
  split_ifs with h
  · simp [h]
  · simp [h,keptEntry]

/-- A name keeps the value that it has, and gets the first one that it is registered with. -/
theorem registerNames_mapped (h : Mapped t a) (es : List NameEntry) :
    ∃ b, Mapped (registerNames t es) b ∧ ∀ key, b.value key =
      if a.value key = 0 then (keptEntry es key).elim 0 fun e => (e.index : ℤ) + 1 else a.value key := by
  induction es generalizing t a with
  | nil =>
    refine ⟨a,h,fun key => ?_⟩
    split_ifs with hzero
    · exact hzero
    · rfl
  | cons e es ih =>
    obtain ⟨b,hb,hvalue⟩ := ih (mtrieAdd_mapped h e)
    refine ⟨b,hb,fun key => ?_⟩
    have hpos : (e.index : ℤ) + 1 ≠ 0 := by omega
    rw [hvalue,serve_add_value,keptEntry_cons]
    by_cases hkey : a.value key = 0
    · by_cases hname : e.name = key
      · simp [hkey,hname,hpos]
      · simp [hkey,hname]
    · simp [hkey]

theorem keptEntry_nil (es : List NameEntry) : keptEntry es [] = none := by
  rw [keptEntry,List.find?_eq_none]
  intro e _
  simp [e.named]

/-- What a name without a zero byte selects: the index of the entry that is kept for it. -/
theorem lookupName_eq (es : List NameEntry) (hkey : 0 ∉ key) :
    lookupName (registerNames mtrieInit es) key = (keptEntry es key).map NameEntry.index := by
  obtain ⟨b,hb,hvalue⟩ := registerNames_mapped mtrieInit_mapped es
  rw [lookupName]
  by_cases hnil : key = []
  · subst hnil
    rw [keptEntry_nil]
    rfl
  · have hleaf : ¬ (MapOp.get key).MeetsLeaf (registerNames mtrieInit es) := by
      rintro ⟨c,hsought,-⟩
      rw [MapOp.sought,Option.some.injEq] at hsought
      simp [hsought] at hkey
    rw [hb.get hnil hleaf,hvalue,if_pos rfl]
    cases keptEntry es key with
    | none => rfl
    | some e => simp

/-! ### Separation -/

theorem lower_ne_zero {c : UInt8} (hc : c ≠ 0) : lower c ≠ 0 := by
  rw [lower]
  split_ifs with h
  · obtain ⟨hlo,hhi⟩ := h
    simp only [UInt8.le_iff_toNat_le,UInt8.toNat_ofNat] at hlo hhi
    intro hzero
    have hnat := congrArg UInt8.toNat hzero
    rw [UInt8.toNat_add] at hnat
    simp only [UInt8.toNat_ofNat] at hnat
    omega
  · exact hc

theorem lower_no_zero {cs : List UInt8} (h : 0 ∉ cs) : 0 ∉ cs.map lower := by
  intro hmem
  obtain ⟨c,hc,hzero⟩ := List.mem_map.1 hmem
  exact lower_ne_zero (fun hc' => h (hc' ▸ hc)) hzero

theorem cstr_no_zero (b : Block UInt8) (off fuel : ℕ) : 0 ∉ cstr b off fuel := by
  induction fuel generalizing off with
  | zero => simp [cstr]
  | succ fuel ih =>
    rw [cstr]
    split_ifs with hb
    · simp
    · rw [List.mem_cons]
      rintro (hzero | hmem)
      · exact hb hzero.symm
      · exact ih _ hmem

theorem hostName_no_zero {req : HttpReq} {host : List UInt8} (h : hostName req = some host) :
    0 ∉ host := by
  rw [hostName] at h
  split_ifs at h with hn
  rw [Option.some.injEq] at h
  subst h
  apply lower_no_zero
  intro hmem
  have hmem := (List.takeWhile_subset _) hmem
  split_ifs at hmem with hwww
  · exact cstr_no_zero _ _ _ (List.mem_of_mem_drop hmem)
  · exact cstr_no_zero _ _ _ hmem

theorem mimeExtension_no_zero {file : List UInt8} (h : 0 ∉ file) : 0 ∉ mimeExtension file := by
  rw [mimeExtension]
  split_ifs with hdot
  · apply lower_no_zero
    intro hmem
    exact h (List.mem_of_mem_tail ((List.rtakeWhile_suffix _ _).mem hmem))
  · simp

/-- An index was found for a name: it lies in the table of its kind, whose entry has that name. -/
def NamesEntry (es : List NameEntry) (kind : NameKind) (key : List UInt8) (i : ℕ) : Prop :=
  i < kind.size ∧ ∃ e ∈ es, e.kind = kind ∧ e.index = i ∧ e.name = key

/-- What a request selects by its host and by the name of its file. -/
structure NamesApart (es : List NameEntry) (req : HttpReq) (file : List UInt8) : Prop where
  vhost : ∀ i, vhostIndex (registerNames mtrieInit es) req = some i →
    ∃ host, hostName req = some host ∧ NamesEntry es .vhost host i
  mime : ∀ i, mimeIndex (registerNames mtrieInit es) file = some i →
    NamesEntry es .mime (mimeExtension file) i

variable {req : HttpReq} {file : List UInt8}

/-- A host that no virtual host is named by is served from the home directory of the server. -/
theorem NamesApart.default_home (h : NamesApart es req file)
    (hnone : ∀ host, hostName req = some host → ∀ e ∈ es, e.kind = .vhost → e.name ≠ host)
    (httpdHome : List UInt8) (vhosts : List HttpVhost) :
    vhostHome httpdHome vhosts (vhostIndex (registerNames mtrieInit es) req) = httpdHome := by
  cases hindex : vhostIndex (registerNames mtrieInit es) req with
  | none => rfl
  | some i =>
    obtain ⟨host,hhost,-,e,hmem,hkind,-,hname⟩ := h.vhost i hindex
    exact absurd hname (hnone host hhost e hmem hkind)

/-- A file whose extension is not registered has a default type. -/
theorem NamesApart.default_type (h : NamesApart es req file)
    (hnone : ∀ e ∈ es, e.kind = .mime → e.name ≠ mimeExtension file) :
    contentType (mimeIndex (registerNames mtrieInit es) file) (mimeExtension file).length =
      if 0 < (mimeExtension file).length then "application/octet-stream" else "text/plain" := by
  cases hindex : mimeIndex (registerNames mtrieInit es) file with
  | none => rfl
  | some i =>
    obtain ⟨-,e,hmem,hkind,-,hname⟩ := h.mime i hindex
    exact absurd hname (hnone e hmem hkind)

/-- The first entry under a name is of the other kind, and the name does not have the same index among
its own. -/
def NameClash (es : List NameEntry) (kind : NameKind) (key : List UInt8) : Prop :=
  ∃ e, keptEntry es key = some e ∧ e.kind ≠ kind ∧
    ∀ e' ∈ es, e'.kind = kind → e'.name = key → e'.index ≠ e.index

theorem keptEntry_some {e : NameEntry} (h : keptEntry es key = some e) : e ∈ es ∧ e.name = key := by
  refine ⟨List.mem_of_find?_eq_some h,?_⟩
  have hname := List.find?_some h
  exact of_decide_eq_true hname

theorem names_entry_iff (es : List NameEntry) (kind : NameKind) (hkey : 0 ∉ key) :
    (∀ i, lookupName (registerNames mtrieInit es) key = some i → NamesEntry es kind key i) ↔
      ¬ NameClash es kind key := by
  rw [lookupName_eq es hkey]
  constructor
  · rintro h ⟨e,he,-,hne⟩
    obtain ⟨-,e',hmem,hkind,hindex,hname⟩ := h e.index (by rw [he,Option.map_some])
    exact hne e' hmem hkind hname hindex
  · intro hclash i hi
    obtain ⟨e,he,rfl⟩ := Option.map_eq_some_iff.1 hi
    obtain ⟨hmem,hname⟩ := keptEntry_some he
    by_cases hkind : e.kind = kind
    · subst hkind
      exact ⟨e.inTable,e,hmem,rfl,rfl,hname⟩
    · rw [NameClash] at hclash
      push Not at hclash
      obtain ⟨e',hmem',rfl,hname',hindex⟩ := hclash e he hkind
      rw [← hindex]
      exact ⟨e'.inTable,e',hmem',rfl,rfl,hname'⟩

/-- For any names registered in any order, the host of a request selects a virtual host of that name
and an extension its own type exactly when neither is kept in the trie for an entry of the other kind,
under an index that is not its own as well. -/
theorem namemap_apart_iff (es : List NameEntry) (req : HttpReq) {file : List UInt8} (hfile : 0 ∉ file) :
    NamesApart es req file ↔
      (∀ host, hostName req = some host → ¬ NameClash es .vhost host) ∧
        ¬ NameClash es .mime (mimeExtension file) := by
  have hmime : (∀ i, mimeIndex (registerNames mtrieInit es) file = some i →
      NamesEntry es .mime (mimeExtension file) i) ↔ ¬ NameClash es .mime (mimeExtension file) := by
    rw [← names_entry_iff es .mime (mimeExtension_no_zero hfile),mimeIndex]
    split_ifs with hpos
    · rfl
    · have hnil : mimeExtension file = [] := List.eq_nil_of_length_eq_zero (by omega)
      rw [hnil,lookupName_eq es (by simp),keptEntry_nil]
      simp
  rw [← hmime]
  constructor
  · intro h
    refine ⟨fun host hhost => ?_,h.mime⟩
    rw [← names_entry_iff es .vhost (hostName_no_zero hhost)]
    intro i hi
    obtain ⟨host',hhost',hentry⟩ := h.vhost i (by rw [vhostIndex,hhost,Option.bind_some,hi])
    rw [hhost,Option.some.injEq] at hhost'
    rwa [hhost']
  · rintro ⟨hvhost,hmime⟩
    refine ⟨fun i hi => ?_,hmime⟩
    obtain ⟨host,hhost,hlook⟩ := Option.bind_eq_some_iff.1 hi
    have hclash := (names_entry_iff es .vhost (hostName_no_zero hhost)).mpr (hvhost host hhost)
    exact ⟨host,hhost,hclash i hlook⟩

/-- One virtual host beside the extensions. -/
def exampleNames : List NameEntry := configNames [⟨ascii "example.com",ascii "/srv"⟩]

/-- A request with a `Host` header. -/
def hostRequest (host : List UInt8) : HttpReq :=
  { HttpReq.zero with
    headers := fun h => if h = HEAD_REQ_HOST then 1 else 0
    hlines := fun i => ((0::host)[i]?).getD 0 }

theorem exampleNames_com : (keptEntry exampleNames (ascii "example.com")).map NameEntry.kind = some .vhost := by
  decide +kernel

theorem exampleNames_html : (keptEntry exampleNames (ascii "html")).map (fun e => (e.kind,e.index)) =
    some (.mime,0) := by
  decide +kernel

theorem namemap_apart_example :
    NamesApart exampleNames (hostRequest (ascii "WWW.Example.com:80")) (ascii "/srv/index.html") := by
  have hhost : hostName (hostRequest (ascii "WWW.Example.com:80")) = some (ascii "example.com") := by
    decide +kernel
  have hmime : mimeExtension (ascii "/srv/index.html") = ascii "html" := by decide +kernel
  apply (namemap_apart_iff exampleNames _ (by decide +kernel)).mpr
  rw [hmime]
  refine ⟨?_,?_⟩
  · rintro host heq ⟨e,he,hkind,-⟩
    rw [hhost,Option.some.injEq] at heq
    have hcom := exampleNames_com
    rw [heq,he,Option.map_some,Option.some.injEq] at hcom
    exact hkind hcom
  · rintro ⟨e,he,hkind,-⟩
    have hhtml := exampleNames_html
    rw [he,Option.map_some,Option.some.injEq,Prod.mk.injEq] at hhtml
    exact hkind hhtml.1

/-- The host "html" selects the first virtual host, whatever its name is. -/
theorem namemap_host_html :
    ¬ NamesApart exampleNames (hostRequest (ascii "html")) (ascii "/srv/index.html") := by
  have hhost : hostName (hostRequest (ascii "html")) = some (ascii "html") := by decide +kernel
  have hnone : ∀ e ∈ exampleNames, e.kind = .vhost → e.name ≠ ascii "html" := by decide +kernel
  have hkept : (keptEntry exampleNames (ascii "html")).map NameEntry.index = some 0 := by decide +kernel
  intro h
  have hindex : vhostIndex (registerNames mtrieInit exampleNames) (hostRequest (ascii "html")) =
      some 0 := by
    rw [vhostIndex,hhost,Option.bind_some,lookupName_eq exampleNames (by decide +kernel),hkept]
  obtain ⟨host,heq,-,e,hmem,hkind,-,hname⟩ := h.vhost 0 hindex
  rw [hhost,Option.some.injEq] at heq
  exact hnone e hmem hkind (hname.trans heq.symm)

end Sbase
