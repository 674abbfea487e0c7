import Sbase.Http.RequestBounds
import Sbase.Lib.Paths

/-! The names of files that `xhttpd_packet_handler` builds for a `GET`.

The path of the request is appended to the home directory, and the name of an index to the name of a
directory, all in the array `file`. -/
namespace Sbase
open Memory Paths

def HTTP_PATH_MAX : ℕ := 1024
def HTTP_GET : ℤ := 1

/-- What `stat` tells of a file. -/
structure FileStat where
  isDir : Bool
  size : ℤ
  mtime : ℤ

/-- What the handler meets besides the request: the answers to its calls by the names they are made
with, the time after `If-Modified-Since`, and the text that lies in `file` behind a slash that no zero
follows. -/
structure FileEnv where
  stat : List UInt8 → Option FileStat
  opendir : List UInt8 → Bool
  access : List UInt8 → Bool
  since : Option ℤ
  behind : List UInt8

/-- The settings that matter for a directory. -/
structure IndexConf where
  indexes : List (List UInt8)
  indexesView : Bool

inductive PathReply
  | notFound
  | noContent
  | notModified
  | view (dir : List UInt8)
  | file (name : List UInt8)
  | otherMethod
  deriving DecidableEq

/-- A run of the handler: the names that it writes to `file`, those that it opens as directories on the
way, and the reply. -/
structure FileRun where
  written : List (List UInt8)
  opened : List (List UInt8)
  reply : PathReply

/-- `home` with the path behind it. -/
def fileName (home path : List UInt8) : List UInt8 :=
  home ++ if path.headD 0 = 47 then path else 47::path

/-- `if(p > file && *(p-1) != '/') *p++ = '/'` -/
def dirName (file : List UInt8) : List UInt8 :=
  if file.getLast? = some 47 then file else file ++ [47]

/-- The loop over the names of indexes: the names it writes, and the first that there is a file for. -/
def httpIndex (env : FileEnv) (dir : List UInt8) :
    List (List UInt8) → List (List UInt8) × Option (List UInt8 × FileStat)
  | [] => ([],none)
  | i::is =>
    let name := dir ++ i
    match (if env.access name then env.stat name else none) with
    | some st => ([name],some (name,st))
    | none => (name::(httpIndex env dir is).1,(httpIndex env dir is).2)

/-- The reply with a file. -/
def serveFile (env : FileEnv) (name : List UInt8) (st : FileStat) : PathReply :=
  if st.size = 0 then .noContent
  else if env.since = some st.mtime then .notModified
  else .file name

/-- What `file` holds when no index was found: the last name that was tried. -/
def triedName (conf : IndexConf) (env : FileEnv) (file : List UInt8) : List UInt8 :=
  match conf.indexes.getLast? with
  | some i => dirName file ++ i
  | none => if file.getLast? = some 47 then file else dirName file ++ env.behind

/-- A `GET` for a path in a home directory. -/
def httpGet (conf : IndexConf) (env : FileEnv) (home path : List UInt8) : FileRun :=
  let file := fileName home path
  match env.stat file with
  | none => ⟨[file],[],.notFound⟩
  | some st =>
    let opened := if st.isDir then [] else [file]
    if st.isDir ∨ env.opendir file then
      let r := httpIndex env (dirName file) conf.indexes
      match r.2 with
      | some (name,st) => ⟨file::r.1,opened,serveFile env name st⟩
      | none =>
        if conf.indexesView then
          ⟨dirName file::file::r.1,dirName file::opened,
            if env.opendir (dirName file) then .view (dirName file) else .notFound⟩
        else ⟨triedName conf env file::file::r.1,opened,serveFile env (triedName conf env file) st⟩
    else ⟨[file],opened,serveFile env file st⟩

/-- The handler for a packet, with the home directory of the vhost or of the server. -/
def xhttpdPacketHandler (conf : IndexConf) (env : FileEnv) (home p : List UInt8) (last : UInt8) :
    Except HttpFault FileRun := do
  let (req,ret) ← httpRequestParse httpHeadersMapInit p last .zero
  if ret = -1 then .ok ⟨[],[],.notFound⟩
  else if req.reqid = HTTP_GET then .ok (httpGet conf env home (cstr req.path 0 HTTP_URL_PATH_MAX))
  else .ok ⟨[],[],.otherMethod⟩

/-! ### Confinement -/

/-- A name denotes a place in the home directory when `.` and `..` are taken out of both. -/
def InHome (cwd : List (List UInt8)) (home name : List UInt8) : Prop :=
  resolve 47 46 cwd home <+: resolve 47 46 cwd name

instance (cwd : List (List UInt8)) (home name : List UInt8) : Decidable (InHome cwd home name) :=
  inferInstanceAs (Decidable (_ <+: _))

/-- The names that are listed or pushed to the client. -/
def PathReply.names : PathReply → List (List UInt8)
  | view dir => [dir]
  | file name => [name]
  | _ => []

/-- All names fit in `file`, and those that are opened, listed or pushed lie in the home directory. -/
structure Confined (cwd : List (List UInt8)) (home : List UInt8) (run : FileRun) : Prop where
  fits : ∀ name ∈ run.written, name.length < HTTP_PATH_MAX
  inside : ∀ name ∈ run.opened ++ run.reply.names, InHome cwd home name

/-- What may be appended to the name of a directory that is listed or searched for an index. -/
def IndexConf.tails (conf : IndexConf) : List (List UInt8) :=
  if conf.indexesView then []::conf.indexes else conf.indexes

/-- A path that ends with a slash, which may be the one behind the home directory. -/
def EndsWithSlash (path : List UInt8) : Prop := path = [] ∨ path.getLast? = some 47

instance (path : List UInt8) : Decidable (EndsWithSlash path) := inferInstanceAs (Decidable (_ ∨ _))

/-- The length of a path behind the home directory. -/
def slashedLength (path : List UInt8) : ℕ := if path.headD 0 = 47 then path.length else path.length + 1

/-- The condition on the path of a request: the home directory, the path and what may follow it are
shorter than the array, the path comes back by the names by which it leaves the home directory, if it
does, with what may follow it too, and it ends with a slash where nothing may follow. -/
structure PathStays (cwd : List (List UInt8)) (conf : IndexConf) (home path : List UInt8) : Prop where
  fits : home.length + slashedLength path < HTTP_PATH_MAX
  stays : Returns (resolve 47 46 cwd home) (segs 47 46 path)
  tail_fits : ∀ t ∈ conf.tails, home.length + slashedLength path +
    (if EndsWithSlash path then 0 else 1) + t.length < HTTP_PATH_MAX
  tail_stays : ∀ t ∈ conf.tails, Returns (resolve 47 46 cwd home) (segs 47 46 path ++ segs 47 46 t)
  ends : conf.tails = [] → EndsWithSlash path

/-! ### The text of the names -/

/-- The name of a file as the home directory, a slash and the rest. -/
theorem fileName_eq (home path : List UInt8) : ∃ q, fileName home path = home ++ 47::q ∧
    segs 47 46 q = segs 47 46 path ∧ slashedLength path = q.length + 1 ∧
      (EndsWithSlash path ↔ (47::q).getLast? = some 47) := by
  unfold fileName slashedLength EndsWithSlash
  by_cases hslash : path.headD 0 = 47
  · cases path with
    | nil => cases hslash
    | cons c q =>
      have hc : c = 47 := hslash
      subst hc
      exact ⟨q,by simp,by simp,by simp,by simp⟩
  · rw [if_neg hslash,if_neg hslash]
    refine ⟨path,rfl,rfl,rfl,?_⟩
    cases path with
    | nil => simp
    | cons c q => simp

variable (cwd : List (List UInt8)) {home : List UInt8} (path : List UInt8)

theorem fileName_length (home path : List UInt8) :
    (fileName home path).length = home.length + slashedLength path := by
  obtain ⟨q,hname,-,hlen,-⟩ := fileName_eq home path
  rw [hname,hlen,List.length_append,List.length_cons]

theorem slashedLength_pos (path : List UInt8) : 0 < slashedLength path := by
  obtain ⟨q,-,-,hlen,-⟩ := fileName_eq [] path
  omega

theorem fileName_getLast (home path : List UInt8) :
    (fileName home path).getLast? = some 47 ↔ EndsWithSlash path := by
  obtain ⟨q,hname,-,-,hends⟩ := fileName_eq home path
  rw [hname,hends,List.getLast?_append_of_ne_nil _ (List.cons_ne_nil _ _)]

theorem dirName_length (home path : List UInt8) : (dirName (fileName home path)).length =
    home.length + slashedLength path + if EndsWithSlash path then 0 else 1 := by
  unfold dirName
  simp only [fileName_getLast]
  split_ifs
  · rw [fileName_length,Nat.add_zero]
  · rw [List.length_append,fileName_length]
    rfl

theorem inHome_fileName (hhome : home ≠ []) : InHome cwd home (fileName home path) ↔
    Returns (resolve 47 46 cwd home) (segs 47 46 path) := by
  obtain ⟨q,hname,hsegs,-,-⟩ := fileName_eq home path
  rw [InHome,hname,resolve_append_cons 47 46 cwd hhome,hsegs]
  exact prefix_walk_iff _ _

/-- A directory's name and what follows it as the home directory, a slash and the rest. -/
theorem dirName_append (home q t : List UInt8) : ∃ u, dirName (home ++ 47::q) ++ t = home ++ 47::u ∧
    segs 47 46 u = segs 47 46 q ++ segs 47 46 t := by
  unfold dirName
  by_cases hlast : (home ++ 47::q).getLast? = some 47
  · rw [if_pos hlast]
    rw [List.getLast?_append_of_ne_nil _ (List.cons_ne_nil _ _)] at hlast
    obtain ⟨r,hr⟩ := List.getLast?_eq_some_iff.1 hlast
    cases r with
    | nil =>
      have hq : q = [] := (List.cons.inj hr).2
      exact ⟨t,by simp [hq],by simp [hq]⟩
    | cons c r =>
      have hq : q = r ++ [47] := (List.cons.inj hr).2
      refine ⟨r ++ 47::t,by simp [hq],?_⟩
      rw [hq,segs_append_cons,segs_append_cons,segs_nil,List.append_nil]
  · rw [if_neg hlast]
    exact ⟨q ++ 47::t,by simp,segs_append_cons 47 46 q t⟩

theorem inHome_dirName (hhome : home ≠ []) (t : List UInt8) :
    InHome cwd home (dirName (fileName home path) ++ t) ↔
      Returns (resolve 47 46 cwd home) (segs 47 46 path ++ segs 47 46 t) := by
  obtain ⟨q,hname,hsegs,-,-⟩ := fileName_eq home path
  obtain ⟨u,hdir,hu⟩ := dirName_append home q t
  rw [InHome,hname,hdir,resolve_append_cons 47 46 cwd hhome,hu,hsegs]
  exact prefix_walk_iff _ _

/-! ### What a run writes and opens -/

variable {env : FileEnv}

/-- The names of indexes are all written behind the directory. -/
theorem httpIndex_written {dir : List UInt8} {is : List (List UInt8)} {name : List UInt8}
    (h : name ∈ (httpIndex env dir is).1) : ∃ i ∈ is, name = dir ++ i := by
  induction is with
  | nil => cases h
  | cons i is ih =>
    unfold httpIndex at h
    dsimp only at h
    split at h
    · exact ⟨i,by simp,List.mem_singleton.1 h⟩
    · rcases List.mem_cons.1 h with rfl | h
      · exact ⟨i,by simp,rfl⟩
      · obtain ⟨j,hj,hname⟩ := ih h
        exact ⟨j,List.mem_cons_of_mem i hj,hname⟩

/-- The index that is found is the last that is written. -/
theorem httpIndex_found {dir : List UInt8} {is : List (List UInt8)} {r : List UInt8 × FileStat}
    (h : (httpIndex env dir is).2 = some r) : r.1 ∈ (httpIndex env dir is).1 := by
  induction is with
  | nil => cases h
  | cons i is ih =>
    unfold httpIndex at h ⊢
    dsimp only at h ⊢
    split
    · next hfound =>
      rw [hfound] at h
      cases h
      exact List.mem_singleton.2 rfl
    · next hnone =>
      rw [hnone] at h
      exact List.mem_cons_of_mem _ (ih h)

theorem serveFile_names {name name' : List UInt8} {st : FileStat}
    (h : name' ∈ (serveFile env name st).names) : name' = name := by
  unfold serveFile at h
  split_ifs at h
  · cases h
  · cases h
  · exact List.mem_singleton.1 h

/-- The names that a run may write: the one of the path, those of a directory with a tail, and the text
behind a directory without one. -/
inductive PathBuilt (conf : IndexConf) (env : FileEnv) (file : List UInt8) : List UInt8 → Prop
  | file : PathBuilt conf env file file
  | tail {t} : t ∈ conf.tails → PathBuilt conf env file (dirName file ++ t)
  | behind : conf.tails = [] → file.getLast? ≠ some 47 → PathBuilt conf env file (dirName file ++ env.behind)

variable {conf : IndexConf}

theorem IndexConf.mem_tails {i : List UInt8} (hi : i ∈ conf.indexes) : i ∈ conf.tails := by
  unfold IndexConf.tails
  split_ifs
  · exact List.mem_cons_of_mem [] hi
  · exact hi

theorem triedName_built (hview : ¬ conf.indexesView) (file : List UInt8) :
    PathBuilt conf env file (triedName conf env file) := by
  have htails : conf.tails = conf.indexes := if_neg hview
  unfold triedName
  cases hlast : conf.indexes.getLast? with
  | some i => exact .tail (IndexConf.mem_tails (List.mem_of_getLast? hlast))
  | none =>
    dsimp only
    split_ifs with hslash
    · exact .file
    · exact .behind (htails.trans (List.getLast?_eq_none_iff.1 hlast)) hslash

/-- All that a run writes is built so, and it has written what it opens, lists or pushes. -/
structure RunBuilt (conf : IndexConf) (env : FileEnv) (file : List UInt8) (run : FileRun) : Prop where
  written : ∀ name ∈ run.written, PathBuilt conf env file name
  opened : ∀ name ∈ run.opened, name ∈ run.written
  names : ∀ name ∈ run.reply.names, name ∈ run.written

theorem httpGet_built (conf : IndexConf) (env : FileEnv) (home path : List UInt8) :
    RunBuilt conf env (fileName home path) (httpGet conf env home path) := by
  unfold httpGet
  dsimp only
  generalize fileName home path = file
  have hindex : ∀ name ∈ (httpIndex env (dirName file) conf.indexes).1, PathBuilt conf env file name := by
    intro name hname
    obtain ⟨i,hi,rfl⟩ := httpIndex_written hname
    exact .tail (IndexConf.mem_tails hi)
  cases env.stat file with
  | none => exact ⟨by simpa using .file,by simp,by simp [PathReply.names]⟩
  | some st =>
    dsimp only
    have hopened : ∀ name ∈ (if st.isDir then [] else [file]), name = file := by
      intro name hname
      split_ifs at hname
      · cases hname
      · exact List.mem_singleton.1 hname
    generalize (if st.isDir then [] else [file]) = opened at hopened ⊢
    by_cases hdir : st.isDir ∨ env.opendir file
    · rw [if_pos hdir]
      have hfile : ∀ name ∈ file::(httpIndex env (dirName file) conf.indexes).1,
          PathBuilt conf env file name := List.forall_mem_cons.2 ⟨.file,hindex⟩
      cases hfound : (httpIndex env (dirName file) conf.indexes).2 with
      | some r =>
        refine ⟨hfile,fun name hname => ?_,fun name hname => ?_⟩
        · exact List.mem_cons.2 (.inl (hopened name hname))
        · rw [serveFile_names hname]
          exact List.mem_cons_of_mem _ (httpIndex_found hfound)
      | none =>
        dsimp only
        by_cases hview : conf.indexesView
        · rw [if_pos hview]
          have htail : PathBuilt conf env file (dirName file ++ []) :=
            .tail (by rw [IndexConf.tails,if_pos hview]; exact List.mem_cons_self)
          rw [List.append_nil] at htail
          refine ⟨List.forall_mem_cons.2 ⟨htail,hfile⟩,fun name hname => ?_,fun name hname => ?_⟩
          · rcases List.mem_cons.1 hname with rfl | hname
            · exact List.mem_cons_self
            · exact List.mem_cons_of_mem _ (List.mem_cons.2 (.inl (hopened name hname)))
          · dsimp only at hname
            split_ifs at hname
            · exact List.mem_cons.2 (.inl (List.mem_singleton.1 hname))
            · cases hname
        · rw [if_neg hview]
          refine ⟨List.forall_mem_cons.2 ⟨triedName_built hview file,hfile⟩,fun name hname => ?_,
            fun name hname => ?_⟩
          · exact List.mem_cons_of_mem _ (List.mem_cons.2 (.inl (hopened name hname)))
          · exact List.mem_cons.2 (.inl (serveFile_names hname))
    · rw [if_neg hdir]
      refine ⟨by simpa using .file,fun name hname => ?_,fun name hname => ?_⟩
      · exact List.mem_singleton.2 (hopened name hname)
      · exact List.mem_singleton.2 (serveFile_names hname)

/-! ### Runs that use a name -/

/-- A file system where every name is a regular file. -/
def regularEnv : FileEnv where
  stat _ := some ⟨false,1,0⟩
  opendir _ := false
  access _ := false
  since := none
  behind := []

/-- A file system where every name is a directory, and one may be looked up as an index. -/
def directoryEnv (name behind : List UInt8) : FileEnv where
  stat _ := some ⟨true,1,0⟩
  opendir _ := true
  access name' := name' = name
  since := none
  behind := behind

theorem httpGet_regular (conf : IndexConf) (home path : List UInt8) :
    httpGet conf regularEnv home path =
      ⟨[fileName home path],[fileName home path],.file (fileName home path)⟩ := rfl

theorem httpIndex_directory (dir behind i : List UInt8) {is : List (List UInt8)} (hi : i ∈ is) :
    (httpIndex (directoryEnv (dir ++ i) behind) dir is).2 = some (dir ++ i,⟨true,1,0⟩) := by
  induction is with
  | nil => cases hi
  | cons j is ih =>
    unfold httpIndex
    by_cases hj : j = i
    · simp [hj,directoryEnv]
    · have hmem : i ∈ is := (List.mem_cons.1 hi).resolve_left (Ne.symm hj)
      have hmiss : ¬ dir ++ j = dir ++ i := fun h => hj (List.append_cancel_left h)
      simp only [directoryEnv,hmiss,decide_false,Bool.false_eq_true,if_false]
      exact ih hmem

theorem httpIndex_missing {dir name behind : List UInt8} {is : List (List UInt8)}
    (hname : ∀ i ∈ is, dir ++ i ≠ name) : (httpIndex (directoryEnv name behind) dir is).2 = none := by
  induction is with
  | nil => rfl
  | cons i is ih =>
    unfold httpIndex
    have hmiss := hname i (by simp)
    simp only [directoryEnv,hmiss,decide_false,Bool.false_eq_true,if_false]
    exact ih fun j hj => hname j (List.mem_cons_of_mem i hj)

/-- There is a file system where the name of a directory with a tail is listed or pushed. -/
theorem httpGet_tail (home path : List UInt8) {t : List UInt8} (ht : t ∈ conf.tails) :
    ∃ env, dirName (fileName home path) ++ t ∈ (httpGet conf env home path).reply.names := by
  by_cases hi : t ∈ conf.indexes
  · refine ⟨directoryEnv (dirName (fileName home path) ++ t) [],?_⟩
    have hfound := httpIndex_directory (dirName (fileName home path)) [] t hi
    unfold httpGet
    simp only [hfound]
    exact List.mem_singleton.2 rfl
  · unfold IndexConf.tails at ht
    split_ifs at ht with hview
    · have htail : t = [] := (List.mem_cons.1 ht).resolve_right hi
      refine ⟨directoryEnv [] [],?_⟩
      have hmiss : (httpIndex (directoryEnv [] []) (dirName (fileName home path)) conf.indexes).2 = none := by
        apply httpIndex_missing
        intro i _ hnil
        have hlen := congrArg List.length hnil
        have hpos := slashedLength_pos path
        rw [List.length_append,dirName_length,List.length_nil] at hlen
        omega
      unfold httpGet
      simp only [hmiss,hview,htail,List.append_nil]
      exact List.mem_singleton.2 rfl
    · exact absurd ht hi

/-- What lies behind the name of a directory is taken for a part of it where nothing is appended. -/
theorem httpGet_behind (home path behind : List UInt8) (htails : conf.tails = [])
    (hends : ¬ EndsWithSlash path) : dirName (fileName home path) ++ behind ∈
      (httpGet conf (directoryEnv [] behind) home path).written := by
  unfold IndexConf.tails at htails
  split_ifs at htails with hview
  have hlast : ¬ (fileName home path).getLast? = some 47 := by rwa [fileName_getLast]
  unfold httpGet
  simp only [htails,hview,httpIndex,triedName,hlast]
  exact List.mem_cons_self

/-- Over all file systems, the names built for a path are confined exactly when the path stays. -/
theorem httpGet_confined_iff (conf : IndexConf) (hhome : home ≠ []) :
    (∀ env, Confined cwd home (httpGet conf env home path)) ↔ PathStays cwd conf home path := by
  constructor
  · intro h
    have hfile := h regularEnv
    rw [httpGet_regular] at hfile
    have htail : ∀ t ∈ conf.tails, (dirName (fileName home path) ++ t).length < HTTP_PATH_MAX ∧
        InHome cwd home (dirName (fileName home path) ++ t) := by
      intro t ht
      obtain ⟨env,henv⟩ := httpGet_tail home path ht
      have hwritten := (httpGet_built conf env home path).names _ henv
      exact ⟨(h env).fits _ hwritten,(h env).inside _ (List.mem_append_right _ henv)⟩
    constructor
    · have hfits := hfile.fits (fileName home path) (by simp)
      rwa [fileName_length] at hfits
    · exact (inHome_fileName cwd path hhome).1 (hfile.inside (fileName home path) (by simp))
    · intro t ht
      have hfits := (htail t ht).1
      rwa [List.length_append,dirName_length] at hfits
    · intro t ht
      exact (inHome_dirName cwd path hhome t).1 (htail t ht).2
    · intro htails
      by_contra hends
      have hfits := (h _).fits _ (httpGet_behind home path (List.replicate HTTP_PATH_MAX 97) htails hends)
      rw [List.length_append,List.length_replicate] at hfits
      omega
  · intro h env
    have hrun := httpGet_built conf env home path
    have hname : ∀ name, PathBuilt conf env (fileName home path) name →
        name.length < HTTP_PATH_MAX ∧ InHome cwd home name := by
      intro name hbuilt
      cases hbuilt with
      | file =>
        rw [fileName_length,inHome_fileName cwd path hhome]
        exact ⟨h.fits,h.stays⟩
      | tail ht =>
        rw [List.length_append,dirName_length,inHome_dirName cwd path hhome]
        exact ⟨h.tail_fits _ ht,h.tail_stays _ ht⟩
      | behind htails hlast => exact absurd ((fileName_getLast home path).2 (h.ends htails)) hlast
    constructor
    · intro name hmem
      exact (hname name (hrun.written name hmem)).1
    · intro name hmem
      have hwritten := (List.mem_append.1 hmem).elim (hrun.opened name) (hrun.names name)
      exact (hname name (hrun.written name hwritten)).2

/-! ### The path of a request -/

/-- The decoded path of a request, as far as there is room for it, up to its first zero. -/
def requestPath (p : List UInt8) : List UInt8 :=
  ((decodePath (pathText p)).take HTTP_URL_PATH_MAX).takeWhile (· ≠ 0)

theorem httpRequestLine_cstr {p : List UInt8} {last : UInt8} {st : HttpParse}
    (h : httpRequestLine httpHeadersMapInit p last .zero = .ok st) :
    cstr st.req.path 0 HTTP_URL_PATH_MAX = requestPath p := by
  unfold httpRequestLine at h
  obtain ⟨st1,h1,h⟩ := bind_ok_iff.1 h
  obtain ⟨reqid,rfl⟩ := httpMethod_ok h1
  have hloop := httpPathLoop_eq (pathText p) HttpReq.zero.path 0 (Nat.zero_le _)
  dsimp only at h
  rw [← pathText,hloop,Nat.zero_add,Nat.sub_zero] at h
  dsimp only at h
  have hself := read_write_self HttpReq.zero.path 0 ((decodePath (pathText p)).take HTTP_URL_PATH_MAX)
  rw [List.length_take] at hself
  unfold requestPath
  by_cases hfull : HTTP_URL_PATH_MAX ≤ (decodePath (pathText p)).length
  · rw [if_pos (le_min le_rfl hfull)] at h
    cases h
    rw [min_eq_left hfull] at hself
    rw [cstr_eq_read,hself]
  · rw [if_neg (by omega),min_eq_right (by omega)] at h
    obtain ⟨st2,h2,h⟩ := bind_ok_iff.1 h
    cases h
    rw [min_eq_right (by omega)] at hself
    have hread : read (Function.update (write HttpReq.zero.path 0
        ((decodePath (pathText p)).take HTTP_URL_PATH_MAX)) (decodePath (pathText p)).length 0) 0
          (decodePath (pathText p)).length = (decodePath (pathText p)).take HTTP_URL_PATH_MAX := by
      refine Eq.trans (read_congr fun i _ hi => ?_) hself
      exact Function.update_of_ne (by omega) _ _
    dsimp only
    rw [(httpQuery_same h2).1,cstr_eq_takeWhile _ 0 (decodePath (pathText p)).length _ ?_ (by omega)]
    · dsimp only
      rw [hread]
    · dsimp only
      rw [Nat.zero_add,Function.update_self]

/-- The number of the method, and 0 where the trie has none. -/
def methodNumber (p : List UInt8) : ℤ :=
  max 0 (mtrieGet httpHeadersMapInit ((methodToken p).map lower) - 1)

theorem httpMethod_number {p : List UInt8} {st : HttpParse}
    (h : httpMethod httpHeadersMapInit ⟨p,1,.zero,-1⟩ = .ok st) :
    st.req.reqid = methodNumber p ∧ st.ret = -1 := by
  rw [httpMethod_eq h,methodNumber]
  dsimp only
  split_ifs with hfound
  · exact ⟨(max_eq_right hfound).symm,rfl⟩
  · exact ⟨(max_eq_left (le_of_not_ge hfound)).symm,rfl⟩

theorem httpRequestLine_number {p : List UInt8} {last : UInt8} {st : HttpParse}
    (h : httpRequestLine httpHeadersMapInit p last .zero = .ok st) :
    st.req.reqid = methodNumber p ∧ -1 ≤ st.ret := by
  unfold httpRequestLine at h
  obtain ⟨st1,h1,h⟩ := bind_ok_iff.1 h
  obtain ⟨hnumber,hret⟩ := httpMethod_number h1
  dsimp only at h
  split_ifs at h
  · cases h
    exact ⟨hnumber,hret.ge⟩
  · obtain ⟨st2,h2,h⟩ := bind_ok_iff.1 h
    cases h
    obtain ⟨-,hreqid,-,hsame⟩ := httpQuery_same h2
    exact ⟨hreqid.trans hnumber,(hsame.trans hret).ge⟩

/-- What a parsed request tells the handler. Cookies that leave no place in their table may be stored over the
first bytes of the path. -/
theorem httpRequestParse_result {p : List UInt8} {last : UInt8} {req : HttpReq} {ret : ℤ}
    (h : httpRequestParse httpHeadersMapInit p last .zero = .ok (req,ret)) :
    (req.ncookies < HTTP_COOKIES_MAX → cstr req.path 0 HTTP_URL_PATH_MAX = requestPath p) ∧
      req.reqid = methodNumber p ∧ 0 ≤ ret := by
  obtain ⟨st,hst,h⟩ := bind_ok_iff.1 h
  obtain ⟨st',hst',h⟩ := bind_ok_iff.1 h
  cases h
  have hloop := httpHeaderLoop_keeps hst'
  obtain ⟨hnumber,hret⟩ := httpRequestLine_number hst
  have hcount := hret.trans hloop.ret
  refine ⟨fun hroom => ?_,hloop.reqid.trans hnumber,by omega⟩
  rw [hloop.whole hroom]
  exact httpRequestLine_cstr hst

/-- The blank line behind the request line. -/
theorem httpHeaderLine_blank (last : UInt8) {st : HttpParse} (hs : st.s = [13,10])
    (hpp : st.pp < HTTP_HEADER_MAX) :
    ∃ st', httpHeaderLine httpHeadersMapInit last st = .ok st' ∧ st'.s = [] ∧
      st'.req.ncookies = st.req.ncookies := by
  have hindex : headerIndex (skipSpaces [13,10]) = -1 := by
    rw [headerIndex,mtrieGet_cr (by decide +kernel)]
    rfl
  have hkeep : st.atValue = { st with s := [] } := by
    rw [HttpParse.atValue,hs,hindex]
    rfl
  have hvalue : httpValue (-1) last st.atValue = .ok (st.atValue.copied (· ≠ 13) id) := by
    rw [httpValue,if_neg (by decide),if_neg (by decide),copyWhile_eq,hkeep]
    exact if_pos hpp.le
  have hend : ¬ HTTP_HEAD_MAX ≤ (lineToken (skipSpaces [13,10])).length := by decide +kernel
  rw [httpHeaderLine_eq,hs,if_neg (fun h => absurd h.1 (by decide)),if_neg hend,hindex,hvalue,hkeep]
  exact ⟨_,if_pos hpp,rfl,rfl⟩

/-- A packet that is a request line and a blank line is parsed. -/
theorem RequestLine.parsed (l : RequestLine) (last : UInt8) (hmethod : l.method.length < HTTP_HEAD_MAX)
    (hpath : (decodePath l.path).length < HTTP_URL_PATH_MAX) :
    ∃ req ret, httpRequestParse httpHeadersMapInit (l.text [13,10]) last .zero = .ok (req,ret) ∧
      req.ncookies = 0 := by
  have hmax : HTTP_HEAD_MAX < HTTP_HEADER_MAX := by decide
  obtain ⟨st,hst,hread⟩ := l.httpRequestLine_text [13,10] last (hmethod.trans hmax) hpath
  have hpp : st.pp < HTTP_HEADER_MAX := by
    have hlen := hread.pp
    omega
  obtain ⟨st',hline,hs',hcookies⟩ := httpHeaderLine_blank last hread.rest hpp
  refine ⟨st'.req,st'.ret + 1,?_,hcookies.trans hread.ncookies⟩
  rw [httpRequestParse,hst]
  change httpHeaderLoop httpHeadersMapInit last st >>= _ = _
  rw [httpHeaderLoop_cons (by rw [hread.rest]; simp),hline]
  change httpHeaderLoop httpHeadersMapInit last st' >>= _ = _
  rw [httpHeaderLoop_nil hs']
  rfl

theorem xhttpdPacketHandler_get {p : List UInt8} {last : UInt8} {req : HttpReq} {ret : ℤ}
    (conf : IndexConf) (env : FileEnv) (home : List UInt8)
    (hparse : httpRequestParse httpHeadersMapInit p last .zero = .ok (req,ret))
    (hget : req.reqid = HTTP_GET) :
    xhttpdPacketHandler conf env home p last =
      .ok (httpGet conf env home (cstr req.path 0 HTTP_URL_PATH_MAX)) := by
  obtain ⟨-,-,hret⟩ := httpRequestParse_result hparse
  unfold xhttpdPacketHandler
  rw [hparse]
  change (if ret = -1 then _ else _) = _
  rw [if_neg (by omega),if_pos hget]

/-- For all `GET` requests that are parsed and all home directories, the names that the handler builds
fit in `file` and lie in the home directory exactly when the path of the record stays in it; that is the
decoded path, where the cookies leave a place in their table. -/
theorem document_root_iff {p : List UInt8} {last : UInt8} {req : HttpReq} {ret : ℤ} (conf : IndexConf)
    (hhome : home ≠ []) (hparse : httpRequestParse httpHeadersMapInit p last .zero = .ok (req,ret))
    (hget : req.reqid = HTTP_GET) :
    ((∀ env run, xhttpdPacketHandler conf env home p last = .ok run → Confined cwd home run) ↔
      PathStays cwd conf home (cstr req.path 0 HTTP_URL_PATH_MAX)) ∧
      (req.ncookies < HTTP_COOKIES_MAX → cstr req.path 0 HTTP_URL_PATH_MAX = requestPath p) := by
  have hrun := fun env => xhttpdPacketHandler_get conf env home hparse hget
  refine ⟨?_,(httpRequestParse_result hparse).1⟩
  rw [← httpGet_confined_iff cwd (cstr req.path 0 HTTP_URL_PATH_MAX) conf hhome]
  constructor
  · intro h env
    exact h env _ (hrun env)
  · intro h env run hrun'
    cases (hrun env).symm.trans hrun'
    exact h env

/-! ### Two requests -/

/-- A `GET` for a path that leaves the home directory and comes back to it. -/
def logoLine : RequestLine :=
  { getLine with
    path := ascii "/img/../../www/%6cogo.png"
    path_ne := by decide +kernel
    path_plain := by decide +kernel }

/-- A `GET` for a path that leaves the home directory for a file. -/
def passwdLine : RequestLine :=
  { getLine with
    path := ascii "/%2e%2e/..%2fetc/passwd"
    path_ne := by decide +kernel
    path_plain := by decide +kernel }

/-- The settings with an `index.html` and lists of directories. -/
def indexConf : IndexConf := ⟨[ascii "index.html"],true⟩

theorem RequestLine.number_get (l : RequestLine) (rest : List UInt8) (hmethod : l.method = ascii "GET") :
    methodNumber (l.text rest) = HTTP_GET := by
  rw [methodNumber,l.methodToken_text,hmethod,mtrieGet_httpHeadersMapInit]
  decide +kernel

theorem document_root_logo :
    PathStays [] indexConf (ascii "/srv/www") (requestPath (logoLine.text [13,10])) ∧
      ∀ env run, xhttpdPacketHandler indexConf env (ascii "/srv/www") (logoLine.text [13,10]) 0 = .ok run →
        Confined [] (ascii "/srv/www") run := by
  obtain ⟨req,ret,hparse,hcookies⟩ := logoLine.parsed 0 (by decide +kernel) (by decide +kernel)
  have hget := (httpRequestParse_result hparse).2.1.trans (logoLine.number_get [13,10] rfl)
  have hpath : requestPath (logoLine.text [13,10]) = ascii "/img/../../www/logo.png" := by decide +kernel
  have hstays : PathStays [] indexConf (ascii "/srv/www") (requestPath (logoLine.text [13,10])) := by
    rw [hpath]
    exact ⟨by decide +kernel,by decide +kernel,by decide +kernel,by decide +kernel,by decide +kernel⟩
  have hhome : ascii "/srv/www" ≠ [] := by decide +kernel
  obtain ⟨hiff,hpath⟩ := document_root_iff [] indexConf hhome hparse hget
  rw [hpath (hcookies.trans_lt (by decide))] at hiff
  exact ⟨hstays,hiff.2 hstays⟩

/-- A file system where only a file outside of the home directory is found. -/
def passwdEnv : FileEnv where
  stat name := if name = ascii "/srv/www/../../etc/passwd" then some ⟨false,1024,0⟩ else none
  opendir _ := false
  access _ := false
  since := none
  behind := []

theorem document_root_passwd :
    ∃ req ret, httpRequestParse httpHeadersMapInit (passwdLine.text [13,10]) 0 .zero = .ok (req,ret) ∧
      req.reqid = HTTP_GET ∧ ∃ run,
        xhttpdPacketHandler indexConf passwdEnv (ascii "/srv/www") (passwdLine.text [13,10]) 0 = .ok run ∧
          run.reply = .file (ascii "/srv/www/../../etc/passwd") ∧
            ¬ Confined [] (ascii "/srv/www") run := by
  obtain ⟨req,ret,hparse,hcookies⟩ := passwdLine.parsed 0 (by decide +kernel) (by decide +kernel)
  obtain ⟨hpath,hnumber,-⟩ := httpRequestParse_result hparse
  have hget := hnumber.trans (passwdLine.number_get [13,10] rfl)
  have hrun := xhttpdPacketHandler_get indexConf passwdEnv (ascii "/srv/www") hparse hget
  rw [hpath (hcookies.trans_lt (by decide))] at hrun
  have hreply : (httpGet indexConf passwdEnv (ascii "/srv/www")
      (requestPath (passwdLine.text [13,10]))).reply = .file (ascii "/srv/www/../../etc/passwd") := by
    decide +kernel
  refine ⟨req,ret,hparse,hget,_,hrun,hreply,?_⟩
  intro h
  have hinside := h.inside (ascii "/srv/www/../../etc/passwd")
  rw [hreply] at hinside
  exact absurd (hinside (by simp [PathReply.names])) (by decide +kernel)

end Sbase
