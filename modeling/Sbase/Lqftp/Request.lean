import Sbase.Http.HeaderField
import Sbase.Lqftp.Md5Stream
import Sbase.Lqftp.Server

/-! The commands of lqftp are understood by lqftpd: the server does for a block what the client has cut it
for. -/
namespace Sbase
open Scanf

/-- What a block asks of the server, for a file and its digest. -/
def TBlock.serve (calls : DiskCalls) (disk : Disk) (file md5 : List UInt8) (b : TBlock) : Disk × LqReaction :=
  match b.cmdid with
  | .truncate =>
    if ¬ calls.pmkdir then (disk,.respond .serverError)
    else if b.size = 0 then (disk,.respond .badReq)
    else
      let (disk,done) := truncateFile calls disk file b.size
      (disk,.respond (if done then .ok else .serverError))
  | .put =>
    if b.size = 0 then (disk,.respond .badReq)
    else if ¬ calls.pmkdir then (disk,.respond .serverError)
    else
      let (disk,done) := modFileSize calls disk file (b.offset+b.size : ℕ)
      (disk,if done then .recvFile file b.offset b.size else .respond .serverError)
  | .del => opDel calls disk file
  | .md5sum =>
    match disk file with
    | none => (disk,.respond .fileNotExists)
    | some content =>
      if calls.read then
        (disk,.respond (if md5.map lower = (md5Hex (md5Digest content)).map lower then .ok else .invalidMd5))
      else (disk,.respond .serverError)

section

variable {k n : ℕ} {f : UInt8 → Bool} {ds rest name val text : List UInt8} {c : UInt8}

/-! ### The loops -/

theorem advance_stops (ds : List UInt8) (hds : ∀ c ∈ ds, f c) (hc : f c = false) (hk : k ≤ rest.length) :
    advance k f (ds ++ c::rest) = c::rest := by
  induction ds with
  | nil => simp [advance,hc]
  | cons d ds ih =>
    have hpos : k < ((d::ds) ++ c::rest).length := by
      simp only [List.length_append,List.length_cons]
      omega
    rw [List.cons_append,advance,if_pos ⟨hpos,hds d List.mem_cons_self⟩]
    exact ih fun c hc => hds c (List.mem_cons_of_mem d hc)

/-- A number that is printed is read. -/
theorem strtoll_printInt (hn : n < 2^63) (rest : List UInt8) : strtoll (printInt 1 n ++ 13::rest) = n := by
  have hprint : printInt 1 n = padded 1 n := by simp [printInt]
  have hne : padded 1 n ≠ [] := by
    intro hnil
    have hlen := congrArg List.length hnil
    simp only [padded,List.length_append,List.length_replicate,List.length_nil] at hlen
    omega
  have hscan : scanInt none (padded 1 n ++ 13::rest) = some ((value (padded 1 n) : ℤ),13::rest) :=
    scanInt_all (padded_decimal 1 n) hne rfl
  rw [value_padded] at hscan
  rw [strtoll,hprint,hscan]
  simp only [Option.elim_some]
  omega

theorem printInt_digits (hc : c ∈ printInt 1 n) : 48 ≤ c ∧ c ≤ 57 := by
  have hprint : printInt 1 n = padded 1 n := by simp [printInt]
  rw [hprint] at hc
  simpa [isDecimal] using padded_decimal 1 n c hc

/-! ### Properties -/

/-- The entry of a line with a property. -/
def KItem.line (name val rest : List UInt8) : KItem := ⟨name ++ 58::(val ++ 13::10::rest),val ++ 13::10::rest⟩

/-- The lines of properties, up to an empty one. -/
theorem getProperty_line (room : ℕ) (hname : ∀ c ∈ name, c ≠ 32 ∧ c ≠ 58) (hval : 10 ∉ val) (hc : rest.head? = some c)
    (hk : k < rest.length) : getProperty k (room+1) (name ++ 58::(val ++ 13::10::rest)) =
      if c = 13 ∨ c = 10 then some [.line name val rest]
      else (getProperty k room rest).map (KItem.line name val rest::·) := by
  have hkey : advance k (· = 32) (name ++ 58::(val ++ 13::10::rest)) = name ++ 58::(val ++ 13::10::rest) := by
    cases name with
    | nil => exact advance_stops [] (by simp) rfl (by simp; omega)
    | cons d name =>
      exact advance_stops [] (by simp) (by simpa using (hname d (by simp)).1) (by simp; omega)
  have hcolon : advance k (· ≠ 58) (name ++ 58::(val ++ 13::10::rest)) = 58::(val ++ 13::10::rest) :=
    advance_stops _ (fun d hd => by simpa using (hname d hd).2) (by simp) (by simp; omega)
  have hblank : advance k (· = 32) (58::(val ++ 13::10::rest)) = 58::(val ++ 13::10::rest) :=
    advance_stops [] (by simp) rfl (by simp; omega)
  have hend : advance k (· ≠ 10) (val ++ 13::10::rest) = 10::rest := by
    have hsplit : val ++ 13::10::rest = (val ++ [13]) ++ 10::rest := by simp
    rw [hsplit]
    refine advance_stops _ (fun d hd => ?_) (by simp) (by omega)
    rcases List.mem_append.mp hd with hd | hd
    · simpa using ne_of_mem_of_not_mem hd hval
    · rw [List.mem_singleton.mp hd]
      decide
  rw [getProperty,if_pos (by simp; omega)]
  simp only [hkey,hcolon,hblank,List.drop_succ_cons,List.drop_zero,hend,hc,Option.bind_eq_bind,Option.bind_some]
  split_ifs
  · rfl
  · cases getProperty k room rest <;> rfl

/-! ### Commands -/

variable {calls : DiskCalls} {disk : Disk} {root path body behind file md5 : List UInt8}
  {plist : List KItem} {b : TBlock}

/-- A command with its name, its path and its properties. -/
theorem cbPacketHandler_eq (cmd : BlockCmd) (hname : ∀ c ∈ name, c ≠ 13 ∧ c ≠ 10 ∧ c ≠ 32)
    (hpath : ∀ c ∈ path, c ≠ 0 ∧ c ≠ 10 ∧ c ≠ 13 ∧ c ≠ 32) (hne : path ≠ []) (hlen : path.length < PATH_MAX_SIZE)
    (hroom : (root ++ urldecode path).length < PATH_MAX_SIZE) (hlong : CMD_MAX_LEN < body.length)
    (hcmd : getCmdid (name ++ 32::(path ++ 13::10::(body ++ behind))) lqCmdlist = some (some cmd))
    (hprops : getProperty behind.length PNUM_MAX (body ++ behind) = some plist) :
    cbPacketHandler calls disk root (name ++ 32::(path ++ 13::10::body)) behind =
      match cmd with
      | .truncate => opTruncate calls disk (root ++ urldecode path) plist
      | .put => opPut calls disk (root ++ urldecode path) plist
      | .del => some (opDel calls disk (root ++ urldecode path))
      | .md5sum => opMd5sum calls disk (root ++ urldecode path) plist := by
  obtain ⟨d,ds,rfl⟩ := List.exists_cons_of_ne_nil hne
  have hjoin : (name ++ 32::((d::ds) ++ 13::10::body)) ++ behind =
      name ++ 32::((d::ds) ++ 13::10::(body ++ behind)) := by simp
  have hblank : advance behind.length (fun c => c ≠ 13 ∧ c ≠ 10 ∧ c ≠ 32)
      (name ++ 32::((d::ds) ++ 13::10::(body ++ behind))) = 32::((d::ds) ++ 13::10::(body ++ behind)) :=
    advance_stops _ (fun c hc => by simpa using hname c hc) (by simp) (by simp; omega)
  have hstart : advance behind.length (· = 32) (32::((d::ds) ++ 13::10::(body ++ behind))) =
      (d::ds) ++ 13::10::(body ++ behind) :=
    advance_stops [32] (by simp) (by simpa using (hpath d (by simp)).2.2.2) (by simp; omega)
  have hend : advance behind.length (fun c => c ≠ 32 ∧ c ≠ 13 ∧ c ≠ 10) ((d::ds) ++ 13::10::(body ++ behind)) =
      13::10::(body ++ behind) := by
    refine advance_stops _ (fun c hc => ?_) (by simp) (by simp; omega)
    obtain ⟨-,h10,h13,h32⟩ := hpath c hc
    simp [h10,h13,h32]
  have hline : advance behind.length (· ≠ 10) (13::10::(body ++ behind)) = 10::(body ++ behind) :=
    advance_stops [13] (by simp) (by simp) (by simp)
  have htake : ((d::ds) ++ 13::10::(body ++ behind)).take
      (((d::ds) ++ 13::10::(body ++ behind)).length-(13::10::(body ++ behind)).length) = d::ds :=
    List.take_left' (by simp only [List.length_append]; omega)
  have hzero : (d::ds).takeWhile (· ≠ 0) = d::ds :=
    List.takeWhile_eq_self_iff.mpr fun c hc => by simpa using (hpath c hc).1
  have hbig : (name ++ 32::((d::ds) ++ 13::10::body)).length > CMD_MAX_LEN := by
    simp only [List.length_append,List.length_cons]
    omega
  simp only [cbPacketHandler,hjoin,if_pos hbig,hcmd,Option.bind_eq_bind,Option.bind_some,hblank,hstart,hend,htake,
    if_neg (not_lt.mpr hlen.le),hline,List.drop_succ_cons,List.drop_zero,hprops,hzero]
  rw [if_neg fun h => absurd h.1 hlen.ne,if_neg (List.cons_ne_nil d ds),if_neg (not_le.mpr hroom)]
  cases cmd <;> rfl

/-- A comparison within the memory. -/
theorem strncasecmp_take (h : text.length ≤ ds.length) :
    strncasecmp ds text = some (decide ((ds.take text.length).map lower = text.map lower)) := by
  induction text generalizing ds with
  | nil => simp [strncasecmp]
  | cons c text ih =>
    obtain ⟨d,ds,rfl⟩ := List.exists_cons_of_length_pos (Nat.zero_lt_of_lt h)
    rw [strncasecmp]
    by_cases hd : lower d = lower c
    · rw [if_pos hd,ih (by simpa using h)]
      simp [hd]
    · simp [hd]

/-- The digest of a file is that of its content. -/
theorem md5_fileReads (content : List UInt8) : md5File (fileReads content) = some (md5Digest content) := by
  have hshort : ∀ p ∈ fileReads content, p.length+MD5_BLOCK_N ≤ 2^32 := by
    intro p hp
    rw [fileReads] at hp
    split_ifs at hp
    · cases hp
    · have hlen := Lines.length_le_of_mem_parts (by decide) hp
      simp only [MD5_BUF_SIZE,MD5_BLOCK_N] at *
      omega
  have hall : (fileReads content).flatten = content := by
    rw [fileReads]
    split_ifs with hnil
    · exact hnil.symm
    · exact Lines.parts_flatten content
  obtain ⟨ctx,hupdates,hholds⟩ := md5Updates_holds (fileReads content) md5Init_holds hshort
  rw [md5File,hupdates]
  have hfinal := md5Final_eq hholds
  rw [hall] at hfinal
  exact hfinal

theorem length_md5Digest (msg : List UInt8) : (md5Digest msg).length = 16 := by
  simp [md5Digest,List.length_flatMap,md5Bytes]

theorem length_md5Hex (digest : List UInt8) : (md5Hex digest).length = 2*digest.length := by
  simp [md5Hex,List.length_flatMap,Nat.mul_comm]

/-- A name that is sent, and has room behind the document root of the server. -/
structure SentName (root s : List UInt8) : Prop where
  ne : s ≠ []
  zero : 0 ∉ s
  fits : (urlencode s).length < PATH_MAX_SIZE
  room : root.length+s.length < PATH_MAX_SIZE

variable {s : List UInt8}

theorem SentName.fullpath (hs : SentName root s) : (root ++ urldecode (urlencode s)).length < PATH_MAX_SIZE := by
  rw [urldecode_urlencode hs.zero,List.length_append,List.length_map]
  exact hs.room

theorem one_property (name : List UInt8) (hname : ∀ c ∈ name, c ≠ 32 ∧ c ≠ 58) (hval : 10 ∉ val) (behind : List UInt8) :
    getProperty behind.length PNUM_MAX (name ++ 58::(val ++ [13,10,13,10]) ++ behind) =
      some [.line name val (13::10::behind)] := by
  have hline : getProperty behind.length 2 (name ++ 58::(val ++ 13::10::(13::10::behind))) = _ :=
    getProperty_line 1 hname hval rfl (by simp)
  rw [if_pos (.inl rfl)] at hline
  simpa [PNUM_MAX] using hline

theorem printInt_line (n : ℕ) : 10 ∉ printInt 1 n := fun h => absurd (printInt_digits h).1 (by decide)

theorem truncate_served (hs : SentName root s) (hcmd : b.cmdid = .truncate) (hsize : b.size < 2^63) (md5 : List UInt8) :
    cbPacketHandler calls disk root (b.command (urlencode s) md5).1 behind =
      some (b.serve calls disk (root ++ s.map urlPrintable) md5) := by
  have htext : (b.command (urlencode s) md5).1 = ascii "truncate" ++ 32::(urlencode s ++ 13::10::
      (ascii "size" ++ 58::(printInt 1 b.size ++ [13,10,13,10]))) := by
    simp [TBlock.command,hcmd,ascii]
  have hprops := one_property (ascii "size") (by decide +kernel) (printInt_line b.size) behind
  have hsizeKey : strncasecmp (KItem.line (ascii "size") (printInt 1 b.size) (13::10::behind)).key (ascii "size") =
      some true := rfl
  have hread : strtoll (KItem.line (ascii "size") (printInt 1 b.size) (13::10::behind)).data = b.size :=
    strtoll_printInt hsize _
  have hget : truncateProperties [.line (ascii "size") (printInt 1 b.size) (13::10::behind)] = some (b.size : ℤ) := by
    simp [truncateProperties,hsizeKey,hread]
  rw [htext,cbPacketHandler_eq .truncate (by decide +kernel) (fun c hc => urlencode_mem hs.zero hc)
    (urlencode_ne_nil hs.ne) hs.fits hs.fullpath (by simp [CMD_MAX_LEN,ascii]) rfl hprops]
  simp only [opTruncate,hget,TBlock.serve,hcmd,urldecode_urlencode hs.zero]
  simp [apply_ite some]

theorem put_served (hs : SentName root s) (hcmd : b.cmdid = .put) (hend : b.offset+b.size < 2^63) (md5 : List UInt8) :
    cbPacketHandler calls disk root (b.command (urlencode s) md5).1 behind =
      some (b.serve calls disk (root ++ s.map urlPrintable) md5) := by
  have htext : (b.command (urlencode s) md5).1 = ascii "put" ++ 32::(urlencode s ++ 13::10::
      (ascii "offset" ++ 58::(printInt 1 b.offset ++ 13::10::
        (ascii "size" ++ 58::(printInt 1 b.size ++ [13,10,13,10]))))) := by
    simp [TBlock.command,hcmd,ascii]
  let items : List KItem := [.line (ascii "offset") (printInt 1 b.offset)
      (ascii "size" ++ 58::(printInt 1 b.size ++ 13::10::(13::10::behind))),
    .line (ascii "size") (printInt 1 b.size) (13::10::behind)]
  have hprops : getProperty behind.length PNUM_MAX ((ascii "offset" ++ 58::(printInt 1 b.offset ++ 13::10::
      (ascii "size" ++ 58::(printInt 1 b.size ++ [13,10,13,10])))) ++ behind) = some items := by
    have hline : getProperty behind.length 2 (ascii "offset" ++ 58::(printInt 1 b.offset ++ 13::10::
        (ascii "size" ++ 58::(printInt 1 b.size ++ 13::10::(13::10::behind))))) = _ :=
      getProperty_line 1 (by decide +kernel) (printInt_line b.offset) rfl (by simp; omega)
    have hlast : getProperty behind.length 1 (ascii "size" ++ 58::(printInt 1 b.size ++ 13::10::(13::10::behind))) = _ :=
      getProperty_line 0 (by decide +kernel) (printInt_line b.size) rfl (by simp)
    rw [if_neg (by decide),hlast,if_pos (.inl rfl)] at hline
    simpa [PNUM_MAX,items] using hline
  have hget : putProperties items = some (some (b.offset : ℤ),(b.size : ℤ)) := by
    have hoffsetKey : strncasecmp (KItem.line (ascii "offset") (printInt 1 b.offset)
        (ascii "size" ++ 58::(printInt 1 b.size ++ 13::10::(13::10::behind)))).key (ascii "offset") = some true := rfl
    have hother : strncasecmp (KItem.line (ascii "size") (printInt 1 b.size) (13::10::behind)).key (ascii "offset") =
        some false := rfl
    have hsizeKey : strncasecmp (KItem.line (ascii "size") (printInt 1 b.size) (13::10::behind)).key (ascii "size") =
        some true := rfl
    have hoffset : strtoll (KItem.line (ascii "offset") (printInt 1 b.offset)
        (ascii "size" ++ 58::(printInt 1 b.size ++ 13::10::(13::10::behind)))).data = b.offset :=
      strtoll_printInt (by omega) _
    have hsize : strtoll (KItem.line (ascii "size") (printInt 1 b.size) (13::10::behind)).data = b.size :=
      strtoll_printInt (by omega) _
    simp [putProperties,items,hoffsetKey,hother,hsizeKey,hoffset,hsize]
  rw [htext,cbPacketHandler_eq .put (by decide +kernel) (fun c hc => urlencode_mem hs.zero hc)
    (urlencode_ne_nil hs.ne) hs.fits hs.fullpath (by simp [CMD_MAX_LEN,ascii]; omega) rfl hprops]
  simp only [opPut,hget,TBlock.serve,hcmd,urldecode_urlencode hs.zero]
  simp [items,apply_ite some]

theorem md5sum_served (hs : SentName root s) (hcmd : b.cmdid = .md5sum) (hlen : md5.length = MD5SUM_SIZE) (hline : 10 ∉ md5) :
    cbPacketHandler calls disk root (b.command (urlencode s) md5).1 behind =
      some (b.serve calls disk (root ++ s.map urlPrintable) md5) := by
  have htext : (b.command (urlencode s) md5).1 = ascii "md5sum" ++ 32::(urlencode s ++ 13::10::
      (ascii "md5" ++ 58::(md5 ++ [13,10,13,10]))) := by
    simp [TBlock.command,hcmd,ascii]
  have hprops := one_property (ascii "md5") (by decide +kernel) hline behind
  have hkey : strncasecmp (KItem.line (ascii "md5") md5 (13::10::behind)).key (ascii "md5") = some true := rfl
  have hdata : (KItem.line (ascii "md5") md5 (13::10::behind)).data.take MD5SUM_SIZE = md5 := List.take_left' hlen
  have hroom : MD5SUM_SIZE ≤ (KItem.line (ascii "md5") md5 (13::10::behind)).data.length := by
    simp [KItem.line,hlen]
  have hget : md5sumProperties [.line (ascii "md5") md5 (13::10::behind)] = some (some md5) := by
    simp [md5sumProperties,hkey,hdata,hroom]
  have hcompare : ∀ content, strncasecmp md5 (md5Hex (md5Digest content)) =
      some (decide (md5.map lower = (md5Hex (md5Digest content)).map lower)) := by
    intro content
    have hhex : (md5Hex (md5Digest content)).length = md5.length := by
      rw [length_md5Hex,length_md5Digest,hlen]
      rfl
    rw [strncasecmp_take hhex.le,List.take_of_length_le hhex.ge]
  rw [htext,cbPacketHandler_eq .md5sum (by decide +kernel) (fun c hc => urlencode_mem hs.zero hc)
    (urlencode_ne_nil hs.ne) hs.fits hs.fullpath (by simp [CMD_MAX_LEN,ascii,hlen,MD5SUM_SIZE]) rfl hprops]
  simp only [opMd5sum,hget,TBlock.serve,hcmd,urldecode_urlencode hs.zero]
  cases disk (root ++ s.map urlPrintable) with
  | none => simp
  | some content =>
    simp only [List.isEmpty_cons,Bool.false_eq_true,if_false,Option.bind_eq_bind,Option.bind_some,md5_fileReads,
      hcompare,decide_eq_true_eq]
    split_ifs <;> rfl

/-- A command is understood: whatever lies behind it in the memory, the server does for a block what the
client has cut it for, with the name that was escaped. -/
theorem command_served (hs : SentName root s) (hcmd : b.cmdid ≠ .del) (hend : b.offset+b.size < 2^63)
    (hlen : md5.length = MD5SUM_SIZE) (hline : 10 ∉ md5) :
    cbPacketHandler calls disk root (b.command (urlencode s) md5).1 behind =
      some (b.serve calls disk (root ++ s.map urlPrintable) md5) := by
  cases h : b.cmdid with
  | truncate => exact truncate_served hs h (by omega) md5
  | put => exact put_served hs h hend md5
  | del => exact absurd h hcmd
  | md5sum => exact md5sum_served hs h hlen hline

/-- The client takes the answer of a command that was served for a success, and no other one. -/
theorem cbTransportStatus_text (resp : LqResp) : cbTransportStatus resp.text = .over ↔ resp = .ok := by
  cases resp <;> decide +kernel

end

/-- A command and its answer: whatever lies behind the command in the memory of the server, and whichever
calls fail, the server does for a block what the client has cut it for, under the name that was escaped, and
the client takes the block for over exactly if that succeeded. -/
theorem command_round_trip {root s : List UInt8} (hs : SentName root s) {b : TBlock} (hcmd : b.cmdid ≠ .del)
    (hend : b.offset+b.size < 2^63) {md5 : List UInt8} (hlen : md5.length = MD5SUM_SIZE) (hline : 10 ∉ md5)
    (calls : DiskCalls) (disk : Disk) (behind : List UInt8) :
    ∃ disk' reaction, cbPacketHandler calls disk root (b.command (urlencode s) md5).1 behind = some (disk',reaction) ∧
      (disk',reaction) = b.serve calls disk (root ++ s.map urlPrintable) md5 ∧
      ∀ resp, reaction = .respond resp → (cbTransportStatus resp.text = .over ↔ resp = .ok) :=
  ⟨_,_,command_served hs hcmd hend hlen hline,rfl,fun resp _ => cbTransportStatus_text resp⟩

/-- The name `a b` for two bytes at the offset 7. -/
theorem command_round_trip_put : ∃ disk' reaction,
    cbPacketHandler ⟨true,true,true,true,true,true⟩ (fun _ => none) [47]
      (TBlock.command (urlencode [97,32,98]) (List.replicate 32 48) ⟨1,.put,.ready,0,none,0,7,2⟩).1 [] =
        some (disk',reaction) ∧
      (disk',reaction) = TBlock.serve ⟨true,true,true,true,true,true⟩ (fun _ => none) ([47] ++ [97,32,98].map urlPrintable)
        (List.replicate 32 48) ⟨1,.put,.ready,0,none,0,7,2⟩ ∧
      ∀ resp, reaction = .respond resp → (cbTransportStatus resp.text = .over ↔ resp = .ok) :=
  command_round_trip ⟨by simp,by simp,by decide +kernel,by decide⟩ (by decide) (by decide) (by decide) (by decide)
    _ _ _

end Sbase
