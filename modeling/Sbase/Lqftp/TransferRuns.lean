import Sbase.Lqftp.Transfer

/-! What a transfer ends with: the file of the server, when its sum is asked for. -/
namespace Sbase

open Relation

/-! ### The table of a file -/

section

variable {blockSize size offset i : ℕ} {hpos : 0 < blockSize} {e d : TBlock} {blocks bs : List TBlock} {ev : TaskEvent}

/-- What no step changes of a block. -/
def TBlock.key (b : TBlock) : ℕ × BlockCmd × ℕ × ℕ := (b.id,b.plan)

theorem Consecutive.mem {a b : ℕ} {rs : List (ℕ × ℕ)} (h : Consecutive a rs b) {r : ℕ × ℕ} (hr : r ∈ rs) :
    a ≤ r.1 ∧ r.1+r.2 ≤ b := by
  have hle : ∀ {a} {rs : List (ℕ × ℕ)}, Consecutive a rs b → a ≤ b := by
    intro a rs h
    induction rs generalizing a with
    | nil => exact h.le
    | cons s rs ih => exact (Nat.le_add_right a s.2).trans (ih h.2.2)
  induction rs generalizing a with
  | nil => cases hr
  | cons s rs ih =>
    obtain ⟨hoff,-,hrest⟩ := h
    rcases List.mem_cons.mp hr with rfl | hr
    · exact ⟨hoff.ge,hoff ▸ hle hrest⟩
    · obtain ⟨hlow,hhigh⟩ := ih hrest hr
      exact ⟨(Nat.le_add_right a s.2).trans hlow,hhigh⟩

theorem Consecutive.cover {a b : ℕ} {rs : List (ℕ × ℕ)} (h : Consecutive a rs b) (hlow : a ≤ i) (hhigh : i < b) :
    ∃ r ∈ rs, r.1 ≤ i ∧ i < r.1+r.2 := by
  induction rs generalizing a with
  | nil => exact absurd hhigh (by rw [← h]; exact not_lt.mpr hlow)
  | cons s rs ih =>
    obtain ⟨hoff,-,hrest⟩ := h
    rcases lt_or_ge i (a+s.2) with hi | hi
    · exact ⟨s,List.mem_cons_self,hoff.trans_le hlow,by omega⟩
    · obtain ⟨r,hr,hin⟩ := ih hrest hi
      exact ⟨r,List.mem_cons_of_mem s hr,hin⟩

theorem cutFile_ids (i offset size : ℕ) : (cutFile id blockSize hpos i offset size).map TBlock.id =
    List.range' i (blockCount size blockSize) := by
  induction size using Nat.strong_induction_on generalizing i offset with
  | _ size ih =>
    by_cases hsize : 0 < size
    · rw [cutFile_pos hsize,blockCount_cut hpos hsize,List.map_cons,ih _ (by split_ifs <;> omega)]
      rfl
    · rw [Nat.eq_zero_of_not_pos hsize,cutFile_zero,blockCount_zero]
      rfl

/-- The `id` of a block is its place. -/
theorem fileTable_id (h : (fileTable id blockSize hpos size)[i]? = some e) : e.id = i := by
  have hids : (fileTable id blockSize hpos size).map TBlock.id = List.range' 0 (blockCount size blockSize+2) := by
    simp only [fileTable,List.map_append,List.map_cons,List.map_nil,cutFile_ids,TBlock.entry]
    rw [List.range'_concat,List.range'_succ]
    simp [Nat.add_comm]
  have hget : ((fileTable id blockSize hpos size).map TBlock.id)[i]? = some e.id := by rw [List.getElem?_map,h]; rfl
  have hlt : i < blockCount size blockSize+2 := by
    obtain ⟨hlen,-⟩ := List.getElem?_eq_some_iff.mp hget
    rwa [hids,List.length_range'] at hlen
  rw [hids,List.getElem?_range' hlt] at hget
  simpa using hget.symm

theorem fileTable_at (he : e ∈ fileTable id blockSize hpos size) : (fileTable id blockSize hpos size)[e.id]? = some e := by
  obtain ⟨i,hi⟩ := List.mem_iff_getElem?.mp he
  rwa [fileTable_id hi]

theorem fileTable_of {job : TransferJob} (hsize : job.source.length = size) (he : e ∈ fileTable id blockSize hpos size) :
    e.Of job := by
  subst hsize
  rw [fileTable,List.mem_append,List.mem_cons,List.mem_singleton] at he
  rcases he with (rfl | he) | rfl
  · exact ⟨by simp [TBlock.entry],by simp [TBlock.entry],fun _ => rfl⟩
  · have hput := cutFile_put e he
    have hmem := (consecutive_cutFile hpos 1 0 job.source.length).mem (List.mem_map_of_mem he)
    simp only [Nat.zero_add] at hmem
    refine ⟨by simp [hput],hmem.2,fun htrunc => ?_⟩
    rw [hput] at htrunc
    cases htrunc
  · exact ⟨by simp [TBlock.entry],by simp [TBlock.entry],fun h => by simp [TBlock.entry] at h⟩

/-- Every byte is in a PUT block. -/
theorem fileTable_cover (hpos : 0 < blockSize) (hi : i < size) :
    ∃ e ∈ fileTable id blockSize hpos size, e.cmdid = .put ∧ e.offset ≤ i ∧ i < e.offset+e.size := by
  have hcut : Consecutive 0 ((cutFile id blockSize hpos 1 0 size).map fun b => (b.offset,b.size)) (0+size) :=
    consecutive_cutFile hpos 1 0 size
  obtain ⟨r,hr,hlow,hhigh⟩ := hcut.cover (Nat.zero_le i) (by simpa using hi)
  obtain ⟨e,he,rfl⟩ := List.mem_map.mp hr
  exact ⟨e,by simp [fileTable,he],cutFile_put e he,hlow,hhigh⟩

/-! ### Steps of the table -/

theorem TableChange.key {s : Option (List TBlock)} (h : TableChange blocks ev s) (hs : s = some bs) :
    bs.map TBlock.key = blocks.map TBlock.key := by
  cases h with
  | keep =>
    cases hs
    rfl
  | finish => cases hs
  | handed _ =>
    cases hs
    apply map_modify_of_eq
    intro _
    rfl
  | reported _ =>
    cases hs
    apply map_modify_of_eq
    intro _
    rfl
  | finished => cases hs
  | timedOut =>
    cases hs
    rw [List.map_map]
    refine List.map_congr_left fun c _ => ?_
    rw [Function.comp_apply]
    split_ifs <;> rfl

/-- A block is over because it was, or because it is reported. -/
theorem TableChange.over {s : Option (List TBlock)} (h : TableChange blocks ev s) (hs : s = some bs)
    (hd : bs[i]? = some d) (hover : d.status = .over) :
    (∃ c, blocks[i]? = some c ∧ c.status = .over) ∨ ev = .reported i .over := by
  cases h with
  | keep =>
    cases hs
    exact .inl ⟨d,hd,hover⟩
  | finish => cases hs
  | @handed b sid nover arg now hscan =>
    cases hs
    by_cases hb : b = i
    · subst hb
      simp only [List.getElem?_modify_eq,Option.map_eq_map,Option.map_eq_some_iff] at hd
      obtain ⟨c,-,rfl⟩ := hd
      cases hover
    · rw [List.getElem?_modify_ne _ _ hb] at hd
      exact .inl ⟨d,hd,hover⟩
  | @reported b status hstatus =>
    cases hs
    by_cases hb : b = i
    · subst hb
      simp only [List.getElem?_modify_eq,Option.map_eq_map,Option.map_eq_some_iff] at hd
      obtain ⟨c,-,rfl⟩ := hd
      exact .inr (by rw [show status = .over from hover])
    · rw [List.getElem?_modify_ne _ _ hb] at hd
      exact .inl ⟨d,hd,hover⟩
  | finished => cases hs
  | timedOut =>
    cases hs
    rw [List.getElem?_map,Option.map_eq_some_iff] at hd
    obtain ⟨c,hc,rfl⟩ := hd
    split_ifs at hover with hexpired
    exact .inl ⟨c,hc,hover⟩

theorem scanBlocks_count {k : Option ℕ} {n nover m : ℕ} (h : scanBlocks blocks i n nover = (k,m)) :
    m ≤ nover+blocks.length := by
  induction blocks generalizing i n nover with
  | nil =>
    cases h
    exact le_rfl
  | cons c bs ih =>
    rw [scanBlocks] at h
    rw [List.length_cons]
    split_ifs at h
    · cases h
      omega
    · cases h
      omega
    · have := ih h
      omega
    · cases h
      omega
    · cases h
      omega
    · cases h
      omega
    · have := ih h
      omega

/-- As many blocks are over as there are only if all are. -/
theorem scanBlocks_all {k : Option ℕ} {n nover m : ℕ} (h : scanBlocks blocks i n nover = (k,m))
    (hm : m = nover+blocks.length) : ∀ d ∈ blocks, d.status = .over := by
  induction blocks generalizing i n nover with
  | nil => simp
  | cons c bs ih =>
    rw [scanBlocks] at h
    rw [List.length_cons] at hm
    by_cases hc : c.status = .over
    · rw [if_neg (not_not.mpr hc)] at h
      exact List.forall_mem_cons.mpr ⟨hc,ih h (by omega)⟩
    · rw [if_pos hc] at h
      split_ifs at h
      · cases h
        omega
      · cases h
        omega
      · have hle := scanBlocks_count h
        omega
      · cases h
        omega
      · cases h
        omega
      · cases h
        omega

/-- A task is over when all its blocks are, or when its sum was reported to be right. -/
theorem TaskOp.finished {t u : TaskTable} (op : TaskOp) (h : op.run t = some (u,ev)) (ht : t.status = some blocks)
    (hover : u.runningTask.status = .over) : t.runningTask.status = .over ∨
      (blocks ≠ [] ∧ ∀ d ∈ blocks, d.status = .over) ∨
      ∃ blockid sid now d, op = .update blockid true sid now ∧ acceptedBlock t blockid sid = some d ∧
        d.cmdid = .md5sum := by
  cases op with
  | pop stat sid arg now =>
    have hcheck : tasktableCheckStatus t = (t,0) := by simp only [tasktableCheckStatus,ht]
    simp only [TaskOp.run,tasktablePopBlock,hcheck,ht] at h
    by_cases hn : t.ntask > 0
    · simp only [if_pos hn] at h
      cases h
      cases hscan : scanBlocks blocks 0 0 0 with
      | mk block nover =>
        by_cases hall : nover > 0 ∧ nover = blocks.length ∧ t.runningTask.status ≠ .over
        · have hne : blocks ≠ [] := by
            intro hnil
            rw [hnil,List.length_nil] at hall
            omega
          exact .inr (.inl ⟨hne,scanBlocks_all hscan (by omega)⟩)
        · cases block with
          | none =>
            simp only [popReady,ht,Option.getD_some,hscan,if_neg hall] at hover
            exact .inl hover
          | some b =>
            simp only [popReady,ht,Option.getD_some,hscan,if_neg hall] at hover
            exact .inl hover
    · simp only [if_neg hn] at h
      cases h
      exact .inl hover
  | update blockid ok sid now =>
    cases h
    cases hacc : acceptedBlock t blockid sid with
    | none =>
      simp only [tasktableUpdateStatus,hacc] at hover
      exact .inl hover
    | some d =>
      by_cases hdone : d.cmdid = .md5sum ∧ ok
      · obtain ⟨hmd5,rfl⟩ := hdone
        exact .inr (.inr ⟨blockid,sid,now,d,rfl,hacc,hmd5⟩)
      · refine .inl ?_
        cases ok with
        | true =>
          have hcmd : d.cmdid ≠ .md5sum := fun hmd5 => hdone ⟨hmd5,rfl⟩
          simp only [tasktableUpdateStatus,hacc,if_neg hcmd,if_true] at hover
          split_ifs at hover
          · simpa using hover
          · exact hover
        | false =>
          simp only [tasktableUpdateStatus,hacc,Bool.false_eq_true,if_false,reduceCtorEq,false_and] at hover
          split_ifs at hover <;> simpa using hover
  | checkTimeout timeout now =>
    simp only [TaskOp.run,tasktableCheckTimeout,ht] at h
    cases h
    refine .inl ?_
    split_ifs at hover
    · simpa using hover
    · exact hover

end

/-! ### What is there of the file -/

section

variable {job : TransferJob} {disk disk' : Disk} {blockSize : ℕ} {hpos : 0 < blockSize} {e d : TBlock}
  {x y : Transfer} {c : LqCommand}

/-- The file is what is sent. -/
theorem whole_iff : disk job.file = some job.source ↔ ∀ i, Agrees job disk i := by
  constructor
  · intro h i
    exact ⟨_,h,rfl⟩
  · intro h
    obtain ⟨content,hfile,-⟩ := h 0
    rw [hfile]
    congr 1
    apply List.ext_getElem?
    intro i
    obtain ⟨content',hfile',hi⟩ := h i
    rw [hfile] at hfile'
    cases hfile'
    exact hi

theorem Sized.beyond (h : Sized job disk) {i : ℕ} (hi : job.source.length ≤ i) : Agrees job disk i := by
  obtain ⟨content,hfile,hlen⟩ := h
  refine ⟨content,hfile,?_⟩
  rw [List.getElem?_eq_none (by omega),List.getElem?_eq_none hi]

/-- What the command of a block is to bring about. -/
structure Done (job : TransferJob) (disk : Disk) (e : TBlock) : Prop where
  sized : Sized job disk
  put : e.cmdid = .put → ∀ i, e.offset ≤ i → i < e.offset+e.size → Agrees job disk i
  md5sum : e.cmdid = .md5sum → disk job.file = some job.source

theorem Done.keeps (h : Done job disk e) (hkeep : Sized job disk → Keeps job disk disk') : Done job disk' e := by
  have hkeep := hkeep h.sized
  refine ⟨hkeep.sized,fun hput i hi hlt => hkeep.agrees i (h.put hput i hi hlt),fun hmd5 => ?_⟩
  exact whole_iff.mpr fun i => hkeep.agrees i (whole_iff.mp (h.md5sum hmd5) i)

theorem Done.of_key (h : Done job disk e) (hkey : d.key = e.key) : Done job disk d := by
  simp only [TBlock.key,TBlock.plan,Prod.mk.injEq] at hkey
  obtain ⟨-,hcmd,hoff,hsize⟩ := hkey
  refine ⟨h.sized,?_,?_⟩
  · rw [hcmd,hoff,hsize]
    exact h.put
  · rw [hcmd]
    exact h.md5sum

/-- How far the server is with a block. -/
def Serving.Fits (job : TransferJob) (disk : Disk) (e : TBlock) (pushed : List UInt8) : Serving → Prop
  | sent => e.cmdid = .put → pushed = job.part e.offset e.size
  | waiting => True
  | receiving path offset left => e.cmdid = .put ∧ path = job.file ∧ e.offset ≤ offset ∧
      offset+left = e.offset+e.size ∧ pushed = job.part offset left ∧
      ∀ i, e.offset ≤ i → i < offset → Agrees job disk i
  | answered resp => (resp = .ok → Done job disk e) ∧ (e.cmdid = .md5sum → resp = .ok ∨ resp = .serverError)

/-- A command for a block, which is sent when the ones in front of it are done. -/
structure LqCommand.For (job : TransferJob) (disk : Disk) (e : TBlock) (c : LqCommand) : Prop where
  cid : c.cid = e.id
  text : c.text = (e.command (urlencode job.name) job.md5).1
  serving : c.serving.Fits job disk e c.pushed
  sized : e.cmdid ≠ .truncate → Sized job disk
  whole : e.cmdid = .md5sum → disk job.file = some job.source

theorem LqCommand.For.keeps (h : c.For job disk e) (hkeep : Sized job disk → Keeps job disk disk') :
    c.For job disk' e := by
  refine ⟨h.cid,h.text,?_,fun hne => (hkeep (h.sized hne)).sized,fun hmd5 => ?_⟩
  · have hfits := h.serving
    cases hserving : c.serving with
    | sent =>
      rw [hserving] at hfits
      exact hfits
    | waiting => trivial
    | receiving path offset left =>
      rw [hserving] at hfits
      obtain ⟨hput,hpath,hlow,hend,hpushed,hagree⟩ := hfits
      have hne : e.cmdid ≠ .truncate := by
        rw [hput]
        decide
      exact ⟨hput,hpath,hlow,hend,hpushed,fun i hi hlt => (hkeep (h.sized hne)).agrees i (hagree i hi hlt)⟩
    | answered resp =>
      rw [hserving] at hfits
      exact ⟨fun hok => (hfits.1 hok).keeps hkeep,hfits.2⟩
  · have hwhole := h.whole hmd5
    have hsized : Sized job disk := ⟨_,hwhole,rfl⟩
    exact whole_iff.mpr fun i => (hkeep hsized).agrees i (whole_iff.mp hwhole i)

/-- The blocks that are over are done, and so are those whose commands were answered. -/
structure TransferInv (job : TransferJob) (hpos : 0 < blockSize) (x : Transfer) : Prop where
  table : ∀ blocks, x.table.status = some blocks →
    blocks.map TBlock.key = (fileTable id blockSize hpos job.source.length).map TBlock.key
  done : ∀ blocks, x.table.status = some blocks → ∀ b ∈ blocks, b.status = .over → Done job x.disk b
  commands : ∀ c ∈ x.commands, ∃ e ∈ fileTable id blockSize hpos job.source.length, c.For job x.disk e
  reports : ∀ r ∈ x.reports, r.ok → ∃ e ∈ fileTable id blockSize hpos job.source.length, r.cid = e.id ∧ Done job x.disk e
  finished : x.table.runningTask.status = .over → x.disk job.file = some job.source

/-- A change of the files that keeps what is there. -/
theorem TransferInv.files (h : TransferInv job hpos x) (hkeep : Sized job x.disk → Keeps job x.disk disk') :
    TransferInv job hpos { x with disk := disk' } := by
  refine ⟨h.table,fun blocks hb b hmem hover => (h.done blocks hb b hmem hover).keeps hkeep,fun c hc => ?_,
    fun r hr hok => ?_,fun hover => ?_⟩
  · obtain ⟨e,he,hfor⟩ := h.commands c hc
    exact ⟨e,he,hfor.keeps hkeep⟩
  · obtain ⟨e,he,hcid,hdone⟩ := h.reports r hr hok
    exact ⟨e,he,hcid,hdone.keeps hkeep⟩
  · have hwhole := h.finished hover
    have hsized : Sized job x.disk := ⟨_,hwhole,rfl⟩
    exact whole_iff.mpr fun i => (hkeep hsized).agrees i (whole_iff.mp hwhole i)

/-- A command that the server gets on with. -/
theorem TransferInv.set (h : TransferInv job hpos x) (i : ℕ) (he : e ∈ fileTable id blockSize hpos job.source.length)
    (hfor : c.For job x.disk e) : TransferInv job hpos { x with commands := x.commands.set i c } := by
  refine ⟨h.table,h.done,fun d hd => ?_,h.reports,h.finished⟩
  rcases List.mem_or_eq_of_mem_set hd with hd | rfl
  · exact h.commands d hd
  · exact ⟨e,he,hfor⟩

/-- The entry of the file for a block. -/
theorem TransferInv.entry (h : TransferInv job hpos x) {blocks : List TBlock} (hb : x.table.status = some blocks)
    {i : ℕ} (hd : blocks[i]? = some d) :
    ∃ e ∈ fileTable id blockSize hpos job.source.length, d.key = e.key ∧ e.id = i := by
  have hkeys := congrArg (fun l => l[i]?) (h.table blocks hb)
  simp only [List.getElem?_map,hd,Option.map_some] at hkeys
  obtain ⟨e,he,hkey⟩ := Option.map_eq_some_iff.mp hkeys.symm
  exact ⟨e,List.mem_of_getElem? he,hkey.symm,fileTable_id he⟩

theorem TransferInv.block (h : TransferInv job hpos x) {blocks : List TBlock} (hb : x.table.status = some blocks)
    (he : e ∈ fileTable id blockSize hpos job.source.length) : ∃ d, blocks[e.id]? = some d ∧ d.key = e.key := by
  have hkeys := congrArg (fun l => l[e.id]?) (h.table blocks hb)
  simp only [List.getElem?_map,fileTable_at he,Option.map_some] at hkeys
  exact Option.map_eq_some_iff.mp hkeys

theorem TransferInv.plan (h : TransferInv job hpos x) {blocks : List TBlock} (hb : x.table.status = some blocks) :
    blocks.map TBlock.plan = (fileTable id blockSize hpos job.source.length).map TBlock.plan := by
  have hkeys := congrArg (List.map Prod.snd) (h.table blocks hb)
  simpa [TBlock.key,Function.comp_def] using hkeys

/-- A block that is handed out is for a file that the blocks in front of it have prepared. -/
theorem TransferInv.handed (h : TransferInv job hpos x) {u : TaskTable} {b : ℕ} {fd : ℤ} {blocks : List TBlock}
    (hstep : TaskStep x.table (.handed b fd) u) (hb : x.table.status = some blocks) (hd : blocks[b]? = some d) :
    (d.cmdid ≠ .truncate → Sized job x.disk) ∧ (d.cmdid = .md5sum → x.disk job.file = some job.source) := by
  obtain ⟨front,d',back,rfl,rfl,-,htrunc,hover⟩ := hstep.scan hb
  have hdd : d' = d := by simpa using hd
  subst hdd
  have hplan := h.plan hb
  have hsized : d'.cmdid ≠ .truncate → Sized job x.disk := by
    intro hne
    obtain ⟨first,rest,hfirst,hcmd⟩ := first_truncate hplan
    cases front with
    | nil =>
      cases hfirst
      exact absurd hcmd hne
    | cons f front =>
      rw [List.cons_append] at hfirst
      obtain ⟨rfl,-⟩ := List.cons.inj hfirst
      exact (h.done _ hb f (by simp) (htrunc f (by simp) hcmd)).sized
  refine ⟨hsized,fun hmd5 => whole_iff.mpr fun i => ?_⟩
  have hback := last_md5sum hplan hmd5
  subst hback
  rcases lt_or_ge i job.source.length with hi | hi
  · obtain ⟨e,he,hput,hlow,hhigh⟩ := fileTable_cover hpos hi
    obtain ⟨g,hg,hkey⟩ := h.block hb he
    have hgput : g.cmdid = .put := by
      simp only [TBlock.key,TBlock.plan,Prod.mk.injEq] at hkey
      exact hkey.2.1.trans hput
    have hmem : g ∈ front := by
      rcases List.mem_append.mp (List.mem_of_getElem? hg) with hg | hg
      · exact hg
      · rw [List.mem_singleton.mp hg,hmd5] at hgput
        cases hgput
    have hdone := (h.done _ hb g (by simp [hmem]) (hover hmd5 g hmem)).of_key hkey.symm
    exact hdone.put hput i hlow hhigh
  · refine (hsized ?_).beyond hi
    rw [hmd5]
    decide

/-- A change of the table; a block that is reported to be over is done. -/
theorem TransferInv.change (h : TransferInv job hpos x) {ev : TaskEvent} {u : TaskTable} {blocks : List TBlock}
    (hb : x.table.status = some blocks) (hchange : TableChange blocks ev u.status)
    (hnew : ∀ i, ev = .reported i .over →
      ∃ e ∈ fileTable id blockSize hpos job.source.length, e.id = i ∧ Done job x.disk e)
    (hfinished : u.runningTask.status = .over → x.disk job.file = some job.source) :
    TransferInv job hpos { x with table := u } := by
  refine ⟨fun bs hbs => (hchange.key hbs).trans (h.table blocks hb),fun bs hbs b hmem hover => ?_,h.commands,h.reports,
    hfinished⟩
  obtain ⟨i,hi⟩ := List.mem_iff_getElem?.mp hmem
  have hkeys := congrArg (fun l => l[i]?) (hchange.key hbs)
  simp only [List.getElem?_map,hi,Option.map_some] at hkeys
  obtain ⟨c,hc,hkey⟩ := Option.map_eq_some_iff.mp hkeys.symm
  rcases hchange.over hbs hi hover with ⟨c',hc',hover'⟩ | hreported
  · cases hc.symm.trans hc'
    exact (h.done blocks hb c (List.mem_of_getElem? hc) hover').of_key hkey.symm
  · obtain ⟨e,he,rfl,hdone⟩ := hnew i hreported
    obtain ⟨e',he',hkey',hid⟩ := h.entry hb hc
    have hsame : e' = e := by
      have hat := fileTable_at he'
      rw [hid,fileTable_at he] at hat
      exact (Option.some.inj hat).symm
    subst hsame
    exact hdone.of_key (hkey.symm.trans hkey')

/-- When all blocks are over, that of the sum is. -/
theorem TransferInv.all_over (h : TransferInv job hpos x) {blocks : List TBlock} (hb : x.table.status = some blocks)
    (hall : ∀ d ∈ blocks, d.status = .over) : x.disk job.file = some job.source := by
  have hlast : TBlock.entry (blockCount job.source.length blockSize+1) .md5sum 0 job.source.length ∈
      fileTable id blockSize hpos job.source.length := by
    simp [fileTable]
  obtain ⟨d,hd,hkey⟩ := h.block hb hlast
  have hmem := List.mem_of_getElem? hd
  exact ((h.done blocks hb d hmem (hall d hmem)).of_key hkey.symm).md5sum rfl

theorem TransferInv.hand (h : TransferInv job hpos x) {u : TaskTable} {b : ℕ} {fd : ℤ} {blocks : List TBlock}
    (hstep : TaskStep x.table (.handed b fd) u) (hu : u.status = some blocks) (hd : blocks[b]? = some d)
    (current : ℤ → Option ℕ) : TransferInv job hpos { x with
      table := u
      current := current
      commands := x.commands ++ [job.send d] } := by
  obtain ⟨blocks₀,hb⟩ := Option.ne_none_iff_exists'.mp hstep.1
  have hchange := hstep.change hb
  have hfinished : u.runningTask.status = .over → x.disk job.file = some job.source := by
    intro hover
    obtain ⟨-,op,hop⟩ := hstep
    rcases op.finished hop hb hover with hover | ⟨-,hall⟩ | ⟨blockid,sid,now,d',rfl,hacc,-⟩
    · exact h.finished hover
    · exact h.all_over hb hall
    · simp [TaskOp.run,hacc] at hop
  have hnext := h.change hb hchange (fun i hi => by cases hi) hfinished
  refine ⟨hnext.table,hnext.done,fun c hc => ?_,hnext.reports,hnext.finished⟩
  rcases List.mem_append.mp hc with hc | hc
  · exact h.commands c hc
  · rw [List.mem_singleton.mp hc]
    obtain ⟨e,he,hkey,hid⟩ := hnext.entry hu hd
    have hkeys := congrArg (fun l => l[b]?) (hchange.key hu)
    simp only [List.getElem?_map,hd,Option.map_some] at hkeys
    obtain ⟨d₀,hd₀,hkey₀⟩ := Option.map_eq_some_iff.mp hkeys.symm
    obtain ⟨hsized,hwhole⟩ := h.handed hstep hb hd₀
    simp only [TBlock.key,TBlock.plan,Prod.mk.injEq] at hkey hkey₀
    obtain ⟨hkid,hkcmd,hkoff,hksize⟩ := hkey
    rw [hkey₀.2.1,hkcmd] at hsized hwhole
    refine ⟨e,he,hkid,?_,fun hput => ?_,hsized,hwhole⟩
    · simp only [TransferJob.send,TBlock.command,hkcmd,hkoff,hksize]
    · simp only [TransferJob.send,TBlock.command,hkcmd,hkoff,hksize,hput]
      rfl

theorem TransferInv.report (h : TransferInv job hpos x) {r : LqReport} {u : TaskTable} {ev : TaskEvent} {now : ℤ}
    (hr : r ∈ x.reports) (hstep : (TaskOp.update r.cid r.ok r.fd now).run x.table = some (u,ev)) :
    TransferInv job hpos { x with table := u } := by
  cases hb : x.table.status with
  | none =>
    have hnone : acceptedBlock x.table r.cid r.fd = none := by simp [acceptedBlock,hb]
    simp only [TaskOp.run,tasktableUpdateStatus,hnone] at hstep
    cases hstep
    exact h
  | some blocks =>
    have hstatus : ∀ ok : Bool, (if ok then BlockStatus.over else .error) = .over ∨
        (if ok then BlockStatus.over else .error) = .error := by
      intro ok
      cases ok <;> simp
    have hchange := updateStatus_change hb r.cid (hstatus r.ok) r.fd now
    have hdone : r.ok → ∃ e ∈ fileTable id blockSize hpos job.source.length, e.id = r.cid ∧ Done job x.disk e := by
      intro hok
      obtain ⟨e,he,hcid,hdone⟩ := h.reports r hr hok
      exact ⟨e,he,hcid.symm,hdone⟩
    have hover := TaskOp.finished _ hstep hb
    cases hstep
    refine h.change hb hchange (fun i hi => ?_) fun hfinished => ?_
    · split_ifs at hi with hacc hok
      · have hcid : r.cid = i := by simpa using hi
        rw [← hcid]
        exact hdone hok
      · simp at hi
    · rcases hover hfinished with hover | ⟨-,hall⟩ | ⟨blockid,sid,now',d,heq,hacc,hmd5⟩
      · exact h.finished hover
      · exact h.all_over hb hall
      · -- The block of the sum was reported, which is that of the command.
        simp only [TaskOp.update.injEq] at heq
        obtain ⟨rfl,hok,rfl,-⟩ := heq
        obtain ⟨e,he,hid,hdone⟩ := hdone hok
        obtain ⟨g,hg,hkey⟩ := h.block hb he
        have hd : blocks[r.cid]? = some d := by
          simp only [acceptedBlock,hb,Option.getD_some] at hacc
          split_ifs at hacc
          exact (Option.filter_eq_some_iff.mp hacc).1
        rw [← hid,hg] at hd
        cases hd
        exact (hdone.of_key hkey).md5sum hmd5

theorem TransferInv.quiet (h : TransferInv job hpos x) {u : TaskTable} {ev : TaskEvent} (hstep : TaskStep x.table ev u)
    (hover : ∀ b, ev ≠ .reported b .over) : TransferInv job hpos { x with table := u } := by
  obtain ⟨blocks,hb⟩ := Option.ne_none_iff_exists'.mp hstep.1
  refine h.change hb (hstep.change hb) (fun i hi => absurd hi (hover i)) fun hfinished => ?_
  obtain ⟨-,op,hop⟩ := hstep
  rcases op.finished hop hb hfinished with hdone | ⟨-,hall⟩ | ⟨blockid,sid,now,d,rfl,hacc,-⟩
  · exact h.finished hdone
  · exact h.all_over hb hall
  · simp only [TaskOp.run,hacc,Option.isSome_some,if_true,Option.some.injEq,Prod.mk.injEq] at hop
    exact absurd hop.2.symm (hover blockid.toNat)

theorem md5_length (job : TransferJob) : job.md5.length = MD5SUM_SIZE := by
  rw [TransferJob.md5,md5_fileReads,Option.getD_some,length_md5Hex,length_md5Digest]
  rfl

theorem md5_line (job : TransferJob) : 10 ∉ job.md5 := by
  have hhex : ∀ n < 256, let b := UInt8.ofNat n
      lowerHex (b >>> 4) ≠ 10 ∧ lowerHex (b &&& 15) ≠ 10 := by
    decide +kernel
  intro hmem
  obtain ⟨b,-,hb⟩ := List.mem_flatMap.mp hmem
  have hbyte := hhex b.toNat b.toNat_lt
  simp only [UInt8.ofNat_toNat] at hbyte
  simp only [List.mem_cons,List.not_mem_nil,or_false] at hb
  rcases hb with hb | hb
  · exact hbyte.1 hb.symm
  · exact hbyte.2 hb.symm

/-- A command is served as its block asks for. -/
theorem TransferInv.serve (h : TransferInv job hpos x) (hname : SentName job.root job.name) (hsize : job.source.length < 2^63)
    {i : ℕ} {calls : DiskCalls} {behind : List UInt8} {reaction : LqReaction} (hc : x.commands[i]? = some c)
    (hsent : c.serving = .sent)
    (hserve : cbPacketHandler calls x.disk job.root c.text behind = some (disk',reaction)) :
    TransferInv job hpos { x with
      disk := disk'
      commands := x.commands.set i { c with serving := reaction.serving } } := by
  obtain ⟨e,he,hfor⟩ := h.commands c (List.mem_of_getElem? hc)
  have hof := fileTable_of rfl he
  have hfits := hof.fits
  rw [hfor.text,command_served hname hof.cmd (by omega) (md5_length job) (md5_line job)] at hserve
  change some (e.serve calls x.disk job.file job.md5) = _ at hserve
  have hpair := Option.some.inj hserve
  have hdisk : (e.serve calls x.disk job.file job.md5).1 = disk' := congrArg Prod.fst hpair
  have hreaction : (e.serve calls x.disk job.file job.md5).2 = reaction := congrArg Prod.snd hpair
  have hkeep : Sized job x.disk → Keeps job x.disk disk' := fun hsized =>
    .same (hdisk ▸ serve_same hof hsized job.md5) hsized
  have hnext := hfor.keeps hkeep
  refine (h.files hkeep).set i he ⟨hnext.cid,hnext.text,?_,hnext.sized,hnext.whole⟩
  change reaction.serving.Fits job disk' e c.pushed
  cases hcmd : e.cmdid with
  | truncate =>
    have hrespond : ∃ r, reaction = .respond r := by
      rw [← hreaction]
      simp only [TBlock.serve,hcmd]
      split_ifs <;> exact ⟨_,rfl⟩
    obtain ⟨r,rfl⟩ := hrespond
    refine ⟨fun hok => ⟨?_,?_,?_⟩,?_⟩
    · rw [← hdisk]
      exact truncate_sized hof hcmd job.md5 (by rw [hreaction,hok])
    · simp [hcmd]
    · simp [hcmd]
    · simp [hcmd]
  | put =>
    rcases put_reaction calls x.disk hcmd job.md5 with ⟨r,hne,hr⟩ | ⟨hpos',hr⟩
    · rw [hreaction] at hr
      subst hr
      exact ⟨fun hok => absurd hok hne,by simp [hcmd]⟩
    · rw [hreaction] at hr
      subst hr
      have hserving := hfor.serving
      rw [hsent] at hserving
      have hsize' : (0 : ℤ) < e.size := by omega
      simp only [LqReaction.serving,Int.natCast_nonneg,hsize',and_self,if_true,Int.toNat_natCast]
      exact ⟨hcmd,rfl,le_rfl,rfl,hserving hcmd,fun i hi hlt => absurd hi (not_le.mpr hlt)⟩
  | del => exact absurd hcmd hof.cmd
  | md5sum =>
    obtain ⟨r,hr,hrespond⟩ := md5sum_reaction calls hcmd (hfor.whole hcmd)
    rw [hreaction] at hrespond
    subst hrespond
    exact ⟨fun _ => ⟨hnext.sized (by simp [hcmd]),by simp [hcmd],hnext.whole⟩,fun _ => hr⟩

/-- Bytes that arrive are those of their place. -/
theorem TransferInv.receive (h : TransferInv job hpos x) {i n offset left : ℕ} {path : List UInt8}
    (hc : x.commands[i]? = some c) (hreceiving : c.serving = .receiving path offset left) (h0 : 0 < n)
    (hn : n ≤ left) : TransferInv job hpos { x with
      disk := storePart x.disk path offset n c.pushed
      commands := x.commands.set i (receivePart path offset left n (decide (0 < n)) c) } := by
  rw [storePart,if_pos h0,decide_eq_true h0]
  obtain ⟨e,he,hfor⟩ := h.commands c (List.mem_of_getElem? hc)
  have hof := fileTable_of rfl he
  have hfits := hfor.serving
  rw [hreceiving] at hfits
  obtain ⟨hput,rfl,hlow,hend,hpushed,hagree⟩ := hfits
  have hsized : Sized job x.disk := hfor.sized (by simp [hput])
  have hdata : c.pushed.take n = job.part offset n := by
    rw [hpushed,TransferJob.part,List.take_take,min_eq_left hn]
    rfl
  have hrest : c.pushed.drop n = job.part (offset+n) (left-n) := by
    rw [hpushed,TransferJob.part,List.drop_take,List.drop_drop]
    rfl
  have hroom := hof.fits
  obtain ⟨hkeep,hwritten⟩ := Keeps.write hsized (show offset+n ≤ job.source.length by omega)
  rw [hdata]
  generalize Function.update x.disk job.file
    (some (writeAt offset (job.part offset n) ((x.disk job.file).getD []))) = disk' at hkeep hwritten ⊢
  have hagree' : ∀ i, e.offset ≤ i → i < offset+n → Agrees job disk' i := by
    intro i hi hlt
    rcases lt_or_ge i offset with hold | hnew
    · exact hkeep.agrees i (hagree i hi hold)
    · exact hwritten i hnew hlt
  have hnext := hfor.keeps fun _ => hkeep
  refine (h.files fun _ => hkeep).set i he ⟨hnext.cid,hnext.text,?_,hnext.sized,hnext.whole⟩
  simp only [receivePart,if_true]
  split_ifs with hlast
  · refine ⟨fun _ => ⟨hkeep.sized,fun _ i hi hlt => hagree' i hi (by omega),?_⟩,?_⟩
    · simp [hput]
    · simp [hput]
  · exact ⟨hput,rfl,by omega,by omega,hrest,hagree'⟩

/-- A step in a run in which what is received is stored. -/
theorem TransferInv.step {whole : Prop} (h : TransferInv job hpos x) (hwhole : whole)
    (hname : SentName job.root job.name) (hsize : job.source.length < 2^63)
    (hstep : TransferStep job whole x y) : TransferInv job hpos y := by
  cases hstep with
  | hand hstep hu hd => exact h.hand hstep hu hd _
  | answer hcurrent hc hserving =>
    obtain ⟨e,he,hfor⟩ := h.commands _ (List.mem_of_getElem? hc)
    have hfits := hfor.serving
    rw [hserving] at hfits
    refine ⟨h.table,h.done,h.commands,fun r hr hok => ?_,h.finished⟩
    rcases List.mem_cons.mp hr with rfl | hr
    · exact ⟨e,he,hfor.cid,hfits.1 ((cbTransportStatus_text _).mp (of_decide_eq_true hok))⟩
    · exact h.reports r hr hok
  | report hr hstep =>
    have hnext := h.report hr hstep
    exact ⟨hnext.table,hnext.done,hnext.commands,fun r hr' hok => h.reports r (List.mem_of_mem_erase hr') hok,
      hnext.finished⟩
  | quiet hstep _ hover => exact h.quiet hstep hover
  | close fd => exact ⟨h.table,h.done,h.commands,h.reports,h.finished⟩
  | serve hc hsent hserve => exact h.serve hname hsize hc hsent hserve
  | receive hc hreceiving h0 hn _ _ hk =>
    obtain rfl := hk hwhole
    exact h.receive hc hreceiving h0 hn
  | other hsame => exact h.files fun hsized => .same hsame hsized

end

end Sbase
