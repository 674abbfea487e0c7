import Sbase.Lqftp.TransferOrder

/-! The status file of lqftp: what `tasktable_dump_status` leaves of the table for
`tasktable_resume_status`. Its operations succeed. -/
namespace Sbase

open Runs

/-- The two counters in front and the blocks behind them. -/
structure StatusFile where
  runningTaskId : ℤ
  nblock : ℕ
  slots : List TBlock

/-- `tasktable_dump_status`. One block is written from `status[i]` with `i` 0; all of them are written over
what is in the file, which keeps its length. -/
def tasktableDumpStatus (t : TaskTable) (file : Option StatusFile) (blockid : ℤ) : Option StatusFile :=
  match t.status with
  | none => file
  | some blocks =>
    if 0 ≤ t.runningTask.id then
      if 0 ≤ blockid then
        file.map fun f => { f with slots := f.slots.set blockid.toNat (blocks.getD 0 zeroBlock) }
      else
        some ⟨t.runningTaskId,blocks.length,
          blocks ++ (file.elim [] StatusFile.slots).drop blocks.length⟩
    else file

/-- `tasktable_resume_status`, into zeroed blocks. -/
def tasktableResumeStatus (t : TaskTable) (file : Option StatusFile) : TaskTable × ℤ :=
  match file with
  | some f =>
    ({ t with runningTaskId := f.runningTaskId
              status := if 0 < f.nblock then
                  some ((List.range f.nblock).map fun i => f.slots.getD i zeroBlock)
                else t.status },0)
  | none => (t,-1)

/-- The table and its file, with the status that each block was last given by an update. -/
structure LqStatus where
  table : TaskTable
  file : Option StatusFile
  updated : ℕ → BlockStatus

/-- What sessions and the watchdog call while a task runs. -/
inductive StatusCall
  | update (blockid : ℤ) (status : BlockStatus) (sid now : ℤ)
  | pop (sid : ℤ) (arg : Option ℕ) (now : ℤ)
  | timeout (timeout now : ℤ)

namespace LqStatus

/-- The table as `tasktable_ready` leaves it, dumped over any older file. -/
def ready (t : TaskTable) (file : Option StatusFile) : LqStatus :=
  ⟨t,tasktableDumpStatus t file (-1),fun _ => .ready⟩

/-- The block of an accepted report, as it is dumped. -/
def report (blockid : ℤ) (status : BlockStatus) (blocks : List TBlock) : List TBlock :=
  blocks.modify blockid.toNat fun b => { b with status := status,sid := -1,arg := none }

/-- The file after `tasktable_update_status`, which dumps the block and unlinks the file with the table. -/
def updateFile (w : LqStatus) (blockid : ℤ) (status : BlockStatus) (sid : ℤ) : Option StatusFile :=
  match acceptedBlock w.table blockid sid with
  | none => w.file
  | some b =>
    let t := { w.table with status := w.table.status.map (report blockid status) }
    let file := tasktableDumpStatus t w.file blockid
    if b.cmdid = .md5sum then none else file

/-- A call; the table is gone once the task is over. -/
def step (w : LqStatus) : StatusCall → LqStatus
  | .update blockid status sid now =>
    { table := tasktableUpdateStatus w.table blockid status sid now
      file := w.updateFile blockid status sid
      updated := if (acceptedBlock w.table blockid sid).isSome then
          Function.update w.updated blockid.toNat status
        else w.updated }
  | .pop sid arg now =>
    if w.table.status = none then w
    else
      let t := (popReady w.table sid arg now).1
      { w with table := t, file := if t.status = none then none else w.file }
  | .timeout timeout now => { w with table := (tasktableCheckTimeout w.table timeout now).1 }

/-- The fields of a block that no call changes. -/
def saved (b : TBlock) : ℕ × BlockCmd × ℕ × ℕ := (b.id,b.cmdid,b.offset,b.size)

/-- A fresh process reads back the running task, and every block with the status that it was last given. -/
def Resumes (w : LqStatus) : Prop :=
  ∀ fresh : TaskTable, fresh.status = none →
    (tasktableResumeStatus fresh w.file).2 = 0 ∧
      (tasktableResumeStatus fresh w.file).1.runningTaskId = w.table.runningTaskId ∧
      ∃ blocks bs, w.table.status = some blocks ∧
        (tasktableResumeStatus fresh w.file).1.status = some bs ∧ bs.length = blocks.length ∧
        ∀ (i : ℕ) (b : TBlock), blocks[i]? = some b → ∃ c, bs[i]? = some c ∧ saved c = saved b ∧ c.status = w.updated i

/-- An update of a block other than the first one is not accepted. -/
def First (w : LqStatus) : StatusCall → Prop
  | .update blockid _ sid _ => (acceptedBlock w.table blockid sid).isSome → blockid = 0
  | _ => True

end LqStatus

/-! ### One call -/

section

variable {t : TaskTable} {blocks : List TBlock} {b : TBlock} {blockid sid now : ℤ} {status : BlockStatus}

theorem acceptedBlock_eq_some (h : acceptedBlock t blockid sid = some b) :
    0 ≤ blockid ∧ (t.status.getD [])[blockid.toNat]? = some b ∧ b.status ≠ .over := by
  unfold acceptedBlock at h
  split_ifs at h with hneg
  obtain ⟨hget,hb⟩ := Option.filter_eq_some_iff.mp h
  exact ⟨not_lt.mp hneg,hget,(of_decide_eq_true hb).1⟩

/-- The ids of the running task are kept. -/
def SameTask (t u : TaskTable) : Prop :=
  u.runningTaskId = t.runningTaskId ∧ u.runningTask.id = t.runningTask.id

/-- An accepted report marks the block, and that of the MD5SUM block frees the table. -/
theorem updateStatus_eq (h : acceptedBlock t blockid sid = some b) (status : BlockStatus) (now : ℤ) :
    SameTask t (tasktableUpdateStatus t blockid status sid now) ∧
      (tasktableUpdateStatus t blockid status sid now).status =
        if b.cmdid = .md5sum then none else t.status.map (LqStatus.report blockid status) := by
  unfold tasktableUpdateStatus SameTask
  simp only [h]
  by_cases hmd5 : b.cmdid = .md5sum
  · rw [if_pos hmd5,if_pos hmd5]
    split_ifs
    · simp
    · simp
    · simp
    · simp
  · rw [if_neg hmd5,if_neg hmd5]
    split_ifs
    · exact ⟨by simp,by rw [TaskTable.dumpTask_status]; rfl⟩
    · exact ⟨⟨rfl,rfl⟩,rfl⟩

/-- The blocks as the same ones later, none of which has become over. -/
def Unreported (blocks bs : List TBlock) : Prop :=
  bs.length = blocks.length ∧ ∀ (i : ℕ) (b : TBlock), bs[i]? = some b → ∃ c, blocks[i]? = some c ∧
    LqStatus.saved b = LqStatus.saved c ∧ (b.status = .over → c.status = .over)

theorem checkTimeout_eq (ht : t.status = some blocks) (timeout now : ℤ) :
    SameTask t (tasktableCheckTimeout t timeout now).1 ∧
      ∃ bs, (tasktableCheckTimeout t timeout now).1.status = some bs ∧ Unreported blocks bs := by
  have hmap : Unreported blocks (blocks.map fun b =>
      if b.expired timeout now then { b with status := .timeout } else b) := by
    refine ⟨List.length_map _,fun i b hb => ?_⟩
    rw [List.getElem?_map] at hb
    obtain ⟨c,hc,rfl⟩ := Option.map_eq_some_iff.mp hb
    refine ⟨c,hc,?_⟩
    split_ifs
    · exact ⟨rfl,nofun⟩
    · exact ⟨rfl,id⟩
  unfold tasktableCheckTimeout SameTask
  simp only [ht]
  split_ifs
  · exact ⟨by simp,_,by simp,hmap⟩
  · exact ⟨⟨rfl,rfl⟩,_,rfl,hmap⟩

theorem unreported_modify (blocks : List TBlock) (k : ℕ) {f : TBlock → TBlock}
    (hf : ∀ b, LqStatus.saved (f b) = LqStatus.saved b ∧ (f b).status ≠ .over) :
    Unreported blocks (blocks.modify k f) := by
  refine ⟨List.length_modify _ _ _,fun i b hb => ?_⟩
  rw [List.getElem?_modify] at hb
  obtain ⟨c,hc,rfl⟩ := Option.map_eq_some_iff.mp hb
  refine ⟨c,hc,?_⟩
  split_ifs
  · exact ⟨(hf c).1,fun hover => absurd hover (hf c).2⟩
  · exact ⟨rfl,id⟩

/-- The scan counts no more blocks than are over. -/
theorem scanBlocks_le (blocks : List TBlock) (i n nover : ℕ) :
    (scanBlocks blocks i n nover).2 ≤ nover + blocks.countP fun b => b.status = .over := by
  induction blocks generalizing i n nover with
  | nil => exact le_rfl
  | cons b bs ih =>
    rw [scanBlocks,List.countP_cons]
    by_cases hover : b.status = .over
    · rw [if_neg (not_not.mpr hover),if_pos (by simpa using hover)]
      have hrest := ih (i+1) n (nover+1)
      omega
    · have hone : (if decide (b.status = .over) = true then 1 else 0) = 0 := if_neg (by simpa using hover)
      rw [if_pos hover,hone,Nat.add_zero]
      split_ifs
      · exact Nat.le_add_right _ _
      · exact Nat.le_add_right _ _
      · have hrest := ih (i+1) (n+1) nover
        omega
      · exact Nat.le_add_right _ _
      · exact Nat.le_add_right _ _
      · exact Nat.le_add_right _ _

/-- A fetch frees the table when all of its blocks are over, and marks a block that is not. -/
theorem popReady_eq (ht : t.status = some blocks) (sid : ℤ) (arg : Option ℕ) (now : ℤ) :
    SameTask t (popReady t sid arg now).1 ∧
      (((∀ b ∈ blocks, b.status = .over) ∧ (popReady t sid arg now).1.status = none) ∨
        ∃ bs, (popReady t sid arg now).1.status = some bs ∧ Unreported blocks bs) := by
  cases hscan : scanBlocks blocks 0 0 0 with
  | mk block nover =>
    cases block with
    | some k =>
      have hless : ¬ (nover > 0 ∧ nover = blocks.length ∧ t.runningTask.status ≠ .over) := by
        have hnover := scanBlocks_nover hscan
        omega
      simp only [popReady,ht,Option.getD_some,hscan,if_neg hless,Option.map_some]
      exact ⟨⟨rfl,rfl⟩,.inr ⟨_,rfl,unreported_modify blocks k fun b => ⟨rfl,fun hover => by cases hover⟩⟩⟩
    | none =>
      simp only [popReady,ht,Option.getD_some,hscan]
      by_cases hall : nover > 0 ∧ nover = blocks.length ∧ t.runningTask.status ≠ .over
      · rw [if_pos hall]
        refine ⟨⟨by simp,by simp⟩,.inl ⟨?_,rfl⟩⟩
        have hcount := scanBlocks_le blocks 0 0 0
        rw [hscan,Nat.zero_add] at hcount
        have hfull := le_antisymm List.countP_le_length (hall.2.1.symm.trans_le hcount)
        exact fun b hb => of_decide_eq_true (List.countP_eq_length.mp hfull b hb)
      · rw [if_neg hall]
        exact ⟨⟨rfl,rfl⟩,.inr ⟨blocks,ht,rfl,fun i b hb => ⟨b,hb,rfl,id⟩⟩⟩

end

/-! ### Runs -/

namespace LqStatus

/-- The file has every block as it was last reported, and no block but the first one has been. -/
structure Kept (w : LqStatus) (blocks : List TBlock) (f : StatusFile) : Prop where
  status : w.table.status = some blocks
  file : w.file = some f
  task : f.runningTaskId = w.table.runningTaskId
  id : 0 ≤ w.table.runningTask.id
  nblock : f.nblock = blocks.length
  two : 2 ≤ blocks.length
  truncate : ∀ (i : ℕ) (b : TBlock), blocks[i]? = some b → (b.cmdid = .truncate ↔ i = 0)
  working : ∀ (i : ℕ) (b : TBlock), blocks[i]? = some b → 0 < i → b.status ≠ .over
  slots : ∀ (i : ℕ) (b : TBlock), blocks[i]? = some b → ∃ c, f.slots[i]? = some c ∧ saved c = saved b ∧ c.status = w.updated i

section

variable {w : LqStatus} {blocks : List TBlock} {f : StatusFile} {c : StatusCall}

theorem Kept.first (h : Kept w blocks f) {b : TBlock} (hb : blocks[0]? = some b) : b.cmdid ≠ .md5sum := by
  rw [(h.truncate 0 b hb).mpr rfl]
  decide

theorem Kept.resumes (h : Kept w blocks f) : w.Resumes := by
  intro fresh _
  have hpos : 0 < f.nblock := by
    rw [h.nblock]
    exact lt_of_lt_of_le (by decide) h.two
  rw [h.file,tasktableResumeStatus,if_pos hpos]
  refine ⟨rfl,h.task,blocks,_,h.status,rfl,?_,fun i b hb => ?_⟩
  · rw [List.length_map,List.length_range,h.nblock]
  · obtain ⟨c,hc,hsaved,hstatus⟩ := h.slots i b hb
    have hi : i < f.nblock := by
      rw [h.nblock]
      exact (List.getElem?_eq_some_iff.mp hb).1
    refine ⟨c,?_,hsaved,hstatus⟩
    rw [List.getElem?_map,List.getElem?_range hi,Option.map_some,List.getD_eq_getElem?_getD,hc]
    rfl

/-- Calls that report nothing. -/
theorem Kept.quiet (h : Kept w blocks f) {t : TaskTable} {bs : List TBlock} (hsame : SameTask w.table t)
    (ht : t.status = some bs) (hbs : Unreported blocks bs) : Kept { w with table := t } bs f where
  status := ht
  file := h.file
  task := h.task.trans hsame.1.symm
  id := h.id.trans_eq hsame.2.symm
  nblock := h.nblock.trans hbs.1.symm
  two := h.two.trans_eq hbs.1.symm
  truncate i b hb := by
    obtain ⟨c,hc,hsaved,-⟩ := hbs.2 i b hb
    rw [← h.truncate i c hc]
    exact Eq.congr_left (congrArg (fun x => x.2.1) hsaved)
  working i b hb hi := by
    obtain ⟨c,hc,-,hover⟩ := hbs.2 i b hb
    exact fun hb => h.working i c hc hi (hover hb)
  slots i b hb := by
    obtain ⟨c,hc,hsaved,-⟩ := hbs.2 i b hb
    obtain ⟨d,hd,hd',hstatus⟩ := h.slots i c hc
    exact ⟨d,hd,hd'.trans hsaved.symm,hstatus⟩

theorem Kept.pop (h : Kept w blocks f) (sid : ℤ) (arg : Option ℕ) (now : ℤ) :
    ∃ bs, Kept (w.step (.pop sid arg now)) bs f := by
  obtain ⟨hsame,⟨hall,-⟩ | ⟨bs,ht,hbs⟩⟩ := popReady_eq h.status sid arg now
  · have htwo := h.two
    have hlast : blocks[1]? = some blocks[1] := List.getElem?_eq_getElem _
    exact absurd (hall _ (List.getElem_mem _)) (h.working 1 _ hlast Nat.one_pos)
  · refine ⟨bs,?_⟩
    have hstep : w.step (.pop sid arg now) = { w with table := (popReady w.table sid arg now).1 } := by
      rw [step,if_neg (by rw [h.status]; nofun)]
      dsimp only
      rw [if_neg (by rw [ht]; nofun)]
    rw [hstep]
    exact h.quiet hsame ht hbs

theorem Kept.timeout (h : Kept w blocks f) (timeout now : ℤ) :
    ∃ bs, Kept (w.step (.timeout timeout now)) bs f := by
  obtain ⟨hsame,bs,ht,hbs⟩ := checkTimeout_eq h.status timeout now
  exact ⟨bs,h.quiet hsame ht hbs⟩

/-- What an accepted report does to the table and the file. -/
theorem Kept.report (h : Kept w blocks f) {blockid sid : ℤ} {b : TBlock}
    (hacc : acceptedBlock w.table blockid sid = some b) (hmd5 : b.cmdid ≠ .md5sum) (status : BlockStatus)
    (now : ℤ) :
    SameTask w.table (w.step (.update blockid status sid now)).table ∧
      (w.step (.update blockid status sid now)).table.status = some (LqStatus.report blockid status blocks) ∧
      (w.step (.update blockid status sid now)).file = some { f with
        slots := f.slots.set blockid.toNat ((LqStatus.report blockid status blocks).getD 0 zeroBlock) } ∧
      (w.step (.update blockid status sid now)).updated = Function.update w.updated blockid.toNat status := by
  obtain ⟨hsame,hstatus⟩ := updateStatus_eq hacc status now
  rw [if_neg hmd5,h.status] at hstatus
  refine ⟨hsame,hstatus,?_,?_⟩
  · have hpos := (acceptedBlock_eq_some hacc).1
    simp only [step,updateFile,hacc,if_neg hmd5,tasktableDumpStatus,h.status,Option.map_some,if_pos h.id,
      if_pos hpos,h.file]
  · simp only [step,hacc,Option.isSome_some,if_true]

theorem report_getElem? (blockid : ℤ) (status : BlockStatus) (blocks : List TBlock) (i : ℕ) :
    (LqStatus.report blockid status blocks)[i]? = (blocks[i]?).map fun b =>
      if blockid.toNat = i then { b with status := status,sid := -1,arg := none } else b :=
  List.getElem?_modify _ _ _ _

/-- A report that is not accepted does nothing. -/
theorem step_refused {blockid sid : ℤ} (hacc : acceptedBlock w.table blockid sid = none)
    (status : BlockStatus) (now : ℤ) : w.step (.update blockid status sid now) = w := by
  simp only [step,tasktableUpdateStatus,updateFile,hacc,Option.isSome_none,Bool.false_eq_true,if_false]

theorem Kept.accepted (h : Kept w blocks f) {blockid sid : ℤ} {b : TBlock}
    (hacc : acceptedBlock w.table blockid sid = some b) : 0 ≤ blockid ∧ blocks[blockid.toNat]? = some b := by
  obtain ⟨hpos,hget,-⟩ := acceptedBlock_eq_some hacc
  rw [h.status] at hget
  exact ⟨hpos,hget⟩

/-- The first block is dumped in its place. -/
theorem Kept.update (h : Kept w blocks f) {blockid sid : ℤ} {status : BlockStatus} {now : ℤ}
    (hfirst : w.First (.update blockid status sid now)) :
    ∃ bs g, Kept (w.step (.update blockid status sid now)) bs g := by
  cases hacc : acceptedBlock w.table blockid sid with
  | none =>
    rw [step_refused hacc]
    exact ⟨blocks,f,h⟩
  | some b =>
    obtain rfl : blockid = 0 := hfirst (by rw [hacc]; rfl)
    have hb := (h.accepted hacc).2
    obtain ⟨hsame,hstatus,hfile,hupdated⟩ := h.report hacc (h.first hb) status now
    have hreport := report_getElem? 0 status blocks
    have hhead : (LqStatus.report 0 status blocks).getD 0 zeroBlock =
        { b with status := status,sid := -1,arg := none } := by
      rw [List.getD_eq_getElem?_getD,hreport,show blocks[0]? = some b from hb]
      rfl
    rw [hhead] at hfile
    simp only [Int.toNat_zero] at hb hfile hupdated hreport
    refine ⟨_,_,hstatus,hfile,h.task.trans hsame.1.symm,h.id.trans_eq hsame.2.symm,?_,?_,?_,?_,?_⟩
    · exact h.nblock.trans (List.length_modify _ _ _).symm
    · exact h.two.trans_eq (List.length_modify _ _ _).symm
    · intro i c hc
      rw [hreport] at hc
      obtain ⟨d,hd,rfl⟩ := Option.map_eq_some_iff.mp hc
      split_ifs
      · exact h.truncate i d hd
      · exact h.truncate i d hd
    · intro i c hc hi
      rw [hreport] at hc
      obtain ⟨d,hd,rfl⟩ := Option.map_eq_some_iff.mp hc
      rw [if_neg hi.ne]
      exact h.working i d hd hi
    · intro i c hc
      rw [hreport] at hc
      obtain ⟨d,hd,rfl⟩ := Option.map_eq_some_iff.mp hc
      obtain ⟨e,he,hsaved,hstat⟩ := h.slots i d hd
      rw [hupdated]
      by_cases hi : i = 0
      · subst hi
        have hroom := (List.getElem?_eq_some_iff.mp he).1
        cases hb.symm.trans hd
        exact ⟨_,List.getElem?_set_self hroom,rfl,by rw [Function.update_self]⟩
      · refine ⟨e,?_,?_,hstat.trans (Function.update_of_ne hi _ _).symm⟩
        · rw [← he]
          exact List.getElem?_set_ne (Ne.symm hi)
        · rw [if_neg (Ne.symm hi)]
          exact hsaved

/-- Any other block is given the place of the first one in the file, or the file is gone. -/
theorem Kept.not_resumes (h : Kept w blocks f) (hc : ¬ w.First c) : ¬ (w.step c).Resumes := by
  cases c with
  | pop | timeout => exact absurd trivial hc
  | update blockid status sid now =>
    rw [First,Classical.not_imp] at hc
    obtain ⟨hsome,hne⟩ := hc
    obtain ⟨b,hacc⟩ := Option.isSome_iff_exists.mp hsome
    obtain ⟨hpos,hb⟩ := h.accepted hacc
    intro hresumes
    have hfresh := hresumes { w.table with status := none } rfl
    by_cases hmd5 : b.cmdid = .md5sum
    · have hfile : (w.step (.update blockid status sid now)).file = none := by
        simp only [step,updateFile,hacc,if_pos hmd5]
      rw [hfile] at hfresh
      exact absurd (show (-1 : ℤ) = 0 from hfresh.1) (by decide)
    · obtain ⟨-,hstatus,hfile,-⟩ := h.report hacc hmd5 status now
      have hi : 0 < blockid.toNat := by omega
      obtain ⟨d,hd,hslot,-⟩ := h.slots _ _ hb
      have hlen := (List.getElem?_eq_some_iff.mp hb).1
      have hroom := (List.getElem?_eq_some_iff.mp hd).1
      have hreport := report_getElem? blockid status blocks
      have hhead : ((LqStatus.report blockid status blocks).getD 0 zeroBlock).cmdid = .truncate := by
        obtain ⟨a,ha⟩ : ∃ a, blocks[0]? = some a := ⟨_,List.getElem?_eq_getElem (by omega)⟩
        rw [List.getD_eq_getElem?_getD,hreport,ha,Option.map_some,if_neg hi.ne',Option.getD_some]
        exact (h.truncate 0 a ha).mpr rfl
      obtain ⟨-,-,bs,rs,hbs,hrs,-,hall⟩ := hfresh
      cases hstatus.symm.trans hbs
      rw [hfile,tasktableResumeStatus,if_pos (by rw [h.nblock]; omega)] at hrs
      cases hrs
      obtain ⟨e,he,hsaved,-⟩ := hall blockid.toNat { b with status := status,sid := -1,arg := none } (by
        rw [hreport,hb,Option.map_some,if_pos rfl])
      rw [List.getElem?_map,List.getElem?_range (by rw [h.nblock]; exact hlen),Option.map_some,
        List.getD_eq_getElem?_getD,List.getElem?_set_self hroom] at he
      cases he
      have hcmd : ((LqStatus.report blockid status blocks).getD 0 zeroBlock).cmdid = b.cmdid :=
        congrArg (fun x => x.2.1) hsaved
      exact hi.ne' ((h.truncate _ b hb).mp (hcmd.symm.trans hhead))

/-- The step lemma of the file. -/
theorem Kept.step (h : Kept w blocks f) (hc : w.First c) : ∃ bs g, Kept (w.step c) bs g := by
  cases c with
  | update blockid status sid now => exact h.update hc
  | pop sid arg now =>
    obtain ⟨bs,hbs⟩ := h.pop sid arg now
    exact ⟨bs,f,hbs⟩
  | timeout timeout now =>
    obtain ⟨bs,hbs⟩ := h.timeout timeout now
    exact ⟨bs,f,hbs⟩

end

/-- The first entry of a file is its TRUNCATE block. -/
theorem fileTable_truncate {putId : ℕ → ℕ} {blockSize : ℕ} {hpos : 0 < blockSize} {i size : ℕ} {b : TBlock}
    (hb : (fileTable putId blockSize hpos size)[i]? = some b) : b.cmdid = .truncate ↔ i = 0 := by
  rw [fileTable,List.cons_append] at hb
  cases i with
  | zero =>
    cases hb
    simp [TBlock.entry]
  | succ i =>
    rw [List.getElem?_cons_succ] at hb
    have hmem := List.mem_of_getElem? hb
    rw [List.mem_append,List.mem_singleton] at hmem
    rcases hmem with hput | rfl
    · simp [cutFile_put b hput]
    · simp [TBlock.entry]

/-- The file as the table was made. -/
theorem ready_kept {t u : TaskTable} {stat : Option ℕ} (hready : tasktableReady t stat = some (u,0))
    (old : Option StatusFile) : ∃ blocks f, Kept (ready u old) blocks f := by
  cases stat with
  | none => cases hready
  | some size =>
    by_cases hid : 0 ≤ t.runningTask.id ∧ t.runningTask.id < t.ntask
    · obtain ⟨-,rfl⟩ := (tasktableReady_iff hid).mp hready
      have hdump : (ready { t with status := some (fileTable t.putId t.blockSize t.block_pos size) } old).file =
          some ⟨t.runningTaskId,(fileTable t.putId t.blockSize t.block_pos size).length,
            fileTable t.putId t.blockSize t.block_pos size ++
              (old.elim [] StatusFile.slots).drop (fileTable t.putId t.blockSize t.block_pos size).length⟩ := by
        rw [ready,tasktableDumpStatus]
        dsimp only
        rw [if_pos hid.1]
        rfl
      refine ⟨_,_,rfl,hdump,rfl,hid.1,rfl,?_,fun i b hb => fileTable_truncate hb,?_,?_⟩
      · rw [fileTable,List.length_append,List.length_cons,List.length_singleton]
        omega
      · intro i b hb _
        rw [fileTable_ready b (List.mem_of_getElem? hb)]
        intro hover
        cases hover
      · intro i b hb
        exact ⟨b,List.getElem?_append_left (List.getElem?_eq_some_iff.mp hb).1 ▸ hb,rfl,
          fileTable_ready b (List.mem_of_getElem? hb)⟩
    · rw [tasktableReady] at hready
      dsimp only at hready
      rw [if_neg hid] at hready
      cases hready

end LqStatus

/-- After `tasktable_ready`, in every state of a run, the table can be resumed from the file exactly when
no update of a block other than the first one is accepted. -/
theorem status_resume_iff {t u : TaskTable} {stat : Option ℕ} (hready : tasktableReady t stat = some (u,0))
    (old : Option StatusFile) (calls : List StatusCall) :
    (∀ cs, cs <+: calls → (cs.foldl LqStatus.step (.ready u old)).Resumes) ↔
      Allowed LqStatus.First LqStatus.step (.ready u old) calls := by
  apply always_iff_allowed (I := fun w => ∃ blocks f, LqStatus.Kept w blocks f)
  · rintro w ⟨blocks,f,h⟩
    exact h.resumes
  · rintro w c ⟨blocks,f,h⟩ hc
    exact h.step hc
  · rintro w c ⟨blocks,f,h⟩ hc
    exact h.not_resumes hc
  · exact LqStatus.ready_kept hready old

/-- The table of a file of 25 bytes in blocks of 10. -/
def smallTable : TaskTable :=
  { oneTask 10 (by decide) with status := some (fileTable (fun i => i-1) 10 (by decide) 25) }

theorem smallTable_ready : tasktableReady (oneTask 10 (by decide)) (some 25) = some (smallTable,0) :=
  (tasktableReady_iff (by decide)).mpr ⟨by decide,rfl⟩

theorem status_resume_first_block :
    (∀ cs, cs <+: [.update 0 .error 0 5,.pop 3 (some 1) 6,.update 0 .over 3 7,.timeout 2 20] →
        (cs.foldl LqStatus.step (.ready smallTable none)).Resumes) ↔
      Allowed LqStatus.First LqStatus.step (.ready smallTable none)
        [.update 0 .error 0 5,.pop 3 (some 1) 6,.update 0 .over 3 7,.timeout 2 20] :=
  status_resume_iff smallTable_ready none _

/-- A report on the second block. -/
theorem status_resume_second_block :
    tasktableReady (oneTask 10 (by decide)) (some 25) = some (smallTable,0) ∧
      ¬ (LqStatus.step (.ready smallTable none) (.update 1 .over 0 5)).Resumes := by
  refine ⟨smallTable_ready,?_⟩
  obtain ⟨blocks,f,h⟩ := LqStatus.ready_kept smallTable_ready none
  apply h.not_resumes
  intro hfirst
  have hsome : (acceptedBlock smallTable 1 0).isSome := by
    simp [acceptedBlock,smallTable,fileTable,cutFile_pos,TBlock.entry,zeroBlock]
  exact absurd (hfirst hsome) (by decide)

end Sbase
