import Sbase.Lqftp.TransferRuns

/-! A task is over only after the file of the server had the sum of what is sent: whatever the calls of the
server do, and whatever blocks of lower numbers the commands for the parts of the file are answered for. -/
namespace Sbase

open Relation

/-- The file of the server has the sum of what is sent. -/
def Summed (job : TransferJob) (disk : Disk) : Prop :=
  ∃ content, disk job.file = some content ∧ md5Hex (md5Digest content) = job.md5

/-- The block of the sum, which is the last one of the table. -/
def TransferJob.sumBlock (job : TransferJob) (blockSize : ℕ) : TBlock :=
  .entry (blockCount job.source.length blockSize+1) .md5sum 0 job.source.length

section

variable {putId : ℕ → ℕ} {blockSize size offset i : ℕ} {hpos : 0 < blockSize} {e d : TBlock}
  {blocks : List TBlock} {job : TransferJob} {disk : Disk} {x y : Transfer} {c : LqCommand} {Q Q' : Prop}

/-! ### The last block -/

theorem cutFile_id_le (hput : ∀ k, putId k ≤ k) (he : e ∈ cutFile putId blockSize hpos i offset size) :
    e.id < i+blockCount size blockSize := by
  induction size using Nat.strong_induction_on generalizing i offset with
  | _ size ih =>
    by_cases hsize : 0 < size
    · rw [cutFile_pos hsize,List.mem_cons] at he
      rw [blockCount_cut hpos hsize]
      rcases he with rfl | he
      · have hle := hput i
        change putId i < _
        omega
      · have hlt := ih _ (by split_ifs <;> omega) he
        omega
    · rw [Nat.eq_zero_of_not_pos hsize,cutFile_zero] at he
      cases he

/-- No other block has the number of the sum. -/
theorem fileTable_sum (hput : ∀ k, putId k ≤ k) (he : e ∈ fileTable putId blockSize hpos job.source.length)
    (hid : e.id = blockCount job.source.length blockSize+1) : e = job.sumBlock blockSize := by
  rw [fileTable,List.mem_append,List.mem_cons,List.mem_singleton] at he
  rcases he with (rfl | he) | rfl
  · cases hid
  · have hlt := cutFile_id_le hput he
    omega
  · rfl

/-- The block of the sum stands at the end. -/
theorem fileTable_md5sum (he : (fileTable putId blockSize hpos job.source.length)[i]? = some e)
    (hmd5 : e.cmdid = .md5sum) : i = blockCount job.source.length blockSize+1 := by
  have hlen : (TBlock.entry 0 .truncate 0 job.source.length::cutFile putId blockSize hpos 1 0
      job.source.length).length = blockCount job.source.length blockSize+1 := by
    rw [List.length_cons,length_cutFile]
  rcases lt_or_ge i (blockCount job.source.length blockSize+1) with hi | hi
  · rw [fileTable,List.getElem?_append_left (by rw [hlen]; exact hi)] at he
    rcases List.mem_cons.mp (List.mem_of_getElem? he) with rfl | he
    · cases hmd5
    · rw [cutFile_put e he] at hmd5
      cases hmd5
  · rw [fileTable,List.getElem?_append_right (by rw [hlen]; exact hi),hlen] at he
    obtain ⟨hlt,-⟩ := List.getElem?_eq_some_iff.mp he
    rw [List.length_singleton] at hlt
    omega

theorem fileTable_last : (fileTable putId blockSize hpos job.source.length)[blockCount job.source.length blockSize+1]? =
    some (job.sumBlock blockSize) := by
  have hlen : (TBlock.entry 0 .truncate 0 job.source.length::cutFile putId blockSize hpos 1 0
      job.source.length).length = blockCount job.source.length blockSize+1 := by
    rw [List.length_cons,length_cutFile]
  rw [fileTable,List.getElem?_append_right (by rw [hlen]),hlen,Nat.sub_self]
  rfl

/-! ### The answer for the sum -/

theorem lower_md5Hex (digest : List UInt8) : (md5Hex digest).map lower = md5Hex digest := by
  have hhex : ∀ n < 256, let b := UInt8.ofNat n
      lower (lowerHex (b >>> 4)) = lowerHex (b >>> 4) ∧ lower (lowerHex (b &&& 15)) = lowerHex (b &&& 15) := by
    decide +kernel
  induction digest with
  | nil => rfl
  | cons b digest ih =>
    have hbyte := hhex b.toNat b.toNat_lt
    simp only [UInt8.ofNat_toNat] at hbyte
    have hcons : md5Hex (b::digest) = lowerHex (b >>> 4)::lowerHex (b &&& 15)::md5Hex digest := by
      simp [md5Hex]
    rw [hcons,List.map_cons,List.map_cons,ih,hbyte.1,hbyte.2]

/-- The server answers that the sum is right only where its file has it. -/
theorem sumBlock_ok {calls : DiskCalls} (blockSize : ℕ)
    (hok : ((job.sumBlock blockSize).serve calls disk job.file job.md5).2 = .respond .ok) : Summed job disk := by
  simp only [TBlock.serve,TransferJob.sumBlock,TBlock.entry] at hok
  cases hfile : disk job.file with
  | none =>
    rw [hfile] at hok
    cases hok
  | some content =>
    rw [hfile] at hok
    dsimp only at hok
    split_ifs at hok with hread hsum
    · rw [TransferJob.md5,lower_md5Hex,lower_md5Hex] at hsum
      exact ⟨content,hfile,hsum.symm⟩
    · cases hok
    · cases hok

theorem sumBlock_respond (blockSize : ℕ) (disk : Disk) (calls : DiskCalls) :
    ∃ resp, ((job.sumBlock blockSize).serve calls disk job.file job.md5).2 = .respond resp := by
  simp only [TBlock.serve,TransferJob.sumBlock,TBlock.entry]
  split
  · exact ⟨_,rfl⟩
  · split_ifs
    all_goals exact ⟨_,rfl⟩

/-- What is known of the block of the sum: the table and the answers tell that it is over, and the task that it
is, only once `Q` holds. -/
structure SumInv (job : TransferJob) (putId : ℕ → ℕ) (hpos : 0 < blockSize) (Q : Prop) (x : Transfer) : Prop where
  table : ∀ blocks, x.table.status = some blocks →
    blocks.map TBlock.key = (fileTable putId blockSize hpos job.source.length).map TBlock.key
  last : ∀ blocks, x.table.status = some blocks → ∀ b,
    blocks[blockCount job.source.length blockSize+1]? = some b → b.status = .over → Q
  commands : ∀ c ∈ x.commands, c.cid = blockCount job.source.length blockSize+1 →
    c.text = ((job.sumBlock blockSize).command (urlencode job.name) job.md5).1 ∧
      (c.serving = .answered .ok → Q) ∧ ∀ path offset left, c.serving ≠ .receiving path offset left
  reports : ∀ r ∈ x.reports, r.cid = blockCount job.source.length blockSize+1 → r.ok → Q
  finished : x.table.runningTask.status = .over → Q

namespace SumInv

theorem mono (h : SumInv job putId hpos Q x) (hQ : Q → Q') : SumInv job putId hpos Q' x where
  table := h.table
  last blocks hb b hlast hover := hQ (h.last blocks hb b hlast hover)
  commands c hc hcid := ⟨(h.commands c hc hcid).1,hQ ∘ (h.commands c hc hcid).2.1,(h.commands c hc hcid).2.2⟩
  reports r hr hcid hok := hQ (h.reports r hr hcid hok)
  finished hover := hQ (h.finished hover)

/-- A block of the table and its entry of the file. -/
theorem entry (h : SumInv job putId hpos Q x) (hb : x.table.status = some blocks) (hd : blocks[i]? = some d) :
    ∃ e, (fileTable putId blockSize hpos job.source.length)[i]? = some e ∧ d.key = e.key := by
  have hkeys := congrArg (fun l => l[i]?) (h.table blocks hb)
  simp only [List.getElem?_map,hd,Option.map_some] at hkeys
  obtain ⟨e,he,hkey⟩ := Option.map_eq_some_iff.mp hkeys.symm
  exact ⟨e,he,hkey.symm⟩

/-- When all blocks are over, that of the sum is. -/
theorem all_over (h : SumInv job putId hpos Q x) (hb : x.table.status = some blocks)
    (hall : ∀ d ∈ blocks, d.status = .over) : Q := by
  have hkeys := congrArg (fun l => l[blockCount job.source.length blockSize+1]?) (h.table blocks hb)
  simp only [List.getElem?_map,fileTable_last,Option.map_some] at hkeys
  obtain ⟨d,hd,-⟩ := Option.map_eq_some_iff.mp hkeys
  exact h.last blocks hb d hd (hall d (List.mem_of_getElem? hd))

/-- A change of the table; `Q` holds where the block of the sum is reported to be over. -/
theorem change (h : SumInv job putId hpos Q x) {ev : TaskEvent} {u : TaskTable} (hb : x.table.status = some blocks)
    (hchange : TableChange blocks ev u.status)
    (hnew : ev = .reported (blockCount job.source.length blockSize+1) .over → Q)
    (hfinished : u.runningTask.status = .over → Q) : SumInv job putId hpos Q { x with table := u } := by
  refine ⟨fun bs hbs => (hchange.key hbs).trans (h.table blocks hb),fun bs hbs b hlast hover => ?_,h.commands,
    h.reports,hfinished⟩
  rcases hchange.over hbs hlast hover with ⟨c,hc,hover'⟩ | hreported
  · exact h.last blocks hb c hc hover'
  · exact hnew hreported

/-- A step of the table that reports no block to be over. -/
theorem quiet (h : SumInv job putId hpos Q x) {u : TaskTable} {ev : TaskEvent} (hstep : TaskStep x.table ev u)
    (hover : ∀ b, ev ≠ .reported b .over) : SumInv job putId hpos Q { x with table := u } := by
  obtain ⟨blocks,hb⟩ := Option.ne_none_iff_exists'.mp hstep.1
  refine h.change hb (hstep.change hb) (fun hev => absurd hev (hover _)) fun hfinished => ?_
  obtain ⟨-,op,hop⟩ := hstep
  rcases op.finished hop hb hfinished with hdone | ⟨-,hall⟩ | ⟨blockid,sid,now,d,rfl,hacc,-⟩
  · exact h.finished hdone
  · exact h.all_over hb hall
  · simp only [TaskOp.run,hacc,Option.isSome_some,if_true,Option.some.injEq,Prod.mk.injEq] at hop
    exact absurd hop.2.symm (hover blockid.toNat)

theorem report (h : SumInv job putId hpos Q x) {r : LqReport} {u : TaskTable} {ev : TaskEvent} {now : ℤ}
    (hr : r ∈ x.reports) (hstep : (TaskOp.update r.cid r.ok r.fd now).run x.table = some (u,ev)) :
    SumInv job putId hpos Q { x with table := u } := by
  cases hb : x.table.status with
  | none =>
    have hnone : acceptedBlock x.table r.cid r.fd = none := by simp [acceptedBlock,hb]
    simp only [TaskOp.run,tasktableUpdateStatus,hnone] at hstep
    cases hstep
    exact h
  | some blocks =>
    have hstatus : (if r.ok then BlockStatus.over else .error) = .over ∨
        (if r.ok then BlockStatus.over else .error) = .error := by
      cases r.ok <;> simp
    have hchange := updateStatus_change hb r.cid hstatus r.fd now
    have hover := TaskOp.finished _ hstep hb
    cases hstep
    refine h.change hb hchange (fun hev => ?_) fun hfinished => ?_
    · split_ifs at hev with hacc hok
      · have hcid : r.cid = blockCount job.source.length blockSize+1 := by simpa using hev
        exact h.reports r hr hcid hok
      · simp at hev
    · rcases hover hfinished with hover | ⟨-,hall⟩ | ⟨blockid,sid,now',d,heq,hacc,hmd5⟩
      · exact h.finished hover
      · exact h.all_over hb hall
      · simp only [TaskOp.update.injEq] at heq
        obtain ⟨rfl,hok,rfl,-⟩ := heq
        have hd : blocks[r.cid]? = some d := by
          simp only [acceptedBlock,hb,Option.getD_some] at hacc
          split_ifs at hacc
          exact (Option.filter_eq_some_iff.mp hacc).1
        obtain ⟨e,he,hkey⟩ := h.entry hb hd
        simp only [TBlock.key,TBlock.plan,Prod.mk.injEq] at hkey
        exact h.reports r hr (fileTable_md5sum he (hkey.2.1.symm.trans hmd5)) hok

/-- A block is handed out, and its command is sent. -/
theorem hand (h : SumInv job putId hpos Q x) (hput : ∀ k, putId k ≤ k) {u : TaskTable} {b : ℕ} {fd : ℤ}
    (hstep : TaskStep x.table (.handed b fd) u) (hu : u.status = some blocks) (hd : blocks[b]? = some d)
    (current : ℤ → Option ℕ) : SumInv job putId hpos Q { x with
      table := u
      current := current
      commands := x.commands ++ [job.send d] } := by
  have hnext := h.quiet hstep fun _ hev => by cases hev
  refine ⟨hnext.table,hnext.last,fun c hc hcid => ?_,hnext.reports,hnext.finished⟩
  rcases List.mem_append.mp hc with hc | hc
  · exact h.commands c hc hcid
  · rw [List.mem_singleton.mp hc] at hcid ⊢
    obtain ⟨e,he,hkey⟩ := hnext.entry hu hd
    simp only [TBlock.key,TBlock.plan,Prod.mk.injEq] at hkey
    obtain ⟨hkid,hkcmd,hkoff,hksize⟩ := hkey
    have hsum := fileTable_sum hput (List.mem_of_getElem? he) (hkid.symm.trans hcid)
    rw [hsum] at hkcmd hkoff hksize
    have hsent : (job.send d).serving = .sent := rfl
    rw [hsent]
    refine ⟨?_,⟨fun hanswered => ?_,fun path offset left hreceiving => ?_⟩⟩
    · simp only [TransferJob.send,TBlock.command,hkcmd,hkoff,hksize]
    · cases hanswered
    · cases hreceiving

/-- A command is got on with. -/
theorem set (h : SumInv job putId hpos Q x) (i : ℕ) (disk : Disk) {c' : LqCommand}
    (hc' : c'.cid = blockCount job.source.length blockSize+1 →
      c'.text = ((job.sumBlock blockSize).command (urlencode job.name) job.md5).1 ∧
        (c'.serving = .answered .ok → Q) ∧ ∀ path offset left, c'.serving ≠ .receiving path offset left) :
    SumInv job putId hpos Q { x with disk := disk, commands := x.commands.set i c' } := by
  refine ⟨h.table,h.last,fun d hd hcid => ?_,h.reports,h.finished⟩
  rcases List.mem_or_eq_of_mem_set hd with hd | rfl
  · exact h.commands d hd hcid
  · exact hc' hcid

/-- Behind a step, `Q` holds where it did or where the file had the sum before the step. -/
theorem step {whole : Prop} (h : SumInv job putId hpos Q x) (hput : ∀ k, putId k ≤ k)
    (hname : SentName job.root job.name) (hsize : job.source.length < 2^63)
    (hstep : TransferStep job whole x y) : SumInv job putId hpos (Q ∨ Summed job x.disk) y := by
  have h' : SumInv job putId hpos (Q ∨ Summed job x.disk) x := h.mono .inl
  cases hstep with
  | hand hstep hu hd => exact h'.hand hput hstep hu hd _
  | answer hcurrent hc hserving =>
    refine ⟨h'.table,h'.last,h'.commands,fun r hr hcid hok => ?_,h'.finished⟩
    rcases List.mem_cons.mp hr with rfl | hr
    · have hresp := (cbTransportStatus_text _).mp (of_decide_eq_true hok)
      refine (h'.commands _ (List.mem_of_getElem? hc) hcid).2.1 ?_
      rw [hserving,hresp]
    · exact h'.reports r hr hcid hok
  | report hr hstep =>
    have hnext := h'.report hr hstep
    exact ⟨hnext.table,hnext.last,hnext.commands,fun r hr' => h'.reports r (List.mem_of_mem_erase hr'),hnext.finished⟩
  | quiet hstep _ hover => exact h'.quiet hstep hover
  | close fd => exact ⟨h'.table,h'.last,h'.commands,h'.reports,h'.finished⟩
  | @serve i c calls behind disk' reaction hc hsent hserve =>
    refine h'.set i disk' fun hcid => ?_
    obtain ⟨htext,-,-⟩ := h'.commands c (List.mem_of_getElem? hc) hcid
    have hcmd : (job.sumBlock blockSize).cmdid ≠ .del := by simp [TransferJob.sumBlock,TBlock.entry]
    have hend : (job.sumBlock blockSize).offset+(job.sumBlock blockSize).size < 2^63 := by
      simpa [TransferJob.sumBlock,TBlock.entry] using hsize
    rw [htext,command_served hname hcmd hend (md5_length job) (md5_line job)] at hserve
    have hreaction := congrArg Prod.snd (Option.some.inj hserve)
    obtain ⟨resp,hresp⟩ : ∃ resp, ((job.sumBlock blockSize).serve calls x.disk job.file job.md5).2 = .respond resp :=
      sumBlock_respond blockSize x.disk calls
    have hrespond : reaction = .respond resp := hreaction.symm.trans hresp
    subst hrespond
    refine ⟨htext,fun hok => .inr ?_,fun _ _ _ hreceiving => by cases hreceiving⟩
    cases hok
    exact sumBlock_ok blockSize hresp
  | receive hc hreceiving _ _ _ _ _ =>
    refine h'.set _ _ fun hcid => ?_
    exact absurd hreceiving ((h'.commands _ (List.mem_of_getElem? hc) hcid).2.2 _ _ _)
  | other hsame => exact ⟨h'.table,h'.last,h'.commands,h'.reports,h'.finished⟩

end SumInv

end

/-- A transfer that begins with a table that was made ready for the file. -/
def Transfer.start (t : TaskTable) (disk : Disk) : Transfer := ⟨t,fun _ => none,[],[],disk⟩

/-- The file of the server had the sum of what is sent at some time of a run. -/
def HadSum (job : TransferJob) (whole : Prop) (start x : Transfer) : Prop :=
  ∃ y, ReflTransGen (TransferStep job whole) start y ∧ ReflTransGen (TransferStep job whole) y x ∧
    Summed job y.disk

/-- What a run from a table on guarantees that was made ready for the file. -/
theorem sumInv_run {job : TransferJob} {whole : Prop} (hname : SentName job.root job.name)
    (hsize : job.source.length < 2^63) {t₀ t : TaskTable} (hput : ∀ k, t₀.putId k ≤ k)
    (ht : t = { t₀ with status := some (fileTable t₀.putId t₀.blockSize t₀.block_pos job.source.length) })
    (hstart : t.runningTask.status ≠ .over) (disk : Disk) {x : Transfer}
    (hrun : ReflTransGen (TransferStep job whole) (Transfer.start t disk) x) :
    SumInv job t₀.putId t₀.block_pos (HadSum job whole (Transfer.start t disk) x) x := by
  induction hrun with
  | refl =>
    refine ⟨fun blocks hb => ?_,fun blocks hb b hlast hover => ?_,fun c hc => ?_,fun r hr => ?_,fun hover => ?_⟩
    · rw [ht] at hb
      cases hb
      rfl
    · rw [ht] at hb
      cases hb
      rw [fileTable_ready b (List.mem_of_getElem? hlast)] at hover
      cases hover
    · cases hc
    · cases hr
    · exact absurd hover hstart
  | @tail x y hrun hstep ih =>
    refine (ih.step hput hname hsize hstep).mono ?_
    rintro (⟨z,hz,hzx,hsum⟩ | hsum)
    · exact ⟨z,hz,hzx.tail hstep,hsum⟩
    · exact ⟨x,hrun,.single hstep,hsum⟩

/-- Whatever the order in which connections are handed blocks, fail, time out and are answered, and whatever
the server had under the name and its calls do: the task is over only after the file of the server had the
sum of what is sent. Where all that is received is stored and each block has the number of its place, that
file is what is sent once the sum is asked for and from then on, and the sum is never found wrong. -/
theorem transfer_exact (job : TransferJob) (whole : Prop) (hname : SentName job.root job.name)
    (hsize : job.source.length < 2^63) {t₀ t : TaskTable} (hput : ∀ k, t₀.putId k ≤ k)
    (hready : tasktableReady t₀ (some job.source.length) = some (t,0))
    (hstart : t.runningTask.status ≠ .over) (disk : Disk) {x : Transfer}
    (hrun : ReflTransGen (TransferStep job whole) (Transfer.start t disk) x) :
    (x.table.runningTask.status = .over → HadSum job whole (Transfer.start t disk) x) ∧
      (whole → (∀ k, t₀.putId k = k) →
        (∀ c ∈ x.commands, c.cid = blockCount job.source.length t₀.blockSize+1 →
          x.disk job.file = some job.source ∧
            ∀ resp, c.serving = .answered resp → resp = .ok ∨ resp = .serverError) ∧
        (x.table.runningTask.status = .over → x.disk job.file = some job.source)) := by
  have hid : 0 ≤ t₀.runningTask.id ∧ t₀.runningTask.id < t₀.ntask := by
    by_contra hno
    simp [tasktableReady,hno] at hready
  obtain ⟨-,ht⟩ := (tasktableReady_iff hid).mp hready
  refine ⟨(sumInv_run hname hsize hput ht hstart disk hrun).finished,fun hwhole hplaces => ?_⟩
  subst ht
  have hplaced : t₀.putId = id := funext hplaces
  have hinv : TransferInv job t₀.block_pos x := by
    induction hrun with
    | refl =>
      refine ⟨fun blocks hb => ?_,fun blocks hb b hmem hover => ?_,fun c hc => ?_,fun r hr => ?_,fun hover => ?_⟩
      · cases hb
        rw [hplaced]
      · cases hb
        rw [fileTable_ready b hmem] at hover
        cases hover
      · cases hc
      · cases hr
      · exact absurd hover hstart
    | tail _ hstep ih => exact ih.step hwhole hname hsize hstep
  refine ⟨fun c hc hcid => ?_,hinv.finished⟩
  obtain ⟨e,he,hfor⟩ := hinv.commands c hc
  have hmd5 : e.cmdid = .md5sum := by
    rw [fileTable_sum (fun _ => le_rfl) he (hfor.cid.symm.trans hcid)]
    rfl
  refine ⟨hfor.whole hmd5,fun resp hresp => ?_⟩
  have hfits := hfor.serving
  rw [hresp] at hfits
  exact hfits.2 hmd5

/-- Three bytes in one block, and the runs of its table. -/
def smallJob : TransferJob := ⟨[],[97],[1,2,3]⟩

theorem ten_pos : 0 < 10 := by decide

def blockTable (blocks : List TBlock) : TaskTable :=
  { oneTask 10 ten_pos with putId := id, status := some blocks }

theorem smallName : SentName smallJob.root smallJob.name := by
  refine ⟨by simp [smallJob],by simp [smallJob],?_,by decide⟩
  decide +kernel

theorem TransferStep.answer_ok {job : TransferJob} {whole : Prop} {x : Transfer} {i : ℕ} {c : LqCommand}
    (fd : ℤ) (hcurrent : x.current fd = some i) (hc : x.commands[i]? = some c) (hok : c.serving = .answered .ok) :
    TransferStep job whole x { x with
      current := Function.update x.current fd none
      reports := ⟨c.cid,true,fd⟩::x.reports } := by
  have hstep : TransferStep job whole x _ := .answer hcurrent hc hok
  rwa [decide_eq_true ((cbTransportStatus_text .ok).mpr rfl)] at hstep

/-- The sum is right where the file is there. -/
theorem sumBlock_served {job : TransferJob} {disk : Disk} (blockSize : ℕ) (hfile : disk job.file = some job.source) :
    (job.sumBlock blockSize).serve ⟨true,true,true,true,true,true⟩ disk job.file job.md5 = (disk,.respond .ok) := by
  have hmd5 : job.md5 = md5Hex (md5Digest job.source) := by
    rw [TransferJob.md5,md5_fileReads,Option.getD_some]
  simp only [TBlock.serve,TransferJob.sumBlock,TBlock.entry,hfile,if_true,← hmd5]

/-- A connection is handed the three blocks in turn, the server gets the file, and the task is over. -/
theorem transfer_exact_small : ∃ x, ReflTransGen (TransferStep smallJob True)
      (Transfer.start (blockTable (fileTable id 10 (by decide) 3)) fun _ => none) x ∧
    x.table.runningTask.status = .over ∧
    HadSum smallJob True (Transfer.start (blockTable (fileTable id 10 (by decide) 3)) fun _ => none) x ∧
    (∃ c ∈ x.commands, c.cid = 2) ∧ x.disk [97] = some [1,2,3] := by
  let all : DiskCalls := ⟨true,true,true,true,true,true⟩
  let block (id : ℕ) (cmd : BlockCmd) (status : BlockStatus) : TBlock :=
    match status with
    | .ready => ⟨id,cmd,.ready,0,none,0,0,3⟩
    | .working => ⟨id,cmd,.working,5,some 0,1,0,3⟩
    | status => ⟨id,cmd,status,-1,none,1,0,3⟩
  let table (first put last : BlockStatus) : TaskTable :=
    blockTable [block 0 .truncate first,block 1 .put put,block 2 .md5sum last]
  have hserved : ∀ b : TBlock, b.cmdid ≠ .del → b.offset+b.size < 2^63 → ∀ disk,
      cbPacketHandler all disk smallJob.root (smallJob.send b).text [] = some (b.serve all disk [97] smallJob.md5) :=
    fun b hcmd hend disk => command_served smallName hcmd hend (md5_length smallJob) (md5_line smallJob)
  have htable : blockTable (fileTable id 10 (by decide) 3) = table .ready .ready .ready := by
    simp [fileTable,cutFile_pos,cutFile_zero,TBlock.entry,zeroBlock,blockCount,table,block]
  have hready : tasktableReady (blockTable []) (some smallJob.source.length) =
      some (blockTable (fileTable id 10 (by decide) 3),0) :=
    (tasktableReady_iff (by decide)).mpr ⟨by decide,rfl⟩
  have hexact := fun x (hx : ReflTransGen (TransferStep smallJob True) _ x) =>
    transfer_exact smallJob True smallName (by decide) (fun _ => le_rfl) hready (by decide) (fun _ => none) hx
  rw [htable] at hexact ⊢
  have hrun : ReflTransGen (TransferStep smallJob True)
      (Transfer.start (table .ready .ready .ready) fun _ => none) _ := .refl
  have htruncate := hrun.tail (.hand (u := table .working .ready .ready) (b := 0)
    ⟨by simp [Transfer.start,table,blockTable],.pop none 5 0 1,rfl⟩ rfl rfl)
  have htruncate := htruncate.tail (.serve (i := 0) rfl rfl (hserved _ (by decide) (by decide) _))
  have htruncate := htruncate.tail (.answer_ok 5 rfl rfl rfl)
  have htruncate := htruncate.tail (.report List.mem_cons_self
    (show (TaskOp.update 0 true 5 1).run _ = some (table .over .ready .ready,_) from rfl))
  have hput := htruncate.tail (.hand (u := table .over .working .ready) (b := 1)
    ⟨by simp [table,blockTable],.pop none 5 0 1,rfl⟩ rfl rfl)
  have hput := hput.tail (.serve (i := 1) rfl rfl (hserved _ (by decide) (by decide) _))
  have hput := hput.tail (.receive (i := 1) (n := 3) (k := 3) rfl rfl (by decide) (by decide) (by decide)
    (by decide) fun _ => rfl)
  have hput := hput.tail (.answer_ok 5 rfl rfl rfl)
  have hput := hput.tail (.report List.mem_cons_self
    (show (TaskOp.update 1 true 5 1).run _ = some (table .over .over .ready,_) from rfl))
  have hsum := hput.tail (.hand (u := table .over .over .working) (b := 2)
    ⟨by simp [table,blockTable],.pop none 5 0 1,rfl⟩ rfl rfl)
  have hfile := ((hexact _ hsum).2 trivial fun _ => rfl).1 _ (List.mem_append_right _ List.mem_cons_self) rfl
  have hdone := hsum.tail (.serve (i := 2) (c := smallJob.send (block 2 .md5sum .working)) rfl rfl
    ((hserved _ (by decide) (by decide) _).trans (congrArg some (sumBlock_served 10 hfile.1))))
  have hdone := hdone.tail (.answer_ok 5 rfl rfl rfl)
  have hdone := hdone.tail (.report List.mem_cons_self
    (show (TaskOp.update 2 true 5 1).run _ = some (_,_) from rfl))
  refine ⟨_,hdone,rfl,(hexact _ hdone).1 rfl,?_,((hexact _ hdone).2 trivial fun _ => rfl).2 rfl⟩
  exact ⟨_,List.mem_of_getElem? (i := 2) rfl,rfl⟩

end Sbase
