import Mathlib.Logic.Relation
import Sbase.Lqftp.Request
import Sbase.Lqftp.TransferOrder

/-! A transfer: the blocks that lqftp hands to its connections, the commands that go to lqftpd for them, what
lqftpd does to the file, and the answers. The steps of all connections come in any order, and commands of
connections that were given up are served as well.

The file that is sent does not change. -/
namespace Sbase

/-- How far the server is with a command. -/
inductive Serving
  | sent
  | waiting
  | receiving (path : List UInt8) (offset left : ℕ)
  | answered (resp : LqResp)

/-- A command: its `c_id`, its text, and the bytes behind it that have not arrived. -/
structure LqCommand where
  cid : ℕ
  text : List UInt8
  pushed : List UInt8
  serving : Serving

/-- The names of the file, and what is in it. -/
structure TransferJob where
  root : List UInt8
  name : List UInt8
  source : List UInt8

/-- An answer that was read and is not yet in the table: the `c_id`, whether the block is over, and the
connection. -/
structure LqReport where
  cid : ℕ
  ok : Bool
  fd : ℤ
  deriving DecidableEq

/-- The table of the client, the command that each connection waits for, all commands there were, and the
files of the server. -/
structure Transfer where
  table : TaskTable
  current : ℤ → Option ℕ
  reports : List LqReport
  commands : List LqCommand
  disk : Disk

/-- The path of the file at the server. -/
def TransferJob.file (job : TransferJob) : List UInt8 := job.root ++ job.name.map urlPrintable

/-- `tasktable_md5sum` -/
def TransferJob.md5 (job : TransferJob) : List UInt8 := md5Hex ((md5File (fileReads job.source)).getD [])

/-- A part of the file. -/
def TransferJob.part (job : TransferJob) (offset size : ℕ) : List UInt8 := (job.source.drop offset).take size

/-- What `cb_serv_heartbeat_handler` pushes for a block. -/
def TransferJob.send (job : TransferJob) (b : TBlock) : LqCommand :=
  let (text,part) := b.command (urlencode job.name) job.md5
  ⟨b.id,text,part.elim [] fun (offset,size) => job.part offset size,.sent⟩

/-- `recv_file` passes over a negative offset and over an empty size. -/
def LqReaction.serving : LqReaction → Serving
  | respond resp => .answered resp
  | recvFile path offset size =>
    if 0 ≤ offset ∧ 0 < size then .receiving path offset.toNat size.toNat else .waiting

/-- Bytes that are written to a file at an offset. -/
def writeAt (offset : ℕ) (data content : List UInt8) : List UInt8 :=
  content.take offset ++ List.replicate (offset-content.length) 0 ++ data ++ content.drop (offset+data.length)

/-- What is left of a command when bytes for it were received, of which a store that failed has no more;
`cb_file_handler` answers the last ones. -/
def receivePart (path : List UInt8) (offset left n : ℕ) (stored : Bool) (c : LqCommand) : LqCommand :=
  { c with
    pushed := c.pushed.drop n
    serving :=
      if stored then if left-n = 0 then .answered .ok else .receiving path (offset+n) (left-n)
      else .receiving path offset left }

/-- The files once `k` of the received bytes are stored. -/
def storePart (disk : Disk) (path : List UInt8) (offset k : ℕ) (data : List UInt8) : Disk :=
  if 0 < k then Function.update disk path (some (writeAt offset (data.take k) ((disk path).getD []))) else disk

/-- A step of the client, of the server, or of something else that leaves the file alone. `whole` says that
the bytes that `chunk_read_to_file` receives are stored to the last one; if it does not hold, `pwrite` stores
any number of them. -/
inductive TransferStep (job : TransferJob) (whole : Prop) (x : Transfer) : Transfer → Prop
  | hand {u b fd blocks c} : TaskStep x.table (.handed b fd) u → u.status = some blocks → blocks[b]? = some c →
      TransferStep job whole x { x with
        table := u
        current := Function.update x.current fd (some x.commands.length)
        commands := x.commands ++ [job.send c] }
  | answer {i c resp fd} : x.current fd = some i → x.commands[i]? = some c → c.serving = .answered resp →
      TransferStep job whole x { x with
        current := Function.update x.current fd none
        reports := ⟨c.cid,decide (cbTransportStatus resp.text = .over),fd⟩::x.reports }
  | report {u e r now} : r ∈ x.reports → (TaskOp.update r.cid r.ok r.fd now).run x.table = some (u,e) →
      TransferStep job whole x { x with table := u, reports := x.reports.erase r }
  | quiet {u e} : TaskStep x.table e u → (∀ b fd, e ≠ .handed b fd) → (∀ b, e ≠ .reported b .over) →
      TransferStep job whole x { x with table := u }
  | close (fd : ℤ) : TransferStep job whole x { x with current := Function.update x.current fd none }
  | serve {i c calls behind disk reaction} : x.commands[i]? = some c → c.serving = .sent →
      cbPacketHandler calls x.disk job.root c.text behind = some (disk,reaction) →
      TransferStep job whole x { x with
        disk := disk
        commands := x.commands.set i { c with serving := reaction.serving } }
  | receive {i c path offset left n k} : x.commands[i]? = some c → c.serving = .receiving path offset left →
      0 < n → n ≤ left → n ≤ c.pushed.length → k ≤ n → (whole → k = n) →
      TransferStep job whole x { x with
        disk := storePart x.disk path offset k c.pushed
        commands := x.commands.set i (receivePart path offset left n (decide (0 < k)) c) }
  | other {disk} : disk job.file = x.disk job.file → TransferStep job whole x { x with disk := disk }

/-! ### The file -/

/-- The file is there, with the size of what is sent. -/
def Sized (job : TransferJob) (disk : Disk) : Prop :=
  ∃ content, disk job.file = some content ∧ content.length = job.source.length

/-- A byte of the file is that of what is sent. -/
def Agrees (job : TransferJob) (disk : Disk) (i : ℕ) : Prop :=
  ∃ content, disk job.file = some content ∧ content[i]? = job.source[i]?

/-- What is there of the file stays there. -/
structure Keeps (job : TransferJob) (disk disk' : Disk) : Prop where
  sized : Sized job disk'
  agrees : ∀ i, Agrees job disk i → Agrees job disk' i

variable {job : TransferJob} {disk disk' : Disk} {offset left n i : ℕ} {data content : List UInt8}

theorem Keeps.same (h : disk' job.file = disk job.file) (hsized : Sized job disk) : Keeps job disk disk' := by
  refine ⟨?_,fun i hi => ?_⟩
  · rwa [Sized,h]
  · rwa [Agrees,h]

theorem resize_length (content : List UInt8) : resize content.length content = content := by
  simp [resize]

theorem length_resize (n : ℕ) (content : List UInt8) : (resize n content).length = n := by
  simp [resize]
  omega

theorem length_writeAt (h : offset+data.length ≤ content.length) : (writeAt offset data content).length = content.length := by
  simp only [writeAt,List.length_append,List.length_take,List.length_replicate,List.length_drop]
  omega

/-- The bytes that were written, and the others. -/
theorem getElem?_writeAt (h : offset+data.length ≤ content.length) (i : ℕ) : (writeAt offset data content)[i]? =
    if offset ≤ i ∧ i < offset+data.length then data[i-offset]? else content[i]? := by
  have hzero : offset-content.length = 0 := by omega
  have hlen : (content.take offset).length = offset := by
    rw [List.length_take]
    omega
  rw [writeAt,hzero,List.replicate_zero,List.append_nil]
  rcases lt_or_ge i offset with hi | hi
  · rw [if_neg (by omega),List.append_assoc,List.getElem?_append_left (by omega),List.getElem?_take_of_lt hi]
  rcases lt_or_ge i (offset+data.length) with hend | hend
  · rw [if_pos ⟨hi,hend⟩,List.getElem?_append_left (by simp; omega),List.getElem?_append_right (by omega),hlen]
  · rw [if_neg (by omega),List.getElem?_append_right (by simp; omega),List.getElem?_drop]
    congr 1
    simp
    omega

/-- Bytes of what is sent are written to their place. -/
theorem Keeps.write (hsized : Sized job disk) (hend : offset+n ≤ job.source.length) :
    let disk' := Function.update disk job.file
      (some (writeAt offset (job.part offset n) ((disk job.file).getD [])))
    Keeps job disk disk' ∧ ∀ i, offset ≤ i → i < offset+n → Agrees job disk' i := by
  obtain ⟨content,hfile,hlen⟩ := hsized
  have hpart : (job.part offset n).length = n := by
    simp only [TransferJob.part,List.length_take,List.length_drop]
    omega
  have hroom : offset+(job.part offset n).length ≤ content.length := by omega
  have hread : ∀ i, offset ≤ i → i < offset+n → (job.part offset n)[i-offset]? = job.source[i]? := by
    intro i hi hlt
    rw [TransferJob.part,List.getElem?_take_of_lt (by omega),List.getElem?_drop]
    congr 1
    omega
  have hget := getElem?_writeAt hroom
  have hfile' : ∀ data, (Function.update disk job.file data) job.file = data := fun data =>
    Function.update_self ..
  rw [hfile,Option.getD_some]
  refine ⟨⟨⟨_,hfile' _,(length_writeAt hroom).trans hlen⟩,fun i hi => ⟨_,hfile' _,?_⟩⟩,fun i hi hlt => ⟨_,hfile' _,?_⟩⟩
  · rw [hget,hpart]
    split_ifs with hin
    · exact hread i hin.1 hin.2
    · obtain ⟨content',hcontent,hagree⟩ := hi
      rw [hfile] at hcontent
      cases hcontent
      exact hagree
  · rw [hget,hpart,if_pos ⟨hi,hlt⟩]
    exact hread i hi hlt

/-! ### What the server does -/

variable {calls : DiskCalls} {e : TBlock} {resp : LqResp}

/-- A block of the table of a file. -/
structure TBlock.Of (e : TBlock) (job : TransferJob) : Prop where
  cmd : e.cmdid ≠ .del
  fits : e.offset+e.size ≤ job.source.length
  truncate : e.cmdid = .truncate → e.size = job.source.length

/-- Once the file has its size, no command but the bytes behind it changes it. -/
theorem serve_same (he : e.Of job) (hsized : Sized job disk) (md5 : List UInt8) :
    (e.serve calls disk job.file md5).1 job.file = disk job.file := by
  obtain ⟨content,hfile,hlen⟩ := hsized
  cases hcmd : e.cmdid with
  | truncate =>
    have hsame : resize e.size content = content := by rw [he.truncate hcmd,← hlen,resize_length]
    simp only [TBlock.serve,hcmd,truncateFile,hfile,truncateCall]
    split_ifs <;> simp [hsame,hfile]
  | put =>
    have hfits := he.fits
    have hle : ((e.offset+e.size : ℕ) : ℤ) ≤ content.length := by omega
    simp only [TBlock.serve,hcmd,modFileSize,hfile,if_pos hle]
    split_ifs <;> simp [hfile]
  | del => exact absurd hcmd he.cmd
  | md5sum =>
    simp only [TBlock.serve,hcmd,hfile]
    split_ifs <;> simp [hfile]

theorem truncateCall_sized (h : (truncateCall calls disk job.file job.source.length).2) :
    Sized job (truncateCall calls disk job.file job.source.length).1 := by
  unfold truncateCall at h ⊢
  cases hfile : disk job.file with
  | none => simp [hfile] at h
  | some content =>
    simp only [hfile] at h ⊢
    split_ifs at h ⊢
    exact ⟨_,Function.update_self ..,length_resize _ content⟩

theorem truncate_sized (he : e.Of job) (hcmd : e.cmdid = .truncate) (md5 : List UInt8)
    (hok : (e.serve calls disk job.file md5).2 = .respond .ok) : Sized job (e.serve calls disk job.file md5).1 := by
  have hdir : calls.pmkdir = true := by
    by_contra hne
    simp [TBlock.serve,hcmd,hne] at hok
  have hsize : e.size ≠ 0 := by
    intro hzero
    simp [TBlock.serve,hcmd,hdir,hzero] at hok
  have hdone : (truncateFile calls disk job.file e.size).2 = true := by
    by_contra hne
    simp [TBlock.serve,hcmd,hdir,hsize,hne] at hok
  have hdisk : (e.serve calls disk job.file md5).1 = (truncateFile calls disk job.file e.size).1 := by
    simp [TBlock.serve,hcmd,hdir,hsize]
  rw [hdisk]
  rw [he.truncate hcmd] at hdone ⊢
  unfold truncateFile at hdone ⊢
  cases hfile : disk job.file with
  | none =>
    simp only [hfile] at hdone ⊢
    exact truncateCall_sized hdone
  | some content =>
    simp only [hfile] at hdone ⊢
    exact truncateCall_sized hdone

theorem put_reaction (calls : DiskCalls) (disk : Disk) (hcmd : e.cmdid = .put) (md5 : List UInt8) :
    (∃ r, r ≠ .ok ∧ (e.serve calls disk job.file md5).2 = .respond r) ∨
      0 < e.size ∧ (e.serve calls disk job.file md5).2 = .recvFile job.file e.offset e.size := by
  by_cases hsize : e.size = 0
  · exact .inl ⟨.badReq,by decide,by simp [TBlock.serve,hcmd,hsize]⟩
  by_cases hdir : calls.pmkdir = true
  · by_cases hdone : (modFileSize calls disk job.file (e.offset+e.size : ℕ)).2 = true
    · refine .inr ⟨Nat.pos_of_ne_zero hsize,?_⟩
      simp only [TBlock.serve,hcmd,if_neg hsize,if_neg (not_not.mpr hdir),if_pos hdone]
    · refine .inl ⟨.serverError,by decide,?_⟩
      simp only [TBlock.serve,hcmd,if_neg hsize,if_neg (not_not.mpr hdir),if_neg hdone]
  · exact .inl ⟨.serverError,by decide,by simp [TBlock.serve,hcmd,hsize,hdir]⟩

/-- The sums are equal where the files are. -/
theorem md5sum_reaction (calls : DiskCalls) (hcmd : e.cmdid = .md5sum) (hwhole : disk job.file = some job.source) :
    ∃ r, (r = .ok ∨ r = .serverError) ∧ (e.serve calls disk job.file job.md5).2 = .respond r := by
  have hmd5 : job.md5 = md5Hex (md5Digest job.source) := by rw [TransferJob.md5,md5_fileReads,Option.getD_some]
  simp only [TBlock.serve,hcmd,hwhole,hmd5,if_true]
  split_ifs
  · exact ⟨_,.inl rfl,rfl⟩
  · exact ⟨_,.inr rfl,rfl⟩

end Sbase
