import Sbase.Lib.Runs
import Sbase.Lqftp.ReadyTable

/-! The order of a transfer: what the sessions are handed in the runs of one task. -/
namespace Sbase

open Runs

/-- What a session, or the watchdog, does; a session fetches blocks with a connection `arg`. -/
inductive TaskOp
  | pop (stat : Option ℕ) (sid : ℤ) (arg : ℕ) (now : ℤ)
  | update (blockid : ℤ) (ok : Bool) (sid now : ℤ)
  | checkTimeout (timeout now : ℤ)

/-- What becomes of the blocks in a step. -/
inductive TaskEvent
  | idle
  | handed (block : ℕ) (sid : ℤ)
  | reported (block : ℕ) (status : BlockStatus)
  | timedOut (blocks : List ℕ)

/-- The blocks that the watchdog gives up. -/
def expiredBlocks (timeout now : ℤ) (blocks : List TBlock) : List ℕ :=
  (List.range blocks.length).filter fun i => blocks[i]?.any (TBlock.expired timeout now)

def TaskOp.run (t : TaskTable) : TaskOp → Option (TaskTable × TaskEvent)
  | .pop stat sid arg now => do
    let (t,block) ← tasktablePopBlock t stat sid (some arg) now
    some (t,block.elim .idle fun b => .handed b sid)
  | .update blockid ok sid now =>
    let status := if ok then .over else .error
    some (tasktableUpdateStatus t blockid status sid now,
      if (acceptedBlock t blockid sid).isSome then .reported blockid.toNat status else .idle)
  | .checkTimeout timeout now =>
    some ((tasktableCheckTimeout t timeout now).1,.timedOut (expiredBlocks timeout now (t.status.getD [])))

/-- A step within a task, which is over once its table is gone. -/
def TaskStep (t : TaskTable) (e : TaskEvent) (u : TaskTable) : Prop :=
  t.status ≠ none ∧ ∃ op : TaskOp, op.run t = some (u,e)

/-- The block timed out, or it was reported to have failed. -/
def Releases (b : ℕ) : TaskEvent → Prop
  | .reported block status => block = b ∧ status = .error
  | .timedOut blocks => b ∈ blocks
  | _ => False

/-- The ranges of the PUT blocks. -/
def putRanges (blocks : List TBlock) : List (ℕ × ℕ) :=
  (blocks.filter fun b => decide (b.cmdid = .put)).map fun b => (b.offset,b.size)

/-- The transfer of a file of `size` bytes from the table `t` on is in order. -/
structure TransferOrdered (t : TaskTable) (size : ℕ) : Prop where
  partition : ∀ es u blocks, Run TaskStep t es u → u.status = some blocks →
    Consecutive 0 (putRanges blocks) size
  put_after_truncate : ∀ es u blocks b sid v c, Run TaskStep t es u → u.status = some blocks →
    TaskStep u (.handed b sid) v → blocks[b]? = some c → c.cmdid = .put →
    ∃ d, blocks[0]? = some d ∧ d.cmdid = .truncate ∧ d.status = .over
  md5sum_last : ∀ es u blocks b sid v c, Run TaskStep t es u → u.status = some blocks →
    TaskStep u (.handed b sid) v → blocks[b]? = some c → c.cmdid = .md5sum →
    ∀ k d, blocks[k]? = some d → k ≠ b → d.status = .over
  assigned_once : ∀ es b sid fs sid' u, Run TaskStep t (es ++ .handed b sid::fs ++ [.handed b sid']) u →
    ∃ e ∈ fs, Releases b e

/-! ### One step -/

/-- What a step does to the table. -/
inductive TableChange (blocks : List TBlock) : TaskEvent → Option (List TBlock) → Prop
  | keep : TableChange blocks .idle (some blocks)
  | finish : TableChange blocks .idle none
  | handed {b sid nover arg now} : scanBlocks blocks 0 0 0 = (some b,nover) →
      TableChange blocks (.handed b sid) (some (blocks.modify b fun c =>
        { c with status := .working,times := now,sid := sid,arg := some arg }))
  | reported {b status} : status = .over ∨ status = .error →
      TableChange blocks (.reported b status) (some (blocks.modify b fun c =>
        { c with status := status,sid := -1,arg := none }))
  | finished {b status} : TableChange blocks (.reported b status) none
  | timedOut {timeout now} : TableChange blocks (.timedOut (expiredBlocks timeout now blocks))
      (some (blocks.map fun b => if b.expired timeout now then { b with status := .timeout } else b))

section

variable {t u v : TaskTable} {blocks : List TBlock} {e : TaskEvent} {b i n nover : ℕ}

@[simp] theorem TaskTable.dumpTask_status (t : TaskTable) : t.dumpTask.status = t.status := by
  unfold TaskTable.dumpTask
  split_ifs
  · rfl
  · rfl

@[simp] theorem TaskTable.freeStatus_status (t : TaskTable) : t.freeStatus.status = none := rfl

@[simp] theorem TaskTable.dumpTask_runningTaskId (t : TaskTable) : t.dumpTask.runningTaskId = t.runningTaskId := by
  unfold TaskTable.dumpTask
  split_ifs
  · rfl
  · rfl

@[simp] theorem TaskTable.freeStatus_runningTaskId (t : TaskTable) : t.freeStatus.runningTaskId = t.runningTaskId := rfl

@[simp] theorem TaskTable.dumpTask_runningTask (t : TaskTable) : t.dumpTask.runningTask = t.runningTask := by
  unfold TaskTable.dumpTask
  split_ifs
  · rfl
  · rfl

@[simp] theorem TaskTable.freeStatus_runningTask (t : TaskTable) : t.freeStatus.runningTask = t.runningTask := rfl

/-- A scan that finds a block does not get to the end of the table. -/
theorem scanBlocks_nover {k m : ℕ} (h : scanBlocks blocks i n nover = (some k,m)) :
    m < nover+blocks.length := by
  induction blocks generalizing i n nover with
  | nil => simp [scanBlocks] at h
  | cons c bs ih =>
    rw [scanBlocks] at h
    rw [List.length_cons]
    split_ifs at h
    · cases h
    · cases h
      omega
    · have := ih h
      omega
    · cases h
      omega
    · cases h
    · cases h
      omega
    · have := ih h
      omega

/-- A block that a scan hands out is not with a session, and those in front of it are over or are. -/
theorem scanBlocks_some {k m : ℕ} (h : scanBlocks blocks i n nover = (some k,m)) :
    ∃ front c back, blocks = front ++ c::back ∧ k = i+front.length ∧
      (c.status ≠ .over ∧ ¬ (c.status = .working ∧ c.arg ≠ none)) ∧
      (∀ d ∈ front, d.cmdid = .truncate → d.status = .over) ∧
      (c.cmdid = .md5sum → n = 0 ∧ ∀ d ∈ front, d.status = .over) := by
  induction blocks generalizing i n nover with
  | nil => simp [scanBlocks] at h
  | cons c bs ih =>
    rw [scanBlocks] at h
    by_cases hover : c.status = .over
    · rw [if_neg (not_not.mpr hover)] at h
      obtain ⟨front,d,back,hbs,hk,hfree,htrunc,hmd5⟩ := ih h
      refine ⟨c::front,d,back,by rw [hbs,List.cons_append],by rw [hk,List.length_cons]; omega,hfree,?_,?_⟩
      · exact List.forall_mem_cons.mpr ⟨fun _ => hover,htrunc⟩
      · intro hd
        exact ⟨(hmd5 hd).1,List.forall_mem_cons.mpr ⟨hover,(hmd5 hd).2⟩⟩
    · rw [if_pos hover] at h
      by_cases hcmd : c.cmdid = .truncate
      · rw [if_pos hcmd] at h
        by_cases hwork : c.status = .working
        · rw [if_pos hwork] at h
          cases h
        · rw [if_neg hwork] at h
          cases h
          refine ⟨[],c,bs,rfl,rfl,⟨hover,fun hc => hwork hc.1⟩,by simp,?_⟩
          intro hc
          rw [hcmd] at hc
          cases hc
      · rw [if_neg hcmd] at h
        by_cases hwork : c.status = .working ∧ c.arg ≠ none
        · rw [if_pos hwork] at h
          obtain ⟨front,d,back,hbs,hk,hfree,htrunc,hmd5⟩ := ih h
          refine ⟨c::front,d,back,by rw [hbs,List.cons_append],by rw [hk,List.length_cons]; omega,hfree,?_,?_⟩
          · exact List.forall_mem_cons.mpr ⟨fun hc => absurd hc hcmd,htrunc⟩
          · intro hd
            exact absurd (hmd5 hd).1 (Nat.succ_ne_zero n)
        · rw [if_neg hwork] at h
          by_cases hmd5 : c.cmdid = .md5sum
          · rw [if_pos hmd5] at h
            by_cases hn : n = 0
            · rw [if_pos hn] at h
              cases h
              exact ⟨[],c,bs,rfl,rfl,⟨hover,hwork⟩,by simp,fun _ => ⟨hn,by simp⟩⟩
            · rw [if_neg hn] at h
              cases h
          · rw [if_neg hmd5] at h
            cases h
            exact ⟨[],c,bs,rfl,rfl,⟨hover,hwork⟩,by simp,fun hc => absurd hc hmd5⟩

theorem popReady_change (ht : t.status = some blocks) (sid : ℤ) (arg : ℕ) (now : ℤ) :
    TableChange blocks ((popReady t sid (some arg) now).2.elim .idle fun b => .handed b sid)
      (popReady t sid (some arg) now).1.status := by
  cases hscan : scanBlocks blocks 0 0 0 with
  | mk block nover =>
    cases block with
    | none =>
      simp only [popReady,ht,Option.getD_some,hscan,Option.elim_none]
      split_ifs
      · exact .finish
      · rw [ht]
        exact .keep
    | some k =>
      have hnover := scanBlocks_nover hscan
      have hless : ¬ (nover > 0 ∧ nover = blocks.length ∧ t.runningTask.status ≠ .over) := by
        intro h
        omega
      simp only [popReady,ht,Option.getD_some,hscan,if_neg hless,Option.elim_some,Option.map_some]
      exact .handed hscan

theorem updateStatus_change (ht : t.status = some blocks) (blockid : ℤ) {status : BlockStatus}
    (hstatus : status = .over ∨ status = .error) (sid now : ℤ) :
    TableChange blocks
      (if (acceptedBlock t blockid sid).isSome then .reported blockid.toNat status else .idle)
      (tasktableUpdateStatus t blockid status sid now).status := by
  cases hacc : acceptedBlock t blockid sid with
  | none =>
    simp only [tasktableUpdateStatus,hacc,Option.isSome_none,Bool.false_eq_true,if_false,ht]
    exact .keep
  | some c =>
    simp only [tasktableUpdateStatus,hacc,Option.isSome_some,if_true]
    split_ifs
    · exact .finished
    · exact .finished
    · exact .finished
    · exact .finished
    · simp only [TaskTable.dumpTask_status,ht,Option.map_some]
      exact .reported hstatus
    · simp only [ht,Option.map_some]
      exact .reported hstatus

/-- The steps within a task. -/
theorem TaskStep.change (h : TaskStep t e u) (ht : t.status = some blocks) :
    TableChange blocks e u.status := by
  obtain ⟨_,op,hop⟩ := h
  cases op with
  | pop stat sid arg now =>
    have hcheck : tasktableCheckStatus t = (t,0) := by simp only [tasktableCheckStatus,ht]
    simp only [TaskOp.run,tasktablePopBlock,hcheck,ht] at hop
    by_cases hn : t.ntask > 0
    · simp only [if_pos hn] at hop
      cases hop
      exact popReady_change ht sid arg now
    · simp only [if_neg hn] at hop
      cases hop
      rw [ht]
      exact .keep
  | update blockid ok sid now =>
    cases hop
    apply updateStatus_change ht
    cases ok with
    | false => exact Or.inr rfl
    | true => exact Or.inl rfl
  | checkTimeout timeout now =>
    simp only [TaskOp.run,tasktableCheckTimeout,ht,Option.getD_some] at hop
    cases hop
    split_ifs
    · rw [TaskTable.dumpTask_status]
      exact .timedOut
    · exact .timedOut

/-! ### The blocks of a file -/

theorem map_modify_of_eq {α β : Type*} {g : α → β} {f : α → α} (h : ∀ x, g (f x) = g x) (l : List α)
    (i : ℕ) : (l.modify i f).map g = l.map g := by
  induction l generalizing i with
  | nil => simp
  | cons x l ih =>
    cases i with
    | zero => simp [h]
    | succ i => simp [ih]

theorem TableChange.plan {s : Option (List TBlock)} (h : TableChange blocks e s) :
    ∀ bs, s = some bs → bs.map TBlock.plan = blocks.map TBlock.plan := by
  intro bs hbs
  cases h with
  | keep =>
    cases hbs
    rfl
  | finish => cases hbs
  | handed hscan =>
    cases hbs
    apply map_modify_of_eq
    intro _
    rfl
  | reported hstatus =>
    cases hbs
    apply map_modify_of_eq
    intro _
    rfl
  | finished => cases hbs
  | timedOut =>
    cases hbs
    rw [List.map_map]
    apply List.map_congr_left
    intro c _
    rw [Function.comp_apply]
    split_ifs
    · rfl
    · rfl

variable {putId : ℕ → ℕ} {blockSize size : ℕ} {hpos : 0 < blockSize}

/-- The table, while there is one, holds the blocks of the file. -/
def Planned (putId : ℕ → ℕ) (hpos : 0 < blockSize) (size : ℕ) (t : TaskTable) : Prop :=
  ∀ blocks, t.status = some blocks →
    blocks.map TBlock.plan = (fileTable putId blockSize hpos size).map TBlock.plan

theorem Planned.step (h : Planned putId hpos size t) (hstep : TaskStep t e u) : Planned putId hpos size u := by
  obtain ⟨blocks,hblocks⟩ := Option.ne_none_iff_exists'.mp hstep.1
  intro bs hbs
  rw [(hstep.change hblocks).plan bs hbs,h blocks hblocks]

theorem putRanges_eq (h : blocks.map TBlock.plan = (fileTable putId blockSize hpos size).map TBlock.plan) :
    putRanges blocks = (cutFile putId blockSize hpos 1 0 size).map fun b => (b.offset,b.size) := by
  have hplan (bs : List TBlock) : putRanges bs =
      ((bs.map TBlock.plan).filter fun x => decide (x.1 = .put)).map Prod.snd := by
    rw [List.filter_map,List.map_map]
    rfl
  have hall : ∀ x ∈ (cutFile putId blockSize hpos 1 0 size).map TBlock.plan, decide (x.1 = .put) = true := by
    intro x hx
    obtain ⟨c,hc,hcx⟩ := List.mem_map.mp hx
    rw [← hcx]
    exact decide_eq_true (cutFile_put c hc)
  rw [hplan,h,fileTable,List.map_append,List.map_cons,List.filter_append,List.filter_cons,
    List.filter_eq_self.mpr hall]
  simp [TBlock.plan,TBlock.entry]

/-- The block in front of all others is the TRUNCATE block. -/
theorem first_truncate (h : blocks.map TBlock.plan = (fileTable putId blockSize hpos size).map TBlock.plan) :
    ∃ d rest, blocks = d::rest ∧ d.cmdid = .truncate := by
  cases blocks with
  | nil => simp [fileTable] at h
  | cons d rest =>
    simp only [fileTable,List.map_cons,List.cons_append] at h
    exact ⟨d,rest,rfl,congrArg Prod.fst (List.cons.inj h).1⟩

/-- The MD5SUM block is behind all others. -/
theorem last_md5sum {front back : List TBlock} {c : TBlock}
    (h : (front ++ c::back).map TBlock.plan = (fileTable putId blockSize hpos size).map TBlock.plan)
    (hc : c.cmdid = .md5sum) : back = [] := by
  cases List.eq_nil_or_concat back with
  | inl h => exact h
  | inr hback =>
    obtain ⟨bs,d,hbs⟩ := hback
    have hlast : (front ++ c::bs).map TBlock.plan ++ [d.plan] =
        (TBlock.entry 0 .truncate 0 size::cutFile putId blockSize hpos 1 0 size).map TBlock.plan ++
          [(.md5sum,0,size)] := by
      rw [hbs,fileTable] at h
      simpa [TBlock.plan,TBlock.entry] using h
    have hinit := (List.append_inj' hlast rfl).1
    have hmem : c.plan ∈ (TBlock.entry 0 .truncate 0 size::cutFile putId blockSize hpos 1 0 size).map
        TBlock.plan := by
      rw [← hinit]
      simp
    obtain ⟨d,hd,hdc⟩ := List.mem_map.mp hmem
    have hcmd : d.cmdid = .md5sum := (congrArg Prod.fst hdc).trans hc
    rw [List.mem_cons] at hd
    cases hd with
    | inl hd =>
      rw [hd] at hcmd
      cases hcmd
    | inr hd =>
      rw [cutFile_put d hd] at hcmd
      cases hcmd

/-! ### Assignments -/

/-- While the table is there, the block is with a session or over. -/
def Held (b : ℕ) (t : TaskTable) : Prop :=
  ∀ blocks, t.status = some blocks →
    ∃ c, blocks[b]? = some c ∧ (c.status = .over ∨ c.status = .working ∧ c.arg ≠ none)

theorem TaskStep.scan {sid : ℤ} (h : TaskStep t (.handed b sid) u) (ht : t.status = some blocks) :
    ∃ front c back, blocks = front ++ c::back ∧ b = front.length ∧
      (c.status ≠ .over ∧ ¬ (c.status = .working ∧ c.arg ≠ none)) ∧
      (∀ d ∈ front, d.cmdid = .truncate → d.status = .over) ∧
      (c.cmdid = .md5sum → ∀ d ∈ front, d.status = .over) := by
  have hchange := h.change ht
  generalize u.status = s at hchange
  cases hchange with
  | handed hscan =>
    obtain ⟨front,c,back,hbs,hb,hfree,htrunc,hover⟩ := scanBlocks_some hscan
    exact ⟨front,c,back,hbs,by rw [hb,Nat.zero_add],hfree,htrunc,fun hc => (hover hc).2⟩

/-- A block that is handed out has not been with a session, and is with one then. -/
theorem TaskStep.handed {sid : ℤ} (h : TaskStep t (.handed b sid) u) : ¬ Held b t ∧ Held b u := by
  obtain ⟨blocks,hblocks⟩ := Option.ne_none_iff_exists'.mp h.1
  have hchange := h.change hblocks
  generalize hs : u.status = s at hchange
  cases hchange with
  | handed hscan =>
    obtain ⟨front,c,back,hbs,hb,⟨hover,hwork⟩,_⟩ := scanBlocks_some hscan
    have hget : blocks[b]? = some c := by
      rw [hbs,hb]
      simp
    constructor
    · intro hheld
      obtain ⟨d,hd,hstatus⟩ := hheld blocks hblocks
      rw [hget] at hd
      cases hd
      exact hstatus.elim hover hwork
    · intro bs hbs'
      rw [hs] at hbs'
      cases hbs'
      refine ⟨_,by rw [List.getElem?_modify_eq,hget]; rfl,Or.inr ⟨rfl,by simp⟩⟩

theorem mem_expiredBlocks {timeout now : ℤ} {c : TBlock} (hc : blocks[b]? = some c)
    (h : c.expired timeout now) : b ∈ expiredBlocks timeout now blocks := by
  obtain ⟨hlt,_⟩ := List.getElem?_eq_some_iff.mp hc
  rw [expiredBlocks,List.mem_filter,List.mem_range,hc]
  exact ⟨hlt,h⟩

/-- A block stays with its session until it is released. -/
theorem Held.step (h : Held b t) (hstep : TaskStep t e u) (hkeep : ¬ Releases b e) : Held b u := by
  obtain ⟨blocks,hblocks⟩ := Option.ne_none_iff_exists'.mp hstep.1
  obtain ⟨c,hc,hstatus⟩ := h blocks hblocks
  have hchange := hstep.change hblocks
  intro bs hbs
  rw [hbs] at hchange
  cases hchange with
  | keep => exact ⟨c,hc,hstatus⟩
  | @handed b' _ _ _ _ hscan =>
    by_cases hb : b' = b
    · subst hb
      exact ⟨_,by rw [List.getElem?_modify_eq,hc]; rfl,Or.inr ⟨rfl,by simp⟩⟩
    · exact ⟨c,(List.getElem?_modify_ne _ _ hb).trans hc,hstatus⟩
  | @reported b' status hover =>
    by_cases hb : b' = b
    · subst hb
      have hover' : status = .over := hover.resolve_right fun herror => hkeep ⟨rfl,herror⟩
      exact ⟨_,by rw [List.getElem?_modify_eq,hc]; rfl,Or.inl hover'⟩
    · exact ⟨c,(List.getElem?_modify_ne _ _ hb).trans hc,hstatus⟩
  | timedOut =>
    have hexp : ¬ c.expired _ _ = true := fun hexp => hkeep (mem_expiredBlocks hc hexp)
    exact ⟨c,by rw [List.getElem?_map,hc,Option.map_some,if_neg hexp],hstatus⟩

theorem Held.run {es : List TaskEvent} (h : Held b t) (hrun : Run TaskStep t es u)
    (hkeep : ∀ e ∈ es, ¬ Releases b e) : Held b u := by
  induction hrun with
  | refl => exact h
  | snoc _ last ih =>
    exact (ih fun e he => hkeep e (List.mem_append_left _ he)).step last (hkeep _ (by simp))

/-! ### The transfer -/

/-- From the table of a file on the transfer is in order. -/
theorem transferOrdered (h : t.status = some (fileTable putId blockSize hpos size)) :
    TransferOrdered t size := by
  have hplanned : ∀ es u, Run TaskStep t es u → Planned putId hpos size u := by
    intro es u hrun
    apply hrun.invariant (Planned putId hpos size)
    · intro blocks hblocks
      rw [h] at hblocks
      cases hblocks
      rfl
    · intro a e c ha hstep
      exact ha.step hstep
  constructor
  · intro es u blocks hrun hblocks
    rw [putRanges_eq (hplanned es u hrun blocks hblocks)]
    simpa using consecutive_cutFile hpos 1 0 size
  · intro es u blocks b sid v c hrun hblocks hstep hc hput
    have hplan := hplanned es u hrun blocks hblocks
    obtain ⟨front,c',back,hbs,hb,_,htrunc,_⟩ := hstep.scan hblocks
    obtain ⟨d,rest,hfirst,hd⟩ := first_truncate hplan
    cases front with
    | nil =>
      -- The block handed out is not the first one, which is no PUT block.
      rw [hb,hfirst] at hc
      cases hc
      rw [hd] at hput
      cases hput
    | cons d' front =>
      rw [hfirst,List.cons_append] at hbs
      obtain ⟨hdd,_⟩ := List.cons.inj hbs
      exact ⟨d,by rw [hfirst]; rfl,hd,htrunc d (by simp [hdd]) hd⟩
  · intro es u blocks b sid v c hrun hblocks hstep hc hmd5 k d hd hk
    have hplan := hplanned es u hrun blocks hblocks
    obtain ⟨front,c',back,hbs,hb,_,_,hover⟩ := hstep.scan hblocks
    have hcc : c' = c := by
      rw [hbs,hb] at hc
      simpa using hc
    subst hcc
    have hback : back = [] := by
      rw [hbs] at hplan
      exact last_md5sum hplan hmd5
    rw [hbs,hback] at hd
    obtain ⟨hlt,hdk⟩ := List.getElem?_eq_some_iff.mp hd
    have hmem := List.getElem_mem hlt
    rw [hdk,List.mem_append,List.mem_singleton] at hmem
    have hkf : k < front.length := by
      simp only [List.length_append,List.length_singleton] at hlt
      omega
    rw [List.getElem?_append_left hkf] at hd
    exact (hover hmd5) d (List.mem_of_getElem? hd)
  · intro es b sid fs sid' u hrun
    by_contra hnone
    push Not at hnone
    obtain ⟨w,hbefore,hlast⟩ := hrun.split
    obtain ⟨x,_,hmid⟩ := hbefore.split
    have hmid : Run TaskStep x ([.handed b sid] ++ fs) w := hmid
    obtain ⟨y,hfirst,hfs⟩ := hmid.split
    exact (run_one.mp hlast).handed.1 ((run_one.mp hfirst).handed.2.run hfs hnone)

/-- A task is made ready and its transfer is in order exactly when the entries of its table can be counted
in an `int`. -/
theorem transfer_ordered_iff (t : TaskTable)
    (hid : 0 ≤ t.runningTask.id ∧ t.runningTask.id < t.ntask) (size : ℕ) :
    (∃ u, tasktableReady t (some size) = some (u,0) ∧ TransferOrdered u size) ↔
      blockCount size t.blockSize+2 < 2^31 := by
  constructor
  · intro ⟨u,hready,_⟩
    exact ((tasktableReady_iff hid).mp hready).1
  · intro hsmall
    exact ⟨_,(tasktableReady_iff hid).mpr ⟨hsmall,rfl⟩,transferOrdered rfl⟩

/-- One task, cut into blocks of `blockSize` bytes, where `i` is increased before the entry is found. -/
def oneTask (blockSize : ℕ) (hpos : 0 < blockSize) : TaskTable where
  blockSize := blockSize
  tasks := [⟨0,0,.wait,0,0⟩]
  runningTask := ⟨0,0,.wait,0,0⟩
  runningTaskId := 0
  status := none
  times := 0
  bytes := 0
  putId i := i-1
  block_pos := hpos

theorem transfer_ordered_small : (∃ u, tasktableReady (oneTask 10 (by decide)) (some 25) = some (u,0) ∧
    TransferOrdered u 25) ↔ blockCount 25 10+2 < 2^31 :=
  transfer_ordered_iff (oneTask 10 (by decide)) (by decide) 25

/-- A file of 4 GiB in blocks of one byte: the table gets two entries. -/
theorem transfer_wraps : ¬ ∃ u, tasktableReady (oneTask 1 (by decide)) (some (2^32)) = some (u,0) ∧
    TransferOrdered u (2^32) := by
  intro ⟨u,hready,_⟩
  have hsmall := ((tasktableReady_iff (by decide)).mp hready).1
  simp [blockCount,oneTask] at hsmall

end

end Sbase
