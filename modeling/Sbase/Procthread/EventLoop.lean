import Sbase.Procthread.Loop
import Sbase.Event.Registered

/-! A thread that waits in the loop of an event base, woken up through `pth->event`, whose descriptor
`pth->cond` is always writable.

A wakeup that comes before `procthread_run` has added the event sets `flag` and registers nothing. The
flag is cleared only by the handler of the event, which nothing calls from then on. -/
namespace Sbase
open Runs

inductive BasePc
  | set
  | add
  | loop
  | active
  | test
  | handler
  | pop
  | left (i : ℕ)
  deriving DecidableEq

/-- An event-base thread: `pth->flag`, its base with the events, its queue, its place, and the threads
that are between a push on the queue and the end of the wakeup. -/
structure BaseWorld (τ : Type) where
  flag : ℤ
  ew : EventWorld τ
  box : MessageWorld
  pc : BasePc
  calls : ℕ → Bool

/-- The steps: those of the threads that push, of the thread itself, the end of its loop for the event
of another descriptor, and operations on the other events of the base. -/
inductive BaseStep
  | push (i : ℕ) (m : Message)
  | wakeup (i : ℕ)
  | thread
  | back
  | other (op : EventOp)

namespace BaseWorld
variable {τ : Type} (B : Backend τ) (e : ℕ) (cond : ℤ)

def total (w : BaseWorld τ) : ℤ := w.box.q.total

/-- The section of `procthread_wakeup` under the mutex. -/
def procthreadWakeup (w : BaseWorld τ) : BaseWorld τ :=
  if w.flag = 0 then { w with flag := 1, ew := w.ew.eventAdd B e E_WRITE } else w

/-- The section of `procthread_event_handler` under the mutex. -/
def procthreadEventHandler (w : BaseWorld τ) : BaseWorld τ :=
  { w with ew := w.ew.eventDel B e E_WRITE, flag := 0 }

def push (w : BaseWorld τ) (i : ℕ) (m : Message) : BaseWorld τ :=
  if w.calls i then w
  else { w with box := w.box.push m, calls := Function.update w.calls i true }

def wakeup (w : BaseWorld τ) (i : ℕ) : BaseWorld τ :=
  if w.calls i then { w.procthreadWakeup B e with calls := Function.update w.calls i false } else w

/-- The loop of the base finds the descriptor writable, and its event listed. -/
def Ready (w : BaseWorld τ) : Prop :=
  B.writes w.ew.base.table cond.toNat = true ∧ w.ew.base.evlist cond.toNat = some e

instance (w : BaseWorld τ) : Decidable (w.Ready B e cond) := inferInstanceAs (Decidable (_ ∧ _))

/-- A step of `procthread_run` -/
def thread (w : BaseWorld τ) : BaseWorld τ :=
  match w.pc with
  | .set => { w with ew := w.ew.eventSet e cond (E_READ ||| E_PERSIST), pc := .add }
  | .add => { w with ew := w.ew.add B e, pc := .loop }
  | .loop => if w.Ready B e cond then { w with pc := .active } else w
  | .active => { w.procthreadEventHandler B e with pc := .test }
  | .test => if 0 < w.total then { w with pc := .handler } else { w with pc := .loop }
  | .handler => if 0 < w.total then { w with pc := .pop } else { w with pc := .loop }
  | .pop =>
    match (qmessagePop w.box.q).2 with
    | some i => { w with box := w.box.pop, pc := .left i }
    | none => { w with box := w.box.pop, pc := .loop }
  | .left i => { w with box := w.box.giveBack i, pc := .pop }

/-- `evbase->loop` returns after the events of other descriptors. -/
def back (w : BaseWorld τ) : BaseWorld τ := if w.pc = .loop then { w with pc := .test } else w

/-- No other event of the base has the descriptor. -/
def Alone (w : EventWorld τ) : Prop := ∀ d ≠ e, w.Live d → (w.events d).evFd ≠ cond

def Step (w : BaseWorld τ) : BaseStep → BaseWorld τ → Prop
  | .push i m, t => t = w.push i m
  | .wakeup i, t => t = w.wakeup B e i
  | .thread, t => t = w.thread B e cond
  | .back, t => t = w.back
  | .other op, t =>
    e ≠ op.event ∧ w.ew.Proper op ∧ Alone e cond (op.apply B w.ew) ∧
      t = { w with ew := op.apply B w.ew }

/-- The thread as `procthread_init` makes it, all zero. -/
def init : BaseWorld τ :=
  ⟨0,B.init fun _ => ⟨0,0,0,false⟩,.init,.set,fun _ => false⟩

/-- `procthread_run` has added the event. -/
def Running (w : BaseWorld τ) : Prop := w.pc ≠ .set ∧ w.pc ≠ .add

/-- `E_WRITE` is registered on `pth->event` in the base. -/
def Watched (w : BaseWorld τ) : Prop :=
  w.ew.Live e ∧ hasFlag (w.ew.events e).evFlags E_WRITE ∧
    B.writes w.ew.base.table cond.toNat = true

/-- No wakeup is lost: where the thread is about to block in its loop on a queue that is not empty, with
no wakeup under way, the event is registered; and `flag` tells whether it is. -/
structure Woken (w : BaseWorld τ) : Prop where
  registered : w.pc = .loop → 0 < w.total → (∀ i, w.calls i = false) → w.Watched B e cond
  inStep : w.Running → (w.flag = 1 ↔ w.Watched B e cond)

/-- A wakeup finds the event added. -/
def Late (w : BaseWorld τ) (a : BaseStep) : Prop :=
  ∀ i, a = .wakeup i → w.calls i = true → w.Running

end BaseWorld

/-! ### The event of the thread -/

theorem hasFlag_write_or (x : Flags) : hasFlag (x ||| E_WRITE) E_WRITE = true := by
  rw [hasFlag_write,BitVec.getLsbD_or]
  simp [E_WRITE]

theorem hasFlag_write_clear (x : Flags) : hasFlag (x &&& ~~~E_WRITE) E_WRITE = false := by
  rw [hasFlag_write,BitVec.getLsbD_and]
  simp [E_WRITE]

namespace Kept
variable {τ : Type} {B : Backend τ} {w : EventWorld τ} {e : ℕ}

theorem eventAdd_event (h : Kept B w) (hB : B.Sound) (he : w.Live e) :
    (w.eventAdd B e E_WRITE).events e = { w.events e with
      oldEvFlags := (w.events e).evFlags, evFlags := (w.events e).evFlags ||| E_WRITE } := by
  rw [EventWorld.eventAdd]
  dsimp only
  rw [if_pos ⟨he,by decide⟩,EventWorld.put_self]
  exact h.update_event hB he _

theorem eventDel_event (h : Kept B w) (hB : B.Sound) (he : w.Live e) :
    (w.eventDel B e E_WRITE).events e = { w.events e with
      oldEvFlags := (w.events e).evFlags, evFlags := (w.events e).evFlags &&& ~~~E_WRITE } := by
  rw [EventWorld.eventDel]
  dsimp only
  rw [if_pos ⟨he,by decide⟩,EventWorld.put_self]
  exact h.update_event hB he _

end Kept

namespace BaseWorld
variable {τ : Type} {B : Backend τ} {e : ℕ} {cond : ℤ} {w t : BaseWorld τ}

/-- The thread has set and added its event as far as it has come. -/
structure Placed (B : Backend τ) (e : ℕ) (cond : ℤ) (w : BaseWorld τ) : Prop where
  kept : Kept B w.ew
  alone : Alone e cond w.ew
  early : ¬ w.Running → ¬ w.ew.Live e
  added : w.pc = .add →
    (w.ew.events e).evFd = cond ∧ (w.ew.events e).evFlags = E_READ ||| E_PERSIST
  running : w.Running → w.ew.Live e ∧ (w.ew.events e).evFd = cond

/-- Operations on the thread's own event leave the others alone. -/
theorem Alone.own {ew : EventWorld τ} (h : Alone e cond ew) (op : EventOp) (hop : op.event = e) :
    Alone e cond (op.apply B ew) := by
  intro d hd hlive
  have hsame : (op.apply B ew).events d = ew.events d := op.apply_other B ew (hop.symm ▸ hd)
  rw [EventWorld.Live,hsame] at hlive
  rw [hsame]
  exact h d hd hlive

namespace Placed

theorem init (hB : B.Sound) : Placed B e cond (BaseWorld.init B) where
  kept := Kept.init hB _
  alone d _ hd := by cases hd
  early _ := nofun
  added h := by cases h
  running h := absurd rfl h.1

theorem writes_eq (h : Placed B e cond w) (hrun : w.Running) :
    B.writes w.ew.base.table cond.toNat = hasFlag (w.ew.events e).evFlags E_WRITE := by
  obtain ⟨hlive,hfd⟩ := h.running hrun
  rw [← hfd]
  exact (h.kept.shows e hlive).2

/-- The event is watched exactly when its flags say so. -/
theorem watched_iff (h : Placed B e cond w) (hrun : w.Running) :
    w.Watched B e cond ↔ hasFlag (w.ew.events e).evFlags E_WRITE := by
  rw [Watched,h.writes_eq hrun,and_self]
  exact and_iff_right (h.running hrun).1

/-- A step that leaves the event alone. -/
theorem frame (h : Placed B e cond w) (hew : t.ew = w.ew) (hrun : t.Running ↔ w.Running)
    (hadd : t.pc = .add → w.pc = .add) : Placed B e cond t where
  kept := by rw [hew]; exact h.kept
  alone := by rw [hew]; exact h.alone
  early := by rw [hrun,hew]; exact h.early
  added := by rw [hew]; exact fun ht => h.added (hadd ht)
  running := by rw [hrun,hew]; exact h.running

/-- An operation on the flags of the event of a running thread. -/
theorem change (h : Placed B e cond w) (hB : B.Sound) (hrun : w.Running) (op : EventOp)
    (hop : op.event = e) (hproper : w.ew.Proper op)
    (hlive : ((op.apply B w.ew).events e).evBase = (w.ew.events e).evBase)
    (hfd : ((op.apply B w.ew).events e).evFd = (w.ew.events e).evFd)
    (hew : t.ew = op.apply B w.ew) (ht : t.Running) : Placed B e cond t where
  kept := by rw [hew]; exact h.kept.step hB op hproper
  alone := by rw [hew]; exact h.alone.own op hop
  early hnot := absurd ht hnot
  added hpc := absurd hpc ht.2
  running _ := by
    rw [hew,EventWorld.Live,hlive,hfd]
    exact h.running hrun

theorem set (h : Placed B e cond w) (hB : B.Sound) (hcond : 0 < cond) (hpc : w.pc = .set) :
    Placed B e cond
      { w with ew := w.ew.eventSet e cond (E_READ ||| E_PERSIST), pc := .add } := by
  have hdead := h.early fun hrun => hrun.1 hpc
  have hevent : (w.ew.eventSet e cond (E_READ ||| E_PERSIST)).events e =
      { w.ew.events e with evFd := cond, evFlags := E_READ ||| E_PERSIST } := by
    rw [EventWorld.eventSet,if_pos hcond,EventWorld.put_self]
  constructor
  · exact h.kept.step hB (.set e cond (E_READ ||| E_PERSIST)) hdead
  · exact h.alone.own (B := B) (.set e cond (E_READ ||| E_PERSIST)) rfl
  · intro _
    change ¬ ((w.ew.eventSet e cond (E_READ ||| E_PERSIST)).events e).evBase = true
    rw [hevent]
    exact hdead
  · intro _
    dsimp only
    rw [hevent]
    exact ⟨rfl,rfl⟩
  · exact fun hrun => absurd rfl hrun.2

theorem add (h : Placed B e cond w) (hB : B.Sound) (hcond : 0 < cond ∧ cond < FD_SETSIZE)
    (hpc : w.pc = .add) : Placed B e cond { w with ew := w.ew.add B e, pc := .loop } ∧
      hasFlag ((w.ew.add B e).events e).evFlags E_WRITE = false := by
  obtain ⟨hfd,hflags⟩ := h.added hpc
  have hproper : w.ew.Proper (.add e) := by
    rw [EventWorld.Proper,hfd]
    exact ⟨hcond.1,hcond.2.trans (by decide),hcond.2,h.alone⟩
  have hevent : (w.ew.add B e).events e = { w.ew.events e with evBase := true } := by
    rw [EventWorld.add,EventWorld.put_self]
    exact h.kept.add_event hB hproper
  refine ⟨?_,?_⟩
  · constructor
    · exact h.kept.step hB (.add e) hproper
    · exact h.alone.own (.add e) rfl
    · exact fun hrun => absurd (by decide : BasePc.loop ≠ .set ∧ BasePc.loop ≠ .add) hrun
    · intro hadd
      cases hadd
    · intro _
      change ((w.ew.add B e).events e).evBase = true ∧ ((w.ew.add B e).events e).evFd = cond
      rw [hevent]
      exact ⟨rfl,hfd⟩
  · rw [hevent]
    dsimp only
    rw [hflags]
    decide

theorem other (h : Placed B e cond w) (hB : B.Sound) {op : EventOp} (hop : e ≠ op.event)
    (hproper : w.ew.Proper op) (halone : Alone e cond (op.apply B w.ew)) :
    Placed B e cond { w with ew := op.apply B w.ew } := by
  have hsame : (op.apply B w.ew).events e = w.ew.events e := op.apply_other B w.ew hop
  constructor
  · exact h.kept.step hB op hproper
  · exact halone
  · intro hnot
    change ¬ ((op.apply B w.ew).events e).evBase = true
    rw [hsame]
    exact h.early hnot
  · intro hpc
    dsimp only
    rw [hsame]
    exact h.added hpc
  · intro hrun
    change ((op.apply B w.ew).events e).evBase = true ∧ ((op.apply B w.ew).events e).evFd = cond
    rw [hsame]
    exact h.running hrun

end Placed

/-- The invariant of a run whose wakeups find the event added. -/
structure Inv (B : Backend τ) (e : ℕ) (cond : ℤ) (w : BaseWorld τ) : Prop where
  placed : Placed B e cond w
  entered : ∃ es, w.box.Entered es
  early : ¬ w.Running → w.flag = 0
  flag : w.Running → w.flag = if hasFlag (w.ew.events e).evFlags E_WRITE then 1 else 0
  queued : w.pc = .set ∨ w.pc = .add ∨ w.pc = .loop → 0 < w.total →
    w.flag = 1 ∨ ∃ i, w.calls i = true

namespace Inv

theorem init (hB : B.Sound) : Inv B e cond (BaseWorld.init B) where
  placed := .init hB
  entered := ⟨[],MessageWorld.init_entered⟩
  early _ := rfl
  flag h := absurd rfl h.1
  queued _ h := by
    have hlengths := MessageWorld.init_entered.lengths
    change (0 : ℕ) + (BaseWorld.init B).total = (0 : ℕ) at hlengths
    omega

theorem watched_iff (h : Inv B e cond w) (hrun : w.Running) :
    w.Watched B e cond ↔ w.flag = 1 := by
  rw [h.placed.watched_iff hrun,h.flag hrun]
  cases hasFlag (w.ew.events e).evFlags E_WRITE <;> simp

theorem woken (h : Inv B e cond w) : w.Woken B e cond where
  registered hpc htotal hcalls := by
    have hrun : w.Running := by rw [Running,hpc]; decide
    rw [h.watched_iff hrun]
    obtain hflag | ⟨i,hi⟩ := h.queued (.inr (.inr hpc)) htotal
    · exact hflag
    · rw [hcalls i] at hi
      cases hi
  inStep hrun := (h.watched_iff hrun).symm

/-- A step that leaves the event and the flag alone. -/
theorem frame (h : Inv B e cond w) (hew : t.ew = w.ew) (hflag : t.flag = w.flag)
    (hrun : t.Running ↔ w.Running) (hadd : t.pc = .add → w.pc = .add)
    (hentered : ∃ es, t.box.Entered es)
    (hqueued : t.pc = .set ∨ t.pc = .add ∨ t.pc = .loop → 0 < t.total →
      t.flag = 1 ∨ ∃ i, t.calls i = true) : Inv B e cond t where
  placed := h.placed.frame hew hrun hadd
  entered := hentered
  early := by rw [hrun,hflag]; exact h.early
  flag := by rw [hrun,hew,hflag]; exact h.flag
  queued := hqueued

theorem push (h : Inv B e cond w) (i : ℕ) (m : Message) : Inv B e cond (w.push i m) := by
  rw [BaseWorld.push]
  split_ifs with hi
  · exact h
  · refine h.frame rfl rfl Iff.rfl id ?_ fun _ _ => Or.inr ⟨i,Function.update_self ..⟩
    obtain ⟨es,hes⟩ := h.entered
    by_cases hfits : w.box.q.total + w.box.out.length < QMSG_MAX
    · exact ⟨_,hes.push hfits m⟩
    · exact ⟨_,hes.push_full hfits m⟩

/-- A wakeup of a running thread leaves the flag set and the event registered. -/
theorem procthreadWakeup (h : Inv B e cond w) (hB : B.Sound) (hrun : w.Running) :
    Inv B e cond (w.procthreadWakeup B e) ∧ (w.procthreadWakeup B e).flag = 1 := by
  have hflag := h.flag hrun
  rw [BaseWorld.procthreadWakeup]
  split_ifs with hzero
  · have hevent : ((EventOp.eventAdd e E_WRITE).apply B w.ew).events e = _ :=
      h.placed.kept.eventAdd_event hB (h.placed.running hrun).1
    refine ⟨⟨?_,h.entered,?_,?_,fun _ _ => Or.inl rfl⟩,rfl⟩
    · exact h.placed.change hB hrun (.eventAdd e E_WRITE) rfl trivial (by rw [hevent])
        (by rw [hevent]) rfl hrun
    · exact fun hnot => absurd hrun hnot
    · intro _
      change 1 = if hasFlag (((EventOp.eventAdd e E_WRITE).apply B w.ew).events e).evFlags E_WRITE
        then 1 else 0
      rw [hevent,if_pos (hasFlag_write_or _)]
  · refine ⟨h,?_⟩
    rw [hflag] at hzero ⊢
    split_ifs with hwrite
    · rfl
    · rw [if_neg hwrite] at hzero
      exact absurd rfl hzero

theorem wakeup (h : Inv B e cond w) (hB : B.Sound) (i : ℕ) (hlate : w.Late (.wakeup i)) :
    Inv B e cond (w.wakeup B e i) := by
  rw [BaseWorld.wakeup]
  split_ifs with hi
  · obtain ⟨hinv,hflag⟩ := h.procthreadWakeup hB (hlate i rfl hi)
    exact hinv.frame rfl rfl Iff.rfl id hinv.entered fun _ _ => Or.inl hflag
  · exact h

/-- The handler clears the flag and the interest, together. -/
theorem active (h : Inv B e cond w) (hB : B.Sound) (hpc : w.pc = .active) :
    Inv B e cond { w.procthreadEventHandler B e with pc := .test } := by
  have hrun : w.Running := by rw [Running,hpc]; decide
  have htest : BasePc.test ≠ .set ∧ BasePc.test ≠ .add := by decide
  have hevent : ((EventOp.eventDel e E_WRITE).apply B w.ew).events e = _ :=
    h.placed.kept.eventDel_event hB (h.placed.running hrun).1
  rw [procthreadEventHandler]
  refine ⟨?_,h.entered,fun hnot => absurd htest hnot,?_,nofun⟩
  · exact h.placed.change hB hrun (.eventDel e E_WRITE) rfl trivial (by rw [hevent])
      (by rw [hevent]) rfl htest
  · intro _
    change 0 = if hasFlag (((EventOp.eventDel e E_WRITE).apply B w.ew).events e).evFlags E_WRITE
      then 1 else 0
    rw [hevent]
    exact (if_neg (by rw [hasFlag_write_clear]; decide)).symm

theorem set (h : Inv B e cond w) (hB : B.Sound) (hcond : 0 < cond) (hpc : w.pc = .set) :
    Inv B e cond
      { w with ew := w.ew.eventSet e cond (E_READ ||| E_PERSIST), pc := .add } where
  placed := h.placed.set hB hcond hpc
  entered := h.entered
  early _ := h.early fun hrun => hrun.1 hpc
  flag hrun := absurd rfl hrun.2
  queued _ := h.queued (.inl hpc)

theorem add (h : Inv B e cond w) (hB : B.Sound) (hcond : 0 < cond ∧ cond < FD_SETSIZE)
    (hpc : w.pc = .add) : Inv B e cond { w with ew := w.ew.add B e, pc := .loop } := by
  obtain ⟨hplaced,hwrite⟩ := h.placed.add hB hcond hpc
  have hflag := h.early fun hrun => hrun.2 hpc
  refine ⟨hplaced,h.entered,fun _ => hflag,fun _ => ?_,fun _ => h.queued (.inr (.inl hpc))⟩
  dsimp only
  rw [hwrite]
  exact hflag

/-- A step of the running thread that only changes its place and its queue. -/
theorem moved (h : Inv B e cond w) {b : MessageWorld} {pc : BasePc} (hrun : w.Running)
    (hpc : pc ≠ .set ∧ pc ≠ .add) (hentered : ∃ es, b.Entered es)
    (hloop : pc = .loop → b.q.total ≤ 0) : Inv B e cond { w with box := b, pc := pc } := by
  refine h.frame rfl rfl ⟨fun _ => hrun,fun _ => hpc⟩ (fun hadd => absurd hadd hpc.2) hentered ?_
  intro hplace htotal
  change 0 < b.q.total at htotal
  obtain hset | hadd | hl := hplace
  · exact absurd hset hpc.1
  · exact absurd hadd hpc.2
  · exact absurd htotal (not_lt.2 (hloop hl))

theorem thread (h : Inv B e cond w) (hB : B.Sound) (hcond : 0 < cond ∧ cond < FD_SETSIZE) :
    Inv B e cond (w.thread B e cond) := by
  rw [BaseWorld.thread]
  cases hpc : w.pc with
  | set => exact h.set hB hcond.1 hpc
  | add => exact h.add hB hcond hpc
  | loop =>
    dsimp only
    split_ifs
    · exact h.moved (by rw [Running,hpc]; decide) (by decide) h.entered nofun
    · exact h
  | active => exact h.active hB hpc
  | test =>
    have hrun : w.Running := by rw [Running,hpc]; decide
    dsimp only
    split_ifs with htotal
    · exact h.moved hrun (by decide) h.entered nofun
    · exact h.moved hrun (by decide) h.entered fun _ => not_lt.1 htotal
  | handler =>
    have hrun : w.Running := by rw [Running,hpc]; decide
    dsimp only
    split_ifs with htotal
    · exact h.moved hrun (by decide) h.entered nofun
    · exact h.moved hrun (by decide) h.entered fun _ => not_lt.1 htotal
  | pop =>
    have hrun : w.Running := by rw [Running,hpc]; decide
    obtain ⟨es,hes⟩ := h.entered
    dsimp only
    cases hret : (qmessagePop w.box.q).2 with
    | some i => exact h.moved hrun (by simp) ⟨es,hes.pop⟩ nofun
    | none =>
      obtain ⟨hsame,hzero⟩ := hes.pop_none hret
      refine h.moved hrun (by decide) ⟨es,hes.pop⟩ fun _ => ?_
      rw [hsame]
      exact hzero.le
  | left i =>
    have hrun : w.Running := by rw [Running,hpc]; simp
    obtain ⟨es,hes⟩ := h.entered
    exact h.moved hrun (by decide) ⟨es,hes.giveBack i⟩ nofun

theorem back (h : Inv B e cond w) : Inv B e cond w.back := by
  rw [BaseWorld.back]
  split_ifs with hpc
  · exact h.moved (by rw [Running,hpc]; decide) (by decide) h.entered nofun
  · exact h

theorem step (h : Inv B e cond w) (hB : B.Sound) (hcond : 0 < cond ∧ cond < FD_SETSIZE)
    {a : BaseStep} (hlate : w.Late a) (hstep : w.Step B e cond a t) : Inv B e cond t := by
  cases a with
  | push i m => rw [hstep]; exact h.push i m
  | wakeup i => rw [hstep]; exact h.wakeup hB i hlate
  | thread => rw [hstep]; exact h.thread hB hcond
  | back => rw [hstep]; exact h.back
  | other op =>
    obtain ⟨hop,hproper,halone,rfl⟩ := hstep
    have hsame : (op.apply B w.ew).events e = w.ew.events e := op.apply_other B w.ew hop
    refine ⟨h.placed.other hB hop hproper halone,h.entered,h.early,?_,h.queued⟩
    dsimp only
    rw [hsame]
    exact h.flag

end Inv
/-- What holds after a wakeup that came before the event was added. -/
structure Missed (B : Backend τ) (e : ℕ) (cond : ℤ) (w : BaseWorld τ) : Prop where
  placed : Placed B e cond w
  flag : w.flag = 1
  unwatched : w.Running → hasFlag (w.ew.events e).evFlags E_WRITE = false
  inactive : w.pc ≠ .active

namespace Missed

theorem not_watched (h : Missed B e cond w) (hrun : w.Running) : ¬ w.Watched B e cond := by
  rw [h.placed.watched_iff hrun,h.unwatched hrun]
  exact Bool.false_ne_true

theorem not_woken (h : Missed B e cond w) (hrun : w.Running) : ¬ w.Woken B e cond :=
  fun hwoken => h.not_watched hrun ((hwoken.inStep hrun).1 h.flag)

theorem frame (h : Missed B e cond w) (hew : t.ew = w.ew) (hflag : t.flag = w.flag)
    (hrun : t.Running ↔ w.Running) (hadd : t.pc = .add → w.pc = .add) (hpc : t.pc ≠ .active) :
    Missed B e cond t where
  placed := h.placed.frame hew hrun hadd
  flag := hflag.trans h.flag
  unwatched := by rw [hrun,hew]; exact h.unwatched
  inactive := hpc

/-- A wakeup before the event is added sets the flag, and nothing else. -/
theorem start (h : Inv B e cond w) {i : ℕ} (hi : w.calls i = true) (hearly : ¬ w.Running) :
    Missed B e cond (w.wakeup B e i) := by
  have hdead := h.placed.early hearly
  have hnothing : w.ew.eventAdd B e E_WRITE = w.ew := by
    rw [EventWorld.eventAdd]
    exact if_neg fun hadd => hdead hadd.1
  rw [BaseWorld.wakeup,if_pos hi,procthreadWakeup,if_pos (h.early hearly),hnothing]
  refine ⟨h.placed.frame rfl Iff.rfl id,rfl,fun hrun => absurd hrun hearly,?_⟩
  intro hpc
  change w.pc = .active at hpc
  apply hearly
  rw [Running,hpc]
  decide

theorem wakeup (h : Missed B e cond w) (i : ℕ) : Missed B e cond (w.wakeup B e i) := by
  have hset : ¬ w.flag = 0 := by rw [h.flag]; decide
  rw [BaseWorld.wakeup,procthreadWakeup,if_neg hset]
  split_ifs
  · exact h.frame rfl rfl Iff.rfl id h.inactive
  · exact h

theorem moved (h : Missed B e cond w) {b : MessageWorld} {pc : BasePc} (hrun : w.Running)
    (hpc : pc ≠ .set ∧ pc ≠ .add) (hactive : pc ≠ .active) :
    Missed B e cond { w with box := b, pc := pc } :=
  h.frame rfl rfl ⟨fun _ => hrun,fun _ => hpc⟩ (fun hadd => absurd hadd hpc.2) hactive

theorem thread (h : Missed B e cond w) (hB : B.Sound) (hcond : 0 < cond ∧ cond < FD_SETSIZE) :
    Missed B e cond (w.thread B e cond) := by
  rw [BaseWorld.thread]
  cases hpc : w.pc with
  | set => exact ⟨h.placed.set hB hcond.1 hpc,h.flag,fun hrun => absurd rfl hrun.2,nofun⟩
  | add =>
    obtain ⟨hplaced,hwrite⟩ := h.placed.add hB hcond hpc
    exact ⟨hplaced,h.flag,fun _ => hwrite,nofun⟩
  | loop =>
    have hrun : w.Running := by rw [Running,hpc]; decide
    have hnot : ¬ w.Ready B e cond := by
      rw [Ready,h.placed.writes_eq hrun,h.unwatched hrun]
      exact fun hready => Bool.false_ne_true hready.1
    dsimp only
    rwa [if_neg hnot]
  | active => exact absurd hpc h.inactive
  | test =>
    have hrun : w.Running := by rw [Running,hpc]; decide
    dsimp only
    split_ifs <;> exact h.moved hrun (by decide) (by decide)
  | handler =>
    have hrun : w.Running := by rw [Running,hpc]; decide
    dsimp only
    split_ifs <;> exact h.moved hrun (by decide) (by decide)
  | pop =>
    have hrun : w.Running := by rw [Running,hpc]; decide
    dsimp only
    split <;> exact h.moved hrun (by simp) (by simp)
  | left i => exact h.moved (by rw [Running,hpc]; simp) (by decide) (by decide)

theorem step (h : Missed B e cond w) (hB : B.Sound) (hcond : 0 < cond ∧ cond < FD_SETSIZE)
    {a : BaseStep} (hstep : w.Step B e cond a t) : Missed B e cond t := by
  cases a with
  | push i m =>
    rw [hstep,BaseWorld.push]
    split_ifs
    · exact h
    · exact h.frame rfl rfl Iff.rfl id h.inactive
  | wakeup i => rw [hstep]; exact h.wakeup i
  | thread => rw [hstep]; exact h.thread hB hcond
  | back =>
    rw [hstep,BaseWorld.back]
    split_ifs with hpc
    · exact h.moved (by rw [Running,hpc]; decide) (by decide) (by decide)
    · exact h
  | other op =>
    obtain ⟨hop,hproper,halone,rfl⟩ := hstep
    have hsame : (op.apply B w.ew).events e = w.ew.events e := op.apply_other B w.ew hop
    refine ⟨h.placed.other hB hop hproper halone,h.flag,?_,h.inactive⟩
    dsimp only
    rw [hsame]
    exact h.unwatched

end Missed

/-- As long as every wakeup finds the event added, none is lost. A wakeup that comes before is lost
for good: in its loop the thread is never again watched for while `flag` says that it is. -/
theorem procthread_evbase_wakeup (hB : B.Sound) (hcond : 0 < cond ∧ cond < FD_SETSIZE) :
    (∀ ls w, Run (Guarded Late (Step B e cond)) (BaseWorld.init B) ls w → w.Woken B e cond) ∧
      ∀ ls w i t ks u, Run (Guarded Late (Step B e cond)) (BaseWorld.init B) ls w →
        ¬ w.Late (.wakeup i) → w.Step B e cond (.wakeup i) t → Run (Step B e cond) t ks u →
          u.Running → ¬ u.Woken B e cond := by
  have hinv : ∀ ls w, Run (Guarded Late (Step B e cond)) (BaseWorld.init B) ls w →
      Inv B e cond w := fun ls w hrun =>
    hrun.invariant (Inv B e cond) (.init hB) fun a l b ha hstep => ha.step hB hcond hstep.1 hstep.2
  refine ⟨fun ls w hrun => (hinv ls w hrun).woken,?_⟩
  intro ls w i t ks u hrun hlate hstep hafter hloop
  have hmissed : Missed B e cond t := by
    rw [Late,not_forall] at hlate
    obtain ⟨j,hlate⟩ := hlate
    rw [Classical.not_imp,Classical.not_imp] at hlate
    obtain ⟨hj,hi,hearly⟩ := hlate
    obtain rfl : i = j := BaseStep.wakeup.inj hj
    rw [hstep]
    exact Missed.start (hinv ls w hrun) hi hearly
  have hend := hafter.invariant (Missed B e cond) hmissed fun a l b ha hstep =>
    ha.step hB hcond hstep
  exact hend.not_woken hloop

/-- On `epoll`, with the event at address 0 and the descriptor 5. -/
theorem procthread_evbase_wakeup_epoll :
    (∀ ls w, Run (Guarded Late (Step evepoll 0 5)) (BaseWorld.init evepoll) ls w →
      w.Woken evepoll 0 5) ∧
      ∀ ls w i t ks u, Run (Guarded Late (Step evepoll 0 5)) (BaseWorld.init evepoll) ls w →
        ¬ w.Late (.wakeup i) → w.Step evepoll 0 5 (.wakeup i) t → Run (Step evepoll 0 5) t ks u →
          u.Running → ¬ u.Woken evepoll 0 5 :=
  procthread_evbase_wakeup evepoll_sound (by decide)

/-- A message and its wakeup before the thread has begun: it blocks in its loop, with the message in
its queue and no `E_WRITE` registered. -/
theorem procthread_evbase_lost : ∃ w,
    Run (Step evepoll 0 5) (BaseWorld.init evepoll)
      [.push 0 ⟨5,1,7,-1,0,0,0⟩,.wakeup 0,.thread,.thread] w ∧
    w.pc = .loop ∧ 0 < w.total ∧ (∀ i, w.calls i = false) ∧ ¬ w.Watched evepoll 0 5 := by
  generalize (⟨5,1,7,-1,0,0,0⟩ : Message) = m
  have hcond : (0 : ℤ) < 5 ∧ (5 : ℤ) < FD_SETSIZE := by decide
  have hinit : Inv evepoll 0 5 (BaseWorld.init evepoll) := .init evepoll_sound
  have hlengths := (MessageWorld.init_entered.push (by
    have hlengths := MessageWorld.init_entered.lengths
    change (0 : ℕ) + MessageWorld.init.q.total = (0 : ℕ) at hlengths
    change MessageWorld.init.q.total + (0 : ℕ) < _
    have hmax : (0 : ℤ) < QMSG_MAX := by decide
    omega) m).lengths
  let v := (BaseWorld.init evepoll).push 0 m
  have hv : Inv evepoll 0 5 v := hinit.push 0 m
  have hearly : ¬ v.Running := fun hrun => hrun.1 rfl
  have hmissed : Missed evepoll 0 5 (v.wakeup evepoll 0 0) := .start hv rfl hearly
  have hend := (hmissed.thread evepoll_sound hcond).thread evepoll_sound hcond
  refine ⟨_,.cons rfl (.cons rfl (.cons rfl (.one rfl))),rfl,?_,?_,?_⟩
  · change 0 < (MessageWorld.init.push m).q.total
    change (0 : ℕ) + (MessageWorld.init.push m).q.total = (1 : ℕ) at hlengths
    omega
  · intro i
    change Function.update (Function.update (fun _ => false) 0 true) 0 false i = false
    rw [Function.update_idem]
    exact congrFun (Function.update_eq_self 0 fun _ => false) i
  · exact hend.not_watched ⟨nofun,nofun⟩

end BaseWorld
end Sbase
