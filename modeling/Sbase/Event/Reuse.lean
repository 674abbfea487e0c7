import Sbase.Event.Registered

/-! Descriptors that are closed and used again: what the operations on an old event do to the event that
has its descriptor now.

An `fd_set` has a place for every descriptor, and `epoll_ctl` is not told that one is closed. -/
namespace Sbase
open Runs

/-- A backend with what its tables hold for a descriptor, and with what the kernel drops from them when
the descriptor is closed. -/
structure Tables (τ ρ : Type) extends Backend τ where
  entry : τ → ℕ → ρ
  closed : τ → ℕ → τ

def selectTables : Tables SelectFds (Bool × Bool) :=
  { evselect with entry := fun t n => (t.readFds n,t.writeFds n), closed := fun t _ => t }

def pollTables : Tables (ℕ → PollFd) PollFd :=
  { evpoll with entry := fun t n => t n, closed := fun t _ => t }

def epollTables : Tables EpollSet (Option (Flags × ℕ)) :=
  { evepoll with entry := fun t n => t n, closed := fun t n => Function.update t n none }

/-- What happens to a base and its descriptors. -/
inductive DescriptorStep
  | operate (op : EventOp)
  | close (fd : ℕ)

variable {τ ρ : Type} {B : Tables τ ρ}

def DescriptorStep.apply (B : Tables τ ρ) (w : EventWorld τ) : DescriptorStep → EventWorld τ
  | .operate op => op.apply B.toBackend w
  | .close fd => { w with base := { w.base with table := B.closed w.base.table fd } }

/-- The operations that an event which was added before can still get. -/
def EventOp.Late : EventOp → Prop
  | .eventAdd _ _ => True
  | .eventDel _ _ => True
  | .destroy _ => True
  | _ => False

/-- An operation reaches the tables: its event has a base that takes its descriptor, and flags are
given. -/
def EventWorld.Reaches (w : EventWorld τ) : EventOp → Prop
  | .eventAdd e flags => (w.events e).evBase = true ∧ flags ≠ 0 ∧ w.base.accepts (w.events e) = true
  | .eventDel e flags => (w.events e).evBase = true ∧ flags ≠ 0 ∧ w.base.accepts (w.events e) = true
  | .destroy e => (w.events e).evBase = true ∧ w.base.accepts (w.events e) = true
  | _ => False

/-- An operation on an event leaves every other event that is listed alone: the event, its entry in
`evlist`, and what the tables hold for the descriptor. -/
def Frames (B : Tables τ ρ) (w : EventWorld τ) (op : EventOp) : Prop :=
  ∀ n e, e ≠ op.event → w.base.evlist n = some e →
    (op.apply B.toBackend w).events e = w.events e ∧
      (op.apply B.toBackend w).base.evlist n = some e ∧
      B.entry (op.apply B.toBackend w).base.table n = B.entry w.base.table n

/-- No operation on an event that was added before disturbs another event. -/
def LateFrames (B : Tables τ ρ) (w : EventWorld τ) : DescriptorStep → Prop
  | .operate op => op.Late → Frames B w op
  | .close _ => True

/-- An operation that reaches the tables finds the entry of its descriptor in `evlist` empty, or the
event itself there. -/
def Own (w : EventWorld τ) : DescriptorStep → Prop
  | .operate op => w.Reaches op →
      ∀ e, w.base.evlist (w.events op.event).evFd.toNat = some e → e = op.event
  | .close _ => True

/-- The operations of a backend write the entry of one descriptor. -/
structure Tables.Keyed (B : Tables τ ρ) : Prop where
  update : ∀ b e ev, b.accepts ev = true →
    (B.update b e ev).1.evlist = Function.update b.evlist ev.evFd.toNat (some e) ∧
      ∀ n ≠ ev.evFd.toNat, B.entry (B.update b e ev).1.table n = B.entry b.table n
  updateOut : ∀ b e ev, b.accepts ev = false → (B.update b e ev).1 = b
  del : ∀ b e ev, b.accepts ev = true →
    (B.del b e ev).evlist = Function.update b.evlist ev.evFd.toNat none ∧
      ∀ n ≠ ev.evFd.toNat, B.entry (B.del b e ev).table n = B.entry b.table n
  delOut : ∀ b e ev, b.accepts ev = false → B.del b e ev = b

theorem selectTables_keyed : selectTables.Keyed where
  update b e ev hacc := by
    change (evselectUpdate b e ev).1.evlist = _ ∧ ∀ n ≠ _, selectTables.entry (evselectUpdate b e ev).1.table n = _
    rw [evselectUpdate,if_pos hacc]
    refine ⟨rfl,fun n hn => Prod.ext ?_ ?_⟩
    · exact selectBit_other _ hn _ _
    · exact selectBit_other _ hn _ _
  updateOut b e ev hacc := by
    change (evselectUpdate b e ev).1 = b
    rw [evselectUpdate,hacc,if_neg Bool.false_ne_true]
  del b e ev hacc := by
    change (evselectDel b e ev).evlist = _ ∧ ∀ n ≠ _, selectTables.entry (evselectDel b e ev).table n = _
    rw [evselectDel,if_pos hacc]
    refine ⟨rfl,fun n hn => Prod.ext ?_ ?_⟩
    · exact fdPut_other _ hn _
    · exact fdPut_other _ hn _
  delOut b e ev hacc := by
    change evselectDel b e ev = b
    rw [evselectDel,hacc,if_neg Bool.false_ne_true]

theorem pollTables_keyed : pollTables.Keyed where
  update b e ev hacc := by
    change (evpollUpdate b e ev).1.evlist = _ ∧ ∀ n ≠ _, (evpollUpdate b e ev).1.table n = _
    rw [evpollUpdate,if_pos hacc]
    exact ⟨rfl,fun n hn => Function.update_of_ne hn ..⟩
  updateOut b e ev hacc := by
    change (evpollUpdate b e ev).1 = b
    rw [evpollUpdate,hacc,if_neg Bool.false_ne_true]
  del b e ev hacc := by
    change (evpollDel b e ev).evlist = _ ∧ ∀ n ≠ _, (evpollDel b e ev).table n = _
    rw [evpollDel,if_pos hacc]
    exact ⟨rfl,fun n hn => Function.update_of_ne hn ..⟩
  delOut b e ev hacc := by
    change evpollDel b e ev = b
    rw [evpollDel,hacc,if_neg Bool.false_ne_true]

theorem epollTables_keyed : epollTables.Keyed where
  update b e ev hacc := by
    change (evepollUpdate b e ev).1.evlist = _ ∧ ∀ n ≠ _, (evepollUpdate b e ev).1.table n = _
    rw [evepollUpdate,if_pos hacc]
    dsimp only
    rw [epollRetry_eq _ (by split_ifs <;> simp)]
    exact ⟨rfl,fun n hn => Function.update_of_ne hn ..⟩
  updateOut b e ev hacc := by
    change (evepollUpdate b e ev).1 = b
    rw [evepollUpdate,hacc,if_neg Bool.false_ne_true]
  del b e ev hacc := by
    change (evepollDel b e ev).evlist = _ ∧ ∀ n ≠ _, (evepollDel b e ev).table n = _
    rw [evepollDel]
    by_cases hlist : b.evlist ev.evFd.toNat = none
    · rw [if_neg fun hc => hc.2 hlist]
      exact ⟨(Function.update_eq_self_iff.mpr hlist.symm).symm,fun _ _ => rfl⟩
    · rw [if_pos ⟨hacc,hlist⟩,epollCtl_del]
      exact ⟨rfl,fun n hn => Function.update_of_ne hn ..⟩
  delOut b e ev hacc := by
    change evepollDel b e ev = b
    rw [evepollDel,hacc,if_neg fun hc => Bool.false_ne_true hc.1]

section
variable {w : EventWorld τ} {op : EventOp}

/-- Where an operation writes `x` to the entry of the descriptor of its event, every other event stays
exactly where that entry lists none of them. -/
theorem frames_iff {x : Option ℕ} (hx : ∀ e ≠ op.event, x ≠ some e)
    (hlist : (op.apply B.toBackend w).base.evlist =
      Function.update w.base.evlist (w.events op.event).evFd.toNat x)
    (hentry : ∀ n ≠ (w.events op.event).evFd.toNat,
      B.entry (op.apply B.toBackend w).base.table n = B.entry w.base.table n) :
    Frames B w op ↔ ∀ e, w.base.evlist (w.events op.event).evFd.toNat = some e → e = op.event := by
  constructor
  · intro h e he
    by_contra hne
    have hkept := (h _ e hne he).2.1
    rw [hlist,Function.update_self] at hkept
    exact hx e hne hkept
  · intro h n e hne he
    have hn : n ≠ (w.events op.event).evFd.toNat := by
      rintro rfl
      exact hne (h e he)
    refine ⟨EventOp.apply_other B.toBackend w hne,?_,hentry n hn⟩
    rw [hlist,Function.update_of_ne hn,he]

theorem frames_of_base (h : (op.apply B.toBackend w).base = w.base) : Frames B w op := by
  intro n e hne he
  rw [h]
  exact ⟨EventOp.apply_other B.toBackend w hne,he,rfl⟩

/-- A call of the backend, which writes `x` when it takes the descriptor and does nothing otherwise. -/
theorem call_frames_iff {b : Evbase τ} {x : Option ℕ} (hx : ∀ e ≠ op.event, x ≠ some e)
    (hbase : (op.apply B.toBackend w).base = b)
    (htaken : w.base.accepts (w.events op.event) = true →
      b.evlist = Function.update w.base.evlist (w.events op.event).evFd.toNat x ∧
        ∀ n ≠ (w.events op.event).evFd.toNat, B.entry b.table n = B.entry w.base.table n)
    (hrefused : w.base.accepts (w.events op.event) = false → b = w.base) :
    Frames B w op ↔ (w.base.accepts (w.events op.event) = true →
      ∀ e, w.base.evlist (w.events op.event).evFd.toNat = some e → e = op.event) := by
  cases haccepts : w.base.accepts (w.events op.event) with
  | false =>
    exact iff_of_true (frames_of_base (hbase.trans (hrefused haccepts)))
      fun hc => absurd hc Bool.false_ne_true
  | true =>
    obtain ⟨hlist,hentry⟩ := htaken haccepts
    rw [← hbase] at hlist hentry
    rw [frames_iff hx hlist hentry]
    exact ⟨fun h _ => h,fun h => h rfl⟩

/-- `event_add` and `event_del`, which give the event other flags and update it. -/
theorem update_frames_iff (hB : B.Keyed) {flags newFlags : Flags}
    (happly : op.apply B.toBackend w =
      if (w.events op.event).evBase ∧ flags ≠ 0 then
        w.put op.event (B.update w.base op.event { w.events op.event with
          oldEvFlags := (w.events op.event).evFlags, evFlags := newFlags })
      else w) :
    Frames B w op ↔
      ((w.events op.event).evBase = true ∧ flags ≠ 0 ∧ w.base.accepts (w.events op.event) = true →
        ∀ e, w.base.evlist (w.events op.event).evFd.toNat = some e → e = op.event) := by
  by_cases hgiven : (w.events op.event).evBase = true ∧ flags ≠ 0
  · rw [if_pos hgiven] at happly
    rw [call_frames_iff (fun e hne heq => hne (Option.some.inj heq).symm) (congrArg EventWorld.base happly)
      (fun hacc => hB.update w.base op.event _ hacc) fun hacc => hB.updateOut w.base op.event _ hacc]
    exact ⟨fun h hreach => h hreach.2.2,fun h hacc => h ⟨hgiven.1,hgiven.2,hacc⟩⟩
  · rw [if_neg hgiven] at happly
    exact iff_of_true (frames_of_base (congrArg EventWorld.base happly))
      fun hreach => absurd ⟨hreach.1,hreach.2.1⟩ hgiven

theorem destroy_frames_iff (hB : B.Keyed) (e : ℕ) :
    Frames B w (.destroy e) ↔ (w.Reaches (.destroy e) →
      ∀ d, w.base.evlist (w.events e).evFd.toNat = some d → d = e) := by
  by_cases hbase : (w.events e).evBase = true
  · have hcall : ((EventOp.destroy e).apply B.toBackend w).base =
        B.del w.base e { w.events e with evFlags := 0 } := by
      rw [EventOp.apply,EventWorld.eventDestroy,if_pos hbase]
      rfl
    have hnone : ∀ d ≠ (EventOp.destroy e).event, (none : Option ℕ) ≠ some d := by simp
    rw [call_frames_iff hnone hcall (fun hacc => hB.del w.base e _ hacc)
      fun hacc => hB.delOut w.base e _ hacc]
    exact ⟨fun h hreach => h hreach.2,fun h hacc => h ⟨hbase,hacc⟩⟩
  · have hcall : ((EventOp.destroy e).apply B.toBackend w).base = w.base := by
      rw [EventOp.apply,EventWorld.eventDestroy,if_neg hbase]
      rfl
    exact iff_of_true (frames_of_base hcall) fun hreach => absurd hreach.1 hbase

end

/-- Each step leaves the other events alone exactly where it finds its own entry. -/
theorem lateFrames_iff (hB : B.Keyed) (w : EventWorld τ) (l : DescriptorStep) :
    LateFrames B w l ↔ Own w l := by
  cases l with
  | close fd => exact Iff.rfl
  | operate op =>
    have hlate (h : op.Late) : LateFrames B w (.operate op) ↔ Frames B w op :=
      ⟨fun hframes => hframes h,fun hframes _ => hframes⟩
    cases op with
    | set e fd flags => exact iff_of_true (fun h => h.elim) fun h => h.elim
    | add e => exact iff_of_true (fun h => h.elim) fun h => h.elim
    | eventAdd e flags =>
      rw [hlate trivial]
      exact update_frames_iff hB rfl
    | eventDel e flags =>
      rw [hlate trivial]
      exact update_frames_iff hB rfl
    | destroy e =>
      rw [hlate trivial]
      exact destroy_frames_iff hB e

/-- In no step of a run does an operation on one event disturb another. -/
def Undisturbed (B : Tables τ ρ) (events : ℕ → Event) (ls : List DescriptorStep) : Prop :=
  ∀ ks l, ks ++ [l] <+: ls → LateFrames B (ks.foldl (DescriptorStep.apply B) (B.init events)) l

/-- Every operation of a run that reaches the tables finds no other event at its descriptor. -/
def OwnEach (B : Tables τ ρ) (events : ℕ → Event) (ls : List DescriptorStep) : Prop :=
  Allowed Own (DescriptorStep.apply B) (B.init events) ls

theorem undisturbed_iff (hB : B.Keyed) (events : ℕ → Event) (ls : List DescriptorStep) :
    Undisturbed B events ls ↔ OwnEach B events ls := by
  have hguard : LateFrames B = Own := by
    funext w l
    exact propext (lateFrames_iff hB w l)
  unfold Undisturbed OwnEach
  rw [steps_iff_allowed,hguard]

/-- On each backend, whatever order descriptors are closed, used again and operated on in, the operations
on one event leave every other event alone exactly where each of them that reaches the tables finds its
entry in `evlist` empty or its own. -/
theorem event_operations_frame_iff (events : ℕ → Event) (ls : List DescriptorStep) :
    (Undisturbed selectTables events ls ↔ OwnEach selectTables events ls) ∧
      (Undisturbed pollTables events ls ↔ OwnEach pollTables events ls) ∧
      (Undisturbed epollTables events ls ↔ OwnEach epollTables events ls) :=
  ⟨undisturbed_iff selectTables_keyed events ls,undisturbed_iff pollTables_keyed events ls,
    undisturbed_iff epollTables_keyed events ls⟩

/-- The descriptor of event 1 is closed and used again by event 2. -/
def usedAgain : List DescriptorStep :=
  [.operate (.set 1 5 E_READ),.operate (.add 1),.close 5,.operate (.set 2 5 E_READ),.operate (.add 2)]

/-- Then event 1 is destroyed, and event 2 is gone. -/
theorem event_destroy_removes : ¬ ∀ events ls, Undisturbed epollTables events ls := by
  intro h
  have hframes := h (fun _ => ⟨0,0,0,false⟩) (usedAgain ++ [.operate (.destroy 1)]) usedAgain
    (.operate (.destroy 1)) List.prefix_rfl trivial
  obtain ⟨-,hlisted,-⟩ := hframes 5 2 (by decide) (by decide)
  exact absurd hlisted (by decide)

end Sbase
