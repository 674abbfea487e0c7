import Sbase.Message.QmessageQueue
import Sbase.Lib.Fairness

/-! The loop of `procthread_run` for a thread without an event base, whose queue other threads fill:
`qmessage_handler`, the test of the queue and a wait that `procthread_wakeup` ends.

What the thread waits on is a parameter. Each access to shared memory is a step of its own, each
section under a mutex is one step, and a blocked thread stays where it is. -/
namespace Sbase
open Runs

/-- What a thread waits on: its memory `σ`, the places `ω` inside a wait and `κ` inside a wakeup, and
one step of each. A wait or a wakeup that returns has no next place. -/
structure Waiting (σ ω κ : Type) where
  start : σ
  enter : ω
  call : κ
  wait : ω → σ → Option ω × σ
  blocked : ω → σ → Bool
  spurious : ω → σ → Option ω × σ
  wakeup : κ → σ → Option κ × σ

/-- The places of the loop: the first test of the queue, the test of `qmessage_handler`, its pop, the
return of the node it has handled, the second test of the queue, and those of the wait. -/
inductive LoopPc (ω : Type)
  | top
  | handler
  | pop
  | left (i : ℕ)
  | test
  | wait (p : ω)

/-- A thread with its queue and the threads that push on it: `calls` has the place of each of these
inside its wakeup, nothing where it is outside. -/
structure LoopWorld (σ ω κ : Type) where
  signal : σ
  box : MessageWorld
  pc : LoopPc ω
  calls : ℕ → Option κ

/-- The steps: a thread pushes a message and is about to wake the other one up, or it is in its wakeup;
the thread itself goes on, or its wait ends for no reason. -/
inductive LoopStep
  | push (i : ℕ) (m : Message)
  | wakeup (i : ℕ)
  | thread
  | spurious

namespace LoopWorld
variable {σ ω κ : Type} (S : Waiting σ ω κ)

/-- `QMTOTAL` -/
def total (w : LoopWorld σ ω κ) : ℤ := w.box.q.total

/-- The `qmessage_push` of a call, which its wakeup follows. -/
def push (w : LoopWorld σ ω κ) (i : ℕ) (m : Message) : LoopWorld σ ω κ :=
  match w.calls i with
  | none => { w with box := w.box.push m, calls := Function.update w.calls i (some S.call) }
  | some _ => w

/-- A step of `procthread_wakeup`. -/
def wakeup (w : LoopWorld σ ω κ) (i : ℕ) : LoopWorld σ ω κ :=
  match w.calls i with
  | none => w
  | some k => { w with signal := (S.wakeup k w.signal).2,
                       calls := Function.update w.calls i (S.wakeup k w.signal).1 }

/-- Where a step of the wait leads; the loop goes on where the wait returns. -/
def resume (w : LoopWorld σ ω κ) (r : Option ω × σ) : LoopWorld σ ω κ :=
  { w with signal := r.2, pc := match r.1 with | some p => .wait p | none => .top }

/-- A step of `procthread_run`. -/
def thread (w : LoopWorld σ ω κ) : LoopWorld σ ω κ :=
  match w.pc with
  | .top => if 0 < w.total then { w with pc := .handler } else { w with pc := .test }
  | .handler => if 0 < w.total then { w with pc := .pop } else { w with pc := .test }
  | .pop =>
    match (qmessagePop w.box.q).2 with
    | some i => { w with box := w.box.pop, pc := .left i }
    | none => { w with box := w.box.pop, pc := .test }
  | .left i => { w with box := w.box.giveBack i, pc := .pop }
  | .test => if w.total < 1 then { w with pc := .wait S.enter } else { w with pc := .top }
  | .wait p => if S.blocked p w.signal then w else w.resume (S.wait p w.signal)

def spurious (w : LoopWorld σ ω κ) : LoopWorld σ ω κ :=
  match w.pc with
  | .wait p => w.resume (S.spurious p w.signal)
  | _ => w

def step (w : LoopWorld σ ω κ) : LoopStep → LoopWorld σ ω κ
  | .push i m => w.push S i m
  | .wakeup i => w.wakeup S i
  | .thread => w.thread S
  | .spurious => w.spurious S

def init : LoopWorld σ ω κ := ⟨S.start,.init,.top,fun _ => none⟩

/-- The thread is blocked in its wait. -/
def Blocked (w : LoopWorld σ ω κ) : Prop := ∃ p, w.pc = .wait p ∧ S.blocked p w.signal

/-- A thread is between its push and the end of its wakeup. -/
def Pending (w : LoopWorld σ ω κ) : Prop := ∃ i, w.calls i ≠ none

/-- A push finds fewer messages queued or not yet returned than there can be nodes. -/
def Fits (w : LoopWorld σ ω κ) (a : LoopStep) : Prop :=
  ∀ i m, a = .push i m → w.calls i = none → w.total + w.box.out.length < QMSG_MAX

/-- A lost wakeup: the thread is blocked on a queue that is not empty, and no call will change that. -/
def Stranded (w : LoopWorld σ ω κ) : Prop := w.Blocked S ∧ 0 < w.total ∧ ¬ w.Pending

variable {S}

/-- The thread goes on unless it is blocked, and each wakeup comes to its end. -/
structure Fair (ρ : Trace (step S)) : Prop where
  thread : WeaklyFair (fun n => ¬ (ρ.state n).Blocked S) (fun n => ρ.label n = .thread)
  calls : ∀ i, WeaklyFair (fun n => (ρ.state n).calls i ≠ none) (fun n => ρ.label n = .wakeup i)

/-- The thread handles the messages in the order of their pushes, and every one of them later. -/
structure Handled (ρ : Trace (step S)) : Prop where
  order : ∀ n, (ρ.state n).box.popped <+: (ρ.state n).box.pushed
  all : ∀ n i m, ρ.label n = .push i m → (ρ.state n).calls i = none →
    ∃ k > n, (ρ.state k).box.popped[(ρ.state n).box.pushed.length]? = some m

end LoopWorld

/-! ### The queue of the thread -/

/-- The messages that have entered a queue: those popped and those queued. -/
def MessageWorld.Entered (b : MessageWorld) (es : List Message) : Prop :=
  ∃ xs fs, Stocked b.q xs fs b.out ∧ es = b.popped ++ xs.map b.q.msg

namespace MessageWorld
variable {b : MessageWorld} {es : List Message}

theorem init_entered : MessageWorld.init.Entered [] :=
  ⟨_,_,MessageWorld.init_tracked.stocked,MessageWorld.init_tracked.fifo⟩

theorem Entered.push (h : b.Entered es) (hfits : b.q.total + b.out.length < QMSG_MAX) (m : Message) :
    (b.push m).Entered (es ++ [m]) := by
  obtain ⟨xs,fs,h,rfl⟩ := h
  obtain ⟨i,gs,hpush,hmsg⟩ := h.push (h.room hfits) m
  refine ⟨_,gs,hpush,?_⟩
  change _ = b.popped ++ (xs ++ [i]).map (qmessagePush b.q m).msg
  rw [hmsg,List.append_assoc]

/-- A full queue stays as it is. -/
theorem Entered.push_full (h : b.Entered es) (hfull : ¬ b.q.total + b.out.length < QMSG_MAX)
    (m : Message) : (b.push m).Entered es := by
  obtain ⟨xs,fs,h,rfl⟩ := h
  obtain ⟨hleft,hlines⟩ := h.full hfull
  have hsame : qmessagePush b.q m = b.q := qmessagePush_full hleft hlines m
  refine ⟨xs,fs,?_,?_⟩
  · change Stocked (qmessagePush b.q m) xs fs b.out
    rwa [hsame]
  · change _ = b.popped ++ xs.map (qmessagePush b.q m).msg
    rw [hsame]

theorem pop_some {i : ℕ} (h : (qmessagePop b.q).2 = some i) : b.pop =
    { b with q := (qmessagePop b.q).1, popped := b.popped ++ [(qmessagePop b.q).1.msg i],
             out := i::b.out } := by
  rw [MessageWorld.pop,show qmessagePop b.q = ((qmessagePop b.q).1,some i) from Prod.ext rfl h]

theorem pop_pushed (b : MessageWorld) : b.pop.pushed = b.pushed := by
  rw [MessageWorld.pop]
  split <;> rfl

theorem giveBack_pushed (b : MessageWorld) (i : ℕ) : (b.giveBack i).pushed = b.pushed := by
  rw [MessageWorld.giveBack]
  split_ifs <;> rfl

theorem giveBack_popped (b : MessageWorld) (i : ℕ) : (b.giveBack i).popped = b.popped := by
  rw [MessageWorld.giveBack]
  split_ifs <;> rfl

theorem Entered.pop (h : b.Entered es) : b.pop.Entered es := by
  obtain ⟨xs,fs,h,rfl⟩ := h
  cases xs with
  | nil =>
    rw [MessageWorld.pop,h.pop_empty]
    exact ⟨[],fs,h,rfl⟩
  | cons i xs =>
    obtain ⟨hret,hstocked,hmsg⟩ := h.pop
    rw [pop_some hret]
    refine ⟨xs,fs,hstocked,?_⟩
    dsimp only
    rw [hmsg,List.map_cons,List.append_assoc,List.singleton_append]

theorem Entered.giveBack (h : b.Entered es) (i : ℕ) : (b.giveBack i).Entered es := by
  obtain ⟨xs,fs,h,rfl⟩ := h
  rw [MessageWorld.giveBack]
  split_ifs with hi
  · exact ⟨xs,i::fs,h.left hi,rfl⟩
  · exact ⟨xs,fs,h,rfl⟩

/-- A pop finds nothing only in an empty queue. -/
theorem Entered.pop_none (h : b.Entered es) (hpop : (qmessagePop b.q).2 = none) :
    b.pop = b ∧ b.q.total = 0 := by
  obtain ⟨xs,fs,h,-⟩ := h
  cases xs with
  | nil =>
    rw [MessageWorld.pop,h.pop_empty]
    exact ⟨rfl,h.total⟩
  | cons i xs =>
    rw [h.pop.1] at hpop
    cases hpop

theorem Entered.lengths (h : b.Entered es) : b.popped.length + b.q.total = es.length := by
  obtain ⟨xs,fs,h,rfl⟩ := h
  rw [h.total,List.length_append,List.length_map]
  push_cast
  rfl

/-- A queue with more messages than have been popped is not empty. -/
theorem Entered.total_pos (h : b.Entered es) (hlen : b.popped.length < es.length) :
    0 < b.q.total := by
  have hlengths := h.lengths
  omega

theorem Entered.popped_begins (h : b.Entered es) : b.popped <+: es := by
  obtain ⟨xs,fs,-,rfl⟩ := h
  exact List.prefix_append ..

end MessageWorld

namespace LoopWorld
variable {σ ω κ : Type} {S : Waiting σ ω κ} {w : LoopWorld σ ω κ}

theorem push_idle {i : ℕ} (h : w.calls i = none) (m : Message) : w.push S i m =
    { w with box := w.box.push m, calls := Function.update w.calls i (some S.call) } := by
  rw [push,h]

theorem push_busy {i : ℕ} {k : κ} (h : w.calls i = some k) (m : Message) : w.push S i m = w := by
  rw [push,h]

theorem wakeup_idle {i : ℕ} (h : w.calls i = none) : w.wakeup S i = w := by
  rw [wakeup,h]

theorem wakeup_busy {i : ℕ} {k : κ} (h : w.calls i = some k) : w.wakeup S i =
    { w with signal := (S.wakeup k w.signal).2,
             calls := Function.update w.calls i (S.wakeup k w.signal).1 } := by
  rw [wakeup,h]

theorem thread_calls : (w.thread S).calls = w.calls := by
  rw [thread]
  cases w.pc with
  | top => dsimp only; split_ifs <;> rfl
  | handler => dsimp only; split_ifs <;> rfl
  | pop => dsimp only; split <;> rfl
  | left i => rfl
  | test => dsimp only; split_ifs <;> rfl
  | wait p => dsimp only; split_ifs <;> rfl

/-- The thread only pops messages and returns their nodes. -/
theorem thread_box : (w.thread S).box = w.box ∨ (w.thread S).box = w.box.pop ∨
    ∃ i, (w.thread S).box = w.box.giveBack i := by
  rw [thread]
  cases w.pc with
  | top => dsimp only; split_ifs <;> exact Or.inl rfl
  | handler => dsimp only; split_ifs <;> exact Or.inl rfl
  | pop => dsimp only; split <;> exact Or.inr (Or.inl rfl)
  | left i => exact Or.inr (Or.inr ⟨i,rfl⟩)
  | test => dsimp only; split_ifs <;> exact Or.inl rfl
  | wait p => dsimp only; split_ifs <;> exact Or.inl rfl

theorem spurious_frame : (w.spurious S).box = w.box ∧ (w.spurious S).calls = w.calls := by
  rw [spurious]
  cases w.pc <;> exact ⟨rfl,rfl⟩

theorem wakeup_box (i : ℕ) : (w.wakeup S i).box = w.box := by
  cases hi : w.calls i with
  | none => rw [wakeup_idle hi]
  | some k => rw [wakeup_busy hi]

/-- No step but a push adds to the queue. -/
theorem step_box {a : LoopStep} (ha : ∀ i m, a = .push i m → w.calls i ≠ none) :
    (w.step S a).box = w.box ∨ (w.step S a).box = w.box.pop ∨
      ∃ i, (w.step S a).box = w.box.giveBack i := by
  cases a with
  | push i m =>
    obtain ⟨k,hk⟩ := Option.ne_none_iff_exists'.1 (ha i m rfl)
    exact Or.inl (congrArg box (push_busy hk m))
  | wakeup i => exact Or.inl (wakeup_box i)
  | thread => exact thread_box
  | spurious => exact Or.inl spurious_frame.1

theorem step_entered {es : List Message} (h : w.box.Entered es) {a : LoopStep}
    (ha : ∀ i m, a = .push i m → w.calls i ≠ none) : (w.step S a).box.Entered es := by
  obtain hbox | hbox | ⟨i,hbox⟩ := step_box (S := S) ha
  · rwa [hbox]
  · rw [hbox]
    exact h.pop
  · rw [hbox]
    exact h.giveBack i

/-- Only a push is recorded as one. -/
theorem step_pushed {a : LoopStep} (ha : ∀ i m, a = .push i m → w.calls i ≠ none) :
    (w.step S a).box.pushed = w.box.pushed := by
  obtain hbox | hbox | ⟨i,hbox⟩ := step_box (S := S) ha
  · rw [hbox]
  · rw [hbox,MessageWorld.pop_pushed]
  · rw [hbox,MessageWorld.giveBack_pushed]

theorem push_pushed {i : ℕ} (h : w.calls i = none) (m : Message) :
    (w.push S i m).box.pushed = w.box.pushed ++ [m] := by
  rw [push_idle h]
  rfl

theorem step_prefix (a : LoopStep) : w.box.pushed <+: (w.step S a).box.pushed := by
  by_cases ha : ∀ i m, a = .push i m → w.calls i ≠ none
  · rw [step_pushed ha]
  · simp only [not_forall,not_not] at ha
    obtain ⟨i,m,rfl,hi⟩ := ha
    exact ⟨[m],(push_pushed hi m).symm⟩

/-- Where every push fits, the messages pushed are those that have entered the queue. -/
theorem step_recorded (h : w.box.Entered w.box.pushed) {a : LoopStep} (hfits : w.Fits a) :
    (w.step S a).box.Entered (w.step S a).box.pushed := by
  by_cases ha : ∀ i m, a = .push i m → w.calls i ≠ none
  · rw [step_pushed ha]
    exact step_entered h ha
  · simp only [not_forall,not_not] at ha
    obtain ⟨i,m,rfl,hi⟩ := ha
    change (w.push S i m).box.Entered (w.push S i m).box.pushed
    rw [push_idle hi]
    exact h.push (hfits i m rfl hi) m

/-- A call goes on until its own step. -/
theorem step_calls {i : ℕ} (h : w.calls i ≠ none) {a : LoopStep} (ha : a ≠ .wakeup i) :
    (w.step S a).calls i ≠ none := by
  cases a with
  | push j m =>
    change (w.push S j m).calls i ≠ none
    cases hj : w.calls j with
    | some k => rwa [push_busy hj]
    | none =>
      rw [push_idle hj]
      have hne : i ≠ j := fun he => h (he ▸ hj)
      exact fun hnone => h ((Function.update_of_ne hne _ _).symm.trans hnone)
  | wakeup j =>
    change (w.wakeup S j).calls i ≠ none
    cases hj : w.calls j with
    | none => rwa [wakeup_idle hj]
    | some k =>
      rw [wakeup_busy hj]
      have hne : i ≠ j := fun he => ha (he ▸ rfl)
      exact fun hnone => h ((Function.update_of_ne hne _ _).symm.trans hnone)
  | thread =>
    change (w.thread S).calls i ≠ none
    rwa [thread_calls]
  | spurious =>
    change (w.spurious S).calls i ≠ none
    rwa [spurious_frame.2]

/-- After a push some call is pending. -/
theorem push_pending (i : ℕ) (m : Message) : (w.push S i m).Pending := by
  refine ⟨i,?_⟩
  cases hi : w.calls i with
  | none => rw [push_idle hi]; simp
  | some k => rw [push_busy hi,hi]; simp

/-- A call that stays in its wakeup, or another one, is pending. -/
theorem wakeup_pending {i : ℕ} {k : κ} (h : w.calls i = some k)
    (hmore : (S.wakeup k w.signal).1 ≠ none ∨ ∃ j ≠ i, w.calls j ≠ none) :
    (w.wakeup S i).Pending := by
  rw [wakeup_busy h]
  obtain hmore | ⟨j,hj,hcall⟩ := hmore
  · exact ⟨i,by simpa using hmore⟩
  · exact ⟨j,by simpa [hj] using hcall⟩

theorem resume_same {p : ω} (h : w.pc = .wait p) : w.resume (some p,w.signal) = w := by
  rw [resume]
  dsimp only
  rw [← h]

/-- A pass of `qmessage_handler` empties the queue. -/
theorem handler_drains {xs fs : List ℕ} (h : Stocked w.box.q xs fs w.box.out) (hpc : w.pc = .pop) :
    ∃ b gs, Stocked b.q [] gs b.out ∧ b.out = w.box.out ∧
      (List.replicate (2*xs.length+1) LoopStep.thread).foldl (step S) w =
        { w with box := b, pc := .test } := by
  induction xs generalizing w fs with
  | nil =>
    refine ⟨w.box,fs,h,rfl,?_⟩
    have hnone : (qmessagePop w.box.q).2 = none := by rw [h.pop_empty]
    have hsame : w.box.pop = w.box := by rw [MessageWorld.pop,h.pop_empty]
    change w.thread S = _
    rw [thread,hpc]
    dsimp only
    rw [hnone,hsame]
  | cons i xs ih =>
    obtain ⟨hret,hstocked,-⟩ := h.pop
    have hpop := MessageWorld.pop_some hret
    let v : LoopWorld σ ω κ := { w with box := w.box.pop, pc := .left i }
    have hthread : w.thread S = v := by
      rw [thread,hpc]
      dsimp only
      rw [hret]
    have hout : v.box.out = i::w.box.out := congrArg MessageWorld.out hpop
    have hq : v.box.q = (qmessagePop w.box.q).1 := congrArg MessageWorld.q hpop
    have hback : v.box.giveBack i =
        { v.box with q := qmessageLeft v.box.q i, out := v.box.out.erase i } := by
      rw [MessageWorld.giveBack,if_pos (by rw [hout]; exact List.mem_cons_self)]
    have hleft : Stocked (v.box.giveBack i).q xs (i::fs) (v.box.giveBack i).out := by
      rw [hback]
      apply Stocked.left _ (by rw [hout]; exact List.mem_cons_self)
      rwa [hq,hout]
    have herase : (v.box.giveBack i).out = w.box.out := by
      rw [hback,hout]
      exact List.erase_cons_head ..
    obtain ⟨b,gs,hb,hbout,hrun⟩ := ih (w := v.thread S) hleft rfl
    refine ⟨b,gs,hb,hbout.trans herase,?_⟩
    have hlen : 2*(i::xs).length+1 = 2*xs.length+1+1+1 := by
      rw [List.length_cons]
      ring
    rw [hlen,List.replicate_succ,List.replicate_succ,List.foldl_cons,List.foldl_cons]
    change (List.replicate (2*xs.length+1) LoopStep.thread).foldl (step S)
      ((w.thread S).thread S) = _
    rw [hthread,hrun]
    rfl

/-- A schedule in which the thread and every wakeup have their turn again and again. -/
def rounds (n : ℕ) : LoopStep :=
  match n.unpair.1 with
  | 0 => .thread
  | i+1 => .wakeup i

theorem fair_of_rounds {ρ : Trace (step S)} {N : ℕ} (h : ∀ n ≥ N, ρ.label n = rounds n) :
    Fair ρ := by
  have hturn : ∀ a n, ∃ k ≥ n, ρ.label k = rounds k ∧ k.unpair.1 = a := by
    intro a n
    have hle : max n N ≤ Nat.pair a (max n N) := Nat.right_le_pair ..
    refine ⟨Nat.pair a (max n N),(le_max_left ..).trans hle,h _ ((le_max_right ..).trans hle),?_⟩
    rw [Nat.unpair_pair]
  constructor
  · intro n
    obtain ⟨k,hk,hlabel,hturn⟩ := hturn 0 n
    refine ⟨k,hk,Or.inl ?_⟩
    change ρ.label k = _
    rw [hlabel,rounds,hturn]
  · intro i n
    obtain ⟨k,hk,hlabel,hturn⟩ := hturn (i+1) n
    refine ⟨k,hk,Or.inl ?_⟩
    change ρ.label k = _
    rw [hlabel,rounds,hturn]

theorem rounds_ne_push (n i : ℕ) (m : Message) : rounds n ≠ .push i m := by
  rw [rounds]
  split <;> simp

end LoopWorld
end Sbase
