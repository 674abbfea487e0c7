import Sbase.Procthread.Loop
import Sbase.Event.Evbase

/-! A thread that waits on an `EVSIG`, a socket in an epoll set of its own. The socket is always
writable, so that `epoll_wait` returns where the set has `EPOLLOUT` for it.

A wakeup is lost where it falls between the second clearing of `flag` and the re-arming of the set:
`flag` stays 1 over the next pass, and the wakeups of that time do nothing. -/
namespace Sbase
open Runs

/-- An `EVSIG` whose socket and set are open, and the mask of the socket in the set. -/
structure Evsig where
  flag : ℤ
  events : Flags

inductive EvsigWait
  | clear
  | wait
  | reset
  | rearm
  deriving DecidableEq

inductive EvsigCall
  | test
  | set
  | ctl
  deriving DecidableEq

/-- `evsig_epoll_wait` -/
def evsigWait : EvsigWait → Evsig → Option EvsigWait × Evsig
  | .clear, s => (some .wait, { s with flag := 0 })
  | .wait, s => (some .reset, s)
  | .reset, s => (some .rearm, { s with flag := 0 })
  | .rearm, s => (none, { s with events := EPOLLIN })

/-- `evsig_wakeup` and `evsig_epoll_wakeup` -/
def evsigWakeup : EvsigCall → Evsig → Option EvsigCall × Evsig
  | .test, s => if s.flag = 0 then (some .set, s) else (none, s)
  | .set, s => (some .ctl, { s with flag := 1 })
  | .ctl, s => (none, { s with events := EPOLLIN ||| EPOLLOUT })

def evsig : Waiting Evsig EvsigWait EvsigCall where
  start := ⟨0,EPOLLIN⟩
  enter := .clear
  call := .test
  wait := evsigWait
  blocked p s := p = .wait ∧ ¬ hasFlag s.events EPOLLOUT
  spurious p s := (some p, s)
  wakeup := evsigWakeup

abbrev EvsigWorld : Type := LoopWorld Evsig EvsigWait EvsigCall

namespace EvsigWorld

/-- `EPOLLOUT` is registered. -/
def Armed (w : EvsigWorld) : Prop := hasFlag w.signal.events EPOLLOUT

/-- The last wakeup under way does nothing, as `flag` is 1, while the thread is between its test of the
queue and its first clearing of `flag`, with `EPOLLOUT` not registered and a message queued. -/
def SkipsStale (w : EvsigWorld) (a : LoopStep) : Prop :=
  ∃ i, a = .wakeup i ∧ w.calls i = some .test ∧ w.pc = .wait .clear ∧ w.signal.flag ≠ 0 ∧
    0 < w.total ∧ ¬ Armed w ∧ ∀ j ≠ i, w.calls j = none

/-- What holds from the test of the queue to the end of `epoll_wait`. -/
structure Inv (w : EvsigWorld) : Prop where
  queued : w.pc = .wait .clear ∨ w.pc = .wait .wait → 0 < w.total → Armed w ∨ w.Pending
  flagged : w.pc = .wait .wait → w.signal.flag ≠ 0 → Armed w ∨ ∃ i, w.calls i = some .ctl

variable {w : EvsigWorld}

theorem init_inv : Inv (LoopWorld.init evsig) where
  queued h := by obtain h | h := h <;> cases h
  flagged h := by cases h

namespace Inv

theorem not_stranded (h : Inv w) : ¬ w.Stranded evsig := by
  intro hs
  obtain ⟨⟨p,hpc,hblocked⟩,htotal,hpending⟩ := hs
  change decide (p = .wait ∧ ¬ hasFlag w.signal.events EPOLLOUT) = true at hblocked
  obtain ⟨rfl,hout⟩ := of_decide_eq_true hblocked
  obtain harmed | hp := h.queued (Or.inr hpc) htotal
  · exact hout harmed
  · exact hpending hp

theorem push (h : Inv w) (i : ℕ) (m : Message) : Inv (w.push evsig i m) := by
  cases hi : w.calls i with
  | some k => rwa [LoopWorld.push_busy hi]
  | none =>
    have hpending := LoopWorld.push_pending (S := evsig) (w := w) i m
    refine ⟨fun _ _ => Or.inr hpending,?_⟩
    rw [LoopWorld.push_idle hi]
    intro hpc hflag
    obtain harmed | ⟨j,hj⟩ := h.flagged hpc hflag
    · exact Or.inl harmed
    · refine Or.inr ⟨j,?_⟩
      have hne : j ≠ i := by
        rintro rfl
        rw [hi] at hj
        cases hj
      exact (Function.update_of_ne hne _ _).trans hj

/-- Another call than one at its test is at its `epoll_ctl`. -/
theorem other_ctl (h : Inv w) {i : ℕ} (hi : w.calls i = some .test) (hpc : w.pc = .wait .wait)
    (hflag : w.signal.flag ≠ 0) : Armed w ∨ ∃ j ≠ i, w.calls j = some .ctl := by
  obtain harmed | ⟨j,hj⟩ := h.flagged hpc hflag
  · exact Or.inl harmed
  · refine Or.inr ⟨j,?_,hj⟩
    rintro rfl
    rw [hi] at hj
    cases hj

/-- A wakeup that finds `flag` set leaves the thread to another one, or to the armed set. -/
theorem other_pending (h : Inv w) {i : ℕ} (hi : w.calls i = some .test)
    (hguard : ¬ SkipsStale w (.wakeup i)) (hflag : w.signal.flag ≠ 0) (htotal : 0 < w.total)
    (hpc : w.pc = .wait .clear ∨ w.pc = .wait .wait) : Armed w ∨ ∃ j ≠ i, w.calls j ≠ none := by
  obtain hpc | hpc := hpc
  · by_contra hnone
    rw [not_or,not_exists] at hnone
    apply hguard
    refine ⟨i,rfl,hi,hpc,hflag,htotal,hnone.1,?_⟩
    intro j hj
    by_contra hcall
    exact hnone.2 j ⟨hj,hcall⟩
  · obtain harmed | ⟨j,hj,hctl⟩ := h.other_ctl hi hpc hflag
    · exact Or.inl harmed
    · exact Or.inr ⟨j,hj,by rw [hctl]; simp⟩

theorem wakeup (h : Inv w) (i : ℕ) (hguard : ¬ SkipsStale w (.wakeup i)) :
    Inv (w.wakeup evsig i) := by
  cases hi : w.calls i with
  | none => rwa [LoopWorld.wakeup_idle hi]
  | some k =>
    have hbusy := LoopWorld.wakeup_busy (S := evsig) hi
    have hmore := LoopWorld.wakeup_pending (S := evsig) hi
    cases k with
    | test =>
      by_cases hflag : w.signal.flag = 0
      · have hstep : evsig.wakeup .test w.signal = (some .set,w.signal) := if_pos hflag
        rw [hstep] at hbusy hmore
        refine ⟨fun _ _ => Or.inr (hmore (Or.inl (by simp))),?_⟩
        rw [hbusy]
        exact fun _ hset => absurd hflag hset
      · have hstep : evsig.wakeup .test w.signal = (none,w.signal) := if_neg hflag
        rw [hstep] at hbusy hmore
        have hpcs : (w.wakeup evsig i).pc = w.pc := by rw [hbusy]
        have htotals : (w.wakeup evsig i).total = w.total := by rw [hbusy]; rfl
        have harms : Armed (w.wakeup evsig i) ↔ Armed w := by rw [hbusy]; rfl
        constructor
        · intro hpc htotal
          rw [hpcs] at hpc
          rw [htotals] at htotal
          rw [harms]
          obtain harmed | hother := h.other_pending hi hguard hflag htotal hpc
          · exact Or.inl harmed
          · exact Or.inr (hmore (Or.inr hother))
        · intro hpc _
          rw [hpcs] at hpc
          rw [harms]
          obtain harmed | ⟨j,hj,hctl⟩ := h.other_ctl hi hpc hflag
          · exact Or.inl harmed
          · refine Or.inr ⟨j,?_⟩
            rw [hbusy]
            exact (Function.update_of_ne hj _ _).trans hctl
    | set =>
      have hstep : evsig.wakeup .set w.signal = (some .ctl,{ w.signal with flag := 1 }) := rfl
      rw [hstep] at hbusy hmore
      refine ⟨fun _ _ => Or.inr (hmore (Or.inl (by simp))),fun _ _ => Or.inr ⟨i,?_⟩⟩
      rw [hbusy]
      exact Function.update_self ..
    | ctl =>
      have harmed : Armed (w.wakeup evsig i) := by
        rw [hbusy,Armed]
        exact (by decide : hasFlag (EPOLLIN ||| EPOLLOUT) EPOLLOUT = true)
      exact ⟨fun _ _ => Or.inl harmed,fun _ _ => Or.inl harmed⟩

/-- Outside the wait, and after it, nothing is claimed. -/
theorem elsewhere (hclear : w.pc ≠ .wait .clear) (hwait : w.pc ≠ .wait .wait) : Inv w :=
  ⟨fun hpc => absurd hpc (not_or.2 ⟨hclear,hwait⟩),fun hpc => absurd hpc hwait⟩

theorem thread (h : Inv w) : Inv (w.thread evsig) := by
  rw [LoopWorld.thread]
  cases hpc : w.pc with
  | top =>
    dsimp only
    split_ifs <;> exact elsewhere (by rintro ⟨⟩) (by rintro ⟨⟩)
  | handler =>
    dsimp only
    split_ifs <;> exact elsewhere (by rintro ⟨⟩) (by rintro ⟨⟩)
  | pop =>
    dsimp only
    split <;> exact elsewhere (by rintro ⟨⟩) (by rintro ⟨⟩)
  | left i => exact elsewhere (by rintro ⟨⟩) (by rintro ⟨⟩)
  | test =>
    dsimp only
    split_ifs with htotal
    · refine ⟨fun _ hpos => ?_,by rintro ⟨⟩⟩
      change 0 < w.total at hpos
      omega
    · exact elsewhere (by rintro ⟨⟩) (by rintro ⟨⟩)
  | wait p =>
    dsimp only
    split_ifs
    · exact h
    · cases p with
      | clear => exact ⟨fun _ => h.queued (Or.inl hpc),fun _ hflag => absurd rfl hflag⟩
      | wait => exact elsewhere (by rintro ⟨⟩) (by rintro ⟨⟩)
      | reset => exact elsewhere (by rintro ⟨⟩) (by rintro ⟨⟩)
      | rearm => exact elsewhere (by rintro ⟨⟩) (by rintro ⟨⟩)

theorem spurious (h : Inv w) : Inv (w.spurious evsig) := by
  rw [LoopWorld.spurious]
  cases hpc : w.pc with
  | wait p =>
    change Inv (w.resume (some p,w.signal))
    rwa [LoopWorld.resume_same hpc]
  | _ => exact h

theorem step (h : Inv w) (a : LoopStep) (hguard : ¬ SkipsStale w a) : Inv (w.step evsig a) := by
  cases a with
  | push i m => exact h.push i m
  | wakeup i => exact h.wakeup i hguard
  | thread => exact h.thread
  | spurious => exact h.spurious

end Inv

/-- A wakeup that does nothing because of a stale `flag` strands the thread at its next step. -/
theorem SkipsStale.stranded {a : LoopStep} (h : SkipsStale w a) :
    ((w.step evsig a).step evsig .thread).Stranded evsig := by
  obtain ⟨i,rfl,hi,hpc,hflag,htotal,harmed,hothers⟩ := h
  have hstep : evsig.wakeup .test w.signal = (none,w.signal) := if_neg hflag
  have hbusy := LoopWorld.wakeup_busy (S := evsig) hi
  rw [hstep] at hbusy
  have hthread : (w.wakeup evsig i).thread evsig =
      { w with signal := { w.signal with flag := 0 }, pc := .wait .wait,
               calls := Function.update w.calls i none } := by
    rw [hbusy,LoopWorld.thread,hpc]
    rfl
  change ((w.wakeup evsig i).thread evsig).Stranded evsig
  rw [hthread]
  refine ⟨⟨.wait,rfl,?_⟩,htotal,?_⟩
  · exact decide_eq_true ⟨rfl,harmed⟩
  · rintro ⟨j,hj⟩
    apply hj
    by_cases hji : j = i
    · rw [hji]
      exact Function.update_self ..
    · exact (Function.update_of_ne hji _ _).trans (hothers j hji)

/-- In a run in which no wakeup finds a stale `flag` between the thread's test of its queue and its
first clearing of `flag`, no wakeup is lost; every such wakeup is, should the thread go on. -/
theorem evsig_no_lost_wakeup (ls : List LoopStep) (w : LoopWorld Evsig EvsigWait EvsigCall) :
    (Run (Guarded (fun w a => ¬ SkipsStale w a) (ofFun (LoopWorld.step evsig)))
      (LoopWorld.init evsig) ls w → ¬ w.Stranded evsig) ∧
    ∀ a, SkipsStale w a → ((w.step evsig a).step evsig .thread).Stranded evsig := by
  refine ⟨fun hrun => ?_,fun a h => h.stranded⟩
  have hinv := hrun.invariant Inv init_inv fun a l b ha hstep => by
    obtain ⟨hguard,rfl⟩ := hstep
    exact ha.step l hguard
  exact hinv.not_stranded

/-! ### A run that strands the thread -/

/-- A whole call of a thread that finds `flag` cleared. -/
def wholeCall (i : ℕ) (m : Message) : List LoopStep :=
  [.push i m,.wakeup i,.wakeup i,.wakeup i]

/-- The only call under way is that of a thread. -/
theorem only_call (i : ℕ) (k : EvsigCall) :
    (Function.update (fun _ => none) i (some k) : ℕ → Option EvsigCall) i = some k :=
  Function.update_self ..

/-- One step of the only call under way. -/
theorem wakeup_only (i : ℕ) (k : EvsigCall) (s : Evsig) (b : MessageWorld) (pc : LoopPc EvsigWait) :
    LoopWorld.wakeup evsig ⟨s,b,pc,Function.update (fun _ => none) i (some k)⟩ i =
      ⟨(evsigWakeup k s).2,b,pc,Function.update (fun _ => none) i (evsigWakeup k s).1⟩ := by
  rw [LoopWorld.wakeup_busy (only_call i k),Function.update_idem]
  rfl

theorem push_only (i : ℕ) (m : Message) (s : Evsig) (b : MessageWorld) (pc : LoopPc EvsigWait) :
    LoopWorld.push evsig ⟨s,b,pc,fun _ => none⟩ i m =
      ⟨s,b.push m,pc,Function.update (fun _ => none) i (some .test)⟩ := LoopWorld.push_idle rfl m

theorem foldl_wholeCall (i : ℕ) (m : Message) {s : Evsig} (hflag : s.flag = 0) (b : MessageWorld)
    (pc : LoopPc EvsigWait) :
    (wholeCall i m).foldl (LoopWorld.step evsig) ⟨s,b,pc,fun _ => none⟩ =
      ⟨⟨1,EPOLLIN ||| EPOLLOUT⟩,b.push m,pc,fun _ => none⟩ := by
  have htest : evsigWakeup .test s = (some .set,s) := if_pos hflag
  simp only [wholeCall,List.foldl_cons,List.foldl_nil,LoopWorld.step]
  rw [push_only,wakeup_only,htest,wakeup_only,evsigWakeup,wakeup_only,evsigWakeup]
  simp only [Function.update_eq_self]

/-- The thread waits; a call wakes it up; before it re-arms the set another call sets `flag`. It
handles both messages, finds the queue empty, and a third message comes before it clears `flag`. -/
def strandingRun (m : Message) : List LoopStep :=
  List.replicate 3 .thread ++ wholeCall 0 m ++ List.replicate 2 .thread ++ wholeCall 1 m ++
    List.replicate 3 .thread ++ List.replicate 5 .thread ++ [.thread,.push 0 m] ++
    [.wakeup 0,.thread]

/-- On an empty queue the thread goes to its wait, and blocks there. -/
theorem thread_waits (s : Evsig) {b : MessageWorld} (h : b.q.total = 0) :
    (List.replicate 3 LoopStep.thread).foldl (LoopWorld.step evsig) ⟨s,b,.top,fun _ => none⟩ =
      ⟨{ s with flag := 0 },b,.wait .wait,fun _ => none⟩ := by
  simp [LoopWorld.step,LoopWorld.thread,LoopWorld.total,LoopWorld.resume,evsig,evsigWait,h]

/-- A message that comes then wakes it up. -/
theorem thread_woken (b : MessageWorld) :
    (List.replicate 2 LoopStep.thread).foldl (LoopWorld.step evsig)
      ⟨⟨1,EPOLLIN ||| EPOLLOUT⟩,b,.wait .wait,fun _ => none⟩ =
      ⟨⟨0,EPOLLIN ||| EPOLLOUT⟩,b,.wait .rearm,fun _ => none⟩ := by
  have hout : hasFlag (EPOLLIN ||| EPOLLOUT) EPOLLOUT = true := by decide
  simp [LoopWorld.step,LoopWorld.thread,LoopWorld.resume,evsig,evsigWait,hout]

/-- The set is re-armed, and the pass begins. -/
theorem thread_rearms (s : Evsig) {b : MessageWorld} (h : 0 < b.q.total) :
    (List.replicate 3 LoopStep.thread).foldl (LoopWorld.step evsig)
      ⟨s,b,.wait .rearm,fun _ => none⟩ = ⟨{ s with events := EPOLLIN },b,.pop,fun _ => none⟩ := by
  simp [LoopWorld.step,LoopWorld.thread,LoopWorld.total,LoopWorld.resume,evsig,evsigWait,h]

theorem evsig_wakeup_lost :
    ((strandingRun ⟨5,1,7,-1,0,0,0⟩).foldl (LoopWorld.step evsig)
      (LoopWorld.init evsig)).Stranded evsig := by
  generalize (⟨5,1,7,-1,0,0,0⟩ : Message) = m
  have h0 := MessageWorld.init_tracked.stocked
  have hout : MessageWorld.init.out = [] := rfl
  rw [LoopWorld.init]
  generalize MessageWorld.init = b, (List.range QMSG_INIT_NUM).reverse = fs at h0 hout ⊢
  -- the queue with one message, with two, and after the pass
  obtain ⟨i,gs,h1,-⟩ := h0.push (h0.room (by rw [h0.total,hout]; decide)) m
  obtain ⟨j,ks,h2,-⟩ := h1.push (h1.room (by rw [h1.total,hout]; change (1 + 0 : ℤ) < _; decide)) m
  have htwo : 0 < ((b.push m).push m).q.total := by
    rw [show ((b.push m).push m).q.total = _ from h2.total]
    exact Int.natCast_pos.2 (by simp)
  have hdrain := LoopWorld.handler_drains (S := evsig)
    (w := ⟨⟨1,EPOLLIN⟩,(b.push m).push m,.pop,fun _ => none⟩) h2 rfl
  obtain ⟨c,ls,h3,hcout,hdrain⟩ := hdrain
  have hc : c.out = [] := hcout.trans hout
  obtain ⟨l,ms,h4,-⟩ := h3.push (h3.room (by rw [h3.total,hc]; decide)) m
  have hpass : (List.replicate 5 LoopStep.thread).foldl (LoopWorld.step evsig)
      ⟨⟨1,EPOLLIN⟩,(b.push m).push m,.pop,fun _ => none⟩ =
      ⟨⟨1,EPOLLIN⟩,c,.test,fun _ => none⟩ := hdrain
  have htest : LoopWorld.thread evsig ⟨⟨1,EPOLLIN⟩,c,.test,fun _ => none⟩ =
      ⟨⟨1,EPOLLIN⟩,c,.wait .clear,fun _ => none⟩ := by
    have hzero : c.q.total = 0 := h3.total
    simp [LoopWorld.thread,LoopWorld.total,evsig,hzero]
  rw [strandingRun]
  simp only [List.foldl_append]
  rw [thread_waits _ h0.total,foldl_wholeCall 0 m rfl,thread_woken,foldl_wholeCall 1 m rfl,
    thread_rearms _ htwo,hpass]
  simp only [List.foldl_cons,List.foldl_nil]
  apply SkipsStale.stranded
  change SkipsStale (LoopWorld.push evsig (LoopWorld.thread evsig _) 0 m) _
  rw [htest,push_only]
  refine ⟨0,rfl,only_call 0 .test,rfl,one_ne_zero,?_,?_,?_⟩
  · change 0 < (qmessagePush c.q m).total
    rw [h4.total]
    exact Int.natCast_pos.2 (by simp)
  · exact (by decide : ¬ hasFlag EPOLLIN EPOLLOUT = true)
  · intro j hj
    exact Function.update_of_ne (f := fun _ => none) hj _

end EvsigWorld
end Sbase
