import Sbase.Procthread.Loop

/-! A thread that waits on a condition variable through `MUTEX_WAIT` and `MUTEX_SIGNAL`.

The queue is tested outside the mutex; `nowait` remembers the signals sent between that test and the
wait. -/
namespace Sbase
open Runs

/-- A `MUTEX` for one thread that waits: `waiting` and `signaled` are the condition variable, which
has a waiter and has released it. -/
structure Mutex where
  nowait : ℤ
  waiting : Bool
  signaled : Bool

inductive MutexWait
  | lock
  | asleep
  deriving DecidableEq

/-- `MUTEX_WAIT`: up to the wait on the condition variable, and from there. -/
def mutexWait : MutexWait → Mutex → Option MutexWait × Mutex
  | .lock, s =>
    if s.nowait = 0 then (some .asleep, { s with waiting := true, signaled := false })
    else (none, { s with nowait := 0 })
  | .asleep, s => (none, { s with nowait := 0, waiting := false, signaled := false })

/-- `MUTEX_SIGNAL`, which releases a waiter if there is one. -/
def mutexSignal (s : Mutex) : Mutex :=
  { s with nowait := 1, signaled := s.signaled || s.waiting }

/-- A wait on a condition variable may also end without a signal. -/
def mutexSpurious : MutexWait → Mutex → Option MutexWait × Mutex
  | .lock, s => (some .lock, s)
  | .asleep, s => mutexWait .asleep s

def mutexCond : Waiting Mutex MutexWait Unit where
  start := ⟨0,false,false⟩
  enter := .lock
  call := ()
  wait := mutexWait
  blocked p s := p = .asleep ∧ s.signaled = false
  spurious := mutexSpurious
  wakeup _ s := (none,mutexSignal s)

abbrev CondWorld : Type := LoopWorld Mutex MutexWait Unit

namespace CondWorld

/-- What holds in `MUTEX_WAIT`: a message in the queue has a signal, or a call that will send one. -/
structure Inv (w : CondWorld) : Prop where
  locked : w.pc = .wait .lock → 0 < w.total → w.Pending ∨ w.signal.nowait ≠ 0
  waiting : w.pc = .wait .asleep → w.signal.waiting = true
  asleep : w.pc = .wait .asleep → 0 < w.total → w.Pending ∨ w.signal.signaled = true

variable {w : CondWorld}

theorem init_inv : Inv (LoopWorld.init mutexCond) := ⟨nofun,nofun,nofun⟩

theorem blocked_iff : w.Blocked mutexCond ↔ w.pc = .wait .asleep ∧ w.signal.signaled = false := by
  constructor
  · intro h
    obtain ⟨p,hpc,hblocked⟩ := h
    obtain ⟨rfl,hsignaled⟩ := of_decide_eq_true hblocked
    exact ⟨hpc,hsignaled⟩
  · intro h
    exact ⟨.asleep,h.1,decide_eq_true ⟨rfl,h.2⟩⟩

theorem wakeup_eq {i : ℕ} (h : w.calls i ≠ none) : w.wakeup mutexCond i =
    { w with signal := mutexSignal w.signal, calls := Function.update w.calls i none } := by
  obtain ⟨k,hk⟩ := Option.ne_none_iff_exists'.1 h
  exact LoopWorld.wakeup_busy hk

namespace Inv

theorem not_stranded (h : Inv w) : ¬ w.Stranded mutexCond := by
  intro hs
  obtain ⟨hblocked,htotal,hpending⟩ := hs
  obtain ⟨hpc,hsignaled⟩ := blocked_iff.1 hblocked
  obtain hp | hp := h.asleep hpc htotal
  · exact hpending hp
  · rw [hsignaled] at hp
    cases hp

theorem elsewhere (hlock : w.pc ≠ .wait .lock) (hasleep : w.pc ≠ .wait .asleep) : Inv w :=
  ⟨fun h => absurd h hlock,fun h => absurd h hasleep,fun h => absurd h hasleep⟩

theorem push (h : Inv w) (i : ℕ) (m : Message) : Inv (w.push mutexCond i m) := by
  have hpending := LoopWorld.push_pending (S := mutexCond) (w := w) i m
  refine ⟨fun _ _ => Or.inl hpending,?_,fun _ _ => Or.inl hpending⟩
  cases hi : w.calls i with
  | none => rw [LoopWorld.push_idle hi]; exact h.waiting
  | some k => rw [LoopWorld.push_busy hi]; exact h.waiting

theorem wakeup (h : Inv w) (i : ℕ) : Inv (w.wakeup mutexCond i) := by
  by_cases hi : w.calls i = none
  · rwa [LoopWorld.wakeup_idle hi]
  · rw [wakeup_eq hi]
    refine ⟨fun _ _ => Or.inr one_ne_zero,h.waiting,fun hpc _ => Or.inr ?_⟩
    change (w.signal.signaled || w.signal.waiting) = true
    rw [h.waiting hpc,Bool.or_true]

theorem thread (h : Inv w) : Inv (w.thread mutexCond) := by
  rw [LoopWorld.thread]
  cases hpc : w.pc with
  | top =>
    dsimp only
    split_ifs <;> exact elsewhere (by rintro ⟨⟩) (by rintro ⟨⟩)
  | handler =>
    dsimp only
    split_ifs <;> exact elsewhere (by rintro ⟨⟩) (by rintro ⟨⟩)
  | pop =>
    dsimp only
    split <;> exact elsewhere (by rintro ⟨⟩) (by rintro ⟨⟩)
  | left i => exact elsewhere (by rintro ⟨⟩) (by rintro ⟨⟩)
  | test =>
    dsimp only
    split_ifs with htotal
    · refine ⟨fun _ hpos => ?_,by rintro ⟨⟩,by rintro ⟨⟩⟩
      change 0 < w.total at hpos
      omega
    · exact elsewhere (by rintro ⟨⟩) (by rintro ⟨⟩)
  | wait p =>
    dsimp only
    split_ifs
    · exact h
    · cases p with
      | asleep => exact elsewhere (by rintro ⟨⟩) (by rintro ⟨⟩)
      | lock =>
        change Inv (w.resume (mutexWait .lock w.signal))
        rw [mutexWait]
        split_ifs with hnowait
        · refine ⟨by rintro ⟨⟩,fun _ => rfl,fun _ htotal => Or.inl ?_⟩
          exact (h.locked hpc htotal).resolve_right (not_not.2 hnowait)
        · exact elsewhere (by rintro ⟨⟩) (by rintro ⟨⟩)

theorem spurious (h : Inv w) : Inv (w.spurious mutexCond) := by
  rw [LoopWorld.spurious]
  cases hpc : w.pc with
  | wait p =>
    cases p with
    | lock =>
      change Inv (w.resume (some .lock,w.signal))
      rwa [LoopWorld.resume_same hpc]
    | asleep => exact elsewhere (by rintro ⟨⟩) (by rintro ⟨⟩)
  | _ => exact h

theorem step (h : Inv w) (a : LoopStep) : Inv (w.step mutexCond a) := by
  cases a with
  | push i m => exact h.push i m
  | wakeup i => exact h.wakeup i
  | thread => exact h.thread
  | spurious => exact h.spurious

/-- A call that ends leaves the thread awake. -/
theorem wakeup_awake (h : Inv w) {i : ℕ} (hi : w.calls i ≠ none) :
    ¬ (w.wakeup mutexCond i).Blocked mutexCond := by
  rw [blocked_iff,wakeup_eq hi]
  intro hblocked
  obtain ⟨hpc,hsignaled⟩ := hblocked
  change (w.signal.signaled || w.signal.waiting) = false at hsignaled
  rw [h.waiting hpc,Bool.or_true] at hsignaled
  cases hsignaled

end Inv
/-! ### Every message is handled -/

/-- The steps of the thread to its next pop, on a queue that is not empty. -/
def rank : LoopPc MutexWait → ℕ
  | .pop => 1
  | .handler => 2
  | .left _ => 2
  | .top => 3
  | .test => 4
  | .wait .asleep => 4
  | .wait .lock => 5

/-- What is left to the thread before it has popped more than `j` messages. -/
def distance (j : ℕ) (w : CondWorld) : ℕ := (j+1-w.box.popped.length)*8 + rank w.pc

variable {j : ℕ} {es : List Message}

theorem thread_distance (h : w.box.Entered es) (htotal : 0 < w.total)
    (hj : w.box.popped.length ≤ j) (hawake : ¬ w.Blocked mutexCond) :
    distance j (w.thread mutexCond) < distance j w := by
  rw [blocked_iff] at hawake
  rw [LoopWorld.thread]
  cases hpc : w.pc with
  | top => simp [distance,rank,htotal,hpc]
  | handler => simp [distance,rank,htotal,hpc]
  | pop =>
    dsimp only
    cases hret : (qmessagePop w.box.q).2 with
    | none =>
      have hzero : w.total = 0 := (h.pop_none hret).2
      omega
    | some i =>
      have hlen : w.box.pop.popped.length = w.box.popped.length + 1 := by
        rw [MessageWorld.pop_some hret,List.length_append]
        rfl
      simp only [distance,rank,hpc,hlen]
      omega
  | left i => simp [distance,rank,hpc,MessageWorld.giveBack_popped]
  | test =>
    have hnot : ¬ w.total < 1 := by omega
    simp [distance,rank,hpc,hnot]
  | wait p =>
    cases p with
    | lock =>
      change distance j (w.resume (mutexWait .lock w.signal)) < _
      rw [mutexWait]
      split_ifs <;> simp [distance,rank,LoopWorld.resume,hpc]
    | asleep =>
      have hsignaled : w.signal.signaled = true := by
        by_contra hnot
        exact hawake ⟨hpc,Bool.eq_false_iff.2 hnot⟩
      have hblocked : mutexCond.blocked .asleep w.signal = false := by
        simp [mutexCond,hsignaled]
      dsimp only
      rw [hblocked]
      simp [distance,rank,LoopWorld.resume,hpc,mutexCond,mutexWait]

theorem push_distance (i : ℕ) (m : Message) : distance j (w.push mutexCond i m) = distance j w := by
  cases hi : w.calls i with
  | none => rw [LoopWorld.push_idle hi]; rfl
  | some k => rw [LoopWorld.push_busy hi]

theorem wakeup_distance (i : ℕ) : distance j (w.wakeup mutexCond i) = distance j w := by
  by_cases hi : w.calls i = none
  · rw [LoopWorld.wakeup_idle hi]
  · rw [wakeup_eq hi]
    rfl

theorem spurious_distance : distance j (w.spurious mutexCond) ≤ distance j w := by
  rw [LoopWorld.spurious]
  cases hpc : w.pc with
  | wait p =>
    cases p with
    | lock =>
      change distance j (w.resume (some .lock,w.signal)) ≤ _
      rw [LoopWorld.resume_same hpc]
    | asleep => simp [distance,rank,LoopWorld.resume,hpc,mutexCond,mutexSpurious,mutexWait]
  | _ => exact le_rfl

theorem step_distance (h : w.box.Entered es) (htotal : 0 < w.total)
    (hj : w.box.popped.length ≤ j) (a : LoopStep) :
    distance j (w.step mutexCond a) ≤ distance j w := by
  cases a with
  | push i m => exact (push_distance i m).le
  | wakeup i => exact (wakeup_distance i).le
  | spurious => exact spurious_distance
  | thread =>
    by_cases hawake : w.Blocked mutexCond
    · have hsame : w.thread mutexCond = w := by
        obtain ⟨p,hpc,hblocked⟩ := hawake
        rw [LoopWorld.thread,hpc]
        exact if_pos hblocked
      exact (congrArg (distance j) hsame).le
    · exact (thread_distance h htotal hj hawake).le

/-- Nothing but the thread's own steps puts it to sleep. -/
theorem step_awake (hawake : ¬ w.Blocked mutexCond) {a : LoopStep} (ha : a ≠ .thread) :
    ¬ (w.step mutexCond a).Blocked mutexCond := by
  rw [blocked_iff] at hawake ⊢
  cases a with
  | push i m =>
    change ¬ ((w.push mutexCond i m).pc = _ ∧ (w.push mutexCond i m).signal.signaled = _)
    cases hi : w.calls i with
    | none => rwa [LoopWorld.push_idle hi]
    | some k => rwa [LoopWorld.push_busy hi]
  | wakeup i =>
    change ¬ ((w.wakeup mutexCond i).pc = _ ∧ (w.wakeup mutexCond i).signal.signaled = _)
    by_cases hi : w.calls i = none
    · rwa [LoopWorld.wakeup_idle hi]
    · rw [wakeup_eq hi]
      intro hblocked
      exact hawake ⟨hblocked.1,(Bool.or_eq_false_iff.1 hblocked.2).1⟩
  | thread => exact absurd rfl ha
  | spurious =>
    change ¬ ((w.spurious mutexCond).pc = _ ∧ (w.spurious mutexCond).signal.signaled = _)
    rw [LoopWorld.spurious]
    cases hpc : w.pc with
    | wait p =>
      cases p with
      | lock =>
        intro hblocked
        cases hblocked.1
      | asleep =>
        intro hblocked
        cases hblocked.1
    | _ => exact hawake

variable {ρ : Trace (LoopWorld.step mutexCond)}

/-- A blocked thread with a message in its queue wakes up. -/
theorem eventually_awake (hinv : ∀ n, Inv (ρ.state n)) (hfair : LoopWorld.Fair ρ) {n : ℕ}
    (htotal : 0 < (ρ.state n).total) : ∃ k ≥ n, ¬ (ρ.state k).Blocked mutexCond := by
  by_cases hblocked : (ρ.state n).Blocked mutexCond
  · obtain ⟨hpc,hsignaled⟩ := blocked_iff.1 hblocked
    have hpending : (ρ.state n).Pending := by
      apply ((hinv n).asleep hpc htotal).resolve_right
      rw [hsignaled]
      exact Bool.false_ne_true
    obtain ⟨i,hi⟩ := hpending
    -- the call goes on until it sends its signal, unless the thread wakes up before
    have hdone : ∀ k ≥ n, (ρ.state k).calls i ≠ none → ρ.label k = .wakeup i →
        ¬ (ρ.state (k+1)).Blocked mutexCond := by
      intro k _ hcall hlabel
      rw [ρ.next,hlabel]
      exact (hinv k).wakeup_awake hcall
    have hkeep : ∀ k ≥ n, (ρ.state k).calls i ≠ none → ¬ ¬ (ρ.state (k+1)).Blocked mutexCond →
        (ρ.state (k+1)).calls i ≠ none := by
      intro k hk hcall hasleep
      rw [ρ.next]
      apply LoopWorld.step_calls hcall
      exact fun hlabel => hasleep (hdone k hk hcall hlabel)
    obtain ⟨k,hk,hawake⟩ := (hfair.calls i).progress hi hkeep hdone
    exact ⟨k+1,hk.trans (Nat.le_succ k),hawake⟩
  · exact ⟨n,le_rfl,hblocked⟩

/-- The thread pops more than `j` messages when the queue holds a message until then. -/
theorem eventually_popped (hinv : ∀ n, Inv (ρ.state n))
    (hentered : ∀ n, (ρ.state n).box.Entered (ρ.state n).box.pushed) (hfair : LoopWorld.Fair ρ)
    {n j : ℕ} (hmore : ∀ k ≥ n, j < (ρ.state k).box.pushed.length) :
    ∃ k ≥ n, j < (ρ.state k).box.popped.length := by
  have htotal : ∀ k ≥ n, ¬ j < (ρ.state k).box.popped.length → 0 < (ρ.state k).total := by
    intro k hk hnot
    exact (hentered k).total_pos (lt_of_le_of_lt (not_lt.1 hnot) (hmore k hk))
  apply eventually_of_variant (fun k => distance j (ρ.state k))
  · intro k hk hnot
    rw [ρ.next]
    exact step_distance (hentered k) (htotal k hk hnot) (not_lt.1 hnot) _
  · intro k hk hnot
    obtain ⟨l,hl,hawake⟩ := eventually_awake hinv hfair (htotal k hk hnot)
    have htake : ∀ x ≥ l, ¬ (ρ.state x).Blocked mutexCond → ρ.label x = .thread →
        j < (ρ.state x).box.popped.length ∨ distance j (ρ.state (x+1)) < distance j (ρ.state x) := by
      intro x hx hawake hlabel
      by_cases hpopped : j < (ρ.state x).box.popped.length
      · exact Or.inl hpopped
      · rw [ρ.next,hlabel]
        have hpos := htotal x (hk.trans (hl.trans hx)) hpopped
        exact Or.inr (thread_distance (hentered x) hpos (not_lt.1 hpopped) hawake)
    obtain ⟨x,hx,hprogress⟩ := hfair.thread.progress hawake (fun x hx hawake hnot => by
      rw [ρ.next]
      apply step_awake hawake
      exact fun hlabel => hnot (htake x hx hawake hlabel)) htake
    exact ⟨x,hl.trans hx,hprogress⟩

/-- The loop over a condition variable loses no wakeup. In a fair run it handles every message in the
order of the pushes, as long as each push finds a node for its message. -/
theorem procthread_cond_wakeup (ls : List LoopStep) (w : LoopWorld Mutex MutexWait Unit)
    (ρ : Trace (LoopWorld.step mutexCond)) :
    (Run (ofFun (LoopWorld.step mutexCond)) (LoopWorld.init mutexCond) ls w →
      ¬ w.Stranded mutexCond) ∧
      (ρ.state 0 = LoopWorld.init mutexCond →
        LoopWorld.Fair ρ → (∀ n, (ρ.state n).Fits (ρ.label n)) → LoopWorld.Handled ρ) := by
  constructor
  · intro hrun
    have hinv := hrun.invariant Inv init_inv fun a l b ha hstep => by
      rw [hstep]
      exact ha.step l
    exact hinv.not_stranded
  · intro hstart hfair hfits
    have hinv : ∀ n, Inv (ρ.state n) := by
      intro n
      apply ρ.invariant Inv (n := 0) _ (fun k _ hk => hk.step _) n (Nat.zero_le n)
      rw [hstart]
      exact init_inv
    have hentered : ∀ n, (ρ.state n).box.Entered (ρ.state n).box.pushed := by
      intro n
      apply ρ.invariant (fun w => w.box.Entered w.box.pushed) (n := 0) _
        (fun k _ hk => LoopWorld.step_recorded hk (hfits k)) n (Nat.zero_le n)
      rw [hstart]
      exact MessageWorld.init_entered
    refine ⟨fun n => (hentered n).popped_begins,?_⟩
    intro n i m hlabel hidle
    have hpushed : ∀ k ≥ n+1,
        (ρ.state k).box.pushed[(ρ.state n).box.pushed.length]? = some m := by
      apply ρ.invariant (fun w => w.box.pushed[(ρ.state n).box.pushed.length]? = some m)
      · rw [ρ.next,hlabel]
        change (LoopWorld.push mutexCond (ρ.state n) i m).box.pushed[_]? = _
        rw [LoopWorld.push_pushed hidle]
        exact List.getElem?_concat_length ..
      · intro k _ hk
        obtain ⟨hlt,hget⟩ := List.getElem?_eq_some_iff.1 hk
        rw [← hget]
        exact List.prefix_iff_getElem?.1 (LoopWorld.step_prefix _) _ hlt
    obtain ⟨k,hk,hpopped⟩ := eventually_popped hinv hentered hfair
      (fun k hk => (List.getElem?_eq_some_iff.1 (hpushed k hk)).1)
    refine ⟨k,hk,?_⟩
    rw [← hpushed k hk,List.prefix_iff_getElem?.1 (hentered k).popped_begins _ hpopped]
    exact List.getElem?_eq_getElem hpopped

/-! ### Two runs -/

/-- One message, and then everyone's turns. -/
def oneMessage (m : Message) : Trace (LoopWorld.step mutexCond) :=
  .follow _ (LoopWorld.init mutexCond) fun n => if n < 1 then .push 0 m else LoopWorld.rounds n

theorem procthread_cond_one : LoopWorld.Handled (oneMessage ⟨5,1,7,-1,0,0,0⟩) := by
  apply (procthread_cond_wakeup [] (LoopWorld.init mutexCond) _).2 rfl
  · exact LoopWorld.fair_of_rounds (N := 1) fun n hn => if_neg (by omega)
  · intro n i m hlabel _
    by_cases hn : n < 1
    · obtain rfl : n = 0 := by omega
      have hlengths := MessageWorld.init_entered.lengths
      change MessageWorld.init.q.total + (0 : ℕ) < _
      change (0 : ℕ) + MessageWorld.init.q.total = (0 : ℕ) at hlengths
      have hmax : (0 : ℤ) < QMSG_MAX := by decide
      omega
    · exact absurd ((if_neg hn).symm.trans hlabel) (LoopWorld.rounds_ne_push n i m)

/-- One message more than there can be nodes, each pushed by a thread of its own. -/
def flood (m : Message) : Trace (LoopWorld.step mutexCond) :=
  .follow _ (LoopWorld.init mutexCond) fun n =>
    if n < QMSG_MAX+1 then .push n m else LoopWorld.rounds n

theorem flood_label {m : Message} {n : ℕ} (hn : n < QMSG_MAX+1) :
    (flood m).label n = .push n m := if_pos hn

theorem flood_next {m : Message} {n : ℕ} (hn : n < QMSG_MAX+1) :
    (flood m).state (n+1) = LoopWorld.push mutexCond ((flood m).state n) n m := by
  rw [(flood m).next,flood_label hn]
  rfl

theorem flood_state (m : Message) {n : ℕ} (hn : n ≤ QMSG_MAX) : ∃ es,
    ((flood m).state n).box.Entered es ∧ es.length = n ∧
      ((flood m).state n).box.pushed.length = n ∧ ((flood m).state n).box.popped = [] ∧
      ((flood m).state n).box.out = [] ∧ ∀ i ≥ n, ((flood m).state n).calls i = none := by
  induction n with
  | zero => exact ⟨[],MessageWorld.init_entered,rfl,rfl,rfl,rfl,fun _ _ => rfl⟩
  | succ n ih =>
    obtain ⟨es,hentered,hlen,hpushed,hpopped,hout,hidle⟩ := ih (by omega)
    rw [flood_next (by omega),LoopWorld.push_idle (hidle n le_rfl)]
    have hlengths := hentered.lengths
    rw [hpopped,List.length_nil] at hlengths
    have hentered' := hentered.push (by rw [hout,List.length_nil]; omega) m
    refine ⟨_,hentered',by simp [hlen],?_,hpopped,hout,?_⟩
    · change (((flood m).state n).box.pushed ++ [m]).length = n+1
      rw [List.length_append,hpushed]
      rfl
    · intro i hi
      have hne : i ≠ n := by omega
      exact (Function.update_of_ne hne _ _).trans (hidle i (by omega))

theorem procthread_cond_dropped : LoopWorld.Fair (flood ⟨5,1,7,-1,0,0,0⟩) ∧
    ¬ LoopWorld.Handled (flood ⟨5,1,7,-1,0,0,0⟩) := by
  generalize (⟨5,1,7,-1,0,0,0⟩ : Message) = m
  refine ⟨LoopWorld.fair_of_rounds (N := QMSG_MAX+1) fun n hn => if_neg (by omega),fun h => ?_⟩
  obtain ⟨es,hentered,hlen,hpushed,hpopped,hout,hidle⟩ := flood_state m le_rfl
  have hlengths := hentered.lengths
  rw [hpopped,List.length_nil] at hlengths
  -- the last push leaves the queue as it is, and no other follows
  have hfull := hentered.push_full (by rw [hout,List.length_nil]; omega) m
  have hlater : ∀ k ≥ QMSG_MAX+1, ((flood m).state k).box.Entered es := by
    apply (flood m).invariant (fun w => w.box.Entered es)
    · rw [flood_next (by omega),LoopWorld.push_idle (hidle QMSG_MAX le_rfl)]
      exact hfull
    · intro k hk hentered
      apply LoopWorld.step_entered hentered
      intro i m' hlabel
      have hrounds : (flood m).label k = LoopWorld.rounds k := if_neg (by omega)
      exact absurd (hrounds.symm.trans hlabel) (LoopWorld.rounds_ne_push k i m')
  obtain ⟨k,hk,hget⟩ := h.all QMSG_MAX QMSG_MAX m (flood_label (by omega)) (hidle QMSG_MAX le_rfl)
  have hlt := (List.getElem?_eq_some_iff.1 hget).1
  have hle := (hlater k hk).popped_begins.length_le
  omega

end CondWorld
end Sbase
