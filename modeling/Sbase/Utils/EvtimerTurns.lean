import Sbase.Utils.EvtimerInvariant

/-! The turns of `evtimer_check`. Its handlers run after the lock is released and may delete, update
and add timers, those of the expired ids whose turn is still to come included. -/
namespace Sbase
open LinkedList EvTimer

/-- What a call did to the timer of an id. -/
inductive TimerEvent
  | added (id : ℕ)
  | rearmed (id : ℕ)
  | deleted (id : ℕ)
  deriving DecidableEq

def TimerEvent.id : TimerEvent → ℕ
  | .added i => i
  | .rearmed i => i
  | .deleted i => i

section
variable {ρ H A : Type*}

/-- The event of a call that succeeds. The answer of `evtimer_delete` does not tell, so its own
test of the id does. -/
def TimerCall.event (t : EvTimer H A) : TimerCall H A → Option TimerEvent
  | .add now timeout handler arg =>
    let r := evtimerAdd t now timeout handler arg
    if 0 ≤ r.2 then some (.added r.2.toNat) else none
  | .update evid now timeout handler arg =>
    if (evtimerUpdate t evid now timeout handler arg).2 = 0 then some (.rearmed evid.toNat) else none
  | .delete evid =>
    if (0 < evid ∧ evid < EVTNODE_MAX) ∧ (t.nodes evid.toNat).ison then some (.deleted evid.toNat)
    else none

/-- The program while a check calls handlers: the timer, everything else that the handlers read
and write, and the events since the ids were taken off the list. -/
structure CheckState (ρ H A : Type*) where
  core : Stamped H A
  env : ρ
  events : List TimerEvent

def CheckState.timer (s : CheckState ρ H A) : EvTimer H A := s.core.timer

def CheckState.run (s : CheckState ρ H A) (c : TimerCall H A) : CheckState ρ H A :=
  ⟨c.run s.core,s.env,s.events ++ (c.event s.timer).toList⟩

/-- What the handlers of a program do: from all that they can read, the new rest of the program and
the calls they make. -/
abbrev Behaviour (ρ H A : Type*) := ρ → EvTimer H A → H → Option A → ρ × List (TimerCall H A)

def CheckState.answer (behave : Behaviour ρ H A) (handler : H) (arg : Option A)
    (s : CheckState ρ H A) : CheckState ρ H A :=
  (behave s.env s.timer handler arg).2.foldl CheckState.run
    { s with env := (behave s.env s.timer handler arg).1 }

/-- The program when a check at the time `now` has released the lock. -/
def checkStart (s : Stamped H A) (env : ρ) (now : ℤ) : CheckState ρ H A :=
  ⟨{ s with timer := evtimerCheckLocked s.timer now },env,[]⟩

/-- The ids that a check at the time `now` finds expired; it leaves at once when no timer is
active. -/
def expiredIds (t : EvTimer H A) (now : ℤ) : List ℕ :=
  match t.head with
  | none => []
  | some _ => (evtimerCheckLocked t now).timeouts

/-- The program is in the state `w` when the turn of the expired id `id` comes. -/
def Turn (behave : Behaviour ρ H A) (s : Stamped H A) (env : ρ) (now : ℤ) (id : ℕ)
    (w : CheckState ρ H A) : Prop :=
  ∃ pre post, expiredIds s.timer now = pre ++ id::post ∧
    w = evtimerDispatch CheckState.timer (CheckState.answer behave) pre (checkStart s env now)

/-- The turn goes to the handler that the timer was registered with, and only if nothing happened to
the timer since it expired. -/
def DueTurn (s : Stamped H A) (id : ℕ) (w : CheckState ρ H A) : Prop :=
  evtimerFires w.timer id =
    if ∀ e ∈ w.events, e.id ≠ id then (s.timer.nodes id).handler else none

/-- The node `id` is the only active one and has a handler. -/
def AloneActive (t : EvTimer H A) (id : ℕ) : Prop :=
  t.head = some id ∧ t.tail = some id ∧ (t.nodes id).handler.isSome

/-- A check is the turns of the expired ids, one after the other. -/
theorem evtimerCheck_turns (behave : Behaviour ρ H A) (s : Stamped H A) (env : ρ) (now : ℤ) :
    evtimerCheck CheckState.timer (fun t w => { w with core := { w.core with timer := t } })
        (CheckState.answer behave) now ⟨s,env,[]⟩ =
      evtimerDispatch CheckState.timer (CheckState.answer behave) (expiredIds s.timer now)
        (checkStart s env now) := by
  cases hhead : s.timer.head with
  | none =>
    have hlocked : evtimerCheckLocked s.timer now = s.timer := by simp [evtimerCheckLocked,hhead]
    simp [evtimerCheck,expiredIds,checkStart,CheckState.timer,hhead,hlocked,evtimerDispatch]
  | some i => simp [evtimerCheck,expiredIds,checkStart,CheckState.timer,hhead]

/-! ### One expired timer through the turns of a check -/

/-- The timer `id`, that had the content `n` when it expired, is fired and unchanged as long as no
event touches it, and afterwards active again or free. -/
inductive Followed (n : EvtNode H A) (id : ℕ) (t : EvTimer H A) (active : List ℕ)
    (events : List TimerEvent) : Prop
  | untouched (quiet : ∀ e ∈ events, e.id ≠ id) (on : t.ison id = true) (off : id ∉ active)
      (same : t.content id = n)
  | touched (event : ∃ e ∈ events, e.id = id) (place : id ∈ active ∨ t.ison id = false)

def CheckState.Watched (n : EvtNode H A) (id : ℕ) (w : CheckState ρ H A) : Prop :=
  ∃ active free, Timed w.timer w.core.stamp w.core.clock active free none ∧
    Followed n id w.timer active w.events

variable {n : EvtNode H A} {id i : ℕ} {t t' : EvTimer H A} {active active' : List ℕ}
  {events : List TimerEvent}

/-- An event of another timer. -/
theorem Followed.other (h : Followed n id t active events) (e : TimerEvent) (he : e.id ≠ id)
    (hactive : id ∈ active' ↔ id ∈ active) (hsame : t'.content id = t.content id) :
    Followed n id t' active' (events ++ [e]) := by
  have hon := ison_eq_of_content hsame
  cases h with
  | untouched quiet on off same =>
    refine .untouched ?_ (hon.trans on) (hactive.not.mpr off) (hsame.trans same)
    intro e' he'
    rcases List.mem_append.mp he' with he' | he'
    · exact quiet e' he'
    · exact List.mem_singleton.mp he' ▸ he
  | touched event place =>
    obtain ⟨e', he', hid⟩ := event
    refine .touched ⟨e',List.mem_append_left _ he',hid⟩ ?_
    rw [hactive,hon]
    exact place

/-- An event of the timer itself. -/
theorem Followed.self (e : TimerEvent) (he : e.id = id)
    (hplace : id ∈ active' ∨ t'.ison id = false) : Followed n id t' active' (events ++ [e]) :=
  .touched ⟨e,by simp,he⟩ hplace

theorem CheckState.Watched.run {w : CheckState ρ H A} (h : w.Watched n id) (c : TimerCall H A) :
    (w.run c).Watched n id := by
  obtain ⟨active,free,ht,hf⟩ := h
  cases c with
  | add now timeout handler arg =>
    rcases ht.add now timeout handler arg with
      ⟨heq,-⟩ | ⟨i,as,bs,rest,rfl,rfl,hret,hadd,hcontent,hsame⟩
    · refine ⟨active,free,?_⟩
      unfold CheckState.timer at *
      simpa [CheckState.run,CheckState.timer,TimerCall.run,TimerCall.event,heq] using ⟨ht,hf⟩
    · refine ⟨as ++ i::bs,rest,?_⟩
      have hrun : w.run (.add now timeout handler arg) =
          ⟨w.core.note (evtimerAdd w.timer now timeout handler arg).1 i,w.env,
            w.events ++ [.added i]⟩ := by
        unfold CheckState.timer at *
        simp [CheckState.run,CheckState.timer,TimerCall.run,TimerCall.event,hret]
      rw [hrun]
      refine ⟨hadd,?_⟩
      by_cases hid : i = id
      · exact .self _ hid (Or.inl (by simp [hid]))
      · refine hf.other _ hid ?_ (hsame id (Ne.symm hid))
        simp [Ne.symm hid]
  | update evid now timeout handler arg =>
    rcases ht.update evid now timeout handler arg with
      ⟨heq,-⟩ | ⟨i,as,bs,rfl,-,-,hsplit,hret,hupdate,-,hsame⟩
    · refine ⟨active,free,?_⟩
      unfold CheckState.timer at *
      simpa [CheckState.run,CheckState.timer,TimerCall.run,TimerCall.event,heq] using ⟨ht,hf⟩
    · refine ⟨as ++ i::bs,free,?_⟩
      have hrun : w.run (.update i now timeout handler arg) =
          ⟨w.core.note (evtimerUpdate w.timer i now timeout handler arg).1 i,w.env,
            w.events ++ [.rearmed i]⟩ := by
        unfold CheckState.timer at *
        simp [CheckState.run,CheckState.timer,TimerCall.run,TimerCall.event,hret]
      rw [hrun]
      refine ⟨hupdate,?_⟩
      by_cases hid : i = id
      · exact .self _ hid (Or.inl (by simp [hid]))
      · refine hf.other _ hid ?_ (hsame id (Ne.symm hid))
        have hmem : id ∈ active.erase i ↔ id ∈ active := List.mem_erase_of_ne (Ne.symm hid)
        rw [← hmem,hsplit]
        simp [Ne.symm hid]
  | delete evid =>
    by_cases hok : (0 < evid ∧ evid < EVTNODE_MAX) ∧ (w.timer.nodes evid.toNat).ison = true
    · rcases ht.delete evid with ⟨-,hoff⟩ | ⟨i,rfl,-,-,hdelete,hsame⟩
      · obtain ⟨i,rfl⟩ := Int.eq_ofNat_of_zero_le hok.1.1.le
        have hr : InRange i := ⟨by omega,by omega⟩
        have := hoff i rfl hr
        simp_all [ison]
      · refine ⟨active.erase i,i::free,?_⟩
        have hrun : w.run (.delete i) =
            ⟨{ w.core with timer := (evtimerDelete w.timer i).1 },w.env,
              w.events ++ [.deleted i]⟩ := by
          have hevent : TimerCall.event w.core.timer (.delete i) = some (.deleted i) := if_pos hok
          simp [CheckState.run,TimerCall.run,hevent,CheckState.timer]
        rw [hrun]
        refine ⟨hdelete,?_⟩
        by_cases hid : i = id
        · exact .self _ hid (Or.inr (hid ▸ (hdelete.free_off i (by simp)).2))
        · refine hf.other _ hid ?_ (hsame id (Ne.symm hid))
          exact List.mem_erase_of_ne (Ne.symm hid)
    · refine ⟨active,free,?_⟩
      have heq : (evtimerDelete w.timer evid).1 = w.timer := by
        rcases ht.delete evid with ⟨heq,-⟩ | ⟨i,rfl,hr,hon,-⟩
        · exact heq
        · exact absurd ⟨⟨by exact_mod_cast hr.1,by exact_mod_cast hr.2⟩,hon⟩ hok
      unfold CheckState.timer at *
      simpa [CheckState.run,CheckState.timer,TimerCall.run,TimerCall.event,heq,hok] using ⟨ht,hf⟩

theorem CheckState.Watched.dispatch {w : CheckState ρ H A} (h : w.Watched n id)
    (behave : Behaviour ρ H A) (ids : List ℕ) :
    (evtimerDispatch CheckState.timer (CheckState.answer behave) ids w).Watched n id := by
  refine evtimerDispatch_induction (P := CheckState.Watched n id) ?_ ids h
  intro handler arg s hs
  apply List.foldlRecOn
  · exact hs
  · exact fun s hs c _ => hs.run c

section
variable {stamp : ℕ → ℕ} {clock : ℕ} {free : List ℕ}

theorem Timed.expiredIds_eq (h : Timed t stamp clock active free none) (now : ℤ) :
    expiredIds t now = active.filter fun i => t.evusec i < now := by
  unfold expiredIds
  cases hhead : t.head with
  | none =>
    have hnil := h.list.head_eq
    rw [hhead,eq_comm,List.head?_eq_none_iff] at hnil
    simp [hnil]
  | some i => exact (h.check now).2.1 (by simp [hhead])

/-- A node of the active list has no neighbours exactly when it is the whole list. -/
theorem Timed.alone_iff (h : Timed t stamp clock active free none) (hid : id ∈ active) :
    (t.next id = none ∧ t.prev id = none) ↔ t.head = some id ∧ t.tail = some id := by
  obtain ⟨as,bs,rfl⟩ := List.append_of_mem hid
  obtain ⟨hprev,hnext⟩ := h.list.links_of_mem
  rw [h.list.head_eq,h.list.tail_eq,hprev,hnext]
  have hnd := h.list.nodup
  constructor
  · rintro ⟨hb,ha⟩
    obtain rfl := List.head?_eq_none_iff.mp hb
    obtain rfl := List.getLast?_eq_none_iff.mp ha
    simp
  · rintro ⟨hfirst,hlast⟩
    constructor
    · rcases List.eq_nil_or_concat bs with rfl | ⟨cs,c,rfl⟩
      · rfl
      · have hc : c = id := by simpa [List.getLast?_cons] using hlast
        simp [hc,List.nodup_append] at hnd
    · cases as with
      | nil => rfl
      | cons a as =>
        have ha : a = id := by simpa using hfirst
        simp [ha] at hnd

/-- The test of `evtimer_check` takes an allocated timer for an expired one when it is not active,
and also when it is the only active one. -/
theorem Timed.fires_eq (h : Timed t stamp clock active free none) (hr : InRange id) :
    evtimerFires t id =
      if t.ison id ∧ (id ∈ active → t.head = some id ∧ t.tail = some id)
      then (t.nodes id).handler else none := by
  have hne : id ≠ 0 := hr.1.ne'
  have hlinks : t.ison id = true → ((t.next id = none ∧ t.prev id = none) ↔
      (id ∈ active → t.head = some id ∧ t.tail = some id)) := by
    intro hon
    by_cases ha : id ∈ active
    · simp [ha,h.alone_iff ha]
    · simp [ha,h.fired id hr hon ha (by simp)]
  unfold next prev ison at hlinks
  cases hon : (t.nodes id).ison with
  | false => simp [evtimerFires,ison,hon]
  | true => simp [evtimerFires,ison,hon,hne,← hlinks hon]

end

/-- What the turn of an expired id finds. -/
theorem Turn.watched {behave : Behaviour ρ H A} {s : Stamped H A} {env : ρ} {now : ℤ}
    {w : CheckState ρ H A} (hs : s.Good) (h : Turn behave s env now id w) :
    InRange id ∧ w.Watched (s.timer.content id) id := by
  obtain ⟨active,free,ht⟩ := hs
  obtain ⟨pre,post,hids,rfl⟩ := h
  obtain ⟨hcheck,-,hsame⟩ := ht.check now
  have hmem : id ∈ active.filter fun i => s.timer.evusec i < now := by
    rw [← ht.expiredIds_eq now,hids]
    simp
  obtain ⟨ha,hlt⟩ := List.mem_filter.mp hmem
  obtain ⟨hr,hon⟩ := ht.active_on id ha
  have hstart : (checkStart s env now).Watched (s.timer.content id) id := by
    refine ⟨_,free,hcheck,?_⟩
    refine .untouched (by simp [checkStart]) ?_ ?_ (hsame id)
    · exact (ison_eq_of_content (hsame id)).trans hon
    · simpa using fun _ : id ∈ active => hlt
  exact ⟨hr,hstart.dispatch behave pre⟩

/-- At one turn: the handler is called as it should be unless the timer, whatever happened to it,
is now the only active one. -/
theorem Turn.due_iff {behave : Behaviour ρ H A} {s : Stamped H A} {env : ρ} {now : ℤ}
    {w : CheckState ρ H A} (hs : s.Good) (h : Turn behave s env now id w) :
    DueTurn s id w ↔ ¬ AloneActive w.timer id := by
  obtain ⟨hr,active,free,ht,hf⟩ := h.watched hs
  unfold DueTurn AloneActive
  have hhead : w.timer.head = some id → id ∈ active := by
    intro he
    rw [ht.list.head_eq] at he
    exact List.mem_of_mem_head? he
  rw [ht.fires_eq hr]
  cases hf with
  | untouched quiet on off same =>
    have hhandler : (w.timer.nodes id).handler = (s.timer.nodes id).handler := by
      have := congrArg EvtNode.handler same
      exact this
    rw [if_pos quiet,if_pos ⟨on,fun ha => absurd ha off⟩,hhandler]
    exact ⟨fun _ hal => off (hhead hal.1),fun _ => rfl⟩
  | touched event place =>
    have hquiet : ¬ ∀ e ∈ w.events, e.id ≠ id := by
      obtain ⟨e,he,hid⟩ := event
      exact fun hq => hq e he hid
    rw [if_neg hquiet]
    by_cases ha : id ∈ active
    · have hon := (ht.active_on id ha).2
      cases hh : (w.timer.nodes id).handler <;> simp [hon,ha]
    · have hoff := place.resolve_left ha
      have hnot : w.timer.head ≠ some id := fun he => ha (hhead he)
      simp [hoff,hnot]

/-- Every turn of a check goes right exactly when no turn comes while its timer, deleted or re-armed
since, is the only active one. -/
theorem evtimer_turns_iff (behave : Behaviour ρ H A) (ops : List (TimerOp H A)) (env : ρ) (now : ℤ) :
    (∀ id w, Turn behave (evtimerRun ops) env now id w → DueTurn (evtimerRun ops) id w) ↔
      ∀ id w, Turn behave (evtimerRun ops) env now id w → ¬ AloneActive w.timer id := by
  have hs := evtimerRun_good ops
  constructor
  · intro h id w hw
    exact (hw.due_iff hs).mp (h id w hw)
  · intro h id w hw
    exact (hw.due_iff hs).mpr (h id w hw)

/-- An addition with a handler and a positive timeout takes the first free id. -/
theorem TimerCall.run_add {s : Stamped H A} {rest : List ℕ}
    (h : Timed s.timer s.stamp s.clock active (i::rest) none) (now : ℤ) {timeout : ℤ} (f : H)
    (hpos : 0 < timeout) (arg : Option A) :
    ∃ as bs, active = as ++ bs ∧
      Timed (TimerCall.run s (.add now timeout (some f) arg)).timer
        (TimerCall.run s (.add now timeout (some f) arg)).stamp
        (TimerCall.run s (.add now timeout (some f) arg)).clock (as ++ i::bs) rest none ∧
      (TimerCall.run s (.add now timeout (some f) arg)).timer.content i =
        armed i (now+timeout) (some f) arg ∧
      ∀ j, j ≠ i → (TimerCall.run s (.add now timeout (some f) arg)).timer.content j =
        s.timer.content j := by
  rcases h.add now timeout (some f) arg with
    ⟨-,hnone | hle | hnil⟩ | ⟨j,as,bs,rest',hsplit,hfree,hret,hadd,hcontent,hsame⟩
  · cases hnone
  · omega
  · cases hnil
  · obtain ⟨rfl,rfl⟩ := List.cons.inj hfree
    have hrun : TimerCall.run s (.add now timeout (some f) arg) =
        s.note (evtimerAdd s.timer now timeout (some f) arg).1 i := by
      simp [TimerCall.run,hret]
    rw [hrun]
    exact ⟨as,bs,hsplit,hadd,hcontent,hsame⟩

theorem evtimerRun_calls (cs : List (TimerCall H A)) :
    evtimerRun (cs.map .call) = cs.foldl TimerCall.run ⟨evtimerInit,fun _ => 0,0⟩ :=
  List.foldl_map

/-- Two timers with the same handler, which postpones the second of them. -/
def twoTimers : List (TimerOp ℕ Unit) :=
  [.add 0 1 (some 7) none,.add 0 2 (some 7) none].map .call

def postponeSecond : Behaviour Unit ℕ Unit :=
  fun _ _ _ _ => ((),[.update 65534 10 100 (some 7) none])

theorem twoTimers_timed : ∃ stamp clock free,
    Timed (evtimerRun twoTimers).timer stamp clock [65535,65534] free none ∧
      (evtimerRun twoTimers).timer.content 65535 = armed 65535 1 (some 7) none ∧
      (evtimerRun twoTimers).timer.content 65534 = armed 65534 2 (some 7) none := by
  obtain ⟨s₀,hs₀⟩ : ∃ s₀ : Stamped ℕ Unit, s₀ = ⟨evtimerInit,fun _ => 0,0⟩ := ⟨_,rfl⟩
  have hinit : Timed s₀.timer s₀.stamp s₀.clock [] (65535::65534::(List.range' 1 65533).reverse)
      none := by
    have hfree : (List.range' 1 (EVTNODE_MAX - 1)).reverse =
        65535::65534::(List.range' 1 65533).reverse := by
      have hmax : EVTNODE_MAX - 1 = 65533 + 1 + 1 := rfl
      rw [hmax,List.range'_1_concat,List.range'_1_concat]
      simp
    rw [hs₀,← hfree]
    exact evtimerInit_timed _ _
  obtain ⟨s₁,hs₁⟩ : ∃ s₁, s₁ = TimerCall.run s₀ (.add 0 1 (some 7) none) := ⟨_,rfl⟩
  obtain ⟨s₂,hs₂⟩ : ∃ s₂, s₂ = TimerCall.run s₁ (.add 0 2 (some 7) none) := ⟨_,rfl⟩
  have hrun : evtimerRun twoTimers = s₂ := by
    rw [twoTimers,evtimerRun_calls,List.foldl_cons,List.foldl_cons,List.foldl_nil,← hs₀,← hs₁,← hs₂]
  obtain ⟨as,bs,hab,h₁,hc₁,-⟩ := TimerCall.run_add hinit 0 7 (by norm_num : (0:ℤ) < 1) none
  obtain ⟨rfl,rfl⟩ := List.append_eq_nil_iff.mp hab.symm
  rw [← hs₁] at h₁ hc₁
  obtain ⟨cs,ds,hcd,h₂,hc₂,hsame⟩ := TimerCall.run_add h₁ 0 7 (by norm_num : (0:ℤ) < 2) none
  rw [← hs₂] at h₂ hc₂ hsame
  have hc₁' := (hsame 65535 (by norm_num)).trans hc₁
  have h1 : s₂.timer.evusec 65535 = 1 := congrArg EvtNode.evusec hc₁'
  have h2 : s₂.timer.evusec 65534 = 2 := congrArg EvtNode.evusec hc₂
  rw [hrun]
  have hlist : cs ++ 65534::ds = [65535,65534] := by
    have hsorted := h₂.weakly_sorted
    rcases List.append_eq_singleton_iff.mp hcd.symm with ⟨rfl,rfl⟩ | ⟨rfl,rfl⟩
    · simp [h1,h2] at hsorted
    · rfl
  rw [hlist] at h₂
  exact ⟨_,_,_,h₂,hc₁',hc₂⟩

/-- The handler of the first timer re-arms the second for 100 later, and the check calls it all the
same. -/
theorem evtimer_rearmed_fires :
    ∃ w, Turn postponeSecond (evtimerRun twoTimers) () 10 65534 w ∧
      TimerEvent.rearmed 65534 ∈ w.events ∧ ¬ DueTurn (evtimerRun twoTimers) 65534 w := by
  obtain ⟨stamp,clock,free,h,hc1,hc2⟩ := twoTimers_timed
  obtain ⟨s,hs⟩ : ∃ s, s = evtimerRun twoTimers := ⟨_,rfl⟩
  rw [← hs] at h hc1 hc2 ⊢
  have h1 : s.timer.evusec 65535 = 1 := congrArg EvtNode.evusec hc1
  have h2 : s.timer.evusec 65534 = 2 := congrArg EvtNode.evusec hc2
  obtain ⟨hcheck,-,hsame⟩ := h.check 10
  have hids : expiredIds s.timer 10 = [65535] ++ 65534::[] := by
    simp [h.expiredIds_eq,h1,h2]
  have hturn : Turn postponeSecond s () 10 65534 _ := ⟨_,_,hids,rfl⟩
  have hgood : s.Good := hs ▸ evtimerRun_good twoTimers
  -- the first turn is due: its handler runs, on a timer without active nodes
  obtain ⟨t,ht⟩ : ∃ t, t = evtimerCheckLocked s.timer 10 := ⟨_,rfl⟩
  rw [← ht] at hcheck hsame
  have hactive : [65535,65534].filter (fun i => 10 ≤ s.timer.evusec i) = [] := by simp [h1,h2]
  rw [hactive] at hcheck
  have hc := (hsame 65535).trans hc1
  have hon : t.ison 65535 = true := congrArg EvtNode.ison hc
  have hh : (t.nodes 65535).handler = some 7 := congrArg EvtNode.handler hc
  obtain ⟨hn,hp⟩ := hcheck.fired 65535 (by decide) hon (by simp) (by simp)
  have hfires : evtimerFires t 65535 = some 7 := by
    simp only [next,prev,ison] at hn hp hon
    simp [evtimerFires,hn,hp,hon,hh]
  rcases hcheck.update 65534 10 100 (some 7) none with
    ⟨-,hoff⟩ | ⟨i,as,bs,hi,-,-,hsplit,hret,hupdate,hcontent,-⟩
  · have hon' : t.ison 65534 = true := congrArg EvtNode.ison ((hsame 65534).trans hc2)
    rw [hoff 65534 rfl (by decide)] at hon'
    cases hon'
  obtain rfl : i = 65534 := by exact_mod_cast hi.symm
  obtain ⟨rfl,rfl⟩ := List.append_eq_nil_iff.mp hsplit.symm
  have hw : evtimerDispatch CheckState.timer (CheckState.answer postponeSecond) [65535]
      (checkStart s () 10) = ⟨s.note (evtimerUpdate t 65534 10 100 (some 7) none).1 65534,(),
        [.rearmed 65534]⟩ := by
    simp [evtimerDispatch,checkStart,CheckState.timer,← ht,hfires,CheckState.answer,postponeSecond,
      CheckState.run,TimerCall.run,TimerCall.event,hret,Stamped.note]
  refine ⟨_,hturn,?_⟩
  rw [hturn.due_iff hgood,not_not,hw]
  have hkept : ((evtimerUpdate t 65534 10 100 (some 7) none).1.nodes 65534).handler = some 7 :=
    congrArg EvtNode.handler hcontent
  refine ⟨by simp,hupdate.list.head_eq,hupdate.list.tail_eq,?_⟩
  simp [CheckState.timer,Stamped.note,hkept]

end

end Sbase
