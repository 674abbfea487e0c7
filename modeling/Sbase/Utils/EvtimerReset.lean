import Sbase.Utils.EvtimerTurns

/-! `evtimer_reset`, and what its caller sees of a timer afterwards.

Ids are names: two timers behave alike when their answers and the handlers they call agree under a
renaming of the ids. -/
namespace Sbase
open LinkedList EvTimer

section
variable {H A : Type*}

/-- The loop of `evtimer_reset` from the node `i` on, for at most `fuel` rounds. -/
def evtimerResetLoop : ℕ → EvTimer H A → ℕ → EvTimer H A
  | 0, t, _ => t
  | fuel+1, t, i =>
    let n := t.nodes i
    let t := { t.modify i fun _ => { EvtNode.zero with id := n.id, next := t.left } with
      left := some i }
    match n.next with
    | some j => evtimerResetLoop fuel t j
    | none => t

/-- `evtimer_reset` -/
def evtimerReset (t : EvTimer H A) : EvTimer H A :=
  match t.head with
  | some i => evtimerResetLoop EVTNODE_MAX t i
  | none => t

/-- A timer and the expired ids whose turn is still to come. -/
structure TimerState (H A : Type*) where
  timer : EvTimer H A
  pending : List ℕ

/-- What happens to a timer, one lock at a time: a call, the locked half of a check, the turn of
the next expired id. Between the turns of a check come the calls of its handlers. -/
inductive TimerAct (H A : Type*)
  | call (c : TimerCall H A)
  | check (now : ℤ)
  | turn

/-- What the caller sees: the id given by `evtimer_add`, the answers of the other calls, the handlers
called. -/
inductive TimerOut (H A : Type*)
  | given (evid : ℤ)
  | answer (ret : ℤ)
  | called (handler : H) (arg : Option A)
  | nothing

def TimerCall.apply (t : EvTimer H A) : TimerCall H A → EvTimer H A × TimerOut H A
  | .add now timeout handler arg =>
    let r := evtimerAdd t now timeout handler arg
    (r.1,.given r.2)
  | .update evid now timeout handler arg =>
    let r := evtimerUpdate t evid now timeout handler arg
    (r.1,.answer r.2)
  | .delete evid =>
    let r := evtimerDelete t evid
    (r.1,.answer r.2)

/-- A check begins when the turns of the last one are over. -/
def TimerAct.step (s : TimerState H A) : TimerAct H A → TimerState H A × TimerOut H A
  | .call c => (⟨(c.apply s.timer).1,s.pending⟩,(c.apply s.timer).2)
  | .check now =>
    if s.pending = [] then (⟨evtimerCheckLocked s.timer now,expiredIds s.timer now⟩,.nothing)
    else (s,.nothing)
  | .turn =>
    match s.pending with
    | [] => (s,.nothing)
    | id::ids =>
      match evtimerFires s.timer id with
      | some handler => (⟨s.timer,ids⟩,.called handler (s.timer.nodes id).arg)
      | none => (⟨s.timer,ids⟩,.nothing)

/-- All that the caller sees of a sequence of acts. -/
def outputs (s : TimerState H A) : List (TimerAct H A) → List (TimerOut H A)
  | [] => []
  | a::as => (a.step s).2 :: outputs (a.step s).1 as

/-! ### Names of timers -/

/-- A renaming of the ids of a timer. -/
structure Renaming where
  perm : Equiv.Perm ℕ
  range : ∀ i, InRange (perm i) ↔ InRange i

/-- The new name of an `evid`; what is not an id stays as it is. -/
def Renaming.evid (π : Renaming) (e : ℤ) : ℤ := if 0 ≤ e then (π.perm e.toNat : ℤ) else e

def TimerCall.rename (π : Renaming) : TimerCall H A → TimerCall H A
  | .add now timeout handler arg => .add now timeout handler arg
  | .update evid now timeout handler arg => .update (π.evid evid) now timeout handler arg
  | .delete evid => .delete (π.evid evid)

def TimerAct.rename (π : Renaming) : TimerAct H A → TimerAct H A
  | .call c => .call (c.rename π)
  | .check now => .check now
  | .turn => .turn

def TimerOut.rename (π : Renaming) : TimerOut H A → TimerOut H A
  | .given evid => .given (π.evid evid)
  | out => out

/-- Nobody can tell the timer from one that `evtimer_init` has just made. -/
def LikeNew (t : EvTimer H A) : Prop :=
  ∃ π : Renaming, ∀ acts : List (TimerAct H A),
    outputs ⟨evtimerInit,[]⟩ (acts.map (TimerAct.rename π)) =
      (outputs ⟨t,[]⟩ acts).map (TimerOut.rename π)

/-- The call registers this handler with this argument. -/
def TimerCall.registers (handler : H) (arg : Option A) : TimerCall H A → Prop
  | .add _ _ handler' arg' => handler' = some handler ∧ arg' = arg
  | .update _ _ _ handler' arg' => handler' = some handler ∧ arg' = arg
  | .delete _ => False

/-- What is expected of a timer after `evtimer_reset`. -/
structure Emptied (t : EvTimer H A) : Prop where
  head : t.head = none
  tail : t.tail = none
  forgets : ∀ acts handler arg, .called handler arg ∈ outputs ⟨t,[]⟩ acts →
    ∃ c, .call c ∈ acts ∧ c.registers handler arg
  free : ∃ free, Chain t.next t.left free ∧ free.Nodup ∧ ∀ i, i ∈ free ↔ InRange i
  likeNew : LikeNew t

/-! ### Two timers that differ in the names of their ids -/

theorem Renaming.evid_natCast (π : Renaming) (i : ℕ) : π.evid i = π.perm i := by
  simp [Renaming.evid]

theorem Renaming.eq_of_evid {π : Renaming} {e : ℤ} {j : ℕ} (h : π.evid e = j) :
    ∃ i : ℕ, e = i ∧ j = π.perm i := by
  unfold Renaming.evid at h
  split_ifs at h with he
  · obtain ⟨i,rfl⟩ := Int.eq_ofNat_of_zero_le he
    exact ⟨i,rfl,by simpa using h.symm⟩
  · omega

/-- The stamps of the insertions under the new names. -/
def Renaming.stamp (π : Renaming) (stamp : ℕ → ℕ) (i : ℕ) : ℕ := stamp (π.perm.symm i)

theorem Renaming.stamp_update (π : Renaming) (stamp : ℕ → ℕ) (i clock : ℕ) :
    Function.update (π.stamp stamp) (π.perm i) clock = π.stamp (Function.update stamp i clock) := by
  funext j
  unfold Renaming.stamp
  by_cases hj : j = π.perm i
  · simp [hj]
  · have hj' : π.perm.symm j ≠ i := fun he => hj (by rw [← he]; simp)
    rw [Function.update_of_ne hj,Function.update_of_ne hj']

/-- The lists of the second timer are those of the first under the new names, and the allocated nodes
hold the same data. -/
structure Matched (π : Renaming) (s u : TimerState H A) (stamp : ℕ → ℕ) (clock : ℕ)
    (active free : List ℕ) : Prop where
  first : Timed s.timer stamp clock active free none
  second : Timed u.timer (π.stamp stamp) clock (active.map π.perm) (free.map π.perm) none
  pending : u.pending = s.pending.map π.perm
  ids : ∀ i ∈ s.pending, InRange i
  data : ∀ i, InRange i → s.timer.ison i = true →
    u.timer.content (π.perm i) = { s.timer.content i with id := π.perm i }

variable {π : Renaming} {s u : TimerState H A} {stamp : ℕ → ℕ} {clock : ℕ} {active free : List ℕ}
  {t t' : EvTimer H A}

/-- Only the sorted order of the active ids is possible. -/
theorem Timed.active_unique {hand : Option ℕ} (h : Timed t stamp clock active free hand)
    {ids : List ℕ} (hids : ids.Pairwise (Before t stamp)) (hperm : ids.Perm active) :
    ids = active := by
  refine hperm.eq_of_pairwise ?_ hids h.sorted
  intro a b _ _ hab hba
  unfold Before at hab hba
  omega

theorem Matched.ison (h : Matched π s u stamp clock active free) {i : ℕ} (hi : InRange i) :
    u.timer.ison (π.perm i) = s.timer.ison i := by
  cases hon : s.timer.ison i with
  | true =>
    have := congrArg EvtNode.ison (h.data i hi hon)
    exact this.trans hon
  | false =>
    have hfree := List.mem_map_of_mem (f := π.perm) (h.first.off_free i hi hon)
    exact (h.second.free_off _ hfree).2

/-- Both timers have put a node of the same data in its place. -/
theorem Matched.place {i : ℕ} {as bs as' bs' base free' : List ℕ}
    (h : Matched π s u stamp clock active free)
    (hs : Timed t (Function.update stamp i clock) (clock+1) (as ++ i::bs) free' none)
    (hu : Timed t' (Function.update (π.stamp stamp) (π.perm i) clock) (clock+1)
      (as' ++ π.perm i::bs') (free'.map π.perm) none)
    (hbase : base = as ++ bs) (hbase' : base.map π.perm = as' ++ bs')
    (hdata : ∀ j, InRange j → t.ison j = true →
      t'.content (π.perm j) = { t.content j with id := π.perm j }) :
    ∃ stamp clock active free,
      Matched π ⟨t,s.pending⟩ ⟨t',u.pending⟩ stamp clock active free := by
  rw [π.stamp_update] at hu
  have hkey : ∀ j ∈ as ++ i::bs, t'.evusec (π.perm j) = t.evusec j := by
    intro j hj
    obtain ⟨hr,hon⟩ := hs.active_on j hj
    have := congrArg EvtNode.evusec (hdata j hr hon)
    exact this
  have hactive : (as ++ i::bs).map π.perm = as' ++ π.perm i::bs' := by
    apply hu.active_unique
    · rw [List.pairwise_map]
      refine hs.sorted.imp_of_mem ?_
      intro a b ha hb hab
      unfold Before at hab ⊢
      simpa [hkey a ha,hkey b hb,Renaming.stamp] using hab
    · have hmid : (as ++ i::bs).map π.perm = as.map π.perm ++ π.perm i::bs.map π.perm := by simp
      rw [hmid]
      refine List.perm_middle.trans ?_
      refine List.Perm.trans ?_ List.perm_middle.symm
      rw [← hbase',hbase,List.map_append]
  rw [← hactive] at hu
  exact ⟨_,_,_,_,hs,hu,h.pending,h.ids,hdata⟩

/-- A call that neither timer accepts. -/
theorem Matched.refused (h : Matched π s u stamp clock active free) (ht : t = s.timer)
    (hu : t' = u.timer) :
    ∃ stamp clock active free,
      Matched π ⟨t,s.pending⟩ ⟨t',u.pending⟩ stamp clock active free := by
  subst ht hu
  exact ⟨_,_,_,_,h⟩

/-- What the touched node and the others hold after a call that both timers accept. -/
theorem Matched.data_armed (h : Matched π s u stamp clock active free) {i : ℕ} {evusec : ℤ}
    {handler : Option H} {arg : Option A} (hi : t.content i = armed i evusec handler arg)
    (hi' : t'.content (π.perm i) = armed (π.perm i) evusec handler arg)
    (hsame : ∀ j, j ≠ i → t.content j = s.timer.content j)
    (hsame' : ∀ j, j ≠ π.perm i → t'.content j = u.timer.content j) (j : ℕ) (hj : InRange j)
    (hon : t.ison j = true) : t'.content (π.perm j) = { t.content j with id := π.perm j } := by
  by_cases hji : j = i
  · subst hji
    rw [hi,hi']
    rfl
  · rw [hsame j hji,hsame' _ (π.perm.injective.ne hji)]
    exact h.data j hj ((ison_eq_of_content (hsame j hji)).symm.trans hon)

theorem Matched.add (h : Matched π s u stamp clock active free) (now timeout : ℤ)
    (handler : Option H) (arg : Option A) :
    (evtimerAdd u.timer now timeout handler arg).2 =
        π.evid (evtimerAdd s.timer now timeout handler arg).2 ∧
      ∃ stamp clock active free, Matched π ⟨(evtimerAdd s.timer now timeout handler arg).1,s.pending⟩
        ⟨(evtimerAdd u.timer now timeout handler arg).1,u.pending⟩ stamp clock active free := by
  have hnone : π.evid (-1) = -1 := rfl
  by_cases hok : handler.isSome ∧ 0 < timeout
  · rcases h.first.add now timeout handler arg with
      ⟨heq,hfull⟩ | ⟨i,as,bs,rest,hsplit,rfl,hret,hadd,hi,hsame⟩
    · have hfree : free = [] := by
        rcases hfull with rfl | hle | hfree
        · cases hok.1
        · omega
        · exact hfree
      subst hfree
      rcases h.second.add now timeout handler arg with ⟨heq',-⟩ | ⟨i,as,bs,rest,-,hcons,-⟩
      · rw [heq,heq']
        exact ⟨hnone.symm,h.refused rfl rfl⟩
      · cases hcons
    · rcases h.second.add now timeout handler arg with
        ⟨-,hfull⟩ | ⟨i',as',bs',rest',hsplit',hcons,hret',hadd',hi',hsame'⟩
      · rcases hfull with rfl | hle | hfree
        · cases hok.1
        · omega
        · cases hfree
      · obtain ⟨rfl,rfl⟩ := List.cons.inj hcons
        rw [hret,hret',π.evid_natCast]
        exact ⟨rfl,h.place hadd hadd' hsplit hsplit' (h.data_armed hi hi' hsame hsame')⟩
  · have heq : ∀ v : EvTimer H A, evtimerAdd v now timeout handler arg = (v,-1) := fun v => if_neg hok
    rw [heq,heq]
    exact ⟨hnone.symm,h.refused rfl rfl⟩

theorem Matched.update (h : Matched π s u stamp clock active free) (evid now timeout : ℤ)
    (handler : Option H) (arg : Option A) :
    (evtimerUpdate u.timer (π.evid evid) now timeout handler arg).2 =
        (evtimerUpdate s.timer evid now timeout handler arg).2 ∧
      ∃ stamp clock active free,
        Matched π ⟨(evtimerUpdate s.timer evid now timeout handler arg).1,s.pending⟩
          ⟨(evtimerUpdate u.timer (π.evid evid) now timeout handler arg).1,u.pending⟩
          stamp clock active free := by
  rcases h.first.update evid now timeout handler arg with
    ⟨heq,hoff⟩ | ⟨i,as,bs,rfl,hr,hon,hsplit,hret,hupdate,hi,hsame⟩
  · rcases h.second.update (π.evid evid) now timeout handler arg with
      ⟨heq',-⟩ | ⟨j,as',bs',hj,hr',hon',-⟩
    · rw [heq,heq']
      exact ⟨rfl,h.refused rfl rfl⟩
    · obtain ⟨i,rfl,rfl⟩ := π.eq_of_evid hj
      rw [π.range] at hr'
      rw [h.ison hr',hoff i rfl hr'] at hon'
      cases hon'
  · rw [π.evid_natCast]
    rcases h.second.update (π.perm i) now timeout handler arg with
      ⟨-,hoff⟩ | ⟨j,as',bs',hj,-,-,hsplit',hret',hupdate',hi',hsame'⟩
    · have := hoff _ rfl ((π.range i).mpr hr)
      rw [h.ison hr,hon] at this
      cases this
    · obtain rfl : π.perm i = j := by exact_mod_cast hj
      rw [hret,hret']
      have herase : (active.erase i).map π.perm = as' ++ bs' := by
        rw [List.map_erase π.perm.injective,hsplit']
      exact ⟨rfl,h.place hupdate hupdate' hsplit herase (h.data_armed hi hi' hsame hsame')⟩

theorem evtimerDelete_answer (t : EvTimer H A) (evid : ℤ) : (evtimerDelete t evid).2 = -1 := by
  unfold evtimerDelete
  dsimp only
  split_ifs <;> rfl

theorem Matched.delete (h : Matched π s u stamp clock active free) (evid : ℤ) :
    ∃ stamp clock active free, Matched π ⟨(evtimerDelete s.timer evid).1,s.pending⟩
      ⟨(evtimerDelete u.timer (π.evid evid)).1,u.pending⟩ stamp clock active free := by
  rcases h.first.delete evid with ⟨heq,hoff⟩ | ⟨i,rfl,hr,hon,hdelete,hsame⟩
  · rcases h.second.delete (π.evid evid) with ⟨heq',-⟩ | ⟨j,hj,hr',hon',-⟩
    · exact h.refused heq heq'
    · obtain ⟨i,rfl,rfl⟩ := π.eq_of_evid hj
      rw [π.range] at hr'
      rw [h.ison hr',hoff i rfl hr'] at hon'
      cases hon'
  · rw [π.evid_natCast]
    rcases h.second.delete (π.perm i) with ⟨-,hoff⟩ | ⟨j,hj,-,-,hdelete',hsame'⟩
    · have := hoff _ rfl ((π.range i).mpr hr)
      rw [h.ison hr,hon] at this
      cases this
    · obtain rfl : π.perm i = j := by exact_mod_cast hj
      rw [← List.map_erase π.perm.injective,← List.map_cons] at hdelete'
      refine ⟨_,_,_,_,hdelete,hdelete',h.pending,h.ids,?_⟩
      intro j hj hjon
      have hji : j ≠ i := by
        rintro rfl
        have hoff := (hdelete.free_off j (by simp)).2
        rw [hoff] at hjon
        cases hjon
      rw [hsame j hji,hsame' _ (π.perm.injective.ne hji)]
      exact h.data j hj ((ison_eq_of_content (hsame j hji)).symm.trans hjon)

theorem Matched.evusec (h : Matched π s u stamp clock active free) {i : ℕ} (hi : i ∈ active) :
    u.timer.evusec (π.perm i) = s.timer.evusec i := by
  obtain ⟨hr,hon⟩ := h.first.active_on i hi
  have := congrArg EvtNode.evusec (h.data i hr hon)
  exact this

/-- Both timers expire the same ids. -/
theorem Matched.filter (h : Matched π s u stamp clock active free) (p : ℤ → Bool) :
    (active.map π.perm).filter (fun i => p (u.timer.evusec i)) =
      (active.filter fun i => p (s.timer.evusec i)).map π.perm := by
  rw [List.filter_map]
  congr 1
  apply List.filter_congr
  intro i hi
  simp [h.evusec hi]

theorem Matched.check (h : Matched π s u stamp clock active free) (now : ℤ) :
    ∃ stamp clock active free,
      Matched π ⟨evtimerCheckLocked s.timer now,expiredIds s.timer now⟩
        ⟨evtimerCheckLocked u.timer now,expiredIds u.timer now⟩ stamp clock active free := by
  obtain ⟨hs,-,hsame⟩ := h.first.check now
  obtain ⟨hu,-,hsame'⟩ := h.second.check now
  rw [h.filter fun e => now ≤ e] at hu
  refine ⟨_,_,_,_,hs,hu,?_,?_,?_⟩
  · rw [h.first.expiredIds_eq,h.second.expiredIds_eq]
    exact h.filter fun e => e < now
  · intro i hi
    rw [h.first.expiredIds_eq] at hi
    exact (h.first.active_on i (List.mem_of_mem_filter hi)).1
  · intro i hi hon
    rw [hsame,hsame']
    exact h.data i hi ((ison_eq_of_content (hsame i)).symm.trans hon)

theorem Matched.fires (h : Matched π s u stamp clock active free) {i : ℕ} (hi : InRange i) :
    evtimerFires u.timer (π.perm i) = evtimerFires s.timer i ∧
      (s.timer.ison i = true →
        (u.timer.nodes (π.perm i)).arg = (s.timer.nodes i).arg) := by
  rw [h.first.fires_eq hi,h.second.fires_eq ((π.range i).mpr hi),h.ison hi]
  cases hon : s.timer.ison i with
  | false => simp
  | true =>
    have hhandler := congrArg EvtNode.handler (h.data i hi hon)
    have harg := congrArg EvtNode.arg (h.data i hi hon)
    have hhead : u.timer.head = some (π.perm i) ↔ s.timer.head = some i := by
      rw [h.first.list.head_eq,h.second.list.head_eq,List.head?_map,Option.map_eq_some_iff]
      simp
    have htail : u.timer.tail = some (π.perm i) ↔ s.timer.tail = some i := by
      rw [h.first.list.tail_eq,h.second.list.tail_eq,List.getLast?_map,Option.map_eq_some_iff]
      simp
    have hh : (u.timer.nodes (π.perm i)).handler = (s.timer.nodes i).handler := hhandler
    refine ⟨?_,fun _ => harg⟩
    simp [hhead,htail,hh]

/-- One act keeps the two timers alike and shows the same. -/
theorem Matched.step (h : Matched π s u stamp clock active free) (a : TimerAct H A) :
    ((a.rename π).step u).2 = (a.step s).2.rename π ∧
      ∃ stamp clock active free,
        Matched π (a.step s).1 ((a.rename π).step u).1 stamp clock active free := by
  cases a with
  | call c =>
    cases c with
    | add now timeout handler arg =>
      obtain ⟨hout,hmatched⟩ := h.add now timeout handler arg
      exact ⟨congrArg TimerOut.given hout,hmatched⟩
    | update evid now timeout handler arg =>
      obtain ⟨hout,hmatched⟩ := h.update evid now timeout handler arg
      exact ⟨congrArg TimerOut.answer hout,hmatched⟩
    | delete evid =>
      refine ⟨?_,h.delete evid⟩
      simp [TimerAct.rename,TimerCall.rename,TimerAct.step,TimerCall.apply,TimerOut.rename,
        evtimerDelete_answer]
  | check now =>
    by_cases hp : s.pending = []
    · have hp' : u.pending = [] := by rw [h.pending,hp]; rfl
      simp only [TimerAct.rename,TimerAct.step,if_pos hp,if_pos hp']
      exact ⟨rfl,h.check now⟩
    · have hp' : u.pending ≠ [] := by simpa [h.pending] using hp
      simp only [TimerAct.rename,TimerAct.step,if_neg hp,if_neg hp']
      exact ⟨rfl,_,_,_,_,h⟩
  | turn =>
    cases hp : s.pending with
    | nil =>
      have hp' : u.pending = [] := by rw [h.pending,hp]; rfl
      simp only [TimerAct.rename,TimerAct.step,hp,hp']
      exact ⟨rfl,_,_,_,_,h⟩
    | cons i ids =>
      have hp' : u.pending = π.perm i :: ids.map π.perm := by rw [h.pending,hp]; rfl
      have hi := h.ids i (by simp [hp])
      obtain ⟨hfires,harg⟩ := h.fires hi
      have hrest : Matched π ⟨s.timer,ids⟩ ⟨u.timer,ids.map π.perm⟩ stamp clock active free :=
        ⟨h.first,h.second,rfl,fun j hj => h.ids j (by simp [hp,hj]),h.data⟩
      simp only [TimerAct.rename,TimerAct.step,hp,hp',hfires]
      cases hf : evtimerFires s.timer i with
      | none => exact ⟨rfl,_,_,_,_,hrest⟩
      | some handler =>
        have hon : s.timer.ison i = true := by
          rw [h.first.fires_eq hi] at hf
          split_ifs at hf with hc
          exact hc.1
        refine ⟨?_,_,_,_,_,hrest⟩
        rw [harg hon]
        rfl

theorem Matched.outputs (h : Matched π s u stamp clock active free) (acts : List (TimerAct H A)) :
    outputs u (acts.map (TimerAct.rename π)) = (outputs s acts).map (TimerOut.rename π) := by
  induction acts generalizing s u stamp clock active free with
  | nil => rfl
  | cons a acts ih =>
    obtain ⟨hout,stamp',clock',active',free',hnext⟩ := h.step a
    rw [List.map_cons,Sbase.outputs,Sbase.outputs,List.map_cons,hout,ih hnext]

/-! ### Renaming one free list to another -/

/-- The entry of `l'` at the place that `i` has in `l`. -/
def counterpart (l l' : List ℕ) (i : ℕ) : ℕ := if i ∈ l then l'.getD (l.idxOf i) i else i

theorem counterpart_counterpart {l l' : List ℕ} (hl' : l'.Nodup) (hlen : l.length = l'.length)
    (hmem : ∀ i, i ∈ l' ↔ i ∈ l) (i : ℕ) : counterpart l' l (counterpart l l' i) = i := by
  unfold counterpart
  by_cases hi : i ∈ l
  · have hlt : l.idxOf i < l.length := List.idxOf_lt_length_of_mem hi
    have hlt' : l.idxOf i < l'.length := hlen ▸ hlt
    have hget : l'.getD (l.idxOf i) i = l'[l.idxOf i] := by simp [hlt']
    rw [if_pos hi,hget,if_pos (List.getElem_mem hlt'),hl'.idxOf_getElem]
    simp [hlt]
  · rw [if_neg hi,if_neg (mt (hmem i).mp hi)]

theorem map_counterpart {l l' : List ℕ} (hl : l.Nodup) (hlen : l.length = l'.length) :
    l.map (counterpart l l') = l' := by
  apply List.ext_getElem
  · simpa using hlen
  · intro k hk hk'
    have hlt : k < l.length := by simpa using hk
    rw [List.getElem_map,counterpart,if_pos (List.getElem_mem hlt),hl.idxOf_getElem]
    simp [hk']

/-- Two lists of all ids are the same under some names. -/
theorem exists_renaming {l l' : List ℕ} (hl : l.Nodup) (hl' : l'.Nodup)
    (hmem : ∀ i, i ∈ l ↔ InRange i) (hmem' : ∀ i, i ∈ l' ↔ InRange i) :
    ∃ π : Renaming, l.map π.perm = l' := by
  have hiff : ∀ i, i ∈ l' ↔ i ∈ l := fun i => (hmem' i).trans (hmem i).symm
  have hlen : l.length = l'.length :=
    ((List.perm_ext_iff_of_nodup hl hl').mpr fun i => (hiff i).symm).length_eq
  refine ⟨⟨⟨counterpart l l',counterpart l' l,counterpart_counterpart hl' hlen hiff,
    counterpart_counterpart hl hlen.symm fun i => (hiff i).symm⟩,?_⟩,map_counterpart hl hlen⟩
  intro i
  change InRange (counterpart l l' i) ↔ InRange i
  rw [← hmem',← hmem]
  by_cases hi : i ∈ l
  · have hlt : l.idxOf i < l'.length := hlen ▸ List.idxOf_lt_length_of_mem hi
    simp [counterpart,hi,hlt]
  · simp [counterpart,hi,hiff]

/-- The free list of a timer without allocated nodes holds every id. -/
theorem Timed.mem_free_iff (h : Timed t stamp clock active free none)
    (hoff : ∀ i, InRange i → t.ison i = false) (i : ℕ) : i ∈ free ↔ InRange i :=
  ⟨fun hi => (h.free_off i hi).1,fun hi => h.off_free i hi (hoff i hi)⟩

theorem Timed.active_nil (h : Timed t stamp clock active free none)
    (hoff : ∀ i, InRange i → t.ison i = false) : active = [] := by
  apply List.eq_nil_iff_forall_not_mem.mpr
  intro i hi
  obtain ⟨hr,hon⟩ := h.active_on i hi
  rw [hoff i hr] at hon
  cases hon

theorem evtimerInit_free : ∃ free : List ℕ, (∀ i, i ∈ free ↔ InRange i) ∧
    ∀ stamp clock, Timed (evtimerInit : EvTimer H A) stamp clock [] free none := by
  refine ⟨_,?_,evtimerInit_timed⟩
  intro i
  rw [List.mem_reverse,List.mem_range'_1]
  unfold InRange EVTNODE_MAX
  omega

/-- A timer without allocated nodes is a new one under other names. -/
theorem Timed.matched_new (h : Timed t stamp clock active free none)
    (hoff : ∀ i, InRange i → t.ison i = false) :
    ∃ π : Renaming, Matched π ⟨t,[]⟩ ⟨evtimerInit,[]⟩ stamp clock active free := by
  obtain rfl := h.active_nil hoff
  obtain ⟨free',hmem,hinit⟩ := evtimerInit_free (H := H) (A := A)
  obtain ⟨π,hπ⟩ := exists_renaming h.freeList.nodup (hinit stamp clock).freeList.nodup
    (h.mem_free_iff hoff) hmem
  refine ⟨π,h,?_,rfl,by simp,?_⟩
  · rw [hπ]
    exact hinit _ clock
  · intro i hi hon
    rw [hoff i hi] at hon
    cases hon

/-! ### Whose handlers are called -/

/-- Every allocated node holds a handler and an argument with the property `P`, or no handler. -/
def HandlersIn (P : H → Option A → Prop) (t : EvTimer H A) : Prop :=
  ∀ i, InRange i → t.ison i = true → ∀ handler, (t.nodes i).handler = some handler →
    P handler (t.nodes i).arg

theorem HandlersIn.content {P : H → Option A → Prop} (h : HandlersIn P t)
    (hsame : ∀ i, t'.ison i = true → t'.content i = t.content i) : HandlersIn P t' := by
  intro i hi hon handler hhandler
  have hc := hsame i hon
  rw [handler_eq_of_content hc] at hhandler
  rw [arg_eq_of_content hc]
  exact h i hi ((ison_eq_of_content hc).symm.trans hon) handler hhandler

/-- A call that arms the node `i`. -/
theorem HandlersIn.armed {P : H → Option A → Prop} (h : HandlersIn P t) {i : ℕ} {evusec : ℤ}
    {handler : Option H} {arg : Option A} (hi : t'.content i = armed i evusec handler arg)
    (hsame : ∀ j, j ≠ i → t'.content j = t.content j)
    (hP : ∀ f, handler = some f → P f arg) : HandlersIn P t' := by
  intro j hj hon f hf
  by_cases hji : j = i
  · subst hji
    have harg : (t'.nodes j).arg = arg := congrArg EvtNode.arg hi
    have hhandler : (t'.nodes j).handler = handler := congrArg EvtNode.handler hi
    rw [harg]
    exact hP f (hhandler.symm.trans hf)
  · have hc := hsame j hji
    rw [handler_eq_of_content hc] at hf
    rw [arg_eq_of_content hc]
    exact h j hj ((ison_eq_of_content hc).symm.trans hon) f hf

theorem HandlersIn.call {P : H → Option A → Prop} (ht : Timed t stamp clock active free none)
    (h : HandlersIn P t) (c : TimerCall H A)
    (hP : ∀ handler arg, c.registers handler arg → P handler arg) : HandlersIn P (c.apply t).1 := by
  cases c with
  | add now timeout handler arg =>
    rcases ht.add now timeout handler arg with ⟨heq,-⟩ | ⟨i,as,bs,rest,-,-,-,-,hi,hsame⟩
    · simpa [TimerCall.apply,heq] using h
    · exact h.armed hi hsame fun f hf => hP f arg ⟨hf,rfl⟩
  | update evid now timeout handler arg =>
    rcases ht.update evid now timeout handler arg with ⟨heq,-⟩ | ⟨i,as,bs,-,-,-,-,-,-,hi,hsame⟩
    · simpa [TimerCall.apply,heq] using h
    · exact h.armed hi hsame fun f hf => hP f arg ⟨hf,rfl⟩
  | delete evid =>
    rcases ht.delete evid with ⟨heq,-⟩ | ⟨i,-,hr,-,hdelete,hsame⟩
    · simpa [TimerCall.apply,heq] using h
    · apply h.content
      intro j hon
      apply hsame
      rintro rfl
      have hoff := (hdelete.free_off j (by simp)).2
      exact Bool.false_ne_true (hoff.symm.trans hon)

/-- What an act leaves and shows comes from the handlers that the timer held or that it registers. -/
theorem Matched.handlers_step {P : H → Option A → Prop}
    (h : Matched π s u stamp clock active free) (hs : HandlersIn P s.timer) (a : TimerAct H A)
    (hP : ∀ c, a = .call c → ∀ handler arg, c.registers handler arg → P handler arg) :
    HandlersIn P (a.step s).1.timer ∧
      ∀ handler arg, (a.step s).2 = .called handler arg → P handler arg := by
  cases a with
  | call c =>
    refine ⟨hs.call h.first c (hP c rfl),?_⟩
    intro handler arg hout
    cases c <;> cases hout
  | check now =>
    unfold TimerAct.step
    split_ifs
    · refine ⟨hs.content fun i _ => (h.first.check now).2.2 i,?_⟩
      intro handler arg hout
      cases hout
    · exact ⟨hs,fun handler arg hout => by cases hout⟩
  | turn =>
    cases hp : s.pending with
    | nil =>
      simp only [TimerAct.step,hp]
      exact ⟨hs,fun handler arg hout => by cases hout⟩
    | cons i ids =>
      simp only [TimerAct.step,hp]
      cases hf : evtimerFires s.timer i with
      | none => exact ⟨hs,fun handler arg hout => by cases hout⟩
      | some f =>
        refine ⟨hs,?_⟩
        intro handler arg hout
        cases hout
        have hi := h.ids i (by simp [hp])
        rw [h.first.fires_eq hi] at hf
        split_ifs at hf with hc
        exact hs i hi hc.1 f hf

theorem Matched.called {P : H → Option A → Prop} (h : Matched π s u stamp clock active free)
    (hs : HandlersIn P s.timer) (acts : List (TimerAct H A))
    (hP : ∀ c, .call c ∈ acts → ∀ handler arg, c.registers handler arg → P handler arg)
    {handler : H} {arg : Option A} (hcalled : .called handler arg ∈ Sbase.outputs s acts) :
    P handler arg := by
  induction acts generalizing s u stamp clock active free with
  | nil => cases hcalled
  | cons a acts ih =>
    obtain ⟨hnext,hout⟩ := h.handlers_step hs a fun c hc => hP c (by simp [hc])
    obtain ⟨-,stamp',clock',active',free',hmatched⟩ := h.step a
    rcases List.mem_cons.mp hcalled with heq | hrest
    · exact hout handler arg heq.symm
    · exact ih hmatched hnext (fun c hc => hP c (List.mem_cons_of_mem a hc)) hrest

/-! ### `evtimer_reset` -/

/-- The loop puts the nodes that it meets on the free list, the last one first. -/
theorem evtimerResetLoop_frees {fuel i : ℕ} {ids free : List ℕ}
    (h : Chain t.next (some i) (i::ids)) (hfree : Chain t.next t.left free)
    (hdisj : ∀ j ∈ i::ids, j ∉ free) (hf : (i::ids).length ≤ fuel) :
    Chain (evtimerResetLoop fuel t i).next (evtimerResetLoop fuel t i).left
      ((i::ids).reverse ++ free) := by
  induction fuel generalizing t i ids free with
  | zero => cases hf
  | succ fuel ih =>
    have hnd := List.nodup_cons.mp h.nodup
    obtain ⟨t₁,ht₁⟩ : ∃ t₁ : EvTimer H A, t₁ = { t.modify i fun _ =>
      { EvtNode.zero with id := (t.nodes i).id, next := t.left } with left := some i } := ⟨_,rfl⟩
    have hself : t₁.next i = t.left := by simp [ht₁,next,nodes_modify]
    have hother : ∀ j, j ≠ i → t₁.next j = t.next j := by
      intro j hj
      simp [ht₁,next,nodes_modify,hj]
    have hfree₁ : Chain t₁.next t₁.left (i::free) := by
      refine ⟨by rw [ht₁],?_⟩
      rw [hself]
      apply hfree.congr
      intro j hj
      exact hother j fun he => hdisj i (by simp) (he ▸ hj)
    rw [evtimerResetLoop,← ht₁]
    cases ids with
    | nil =>
      have hnone : (t.nodes i).next = none := h.2
      simpa [hnone] using hfree₁
    | cons k ids =>
      have hk : (t.nodes i).next = some k := h.2.1
      have hids : Chain t.next (some k) (k::ids) := ⟨rfl,h.2.2⟩
      have hrest : Chain t₁.next (some k) (k::ids) := by
        apply hids.congr
        intro j hj
        exact hother j fun he => hnd.1 (he ▸ hj)
      have hstep := ih hrest hfree₁ ?_ (by simpa using hf)
      · simpa [hk] using hstep
      · intro j hj hjf
        rcases List.mem_cons.mp hjf with rfl | hjf
        · exact hnd.1 hj
        · exact hdisj j (List.mem_cons_of_mem i hj) hjf

theorem evtimerResetLoop_anchors (fuel : ℕ) (t : EvTimer H A) (i : ℕ) :
    (evtimerResetLoop fuel t i).head = t.head ∧ (evtimerResetLoop fuel t i).tail = t.tail := by
  induction fuel generalizing t i with
  | zero => exact ⟨rfl,rfl⟩
  | succ fuel ih =>
    rw [evtimerResetLoop]
    cases (t.nodes i).next with
    | none => exact ⟨rfl,rfl⟩
    | some j => exact ih _ j

/-- `evtimer_reset` frees the active nodes, not the fired ones, and leaves `head` and `tail` on the
nodes that it has freed. -/
theorem evtimerReset_spec (h : Timed t stamp clock active free none) :
    Chain (evtimerReset t).next (evtimerReset t).left (active.reverse ++ free) ∧
      (evtimerReset t).head = active.head? ∧ (evtimerReset t).tail = active.getLast? := by
  have hhead := h.list.head_eq
  have htail := h.list.tail_eq
  unfold evtimerReset
  cases active with
  | nil =>
    have hnone : t.head = none := hhead
    simp only [hnone]
    exact ⟨h.freeList,rfl,htail⟩
  | cons i ids =>
    have hsome : t.head = some i := hhead
    obtain ⟨hhead',htail'⟩ := evtimerResetLoop_anchors EVTNODE_MAX t i
    simp only [hsome]
    refine ⟨?_,hhead'.trans hhead,htail'.trans htail⟩
    apply evtimerResetLoop_frees (hsome ▸ h.list.forward) h.freeList ?_ h.length_le
    exact fun j hj => h.not_mem_free (h.active_on j hj).2

/-- `evtimer_reset` empties exactly the timers that have no allocated node. -/
theorem evtimer_reset_iff (ops : List (TimerOp H A)) :
    Emptied (evtimerReset (evtimerRun ops).timer) ↔
      ∀ i, InRange i → (evtimerRun ops).timer.ison i = false := by
  obtain ⟨active,free,h⟩ := evtimerRun_good ops
  obtain ⟨hchain,hhead,htail⟩ := evtimerReset_spec h
  constructor
  · intro hempty i hi
    have hactive : active = [] := List.head?_eq_none_iff.mp (hhead.symm.trans hempty.head)
    obtain ⟨free',hchain',-,hmem⟩ := hempty.free
    rw [hactive] at hchain
    obtain rfl : free' = free := hchain'.unique hchain
    exact (h.free_off i ((hmem i).mpr hi)).2
  · intro hoff
    obtain rfl := h.active_nil hoff
    have hsame : evtimerReset (evtimerRun ops).timer = (evtimerRun ops).timer := by
      have hnone : (evtimerRun ops).timer.head = none := h.list.head_eq
      simp [evtimerReset,hnone]
    rw [hsame] at hhead htail hchain ⊢
    obtain ⟨π,hmatched⟩ := h.matched_new hoff
    refine ⟨hhead,htail,?_,⟨_,h.freeList,h.freeList.nodup,h.mem_free_iff hoff⟩,π,?_⟩
    · intro acts handler arg hcalled
      refine hmatched.called (P := fun handler arg => ∃ c, .call c ∈ acts ∧ c.registers handler arg)
        ?_ acts ?_ hcalled
      · intro i hi hon
        rw [hoff i hi] at hon
        cases hon
      · exact fun c hc handler arg hreg => ⟨c,hc,hreg⟩
    · exact hmatched.outputs

/-- A reset with one active timer. -/
theorem evtimer_reset_active :
    ¬ Emptied (evtimerReset (evtimerRun [.call (.add 0 1 (some 7) none)] : Stamped ℕ Unit).timer) := by
  obtain ⟨free,hmem,hinit⟩ := evtimerInit_free (H := ℕ) (A := Unit)
  obtain ⟨s₀,hs₀⟩ : ∃ s₀ : Stamped ℕ Unit, s₀ = ⟨evtimerInit,fun _ => 0,0⟩ := ⟨_,rfl⟩
  have h₀ : Timed s₀.timer s₀.stamp s₀.clock [] free none := by
    rw [hs₀]
    exact hinit _ _
  have hrun : evtimerRun [.call (.add 0 1 (some 7) none)] =
      TimerCall.run s₀ (.add 0 1 (some 7) none) := by
    simp only [hs₀,evtimerRun,List.foldl_cons,List.foldl_nil,TimerOp.run]
  cases free with
  | nil => exact absurd ((hmem 1).mpr (by decide)) (by simp)
  | cons i rest =>
    obtain ⟨as,bs,-,h,-⟩ := TimerCall.run_add h₀ 0 7 (by norm_num : (0:ℤ) < 1) none
    rw [hrun]
    intro hempty
    have hhead := (evtimerReset_spec h).2.1
    rw [hempty.head] at hhead
    cases as <;> cases hhead

end

end Sbase
