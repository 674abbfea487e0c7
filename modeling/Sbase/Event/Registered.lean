import Sbase.Event.Backends

/-! Every run of an event base, on any backend, registers the interest of its live events. -/
namespace Sbase
open Runs

variable {τ : Type} {B : Backend τ} {w : EventWorld τ} {e : ℕ}

/-- An event that has been added and not destroyed since. -/
def EventWorld.Live (w : EventWorld τ) (e : ℕ) : Prop := (w.events e).evBase = true

instance (w : EventWorld τ) (e : ℕ) : Decidable (w.Live e) := inferInstanceAs (Decidable (_ = _))

/-- The registered interest is that of the live events, each of which is listed where it has any, up
to `maxfd`. -/
structure Registered (B : Backend τ) (w : EventWorld τ) : Prop where
  reads : ∀ n, B.reads w.base.table n = true ↔
    ∃ e, w.Live e ∧ (w.events e).evFd = n ∧ hasFlag (w.events e).evFlags E_READ
  writes : ∀ n, B.writes w.base.table n = true ↔
    ∃ e, w.Live e ∧ (w.events e).evFd = n ∧ hasFlag (w.events e).evFlags E_WRITE
  listed : ∀ e, w.Live e → (w.events e).interested →
    w.base.evlist (w.events e).evFd.toNat = some e
  vacant : ∀ n : ℕ, (∀ e, w.Live e → (w.events e).evFd ≠ n) → w.base.evlist n = none
  maxfd : ∀ e, w.Live e → (w.events e).interested → (w.events e).evFd ≤ w.base.maxfd

/-- An event is set only where it is not live, and added only with a descriptor of its own that every
backend can hold. -/
def EventWorld.Proper (w : EventWorld τ) : EventOp → Prop
  | .set e _ _ => ¬ w.Live e
  | .add e =>
    0 < (w.events e).evFd ∧ (w.events e).evFd < EV_MAX_FD ∧ (w.events e).evFd < FD_SETSIZE ∧
      ∀ d ≠ e, w.Live d → (w.events d).evFd ≠ (w.events e).evFd
  | _ => True

/-- The event that an operation is about. -/
def EventOp.event : EventOp → ℕ
  | .set e _ _ => e
  | .add e => e
  | .eventAdd e _ => e
  | .eventDel e _ => e
  | .destroy e => e

theorem EventOp.apply_other (B : Backend τ) (w : EventWorld τ) {op : EventOp} {d : ℕ}
    (h : d ≠ op.event) : (op.apply B w).events d = w.events d := by
  cases op with
  | set e fd flags =>
    rw [apply,EventWorld.eventSet]
    split_ifs
    · exact Function.update_of_ne h ..
    · rfl
  | add e => exact Function.update_of_ne h ..
  | eventAdd e flags =>
    rw [apply,EventWorld.eventAdd]
    split_ifs
    · exact Function.update_of_ne h ..
    · rfl
  | eventDel e flags =>
    rw [apply,EventWorld.eventDel]
    split_ifs
    · exact Function.update_of_ne h ..
    · rfl
  | destroy e =>
    rw [apply,EventWorld.eventDestroy]
    split_ifs
    · exact Function.update_of_ne h ..
    · exact Function.update_of_ne h ..

/-- The invariant of a base. -/
structure Kept (B : Backend τ) (w : EventWorld τ) : Prop where
  allowed : w.base.allowed = EV_MAX_FD
  range : ∀ e, w.Live e → 0 < (w.events e).evFd ∧ (w.events e).evFd < EV_MAX_FD
  distinct : ∀ e d, w.Live e → w.Live d → (w.events e).evFd = (w.events d).evFd → e = d
  shows : ∀ e, w.Live e → ShowsInterest B w.base (w.events e)
  silent : ∀ n, (∀ e, w.Live e → (w.events e).evFd.toNat ≠ n) →
    Silent B w.base n ∧ w.base.evlist n = none
  listed : ∀ e, w.Live e → w.base.evlist (w.events e).evFd.toNat = some e ∨
    (w.events e).interested = false ∧ w.base.evlist (w.events e).evFd.toNat = none
  maxfd : ∀ n : ℕ, w.base.evlist n ≠ none → n ≤ w.base.maxfd

namespace EventWorld

theorem put_self (w : EventWorld τ) (e : ℕ) (r : Evbase τ × Event) : (w.put e r).events e = r.2 :=
  Function.update_self ..

theorem put_other (w : EventWorld τ) {e d : ℕ} (h : d ≠ e) (r : Evbase τ × Event) :
    (w.put e r).events d = w.events d := Function.update_of_ne h ..

theorem put_eq (w : EventWorld τ) (e : ℕ) {r : Evbase τ × Event} {ev : Event} (h : r.2 = ev) :
    w.put e r = w.put e (r.1,ev) := by rw [← h]

end EventWorld

namespace Kept

theorem accepts (h : Kept B w) (he : w.Live e) {ev : Event} (hfd : ev.evFd = (w.events e).evFd) :
    w.base.accepts ev := by
  obtain ⟨hpos,hlt⟩ := h.range e he
  rw [Evbase.accepts,h.allowed,hfd,decide_eq_true_eq]
  exact ⟨hpos.le,hlt⟩

/-- No other live event has the descriptor of an event, as an index. -/
theorem ne_toNat (h : Kept B w) {d : ℕ} {fd : ℤ} (hd : w.Live d) (hne : (w.events d).evFd ≠ fd)
    (hpos : 0 < fd) : (w.events d).evFd.toNat ≠ fd.toNat := by
  have hdpos := (h.range d hd).1
  omega

/-- An event is put into the base, or changed in it. -/
theorem live (h : Kept B w) {b : Evbase τ} {ev : Event} (hlive : ev.evBase = true)
    (hrange : 0 < ev.evFd ∧ ev.evFd < EV_MAX_FD)
    (hothers : ∀ d ≠ e, w.Live d → (w.events d).evFd ≠ ev.evFd)
    (hsame : w.Live e → (w.events e).evFd = ev.evFd) (hallowed : b.allowed = w.base.allowed)
    (hshows : ShowsInterest B b ev) (helse : SameElse B w.base b ev.evFd.toNat)
    (hlist : SameList (w.base.updateEventFd e ev) b ∨ ev.interested = false ∧ SameList w.base b) :
    Kept B (w.put e (b,ev)) := by
  have hself := w.put_self e (b,ev)
  have hother : ∀ d ≠ e, (w.put e (b,ev)).events d = w.events d := fun d hd => w.put_other hd _
  have hlive' : ∀ d ≠ e, (w.put e (b,ev)).Live d → w.Live d := by
    intro d hd hl
    rwa [EventWorld.Live,hother d hd] at hl
  have hbase : (w.put e (b,ev)).base = b := rfl
  have hevlist : ∀ m ≠ ev.evFd.toNat, b.evlist m = w.base.evlist m := by
    intro m hm
    rcases hlist with hl | hl
    · rw [hl.1]
      exact Function.update_of_ne hm ..
    · rw [hl.2.1]
  have hne : ∀ d ≠ e, w.Live d → (w.events d).evFd.toNat ≠ ev.evFd.toNat := fun d hd hl =>
    h.ne_toNat hl (hothers d hd hl) hrange.1
  constructor
  · exact hallowed.trans h.allowed
  · intro d hd
    by_cases hde : d = e
    · rw [hde,hself]
      exact hrange
    · rw [hother d hde]
      exact h.range d (hlive' d hde hd)
  · intro c d hc hd heq
    by_cases hce : c = e <;> by_cases hde : d = e
    · rw [hce,hde]
    · rw [hce,hself,hother d hde] at heq
      exact absurd heq.symm (hothers d hde (hlive' d hde hd))
    · rw [hde,hself,hother c hce] at heq
      exact absurd heq (hothers c hce (hlive' c hce hc))
    · rw [hother c hce,hother d hde] at heq
      exact h.distinct c d (hlive' c hce hc) (hlive' d hde hd) heq
  · intro d hd
    by_cases hde : d = e
    · rw [hde,hself]
      exact hshows
    · have hl := hlive' d hde hd
      obtain ⟨hr,hw⟩ := helse _ (hne d hde hl)
      rw [hother d hde]
      exact ⟨hr.trans (h.shows d hl).1,hw.trans (h.shows d hl).2⟩
  · intro n hn
    have hnfd : n ≠ ev.evFd.toNat := by
      rintro rfl
      apply hn e (by rw [EventWorld.Live,hself]; exact hlive)
      rw [hself]
    obtain ⟨hsilent,hnone⟩ := h.silent n fun d hd heq => by
      by_cases hde : d = e
      · subst hde
        exact hnfd (heq.symm.trans (congrArg Int.toNat (hsame hd)))
      · apply hn d _ _
        · rwa [EventWorld.Live,hother d hde]
        · rwa [hother d hde]
    obtain ⟨hr,hw⟩ := helse n hnfd
    exact ⟨⟨hr.trans hsilent.1,hw.trans hsilent.2⟩,(hevlist n hnfd).trans hnone⟩
  · intro d hd
    by_cases hde : d = e
    · rw [hde,hself,hbase]
      rcases hlist with hl | ⟨hint,hl⟩
      · left
        rw [hl.1]
        exact Function.update_self ..
      · rw [hl.1]
        by_cases he : w.Live e
        · rw [← hsame he]
          exact (h.listed e he).imp id fun hnone => ⟨hint,hnone.2⟩
        · right
          refine ⟨hint,(h.silent _ fun c hc => ?_).2⟩
          exact hne c (fun hce => he (hce ▸ hc)) hc
    · have hl := hlive' d hde hd
      rw [hother d hde,hbase,hevlist _ (hne d hde hl)]
      exact h.listed d hl
  · intro n hn
    rw [hbase] at hn ⊢
    rcases hlist with ⟨hl,hm⟩ | ⟨-,hl,hm⟩
    · have hmax : b.maxfd = if w.base.maxfd < ev.evFd then ev.evFd else w.base.maxfd := hm
      rw [hl] at hn
      by_cases hnfd : n = ev.evFd.toNat
      · rw [hmax]
        have hfd : (n : ℤ) = ev.evFd := by omega
        split_ifs <;> omega
      · have hold := h.maxfd n (by rwa [← hevlist n hnfd,hl])
        rw [hmax]
        split_ifs <;> omega
    · rw [hm]
      exact h.maxfd n (by rwa [← hl])

/-- An event that is not live is changed, and stays so. -/
theorem idle (h : Kept B w) {ev : Event} (he : ¬ w.Live e) (hev : ev.evBase = false) :
    Kept B (w.put e (w.base,ev)) := by
  have hother : ∀ d ≠ e, (w.put e (w.base,ev)).events d = w.events d := fun d hd => w.put_other hd _
  have hne : ∀ d, (w.put e (w.base,ev)).Live d → d ≠ e := by
    rintro d hd rfl
    rw [EventWorld.Live,w.put_self,hev] at hd
    cases hd
  have hlive : ∀ d, (w.put e (w.base,ev)).Live d → w.Live d := by
    intro d hd
    have hd' := hd
    rwa [EventWorld.Live,hother d (hne d hd)] at hd'
  constructor
  · exact h.allowed
  · intro d hd
    rw [hother d (hne d hd)]
    exact h.range d (hlive d hd)
  · intro c d hc hd heq
    rw [hother c (hne c hc),hother d (hne d hd)] at heq
    exact h.distinct c d (hlive c hc) (hlive d hd) heq
  · intro d hd
    rw [hother d (hne d hd)]
    exact h.shows d (hlive d hd)
  · intro n hn
    apply h.silent n
    intro d hd
    have hde : d ≠ e := fun hde => he (hde ▸ hd)
    have hd' : (w.put e (w.base,ev)).Live d := by rwa [EventWorld.Live,hother d hde]
    rw [← hother d hde]
    exact hn d hd'
  · intro d hd
    rw [hother d (hne d hd)]
    exact h.listed d (hlive d hd)
  · exact h.maxfd

/-- A live event is taken out of the base. -/
theorem dead (h : Kept B w) {b : Evbase τ} {ev : Event} (he : w.Live e) (hev : ev.evBase = false)
    (hfd : ev.evFd = (w.events e).evFd) (hallowed : b.allowed = w.base.allowed)
    (hsilent : Silent B b ev.evFd.toNat) (helse : SameElse B w.base b ev.evFd.toNat)
    (hlist : SameList (w.base.removeEventFd ev) b ∨
      w.base.evlist ev.evFd.toNat = none ∧ SameList w.base b) :
    Kept B (w.put e (b,ev)) := by
  have hother : ∀ d ≠ e, (w.put e (b,ev)).events d = w.events d := fun d hd => w.put_other hd _
  have hbase : (w.put e (b,ev)).base = b := rfl
  have hne : ∀ d, (w.put e (b,ev)).Live d → d ≠ e := by
    rintro d hd rfl
    rw [EventWorld.Live,w.put_self,hev] at hd
    cases hd
  have hlive : ∀ d, (w.put e (b,ev)).Live d → w.Live d := by
    intro d hd
    have hd' := hd
    rwa [EventWorld.Live,hother d (hne d hd)] at hd'
  have hnone : b.evlist ev.evFd.toNat = none := by
    rcases hlist with hl | ⟨hn,hl⟩
    · rw [hl.1]
      exact Function.update_self ..
    · rw [hl.1,hn]
  have hevlist : ∀ m ≠ ev.evFd.toNat, b.evlist m = w.base.evlist m := by
    intro m hm
    rcases hlist with hl | hl
    · rw [hl.1]
      exact Function.update_of_ne hm ..
    · rw [hl.2.1]
  have hnfd : ∀ d, (w.put e (b,ev)).Live d → (w.events d).evFd.toNat ≠ ev.evFd.toNat := by
    intro d hd
    apply h.ne_toNat (hlive d hd)
    · intro heq
      exact hne d hd (h.distinct d e (hlive d hd) he (heq.trans hfd))
    · rw [hfd]
      exact (h.range e he).1
  constructor
  · exact hallowed.trans h.allowed
  · intro d hd
    rw [hother d (hne d hd)]
    exact h.range d (hlive d hd)
  · intro c d hc hd heq
    rw [hother c (hne c hc),hother d (hne d hd)] at heq
    exact h.distinct c d (hlive c hc) (hlive d hd) heq
  · intro d hd
    obtain ⟨hr,hw⟩ := helse _ (hnfd d hd)
    rw [hother d (hne d hd)]
    exact ⟨hr.trans (h.shows d (hlive d hd)).1,hw.trans (h.shows d (hlive d hd)).2⟩
  · intro n hn
    by_cases hn' : n = ev.evFd.toNat
    · rw [hn']
      exact ⟨hsilent,hnone⟩
    · obtain ⟨hold,hvacant⟩ := h.silent n fun d hd heq => by
        by_cases hde : d = e
        · subst hde
          exact hn' (heq.symm.trans (congrArg Int.toNat hfd.symm))
        · apply hn d _ _
          · rwa [EventWorld.Live,hother d hde]
          · rwa [hother d hde]
      obtain ⟨hr,hw⟩ := helse n hn'
      exact ⟨⟨hr.trans hold.1,hw.trans hold.2⟩,(hevlist n hn').trans hvacant⟩
  · intro d hd
    rw [hother d (hne d hd),hbase,hevlist _ (hnfd d hd)]
    exact h.listed d (hlive d hd)
  · intro n hn
    rw [hbase] at hn ⊢
    have hn' : n ≠ ev.evFd.toNat := fun heq => hn (heq ▸ hnone)
    have hold := h.maxfd n (by rwa [← hevlist n hn'])
    rcases hlist with ⟨-,hm⟩ | ⟨-,-,hm⟩
    · have hmax : b.maxfd = if ev.evFd = w.base.maxfd then ev.evFd - 1 else w.base.maxfd := hm
      rw [hmax]
      split_ifs <;> omega
    · rw [hm]
      exact hold

/-- An event that is properly added is accepted, and its interest is registered already or none is. -/
theorem addable (h : Kept B w) (hop : w.Proper (.add e)) : w.base.accepts (w.events e) ∧
    (ShowsInterest B w.base (w.events e) ∨ Silent B w.base (w.events e).evFd.toNat) := by
  obtain ⟨hpos,hlt,-,hothers⟩ := hop
  constructor
  · rw [Evbase.accepts,h.allowed,decide_eq_true_eq]
    exact ⟨hpos.le,hlt⟩
  · by_cases he : w.Live e
    · exact .inl (h.shows e he)
    · refine .inr (h.silent _ fun d hd => ?_).1
      exact h.ne_toNat hd (hothers d (fun hde => he (hde ▸ hd)) hd) hpos

theorem add_event (h : Kept B w) (hB : B.Sound) (hop : w.Proper (.add e)) :
    (B.add w.base e (w.events e)).2 = { w.events e with evBase := true } := by
  obtain ⟨hacc,hpre⟩ := h.addable hop
  exact (hB.add w.base e (w.events e) hacc hpre).1

theorem update_event (h : Kept B w) (hB : B.Sound) (he : w.Live e) (flags : Flags) :
    (B.update w.base e { w.events e with
      oldEvFlags := (w.events e).evFlags, evFlags := flags }).2 =
        { w.events e with oldEvFlags := (w.events e).evFlags, evFlags := flags } :=
  (hB.update w.base e { w.events e with oldEvFlags := (w.events e).evFlags, evFlags := flags }
    (h.accepts he rfl) he (h.shows e he)).1

theorem update (h : Kept B w) (hB : B.Sound) (he : w.Live e) (flags : Flags) :
    Kept B (w.put e (B.update w.base e
      { w.events e with oldEvFlags := (w.events e).evFlags, evFlags := flags })) := by
  obtain ⟨hev,hallowed,hshows,helse,hlist⟩ := hB.update w.base e
    { w.events e with oldEvFlags := (w.events e).evFlags, evFlags := flags } (h.accepts he rfl) he
    (h.shows e he)
  rw [w.put_eq e hev]
  exact h.live he (h.range e he) (fun d hd hl heq => hd (h.distinct d e hl he heq)) (fun _ => rfl)
    hallowed hshows helse (.inl hlist)

theorem step (h : Kept B w) (hB : B.Sound) (op : EventOp) (hop : w.Proper op) :
    Kept B (op.apply B w) := by
  cases op with
  | set e fd flags =>
    rw [EventOp.apply,EventWorld.eventSet]
    split_ifs with hfd
    · exact h.idle hop (Bool.eq_false_of_not_eq_true hop)
    · exact h
  | add e =>
    obtain ⟨hacc,hpre⟩ := h.addable hop
    obtain ⟨hev,hallowed,hshows,helse,hlist⟩ := hB.add w.base e (w.events e) hacc hpre
    rw [EventOp.apply,EventWorld.add,w.put_eq e hev]
    exact h.live rfl ⟨hop.1,hop.2.1⟩ hop.2.2.2 (fun _ => rfl) hallowed hshows helse hlist
  | eventAdd e flags =>
    rw [EventOp.apply,EventWorld.eventAdd]
    split_ifs with hadd
    · exact h.update hB hadd.1 _
    · exact h
  | eventDel e flags =>
    rw [EventOp.apply,EventWorld.eventDel]
    split_ifs with hdel
    · exact h.update hB hdel.1 _
    · exact h
  | destroy e =>
    rw [EventOp.apply,EventWorld.eventDestroy]
    dsimp only
    split_ifs with he
    · have hpre : Silent B w.base (w.events e).evFd.toNat ∨
          w.base.evlist (w.events e).evFd.toNat ≠ none := by
        rcases h.listed e he with hsome | ⟨hint,-⟩
        · right
          rw [hsome]
          simp
        · left
          rw [Event.interested,Bool.or_eq_false_iff] at hint
          have hshows := h.shows e he
          exact ⟨hshows.1.trans hint.1,hshows.2.trans hint.2⟩
      obtain ⟨hallowed,hsilent,helse,hlist⟩ := hB.del w.base e { w.events e with evFlags := 0 }
        (h.accepts he rfl) hpre
      exact h.dead he rfl rfl hallowed hsilent helse hlist
    · exact h.idle he (Bool.eq_false_of_not_eq_true he)

theorem registered (h : Kept B w) : Registered B w := by
  have hfd : ∀ {e} {n : ℕ}, w.Live e → ((w.events e).evFd = n ↔ (w.events e).evFd.toNat = n) := by
    intro e n he
    have hpos := (h.range e he).1
    constructor <;> intro heq <;> omega
  have hinterest : ∀ n : ℕ, (¬ ∃ e, w.Live e ∧ (w.events e).evFd = n) → Silent B w.base n := by
    intro n hn
    refine (h.silent n fun e he heq => hn ⟨e,he,(hfd he).2 heq⟩).1
  constructor
  · intro n
    constructor
    · intro hr
      by_contra hno
      by_cases hn : ∃ e, w.Live e ∧ (w.events e).evFd = n
      · obtain ⟨e,he,heq⟩ := hn
        have hshows := (h.shows e he).1
        rw [(hfd he).1 heq,hr] at hshows
        exact hno ⟨e,he,heq,hshows.symm⟩
      · rw [(hinterest n hn).1] at hr
        cases hr
    · rintro ⟨e,he,heq,hflag⟩
      rw [← (hfd he).1 heq,(h.shows e he).1]
      exact hflag
  · intro n
    constructor
    · intro hr
      by_contra hno
      by_cases hn : ∃ e, w.Live e ∧ (w.events e).evFd = n
      · obtain ⟨e,he,heq⟩ := hn
        have hshows := (h.shows e he).2
        rw [(hfd he).1 heq,hr] at hshows
        exact hno ⟨e,he,heq,hshows.symm⟩
      · rw [(hinterest n hn).2] at hr
        cases hr
    · rintro ⟨e,he,heq,hflag⟩
      rw [← (hfd he).1 heq,(h.shows e he).2]
      exact hflag
  · intro e he hint
    rcases h.listed e he with hsome | ⟨hnone,-⟩
    · exact hsome
    · rw [hnone] at hint
      cases hint
  · intro n hn
    exact (h.silent n fun e he heq => hn e he ((hfd he).2 heq)).2
  · intro e he hint
    have hlist : w.base.evlist (w.events e).evFd.toNat ≠ none := by
      rcases h.listed e he with hsome | ⟨hnone,-⟩
      · rw [hsome]
        simp
      · rw [hnone] at hint
        cases hint
    have hmax := h.maxfd _ hlist
    have hpos := (h.range e he).1
    omega

theorem init (hB : B.Sound) (events : ℕ → Event) : Kept B (B.init events) where
  allowed := rfl
  range e he := by cases he
  distinct e d he := by cases he
  shows e he := by cases he
  silent n _ := ⟨hB.start n,rfl⟩
  listed e he := by cases he
  maxfd n hn := absurd rfl hn

end Kept

/-! ### The three backends together -/

/-- The same events over a base of each backend. -/
structure EventBases where
  select : EventWorld SelectFds
  poll : EventWorld (ℕ → PollFd)
  epoll : EventWorld EpollSet

def EventBases.init (events : ℕ → Event) : EventBases :=
  ⟨evselect.init events,evpoll.init events,evepoll.init events⟩

def EventBases.apply (w : EventBases) (op : EventOp) : EventBases :=
  ⟨op.apply evselect w.select,op.apply evpoll w.poll,op.apply evepoll w.epoll⟩

/-- The operation is proper for the events. -/
def EventBases.Proper (w : EventBases) (op : EventOp) : Prop := w.select.Proper op

/-- The bases have the same events, and register the same interest, that of the live ones. -/
structure EventBases.Agree (w : EventBases) : Prop where
  poll_events : w.poll.events = w.select.events
  epoll_events : w.epoll.events = w.select.events
  select : Registered evselect w.select
  poll : Registered evpoll w.poll
  epoll : Registered evepoll w.epoll

section SameEvents
variable {τ' : Type} {B' : Backend τ'} {w' : EventWorld τ'}

theorem EventWorld.Live.congr (h : w'.events = w.events) : w'.Live e ↔ w.Live e := by
  rw [Live,Live,h]

theorem EventWorld.Proper.congr (h : w'.events = w.events) {op : EventOp} (hop : w.Proper op) :
    w'.Proper op := by
  cases op with
  | set e fd flags => exact fun he => hop ((Live.congr h).1 he)
  | add e =>
    obtain ⟨hpos,hlt,hsize,hothers⟩ := hop
    rw [Proper,h]
    exact ⟨hpos,hlt,hsize,fun d hd hl => hothers d hd ((Live.congr h).1 hl)⟩
  | eventAdd e flags => trivial
  | eventDel e flags => trivial
  | destroy e => trivial

/-- What an operation does to the events does not depend on the backend. -/
theorem Kept.same_events (hw : Kept B w) (hw' : Kept B' w') (hB : B.Sound) (hB' : B'.Sound)
    (heq : w'.events = w.events) (op : EventOp) (hop : w.Proper op) (hop' : w'.Proper op) :
    (op.apply B' w').events = (op.apply B w).events := by
  cases op with
  | set e fd flags =>
    rw [EventOp.apply,EventOp.apply,EventWorld.eventSet,EventWorld.eventSet]
    split_ifs
    · change Function.update _ _ _ = Function.update _ _ _
      rw [heq]
    · exact heq
  | add e =>
    have hev := hw.add_event hB hop
    have hev' := hw'.add_event hB' hop'
    change Function.update _ _ _ = Function.update _ _ _
    rw [hev,hev',heq]
  | eventAdd e flags =>
    rw [EventOp.apply,EventOp.apply,EventWorld.eventAdd,EventWorld.eventAdd,heq]
    split_ifs with hadd
    · change Function.update _ _ _ = Function.update _ _ _
      rw [hw.update_event hB hadd.1,← heq,hw'.update_event hB' ((EventWorld.Live.congr heq).2 hadd.1)]
    · exact heq
  | eventDel e flags =>
    rw [EventOp.apply,EventOp.apply,EventWorld.eventDel,EventWorld.eventDel,heq]
    split_ifs with hdel
    · change Function.update _ _ _ = Function.update _ _ _
      rw [hw.update_event hB hdel.1,← heq,hw'.update_event hB' ((EventWorld.Live.congr heq).2 hdel.1)]
    · exact heq
  | destroy e =>
    rw [EventOp.apply,EventOp.apply,EventWorld.eventDestroy,EventWorld.eventDestroy,heq]
    split_ifs
    · change Function.update _ _ _ = Function.update _ _ _
      rw [heq]
    · change Function.update _ _ _ = Function.update _ _ _
      rw [heq]

end SameEvents

/-- The invariant of the three bases. -/
structure EventBases.Inv (w : EventBases) : Prop where
  poll_events : w.poll.events = w.select.events
  epoll_events : w.epoll.events = w.select.events
  select : Kept evselect w.select
  poll : Kept evpoll w.poll
  epoll : Kept evepoll w.epoll

theorem EventBases.Inv.step {w : EventBases} (h : w.Inv) (op : EventOp) (hop : w.Proper op) :
    (w.apply op).Inv where
  poll_events := h.select.same_events h.poll evselect_sound evpoll_sound h.poll_events op hop
    (hop.congr h.poll_events)
  epoll_events := h.select.same_events h.epoll evselect_sound evepoll_sound h.epoll_events op hop
    (hop.congr h.epoll_events)
  select := h.select.step evselect_sound op hop
  poll := h.poll.step evpoll_sound op (hop.congr h.poll_events)
  epoll := h.epoll.step evepoll_sound op (hop.congr h.epoll_events)

theorem EventBases.init_inv (events : ℕ → Event) : (EventBases.init events).Inv :=
  ⟨rfl,rfl,Kept.init evselect_sound events,Kept.init evpoll_sound events,
    Kept.init evepoll_sound events⟩

/-- The select, poll and epoll backends keep the same registered interest through every run. -/
theorem event_backends_agree (events : ℕ → Event) {ops : List EventOp} {w : EventBases}
    (run : Run (Guarded EventBases.Proper (ofFun EventBases.apply)) (.init events) ops w) :
    w.Agree := by
  have hinv : w.Inv := by
    apply run.invariant EventBases.Inv (EventBases.init_inv events)
    rintro a op b ha ⟨hop,rfl⟩
    exact ha.step op hop
  exact ⟨hinv.poll_events,hinv.epoll_events,hinv.select.registered,hinv.poll.registered,
    hinv.epoll.registered⟩

/-- A descriptor that is handed on from one event to another. -/
theorem event_backends_agree_reused : EventBases.Agree
    ([EventOp.set 1 5 E_READ,.add 1,.eventAdd 1 E_WRITE,.destroy 1,.set 2 5 E_WRITE,.add 2].foldl
      EventBases.apply (.init fun _ => ⟨0,0,0,false⟩)) := by
  apply event_backends_agree (fun _ => ⟨0,0,0,false⟩)
  apply Allowed.run
  refine ⟨?_,?_,trivial,trivial,?_,?_,trivial⟩
  · change ¬ _ = true
    decide
  · refine ⟨by decide,by decide,by decide,fun d hd hl => ?_⟩
    rw [EventWorld.Live,EventBases.apply,EventOp.apply_other _ _ hd] at hl
    cases hl
  · change ¬ _ = true
    decide
  · refine ⟨by decide,by decide,by decide,fun d hd hl => ?_⟩
    by_cases hd1 : d = 1
    · subst hd1
      exact absurd hl (by change ¬ _ = true; decide)
    · simp only [EventWorld.Live,EventBases.apply] at hl
      rw [EventOp.apply_other _ _ hd,EventOp.apply_other _ _ hd1,EventOp.apply_other _ _ hd1,
        EventOp.apply_other _ _ hd1,EventOp.apply_other _ _ hd1] at hl
      cases hl

end Sbase
