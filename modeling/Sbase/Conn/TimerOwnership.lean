import Sbase.Lib.Runs
import Sbase.Conn.Timeout

/-! Who owns which timer: a connection's `evid` names an allocated node whose argument is that
connection, as long as no client transaction ends while its timeout is still set. -/
namespace Sbase
open LinkedList EvTimer TimerWorld Runs

section
variable {t t' : EvTimer EvtHandler Owner} {evid : ℤ} {o o' : Owner}

/-- The timer's lists are in order, whatever they hold. -/
def TimerSound (t : EvTimer EvtHandler Owner) : Prop :=
  ∃ stamp clock active free, Timed t stamp clock active free none

/-- The id belongs to an allocated node that `o` set. -/
def OwnedBy (t : EvTimer EvtHandler Owner) (evid : ℤ) (o : Owner) : Prop :=
  ∃ i : ℕ, evid = i ∧ InRange i ∧ t.ison i = true ∧ (t.nodes i).arg = some o

/-- No allocated node of another owner than `o` is updated, deleted or re-targeted. -/
def Spares (t t' : EvTimer EvtHandler Owner) (o : Owner) : Prop :=
  ∀ i, t.ison i = true → (t.nodes i).arg ≠ some o → t'.content i = t.content i

theorem Spares.refl (t : EvTimer EvtHandler Owner) (o : Owner) : Spares t t o := fun _ _ _ => rfl

theorem Spares.ownedBy (h : Spares t t' o) (hne : o' ≠ o) (ho : OwnedBy t evid o') :
    OwnedBy t' evid o' := by
  obtain ⟨i, rfl, hr, hon, harg⟩ := ho
  have hc := h i hon (by rw [harg]; simpa using hne)
  exact ⟨i, rfl, hr, by rw [ison_eq_of_content hc, hon], by rw [arg_eq_of_content hc, harg]⟩

theorem Spares.trans {t'' : EvTimer EvtHandler Owner} (h : Spares t t' o) (h' : Spares t' t'' o) :
    Spares t t'' o := by
  intro i hon hne
  have hc := h i hon hne
  rw [← hc]
  apply h' i
  · rw [ison_eq_of_content hc, hon]
  · rw [arg_eq_of_content hc]
    exact hne

theorem OwnedBy.of_content {i : ℕ} {handler : Option EvtHandler} {evusec : ℤ} (hr : InRange i)
    (hc : t.content i = armed i evusec handler (some o)) : OwnedBy t i o :=
  ⟨i, rfl, hr, congrArg EvtNode.ison hc, congrArg EvtNode.arg hc⟩

/-- Setting a new timer leaves every other one alone. -/
theorem add_spares (o o' : Owner) (hs : TimerSound t) (now timeout : ℤ) (handler : Option EvtHandler) :
    TimerSound (evtimerAdd t now timeout handler (some o)).1 ∧
      Spares t (evtimerAdd t now timeout handler (some o)).1 o' ∧
      (0 ≤ (evtimerAdd t now timeout handler (some o)).2 →
        OwnedBy (evtimerAdd t now timeout handler (some o)).1
          (evtimerAdd t now timeout handler (some o)).2 o) := by
  obtain ⟨stamp, clock, active, free, h⟩ := hs
  rcases h.add now timeout handler (some o) with
    ⟨heq, -⟩ | ⟨i, as, bs, rest, -, rfl, hret, hadd, hi, hj⟩
  · rw [heq]
    exact ⟨⟨_, _, _, _, h⟩, Spares.refl t o', by simp⟩
  · obtain ⟨hr, hoff⟩ := h.free_off i (by simp)
    refine ⟨⟨_, _, _, _, hadd⟩, ?_, ?_⟩
    · intro j hon _
      apply hj
      rintro rfl
      rw [hoff] at hon
      cases hon
    · intro _
      rw [hret]
      exact OwnedBy.of_content hr hi

/-- Updating a timer of one's own leaves every other one alone. -/
theorem update_spares (hs : TimerSound t) (ho : 0 < evid → OwnedBy t evid o) (now timeout : ℤ)
    (handler : Option EvtHandler) :
    TimerSound (evtimerUpdate t evid now timeout handler (some o)).1 ∧
      Spares t (evtimerUpdate t evid now timeout handler (some o)).1 o ∧
      (0 < evid → OwnedBy (evtimerUpdate t evid now timeout handler (some o)).1 evid o) := by
  obtain ⟨stamp, clock, active, free, h⟩ := hs
  rcases h.update evid now timeout handler (some o) with
    ⟨heq, -⟩ | ⟨i, as, bs, rfl, hr, hon, -, -, hupdate, hi, hj⟩
  · rw [heq]
    exact ⟨⟨_, _, _, _, h⟩, Spares.refl t o, ho⟩
  · obtain ⟨k, hk, -, -, harg⟩ := ho (by exact_mod_cast hr.1)
    obtain rfl : i = k := by exact_mod_cast hk
    refine ⟨⟨_, _, _, _, hupdate⟩, ?_, fun _ => OwnedBy.of_content hr hi⟩
    intro j _ hne
    apply hj
    rintro rfl
    exact hne harg

/-- Deleting a timer of one's own leaves every other one alone. -/
theorem delete_spares (hs : TimerSound t) (ho : 0 < evid → OwnedBy t evid o) :
    TimerSound (evtimerDelete t evid).1 ∧ Spares t (evtimerDelete t evid).1 o := by
  obtain ⟨stamp, clock, active, free, h⟩ := hs
  rcases h.delete evid with ⟨heq, -⟩ | ⟨i, rfl, hr, hon, hdelete, hj⟩
  · rw [heq]
    exact ⟨⟨_, _, _, _, h⟩, Spares.refl t o⟩
  · obtain ⟨k, hk, -, -, harg⟩ := ho (by exact_mod_cast hr.1)
    obtain rfl : i = k := by exact_mod_cast hk
    refine ⟨⟨_, _, _, _, hdelete⟩, ?_⟩
    intro j _ hne
    apply hj
    rintro rfl
    exact hne harg

end

/-- Each connection with an id owns its node, and so does the service once it runs. -/
structure Owned (w : TimerWorld) : Prop where
  conn : ∀ c, (w.conns c).evtimer = true → 0 ≤ (w.conns c).evid →
    OwnedBy w.timer (w.conns c).evid (.conn c)
  service : 0 < w.evid → OwnedBy w.timer w.evid .service

/-- The timer is in order and every id in it is owned. -/
structure TimerInv (w : TimerWorld) : Prop where
  sound : TimerSound w.timer
  owned : Owned w

/-- A step on behalf of the connection `c`: it leaves the other connections, their timers and the
service alone, and `c` owns its node afterwards. -/
structure ConnStep (c : ℕ) (w w' : TimerWorld) : Prop where
  sound : TimerSound w'.timer
  others : ∀ d, d ≠ c → w'.conns d = w.conns d
  evid_eq : w'.evid = w.evid
  spares : Spares w.timer w'.timer (.conn c)
  owned : (w'.conns c).evtimer = true → 0 ≤ (w'.conns c).evid →
    OwnedBy w'.timer (w'.conns c).evid (.conn c)

section
variable {w w' w'' : TimerWorld} {c : ℕ}

theorem TimerInv.refl (h : TimerInv w) (c : ℕ) : ConnStep c w w :=
  ⟨h.sound, fun _ _ => rfl, rfl, Spares.refl _ _, h.owned.conn c⟩

theorem ConnStep.trans (h : ConnStep c w w') (h' : ConnStep c w' w'') : ConnStep c w w'' :=
  ⟨h'.sound, fun d hd => (h'.others d hd).trans (h.others d hd), h'.evid_eq.trans h.evid_eq,
    h.spares.trans h'.spares, h'.owned⟩

/-- The step lemma: a step of one connection keeps the ownership of all. -/
theorem ConnStep.inv (h : ConnStep c w w') (hw : TimerInv w) : TimerInv w' := by
  refine ⟨h.sound, ⟨?_, ?_⟩⟩
  · intro d hset hid
    by_cases hd : d = c
    · subst hd
      exact h.owned hset hid
    · rw [h.others d hd] at hset hid ⊢
      exact h.spares.ownedBy (by simpa using hd) (hw.owned.conn d hset hid)
  · intro hpos
    rw [h.evid_eq] at hpos ⊢
    exact h.spares.ownedBy (by simp) (hw.owned.service hpos)

@[simp] theorem modify_timer (w : TimerWorld) (c : ℕ) (f) : (w.modify c f).timer = w.timer := rfl
@[simp] theorem modify_evid (w : TimerWorld) (c : ℕ) (f) : (w.modify c f).evid = w.evid := rfl
@[simp] theorem modify_conns_self (w : TimerWorld) (c : ℕ) (f) :
    (w.modify c f).conns c = f (w.conns c) := Function.update_self ..
theorem modify_conns_of_ne (w : TimerWorld) {c d : ℕ} (h : d ≠ c) (f) :
    (w.modify c f).conns d = w.conns d := Function.update_of_ne h ..

/-- An assignment that keeps the timer id, or clears it. -/
theorem TimerInv.modify (h : TimerInv w) (c : ℕ) {f : TimerConn → TimerConn}
    (hf : (f (w.conns c)).evid < 0 ∨
      (f (w.conns c)).evid = (w.conns c).evid ∧ (f (w.conns c)).evtimer = (w.conns c).evtimer) :
    ConnStep c w (w.modify c f) := by
  refine ⟨h.sound, fun d hd => modify_conns_of_ne w hd f, rfl, Spares.refl _ _, ?_⟩
  rw [modify_conns_self]
  intro hset hid
  rcases hf with hneg | ⟨hevid, hevtimer⟩
  · omega
  · rw [hevid] at hid ⊢
    rw [hevtimer] at hset
    exact h.owned.conn c hset hid

theorem TimerInv.ownedBy (h : TimerInv w) (hset : (w.conns c).evtimer = true) :
    0 < (w.conns c).evid → OwnedBy w.timer (w.conns c).evid (.conn c) :=
  fun hpos => h.owned.conn c hset hpos.le

/-- Deleting the node of a connection, whose id must then be cleared. -/
theorem TimerInv.evtimerDel (h : TimerInv w) (c : ℕ) {f : TimerConn → TimerConn}
    (hf : (f (w.conns c)).evid < 0) : ConnStep c w ((w.evtimerDel c).modify c f) := by
  unfold TimerWorld.evtimerDel
  split_ifs with hset
  · obtain ⟨hsound, hspares⟩ := delete_spares h.sound (h.ownedBy hset)
    refine ⟨hsound, fun d hd => modify_conns_of_ne _ hd f, rfl, hspares, ?_⟩
    rw [modify_conns_self]
    intro _ hid
    exact absurd hf (not_lt.mpr hid)
  · exact h.modify c (Or.inl hf)

theorem TimerInv.connEvtimerSet (h : TimerInv w) (c : ℕ) (now : ℤ) :
    ConnStep c w (w.connEvtimerSet c now) := by
  unfold TimerWorld.connEvtimerSet
  dsimp only
  split_ifs with hset hid
  · have ho := h.owned.conn c hset.1 hid
    obtain ⟨hsound, hspares, howned⟩ := update_spares h.sound (h.ownedBy hset.1) now
      (w.conns c).timeout (some .connEvtimerHandler)
    refine ⟨hsound, fun _ _ => rfl, rfl, hspares, fun _ _ => howned ?_⟩
    obtain ⟨i, hi, hr, -⟩ := ho
    rw [hi]
    exact_mod_cast hr.1
  · obtain ⟨hsound, hspares, howned⟩ := add_spares (.conn c) (.conn c) h.sound now
      (w.conns c).timeout (some .connEvtimerHandler)
    refine ⟨hsound, fun d hd => modify_conns_of_ne _ hd _, rfl, hspares, ?_⟩
    rw [modify_conns_self]
    exact fun _ hid => howned hid
  · exact h.refl c

theorem TimerInv.connSetTimeout (h : TimerInv w) (c : ℕ) (timeoutUsec now : ℤ) :
    ConnStep c w (w.connSetTimeout c timeoutUsec now) := by
  unfold TimerWorld.connSetTimeout
  split_ifs
  · exact h.refl c
  · have hstep := h.modify c (f := fun d => { d with timeout := timeoutUsec }) (Or.inr ⟨rfl, rfl⟩)
    exact hstep.trans ((hstep.inv h).connEvtimerSet c now)
  · exact h.refl c

theorem TimerInv.connWaitEvtimeout (h : TimerInv w) (c : ℕ) (timeoutUsec now : ℤ) :
    ConnStep c w (w.connWaitEvtimeout c timeoutUsec now) := by
  unfold TimerWorld.connWaitEvtimeout
  split_ifs
  · exact h.refl c
  · have hstep := h.modify c (f := fun d => { d with evstate := EVSTATE_WAIT, timeout := timeoutUsec })
      (Or.inr ⟨rfl, rfl⟩)
    exact hstep.trans ((hstep.inv h).connEvtimerSet c now)
  · exact h.refl c

theorem TimerInv.connOverTimeout (h : TimerInv w) (c : ℕ) : ConnStep c w (w.connOverTimeout c) := by
  unfold TimerWorld.connOverTimeout
  dsimp only
  split_ifs
  · exact h.refl c
  · exact h.evtimerDel c (by simp)
  · exact h.modify c (Or.inl (by simp))

theorem TimerInv.connStartCstate (h : TimerInv w) (c : ℕ) : ConnStep c w (w.connStartCstate c) := by
  unfold TimerWorld.connStartCstate
  split_ifs
  · exact h.refl c
  · exact h.modify c (Or.inr ⟨rfl, rfl⟩)
  · exact h.refl c

theorem TimerInv.connShut (h : TimerInv w) (c dState : ℕ) : ConnStep c w (w.connShut c dState) := by
  unfold TimerWorld.connShut
  have hover := h.connOverTimeout c
  dsimp only
  split_ifs
  · exact h.refl c
  · exact hover.trans ((hover.inv h).modify c (Or.inr ⟨rfl, rfl⟩))
  · exact hover

theorem TimerInv.connTimeoutHandler (h : TimerInv w) (c : ℕ) :
    ConnStep c w (w.connTimeoutHandler c) := by
  unfold TimerWorld.connTimeoutHandler
  dsimp only
  split_ifs
  · exact h.refl c
  · have hstep := h.modify c (f := fun d => { d with evstate := EVSTATE_INIT }) (Or.inr ⟨rfl, rfl⟩)
    exact hstep.trans ((hstep.inv h).connOverTimeout c)
  · exact h.refl c
  · exact h.connShut c D_STATE_CLOSE
  · exact h.refl c

theorem TimerInv.terminate (h : TimerInv w) (c : ℕ) :
    ConnStep c w (w.procthreadTerminateConnection c) := by
  have hclose := h.modify c (f := fun d => { d with dState := D_STATE_CLOSE }) (Or.inr ⟨rfl, rfl⟩)
  have hdel := (hclose.inv h).evtimerDel c (f := fun _ => { TimerConn.zero with evid := -1 }) (by simp)
  have heq : w.procthreadTerminateConnection c =
      (((w.modify c fun d => { d with dState := D_STATE_CLOSE }).evtimerDel c).modify c
        fun _ => { TimerConn.zero with evid := -1 }) := by
    simp [procthreadTerminateConnection, connTerminate, connReset, TimerWorld.modify]
  rw [heq]
  exact hclose.trans hdel

theorem TimerInv.serviceAddconn (h : TimerInv w) (c : ℕ) (fd : ℤ) (session : TimeoutSession)
    (now : ℤ) : ConnStep c w (w.serviceAddconn c fd session now) := by
  unfold TimerWorld.serviceAddconn
  have hstep := h.modify c (f := fun d =>
    { d with fd := fd, evtimer := true, session := session, evid := -1 }) (Or.inl (by simp))
  dsimp only
  split_ifs
  · exact hstep.trans ((hstep.inv h).connSetTimeout c _ now)
  · exact hstep
  · exact h.refl c

/-- Ending a client transaction deletes the node of the connection but keeps its id. -/
theorem TimerInv.overCstate_spares (h : TimerInv w) (c : ℕ) :
    TimerSound (w.connOverCstate c).timer ∧ Spares w.timer (w.connOverCstate c).timer (.conn c) ∧
      (w.connOverCstate c).evid = w.evid ∧
      (∀ d, d ≠ c → (w.connOverCstate c).conns d = w.conns d) ∧
      ((w.connOverCstate c).conns c).evid = (w.conns c).evid := by
  unfold connOverCstate TimerWorld.evtimerDel
  simp only [modify_conns_self]
  split_ifs with hclose hset
  · exact ⟨h.sound, Spares.refl _ _, rfl, fun _ _ => rfl, rfl⟩
  · obtain ⟨hsound, hspares⟩ := delete_spares h.sound (h.ownedBy hset)
    exact ⟨hsound, hspares, rfl, fun d hd => Function.update_of_ne hd _ _, by simp⟩
  · exact ⟨h.sound, Spares.refl _ _, rfl, fun d hd => modify_conns_of_ne _ hd _, by simp⟩

/-- It is harmless on a connection that is closing or has no id. -/
theorem TimerInv.overCstate (h : TimerInv w) {c : ℕ}
    (hc : closing (w.conns c).dState = true ∨ (w.conns c).evid < 0) :
    ConnStep c w (w.connOverCstate c) := by
  rcases hc with hclose | hneg
  · have heq : w.connOverCstate c = w := if_pos hclose
    rw [heq]
    exact h.refl c
  · obtain ⟨hsound, hspares, hevid, hothers, hid⟩ := h.overCstate_spares c
    refine ⟨hsound, hothers, hevid, hspares, fun _ hpos => ?_⟩
    rw [hid] at hpos
    omega

end

/-! ### Runs -/

/-- The condition on a step: a client transaction ends, on its own or when the connection is put
back on a free list, only where the connection is closing or has no timer id. -/
def KeepsTimer (w : TimerWorld) : TimerStep → Prop
  | .overCstate c => closing (w.conns c).dState = true ∨ (w.conns c).evid < 0
  | .freeconn c .pooled => closing (w.conns c).dState = true ∨ (w.conns c).evid < 0
  | _ => True

/-- On whose behalf a step acts. -/
def TimerStep.owner : TimerStep → Option Owner
  | .addconn c _ _ _ | .setTimeout c _ _ | .waitEvtimeout c _ _ | .overTimeout c | .overCstate c
  | .getconn c | .freeconn c _ | .timeout c | .close c | .terminate c => some (.conn c)
  | .run _ _ | .heartbeat _ => some .service
  | .fire _ => none

theorem TimerInv.serviceRun {w : TimerWorld} (h : TimerInv w) (interval now : ℤ) :
    TimerInv (w.serviceRun interval now) ∧
      Spares w.timer (w.serviceRun interval now).timer .service := by
  obtain ⟨hsound, hspares, howned⟩ := add_spares .service .service h.sound now
    interval (some .serviceEvtimerHandler)
  refine ⟨⟨hsound, ⟨?_, fun hpos => howned hpos.le⟩⟩, hspares⟩
  intro c hset hid
  exact hspares.ownedBy (by simp) (h.owned.conn c hset hid)

theorem TimerInv.heartbeat {w : TimerWorld} (h : TimerInv w) (now : ℤ) :
    TimerInv (w.serviceActiveHeartbeat now) ∧
      Spares w.timer (w.serviceActiveHeartbeat now).timer .service := by
  obtain ⟨hsound, hspares, howned⟩ := update_spares h.sound h.owned.service now
    w.heartbeatInterval (some .serviceEvtimerHandler)
  refine ⟨⟨hsound, ⟨?_, howned⟩⟩, hspares⟩
  intro c hset hid
  exact hspares.ownedBy (by simp) (h.owned.conn c hset hid)

theorem TimerInv.fire {w : TimerWorld} (h : TimerInv w) (now : ℤ) :
    TimerInv { w with timer := evtimerCheckLocked w.timer now } ∧
      ∀ i, (evtimerCheckLocked w.timer now).content i = w.timer.content i := by
  obtain ⟨stamp, clock, active, free, ht⟩ := h.sound
  obtain ⟨hcheck, -, hsame⟩ := ht.check now
  have hspares : ∀ o, Spares w.timer (evtimerCheckLocked w.timer now) o := fun o i _ _ => hsame i
  refine ⟨⟨⟨_, _, _, _, hcheck⟩, ⟨?_, ?_⟩⟩, hsame⟩
  · intro c hset hid
    exact (hspares .service).ownedBy (by simp) (h.owned.conn c hset hid)
  · intro hpos
    exact (hspares (.conn 0)).ownedBy (by simp) (h.owned.service hpos)

/-- A step that meets the condition keeps every timer with its owner. -/
theorem TimerInv.step {w : TimerWorld} (h : TimerInv w) (s : TimerStep) (hs : KeepsTimer w s) :
    TimerInv (s.apply w) := by
  cases s with
  | addconn c fd session now => exact (h.serviceAddconn c fd session now).inv h
  | setTimeout c timeoutUsec now => exact (h.connSetTimeout c timeoutUsec now).inv h
  | waitEvtimeout c timeoutUsec now => exact (h.connWaitEvtimeout c timeoutUsec now).inv h
  | overTimeout c => exact (h.connOverTimeout c).inv h
  | overCstate c => exact (h.overCstate hs).inv h
  | getconn c => exact (h.connStartCstate c).inv h
  | freeconn c disposal =>
    cases disposal with
    | close => exact (h.connShut c D_STATE_CLOSE).inv h
    | pooled => exact (h.overCstate hs).inv h
    | full => exact h
  | timeout c => exact (h.connTimeoutHandler c).inv h
  | close c => exact (h.connShut c D_STATE_CLOSE).inv h
  | terminate c => exact (h.terminate c).inv h
  | run interval now => exact (h.serviceRun interval now).1
  | heartbeat now => exact (h.heartbeat now).1
  | fire now => exact (h.fire now).1

/-- No step, whatever it is, touches a node that another owner than its own has set. -/
theorem TimerInv.step_spares {w : TimerWorld} (h : TimerInv w) (s : TimerStep) (i : ℕ)
    (hon : w.timer.ison i = true) (hne : ∀ o, s.owner = some o → (w.timer.nodes i).arg ≠ some o) :
    (s.apply w).timer.content i = w.timer.content i := by
  cases s with
  | addconn c fd session now => exact (h.serviceAddconn c fd session now).spares i hon (hne _ rfl)
  | setTimeout c timeoutUsec now => exact (h.connSetTimeout c timeoutUsec now).spares i hon (hne _ rfl)
  | waitEvtimeout c timeoutUsec now =>
    exact (h.connWaitEvtimeout c timeoutUsec now).spares i hon (hne _ rfl)
  | overTimeout c => exact (h.connOverTimeout c).spares i hon (hne _ rfl)
  | overCstate c => exact (h.overCstate_spares c).2.1 i hon (hne _ rfl)
  | getconn c => exact (h.connStartCstate c).spares i hon (hne _ rfl)
  | freeconn c disposal =>
    cases disposal with
    | close => exact (h.connShut c D_STATE_CLOSE).spares i hon (hne _ rfl)
    | pooled => exact (h.overCstate_spares c).2.1 i hon (hne _ rfl)
    | full => rfl
  | timeout c => exact (h.connTimeoutHandler c).spares i hon (hne _ rfl)
  | close c => exact (h.connShut c D_STATE_CLOSE).spares i hon (hne _ rfl)
  | terminate c => exact (h.terminate c).spares i hon (hne _ rfl)
  | run interval now => exact (h.serviceRun interval now).2 i hon (hne _ rfl)
  | heartbeat now => exact (h.heartbeat now).2 i hon (hne _ rfl)
  | fire now => exact (h.fire now).2 i

theorem TimerWorld.init_inv : TimerInv TimerWorld.init := by
  refine ⟨⟨fun _ => 0, 0, _, _, evtimerInit_timed _ _⟩, ⟨?_, ?_⟩⟩
  · intro c hset
    cases hset
  · intro hpos
    cases hpos

theorem timerInv_of_run {ls : List TimerStep} {w : TimerWorld}
    (h : Run (Guarded KeepsTimer (ofFun fun w s => TimerStep.apply w s)) .init ls w) :
    TimerInv w := by
  refine h.invariant TimerInv TimerWorld.init_inv ?_
  rintro a l b ha ⟨hguard, rfl⟩
  exact ha.step l hguard

/-- In every run that meets the condition, each connection with an id owns its node, and no
further step touches the timer of anyone else. -/
theorem timer_ownership {ls : List TimerStep} {w : TimerWorld}
    (h : Run (Guarded KeepsTimer (ofFun fun w s => TimerStep.apply w s)) .init ls w) :
    Owned w ∧ ∀ (s : TimerStep) (i : ℕ), w.timer.ison i = true →
      (∀ o, s.owner = some o → (w.timer.nodes i).arg ≠ some o) →
      (s.apply w).timer.content i = w.timer.content i :=
  ⟨(timerInv_of_run h).owned, (timerInv_of_run h).step_spares⟩

/-- Two connections on one timer, the first of which ends a client transaction before it sets its
timeout. -/
theorem timer_ownership_two :
    Owned ([.addconn 1 5 ⟨0,false,false⟩ 0, .overCstate 1, .addconn 2 6 ⟨3000,false,false⟩ 0,
      .setTimeout 1 1000 0, .fire 5000].foldl TimerStep.apply TimerWorld.init) := by
  refine (timer_ownership (Allowed.run ?_)).1
  refine ⟨trivial, Or.inr ?_, trivial, trivial, trivial, trivial⟩
  decide

/-- After a node is set, deleted and set again for another owner, an update through the first id
re-targets it. -/
theorem recycled_id {t : EvTimer EvtHandler Owner} {stamp : ℕ → ℕ} {clock i : ℕ}
    {active rest : List ℕ} (h : Timed t stamp clock active (i::rest) none) (o o' : Owner)
    (hne : o ≠ o') :
    let a := evtimerAdd t 0 1000 (some .connEvtimerHandler) (some o)
    let b := evtimerAdd (evtimerDelete a.1 a.2).1 0 1000 (some .connEvtimerHandler) (some o')
    0 ≤ a.2 ∧ b.2 = a.2 ∧
      ¬ OwnedBy (evtimerUpdate b.1 a.2 0 1000 (some .connEvtimerHandler) (some o)).1 b.2 o' := by
  intro a b
  have hr := (h.free_off i (by simp)).1
  obtain ⟨-, hbad⟩ | ⟨j, as, bs, rest', -, hcons, ha, hadd, hacontent, -⟩ :=
    h.add 0 1000 (some .connEvtimerHandler) (some o)
  · simp at hbad
  obtain ⟨rfl, rfl⟩ := List.cons.inj hcons
  have haon : a.1.ison i = true := congrArg EvtNode.ison hacontent
  have ha' : a.2 = i := ha
  obtain ⟨-, hoff⟩ | ⟨j, hj, -, -, hdelete, -⟩ := hadd.delete a.2
  · rw [hoff i ha' hr] at haon
    cases haon
  obtain rfl : i = j := by exact_mod_cast ha'.symm.trans hj
  obtain ⟨-, hbad⟩ | ⟨k, cs, ds, rest'', -, hcons', hb, hadd', hbcontent, -⟩ :=
    hdelete.add 0 1000 (some .connEvtimerHandler) (some o')
  · simp at hbad
  obtain ⟨rfl, rfl⟩ := List.cons.inj hcons'
  have hb' : b.2 = i := hb
  refine ⟨by rw [ha']; exact Int.natCast_nonneg i, hb'.trans ha'.symm, ?_⟩
  rintro ⟨k, hk, -, -, harg⟩
  obtain rfl : i = k := by exact_mod_cast hb'.symm.trans hk
  have hbon : b.1.ison i = true := congrArg EvtNode.ison hbcontent
  obtain ⟨-, hoff⟩ | ⟨j, -, -, hj, -, -, -, -, -, hcontent, -⟩ :=
    hadd'.update a.2 0 1000 (some .connEvtimerHandler) (some o)
  · rw [hoff i ha' hr] at hbon
    cases hbon
  obtain rfl : i = j := by exact_mod_cast ha'.symm.trans hj
  have hown := congrArg EvtNode.arg hcontent
  exact hne (Option.some.inj (hown.symm.trans harg))

/-- The connection is in use, not closing, and has the timer id `evid`. -/
def OpenWith (w : TimerWorld) (c : ℕ) (evid : ℤ) : Prop :=
  closing (w.conns c).dState = false ∧ (w.conns c).evtimer = true ∧ (w.conns c).evid = evid

theorem OpenWith.of_eq {w w' : TimerWorld} {c : ℕ} {evid : ℤ} (h : OpenWith w c evid)
    (heq : w'.conns c = w.conns c) : OpenWith w' c evid := by
  unfold OpenWith
  rw [heq]
  exact h

theorem OpenWith.add {w : TimerWorld} {c : ℕ} {evid : ℤ} (h : OpenWith w c evid) (hneg : evid < 0) :
    let r := evtimerAdd w.timer 0 1000 (some .connEvtimerHandler) (some (.conn c))
    (w.connSetTimeout c 1000 0).timer = r.1 ∧ OpenWith (w.connSetTimeout c 1000 0) c r.2 ∧
      ∀ d, d ≠ c → (w.connSetTimeout c 1000 0).conns d = w.conns d := by
  obtain ⟨hc, ht, rfl⟩ := h
  refine ⟨?_, ⟨?_, ?_, ?_⟩, fun d hd => ?_⟩
  · simp [connSetTimeout, connEvtimerSet, hc, ht, not_le.mpr hneg]
  · simp [connSetTimeout, connEvtimerSet, hc, ht, not_le.mpr hneg]
  · simp [connSetTimeout, connEvtimerSet, hc, ht, not_le.mpr hneg]
  · simp [connSetTimeout, connEvtimerSet, hc, ht, not_le.mpr hneg]
  · simp [connSetTimeout, connEvtimerSet, hc, ht, not_le.mpr hneg, TimerWorld.modify, hd]

theorem OpenWith.update {w : TimerWorld} {c : ℕ} {evid : ℤ} (h : OpenWith w c evid)
    (hpos : 0 ≤ evid) :
    (w.connSetTimeout c 1000 0).timer = (evtimerUpdate w.timer evid 0 1000
      (some .connEvtimerHandler) (some (.conn c))).1 ∧
      ∀ d, d ≠ c → (w.connSetTimeout c 1000 0).conns d = w.conns d := by
  obtain ⟨hc, ht, rfl⟩ := h
  refine ⟨by simp [connSetTimeout, connEvtimerSet, hc, ht, hpos], fun d hd => ?_⟩
  simp [connSetTimeout, connEvtimerSet, hc, ht, hpos, modify_conns_of_ne _ hd]

theorem OpenWith.overCstate {w : TimerWorld} {c : ℕ} {evid : ℤ} (h : OpenWith w c evid) :
    (w.connOverCstate c).timer = (evtimerDelete w.timer evid).1 ∧
      OpenWith (w.connOverCstate c) c evid ∧
      ∀ d, d ≠ c → (w.connOverCstate c).conns d = w.conns d := by
  obtain ⟨hc, ht, rfl⟩ := h
  refine ⟨by simp [connOverCstate, TimerWorld.evtimerDel, hc, ht], ?_, fun d hd => ?_⟩
  · simp [OpenWith, connOverCstate, TimerWorld.evtimerDel, hc, ht]
  · simp [connOverCstate, TimerWorld.evtimerDel, hc, ht, modify_conns_of_ne _ hd]

/-- A recycled id: the first connection keeps the id of a node that `conn_over_cstate` deleted, the
second gets the same node, and the next timeout of the first re-targets it. -/
theorem timer_hijacked :
    ¬ ∀ ls w, Run (ofFun fun w s => TimerStep.apply w s) TimerWorld.init ls w → Owned w := by
  intro hall
  obtain ⟨rest, hrest⟩ : ∃ rest, (List.range' 1 (EVTNODE_MAX - 1)).reverse = 65535::rest :=
    ⟨(List.range' 1 65534).reverse, by rw [← List.reverse_concat, ← List.range'_1_concat]; rfl⟩
  have hinit := evtimerInit_timed (H := EvtHandler) (A := Owner) (fun _ => 0) 0
  rw [hrest] at hinit
  obtain ⟨hpos, heq, hnot⟩ := recycled_id hinit (.conn 1) (.conn 2) (by simp)
  have howned := hall [.addconn 1 5 ⟨0,false,false⟩ 0, .addconn 2 6 ⟨0,false,false⟩ 0,
    .setTimeout 1 1000 0, .overCstate 1, .setTimeout 2 1000 0, .setTimeout 1 1000 0] _
    (run_ofFun_iff.mpr rfl)
  simp only [List.foldl_cons, List.foldl_nil] at howned
  generalize hw₀ : TimerStep.apply (TimerStep.apply TimerWorld.init (.addconn 1 5 ⟨0,false,false⟩ 0))
    (.addconn 2 6 ⟨0,false,false⟩ 0) = w₀ at howned
  have ht₀ : w₀.timer = evtimerInit := by subst hw₀; rfl
  have h₁ : OpenWith w₀ 1 (-1) := by subst hw₀; exact ⟨rfl, rfl, rfl⟩
  have h₂ : OpenWith w₀ 2 (-1) := by subst hw₀; exact ⟨rfl, rfl, rfl⟩
  obtain ⟨ht₁, h₁', hsame₁⟩ := h₁.add (by decide)
  obtain ⟨ht₂, h₁'', hsame₂⟩ := h₁'.overCstate
  have h₂' := (h₂.of_eq (hsame₁ 2 (by decide))).of_eq (hsame₂ 2 (by decide))
  obtain ⟨ht₃, h₂'', hsame₃⟩ := h₂'.add (by decide)
  rw [ht₀] at ht₁ h₁'' ht₂
  rw [ht₂, ht₁] at ht₃ h₂''
  obtain ⟨ht₄, hsame₄⟩ := (h₁''.of_eq (hsame₃ 1 (by decide))).update hpos
  obtain ⟨-, hset, hid⟩ := h₂''.of_eq (hsame₄ 2 (by decide))
  simp only [TimerStep.apply] at howned
  have hbad := howned.conn 2 hset (by rw [hid, heq]; exact hpos)
  rw [hid] at hbad
  apply hnot
  rw [ht₃] at ht₄
  rw [← ht₄]
  exact hbad

end Sbase
