import Sbase.Service.Table

/-! The pool of a client service without groups over any sequence of operations: the entries of its
free list, their number, and the connections handed out to callers. -/
namespace Sbase
open Slots Runs

namespace ServiceConn

/-- The fields of a connection by which the pool finds it, left as they are. -/
structure SameLinks (c d : ServiceConn) : Prop where
  groupid : d.groupid = c.groupid
  xindex : d.xindex = c.xindex
  cState : d.cState = c.cState

theorem connBindProxy_links (c : ServiceConn) (child : ℕ) (i : ℤ) :
    SameLinks c (c.connBindProxy child i) := by
  simp only [connBindProxy]
  split_ifs <;> exact ⟨rfl,rfl,rfl⟩

theorem grouped_congr {c d : ServiceConn} (h : d.groupid = c.groupid) : d.grouped = c.grouped := by
  simp only [grouped,h]

theorem connOverCstate_fields (c : ServiceConn) :
    c.connOverCstate.groupid = c.groupid ∧ c.connOverCstate.xindex = c.xindex := by
  simp only [connOverCstate]
  split_ifs <;> exact ⟨rfl,rfl⟩

theorem connStartCstate_fields (c : ServiceConn) :
    c.connStartCstate.groupid = c.groupid ∧ c.connStartCstate.xindex = c.xindex := by
  simp only [connStartCstate]
  split_ifs <;> exact ⟨rfl,rfl⟩

/-- An idle connection that is handed out is in use. -/
theorem connStartCstate_inUse {c : ServiceConn} (h : c.idle) :
    c.connStartCstate.cState ≠ C_STATE_FREE := by
  simp only [idle,decide_eq_true_eq] at h
  simp [connStartCstate,h.2.1,h.2.2,C_STATE_USING,C_STATE_FREE]

end ServiceConn

namespace Service

/-- The pool, its counter and the links into it, left as they are. -/
structure SamePool (s t : Service) : Prop where
  connsFree : t.connsFree = s.connsFree
  nconnsFree : t.nconnsFree = s.nconnsFree
  connsLimit : t.connsLimit = s.connsLimit
  serviceType : t.serviceType = s.serviceType
  ngroups : t.ngroups = s.ngroups
  links : ∀ c, ServiceConn.SameLinks (s.conns c) (t.conns c)

variable {s t u : Service}

theorem SamePool.refl (s : Service) : SamePool s s := ⟨rfl,rfl,rfl,rfl,rfl,fun _ => ⟨rfl,rfl,rfl⟩⟩

theorem SamePool.modify (h : SamePool s t) (c : ℕ) {f : ServiceConn → ServiceConn}
    (hf : ∀ d, ServiceConn.SameLinks d (f d)) : SamePool s (t.modify c f) := by
  refine ⟨h.connsFree,h.nconnsFree,h.connsLimit,h.serviceType,h.ngroups,fun e => ?_⟩
  by_cases he : e = c
  · subst he
    have hfe := hf (t.conns e)
    have hte := h.links e
    simp only [Service.modify,Function.update_self]
    exact ⟨hfe.groupid.trans hte.groupid,hfe.xindex.trans hte.xindex,hfe.cState.trans hte.cState⟩
  · simpa only [Service.modify,Function.update_of_ne he] using h.links e

theorem SamePool.bindParent (h : SamePool s t) (c : ℕ) : SamePool s (t.bindParent c) := by
  simp only [Service.bindParent]
  cases (t.conns c).parent with
  | none => exact h
  | some parent =>
    dsimp only
    split_ifs
    · exact h.modify _ fun d => d.connBindProxy_links _ _
    · exact h

theorem SamePool.okconn (h : SamePool s t) (c : ℕ) : SamePool s (t.serviceOkconn c) := by
  simp only [Service.serviceOkconn]
  apply SamePool.modify
  · split_ifs
    · exact ⟨h.connsFree,h.nconnsFree,h.connsLimit,h.serviceType,h.ngroups,h.links⟩
    · exact h
  · intro d; exact ⟨rfl,rfl,rfl⟩

theorem SamePool.close (h : SamePool s t) (c : ℕ) :
    SamePool s (t.modify c ServiceConn.connClose) := h.modify c fun _ => ⟨rfl,rfl,rfl⟩

end Service

/-- The conditions on the pool: its entries are pairwise distinct indexes of table connections that
are not handed out, its counter is their number, and no connection that is handed out can be handed
out again. -/
structure PoolOK (w : ServiceWorld) : Prop where
  entries : ∀ x, w.service.connsFree x ≠ 0 →
    ∃ c, w.service.connections (w.service.connsFree x) = some c ∧ c ∉ w.held
  distinct : ∀ x y, w.service.connsFree x ≠ 0 →
    w.service.connsFree x = w.service.connsFree y → x = y
  count : w.service.nconnsFree =
    Nat.count (fun x => w.service.connsFree x ≠ 0) w.service.connsLimit.toNat
  exclusive : ∀ groupid c, (w.service.serviceGetconn groupid).2 = some c → c ∉ w.held

/-- The invariant of the pool: each entry names a table connection that points back at it. -/
structure Pooled (w : ServiceWorld) : Prop where
  table : Tabled w
  cservice : w.service.serviceType = C_SERVICE
  ngroups : w.service.ngroups = 0
  ungrouped : ∀ c, (w.service.conns c).grouped = false
  limit : w.service.connectionsLimit ≤ SB_CONN_MAX
  entries : ∀ x, w.service.connsFree x ≠ 0 → (x : ℤ) < w.service.connsLimit ∧
    ∃ c, w.service.connections (w.service.connsFree x) = some c ∧
      (w.service.conns c).xindex = x ∧ c ∉ w.held
  count : w.service.nconnsFree =
    Nat.count (fun x => w.service.connsFree x ≠ 0) w.service.connsLimit.toNat
  inUse : ∀ c ∈ w.held, (w.service.conns c).cState ≠ C_STATE_FREE

namespace Pooled

variable {w : ServiceWorld} {t : Service} {c i x y : ℕ}

theorem distinct (h : Pooled w) (hx : w.service.connsFree x ≠ 0)
    (hxy : w.service.connsFree x = w.service.connsFree y) : x = y := by
  obtain ⟨-,c,hc,hcx,-⟩ := h.entries x hx
  obtain ⟨-,d,hd,hdy,-⟩ := h.entries y (hxy ▸ hx)
  rw [← hxy,hc] at hd
  cases hd
  omega

theorem pooling (h : Pooled w) : w.service.pooling := by
  simp [Service.pooling,h.cservice]

/-- What `service_getconn` does on such a service: it takes an idle connection from its slot of the
pool, or nothing. -/
theorem getconn_cases (h : Pooled w) (groupid : ℤ) :
    w.service.serviceGetconn groupid = (w.service,none) ∨
      ∃ x c, w.service.connsFree x ≠ 0 ∧ w.service.connections (w.service.connsFree x) = some c ∧
        (w.service.conns c).idle ∧
        w.service.serviceGetconn groupid = (w.service.takeFromPool c x,some c) := by
  have hpool : w.service.serviceGetconn groupid = w.service.takePool := by
    rw [Service.serviceGetconn,if_pos h.table.lock,if_neg]
    rw [h.ngroups]
    omega
  rw [hpool,Service.takePool]
  split_ifs with hpos
  · cases hx : seek (fun x => w.service.ready (w.service.connsFree x)) 0
        w.service.connsLimit.toNat with
    | none => exact .inl rfl
    | some x =>
      obtain ⟨-,-,hready⟩ := mem_of_seek hx
      simp only [Service.ready,decide_eq_true_eq] at hready
      dsimp only
      cases hc : w.service.connections (w.service.connsFree x) with
      | none => exact .inl rfl
      | some c =>
        refine .inr ⟨x,c,by omega,hc,?_,rfl⟩
        simpa [hc] using hready.2
  · exact .inl rfl

theorem ok (h : Pooled w) : PoolOK w where
  entries x hx := by
    obtain ⟨-,c,hc,-,hheld⟩ := h.entries x hx
    exact ⟨c,hc,hheld⟩
  distinct _ _ := h.distinct
  count := h.count
  exclusive groupid c hc hheld := by
    rcases h.getconn_cases groupid with hnone | ⟨x,d,-,-,hidle,hsome⟩
    · rw [hnone] at hc
      cases hc
    · rw [hsome] at hc
      cases hc
      simp only [ServiceConn.idle,decide_eq_true_eq] at hidle
      exact h.inUse c hheld hidle.2.2

/-- Operations that leave the table, the pool and the links alone keep the invariant. -/
theorem samePool (h : Pooled w) (ht : w.service.SameTable t) (hp : w.service.SamePool t) :
    Pooled ⟨t,w.pushed,w.held⟩ where
  table := h.table.sameTable ht w.held
  cservice := hp.serviceType.trans h.cservice
  ngroups := hp.ngroups.trans h.ngroups
  ungrouped c := (ServiceConn.grouped_congr (hp.links c).groupid).trans (h.ungrouped c)
  limit := by simpa only [ht.connectionsLimit] using h.limit
  entries := by
    have hxindex : ∀ c, (t.conns c).xindex = (w.service.conns c).xindex :=
      fun c => (hp.links c).xindex
    simpa only [hp.connsFree,hp.connsLimit,ht.connections,hxindex] using h.entries
  count := by simpa only [hp.connsFree,hp.nconnsFree,hp.connsLimit] using h.count
  inUse c hc := by
    rw [(hp.links c).cState]
    exact h.inUse c hc

theorem index_lt (h : Pooled w) (hc : w.service.connections i = some c) : i < 65536 := by
  have hbelow := h.table.below i c hc
  have hlt := h.table.indexMax_lt
  have hlimit := h.limit
  have hmax : ((SB_CONN_MAX : ℕ) : ℤ) = 40960 := rfl
  omega

/-- A table connection without an entry is put into a free slot of the pool. -/
theorem fill (h : Pooled w) (hx : w.service.freePoolSlot = some x) (hc : c ∈ w.pushed)
    (hnew : ∀ y, (w.service.connsFree y : ℤ) ≠ (w.service.conns c).index) :
    Pooled ⟨w.service.fillPool c x,w.pushed,w.held.erase c⟩ := by
  obtain ⟨i,hi⟩ := h.table.present c hc
  have hindex := ((h.table.slots i c).mp hi).2
  obtain ⟨-,hlt,hfree⟩ := mem_of_seek hx
  rw [decide_eq_true_eq] at hfree
  have hpos : i ≠ 0 := by
    rintro rfl
    rw [h.table.unused] at hi
    cases hi
  have hslot : ∀ y, (w.service.fillPool c x).connsFree y =
      if y = x then i else w.service.connsFree y := by
    intro y
    simp only [Service.fillPool,Service.modify,hindex,ushortOfInt_natCast (h.index_lt hi),
      Function.update_apply]
  have hother : ∀ y d, w.service.connsFree y ≠ 0 →
      w.service.connections (w.service.connsFree y) = some d → d ≠ c := by
    rintro y d hy hd rfl
    apply hnew y
    rw [hindex,h.table.once hd hi]
  have hconn : ∀ d, d ≠ c → (w.service.fillPool c x).conns d = w.service.conns d :=
    fun d hd => Function.update_of_ne hd _ _
  have hself : (w.service.fillPool c x).conns c = { w.service.conns c with xindex := x } :=
    Function.update_self _ _ _
  constructor
  · have htable := h.table.sameTable ((Service.SameTable.refl _).fillPool c x) (w.held.erase c)
    exact htable
  · exact h.cservice
  · exact h.ngroups
  · intro d
    by_cases hd : d = c
    · subst hd
      rw [hself]
      exact h.ungrouped d
    · rw [hconn d hd]
      exact h.ungrouped d
  · exact h.limit
  · intro y hy
    rw [hslot] at hy ⊢
    by_cases hyx : y = x
    · subst hyx
      refine ⟨by change (y : ℤ) < w.service.connsLimit; omega,c,?_,?_,by simp⟩
      · rw [if_pos rfl]
        exact hi
      · rw [hself]
    · rw [if_neg hyx] at hy ⊢
      obtain ⟨hylt,d,hd,hdy,hheld⟩ := h.entries y hy
      have hdc := hother y d hy hd
      refine ⟨hylt,d,hd,?_,by simp [hheld]⟩
      rw [hconn d hdc]
      exact hdy
  · have hcount := count_fill (p := fun y => w.service.connsFree y ≠ 0)
      (q := fun y => (w.service.fillPool c x).connsFree y ≠ 0)
      (n := w.service.connsLimit.toNat) (x := x) hlt (by simp [hfree])
      (by simp [hslot,hpos]) (fun y hy => by simp [hslot,hy])
    change w.service.nconnsFree + 1 =
      Nat.count (fun y => (w.service.fillPool c x).connsFree y ≠ 0) w.service.connsLimit.toNat
    rw [h.count]
    exact_mod_cast hcount.symm
  · intro d hd
    rw [Finset.mem_erase] at hd
    rw [hconn d hd.1]
    exact h.inUse d hd.2

/-- The entry of an idle connection is cleared and the connection is handed out. -/
theorem take (h : Pooled w) (hx : w.service.connsFree x ≠ 0)
    (hc : w.service.connections (w.service.connsFree x) = some c) (hidle : (w.service.conns c).idle) :
    Pooled ⟨w.service.takeFromPool c x,w.pushed,insert c w.held⟩ := by
  obtain ⟨hlt,d,hd,hdx,-⟩ := h.entries x hx
  rw [hc] at hd
  cases hd
  have hslot : ∀ y, (w.service.takeFromPool c x).connsFree y =
      if y = x then 0 else w.service.connsFree y := fun y => Function.update_apply _ _ _ _
  have hconn : ∀ d, d ≠ c → (w.service.takeFromPool c x).conns d = w.service.conns d :=
    fun d hd => Function.update_of_ne hd _ _
  have hself : (w.service.takeFromPool c x).conns c =
      ({ w.service.conns c with xindex := -1 } : ServiceConn).connStartCstate :=
    Function.update_self _ _ _
  constructor
  · have htable := h.table.sameTable ((Service.SameTable.refl _).takeFromPool c x) (insert c w.held)
    exact htable
  · exact h.cservice
  · exact h.ngroups
  · intro d
    by_cases hd : d = c
    · subst hd
      rw [hself,ServiceConn.grouped_congr (ServiceConn.connStartCstate_fields _).1]
      exact h.ungrouped d
    · rw [hconn d hd]
      exact h.ungrouped d
  · exact h.limit
  · intro y hy
    rw [hslot] at hy ⊢
    by_cases hyx : y = x
    · simp [hyx] at hy
    · rw [if_neg hyx] at hy ⊢
      obtain ⟨hylt,d,hd,hdy,hheld⟩ := h.entries y hy
      have hdc : d ≠ c := by
        rintro rfl
        omega
      refine ⟨hylt,d,hd,?_,by simp [hdc,hheld]⟩
      rw [hconn d hdc]
      exact hdy
  · have hcount := count_fill (q := fun y => w.service.connsFree y ≠ 0)
      (p := fun y => (w.service.takeFromPool c x).connsFree y ≠ 0)
      (n := w.service.connsLimit.toNat) (x := x) (by omega) (by simp [hslot])
      hx (fun y hy => by simp [hslot,hy])
    change w.service.nconnsFree - 1 =
      Nat.count (fun y => (w.service.takeFromPool c x).connsFree y ≠ 0) w.service.connsLimit.toNat
    rw [h.count,hcount]
    push_cast
    ring
  · intro d hd
    by_cases hdc : d = c
    · subst hdc
      rw [hself]
      apply ServiceConn.connStartCstate_inUse
      simpa only [ServiceConn.idle] using hidle
    · rw [hconn d hdc]
      exact h.inUse d ((Finset.mem_insert.1 hd).resolve_left hdc)

/-- A new connection in a free slot of the table, not yet in the pool. -/
theorem placed (h : Pooled w) (hi : w.service.freeSlot = some i) (hnew : c ∉ w.pushed) :
    Pooled ⟨w.service.placed c i,insert c w.pushed,w.held⟩ := by
  obtain ⟨-,-,hnone⟩ := Service.freeSlot_spec hi
  have hconn : ∀ j d, w.service.connections j = some d →
      (w.service.placed c i).connections j = some d := by
    intro j d hd
    have hji : j ≠ i := by
      rintro rfl
      rw [hnone] at hd
      cases hd
    rw [← hd]
    exact Function.update_of_ne hji _ _
  have hlinks : ∀ d, ServiceConn.SameLinks (w.service.conns d) ((w.service.placed c i).conns d) := by
    have hplace : w.service.SamePool (w.service.modify c fun d => { d with index := i }) :=
      (Service.SamePool.refl _).modify c fun d => ⟨rfl,rfl,rfl⟩
    exact hplace.links
  constructor
  · exact h.table.placed hi hnew
  · exact h.cservice
  · exact h.ngroups
  · intro d
    rw [ServiceConn.grouped_congr (hlinks d).groupid]
    exact h.ungrouped d
  · exact h.limit
  · intro y hy
    obtain ⟨hylt,d,hd,hdy,hheld⟩ := h.entries y hy
    refine ⟨hylt,d,hconn _ _ hd,?_,hheld⟩
    rw [(hlinks d).xindex]
    exact hdy
  · exact h.count
  · intro d hd
    rw [(hlinks d).cState]
    exact h.inUse d hd

/-- On such a service, a connection in its slot of the table goes on into the pool. -/
theorem occupy_eq (h : Pooled w) (c i : ℕ) :
    w.service.occupy c i = (w.service.placed c i).joinPool c := by
  have hungrouped : ((w.service.place c i).conns c).grouped = false := by
    have hself : (w.service.place c i).conns c = { w.service.conns c with index := i } :=
      Function.update_self _ _ _
    rw [hself]
    exact h.ungrouped c
  have hpooling : (w.service.place c i).pooling := h.pooling
  have hslot : (w.service.placed c i).freePoolSlot = (w.service.place c i).freePoolSlot := rfl
  simp only [Service.occupy,hungrouped,hpooling,Bool.false_eq_true,if_false,if_true,
    Service.joinPool,hslot]
  cases (w.service.place c i).freePoolSlot with
  | none => rfl
  | some x => rfl

theorem pushed (h : Pooled w) (hi : w.service.freeSlot = some i) (hnew : c ∉ w.pushed)
    (hheld : c ∉ w.held) : Pooled ⟨w.service.occupy c i,insert c w.pushed,w.held⟩ := by
  have hplaced := h.placed hi hnew
  obtain ⟨-,-,hnone⟩ := Service.freeSlot_spec hi
  have hindex : ((w.service.placed c i).conns c).index = i := by
    simp [Service.placed,Service.place,Service.modify]
  rw [h.occupy_eq,Service.joinPool]
  cases hx : (w.service.placed c i).freePoolSlot with
  | none => exact hplaced
  | some x =>
    have hfill := hplaced.fill hx (Finset.mem_insert_self _ _) (c := c) ?_
    · simpa only [Finset.erase_eq_of_notMem hheld] using hfill
    · intro y hy
      rw [hindex] at hy
      have hyi : w.service.connsFree y = i := by exact_mod_cast hy
      by_cases hzero : w.service.connsFree y = 0
      · obtain ⟨hpos,-⟩ := Service.freeSlot_spec hi
        omega
      · obtain ⟨-,d,hd,-⟩ := h.entries y hzero
        rw [hyi,hnone] at hd
        cases hd

/-- `service_popconn` clears the entry of its connection, wherever it is. -/
theorem leavePool_slot (h : Pooled w) (hi : w.service.connections i = some c) (y : ℕ) :
    (w.service.leavePool c).connsFree y =
      if w.service.connsFree y = i then 0 else w.service.connsFree y := by
  have hindex := ((h.table.slots i c).mp hi).2
  have hpos : i ≠ 0 := by
    rintro rfl
    rw [h.table.unused] at hi
    cases hi
  have hlink : ∀ z, w.service.connsFree z = i → (w.service.conns c).xindex = z ∧
      (z : ℤ) < w.service.connsLimit := by
    intro z hz
    obtain ⟨hlt,d,hd,hdz,-⟩ := h.entries z (by omega)
    rw [hz,hi] at hd
    cases hd
    exact ⟨hdz,hlt⟩
  simp only [Service.leavePool]
  split_ifs with hcond hyi hyi
  · obtain ⟨hyx,-⟩ := hlink y hyi
    rw [hyx,Int.toNat_natCast]
    exact Function.update_self _ _ _
  · apply Function.update_of_ne
    rintro rfl
    omega
  · obtain ⟨hyx,hlt⟩ := hlink y hyi
    exfalso
    apply hcond
    rw [hyx,Int.toNat_natCast,hindex]
    omega
  · rfl

theorem leavePool_count (h : Pooled w) (c : ℕ) : (w.service.leavePool c).nconnsFree =
    Nat.count (fun x => (w.service.leavePool c).connsFree x ≠ 0) w.service.connsLimit.toNat := by
  simp only [Service.leavePool]
  split_ifs with hcond
  · have hcount := count_fill (q := fun y => w.service.connsFree y ≠ 0)
      (p := fun y => Function.update w.service.connsFree (w.service.conns c).xindex.toNat 0 y ≠ 0)
      (n := w.service.connsLimit.toNat) (x := (w.service.conns c).xindex.toNat) (by omega)
      (by simp) (by omega) (fun y hy => by simp [Function.update_of_ne hy])
    rw [h.count,hcount]
    push_cast
    ring
  · exact h.count

theorem popped (h : Pooled w) (hc : w.service.listed c) :
    Pooled ⟨(w.service.leavePool c).vacate c,w.pushed.erase c,w.held⟩ := by
  obtain ⟨i,hpos,hindex,hi⟩ := Tabled.slot_of_listed hc
  have hsame := (Service.SameTable.refl w.service).leavePool c
  have hconns : (w.service.leavePool c).conns = w.service.conns := by
    simp only [Service.leavePool]
    split_ifs <;> rfl
  have hlimits : (w.service.leavePool c).connsLimit = w.service.connsLimit ∧
      (w.service.leavePool c).serviceType = w.service.serviceType ∧
      (w.service.leavePool c).ngroups = w.service.ngroups := by
    simp only [Service.leavePool]
    split_ifs <;> exact ⟨rfl,rfl,rfl⟩
  obtain ⟨hlimit,htype,hngroups⟩ := hlimits
  constructor
  · have hleft : Tabled ⟨w.service.leavePool c,w.pushed,w.held⟩ := h.table.sameTable hsame w.held
    apply hleft.vacate
    simpa only [Service.listed,hsame.connections,hsame.indexMax,hconns] using hc
  · exact htype.trans h.cservice
  · exact hngroups.trans h.ngroups
  · intro d
    change ((w.service.leavePool c).conns d).grouped = false
    rw [hconns]
    exact h.ungrouped d
  · change (w.service.leavePool c).connectionsLimit ≤ _
    rw [hsame.connectionsLimit]
    exact h.limit
  · intro y hy
    change (w.service.leavePool c).connsFree y ≠ 0 at hy
    rw [h.leavePool_slot hi] at hy
    split_ifs at hy with hyi
    · exact absurd rfl hy
    · obtain ⟨hylt,d,hd,hdy,hheld⟩ := h.entries y hy
      have hslot : (w.service.leavePool c).connsFree y = w.service.connsFree y := by
        rw [h.leavePool_slot hi,if_neg hyi]
      refine ⟨hylt.trans_eq hlimit.symm,d,?_,?_,hheld⟩
      · simp only [Service.vacate,hslot,hsame.connections,hconns,hindex,Int.toNat_natCast]
        rw [Function.update_of_ne hyi,hd]
      · change ((w.service.leavePool c).conns d).xindex = y
        rw [hconns]
        exact hdy
  · change (w.service.leavePool c).nconnsFree =
      Nat.count (fun x => (w.service.leavePool c).connsFree x ≠ 0)
        (w.service.leavePool c).connsLimit.toNat
    rw [hlimit]
    exact h.leavePool_count c
  · intro d hd
    change ((w.service.leavePool c).conns d).cState ≠ _
    rw [hconns]
    exact h.inUse d hd

/-- Fewer connections handed out. -/
theorem giveUp (h : Pooled w) (c : ℕ) : Pooled ⟨w.service,w.pushed,w.held.erase c⟩ where
  table := by
    have htable := h.table.sameTable (Service.SameTable.refl _) (w.held.erase c)
    exact htable
  cservice := h.cservice
  ngroups := h.ngroups
  ungrouped := h.ungrouped
  limit := h.limit
  entries y hy := by
    obtain ⟨hylt,d,hd,hdy,hheld⟩ := h.entries y hy
    exact ⟨hylt,d,hd,hdy,fun hmem => hheld (Finset.mem_of_mem_erase hmem)⟩
  count := h.count
  inUse d hd := h.inUse d (Finset.mem_of_mem_erase hd)

/-- The end of the transaction of a connection that is not handed out. -/
theorem overCstate (h : Pooled w) (hc : c ∉ w.held) :
    Pooled ⟨w.service.modify c ServiceConn.connOverCstate,w.pushed,w.held⟩ := by
  have hconn : ∀ d, d ≠ c →
      (w.service.modify c ServiceConn.connOverCstate).conns d = w.service.conns d :=
    fun d hd => Function.update_of_ne hd _ _
  have hself : (w.service.modify c ServiceConn.connOverCstate).conns c =
      (w.service.conns c).connOverCstate := Function.update_self _ _ _
  constructor
  · have htable := h.table.sameTable
      ((Service.SameTable.refl _).modify c ServiceConn.connOverCstate_index) w.held
    exact htable
  · exact h.cservice
  · exact h.ngroups
  · intro d
    by_cases hd : d = c
    · subst hd
      rw [hself,ServiceConn.grouped_congr (ServiceConn.connOverCstate_fields _).1]
      exact h.ungrouped d
    · rw [hconn d hd]
      exact h.ungrouped d
  · exact h.limit
  · intro y hy
    obtain ⟨hylt,d,hd,hdy,hheld⟩ := h.entries y hy
    refine ⟨hylt,d,hd,?_,hheld⟩
    by_cases hdc : d = c
    · subst hdc
      rw [hself,(ServiceConn.connOverCstate_fields _).2]
      exact hdy
    · rw [hconn d hdc]
      exact hdy
  · exact h.count
  · intro d hd
    have hdc : d ≠ c := by
      rintro rfl
      exact hc hd
    rw [hconn d hdc]
    exact h.inUse d hd

end Pooled

/-- Whether a connection can be given back: it is in the table and has no entry in the pool, or the
pool is full, so that it is closed. -/
def Givable (w : ServiceWorld) (c : ℕ) : Prop :=
  w.service.connsLimit ≤ w.service.nconnsFree ∨
    c ∈ w.pushed ∧ ∀ x < w.service.connsLimit.toNat,
      (w.service.connsFree x : ℤ) ≠ (w.service.conns c).index

instance (w : ServiceWorld) (c : ℕ) : Decidable (Givable w c) :=
  inferInstanceAs (Decidable (_ ∨ _))

/-- The condition of the pool on its callers: a connection that is pushed is neither in the table nor
handed out, or the table is full, and a connection that is given back is in the table and not in the
pool already, or the pool is full. -/
def poolGuard (w : ServiceWorld) : ServiceOp → Prop
  | .pushconn c => c ∉ w.pushed ∧ c ∉ w.held ∨ w.service.Full
  | .freeconn c => Givable w c
  | .overSession c => closing (w.service.conns c).dState ∨ Givable w c
  | _ => True

instance (w : ServiceWorld) (op : ServiceOp) : Decidable (poolGuard w op) :=
  match op with
  | .pushconn c => inferInstanceAs (Decidable (c ∉ w.pushed ∧ c ∉ w.held ∨ w.service.Full))
  | .freeconn c => inferInstanceAs (Decidable (Givable w c))
  | .overSession c =>
    inferInstanceAs (Decidable (closing (w.service.conns c).dState ∨ Givable w c))
  | .popconn _ | .okconn _ | .getconn _ | .close _ => inferInstanceAs (Decidable True)

namespace Pooled

variable {w : ServiceWorld} {c : ℕ}

theorem freeconn (h : Pooled w) (hc : Givable w c) : Pooled (w.freeconn c) := by
  simp only [ServiceWorld.freeconn,Service.serviceFreeconn,h.ungrouped c,Bool.false_eq_true,
    if_false]
  split_ifs with hroom
  · have hgive := hc.resolve_left (by omega)
    have hused : Nat.count (fun x => w.service.connsFree x ≠ 0) w.service.connsLimit.toNat <
        w.service.connsLimit.toNat := by
      have hcount := h.count
      omega
    obtain ⟨x,hx,hfree⟩ := exists_free hused
    rw [not_not] at hfree
    obtain ⟨y,hy⟩ : ∃ y, w.service.freePoolSlot = some y :=
      seek_isSome (Nat.zero_le x) hx (by simpa using hfree)
    rw [hy]
    have hfill := h.fill hy hgive.1 fun z hz => ?_
    · exact hfill.overCstate (Finset.notMem_erase c w.held)
    · by_cases hzero : w.service.connsFree z = 0
      · obtain ⟨i,hi⟩ := h.table.present c hgive.1
        have hindex := ((h.table.slots i c).mp hi).2
        have hpos : i = 0 := by omega
        rw [hpos,h.table.unused] at hi
        cases hi
      · obtain ⟨hzlt,-⟩ := h.entries z hzero
        exact hgive.2 z (by omega) hz
  · have hclosed : Pooled ⟨w.service.modify c ServiceConn.connClose,w.pushed,w.held⟩ :=
      h.samePool ((Service.SameTable.refl _).modify c ServiceConn.connClose_index)
        ((Service.SamePool.refl _).close c)
    exact hclosed.giveUp c

theorem overSession (h : Pooled w) (hc : closing (w.service.conns c).dState ∨ Givable w c) :
    Pooled (w.overSession c) := by
  have hgives : w.service.givesBack c := by
    simp [Service.givesBack,h.cservice]
  simp only [ServiceWorld.overSession,Service.connOverSession]
  by_cases hclosing : closing (w.service.conns c).dState
  · simpa only [hclosing,if_true,Bool.true_eq_false,false_and,if_false] using h
  · have hreset : Pooled ⟨w.service.modify c ServiceConn.sessionReset,w.pushed,w.held⟩ :=
      h.samePool ((Service.SameTable.refl _).modify c fun _ => rfl)
        ((Service.SamePool.refl _).modify c fun _ => ⟨rfl,rfl,rfl⟩)
    have hgives' : (w.service.modify c ServiceConn.sessionReset).givesBack c := by
      simp [Service.givesBack,Service.modify,h.cservice]
    have hgivable : Givable ⟨w.service.modify c ServiceConn.sessionReset,w.pushed,w.held⟩ c := by
      have hindex : ((w.service.modify c ServiceConn.sessionReset).conns c).index =
          (w.service.conns c).index := by
        simp [Service.modify,ServiceConn.sessionReset]
      have hold := hc.resolve_left hclosing
      simp only [Givable,hindex]
      exact hold
    have hfree := hreset.freeconn hgivable
    simpa [ServiceWorld.freeconn,hclosing,hgives,hgives'] using hfree

theorem step {op : ServiceOp} (h : Pooled w) (hop : poolGuard w op) : Pooled (op.apply w) := by
  cases op with
  | pushconn c =>
    simp only [ServiceOp.apply,ServiceWorld.pushconn]
    rw [Service.servicePushconn,if_pos h.table.lock]
    cases hi : w.service.freeSlot with
    | none =>
      have hbind := h.samePool ((Service.SameTable.refl _).bindParent c)
        ((Service.SamePool.refl _).bindParent c)
      exact hbind
    | some i =>
      have hnew : c ∉ w.pushed ∧ c ∉ w.held := by
        apply hop.resolve_right
        intro hfull
        rw [Service.freeSlot_eq_none_iff.mpr hfull] at hi
        cases hi
      have hbind := (h.pushed hi hnew.1 hnew.2).samePool
        ((Service.SameTable.refl _).bindParent c) ((Service.SamePool.refl _).bindParent c)
      exact hbind
  | popconn c =>
    simp only [ServiceOp.apply,ServiceWorld.popconn]
    by_cases hc : w.service.listed c
    · have hpop : w.service.servicePopconn c = ((w.service.leavePool c).vacate c,0) := by
        rw [Service.servicePopconn,if_pos ⟨h.table.lock,hc⟩]
        simp only [h.ungrouped c,h.pooling,Bool.false_eq_true,if_false,if_true]
      rw [hpop]
      exact h.popped hc
    · rw [Service.popconn_refused hc]
      exact h
  | okconn c =>
    exact h.samePool ((Service.SameTable.refl _).okconn c) ((Service.SamePool.refl _).okconn c)
  | getconn groupid =>
    simp only [ServiceOp.apply,ServiceWorld.getconn]
    rcases h.getconn_cases groupid with hnone | ⟨x,c,hx,hc,hidle,hsome⟩
    · rw [hnone]
      exact h
    · rw [hsome]
      exact h.take hx hc hidle
  | freeconn c => exact h.freeconn hop
  | overSession c => exact h.overSession hop
  | close c =>
    exact h.samePool ((Service.SameTable.refl _).modify c ServiceConn.connClose_index)
      ((Service.SamePool.refl _).close c)

end Pooled

/-- A client service without groups that starts to run, for any `CONN` objects outside of groups. -/
structure Service.ClientFresh (s : Service) : Prop extends s.Fresh where
  cservice : s.serviceType = C_SERVICE
  ngroups : s.ngroups = 0
  ungrouped : ∀ c, (s.conns c).grouped = false

theorem Service.ClientFresh.pooled {s : Service} (h : s.ClientFresh) : Pooled s.start where
  table := h.toFresh.tabled
  cservice := h.cservice
  ngroups := h.ngroups
  ungrouped := h.ungrouped
  limit := h.connectionsLimit_le
  entries := by simp [Service.start,h.connsFree]
  count := by simp [Service.start,h.connsFree,h.nconnsFree]
  inUse := by simp [Service.start]

/-- In every run from a fresh client service in which connections are pushed and given back as
`poolGuard` says, the pool is sound in every state. -/
theorem service_pool_exclusive {s : Service} (h : s.ClientFresh) {ops : List ServiceOp}
    {w : ServiceWorld} (run : Run (Guarded poolGuard (ofFun ServiceOp.apply)) s.start ops w) :
    PoolOK w := by
  have hpooled : Pooled w := by
    apply run.invariant Pooled h.pooled
    rintro a op b ha ⟨hop,rfl⟩
    exact ha.step hop
  exact hpooled.ok

theorem Service.init_clientFresh {connectionsLimit connsLimit : ℤ} (hpos : 0 < connectionsLimit)
    (hle : connectionsLimit ≤ SB_CONN_MAX) (hpool : connsLimit ≤ SB_CONN_MAX) :
    (Service.init connectionsLimit connsLimit C_SERVICE).ClientFresh :=
  ⟨Service.init_fresh hpos hle hpool C_SERVICE,rfl,rfl,fun _ => rfl⟩

theorem service_pool_one_transaction : PoolOK
    ([.pushconn 1, .pushconn 2, .getconn 0, .freeconn 1, .getconn 0, .overSession 1, .popconn 1].foldl
      ServiceOp.apply (Service.init 4 2 C_SERVICE).start) := by
  have h : (Service.init 4 2 C_SERVICE).ClientFresh :=
    Service.init_clientFresh (by decide) (by decide) (by decide)
  apply service_pool_exclusive h
  apply Allowed.run
  refine ⟨?_,?_,?_,?_,?_,?_,?_,trivial⟩ <;> decide

/-- A connection that is given back without having been handed out gets a second entry. -/
theorem service_pool_given_twice : ¬ PoolOK
    ([.pushconn 1, .freeconn 1].foldl ServiceOp.apply (Service.init 4 2 C_SERVICE).start) := by
  intro h
  have htwice := h.distinct 0 1 (by decide) (by decide)
  cases htwice

end Sbase
