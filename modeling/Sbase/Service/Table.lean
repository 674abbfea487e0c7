import Sbase.Lib.Runs
import Sbase.Service.State

/-! The connection table over any sequence of operations: which slots are in use, the counters, and
the index that each connection keeps of its own slot. -/
namespace Sbase
open Slots Runs

namespace Service

/-- The table of a service and the indexes of the connections, left as they are. -/
structure SameTable (s t : Service) : Prop where
  lock : t.lock = s.lock
  connectionsLimit : t.connectionsLimit = s.connectionsLimit
  indexMax : t.indexMax = s.indexMax
  runningConnections : t.runningConnections = s.runningConnections
  connections : t.connections = s.connections
  index : ∀ c, (t.conns c).index = (s.conns c).index

variable {s t u : Service}

theorem SameTable.refl (s : Service) : SameTable s s := ⟨rfl,rfl,rfl,rfl,rfl,fun _ => rfl⟩

theorem SameTable.trans (h : SameTable s t) (k : SameTable t u) : SameTable s u :=
  ⟨k.lock.trans h.lock, k.connectionsLimit.trans h.connectionsLimit, k.indexMax.trans h.indexMax,
    k.runningConnections.trans h.runningConnections, k.connections.trans h.connections,
    fun c => (k.index c).trans (h.index c)⟩

/-- An assignment to other fields of a connection. -/
theorem SameTable.modify (h : SameTable s t) (c : ℕ) {f : ServiceConn → ServiceConn}
    (hf : ∀ d, (f d).index = d.index) : SameTable s (t.modify c f) := by
  apply h.trans
  refine ⟨rfl,rfl,rfl,rfl,rfl,fun e => ?_⟩
  by_cases he : e = c
  · subst he; simp [Service.modify,hf]
  · simp [Service.modify,he]

theorem SameTable.modifyGroup (h : SameTable s t) (id : ℤ) (f : Group → Group) :
    SameTable s (t.modifyGroup id f) := h.trans ⟨rfl,rfl,rfl,rfl,rfl,fun _ => rfl⟩

/-- Assignments to the pool and its counters. -/
theorem SameTable.pool (h : SameTable s t) (connsFree : ℕ → ℕ) (nconnsFree nconnections : ℤ) :
    SameTable s { t with connsFree := connsFree, nconnsFree := nconnsFree,
                         nconnections := nconnections } :=
  h.trans ⟨rfl,rfl,rfl,rfl,rfl,fun _ => rfl⟩

theorem SameTable.ite (h : SameTable s t) (k : SameTable s u) (p : Prop) [Decidable p] :
    SameTable s (if p then t else u) := by
  by_cases hp : p
  · rwa [if_pos hp]
  · rwa [if_neg hp]

end Service

namespace ServiceConn

variable (c : ServiceConn)

@[simp] theorem connClose_index : c.connClose.index = c.index := rfl

@[simp] theorem connStartCstate_index : c.connStartCstate.index = c.index := by
  simp only [connStartCstate]
  split_ifs <;> rfl

@[simp] theorem connOverCstate_index : c.connOverCstate.index = c.index := by
  simp only [connOverCstate]
  split_ifs <;> rfl

@[simp] theorem connBindProxy_index (child : ℕ) (i : ℤ) :
    (c.connBindProxy child i).index = c.index := by
  simp only [connBindProxy]
  split_ifs <;> rfl

end ServiceConn

namespace Service

variable {s t : Service}

theorem SameTable.fillPool (h : SameTable s t) (c x : ℕ) : SameTable s (t.fillPool c x) := by
  apply SameTable.modify
  · exact h.pool _ _ _
  · intro d; rfl

theorem SameTable.fillGroup (h : SameTable s t) (id : ℤ) (c x : ℕ) :
    SameTable s (t.fillGroup id c x) := by
  apply SameTable.modify
  · exact h.modifyGroup _ _
  · intro d; rfl

theorem SameTable.joinGroup (h : SameTable s t) (c : ℕ) : SameTable s (t.joinGroup c) := by
  simp only [Service.joinGroup]
  cases t.freeGroupSlot (t.conns c).groupid with
  | none => exact h
  | some x =>
    apply SameTable.ite
    · exact (h.fillGroup _ _ _).modifyGroup _ _
    · exact h.fillGroup _ _ _

theorem SameTable.joinPool (h : SameTable s t) (c : ℕ) : SameTable s (t.joinPool c) := by
  rw [Service.joinPool]
  cases t.freePoolSlot with
  | none => exact h
  | some x => exact h.fillPool c x

theorem SameTable.bindParent (h : SameTable s t) (c : ℕ) : SameTable s (t.bindParent c) := by
  simp only [Service.bindParent]
  cases (t.conns c).parent with
  | none => exact h
  | some parent => exact .ite (h.modify _ fun d => d.connBindProxy_index _ _) h _

theorem SameTable.leaveGroup (h : SameTable s t) (c : ℕ) : SameTable s (t.leaveGroup c) := by
  simp only [Service.leaveGroup]
  apply SameTable.modifyGroup
  apply SameTable.ite
  · exact (SameTable.ite (h.modifyGroup _ _) h _).modifyGroup _ _
  · exact .ite (h.modifyGroup _ _) h _

theorem SameTable.leavePool (h : SameTable s t) (c : ℕ) : SameTable s (t.leavePool c) := by
  simp only [Service.leavePool]
  apply SameTable.ite
  · exact h.pool _ _ _
  · exact h

theorem SameTable.okconn (h : SameTable s t) (c : ℕ) : SameTable s (t.serviceOkconn c) := by
  simp only [Service.serviceOkconn]
  apply SameTable.modify
  · exact .ite (h.modifyGroup _ _) h _
  · intro d; rfl

theorem SameTable.takeFromGroup (h : SameTable s t) (id : ℤ) (c x : ℕ) :
    SameTable s (t.takeFromGroup id c x) := by
  apply SameTable.modify
  · exact h.modifyGroup _ _
  · intro d; exact ServiceConn.connStartCstate_index _

theorem SameTable.takeFromPool (h : SameTable s t) (c x : ℕ) :
    SameTable s (t.takeFromPool c x) := by
  apply SameTable.modify
  · exact h.pool _ _ _
  · intro d; exact ServiceConn.connStartCstate_index _

theorem SameTable.takeGroup (h : SameTable s t) (id : ℤ) : SameTable s (t.takeGroup id).1 := by
  simp only [Service.takeGroup]
  split
  · split
    · split
      · exact h.takeFromGroup id _ _
      · exact h
    · exact h
  · exact h

theorem SameTable.takePool (h : SameTable s t) : SameTable s t.takePool.1 := by
  simp only [Service.takePool]
  split
  · split
    · split
      · exact h.takeFromPool _ _
      · exact h
    · exact h
  · exact h

theorem SameTable.getconn (h : SameTable s t) (id : ℤ) : SameTable s (t.serviceGetconn id).1 := by
  simp only [Service.serviceGetconn]
  split
  · split
    · exact h.takeGroup id
    · exact h.takePool
  · exact h

theorem SameTable.freeconn (h : SameTable s t) (c : ℕ) : SameTable s (t.serviceFreeconn c) := by
  have hclose : SameTable s (t.modify c ServiceConn.connClose) :=
    h.modify c ServiceConn.connClose_index
  simp only [Service.serviceFreeconn]
  split
  · split
    · exact hclose
    · split
      · exact (h.fillGroup _ _ _).modify _ ServiceConn.connOverCstate_index
      · exact h
  · split
    · split
      · exact (h.fillPool _ _).modify _ ServiceConn.connOverCstate_index
      · exact h
    · exact hclose

theorem SameTable.overSession (h : SameTable s t) (c : ℕ) :
    SameTable s (t.connOverSession c) := by
  have hreset : SameTable s (t.modify c ServiceConn.sessionReset) := h.modify c fun _ => rfl
  simp only [Service.connOverSession]
  split
  · exact h
  · exact .ite (hreset.freeconn c) hreset _

/-- What `service_pushconn` does to the table: the connection in a free slot. -/
def placed (s : Service) (c i : ℕ) : Service :=
  { s.place c i with indexMax := if s.indexMax < i then i else s.indexMax }

theorem occupy_table (s : Service) (c i : ℕ) : SameTable (s.placed c i) (s.occupy c i) := by
  have h : SameTable (s.place c i) (if ((s.place c i).conns c).grouped then
      (s.place c i).joinGroup c else if (s.place c i).pooling then (s.place c i).joinPool c
      else s.place c i) :=
    .ite ((SameTable.refl _).joinGroup c)
      (.ite ((SameTable.refl _).joinPool c) (SameTable.refl _) _) _
  constructor
  · exact h.lock
  · exact h.connectionsLimit
  · simp only [occupy,placed,h.indexMax]
    rfl
  · exact h.runningConnections
  · exact h.connections
  · exact h.index

theorem pushconn_table {c i : ℕ} (hlock : s.lock = 0) (hi : s.freeSlot = some i) :
    SameTable (s.placed c i) (s.servicePushconn c).1 ∧ (s.servicePushconn c).2 = 0 := by
  rw [servicePushconn,if_pos hlock,hi]
  exact ⟨(s.occupy_table c i).bindParent c,rfl⟩

theorem pushconn_full {c : ℕ} (hlock : s.lock = 0) (hi : s.freeSlot = none) :
    SameTable s (s.servicePushconn c).1 ∧ (s.servicePushconn c).2 = -1 := by
  rw [servicePushconn,if_pos hlock,hi]
  exact ⟨(SameTable.refl s).bindParent c,rfl⟩

theorem popconn_table {c : ℕ} (hlock : s.lock = 0) (hlisted : s.listed c) :
    SameTable (s.vacate c) (s.servicePopconn c).1 ∧ (s.servicePopconn c).2 = 0 := by
  rw [servicePopconn,if_pos ⟨hlock,hlisted⟩]
  have h : SameTable s (if (s.conns c).grouped then s.leaveGroup c
      else if s.pooling then s.leavePool c else s) :=
    .ite ((SameTable.refl _).leaveGroup c)
      (.ite ((SameTable.refl _).leavePool c) (SameTable.refl _) _) _
  refine ⟨?_,rfl⟩
  constructor
  · exact h.lock
  · exact h.connectionsLimit
  · simp only [vacate,h.indexMax,h.index]
  · simp only [vacate,h.runningConnections]
  · simp only [vacate,h.connections,h.index]
  · exact h.index

theorem popconn_refused {c : ℕ} (hlisted : ¬ s.listed c) : s.servicePopconn c = (s,-1) := by
  rw [servicePopconn,if_neg fun h => hlisted h.2]

theorem freeSlot_spec {i : ℕ} (h : s.freeSlot = some i) :
    0 < i ∧ (i : ℤ) < s.connectionsLimit ∧ s.connections i = none := by
  have hi := mem_of_seek h
  refine ⟨by omega,by omega,?_⟩
  simpa using hi.2.2

/-- Whether every slot of the table is in use. -/
def Full (s : Service) : Prop :=
  ∀ i < s.connectionsLimit.toNat, 0 < i → (s.connections i).isSome

instance (s : Service) : Decidable s.Full := Nat.decidableBallLT _ _

theorem freeSlot_eq_none_iff : s.freeSlot = none ↔ s.Full := by
  rw [freeSlot,seek_eq_none_iff]
  constructor
  · intro h i hlt hpos
    simpa [Option.isSome_iff_ne_none] using h i hpos hlt
  · intro h i hpos hlt
    simpa [Option.isSome_iff_ne_none] using h i hlt hpos

end Service

/-- The conditions on the table: its slots hold the connections pushed and not popped since, each at
its own index and at no other, slot 0 is not used, the counters agree with the slots, and a
connection in the table can be removed. -/
structure TableOK (w : ServiceWorld) : Prop where
  slots : ∀ i c, w.service.connections i = some c ↔
    c ∈ w.pushed ∧ (w.service.conns c).index = i
  present : ∀ c ∈ w.pushed, ∃ i, w.service.connections i = some c
  once : ∀ i j c, w.service.connections i = some c → w.service.connections j = some c → i = j
  unused : w.service.connections 0 = none
  running : w.service.runningConnections =
    Nat.count (fun i => (w.service.connections i).isSome) w.service.connectionsLimit.toNat
  below : ∀ i c, w.service.connections i = some c → (i : ℤ) ≤ w.service.indexMax
  indexMax_lt : w.service.indexMax < w.service.connectionsLimit
  pops : ∀ i c, w.service.connections i = some c → (w.service.servicePopconn c).2 = 0

/-- The invariant of the table. -/
structure Tabled (w : ServiceWorld) : Prop where
  lock : w.service.lock = 0
  slots : ∀ i c, w.service.connections i = some c ↔
    c ∈ w.pushed ∧ (w.service.conns c).index = i
  present : ∀ c ∈ w.pushed, ∃ i, w.service.connections i = some c
  unused : w.service.connections 0 = none
  running : w.service.runningConnections =
    Nat.count (fun i => (w.service.connections i).isSome) w.service.connectionsLimit.toNat
  below : ∀ i c, w.service.connections i = some c → (i : ℤ) ≤ w.service.indexMax
  indexMax_lt : w.service.indexMax < w.service.connectionsLimit

namespace Tabled

variable {w : ServiceWorld} {t : Service} {c i : ℕ}

theorem listed (h : Tabled w) (hc : w.service.connections i = some c) : w.service.listed c := by
  obtain ⟨-,hindex⟩ := (h.slots i c).mp hc
  have hpos : i ≠ 0 := by
    rintro rfl
    simp [h.unused] at hc
  have hbelow := h.below i c hc
  simp only [Service.listed,hindex,Int.toNat_natCast,hc,and_true,decide_eq_true_eq]
  exact ⟨by omega,hbelow⟩

theorem slot_of_listed (hc : w.service.listed c) :
    ∃ i : ℕ, 0 < i ∧ (w.service.conns c).index = i ∧ w.service.connections i = some c := by
  simp only [Service.listed,decide_eq_true_eq] at hc
  refine ⟨(w.service.conns c).index.toNat,by omega,by omega,hc.2.2⟩

theorem once (h : Tabled w) {j : ℕ} (hi : w.service.connections i = some c)
    (hj : w.service.connections j = some c) : i = j := by
  have h₁ := ((h.slots i c).mp hi).2
  have h₂ := ((h.slots j c).mp hj).2
  omega

theorem ok (h : Tabled w) : TableOK w where
  slots := h.slots
  present := h.present
  once := fun _ _ _ => h.once
  unused := h.unused
  running := h.running
  below := h.below
  indexMax_lt := h.indexMax_lt
  pops := fun _ _ hc => (Service.popconn_table h.lock (h.listed hc)).2

/-- Operations that leave the table and the indexes alone keep the invariant. -/
theorem sameTable (h : Tabled w) (hs : w.service.SameTable t) (held : Finset ℕ) :
    Tabled ⟨t,w.pushed,held⟩ where
  lock := hs.lock.trans h.lock
  slots := by simpa only [hs.connections,hs.index] using h.slots
  present := by simpa only [hs.connections] using h.present
  unused := by simpa only [hs.connections] using h.unused
  running := by simpa only [hs.connections,hs.connectionsLimit,hs.runningConnections] using h.running
  below := by simpa only [hs.connections,hs.indexMax] using h.below
  indexMax_lt := by simpa only [hs.indexMax,hs.connectionsLimit] using h.indexMax_lt

theorem placed (h : Tabled w) (hi : w.service.freeSlot = some i) (hnew : c ∉ w.pushed) :
    Tabled ⟨w.service.placed c i,insert c w.pushed,w.held⟩ := by
  have hc : ∀ j, w.service.connections j ≠ some c := fun j hj => hnew ((h.slots j c).mp hj).1
  obtain ⟨hpos,hlt,hnone⟩ := Service.freeSlot_spec hi
  have hconn : ∀ j, (w.service.placed c i).connections j =
      if j = i then some c else w.service.connections j := fun j => Function.update_apply _ _ _ _
  have hindex : ∀ d, ((w.service.placed c i).conns d).index =
      if d = c then (i : ℤ) else (w.service.conns d).index := by
    intro d
    by_cases hd : d = c
    · subst hd; simp [Service.placed,Service.place,Service.modify]
    · simp [Service.placed,Service.place,Service.modify,hd]
  have hmax : (w.service.placed c i).indexMax = max w.service.indexMax i := by
    simp only [Service.placed]
    split_ifs <;> omega
  constructor
  · exact h.lock
  · intro j d
    simp only [hconn,hindex,Finset.mem_insert]
    by_cases hj : j = i
    · subst hj
      by_cases hd : d = c
      · simp [hd]
      · have hno : ¬ (d ∈ w.pushed ∧ (w.service.conns d).index = j) := by
          rw [← h.slots j d,hnone]
          simp
        simpa [hd,Ne.symm hd] using hno
    · by_cases hd : d = c
      · subst hd
        simp [hj,hc j,Ne.symm hj]
      · simpa [hj,hd] using h.slots j d
  · intro d hd
    rcases Finset.mem_insert.1 hd with rfl | hd
    · exact ⟨i,by simp [hconn]⟩
    · obtain ⟨j,hj⟩ := h.present d hd
      have hne : j ≠ i := by
        rintro rfl
        rw [hnone] at hj
        cases hj
      exact ⟨j,by simp [hconn,hne,hj]⟩
  · rw [hconn,if_neg (by omega)]
    exact h.unused
  · have hfill := count_fill (p := fun j => (w.service.connections j).isSome)
      (q := fun j => ((w.service.placed c i).connections j).isSome)
      (n := w.service.connectionsLimit.toNat) (x := i) (by omega) (by simp [hnone])
      (by simp [hconn]) (fun j hj => by simp [hconn,hj])
    have hrun := h.running
    change w.service.runningConnections + 1 = _
    rw [hrun]
    exact_mod_cast hfill.symm
  · intro j d hd
    rw [hmax]
    rw [hconn] at hd
    by_cases hj : j = i
    · subst hj
      exact le_max_right _ _
    · rw [if_neg hj] at hd
      exact (h.below j d hd).trans (le_max_left _ _)
  · rw [hmax]
    exact max_lt h.indexMax_lt hlt

theorem vacate (h : Tabled w) (hc : w.service.listed c) :
    Tabled ⟨w.service.vacate c,w.pushed.erase c,w.held⟩ := by
  obtain ⟨i,hpos,hindex,hi⟩ := slot_of_listed hc
  have hconn : ∀ j, (w.service.vacate c).connections j =
      if j = i then none else w.service.connections j := by
    intro j
    simp only [Service.vacate,hindex,Int.toNat_natCast]
    exact Function.update_apply _ _ _ _
  have hmax : (w.service.vacate c).indexMax =
      if w.service.indexMax = i then w.service.indexMax - 1 else w.service.indexMax := by
    simp only [Service.vacate,hindex]
  have hbelow := h.below i c hi
  have hlt := h.indexMax_lt
  constructor
  · exact h.lock
  · intro j d
    rw [hconn,Finset.mem_erase]
    by_cases hj : j = i
    · subst hj
      have hd : (w.service.conns d).index = j → d ∈ w.pushed → d = c := by
        intro hdj hd
        have hsome := (h.slots j d).mpr ⟨hd,hdj⟩
        rw [hi] at hsome
        exact (Option.some.inj hsome).symm
      simp only [if_true,reduceCtorEq,false_iff]
      rintro ⟨⟨hne,hd'⟩,hdj⟩
      exact hne (hd hdj hd')
    · have hd : w.service.connections j = some d → d ≠ c := by
        rintro hd rfl
        exact hj (h.once hd hi)
      rw [if_neg hj,h.slots j d]
      constructor
      · intro hd'
        exact ⟨⟨hd ((h.slots j d).mpr hd'),hd'.1⟩,hd'.2⟩
      · intro hd'
        exact ⟨hd'.1.2,hd'.2⟩
  · intro d hd
    rw [Finset.mem_erase] at hd
    obtain ⟨j,hj⟩ := h.present d hd.2
    have hne : j ≠ i := by
      rintro rfl
      rw [hi] at hj
      exact hd.1 (Option.some.inj hj).symm
    exact ⟨j,by rw [hconn,if_neg hne,hj]⟩
  · rw [hconn,if_neg (by omega)]
    exact h.unused
  · have hfill := count_fill (q := fun j => (w.service.connections j).isSome)
      (p := fun j => ((w.service.vacate c).connections j).isSome)
      (n := w.service.connectionsLimit.toNat) (x := i) (by omega) (by simp [hconn])
      (by simp [hi]) (fun j hj => by simp [hconn,hj])
    have hrun := h.running
    change w.service.runningConnections - 1 =
      Nat.count (fun j => ((w.service.vacate c).connections j).isSome)
        w.service.connectionsLimit.toNat
    rw [hrun,hfill]
    push_cast
    ring
  · intro j d hd
    rw [hconn] at hd
    by_cases hj : j = i
    · rw [if_pos hj] at hd
      cases hd
    · rw [if_neg hj] at hd
      have hjd := h.below j d hd
      rw [hmax]
      split_ifs <;> omega
  · change (w.service.vacate c).indexMax < w.service.connectionsLimit
    rw [hmax]
    split_ifs <;> omega

end Tabled

/-- The condition of the table on its callers: a connection that is pushed is not in the table, or
the table is full. -/
def pushesNew (w : ServiceWorld) : ServiceOp → Prop
  | .pushconn c => c ∉ w.pushed ∨ w.service.Full
  | _ => True

instance (w : ServiceWorld) (op : ServiceOp) : Decidable (pushesNew w op) :=
  match op with
  | .pushconn c => inferInstanceAs (Decidable (c ∉ w.pushed ∨ w.service.Full))
  | .popconn _ | .okconn _ | .getconn _ | .freeconn _ | .overSession _ | .close _ =>
    inferInstanceAs (Decidable True)

theorem Tabled.step {w : ServiceWorld} {op : ServiceOp} (h : Tabled w) (hop : pushesNew w op) :
    Tabled (op.apply w) := by
  cases op with
  | pushconn c =>
    simp only [ServiceOp.apply,ServiceWorld.pushconn]
    cases hi : w.service.freeSlot with
    | none =>
      obtain ⟨hs,hret⟩ := Service.pushconn_full (c := c) h.lock hi
      rw [hret]
      exact h.sameTable hs w.held
    | some i =>
      obtain ⟨hs,hret⟩ := Service.pushconn_table (c := c) h.lock hi
      have hnew : c ∉ w.pushed := by
        apply hop.resolve_right
        intro hfull
        rw [Service.freeSlot_eq_none_iff.mpr hfull] at hi
        cases hi
      rw [hret]
      exact (h.placed hi hnew).sameTable hs w.held
  | popconn c =>
    simp only [ServiceOp.apply,ServiceWorld.popconn]
    by_cases hc : w.service.listed c
    · obtain ⟨hs,hret⟩ := Service.popconn_table h.lock hc
      rw [hret]
      exact (h.vacate hc).sameTable hs w.held
    · rw [Service.popconn_refused hc]
      exact h
  | okconn c => exact h.sameTable ((Service.SameTable.refl _).okconn c) _
  | getconn id => exact h.sameTable ((Service.SameTable.refl _).getconn id) _
  | freeconn c => exact h.sameTable ((Service.SameTable.refl _).freeconn c) _
  | overSession c => exact h.sameTable ((Service.SameTable.refl _).overSession c) _
  | close c =>
    exact h.sameTable ((Service.SameTable.refl _).modify c ServiceConn.connClose_index) _

/-- A connection that is pushed again gets a second slot. -/
theorem Tabled.not_ok_of_again {w : ServiceWorld} {op : ServiceOp} (h : Tabled w)
    (hop : ¬ pushesNew w op) : ¬ TableOK (op.apply w) := by
  cases op with
  | pushconn c =>
    simp only [pushesNew,not_or,not_not] at hop
    obtain ⟨hc,hfull⟩ := hop
    obtain ⟨i,hi⟩ := h.present c hc
    rw [← Service.freeSlot_eq_none_iff] at hfull
    obtain ⟨j,hj⟩ := Option.ne_none_iff_exists'.1 hfull
    obtain ⟨-,-,hnone⟩ := Service.freeSlot_spec hj
    obtain ⟨hs,-⟩ := Service.pushconn_table (c := c) h.lock hj
    have hconn : (w.service.servicePushconn c).1.connections =
        Function.update w.service.connections j (some c) := hs.connections
    have hij : i ≠ j := by
      rintro rfl
      rw [hnone] at hi
      cases hi
    intro hok
    apply hij
    apply hok.once i j c
    · change (w.service.servicePushconn c).1.connections i = _
      rw [hconn,Function.update_of_ne hij,hi]
    · change (w.service.servicePushconn c).1.connections j = _
      rw [hconn,Function.update_self]
  | popconn | okconn | getconn | freeconn | overSession | close => exact absurd trivial hop

theorem Service.Fresh.tabled {s : Service} (h : s.Fresh) : Tabled s.start where
  lock := h.running
  slots := by simp [Service.start,h.connections]
  present := by simp [Service.start]
  unused := h.connections 0
  running := by simp [Service.start,h.connections,h.runningConnections]
  below := by simp [Service.start,h.connections]
  indexMax_lt := by simpa [Service.start,h.indexMax] using h.connectionsLimit_pos

/-- From a fresh service on, the table is sound in every state of a sequence of operations exactly
when no connection is pushed while it is in a table with a free slot. -/
theorem service_table_iff {s : Service} (h : s.Fresh) (ops : List ServiceOp) :
    (∀ ks, ks <+: ops → TableOK (ks.foldl ServiceOp.apply s.start)) ↔
      Allowed pushesNew ServiceOp.apply s.start ops := by
  apply always_iff_allowed (I := Tabled)
  · intro w hw; exact hw.ok
  · intro w op hw hop; exact hw.step hop
  · intro w op hw hop; exact hw.not_ok_of_again hop
  · exact h.tabled

theorem service_table_two_rounds : TableOK
    ([.pushconn 1, .pushconn 2, .pushconn 3, .popconn 1, .pushconn 1].foldl ServiceOp.apply
      (Service.init 3 2 C_SERVICE).start) := by
  have h : (Service.init 3 2 C_SERVICE).Fresh :=
    Service.init_fresh (by decide) (by decide) (by decide) C_SERVICE
  apply (service_table_iff h _).mpr _ _ List.prefix_rfl
  refine ⟨?_,?_,?_,?_,?_,trivial⟩ <;> decide

/-- A connection that is pushed twice is in two slots. -/
theorem service_table_pushed_twice : ¬ TableOK
    ([.pushconn 1, .pushconn 1].foldl ServiceOp.apply (Service.init 3 2 C_SERVICE).start) := by
  intro h
  have htwice := h.once 1 2 1 (by decide) (by decide)
  cases htwice

end Sbase
