import Sbase.Service.Broadcast
import Sbase.Service.Groups

/-! Which connections `service_closegroup` closes, and what it makes of the counter of the free list, in
every state that a service can come to. -/
namespace Sbase
open Slots Runs

namespace Service

/-- The connections on which `service_closegroup` calls `close`, in order. -/
def closeCalls (s : Service) (id : ℤ) : List ℕ :=
  if id < SB_GROUPS_MAX then
    let g := s.groups id.toNat
    (List.range g.nconnsFree.toNat).reverse.filterMap fun i => s.connections (g.connsFree i)
  else []

/-- A connection of the table whose index is in the free list of the group `id`. -/
def idleIn (s : Service) (id : ℤ) (c : ℕ) : Prop :=
  ∃ x < SB_GROUP_CONN_MAX, (s.groups id.toNat).connsFree x ≠ 0 ∧
    s.connections ((s.groups id.toNat).connsFree x) = some c

/-- What a call of `service_closegroup` is for. -/
structure ClosesGroup (s : Service) (id : ℤ) : Prop where
  closed : ∀ c, c ∈ s.closeCalls id ↔ s.idleIn id c
  counted : ((s.serviceClosegroup id).groups id.toNat).nconnsFree =
    Nat.count (fun x => ((s.serviceClosegroup id).groups id.toNat).connsFree x ≠ 0) SB_GROUP_CONN_MAX

/-- No entry of a free list stands behind its array. -/
def Sparing (s : Service) : Prop :=
  ∀ id x, SB_GROUP_CONN_MAX ≤ x → (s.groups id).connsFree x = 0

variable {s t : Service} {g : Group} {c i j x : ℕ} {id : ℤ}

/-! ### The calls are those of the loop -/

theorem closeEntries_conns (s : Service) (id : ℤ) (is : List ℕ) :
    (is.foldl (fun s i => s.closeEntry id i) s).conns =
      ((is.filterMap fun i => s.connections ((s.groups id.toNat).connsFree i)).foldl
        (fun s c => s.modify c ServiceConn.connClose) s).conns := by
  induction is generalizing s with
  | nil => rfl
  | cons i is ih =>
    obtain ⟨htable,-,hgroups⟩ := closeEntry_members s id i
    rw [List.foldl_cons,ih,htable.connections,hgroups,closeEntry]
    cases hc : s.connections ((s.groups id.toNat).connsFree i) with
    | none => simp only [List.filterMap_cons,hc]
    | some c => simp only [List.filterMap_cons,hc,List.foldl_cons]

theorem foldl_close_conns (cs : List ℕ) (hst : t.conns = s.conns) :
    (cs.foldl (fun s c => s.modify c ServiceConn.connClose) t).conns =
      (cs.foldl (fun s c => s.modify c ServiceConn.connClose) s).conns := by
  induction cs generalizing s t with
  | nil => exact hst
  | cons c cs ih =>
    apply ih
    change Function.update t.conns c _ = Function.update s.conns c _
    rw [hst]

/-- The connections after a call are those before it, each closed as often as the calls say. -/
theorem closegroup_conns (s : Service) (id : ℤ) :
    (s.serviceClosegroup id).conns =
      ((s.closeCalls id).foldl (fun s c => s.modify c ServiceConn.connClose) s).conns := by
  rw [serviceClosegroup,closeCalls]
  split_ifs
  · change (List.foldl (fun (s : Service) i => s.closeEntry id i) _ _).conns = _
    rw [closeEntries_conns]
    have hself : (s.modifyGroup id fun g => { g with limit := 0 }).groups id.toNat =
        { s.groups id.toNat with limit := 0 } := Function.update_self ..
    rw [hself]
    exact foldl_close_conns _ rfl
  · rfl

theorem closegroup_group (hid : id < SB_GROUPS_MAX) :
    (s.serviceClosegroup id).groups id.toNat =
      { s.groups id.toNat with
        limit := 0
        nconnsFree := if 0 ≤ (s.groups id.toNat).nconnsFree then -1
          else (s.groups id.toNat).nconnsFree - 1 } := by
  have hself : (s.modifyGroup id fun g => { g with limit := 0 }).groups id.toNat =
      { s.groups id.toNat with limit := 0 } := Function.update_self ..
  rw [serviceClosegroup,if_pos hid]
  simp only [hself]
  refine (Function.update_self ..).trans ?_
  rw [(closeEntries_members ..).2.2,hself]

/-! ### The entries of the free lists -/

theorem Sparing.of_groups (h : s.Sparing) (hgroups : t.groups = s.groups) : t.Sparing := by
  intro id x hx
  rw [hgroups]
  exact h id x hx

theorem Sparing.update (h : s.Sparing) (hg : ∀ x, SB_GROUP_CONN_MAX ≤ x → g.connsFree x = 0)
    (hgroups : t.groups = Function.update s.groups j g) : t.Sparing := by
  intro id x hx
  rw [hgroups]
  by_cases hid : id = j
  · rw [hid,Function.update_self]
    exact hg x hx
  · rw [Function.update_of_ne hid]
    exact h id x hx

theorem Sparing.fillEntry (h : s.Sparing) (hx : s.freeGroupSlot id = some x) (k : ℕ) :
    ∀ y, SB_GROUP_CONN_MAX ≤ y → (fillEntry (s.groups id.toNat) x k).connsFree y = 0 := by
  obtain ⟨-,hlt,-⟩ := mem_of_seek hx
  intro y hy
  have hne : y ≠ x := by omega
  exact (Function.update_of_ne hne _ _).trans (h id.toNat y hy)

theorem Sparing.clearEntry (h : s.Sparing) (id x : ℕ) :
    ∀ y, SB_GROUP_CONN_MAX ≤ y → (clearEntry (s.groups id) x).connsFree y = 0 := by
  intro y hy
  change Function.update (s.groups id).connsFree x 0 y = 0
  by_cases hyx : y = x
  · rw [hyx,Function.update_self]
  · rw [Function.update_of_ne hyx]
    exact h id y hy

theorem Sparing.pushconn (h : s.Sparing) (hlock : s.lock = 0) (c : ℕ) :
    (s.servicePushconn c).1.Sparing := by
  cases hi : s.freeSlot with
  | none => exact h.of_groups (pushconn_full_members hlock hi).2
  | some i =>
    have hgroups := (pushconn_members (c := c) hlock hi).2
    by_cases hgrouped : (s.conns c).grouped
    · rw [if_pos hgrouped] at hgroups
      apply h.update ?_ hgroups
      cases hx : s.freeGroupSlot (s.conns c).groupid with
      | none => exact h _
      | some x => exact h.fillEntry hx _
    · rw [if_neg hgrouped] at hgroups
      exact h.of_groups hgroups

theorem Sparing.popconn (h : s.Sparing) (hlock : s.lock = 0) (c : ℕ) :
    (s.servicePopconn c).1.Sparing := by
  by_cases hc : s.listed c
  · have hgroups := (popconn_members hlock hc).2
    by_cases hgrouped : (s.conns c).grouped
    · rw [if_pos hgrouped] at hgroups
      apply h.update ?_ hgroups
      rw [left]
      dsimp only
      split_ifs
      · exact h.clearEntry _ _
      · exact h _
    · rw [if_neg hgrouped] at hgroups
      exact h.of_groups hgroups
  · rw [popconn_refused hc]
    exact h

theorem Sparing.getconn (h : s.Sparing) (id : ℤ) : (s.serviceGetconn id).1.Sparing := by
  obtain hsame | ⟨x,-,-,-,hgroups⟩ := (getconn_members s id).2
  · exact h.of_groups hsame
  · exact h.update (h.clearEntry _ _) hgroups

theorem Sparing.freeconn (h : s.Sparing) (c : ℕ) : (s.serviceFreeconn c).Sparing := by
  obtain hsame | ⟨-,-,x,hx,hgroups⟩ := (freeconn_members s c).2
  · exact h.of_groups hsame
  · exact h.update (h.fillEntry hx _) hgroups

theorem Sparing.modifyGroup (h : s.Sparing) (id : ℤ) {f : Group → Group}
    (hf : ∀ g, (f g).connsFree = g.connsFree) : (s.modifyGroup id f).Sparing := by
  apply h.update ?_ rfl
  rw [hf]
  exact h _

theorem Sparing.closegroup (h : s.Sparing) (id : ℤ) : (s.serviceClosegroup id).Sparing := by
  intro j x hx
  by_cases hid : id < SB_GROUPS_MAX
  · by_cases hj : j = id.toNat
    · rw [hj,closegroup_group hid]
      exact h _ x hx
    · rw [(closegroup_members s id).2.2 j hj]
      exact h j x hx
  · rw [serviceClosegroup,if_neg hid]
    exact h j x hx

theorem Sparing.castGroup (h : s.Sparing) (id : ℤ) : (s.castGroup id).Sparing := by
  have hget := h.getconn id
  rw [Service.castGroup]
  generalize s.serviceGetconn id = r at hget
  obtain ⟨t,_ | c⟩ := r
  · exact hget
  · exact hget.of_groups rfl

theorem Bounded.of_eq {s t : Service} (h : s.Bounded) (hlock : t.lock = s.lock)
    (hindexMax : t.indexMax = s.indexMax) (hconnections : t.connections = s.connections) : t.Bounded := by
  refine ⟨hlock.trans h.lock,?_,?_⟩
  · rw [hconnections]
    exact h.unused
  · rw [hconnections,hindexMax]
    exact h.below

end Service

namespace GroupWorld

open Service

/-- What `service_closegroup` relies on, in every state. -/
structure Sound (s : Service) : Prop where
  bounded : s.Bounded
  sparing : s.Sparing

variable {s : Service} {w : GroupWorld} {id : ℤ}

theorem Sound.service (h : Sound w.service) (op : ServiceOp) : Sound (w.service' op).service := by
  refine ⟨h.bounded.step (w := w.toServiceWorld) op,?_⟩
  have hsparing := h.sparing
  cases op with
  | pushconn c => exact hsparing.pushconn h.bounded.lock c
  | popconn c => exact hsparing.popconn h.bounded.lock c
  | okconn c =>
    change (w.service.serviceOkconn c).Sparing
    rw [serviceOkconn]
    split_ifs
    · exact (hsparing.modifyGroup _ (f := fun g => { g with nconnected := g.nconnected + 1 })
        fun _ => rfl).of_groups rfl
    · exact hsparing.of_groups rfl
  | getconn id => exact hsparing.getconn id
  | freeconn c => exact hsparing.freeconn c
  | overSession c =>
    change (w.service.connOverSession c).Sparing
    have hreset : (w.service.modify c ServiceConn.sessionReset).Sparing := hsparing.of_groups rfl
    rw [connOverSession]
    split_ifs
    · exact hsparing
    · dsimp only
      split_ifs
      · exact hreset.freeconn c
      · exact hreset
  | close c => exact hsparing.of_groups rfl

theorem Sound.stategroup (h : Sound w.service) (result : Option (ℕ × ServiceConn)) :
    Sound (w.stategroup result).service := by
  rw [GroupWorld.stategroup]
  cases w.pc with
  | idle => dsimp only; split_ifs <;> exact h
  | group i => dsimp only; split_ifs <;> exact h
  | loop i =>
    dsimp only
    split_ifs
    · cases result with
      | none => exact h
      | some r => exact ⟨h.bounded.of_eq rfl rfl rfl,h.sparing.of_groups rfl⟩
    · exact h
  | count i =>
    exact ⟨h.bounded.of_eq rfl rfl rfl,
      h.sparing.modifyGroup i (f := fun g => { g with total := g.total + 1 }) fun _ => rfl⟩

theorem Sound.castgroup (h : Sound w.service) : Sound w.castgroup.service := by
  rw [GroupWorld.castgroup]
  cases w.cast with
  | none => dsimp only; split_ifs <;> exact h
  | some i =>
    dsimp only
    split_ifs
    · refine ⟨?_,h.sparing.castGroup i⟩
      have htable : Service.SameTable w.service (w.service.serviceGetconn i).1 :=
        (Service.SameTable.refl _).getconn i
      change (w.service.castGroup i).Bounded
      rw [castGroup]
      generalize w.service.serviceGetconn i = r at htable
      obtain ⟨t,_ | c⟩ := r
      · exact h.bounded.sameTable htable
      · exact (h.bounded.sameTable htable).of_eq rfl rfl rfl
    · exact h

theorem Sound.step (h : Sound w.service) (op : GroupOp) : Sound (w.apply op).service := by
  cases op with
  | addgroup limit =>
    change Sound (w.service.serviceAddgroup limit).1
    rw [serviceAddgroup]
    split_ifs
    · exact ⟨h.bounded.of_eq rfl rfl rfl,(h.sparing.of_groups (t := { w.service with
        ngroups := w.service.ngroups + 1 }) rfl).modifyGroup _ (f := fun g => { g with
          limit := limit }) fun _ => rfl⟩
    · exact h
  | closegroup id =>
    exact ⟨h.bounded.sameTable (closegroup_members w.service id).1,h.sparing.closegroup id⟩
  | castgroup => exact h.castgroup
  | stategroup result => exact h.stategroup result
  | service op => exact h.service op

theorem sound_run (h : s.Fresh) (ops : List GroupOp) : Sound (ops.foldl apply (start s)).service := by
  apply List.foldlRecOn (motive := fun w : GroupWorld => Sound w.service)
  · exact ⟨h.bounded,fun id x _ => (h.groups id).2 x⟩
  · intro w hw op _
    exact hw.step op

/-- The loop closes a connection where an entry below `nconns_free` names it. -/
theorem mem_closeCalls {c : ℕ} (hid : id < SB_GROUPS_MAX) :
    c ∈ s.closeCalls id ↔ ∃ i : ℕ, (i : ℤ) < (s.groups id.toNat).nconnsFree ∧
      s.connections ((s.groups id.toNat).connsFree i) = some c := by
  rw [closeCalls,if_pos hid]
  dsimp only
  rw [List.mem_filterMap]
  apply exists_congr
  intro i
  rw [List.mem_reverse,List.mem_range]
  apply and_congr_left
  intro _
  omega

theorem closed_iff (h : Sound s) (hid : id < SB_GROUPS_MAX) :
    (∀ c, c ∈ s.closeCalls id ↔ s.idleIn id c) ↔ ∀ c, s.idleIn id c →
      ∃ i : ℕ, (i : ℤ) < (s.groups id.toNat).nconnsFree ∧
        s.connections ((s.groups id.toNat).connsFree i) = some c := by
  constructor
  · intro hall c hc
    exact (mem_closeCalls hid).mp ((hall c).mpr hc)
  · intro hall c
    rw [mem_closeCalls hid]
    refine ⟨?_,hall c⟩
    intro ⟨i,_,hc⟩
    have hentry : (s.groups id.toNat).connsFree i ≠ 0 := by
      intro hzero
      rw [hzero,h.bounded.unused] at hc
      cases hc
    have hlt : i < SB_GROUP_CONN_MAX := by
      by_contra hge
      exact hentry (h.sparing id.toNat i (not_lt.mp hge))
    exact ⟨i,hlt,hentry,hc⟩

/-- The count is negative where the loop ends. -/
theorem closegroup_negative (s : Service) (hid : id < SB_GROUPS_MAX) :
    ((s.serviceClosegroup id).groups id.toNat).nconnsFree < 0 := by
  rw [closegroup_group hid]
  dsimp only
  split_ifs <;> omega

/-- No call of `service_closegroup` leaves the count of the free list right, and the connections that it
closes are the idle ones of the group exactly where each of them has an entry below that count. -/
theorem closegroup_never (h : s.Fresh) (ops : List GroupOp) {t : Service}
    (ht : (ops.foldl apply (start s)).service = t) (hid : id < SB_GROUPS_MAX) :
    ¬ t.ClosesGroup id ∧
      ((∀ c, c ∈ t.closeCalls id ↔ t.idleIn id c) ↔ ∀ c, t.idleIn id c →
        ∃ i : ℕ, (i : ℤ) < (t.groups id.toNat).nconnsFree ∧
          t.connections ((t.groups id.toNat).connsFree i) = some c) := by
  have hsound : Sound t := ht ▸ sound_run h ops
  refine ⟨?_,closed_iff hsound hid⟩
  intro hcloses
  have hneg := closegroup_negative t hid
  have hcount := hcloses.counted
  omega

/-- A service with a group of four, and a connection of the group that `service_getconn` has taken from the
first slot of its free list. -/
def holed : GroupWorld :=
  [.addgroup 4, .service (.pushconn 1), .service (.pushconn 2), .service (.getconn 1)].foldl apply
    (start { Service.init 9 2 C_SERVICE with conns := fun _ => { ServiceConn.init with groupid := 1 } })

theorem holed_fresh : { Service.init 9 2 C_SERVICE with
    conns := fun _ => { ServiceConn.init with groupid := 1 } }.Fresh :=
  ⟨rfl,by decide,by decide,by decide,fun _ => rfl,rfl,rfl,fun _ => rfl,rfl,fun _ => ⟨rfl,fun _ => rfl⟩⟩

/-- The other one stands in the second slot, where the loop does not come. -/
theorem closegroup_hole : ¬ holed.service.ClosesGroup 1 := by
  intro h
  have hmem := (h.closed 2).mpr ⟨1,by decide,by decide,by decide⟩
  exact absurd hmem (by decide)

theorem closegroup_never_holed : ¬ holed.service.ClosesGroup 1 ∧
    ¬ ∀ c, c ∈ holed.service.closeCalls 1 ↔ holed.service.idleIn 1 c := by
  obtain ⟨hnever,hiff⟩ := closegroup_never holed_fresh
    [.addgroup 4, .service (.pushconn 1), .service (.pushconn 2), .service (.getconn 1)] rfl
    (show (1 : ℤ) < SB_GROUPS_MAX by decide)
  refine ⟨hnever,fun hall => ?_⟩
  obtain ⟨i,hi,hc⟩ := hiff.mp hall 2 ⟨1,by decide,by decide,by decide⟩
  have hcount : (holed.service.groups (1 : ℤ).toNat).nconnsFree = 1 := by decide
  obtain rfl : i = 0 := by
    have hlt : (i : ℤ) < 1 := hcount ▸ hi
    omega
  exact absurd hc (by decide)

end GroupWorld

end Sbase
