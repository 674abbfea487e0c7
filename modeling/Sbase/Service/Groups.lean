import Sbase.Service.Table

/-! The groups of a service: `service_addgroup`, `service_closegroup`, `service_castgroup` and
`service_stategroup`, and the counters of a group over any sequence of operations. -/
namespace Sbase
open Slots Runs

namespace Service

/-- `service_addgroup`, the address and the session of the group apart. -/
def serviceAddgroup (s : Service) (limit : ℤ) : Service × ℤ :=
  if s.lock = 0 ∧ s.ngroups < SB_GROUPS_MAX then
    ({ s with ngroups := s.ngroups + 1 }.modifyGroup (s.ngroups + 1) fun g =>
      { g with limit := limit }, s.ngroups + 1)
  else (s,-1)

/-- The body of the loop of `service_closegroup`. -/
def closeEntry (s : Service) (id : ℤ) (i : ℕ) : Service :=
  match s.connections ((s.groups id.toNat).connsFree i) with
  | some c => s.modify c ServiceConn.connClose
  | none => s

/-- `service_closegroup`. Its loop counts `nconns_free` down to the first index below 0. -/
def serviceClosegroup (s : Service) (id : ℤ) : Service :=
  if id < SB_GROUPS_MAX then
    let s := s.modifyGroup id fun g => { g with limit := 0 }
    let n := (s.groups id.toNat).nconnsFree
    let s := (List.range n.toNat).reverse.foldl (fun s i => s.closeEntry id i) s
    s.modifyGroup id fun g => { g with nconnsFree := if 0 ≤ n then -1 else n - 1 }
  else s

/-- The body of the loop of `service_castgroup`, the data that it pushes apart. -/
def castGroup (s : Service) (i : ℤ) : Service :=
  match s.serviceGetconn i with
  | (s,some c) => s.modify c fun d => { d.connStartCstate with groupid := i }
  | (s,none) => s

/-- A slot of the table that has a connection of the group `id` with status `CONN_STATUS_FREE`. -/
def connected (s : Service) (id : ℤ) (i : ℕ) : Prop :=
  ∃ c, s.connections i = some c ∧ (s.conns c).groupid = id ∧ (s.conns c).status = CONN_STATUS_FREE

instance (s : Service) (id : ℤ) : DecidablePred (s.connected id) := fun i =>
  match h : s.connections i with
  | none => .isFalse fun ⟨_,hc,_⟩ => by rw [h] at hc; cases hc
  | some c =>
    decidable_of_iff ((s.conns c).groupid = id ∧ (s.conns c).status = CONN_STATUS_FREE)
      ⟨fun hc => ⟨c,h,hc⟩,fun ⟨_,hd,hc⟩ => by rw [h] at hd; cases hd; exact hc⟩

end Service

/-- Where a call of `service_stategroup` stands: at the test of group `i`, at the loop of group `i`,
or behind the call of `service_newconn` in it. -/
inductive StatePc
  | idle
  | group (i : ℤ)
  | loop (i : ℤ)
  | count (i : ℤ)
  deriving DecidableEq

/-- The operations on the groups of a service. Those on its connections are whole calls;
`stategroup` is the next step of a call of `service_stategroup`, with what `service_newconn` returns
there, and `castgroup` the next pass of the loop of `service_castgroup`. -/
inductive GroupOp
  | addgroup (limit : ℤ)
  | closegroup (id : ℤ)
  | castgroup
  | stategroup (result : Option (ℕ × ServiceConn))
  | service (op : ServiceOp)

/-- A service with where the loops over its groups stand, and the connections that
`service_stategroup` has created for each group and that have not been popped since. -/
structure GroupWorld extends ServiceWorld where
  pc : StatePc
  cast : Option ℤ
  made : ℤ → Finset ℕ

namespace GroupWorld

/-- An operation on the connections. -/
def service' (w : GroupWorld) (op : ServiceOp) : GroupWorld :=
  { w with toServiceWorld := op.apply w.toServiceWorld,
           made := match op with
             | .popconn c =>
               if (w.service.servicePopconn c).2 = 0 then fun id => (w.made id).erase c else w.made
             | _ => w.made }

/-- The next step of `service_stategroup`. -/
def stategroup (w : GroupWorld) (result : Option (ℕ × ServiceConn)) : GroupWorld :=
  match w.pc with
  | .idle =>
    if w.service.lock = 0 ∧ 0 < w.service.ngroups then { w with pc := .group 1 } else w
  | .group i =>
    let g := w.service.groups i.toNat
    if i ≤ w.service.ngroups then
      if g.limit ≤ g.total ∧ g.nconnected ≤ 0 then { w with pc := .group (i+1) }
      else { w with pc := .loop i }
    else { w with pc := .idle }
  | .loop i =>
    let g := w.service.groups i.toNat
    if 0 < g.limit ∧ g.total < g.limit then
      match result with
      | some (c,d) =>
        { w with service := w.service.modify c fun _ => { d with groupid := i },
                 made := Function.update w.made i (insert c (w.made i)), pc := .count i }
      | none => { w with pc := .group (i+1) }
    else { w with pc := .group (i+1) }
  | .count i =>
    { w with service := w.service.modifyGroup i fun g => { g with total := g.total + 1 },
             pc := if (w.service.groups i.toNat).nconnected ≤ 0 then .group (i+1) else .loop i }

/-- The next pass of the loop of `service_castgroup`. -/
def castgroup (w : GroupWorld) : GroupWorld :=
  match w.cast with
  | none => if w.service.lock = 0 ∧ 0 < w.service.ngroups then { w with cast := some 1 } else w
  | some i =>
    if i ≤ w.service.ngroups then
      { w with service := w.service.castGroup i, cast := some (i+1),
               held := (w.service.serviceGetconn i).2.elim w.held fun c => insert c w.held }
    else { w with cast := none }

def apply (w : GroupWorld) : GroupOp → GroupWorld
  | .addgroup limit => { w with service := (w.service.serviceAddgroup limit).1 }
  | .closegroup id => { w with service := w.service.serviceClosegroup id }
  | .castgroup => w.castgroup
  | .stategroup result => w.stategroup result
  | .service op => w.service' op

/-- A connection of the group that has been created and is not in `total` yet. -/
def uncounted (w : GroupWorld) (id : ℤ) : ℤ := if w.pc = .count id then 1 else 0

end GroupWorld

/-- The accounts of a group: its counters agree with its free list, with its connections in the table
and with those created for it, whose number stays within the limit while the group is open. -/
structure GroupAccounts (w : GroupWorld) (id : ℤ) : Prop where
  free : (w.service.groups id.toNat).nconnsFree =
    Nat.count (fun x => (w.service.groups id.toNat).connsFree x ≠ 0) SB_GROUP_CONN_MAX
  nconnected : (w.service.groups id.toNat).nconnected =
    Nat.count (w.service.connected id) w.service.connectionsLimit.toNat
  total : (w.service.groups id.toNat).total + w.uncounted id = (w.made id).card
  limit : 0 < (w.service.groups id.toNat).limit →
    (w.service.groups id.toNat).total + w.uncounted id ≤ (w.service.groups id.toNat).limit

namespace GroupWorld

/-- A connection that is given back has an index of the table, where its group has it on its free
list. -/
def Returned (s : Service) (c : ℕ) : Prop :=
  (s.conns c).grouped → 0 < (s.groups (s.conns c).groupid.toNat).limit →
    0 < (s.conns c).index ∧ (s.conns c).index < s.connectionsLimit

/-- The condition on a step. -/
def Regular (w : GroupWorld) : GroupOp → Prop
  | .addgroup _ => w.service.ngroups + 1 < SB_GROUPS_MAX
  | .closegroup id => id = 0 ∨ SB_GROUPS_MAX ≤ id
  | .castgroup => ∀ i c, w.cast = some i → i ≤ w.service.ngroups →
      (w.service.serviceGetconn i).2 = some c → (w.service.conns c).groupid = i
  | .stategroup none => True
  | .stategroup (some (c,_)) => ∀ i, w.pc = .loop i → c ∉ w.pushed ∧ ∀ id, c ∉ w.made id
  | .service (.pushconn c) => (c ∉ w.pushed ∨ w.service.Full) ∧
      ((w.service.conns c).grouped → (w.service.conns c).status = CONN_STATUS_FREE →
        w.service.Full ∨ w.service.freeGroupSlot (w.service.conns c).groupid ≠ none)
  | .service (.popconn c) => w.service.listed c → (w.service.conns c).grouped →
      c ∈ w.made (w.service.conns c).groupid
  | .service (.okconn c) => (w.service.conns c).grouped →
      if (w.service.conns c).groupid ≤ w.service.ngroups then
        c ∈ w.pushed ∧ (w.service.conns c).status ≠ CONN_STATUS_FREE
      else c ∉ w.pushed ∨ (w.service.conns c).status = CONN_STATUS_FREE
  | .service (.freeconn c) => Returned w.service c
  | .service (.overSession c) =>
      closing (w.service.conns c).dState ∨ w.service.givesBack c = false ∨ Returned w.service c
  | .service (.getconn _) => True
  | .service (.close _) => True

end GroupWorld

/-! ### What each operation does to the groups -/

namespace ServiceConn

/-- The fields of a connection that the accounts of its group read, left as they are. -/
structure SameMember (c d : ServiceConn) : Prop where
  groupid : d.groupid = c.groupid
  status : d.status = c.status

variable (c : ServiceConn)

theorem connShut_status (k : Control) (dState eState : ℕ) :
    (k.connShut dState eState).status = k.status := by
  rw [Control.connShut]
  split_ifs <;> rfl

theorem connClose_member : SameMember c c.connClose := ⟨rfl,connShut_status _ _ _⟩

theorem connStartCstate_member : SameMember c c.connStartCstate := by
  rw [connStartCstate]
  split_ifs <;> exact ⟨rfl,rfl⟩

theorem connOverCstate_member : SameMember c c.connOverCstate := by
  rw [connOverCstate]
  split_ifs <;> exact ⟨rfl,rfl⟩

theorem sessionReset_member : SameMember c c.sessionReset := by
  refine ⟨rfl,?_⟩
  change c.toRecvConn.sessionReset.status = c.status
  simp only [RecvConn.sessionReset,Control.pushInqmessage]
  split_ifs <;> rfl

theorem connBindProxy_member (child : ℕ) (i : ℤ) : SameMember c (c.connBindProxy child i) := by
  simp only [connBindProxy,Control.connPushMessage]
  split_ifs <;> exact ⟨rfl,rfl⟩

end ServiceConn

namespace Service

open ServiceConn

/-- The connections, as far as the accounts of their groups read them, left as they are. -/
structure SameMembers (s t : Service) : Prop where
  ngroups : t.ngroups = s.ngroups
  member : ∀ c, SameMember (s.conns c) (t.conns c)

variable {s t u : Service} {c i x : ℕ} {id : ℤ}

theorem SameMembers.refl (s : Service) : SameMembers s s := ⟨rfl,fun _ => ⟨rfl,rfl⟩⟩

theorem SameMembers.symm (h : SameMembers s t) : SameMembers t s :=
  ⟨h.ngroups.symm,fun c => ⟨(h.member c).groupid.symm,(h.member c).status.symm⟩⟩

theorem SameMembers.trans (h : SameMembers s t) (k : SameMembers t u) : SameMembers s u :=
  ⟨k.ngroups.trans h.ngroups,fun c => ⟨(k.member c).groupid.trans (h.member c).groupid,
    (k.member c).status.trans (h.member c).status⟩⟩

/-- Assignments to other fields of a connection, next to ones to the groups and the pool. -/
theorem sameMembers_of_update {d : ServiceConn} (hngroups : t.ngroups = s.ngroups)
    (hconns : t.conns = Function.update s.conns c d) (hd : SameMember (s.conns c) d) :
    SameMembers s t := by
  refine ⟨hngroups,fun e => ?_⟩
  rw [hconns]
  by_cases he : e = c
  · subst he
    rw [Function.update_self]
    exact hd
  · rw [Function.update_of_ne he]
    exact ⟨rfl,rfl⟩

theorem sameMembers_of_conns (hngroups : t.ngroups = s.ngroups) (hconns : t.conns = s.conns) :
    SameMembers s t := ⟨hngroups,fun c => by rw [hconns]; exact ⟨rfl,rfl⟩⟩

theorem bindParent_members (s : Service) (c : ℕ) :
    SameMembers s (s.bindParent c) ∧ (s.bindParent c).groups = s.groups := by
  rw [bindParent]
  cases (s.conns c).parent with
  | none => exact ⟨.refl s,rfl⟩
  | some parent =>
    dsimp only
    split_ifs
    · exact ⟨sameMembers_of_update rfl rfl (connBindProxy_member ..),rfl⟩
    · exact ⟨.refl s,rfl⟩

theorem fillPool_members (s : Service) (c x : ℕ) :
    SameMembers s (s.fillPool c x) ∧ (s.fillPool c x).groups = s.groups :=
  ⟨sameMembers_of_update rfl rfl ⟨rfl,rfl⟩,rfl⟩

/-- A group with the entry `k` in its free slot `x`. -/
def fillEntry (g : Group) (x k : ℕ) : Group :=
  { g with connsFree := Function.update g.connsFree x k, nconnsFree := g.nconnsFree + 1 }

theorem fillGroup_members (s : Service) (id : ℤ) (c x : ℕ) :
    SameMembers s (s.fillGroup id c x) ∧ (s.fillGroup id c x).groups =
      Function.update s.groups id.toNat
        (fillEntry (s.groups id.toNat) x (ushortOfInt (s.conns c).index)) :=
  ⟨sameMembers_of_update rfl rfl ⟨rfl,rfl⟩,rfl⟩

/-- A group into which `service_pushconn` has put a connection with the index `k`. -/
def joined (g : Group) (slot : Option ℕ) (k : ℤ) (status : ℕ) : Group :=
  match slot with
  | some x =>
    { fillEntry g x (ushortOfInt k) with
      nconnected := if status = CONN_STATUS_FREE then g.nconnected + 1 else g.nconnected }
  | none => g

theorem joinGroup_members (s : Service) (c : ℕ) :
    SameMembers s (s.joinGroup c) ∧ (s.joinGroup c).groups =
      Function.update s.groups (s.conns c).groupid.toNat
        (joined (s.groups (s.conns c).groupid.toNat) (s.freeGroupSlot (s.conns c).groupid)
          (s.conns c).index (s.conns c).status) := by
  rw [joinGroup]
  dsimp only
  generalize (s.conns c).groupid = id
  cases s.freeGroupSlot id with
  | none => exact ⟨.refl s,(Function.update_eq_self ..).symm⟩
  | some x =>
    obtain ⟨hmembers,hgroups⟩ := fillGroup_members s id c x
    have hstatus := (hmembers.member c).status
    dsimp only
    rw [hstatus]
    split_ifs with hfree
    · refine ⟨hmembers.trans (sameMembers_of_conns rfl rfl),?_⟩
      rw [modifyGroup]
      dsimp only
      rw [hgroups,Function.update_self,Function.update_idem,hfree]
      rfl
    · refine ⟨hmembers,?_⟩
      rw [hgroups,joined,if_neg hfree]
      rfl

theorem joinPool_members (s : Service) (c : ℕ) :
    SameMembers s (s.joinPool c) ∧ (s.joinPool c).groups = s.groups := by
  rw [joinPool]
  cases s.freePoolSlot with
  | none => exact ⟨.refl s,rfl⟩
  | some x => exact fillPool_members s c x

theorem pushconn_members (hlock : s.lock = 0) (hi : s.freeSlot = some i) :
    SameMembers s (s.servicePushconn c).1 ∧ (s.servicePushconn c).1.groups =
      if (s.conns c).grouped then Function.update s.groups (s.conns c).groupid.toNat
        (joined (s.groups (s.conns c).groupid.toNat) (s.freeGroupSlot (s.conns c).groupid) i
          (s.conns c).status)
      else s.groups := by
  have hplace : SameMembers s (s.place c i) := sameMembers_of_update rfl rfl ⟨rfl,rfl⟩
  have hself : (s.place c i).conns c = { s.conns c with index := i } := Function.update_self ..
  have hoccupy : SameMembers s (s.occupy c i) ∧ (s.occupy c i).groups =
      if (s.conns c).grouped then Function.update s.groups (s.conns c).groupid.toNat
        (joined (s.groups (s.conns c).groupid.toNat) (s.freeGroupSlot (s.conns c).groupid) i
          (s.conns c).status)
      else s.groups := by
    have hgrouped : ((s.place c i).conns c).grouped = (s.conns c).grouped := by
      rw [hself]
      rfl
    rw [occupy]
    dsimp only
    rw [hgrouped]
    by_cases hg : (s.conns c).grouped
    · obtain ⟨hmembers,hgroups⟩ := joinGroup_members (s.place c i) c
      rw [hself] at hgroups
      rw [if_pos hg,if_pos hg]
      exact ⟨(hplace.trans hmembers).trans (sameMembers_of_conns rfl rfl),hgroups⟩
    · rw [if_neg hg,if_neg hg]
      by_cases hpool : (s.place c i).pooling
      · obtain ⟨hmembers,hgroups⟩ := joinPool_members (s.place c i) c
        rw [if_pos hpool]
        exact ⟨(hplace.trans hmembers).trans (sameMembers_of_conns rfl rfl),hgroups⟩
      · rw [if_neg hpool]
        exact ⟨hplace.trans (sameMembers_of_conns rfl rfl),rfl⟩
  obtain ⟨hbind,hgroups⟩ := bindParent_members (s.occupy c i) c
  rw [servicePushconn,if_pos hlock,hi]
  exact ⟨hoccupy.1.trans hbind,hgroups.trans hoccupy.2⟩

theorem pushconn_full_members (hlock : s.lock = 0) (hi : s.freeSlot = none) :
    SameMembers s (s.servicePushconn c).1 ∧ (s.servicePushconn c).1.groups = s.groups := by
  rw [servicePushconn,if_pos hlock,hi]
  exact bindParent_members s c

/-- A group without the entry in slot `x`. -/
def clearEntry (g : Group) (x : ℕ) : Group :=
  { g with connsFree := Function.update g.connsFree x 0, nconnsFree := g.nconnsFree - 1 }

/-- A group that a connection has left. -/
def left (g : Group) (d : ServiceConn) : Group :=
  let g' := if 0 ≤ d.gindex ∧ d.gindex < SB_CONN_MAX ∧ 0 < g.connsFree d.gindex.toNat ∧
    (g.connsFree d.gindex.toNat : ℤ) = d.index then clearEntry g d.gindex.toNat else g
  { g' with nconnected := if d.status = CONN_STATUS_FREE then g'.nconnected - 1 else g'.nconnected,
            total := g'.total - 1 }

theorem leaveGroup_members (s : Service) (c : ℕ) :
    SameMembers s (s.leaveGroup c) ∧ (s.leaveGroup c).groups =
      Function.update s.groups (s.conns c).groupid.toNat
        (left (s.groups (s.conns c).groupid.toNat) (s.conns c)) := by
  rw [leaveGroup,left]
  split_ifs <;> refine ⟨sameMembers_of_conns rfl rfl,?_⟩ <;>
    simp only [modifyGroup,Function.update_self,Function.update_idem,clearEntry]

theorem popconn_members (hlock : s.lock = 0) (hc : s.listed c) :
    SameMembers s (s.servicePopconn c).1 ∧ (s.servicePopconn c).1.groups =
      if (s.conns c).grouped then Function.update s.groups (s.conns c).groupid.toNat
        (left (s.groups (s.conns c).groupid.toNat) (s.conns c))
      else s.groups := by
  have hpool : SameMembers s (s.leavePool c) ∧ (s.leavePool c).groups = s.groups := by
    rw [leavePool]
    split_ifs <;> exact ⟨sameMembers_of_conns rfl rfl,rfl⟩
  rw [servicePopconn,if_pos ⟨hlock,hc⟩]
  split_ifs
  · exact ⟨(leaveGroup_members s c).1.trans (sameMembers_of_conns rfl rfl),(leaveGroup_members s c).2⟩
  · exact ⟨hpool.1.trans (sameMembers_of_conns rfl rfl),hpool.2⟩
  · exact ⟨sameMembers_of_conns rfl rfl,rfl⟩

/-- `service_getconn` clears an entry of the group, or leaves the groups alone. -/
theorem getconn_members (s : Service) (id : ℤ) :
    SameMembers s (s.serviceGetconn id).1 ∧ ((s.serviceGetconn id).1.groups = s.groups ∨
      ∃ x, 0 < id ∧ id ≤ s.ngroups ∧ (s.groups id.toNat).connsFree x ≠ 0 ∧
        (s.serviceGetconn id).1.groups =
          Function.update s.groups id.toNat (clearEntry (s.groups id.toNat) x)) := by
  rw [serviceGetconn]
  split_ifs with hlock hgroup
  · simp only [takeGroup]
    split_ifs
    · cases hx : seek (fun x => s.ready ((s.groups id.toNat).connsFree x)) 0 SB_GROUP_CONN_MAX with
      | none => exact ⟨.refl s,.inl rfl⟩
      | some x =>
        dsimp only
        cases s.connections ((s.groups id.toNat).connsFree x) with
        | none => exact ⟨.refl s,.inl rfl⟩
        | some c =>
          obtain ⟨-,-,hready⟩ := mem_of_seek hx
          simp only [ready,decide_eq_true_eq] at hready
          have hstart := connStartCstate_member { s.conns c with gindex := -1 }
          exact ⟨sameMembers_of_update rfl rfl ⟨hstart.groupid,hstart.status⟩,
            .inr ⟨x,hgroup.1,hgroup.2,by omega,rfl⟩⟩
    · exact ⟨.refl s,.inl rfl⟩
  · rw [takePool]
    split_ifs
    · cases seek (fun x => s.ready (s.connsFree x)) 0 s.connsLimit.toNat with
      | none => exact ⟨.refl s,.inl rfl⟩
      | some x =>
        dsimp only
        cases s.connections (s.connsFree x) with
        | none => exact ⟨.refl s,.inl rfl⟩
        | some c =>
          have hstart := connStartCstate_member { s.conns c with xindex := -1 }
          exact ⟨sameMembers_of_update rfl rfl ⟨hstart.groupid,hstart.status⟩,.inl rfl⟩
    · exact ⟨.refl s,.inl rfl⟩
  · exact ⟨.refl s,.inl rfl⟩

/-- `service_freeconn` fills a slot of the group, or leaves the groups alone. -/
theorem freeconn_members (s : Service) (c : ℕ) :
    SameMembers s (s.serviceFreeconn c) ∧ ((s.serviceFreeconn c).groups = s.groups ∨
      (s.conns c).grouped ∧ 0 < (s.groups (s.conns c).groupid.toNat).limit ∧
      ∃ x, s.freeGroupSlot (s.conns c).groupid = some x ∧ (s.serviceFreeconn c).groups =
        Function.update s.groups (s.conns c).groupid.toNat
          (fillEntry (s.groups (s.conns c).groupid.toNat) x (ushortOfInt (s.conns c).index))) := by
  simp only [serviceFreeconn]
  split_ifs with hgrouped hclosed hroom
  · exact ⟨sameMembers_of_update rfl rfl (connClose_member _),.inl rfl⟩
  · cases hx : s.freeGroupSlot (s.conns c).groupid with
    | none => exact ⟨.refl s,.inl rfl⟩
    | some x =>
      obtain ⟨hmembers,hgroups⟩ := fillGroup_members s (s.conns c).groupid c x
      exact ⟨hmembers.trans (sameMembers_of_update rfl rfl (connOverCstate_member _)),
        .inr ⟨hgrouped,not_le.1 hclosed,x,rfl,hgroups⟩⟩
  · cases s.freePoolSlot with
    | none => exact ⟨.refl s,.inl rfl⟩
    | some x =>
      obtain ⟨hmembers,hgroups⟩ := fillPool_members s c x
      exact ⟨hmembers.trans (sameMembers_of_update rfl rfl (connOverCstate_member _)),.inl hgroups⟩
  · exact ⟨sameMembers_of_update rfl rfl (connClose_member _),.inl rfl⟩

/-- `service_castgroup` takes a connection of the group from the list of the group. -/
theorem castGroup_members
    (hown : ∀ c, (s.serviceGetconn id).2 = some c → (s.conns c).groupid = id) :
    SameTable s (s.castGroup id) ∧ SameMembers s (s.castGroup id) ∧
      (s.castGroup id).groups = (s.serviceGetconn id).1.groups := by
  obtain ⟨hmembers,-⟩ := getconn_members s id
  have htable : SameTable s (s.serviceGetconn id).1 := (SameTable.refl _).getconn id
  rw [castGroup]
  generalize hr : s.serviceGetconn id = r at hown hmembers htable
  obtain ⟨t,handed⟩ := r
  cases handed with
  | none => exact ⟨htable,hmembers,rfl⟩
  | some c =>
    have hstart := connStartCstate_member (t.conns c)
    have hid : (t.conns c).groupid = id := (hmembers.member c).groupid.trans (hown c rfl)
    refine ⟨htable.modify c fun d => connStartCstate_index d,?_,rfl⟩
    exact hmembers.trans (sameMembers_of_update rfl rfl ⟨hid.symm,hstart.status⟩)

theorem closeEntry_members (s : Service) (id : ℤ) (i : ℕ) :
    SameTable s (s.closeEntry id i) ∧ SameMembers s (s.closeEntry id i) ∧
      (s.closeEntry id i).groups = s.groups := by
  rw [closeEntry]
  cases s.connections ((s.groups id.toNat).connsFree i) with
  | none => exact ⟨.refl s,.refl s,rfl⟩
  | some c =>
    exact ⟨(SameTable.refl s).modify c connClose_index,
      sameMembers_of_update rfl rfl (connClose_member _),rfl⟩

theorem closeEntries_members (s : Service) (id : ℤ) (is : List ℕ) :
    SameTable s (is.foldl (fun s i => s.closeEntry id i) s) ∧
      SameMembers s (is.foldl (fun s i => s.closeEntry id i) s) ∧
      (is.foldl (fun s i => s.closeEntry id i) s).groups = s.groups := by
  induction is generalizing s with
  | nil => exact ⟨.refl s,.refl s,rfl⟩
  | cons i is ih =>
    obtain ⟨htable,hmembers,hgroups⟩ := closeEntry_members s id i
    obtain ⟨htable',hmembers',hgroups'⟩ := ih (s.closeEntry id i)
    exact ⟨htable.trans htable',hmembers.trans hmembers',hgroups'.trans hgroups⟩

/-- `service_closegroup` changes the one group, and closes connections. -/
theorem closegroup_members (s : Service) (id : ℤ) :
    SameTable s (s.serviceClosegroup id) ∧ SameMembers s (s.serviceClosegroup id) ∧
      ∀ j, j ≠ id.toNat → (s.serviceClosegroup id).groups j = s.groups j := by
  rw [serviceClosegroup]
  split_ifs
  · obtain ⟨htable,hmembers,hgroups⟩ := closeEntries_members
      (s.modifyGroup id fun g => { g with limit := 0 }) id
      (List.range ((s.modifyGroup id fun g => { g with limit := 0 }).groups id.toNat).nconnsFree.toNat).reverse
    have htable' := ((SameTable.refl s).modifyGroup id fun g => { g with limit := 0 }).trans htable
    have hlimit : SameMembers s (s.modifyGroup id fun g => { g with limit := 0 }) :=
      sameMembers_of_conns rfl rfl
    have hmembers' := hlimit.trans hmembers
    refine ⟨htable'.modifyGroup id _,hmembers'.trans (sameMembers_of_conns rfl rfl),fun j hj => ?_⟩
    rw [modifyGroup]
    dsimp only
    rw [Function.update_of_ne hj,hgroups]
    exact Function.update_of_ne hj _ _
  · exact ⟨.refl s,.refl s,fun _ _ => rfl⟩

/-! ### The members of a group in the table -/

/-- The members of a group stay where only connections of other groups, or none of the table,
change. -/
theorem count_connected_same (hconn : t.connections = s.connections)
    (hmember : ∀ j d, s.connections j = some d →
      ((t.conns d).groupid = id ∧ (t.conns d).status = CONN_STATUS_FREE ↔
        (s.conns d).groupid = id ∧ (s.conns d).status = CONN_STATUS_FREE)) (n : ℕ) :
    Nat.count (t.connected id) n = Nat.count (s.connected id) n := by
  apply count_congr
  intro j _
  rw [connected,connected,hconn]
  apply exists_congr
  intro d
  apply and_congr_right
  exact hmember j d

/-- A connection that comes into a free slot of the table. -/
theorem count_connected_placed (hmembers : SameMembers s t)
    (hconn : t.connections = Function.update s.connections i (some c))
    (hnone : s.connections i = none) {n : ℕ} (hi : i < n) :
    Nat.count (t.connected id) n = Nat.count (s.connected id) n +
      if (s.conns c).groupid = id ∧ (s.conns c).status = CONN_STATUS_FREE then 1 else 0 := by
  have hother : ∀ j, j ≠ i → (t.connected id j ↔ s.connected id j) := by
    intro j hj
    simp only [connected,hconn,Function.update_of_ne hj,(hmembers.member _).groupid,
      (hmembers.member _).status]
  have hold : ¬ s.connected id i := fun ⟨d,hd,_⟩ => by rw [hnone] at hd; cases hd
  have hnew : t.connected id i ↔
      (s.conns c).groupid = id ∧ (s.conns c).status = CONN_STATUS_FREE := by
    simp only [connected,hconn,Function.update_self,Option.some.injEq,exists_eq_left',
      (hmembers.member _).groupid,(hmembers.member _).status]
  split_ifs with hmember
  · exact count_fill hi hold (hnew.2 hmember) hother
  · apply count_congr
    intro j _
    by_cases hj : j = i
    · subst hj
      exact ⟨fun h => absurd (hnew.1 h) hmember,fun h => absurd h hold⟩
    · exact hother j hj

/-- A connection that becomes `CONN_STATUS_FREE` in the only slot that it has. -/
theorem count_connected_free (hngroups : t.connections = s.connections)
    (hother : ∀ d, d ≠ c → SameMember (s.conns d) (t.conns d))
    (hgroupid : (t.conns c).groupid = (s.conns c).groupid)
    (hfree : (t.conns c).status = CONN_STATUS_FREE) (hready : (s.conns c).status ≠ CONN_STATUS_FREE)
    (hslot : ∀ j, s.connections j = some c ↔ j = i) {n : ℕ} (hi : i < n) :
    Nat.count (t.connected id) n = Nat.count (s.connected id) n +
      if (s.conns c).groupid = id then 1 else 0 := by
  have hconn : ∀ j, j ≠ i → (t.connected id j ↔ s.connected id j) := by
    intro j hj
    rw [connected,connected,hngroups]
    apply exists_congr
    intro d
    apply and_congr_right
    intro hd
    have hne : d ≠ c := by
      rintro rfl
      exact hj ((hslot j).1 hd)
    rw [(hother d hne).groupid,(hother d hne).status]
  have hat : s.connections i = some c := (hslot i).2 rfl
  have hold : ¬ s.connected id i := by
    rintro ⟨d,hd,-,hstatus⟩
    rw [hat] at hd
    cases hd
    exact hready hstatus
  have hnew : t.connected id i ↔ (s.conns c).groupid = id := by
    rw [connected,hngroups,hat]
    constructor
    · rintro ⟨d,hd,hid,-⟩
      cases hd
      exact hgroupid.symm.trans hid
    · intro hid
      exact ⟨c,rfl,hgroupid.trans hid,hfree⟩
  split_ifs with hmember
  · exact count_fill hi hold (hnew.2 hmember) hconn
  · apply count_congr
    intro j _
    by_cases hj : j = i
    · subst hj
      exact ⟨fun h => absurd (hnew.1 h) hmember,fun h => absurd h hold⟩
    · exact hconn j hj

/-- An entry that is filled, and one that is cleared. -/
theorem count_fillEntry {g : Group} {k : ℕ} (hx : x < SB_GROUP_CONN_MAX) (hfree : g.connsFree x = 0)
    (hk : k ≠ 0) (h : g.nconnsFree = Nat.count (fun x => g.connsFree x ≠ 0) SB_GROUP_CONN_MAX) :
    (fillEntry g x k).nconnsFree =
      Nat.count (fun y => (fillEntry g x k).connsFree y ≠ 0) SB_GROUP_CONN_MAX := by
  have hcount := count_fill (p := fun y => g.connsFree y ≠ 0)
    (q := fun y => (fillEntry g x k).connsFree y ≠ 0) hx (not_not.2 hfree)
    (by simp only [fillEntry,Function.update_self]; exact hk)
    (fun y hy => by simp only [fillEntry,Function.update_of_ne hy])
  rw [hcount]
  push_cast
  rw [← h]
  rfl

theorem count_clearEntry {g : Group} (hx : x < SB_GROUP_CONN_MAX) (hfull : g.connsFree x ≠ 0)
    (h : g.nconnsFree = Nat.count (fun x => g.connsFree x ≠ 0) SB_GROUP_CONN_MAX) :
    (clearEntry g x).nconnsFree =
      Nat.count (fun y => (clearEntry g x).connsFree y ≠ 0) SB_GROUP_CONN_MAX := by
  have hcount := count_fill (p := fun y => (clearEntry g x).connsFree y ≠ 0)
    (q := fun y => g.connsFree y ≠ 0) hx
    (by simp only [clearEntry,Function.update_self]; exact not_not.2 rfl) hfull
    (fun y hy => by simp only [clearEntry,Function.update_of_ne hy])
  have heq : (clearEntry g x).nconnsFree = g.nconnsFree - 1 := rfl
  rw [heq,h,hcount]
  push_cast
  omega

end Service

/-! ### The invariant -/

namespace GroupWorld

open Service ServiceConn

/-- The invariant of the groups: the table is sound, what has been created for a group belongs to it,
and the accounts of every group are right, also of those that are still to be added. -/
structure Accounted (w : GroupWorld) : Prop where
  table : Tabled w.toServiceWorld
  limit : w.service.connectionsLimit ≤ SB_CONN_MAX
  ngroups : 0 ≤ w.service.ngroups ∧ w.service.ngroups < SB_GROUPS_MAX
  made : ∀ id c, c ∈ w.made id → 0 < id ∧ id ≤ w.service.ngroups ∧ (w.service.conns c).groupid = id
  pc : ∀ i, w.pc = .loop i ∨ w.pc = .count i → 0 < i ∧ i ≤ w.service.ngroups
  first : ∀ i, w.pc = .group i → 0 < i
  cast : ∀ i, w.cast = some i → 0 < i
  spare : ∀ id : ℤ, 0 < id → id < SB_GROUPS_MAX → ∀ x, SB_GROUP_CONN_MAX ≤ x →
    (w.service.groups id.toNat).connsFree x = 0
  accounts : ∀ id : ℤ, 0 < id → id < SB_GROUPS_MAX → GroupAccounts w id

variable {w w' : GroupWorld} {t : Service} {c i x : ℕ} {id : ℤ} {g : Group}

/-- The accounts of a group that a step does not touch. -/
theorem accounts_same (h : GroupAccounts w id)
    (hgroup : w'.service.groups id.toNat = w.service.groups id.toNat)
    (hcount : Nat.count (w'.service.connected id) w'.service.connectionsLimit.toNat =
      Nat.count (w.service.connected id) w.service.connectionsLimit.toNat)
    (huncounted : w'.uncounted id = w.uncounted id) (hmade : w'.made id = w.made id) :
    GroupAccounts w' id where
  free := by rw [hgroup]; exact h.free
  nconnected := by rw [hgroup,hcount]; exact h.nconnected
  total := by rw [hgroup,huncounted,hmade]; exact h.total
  limit := by rw [hgroup,huncounted]; exact h.limit

theorem toNat_ne {a b : ℤ} (ha : 0 < a) (hab : a ≠ b) : a.toNat ≠ b.toNat := by omega

theorem grouped_iff (d : ServiceConn) :
    d.grouped = true ↔ 0 < d.groupid ∧ d.groupid < SB_GROUPS_MAX := by
  rw [grouped,decide_eq_true_eq]

/-- What an operation on a free list makes of a group. -/
structure Relisted (g g' : Group) : Prop where
  free : g'.nconnsFree = Nat.count (fun x => g'.connsFree x ≠ 0) SB_GROUP_CONN_MAX
  spare : ∀ x, SB_GROUP_CONN_MAX ≤ x → g'.connsFree x = 0
  nconnected : g'.nconnected = g.nconnected
  total : g'.total = g.total
  limit : g'.limit = g.limit

namespace Accounted

theorem relisted (h : Accounted w) (hpos : 0 < id) (hmax : id < SB_GROUPS_MAX) :
    Relisted (w.service.groups id.toNat) (w.service.groups id.toNat) :=
  ⟨(h.accounts id hpos hmax).free,h.spare id hpos hmax,rfl,rfl,rfl⟩

theorem fill (h : Accounted w) (hpos : 0 < id) (hmax : id < SB_GROUPS_MAX)
    (hx : w.service.freeGroupSlot id = some x) {k : ℕ} (hk : k ≠ 0) :
    Relisted (w.service.groups id.toNat) (fillEntry (w.service.groups id.toNat) x k) := by
  obtain ⟨-,hlt,hfree⟩ := mem_of_seek hx
  rw [decide_eq_true_eq] at hfree
  refine ⟨count_fillEntry hlt hfree hk (h.accounts id hpos hmax).free,?_,rfl,rfl,rfl⟩
  intro y hy
  have hne : y ≠ x := by omega
  exact (Function.update_of_ne hne _ _).trans (h.spare id hpos hmax y hy)

theorem clear (h : Accounted w) (hpos : 0 < id) (hmax : id < SB_GROUPS_MAX)
    (hx : (w.service.groups id.toNat).connsFree x ≠ 0) :
    Relisted (w.service.groups id.toNat) (clearEntry (w.service.groups id.toNat) x) := by
  have hlt : x < SB_GROUP_CONN_MAX := by
    by_contra hge
    exact hx (h.spare id hpos hmax x (not_lt.1 hge))
  refine ⟨count_clearEntry hlt hx (h.accounts id hpos hmax).free,?_,rfl,rfl,rfl⟩
  intro y hy
  have hne : y ≠ x := by omega
  exact (Function.update_of_ne hne _ _).trans (h.spare id hpos hmax y hy)

/-- One group that changes, among all of them. -/
theorem relisted_update (h : Accounted w) {gid : ℤ} (hgid : 0 < gid)
    (hg : Relisted (w.service.groups gid.toNat) g) (hgroups : t.groups =
      Function.update w.service.groups gid.toNat g) (hpos : 0 < id) (hmax : id < SB_GROUPS_MAX) :
    Relisted (w.service.groups id.toNat) (t.groups id.toNat) := by
  rw [hgroups]
  by_cases hid : id = gid
  · subst hid
    rw [Function.update_self]
    exact hg
  · rw [Function.update_of_ne (toNat_ne hpos hid)]
    exact h.relisted hpos hmax

theorem relisted_same (h : Accounted w) (hgroups : t.groups = w.service.groups) (hpos : 0 < id)
    (hmax : id < SB_GROUPS_MAX) : Relisted (w.service.groups id.toNat) (t.groups id.toNat) := by
  rw [hgroups]
  exact h.relisted hpos hmax

/-- An operation that keeps the groups of the connections, up to the accounts of each. -/
theorem of_members (h : Accounted w) (htabled : Tabled w'.toServiceWorld)
    (hlimit : w'.service.connectionsLimit = w.service.connectionsLimit)
    (hngroups : w'.service.ngroups = w.service.ngroups)
    (hgroupid : ∀ c, (w'.service.conns c).groupid = (w.service.conns c).groupid)
    (hpc : w'.pc = w.pc) (hcast : w'.cast = w.cast) (hmade : ∀ id, w'.made id ⊆ w.made id)
    (hspare : ∀ id : ℤ, 0 < id → id < SB_GROUPS_MAX → ∀ x, SB_GROUP_CONN_MAX ≤ x →
      (w'.service.groups id.toNat).connsFree x = 0)
    (haccounts : ∀ id : ℤ, 0 < id → id < SB_GROUPS_MAX → GroupAccounts w' id) : Accounted w' where
  table := htabled
  limit := hlimit.trans_le h.limit
  ngroups := by rw [hngroups]; exact h.ngroups
  made id c hc := by rw [hngroups,hgroupid]; exact h.made id c (hmade id hc)
  pc i hi := by rw [hngroups]; rw [hpc] at hi; exact h.pc i hi
  first i hi := h.first i (hpc.symm.trans hi)
  cast i hi := h.cast i (hcast.symm.trans hi)
  spare := hspare
  accounts := haccounts

/-- An operation on free lists, which leaves the table alone. -/
theorem lists (h : Accounted w) (htable : SameTable w.service t) (hmembers : SameMembers w.service t)
    (hgroups : ∀ id : ℤ, 0 < id → id < SB_GROUPS_MAX →
      Relisted (w.service.groups id.toNat) (t.groups id.toNat)) (held : Finset ℕ) :
    Accounted { w with toServiceWorld := ⟨t,w.pushed,held⟩ } := by
  refine h.of_members (h.table.sameTable htable held) htable.connectionsLimit hmembers.ngroups
    (fun c => (hmembers.member c).groupid) rfl rfl (fun _ => Finset.Subset.refl _) ?_ ?_
  · exact fun id hpos hmax => (hgroups id hpos hmax).spare
  · intro id hpos hmax
    have hold := h.accounts id hpos hmax
    have hnew := hgroups id hpos hmax
    have hcount : Nat.count (t.connected id) t.connectionsLimit.toNat =
        Nat.count (w.service.connected id) w.service.connectionsLimit.toNat := by
      rw [htable.connectionsLimit]
      apply count_connected_same htable.connections
      intro j d _
      rw [(hmembers.member d).groupid,(hmembers.member d).status]
    refine ⟨hnew.free,?_,?_,?_⟩
    · exact (hnew.nconnected.trans hold.nconnected).trans (congrArg Nat.cast hcount.symm)
    · change (t.groups id.toNat).total + w.uncounted id = _
      rw [hnew.total]
      exact hold.total
    · change 0 < (t.groups id.toNat).limit → (t.groups id.toNat).total + w.uncounted id ≤ _
      rw [hnew.total,hnew.limit]
      exact hold.limit

theorem getconn (h : Accounted w) (gid : ℤ) :
    Accounted (w.service' (.getconn gid)) := by
  obtain ⟨hmembers,hgroups⟩ := getconn_members w.service gid
  apply h.lists ((SameTable.refl _).getconn gid) hmembers
  intro id hpos hmax
  obtain hsame | ⟨x,hgpos,hgle,hx,hgroups⟩ := hgroups
  · exact h.relisted_same hsame hpos hmax
  · have hgmax := hgle.trans_lt h.ngroups.2
    exact h.relisted_update hgpos (h.clear hgpos hgmax hx) hgroups hpos hmax

theorem close (h : Accounted w) (c : ℕ) : Accounted (w.service' (.close c)) :=
  h.lists ((SameTable.refl _).modify c connClose_index) (sameMembers_of_update rfl rfl
    (connClose_member _)) (fun _ hpos hmax => h.relisted hpos hmax) w.held

/-- `service_freeconn`, which keeps the accounts also behind other operations that leave them. -/
theorem freeconn_lists (h : Accounted w) (hc : Returned w.service c) :
    SameMembers w.service (w.service.serviceFreeconn c) ∧ ∀ id : ℤ, 0 < id → id < SB_GROUPS_MAX →
      Relisted (w.service.groups id.toNat) ((w.service.serviceFreeconn c).groups id.toNat) := by
  obtain ⟨hmembers,hgroups⟩ := freeconn_members w.service c
  refine ⟨hmembers,fun id hpos hmax => ?_⟩
  obtain hsame | ⟨hgrouped,hopen,x,hx,hgroups⟩ := hgroups
  · exact h.relisted_same hsame hpos hmax
  · obtain ⟨hgpos,hgmax⟩ := (grouped_iff _).1 hgrouped
    obtain ⟨hipos,hilt⟩ := hc hgrouped hopen
    have hlimit := h.limit
    have hk : ushortOfInt (w.service.conns c).index ≠ 0 := by
      rw [ushortOfInt]
      have hmax : SB_CONN_MAX = 40960 := rfl
      omega
    exact h.relisted_update hgpos (h.fill hgpos hgmax hx hk) hgroups hpos hmax

theorem freeconn (h : Accounted w) (hc : Returned w.service c) :
    Accounted (w.service' (.freeconn c)) :=
  h.lists ((SameTable.refl _).freeconn c) (h.freeconn_lists hc).1 (h.freeconn_lists hc).2 _

theorem overSession (h : Accounted w) (hc : closing (w.service.conns c).dState ∨
    w.service.givesBack c = false ∨ Returned w.service c) :
    Accounted (w.service' (.overSession c)) := by
  let s := w.service.modify c ServiceConn.sessionReset
  have hconn : s.conns c = (w.service.conns c).sessionReset := Function.update_self ..
  have hreset : Accounted { w with toServiceWorld := ⟨s,w.pushed,w.held⟩ } :=
    h.lists (t := s) ((SameTable.refl _).modify c fun _ => rfl)
      (sameMembers_of_update rfl rfl (sessionReset_member _))
      (fun _ hpos hmax => h.relisted hpos hmax) w.held
  have hgives : s.givesBack c = w.service.givesBack c := by
    simp only [givesBack,hconn]
    rfl
  change Accounted { w with toServiceWorld := w.toServiceWorld.overSession c }
  rw [ServiceWorld.overSession,connOverSession]
  by_cases hclosing : closing (w.service.conns c).dState
  · simp only [hclosing,if_true,Bool.true_eq_false,false_and,if_false]
    exact h
  · rw [if_neg hclosing]
    change Accounted { w with toServiceWorld := ⟨if s.givesBack c then s.serviceFreeconn c else s,_,_⟩ }
    rw [hgives]
    by_cases hback : w.service.givesBack c
    · rw [if_pos hback]
      have hreturned : Returned s c := by
        have hold := (hc.resolve_left hclosing).resolve_left (by rw [hback]; decide)
        simp only [Returned,hconn]
        exact hold
      exact hreset.lists ((SameTable.refl _).freeconn c) (hreset.freeconn_lists hreturned).1
        (hreset.freeconn_lists hreturned).2 _
    · rw [if_neg hback]
      exact hreset.lists (SameTable.refl _) (SameMembers.refl _)
        (fun _ hpos hmax => hreset.relisted hpos hmax) _

theorem index_lt (h : Accounted w) (hi : w.service.freeSlot = some i) :
    0 < i ∧ i < w.service.connectionsLimit.toNat ∧ ushortOfInt i = i ∧
      w.service.connections i = none := by
  obtain ⟨hpos,hlt,hnone⟩ := freeSlot_spec hi
  have hlimit := h.limit
  have hmax : SB_CONN_MAX = 40960 := rfl
  exact ⟨hpos,by omega,ushortOfInt_natCast (by omega),hnone⟩

theorem pushconn (h : Accounted w) (hnew : c ∉ w.pushed ∨ w.service.Full)
    (hroom : (w.service.conns c).grouped → (w.service.conns c).status = CONN_STATUS_FREE →
      w.service.Full ∨ w.service.freeGroupSlot (w.service.conns c).groupid ≠ none) :
    Accounted (w.service' (.pushconn c)) := by
  have htabled : Tabled (ServiceOp.apply w.toServiceWorld (.pushconn c)) := h.table.step hnew
  cases hi : w.service.freeSlot with
  | none =>
    obtain ⟨htable,hret⟩ := pushconn_full (c := c) h.table.lock hi
    obtain ⟨hmembers,hgroups⟩ := pushconn_full_members (c := c) h.table.lock hi
    have hsame := h.lists htable hmembers (fun _ => h.relisted_same hgroups) w.held
    have hworld : w.service' (.pushconn c) =
        { w with toServiceWorld := ⟨(w.service.servicePushconn c).1,w.pushed,w.held⟩ } := by
      simp only [service',ServiceOp.apply,ServiceWorld.pushconn,hret]
      rfl
    rw [hworld]
    exact hsame
  | some i =>
    obtain ⟨htable,-⟩ := pushconn_table (c := c) h.table.lock hi
    obtain ⟨hmembers,hgroups⟩ := pushconn_members (c := c) h.table.lock hi
    obtain ⟨hipos,hilt,hushort,hnone⟩ := h.index_lt hi
    have hconn : (w.service.servicePushconn c).1.connections =
        Function.update w.service.connections i (some c) := htable.connections
    have hlimit : (w.service.servicePushconn c).1.connectionsLimit =
        w.service.connectionsLimit := htable.connectionsLimit
    have hfull : ¬ w.service.Full := by
      rw [← freeSlot_eq_none_iff,hi]
      exact Option.some_ne_none i
    have hcount : ∀ id, Nat.count ((w.service.servicePushconn c).1.connected id)
        w.service.connectionsLimit.toNat = Nat.count (w.service.connected id)
          w.service.connectionsLimit.toNat + if (w.service.conns c).groupid = id ∧
            (w.service.conns c).status = CONN_STATUS_FREE then 1 else 0 :=
      fun id => count_connected_placed hmembers hconn hnone hilt
    -- a group other than that of the connection is the same, and so are its members
    have hother : ∀ id : ℤ, 0 < id → (w.service.conns c).groupid ≠ id →
        (w.service.servicePushconn c).1.groups id.toNat = w.service.groups id.toNat := by
      intro id hpos hid
      rw [hgroups]
      split_ifs with hgrouped
      · exact Function.update_of_ne (toNat_ne hpos hid.symm) _ _
      · rfl
    have hown : ∀ id : ℤ, 0 < id → id < SB_GROUPS_MAX → (w.service.conns c).groupid = id →
        (w.service.servicePushconn c).1.groups id.toNat = joined (w.service.groups id.toNat)
          (w.service.freeGroupSlot id) i (w.service.conns c).status := by
      intro id hpos hmax hid
      rw [hgroups,if_pos ((grouped_iff _).2 (by rw [hid]; exact ⟨hpos,hmax⟩)),hid]
      exact Function.update_self ..
    refine h.of_members htabled hlimit hmembers.ngroups (fun d => (hmembers.member d).groupid)
      rfl rfl (fun _ => Finset.Subset.refl _) ?_ ?_
    · intro id hpos hmax x hx
      change ((w.service.servicePushconn c).1.groups id.toNat).connsFree x = 0
      by_cases hid : (w.service.conns c).groupid = id
      · rw [hown id hpos hmax hid]
        cases hslot : w.service.freeGroupSlot id with
        | none => exact h.spare id hpos hmax x hx
        | some y => exact (h.fill hpos hmax hslot (k := ushortOfInt i) (by omega)).spare x hx
      · rw [hother id hpos hid]
        exact h.spare id hpos hmax x hx
    · intro id hpos hmax
      have hold := h.accounts id hpos hmax
      have hnconn : ∀ n : ℤ, n = (w.service.groups id.toNat).nconnected +
          (if (w.service.conns c).groupid = id ∧ (w.service.conns c).status = CONN_STATUS_FREE
            then 1 else 0) →
          n = Nat.count ((w.service.servicePushconn c).1.connected id)
            (w.service.servicePushconn c).1.connectionsLimit.toNat := by
        intro n hn
        rw [hlimit,hcount id,hn,hold.nconnected]
        push_cast
        rfl
      by_cases hid : (w.service.conns c).groupid = id
      · have hgroup := hown id hpos hmax hid
        cases hslot : w.service.freeGroupSlot id with
        | none =>
          rw [hslot] at hgroup
          have hready : (w.service.conns c).status ≠ CONN_STATUS_FREE := by
            intro hfree
            have hgrouped := (grouped_iff (w.service.conns c)).2 (by rw [hid]; exact ⟨hpos,hmax⟩)
            obtain hbad | hbad := hroom hgrouped hfree
            · exact hfull hbad
            · exact hbad (by rw [hid,hslot])
          refine accounts_same hold hgroup ?_ rfl rfl
          change Nat.count _ (w.service.servicePushconn c).1.connectionsLimit.toNat = _
          rw [hlimit]
          exact (hcount id).trans (by rw [if_neg fun hfree => hready hfree.2]; rfl)
        | some x =>
          rw [hslot] at hgroup
          have hfill := h.fill hpos hmax hslot (k := ushortOfInt i) (by omega)
          refine ⟨?_,?_,?_,?_⟩
          · change ((w.service.servicePushconn c).1.groups id.toNat).nconnsFree = Nat.count (fun y =>
              ((w.service.servicePushconn c).1.groups id.toNat).connsFree y ≠ 0) _
            rw [hgroup]
            exact hfill.free
          · apply hnconn
            change ((w.service.servicePushconn c).1.groups id.toNat).nconnected = _
            rw [hgroup]
            simp only [joined,hid,true_and]
            split_ifs
            · rfl
            · exact (add_zero _).symm
          · change ((w.service.servicePushconn c).1.groups id.toNat).total + w.uncounted id = _
            rw [hgroup]
            exact hold.total
          · change 0 < ((w.service.servicePushconn c).1.groups id.toNat).limit →
              ((w.service.servicePushconn c).1.groups id.toNat).total + w.uncounted id ≤
                ((w.service.servicePushconn c).1.groups id.toNat).limit
            rw [hgroup]
            exact hold.limit
      · refine accounts_same hold (hother id hpos hid) ?_ rfl rfl
        change Nat.count _ (w.service.servicePushconn c).1.connectionsLimit.toNat = _
        rw [hlimit]
        exact (hcount id).trans (by rw [if_neg fun hmember => hid hmember.1]; rfl)

/-- A connection leaves its group with the table. -/
theorem left_relisted (h : Accounted w) (hpos : 0 < id) (hmax : id < SB_GROUPS_MAX)
    (d : ServiceConn) :
    (left (w.service.groups id.toNat) d).nconnsFree =
        Nat.count (fun x => (left (w.service.groups id.toNat) d).connsFree x ≠ 0)
          SB_GROUP_CONN_MAX ∧
      ∀ x, SB_GROUP_CONN_MAX ≤ x → (left (w.service.groups id.toNat) d).connsFree x = 0 := by
  rw [left]
  dsimp only
  split_ifs with hentry
  all_goals first
    | exact ⟨(h.clear hpos hmax (by omega)).free,(h.clear hpos hmax (by omega)).spare⟩
    | exact ⟨(h.relisted hpos hmax).free,(h.relisted hpos hmax).spare⟩

theorem popconn (h : Accounted w) (hmade : w.service.listed c → (w.service.conns c).grouped →
      c ∈ w.made (w.service.conns c).groupid) : Accounted (w.service' (.popconn c)) := by
  by_cases hc : w.service.listed c
  · obtain ⟨htable,hret⟩ := popconn_table h.table.lock hc
    obtain ⟨hmembers,hgroups⟩ := popconn_members h.table.lock hc
    obtain ⟨i,hipos,hindex,hi⟩ := Tabled.slot_of_listed hc
    have hilt : i < w.service.connectionsLimit.toNat := by
      have hbelow := h.table.below i c hi
      have hlt := h.table.indexMax_lt
      omega
    have hconn : (w.service.servicePopconn c).1.connections =
        Function.update w.service.connections i none := by
      rw [htable.connections]
      simp only [vacate,hindex,Int.toNat_natCast]
    have hlimit : (w.service.servicePopconn c).1.connectionsLimit =
        w.service.connectionsLimit := htable.connectionsLimit
    -- putting the connection back into its slot gives the table that it was taken from
    have hback : w.service.connections = Function.update (w.service.servicePopconn c).1.connections i
        (some c) := by
      rw [hconn,Function.update_idem,← hi,Function.update_eq_self]
    have hcount : ∀ id, Nat.count (w.service.connected id) w.service.connectionsLimit.toNat =
        Nat.count ((w.service.servicePopconn c).1.connected id)
          w.service.connectionsLimit.toNat + if (w.service.conns c).groupid = id ∧
            (w.service.conns c).status = CONN_STATUS_FREE then 1 else 0 := by
      intro id
      rw [count_connected_placed (hmembers.symm) hback (by rw [hconn,Function.update_self]) hilt,
        (hmembers.member c).groupid,(hmembers.member c).status]
    have hother : ∀ id : ℤ, 0 < id → (w.service.conns c).groupid ≠ id →
        (w.service.servicePopconn c).1.groups id.toNat = w.service.groups id.toNat := by
      intro id hpos hid
      rw [hgroups]
      split_ifs with hgrouped
      · exact Function.update_of_ne (toNat_ne hpos hid.symm) _ _
      · rfl
    have hown : ∀ id : ℤ, 0 < id → id < SB_GROUPS_MAX → (w.service.conns c).groupid = id →
        (w.service.servicePopconn c).1.groups id.toNat =
          left (w.service.groups id.toNat) (w.service.conns c) := by
      intro id hpos hmax hid
      rw [hgroups,if_pos ((grouped_iff _).2 (by rw [hid]; exact ⟨hpos,hmax⟩)),hid]
      exact Function.update_self ..
    have hmade' : (w.service' (.popconn c)).made = fun id => (w.made id).erase c := if_pos hret
    have htabled : Tabled (ServiceOp.apply w.toServiceWorld (.popconn c)) := h.table.step trivial
    refine h.of_members htabled hlimit hmembers.ngroups (fun d => (hmembers.member d).groupid)
      rfl rfl ?_ ?_ ?_
    · intro id
      rw [hmade']
      exact Finset.erase_subset c _
    · intro id hpos hmax x hx
      change ((w.service.servicePopconn c).1.groups id.toNat).connsFree x = 0
      by_cases hid : (w.service.conns c).groupid = id
      · rw [hown id hpos hmax hid]
        exact (h.left_relisted hpos hmax _).2 x hx
      · rw [hother id hpos hid]
        exact h.spare id hpos hmax x hx
    · intro id hpos hmax
      have hold := h.accounts id hpos hmax
      by_cases hid : (w.service.conns c).groupid = id
      · have hgroup := hown id hpos hmax hid
        have hmember : c ∈ w.made id := by
          rw [← hid]
          exact hmade hc ((grouped_iff _).2 (by rw [hid]; exact ⟨hpos,hmax⟩))
        have hcard := Finset.card_erase_add_one hmember
        have htotal : ((w.service.servicePopconn c).1.groups id.toNat).total =
          (w.service.groups id.toNat).total - 1 := by
          rw [hgroup]
          simp only [left,clearEntry]
          split_ifs <;> rfl
        have hsame : ((w.service.servicePopconn c).1.groups id.toNat).limit =
          (w.service.groups id.toNat).limit := by
          rw [hgroup]
          simp only [left,clearEntry]
          split_ifs <;> rfl
        have hnconn : ((w.service.servicePopconn c).1.groups id.toNat).nconnected =
            (w.service.groups id.toNat).nconnected -
              if (w.service.conns c).status = CONN_STATUS_FREE then 1 else 0 := by
          rw [hgroup]
          simp only [left,clearEntry]
          split_ifs <;> first | rfl | exact (sub_zero _).symm
        have holdtotal := hold.total
        have holdlimit := hold.limit
        refine ⟨?_,?_,?_,?_⟩
        · change ((w.service.servicePopconn c).1.groups id.toNat).nconnsFree = Nat.count (fun y =>
            ((w.service.servicePopconn c).1.groups id.toNat).connsFree y ≠ 0) _
          rw [hgroup]
          exact (h.left_relisted hpos hmax _).1
        · change ((w.service.servicePopconn c).1.groups id.toNat).nconnected =
            Nat.count ((w.service.servicePopconn c).1.connected id)
              (w.service.servicePopconn c).1.connectionsLimit.toNat
          rw [hnconn,hold.nconnected,hlimit,hcount id]
          simp only [hid,true_and]
          push_cast
          omega
        · rw [hmade']
          change ((w.service.servicePopconn c).1.groups id.toNat).total + w.uncounted id =
            ((w.made id).erase c).card
          omega
        · change 0 < ((w.service.servicePopconn c).1.groups id.toNat).limit →
            ((w.service.servicePopconn c).1.groups id.toNat).total + w.uncounted id ≤
              ((w.service.servicePopconn c).1.groups id.toNat).limit
          omega
      · have hmember : c ∉ w.made id := fun hmem => hid (h.made id c hmem).2.2
        refine accounts_same hold (hother id hpos hid) ?_ rfl ?_
        · change Nat.count _ (w.service.servicePopconn c).1.connectionsLimit.toNat = _
          rw [hlimit,hcount id,if_neg fun hboth => hid hboth.1]
          rfl
        · rw [hmade']
          exact Finset.erase_eq_of_notMem hmember
  · have hworld : w.service' (.popconn c) = w := by
      simp only [service',ServiceOp.apply,ServiceWorld.popconn,popconn_refused hc]
      rfl
    rw [hworld]
    exact h

theorem okconn (h : Accounted w) (hc : (w.service.conns c).grouped →
      if (w.service.conns c).groupid ≤ w.service.ngroups then
        c ∈ w.pushed ∧ (w.service.conns c).status ≠ CONN_STATUS_FREE
      else c ∉ w.pushed ∨ (w.service.conns c).status = CONN_STATUS_FREE) :
    Accounted (w.service' (.okconn c)) := by
  let t := w.service.serviceOkconn c
  have htable : SameTable w.service t := (SameTable.refl _).okconn c
  have hngroups : t.ngroups = w.service.ngroups := by
    simp only [t,serviceOkconn]
    split_ifs <;> rfl
  have hconns : t.conns = Function.update w.service.conns c
      { w.service.conns c with status := CONN_STATUS_FREE } := by
    simp only [t,serviceOkconn]
    split_ifs <;> rfl
  have hself : t.conns c = { w.service.conns c with status := CONN_STATUS_FREE } := by
    rw [hconns,Function.update_self]
  have hrest : ∀ d, d ≠ c → t.conns d = w.service.conns d := fun d hd => by
    rw [hconns,Function.update_of_ne hd]
  have hgroupid : ∀ d, (t.conns d).groupid = (w.service.conns d).groupid := by
    intro d
    by_cases hd : d = c
    · subst hd
      rw [hself]
    · rw [hrest d hd]
  have hgroups : t.groups =
      if 0 < (w.service.conns c).groupid ∧ (w.service.conns c).groupid ≤ w.service.ngroups then
        Function.update w.service.groups (w.service.conns c).groupid.toNat
          { w.service.groups (w.service.conns c).groupid.toNat with
            nconnected := (w.service.groups (w.service.conns c).groupid.toNat).nconnected + 1 }
      else w.service.groups := by
    simp only [t,serviceOkconn]
    split_ifs <;> rfl
  have hlist : ∀ id : ℤ, 0 < id → (t.groups id.toNat).connsFree =
      (w.service.groups id.toNat).connsFree ∧ (t.groups id.toNat).nconnsFree =
      (w.service.groups id.toNat).nconnsFree ∧ (t.groups id.toNat).total =
      (w.service.groups id.toNat).total ∧ (t.groups id.toNat).limit =
      (w.service.groups id.toNat).limit := by
    intro id hpos
    rw [hgroups]
    split_ifs with hadded
    · by_cases hid : id = (w.service.conns c).groupid
      · rw [hid,Function.update_self]
        exact ⟨rfl,rfl,rfl,rfl⟩
      · rw [Function.update_of_ne (toNat_ne hpos hid)]
        exact ⟨rfl,rfl,rfl,rfl⟩
    · exact ⟨rfl,rfl,rfl,rfl⟩
  refine h.of_members (h.table.sameTable htable w.held) htable.connectionsLimit hngroups hgroupid
    rfl rfl (fun _ => Finset.Subset.refl _) ?_ ?_
  · intro id hpos hmax x hx
    change (t.groups id.toNat).connsFree x = 0
    rw [(hlist id hpos).1]
    exact h.spare id hpos hmax x hx
  · intro id hpos hmax
    have hold := h.accounts id hpos hmax
    obtain ⟨hentries,hfree,htotal,hlimit⟩ := hlist id hpos
    have hnconn : (t.groups id.toNat).nconnected =
        Nat.count (t.connected id) t.connectionsLimit.toNat := by
      rw [htable.connectionsLimit]
      by_cases hid : (w.service.conns c).groupid = id
      · have hcase := hc ((grouped_iff _).2 (by rw [hid]; exact ⟨hpos,hmax⟩))
        rw [hid] at hcase
        split_ifs at hcase with hadded
        · obtain ⟨hmem,hready⟩ := hcase
          obtain ⟨i,hi⟩ := h.table.present c hmem
          have hslot : ∀ j, w.service.connections j = some c ↔ j = i :=
            fun j => ⟨fun hj => h.table.once hj hi,fun hj => by rw [hj]; exact hi⟩
          have hilt : i < w.service.connectionsLimit.toNat := by
            have hbelow := h.table.below i c hi
            have hlt := h.table.indexMax_lt
            omega
          rw [count_connected_free htable.connections (fun d hd => by rw [hrest d hd]; exact ⟨rfl,rfl⟩)
            (hgroupid c) (by rw [hself]) hready hslot hilt,if_pos hid,hgroups,hid,
            if_pos ⟨hpos,hadded⟩,Function.update_self]
          push_cast
          rw [← hold.nconnected]
        · have hsame : t.groups id.toNat = w.service.groups id.toNat := by
            rw [hgroups,hid,if_neg fun hboth => hadded hboth.2]
          rw [hsame,hold.nconnected]
          congr 1
          symm
          apply count_connected_same htable.connections
          intro j d hd
          by_cases hdc : d = c
          · subst hdc
            have hmem := ((h.table.slots j d).1 hd).1
            have hstatus := hcase.resolve_left (not_not.2 hmem)
            rw [hself,hstatus]
          · rw [hrest d hdc]
      · have hsame : t.groups id.toNat = w.service.groups id.toNat := by
          rw [hgroups]
          split_ifs
          · exact Function.update_of_ne (toNat_ne hpos (Ne.symm hid)) _ _
          · rfl
        rw [hsame,hold.nconnected]
        congr 1
        symm
        apply count_connected_same htable.connections
        intro j d _
        by_cases hdc : d = c
        · subst hdc
          rw [hgroupid]
          exact ⟨fun hboth => absurd hboth.1 hid,fun hboth => absurd hboth.1 hid⟩
        · rw [hrest d hdc]
    refine ⟨?_,hnconn,?_,?_⟩
    · change (t.groups id.toNat).nconnsFree = Nat.count (fun x => (t.groups id.toNat).connsFree x ≠ 0) _
      rw [hentries,hfree]
      exact hold.free
    · change (t.groups id.toNat).total + w.uncounted id = _
      rw [htotal]
      exact hold.total
    · change 0 < (t.groups id.toNat).limit →
        (t.groups id.toNat).total + w.uncounted id ≤ (t.groups id.toNat).limit
      rw [htotal,hlimit]
      exact hold.limit

/-- The position of a loop, which the accounts do not read. -/
theorem withCast (h : Accounted w) {cast : Option ℤ} (hcast : ∀ i, cast = some i → 0 < i) :
    Accounted { w with cast := cast } :=
  ⟨h.table,h.limit,h.ngroups,h.made,h.pc,h.first,hcast,h.spare,fun id hpos hmax =>
    accounts_same (h.accounts id hpos hmax) rfl rfl rfl rfl⟩

theorem castgroup (h : Accounted w) (hown : ∀ i c, w.cast = some i → i ≤ w.service.ngroups →
      (w.service.serviceGetconn i).2 = some c → (w.service.conns c).groupid = i) :
    Accounted w.castgroup := by
  rw [GroupWorld.castgroup]
  cases hcast : w.cast with
  | none =>
    dsimp only
    split_ifs
    · apply h.withCast
      intro i hi
      cases hi
      exact one_pos
    · exact h
  | some gid =>
    have hgid := h.cast gid hcast
    dsimp only
    split_ifs with hle
    · have hgmax := hle.trans_lt h.ngroups.2
      obtain ⟨htable,hmembers,hgroups⟩ := castGroup_members fun c => hown gid c hcast hle
      have hlists := h.lists htable hmembers (fun id hpos hmax => by
        rw [hgroups]
        obtain hsame | ⟨x,-,-,hx,hclear⟩ := (getconn_members w.service gid).2
        · exact h.relisted_same hsame hpos hmax
        · exact h.relisted_update hgid (h.clear hgid hgmax hx) hclear hpos hmax)
        ((w.service.serviceGetconn gid).2.elim w.held fun c => insert c w.held)
      apply hlists.withCast
      intro i hi
      cases hi
      omega
    · exact h.withCast nofun

/-- A step of `service_stategroup` outside of its loop. -/
theorem withPc (h : Accounted w) {pc : StatePc} (hold : ∀ i, w.pc ≠ .count i)
    (hnew : ∀ i, pc ≠ .count i) (hloop : ∀ i, pc = .loop i → 0 < i ∧ i ≤ w.service.ngroups)
    (hgroup : ∀ i, pc = .group i → 0 < i) : Accounted { w with pc := pc } := by
  refine ⟨h.table,h.limit,h.ngroups,h.made,?_,hgroup,h.cast,h.spare,?_⟩
  · intro i hi
    exact hloop i (hi.resolve_right (hnew i))
  · intro id hpos hmax
    refine accounts_same (h.accounts id hpos hmax) rfl rfl ?_ rfl
    rw [uncounted,uncounted,if_neg (hnew id),if_neg (hold id)]

/-- The call of `service_newconn` in the loop. -/
theorem newconn (h : Accounted w) {gid : ℤ} {d : ServiceConn} (hpc : w.pc = .loop gid)
    (hpushed : c ∉ w.pushed) (hmade : ∀ id, c ∉ w.made id)
    (hopen : 0 < (w.service.groups gid.toNat).limit ∧
      (w.service.groups gid.toNat).total < (w.service.groups gid.toNat).limit) :
    Accounted { w with service := w.service.modify c fun _ => { d with groupid := gid },
                       made := Function.update w.made gid (insert c (w.made gid)),
                       pc := .count gid } := by
  obtain ⟨hgid,hle⟩ := h.pc gid (.inl hpc)
  have hconn : ∀ e, e ≠ c → (w.service.modify c fun _ => { d with groupid := gid }).conns e =
      w.service.conns e := fun e he => Function.update_of_ne he _ _
  have hself : (w.service.modify c fun _ => { d with groupid := gid }).conns c =
      { d with groupid := gid } := Function.update_self ..
  have hslot : ∀ j e, w.service.connections j = some e → e ≠ c := by
    rintro j e he rfl
    exact hpushed ((h.table.slots j e).1 he).1
  have hzero : ∀ id, w.uncounted id = 0 := fun id => if_neg (by rw [hpc]; nofun)
  refine ⟨?_,h.limit,h.ngroups,?_,?_,nofun,h.cast,h.spare,?_⟩
  · refine ⟨h.table.lock,?_,h.table.present,h.table.unused,h.table.running,h.table.below,
      h.table.indexMax_lt⟩
    intro j e
    change w.service.connections j = some e ↔ e ∈ w.pushed ∧
      ((w.service.modify c fun _ => { d with groupid := gid }).conns e).index = j
    by_cases he : e = c
    · subst he
      exact ⟨fun hj => absurd rfl (hslot j e hj),fun hj => absurd hj.1 hpushed⟩
    · rw [hconn e he]
      exact h.table.slots j e
  · intro id e he
    change e ∈ Function.update w.made gid (insert c (w.made gid)) id at he
    change 0 < id ∧ id ≤ w.service.ngroups ∧
      ((w.service.modify c fun _ => { d with groupid := gid }).conns e).groupid = id
    by_cases hid : id = gid
    · subst hid
      rw [Function.update_self,Finset.mem_insert] at he
      obtain rfl | he := he
      · rw [hself]
        exact ⟨hgid,hle,rfl⟩
      · have hne : e ≠ c := fun heq => hmade id (heq ▸ he)
        rw [hconn e hne]
        exact h.made id e he
    · rw [Function.update_of_ne hid] at he
      have hne : e ≠ c := fun heq => hmade id (heq ▸ he)
      rw [hconn e hne]
      exact h.made id e he
  · intro j hj
    obtain hj | hj := hj <;> cases hj
    exact ⟨hgid,hle⟩
  · intro id hpos hmax
    have hold := h.accounts id hpos hmax
    have htotal := hold.total
    have hlimit := hold.limit
    rw [hzero id] at htotal hlimit
    have hcount : Nat.count ((w.service.modify c fun _ => { d with groupid := gid }).connected id)
        w.service.connectionsLimit.toNat =
        Nat.count (w.service.connected id) w.service.connectionsLimit.toNat := by
      refine count_connected_same (s := w.service)
        (t := w.service.modify c fun _ => { d with groupid := gid }) rfl ?_ _
      intro j e he
      rw [hconn e (hslot j e he)]
    by_cases hid : id = gid
    · subst hid
      have hcounting : (if StatePc.count id = .count id then 1 else 0 : ℤ) = 1 := if_pos rfl
      refine ⟨hold.free,hold.nconnected.trans (congrArg Nat.cast hcount.symm),?_,?_⟩
      · change (w.service.groups id.toNat).total + (if StatePc.count id = .count id then 1 else 0) =
          ((Function.update w.made id (insert c (w.made id)) id).card : ℤ)
        rw [hcounting,Function.update_self,Finset.card_insert_of_notMem (hmade id)]
        push_cast
        omega
      · change _ → (w.service.groups id.toNat).total + (if StatePc.count id = .count id then 1 else 0) ≤
          (w.service.groups id.toNat).limit
        rw [hcounting]
        omega
    · refine accounts_same hold rfl hcount ?_ (Function.update_of_ne hid _ _)
      rw [hzero id]
      apply if_neg
      intro heq
      cases heq
      exact hid rfl

/-- The rest of the body of the loop. -/
theorem counted (h : Accounted w) {gid : ℤ} (hpc : w.pc = .count gid) :
    Accounted { w with service := w.service.modifyGroup gid fun g => { g with total := g.total + 1 },
                       pc := if (w.service.groups gid.toNat).nconnected ≤ 0 then .group (gid+1)
                         else .loop gid } := by
  obtain ⟨hgid,hle⟩ := h.pc gid (.inr hpc)
  generalize hnext : (if (w.service.groups gid.toNat).nconnected ≤ 0 then StatePc.group (gid+1)
    else .loop gid) = pc
  have hcases : pc = .group (gid+1) ∨ pc = .loop gid := by
    rw [← hnext]
    split_ifs
    · exact .inl rfl
    · exact .inr rfl
  have hcount : ∀ i, pc ≠ .count i := by
    obtain rfl | rfl := hcases <;> nofun
  refine ⟨h.table.sameTable ((SameTable.refl _).modifyGroup gid _) w.held,h.limit,h.ngroups,h.made,
    ?_,?_,h.cast,?_,?_⟩
  · intro i hi
    obtain rfl | rfl := hcases
    · obtain hi | hi := hi <;> cases hi
    · obtain hi | hi := hi <;> cases hi
      exact ⟨hgid,hle⟩
  · intro i hi
    obtain rfl | rfl := hcases
    · cases hi
      omega
    · cases hi
  · intro id hpos hmax x hx
    by_cases hid : id = gid
    · subst hid
      simp only [modifyGroup,Function.update_self]
      exact h.spare id hpos hmax x hx
    · simp only [modifyGroup,Function.update_of_ne (toNat_ne hpos hid)]
      exact h.spare id hpos hmax x hx
  · intro id hpos hmax
    have hold := h.accounts id hpos hmax
    have hzero : (if pc = .count id then 1 else 0 : ℤ) = 0 := if_neg (hcount id)
    by_cases hid : id = gid
    · subst hid
      have hone : w.uncounted id = 1 := if_pos hpc
      have htotal := hold.total
      have hlimit := hold.limit
      rw [hone] at htotal hlimit
      have hgroup : (w.service.modifyGroup id fun g => { g with total := g.total + 1 }).groups id.toNat =
          { w.service.groups id.toNat with total := (w.service.groups id.toNat).total + 1 } :=
        Function.update_self ..
      refine ⟨?_,?_,?_,?_⟩
      · dsimp only
        rw [hgroup]
        exact hold.free
      · dsimp only
        rw [hgroup]
        exact hold.nconnected
      · rw [uncounted]
        dsimp only
        rw [hgroup,hzero]
        dsimp only
        omega
      · rw [uncounted]
        dsimp only
        rw [hgroup,hzero]
        dsimp only
        omega
    · refine accounts_same hold (Function.update_of_ne (toNat_ne hpos hid) _ _) rfl ?_ rfl
      rw [uncounted,uncounted,hpc]
      dsimp only
      rw [hzero,if_neg]
      intro heq
      cases heq
      exact hid rfl

theorem stategroup (h : Accounted w) {result : Option (ℕ × ServiceConn)}
    (hnew : ∀ c d i, result = some (c,d) → w.pc = .loop i → c ∉ w.pushed ∧ ∀ id, c ∉ w.made id) :
    Accounted (w.stategroup result) := by
  rw [GroupWorld.stategroup]
  cases hpc : w.pc with
  | idle =>
    dsimp only
    split_ifs
    · refine h.withPc (by rw [hpc]; nofun) (fun _ => StatePc.noConfusion)
        (fun _ => StatePc.noConfusion) fun i hi => ?_
      cases hi
      exact one_pos
    · exact h
  | group i =>
    have hi := h.first i hpc
    have hnext : ∀ j, StatePc.group (i+1) = .group j → 0 < j := by
      intro j hj
      cases hj
      omega
    dsimp only
    split_ifs with hle hskip
    · exact h.withPc (by rw [hpc]; nofun) (fun _ => StatePc.noConfusion)
        (fun _ => StatePc.noConfusion) hnext
    · refine h.withPc (by rw [hpc]; nofun) (fun _ => StatePc.noConfusion) (fun j hj => ?_)
        (fun _ => StatePc.noConfusion)
      cases hj
      exact ⟨hi,hle⟩
    · exact h.withPc (by rw [hpc]; nofun) nofun nofun nofun
  | loop i =>
    obtain ⟨hi,hle⟩ := h.pc i (.inl hpc)
    have hnext : Accounted { w with pc := .group (i+1) } := by
      refine h.withPc (by rw [hpc]; nofun) (fun _ => StatePc.noConfusion)
        (fun _ => StatePc.noConfusion) fun j hj => ?_
      cases hj
      omega
    dsimp only
    split_ifs with hopen
    · cases result with
      | none => exact hnext
      | some r =>
        obtain ⟨hpushed,hmade⟩ := hnew r.1 r.2 i rfl hpc
        exact h.newconn hpc hpushed hmade hopen
    · exact hnext
  | count i =>
    exact h.counted hpc

theorem addgroup (h : Accounted w) (hroom : w.service.ngroups + 1 < SB_GROUPS_MAX) (limit : ℤ) :
    Accounted { w with service := (w.service.serviceAddgroup limit).1 } := by
  obtain ⟨hzero,hlt⟩ := h.ngroups
  have hadd : (w.service.serviceAddgroup limit).1 =
      { w.service with ngroups := w.service.ngroups + 1 }.modifyGroup (w.service.ngroups + 1)
        fun g => { g with limit := limit } := by
    rw [serviceAddgroup,if_pos ⟨h.table.lock,hlt⟩]
  rw [hadd]
  have hgroup : ∀ id : ℤ, 0 < id → ({ w.service with ngroups := w.service.ngroups + 1 }.modifyGroup
      (w.service.ngroups + 1) fun g => { g with limit := limit }).groups id.toNat =
      if id = w.service.ngroups + 1 then { w.service.groups id.toNat with limit := limit }
      else w.service.groups id.toNat := by
    intro id hpos
    split_ifs with hid
    · rw [hid]
      exact Function.update_self ..
    · exact Function.update_of_ne (toNat_ne hpos hid) _ _
  have htable : SameTable w.service ({ w.service with ngroups := w.service.ngroups + 1 }.modifyGroup
      (w.service.ngroups + 1) fun g => { g with limit := limit }) :=
    ⟨rfl,rfl,rfl,rfl,rfl,fun _ => rfl⟩
  refine ⟨h.table.sameTable htable w.held,h.limit,⟨?_,hroom⟩,?_,?_,h.first,h.cast,?_,?_⟩
  · change 0 ≤ w.service.ngroups + 1
    omega
  · intro id c hc
    obtain ⟨hpos,hle,hid⟩ := h.made id c hc
    exact ⟨hpos,hle.trans (Int.le.intro 1 rfl),hid⟩
  · intro i hi
    obtain ⟨hpos,hle⟩ := h.pc i hi
    exact ⟨hpos,hle.trans (Int.le.intro 1 rfl)⟩
  · intro id hpos hmax x hx
    dsimp only
    rw [hgroup id hpos]
    split_ifs <;> exact h.spare id hpos hmax x hx
  · intro id hpos hmax
    have hold := h.accounts id hpos hmax
    by_cases hid : id = w.service.ngroups + 1
    · -- nothing has been created yet for a group that is new
      have hnone : w.made id = ∅ := by
        rw [Finset.eq_empty_iff_forall_notMem]
        intro c hc
        have hle := (h.made id c hc).2.1
        omega
      have htotal := hold.total
      rw [hnone,Finset.card_empty] at htotal
      have hg := hgroup id hpos
      rw [if_pos hid] at hg
      refine ⟨?_,?_,?_,?_⟩
      · dsimp only
        rw [hg]
        exact hold.free
      · dsimp only
        rw [hg]
        exact hold.nconnected
      · dsimp only
        rw [hg]
        exact hold.total
      · dsimp only
        rw [hg]
        change 0 < limit → (w.service.groups id.toNat).total + w.uncounted id ≤ limit
        omega
    · have hg := hgroup id hpos
      rw [if_neg hid] at hg
      exact accounts_same hold hg rfl rfl rfl

theorem closegroup (h : Accounted w) {id : ℤ} (hid : id = 0 ∨ SB_GROUPS_MAX ≤ id) :
    Accounted { w with service := w.service.serviceClosegroup id } := by
  obtain ⟨htable,hmembers,hgroups⟩ := closegroup_members w.service id
  apply h.lists htable hmembers
  intro k hpos hmax
  rw [hgroups k.toNat (by omega)]
  exact h.relisted hpos hmax

theorem step (h : Accounted w) {op : GroupOp} (hop : Regular w op) : Accounted (w.apply op) := by
  cases op with
  | addgroup limit => exact h.addgroup hop limit
  | closegroup id => exact h.closegroup hop
  | castgroup => exact h.castgroup hop
  | stategroup result =>
    apply h.stategroup
    intro c d i hresult hpc
    subst hresult
    exact hop i hpc
  | service op =>
    cases op with
    | pushconn c => exact h.pushconn hop.1 hop.2
    | popconn c => exact h.popconn hop
    | okconn c => exact h.okconn hop
    | getconn id => exact h.getconn id
    | freeconn c => exact h.freeconn hop
    | overSession c => exact h.overSession hop
    | close c => exact h.close c

end Accounted

/-- A service that no group has been added to yet. -/
def start (s : Service) : GroupWorld := { s.start with pc := .idle, cast := none, made := fun _ => ∅ }

end GroupWorld

/-- A service that starts to run, without groups yet and with their counters in zeroed memory. -/
structure Service.GroupsFresh (s : Service) : Prop extends s.Fresh where
  ngroups : s.ngroups = 0
  counters : ∀ id, (s.groups id).nconnected = 0 ∧ (s.groups id).total = 0

namespace GroupWorld

open Service

variable {s : Service} {w : GroupWorld} {ops : List GroupOp}

theorem start_accounted (h : s.GroupsFresh) : Accounted (start s) where
  table := h.toFresh.tabled
  limit := h.connectionsLimit_le
  ngroups := by
    change 0 ≤ s.ngroups ∧ s.ngroups < SB_GROUPS_MAX
    rw [h.ngroups]
    decide
  made _ c hc := absurd hc (Finset.notMem_empty c)
  pc i hi := by obtain hi | hi := hi <;> cases hi
  first i hi := by cases hi
  cast i hi := by cases hi
  spare id _ _ x _ := (h.groups id.toNat).2 x
  accounts id _ _ := by
    obtain ⟨hfree,hentries⟩ := h.groups id.toNat
    obtain ⟨hnconnected,htotal⟩ := h.counters id.toNat
    have hlist : Nat.count (fun x => (s.groups id.toNat).connsFree x ≠ 0) SB_GROUP_CONN_MAX = 0 :=
      Nat.count_of_forall_not fun x _ => not_not.2 (hentries x)
    have htable : Nat.count (s.connected id) s.connectionsLimit.toNat = 0 := by
      apply Nat.count_of_forall_not
      rintro i - ⟨c,hc,-⟩
      rw [h.connections] at hc
      cases hc
    refine ⟨?_,?_,?_,?_⟩
    · change (s.groups id.toNat).nconnsFree =
        Nat.count (fun x => (s.groups id.toNat).connsFree x ≠ 0) SB_GROUP_CONN_MAX
      rw [hfree,hlist]
      rfl
    · change (s.groups id.toNat).nconnected = Nat.count (s.connected id) s.connectionsLimit.toNat
      rw [hnconnected,htable]
      rfl
    · change (s.groups id.toNat).total + 0 = 0
      rw [htotal]
      rfl
    · change 0 < (s.groups id.toNat).limit → (s.groups id.toNat).total + 0 ≤ _
      rw [htotal]
      exact le_of_lt

/-- In every run whose steps are regular, the accounts of every group are right in every state. -/
theorem group_accounts (h : s.GroupsFresh)
    (run : Run (Guarded Regular (ofFun apply)) (start s) ops w) {id : ℤ} (hpos : 0 < id)
    (hid : id ≤ w.service.ngroups) : GroupAccounts w id := by
  have hinv : Accounted w := by
    apply run.invariant Accounted (start_accounted h)
    intro a op b ha hstep
    obtain ⟨hop,rfl⟩ := hstep
    exact ha.step hop
  exact hinv.accounts id hpos (hid.trans_lt hinv.ngroups.2)

theorem init_groupsFresh : (Service.init 4 2 C_SERVICE).GroupsFresh :=
  ⟨Service.init_fresh (by decide) (by decide) (by decide) C_SERVICE,rfl,fun _ => ⟨rfl,rfl⟩⟩

/-- A connection of a group of two is created, pushed and popped. -/
theorem group_accounts_one : GroupAccounts
    ([.addgroup 2, .stategroup none, .stategroup none, .stategroup (some (1,.init)),
      .stategroup none, .service (.pushconn 1), .service (.popconn 1)].foldl apply
        (start (Service.init 4 2 C_SERVICE))) 1 := by
  have hallowed : Allowed Regular apply (start (Service.init 4 2 C_SERVICE))
      [.addgroup 2, .stategroup none, .stategroup none, .stategroup (some (1,.init)),
        .stategroup none, .service (.pushconn 1), .service (.popconn 1)] := by
    refine ⟨?_,trivial,trivial,?_,trivial,?_,?_,trivial⟩
    · change (0 : ℤ) + 1 < SB_GROUPS_MAX
      decide
    · exact fun i _ => ⟨Finset.notMem_empty 1,fun _ => Finset.notMem_empty 1⟩
    · exact ⟨.inl (Finset.notMem_empty 1),fun _ _ => .inr (by decide)⟩
    · exact fun _ _ => by decide
  exact group_accounts init_groupsFresh hallowed.run one_pos (by decide)

/-- `service_closegroup` leaves the number of free connections at -1. -/
theorem group_closed_negative : ¬ ∀ s : Service, s.GroupsFresh → ∀ (ops : List GroupOp) (id : ℤ),
    0 < id → id ≤ (ops.foldl apply (start s)).service.ngroups →
      GroupAccounts (ops.foldl apply (start s)) id := by
  intro hall
  have hbad := (hall _ init_groupsFresh [.addgroup 5, .closegroup 1] 1 one_pos (by decide)).free
  have hfree : (([GroupOp.addgroup 5, .closegroup 1].foldl apply
      (start (Service.init 4 2 C_SERVICE))).service.groups (1 : ℤ).toNat).nconnsFree = -1 := by
    decide
  rw [hfree] at hbad
  omega

end GroupWorld
end Sbase
