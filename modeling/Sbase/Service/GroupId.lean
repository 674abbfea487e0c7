import Sbase.Service.CloseGroup

/-! The ids that `service_addgroup` gives out, and what the functions that take such an id make of it. -/
namespace Sbase
open Slots Runs

namespace Service

/-- The pool of the connections without a group, left as it is. -/
structure PoolAlone (s t : Service) : Prop where
  connsFree : t.connsFree = s.connsFree
  nconnsFree : t.nconnsFree = s.nconnsFree
  nconnections : t.nconnections = s.nconnections

variable {s t u : Service} {c i x : ℕ} {id : ℤ}

theorem PoolAlone.refl (s : Service) : PoolAlone s s := ⟨rfl,rfl,rfl⟩

theorem PoolAlone.trans (h : PoolAlone s t) (k : PoolAlone t u) : PoolAlone s u :=
  ⟨k.connsFree.trans h.connsFree,k.nconnsFree.trans h.nconnsFree,k.nconnections.trans h.nconnections⟩

theorem bindParent_pool (s : Service) (c : ℕ) : PoolAlone s (s.bindParent c) := by
  rw [bindParent]
  cases (s.conns c).parent with
  | none => exact .refl s
  | some parent =>
    dsimp only
    split_ifs <;> exact ⟨rfl,rfl,rfl⟩

theorem joinGroup_pool (s : Service) (c : ℕ) : PoolAlone s (s.joinGroup c) := by
  rw [joinGroup]
  dsimp only
  cases s.freeGroupSlot (s.conns c).groupid with
  | none => exact .refl s
  | some x =>
    dsimp only
    split_ifs <;> exact ⟨rfl,rfl,rfl⟩

theorem leaveGroup_pool (s : Service) (c : ℕ) : PoolAlone s (s.leaveGroup c) := by
  rw [leaveGroup]
  split_ifs <;> exact ⟨rfl,rfl,rfl⟩

theorem pushconn_pool (hgrouped : (s.conns c).grouped) : PoolAlone s (s.servicePushconn c).1 := by
  rw [servicePushconn]
  split_ifs
  · cases s.freeSlot with
    | none => exact bindParent_pool s c
    | some i =>
      have hself : ((s.place c i).conns c).grouped := by
        rw [place,modify]
        dsimp only
        rw [Function.update_self]
        exact hgrouped
      have hjoin : PoolAlone s ((s.place c i).joinGroup c) :=
        PoolAlone.trans (t := s.place c i) ⟨rfl,rfl,rfl⟩ (joinGroup_pool _ c)
      have hoccupy : PoolAlone s (s.occupy c i) := by
        rw [occupy]
        rw [if_pos hself]
        exact hjoin.trans ⟨rfl,rfl,rfl⟩
      exact hoccupy.trans (bindParent_pool _ c)
  · exact .refl s

theorem popconn_pool (hgrouped : (s.conns c).grouped) : PoolAlone s (s.servicePopconn c).1 := by
  rw [servicePopconn]
  split_ifs
  · exact (leaveGroup_pool s c).trans ⟨rfl,rfl,rfl⟩
  · exact .refl s

theorem takeGroup_pool (s : Service) (id : ℤ) : PoolAlone s (s.takeGroup id).1 := by
  rw [takeGroup]
  split_ifs
  · cases seek (fun x => s.ready ((s.groups id.toNat).connsFree x)) 0 SB_GROUP_CONN_MAX with
    | none => exact .refl s
    | some x =>
      dsimp only
      cases s.connections ((s.groups id.toNat).connsFree x) with
      | none => exact .refl s
      | some c => exact ⟨rfl,rfl,rfl⟩
  · exact .refl s

/-- The connection that a group hands out is one of its free list. -/
theorem takeGroup_some (h : (s.takeGroup id).2 = some c) :
    ∃ x, (s.groups id.toNat).connsFree x ≠ 0 ∧ s.connections ((s.groups id.toNat).connsFree x) = some c ∧
      (s.takeGroup id).1.groups id.toNat = clearEntry (s.groups id.toNat) x := by
  rw [takeGroup] at h ⊢
  split_ifs at h ⊢
  cases hx : seek (fun x => s.ready ((s.groups id.toNat).connsFree x)) 0 SB_GROUP_CONN_MAX with
  | none =>
    rw [hx] at h
    cases h
  | some x =>
    obtain ⟨-,-,hready⟩ := mem_of_seek hx
    simp only [ready,decide_eq_true_eq] at hready
    rw [hx] at h
    dsimp only at h ⊢
    cases hd : s.connections ((s.groups id.toNat).connsFree x) with
    | none =>
      rw [hd] at h
      cases h
    | some d =>
      rw [hd] at h
      cases h
      exact ⟨x,by omega,hd,Function.update_self ..⟩

theorem freeconn_pool (hgrouped : (s.conns c).grouped) : PoolAlone s (s.serviceFreeconn c) := by
  rw [serviceFreeconn]
  rw [if_pos hgrouped]
  split_ifs
  · exact ⟨rfl,rfl,rfl⟩
  · cases s.freeGroupSlot (s.conns c).groupid with
    | none => exact .refl s
    | some x => exact ⟨rfl,rfl,rfl⟩

/-- What an id that has been given out is good for: it is an index of the array, each function works on that
entry of it, and the connections of the group stay out of the pool. -/
structure UsableGroup (s : Service) (id : ℤ) : Prop where
  inside : 0 ≤ id ∧ id < SB_GROUPS_MAX
  pushconn : ∀ c, (s.conns c).groupid = id → PoolAlone s (s.servicePushconn c).1 ∧
    ∀ i x, s.freeSlot = some i → s.freeGroupSlot id = some x →
      (s.servicePushconn c).1.groups id.toNat =
        joined (s.groups id.toNat) (some x) i (s.conns c).status
  popconn : ∀ c, (s.conns c).groupid = id → PoolAlone s (s.servicePopconn c).1 ∧
    (s.listed c → (s.servicePopconn c).1.groups id.toNat = left (s.groups id.toNat) (s.conns c))
  okconn : ∀ c, (s.conns c).groupid = id → PoolAlone s (s.serviceOkconn c) ∧
    (s.serviceOkconn c).groups id.toNat =
      { s.groups id.toNat with nconnected := (s.groups id.toNat).nconnected + 1 }
  getconn : PoolAlone s (s.serviceGetconn id).1 ∧ ∀ c, (s.serviceGetconn id).2 = some c →
    ∃ x, (s.groups id.toNat).connsFree x ≠ 0 ∧
      s.connections ((s.groups id.toNat).connsFree x) = some c ∧
      (s.serviceGetconn id).1.groups id.toNat = clearEntry (s.groups id.toNat) x
  freeconn : ∀ c, (s.conns c).groupid = id → PoolAlone s (s.serviceFreeconn c) ∧
    ∀ x, 0 < (s.groups id.toNat).limit → s.freeGroupSlot id = some x →
      (s.serviceFreeconn c).groups id.toNat =
        fillEntry (s.groups id.toNat) x (ushortOfInt (s.conns c).index)
  closegroup : ((s.serviceClosegroup id).groups id.toNat).limit = 0
  stategroup : ∀ (w : GroupWorld) r, w.service = s → w.pc = .group id → (w.stategroup r).pc ≠ .idle

theorem usableGroup (hlock : s.lock = 0) (hpos : 0 < id) (hmax : id < SB_GROUPS_MAX)
    (hle : id ≤ s.ngroups) : s.UsableGroup id := by
  have hgrouped : ∀ c, (s.conns c).groupid = id → (s.conns c).grouped = true := by
    intro c hc
    rw [GroupWorld.grouped_iff,hc]
    exact ⟨hpos,hmax⟩
  have hget : s.serviceGetconn id = s.takeGroup id := by
    rw [serviceGetconn,if_pos hlock,if_pos ⟨hpos,hle⟩]
  refine ⟨⟨hpos.le,hmax⟩,?_,?_,?_,?_,?_,?_,?_⟩
  · intro c hc
    refine ⟨pushconn_pool (hgrouped c hc),?_⟩
    intro i x hi hx
    rw [(pushconn_members hlock hi).2,if_pos (hgrouped c hc),hc,Function.update_self,hx]
  · intro c hc
    refine ⟨popconn_pool (hgrouped c hc),?_⟩
    intro hlisted
    rw [(popconn_members hlock hlisted).2,if_pos (hgrouped c hc),hc,Function.update_self]
  · intro c hc
    rw [serviceOkconn]
    dsimp only
    rw [hc,if_pos ⟨hpos,hle⟩]
    exact ⟨⟨rfl,rfl,rfl⟩,Function.update_self ..⟩
  · rw [hget]
    exact ⟨takeGroup_pool s id,fun c => takeGroup_some⟩
  · intro c hc
    refine ⟨freeconn_pool (hgrouped c hc),?_⟩
    intro x hopen hx
    rw [serviceFreeconn]
    rw [if_pos (hgrouped c hc),hc,if_neg (not_le.mpr hopen),hx]
    exact Function.update_self ..
  · rw [closegroup_group hmax]
  · intro w r hw hpc
    rw [GroupWorld.stategroup,hpc]
    dsimp only
    rw [hw,if_pos hle]
    split_ifs <;> exact StatePc.noConfusion

end Service

/-- A call of `service_addgroup`. -/
def GroupOp.adds : GroupOp → Bool
  | .addgroup _ => true
  | _ => false

theorem ServiceOp.ngroups {w : ServiceWorld} (hlock : w.service.lock = 0) (op : ServiceOp) :
    (op.apply w).service.ngroups = w.service.ngroups := by
  cases op with
  | pushconn c =>
    cases hi : w.service.freeSlot with
    | none => exact (Service.pushconn_full_members hlock hi).1.ngroups
    | some i => exact (Service.pushconn_members hlock hi).1.ngroups
  | popconn c =>
    by_cases hc : w.service.listed c
    · exact (Service.popconn_members hlock hc).1.ngroups
    · change (w.service.servicePopconn c).1.ngroups = _
      rw [Service.popconn_refused hc]
  | okconn c =>
    change (w.service.serviceOkconn c).ngroups = _
    rw [Service.serviceOkconn]
    split_ifs <;> rfl
  | getconn id => exact (Service.getconn_members w.service id).1.ngroups
  | freeconn c => exact (Service.freeconn_members w.service c).1.ngroups
  | overSession c =>
    change (w.service.connOverSession c).ngroups = _
    rw [Service.connOverSession]
    split_ifs
    · rfl
    · dsimp only
      split_ifs
      · exact (Service.freeconn_members (w.service.modify c ServiceConn.sessionReset) c).1.ngroups
      · rfl
  | close c => rfl

namespace GroupWorld

open Service

variable {s : Service} {w : GroupWorld}

theorem castgroup_ngroups (w : GroupWorld) : w.castgroup.service.ngroups = w.service.ngroups := by
  rw [GroupWorld.castgroup]
  cases w.cast with
  | none => dsimp only; split_ifs <;> rfl
  | some i =>
    have hget := (getconn_members w.service i).1.ngroups
    dsimp only
    split_ifs
    · change (w.service.castGroup i).ngroups = _
      rw [castGroup]
      generalize w.service.serviceGetconn i = r at hget
      obtain ⟨t,_ | c⟩ := r <;> exact hget
    · rfl

theorem stategroup_ngroups (w : GroupWorld) (result : Option (ℕ × ServiceConn)) :
    (w.stategroup result).service.ngroups = w.service.ngroups := by
  rw [GroupWorld.stategroup]
  cases w.pc with
  | idle => dsimp only; split_ifs <;> rfl
  | group i => dsimp only; split_ifs <;> rfl
  | loop i =>
    dsimp only
    split_ifs
    · cases result <;> rfl
    · rfl
  | count i => rfl

/-- A call of `service_addgroup` adds a group, up to the size of the array, and no other operation does. -/
theorem ngroups_step (h : Sound w.service) (op : GroupOp) : (w.apply op).service.ngroups =
    if op.adds ∧ w.service.ngroups < SB_GROUPS_MAX then w.service.ngroups + 1 else w.service.ngroups := by
  cases op with
  | addgroup limit =>
    change (w.service.serviceAddgroup limit).1.ngroups = _
    rw [serviceAddgroup]
    simp only [h.bounded.lock,GroupOp.adds,true_and]
    split_ifs <;> rfl
  | closegroup id => exact (closegroup_members w.service id).2.1.ngroups
  | castgroup => exact castgroup_ngroups w
  | stategroup result => exact stategroup_ngroups w result
  | service op => exact ServiceOp.ngroups h.bounded.lock op

theorem ngroups_le (h : Sound w.service) (op : GroupOp) :
    w.service.ngroups ≤ (w.apply op).service.ngroups := by
  rw [ngroups_step h op]
  split_ifs <;> omega

/-- The number of the groups over any sequence of operations. -/
theorem ngroups_run (h : s.GroupsFresh) (ops : List GroupOp) :
    (ops.foldl apply (start s)).service.ngroups = min (ops.countP GroupOp.adds : ℤ) SB_GROUPS_MAX := by
  induction ops using List.reverseRecOn with
  | nil => exact h.ngroups
  | append_singleton ops op ih =>
    rw [List.foldl_append,List.foldl_cons,List.foldl_nil,
      ngroups_step (sound_run h.toFresh ops) op,ih,List.countP_append,List.countP_singleton]
    have hmax : SB_GROUPS_MAX = 256 := rfl
    by_cases hadds : op.adds
    · simp only [hadds,true_and,if_true]
      split_ifs <;> omega
    · simp only [hadds,false_and,if_false,Bool.false_eq_true]
      omega

/-- A group that has been given out stays one of the groups. -/
theorem ngroups_later (h : Sound w.service) (ops : List GroupOp) :
    Sound (ops.foldl apply w).service ∧ w.service.ngroups ≤ (ops.foldl apply w).service.ngroups := by
  apply List.foldlRecOn (motive := fun t : GroupWorld => Sound t.service ∧
    w.service.ngroups ≤ t.service.ngroups)
  · exact ⟨h,le_rfl⟩
  · intro t ht op _
    exact ⟨ht.1.step op,ht.2.trans (ngroups_le ht.1 op)⟩

/-- An id that `service_addgroup` gives out is good in every later state exactly where fewer than
`SB_GROUPS_MAX` groups have been added with it. -/
theorem addgroup_usable_iff (h : s.GroupsFresh) (ops : List GroupOp) {limit id : ℤ} {w : GroupWorld}
    (hw : ops.foldl apply (start s) = w) (hid : (w.service.serviceAddgroup limit).2 = id)
    (hissued : id ≠ -1) :
    (∀ later : List GroupOp, UsableGroup (later.foldl apply (w.apply (.addgroup limit))).service id) ↔
      (ops.countP GroupOp.adds : ℤ) + 1 < SB_GROUPS_MAX := by
  have hsound : Sound w.service := hw ▸ sound_run h.toFresh ops
  have hngroups := ngroups_run h ops
  rw [hw] at hngroups
  have hroom : w.service.lock = 0 ∧ w.service.ngroups < SB_GROUPS_MAX := by
    by_contra hno
    rw [serviceAddgroup,if_neg hno] at hid
    exact hissued hid.symm
  rw [serviceAddgroup,if_pos hroom] at hid
  dsimp only at hid
  constructor
  · intro hall
    have hinside := (hall []).inside.2
    omega
  · intro hlt later
    obtain ⟨hlater,hle⟩ := ngroups_later (hsound.step (.addgroup limit)) later
    rw [ngroups_step hsound,if_pos ⟨rfl,hroom.2⟩] at hle
    exact usableGroup hlater.bounded.lock (by omega) (by omega) (by omega)

/-- The first group that is added. -/
theorem addgroup_usable_first : UsableGroup ([GroupOp.stategroup none, .stategroup none].foldl apply
    ((start (Service.init 4 2 C_SERVICE)).apply (.addgroup 2))).service 1 := by
  have hid : ((start (Service.init 4 2 C_SERVICE)).service.serviceAddgroup 2).2 = 1 := rfl
  exact (addgroup_usable_iff init_groupsFresh [] rfl hid (by decide)).mpr (by decide) _

/-- The calls that fill the array. -/
def filled : GroupWorld :=
  (List.replicate 255 (GroupOp.addgroup 1)).foldl apply (start (Service.init 4 2 C_SERVICE))

/-- The next one gives out the id behind its end. -/
theorem addgroup_behind : (filled.service.serviceAddgroup 1).2 = 256 ∧
    ¬ UsableGroup (filled.apply (.addgroup 1)).service 256 := by
  refine ⟨?_,fun h => absurd h.inside.2 (by decide)⟩
  have hngroups : filled.service.ngroups = 255 := by
    rw [filled,ngroups_run init_groupsFresh,List.countP_replicate]
    rfl
  have hlock : filled.service.lock = 0 := (sound_run init_groupsFresh.toFresh _).bounded.lock
  rw [serviceAddgroup,if_pos ⟨hlock,by rw [hngroups]; decide⟩,hngroups]
  rfl

end GroupWorld

end Sbase
