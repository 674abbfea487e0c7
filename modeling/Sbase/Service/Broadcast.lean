import Sbase.Service.Table

/-! `service_broadcast` in every state of the connection table. -/
namespace Sbase
open Slots Runs

namespace Service

/-- The connections on which `service_broadcast` calls `push_chunk`, in order, and what it returns. -/
def serviceBroadcast (s : Service) : List ℕ × ℤ :=
  if s.lock = 0 ∧ 0 < s.runningConnections then
    ((List.range' 1 (s.indexMax.toNat-1)).filterMap s.connections,0)
  else ([],-1)

/-- Every connection of the table gets the data once, and no other connection does. -/
structure BroadcastReaches (s : Service) : Prop where
  result : s.serviceBroadcast.2 = 0
  present : ∀ i c, s.connections i = some c → s.serviceBroadcast.1.count c = 1
  absent : ∀ c, (∀ i, s.connections i ≠ some c) → c ∉ s.serviceBroadcast.1

/-- The table is not empty, no connection has two slots below `index_max`, and one that is in that slot has
another. -/
structure BroadcastFits (s : Service) : Prop where
  running : 0 < s.runningConnections
  once : ∀ (i j : ℕ) c, (i : ℤ) < s.indexMax → (j : ℤ) < s.indexMax → s.connections i = some c →
    s.connections j = some c → i = j
  last : ∀ c, s.connections s.indexMax.toNat = some c →
    ∃ i : ℕ, (i : ℤ) < s.indexMax ∧ s.connections i = some c

/-- What holds of the table also where connections are pushed twice. -/
structure Bounded (s : Service) : Prop where
  lock : s.lock = 0
  unused : s.connections 0 = none
  below : ∀ i c, s.connections i = some c → (i : ℤ) ≤ s.indexMax

variable {s t : Service} {c i : ℕ}

theorem Bounded.sameTable (h : s.Bounded) (hs : SameTable s t) : t.Bounded where
  lock := hs.lock.trans h.lock
  unused := by simpa only [hs.connections] using h.unused
  below := by simpa only [hs.connections,hs.indexMax] using h.below

theorem Bounded.placed (h : s.Bounded) (hi : s.freeSlot = some i) : (s.placed c i).Bounded where
  lock := h.lock
  unused := by
    have hpos := (freeSlot_spec hi).1
    change Function.update s.connections i (some c) 0 = none
    rw [Function.update_of_ne (by omega)]
    exact h.unused
  below := by
    intro j d hd
    change (j : ℤ) ≤ if s.indexMax < i then (i : ℤ) else s.indexMax
    change Function.update s.connections i (some c) j = some d at hd
    by_cases hj : j = i
    · subst hj
      split_ifs <;> omega
    · rw [Function.update_of_ne hj] at hd
      have hle := h.below j d hd
      split_ifs <;> omega

theorem Bounded.vacate (h : s.Bounded) (hc : s.listed c) : (s.vacate c).Bounded where
  lock := h.lock
  unused := by
    change Function.update s.connections (s.conns c).index.toNat none 0 = none
    by_cases hzero : 0 = (s.conns c).index.toNat
    · rw [hzero,Function.update_self]
    · rw [Function.update_of_ne hzero]
      exact h.unused
  below := by
    obtain ⟨i,hpos,hindex,-⟩ := Tabled.slot_of_listed (w := ⟨s,∅,∅⟩) hc
    intro j d hd
    change (j : ℤ) ≤ if s.indexMax = (s.conns c).index then s.indexMax-1 else s.indexMax
    change Function.update s.connections (s.conns c).index.toNat none j = some d at hd
    rw [hindex] at hd ⊢
    rw [Int.toNat_natCast] at hd
    by_cases hj : j = i
    · rw [hj,Function.update_self] at hd
      cases hd
    · rw [Function.update_of_ne hj] at hd
      have hle := h.below j d hd
      split_ifs <;> omega

theorem Fresh.bounded (h : s.Fresh) : s.Bounded where
  lock := h.running
  unused := h.connections 0
  below := by
    intro i c hc
    rw [h.connections] at hc
    cases hc

/-- The slots that the loop of `service_broadcast` finds a connection in. -/
def broadcastSlots (s : Service) (c : ℕ) : List ℕ :=
  (List.range' 1 (s.indexMax.toNat-1)).filter fun i => s.connections i = some c

theorem mem_broadcastSlots (h : s.Bounded) :
    i ∈ s.broadcastSlots c ↔ (i : ℤ) < s.indexMax ∧ s.connections i = some c := by
  rw [broadcastSlots,List.mem_filter,List.mem_range'_1,decide_eq_true_eq]
  constructor
  · intro hi
    exact ⟨by omega,hi.2⟩
  · intro hi
    have hpos : i ≠ 0 := by
      intro hzero
      rw [hzero,h.unused] at hi
      cases hi.2
    exact ⟨by omega,hi.2⟩

theorem nodup_broadcastSlots (s : Service) (c : ℕ) : (s.broadcastSlots c).Nodup :=
  List.Nodup.filter _ List.nodup_range'

/-- The loop meets a connection as often as it has slots below `index_max`. -/
theorem count_broadcast (h : s.Bounded) (hrun : 0 < s.runningConnections) (c : ℕ) :
    s.serviceBroadcast.1.count c = (s.broadcastSlots c).length := by
  rw [serviceBroadcast,if_pos ⟨h.lock,hrun⟩,List.count_filterMap,broadcastSlots,List.countP_eq_length_filter]
  congr 2
  funext i
  cases s.connections i with
  | none => rfl
  | some d => simp [beq_eq_decide]

theorem broadcastReaches_iff (h : s.Bounded) : s.BroadcastReaches ↔ s.BroadcastFits := by
  constructor
  · intro hr
    have hrun : 0 < s.runningConnections := by
      by_contra hno
      have hresult := hr.result
      rw [serviceBroadcast,if_neg fun hc => hno hc.2] at hresult
      cases hresult
    have hone : ∀ i c, s.connections i = some c → ∃ k, s.broadcastSlots c = [k] := by
      intro i c hc
      rw [← List.length_eq_one_iff,← count_broadcast h hrun]
      exact hr.present i c hc
    refine ⟨hrun,?_,?_⟩
    · intro i j c hi hj hci hcj
      obtain ⟨k,hk⟩ := hone i c hci
      have hik := (mem_broadcastSlots h).mpr ⟨hi,hci⟩
      have hjk := (mem_broadcastSlots h).mpr ⟨hj,hcj⟩
      rw [hk,List.mem_singleton] at hik hjk
      rw [hik,hjk]
    · intro c hc
      obtain ⟨k,hk⟩ := hone _ c hc
      exact ⟨k,(mem_broadcastSlots h).mp (by rw [hk]; exact List.mem_singleton_self k)⟩
  · intro hf
    refine ⟨?_,?_,?_⟩
    · rw [serviceBroadcast,if_pos ⟨h.lock,hf.running⟩]
    · intro i c hc
      obtain ⟨k,hk,hck⟩ : ∃ k : ℕ, (k : ℤ) < s.indexMax ∧ s.connections k = some c := by
        have hle := h.below i c hc
        by_cases hlast : (i : ℤ) = s.indexMax
        · apply hf.last c
          rwa [← hlast,Int.toNat_natCast]
        · exact ⟨i,by omega,hc⟩
      have hall : s.broadcastSlots c = [k] := by
        apply List.perm_singleton.mp
        rw [List.perm_ext_iff_of_nodup (nodup_broadcastSlots s c) (List.nodup_singleton k)]
        intro j
        rw [mem_broadcastSlots h,List.mem_singleton]
        constructor
        · intro hj
          exact hf.once j k c hj.1 hk hj.2 hck
        · intro hj
          rw [hj]
          exact ⟨hk,hck⟩
      rw [count_broadcast h hf.running,hall]
      rfl
    · intro c hc hmem
      rw [serviceBroadcast,if_pos ⟨h.lock,hf.running⟩] at hmem
      obtain ⟨i,_,hi⟩ := List.mem_filterMap.mp hmem
      exact hc i hi

/-- Where no connection is pushed twice, it is the slot `index_max` that has to be empty. -/
theorem broadcastFits_iff {w : ServiceWorld} (h : Tabled w) :
    w.service.BroadcastFits ↔
      0 < w.service.runningConnections ∧ w.service.connections w.service.indexMax.toNat = none := by
  constructor
  · intro hf
    refine ⟨hf.running,?_⟩
    cases hc : w.service.connections w.service.indexMax.toNat with
    | none => rfl
    | some c =>
      obtain ⟨i,hi,hci⟩ := hf.last c hc
      have hslot := h.once hci hc
      omega
  · intro hf
    refine ⟨hf.1,?_,?_⟩
    · intro i j c _ _ hi hj
      exact h.once hi hj
    · intro c hc
      rw [hf.2] at hc
      cases hc

end Service

theorem Service.Bounded.step {w : ServiceWorld} (h : w.service.Bounded) (op : ServiceOp) :
    (op.apply w).service.Bounded := by
  cases op with
  | pushconn c =>
    cases hi : w.service.freeSlot with
    | none => exact h.sameTable (Service.pushconn_full h.lock hi).1
    | some i => exact (h.placed hi).sameTable (Service.pushconn_table h.lock hi).1
  | popconn c =>
    by_cases hc : w.service.listed c
    · exact (h.vacate hc).sameTable (Service.popconn_table h.lock hc).1
    · change (w.service.servicePopconn c).1.Bounded
      rw [Service.popconn_refused hc]
      exact h
  | okconn c => exact h.sameTable ((Service.SameTable.refl _).okconn c)
  | getconn id => exact h.sameTable ((Service.SameTable.refl _).getconn id)
  | freeconn c => exact h.sameTable ((Service.SameTable.refl _).freeconn c)
  | overSession c => exact h.sameTable ((Service.SameTable.refl _).overSession c)
  | close c => exact h.sameTable ((Service.SameTable.refl _).modify c ServiceConn.connClose_index)

/-- In every state that a fresh service can come to, a broadcast reaches every connection once exactly where
the table is not empty, its last connection has a lower slot as well, and the lower slots hold different
connections. -/
theorem broadcast_iff {s : Service} (h : s.Fresh) (ops : List ServiceOp) :
    (ops.foldl ServiceOp.apply s.start).service.BroadcastReaches ↔
      (ops.foldl ServiceOp.apply s.start).service.BroadcastFits := by
  apply Service.broadcastReaches_iff
  apply List.foldlRecOn (motive := fun w : ServiceWorld => w.service.Bounded)
  · exact h.bounded
  · intro w hw op _
    exact hw.step op

/-- The slot of the last connection is empty again. -/
theorem broadcast_after_pop : (([.pushconn 1, .pushconn 2, .pushconn 3, .popconn 2, .popconn 3].foldl
    ServiceOp.apply (Service.init 9 2 C_SERVICE).start).service).BroadcastReaches := by
  apply (broadcast_iff (Service.init_fresh (by decide) (by decide) (by decide) C_SERVICE) _).mpr
  refine ⟨by decide,?_,?_⟩
  · have hone : ∀ (i : ℕ) c, (i : ℤ) < 2 → ([ServiceOp.pushconn 1, .pushconn 2, .pushconn 3, .popconn 2,
        .popconn 3].foldl ServiceOp.apply (Service.init 9 2 C_SERVICE).start).service.connections i =
          some c → i = 1 := by
      intro i c hi hc
      have hzero : i ≠ 0 := by
        intro h
        rw [h] at hc
        cases hc
      omega
    intro i j c hi hj hci hcj
    rw [hone i c hi hci,hone j c hj hcj]
  · intro c hc
    cases hc

/-- The connection that was added last gets nothing. -/
theorem broadcast_misses_last : ¬ (([.pushconn 1].foldl ServiceOp.apply
    (Service.init 9 2 C_SERVICE).start).service).BroadcastReaches := by
  intro h
  exact absurd (h.present 1 1 (by decide)) (by decide)

end Sbase
