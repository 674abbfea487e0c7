import Sbase.Lib.Runs
import Sbase.Lib.Slots

/-! The registry of services in `sbase.c`: the table `services`, the counter `running_services`, and the
loops that start, stop and clean the services. -/
namespace Sbase
open Slots Runs

def SB_SERVICE_MAX : ℕ := 256

/-- The fields of an `SBASE` that the registry uses; `ι` is the type of service pointers. -/
structure SBase (ι : Type*) where
  runningServices : ℤ
  services : ℕ → Option ι

section
variable {ι : Type*} [DecidableEq ι]

/-- The first slot of `services` with this entry. -/
def SBase.find (s : SBase ι) (entry : Option ι) : Option ℕ :=
  seek (fun i => s.services i = entry) 0 SB_SERVICE_MAX

def SBase.setSlot (s : SBase ι) (i : ℕ) (entry : Option ι) : SBase ι :=
  { s with services := Function.update s.services i entry }

/-- `sbase_add_service`; `set` is the result of `service->set`. -/
def sbaseAddService (set : ι → ℤ) (s : SBase ι) (service : ι) : SBase ι × ℤ :=
  if s.runningServices < SB_SERVICE_MAX then
    let s := match s.find none with
      | some i => { s.setSlot i (some service) with runningServices := s.runningServices + 1 }
      | none => s
    (s,set service)
  else (s,-1)

/-- `sbase_remove_service` -/
def sbaseRemoveService (s : SBase ι) (service : ι) : SBase ι :=
  match s.find (some service) with
  | some i => { s.setSlot i none with runningServices := s.runningServices - 1 }
  | none => s

/-- A loop over the table up to the number of services, with the services that it calls. -/
def eachService (s : SBase ι) : List ι :=
  (List.range s.runningServices.toNat).filterMap s.services

/-- The services that `sbase_running` runs. -/
def runLoop (s : SBase ι) : List ι := eachService s

/-- The services that `sbase_running` stops at its end. -/
def stopLoop (s : SBase ι) : List ι := eachService s

/-- The services that `sbase_clean` cleans. -/
def cleanLoop (s : SBase ι) : List ι := eachService s

/-- The calls on a registry. -/
inductive RegistryOp (ι : Type*)
  | add (service : ι)
  | remove (service : ι)

/-- A registry with the record of its callers: the services added and not removed since. -/
structure Registry (ι : Type*) where
  sbase : SBase ι
  registered : Finset ι

/-- `sbase_init` -/
def registryInit : Registry ι := ⟨⟨0,fun _ => none⟩,∅⟩

/-- A call; `sbase_add_service` refuses when `SB_SERVICE_MAX` services are running. -/
def RegistryOp.run (set : ι → ℤ) (w : Registry ι) : RegistryOp ι → Registry ι
  | .add service =>
    ⟨(sbaseAddService set w.sbase service).1,
      if w.sbase.runningServices < SB_SERVICE_MAX then insert service w.registered
      else w.registered⟩
  | .remove service => ⟨sbaseRemoveService w.sbase service,w.registered.erase service⟩

/-- Each registered service is in one slot and met once by each of the loops, and the counter is that of the
slots in use. -/
structure Served (w : Registry ι) : Prop where
  slot : ∀ v ∈ w.registered, ∃! i, i < SB_SERVICE_MAX ∧ w.sbase.services i = some v
  counter : w.sbase.runningServices =
    Nat.count (fun i => (w.sbase.services i).isSome) SB_SERVICE_MAX
  started : ∀ v ∈ w.registered, (runLoop w.sbase).count v = 1
  stopped : ∀ v ∈ w.registered, (stopLoop w.sbase).count v = 1
  cleaned : ∀ v ∈ w.registered, (cleanLoop w.sbase).count v = 1

/-- Only services that are not registered are added, and only the service in the last slot in use is
removed. -/
def InOrder (w : Registry ι) : RegistryOp ι → Prop
  | .add service => w.sbase.runningServices < SB_SERVICE_MAX → service ∉ w.registered
  | .remove service => ∀ i < SB_SERVICE_MAX, w.sbase.services i = some service →
    (i : ℤ) + 1 = w.sbase.runningServices

/-- The table has no hole: the services `vs` stand in its first slots. -/
structure Compact (w : Registry ι) (vs : List ι) : Prop where
  services : ∀ i, w.sbase.services i = vs[i]?
  running : w.sbase.runningServices = vs.length
  registered : w.registered = vs.toFinset
  nodup : vs.Nodup
  room : vs.length ≤ SB_SERVICE_MAX

variable {set : ι → ℤ} {w : Registry ι} {vs : List ι} {v : ι}

namespace Compact

theorem init : Compact (registryInit : Registry ι) [] where
  services i := by simp [registryInit]
  running := rfl
  registered := rfl
  nodup := List.nodup_nil
  room := by simp

/-- The loops meet the services of the table in their order. -/
theorem eachService_eq (h : Compact w vs) : eachService w.sbase = vs := by
  have hget : w.sbase.services = fun i => vs[i]? := funext h.services
  rw [eachService,h.running,Int.toNat_natCast,hget,filterMap_getElem?,List.take_length]

theorem slot_iff (h : Compact w vs) {i : ℕ} : w.sbase.services i = some v ↔ vs[i]? = some v := by
  rw [h.services]

theorem registered_iff (h : Compact w vs) : v ∈ w.registered ↔ v ∈ vs := by
  rw [h.registered,List.mem_toFinset]

theorem sound (h : Compact w vs) : Served w := by
  have hcount : ∀ v ∈ w.registered, (eachService w.sbase).count v = 1 := by
    intro v hv
    rw [h.eachService_eq]
    exact List.count_eq_one_of_mem h.nodup (h.registered_iff.mp hv)
  refine ⟨?_,?_,hcount,hcount,hcount⟩
  · intro v hv
    obtain ⟨i,hi,rfl⟩ := List.mem_iff_getElem.mp (h.registered_iff.mp hv)
    refine ⟨i,⟨hi.trans_le h.room,by rw [h.services,List.getElem?_eq_getElem hi]⟩,?_⟩
    rintro j ⟨-,hj⟩
    rw [h.services] at hj
    obtain ⟨hlt,heq⟩ := List.getElem?_eq_some_iff.mp hj
    exact (h.nodup.getElem_inj_iff).mp heq
  · have hset : (Finset.range SB_SERVICE_MAX).filter (fun i => (w.sbase.services i).isSome) =
        Finset.range vs.length := by
      ext i
      have hroom := h.room
      have hsome : (w.sbase.services i).isSome ↔ i < vs.length := by simp [h.services]
      rw [Finset.mem_filter,Finset.mem_range,Finset.mem_range,hsome]
      omega
    rw [h.running,Nat.count_eq_card_filter_range,hset,Finset.card_range]

theorem find_none (h : Compact w vs) (hroom : vs.length < SB_SERVICE_MAX) :
    w.sbase.find none = some vs.length := by
  apply seek_eq_some (Nat.zero_le _) hroom
  · simp [h.services]
  · intro j _ hj
    simp [h.services,hj]

/-- A new service comes behind the others. -/
theorem add (h : Compact w vs) (hv : v ∉ vs) (hroom : vs.length < SB_SERVICE_MAX) :
    Compact (RegistryOp.run set w (.add v)) (vs ++ [v]) := by
  have hlt : w.sbase.runningServices < SB_SERVICE_MAX := by
    rw [h.running]
    exact_mod_cast hroom
  have hrun : RegistryOp.run set w (.add v) = ⟨{ w.sbase.setSlot vs.length (some v) with
      runningServices := w.sbase.runningServices + 1 },insert v w.registered⟩ := by
    simp [RegistryOp.run,sbaseAddService,hlt,h.find_none hroom]
  rw [hrun]
  refine ⟨?_,?_,?_,?_,?_⟩
  · intro i
    simp only [SBase.setSlot,Function.update_apply,h.services]
    rcases lt_trichotomy i vs.length with hi | rfl | hi
    · simp [hi.ne,List.getElem?_append_left hi]
    · simp
    · have hnone : vs[i]? = none := List.getElem?_eq_none hi.le
      have hnone' : (vs ++ [v])[i]? = none := List.getElem?_eq_none (by simp; omega)
      rw [if_neg hi.ne',hnone,hnone']
  · simp [h.running]
  · ext u
    simp [h.registered]
  · refine List.nodup_append.mpr ⟨h.nodup,List.nodup_singleton v,?_⟩
    rintro a ha b hb rfl
    exact hv (List.mem_singleton.mp hb ▸ ha)
  · simpa using hroom

/-- A service in no slot is not found. -/
theorem find_some_of_not_mem (h : Compact w vs) (hv : v ∉ vs) : w.sbase.find (some v) = none := by
  apply seek_eq_none_iff.mpr
  intro i _ _
  have : vs[i]? ≠ some v := fun he => hv (List.mem_of_getElem? he)
  simpa [h.services] using this

theorem find_some (h : Compact w vs) {j : ℕ} (hj : vs[j]? = some v) :
    w.sbase.find (some v) = some j := by
  obtain ⟨hlt,rfl⟩ := List.getElem?_eq_some_iff.mp hj
  apply seek_eq_some (Nat.zero_le _) (hlt.trans_le h.room)
  · simp [h.services]
  · intro i _ hi
    have hne : vs[i]? ≠ some vs[j] := by
      rw [List.getElem?_eq_getElem (hi.trans hlt),ne_eq,Option.some.injEq,h.nodup.getElem_inj_iff]
      exact hi.ne
    simpa [h.services] using hne

/-- The last service goes, and no hole stays. -/
theorem remove_last (h : Compact w (vs ++ [v])) :
    Compact (RegistryOp.run set w (.remove v)) vs := by
  have hfind := h.find_some (v := v) (j := vs.length) (by simp)
  have hrun : RegistryOp.run set w (.remove v) = ⟨{ w.sbase.setSlot vs.length none with
      runningServices := w.sbase.runningServices - 1 },w.registered.erase v⟩ := by
    simp [RegistryOp.run,sbaseRemoveService,hfind]
  have hnd : vs.Nodup ∧ v ∉ vs := by
    have := h.nodup
    rw [List.nodup_append] at this
    exact ⟨this.1,fun hm => this.2.2 v hm v (by simp) rfl⟩
  rw [hrun]
  refine ⟨?_,?_,?_,hnd.1,?_⟩
  · intro i
    simp only [SBase.setSlot,Function.update_apply,h.services]
    rcases lt_trichotomy i vs.length with hi | rfl | hi
    · simp [hi.ne,List.getElem?_append_left hi]
    · simp
    · have hnone : vs[i]? = none := List.getElem?_eq_none hi.le
      have hnone' : (vs ++ [v])[i]? = none := List.getElem?_eq_none (by simp; omega)
      rw [if_neg hi.ne',hnone,hnone']
  · simp [h.running]
  · ext u
    simp only [h.registered,Finset.mem_erase,List.mem_toFinset,List.mem_append,List.mem_singleton]
    constructor
    · rintro ⟨hne,hu | hu⟩
      · exact hu
      · exact absurd hu hne
    · intro hu
      exact ⟨fun he => hnd.2 (he ▸ hu),Or.inl hu⟩
  · have := h.room
    rw [List.length_append] at this
    omega

theorem remove_other (h : Compact w vs) (hv : v ∉ vs) :
    Compact (RegistryOp.run set w (.remove v)) vs := by
  have hrun : RegistryOp.run set w (.remove v) = w := by
    have herase : w.registered.erase v = w.registered := by
      apply Finset.erase_eq_of_notMem
      rwa [h.registered_iff]
    simp [RegistryOp.run,sbaseRemoveService,h.find_some_of_not_mem hv,herase]
  rwa [hrun]

theorem add_full (h : Compact w vs) (hfull : ¬ vs.length < SB_SERVICE_MAX) :
    Compact (RegistryOp.run set w (.add v)) vs := by
  have hge : ¬ w.sbase.runningServices < SB_SERVICE_MAX := by
    rw [h.running]
    exact_mod_cast hfull
  have hrun : RegistryOp.run set w (.add v) = w := by
    simp [RegistryOp.run,sbaseAddService,hge]
  rwa [hrun]

theorem running_lt_iff (h : Compact w vs) :
    w.sbase.runningServices < SB_SERVICE_MAX ↔ vs.length < SB_SERVICE_MAX := by
  rw [h.running]
  exact_mod_cast Iff.rfl

/-- A step in order keeps the table without holes. -/
theorem step (h : Compact w vs) {op : RegistryOp ι} (hop : InOrder w op) :
    ∃ vs', Compact (op.run set w) vs' := by
  cases op with
  | add v =>
    by_cases hroom : vs.length < SB_SERVICE_MAX
    · have hv := hop (h.running_lt_iff.mpr hroom)
      exact ⟨_,h.add (fun hm => hv (h.registered_iff.mpr hm)) hroom⟩
    · exact ⟨_,h.add_full hroom⟩
  | remove v =>
    by_cases hv : v ∈ vs
    · obtain ⟨i,hi,rfl⟩ := List.mem_iff_getElem.mp hv
      have hlast := hop i (hi.trans_le h.room) (by rw [h.services,List.getElem?_eq_getElem hi])
      rw [h.running] at hlast
      obtain ⟨us,u,rfl⟩ : ∃ us u, vs = us ++ [u] :=
        ⟨_,_,(List.dropLast_append_getLast (List.ne_nil_of_mem hv)).symm⟩
      have hlen : i = us.length := by
        rw [List.length_append,List.length_singleton] at hlast
        omega
      subst hlen
      rw [List.getElem_concat_length rfl]
      exact ⟨us,h.remove_last⟩
    · exact ⟨_,h.remove_other hv⟩

/-- A registered service that is added again stands in two slots. -/
theorem add_twice (h : Compact w vs) (hv : v ∈ vs) (hroom : vs.length < SB_SERVICE_MAX) :
    ¬ Served (RegistryOp.run set w (.add v)) := by
  intro hr
  obtain ⟨i,hi,hget⟩ := List.mem_iff_getElem.mp hv
  have hlt := h.running_lt_iff.mpr hroom
  have hrun : RegistryOp.run set w (.add v) = ⟨{ w.sbase.setSlot vs.length (some v) with
      runningServices := w.sbase.runningServices + 1 },insert v w.registered⟩ := by
    simp [RegistryOp.run,sbaseAddService,hlt,h.find_none hroom]
  rw [hrun] at hr
  obtain ⟨j,-,hunique⟩ := hr.slot v (Finset.mem_insert_self _ _)
  have hold : i = j := by
    apply hunique
    have hne : i ≠ vs.length := hi.ne
    simp [SBase.setSlot,hne,h.services,hi,hget,hi.trans hroom]
  have hnew : vs.length = j := hunique _ ⟨hroom,by simp [SBase.setSlot]⟩
  omega

/-- When a service in front of others is removed, the loops no longer meet the last one. -/
theorem remove_hole (h : Compact w vs) {i : ℕ} (hi : vs[i]? = some v)
    (hhole : (i : ℤ) + 1 ≠ w.sbase.runningServices) :
    ¬ Served (RegistryOp.run set w (.remove v)) := by
  intro hr
  have hrun : RegistryOp.run set w (.remove v) = ⟨{ w.sbase.setSlot i none with
      runningServices := w.sbase.runningServices - 1 },w.registered.erase v⟩ := by
    simp [RegistryOp.run,sbaseRemoveService,h.find_some hi]
  obtain ⟨hlt,hv⟩ := List.getElem?_eq_some_iff.mp hi
  obtain ⟨us,u,rfl⟩ : ∃ us u, vs = us ++ [u] :=
    ⟨_,_,(List.dropLast_append_getLast (List.ne_nil_of_length_pos (by omega))).symm⟩
  have hlen := h.running
  rw [List.length_append,List.length_singleton] at hlen hlt
  have hius : i < us.length := by omega
  rw [List.getElem_append_left hius] at hv
  have hnd := List.nodup_append.mp h.nodup
  have huv : u ≠ v := by
    rintro rfl
    exact hnd.2.2 u (hv ▸ List.getElem_mem hius) u (by simp) rfl
  have hreg : u ∈ (RegistryOp.run set w (.remove v)).registered := by
    rw [hrun]
    simp [huv,h.registered]
  have hmet : u ∈ eachService (RegistryOp.run set w (.remove v)).sbase := by
    apply List.count_pos_iff.mp
    have := hr.started u hreg
    unfold runLoop at this
    omega
  rw [hrun,eachService,List.mem_filterMap] at hmet
  obtain ⟨j,hj,hslot⟩ := hmet
  have hjus : j < us.length := by
    rw [List.mem_range] at hj
    simp only [hlen] at hj
    omega
  have hju : us[j]? = some u := by
    by_cases hji : j = i
    · simp [SBase.setSlot,hji] at hslot
    · simpa [SBase.setSlot,hji,h.services,List.getElem?_append_left hjus] using hslot
  exact hnd.2.2 u (List.mem_of_getElem? hju) u (by simp) rfl

theorem step_bad (h : Compact w vs) {op : RegistryOp ι} (hop : ¬ InOrder w op) :
    ¬ Served (op.run set w) := by
  cases op with
  | add v =>
    unfold InOrder at hop
    push Not at hop
    exact h.add_twice (h.registered_iff.mp hop.2) (h.running_lt_iff.mp hop.1)
  | remove v =>
    unfold InOrder at hop
    push Not at hop
    obtain ⟨i,-,hslot,hhole⟩ := hop
    exact h.remove_hole (h.slot_iff.mp hslot) hhole

end Compact

/-- The registry is right in every state of a run exactly when the services are added once and removed in
the reverse order. -/
theorem registry_iff (set : ι → ℤ) (ops : List (RegistryOp ι)) :
    (∀ ks, ks <+: ops → Served (ks.foldl (RegistryOp.run set) registryInit)) ↔
      Allowed InOrder (RegistryOp.run set) registryInit ops := by
  apply always_iff_allowed (I := fun w => ∃ vs, Compact w vs)
  · rintro w ⟨vs,h⟩
    exact h.sound
  · rintro w op ⟨vs,h⟩ hop
    exact h.step hop
  · rintro w op ⟨vs,h⟩ hop
    exact h.step_bad hop
  · exact ⟨[],.init⟩

/-- Of two services the first is removed: the second is neither stopped nor cleaned. -/
theorem registry_hole :
    ¬ Served ([RegistryOp.add 1,.add 2,.remove 1].foldl (RegistryOp.run fun _ => (0 : ℤ))
      (registryInit : Registry ℕ)) := by
  intro h
  have := h.stopped 2 (by decide +kernel)
  revert this
  decide +kernel

end

end Sbase
