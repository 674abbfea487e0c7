import Sbase.Utils.MtrieMap

/-! The ids that `mtrie_xadd` and `mtrie_rxadd` issue, over runs that add and delete keys from both
ends. -/
namespace Sbase
open BlockTree Runs

/-- The calls on a trie of ids. -/
inductive IdOp
  | xadd (key : List UInt8)
  | rxadd (key : List UInt8)
  | del (key : List UInt8)
  | rdel (key : List UInt8)

namespace IdOp

/-- The bytes of the key in the order in which they are read. -/
def key : IdOp → List UInt8
  | xadd key | del key => key
  | rxadd key | rdel key => key.reverse

def adds : IdOp → Bool
  | xadd _ | rxadd _ => true
  | del _ | rdel _ => false

def call (t : Mtrie) : IdOp → Mtrie × ℤ
  | xadd key => mtrieXadd t key
  | rxadd key => mtrieRxadd t key
  | del key => mtrieDel t key
  | rdel key => mtrieRdel t key

/-- A call has no result where a counter leaves the range of an `int`. -/
def run (t : Mtrie) (op : IdOp) : Option (Mtrie × ℤ) :=
  if (op.call t).1.Overflowed then none else some (op.call t)

end IdOp

/-- What the callers know: the id returned for each key that was added and has not been deleted since,
and the ids returned for keys that were not live. -/
structure IdLedger where
  held : List UInt8 → Option ℤ
  issued : List ℤ

namespace IdLedger

def empty : IdLedger := ⟨fun _ => none,[]⟩

def record (l : IdLedger) (op : IdOp) (ret : ℤ) : IdLedger :=
  if op.adds then
    if l.held op.key = none then ⟨Function.update l.held op.key (some ret),ret::l.issued⟩ else l
  else { l with held := Function.update l.held op.key none }

/-- Distinct live keys hold distinct ids, and a call with a live key returns its id. -/
structure Stable (t : Mtrie) (l : IdLedger) : Prop where
  distinct : ∀ k k' v, l.held k = some v → l.held k' = some v → k = k'
  same : ∀ k v, l.held k = some v → (mtrieXadd t k).2 = v ∧ (mtrieRxadd t k.reverse).2 = v

/-- What a call that adds a key is to return: a positive id, which is the one that the key holds, or one
that was never issued before. -/
def Grants (l : IdLedger) (op : IdOp) (ret : ℤ) : Prop :=
  op.adds → 0 < ret ∧ (l.held op.key = some ret ∨ l.held op.key = none ∧ ret ∉ l.issued)

end IdLedger

/-- Ids are stable and distinct in every state of a run, and every call returns what it is to. -/
def IdsConform (t : Mtrie) (l : IdLedger) : List IdOp → Prop
  | [] => l.Stable t
  | op::ops => l.Stable t ∧ ∃ r, op.run t = some r ∧ l.Grants op r.2 ∧
      IdsConform r.1 (l.record op r.2) ops

/-- A step of a run, with the ledger. -/
def advanceIds (s : Mtrie × IdLedger) (op : IdOp) : Mtrie × IdLedger :=
  ((op.call s.1).1,s.2.record op (op.call s.1).2)

/-- A deletion that looks up a byte followed by 0, while the byte by itself is live and no longer key was
ever added below it. -/
def IdOp.MeetsLeaf (t : Mtrie) (op : IdOp) : Prop :=
  op.adds = false ∧
    ∃ c : UInt8, op.key = [c,0] ∧ (t.nodes c.toNat).nchilds = 0 ∧ (t.nodes c.toNat).data ≠ 0

/-- A new key after the last id of an `int` has been issued. -/
def IdOp.Exhausts (l : IdLedger) (op : IdOp) : Prop :=
  op.adds = true ∧ l.held op.key = none ∧ MTRIE_INT_MAX ≤ l.issued.length

/-- A key that needs more nodes than an `int` counts. -/
def IdOp.Outgrows (t : Mtrie) (op : IdOp) : Prop := op.adds = true ∧ ¬ t.Room op.key

variable {t : Mtrie} {a : KeyMap} {l : IdLedger} {op : IdOp} {k : List UInt8}

namespace IdOp

theorem call_add (h : op.adds = true) : ∃ fail, op.call t = mtrieStore fail nextId t op.key := by
  cases op with
  | xadd key => exact ⟨-3,rfl⟩
  | rxadd key => exact ⟨-1,rfl⟩
  | del | rdel => cases h

theorem call_del (h : op.adds = false) : op.call t = mtrieDel t op.key := by
  cases op with
  | xadd | rxadd => cases h
  | del | rdel => rfl

theorem run_eq {r : Mtrie × ℤ} (h : op.run t = some r) : op.call t = r := by
  rw [run] at h
  split_ifs at h
  exact Option.some.inj h

/-- A call overflows an `int` exactly where it adds a key and there is no room or no id left for it. -/
theorem call_overflowed (h : Mapped t a) (hsize : ArraySized t) (hint : ¬ t.Overflowed) (op : IdOp) :
    ArraySized (op.call t).1 ∧
      ((op.call t).1.Overflowed ↔ op.adds = true ∧ ¬ (t.Room op.key ∧ t.IdLeft op.key)) := by
  cases hadds : op.adds with
  | true =>
    obtain ⟨fail,hcall⟩ := call_add (t := t) hadds
    obtain ⟨hnext,hover,-⟩ := h.number hsize hint fail op.key
    rw [hcall]
    exact ⟨hnext,hover.trans (iff_and_self.mpr fun _ => rfl)⟩
  | false =>
    obtain ⟨hnext,hover⟩ := h.run_overflowed hsize hint (.del op.key)
    rw [call_del hadds]
    refine ⟨hnext,iff_of_false (fun ho => hover.mp ho trivial) nofun⟩

end IdOp

/-- A new key is given the next id. -/
theorem Mapped.issue (h : Mapped t a) (hk : k ≠ []) (hzero : a.value k = 0) (fail : ℤ) :
    (mtrieStore fail nextId t k).2 = a.id + 1 ∧
      Mapped (mtrieStore fail nextId t k).1 ⟨Function.update a.value k (a.id + 1),a.id + 1⟩ :=
  (h.store hk fail nextId (a.id + 1) (a.id + 1) fun s hs => by rw [← hs]; rfl).1 hzero

/-- A key with an id keeps it. -/
theorem Mapped.keep (h : Mapped t a) (hk : k ≠ []) (hvalue : a.value k ≠ 0) (fail : ℤ) :
    (mtrieStore fail nextId t k).2 = a.value k ∧ Mapped (mtrieStore fail nextId t k).1 a :=
  (h.store hk fail nextId (a.id + 1) (a.id + 1) fun s hs => by rw [← hs]; rfl).2 hvalue

/-- In the exception the deletion takes the id of the shorter key. -/
theorem Mapped.del_leaf (h : Mapped t a) {c : UInt8} (hleaf : (t.nodes c.toNat).nchilds = 0) :
    Mapped (mtrieDel t [c,0]).1 ⟨Function.update a.value [c] 0,a.id⟩ := by
  obtain ⟨own,bins,hlaid⟩ := h.laid
  have hfound := hlaid.lookup_leaf hleaf (h.stores.roots c)
  rw [mtrieDel,if_neg fun hcond => List.cons_ne_nil _ _ hcond.1,hfound]
  have hends : Finds t [c] (some c.toNat) := .inl ⟨_,rfl,At.root c⟩
  exact h.found_clear hends

/-- The ledger and the map that the trie stands for: the ids issued are those up to the counter, and
each of them is held by one key at most. -/
structure IdsKept (a : KeyMap) (l : IdLedger) : Prop where
  held : ∀ k v, l.held k = some v ↔ k ≠ [] ∧ a.value k = v ∧ v ≠ 0
  issued : ∀ v, v ∈ l.issued ↔ 0 < v ∧ v ≤ a.id
  count : (l.issued.length : ℤ) = a.id
  room : a.id ≤ MTRIE_INT_MAX
  distinct : ∀ k k' v, l.held k = some v → l.held k' = some v → k = k'
  live : ∀ k v, l.held k = some v → v ∈ l.issued

namespace IdsKept

theorem not_held (h : IdsKept a l) (hk : k ≠ []) : l.held k = none ↔ a.value k = 0 := by
  rw [Option.eq_none_iff_forall_ne_some]
  constructor
  · intro hnone
    by_contra hvalue
    exact hnone _ ((h.held k _).mpr ⟨hk,rfl,hvalue⟩)
  · intro hzero v hv
    obtain ⟨-,hvalue,hne⟩ := (h.held k v).mp hv
    exact hne (hvalue.symm.trans hzero)

theorem stable (h : IdsKept a l) (hm : Mapped t a) : l.Stable t := by
  refine ⟨h.distinct,fun k v hv => ?_⟩
  obtain ⟨hk,rfl,hne⟩ := (h.held k v).mp hv
  refine ⟨(hm.keep hk hne (-3)).1,?_⟩
  rw [mtrieRxadd,List.reverse_reverse]
  exact (hm.keep hk hne (-1)).1

theorem next_fresh (h : IdsKept a l) : 0 < a.id + 1 ∧ a.id + 1 ∉ l.issued := by
  have hcount := h.count
  refine ⟨by omega,fun hmem => ?_⟩
  have hle := ((h.issued _).mp hmem).2
  omega

/-- A new key enters the ledger with the next id. -/
theorem enter (h : IdsKept a l) (hk : k ≠ []) (hnone : l.held k = none)
    (hroom : l.issued.length < MTRIE_INT_MAX) :
    IdsKept ⟨Function.update a.value k (a.id + 1),a.id + 1⟩
      ⟨Function.update l.held k (some (a.id + 1)),(a.id + 1)::l.issued⟩ := by
  obtain ⟨hpos,hfresh⟩ := h.next_fresh
  have hheld : ∀ q v, Function.update l.held k (some (a.id + 1)) q = some v ↔
      q = k ∧ v = a.id + 1 ∨ q ≠ k ∧ l.held q = some v := by
    intro q v
    rw [Function.update_apply]
    split_ifs with hq
    · simp [hq,eq_comm]
    · simp [hq]
  have hcount := h.count
  constructor
  · intro q v
    rw [hheld,h.held]
    dsimp only
    rw [Function.update_apply]
    split_ifs with hq
    · subst hq
      simp only [true_and,not_true_eq_false,false_and,or_false,ne_eq,hk,not_false_eq_true]
      omega
    · simp [hq]
  · intro v
    rw [List.mem_cons,h.issued]
    dsimp only
    omega
  · simp only [List.length_cons]
    omega
  · dsimp only
    omega
  · intro q q' v hq hq'
    rw [hheld] at hq hq'
    rcases hq with ⟨rfl,rfl⟩ | ⟨-,hq⟩
    · rcases hq' with ⟨rfl,-⟩ | ⟨-,hq'⟩
      · rfl
      · exact absurd (h.live _ _ hq') hfresh
    · rcases hq' with ⟨-,rfl⟩ | ⟨-,hq'⟩
      · exact absurd (h.live _ _ hq) hfresh
      · exact h.distinct q q' v hq hq'
  · intro q v hq
    rw [hheld] at hq
    rcases hq with ⟨-,rfl⟩ | ⟨-,hq⟩
    · exact List.mem_cons_self
    · exact List.mem_cons_of_mem _ (h.live q v hq)

/-- A deleted key leaves the ledger. -/
theorem leave (h : IdsKept a l) (k : List UInt8) :
    IdsKept ⟨Function.update a.value k 0,a.id⟩ { l with held := Function.update l.held k none } := by
  have hheld : ∀ q v, Function.update l.held k none q = some v ↔ q ≠ k ∧ l.held q = some v := by
    intro q v
    rw [Function.update_apply]
    split_ifs with hq
    · simp [hq]
    · simp [hq]
  constructor
  · intro q v
    rw [hheld,h.held]
    dsimp only
    rw [Function.update_apply]
    split_ifs with hq
    · simp only [hq,ne_eq,not_true_eq_false,false_and,false_iff]
      rintro ⟨-,rfl,hne⟩
      exact hne rfl
    · simp [hq]
  · exact h.issued
  · exact h.count
  · exact h.room
  · intro q q' v hq hq'
    exact h.distinct q q' v ((hheld q v).mp hq).2 ((hheld q' v).mp hq').2
  · intro q v hq
    exact h.live q v ((hheld q v).mp hq).2

/-- A call that adds a key, while there is an id left for it. -/
theorem add (h : IdsKept a l) (hm : Mapped t a) (hk : op.key ≠ []) (hadds : op.adds = true)
    (hroom : ¬ op.Exhausts l) : l.Grants op (op.call t).2 ∧
      ∃ a', Mapped (op.call t).1 a' ∧ IdsKept a' (l.record op (op.call t).2) := by
  obtain ⟨fail,hcall⟩ := IdOp.call_add (t := t) hadds
  rw [hcall,IdLedger.record,if_pos hadds]
  by_cases hnone : l.held op.key = none
  · obtain ⟨hret,hnext⟩ := hm.issue hk ((h.not_held hk).mp hnone) fail
    have hlt : l.issued.length < MTRIE_INT_MAX := by
      by_contra hge
      exact hroom ⟨hadds,hnone,not_lt.mp hge⟩
    rw [if_pos hnone,hret]
    obtain ⟨hpos,hfresh⟩ := h.next_fresh
    exact ⟨fun _ => ⟨hpos,.inr ⟨hnone,hfresh⟩⟩,_,hnext,h.enter hk hnone hlt⟩
  · have hvalue : a.value op.key ≠ 0 := mt (h.not_held hk).mpr hnone
    obtain ⟨hret,hnext⟩ := hm.keep hk hvalue fail
    have hheld : l.held op.key = some (a.value op.key) := (h.held _ _).mpr ⟨hk,rfl,hvalue⟩
    rw [if_neg hnone,hret]
    exact ⟨fun _ => ⟨((h.issued _).mp (h.live _ _ hheld)).1,.inl hheld⟩,a,hnext,h⟩

/-- A deletion outside the exception. -/
theorem del (h : IdsKept a l) (hm : Mapped t a) (hk : op.key ≠ []) (hadds : op.adds = false)
    (hleaf : ¬ op.MeetsLeaf t) : l.Grants op (op.call t).2 ∧
      ∃ a', Mapped (op.call t).1 a' ∧ IdsKept a' (l.record op (op.call t).2) := by
  have hnot : ¬ op.adds = true := by simp [hadds]
  rw [IdOp.call_del hadds,IdLedger.record,if_neg hnot]
  refine ⟨fun hadd => absurd hadd hnot,_,(hm.del hk ?_).2,h.leave op.key⟩
  rintro ⟨c,hsought,hnone,hdata⟩
  exact hleaf ⟨hadds,c,Option.some.inj hsought,hnone,hdata⟩

/-- A call finds an id left for its key, or exhausts them. -/
theorem idLeft_iff (h : IdsKept a l) (hm : Mapped t a) (hk : op.key ≠ []) (hadds : op.adds = true) :
    t.IdLeft op.key ↔ ¬ op.Exhausts l := by
  have hcount := h.count
  rw [Mtrie.IdLeft,hm.id,IdOp.Exhausts,h.not_held hk,hm.value_eq_zero]
  constructor
  · rintro hleft ⟨-,hdata,hge⟩
    have hlt := hleft hk hdata
    omega
  · intro hno _ hdata
    by_contra hge
    exact hno ⟨hadds,hdata,by omega⟩

/-- The invariant over a step within the conditions. -/
theorem step (h : IdsKept a l) (hm : Mapped t a) (hk : op.key ≠ []) (hleaf : ¬ op.MeetsLeaf t)
    (hroom : ¬ op.Exhausts l) : l.Grants op (op.call t).2 ∧
      ∃ a', Mapped (op.call t).1 a' ∧ IdsKept a' (l.record op (op.call t).2) := by
  cases hadds : op.adds with
  | true => exact h.add hm hk hadds hroom
  | false => exact h.del hm hk hadds hleaf

/-- A call has a result exactly where it neither exhausts the ids nor outgrows the array. -/
theorem run_overflow_iff (h : IdsKept a l) (hm : Mapped t a) (hsize : ArraySized t)
    (hint : ¬ t.Overflowed) (hk : op.key ≠ []) :
    (op.call t).1.Overflowed ↔ op.Exhausts l ∨ op.Outgrows t := by
  rw [(IdOp.call_overflowed hm hsize hint op).2,IdOp.Outgrows]
  constructor
  · rintro ⟨hadds,hno⟩
    rw [h.idLeft_iff hm hk hadds,not_and_or,not_not] at hno
    exact hno.elim (fun hroom => .inr ⟨hadds,hroom⟩) .inl
  · rintro (hexhausts | ⟨hadds,hroom⟩)
    · refine ⟨hexhausts.1,fun hno => ?_⟩
      exact (h.idLeft_iff hm hk hexhausts.1).mp hno.2 hexhausts
    · exact ⟨hadds,fun hno => hroom hno.1⟩

/-- In the exception the shorter key is live afterwards, and has lost its id. -/
theorem not_stable_of_leaf (h : IdsKept a l) (hm : Mapped t a) (hleaf : op.MeetsLeaf t) :
    ¬ (l.record op (op.call t).2).Stable (op.call t).1 := by
  obtain ⟨hadds,c,hkey,hnone,hdata⟩ := hleaf
  have hvalue : a.value [c] ≠ 0 := by rwa [← hm.stores.ends (At.root c)]
  have hheld : l.held [c] = some (a.value [c]) := (h.held _ _).mpr ⟨by simp,rfl,hvalue⟩
  have hle := ((h.issued _).mp (h.live _ _ hheld)).2
  have hnext := hm.del_leaf hnone
  rw [IdOp.call_del hadds,hkey,IdLedger.record,if_neg (by simp [hadds]),hkey]
  intro hstable
  have hsame := (hstable.same [c] (a.value [c]) (by simpa using hheld)).1
  have hret := (hnext.issue (k := [c]) (by simp) (by simp) (-3)).1
  rw [mtrieXadd,hret] at hsame
  dsimp only at hsame
  omega

end IdsKept

theorem IdsConform.stable {ops : List IdOp} (h : IdsConform t l ops) : l.Stable t := by
  cases ops with
  | nil => exact h
  | cons op ops => exact h.1

theorem IdsKept.conforms_iff {ops : List IdOp} (h : IdsKept a l) (hm : Mapped t a) (hsize : ArraySized t)
    (hint : ¬ t.Overflowed) (hops : ∀ op ∈ ops, op.key ≠ []) : IdsConform t l ops ↔
      Allowed (fun s op => ¬ op.MeetsLeaf s.1 ∧ ¬ op.Exhausts s.2 ∧ ¬ op.Outgrows s.1) advanceIds (t,l)
        ops := by
  induction ops generalizing t a l with
  | nil => exact iff_of_true (h.stable hm) trivial
  | cons op ops ih =>
    have hk : op.key ≠ [] := hops op (by simp)
    have hover := h.run_overflow_iff hm hsize hint hk
    by_cases hbeyond : (op.call t).1.Overflowed
    · have hrun : op.run t = none := if_pos hbeyond
      refine iff_of_false ?_ fun hall => (hover.mp hbeyond).elim hall.1.2.1 hall.1.2.2
      rintro ⟨-,r,hr,-⟩
      simp [hrun] at hr
    · obtain ⟨hroom,hnodes⟩ := not_or.mp (mt hover.mpr hbeyond)
      by_cases hleaf : op.MeetsLeaf t
      · refine iff_of_false ?_ fun hall => hall.1.1 hleaf
        rintro ⟨-,r,hr,-,hrest⟩
        cases IdOp.run_eq hr
        exact h.not_stable_of_leaf hm hleaf hrest.stable
      · have hrun : op.run t = some (op.call t) := if_neg hbeyond
        obtain ⟨hgrants,a',hm',h'⟩ := h.step hm hk hleaf hroom
        have hsize' := (IdOp.call_overflowed hm hsize hint op).1
        have hrest := ih h' hm' hsize' hbeyond fun op hop => hops op (by simp [hop])
        constructor
        · rintro ⟨-,r,hr,-,hconf⟩
          rw [hrun] at hr
          cases hr
          exact ⟨⟨hleaf,hroom,hnodes⟩,hrest.mp hconf⟩
        · intro hall
          exact ⟨h.stable hm,_,hrun,hgrants,hrest.mpr hall.2⟩

theorem IdsKept.empty : IdsKept ⟨fun _ => 0,0⟩ .empty where
  held k v := by
    simp only [IdLedger.empty,reduceCtorEq,ne_eq,false_iff]
    rintro ⟨-,rfl,hne⟩
    exact hne rfl
  issued v := by
    simp only [IdLedger.empty,List.not_mem_nil,false_iff]
    omega
  count := rfl
  room := by decide
  distinct k k' v h := by simp [IdLedger.empty] at h
  live k v h := by simp [IdLedger.empty] at h

end Sbase
