import Sbase.Utils.Xtree64Layout

/-! `xtree64` as an ordered container: what a reader of its pointers sees of the contents, and
sequences of operations from `xtree64_init` on. -/
namespace Sbase
open PointerTree

namespace XTree64

/-- The node is reached from the root by child pointers. -/
def Reachable (t : XTree64) (i : ℕ) : Prop := Reach t.links t.root i

/-- The cached end of one side: it has an outermost key, or the tree is empty. -/
def EndsAt (t : XTree64) (s : Side) (bag : Multiset (ℤ × ℤ)) : Prop :=
  match t.kend s with
  | none => bag = 0
  | some i => t.Reachable i ∧ t.pair i ∈ bag ∧ ∀ kv ∈ bag, Side.le s (t.key i) kv.1

/-- The tree reachable from the root stores the pairs `bag`, with its counter, its cached ends
and its parent links in order. -/
structure Contains (t : XTree64) (bag : Multiset (ℤ × ℤ)) : Prop where
  nodes : ∃ ids : List ℕ, ids.Nodup ∧ (∀ i, i ∈ ids ↔ t.Reachable i) ∧ t.total = ids.length ∧
    bag = (ids.map t.pair : List (ℤ × ℤ))
  kmin : t.EndsAt .left bag
  kmax : t.EndsAt .right bag
  root_parent : ∀ i, t.root = some i → (t.nodes i).parent = none
  parent_of_child : ∀ i s j, t.Reachable i → (t.nodes i).child s = some j →
    (t.nodes j).parent = some i
  child_of_parent : ∀ i j, t.Reachable j → (t.nodes j).parent = some i →
    t.Reachable i ∧ ∃ s, (t.nodes i).child s = some j

theorem mem_contents {t : XTree64} {tree : PTree ℕ} {kv : ℤ × ℤ} :
    kv ∈ t.contents tree ↔ ∃ i ∈ tree, t.pair i = kv := by
  simp [contents, PTree.mem_walk]

theorem Holds.contains {t : XTree64} {tree : PTree ℕ} {free : List ℕ} (h : Holds t tree free) :
    Contains t (t.contents tree) := by
  have hreach : ∀ i, t.Reachable i ↔ i ∈ tree := fun i => h.shaped.reach_iff
  have hend : ∀ s, t.EndsAt s (t.contents tree) := by
    intro s
    unfold EndsAt
    cases he : t.kend s with
    | none =>
      rw [h.kend_eq, ← PTree.spot_const, PTree.spot_eq_none] at he
      rw [he]
      rfl
    | some e =>
      obtain ⟨hm, hle⟩ := h.le_of_kend he
      refine ⟨(hreach e).mpr hm, mem_contents.mpr ⟨e, hm, rfl⟩, ?_⟩
      intro kv hkv
      obtain ⟨i, hi, rfl⟩ := mem_contents.mp hkv
      exact hle i hi
  refine ⟨⟨tree.walk .left, (List.nodup_append.mp h.nodup).1, ?_, h.total_eq, rfl⟩, hend .left,
    hend .right, ?_, ?_, ?_⟩
  · intro i
    rw [hreach, PTree.mem_walk]
  · intro i hi
    have hm := (hreach i).mp (.root hi)
    exact (h.parent_eq_none hm).mpr hi
  · intro i s j hi hc
    exact (h.shaped.child_mem ((hreach i).mp hi) hc).2
  · intro i j hj hp
    rcases h.shaped.parent_cases ((hreach j).mp hj) with ⟨-, hn⟩ | ⟨q, hq, hpq, s, hs⟩
    · cases hp.symm.trans hn
    · obtain rfl : i = q := Option.some.inj (hp.symm.trans hpq)
      exact ⟨(hreach i).mpr hq, s, hs⟩

end XTree64

/-! ### Pushes and pops -/

inductive PushOp
  | push (key data : ℤ) (alloc : Bool)
  | pop (s : Side)

/-- The operation and what it hands back: its return value and the pair it stores. -/
def PushOp.run (t : XTree64) : PushOp → Option (XTree64 × ℤ × Option (ℤ × ℤ))
  | .push key data alloc => (xtree64Push alloc t key data).map fun r => (r.1, r.2, none)
  | .pop .left => xtree64PopMin t
  | .pop .right => xtree64PopMax t

/-- The operation gets a node if it asks for one. -/
def PushOp.Allocates (t : XTree64) : PushOp → Prop
  | .push _ _ alloc => (xtnode64Pop alloc t).2.isSome
  | .pop _ => True

/-- What the operation does to the pairs and hands back. -/
def PushOp.Serves (bag : Multiset (ℤ × ℤ)) (ret : ℤ) (out : Option (ℤ × ℤ))
    (bag' : Multiset (ℤ × ℤ)) : PushOp → Prop
  | .push key data _ => ret = 0 ∧ out = none ∧ bag' = (key, data) ::ₘ bag
  | .pop s => (bag = 0 ∧ ret = -1 ∧ out = none ∧ bag' = 0) ∨
      ∃ kv ∈ bag, (∀ kv' ∈ bag, XTree64.Side.le s kv.1 kv'.1) ∧ ret = 0 ∧ out = some kv ∧
        bag' = bag.erase kv

/-- Along the whole sequence, as long as nodes are found, every operation serves the pairs
stored and leaves the tree in order. -/
def PushConforms (t : XTree64) (bag : Multiset (ℤ × ℤ)) : List PushOp → Prop
  | [] => t.Contains bag
  | op::ops => t.Contains bag ∧ (op.Allocates t →
      ∃ t' ret out bag', op.run t = some (t', ret, out) ∧ op.Serves bag ret out bag' ∧
        PushConforms t' bag' ops)

namespace XTree64

theorem Holds.pop_serves {t : XTree64} {tree : PTree ℕ} {free : List ℕ} (h : Holds t tree free)
    (s : Side) : ∃ t' ret out tree' free', xtree64PopEnd t s = some (t', ret, out) ∧
      Holds t' tree' free' ∧
      PushOp.Serves (t.contents tree) ret out (t'.contents tree') (.pop s) := by
  rcases h.popEnd s with ⟨rfl, hr⟩ | ⟨e, t', tree', free', hr, hh, hc, hm, hle⟩
  · exact ⟨t, _, _, _, free, hr, h, .inl ⟨rfl, rfl, rfl, rfl⟩⟩
  · refine ⟨t', _, _, tree', free', hr, hh, .inr ⟨t.pair e, mem_contents.mpr ⟨e, hm, rfl⟩, ?_,
      rfl, rfl, by rw [hc, Multiset.erase_cons_head]⟩⟩
    intro kv hkv
    obtain ⟨i, hi, rfl⟩ := mem_contents.mp hkv
    exact hle i hi

/-- The step lemma of the container. -/
theorem Holds.run {t : XTree64} {tree : PTree ℕ} {free : List ℕ} (h : Holds t tree free)
    {op : PushOp} (ha : op.Allocates t) : ∃ t' ret out tree' free', op.run t = some (t', ret, out) ∧
      Holds t' tree' free' ∧ op.Serves (t.contents tree) ret out (t'.contents tree') := by
  cases op with
  | push key data alloc =>
    obtain ⟨t', hr, tree', free', hh, hc⟩ := h.xtree64Push ha key data
    exact ⟨t', 0, none, tree', free', by rw [PushOp.run, hr]; rfl, hh, rfl, rfl, hc⟩
  | pop s =>
    obtain ⟨t', ret, out, tree', free', hr, hh, hs⟩ := h.pop_serves s
    exact ⟨t', ret, out, tree', free', by cases s <;> exact hr, hh, hs⟩

theorem Holds.pushConforms {t : XTree64} {tree : PTree ℕ} {free : List ℕ} (h : Holds t tree free)
    (ops : List PushOp) : PushConforms t (t.contents tree) ops := by
  induction ops generalizing t tree free with
  | nil => exact h.contains
  | cons op ops ih =>
    refine ⟨h.contains, fun ha => ?_⟩
    obtain ⟨t', ret, out, tree', free', hr, hh, hs⟩ := h.run ha
    exact ⟨t', ret, out, _, hr, hs, ih hh⟩

end XTree64

/-- From `xtree64_init` on, pushes and pops keep the tree an ordered container. -/
theorem xtree64_container (ops : List PushOp) : PushConforms xtree64Init 0 ops := by
  obtain ⟨free, h⟩ := XTree64.xtree64Init_holds
  exact h.pushConforms ops

/-! ### Additions

The interior descent of `xtree64_add` compares for greater only, so that a key which is neither
the least nor the greatest one is added again. -/

inductive AddOp
  | add (key data : ℤ) (alloc : Bool)
  | pop (s : Side)

/-- The operation and what it hands back: its return value, `*old` and the pair it stores. -/
def AddOp.run (t : XTree64) : AddOp → Option (XTree64 × ℤ × Option ℤ × Option (ℤ × ℤ))
  | .add key data alloc => (xtree64Add alloc t key data).map fun r => (r.1, r.2.1, r.2.2, none)
  | .pop .left => (xtree64PopMin t).map fun r => (r.1, r.2.1, none, r.2.2)
  | .pop .right => (xtree64PopMax t).map fun r => (r.1, r.2.1, none, r.2.2)

/-- The operation gets a node if it has a pair to add. -/
def AddOp.Allocates (t : XTree64) (bag : Multiset (ℤ × ℤ)) : AddOp → Prop
  | .add key _ alloc => (∀ kv ∈ bag, kv.1 ≠ key) → (xtnode64Pop alloc t).2.isSome
  | .pop _ => True

/-- What the operation should do to the tree and its pairs, and hand back. -/
def AddOp.Serves (t : XTree64) (bag : Multiset (ℤ × ℤ)) (t' : XTree64) (ret : ℤ) (old : Option ℤ)
    (out : Option (ℤ × ℤ)) (bag' : Multiset (ℤ × ℤ)) : AddOp → Prop
  | .add key data _ => out = none ∧
      ((∃ d, (key, d) ∈ bag ∧ ret = 1 ∧ old = some d ∧ t' = t ∧ bag' = bag) ∨
        ((∀ kv ∈ bag, kv.1 ≠ key) ∧ ret = 0 ∧ old = none ∧ bag' = (key, data) ::ₘ bag))
  | .pop s => old = none ∧ PushOp.Serves bag ret out bag' (.pop s)

/-- Along the whole sequence the keys stay distinct and every operation serves the pairs. -/
def AddConforms (t : XTree64) (bag : Multiset (ℤ × ℤ)) : List AddOp → Prop
  | [] => t.Contains bag ∧ (bag.map Prod.fst).Nodup
  | op::ops => t.Contains bag ∧ (bag.map Prod.fst).Nodup ∧ (op.Allocates t bag →
      ∃ t' ret old out bag', op.run t = some (t', ret, old, out) ∧
        op.Serves t bag t' ret old out bag' ∧ AddConforms t' bag' ops)

/-- Every addition meets a tree that has its key nowhere, or at one of its ends. -/
def AddsAtEnds (t : XTree64) : List AddOp → Prop
  | [] => True
  | op::ops => (∀ key data alloc, op = .add key data alloc →
      (∃ i, t.Reachable i ∧ t.key i = key) → ∃ s e, t.kend s = some e ∧ t.key e = key) ∧
      ∀ t' r, op.run t = some (t', r) → AddsAtEnds t' ops

namespace XTree64

theorem xtree64Hang_eq_none {t : XTree64} {alloc : Bool} (h : ¬ (xtnode64Pop alloc t).2.isSome)
    (s : Side) (q : ℕ) (key data : ℤ) : xtree64Hang alloc t s q key data = none := by
  unfold xtree64Hang
  rcases hp : xtnode64Pop alloc t with ⟨t1, _ | p⟩
  · rfl
  · rw [hp] at h
    exact absurd rfl h

theorem xtree64Extend_eq_none {t : XTree64} {alloc : Bool} (h : ¬ (xtnode64Pop alloc t).2.isSome)
    (s : Side) (q : ℕ) (key data : ℤ) : xtree64Extend alloc t s q key data = none := by
  unfold xtree64Extend
  rw [xtree64Hang_eq_none h]

theorem xtree64Descend_eq_none {t : XTree64} {alloc : Bool} (h : ¬ (xtnode64Pop alloc t).2.isSome)
    (root : ℕ) (key data : ℤ) : xtree64Descend alloc t root key data = none := by
  unfold xtree64Descend
  cases follow (fun i => (t.nodes i).child (t.dir key i)) t.total.toNat root with
  | none => rfl
  | some xp => simp only [xtree64Hang_eq_none h, Option.map_none]

theorem xtree64Plant_eq_none {t : XTree64} {alloc : Bool} (h : ¬ (xtnode64Pop alloc t).2.isSome)
    (key data : ℤ) : xtree64Plant alloc t key data = none := by
  unfold xtree64Plant
  rcases hp : xtnode64Pop alloc t with ⟨t1, _ | p⟩
  · rfl
  · rw [hp] at h
    exact absurd rfl h

/-- An attempt to insert: it crashes without a node and adds the pair with one. -/
structure Inserts (t : XTree64) (tree : PTree ℕ) (alloc : Bool) (key data : ℤ)
    (res : Option XTree64) : Prop where
  crash : ¬ (xtnode64Pop alloc t).2.isSome → res = none
  insert : (xtnode64Pop alloc t).2.isSome → ∃ t', res = some t' ∧ ∃ tree' free',
    Holds t' tree' free' ∧ t'.contents tree' = (key, data) ::ₘ t.contents tree

/-- `xtree64_add` finds a key at the ends; any other key is inserted. -/
theorem Holds.xtree64Add {t : XTree64} {tree : PTree ℕ} {free : List ℕ} (h : Holds t tree free)
    (alloc : Bool) (key data : ℤ) :
    (∃ s e, t.kend s = some e ∧ t.key e = key ∧
      xtree64Add alloc t key data = some (t, 1, some (t.nodes e).data)) ∨
    ((∀ s e, t.kend s = some e → t.key e ≠ key) ∧ ∃ res,
      xtree64Add alloc t key data = res.map (·, 0, none) ∧ Inserts t tree alloc key data res) := by
  unfold Sbase.xtree64Add
  rcases h.ends with ⟨rfl, hr⟩ | ⟨r, a, b, hr, ha, hb, hpos⟩
  · right
    refine ⟨fun s e he => ?_, _, by rw [hr], fun hn => xtree64Plant_eq_none hn key data,
      fun hpop => h.plant hpop key data⟩
    rw [h.kend_eq] at he
    cases he
  · simp only [hr, ha, hb, if_pos hpos]
    by_cases hka : key = (t.nodes a).key
    · rw [if_pos hka]
      exact .inl ⟨.left, a, ha, hka.symm, rfl⟩
    rw [if_neg hka]
    by_cases hkb : key = (t.nodes b).key
    · rw [if_pos hkb]
      exact .inl ⟨.right, b, hb, hkb.symm, rfl⟩
    rw [if_neg hkb]
    refine .inr ⟨fun s e he => ?_, ?_⟩
    · cases s with
      | left => cases ha.symm.trans he; exact Ne.symm hka
      | right => cases hb.symm.trans he; exact Ne.symm hkb
    by_cases hlo : key < (t.nodes a).key
    · rw [if_pos hlo]
      refine ⟨_, rfl, fun hn => xtree64Extend_eq_none hn .left a key data, fun hpop => ?_⟩
      obtain ⟨t', he⟩ := xtree64Extend_isSome hpop .left a key data
      exact ⟨t', he, h.extend (s := .left) ha hlo.le he⟩
    rw [if_neg hlo]
    by_cases hhi : key > (t.nodes b).key
    · rw [if_pos hhi]
      refine ⟨_, rfl, fun hn => xtree64Extend_eq_none hn .right b key data, fun hpop => ?_⟩
      obtain ⟨t', he⟩ := xtree64Extend_isSome hpop .right b key data
      exact ⟨t', he, h.extend (s := .right) hb hhi.le he⟩
    · rw [if_neg hhi]
      exact ⟨_, rfl, fun hn => xtree64Descend_eq_none hn r key data, fun hpop =>
        h.descend hr ha hb (lt_of_le_of_ne (not_lt.mp hlo) (Ne.symm hka))
          (lt_of_le_of_ne (not_lt.mp hhi) hkb) hpop data⟩

end XTree64

theorem AddOp.Serves.unique {op : AddOp} {t t' : XTree64} {bag bag1 bag2 : Multiset (ℤ × ℤ)}
    {ret : ℤ} {old : Option ℤ} {out : Option (ℤ × ℤ)} (h1 : op.Serves t bag t' ret old out bag1)
    (h2 : op.Serves t bag t' ret old out bag2) : bag1 = bag2 := by
  cases op with
  | add key data alloc =>
    rcases h1 with ⟨-, ⟨_, _, rfl, _, _, rfl⟩ | ⟨_, rfl, _, rfl⟩⟩ <;>
      rcases h2 with ⟨-, ⟨_, _, h, _, _, rfl⟩ | ⟨_, h, _, rfl⟩⟩ <;>
        first | rfl | cases h
  | pop s =>
    rcases h1 with ⟨-, ⟨rfl, rfl, rfl, rfl⟩ | ⟨kv, hkv, -, rfl, rfl, rfl⟩⟩ <;>
      rcases h2 with ⟨-, ⟨_, h, _, rfl⟩ | ⟨kv', hkv', -, h, hout, rfl⟩⟩
    · rfl
    · cases h
    · cases h
    · cases hout; rfl

/-- What a step contributes when the operation serves the pairs. -/
theorem addConforms_cons_iff {op : AddOp} {ops : List AddOp} {t t' : XTree64}
    {bag bag' : Multiset (ℤ × ℤ)} {ret : ℤ} {old : Option ℤ} {out : Option (ℤ × ℤ)}
    (hc : t.Contains bag) (hnd : (bag.map Prod.fst).Nodup)
    (hrun : op.run t = some (t', ret, old, out)) (hs : op.Serves t bag t' ret old out bag')
    (ha : op.Allocates t bag) : AddConforms t bag (op::ops) ↔ AddConforms t' bag' ops := by
  constructor
  · rintro ⟨-, -, hstep⟩
    obtain ⟨_, _, _, _, bag2, hr, hs2, hrest⟩ := hstep ha
    cases hrun.symm.trans hr
    rwa [hs.unique hs2]
  · exact fun hrest => ⟨hc, hnd, fun _ => ⟨t', ret, old, out, bag', hrun, hs, hrest⟩⟩

theorem addsAtEnds_cons_iff {op : AddOp} {ops : List AddOp} {t t' : XTree64}
    {r : ℤ × Option ℤ × Option (ℤ × ℤ)} (hrun : op.run t = some (t', r))
    (hend : ∀ key data alloc, op = .add key data alloc →
      (∃ i, t.Reachable i ∧ t.key i = key) → ∃ s e, t.kend s = some e ∧ t.key e = key) :
    AddsAtEnds t (op::ops) ↔ AddsAtEnds t' ops := by
  constructor
  · exact fun h => h.2 t' r hrun
  · intro h
    refine ⟨hend, fun t1 r1 hr1 => ?_⟩
    cases hrun.symm.trans hr1
    exact h

namespace XTree64

theorem Holds.present_iff {t : XTree64} {tree : PTree ℕ} {free : List ℕ} (h : Holds t tree free)
    (key : ℤ) : (∃ i, t.Reachable i ∧ t.key i = key) ↔ ∃ kv ∈ t.contents tree, kv.1 = key := by
  have hreach : ∀ i, t.Reachable i ↔ i ∈ tree := fun i => h.shaped.reach_iff
  constructor
  · rintro ⟨i, hi, hk⟩
    exact ⟨t.pair i, mem_contents.mpr ⟨i, (hreach i).mp hi, rfl⟩, hk⟩
  · rintro ⟨kv, hkv, hk⟩
    obtain ⟨i, hi, rfl⟩ := mem_contents.mp hkv
    exact ⟨i, (hreach i).mpr hi, hk⟩

/-- A pop serves the pairs and keeps the keys distinct. -/
theorem Holds.pop_serves_add {t : XTree64} {tree : PTree ℕ} {free : List ℕ} (h : Holds t tree free)
    (hnd : ((t.contents tree).map Prod.fst).Nodup) (s : Side) :
    ∃ t' ret out tree' free', (AddOp.pop s).run t = some (t', ret, none, out) ∧
      Holds t' tree' free' ∧ ((t'.contents tree').map Prod.fst).Nodup ∧
      AddOp.Serves t (t.contents tree) t' ret none out (t'.contents tree') (.pop s) := by
  obtain ⟨t', ret, out, tree', free', hr, hh, hs⟩ := h.pop_serves s
  refine ⟨t', ret, out, tree', free', ?_, hh, ?_, rfl, hs⟩
  · cases s with
    | left => rw [AddOp.run, xtree64PopMin, hr]; rfl
    | right => rw [AddOp.run, xtree64PopMax, hr]; rfl
  · rcases hs with ⟨-, -, -, h0⟩ | ⟨kv, hkv, -, -, -, he⟩
    · rw [h0]
      exact Multiset.nodup_zero
    · rw [he]
      exact Multiset.nodup_of_le (Multiset.map_le_map (Multiset.erase_le kv _)) hnd

/-- A key that is present, but not at the ends, is added once more. -/
theorem Inserts.not_addConforms {t : XTree64} {tree : PTree ℕ} {alloc : Bool} {key data : ℤ}
    {res : Option XTree64} (hadd : xtree64Add alloc t key data = res.map (·, 0, none))
    {kv : ℤ × ℤ} (hkv : kv ∈ t.contents tree) (hk : kv.1 = key) (ops : List AddOp) :
    ¬ AddConforms t (t.contents tree) (.add key data alloc::ops) := by
  rintro ⟨-, -, hstep⟩
  obtain ⟨t', ret, old, out, bag', hr, ⟨-, hs⟩, -⟩ := hstep fun habs => absurd hk (habs kv hkv)
  rw [AddOp.run, hadd] at hr
  cases res with
  | none => cases hr
  | some t1 =>
    cases hr
    rcases hs with ⟨_, _, h1, _⟩ | ⟨habs, _⟩
    · cases h1
    · exact habs kv hkv hk

theorem Holds.addConforms_iff {t : XTree64} {tree : PTree ℕ} {free : List ℕ}
    (h : Holds t tree free) (hnd : ((t.contents tree).map Prod.fst).Nodup) (ops : List AddOp) :
    AddConforms t (t.contents tree) ops ↔ AddsAtEnds t ops := by
  induction ops generalizing t tree free with
  | nil => exact ⟨fun _ => trivial, fun _ => ⟨h.contains, hnd⟩⟩
  | cons op ops ih =>
    cases op with
    | add key data alloc =>
      rcases h.xtree64Add alloc key data with ⟨s, e, he, hke, hadd⟩ | ⟨hne, res, hadd, hins⟩
      · have hrun : (AddOp.add key data alloc).run t
            = some (t, 1, some (t.nodes e).data, none) := by
          rw [AddOp.run, hadd]; rfl
        have hmem : (key, (t.nodes e).data) ∈ t.contents tree :=
          mem_contents.mpr ⟨e, (h.le_of_kend he).1, by rw [← hke]; rfl⟩
        rw [addConforms_cons_iff h.contains hnd hrun ⟨rfl, .inl ⟨_, hmem, rfl, rfl, rfl, rfl⟩⟩
          (fun habs => absurd rfl (habs _ hmem)), addsAtEnds_cons_iff hrun]
        · exact ih h hnd
        · rintro _ _ _ ⟨⟩ -
          exact ⟨s, e, he, hke⟩
      by_cases hpre : ∃ kv ∈ t.contents tree, kv.1 = key
      · obtain ⟨kv, hkv, hk⟩ := hpre
        apply iff_of_false (Inserts.not_addConforms hadd hkv hk ops)
        rintro ⟨hend, -⟩
        obtain ⟨s, e, he, hke⟩ := hend key data alloc rfl ((h.present_iff key).mpr ⟨kv, hkv, hk⟩)
        exact hne s e he hke
      have habs : ∀ kv ∈ t.contents tree, kv.1 ≠ key := fun kv hkv hk => hpre ⟨kv, hkv, hk⟩
      have hend : ∀ k d a, AddOp.add key data alloc = .add k d a →
          (∃ i, t.Reachable i ∧ t.key i = k) → ∃ s e, t.kend s = some e ∧ t.key e = k := by
        rintro _ _ _ ⟨⟩ hp
        exact absurd ((h.present_iff key).mp hp) hpre
      by_cases hpop : (xtnode64Pop alloc t).2.isSome
      · obtain ⟨t1, rfl, tree', free', hh, hc⟩ := hins.insert hpop
        have hrun : (AddOp.add key data alloc).run t = some (t1, 0, none, none) := by
          rw [AddOp.run, hadd]; rfl
        rw [addConforms_cons_iff h.contains hnd hrun ⟨rfl, .inr ⟨habs, rfl, rfl, hc⟩⟩
          (fun _ => hpop), addsAtEnds_cons_iff hrun hend]
        apply ih hh
        rw [hc, Multiset.map_cons, Multiset.nodup_cons, Multiset.mem_map]
        exact ⟨hpre, hnd⟩
      · have hrun : (AddOp.add key data alloc).run t = none := by
          rw [AddOp.run, hadd, hins.crash hpop]; rfl
        apply iff_of_true
        · exact ⟨h.contains, hnd, fun ha => absurd (ha habs) hpop⟩
        · exact ⟨hend, fun t' r hr => by cases hrun.symm.trans hr⟩
    | pop s =>
      obtain ⟨t', ret, out, tree', free', hrun, hh, hnd', hs⟩ := h.pop_serves_add hnd s
      rw [addConforms_cons_iff h.contains hnd hrun hs trivial, addsAtEnds_cons_iff hrun nofun]
      exact ih hh hnd'

end XTree64

/-- From `xtree64_init` on, additions and pops keep the keys distinct and serve the pairs exactly
when no addition meets its key strictly inside the tree. -/
theorem xtree64_add_unique_iff (ops : List AddOp) :
    AddConforms xtree64Init 0 ops ↔ AddsAtEnds xtree64Init ops := by
  obtain ⟨free, h⟩ := XTree64.xtree64Init_holds
  exact h.addConforms_iff Multiset.nodup_zero ops

/-- The state after a sequence of operations. -/
def AddOp.runAll (t : XTree64) : List AddOp → Option XTree64
  | [] => some t
  | op::ops => (op.run t).bind fun r => runAll r.1 ops

theorem AddsAtEnds.drop {t t' : XTree64} {ops rest : List AddOp} (h : AddsAtEnds t (ops ++ rest))
    (hrun : AddOp.runAll t ops = some t') : AddsAtEnds t' rest := by
  induction ops generalizing t with
  | nil => cases hrun; exact h
  | cons op ops ih =>
    cases hr : op.run t with
    | none => rw [AddOp.runAll, hr] at hrun; cases hrun
    | some r =>
      rw [AddOp.runAll, hr] at hrun
      exact ih (h.2 r.1 r.2 hr) hrun

/-- After 1, 3 and 2, a second 2 is added instead of found. -/
theorem xtree64_add_interior_duplicate : ¬ AddConforms xtree64Init 0
    [.add 1 10 true, .add 3 30 true, .add 2 20 true, .add 2 21 true] := by
  intro hconf
  obtain ⟨free, h⟩ := XTree64.xtree64Init_holds
  have hends := (h.addConforms_iff Multiset.nodup_zero _).mp hconf
  have hview : (AddOp.runAll xtree64Init [.add 1 10 true, .add 3 30 true, .add 2 20 true]).map
      (fun t => (t.root, (t.nodes 2047).right, (t.nodes 2046).left, (t.nodes 2045).key))
        = some (some 2047, some 2046, some 2045, 2) := by
    decide +kernel
  have hview' : (AddOp.runAll xtree64Init [.add 1 10 true, .add 3 30 true, .add 2 20 true]).map
      (fun t => (t.kmin, (t.nodes 2047).key, t.kmax, (t.nodes 2046).key))
        = some (some 2047, 1, some 2046, 3) := by
    decide +kernel
  obtain ⟨t, ht⟩ : ∃ t, AddOp.runAll xtree64Init
      [.add 1 10 true, .add 3 30 true, .add 2 20 true] = some t := by
    cases hr : AddOp.runAll xtree64Init [.add 1 10 true, .add 3 30 true, .add 2 20 true] with
    | none => rw [hr] at hview; cases hview
    | some t => exact ⟨t, rfl⟩
  rw [ht] at hview hview'
  simp only [Option.map_some, Option.some.injEq, Prod.mk.injEq] at hview hview'
  obtain ⟨hroot, hright, hleft, hkey⟩ := hview
  obtain ⟨hmin, hk1, hmax, hk3⟩ := hview'
  have hreach : t.Reachable 2045 := .child .left (.child .right (.root hroot) hright) hleft
  have hlast : AddsAtEnds t [.add 2 21 true] := AddsAtEnds.drop hends ht
  obtain ⟨s, e, he, hke⟩ := hlast.1 2 21 true rfl ⟨2045, hreach, hkey⟩
  cases s with
  | left =>
    cases hmin.symm.trans he
    exact absurd (hk1.symm.trans hke) (by decide)
  | right =>
    cases hmax.symm.trans he
    exact absurd (hk3.symm.trans hke) (by decide)

end Sbase
