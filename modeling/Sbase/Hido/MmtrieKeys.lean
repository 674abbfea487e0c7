import Sbase.Hido.Mmtrie

/-! The ids of the keys in the trie of hido, and what a lookup returns for a key without one. -/
namespace Sbase
open BlockTree

/-- The trie stands for a map of ids: distinct keys have distinct ids, and every path is a byte by itself
or the beginning of a key. -/
structure KeysKept (t : Mtrie) (a : KeyMap) : Prop where
  mapped : Mapped t a
  low : 0 ≤ a.id
  range : ∀ k, a.value k ≠ 0 → 0 < a.value k ∧ a.value k ≤ a.id
  distinct : ∀ k k', a.value k ≠ 0 → a.value k = a.value k' → k = k'
  paths : ∀ w, t.Path w → w.length = 1 ∨ ∃ k, a.value k ≠ 0 ∧ w <+: k

/-- A key without an id that no lookup takes for another. -/
def Unmistaken (a : KeyMap) (key : List UInt8) : Prop :=
  key = [] ∨ key.length ≠ 1 ∧ (∀ k, a.value k ≠ 0 → ¬ key <+: k) ∧
    ∀ c, key = [c,0] → ∃ k b, a.value k ≠ 0 ∧ [c,b] <+: k

/-- The map with the next id for a key. -/
def KeyMap.enter (a : KeyMap) (key : List UInt8) : KeyMap :=
  ⟨Function.update a.value key (a.id + 1),a.id + 1⟩

variable {t : Mtrie} {a : KeyMap} {key w : List UInt8}

theorem mmtrieInit_laid : Laid mmtrieInit (fun _ => .wild) (fun _ => []) where
  shape := mtrieInit_laid.shape
  bounds := mtrieInit_laid.bounds
  lists := mtrieInit_laid.lists
  blocks hmem := by cases hmem
  free hq := by cases hq
  wild := mtrieInit_laid.wild
  room := le_rfl
  capacity := rfl

theorem mmtrieInit_keys : KeysKept mmtrieInit ⟨fun _ => 0,0⟩ where
  mapped := ⟨⟨_,_,mmtrieInit_laid⟩,⟨fun _ => rfl,fun _ => rfl,fun _ _ => rfl⟩,rfl⟩
  low := le_rfl
  range k hk := absurd rfl hk
  distinct k _ hk := absurd rfl hk
  paths := by
    rintro w ⟨i,hi⟩
    cases hi with
    | root c => exact .inl rfl
    | child h hj => exact absurd hj.2 (not_lt.2 hj.1)

namespace KeysKept

theorem nil_value (h : KeysKept t a) : a.value [] = 0 :=
  h.mapped.stores.absent [] fun _ hi => hi.ne_nil rfl

/-- A key with an id, and each beginning of it, leads to a node. -/
theorem path_of_prefix (h : KeysKept t a) (hk : a.value key ≠ 0) (hw : w ≠ []) (hpre : w <+: key) :
    t.Path w := by
  have hends : t.Path key := by
    by_contra hnone
    exact hk (h.mapped.stores.absent key fun i hi => hnone ⟨i,hi⟩)
  obtain ⟨u,rfl⟩ := hpre
  obtain ⟨j,hj⟩ := hends
  exact At.of_append hw hj

theorem value_nonneg (h : KeysKept t a) (key : List UInt8) : 0 ≤ a.value key := by
  by_cases hk : a.value key = 0
  · exact hk.ge
  · exact (h.range key hk).1.le

/-- The next id for a key that has none. -/
theorem enter {t' : Mtrie} (h : KeysKept t a)
    (hmapped : Mapped t' (a.enter key)) (hpaths : ∀ u, t'.Path u → t.Path u ∨ u <+: key) :
    KeysKept t' (a.enter key) := by
  have hlow := h.low
  have hvalue : ∀ k, (a.enter key).value k = if k = key then a.id + 1 else a.value k :=
    fun k => Function.update_apply ..
  have hid : (a.enter key).id = a.id + 1 := rfl
  refine ⟨hmapped,by omega,fun k hk => ?_,fun k k' hk heq => ?_,fun u hu => ?_⟩
  · rw [hvalue] at hk ⊢
    split_ifs at hk ⊢ with hkey
    · omega
    · have hrange := h.range k hk
      omega
  · rw [hvalue] at hk
    rw [hvalue,hvalue] at heq
    split_ifs at hk heq with hkey hkey' hkey'
    · rw [hkey,hkey']
    · have hle : a.value k' ≠ 0 := by omega
      have hrange := h.range k' hle
      omega
    · have hrange := h.range k hk
      omega
    · exact h.distinct k k' hk heq
  · rcases hpaths u hu with hu | hu
    · rcases h.paths u hu with hone | ⟨k,hk,hpre⟩
      · exact .inl hone
      · refine .inr ⟨k,?_,hpre⟩
        rw [hvalue]
        split_ifs
        · omega
        · exact hk
    · refine .inr ⟨key,?_,hu⟩
      rw [hvalue,if_pos rfl]
      omega

/-- `mmtrie_xadd`: a key keeps its id or is given the next one, unless there is no block for its path. -/
theorem xadd (h : KeysKept t a) (key : List UInt8) :
    mmtrieXadd t key = (t,-1) ∨
      (mmtrieXadd t key).2 = (if a.value key = 0 then a.id + 1 else a.value key) ∧
        KeysKept (mmtrieXadd t key).1 (if a.value key = 0 then a.enter key else a) := by
  obtain ⟨own,bins,hlaid⟩ := h.mapped.laid
  cases key with
  | nil => exact .inl rfl
  | cons b bs =>
    rcases hlaid.mmtrieWalk bs (At.root b) with ⟨t',j,hwalk,hreach⟩ | ⟨hwalk,-⟩
    · obtain ⟨own',bins',hlaid'⟩ := hreach.laid
      have hstores := hreach.stores _ h.mapped.stores
      have hid := hreach.id.trans h.mapped.id
      have hends : t'.Ends (b::bs) j := hreach.ends
      have hdata := hstores.ends hends
      have hpaths : ∀ u, t'.Path u → t.Path u ∨ u <+: b::bs := hreach.paths
      refine .inr ?_
      by_cases hzero : a.value (b::bs) = 0
      · have hxadd : mmtrieXadd t (b::bs) =
            (({ t' with id := a.id + 1 } : Mtrie).setData j (a.id + 1),a.id + 1) := by
          simp only [mmtrieXadd,hwalk,hdata,hzero,if_true,hid]
          rfl
        have hnew : Stores { t' with id := a.id + 1 } a.value := ⟨hstores.roots,hstores.ends,hstores.absent⟩
        rw [hxadd,if_pos hzero,if_pos hzero]
        refine ⟨rfl,h.enter ⟨⟨own',bins',(hlaid'.setId _).setData j _⟩,
          hnew.setData (hlaid'.setId _) hends _,rfl⟩ ?_⟩
        rintro u ⟨i,hi⟩
        rw [Mtrie.Ends,Mtrie.setData_links] at hi
        exact hpaths u ⟨i,hi⟩
      · have hxadd : mmtrieXadd t (b::bs) = (t',a.value (b::bs)) := by
          simp only [mmtrieXadd,hwalk,hdata,if_neg hzero]
        rw [hxadd,if_neg hzero,if_neg hzero]
        refine ⟨rfl,⟨⟨⟨own',bins',hlaid'⟩,hstores,hid⟩,h.low,h.range,h.distinct,fun u hu => ?_⟩⟩
        rcases hpaths u hu with hu | hu
        · exact h.paths u hu
        · exact .inr ⟨_,hzero,hu⟩
    · refine .inl ?_
      simp only [mmtrieXadd,hwalk]

/-- A root has children exactly if a longer key begins with its byte. -/
theorem root_children (h : KeysKept t a) (c : UInt8) :
    (t.nodes c.toNat).nchilds = 0 ↔ ∀ k b, a.value k ≠ 0 → ¬ [c,b] <+: k := by
  obtain ⟨own,bins,hlaid⟩ := h.mapped.laid
  constructor
  · intro hleaf k b hk hpre
    obtain ⟨j,hj⟩ := h.path_of_prefix hk (List.cons_ne_nil _ _) hpre
    exact hlaid.no_extension (At.root c) (fun q hq => by omega) [] j hj
  · intro hnone
    by_contra hpos
    have hchild := (At.root c).child (Laid.isChild (t := t) 0 (Nat.pos_of_ne_zero hpos))
    rcases h.paths _ ⟨_,hchild⟩ with hlen | ⟨k,hk,hpre⟩
    · cases hlen
    · exact hnone k _ hk hpre

/-- `mmtrie_get` of a key with an id. -/
theorem get_value (h : KeysKept t a) (hk : a.value key ≠ 0) : mmtrieGet t key = a.value key := by
  cases key with
  | nil => exact absurd h.nil_value hk
  | cons c bs =>
    cases bs with
    | nil =>
      rw [mmtrieGet,if_pos ⟨rfl,h.mapped.total c⟩]
      exact h.mapped.stores.ends (At.root c)
    | cons b bs =>
      have hkids : (t.nodes c.toNat).nchilds ≠ 0 := fun hleaf =>
        (h.root_children c).mp hleaf _ b hk ⟨bs,rfl⟩
      rw [mmtrieGet,if_neg fun hcond => List.cons_ne_nil _ _ hcond.1]
      rcases h.mapped.finds (fun hleaf => absurd hleaf hkids) with ⟨j,hj,hends⟩ | ⟨-,hnone⟩
      · rw [hj]
        exact h.mapped.stores.ends hends
      · exact absurd (h.mapped.stores.absent _ hnone) hk

/-- `mmtrie_get` of a key without an id. -/
theorem get_neg_iff (h : KeysKept t a) (hk : a.value key = 0) : mmtrieGet t key < 0 ↔ Unmistaken a key := by
  obtain ⟨own,bins,hlaid⟩ := h.mapped.laid
  cases key with
  | nil => exact iff_of_true neg_one_lt_zero (.inl rfl)
  | cons c bs =>
    cases bs with
    | nil =>
      rw [mmtrieGet,if_pos ⟨rfl,h.mapped.total c⟩,h.mapped.stores.ends (At.root c),hk]
      refine iff_of_false (lt_irrefl _) ?_
      rintro (hnil | ⟨hlen,-⟩)
      · cases hnil
      · exact hlen rfl
    | cons b bs =>
      rw [mmtrieGet,if_neg fun hcond => List.cons_ne_nil _ _ hcond.1]
      by_cases hexc : (t.nodes c.toNat).nchilds = 0 ∧ b::bs = [0]
      · -- The search stays at the root, whose data is that of the first byte by itself.
        obtain ⟨hleaf,hbs⟩ := hexc
        rw [hbs,hlaid.lookup_leaf hleaf (h.mapped.stores.roots c)]
        refine iff_of_false ?_ ?_
        · have hdata : (t.nodes c.toNat).data = a.value [c] := h.mapped.stores.ends (At.root c)
          change ¬ (t.nodes c.toNat).data < 0
          rw [hdata]
          exact not_lt.mpr (h.value_nonneg _)
        · rintro (hnil | ⟨-,-,hlong⟩)
          · cases hnil
          · obtain ⟨k,b',hk,hpre⟩ := hlong c rfl
            exact (h.root_children c).mp hleaf k b' hk hpre
      · rcases h.mapped.finds fun hleaf hbs => hexc ⟨hleaf,hbs⟩ with ⟨j,hj,hends⟩ | ⟨hfound,hnone⟩
        · rw [hj]
          change (t.nodes j).data < 0 ↔ _
          rw [h.mapped.stores.ends hends,hk]
          refine iff_of_false (lt_irrefl _) ?_
          rcases h.paths _ ⟨j,hends⟩ with hlen | ⟨k,hk,hpre⟩
          · cases hlen
          · rintro (hnil | ⟨-,hshort,-⟩)
            · cases hnil
            · exact hshort k hk hpre
        · rw [hfound]
          refine iff_of_true neg_one_lt_zero (.inr ⟨by simp,fun k hk hpre => ?_,?_⟩)
          · obtain ⟨j,hj⟩ := h.path_of_prefix hk (List.cons_ne_nil _ _) hpre
            exact hnone j hj
          · intro d hd
            obtain ⟨rfl,hbs⟩ := List.cons.inj hd
            by_contra hshort
            refine hexc ⟨(h.root_children c).mpr fun k b' hk hpre => ?_,hbs⟩
            exact hshort ⟨k,b',hk,hpre⟩

end KeysKept

end Sbase
