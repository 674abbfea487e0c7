import Sbase.Lib.Runs
import Sbase.Utils.MtrieRoom

/-! The trie as a finite map over byte strings: what a lookup finds, and the results of any sequence
of operations. -/
namespace Sbase
open BlockTree Runs

variable {t : Mtrie} {own : ℕ → Holder UInt8} {bins : ℕ → List ℕ} {w : List UInt8} {i : ℕ} {b : UInt8}

/-- What a search for a key is to give: the node at which it ends, or none when it ends at no node. -/
def Finds (t : Mtrie) (w : List UInt8) (found : Option ℕ) : Prop :=
  (∃ j, found = some j ∧ t.Ends w j) ∨ found = none ∧ ∀ j, ¬ t.Ends w j

theorem Laid.no_extension (h : Laid t own bins) (hi : t.Ends w i)
    (hb : ∀ q < (t.nodes i).nchilds, (t.nodes ((t.nodes i).childs + q)).key ≠ b) (bs : List UInt8)
    (j : ℕ) : ¬ t.Ends (w ++ b::bs) j := by
  intro hj
  rw [← List.singleton_append,← List.append_assoc] at hj
  obtain ⟨j',hj'⟩ := At.of_append (by simp) hj
  exact h.no_child hi hb j' hj'

/-- Among children, `mtrie_get` goes on to the one with the byte. -/
theorem Laid.next_child (h : Laid t own bins) (hi : t.Ends w i) (hpos : 0 < (t.nodes i).nchilds) :
    (∃ j, mtrieNext t i b = some j ∧ t.Ends (w ++ [b]) j ∧ (t.nodes j).key = b) ∨
      mtrieNext t i b = none ∧
        ∀ q < (t.nodes i).nchilds, (t.nodes ((t.nodes i).childs + q)).key ≠ b := by
  have hline : MTRIE_LINE_MAX = 256 := rfl
  have hfloor := (h.bounds hi hpos).1
  rw [mtrieNext,if_pos ⟨hpos,hfloor⟩]
  dsimp only
  rcases mtrieSeek_place (h.sorted hi) b with ⟨q,hq,hx,hkey⟩ | ⟨k,hk,below,above,hx⟩
  · refine .inl ⟨(t.nodes i).childs + q,?_,?_,hkey⟩
    · rw [hx,Int.toNat_natCast,if_neg]
      rw [hkey]
      simp only [ne_eq,not_true_eq_false,or_false]
      omega
    · rw [← hkey]
      exact hi.child (Laid.isChild q hq)
  · have hb : ∀ q < (t.nodes i).nchilds, (t.nodes ((t.nodes i).childs + q)).key ≠ b :=
      gap_ne below above
    refine .inr ⟨if_pos ?_,hb⟩
    rcases hx with ⟨hnone,-⟩ | ⟨-,-,hx⟩ | ⟨-,-,hx⟩ | ⟨hk,hlt,hx⟩
    · omega
    · exact .inl hx
    · exact .inr (.inl hx)
    · rw [hx,Int.toNat_natCast]
      exact .inr (.inr (hb (k - 1) (by omega)))

/-- The loop of `mtrie_get`, except where it stays at a root without children whose own key passes for
the last byte. -/
theorem Laid.lookup (bs : List UInt8) (h : Laid t own bins) (hi : t.Ends w i) (hbs : bs ≠ [])
    (hroot : (t.nodes i).nchilds = 0 → bs ≠ [(t.nodes i).key]) :
    Finds t (w ++ bs) (mtrieLookup t i bs) := by
  induction bs generalizing w i with
  | nil => exact absurd rfl hbs
  | cons b bs ih =>
    have htotal : ∀ {v j}, t.Ends v j → j < t.total := by
      intro v j hj
      have hlt := h.lt_current hj
      have hcap := h.capacity
      omega
    by_cases hpos : 0 < (t.nodes i).nchilds
    · rcases h.next_child (b := b) hi hpos with ⟨j,hnext,hj,hkey⟩ | ⟨hnext,hb⟩
      · rw [mtrieLookup,hnext,Option.bind_some]
        by_cases hbs' : bs = []
        · subst hbs'
          rw [if_pos ⟨htotal hj,.inr rfl⟩,if_neg (not_not.2 hkey),if_pos rfl]
          exact .inl ⟨j,rfl,hj⟩
        · by_cases hleaf : (t.nodes j).nchilds = 0
          · rw [if_pos ⟨htotal hj,.inl hleaf⟩,if_neg (not_not.2 hkey),if_neg hbs']
            refine .inr ⟨rfl,fun k hk => ?_⟩
            obtain ⟨c,cs,rfl⟩ := List.exists_cons_of_ne_nil hbs'
            rw [← List.singleton_append,← List.append_assoc] at hk
            exact h.no_extension hj (fun q hq => by omega) cs k hk
          · rw [if_neg fun hcond => hcond.2.elim hleaf hbs']
            have hrest := ih hj hbs' fun hzero => absurd hzero hleaf
            rwa [List.append_assoc] at hrest
      · rw [mtrieLookup,hnext,Option.bind_none]
        exact .inr ⟨rfl,h.no_extension hi hb bs⟩
    · have hleaf : (t.nodes i).nchilds = 0 := by omega
      have hstay : mtrieNext t i b = some i := if_neg fun hcond => hpos hcond.1
      have hnone : ∀ j, ¬ t.Ends (w ++ b::bs) j := h.no_extension hi (fun q hq => by omega) bs
      rw [mtrieLookup,hstay,Option.bind_some,if_pos ⟨htotal hi,.inl hleaf⟩]
      refine .inr ⟨?_,hnone⟩
      by_cases hkey : (t.nodes i).key = b
      · rw [if_neg (not_not.2 hkey),if_neg]
        rintro rfl
        exact hroot hleaf (by rw [hkey])
      · rw [if_pos hkey]

/-- At a root without children, a second and last byte 0 is taken for the key of the root. -/
theorem Laid.lookup_leaf (h : Laid t own bins) {c : UInt8} (hleaf : (t.nodes c.toNat).nchilds = 0)
    (hkey : (t.nodes c.toNat).key = 0) : mtrieLookup t c.toNat [0] = some c.toNat := by
  have hstay : mtrieNext t c.toNat 0 = some c.toNat := if_neg fun hcond => by omega
  have htotal : c.toNat < t.total := by
    have hlt := h.lt_current (At.root c)
    have hcap := h.capacity
    omega
  rw [mtrieLookup,hstay,Option.bind_some,if_pos ⟨htotal,.inl hleaf⟩,if_neg (not_not.2 hkey),
    if_pos rfl]

/-! ### The map -/

/-- A finite map over byte strings, 0 where a key is absent, and the last id given out. -/
structure KeyMap where
  value : List UInt8 → ℤ
  id : ℤ

/-- The operations of a trie as a map. -/
inductive MapOp
  | add (key : List UInt8) (data : ℤ)
  | xadd (key : List UInt8)
  | del (key : List UInt8)
  | get (key : List UInt8)

namespace MapOp

def run (t : Mtrie) : MapOp → Mtrie × ℤ
  | add key data => mtrieAdd t key data
  | xadd key => mtrieXadd t key
  | del key => mtrieDel t key
  | get key => (t,mtrieGet t key)

/-- What the operations do to the map, and what they return: an existing value is kept and returned,
and the value that is removed is returned. -/
def serve (a : KeyMap) : MapOp → KeyMap × ℤ
  | add key data =>
    if a.value key = 0 then ({ a with value := Function.update a.value key data }, data)
    else (a,a.value key)
  | xadd key =>
    if a.value key = 0 then (⟨Function.update a.value key (a.id + 1),a.id + 1⟩, a.id + 1)
    else (a,a.value key)
  | del key => ({ a with value := Function.update a.value key 0 }, a.value key)
  | get key => (a,a.value key)

/-- The arguments of the operations: keys are not empty, and data is not 0. -/
def Proper : MapOp → Prop
  | add key data => key ≠ [] ∧ data ≠ 0
  | xadd key | del key | get key => key ≠ []

/-- The keys that are looked up. -/
def sought : MapOp → Option (List UInt8)
  | add _ _ | xadd _ => none
  | del key | get key => some key

/-- Whether an operation looks up a byte followed by 0, while the byte by itself has data and no longer
key begins with it. -/
def MeetsLeaf (t : Mtrie) (op : MapOp) : Prop :=
  ∃ c : UInt8, op.sought = some [c,0] ∧ (t.nodes c.toNat).nchilds = 0 ∧ (t.nodes c.toNat).data ≠ 0

/-- Whether an operation finds the nodes and the id that it needs within an `int`. -/
def Fits (t : Mtrie) : MapOp → Prop
  | add key _ => t.Room key
  | xadd key => t.Room key ∧ t.IdLeft key
  | del _ | get _ => True

end MapOp

/-- Every operation returns what it does on the map, and overflows no `int`. -/
def MapConforms (t : Mtrie) (a : KeyMap) : List MapOp → Prop
  | [] => True
  | op::ops => (op.run t).2 = (op.serve a).2 ∧ ¬ (op.run t).1.Overflowed ∧
      MapConforms (op.run t).1 (op.serve a).1 ops

/-- The invariant of a trie and the map that it stands for. -/
structure Mapped (t : Mtrie) (a : KeyMap) : Prop where
  laid : ∃ own bins, Laid t own bins
  stores : Stores t a.value
  id : t.id = a.id

namespace Mapped

variable {a : KeyMap} {key : List UInt8}

theorem total (h : Mapped t a) (c : UInt8) : c.toNat < t.total := by
  obtain ⟨own,bins,hlaid⟩ := h.laid
  have hlt := hlaid.lt_current (At.root c)
  have hcap := hlaid.capacity
  omega

/-- The search for a key of more than one byte, outside the exception. -/
theorem finds (h : Mapped t a) {c b : UInt8} {bs : List UInt8}
    (hroot : (t.nodes c.toNat).nchilds = 0 → b::bs ≠ [0]) :
    Finds t (c::b::bs) (mtrieLookup t c.toNat (b::bs)) := by
  obtain ⟨own,bins,hlaid⟩ := h.laid
  have hfinds := hlaid.lookup (b::bs) (At.root c) (by simp) (by rwa [h.stores.roots])
  exact hfinds

/-- What a found node holds. -/
theorem found_data (h : Mapped t a) {found : Option ℕ} (hf : Finds t key found) :
    (found.elim 0 fun i => (t.nodes i).data) = a.value key := by
  rcases hf with ⟨j,rfl,hj⟩ | ⟨rfl,hnone⟩
  · exact h.stores.ends hj
  · exact (h.stores.absent key hnone).symm

/-- Removing a key without a value. -/
theorem clear_absent (h : Mapped t a) (habsent : a.value key = 0) :
    Mapped t ⟨Function.update a.value key 0,a.id⟩ := by
  have hsame : Function.update a.value key 0 = a.value := by
    rw [Function.update_eq_self_iff,habsent]
  rw [hsame]
  exact h

/-- Writing 0 to the node that was found removes the key. -/
theorem found_clear (h : Mapped t a) {found : Option ℕ} (hf : Finds t key found) :
    Mapped (found.elim t fun i => t.setData i 0) ⟨Function.update a.value key 0,a.id⟩ := by
  obtain ⟨own,bins,hlaid⟩ := h.laid
  rcases hf with ⟨j,rfl,hj⟩ | ⟨rfl,hnone⟩
  · exact ⟨⟨own,bins,hlaid.setData j 0⟩,h.stores.setData hlaid hj 0,h.id⟩
  · exact h.clear_absent (h.stores.absent key hnone)

/-- A key that is looked up outside the exception is found, or the search ends at a node without data
where the key is absent. -/
theorem lookup (h : Mapped t a) {c b : UInt8} {bs : List UInt8}
    (hleaf : c::b::bs = [c,0] → (t.nodes c.toNat).nchilds = 0 → (t.nodes c.toNat).data = 0) :
    Finds t (c::b::bs) (mtrieLookup t c.toNat (b::bs)) ∨
      mtrieLookup t c.toNat (b::bs) = some c.toNat ∧ (t.nodes c.toNat).data = 0 ∧
        a.value (c::b::bs) = 0 := by
  by_cases hexc : (t.nodes c.toNat).nchilds = 0 ∧ b::bs = [0]
  · obtain ⟨hnone,hbs⟩ := hexc
    obtain ⟨own,bins,hlaid⟩ := h.laid
    rw [hbs] at hleaf ⊢
    refine .inr ⟨hlaid.lookup_leaf hnone (h.stores.roots c),hleaf rfl hnone,?_⟩
    apply h.stores.absent
    exact hlaid.no_extension (At.root c) (fun q hq => by omega) []
  · exact .inl (h.finds fun hnone hbs => hexc ⟨hnone,hbs⟩)

theorem get (h : Mapped t a) (hkey : key ≠ []) (hleaf : ¬ (MapOp.get key).MeetsLeaf t) :
    mtrieGet t key = a.value key := by
  cases key with
  | nil => exact absurd rfl hkey
  | cons c bs =>
    cases bs with
    | nil =>
      rw [mtrieGet,if_pos ⟨rfl,h.total c⟩]
      exact h.stores.ends (At.root c)
    | cons b bs =>
      rw [mtrieGet,if_neg fun hcond => List.cons_ne_nil _ _ hcond.1]
      have hdata : c::b::bs = [c,0] → (t.nodes c.toNat).nchilds = 0 →
          (t.nodes c.toNat).data = 0 := by
        intro hkey hnone
        by_contra hdata
        exact hleaf ⟨c,congrArg some hkey,hnone,hdata⟩
      rcases h.lookup hdata with hf | ⟨hfound,hzero,habsent⟩
      · exact h.found_data hf
      · rw [hfound,habsent]
        exact hzero

theorem setData_self {i : ℕ} (hdata : (t.nodes i).data = 0) : t.setData i 0 = t := by
  have hnode : ({ t.nodes i with data := 0 } : MtrNode) = t.nodes i := by rw [← hdata]
  have hnodes : Function.update t.nodes i { t.nodes i with data := 0 } = t.nodes :=
    Function.update_eq_self_iff.2 hnode
  rw [Mtrie.setData,Mtrie.modify,hnodes]

/-- `mtrie_del` through a search that found the key, or nothing to clear. -/
theorem del_found (h : Mapped t a) (found : Option ℕ)
    (hf : Finds t key found ∨ ∃ i, found = some i ∧ (t.nodes i).data = 0 ∧ a.value key = 0) :
    (found.elim (t,0) fun i => (t.setData i 0,(t.nodes i).data)).2 = a.value key ∧
      Mapped (found.elim (t,(0 : ℤ)) fun i => (t.setData i 0,(t.nodes i).data)).1
        ⟨Function.update a.value key 0,a.id⟩ := by
  rcases hf with hf | ⟨i,rfl,hdata,habsent⟩
  · have hdata := h.found_data hf
    have hclear := h.found_clear hf
    cases found with
    | none => exact ⟨hdata,hclear⟩
    | some i => exact ⟨hdata,hclear⟩
  · refine ⟨by rw [habsent]; exact hdata,?_⟩
    change Mapped (t.setData i 0) _
    rw [setData_self hdata]
    exact h.clear_absent habsent

theorem del (h : Mapped t a) (hkey : key ≠ []) (hleaf : ¬ (MapOp.del key).MeetsLeaf t) :
    (mtrieDel t key).2 = a.value key ∧
      Mapped (mtrieDel t key).1 ⟨Function.update a.value key 0,a.id⟩ := by
  cases key with
  | nil => exact absurd rfl hkey
  | cons c bs =>
    cases bs with
    | nil =>
      have hroot : (t.nodes c.toNat).data = a.value [c] := h.stores.ends (At.root c)
      by_cases hdata : (t.nodes c.toNat).data = 0
      · rw [mtrieDel,if_neg fun hcond => hcond.2.2 hdata]
        rw [hroot] at hdata
        exact ⟨hdata.symm,h.clear_absent hdata⟩
      · rw [mtrieDel,if_pos ⟨rfl,h.total c,hdata⟩]
        exact h.del_found (some c.toNat) (.inl (.inl ⟨_,rfl,At.root c⟩))
    | cons b bs =>
      have hdata : c::b::bs = [c,0] → (t.nodes c.toNat).nchilds = 0 →
          (t.nodes c.toNat).data = 0 := by
        intro hkey hnone
        by_contra hdata
        exact hleaf ⟨c,congrArg some hkey,hnone,hdata⟩
      rw [mtrieDel,if_neg fun hcond => List.cons_ne_nil _ _ hcond.1]
      apply h.del_found
      rcases h.lookup hdata with hf | hf
      · exact .inl hf
      · exact .inr ⟨_,hf⟩

/-- A key that is added: its value is kept, or the next one is stored. -/
theorem store (h : Mapped t a) (hkey : key ≠ []) (fail : ℤ) (issue : Mtrie → Mtrie × ℤ) (id data : ℤ)
    (hissue : ∀ s : Mtrie, s.id = a.id → issue s = ({ s with id := id },data)) :
    (a.value key = 0 → (mtrieStore fail issue t key).2 = data ∧
      Mapped (mtrieStore fail issue t key).1 ⟨Function.update a.value key data,id⟩) ∧
    (a.value key ≠ 0 → (mtrieStore fail issue t key).2 = a.value key ∧
      Mapped (mtrieStore fail issue t key).1 a) := by
  obtain ⟨own,bins,hlaid⟩ := h.laid
  obtain ⟨t',i,own',bins',hlaid',hi,hid,hm,hstore⟩ := hlaid.store fail issue hkey
  have hstores := hm _ h.stores
  rw [hstore,hstores.ends hi,hissue t' (hid.trans h.id)]
  constructor
  · intro hzero
    rw [if_pos hzero]
    have hnew : Stores { t' with id := id } a.value := ⟨hstores.roots,hstores.ends,hstores.absent⟩
    exact ⟨rfl,⟨own',bins',(hlaid'.setId id).setData i data⟩,
      hnew.setData (hlaid'.setId id) hi data,rfl⟩
  · intro hvalue
    rw [if_neg hvalue]
    exact ⟨rfl,⟨own',bins',hlaid'⟩,hstores,hid.trans h.id⟩

theorem serve {op : MapOp} (h : Mapped t a) (hop : op.Proper) (hleaf : ¬ op.MeetsLeaf t) :
    (op.run t).2 = (op.serve a).2 ∧ Mapped (op.run t).1 (op.serve a).1 := by
  cases op with
  | add key data =>
    obtain ⟨hnew,hold⟩ := h.store hop.1 (-1) (givenData data) a.id data
      fun s hs => by rw [← hs]; rfl
    simp only [MapOp.run,MapOp.serve,mtrieAdd]
    split_ifs with hzero
    · exact hnew hzero
    · exact hold hzero
  | xadd key =>
    obtain ⟨hnew,hold⟩ := h.store hop (-3) nextId (a.id + 1) (a.id + 1)
      fun s hs => by rw [← hs]; rfl
    simp only [MapOp.run,MapOp.serve,mtrieXadd]
    split_ifs with hzero
    · exact hnew hzero
    · exact hold hzero
  | del key => exact h.del hop hleaf
  | get key => exact ⟨h.get hop hleaf,h⟩

/-- In the exception the data of the shorter key is returned, though the longer one is absent. -/
theorem not_serve {op : MapOp} (h : Mapped t a) (hleaf : op.MeetsLeaf t) :
    (op.run t).2 ≠ (op.serve a).2 := by
  obtain ⟨c,hsought,hnone,hdata⟩ := hleaf
  obtain ⟨own,bins,hlaid⟩ := h.laid
  have hfound := hlaid.lookup_leaf hnone (h.stores.roots c)
  have habsent : a.value [c,0] = 0 := by
    apply h.stores.absent
    exact hlaid.no_extension (At.root c) (fun q hq => by omega) []
  cases op with
  | add | xadd => cases hsought
  | del key =>
    cases hsought
    simp only [MapOp.run,MapOp.serve,mtrieDel,habsent]
    rw [if_neg fun hcond => List.cons_ne_nil _ _ hcond.1,hfound]
    exact hdata
  | get key =>
    cases hsought
    simp only [MapOp.run,MapOp.serve,mtrieGet,habsent]
    rw [if_neg fun hcond => List.cons_ne_nil _ _ hcond.1,hfound]
    exact hdata

/-- A key without data is one without a value. -/
theorem value_eq_zero (h : Mapped t a) : a.value key = 0 ↔ ∀ i, t.Ends key i → (t.nodes i).data = 0 := by
  constructor
  · intro hzero i hi
    rw [h.stores.ends hi,hzero]
  · intro hdata
    by_cases hend : ∃ i, t.Ends key i
    · obtain ⟨i,hi⟩ := hend
      rw [← h.stores.ends hi,hdata i hi]
    · exact h.stores.absent key fun i hi => hend ⟨i,hi⟩

/-- Data given with a key overflows an `int` exactly where there is no room for the key. -/
theorem give (h : Mapped t a) (hsize : ArraySized t) (hint : ¬ t.Overflowed) (fail data : ℤ) (key : List UInt8) :
    ArraySized (mtrieStore fail (givenData data) t key).1 ∧
      ((mtrieStore fail (givenData data) t key).1.Overflowed ↔ ¬ t.Room key) ∧
      ∃ a', Mapped (mtrieStore fail (givenData data) t key).1 a' := by
  obtain ⟨own,bins,hlaid⟩ := h.laid
  have htotal := hlaid.store_total hsize fail (givenData data) (fun _ => ⟨rfl,rfl⟩) (fun h => h) key
  refine ⟨(hlaid.store_sized hsize fail (fun _ => ⟨rfl,rfl⟩) key).2,?_⟩
  have hid : ∃ a', Mapped (mtrieStore fail (givenData data) t key).1 a' ∧ a'.id = a.id := by
    by_cases hkey : key = []
    · subst hkey
      exact ⟨a,h,rfl⟩
    · obtain ⟨hnew,hold⟩ := h.store hkey fail (givenData data) a.id data fun s hs => by rw [← hs]; rfl
      by_cases hzero : a.value key = 0
      · exact ⟨_,(hnew hzero).2,rfl⟩
      · exact ⟨_,(hold hzero).2,rfl⟩
  obtain ⟨a',ha',hid⟩ := hid
  refine ⟨?_,a',ha'⟩
  rw [← htotal,Mtrie.Overflowed,or_iff_left]
  rw [ha'.id,hid,← h.id]
  exact fun hover => hint (.inr hover)

/-- An id for a key overflows an `int` exactly where there is no room for the key or no id left for it. -/
theorem number (h : Mapped t a) (hsize : ArraySized t) (hint : ¬ t.Overflowed) (fail : ℤ) (key : List UInt8) :
    ArraySized (mtrieStore fail nextId t key).1 ∧
      ((mtrieStore fail nextId t key).1.Overflowed ↔ ¬ (t.Room key ∧ t.IdLeft key)) ∧
      ∃ a', Mapped (mtrieStore fail nextId t key).1 a' := by
  obtain ⟨own,bins,hlaid⟩ := h.laid
  have htotal := hlaid.store_total hsize fail nextId (fun _ => ⟨rfl,rfl⟩)
    (fun h => h.setId _) key
  refine ⟨(hlaid.store_sized hsize fail (fun _ => ⟨rfl,rfl⟩) key).2,?_⟩
  have hle : t.id ≤ MTRIE_INT_MAX := by
    by_contra hlt
    exact hint (.inr (not_le.1 hlt))
  have hid : ∃ a', Mapped (mtrieStore fail nextId t key).1 a' ∧
      ((MTRIE_INT_MAX : ℤ) < a'.id ↔ ¬ t.IdLeft key) := by
    by_cases hkey : key = []
    · subst hkey
      refine ⟨a,h,iff_of_false (by rw [← h.id]; omega) fun hno => hno fun hne => absurd rfl hne⟩
    · obtain ⟨hnew,hold⟩ := h.store hkey fail nextId (a.id + 1) (a.id + 1) fun s hs => by rw [← hs]; rfl
      by_cases hzero : a.value key = 0
      · refine ⟨_,(hnew hzero).2,?_⟩
        have hdata := h.value_eq_zero.mp hzero
        rw [h.id] at hle
        constructor
        · intro hover hleft
          have hlt := hleft hkey hdata
          rw [h.id] at hlt
          dsimp only at hover
          omega
        · intro hno
          by_contra hover
          refine hno fun _ _ => ?_
          rw [h.id]
          dsimp only at hover
          omega
      · refine ⟨_,(hold hzero).2,iff_of_false (by rw [← h.id]; omega) fun hno => hno fun _ hdata => ?_⟩
        exact absurd (h.value_eq_zero.mpr hdata) hzero
  obtain ⟨a',ha',hid⟩ := hid
  refine ⟨?_,a',ha'⟩
  rw [Mtrie.Overflowed,htotal,ha'.id,hid,not_and_or]

/-- A deletion does not touch the counters. -/
theorem del_counters (t : Mtrie) (key : List UInt8) : (mtrieDel t key).1.current = t.current ∧
    (mtrieDel t key).1.total = t.total ∧ (mtrieDel t key).1.id = t.id := by
  cases key with
  | nil => exact ⟨rfl,rfl,rfl⟩
  | cons c bs =>
    rw [mtrieDel]
    split_ifs
    · exact ⟨rfl,rfl,rfl⟩
    · cases mtrieLookup t c.toNat bs with
      | none => exact ⟨rfl,rfl,rfl⟩
      | some i => exact ⟨rfl,rfl,rfl⟩

/-- An operation overflows an `int` exactly where it does not fit. -/
theorem run_overflowed (h : Mapped t a) (hsize : ArraySized t) (hint : ¬ t.Overflowed) (op : MapOp) :
    ArraySized (op.run t).1 ∧ ((op.run t).1.Overflowed ↔ ¬ op.Fits t) := by
  cases op with
  | add key data =>
    obtain ⟨hnext,hover,-⟩ := h.give hsize hint (-1) data key
    exact ⟨hnext,hover⟩
  | xadd key =>
    obtain ⟨hnext,hover,-⟩ := h.number hsize hint (-3) key
    exact ⟨hnext,hover⟩
  | del key =>
    obtain ⟨hcurrent,htotal,hid⟩ := del_counters t key
    have hfits : (MapOp.del key).Fits t := trivial
    refine ⟨⟨?_,?_⟩,iff_of_false ?_ (not_not.mpr hfits)⟩
    · simp only [MapOp.run,htotal]
      exact hsize.steps
    · simp only [MapOp.run,htotal,hcurrent]
      exact hsize.needed
    · simp only [MapOp.run,Mtrie.Overflowed,htotal,hid]
      exact hint
  | get key => exact ⟨hsize,iff_of_false hint (not_not.mpr trivial)⟩

theorem conforms_iff {ops : List MapOp} (hops : ∀ op ∈ ops, op.Proper) (h : Mapped t a) (hsize : ArraySized t)
    (hint : ¬ t.Overflowed) : MapConforms t a ops ↔
      Allowed (fun t op => ¬ op.MeetsLeaf t ∧ op.Fits t) (fun t op => (op.run t).1) t ops := by
  induction ops generalizing t a with
  | nil => exact Iff.rfl
  | cons op ops ih =>
    obtain ⟨hsize',hover⟩ := h.run_overflowed hsize hint op
    by_cases hleaf : op.MeetsLeaf t
    · exact iff_of_false (fun hc => h.not_serve hleaf hc.1) (fun hc => hc.1.1 hleaf)
    by_cases hfits : op.Fits t
    · have hint' : ¬ (op.run t).1.Overflowed := fun ho => hover.mp ho hfits
      obtain ⟨hret,hnext⟩ := h.serve (hops op (by simp)) hleaf
      have hrest := ih (fun op hop => hops op (by simp [hop])) hnext hsize' hint'
      exact ⟨fun hc => ⟨⟨hleaf,hfits⟩,hrest.mp hc.2.2⟩,fun hc => ⟨hret,hint',hrest.mpr hc.2⟩⟩
    · exact iff_of_false (fun hc => hc.2.1 (hover.mpr hfits)) (fun hc => hfits hc.1.2)

end Mapped

theorem mtrieInit_mapped : Mapped mtrieInit ⟨fun _ => 0,0⟩ :=
  ⟨⟨_,_,mtrieInit_laid⟩,mtrieInit_stores,rfl⟩

theorem mtrieInit_int : ¬ mtrieInit.Overflowed := by
  rintro (hover | hover)
  · exact absurd hover (by decide)
  · exact absurd hover (by decide)

end Sbase
