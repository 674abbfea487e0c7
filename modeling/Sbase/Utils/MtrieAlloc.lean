import Sbase.Utils.MtrieLayout

/-! Adding keys: the loop over the bytes of a key, and the data at its end. -/
namespace Sbase
open BlockTree LinkedList

/-- The data of a trie as a map from keys, 0 where a key has none. The roots keep the key of zeroed
memory. -/
structure Stores (t : Mtrie) (m : List UInt8 → ℤ) : Prop where
  roots : ∀ c : UInt8, (t.nodes c.toNat).key = 0
  ends : ∀ {w i}, t.Ends w i → (t.nodes i).data = m w
  absent : ∀ w, (∀ i, ¬ t.Ends w i) → m w = 0

section Step

variable {t : Mtrie} {own : ℕ → Holder UInt8} {bins : ℕ → List ℕ} {w : List UInt8} {i : ℕ} {b : UInt8}

/-- No key ends at a child that is not there. -/
theorem Laid.no_child (h : Laid t own bins) (hi : t.Ends w i)
    (hb : ∀ q < (t.nodes i).nchilds, (t.nodes ((t.nodes i).childs + q)).key ≠ b) (j : ℕ) :
    ¬ t.Ends (w ++ [b]) j := by
  intro hj
  obtain ⟨i',hi',hchild,hkey⟩ := hj.snoc hi.ne_nil
  obtain rfl := h.shape.node_unique hi' hi
  obtain ⟨q,rfl⟩ := Nat.exists_eq_add_of_le hchild.1
  exact hb q (Nat.lt_of_add_lt_add_left hchild.2) hkey

/-- A new child has no data, and the others take theirs along. -/
theorem Sprouted.stores {t' : Mtrie} {pos k : ℕ} {m : List UInt8 → ℤ} (h : Laid t own bins)
    (hi : t.Ends w i) (hs : Sprouted t t' i pos k b)
    (hb : ∀ q < (t.nodes i).nchilds, (t.nodes ((t.nodes i).childs + q)).key ≠ b)
    (hm : Stores t m) : Stores t' m := by
  have hat := h.shape.at_grown hs.grown hi
  have hself : moveTo t.links i pos k i = i := moveTo_other (h.shape.not_self hi)
  have hdata : ∀ {v j}, t.Ends v j →
      (t'.nodes (moveTo t.links i pos k j)).data = (t.nodes j).data := by
    intro v j hj
    by_cases hji : j = i
    · rw [hji,hself,hs.self]
    · by_cases hc : t.links.IsChild i j
      · obtain ⟨q,rfl⟩ := Nat.exists_eq_add_of_le hc.1
        have hq : q < (t.nodes i).nchilds := Nat.lt_of_add_lt_add_left hc.2
        rw [moveTo_child hc,Nat.add_sub_cancel_left,hs.moved q hq]
        rfl
      · rw [moveTo_other hc,hs.kept hj hji hc]
  constructor
  · intro c
    rw [← hm.roots c]
    by_cases hci : c.toNat = i
    · rw [hci,hs.self]
    · rw [hs.kept (At.root c) hci (h.shape.root_not_child hi c)]
  · intro v j' hj'
    rcases (hat v j').mp hj' with ⟨j,hj,rfl⟩ | ⟨rfl,rfl⟩
    · rw [hdata hj]
      exact hm.ends hj
    · rw [hs.fresh,hm.absent _ (h.no_child hi hb)]
      rfl
  · intro v hv
    apply hm.absent
    intro j hj
    exact hv _ ((hat v _).mpr (.inl ⟨j,hj,rfl⟩))

/-- What one byte of the loop of `mtrie_add` does: it ends at the child of that byte, which is there
afterwards, and no data changes. -/
theorem Laid.step (h : Laid t own bins) (hi : t.Ends w i) (b : UInt8) :
    ∃ t' j own' bins', mtrieStep t i b = (t',some j) ∧ Laid t' own' bins' ∧
      t'.Ends (w ++ [b]) j ∧ t'.id = t.id ∧ ∀ m, Stores t m → Stores t' m := by
  have hline : MTRIE_LINE_MAX = 256 := rfl
  have hplace := mtrieSeek_place (h.sorted hi) b
  rw [mtrieStep]
  rcases hplace with ⟨q,hq,hx,hkey⟩ | ⟨k,hk,below,above,hx⟩
  · have hfloor := (h.bounds hi (by omega)).1
    rw [hx,if_neg]
    · refine ⟨t,_,own,bins,rfl,h,?_,rfl,fun _ hm => hm⟩
      rw [Int.toNat_natCast,← hkey]
      exact hi.child (Laid.isChild q hq)
    · rw [Int.toNat_natCast,hkey]
      simp only [ne_eq,not_true_eq_false,or_false]
      omega
  · have hb : ∀ q < (t.nodes i).nchilds, (t.nodes ((t.nodes i).childs + q)).key ≠ b :=
      gap_ne below above
    rw [if_pos (mtrieSeek_absent (h.sorted hi) hb)]
    obtain ⟨t',pos,own',bins',hnew,hs,hlaid⟩ := h.newChild hi hk below above hx
    refine ⟨t',pos + k,own',bins',hnew,hlaid,?_,hs.id,fun m hm => hs.stores h hi hb hm⟩
    exact (h.shape.at_grown hs.grown hi _ _).mpr (.inr ⟨rfl,rfl⟩)

/-- The loop of `mtrie_add` ends at the node of the whole key. -/
theorem Laid.walk (bs : List UInt8) (h : Laid t own bins) (hi : t.Ends w i) :
    ∃ t' j own' bins', mtrieWalk t i bs = (t',some j) ∧ Laid t' own' bins' ∧
      t'.Ends (w ++ bs) j ∧ t'.id = t.id ∧ ∀ m, Stores t m → Stores t' m := by
  induction bs generalizing t i w own bins with
  | nil => exact ⟨t,i,own,bins,rfl,h,by rwa [List.append_nil],rfl,fun _ hm => hm⟩
  | cons b bs ih =>
    obtain ⟨t₁,j,own₁,bins₁,hstep,h₁,hj,hid₁,hm₁⟩ := h.step hi b
    obtain ⟨t₂,k,own₂,bins₂,hwalk,h₂,hk,hid₂,hm₂⟩ := ih h₁ hj
    refine ⟨t₂,k,own₂,bins₂,?_,h₂,?_,hid₂.trans hid₁,fun m hm => hm₂ m (hm₁ m hm)⟩
    · rw [mtrieWalk,hstep]
      exact hwalk
    · rwa [List.append_assoc] at hk

end Step

/-- A node in use: a root, or one that a key leads to. -/
def Mtrie.Live (t : Mtrie) (i : ℕ) : Prop := ∃ w, t.Ends w i

/-! ### Data -/

namespace Mtrie

variable (t : Mtrie) (i : ℕ) (data : ℤ)

/-- An assignment to the data of a node. -/
def setData : Mtrie := t.modify i fun d => { d with data := data }

theorem setData_nodes (q : ℕ) : (t.setData i data).nodes q =
    if q = i then { t.nodes i with data := data } else t.nodes q := by
  rw [setData,modify]
  exact Function.update_apply _ _ _ _

@[simp] theorem setData_links : (t.setData i data).links = t.links := by
  simp only [links,Links.mk.injEq]
  refine ⟨?_,?_,?_⟩ <;>
  · funext q
    rw [setData_nodes]
    split_ifs with hq
    · rw [hq]
    · rfl

@[simp] theorem setData_key (q : ℕ) : ((t.setData i data).nodes q).key = (t.nodes q).key :=
  congrFun (congrArg Links.key (t.setData_links i data)) q

@[simp] theorem setData_nchilds (q : ℕ) :
    ((t.setData i data).nodes q).nchilds = (t.nodes q).nchilds :=
  congrFun (congrArg Links.nchilds (t.setData_links i data)) q

@[simp] theorem setData_childs (q : ℕ) :
    ((t.setData i data).nodes q).childs = (t.nodes q).childs :=
  congrFun (congrArg Links.childs (t.setData_links i data)) q

end Mtrie

theorem Laid.setData {t : Mtrie} {own : ℕ → Holder UInt8} {bins : ℕ → List ℕ} (h : Laid t own bins)
    (i : ℕ) (data : ℤ) : Laid (t.setData i data) own bins where
  shape := by
    rw [Mtrie.setData_links]
    exact h.shape
  bounds := by
    intro w j hj
    rw [Mtrie.Ends,Mtrie.setData_links] at hj
    rw [Mtrie.setData_nchilds,Mtrie.setData_childs]
    exact h.bounds hj
  lists := by
    simp only [Mtrie.setData_childs]
    exact h.lists
  blocks := h.blocks
  free := h.free
  wild := h.wild
  room := h.room
  capacity := h.capacity

theorem Stores.setData {t : Mtrie} {own : ℕ → Holder UInt8} {bins : ℕ → List ℕ}
    {m : List UInt8 → ℤ} {w : List UInt8} {i : ℕ} (hm : Stores t m) (h : Laid t own bins)
    (hi : t.Ends w i) (data : ℤ) : Stores (t.setData i data) (Function.update m w data) where
  roots c := by
    rw [Mtrie.setData_key]
    exact hm.roots c
  ends := by
    intro v j hj
    rw [Mtrie.Ends,Mtrie.setData_links] at hj
    rw [Mtrie.setData_nodes]
    by_cases hv : v = w
    · subst hv
      rw [if_pos (h.shape.node_unique hj hi),Function.update_self]
    · have hne : j ≠ i := by
        rintro rfl
        exact hv (h.shape.path_unique hj hi)
      rw [if_neg hne,Function.update_of_ne hv]
      exact hm.ends hj
  absent := by
    intro v hv
    rw [Mtrie.Ends,Mtrie.setData_links] at hv
    have hne : v ≠ w := by
      rintro rfl
      exact hv i hi
    rw [Function.update_of_ne hne]
    exact hm.absent v hv

/-- The common body of the functions that add a key: afterwards the key ends at a node, whose data is
returned and is new only if it was 0. -/
theorem Laid.store {t : Mtrie} {own : ℕ → Holder UInt8} {bins : ℕ → List ℕ} (h : Laid t own bins)
    (fail : ℤ) (issue : Mtrie → Mtrie × ℤ) {key : List UInt8} (hkey : key ≠ []) :
    ∃ t' i own' bins', Laid t' own' bins' ∧ t'.Ends key i ∧ t'.id = t.id ∧
      (∀ m, Stores t m → Stores t' m) ∧
      mtrieStore fail issue t key = if (t'.nodes i).data = 0 then
        ((issue t').1.setData i (issue t').2,(issue t').2) else (t',(t'.nodes i).data) := by
  cases key with
  | nil => exact absurd rfl hkey
  | cons b bs =>
    obtain ⟨t',i,own',bins',hwalk,hlaid,hi,hid,hm⟩ := h.walk bs (At.root b)
    refine ⟨t',i,own',bins',hlaid,hi,hid,hm,?_⟩
    simp only [mtrieStore,hwalk]
    rfl

theorem mtrieInit_ends {w : List UInt8} {i : ℕ} (h : mtrieInit.Ends w i) :
    i < MTRIE_LINE_MAX ∧ ∀ j, ¬ mtrieInit.links.IsChild i j := by
  refine ⟨?_,fun j hj => absurd hj.2 (not_lt.2 hj.1)⟩
  cases h with
  | root c => exact c.toNat_lt
  | child h hj => exact absurd hj.2 (not_lt.2 hj.1)

theorem mtrieInit_laid : Laid mtrieInit (fun _ => .wild) (fun _ => []) where
  shape := by
    constructor
    · intro c; rfl
    · intro c d hcd; exact UInt8.toNat_inj.1 hcd
    · intro w i j hi hj; exact absurd hj ((mtrieInit_ends hi).2 j)
    · intro w j hj; cases hj
    · intro w i p q hi hp; exact absurd hp ((mtrieInit_ends hi).2 p)
  bounds hi hpos := absurd hpos (lt_irrefl 0)
  lists num _ _ := ⟨rfl,trivial,List.nodup_nil⟩
  blocks hmem := by cases hmem
  free hq := by cases hq
  wild q := by
    simp only [true_iff]
    exact lt_or_ge q _
  room := le_rfl
  capacity := rfl

theorem mtrieInit_stores : Stores mtrieInit fun _ => 0 := ⟨fun _ => rfl,fun _ => rfl,fun _ _ => rfl⟩

theorem Laid.setId {t : Mtrie} {own : ℕ → Holder UInt8} {bins : ℕ → List ℕ} (h : Laid t own bins)
    (id : ℤ) : Laid { t with id := id } own bins :=
  ⟨h.shape,h.bounds,h.lists,h.blocks,h.free,h.wild,h.room,h.capacity⟩

theorem Laid.store_laid {t : Mtrie} {own : ℕ → Holder UInt8} {bins : ℕ → List ℕ}
    (h : Laid t own bins) (fail : ℤ) {issue : Mtrie → Mtrie × ℤ}
    (hissue : ∀ {t own bins}, Laid t own bins → Laid (issue t).1 own bins) (key : List UInt8) :
    ∃ own' bins', Laid (mtrieStore fail issue t key).1 own' bins' := by
  by_cases hkey : key = []
  · subst hkey
    exact ⟨own,bins,h⟩
  · obtain ⟨t',i,own',bins',hlaid,-,-,-,hstore⟩ := h.store fail issue hkey
    refine ⟨own',bins',?_⟩
    rw [hstore]
    split_ifs
    · exact (hissue hlaid).setData i _
    · exact hlaid

end Sbase
