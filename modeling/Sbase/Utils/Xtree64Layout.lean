import Sbase.Lib.LinkedList
import Sbase.Utils.Xtree64

/-! How `xtree64` lays out its nodes.

`Layout` says how the nodes are shared between a tree and the free list, `Ordered` that the tree
is sorted with its ends cached; each operation has one lemma about them. -/
namespace Sbase
open PointerTree LinkedList

namespace XTNode64

@[simp] theorem child_setChild (n : XTNode64) (s r : Side) (c : Option ℕ) :
    (n.setChild s c).child r = if r = s then c else n.child r := by
  cases s <;> cases r <;> rfl

@[simp] theorem key_setChild (n : XTNode64) (s : Side) (c) : (n.setChild s c).key = n.key := by
  cases s <;> rfl
@[simp] theorem data_setChild (n : XTNode64) (s : Side) (c) : (n.setChild s c).data = n.data := by
  cases s <;> rfl
@[simp] theorem parent_setChild (n : XTNode64) (s : Side) (c) :
    (n.setChild s c).parent = n.parent := by
  cases s <;> rfl

end XTNode64

namespace XTree64

def key (t : XTree64) (i : ℕ) : ℤ := (t.nodes i).key

/-- What a node holds besides its pointers. -/
def pair (t : XTree64) (i : ℕ) : ℤ × ℤ := ((t.nodes i).key, (t.nodes i).data)

def links (t : XTree64) : Links ℕ where
  child s i := (t.nodes i).child s
  parent i := (t.nodes i).parent

theorem nodes_modify (t : XTree64) (i j : ℕ) (f : XTNode64 → XTNode64) :
    (t.modify i f).nodes j = if j = i then f (t.nodes j) else t.nodes j := by
  unfold modify
  by_cases h : j = i
  · subst h; simp
  · simp [h]

theorem nodes_setParent (t : XTree64) (i j : ℕ) (p : Option ℕ) :
    (t.setParent i p).nodes j = if j = i then { t.nodes j with parent := p } else t.nodes j :=
  t.nodes_modify i j _

theorem nodes_setChild (t : XTree64) (s : Side) (i j : ℕ) (c : Option ℕ) :
    (t.setChild s i c).nodes j = if j = i then (t.nodes j).setChild s c else t.nodes j :=
  t.nodes_modify i j _

@[simp] theorem parent_nodes_setParent (t : XTree64) (i j : ℕ) (p : Option ℕ) :
    ((t.setParent i p).nodes j).parent = if j = i then p else (t.nodes j).parent := by
  rw [nodes_setParent]; split_ifs <;> rfl

@[simp] theorem child_nodes_setParent (t : XTree64) (i j : ℕ) (p : Option ℕ) (r : Side) :
    ((t.setParent i p).nodes j).child r = (t.nodes j).child r := by
  rw [nodes_setParent]; split_ifs <;> rfl

@[simp] theorem pair_setParent (t : XTree64) (i j : ℕ) (p : Option ℕ) :
    (t.setParent i p).pair j = t.pair j := by
  rw [pair, nodes_setParent]; split_ifs <;> rfl

@[simp] theorem parent_nodes_setChild (t : XTree64) (s : Side) (i j : ℕ) (c : Option ℕ) :
    ((t.setChild s i c).nodes j).parent = (t.nodes j).parent := by
  rw [nodes_setChild]; split_ifs <;> simp

@[simp] theorem child_nodes_setChild (t : XTree64) (s r : Side) (i j : ℕ) (c : Option ℕ) :
    ((t.setChild s i c).nodes j).child r = if r = s ∧ i = j then c else (t.nodes j).child r := by
  rw [nodes_setChild]
  by_cases h : j = i
  · subst h; simp
  · simp [h, Ne.symm h]

@[simp] theorem pair_setChild (t : XTree64) (s : Side) (i j : ℕ) (c : Option ℕ) :
    (t.setChild s i c).pair j = t.pair j := by
  rw [pair, nodes_setChild]; split_ifs <;> simp [pair]

@[simp] theorem nodes_setKend (t : XTree64) (s : Side) (p) : (t.setKend s p).nodes = t.nodes := by
  cases s <;> rfl
@[simp] theorem root_setKend (t : XTree64) (s : Side) (p) : (t.setKend s p).root = t.root := by
  cases s <;> rfl
@[simp] theorem total_setKend (t : XTree64) (s : Side) (p) : (t.setKend s p).total = t.total := by
  cases s <;> rfl
@[simp] theorem nlines_setKend (t : XTree64) (s : Side) (p) :
    (t.setKend s p).nlines = t.nlines := by
  cases s <;> rfl
@[simp] theorem list_setKend (t : XTree64) (s : Side) (p) : (t.setKend s p).list = t.list := by
  cases s <;> rfl

@[simp] theorem kend_setKend (t : XTree64) (s r : Side) (p) :
    (t.setKend s p).kend r = if r = s then p else t.kend r := by
  cases s <;> cases r <;> rfl

/-- The nodes are shared between the tree and the free list, and all exist. -/
structure Layout (t : XTree64) (tree : PTree ℕ) (free : List ℕ) : Prop where
  shaped : Shaped t.links none t.root tree
  nodup : (tree.walk .left ++ free).Nodup
  free_chain : Chain t.links.parent t.list free
  bounded : ∀ i ∈ tree.walk .left ++ free, i < XTRNODE64_LINE_NUM * (t.nlines+1)
  total_eq : t.total = (tree.walk .left).length

/-- The order in which the keys appear from one side. -/
def Side.le (s : Side) (a b : ℤ) : Prop :=
  match s with
  | .left => a ≤ b
  | .right => b ≤ a

/-- The tree is sorted and its ends are cached. -/
structure Ordered (t : XTree64) (tree : PTree ℕ) : Prop where
  sorted : (tree.walk .left).Pairwise fun i j => t.key i ≤ t.key j
  kmin_eq : t.kmin = (tree.walk .left).head?
  kmax_eq : t.kmax = (tree.walk .left).getLast?

/-- What an operation on the free list leaves alone. -/
structure Frame (t t' : XTree64) (tree : PTree ℕ) : Prop where
  nodes_eq : ∀ i ∈ tree, t'.nodes i = t.nodes i
  root_eq : t'.root = t.root
  kend_eq : ∀ s, t'.kend s = t.kend s

theorem Frame.refl (t : XTree64) (tree : PTree ℕ) : Frame t t tree := ⟨fun _ _ => rfl, rfl, fun _ => rfl⟩

theorem Frame.trans {t t' t'' : XTree64} {tree : PTree ℕ} (h : Frame t t' tree)
    (k : Frame t' t'' tree) : Frame t t'' tree where
  nodes_eq i hi := (k.nodes_eq i hi).trans (h.nodes_eq i hi)
  root_eq := k.root_eq.trans h.root_eq
  kend_eq s := (k.kend_eq s).trans (h.kend_eq s)

theorem Layout.mem_walk_lt {t : XTree64} {tree : PTree ℕ} {free : List ℕ} (h : Layout t tree free)
    {i : ℕ} (hi : i ∈ tree) : i < XTRNODE64_LINE_NUM * (t.nlines+1) :=
  h.bounded i (List.mem_append_left _ hi)

/-- `XTNODE64_PUSH` of a node that is nowhere else. -/
theorem Layout.push {t : XTree64} {tree : PTree ℕ} {free : List ℕ} (h : Layout t tree free) {i : ℕ}
    (ht : i ∉ tree) (hf : i ∉ free) (hb : i < XTRNODE64_LINE_NUM * (t.nlines+1)) :
    Layout (xtnode64Push t i) tree (i::free) ∧ Frame t (xtnode64Push t i) tree := by
  have hnodes : ∀ j, j ≠ i → (xtnode64Push t i).nodes j = t.nodes j := by
    intro j hj
    simp [xtnode64Push, nodes_setParent, hj]
  have hframe : ∀ j ∈ tree, (xtnode64Push t i).nodes j = t.nodes j := by
    intro j hj
    apply hnodes
    rintro rfl
    exact ht hj
  have hperm : (tree.walk .left ++ i::free).Perm (i::(tree.walk .left ++ free)) :=
    List.perm_middle
  refine ⟨⟨?_, ?_, ⟨rfl, ?_⟩, ?_, h.total_eq⟩, ⟨hframe, rfl, fun s => by cases s <;> rfl⟩⟩
  · apply h.shaped.congr
    · intro s j hj
      simp only [links, hframe j hj]
    · intro j hj
      simp only [links, hframe j hj]
  · rw [hperm.nodup_iff, List.nodup_cons]
    exact ⟨by simpa using ⟨ht, hf⟩, h.nodup⟩
  · have hi : (xtnode64Push t i).links.parent i = t.list := by
      simp [links, xtnode64Push, nodes_setParent]
    rw [hi]
    apply h.free_chain.congr
    intro j hj
    have hne : j ≠ i := fun he => hf (he ▸ hj)
    simp only [links, hnodes j hne]
  · intro j hj
    rcases List.mem_cons.mp (hperm.mem_iff.mp hj) with rfl | hj
    · exact hb
    · exact h.bounded j hj

/-- The fresh nodes of a line all go to the free list. -/
theorem Layout.line {tree : PTree ℕ} {base : ℕ} (x : ℕ) {t : XTree64} {free : List ℕ}
    (h : Layout t tree free) (hb : base + x ≤ XTRNODE64_LINE_NUM * (t.nlines+1))
    (ht : ∀ j, j < x → base + j ∉ tree) (hf : ∀ j, j < x → base + j ∉ free) :
    ∃ free', Layout (xtnode64Line base x t) tree free' ∧ Frame t (xtnode64Line base x t) tree ∧
      (xtnode64Line base x t).nlines = t.nlines ∧ (0 < x → base ∉ free') := by
  induction x using Nat.twoStepInduction generalizing t free with
  | zero => exact ⟨free, h, .refl t tree, rfl, by simp⟩
  | one => exact ⟨free, h, .refl t tree, rfl, fun _ => hf 0 (by simp)⟩
  | more x _ ih =>
    obtain ⟨hp, hk⟩ := h.push (ht (x+1) (by omega)) (hf (x+1) (by omega)) (by omega)
    have hfree : ∀ j, j < x+1 → base + j ∉ (base + (x+1))::free := by
      intro j hj
      rw [List.mem_cons]
      rintro (he | hm)
      · omega
      · exact hf j (by omega) hm
    obtain ⟨free', hl, hk', hn, hbase⟩ := ih hp (show _ ≤ _ by
      change base + (x+1) ≤ XTRNODE64_LINE_NUM * (t.nlines+1); omega)
      (fun j hj => ht j (by omega)) hfree
    exact ⟨free', hl, hk.trans hk', hn, fun _ => hbase (by omega)⟩

/-- `XTNODE64_POP` takes its node from outside the tree. -/
theorem Layout.pop {t t' : XTree64} {tree : PTree ℕ} {free : List ℕ} (h : Layout t tree free)
    {alloc : Bool} {p : ℕ} (hp : xtnode64Pop alloc t = (t', some p)) :
    ∃ free', Layout t' tree free' ∧ Frame t t' tree ∧ p ∉ tree.walk .left ++ free' ∧
      p < XTRNODE64_LINE_NUM * (t'.nlines+1) := by
  unfold xtnode64Pop at hp
  cases hl : t.list with
  | some i =>
    rw [hl] at hp
    simp only [Prod.mk.injEq, Option.some.injEq] at hp
    obtain ⟨rfl, rfl⟩ := hp
    have hc := h.free_chain
    cases free with
    | nil => rw [hl] at hc; cases hc
    | cons j rest =>
      rw [hl] at hc
      obtain ⟨hj, hrest⟩ := hc
      obtain rfl : i = j := Option.some.inj hj
      have hperm : (tree.walk .left ++ i::rest).Perm (i::(tree.walk .left ++ rest)) :=
        List.perm_middle
      have hnd := hperm.nodup_iff.mp h.nodup
      rw [List.nodup_cons] at hnd
      refine ⟨rest, ⟨h.shaped, hnd.2, hrest, ?_, h.total_eq⟩, ⟨fun _ _ => rfl, rfl, fun s => by cases s <;> rfl⟩,
        hnd.1, h.bounded i (by simp)⟩
      exact fun j hj => h.bounded j (hperm.mem_iff.mpr (List.mem_cons_of_mem _ hj))
  | none =>
    rw [hl] at hp
    simp only at hp
    split_ifs at hp with hn ha
    · simp only [Prod.mk.injEq, Option.some.injEq] at hp
      obtain ⟨ht', rfl⟩ := hp
      generalize hbase : XTRNODE64_LINE_NUM * (t.nlines+1) = base at *
      let t1 : XTree64 := { t with
        list := none
        nlines := t.nlines+1
        nodes := fun i =>
          if base ≤ i ∧ i < base + XTRNODE64_LINE_NUM then XTNode64.zero else t.nodes i }
      have hlt : ∀ i ∈ tree.walk .left ++ free, i < base := hbase ▸ h.bounded
      have hold : ∀ i, i < base → t1.nodes i = t.nodes i := by
        intro i hi
        exact if_neg (by omega)
      have hnl : XTRNODE64_LINE_NUM * (t1.nlines+1) = base + XTRNODE64_LINE_NUM := by
        rw [← hbase]; ring
      have h1 : Layout t1 tree free := by
        refine ⟨?_, h.nodup, ?_, ?_, h.total_eq⟩
        · apply h.shaped.congr
          · intro s i hi
            simp only [links, hold i (hlt i (List.mem_append_left _ hi))]
          · intro i hi
            simp only [links, hold i (hlt i (List.mem_append_left _ hi))]
        · apply (hl ▸ h.free_chain).congr
          intro i hi
          simp only [links, hold i (hlt i (List.mem_append_right _ hi))]
        · intro i hi
          have := hlt i hi
          omega
      have hfresh : ∀ j, base + j ∉ tree.walk .left ++ free := fun j hj => by
        have := hlt _ hj
        omega
      obtain ⟨free', hl', hk, hnl', hb⟩ := h1.line XTRNODE64_LINE_NUM hnl.ge
        (fun j _ hj => hfresh j (List.mem_append_left _ hj))
        (fun j _ hj => hfresh j (List.mem_append_right _ hj))
      change xtnode64Line base XTRNODE64_LINE_NUM t1 = t' at ht'
      rw [ht'] at hl' hk hnl'
      refine ⟨free', hl', ⟨?_, hk.root_eq, hk.kend_eq⟩, ?_, ?_⟩
      · intro i hi
        rw [hk.nodes_eq i hi, hold i (hlt i (List.mem_append_left _ hi))]
      · rw [List.mem_append]
        rintro (hm | hm)
        · exact hfresh 0 (List.mem_append_left _ hm)
        · exact hb (by decide) hm
      · rw [hnl', hnl]
        exact Nat.lt_add_of_pos_right (by decide)
    · cases hp
    · cases hp

/-- The state of a tree in order, with the shape of its tree and its free nodes. -/
structure Holds (t : XTree64) (tree : PTree ℕ) (free : List ℕ) : Prop extends
  Layout t tree free, Ordered t tree

/-- The pairs stored in the nodes of the tree. -/
def contents (t : XTree64) (tree : PTree ℕ) : Multiset (ℤ × ℤ) :=
  ((tree.walk .left).map t.pair : List (ℤ × ℤ))

theorem xtree64Hang_isSome {t : XTree64} {alloc : Bool} (h : (xtnode64Pop alloc t).2.isSome)
    (s : Side) (q : ℕ) (key data : ℤ) : ∃ t' p, xtree64Hang alloc t s q key data = some (t', p) := by
  obtain ⟨p, hp⟩ := Option.isSome_iff_exists.mp h
  unfold xtree64Hang
  generalize xtnode64Pop alloc t = r at hp
  rcases r with ⟨t1, _⟩
  obtain rfl := hp
  exact ⟨_, _, rfl⟩

/-- What hanging a node writes. -/
structure Hung (t t' : XTree64) (s : Side) (q p : ℕ) (key data : ℤ) : Prop where
  root_eq : t'.root = t.root
  total_eq : t'.total = t.total+1
  nlines_eq : t'.nlines = t.nlines
  list_eq : t'.list = t.list
  kend_eq : ∀ r, t'.kend r = t.kend r
  pair_eq : ∀ i, t'.pair i = if i = p then (key, data) else t.pair i
  links_eq : t'.links = t.links.attach s q p

theorem xtree64Hang_cases {t t' : XTree64} {alloc : Bool} {s : Side} {q p : ℕ} {key data : ℤ}
    (h : xtree64Hang alloc t s q key data = some (t', p)) :
    ∃ t1, xtnode64Pop alloc t = (t1, some p) ∧ (q ≠ p → Hung t1 t' s q p key data) := by
  unfold xtree64Hang at h
  rcases hpop : xtnode64Pop alloc t with ⟨t1, _ | p'⟩
  · rw [hpop] at h
    cases h
  · rw [hpop] at h
    simp only [Option.some.injEq, Prod.mk.injEq] at h
    obtain ⟨rfl, rfl⟩ := h
    refine ⟨t1, rfl, fun hqp => ⟨rfl, rfl, rfl, rfl, fun r => by cases r <;> rfl, ?_, ?_⟩⟩
    · intro i
      simp only [pair, nodes_setChild, nodes_modify]
      by_cases hi : i = q
      · subst hi; simp [hqp]
      · by_cases hip : i = p' <;> simp [hi, hip, hqp.symm]
    · simp only [links, Links.attach, Links.mk.injEq, nodes_setChild, nodes_modify]
      constructor
      · funext r i
        by_cases hi : i = q
        · subst hi; simp [hqp]
        · by_cases hip : i = p'
          · subst hip; cases r <;> simp [hi, XTNode64.child]
          · simp [hi, hip]
      · funext i
        by_cases hi : i = q
        · subst hi; simp [hqp]
        · by_cases hip : i = p' <;> simp [hi, hip, hqp.symm]

/-- A popped node hung where a descent ends. -/
theorem Layout.hang {t t' : XTree64} {tree : PTree ℕ} {free : List ℕ} (h : Layout t tree free)
    {dir : ℕ → Side} {q : ℕ} (hq : tree.spot dir = some q) {alloc : Bool} {key data : ℤ} {p : ℕ}
    (hh : xtree64Hang alloc t (dir q) q key data = some (t', p)) :
    (∃ free', Layout t' (tree.insertAt dir p) free') ∧ t'.pair p = (key, data) ∧
      (∀ i ∈ tree, t'.pair i = t.pair i) ∧ ∀ s, t'.kend s = t.kend s := by
  obtain ⟨t1, hpop, hung⟩ := xtree64Hang_cases hh
  obtain ⟨free', hl, hk, hp, hb⟩ := h.pop hpop
  rw [List.mem_append, not_or] at hp
  have hpt : p ∉ tree := hp.1
  have hqp : q ≠ p := fun he => hpt (he ▸ PTree.mem_of_spot hq)
  have hw := hung hqp
  have hperm := tree.walk_insertAt_perm .left dir p
  refine ⟨⟨free', ?_, ?_, ?_, ?_, ?_⟩, by rw [hw.pair_eq, if_pos rfl], ?_, ?_⟩
  · rw [hw.links_eq, hw.root_eq]
    exact hl.shaped.attach ((List.nodup_append.mp hl.nodup).1) hpt hq
  · rw [(hperm.append_right free').nodup_iff, List.cons_append, List.nodup_cons]
    exact ⟨by simpa [PTree.mem_walk] using ⟨hpt, hp.2⟩, hl.nodup⟩
  · rw [hw.links_eq, hw.list_eq]
    apply hl.free_chain.congr
    intro i hi
    have hip : i ≠ p := fun he => hp.2 (he ▸ hi)
    simp [Links.attach, hip]
  · intro i hi
    rw [hw.nlines_eq]
    rcases List.mem_cons.mp ((hperm.append_right free').mem_iff.mp hi) with rfl | hi
    · exact hb
    · exact hl.bounded i hi
  · have := hl.total_eq
    rw [hw.total_eq, hperm.length_eq, List.length_cons]
    omega
  · intro i hi
    have hip : i ≠ p := fun he => hpt (he ▸ hi)
    rw [hw.pair_eq, if_neg hip, pair, pair, hk.nodes_eq i hi]
  · intro s
    rw [hw.kend_eq, hk.kend_eq]

/-- Inserting between the smaller keys and the larger ones keeps the order and adds the pair. -/
theorem Holds.hang {t t' : XTree64} {tree : PTree ℕ} {free : List ℕ} (h : Holds t tree free)
    {dir : ℕ → Side} {q : ℕ} (hq : tree.spot dir = some q) {alloc : Bool} {key data : ℤ} {p : ℕ}
    (hh : xtree64Hang alloc t (dir q) q key data = some (t', p)) (xs ys : List ℕ)
    (hw : tree.walk .left = xs ++ ys) (hx : ∀ x ∈ xs, dir x = .right ∧ t.key x ≤ key)
    (hy : ∀ y ∈ ys, dir y = .left ∧ key ≤ t.key y) :
    (∃ free', Layout t' (tree.insertAt dir p) free') ∧
      (tree.insertAt dir p).walk .left = xs ++ p::ys ∧
      ((tree.insertAt dir p).walk .left).Pairwise (fun i j => t'.key i ≤ t'.key j) ∧
      t'.contents (tree.insertAt dir p) = (key, data) ::ₘ t.contents tree ∧
      ∀ s, t'.kend s = t.kend s := by
  obtain ⟨hl, hpair, hold, hkend⟩ := h.toLayout.hang hq hh
  have hwalk := PTree.walk_insertAt (p := p) xs ys hw (fun x hx' => (hx x hx').1)
    (fun y hy' => (hy y hy').1)
  have hkeys : ∀ i ∈ xs ++ ys, t'.key i = t.key i := by
    intro i hi
    exact congrArg Prod.fst (hold i (PTree.mem_walk.mp (hw ▸ hi)))
  have hkp : t'.key p = key := congrArg Prod.fst hpair
  refine ⟨hl, hwalk, ?_, ?_, hkend⟩
  · have hs := h.sorted
    rw [hw, List.pairwise_append] at hs
    rw [hwalk, List.pairwise_append, List.pairwise_cons]
    refine ⟨?_, ⟨?_, ?_⟩, ?_⟩
    · apply hs.1.imp_of_mem
      intro i j hi hj hij
      rwa [hkeys i (by simp [hi]), hkeys j (by simp [hj])]
    · intro y hy'
      rw [hkp, hkeys y (by simp [hy'])]
      exact (hy y hy').2
    · apply hs.2.1.imp_of_mem
      intro i j hi hj hij
      rwa [hkeys i (by simp [hi]), hkeys j (by simp [hj])]
    · intro x hx' y hy'
      rw [hkeys x (by simp [hx'])]
      rcases List.mem_cons.mp hy' with rfl | hy'
      · rw [hkp]; exact (hx x hx').2
      · rw [hkeys y (by simp [hy'])]
        exact hs.2.2 x hx' y hy'
  · have hmap : ∀ zs : List ℕ, (∀ z ∈ zs, z ∈ xs ++ ys) → zs.map t'.pair = zs.map t.pair :=
      fun zs hz => List.map_congr_left fun z hz' => hold z (PTree.mem_walk.mp (hw ▸ hz z hz'))
    rw [contents, contents, hwalk, hw, List.map_append, List.map_cons, List.map_append, hpair,
      hmap xs (by simp +contextual), hmap ys (by simp +contextual), Multiset.cons_coe]
    exact Multiset.coe_eq_coe.mpr List.perm_middle

theorem Holds.kend_eq {t : XTree64} {tree : PTree ℕ} {free : List ℕ} (h : Holds t tree free)
    (s : Side) : t.kend s = (tree.walk s).head? := by
  cases s with
  | left => exact h.kmin_eq
  | right =>
    change t.kmax = _
    rw [h.kmax_eq, show Side.right = Side.left.flip from rfl, PTree.walk_flip, List.head?_reverse]

/-- The outermost keys bound all others. -/
theorem Holds.le_of_kend {t : XTree64} {tree : PTree ℕ} {free : List ℕ} (h : Holds t tree free)
    {s : Side} {q : ℕ} (hq : t.kend s = some q) : q ∈ tree ∧ ∀ i ∈ tree, Side.le s (t.key q) (t.key i) := by
  cases s with
  | left =>
    have hh := h.kmin_eq.symm.trans hq
    obtain ⟨ys, hw⟩ := List.head?_eq_some_iff.mp hh
    refine ⟨PTree.mem_walk.mp (List.mem_of_mem_head? hh), fun i hi => ?_⟩
    have hs := h.sorted
    rw [← PTree.mem_walk (s := .left), hw] at hi
    rw [hw, List.pairwise_cons] at hs
    rcases List.mem_cons.mp hi with rfl | hi
    · exact le_rfl
    · exact hs.1 i hi
  | right =>
    have hh := h.kmax_eq.symm.trans hq
    obtain ⟨ys, hw⟩ := List.getLast?_eq_some_iff.mp hh
    refine ⟨PTree.mem_walk.mp (List.mem_of_mem_getLast? hh), fun i hi => ?_⟩
    have hs := h.sorted
    rw [← PTree.mem_walk (s := .left), hw] at hi
    rw [hw, List.pairwise_append] at hs
    rcases List.mem_append.mp hi with hi | hi
    · exact hs.2.2 i hi q (by simp)
    · obtain rfl := List.mem_singleton.mp hi
      exact le_rfl

/-- A key beyond the cached end of one side is hung there. -/
theorem Holds.extend {t t' : XTree64} {tree : PTree ℕ} {free : List ℕ} (h : Holds t tree free)
    {s : Side} {q : ℕ} (hq : t.kend s = some q) {alloc : Bool} {key data : ℤ}
    (hkey : Side.le s key (t.key q)) (hh : xtree64Extend alloc t s q key data = some t') :
    ∃ tree' free', Holds t' tree' free' ∧ t'.contents tree' = (key, data) ::ₘ t.contents tree := by
  obtain ⟨hmem, hall⟩ := h.le_of_kend hq
  have hne : tree.walk .left ≠ [] := List.ne_nil_of_mem hmem
  unfold xtree64Extend at hh
  cases hg : xtree64Hang alloc t s q key data with
  | none => rw [hg] at hh; cases hh
  | some r =>
    obtain ⟨t1, p⟩ := r
    rw [hg] at hh
    obtain rfl : t1.setKend s (some p) = t' := Option.some.inj hh
    have hspot : tree.spot (fun _ => s) = some q := by
      rw [PTree.spot_const, ← h.kend_eq, hq]
    have hset : ∀ {tree' free'}, Layout t1 tree' free' → Layout (t1.setKend s (some p)) tree' free' := by
      intro tree' free' hl
      cases s <;> exact ⟨hl.shaped, hl.nodup, hl.free_chain, hl.bounded, hl.total_eq⟩
    cases s with
    | left =>
      obtain ⟨⟨free', hl⟩, hw, hs, hc, hk⟩ := h.hang hspot hg [] (tree.walk .left) rfl
        (by simp) (fun y hy => ⟨rfl, le_trans hkey (hall y (PTree.mem_walk.mp hy))⟩)
      refine ⟨_, free', ⟨hset hl, hs, ?_, ?_⟩, hc⟩
      · rw [hw]; rfl
      · change t1.kend .right = _
        rw [hw, List.nil_append, List.getLast?_cons_of_ne_nil hne, hk, ← h.kmax_eq]
        rfl
    | right =>
      obtain ⟨⟨free', hl⟩, hw, hs, hc, hk⟩ := h.hang hspot hg (tree.walk .left) []
        (by simp) (fun x hx => ⟨rfl, le_trans (hall x (PTree.mem_walk.mp hx)) hkey⟩) (by simp)
      refine ⟨_, free', ⟨hset hl, hs, ?_, ?_⟩, hc⟩
      · change t1.kend .left = _
        rw [hw, List.head?_append_of_ne_nil _ hne, hk, ← h.kmin_eq]
        rfl
      · rw [hw, List.getLast?_concat]; rfl

/-- A sorted list falls into what lies below a key and what does not. -/
theorem exists_split {f : ℕ → ℤ} {w : List ℕ} (h : w.Pairwise fun i j => f i ≤ f j) (k : ℤ) :
    ∃ xs ys, w = xs ++ ys ∧ (∀ x ∈ xs, f x < k) ∧ ∀ y ∈ ys, k ≤ f y := by
  induction w with
  | nil => exact ⟨[], [], rfl, by simp, by simp⟩
  | cons i w ih =>
    rw [List.pairwise_cons] at h
    by_cases hi : f i < k
    · obtain ⟨xs, ys, rfl, hx, hy⟩ := ih h.2
      exact ⟨i::xs, ys, rfl, by simpa using ⟨hi, hx⟩, hy⟩
    · refine ⟨[], i::w, rfl, by simp, ?_⟩
      intro y hy
      rcases List.mem_cons.mp hy with rfl | hy
      · omega
      · have := h.1 y hy
        omega

/-- A key strictly between the cached ends is hung where the descent ends, which exists. -/
theorem Holds.descend {t : XTree64} {tree : PTree ℕ} {free : List ℕ} (h : Holds t tree free)
    {root a b : ℕ} (hr : t.root = some root) (ha : t.kmin = some a) (hb : t.kmax = some b) {key : ℤ}
    (hlo : t.key a < key) (hhi : key < t.key b) {alloc : Bool} (hpop : (xtnode64Pop alloc t).2.isSome)
    (data : ℤ) : ∃ t', xtree64Descend alloc t root key data = some t' ∧
      ∃ tree' free', Holds t' tree' free' ∧ t'.contents tree' = (key, data) ::ₘ t.contents tree := by
  have hs := h.shaped
  rw [hr] at hs
  have hfollow := hs.follow_eq (t.dir key) (n := t.total.toNat) (by have := h.total_eq; omega)
  have hne : tree ≠ .nil := by
    rintro rfl
    cases hs
  obtain ⟨q, hq⟩ := Option.ne_none_iff_exists'.mp (mt (PTree.spot_eq_none (t.dir key)).mp hne)
  obtain ⟨t', p, hg⟩ := xtree64Hang_isSome hpop (t.dir key q) q key data
  refine ⟨t', ?_, ?_⟩
  · unfold xtree64Descend
    change follow (fun i => (t.nodes i).child (t.dir key i)) _ _ = _ at hfollow
    simp only [hfollow, hq, hg, Option.map_some]
  obtain ⟨xs, ys, hw, hx, hy⟩ := exists_split h.sorted key
  obtain ⟨⟨free', hl⟩, hw', hs', hc, hk⟩ := h.hang hq hg xs ys hw
    (fun x hx' => ⟨if_pos (hx x hx'), (hx x hx').le⟩)
    (fun y hy' => ⟨if_neg (not_lt.mpr (hy y hy')), hy y hy'⟩)
  have hxs : xs ≠ [] := by
    rintro rfl
    have hmem := (h.le_of_kend (s := .left) ha).1
    rw [← PTree.mem_walk (s := .left), hw, List.nil_append] at hmem
    have := hy a hmem
    omega
  have hys : ys ≠ [] := by
    rintro rfl
    have hmem := (h.le_of_kend (s := .right) hb).1
    rw [← PTree.mem_walk (s := .left), hw, List.append_nil] at hmem
    have := hx b hmem
    omega
  refine ⟨_, free', ⟨hl, hs', ?_, ?_⟩, hc⟩
  · change t'.kend .left = _
    rw [hk, hw', List.head?_append_of_ne_nil _ hxs, ← @List.head?_append_of_ne_nil _ _ ys hxs, ← hw, ← h.kmin_eq]
    rfl
  · change t'.kend .right = _
    rw [hk, hw', List.getLast?_append_of_ne_nil _ (by simp), List.getLast?_cons_of_ne_nil hys,
      ← List.getLast?_append_of_ne_nil xs hys, ← hw, ← h.kmax_eq]
    rfl

/-- The first node of a tree. -/
theorem Holds.plant {t : XTree64} {free : List ℕ} (h : Holds t .nil free) {alloc : Bool}
    (hpop : (xtnode64Pop alloc t).2.isSome) (key data : ℤ) :
    ∃ t', xtree64Plant alloc t key data = some t' ∧
      ∃ tree' free', Holds t' tree' free' ∧ t'.contents tree' = (key, data) ::ₘ t.contents .nil := by
  obtain ⟨p, hp⟩ := Option.isSome_iff_exists.mp hpop
  rcases hr : xtnode64Pop alloc t with ⟨t1, p'⟩
  rw [hr] at hp
  obtain rfl : p' = some p := hp
  obtain ⟨free', hl, -, hnew, hb⟩ := h.pop hr
  have hnew : p ∉ free' := hnew
  unfold xtree64Plant
  rw [hr]
  refine ⟨_, rfl, .node p fun _ => .nil, free', ⟨⟨⟨rfl, ?_, fun s => ?_⟩, ?_, ?_, ?_, ?_⟩,
    List.pairwise_singleton _ _, rfl, rfl⟩, ?_⟩
  · simp [links, nodes_modify]
  · cases s <;> simp [Shaped, links, nodes_modify, XTNode64.child]
  · simpa [PTree.walk] using ⟨hnew, hl.nodup⟩
  · apply hl.free_chain.congr
    intro i hi
    have hip : i ≠ p := fun he => hnew (he ▸ hi)
    simp [links, nodes_modify, hip]
  · intro i hi
    rcases List.mem_cons.mp hi with rfl | hi
    · exact hb
    · exact hl.bounded i hi
  · have := hl.total_eq
    simp only [PTree.walk, List.length_nil] at this
    change t1.total + 1 = 1
    omega
  · simp [contents, PTree.walk, pair, nodes_modify]

theorem Holds.parent_eq_none {t : XTree64} {tree : PTree ℕ} {free : List ℕ} (h : Holds t tree free)
    {e : ℕ} (he : e ∈ tree) : (t.nodes e).parent = none ↔ t.root = some e := by
  constructor
  · intro hp
    rcases h.shaped.parent_cases he with ⟨hr, -⟩ | ⟨q, -, hq, -⟩
    · exact hr
    · cases hp.symm.trans hq
  · intro hr
    have hs := h.shaped
    cases tree with
    | nil => exact absurd he (PTree.not_mem_nil e)
    | node a sub =>
      obtain ⟨ha, hp, -⟩ := hs
      cases hr.symm.trans ha
      exact hp

/-- What splicing out the end of one side leaves. -/
structure Spliced (t t' : XTree64) (tree : PTree ℕ) (s : Side) (e : ℕ) : Prop where
  links_eq : t'.links = t.links.spliceEnd s e
  shaped : tree.eraseEnd s ≠ .nil → Shaped t'.links none t'.root (tree.eraseEnd s)
  kend_eq : ∀ r, t'.kend r = if r = s then ((tree.eraseEnd s).walk s).head? else t.kend r
  total_eq : t'.total = t.total
  nlines_eq : t'.nlines = t.nlines
  list_eq : t'.list = t.list
  pair_eq : ∀ i, t'.pair i = t.pair i

theorem Holds.spliceEnd {t : XTree64} {tree : PTree ℕ} {free : List ℕ} (h : Holds t tree free)
    {s : Side} {e : ℕ} (he : t.kend s = some e) :
    Shaped (t.links.spliceEnd s e) none (if t.root = some e then t.links.child s.flip e else t.root)
        (tree.eraseEnd s) ∧
      ((tree.eraseEnd s).walk s).head? = t.links.nextEnd s t.total.toNat e := by
  have hnd := PTree.nodup_walk s (List.nodup_append.mp h.nodup).1
  have hn : (tree.walk .left).length ≤ t.total.toNat := by have := h.total_eq; omega
  obtain ⟨hshape, hnext⟩ :=
    h.shaped.spliceEnd_and_next hnd (by simp) ((h.kend_eq s).symm.trans he) hn
  rw [Option.or_none] at hnext
  exact ⟨hshape, hnext⟩

theorem Holds.spliced {t : XTree64} (t0 : XTree64) {tree : PTree ℕ} {free : List ℕ} (h : Holds t tree free)
    {s : Side} {e : ℕ} (he : t.kend s = some e) (hl : t0.links = t.links.spliceEnd s e)
    (hr : tree.eraseEnd s ≠ .nil →
      t0.root = if t.root = some e then t.links.child s.flip e else t.root)
    (hk : ∀ r, t0.kend r = t.kend r) (htot : t0.total = t.total) (hnl : t0.nlines = t.nlines)
    (hli : t0.list = t.list) (hp : ∀ i, t0.pair i = t.pair i) :
    Spliced t (t0.setKend s ((tree.eraseEnd s).walk s).head?) tree s e := by
  have hl' : (t0.setKend s ((tree.eraseEnd s).walk s).head?).links = t0.links := by
    simp [links]
  refine ⟨hl'.trans hl, fun hne => ?_, fun r => ?_, by simp [htot], by simp [hnl], by simp [hli],
    fun i => ?_⟩
  · rw [hl', hl, root_setKend, hr hne]
    exact (h.spliceEnd he).1
  · rw [kend_setKend, hk]
  · rw [← hp i, pair, pair, nodes_setKend]

theorem Holds.splice {t : XTree64} {tree : PTree ℕ} {free : List ℕ} (h : Holds t tree free)
    {s : Side} {e : ℕ} (he : t.kend s = some e) :
    ∃ t', xtree64Splice t s e = some t' ∧ Spliced t t' tree s e := by
  obtain ⟨hshape, hnext⟩ := h.spliceEnd he
  have hroot := h.parent_eq_none (h.le_of_kend he).1
  have hfin := fun t0 => h.spliced t0 he
  unfold Links.nextEnd at hnext
  unfold xtree64Splice
  cases hc : (t.nodes e).child s.flip with
  | some c =>
    have hc' : t.links.child s.flip e = some c := hc
    rw [hc'] at hnext hshape hfin
    have hlast : ∃ last, ((tree.eraseEnd s).walk s).head? = some last := by
      apply Option.ne_none_iff_exists'.mp
      rw [← PTree.spot_const, Ne, PTree.spot_eq_none]
      intro hnil
      rw [hnil] at hshape
      have hrn := hshape.root_eq
      split_ifs at hrn
      · cases hrn
      · have htn := h.shaped.root_eq.symm.trans hrn
        cases tree with
        | nil => exact PTree.not_mem_nil e (h.le_of_kend he).1
        | node a sub => cases htn
    obtain ⟨last, hlast⟩ := hlast
    rw [hlast] at hnext hfin
    cases hp : (t.nodes e).parent with
    | some q =>
      have hne : t.root ≠ some e := fun hr => by cases hp.symm.trans (hroot.mpr hr)
      have hlinks : ((t.setParent c (some q)).setChild s q (some c)).links
          = t.links.spliceEnd s e := by
        simp [links, Links.spliceEnd, hc, hp, eq_comm]
      have hf : follow (fun i => (((t.setParent c (some q)).setChild s q (some c)).nodes i).child s)
          ((t.setParent c (some q)).setChild s q (some c)).total.toNat c = some last := by
        rw [hnext, ← hlinks]; rfl
      refine ⟨_, ?_, hfin _ hlinks (fun _ => by rw [if_neg hne]; rfl) (fun r => by cases r <;> rfl)
        rfl rfl rfl (by simp)⟩
      dsimp only
      rw [hf]
    | none =>
      have hlinks : (t.setParent c none).links = t.links.spliceEnd s e := by
        simp [links, Links.spliceEnd, hc, hp, eq_comm]
      have hf : follow (fun i => ((t.setParent c none).nodes i).child s)
          (t.setParent c none).total.toNat c = some last := by
        rw [hnext, ← hlinks]; rfl
      refine ⟨_, ?_, hfin { t.setParent c none with root := some c } hlinks
        (fun _ => by rw [if_pos (hroot.mp hp)]) (fun r => by cases r <;> rfl) rfl rfl rfl
        (t.pair_setParent c · none)⟩
      dsimp only
      rw [hf]
  | none =>
    have hc' : t.links.child s.flip e = none := hc
    rw [hc'] at hnext hshape hfin
    cases hp : (t.nodes e).parent with
    | some q =>
      have hne : t.root ≠ some e := fun hr => by cases hp.symm.trans (hroot.mpr hr)
      have hlinks : (t.setChild s q none).links = t.links.spliceEnd s e := by
        simp [links, Links.spliceEnd, hc, hp, eq_comm]
      refine ⟨_, ?_, hfin _ hlinks (fun _ => by rw [if_neg hne]; rfl) (fun r => by cases r <;> rfl)
        rfl rfl rfl (by simp)⟩
      rw [hnext, show t.links.parent e = some q from hp]
      cases s <;> rfl
    | none =>
      have hlinks : t.links = t.links.spliceEnd s e := by
        simp [links, Links.spliceEnd, hc, hp]
      refine ⟨_, ?_, hfin t hlinks ?_ (fun r => rfl) rfl rfl rfl (fun _ => rfl)⟩
      · rw [hnext, show t.links.parent e = none from hp]
      · intro hne
        rw [if_pos (hroot.mp hp)] at hshape
        have := hshape.root_eq
        cases heq : tree.eraseEnd s with
        | nil => exact absurd heq hne
        | node a sub => rw [heq] at this; cases this

theorem Holds.push {t : XTree64} {tree : PTree ℕ} {free : List ℕ} (h : Holds t tree free) {i : ℕ}
    (ht : i ∉ tree) (hf : i ∉ free) (hb : i < XTRNODE64_LINE_NUM * (t.nlines+1)) :
    Holds (xtnode64Push t i) tree (i::free) ∧
      (xtnode64Push t i).contents tree = t.contents tree := by
  obtain ⟨hl, hk⟩ := h.toLayout.push ht hf hb
  have hnodes : ∀ j ∈ tree.walk .left, (xtnode64Push t i).nodes j = t.nodes j :=
    fun j hj => hk.nodes_eq j hj
  refine ⟨⟨hl, ?_, (hk.kend_eq .left).trans h.kmin_eq, (hk.kend_eq .right).trans h.kmax_eq⟩, ?_⟩
  · apply h.sorted.imp_of_mem
    intro a b ha hb hab
    rwa [XTree64.key, XTree64.key, hnodes a ha, hnodes b hb]
  · have hmap := List.map_congr_left (f := (xtnode64Push t i).pair) (g := t.pair)
      (l := tree.walk .left) fun j hj => by rw [pair, pair, hnodes j hj]
    rw [contents, contents, hmap]

/-- The state after a splice with the counter brought up to date, before the node is freed. -/
def settle (t : XTree64) : XTree64 :=
  let t := { t with total := t.total-1 }
  if t.total = 0 then { t with root := none, kmin := none, kmax := none } else t

theorem settle_push (t : XTree64) (i : ℕ) :
    settle (xtnode64Push t i) = xtnode64Push (settle t) i := by
  unfold settle
  change (if t.total - 1 = 0 then _ else _) = xtnode64Push (if t.total - 1 = 0 then _ else _) i
  split_ifs <;> rfl

theorem links_settle (t : XTree64) : t.settle.links = t.links := by
  unfold settle
  dsimp only
  split_ifs <;> rfl

/-- Taking out the outermost node keeps the order and removes its pair. -/
theorem Holds.settle {t t' : XTree64} {tree : PTree ℕ} {free : List ℕ} (h : Holds t tree free)
    {s : Side} {e : ℕ} (he : t.kend s = some e) (hs : Spliced t t' tree s e) :
    Holds t'.settle (tree.eraseEnd s) free ∧
      t.contents tree = t.pair e ::ₘ t'.settle.contents (tree.eraseEnd s) := by
  have hhead : (tree.walk s).head? = some e := (h.kend_eq s).symm.trans he
  have hperm := PTree.walk_eraseEnd_perm hhead .left
  have hsub := PTree.walk_eraseEnd_sublist s .left tree
  have htot : t'.total - 1 = ((tree.eraseEnd s).walk .left).length := by
    have := h.total_eq
    have := hperm.length_eq
    rw [hs.total_eq]
    simp only [List.length_cons] at this
    omega
  have hpair : ∀ i, t'.settle.pair i = t.pair i := by
    intro i
    rw [← hs.pair_eq i]
    unfold XTree64.settle
    dsimp only
    split_ifs <;> rfl
  have hnlines : t'.settle.nlines = t.nlines := by
    rw [← hs.nlines_eq]
    unfold XTree64.settle
    dsimp only
    split_ifs <;> rfl
  have hlist : t'.settle.list = t.list := by
    rw [← hs.list_eq]
    unfold XTree64.settle
    dsimp only
    split_ifs <;> rfl
  have hends : Shaped t'.settle.links none t'.settle.root (tree.eraseEnd s) ∧
      (∀ r, t'.settle.kend r = ((tree.eraseEnd s).walk r).head?) ∧
      t'.settle.total = ((tree.eraseEnd s).walk .left).length := by
    rw [links_settle]
    unfold XTree64.settle
    dsimp only
    split_ifs with h0
    · have hnil : tree.eraseEnd s = .nil := by
        rw [← PTree.spot_eq_none fun _ => .left, PTree.spot_const, List.head?_eq_none_iff]
        exact List.length_eq_zero_iff.mp (by omega)
      rw [hnil]
      exact ⟨rfl, fun r => by cases r <;> rfl, h0⟩
    · have hne : tree.eraseEnd s ≠ .nil := by
        intro hnil
        rw [hnil] at htot
        exact h0 htot
      refine ⟨hs.shaped hne, fun r => ?_, htot⟩
      change t'.kend r = _
      rw [hs.kend_eq]
      split_ifs with hr
      · rw [hr]
      · rw [Side.eq_flip_of_ne hr, PTree.head?_walk_flip_eraseEnd hne, h.kend_eq]
  obtain ⟨hshape, hkend, htotal⟩ := hends
  refine ⟨⟨⟨hshape, ?_, ?_, ?_, htotal⟩, ?_, hkend .left, ?_⟩, ?_⟩
  · exact h.nodup.sublist (hsub.append_right free)
  · rw [hlist]
    apply h.free_chain.congr
    intro i hi
    have hc : t.links.child s.flip e ≠ some i := by
      intro hc
      have hm := (h.shaped.child_mem (h.le_of_kend he).1 hc).1
      exact (List.nodup_append.mp h.nodup).2.2 i hm i hi rfl
    rw [links_settle, hs.links_eq]
    exact if_neg hc
  · intro i hi
    rw [hnlines]
    exact h.bounded i ((hsub.append_right free).subset hi)
  · apply (h.sorted.sublist hsub).imp
    intro a b hab
    have ha := congrArg Prod.fst (hpair a)
    have hb := congrArg Prod.fst (hpair b)
    change t'.settle.key a = t.key a at ha
    change t'.settle.key b = t.key b at hb
    rwa [ha, hb]
  · have := hkend .right
    rwa [show Side.right = Side.left.flip from rfl, PTree.walk_flip, List.head?_reverse] at this
  · rw [contents, contents, show t'.settle.pair = t.pair from funext hpair, Multiset.cons_coe]
    exact Multiset.coe_eq_coe.mpr (hperm.map t.pair)

/-- `xtree64_pop_min` and `xtree64_pop_max`: an empty tree fails, any other gives up its end. -/
theorem Holds.popEnd {t : XTree64} {tree : PTree ℕ} {free : List ℕ} (h : Holds t tree free)
    (s : Side) : (tree = .nil ∧ xtree64PopEnd t s = some (t, -1, none)) ∨
      ∃ e t' tree' free', xtree64PopEnd t s = some (t', 0, some (t.pair e)) ∧
        Holds t' tree' free' ∧ t.contents tree = t.pair e ::ₘ t'.contents tree' ∧
        e ∈ tree ∧ ∀ i ∈ tree, Side.le s (t.key e) (t.key i) := by
  unfold xtree64PopEnd
  cases he : t.kend s with
  | none =>
    left
    rw [h.kend_eq s, ← PTree.spot_const, PTree.spot_eq_none] at he
    exact ⟨he, rfl⟩
  | some e =>
    right
    obtain ⟨hmem, hle⟩ := h.le_of_kend he
    obtain ⟨t1, hsplice, hs⟩ := h.splice he
    obtain ⟨hh, hc⟩ := h.settle he hs
    have hperm := (PTree.walk_eraseEnd_perm ((h.kend_eq s).symm.trans he) .left)
    have hnd := h.nodup
    rw [(hperm.append_right free).nodup_iff, List.cons_append, List.nodup_cons,
      List.mem_append, not_or] at hnd
    have hb : e < XTRNODE64_LINE_NUM * (t1.settle.nlines+1) := by
      have := h.mem_walk_lt hmem
      rw [← hs.nlines_eq] at this
      unfold XTree64.settle
      dsimp only
      split_ifs <;> exact this
    obtain ⟨hp, hcp⟩ := hh.push hnd.1.1 hnd.1.2 hb
    refine ⟨e, XTree64.settle (xtnode64Push t1 e), _, _, ?_, (settle_push t1 e).symm ▸ hp, ?_, hmem, hle⟩
    · simp only [hsplice]
      rfl
    · rw [settle_push, hcp]
      exact hc

theorem Holds.push_all {tree : PTree ℕ} (l : List ℕ) {t : XTree64} {free : List ℕ}
    (h : Holds t tree free) (hnd : l.Nodup) (ht : ∀ i ∈ l, i ∉ tree) (hf : ∀ i ∈ l, i ∉ free)
    (hb : ∀ i ∈ l, i < XTRNODE64_LINE_NUM * (t.nlines+1)) :
    ∃ free', Holds (l.foldl xtnode64Push t) tree free' := by
  induction l generalizing t free with
  | nil => exact ⟨free, h⟩
  | cons i l ih =>
    rw [List.nodup_cons] at hnd
    have hp := (h.push (ht i (by simp)) (hf i (by simp)) (hb i (by simp))).1
    apply ih hp hnd.2 (fun j hj => ht j (by simp [hj])) ?_ (fun j hj => hb j (by simp [hj]))
    intro j hj
    rw [List.mem_cons, not_or]
    exact ⟨fun he => hnd.1 (he ▸ hj), hf j (by simp [hj])⟩

/-- `xtree64_init` hands all its nodes to the free list. -/
theorem xtree64Init_holds : ∃ free, Holds xtree64Init .nil free := by
  have h0 : Holds ⟨fun _ => XTNode64.zero, 0, 0, none, none, none, none⟩ .nil [] :=
    ⟨⟨rfl, by simp [PTree.walk], rfl, by simp [PTree.walk], rfl⟩,
      ⟨by simp [PTree.walk], rfl, rfl⟩⟩
  exact h0.push_all (List.range XTRNODE64_LINE_NUM) List.nodup_range
    (fun i _ => PTree.not_mem_nil i) (by simp) (fun i hi => by simpa using hi)

/-- Either there is no node at all, or the root and both ends are cached. -/
theorem Holds.ends {t : XTree64} {tree : PTree ℕ} {free : List ℕ} (h : Holds t tree free) :
    (tree = .nil ∧ t.root = none) ∨ ∃ r a b, t.root = some r ∧ t.kmin = some a ∧
      t.kmax = some b ∧ 0 < t.total := by
  cases tree with
  | nil => exact .inl ⟨rfl, h.shaped⟩
  | node r sub =>
    right
    have hne : ∀ s, ∃ e, t.kend s = some e := by
      intro s
      apply Option.ne_none_iff_exists'.mp
      rw [h.kend_eq, ← PTree.spot_const, Ne, PTree.spot_eq_none]
      nofun
    obtain ⟨a, ha⟩ := hne .left
    obtain ⟨b, hb⟩ := hne .right
    refine ⟨r, a, b, h.shaped.1, ha, hb, ?_⟩
    rw [h.total_eq]
    simp only [PTree.walk, List.length_append, List.length_cons]
    omega

theorem xtree64Extend_isSome {t : XTree64} {alloc : Bool} (h : (xtnode64Pop alloc t).2.isSome)
    (s : Side) (q : ℕ) (key data : ℤ) : ∃ t', xtree64Extend alloc t s q key data = some t' := by
  obtain ⟨t', p, hg⟩ := xtree64Hang_isSome h s q key data
  refine ⟨t'.setKend s (some p), ?_⟩
  unfold xtree64Extend
  rw [hg]

/-- `xtree64_push` adds its pair. -/
theorem Holds.xtree64Push {t : XTree64} {tree : PTree ℕ} {free : List ℕ} (h : Holds t tree free)
    {alloc : Bool} (hpop : (xtnode64Pop alloc t).2.isSome) (key data : ℤ) :
    ∃ t', xtree64Push alloc t key data = some (t', 0) ∧
      ∃ tree' free', Holds t' tree' free' ∧ t'.contents tree' = (key, data) ::ₘ t.contents tree := by
  unfold Sbase.xtree64Push
  rcases h.ends with ⟨rfl, hr⟩ | ⟨r, a, b, hr, ha, hb, hpos⟩
  · obtain ⟨t', hp, hh⟩ := h.plant hpop key data
    exact ⟨t', by rw [hr]; simp only [hp, Option.map_some], hh⟩
  · simp only [hr, ha, hb, if_pos hpos]
    by_cases hlo : key ≤ (t.nodes a).key
    · obtain ⟨t', he⟩ := xtree64Extend_isSome hpop .left a key data
      rw [if_pos hlo, he]
      exact ⟨t', rfl, h.extend (s := .left) ha hlo he⟩
    · rw [if_neg hlo]
      by_cases hhi : key ≥ (t.nodes b).key
      · obtain ⟨t', he⟩ := xtree64Extend_isSome hpop .right b key data
        rw [if_pos hhi, he]
        exact ⟨t', rfl, h.extend (s := .right) hb hhi he⟩
      · rw [if_neg hhi]
        obtain ⟨t', hd, hh⟩ := h.descend hr ha hb (not_le.mp hlo) (not_le.mp hhi) hpop data
        exact ⟨t', by rw [hd]; rfl, hh⟩

end XTree64

end Sbase
