import Mathlib.Tactic

/-! Trees in an array of nodes, in which the children of a node are a block of consecutive nodes.

`At` relates the paths of keys from the roots to the nodes at which they end. Every position of the
array has one owner, so that blocks with different owners share no node. Giving a node a new child
moves all its children to another block; `Grown` says what such a move does to the links, and
`at_grown` what it does to the paths. -/
namespace BlockTree

variable {κ : Type*}

/-- The keys of an array of nodes, and the block of the children of each. -/
structure Links (κ : Type*) where
  key : ℕ → κ
  nchilds : ℕ → ℕ
  childs : ℕ → ℕ

/-- Whether `j` is one of the children of `i`. -/
def Links.IsChild (n : Links κ) (i j : ℕ) : Prop := n.childs i ≤ j ∧ j < n.childs i + n.nchilds i

/-- The node at the end of a path of keys; the first key of a path selects a root. -/
inductive At (n : Links κ) (root : κ → ℕ) : List κ → ℕ → Prop
  | root (c : κ) : At n root [c] (root c)
  | child {w : List κ} {i j : ℕ} (h : At n root w i) (hj : n.IsChild i j) :
    At n root (w ++ [n.key j]) j

/-- What a position of the array is used for. -/
inductive Holder (κ : Type*)
  | wild
  | kids (w : List κ)
  | free (size start : ℕ)

variable {n n' : Links κ} {root : κ → ℕ} {w v : List κ} {i j : ℕ}

theorem At.ne_nil (h : At n root w i) : w ≠ [] := by
  cases h with
  | root c => simp
  | child h hj => simp

theorem At.single {c : κ} (h : At n root [c] i) : i = root c := by
  generalize hw : [c] = u at h
  cases h with
  | root d =>
    cases hw
    rfl
  | child h hj =>
    have hnil := h.ne_nil
    have hlen := congrArg List.length hw
    simp only [List.length_singleton,List.length_append,Nat.right_eq_add,
      List.length_eq_zero_iff] at hlen
    exact absurd hlen hnil

theorem At.snoc {b : κ} (hw : w ≠ []) (h : At n root (w ++ [b]) j) :
    ∃ i, At n root w i ∧ n.IsChild i j ∧ n.key j = b := by
  generalize hu : w ++ [b] = u at h
  cases h with
  | root c =>
    have hlen := congrArg List.length hu
    simp only [List.length_append,List.length_singleton,Nat.add_eq_right,
      List.length_eq_zero_iff] at hlen
    exact absurd hlen hw
  | child h hj =>
    obtain ⟨rfl,hb⟩ := List.append_inj' hu rfl
    cases hb
    exact ⟨_,h,hj,rfl⟩

/-- A path passes through the nodes of its beginnings. -/
theorem At.of_append {u : List κ} (hw : w ≠ []) (h : At n root (w ++ u) j) : ∃ i, At n root w i := by
  induction u using List.reverseRecOn generalizing j with
  | nil =>
    rw [List.append_nil] at h
    exact ⟨j,h⟩
  | append_singleton u b ih =>
    rw [← List.append_assoc] at h
    obtain ⟨i,hi,-,-⟩ := h.snoc (by simp [hw])
    exact ih hi

/-- The shape of the whole array: the owners of the children of each node, which are sorted by the
rank of their keys. -/
structure Shape (n : Links κ) (root : κ → ℕ) (rank : κ → ℕ) (own : ℕ → Holder κ) : Prop where
  roots : ∀ c, own (root c) = .wild
  root_inj : Function.Injective root
  owned : ∀ {w i j}, At n root w i → n.IsChild i j → own j = .kids w
  kids : ∀ {w j}, own j = .kids w → ∃ i, At n root w i ∧ n.IsChild i j
  sorted : ∀ {w i p q}, At n root w i → n.IsChild i p → n.IsChild i q → p < q →
    rank (n.key p) < rank (n.key q)

namespace Shape

variable {rank : κ → ℕ} {own : ℕ → Holder κ}

theorem distinct (h : Shape n root rank own) (hi : At n root w i) {p q : ℕ} (hp : n.IsChild i p)
    (hq : n.IsChild i q) (hkey : n.key p = n.key q) : p = q := by
  rcases lt_trichotomy p q with hlt | heq | hgt
  · have := h.sorted hi hp hq hlt
    rw [hkey] at this
    omega
  · exact heq
  · have := h.sorted hi hq hp hgt
    rw [hkey] at this
    omega

/-- A path ends at one node. -/
theorem node_unique (h : Shape n root rank own) (hi : At n root w i) (hj : At n root w j) : i = j := by
  induction hi generalizing j with
  | root c => exact hj.single.symm
  | child hk hi ih =>
    obtain ⟨k,hk',hj',hkey⟩ := hj.snoc hk.ne_nil
    obtain rfl := ih hk'
    exact h.distinct hk hi hj' hkey.symm

/-- A node is at the end of one path. -/
theorem path_unique (h : Shape n root rank own) (hw : At n root w i) (hv : At n root v i) : w = v := by
  cases hw with
  | root c =>
    generalize hi : root c = i at hv
    cases hv with
    | root d => rw [h.root_inj hi]
    | child hv hj =>
      have howner := h.owned hv hj
      rw [← hi,h.roots] at howner
      cases howner
  | child hw hj =>
    have howner := h.owned hw hj
    cases hv with
    | root d =>
      rw [h.roots] at howner
      cases howner
    | child hv hj' =>
      have howner' := h.owned hv hj'
      rw [howner] at howner'
      cases howner'
      rfl

theorem root_not_child (h : Shape n root rank own) (hi : At n root w i) (c : κ) :
    ¬ n.IsChild i (root c) := by
  intro hc
  have howner := h.owned hi hc
  rw [h.roots] at howner
  cases howner

theorem not_self (h : Shape n root rank own) (hi : At n root w i) : ¬ n.IsChild i i := by
  intro hc
  have hpath := h.path_unique hi (hi.child hc)
  have hlen := congrArg List.length hpath
  simp at hlen

/-- The children of different nodes are in disjoint blocks. -/
theorem apart (h : Shape n root rank own) (hi : At n root w i) (hj : At n root v j) {q : ℕ}
    (hqi : n.IsChild i q) (hqj : n.IsChild j q) : i = j := by
  have hwv : w = v := by
    have hw := h.owned hi hqi
    have hv := h.owned hj hqj
    rw [hw] at hv
    cases hv
    rfl
  subst hwv
  exact h.node_unique hi hj

end Shape

/-- The nodes of a block of `m` before and after a new one is put in at place `k`. -/
def shift (k q : ℕ) : ℕ := if q < k then q else q + 1

/-- The links `n'` after the children of `i` have been moved to `pos`, with a new child of the key `b`
at place `k`. -/
structure Grown (n n' : Links κ) (root : κ → ℕ) (i pos k : ℕ) (b : κ) : Prop where
  place : k ≤ n.nchilds i
  self_key : n'.key i = n.key i
  self_nchilds : n'.nchilds i = n.nchilds i + 1
  self_childs : n'.childs i = pos
  new_key : n'.key (pos + k) = b
  new_nchilds : n'.nchilds (pos + k) = 0
  moved : ∀ q < n.nchilds i, n'.key (pos + shift k q) = n.key (n.childs i + q) ∧
    n'.nchilds (pos + shift k q) = n.nchilds (n.childs i + q) ∧
    n'.childs (pos + shift k q) = n.childs (n.childs i + q)
  kept : ∀ {v j}, At n root v j → j ≠ i → ¬ n.IsChild i j →
    n'.key j = n.key j ∧ n'.nchilds j = n.nchilds j ∧ n'.childs j = n.childs j

/-- Where such a move takes a node. -/
def moveTo (n : Links κ) (i pos k j : ℕ) : ℕ :=
  if n.childs i ≤ j ∧ j < n.childs i + n.nchilds i then pos + shift k (j - n.childs i) else j

theorem moveTo_child {pos k : ℕ} (hj : n.IsChild i j) :
    moveTo n i pos k j = pos + shift k (j - n.childs i) := if_pos hj

theorem moveTo_other {pos k : ℕ} (hj : ¬ n.IsChild i j) : moveTo n i pos k j = j := if_neg hj

section Growth

variable {rank : κ → ℕ} {own : ℕ → Holder κ} {pos k : ℕ} {b : κ}

theorem Grown.moveTo_links (g : Grown n n' root i pos k b) (hj : At n root v j) (hne : j ≠ i) :
    n'.key (moveTo n i pos k j) = n.key j ∧ n'.nchilds (moveTo n i pos k j) = n.nchilds j ∧
      n'.childs (moveTo n i pos k j) = n.childs j := by
  by_cases hc : n.IsChild i j
  · have hmoved := g.moved (j - n.childs i) (by have := hc.2; have := hc.1; omega)
    rw [Nat.add_sub_cancel' hc.1] at hmoved
    rwa [moveTo_child hc]
  · rw [moveTo_other hc]
    exact g.kept hj hne hc

/-- A place in the new block is that of the new child or of a moved one. -/
theorem shift_cases {m k r : ℕ} (hr : r < m + 1) (hk : k ≤ m) :
    r = k ∨ ∃ q < m, r = shift k q := by
  rcases lt_trichotomy r k with hlt | heq | hgt
  · exact .inr ⟨r,by omega,by rw [shift,if_pos hlt]⟩
  · exact .inl heq
  · exact .inr ⟨r - 1,by omega,by rw [shift,if_neg (by omega)]; omega⟩

theorem shift_lt {m k q : ℕ} (hq : q < m) : shift k q < m + 1 := by
  simp only [shift]
  split_ifs <;> omega

/-- The paths after a move: each node has been moved with its path, and the new child ends the path
of its parent extended by its key. -/
theorem Shape.at_grown (h : Shape n root rank own) (g : Grown n n' root i pos k b)
    (hi : At n root w i) (v : List κ) (j' : ℕ) : At n' root v j' ↔
      (∃ j, At n root v j ∧ j' = moveTo n i pos k j) ∨ v = w ++ [b] ∧ j' = pos + k := by
  have hself : moveTo n i pos k i = i := moveTo_other (h.not_self hi)
  have hroot : ∀ c, moveTo n i pos k (root c) = root c :=
    fun c => moveTo_other (h.root_not_child hi c)
  have hother : ∀ {v j q}, At n root v j → j ≠ i → n.IsChild j q →
      ¬ n.IsChild i q ∧ n'.key q = n.key q := by
    intro v j q hj hne hq
    have hnot : ¬ n.IsChild i q := fun hqi => hne (h.apart hj hi hq hqi)
    refine ⟨hnot,?_⟩
    by_cases hqi : q = i
    · rw [hqi]
      exact g.self_key
    · exact (g.kept (hj.child hq) hqi hnot).1
  constructor
  · intro hj'
    induction hj' with
    | root c => exact .inl ⟨root c,.root c,(hroot c).symm⟩
    | @child v k' j' hk' hchild ih =>
      rcases ih with ⟨j,hj,rfl⟩ | ⟨-,rfl⟩
      · by_cases hji : j = i
        · subst hji
          obtain rfl := h.path_unique hi hj
          rw [hself,Links.IsChild,g.self_childs,g.self_nchilds] at hchild
          obtain ⟨r,rfl⟩ := Nat.exists_eq_add_of_le hchild.1
          rcases shift_cases (by omega : r < n.nchilds j + 1) g.place with rfl | ⟨q,hq,rfl⟩
          · exact .inr ⟨by rw [g.new_key],rfl⟩
          · have hqc : n.IsChild j (n.childs j + q) := ⟨by omega,by omega⟩
            refine .inl ⟨n.childs j + q,?_,?_⟩
            · rw [(g.moved q hq).1]
              exact hj.child hqc
            · rw [moveTo_child hqc,Nat.add_sub_cancel_left]
        · obtain ⟨-,hn,hc⟩ := g.moveTo_links hj hji
          rw [Links.IsChild,hn,hc] at hchild
          obtain ⟨hnot,hkey⟩ := hother hj hji hchild
          refine .inl ⟨j',?_,(moveTo_other hnot).symm⟩
          rw [hkey]
          exact hj.child hchild
      · rw [Links.IsChild,g.new_nchilds] at hchild
        omega
  · have hmoved : ∀ {v j}, At n root v j → At n' root v (moveTo n i pos k j) := by
      intro v j hj
      induction hj with
      | root c =>
        rw [hroot]
        exact .root c
      | @child v j q hj hq ih =>
        by_cases hji : j = i
        · subst hji
          obtain rfl := h.path_unique hi hj
          rw [hself] at ih
          have hlt : q - n.childs j < n.nchilds j := by
            have := hq.1
            have := hq.2
            omega
          have hqeq : n.childs j + (q - n.childs j) = q := Nat.add_sub_cancel' hq.1
          have hnew : n'.IsChild j (moveTo n j pos k q) := by
            rw [moveTo_child hq,Links.IsChild,g.self_childs,g.self_nchilds]
            have := shift_lt (k := k) hlt
            omega
          have hkey : n'.key (moveTo n j pos k q) = n.key q := by
            rw [moveTo_child hq,(g.moved _ hlt).1,hqeq]
          rw [← hkey]
          exact ih.child hnew
        · obtain ⟨hnot,hkey⟩ := hother hj hji hq
          obtain ⟨-,hn,hc⟩ := g.moveTo_links hj hji
          rw [moveTo_other hnot,← hkey]
          refine ih.child ?_
          rwa [Links.IsChild,hn,hc]
    rintro (⟨j,hj,rfl⟩ | ⟨rfl,rfl⟩)
    · exact hmoved hj
    · have hi' := hmoved hi
      rw [hself] at hi'
      rw [← g.new_key]
      refine hi'.child ?_
      rw [Links.IsChild,g.self_childs,g.self_nchilds]
      have := g.place
      omega

/-- The owners after a move: the new block is that of the children, and the old one is free. -/
def regrant (n : Links κ) (own : ℕ → Holder κ) (w : List κ) (i pos q : ℕ) : Holder κ :=
  if pos ≤ q ∧ q < pos + (n.nchilds i + 1) then .kids w
  else if n.childs i ≤ q ∧ q < n.childs i + n.nchilds i then .free (n.nchilds i) (n.childs i)
  else own q

theorem regrant_new {q : ℕ} (hq : pos ≤ q ∧ q < pos + (n.nchilds i + 1)) :
    regrant n own w i pos q = .kids w := if_pos hq

theorem regrant_other {q : ℕ} (hnew : ¬ (pos ≤ q ∧ q < pos + (n.nchilds i + 1)))
    (hold : ¬ n.IsChild i q) : regrant n own w i pos q = own q := by
  rw [regrant,if_neg hnew]
  exact if_neg hold

theorem regrant_old {q : ℕ} (hnew : ¬ (pos ≤ q ∧ q < pos + (n.nchilds i + 1)))
    (hold : n.IsChild i q) :
    regrant n own w i pos q = .free (n.nchilds i) (n.childs i) := by
  rw [regrant,if_neg hnew]
  exact if_pos hold

/-- A move into a block that belongs to no node, with the new child in its place among the others,
keeps the shape. -/
theorem Shape.grown (h : Shape n root rank own) (g : Grown n n' root i pos k b)
    (hi : At n root w i)
    (hvacant : ∀ q, pos ≤ q ∧ q < pos + (n.nchilds i + 1) → ∀ v, own q ≠ .kids v)
    (hroots : ∀ c, ¬ (pos ≤ root c ∧ root c < pos + (n.nchilds i + 1)))
    (hbelow : ∀ q < k, rank (n.key (n.childs i + q)) < rank b)
    (habove : ∀ q, k ≤ q → q < n.nchilds i → rank b < rank (n.key (n.childs i + q))) :
    Shape n' root rank (regrant n own w i pos) := by
  have hself : moveTo n i pos k i = i := moveTo_other (h.not_self hi)
  have hat := h.at_grown g hi
  have hchilds : ∀ {v j q}, At n root v j → j ≠ i →
      (n'.IsChild (moveTo n i pos k j) q ↔ n.IsChild j q) := by
    intro v j q hj hne
    obtain ⟨-,hn,hc⟩ := g.moveTo_links hj hne
    rw [Links.IsChild,hn,hc]
    rfl
  have hchild : ∀ q, n'.IsChild i q ↔ pos ≤ q ∧ q < pos + (n.nchilds i + 1) := by
    intro q
    rw [Links.IsChild,g.self_childs,g.self_nchilds]
  have hnone : ∀ q, ¬ n'.IsChild (pos + k) q := by
    intro q hq
    rw [Links.IsChild,g.new_nchilds] at hq
    omega
  have hother : ∀ {v j q}, At n root v j → j ≠ i → n.IsChild j q →
      ¬ n.IsChild i q ∧ ¬ (pos ≤ q ∧ q < pos + (n.nchilds i + 1)) ∧ n'.key q = n.key q := by
    intro v j q hj hne hq
    have hnot : ¬ n.IsChild i q := fun hqi => hne (h.apart hj hi hq hqi)
    refine ⟨hnot,fun hnew => hvacant q hnew v (h.owned hj hq),?_⟩
    by_cases hqi : q = i
    · rw [hqi]
      exact g.self_key
    · exact (g.kept (hj.child hq) hqi hnot).1
  constructor
  · intro c
    rw [regrant_other (hroots c) (h.root_not_child hi c)]
    exact h.roots c
  · exact h.root_inj
  · intro v j' q hj' hq
    rcases (hat v j').mp hj' with ⟨j,hj,rfl⟩ | ⟨-,rfl⟩
    · by_cases hji : j = i
      · subst hji
        obtain rfl := h.path_unique hi hj
        rw [hself,hchild] at hq
        exact regrant_new hq
      · rw [hchilds hj hji] at hq
        obtain ⟨hold,hnew,-⟩ := hother hj hji hq
        rw [regrant_other hnew hold]
        exact h.owned hj hq
    · exact absurd hq (hnone q)
  · intro v q hq
    by_cases hnew : pos ≤ q ∧ q < pos + (n.nchilds i + 1)
    · rw [regrant_new hnew] at hq
      cases hq
      refine ⟨i,(hat w i).mpr (.inl ⟨i,hi,hself.symm⟩),(hchild q).mpr hnew⟩
    · by_cases hold : n.IsChild i q
      · rw [regrant_old hnew hold] at hq
        cases hq
      · rw [regrant_other hnew hold] at hq
        obtain ⟨j,hj,hjq⟩ := h.kids hq
        have hji : j ≠ i := by
          rintro rfl
          exact hold hjq
        exact ⟨_,(hat v _).mpr (.inl ⟨j,hj,rfl⟩),(hchilds hj hji).mpr hjq⟩
  · intro v j' p q hj' hp hq hlt
    rcases (hat v j').mp hj' with ⟨j,hj,rfl⟩ | ⟨-,rfl⟩
    · by_cases hji : j = i
      · subst hji
        rw [hself,hchild] at hp hq
        obtain ⟨r,rfl⟩ := Nat.exists_eq_add_of_le hp.1
        obtain ⟨s,rfl⟩ := Nat.exists_eq_add_of_le hq.1
        have hin : ∀ q < n.nchilds j, n.IsChild j (n.childs j + q) := fun q hq =>
          ⟨by omega,by omega⟩
        have hshift : ∀ q, q < k ∧ shift k q = q ∨ k ≤ q ∧ shift k q = q + 1 := by
          intro q
          simp only [shift]
          split_ifs <;> omega
        rcases shift_cases (by omega : r < n.nchilds j + 1) g.place with rfl | ⟨r',hr,rfl⟩
        · rcases shift_cases (by omega : s < n.nchilds j + 1) g.place with rfl | ⟨s',hs,rfl⟩
          · omega
          · rw [g.new_key,(g.moved s' hs).1]
            have := hshift s'
            exact habove s' (by omega) hs
        · rcases shift_cases (by omega : s < n.nchilds j + 1) g.place with rfl | ⟨s',hs,rfl⟩
          · rw [g.new_key,(g.moved r' hr).1]
            have := hshift r'
            exact hbelow r' (by omega)
          · rw [(g.moved r' hr).1,(g.moved s' hs).1]
            have := hshift r'
            have := hshift s'
            exact h.sorted hj (hin r' hr) (hin s' hs) (by omega)
      · rw [hchilds hj hji] at hp hq
        rw [(hother hj hji hp).2.2,(hother hj hji hq).2.2]
        exact h.sorted hj hp hq hlt
    · exact absurd hp (hnone p)

end Growth

end BlockTree
