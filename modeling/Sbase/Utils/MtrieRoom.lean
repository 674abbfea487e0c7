import Sbase.Utils.MtrieAlloc

/-! How far the array of nodes grows: the nodes that a key takes from its end, and the additions that the
`int`s of the state have room for. -/
namespace Sbase
open BlockTree

namespace Mtrie

/-- The child of a node with a byte, by the test of `mtrie_add`. -/
def child (t : Mtrie) (i : ℕ) (b : UInt8) : Option ℕ :=
  let x := mtrieSeek t.nodes i b
  if x < MTRIE_LINE_MAX ∨ (t.nodes x.toNat).key ≠ b then none else some x.toNat

/-- The free blocks of one node, once a node with `m` children has been given another one. -/
def spare (t : Mtrie) (m : ℕ) : ℕ :=
  if m = 0 then (t.list 0).count - 1 else if m = 1 then (t.list 0).count + 1 else (t.list 0).count

/-- The nodes from the end of the array that the bytes behind the node `i` need: a block with one more
child for the last node of the key that is there, and a block of one node for each byte behind it. -/
def freshAt (t : Mtrie) (i : ℕ) : List UInt8 → ℕ
  | [] => 0
  | b::bs =>
    match t.child i b with
    | some j => freshAt t j bs
    | none =>
      let m := (t.nodes i).nchilds
      (if 0 < (t.list m).count then 0 else m + 1) + (bs.length - t.spare m)

def fresh (t : Mtrie) : List UInt8 → ℕ
  | [] => 0
  | b::bs => t.freshAt b.toNat bs

end Mtrie

/-- The largest number of nodes to which the array grows within an `int`. -/
def MTRIE_CURRENT_MAX : ℕ := 2147400000

/-- Whether the array need not grow beyond an `int` for a key. -/
def Mtrie.Room (t : Mtrie) (key : List UInt8) : Prop := t.current + t.fresh key ≤ MTRIE_CURRENT_MAX

/-- Whether there is an id left for a key, if it has no data. -/
def Mtrie.IdLeft (t : Mtrie) (key : List UInt8) : Prop :=
  key ≠ [] → (∀ i, t.Ends key i → (t.nodes i).data = 0) → t.id < MTRIE_INT_MAX

/-- The array is never larger than what has been needed of it. -/
structure ArraySized (t : Mtrie) : Prop where
  steps : ∃ k, t.total = MTRIE_NODES_MAX + MTRIE_INCREMENT_NUM * k
  needed : t.total = MTRIE_NODES_MAX ∨ t.total < t.current + MTRIE_INCREMENT_NUM

/-- A block is taken from its free list, or from the end of the array. -/
theorem mtriePop_counts {t : Mtrie} {n : ℕ} (hpos : 0 < n) (hle : n ≤ MTRIE_LINE_MAX) :
    (mtriePop t n).1.current = t.current + (if 0 < (t.list (n - 1)).count then 0 else n) ∧
      ((mtriePop t n).1.list 0).count =
        if n = 1 then (t.list 0).count - 1 else (t.list 0).count := by
  rw [mtriePop,if_pos ⟨hpos,hle⟩]
  by_cases hcount : 0 < (t.list (n - 1)).count
  · simp only [if_pos hcount,Mtrie.setList]
    refine ⟨rfl,?_⟩
    by_cases hone : n = 1
    · subst hone
      rw [if_pos rfl,Function.update_self]
    · rw [if_neg hone,Function.update_of_ne (by omega)]
  · simp only [if_neg hcount]
    have hgrow : ∀ {s : Mtrie}, s = (if t.left < n then mtrieIncrement t else t) →
        s.current = t.current ∧ s.list = t.list := by
      rintro s rfl
      split_ifs <;> exact ⟨rfl,rfl⟩
    obtain ⟨hcurrent,hlist⟩ := hgrow rfl
    refine ⟨by rw [hcurrent],?_⟩
    rw [hlist]
    split_ifs with hone
    · subst hone
      have hzero : ¬ 0 < (t.list 0).count := hcount
      omega
    · rfl

namespace ArraySized

variable {t : Mtrie} {n : ℕ}

theorem pop (h : ArraySized t) (hcap : t.current + t.left = t.total) (n : ℕ) : ArraySized (mtriePop t n).1 := by
  rw [mtriePop]
  by_cases hn : 0 < n ∧ n ≤ MTRIE_LINE_MAX
  · rw [if_pos hn]
    by_cases hcount : 0 < (t.list (n - 1)).count
    · simp only [if_pos hcount]
      exact ⟨h.steps,h.needed⟩
    · simp only [if_neg hcount]
      by_cases hgrow : t.left < n
      · rw [if_pos hgrow]
        obtain ⟨k,hk⟩ := h.steps
        refine ⟨⟨k + 1,?_⟩,.inr ?_⟩
        · change t.total + MTRIE_INCREMENT_NUM = _
          rw [hk,Nat.mul_succ]
          omega
        · change t.total + MTRIE_INCREMENT_NUM < t.current + n + MTRIE_INCREMENT_NUM
          omega
      · rw [if_neg hgrow]
        refine ⟨h.steps,?_⟩
        change t.total = _ ∨ t.total < t.current + n + _
        have hneeded := h.needed
        omega
  · rw [if_neg hn]
    exact h

/-- The array is beyond an `int` exactly when the nodes in use are. -/
theorem overflow_iff (h : ArraySized t) (hcap : t.current + t.left = t.total) :
    MTRIE_INT_MAX < t.total ↔ MTRIE_CURRENT_MAX < t.current := by
  obtain ⟨⟨k,hk⟩,hneeded⟩ := h
  rw [MTRIE_NODES_MAX,MTRIE_INCREMENT_NUM] at hk hneeded
  rw [MTRIE_INT_MAX,MTRIE_CURRENT_MAX]
  omega

theorem init : ArraySized mtrieInit := ⟨⟨0,rfl⟩,.inl rfl⟩

end ArraySized

namespace Laid

variable {t : Mtrie} {own : ℕ → Holder UInt8} {bins : ℕ → List ℕ} {w : List UInt8} {i : ℕ} {b : UInt8}

theorem child_some (h : Laid t own bins) (hi : t.Ends w i) {j : ℕ} (hchild : t.child i b = some j) :
    mtrieStep t i b = (t,some j) ∧ t.Ends (w ++ [b]) j := by
  rw [Mtrie.child] at hchild
  split_ifs at hchild with hcond
  have hstep : mtrieStep t i b = (t,some j) := by rw [mtrieStep,if_neg hcond,hchild]
  obtain ⟨t',j',own',bins',hstep',-,hj,-,-⟩ := h.step hi b
  rw [hstep,Prod.mk.injEq,Option.some.injEq] at hstep'
  obtain ⟨rfl,rfl⟩ := hstep'
  exact ⟨hstep,hj⟩

/-- The step that gives a node a new child: what the block costs, and that the new node is a leaf. -/
theorem child_none (h : Laid t own bins) (hi : t.Ends w i) (hchild : t.child i b = none) :
    ∃ t' j own' bins', mtrieStep t i b = (t',some j) ∧ Laid t' own' bins' ∧ t'.Ends (w ++ [b]) j ∧
      (t'.nodes j).nchilds = 0 ∧
      t'.current = t.current +
        (if 0 < (t.list (t.nodes i).nchilds).count then 0 else (t.nodes i).nchilds + 1) ∧
      (t'.list 0).count = t.spare (t.nodes i).nchilds ∧ (ArraySized t → ArraySized t') := by
  have hline : MTRIE_LINE_MAX = 256 := rfl
  have hcond : mtrieSeek t.nodes i b < MTRIE_LINE_MAX ∨
      (t.nodes (mtrieSeek t.nodes i b).toNat).key ≠ b := by
    by_contra hcond
    rw [Mtrie.child,if_neg hcond] at hchild
    cases hchild
  have hplace := mtrieSeek_place (h.sorted hi) b
  rw [mtrieStep,if_pos hcond]
  rcases hplace with ⟨q,hq,hx,hkey⟩ | ⟨k,hk,below,above,hx⟩
  · have hfloor := (h.bounds hi (by omega)).1
    rw [hx,Int.toNat_natCast] at hcond
    rcases hcond with hlt | hne
    · omega
    · exact absurd hkey hne
  · have hroom := h.nchilds_lt hi (gap_ne below above)
    obtain ⟨s,pos,bins₁,hpop,hp⟩ := h.pop (n := (t.nodes i).nchilds + 1) (by omega) (by omega)
    obtain ⟨t',ht',hr⟩ := h.newChild_rebuilt hi rfl rfl hk below above hx hpop hp hroom
    obtain ⟨t'',pos',own',bins',hnew,hs,hlaid⟩ := h.newChild hi hk below above hx
    rw [ht',Prod.mk.injEq,Option.some.injEq] at hnew
    obtain ⟨rfl,hpos⟩ := hnew
    obtain ⟨hcurrent,hcount⟩ :=
      mtriePop_counts (t := t) (n := (t.nodes i).nchilds + 1) (by omega) (by omega)
    have hsized : ArraySized t → ArraySized s := by
      intro hsize
      have hpopped := hsize.pop h.capacity ((t.nodes i).nchilds + 1)
      rwa [hpop] at hpopped
    rw [hpop,Nat.add_sub_cancel] at hcurrent
    rw [hpop] at hcount
    refine ⟨t',pos + k,own',bins',ht',hlaid,?_,?_,hr.current.trans hcurrent,?_,fun hsize => ?_⟩
    · rw [hpos]
      exact (h.shape.at_grown hs.grown hi _ _).mpr (.inr ⟨rfl,rfl⟩)
    · rw [hpos,hs.fresh]
      rfl
    · rw [hr.list,Mtrie.spare]
      by_cases hzero : (t.nodes i).nchilds = 0
      · rw [if_neg (by omega),if_pos hzero,hcount,if_pos (by omega)]
      · rw [if_pos (by omega),if_neg hzero]
        rw [if_neg (by omega)] at hcount
        by_cases hone : (t.nodes i).nchilds = 1
        · rw [hone,Function.update_self,hcount,if_pos rfl]
        · rw [Function.update_of_ne (by omega),hcount,if_neg hone]
    · obtain ⟨hsteps,hneeded⟩ := hsized hsize
      exact ⟨by rw [hr.total]; exact hsteps,by rw [hr.total,hr.current]; exact hneeded⟩

/-- Below a leaf, every byte takes a block of one node. -/
theorem child_leaf (hleaf : (t.nodes i).nchilds = 0) : t.child i b = none := by
  have hseek : mtrieSeek t.nodes i b = 0 := if_neg fun hcond => by omega
  rw [Mtrie.child,hseek]
  exact if_pos (.inl (by decide))

theorem walk_leaf (bs : List UInt8) (h : Laid t own bins) (hi : t.Ends w i)
    (hleaf : (t.nodes i).nchilds = 0) (hsize : ArraySized t) :
    (mtrieWalk t i bs).1.current = t.current + (bs.length - (t.list 0).count) ∧
      ArraySized (mtrieWalk t i bs).1 := by
  induction bs generalizing t i w own bins with
  | nil => exact ⟨by rw [mtrieWalk,List.length_nil,Nat.zero_sub,Nat.add_zero],hsize⟩
  | cons b bs ih =>
    obtain ⟨t',j,own',bins',hstep,hlaid,hj,hnext,hcurrent,hcount,hsized⟩ :=
      h.child_none hi (child_leaf hleaf)
    obtain ⟨hrest,hsize'⟩ := ih hlaid hj hnext (hsized hsize)
    rw [mtrieWalk,hstep]
    refine ⟨hrest.trans ?_,hsize'⟩
    rw [hleaf] at hcurrent
    rw [hleaf,Mtrie.spare,if_pos rfl] at hcount
    rw [hcurrent,hcount,List.length_cons]
    split_ifs <;> omega

/-- The loop of `mtrie_add` takes the nodes that the key needs. -/
theorem walk_fresh (bs : List UInt8) (h : Laid t own bins) (hi : t.Ends w i) (hsize : ArraySized t) :
    (mtrieWalk t i bs).1.current = t.current + t.freshAt i bs ∧ ArraySized (mtrieWalk t i bs).1 := by
  induction bs generalizing i w with
  | nil => exact ⟨rfl,hsize⟩
  | cons b bs ih =>
    cases hchild : t.child i b with
    | some j =>
      obtain ⟨hstep,hj⟩ := h.child_some hi hchild
      rw [mtrieWalk,hstep,Mtrie.freshAt,hchild]
      exact ih hj
    | none =>
      obtain ⟨t',j,own',bins',hstep,hlaid,hj,hleaf,hcurrent,hcount,hsized⟩ := h.child_none hi hchild
      obtain ⟨hrest,hsize'⟩ := hlaid.walk_leaf bs hj hleaf (hsized hsize)
      rw [mtrieWalk,hstep,Mtrie.freshAt,hchild]
      refine ⟨hrest.trans ?_,hsize'⟩
      rw [hcurrent,hcount,Nat.add_assoc]

end Laid

/-- What the addition of a key does to the size of the array. -/
theorem Laid.store_sized {t : Mtrie} {own : ℕ → Holder UInt8} {bins : ℕ → List ℕ} (h : Laid t own bins)
    (hsize : ArraySized t) (fail : ℤ) {issue : Mtrie → Mtrie × ℤ}
    (hissue : ∀ s, (issue s).1.current = s.current ∧ (issue s).1.total = s.total) (key : List UInt8) :
    (mtrieStore fail issue t key).1.current = t.current + t.fresh key ∧
      ArraySized (mtrieStore fail issue t key).1 := by
  cases key with
  | nil => exact ⟨rfl,hsize⟩
  | cons b bs =>
    obtain ⟨hcurrent,hsize'⟩ := h.walk_fresh bs (At.root b) hsize
    rw [mtrieStore,Mtrie.fresh]
    dsimp only
    cases (mtrieWalk t b.toNat bs).2 with
    | none => exact ⟨hcurrent,hsize'⟩
    | some i =>
      dsimp only
      split_ifs
      · obtain ⟨hsame,htotal⟩ := hissue (mtrieWalk t b.toNat bs).1
        refine ⟨hsame.trans hcurrent,?_,?_⟩
        · change ∃ k, (issue _).1.total = _
          rw [htotal]
          exact hsize'.steps
        · change (issue _).1.total = _ ∨ (issue _).1.total < (issue _).1.current + _
          rw [htotal,hsame]
          exact hsize'.needed
      · exact ⟨hcurrent,hsize'⟩

/-- The array grows beyond an `int` exactly where there is no room for the key. -/
theorem Laid.store_total {t : Mtrie} {own : ℕ → Holder UInt8} {bins : ℕ → List ℕ} (h : Laid t own bins)
    (hsize : ArraySized t) (fail : ℤ) (issue : Mtrie → Mtrie × ℤ)
    (hissue : ∀ s, (issue s).1.current = s.current ∧ (issue s).1.total = s.total)
    (hlaid : ∀ {t own bins}, Laid t own bins → Laid (issue t).1 own bins) (key : List UInt8) :
    MTRIE_INT_MAX < (mtrieStore fail issue t key).1.total ↔ ¬ t.Room key := by
  obtain ⟨hcurrent,hsize'⟩ := h.store_sized hsize fail hissue key
  obtain ⟨own',bins',h'⟩ := h.store_laid fail hlaid key
  rw [hsize'.overflow_iff h'.capacity,hcurrent,Mtrie.Room,not_le]

end Sbase
