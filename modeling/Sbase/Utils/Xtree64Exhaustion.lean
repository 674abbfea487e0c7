import Sbase.Utils.Xtree64Container

/-! `xtree64` when it runs out of nodes: the lines of its pool, and pushes and additions for every outcome
of `calloc`. -/
namespace Sbase

/-- The tree with its table of lines, each given by its first node, or null. -/
structure XTree64Lines where
  tree : XTree64
  lines : ℕ → Option ℕ

/-- `xtree64_init`, with the table as `calloc` leaves it. -/
def xtree64LinesInit : XTree64Lines := ⟨xtree64Init,fun _ => none⟩

namespace XTree64Lines

/-- The table after `XTNODE64_POP`. What `calloc` returns is stored and counted before it is tested. -/
def popLines (alloc : Bool) (p : XTree64Lines) : ℕ → Option ℕ :=
  if p.tree.list = none ∧ p.tree.nlines < XTRNODE64_LINE_MAX then
    Function.update p.lines p.tree.nlines
      (if alloc then some (XTRNODE64_LINE_NUM * (p.tree.nlines+1)) else none)
  else p.lines

/-- The lines that are counted are there. -/
structure Lined (p : XTree64Lines) : Prop where
  bound : p.tree.nlines ≤ XTRNODE64_LINE_MAX
  lines : ∀ k < p.tree.nlines, (p.lines k).isSome

end XTree64Lines

inductive TreeOp
  | push (key data : ℤ) (alloc : Bool)
  | add (key data : ℤ) (alloc : Bool)
  | pop (s : PointerTree.Side)

namespace TreeOp

/-- The new state and the return value; `none` where a null pointer is stored through. A call that
inserts expands the macro once, `xtree64_add` does not for a key that it finds. -/
def run (p : XTree64Lines) : TreeOp → Option (XTree64Lines × ℤ)
  | push key data alloc =>
    (xtree64Push alloc p.tree key data).map fun r => (⟨r.1,p.popLines alloc⟩,r.2)
  | add key data alloc =>
    (xtree64Add alloc p.tree key data).map fun r =>
      (⟨r.1,if r.2.1 = 1 then p.lines else p.popLines alloc⟩,r.2.1)
  | pop s => (xtree64PopEnd p.tree s).map fun r => (⟨r.1,p.lines⟩,r.2.1)

/-- The pair is stored in exactly one node more, or the call fails and the tree is as it was, with its
ends, its counter and its free list. -/
def InsertsOrFails (t t' : XTree64) (key data ret : ℤ) : Prop :=
  (ret = 0 ∧ t'.total = t.total + 1 ∧ ∃ bag, t.Contains bag ∧ t'.Contains ((key,data) ::ₘ bag)) ∨
    (ret = -1 ∧ { t' with nlines := t.nlines } = t)

/-- The key is the least or the greatest one. -/
def FoundAtEnd (t : XTree64) (key : ℤ) : Prop := ∃ s e, t.kend s = some e ∧ t.key e = key

/-- What the call should do; an addition of a key that it finds returns 1 and does nothing. -/
def Does (p p' : XTree64Lines) (ret : ℤ) : TreeOp → Prop
  | push key data _ => InsertsOrFails p.tree p'.tree key data ret
  | add key data _ =>
    InsertsOrFails p.tree p'.tree key data ret ∨ (FoundAtEnd p.tree key ∧ ret = 1 ∧ p' = p)
  | pop _ => True

/-- The call stores through no null pointer, does what it should and leaves the lines in order. -/
def Survives (p : XTree64Lines) (op : TreeOp) : Prop :=
  ∃ p' ret, op.run p = some (p',ret) ∧ op.Does p p' ret ∧ p'.Lined

/-- A node is free, or a further line is allowed and `calloc` succeeds. -/
def NodeFor (t : XTree64) (alloc : Bool) : Prop :=
  t.list.isSome ∨ (t.nlines < XTRNODE64_LINE_MAX ∧ alloc = true)

/-- The call finds a node, or it does not look for one. -/
def Supplied (p : XTree64Lines) : TreeOp → Prop
  | push _ _ alloc => NodeFor p.tree alloc
  | add key _ alloc => FoundAtEnd p.tree key ∨ NodeFor p.tree alloc
  | pop _ => True

/-- All calls of a sequence have a property, each where the ones before it lead. -/
def Along (P : XTree64Lines → TreeOp → Prop) (p : XTree64Lines) : List TreeOp → Prop
  | [] => True
  | op::ops => P p op ∧ ∀ p' ret, op.run p = some (p',ret) → Along P p' ops

end TreeOp

/-! ### The pool -/

section

variable {alloc : Bool} {t t' : XTree64} {key data : ℤ}

theorem xtnode64Pop_isSome_iff : (xtnode64Pop alloc t).2.isSome ↔ TreeOp.NodeFor t alloc := by
  unfold xtnode64Pop TreeOp.NodeFor
  cases t.list with
  | some i => exact iff_of_true rfl (.inl rfl)
  | none =>
    dsimp only
    split_ifs with hroom halloc
    · exact iff_of_true rfl (.inr ⟨hroom,halloc⟩)
    · exact iff_of_false nofun fun h => h.elim nofun fun h => halloc h.2
    · exact iff_of_false nofun fun h => h.elim nofun fun h => hroom h.1

theorem xtnode64Line_nlines (base x : ℕ) (t : XTree64) : (xtnode64Line base x t).nlines = t.nlines := by
  induction x using Nat.twoStepInduction generalizing t with
  | zero => rfl
  | one => rfl
  | more x _ ih => exact ih _

theorem xtnode64Pop_nlines : (xtnode64Pop alloc t).1.nlines =
    if t.list = none ∧ t.nlines < XTRNODE64_LINE_MAX then t.nlines+1 else t.nlines := by
  unfold xtnode64Pop
  cases t.list with
  | some i => rfl
  | none =>
    dsimp only
    simp only [true_and]
    split_ifs with hroom halloc
    · exact xtnode64Line_nlines _ _ _
    · rfl
    · rfl

theorem xtree64Hang_nlines {s : PointerTree.Side} {xp i : ℕ}
    (h : xtree64Hang alloc t s xp key data = some (t',i)) :
    t'.nlines = (xtnode64Pop alloc t).1.nlines := by
  unfold xtree64Hang at h
  rcases hpop : xtnode64Pop alloc t with ⟨t1,_ | node⟩
  · rw [hpop] at h
    cases h
  · rw [hpop] at h
    cases h
    rfl

theorem xtree64Plant_nlines (h : xtree64Plant alloc t key data = some t') :
    t'.nlines = (xtnode64Pop alloc t).1.nlines := by
  unfold xtree64Plant at h
  rcases hpop : xtnode64Pop alloc t with ⟨t1,_ | node⟩
  · rw [hpop] at h
    cases h
  · rw [hpop] at h
    cases h
    rfl

theorem xtree64Extend_nlines {s : PointerTree.Side} {xp : ℕ}
    (h : xtree64Extend alloc t s xp key data = some t') :
    t'.nlines = (xtnode64Pop alloc t).1.nlines := by
  unfold xtree64Extend at h
  rcases hhang : xtree64Hang alloc t s xp key data with _ | ⟨t1,node⟩
  · rw [hhang] at h
    cases h
  · rw [hhang] at h
    cases h
    exact (XTree64.nlines_setKend _ _ _).trans (xtree64Hang_nlines hhang)

theorem xtree64Descend_nlines {root : ℕ} (h : xtree64Descend alloc t root key data = some t') :
    t'.nlines = (xtnode64Pop alloc t).1.nlines := by
  unfold xtree64Descend at h
  cases hfollow : PointerTree.follow (fun i => (t.nodes i).child (t.dir key i)) t.total.toNat root with
  | none =>
    rw [hfollow] at h
    cases h
  | some xp =>
    rw [hfollow] at h
    obtain ⟨⟨t1,node⟩,hhang,rfl⟩ := Option.map_eq_some_iff.mp h
    exact xtree64Hang_nlines hhang

/-- The attempts to insert that the functions make. -/
inductive Insertion (alloc : Bool) (t : XTree64) (key data : ℤ) : Option XTree64 → Prop
  | plant : Insertion alloc t key data (xtree64Plant alloc t key data)
  | extend (s : PointerTree.Side) (xp : ℕ) : Insertion alloc t key data (xtree64Extend alloc t s xp key data)
  | descend (root : ℕ) : Insertion alloc t key data (xtree64Descend alloc t root key data)

theorem Insertion.nlines (h : Insertion alloc t key data (some t')) :
    t'.nlines = (xtnode64Pop alloc t).1.nlines := by
  generalize hres : some t' = res at h
  cases h with
  | plant => exact xtree64Plant_nlines hres.symm
  | extend s xp => exact xtree64Extend_nlines hres.symm
  | descend root => exact xtree64Descend_nlines hres.symm

theorem Insertion.crash {res : Option XTree64} (h : Insertion alloc t key data res)
    (hnone : ¬ TreeOp.NodeFor t alloc) : res = none := by
  rw [← xtnode64Pop_isSome_iff] at hnone
  cases h with
  | plant => exact XTree64.xtree64Plant_eq_none hnone key data
  | extend s xp => exact XTree64.xtree64Extend_eq_none hnone s xp key data
  | descend root => exact XTree64.xtree64Descend_eq_none hnone root key data

theorem xtree64Push_insertion (alloc : Bool) (t : XTree64) (key data : ℤ) :
    ∃ res, Insertion alloc t key data res ∧ xtree64Push alloc t key data = res.map (·,0) := by
  unfold xtree64Push
  split
  · split_ifs
    · exact ⟨_,.extend _ _,rfl⟩
    · exact ⟨_,.extend _ _,rfl⟩
    · exact ⟨_,.descend _,rfl⟩
    · exact ⟨_,.plant,rfl⟩
  · exact ⟨_,.plant,rfl⟩

theorem xtree64Add_insertion (alloc : Bool) (t : XTree64) (key data : ℤ) :
    (∃ old, xtree64Add alloc t key data = some (t,1,old)) ∨
      ∃ res, Insertion alloc t key data res ∧ xtree64Add alloc t key data = res.map (·,0,none) := by
  unfold xtree64Add
  split
  · split_ifs
    · exact .inl ⟨_,rfl⟩
    · exact .inl ⟨_,rfl⟩
    · exact .inr ⟨_,.extend _ _,rfl⟩
    · exact .inr ⟨_,.extend _ _,rfl⟩
    · exact .inr ⟨_,.descend _,rfl⟩
    · exact .inr ⟨_,.plant,rfl⟩
  · exact .inr ⟨_,.plant,rfl⟩

theorem xtree64Splice_nlines {s : PointerTree.Side} {xp : ℕ} (h : xtree64Splice t s xp = some t') :
    t'.nlines = t.nlines := by
  unfold xtree64Splice at h
  dsimp only at h
  split at h
  · split at h
    · cases h
    · cases h
      rw [XTree64.nlines_setKend]
      cases (t.nodes xp).parent <;> rfl
  · split at h
    · cases h
      exact XTree64.nlines_setKend _ _ _
    · cases h
      exact XTree64.nlines_setKend _ _ _

theorem xtree64PopEnd_nlines {s : PointerTree.Side} {r : ℤ × Option (ℤ × ℤ)}
    (h : xtree64PopEnd t s = some (t',r)) : t'.nlines = t.nlines := by
  unfold xtree64PopEnd at h
  cases hend : t.kend s with
  | none =>
    rw [hend] at h
    cases h
    rfl
  | some xp =>
    rw [hend] at h
    dsimp only at h
    cases hsplice : xtree64Splice t s xp with
    | none =>
      rw [hsplice] at h
      cases h
    | some t1 =>
      rw [hsplice] at h
      cases h
      have hlines := xtree64Splice_nlines hsplice
      split_ifs
      · exact hlines
      · exact hlines

theorem foldl_xtnode64Push_nlines (l : List ℕ) (t : XTree64) :
    (l.foldl xtnode64Push t).nlines = t.nlines := by
  induction l generalizing t with
  | nil => rfl
  | cons i l ih => exact ih _

theorem foldl_xtnode64Push_total (l : List ℕ) (t : XTree64) :
    (l.foldl xtnode64Push t).total = t.total := by
  induction l generalizing t with
  | nil => rfl
  | cons i l ih => exact ih _

theorem xtree64Init_nlines : xtree64Init.nlines = 0 := by
  rw [xtree64Init,foldl_xtnode64Push_nlines]

end

/-! ### The lines -/

namespace XTree64Lines

variable {alloc : Bool} {p : XTree64Lines}

/-- A line from which a node has been taken is there. -/
theorem Lined.popLines (h : p.Lined) (hnode : TreeOp.NodeFor p.tree alloc) {t : XTree64}
    (ht : t.nlines = (xtnode64Pop alloc p.tree).1.nlines) : Lined ⟨t,p.popLines alloc⟩ := by
  rw [xtnode64Pop_nlines] at ht
  by_cases hline : p.tree.list = none ∧ p.tree.nlines < XTRNODE64_LINE_MAX
  · have halloc : alloc = true := by
      rcases hnode with hlist | ⟨-,halloc⟩
      · rw [hline.1] at hlist
        cases hlist
      · exact halloc
    rw [if_pos hline] at ht
    refine ⟨ht.trans_le hline.2,fun k hk => ?_⟩
    change (XTree64Lines.popLines alloc p k).isSome
    rw [XTree64Lines.popLines,if_pos hline,halloc]
    by_cases hlast : k = p.tree.nlines
    · rw [hlast,Function.update_self]
      rfl
    · rw [Function.update_of_ne hlast]
      apply h.lines k
      rw [ht] at hk
      omega
  · rw [if_neg hline] at ht
    rw [XTree64Lines.popLines,if_neg hline]
    exact ⟨ht.trans_le h.bound,fun k hk => h.lines k (hk.trans_eq ht)⟩

/-- A tree in order, with its lines in order. -/
structure Sound (p : XTree64Lines) : Prop where
  holds : ∃ tree free, p.tree.Holds tree free
  lined : p.Lined

theorem xtree64LinesInit_sound : xtree64LinesInit.Sound := by
  obtain ⟨free,hholds⟩ := XTree64.xtree64Init_holds
  have hzero := xtree64Init_nlines
  rw [xtree64LinesInit]
  generalize xtree64Init = t at hholds hzero ⊢
  exact ⟨⟨_,_,hholds⟩,hzero.trans_le (Nat.zero_le _),fun k hk => absurd (hk.trans_eq hzero) (Nat.not_lt_zero k)⟩

open TreeOp

theorem insertsOrFails_of_holds {t t' : XTree64} {tree tree' : PointerTree.PTree ℕ} {free free' : List ℕ}
    {key data : ℤ} (h : t.Holds tree free) (h' : t'.Holds tree' free')
    (hbag : t'.contents tree' = (key,data) ::ₘ t.contents tree) : InsertsOrFails t t' key data 0 := by
  have hcard := congrArg Multiset.card hbag
  rw [Multiset.card_cons,XTree64.contents,XTree64.contents,Multiset.coe_card,Multiset.coe_card,
    List.length_map,List.length_map] at hcard
  refine .inl ⟨rfl,?_,_,h.contains,hbag ▸ h'.contains⟩
  rw [h'.total_eq,h.total_eq,hcard]
  rfl

/-- A call that finds a node does what it should. -/
theorem Sound.step (h : p.Sound) {op : TreeOp} (hop : op.Supplied p) :
    ∃ p' ret, op.run p = some (p',ret) ∧ op.Does p p' ret ∧ p'.Sound := by
  obtain ⟨tree,free,hholds⟩ := h.holds
  cases op with
  | push key data alloc =>
    obtain ⟨res,hinsert,hpush⟩ := xtree64Push_insertion alloc p.tree key data
    obtain ⟨t',hdone,tree',free',hholds',hbag⟩ :=
      hholds.xtree64Push (xtnode64Pop_isSome_iff.mpr hop) key data
    obtain ⟨t1,rfl,ht1⟩ := Option.map_eq_some_iff.mp (hpush.symm.trans hdone)
    cases ht1
    refine ⟨⟨t',p.popLines alloc⟩,0,?_,insertsOrFails_of_holds hholds hholds' hbag,⟨_,_,hholds'⟩,?_⟩
    · rw [run,hdone]
      rfl
    · exact h.lined.popLines hop hinsert.nlines
  | add key data alloc =>
    rcases hholds.xtree64Add alloc key data with ⟨s,e,hend,hkey,hfound⟩ | ⟨hne,res,hadd,hins⟩
    · refine ⟨p,1,?_,.inr ⟨⟨s,e,hend,hkey⟩,rfl,rfl⟩,h⟩
      rw [run,hfound]
      rfl
    · have hnode : NodeFor p.tree alloc := by
        rcases hop with ⟨s,e,hend,hkey⟩ | hnode
        · exact absurd hkey (hne s e hend)
        · exact hnode
      obtain ⟨t',rfl,tree',free',hholds',hbag⟩ := hins.insert (xtnode64Pop_isSome_iff.mpr hnode)
      have hlines : t'.nlines = (xtnode64Pop alloc p.tree).1.nlines := by
        rcases xtree64Add_insertion alloc p.tree key data with ⟨old,hfound⟩ | ⟨res,hinsert,hadd'⟩
        · cases hfound.symm.trans hadd
        · obtain ⟨t1,rfl,ht1⟩ := Option.map_eq_some_iff.mp (hadd'.symm.trans hadd)
          cases ht1
          exact hinsert.nlines
      refine ⟨⟨t',p.popLines alloc⟩,0,?_,.inl (insertsOrFails_of_holds hholds hholds' hbag),⟨_,_,hholds'⟩,?_⟩
      · rw [run,hadd]
        rfl
      · exact h.lined.popLines hnode hlines
  | pop s =>
    obtain ⟨t',ret,out,tree',free',hpop,hholds',-⟩ := hholds.pop_serves s
    have hlines := xtree64PopEnd_nlines hpop
    refine ⟨⟨t',p.lines⟩,ret,?_,trivial,⟨_,_,hholds'⟩,?_⟩
    · rw [run,hpop]
      rfl
    · exact ⟨hlines.trans_le h.lined.bound,fun k hk => h.lined.lines k (hk.trans_eq hlines)⟩

/-- Without a node the call stores through a null pointer. -/
theorem Sound.crash (h : p.Sound) {op : TreeOp} (hop : ¬ op.Supplied p) : op.run p = none := by
  obtain ⟨tree,free,hholds⟩ := h.holds
  cases op with
  | push key data alloc =>
    obtain ⟨res,hinsert,hpush⟩ := xtree64Push_insertion alloc p.tree key data
    rw [run,hpush,hinsert.crash hop]
    rfl
  | add key data alloc =>
    rcases hholds.xtree64Add alloc key data with ⟨s,e,hend,hkey,-⟩ | ⟨-,res,hadd,hins⟩
    · exact absurd (Or.inl ⟨s,e,hend,hkey⟩) hop
    · rw [run,hadd,hins.crash fun hnode => hop (.inr (xtnode64Pop_isSome_iff.mp hnode))]
      rfl
  | pop s => exact absurd trivial hop

theorem Sound.survives_iff (h : p.Sound) (op : TreeOp) : op.Survives p ↔ op.Supplied p := by
  constructor
  · rintro ⟨p',ret,hrun,-⟩
    by_contra hop
    cases (h.crash hop).symm.trans hrun
  · intro hop
    obtain ⟨p',ret,hrun,hdoes,h'⟩ := h.step hop
    exact ⟨p',ret,hrun,hdoes,h'.lined⟩

theorem Sound.run (h : p.Sound) {op : TreeOp} {p' : XTree64Lines} {ret : ℤ}
    (hrun : op.run p = some (p',ret)) : p'.Sound := by
  by_cases hop : op.Supplied p
  · obtain ⟨p1,ret1,hrun1,-,h1⟩ := h.step hop
    cases hrun1.symm.trans hrun
    exact h1
  · cases (h.crash hop).symm.trans hrun

theorem Sound.along_iff (h : p.Sound) (ops : List TreeOp) : Along Survives p ops ↔ Along Supplied p ops := by
  induction ops generalizing p with
  | nil => exact Iff.rfl
  | cons op ops ih =>
    simp only [Along,h.survives_iff op]
    exact and_congr_right fun _ => forall₂_congr fun p' ret => imp_congr_right fun hrun => ih (h.run hrun)

/-- No more nodes are in use than there are. -/
theorem Sound.total_le (h : p.Sound) : p.tree.total ≤ XTRNODE64_LINE_NUM * (p.tree.nlines+1 : ℕ) := by
  obtain ⟨tree,free,hholds⟩ := h.holds
  have hnodup := (List.nodup_append.mp hholds.nodup).1
  have hsub : (tree.walk .left).toFinset ⊆ Finset.range (XTRNODE64_LINE_NUM * (p.tree.nlines+1)) := by
    intro i hi
    exact Finset.mem_range.mpr (hholds.bounded i (List.mem_append_left free (List.mem_toFinset.mp hi)))
  have hcard := Finset.card_le_card hsub
  rw [List.toFinset_card_of_nodup hnodup,Finset.card_range] at hcard
  rw [hholds.total_eq]
  exact_mod_cast hcard

/-- Pushes that survive without `calloc` take their nodes from the free list. -/
theorem Sound.total_add_le {key data : ℤ} {n : ℕ} (h : p.Sound)
    (hall : Along Survives p (List.replicate n (.push key data false))) :
    p.tree.total + n ≤ XTRNODE64_LINE_NUM * (p.tree.nlines+1 : ℕ) := by
  induction n generalizing p with
  | zero =>
    rw [Nat.cast_zero,add_zero]
    exact h.total_le
  | succ n ih =>
    obtain ⟨hsurvives,hrest⟩ := hall
    have hnode : NodeFor p.tree false := (h.survives_iff _).mp hsurvives
    obtain ⟨p',ret,hrun,hdoes,-⟩ := hsurvives
    obtain ⟨res,hinsert,hpush⟩ := xtree64Push_insertion false p.tree key data
    rw [TreeOp.run,hpush,Option.map_map] at hrun
    obtain ⟨t',rfl,ht'⟩ := Option.map_eq_some_iff.mp hrun
    cases ht'
    have hlines : t'.nlines = p.tree.nlines := by
      rw [hinsert.nlines,xtnode64Pop_nlines,if_neg]
      rintro ⟨hempty,-⟩
      rcases hnode with hlist | ⟨-,halloc⟩
      · rw [hempty] at hlist
        cases hlist
      · cases halloc
    have htotal : t'.total = p.tree.total + 1 := by
      rcases hdoes with ⟨-,htotal,-⟩ | ⟨hret,-⟩
      · exact htotal
      · cases hret
    have hdone : (TreeOp.push key data false).run p = some (⟨t',p.popLines false⟩,0) := by
      rw [TreeOp.run,hpush]
      rfl
    have hih := ih (h.run hdone) (hrest _ _ hdone)
    dsimp only at hih
    rw [hlines,htotal] at hih
    rw [Nat.cast_succ,add_comm (n : ℤ) 1,← add_assoc]
    exact hih

end XTree64Lines

/-- From `xtree64_init` on, all calls of a sequence survive exactly when each that needs a node finds one. -/
theorem xtree64_exhaustion_iff (ops : List TreeOp) :
    TreeOp.Along TreeOp.Survives xtree64LinesInit ops ↔ TreeOp.Along TreeOp.Supplied xtree64LinesInit ops :=
  XTree64Lines.xtree64LinesInit_sound.along_iff ops

/-- The nodes of `xtree64_init` are used up after 2048 pushes; the next push does not survive a failing
`calloc`. -/
theorem xtree64_push_exhausted : ¬ TreeOp.Along TreeOp.Survives xtree64LinesInit
    (List.replicate 2049 (.push 0 0 false)) := by
  intro hall
  have htotal : xtree64LinesInit.tree.total = 0 := foldl_xtnode64Push_total _ _
  have hle := XTree64Lines.xtree64LinesInit_sound.total_add_le hall
  rw [htotal,xtree64LinesInit,xtree64Init_nlines,XTRNODE64_LINE_NUM] at hle
  norm_num at hle

end Sbase
