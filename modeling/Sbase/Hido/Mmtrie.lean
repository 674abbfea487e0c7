import Sbase.Utils.MtrieMap

/-! The trie of `mmtrie.c`, in a mapped file. Its nodes, its free lists and its searches are those of the
trie in memory; it grows in larger steps, has no blocks of 256 nodes, and a lookup that finds no node
returns -1.

The calls of the system succeed, and the file reads as zero beyond what has been written. Its counters, which are
`int`s, are numbers here: a run is one in which they do not overflow. -/
namespace Sbase
open BlockTree

def MMTRIE_LINE_MAX : ℕ := 256
def MMTRIE_INCREMENT_NUM : ℕ := 5000000

/-- `MMTRIE_MAP_INIT` for an empty file. -/
def mmtrieInit : Mtrie where
  id := 0
  current := MMTRIE_LINE_MAX
  total := MMTRIE_INCREMENT_NUM
  left := MMTRIE_INCREMENT_NUM - MMTRIE_LINE_MAX
  list _ := ⟨0,0⟩
  nodes _ := .zero

/-- `MMTRIE_INCREMENT` -/
def mmtrieIncrement (t : Mtrie) : Mtrie :=
  { t with total := t.total + MMTRIE_INCREMENT_NUM, left := t.left + MMTRIE_INCREMENT_NUM }

/-- `MMTRIE_PUSH` -/
def mmtriePush (t : Mtrie) (num pos : ℕ) : Mtrie :=
  if MMTRIE_LINE_MAX ≤ pos ∧ 0 < num ∧ num < MMTRIE_LINE_MAX then
    let l := t.list (num - 1)
    (t.modify pos fun d => { d with childs := l.head }).setList (num - 1) ⟨l.count + 1,pos⟩
  else t

/-- `MMTRIE_POP`, with no position where the source leaves -1. -/
def mmtriePop (t : Mtrie) (num : ℕ) : Mtrie × Option ℕ :=
  if num < MMTRIE_LINE_MAX then
    let l := t.list (num - 1)
    if 0 < l.count then
      (t.setList (num - 1) ⟨l.count - 1,(t.nodes l.head).childs⟩, some l.head)
    else
      let t := if t.left < num then mmtrieIncrement t else t
      ({ t with current := t.current + num, left := t.left - num }, some t.current)
  else (t,none)

/-- The branch of `mmtrie_xadd` that gives the node `i` a new child, at which it goes on. -/
def mmtrieNewChild (t : Mtrie) (i : ℕ) (x : ℤ) (b : UInt8) : Mtrie × Option ℕ :=
  let n := (t.nodes i).nchilds + 1
  let z := (t.nodes i).childs
  let r := mmtriePop t n
  match r.2 with
  | some pos =>
    if pos < MMTRIE_LINE_MAX then (r.1,none)
    else
      let s := mtrieSpread r.1.nodes x b pos z n
      let t := { r.1 with nodes := s.1 }
      let t := mmtriePush t (t.nodes i).nchilds (t.nodes i).childs
      (t.modify i fun d => { d with nchilds := d.nchilds + 1, childs := pos }, some s.2)
  | none => (r.1,none)

/-- One byte of the loop of `mmtrie_xadd`. -/
def mmtrieStep (t : Mtrie) (i : ℕ) (b : UInt8) : Mtrie × Option ℕ :=
  let x := mtrieSeek t.nodes i b
  if x < MMTRIE_LINE_MAX ∨ (t.nodes x.toNat).key ≠ b then mmtrieNewChild t i x b
  else (t,some x.toNat)

/-- The loop of `mmtrie_xadd`, with the node that it ends at. -/
def mmtrieWalk (t : Mtrie) (i : ℕ) : List UInt8 → Mtrie × Option ℕ
  | [] => (t,some i)
  | b::bs =>
    match (mmtrieStep t i b).2 with
    | some j => mmtrieWalk (mmtrieStep t i b).1 j bs
    | none => ((mmtrieStep t i b).1,none)

/-- `mmtrie_xadd` -/
def mmtrieXadd (t : Mtrie) : List UInt8 → Mtrie × ℤ
  | [] => (t,-1)
  | b::bs =>
    let r := mmtrieWalk t b.toNat bs
    match r.2 with
    | some i =>
      if (r.1.nodes i).data = 0 then
        ({ r.1 with id := r.1.id + 1 }.modify i fun d => { d with data := r.1.id + 1 }, r.1.id + 1)
      else (r.1,(r.1.nodes i).data)
    | none => (r.1,-1)

/-- `mmtrie_get` -/
def mmtrieGet (t : Mtrie) : List UInt8 → ℤ
  | [] => -1
  | b::bs =>
    if bs = [] ∧ b.toNat < t.total then (t.nodes b.toNat).data
    else (mtrieLookup t b.toNat bs).elim (-1) fun i => (t.nodes i).data

/-! ### Adding a key -/

/-- Whether a key leads to a node. -/
def Mtrie.Path (t : Mtrie) (w : List UInt8) : Prop := ∃ i, t.Ends w i

/-- A trie whose file has room for `g` more nodes. -/
def Mtrie.wider (t : Mtrie) (g : ℕ) : Mtrie := { t with total := t.total + g, left := t.left + g }

section

variable {t : Mtrie} {own : ℕ → Holder UInt8} {bins : ℕ → List ℕ} {w : List UInt8} {i k : ℕ} {b : UInt8}
  {x : ℤ}

theorem Laid.wider (h : Laid t own bins) (g : ℕ) : Laid (t.wider g) own bins :=
  ⟨h.shape,h.bounds,h.lists,h.blocks,h.free,h.wild,h.room,by
    rw [Mtrie.wider,← h.capacity,Nat.add_assoc]⟩

theorem Stores.wider {m : List UInt8 → ℤ} (hm : Stores t m) (g : ℕ) : Stores (t.wider g) m :=
  ⟨hm.roots,hm.ends,hm.absent⟩

/-- In a file that has been made long enough, a block is taken as in memory. -/
theorem mmtriePop_eq (t : Mtrie) {n : ℕ} (hpos : 0 < n) (hroom : n < MMTRIE_LINE_MAX) :
    ∃ g, mmtriePop t n = mtriePop (t.wider g) n := by
  have hblock : 0 < n ∧ n ≤ MTRIE_LINE_MAX := ⟨hpos,hroom.le⟩
  have hbig : n ≤ MMTRIE_INCREMENT_NUM := hblock.2.trans (by decide)
  unfold mmtriePop mtriePop Mtrie.wider
  simp only [if_pos hroom,if_pos hblock]
  by_cases hcount : 0 < (t.list (n - 1)).count
  · refine ⟨0,?_⟩
    rw [if_pos hcount,if_pos hcount]
    rfl
  · by_cases hleft : t.left < n
    · refine ⟨MMTRIE_INCREMENT_NUM,?_⟩
      rw [if_neg hcount,if_neg hcount,if_pos hleft,if_neg (by omega)]
      rfl
    · refine ⟨0,?_⟩
      rw [if_neg hcount,if_neg hcount,if_neg hleft,if_neg (by omega)]
      rfl

/-- A node with room for a child is given it as in memory. -/
theorem Laid.mmtrieNewChild_eq (h : Laid t own bins) (hi : t.Ends w i) (hk : k ≤ (t.nodes i).nchilds)
    (hroom : (t.nodes i).nchilds + 1 < MMTRIE_LINE_MAX)
    (below : ∀ q < k, (t.nodes ((t.nodes i).childs + q)).key.toNat < b.toNat)
    (above : ∀ q, k ≤ q → q < (t.nodes i).nchilds →
      b.toNat < (t.nodes ((t.nodes i).childs + q)).key.toNat)
    (hx : (t.nodes i).nchilds = 0 ∧ x = 0 ∨ 0 < (t.nodes i).nchilds ∧ k = 0 ∧ x = -1 ∨
      0 < (t.nodes i).nchilds ∧ k = (t.nodes i).nchilds ∧ x = 1 ∨
      0 < k ∧ k < (t.nodes i).nchilds ∧ x = ((t.nodes i).childs + (k - 1) : ℕ)) :
    ∃ g, mmtrieNewChild t i x b = mtrieNewChild (t.wider g) i x b := by
  obtain ⟨g,hpop⟩ := mmtriePop_eq t (n := (t.nodes i).nchilds + 1) (by omega) hroom
  have hg := h.wider g
  have hnodes : (t.wider g).nodes = t.nodes := rfl
  obtain ⟨s,pos,bins',hs,hp⟩ := hg.pop (n := (t.nodes i).nchilds + 1) (by omega) hroom.le
  obtain ⟨hspread,hself⟩ := hg.spread_new hi hp hk below above hx
  rw [hnodes] at hspread hself
  have hfloor : ¬ pos < MMTRIE_LINE_MAX := not_lt.mpr hp.floor
  have hblock : ¬ (pos < MTRIE_LINE_MAX ∨ s.current < pos) := by
    have := hp.floor
    have := hp.top
    omega
  have hpush : ∀ u : Mtrie, mmtriePush u (t.nodes i).nchilds (t.nodes i).childs =
      mtriePush u (t.nodes i).nchilds (t.nodes i).childs := by
    intro u
    unfold mmtriePush mtriePush MMTRIE_LINE_MAX MTRIE_LINE_MAX at *
    congr 1
    rw [eq_iff_iff]
    omega
  refine ⟨g,?_⟩
  simp only [mmtrieNewChild,mtrieNewChild,hnodes,hpop,hs,if_neg hfloor,if_neg hblock,hspread,hself,hpush]

/-- What a part of the loop does that ends at the node of `v`: no data changes, and the paths that are new
lead to `v`. -/
structure Reached (t t' : Mtrie) (v : List UInt8) (j : ℕ) : Prop where
  laid : ∃ own bins, Laid t' own bins
  ends : t'.Ends v j
  id : t'.id = t.id
  stores : ∀ m, Stores t m → Stores t' m
  paths : ∀ u, t'.Path u → t.Path u ∨ u <+: v

theorem Reached.trans {t' t'' : Mtrie} {v : List UInt8} {bs : List UInt8} {i j : ℕ} (h : Reached t t' v i)
    (h' : Reached t' t'' (v ++ bs) j) : Reached t t'' (v ++ bs) j where
  laid := h'.laid
  ends := h'.ends
  id := h'.id.trans h.id
  stores m hm := h'.stores m (h.stores m hm)
  paths u hu := by
    rcases h'.paths u hu with hu | hu
    · exact (h.paths u hu).imp_right fun hu => hu.trans (List.prefix_append ..)
    · exact .inr hu

/-- One byte: the child is there or is made, with no children of its own, unless the node has 255 others. -/
theorem Laid.mmtrieStep (h : Laid t own bins) (hi : t.Ends w i) (b : UInt8) :
    (∃ t' j, Sbase.mmtrieStep t i b = (t',some j) ∧ Reached t t' (w ++ [b]) j ∧
      (t' = t ∧ 0 < (t.nodes i).nchilds ∨ (t'.nodes j).nchilds = 0)) ∨
      Sbase.mmtrieStep t i b = (t,none) ∧ 0 < (t.nodes i).nchilds := by
  have hline : MTRIE_LINE_MAX = 256 := rfl
  have hmm : MMTRIE_LINE_MAX = 256 := rfl
  unfold Sbase.mmtrieStep
  rcases mtrieSeek_place (h.sorted hi) b with ⟨q,hq,hx,hkey⟩ | ⟨k,hk,below,above,hx⟩
  · have hfloor := (h.bounds hi (by omega)).1
    dsimp only
    rw [hx,if_neg]
    · refine .inl ⟨t,_,rfl,⟨⟨own,bins,h⟩,?_,rfl,fun _ hm => hm,fun u hu => .inl hu⟩,.inl ⟨rfl,by omega⟩⟩
      rw [Int.toNat_natCast,← hkey]
      exact hi.child (Laid.isChild q hq)
    · rw [Int.toNat_natCast,hkey]
      simp only [ne_eq,not_true_eq_false,or_false]
      omega
  · have hb := gap_ne below above
    have hcond : mtrieSeek t.nodes i b < MMTRIE_LINE_MAX ∨
        (t.nodes (mtrieSeek t.nodes i b).toNat).key ≠ b := mtrieSeek_absent (h.sorted hi) hb
    dsimp only
    rw [if_pos hcond]
    by_cases hroom : (t.nodes i).nchilds + 1 < MMTRIE_LINE_MAX
    · obtain ⟨g,heq⟩ := h.mmtrieNewChild_eq hi hk hroom below above hx
      have hg := h.wider g
      obtain ⟨t',pos,own',bins',hnew,hs,hlaid⟩ := hg.newChild hi hk below above hx
      have hat := hg.shape.at_grown hs.grown hi
      refine .inl ⟨t',pos + k,heq.trans hnew,⟨⟨own',bins',hlaid⟩,?_,hs.id,fun m hm => ?_,?_⟩,.inr ?_⟩
      · exact (hat _ _).mpr (.inr ⟨rfl,rfl⟩)
      · exact hs.stores hg hi hb (hm.wider g)
      · rintro u ⟨j,hj⟩
        rcases (hat u j).mp hj with ⟨j',hj',-⟩ | ⟨rfl,-⟩
        · exact .inl ⟨j',hj'⟩
        · exact .inr List.prefix_rfl
      · rw [hs.fresh]
        rfl
    · refine .inr ⟨?_,by omega⟩
      have hpop : mmtriePop t ((t.nodes i).nchilds + 1) = (t,none) := if_neg hroom
      simp only [mmtrieNewChild,hpop]

/-- The loop ends at the node of the whole key, or at a node with 255 children and nothing has changed. -/
theorem Laid.mmtrieWalk (bs : List UInt8) (h : Laid t own bins) (hi : t.Ends w i) :
    (∃ t' j, Sbase.mmtrieWalk t i bs = (t',some j) ∧ Reached t t' (w ++ bs) j) ∨
      Sbase.mmtrieWalk t i bs = (t,none) ∧ 0 < (t.nodes i).nchilds := by
  induction bs generalizing t i w own bins with
  | nil =>
    rw [List.append_nil]
    exact .inl ⟨t,i,rfl,⟨own,bins,h⟩,hi,rfl,fun _ hm => hm,fun u hu => .inl hu⟩
  | cons b bs ih =>
    have hsplit : w ++ b::bs = (w ++ [b]) ++ bs := by simp
    rcases h.mmtrieStep hi b with ⟨t₁,j,hstep,hreach,hnew⟩ | ⟨hstep,hpos⟩
    · obtain ⟨own₁,bins₁,h₁⟩ := hreach.laid
      rw [hsplit,Sbase.mmtrieWalk,hstep]
      rcases ih h₁ hreach.ends with ⟨t₂,k,hwalk,hrest⟩ | ⟨hwalk,hpos⟩
      · exact .inl ⟨t₂,k,hwalk,hreach.trans hrest⟩
      · rcases hnew with ⟨rfl,hkids⟩ | hleaf
        · exact .inr ⟨hwalk,hkids⟩
        · omega
    · refine .inr ⟨?_,hpos⟩
      rw [Sbase.mmtrieWalk,hstep]

end

end Sbase
