import Sbase.Lib.BlockTree
import Sbase.Lib.LinkedList
import Sbase.Utils.Mtrie

/-! The layout of a trie: the blocks of children, the free lists, and what each operation on the
array does to them. -/
namespace Sbase
open BlockTree LinkedList Bisect

namespace Mtrie

/-- The links of the nodes of a trie. -/
def links (t : Mtrie) : Links UInt8 where
  key i := (t.nodes i).key
  nchilds i := (t.nodes i).nchilds
  childs i := (t.nodes i).childs

/-- The node at the end of a key. -/
abbrev Ends (t : Mtrie) : List UInt8 → ℕ → Prop := At t.links UInt8.toNat

end Mtrie

/-! ### Copies -/

theorem mtrnodeCopy_apply {m : ℕ} {nodes : ℕ → MtrNode} {dst src : ℕ}
    (hd : ∀ a < m, ∀ c < m, dst + a ≠ src + c) (q : ℕ) : mtrnodeCopy nodes dst src m q =
      if dst ≤ q ∧ q < dst + m then nodes (src + (q - dst)) else nodes q := by
  induction m generalizing nodes dst src with
  | zero =>
    rw [mtrnodeCopy,if_neg (by omega)]
  | succ m ih =>
    rw [mtrnodeCopy,ih fun a ha c hc => by have := hd (a+1) (by omega) (c+1) (by omega); omega]
    by_cases hq : dst + 1 ≤ q ∧ q < dst + 1 + m
    · have hsrc : src + 1 + (q - (dst + 1)) = src + (q - dst) := by omega
      have hne : src + (q - dst) ≠ dst := by
        have := hd 0 (by omega) (q - dst) (by omega)
        omega
      rw [if_pos hq,if_pos (by omega),hsrc,Function.update_of_ne hne]
    · rw [if_neg hq]
      by_cases hqd : q = dst
      · subst hqd
        rw [Function.update_self,if_pos (by omega),Nat.sub_self,Nat.add_zero]
      · rw [Function.update_of_ne hqd,if_neg (by omega)]

/-- The copy below a byte stops at the first key that is not below it. -/
theorem mtrnodeCopyBelow_eq {k m : ℕ} {b : UInt8} {nodes : ℕ → MtrNode} {dst src : ℕ} (hk : k < m)
    (hd : ∀ a < k, ∀ c ≤ k, dst + a ≠ src + c)
    (hbelow : ∀ c < k, (nodes (src + c)).key.toNat < b.toNat)
    (hstop : ¬ (nodes (src + k)).key.toNat < b.toNat) :
    mtrnodeCopyBelow b nodes dst src m = (mtrnodeCopy nodes dst src k,dst + k,src + k) := by
  induction k generalizing m nodes dst src with
  | zero =>
    obtain ⟨m,rfl⟩ : ∃ l, m = l + 1 := ⟨m - 1,by omega⟩
    rw [Nat.add_zero] at hstop
    rw [mtrnodeCopyBelow,if_neg hstop]
    rfl
  | succ k ih =>
    obtain ⟨m,rfl⟩ : ∃ l, m = l + 1 := ⟨m - 1,by omega⟩
    have hne : ∀ c ≤ k, src + 1 + c ≠ dst := by
      intro c hc
      have := hd 0 (by omega) (c + 1) (by omega)
      omega
    have hread : ∀ c ≤ k, Function.update nodes dst (nodes src) (src + 1 + c) =
        nodes (src + (c + 1)) := by
      intro c hc
      rw [Function.update_of_ne (hne c hc)]
      congr 1
      omega
    rw [mtrnodeCopyBelow,if_pos (by simpa using hbelow 0 (by omega)),
      ih (by omega) (fun a ha c hc => by have := hd (a+1) (by omega) (c+1) (by omega); omega)
        (fun c hc => by rw [hread c (by omega)]; exact hbelow (c+1) (by omega))
        (by rw [hread k le_rfl]; exact hstop)]
    simp only [mtrnodeCopy,Prod.mk.injEq,true_and]
    omega

/-- The nodes after `m` of them at `z` have been copied to `pos` around a new one at place `k`. -/
def spread (nodes : ℕ → MtrNode) (pos z m k : ℕ) (b : UInt8) (q : ℕ) : MtrNode :=
  if pos ≤ q ∧ q < pos + (m + 1) then
    if q = pos + k then mtrnodeSetk b
    else if q < pos + k then nodes (z + (q - pos))
    else nodes (z + (q - pos - 1))
  else nodes q

/-- Copying the nodes before the new one, the new one, and the nodes after it. -/
theorem spread_eq (nodes : ℕ → MtrNode) {pos z m k : ℕ} (b : UInt8) (hk : k ≤ m)
    (hd : ∀ a < m + 1, ∀ c < m, pos + a ≠ z + c) :
    mtrnodeCopy (Function.update (mtrnodeCopy nodes pos z k) (pos + k) (mtrnodeSetk b))
      (pos + k + 1) (z + k) (m - k) = spread nodes pos z m k b := by
  funext q
  rw [mtrnodeCopy_apply fun a ha c hc => by
    have := hd (k + 1 + a) (by omega) (k + c) (by omega)
    omega]
  have hcopy : ∀ q, mtrnodeCopy nodes pos z k q =
      if pos ≤ q ∧ q < pos + k then nodes (z + (q - pos)) else nodes q :=
    mtrnodeCopy_apply fun a ha c hc => hd a (by omega) c (by omega)
  by_cases hafter : pos + k + 1 ≤ q ∧ q < pos + k + 1 + (m - k)
  · have hsrc : z + k + (q - (pos + k + 1)) = z + (q - pos - 1) := by omega
    have hne : z + (q - pos - 1) ≠ pos + k := by
      have := hd k (by omega) (q - pos - 1) (by omega)
      omega
    have hout : ¬ (pos ≤ z + (q - pos - 1) ∧ z + (q - pos - 1) < pos + k) := by
      intro hin
      have := hd (z + (q - pos - 1) - pos) (by omega) (q - pos - 1) (by omega)
      omega
    rw [if_pos hafter,hsrc,Function.update_of_ne hne,hcopy,if_neg hout,spread,if_pos (by omega),
      if_neg (by omega),if_neg (by omega)]
  · rw [if_neg hafter,spread]
    by_cases hself : q = pos + k
    · rw [hself,Function.update_self,if_pos (by omega),if_pos rfl]
    · rw [Function.update_of_ne hself,hcopy]
      by_cases hbefore : pos ≤ q ∧ q < pos + k
      · rw [if_pos hbefore,if_pos (by omega),if_neg hself,if_pos hbefore.2]
      · rw [if_neg hbefore,if_neg (by omega)]

/-! ### The search -/

/-- The place of a byte among the children of a node, whose keys are sorted: at a child, or between
those before place `k` and those from `k` on, with the value by which `mtrie_add` tells the ends and
the middle apart. -/
inductive Place (nodes : ℕ → MtrNode) (i : ℕ) (b : UInt8) (x : ℤ) : Prop
  | found (q : ℕ) (hq : q < (nodes i).nchilds) (hx : x = ((nodes i).childs + q : ℕ))
    (hkey : (nodes ((nodes i).childs + q)).key = b)
  | gap (k : ℕ) (hk : k ≤ (nodes i).nchilds)
    (below : ∀ q < k, (nodes ((nodes i).childs + q)).key.toNat < b.toNat)
    (above : ∀ q, k ≤ q → q < (nodes i).nchilds →
      b.toNat < (nodes ((nodes i).childs + q)).key.toNat)
    (hx : (nodes i).nchilds = 0 ∧ x = 0 ∨ 0 < (nodes i).nchilds ∧ k = 0 ∧ x = -1 ∨
      0 < (nodes i).nchilds ∧ k = (nodes i).nchilds ∧ x = 1 ∨
      0 < k ∧ k < (nodes i).nchilds ∧ x = ((nodes i).childs + (k - 1) : ℕ))

/-- At a gap there is no child with the byte. -/
theorem gap_ne {nodes : ℕ → MtrNode} {z m k : ℕ} {b : UInt8}
    (below : ∀ q < k, (nodes (z + q)).key.toNat < b.toNat)
    (above : ∀ q, k ≤ q → q < m → b.toNat < (nodes (z + q)).key.toNat) :
    ∀ q < m, (nodes (z + q)).key ≠ b := by
  rintro q hq rfl
  rcases lt_or_ge q k with hlt | hge
  · exact absurd (below q hlt) (lt_irrefl _)
  · exact absurd (above q hge hq) (lt_irrefl _)

/-- What is required of a node for the search in its children. -/
structure Sorted (nodes : ℕ → MtrNode) (i : ℕ) : Prop where
  floor : 0 < (nodes i).nchilds → MTRIE_LINE_MAX ≤ (nodes i).childs
  keys : ∀ q r, q < r → r < (nodes i).nchilds →
    (nodes ((nodes i).childs + q)).key.toNat < (nodes ((nodes i).childs + r)).key.toNat

theorem Sorted.le {nodes : ℕ → MtrNode} {i q r : ℕ} (h : Sorted nodes i) (hqr : q ≤ r)
    (hr : r < (nodes i).nchilds) : (nodes ((nodes i).childs + q)).key.toNat ≤
      (nodes ((nodes i).childs + r)).key.toNat := by
  rcases hqr.lt_or_eq with hlt | rfl
  · exact (h.keys q r hlt hr).le
  · exact le_rfl

theorem mtrieSeek_place {nodes : ℕ → MtrNode} {i : ℕ} (h : Sorted nodes i) (b : UInt8) :
    Place nodes i b (mtrieSeek nodes i b) := by
  have hle := fun {q r} => h.le (q := q) (r := r)
  have hfloor := h.floor
  obtain ⟨m,hm⟩ : ∃ m, m = (nodes i).nchilds := ⟨_,rfl⟩
  obtain ⟨z,hz⟩ : ∃ z, z = (nodes i).childs := ⟨_,rfl⟩
  rw [← hm] at hle hfloor
  rw [← hz] at hle hfloor
  simp only [mtrieSeek,← hm,← hz]
  by_cases hpos : 0 < m
  · have hlast : z + m - 1 = z + (m - 1) := by omega
    rw [if_pos ⟨hpos,hfloor hpos⟩,hlast]
    split_ifs with hmin hmax hbefore hafter
    · exact .found 0 (by omega) (by rw [← hz]; rfl) (by rw [← hz]; exact hmin.symm)
    · exact .found (m - 1) (by omega) (by rw [← hz]) (by rw [← hz]; exact hmax.symm)
    · refine .gap 0 (by omega) (fun q hq => by omega) (fun q _ hq => ?_)
        (.inr (.inl ⟨by omega,rfl,rfl⟩))
      have := hle (Nat.zero_le q) (by omega)
      rw [Nat.add_zero] at this
      rw [← hz]
      omega
    · refine .gap m (by omega) (fun q hq => ?_) (fun q hq hq' => by omega)
        (.inr (.inr (.inl ⟨by omega,hm,rfl⟩)))
      have := hle (by omega : q ≤ m - 1) (by omega)
      rw [← hz]
      omega
    · have hne : ∀ {c : UInt8}, ¬ b = c → b.toNat ≠ c.toNat := fun hc heq =>
        hc (UInt8.toNat_inj.1 heq)
      have hlo : (nodes z).key.toNat < b.toNat := by
        have := hne hmin
        omega
      have hhi : b.toNat < (nodes (z + (m - 1))).key.toNat := by
        have := hne hmax
        omega
      have hwide : z < z + (m - 1) := by
        by_contra hnarrow
        have hone : z + (m - 1) = z := by omega
        rw [hone] at hhi
        omega
      obtain ⟨j,hj,hjlo,hjhi,hspec⟩ :=
        search_spec (fun z => (nodes z).key.toNat) hwide hlo hhi
      obtain ⟨q,rfl⟩ := Nat.exists_eq_add_of_le hjlo
      rw [hj]
      rcases hspec with heq | ⟨hbelow,habove⟩
      · exact .found q (by omega) (by rw [← hz]; rfl) (by rw [← hz]; exact UInt8.toNat_inj.1 heq)
      · refine .gap (q + 1) (by omega) (fun r hr => ?_) (fun r hr hr' => ?_)
          (.inr (.inr (.inr ⟨by omega,by omega,?_⟩)))
        · have := hle (by omega : r ≤ q) (by omega)
          rw [← hz]
          omega
        · have := hle hr (by omega)
          rw [← hz]
          have hadd : z + q + 1 = z + (q + 1) := by omega
          rw [hadd] at habove
          omega
        · rw [← hz]
          rfl
  · rw [if_neg (by omega)]
    exact .gap 0 (by omega) (fun q hq => by omega) (fun q _ hq => by omega) (.inl ⟨by omega,rfl⟩)

/-- Where no child has the byte, the search ends at none that passes for one. -/
theorem mtrieSeek_absent {nodes : ℕ → MtrNode} {i : ℕ} {b : UInt8} (h : Sorted nodes i)
    (hb : ∀ q < (nodes i).nchilds, (nodes ((nodes i).childs + q)).key ≠ b) :
    mtrieSeek nodes i b < MTRIE_LINE_MAX ∨ (nodes (mtrieSeek nodes i b).toNat).key ≠ b := by
  have hline : MTRIE_LINE_MAX = 256 := rfl
  rcases mtrieSeek_place h b with ⟨q,hq,-,hkey⟩ | ⟨k,-,-,-,hx⟩
  · exact absurd hkey (hb q hq)
  · rcases hx with ⟨-,hx⟩ | ⟨-,-,hx⟩ | ⟨-,-,hx⟩ | ⟨hpos,hlt,hx⟩
    · exact .inl (by omega)
    · exact .inl (by omega)
    · exact .inl (by omega)
    · rw [hx,Int.toNat_natCast]
      exact .inr (hb (k - 1) (by omega))

/-- At a gap, each way of copying the children puts the new one into its place. -/
theorem mtrieSpread_eq {nodes : ℕ → MtrNode} {pos z m k : ℕ} {b : UInt8} {x : ℤ} (hk : k ≤ m)
    (hd : ∀ a < m + 1, ∀ c < m, pos + a ≠ z + c)
    (hbelow : ∀ q < k, (nodes (z + q)).key.toNat < b.toNat)
    (habove : k < m → b.toNat < (nodes (z + k)).key.toNat)
    (hx : m = 0 ∧ x = 0 ∨ 0 < m ∧ k = 0 ∧ x = -1 ∨ 0 < m ∧ k = m ∧ x = 1 ∨
      0 < k ∧ k < m ∧ MTRIE_LINE_MAX ≤ z ∧ x = (z + (k - 1) : ℕ)) :
    mtrieSpread nodes x b pos z (m + 1) = (spread nodes pos z m k b,pos + k) := by
  have hspread := spread_eq nodes b hk hd
  rw [mtrieSpread]
  rcases hx with ⟨rfl,rfl⟩ | ⟨-,rfl,rfl⟩ | ⟨-,rfl,rfl⟩ | ⟨hpos,hlt,hz,rfl⟩
  · obtain rfl : k = 0 := by omega
    rw [if_pos rfl,← hspread]
    rfl
  · rw [if_neg (by decide),if_pos rfl,← hspread]
    rfl
  · rw [if_neg (by decide),if_neg (by decide),if_pos rfl,← hspread,Nat.sub_self]
    rfl
  · have hline : (MTRIE_LINE_MAX : ℕ) = 256 := rfl
    rw [if_neg (by omega),if_neg (by omega),if_neg (by omega),
      mtrnodeCopyBelow_eq (m := m + 1) (by omega) (fun a ha c hc => hd a (by omega) c (by omega)) hbelow
        (by have := habove hlt; omega),
      ← hspread]
    simp only [Nat.add_sub_cancel_left,Nat.reduceSubDiff]

/-! ### Blocks -/

/-- The layout of a trie: the tree of its nodes, the blocks of children and the free blocks by their
size, which between them own every node that has been handed out. -/
structure Laid (t : Mtrie) (own : ℕ → Holder UInt8) (bins : ℕ → List ℕ) : Prop where
  shape : Shape t.links UInt8.toNat UInt8.toNat own
  bounds : ∀ {w i}, t.Ends w i → 0 < (t.nodes i).nchilds →
    MTRIE_LINE_MAX ≤ (t.nodes i).childs ∧ (t.nodes i).childs + (t.nodes i).nchilds ≤ t.current
  lists : ∀ num, 0 < num → num ≤ MTRIE_LINE_MAX → (t.list (num - 1)).count = (bins num).length ∧
    Thread (fun p => (t.nodes p).childs) (t.list (num - 1)).head (bins num) ∧ (bins num).Nodup
  blocks : ∀ {num p}, p ∈ bins num → 0 < num ∧ num ≤ MTRIE_LINE_MAX ∧ MTRIE_LINE_MAX ≤ p ∧
    p + num ≤ t.current ∧ ∀ q, p ≤ q → q < p + num → own q = .free num p
  free : ∀ {q num p}, own q = .free num p → p ∈ bins num ∧ p ≤ q ∧ q < p + num
  wild : ∀ q, own q = .wild ↔ q < MTRIE_LINE_MAX ∨ t.current ≤ q
  room : MTRIE_LINE_MAX ≤ t.current
  capacity : t.current + t.left = t.total

namespace Laid

variable {t : Mtrie} {own : ℕ → Holder UInt8} {bins : ℕ → List ℕ} {w : List UInt8} {i : ℕ}

theorem sorted (h : Laid t own bins) (hi : t.Ends w i) : Sorted t.nodes i where
  floor hpos := (h.bounds hi hpos).1
  keys q r hqr hr := by
    have hq : t.links.IsChild i ((t.nodes i).childs + q) := ⟨Nat.le_add_right _ _,by
      change _ < (t.nodes i).childs + (t.nodes i).nchilds
      omega⟩
    have hr' : t.links.IsChild i ((t.nodes i).childs + r) := ⟨Nat.le_add_right _ _,by
      change _ < (t.nodes i).childs + (t.nodes i).nchilds
      omega⟩
    exact h.shape.sorted hi hq hr' (by omega)

theorem nchilds_pos {j : ℕ} (hj : t.links.IsChild i j) : 0 < (t.nodes i).nchilds := by
  have hlt := hj.1.trans_lt hj.2
  exact Nat.pos_of_lt_add_right hlt

theorem isChild (q : ℕ) (hq : q < (t.nodes i).nchilds) :
    t.links.IsChild i ((t.nodes i).childs + q) :=
  ⟨Nat.le_add_right _ _,Nat.add_lt_add_left hq _⟩

theorem lt_current (h : Laid t own bins) (hi : t.Ends w i) : i < t.current := by
  have hroom := h.room
  cases hi with
  | root c =>
    have hc := c.toNat_lt
    change c.toNat < t.current
    have hline : MTRIE_LINE_MAX = 256 := rfl
    omega
  | child hi hj => exact lt_of_lt_of_le hj.2 (h.bounds hi (nchilds_pos hj)).2

/-- A node at the end of a key is in no free block. -/
theorem own_live (h : Laid t own bins) (hi : t.Ends w i) (num p : ℕ) : own i ≠ .free num p := by
  cases hi with
  | root c =>
    rw [h.shape.roots]
    nofun
  | child hi hj =>
    rw [h.shape.owned hi hj]
    nofun

/-- Another key than those of the children leaves room for one more child. -/
theorem nchilds_lt (h : Laid t own bins) (hi : t.Ends w i) {b : UInt8}
    (hb : ∀ q < (t.nodes i).nchilds, (t.nodes ((t.nodes i).childs + q)).key ≠ b) :
    (t.nodes i).nchilds < MTRIE_LINE_MAX := by
  have hkeys := (h.sorted hi).keys
  let keys := (Finset.range (t.nodes i).nchilds).image
    fun q => (t.nodes ((t.nodes i).childs + q)).key.toNat
  have hcard : keys.card = (t.nodes i).nchilds := by
    rw [Finset.card_image_of_injOn,Finset.card_range]
    intro q hq r hr hqr
    simp only [Finset.coe_range,Set.mem_Iio] at hq hr
    rcases lt_trichotomy q r with hlt | heq | hgt
    · have := hkeys q r hlt hr
      simp only at hqr
      omega
    · exact heq
    · have := hkeys r q hgt hq
      simp only at hqr
      omega
  have hsub : keys ⊆ (Finset.range 256).erase b.toNat := by
    intro k hk
    obtain ⟨q,hq,rfl⟩ := Finset.mem_image.1 hk
    rw [Finset.mem_erase,Finset.mem_range]
    exact ⟨fun heq => hb q (Finset.mem_range.1 hq) (UInt8.toNat_inj.1 heq),UInt8.toNat_lt _⟩
  have hle := Finset.card_le_card hsub
  rw [hcard,Finset.card_erase_of_mem (Finset.mem_range.2 b.toNat_lt),Finset.card_range] at hle
  have hline : MTRIE_LINE_MAX = 256 := rfl
  omega

end Laid

/-- What `MTRIE_POP` does for a block of `n` nodes at `pos`: the block is taken from its free list or
from the nodes that have never been handed out, and all other nodes and free blocks stay. -/
structure Popped (t t' : Mtrie) (own : ℕ → Holder UInt8) (bins bins' : ℕ → List ℕ) (n pos : ℕ) :
    Prop where
  id : t'.id = t.id
  nodes : ∀ q < t.current, t'.nodes q = t.nodes q
  current : t.current ≤ t'.current
  capacity : t'.current + t'.left = t'.total
  floor : MTRIE_LINE_MAX ≤ pos
  top : pos + n ≤ t'.current
  vacant : ∀ q, pos ≤ q → q < pos + n → t.current ≤ q ∨ own q = .free n pos
  fresh : ∀ q, t.current ≤ q → q < t'.current → pos ≤ q ∧ q < pos + n
  lists : ∀ num, 0 < num → num ≤ MTRIE_LINE_MAX →
    (t'.list (num - 1)).count = (bins' num).length ∧
    Thread (fun p => (t'.nodes p).childs) (t'.list (num - 1)).head (bins' num) ∧ (bins' num).Nodup
  bins : ∀ num p, p ∈ bins' num ↔ p ∈ bins num ∧ ¬ (num = n ∧ p = pos)

/-- `MTRIE_INCREMENT` keeps the nodes that have been handed out, and makes room for any block. -/
theorem mtrieIncrement_keeps {t : Mtrie} (h : t.current + t.left = t.total) :
    (∀ q < t.current, (mtrieIncrement t).nodes q = t.nodes q) ∧
      (mtrieIncrement t).list = t.list ∧ (mtrieIncrement t).id = t.id ∧
      (mtrieIncrement t).current = t.current ∧
      (mtrieIncrement t).current + (mtrieIncrement t).left = (mtrieIncrement t).total ∧
      MTRIE_INCREMENT_NUM ≤ (mtrieIncrement t).left := by
  refine ⟨fun q hq => if_pos (by omega),rfl,rfl,rfl,?_,Nat.le_add_left _ _⟩
  change t.current + (t.left + MTRIE_INCREMENT_NUM) = t.total + MTRIE_INCREMENT_NUM
  omega

theorem Laid.pop {t : Mtrie} {own : ℕ → Holder UInt8} {bins : ℕ → List ℕ} (h : Laid t own bins)
    {n : ℕ} (hpos : 0 < n) (hle : n ≤ MTRIE_LINE_MAX) :
    ∃ t' pos bins', mtriePop t n = (t',some pos) ∧ Popped t t' own bins bins' n pos := by
  obtain ⟨hcount,hthread,hnodup⟩ := h.lists n hpos hle
  rw [mtriePop,if_pos ⟨hpos,hle⟩]
  dsimp only
  cases hbin : bins n with
  | cons p ps =>
    rw [hbin] at hcount hthread hnodup
    rw [List.length_cons] at hcount
    rw [if_pos (by omega)]
    have hmem : p ∈ bins n := by rw [hbin]; simp
    obtain ⟨-,-,hfloor,htop,hown⟩ := h.blocks hmem
    refine ⟨_,_,Function.update bins n ps,rfl,?_⟩
    rw [hthread.1]
    constructor
    · rfl
    · intro q _; rfl
    · exact le_rfl
    · exact h.capacity
    · exact hfloor
    · exact htop
    · intro q hq hq'; exact .inr (hown q hq hq')
    · intro q hq hq'
      exact absurd hq (not_le.2 hq')
    · intro num hnum hnum'
      by_cases heq : num = n
      · subst heq
        simp only [Mtrie.setList,Function.update_self]
        exact ⟨by omega,hthread.2,(List.nodup_cons.1 hnodup).2⟩
      · simp only [Mtrie.setList,Function.update_of_ne heq,
          Function.update_of_ne (show num - 1 ≠ n - 1 by omega)]
        exact h.lists num hnum hnum'
    · intro num q
      by_cases heq : num = n
      · subst heq
        rw [Function.update_self,hbin]
        have hp := (List.nodup_cons.1 hnodup).1
        constructor
        · intro hq
          refine ⟨List.mem_cons_of_mem _ hq,?_⟩
          rintro ⟨-,rfl⟩
          exact hp hq
        · rintro ⟨hq,hne⟩
          exact (List.mem_cons.1 hq).resolve_left fun hqp => hne ⟨rfl,hqp⟩
      · rw [Function.update_of_ne heq]
        simp [heq]
  | nil =>
    rw [hbin] at hcount
    rw [if_neg (by rw [hcount]; simp)]
    obtain ⟨s,hs,hnodes,hlist,hid,hcurrent,hcap,hleft⟩ :
        ∃ s, s = (if t.left < n then mtrieIncrement t else t) ∧
          (∀ q < t.current, s.nodes q = t.nodes q) ∧ s.list = t.list ∧ s.id = t.id ∧
          s.current = t.current ∧ s.current + s.left = s.total ∧ n ≤ s.left := by
      refine ⟨_,rfl,?_⟩
      split_ifs with hgrow
      · obtain ⟨hnodes,hlist,hid,hcurrent,hcap,hleft⟩ := mtrieIncrement_keeps h.capacity
        exact ⟨hnodes,hlist,hid,hcurrent,hcap,hle.trans (le_trans (by decide) hleft)⟩
      · exact ⟨fun q _ => rfl,rfl,rfl,rfl,h.capacity,by omega⟩
    rw [← hs]
    refine ⟨_,_,bins,rfl,?_⟩
    constructor
    · exact hid
    · exact hnodes
    · change t.current ≤ s.current + n
      omega
    · change s.current + n + (s.left - n) = s.total
      omega
    · rw [hcurrent]
      exact h.room
    · exact le_rfl
    · intro q hq _
      rw [hcurrent] at hq
      exact .inl hq
    · intro q hq hq'
      rw [hcurrent]
      exact ⟨hq,by rw [← hcurrent]; exact hq'⟩
    · intro num hnum hnum'
      obtain ⟨hcount',hthread',hnodup'⟩ := h.lists num hnum hnum'
      change (s.list (num - 1)).count = _ ∧
        Thread (fun p => (s.nodes p).childs) (s.list (num - 1)).head _ ∧ _
      rw [hlist]
      refine ⟨hcount',hthread'.congr fun p hp => ?_,hnodup'⟩
      obtain ⟨-,-,-,htop,-⟩ := h.blocks hp
      rw [hnodes p (by omega)]
    · intro num p
      constructor
      · intro hp
        refine ⟨hp,?_⟩
        rintro ⟨rfl,-⟩
        rw [hbin] at hp
        cases hp
      · exact fun hp => hp.1

/-! ### A new child -/

/-- What a new child does to the nodes of the trie: its parent is told of the new block, the other
children are copied there around the new one, and all other nodes stay. -/
structure Sprouted (t t' : Mtrie) (i pos k : ℕ) (b : UInt8) : Prop where
  place : k ≤ (t.nodes i).nchilds
  self : t'.nodes i = { t.nodes i with nchilds := (t.nodes i).nchilds + 1, childs := pos }
  fresh : t'.nodes (pos + k) = mtrnodeSetk b
  moved : ∀ q < (t.nodes i).nchilds,
    t'.nodes (pos + shift k q) = t.nodes ((t.nodes i).childs + q)
  kept : ∀ {v j}, t.Ends v j → j ≠ i → ¬ t.links.IsChild i j → t'.nodes j = t.nodes j
  id : t'.id = t.id

theorem Sprouted.grown {t t' : Mtrie} {i pos k : ℕ} {b : UInt8} (h : Sprouted t t' i pos k b) :
    Grown t.links t'.links UInt8.toNat i pos k b where
  place := h.place
  self_key := by simp only [Mtrie.links,h.self]
  self_nchilds := by simp only [Mtrie.links,h.self]
  self_childs := by simp only [Mtrie.links,h.self]
  new_key := by simp only [Mtrie.links,h.fresh,mtrnodeSetk]
  new_nchilds := by simp only [Mtrie.links,h.fresh,mtrnodeSetk]
  moved q hq := by
    have hnode := h.moved q hq
    simp only [Mtrie.links,hnode,and_self]
  kept hj hne hc := by
    have hnode := h.kept hj hne hc
    simp only [Mtrie.links,hnode,and_self]

namespace Laid

variable {t : Mtrie} {own : ℕ → Holder UInt8} {bins : ℕ → List ℕ} {w : List UInt8} {i : ℕ}

/-- The block that `MTRIE_POP` gives holds no node in use. -/
theorem popped_apart (h : Laid t own bins) {t' : Mtrie} {bins' : ℕ → List ℕ} {n pos : ℕ}
    (hp : Popped t t' own bins bins' n pos) {v : List UInt8} {j : ℕ} (hj : t.Ends v j) :
    ¬ (pos ≤ j ∧ j < pos + n) := by
  rintro ⟨hlo,hhi⟩
  rcases hp.vacant j hlo hhi with hge | hfree
  · exact absurd (h.lt_current hj) (not_lt.2 hge)
  · exact h.own_live hj n pos hfree

/-- The nodes that begin the other free blocks are not touched by a new child. -/
theorem bin_start (h : Laid t own bins) {t' : Mtrie} {bins' : ℕ → List ℕ} {n pos : ℕ}
    (hp : Popped t t' own bins bins' n pos) {num p : ℕ} (hmem : p ∈ bins' num) :
    p < t.current ∧ own p = .free num p ∧ ¬ (pos ≤ p ∧ p < pos + n) := by
  obtain ⟨hbin,hne⟩ := (hp.bins num p).mp hmem
  obtain ⟨hnum,-,-,htop,hown⟩ := h.blocks hbin
  have hself := hown p le_rfl (by omega)
  refine ⟨by omega,hself,?_⟩
  rintro ⟨hlo,hhi⟩
  rcases hp.vacant p hlo hhi with hge | hfree
  · omega
  · rw [hself] at hfree
    cases hfree
    exact hne ⟨rfl,rfl⟩

end Laid

/-- The trie after `MTRIE_POP` has given the block at `pos` in the trie `s`: the new block is filled,
the old one is put on its free list, and the parent points to the new one. -/
structure Rebuilt (s t' : Mtrie) (i pos z m k : ℕ) (b : UInt8) : Prop where
  id : t'.id = s.id
  current : t'.current = s.current
  left : t'.left = s.left
  total : t'.total = s.total
  list : t'.list = if 0 < m then
    Function.update s.list (m - 1) ⟨(s.list (m - 1)).count + 1,z⟩ else s.list
  nodes : ∀ q, t'.nodes q =
    if q = i then { s.nodes i with nchilds := m + 1, childs := pos }
    else if pos ≤ q ∧ q < pos + (m + 1) then spread s.nodes pos z m k b q
    else if 0 < m ∧ q = z then { s.nodes z with childs := (s.list (m - 1)).head }
    else s.nodes q

namespace Laid

variable {t s : Mtrie} {own : ℕ → Holder UInt8} {bins bins' : ℕ → List ℕ} {w : List UInt8}
  {i pos k m z : ℕ} {b : UInt8} {x : ℤ}

/-- The old block of the children and the new one share no node. -/
theorem blocks_apart (h : Laid t own bins) (hi : t.Ends w i)
    (hp : Popped t s own bins bins' ((t.nodes i).nchilds + 1) pos) {q : ℕ}
    (hq : q < (t.nodes i).nchilds) : ¬ (pos ≤ (t.nodes i).childs + q ∧
      (t.nodes i).childs + q < pos + ((t.nodes i).nchilds + 1)) :=
  h.popped_apart hp (hi.child (isChild q hq))

/-- The new block is filled with the children around the new one, and the parent is not in it. -/
theorem spread_new (h : Laid t own bins) (hi : t.Ends w i)
    (hp : Popped t s own bins bins' ((t.nodes i).nchilds + 1) pos) (hk : k ≤ (t.nodes i).nchilds)
    (below : ∀ q < k, (t.nodes ((t.nodes i).childs + q)).key.toNat < b.toNat)
    (above : ∀ q, k ≤ q → q < (t.nodes i).nchilds →
      b.toNat < (t.nodes ((t.nodes i).childs + q)).key.toNat)
    (hx : (t.nodes i).nchilds = 0 ∧ x = 0 ∨ 0 < (t.nodes i).nchilds ∧ k = 0 ∧ x = -1 ∨
      0 < (t.nodes i).nchilds ∧ k = (t.nodes i).nchilds ∧ x = 1 ∨
      0 < k ∧ k < (t.nodes i).nchilds ∧ x = ((t.nodes i).childs + (k - 1) : ℕ)) :
    mtrieSpread s.nodes x b pos (t.nodes i).childs ((t.nodes i).nchilds + 1) =
        (spread s.nodes pos (t.nodes i).childs (t.nodes i).nchilds k b,pos + k) ∧
      spread s.nodes pos (t.nodes i).childs (t.nodes i).nchilds k b i = t.nodes i := by
  have hold := fun {q} => h.blocks_apart (q := q) hi hp
  have hkids : ∀ q < (t.nodes i).nchilds, s.nodes ((t.nodes i).childs + q) =
      t.nodes ((t.nodes i).childs + q) := fun q hq => hp.nodes _ (h.lt_current (hi.child (isChild q hq)))
  have hfloor : 0 < (t.nodes i).nchilds → MTRIE_LINE_MAX ≤ (t.nodes i).childs :=
    fun hpos => (h.bounds hi hpos).1
  constructor
  · apply mtrieSpread_eq hk
    · intro a ha c hc heq
      exact hold hc (by omega)
    · intro q hq
      rw [hkids q (by omega)]
      exact below q hq
    · intro hlt
      rw [hkids k hlt]
      exact above k le_rfl hlt
    · rcases hx with hx | hx | hx | hx
      · exact .inl hx
      · exact .inr (.inl hx)
      · exact .inr (.inr (.inl hx))
      · exact .inr (.inr (.inr ⟨hx.1,hx.2.1,hfloor (by omega),hx.2.2⟩))
  · rw [spread,if_neg (h.popped_apart hp hi),hp.nodes i (h.lt_current hi)]

theorem newChild_rebuilt (h : Laid t own bins) (hi : t.Ends w i)
    (hm : (t.nodes i).nchilds = m) (hz : (t.nodes i).childs = z) (hk : k ≤ m)
    (below : ∀ q < k, (t.nodes (z + q)).key.toNat < b.toNat)
    (above : ∀ q, k ≤ q → q < m → b.toNat < (t.nodes (z + q)).key.toNat)
    (hx : m = 0 ∧ x = 0 ∨ 0 < m ∧ k = 0 ∧ x = -1 ∨ 0 < m ∧ k = m ∧ x = 1 ∨
      0 < k ∧ k < m ∧ x = (z + (k - 1) : ℕ))
    (hpop : mtriePop t (m + 1) = (s,some pos)) (hp : Popped t s own bins bins' (m + 1) pos)
    (hroom : m < MTRIE_LINE_MAX) :
    ∃ t', mtrieNewChild t i x b = (t',some (pos + k)) ∧ Rebuilt s t' i pos z m k b := by
  subst hm hz
  have hold := fun {q} => h.blocks_apart (q := q) hi hp
  have hself : s.nodes i = t.nodes i := hp.nodes i (h.lt_current hi)
  have hfloor : 0 < (t.nodes i).nchilds → MTRIE_LINE_MAX ≤ (t.nodes i).childs :=
    fun hpos => (h.bounds hi hpos).1
  obtain ⟨hspread,hkeep⟩ := h.spread_new hi hp hk below above hx
  have hblock : ¬ (pos < MTRIE_LINE_MAX ∨ s.current < pos) := by
    have := hp.floor
    have := hp.top
    omega
  simp only [mtrieNewChild,hpop,if_neg hblock,hspread,hkeep]
  refine ⟨_,rfl,?_⟩
  by_cases hpos : 0 < (t.nodes i).nchilds
  · have hzi : (t.nodes i).childs ≠ i := by
      intro heq
      have hchild := isChild (t := t) (i := i) 0 hpos
      rw [Nat.add_zero,heq] at hchild
      exact h.shape.not_self hi hchild
    have hznew := hold hpos
    rw [Nat.add_zero] at hznew
    rw [mtriePush,if_pos ⟨hfloor hpos,hpos,hroom.le⟩]
    refine ⟨rfl,rfl,rfl,rfl,by rw [if_pos hpos]; rfl,fun q => ?_⟩
    simp only [Mtrie.modify,Mtrie.setList]
    by_cases hqi : q = i
    · subst hqi
      rw [Function.update_self,if_pos rfl,Function.update_of_ne (Ne.symm hzi),hkeep,hself]
    · rw [Function.update_of_ne hqi,if_neg hqi]
      by_cases hqz : q = (t.nodes i).childs
      · subst hqz
        rw [Function.update_self,if_neg hznew,if_pos ⟨hpos,rfl⟩,spread,if_neg hznew]
      · rw [Function.update_of_ne hqz]
        by_cases hqnew : pos ≤ q ∧ q < pos + ((t.nodes i).nchilds + 1)
        · rw [if_pos hqnew]
        · rw [if_neg hqnew,if_neg fun hq => hqz hq.2,spread,if_neg hqnew]
  · rw [mtriePush,if_neg (by omega)]
    refine ⟨rfl,rfl,rfl,rfl,by rw [if_neg hpos]; rfl,fun q => ?_⟩
    simp only [Mtrie.modify]
    by_cases hqi : q = i
    · subst hqi
      rw [Function.update_self,if_pos rfl,hkeep,hself]
    · rw [Function.update_of_ne hqi,if_neg hqi]
      by_cases hqnew : pos ≤ q ∧ q < pos + ((t.nodes i).nchilds + 1)
      · rw [if_pos hqnew]
      · rw [if_neg hqnew,if_neg fun hq => hpos hq.1,spread,if_neg hqnew]

theorem rebuilt_sprouted (h : Laid t own bins) (hi : t.Ends w i) {t' : Mtrie}
    (hp : Popped t s own bins bins' ((t.nodes i).nchilds + 1) pos) (hk : k ≤ (t.nodes i).nchilds)
    (hr : Rebuilt s t' i pos (t.nodes i).childs (t.nodes i).nchilds k b) :
    Sprouted t t' i pos k b := by
  have hparent : ¬ (pos ≤ i ∧ i < pos + ((t.nodes i).nchilds + 1)) := h.popped_apart hp hi
  have hin : ∀ q < (t.nodes i).nchilds + 1,
      t'.nodes (pos + q) = spread s.nodes pos (t.nodes i).childs (t.nodes i).nchilds k b (pos + q) := by
    intro q hq
    rw [hr.nodes,if_neg (by rintro rfl; exact hparent ⟨by omega,by omega⟩),if_pos ⟨by omega,by omega⟩]
  constructor
  · exact hk
  · rw [hr.nodes,if_pos rfl,hp.nodes i (h.lt_current hi)]
  · rw [hin k (by omega),spread,if_pos ⟨by omega,by omega⟩,if_pos rfl]
  · intro q hq
    have hnode := hp.nodes _ (h.lt_current (hi.child (isChild q hq)))
    rw [hin _ (shift_lt hq),spread,if_pos ⟨by omega,by have := shift_lt (k := k) hq; omega⟩,← hnode]
    by_cases hqk : q < k
    · rw [shift,if_pos hqk,if_neg (by omega),if_pos (by omega)]
      congr 1
      omega
    · rw [shift,if_neg hqk,if_neg (by omega),if_neg (by omega)]
      congr 1
      omega
  · intro v j hj hne hc
    rw [hr.nodes,if_neg hne,if_neg (h.popped_apart hp hj),if_neg,hp.nodes j (h.lt_current hj)]
    rintro ⟨hpos,rfl⟩
    exact hc (isChild 0 hpos)
  · exact hr.id.trans hp.id

/-- The free blocks after the old block of the children, if there is one, has been given back. -/
def givenBack (t : Mtrie) (bins : ℕ → List ℕ) (i num : ℕ) : List ℕ :=
  if num = (t.nodes i).nchilds ∧ 0 < num then (t.nodes i).childs::bins num else bins num

theorem mem_givenBack {num p : ℕ} : p ∈ givenBack t bins i num ↔
    p ∈ bins num ∨ num = (t.nodes i).nchilds ∧ 0 < num ∧ p = (t.nodes i).childs := by
  simp only [givenBack]
  split_ifs with hnum
  · rw [List.mem_cons,or_comm,← and_assoc,and_iff_right hnum]
  · constructor
    · exact .inl
    · rintro (hp | ⟨heq,hpos,-⟩)
      · exact hp
      · exact absurd ⟨heq,hpos⟩ hnum

section Rebuild

variable {t' : Mtrie} (h : Laid t own bins) (hi : t.Ends w i)
  (hp : Popped t s own bins bins' ((t.nodes i).nchilds + 1) pos) (hk : k ≤ (t.nodes i).nchilds)
  (hr : Rebuilt s t' i pos (t.nodes i).childs (t.nodes i).nchilds k b)

include h hi hp hk hr

theorem rebuilt_shape
    (below : ∀ q < k, (t.nodes ((t.nodes i).childs + q)).key.toNat < b.toNat)
    (above : ∀ q, k ≤ q → q < (t.nodes i).nchilds →
      b.toNat < (t.nodes ((t.nodes i).childs + q)).key.toNat) :
    Shape t'.links UInt8.toNat UInt8.toNat (regrant t.links own w i pos) := by
  apply h.shape.grown (h.rebuilt_sprouted hi hp hk hr).grown hi
  · intro q hq v hv
    rcases hp.vacant q hq.1 hq.2 with hge | hfree
    · rw [(h.wild q).mpr (.inr hge)] at hv
      cases hv
    · rw [hfree] at hv
      cases hv
  · intro c hc
    have hlt := c.toNat_lt
    have hfloor := hp.floor
    have hline : MTRIE_LINE_MAX = 256 := rfl
    omega
  · exact below
  · exact above

theorem rebuilt_bounds {v : List UInt8} {j' : ℕ} (hj' : t'.Ends v j')
    (hpos : 0 < (t'.nodes j').nchilds) : MTRIE_LINE_MAX ≤ (t'.nodes j').childs ∧
      (t'.nodes j').childs + (t'.nodes j').nchilds ≤ t'.current := by
  have hs := h.rebuilt_sprouted hi hp hk hr
  rcases (h.shape.at_grown hs.grown hi v j').mp hj' with ⟨j,hj,rfl⟩ | ⟨-,rfl⟩
  · by_cases hji : j = i
    · subst hji
      rw [moveTo_other (h.shape.not_self hi),hs.self,hr.current]
      exact ⟨hp.floor,hp.top⟩
    · obtain ⟨-,hn,hc⟩ := hs.grown.moveTo_links hj hji
      change (t'.nodes (moveTo t.links i pos k j)).nchilds = (t.nodes j).nchilds at hn
      change (t'.nodes (moveTo t.links i pos k j)).childs = (t.nodes j).childs at hc
      rw [hn] at hpos
      rw [hn,hc,hr.current]
      have hbounds := h.bounds hj hpos
      exact ⟨hbounds.1,hbounds.2.trans hp.current⟩
  · rw [hs.fresh] at hpos
    exact absurd hpos (lt_irrefl 0)

omit hk in
/-- The first node of a free block keeps its place in the free list. -/
theorem rebuilt_start {num p : ℕ} (hmem : p ∈ bins' num) : t'.nodes p = s.nodes p := by
  obtain ⟨-,hfree,hout⟩ := h.bin_start hp hmem
  rw [hr.nodes,if_neg,if_neg hout,if_neg]
  · rintro ⟨hpos,rfl⟩
    have howned := h.shape.owned hi (isChild 0 hpos)
    rw [Nat.add_zero,hfree] at howned
    cases howned
  · rintro rfl
    exact h.own_live hi _ _ hfree

omit hk in
theorem rebuilt_lists {num : ℕ} (hnum : 0 < num) (hnum' : num ≤ MTRIE_LINE_MAX) :
    (t'.list (num - 1)).count = (givenBack t bins' i num).length ∧
      Thread (fun p => (t'.nodes p).childs) (t'.list (num - 1)).head (givenBack t bins' i num) ∧
      (givenBack t bins' i num).Nodup := by
  obtain ⟨hcount,hthread,hnodup⟩ := hp.lists num hnum hnum'
  have hthread' : Thread (fun p => (t'.nodes p).childs) (s.list (num - 1)).head (bins' num) :=
    hthread.congr fun p hmem => by rw [h.rebuilt_start hi hp hr hmem]
  by_cases heq : num = (t.nodes i).nchilds
  · subst heq
    have hzi : (t.nodes i).childs ≠ i := by
      intro hzi
      have hchild := isChild (t := t) (i := i) 0 hnum
      rw [Nat.add_zero,hzi] at hchild
      exact h.shape.not_self hi hchild
    have hznew := h.blocks_apart hi hp hnum
    rw [Nat.add_zero] at hznew
    have hz : (t'.nodes (t.nodes i).childs).childs = (s.list ((t.nodes i).nchilds - 1)).head := by
      rw [hr.nodes,if_neg hzi,if_neg hznew,if_pos ⟨hnum,rfl⟩]
    rw [givenBack,if_pos ⟨rfl,hnum⟩,hr.list,if_pos hnum,Function.update_self]
    refine ⟨by rw [List.length_cons,← hcount],⟨rfl,?_⟩,List.nodup_cons.2 ⟨?_,hnodup⟩⟩
    · dsimp only
      rw [hz]
      exact hthread'
    · intro hmem
      obtain ⟨-,hfree,-⟩ := h.bin_start hp hmem
      have howned := h.shape.owned hi (isChild 0 hnum)
      rw [Nat.add_zero,hfree] at howned
      cases howned
  · have hlist : t'.list (num - 1) = s.list (num - 1) := by
      rw [hr.list]
      split_ifs with hpos
      · rw [Function.update_of_ne (by omega)]
      · rfl
    rw [givenBack,if_neg fun hnum => heq hnum.1,hlist]
    exact ⟨hcount,hthread',hnodup⟩

omit hk in
theorem rebuilt_blocks (hroom : (t.nodes i).nchilds < MTRIE_LINE_MAX) {num p : ℕ}
    (hmem : p ∈ givenBack t bins' i num) : 0 < num ∧ num ≤ MTRIE_LINE_MAX ∧ MTRIE_LINE_MAX ≤ p ∧
      p + num ≤ t'.current ∧
      ∀ q, p ≤ q → q < p + num → regrant t.links own w i pos q = .free num p := by
  have hcur := hp.current
  rw [hr.current]
  rcases mem_givenBack.mp hmem with hmem | ⟨rfl,hpos,rfl⟩
  · obtain ⟨hbin,hne⟩ := (hp.bins num p).mp hmem
    obtain ⟨hnum,hnum',hfloor,htop,hown⟩ := h.blocks hbin
    refine ⟨hnum,hnum',hfloor,by omega,fun q hq hq' => ?_⟩
    have hfree := hown q hq hq'
    rw [regrant_other,hfree]
    · rintro ⟨hlo,hhi⟩
      rcases hp.vacant q hlo hhi with hge | hfree'
      · omega
      · rw [hfree] at hfree'
        cases hfree'
        exact hne ⟨rfl,rfl⟩
    · intro hc
      rw [h.shape.owned hi hc] at hfree
      cases hfree
  · obtain ⟨hfloor,htop⟩ := h.bounds hi hpos
    refine ⟨hpos,by omega,hfloor,by omega,fun q hq hq' => ?_⟩
    obtain ⟨r,rfl⟩ := Nat.exists_eq_add_of_le hq
    rw [regrant_old (h.blocks_apart hi hp (by omega)) (isChild r (by omega))]
    rfl

omit hi hk hr in
theorem rebuilt_free {q num p : ℕ} (hq : regrant t.links own w i pos q = .free num p) :
    p ∈ givenBack t bins' i num ∧ p ≤ q ∧ q < p + num := by
  by_cases hnew : pos ≤ q ∧ q < pos + ((t.nodes i).nchilds + 1)
  · rw [regrant_new hnew] at hq
    cases hq
  · by_cases hold : t.links.IsChild i q
    · rw [regrant_old hnew hold] at hq
      cases hq
      exact ⟨mem_givenBack.mpr (.inr ⟨rfl,nchilds_pos hold,rfl⟩),hold⟩
    · rw [regrant_other hnew hold] at hq
      obtain ⟨hbin,hlo,hhi⟩ := h.free hq
      refine ⟨mem_givenBack.mpr (.inl ((hp.bins _ _).mpr ⟨hbin,?_⟩)),hlo,hhi⟩
      rintro ⟨rfl,rfl⟩
      exact hnew ⟨hlo,hhi⟩

omit hk in
theorem rebuilt_wild (q : ℕ) : regrant t.links own w i pos q = .wild ↔
    q < MTRIE_LINE_MAX ∨ t'.current ≤ q := by
  rw [hr.current]
  have hcur := hp.current
  have hfloor := hp.floor
  have htop := hp.top
  by_cases hnew : pos ≤ q ∧ q < pos + ((t.nodes i).nchilds + 1)
  · rw [regrant_new hnew]
    simp only [reduceCtorEq,false_iff]
    omega
  · by_cases hold : t.links.IsChild i q
    · rw [regrant_old hnew hold]
      have hlt := h.lt_current (hi.child hold)
      have hline := (h.bounds hi (nchilds_pos hold)).1.trans hold.1
      simp only [reduceCtorEq,false_iff]
      omega
    · rw [regrant_other hnew hold,h.wild]
      constructor
      · rintro (hlo | hge)
        · exact .inl hlo
        · refine .inr ?_
          by_contra hlt
          exact hnew (hp.fresh q hge (not_le.1 hlt))
      · rintro (hlo | hge)
        · exact .inl hlo
        · exact .inr (hcur.trans hge)

end Rebuild

/-- `mtrie_add` gives a node its new child, in its place among the others. -/
theorem newChild (h : Laid t own bins) (hi : t.Ends w i) (hk : k ≤ (t.nodes i).nchilds)
    (below : ∀ q < k, (t.nodes ((t.nodes i).childs + q)).key.toNat < b.toNat)
    (above : ∀ q, k ≤ q → q < (t.nodes i).nchilds →
      b.toNat < (t.nodes ((t.nodes i).childs + q)).key.toNat)
    (hx : (t.nodes i).nchilds = 0 ∧ x = 0 ∨ 0 < (t.nodes i).nchilds ∧ k = 0 ∧ x = -1 ∨
      0 < (t.nodes i).nchilds ∧ k = (t.nodes i).nchilds ∧ x = 1 ∨
      0 < k ∧ k < (t.nodes i).nchilds ∧ x = ((t.nodes i).childs + (k - 1) : ℕ)) :
    ∃ t' pos own' bins'', mtrieNewChild t i x b = (t',some (pos + k)) ∧
      Sprouted t t' i pos k b ∧ Laid t' own' bins'' := by
  have hroom := h.nchilds_lt hi (gap_ne below above)
  obtain ⟨s,pos,bins₁,hpop,hp⟩ := h.pop (n := (t.nodes i).nchilds + 1) (by omega) (by omega)
  obtain ⟨t',ht',hr⟩ := h.newChild_rebuilt hi rfl rfl hk below above hx hpop hp hroom
  refine ⟨t',pos,regrant t.links own w i pos,givenBack t bins₁ i,ht',
    h.rebuilt_sprouted hi hp hk hr,?_⟩
  constructor
  · exact h.rebuilt_shape hi hp hk hr below above
  · exact h.rebuilt_bounds hi hp hk hr
  · intro num
    exact h.rebuilt_lists hi hp hr
  · exact h.rebuilt_blocks hi hp hr hroom
  · exact h.rebuilt_free hp
  · exact h.rebuilt_wild hi hp hr
  · rw [hr.current]
    exact h.room.trans hp.current
  · rw [hr.current,hr.left,hr.total]
    exact hp.capacity

end Laid

end Sbase
