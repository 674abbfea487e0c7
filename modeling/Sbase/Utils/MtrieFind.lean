import Sbase.Utils.MtrieReverse

/-! The prefix searches of `utils/mtrie.c`: `mtrie_find` and `mtrie_maxfind`, and the two that read the
key from its last byte down. -/
namespace Sbase
open BlockTree

/-! ### The searches -/

/-- The loop of `mtrie_find`; `p` is the offset of the next byte. -/
def mtrieFindLoop (t : Mtrie) (i p : ℕ) : List UInt8 → ℤ × ℕ
  | [] => ((t.nodes i).data,0)
  | b::bs =>
    if (t.nodes i).data ≠ 0 then ((t.nodes i).data,p+1)
    else if 0 < (t.nodes i).nchilds ∧ MTRIE_LINE_MAX ≤ (t.nodes i).childs then
      match mtrieNext t i b with
      | some x =>
        if (t.nodes x).data ≠ 0 then ((t.nodes x).data,p+1) else mtrieFindLoop t x (p+1) bs
      | none => ((t.nodes i).data,0)
    else ((t.nodes i).data,0)

/-- `mtrie_find`: the value and what is stored in `*len`, which is left alone where there is no key. -/
def mtrieFind (t : Mtrie) (key : List UInt8) (len : ℕ) : ℤ × ℕ :=
  match key with
  | [] => (0,len)
  | b::bs =>
    let i := b.toNat
    if (t.nodes i).data ≠ 0 then ((t.nodes i).data,1)
    else if bs = [] ∧ i < t.total ∧ (t.nodes i).data ≠ 0 then ((t.nodes i).data,1)
    else mtrieFindLoop t i 1 bs

/-- The loop of `mtrie_maxfind`, with what has been found so far. -/
def mtrieMaxfindLoop (t : Mtrie) (i p : ℕ) (hit : ℤ × ℕ) : List UInt8 → ℤ × ℕ
  | [] => hit
  | b::bs =>
    if 0 < (t.nodes i).nchilds ∧ MTRIE_LINE_MAX ≤ (t.nodes i).childs then
      match mtrieNext t i b with
      | some x =>
        mtrieMaxfindLoop t x (p+1) (if (t.nodes x).data ≠ 0 then ((t.nodes x).data,p+1) else hit) bs
      | none => hit
    else hit

/-- `mtrie_maxfind` -/
def mtrieMaxfind (t : Mtrie) (key : List UInt8) (len : ℕ) : ℤ × ℕ :=
  match key with
  | [] => (0,len)
  | b::bs =>
    let i := b.toNat
    let hit := if (t.nodes i).data ≠ 0 then ((t.nodes i).data,1) else (0,0)
    if bs = [] ∧ i < t.total ∧ (t.nodes i).data ≠ 0 then ((t.nodes i).data,1)
    else mtrieMaxfindLoop t i 1 hit bs

namespace Down

/-- The loop of `mtrie_rfind`; the next byte is that at `p-1`. -/
def mtrieRfindLoop (t : Mtrie) (key : List UInt8) (i : ℕ) : ℕ → ℤ × ℕ
  | 0 => ((t.nodes i).data,0)
  | p+1 =>
    if (t.nodes i).data ≠ 0 then ((t.nodes i).data,key.length - (p+1))
    else if 0 < (t.nodes i).nchilds ∧ MTRIE_LINE_MAX ≤ (t.nodes i).childs then
      match mtrieNext t i (key.getD p 0) with
      | some x =>
        if (t.nodes x).data ≠ 0 then ((t.nodes x).data,key.length - (p+1)) else mtrieRfindLoop t key x p
      | none => ((t.nodes i).data,0)
    else ((t.nodes i).data,0)

/-- `mtrie_rfind` -/
def mtrieRfind (t : Mtrie) (key : List UInt8) (len : ℕ) : ℤ × ℕ :=
  if key = [] then (0,len)
  else
    let p := key.length - 1
    let i := (key.getD p 0).toNat
    if (t.nodes i).data ≠ 0 then ((t.nodes i).data,1) else mtrieRfindLoop t key i p

/-- The loop of `mtrie_rmaxfind`. -/
def mtrieRmaxfindLoop (t : Mtrie) (key : List UInt8) (i : ℕ) (hit : ℤ × ℕ) : ℕ → ℤ × ℕ
  | 0 => hit
  | p+1 =>
    if 0 < (t.nodes i).nchilds ∧ MTRIE_LINE_MAX ≤ (t.nodes i).childs then
      match mtrieNext t i (key.getD p 0) with
      | some x =>
        mtrieRmaxfindLoop t key x
          (if (t.nodes x).data ≠ 0 then ((t.nodes x).data,key.length - p) else hit) p
      | none => hit
    else hit

/-- `mtrie_rmaxfind`, which does not test the data of a key of one byte before it sets `*len`. -/
def mtrieRmaxfind (t : Mtrie) (key : List UInt8) (len : ℕ) : ℤ × ℕ :=
  if key = [] then (0,len)
  else
    let p := key.length - 1
    let i := (key.getD p 0).toNat
    let hit := if (t.nodes i).data ≠ 0 then ((t.nodes i).data,1) else (0,0)
    if key.length = 1 ∧ i < t.total then ((t.nodes i).data,1) else mtrieRmaxfindLoop t key i hit p

end Down

/-! ### What is stored -/

/-- The trie has `v` for the key `w`. -/
def Mtrie.Holds (t : Mtrie) (w : List UInt8) (v : ℤ) : Prop :=
  v ≠ 0 ∧ ∃ i, t.Ends w i ∧ (t.nodes i).data = v

def Mtrie.Stored (t : Mtrie) (w : List UInt8) : Prop := ∃ v, t.Holds w v

/-- The value and the length of the shortest stored prefix of a key among those of `k` bytes at most,
or two zeroes. -/
inductive ShortestStored (t : Mtrie) (key : List UInt8) (k : ℕ) : ℤ × ℕ → Prop
  | hit {v n} (hn : n ≤ k) (hv : t.Holds (key.take n) v) (below : ∀ m < n, ¬ t.Stored (key.take m)) :
      ShortestStored t key k (v,n)
  | miss (none : ∀ m ≤ k, ¬ t.Stored (key.take m)) : ShortestStored t key k (0,0)

/-- The value and the length of the longest stored prefix of a key among those of `k` bytes at most, or
two zeroes. -/
inductive LongestStored (t : Mtrie) (key : List UInt8) (k : ℕ) : ℤ × ℕ → Prop
  | hit {v n} (hn : n ≤ k) (hv : t.Holds (key.take n) v)
      (above : ∀ m, n < m → m ≤ k → ¬ t.Stored (key.take m)) : LongestStored t key k (v,n)
  | miss (none : ∀ m ≤ k, ¬ t.Stored (key.take m)) : LongestStored t key k (0,0)

section

variable {t : Mtrie} {own : ℕ → Holder UInt8} {bins : ℕ → List ℕ} {w key : List UInt8} {i p k : ℕ}
  {b : UInt8}

/-- A key is stored in the trie as in the map that the trie stands for. -/
theorem Mapped.holds_iff {a : KeyMap} (h : Mapped t a) (w : List UInt8) (v : ℤ) :
    t.Holds w v ↔ v ≠ 0 ∧ a.value w = v := by
  constructor
  · rintro ⟨hv,i,hi,hdata⟩
    exact ⟨hv,(h.stores.ends hi).symm.trans hdata⟩
  · rintro ⟨hv,hvalue⟩
    refine ⟨hv,?_⟩
    by_contra hnone
    have habsent : a.value w = 0 :=
      h.stores.absent w fun i hi => hnone ⟨i,hi,(h.stores.ends hi).trans hvalue⟩
    exact hv (hvalue.symm.trans habsent)

theorem not_stored_nil : ¬ t.Stored [] := by
  rintro ⟨v,-,i,hi,-⟩
  exact hi.ne_nil rfl

theorem Laid.stored_iff (h : Laid t own bins) (hi : t.Ends w i) : t.Stored w ↔ (t.nodes i).data ≠ 0 := by
  constructor
  · rintro ⟨v,hv,j,hj,hdata⟩
    obtain rfl := h.shape.node_unique hi hj
    rwa [hdata]
  · intro hdata
    exact ⟨_,hdata,i,hi,rfl⟩

/-- No prefix is stored that goes on with a byte that no child has. -/
theorem Laid.not_stored_beyond (h : Laid t own bins) (hi : t.Ends w i)
    (hb : ∀ q < (t.nodes i).nchilds, (t.nodes ((t.nodes i).childs + q)).key ≠ b) (bs : List UInt8)
    {m : ℕ} (hm : w.length < m) : ¬ t.Stored ((w ++ b::bs).take m) := by
  rintro ⟨v,-,j,hj,-⟩
  obtain ⟨d,rfl⟩ := Nat.exists_eq_add_of_lt hm
  rw [Nat.add_assoc,List.take_length_add_append] at hj
  exact h.no_extension hi hb (bs.take d) j hj

/-! ### Forwards -/

/-- The loop of `mtrie_find`, with no stored key behind it. -/
theorem Laid.find_loop (h : Laid t own bins) (bs : List UInt8) (hi : t.Ends w i)
    (hclear : ∀ m ≤ w.length, ¬ t.Stored ((w ++ bs).take m)) :
    ShortestStored t (w ++ bs) (w ++ bs).length (mtrieFindLoop t i w.length bs) := by
  have hzero : (t.nodes i).data = 0 := by
    have hnot := hclear w.length le_rfl
    rw [List.take_left,h.stored_iff hi] at hnot
    exact not_not.mp hnot
  induction bs generalizing w i with
  | nil =>
    rw [mtrieFindLoop,hzero]
    rw [List.append_nil] at hclear ⊢
    exact .miss hclear
  | cons b bs ih =>
    rw [mtrieFindLoop,if_neg (not_not.mpr hzero)]
    have hmiss (hb : ∀ q < (t.nodes i).nchilds, (t.nodes ((t.nodes i).childs + q)).key ≠ b) :
        ShortestStored t (w ++ b::bs) (w ++ b::bs).length ((t.nodes i).data,0) := by
      rw [hzero]
      refine .miss fun m _ => ?_
      rcases le_or_gt m w.length with hle | hgt
      · exact hclear m hle
      · exact h.not_stored_beyond hi hb bs hgt
    by_cases hpos : 0 < (t.nodes i).nchilds
    · rw [if_pos ⟨hpos,(h.bounds hi hpos).1⟩]
      rcases h.next_child (b := b) hi hpos with ⟨j,hnext,hj,-⟩ | ⟨hnext,hb⟩
      · rw [hnext]
        dsimp only
        have hsplit : w ++ b::bs = (w ++ [b]) ++ bs := by simp
        have hlen : w.length + 1 = (w ++ [b]).length := by simp
        rw [hlen]
        rw [hsplit] at hclear ⊢
        split_ifs with hdata
        · refine .hit ?_ ?_ ?_
          · exact (List.prefix_append (w ++ [b]) bs).length_le
          · rw [List.take_left]
            exact ⟨hdata,j,hj,rfl⟩
          · exact fun m hm => hclear m (by omega)
        · refine ih hj (fun m hm => ?_) (not_not.mp hdata)
          rcases Nat.lt_or_eq_of_le hm with hlt | rfl
          · exact hclear m (by omega)
          · rw [List.take_left,h.stored_iff hj]
            exact hdata
      · rw [hnext]
        exact hmiss hb
    · rw [if_neg fun hcond => hpos hcond.1]
      exact hmiss fun q hq => absurd (Nat.zero_lt_of_lt hq) hpos

/-- A root with data is the shortest stored prefix. -/
theorem Laid.find (h : Laid t own bins) (c : UInt8) (bs : List UInt8) (len : ℕ) :
    ShortestStored t (c::bs) (c::bs).length (mtrieFind t (c::bs) len) := by
  have hroot : t.Ends [c] c.toNat := At.root c
  simp only [mtrieFind]
  split_ifs with hdata hsame
  · refine .hit (by simp) ⟨hdata,_,hroot,rfl⟩ ?_
    intro m hm
    obtain rfl : m = 0 := by omega
    exact not_stored_nil
  · exact absurd hsame.2.2 hdata
  · refine h.find_loop bs hroot fun m hm => ?_
    rcases Nat.lt_or_eq_of_le hm with hlt | rfl
    · obtain rfl : m = 0 := by simpa using hlt
      exact not_stored_nil
    · rw [List.take_left,h.stored_iff hroot]
      exact hdata

theorem LongestStored.extend {k' : ℕ} {r : ℤ × ℕ} (h : LongestStored t key k r) (hk : k ≤ k')
    (hbeyond : ∀ m, k < m → m ≤ k' → ¬ t.Stored (key.take m)) : LongestStored t key k' r := by
  cases h with
  | hit hn hv above =>
    refine .hit (hn.trans hk) hv fun m hm hm' => ?_
    rcases le_or_gt m k with hle | hgt
    · exact above m hm hle
    · exact hbeyond m hgt hm'
  | miss hnone =>
    refine .miss fun m hm => ?_
    rcases le_or_gt m k with hle | hgt
    · exact hnone m hle
    · exact hbeyond m hgt hm

/-- The loop of `mtrie_maxfind`, with the longest stored prefix behind it. -/
theorem Laid.maxfind_loop (h : Laid t own bins) (bs : List UInt8) {r : ℤ × ℕ} (hi : t.Ends w i)
    (hr : LongestStored t (w ++ bs) w.length r) :
    LongestStored t (w ++ bs) (w ++ bs).length (mtrieMaxfindLoop t i w.length r bs) := by
  induction bs generalizing w i r with
  | nil =>
    rw [List.append_nil] at hr ⊢
    exact hr
  | cons b bs ih =>
    rw [mtrieMaxfindLoop]
    have hmiss (hb : ∀ q < (t.nodes i).nchilds, (t.nodes ((t.nodes i).childs + q)).key ≠ b) :
        LongestStored t (w ++ b::bs) (w ++ b::bs).length r :=
      hr.extend (by simp) fun m hm _ => h.not_stored_beyond hi hb bs hm
    by_cases hpos : 0 < (t.nodes i).nchilds
    · rw [if_pos ⟨hpos,(h.bounds hi hpos).1⟩]
      rcases h.next_child (b := b) hi hpos with ⟨j,hnext,hj,-⟩ | ⟨hnext,hb⟩
      · rw [hnext]
        dsimp only
        have hsplit : w ++ b::bs = (w ++ [b]) ++ bs := by simp
        have hlen : w.length + 1 = (w ++ [b]).length := by simp
        rw [hlen]
        rw [hsplit] at hr ⊢
        refine ih hj ?_
        split_ifs with hdata
        · refine .hit le_rfl ?_ fun m hm hm' => absurd hm' (not_le.mpr hm)
          rw [List.take_left]
          exact ⟨hdata,j,hj,rfl⟩
        · refine hr.extend (by omega) fun m hm hm' => ?_
          obtain rfl : m = (w ++ [b]).length := by omega
          rw [List.take_left,h.stored_iff hj]
          exact hdata
      · rw [hnext]
        exact hmiss hb
    · rw [if_neg fun hcond => hpos hcond.1]
      exact hmiss fun q hq => absurd (Nat.zero_lt_of_lt hq) hpos

theorem Laid.maxfind (h : Laid t own bins) (c : UInt8) (bs : List UInt8) (len : ℕ) :
    LongestStored t (c::bs) (c::bs).length (mtrieMaxfind t (c::bs) len) := by
  have hroot : t.Ends [c] c.toNat := At.root c
  have hfirst : LongestStored t ([c] ++ bs) [c].length
      (if (t.nodes c.toNat).data ≠ 0 then ((t.nodes c.toNat).data,1) else (0,0)) := by
    split_ifs with hdata
    · exact .hit le_rfl ⟨hdata,_,hroot,rfl⟩ fun m hm hm' => absurd hm' (not_le.mpr hm)
    · refine .miss fun m hm => ?_
      rcases Nat.lt_or_eq_of_le hm with hlt | rfl
      · obtain rfl : m = 0 := by simpa using hlt
        exact not_stored_nil
      · rw [List.take_left,h.stored_iff hroot]
        exact hdata
  simp only [mtrieMaxfind]
  split_ifs with hsame hdata
  · rw [hsame.1]
    rw [hsame.1,if_pos hsame.2.2] at hfirst
    exact hfirst
  · rw [if_pos hdata] at hfirst
    exact h.maxfind_loop bs hroot hfirst
  · rw [if_neg hdata] at hfirst
    exact h.maxfind_loop bs hroot hfirst

end

section

variable {t : Mtrie} {own : ℕ → Holder UInt8} {bins : ℕ → List ℕ} {key : List UInt8} {i p : ℕ}

/-- Where the loop of `mtrie_rfind` finds a key, it reports one byte less than that of `mtrie_find`. -/
theorem rfind_loop_eq (hp : p ≤ key.length) : Down.mtrieRfindLoop t key i p =
    ((mtrieFindLoop t i (key.length - p) (key.take p).reverse).1,
      (mtrieFindLoop t i (key.length - p) (key.take p).reverse).2 - 1) := by
  induction p generalizing i with
  | zero => rfl
  | succ p ih =>
    have hnext : key.length - (p+1) + 1 = key.length - p := by omega
    rw [reverse_take_succ hp,Down.mtrieRfindLoop,mtrieFindLoop,hnext]
    by_cases hdata : (t.nodes i).data ≠ 0
    · rw [if_pos hdata,if_pos hdata,Nat.sub_sub]
    · rw [if_neg hdata,if_neg hdata]
      split_ifs with hkids
      · cases hj : mtrieNext t i (key.getD p 0) with
        | none => rfl
        | some j =>
          dsimp only
          by_cases hfound : (t.nodes j).data ≠ 0
          · rw [if_pos hfound,if_pos hfound,Nat.sub_sub]
          · rw [if_neg hfound,if_neg hfound]
            exact ih (by omega)
      · rfl

theorem rmaxfind_loop_eq {hit : ℤ × ℕ} (hp : p ≤ key.length) : Down.mtrieRmaxfindLoop t key i hit p =
    mtrieMaxfindLoop t i (key.length - p) hit (key.take p).reverse := by
  induction p generalizing i hit with
  | zero => rfl
  | succ p ih =>
    have hnext : key.length - (p+1) + 1 = key.length - p := by omega
    rw [reverse_take_succ hp,Down.mtrieRmaxfindLoop,mtrieMaxfindLoop,hnext]
    split_ifs with hkids
    · cases mtrieNext t i (key.getD p 0) with
      | none => rfl
      | some j => exact ih (by omega)
    · rfl

/-- The last byte of a key, and the others downwards. -/
theorem snoc_down (bs : List UInt8) (c : UInt8) : (bs ++ [c]).getD ((bs ++ [c]).length - 1) 0 = c ∧
    ((bs ++ [c]).take ((bs ++ [c]).length - 1)).reverse = bs.reverse := by
  simp

theorem rfind_eq (t : Mtrie) (bs : List UInt8) (c : UInt8) (len : ℕ) :
    Down.mtrieRfind t (bs ++ [c]) len = if (t.nodes c.toNat).data ≠ 0 then ((t.nodes c.toNat).data,1)
      else ((mtrieFind t (c::bs.reverse) len).1,(mtrieFind t (c::bs.reverse) len).2 - 1) := by
  obtain ⟨hlast,hrest⟩ := snoc_down bs c
  have hone : (bs ++ [c]).length - ((bs ++ [c]).length - 1) = 1 := by simp
  rw [Down.mtrieRfind,if_neg (by simp)]
  dsimp only
  rw [hlast]
  split_ifs with hdata
  · rfl
  · rw [rfind_loop_eq (Nat.sub_le _ _),hrest,hone]
    simp only [mtrieFind]
    rw [if_neg hdata,if_neg fun hsame => hdata hsame.2.2]

/-- The search from the end agrees with that of the reversed key exactly where it stops at the last byte
or finds nothing. -/
theorem Laid.rfind_eq_iff (h : Laid t own bins) (bs : List UInt8) (c : UInt8) (len : ℕ) :
    Down.mtrieRfind t (bs ++ [c]) len = mtrieFind t (c::bs.reverse) len ↔
      t.Stored [c] ∨ ∀ m, ¬ t.Stored ((c::bs.reverse).take m) := by
  rw [rfind_eq,h.stored_iff (At.root c)]
  by_cases hdata : (t.nodes c.toNat).data ≠ 0
  · rw [if_pos hdata]
    refine iff_of_true ?_ (.inl hdata)
    simp only [mtrieFind]
    rw [if_pos hdata]
  · rw [if_neg hdata,or_iff_right hdata]
    generalize hr : mtrieFind t (c::bs.reverse) len = r
    have hshort := h.find c bs.reverse len
    rw [hr] at hshort
    cases hshort with
    | @hit v n hn hv below =>
      refine iff_of_false ?_ fun hnone => hnone n ⟨v,hv⟩
      intro heq
      have hzero : n = 0 := by
        have hlen := congrArg Prod.snd heq
        dsimp only at hlen
        omega
      subst hzero
      exact not_stored_nil ⟨v,hv⟩
    | miss hnone =>
      refine iff_of_true rfl fun m => ?_
      rcases le_or_gt m (c::bs.reverse).length with hle | hgt
      · exact hnone m hle
      · rw [List.take_of_length_le hgt.le,← List.take_length (l := c::bs.reverse)]
        exact hnone _ le_rfl

/-- The other one agrees but for a key of one byte that is not stored. -/
theorem Laid.rmaxfind_eq_iff (h : Laid t own bins) (bs : List UInt8) (c : UInt8) (len : ℕ) :
    Down.mtrieRmaxfind t (bs ++ [c]) len = mtrieMaxfind t (c::bs.reverse) len ↔
      t.Stored [c] ∨ bs ≠ [] := by
  have htotal : c.toNat < t.total := by
    have hlt := h.lt_current (At.root c)
    have hcap := h.capacity
    omega
  obtain ⟨hlast,hrest⟩ := snoc_down bs c
  have hone : (bs ++ [c]).length - ((bs ++ [c]).length - 1) = 1 := by simp
  have hlen : (bs ++ [c]).length = 1 ↔ bs = [] := by simp
  rw [Down.mtrieRmaxfind,if_neg (by simp),h.stored_iff (At.root c)]
  dsimp only
  rw [hlast]
  simp only [mtrieMaxfind]
  by_cases hbs : bs = []
  · rw [if_pos ⟨hlen.mpr hbs,htotal⟩,or_iff_left (not_not.mpr hbs),hbs]
    by_cases hdata : (t.nodes c.toNat).data ≠ 0
    · rw [if_pos ⟨rfl,htotal,hdata⟩]
      exact iff_of_true rfl hdata
    · rw [if_neg fun hsame => hdata hsame.2.2,if_neg hdata]
      refine iff_of_false ?_ hdata
      intro heq
      exact absurd (congrArg Prod.snd heq) Nat.one_ne_zero
  · have hback : ¬ (bs.reverse = [] ∧ c.toNat < t.total ∧ (t.nodes c.toNat).data ≠ 0) :=
      fun hsame => hbs (List.reverse_eq_nil_iff.mp hsame.1)
    rw [if_neg fun hsame => hbs (hlen.mp hsame.1),if_neg hback,rmaxfind_loop_eq (Nat.sub_le _ _),hrest,
      hone]
    exact iff_of_true rfl (.inr hbs)

end

/-- After any sequence of calls the searches from the end of a key find what those of the reversed key
do, with the same length, exactly where the last byte by itself is stored, or the key has more bytes and
no key that it ends with is stored. -/
theorem mtrie_reverse_search_iff (ops : List TrieOp) (bs : List UInt8) (c : UInt8) (len : ℕ) :
    let t := ops.foldl TrieOp.apply mtrieInit
    let key := bs ++ [c]
    (Down.mtrieRfind t key len = mtrieFind t key.reverse len ∧
        Down.mtrieRmaxfind t key len = mtrieMaxfind t key.reverse len) ↔
      t.Stored [c] ∨ bs ≠ [] ∧ ∀ m, ¬ t.Stored (key.reverse.take m) := by
  intro t key
  obtain ⟨a,⟨own,bins,hlaid⟩,-,-⟩ := trie_mapped ops
  have hrev : key.reverse = c::bs.reverse := by simp [key]
  rw [hrev,hlaid.rfind_eq_iff bs c len,hlaid.rmaxfind_eq_iff bs c len]
  constructor
  · rintro ⟨hlast | hnone,hmax⟩
    · exact .inl hlast
    · exact hmax.imp_right fun hbs => ⟨hbs,hnone⟩
  · rintro (hlast | ⟨hbs,hnone⟩)
    · exact ⟨.inl hlast,.inl hlast⟩
    · exact ⟨.inr hnone,.inr hbs⟩

/-- With "ab" in the trie, `mtrie_rfind` finds it at the end of "ba" and reports one byte; and on an
empty trie `mtrie_rmaxfind` of "a" reports one byte. -/
theorem mtrie_rfind_short :
    let t := [TrieOp.add [97,98] 1].foldl TrieOp.apply mtrieInit
    Down.mtrieRfind t [98,97] 0 ≠ mtrieFind t [98,97].reverse 0 ∧
      Down.mtrieRmaxfind mtrieInit [97] 0 ≠ mtrieMaxfind mtrieInit [97].reverse 0 := by
  decide +kernel

end Sbase
