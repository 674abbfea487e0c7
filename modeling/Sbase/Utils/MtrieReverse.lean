import Sbase.Utils.MtrieIds

/-! The functions of `utils/mtrie.c` that read a key from its last byte down: they do to the trie what
their counterparts do with the reversed key. -/
namespace Sbase
open BlockTree

namespace Down

/-- The loop of `mtrie_radd`. The bytes at `p-1` and before are still to be read. -/
def mtrieRwalk (t : Mtrie) (key : List UInt8) (i : ℕ) : ℕ → Mtrie × Option ℕ
  | 0 => (t,some i)
  | p+1 =>
    match (mtrieStep t i (key.getD p 0)).2 with
    | some j => mtrieRwalk (mtrieStep t i (key.getD p 0)).1 key j p
    | none => ((mtrieStep t i (key.getD p 0)).1,none)

/-- The common body of `mtrie_radd` and `mtrie_rxadd`. -/
def mtrieRstore (fail : ℤ) (issue : Mtrie → Mtrie × ℤ) (t : Mtrie) (key : List UInt8) : Mtrie × ℤ :=
  if key = [] then (t,-5)
  else
    let p := key.length - 1
    let r := mtrieRwalk t key (key.getD p 0).toNat p
    match r.2 with
    | some i =>
      if (r.1.nodes i).data = 0 then
        let s := issue r.1
        (s.1.modify i fun d => { d with data := s.2 }, s.2)
      else (r.1,(r.1.nodes i).data)
    | none => (r.1,fail)

/-- `mtrie_radd` -/
def mtrieRadd (t : Mtrie) (key : List UInt8) (data : ℤ) : Mtrie × ℤ :=
  mtrieRstore (-1) (givenData data) t key

/-- `mtrie_rxadd`, which does not return -3 where no block is found. -/
def mtrieRxadd (t : Mtrie) (key : List UInt8) : Mtrie × ℤ := mtrieRstore (-1) nextId t key

/-- The node at which `mtrie_rget` goes on. It does not test that the children lie behind the roots. -/
def mtrieRnext (t : Mtrie) (i : ℕ) (b : UInt8) : Option ℕ :=
  if 0 < (t.nodes i).nchilds then
    let min := (t.nodes i).childs
    let max := min + (t.nodes i).nchilds - 1
    if b = (t.nodes min).key then some min
    else if b = (t.nodes max).key then some max
    else if b.toNat < (t.nodes min).key.toNat then none
    else if (t.nodes max).key.toNat < b.toNat then none
    else
      let x := (Bisect.search (fun z => (t.nodes z).key.toNat) b.toNat min max).getD 0
      if (t.nodes x).key ≠ b then none else some x
  else some i

/-- The loop of `mtrie_rget` and `mtrie_rdel`, which differ in the search among the children. -/
def mtrieRlookup (next : ℕ → UInt8 → Option ℕ) (t : Mtrie) (key : List UInt8) (i : ℕ) : ℕ → Option ℕ
  | 0 => none
  | p+1 =>
    (next i (key.getD p 0)).bind fun i =>
      if i < t.total ∧ ((t.nodes i).nchilds = 0 ∨ p = 0) then
        if (t.nodes i).key ≠ key.getD p 0 then none
        else if p = 0 then some i
        else none
      else mtrieRlookup next t key i p

/-- `mtrie_rget` -/
def mtrieRget (t : Mtrie) (key : List UInt8) : ℤ :=
  if key = [] then 0
  else
    let p := key.length - 1
    let i := (key.getD p 0).toNat
    if key.length = 1 ∧ i < t.total then (t.nodes i).data
    else (mtrieRlookup (mtrieRnext t) t key i p).elim 0 fun i => (t.nodes i).data

/-- `mtrie_rdel` -/
def mtrieRdel (t : Mtrie) (key : List UInt8) : Mtrie × ℤ :=
  if key = [] then (t,0)
  else
    let clear := fun i => (t.modify i fun d => { d with data := 0 }, (t.nodes i).data)
    let p := key.length - 1
    let i := (key.getD p 0).toNat
    if key.length = 1 ∧ i < t.total ∧ (t.nodes i).data ≠ 0 then clear i
    else (mtrieRlookup (mtrieNext t) t key i p).elim (t,0) clear

end Down

/-! ### Reading downwards -/

section

variable {t : Mtrie} {key : List UInt8} {i p : ℕ}

/-- The bytes that a pointer meets on its way down from `p`. -/
theorem reverse_take_succ (hp : p < key.length) :
    (key.take (p+1)).reverse = key.getD p 0::(key.take p).reverse := by
  have hget : key.getD p 0 = key[p] := by simp [List.getD,hp]
  rw [List.take_succ_eq_append_getElem hp,List.reverse_append,hget]
  rfl

/-- The last byte, and the others downwards. -/
theorem reverse_eq_cons (hkey : key ≠ []) :
    key.reverse = key.getD (key.length - 1) 0::(key.take (key.length - 1)).reverse := by
  have hlen : 0 < key.length := List.length_pos_of_ne_nil hkey
  rw [← reverse_take_succ (by omega),Nat.sub_add_cancel hlen,List.take_length]

/-- A key is a byte by itself where nothing is left below its last byte. -/
theorem length_eq_one_iff (hkey : key ≠ []) : key.length = 1 ↔ (key.take (key.length - 1)).reverse = [] := by
  have hpos : 0 < key.length := List.length_pos_of_ne_nil hkey
  rw [List.reverse_eq_nil_iff,← List.length_eq_zero_iff,List.length_take]
  omega

theorem rwalk_eq (hp : p ≤ key.length) :
    Down.mtrieRwalk t key i p = mtrieWalk t i (key.take p).reverse := by
  induction p generalizing t i with
  | zero => rfl
  | succ p ih =>
    rw [reverse_take_succ hp,Down.mtrieRwalk,mtrieWalk]
    cases (mtrieStep t i (key.getD p 0)).2 with
    | some j => exact ih (by omega)
    | none => rfl

theorem rstore_eq (fail : ℤ) (issue : Mtrie → Mtrie × ℤ) (t : Mtrie) (key : List UInt8) :
    Down.mtrieRstore fail issue t key = mtrieStore fail issue t key.reverse := by
  by_cases hkey : key = []
  · rw [hkey]
    rfl
  · rw [Down.mtrieRstore,if_neg hkey,reverse_eq_cons hkey,mtrieStore]
    dsimp only
    rewrite [rwalk_eq (Nat.sub_le _ _)]
    rfl

/-- The loop of `mtrie_rget`, over nodes at which its search is that of `mtrie_get`. -/
theorem rlookup_eq {next : ℕ → UInt8 → Option ℕ} {P : ℕ → Prop}
    (hnext : ∀ {i}, P i → ∀ b, next i b = mtrieNext t i b ∧ ∀ j, mtrieNext t i b = some j → P j)
    (hi : P i) (hp : p ≤ key.length) :
    Down.mtrieRlookup next t key i p = mtrieLookup t i (key.take p).reverse := by
  induction p generalizing i with
  | zero => rfl
  | succ p ih =>
    obtain ⟨hsame,hstay⟩ := hnext hi (key.getD p 0)
    have hempty : (key.take p).reverse = [] ↔ p = 0 := by
      rw [List.reverse_eq_nil_iff,← List.length_eq_zero_iff,List.length_take]
      omega
    rw [reverse_take_succ hp,Down.mtrieRlookup,mtrieLookup,hsame]
    cases hj : mtrieNext t i (key.getD p 0) with
    | none => rfl
    | some j =>
      simp only [Option.bind_some,hempty]
      rw [ih (hstay j hj) (by omega)]

/-- Where the children lie behind the roots, `mtrie_rget` goes on as `mtrie_get` does. -/
theorem rnext_eq (h : 0 < (t.nodes i).nchilds → MTRIE_LINE_MAX ≤ (t.nodes i).childs) (b : UInt8) :
    Down.mtrieRnext t i b = mtrieNext t i b := by
  rw [Down.mtrieRnext,mtrieNext]
  by_cases hpos : 0 < (t.nodes i).nchilds
  · have hline : MTRIE_LINE_MAX = 256 := rfl
    have hfloor := h hpos
    rw [if_pos hpos,if_pos (And.intro hpos hfloor),mtrieSeek]
    dsimp only
    rw [if_pos (And.intro hpos hfloor)]
    by_cases hmin : b = (t.nodes (t.nodes i).childs).key
    · rw [if_pos hmin,if_pos hmin,Int.toNat_natCast,if_neg]
      rintro (hx | hx | hx)
      · omega
      · omega
      · exact hx hmin.symm
    rw [if_neg hmin,if_neg hmin]
    by_cases hmax : b = (t.nodes ((t.nodes i).childs + (t.nodes i).nchilds - 1)).key
    · rw [if_pos hmax,if_pos hmax,Int.toNat_natCast,if_neg]
      rintro (hx | hx | hx)
      · omega
      · omega
      · exact hx hmax.symm
    rw [if_neg hmax,if_neg hmax]
    by_cases hbelow : b.toNat < (t.nodes (t.nodes i).childs).key.toNat
    · rw [if_pos hbelow,if_pos hbelow,if_pos (.inl rfl)]
    rw [if_neg hbelow,if_neg hbelow]
    by_cases habove : (t.nodes ((t.nodes i).childs + (t.nodes i).nchilds - 1)).key.toNat < b.toNat
    · rw [if_pos habove,if_pos habove,if_pos (.inr (.inl rfl))]
    rw [if_neg habove,if_neg habove,Int.toNat_natCast]
    generalize hx : (Bisect.search (fun z => (t.nodes z).key.toNat) b.toNat (t.nodes i).childs
      ((t.nodes i).childs + (t.nodes i).nchilds - 1)).getD 0 = x
    have hone : x ≠ 1 := by
      cases hj : Bisect.search (fun z => (t.nodes z).key.toNat) b.toNat (t.nodes i).childs
          ((t.nodes i).childs + (t.nodes i).nchilds - 1) with
      | none =>
        rw [hj] at hx
        cases hx
        decide
      | some j =>
        rw [hj] at hx
        cases hx
        have hlow := Bisect.le_of_search hj
        rw [Option.getD_some]
        omega
    have hcond : ((x : ℤ) = -1 ∨ (x : ℤ) = 1 ∨ (t.nodes x).key ≠ b) ↔ (t.nodes x).key ≠ b := by
      constructor
      · rintro (hneg | heq | hkey)
        · omega
        · omega
        · exact hkey
      · exact fun hkey => .inr (.inr hkey)
    simp only [hcond]
  · rw [if_neg hpos,if_neg fun hcond => hpos hcond.1]

end

/-! ### Runs -/

/-- The functions that change a trie, with keys read from either end. -/
inductive TrieOp
  | add (key : List UInt8) (data : ℤ)
  | xadd (key : List UInt8)
  | del (key : List UInt8)
  | radd (key : List UInt8) (data : ℤ)
  | rxadd (key : List UInt8)
  | rdel (key : List UInt8)

def TrieOp.apply (t : Mtrie) : TrieOp → Mtrie
  | add key data => (mtrieAdd t key data).1
  | xadd key => (mtrieXadd t key).1
  | del key => (mtrieDel t key).1
  | radd key data => (Down.mtrieRadd t key data).1
  | rxadd key => (Down.mtrieRxadd t key).1
  | rdel key => (Down.mtrieRdel t key).1

section

variable {t : Mtrie} {own : ℕ → Holder UInt8} {bins : ℕ → List ℕ} {w key : List UInt8} {i : ℕ}

/-- From a node in use `mtrie_get` goes on to a node in use. -/
theorem Laid.next_live (h : Laid t own bins) (hi : t.Live i) {b : UInt8} {j : ℕ}
    (hj : mtrieNext t i b = some j) : t.Live j := by
  obtain ⟨w,hw⟩ := hi
  by_cases hpos : 0 < (t.nodes i).nchilds
  · rcases h.next_child (b := b) hw hpos with ⟨j',hnext,hj',-⟩ | ⟨hnext,-⟩
    · rw [hnext] at hj
      cases hj
      exact ⟨_,hj'⟩
    · rw [hnext] at hj
      cases hj
  · rw [mtrieNext,if_neg fun hcond => hpos hcond.1] at hj
    cases hj
    exact ⟨w,hw⟩

theorem rdel_eq (t : Mtrie) (key : List UInt8) : Down.mtrieRdel t key = mtrieDel t key.reverse := by
  by_cases hkey : key = []
  · rw [hkey]
    rfl
  · rw [Down.mtrieRdel,if_neg hkey,reverse_eq_cons hkey,mtrieDel]
    dsimp only
    rw [rlookup_eq (P := fun _ => True) (fun _ b => ⟨rfl,fun _ _ => trivial⟩) trivial (Nat.sub_le _ _)]
    simp only [length_eq_one_iff hkey]

theorem Laid.rget_eq (h : Laid t own bins) (key : List UInt8) :
    Down.mtrieRget t key = mtrieGet t key.reverse := by
  by_cases hkey : key = []
  · rw [hkey]
    rfl
  · have hnext : ∀ {i}, t.Live i → ∀ b, Down.mtrieRnext t i b = mtrieNext t i b ∧
        ∀ j, mtrieNext t i b = some j → t.Live j := fun hi b =>
      ⟨rnext_eq (fun hpos => (h.bounds hi.choose_spec hpos).1) b,fun j hj => h.next_live hi hj⟩
    have hlookup := rlookup_eq hnext ⟨_,At.root (key.getD (key.length - 1) 0)⟩ (Nat.sub_le key.length 1)
    rw [Down.mtrieRget,if_neg hkey,reverse_eq_cons hkey,mtrieGet]
    dsimp only
    rw [hlookup]
    simp only [length_eq_one_iff hkey]

/-- The walk never lacks a block, so that it does not matter what is returned then. -/
theorem Laid.store_fail (h : Laid t own bins) (fail fail' : ℤ) (issue : Mtrie → Mtrie × ℤ)
    (key : List UInt8) : mtrieStore fail issue t key = mtrieStore fail' issue t key := by
  cases key with
  | nil => rfl
  | cons b bs =>
    obtain ⟨t',j,-,-,hwalk,-⟩ := h.walk bs (At.root b)
    simp only [mtrieStore,hwalk]

end

namespace Mapped

variable {t : Mtrie} {a : KeyMap}

/-- An addition of any data leaves a trie that stands for some map. -/
theorem store_mapped (h : Mapped t a) (key : List UInt8) (fail : ℤ) (issue : Mtrie → Mtrie × ℤ)
    (id data : ℤ) (hissue : ∀ s : Mtrie, s.id = a.id → issue s = ({ s with id := id },data)) :
    ∃ a', Mapped (mtrieStore fail issue t key).1 a' := by
  by_cases hkey : key = []
  · rw [hkey]
    exact ⟨a,h⟩
  · obtain ⟨hnew,hold⟩ := h.store hkey fail issue id data hissue
    by_cases hzero : a.value key = 0
    · exact ⟨_,(hnew hzero).2⟩
    · exact ⟨_,(hold hzero).2⟩

/-- So does a deletion, in the exception too. -/
theorem del_mapped (h : Mapped t a) (key : List UInt8) : ∃ a', Mapped (mtrieDel t key).1 a' := by
  by_cases hkey : key = []
  · rw [hkey]
    exact ⟨a,h⟩
  · by_cases hleaf : (MapOp.del key).MeetsLeaf t
    · obtain ⟨c,hsought,hnone,-⟩ := hleaf
      cases hsought
      exact ⟨_,h.del_leaf hnone⟩
    · exact ⟨_,(h.del hkey hleaf).2⟩

theorem apply (h : Mapped t a) (op : TrieOp) : ∃ a', Mapped (op.apply t) a' := by
  cases op with
  | add key data => exact h.store_mapped key _ _ a.id data fun s hs => by rw [← hs]; rfl
  | xadd key => exact h.store_mapped key _ _ (a.id + 1) (a.id + 1) fun s hs => by rw [← hs]; rfl
  | del key => exact h.del_mapped key
  | radd key data =>
    rw [TrieOp.apply,Down.mtrieRadd,rstore_eq]
    exact h.store_mapped key.reverse _ _ a.id data fun s hs => by rw [← hs]; rfl
  | rxadd key =>
    rw [TrieOp.apply,Down.mtrieRxadd,rstore_eq]
    exact h.store_mapped key.reverse _ _ (a.id + 1) (a.id + 1) fun s hs => by rw [← hs]; rfl
  | rdel key =>
    rw [TrieOp.apply,rdel_eq]
    exact h.del_mapped key.reverse

end Mapped

/-- After any sequence of calls the trie stands for some map. -/
theorem trie_mapped (ops : List TrieOp) : ∃ a, Mapped (ops.foldl TrieOp.apply mtrieInit) a := by
  have hrun : ∀ (ops : List TrieOp) {t a}, Mapped t a → ∃ a', Mapped (ops.foldl TrieOp.apply t) a' := by
    intro ops
    induction ops with
    | nil => intro t a h; exact ⟨a,h⟩
    | cons op ops ih =>
      intro t a h
      obtain ⟨a',h'⟩ := h.apply op
      exact ih h'
  exact hrun ops mtrieInit_mapped

/-- After any sequence of calls from either end, the functions that read a key from its end return what
the others return for the reversed key, and leave the same trie. -/
theorem mtrie_reverse_updates (ops : List TrieOp) (key : List UInt8) (data : ℤ) :
    let t := ops.foldl TrieOp.apply mtrieInit
    Down.mtrieRadd t key data = mtrieAdd t key.reverse data ∧
      Down.mtrieRxadd t key = mtrieXadd t key.reverse ∧
      Down.mtrieRget t key = mtrieGet t key.reverse ∧
      Down.mtrieRdel t key = mtrieDel t key.reverse := by
  intro t
  obtain ⟨a,⟨own,bins,hlaid⟩,-,-⟩ := trie_mapped ops
  refine ⟨rstore_eq _ _ _ _,?_,hlaid.rget_eq key,rdel_eq _ _⟩
  rw [Down.mtrieRxadd,rstore_eq,mtrieXadd]
  exact hlaid.store_fail _ _ _ _

end Sbase
