import Mathlib.Tactic
import Mathlib.Order.CompletePartialOrder

/-! Pages of numbered files, shared out in runs: runs that are held, runs on free lists by their length,
the rest of the last file, and the files that are not open yet. No page belongs to two of them. -/
namespace PagePool

/-- A run of pages in a file. -/
structure Extent where
  file : ℕ
  first : ℕ
  pages : ℕ
  deriving DecidableEq, Repr

namespace Extent

def none : Extent := ⟨0,0,0⟩

/-- The pages of a run, each with its file. -/
def cells (e : Extent) : Set (ℕ × ℕ) := {q | q.1 = e.file ∧ e.first ≤ q.2 ∧ q.2 < e.first+e.pages}

theorem cells_eq_empty {e : Extent} (h : e.pages = 0) : e.cells = ∅ := by
  ext q
  constructor
  · rintro ⟨-,hfirst,hlast⟩
    omega
  · exact False.elim

@[simp] theorem cells_none : none.cells = ∅ := cells_eq_empty rfl

theorem first_mem {e : Extent} (h : 0 < e.pages) : (e.file,e.first) ∈ e.cells :=
  ⟨rfl,le_rfl,Nat.lt_add_of_pos_right h⟩

end Extent

/-- A share of disjoint parts is disjoint, if each piece lies in one part and pieces of the same part are
disjoint. -/
theorem disjoint_of_parts {ι κ α : Type*} {f : ι → Set α} {g : κ → Set α}
    (h : Pairwise (Function.onFun Disjoint f)) (part : κ → ι) (hsub : ∀ k, g k ⊆ f (part k))
    (hsame : ∀ k l, k ≠ l → part k = part l → Disjoint (g k) (g l)) :
    Pairwise (Function.onFun Disjoint g) := by
  intro k l hkl
  by_cases hpart : part k = part l
  · exact hsame k l hkl hpart
  · exact (h hpart).mono (hsub k) (hsub l)

/-- The runs that `ι` holds, the free lists, the last file and the pages of it that have been given out. -/
structure Pool (ι : Type*) where
  held : ι → Extent
  free : ℕ → List (ℕ × ℕ)
  last : ℕ
  used : ℕ

inductive Owner (ι : Type*)
  | held (i : ι)
  | free (x k : ℕ)
  | tail
  | rest
  deriving DecidableEq

namespace Pool
variable {ι κ : Type*} {p q : Pool ι} {cap x k : ℕ} {b : ℕ × ℕ} {i j : ι}

/-- The run at place `k` of the free list for runs of `x` pages. -/
def freeAt (p : Pool ι) (x k : ℕ) : Extent := ((p.free x)[k]?).elim .none fun b => ⟨b.1,b.2,x⟩

/-- The pages of an owner, in files of `cap` pages. -/
def cells (cap : ℕ) (p : Pool ι) : Owner ι → Set (ℕ × ℕ)
  | .held i => (p.held i).cells
  | .free x k => (p.freeAt x k).cells
  | .tail => (⟨p.last,p.used,cap-p.used⟩ : Extent).cells
  | .rest => {c | p.last < c.1 ∧ c.2 < cap}

/-- No page has two owners, and every page lies in its file. -/
structure Sound (cap : ℕ) (p : Pool ι) : Prop where
  disjoint : Pairwise (Function.onFun Disjoint (p.cells cap))
  bound : ∀ o, ∀ c ∈ p.cells cap o, c.2 < cap
  used : p.used ≤ cap

/-- The pages of a sound pool shared out again. -/
theorem Sound.of_parts {q : Pool κ} (h : p.Sound cap) (part : Owner κ → Owner ι)
    (hsub : ∀ o, q.cells cap o ⊆ p.cells cap (part o))
    (hsame : ∀ o o', o ≠ o' → part o = part o' → Disjoint (q.cells cap o) (q.cells cap o'))
    (hused : q.used ≤ cap) : q.Sound cap where
  disjoint := disjoint_of_parts h.disjoint part hsub hsame
  bound o c hc := h.bound (part o) c (hsub o hc)
  used := hused

/-- A run that is held or free lies in a file that is open. -/
theorem Sound.file_le (h : p.Sound cap) {o : Owner ι} (ho : o ≠ .rest) {c : ℕ × ℕ} (hc : c ∈ p.cells cap o) :
    c.1 ≤ p.last := by
  by_contra hlast
  exact Set.disjoint_left.mp (h.disjoint ho) hc ⟨not_le.mp hlast,h.bound o c hc⟩

theorem freeAt_getElem (hk : (p.free x)[k]? = some b) : p.freeAt x k = ⟨b.1,b.2,x⟩ := by
  rw [freeAt,hk]
  rfl

theorem freeAt_push (hfree : q.free = Function.update p.free x (b :: p.free x)) :
    q.freeAt x 0 = ⟨b.1,b.2,x⟩ ∧ (∀ k, q.freeAt x (k+1) = p.freeAt x k) ∧
      ∀ y ≠ x, q.freeAt y = p.freeAt y := by
  refine ⟨?_,fun k => ?_,fun y hy => ?_⟩
  · rw [freeAt,hfree,Function.update_self]
    rfl
  · rw [freeAt,hfree,Function.update_self]
    rfl
  · funext k
    rw [freeAt,hfree,Function.update_of_ne hy]
    rfl

/-- The owner, before a run of `x` pages of `o` went to its free list, of what is now another's. -/
def pushPart (o : Owner ι) (x : ℕ) : Owner ι → Owner ι
  | .free y k => if y = x then k.casesOn o (.free x) else .free y k
  | o' => o'

theorem pushPart_cases (o : Owner ι) (x : ℕ) (a : Owner ι) :
    (pushPart o x a = o ∧ a = .free x 0) ∨
      (∃ y k, pushPart o x a = .free y k ∧ a = .free y (if y = x then k+1 else k)) ∨
      (pushPart o x a = a ∧ ∀ y k, a ≠ .free y k) := by
  cases a with
  | held i => exact .inr (.inr ⟨rfl,nofun⟩)
  | tail => exact .inr (.inr ⟨rfl,nofun⟩)
  | rest => exact .inr (.inr ⟨rfl,nofun⟩)
  | free y k =>
    unfold pushPart
    dsimp only
    by_cases hy : y = x
    · rw [if_pos hy,hy]
      cases k with
      | zero => exact .inl ⟨rfl,rfl⟩
      | succ k => exact .inr (.inl ⟨x,k,rfl,by rw [if_pos rfl]⟩)
    · rw [if_neg hy]
      exact .inr (.inl ⟨y,k,rfl,by rw [if_neg hy]⟩)

theorem pushPart_eq {o a c : Owner ι} (ho : ∀ y k, o ≠ .free y k) (h : pushPart o x a = pushPart o x c) :
    a = c ∨ a = o ∨ c = o := by
  obtain ⟨ha,rfl⟩ | ⟨y,k,ha,rfl⟩ | ⟨ha,hother⟩ := pushPart_cases o x a
  · obtain ⟨hc,rfl⟩ | ⟨z,l,hc,rfl⟩ | ⟨hc,-⟩ := pushPart_cases o x c
    · exact .inl rfl
    · exact absurd (ha.symm.trans (h.trans hc)) (ho z l)
    · exact .inr (.inr (hc.symm.trans (h.symm.trans ha)))
  · obtain ⟨hc,rfl⟩ | ⟨z,l,hc,rfl⟩ | ⟨hc,hc'⟩ := pushPart_cases o x c
    · exact absurd (hc.symm.trans (h.symm.trans ha)) (ho y k)
    · injection ha.symm.trans (h.trans hc) with hlist hplace
      rw [hlist,hplace]
      exact .inl rfl
    · exact absurd (hc.symm.trans (h.symm.trans ha)) (hc' y k)
  · obtain ⟨hc,rfl⟩ | ⟨z,l,hc,rfl⟩ | ⟨hc,-⟩ := pushPart_cases o x c
    · exact .inr (.inl (ha.symm.trans (h.trans hc)))
    · exact absurd (ha.symm.trans (h.trans hc)) (hother z l)
    · exact .inl (ha.symm.trans (h.trans hc))

/-- A run of `o` goes to its free list. -/
theorem Sound.push (h : p.Sound cap) (o : Owner ι) (ho : ∀ y k, o ≠ .free y k)
    (hfree : q.free = Function.update p.free x (b :: p.free x))
    (hrun : (⟨b.1,b.2,x⟩ : Extent).cells ⊆ p.cells cap o) (hempty : q.cells cap o = ∅)
    (hother : ∀ o', (∀ y k, o' ≠ .free y k) → q.cells cap o' ⊆ p.cells cap o') (hused : q.used ≤ cap) :
    q.Sound cap := by
  obtain ⟨hhead,htail,hlists⟩ := freeAt_push hfree
  apply h.of_parts (pushPart o x) ?_ ?_ hused
  · intro o'
    cases o' with
    | held i => exact hother _ nofun
    | tail => exact hother _ nofun
    | rest => exact hother _ nofun
    | free y k =>
      unfold pushPart
      change (q.freeAt y k).cells ⊆ _
      dsimp only
      split_ifs with hy
      · rw [hy]
        cases k with
        | zero =>
          rw [hhead]
          exact hrun
        | succ k =>
          rw [htail]
          exact subset_rfl
      · rw [hlists y hy]
        exact subset_rfl
  · intro a c hac hpart
    obtain hsame | rfl | rfl := pushPart_eq ho hpart
    · exact absurd hsame hac
    · rw [hempty]
      exact Set.empty_disjoint _
    · rw [hempty]
      exact Set.disjoint_empty _

/-- The owner, before `o` took the first run of the free list for `x` pages, of what is now another's. -/
def popPart [DecidableEq ι] (o : Owner ι) (x : ℕ) : Owner ι → Owner ι
  | .free y k => if y = x then .free x (k+1) else .free y k
  | o' => if o' = o then .free x 0 else o'

theorem pushPart_popPart [DecidableEq ι] (o a : Owner ι) :
    pushPart o x (popPart o x a) = a := by
  have hother : ∀ a : Owner ι, (∀ y k, a ≠ .free y k) → popPart o x a = if a = o then .free x 0 else a := by
    intro a ha
    cases a with
    | free y k => exact absurd rfl (ha y k)
    | held i => rfl
    | tail => rfl
    | rest => rfl
  by_cases hfree : ∃ y k, a = .free y k
  · obtain ⟨y,k,rfl⟩ := hfree
    unfold popPart
    dsimp only
    split_ifs with hy
    · rw [hy]
      exact if_pos rfl
    · exact if_neg hy
  · have ha : ∀ y k, a ≠ .free y k := fun y k h => hfree ⟨y,k,h⟩
    rw [hother a ha]
    split_ifs with hao
    · rw [hao]
      exact if_pos rfl
    · obtain ⟨-,h⟩ | ⟨y,k,-,h⟩ | ⟨h,-⟩ := pushPart_cases o x a
      · exact absurd h (ha _ _)
      · exact absurd h (ha _ _)
      · exact h

/-- `o` takes the first run of a free list. -/
theorem Sound.pop [DecidableEq ι] (h : p.Sound cap) (o : Owner ι) (hfree : p.free = Function.update q.free x (b :: q.free x))
    (hrun : q.cells cap o ⊆ (⟨b.1,b.2,x⟩ : Extent).cells)
    (hother : ∀ o' ≠ o, (∀ y k, o' ≠ .free y k) → q.cells cap o' ⊆ p.cells cap o') (hused : q.used ≤ cap) :
    q.Sound cap := by
  obtain ⟨hhead,htail,hlists⟩ := freeAt_push hfree
  have hplain : ∀ a : Owner ι, (∀ y k, a ≠ .free y k) →
      q.cells cap a ⊆ p.cells cap (if a = o then .free x 0 else a) := by
    intro a ha
    split_ifs with hao
    · rw [hao]
      change _ ⊆ (p.freeAt x 0).cells
      rw [hhead]
      exact hrun
    · exact hother a hao ha
  apply h.of_parts (popPart o x) ?_ ?_ hused
  · intro a
    cases a with
    | held i => exact hplain _ nofun
    | tail => exact hplain _ nofun
    | rest => exact hplain _ nofun
    | free y k =>
      unfold popPart
      dsimp only
      split_ifs with hy
      · change (q.freeAt y k).cells ⊆ (p.freeAt x (k+1)).cells
        rw [hy,htail]
      · change (q.freeAt y k).cells ⊆ (p.freeAt y k).cells
        rw [hlists y hy]
  · intro a c hac hpart
    rw [← pushPart_popPart o a,hpart,pushPart_popPart o c] at hac
    exact absurd rfl hac

/-- `o` hands on to `o'`, which held nothing, a part of its pages. -/
theorem Sound.pass [DecidableEq ι] (h : p.Sound cap) (o o' : Owner ι) (hrun : q.cells cap o' ⊆ p.cells cap o)
    (hsplit : Disjoint (q.cells cap o) (q.cells cap o'))
    (hother : ∀ a ≠ o', q.cells cap a ⊆ p.cells cap a) (hused : q.used ≤ cap) : q.Sound cap := by
  apply h.of_parts (fun a => if a = o' then o else a) ?_ ?_ hused
  · intro a
    split_ifs with ha
    · rw [ha]
      exact hrun
    · exact hother a ha
  · intro a c hac hpart
    split_ifs at hpart with ha hc hc
    · exact absurd (ha.trans hc.symm) hac
    · rw [ha,← hpart]
      exact hsplit.symm
    · rw [hc,hpart]
      exact hsplit
    · exact absurd hpart hac

/-- The same pool, with some of its holders left out. -/
theorem Sound.reindex (h : p.Sound cap) {f : κ → ι} (hf : f.Injective) :
    (⟨p.held ∘ f,p.free,p.last,p.used⟩ : Pool κ).Sound cap := by
  let part : Owner κ → Owner ι
    | .held i => .held (f i)
    | .free x k => .free x k
    | .tail => .tail
    | .rest => .rest
  apply h.of_parts part ?_ ?_ h.used
  · intro a
    cases a <;> exact subset_rfl
  · intro a c hac hpart
    cases a <;> cases c <;> simp_all [part,hf.eq_iff]

end Pool

/-- Two successors that agree along a walk walk alike. -/
theorem iterate_congr {α : Type*} {f g : α → α} {a : α} {n : ℕ} (h : ∀ b ∈ List.iterate f a n, g b = f b) :
    List.iterate g a n = List.iterate f a n := by
  induction n generalizing a with
  | zero => rfl
  | succ n ih =>
    rw [List.iterate,List.iterate,h a List.mem_cons_self]
    rw [ih fun b hb => h b (List.mem_cons_of_mem a hb)]

end PagePool
