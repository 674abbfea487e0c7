import Mathlib.Tactic

/-! Tables of slots searched from the front: the first slot with a property, and the number of
slots in use kept as a counter. -/
namespace Slots

/-- The first index of a range with a property. -/
def seek (p : ℕ → Bool) (lo hi : ℕ) : Option ℕ := (List.range' lo (hi - lo)).find? p

variable {p : ℕ → Bool} {lo hi i : ℕ}

theorem mem_of_seek (h : seek p lo hi = some i) : lo ≤ i ∧ i < hi ∧ p i := by
  have hmem := List.mem_of_find?_eq_some h
  have hp := List.find?_some h
  rw [List.mem_range'_1] at hmem
  exact ⟨hmem.1,by omega,hp⟩

theorem seek_eq_none_iff : seek p lo hi = none ↔ ∀ i, lo ≤ i → i < hi → p i = false := by
  simp only [seek,List.find?_eq_none,List.mem_range'_1,Bool.not_eq_true]
  constructor
  · intro h i hlo hhi
    apply h
    omega
  · intro h i hi
    apply h <;> omega

theorem seek_isSome (hlo : lo ≤ i) (hhi : i < hi) (hp : p i) : ∃ j, seek p lo hi = some j := by
  apply Option.ne_none_iff_exists'.1
  intro h
  rw [seek_eq_none_iff] at h
  simp [h i hlo hhi] at hp

theorem seek_eq_some (hlo : lo ≤ i) (hhi : i < hi) (hp : p i)
    (hfirst : ∀ j, lo ≤ j → j < i → p j = false) : seek p lo hi = some i := by
  rw [seek,List.find?_range'_eq_some]
  refine ⟨hp,List.mem_range'_1.mpr ⟨hlo,by omega⟩,?_⟩
  intro j hj hji
  simp [hfirst j hj hji]

/-- A loop over the first slots of a table without holes meets its entries in order. -/
theorem filterMap_getElem? {α : Type*} (xs : List α) (n : ℕ) :
    (List.range n).filterMap (fun i => xs[i]?) = xs.take n := by
  induction n with
  | zero => rfl
  | succ n ih =>
    rw [List.range_succ,List.filterMap_append,ih,List.take_add_one]
    cases h : xs[n]? <;> simp [h]

section Counters
variable {p q : ℕ → Prop} [DecidablePred p] [DecidablePred q] {n x : ℕ}

theorem count_congr (h : ∀ i < n, p i ↔ q i) : Nat.count p n = Nat.count q n := by
  rw [Nat.count_eq_card_filter_range,Nat.count_eq_card_filter_range]
  congr 1
  apply Finset.filter_congr
  intro i hi
  exact h i (Finset.mem_range.1 hi)

/-- Filling a slot adds one to the number of slots in use. -/
theorem count_fill (hx : x < n) (hp : ¬ p x) (hq : q x) (h : ∀ i, i ≠ x → (q i ↔ p i)) :
    Nat.count q n = Nat.count p n + 1 := by
  have hset : (Finset.range n).filter q = insert x ((Finset.range n).filter p) := by
    ext i
    by_cases hi : i = x
    · subst hi; simp [hx,hq]
    · simp [hi,h i hi]
  rw [Nat.count_eq_card_filter_range,Nat.count_eq_card_filter_range,hset,
    Finset.card_insert_of_notMem (by simp [hp])]

/-- A slot is free when fewer are in use than there are. -/
theorem exists_free (h : Nat.count p n < n) : ∃ i < n, ¬ p i := by
  by_contra hall
  push Not at hall
  have hfull : Nat.count p n = n := by
    rw [Nat.count_eq_card_filter_range,Finset.filter_true_of_mem,Finset.card_range]
    intro i hi
    exact hall i (Finset.mem_range.1 hi)
  omega

end Counters

end Slots
