import Mathlib.Tactic

/-! Binary search by halving between two bounds that enclose the key. -/
namespace Bisect

variable {α : Type*} [LinearOrder α]

/-- Halves the range between `lo` and `hi` until it meets the key or no index is left between them. -/
def search (key : ℕ → α) (b : α) (lo hi : ℕ) : Option ℕ :=
  if lo < hi then
    let z := (hi + lo)/2
    if z = lo then some z
    else if key z = b then some z
    else if key z < b then search key b z hi
    else search key b lo z
  else none
termination_by hi - lo

/-- Between bounds that enclose the key, the search ends at the key or just below it. -/
theorem search_spec (key : ℕ → α) {b : α} {lo hi : ℕ} (hlt : lo < hi) (hlo : key lo < b)
    (hhi : b < key hi) : ∃ j, search key b lo hi = some j ∧ lo ≤ j ∧ j < hi ∧
      (key j = b ∨ key j < b ∧ b < key (j+1)) := by
  induction hn : hi - lo using Nat.strong_induction_on generalizing lo hi with
  | _ n ih =>
    rw [search,if_pos hlt]
    dsimp only
    by_cases hz : (hi + lo)/2 = lo
    · rw [if_pos hz]
      have hnext : hi = lo + 1 := by omega
      exact ⟨_,rfl,by omega,by omega,.inr ⟨by rwa [hz],by rwa [hz,← hnext]⟩⟩
    · rw [if_neg hz]
      by_cases heq : key ((hi + lo)/2) = b
      · rw [if_pos heq]
        exact ⟨_,rfl,by omega,by omega,.inl heq⟩
      · rw [if_neg heq]
        by_cases hbelow : key ((hi + lo)/2) < b
        · rw [if_pos hbelow]
          obtain ⟨j,hj,hlo',hhi',hspec⟩ := ih _ (by omega) (by omega) hbelow hhi rfl
          exact ⟨j,hj,by omega,hhi',hspec⟩
        · rw [if_neg hbelow]
          have habove : b < key ((hi + lo)/2) := lt_of_le_of_ne (not_lt.1 hbelow) (Ne.symm heq)
          obtain ⟨j,hj,hlo',hhi',hspec⟩ := ih _ (by omega) (by omega) hlo habove rfl
          exact ⟨j,hj,hlo',by omega,hspec⟩

/-- The search stays above its lower bound. -/
theorem le_of_search {key : ℕ → α} {b : α} {lo hi j : ℕ} (h : search key b lo hi = some j) : lo ≤ j := by
  induction hn : hi - lo using Nat.strong_induction_on generalizing lo hi with
  | _ n ih =>
    rw [search] at h
    dsimp only at h
    split_ifs at h with hlt hz heq hbelow
    · cases h
      omega
    · cases h
      omega
    · have hle := ih _ (by omega) h rfl
      omega
    · exact ih _ (by omega) h rfl

end Bisect
