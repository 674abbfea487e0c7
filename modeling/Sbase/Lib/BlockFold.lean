import Mathlib.Tactic

/-! Folding a stream over blocks of a fixed width: what is left over waits for more of the stream, so the
result does not depend on how the stream comes in. -/
namespace BlockFold

variable {σ α : Type*} (f : σ → List α → σ) (n : ℕ)

/-- Fold the whole blocks of a text; the second part is what is left over. -/
def consume (s : σ) (xs : List α) : σ × List α :=
  if _h : 0 < n ∧ n ≤ xs.length then consume (f s (xs.take n)) (xs.drop n) else (s,xs)
termination_by xs.length
decreasing_by simp only [List.length_drop]; omega

variable {f n} {s : σ} {xs ys : List α}

theorem consume_short (h : xs.length < n) : consume f n s xs = (s,xs) := by
  rw [consume]
  exact dif_neg (by omega)

@[simp] theorem consume_nil : consume f n s [] = (s,[]) := by
  rw [consume]
  exact dif_neg fun h => absurd (h.1.trans_le h.2) (lt_irrefl _)

theorem consume_step (hn : 0 < n) (h : n ≤ xs.length) :
    consume f n s xs = consume f n (f s (xs.take n)) (xs.drop n) := by
  rw [consume]
  exact dif_pos ⟨hn,h⟩

/-- One block in front. -/
theorem consume_block (hn : 0 < n) (h : xs.length = n) :
    consume f n s (xs ++ ys) = consume f n (f s xs) ys := by
  subst h
  rw [consume_step hn (by simp),List.take_left,List.drop_left]

theorem consume_append (hn : 0 < n) :
    consume f n s (xs ++ ys) = consume f n (consume f n s xs).1 ((consume f n s xs).2 ++ ys) := by
  induction hlen : xs.length using Nat.strong_induction_on generalizing s xs with
  | _ k ih =>
    subst hlen
    rcases lt_or_ge xs.length n with h | h
    · simp [consume_short h]
    · have htake : (xs.take n).length = n := by simp [h]
      have hcut : xs ++ ys = xs.take n ++ (xs.drop n ++ ys) := by simp [← List.append_assoc]
      rw [hcut,consume_block hn htake,consume_step hn h]
      exact ih (xs.drop n).length (by simp; omega) rfl

theorem consume_left (hn : 0 < n) : (consume f n s xs).2.length = xs.length % n := by
  induction hlen : xs.length using Nat.strong_induction_on generalizing s xs with
  | _ k ih =>
    subst hlen
    rcases lt_or_ge xs.length n with h | h
    · rw [consume_short h,Nat.mod_eq_of_lt h]
    · rw [consume_step hn h,ih (xs.drop n).length (by simp; omega) rfl,List.length_drop]
      exact (Nat.mod_eq_sub_mod h).symm

end BlockFold
