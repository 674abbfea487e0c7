import Sbase.Lib.Runs

/-! Infinite runs of a step function under weak fairness, and two rules for what eventually
happens in them. -/
namespace Runs

variable {σ α : Type*}

/-- An infinite run with the labels of its steps. -/
structure Trace (f : σ → α → σ) where
  state : ℕ → σ
  label : ℕ → α
  next : ∀ n, state (n+1) = f (state n) (label n)

/-- The states of the run from `s` whose labels are given. -/
def stateAt (f : σ → α → σ) (s : σ) (label : ℕ → α) : ℕ → σ
  | 0 => s
  | n+1 => f (stateAt f s label n) (label n)

def Trace.follow (f : σ → α → σ) (s : σ) (label : ℕ → α) : Trace f :=
  ⟨stateAt f s label,label,fun _ => rfl⟩

/-- A step that is enabled from some time on is taken. -/
def WeaklyFair (enabled taken : ℕ → Prop) : Prop := ∀ n, ∃ k ≥ n, taken k ∨ ¬ enabled k

/-- A fair step that stays enabled until there is progress, and makes progress when it is taken,
leads to progress. -/
theorem WeaklyFair.progress {enabled taken goal : ℕ → Prop} (fair : WeaklyFair enabled taken)
    {n : ℕ} (hstart : enabled n) (hkeep : ∀ k ≥ n, enabled k → ¬ goal k → enabled (k+1))
    (htake : ∀ k ≥ n, enabled k → taken k → goal k) : ∃ k ≥ n, goal k := by
  by_contra hnever
  have hnot : ∀ k ≥ n, ¬ goal k := fun k hk hg => hnever ⟨k,hk,hg⟩
  have henabled : ∀ d, enabled (n+d) := by
    intro d
    induction d with
    | zero => exact hstart
    | succ d ih => exact hkeep (n+d) (Nat.le_add_right n d) ih (hnot _ (Nat.le_add_right n d))
  obtain ⟨k,hk,htaken | hdis⟩ := fair n
  · have he := henabled (k-n)
    rw [Nat.add_sub_cancel' hk] at he
    exact hnot k hk (htake k hk he htaken)
  · have he := henabled (k-n)
    rw [Nat.add_sub_cancel' hk] at he
    exact hdis he

/-- A measure that never grows before the goal, and that always shrinks again, reaches the goal. -/
theorem eventually_of_variant {goal : ℕ → Prop} (m : ℕ → ℕ) {n : ℕ}
    (hle : ∀ k ≥ n, ¬ goal k → m (k+1) ≤ m k)
    (hlt : ∀ k ≥ n, ¬ goal k → ∃ j ≥ k, goal j ∨ m (j+1) < m j) : ∃ k ≥ n, goal k := by
  induction hv : m n using Nat.strong_induction_on generalizing n with
  | _ v ih =>
    by_contra hnever
    have hnot : ∀ k ≥ n, ¬ goal k := fun k hk hg => hnever ⟨k,hk,hg⟩
    have hmono : ∀ d, m (n+d) ≤ m n := by
      intro d
      induction d with
      | zero => exact le_rfl
      | succ d ihd =>
        have hd : n+d ≥ n := Nat.le_add_right n d
        exact (hle (n+d) hd (hnot _ hd)).trans ihd
    obtain ⟨j,hj,hg | hlt'⟩ := hlt n le_rfl (hnot n le_rfl)
    · exact hnot j hj hg
    · have hjn := hmono (j-n)
      rw [Nat.add_sub_cancel' hj] at hjn
      have hj' : n ≤ j+1 := hj.trans (Nat.le_succ j)
      obtain ⟨k,hk,hg⟩ := ih (m (j+1)) (by omega) (fun k hk => hle k (hj'.trans hk))
        (fun k hk => hlt k (hj'.trans hk)) rfl
      exact hnot k (hj'.trans hk) hg

/-- What holds at the start of an infinite run and survives its steps always holds. -/
theorem Trace.invariant {f : σ → α → σ} (ρ : Trace f) (I : σ → Prop) {n : ℕ} (hs : I (ρ.state n))
    (hstep : ∀ k ≥ n, I (ρ.state k) → I (f (ρ.state k) (ρ.label k))) : ∀ k ≥ n, I (ρ.state k) := by
  intro k hk
  induction k, hk using Nat.le_induction with
  | base => exact hs
  | succ k hk ih =>
    rw [ρ.next]
    exact hstep k hk ih

end Runs
