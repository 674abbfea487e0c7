import Mathlib.Tactic

/-! Loops of fallible steps, run with fuel.

A computation that may not end is a family indexed by its fuel. It returns a value when some fuel gives
that value; where more fuel never changes a value, the returns of a sequence are those of its parts. -/
namespace FuelLoop

universe u v

variable {ε : Type v} {α β σ ρ : Type u}

/-- Some fuel gives the value `a`. -/
def Returns (f : ℕ → Except ε α) (a : α) : Prop := ∃ n, f n = .ok a

/-- More fuel never changes a value. -/
def Stable (f : ℕ → Except ε α) : Prop := ∀ n m a, n ≤ m → f n = .ok a → f m = .ok a

theorem bind_eq_ok {x : Except ε α} {f : α → Except ε β} {b : β} :
    x >>= f = .ok b ↔ ∃ a, x = .ok a ∧ f a = .ok b := by
  cases x with
  | error e => simp [bind,Except.bind]
  | ok a => simp [bind,Except.bind]

theorem Stable.const (x : Except ε α) : Stable fun _ => x :=
  fun _ _ _ _ h => h

theorem Stable.bind {f : ℕ → Except ε α} {g : ℕ → α → Except ε β} (hf : Stable f)
    (hg : ∀ a, Stable fun n => g n a) : Stable fun n => f n >>= g n := by
  intro n m b hnm h
  obtain ⟨a,ha,hb⟩ := bind_eq_ok.mp h
  exact bind_eq_ok.mpr ⟨a,hf n m a hnm ha,hg a n m b hnm hb⟩

theorem Stable.bind_const {f : ℕ → Except ε α} (hf : Stable f) (g : α → Except ε β) :
    Stable fun n => f n >>= g :=
  hf.bind fun a => .const (g a)

@[simp] theorem returns_const {x : Except ε α} {a : α} : (Returns fun _ => x) a ↔ x = .ok a :=
  ⟨fun ⟨_,h⟩ => h,fun h => ⟨0,h⟩⟩

/-- A sequence returns what its second part returns on a value of its first. -/
theorem returns_bind {f : ℕ → Except ε α} {g : ℕ → α → Except ε β} (hf : Stable f)
    (hg : ∀ a, Stable fun n => g n a) {b : β} :
    Returns (fun n => f n >>= g n) b ↔ ∃ a, Returns f a ∧ Returns (fun n => g n a) b := by
  constructor
  · intro ⟨n,h⟩
    obtain ⟨a,ha,hb⟩ := bind_eq_ok.mp h
    exact ⟨a,⟨n,ha⟩,n,hb⟩
  · intro ⟨a,⟨n,ha⟩,m,hb⟩
    refine ⟨max n m,bind_eq_ok.mpr ⟨a,?_,?_⟩⟩
    · exact hf n _ a (le_max_left n m) ha
    · exact hg a m _ b (le_max_right n m) hb

/-- A step without fuel in front of a computation with fuel. -/
theorem returns_const_bind {x : Except ε α} {g : ℕ → α → Except ε β} {b : β} :
    Returns (fun n => x >>= g n) b ↔ ∃ a, x = .ok a ∧ Returns (fun n => g n a) b := by
  constructor
  · intro ⟨n,h⟩
    obtain ⟨a,ha,hb⟩ := bind_eq_ok.mp h
    exact ⟨a,ha,n,hb⟩
  · intro ⟨a,ha,n,hb⟩
    exact ⟨n,bind_eq_ok.mpr ⟨a,ha,hb⟩⟩

/-- A step without fuel behind a computation with fuel. -/
theorem returns_bind_const {f : ℕ → Except ε α} {g : α → Except ε β} (hf : Stable f) {b : β} :
    Returns (fun n => f n >>= g) b ↔ ∃ a, Returns f a ∧ g a = .ok b := by
  rw [returns_bind (g := fun _ => g) hf fun _ => .const _]
  simp only [returns_const]

/-! ### The loop -/

/-- The loop over `body`, which goes on with a new state, leaves with a result or fails. -/
def run (out : ε) (body : σ → Except ε (σ ⊕ ρ)) : ℕ → σ → Except ε ρ
  | 0,_ => .error out
  | n+1,s => do
    match ← body s with
    | .inl s' => run out body n s'
    | .inr r => .ok r

/-- The loop leaves with `r`, as a derivation. -/
inductive Halts (body : σ → Except ε (σ ⊕ ρ)) : σ → ρ → Prop
  | leave {s r} : body s = .ok (.inr r) → Halts body s r
  | next {s s' r} : body s = .ok (.inl s') → Halts body s' r → Halts body s r

variable {out : ε} {body : σ → Except ε (σ ⊕ ρ)} {s s' : σ} {r : ρ} {n : ℕ}

theorem run_of_leave (h : body s = .ok (.inr r)) : run out body (n+1) s = .ok r := by
  simp [run,h,bind,Except.bind]

theorem run_of_next (h : body s = .ok (.inl s')) : run out body (n+1) s = run out body n s' := by
  simp [run,h,bind,Except.bind]

theorem halts_of_run (h : run out body n s = .ok r) : Halts body s r := by
  induction n generalizing s with
  | zero => cases h
  | succ n ih =>
    obtain ⟨x,hx,hr⟩ := bind_eq_ok.mp h
    cases x with
    | inl s' => exact .next hx (ih hr)
    | inr r' =>
      cases hr
      exact .leave hx

theorem Halts.exists_run (h : Halts body s r) : ∃ n, ∀ m, n ≤ m → run out body m s = .ok r := by
  induction h with
  | leave hb =>
    refine ⟨1,fun m hm => ?_⟩
    obtain ⟨k,rfl⟩ := Nat.exists_eq_add_of_le' hm
    exact run_of_leave hb
  | next hb _ ih =>
    obtain ⟨n,hn⟩ := ih
    refine ⟨n+1,fun m hm => ?_⟩
    obtain ⟨k,rfl⟩ := Nat.exists_eq_add_of_le' hm
    exact (run_of_next hb).trans (hn (k+n) (Nat.le_add_left n k))

theorem returns_run : Returns (fun n => run out body n s) r ↔ Halts body s r :=
  ⟨fun ⟨_,h⟩ => halts_of_run h,fun h => h.exists_run.imp fun n hn => hn n le_rfl⟩

theorem stable_run : Stable fun n => run out body n s := by
  intro n m r hnm h
  induction n generalizing s m with
  | zero => cases h
  | succ n ih =>
    obtain ⟨k,rfl⟩ := Nat.exists_eq_add_of_le' hnm
    obtain ⟨x,hx,hr⟩ := bind_eq_ok.mp h
    cases x with
    | inl s' => exact (run_of_next hx).trans (ih (k+n) (Nat.le_add_left n k) hr)
    | inr r' =>
      cases hr
      exact run_of_leave hx

end FuelLoop
