import Mathlib.Tactic

/-! Labelled transition systems: finite runs, guards on their steps, and the induction rules
by which an invariant of one step is an invariant of every run. -/
namespace Runs

variable {σ α : Type*}

/-- The runs of a step relation, with the labels of their steps in order. -/
inductive Run (step : σ → α → σ → Prop) (s : σ) : List α → σ → Prop
  | refl : Run step s [] s
  | snoc {ls t l u} (run : Run step s ls t) (last : step t l u) : Run step s (ls ++ [l]) u

/-- The steps of a system that meet a condition on the state they start from and their label. -/
def Guarded (guard : σ → α → Prop) (step : σ → α → σ → Prop) : σ → α → σ → Prop :=
  fun s l t => guard s l ∧ step s l t

/-- The relation of a system whose steps are computed by a function. -/
def ofFun (f : σ → α → σ) : σ → α → σ → Prop := fun s l t => t = f s l

/-- A partial step function, undefined where the label is not enabled. -/
def ofPartial (f : σ → α → Option σ) : σ → α → σ → Prop := fun s l t => f s l = some t

variable {step : σ → α → σ → Prop} {s t u : σ} {ls ks : List α}

theorem Run.one {l : α} (h : step s l t) : Run step s [l] t := Run.snoc .refl h

theorem run_one {l : α} : Run step s [l] t ↔ step s l t := by
  constructor
  · intro h
    generalize hls : [l] = ls at h
    cases h with
    | refl => cases hls
    | snoc run last =>
      rw [← List.nil_append [l]] at hls
      obtain ⟨hnil,hl⟩ := List.append_inj' hls rfl
      cases hl
      subst hnil
      generalize hms : ([] : List α) = ms at run
      cases run with
      | refl => exact last
      | snoc _ _ => simp at hms
  · exact Run.one

theorem Run.trans (h : Run step s ls t) (k : Run step t ks u) : Run step s (ls ++ ks) u := by
  induction k with
  | refl => simpa using h
  | snoc _ last ih => rw [← List.append_assoc]; exact ih.snoc last

theorem Run.cons {l : α} (h : step s l t) (k : Run step t ls u) : Run step s (l::ls) u :=
  (Run.one h).trans k

/-- A run over two lists of labels stops in between. -/
theorem Run.split (h : Run step s (ls ++ ks) u) : ∃ t, Run step s ls t ∧ Run step t ks u := by
  induction ks using List.reverseRecOn generalizing u with
  | nil => exact ⟨u,by simpa using h,.refl⟩
  | append_singleton ks l ih =>
    rw [← List.append_assoc] at h
    generalize hms : ls ++ ks ++ [l] = ms at h
    cases h with
    | refl => simp at hms
    | snoc run last =>
      obtain ⟨hms,hl⟩ := List.append_inj' hms rfl
      subst hms
      cases hl
      obtain ⟨t,ht,hks⟩ := ih run
      exact ⟨t,ht,hks.snoc last⟩

/-- The induction rule of safety: what holds at the start and survives every step always holds. -/
theorem Run.invariant (h : Run step s ls t) (I : σ → Prop) (hs : I s)
    (hstep : ∀ a l b, I a → step a l b → I b) : I t := by
  induction h with
  | refl => exact hs
  | snoc _ last ih => exact hstep _ _ _ ih last

theorem Run.mono {step' : σ → α → σ → Prop} (hsub : ∀ a l b, step a l b → step' a l b)
    (h : Run step s ls t) : Run step' s ls t := by
  induction h with
  | refl => exact .refl
  | snoc _ last ih => exact ih.snoc (hsub _ _ _ last)

/-- A run of a step function computes the fold of its labels. -/
theorem run_ofFun_iff {f : σ → α → σ} : Run (ofFun f) s ls t ↔ t = ls.foldl f s := by
  constructor
  · intro h
    induction h with
    | refl => rfl
    | snoc _ last ih => rw [List.foldl_concat, ← ih]; exact last
  · rintro rfl
    induction ls using List.reverseRecOn with
    | nil => exact .refl
    | append_singleton ls l ih => rw [List.foldl_concat]; exact ih.snoc rfl

/-- The guard holds before each step of a step function's run. -/
def Allowed (guard : σ → α → Prop) (f : σ → α → σ) (s : σ) : List α → Prop
  | [] => True
  | l::ls => guard s l ∧ Allowed guard f (f s l) ls

theorem Allowed.run {guard : σ → α → Prop} {f : σ → α → σ} (h : Allowed guard f s ls) :
    Run (Guarded guard (ofFun f)) s ls (ls.foldl f s) := by
  induction ls generalizing s with
  | nil => exact .refl
  | cons l ls ih => exact Run.cons ⟨h.1, rfl⟩ (ih h.2)

/-- In a run whose steps all meet a condition, a property that follows from an invariant and that each step
outside its guard destroys holds in every state exactly when the run stays within the guard. -/
theorem always_iff_allowed_within {base guard : σ → α → Prop} {f : σ → α → σ} {I P : σ → Prop}
    (hP : ∀ a, I a → P a) (hstep : ∀ a l, I a → base a l → guard a l → I (f a l))
    (hbad : ∀ a l, I a → base a l → ¬ guard a l → ¬ P (f a l)) (hs : I s) {ls : List α}
    (hbase : Allowed base f s ls) : (∀ ks, ks <+: ls → P (ks.foldl f s)) ↔ Allowed guard f s ls := by
  induction ls generalizing s with
  | nil => simp [Allowed,hP s hs]
  | cons l ls ih =>
    constructor
    · intro h
      have hg : guard s l := by
        by_contra hg
        exact hbad s l hs hbase.1 hg (h [l] ⟨ls,rfl⟩)
      refine ⟨hg,(ih (hstep s l hs hbase.1 hg) hbase.2).mp fun ks hks => ?_⟩
      exact h (l::ks) (List.cons_prefix_cons.2 ⟨rfl,hks⟩)
    · intro h ks hks
      cases ks with
      | nil => exact hP s hs
      | cons k ks =>
        obtain ⟨rfl,hpre⟩ := List.cons_prefix_cons.1 hks
        exact (ih (hstep s k hs hbase.1 h.1) hbase.2).mpr h.2 ks hpre

theorem allowed_true {f : σ → α → σ} (ls : List α) : Allowed (fun _ _ => True) f s ls := by
  induction ls generalizing s with
  | nil => trivial
  | cons l ls ih => exact ⟨trivial,ih⟩

/-- A property that follows from an invariant and that each step outside its guard destroys holds in
every state of a step function's run exactly when the run stays within the guard. -/
theorem always_iff_allowed {guard : σ → α → Prop} {f : σ → α → σ} {I P : σ → Prop}
    (hP : ∀ a, I a → P a) (hstep : ∀ a l, I a → guard a l → I (f a l))
    (hbad : ∀ a l, I a → ¬ guard a l → ¬ P (f a l)) (hs : I s) (ls : List α) :
    (∀ ks, ks <+: ls → P (ks.foldl f s)) ↔ Allowed guard f s ls :=
  always_iff_allowed_within hP (fun a l ha _ => hstep a l ha) (fun a l ha _ => hbad a l ha) hs
    (allowed_true ls)

/-- What each step of a step function's run meets is what the run is guarded by. -/
theorem steps_iff_allowed {P : σ → α → Prop} {f : σ → α → σ} (ls : List α) :
    (∀ ks l, ks ++ [l] <+: ls → P (ks.foldl f s) l) ↔ Allowed P f s ls := by
  induction ls generalizing s with
  | nil => simp [Allowed]
  | cons l ls ih =>
    constructor
    · intro h
      refine ⟨h [] l ⟨ls,rfl⟩,ih.mp fun ks k hks => ?_⟩
      exact h (l::ks) k (List.cons_prefix_cons.2 ⟨rfl,hks⟩)
    · intro h ks k hks
      cases ks with
      | nil =>
        obtain ⟨rfl,-⟩ := List.cons_prefix_cons.1 hks
        exact h.1
      | cons m ks =>
        obtain ⟨rfl,hpre⟩ := List.cons_prefix_cons.1 hks
        exact ih.mpr h.2 ks k hpre

end Runs
