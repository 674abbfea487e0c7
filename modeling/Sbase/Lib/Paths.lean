import Mathlib.Data.List.Basic

/-! Names of files, as they are read when `.` and `..` are taken out of their text.

A name is a list over any alphabet with a separator and a dot. The place it denotes is the list of the
names on the way there from the root, and `..` at the root stays at the root. -/
namespace Sbase.Paths

variable {α ν : Type*}

/-! ### Steps -/

/-- A part of a name that leads somewhere: to the parent, or to an entry. -/
inductive Seg (ν : Type*)
  | up
  | down (n : ν)
  deriving DecidableEq

/-- One step from a place. -/
def Seg.step : List ν → Seg ν → List ν
  | d, up => d.dropLast
  | d, down n => d ++ [n]

/-- The place where a list of steps ends. -/
def walk (d : List ν) (s : List (Seg ν)) : List ν := s.foldl Seg.step d

theorem walk_append (d : List ν) (s t : List (Seg ν)) : walk d (s ++ t) = walk (walk d s) t :=
  List.foldl_append

/-! ### Steps in normal form -/

/-- Steps without a detour: so many to the parent, and then down by names. -/
structure Rel (ν : Type*) where
  ups : ℕ
  names : List ν

namespace Rel

/-- One more step. It takes back a name where there is one. -/
def step (r : Rel ν) : Seg ν → Rel ν
  | .up => if r.names = [] then ⟨r.ups + 1,[]⟩ else ⟨r.ups,r.names.dropLast⟩
  | .down n => ⟨r.ups,r.names ++ [n]⟩

/-- The place that is reached from `d`. -/
def place (d : List ν) (r : Rel ν) : List ν := d.take (d.length - r.ups) ++ r.names

theorem place_step (d : List ν) (r : Rel ν) (x : Seg ν) :
    (r.step x).place d = x.step (r.place d) := by
  cases x with
  | down n => exact (List.append_assoc _ _ _).symm
  | up =>
    by_cases hnames : r.names = []
    · rw [step,if_pos hnames]
      simp only [place,Seg.step,hnames,List.append_nil]
      rw [List.dropLast_eq_take,List.take_take,List.length_take]
      congr 1
      omega
    · rw [step,if_neg hnames]
      exact (List.dropLast_append_of_ne_nil hnames).symm

end Rel

/-- The normal form of a list of steps. -/
def rel (s : List (Seg ν)) : Rel ν := s.foldl Rel.step ⟨0,[]⟩

/-- A walk ends where its normal form leads. -/
theorem walk_eq (d : List ν) (s : List (Seg ν)) : walk d s = (rel s).place d := by
  have hrun : ∀ r : Rel ν, walk (r.place d) s = (s.foldl Rel.step r).place d := by
    induction s with
    | nil => exact fun _ => rfl
    | cons x s ih =>
      intro r
      have hstep := ih (r.step x)
      rw [Rel.place_step] at hstep
      exact hstep
  have hstart : (⟨0,[]⟩ : Rel ν).place d = d := by simp [Rel.place]
  have h := hrun ⟨0,[]⟩
  rwa [hstart] at h

/-- Steps that leave `d` by its last names at most to come back by the same names. -/
def Returns (d : List ν) (s : List (Seg ν)) : Prop :=
  d.drop (d.length - (rel s).ups) <+: (rel s).names

instance [DecidableEq ν] (d : List ν) (s : List (Seg ν)) : Decidable (Returns d s) :=
  inferInstanceAs (Decidable (_ <+: _))

/-- A walk from `d` ends below `d` exactly when it returns by the names it left. -/
theorem prefix_walk_iff (d : List ν) (s : List (Seg ν)) : d <+: walk d s ↔ Returns d s := by
  have hsplit : d = d.take (d.length - (rel s).ups) ++ d.drop (d.length - (rel s).ups) :=
    (List.take_append_drop _ d).symm
  rw [walk_eq,Rel.place,Returns]
  nth_rewrite 1 [hsplit]
  exact List.prefix_append_right_inj _

/-! ### The text of a name -/

section Text
variable [DecidableEq α] (sep dot : α)

/-- What a part of a name stands for. Empty parts and single dots lead nowhere. -/
def seg (w : List α) : Option (Seg (List α)) :=
  if w = [] ∨ w = [dot] then none else if w = [dot,dot] then some .up else some (.down w)

/-- The steps of a name. -/
def segs (s : List α) : List (Seg (List α)) := (s.splitOn sep).filterMap (seg dot)

@[simp] theorem segs_nil : segs sep dot [] = [] := by simp [segs,seg]

theorem segs_append_cons (s t : List α) :
    segs sep dot (s ++ sep::t) = segs sep dot s ++ segs sep dot t := by
  simp only [segs,List.splitOn_append_cons_self,List.filterMap_append]

@[simp] theorem segs_cons (t : List α) : segs sep dot (sep::t) = segs sep dot t := by
  simpa using segs_append_cons sep dot [] t

/-- The place that a name denotes, where `cwd` is the working directory. -/
def resolve (cwd : List (List α)) (s : List α) : List (List α) :=
  walk (if s.head? = some sep then [] else cwd) (segs sep dot s)

/-- A name that continues another one leads on from its place. -/
theorem resolve_append_cons (cwd : List (List α)) {s : List α} (hs : s ≠ []) (t : List α) :
    resolve sep dot cwd (s ++ sep::t) = walk (resolve sep dot cwd s) (segs sep dot t) := by
  have hhead : (s ++ sep::t).head? = s.head? := by
    cases s with
    | nil => exact absurd rfl hs
    | cons c s => rfl
  rw [resolve,hhead,segs_append_cons,walk_append]
  rfl

end Text

end Sbase.Paths
