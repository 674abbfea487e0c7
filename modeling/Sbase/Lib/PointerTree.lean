import Mathlib.Tactic

/-! Binary trees threaded through a store of nodes by child and parent pointers.

The two sides of a node are an index, so that what is done at the leftmost node and at the
rightmost one is one operation. `Shaped` says that the pointers below a root spell out a tree;
hanging a leaf where a descent ends and splicing out the outermost node are lemmas about it. -/
namespace PointerTree

inductive Side
  | left
  | right
deriving DecidableEq, Repr

def Side.flip : Side → Side
  | left => right
  | right => left

@[simp] theorem Side.flip_flip (s : Side) : s.flip.flip = s := by cases s <;> rfl
@[simp] theorem Side.flip_ne (s : Side) : s.flip ≠ s := by cases s <;> decide
@[simp] theorem Side.ne_flip (s : Side) : s ≠ s.flip := by cases s <;> decide
theorem Side.eq_flip_of_ne {s t : Side} (h : t ≠ s) : t = s.flip := by
  cases s <;> cases t <;> simp_all [flip]

variable {ι : Type*}

/-- The pointers of a store of nodes. -/
structure Links (ι : Type*) where
  child : Side → ι → Option ι
  parent : ι → Option ι

/-- The shape that pointers spell out. -/
inductive PTree (ι : Type*)
  | nil
  | node (a : ι) (sub : Side → PTree ι)

namespace PTree

def root : PTree ι → Option ι
  | nil => none
  | node a _ => some a

/-- The nodes in order, starting from one side. -/
def walk (s : Side) : PTree ι → List ι
  | nil => []
  | node a sub => (sub s).walk s ++ a :: (sub s.flip).walk s

theorem walk_flip (s : Side) (t : PTree ι) : t.walk s.flip = (t.walk s).reverse := by
  induction t with
  | nil => rfl
  | node a sub ih => simp [walk, ih]

theorem walk_reverse (s r : Side) (t : PTree ι) :
    t.walk r = t.walk s ∨ t.walk r = (t.walk s).reverse := by
  by_cases h : r = s
  · subst h; exact .inl rfl
  · rw [Side.eq_flip_of_ne h]; exact .inr (t.walk_flip s)

instance : Membership ι (PTree ι) := ⟨fun t i => i ∈ t.walk .left⟩

theorem mem_walk {s : Side} {t : PTree ι} {i : ι} : i ∈ t.walk s ↔ i ∈ t := by
  change i ∈ t.walk s ↔ i ∈ t.walk .left
  rcases t.walk_reverse .left s with h | h
  · rw [h]
  · rw [h, List.mem_reverse]

theorem nodup_walk {s : Side} (r : Side) {t : PTree ι} (h : (t.walk s).Nodup) : (t.walk r).Nodup := by
  rcases t.walk_reverse s r with hr | hr
  · rwa [hr]
  · rw [hr]; exact List.nodup_reverse.mpr h

theorem length_walk (s r : Side) (t : PTree ι) : (t.walk s).length = (t.walk r).length := by
  rcases t.walk_reverse r s with h | h
  · rw [h]
  · rw [h, List.length_reverse]

@[simp] theorem not_mem_nil (i : ι) : i ∉ (nil : PTree ι) := by
  change i ∉ []
  exact List.not_mem_nil

theorem mem_node {a i : ι} {sub : Side → PTree ι} : i ∈ node a sub ↔ i = a ∨ ∃ s, i ∈ sub s := by
  rw [← mem_walk (s := .left)]
  simp only [walk, List.mem_append, List.mem_cons, mem_walk]
  constructor
  · rintro (h | h | h)
    · exact .inr ⟨_, h⟩
    · exact .inl h
    · exact .inr ⟨_, h⟩
  · rintro (h | ⟨s, h⟩)
    · exact .inr (.inl h)
    · cases s with
      | left => exact .inl h
      | right => exact .inr (.inr h)

theorem mem_of_root {t : PTree ι} {a : ι} (h : t.root = some a) : a ∈ t := by
  cases t with
  | nil => cases h
  | node b sub => cases h; exact mem_node.mpr (.inl rfl)

/-- The parts of a tree without repetitions. -/
theorem nodup_node {s : Side} {a : ι} {sub : Side → PTree ι} (h : ((node a sub).walk s).Nodup) :
    (∀ r, ((sub r).walk s).Nodup) ∧ (∀ r, a ∉ sub r) ∧
      ∀ r i, i ∈ sub r → i ∉ sub r.flip := by
  simp only [walk, List.nodup_append, List.nodup_cons] at h
  obtain ⟨hs, ⟨ha, hf⟩, hne⟩ := h
  have hsplit : ∀ r, r = s ∨ r = s.flip := fun r => or_iff_not_imp_left.mpr Side.eq_flip_of_ne
  refine ⟨fun r => ?_, fun r hr => ?_, fun r i hi hj => ?_⟩
  · rcases hsplit r with rfl | rfl
    · exact hs
    · exact hf
  · rcases hsplit r with rfl | rfl
    · exact hne a (mem_walk.mpr hr) a (by simp) rfl
    · exact ha (mem_walk.mpr hr)
  · rcases hsplit r with rfl | rfl
    · exact hne i (mem_walk.mpr hi) i (by simp [mem_walk, hj]) rfl
    · rw [Side.flip_flip] at hj
      exact hne i (mem_walk.mpr hj) i (by simp [mem_walk, hi]) rfl

/-- A new leaf where the descent along `dir` falls off the tree. -/
def insertAt (dir : ι → Side) (p : ι) : PTree ι → PTree ι
  | nil => node p fun _ => nil
  | node a sub => node a (Function.update sub (dir a) ((sub (dir a)).insertAt dir p))

/-- The last node of the descent along `dir`. -/
def spot (dir : ι → Side) : PTree ι → Option ι
  | nil => none
  | node a sub => ((sub (dir a)).spot dir).or (some a)

theorem spot_eq_none (dir : ι → Side) {t : PTree ι} : t.spot dir = none ↔ t = nil := by
  cases t <;> simp [spot]

theorem mem_of_spot {dir : ι → Side} {t : PTree ι} {q : ι} (h : t.spot dir = some q) : q ∈ t := by
  induction t with
  | nil => cases h
  | node a sub ih =>
    rw [spot] at h
    cases hq : (sub (dir a)).spot dir with
    | none => rw [hq] at h; cases h; exact mem_node.mpr (.inl rfl)
    | some r =>
      rw [hq, Option.some_or] at h
      exact mem_node.mpr (.inr ⟨_, ih _ (hq.trans h)⟩)

theorem spot_const (s : Side) (t : PTree ι) : (t.spot fun _ => s) = (t.walk s).head? := by
  induction t with
  | nil => rfl
  | node a sub ih => simp [spot, walk, ih]

/-- The leaf stands between the nodes that sent the descent on and those that turned it back. -/
theorem walk_insertAt {s : Side} {dir : ι → Side} {p : ι} {t : PTree ι} (xs ys : List ι)
    (h : t.walk s = xs ++ ys) (hx : ∀ x ∈ xs, dir x = s.flip) (hy : ∀ y ∈ ys, dir y = s) :
    (t.insertAt dir p).walk s = xs ++ p :: ys := by
  induction t generalizing xs ys with
  | nil =>
    obtain ⟨rfl, rfl⟩ := List.append_eq_nil_iff.mp h.symm
    rfl
  | node a sub ih =>
    rw [walk] at h
    rcases List.append_eq_append_iff.mp h with ⟨zs, hxs, hzs⟩ | ⟨zs, hzs, hys⟩
    · cases zs with
      | nil =>
        have ha : dir a = s := hy a (by rw [← List.nil_append ys, ← hzs]; simp)
        rw [List.append_nil] at hxs
        have := ih (dir a) xs [] (by rw [ha, hxs, List.append_nil]) hx (by simp)
        rw [insertAt, walk, ha]
        rw [ha] at this
        rw [List.nil_append] at hzs
        simp [this, hzs]
      | cons z zs =>
        rw [List.cons_append] at hzs
        obtain ⟨rfl, hf⟩ := List.cons.inj hzs
        have ha : dir a = s.flip := hx a (by simp [hxs])
        have := ih (dir a) zs ys (by rw [ha, hf])
          (fun x hx' => hx x (by simp [hxs, hx'])) hy
        rw [insertAt, walk, ha]
        rw [ha] at this
        simp [this, hxs]
    · have ha : dir a = s := hy a (by simp [hys])
      have := ih (dir a) xs zs (by rw [ha, hzs]) hx
        (fun y hy' => hy y (by simp [hys, hy']))
      rw [insertAt, walk, ha]
      rw [ha] at this
      simp [this, hys]

theorem walk_insertAt_perm (s : Side) (dir : ι → Side) (p : ι) (t : PTree ι) :
    ((t.insertAt dir p).walk s).Perm (p :: t.walk s) := by
  induction t with
  | nil => exact List.Perm.refl _
  | node a sub ih =>
    rw [insertAt, walk, walk]
    by_cases ha : dir a = s
    · have := ih (dir a)
      rw [ha] at this ⊢
      rw [Function.update_self, Function.update_of_ne (Side.flip_ne s)]
      exact this.append_right _
    · have hf := Side.eq_flip_of_ne ha
      have := ih (dir a)
      rw [hf] at this ⊢
      rw [Function.update_self, Function.update_of_ne (Side.ne_flip s)]
      apply ((this.cons a).append_left _).trans
      exact ((List.Perm.swap p a _).append_left _).trans List.perm_middle

def isNil : PTree ι → Bool
  | nil => true
  | node _ _ => false

theorem isNil_iff {t : PTree ι} : t.isNil = true ↔ t = nil := by cases t <;> simp [isNil]

/-- The tree without its outermost node on one side. -/
def eraseEnd (s : Side) : PTree ι → PTree ι
  | nil => nil
  | node a sub =>
    if (sub s).isNil then sub s.flip else node a (Function.update sub s ((sub s).eraseEnd s))

theorem walk_eraseEnd (s : Side) (t : PTree ι) : (t.eraseEnd s).walk s = (t.walk s).tail := by
  induction t with
  | nil => rfl
  | node a sub ih =>
    rw [eraseEnd]
    split_ifs with hn
    · rw [walk, isNil_iff.mp hn]; rfl
    · have hne : (sub s).walk s ≠ [] := by
        intro h0
        apply hn
        rw [isNil_iff, ← spot_eq_none fun _ => s, spot_const, h0]
        rfl
      simp [walk, ih, List.tail_append_of_ne_nil hne]

theorem walk_eraseEnd_perm {s : Side} {t : PTree ι} {e : ι} (he : (t.walk s).head? = some e)
    (r : Side) : (t.walk r).Perm (e :: (t.eraseEnd s).walk r) := by
  have hs : t.walk s = e :: (t.eraseEnd s).walk s := by
    obtain ⟨ys, hy⟩ := List.head?_eq_some_iff.mp he
    rw [walk_eraseEnd, hy, List.tail_cons]
  have hperm : ∀ u : PTree ι, (u.walk r).Perm (u.walk s) := by
    intro u
    rcases u.walk_reverse s r with h | h
    · rw [h]
    · rw [h]; exact List.reverse_perm _
  apply (hperm t).trans
  rw [hs]
  exact ((hperm (t.eraseEnd s)).symm.cons e)

theorem walk_eraseEnd_sublist (s r : Side) (t : PTree ι) :
    ((t.eraseEnd s).walk r).Sublist (t.walk r) := by
  by_cases h : r = s
  · rw [h, walk_eraseEnd]
    exact List.tail_sublist _
  · rw [Side.eq_flip_of_ne h, walk_flip, walk_flip, walk_eraseEnd]
    exact (List.tail_sublist _).reverse

/-- The other end stays, as long as there is one. -/
theorem head?_walk_flip_eraseEnd {s : Side} {t : PTree ι} (h : t.eraseEnd s ≠ nil) :
    ((t.eraseEnd s).walk s.flip).head? = (t.walk s.flip).head? := by
  have hne : (t.walk s).tail ≠ [] := by
    rw [← walk_eraseEnd, Ne, ← List.head?_eq_none_iff, ← spot_const, spot_eq_none]
    exact h
  cases hw : t.walk s with
  | nil => rw [hw] at hne; exact absurd rfl hne
  | cons x xs =>
    rw [hw] at hne
    rw [walk_flip, walk_flip, walk_eraseEnd, hw, List.head?_reverse, List.head?_reverse]
    exact (List.getLast?_cons_of_ne_nil hne).symm

end PTree

open PTree

/-- Below the pointer `ptr` the links spell out the tree, whose root has the parent `par`. -/
def Shaped (m : Links ι) : Option ι → Option ι → PTree ι → Prop
  | _, ptr, .nil => ptr = none
  | par, ptr, .node a sub =>
    ptr = some a ∧ m.parent a = par ∧ ∀ s, Shaped m (some a) (m.child s a) (sub s)

/-- The nodes that the child pointers lead to. -/
inductive Reach (m : Links ι) (root : Option ι) : ι → Prop
  | root {r : ι} (h : root = some r) : Reach m root r
  | child {i j : ι} (s : Side) (h : Reach m root i) (hc : m.child s i = some j) : Reach m root j

/-- The loop that follows pointers until there is none. -/
def follow (next : ι → Option ι) : ℕ → ι → Option ι
  | 0, _ => none
  | n+1, a => match next a with
    | none => some a
    | some b => follow next n b

variable {m m' : Links ι} {par par' ptr : Option ι} {t : PTree ι}

theorem Shaped.root_eq (h : Shaped m par ptr t) : ptr = t.root := by
  cases t with
  | nil => exact h
  | node a sub => exact h.1

theorem Shaped.congr (h : Shaped m par ptr t) (hc : ∀ s, ∀ i ∈ t, m'.child s i = m.child s i)
    (hp : ∀ i ∈ t, m'.parent i = m.parent i) : Shaped m' par ptr t := by
  induction t generalizing par ptr with
  | nil => exact h
  | node a sub ih =>
    obtain ⟨rfl, rfl, hsub⟩ := h
    have ha : a ∈ node a sub := mem_node.mpr (.inl rfl)
    refine ⟨rfl, hp a ha, fun s => ?_⟩
    rw [hc s a ha]
    exact ih s (hsub s) (fun s' i hi => hc s' i (mem_node.mpr (.inr ⟨_, hi⟩)))
      (fun i hi => hp i (mem_node.mpr (.inr ⟨_, hi⟩)))

/-- Only the root's own parent pointer may change along with the parent. -/
theorem Shaped.reparent (h : Shaped m par ptr t) {s : Side} (hnd : (t.walk s).Nodup)
    (hc : ∀ s, ∀ i ∈ t, m'.child s i = m.child s i) (hr : ∀ i, ptr = some i → m'.parent i = par')
    (hp : ∀ i ∈ t, ptr ≠ some i → m'.parent i = m.parent i) : Shaped m' par' ptr t := by
  cases t with
  | nil => exact h
  | node a sub =>
    obtain ⟨rfl, rfl, hsub⟩ := h
    obtain ⟨-, hmem, -⟩ := nodup_node hnd
    refine ⟨rfl, hr a rfl, fun r => ?_⟩
    rw [hc r a (mem_node.mpr (.inl rfl))]
    apply (hsub r).congr
    · exact fun s' i hi => hc s' i (mem_node.mpr (.inr ⟨_, hi⟩))
    · intro i hi
      apply hp i (mem_node.mpr (.inr ⟨_, hi⟩))
      rintro ⟨⟩
      exact hmem r hi

theorem Shaped.child_mem (h : Shaped m par ptr t) {i j : ι} {s : Side} (hi : i ∈ t)
    (hc : m.child s i = some j) : j ∈ t ∧ m.parent j = some i := by
  induction t generalizing par ptr with
  | nil => exact absurd hi (not_mem_nil i)
  | node a sub ih =>
    obtain ⟨-, -, hsub⟩ := h
    rcases mem_node.mp hi with rfl | ⟨r, hr⟩
    · have hs := hsub s
      rw [hc] at hs
      cases hsn : sub s with
      | nil => rw [hsn] at hs; cases hs
      | node b sub' =>
        rw [hsn] at hs
        obtain ⟨hb, hpb, -⟩ := hs
        cases hb
        exact ⟨mem_node.mpr (.inr ⟨s, by rw [hsn]; exact mem_node.mpr (.inl rfl)⟩), hpb⟩
    · obtain ⟨hj, hp⟩ := ih r (hsub r) hr
      exact ⟨mem_node.mpr (.inr ⟨r, hj⟩), hp⟩

/-- A node is the root or the child of its parent. -/
theorem Shaped.parent_cases (h : Shaped m par ptr t) {i : ι} (hi : i ∈ t) :
    (ptr = some i ∧ m.parent i = par) ∨
      ∃ q ∈ t, m.parent i = some q ∧ ∃ s, m.child s q = some i := by
  induction t generalizing par ptr with
  | nil => exact absurd hi (not_mem_nil i)
  | node a sub ih =>
    obtain ⟨rfl, rfl, hsub⟩ := h
    rcases mem_node.mp hi with rfl | ⟨r, hr⟩
    · exact .inl ⟨rfl, rfl⟩
    · right
      rcases ih r (hsub r) hr with ⟨hc, hp⟩ | ⟨q, hq, hp, hs⟩
      · exact ⟨a, mem_node.mpr (.inl rfl), hp, r, hc⟩
      · exact ⟨q, mem_node.mpr (.inr ⟨r, hq⟩), hp, hs⟩

/-- A node below `a` has it as parent exactly when it is the root of its branch. -/
theorem Shaped.parent_eq_iff {a e : ι} (h : Shaped m (some a) ptr t) (ha : a ∉ t) (he : e ∈ t) :
    m.parent e = some a ↔ ptr = some e := by
  constructor
  · intro hp
    rcases h.parent_cases he with ⟨hr, -⟩ | ⟨q, hq, hpq, -⟩
    · exact hr
    · obtain rfl : q = a := Option.some.inj (hpq.symm.trans hp)
      exact absurd hq ha
  · rintro rfl
    cases t with
    | nil => cases h
    | node b sub =>
      obtain ⟨hb, hp, -⟩ := h
      obtain rfl : e = b := Option.some.inj hb
      exact hp

theorem Shaped.reach_iff (h : Shaped m par ptr t) {i : ι} : Reach m ptr i ↔ i ∈ t := by
  constructor
  · intro hr
    induction hr with
    | root hr => exact mem_of_root (h.root_eq.symm.trans hr)
    | child s _ hc ih => exact (h.child_mem ih hc).1
  · intro hi
    have below : ∀ {t : PTree ι} {par p : Option ι}, Shaped m par p t →
        (∀ r, p = some r → Reach m ptr r) → i ∈ t → Reach m ptr i := by
      intro t
      induction t with
      | nil => exact fun _ _ hi => absurd hi (not_mem_nil i)
      | node a sub ih =>
        rintro par p ⟨rfl, rfl, hsub⟩ hp hi
        rcases mem_node.mp hi with rfl | ⟨r, hr⟩
        · exact hp _ rfl
        · exact ih r (hsub r) (fun b hb => .child r (hp a rfl) hb) hr
    exact below h (fun _ hr => .root hr) hi

theorem Shaped.follow_eq {a : ι} (h : Shaped m par (some a) t) (dir : ι → Side) {n : ℕ}
    (hn : (t.walk .left).length ≤ n) :
    follow (fun i => m.child (dir i) i) n a = t.spot dir := by
  induction t generalizing par a n with
  | nil => cases h
  | node b sub ih =>
    obtain ⟨hb, -, hsub⟩ := h
    obtain rfl : a = b := Option.some.inj hb
    have hlen : ((sub (dir a)).walk .left).length < n := by
      have hl := length_walk (dir a) .left (node a sub)
      have hl' := length_walk (dir a) .left (sub (dir a))
      simp only [walk, List.length_append, List.length_cons] at hl hn
      omega
    obtain ⟨n, rfl⟩ := Nat.exists_eq_succ_of_ne_zero (show n ≠ 0 by omega)
    rw [follow, spot]
    have hs := hsub (dir a)
    cases hc : m.child (dir a) a with
    | none =>
      have hr := hs.root_eq
      rw [hc] at hr
      cases hsn : sub (dir a) with
      | nil => rfl
      | node b sub' => rw [hsn] at hr; cases hr
    | some b =>
      rw [hc] at hs
      have hne : (sub (dir a)).spot dir ≠ none := by
        intro h0
        rw [(spot_eq_none dir).mp h0] at hs
        cases hs
      obtain ⟨q, hq⟩ := Option.ne_none_iff_exists'.mp hne
      have hb := ih (dir a) hs (Nat.le_of_lt_succ hlen)
      simp only [hb, hq, Option.some_or]

section
variable [DecidableEq ι]

/-- The leaf `p` hung under `q`. -/
def Links.attach (m : Links ι) (s : Side) (q p : ι) : Links ι where
  child r i := if i = p then none else if i = q ∧ r = s then some p else m.child r i
  parent i := if i = p then some q else m.parent i

theorem Shaped.attach (h : Shaped m par ptr t) {s : Side} (hnd : (t.walk s).Nodup) {p q : ι}
    (hp : p ∉ t) {dir : ι → Side} (hq : t.spot dir = some q) :
    Shaped (m.attach (dir q) q p) par ptr (t.insertAt dir p) := by
  induction t generalizing par ptr with
  | nil => cases hq
  | node a sub ih =>
    obtain ⟨rfl, rfl, hsub⟩ := h
    obtain ⟨hnds, hmem, hdisj⟩ := nodup_node hnd
    have hap : a ≠ p := fun he => hp (mem_node.mpr (.inl he.symm))
    have hps : ∀ r, p ∉ sub r := fun r hr => hp (mem_node.mpr (.inr ⟨r, hr⟩))
    have hkeep : ∀ r, q ∉ sub r →
        Shaped (m.attach (dir q) q p) (some a) (m.child r a) (sub r) := by
      intro r hqr
      apply (hsub r).congr
      · intro r' i hi
        have h1 : i ≠ p := fun he => hps r (he ▸ hi)
        have h2 : i ≠ q := fun he => hqr (he ▸ hi)
        simp [Links.attach, h1, h2]
      · intro i hi
        have h1 : i ≠ p := fun he => hps r (he ▸ hi)
        simp [Links.attach, h1]
    rw [insertAt]
    refine ⟨rfl, by simp [Links.attach, hap], fun r => ?_⟩
    rw [spot] at hq
    cases hsp : (sub (dir a)).spot dir with
    | none =>
      rw [hsp] at hq
      obtain rfl : a = q := Option.some.inj hq
      by_cases hr : r = dir a
      · subst hr
        rw [Function.update_self, (spot_eq_none dir).mp hsp]
        refine ⟨by simp [Links.attach, hap], by simp [Links.attach], fun r => ?_⟩
        simp [Shaped, Links.attach]
      · rw [Function.update_of_ne hr]
        simpa [Links.attach, hap, hr] using hkeep r (hmem r)
    | some q' =>
      rw [hsp, Option.some_or] at hq
      obtain rfl : q' = q := Option.some.inj hq
      have hqm := mem_of_spot hsp
      have hqa : a ≠ q' := by
        rintro rfl
        exact hmem _ hqm
      by_cases hr : r = dir a
      · subst hr
        rw [Function.update_self]
        simpa [Links.attach, hap, hqa] using ih (dir a) (hsub _) (hnds _) (hps _) hsp
      · rw [Function.update_of_ne hr]
        have hqr : q' ∉ sub r := by
          rw [Side.eq_flip_of_ne hr]
          exact hdisj _ q' hqm
        simpa [Links.attach, hap, hqa] using hkeep r hqr

/-- The node `e`, which has no child on the side `s`, spliced out. -/
def Links.spliceEnd (m : Links ι) (s : Side) (e : ι) : Links ι where
  child r i := if r = s ∧ m.parent e = some i then m.child s.flip e else m.child r i
  parent i := if m.child s.flip e = some i then m.parent e else m.parent i

/-- Where the next outermost node is found when `e` goes: at the end of the branch that takes its
place, or else at its parent. -/
def Links.nextEnd (m : Links ι) (s : Side) (n : ℕ) (e : ι) : Option ι :=
  match m.child s.flip e with
  | none => m.parent e
  | some c => follow ((m.spliceEnd s e).child s) n c

/-- Splicing out a root that has no child on the side `s`, and the new outermost node. -/
theorem Shaped.spliceEnd_root {s : Side} {a : ι} {r : PTree ι} {n : ℕ}
    (h : Shaped m (some a) (m.child s.flip a) r) (hnd : (r.walk s).Nodup)
    (hpar : ∀ q, m.parent a = some q → q ∉ r) (hn : (r.walk .left).length ≤ n) :
    Shaped (m.spliceEnd s a) (m.parent a) (m.child s.flip a) r ∧
      (r.walk s).head?.or (m.parent a) = m.nextEnd s n a := by
  have hshape : Shaped (m.spliceEnd s a) (m.parent a) (m.child s.flip a) r := by
    apply h.reparent hnd
    · intro r' i hi
      have hni : m.parent a ≠ some i := fun hi' => hpar i hi' hi
      simp [Links.spliceEnd, hni]
    · intro i hi
      simp [Links.spliceEnd, hi]
    · intro i _ hne
      simp [Links.spliceEnd, hne]
  refine ⟨hshape, ?_⟩
  unfold Links.nextEnd
  cases hc : m.child s.flip a with
  | none =>
    rw [hc] at h
    cases r with
    | nil => rfl
    | node b sub => cases h.1
  | some c =>
    rw [hc] at hshape
    have hf := hshape.follow_eq (fun _ => s) hn
    rw [spot_const] at hf
    cases hx : (r.walk s).head? with
    | none =>
      rw [← spot_const, spot_eq_none] at hx
      rw [hx] at hshape
      cases hshape
    | some x => exact (hf.trans hx).symm

/-- Splicing out the outermost node, and finding the next one. -/
theorem Shaped.spliceEnd_and_next (h : Shaped m par ptr t) {s : Side} (hnd : (t.walk s).Nodup)
    (hpar : ∀ q, par = some q → q ∉ t) {e : ι} (he : (t.walk s).head? = some e) {n : ℕ}
    (hn : (t.walk .left).length ≤ n) :
    Shaped (m.spliceEnd s e) par (if ptr = some e then m.child s.flip e else ptr) (t.eraseEnd s) ∧
      ((t.eraseEnd s).walk s).head?.or par = m.nextEnd s n e := by
  induction t generalizing par ptr with
  | nil => cases he
  | node a sub ih =>
    obtain ⟨rfl, rfl, hsub⟩ := h
    obtain ⟨hnds, hmem, hdisj⟩ := nodup_node hnd
    have hlen : ∀ r, ((sub r).walk .left).length ≤ n := by
      intro r
      simp only [walk, List.length_append, List.length_cons] at hn
      cases r <;> simp only [Side.flip] at hn <;> omega
    rw [eraseEnd]
    by_cases hnil : (sub s).isNil
    · rw [walk, isNil_iff.mp hnil] at he
      obtain rfl : a = e := by simpa [walk] using he
      rw [if_pos hnil, if_pos rfl]
      exact (hsub s.flip).spliceEnd_root (hnds s.flip)
        (fun q hq hm => hpar q hq (mem_node.mpr (.inr ⟨_, hm⟩))) (hlen s.flip)
    · have hhead : ((sub s).walk s).head? = some e := by
        rw [walk, List.head?_append] at he
        cases hh : ((sub s).walk s).head? with
        | none => rw [← spot_const, spot_eq_none] at hh; exact absurd (isNil_iff.mpr hh) hnil
        | some x => rw [hh, Option.some_or] at he; exact he
      have hem : e ∈ sub s := mem_walk.mp (List.mem_of_mem_head? hhead)
      have hea : a ≠ e := fun he' => hmem s (he' ▸ hem)
      have hpe := (hsub s).parent_eq_iff (hmem s) hem
      have hce : ∀ i, m.child s.flip e = some i → i ∈ sub s :=
        fun i hi => ((hsub s).child_mem hem hi).1
      obtain ⟨ihs, ihn⟩ := ih s (hsub s) (hnds s) (by rintro q ⟨⟩; exact hmem s) hhead (hlen s)
      rw [if_neg hnil, if_neg (show ¬ some a = some e by simpa using hea)]
      refine ⟨⟨rfl, ?_, fun r => ?_⟩, ?_⟩
      · have hca : m.child s.flip e ≠ some a := fun hc => hmem s (hce a hc)
        simp [Links.spliceEnd, hca]
      · by_cases hr : r = s
        · subst hr
          rw [Function.update_self]
          simpa [Links.spliceEnd, hpe] using ihs
        · rw [Function.update_of_ne hr]
          have hkeep : (m.spliceEnd s e).child r a = m.child r a := by simp [Links.spliceEnd, hr]
          rw [hkeep]
          apply (hsub r).congr
          · intro r' i hi
            simp only [Links.spliceEnd]
            apply if_neg
            rintro ⟨rfl, hi'⟩
            rcases (hsub r').parent_cases hem with ⟨-, hp⟩ | ⟨q, hq, hp, -⟩
            · cases hi'.symm.trans hp
              exact hmem r hi
            · cases hi'.symm.trans hp
              exact hdisj r' i hq (Side.eq_flip_of_ne hr ▸ hi)
          · intro i hi
            simp only [Links.spliceEnd]
            apply if_neg
            intro hc
            exact hdisj s i (hce i hc) (Side.eq_flip_of_ne hr ▸ hi)
      · rw [walk, Function.update_self, List.head?_append, List.head?_cons, ← ihn]
        cases ((sub s).eraseEnd s).walk s <;> rfl

end

end PointerTree
