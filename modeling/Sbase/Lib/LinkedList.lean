import Mathlib.Tactic

/-! Linked lists threaded through a store of cells by partial successor functions.

`Chain` is a singly linked list that starts at a head pointer and ends in a null one; `DList` is
a doubly linked list between a head and a tail pointer. Each operation is a lemma about any new
links that agree with the updated ones on the cells of the list, so that it applies to a store
whose cells hold other data beside their links. -/
namespace LinkedList

variable {ι : Type*}

/-- The cells met from `head` on by `next`, up to the null pointer. -/
def Chain (next : ι → Option ι) : Option ι → List ι → Prop
  | head, [] => head = none
  | head, x::xs => head = some x ∧ Chain next (next x) xs

/-- The cells met from `head` on by `next`, in a list whose length is kept in a counter: what follows
the last cell is not looked at. -/
def Thread (next : ι → ι) : ι → List ι → Prop
  | _, [] => True
  | head, x::xs => head = x ∧ Thread next (next x) xs

theorem Thread.congr {next next' : ι → ι} {head : ι} {xs : List ι}
    (h : ∀ i ∈ xs, next' i = next i) (ht : Thread next head xs) : Thread next' head xs := by
  induction xs generalizing head with
  | nil => trivial
  | cons x xs ih =>
    refine ⟨ht.1, ?_⟩
    rw [h x (by simp)]
    exact ih (fun i hi => h i (by simp [hi])) ht.2

theorem Chain.unique {next : ι → Option ι} {head : Option ι} {xs ys : List ι}
    (hx : Chain next head xs) (hy : Chain next head ys) : xs = ys := by
  induction xs generalizing head ys with
  | nil =>
    cases ys with
    | nil => rfl
    | cons y ys => cases hx.symm.trans hy.1
  | cons x xs ih =>
    cases ys with
    | nil => cases hy.symm.trans hx.1
    | cons y ys =>
      obtain rfl : x = y := Option.some.inj (hx.1.symm.trans hy.1)
      rw [ih hx.2 hy.2]

theorem Chain.congr {next next' : ι → Option ι} {head : Option ι} {xs : List ι}
    (h : ∀ i ∈ xs, next' i = next i) (hc : Chain next head xs) : Chain next' head xs := by
  induction xs generalizing head with
  | nil => exact hc
  | cons x xs ih =>
    refine ⟨hc.1, ?_⟩
    rw [h x (by simp)]
    exact ih (fun i hi => h i (by simp [hi])) hc.2

theorem Chain.drop {next : ι → Option ι} {head : Option ι} {xs ys : List ι}
    (h : Chain next head (xs ++ ys)) : Chain next ys.head? ys := by
  induction xs generalizing head with
  | nil =>
    cases ys with
    | nil => rfl
    | cons y ys => exact ⟨rfl, h.2⟩
  | cons x xs ih => exact ih h.2

/-- A chain cannot meet a cell twice: it would never end. -/
theorem Chain.nodup {next : ι → Option ι} {head : Option ι} {xs : List ι}
    (h : Chain next head xs) : xs.Nodup := by
  induction xs generalizing head with
  | nil => exact List.nodup_nil
  | cons x xs ih =>
    refine List.nodup_cons.mpr ⟨?_, ih h.2⟩
    intro hx
    obtain ⟨as, bs, rfl⟩ := List.append_of_mem hx
    have h' : Chain next head ((x::as) ++ x::bs) := h
    have htail : Chain next (some x) (x::bs) := h'.drop
    have hall : Chain next (some x) (x::(as ++ x::bs)) := ⟨rfl, h.2⟩
    have := congrArg List.length (htail.unique hall)
    simp at this
    omega

/-- The first `n` cells of a chain, read off the links. -/
def walk (next : ι → Option ι) : ℕ → Option ι → List ι
  | 0, _ => []
  | _+1, none => []
  | n+1, some x => x::walk next n (next x)

theorem Chain.walk_eq {next : ι → Option ι} {head : Option ι} {xs : List ι}
    (h : Chain next head xs) : walk next xs.length head = xs := by
  induction xs generalizing head with
  | nil => rfl
  | cons x xs ih =>
    obtain ⟨rfl, hrest⟩ := h
    rw [List.length_cons, walk, ih hrest]

/-- Hanging a new cell behind the last one. -/
theorem Chain.concat [DecidableEq ι] {next next' : ι → Option ι} {head head' : Option ι}
    {xs : List ι} {b : ι} (h : Chain next head xs)
    (hn : ∀ i ∈ xs, next' i = if xs.getLast? = some i then some b else next i)
    (hb : next' b = none) (hh : head' = head.or (some b)) : Chain next' head' (xs ++ [b]) := by
  induction xs generalizing head head' with
  | nil =>
    obtain rfl : head = none := h
    exact ⟨hh, hb⟩
  | cons x xs ih =>
    have hnd := List.nodup_cons.mp h.nodup
    obtain ⟨rfl, hrest⟩ := h
    refine ⟨hh, ih hrest ?_ ?_⟩
    · intro i hi
      rw [hn i (List.mem_cons_of_mem x hi)]
      obtain ⟨y, hy⟩ := Option.isSome_iff_exists.mp (List.getLast?_isSome.mpr (List.ne_nil_of_mem hi))
      rw [List.getLast?_cons, hy, Option.getD_some]
    · rw [hn x (by simp)]
      cases xs with
      | nil =>
        have hnone : next x = none := hrest
        simp [hnone]
      | cons y ys =>
        have hne : (x::y::ys).getLast? ≠ some x := by
          rw [List.getLast?_cons_cons]
          exact fun he => hnd.1 (List.mem_of_mem_getLast? he)
        rw [if_neg hne, hrest.1, Option.some_or]

/-- The links and the head after the cells `xs` were put in front of a chain, one after the other. -/
def stack [DecidableEq ι] (next : ι → Option ι) (head : Option ι) :
    List ι → (ι → Option ι) × Option ι
  | [] => (next,head)
  | x::xs => stack (Function.update next x head) (some x) xs

theorem stack_frame [DecidableEq ι] (next : ι → Option ι) (head : Option ι) {xs : List ι} {j : ι}
    (hj : j ∉ xs) : (stack next head xs).1 j = next j := by
  induction xs generalizing next head with
  | nil => rfl
  | cons x xs ih =>
    rw [List.mem_cons,not_or] at hj
    rw [stack,ih _ _ hj.2]
    exact Function.update_of_ne hj.1 _ _

theorem Chain.push [DecidableEq ι] {next : ι → Option ι} {head : Option ι} {fs : List ι} {x : ι}
    (h : Chain next head fs) (hx : x ∉ fs) :
    Chain (Function.update next x head) (some x) (x::fs) := by
  refine ⟨rfl,?_⟩
  rw [Function.update_self]
  apply h.congr
  intro j hj
  have hne : j ≠ x := fun he => hx (he ▸ hj)
  exact Function.update_of_ne hne _ _

theorem Chain.stack [DecidableEq ι] {next : ι → Option ι} {head : Option ι} {xs fs : List ι}
    (h : Chain next head fs) (hnd : (xs ++ fs).Nodup) :
    Chain (stack next head xs).1 (stack next head xs).2 (xs.reverse ++ fs) := by
  induction xs generalizing next head fs with
  | nil => exact h
  | cons x xs ih =>
    rw [List.cons_append,List.nodup_cons,List.mem_append,not_or] at hnd
    rw [LinkedList.stack,List.reverse_cons,List.append_assoc]
    apply ih (h.push hnd.1.2)
    have hperm : (xs ++ x::fs).Perm (x::(xs ++ fs)) := List.perm_middle
    rw [hperm.nodup_iff,List.nodup_cons,List.mem_append,not_or]
    exact hnd

/-- The cells `xs` are linked both ways; the first one's `prev` is `p`, the last one's `next`
is `q`. -/
def Seg (next prev : ι → Option ι) : Option ι → List ι → Option ι → Prop
  | _, [], _ => True
  | p, x::xs, q => prev x = p ∧ next x = xs.head?.or q ∧ Seg next prev (some x) xs q

theorem seg_append {next prev : ι → Option ι} {p q : Option ι} {xs ys : List ι} :
    Seg next prev p (xs ++ ys) q ↔
      Seg next prev p xs (ys.head?.or q) ∧ Seg next prev (xs.getLast?.or p) ys q := by
  induction xs generalizing p with
  | nil => simp [Seg]
  | cons x xs ih =>
    rw [List.cons_append]
    simp only [Seg, ih]
    have hh : (xs ++ ys).head?.or q = xs.head?.or (ys.head?.or q) := by
      cases xs <;> simp
    have hl : xs.getLast?.or (some x) = (x::xs).getLast?.or p := by
      cases hc : xs.getLast? with
      | none => simp [List.getLast?_eq_none_iff.mp hc]
      | some y => simp [List.getLast?_cons, hc]
    rw [hh, hl]
    tauto

theorem Seg.congr {next prev next' prev' : ι → Option ι} {p q : Option ι} {xs : List ι}
    (hn : ∀ i ∈ xs, next' i = next i) (hp : ∀ i ∈ xs, prev' i = prev i)
    (h : Seg next prev p xs q) : Seg next' prev' p xs q := by
  induction xs generalizing p with
  | nil => trivial
  | cons x xs ih =>
    refine ⟨by rw [hp x (by simp)]; exact h.1, by rw [hn x (by simp)]; exact h.2.1, ?_⟩
    exact ih (fun i hi => hn i (by simp [hi])) (fun i hi => hp i (by simp [hi])) h.2.2

/-- Redirecting the pointer out of the last cell. -/
theorem Seg.relast [DecidableEq ι] {next prev next' prev' : ι → Option ι} {p q q' : Option ι} {xs : List ι}
    (hnd : xs.Nodup) (hn : ∀ i ∈ xs, next' i = if xs.getLast? = some i then q' else next i)
    (hp : ∀ i ∈ xs, prev' i = prev i) (h : Seg next prev p xs q) : Seg next' prev' p xs q' := by
  rcases List.eq_nil_or_concat xs with rfl | ⟨ys, y, rfl⟩
  · trivial
  · rw [List.concat_eq_append] at *
    rw [seg_append] at h ⊢
    have hy : y ∉ ys := by
      intro hm
      exact (List.disjoint_of_nodup_append hnd) hm (by simp)
    refine ⟨h.1.congr ?_ fun i hi => hp i (by simp [hi]), ?_⟩
    · intro i hi
      rw [hn i (by simp [hi]), if_neg]
      intro hc
      simp only [List.getLast?_append, List.getLast?_singleton, Option.some_or] at hc
      exact hy (by cases hc; exact hi)
    · refine ⟨?_, ?_, trivial⟩
      · rw [hp y (by simp)]; exact h.2.1
      · rw [hn y (by simp), if_pos (by simp)]; simp

/-- Redirecting the pointer back from the first cell. -/
theorem Seg.refirst [DecidableEq ι] {next prev next' prev' : ι → Option ι} {p p' q : Option ι} {xs : List ι}
    (hnd : xs.Nodup) (hn : ∀ i ∈ xs, next' i = next i)
    (hp : ∀ i ∈ xs, prev' i = if xs.head? = some i then p' else prev i)
    (h : Seg next prev p xs q) : Seg next' prev' p' xs q := by
  cases xs with
  | nil => trivial
  | cons x xs =>
    refine ⟨by rw [hp x (by simp)]; simp, by rw [hn x (by simp)]; exact h.2.1, ?_⟩
    refine h.2.2.congr (fun i hi => hn i (by simp [hi])) fun i hi => ?_
    rw [hp i (by simp [hi]), if_neg]
    intro hc
    cases hc
    exact (List.nodup_cons.mp hnd).1 hi

/-- A doubly linked list between two pointers. -/
structure DList (next prev : ι → Option ι) (head tail : Option ι) (xs : List ι) : Prop where
  nodup : xs.Nodup
  seg : Seg next prev none xs none
  head_eq : head = xs.head?
  tail_eq : tail = xs.getLast?

section
variable {next prev next' prev' : ι → Option ι} {head tail : Option ι} {xs as bs : List ι} {x : ι}

theorem DList.empty : DList next prev none none ([] : List ι) :=
  ⟨List.nodup_nil, trivial, rfl, rfl⟩

theorem DList.congr (hn : ∀ i ∈ xs, next' i = next i) (hp : ∀ i ∈ xs, prev' i = prev i)
    (h : DList next prev head tail xs) : DList next' prev' head tail xs :=
  ⟨h.nodup, h.seg.congr hn hp, h.head_eq, h.tail_eq⟩

/-- Following `next` from the head meets the cells of the list in order. -/
theorem DList.forward (h : DList next prev head tail xs) : Chain next head xs := by
  obtain ⟨-, hseg, rfl, -⟩ := h
  generalize hp : (none : Option ι) = p at hseg
  have : ∀ (xs : List ι) p, Seg next prev p xs none → Chain next xs.head? xs := by
    intro xs
    induction xs with
    | nil => intro p _; rfl
    | cons x xs ih =>
      intro p hs
      refine ⟨rfl, ?_⟩
      rw [hs.2.1, Option.or_none]
      exact ih _ hs.2.2
  exact this xs none (hp ▸ hseg)

/-- Following `prev` from the tail meets them in the reverse order. -/
theorem DList.backward (h : DList next prev head tail xs) : Chain prev tail xs.reverse := by
  obtain ⟨-, hseg, -, rfl⟩ := h
  have : ∀ q, Seg next prev none xs q → Chain prev xs.getLast? xs.reverse := by
    clear hseg
    induction xs using List.reverseRecOn with
    | nil => intro q _; rfl
    | append_singleton xs x ih =>
      intro q hs
      rw [seg_append] at hs
      rw [List.reverse_concat, List.getLast?_concat]
      refine ⟨rfl, ?_⟩
      rw [hs.2.1, Option.or_none]
      exact ih _ hs.1
  exact this none hseg

theorem DList.links_of_mem (h : DList next prev head tail (as ++ x::bs)) :
    prev x = as.getLast? ∧ next x = bs.head? := by
  have hx := (seg_append.mp h.seg).2
  exact ⟨by rw [hx.1, Option.or_none], by rw [hx.2.1, Option.or_none]⟩

variable [DecidableEq ι]

/-- Taking a cell out: its neighbours, or the end pointers, are joined over it. -/
theorem DList.unlink {head' tail' : Option ι} (h : DList next prev head tail (as ++ x::bs))
    (hn : ∀ i ∈ as ++ bs, next' i = if prev x = some i then next x else next i)
    (hp : ∀ i ∈ as ++ bs, prev' i = if next x = some i then prev x else prev i)
    (hh : head' = if head = some x then next x else head)
    (ht : tail' = if tail = some x then prev x else tail) :
    DList next' prev' head' tail' (as ++ bs) := by
  obtain ⟨hpx, hnx⟩ := h.links_of_mem
  have hnd := h.nodup
  have hdisj : ∀ i ∈ as, i ∉ bs := by
    intro i hi hb
    exact (List.disjoint_of_nodup_append hnd) hi (by simp [hb])
  have hxa : x ∉ as := fun hm => (List.disjoint_of_nodup_append hnd) hm (by simp)
  have hxb : x ∉ bs := (List.nodup_cons.mp (List.Nodup.of_append_right hnd)).1
  have hsub : (as ++ bs).Sublist (as ++ x::bs) :=
    (List.Sublist.refl as).append (List.sublist_cons_self x bs)
  obtain ⟨hsa, -, -, hsb⟩ := seg_append.mp h.seg
  refine ⟨hnd.sublist hsub, ?_, ?_, ?_⟩
  · rw [seg_append]
    constructor
    · refine Seg.relast (hnd.sublist (List.sublist_append_left _ _)) ?_ ?_ hsa
      · intro i hi
        rw [hn i (by simp [hi]), hpx, hnx, Option.or_none]
      · intro i hi
        rw [hp i (by simp [hi]), if_neg]
        intro hc
        rw [hnx] at hc
        exact hdisj i hi (List.mem_of_mem_head? hc)
    · refine Seg.refirst (List.Nodup.of_append_right (hnd.sublist hsub)) ?_ ?_ hsb
      · intro i hi
        rw [hn i (by simp [hi]), if_neg]
        intro hc
        rw [hpx] at hc
        exact hdisj i (List.mem_of_mem_getLast? hc) hi
      · intro i hi
        rw [hp i (by simp [hi]), hnx, hpx, Option.or_none]
  · rw [hh, h.head_eq, hnx]
    cases as with
    | nil => simp
    | cons a as =>
      have : a ≠ x := fun he => hxa (by simp [he])
      simp [this]
  · rw [ht, h.tail_eq, hpx, List.getLast?_append, List.getLast?_append]
    rcases List.eq_nil_or_concat bs with rfl | ⟨bs, b, rfl⟩
    · simp
    · have : b ≠ x := fun he => hxb (by simp [he])
      simp [List.getLast?_cons, this]

/-- Putting a new cell between two parts of the list, either of which may be empty. -/
theorem DList.insert (as bs : List ι) {head' tail' : Option ι}
    (h : DList next prev head tail (as ++ bs))
    (hx : x ∉ as ++ bs)
    (hn : ∀ i ∈ as ++ bs, next' i = if as.getLast? = some i then some x else next i)
    (hp : ∀ i ∈ as ++ bs, prev' i = if bs.head? = some i then some x else prev i)
    (hnx : next' x = bs.head?) (hpx : prev' x = as.getLast?)
    (hh : head' = as.head?.or (some x)) (ht : tail' = bs.getLast?.or (some x)) :
    DList next' prev' head' tail' (as ++ x::bs) := by
  have hnd := h.nodup
  have hdisj : ∀ i ∈ as, i ∉ bs := fun i hi hb => (List.disjoint_of_nodup_append hnd) hi hb
  obtain ⟨hsa, hsb⟩ := seg_append.mp h.seg
  refine ⟨?_, ?_, ?_, ?_⟩
  · rw [List.nodup_middle]
    exact List.nodup_cons.mpr ⟨hx, hnd⟩
  · rw [seg_append]
    refine ⟨?_, by rw [hpx, Option.or_none], by rw [hnx, Option.or_none], ?_⟩
    · refine Seg.relast (hnd.sublist (List.sublist_append_left _ _)) ?_ ?_ hsa
      · intro i hi
        rw [hn i (by simp [hi])]
        simp
      · intro i hi
        rw [hp i (by simp [hi]), if_neg]
        intro hc
        exact hdisj i hi (List.mem_of_mem_head? hc)
    · refine Seg.refirst (List.Nodup.of_append_right hnd) ?_ ?_ hsb
      · intro i hi
        rw [hn i (by simp [hi]), if_neg]
        intro hc
        exact hdisj i (List.mem_of_mem_getLast? hc) hi
      · intro i hi
        rw [hp i (by simp [hi])]
  · rw [hh]; cases as <;> simp
  · rw [ht, List.getLast?_append, List.getLast?_cons]
    cases bs.getLast? <;> simp

end

end LinkedList
