import Mathlib.Tactic

/-! The lines of a text, each with the terminator behind it, and a reader with a bounded buffer, which is
handed long lines in parts. -/
namespace Lines
variable {α : Type*} [DecidableEq α] {e : α} {n : ℕ} {l p s : List α} {ls : List (List α)}

/-- The lines of a text; the last one may lack its terminator. -/
def lines (e : α) : List α → List (List α)
  | [] => []
  | b::s =>
    if b = e then [b] :: lines e s
    else
      match lines e s with
      | [] => [[b]]
      | l::ls => (b::l)::ls

/-- A line of more than `n` elements in parts of `n`, the last of which may be shorter. -/
def parts (n : ℕ) (l : List α) : List (List α) :=
  if 0 < n ∧ n < l.length then l.take n :: parts n (l.drop n) else [l]
termination_by l.length
decreasing_by
  rw [List.length_drop]
  omega

/-- The first line of a text, or `n` elements of it, and what is left. -/
def readLine (e : α) : ℕ → List α → List α × List α
  | 0, s => ([],s)
  | _, [] => ([],[])
  | n+1, b::s => if b = e then ([b],s) else (b::(readLine e n s).1,(readLine e n s).2)

theorem lines_ne_nil (h : s ≠ []) : ∃ l ls, lines e s = l::ls ∧ l ≠ [] := by
  cases s with
  | nil => exact absurd rfl h
  | cons b s =>
    rw [lines]
    split_ifs
    · exact ⟨_,_,rfl,by simp⟩
    · cases lines e s with
      | nil => exact ⟨_,_,rfl,by simp⟩
      | cons l ls => exact ⟨_,_,rfl,by simp⟩

/-- What is read off a text begins its first line, and the rest of that line is left. -/
theorem readLine_lines (h : lines e s = l::ls) : (readLine e n s).1 = l.take n ∧
    lines e (readLine e n s).2 = if n < l.length then l.drop n :: ls else ls := by
  induction n generalizing s l with
  | zero =>
    have hs : s ≠ [] := by
      rintro rfl
      cases h
    obtain ⟨l',ls',hl',hne⟩ := lines_ne_nil (e := e) hs
    cases h.symm.trans hl'
    rw [readLine,if_pos (List.length_pos_of_ne_nil hne)]
    exact ⟨List.take_zero.symm,h⟩
  | succ n ih =>
    cases s with
    | nil => cases h
    | cons b s =>
      rw [lines] at h
      rw [readLine]
      by_cases hb : b = e
      · rw [if_pos hb] at h ⊢
        cases h
        exact ⟨by simp,(if_neg (by simp)).symm⟩
      rw [if_neg hb] at h ⊢
      cases hs : lines e s with
      | nil =>
        have hnil : s = [] := by
          by_contra hne
          obtain ⟨l',ls',hl',-⟩ := lines_ne_nil (e := e) hne
          cases hs.symm.trans hl'
        rw [hs] at h
        cases h
        have hread : readLine e n ([] : List α) = ([],[]) := by cases n <;> rfl
        rw [hnil,hread]
        exact ⟨by simp,(if_neg (by simp)).symm⟩
      | cons l' ls' =>
        rw [hs] at h
        cases h
        obtain ⟨hread,hrest⟩ := ih hs
        rw [hread,hrest]
        simp only [List.length_cons,Nat.add_lt_add_iff_right,List.drop_succ_cons,List.take_succ_cons,and_self]

theorem readLine_length (n : ℕ) (s : List α) :
    (readLine e n s).1.length + (readLine e n s).2.length = s.length := by
  induction n generalizing s with
  | zero => simp [readLine]
  | succ n ih =>
    cases s with
    | nil => rfl
    | cons b s =>
      rw [readLine]
      split_ifs
      · simp [Nat.add_comm]
      · have hs := ih s
        dsimp only
        rw [List.length_cons,List.length_cons]
        omega

theorem readLine_pos (hn : 0 < n) (hs : s ≠ []) : 0 < (readLine e n s).1.length := by
  obtain ⟨m,rfl⟩ : ∃ m, n = m+1 := ⟨n-1,by omega⟩
  cases s with
  | nil => exact absurd rfl hs
  | cons b s =>
    rw [readLine]
    split_ifs
    · exact Nat.zero_lt_one
    · exact Nat.succ_pos _

/-- A text line by line, and long lines part by part. -/
def pieces (e : α) (n : ℕ) (s : List α) : List (List α) := (lines e s).flatMap (parts n)

@[simp] theorem pieces_nil : pieces e n [] = [] := rfl

/-- Reading off a text gives its pieces. -/
theorem pieces_eq (hn : 0 < n) (hs : s ≠ []) :
    pieces e n s = (readLine e n s).1 :: pieces e n (readLine e n s).2 := by
  obtain ⟨l,ls,hl,-⟩ := lines_ne_nil (e := e) hs
  obtain ⟨hread,hrest⟩ := readLine_lines (n := n) hl
  rw [pieces,pieces,hl,hread,hrest,List.flatMap_cons,parts]
  by_cases hlen : n < l.length
  · rw [if_pos ⟨hn,hlen⟩,if_pos hlen,List.flatMap_cons]
    rfl
  · rw [if_neg fun h => hlen h.2,if_neg hlen,List.take_of_length_le (not_lt.mp hlen)]
    rfl

theorem lines_cons (he : e ∉ p) : lines e (p ++ e::s) = (p ++ [e]) :: lines e s := by
  induction p with
  | nil => simp [lines]
  | cons b p ih =>
    have hb : b ≠ e := fun heq => he (by simp [heq])
    have hp : e ∉ p := fun hmem => he (by simp [hmem])
    simp [lines,hb,ih hp]

section
omit [DecidableEq α]

theorem parts_short (h : l.length ≤ n) : parts n l = [l] := by
  rw [parts,if_neg fun hlong => absurd hlong.2 (not_lt.mpr h)]

theorem parts_flatten (l : List α) : (parts n l).flatten = l := by
  induction l using parts.induct n with
  | case1 l hlong ih =>
    rw [parts,if_pos hlong,List.flatten_cons,ih]
    exact List.take_append_drop n l
  | case2 l hshort =>
    rw [parts,if_neg hshort]
    simp

theorem infix_of_mem_parts (h : p ∈ parts n l) : p <:+: l := by
  induction l using parts.induct n with
  | case1 l hlong ih =>
    rw [parts,if_pos hlong] at h
    rcases List.mem_cons.mp h with rfl | h
    · exact (List.take_prefix n l).isInfix
    · exact (ih h).trans (List.drop_suffix n l).isInfix
  | case2 l hshort =>
    rw [parts,if_neg hshort] at h
    rw [List.mem_singleton.mp h]

theorem length_le_of_mem_parts (hn : 0 < n) (h : p ∈ parts n l) : p.length ≤ n := by
  induction l using parts.induct n with
  | case1 l hlong ih =>
    rw [parts,if_pos hlong] at h
    rcases List.mem_cons.mp h with rfl | h
    · rw [List.length_take]
      exact Nat.min_le_left _ _
    · exact ih h
  | case2 l hshort =>
    rw [parts,if_neg hshort] at h
    rw [List.mem_singleton.mp h]
    exact not_lt.mp fun hlt => hshort ⟨hn,hlt⟩

end

/-- A text of terminated lines, none of them long, is read line by line. -/
theorem pieces_flatten (h : ∀ l ∈ ls, ∃ p, l = p ++ [e] ∧ e ∉ p ∧ l.length ≤ n) : pieces e n ls.flatten = ls := by
  induction ls with
  | nil => rfl
  | cons l ls ih =>
    obtain ⟨p,rfl,he,hlen⟩ := h l (by simp)
    have htail := ih fun k hk => h k (by simp [hk])
    rw [pieces] at htail
    simp only [pieces,List.flatten_cons,List.append_assoc,List.cons_append,List.nil_append,lines_cons he,
      List.flatMap_cons,parts_short hlen,htail]

end Lines
