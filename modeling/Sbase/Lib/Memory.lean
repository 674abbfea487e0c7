import Mathlib.Tactic

/-! Flat memory blocks addressed by offset, and searches inside them.

A block is total: the bound of an allocation is kept by whoever owns the block, and an access
is in bounds when its last offset lies below that bound. -/
namespace Memory

variable {α : Type*}

/-- The cells of one allocation, addressed from its first one. -/
abbrev Block (α : Type*) := ℕ → α

/-- The `n` cells from offset `off` on. -/
def read (b : Block α) (off : ℕ) : ℕ → List α
  | 0 => []
  | n+1 => b off :: read b (off+1) n

/-- Overwrite the cells from offset `off` on by those of `xs`. -/
def write (b : Block α) (off : ℕ) (xs : List α) : Block α :=
  fun i => if off ≤ i then xs[i-off]?.getD (b i) else b i

@[simp] theorem read_zero (b : Block α) (off : ℕ) : read b off 0 = [] := rfl

theorem read_succ (b : Block α) (off n : ℕ) :
    read b off (n+1) = b off :: read b (off+1) n := rfl

@[simp] theorem read_length (b : Block α) (off n : ℕ) : (read b off n).length = n := by
  induction n generalizing off with
  | zero => rfl
  | succ n ih => simp [read_succ, ih]

theorem read_congr {b c : Block α} {off n : ℕ}
    (h : ∀ i, off ≤ i → i < off+n → b i = c i) : read b off n = read c off n := by
  induction n generalizing off with
  | zero => rfl
  | succ n ih =>
    rw [read_succ, read_succ, h off le_rfl (by omega), ih]
    intro i hi hn
    exact h i (by omega) (by omega)

/-- Two blocks that agree at a distance. -/
theorem read_congr_shift {b c : Block α} {off off' n : ℕ} (h : ∀ i, b (off+i) = c (off'+i)) :
    read b off n = read c off' n := by
  induction n generalizing off off' with
  | zero => rfl
  | succ n ih =>
    rw [read_succ, read_succ, ih fun i => ?_]
    · rw [← Nat.add_zero off, h 0, Nat.add_zero]
    · simpa [Nat.add_assoc] using h (1+i)

theorem read_append (b : Block α) (off m n : ℕ) :
    read b off (m+n) = read b off m ++ read b (off+m) n := by
  induction m generalizing off with
  | zero => simp
  | succ m ih =>
    rw [Nat.succ_add, read_succ, read_succ, ih, List.cons_append]
    simp [Nat.add_assoc, Nat.add_comm 1 m]

theorem take_read (b : Block α) (off : ℕ) {m n : ℕ} (h : m ≤ n) :
    (read b off n).take m = read b off m := by
  obtain ⟨k, rfl⟩ := Nat.exists_eq_add_of_le h
  rw [read_append, List.take_left' (read_length b off m)]

theorem drop_read (b : Block α) (off m n : ℕ) :
    (read b off (m+n)).drop m = read b (off+m) n := by
  rw [read_append, List.drop_left' (read_length b off m)]

/-- A cell below the written range, or past it, keeps its value. -/
theorem write_apply_of_not_mem (b : Block α) (off : ℕ) (xs : List α) (i : ℕ)
    (h : i < off ∨ off+xs.length ≤ i) : write b off xs i = b i := by
  unfold write
  split_ifs with hi
  · rw [List.getElem?_eq_none (by omega), Option.getD_none]
  · rfl

theorem read_write_before (b : Block α) (xs : List α) {off i n : ℕ} (h : i+n ≤ off) :
    read (write b off xs) i n = read b i n :=
  read_congr fun j _ hj => write_apply_of_not_mem b off xs j (Or.inl (by omega))

/-- Writing a list is writing its head, then its tail one cell further. -/
theorem write_cons (b : Block α) (off : ℕ) (x : α) (xs : List α) :
    write b off (x::xs) = write (Function.update b off x) (off+1) xs := by
  funext i
  unfold write
  rcases lt_trichotomy i off with h | rfl | h
  · simp [show ¬ off ≤ i by omega, show ¬ off+1 ≤ i by omega, Function.update_of_ne h.ne]
  · simp
  · obtain ⟨k, rfl⟩ : ∃ k, i = off+1+k := ⟨i-(off+1), by omega⟩
    rw [if_pos (by omega), if_pos (by omega), Function.update_of_ne (by omega)]
    rw [show off+1+k-off = k+1 by omega, show off+1+k-(off+1) = k by omega, List.getElem?_cons_succ]

theorem read_write_self (b : Block α) (off : ℕ) (xs : List α) :
    read (write b off xs) off xs.length = xs := by
  induction xs generalizing b off with
  | nil => rfl
  | cons x xs ih =>
    rw [write_cons, List.length_cons, read_succ, ih,
      write_apply_of_not_mem _ _ _ _ (Or.inl (by omega)), Function.update_self]

/-- The first cells of a longer write are those of a write of a prefix. -/
theorem read_write_take (b : Block α) (off : ℕ) (xs ys : List α) :
    read (write b off (xs ++ ys)) off xs.length = xs := by
  have h : read (write b off (xs ++ ys)) off (xs.length+ys.length) = xs ++ ys := by
    rw [← List.length_append, read_write_self]
  rw [read_append] at h
  exact (List.append_inj h (by simp)).1

/-- Appending behind the `n` cells in use extends what is read. -/
theorem read_write_append (b : Block α) (n : ℕ) (xs ys : List α) :
    read (write b n (xs ++ ys)) 0 (n+xs.length) = read b 0 n ++ xs := by
  rw [read_append, read_write_before b _ (by omega), Nat.zero_add, read_write_take]

/-- Two writes in a row are one. -/
theorem write_write_append (b : Block α) (off : ℕ) (xs ys : List α) :
    write (write b off xs) (off+xs.length) ys = write b off (xs ++ ys) := by
  induction xs generalizing b off with
  | nil =>
    funext i
    simp [write]
  | cons x xs ih =>
    rw [write_cons, List.cons_append, write_cons, List.length_cons, ← ih]
    congr 1
    omega

@[simp] theorem write_nil (b : Block α) (off : ℕ) : write b off [] = b := by
  funext i
  simp [write]

/-- Writing back what is read changes nothing. -/
theorem write_read (b : Block α) (off n : ℕ) : write b off (read b off n) = b := by
  induction n generalizing off with
  | zero => exact write_nil b off
  | succ n ih => rw [read_succ, write_cons, Function.update_eq_self, ih]

/-- The bytes that a block holds after it was overwritten from its start. -/
theorem exists_write_iff (b : Block α) (xs : List α) (x : α) :
    (∃ i < xs.length, write b 0 xs i = x) ↔ x ∈ xs := by
  have hget : ∀ i (hi : i < xs.length), write b 0 xs i = xs[i] := by
    intro i hi
    simp [write, hi]
  rw [List.mem_iff_getElem]
  constructor
  · rintro ⟨i, hi, h⟩
    exact ⟨i, hi, (hget i hi).symm.trans h⟩
  · rintro ⟨i, hi, h⟩
    exact ⟨i, hi, (hget i hi).trans h⟩

theorem write_singleton (b : Block α) (off : ℕ) (x : α) :
    write b off [x] = Function.update b off x := by
  rw [write_cons, write_nil]

/-- The last cell of a write. -/
theorem write_apply_behind (b : Block α) (off : ℕ) (xs : List α) (x : α) :
    write b off (xs ++ [x]) (off+xs.length) = x := by
  unfold write
  rw [if_pos (Nat.le_add_right _ _), Nat.add_sub_cancel_left]
  simp

/-- The cells are copied one by one from `s` down to `p`, as in `while(n--) *p++ = *s++`. -/
def copyDown (b : Block α) (p s : ℕ) : ℕ → Block α
  | 0 => b
  | n+1 => copyDown (Function.update b p (b s)) (p+1) (s+1) n

theorem copyDown_apply_lt (b : Block α) {p s i : ℕ} (n : ℕ) (h : i < p) :
    copyDown b p s n i = b i := by
  induction n generalizing b p s with
  | zero => rfl
  | succ n ih => rw [copyDown, ih _ (by omega), Function.update_of_ne (by omega)]

/-- A forward copy to a lower place moves the source cells even where the ranges overlap. -/
theorem read_copyDown (b : Block α) {p s : ℕ} (n : ℕ) (h : p ≤ s) :
    read (copyDown b p s n) p n = read b s n := by
  induction n generalizing b p s with
  | zero => rfl
  | succ n ih =>
    rw [read_succ, read_succ, copyDown, ih _ (by omega), copyDown_apply_lt _ _ (by omega),
      Function.update_self]
    congr 1
    exact read_congr fun i hi _ => Function.update_of_ne (by omega) _ _

/-! ### Zero-terminated strings and substring search -/

/-- The cells before the first zero, looking at `fuel` cells at most. -/
def cstr [Zero α] [DecidableEq α] (b : Block α) (off : ℕ) : ℕ → List α
  | 0 => []
  | fuel+1 => if b off = 0 then [] else b off :: cstr b (off+1) fuel

/-- The zero-terminated string of a block whose `n`-th cell is zero is read off its first
`n` cells. -/
theorem cstr_eq_takeWhile [Zero α] [DecidableEq α] (b : Block α) (off n fuel : ℕ)
    (hz : b (off+n) = 0) (hf : n < fuel) :
    cstr b off fuel = (read b off n).takeWhile (· ≠ 0) := by
  induction n generalizing off fuel with
  | zero =>
    obtain ⟨f, rfl⟩ : ∃ f, fuel = f+1 := ⟨fuel-1, by omega⟩
    simp [cstr, show b off = 0 from hz]
  | succ n ih =>
    obtain ⟨f, rfl⟩ : ∃ f, fuel = f+1 := ⟨fuel-1, by omega⟩
    rw [cstr, read_succ, List.takeWhile_cons]
    by_cases h : b off = 0
    · simp [h]
    · have hz' : b (off+1+n) = 0 := by rw [← hz]; congr 1; omega
      simp [h, ih (off+1) f hz' (by omega)]

/-- A string is read off all the cells that are looked at. -/
theorem cstr_eq_read [Zero α] [DecidableEq α] (b : Block α) (off fuel : ℕ) :
    cstr b off fuel = (read b off fuel).takeWhile (· ≠ 0) := by
  induction fuel generalizing off with
  | zero => rfl
  | succ f ih =>
    rw [cstr, read_succ, List.takeWhile_cons, ih]
    by_cases h : b off = 0
    · simp [h]
    · simp [h]

/-- The position of the first occurrence of `needle`. -/
def firstMatch [DecidableEq α] (needle : List α) : List α → Option ℕ
  | [] => if needle = [] then some 0 else none
  | x::xs => if needle.isPrefixOf (x::xs) then some 0 else (firstMatch needle xs).map (·+1)

theorem firstMatch_add_length_le [DecidableEq α] {needle hay : List α} {k : ℕ}
    (h : firstMatch needle hay = some k) : k+needle.length ≤ hay.length := by
  induction hay generalizing k with
  | nil =>
    simp only [firstMatch] at h
    split_ifs at h with hn
    · cases h; simp [hn]
  | cons x xs ih =>
    simp only [firstMatch] at h
    split_ifs at h with hp
    · cases h
      have := (List.isPrefixOf_iff_prefix.mp hp).length_le
      omega
    · obtain ⟨j, hj, rfl⟩ := Option.map_eq_some_iff.mp h
      have := ih hj
      simp only [List.length_cons]
      omega

/-- A match that lies within a prefix is the first one in every longer text as well. -/
theorem firstMatch_append [DecidableEq α] {needle hay : List α} {k : ℕ}
    (h : firstMatch needle hay = some k) (rest : List α) :
    firstMatch needle (hay ++ rest) = some k := by
  induction hay generalizing k with
  | nil =>
    simp only [firstMatch] at h
    split_ifs at h with hn
    · cases h; subst hn; cases rest <;> simp [firstMatch]
  | cons x xs ih =>
    have hlen := firstMatch_add_length_le h
    simp only [firstMatch] at h
    split_ifs at h with hp
    · cases h
      have hp' : needle.isPrefixOf (x :: (xs ++ rest)) := by
        rw [List.isPrefixOf_iff_prefix] at hp ⊢
        exact hp.trans (List.prefix_append _ rest)
      simp [firstMatch, hp']
    · obtain ⟨j, hj, rfl⟩ := Option.map_eq_some_iff.mp h
      have hn : ¬ needle.isPrefixOf (x :: (xs ++ rest)) := by
        rw [List.isPrefixOf_iff_prefix] at hp ⊢
        intro hc
        exact hp (List.prefix_of_prefix_length_le hc (List.prefix_append (x::xs) rest) (by omega))
      simp [firstMatch, hn, ih hj]

/-- A match is found in every prefix that contains it. -/
theorem firstMatch_take [DecidableEq α] {needle hay : List α} {k n : ℕ}
    (h : firstMatch needle hay = some k) (hn : k+needle.length ≤ n) :
    firstMatch needle (hay.take n) = some k := by
  induction hay generalizing k n with
  | nil => simpa using h
  | cons x xs ih =>
    simp only [firstMatch] at h
    split_ifs at h with hp
    · cases h
      have hp' : needle <+: (x::xs).take n := by
        rw [List.isPrefixOf_iff_prefix] at hp
        exact (List.prefix_take_iff).mpr ⟨hp, by omega⟩
      cases htake : (x::xs).take n with
      | nil =>
        rw [htake] at hp'
        simp [firstMatch, List.prefix_nil.mp hp']
      | cons y ys =>
        rw [htake] at hp'
        simp [firstMatch, List.isPrefixOf_iff_prefix.mpr hp']
    · obtain ⟨j, hj, rfl⟩ := Option.map_eq_some_iff.mp h
      obtain ⟨n, rfl⟩ : ∃ i, n = i+1 := ⟨n-1, by omega⟩
      have hp' : ¬ needle.isPrefixOf (x :: xs.take n) := by
        rw [List.isPrefixOf_iff_prefix] at hp ⊢
        intro hc
        exact hp (hc.trans (List.take_prefix (n+1) (x::xs)))
      have hrest := ih (n := n) hj (by omega)
      simp [firstMatch, hp', hrest]

/-- Where the search succeeds the needle really stands there. -/
theorem firstMatch_spec [DecidableEq α] {needle hay : List α} {k : ℕ}
    (h : firstMatch needle hay = some k) : needle <+: hay.drop k := by
  induction hay generalizing k with
  | nil =>
    simp only [firstMatch] at h
    split_ifs at h with hn
    · simp [hn]
  | cons x xs ih =>
    simp only [firstMatch] at h
    split_ifs at h with hp
    · cases h
      exact List.isPrefixOf_iff_prefix.mp hp
    · obtain ⟨j, hj, rfl⟩ := Option.map_eq_some_iff.mp h
      exact ih hj

/-- The search in the string up to the first zero is the search in all of `hay`, where no zero
stands before the match. -/
theorem firstMatch_takeWhile [Zero α] [DecidableEq α] {needle hay : List α} (hneedle : 0 ∉ needle)
    (hzero : ∀ k, firstMatch needle hay = some k → 0 ∉ hay.take k) :
    firstMatch needle (hay.takeWhile (· ≠ 0)) = firstMatch needle hay := by
  cases hm : firstMatch needle hay with
  | none =>
    cases hw : firstMatch needle (hay.takeWhile (· ≠ 0)) with
    | none => rfl
    | some j =>
      have hall := firstMatch_append hw (hay.dropWhile (· ≠ 0))
      rw [List.takeWhile_append_dropWhile, hm] at hall
      cases hall
  | some k =>
    obtain ⟨ys, hys⟩ := firstMatch_spec hm
    have hsplit : hay = (hay.take k ++ needle) ++ ys := by
      rw [List.append_assoc, hys, List.take_append_drop]
    have hclear : ∀ a ∈ hay.take k ++ needle, decide (a ≠ 0) = true := by
      intro a ha
      rw [decide_eq_true_eq]
      rintro rfl
      exact (List.mem_append.mp ha).elim (hzero k hm) hneedle
    have hshort : firstMatch needle (hay.take k ++ needle) = some k := by
      have hlen := firstMatch_add_length_le hm
      have htake := firstMatch_take hm le_rfl
      rw [hsplit, List.take_left' (by simp; omega)] at htake
      exact htake
    conv_lhs => rw [hsplit, List.takeWhile_append_of_pos hclear]
    exact firstMatch_append hshort _

end Memory
