import Mathlib.Data.List.DropRight
import Mathlib.Data.Nat.Digits.Lemmas
import Mathlib.Data.UInt

/-! Formatted texts: the directives of `sscanf` with the places where they store, and the decimal numbers
that `sprintf` writes. -/
namespace Scanf

variable {σ : Type*}

/-- A directive of a format; the width of a conversion is the number of bytes that it may take. -/
inductive Directive (σ : Type*)
  | int (width : Option ℕ) (store : ℤ → σ → σ)
  | str (width : Option ℕ) (store : List UInt8 → σ → σ)
  | set (accept : UInt8 → Bool) (store : List UInt8 → σ → σ)
  | blank
  | byte (c : UInt8)

/-- `isspace` -/
def isSpace (c : UInt8) : Bool := c = 32 ∨ 9 ≤ c ∧ c ≤ 13

def isDecimal (c : UInt8) : Bool := 48 ≤ c ∧ c ≤ 57

/-- The number that digits denote. -/
def value (ds : List UInt8) : ℕ := ds.foldl (fun n c => 10*n+(c.toNat-48)) 0

/-- The bytes that a conversion may take. -/
def field (width : Option ℕ) (s : List UInt8) : List UInt8 := s.take (width.getD s.length)

/-- The conversion `d`: the number and what is left. -/
def scanInt (width : Option ℕ) (s : List UInt8) : Option (ℤ × List UInt8) :=
  let s := s.dropWhile isSpace
  let f := field width s
  let sign := if f.head? = some 43 ∨ f.head? = some 45 then 1 else 0
  let ds := (f.drop sign).takeWhile isDecimal
  if ds = [] then none
  else some (if f.head? = some 45 then -(value ds : ℤ) else value ds,s.drop (sign+ds.length))

/-- The conversions for texts: a nonempty run of the bytes they take, and what is left. -/
def scanRun (width : Option ℕ) (accept : UInt8 → Bool) (s : List UInt8) :
    Option (List UInt8 × List UInt8) :=
  let w := (field width s).takeWhile accept
  if w = [] then none else some (w,s.drop w.length)

/-- What is stored, in order up to the first directive that fails, and the number of conversions. -/
def sscanf : List (Directive σ) → List UInt8 → σ → σ × ℕ
  | [],_,x => (x,0)
  | .blank::ds,s,x => sscanf ds (s.dropWhile isSpace) x
  | .byte c::ds,s,x => if s.head? = some c then sscanf ds s.tail x else (x,0)
  | .int width store::ds,s,x =>
    match scanInt width s with
    | none => (x,0)
    | some (n,s) => ((sscanf ds s (store n x)).1,(sscanf ds s (store n x)).2+1)
  | .str width store::ds,s,x =>
    match scanRun width (fun c => !isSpace c) (s.dropWhile isSpace) with
    | none => (x,0)
    | some (w,s) => ((sscanf ds s (store w x)).1,(sscanf ds s (store w x)).2+1)
  | .set accept store::ds,s,x =>
    match scanRun none accept s with
    | none => (x,0)
    | some (w,s) => ((sscanf ds s (store w x)).1,(sscanf ds s (store w x)).2+1)

/-- A number with zeros before it up to a width. -/
def padded (width n : ℕ) : List UInt8 :=
  let ds := (Nat.digits 10 n).reverse.map fun d => UInt8.ofNat (48+d)
  List.replicate (width-ds.length) 48 ++ ds

/-- The conversion `0wd`, and `d` for the width 1. -/
def printInt (width : ℕ) (n : ℤ) : List UInt8 :=
  if n < 0 then 45::padded (width-1) n.natAbs else padded width n.natAbs

/-! ### Reading what was written -/

section

variable {ds s rest w : List UInt8} {width n : ℕ} {x : σ} {fmt : List (Directive σ)}

theorem toNat_digit {d : ℕ} (hd : d ∈ Nat.digits 10 n) : (UInt8.ofNat (48+d)).toNat = 48+d := by
  have hlt : d < 10 := Nat.digits_lt_base (by decide) hd
  rw [UInt8.toNat_ofNat']
  omega

theorem padded_decimal (width n : ℕ) : ∀ c ∈ padded width n, isDecimal c := by
  intro c hc
  rcases List.mem_append.mp hc with hc | hc
  · rw [List.eq_of_mem_replicate hc]
    rfl
  · obtain ⟨d,hd,rfl⟩ := List.mem_map.mp hc
    have hd := List.mem_reverse.mp hd
    have hlt : d < 10 := Nat.digits_lt_base (by decide) hd
    simp only [isDecimal,UInt8.le_iff_toNat_le,toNat_digit hd,decide_eq_true_eq]
    exact ⟨Nat.le_add_right 48 d,by change 48+d ≤ 57; omega⟩

theorem value_padded (width n : ℕ) : value (padded width n) = n := by
  have hzeros : ∀ k, (List.replicate k (48 : UInt8)).foldl (fun n c => 10*n+(c.toNat-48)) 0 = 0 := by
    intro k
    induction k with
    | zero => rfl
    | succ k ih => rw [List.replicate_succ',List.foldl_append,ih]; rfl
  have hdigits : ∀ ds : List ℕ, (∀ d ∈ ds, d ∈ Nat.digits 10 n) →
      ((ds.map fun d => UInt8.ofNat (48+d)).foldr (fun c n => 10*n+(c.toNat-48)) 0) = Nat.ofDigits 10 ds := by
    intro ds hds
    induction ds with
    | nil => rfl
    | cons d ds ih =>
      rw [List.map_cons,List.foldr_cons,ih fun e he => hds e (List.mem_cons_of_mem _ he),
        toNat_digit (hds d List.mem_cons_self),Nat.ofDigits_cons]
      omega
  rw [value,padded,List.foldl_append,hzeros,List.map_reverse,List.foldl_reverse,hdigits _ fun d hd => hd,
    Nat.ofDigits_digits]

theorem length_padded (h : n < 10^width) : (padded width n).length = width := by
  have hlen := (Nat.digits_length_le_iff (b := 10) (by decide) n).mpr h
  simp only [padded,List.length_append,List.length_replicate,List.length_map,List.length_reverse]
  omega

/-- No zeros are put before a number that has the digits. -/
theorem padded_eq {k : ℕ} (hn : 10^k ≤ n) (hw : width ≤ k+1) : padded width n = padded (k+1) n := by
  have hlen := (Nat.lt_digits_length_iff (b := 10) (by decide) n).mpr hn
  simp only [padded,List.length_map,List.length_reverse]
  rw [Nat.sub_eq_zero_of_le hlen,Nat.sub_eq_zero_of_le (hw.trans hlen)]

theorem not_isSpace {c : UInt8} (hc : isDecimal c) : isSpace c = false := by
  simp only [isDecimal,UInt8.le_iff_toNat_le,decide_eq_true_eq] at hc
  simp only [isSpace,UInt8.le_iff_toNat_le,decide_eq_false_iff_not,← UInt8.toNat_inj]
  have h48 : (48 : UInt8).toNat = 48 := rfl
  have h32 : (32 : UInt8).toNat = 32 := rfl
  have h13 : (13 : UInt8).toNat = 13 := rfl
  omega

/-- A conversion that takes as many bytes as there are digits. -/
theorem scanInt_digits (hds : ∀ c ∈ ds, isDecimal c) (hne : ds ≠ []) :
    scanInt (some ds.length) (ds ++ rest) = some ((value ds : ℤ),rest) := by
  obtain ⟨c,ds',rfl⟩ := List.exists_cons_of_ne_nil hne
  have hc := hds c List.mem_cons_self
  have hskip : ((c::ds') ++ rest).dropWhile isSpace = (c::ds') ++ rest := by
    rw [List.cons_append,List.dropWhile_cons_of_neg (by rw [not_isSpace hc]; decide)]
  have h43 : c ≠ 43 := fun h => absurd hc (by rw [h]; decide)
  have h45 : c ≠ 45 := fun h => absurd hc (by rw [h]; decide)
  have hfield : field (some (c::ds').length) ((c::ds') ++ rest) = c::ds' := List.take_left
  have hsign : ¬ ((c::ds').head? = some 43 ∨ (c::ds').head? = some 45) := by simp [h43,h45]
  have htake : (c::ds').takeWhile isDecimal = c::ds' := List.takeWhile_eq_self_iff.mpr hds
  rw [scanInt]
  simp only [hskip,hfield,if_neg hsign,List.drop_zero,htake,if_neg hne,Nat.zero_add,List.drop_left]
  rw [if_neg fun h => hsign (.inr h)]

/-- A conversion without a width takes the digits up to what is none. -/
theorem scanInt_all (hds : ∀ c ∈ ds, isDecimal c) (hne : ds ≠ []) {c : UInt8} (hc : isDecimal c = false) :
    scanInt none (ds ++ c::rest) = some ((value ds : ℤ),c::rest) := by
  obtain ⟨d,ds',rfl⟩ := List.exists_cons_of_ne_nil hne
  have hd := hds d List.mem_cons_self
  have hskip : ((d::ds') ++ c::rest).dropWhile isSpace = (d::ds') ++ c::rest := by
    rw [List.cons_append,List.dropWhile_cons_of_neg (by rw [not_isSpace hd]; decide)]
  have h43 : d ≠ 43 := fun h => absurd hd (by rw [h]; decide)
  have h45 : d ≠ 45 := fun h => absurd hd (by rw [h]; decide)
  have hfield : field none ((d::ds') ++ c::rest) = (d::ds') ++ c::rest := List.take_length
  have hsign : ¬ (((d::ds') ++ c::rest).head? = some 43 ∨ ((d::ds') ++ c::rest).head? = some 45) := by
    simp [h43,h45]
  have htake : ((d::ds') ++ c::rest).takeWhile isDecimal = d::ds' := by
    rw [List.takeWhile_append_of_pos hds]
    simp [hc]
  rw [scanInt]
  simp only [hskip,hfield,if_neg hsign,List.drop_zero,htake,if_neg hne,Nat.zero_add,List.drop_left]
  rw [if_neg fun h => hsign (.inr h)]

theorem scanRun_word {accept : UInt8 → Bool} (hw : ∀ c ∈ w, accept c) (hne : w ≠ []) :
    scanRun (some w.length) accept (w ++ rest) = some (w,rest) := by
  have hfield : field (some w.length) (w ++ rest) = w := List.take_left
  have htake : w.takeWhile accept = w := List.takeWhile_eq_self_iff.mpr hw
  rw [scanRun]
  simp only [hfield,htake,if_neg hne,List.drop_left]

/-! ### Directives in turn -/

/-- A number that the conversion finds. -/
theorem sscanf_int_some {width : Option ℕ} {z : ℤ} (h : scanInt width s = some (z,rest)) (store : ℤ → σ → σ) :
    sscanf (.int width store::fmt) s x = ((sscanf fmt rest (store z x)).1,(sscanf fmt rest (store z x)).2+1) := by
  change (match scanInt width s with
    | none => (x,0)
    | some (n,s) => ((sscanf fmt s (store n x)).1,(sscanf fmt s (store n x)).2+1)) = _
  rw [h]

theorem sscanf_int_none {width : Option ℕ} (h : scanInt width s = none) (store : ℤ → σ → σ) :
    sscanf (.int width store::fmt) s x = (x,0) := by
  change (match scanInt width s with
    | none => (x,0)
    | some (n,s) => ((sscanf fmt s (store n x)).1,(sscanf fmt s (store n x)).2+1)) = _
  rw [h]

theorem sscanf_int_congr {s' : List UInt8} {width : Option ℕ} (h : scanInt width s = scanInt width s')
    (store : ℤ → σ → σ) : sscanf (.int width store::fmt) s x = sscanf (.int width store::fmt) s' x := by
  cases hscan : scanInt width s' with
  | none => exact (sscanf_int_none (h.trans hscan) store).trans (sscanf_int_none hscan store).symm
  | some r => exact (sscanf_int_some (h.trans hscan) store).trans (sscanf_int_some hscan store).symm

/-- A text that the conversion finds. -/
theorem sscanf_str_some {width : Option ℕ}
    (h : scanRun width (fun c => !isSpace c) (s.dropWhile isSpace) = some (w,rest))
    (store : List UInt8 → σ → σ) :
    sscanf (.str width store::fmt) s x = ((sscanf fmt rest (store w x)).1,(sscanf fmt rest (store w x)).2+1) := by
  change (match scanRun width (fun c => !isSpace c) (s.dropWhile isSpace) with
    | none => (x,0)
    | some (w,s) => ((sscanf fmt s (store w x)).1,(sscanf fmt s (store w x)).2+1)) = _
  rw [h]

theorem sscanf_str_congr {s' : List UInt8} {width : Option ℕ} (h : s.dropWhile isSpace = s'.dropWhile isSpace)
    (store : List UInt8 → σ → σ) : sscanf (.str width store::fmt) s x = sscanf (.str width store::fmt) s' x := by
  change (match scanRun width (fun c => !isSpace c) (s.dropWhile isSpace) with
    | none => (x,0)
    | some (w,s) => ((sscanf fmt s (store w x)).1,(sscanf fmt s (store w x)).2+1)) = _
  rw [h]
  rfl

/-- Spaces before a number are skipped by its conversion as well. -/
theorem sscanf_blank_int (width : Option ℕ) (store : ℤ → σ → σ) :
    sscanf (.blank::.int width store::fmt) s x = sscanf (.int width store::fmt) s x :=
  sscanf_int_congr (by simp only [scanInt,List.dropWhile_idempotent]) store

theorem sscanf_blank_str (width : Option ℕ) (store : List UInt8 → σ → σ) :
    sscanf (.blank::.str width store::fmt) s x = sscanf (.str width store::fmt) s x :=
  sscanf_str_congr (List.dropWhile_idempotent ..) store

theorem sscanf_int_space {c : UInt8} (hc : isSpace c) (width : Option ℕ) (store : ℤ → σ → σ) :
    sscanf (.int width store::fmt) (c::s) x = sscanf (.int width store::fmt) s x :=
  sscanf_int_congr (by simp only [scanInt,List.dropWhile_cons_of_pos hc]) store

theorem sscanf_str_space {c : UInt8} (hc : isSpace c) (width : Option ℕ) (store : List UInt8 → σ → σ) :
    sscanf (.str width store::fmt) (c::s) x = sscanf (.str width store::fmt) s x :=
  sscanf_str_congr (List.dropWhile_cons_of_pos hc) store

theorem sscanf_byte (c : UInt8) : sscanf (.byte c::fmt) (c::s) x = sscanf fmt s x := if_pos rfl

theorem sscanf_int (hwidth : 0 < width) (hn : n < 10^width) (store : ℤ → σ → σ) :
    sscanf (.int (some width) store::fmt) (padded width n ++ rest) x =
      ((sscanf fmt rest (store n x)).1,(sscanf fmt rest (store n x)).2+1) := by
  have hlen := length_padded hn
  have hscan : scanInt (some (padded width n).length) (padded width n ++ rest) =
      some ((value (padded width n) : ℤ),rest) :=
    scanInt_digits (padded_decimal width n) (List.ne_nil_of_length_pos (by rwa [hlen]))
  rw [hlen,value_padded] at hscan
  exact sscanf_int_some hscan store

theorem sscanf_str (hlen : w.length = width) (hw : ∀ c ∈ w, isSpace c = false) (hwidth : 0 < width)
    (store : List UInt8 → σ → σ) :
    sscanf (.str (some width) store::fmt) (w ++ rest) x =
      ((sscanf fmt rest (store w x)).1,(sscanf fmt rest (store w x)).2+1) := by
  have hne : w ≠ [] := List.ne_nil_of_length_pos (by rwa [hlen])
  have hscan : scanRun (some w.length) (fun c => !isSpace c) (w ++ rest) = some (w,rest) :=
    scanRun_word (fun c hc => by rw [hw c hc]; rfl) hne
  have hskip : (w ++ rest).dropWhile isSpace = w ++ rest := by
    obtain ⟨c,w',rfl⟩ := List.exists_cons_of_ne_nil hne
    rw [List.cons_append,List.dropWhile_cons_of_neg (by rw [hw c List.mem_cons_self]; decide)]
  rw [hlen,← hskip] at hscan
  exact sscanf_str_some hscan store

/-- A run of bytes up to one that the conversion does not take. -/
theorem sscanf_set {accept : UInt8 → Bool} (hw : ∀ c ∈ w, accept c) (hne : w ≠ [])
    (hrest : ∀ c, rest.head? = some c → accept c = false) (store : List UInt8 → σ → σ) :
    sscanf (.set accept store::fmt) (w ++ rest) x =
      ((sscanf fmt rest (store w x)).1,(sscanf fmt rest (store w x)).2+1) := by
  have htake : (w ++ rest).takeWhile accept = w := by
    rw [List.takeWhile_append_of_pos hw]
    cases rest with
    | nil => simp
    | cons c rest => simp [hrest c rfl]
  have hscan : scanRun none accept (w ++ rest) = some (w,rest) := by
    have hfield : field none (w ++ rest) = w ++ rest := List.take_length
    simp only [scanRun,hfield,htake,if_neg hne,List.drop_left]
  change (match scanRun none accept (w ++ rest) with
    | none => (x,0)
    | some (w,s) => ((sscanf fmt s (store w x)).1,(sscanf fmt s (store w x)).2+1)) = _
  rw [hscan]

theorem sscanf_byte_ne {c : UInt8} (h : s.head? ≠ some c) : sscanf (.byte c::fmt) s x = (x,0) := if_neg h

theorem sscanf_blank (h : ∀ c, rest.head? = some c → isSpace c = false) (hw : ∀ c ∈ w, isSpace c) :
    sscanf (.blank::fmt) (w ++ rest) x = sscanf fmt rest x := by
  have hdrop : (w ++ rest).dropWhile isSpace = rest := by
    rw [List.dropWhile_append_of_pos hw]
    cases rest with
    | nil => rfl
    | cons c rest => simp [h c rfl]
  exact congrArg (sscanf fmt · x) hdrop

theorem sscanf_no_blank (h : ∀ c, s.head? = some c → isSpace c = false) :
    sscanf (.blank::fmt) s x = sscanf fmt s x := sscanf_blank (w := []) h (by simp)

/-- A format that starts with a number stores nothing of a text that starts with something else. -/
theorem sscanf_int_fails {c : UInt8} (hspace : isSpace c = false) (hdec : isDecimal c = false)
    (hsign : c ≠ 43 ∧ c ≠ 45) (width : Option ℕ) (store : ℤ → σ → σ) :
    sscanf (.int width store::fmt) (c::s) x = (x,0) := by
  have hnone : scanInt width (c::s) = none := by
    have hfield : field width (c::s) = [] ∨ ∃ f, field width (c::s) = c::f := by
      unfold field
      cases width.getD (c::s).length with
      | zero => exact .inl rfl
      | succ k => exact .inr ⟨s.take k,rfl⟩
    rw [scanInt,List.dropWhile_cons_of_neg (by rw [hspace]; decide)]
    rcases hfield with hf | ⟨f,hf⟩
    · simp [hf]
    · simp [hf,hsign,hdec]
  exact sscanf_int_none hnone store

end

end Scanf
