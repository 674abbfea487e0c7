import Mathlib.Tactic

/-! The days of the Gregorian calendar, counted from 1 January 1970. -/
namespace Calendar

def Leap (y : ℤ) : Prop := y % 4 = 0 ∧ (y % 100 ≠ 0 ∨ y % 400 = 0)

instance (y : ℤ) : Decidable (Leap y) := inferInstanceAs (Decidable (_ ∧ _))

/-- The number of the first day of a year. -/
def daysBefore (y : ℤ) : ℤ := 365*(y-1) + (y-1)/4 - (y-1)/100 + (y-1)/400 - 719162

def monthLengths (y : ℤ) : List ℕ := [31,if Leap y then 29 else 28,31,30,31,30,31,31,30,31,30,31]

/-- The number of the first day of a month; January is 0. -/
def firstDay (y : ℤ) (month : ℕ) : ℤ := daysBefore y + ((monthLengths y).take month).sum

/-- The year of a day: the spans of 400, 100, 4 and 1 years that have passed before it. -/
def yearOf (d : ℤ) : ℤ :=
  let r400 := (d+719162) % 146097
  let n100 := min (r400/36524) 3
  let r100 := r400-36524*n100
  let n1 := min (r100%1461/365) 3
  400*((d+719162)/146097) + 100*n100 + 4*(r100/1461) + n1 + 1

/-- The month in which a day of the year is, and the day of that month; both count from 0. -/
def splitMonth : List ℕ → ℕ → ℕ × ℕ
  | [], r => (0,r)
  | n::ls, r => if r < n then (0,r) else ((splitMonth ls (r-n)).1+1,(splitMonth ls (r-n)).2)

def monthDay (d : ℤ) : ℕ × ℕ := splitMonth (monthLengths (yearOf d)) (d - daysBefore (yearOf d)).toNat

variable {d y : ℤ} {ls : List ℕ} {r : ℕ}

theorem sum_monthLengths (y : ℤ) : ((monthLengths y).sum : ℤ) = daysBefore (y+1) - daysBefore y := by
  unfold monthLengths daysBefore Leap
  split_ifs <;> simp <;> omega

theorem daysBefore_spans {a c q e : ℤ} (hc : 0 ≤ c ∧ c ≤ 3) (hq : 0 ≤ q ∧ q ≤ 24) (he : 0 ≤ e ∧ e ≤ 3) :
    daysBefore (400*a+100*c+4*q+e+1) = 146097*a+36524*c+1461*q+365*e-719162 := by
  unfold daysBefore
  have h4 : (400*a+100*c+4*q+e+1-1)/4 = 100*a+25*c+q := by omega
  have h100 : (400*a+100*c+4*q+e+1-1)/100 = 4*a+c := by omega
  have h400 : (400*a+100*c+4*q+e+1-1)/400 = a := by omega
  rw [h4,h100,h400]
  ring

theorem sum_monthLengths_spans {a c q e : ℤ} (hc : 0 ≤ c ∧ c ≤ 3) (hq : 0 ≤ q ∧ q ≤ 24)
    (he : 0 ≤ e ∧ e ≤ 3) : (monthLengths (400*a+100*c+4*q+e+1)).sum =
      if e = 3 ∧ (q < 24 ∨ c = 3) then 366 else 365 := by
  have hleap : Leap (400*a+100*c+4*q+e+1) ↔ e = 3 ∧ (q < 24 ∨ c = 3) := by
    unfold Leap
    omega
  by_cases h : Leap (400*a+100*c+4*q+e+1)
  · rw [if_pos (hleap.mp h),monthLengths,if_pos h]
    rfl
  · rw [if_neg (mt hleap.mpr h),monthLengths,if_neg h]
    rfl

/-- The day lies in its year. -/
theorem yearOf_spec (d : ℤ) : daysBefore (yearOf d) ≤ d ∧ d < daysBefore (yearOf d+1) := by
  have hsum := sum_monthLengths (yearOf d)
  unfold yearOf at hsum ⊢
  dsimp only at hsum ⊢
  have hr := Int.emod_nonneg (d+719162) (b := 146097) (by decide)
  have hr' := Int.emod_lt_of_pos (d+719162) (b := 146097) (by decide)
  have hd := Int.mul_ediv_add_emod (d+719162) 146097
  generalize (d+719162) % 146097 = r400 at *
  generalize (d+719162) / 146097 = a at *
  obtain ⟨c,hc⟩ : ∃ c, min (r400/36524) 3 = c := ⟨_,rfl⟩
  rw [hc] at hsum ⊢
  obtain ⟨q,hq⟩ : ∃ q, (r400-36524*c)/1461 = q := ⟨_,rfl⟩
  obtain ⟨r4,hr4⟩ : ∃ r4, (r400-36524*c)%1461 = r4 := ⟨_,rfl⟩
  rw [hq,hr4] at hsum ⊢
  obtain ⟨e,he⟩ : ∃ e, min (r4/365) 3 = e := ⟨_,rfl⟩
  rw [he] at hsum ⊢
  have hcb : 0 ≤ c ∧ c ≤ 3 := by omega
  have hqb : 0 ≤ q ∧ q ≤ 24 := by omega
  have heb : 0 ≤ e ∧ e ≤ 3 := by omega
  rw [sum_monthLengths_spans hcb hqb heb,daysBefore_spans hcb hqb heb] at hsum
  rw [daysBefore_spans hcb hqb heb]
  split_ifs at hsum with h
  · push_cast at hsum
    omega
  · push_cast at hsum
    omega

theorem splitMonth_spec (h : r < ls.sum) : (ls.take (splitMonth ls r).1).sum + (splitMonth ls r).2 = r ∧
    ∃ n, ls[(splitMonth ls r).1]? = some n ∧ (splitMonth ls r).2 < n := by
  induction ls generalizing r with
  | nil => cases h
  | cons n ls ih =>
    rw [splitMonth]
    split_ifs with hr
    · exact ⟨by simp,n,rfl,hr⟩
    · rw [List.sum_cons] at h
      obtain ⟨hsum,m,hm,hlt⟩ := ih (r := r-n) (by omega)
      refine ⟨?_,m,hm,hlt⟩
      rw [List.take_succ_cons,List.sum_cons]
      omega

/-- The day is found again from its year, month and day of the month. -/
theorem monthDay_spec (d : ℤ) : firstDay (yearOf d) (monthDay d).1 + (monthDay d).2 = d ∧
    (monthDay d).1 < 12 ∧ (monthDay d).2 < 31 := by
  obtain ⟨hle,hlt⟩ := yearOf_spec d
  have hsum := sum_monthLengths (yearOf d)
  obtain ⟨htake,n,hn,hday⟩ := splitMonth_spec
    (show (d - daysBefore (yearOf d)).toNat < (monthLengths (yearOf d)).sum by omega)
  refine ⟨?_,(List.getElem?_eq_some_iff.mp hn).1,hday.trans_le ?_⟩
  · unfold firstDay monthDay
    omega
  · have hall : ∀ m ∈ monthLengths (yearOf d), m ≤ 31 := by
      unfold monthLengths
      split_ifs <;> decide
    exact hall n (List.mem_of_getElem? hn)

/-- No day from 1 January 1970 on is in an earlier year. -/
theorem yearOf_ge (h : 0 ≤ d) : 1970 ≤ yearOf d := by
  obtain ⟨-,hlt⟩ := yearOf_spec d
  by_contra hyear
  unfold daysBefore at hlt
  omega

end Calendar
