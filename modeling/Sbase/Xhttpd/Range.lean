import Mathlib.Data.List.TakeWhile
import Sbase.Http.RequestParse
import Sbase.Lib.Scanf

/-! The `Range` header of `xhttpd_packet_handler`: the interval that it reads from the value of the
header, and the reply for it.

A value is the bytes before the zero that ends it in `hlines`. A search that finds no byte before that
zero runs on behind the value. -/
namespace Sbase
open Scanf (isDecimal)

/-- The largest value of a `long long`. -/
def LLONG_MAX : ℤ := 2^63 - 1

/-- An `off_t` after an addition or a subtraction. -/
def offT (n : ℤ) : ℤ := (n + 2^63) % 2^64 - 2^63

/-- The number at the start of a text. -/
def numberAt (bs : List UInt8) : ℕ := Scanf.value (bs.takeWhile isDecimal)

/-- `atoll` at a digit. -/
def atoll (bs : List UInt8) : ℤ := min (numberAt bs) LLONG_MAX

/-- `if(*p >= '0' && *p <= '9') to = (off_t)atoll(p) + 1` -/
def rangeTo (bs : List UInt8) : ℤ := if isDecimal (bs.headD 0) then offT (atoll bs + 1) else 0

/-- The value behind `bytes=` and the blanks around it. -/
def rangeBody (bs : List UInt8) : List UInt8 :=
  let p := bs.dropWhile fun b => b = 32 ∨ b = 9
  skipSpaces (if (p.take 6).map lower = ascii "bytes=" then p.drop 6 else p)

/-- The interval that is read from the value of a `Range` header: `from` and `to`. There is none where
the search for the `-` leaves the value. -/
def rangeScan (bs : List UInt8) : Option (ℤ × ℤ) :=
  let p := rangeBody bs
  if p.headD 0 = 45 then some (0,rangeTo (skipSpaces (p.drop 1)))
  else if isDecimal (p.headD 0) then
    match (p.drop 1).dropWhile (· ≠ 45) with
    | [] => none
    | _::q => some (atoll p,rangeTo (skipSpaces q))
  else some (0,0)

/-- The first lines of a reply. -/
inductive ReplyHead
  | ok
  | partialContent (first last size : ℤ)
  deriving DecidableEq

/-- A reply with a file: its first lines, its `Content-Length`, and the arguments of `push_file`. -/
structure FileReply where
  head : ReplyHead
  contentLength : ℤ
  offset : ℤ
  length : ℤ

/-- The reply for the interval `from` and `to`, where a `to` of 0 stands for the end of the file. -/
def fileReply (size : ℤ) (r : ℤ × ℤ) : FileReply :=
  let to' := if r.2 = 0 then size else r.2
  let len := offT (to' - r.1)
  { head := if 0 < r.1 then .partialContent r.1 (offT (to' - 1)) size else .ok
    contentLength := len
    offset := r.1
    length := len }

/-- The reply of `xhttpd_packet_handler` with a file of `size` bytes that is not compressed. -/
def rangeReply (range : Option (List UInt8)) (size : ℤ) : Option FileReply :=
  (range.elim (some (0,0)) rangeScan).map (fileReply size)

/-! ### What a value denotes -/

/-- The ranges of bytes that a `Range` header can ask for. -/
inductive ByteRange
  | span (a b : ℕ)
  | since (a : ℕ)
  | last (n : ℕ)

namespace ByteRange

/-- A range that a file of `size` bytes has bytes of. -/
def Satisfiable (size : ℤ) : ByteRange → Prop
  | span a b => (a : ℤ) < size ∧ a ≤ b
  | since a => (a : ℤ) < size
  | last n => 0 < n

/-- The interval of a satisfiable range. -/
def interval (size : ℤ) : ByteRange → ℤ × ℤ
  | span a b => (a,min (b + 1) size)
  | since a => (a,size)
  | last n => (size - min (n : ℤ) size,size)

end ByteRange

/-- A number in digits. -/
structure Digits (ds : List UInt8) : Prop where
  ne : ds ≠ []
  digit : ∀ b ∈ ds, isDecimal b = true

def Spaces (bs : List UInt8) : Prop := ∀ b ∈ bs, b = 32

/-- What may follow a number: nothing, or blanks. -/
def Blanks (bs : List UInt8) : Prop := ∀ b ∈ bs, b = 32 ∨ b = 9

/-- The text in front of the numbers: `bytes=`, with blanks around it. -/
def RangeUnit (bs : List UInt8) : Prop :=
  ∃ lead name spaces, bs = lead ++ (name ++ spaces) ∧ Blanks lead ∧
    name.map lower = ascii "bytes=" ∧ Spaces spaces

/-- The values that denote a range, with spaces between their parts. -/
inductive Denotes : List UInt8 → ByteRange → Prop
  | span {unit a s t b trail} : RangeUnit unit → Digits a → Spaces s → Spaces t → Digits b →
      Blanks trail → Denotes (unit ++ (a ++ (s ++ 45::(t ++ (b ++ trail)))))
        (.span (Scanf.value a) (Scanf.value b))
  | since {unit a s trail} : RangeUnit unit → Digits a → Spaces s → Blanks trail →
      Denotes (unit ++ (a ++ (s ++ 45::trail))) (.since (Scanf.value a))
  | last {unit t n trail} : RangeUnit unit → Spaces t → Digits n → Blanks trail →
      Denotes (unit ++ 45::(t ++ (n ++ trail))) (.last (Scanf.value n))

/-- What a reply owes to the header and to the file. -/
structure RangeReplied (bs : List UInt8) (size : ℤ) (reply : FileReply) : Prop where
  inside : 0 ≤ reply.offset ∧ reply.offset < reply.offset + reply.length ∧
    reply.offset + reply.length ≤ size
  contentLength : reply.contentLength = reply.length
  asked : ∀ r, Denotes bs r → r.Satisfiable size →
    (reply.offset,reply.offset + reply.length) = r.interval size
  status : (∃ r, Denotes bs r ∧ r.Satisfiable size) → reply.head =
    .partialContent reply.offset (reply.offset + reply.length - 1) size
  ok : (¬ ∃ r, Denotes bs r ∧ r.Satisfiable size) → reply.head = .ok

/-! ### The numbers of a value -/

/-- The number in front of the `-`. -/
def firstNumber (bs : List UInt8) : Option ℕ :=
  if isDecimal ((rangeBody bs).headD 0) then some (numberAt (rangeBody bs)) else none

/-- The number behind the first `-`, where the value has one at the place of a range. -/
def secondNumber (bs : List UInt8) : Option ℕ :=
  let p := rangeBody bs
  let q := skipSpaces ((p.dropWhile (· ≠ 45)).drop 1)
  if (p.headD 0 = 45 ∨ isDecimal (p.headD 0)) ∧ isDecimal (q.headD 0) then some (numberAt q) else none

/-- The condition on a value and the size of a file: a number that starts the value has a `-` behind
it, the number behind the `-` is within the file, a range that the file can satisfy starts with a
number other than 0, and no other value does. -/
structure RangeFits (bs : List UInt8) (size : ℤ) : Prop where
  dash : firstNumber bs ≠ none → 45 ∈ rangeBody bs
  last : ∀ b, secondNumber bs = some b → (b : ℤ) < size
  satisfiable : ∀ r, Denotes bs r → r.Satisfiable size → ∃ a, firstNumber bs = some a ∧ 0 < a
  other : (¬ ∃ r, Denotes bs r ∧ r.Satisfiable size) → ∀ a, firstNumber bs = some a → a = 0

/-! ### Reading the parts of a value -/

section Parts
variable {bs cs ds : List UInt8} {b : UInt8}

theorem isDecimal_ne (h : isDecimal b = true) : b ≠ 32 ∧ b ≠ 9 ∧ b ≠ 45 := by
  rw [isDecimal,decide_eq_true_eq] at h
  refine ⟨?_,?_,?_⟩ <;> rintro rfl <;> exact absurd h (by decide)

theorem Spaces.blanks (h : Spaces bs) : Blanks bs := fun b hb => .inl (h b hb)

theorem Blanks.not_dash (h : Blanks bs) : ∀ b ∈ bs, b ≠ 45 := by
  intro b hb heq
  obtain hb | hb := h b hb <;> rw [heq] at hb <;> exact absurd hb (by decide)

theorem Blanks.not_digit (h : Blanks bs) : isDecimal (bs.headD 0) = false := by
  cases bs with
  | nil => rfl
  | cons b bs =>
    obtain hb | hb := h b (List.mem_cons_self ..) <;> rw [List.headD_cons,hb] <;> rfl

theorem Digits.head (h : Digits ds) (rest : List UInt8) : isDecimal ((ds ++ rest).headD 0) = true := by
  obtain ⟨hne,hdigit⟩ := h
  cases ds with
  | nil => exact absurd rfl hne
  | cons d ds => exact hdigit d (List.mem_cons_self ..)

theorem skipSpaces_append (h : Spaces bs) : skipSpaces (bs ++ cs) = skipSpaces cs :=
  List.dropWhile_append_of_pos fun b hb => decide_eq_true (h b hb)

theorem skipSpaces_of_ne (h : bs.headD 0 ≠ 32) : skipSpaces bs = bs := by
  cases bs with
  | nil => rfl
  | cons b bs => exact List.dropWhile_cons_of_neg (by simpa using h)

/-- A number ends where no digit follows. -/
theorem Digits.numberAt (h : Digits ds) (hcs : isDecimal (cs.headD 0) = false) :
    numberAt (ds ++ cs) = Scanf.value ds := by
  have htake : (ds ++ cs).takeWhile isDecimal = ds := by
    rw [List.takeWhile_append_of_pos h.digit]
    cases cs with
    | nil => exact List.append_nil ds
    | cons c cs =>
      rw [List.takeWhile_cons_of_neg (by rw [← Bool.not_eq_true] at hcs; exact hcs),List.append_nil]
  rw [Sbase.numberAt,htake]

/-- Behind its unit, a value starts with what follows the unit. -/
theorem RangeUnit.rangeBody (h : RangeUnit bs) (hcs : cs.headD 0 ≠ 32) :
    rangeBody (bs ++ cs) = cs := by
  obtain ⟨lead,name,spaces,rfl,hlead,hname,hspaces⟩ := h
  have hlength : name.length = 6 := by
    have hmap := congrArg List.length hname
    rw [List.length_map] at hmap
    exact hmap
  have hdrop : (lead ++ (name ++ spaces) ++ cs).dropWhile (fun b => b = 32 ∨ b = 9) =
      name ++ (spaces ++ cs) := by
    rw [List.append_assoc,List.append_assoc,List.dropWhile_append_of_pos fun b hb => by
      rw [decide_eq_true_eq]
      exact hlead b hb]
    cases name with
    | nil => cases hlength
    | cons c name =>
      have hc : lower c = 98 := by
        rw [List.map_cons] at hname
        exact (List.cons.inj hname).1
      apply List.dropWhile_cons_of_neg
      rw [decide_eq_true_eq]
      rintro (rfl | rfl) <;> exact absurd hc (by decide)
  rw [Sbase.rangeBody,hdrop,List.take_left' hlength,if_pos hname,List.drop_left' hlength,skipSpaces_append hspaces,
    skipSpaces_of_ne hcs]

/-- What stands behind a `-` that only a number and spaces precede. -/
theorem behind_dash (hbs : ∀ b ∈ bs, b ≠ 45) :
    ((bs ++ 45::cs).dropWhile (· ≠ 45)).drop 1 = cs := by
  rw [List.dropWhile_append_of_pos fun b hb => decide_eq_true (hbs b hb),
    List.dropWhile_cons_of_neg (by decide)]
  rfl

/-- The first number of a value, and what stands behind the `-` after it. -/
theorem RangeUnit.first {unit a t : List UInt8} (hunit : RangeUnit unit) (ha : Digits a) (ht : Spaces t)
    (u : List UInt8) : firstNumber (unit ++ (a ++ (t ++ 45::u))) = some (Scanf.value a) ∧
      isDecimal ((Sbase.rangeBody (unit ++ (a ++ (t ++ 45::u)))).headD 0) = true ∧
        ((Sbase.rangeBody (unit ++ (a ++ (t ++ 45::u)))).dropWhile (· ≠ 45)).drop 1 = u := by
  have hdigit := ha.head (t ++ 45::u)
  have hbody : Sbase.rangeBody (unit ++ (a ++ (t ++ 45::u))) = a ++ (t ++ 45::u) :=
    hunit.rangeBody (isDecimal_ne hdigit).1
  have hnext : isDecimal ((t ++ 45::u).headD 0) = false := by
    cases t with
    | nil => rfl
    | cons c t => rw [List.cons_append,List.headD_cons,ht c (List.mem_cons_self ..)]; rfl
  have hdash : ∀ c ∈ a ++ t, c ≠ 45 := by
    intro c hc
    obtain hc | hc := List.mem_append.1 hc
    · exact (isDecimal_ne (ha.digit c hc)).2.2
    · exact ht.blanks.not_dash c hc
  rw [firstNumber,hbody]
  refine ⟨?_,hdigit,?_⟩
  · rw [if_pos hdigit,ha.numberAt hnext]
  · rw [← List.append_assoc,behind_dash hdash]

end Parts

namespace Denotes

variable {bs : List UInt8} {r : ByteRange}

/-- The numbers of a value that denotes a range are those of the range. -/
theorem numbers (h : Denotes bs r) :
    match r with
    | .span a b => firstNumber bs = some a ∧ secondNumber bs = some b
    | .since a => firstNumber bs = some a ∧ secondNumber bs = none
    | .last n => firstNumber bs = none ∧ secondNumber bs = some n := by
  cases h with
  | @span unit a s t b trail hunit ha hs ht hb htrail =>
    obtain ⟨hfirst,hdigit,hbehind⟩ := hunit.first ha hs (t ++ (b ++ trail))
    have hsecond : skipSpaces (t ++ (b ++ trail)) = b ++ trail := by
      rw [skipSpaces_append ht,skipSpaces_of_ne (isDecimal_ne (hb.head trail)).1]
    refine ⟨hfirst,?_⟩
    rw [secondNumber,hbehind,hsecond,if_pos ⟨.inr hdigit,hb.head trail⟩,hb.numberAt htrail.not_digit]
  | @since unit a s trail hunit ha hs htrail =>
    obtain ⟨hfirst,-,hbehind⟩ := hunit.first ha hs trail
    have hrest : Blanks (skipSpaces trail) := fun c hc =>
      htrail c ((List.dropWhile_suffix _).subset hc)
    refine ⟨hfirst,?_⟩
    rw [secondNumber,hbehind,if_neg fun hboth => by rw [hrest.not_digit] at hboth; exact absurd hboth.2 (by decide)]
  | @last unit t n trail hunit ht hn htrail =>
    have hbody : rangeBody (unit ++ 45::(t ++ (n ++ trail))) = 45::(t ++ (n ++ trail)) :=
      hunit.rangeBody (show (45 : UInt8) ≠ 32 by decide)
    have hbehind : skipSpaces (((45::(t ++ (n ++ trail))).dropWhile (· ≠ 45)).drop 1) = n ++ trail := by
      rw [List.dropWhile_cons_of_neg (by decide),List.drop_one,List.tail_cons,skipSpaces_append ht,
        skipSpaces_of_ne (isDecimal_ne (hn.head trail)).1]
    refine ⟨?_,?_⟩
    · rw [firstNumber,hbody]
      rfl
    · rw [secondNumber,hbody,hbehind,if_pos ⟨.inl rfl,hn.head trail⟩,hn.numberAt htrail.not_digit]

end Denotes

/-! ### The interval -/

variable {bs : List UInt8} {size : ℤ}

/-- The interval is read from the two numbers, where the search for the `-` ends. -/
theorem rangeScan_eq (hdash : firstNumber bs ≠ none → 45 ∈ rangeBody bs) :
    rangeScan bs = some ((firstNumber bs).elim 0 fun a => min (a : ℤ) LLONG_MAX,
      (secondNumber bs).elim 0 fun b => offT (min (b : ℤ) LLONG_MAX + 1)) := by
  rw [rangeScan,firstNumber,secondNumber]
  rw [firstNumber] at hdash
  generalize rangeBody bs = p at hdash ⊢
  have hto : ∀ q, (if isDecimal (q.headD 0) = true then some (numberAt q) else none).elim 0
      (fun b : ℕ => offT (min (b : ℤ) LLONG_MAX + 1)) = rangeTo q := by
    intro q
    rw [rangeTo,atoll]
    split_ifs <;> rfl
  by_cases hminus : p.headD 0 = 45
  · have hdigit : isDecimal (p.headD 0) = false := by rw [hminus]; rfl
    have hdrop : (p.dropWhile (· ≠ 45)).drop 1 = p.drop 1 := by
      cases p with
      | nil => rfl
      | cons c p => rw [List.dropWhile_cons_of_neg (by simpa using hminus)]
    rw [if_pos hminus,hdrop,hdigit]
    simp only [hminus,true_or,true_and,hto]
    rfl
  · rw [if_neg hminus]
    by_cases hdigit : isDecimal (p.headD 0) = true
    · have hmem := hdash (by rw [if_pos hdigit]; exact Option.some_ne_none _)
      have hsearch : p.dropWhile (· ≠ 45) = (p.drop 1).dropWhile (· ≠ 45) := by
        cases p with
        | nil => rfl
        | cons c p => exact List.dropWhile_cons_of_pos (by simpa using hminus)
      rw [if_pos hdigit,if_pos hdigit]
      simp only [hdigit,or_true,true_and,hto]
      rw [hsearch]
      cases hq : (p.drop 1).dropWhile (· ≠ 45) with
      | nil =>
        have hnone : 45 ∉ p := by
          rw [← hsearch] at hq
          intro hin
          have hall := List.dropWhile_eq_nil_iff.1 hq
          exact absurd (hall 45 hin) (by decide)
        exact absurd hmem hnone
      | cons c q => rfl
    · rw [if_neg hdigit,if_neg hdigit,if_neg fun hboth => hboth.1.elim hminus hdigit]
      rfl

theorem rangeScan_dash {r : ℤ × ℤ} (h : rangeScan bs = some r) (hfirst : firstNumber bs ≠ none) :
    45 ∈ rangeBody bs := by
  rw [rangeScan] at h
  rw [firstNumber] at hfirst
  generalize rangeBody bs = p at h hfirst ⊢
  by_cases hdigit : isDecimal (p.headD 0) = true
  · rw [if_neg (isDecimal_ne hdigit).2.2,if_pos hdigit] at h
    cases hq : (p.drop 1).dropWhile (· ≠ 45) with
    | nil =>
      rw [hq] at h
      cases h
    | cons c q =>
      have hne : (p.drop 1).dropWhile (· ≠ 45) ≠ [] := by rw [hq]; exact List.cons_ne_nil _ _
      have hc := List.head_dropWhile_not (fun b : UInt8 => decide (b ≠ 45)) hne
      simp only [hq,List.head_cons,decide_eq_false_iff_not,not_not] at hc
      have hmem : c ∈ (p.drop 1).dropWhile (· ≠ 45) := by rw [hq]; exact List.mem_cons_self ..
      rw [hc] at hmem
      exact List.mem_of_mem_drop ((List.dropWhile_suffix _).subset hmem)
  · exact absurd (if_neg hdigit) hfirst

/-- The end of an interval is the number and 1 exactly where the number is within the file. -/
theorem offT_next {b : ℕ} (hsize : size ≤ LLONG_MAX) :
    ((b : ℤ) < size → offT (min (b : ℤ) LLONG_MAX + 1) = b + 1) ∧
      (¬ (b : ℤ) < size → ¬ (0 < offT (min (b : ℤ) LLONG_MAX + 1) ∧
        offT (min (b : ℤ) LLONG_MAX + 1) ≤ size) ∧ offT (min (b : ℤ) LLONG_MAX + 1) ≠ 0) := by
  have hmax : LLONG_MAX = 2^63 - 1 := rfl
  simp only [offT]
  refine ⟨?_,?_⟩ <;> intro h <;> omega

/-- The two ends that the numbers give. -/
def rangeFrom (bs : List UInt8) : ℤ := (firstNumber bs).elim 0 fun a => min (a : ℤ) LLONG_MAX

def rangeEnd (bs : List UInt8) (size : ℤ) : ℤ :=
  let to' := (secondNumber bs).elim 0 fun b => offT (min (b : ℤ) LLONG_MAX + 1)
  if to' = 0 then size else to'

theorem rangeReply_eq (hdash : firstNumber bs ≠ none → 45 ∈ rangeBody bs) :
    rangeReply (some bs) size = some
      { head := if 0 < rangeFrom bs then
          .partialContent (rangeFrom bs) (offT (rangeEnd bs size - 1)) size else .ok
        contentLength := offT (rangeEnd bs size - rangeFrom bs)
        offset := rangeFrom bs
        length := offT (rangeEnd bs size - rangeFrom bs) } := by
  rw [rangeReply,Option.elim_some,rangeScan_eq hdash]
  rfl

theorem rangeFrom_pos : 0 < rangeFrom bs ↔ ∃ a, firstNumber bs = some a ∧ 0 < a := by
  rw [rangeFrom]
  cases firstNumber bs with
  | none => simp
  | some a =>
    have hmax : LLONG_MAX = 2^63 - 1 := rfl
    simp only [Option.elim_some,Option.some.injEq,exists_eq_left']
    omega

theorem rangeFrom_nonneg : 0 ≤ rangeFrom bs := by
  rw [rangeFrom]
  cases firstNumber bs with
  | none => exact le_rfl
  | some a =>
    have hmax : LLONG_MAX = 2^63 - 1 := rfl
    simp only [Option.elim_some]
    omega

theorem rangeEnd_none (h : secondNumber bs = none) : rangeEnd bs size = size := by
  rw [rangeEnd,h]
  rfl

theorem rangeEnd_some {b : ℕ} (h : secondNumber bs = some b) :
    rangeEnd bs size = if offT (min (b : ℤ) LLONG_MAX + 1) = 0 then size
      else offT (min (b : ℤ) LLONG_MAX + 1) := by
  rw [rangeEnd,h]
  rfl

/-- The end lies in the file exactly when the number behind the `-` does. -/
theorem rangeEnd_iff (hpos : 0 < size) (hsize : size ≤ LLONG_MAX) :
    0 < rangeEnd bs size ∧ rangeEnd bs size ≤ size ↔
      ∀ b, secondNumber bs = some b → (b : ℤ) < size := by
  cases hsecond : secondNumber bs with
  | none =>
    rw [rangeEnd_none hsecond]
    exact ⟨fun _ => nofun,fun _ => ⟨hpos,le_rfl⟩⟩
  | some b =>
    obtain ⟨hin,hout⟩ := offT_next (b := b) hsize
    rw [rangeEnd_some hsecond]
    simp only [Option.some.injEq,forall_eq']
    by_cases hb : (b : ℤ) < size
    · rw [hin hb,if_neg (by omega)]
      omega
    · obtain ⟨hbad,hne⟩ := hout hb
      rw [if_neg hne]
      exact ⟨fun h => absurd h hbad,fun h => absurd h hb⟩

/-- Both ends are values of an `off_t`. -/
theorem rangeFrom_le : rangeFrom bs ≤ LLONG_MAX := by
  rw [rangeFrom]
  cases firstNumber bs with
  | none => decide
  | some a => exact min_le_right _ _

theorem rangeEnd_bounds (hpos : 0 < size) (hsize : size ≤ LLONG_MAX) :
    -2^63 ≤ rangeEnd bs size ∧ rangeEnd bs size ≤ LLONG_MAX := by
  have hmax : LLONG_MAX = 2^63 - 1 := rfl
  cases hsecond : secondNumber bs with
  | none =>
    rw [rangeEnd_none hsecond]
    omega
  | some b =>
    rw [rangeEnd_some hsecond]
    simp only [offT]
    split_ifs <;> omega

/-- An interval within the file has its own length, and one that the wrapped length puts there is within
the file. -/
theorem rangeLength_iff (hpos : 0 < size) (hsize : size ≤ LLONG_MAX) :
    0 < offT (rangeEnd bs size - rangeFrom bs) ∧
        rangeFrom bs + offT (rangeEnd bs size - rangeFrom bs) ≤ size ↔
      rangeFrom bs < rangeEnd bs size ∧ rangeEnd bs size ≤ size := by
  have hmax : LLONG_MAX = 2^63 - 1 := rfl
  have hfrom : 0 ≤ rangeFrom bs := rangeFrom_nonneg
  have hle : rangeFrom bs ≤ LLONG_MAX := rangeFrom_le
  have hbounds : -2^63 ≤ rangeEnd bs size ∧ rangeEnd bs size ≤ LLONG_MAX := rangeEnd_bounds hpos hsize
  obtain ⟨hlow,hhigh⟩ := hbounds
  simp only [offT]
  omega

theorem offT_of_bounds {n : ℤ} (hlow : -2^63 ≤ n) (hhigh : n ≤ LLONG_MAX) : offT n = n := by
  have hmax : LLONG_MAX = 2^63 - 1 := rfl
  rw [offT]
  omega

/-- A range that the file satisfies, and that starts behind 0, is read as it is meant. -/
theorem Denotes.interval {r : ByteRange} (h : Denotes bs r) (hr : r.Satisfiable size)
    (hsize : size ≤ LLONG_MAX) (hfirst : 0 < rangeFrom bs)
    (hlast : ∀ b, secondNumber bs = some b → (b : ℤ) < size) :
    (rangeFrom bs,rangeEnd bs size) = r.interval size ∧ rangeFrom bs < rangeEnd bs size := by
  have hnumbers := h.numbers
  have hmax : LLONG_MAX = 2^63 - 1 := rfl
  cases r with
  | span a b =>
    obtain ⟨ha,hb⟩ := hnumbers
    obtain ⟨hlt,hle⟩ : (a : ℤ) < size ∧ a ≤ b := hr
    have hin := hlast b hb
    have hend := (offT_next (b := b) hsize).1 hin
    have hfrom : rangeFrom bs = a := by
      simp only [rangeFrom,ha,Option.elim_some]
      omega
    have hto : rangeEnd bs size = b + 1 := by
      rw [rangeEnd_some hb,hend,if_neg (by omega)]
    rw [hfrom,hto,ByteRange.interval]
    exact ⟨by rw [min_eq_left (by omega)],by omega⟩
  | since a =>
    obtain ⟨ha,hb⟩ := hnumbers
    have hlt : (a : ℤ) < size := hr
    have hfrom : rangeFrom bs = a := by
      simp only [rangeFrom,ha,Option.elim_some]
      omega
    have hto : rangeEnd bs size = size := rangeEnd_none hb
    rw [hfrom,hto,ByteRange.interval]
    exact ⟨rfl,hlt⟩
  | last n =>
    obtain ⟨a,ha,-⟩ := rangeFrom_pos.1 hfirst
    rw [hnumbers.1] at ha
    cases ha

/-- The last bytes of a file fit no file: the value is read as one of the first bytes. -/
theorem RangeFits.not_last (h : RangeFits bs size) {n : ℕ} (hn : 0 < n) : ¬ Denotes bs (.last n) := by
  intro hlast
  obtain ⟨a,ha,-⟩ := h.satisfiable _ hlast hn
  have hnone : firstNumber bs = none := hlast.numbers.1
  rw [hnone] at ha
  cases ha

/-- What is owed to the header holds of the reply exactly when the value fits the file. -/
theorem range_reply_iff (hpos : 0 < size) (hsize : size ≤ LLONG_MAX) :
    (∃ reply, rangeReply (some bs) size = some reply ∧ RangeReplied bs size reply) ↔
      RangeFits bs size := by
  constructor
  · rintro ⟨reply,hreply,hok⟩
    have hdash : firstNumber bs ≠ none → 45 ∈ rangeBody bs := by
      intro hfirst
      cases hscan : rangeScan bs with
      | none =>
        rw [rangeReply,Option.elim_some,hscan] at hreply
        cases hreply
      | some r => exact rangeScan_dash hscan hfirst
    rw [rangeReply_eq hdash] at hreply
    cases hreply
    obtain ⟨hfrom,hlt,hle⟩ := hok.inside
    dsimp only at hfrom hlt hle
    obtain ⟨hbefore,hend⟩ := (rangeLength_iff hpos hsize).1 ⟨by omega,hle⟩
    refine ⟨hdash,(rangeEnd_iff hpos hsize).1 ⟨by omega,hend⟩,?_,?_⟩
    · intro r hr hsat
      have hstatus := hok.status ⟨r,hr,hsat⟩
      apply rangeFrom_pos.1
      by_contra hzero
      dsimp only at hstatus
      rw [if_neg hzero] at hstatus
      cases hstatus
    · intro hnone a ha
      have hstatus := hok.ok hnone
      by_contra hne
      have hfirst := rangeFrom_pos.2 ⟨a,ha,Nat.pos_of_ne_zero hne⟩
      dsimp only at hstatus
      rw [if_pos hfirst] at hstatus
      cases hstatus
  · intro h
    obtain ⟨htpos,htle⟩ := (rangeEnd_iff hpos hsize).2 h.last
    have hfrom : 0 ≤ rangeFrom bs := rangeFrom_nonneg
    have hmax : LLONG_MAX = 2^63 - 1 := rfl
    have hlength : rangeFrom bs < rangeEnd bs size →
        offT (rangeEnd bs size - rangeFrom bs) = rangeEnd bs size - rangeFrom bs :=
      fun hlt => offT_of_bounds (by omega) (by omega)
    have hend : offT (rangeEnd bs size - 1) = rangeEnd bs size - 1 := offT_of_bounds (by omega) (by omega)
    have hsum : rangeFrom bs + (rangeEnd bs size - rangeFrom bs) = rangeEnd bs size := by omega
    refine ⟨_,rangeReply_eq h.dash,?_⟩
    rw [hend]
    by_cases hsat : ∃ r, Denotes bs r ∧ r.Satisfiable size
    · obtain ⟨r,hr,hrsat⟩ := hsat
      have hfirst := rangeFrom_pos.2 (h.satisfiable r hr hrsat)
      have hlt := (hr.interval hrsat hsize hfirst h.last).2
      rw [hlength hlt]
      refine ⟨⟨rangeFrom_nonneg,?_,?_⟩,rfl,?_,?_,?_⟩
      · dsimp only
        omega
      · dsimp only
        omega
      · intro r' hr' hsat'
        dsimp only
        rw [hsum]
        exact (hr'.interval hsat' hsize hfirst h.last).1
      · intro _
        dsimp only
        rw [if_pos hfirst,hsum]
      · exact fun hnone => absurd ⟨r,hr,hrsat⟩ hnone
    · have hzero : rangeFrom bs = 0 := by
        have hnot : ¬ 0 < rangeFrom bs := fun hfirst => by
          obtain ⟨a,ha,hpos⟩ := rangeFrom_pos.1 hfirst
          have heq := h.other hsat a ha
          omega
        exact le_antisymm (not_lt.1 hnot) rangeFrom_nonneg
      rw [hlength (by omega)]
      refine ⟨⟨rangeFrom_nonneg,?_,?_⟩,rfl,?_,?_,?_⟩
      · dsimp only
        omega
      · dsimp only
        omega
      · exact fun r' hr' hsat' => absurd ⟨r',hr',hsat'⟩ hsat
      · exact fun hbad => absurd hbad hsat
      · intro _
        dsimp only
        rw [if_neg (by omega)]

theorem denotes_two_to_five : Denotes (ascii "bytes=" ++ [50,45,53]) (.span 2 5) := by
  have hunit : RangeUnit (ascii "bytes=") :=
    ⟨[],ascii "bytes=",[],(List.append_nil _).symm,nofun,by decide +kernel,nofun⟩
  exact .span hunit (a := [50]) ⟨by simp,by decide +kernel⟩ (s := []) nofun (t := []) nofun (b := [53])
    ⟨by simp,by decide +kernel⟩ (List.forall_mem_nil _)

theorem range_two_to_five :
    ∃ reply, rangeReply (some (ascii "bytes=" ++ [50,45,53])) 10 = some reply ∧
      RangeReplied (ascii "bytes=" ++ [50,45,53]) 10 reply := by
  have hsat : ByteRange.Satisfiable 10 (.span 2 5) := ⟨by decide,by decide⟩
  apply (range_reply_iff (by decide) (by decide)).2
  refine ⟨fun _ => by decide +kernel,?_,?_,?_⟩
  · intro b hb
    have hfive : secondNumber (ascii "bytes=" ++ [50,45,53]) = some 5 := by decide +kernel
    rw [hfive] at hb
    cases hb
    decide
  · exact fun _ _ _ => ⟨2,by decide +kernel,by decide⟩
  · exact fun hnone => absurd ⟨_,denotes_two_to_five,hsat⟩ hnone

/-- A value with a number and no `-` sends the search behind the zero that ends it. -/
theorem range_without_dash : ¬ ∀ (bs : List UInt8) (size : ℤ), 0 ∉ bs → 13 ∉ bs → 0 < size →
    size ≤ LLONG_MAX → ∃ reply, rangeReply (some bs) size = some reply ∧ RangeReplied bs size reply := by
  intro hall
  obtain ⟨reply,hreply,-⟩ := hall (ascii "bytes=5") 10 (by decide +kernel) (by decide +kernel)
    (by decide) (by decide)
  have hnone : rangeReply (some (ascii "bytes=5")) 10 = none := by decide +kernel
  rw [hnone] at hreply
  cases hreply

end Sbase
