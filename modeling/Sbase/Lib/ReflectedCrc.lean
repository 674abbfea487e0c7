import Mathlib.Tactic

/-! Cyclic redundancy checks in reflected form, over a register of any width.

A step of the register is linear in exclusive or. Eight of them are one table look-up and a shift, for
only the low byte meets the polynomial. -/
namespace ReflectedCrc

variable {w : ℕ} (P : BitVec w)

/-- One bit of the division by `P`. -/
def bitStep (c : BitVec w) : BitVec w := if c.getLsbD 0 then P ^^^ (c >>> 1) else c >>> 1

theorem bitStep_xor (a b : BitVec w) : bitStep P (a ^^^ b) = bitStep P a ^^^ bitStep P b := by
  unfold bitStep
  rw [BitVec.getLsbD_xor,BitVec.ushiftRight_xor_distrib]
  cases a.getLsbD 0 with
  | false =>
    cases b.getLsbD 0 with
    | false => rfl
    | true =>
      simp only [Bool.false_xor,if_true,Bool.false_eq_true,if_false]
      ac_rfl
  | true =>
    cases b.getLsbD 0 with
    | false =>
      simp only [Bool.xor_false,if_true,Bool.false_eq_true,if_false]
      ac_rfl
    | true =>
      have hcancel : P ^^^ (a >>> 1) ^^^ (P ^^^ (b >>> 1)) = (P ^^^ P) ^^^ (a >>> 1 ^^^ b >>> 1) := by
        ac_rfl
      simp only [Bool.xor_self,if_true,Bool.false_eq_true,if_false]
      rw [hcancel,BitVec.xor_self,BitVec.zero_xor]

theorem iterate_xor (n : ℕ) (a b : BitVec w) :
    (bitStep P)^[n] (a ^^^ b) = (bitStep P)^[n] a ^^^ (bitStep P)^[n] b := by
  induction n generalizing a b with
  | zero => rfl
  | succ n ih => rw [Function.iterate_succ_apply,bitStep_xor,ih]; rfl

/-- Bits that are clear are only shifted out. -/
theorem iterate_clear (n : ℕ) (c : BitVec w) (hclear : ∀ i < n, c.getLsbD i = false) :
    (bitStep P)^[n] c = c >>> n := by
  induction n with
  | zero => simp
  | succ n ih =>
    have hbit : (c >>> n).getLsbD 0 = false := by
      rw [BitVec.getLsbD_ushiftRight]
      exact hclear n (Nat.lt_succ_self n)
    rw [Function.iterate_succ_apply',ih fun i hi => hclear i (Nat.lt_succ_of_lt hi),bitStep,hbit,
      BitVec.shiftRight_add]
    rfl

/-- The register behind a byte. -/
def byteStep (c : BitVec w) (b : BitVec 8) : BitVec w := (bitStep P)^[8] (c ^^^ b.setWidth w)

theorem getLsbD_byte (i : ℕ) : (255#w).getLsbD i = (decide (i < w) && decide (i < 8)) := by
  rw [BitVec.getLsbD_ofNat,show 255 = 2^8 - 1 from rfl,Nat.testBit_two_pow_sub_one]

/-- The low byte and what lies above it. -/
theorem byte_split (x : BitVec w) : (x &&& 255#w) ^^^ (x &&& ~~~255#w) = x := by
  ext i hi
  rw [BitVec.getElem_xor,BitVec.getElem_and,BitVec.getElem_and,BitVec.getElem_not]
  cases x[i] with
  | false => rfl
  | true => cases (255#w)[i] <;> rfl

theorem byte_above (c : BitVec w) (b : BitVec 8) :
    ((c ^^^ b.setWidth w) &&& ~~~255#w) >>> 8 = c >>> 8 := by
  ext i hi
  simp only [BitVec.getElem_ushiftRight,BitVec.getLsbD_and,BitVec.getLsbD_xor,BitVec.getLsbD_not,
    BitVec.getLsbD_setWidth,getLsbD_byte]
  cases hw : decide (8 + i < w) with
  | false =>
    have hc : c.getLsbD (8 + i) = false := BitVec.getLsbD_of_ge c _ (by simpa using hw)
    simp [hc]
  | true => simp

/-- The step by a byte, with the look-up of the low byte in a table. -/
theorem byteStep_table (c : BitVec w) (b : BitVec 8) :
    byteStep P c b = (bitStep P)^[8] ((c ^^^ b.setWidth w) &&& 255#w) ^^^ (c >>> 8) := by
  have hclear : ∀ i < 8, ((c ^^^ b.setWidth w) &&& ~~~255#w).getLsbD i = false := by
    intro i hi
    rw [BitVec.getLsbD_and,BitVec.getLsbD_not,getLsbD_byte]
    cases decide (i < w) with
    | false => simp
    | true => simp [hi]
  calc byteStep P c b
      = (bitStep P)^[8] (((c ^^^ b.setWidth w) &&& 255#w) ^^^ ((c ^^^ b.setWidth w) &&& ~~~255#w)) := by
        rw [byte_split]
        rfl
    _ = (bitStep P)^[8] ((c ^^^ b.setWidth w) &&& 255#w) ^^^ (c >>> 8) := by
        rw [iterate_xor,iterate_clear P 8 _ hclear,byte_above]

theorem byteStep_xor (c d : BitVec w) (a b : BitVec 8) :
    byteStep P (c ^^^ d) (a ^^^ b) = byteStep P c a ^^^ byteStep P d b := by
  have hsplit : c ^^^ d ^^^ (a ^^^ b).setWidth w = (c ^^^ a.setWidth w) ^^^ (d ^^^ b.setWidth w) := by
    rw [BitVec.setWidth_xor]
    ac_rfl
  unfold byteStep
  rw [hsplit,iterate_xor]

/-- The register behind a string. -/
def run (c : BitVec w) (s : List (BitVec 8)) : BitVec w := s.foldl (byteStep P) c

theorem run_xor (s t : List (BitVec 8)) (hlen : s.length = t.length) (c d : BitVec w) :
    run P (c ^^^ d) (List.zipWith (· ^^^ ·) s t) = run P c s ^^^ run P d t := by
  induction s generalizing t c d with
  | nil =>
    have ht : t = [] := List.length_eq_zero_iff.1 hlen.symm
    subst ht
    rfl
  | cons a s ih =>
    cases t with
    | nil => cases hlen
    | cons b t =>
      have hstep := ih t (Nat.succ.inj hlen) (byteStep P c a) (byteStep P d b)
      rw [← byteStep_xor] at hstep
      exact hstep

end ReflectedCrc
