import Sbase.Lib.ReflectedCrc
import Sbase.Xhttpd.Encoders

/-! `http_crc32` against its definition by bits.

The table holds what eight bits of the division make of each byte, so that the step by a byte is that of
the division. An `unsigned long` may be wider than the check sum, which never leaves its low 32 bits. -/
namespace Sbase

/-- The check sum by bits, from an initial value of zero and without a final complement. -/
def crc32Reflected (s : List UInt8) : UInt32 :=
  s.foldl (fun (c : UInt32) b => crcBit^[8] (c ^^^ b.toUInt32)) 0

/-- `http_crc32` where an `unsigned long` has 64 bits. -/
def httpCrc32Long (s : List UInt8) : UInt64 :=
  s.foldl (fun (crc32val : UInt64) b =>
    (crc32Tab.getD ((crc32val ^^^ b.toUInt64) &&& 0xff).toNat 0).toUInt64 ^^^ (crc32val >>> 8)) 0

/-- The polynomial of `crcBit`. -/
def crcPolynomial : BitVec 32 := 0xedb88320#32

theorem crcBit_toBitVec (c : UInt32) :
    (crcBit c).toBitVec = ReflectedCrc.bitStep crcPolynomial c.toBitVec := by
  have hlow : c &&& 1 = 1 ↔ c.toBitVec.getLsbD 0 = true := by
    rw [← UInt32.toBitVec_inj,UInt32.toBitVec_and,
      show (1 : UInt32).toBitVec = 1#32 from rfl,BitVec.and_one_eq_setWidth_ofBool_getLsbD]
    cases c.toBitVec.getLsbD 0 with
    | false => decide
    | true => decide
  unfold crcBit ReflectedCrc.bitStep
  by_cases hbit : c.toBitVec.getLsbD 0 = true
  · rw [if_pos (hlow.2 hbit),if_pos hbit]
    rfl
  · rw [if_neg fun h => hbit (hlow.1 h),if_neg hbit]
    rfl

theorem crcBit_iterate (n : ℕ) (c : UInt32) :
    (crcBit^[n] c).toBitVec = (ReflectedCrc.bitStep crcPolynomial)^[n] c.toBitVec := by
  induction n generalizing c with
  | zero => rfl
  | succ n ih => rw [Function.iterate_succ_apply,ih,crcBit_toBitVec]; rfl

/-- Every entry of the table is right. -/
theorem crc32Tab_eq : ∀ i < 256, crc32Tab.getD i 0 = crcBit^[8] (UInt32.ofNat i) := by
  decide +kernel

theorem low_byte_lt (c : UInt32) : (c &&& 0xff).toNat < 256 := by
  rw [UInt32.toNat_and]
  exact Nat.and_lt_two_pow _ (show (0xff : UInt32).toNat < 2^8 by decide)

/-- The step by the table is the step by bits. -/
theorem crc32Tab_step (c : UInt32) (b : UInt8) :
    crc32Tab.getD ((c ^^^ b.toUInt32) &&& 0xff).toNat 0 ^^^ (c >>> 8) = crcBit^[8] (c ^^^ b.toUInt32) := by
  have htable := ReflectedCrc.byteStep_table crcPolynomial c.toBitVec b.toBitVec
  have hshift : (c >>> 8).toBitVec = c.toBitVec >>> 8 := rfl
  rw [crc32Tab_eq _ (low_byte_lt _),UInt32.ofNat_toNat,← UInt32.toBitVec_inj,UInt32.toBitVec_xor,
    crcBit_iterate,crcBit_iterate,hshift]
  exact htable.symm

theorem httpCrc32_eq (s : List UInt8) : httpCrc32 s = crc32Reflected s := by
  have hstep : (fun (crc32val : UInt32) (b : UInt8) =>
      crc32Tab.getD ((crc32val ^^^ b.toUInt32) &&& 0xff).toNat 0 ^^^ (crc32val >>> 8)) =
        fun c b => crcBit^[8] (c ^^^ b.toUInt32) := by
    funext c b
    exact crc32Tab_step c b
  rw [httpCrc32,crc32Reflected,hstep]

/-- In 64 bits the upper half stays clear. -/
theorem crc32Tab_step_long (c : UInt32) (b : UInt8) :
    (crc32Tab.getD ((c.toUInt64 ^^^ b.toUInt64) &&& 0xff).toNat 0).toUInt64 ^^^ (c.toUInt64 >>> 8) =
      (crc32Tab.getD ((c ^^^ b.toUInt32) &&& 0xff).toNat 0 ^^^ (c >>> 8)).toUInt64 := by
  have hindex : ((c.toUInt64 ^^^ b.toUInt64) &&& 0xff).toNat = ((c ^^^ b.toUInt32) &&& 0xff).toNat := by
    simp
  have hshift : c.toUInt64 >>> 8 = (c >>> 8).toUInt64 := by
    rw [← UInt64.toNat_inj]
    simp
  rw [hindex,hshift,UInt32.toUInt64_xor]

theorem httpCrc32Long_eq (s : List UInt8) : httpCrc32Long s = (httpCrc32 s).toUInt64 := by
  unfold httpCrc32Long httpCrc32
  have hfold : ∀ c : UInt32, s.foldl (fun (crc32val : UInt64) b =>
      (crc32Tab.getD ((crc32val ^^^ b.toUInt64) &&& 0xff).toNat 0).toUInt64 ^^^ (crc32val >>> 8))
        c.toUInt64 = (s.foldl (fun (crc32val : UInt32) b =>
      crc32Tab.getD ((crc32val ^^^ b.toUInt32) &&& 0xff).toNat 0 ^^^ (crc32val >>> 8)) c).toUInt64 := by
    induction s with
    | nil => intro c; rfl
    | cons b s ih =>
      intro c
      rw [List.foldl_cons,List.foldl_cons,crc32Tab_step_long,ih]
  exact hfold 0

/-! ### Linearity -/

theorem crc32Reflected_toBitVec (s : List UInt8) : (crc32Reflected s).toBitVec =
    ReflectedCrc.run crcPolynomial 0#32 (s.map UInt8.toBitVec) := by
  unfold crc32Reflected ReflectedCrc.run
  have hfold : ∀ c : UInt32, (s.foldl (fun (c : UInt32) b => crcBit^[8] (c ^^^ b.toUInt32)) c).toBitVec =
      (s.map UInt8.toBitVec).foldl (ReflectedCrc.byteStep crcPolynomial) c.toBitVec := by
    induction s with
    | nil => intro c; rfl
    | cons b s ih =>
      intro c
      rw [List.foldl_cons,ih,crcBit_iterate]
      rfl
  exact hfold 0

theorem crc32Reflected_xor {s t : List UInt8} (hlen : s.length = t.length) :
    crc32Reflected (List.zipWith (· ^^^ ·) s t) = crc32Reflected s ^^^ crc32Reflected t := by
  have hmap : (List.zipWith (· ^^^ ·) s t).map UInt8.toBitVec =
      List.zipWith (· ^^^ ·) (s.map UInt8.toBitVec) (t.map UInt8.toBitVec) := by
    rw [List.map_zipWith,List.zipWith_map]
    rfl
  have hrun := ReflectedCrc.run_xor crcPolynomial (s.map UInt8.toBitVec) (t.map UInt8.toBitVec)
    (by rw [List.length_map,List.length_map,hlen]) 0#32 0#32
  rw [BitVec.xor_self] at hrun
  rw [← UInt32.toBitVec_inj,UInt32.toBitVec_xor,crc32Reflected_toBitVec,crc32Reflected_toBitVec,
    crc32Reflected_toBitVec,hmap]
  exact hrun

/-- For every string, `http_crc32` is the check sum by bits, in 32 bits for either width of `unsigned long`;
that of the exclusive or of two strings of one length is the exclusive or of theirs. -/
theorem http_crc32_by_bits (s : List UInt8) :
    httpCrc32 s = crc32Reflected s ∧ httpCrc32Long s = (crc32Reflected s).toUInt64 ∧
      (httpCrc32Long s).toNat < 2^32 ∧
      ∀ t, t.length = s.length →
        httpCrc32 (List.zipWith (· ^^^ ·) s t) = httpCrc32 s ^^^ httpCrc32 t ∧
        httpCrc32Long (List.zipWith (· ^^^ ·) s t) = httpCrc32Long s ^^^ httpCrc32Long t := by
  have hlong : ∀ s, httpCrc32Long s = (crc32Reflected s).toUInt64 := fun s => by
    rw [httpCrc32Long_eq,httpCrc32_eq]
  refine ⟨httpCrc32_eq s,hlong s,?_,fun t ht => ⟨?_,?_⟩⟩
  · rw [hlong,UInt32.toNat_toUInt64]
    exact UInt32.toNat_lt _
  · rw [httpCrc32_eq,httpCrc32_eq,httpCrc32_eq,crc32Reflected_xor ht.symm]
  · rw [hlong,hlong,hlong,crc32Reflected_xor ht.symm,UInt32.toUInt64_xor]

theorem http_crc32_by_bits_abc :
    httpCrc32 [97,98,99] = crc32Reflected [97,98,99] ∧
      httpCrc32Long [65,90,7] = httpCrc32Long [97,98,99] ^^^ httpCrc32Long [32,56,100] := by
  obtain ⟨heq,-,-,hxor⟩ := http_crc32_by_bits [97,98,99]
  exact ⟨heq,(hxor [32,56,100] rfl).2⟩

end Sbase
