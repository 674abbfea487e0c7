import Mathlib.Data.UInt

/-! The names of files between lqftp and lqftpd, `common.c`: escaped by `urlencode` and read by `urldecode`.

A string is its bytes before the zero byte. -/
namespace Sbase

/-- `hex2int` -/
def hex2int (hex : UInt8) : UInt8 :=
  let hex := hex-48
  let hex := if hex > 9 then ((hex+48-1) ||| 0x20)-97+11 else hex
  if hex > 15 then 0xff else hex

/-- A digit of the conversion `02X`. -/
def upperHex (d : UInt8) : UInt8 := if d < 10 then 48+d else 55+d

/-- The bytes that `urlencode` writes as an escape. -/
def urlEscaped (c : UInt8) : Bool :=
  (0 < c ∧ c < 44) ∨ (57 < c ∧ c < 65) ∨ (90 < c ∧ c < 95) ∨ (95 < c ∧ c < 97) ∨ (122 < c ∧ c < 0xa1)

/-- `urlencode` -/
def urlencode (s : List UInt8) : List UInt8 :=
  s.flatMap fun c => if urlEscaped c then [37,upperHex (c >>> 4),upperHex (c &&& 15)] else [c]

/-- What an escape stands for; a control character is not let through. -/
def urlPrintable (c : UInt8) : UInt8 := if c < 32 ∨ c = 127 then 95 else c

/-- `urldecode` -/
def urldecode : List UInt8 → List UInt8
  | [] => []
  | c::s =>
    if c = 43 then 32::urldecode s
    else if c = 37 then
      let high := hex2int (s.headD 0)
      let low := hex2int ((s.drop 1).headD 0)
      if high ≠ 0xff ∧ low ≠ 0xff then urlPrintable ((high <<< 4) ||| low)::urldecode (s.drop 2)
      else 37::urldecode s
    else c::urldecode s
termination_by s => s.length

variable {s : List UInt8} {c : UInt8}

/-- The two digits of an escape are those of the byte. -/
theorem escape_digits (c : UInt8) : hex2int (upperHex (c >>> 4)) ≠ 0xff ∧ hex2int (upperHex (c &&& 15)) ≠ 0xff ∧
    (hex2int (upperHex (c >>> 4)) <<< 4) ||| hex2int (upperHex (c &&& 15)) = c := by
  have hall : ∀ n < 256, let c := UInt8.ofNat n
      hex2int (upperHex (c >>> 4)) ≠ 0xff ∧ hex2int (upperHex (c &&& 15)) ≠ 0xff ∧
        (hex2int (upperHex (c >>> 4)) <<< 4) ||| hex2int (upperHex (c &&& 15)) = c := by
    decide +kernel
  simpa using hall c.toNat c.toNat_lt

theorem urldecode_plain (hplus : c ≠ 43) (hpercent : c ≠ 37) : urldecode (c::s) = c::urldecode s := by
  rw [urldecode,if_neg hplus,if_neg hpercent]

/-- An escape is read as its byte. -/
theorem urldecode_escape (c : UInt8) (rest : List UInt8) :
    urldecode (37::upperHex (c >>> 4)::upperHex (c &&& 15)::rest) = urlPrintable c::urldecode rest := by
  obtain ⟨hhigh,hlow,hbyte⟩ := escape_digits c
  rw [urldecode,if_neg (by decide),if_pos rfl]
  simp [hhigh,hlow,hbyte]

/-- A name that was escaped is read as it was, control characters apart. -/
theorem urldecode_urlencode (h : 0 ∉ s) : urldecode (urlencode s) = s.map urlPrintable := by
  induction s with
  | nil => rw [urlencode,List.flatMap_nil,urldecode,List.map_nil]
  | cons c s ih =>
    have ih := ih fun hs => h (List.mem_cons_of_mem c hs)
    have hc : c ≠ 0 := fun heq => h (by simp [heq])
    rw [urlencode,List.flatMap_cons,List.map_cons,← ih]
    split_ifs with hesc
    · exact urldecode_escape c _
    · have hplain : c ≠ 43 ∧ c ≠ 37 ∧ urlPrintable c = c := by
        have hall : ∀ n < 256, let c := UInt8.ofNat n
            c ≠ 0 → ¬ urlEscaped c → c ≠ 43 ∧ c ≠ 37 ∧ urlPrintable c = c := by
          decide +kernel
        simpa [hc,hesc] using hall c.toNat c.toNat_lt
      rw [hplain.2.2]
      exact urldecode_plain hplain.1 hplain.2.1

/-- No byte that ends a name in a request is left in it. -/
theorem urlencode_mem (h : 0 ∉ s) (hc : c ∈ urlencode s) : c ≠ 0 ∧ c ≠ 10 ∧ c ≠ 13 ∧ c ≠ 32 := by
  have hdigits : ∀ n < 256, let b := UInt8.ofNat n
      (47 : UInt8) < upperHex (b >>> 4) ∧ (47 : UInt8) < upperHex (b &&& 15) := by
    decide +kernel
  have hplain : ∀ n < 256, let b := UInt8.ofNat n
      ¬ urlEscaped b → b ≠ 10 ∧ b ≠ 13 ∧ b ≠ 32 := by
    decide +kernel
  have hlarge : 47 < c → c ≠ 0 ∧ c ≠ 10 ∧ c ≠ 13 ∧ c ≠ 32 := by
    intro hc
    refine ⟨?_,?_,?_,?_⟩ <;> rintro rfl <;> exact absurd hc (by decide)
  obtain ⟨b,hb,hmem⟩ := List.mem_flatMap.mp hc
  have hbyte := hdigits b.toNat b.toNat_lt
  have hrest := hplain b.toNat b.toNat_lt
  simp only [UInt8.ofNat_toNat] at hbyte hrest
  split_ifs at hmem with hesc
  · simp only [List.mem_cons,List.not_mem_nil,or_false] at hmem
    obtain rfl | rfl | rfl := hmem
    · decide
    · exact hlarge hbyte.1
    · exact hlarge hbyte.2
  · obtain rfl := List.mem_singleton.mp hmem
    exact ⟨fun heq => h (heq ▸ hb),hrest hesc⟩

theorem urlencode_ne_nil (h : s ≠ []) : urlencode s ≠ [] := by
  obtain ⟨c,s,rfl⟩ := List.exists_cons_of_ne_nil h
  rw [urlencode,List.flatMap_cons]
  split_ifs
  · simp
  · simp

end Sbase
