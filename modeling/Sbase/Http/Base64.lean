import Sbase.Http.Request

/-! `http_base64decode`. -/
namespace Sbase

/-- `base64_decode_map`, an array of `char` in which 255 is -1. -/
def base64DecodeMap (c : UInt8) : Int8 :=
  if 65 ≤ c ∧ c ≤ 90 then (c - 65).toInt8
  else if 97 ≤ c ∧ c ≤ 122 then (c - 71).toInt8
  else if 48 ≤ c ∧ c ≤ 57 then (c + 4).toInt8
  else if c = 43 then 62
  else if c = 47 then 63
  else if c = 61 then 0
  else -1

/-- The three bytes that four characters stand for. -/
def base64Group (a b c d : UInt8) : List UInt8 :=
  [(base64DecodeMap a <<< 2 ||| base64DecodeMap b >>> 4).toUInt8,
   (base64DecodeMap b <<< 4 ||| base64DecodeMap c >>> 2).toUInt8,
   (base64DecodeMap c <<< 6 ||| base64DecodeMap d).toUInt8]

/-- `http_base64decode` of `srcLen` characters, given all the bytes that can be read from `src` on. The
last group is read as a whole; `none` where it runs out of the bytes. -/
def httpBase64Decode : List UInt8 → ℕ → Option (List UInt8)
  | _, 0 => some []
  | a::b::c::d::src, srcLen+1 => (httpBase64Decode src (srcLen - 3)).map (base64Group a b c d ++ ·)
  | _, _+1 => none

/-- The groups of four that some characters take. -/
def base64Groups (srcLen : ℕ) : ℕ := (srcLen + 3) / 4

theorem httpBase64Decode_isSome (src : List UInt8) (srcLen : ℕ) :
    (httpBase64Decode src srcLen).isSome ↔ 4 * base64Groups srcLen ≤ src.length := by
  induction src, srcLen using httpBase64Decode.induct with
  | case1 src => simp [httpBase64Decode,base64Groups]
  | case2 a b c d src srcLen ih =>
    simp only [httpBase64Decode,Option.isSome_map,ih,base64Groups,List.length_cons]
    omega
  | case3 src srcLen hshort =>
    have hlen : src.length < 4 := by
      rcases src with _ | ⟨a,_ | ⟨b,_ | ⟨c,_ | ⟨d,src⟩⟩⟩⟩
      · simp
      · simp
      · simp
      · simp
      · exact absurd rfl (hshort a b c d src)
    have hnone : httpBase64Decode src (srcLen + 1) = none := by
      rw [httpBase64Decode]
      exact hshort
    rw [hnone,base64Groups]
    simp only [Option.isSome_none,Bool.false_eq_true,false_iff]
    omega

theorem httpBase64Decode_length {src dst : List UInt8} {srcLen : ℕ}
    (h : httpBase64Decode src srcLen = some dst) : dst.length = 3 * base64Groups srcLen := by
  induction src, srcLen using httpBase64Decode.induct generalizing dst with
  | case1 src =>
    rw [httpBase64Decode,Option.some_inj] at h
    subst h
    rfl
  | case2 a b c d src srcLen ih =>
    rw [httpBase64Decode] at h
    obtain ⟨rest,hrest,rfl⟩ := Option.map_eq_some_iff.1 h
    have hlen := ih hrest
    simp only [base64Group,base64Groups,List.length_append,List.length_cons,List.length_nil] at hlen ⊢
    omega
  | case3 src srcLen hshort =>
    rw [httpBase64Decode] at h
    · cases h
    · exact hshort

end Sbase
