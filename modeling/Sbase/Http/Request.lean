import Sbase.Utils.Mmblock

/-! The request record that the parsers of `utils/http.c` fill in.

Keys and values are offsets and lengths in one of the record's own buffers. -/
namespace Sbase
open Memory

def HTTP_URL_PATH_MAX : ℕ := 1024
def HTTP_ARGV_LINE_MAX : ℕ := 32768
def HTTP_HEADER_MAX : ℕ := 32768
def HTTP_HEAD_MAX : ℕ := 4096
def HTTP_COOKIES_MAX : ℕ := 64
def HTTP_ARGVS_MAX : ℕ := 256

/-- The value of an `unsigned short` after an assignment. -/
def ushort (n : ℕ) : ℕ := n % 65536

theorem ushort_of_lt {n : ℕ} (h : n < 65536) : ushort n = n := Nat.mod_eq_of_lt h

/-- The difference of two places as an `unsigned short`; the first may lie below the second. -/
def ushortSub (a b : ℕ) : ℕ := (((a : ℤ) - b) % 65536).toNat

theorem ushortSub_of_le {a b : ℕ} (h : b ≤ a) (hlt : a < 65536) : ushortSub a b = a - b := by
  have hmod : ((a : ℤ) - b) % 65536 = a - b := Int.emod_eq_of_lt (by omega) (by omega)
  rw [ushortSub,hmod]
  omega

/-- Below the other place, the difference wraps around. -/
theorem ushortSub_of_gt {a b : ℕ} (h : a < b) (hlt : b < 65536) : ushortSub a b = 65536 + a - b := by
  have hmod : ((a : ℤ) - b) % 65536 = a - b + 65536 := by
    rw [← Int.add_emod_right]
    exact Int.emod_eq_of_lt (by omega) (by omega)
  rw [ushortSub,hmod]
  omega

/-- `HTTP_KV`. -/
structure HttpKV where
  nk : ℕ
  nv : ℕ
  k : ℕ
  v : ℕ
deriving DecidableEq, Repr

/-- `HTTP_REQ`. -/
structure HttpReq where
  reqid : ℤ
  nargvs : ℕ
  nline : ℕ
  ncookies : ℕ
  argvOff : ℕ
  argvLen : ℕ
  nhline : ℕ
  headers : ℕ → ℕ
  auth : HttpKV
  argvs : ℕ → HttpKV
  cookies : ℕ → HttpKV
  path : Mem
  hlines : Mem
  line : Mem

/-- A record filled with zeros. -/
def HttpReq.zero : HttpReq where
  reqid := 0
  nargvs := 0
  nline := 0
  ncookies := 0
  argvOff := 0
  argvLen := 0
  nhline := 0
  headers _ := 0
  auth := ⟨0,0,0,0⟩
  argvs _ := ⟨0,0,0,0⟩
  cookies _ := ⟨0,0,0,0⟩
  path _ := 0
  hlines _ := 0
  line _ := 0

/-- `HEX2CH`: the value of a hexadecimal digit of either case. -/
def hex2ch (c : UInt8) : Option ℕ :=
  if 48 ≤ c ∧ c < 58 then some (c.toNat - 48)
  else if 97 ≤ c ∧ c < 103 then some (c.toNat - 97 + 10)
  else if 65 ≤ c ∧ c < 71 then some (c.toNat - 65 + 10)
  else none

/-- The byte that `%` and two digits stand for. -/
def unescape (c h l : UInt8) : Option UInt8 :=
  if c = 37 then
    match hex2ch h, hex2ch l with
    | some high, some low => some (UInt8.ofNat (high <<< 4 ||| low))
    | _, _ => none
  else none

/-- The escape that a `%` at a byte begins, where two more bytes are left. -/
def escapeAt (c : UInt8) : List UInt8 → Option UInt8
  | h::l::_ => unescape c h l
  | _ => none

theorem ofNat_hex (c : UInt8) : UInt8.ofNat ((c.toNat / 16) <<< 4 ||| (c.toNat % 16)) = c := by
  rw [← Nat.shiftLeft_add_eq_or_of_lt (show c.toNat % 16 < 2^4 by omega), Nat.shiftLeft_eq,
    show c.toNat / 16 * 2^4 + c.toNat % 16 = c.toNat by omega]
  simp

theorem unescape_high {c x b : UInt8} (hx : hex2ch x = none) : unescape c x b = none := by
  unfold unescape
  rw [hx]
  split_ifs
  · rfl
  · rfl

theorem unescape_low {c a x : UInt8} (hx : hex2ch x = none) : unescape c a x = none := by
  unfold unescape
  rw [hx]
  split_ifs
  · cases hex2ch a with
    | none => rfl
    | some n => rfl
  · rfl

/-- An escape does not reach past a byte that is no digit. -/
theorem escapeAt_before (c : UInt8) {x : UInt8} (q w : List UInt8) (hx : hex2ch x = none) :
    escapeAt c (q ++ x::w) = escapeAt c q := by
  rcases q with _ | ⟨a,_ | ⟨b,q⟩⟩
  · rcases w with _ | ⟨b,w⟩
    · rfl
    · exact unescape_high hx
  · exact unescape_low hx
  · rfl

/-- An escape takes two bytes. -/
theorem escapeAt_length {c b : UInt8} {s : List UInt8} (h : escapeAt c s = some b) : 2 ≤ s.length := by
  rcases s with _ | ⟨a,_ | ⟨d,s⟩⟩
  · cases h
  · cases h
  · simp

/-- A loop that does not pass a byte stops by it. -/
theorem dropWhile_stops (test : UInt8 → Bool) (v w : List UInt8) {x : UInt8} (hx : test x = false) :
    ∃ v', (v ++ x::w).dropWhile test = v' ++ x::w ∧ v' <:+ v := by
  induction v with
  | nil =>
    refine ⟨[],?_,List.suffix_rfl⟩
    rw [List.nil_append,List.dropWhile_cons_of_neg (by simp [hx])]
  | cons c v ih =>
    by_cases hc : test c = true
    · obtain ⟨v',hv,hsuf⟩ := ih
      refine ⟨v',?_,hsuf.trans (List.suffix_cons c v)⟩
      rw [List.cons_append,List.dropWhile_cons_of_pos hc,hv]
    · refine ⟨c::v,?_,List.suffix_rfl⟩
      rw [List.cons_append,List.dropWhile_cons_of_neg hc]

def isAlnum (s : UInt8) : Bool :=
  (65 ≤ s && s ≤ 90) || (97 ≤ s && s ≤ 122) || (48 ≤ s && s ≤ 57)

end Sbase
