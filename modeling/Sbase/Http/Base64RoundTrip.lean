import Sbase.Http.HeaderField

/-! `http_base64encode`, and what `http_base64decode` makes of its output.

The decoder turns every group of four characters into three bytes. The padding of the last group counts as
bits of zero, and the bytes that it stands for are not taken back. -/
namespace Sbase
open Memory

/-! ### The encoder -/

/-- `base64_map` -/
def base64Map : List UInt8 :=
  ascii "ABCDEFGHIJKLMNOPQRSTUVWXYZabcdefghijklmnopqrstuvwxyz0123456789+/"

def base64At (i : Int32) : UInt8 := base64Map.getD i.toNatClampNeg 0

/-- A `char` of the source as an operand of type `int`. -/
def charInt (c : UInt8) : Int32 := c.toInt8.toInt32

/-- `http_base64encode`, without the zero that it writes behind its output. -/
def httpBase64Encode : List UInt8 → List UInt8
  | [] => []
  | [a] =>
    [base64At ((charInt a >>> 2) &&& 0x3F),
     base64At ((charInt a <<< 4) &&& 0x30), 61, 61]
  | [a,b] =>
    [base64At ((charInt a >>> 2) &&& 0x3F),
     base64At (((charInt a <<< 4) &&& (0x30 : Int32)) + ((charInt b >>> 4) &&& (0xF : Int32))),
     base64At ((charInt b <<< 2) &&& 0x3C), 61]
  | a::b::c::src =>
    base64At ((charInt a >>> 2) &&& 0x3F) ::
    base64At (((charInt a <<< 4) &&& (0x30 : Int32)) + ((charInt b >>> 4) &&& (0xF : Int32))) ::
    base64At (((charInt b <<< 2) &&& (0x3C : Int32)) + ((charInt c >>> 6) &&& (0x3 : Int32))) ::
    base64At (charInt c &&& 0x3F) :: httpBase64Encode src

/-! ### Six bits at a time -/

/-- The character of a number below 64. -/
def base64Char (n : ℕ) : UInt8 := base64At (Int32.ofNat n)

/-- The parts of a byte that the encoder takes, whatever its sign. -/
theorem charInt_parts : ∀ n < 256,
    (charInt (UInt8.ofNat n) >>> 2) &&& 0x3F = Int32.ofNat (n / 4) ∧
    (charInt (UInt8.ofNat n) <<< 4) &&& 0x30 = Int32.ofNat (n % 4 * 16) ∧
    (charInt (UInt8.ofNat n) >>> 4) &&& 0xF = Int32.ofNat (n / 16) ∧
    (charInt (UInt8.ofNat n) <<< 2) &&& 0x3C = Int32.ofNat (n % 16 * 4) ∧
    (charInt (UInt8.ofNat n) >>> 6) &&& 0x3 = Int32.ofNat (n / 64) ∧
    charInt (UInt8.ofNat n) &&& 0x3F = Int32.ofNat (n % 64) := by
  decide +kernel

theorem charInt_eq (a : UInt8) :
    (charInt a >>> 2) &&& 0x3F = Int32.ofNat (a.toNat / 4) ∧
    (charInt a <<< 4) &&& 0x30 = Int32.ofNat (a.toNat % 4 * 16) ∧
    (charInt a >>> 4) &&& 0xF = Int32.ofNat (a.toNat / 16) ∧
    (charInt a <<< 2) &&& 0x3C = Int32.ofNat (a.toNat % 16 * 4) ∧
    (charInt a >>> 6) &&& 0x3 = Int32.ofNat (a.toNat / 64) ∧
    charInt a &&& 0x3F = Int32.ofNat (a.toNat % 64) := by
  have hparts := charInt_parts a.toNat a.toNat_lt
  rwa [UInt8.ofNat_toNat] at hparts

/-- The characters of the alphabet are decoded to their numbers, and none of them ends a line or a
word. -/
theorem base64Char_checked : ∀ n < 64, base64DecodeMap (base64Char n) = Int8.ofNat n ∧
    base64Char n ≠ 13 ∧ base64Char n ≠ 10 ∧ base64Char n ≠ 0 ∧ base64Char n ≠ 32 := by
  decide +kernel

theorem base64DecodeMap_char (n : ℕ) (hn : n < 64) : base64DecodeMap (base64Char n) = Int8.ofNat n :=
  (base64Char_checked n hn).1

/-- The shifts of the decoder on a number of six bits, and the bytes it makes of the shifted numbers. -/
theorem int8_shifts : (∀ x < 64,
      Int8.ofNat x <<< 2 = Int8.ofNat (x * 4) ∧ Int8.ofNat x <<< 4 = Int8.ofNat (x % 16 * 16) ∧
      Int8.ofNat x <<< 6 = Int8.ofNat (x % 4 * 64) ∧ Int8.ofNat x >>> 4 = Int8.ofNat (x / 16) ∧
      Int8.ofNat x >>> 2 = Int8.ofNat (x / 4)) ∧
    (∀ x < 64, ∀ y < 4, (Int8.ofNat (x * 4) ||| Int8.ofNat y).toUInt8 = UInt8.ofNat (x * 4 + y)) ∧
    (∀ x < 16, ∀ y < 16, (Int8.ofNat (x * 16) ||| Int8.ofNat y).toUInt8 = UInt8.ofNat (x * 16 + y)) ∧
    (∀ x < 4, ∀ y < 64, (Int8.ofNat (x * 64) ||| Int8.ofNat y).toUInt8 = UInt8.ofNat (x * 64 + y)) := by
  decide +kernel

theorem int8_parts (x : ℕ) (hx : x < 64) (y : ℕ) (hy : y < 64) :
    (Int8.ofNat x <<< 2 ||| Int8.ofNat y >>> 4).toUInt8 = UInt8.ofNat (x * 4 + y / 16) ∧
    (Int8.ofNat x <<< 4 ||| Int8.ofNat y >>> 2).toUInt8 = UInt8.ofNat (x % 16 * 16 + y / 4) ∧
    (Int8.ofNat x <<< 6 ||| Int8.ofNat y).toUInt8 = UInt8.ofNat (x % 4 * 64 + y) := by
  obtain ⟨hshifts,hfirst,hsecond,hthird⟩ := int8_shifts
  obtain ⟨hx2,hx4,hx6,-,-⟩ := hshifts x hx
  obtain ⟨-,-,-,hy4,hy2⟩ := hshifts y hy
  rw [hx2,hx4,hx6,hy4,hy2]
  exact ⟨hfirst x hx _ (by omega),hsecond _ (by omega) _ (by omega),hthird _ (by omega) y hy⟩

/-- A group of four characters holds three bytes. -/
theorem base64Group_char (a b c d : UInt8) {x y z w : ℕ} (ha : base64DecodeMap a = Int8.ofNat x)
    (hb : base64DecodeMap b = Int8.ofNat y) (hc : base64DecodeMap c = Int8.ofNat z)
    (hd : base64DecodeMap d = Int8.ofNat w) (hx : x < 64) (hy : y < 64) (hz : z < 64) (hw : w < 64) :
    base64Group a b c d =
      [UInt8.ofNat (x * 4 + y / 16), UInt8.ofNat (y % 16 * 16 + z / 4), UInt8.ofNat (z % 4 * 64 + w)] := by
  rw [base64Group,ha,hb,hc,hd,(int8_parts x hx y hy).1,(int8_parts y hy z hz).2.1,
    (int8_parts z hz w hw).2.2]

/-- The four numbers of three bytes give the bytes back. -/
theorem base64Group_bytes (a b c : UInt8) {x y z w : UInt8}
    (hx : base64DecodeMap x = Int8.ofNat (a.toNat / 4))
    (hy : base64DecodeMap y = Int8.ofNat (a.toNat % 4 * 16 + b.toNat / 16))
    (hz : base64DecodeMap z = Int8.ofNat (b.toNat % 16 * 4 + c.toNat / 64))
    (hw : base64DecodeMap w = Int8.ofNat (c.toNat % 64)) : base64Group x y z w = [a,b,c] := by
  have ha := a.toNat_lt
  have hb := b.toNat_lt
  have hc := c.toNat_lt
  have h0 : a.toNat / 4 * 4 + (a.toNat % 4 * 16 + b.toNat / 16) / 16 = a.toNat := by omega
  have h1 : (a.toNat % 4 * 16 + b.toNat / 16) % 16 * 16 + (b.toNat % 16 * 4 + c.toNat / 64) / 4 =
      b.toNat := by omega
  have h2 : (b.toNat % 16 * 4 + c.toNat / 64) % 4 * 64 + c.toNat % 64 = c.toNat := by omega
  rw [base64Group_char x y z w hx hy hz hw (by omega) (by omega) (by omega) (by omega),h0,h1,h2,
    UInt8.ofNat_toNat,UInt8.ofNat_toNat,UInt8.ofNat_toNat]

/-! ### The output of the encoder -/

/-- The zeros that the padding is decoded to. -/
def base64Padding (s : List UInt8) : List UInt8 := List.replicate ((3 - s.length % 3) % 3) 0

theorem base64Char_first (a : UInt8) : base64At ((charInt a >>> 2) &&& 0x3F) = base64Char (a.toNat / 4) := by
  rw [(charInt_eq a).1,base64Char]

theorem base64Char_second (a b : UInt8) :
    base64At (((charInt a <<< 4) &&& (0x30 : Int32)) + ((charInt b >>> 4) &&& (0xF : Int32))) =
      base64Char (a.toNat % 4 * 16 + b.toNat / 16) := by
  rw [(charInt_eq a).2.1,(charInt_eq b).2.2.1,← Int32.ofNat_add,base64Char]

theorem base64Char_third (b c : UInt8) :
    base64At (((charInt b <<< 2) &&& (0x3C : Int32)) + ((charInt c >>> 6) &&& (0x3 : Int32))) =
      base64Char (b.toNat % 16 * 4 + c.toNat / 64) := by
  rw [(charInt_eq b).2.2.2.1,(charInt_eq c).2.2.2.2.1,← Int32.ofNat_add,base64Char]

theorem base64Char_fourth (c : UInt8) : base64At (charInt c &&& 0x3F) = base64Char (c.toNat % 64) := by
  rw [(charInt_eq c).2.2.2.2.2,base64Char]

theorem httpBase64Decode_zero (src : List UInt8) : httpBase64Decode src 0 = some [] := by
  rw [httpBase64Decode]

/-- The encoding is decoded to the string and the zeros of its padding, whatever follows it. -/
theorem httpBase64Decode_encode (s rest : List UInt8) :
    httpBase64Decode (httpBase64Encode s ++ rest) (httpBase64Encode s).length =
      some (s ++ base64Padding s) := by
  induction s using httpBase64Encode.induct with
  | case1 => exact httpBase64Decode_zero _
  | case2 a =>
    have ha := a.toNat_lt
    have hsecond : base64At ((charInt a <<< 4) &&& 0x30) = base64Char (a.toNat % 4 * 16 + (0 : UInt8).toNat / 16) := by
      rw [(charInt_eq a).2.1,base64Char]
      rfl
    have hgroup := base64Group_bytes a 0 0 (x := base64Char (a.toNat / 4))
      (y := base64Char (a.toNat % 4 * 16 + (0 : UInt8).toNat / 16)) (z := 61) (w := 61)
      (base64DecodeMap_char _ (by omega)) (base64DecodeMap_char _ (by simp; omega)) rfl rfl
    rw [httpBase64Encode,base64Char_first,hsecond]
    simp only [List.cons_append,List.nil_append,List.length_cons,List.length_nil]
    rw [httpBase64Decode,hgroup,httpBase64Decode_zero]
    rfl
  | case3 a b =>
    have ha := a.toNat_lt
    have hb := b.toNat_lt
    have hthird : base64At ((charInt b <<< 2) &&& 0x3C) = base64Char (b.toNat % 16 * 4 + (0 : UInt8).toNat / 64) := by
      rw [(charInt_eq b).2.2.2.1,base64Char]
      rfl
    have hgroup := base64Group_bytes a b 0 (x := base64Char (a.toNat / 4))
      (y := base64Char (a.toNat % 4 * 16 + b.toNat / 16))
      (z := base64Char (b.toNat % 16 * 4 + (0 : UInt8).toNat / 64)) (w := 61)
      (base64DecodeMap_char _ (by omega)) (base64DecodeMap_char _ (by omega))
      (base64DecodeMap_char _ (by simp; omega)) rfl
    rw [httpBase64Encode,base64Char_first,base64Char_second,hthird]
    simp only [List.cons_append,List.nil_append,List.length_cons,List.length_nil]
    rw [httpBase64Decode,hgroup,httpBase64Decode_zero]
    rfl
  | case4 a b c src ih =>
    have ha := a.toNat_lt
    have hb := b.toNat_lt
    have hc := c.toNat_lt
    have hgroup := base64Group_bytes a b c (x := base64Char (a.toNat / 4))
      (y := base64Char (a.toNat % 4 * 16 + b.toNat / 16))
      (z := base64Char (b.toNat % 16 * 4 + c.toNat / 64)) (w := base64Char (c.toNat % 64))
      (base64DecodeMap_char _ (by omega)) (base64DecodeMap_char _ (by omega))
      (base64DecodeMap_char _ (by omega)) (base64DecodeMap_char _ (by omega))
    have hpadding : base64Padding (a::b::c::src) = base64Padding src := by
      unfold base64Padding
      congr 1
      simp only [List.length_cons]
      omega
    rw [httpBase64Encode,base64Char_first,base64Char_second,base64Char_third,base64Char_fourth,hpadding]
    simp only [List.cons_append,List.length_cons,httpBase64Decode]
    rw [show (httpBase64Encode src).length + 1 + 1 + 1 - 3 = (httpBase64Encode src).length by omega,ih,
      hgroup]
    rfl

theorem base64Padding_length (s : List UInt8) : (base64Padding s).length = (3 - s.length % 3) % 3 :=
  List.length_replicate

/-- The length of the output. -/
theorem httpBase64Encode_length (s : List UInt8) :
    (httpBase64Encode s).length = 4 * ((s.length + 2) / 3) := by
  induction s using httpBase64Encode.induct with
  | case1 => rfl
  | case2 a => simp [httpBase64Encode]
  | case3 a b => simp [httpBase64Encode]
  | case4 a b c src ih =>
    rw [httpBase64Encode]
    simp only [List.length_cons,ih]
    omega

theorem base64Char_plain (n : ℕ) (hn : n < 64) :
    base64Char n ≠ 13 ∧ base64Char n ≠ 10 ∧ base64Char n ≠ 0 ∧ base64Char n ≠ 32 :=
  (base64Char_checked n hn).2

/-- No character of the output ends a line or a word. -/
theorem httpBase64Encode_plain (s : List UInt8) :
    ∀ c ∈ httpBase64Encode s, c ≠ 13 ∧ c ≠ 10 ∧ c ≠ 0 ∧ c ≠ 32 := by
  have hpad : (61 : UInt8) ≠ 13 ∧ (61 : UInt8) ≠ 10 ∧ (61 : UInt8) ≠ 0 ∧ (61 : UInt8) ≠ 32 := by decide
  induction s using httpBase64Encode.induct with
  | case1 => simp [httpBase64Encode]
  | case2 a =>
    have ha := a.toNat_lt
    rw [httpBase64Encode,base64Char_first]
    simp only [List.forall_mem_cons,List.not_mem_nil,false_imp_iff,implies_true,and_true]
    refine ⟨base64Char_plain _ (by omega),?_,hpad,hpad⟩
    rw [(charInt_eq a).2.1]
    exact base64Char_plain _ (by omega)
  | case3 a b =>
    have ha := a.toNat_lt
    have hb := b.toNat_lt
    rw [httpBase64Encode,base64Char_first,base64Char_second,(charInt_eq b).2.2.2.1]
    simp only [List.forall_mem_cons,List.not_mem_nil,false_imp_iff,implies_true,and_true]
    exact ⟨base64Char_plain _ (by omega),base64Char_plain _ (by omega),base64Char_plain _ (by omega),hpad⟩
  | case4 a b c src ih =>
    have ha := a.toNat_lt
    have hb := b.toNat_lt
    have hc := c.toNat_lt
    rw [httpBase64Encode,base64Char_first,base64Char_second,base64Char_third,base64Char_fourth]
    simp only [List.forall_mem_cons]
    exact ⟨base64Char_plain _ (by omega),base64Char_plain _ (by omega),base64Char_plain _ (by omega),
      base64Char_plain _ (by omega),ih⟩

/-- The string comes back with its length. -/
def Base64RoundTrip (s : List UInt8) : Prop :=
  httpBase64Decode (httpBase64Encode s) (httpBase64Encode s).length = some s

theorem base64RoundTrip_iff (s : List UInt8) : Base64RoundTrip s ↔ s.length % 3 = 0 := by
  have hdecode := httpBase64Decode_encode s []
  rw [List.append_nil] at hdecode
  rw [Base64RoundTrip,hdecode,Option.some_inj]
  constructor
  · intro h
    have hlen := congrArg List.length h
    rw [List.length_append,base64Padding_length] at hlen
    omega
  · intro h
    have hnil : base64Padding s = [] := by
      rw [← List.length_eq_zero_iff,base64Padding_length]
      omega
    rw [hnil,List.append_nil]

/-! ### Basic authorizations -/

/-- The header with the credentials of a user. -/
def basicHeader (user password : List UInt8) : HeaderField where
  h := 7
  name := ascii "Authorization"
  spaced := true
  value := ascii "Basic " ++ httpBase64Encode (user ++ 58::password)
  h_lt := by decide
  name_eq := by decide +kernel
  value_plain := by
    have hscheme : ∀ c ∈ ascii "Basic ", c ≠ 13 ∧ c ≠ 10 ∧ c ≠ 0 := by decide +kernel
    intro c hc
    rcases List.mem_append.1 hc with hc | hc
    · exact hscheme c hc
    · obtain ⟨h13,h10,h0,-⟩ := httpBase64Encode_plain _ c hc
      exact ⟨h13,h10,h0⟩
  value_start := by
    have hscheme : ascii "Basic " = 66::ascii "asic " := by decide +kernel
    rw [hscheme,List.cons_append,List.head?_cons]
    decide

theorem ascii_basic : ascii "Basic" = [66,97,115,105,99] := by simp [ascii]

theorem ascii_basic_blank : ascii "Basic " = [66,97,115,105,99,32] := by simp [ascii]

/-- Where the parser finds the credentials behind their scheme. -/
theorem basic_text (s w : List UInt8) :
    ((ascii "Basic " ++ (httpBase64Encode s ++ 13::w)).takeWhile fun c => c ≠ 32 ∧ c ≠ 13) = ascii "Basic" ∧
      ((ascii "Basic " ++ (httpBase64Encode s ++ 13::w)).dropWhile fun c => c ≠ 32 ∧ c ≠ 13) =
        32::(httpBase64Encode s ++ 13::w) ∧
      (32::(httpBase64Encode s ++ 13::w)).takeWhile (· = 32) = [32] ∧
      (32::(httpBase64Encode s ++ 13::w)).dropWhile (· = 32) = httpBase64Encode s ++ 13::w := by
  have hscheme : ascii "Basic " = ascii "Basic" ++ [32] := by
    rw [ascii_basic,ascii_basic_blank]
    rfl
  have hplain : ∀ c ∈ ascii "Basic", decide (c ≠ 32 ∧ c ≠ 13) = true := by
    rw [ascii_basic]
    simp
  have hstop := takeWhile_stop (w := httpBase64Encode s ++ 13::w) hplain
    (show decide ((32 : UInt8) ≠ 32 ∧ (32 : UInt8) ≠ 13) = false by decide)
  have hspace : ∀ c ∈ [(32 : UInt8)], decide (c = 32) = true := by simp
  have hnext : ∃ c v, httpBase64Encode s ++ 13::w = c::v ∧ c ≠ 32 := by
    cases hs : httpBase64Encode s with
    | nil => exact ⟨13,w,rfl,by decide⟩
    | cons c v => exact ⟨c,v ++ 13::w,rfl,(httpBase64Encode_plain s c (by simp [hs])).2.2.2⟩
  obtain ⟨c,v,hcv,hc⟩ := hnext
  have hspaces := takeWhile_stop (w := v) hspace (decide_eq_false hc)
  rw [hscheme,List.append_assoc,hcv]
  rw [hcv] at hstop
  exact ⟨hstop.1,hstop.2,hspaces.1,hspaces.2⟩

theorem basic_length : (ascii "Basic").length = 5 := congrArg List.length ascii_basic

/-- The characters of the credentials are those of the encoding. -/
theorem credentials_encode (s w : List UInt8) :
    ((httpBase64Encode s ++ 13::w).takeWhile fun c => c ≠ 13 ∧ c ≠ 32) = httpBase64Encode s ∧
      ((httpBase64Encode s ++ 13::w).dropWhile fun c => c ≠ 13 ∧ c ≠ 32) = 13::w := by
  refine takeWhile_stop (fun c hc => ?_) (by decide)
  obtain ⟨h13,-,-,h32⟩ := httpBase64Encode_plain s c hc
  exact decide_eq_true ⟨h13,h32⟩

/-- The room that the decoded credentials need. -/
theorem basicFits_encode (s w : List UInt8) (pp : ℕ) :
    BasicFits (ascii "Basic " ++ (httpBase64Encode s ++ 13::w)) pp ↔
      pp + 6 + (s ++ base64Padding s).length < HTTP_HEADER_MAX := by
  obtain ⟨-,hdrop,-,hskip⟩ := basic_text s w
  have hchars : credentialChars (httpBase64Encode s ++ 13::w) = (httpBase64Encode s).length := by
    rw [credentialChars,(credentials_encode s w).1]
  have hgroups : base64Groups (httpBase64Encode s).length = (s.length + 2) / 3 := by
    rw [base64Groups,httpBase64Encode_length]
    omega
  have hsix : (ascii "Basic ").length = 6 := congrArg List.length ascii_basic_blank
  have hlen := httpBase64Encode_length s
  unfold BasicFits CredentialsFit
  rw [hdrop,skipSpaces,hskip]
  dsimp only
  rw [hchars,hgroups]
  simp only [List.length_append,List.length_cons,hsix,base64Padding_length]
  omega

/-- What the parser makes of the credentials. -/
theorem httpBasic_encode {last : UInt8} {st st' : HttpParse} {s w : List UInt8}
    (hs : st.s = ascii "Basic " ++ (httpBase64Encode s ++ 13::w)) (h : httpBasic last st = .ok st') :
    st'.s = 13::w ∧ st'.req.auth = httpAuth st.req.auth (st.pp + 6) (s ++ base64Padding s) := by
  obtain ⟨htake,hdrop,hspaces,hskip⟩ := basic_text s w
  obtain ⟨st1,h1,hrest⟩ := bind_ok_iff.1 h
  obtain ⟨st2,h2,hcred⟩ := bind_ok_iff.1 hrest
  obtain ⟨-,hst1⟩ := copyWhile_ok h1
  obtain ⟨-,hst2⟩ := copyWhile_ok h2
  obtain ⟨text,htext,-,rfl⟩ := httpCredentials_ok hcred
  have hs1 : st1.s = 32::(httpBase64Encode s ++ 13::w) ∧ st1.pp = st.pp + 5 ∧ st1.req.auth = st.req.auth := by
    rw [hst1,HttpParse.copied,hs,htake,hdrop,basic_length]
    exact ⟨rfl,rfl,rfl⟩
  have hs2 : st2.s = httpBase64Encode s ++ 13::w ∧ st2.pp = st.pp + 6 ∧ st2.req.auth = st.req.auth := by
    rw [hst2,HttpParse.copied,hs1.1,hspaces,hskip,hs1.2.1]
    exact ⟨rfl,rfl,hs1.2.2⟩
  have hdecode := httpBase64Decode_encode s (13::w ++ [last])
  rw [hs2.1,← takeWhile_length,(credentials_encode s w).1,List.append_assoc,hdecode,Option.some_inj] at htext
  dsimp only
  rw [hs2.1,hs2.2.1,hs2.2.2,(credentials_encode s w).2,htext]
  exact ⟨rfl,rfl⟩

/-- The lengths of a user and a password, where the first `:` is the one between them. -/
theorem httpAuth_lengths {user password : List UInt8} (hcolon : 58 ∉ user) (auth : HttpKV) (pp : ℕ)
    (padding : List UInt8) (hsmall : (user ++ 58::password ++ padding).length < 65536) :
    (httpAuth auth pp (user ++ 58::password ++ padding)).nk = user.length ∧
      (httpAuth auth pp (user ++ 58::password ++ padding)).nv = password.length + padding.length := by
  have htake : ((user ++ 58::password ++ padding).takeWhile (· ≠ 58)).length = user.length := by
    rw [List.append_assoc,List.cons_append]
    refine congrArg List.length (takeWhile_stop (fun c hc => ?_) (by decide)).1
    refine decide_eq_true ?_
    rintro rfl
    exact hcolon hc
  simp only [List.length_append,List.length_cons] at hsmall
  have hmore : user.length < (user ++ 58::password ++ padding).length := by
    simp only [List.length_append,List.length_cons]
    omega
  have hrest : (user ++ 58::password ++ padding).length - (user.length + 1) =
      password.length + padding.length := by
    simp only [List.length_append,List.length_cons]
    omega
  unfold httpAuth
  rw [htake,if_pos hmore,hrest]
  exact ⟨ushort_of_lt (by omega),ushort_of_lt (by omega)⟩

/-- The record tells how long the user and the password are. -/
def AuthLengths (r : Except HttpFault (HttpReq × ℤ)) (user password : List UInt8) : Prop :=
  ∃ req ret, r = .ok (req,ret) ∧ req.auth.nk = user.length ∧ req.auth.nv = password.length

/-- The line of the header, read from its start. -/
theorem httpHeaderLine_basic (last : UInt8) {st : HttpParse} (user password : List UInt8)
    (hs : st.s = fieldsText [basicHeader user password]) :
    httpHeaderLine httpHeadersMapInit last st =
      httpBasic last { st.setHeader HEAD_REQ_AUTHORIZATION with
        s := ascii "Basic " ++ (httpBase64Encode (user ++ 58::password) ++ [13,10]) } >>= httpEndLine := by
  have hhead : Head ((basicHeader user password).name ++ [58]) := by
    change Head (ascii "Authorization" ++ [58])
    exact ⟨by decide +kernel,by decide +kernel,by decide +kernel⟩
  have hindex : mtrieGet httpHeadersMapInit (((basicHeader user password).name ++ [58]).map lower) - 1 =
      HEAD_REQ_AUTHORIZATION := by
    rw [List.map_append,show List.map lower [58] = [58] from rfl,(basicHeader user password).name_eq,
      mtrieGet_headerKey (basicHeader user password).h_lt]
    rfl
  have hvalue : ∀ w, skipSpaces ((basicHeader user password).value ++ w) =
      (basicHeader user password).value ++ w := by
    intro w
    change skipSpaces (ascii "Basic " ++ _ ++ w) = ascii "Basic " ++ _ ++ w
    rw [ascii_basic_blank]
    exact List.dropWhile_cons_of_neg (by decide)
  have hbasic : HeaderField.IsBasic (basicHeader user password).value := by
    change ((ascii "Basic " ++ _).take 5).map lower = (ascii "Basic").map lower
    rw [ascii_basic,ascii_basic_blank]
    rfl
  rw [fieldsText,HeaderField.text_spaced _ rfl] at hs
  rw [hhead.line last hs,hindex,hvalue]
  have hline := httpValue_basic last { st.setHeader HEAD_REQ_AUTHORIZATION with
    s := (basicHeader user password).value ++ 13::10::fieldsText [] } rfl hbasic
  rw [hline,show (basicHeader user password).value =
    ascii "Basic " ++ httpBase64Encode (user ++ 58::password) from rfl,List.append_assoc]
  rfl

/-- The string comes back exactly when it fills its groups of three bytes; and the header of a user and a
password gives their lengths exactly when their text does, and fits behind the method. -/
theorem http_base64_round_trip_iff (s : List UInt8) (l : RequestLine) (user password : List UInt8)
    (last : UInt8) (hcolon : 58 ∉ user) (hmethod : l.method.length < HTTP_HEADER_MAX)
    (hpath : (decodePath l.path).length < HTTP_URL_PATH_MAX) :
    (Base64RoundTrip s ↔ s.length % 3 = 0) ∧
      (AuthLengths (httpRequestParse httpHeadersMapInit
          (l.text (fieldsText [basicHeader user password])) last .zero) user password ↔
        (user.length + 1 + password.length) % 3 = 0 ∧
          1 + l.method.length + 6 + (user.length + 1 + password.length) < HTTP_HEADER_MAX) := by
  refine ⟨base64RoundTrip_iff s,?_⟩
  have hmax : HTTP_HEADER_MAX < 65536 := by decide
  obtain ⟨st,hline,hread⟩ := l.httpRequestLine_text (fieldsText [basicHeader user password]) last hmethod hpath
  have hne : st.s ≠ [] := by
    rw [hread.rest,fieldsText,HeaderField.text]
    simp
  have hpp : st.pp = 1 + l.method.length := hread.pp
  obtain ⟨-,hset,-⟩ := st.setHeader_eq HEAD_REQ_AUTHORIZATION
  let st1 : HttpParse := { st.setHeader HEAD_REQ_AUTHORIZATION with
    s := ascii "Basic " ++ (httpBase64Encode (user ++ 58::password) ++ [13,10]) }
  have hpp1 : st1.pp = 1 + l.method.length := hset.trans hpp
  have hfits : BasicFits st1.s st1.pp ↔ st1.pp + 6 + _ < HTTP_HEADER_MAX :=
    basicFits_encode (user ++ 58::password) [10] st1.pp
  have hin := httpBasic_inBounds last st1
  have hpadding := base64Padding_length (user ++ 58::password)
  have hlen : (user ++ 58::password).length = user.length + 1 + password.length := by simp; omega
  rw [hlen] at hpadding
  rw [List.length_append,hlen,hpadding,hpp1] at hfits
  rw [hpp1] at hin
  unfold httpRequestParse
  rw [hline]
  dsimp only [bind,Except.bind]
  rw [httpHeaderLoop_cons hne,httpHeaderLine_basic last user password hread.rest]
  change AuthLengths (((httpBasic last st1 >>= httpEndLine) >>= httpHeaderLoop httpHeadersMapInit last) >>=
    fun st => .ok (st.req,st.ret + 1)) user password ↔ _
  have hread : ∀ st3, (httpBasic last st1 >>= httpEndLine) = .ok st3 →
      st3.s = [] ∧ st3.req.auth.nk = user.length ∧
        st3.req.auth.nv = password.length + (3 - (user.length + 1 + password.length) % 3) % 3 := by
    intro st3 hbasic
    have hroom := hfits.1 (hin.1 (by rw [hbasic]; exact inBounds_ok st3))
    obtain ⟨st2,h2,hend⟩ := bind_ok_iff.1 hbasic
    obtain ⟨hs2,hauth⟩ := httpBasic_encode (s := user ++ 58::password) (w := [10]) rfl h2
    unfold httpEndLine at hend
    split_ifs at hend
    cases hend
    have hlengths := httpAuth_lengths hcolon st1.req.auth (st1.pp + 6)
      (base64Padding (user ++ 58::password)) (by rw [List.length_append,hlen,hpadding]; omega)
    rw [hpadding,← hauth] at hlengths
    refine ⟨?_,hlengths⟩
    dsimp only
    rw [hs2]
    rfl
  constructor
  · rintro ⟨req,ret,hok,hnk,hnv⟩
    obtain ⟨st4,hloop,hok⟩ := bind_ok_iff.1 hok
    obtain ⟨st3,hbasic,hloop⟩ := bind_ok_iff.1 hloop
    have hroom := hfits.1 (hin.1 (by rw [hbasic]; exact inBounds_ok st3))
    obtain ⟨hs3,-,hnv3⟩ := hread st3 hbasic
    rw [httpHeaderLoop_nil hs3] at hloop
    cases hloop
    cases hok
    rw [hnv3] at hnv
    omega
  · rintro ⟨hthree,hroom⟩
    obtain ⟨st3,hbasic⟩ := hin.2 (hfits.2 (by omega))
    obtain ⟨hs3,hnk,hnv⟩ := hread st3 hbasic
    rw [hthree] at hnv
    refine ⟨st3.req,st3.ret + 1,?_,hnk,hnv⟩
    rw [hbasic]
    change (httpHeaderLoop httpHeadersMapInit last st3 >>= _) = _
    rw [httpHeaderLoop_nil hs3]
    rfl

/-- The string `abc`, and the user `ab` with the password `cde`. -/
theorem http_base64_round_trip_three : Base64RoundTrip [97,98,99] ∧
    AuthLengths (httpRequestParse httpHeadersMapInit
      (getLine.text (fieldsText [basicHeader [97,98] [99,100,101]])) 0 .zero) [97,98] [99,100,101] := by
  obtain ⟨hround,hauth⟩ := http_base64_round_trip_iff [97,98,99] getLine [97,98] [99,100,101] 0 (by decide)
    (by decide) (by decide +kernel)
  exact ⟨hround.2 rfl,hauth.2 (by decide)⟩

/-- A single byte comes back as three. -/
theorem http_base64_round_trip_one : ¬ Base64RoundTrip [97] := by
  rw [base64RoundTrip_iff]
  decide

end Sbase
