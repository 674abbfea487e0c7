import Sbase.Http.Request

/-! `http_chunked_parse` and the round trip of chunked bodies.

A position is an offset from `data`; it may lie past the end, where nothing is read. -/
namespace Sbase

def HTTP_CHUNKED_MAX : ℕ := 256

structure HttpK where
  off : ℤ
  len : ℤ
deriving DecidableEq, Repr

structure HttpChunk where
  chunks : ℕ → HttpK
  nchunks : ℤ

/-- The value of an `int` after an operation on it. -/
def int32 (z : ℤ) : ℤ := z.bmod (2^32)

theorem int32_of_bounds {z : ℤ} (hlo : -2^31 ≤ z) (hhi : z < 2^31) : int32 z = z :=
  Int.bmod_eq_of_le (by omega) (by omega)

/-- The hexadecimal digits. -/
def hexDigit (s : UInt8) : Option ℤ :=
  if 65 ≤ s ∧ s ≤ 70 then some (10 + (s.toNat - 65))
  else if 97 ≤ s ∧ s ≤ 102 then some (10 + (s.toNat - 97))
  else if 48 ≤ s ∧ s ≤ 57 then some (s.toNat - 48)
  else none

/-- The loop of `http_hextodec`, from the last digit to the first. -/
def httpHextodecLoop : List UInt8 → ℤ → ℤ → ℤ
  | [], n, _ => n
  | s::hex, n, x =>
    let n := match hexDigit s with
      | some v => int32 (n + v*x)
      | none => n
    httpHextodecLoop hex n (int32 (x*16))

/-- `http_hextodec`: characters that are no digits count as zeros. -/
def httpHextodec (hex : List UInt8) : ℤ := httpHextodecLoop hex.reverse 0 1

def notLineEnd (s : UInt8) : Bool := s != 13 && s != 10

/-- `while (p < end && f(*p)) ++p`; below the buffer there is nothing to read. -/
def scan (f : UInt8 → Bool) (data : List UInt8) (p : ℤ) : Option ℤ :=
  if p < 0 then none else some (p + ((data.drop p.toNat).takeWhile f).length)

/-- The byte at a position, if it lies in the buffer. -/
def byteAt (data : List UInt8) (p : ℤ) : Option UInt8 := if p < 0 then none else data[p.toNat]?

/-- The loop of `http_chunked_parse` with `slots` records left in the array; `none` where it
would write past the array or read below the buffer. -/
def httpChunkedLoop (data : List UInt8) :
    ℕ → ℕ → ℤ → (ℕ → HttpK) → Option (ℤ × (ℕ → HttpK) × ℕ)
  | slots, k, p, chunks =>
    if p < data.length then
      (scan isAlnum data p).bind fun p1 =>
        let n := httpHextodec ((data.drop p.toNat).take (p1-p).toNat)
        (scan notLineEnd data p1).bind fun p2 =>
          let p3 := p2+2
          if n = 0 then
            (scan notLineEnd data p3).bind fun p4 =>
              if byteAt data p4 = some 13 ∧ byteAt data (p4+1) = some 10 then
                some (p4+2, chunks, k)
              else some (-1, chunks, k)
          else
            match slots with
            | 0 => none
            | slots+1 =>
              httpChunkedLoop data slots (k+1) (p3+n+2) (Function.update chunks k ⟨p3, n⟩)
    else some (-1, chunks, k)

/-- `http_chunked_parse` on a buffer of `ndata` bytes: the chunk table and the return value. -/
def httpChunkedParse (chunk : HttpChunk) (data : List UInt8) : Option (HttpChunk × ℤ) :=
  if data = [] then some (chunk, -1)
  else
    (httpChunkedLoop data HTTP_CHUNKED_MAX 0 0 chunk.chunks).map fun r => (⟨r.2.1, r.2.2⟩, r.1)

/-! ### The encoding -/

/-- The number that digits denote. -/
def hexNumber (hex : List UInt8) : ℤ :=
  hex.foldl (fun n s => (hexDigit s).getD 0 + 16*n) 0

/-- A chunk as it is written: its size in up to seven digits, and its data. -/
structure ChunkText where
  size : List UInt8
  data : List UInt8
  size_hex : ∀ s ∈ size, (hexDigit s).isSome
  size_length : size.length ≤ 7
  size_eq : hexNumber size = data.length
  data_ne : data ≠ []

def ChunkText.encode (c : ChunkText) : List UInt8 := c.size ++ [13,10] ++ c.data ++ [13,10]

/-- The terminator of a chunked body: a size of zero and an empty line. -/
def lastChunk : List UInt8 := [48,13,10,13,10]

def encodeChunked (cs : List ChunkText) : List UInt8 :=
  (cs.map ChunkText.encode).flatten ++ lastChunk

/-- Where the data of each chunk lies in the encoding that starts at `off`. -/
def dataSpans : List ChunkText → ℤ → List HttpK
  | [], _ => []
  | c::cs, off => ⟨off + c.size.length + 2, c.data.length⟩ :: dataSpans cs (off + c.encode.length)

theorem dataSpans_length (cs : List ChunkText) (off : ℤ) : (dataSpans cs off).length = cs.length := by
  induction cs generalizing off with
  | nil => rfl
  | cons c cs ih => simp [dataSpans, ih]

/-! ### Numbers -/

theorem hexDigit_bounds {s : UInt8} {v : ℤ} (h : hexDigit s = some v) : 0 ≤ v ∧ v < 16 := by
  unfold hexDigit at h
  split_ifs at h with h1 h2 h3
  all_goals
    obtain rfl := Option.some.inj h
    simp only [UInt8.le_iff_toNat_le, UInt8.reduceToNat] at *
    omega

theorem isAlnum_of_hexDigit {s : UInt8} (h : (hexDigit s).isSome) : isAlnum s = true := by
  unfold hexDigit at h
  simp only [isAlnum, Bool.or_eq_true, Bool.and_eq_true, decide_eq_true_eq]
  simp only [UInt8.le_iff_toNat_le, UInt8.reduceToNat] at *
  split_ifs at h with h1 h2 h3
  · omega
  · omega
  · omega
  · cases h

/-- The digits weighted from the last to the first. -/
theorem httpHextodecLoop_eq (hex : List UInt8) {n x : ℤ} (hhex : ∀ s ∈ hex, (hexDigit s).isSome)
    (hn : 0 ≤ n) (hnx : n < x) (hx : x * 16^hex.length ≤ 2^28) :
    httpHextodecLoop hex n x
        = n + x * hex.foldr (fun s m => (hexDigit s).getD 0 + 16*m) 0 := by
  induction hex generalizing n x with
  | nil => simp [httpHextodecLoop]
  | cons s hex ih =>
    obtain ⟨v, hv⟩ := Option.isSome_iff_exists.mp (hhex s (by simp))
    obtain ⟨hv0, hv16⟩ := hexDigit_bounds hv
    have hpow : (1 : ℤ) ≤ 16^hex.length := one_le_pow₀ (by norm_num)
    have hx' : x*16 * 16^hex.length ≤ 2^28 := by
      rw [List.length_cons, pow_succ] at hx
      linarith
    have hx16 : x*16 ≤ 2^28 := by nlinarith
    have hvx : v*x ≤ 15*x := by nlinarith
    have hvx0 : 0 ≤ v*x := by nlinarith
    have hn' : int32 (n + v*x) = n + v*x := int32_of_bounds (by omega) (by omega)
    rw [httpHextodecLoop, hv]
    simp only [hn', int32_of_bounds (show -2^31 ≤ x*16 by omega) (by omega)]
    rw [ih (fun s hs => hhex s (by simp [hs])) (by omega) (by omega) hx']
    simp only [List.foldr_cons, hv, Option.getD_some]
    ring

theorem httpHextodec_eq {hex : List UInt8} (hhex : ∀ s ∈ hex, (hexDigit s).isSome)
    (hlen : hex.length ≤ 7) : httpHextodec hex = hexNumber hex := by
  unfold httpHextodec hexNumber
  have hpow : (16 : ℤ)^hex.length ≤ 2^28 := by
    calc (16 : ℤ)^hex.length ≤ 16^7 := pow_le_pow_right₀ (by norm_num) hlen
      _ = 2^28 := by norm_num
  rw [httpHextodecLoop_eq hex.reverse (by simpa using hhex) le_rfl one_pos
    (by simpa using hpow), List.foldr_reverse]
  ring

theorem hexNumber_nonneg {hex : List UInt8} (hhex : ∀ s ∈ hex, (hexDigit s).isSome) :
    0 ≤ hexNumber hex := by
  have hfold : ∀ (l : List UInt8) (n : ℤ), (∀ s ∈ l, (hexDigit s).isSome) → 0 ≤ n →
      0 ≤ l.foldl (fun n s => (hexDigit s).getD 0 + 16*n) n := by
    intro l
    induction l with
    | nil => exact fun n _ hn => hn
    | cons s l ih =>
      intro n hl hn
      obtain ⟨v, hv⟩ := Option.isSome_iff_exists.mp (hl s (by simp))
      have := (hexDigit_bounds hv).1
      apply ih _ fun s hs => hl s (by simp [hs])
      simp only [hv, Option.getD_some]
      omega
  exact hfold hex 0 hhex le_rfl

/-! ### One chunk -/

/-- Scanning some way into the part of the buffer behind `pre`. -/
theorem scan_append (f : UInt8 → Bool) (pre xs : List UInt8) (a : ℕ) :
    scan f (pre ++ xs) (pre.length + a) =
      some ((pre.length : ℤ) + a + (((xs.drop a).takeWhile f).length : ℤ)) := by
  unfold scan
  rw [if_neg (by omega), show ((pre.length : ℤ) + a).toNat = pre.length + a by omega,
    ← List.drop_drop, List.drop_left]

theorem scan_start (f : UInt8 → Bool) (pre xs : List UInt8) :
    scan f (pre ++ xs) pre.length = some ((pre.length : ℤ) + ((xs.takeWhile f).length : ℤ)) := by
  have := scan_append f pre xs 0
  simpa using this

theorem takeWhile_length_append {f : UInt8 → Bool} {xs ys : List UInt8} (h : ∀ x ∈ xs, f x = true)
    (hy : (ys.takeWhile f) = []) : ((xs ++ ys).takeWhile f).length = xs.length := by
  rw [List.takeWhile_append_of_pos h, hy, List.append_nil]

/-- Past the end of the buffer the loop is over. -/
theorem httpChunkedLoop_end {data : List UInt8} {p : ℤ} (hp : data.length ≤ p) (slots k : ℕ)
    (chunks : ℕ → HttpK) : httpChunkedLoop data slots k p chunks = some (-1, chunks, k) := by
  unfold httpChunkedLoop
  rw [if_neg (by omega)]

/-- What one round of the loop does with the size `size`, whether or not all of it is there. -/
theorem httpChunkedLoop_size (pre size tail : List UInt8) (hhex : ∀ s ∈ size, (hexDigit s).isSome)
    (hlen : size.length ≤ 7) (htail : tail.takeWhile isAlnum = [])
    (hend : tail.takeWhile notLineEnd = []) (hne : size ++ tail ≠ []) (slots k : ℕ)
    (chunks : ℕ → HttpK) :
    httpChunkedLoop (pre ++ (size ++ tail)) slots k pre.length chunks =
      let p3 : ℤ := pre.length + size.length + 2
      if hexNumber size = 0 then
        (scan notLineEnd (pre ++ (size ++ tail)) p3).bind fun p4 =>
          if byteAt (pre ++ (size ++ tail)) p4 = some 13 ∧
              byteAt (pre ++ (size ++ tail)) (p4+1) = some 10 then some (p4+2, chunks, k)
          else some (-1, chunks, k)
      else
        match slots with
        | 0 => none
        | slots+1 => httpChunkedLoop (pre ++ (size ++ tail)) slots (k+1) (p3 + hexNumber size + 2)
          (Function.update chunks k ⟨p3, hexNumber size⟩) := by
  have hpos : 0 < (size ++ tail).length := List.length_pos_iff.mpr hne
  have h1 : ((size ++ tail).takeWhile isAlnum).length = size.length :=
    takeWhile_length_append (fun s hs => isAlnum_of_hexDigit (hhex s hs)) htail
  have h2 := scan_append notLineEnd pre (size ++ tail) size.length
  rw [List.drop_left, hend, List.length_nil, Nat.cast_zero, add_zero] at h2
  rw [httpChunkedLoop, if_pos (by simp only [List.length_append] at *; omega), scan_start, h1,
    Option.bind_some, h2]
  have hslice : ((pre ++ (size ++ tail)).drop (pre.length : ℤ).toNat).take
      ((pre.length : ℤ) + size.length - pre.length).toNat = size := by
    rw [Int.toNat_natCast, List.drop_left, show ((pre.length : ℤ) + size.length - pre.length).toNat
      = size.length by omega, List.take_left]
  simp only [hslice, httpHextodec_eq hhex hlen, Option.bind_some]

theorem ChunkText.hexNumber_ne {c : ChunkText} : hexNumber c.size ≠ 0 := by
  have := List.length_pos_iff.mpr c.data_ne
  rw [c.size_eq]
  omega

theorem ChunkText.encode_length (c : ChunkText) :
    (c.encode.length : ℤ) = c.size.length + 2 + c.data.length + 2 := by
  simp only [encode, List.length_append, List.length_cons, List.length_nil]
  omega

/-- The step lemma: a whole chunk is recorded and passed over. -/
theorem httpChunkedLoop_chunk (pre rest : List UInt8) (c : ChunkText) (slots k : ℕ)
    (chunks : ℕ → HttpK) :
    httpChunkedLoop (pre ++ (c.encode ++ rest)) (slots+1) k pre.length chunks =
      httpChunkedLoop (pre ++ (c.encode ++ rest)) slots (k+1) ((pre ++ c.encode).length : ℕ)
        (Function.update chunks k ⟨pre.length + c.size.length + 2, c.data.length⟩) := by
  have hsplit : c.encode ++ rest = c.size ++ ([13,10] ++ c.data ++ [13,10] ++ rest) := by
    simp [ChunkText.encode]
  have hl := c.encode_length
  rw [hsplit, httpChunkedLoop_size pre c.size _ c.size_hex c.size_length rfl rfl (by simp)]
  dsimp only
  rw [if_neg c.hexNumber_ne, c.size_eq, List.length_append, Nat.cast_add, hl]
  congr 1
  ring

/-- A chunk that is cut off ends the loop without a result. -/
theorem httpChunkedLoop_cut (pre : List UInt8) (c : ChunkText) {m : ℕ} (hm : m < c.encode.length)
    (slots k : ℕ) (chunks : ℕ → HttpK) :
    ∃ chunks' k', httpChunkedLoop (pre ++ c.encode.take m) (slots+1) k pre.length chunks =
      some (-1, chunks', k') := by
  have hl := c.encode_length
  by_cases hm0 : m = 0
  · subst hm0
    exact ⟨_, _, httpChunkedLoop_end (by simp) _ _ _⟩
  by_cases hsize : m ≤ c.size.length
  · have htake : c.encode.take m = c.size.take m ++ [] := by
      rw [List.append_nil, ChunkText.encode, List.append_assoc, List.append_assoc,
        List.take_append_of_le_length hsize]
    have hhex : ∀ s ∈ c.size.take m, (hexDigit s).isSome :=
      fun s hs => c.size_hex s (List.mem_of_mem_take hs)
    have hlen : (c.size.take m).length = m := List.length_take_of_le hsize
    have hne : c.size.take m ++ [] ≠ [] := by
      rw [List.append_nil]
      exact List.ne_nil_of_length_pos (by omega)
    rw [htake, httpChunkedLoop_size pre _ [] hhex (by have := c.size_length; omega) rfl rfl hne]
    have hn0 := hexNumber_nonneg hhex
    dsimp only
    split_ifs with h0
    · have h2 := scan_append notLineEnd pre (c.size.take m ++ []) (m+2)
      have hbyte : ∀ p : ℤ, (pre.length : ℤ) + m ≤ p →
          byteAt (pre ++ (c.size.take m ++ [])) p = none := by
        intro p hp
        unfold byteAt
        rw [if_neg (by omega)]
        apply List.getElem?_eq_none
        simp only [List.length_append, List.length_nil, hlen]
        omega
      rw [List.drop_eq_nil_of_le (by simp [hlen])] at h2
      rw [hlen, show (pre.length : ℤ) + m + 2 = pre.length + (m+2 : ℕ) by push_cast; ring, h2]
      refine ⟨chunks, k, ?_⟩
      rw [Option.bind_some, if_neg]
      rintro ⟨h13, -⟩
      rw [hbyte _ (by push_cast; omega)] at h13
      cases h13
    · refine ⟨_, _, httpChunkedLoop_end ?_ _ _ _⟩
      simp only [List.length_append, List.length_nil, hlen]
      omega
  · have htake : ∃ tail, c.encode.take m = c.size ++ 13::tail := by
      obtain ⟨j, rfl⟩ := Nat.exists_eq_add_of_lt (not_le.mp hsize)
      refine ⟨(10::(c.data ++ [13,10])).take j, ?_⟩
      rw [ChunkText.encode, List.append_assoc, List.append_assoc, List.take_append,
        List.take_of_length_le (by omega), show c.size.length + j + 1 - c.size.length = j+1 by omega]
      rfl
    obtain ⟨tail, ht⟩ := htake
    have hmlen : (c.encode.take m).length = m := List.length_take_of_le hm.le
    rw [ht] at hmlen ⊢
    rw [httpChunkedLoop_size pre c.size _ c.size_hex c.size_length rfl rfl (by simp)]
    simp only [if_neg c.hexNumber_ne]
    refine ⟨_, _, httpChunkedLoop_end ?_ _ _ _⟩
    rw [c.size_eq, List.length_append, hmlen]
    push_cast
    omega

theorem byteAt_append (pre xs : List UInt8) (a : ℕ) :
    byteAt (pre ++ xs) ((pre.length : ℤ) + a) = xs[a]? := by
  unfold byteAt
  rw [if_neg (by omega), show ((pre.length : ℤ) + a).toNat = pre.length + a by omega,
    List.getElem?_append_right (by omega), Nat.add_sub_cancel_left]

/-- What the loop does at a size of zero, with the bytes `tail` behind it. -/
theorem httpChunkedLoop_zero (pre tail : List UInt8) (htail : tail.takeWhile isAlnum = [])
    (hend : tail.takeWhile notLineEnd = []) (hend' : (tail.drop 2).takeWhile notLineEnd = [])
    (slots k : ℕ) (chunks : ℕ → HttpK) :
    httpChunkedLoop (pre ++ 48::tail) slots k pre.length chunks =
      if tail[2]? = some 13 ∧ tail[3]? = some 10 then some ((pre.length : ℤ) + 5, chunks, k)
      else some (-1, chunks, k) := by
  have hscan := scan_append notLineEnd pre (48::tail) 3
  have h3 := byteAt_append pre (48::tail) 3
  have h4 := byteAt_append pre (48::tail) 4
  rw [List.drop_succ_cons, hend', List.length_nil, Nat.cast_zero, add_zero] at hscan
  have hsize := httpChunkedLoop_size pre [48] tail (by decide +kernel) (by decide) htail hend (by simp) slots k chunks
  rw [List.singleton_append] at hsize
  rw [hsize]
  dsimp only
  rw [if_pos (show hexNumber [48] = 0 by decide)]
  simp only [List.length_singleton, Nat.cast_one]
  rw [show (pre.length : ℤ) + 1 + 2 = pre.length + (3 : ℕ) by push_cast; ring, hscan,
    Option.bind_some, h3, show (pre.length : ℤ) + (3 : ℕ) + 1 = pre.length + (4 : ℕ) by push_cast; ring,
    h4, List.getElem?_cons_succ, List.getElem?_cons_succ]
  congr 2

/-- The terminator ends the loop behind its last byte. -/
theorem httpChunkedLoop_last (pre rest : List UInt8) (slots k : ℕ) (chunks : ℕ → HttpK) :
    httpChunkedLoop (pre ++ (lastChunk ++ rest)) slots k pre.length chunks =
      some ((pre.length : ℤ) + 5, chunks, k) := by
  have := httpChunkedLoop_zero pre ([13,10,13,10] ++ rest) rfl rfl rfl slots k chunks
  rwa [if_pos ⟨rfl, rfl⟩] at this

/-- A terminator that is cut off ends it without a result. -/
theorem httpChunkedLoop_last_cut (pre : List UInt8) {m : ℕ} (hm : m < lastChunk.length)
    (slots k : ℕ) (chunks : ℕ → HttpK) :
    httpChunkedLoop (pre ++ lastChunk.take m) slots k pre.length chunks =
      some (-1, chunks, k) := by
  cases m with
  | zero => exact httpChunkedLoop_end (by simp) _ _ _
  | succ m =>
    have hm' : m < 4 := Nat.lt_of_succ_lt_succ hm
    have hall : ∀ m < 4, (([13,10,13,10] : List UInt8).take m).takeWhile isAlnum = [] ∧
        (([13,10,13,10] : List UInt8).take m).takeWhile notLineEnd = [] ∧
        ((([13,10,13,10] : List UInt8).take m).drop 2).takeWhile notLineEnd = [] ∧
        (([13,10,13,10] : List UInt8).take m)[3]? = none := by decide
    obtain ⟨h1, h2, h3, h4⟩ := hall m hm'
    have := httpChunkedLoop_zero pre (([13,10,13,10] : List UInt8).take m) h1 h2 h3 slots k chunks
    rw [if_neg (by rw [h4]; simp)] at this
    exact this

/-! ### The whole body -/

/-- The loop records the chunks one after the other and ends behind the terminator. -/
theorem httpChunkedLoop_encoded (cs : List ChunkText) (pre rest : List UInt8) {slots : ℕ}
    (hslots : cs.length ≤ slots) (k : ℕ) (chunks : ℕ → HttpK) :
    ∃ chunks', httpChunkedLoop (pre ++ (encodeChunked cs ++ rest)) slots k pre.length chunks =
        some ((pre.length : ℤ) + (encodeChunked cs).length, chunks', k + cs.length) ∧
      (∀ i < k, chunks' i = chunks i) ∧
      ∀ i (hi : i < (dataSpans cs pre.length).length),
        chunks' (k+i) = (dataSpans cs pre.length)[i] := by
  induction cs generalizing pre slots k chunks with
  | nil =>
    refine ⟨chunks, httpChunkedLoop_last pre rest slots k chunks, fun _ _ => rfl, ?_⟩
    intro i hi
    exact absurd hi (Nat.not_lt_zero i)
  | cons c cs ih =>
    obtain ⟨slots, rfl⟩ := Nat.exists_eq_add_of_lt (show 0 < slots by simp at hslots; omega)
    rw [zero_add] at *
    have hbuf : encodeChunked (c::cs) ++ rest = c.encode ++ (encodeChunked cs ++ rest) := by
      simp [encodeChunked]
    have hlen : (encodeChunked (c::cs)).length = c.encode.length + (encodeChunked cs).length := by
      simp [encodeChunked]
    have hstep := httpChunkedLoop_chunk pre (encodeChunked cs ++ rest) c slots k chunks
    have hroom : cs.length ≤ slots := by simp at hslots; omega
    obtain ⟨chunks', hloop, hold, hnew⟩ := ih (pre ++ c.encode) hroom (k+1)
      (Function.update chunks k ⟨pre.length + c.size.length + 2, c.data.length⟩)
    rw [List.append_assoc] at hloop
    refine ⟨chunks', ?_, fun i hi => ?_, fun i hi => ?_⟩
    · rw [hbuf, hstep, hloop, hlen, List.length_cons, List.length_append]
      push_cast
      congr 2
      · ring
      · congr 1
        omega
    · rw [hold i (by omega), Function.update_of_ne (by omega)]
    · cases i with
      | zero =>
        rw [add_zero, hold k (by omega), Function.update_self]
        rfl
      | succ i =>
        have := hnew i (by simpa [dataSpans, dataSpans_length] using hi)
        rw [show k + (i+1) = k+1+i by omega, this]
        simp [dataSpans]

/-- Cut anywhere, the encoding has no result. -/
theorem httpChunkedLoop_cut_anywhere (cs : List ChunkText) (pre : List UInt8) {slots : ℕ}
    (hslots : cs.length ≤ slots) (k : ℕ) (chunks : ℕ → HttpK) {m : ℕ}
    (hm : m < (encodeChunked cs).length) :
    ∃ chunks' k', httpChunkedLoop (pre ++ (encodeChunked cs).take m) slots k pre.length chunks =
      some (-1, chunks', k') := by
  induction cs generalizing pre slots k chunks m with
  | nil => exact ⟨chunks, k, httpChunkedLoop_last_cut pre hm slots k chunks⟩
  | cons c cs ih =>
    obtain ⟨slots, rfl⟩ := Nat.exists_eq_add_of_lt (show 0 < slots by simp at hslots; omega)
    rw [zero_add] at *
    have hsplit : encodeChunked (c::cs) = c.encode ++ encodeChunked cs := by
      simp [encodeChunked]
    rw [hsplit] at hm ⊢
    rcases Nat.lt_or_ge m c.encode.length with hlt | hge
    · rw [List.take_append_of_le_length hlt.le]
      exact httpChunkedLoop_cut pre c hlt slots k chunks
    · rw [List.take_append, List.take_of_length_le hge, httpChunkedLoop_chunk, ← List.append_assoc]
      apply ih
      · simp at hslots; omega
      · rw [List.length_append] at hm
        omega

/-- The round trip of chunked bodies: the encoding is consumed exactly and its data spans are
recorded, and no strict part from its start is taken for a whole body. -/
theorem http_chunked_round_trip (chunk : HttpChunk) (cs : List ChunkText)
    (hmax : cs.length ≤ HTTP_CHUNKED_MAX) :
    (∀ rest, ∃ out, httpChunkedParse chunk (encodeChunked cs ++ rest) =
        some (out, ((encodeChunked cs).length : ℤ)) ∧ out.nchunks = cs.length ∧
      ∀ i (hi : i < (dataSpans cs 0).length), out.chunks i = (dataSpans cs 0)[i]) ∧
    ∀ m < (encodeChunked cs).length, ∃ out,
      httpChunkedParse chunk ((encodeChunked cs).take m) = some (out, -1) := by
  constructor
  · intro rest
    have hne : encodeChunked cs ++ rest ≠ [] := by simp [encodeChunked, lastChunk]
    obtain ⟨chunks', hloop, -, hnew⟩ := httpChunkedLoop_encoded cs [] rest hmax 0 chunk.chunks
    refine ⟨⟨chunks', cs.length⟩, ?_, rfl, ?_⟩
    · rw [httpChunkedParse, if_neg hne]
      simp only [List.nil_append, List.length_nil, Nat.cast_zero, zero_add] at hloop
      rw [hloop]
      rfl
    · intro i hi
      have := hnew i hi
      rwa [zero_add] at this
  · intro m hm
    unfold httpChunkedParse
    split_ifs with hnil
    · exact ⟨chunk, rfl⟩
    · obtain ⟨chunks', k', hloop⟩ := httpChunkedLoop_cut_anywhere cs [] hmax 0 chunk.chunks hm
      simp only [List.nil_append, List.length_nil, Nat.cast_zero] at hloop
      rw [hloop]
      exact ⟨_, rfl⟩

/-- The body of two chunks, `05` and `hello`, `1` and `!`. -/
theorem http_chunked_round_trip_hello : ∃ c d : ChunkText, c.data = [104,101,108,108,111] ∧ d.data = [33] ∧
    (∃ out, httpChunkedParse ⟨fun _ => ⟨0,0⟩, 0⟩ (encodeChunked [c,d] ++ [88]) = some (out, 22) ∧
      out.nchunks = 2 ∧ out.chunks 0 = ⟨4,5⟩ ∧ out.chunks 1 = ⟨14,1⟩) ∧
    ∃ out, httpChunkedParse ⟨fun _ => ⟨0,0⟩, 0⟩ ((encodeChunked [c,d]).take 15) = some (out, -1) := by
  let c : ChunkText := ⟨[48,53], [104,101,108,108,111], by decide +kernel, by decide, by decide,
    by decide⟩
  let d : ChunkText := ⟨[49], [33], by decide +kernel, by decide, by decide, by decide⟩
  obtain ⟨hall, hcut⟩ := http_chunked_round_trip ⟨fun _ => ⟨0,0⟩, 0⟩ [c,d] (by decide)
  obtain ⟨out, hparse, hn, hspans⟩ := hall [88]
  exact ⟨c, d, rfl, rfl, ⟨out, hparse, hn, hspans 0 (by decide), hspans 1 (by decide)⟩, hcut 15 (by decide)⟩

end Sbase
