import Mathlib.Data.List.TakeWhile
import Sbase.Http.RequestBounds

/-! One line of the headers: what the parser makes of a name and a value, by where the first space of the
text lies. -/
namespace Sbase
open Memory

/-- A header as it stands in a request: its number in the table, its name as it is written, whether a space
follows the colon, and its value. -/
structure HeaderField where
  h : ℕ
  name : List UInt8
  spaced : Bool
  value : List UInt8
  h_lt : h < HTTP_HEADER_NUM
  name_eq : name.map lower ++ [58] = headerKey h
  value_plain : ∀ c ∈ value, c ≠ 13 ∧ c ≠ 10 ∧ c ≠ 0
  value_start : value.head? ≠ some 32

namespace HeaderField

/-- The line with its CRLF, in front of the rest of the request. -/
def text (f : HeaderField) (rest : List UInt8) : List UInt8 :=
  f.name ++ 58::((if f.spaced then [32] else []) ++ (f.value ++ 13::10::rest))

/-- The line has a space in it. -/
def HasSpace (f : HeaderField) : Prop := f.spaced = true ∨ 32 ∈ f.value

instance (f : HeaderField) : Decidable f.HasSpace := inferInstanceAs (Decidable (_ ∨ _))

/-- The value is that of a Basic authorization, or would be. -/
def IsBasic (value : List UInt8) : Prop := (value.take 5).map lower = (ascii "Basic").map lower

instance (value : List UInt8) : Decidable (IsBasic value) := inferInstanceAs (Decidable (_ = _))

/-- Cookies and Basic authorizations are not stored as they stand. -/
def Exempt (f : HeaderField) : Prop :=
  (f.h : ℤ) = HEAD_REQ_COOKIE ∨ (f.h : ℤ) = HEAD_REQ_AUTHORIZATION ∧ IsBasic f.value

instance (f : HeaderField) : Decidable f.Exempt := inferInstanceAs (Decidable (_ ∨ _))

/-- The room of a line in `hlines`. Credentials may decode to two bytes more than they have. -/
def room (f : HeaderField) : ℕ := f.value.length + 1 + if IsBasic f.value then 2 else 0

end HeaderField

/-- The lines of the headers. -/
def fieldsText : List HeaderField → List UInt8
  | [] => []
  | f::fs => f.text (fieldsText fs)

/-! ### Text around the end of a line -/

/-- From a line whose end is still ahead, the next one is reached. -/
theorem nextLine_drop {v : List UInt8} (hv : 10 ∉ v) (rest : List UInt8) :
    nextLine ((v ++ 13::10::rest).drop 1) = rest := by
  cases v with
  | nil => exact nextLine_append List.not_mem_nil
  | cons c v =>
    have hplain : 10 ∉ v ++ [13] := by
      intro h
      rw [List.mem_append,List.mem_singleton] at h
      rcases h with h | h
      · exact hv (List.mem_cons_of_mem c h)
      · cases h
    have hsplit : (c::v ++ 13::10::rest).drop 1 = (v ++ [13]) ++ 10::rest := by simp
    rw [hsplit,nextLine_append hplain]

/-- A comparison that the end of the line decides. -/
theorem strncasecmp_line (v w text : List UInt8) (htext : 13 ∉ text.map lower) :
    strncasecmp (v ++ 13::w) text = some (decide ((v.take text.length).map lower = text.map lower)) := by
  induction text generalizing v with
  | nil => simp [strncasecmp]
  | cons b text ih =>
    rw [List.map_cons,List.mem_cons,not_or] at htext
    cases v with
    | nil =>
      rw [List.nil_append,strncasecmp,if_neg (show lower 13 ≠ lower b from htext.1)]
      simp
    | cons c v =>
      rw [List.cons_append,strncasecmp]
      by_cases hc : lower c = lower b
      · rw [if_pos hc,ih v htext.2]
        simp [hc]
      · rw [if_neg hc]
        simp [hc]

/-! ### A line up to its first space -/

/-- The bytes of a line up to its first space, which the parser takes for a name. -/
structure Head (a : List UInt8) : Prop where
  ne : a ≠ []
  plain : 32 ∉ a
  fits : a.length < HTTP_HEAD_MAX

/-- The name ends at the first space. -/
theorem lineToken_space {a : List UInt8} (ha : 32 ∉ a) (w : List UInt8) : lineToken (a ++ 32::w) = a.map lower := by
  have hall : ∀ c ∈ a, decide (c ≠ 32) = true := fun c hc => decide_eq_true (ne_of_mem_of_not_mem hc ha)
  rw [lineToken,(takeWhile_stop hall (by decide)).1]

/-- Without a space, all that is left is taken for a name. -/
theorem lineToken_all {a : List UInt8} (ha : 32 ∉ a) : lineToken a = a.map lower := by
  have hall : ∀ c ∈ a, decide (c ≠ 32) = true := fun c hc => decide_eq_true (ne_of_mem_of_not_mem hc ha)
  rw [lineToken,List.takeWhile_eq_self_iff.mpr hall]

namespace Head

variable {a : List UInt8} (h : Head a)

include h

theorem test (c : UInt8) (hc : c ∈ a) : c ≠ 32 := by
  rintro rfl
  exact h.plain hc

theorem skip (w : List UInt8) : skipSpaces (a ++ w) = a ++ w :=
  dropWhile_keep w h.ne fun c hc => decide_eq_false (h.test c hc)

theorem token (w : List UInt8) : lineToken (a ++ 32::w) = a.map lower := lineToken_space h.plain w

theorem value (w : List UInt8) : lineValue (a ++ 32::w) = skipSpaces w := by
  rw [lineValue,(takeWhile_stop (fun c hc => decide_eq_true (h.test c hc)) (by decide)).2]
  exact List.dropWhile_cons_of_pos (by decide)

/-- The number of the header that the bytes name. -/
theorem index (w : List UInt8) :
    headerIndex (a ++ 32::w) = mtrieGet httpHeadersMapInit (a.map lower) - 1 := by
  rw [headerIndex,h.token]

theorem line (last : UInt8) {st : HttpParse} {w : List UInt8} (hs : st.s = a ++ 32::w) :
    httpHeaderLine httpHeadersMapInit last st =
      httpValue (mtrieGet httpHeadersMapInit (a.map lower) - 1) last
        { st.setHeader (mtrieGet httpHeadersMapInit (a.map lower) - 1) with s := skipSpaces w } >>=
          httpEndLine := by
  have hne : ¬ (a ++ 32::w = [] ∧ last = 32) := by simp
  have hfits : ¬ HTTP_HEAD_MAX ≤ (a.map lower).length := by
    rw [List.length_map]
    exact not_le.2 h.fits
  rw [httpHeaderLine_eq,HttpParse.atValue,hs,h.skip,h.token,h.index,h.value,if_neg hne,if_neg hfits]

end Head

/-- What a line leaves of a record: the text below a place, and the headers but for its own. -/
structure LineRead (i : ℤ) (st st' : HttpParse) (rest : List UInt8) (start n : ℕ) : Prop where
  rest : st'.s = rest
  nhline : st'.req.nhline = st'.pp
  low : start < st'.pp
  high : st'.pp ≤ st.pp + n
  kept : ∀ j < start, st'.req.hlines j = st.req.hlines j
  headers : st'.req.headers = (st.setHeader i).req.headers

/-- A text stands at an offset, with a zero behind it. -/
def HoldsString (m : Mem) (off : ℕ) (v : List UInt8) : Prop :=
  read m off v.length = v ∧ m (off + v.length) = 0

theorem holdsString_write (m : Mem) (off : ℕ) (v : List UInt8) :
    HoldsString (Function.update (write m off v) (off + v.length) 0) off v := by
  rw [← write_singleton,write_write_append]
  exact ⟨read_write_take m off v [0],write_apply_behind m off v 0⟩

/-- A value that is copied up to the end of its line. -/
theorem copyLine (i : ℤ) (rest : List UInt8) {st : HttpParse} {v : List UInt8} (hv : ∀ c ∈ v, c ≠ 13 ∧ c ≠ 10)
    (hroom : st.pp + v.length < HTTP_HEADER_MAX) :
    ∃ st', (copyWhile (· ≠ 13) id { st.setHeader i with s := v ++ 13::10::rest } >>= httpEndLine) =
        .ok st' ∧ LineRead i st st' rest st.pp (v.length + 1) ∧ st'.pp = st.pp + v.length + 1 ∧
      HoldsString st'.req.hlines st.pp v := by
  obtain ⟨-,hpp,hreq⟩ := st.setHeader_eq i
  have hstop := takeWhile_stop (w := 10::rest) (fun c hc => decide_eq_true (hv c hc).1)
    (show decide ((13 : UInt8) ≠ 13) = false by decide)
  have hline : 10 ∉ v := fun h => (hv 10 h).2 rfl
  rw [copyWhile_eq,HttpParse.copied]
  dsimp only
  rw [hstop.1,hstop.2,hpp,if_pos hroom.le]
  dsimp only [bind,Except.bind]
  rw [httpEndLine,if_pos hroom]
  refine ⟨_,rfl,⟨?_,rfl,?_,?_,?_,rfl⟩,rfl,?_⟩
  · exact nextLine_drop (v := []) (by simp) rest
  · dsimp only
    omega
  · dsimp only
    omega
  · intro j hj
    dsimp only
    rw [Function.update_of_ne (by omega),write_apply_of_not_mem _ _ _ _ (.inl hj),hreq]
  · dsimp only
    rw [List.map_id]
    exact holdsString_write _ _ _

/-! ### Credentials -/

theorem base64Groups_le (n : ℕ) : 4 * base64Groups n ≤ n + 3 ∧ 3 * base64Groups n ≤ n + 2 := by
  unfold base64Groups
  omega

theorem credentialChars_le (v w : List UInt8) : credentialChars (v ++ 13::w) ≤ v.length := by
  unfold credentialChars
  induction v with
  | nil => simp
  | cons c v ih =>
    rw [List.cons_append,List.takeWhile_cons]
    split_ifs
    · exact Nat.succ_le_succ ih
    · exact Nat.zero_le _

/-- Where the credentials begin. -/
theorem credentials_start (v w : List UInt8) : ∃ v', v' <:+ v ∧
    skipSpaces ((v ++ 13::w).dropWhile fun c => c ≠ 32 ∧ c ≠ 13) = v' ++ 13::w := by
  obtain ⟨v1,h1,hsuf1⟩ := dropWhile_stops (fun c => c ≠ 32 ∧ c ≠ 13) v w (x := 13) (by decide)
  obtain ⟨v2,h2,hsuf2⟩ := dropWhile_stops (· = 32) v1 w (x := 13) (by decide)
  exact ⟨v2,hsuf2.trans hsuf1,by rw [h1]; exact h2⟩

theorem basicFits_line {v rest : List UInt8} {pp : ℕ} (hroom : pp + v.length + 2 < HTTP_HEADER_MAX) :
    BasicFits (v ++ 13::10::rest) pp := by
  obtain ⟨v',hsuf,hv⟩ := credentials_start v (10::rest)
  have hle := hsuf.length_le
  have hchars := credentialChars_le v' (10::rest)
  have hgroups := base64Groups_le (credentialChars (v' ++ 13::10::rest))
  unfold BasicFits
  rw [hv]
  simp only [CredentialsFit,List.length_append,List.length_cons]
  omega

/-- What credentials leave of their line and of the record. -/
theorem httpBasic_line {last : UInt8} {st st' : HttpParse} {v w : List UInt8} (hs : st.s = v ++ 13::w)
    (h : httpBasic last st = .ok st') :
    (∃ v', v' <:+ v ∧ st'.s = v' ++ 13::w) ∧ st.pp ≤ st'.pp ∧ st'.pp ≤ st.pp + v.length + 2 ∧
      (∀ j < st.pp, st'.req.hlines j = st.req.hlines j) ∧ st'.req.headers = st.req.headers := by
  obtain ⟨st1,hscheme,hrest⟩ := bind_ok_iff.1 h
  obtain ⟨st2,hspaces,hcred⟩ := bind_ok_iff.1 hrest
  obtain ⟨-,rfl⟩ := copyWhile_ok hscheme
  obtain ⟨-,hst2⟩ := copyWhile_ok hspaces
  obtain ⟨text,htext,-,rfl⟩ := httpCredentials_ok hcred
  have hlen := httpBase64Decode_length htext
  rw [← takeWhile_length,← credentialChars] at hlen
  obtain ⟨v1,h1,hsuf1⟩ := dropWhile_stops (fun c => c ≠ 32 ∧ c ≠ 13) v w (x := 13) (by decide)
  obtain ⟨v2,h2,hsuf2⟩ := dropWhile_stops (· = 32) v1 w (x := 13) (by decide)
  obtain ⟨v3,h3,hsuf3⟩ := dropWhile_stops (fun c => c ≠ 13 ∧ c ≠ 32) v2 w (x := 13) (by decide)
  have hs2 : st2.s = v2 ++ 13::w := by
    rw [hst2]
    change (st.s.dropWhile _).dropWhile _ = _
    rw [hs,h1,h2]
  have hpp2 : st2.pp = st.pp + (v.length - v1.length) + (v1.length - v2.length) := by
    rw [hst2]
    change st.pp + (st.s.takeWhile _).length + ((st.s.dropWhile _).takeWhile _).length = _
    rw [takeWhile_length,takeWhile_length,hs,h1,h2]
    simp only [List.length_append,List.length_cons]
    omega
  have hkept : ∀ j < st.pp, st2.req.hlines j = st.req.hlines j := by
    intro j hj
    rw [hst2]
    change write (write st.req.hlines st.pp _) (st.pp + _) _ j = _
    rw [write_apply_of_not_mem _ _ _ _ (.inl (by omega)),write_apply_of_not_mem _ _ _ _ (.inl hj)]
  have hchars := credentialChars_le v2 w
  have hgroups := base64Groups_le (credentialChars (v2 ++ 13::w))
  have hle1 := hsuf1.length_le
  have hle2 := hsuf2.length_le
  rw [hs2] at hlen
  dsimp only
  refine ⟨⟨v3,hsuf3.trans (hsuf2.trans hsuf1),by rw [hs2,h3]⟩,by omega,by omega,?_,?_⟩
  · intro j hj
    rw [write_apply_of_not_mem _ _ _ _ (.inl (by omega)),hkept j hj]
  · rw [hst2]
    rfl

/-- A Basic authorization: its room is that of the value and two bytes more. -/
theorem basicLine (i : ℤ) (last : UInt8) (rest : List UInt8) {st : HttpParse} {v : List UInt8}
    (hv : ∀ c ∈ v, c ≠ 13 ∧ c ≠ 10) (hroom : st.pp + v.length + 2 < HTTP_HEADER_MAX) :
    ∃ st', (httpBasic last { st.setHeader i with s := v ++ 13::10::rest } >>= httpEndLine) = .ok st' ∧
      LineRead i st st' rest st.pp (v.length + 3) := by
  obtain ⟨-,hpp,hreq⟩ := st.setHeader_eq i
  obtain ⟨st',hline⟩ := (httpBasic_inBounds last { st.setHeader i with s := v ++ 13::10::rest }).2
    (by dsimp only; rw [hpp]; exact basicFits_line hroom)
  refine ⟨st',hline,?_⟩
  obtain ⟨st1,h1,hend⟩ := bind_ok_iff.1 hline
  obtain ⟨⟨v',hsuf,hs⟩,hlow,hhigh,hkept,hheaders⟩ := httpBasic_line rfl h1
  unfold httpEndLine at hend
  split_ifs at hend
  cases hend
  dsimp only at hlow hhigh hkept hheaders
  rw [hpp] at hlow hhigh hkept
  rw [hreq] at hkept
  refine ⟨?_,rfl,Nat.lt_succ_of_le hlow,?_,?_,hheaders⟩
  · dsimp only
    rw [hs,nextLine_drop fun hmem => (hv 10 (hsuf.subset hmem)).2 rfl]
  · dsimp only
    omega
  · intro j hj
    dsimp only
    rw [Function.update_of_ne (by omega),hkept j hj]

/-! ### Cookies -/

/-- Cookies are read up to the end of their line, or up to one that lies behind their table. -/
theorem cookieLine (last : UInt8) (rest : List UInt8) {st : HttpParse} {v : List UInt8}
    (hv : ∀ c ∈ v, c ≠ 13 ∧ c ≠ 10) (hroom : st.pp + v.length < HTTP_HEADER_MAX)
    (hstart : st.req.cookieStart ≤ st.pp) (hcookies : st.req.ncookies ≤ HTTP_COOKIES_MAX + 1) :
    ∃ st', (httpValue HEAD_REQ_COOKIE last
        { st.setHeader HEAD_REQ_COOKIE with s := v ++ 13::10::rest } >>= httpEndLine) = .ok st' ∧
      LineRead HEAD_REQ_COOKIE st st' rest st.req.cookieStart (v.length + 1) := by
  obtain ⟨-,hpp,hreq⟩ := st.setHeader_eq HEAD_REQ_COOKIE
  have hcount : (st.setHeader HEAD_REQ_COOKIE).req.ncookies ≤ HTTP_COOKIES_MAX + 1 :=
    (st.setHeader_ncookies _).trans_le hcookies
  obtain ⟨req,n,hparse,-⟩ := httpCookieParseOver_some (v ++ 13::10::rest) hcount
  obtain ⟨hsame,-,hkept,hlow,hhigh⟩ := httpCookieParseOver_reads hparse (by simp)
  obtain ⟨⟨v',hs,hsuf⟩,hn⟩ := httpCookieParseOver_stops hparse
  have hbegin : (st.setHeader HEAD_REQ_COOKIE).req.cookieStart = st.req.cookieStart := by
    rw [hreq]
    rfl
  rw [hbegin] at hkept hlow hhigh
  rw [httpValue,if_pos rfl]
  dsimp only
  rw [hparse]
  dsimp only [bind,Except.bind]
  rw [httpEndLine,if_pos (show req.nhline < _ by omega)]
  refine ⟨_,rfl,?_,rfl,Nat.lt_succ_of_le hlow,?_,?_,?_⟩
  · dsimp only
    rw [hs,nextLine_drop fun hmem => (hv 10 (hsuf.subset hmem)).2 rfl]
  · dsimp only
    omega
  · intro j hj
    dsimp only
    rw [Function.update_of_ne (by omega),hkept j hj,hreq]
  · dsimp only
    rw [hsame.frame]

/-! ### The value by its header -/

/-- The comparison with `Basic` is decided within the line. -/
theorem strncasecmp_basic (v rest : List UInt8) (last : UInt8) :
    strncasecmp (v ++ 13::10::rest ++ [last]) (ascii "Basic") =
      some (decide (HeaderField.IsBasic v)) := by
  have hline := strncasecmp_line v (10::(rest ++ [last])) (ascii "Basic") (by decide +kernel)
  have hlen : (ascii "Basic").length = 5 := by decide +kernel
  rw [hlen] at hline
  rw [List.append_assoc]
  exact hline

/-- Values other than cookies and Basic authorizations are copied as they stand. -/
theorem httpValue_plain {i : ℤ} (last : UInt8) {st : HttpParse} {v rest : List UInt8}
    (hs : st.s = v ++ 13::10::rest) (hcookie : i ≠ HEAD_REQ_COOKIE)
    (hbasic : i = HEAD_REQ_AUTHORIZATION → ¬ HeaderField.IsBasic v) :
    httpValue i last st = copyWhile (· ≠ 13) id st := by
  rw [httpValue,if_neg hcookie]
  by_cases hauth : i = HEAD_REQ_AUTHORIZATION
  · rw [if_pos hauth,hs,strncasecmp_basic,decide_eq_false (hbasic hauth)]
  · rw [if_neg hauth]

theorem httpValue_basic (last : UInt8) (st : HttpParse) {v rest : List UInt8}
    (hs : st.s = v ++ 13::10::rest) (hbasic : HeaderField.IsBasic v) :
    httpValue HEAD_REQ_AUTHORIZATION last st = httpBasic last st := by
  rw [httpValue,if_neg (by decide),if_pos rfl,hs,strncasecmp_basic,decide_eq_true hbasic]

/-- Bytes with a colon before their last one name no header. -/
theorem index_colon {a : List UInt8} (ha : 58 ∈ a.dropLast) :
    mtrieGet httpHeadersMapInit (a.map lower) - 1 = -1 := by
  have hmem : 58 ∈ (a.map lower).dropLast := by
    rw [← List.map_dropLast]
    exact List.mem_map.2 ⟨58,ha,rfl⟩
  rw [mtrieGet_colon hmem]
  rfl

/-- Bytes without a space up to the end are a name without a value. -/
theorem lastLine (last : UInt8) {st : HttpParse} {a : List UInt8} (h : Head a) (hs : st.s = a)
    (ha : 58 ∈ a.dropLast) (hroom : st.pp < HTTP_HEADER_MAX) :
    ∃ st', httpHeaderLine httpHeadersMapInit last st = .ok st' ∧ LineRead (-1) st st' [] st.pp 1 := by
  have hall : ∀ c ∈ a, decide (c ≠ 32) = true := fun c hc => decide_eq_true (h.test c hc)
  have hskip : skipSpaces a = a := by
    have hkeep := h.skip []
    rwa [List.append_nil] at hkeep
  have hvalue : lineValue a = [] := by
    have hdrop := @List.dropWhile_append_of_pos _ _ _ [] hall
    rw [List.append_nil,List.dropWhile_nil] at hdrop
    rw [lineValue,hdrop]
    rfl
  have hfits : ¬ HTTP_HEAD_MAX ≤ (a.map lower).length := by
    rw [List.length_map]
    exact not_le.2 h.fits
  have hset : st.setHeader (-1) = st := rfl
  have hcopy : copyWhile (· ≠ 13) id { st with s := [] } = .ok ({ st with s := [] }) := by
    rw [copyWhile_eq]
    refine (if_pos hroom.le).trans ?_
    simp [HttpParse.copied]
  rw [httpHeaderLine_eq,HttpParse.atValue,hs,hskip,headerIndex,lineToken_all h.plain,hvalue,index_colon ha,
    if_neg fun hnil => h.ne hnil.1,if_neg hfits,hset,httpValue,if_neg (by decide),if_neg (by decide),
    hcopy]
  dsimp only [bind,Except.bind]
  rw [httpEndLine,if_pos hroom]
  refine ⟨_,rfl,rfl,rfl,Nat.lt_succ_self _,le_rfl,?_,rfl⟩
  intro j hj
  exact Function.update_of_ne hj.ne _ _

/-! ### The first space of the lines -/

namespace HeaderField

variable (f : HeaderField)

theorem name_plain : 32 ∉ f.name := by
  intro hmem
  apply (headerKey_plain f.h f.h_lt).1
  rw [← f.name_eq,List.mem_append,List.mem_map]
  exact .inl ⟨32,hmem,rfl⟩

/-- A line with a space behind its colon. -/
theorem text_spaced (hspaced : f.spaced = true) (rest : List UInt8) :
    f.text rest = (f.name ++ [58]) ++ 32::(f.value ++ 13::10::rest) := by
  simp [text,hspaced]

/-- A line without one, up to a part of its value. -/
theorem text_tight (hspaced : f.spaced = false) {v w : List UInt8} (hvalue : f.value = v ++ w)
    (rest : List UInt8) : f.text rest = (f.name ++ 58::v) ++ (w ++ 13::10::rest) := by
  simp [text,hspaced,hvalue]

end HeaderField

/-- Lines up to their first space: those without one are followed by a line whose rest is read as a value,
or by nothing. -/
inductive FirstSpace : List HeaderField → Prop
  | found (us : List HeaderField) (g : HeaderField) (fs : List HeaderField) (a v : List UInt8)
      (hus : ∀ u ∈ us, ¬ u.HasSpace) (hg : g.HasSpace) (ha : 32 ∉ a) (hv : v <:+ g.value)
      (htext : fieldsText (us ++ g::fs) = a ++ 32::(v ++ 13::10::fieldsText fs))
      (hname : us = [] ∧ g.spaced = true ∧ a = g.name ++ [58] ∧ v = g.value ∨
        ¬ (us = [] ∧ g.spaced = true) ∧ 58 ∈ a.dropLast) : FirstSpace (us ++ g::fs)
  | none (us : List HeaderField) (hus : ∀ u ∈ us, ¬ u.HasSpace) (ha : 32 ∉ fieldsText us)
      (hname : us ≠ [] → 58 ∈ (fieldsText us).dropLast) : FirstSpace us

theorem colon_mem {n v : List UInt8} (hv : v ≠ []) : 58 ∈ (n ++ 58::v).dropLast := by
  rw [List.dropLast_append_of_ne_nil (by simp),List.dropLast_cons_of_ne_nil hv]
  simp

theorem firstSpace (fs : List HeaderField) : FirstSpace fs := by
  induction fs with
  | nil => exact .none [] (by simp) (by simp [fieldsText]) fun h => absurd rfl h
  | cons f fs ih =>
    by_cases hspaced : f.spaced = true
    · refine .found [] f fs (f.name ++ [58]) f.value (by simp) (.inl hspaced) ?_ List.suffix_rfl
        (f.text_spaced hspaced _) (.inl ⟨rfl,hspaced,rfl,rfl⟩)
      rw [List.mem_append,not_or]
      exact ⟨f.name_plain,by simp⟩
    have htight : f.spaced = false := by simpa using hspaced
    by_cases hmem : 32 ∈ f.value
    · obtain ⟨v1,v2,hvalue,hv1⟩ := List.eq_append_cons_of_mem hmem
      have hne : v1 ≠ [] := by
        rintro rfl
        exact f.value_start (by rw [hvalue]; rfl)
      refine .found [] f fs (f.name ++ 58::v1) v2 (by simp) (.inr hmem) ?_
        ⟨v1 ++ [32],by simp [hvalue]⟩ ?_ (.inr ⟨by simp [htight],colon_mem hne⟩)
      · simp [f.name_plain,hv1]
      · exact f.text_tight htight hvalue _
    have hno : ¬ f.HasSpace := fun h => h.elim hspaced hmem
    have htext : ∀ rest, f.text rest = f.name ++ 58::(f.value ++ 13::10::rest) := by
      intro rest
      rw [f.text_tight htight (List.append_nil f.value).symm]
      simp
    cases ih with
    | found us g fs a v hus hg ha hv hfound hname =>
      refine .found (f::us) g fs (f.name ++ 58::(f.value ++ 13::10::a)) v ?_ hg ?_ hv ?_
        (.inr ⟨by simp,colon_mem (by simp)⟩)
      · rw [List.forall_mem_cons]
        exact ⟨hno,hus⟩
      · simp [f.name_plain,hmem,ha]
      · rw [List.cons_append,fieldsText,htext,hfound]
        simp
    | none us hus ha hname =>
      refine .none (f::fs) ?_ ?_ fun _ => ?_
      · rw [List.forall_mem_cons]
        exact ⟨hno,hus⟩
      · rw [fieldsText,htext]
        simp [f.name_plain,hmem,ha]
      · rw [fieldsText,htext]
        exact colon_mem (by simp)

end Sbase
