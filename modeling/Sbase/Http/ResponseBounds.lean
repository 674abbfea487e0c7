import Mathlib.Data.List.TakeWhile
import Sbase.Http.RequestBounds
import Sbase.Http.ResponseParse

/-! When `http_response_parse` stays inside the response and its arrays: the status line, what is searched
and copied for a cookie, and every line that is reached. -/
namespace Sbase
open Memory Relation

/-! ### Searches -/

/-- A search through bytes ends inside of them: they hold what is sought, or a zero. -/
def SearchEnds (needle m : List UInt8) : Prop := needle <:+: m ∨ 0 ∈ m

theorem strstr_inBounds {needle : List UInt8} (hne : needle ≠ []) (m : List UInt8) :
    InBounds (strstr needle m) ↔ SearchEnds needle m := by
  induction m with
  | nil => simp [strstr,not_inBounds,SearchEnds,hne]
  | cons c m ih =>
    rw [strstr]
    split_ifs with hpre hzero
    · exact iff_of_true (inBounds_ok _) (.inl hpre.isInfix)
    · exact iff_of_true (inBounds_ok _) (.inr (by simp [hzero]))
    · rw [ih,SearchEnds,SearchEnds,List.infix_cons_iff,List.mem_cons]
      simp [hpre,Ne.symm hzero]

/-- What is found lies behind the first bytes, none of which is a zero. -/
theorem strstr_some {needle m r : List UInt8} (h : strstr needle m = .ok (some r)) :
    ∃ x, m = x ++ needle ++ r := by
  induction m with
  | nil => cases h
  | cons c m ih =>
    rw [strstr] at h
    split_ifs at h with hpre hzero
    · obtain ⟨t,ht⟩ := hpre
      cases h
      refine ⟨[],?_⟩
      rw [← ht,List.drop_left]
      rfl
    · cases h
    · obtain ⟨x,hx⟩ := ih h
      exact ⟨c::x,by rw [hx]; rfl⟩

theorem strchrEq_inBounds (m : List UInt8) : InBounds (strchrEq m) ↔ 61 ∈ m ∨ 0 ∈ m := by
  have hall : (∀ c ∈ m, c ≠ 61 ∧ c ≠ 0) ↔ ¬ (61 ∈ m ∨ 0 ∈ m) := by
    constructor
    · rintro h (hmem | hmem)
      · exact (h _ hmem).1 rfl
      · exact (h _ hmem).2 rfl
    · intro h c hc
      constructor
      · rintro rfl
        exact h (.inl hc)
      · rintro rfl
        exact h (.inr hc)
  have hdrop := List.takeWhile_append_dropWhile (p := fun c : UInt8 => decide (c ≠ 61 ∧ c ≠ 0)) (l := m)
  have hrest := congrArg (List.drop (m.takeWhile fun c => c ≠ 61 ∧ c ≠ 0).length) hdrop
  rw [List.drop_left] at hrest
  rw [strchrEq,← hrest]
  cases hw : m.dropWhile fun c => c ≠ 61 ∧ c ≠ 0 with
  | nil =>
    refine iff_of_false not_inBounds (hall.mp fun c hc => ?_)
    have hnone := List.dropWhile_eq_nil_iff.1 hw c hc
    exact of_decide_eq_true hnone
  | cons c w =>
    refine iff_of_true (inBounds_ok _) ?_
    by_contra hno
    have hnil : (m.dropWhile fun c => c ≠ 61 ∧ c ≠ 0) = [] :=
      List.dropWhile_eq_nil_iff.2 fun c hc => decide_eq_true (hall.mpr hno c hc)
    rw [hnil] at hw
    cases hw

/-! ### A value -/

namespace RespCursor

variable (c : RespCursor)

/-- The bytes of a value. -/
def text : List UInt8 := c.m.dropLast.takeWhile fun b => b ≠ 59 ∧ b ≠ 13

/-- The parser behind a value. -/
def behind : RespCursor :=
  let m := c.m.drop c.text.length
  ⟨if m.headD 0 = 59 then m.drop 1 else m,c.pp + c.text.length + 1,write c.hlines c.pp (c.text ++ [0])⟩

/-- There is a byte to read, and room for the value. -/
def HasRoom : Prop := c.m ≠ [] ∧ c.pp + c.text.length < HTTP_HEADER_MAX

instance : Decidable c.HasRoom := inferInstanceAs (Decidable (_ ∧ _))

end RespCursor

theorem respValue_eq (c : RespCursor) :
    respValue c = if c.HasRoom then .ok (c.behind,c.text.length) else .error .access := by
  rw [respValue]
  by_cases hm : c.m = []
  · rw [if_pos hm,if_neg fun h => h.1 hm]
  · rw [if_neg hm]
    by_cases hfits : c.pp + c.text.length < HTTP_HEADER_MAX
    · have htake : c.text.take (HTTP_HEADER_MAX - c.pp) = c.text := List.take_of_length_le (by omega)
      rw [if_pos (show c.HasRoom from ⟨hm,hfits⟩)]
      change (if c.pp + (c.text.take (HTTP_HEADER_MAX - c.pp)).length < HTTP_HEADER_MAX then _ else _) = _
      rw [← RespCursor.text,htake,if_pos hfits]
      rfl
    · have hno : ¬ c.HasRoom := fun h => hfits h.2
      have hcut : ¬ c.pp + (c.text.take (HTTP_HEADER_MAX - c.pp)).length < HTTP_HEADER_MAX := by
        rw [List.length_take]
        omega
      rw [if_neg hno]
      exact if_neg hcut

theorem respValue_inBounds (c : RespCursor) : InBounds (respValue c) ↔ c.HasRoom := by
  rw [respValue_eq,inBounds_ite]

theorem respValue_ok {c : RespCursor} {r : RespCursor × ℕ} (h : respValue c = .ok r) :
    c.HasRoom ∧ r = (c.behind,c.text.length) := by
  rw [respValue_eq] at h
  split_ifs at h with hroom
  · cases h
    exact ⟨hroom,rfl⟩

/-- The search for an attribute ends, and there is room for the value behind it. -/
structure AttributeFits (needle : List UInt8) (c : RespCursor) : Prop where
  ends : SearchEnds needle c.m
  room : ∀ m, strstr needle c.m = .ok (some m) → RespCursor.HasRoom { c with m := m }

theorem respAttribute_inBounds {needle : List UInt8} (hne : needle ≠ []) (c : RespCursor) :
    InBounds (respAttribute needle c) ↔ AttributeFits needle c := by
  rw [respAttribute,inBounds_bind,strstr_inBounds hne]
  constructor
  · rintro ⟨hends,hrest⟩
    refine ⟨hends,fun m hm => ?_⟩
    have hvalue := ((inBounds_bind _ _).1 (hrest _ hm)).1
    exact (respValue_inBounds _).1 hvalue
  · intro h
    refine ⟨h.ends,fun found hfound => ?_⟩
    cases found with
    | none => exact inBounds_ok _
    | some m =>
      refine (inBounds_bind _ _).2 ⟨?_,fun r _ => inBounds_ok _⟩
      exact (respValue_inBounds _).2 (h.room m hfound)

/-! ### A cookie -/

/-- Where the value of a cookie with a name begins. -/
def valueCursor (k : ℕ) (name m : List UInt8) (hlines : Mem) : RespCursor :=
  ⟨m.drop (name.length + 1),k + name.length + 1,write hlines k (name ++ [0])⟩

/-- The name, the value and the attributes of a cookie fit. -/
structure RespCookieFits (k : ℕ) (name m : List UInt8) (hlines : Mem) : Prop where
  named : k + name.length < HTTP_HEADER_MAX
  value : (valueCursor k name m hlines).HasRoom
  expires : AttributeFits (ascii "expires=") (valueCursor k name m hlines).behind
  path : ∀ e, respAttribute (ascii "expires=") (valueCursor k name m hlines).behind = .ok e →
    AttributeFits (ascii "path=") e.1
  domain : ∀ e, respAttribute (ascii "expires=") (valueCursor k name m hlines).behind = .ok e →
    ∀ p, respAttribute (ascii "path=") e.1 = .ok p → AttributeFits (ascii "domain=") p.1

theorem ascii_attributes_ne : ascii "expires=" ≠ [] ∧ ascii "path=" ≠ [] ∧ ascii "domain=" ≠ [] := by
  decide +kernel

theorem respCookie_inBounds (k : ℕ) (name m : List UInt8) (resp : HttpResponse) :
    InBounds (respCookie k name m resp) ↔ RespCookieFits k name m resp.hlines := by
  obtain ⟨he,hp,hd⟩ := ascii_attributes_ne
  rw [respCookie]
  split_ifs with hname
  · rw [inBounds_bind,← valueCursor,respValue_inBounds]
    constructor
    · rintro ⟨hvalue,hrest⟩
      have hrest := hrest _ (by rw [respValue_eq,if_pos hvalue])
      rw [inBounds_bind,respAttribute_inBounds he] at hrest
      obtain ⟨hexpires,hrest⟩ := hrest
      refine ⟨hname,hvalue,hexpires,fun e hre => ?_,fun e hre p hrp => ?_⟩
      · have hpath := ((inBounds_bind _ _).1 (hrest e hre)).1
        exact (respAttribute_inBounds hp _).1 hpath
      · have hdomain := ((inBounds_bind _ _).1 (((inBounds_bind _ _).1 (hrest e hre)).2 p hrp)).1
        exact (respAttribute_inBounds hd _).1 hdomain
    · intro h
      refine ⟨h.value,fun v hv => ?_⟩
      obtain ⟨-,rfl⟩ := respValue_ok hv
      refine (inBounds_bind _ _).2 ⟨(respAttribute_inBounds he _).2 h.expires,fun e hre => ?_⟩
      refine (inBounds_bind _ _).2 ⟨(respAttribute_inBounds hp _).2 (h.path e hre),fun p hrp => ?_⟩
      refine (inBounds_bind _ _).2 ⟨(respAttribute_inBounds hd _).2 (h.domain e hre p hrp),?_⟩
      exact fun d _ => inBounds_ok _
  · exact iff_of_false not_inBounds fun h => hname h.named

/-- The bytes from the name of a cookie on, `end` included. -/
def cookieBytes (s : List UInt8) (last : UInt8) : List UInt8 :=
  (s ++ [last]).dropWhile fun c => c = 32 ∨ c = 9

/-- A `Set-Cookie` value stays in bounds: its blanks end by `end`, an `=` or a zero follows them, and a
cookie with a name fits. -/
structure SetCookieFits (s : List UInt8) (last : UInt8) (resp : HttpResponse) : Prop where
  blanks : cookieBytes s last ≠ []
  search : 61 ∈ cookieBytes s last ∨ 0 ∈ cookieBytes s last
  cookie : ∀ name, strchrEq (cookieBytes s last) = .ok (some name) → name ≠ [] →
    resp.cookieStart < HTTP_HEADER_MAX →
      RespCookieFits resp.cookieStart name (cookieBytes s last) resp.hlines

theorem httpRespCookieParse_inBounds (s : List UInt8) (last : UInt8) (resp : HttpResponse) :
    InBounds (httpRespCookieParse s last resp) ↔
      (s = [] ∨ HTTP_COOKIES_MAX ≤ resp.ncookies) ∨ SetCookieFits s last resp := by
  rw [httpRespCookieParse]
  by_cases hskip : s = [] ∨ HTTP_COOKIES_MAX ≤ resp.ncookies
  · rw [if_pos hskip]
    exact iff_of_true (inBounds_ok _) (.inl hskip)
  rw [if_neg hskip,or_iff_right hskip]
  dsimp only
  rw [← cookieBytes]
  split_ifs with hblank
  · exact iff_of_false not_inBounds fun h => h.blanks hblank
  rw [inBounds_bind,strchrEq_inBounds]
  constructor
  · rintro ⟨hsearch,hrest⟩
    refine ⟨hblank,hsearch,fun name hname hne hk => ?_⟩
    have hcookie := hrest _ hname
    dsimp only at hcookie
    rw [if_pos ⟨hne,hk⟩,inBounds_bind,respCookie_inBounds] at hcookie
    exact hcookie.1
  · intro h
    refine ⟨h.search,fun found hfound => ?_⟩
    cases found with
    | none => exact inBounds_ok _
    | some name =>
      dsimp only
      split_ifs with hcond
      · refine (inBounds_bind _ _).2 ⟨?_,fun r _ => inBounds_ok _⟩
        exact (respCookie_inBounds _ _ _ _).2 (h.cookie name hfound hcond.1 hcond.2)
      · exact inBounds_ok _

/-! ### The status line -/

/-- The parser behind the bytes that pass a test. -/
def RespParse.copied (test : UInt8 → Bool) (st : RespParse) : RespParse :=
  { st with s := st.s.dropWhile test, pp := st.pp + (st.s.takeWhile test).length,
            resp := { st.resp with hlines := write st.resp.hlines st.pp (st.s.takeWhile test) } }

/-- Bytes are copied as a whole where they fit. -/
theorem respCopyWhile_fits {test : UInt8 → Bool} {st : RespParse}
    (hfits : st.pp + (st.s.takeWhile test).length ≤ HTTP_HEADER_MAX) :
    respCopyWhile test st = st.copied test := by
  have hsplit := List.takeWhile_append_dropWhile (p := test) (l := st.s)
  have htake : (st.s.takeWhile test).take (HTTP_HEADER_MAX - st.pp) = st.s.takeWhile test :=
    List.take_of_length_le (by omega)
  have hdrop := congrArg (List.drop (st.s.takeWhile test).length) hsplit
  rw [List.drop_left] at hdrop
  simp only [respCopyWhile,htake,← hdrop,RespParse.copied]

/-- Where they do not, the array is filled. -/
theorem respCopyWhile_full (test : UInt8 → Bool) {st : RespParse}
    (hfull : HTTP_HEADER_MAX ≤ st.pp + (st.s.takeWhile test).length) :
    HTTP_HEADER_MAX ≤ (respCopyWhile test st).pp := by
  simp only [respCopyWhile,List.length_take]
  omega

/-- The reason that follows a status code. -/
def reasonText (s : List UInt8) : List UInt8 := s.takeWhile fun c => c ≠ 13 ∧ c ≠ 10 ∧ c ≠ 0

theorem respReason_inBounds (st : RespParse) :
    InBounds (respReason st) ↔ st.pp + (reasonText st.s).length < HTTP_HEADER_MAX := by
  rw [respReason]
  dsimp only
  rw [inBounds_ite]
  by_cases hfits : st.pp + (reasonText st.s).length < HTTP_HEADER_MAX
  · refine iff_of_true ?_ hfits
    rw [respCopyWhile_fits hfits.le]
    exact hfits
  · refine iff_of_false (not_lt.2 ?_) hfits
    exact respCopyWhile_full _ (not_lt.1 hfits)

/-- The length of a status code and its reason. -/
def statusRest (s : List UInt8) : ℕ :=
  (statusDigits s).length + (reasonText (s.drop (statusDigits s).length)).length

theorem respStatus_inBounds (map : Mtrie) (st : RespParse) :
    InBounds (respStatus map st >>= respReason) ↔ st.pp + statusRest st.s < HTTP_HEADER_MAX := by
  rw [inBounds_bind,respStatus]
  dsimp only
  rw [inBounds_ite,statusRest,← Nat.add_assoc]
  constructor
  · rintro ⟨hfits,hrest⟩
    exact (respReason_inBounds _).1 (hrest _ (if_pos hfits))
  · intro hlt
    have hfits : st.pp + (statusDigits st.s).length ≤ HTTP_HEADER_MAX := by omega
    refine ⟨hfits,fun st' hst' => ?_⟩
    rw [if_pos hfits] at hst'
    cases hst'
    exact (respReason_inBounds _).2 hlt

/-- The bytes before the blanks of a status line, the blanks, and the bytes from its code on. -/
def statusVersion (p : List UInt8) : List UInt8 := p.takeWhile fun c => c ≠ 32 ∧ c ≠ 9
def statusBlanks (p : List UInt8) : List UInt8 :=
  (p.dropWhile fun c => c ≠ 32 ∧ c ≠ 9).takeWhile fun c => c = 32 ∨ c = 9
def statusCode (p : List UInt8) : List UInt8 :=
  (p.dropWhile fun c => c ≠ 32 ∧ c ≠ 9).dropWhile fun c => c = 32 ∨ c = 9

/-- The length of the text that is copied from a status line. -/
def statusLength (p : List UInt8) : ℕ :=
  (statusVersion p).length + (statusBlanks p).length + statusRest (statusCode p)

theorem httpStatusLine_inBounds (map : Mtrie) (p : List UInt8) (resp : HttpResponse) :
    InBounds (httpStatusLine map p resp) ↔ statusLength p < HTTP_HEADER_MAX := by
  rw [httpStatusLine,respStatus_inBounds,statusLength]
  have hfull : ∀ {st : RespParse}, HTTP_HEADER_MAX ≤ st.pp → HTTP_HEADER_MAX ≤
      (respCopyWhile (fun c => c = 32 ∨ c = 9) st).pp := fun hpp => respCopyWhile_full _ (by omega)
  have hzero : 0 + (statusVersion p).length = (statusVersion p).length := Nat.zero_add _
  by_cases hversion : (statusVersion p).length ≤ HTTP_HEADER_MAX
  · have hcopy : respCopyWhile (fun c => c ≠ 32 ∧ c ≠ 9) ⟨p,0,resp,-1⟩ =
        RespParse.copied (fun c => c ≠ 32 ∧ c ≠ 9) ⟨p,0,resp,-1⟩ :=
      respCopyWhile_fits (hzero.trans_le hversion)
    rw [hcopy]
    by_cases hblanks : (statusVersion p).length + (statusBlanks p).length ≤ HTTP_HEADER_MAX
    · rw [respCopyWhile_fits]
      · simp only [RespParse.copied,Nat.zero_add]
        rfl
      · simp only [RespParse.copied,Nat.zero_add]
        exact hblanks
    · refine iff_of_false (fun hlt => ?_) (by omega)
      have hpp : HTTP_HEADER_MAX ≤ (respCopyWhile (fun c => c = 32 ∨ c = 9)
          (RespParse.copied (fun c => c ≠ 32 ∧ c ≠ 9) ⟨p,0,resp,-1⟩)).pp := by
        apply respCopyWhile_full
        simp only [RespParse.copied,Nat.zero_add]
        exact (not_le.1 hblanks).le
      omega
  · refine iff_of_false (fun hlt => ?_) (by omega)
    have hcopy : HTTP_HEADER_MAX ≤ (respCopyWhile (fun c => c ≠ 32 ∧ c ≠ 9) ⟨p,0,resp,-1⟩).pp :=
      respCopyWhile_full _ ((not_le.1 hversion).le.trans_eq hzero.symm)
    have hpp := hfull hcopy
    omega

/-- The bytes behind a status line. -/
def statusBehind (p : List UInt8) : List UInt8 :=
  (((statusCode p).drop (statusDigits (statusCode p)).length).dropWhile
    fun c => c ≠ 13 ∧ c ≠ 10 ∧ c ≠ 0).dropWhile fun c => c = 13 ∨ c = 10

/-- What the status line leaves: besides its text, only the number of the code is set. -/
theorem httpStatusLine_ok {map : Mtrie} {p : List UInt8} {resp : HttpResponse} {st : RespParse}
    (h : httpStatusLine map p resp = .ok st) :
    st.s = statusBehind p ∧ st.pp = statusLength p + 1 ∧ ∃ hlines, st.resp = { resp with
      hlines := hlines
      respid := if 0 ≤ mtrieGet map (statusDigits (statusCode p)) - 1 then
        mtrieGet map (statusDigits (statusCode p)) - 1 else resp.respid } := by
  have hin : InBounds (httpStatusLine map p resp) := by simp [h,InBounds]
  rw [httpStatusLine_inBounds,statusLength,statusRest] at hin
  have hversion : respCopyWhile (fun c => c ≠ 32 ∧ c ≠ 9) ⟨p,0,resp,-1⟩ =
      RespParse.copied (fun c => c ≠ 32 ∧ c ≠ 9) ⟨p,0,resp,-1⟩ := by
    apply respCopyWhile_fits
    change 0 + (statusVersion p).length ≤ _
    omega
  have hblanks : respCopyWhile (fun c => c = 32 ∨ c = 9)
      (RespParse.copied (fun c => c ≠ 32 ∧ c ≠ 9) ⟨p,0,resp,-1⟩) =
      RespParse.copied (fun c => c = 32 ∨ c = 9)
        (RespParse.copied (fun c => c ≠ 32 ∧ c ≠ 9) ⟨p,0,resp,-1⟩) := by
    apply respCopyWhile_fits
    change 0 + (statusVersion p).length + (statusBlanks p).length ≤ _
    omega
  rw [httpStatusLine,hversion,hblanks] at h
  obtain ⟨st1,h1,h⟩ := bind_ok_iff.1 h
  have hdigits : 0 + (statusVersion p).length + (statusBlanks p).length +
      (statusDigits (statusCode p)).length ≤ HTTP_HEADER_MAX := by omega
  have hst1 := (if_pos hdigits).symm.trans h1
  cases hst1
  rw [respReason,respCopyWhile_fits] at h
  · have hroom : 0 + (statusVersion p).length + (statusBlanks p).length +
        (statusDigits (statusCode p)).length +
          (reasonText ((statusCode p).drop (statusDigits (statusCode p)).length)).length <
            HTTP_HEADER_MAX := by omega
    have hst := (if_pos hroom).symm.trans h
    cases hst
    refine ⟨rfl,?_,_,rfl⟩
    rw [statusLength,statusRest]
    change 0 + (statusVersion p).length + (statusBlanks p).length +
      (statusDigits (statusCode p)).length +
        (reasonText ((statusCode p).drop (statusDigits (statusCode p)).length)).length + 1 = _
    omega
  · change 0 + (statusVersion p).length + (statusBlanks p).length +
      (statusDigits (statusCode p)).length +
        (reasonText ((statusCode p).drop (statusDigits (statusCode p)).length)).length ≤ _
    omega

/-! ### A line -/

/-- The record with the offset of a value that is to come. -/
def RespParse.setHeader (st : RespParse) (i : ℤ) : RespParse :=
  if i < 0 then st
  else { st with resp := { st.resp with headers := Function.update st.resp.headers i.toNat st.pp },
                 ret := st.ret + 1 }

theorem RespParse.setHeader_eq (st : RespParse) (i : ℤ) : (st.setHeader i).s = st.s ∧
    (st.setHeader i).pp = st.pp ∧
      (st.setHeader i).resp = { st.resp with headers := (st.setHeader i).resp.headers } := by
  rw [RespParse.setHeader]
  split_ifs
  · exact ⟨rfl,rfl,rfl⟩
  · exact ⟨rfl,rfl,rfl⟩

/-- The number under which the name of a line is found, less one. -/
def respIndex (last : UInt8) (s : List UInt8) : ℤ := mtrieGet httpHeadersMapInit (respToken last s) - 1

theorem respSetHeader_eq (last : UInt8) (s : List UInt8) (st : RespParse) :
    respSetHeader (respIndex last s) st = .ok (st.setHeader (respIndex last s)) := by
  have hlt : respIndex last s < HTTP_HEADER_NUM := by
    have hle := mtrieGet_lt (respToken last s)
    rw [respIndex]
    omega
  rw [respSetHeader,RespParse.setHeader]
  split_ifs
  · rfl
  · rfl

/-- The parser at the value of a line, with the spaces before the line skipped. -/
def RespParse.atValue (last : UInt8) (st : RespParse) : RespParse :=
  { st.setHeader (respIndex last (skipSpaces st.s)) with s := respRest last (skipSpaces st.s) }

theorem httpRespLine_eq (last : UInt8) (st : RespParse) :
    httpRespLine httpHeadersMapInit last st =
      if skipSpaces st.s = [] ∧ last = 32 then .error .access
      else if HTTP_HEAD_MAX ≤ (respToken last (skipSpaces st.s)).length then .error .access
      else respSetCookie (respIndex last (skipSpaces st.s)) last (st.atValue last) >>=
        fun st => .ok (respEndLine st) := by
  rw [httpRespLine]
  dsimp only
  rw [← respIndex,respSetHeader_eq]
  rfl

/-- A line stays in bounds: the spaces before it end by `end`, its name fits in `line`, and a cookie in
`hlines`. -/
structure RespLineFits (last : UInt8) (st : RespParse) : Prop where
  spaces : skipSpaces st.s ≠ [] ∨ last ≠ 32
  name : (respToken last (skipSpaces st.s)).length < HTTP_HEAD_MAX
  cookie : respIndex last (skipSpaces st.s) = HEAD_RESP_SET_COOKIE →
    ((st.atValue last).s = [] ∨ HTTP_COOKIES_MAX ≤ (st.atValue last).resp.ncookies) ∨
      SetCookieFits (st.atValue last).s last (st.atValue last).resp

theorem httpRespLine_inBounds (last : UInt8) (st : RespParse) :
    InBounds (httpRespLine httpHeadersMapInit last st) ↔ RespLineFits last st := by
  rw [httpRespLine_eq]
  split_ifs with hspaces hname
  · refine iff_of_false not_inBounds fun h => ?_
    exact h.spaces.elim (absurd hspaces.1) (absurd hspaces.2)
  · refine iff_of_false not_inBounds fun h => ?_
    exact absurd h.name (not_lt.2 hname)
  · rw [inBounds_bind,respSetCookie]
    split_ifs with hcookie
    · rw [inBounds_bind,httpRespCookieParse_inBounds]
      constructor
      · rintro ⟨⟨hfits,-⟩,-⟩
        exact ⟨by tauto,not_le.1 hname,fun _ => hfits⟩
      · intro h
        exact ⟨⟨h.cookie hcookie,fun r _ => inBounds_ok _⟩,fun st _ => inBounds_ok _⟩
    · refine iff_of_true ⟨inBounds_ok _,fun st _ => inBounds_ok _⟩ ?_
      exact ⟨by tauto,not_le.1 hname,fun h => absurd h hcookie⟩

/-! ### Whole runs -/

/-- A step of the loop over the headers. -/
def RespStep (last : UInt8) (st st' : RespParse) : Prop :=
  st.s ≠ [] ∧ httpRespLine httpHeadersMapInit last st = .ok st'

theorem httpRespLoop_inBounds (last : UInt8) (st : RespParse) :
    InBounds (httpRespLoop httpHeadersMapInit last st) ↔
      ∀ st', ReflTransGen (RespStep last) st st' → st'.s ≠ [] → RespLineFits last st' := by
  induction st using httpRespLoop.induct httpHeadersMapInit last with
  | case1 st hs =>
    rw [httpRespLoop_nil hs]
    refine iff_of_true (inBounds_ok st) fun st' hrun hs' => ?_
    rcases ReflTransGen.cases_head hrun with rfl | ⟨st1,hstep,-⟩
    · exact absurd hs hs'
    · exact absurd hs hstep.1
  | case2 st hs e hline =>
    rw [httpRespLoop_cons hs,inBounds_bind,httpRespLine_inBounds]
    constructor
    · rintro ⟨hfits,-⟩ st' hrun -
      rcases ReflTransGen.cases_head hrun with rfl | ⟨st1,hstep,-⟩
      · exact hfits
      · cases hline.symm.trans hstep.2
    · intro h
      refine ⟨h st .refl hs,?_⟩
      intro st1 hst1
      cases hline.symm.trans hst1
  | case3 st hs st1 hline ih =>
    rw [httpRespLoop_cons hs,inBounds_bind,httpRespLine_inBounds]
    constructor
    · rintro ⟨hfits,hrest⟩ st' hrun hs'
      rcases ReflTransGen.cases_head hrun with rfl | ⟨st2,hstep,hrun⟩
      · exact hfits
      · cases hline.symm.trans hstep.2
        exact ih.1 (hrest st1 hline) st' hrun hs'
    · intro h
      refine ⟨h st .refl hs,?_⟩
      intro st2 hst2
      cases hline.symm.trans hst2
      exact ih.2 fun st' hrun hs' => h st' (.head ⟨hs,hline⟩ hrun) hs'

/-- The run behind the status line is in bounds when every line that it reaches is. -/
def RespLinesFit (p : List UInt8) (last : UInt8) : Prop :=
  ∀ st st', httpStatusLine httpHeadersMapInit p .zero = .ok st →
    ReflTransGen (RespStep last) st st' → st'.s ≠ [] → RespLineFits last st'

theorem httpResponseParse_inBounds (p : List UInt8) (last : UInt8) :
    InBounds (httpResponseParse httpHeadersMapInit p last .zero) ↔
      statusLength p < HTTP_HEADER_MAX ∧ RespLinesFit p last := by
  rw [httpResponseParse,inBounds_bind,httpStatusLine_inBounds]
  refine and_congr_right fun _ => ?_
  constructor
  · intro h st st' hst
    exact (httpRespLoop_inBounds last st).1 ((inBounds_bind _ _).1 (h st hst)).1 st'
  · intro h st hst
    rw [inBounds_bind,httpRespLoop_inBounds]
    exact ⟨fun st' => h st st' hst,fun st' _ => inBounds_ok _⟩

end Sbase
