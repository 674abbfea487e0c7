import Sbase.Http.HeaderField
import Sbase.Http.ResponseBounds

/-! Well-formed responses, and the values of their headers. -/
namespace Sbase
open Memory Relation

/-! ### The status line -/

structure StatusLine where
  version : List UInt8
  code : List UInt8
  reason : List UInt8
  version_plain : ∀ c ∈ version, c ≠ 32 ∧ c ≠ 9 ∧ c ≠ 13 ∧ c ≠ 10 ∧ c ≠ 0
  code_ne : code ≠ []
  code_digits : ∀ c ∈ code, 48 ≤ c ∧ c ≤ 57
  reason_plain : ∀ c ∈ reason, c ≠ 13 ∧ c ≠ 10 ∧ c ≠ 0

namespace StatusLine

variable (l : StatusLine) (rest : List UInt8)

/-- The line with its CRLF, in front of the rest of the response. -/
def text : List UInt8 := l.version ++ 32::(l.code ++ 32::(l.reason ++ 13::10::rest))

/-- The length of the line without its CRLF. -/
def length : ℕ := l.version.length + l.code.length + l.reason.length + 2

theorem version_text : statusVersion (l.text rest) = l.version ∧
    (l.text rest).dropWhile (fun c => c ≠ 32 ∧ c ≠ 9) =
      32::(l.code ++ 32::(l.reason ++ 13::10::rest)) := by
  apply takeWhile_stop _ (by decide)
  intro c hc
  obtain ⟨hspace,htab,-⟩ := l.version_plain c hc
  exact decide_eq_true ⟨hspace,htab⟩

theorem digit_not_blank {c : UInt8} (hc : 48 ≤ c ∧ c ≤ 57) : ¬ (c = 32 ∨ c = 9) := by
  rintro (rfl | rfl)
  · exact absurd hc.1 (by decide)
  · exact absurd hc.1 (by decide)

theorem code_text : statusBlanks (l.text rest) = [32] ∧
    statusCode (l.text rest) = l.code ++ 32::(l.reason ++ 13::10::rest) := by
  obtain ⟨c,cs,hcode⟩ := List.exists_cons_of_ne_nil l.code_ne
  have hblank : ¬ (c = 32 ∨ c = 9) := digit_not_blank (l.code_digits c (by simp [hcode]))
  rw [statusBlanks,statusCode,(l.version_text rest).2,hcode]
  simp [hblank]

theorem digits_text : statusDigits (statusCode (l.text rest)) = l.code := by
  rw [(l.code_text rest).2,statusDigits]
  refine (takeWhile_stop (fun c hc => ?_) (by decide)).1
  exact decide_eq_true (l.code_digits c hc)

theorem reason_text : reasonText (32::(l.reason ++ 13::10::rest)) = 32::l.reason ∧
    (32::(l.reason ++ 13::10::rest)).dropWhile (fun c => c ≠ 13 ∧ c ≠ 10 ∧ c ≠ 0) = 13::10::rest := by
  rw [reasonText,← List.cons_append]
  refine takeWhile_stop (fun c hc => ?_) (by decide)
  rw [List.mem_cons] at hc
  rcases hc with rfl | hc
  · decide
  · exact decide_eq_true (l.reason_plain c hc)

theorem drop_code : (statusCode (l.text rest)).drop (statusDigits (statusCode (l.text rest))).length =
    32::(l.reason ++ 13::10::rest) := by
  rw [l.digits_text,(l.code_text rest).2,List.drop_left]

theorem statusLength_text : statusLength (l.text rest) = l.length := by
  rw [statusLength,statusRest,drop_code,(l.version_text rest).1,(l.code_text rest).1,l.digits_text,
    (l.reason_text rest).1,length]
  simp only [List.length_cons,List.length_nil]
  omega

theorem statusBehind_text : statusBehind (l.text rest) = rest.dropWhile fun c => c = 13 ∨ c = 10 := by
  rw [statusBehind,drop_code,(l.reason_text rest).2]
  simp

end StatusLine

/-! ### A header line -/

/-- A header as it stands in a response, with any number of spaces behind its colon. -/
structure RespField where
  name : List UInt8
  gap : ℕ
  value : List UInt8
  name_ne : name ≠ []
  name_plain : ∀ c ∈ name, c ≠ 32 ∧ c ≠ 58 ∧ c ≠ 13 ∧ c ≠ 10 ∧ c ≠ 0
  value_plain : ∀ c ∈ value, c ≠ 13 ∧ c ≠ 10 ∧ c ≠ 0
  value_start : value.head? ≠ some 32

/-- The name of a line as it is looked up. -/
def fieldKey (name : List UInt8) : List UInt8 := name.map lower ++ [58]

/-- A line with a name, in front of its value. -/
def fieldText (name : List UInt8) (gap : ℕ) (w : List UInt8) : List UInt8 :=
  name ++ 58::(List.replicate gap 32 ++ w)

/-- The name is cut behind the colon, and the spaces behind it are skipped. -/
structure FieldRead (last : UInt8) (s name w : List UInt8) : Prop where
  skip : skipSpaces s = s
  token : respToken last s = fieldKey name
  rest : respRest last s = w

theorem fieldText_read (last : UInt8) {name w : List UInt8} (gap : ℕ) (hne : name ≠ [])
    (hname : ∀ c ∈ name, c ≠ 32 ∧ c ≠ 58) (hw : w.head? ≠ some 32) :
    FieldRead last (fieldText name gap w) name w := by
  have hstop := takeWhile_stop (w := List.replicate gap 32 ++ w)
    (fun c hc => decide_eq_true (hname c hc)) (show decide ((58 : UInt8) ≠ 32 ∧ (58 : UInt8) ≠ 58) = false by decide)
  have hrespName : respName (fieldText name gap w) = name := hstop.1
  have hdrop : (fieldText name gap w).drop name.length = 58::(List.replicate gap 32 ++ w) := by
    rw [fieldText,List.drop_left]
  have hcolon : respStop last (fieldText name gap w) = 58 := by
    rw [respStop,hrespName,hdrop]
    rfl
  have hspaces : skipSpaces (List.replicate gap 32 ++ w) = w := by
    rw [skipSpaces,List.dropWhile_append_of_pos]
    · cases w with
      | nil => rfl
      | cons c w =>
        rw [List.dropWhile_cons_of_neg]
        simpa using hw
    · intro c hc
      exact decide_eq_true (List.eq_of_mem_replicate hc)
  refine ⟨?_,?_,?_⟩
  · exact dropWhile_keep _ hne fun c hc => decide_eq_false (hname c hc).1
  · rw [respToken,hrespName,hcolon,if_pos rfl,fieldKey]
  · rw [respRest,hrespName,hdrop,hcolon,if_pos rfl,List.drop_succ_cons,List.drop_zero,hspaces]

theorem HoldsString.congr {m m' : Mem} {off : ℕ} {v : List UInt8} (h : HoldsString m off v)
    (hkept : ∀ j ≤ off + v.length, m' j = m j) : HoldsString m' off v := by
  refine ⟨(read_congr fun j _ hj => hkept j hj.le).trans h.1,?_⟩
  rw [hkept _ le_rfl,h.2]

/-- What the end of a line makes of the bytes before it. -/
structure EndRead (st st' : RespParse) (v rest : List UInt8) : Prop where
  rest : st'.s = rest
  pp : st'.pp = st.pp + v.length + 1
  nhline : st'.resp.nhline = st'.pp
  kept : ∀ j < st.pp, st'.resp.hlines j = st.resp.hlines j
  value : HoldsString st'.resp.hlines st.pp v
  same : st'.resp = { st.resp with hlines := st'.resp.hlines, nhline := st'.resp.nhline }

theorem respEndLine_read {st : RespParse} {v rest : List UInt8} (hs : st.s = v ++ 13::10::rest)
    (hv : 13 ∉ v) (hroom : st.pp + v.length < HTTP_HEADER_MAX) :
    EndRead st (respEndLine st) v rest := by
  have hplain : ∀ c ∈ v, decide (c ≠ 13) = true := fun c hc =>
    decide_eq_true (ne_of_mem_of_not_mem hc hv)
  have hstop := takeWhile_stop (w := 10::rest) hplain (show decide ((13 : UInt8) ≠ 13) = false by decide)
  have htake : st.s.takeWhile (· ≠ 13) = v := by rw [hs]; exact hstop.1
  have hdrop : st.s.dropWhile (· ≠ 13) = 13::10::rest := by rw [hs]; exact hstop.2
  rw [respEndLine,respCopyWhile_fits (by rw [htake]; exact hroom.le)]
  simp only [RespParse.copied,htake,hdrop,if_pos hroom]
  refine ⟨?_,rfl,rfl,?_,?_,rfl⟩
  · exact nextLine_drop (v := []) (by simp) rest
  · intro j hj
    dsimp only
    rw [Function.update_of_ne (by omega),write_apply_of_not_mem _ _ _ _ (.inl hj)]
  · exact holdsString_write _ _ _

/-- Where the end of a line does not fit, the parser stops. -/
theorem respEndLine_full (st : RespParse)
    (hfull : HTTP_HEADER_MAX ≤ st.pp + (st.s.takeWhile (· ≠ 13)).length) :
    (respEndLine st).s = [] ∧
      (respEndLine st).resp = { st.resp with hlines := (respEndLine st).resp.hlines } := by
  have hpp := respCopyWhile_full (· ≠ 13) hfull
  rw [respEndLine,if_neg (not_lt.2 hpp)]
  exact ⟨rfl,rfl⟩

/-- The number under which a name is found, less one. -/
def fieldIndex (name : List UInt8) : ℤ := mtrieGet httpHeadersMapInit (fieldKey name) - 1

theorem fieldKey_length (name : List UInt8) : (fieldKey name).length = name.length + 1 := by
  simp [fieldKey]

/-- The parser at the value of a line with a name. -/
def RespParse.enter (st : RespParse) (name w : List UInt8) : RespParse :=
  { st.setHeader (fieldIndex name) with s := w }

theorem RespParse.enter_pp (st : RespParse) (name w : List UInt8) : (st.enter name w).pp = st.pp :=
  (st.setHeader_eq (fieldIndex name)).2.1

theorem RespParse.enter_resp (st : RespParse) (name w : List UInt8) :
    (st.enter name w).resp = { st.resp with headers := (st.enter name w).resp.headers } :=
  (st.setHeader_eq (fieldIndex name)).2.2

/-- A line whose name is read. -/
theorem FieldRead.line {last : UInt8} {st : RespParse} {name w : List UInt8}
    (h : FieldRead last st.s name w) (hne : st.s ≠ []) : httpRespLine httpHeadersMapInit last st =
      if HTTP_HEAD_MAX ≤ name.length + 1 then .error .access
      else respSetCookie (fieldIndex name) last (st.enter name w) >>= fun st => .ok (respEndLine st) := by
  have hspaces : ¬ (st.s = [] ∧ last = 32) := fun hnil => hne hnil.1
  rw [httpRespLine_eq,RespParse.atValue,respIndex,h.skip,h.token,h.rest,if_neg hspaces,fieldKey_length]
  rfl

theorem FieldRead.line_plain {last : UInt8} {st : RespParse} {name w : List UInt8}
    (h : FieldRead last st.s name w) (hne : st.s ≠ []) (hlen : name.length + 1 < HTTP_HEAD_MAX)
    (hindex : fieldIndex name ≠ HEAD_RESP_SET_COOKIE) :
    httpRespLine httpHeadersMapInit last st = .ok (respEndLine (st.enter name w)) := by
  rw [h.line hne,if_neg (not_le.2 hlen),respSetCookie,if_neg hindex]
  rfl

namespace RespField

variable (f : RespField)

/-- The line with its CRLF, in front of the rest of the response. -/
def text (rest : List UInt8) : List UInt8 := fieldText f.name f.gap (f.value ++ 13::10::rest)

theorem text_ne (rest : List UInt8) : f.text rest ≠ [] := by simp [text,fieldText]

theorem read (last : UInt8) (rest : List UInt8) :
    FieldRead last (f.text rest) f.name (f.value ++ 13::10::rest) := by
  apply fieldText_read last f.gap f.name_ne
  · intro c hc
    obtain ⟨hspace,hcolon,-⟩ := f.name_plain c hc
    exact ⟨hspace,hcolon⟩
  · have hstart := f.value_start
    cases hvalue : f.value with
    | nil => simp
    | cons c v =>
      rw [hvalue] at hstart
      simpa using hstart

theorem value_line : 13 ∉ f.value := fun h => (f.value_plain 13 h).1 rfl

end RespField

/-- The blank line that may follow the headers. -/
def tailText (blank : Bool) : List UInt8 := if blank then [13,10] else []

theorem tail_index (last : UInt8) : respIndex last [13,10] = -1 := by
  have htoken : 13 ∈ respToken last [13,10] := by
    rw [respToken]
    split_ifs
    · decide
    · decide
  rw [respIndex,mtrieGet_cr htoken]
  rfl

/-- A run that only writes behind a place, and leaves headers and cookies alone. -/
structure Untouched (st st' : RespParse) : Prop where
  kept : ∀ j < st.pp, st'.resp.hlines j = st.resp.hlines j
  same : st'.resp = { st.resp with hlines := st'.resp.hlines, nhline := st'.resp.nhline }

theorem httpRespLoop_tail (last : UInt8) {st : RespParse} {blank : Bool} (hs : st.s = tailText blank) :
    ∃ st', httpRespLoop httpHeadersMapInit last st = .ok st' ∧ Untouched st st' := by
  cases blank with
  | false => exact ⟨st,httpRespLoop_nil hs,fun _ _ => rfl,rfl⟩
  | true =>
    have hline : st.s = [13,10] := hs
    have hskip : skipSpaces [13,10] = [13,10] := by decide
    have hrest : respRest last [13,10] = [] := by
      rw [respRest]
      split_ifs
      · decide
      · decide
    have htoken : ¬ HTTP_HEAD_MAX ≤ (respToken last [13,10]).length := by
      rw [respToken]
      split_ifs
      · decide
      · decide
    have hset : st.setHeader (-1) = st := rfl
    have hfull : httpRespLine httpHeadersMapInit last st = .ok (respEndLine { st with s := [] }) := by
      rw [httpRespLine_eq,RespParse.atValue,hline,hskip,tail_index,hrest,hset,if_neg (by simp),
        if_neg htoken,respSetCookie,if_neg (by decide)]
      rfl
    rw [httpRespLoop_cons (by simp [hline]),hfull]
    have hcopy : respCopyWhile (· ≠ 13) { st with s := [] } = { st with s := [] } := by
      simp [respCopyWhile]
    change ∃ st', httpRespLoop _ last (respEndLine { st with s := [] }) = _ ∧ _
    rw [respEndLine,hcopy]
    dsimp only
    split_ifs
    · refine ⟨_,httpRespLoop_nil (by simp [nextLine]),?_,rfl⟩
      intro j hj
      exact Function.update_of_ne hj.ne _ _
    · exact ⟨_,httpRespLoop_nil rfl,fun _ _ => rfl,rfl⟩

/-! ### Values -/

/-- A header of the table, other than `Set-Cookie`. -/
structure KnownField extends RespField where
  h : ℕ
  h_lt : h < HTTP_HEADER_NUM
  key_eq : fieldKey name = headerKey h
  not_cookie : (h : ℤ) ≠ HEAD_RESP_SET_COOKIE

namespace KnownField

variable (f : KnownField)

theorem index : fieldIndex f.name = f.h := by
  rw [fieldIndex,f.key_eq,mtrieGet_headerKey f.h_lt]

theorem name_short : f.name.length + 1 < HTTP_HEAD_MAX := by
  rw [← fieldKey_length,f.key_eq]
  exact headerKey_short f.h f.h_lt

end KnownField

/-- The lines of the headers. -/
def knownText (tail : List UInt8) : List KnownField → List UInt8
  | [] => tail
  | f::fs => f.toRespField.text (knownText tail fs)

/-- The room of the values in `hlines`. -/
def knownRoom (fs : List KnownField) : ℕ := (fs.map fun f => f.value.length + 1).sum

/-- The whole loop: every header finds its value behind the place where the loop begins. -/
theorem httpRespLoop_known (last : UInt8) (blank : Bool) (fs : List KnownField) {st : RespParse}
    (hs : st.s = knownText (tailText blank) fs) (hroom : st.pp + knownRoom fs ≤ HTTP_HEADER_MAX)
    (hdist : (fs.map KnownField.h).Nodup) :
    ∃ st', httpRespLoop httpHeadersMapInit last st = .ok st' ∧
      (∀ j < st.pp, st'.resp.hlines j = st.resp.hlines j) ∧
      (∀ h, h ∉ fs.map KnownField.h → st'.resp.headers h = st.resp.headers h) ∧
      ∀ f ∈ fs, HoldsString st'.resp.hlines (st'.resp.headers f.h) f.value := by
  induction fs generalizing st with
  | nil =>
    obtain ⟨st',hloop,hkept,hsame⟩ := httpRespLoop_tail last hs
    refine ⟨st',hloop,hkept,fun h _ => ?_,by simp⟩
    rw [hsame]
  | cons f fs ih =>
    rw [List.map_cons,List.nodup_cons] at hdist
    rw [knownRoom,List.map_cons,List.sum_cons,← knownRoom] at hroom
    have hne : st.s ≠ [] := by
      rw [hs]
      exact f.toRespField.text_ne _
    have hread := f.toRespField.read last (knownText (tailText blank) fs)
    change st.s = f.toRespField.text _ at hs
    rw [← hs] at hread
    have hline := hread.line_plain hne f.name_short (by rw [f.index]; exact f.not_cookie)
    have hpp := st.enter_pp f.name (f.value ++ 13::10::knownText (tailText blank) fs)
    have hresp := st.enter_resp f.name (f.value ++ 13::10::knownText (tailText blank) fs)
    have hend := respEndLine_read rfl f.toRespField.value_line
      (show (st.enter f.name (f.value ++ 13::10::knownText (tailText blank) fs)).pp +
        f.value.length < HTTP_HEADER_MAX by omega)
    have hstart := hend.pp
    have hheaders : (respEndLine (st.enter f.name
        (f.value ++ 13::10::knownText (tailText blank) fs))).resp.headers =
          Function.update st.resp.headers f.h st.pp := by
      rw [hend.same,RespParse.enter,RespParse.setHeader,f.index,if_neg (by omega)]
      rfl
    obtain ⟨st',hloop,hkept,hother,hvalues⟩ := ih hend.rest (by omega) hdist.2
    refine ⟨st',?_,?_,?_,?_⟩
    · rw [httpRespLoop_cons hne,hline]
      exact hloop
    · intro j hj
      rw [hkept j (by omega),hend.kept j (by omega),hresp]
    · intro h hh
      rw [List.map_cons,List.mem_cons,not_or] at hh
      rw [hother h hh.2,hheaders,Function.update_of_ne hh.1]
    · rw [List.forall_mem_cons]
      refine ⟨?_,hvalues⟩
      rw [hother f.h hdist.1,hheaders,Function.update_self]
      exact (hpp ▸ hend.value).congr fun j hj => hkept j (by omega)

/-! ### The whole parser -/

theorem httpStatusLine_fits (map : Mtrie) {p : List UInt8} (resp : HttpResponse)
    (hfit : statusLength p < HTTP_HEADER_MAX) : ∃ st, httpStatusLine map p resp = .ok st :=
  (httpStatusLine_inBounds map p resp).mpr hfit

/-- The status line of a response leaves its headers, and an empty record but for its own text. -/
theorem StatusLine.read (l : StatusLine) (rest : List UInt8) (hfit : l.length < HTTP_HEADER_MAX) :
    ∃ st, httpStatusLine httpHeadersMapInit (l.text rest) .zero = .ok st ∧
      st.s = rest.dropWhile (fun c => c = 13 ∨ c = 10) ∧ st.pp = l.length + 1 ∧
      st.resp = { HttpResponse.zero with hlines := st.resp.hlines, respid := st.resp.respid } := by
  rw [← l.statusLength_text rest] at hfit
  obtain ⟨st,hst⟩ := httpStatusLine_fits httpHeadersMapInit .zero hfit
  obtain ⟨hs,hpp,hlines,hresp⟩ := httpStatusLine_ok hst
  rw [l.statusBehind_text] at hs
  rw [l.statusLength_text] at hpp
  exact ⟨st,hst,hs,hpp,by rw [hresp]⟩

theorem dropWhile_field {name w : List UInt8} (gap : ℕ) (hne : name ≠ [])
    (hname : ∀ c ∈ name, c ≠ 13 ∧ c ≠ 10) :
    (fieldText name gap w).dropWhile (fun c => c = 13 ∨ c = 10) = fieldText name gap w := by
  apply dropWhile_keep _ hne
  intro c hc
  obtain ⟨hcr,hlf⟩ := hname c hc
  simp [hcr,hlf]

theorem knownText_start (blank : Bool) (fs : List KnownField) : ∃ blank',
    (knownText (tailText blank) fs).dropWhile (fun c => c = 13 ∨ c = 10) = knownText (tailText blank') fs := by
  cases fs with
  | nil =>
    refine ⟨false,?_⟩
    cases blank with
    | false => rfl
    | true => rfl
  | cons f fs =>
    refine ⟨blank,dropWhile_field f.gap f.name_ne fun c hc => ?_⟩
    obtain ⟨-,-,hcr,hlf,-⟩ := f.name_plain c hc
    exact ⟨hcr,hlf⟩

/-- The headers of a well-formed response that fits have their values. -/
theorem httpResponseParse_known (l : StatusLine) (fs : List KnownField) (blank : Bool) (last : UInt8)
    (hdist : (fs.map KnownField.h).Nodup) (hfit : l.length + 1 + knownRoom fs ≤ HTTP_HEADER_MAX) :
    ∃ r, httpResponseParse httpHeadersMapInit (l.text (knownText (tailText blank) fs)) last .zero =
        .ok r ∧ ∀ f ∈ fs, HoldsString r.1.hlines (r.1.headers f.h) f.value := by
  obtain ⟨st,hst,hs,hpp,-⟩ := l.read (knownText (tailText blank) fs) (by omega)
  obtain ⟨blank',htext⟩ := knownText_start blank fs
  obtain ⟨st',hloop,-,-,hvalues⟩ := httpRespLoop_known last blank' fs (hs.trans htext)
    (by rw [hpp]; exact hfit) hdist
  refine ⟨(st'.resp,st'.ret + 1),?_,hvalues⟩
  rw [httpResponseParse,hst]
  change httpRespLoop httpHeadersMapInit last st >>= _ = _
  rw [hloop]
  rfl

/-- The outcome that the parser is to have: no access is out of bounds, and in a well-formed response
that fits each header of the table has its value. -/
structure ResponseSafe (p : List UInt8) (last : UInt8) : Prop where
  inBounds : InBounds (httpResponseParse httpHeadersMapInit p last .zero)
  values : ∀ (l : StatusLine) (fs : List KnownField) (blank : Bool),
    p = l.text (knownText (tailText blank) fs) → (fs.map KnownField.h).Nodup →
      l.length + 1 + knownRoom fs ≤ HTTP_HEADER_MAX →
        ∃ r, httpResponseParse httpHeadersMapInit p last .zero = .ok r ∧
          ∀ f ∈ fs, HoldsString r.1.hlines (r.1.headers f.h) f.value

/-- For all bytes of a response and behind it, the parser stays in bounds and finds the values exactly
when the status line is shorter than `hlines` and every line that is reached fits. -/
theorem http_response_bounds_iff (p : List UInt8) (last : UInt8) :
    ResponseSafe p last ↔ statusLength p < HTTP_HEADER_MAX ∧ RespLinesFit p last := by
  rw [← httpResponseParse_inBounds]
  constructor
  · intro h
    exact h.inBounds
  · intro h
    refine ⟨h,?_⟩
    rintro l fs blank rfl hdist hfit
    exact httpResponseParse_known l fs blank last hdist hfit

/-- The status line `HTTP/1.0 200 OK`. -/
def okLine : StatusLine where
  version := ascii "HTTP/1.0"
  code := ascii "200"
  reason := ascii "OK"
  version_plain := by decide +kernel
  code_ne := by decide +kernel
  code_digits := by decide +kernel
  reason_plain := by decide +kernel

/-- The line `Set-Cookie: a=b`. -/
def bareCookie : List UInt8 := fieldText (ascii "Set-Cookie") 1 [97,61,98,13,10]

theorem bareCookie_read (last : UInt8) :
    FieldRead last bareCookie (ascii "Set-Cookie") [97,61,98,13,10] :=
  fieldText_read last 1 (by decide +kernel) (by decide +kernel) (by decide)

theorem fieldIndex_setCookie : fieldIndex (ascii "Set-Cookie") = HEAD_RESP_SET_COOKIE := by
  have hkey : fieldKey (ascii "Set-Cookie") = headerKey 48 := by decide +kernel
  rw [fieldIndex,hkey,mtrieGet_headerKey (by decide)]
  rfl

/-- Behind a cookie without attributes and the end of its line, `expires=` is sought past `end`. -/
theorem http_response_cookie_search : ¬ ResponseSafe (okLine.text bareCookie) 10 := by
  intro hsafe
  have hlines := ((httpResponseParse_inBounds _ 10).1 hsafe.inBounds).2
  obtain ⟨st,hst,hs,-,hresp⟩ := okLine.read bareCookie (by decide +kernel)
  have hskip : bareCookie.dropWhile (fun c => c = 13 ∨ c = 10) = bareCookie := by decide +kernel
  rw [hskip] at hs
  have hread := bareCookie_read 10
  have hindex : respIndex 10 (skipSpaces st.s) = HEAD_RESP_SET_COOKIE := by
    rw [hs,respIndex,hread.skip,hread.token,← fieldIndex,fieldIndex_setCookie]
  have hvalue : (st.atValue 10).s = [97,61,98,13,10] := by
    rw [RespParse.atValue,hs,hread.skip,hread.rest]
  have hrecord : (st.atValue 10).resp.ncookies = 0 ∧ (st.atValue 10).resp.cookieStart = 1 := by
    have hsame := (st.setHeader_eq (respIndex 10 (skipSpaces st.s))).2.2
    rw [HttpResponse.cookieStart,RespParse.atValue]
    dsimp only
    rw [hsame,hresp]
    exact ⟨rfl,rfl⟩
  have hfits := (hlines st st hst .refl (by rw [hs]; decide +kernel)).cookie hindex
  rw [hvalue,hrecord.1] at hfits
  rcases hfits with (hnil | hfull) | hfits
  · cases hnil
  · exact absurd hfull (by decide)
  · have hcookie := hfits.cookie [97] (by decide +kernel) (by simp) (by rw [hrecord.2]; decide)
    have hsearch := hcookie.expires.ends
    have hbytes : ∀ k hl, (valueCursor k [97] (cookieBytes [97,61,98,13,10] 10) hl).behind.m =
        [13,10,10] := fun k hl => rfl
    rw [hbytes] at hsearch
    exact absurd hsearch (by rw [SearchEnds]; decide +kernel)

end Sbase
