import Sbase.Http.CookieLine

/-! The `Set-Cookie` lines of a response: when each of them is recorded, and read without the bytes behind
it. -/
namespace Sbase
open Memory Relation

/-! ### Responses -/

/-- A line of a response: a cookie, or another header. -/
inductive RespLine
  | field (f : RespField) (other : fieldKey f.name ≠ headerKey 48)
  | cookie (c : SetCookie)

def RespLine.text (rest : List UInt8) : RespLine → List UInt8
  | .field f _ => f.text rest
  | .cookie c => c.text rest

/-- The lines, in front of a tail. -/
def linesText (tail : List UInt8) : List RespLine → List UInt8
  | [] => tail
  | l::ls => l.text (linesText tail ls)

def cookiesOf : List RespLine → List SetCookie
  | [] => []
  | .field _ _::ls => cookiesOf ls
  | .cookie c::ls => c::cookiesOf ls

/-- A well-formed response, with at most as many cookies as a record has room for. -/
structure CookieResponse where
  line : StatusLine
  lines : List RespLine
  blank : Bool
  few : (cookiesOf lines).length ≤ HTTP_COOKIES_MAX

def CookieResponse.text (r : CookieResponse) : List UInt8 :=
  r.line.text (linesText (tailText r.blank) r.lines)

/-- The record of a cookie has its own name, value and attributes, of length 0 where they are absent. -/
def CookieRecorded (resp : HttpResponse) (j : ℕ) (c : SetCookie) : Prop :=
  (resp.cookies j).Reads resp.hlines c.name c.value ((c.attr .expires).getD []) ((c.attr .path).getD [])
    ((c.attr .domain).getD [])

/-- Wherever the parser comes to a `Set-Cookie` line, the bytes of this line are enough to parse it: it
does the same in front of nothing but the LF of the line. -/
def LinesAlone (last : UInt8) (tail : List UInt8) (st : RespParse) (lines : List RespLine) : Prop :=
  ∀ st', ReflTransGen (RespStep last) st st' → ∀ pre c post, lines = pre ++ .cookie c::post →
    st'.s = linesText tail (.cookie c::post) →
      InBounds (httpRespLine httpHeadersMapInit 10 { st' with s := c.cut })

/-- The outcome that the parser is to have: one record for each `Set-Cookie` line, in their order, and
nothing behind a line is read for it. -/
structure CookieResponse.Right (r : CookieResponse) (last : UInt8) : Prop where
  recorded : ∃ x, httpResponseParse httpHeadersMapInit r.text last .zero = .ok x ∧
    x.1.ncookies = (cookiesOf r.lines).length ∧
      ∀ j c, (cookiesOf r.lines)[j]? = some c → CookieRecorded x.1 j c
  alone : ∀ st, httpStatusLine httpHeadersMapInit r.text .zero = .ok st →
    LinesAlone last (tailText r.blank) st r.lines

/-- The names of headers fit in `line`, and `hlines` has room up to the last cookie. Cookies are written
from `start` on, values from `pp` on. -/
def LinesRoom (start pp : ℕ) : List RespLine → Prop
  | [] => True
  | .field f _::ls => f.name.length + 1 < HTTP_HEAD_MAX ∧
      if pp + f.value.length < HTTP_HEADER_MAX then
        LinesRoom (pp + f.value.length + 1) (pp + f.value.length + 1) ls else cookiesOf ls = []
  | .cookie c::ls => start + c.size ≤ HTTP_HEADER_MAX ∧
      if start + c.size < HTTP_HEADER_MAX then
        LinesRoom (start + c.size + 1) (start + c.size + 1) ls else cookiesOf ls = []

/-! ### The end of a line -/

/-- The parser behind a line whose strings end at `stop`. -/
structure StopsAt (stop : ℕ) (rest : List UInt8) (st : RespParse) : Prop where
  next : stop < HTTP_HEADER_MAX → st.s = rest ∧ st.pp = stop + 1 ∧ st.resp.nhline = stop + 1
  full : HTTP_HEADER_MAX ≤ stop → st.s = []

/-- The end of a line that leaves the cookies as they are. -/
structure LineEnd (st st' : RespParse) (stop : ℕ) (rest : List UInt8) : Prop
    extends StopsAt stop rest st' where
  kept : ∀ j < st.pp, st'.resp.hlines j = st.resp.hlines j
  ncookies : st'.resp.ncookies = st.resp.ncookies
  cookies : st'.resp.cookies = st.resp.cookies

theorem respEndLine_kept (st : RespParse) :
    ∀ j < st.pp, (respEndLine st).resp.hlines j = st.resp.hlines j := by
  intro j hj
  rw [respEndLine]
  dsimp only
  split_ifs
  · simp only [respCopyWhile]
    rw [Function.update_of_ne (by omega),write_apply_of_not_mem _ _ _ _ (.inl hj)]
  · exact write_apply_of_not_mem _ _ _ _ (.inl hj)

theorem respEndLine_end (st : RespParse) {v rest : List UInt8} (hs : st.s = v ++ 13::10::rest)
    (hv : 13 ∉ v) : LineEnd st (respEndLine st) (st.pp + v.length) rest := by
  by_cases hroom : st.pp + v.length < HTTP_HEADER_MAX
  · have hend := respEndLine_read hs hv hroom
    refine ⟨⟨fun _ => ⟨hend.rest,hend.pp,by rw [hend.nhline,hend.pp]⟩,fun h => absurd hroom (not_lt.2 h)⟩,
      hend.kept,?_,?_⟩
    · rw [hend.same]
    · rw [hend.same]
  · have htake : st.s.takeWhile (· ≠ 13) = v := by
      rw [hs]
      exact (takeWhile_stop (fun b hb => decide_eq_true (ne_of_mem_of_not_mem hb hv)) (by decide)).1
    have hfull := respEndLine_full st (by rw [htake]; exact not_lt.1 hroom)
    refine ⟨⟨fun h => absurd h hroom,fun _ => hfull.1⟩,respEndLine_kept st,?_,?_⟩
    · rw [hfull.2]
    · rw [hfull.2]

/-- Only one key has the number of `Set-Cookie`. -/
theorem setCookie_number : ∀ kv ∈ httpKeys, kv.2 = 49 → kv.1 = headerKey 48 := by decide +kernel

theorem fieldIndex_other {name : List UInt8} (hother : fieldKey name ≠ headerKey 48) :
    fieldIndex name ≠ HEAD_RESP_SET_COOKIE := by
  intro hindex
  rw [fieldIndex,mtrieGet_httpHeadersMapInit,HEAD_RESP_SET_COOKIE] at hindex
  cases hlook : httpKeys.lookup (fieldKey name) with
  | none =>
    rw [hlook] at hindex
    exact absurd hindex (by decide)
  | some n =>
    rw [hlook,Option.getD_some] at hindex
    obtain ⟨l,k,hmem,-⟩ := List.lookup_eq_some_iff.1 hlook
    exact hother (setCookie_number (fieldKey name,n) (by simp [hmem]) (by omega))

/-- A line of another header whose name fits. -/
theorem RespField.line_end (f : RespField) (hother : fieldKey f.name ≠ headerKey 48) (last : UInt8)
    {st : RespParse} {rest : List UInt8} (hs : st.s = f.text rest)
    (hlen : f.name.length + 1 < HTTP_HEAD_MAX) :
    ∃ st', httpRespLine httpHeadersMapInit last st = .ok st' ∧
      LineEnd st st' (st.pp + f.value.length) rest := by
  have hread := f.read last rest
  rw [← hs] at hread
  have hne : st.s ≠ [] := by
    rw [hs]
    exact f.text_ne rest
  have hpp := st.enter_pp f.name (f.value ++ 13::10::rest)
  have hresp := st.enter_resp f.name (f.value ++ 13::10::rest)
  have hend := respEndLine_end (st.enter f.name (f.value ++ 13::10::rest)) rfl f.value_line
  rw [hpp] at hend
  refine ⟨_,hread.line_plain hne hlen (fieldIndex_other hother),hend.toStopsAt,?_,?_,?_⟩
  · intro j hj
    rw [hend.kept j (by omega),hresp]
  · rw [hend.ncookies,hresp]
  · rw [hend.cookies,hresp]

/-- A name that does not fit ends the run. -/
theorem RespField.line_long (f : RespField) (last : UInt8) {st : RespParse} {rest : List UInt8}
    (hs : st.s = f.text rest) (hlen : HTTP_HEAD_MAX ≤ f.name.length + 1) :
    httpRespLine httpHeadersMapInit last st = .error .access := by
  have hread := f.read last rest
  rw [← hs] at hread
  have hne : st.s ≠ [] := by
    rw [hs]
    exact f.text_ne rest
  rw [hread.line hne,if_pos hlen]

/-! ### A cookie line -/

theorem SetCookie.index (c : SetCookie) : fieldIndex c.header = HEAD_RESP_SET_COOKIE := by
  rw [fieldIndex,c.header_key,mtrieGet_headerKey (by decide)]
  rfl

theorem SetCookie.header_short (c : SetCookie) : ¬ HTTP_HEAD_MAX ≤ c.header.length + 1 := by
  rw [← fieldKey_length,c.header_key]
  decide +kernel

theorem SetCookie.fieldText_ne (c : SetCookie) (w : List UInt8) : fieldText c.header c.gap w ≠ [] := by
  simp [fieldText]

/-- The line of a cookie is left to `http_resp_cookie_parse`. -/
theorem SetCookie.line (c : SetCookie) (last : UInt8) {st : RespParse} {w : List UInt8}
    (hs : st.s = fieldText c.header c.gap (c.body w)) : httpRespLine httpHeadersMapInit last st =
      httpRespCookieParse (c.body w) last (st.enter c.header (c.body w)).resp >>= fun r =>
        .ok (respEndLine { st.enter c.header (c.body w) with
          s := (c.body w).drop r.2, pp := r.1.nhline, resp := r.1 }) := by
  have hread := c.fieldRead last w
  rw [← hs] at hread
  have hne : st.s ≠ [] := by
    rw [hs]
    exact c.fieldText_ne _
  rw [hread.line hne,if_neg c.header_short,respSetCookie,if_pos c.index,bind_assoc]
  rfl

theorem SetCookie.body_append (c : SetCookie) (w t : List UInt8) : c.body (w ++ t) = c.body w ++ t := by
  simp [body,Separated.behind_append]

/-- The parser looks for the name of the cookie in all bytes up to `end`. -/
theorem SetCookie.search (c : SetCookie) (w : List UInt8) :
    (c.body w).dropWhile (fun b => b = 32 ∨ b = 9) = c.body w ∧
      strchrEq (c.body w) = .ok (some c.name) := by
  constructor
  · apply dropWhile_keep _ c.name_ne
    intro b hb
    obtain ⟨-,hspace,htab,-⟩ := c.name_plain b hb
    exact decide_eq_false (by tauto)
  · have hstop : (c.body w).takeWhile (fun b => b ≠ 61 ∧ b ≠ 0) = c.name := by
      refine (takeWhile_stop (fun b hb => ?_) (by decide)).1
      obtain ⟨heq,-,-,-,-,-,hzero⟩ := c.name_plain b hb
      exact decide_eq_true ⟨heq,hzero⟩
    have hdrop : (c.body w).drop c.name.length = 61::(c.value ++ Separated.behind 59 w c.segments) := by
      rw [body,List.drop_left]
    rw [strchrEq,hstop,hdrop]
    rfl

theorem SetCookie.cookieParse (c : SetCookie) (w : List UInt8) (last : UInt8) (resp : HttpResponse)
    (hfew : resp.ncookies < HTTP_COOKIES_MAX) : httpRespCookieParse (c.body w) last resp =
      if resp.cookieStart < HTTP_HEADER_MAX then
        respCookie resp.cookieStart c.name (c.body (w ++ [last])) resp >>= fun r =>
          .ok (r.1,(c.body w).length + 1 - r.2.length)
      else .ok ({ resp with nhline := resp.cookieStart },0) := by
  have hbody : c.body w ≠ [] := by simp [body]
  have hskip : ¬ (c.body w = [] ∨ HTTP_COOKIES_MAX ≤ resp.ncookies) := by
    rw [not_or]
    exact ⟨hbody,not_le.2 hfew⟩
  obtain ⟨hblank,hname⟩ := c.search (w ++ [last])
  rw [httpRespCookieParse,if_neg hskip]
  dsimp only
  rw [← c.body_append,hblank,if_neg (by simp [body]),hname]
  by_cases hstart : resp.cookieStart < HTTP_HEADER_MAX
  · rw [if_pos hstart]
    exact if_pos ⟨c.name_ne,hstart⟩
  · rw [if_neg hstart]
    have hlen : (c.body w).length + 1 - (c.body (w ++ [last])).length = 0 := by
      rw [c.body_append,List.length_append]
      exact Nat.sub_self _
    rw [hlen]
    exact if_neg fun h => hstart h.2

/-- A cookie that is found is stored, and the parser is left before the CR that ends the line. -/
theorem SetCookie.Found.line {c : SetCookie} {e p d : List UInt8} (h : c.Found e p d) {last : UInt8}
    (st : RespParse) {w t : List UInt8} (hs : st.s = fieldText c.header c.gap (c.body w))
    (hw : w ++ [last] = 13::10::t) (hfew : st.resp.ncookies < HTTP_COOKIES_MAX)
    (hroom : st.resp.cookieStart + c.foundSize e p d ≤ HTTP_HEADER_MAX) :
    ∃ st1 : RespParse, httpRespLine httpHeadersMapInit last st = .ok (respEndLine st1) ∧
      st1.s = w ∧ st1.pp = st.resp.cookieStart + c.foundSize e p d ∧
        c.Stored st.resp.cookieStart e p d st.resp st1.resp := by
  have henter := st.enter_resp c.header (c.body w)
  have hstart : (st.enter c.header (c.body w)).resp.cookieStart = st.resp.cookieStart := by
    rw [HttpResponse.cookieStart,henter]
    rfl
  obtain ⟨resp',hresp,hstored⟩ := h.respCookie (st.enter c.header (c.body w)).resp hroom t
  have hlt : (st.enter c.header (c.body w)).resp.cookieStart < HTTP_HEADER_MAX := by
    rw [hstart]
    rw [SetCookie.foundSize] at hroom
    omega
  have hparse := c.cookieParse w last (st.enter c.header (c.body w)).resp (by rw [henter]; exact hfew)
  rw [if_pos hlt,hw,hstart,hresp] at hparse
  have hdrop : (c.body w).drop ((c.body w).length + 1 - (13::10::t).length) = w := by
    have hlen : (c.body w).length + 1 - (13::10::t).length = (c.body []).length := by
      rw [← hw,← List.nil_append w,c.body_append]
      simp only [List.length_append,List.length_cons,List.length_nil]
      omega
    rw [hlen,← List.nil_append w,c.body_append,List.nil_append,List.drop_left]
  rw [c.line last hs,hparse]
  refine ⟨_,rfl,hdrop,hstored.nhline,hstored.ncookies.trans ?_,hstored.nhline,?_,?_,?_⟩
  · rw [henter]
  · intro j hj
    rw [hstored.kept j hj,henter]
  · intro j hj
    rw [hstored.others j (by rw [henter]; exact hj),henter]
  · have hreads := hstored.reads
    rw [henter] at hreads
    exact hreads

/-- Where the line alone is enough, its cookie is found. -/
theorem SetCookie.line_cut {c : SetCookie} {st : RespParse} (hfew : st.resp.ncookies < HTTP_COOKIES_MAX)
    (hstart : st.resp.cookieStart < HTTP_HEADER_MAX)
    (h : InBounds (httpRespLine httpHeadersMapInit 10 { st with s := c.cut })) :
    ∃ e p d, c.Found e p d ∧ st.resp.cookieStart + c.foundSize e p d ≤ HTTP_HEADER_MAX := by
  have henter := RespParse.enter_resp { st with s := c.cut } c.header (c.body [13])
  have hstart' : (RespParse.enter { st with s := c.cut } c.header (c.body [13])).resp.cookieStart =
      st.resp.cookieStart := by
    rw [HttpResponse.cookieStart,henter]
    rfl
  have hparse := c.cookieParse [13] 10
    (RespParse.enter { st with s := c.cut } c.header (c.body [13])).resp (by rw [henter]; exact hfew)
  rw [if_pos (hstart'.trans_lt hstart)] at hparse
  rw [c.line 10 rfl,inBounds_bind,hparse,inBounds_bind] at h
  have hfound := SetCookie.respCookie_cut h.1.1
  rwa [hstart'] at hfound

/-- The line of a cookie that is found. -/
structure CookieEnd (c : SetCookie) (e p d rest : List UInt8) (st st' : RespParse) : Prop
    extends StopsAt (st.resp.cookieStart + c.foundSize e p d) rest st' where
  kept : ∀ j < st.resp.cookieStart, st'.resp.hlines j = st.resp.hlines j
  ncookies : st'.resp.ncookies = st.resp.ncookies + 1
  others : ∀ j ≠ st.resp.ncookies, st'.resp.cookies j = st.resp.cookies j
  reads : ∀ hlines : Mem, (∀ j < st.resp.cookieStart + c.foundSize e p d,
    hlines j = st'.resp.hlines j) → (st'.resp.cookies st.resp.ncookies).Reads hlines c.name c.value e p d

theorem SetCookie.Found.line_end {c : SetCookie} {e p d : List UInt8} (h : c.Found e p d) (last : UInt8)
    {st : RespParse} {rest : List UInt8} (hs : st.s = c.text rest)
    (hfew : st.resp.ncookies < HTTP_COOKIES_MAX)
    (hroom : st.resp.cookieStart + c.foundSize e p d ≤ HTTP_HEADER_MAX) :
    ∃ st', httpRespLine httpHeadersMapInit last st = .ok st' ∧ CookieEnd c e p d rest st st' := by
  obtain ⟨st1,hline,hs1,hpp,hstored⟩ := h.line st hs rfl hfew hroom
  have hend := respEndLine_end st1 (hs1.trans (List.nil_append _).symm) List.not_mem_nil
  rw [List.length_nil,Nat.add_zero,hpp] at hend
  refine ⟨_,hline,hend.toStopsAt,?_,?_,?_,?_⟩
  · intro j hj
    rw [hend.kept j (by omega),hstored.kept j hj]
  · rw [hend.ncookies,hstored.ncookies]
  · intro j hj
    rw [hend.cookies,hstored.others j hj]
  · intro hlines hsame
    rw [hend.cookies]
    apply hstored.reads
    intro j hj
    rw [hstored.nhline] at hj
    rw [hsame j hj,hend.kept j (by omega)]

/-- The line of a cookie that is found is enough. -/
theorem SetCookie.Found.line_alone {c : SetCookie} {e p d : List UInt8} (h : c.Found e p d)
    {st : RespParse} (hfew : st.resp.ncookies < HTTP_COOKIES_MAX)
    (hroom : st.resp.cookieStart + c.foundSize e p d ≤ HTTP_HEADER_MAX) :
    InBounds (httpRespLine httpHeadersMapInit 10 { st with s := c.cut }) := by
  obtain ⟨st1,hline,-⟩ := h.line { st with s := c.cut } (t := []) rfl rfl hfew hroom
  rw [hline]
  exact inBounds_ok _

/-- Where `hlines` is full, the cookie is skipped and the parser stops. -/
theorem SetCookie.line_full (c : SetCookie) (last : UInt8) {st : RespParse} {rest : List UInt8}
    (hs : st.s = c.text rest) (hfew : st.resp.ncookies < HTTP_COOKIES_MAX)
    (hfull : HTTP_HEADER_MAX ≤ st.resp.cookieStart) :
    ∃ st', httpRespLine httpHeadersMapInit last st = .ok st' ∧ st'.s = [] ∧
      st'.resp.ncookies = st.resp.ncookies := by
  have henter := st.enter_resp c.header (c.body (13::10::rest))
  have hstart : (st.enter c.header (c.body (13::10::rest))).resp.cookieStart = st.resp.cookieStart := by
    rw [HttpResponse.cookieStart,henter]
    rfl
  have hparse := c.cookieParse (13::10::rest) last
    (st.enter c.header (c.body (13::10::rest))).resp (by rw [henter]; exact hfew)
  rw [if_neg (by rw [hstart]; exact not_lt.2 hfull),hstart] at hparse
  rw [c.line last hs,hparse]
  refine ⟨_,rfl,?_⟩
  have hend := respEndLine_full { st.enter c.header (c.body (13::10::rest)) with
    s := (c.body (13::10::rest)).drop 0, pp := st.resp.cookieStart, resp := { (st.enter c.header
      (c.body (13::10::rest))).resp with nhline := st.resp.cookieStart } } (by dsimp only; omega)
  refine ⟨hend.1,?_⟩
  rw [hend.2]
  dsimp only
  rw [henter]

/-! ### The loop over the lines -/

theorem RespLine.text_ne (l : RespLine) (rest : List UInt8) : l.text rest ≠ [] := by
  cases l with
  | field f _ => exact f.text_ne rest
  | cookie c => exact c.fieldText_ne _

theorem SetCookie.length_body (c : SetCookie) (w : List UInt8) : w.length < (c.body w).length := by
  have happend := c.body_append [] w
  rw [List.nil_append] at happend
  rw [happend,List.length_append,body]
  simp only [List.length_append,List.length_cons]
  omega

theorem RespLine.length_text (l : RespLine) (rest : List UInt8) : rest.length < (l.text rest).length := by
  cases l with
  | field f _ =>
    simp only [text,RespField.text,fieldText,List.length_append,List.length_cons]
    omega
  | cookie c =>
    have hbody := c.length_body (13::10::rest)
    simp only [text,SetCookie.text,fieldText,List.length_append,List.length_cons] at hbody ⊢
    omega

/-- Fewer lines are a shorter text. -/
theorem linesText_length (tail : List UInt8) (pre post : List RespLine) :
    (linesText tail post).length ≤ (linesText tail (pre ++ post)).length := by
  induction pre with
  | nil => exact le_rfl
  | cons l pre ih =>
    have hline := l.length_text (linesText tail (pre ++ post))
    rw [List.cons_append,linesText]
    omega

theorem respRun_length {last : UInt8} {st st' : RespParse} (h : ReflTransGen (RespStep last) st st') :
    st'.s.length ≤ st.s.length := by
  induction h with
  | refl => exact le_rfl
  | tail _ hstep ih => exact (httpRespLine_length hstep.2 hstep.1).le.trans ih

/-- From a line on, the lines are read alone when it is, and then those behind it. -/
theorem linesAlone_cons {last : UInt8} {tail : List UInt8} {st st1 : RespParse} {l : RespLine}
    {ls : List RespLine} (hs : st.s = linesText tail (l::ls)) (hstep : RespStep last st st1) :
    LinesAlone last tail st (l::ls) ↔
      (∀ c, l = .cookie c → InBounds (httpRespLine httpHeadersMapInit 10 { st with s := c.cut })) ∧
        LinesAlone last tail st1 ls := by
  constructor
  · intro h
    refine ⟨?_,?_⟩
    · rintro c rfl
      exact h st .refl [] c ls rfl hs
    · intro st' hrun pre c post hls hs'
      exact h st' (.head hstep hrun) (l::pre) c post (by rw [hls]; rfl) hs'
  · rintro ⟨hline,hrest⟩ st' hrun pre c post hls hs'
    cases pre with
    | nil =>
      injection hls with hl hls
      rcases ReflTransGen.cases_head hrun with rfl | ⟨st2,hstep',hrun'⟩
      · exact hline c hl
      · have hlen := respRun_length hrun'
        have hlt := httpRespLine_length hstep'.2 hstep'.1
        rw [hs',← hl,← hls,← hs] at hlen
        omega
    | cons l' pre =>
      injection hls with hl hls
      rcases ReflTransGen.cases_head hrun with rfl | ⟨st2,hstep',hrun'⟩
      · have hlen := linesText_length tail pre (.cookie c::post)
        have htext := l.length_text (linesText tail ls)
        change ls = pre ++ .cookie c::post at hls
        rw [← hls,← hs',hs,linesText] at hlen
        omega
      · cases hstep.2.symm.trans hstep'.2
        exact hrest st' hrun' pre c post hls hs'

theorem linesAlone_stopped {last : UInt8} {tail : List UInt8} {st : RespParse} (hs : st.s = [])
    (ls : List RespLine) : LinesAlone last tail st ls := by
  intro st' hrun pre c post _ hs'
  have hlen := respRun_length hrun
  rw [hs,List.length_nil,Nat.le_zero,List.length_eq_zero_iff] at hlen
  exact absurd (hs'.symm.trans hlen) (RespLine.text_ne _ _)

/-- A run over the lines that leaves the bytes before `k` and the cookies before its own, and records its
own in their order. -/
structure LoopRead (last : UInt8) (k : ℕ) (st st' : RespParse) (lines : List RespLine) : Prop where
  run : httpRespLoop httpHeadersMapInit last st = .ok st'
  kept : ∀ j < k, st'.resp.hlines j = st.resp.hlines j
  others : ∀ j < st.resp.ncookies, st'.resp.cookies j = st.resp.cookies j
  ncookies : st'.resp.ncookies = st.resp.ncookies + (cookiesOf lines).length
  recorded : ∀ j c, (cookiesOf lines)[j]? = some c → CookieRecorded st'.resp (st.resp.ncookies + j) c

theorem loopRead_stopped {last : UInt8} {st : RespParse} {ls : List RespLine} (hs : st.s = [])
    (hnone : cookiesOf ls = []) (k : ℕ) : LoopRead last k st st ls := by
  refine ⟨httpRespLoop_nil hs,fun _ _ => rfl,fun _ _ => rfl,?_,?_⟩
  · rw [hnone]
    rfl
  · rw [hnone]
    simp

theorem LoopRead.field {last : UInt8} {k stop : ℕ} {st st1 st' : RespParse} {rest : List UInt8}
    {ls : List RespLine} (h : LoopRead last (stop + 1) st1 st' ls) (hstep : RespStep last st st1)
    (hend : LineEnd st st1 stop rest) (hk : k ≤ st.pp) (hstop : st.pp ≤ stop) (f : RespField)
    (hother : fieldKey f.name ≠ headerKey 48) : LoopRead last k st st' (.field f hother::ls) := by
  refine ⟨?_,?_,?_,?_,?_⟩
  · rw [httpRespLoop_cons hstep.1,hstep.2]
    exact h.run
  · intro j hj
    rw [h.kept j (by omega),hend.kept j (by omega)]
  · intro j hj
    rw [h.others j (by rw [hend.ncookies]; exact hj),hend.cookies]
  · rw [h.ncookies,hend.ncookies]
    rfl
  · intro j c hc
    have hrecorded := h.recorded j c hc
    rwa [hend.ncookies] at hrecorded

theorem LoopRead.cookie {last : UInt8} {c : SetCookie} {e p d rest : List UInt8}
    {st st1 st' : RespParse} {ls : List RespLine}
    (h : LoopRead last (st.resp.cookieStart + c.foundSize e p d + 1) st1 st' ls)
    (hstep : RespStep last st st1) (hend : CookieEnd c e p d rest st st1)
    (he : (c.attr .expires).getD [] = e) (hp : (c.attr .path).getD [] = p)
    (hd : (c.attr .domain).getD [] = d) : LoopRead last st.resp.cookieStart st st' (.cookie c::ls) := by
  have hncookies := hend.ncookies
  refine ⟨?_,?_,?_,?_,?_⟩
  · rw [httpRespLoop_cons hstep.1,hstep.2]
    exact h.run
  · intro j hj
    rw [h.kept j (by omega),hend.kept j hj]
  · intro j hj
    rw [h.others j (by omega),hend.others j hj.ne]
  · rw [h.ncookies,hend.ncookies,cookiesOf,List.length_cons]
    omega
  · intro j c' hc
    cases j with
    | zero =>
      cases hc
      rw [CookieRecorded,Nat.add_zero,h.others _ (by omega),he,hp,hd]
      exact hend.reads _ fun j hj => h.kept j (by omega)
    | succ j =>
      have hrecorded := h.recorded j c' hc
      rwa [hncookies,Nat.add_assoc,Nat.add_comm 1 j] at hrecorded

theorem cookieStart_of {st : RespParse} {k : ℕ} (h : st.resp.nhline = k + 1) :
    st.resp.cookieStart = k + 1 := by
  rw [HttpResponse.cookieStart,h,if_neg (by omega)]

/-- Complete lines with room for them are recorded, each read alone. -/
def LinesReadable (last : UInt8) (blank : Bool) (lines : List RespLine) : Prop :=
  ∀ st : RespParse, st.s = linesText (tailText blank) lines → st.resp.cookieStart ≤ st.pp →
    st.resp.ncookies + (cookiesOf lines).length ≤ HTTP_COOKIES_MAX →
      (∀ c ∈ cookiesOf lines, c.Complete) → LinesRoom st.resp.cookieStart st.pp lines →
        (∃ st', LoopRead last st.resp.cookieStart st st' lines) ∧
          LinesAlone last (tailText blank) st lines

/-- The lines behind one whose strings end at `stop`. -/
theorem LinesReadable.behind {last : UInt8} {blank : Bool} {ls : List RespLine}
    (h : LinesReadable last blank ls) {st : RespParse} {stop : ℕ}
    (hend : StopsAt stop (linesText (tailText blank) ls) st)
    (hfew : st.resp.ncookies + (cookiesOf ls).length ≤ HTTP_COOKIES_MAX)
    (hcomplete : ∀ c ∈ cookiesOf ls, c.Complete)
    (hroom : if stop < HTTP_HEADER_MAX then LinesRoom (stop + 1) (stop + 1) ls else cookiesOf ls = []) :
    (∃ st', LoopRead last (stop + 1) st st' ls) ∧ LinesAlone last (tailText blank) st ls := by
  split_ifs at hroom with hfit
  · obtain ⟨hs,hpp,hnhline⟩ := hend.next hfit
    have hstart := cookieStart_of hnhline
    have hread := h st hs (by omega) hfew hcomplete (by rwa [hstart,hpp])
    rwa [hstart] at hread
  · have hs := hend.full (not_lt.1 hfit)
    exact ⟨⟨st,loopRead_stopped hs hroom _⟩,linesAlone_stopped hs ls⟩

theorem linesReadable (last : UInt8) (blank : Bool) (lines : List RespLine) :
    LinesReadable last blank lines := by
  induction lines with
  | nil =>
    intro st hs hstart _ _ _
    obtain ⟨st',hloop,hkept,hsame⟩ := httpRespLoop_tail last hs
    refine ⟨⟨st',hloop,fun j hj => hkept j (by omega),?_,?_,?_⟩,?_⟩
    · intro j _
      rw [hsame]
    · rw [hsame]
      rfl
    · intro j c hc
      cases hc
    · intro st' _ pre c post hnil
      exact absurd hnil (by simp)
  | cons l ls ih =>
    intro st hs hstart hfew hcomplete hroom
    have hne : st.s ≠ [] := by
      rw [hs]
      exact l.text_ne _
    cases l with
    | field f hother =>
      obtain ⟨hlen,hroom⟩ := hroom
      obtain ⟨st1,hline,hend⟩ := f.line_end hother last hs hlen
      have hstep : RespStep last st st1 := ⟨hne,hline⟩
      obtain ⟨⟨st',hread⟩,halone⟩ := ih.behind hend.toStopsAt (by rw [hend.ncookies]; exact hfew)
        hcomplete hroom
      refine ⟨⟨st',hread.field hstep hend hstart (Nat.le_add_right _ _) f hother⟩,?_⟩
      rw [linesAlone_cons hs hstep]
      exact ⟨fun c hc => (RespLine.noConfusion hc),halone⟩
    | cookie c =>
      rw [cookiesOf,List.length_cons] at hfew
      rw [cookiesOf,List.forall_mem_cons] at hcomplete
      obtain ⟨hsize,hroom⟩ := hroom
      obtain ⟨e,p,d,hfound,hfoundSize,he,hp,hd⟩ := hcomplete.1.found
      rw [← hfoundSize] at hsize hroom
      obtain ⟨st1,hline,hend⟩ := hfound.line_end last hs (by omega) hsize
      have hstep : RespStep last st st1 := ⟨hne,hline⟩
      obtain ⟨⟨st',hread⟩,halone⟩ := ih.behind hend.toStopsAt (by rw [hend.ncookies]; omega)
        hcomplete.2 hroom
      refine ⟨⟨st',hread.cookie hstep hend (by rw [he]; rfl) (by rw [hp]; rfl) (by rw [hd]; rfl)⟩,?_⟩
      rw [linesAlone_cons hs hstep]
      refine ⟨?_,halone⟩
      rintro c' hc
      cases hc
      exact hfound.line_alone (by omega) hsize

/-! ### What the outcome asks of the lines -/

/-- The cookies of the lines are recorded behind those that are there. -/
structure LinesRecorded (last : UInt8) (st st' : RespParse) (lines : List RespLine) : Prop where
  run : httpRespLoop httpHeadersMapInit last st = .ok st'
  ncookies : st'.resp.ncookies = st.resp.ncookies + (cookiesOf lines).length
  recorded : ∀ j c, (cookiesOf lines)[j]? = some c → CookieRecorded st'.resp (st.resp.ncookies + j) c

/-- Lines are complete and have room when they are recorded and read alone. -/
def LinesForced (last : UInt8) (blank : Bool) (lines : List RespLine) : Prop :=
  ∀ st st' : RespParse, st.s = linesText (tailText blank) lines → st.resp.cookieStart ≤ st.pp →
    st.resp.ncookies + (cookiesOf lines).length ≤ HTTP_COOKIES_MAX →
      LinesRecorded last st st' lines → LinesAlone last (tailText blank) st lines →
        (∀ c ∈ cookiesOf lines, c.Complete) ∧ LinesRoom st.resp.cookieStart st.pp lines

theorem LinesForced.behind {last : UInt8} {blank : Bool} {ls : List RespLine}
    (h : LinesForced last blank ls) {st st' : RespParse} {stop : ℕ}
    (hend : StopsAt stop (linesText (tailText blank) ls) st)
    (hfew : st.resp.ncookies + (cookiesOf ls).length ≤ HTTP_COOKIES_MAX)
    (hrecorded : LinesRecorded last st st' ls) (halone : LinesAlone last (tailText blank) st ls) :
    (∀ c ∈ cookiesOf ls, c.Complete) ∧
      if stop < HTTP_HEADER_MAX then LinesRoom (stop + 1) (stop + 1) ls else cookiesOf ls = [] := by
  split_ifs with hfit
  · obtain ⟨hs,hpp,hnhline⟩ := hend.next hfit
    have hstart := cookieStart_of hnhline
    have hforced := h st st' hs (by omega) hfew hrecorded halone
    rwa [hstart,hpp] at hforced
  · have hs := hend.full (not_lt.1 hfit)
    have hncookies := hrecorded.ncookies
    cases (httpRespLoop_nil hs).symm.trans hrecorded.run
    have hnone : cookiesOf ls = [] := List.length_eq_zero_iff.1 (by omega)
    refine ⟨?_,hnone⟩
    rw [hnone]
    simp

/-- The lines behind another header. -/
theorem LinesRecorded.behind_field {last : UInt8} {st st1 st' : RespParse} {stop : ℕ} {rest : List UInt8}
    {f : RespField} {hother : fieldKey f.name ≠ headerKey 48} {ls : List RespLine}
    (h : LinesRecorded last st st' (.field f hother::ls)) (hstep : RespStep last st st1)
    (hend : LineEnd st st1 stop rest) : LinesRecorded last st1 st' ls := by
  have hrun := h.run
  rw [httpRespLoop_cons hstep.1,hstep.2] at hrun
  refine ⟨hrun,?_,?_⟩
  · rw [hend.ncookies]
    exact h.ncookies
  · rw [hend.ncookies]
    exact h.recorded

/-- The lines behind a cookie. -/
theorem LinesRecorded.behind_cookie {last : UInt8} {st st1 st' : RespParse} {c : SetCookie}
    {e p d rest : List UInt8} {ls : List RespLine} (h : LinesRecorded last st st' (.cookie c::ls))
    (hstep : RespStep last st st1) (hend : CookieEnd c e p d rest st st1) :
    LinesRecorded last st1 st' ls := by
  have hrun := h.run
  rw [httpRespLoop_cons hstep.1,hstep.2] at hrun
  refine ⟨hrun,?_,?_⟩
  · rw [hend.ncookies,h.ncookies,cookiesOf,List.length_cons]
    omega
  · intro j c' hc
    have hrecorded := h.recorded (j + 1) c' hc
    rwa [hend.ncookies,Nat.add_assoc,Nat.add_comm 1 j]

theorem linesForced (last : UInt8) (blank : Bool) (lines : List RespLine) :
    LinesForced last blank lines := by
  induction lines with
  | nil =>
    intro st st' _ _ _ _ _
    exact ⟨by simp [cookiesOf],trivial⟩
  | cons l ls ih =>
    intro st st' hs hstart hfew hrecorded halone
    have hne : st.s ≠ [] := by
      rw [hs]
      exact l.text_ne _
    have hrun := hrecorded.run
    rw [httpRespLoop_cons hne] at hrun
    cases l with
    | field f hother =>
      have hlen : f.name.length + 1 < HTTP_HEAD_MAX := by
        by_contra hlong
        rw [f.line_long last hs (not_lt.1 hlong)] at hrun
        cases hrun
      obtain ⟨st1,hline,hend⟩ := f.line_end hother last hs hlen
      have hstep : RespStep last st st1 := ⟨hne,hline⟩
      have halone1 := ((linesAlone_cons hs hstep).1 halone).2
      obtain ⟨hcomplete,hroom⟩ := ih.behind hend.toStopsAt (by rw [hend.ncookies]; exact hfew)
        (hrecorded.behind_field hstep hend) halone1
      exact ⟨hcomplete,hlen,hroom⟩
    | cookie c =>
      have hcount := hrecorded.ncookies
      rw [cookiesOf,List.length_cons] at hfew hcount
      have hfit : st.resp.cookieStart < HTTP_HEADER_MAX := by
        by_contra hfull
        obtain ⟨st1,hline,hs1,hncookies⟩ := c.line_full last hs (by omega) (not_lt.1 hfull)
        rw [hline] at hrun
        cases (httpRespLoop_nil hs1).symm.trans hrun
        omega
      have hcut := halone st .refl [] c ls rfl hs
      obtain ⟨e,p,d,hfound,hsize⟩ := SetCookie.line_cut (by omega) hfit hcut
      obtain ⟨st1,hline,hend⟩ := hfound.line_end last hs (by omega) hsize
      have hstep : RespStep last st st1 := ⟨hne,hline⟩
      have hrecorded1 := hrecorded.behind_cookie hstep hend
      have halone1 := ((linesAlone_cons hs hstep).1 halone).2
      have hfew1 : st1.resp.ncookies + (cookiesOf ls).length ≤ HTTP_COOKIES_MAX := by
        rw [hend.ncookies]
        omega
      obtain ⟨hcomplete,hroom⟩ := ih.behind hend.toStopsAt hfew1 hrecorded1 halone1
      -- The run behind the line leaves the record of the cookie.
      obtain ⟨⟨st2,hread⟩,-⟩ := (linesReadable last blank ls).behind hend.toStopsAt hfew1 hcomplete hroom
      obtain rfl : st' = st2 := Except.ok.inj (hrecorded1.run.symm.trans hread.run)
      have hown := hrecorded.recorded 0 c rfl
      have hreads := hend.reads st'.resp.hlines fun j hj => hread.kept j (by omega)
      rw [CookieRecorded,Nat.add_zero,hread.others _ (by rw [hend.ncookies]; omega)] at hown
      have he := hown.expires.symm.trans hreads.expires
      have hp := hown.path.symm.trans hreads.path
      have hd := hown.domain.symm.trans hreads.domain
      have hc := hfound.complete he hp hd
      obtain ⟨e',p',d',-,hsize',he',hp',hd'⟩ := hc.found
      rw [he',Option.getD_some] at he
      rw [hp',Option.getD_some] at hp
      rw [hd',Option.getD_some] at hd
      rw [← he,← hp,← hd,hsize'] at hsize hroom
      exact ⟨List.forall_mem_cons.2 ⟨hc,hcomplete⟩,hsize,hroom⟩

/-! ### Whole responses -/

/-- Behind the status line, the ends of lines that are skipped leave the lines as they are. -/
theorem linesText_start (blank : Bool) (l : RespLine) (ls : List RespLine) :
    (linesText (tailText blank) (l::ls)).dropWhile (fun c => c = 13 ∨ c = 10) =
      linesText (tailText blank) (l::ls) := by
  cases l with
  | field f _ =>
    refine dropWhile_field f.gap f.name_ne fun c hc => ?_
    obtain ⟨-,-,hcr,hlf,-⟩ := f.name_plain c hc
    exact ⟨hcr,hlf⟩
  | cookie c =>
    refine dropWhile_field c.gap c.header_ne fun b hb => ?_
    obtain ⟨-,-,hcr,hlf⟩ := c.header_plain b hb
    exact ⟨hcr,hlf⟩

theorem tailText_start (blank : Bool) :
    (tailText blank).dropWhile (fun c => c = 13 ∨ c = 10) = tailText false := by
  cases blank with
  | false => rfl
  | true => rfl

namespace CookieResponse

variable (r : CookieResponse) (last : UInt8)

/-- The lines of a response with the blank line that is left behind its status line. -/
theorem lines_start : ∃ blank, (linesText (tailText r.blank) r.lines).dropWhile
    (fun c => c = 13 ∨ c = 10) = linesText (tailText blank) r.lines ∧
      (r.lines = [] ∨ blank = r.blank) := by
  cases r.lines with
  | nil => exact ⟨false,tailText_start r.blank,.inl rfl⟩
  | cons l ls => exact ⟨r.blank,linesText_start r.blank l ls,.inr rfl⟩

/-- The parser behind the status line of a response. -/
theorem start (hfit : r.line.length < HTTP_HEADER_MAX) : ∃ st blank,
    httpStatusLine httpHeadersMapInit r.text .zero = .ok st ∧
      st.s = linesText (tailText blank) r.lines ∧ (r.lines = [] ∨ blank = r.blank) ∧
        st.pp = r.line.length + 1 ∧ st.resp.cookieStart = 1 ∧ st.resp.ncookies = 0 := by
  obtain ⟨st,hst,hs,hpp,hresp⟩ := r.line.read (linesText (tailText r.blank) r.lines) hfit
  obtain ⟨blank,htext,hblank⟩ := r.lines_start
  refine ⟨st,blank,hst,hs.trans htext,hblank,hpp,?_,?_⟩
  · rw [HttpResponse.cookieStart,hresp]
    rfl
  · rw [hresp]
    rfl

theorem parse_eq {st : RespParse} (hst : httpStatusLine httpHeadersMapInit r.text .zero = .ok st) :
    httpResponseParse httpHeadersMapInit r.text last .zero =
      httpRespLoop httpHeadersMapInit last st >>= fun st => .ok (st.resp,st.ret + 1) := by
  rw [httpResponseParse,hst]
  rfl

theorem alone_blank {last : UInt8} {blank : Bool} {st : RespParse}
    (hblank : r.lines = [] ∨ blank = r.blank) : LinesAlone last (tailText blank) st r.lines ↔
      LinesAlone last (tailText r.blank) st r.lines := by
  rcases hblank with hnil | rfl
  · rw [hnil]
    refine iff_of_true ?_ ?_
    · intro st' _ pre c post hlines
      exact absurd hlines (by simp)
    · intro st' _ pre c post hlines
      exact absurd hlines (by simp)
  · exact Iff.rfl

/-- A status line that does not fit ends the run. -/
theorem line_fits {r : CookieResponse} {last : UInt8} (h : r.Right last) :
    r.line.length < HTTP_HEADER_MAX := by
  obtain ⟨x,hx,-⟩ := h.recorded
  have hin : InBounds (httpResponseParse httpHeadersMapInit r.text last .zero) := by
    rw [hx]
    exact inBounds_ok x
  have hline := ((httpResponseParse_inBounds _ _).1 hin).1
  rwa [text,r.line.statusLength_text] at hline

/-- The lines of a response that is read as it should be are complete. -/
theorem Right.lines {r : CookieResponse} {last : UInt8} (h : r.Right last) :
    (∀ c ∈ cookiesOf r.lines, c.Complete) ∧ LinesRoom 1 (r.line.length + 1) r.lines := by
  obtain ⟨st,blank,hst,hs,hblank,hpp,hstart,hncookies⟩ := r.start (line_fits h)
  obtain ⟨x,hx,hcount,hrecorded⟩ := h.recorded
  rw [r.parse_eq last hst] at hx
  obtain ⟨st',hrun,hx⟩ := bind_ok_iff.1 hx
  cases hx
  have hlines : LinesRecorded last st st' r.lines := by
    refine ⟨hrun,?_,?_⟩
    · rw [hncookies,Nat.zero_add]
      exact hcount
    · intro j c hc
      rw [hncookies,Nat.zero_add]
      exact hrecorded j c hc
  have hforced := linesForced last blank r.lines st st' hs (by omega)
    (by rw [hncookies,Nat.zero_add]; exact r.few) hlines ((r.alone_blank hblank).2 (h.alone st hst))
  rwa [hstart,hpp] at hforced

/-- Complete lines with room are read as they should be. -/
theorem right_of_lines (hfit : r.line.length < HTTP_HEADER_MAX)
    (hcomplete : ∀ c ∈ cookiesOf r.lines, c.Complete)
    (hroom : LinesRoom 1 (r.line.length + 1) r.lines) : r.Right last := by
  obtain ⟨st,blank,hst,hs,hblank,hpp,hstart,hncookies⟩ := r.start hfit
  have hfew : st.resp.ncookies + (cookiesOf r.lines).length ≤ HTTP_COOKIES_MAX := by
    rw [hncookies,Nat.zero_add]
    exact r.few
  obtain ⟨⟨st',hread⟩,halone⟩ := linesReadable last blank r.lines st hs (by omega) hfew hcomplete
    (by rwa [hstart,hpp])
  have hcount := hread.ncookies
  have hrecorded := hread.recorded
  rw [hncookies,Nat.zero_add] at hcount
  simp only [hncookies,Nat.zero_add] at hrecorded
  refine ⟨⟨_,(r.parse_eq last hst).trans (by rw [hread.run]; rfl),hcount,hrecorded⟩,?_⟩
  intro st1 hst1
  cases hst.symm.trans hst1
  exact (r.alone_blank hblank).1 halone

end CookieResponse

/-- For every well-formed response, the cookies are recorded as they stand in their lines, each read
alone, exactly when every `Set-Cookie` line is complete and there is room. -/
theorem http_set_cookie_iff (r : CookieResponse) (last : UInt8) :
    r.Right last ↔ r.line.length < HTTP_HEADER_MAX ∧
      (∀ c ∈ cookiesOf r.lines, c.Complete) ∧ LinesRoom 1 (r.line.length + 1) r.lines := by
  constructor
  · intro h
    exact ⟨CookieResponse.line_fits h,h.lines⟩
  · rintro ⟨hfit,hcomplete,hroom⟩
    exact r.right_of_lines last hfit hcomplete hroom

/-- The line `Set-Cookie: a=b`, and a line with all attributes behind it. -/
def bareLine : SetCookie where
  header := ascii "Set-Cookie"
  gap := 1
  name := [97]
  value := [98]
  attrs := []
  header_key := by decide +kernel
  name_ne := by decide
  name_plain := by decide +kernel
  value_plain := by decide +kernel
  attrs_nodup := by decide

def fullLine : SetCookie where
  header := ascii "Set-Cookie"
  gap := 1
  name := [99]
  value := [100]
  attrs := [⟨.expires,1,ascii "expires",[101],by decide +kernel,by decide +kernel⟩,
    ⟨.path,1,ascii "path",[47],by decide +kernel,by decide +kernel⟩,
    ⟨.domain,1,ascii "domain",[120],by decide +kernel,by decide +kernel⟩]
  header_key := by decide +kernel
  name_ne := by decide
  name_plain := by decide +kernel
  value_plain := by decide +kernel
  attrs_nodup := by decide

/-- Two cookies, the first one without attributes. -/
def twoCookies : CookieResponse where
  line := okLine
  lines := [.cookie bareLine,.cookie fullLine]
  blank := true
  few := by decide

/-- The attributes of the second line are read for the first one. -/
theorem http_set_cookie_bare : ¬ twoCookies.Right 10 := by
  intro h
  have hcomplete := h.lines.1 bareLine (by simp [twoCookies,cookiesOf])
  exact absurd hcomplete (by decide +kernel)

end Sbase
