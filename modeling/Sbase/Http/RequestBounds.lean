import Sbase.Http.RequestLine

/-! When `http_request_parse` stays inside the request and its arrays.

Each line of the headers is in bounds on a condition about the bytes left and the place in `hlines`, and
the whole run is when every line that it reaches meets the condition. -/
namespace Sbase
open Memory Relation

/-! ### Runs in bounds -/

/-- A run that makes no access outside of the bytes and arrays, and so has a result. -/
def InBounds {α : Type} (x : Except HttpFault α) : Prop := ∃ a, x = .ok a

theorem inBounds_ok {α : Type} (a : α) : InBounds (.ok a : Except HttpFault α) := ⟨a,rfl⟩

theorem not_inBounds {α : Type} {e : HttpFault} : ¬ InBounds (.error e : Except HttpFault α) := by
  rintro ⟨a,h⟩
  cases h

theorem inBounds_bind {α β : Type} (x : Except HttpFault α) (f : α → Except HttpFault β) :
    InBounds (x >>= f) ↔ InBounds x ∧ ∀ a, x = .ok a → InBounds (f a) := by
  cases x with
  | error e => exact iff_of_false not_inBounds fun h => not_inBounds h.1
  | ok a => exact ⟨fun h => ⟨inBounds_ok a,fun b hb => Except.ok.inj hb ▸ h⟩,fun h => h.2 a rfl⟩

theorem inBounds_ite {α : Type} {c : Prop} [Decidable c] (a : α) :
    InBounds (if c then .ok a else .error .access : Except HttpFault α) ↔ c := by
  split_ifs with hc
  · exact iff_of_true (inBounds_ok a) hc
  · exact iff_of_false not_inBounds hc

theorem copyWhile_inBounds (test : UInt8 → Bool) (f : UInt8 → UInt8) (st : HttpParse) :
    InBounds (copyWhile test f st) ↔ st.pp + (st.s.takeWhile test).length ≤ HTTP_HEADER_MAX := by
  rw [copyWhile_eq,inBounds_ite]

theorem httpEndLine_inBounds (st : HttpParse) :
    InBounds (httpEndLine st) ↔ st.pp < HTTP_HEADER_MAX := inBounds_ite _

/-! ### The value of a header -/

theorem takeWhile_length (test : UInt8 → Bool) (s : List UInt8) :
    (s.takeWhile test).length = s.length - (s.dropWhile test).length := by
  have hsplit := congrArg List.length (List.takeWhile_append_dropWhile (p := test) (l := s))
  rw [List.length_append] at hsplit
  omega

/-- The characters of the credentials. -/
def credentialChars (s : List UInt8) : ℕ := (s.takeWhile fun c => c ≠ 13 ∧ c ≠ 32).length

/-- The groups of the credentials end with the byte at `end` or before, and their text fits. -/
def CredentialsFit (s : List UInt8) (pp : ℕ) : Prop :=
  4 * base64Groups (credentialChars s) ≤ s.length + 1 ∧
    pp + 3 * base64Groups (credentialChars s) < HTTP_HEADER_MAX

theorem httpCredentials_inBounds (last : UInt8) (st : HttpParse) :
    InBounds (httpCredentials last st) ↔ CredentialsFit st.s st.pp := by
  have hsome := httpBase64Decode_isSome (st.s ++ [last]) (credentialChars st.s)
  rw [List.length_append,List.length_singleton] at hsome
  unfold httpCredentials CredentialsFit
  dsimp only
  rw [← takeWhile_length,← credentialChars,← hsome]
  cases htext : httpBase64Decode (st.s ++ [last]) (credentialChars st.s) with
  | none => simp [not_inBounds]
  | some text =>
    dsimp only
    rw [inBounds_ite,httpBase64Decode_length htext]
    simp

/-- Basic credentials fit behind their scheme, which is copied with the spaces that follow it. -/
def BasicFits (s : List UInt8) (pp : ℕ) : Prop :=
  let text := skipSpaces (s.dropWhile fun c => c ≠ 32 ∧ c ≠ 13)
  CredentialsFit text (pp + (s.length - text.length))

theorem httpBasic_inBounds (last : UInt8) (st : HttpParse) :
    InBounds (httpBasic last st >>= httpEndLine) ↔ BasicFits st.s st.pp := by
  let scheme := st.copied (fun c => c ≠ 32 ∧ c ≠ 13) id
  let spaces := scheme.copied (· = 32) id
  have hscheme := takeWhile_length (fun c => c ≠ 32 ∧ c ≠ 13) st.s
  have hspaces := takeWhile_length (· = 32) scheme.s
  have hle := dropWhile_length_le (fun c => c ≠ 32 ∧ c ≠ 13) st.s
  have hle' := dropWhile_length_le (· = 32) scheme.s
  have hpp : spaces.pp = st.pp + (st.s.length - spaces.s.length) := by
    change st.pp + _ + _ = _
    rw [hscheme,hspaces]
    change st.pp + (st.s.length - scheme.s.length) + (scheme.s.length - spaces.s.length) = _
    change scheme.s.length ≤ _ at hle
    change spaces.s.length ≤ _ at hle'
    omega
  change _ ↔ CredentialsFit spaces.s (st.pp + (st.s.length - spaces.s.length))
  rw [← hpp]
  simp only [httpBasic,bind_assoc,inBounds_bind,copyWhile_inBounds]
  constructor
  · rintro ⟨hfit,hrest⟩
    have hcopy := copyWhile_eq (fun c => c ≠ 32 ∧ c ≠ 13) id st
    rw [if_pos hfit] at hcopy
    obtain ⟨hfit',hrest⟩ := hrest _ hcopy
    have hcopy' := copyWhile_eq (· = 32) id scheme
    rw [if_pos hfit'] at hcopy'
    exact (httpCredentials_inBounds last spaces).1 (hrest _ hcopy').1
  · intro hfits
    have hlt := hfits.2
    refine ⟨?_,?_⟩
    · change scheme.pp ≤ _
      have : scheme.pp ≤ spaces.pp := Nat.le_add_right _ _
      omega
    · intro st1 h1
      obtain ⟨-,rfl⟩ := copyWhile_ok h1
      refine ⟨?_,?_⟩
      · change spaces.pp ≤ _
        omega
      · intro st2 h2
        obtain ⟨-,rfl⟩ := copyWhile_ok h2
        refine ⟨(httpCredentials_inBounds last spaces).2 hfits,?_⟩
        intro st3 h3
        obtain ⟨text,-,hroom,rfl⟩ := httpCredentials_ok h3
        exact (httpEndLine_inBounds _).2 hroom

/-- The value of a header stays in bounds: cookies leave room for the end of the line, the comparison
with `Basic` is decided by the byte at `end`, the credentials fit, or the value does. -/
def ValueFits (i : ℤ) (last : UInt8) (st : HttpParse) : Prop :=
  if i = HEAD_REQ_COOKIE then
    ∀ req n, httpCookieParseOver st.s st.req = some (req,n) → req.nhline < HTTP_HEADER_MAX
  else if i = HEAD_REQ_AUTHORIZATION ∧ strncasecmp (st.s ++ [last]) (ascii "Basic") ≠ some false then
    strncasecmp (st.s ++ [last]) (ascii "Basic") = some true ∧ BasicFits st.s st.pp
  else st.pp + (st.s.takeWhile (· ≠ 13)).length < HTTP_HEADER_MAX

theorem copyLine_inBounds (st : HttpParse) :
    InBounds (copyWhile (· ≠ 13) id st >>= httpEndLine) ↔
      st.pp + (st.s.takeWhile (· ≠ 13)).length < HTTP_HEADER_MAX := by
  rw [inBounds_bind,copyWhile_inBounds]
  constructor
  · rintro ⟨hfit,hrest⟩
    have hcopy := copyWhile_eq (· ≠ 13) id st
    rw [if_pos hfit] at hcopy
    exact (httpEndLine_inBounds _).1 (hrest _ hcopy)
  · intro hfits
    refine ⟨hfits.le,?_⟩
    intro st' h
    obtain ⟨-,rfl⟩ := copyWhile_ok h
    exact (httpEndLine_inBounds _).2 hfits

theorem httpValue_inBounds (i : ℤ) (last : UInt8) {st : HttpParse}
    (hcookies : st.req.ncookies ≤ HTTP_COOKIES_MAX + 1) :
    InBounds (httpValue i last st >>= httpEndLine) ↔ ValueFits i last st := by
  unfold httpValue ValueFits
  by_cases hcookie : i = HEAD_REQ_COOKIE
  · rw [if_pos hcookie,if_pos hcookie]
    obtain ⟨req,n,hparse,-⟩ := httpCookieParseOver_some st.s hcookies
    rw [hparse]
    change InBounds (httpEndLine _) ↔ _
    rw [httpEndLine_inBounds]
    constructor
    · rintro h req n ⟨rfl⟩
      exact h
    · intro h
      exact h req n rfl
  · rw [if_neg hcookie,if_neg hcookie]
    by_cases hauth : i = HEAD_REQ_AUTHORIZATION
    · rw [if_pos hauth]
      cases hcmp : strncasecmp (st.s ++ [last]) (ascii "Basic") with
      | none => simp [hauth,bind,Except.bind,not_inBounds]
      | some basic =>
        cases basic with
        | true => simpa [hauth] using httpBasic_inBounds last st
        | false => simpa using copyLine_inBounds st
    · rw [if_neg hauth,if_neg fun h => hauth h.1]
      exact copyLine_inBounds st

/-! ### A line -/

/-- The record with the offset of a value that is to come. -/
def HttpParse.setHeader (st : HttpParse) (i : ℤ) : HttpParse :=
  if i < 0 then st
  else { st with req := { st.req with headers := Function.update st.req.headers i.toNat st.pp },
                 ret := st.ret + 1 }

theorem HttpParse.setHeader_ncookies (st : HttpParse) (i : ℤ) :
    (st.setHeader i).req.ncookies = st.req.ncookies := by
  unfold HttpParse.setHeader
  split_ifs
  · rfl
  · rfl

/-- All that is left of the record when the offset is set. -/
theorem HttpParse.setHeader_eq (st : HttpParse) (i : ℤ) : (st.setHeader i).s = st.s ∧
    (st.setHeader i).pp = st.pp ∧
      (st.setHeader i).req = { st.req with headers := (st.setHeader i).req.headers } := by
  unfold HttpParse.setHeader
  split_ifs
  · exact ⟨rfl,rfl,rfl⟩
  · exact ⟨rfl,rfl,rfl⟩

/-- The number under which the name of a line is found, less one. -/
def headerIndex (s : List UInt8) : ℤ := mtrieGet httpHeadersMapInit (lineToken s) - 1

/-- The numbers found in the map are those of a header, for whichever table they come from. -/
theorem httpSetHeader_eq (s : List UInt8) (st : HttpParse) :
    httpSetHeader (headerIndex s) st = .ok (st.setHeader (headerIndex s)) := by
  have hlt : headerIndex s < HTTP_HEADER_NUM := by
    have hle := mtrieGet_lt (lineToken s)
    unfold headerIndex
    omega
  unfold httpSetHeader HttpParse.setHeader
  split_ifs
  · rfl
  · rfl

/-- The parser at the value of a line, with the spaces before the line skipped. -/
def HttpParse.atValue (st : HttpParse) : HttpParse :=
  { st.setHeader (headerIndex (skipSpaces st.s)) with s := lineValue (skipSpaces st.s) }

theorem httpHeaderLine_eq (last : UInt8) (st : HttpParse) :
    httpHeaderLine httpHeadersMapInit last st =
      if skipSpaces st.s = [] ∧ last = 32 then .error .access
      else if HTTP_HEAD_MAX ≤ (lineToken (skipSpaces st.s)).length then .error .access
      else httpValue (headerIndex (skipSpaces st.s)) last st.atValue >>= httpEndLine := by
  unfold httpHeaderLine
  dsimp only
  rw [← headerIndex,httpSetHeader_eq]
  rfl

/-- A line stays in bounds: the spaces before it end by `end`, its name fits in `line`, and so does its
value in `hlines`. -/
structure LineFits (last : UInt8) (st : HttpParse) : Prop where
  spaces : skipSpaces st.s ≠ [] ∨ last ≠ 32
  name : (lineToken (skipSpaces st.s)).length < HTTP_HEAD_MAX
  value : ValueFits (headerIndex (skipSpaces st.s)) last st.atValue

theorem httpHeaderLine_inBounds (last : UInt8) {st : HttpParse}
    (hcookies : st.req.ncookies ≤ HTTP_COOKIES_MAX + 1) :
    InBounds (httpHeaderLine httpHeadersMapInit last st) ↔ LineFits last st := by
  rw [httpHeaderLine_eq]
  split_ifs with hspaces hname
  · refine iff_of_false not_inBounds fun h => ?_
    exact h.spaces.elim (absurd hspaces.1) (absurd hspaces.2)
  · refine iff_of_false not_inBounds fun h => ?_
    exact absurd h.name (not_lt.2 hname)
  · have hvalue : st.atValue.req.ncookies ≤ HTTP_COOKIES_MAX + 1 :=
      (st.setHeader_ncookies _).trans_le hcookies
    rw [httpValue_inBounds _ last hvalue]
    constructor
    · intro h
      exact ⟨by tauto,not_le.1 hname,h⟩
    · intro h
      exact h.value

/-! ### Whole runs -/

/-- A step of the loop over the headers. -/
def HeaderStep (last : UInt8) (st st' : HttpParse) : Prop :=
  st.s ≠ [] ∧ httpHeaderLine httpHeadersMapInit last st = .ok st'

/-! ### What is kept in the record -/

/-- The record keeps its path, the first bytes apart, and the number of its method; cookies are counted no
further than two behind their table, and headers are counted up. While the cookies leave a place in their
table, the path is kept as a whole. -/
structure HttpParse.Keeps (st st' : HttpParse) : Prop where
  path : ∀ i, 16 ≤ i → st'.req.path i = st.req.path i
  reqid : st'.req.reqid = st.req.reqid
  ncookies : st.req.ncookies ≤ HTTP_COOKIES_MAX + 1 → st'.req.ncookies ≤ HTTP_COOKIES_MAX + 1
  ret : st.ret ≤ st'.ret
  counted : st.req.ncookies ≤ st'.req.ncookies
  whole : st'.req.ncookies < HTTP_COOKIES_MAX → st'.req.path = st.req.path

/-- A step that leaves the path, the method and the cookies alone. -/
theorem HttpParse.Keeps.of_same {st st' : HttpParse} (hpath : st'.req.path = st.req.path)
    (hreqid : st'.req.reqid = st.req.reqid) (hcookies : st'.req.ncookies = st.req.ncookies)
    (hret : st.ret ≤ st'.ret) : st.Keeps st' where
  path i _ := congrFun hpath i
  reqid := hreqid
  ncookies := hcookies.trans_le
  ret := hret
  counted := hcookies.ge
  whole _ := hpath

theorem HttpParse.Keeps.refl (st : HttpParse) : st.Keeps st := .of_same rfl rfl rfl le_rfl

theorem HttpParse.Keeps.trans {st st' st'' : HttpParse} (h : st.Keeps st') (h' : st'.Keeps st'') :
    st.Keeps st'' where
  path i hi := (h'.path i hi).trans (h.path i hi)
  reqid := h'.reqid.trans h.reqid
  ncookies := h'.ncookies ∘ h.ncookies
  ret := h.ret.trans h'.ret
  counted := h.counted.trans h'.counted
  whole hroom := (h'.whole hroom).trans (h.whole (h'.counted.trans_lt hroom))

theorem copyWhile_keeps {test : UInt8 → Bool} {f : UInt8 → UInt8} {st st' : HttpParse}
    (h : copyWhile test f st = .ok st') : st.Keeps st' := by
  obtain ⟨-,rfl⟩ := copyWhile_ok h
  exact .of_same rfl rfl rfl le_rfl

theorem httpBasic_keeps {last : UInt8} {st st' : HttpParse} (h : httpBasic last st = .ok st') :
    st.Keeps st' := by
  obtain ⟨st1,h1,h⟩ := bind_ok_iff.1 h
  obtain ⟨st2,h2,h⟩ := bind_ok_iff.1 h
  have hcopied := (copyWhile_keeps h1).trans (copyWhile_keeps h2)
  obtain ⟨text,-,-,rfl⟩ := httpCredentials_ok h
  exact hcopied.trans (.of_same rfl rfl rfl le_rfl)

theorem httpCookieParseOver_keeps {p : List UInt8} {req req' : HttpReq} {n : ℕ}
    (h : httpCookieParseOver p req = some (req',n)) :
    (∀ i, 16 ≤ i → req'.path i = req.path i) ∧ req'.reqid = req.reqid ∧
      (req.ncookies ≤ HTTP_COOKIES_MAX + 1 → req'.ncookies ≤ HTTP_COOKIES_MAX + 1) := by
  refine ⟨fun i hi => ?_,?_,fun hcookies => ?_⟩
  · by_cases hp : p = []
    · rw [httpCookieParseOver,httpCookieParseIn,if_pos hp] at h
      cases h
      exact req.withPath.storePath_path hi
    · exact (httpCookieParseOver_reads h hp).1.path i hi
  · by_cases hp : p = []
    · rw [httpCookieParseOver,httpCookieParseIn,if_pos hp] at h
      cases h
      rfl
    · rw [(httpCookieParseOver_reads h hp).1.frame]
  · obtain ⟨r,m,hr,hcount⟩ := httpCookieParseOver_some p hcookies
    rw [h] at hr
    cases hr
    exact hcount

theorem httpValue_keeps {i : ℤ} {last : UInt8} {st st' : HttpParse}
    (h : httpValue i last st = .ok st') : st.Keeps st' := by
  rcases httpValue_ok h with ⟨-,req,n,hparse,rfl⟩ | ⟨-,h⟩ | ⟨-,h⟩
  · obtain ⟨hpath,hreqid,hcookies⟩ := httpCookieParseOver_keeps hparse
    obtain ⟨hcounted,hwhole⟩ := httpCookieParseOver_path hparse
    exact ⟨hpath,hreqid,hcookies,le_rfl,hcounted,hwhole⟩
  · exact httpBasic_keeps h
  · exact copyWhile_keeps h

theorem HttpParse.atValue_keeps (st : HttpParse) : st.Keeps st.atValue := by
  unfold HttpParse.atValue HttpParse.setHeader
  split_ifs
  · exact .of_same rfl rfl rfl le_rfl
  · exact .of_same rfl rfl rfl (by simp)

theorem httpHeaderLine_keeps {last : UInt8} {st st' : HttpParse}
    (h : httpHeaderLine httpHeadersMapInit last st = .ok st') : st.Keeps st' := by
  rw [httpHeaderLine_eq] at h
  split_ifs at h
  obtain ⟨st1,h1,h⟩ := bind_ok_iff.1 h
  unfold httpEndLine at h
  split_ifs at h
  cases h
  have hvalue := st.atValue_keeps.trans (httpValue_keeps h1)
  exact hvalue.trans (.of_same rfl rfl rfl le_rfl)

theorem httpHeaderLoop_keeps {last : UInt8} {st st' : HttpParse}
    (h : httpHeaderLoop httpHeadersMapInit last st = .ok st') : st.Keeps st' := by
  induction st using httpHeaderLoop.induct httpHeadersMapInit last with
  | case1 st hs =>
    rw [httpHeaderLoop_nil hs] at h
    cases h
    exact .refl _
  | case2 st hs e hline =>
    rw [httpHeaderLoop_cons hs,hline] at h
    cases h
  | case3 st hs st1 hline ih =>
    rw [httpHeaderLoop_cons hs,hline] at h
    exact (httpHeaderLine_keeps hline).trans (ih h)

/-! ### The loop in bounds -/

theorem httpHeaderLoop_inBounds (last : UInt8) {st : HttpParse}
    (hcookies : st.req.ncookies ≤ HTTP_COOKIES_MAX + 1) :
    InBounds (httpHeaderLoop httpHeadersMapInit last st) ↔
      ∀ st', ReflTransGen (HeaderStep last) st st' → st'.s ≠ [] → LineFits last st' := by
  induction st using httpHeaderLoop.induct httpHeadersMapInit last with
  | case1 st hs =>
    rw [httpHeaderLoop_nil hs]
    refine iff_of_true (inBounds_ok st) fun st' hrun hs' => ?_
    rcases ReflTransGen.cases_head hrun with rfl | ⟨st1,hstep,-⟩
    · exact absurd hs hs'
    · exact absurd hs hstep.1
  | case2 st hs e hline =>
    rw [httpHeaderLoop_cons hs,inBounds_bind,httpHeaderLine_inBounds last hcookies]
    constructor
    · rintro ⟨hfits,-⟩ st' hrun -
      rcases ReflTransGen.cases_head hrun with rfl | ⟨st1,hstep,-⟩
      · exact hfits
      · cases hline.symm.trans hstep.2
    · intro h
      refine ⟨h st .refl hs,?_⟩
      intro st1 hst1
      cases hline.symm.trans hst1
  | case3 st hs st1 hline ih =>
    have hnext := (httpHeaderLine_keeps hline).ncookies hcookies
    rw [httpHeaderLoop_cons hs,inBounds_bind,httpHeaderLine_inBounds last hcookies]
    constructor
    · rintro ⟨hfits,hrest⟩ st' hrun hs'
      rcases ReflTransGen.cases_head hrun with rfl | ⟨st2,hstep,hrun⟩
      · exact hfits
      · cases hline.symm.trans hstep.2
        exact (ih hnext).1 (hrest st1 hline) st' hrun hs'
    · intro h
      refine ⟨h st .refl hs,?_⟩
      intro st2 hst2
      cases hline.symm.trans hst2
      exact (ih hnext).2 fun st' hrun hs' => h st' (.head ⟨hs,hline⟩ hrun) hs'

/-! ### The request line -/

theorem httpMethod_inBounds (p : List UInt8) (req : HttpReq) :
    InBounds (httpMethod httpHeadersMapInit ⟨p,1,req,-1⟩) ↔
      (methodToken p).length < HTTP_HEADER_MAX := by
  unfold httpMethod
  rw [inBounds_bind,copyWhile_inBounds]
  constructor
  · rintro ⟨h,-⟩
    change 1 + (methodToken p).length ≤ HTTP_HEADER_MAX at h
    omega
  · intro h
    refine ⟨?_,fun st _ => inBounds_ok _⟩
    change 1 + (methodToken p).length ≤ HTTP_HEADER_MAX
    omega

theorem httpQuery_inBounds (p : List UInt8) (last : UInt8) {st : HttpParse}
    (hargs : st.req.nargvs ≤ HTTP_ARGVS_MAX) : InBounds (httpQuery p last st) := by
  unfold httpQuery
  split_ifs
  · obtain ⟨req,n,hover⟩ := httpArgvParseOver_some (st.s.drop 1) { st.req with
      argvOff := p.length - st.s.length + 1 } hargs
    dsimp only
    rw [hover]
    exact inBounds_ok _
  · exact inBounds_ok _

/-- The arguments leave the path, the number of the method and the count of the cookies as they are. -/
theorem httpQuery_same {p : List UInt8} {last : UInt8} {st st' : HttpParse} (h : httpQuery p last st = .ok st') :
    st'.req.path = st.req.path ∧ st'.req.reqid = st.req.reqid ∧ st'.req.ncookies = st.req.ncookies ∧
      st'.ret = st.ret := by
  unfold httpQuery at h
  split_ifs at h
  · dsimp only at h
    split at h
    · cases h
    · next hparse =>
      cases h
      have hsame := httpArgvParseOver_same hparse
      refine ⟨?_,?_,?_,rfl⟩
      all_goals
        dsimp only
        rw [hsame]
  · cases h
    exact ⟨rfl,rfl,rfl,rfl⟩

/-! ### The whole parser -/

/-- The outcome that the parser is to have: no access of its own is out of bounds, and the path ends within
its array. The parsers of arguments and cookies may have counted past their tables. -/
def RequestSafe (x : Except HttpFault (HttpReq × ℤ)) : Prop :=
  InBounds x ∧ ∀ r, x = .ok r → ∃ i < HTTP_URL_PATH_MAX, r.1.path i = 0

/-- The path ends within its array: it leaves room for a zero, or decodes to one. -/
def PathFits (s : List UInt8) : Prop :=
  (decodePath s).length < HTTP_URL_PATH_MAX ∨ 0 ∈ (decodePath s).take HTTP_URL_PATH_MAX

/-- The run behind the request line is in bounds when every line that it reaches is. -/
def LinesFit (p : List UInt8) (last : UInt8) : Prop :=
  ∀ st st', httpRequestLine httpHeadersMapInit p last .zero = .ok st →
    ReflTransGen (HeaderStep last) st st' → st'.s ≠ [] → LineFits last st'

theorem httpRequestLine_inBounds (p : List UInt8) (last : UInt8) {req : HttpReq}
    (hargs : req.nargvs ≤ HTTP_ARGVS_MAX) :
    InBounds (httpRequestLine httpHeadersMapInit p last req) ↔
      (methodToken p).length < HTTP_HEADER_MAX := by
  unfold httpRequestLine
  rw [inBounds_bind,httpMethod_inBounds]
  refine and_iff_left_of_imp fun _ st hst => ?_
  obtain ⟨reqid,rfl⟩ := httpMethod_ok hst
  dsimp only
  split_ifs
  · exact inBounds_ok _
  · rw [inBounds_bind]
    exact ⟨httpQuery_inBounds _ _ hargs,fun _ _ => inBounds_ok _⟩

/-- The cookies have not been counted yet. -/
theorem httpRequestLine_ncookies {p : List UInt8} {last : UInt8} {st : HttpParse}
    (h : httpRequestLine httpHeadersMapInit p last .zero = .ok st) : st.req.ncookies = 0 := by
  unfold httpRequestLine at h
  obtain ⟨st1,h1,h⟩ := bind_ok_iff.1 h
  obtain ⟨reqid,rfl⟩ := httpMethod_ok h1
  dsimp only at h
  split_ifs at h
  · cases h
    rfl
  · obtain ⟨st2,h2,h⟩ := bind_ok_iff.1 h
    cases h
    exact (httpQuery_same h2).2.2.1

/-- A path that fits leaves a zero behind itself, and behind the bytes that entries behind a table may be
stored to. -/
theorem httpRequestLine_zero {p : List UInt8} {last : UInt8} {st : HttpParse}
    (h : httpRequestLine httpHeadersMapInit p last .zero = .ok st)
    (hfit : (decodePath (pathText p)).length < HTTP_URL_PATH_MAX) :
    ∃ i, 16 ≤ i ∧ i < HTTP_URL_PATH_MAX ∧ st.req.path i = 0 := by
  unfold httpRequestLine at h
  obtain ⟨st1,h1,h⟩ := bind_ok_iff.1 h
  obtain ⟨reqid,rfl⟩ := httpMethod_ok h1
  have hloop := httpPathLoop_eq (pathText p) HttpReq.zero.path 0 (Nat.zero_le _)
  dsimp only at h
  rw [← pathText,hloop,Nat.zero_add] at h
  dsimp only at h
  rw [if_neg (by omega)] at h
  obtain ⟨st2,h2,h⟩ := bind_ok_iff.1 h
  cases h
  dsimp only
  rw [(httpQuery_same h2).1]
  dsimp only
  rw [min_eq_right hfit.le]
  by_cases hlong : 16 ≤ (decodePath (pathText p)).length
  · exact ⟨_,hlong,hfit,Function.update_self ..⟩
  · refine ⟨16,le_rfl,by decide,?_⟩
    rw [Function.update_of_ne (by omega),write_apply_of_not_mem]
    · rfl
    · rw [List.length_take]
      omega

/-- A path that fills its array ends the run. -/
theorem httpRequestLine_full {p : List UInt8} {last : UInt8} {st : HttpParse}
    (h : httpRequestLine httpHeadersMapInit p last .zero = .ok st)
    (hfull : HTTP_URL_PATH_MAX ≤ (decodePath (pathText p)).length) :
    st.s = [] ∧ ((∃ i < HTTP_URL_PATH_MAX, st.req.path i = 0) ↔ PathFits (pathText p)) := by
  unfold httpRequestLine at h
  obtain ⟨st1,h1,h⟩ := bind_ok_iff.1 h
  obtain ⟨reqid,rfl⟩ := httpMethod_ok h1
  have hloop := httpPathLoop_eq (pathText p) HttpReq.zero.path 0 (Nat.zero_le _)
  dsimp only at h
  rw [← pathText,hloop,Nat.zero_add] at h
  dsimp only at h
  rw [if_pos (le_min le_rfl hfull)] at h
  cases h
  have hlen : ((decodePath (pathText p)).take HTTP_URL_PATH_MAX).length = HTTP_URL_PATH_MAX := by
    rw [List.length_take]
    omega
  have hzero := exists_write_iff HttpReq.zero.path ((decodePath (pathText p)).take HTTP_URL_PATH_MAX) 0
  rw [hlen] at hzero
  refine ⟨rfl,?_⟩
  unfold PathFits
  rw [or_iff_right (by omega)]
  exact hzero

theorem httpRequestParse_inBounds (p : List UInt8) (last : UInt8) :
    InBounds (httpRequestParse httpHeadersMapInit p last .zero) ↔
      (methodToken p).length < HTTP_HEADER_MAX ∧ LinesFit p last := by
  unfold httpRequestParse
  rw [inBounds_bind,httpRequestLine_inBounds p last (Nat.zero_le _)]
  refine and_congr_right fun _ => ?_
  constructor
  · intro h st st' hst
    have hloop := ((inBounds_bind _ _).1 (h st hst)).1
    exact (httpHeaderLoop_inBounds last ((httpRequestLine_ncookies hst).trans_le (Nat.zero_le _))).1 hloop st'
  · intro h st hst
    rw [inBounds_bind,httpHeaderLoop_inBounds last ((httpRequestLine_ncookies hst).trans_le (Nat.zero_le _))]
    exact ⟨fun st' => h st st' hst,fun st' _ => inBounds_ok _⟩

/-- In a run that comes to its end, the path ends within its array exactly when it fits. -/
theorem httpRequestParse_path {p : List UInt8} {last : UInt8} {r : HttpReq × ℤ}
    (h : httpRequestParse httpHeadersMapInit p last .zero = .ok r) :
    (∃ i < HTTP_URL_PATH_MAX, r.1.path i = 0) ↔ PathFits (pathText p) := by
  obtain ⟨st,hst,h⟩ := bind_ok_iff.1 h
  obtain ⟨st',hst',h⟩ := bind_ok_iff.1 h
  cases h
  by_cases hfull : HTTP_URL_PATH_MAX ≤ (decodePath (pathText p)).length
  · obtain ⟨hs,hpath⟩ := httpRequestLine_full hst hfull
    rw [httpHeaderLoop_nil hs] at hst'
    cases hst'
    exact hpath
  · have hfit := not_le.1 hfull
    obtain ⟨i,hlow,hi,hzero⟩ := httpRequestLine_zero hst hfit
    exact iff_of_true ⟨i,hi,((httpHeaderLoop_keeps hst').path i hlow).trans hzero⟩ (.inl hfit)

/-- For all bytes of a request and behind it, the parser stays in bounds and ends the path exactly when
the method is shorter than `hlines`, the path fits, and every line that is reached fits. -/
theorem http_request_bounds_iff (p : List UInt8) (last : UInt8) :
    RequestSafe (httpRequestParse httpHeadersMapInit p last .zero) ↔
      (methodToken p).length < HTTP_HEADER_MAX ∧ PathFits (pathText p) ∧ LinesFit p last := by
  unfold RequestSafe
  rw [httpRequestParse_inBounds]
  constructor
  · rintro ⟨hin,hpath⟩
    obtain ⟨r,hr⟩ := (httpRequestParse_inBounds p last).2 hin
    exact ⟨hin.1,(httpRequestParse_path hr).1 (hpath r hr),hin.2⟩
  · rintro ⟨hmethod,hpath,hlines⟩
    exact ⟨⟨hmethod,hlines⟩,fun r hr => (httpRequestParse_path hr).2 hpath⟩

/-- The request line `GET / HTTP/1.0`. -/
def getLine : RequestLine where
  method := ascii "GET"
  path := ascii "/"
  version := ascii "HTTP/1.0"
  method_ne := by decide +kernel
  method_plain := by decide +kernel
  path_ne := by decide +kernel
  path_plain := by decide +kernel
  version_plain := by decide +kernel

/-- A line without a space that is as long as the array for its name. -/
theorem http_request_long_name :
    ¬ RequestSafe (httpRequestParse httpHeadersMapInit
      (getLine.text (List.replicate HTTP_HEAD_MAX 97)) 0 .zero) := by
  intro hsafe
  have hlines := ((httpRequestParse_inBounds _ 0).1 hsafe.1).2
  have htoken : lineToken (skipSpaces (List.replicate HTTP_HEAD_MAX 97)) =
      List.replicate HTTP_HEAD_MAX 97 := by
    simp [lineToken,skipSpaces,lower]
  obtain ⟨st,hst,hread⟩ := getLine.httpRequestLine_text (List.replicate HTTP_HEAD_MAX 97) 0
    (by decide +kernel) (by decide +kernel)
  have hs : st.s ≠ [] := by
    rw [hread.rest]
    intro hnil
    exact absurd (List.length_eq_zero_iff.2 hnil) (by rw [List.length_replicate]; decide)
  have hname := (hlines st st hst .refl hs).name
  rw [hread.rest,htoken,List.length_replicate] at hname
  exact lt_irrefl _ hname

end Sbase
