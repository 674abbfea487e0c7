import Sbase.Http.ResponseBounds

/-! The three kinds of words that share one trie: names of headers, methods and status codes.

What is found for a word is an index into the table of its own kind; both parsers use it as an index into
the table that they are at. -/
namespace Sbase
open Memory Relation

/-- The words of a table, as they are entered into the trie. -/
def tableWords (f : UInt8 → UInt8) (table : List HttpElement) : List (List UInt8) :=
  table.map fun x => ((ascii x.e).map f).take x.elen

def headerWords : List (List UInt8) := tableWords lower httpHeaders
def methodWords : List (List UInt8) := tableWords lower httpMethods
def statusWords : List (List UInt8) := tableWords id responseStatus

/-- What is found for a word is its index in a table. -/
def IndexIn (words : List (List UInt8)) (word : List UInt8) (i : ℤ) : Prop :=
  0 ≤ i → words[i.toNat]? = some word

/-! ### Lookup -/

theorem mem_tableKeys {f : UInt8 → UInt8} {table : List HttpElement} {word : List UInt8} {n : ℤ} :
    (word,n) ∈ elementKeys f table ↔ 0 < n ∧ (tableWords f table)[(n - 1).toNat]? = some word :=
  mem_elementKeys

/-- A word of a table is found under its index. -/
theorem mtrieGet_word {f : UInt8 → UInt8} {table : List HttpElement} {word : List UInt8}
    (hsub : ∀ kv ∈ elementKeys f table, kv ∈ httpKeys) (hmem : word ∈ tableWords f table) :
    0 ≤ mtrieGet httpHeadersMapInit word - 1 ∧
      (tableWords f table)[(mtrieGet httpHeadersMapInit word - 1).toNat]? = some word := by
  obtain ⟨i,hi⟩ := List.mem_iff_getElem?.1 hmem
  have hkey : (word,(i : ℤ) + 1) ∈ elementKeys f table := by
    rw [mem_tableKeys]
    exact ⟨by omega,by rw [show ((i : ℤ) + 1 - 1).toNat = i by omega,hi]⟩
  rw [mtrieGet_mem (hsub _ hkey)]
  refine ⟨by omega,?_⟩
  rw [show ((i : ℤ) + 1 - 1).toNat = i by omega,hi]

theorem header_sub : ∀ kv ∈ elementKeys lower httpHeaders, kv ∈ httpKeys :=
  fun _ h => List.mem_append_left _ (List.mem_append_left _ h)

theorem method_sub : ∀ kv ∈ elementKeys lower httpMethods, kv ∈ httpKeys :=
  fun _ h => List.mem_append_left _ (List.mem_append_right _ h)

theorem status_sub : ∀ kv ∈ elementKeys id responseStatus, kv ∈ httpKeys :=
  fun _ h => List.mem_append_right _ h

theorem found_header {word : List UInt8} (h : word ∈ headerWords) :
    0 ≤ mtrieGet httpHeadersMapInit word - 1 := (mtrieGet_word header_sub h).1

theorem found_method {word : List UInt8} (h : word ∈ methodWords) :
    0 ≤ mtrieGet httpHeadersMapInit word - 1 := (mtrieGet_word method_sub h).1

theorem found_status {word : List UInt8} (h : word ∈ statusWords) :
    0 ≤ mtrieGet httpHeadersMapInit word - 1 := (mtrieGet_word status_sub h).1

/-- A word that is found is one of the three tables. -/
theorem word_of_found {word : List UInt8} (h : 0 ≤ mtrieGet httpHeadersMapInit word - 1) :
    word ∈ headerWords ∨ word ∈ methodWords ∨ word ∈ statusWords := by
  by_contra hno
  have hmem : ∀ {f table n}, (word,n) ∈ elementKeys f table → word ∈ tableWords f table :=
    fun hkey => List.mem_of_getElem? (mem_tableKeys.1 hkey).2
  have hzero : mtrieGet httpHeadersMapInit word = 0 := by
    apply mtrieGet_notMem
    intro n hn
    rw [httpKeys,List.mem_append,List.mem_append] at hn
    rcases hn with (hn | hn) | hn
    · exact hno (.inl (hmem hn))
    · exact hno (.inr (.inl (hmem hn)))
    · exact hno (.inr (.inr (hmem hn)))
  omega

theorem elementKeys_words (f : UInt8 → UInt8) (table : List HttpElement) :
    (elementKeys f table).map Prod.fst = tableWords f table := by
  rw [elementKeys,List.map_map]
  exact List.zipIdx_map_fst 1 _

/-- No word is in two of the tables. -/
theorem words_distinct : (∀ w ∈ headerWords, w ∉ methodWords ∧ w ∉ statusWords) ∧
    ∀ w ∈ methodWords, w ∉ statusWords := by
  have hdist := httpKeys_distinct
  rw [httpKeys,List.map_append,List.map_append,elementKeys_words,elementKeys_words,elementKeys_words,
    List.nodup_append,List.nodup_append] at hdist
  obtain ⟨⟨-,-,hmethod⟩,-,hstatus⟩ := hdist
  refine ⟨fun w hw => ⟨fun hw' => hmethod w hw w hw' rfl,fun hw' => ?_⟩,fun w hw hw' => ?_⟩
  · exact hstatus w (List.mem_append_left _ hw) w hw' rfl
  · exact hstatus w (List.mem_append_right _ hw) w hw' rfl

/-- What is found for a word is its index among the names of headers exactly when it is no word of another
kind. -/
theorem indexIn_header_iff (word : List UInt8) :
    IndexIn headerWords word (mtrieGet httpHeadersMapInit word - 1) ↔
      word ∉ methodWords ∧ word ∉ statusWords := by
  constructor
  · intro h
    constructor
    · intro hmethod
      have hheader := List.mem_of_getElem? (h (found_method hmethod))
      exact (words_distinct.1 word hheader).1 hmethod
    · intro hstatus
      have hheader := List.mem_of_getElem? (h (found_status hstatus))
      exact (words_distinct.1 word hheader).2 hstatus
  · rintro ⟨hmethod,hstatus⟩ hfound
    have hheader := (word_of_found hfound).resolve_right (not_or.2 ⟨hmethod,hstatus⟩)
    exact (mtrieGet_word header_sub hheader).2

theorem indexIn_method_iff (word : List UInt8) :
    IndexIn methodWords word (mtrieGet httpHeadersMapInit word - 1) ↔
      word ∉ headerWords ∧ word ∉ statusWords := by
  constructor
  · intro h
    constructor
    · intro hheader
      have hmethod := List.mem_of_getElem? (h (found_header hheader))
      exact (words_distinct.1 word hheader).1 hmethod
    · intro hstatus
      have hmethod := List.mem_of_getElem? (h (found_status hstatus))
      exact words_distinct.2 word hmethod hstatus
  · rintro ⟨hheader,hstatus⟩ hfound
    have hmethod := ((word_of_found hfound).resolve_left hheader).resolve_right hstatus
    exact (mtrieGet_word method_sub hmethod).2

theorem letters_no_digits : ∀ w ∈ headerWords ++ methodWords, ¬ ∀ c ∈ w, 48 ≤ c ∧ c ≤ 57 := by
  have hall : (headerWords ++ methodWords).all fun w => w.any fun c => !decide (48 ≤ c ∧ c ≤ 57) := by
    decide +kernel
  intro w hw hdigits
  obtain ⟨c,hc,hletter⟩ := List.any_eq_true.mp (List.all_eq_true.mp hall w hw)
  simp [hdigits c hc] at hletter

/-- Digits are only found as a status code. -/
theorem indexIn_digits {word : List UInt8} (hword : ∀ c ∈ word, 48 ≤ c ∧ c ≤ 57) :
    IndexIn statusWords word (mtrieGet httpHeadersMapInit word - 1) := by
  intro hfound
  rcases word_of_found hfound with hheader | hmethod | hstatus
  · exact absurd hword (letters_no_digits word (List.mem_append_left _ hheader))
  · exact absurd hword (letters_no_digits word (List.mem_append_right _ hmethod))
  · exact (mtrieGet_word status_sub hstatus).2

/-! ### The method of a request -/

/-- The method of a request, in lower case. -/
def methodWord (p : List UInt8) : List UInt8 := (methodToken p).map lower

/-- The number of the method is what is found for it, or stays as it is. -/
theorem httpMethod_reqid {p : List UInt8} {req : HttpReq} {st : HttpParse}
    (h : httpMethod httpHeadersMapInit ⟨p,1,req,-1⟩ = .ok st) : st.req.reqid =
      if 0 ≤ mtrieGet httpHeadersMapInit (methodWord p) - 1 then
        mtrieGet httpHeadersMapInit (methodWord p) - 1 else req.reqid := by
  rw [httpMethod_eq h]
  rfl

/-! ### The headers that a line stores -/

/-- What a line makes of the offsets and of the value to return: at most, the offset of its value is stored
under the number of the header that it names. -/
def StoresHeader (word : List UInt8) (pp : ℕ) (headers headers' : ℕ → ℕ) (ret ret' : ℤ) : Prop :=
  (headers' = headers ∧ ret' = ret) ∨
    ret' = ret + 1 ∧ ∃ i, headerWords[i]? = some word ∧ headers' = Function.update headers i pp

/-- A line stores as it is to exactly when its name is no word of another kind. -/
theorem storesHeader_iff (word : List UInt8) (pp : ℕ) (headers : ℕ → ℕ) (ret : ℤ) :
    (if mtrieGet httpHeadersMapInit word - 1 < 0 then StoresHeader word pp headers headers ret ret
      else StoresHeader word pp headers
        (Function.update headers (mtrieGet httpHeadersMapInit word - 1).toNat pp) ret (ret + 1)) ↔
      word ∉ methodWords ∧ word ∉ statusWords := by
  rw [← indexIn_header_iff]
  split_ifs with hfound
  · refine iff_of_true (.inl ⟨rfl,rfl⟩) fun h => ?_
    omega
  · constructor
    · rintro (⟨-,hret⟩ | ⟨-,i,hi,-⟩) -
      · omega
      · exact (mtrieGet_word header_sub (List.mem_of_getElem? hi)).2
    · intro h
      exact .inr ⟨rfl,_,h (not_lt.1 hfound),rfl⟩

/-- Behind lines that store as they are to, an offset is that of before, or that of the value of a line
with the name of its header. -/
theorem stored_of_lines {σ : Type} {step : σ → σ → Prop} {word : σ → List UInt8} {pp : σ → ℕ}
    {headers : σ → ℕ → ℕ} {ret : σ → ℤ} {x y : σ}
    (hstores : ∀ u v, ReflTransGen step x u → step u v →
      StoresHeader (word u) (pp u) (headers u) (headers v) (ret u) (ret v))
    (hrun : ReflTransGen step x y) (i : ℕ) : headers y i = headers x i ∨
      ∃ u v, ReflTransGen step x u ∧ step u v ∧ headerWords[i]? = some (word u) ∧ headers y i = pp u := by
  induction hrun with
  | refl => exact .inl rfl
  | @tail y z hrun hstep ih =>
    rcases hstores y z hrun hstep with ⟨hsame,-⟩ | ⟨-,j,hj,hset⟩
    · rw [hsame]
      exact ih
    · rw [hset]
      by_cases hi : i = j
      · subst hi
        rw [Function.update_self]
        exact .inr ⟨y,z,hrun,hstep,hj,rfl⟩
      · rw [Function.update_of_ne hi]
        exact ih

/-- A value leaves the offsets of the headers alone. -/
theorem httpValue_headers {i : ℤ} {last : UInt8} {st st' : HttpParse}
    (h : httpValue i last st = .ok st') : st'.req.headers = st.req.headers ∧ st'.ret = st.ret := by
  have hcopy : ∀ {test f} {st st' : HttpParse}, copyWhile test f st = .ok st' →
      st'.req.headers = st.req.headers ∧ st'.ret = st.ret := by
    intro test f st st' h
    obtain ⟨-,rfl⟩ := copyWhile_ok h
    exact ⟨rfl,rfl⟩
  rcases httpValue_ok h with ⟨-,req,n,hparse,rfl⟩ | ⟨-,h⟩ | ⟨-,h⟩
  · by_cases hs : st.s = []
    · rw [httpCookieParseOver,httpCookieParseIn,if_pos hs] at hparse
      cases hparse
      exact ⟨rfl,rfl⟩
    · refine ⟨?_,rfl⟩
      dsimp only
      rw [(httpCookieParseOver_reads hparse hs).1.frame]
  · obtain ⟨st1,h1,h⟩ := bind_ok_iff.1 h
    obtain ⟨st2,h2,h⟩ := bind_ok_iff.1 h
    obtain ⟨text,-,-,rfl⟩ := httpCredentials_ok h
    have hblanks := hcopy h2
    have hscheme := hcopy h1
    exact ⟨hblanks.1.trans hscheme.1,hblanks.2.trans hscheme.2⟩
  · exact hcopy h

/-- A cookie leaves the offsets of the headers and the number of the status code alone. -/
theorem httpRespCookieParse_same {s : List UInt8} {last : UInt8} {resp : HttpResponse}
    {r : HttpResponse × ℕ} (h : httpRespCookieParse s last resp = .ok r) :
    r.1.headers = resp.headers ∧ r.1.respid = resp.respid := by
  rw [httpRespCookieParse] at h
  split_ifs at h
  · cases h
    exact ⟨rfl,rfl⟩
  dsimp only at h
  split_ifs at h
  obtain ⟨found,-,h⟩ := bind_ok_iff.1 h
  cases found with
  | none =>
    cases h
    exact ⟨rfl,rfl⟩
  | some name =>
    dsimp only at h
    split_ifs at h
    · obtain ⟨r',hcookie,h⟩ := bind_ok_iff.1 h
      cases h
      rw [respCookie] at hcookie
      split_ifs at hcookie
      obtain ⟨v,-,hcookie⟩ := bind_ok_iff.1 hcookie
      obtain ⟨e,-,hcookie⟩ := bind_ok_iff.1 hcookie
      obtain ⟨p,-,hcookie⟩ := bind_ok_iff.1 hcookie
      obtain ⟨d,-,hcookie⟩ := bind_ok_iff.1 hcookie
      cases hcookie
      exact ⟨rfl,rfl⟩
    · cases h
      exact ⟨rfl,rfl⟩

/-- What a line makes of the record: what is found for its name is stored. -/
theorem RespStep.record {last : UInt8} {st st' : RespParse} (h : RespStep last st st') :
    let found := st.setHeader (respIndex last (skipSpaces st.s))
    st'.resp.headers = found.resp.headers ∧ st'.ret = found.ret ∧ st'.resp.respid = st.resp.respid := by
  have hline := h.2
  rw [httpRespLine_eq] at hline
  split_ifs at hline
  obtain ⟨st1,hcookie,hend⟩ := bind_ok_iff.1 hline
  cases hend
  have hlast : (respEndLine st1).resp.headers = st1.resp.headers ∧ (respEndLine st1).ret = st1.ret ∧
      (respEndLine st1).resp.respid = st1.resp.respid := by
    rw [respEndLine]
    dsimp only
    split_ifs
    · exact ⟨rfl,rfl,rfl⟩
    · exact ⟨rfl,rfl,rfl⟩
  have hfound : (st.atValue last).resp.respid = st.resp.respid := by
    rw [RespParse.atValue]
    dsimp only
    rw [(st.setHeader_eq _).2.2]
  dsimp only
  rw [hlast.1,hlast.2.1,hlast.2.2]
  rw [respSetCookie] at hcookie
  split_ifs at hcookie
  · obtain ⟨r,hr,hcookie⟩ := bind_ok_iff.1 hcookie
    cases hcookie
    obtain ⟨hheaders,hrespid⟩ := httpRespCookieParse_same hr
    exact ⟨hheaders,rfl,hrespid.trans hfound⟩
  · cases hcookie
    exact ⟨rfl,rfl,hfound⟩

/-- A line of a request stores what is found for its name. -/
theorem HeaderStep.stores_iff {last : UInt8} {st st' : HttpParse} (h : HeaderStep last st st') :
    StoresHeader (lineToken (skipSpaces st.s)) st.pp st.req.headers st'.req.headers st.ret st'.ret ↔
      lineToken (skipSpaces st.s) ∉ methodWords ∧ lineToken (skipSpaces st.s) ∉ statusWords := by
  have hline := h.2
  rw [httpHeaderLine_eq] at hline
  split_ifs at hline
  obtain ⟨st1,h1,hend⟩ := bind_ok_iff.1 hline
  obtain ⟨hheaders,hret⟩ := httpValue_headers h1
  unfold httpEndLine at hend
  split_ifs at hend
  cases hend
  rw [← storesHeader_iff _ st.pp st.req.headers st.ret]
  dsimp only
  rw [hheaders,hret,HttpParse.atValue,HttpParse.setHeader,← headerIndex]
  split_ifs
  · exact Iff.rfl
  · exact Iff.rfl

/-- So does a line of a response. -/
theorem RespStep.stores_iff {last : UInt8} {st st' : RespParse} (h : RespStep last st st') :
    StoresHeader (respToken last (skipSpaces st.s)) st.pp st.resp.headers st'.resp.headers st.ret st'.ret ↔
      respToken last (skipSpaces st.s) ∉ methodWords ∧ respToken last (skipSpaces st.s) ∉ statusWords := by
  obtain ⟨hheaders,hret,-⟩ := h.record
  rw [← storesHeader_iff _ st.pp st.resp.headers st.ret,hheaders,hret,RespParse.setHeader,← respIndex]
  split_ifs
  · exact Iff.rfl
  · exact Iff.rfl

/-! ### Messages -/

/-- A record filled with zeros, but for the number of its method. -/
def HttpReq.numbered (reqid : ℤ) : HttpReq := { HttpReq.zero with reqid := reqid }

/-- The loop over the headers of a request gets to a state. -/
def RequestAt (p : List UInt8) (last : UInt8) (reqid : ℤ) (st : HttpParse) : Prop :=
  ∃ start, httpRequestLine httpHeadersMapInit p last (.numbered reqid) = .ok start ∧
    ReflTransGen (HeaderStep last) start st

/-- What the parser of requests stores and returns: the number of the method is that of the first word of
the request, or the one from before, and the offset of a header is that of the value of a line with its
name. -/
structure RequestKinds (p : List UInt8) (last : UInt8) : Prop where
  method : ∀ req st, httpMethod httpHeadersMapInit ⟨p,1,req,-1⟩ = .ok st →
    st.req.reqid = req.reqid ∨
      0 ≤ st.req.reqid ∧ methodWords[st.req.reqid.toNat]? = some (methodWord p)
  stores : ∀ reqid st st', RequestAt p last reqid st → HeaderStep last st st' →
    StoresHeader (lineToken (skipSpaces st.s)) st.pp st.req.headers st'.req.headers st.ret st'.ret
  reqid : ∀ reqid r, httpRequestParse httpHeadersMapInit p last (.numbered reqid) = .ok r →
    r.1.reqid = reqid ∨ 0 ≤ r.1.reqid ∧ methodWords[r.1.reqid.toNat]? = some (methodWord p)
  headers : ∀ reqid r, httpRequestParse httpHeadersMapInit p last (.numbered reqid) = .ok r →
    ∀ i, r.1.headers i = 0 ∨ ∃ st st', RequestAt p last reqid st ∧ HeaderStep last st st' ∧
      headerWords[i]? = some (lineToken (skipSpaces st.s)) ∧ r.1.headers i = st.pp

/-- The loop over the headers of a response gets to a state. -/
def ResponseAt (p : List UInt8) (last : UInt8) (st : RespParse) : Prop :=
  ∃ start, httpStatusLine httpHeadersMapInit p .zero = .ok start ∧ ReflTransGen (RespStep last) start st

/-- What the parser of responses stores and returns. -/
structure ResponseKinds (p : List UInt8) (last : UInt8) : Prop where
  status : ∀ resp st, httpStatusLine httpHeadersMapInit p resp = .ok st →
    st.resp.respid = resp.respid ∨ 0 ≤ st.resp.respid ∧
      statusWords[st.resp.respid.toNat]? = some (statusDigits (statusCode p))
  stores : ∀ st st', ResponseAt p last st → RespStep last st st' →
    StoresHeader (respToken last (skipSpaces st.s)) st.pp st.resp.headers st'.resp.headers st.ret st'.ret
  respid : ∀ resp r, httpResponseParse httpHeadersMapInit p last resp = .ok r →
    r.1.respid = resp.respid ∨ 0 ≤ r.1.respid ∧
      statusWords[r.1.respid.toNat]? = some (statusDigits (statusCode p))
  headers : ∀ r, httpResponseParse httpHeadersMapInit p last .zero = .ok r →
    ∀ i, r.1.headers i = 0 ∨ ∃ st st', ResponseAt p last st ∧ RespStep last st st' ∧
      headerWords[i]? = some (respToken last (skipSpaces st.s)) ∧ r.1.headers i = st.pp

/-- No line of a request is named by a method or a status code. -/
def RequestLinesClear (p : List UInt8) (last : UInt8) : Prop :=
  ∀ reqid st st', RequestAt p last reqid st → HeaderStep last st st' →
    lineToken (skipSpaces st.s) ∉ methodWords ∧ lineToken (skipSpaces st.s) ∉ statusWords

def ResponseLinesClear (p : List UInt8) (last : UInt8) : Prop :=
  ∀ st st', ResponseAt p last st → RespStep last st st' →
    respToken last (skipSpaces st.s) ∉ methodWords ∧ respToken last (skipSpaces st.s) ∉ statusWords

/-! ### The records that are returned -/

/-- The arguments leave the offsets of the headers alone. -/
theorem httpQuery_headers {p : List UInt8} {last : UInt8} {st st' : HttpParse}
    (h : httpQuery p last st = .ok st') : st'.req.headers = st.req.headers := by
  unfold httpQuery at h
  split_ifs at h
  · dsimp only at h
    split at h
    · cases h
    · next hparse =>
      cases h
      dsimp only
      rw [httpArgvParseOver_same hparse]
  · cases h
    rfl

/-- What a request line leaves: the number of the method, and no offset. -/
theorem httpRequestLine_record {p : List UInt8} {last : UInt8} {req : HttpReq} {st : HttpParse}
    (h : httpRequestLine httpHeadersMapInit p last req = .ok st) :
    ∃ st1, httpMethod httpHeadersMapInit ⟨p,1,req,-1⟩ = .ok st1 ∧ st.req.reqid = st1.req.reqid ∧
      st.req.headers = req.headers := by
  obtain ⟨st1,h1,h⟩ := bind_ok_iff.1 h
  have hheaders : st1.req.headers = req.headers := by rw [httpMethod_eq h1]
  refine ⟨st1,h1,?_⟩
  dsimp only at h
  split_ifs at h
  · cases h
    exact ⟨rfl,hheaders⟩
  · obtain ⟨st2,h2,h⟩ := bind_ok_iff.1 h
    cases h
    exact ⟨(httpQuery_same h2).2.1,(httpQuery_headers h2).trans hheaders⟩

/-- The loop ends behind a run of lines. -/
theorem httpHeaderLoop_run {last : UInt8} {st st' : HttpParse}
    (h : httpHeaderLoop httpHeadersMapInit last st = .ok st') : ReflTransGen (HeaderStep last) st st' := by
  induction st using httpHeaderLoop.induct httpHeadersMapInit last with
  | case1 st hs =>
    rw [httpHeaderLoop_nil hs] at h
    cases h
    exact .refl
  | case2 st hs e hline =>
    rw [httpHeaderLoop_cons hs,hline] at h
    cases h
  | case3 st hs st1 hline ih =>
    rw [httpHeaderLoop_cons hs,hline] at h
    exact .head ⟨hs,hline⟩ (ih h)

theorem httpRespLoop_run {last : UInt8} {st st' : RespParse}
    (h : httpRespLoop httpHeadersMapInit last st = .ok st') : ReflTransGen (RespStep last) st st' := by
  induction st using httpRespLoop.induct httpHeadersMapInit last with
  | case1 st hs =>
    rw [httpRespLoop_nil hs] at h
    cases h
    exact .refl
  | case2 st hs e hline =>
    rw [httpRespLoop_cons hs,hline] at h
    cases h
  | case3 st hs st1 hline ih =>
    rw [httpRespLoop_cons hs,hline] at h
    exact .head ⟨hs,hline⟩ (ih h)

/-- The lines leave the number of the status code as it is. -/
theorem respRun_respid {last : UInt8} {st st' : RespParse} (h : ReflTransGen (RespStep last) st st') :
    st'.resp.respid = st.resp.respid := by
  induction h with
  | refl => rfl
  | tail _ hstep ih => exact hstep.record.2.2.trans ih

theorem word_key {word : List UInt8} (h : word ∈ headerWords ++ statusWords) :
    ∃ n, (word,n) ∈ httpKeys := by
  rw [List.mem_append,headerWords,statusWords,← elementKeys_words,← elementKeys_words,List.mem_map,
    List.mem_map] at h
  rcases h with ⟨kv,hkv,rfl⟩ | ⟨kv,hkv,rfl⟩
  · exact ⟨kv.2,header_sub kv hkv⟩
  · exact ⟨kv.2,status_sub kv hkv⟩

theorem words_short : ∀ w ∈ headerWords ++ statusWords, w.length < HTTP_HEADER_MAX := by
  intro w hw
  obtain ⟨n,hn⟩ := word_key hw
  exact (httpKeys_shape _ hn).1.2.trans (by decide)

/-- The number of the method is right exactly when the method is no word of another kind. -/
theorem method_iff (p : List UInt8) :
    (∀ req st, httpMethod httpHeadersMapInit ⟨p,1,req,-1⟩ = .ok st →
      st.req.reqid = req.reqid ∨
        0 ≤ st.req.reqid ∧ methodWords[st.req.reqid.toNat]? = some (methodWord p)) ↔
      methodWord p ∉ headerWords ∧ methodWord p ∉ statusWords := by
  rw [← indexIn_method_iff]
  constructor
  · intro h hfound
    by_contra hno
    have hother : methodWord p ∈ headerWords ++ statusWords := by
      rw [List.mem_append]
      rcases word_of_found hfound with hheader | hmethod | hstatus
      · exact .inl hheader
      · exact absurd (mtrieGet_word method_sub hmethod).2 hno
      · exact .inr hstatus
    have hshort := words_short _ hother
    rw [methodWord,List.length_map] at hshort
    obtain ⟨st,hst⟩ := httpMethod_fits httpHeadersMapInit p { HttpReq.zero with reqid := -1 } hshort
    have hreqid := httpMethod_reqid hst
    rw [if_pos hfound] at hreqid
    rcases h _ st hst with hsame | ⟨-,hword⟩
    · rw [hsame] at hreqid
      dsimp only at hreqid
      omega
    · rw [hreqid] at hword
      exact hno hword
  · intro h req st hst
    have hreqid := httpMethod_reqid hst
    split_ifs at hreqid with hfound
    · refine .inr ?_
      rw [hreqid]
      exact ⟨hfound,h hfound⟩
    · exact .inl hreqid

/-- The number of a status code is always right. -/
theorem status_kind (p : List UInt8) (resp : HttpResponse) {st : RespParse}
    (h : httpStatusLine httpHeadersMapInit p resp = .ok st) : st.resp.respid = resp.respid ∨
      0 ≤ st.resp.respid ∧ statusWords[st.resp.respid.toNat]? = some (statusDigits (statusCode p)) := by
  obtain ⟨-,-,hlines,hresp⟩ := httpStatusLine_ok h
  have hdigits : ∀ c ∈ statusDigits (statusCode p), 48 ≤ c ∧ c ≤ 57 := by
    intro c hc
    rw [statusDigits] at hc
    have hdigit := List.mem_takeWhile_imp hc
    exact of_decide_eq_true hdigit
  rw [hresp]
  dsimp only
  split_ifs with hfound
  · exact .inr ⟨hfound,indexIn_digits hdigits hfound⟩
  · exact .inl rfl

/-- The words of a request apart, its record has them apart. -/
theorem RequestLinesClear.kinds {p : List UInt8} {last : UInt8} (hlines : RequestLinesClear p last)
    (hmethod : methodWord p ∉ headerWords ∧ methodWord p ∉ statusWords) : RequestKinds p last := by
  have hstored := (method_iff p).mpr hmethod
  have hstores : ∀ reqid st st', RequestAt p last reqid st → HeaderStep last st st' →
      StoresHeader (lineToken (skipSpaces st.s)) st.pp st.req.headers st'.req.headers st.ret st'.ret :=
    fun reqid st st' hat hstep => hstep.stores_iff.mpr (hlines reqid st st' hat hstep)
  refine ⟨hstored,hstores,fun reqid r hr => ?_,fun reqid r hr i => ?_⟩
  · obtain ⟨st,hst,hr⟩ := bind_ok_iff.1 hr
    obtain ⟨st',hloop,hr⟩ := bind_ok_iff.1 hr
    cases hr
    obtain ⟨st1,h1,hreqid,-⟩ := httpRequestLine_record hst
    rw [(httpHeaderLoop_keeps hloop).reqid,hreqid]
    exact hstored _ st1 h1
  · obtain ⟨st,hst,hr⟩ := bind_ok_iff.1 hr
    obtain ⟨st',hloop,hr⟩ := bind_ok_iff.1 hr
    cases hr
    obtain ⟨-,-,-,hnone⟩ := httpRequestLine_record hst
    have hrun := stored_of_lines (fun u v hu huv => hstores reqid u v ⟨st,hst,hu⟩ huv)
      (httpHeaderLoop_run hloop) i
    rw [hnone] at hrun
    refine hrun.imp_right ?_
    rintro ⟨u,v,hu,huv,hword,hoffset⟩
    exact ⟨u,v,⟨st,hst,hu⟩,huv,hword,hoffset⟩

/-- With no line that is named by a method or a status code, the record of a response is as it is to be. -/
theorem ResponseLinesClear.kinds {p : List UInt8} {last : UInt8} (hlines : ResponseLinesClear p last) :
    ResponseKinds p last := by
  have hstores : ∀ st st', ResponseAt p last st → RespStep last st st' → StoresHeader
      (respToken last (skipSpaces st.s)) st.pp st.resp.headers st'.resp.headers st.ret st'.ret :=
    fun st st' hat hstep => hstep.stores_iff.mpr (hlines st st' hat hstep)
  refine ⟨fun resp st hst => status_kind p resp hst,hstores,fun resp r hr => ?_,fun r hr i => ?_⟩
  · obtain ⟨st,hst,hr⟩ := bind_ok_iff.1 hr
    obtain ⟨st',hloop,hr⟩ := bind_ok_iff.1 hr
    cases hr
    rw [respRun_respid (httpRespLoop_run hloop)]
    exact status_kind p resp hst
  · obtain ⟨st,hst,hr⟩ := bind_ok_iff.1 hr
    obtain ⟨st',hloop,hr⟩ := bind_ok_iff.1 hr
    cases hr
    obtain ⟨-,-,hlines,hresp⟩ := httpStatusLine_ok hst
    have hrun := stored_of_lines (fun u v hu huv => hstores u v ⟨st,hst,hu⟩ huv) (httpRespLoop_run hloop) i
    rw [hresp] at hrun
    refine hrun.imp_right ?_
    rintro ⟨u,v,hu,huv,hword,hoffset⟩
    exact ⟨u,v,⟨st,hst,hu⟩,huv,hword,hoffset⟩

/-- A message for one of the parsers. -/
inductive HttpMessage
  | request (p : List UInt8)
  | response (p : List UInt8)

/-- No word of a message is taken for one of another kind. -/
def KindsApart (last : UInt8) : HttpMessage → Prop
  | .request p => RequestKinds p last
  | .response p => ResponseKinds p last

/-- The words of a message are not words of another kind. -/
def KindsClear (last : UInt8) : HttpMessage → Prop
  | .request p => (methodWord p ∉ headerWords ∧ methodWord p ∉ statusWords) ∧ RequestLinesClear p last
  | .response p => ResponseLinesClear p last

/-- For all bytes of a message, the parser stores and returns the number of the method or status code that
it begins with and the headers that its lines name, and no word is taken for one of another kind, exactly
when the method of a request is no name of a header and no status code, and no line is named by a method
or a status code. -/
theorem http_tokens_iff (last : UInt8) (m : HttpMessage) : KindsApart last m ↔ KindsClear last m := by
  cases m with
  | request p =>
    constructor
    · intro h
      refine ⟨(method_iff p).mp h.method,fun reqid st st' hat hstep => ?_⟩
      exact hstep.stores_iff.mp (h.stores reqid st st' hat hstep)
    · rintro ⟨hmethod,hlines⟩
      exact hlines.kinds hmethod
  | response p =>
    constructor
    · intro h st st' hat hstep
      exact hstep.stores_iff.mp (h.stores st st' hat hstep)
    · intro hlines
      exact hlines.kinds

theorem statusMethod_ne : ascii "200" ≠ [] := by decide +kernel

theorem statusMethod_plain : ∀ c ∈ ascii "200", c ≠ 32 ∧ c ≠ 9 ∧ c ≠ 13 ∧ c ≠ 10 := by decide +kernel

/-- The request line `200 / HTTP/1.0`. -/
def statusMethodLine : RequestLine :=
  { getLine with
    method := ascii "200"
    method_ne := statusMethod_ne
    method_plain := statusMethod_plain }

/-- A request with the method "200" is returned with the number of that status code, which is that of the
method "HEAD". -/
theorem http_tokens_method_200 : (∃ r : HttpReq × ℤ,
      httpRequestParse httpHeadersMapInit (statusMethodLine.text []) 0 .zero = .ok r ∧ r.1.reqid = 2) ∧
    ¬ KindsApart 0 (.request (statusMethodLine.text [])) := by
  have hword : methodWord (statusMethodLine.text []) = ascii "200" := by
    rw [methodWord,statusMethodLine.methodToken_text]
    decide +kernel
  have hfound : mtrieGet httpHeadersMapInit (ascii "200") = 3 := by
    apply mtrieGet_mem
    apply status_sub
    rw [mem_tableKeys]
    decide +kernel
  obtain ⟨st,hst,hread⟩ := statusMethodLine.httpRequestLine_text [] 0 (by decide +kernel) (by decide +kernel)
  have hparse : httpRequestParse httpHeadersMapInit (statusMethodLine.text []) 0 .zero =
      .ok (st.req,st.ret + 1) := by
    rw [httpRequestParse,hst]
    dsimp only [bind,Except.bind]
    rw [httpHeaderLoop_nil hread.rest]
  obtain ⟨st1,h1,hreqid,-⟩ := httpRequestLine_record hst
  rw [httpMethod_reqid h1,hword,hfound] at hreqid
  refine ⟨⟨_,hparse,hreqid⟩,fun h => ?_⟩
  rcases h.reqid 0 _ hparse with hsame | ⟨-,hmethod⟩
  · exact absurd (hreqid.symm.trans hsame) (by decide)
  · rw [hreqid,hword] at hmethod
    revert hmethod
    decide +kernel

end Sbase
