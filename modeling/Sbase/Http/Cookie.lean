import Sbase.Http.Request

/-! `http_cookie_parse`.

The parser decodes into `hlines` from `nhline` on. A cookie in progress is told apart by its offsets:
its value is being read once `v` is set, and behind a separator other than `;` nothing is read. -/
namespace Sbase
open Memory

/-- The parser at a byte: the cookie in progress, the place of the next decoded byte, and the record. -/
structure CookieState where
  req : HttpReq
  c : ℕ
  pp : ℕ

namespace CookieState

def cookie (st : CookieState) : HttpKV := st.req.cookies st.c

def setCookie (st : CookieState) (kv : HttpKV) : CookieState :=
  { st with req := { st.req with cookies := Function.update st.req.cookies st.c kv } }

/-- `*pp++ = b` -/
def put (st : CookieState) (b : UInt8) : CookieState :=
  { st with req := { st.req with hlines := Function.update st.req.hlines st.pp b }, pp := st.pp + 1 }

/-- A byte outside of any cookie is passed over. -/
def keep (st : CookieState) (b : UInt8) : CookieState :=
  if st.cookie.k ≠ 0 ∨ st.cookie.v ≠ 0 then st.put b else st

/-- At a `=`: the name ends and the value begins. -/
def startValue (st : CookieState) : CookieState :=
  let st := st.setCookie { st.cookie with nk := ushortSub st.pp st.cookie.k }
  let st := st.put 61
  st.setCookie { st.cookie with v := ushort st.pp }

/-- The length of the value. -/
def setLength (st : CookieState) : CookieState :=
  st.setCookie { st.cookie with nv := ushortSub st.pp st.cookie.v }

/-- The cookie counts, and the next one is up. -/
def count (st : CookieState) : CookieState :=
  { st with req := { st.req with nhline := st.pp, ncookies := st.req.ncookies + 1 }, c := st.c + 1 }

/-- At a `;`, the next name begins. -/
def startName (st : CookieState) : CookieState := st.setCookie { st.cookie with k := ushort st.pp }

end CookieState

/-- One byte of the loop, with the bytes behind those it takes; `none` where it would use a cookie past
the first `room` ones. A `%` is none of the other characters, so that escapes may come first. -/
def httpCookieByte (room : ℕ) (c : UInt8) (s : List UInt8) (st : CookieState) :
    Option (CookieState × List UInt8) :=
  match escapeAt c s with
  | some b => some (st.put b, s.drop 2)
  | none =>
    if c = 43 then some (st.put 32, s)
    else if ¬ st.c < room then none
    else if c = 61 ∧ st.cookie.k ≠ 0 ∧ st.cookie.v = 0 then some (st.startValue, s)
    else if (c = 59 ∨ c = 32 ∨ c = 9) ∧ st.cookie.k ≠ 0 ∧ st.cookie.v ≠ 0 then
      let st := (st.setLength.put c).count
      if c = 59 then
        if st.c < room then some (st.startName, s.dropWhile (· = 32)) else none
      else some (st, s.dropWhile (· = 32))
    else some (st.keep c, s)

/-- Behind the last byte of the line, a cookie whose value has begun counts. -/
def httpCookieFinish (room : ℕ) (st : CookieState) : Option CookieState :=
  if ¬ st.c < HTTP_COOKIES_MAX + 1 then some st
  else if ¬ st.c < room then none
  else if st.cookie.k ≠ 0 ∧ st.cookie.v ≠ 0 then some st.setLength.count
  else some st

theorem httpCookieByte_length {room : ℕ} {c : UInt8} {s s' : List UInt8} {st st' : CookieState}
    (h : httpCookieByte room c s st = some (st',s')) : s'.length ≤ s.length := by
  have hskip : (s.dropWhile (· = 32)).length ≤ s.length := (List.dropWhile_sublist _).length_le
  have hdrop : (s.drop 2).length ≤ s.length := (List.drop_sublist 2 s).length_le
  unfold httpCookieByte at h
  grind

/-- The loop of `http_cookie_parse` over the bytes left, with the bytes it does not reach. The tests of
`pp` against its bound inside the branches repeat that of the loop. -/
def httpCookieLoop (room : ℕ) : List UInt8 → CookieState → Option (CookieState × List UInt8)
  | [], st => some (st,[])
  | c::s, st =>
    if c = 13 ∨ ¬ st.c < HTTP_COOKIES_MAX + 1 ∨ ¬ st.pp < HTTP_HEADER_MAX then some (st,c::s)
    else
      match _h : httpCookieByte room c s st with
      | none => none
      | some (st',s') =>
        if s' = [] ∨ s'.head? = some 13 then (httpCookieFinish room st').map fun st => (st,s')
        else httpCookieLoop room s' st'
termination_by s => s.length
decreasing_by
  have hlen := httpCookieByte_length _h
  simp only [List.length_cons]
  omega

theorem httpCookieLoop_step {room : ℕ} {c : UInt8} {s : List UInt8} {st : CookieState}
    (hgo : ¬ (c = 13 ∨ ¬ st.c < HTTP_COOKIES_MAX + 1 ∨ ¬ st.pp < HTTP_HEADER_MAX)) :
    httpCookieLoop room (c::s) st = (httpCookieByte room c s st).bind fun r =>
      if r.2 = [] ∨ r.2.head? = some 13 then (httpCookieFinish room r.1).map fun st => (st,r.2)
      else httpCookieLoop room r.2 r.1 := by
  rw [httpCookieLoop,if_neg hgo]
  split
  · next hbyte => rw [hbyte]; rfl
  · next hbyte => rw [hbyte]; rfl

/-- `http_cookie_parse` on the bytes from `p` to `end`, with the first `room` cookies: the record and the
number of bytes read. -/
def httpCookieParseIn (room : ℕ) (p : List UInt8) (req : HttpReq) : Option (HttpReq × ℕ) :=
  if p = [] then some (req,0)
  else if req.ncookies < room then
    let req := if req.nhline = 0 then { req with nhline := 1 } else req
    let st : CookieState := ⟨req,req.ncookies,req.nhline⟩
    let st := st.setCookie { st.cookie with k := ushort req.nhline }
    (httpCookieLoop room p st).map fun r => (r.1.req, p.length - r.2.length)
  else none

/-- `http_cookie_parse` within its table. -/
def httpCookieParse (p : List UInt8) (req : HttpReq) : Option (HttpReq × ℕ) :=
  httpCookieParseIn HTTP_COOKIES_MAX p req

/-! ### What the parser leaves alone -/

/-- A record that differs from another one in its cookies and their text alone. -/
def SameButCookies (req req' : HttpReq) : Prop :=
  req' = { req with ncookies := req'.ncookies, nhline := req'.nhline, cookies := req'.cookies,
                    hlines := req'.hlines }

theorem SameButCookies.refl (req : HttpReq) : SameButCookies req req := rfl

theorem SameButCookies.trans {a b c : HttpReq} (h : SameButCookies a b) (k : SameButCookies b c) :
    SameButCookies a c := by
  rw [SameButCookies,k,h]

/-- The parser writes at most so many bytes, from its place on, and `nhline` follows that place. The cookies
are counted in step with it, and those behind the one in progress are left alone. -/
structure CookieReads (st st' : CookieState) (n : ℕ) : Prop where
  frame : SameButCookies st.req st'.req
  low : st.pp ≤ st'.pp
  high : st'.pp ≤ st.pp + n
  before : ∀ i < st.pp, st'.req.hlines i = st.req.hlines i
  nhline : st'.req.nhline = st.req.nhline ∨ st.pp ≤ st'.req.nhline ∧ st'.req.nhline ≤ st'.pp
  counted : st.req.ncookies = st.c → st'.req.ncookies = st'.c
  onward : st.c ≤ st'.c
  behind : ∀ i, st'.c < i → st'.req.cookies i = st.req.cookies i

namespace CookieReads

variable {st st1 st' : CookieState} {m n room : ℕ}

theorem refl (st : CookieState) : CookieReads st st 0 where
  frame := .refl st.req
  low := le_rfl
  high := le_rfl
  before _ _ := rfl
  nhline := .inl rfl
  counted := id
  onward := le_rfl
  behind _ _ := rfl

theorem mono (h : CookieReads st st' m) (hle : m ≤ n) : CookieReads st st' n where
  frame := h.frame
  low := h.low
  high := h.high.trans (Nat.add_le_add_left hle _)
  before := h.before
  nhline := h.nhline
  counted := h.counted
  onward := h.onward
  behind := h.behind

theorem trans (h : CookieReads st st1 m) (k : CookieReads st1 st' n) :
    CookieReads st st' (m + n) where
  frame := h.frame.trans k.frame
  low := h.low.trans k.low
  high := by
    have hh := h.high
    have hk := k.high
    omega
  before i hi := (k.before i (hi.trans_le h.low)).trans (h.before i hi)
  nhline := by
    have hlow := h.low
    have klow := k.low
    rcases h.nhline with hn | hn
    · rcases k.nhline with kn | kn
      · exact .inl (kn.trans hn)
      · exact .inr ⟨hlow.trans kn.1,kn.2⟩
    · rcases k.nhline with kn | kn
      · exact .inr (by omega)
      · exact .inr ⟨hlow.trans kn.1,kn.2⟩
  counted := k.counted ∘ h.counted
  onward := h.onward.trans k.onward
  behind i hi := (k.behind i hi).trans (h.behind i (k.onward.trans_lt hi))

theorem put (st : CookieState) (b : UInt8) : CookieReads st (st.put b) 1 where
  frame := rfl
  low := Nat.le_succ _
  high := le_rfl
  before _ hi := Function.update_of_ne hi.ne _ _
  nhline := .inl rfl
  counted := id
  onward := le_rfl
  behind _ _ := rfl

theorem setCookie (st : CookieState) (kv : HttpKV) : CookieReads st (st.setCookie kv) 0 where
  frame := rfl
  low := le_rfl
  high := le_rfl
  before _ _ := rfl
  nhline := .inl rfl
  counted := id
  onward := le_rfl
  behind _ hi := Function.update_of_ne hi.ne' _ _

theorem count (st : CookieState) : CookieReads st st.count 0 where
  frame := rfl
  low := le_rfl
  high := le_rfl
  before _ _ := rfl
  nhline := .inr ⟨le_rfl,le_rfl⟩
  counted := congrArg (· + 1)
  onward := Nat.le_succ _
  behind _ _ := rfl

theorem keep (st : CookieState) (b : UInt8) : CookieReads st (st.keep b) 1 := by
  unfold CookieState.keep
  split_ifs
  · exact .put st b
  · exact (CookieReads.refl st).mono (Nat.zero_le 1)

theorem startValue (st : CookieState) : CookieReads st st.startValue 1 :=
  ((setCookie st _).trans (put _ 61)).trans (setCookie _ _)

theorem byte {c : UInt8} {s s' : List UInt8} (h : httpCookieByte room c s st = some (st',s')) :
    CookieReads st st' 1 := by
  unfold httpCookieByte at h
  cases hesc : escapeAt c s with
  | some b =>
    rw [hesc] at h
    cases h
    exact put st b
  | none =>
    rw [hesc] at h
    dsimp only at h
    have hsep := ((setCookie st { st.cookie with nv := ushortSub st.pp st.cookie.v }).trans
      (put _ c)).trans (count _)
    split_ifs at h
    · cases h
      exact put st 32
    · cases h
      exact startValue st
    · cases h
      exact hsep.trans (setCookie _ _)
    · cases h
      exact hsep
    · cases h
      exact keep st c

theorem finish (h : httpCookieFinish room st = some st') : CookieReads st st' 0 := by
  unfold httpCookieFinish at h
  split_ifs at h with hlast hroom hvalue
  all_goals cases h
  · exact (setCookie st _).trans (count _)
  · exact refl _
  · exact refl _

/-- The loop writes no more bytes than it takes. -/
theorem loop {s s' : List UInt8} (h : httpCookieLoop room s st = some (st',s')) :
    ∃ n, CookieReads st st' n ∧ n + s'.length ≤ s.length := by
  induction s, st using httpCookieLoop.induct room with
  | case1 st =>
    rw [httpCookieLoop] at h
    cases h
    exact ⟨0,refl _,by simp⟩
  | case2 c s st hstop =>
    rw [httpCookieLoop,if_pos hstop] at h
    cases h
    exact ⟨0,refl _,by simp⟩
  | case3 c s st hgo hbyte =>
    rw [httpCookieLoop_step hgo,hbyte] at h
    cases h
  | case4 c s st hgo st1 s1 hbyte hend =>
    have hlen := httpCookieByte_length hbyte
    rw [httpCookieLoop_step hgo,hbyte,Option.bind_some,if_pos hend] at h
    obtain ⟨st2,hfin,hst2⟩ := Option.map_eq_some_iff.1 h
    cases hst2
    refine ⟨1,(byte hbyte).trans (finish hfin),?_⟩
    change 1 + s1.length ≤ s.length + 1
    omega
  | case5 c s st hgo st1 s1 hbyte hend ih =>
    have hlen := httpCookieByte_length hbyte
    rw [httpCookieLoop_step hgo,hbyte,Option.bind_some,if_neg hend] at h
    obtain ⟨n,hreads,hn⟩ := ih h
    refine ⟨1 + n,(byte hbyte).trans hreads,?_⟩
    rw [List.length_cons]
    omega

end CookieReads

/-! ### The end of the line -/

theorem httpCookieByte_stops {room : ℕ} {c : UInt8} {v w s' : List UInt8} {st st' : CookieState}
    (h : httpCookieByte room c (v ++ 13::w) st = some (st',s')) : ∃ v', s' = v' ++ 13::w ∧ v' <:+ v := by
  unfold httpCookieByte at h
  rw [escapeAt_before c v w rfl] at h
  cases hesc : escapeAt c v with
  | some b =>
    rw [hesc] at h
    cases h
    exact ⟨v.drop 2,List.drop_append_of_le_length (escapeAt_length hesc),List.drop_suffix 2 v⟩
  | none =>
    rw [hesc] at h
    dsimp only at h
    obtain ⟨v',hv,hsuf⟩ := dropWhile_stops (· = 32) v w (x := 13) (by decide)
    split_ifs at h
    · cases h
      exact ⟨v,rfl,List.suffix_rfl⟩
    · cases h
      exact ⟨v,rfl,List.suffix_rfl⟩
    · cases h
      exact ⟨v',hv,hsuf⟩
    · cases h
      exact ⟨v',hv,hsuf⟩
    · cases h
      exact ⟨v,rfl,List.suffix_rfl⟩

/-- The loop does not pass the end of its line. -/
theorem httpCookieLoop_stops (v w : List UInt8) {room : ℕ} {st st' : CookieState} {s' : List UInt8}
    (h : httpCookieLoop room (v ++ 13::w) st = some (st',s')) : ∃ v', s' = v' ++ 13::w ∧ v' <:+ v := by
  induction hn : v.length using Nat.strong_induction_on generalizing v st with
  | _ n ih =>
    cases v with
    | nil =>
      rw [List.nil_append,httpCookieLoop,if_pos (.inl rfl)] at h
      cases h
      exact ⟨[],rfl,List.suffix_rfl⟩
    | cons c v =>
      rw [List.length_cons] at hn
      rw [List.cons_append] at h
      by_cases hgo : c = 13 ∨ ¬ st.c < HTTP_COOKIES_MAX + 1 ∨ ¬ st.pp < HTTP_HEADER_MAX
      · rw [httpCookieLoop,if_pos hgo] at h
        cases h
        exact ⟨c::v,rfl,List.suffix_rfl⟩
      · rw [httpCookieLoop_step hgo] at h
        obtain ⟨⟨st1,s1⟩,hbyte,hrest⟩ := Option.bind_eq_some_iff.1 h
        obtain ⟨v1,rfl,hsuf⟩ := httpCookieByte_stops hbyte
        have hcons := hsuf.trans (List.suffix_cons c v)
        dsimp only at hrest
        split_ifs at hrest
        · obtain ⟨st2,-,hst2⟩ := Option.map_eq_some_iff.1 hrest
          cases hst2
          exact ⟨v1,rfl,hcons⟩
        · have hle := hsuf.length_le
          obtain ⟨v2,hv2,hsuf2⟩ := ih _ (by omega) v1 hrest rfl
          exact ⟨v2,hv2,hsuf2.trans hcons⟩

/-- Where the text of the next cookie goes. -/
def HttpReq.cookieStart (req : HttpReq) : ℕ := if req.nhline = 0 then 1 else req.nhline

theorem httpCookieParse_eq {room : ℕ} {p : List UInt8} {req : HttpReq} (hp : p ≠ []) :
    httpCookieParseIn room p req = if req.ncookies < room then
      (httpCookieLoop room p (CookieState.startName
        ⟨{ req with nhline := req.cookieStart },req.ncookies,req.cookieStart⟩)).map
        fun r => (r.1.req, p.length - r.2.length) else none := by
  have hreq : (if req.nhline = 0 then { req with nhline := 1 } else req) =
      { req with nhline := req.cookieStart } := by
    unfold HttpReq.cookieStart
    split_ifs
    · rfl
    · rfl
  unfold httpCookieParseIn
  rw [if_neg hp,hreq]
  rfl

/-- The parser takes bytes of its line, keeps the text before its own, and moves `nhline` on. -/
theorem httpCookieParse_reads {room : ℕ} {p : List UInt8} {req req' : HttpReq} {n : ℕ}
    (h : httpCookieParseIn room p req = some (req',n)) (hp : p ≠ []) :
    SameButCookies req req' ∧ n ≤ p.length ∧
      (∀ i < req.cookieStart, req'.hlines i = req.hlines i) ∧
      req.cookieStart ≤ req'.nhline ∧ req'.nhline ≤ req.cookieStart + n := by
  rw [httpCookieParse_eq hp] at h
  split_ifs at h
  obtain ⟨⟨st,s⟩,hloop,hst⟩ := Option.map_eq_some_iff.1 h
  cases hst
  obtain ⟨m,hreads,hm⟩ := CookieReads.loop hloop
  have hframe := hreads.frame
  have hhigh := hreads.high
  have hnhline := hreads.nhline
  change st.pp ≤ req.cookieStart + m at hhigh
  change st.req.nhline = req.cookieStart ∨ req.cookieStart ≤ st.req.nhline ∧ _ at hnhline
  refine ⟨hframe,Nat.sub_le _ _,hreads.before,?_,?_⟩
  · change req.cookieStart ≤ st.req.nhline
    omega
  · change st.req.nhline ≤ req.cookieStart + (p.length - s.length)
    omega

/-- Cookies are counted up, and the entries behind the first one that does not count are left alone. -/
theorem httpCookieParse_behind {room : ℕ} {p : List UInt8} {req req' : HttpReq} {n : ℕ}
    (h : httpCookieParseIn room p req = some (req',n)) :
    req.ncookies ≤ req'.ncookies ∧ ∀ i > req'.ncookies, req'.cookies i = req.cookies i := by
  by_cases hp : p = []
  · rw [httpCookieParseIn,if_pos hp] at h
    cases h
    exact ⟨le_rfl,fun _ _ => rfl⟩
  rw [httpCookieParse_eq hp] at h
  split_ifs at h
  obtain ⟨⟨st,s⟩,hloop,hst⟩ := Option.map_eq_some_iff.1 h
  cases hst
  obtain ⟨m,hreads,-⟩ := CookieReads.loop hloop
  have hcount : st.req.ncookies = st.c := hreads.counted rfl
  have honward : req.ncookies ≤ st.c := hreads.onward
  refine ⟨honward.trans hcount.ge,fun i hi => ?_⟩
  have hi' : st.c < i := hcount.symm.trans_lt hi
  exact (hreads.behind i hi').trans (Function.update_of_ne (honward.trans_lt hi').ne' _ _)

theorem httpCookieParse_stops {room : ℕ} {v w : List UInt8} {req req' : HttpReq} {n : ℕ}
    (h : httpCookieParseIn room (v ++ 13::w) req = some (req',n)) :
    (∃ v', (v ++ 13::w).drop n = v' ++ 13::w ∧ v' <:+ v) ∧ n ≤ v.length := by
  rw [httpCookieParse_eq (by simp)] at h
  split_ifs at h
  obtain ⟨⟨st,s⟩,hloop,hst⟩ := Option.map_eq_some_iff.1 h
  cases hst
  obtain ⟨v',rfl,u,rfl⟩ := httpCookieLoop_stops v w hloop
  have hlen : (u ++ v' ++ 13::w).length - (v' ++ 13::w).length = u.length := by
    simp only [List.length_append,List.length_cons]
    omega
  refine ⟨⟨v',?_,u,rfl⟩,?_⟩
  · rw [hlen,List.append_assoc,List.drop_left]
  · rw [hlen,List.length_append]
    omega

end Sbase
