import Sbase.Http.RequestParse

/-! `http_response_parse` with `http_resp_cookie_parse`.

The bytes from `p` to `end` are a list, and `last` is the byte at `end`, which can be read too. Values are
copied to `hlines`; a place never leaves it, so that all offsets and lengths of a cookie fit in an
`unsigned short`. An access outside of these bytes or of an array ends the run. -/
namespace Sbase
open Memory

def HEAD_RESP_SET_COOKIE : ℤ := 48

/-- `HTTP_COOKIE` -/
structure HttpCookie where
  kv : HttpKV
  expireOff : ℕ
  expireLen : ℕ
  pathOff : ℕ
  pathLen : ℕ
  domainOff : ℕ
  domainLen : ℕ

def HttpCookie.zero : HttpCookie := ⟨⟨0,0,0,0⟩,0,0,0,0,0,0⟩

/-- `HTTP_RESPONSE` -/
structure HttpResponse where
  respid : ℤ
  ncookies : ℕ
  nhline : ℕ
  headers : ℕ → ℕ
  hlines : Mem
  cookies : ℕ → HttpCookie

/-- A response filled with zeros. -/
def HttpResponse.zero : HttpResponse where
  respid := 0
  ncookies := 0
  nhline := 0
  headers _ := 0
  hlines _ := 0
  cookies _ := .zero

/-! ### Cookies -/

/-- `strchr(s, '=')`: the bytes before it. It reads on until it meets a zero. -/
def strchrEq (m : List UInt8) : Except HttpFault (Option (List UInt8)) :=
  let name := m.takeWhile fun c => c ≠ 61 ∧ c ≠ 0
  match m.drop name.length with
  | [] => .error .access
  | c::_ => .ok (if c = 61 then some name else none)

/-- `strstr(s, needle)`: the bytes behind it. It reads on until it meets a zero. -/
def strstr (needle : List UInt8) : List UInt8 → Except HttpFault (Option (List UInt8))
  | [] => .error .access
  | c::m =>
    if needle <+: c::m then .ok (some ((c::m).drop needle.length))
    else if c = 0 then .ok none
    else strstr needle m

/-- The cookie parser at a byte: the bytes from there on, of which the last one lies at `end`, and the
place of the next byte in `hlines`. -/
structure RespCursor where
  m : List UInt8
  pp : ℕ
  hlines : Mem

/-- A value up to `;`, CR or `end` is copied and ended by a zero, and the `;` is skipped. -/
def respValue (c : RespCursor) : Except HttpFault (RespCursor × ℕ) :=
  if c.m = [] then .error .access
  else
    let v := (c.m.dropLast.takeWhile fun b => b ≠ 59 ∧ b ≠ 13).take (HTTP_HEADER_MAX - c.pp)
    let m := c.m.drop v.length
    if c.pp + v.length < HTTP_HEADER_MAX then
      .ok (⟨if m.headD 0 = 59 then m.drop 1 else m,c.pp + v.length + 1,
        write c.hlines c.pp (v ++ [0])⟩,v.length)
    else .error .access

/-- An attribute that is found: the offset and the length of its value. -/
def respAttribute (needle : List UInt8) (c : RespCursor) :
    Except HttpFault (RespCursor × Option (ℕ × ℕ)) := do
  match ← strstr needle c.m with
  | some m =>
    let r ← respValue { c with m := m }
    .ok (r.1,some (c.pp,r.2))
  | none => .ok (c,none)

/-- The record of a cookie whose name of `nk` bytes was written at `k`, with the attributes found. -/
def HttpCookie.record (cookie : HttpCookie) (k nk nv : ℕ) (e p d : Option (ℕ × ℕ)) : HttpCookie where
  kv := ⟨nk,nv,k,k + nk + 1⟩
  expireOff := e.elim cookie.expireOff Prod.fst
  expireLen := e.elim cookie.expireLen Prod.snd
  pathOff := p.elim cookie.pathOff Prod.fst
  pathLen := p.elim cookie.pathLen Prod.snd
  domainOff := d.elim cookie.domainOff Prod.fst
  domainLen := d.elim cookie.domainLen Prod.snd

/-- A cookie with a name, which is copied without a limit, and the bytes left behind its attributes. -/
def respCookie (k : ℕ) (name m : List UInt8) (resp : HttpResponse) :
    Except HttpFault (HttpResponse × List UInt8) :=
  if k + name.length < HTTP_HEADER_MAX then do
    let v ← respValue ⟨m.drop (name.length + 1),k + name.length + 1,write resp.hlines k (name ++ [0])⟩
    let e ← respAttribute (ascii "expires=") v.1
    let p ← respAttribute (ascii "path=") e.1
    let d ← respAttribute (ascii "domain=") p.1
    let cookie := (resp.cookies resp.ncookies).record k name.length v.2 e.2 p.2 d.2
    .ok ({ resp with ncookies := resp.ncookies + 1, nhline := d.1.pp, hlines := d.1.hlines,
                     cookies := Function.update resp.cookies resp.ncookies cookie },d.1.m)
  else .error .access

/-- Where a cookie is written: `hlines` is used from its second byte on. -/
def HttpResponse.cookieStart (resp : HttpResponse) : ℕ := if resp.nhline = 0 then 1 else resp.nhline

/-- `http_resp_cookie_parse`, with the number of bytes that it takes. Blanks are skipped past `end`. -/
def httpRespCookieParse (s : List UInt8) (last : UInt8) (resp : HttpResponse) :
    Except HttpFault (HttpResponse × ℕ) :=
  if s = [] ∨ HTTP_COOKIES_MAX ≤ resp.ncookies then .ok (resp,0)
  else
    let k := resp.cookieStart
    let m := (s ++ [last]).dropWhile fun c => c = 32 ∨ c = 9
    if m = [] then .error .access
    else do
      match ← strchrEq m with
      | some name =>
        if name ≠ [] ∧ k < HTTP_HEADER_MAX then do
          let r ← respCookie k name m resp
          .ok (r.1,s.length + 1 - r.2.length)
        else .ok ({ resp with nhline := k },s.length + 1 - m.length)
      | none => .ok ({ resp with nhline := k },s.length + 1 - m.length)

/-! ### The status line -/

/-- The parser at a byte. -/
structure RespParse where
  s : List UInt8
  pp : ℕ
  resp : HttpResponse
  ret : ℤ

/-- The loops that copy bytes to `hlines` as long as they pass a test and there is room. -/
def respCopyWhile (test : UInt8 → Bool) (st : RespParse) : RespParse :=
  let v := (st.s.takeWhile test).take (HTTP_HEADER_MAX - st.pp)
  { st with s := st.s.drop v.length, pp := st.pp + v.length,
            resp := { st.resp with hlines := write st.resp.hlines st.pp v } }

/-- The digits at the front. -/
def statusDigits (s : List UInt8) : List UInt8 := s.takeWhile fun c => 48 ≤ c ∧ c ≤ 57

/-- The status code, which is copied without a limit and looked up. -/
def respStatus (map : Mtrie) (st : RespParse) : Except HttpFault RespParse :=
  let x := statusDigits st.s
  if st.pp + x.length ≤ HTTP_HEADER_MAX then
    let i := mtrieGet map x - 1
    .ok { st with s := st.s.drop x.length, pp := st.pp + x.length,
                  resp := { st.resp with hlines := write st.resp.hlines st.pp x,
                                         respid := if 0 ≤ i then i else st.resp.respid } }
  else .error .access

/-- The text behind the status code, and the CR and LF that end the line. -/
def respReason (st : RespParse) : Except HttpFault RespParse :=
  let st := respCopyWhile (fun c => c ≠ 13 ∧ c ≠ 10 ∧ c ≠ 0) st
  if st.pp < HTTP_HEADER_MAX then
    .ok { st with s := st.s.dropWhile fun c => c = 13 ∨ c = 10, pp := st.pp + 1,
                  resp := { st.resp with hlines := Function.update st.resp.hlines st.pp 0 } }
  else .error .access

/-- The part of `http_response_parse` before the loop over the headers. -/
def httpStatusLine (map : Mtrie) (p : List UInt8) (resp : HttpResponse) :
    Except HttpFault RespParse := do
  let st := respCopyWhile (fun c => c ≠ 32 ∧ c ≠ 9) ⟨p,0,resp,-1⟩
  let st ← respStatus map (respCopyWhile (fun c => c = 32 ∨ c = 9) st)
  respReason st

/-! ### A header line -/

/-- The bytes of a line before the first space or colon. -/
def respName (s : List UInt8) : List UInt8 := s.takeWhile fun c => c ≠ 32 ∧ c ≠ 58

/-- The byte at which the name of a line ends. -/
def respStop (last : UInt8) (s : List UInt8) : UInt8 := (s.drop (respName s).length).headD last

/-- The name of a line as it is copied to `line`, with its colon. -/
def respToken (last : UInt8) (s : List UInt8) : List UInt8 :=
  (respName s).map lower ++ if respStop last s = 58 then [58] else []

/-- The bytes from the value on. -/
def respRest (last : UInt8) (s : List UInt8) : List UInt8 :=
  let rest := s.drop (respName s).length
  skipSpaces (if respStop last s = 58 then rest.drop 1 else rest)

/-- The offset of the value to come, for a name that was found. -/
def respSetHeader (i : ℤ) (st : RespParse) : Except HttpFault RespParse :=
  if i < 0 then .ok st
  else if i < HTTP_HEADER_NUM then
    .ok { st with resp := { st.resp with headers := Function.update st.resp.headers i.toNat st.pp },
                  ret := st.ret + 1 }
  else .error .access

/-- The cookie of a `Set-Cookie` line. -/
def respSetCookie (i : ℤ) (last : UInt8) (st : RespParse) : Except HttpFault RespParse :=
  if i = HEAD_RESP_SET_COOKIE then do
    let r ← httpRespCookieParse st.s last st.resp
    .ok { st with s := st.s.drop r.2, pp := r.1.nhline, resp := r.1 }
  else .ok st

/-- The rest of a line. Where it fills `hlines`, the parser stops, so that no line is left. -/
def respEndLine (st : RespParse) : RespParse :=
  let st := respCopyWhile (· ≠ 13) st
  if st.pp < HTTP_HEADER_MAX then
    { st with s := nextLine (st.s.drop 1), pp := st.pp + 1,
              resp := { st.resp with hlines := Function.update st.resp.hlines st.pp 0,
                                     nhline := st.pp + 1 } }
  else { st with s := [] }

/-- One line of the loop over the headers. The spaces in front of it are skipped past `end`. -/
def httpRespLine (map : Mtrie) (last : UInt8) (st : RespParse) : Except HttpFault RespParse :=
  let s := skipSpaces st.s
  let token := respToken last s
  if s = [] ∧ last = 32 then .error .access
  else if HTTP_HEAD_MAX ≤ token.length then .error .access
  else do
    let i := mtrieGet map token - 1
    let st ← respSetHeader i st
    let st ← respSetCookie i last { st with s := respRest last s }
    .ok (respEndLine st)

/-! ### The loop -/

theorem respRest_length_le (last : UInt8) (s : List UInt8) : (respRest last s).length ≤ s.length := by
  have hskip := fun bs => dropWhile_length_le (· = 32) bs
  refine (hskip _).trans ?_
  split_ifs
  · simp only [List.length_drop]
    omega
  · simp only [List.length_drop]
    omega

theorem respSetCookie_length {i : ℤ} {last : UInt8} {st st' : RespParse}
    (h : respSetCookie i last st = .ok st') : st'.s.length ≤ st.s.length := by
  rw [respSetCookie] at h
  split_ifs at h
  · obtain ⟨r,-,h⟩ := bind_ok_iff.1 h
    cases h
    exact (List.drop_sublist _ _).length_le
  · cases h
    exact le_rfl

theorem respEndLine_length (st : RespParse) : (respEndLine st).s.length ≤ st.s.length - 1 := by
  rw [respEndLine]
  dsimp only
  split_ifs
  · have hline := dropWhile_length_le (· ≠ 10) ((respCopyWhile (· ≠ 13) st).s.drop 1)
    simp only [nextLine,respCopyWhile,List.length_drop] at hline ⊢
    omega
  · exact Nat.zero_le _

/-- A line takes at least one byte. -/
theorem httpRespLine_length {map : Mtrie} {last : UInt8} {st st' : RespParse}
    (h : httpRespLine map last st = .ok st') (hs : st.s ≠ []) : st'.s.length < st.s.length := by
  have hpos : 0 < st.s.length := List.length_pos_iff.2 hs
  rw [httpRespLine] at h
  dsimp only at h
  split_ifs at h
  obtain ⟨st1,-,h⟩ := bind_ok_iff.1 h
  obtain ⟨st2,h2,h⟩ := bind_ok_iff.1 h
  cases h
  have hend := respEndLine_length st2
  have hcookie := respSetCookie_length h2
  have hrest := respRest_length_le last (skipSpaces st.s)
  have hskip := dropWhile_length_le (· = 32) st.s
  change (skipSpaces st.s).length ≤ _ at hskip
  dsimp only at hcookie
  omega

/-- The loop over the headers. -/
def httpRespLoop (map : Mtrie) (last : UInt8) (st : RespParse) : Except HttpFault RespParse :=
  if _hs : st.s = [] then .ok st
  else
    match _h : httpRespLine map last st with
    | .error e => .error e
    | .ok st' => httpRespLoop map last st'
termination_by st.s.length
decreasing_by exact httpRespLine_length _h _hs

theorem httpRespLoop_nil {map : Mtrie} {last : UInt8} {st : RespParse} (hs : st.s = []) :
    httpRespLoop map last st = .ok st := by
  rw [httpRespLoop,dif_pos hs]

theorem httpRespLoop_cons {map : Mtrie} {last : UInt8} {st : RespParse} (hs : st.s ≠ []) :
    httpRespLoop map last st = httpRespLine map last st >>= httpRespLoop map last := by
  rw [httpRespLoop,dif_neg hs]
  split
  · next hline => rw [hline]; rfl
  · next hline => rw [hline]; rfl

/-- `http_response_parse` on the bytes from `p` to `end`, with the byte at `end`: the record and the
result. -/
def httpResponseParse (map : Mtrie) (p : List UInt8) (last : UInt8) (resp : HttpResponse) :
    Except HttpFault (HttpResponse × ℤ) := do
  let st ← httpStatusLine map p resp
  let st ← httpRespLoop map last st
  .ok (st.resp,st.ret + 1)

end Sbase
