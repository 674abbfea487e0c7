import Sbase.Http.Base64
import Sbase.Http.HeaderMap
import Sbase.Http.TableOverrun

/-! `http_request_parse`.

The bytes from `p` to `end` are a list, and `last` is the byte at `end`, which can be read too. The
values of all headers are copied to `hlines`, each one ended by a zero, and `headers` holds their
offsets. An access outside of these bytes or of an array ends the run. -/
namespace Sbase
open Memory

/-- Why a run ends without a result: the parser reads behind `end` or writes outside of an array, or one
of the parsers of arguments and cookies uses an entry that its table does not get to. -/
inductive HttpFault
  | access
  | table
deriving DecidableEq, Repr

/-- The parser at a byte: the bytes from `s` to `end`, the place of the next byte in `hlines`, the record
and the value to return. -/
structure HttpParse where
  s : List UInt8
  pp : ℕ
  req : HttpReq
  ret : ℤ

/-- `while(s < end && *s == 0x20)++s` -/
def skipSpaces (s : List UInt8) : List UInt8 := s.dropWhile (· = 32)

/-- `while(s < end && *s != '\n')s++; s++` -/
def nextLine (s : List UInt8) : List UInt8 := (s.dropWhile (· ≠ 10)).drop 1

/-- The loops that copy bytes to `hlines` as long as they pass a test. The limit `epp` lies one byte
behind the end of the array. -/
def copyWhile (test : UInt8 → Bool) (f : UInt8 → UInt8) (st : HttpParse) :
    Except HttpFault HttpParse :=
  let v := (st.s.takeWhile test).take (HTTP_HEADER_MAX + 1 - st.pp)
  if st.pp + v.length ≤ HTTP_HEADER_MAX then
    .ok { st with s := st.s.drop v.length, pp := st.pp + v.length,
                  req := { st.req with hlines := write st.req.hlines st.pp (v.map f) } }
  else .error .access

/-! ### The request line -/

/-- The method, looked up in lower case. -/
def httpMethod (map : Mtrie) (st : HttpParse) : Except HttpFault HttpParse := do
  let st ← copyWhile (· ≠ 32) lower { st with s := st.s.dropWhile fun c => c = 32 ∨ c = 9 }
  let i := mtrieGet map (read st.req.hlines 1 (st.pp - 1)) - 1
  return if 0 ≤ i then { st with req := { st.req with reqid := i } } else st

/-- The loop that decodes the path: the bytes it does not reach, the path, and the end of it. -/
def httpPathLoop : List UInt8 → Mem → ℕ → List UInt8 × Mem × ℕ
  | [], path, ps => ([],path,ps)
  | c::s, path, ps =>
    if c = 32 ∨ c = 13 ∨ c = 63 ∨ ¬ ps < HTTP_URL_PATH_MAX then (c::s,path,ps)
    else
      match escapeAt c s with
      | some b => httpPathLoop (s.drop 2) (Function.update path ps b) (ps + 1)
      | none => httpPathLoop s (Function.update path ps c) (ps + 1)
termination_by s => s.length

/-- The arguments, where a `?` follows the path. -/
def httpQuery (p : List UInt8) (last : UInt8) (st : HttpParse) : Except HttpFault HttpParse :=
  if st.s.headD last = 63 then
    let s := st.s.drop 1
    let req := { st.req with argvOff := p.length - st.s.length + 1 }
    match httpArgvParseOver s req with
    | none => .error .table
    | some (req,n) => .ok { st with s := s.drop n, req := { req with argvLen := n } }
  else .ok st

/-- The part of `http_request_parse` before the loop over the headers. A path that fills its array ends
the run, so that no line is left. -/
def httpRequestLine (map : Mtrie) (p : List UInt8) (last : UInt8) (req : HttpReq) :
    Except HttpFault HttpParse := do
  let st ← httpMethod map ⟨p,1,req,-1⟩
  let r := httpPathLoop (skipSpaces st.s) st.req.path 0
  if HTTP_URL_PATH_MAX ≤ r.2.2 then
    .ok { st with s := [], req := { st.req with path := r.2.1 } }
  else do
    let path := Function.update r.2.1 r.2.2 0
    let st ← httpQuery p last { st with s := r.1, req := { st.req with path := path } }
    .ok { st with s := nextLine st.s }

/-! ### A header line -/

/-- `strncasecmp` for equality with all of a text, over the bytes that can be read. -/
def strncasecmp : List UInt8 → List UInt8 → Option Bool
  | _, [] => some true
  | [], _::_ => none
  | c::s, b::text => if lower c = lower b then strncasecmp s text else some false

/-- `auth` for a text that was decoded to `pp`: its first `:` ends the user. -/
def httpAuth (auth : HttpKV) (pp : ℕ) (text : List UInt8) : HttpKV :=
  let nk := (text.takeWhile (· ≠ 58)).length
  let auth := { auth with k := ushort pp }
  if nk < text.length then
    { auth with nk := ushort nk, v := ushort (pp + nk + 1), nv := ushort (text.length - (nk + 1)) }
  else auth

/-- The decoded credentials, with the zero that the decoder writes behind them. -/
def httpCredentials (last : UInt8) (st : HttpParse) : Except HttpFault HttpParse :=
  let s := st.s.dropWhile fun c => c ≠ 13 ∧ c ≠ 32
  match httpBase64Decode (st.s ++ [last]) (st.s.length - s.length) with
  | none => .error .access
  | some text =>
    if st.pp + text.length < HTTP_HEADER_MAX then
      .ok { st with s := s, pp := st.pp + text.length,
                    req := { st.req with hlines := write st.req.hlines st.pp (text ++ [0]),
                                         auth := httpAuth st.req.auth st.pp text } }
    else .error .access

/-- The value of a Basic authorization. -/
def httpBasic (last : UInt8) (st : HttpParse) : Except HttpFault HttpParse := do
  let st ← copyWhile (fun c => c ≠ 32 ∧ c ≠ 13) id st
  let st ← copyWhile (· = 32) id st
  httpCredentials last st

/-- The value of a header, by the number of its name. -/
def httpValue (i : ℤ) (last : UInt8) (st : HttpParse) : Except HttpFault HttpParse :=
  if i = HEAD_REQ_COOKIE then
    match httpCookieParseOver st.s st.req with
    | none => .error .table
    | some (req,n) => .ok { st with s := st.s.drop n, pp := req.nhline, req := req }
  else if i = HEAD_REQ_AUTHORIZATION then
    match strncasecmp (st.s ++ [last]) (ascii "Basic") with
    | none => .error .access
    | some true => httpBasic last st
    | some false => copyWhile (· ≠ 13) id st
  else copyWhile (· ≠ 13) id st

/-- The offset of the value to come, for a name that was found. -/
def httpSetHeader (i : ℤ) (st : HttpParse) : Except HttpFault HttpParse :=
  if i < 0 then .ok st
  else if i < HTTP_HEADER_NUM then
    .ok { st with req := { st.req with headers := Function.update st.req.headers i.toNat st.pp },
                  ret := st.ret + 1 }
  else .error .access

/-- The end of a line. `pp` lies below `epp` here: a byte at `epp - 1` would be outside of the array. -/
def httpEndLine (st : HttpParse) : Except HttpFault HttpParse :=
  if st.pp < HTTP_HEADER_MAX then
    .ok { st with s := nextLine (st.s.drop 1), pp := st.pp + 1,
                  req := { st.req with hlines := Function.update st.req.hlines st.pp 0,
                                       nhline := st.pp + 1 } }
  else .error .access

/-- The name of a line as it is copied to `line`, up to the first space. -/
def lineToken (s : List UInt8) : List UInt8 := (s.takeWhile (· ≠ 32)).map lower

/-- The bytes from the value on. -/
def lineValue (s : List UInt8) : List UInt8 := skipSpaces (s.dropWhile (· ≠ 32))

/-- One line of the loop over the headers. The spaces in front of it are skipped past `end`. -/
def httpHeaderLine (map : Mtrie) (last : UInt8) (st : HttpParse) : Except HttpFault HttpParse :=
  let s := skipSpaces st.s
  let token := lineToken s
  if s = [] ∧ last = 32 then .error .access
  else if HTTP_HEAD_MAX ≤ token.length then .error .access
  else do
    let i := mtrieGet map token - 1
    let st ← httpSetHeader i st
    let st ← httpValue i last { st with s := lineValue s }
    httpEndLine st

/-! ### The loops -/

theorem bind_ok_iff {α β : Type} {x : Except HttpFault α} {f : α → Except HttpFault β} {b : β} :
    (x >>= f) = .ok b ↔ ∃ a, x = .ok a ∧ f a = .ok b := by
  cases x with
  | error e => simp [bind,Except.bind]
  | ok a => simp [bind,Except.bind]

/-- The parser behind the bytes that pass a test. -/
def HttpParse.copied (test : UInt8 → Bool) (f : UInt8 → UInt8) (st : HttpParse) : HttpParse :=
  let v := st.s.takeWhile test
  { st with s := st.s.dropWhile test, pp := st.pp + v.length,
            req := { st.req with hlines := write st.req.hlines st.pp (v.map f) } }

/-- Bytes are copied as a whole, or they reach past the end of the array. -/
theorem copyWhile_eq (test : UInt8 → Bool) (f : UInt8 → UInt8) (st : HttpParse) :
    copyWhile test f st = if st.pp + (st.s.takeWhile test).length ≤ HTTP_HEADER_MAX then
      .ok (st.copied test f) else .error .access := by
  have hsplit := List.takeWhile_append_dropWhile (p := test) (l := st.s)
  unfold copyWhile
  by_cases hfits : st.pp + (st.s.takeWhile test).length ≤ HTTP_HEADER_MAX
  · have htake : (st.s.takeWhile test).take (HTTP_HEADER_MAX + 1 - st.pp) = st.s.takeWhile test :=
      List.take_of_length_le (by omega)
    have hdrop := congrArg (List.drop (st.s.takeWhile test).length) hsplit
    rw [List.drop_left] at hdrop
    simp only [htake,hfits,if_true,← hdrop,HttpParse.copied]
  · rw [if_neg hfits]
    apply if_neg
    rw [List.length_take]
    omega

theorem copyWhile_ok {test : UInt8 → Bool} {f : UInt8 → UInt8} {st st' : HttpParse}
    (h : copyWhile test f st = .ok st') :
    st.pp + (st.s.takeWhile test).length ≤ HTTP_HEADER_MAX ∧ st' = st.copied test f := by
  rw [copyWhile_eq] at h
  split_ifs at h with hfits
  · cases h
    exact ⟨hfits,rfl⟩

theorem dropWhile_length_le (test : UInt8 → Bool) (s : List UInt8) :
    (s.dropWhile test).length ≤ s.length := (List.dropWhile_sublist test).length_le

/-- What the decoder of credentials does when it succeeds. -/
theorem httpCredentials_ok {last : UInt8} {st st' : HttpParse}
    (h : httpCredentials last st = .ok st') : ∃ text,
      httpBase64Decode (st.s ++ [last])
        (st.s.length - (st.s.dropWhile fun c => c ≠ 13 ∧ c ≠ 32).length) = some text ∧
      st.pp + text.length < HTTP_HEADER_MAX ∧
      st' = { st with s := st.s.dropWhile fun c => c ≠ 13 ∧ c ≠ 32, pp := st.pp + text.length,
                      req := { st.req with hlines := write st.req.hlines st.pp (text ++ [0]),
                                           auth := httpAuth st.req.auth st.pp text } } := by
  unfold httpCredentials at h
  dsimp only at h
  cases htext : httpBase64Decode (st.s ++ [last])
      (st.s.length - (st.s.dropWhile fun c => c ≠ 13 ∧ c ≠ 32).length) with
  | none =>
    rw [htext] at h
    cases h
  | some text =>
    rw [htext] at h
    dsimp only at h
    split_ifs at h with hfits
    cases h
    exact ⟨text,rfl,hfits,rfl⟩

theorem httpCredentials_length {last : UInt8} {st st' : HttpParse}
    (h : httpCredentials last st = .ok st') : st'.s.length ≤ st.s.length := by
  obtain ⟨text,-,-,rfl⟩ := httpCredentials_ok h
  exact dropWhile_length_le _ st.s

theorem copyWhile_length {test : UInt8 → Bool} {f : UInt8 → UInt8} {st st' : HttpParse}
    (h : copyWhile test f st = .ok st') : st'.s.length ≤ st.s.length := by
  obtain ⟨-,rfl⟩ := copyWhile_ok h
  exact dropWhile_length_le test st.s

/-- The ways in which a value is read: as cookies, as credentials, or up to the end of the line. -/
theorem httpValue_ok {i : ℤ} {last : UInt8} {st st' : HttpParse}
    (h : httpValue i last st = .ok st') :
    (i = HEAD_REQ_COOKIE ∧ ∃ req n, httpCookieParseOver st.s st.req = some (req,n) ∧
      st' = { st with s := st.s.drop n, pp := req.nhline, req := req }) ∨
    (i = HEAD_REQ_AUTHORIZATION ∧ httpBasic last st = .ok st') ∨
    (i ≠ HEAD_REQ_COOKIE ∧ copyWhile (· ≠ 13) id st = .ok st') := by
  unfold httpValue at h
  split_ifs at h with hcookie hauth
  · cases hparse : httpCookieParseOver st.s st.req with
    | none =>
      rw [hparse] at h
      cases h
    | some r =>
      rw [hparse] at h
      cases h
      exact .inl ⟨hcookie,r.1,r.2,rfl,rfl⟩
  · cases hcmp : strncasecmp (st.s ++ [last]) (ascii "Basic") with
    | none =>
      rw [hcmp] at h
      cases h
    | some basic =>
      rw [hcmp] at h
      cases basic with
      | true => exact .inr (.inl ⟨hauth,h⟩)
      | false => exact .inr (.inr ⟨hcookie,h⟩)
  · exact .inr (.inr ⟨hcookie,h⟩)

theorem httpValue_length {i : ℤ} {last : UInt8} {st st' : HttpParse}
    (h : httpValue i last st = .ok st') : st'.s.length ≤ st.s.length := by
  rcases httpValue_ok h with ⟨-,req,n,-,rfl⟩ | ⟨-,h⟩ | ⟨-,h⟩
  · exact (List.drop_sublist _ _).length_le
  · obtain ⟨st1,h1,h⟩ := bind_ok_iff.1 h
    obtain ⟨st2,h2,h⟩ := bind_ok_iff.1 h
    exact (httpCredentials_length h).trans ((copyWhile_length h2).trans (copyWhile_length h1))
  · exact copyWhile_length h

/-- A line takes at least one byte. -/
theorem httpHeaderLine_length {map : Mtrie} {last : UInt8} {st st' : HttpParse}
    (h : httpHeaderLine map last st = .ok st') (hs : st.s ≠ []) : st'.s.length < st.s.length := by
  have hpos : 0 < st.s.length := List.length_pos_iff.2 hs
  unfold httpHeaderLine at h
  dsimp only at h
  split_ifs at h
  obtain ⟨st1,h1,h⟩ := bind_ok_iff.1 h
  obtain ⟨st2,h2,h⟩ := bind_ok_iff.1 h
  have hvalue : st2.s.length ≤ st.s.length := by
    have hlen := httpValue_length h2
    have hskip := dropWhile_length_le (· = 32) st.s
    have htoken := dropWhile_length_le (· ≠ 32) (skipSpaces st.s)
    have hspaces := dropWhile_length_le (· = 32) ((skipSpaces st.s).dropWhile (· ≠ 32))
    exact hlen.trans (hspaces.trans (htoken.trans hskip))
  unfold httpEndLine at h
  split_ifs at h
  cases h
  have hline := dropWhile_length_le (· ≠ 10) (st2.s.drop 1)
  simp only [nextLine,List.length_drop] at hline ⊢
  omega

/-- The loop over the headers. -/
def httpHeaderLoop (map : Mtrie) (last : UInt8) (st : HttpParse) : Except HttpFault HttpParse :=
  if _hs : st.s = [] then .ok st
  else
    match _h : httpHeaderLine map last st with
    | .error e => .error e
    | .ok st' => httpHeaderLoop map last st'
termination_by st.s.length
decreasing_by exact httpHeaderLine_length _h _hs

theorem httpHeaderLoop_nil {map : Mtrie} {last : UInt8} {st : HttpParse} (hs : st.s = []) :
    httpHeaderLoop map last st = .ok st := by
  rw [httpHeaderLoop,dif_pos hs]

theorem httpHeaderLoop_cons {map : Mtrie} {last : UInt8} {st : HttpParse} (hs : st.s ≠ []) :
    httpHeaderLoop map last st = httpHeaderLine map last st >>= httpHeaderLoop map last := by
  rw [httpHeaderLoop,dif_neg hs]
  split
  · next hline => rw [hline]; rfl
  · next hline => rw [hline]; rfl

/-- `http_request_parse` on the bytes from `p` to `end`, with the byte at `end`: the record and the
result. -/
def httpRequestParse (map : Mtrie) (p : List UInt8) (last : UInt8) (req : HttpReq) :
    Except HttpFault (HttpReq × ℤ) := do
  let st ← httpRequestLine map p last req
  let st ← httpHeaderLoop map last st
  .ok (st.req,st.ret + 1)

end Sbase
