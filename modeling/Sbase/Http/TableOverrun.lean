import Sbase.Http.Argv
import Sbase.Http.Cookie

/-! What `http_argv_parse` and `http_cookie_parse` do where they count past their tables.

In an `HTTP_REQ` the arguments are followed by the cookies, and those by the path, without a gap, so that
the entries behind a table lie in what follows it. An `unsigned short` has its low byte first. -/
namespace Sbase
open Memory

/-! ### The record as it lies in memory -/

/-- The `unsigned short` at a place. -/
def shortAt (m : Mem) (i : ℕ) : ℕ := (m i).toNat + 256 * (m (i + 1)).toNat

def shortBytes (n : ℕ) : List UInt8 := [UInt8.ofNat n,UInt8.ofNat (n / 256)]

/-- The entry at a place of the path. -/
def HttpKV.ofMem (m : Mem) (i : ℕ) : HttpKV :=
  ⟨shortAt m i,shortAt m (i + 2),shortAt m (i + 4),shortAt m (i + 6)⟩

def HttpKV.bytes (kv : HttpKV) : List UInt8 :=
  shortBytes kv.nk ++ shortBytes kv.nv ++ shortBytes kv.k ++ shortBytes kv.v

/-- The number of entries behind a table that a parser can get to: the loops end by the first one, and set
up the second one before. -/
def ENTRIES_BEHIND : ℕ := 2

namespace HttpReq

/-- The cookies with the entries behind their table, which are bytes of the path. -/
def withPath (req : HttpReq) : HttpReq :=
  { req with cookies := fun i =>
      if i < HTTP_COOKIES_MAX then req.cookies i else .ofMem req.path (8 * (i - HTTP_COOKIES_MAX)) }

/-- The path with the entries that were behind the table of the cookies. -/
def storePath (req : HttpReq) : HttpReq :=
  let bytes := (req.cookies HTTP_COOKIES_MAX).bytes ++ (req.cookies (HTTP_COOKIES_MAX + 1)).bytes
  { req with path := write req.path 0 bytes }

/-- The arguments with the entries behind their table, which are cookies. -/
def withCookies (req : HttpReq) : HttpReq :=
  { req with argvs := fun i =>
      if i < HTTP_ARGVS_MAX then req.argvs i else req.cookies (i - HTTP_ARGVS_MAX) }

/-- The cookies with the entries that were behind the table of the arguments. -/
def storeCookies (req : HttpReq) : HttpReq :=
  { req with cookies := fun i =>
      if i < ENTRIES_BEHIND then req.argvs (HTTP_ARGVS_MAX + i) else req.cookies i }

end HttpReq

/-- `http_argv_parse` on the record in memory; it gets to no entry behind the two. -/
def httpArgvParseOver (p : List UInt8) (req : HttpReq) : Option (HttpReq × ℕ) :=
  (httpArgvParseIn (HTTP_ARGVS_MAX + ENTRIES_BEHIND) p req.withCookies).map fun r => (r.1.storeCookies,r.2)

/-- `http_cookie_parse` on the record in memory; it gets to no entry behind the two. -/
def httpCookieParseOver (p : List UInt8) (req : HttpReq) : Option (HttpReq × ℕ) :=
  (httpCookieParseIn (HTTP_COOKIES_MAX + ENTRIES_BEHIND) p req.withPath).map fun r => (r.1.storePath,r.2)

/-! ### No entry behind the two -/

theorem httpArgvLoop_over (s : List UInt8) {st : ArgvState} (ha : st.a ≤ HTTP_ARGVS_MAX + 1) :
    ∃ r, httpArgvLoop (HTTP_ARGVS_MAX + ENTRIES_BEHIND) s st = some r := by
  induction hn : s.length using Nat.strong_induction_on generalizing s st with
  | _ n ih =>
    cases s with
    | nil => exact ⟨_,by rw [httpArgvLoop]⟩
    | cons c s =>
      rw [List.length_cons] at hn
      rw [httpArgvLoop]
      by_cases hstop : c = 13 ∨ c = 10 ∨ c = 32 ∨ ¬ st.a < HTTP_ARGVS_MAX + 1 ∨
          ¬ st.pp < HTTP_ARGV_LINE_MAX
      · exact ⟨_,if_pos hstop⟩
      rw [if_neg hstop]
      have hlt : st.a < HTTP_ARGVS_MAX + 1 := by tauto
      split_ifs with hplus hequals hand hroom
      · exact ih _ (by omega) s ha rfl
      · exact ih _ (by omega) s ha rfl
      · exact ih _ (by omega) s (show st.a + 1 ≤ _ from hlt) rfl
      · exact absurd (Nat.add_lt_add_right hlt 1) hroom
      · cases escapeAt c s with
        | some b => exact ih _ (by rw [List.length_drop]; omega) (s.drop 2) ha rfl
        | none =>
          refine ih _ (by omega) s ?_ rfl
          unfold ArgvState.keep
          split_ifs
          · exact ha
          · exact ha

theorem httpArgvParseOver_some (p : List UInt8) (req : HttpReq) (hargs : req.nargvs ≤ HTTP_ARGVS_MAX) :
    ∃ req' n, httpArgvParseOver p req = some (req',n) := by
  have hroom : req.withCookies.nargvs < HTTP_ARGVS_MAX + ENTRIES_BEHIND :=
    Nat.lt_succ_of_le (hargs.trans (Nat.le_succ _))
  have hloop : ∀ st : ArgvState, st.a = req.nargvs → ∃ r,
      ((httpArgvLoop (HTTP_ARGVS_MAX + ENTRIES_BEHIND) p st).map fun r =>
        ((httpArgvFinish r.1).req,p.length - r.2.length)) = some r := by
    intro st ha
    obtain ⟨r,hr⟩ := httpArgvLoop_over p (ha.trans_le (hargs.trans (Nat.le_succ _)))
    exact ⟨_,by rw [hr]; rfl⟩
  have hparse : ∃ r, httpArgvParseIn (HTTP_ARGVS_MAX + ENTRIES_BEHIND) p req.withCookies = some r := by
    unfold httpArgvParseIn
    rw [if_pos hroom]
    split_ifs
    · exact ⟨_,rfl⟩
    · exact hloop _ rfl
    · exact hloop _ rfl
  obtain ⟨⟨r,n⟩,hr⟩ := hparse
  exact ⟨r.storeCookies,n,by rw [httpArgvParseOver,hr]; rfl⟩

/-- A cookie in progress that is one of the table or the first one behind it. -/
structure CookieState.InReach (st : CookieState) : Prop where
  c : st.c ≤ HTTP_COOKIES_MAX + 1
  count : st.req.ncookies = st.c

namespace CookieState.InReach

variable {st st' : CookieState}

theorem byte (h : st.InReach) (hc : st.c < HTTP_COOKIES_MAX + 1) (c : UInt8) (s : List UInt8) :
    ∃ st' s', httpCookieByte (HTTP_COOKIES_MAX + ENTRIES_BEHIND) c s st = some (st',s') ∧ st'.InReach := by
  have hroom : st.c < HTTP_COOKIES_MAX + ENTRIES_BEHIND := Nat.lt_succ_of_lt hc
  have hnext : ∀ kv : HttpKV, ((st.setCookie kv).put c).count.InReach := fun kv =>
    ⟨hc,congrArg (· + 1) h.count⟩
  unfold httpCookieByte
  cases escapeAt c s with
  | some b => exact ⟨_,_,rfl,h.c,h.count⟩
  | none =>
    dsimp only
    rw [if_neg (not_not.mpr hroom)]
    split_ifs with hplus hequals hsep hsemi hlast
    · exact ⟨_,_,rfl,h.c,h.count⟩
    · exact ⟨_,_,rfl,h.c,h.count⟩
    · have hstart := hnext { st.cookie with nv := ushortSub st.pp st.cookie.v }
      exact ⟨_,_,rfl,hstart.c,hstart.count⟩
    · exact absurd (Nat.add_lt_add_right hc 1) hlast
    · exact ⟨_,_,rfl,hnext _⟩
    · refine ⟨_,_,rfl,?_⟩
      unfold CookieState.keep
      split_ifs
      · exact ⟨h.c,h.count⟩
      · exact h

theorem finish (h : st.InReach) :
    ∃ st', httpCookieFinish (HTTP_COOKIES_MAX + ENTRIES_BEHIND) st = some st' ∧ st'.InReach := by
  unfold httpCookieFinish
  by_cases hlast : st.c < HTTP_COOKIES_MAX + 1
  · have hroom : st.c < HTTP_COOKIES_MAX + ENTRIES_BEHIND := Nat.lt_succ_of_lt hlast
    rw [if_neg (not_not.mpr hlast),if_neg (not_not.mpr hroom)]
    split_ifs
    · exact ⟨_,rfl,hlast,congrArg (· + 1) h.count⟩
    · exact ⟨st,rfl,h⟩
  · exact ⟨st,if_pos hlast,h⟩

theorem loop (s : List UInt8) (h : st.InReach) :
    ∃ st' s', httpCookieLoop (HTTP_COOKIES_MAX + ENTRIES_BEHIND) s st = some (st',s') ∧ st'.InReach := by
  induction hn : s.length using Nat.strong_induction_on generalizing s st with
  | _ n ih =>
    cases s with
    | nil => exact ⟨st,[],by rw [httpCookieLoop],h⟩
    | cons c s =>
      rw [List.length_cons] at hn
      by_cases hstop : c = 13 ∨ ¬ st.c < HTTP_COOKIES_MAX + 1 ∨ ¬ st.pp < HTTP_HEADER_MAX
      · exact ⟨st,c::s,by rw [httpCookieLoop,if_pos hstop],h⟩
      · obtain ⟨st1,s1,hbyte,h1⟩ := h.byte (by tauto) c s
        have hlen := httpCookieByte_length hbyte
        rw [httpCookieLoop_step hstop,hbyte,Option.bind_some]
        split_ifs
        · obtain ⟨st2,hfin,h2⟩ := h1.finish
          exact ⟨st2,s1,by rw [hfin]; rfl,h2⟩
        · exact ih _ (by omega) s1 h1 rfl

end CookieState.InReach

theorem httpCookieParseOver_some (p : List UInt8) {req : HttpReq} (hcookies : req.ncookies ≤ HTTP_COOKIES_MAX + 1) :
    ∃ req' n, httpCookieParseOver p req = some (req',n) ∧ req'.ncookies ≤ HTTP_COOKIES_MAX + 1 := by
  have hparse : ∃ req' n, httpCookieParseIn (HTTP_COOKIES_MAX + ENTRIES_BEHIND) p req.withPath = some (req',n) ∧
      req'.ncookies ≤ HTTP_COOKIES_MAX + 1 := by
    by_cases hp : p = []
    · exact ⟨req.withPath,0,by rw [httpCookieParseIn,if_pos hp],hcookies⟩
    · have hroom : req.withPath.ncookies < HTTP_COOKIES_MAX + ENTRIES_BEHIND := Nat.lt_succ_of_le hcookies
      have hreach : CookieState.InReach (CookieState.startName
        ⟨{ req.withPath with nhline := req.withPath.cookieStart },req.withPath.ncookies,
          req.withPath.cookieStart⟩) := ⟨hcookies,rfl⟩
      obtain ⟨st,s,hloop,hst⟩ := hreach.loop p
      rw [httpCookieParse_eq hp,if_pos hroom,hloop]
      exact ⟨_,_,rfl,hst.count.trans_le hst.c⟩
  obtain ⟨r,n,hr,hn⟩ := hparse
  exact ⟨r.storePath,n,by rw [httpCookieParseOver,hr]; rfl,hn⟩

/-! ### What the parsers leave alone -/

/-- A record that differs from another one in its arguments, their text and its cookies alone. -/
def SameButArgsOver (req req' : HttpReq) : Prop :=
  req' = { req with nargvs := req'.nargvs, nline := req'.nline, argvs := req'.argvs, line := req'.line,
                    cookies := req'.cookies }

theorem httpArgvParseOver_same {p : List UInt8} {req req' : HttpReq} {n : ℕ}
    (h : httpArgvParseOver p req = some (req',n)) : SameButArgsOver req req' := by
  obtain ⟨⟨r,m⟩,hparse,hr⟩ := Option.map_eq_some_iff.1 h
  cases hr
  have hsame := httpArgvParse_same hparse
  rw [SameButArgsOver,HttpReq.storeCookies,hsame]
  rfl

/-- A record that differs from another one in its cookies, their text, and the first bytes of its path. -/
structure SameButCookiesOver (req req' : HttpReq) : Prop where
  frame : req' = { req with ncookies := req'.ncookies, nhline := req'.nhline, cookies := req'.cookies,
                            hlines := req'.hlines, path := req'.path }
  path : ∀ i, 16 ≤ i → req'.path i = req.path i

theorem HttpKV.length_bytes (kv : HttpKV) : kv.bytes.length = 8 := rfl

theorem shortBytes_shortAt (m : Mem) (i : ℕ) : shortBytes (shortAt m i) = read m i 2 := by
  have hlow := (m i).toNat_lt
  have hbyte : UInt8.ofNat ((m i).toNat + 256 * (m (i + 1)).toNat) = m i := by
    rw [← UInt8.toNat_inj,UInt8.toNat_ofNat']
    omega
  have hhigh : ((m i).toNat + 256 * (m (i + 1)).toNat) / 256 = (m (i + 1)).toNat := by omega
  rw [shortBytes,shortAt,hbyte,hhigh,UInt8.ofNat_toNat]
  rfl

theorem HttpKV.bytes_ofMem (m : Mem) (i : ℕ) : (HttpKV.ofMem m i).bytes = read m i 8 := by
  simp only [HttpKV.bytes,HttpKV.ofMem,shortBytes_shortAt,List.append_assoc]
  rfl

theorem HttpReq.storePath_path (req : HttpReq) {i : ℕ} (hi : 16 ≤ i) : req.storePath.path i = req.path i := by
  refine write_apply_of_not_mem req.path 0 _ i ?_
  rw [List.length_append,HttpKV.length_bytes,HttpKV.length_bytes]
  omega

/-- Cookies that leave a place in the table leave the path alone. -/
theorem httpCookieParseOver_path {p : List UInt8} {req req' : HttpReq} {n : ℕ}
    (h : httpCookieParseOver p req = some (req',n)) :
    req.ncookies ≤ req'.ncookies ∧ (req'.ncookies < HTTP_COOKIES_MAX → req'.path = req.path) := by
  obtain ⟨⟨r,m⟩,hparse,hr⟩ := Option.map_eq_some_iff.1 h
  cases hr
  obtain ⟨hcount,hbehind⟩ := httpCookieParse_behind hparse
  have hpath : r.path = req.path := by
    by_cases hp : p = []
    · rw [httpCookieParseIn,if_pos hp] at hparse
      cases hparse
      rfl
    · rw [(httpCookieParse_reads hparse hp).1]
      rfl
  refine ⟨hcount,fun hroom => ?_⟩
  have hbytes : (r.cookies HTTP_COOKIES_MAX).bytes ++ (r.cookies (HTTP_COOKIES_MAX + 1)).bytes =
      read req.path 0 16 := by
    rw [hbehind _ hroom,hbehind _ (Nat.lt_succ_of_lt hroom)]
    change (HttpKV.ofMem req.path 0).bytes ++ (HttpKV.ofMem req.path 8).bytes = _
    rw [HttpKV.bytes_ofMem,HttpKV.bytes_ofMem,← read_append]
  change write r.path 0 _ = req.path
  rw [hbytes,hpath,write_read]

/-- The parser takes bytes of its line, keeps the text before its own, and moves `nhline` on. -/
theorem httpCookieParseOver_reads {p : List UInt8} {req req' : HttpReq} {n : ℕ}
    (h : httpCookieParseOver p req = some (req',n)) (hp : p ≠ []) :
    SameButCookiesOver req req' ∧ n ≤ p.length ∧
      (∀ i < req.cookieStart, req'.hlines i = req.hlines i) ∧
      req.cookieStart ≤ req'.nhline ∧ req'.nhline ≤ req.cookieStart + n := by
  obtain ⟨⟨r,m⟩,hparse,hr⟩ := Option.map_eq_some_iff.1 h
  cases hr
  obtain ⟨hframe,hm,hkept,hlow,hhigh⟩ := httpCookieParse_reads hparse hp
  refine ⟨⟨?_,fun i hi => ?_⟩,hm,hkept,hlow,hhigh⟩
  · rw [HttpReq.storePath,hframe]
    rfl
  · rw [HttpReq.storePath_path r hi,hframe]
    rfl

theorem httpCookieParseOver_stops {v w : List UInt8} {req req' : HttpReq} {n : ℕ}
    (h : httpCookieParseOver (v ++ 13::w) req = some (req',n)) :
    (∃ v', (v ++ 13::w).drop n = v' ++ 13::w ∧ v' <:+ v) ∧ n ≤ v.length := by
  obtain ⟨⟨r,m⟩,hparse,hr⟩ := Option.map_eq_some_iff.1 h
  cases hr
  exact httpCookieParse_stops hparse

end Sbase
