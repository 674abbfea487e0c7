import Sbase.Http.CookieTable

/-! Runs of `http_argv_parse` and `http_cookie_parse` on one record. -/
namespace Sbase
open Memory

/-- A call of one of the parsers on some bytes. -/
inductive HttpCall
  | argv (p : List UInt8)
  | cookie (p : List UInt8)

/-- The record behind a call, or `none` where it uses an entry past a table. -/
def HttpCall.run : HttpCall → HttpReq → Option HttpReq
  | .argv p, req => (httpArgvParse p req).map Prod.fst
  | .cookie p, req => (httpCookieParse p req).map Prod.fst

/-- The bytes of a call fit the record it is made on. -/
def HttpCall.Fits : HttpCall → HttpReq → Prop
  | .argv p => ArgvFits p
  | .cookie p => CookieFits p

/-- The tables hold no more entries than they have, each of them inside its buffer. -/
structure TablesRight (req : HttpReq) : Prop where
  nargvs : req.nargvs ≤ HTTP_ARGVS_MAX
  ncookies : req.ncookies ≤ HTTP_COOKIES_MAX
  argvs : ∀ i < req.nargvs, Within HTTP_ARGV_LINE_MAX (req.argvs i)
  cookies : ∀ i < req.ncookies, Within HTTP_HEADER_MAX (req.cookies i)

/-- A record that differs from another one inside of the tables and buffers alone. -/
structure OnlyInside (req req' : HttpReq) : Prop where
  argvs : ∀ i ≥ HTTP_ARGVS_MAX, req'.argvs i = req.argvs i
  cookies : ∀ i ≥ HTTP_COOKIES_MAX, req'.cookies i = req.cookies i
  line : ∀ i ≥ HTTP_ARGV_LINE_MAX, req'.line i = req.line i
  hlines : ∀ i ≥ HTTP_HEADER_MAX, req'.hlines i = req.hlines i

/-- Every call of a run writes inside and leaves the tables right. -/
def CallsRight : List HttpCall → HttpReq → Prop
  | [], _ => True
  | call::calls, req =>
    ∃ req', call.run req = some req' ∧ OnlyInside req req' ∧ TablesRight req' ∧ CallsRight calls req'

/-- Every call of a run fits the record it is made on. -/
def CallsFit : List HttpCall → HttpReq → Prop
  | [], _ => True
  | call::calls, req => call.Fits req ∧ ∀ req', call.run req = some req' → CallsFit calls req'

/-- What a run keeps of the record. -/
structure TablesReady (req : HttpReq) : Prop where
  argv : ArgvReady req
  cookie : CookieReady req
  right : TablesRight req

theorem TablesReady.zero : TablesReady HttpReq.zero where
  argv := .zero
  cookie := .zero
  right := ⟨Nat.zero_le _,Nat.zero_le _,fun _ hi => absurd hi (Nat.not_lt_zero _),
    fun _ hi => absurd hi (Nat.not_lt_zero _)⟩

theorem OnlyInside.refl (req : HttpReq) : OnlyInside req req where
  argvs _ _ := rfl
  cookies _ _ := rfl
  line _ _ := rfl
  hlines _ _ := rfl

/-- A call of the parser of arguments leaves the cookies as they are. -/
theorem SameButArgs.cookieReady {req req' : HttpReq} (h : SameButArgs req req') (hready : CookieReady req) :
    CookieReady req' := by
  rw [h]
  exact ⟨hready.ncookies,hready.unused,hready.nameLength,hready.left,hready.nhline⟩

/-- And one of the parser of cookies the arguments. -/
theorem SameButCookies.argvReady {req req' : HttpReq} (h : SameButCookies req req') (hready : ArgvReady req) :
    ArgvReady req' := by
  rw [h]
  exact ⟨hready.nargvs,hready.unused,hready.keyLength,hready.left,hready.nline⟩

/-- Entries that count stay right when a call adds right ones behind them. -/
theorem within_append {bound n n' : ℕ} {kvs kvs' : ℕ → HttpKV} (hold : ∀ i < n, Within bound (kvs i))
    (hkept : ∀ i < n, kvs' i = kvs i) (hnew : ∀ i, n ≤ i → i < n' → Within bound (kvs' i)) :
    ∀ i < n', Within bound (kvs' i) := by
  intro i hi
  rcases Nat.lt_or_ge i n with hlt | hge
  · rw [hkept i hlt]
    exact hold i hlt
  · exact hnew i hge hi

theorem argvCall_right {p : List UInt8} {req : HttpReq} (h : TablesReady req) (hfits : ArgvFits p req) :
    ∃ req', (HttpCall.argv p).run req = some req' ∧ OnlyInside req req' ∧ TablesReady req' := by
  by_cases hp : p = []
  · subst hp
    exact ⟨req,rfl,.refl req,h⟩
  obtain ⟨hsome,hcall⟩ := httpArgvParse_table hp h.argv
  obtain ⟨hroom,hplaces⟩ := hfits.resolve_left hp
  obtain ⟨⟨req',n⟩,hparse⟩ := Option.isSome_iff_exists.1 (hsome.2 hroom)
  obtain ⟨hleft,hwithin⟩ := hcall req' n hparse
  have hsame := httpArgvParse_same hparse
  have hcookies : req'.cookies = req.cookies ∧ req'.ncookies = req.ncookies ∧ req'.hlines = req.hlines := by
    rw [hsame]
    exact ⟨rfl,rfl,rfl⟩
  obtain ⟨hck,hnck,hhl⟩ := hcookies
  refine ⟨req',by rw [HttpCall.run,hparse]; rfl,
    ⟨hleft.argvs,fun i _ => congrFun hck i,hleft.line,fun i _ => congrFun hhl i⟩,
    ⟨hleft.ready,hsame.cookieReady h.cookie,hleft.ready.nargvs,?_,?_,?_⟩⟩
  · rw [hnck]
    exact h.right.ncookies
  · exact within_append h.right.argvs hleft.before (hwithin.2 hplaces)
  · rw [hnck,hck]
    exact h.right.cookies

theorem argvCall_fits {p : List UInt8} {req req' : HttpReq} (h : TablesReady req)
    (hrun : (HttpCall.argv p).run req = some req') (hright : TablesRight req') : ArgvFits p req := by
  by_cases hp : p = []
  · exact .inl hp
  obtain ⟨hsome,hcall⟩ := httpArgvParse_table hp h.argv
  obtain ⟨⟨req1,n⟩,hparse,heq⟩ := Option.map_eq_some_iff.1 hrun
  cases heq
  refine .inr ⟨hsome.1 (by rw [hparse]; rfl),(hcall _ _ hparse).2.1 fun i _ hi => ?_⟩
  exact hright.argvs i hi

theorem cookieCall_right {p : List UInt8} {req : HttpReq} (h : TablesReady req) (hfits : CookieFits p req) :
    ∃ req', (HttpCall.cookie p).run req = some req' ∧ OnlyInside req req' ∧ TablesReady req' := by
  by_cases hp : p = []
  · subst hp
    exact ⟨req,rfl,.refl req,h⟩
  obtain ⟨hsome,hcall⟩ := httpCookieParse_table hp h.cookie
  obtain ⟨hslot,hstops⟩ := hfits.resolve_left hp
  have hroom : CookieStopsFit p req := hstops.imp_right And.left
  obtain ⟨⟨req',n⟩,hparse⟩ := Option.isSome_iff_exists.1 (hsome.2 ⟨hslot,hroom⟩)
  obtain ⟨hleft,hwithin⟩ := hcall req' n hparse
  have hsame := (httpCookieParse_reads hparse hp).1
  have hargvs : req'.argvs = req.argvs ∧ req'.nargvs = req.nargvs ∧ req'.line = req.line := by
    rw [hsame]
    exact ⟨rfl,rfl,rfl⟩
  obtain ⟨har,hnar,hl⟩ := hargvs
  refine ⟨req',by rw [HttpCall.run,hparse]; rfl,
    ⟨fun i _ => congrFun har i,hleft.cookies,fun i _ => congrFun hl i,hleft.hlines⟩,
    ⟨hsame.argvReady h.argv,hleft.ready,?_,hleft.ready.ncookies,?_,?_⟩⟩
  · rw [hnar]
    exact h.right.nargvs
  · rw [hnar,har]
    exact h.right.argvs
  · exact within_append h.right.cookies hleft.before (hwithin.2 (hstops.imp_right And.right))

theorem cookieCall_fits {p : List UInt8} {req req' : HttpReq} (h : TablesReady req)
    (hrun : (HttpCall.cookie p).run req = some req') (hright : TablesRight req') : CookieFits p req := by
  by_cases hp : p = []
  · exact .inl hp
  obtain ⟨hsome,hcall⟩ := httpCookieParse_table hp h.cookie
  obtain ⟨⟨req1,n⟩,hparse,heq⟩ := Option.map_eq_some_iff.1 hrun
  cases heq
  obtain ⟨hslot,hroom⟩ := hsome.1 (by rw [hparse]; rfl)
  have hplaces := (hcall _ _ hparse).2.1 fun i _ hi => hright.cookies i hi
  refine .inr ⟨hslot,?_⟩
  rcases hroom with hhead | hroom
  · exact .inl hhead
  · exact hplaces.imp_right fun hplaces => ⟨hroom,hplaces⟩

theorem HttpCall.right_iff (call : HttpCall) {req : HttpReq} (h : TablesReady req) :
    (call.Fits req → ∃ req', call.run req = some req' ∧ OnlyInside req req' ∧ TablesReady req') ∧
      ∀ req', call.run req = some req' → TablesRight req' → call.Fits req := by
  cases call with
  | argv p => exact ⟨argvCall_right h,fun req' hrun hright => argvCall_fits h hrun hright⟩
  | cookie p => exact ⟨cookieCall_right h,fun req' hrun hright => cookieCall_fits h hrun hright⟩

theorem callsRight_iff (calls : List HttpCall) {req : HttpReq} (h : TablesReady req) :
    CallsRight calls req ↔ CallsFit calls req := by
  induction calls generalizing req with
  | nil => rfl
  | cons call calls ih =>
    obtain ⟨hright,hfits⟩ := call.right_iff h
    rw [CallsRight,CallsFit]
    constructor
    · rintro ⟨req',hrun,-,htables,hrest⟩
      have hcall := hfits req' hrun htables
      refine ⟨hcall,fun req1 hrun1 => ?_⟩
      obtain ⟨req2,hrun2,-,hready⟩ := hright hcall
      rw [hrun1,Option.some_inj] at hrun hrun2
      subst hrun hrun2
      exact (ih hready).1 hrest
    · rintro ⟨hcall,hrest⟩
      obtain ⟨req',hrun,honly,hready⟩ := hright hcall
      exact ⟨req',hrun,honly,hready.right,(ih hready).2 (hrest req' hrun)⟩

/-- For every run of calls on a record filled with zeros: all that is written lies inside of the tables and
buffers, and the entries are right, exactly when every call fits the record it is made on. -/
theorem http_tables_iff (calls : List HttpCall) : CallsRight calls .zero ↔ CallsFit calls .zero :=
  callsRight_iff calls .zero

/-- Empty cookies, each one with a `;` behind it. -/
def emptyCookies : ℕ → List UInt8
  | 0 => []
  | n+1 => 61::59::emptyCookies n

theorem cookieStops_empty (n pp : ℕ) (hroom : pp + 2 * n ≤ HTTP_HEADER_MAX) :
    (cookieStops (emptyCookies n) pp false).length = n + 1 := by
  induction n generalizing pp with
  | zero => rw [emptyCookies,cookieStops]; rfl
  | succ n ih =>
    have hskip : (emptyCookies n).dropWhile (· = 32) = emptyCookies n := by
      cases n with
      | zero => rfl
      | succ n => exact List.dropWhile_cons_of_neg (by decide)
    have hgo : ∀ {c : UInt8} {q : ℕ}, c ≠ 13 → q < HTTP_HEADER_MAX →
        ¬ (c = 13 ∨ ¬ q < HTTP_HEADER_MAX) := by
      rintro c q hc hq (h | h)
      · exact hc h
      · exact h hq
    rw [emptyCookies,cookieStops,if_neg (hgo (by decide) (by omega)),escapeAt_none _ (by decide)]
    dsimp only
    rw [if_pos ⟨rfl,rfl⟩,cookieStops,if_neg (hgo (by decide) (by omega)),escapeAt_none _ (by decide)]
    dsimp only
    rw [if_neg (by simp),if_pos ⟨rfl,rfl⟩,hskip,List.length_cons,ih (pp + 1 + 1) (by omega)]

/-- Behind the last of 64 cookies, a `;` begins a name in an entry past the table. -/
theorem http_tables_full : ¬ CallsRight [.cookie (emptyCookies 64)] .zero := by
  rw [callsRight_iff _ .zero]
  rintro ⟨hfits,-⟩
  have hstops := cookieStops_empty 64 1 (by decide)
  rcases hfits with hnil | ⟨-,hhead | ⟨hroom,-⟩⟩
  · exact absurd hnil (by decide)
  · exact absurd hhead (by decide)
  · have hstart : HttpReq.zero.cookieStart = 1 := rfl
    have hleft : decide (HttpReq.zero.cookieLeft ≠ 0) = false := rfl
    rw [hstart,hleft,hstops] at hroom
    exact absurd hroom (by decide)

end Sbase
