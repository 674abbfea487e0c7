import Sbase.Http.ArgvTable
import Sbase.Http.CookieRoundTrip

/-! The table of cookies over successive calls of `http_cookie_parse`.

A call begins in the entry behind those that count. Behind a blank that ends a value the next entry is
only looked at, and behind a `;` its name begins. -/
namespace Sbase
open Memory

/-- Behind a blank that ended a cookie: the place where the next entry is looked at, if it is. Escapes and
`+` are stored without a look. -/
def cookieBlank : List UInt8 → ℕ → List ℕ
  | [], pp => [pp]
  | c::s, pp =>
    if c = 13 then [pp]
    else if ¬ pp < HTTP_HEADER_MAX then []
    else
      match escapeAt c s with
      | some _ => cookieBlank (s.drop 2) (pp + 1)
      | none => if c = 43 then cookieBlank s (pp + 1) else [pp]
termination_by s => s.length

/-- The places in `hlines` where cookies end that are read from `pp` on, and last the place where an entry
is still in progress. `begun` tells whether the value of the first one has begun. -/
def cookieStops : List UInt8 → ℕ → Bool → List ℕ
  | [], pp, _ => [pp]
  | c::s, pp, begun =>
    if c = 13 ∨ ¬ pp < HTTP_HEADER_MAX then [pp]
    else
      match escapeAt c s with
      | some _ => cookieStops (s.drop 2) (pp + 1) begun
      | none =>
        if c = 61 ∧ begun = false then cookieStops s (pp + 1) true
        else if c = 59 ∧ begun = true then pp::cookieStops (s.dropWhile (· = 32)) (pp + 1) false
        else if (c = 32 ∨ c = 9) ∧ begun = true then pp::cookieBlank (s.dropWhile (· = 32)) (pp + 1)
        else cookieStops s (pp + 1) begun
termination_by s => s.length
decreasing_by
  all_goals
    have hskip : (s.dropWhile (· = 32)).length ≤ s.length := (List.dropWhile_sublist _).length_le
    simp only [List.length_cons,List.length_drop]
    omega

/-- The offset that a cookie left behind, or zero. -/
def HttpReq.cookieLeft (req : HttpReq) : ℕ := (req.cookies req.ncookies).v

/-- The cookies of a call fit in the table, and none ends below an offset that was left behind. -/
def CookieFits (p : List UInt8) (req : HttpReq) : Prop :=
  let stops := cookieStops p req.cookieStart (decide (req.cookieLeft ≠ 0))
  p = [] ∨ req.ncookies < HTTP_COOKIES_MAX ∧ (p.head? = some 13 ∨
    req.ncookies + stops.length ≤ HTTP_COOKIES_MAX ∧ ∀ q ∈ stops, req.cookieLeft ≤ q)

theorem cookieBlank_ge {s : List UInt8} {pp q : ℕ} (hq : q ∈ cookieBlank s pp) : pp ≤ q := by
  induction s, pp using cookieBlank.induct with
  | case1 pp =>
    rw [cookieBlank,List.mem_singleton] at hq
    exact hq.ge
  | case2 s pp =>
    rw [cookieBlank,if_pos rfl,List.mem_singleton] at hq
    exact hq.ge
  | case3 c s pp hc hfull =>
    rw [cookieBlank,if_neg hc,if_pos hfull] at hq
    cases hq
  | case4 c s pp hc hroom b hb ih =>
    rw [cookieBlank,if_neg hc,if_neg hroom,hb] at hq
    exact (Nat.le_succ pp).trans (ih hq)
  | case5 s pp hc hroom hnone ih =>
    rw [cookieBlank,if_neg hc,if_neg hroom,hnone] at hq
    exact (Nat.le_succ pp).trans (ih hq)
  | case6 c s pp hc hroom hnone hplus =>
    rw [cookieBlank,if_neg hc,if_neg hroom,hnone] at hq
    dsimp only at hq
    rw [if_neg hplus,List.mem_singleton] at hq
    exact hq.ge

theorem cookieBlank_le (s : List UInt8) (pp : ℕ) : (cookieBlank s pp).length ≤ 1 := by
  induction s, pp using cookieBlank.induct with
  | case1 pp => simp [cookieBlank]
  | case2 s pp => rw [cookieBlank,if_pos rfl]; exact le_rfl
  | case3 c s pp hc hfull => rw [cookieBlank,if_neg hc,if_pos hfull]; exact Nat.zero_le 1
  | case4 c s pp hc hroom b hb ih => rwa [cookieBlank,if_neg hc,if_neg hroom,hb]
  | case5 s pp hc hroom hnone ih => rwa [cookieBlank,if_neg hc,if_neg hroom,hnone]
  | case6 c s pp hc hroom hnone hplus =>
    rw [cookieBlank,if_neg hc,if_neg hroom,hnone]
    dsimp only
    rw [if_neg hplus]
    exact le_rfl

theorem cookieStops_bounds (s : List UInt8) (pp : ℕ) (begun : Bool) :
    0 < (cookieStops s pp begun).length ∧ ∀ q ∈ cookieStops s pp begun, pp ≤ q := by
  have hone : ∀ pp : ℕ, 0 < [pp].length ∧ ∀ q ∈ [pp], pp ≤ q := by simp
  have hnext : ∀ {pp : ℕ} {l : List ℕ}, (0 < l.length ∧ ∀ q ∈ l, pp + 1 ≤ q) →
      0 < l.length ∧ ∀ q ∈ l, pp ≤ q :=
    fun h => ⟨h.1,fun q hq => (Nat.le_succ _).trans (h.2 q hq)⟩
  have hcons : ∀ {pp : ℕ} {l : List ℕ}, (∀ q ∈ l, pp + 1 ≤ q) →
      0 < (pp::l).length ∧ ∀ q ∈ pp::l, pp ≤ q := by
    intro pp l h
    refine ⟨Nat.succ_pos _,fun q hq => ?_⟩
    rcases List.mem_cons.1 hq with rfl | hq
    · exact le_rfl
    · exact (Nat.le_succ _).trans (h q hq)
  induction s, pp, begun using cookieStops.induct with
  | case1 pp begun =>
    rw [cookieStops]
    exact hone pp
  | case2 c s pp begun hstop =>
    rw [cookieStops,if_pos hstop]
    exact hone pp
  | case3 c s pp begun hgo b hb ih =>
    rw [cookieStops,if_neg hgo,hb]
    exact hnext ih
  | case4 c s pp begun hgo hnone hequals ih =>
    rw [cookieStops,if_neg hgo,hnone]
    dsimp only
    rw [if_pos hequals]
    exact hnext ih
  | case5 c s pp begun hgo hnone hequals hsemi ih =>
    rw [cookieStops,if_neg hgo,hnone]
    dsimp only
    rw [if_neg hequals,if_pos hsemi]
    exact hcons ih.2
  | case6 c s pp begun hgo hnone hequals hsemi hblank =>
    rw [cookieStops,if_neg hgo,hnone]
    dsimp only
    rw [if_neg hequals,if_neg hsemi,if_pos hblank]
    exact hcons fun q hq => cookieBlank_ge hq
  | case7 c s pp begun hgo hnone hequals hsemi hblank ih =>
    rw [cookieStops,if_neg hgo,hnone]
    dsimp only
    rw [if_neg hequals,if_neg hsemi,if_neg hblank]
    exact hnext ih

/-- What the calls keep of a record: the entries behind those that count are unused, but for the cookie in
front of them. -/
structure CookieReady (req : HttpReq) : Prop where
  ncookies : req.ncookies ≤ HTTP_COOKIES_MAX
  unused : ∀ i > req.ncookies, (req.cookies i).k = 0 ∧ (req.cookies i).v = 0
  nameLength : req.cookieLeft ≠ 0 → req.cookieStart + (req.cookies req.ncookies).nk ≤ HTTP_HEADER_MAX
  left : req.cookieLeft ≤ HTTP_HEADER_MAX
  nhline : req.nhline ≤ HTTP_HEADER_MAX

namespace CookieState

/-- The value of the entry in progress has begun. -/
def begun (st : CookieState) : Bool := decide (st.cookie.v ≠ 0)

/-- What every round of the loop keeps as long as a cookie is in progress. -/
structure Sound (req : HttpReq) (st : CookieState) : Prop where
  slot : st.c < HTTP_COOKIES_MAX
  ncookies : st.req.ncookies = st.c
  unused : ∀ i > st.c, (st.req.cookies i).k = 0 ∧ (st.req.cookies i).v = 0
  key : st.cookie.k = st.req.nhline
  nhline : st.req.nhline ≠ 0 ∧ st.req.nhline ≤ st.pp
  nameLength : st.cookie.v ≠ 0 → st.cookie.k + st.cookie.nk ≤ HTTP_HEADER_MAX
  value : st.cookie.v ≤ HTTP_HEADER_MAX
  pp : st.pp ≤ HTTP_HEADER_MAX
  cookies : ∀ i ≥ HTTP_COOKIES_MAX, st.req.cookies i = req.cookies i
  hlines : ∀ i ≥ HTTP_HEADER_MAX, st.req.hlines i = req.hlines i

/-- What it keeps behind a blank that ended a cookie. -/
structure Blank (req : HttpReq) (st : CookieState) : Prop where
  slot : st.c ≤ HTTP_COOKIES_MAX
  ncookies : st.req.ncookies = st.c
  unused : ∀ i ≥ st.c, (st.req.cookies i).k = 0 ∧ (st.req.cookies i).v = 0
  nhline : st.req.nhline ≤ st.pp
  pp : st.pp ≤ HTTP_HEADER_MAX
  cookies : ∀ i ≥ HTTP_COOKIES_MAX, st.req.cookies i = req.cookies i
  hlines : ∀ i ≥ HTTP_HEADER_MAX, st.req.hlines i = req.hlines i

/-- What the rest of a call leaves: the entries before those in progress, and those it counts, of which
only the first can be wrong. -/
structure Read (req : HttpReq) (st st' : CookieState) (stops : List ℕ) : Prop where
  ready : CookieReady st'.req
  le : st.c ≤ st'.req.ncookies
  before : ∀ i < st.c, st'.req.cookies i = st.req.cookies i
  cookies : ∀ i ≥ HTTP_COOKIES_MAX, st'.req.cookies i = req.cookies i
  hlines : ∀ i ≥ HTTP_HEADER_MAX, st'.req.hlines i = req.hlines i
  right : (∀ q ∈ stops, st.cookie.v ≤ q) → ∀ i, st.c ≤ i → i < st'.req.ncookies →
    Within HTTP_HEADER_MAX (st'.req.cookies i)
  wrong : (∃ q ∈ stops, q < st.cookie.v) →
    st.c < st'.req.ncookies ∧ ¬ Within HTTP_HEADER_MAX (st'.req.cookies st.c)

namespace Sound

variable {req : HttpReq} {st : CookieState}

theorem key_ne (h : Sound req st) : st.cookie.k ≠ 0 := by
  rw [h.key]
  exact h.nhline.1

theorem put (h : Sound req st) (hpp : st.pp < HTTP_HEADER_MAX) (b : UInt8) : Sound req (st.put b) where
  slot := h.slot
  ncookies := h.ncookies
  unused := h.unused
  key := h.key
  nhline := ⟨h.nhline.1,h.nhline.2.trans (Nat.le_succ _)⟩
  nameLength := h.nameLength
  value := h.value
  pp := hpp
  cookies := h.cookies
  hlines i hi := (Function.update_of_ne (show i ≠ st.pp by omega) _ _).trans (h.hlines i hi)

/-- A change of the entry in progress. -/
theorem setCookie (h : Sound req st) (kv : HttpKV) (hk : kv.k = st.cookie.k)
    (hlen : kv.v ≠ 0 → kv.k + kv.nk ≤ HTTP_HEADER_MAX) (hv : kv.v ≤ HTTP_HEADER_MAX) :
    Sound req (st.setCookie kv) where
  slot := h.slot
  ncookies := h.ncookies
  unused i hi := by
    have hother : (st.setCookie kv).req.cookies i = st.req.cookies i :=
      Function.update_of_ne (Nat.ne_of_gt (show st.c < i from hi)) _ _
    rw [hother]
    exact h.unused i hi
  key := by
    rw [cookie_setCookie,hk]
    exact h.key
  nhline := h.nhline
  nameLength := by
    rw [cookie_setCookie]
    exact hlen
  value := by
    rw [cookie_setCookie]
    exact hv
  pp := h.pp
  cookies i hi := by
    have hslot := h.slot
    have hother : (st.setCookie kv).req.cookies i = st.req.cookies i := Function.update_of_ne (by omega) _ _
    rw [hother]
    exact h.cookies i hi
  hlines := h.hlines

theorem startValue (h : Sound req st) (hpp : st.pp < HTTP_HEADER_MAX) (hv : st.cookie.v = 0) :
    Sound req st.startValue ∧ st.startValue.cookie.v = st.pp + 1 := by
  have hmax : HTTP_HEADER_MAX < 65536 := by decide
  have hkey : st.cookie.k ≤ st.pp := by
    rw [h.key]
    exact h.nhline.2
  have hnk : st.cookie.k + ushortSub st.pp st.cookie.k = st.pp := by
    rw [ushortSub_of_le hkey (by omega)]
    omega
  have hplace : ushort (st.pp + 1) = st.pp + 1 := ushort_of_lt (by omega)
  have hname := h.setCookie { st.cookie with nk := ushortSub st.pp st.cookie.k } rfl
    (fun hv' => absurd hv hv') h.value
  refine ⟨(hname.put hpp 61).setCookie _ rfl (fun _ => ?_) ?_,?_⟩
  · rw [cookie_put,cookie_setCookie]
    dsimp only
    omega
  · change ushort (st.pp + 1) ≤ _
    rw [hplace]
    exact hpp
  · rw [cookie_startValue]
    exact hplace

/-- The entry of a cookie that counts is right exactly when its value does not end below its start. -/
theorem within_iff (h : Sound req st) (hv : st.cookie.v ≠ 0) :
    Within HTTP_HEADER_MAX { st.cookie with nv := ushortSub st.pp st.cookie.v } ↔ st.cookie.v ≤ st.pp := by
  have hmax : HTTP_HEADER_MAX < 65536 := by decide
  have hvalue := h.value
  have hpp := h.pp
  rw [Within]
  dsimp only
  rcases Nat.lt_or_ge st.pp st.cookie.v with hgt | hle
  · rw [ushortSub_of_gt hgt (by omega)]
    omega
  · rw [ushortSub_of_le hle (by omega)]
    have hkey := h.nameLength hv
    omega

/-- When a cookie counts, its entry holds the length up to its end, and the next one is unused. -/
theorem setLength (h : Sound req st) :
    st.setLength.req.cookies st.c = { st.cookie with nv := ushortSub st.pp st.cookie.v } ∧
      (∀ i, i ≠ st.c → st.setLength.req.cookies i = st.req.cookies i) ∧
      ∀ i ≥ HTTP_COOKIES_MAX, st.setLength.req.cookies i = req.cookies i := by
  have hslot := h.slot
  refine ⟨Function.update_self _ _ _,fun i hi => Function.update_of_ne hi _ _,fun i hi => ?_⟩
  have hother : st.setLength.req.cookies i = st.req.cookies i := Function.update_of_ne (by omega) _ _
  rw [hother]
  exact h.cookies i hi

/-- The state behind a separator. -/
theorem blank (h : Sound req st) (hpp : st.pp < HTTP_HEADER_MAX) (b : UInt8) :
    Blank req (st.setLength.put b).count := by
  obtain ⟨-,hother,hcookies⟩ := h.setLength
  refine ⟨h.slot,congrArg (· + 1) h.ncookies,fun i hi => ?_,le_rfl,hpp,hcookies,fun i hi => ?_⟩
  · have hi' : st.c < i := hi
    change (st.setLength.req.cookies i).k = 0 ∧ (st.setLength.req.cookies i).v = 0
    rw [hother i hi'.ne']
    exact h.unused i hi'
  · exact (Function.update_of_ne (show i ≠ st.pp by omega) _ _).trans (h.hlines i hi)

theorem startName (h : Sound req st) (hpp : st.pp < HTTP_HEADER_MAX)
    (hslot : st.c + 1 < HTTP_COOKIES_MAX) (b : UInt8) :
    Sound req (st.setLength.put b).count.startName ∧ (st.setLength.put b).count.startName.cookie.v = 0 ∧
      ∀ i ≤ st.c, (st.setLength.put b).count.startName.req.cookies i = st.setLength.req.cookies i := by
  have hmax : HTTP_HEADER_MAX < 65536 := by decide
  have hblank := h.blank hpp b
  have hplace : ushort (st.pp + 1) = st.pp + 1 := ushort_of_lt (by omega)
  have hvalue : (st.setLength.put b).count.startName.cookie.v = 0 := by
    rw [cookie_startName]
    exact (hblank.unused _ le_rfl).2
  have hother : ∀ i, i ≠ st.c + 1 → (st.setLength.put b).count.startName.req.cookies i =
      (st.setLength.put b).count.req.cookies i := fun i hi => Function.update_of_ne hi _ _
  refine ⟨⟨hslot,hblank.ncookies,fun i hi => ?_,?_,⟨Nat.succ_ne_zero _,le_rfl⟩,
    fun hne => absurd hvalue hne,by rw [hvalue]; exact Nat.zero_le _,hpp,fun i hi => ?_,hblank.hlines⟩,hvalue,
    fun i hi => hother i (by omega)⟩
  · have hi' : st.c + 1 < i := hi
    rw [hother i hi'.ne']
    exact hblank.unused i hi'.le
  · rw [cookie_startName]
    exact hplace
  · rw [hother i (by omega)]
    exact hblank.cookies i hi

end Sound

/-! ### The record at the end of a call -/

theorem Blank.ready {req : HttpReq} {st : CookieState} (h : Blank req st) : CookieReady st.req := by
  have hleft : st.req.cookieLeft = 0 := by
    rw [HttpReq.cookieLeft,h.ncookies]
    exact (h.unused _ le_rfl).2
  refine ⟨h.ncookies.le.trans h.slot,fun i hi => h.unused i ?_,fun hne => absurd hleft hne,?_,
    h.nhline.trans h.pp⟩
  · have hncookies := h.ncookies
    omega
  · rw [hleft]
    exact Nat.zero_le _

theorem Sound.ready {req : HttpReq} {st : CookieState} (h : Sound req st) : CookieReady st.req := by
  have hleft : st.req.cookieLeft = st.cookie.v := by
    rw [HttpReq.cookieLeft,h.ncookies]
    rfl
  have hstart : st.req.cookieStart = st.cookie.k := by
    rw [HttpReq.cookieStart,if_neg h.nhline.1,h.key]
  refine ⟨h.ncookies.le.trans h.slot.le,fun i hi => h.unused i (h.ncookies ▸ hi),?_,hleft ▸ h.value,
    h.nhline.2.trans h.pp⟩
  rw [hleft,hstart,h.ncookies]
  exact h.nameLength

/-- The last cookie of a line. -/
theorem Sound.last {req : HttpReq} {st : CookieState} (h : Sound req st) :
    Blank req st.setLength.count := by
  obtain ⟨-,hother,hcookies⟩ := h.setLength
  refine ⟨h.slot,congrArg (· + 1) h.ncookies,fun i hi => ?_,le_rfl,h.pp,hcookies,h.hlines⟩
  have hi' : st.c < i := hi
  change (st.setLength.req.cookies i).k = 0 ∧ (st.setLength.req.cookies i).v = 0
  rw [hother i hi'.ne']
  exact h.unused i hi'

/-- A call that ends with the cookie in progress. -/
theorem Read.stop {req : HttpReq} {st : CookieState} (h : Sound req st)
    (hpp : st.cookie.v ≤ st.pp) : Read req st st [st.pp] where
  ready := h.ready
  le := h.ncookies.ge
  before _ _ := rfl
  cookies := h.cookies
  hlines := h.hlines
  right _ i hlow hhigh := by
    rw [h.ncookies] at hhigh
    exact absurd hhigh (not_lt.2 hlow)
  wrong := by
    rintro ⟨q,hq,hlt⟩
    rw [List.mem_singleton] at hq
    omega

/-- A cookie that counts as the last one that is read. -/
theorem Read.count {req : HttpReq} {st st' : CookieState} {stops : List ℕ} (h : Sound req st)
    (hv : st.cookie.v ≠ 0) (hblank : Blank req st') (hc : st'.c = st.c + 1)
    (hcookies : st'.req.cookies = st.setLength.req.cookies) (hstops : ∀ q ∈ stops, st.pp ≤ q) :
    Read req st st' (st.pp::stops) := by
  obtain ⟨hentry,hother,-⟩ := h.setLength
  have hcount : st'.req.ncookies = st.c + 1 := hblank.ncookies.trans hc
  refine ⟨hblank.ready,by rw [hcount]; exact Nat.le_succ _,fun i hi => ?_,hblank.cookies,hblank.hlines,?_,?_⟩
  · rw [hcookies]
    exact hother i hi.ne
  · intro hq i hlow hhigh
    have heq : i = st.c := by omega
    subst heq
    rw [hcookies,hentry,h.within_iff hv]
    exact hq st.pp (List.mem_cons_self ..)
  · rintro ⟨q,hq,hlt⟩
    have hbelow : st.pp < st.cookie.v := by
      rcases List.mem_cons.1 hq with rfl | hq
      · exact hlt
      · exact (hstops q hq).trans_lt hlt
    refine ⟨by omega,?_⟩
    rw [hcookies,hentry,h.within_iff hv]
    exact not_le.2 hbelow

/-- A round in the same entry, before the rest of the loop. -/
theorem Read.same {req : HttpReq} {st st1 st' : CookieState} {stops : List ℕ} (h : Read req st1 st' stops)
    (hc : st1.c = st.c) (hcookies : ∀ i < st.c, st1.req.cookies i = st.req.cookies i)
    (hright : (∀ q ∈ stops, st.cookie.v ≤ q) → ∀ q ∈ stops, st1.cookie.v ≤ q)
    (hwrong : (∃ q ∈ stops, q < st.cookie.v) → ∃ q ∈ stops, q < st1.cookie.v) : Read req st st' stops where
  ready := h.ready
  le := hc ▸ h.le
  before i hi := (h.before i (hc ▸ hi)).trans (hcookies i hi)
  cookies := h.cookies
  hlines := h.hlines
  right hq := hc ▸ h.right (hright hq)
  wrong hq := hc ▸ h.wrong (hwrong hq)

/-- A cookie that counts in front of a `;`, before the rest of the loop. -/
theorem Read.next {req : HttpReq} {st st' : CookieState} {stops : List ℕ} (h : Sound req st) (hv : st.cookie.v ≠ 0)
    (hpp : st.pp < HTTP_HEADER_MAX) (hslot : st.c + 1 < HTTP_COOKIES_MAX) (hstops : ∀ q ∈ stops, st.pp ≤ q)
    (hread : Read req (st.setLength.put 59).count.startName st' stops) : Read req st st' (st.pp::stops) := by
  obtain ⟨hentry,hother,-⟩ := h.setLength
  obtain ⟨-,hzero,hkeep⟩ := h.startName hpp hslot 59
  have hfirst : st'.req.cookies st.c = { st.cookie with nv := ushortSub st.pp st.cookie.v } := by
    rw [hread.before st.c (Nat.lt_succ_self _),hkeep st.c le_rfl,hentry]
  refine ⟨hread.ready,(Nat.le_succ _).trans hread.le,fun i hi => ?_,hread.cookies,hread.hlines,?_,?_⟩
  · rw [hread.before i (Nat.lt_succ_of_lt hi),hkeep i hi.le]
    exact hother i hi.ne
  · intro hq i hlow hhigh
    have hrecorded := hread.right fun q _ => by
      rw [hzero]
      exact Nat.zero_le q
    rcases Nat.lt_or_ge st.c i with hi | hi
    · exact hrecorded i hi hhigh
    · have heq : i = st.c := Nat.le_antisymm hi hlow
      subst heq
      rw [hfirst,h.within_iff hv]
      exact hq st.pp (List.mem_cons_self ..)
  · rintro ⟨q,hq,hlt⟩
    have hbelow : st.pp < st.cookie.v := by
      rcases List.mem_cons.1 hq with rfl | hq
      · exact hlt
      · exact (hstops q hq).trans_lt hlt
    refine ⟨hread.le,?_⟩
    rw [hfirst,h.within_iff hv]
    exact not_le.2 hbelow

/-! ### The loop -/

theorem Blank.put {req : HttpReq} {st : CookieState} (h : Blank req st) (hpp : st.pp < HTTP_HEADER_MAX)
    (b : UInt8) : Blank req (st.put b) where
  slot := h.slot
  ncookies := h.ncookies
  unused := h.unused
  nhline := h.nhline.trans (Nat.le_succ _)
  pp := hpp
  cookies := h.cookies
  hlines i hi := (Function.update_of_ne (show i ≠ st.pp by omega) _ _).trans (h.hlines i hi)

theorem cookieBlank_end {s : List UInt8} (hs : AtEnd s) (pp : ℕ) : cookieBlank s pp = [pp] := by
  rcases hs with rfl | hs
  · rw [cookieBlank]
  · cases s with
    | nil => cases hs
    | cons c s => rw [cookieBlank,if_pos (Option.some.inj hs)]

theorem cookieStops_end {s : List UInt8} (hs : AtEnd s) (pp : ℕ) (begun : Bool) :
    cookieStops s pp begun = [pp] := by
  rcases hs with rfl | hs
  · rw [cookieStops]
  · cases s with
    | nil => cases hs
    | cons c s => rw [cookieStops,if_pos (.inl (Option.some.inj hs))]

theorem dropWhile_sublist_length (s : List UInt8) : (s.dropWhile (· = 32)).length ≤ s.length :=
  (List.dropWhile_sublist _).length_le

/-- Behind a blank no cookie counts any more. -/
theorem Blank.loop {req : HttpReq} {st : CookieState} (h : Blank req st) (s : List UInt8) :
    ((httpCookieNext s st).isSome ↔ st.c + (cookieBlank s st.pp).length ≤ HTTP_COOKIES_MAX) ∧
      ∀ st' s', httpCookieNext s st = some (st',s') →
        Blank req st' ∧ st'.c = st.c ∧ st'.req.cookies = st.req.cookies := by
  induction hn : s.length using Nat.strong_induction_on generalizing s st with
  | _ n ih =>
    have hslot := h.slot
    have hzero : ¬ (st.cookie.k ≠ 0 ∧ st.cookie.v ≠ 0) ∧ st.cookie.k = 0 ∧ st.cookie.v = 0 := by
      obtain ⟨hk,hv⟩ := h.unused st.c le_rfl
      exact ⟨fun hne => hne.1 hk,hk,hv⟩
    by_cases hend : AtEnd s
    · rw [httpCookieNext,if_pos hend,cookieBlank_end hend,httpCookieFinish,
        if_neg (not_not.2 (Nat.lt_succ_of_le hslot)),if_neg hzero.1]
      by_cases hroom : st.c < HTTP_COOKIES_MAX
      · rw [if_neg (not_not.2 hroom)]
        refine ⟨iff_of_true rfl hroom,fun st' s' heq => ?_⟩
        cases heq
        exact ⟨h,rfl,rfl⟩
      · rw [if_pos hroom]
        refine ⟨iff_of_false (by simp) (fun hle => hroom hle),fun st' s' heq => ?_⟩
        cases heq
    rw [httpCookieNext,if_neg hend]
    cases s with
    | nil => exact absurd (.inl rfl) hend
    | cons c s =>
      have hc : c ≠ 13 := fun hc => hend (.inr (congrArg some hc))
      rw [List.length_cons] at hn
      rw [cookieBlank,if_neg hc]
      by_cases hfull : st.pp < HTTP_HEADER_MAX
      · have hgo : ¬ (c = 13 ∨ ¬ st.c < HTTP_COOKIES_MAX + 1 ∨ ¬ st.pp < HTTP_HEADER_MAX) := by
          rintro (h13 | hlast | hpp)
          · exact hc h13
          · exact hlast (Nat.lt_succ_of_le hslot)
          · exact hpp hfull
        have hnext : httpCookieLoop HTTP_COOKIES_MAX (c::s) st =
            (httpCookieByte HTTP_COOKIES_MAX c s st).bind fun r => httpCookieNext r.2 r.1 := httpCookieLoop_step hgo
        rw [hnext,if_neg (not_not.2 hfull),httpCookieByte]
        cases hesc : escapeAt c s with
        | some b =>
          have hlen := (List.drop_sublist 2 s).length_le
          exact ih (s.drop 2).length (by omega) (h.put hfull b) (s.drop 2) rfl
        | none =>
          dsimp only
          by_cases hplus : c = 43
          · rw [if_pos hplus,if_pos hplus]
            exact ih s.length (by omega) (h.put hfull 32) s rfl
          rw [if_neg hplus,if_neg hplus]
          by_cases hroom : st.c < HTTP_COOKIES_MAX
          · have hkeep : st.keep c = st := if_neg (by tauto)
            obtain ⟨hsome,hread⟩ := ih s.length (by omega) h s rfl
            have hle := cookieBlank_le s st.pp
            rw [if_neg (not_not.2 hroom),if_neg fun hv => hv.2.1 hzero.2.1,
              if_neg fun hv => hzero.1 hv.2,hkeep]
            exact ⟨iff_of_true (hsome.2 (by omega)) hroom,hread⟩
          · rw [if_pos hroom]
            refine ⟨iff_of_false (by simp) (fun hle => hroom hle),fun st' s' heq => ?_⟩
            cases heq
      · rw [if_pos hfull,httpCookieLoop,if_pos (.inr (.inr hfull))]
        refine ⟨iff_of_true rfl hslot,fun st' s' heq => ?_⟩
        cases heq
        exact ⟨h,rfl,rfl⟩

namespace Sound

variable {req : HttpReq} {st : CookieState}

/-- A round of the loop stores a byte, begins a value, or ends a cookie at a `;` or a blank. -/
theorem round (h : Sound req st) {c : UInt8} (s : List UInt8) (hc : c ≠ 13) (hpp : st.pp < HTTP_HEADER_MAX) :
    (∃ b s', s'.length ≤ s.length ∧ httpCookieByte HTTP_COOKIES_MAX c s st = some (st.put b,s') ∧
      cookieStops (c::s) st.pp st.begun = cookieStops s' (st.pp + 1) st.begun) ∨
    (st.cookie.v = 0 ∧ httpCookieByte HTTP_COOKIES_MAX c s st = some (st.startValue,s) ∧
      cookieStops (c::s) st.pp st.begun = cookieStops s (st.pp + 1) true) ∨
    (st.cookie.v ≠ 0 ∧ httpCookieByte HTTP_COOKIES_MAX c s st =
        (if st.c + 1 < HTTP_COOKIES_MAX then
          some ((st.setLength.put 59).count.startName,s.dropWhile (· = 32)) else none) ∧
      cookieStops (c::s) st.pp st.begun =
        st.pp::cookieStops (s.dropWhile (· = 32)) (st.pp + 1) false) ∨
    (st.cookie.v ≠ 0 ∧ httpCookieByte HTTP_COOKIES_MAX c s st =
        some ((st.setLength.put c).count,s.dropWhile (· = 32)) ∧
      cookieStops (c::s) st.pp st.begun = st.pp::cookieBlank (s.dropWhile (· = 32)) (st.pp + 1)) := by
  have hk := h.key_ne
  have hgo : ¬ (c = 13 ∨ ¬ st.pp < HTTP_HEADER_MAX) := by
    rintro (h13 | hfull)
    · exact hc h13
    · exact hfull hpp
  have hnot : st.begun = false ↔ st.cookie.v = 0 := by simp [begun]
  have hyes : st.begun = true ↔ st.cookie.v ≠ 0 := by simp [begun]
  rw [cookieStops,if_neg hgo,httpCookieByte]
  cases hesc : escapeAt c s with
  | some b => exact .inl ⟨b,s.drop 2,(List.drop_sublist 2 s).length_le,rfl,rfl⟩
  | none =>
    simp only [hnot,hyes]
    by_cases hplus : c = 43
    · subst hplus
      rw [if_pos rfl,if_neg (by simp),if_neg (by simp),if_neg (by simp)]
      exact .inl ⟨32,s,le_rfl,rfl,rfl⟩
    rw [if_neg hplus,if_neg (not_not.2 h.slot)]
    by_cases hequals : c = 61 ∧ st.cookie.v = 0
    · rw [if_pos ⟨hequals.1,hk,hequals.2⟩,if_pos hequals]
      exact .inr (.inl ⟨hequals.2,rfl,rfl⟩)
    rw [if_neg (by tauto),if_neg hequals]
    by_cases hsemi : c = 59 ∧ st.cookie.v ≠ 0
    · obtain ⟨rfl,hv⟩ := hsemi
      rw [if_pos ⟨.inl rfl,hk,hv⟩,if_pos rfl]
      exact .inr (.inr (.inl ⟨hv,rfl,if_pos ⟨rfl,hv⟩⟩))
    by_cases hblank : (c = 32 ∨ c = 9) ∧ st.cookie.v ≠ 0
    · have h59 : c ≠ 59 := fun h => hsemi ⟨h,hblank.2⟩
      rw [if_pos ⟨by tauto,hk,hblank.2⟩,if_neg hsemi,if_pos hblank,if_neg h59]
      exact .inr (.inr (.inr ⟨hblank.2,rfl,rfl⟩))
    · have hkeep : st.keep c = st.put c := if_pos (.inl hk)
      rw [if_neg (by tauto),if_neg hsemi,if_neg hblank,hkeep]
      exact .inl ⟨c,s,le_rfl,rfl,rfl⟩

theorem loop (h : Sound req st) (s : List UInt8) :
    ((httpCookieNext s st).isSome ↔ st.c + (cookieStops s st.pp st.begun).length ≤ HTTP_COOKIES_MAX) ∧
      ∀ st' s', httpCookieNext s st = some (st',s') → Read req st st' (cookieStops s st.pp st.begun) := by
  induction hn : s.length using Nat.strong_induction_on generalizing s st with
  | _ n ih =>
    have hslot := h.slot
    have hvalue := h.value
    by_cases hend : AtEnd s
    · rw [httpCookieNext,if_pos hend,cookieStops_end hend,httpCookieFinish,
        if_neg (not_not.2 (Nat.lt_succ_of_lt hslot)),if_neg (not_not.2 hslot)]
      by_cases hcount : st.cookie.k ≠ 0 ∧ st.cookie.v ≠ 0
      · rw [if_pos hcount]
        refine ⟨iff_of_true rfl hslot,fun st' s' heq => ?_⟩
        cases heq
        exact .count h hcount.2 h.last rfl rfl (by simp)
      · have hzero : st.cookie.v = 0 := by
          have hk := h.key_ne
          tauto
        rw [if_neg hcount]
        refine ⟨iff_of_true rfl hslot,fun st' s' heq => ?_⟩
        cases heq
        exact .stop h (by rw [hzero]; exact Nat.zero_le _)
    cases s with
    | nil => exact absurd (.inl rfl) hend
    | cons c s =>
      have hc : c ≠ 13 := fun hc => hend (.inr (congrArg some hc))
      rw [List.length_cons] at hn
      rw [httpCookieNext,if_neg hend]
      by_cases hpp : st.pp < HTTP_HEADER_MAX
      · rw [httpCookieLoop_byte hc hslot hpp]
        rcases h.round s hc hpp with ⟨b,s1,hs1,hbyte,hstops⟩ | ⟨hv,hbyte,hstops⟩ | ⟨hv,hbyte,hstops⟩ |
          ⟨hv,hbyte,hstops⟩
        · rw [hbyte,hstops]
          obtain ⟨hsome,hread⟩ := ih s1.length (by omega) (h.put hpp b) s1 rfl
          refine ⟨hsome,fun st' s' heq => ?_⟩
          exact (hread st' s' heq).same rfl (fun _ _ => rfl) id id
        · obtain ⟨hsound,hplace⟩ := h.startValue hpp hv
          have hbegun : st.startValue.begun = true := by
            rw [begun,hplace]
            exact decide_eq_true (Nat.succ_ne_zero _)
          obtain ⟨hsome,hread⟩ := ih s.length (by omega) hsound s rfl
          rw [hbegun,startValue_pp] at hsome hread
          rw [hbyte,hstops]
          refine ⟨hsome,fun st' s' heq => ?_⟩
          refine (hread st' s' heq).same rfl (fun i hi => ?_) (fun _ q hq => ?_) ?_
          · simp only [CookieState.startValue,CookieState.setCookie,CookieState.put,
              Function.update_of_ne hi.ne]
          · rw [hplace]
            exact (cookieStops_bounds _ _ _).2 q hq
          · rintro ⟨q,-,hlt⟩
            rw [hv] at hlt
            exact absurd hlt (Nat.not_lt_zero q)
        · have hskip := dropWhile_sublist_length s
          rw [hbyte,hstops,List.length_cons]
          by_cases hroom : st.c + 1 < HTTP_COOKIES_MAX
          · obtain ⟨hsound,hzero,-⟩ := h.startName hpp hroom 59
            have hbegun : (st.setLength.put 59).count.startName.begun = false := by
              rw [begun,hzero]
              rfl
            have hc1 : (st.setLength.put 59).count.startName.c = st.c + 1 := rfl
            have hpp1 : (st.setLength.put 59).count.startName.pp = st.pp + 1 := rfl
            obtain ⟨hsome,hread⟩ := ih (s.dropWhile (· = 32)).length (by omega) hsound _ rfl
            rw [hbegun,hc1,hpp1] at hsome
            rw [hbegun,hpp1] at hread
            rw [if_pos hroom,Option.bind_some]
            refine ⟨by rw [hsome]; omega,fun st' s' heq => ?_⟩
            exact .next h hv hpp hroom
              (fun q hq => (Nat.le_succ _).trans ((cookieStops_bounds _ _ _).2 q hq)) (hread st' s' heq)
          · have hpos := (cookieStops_bounds (s.dropWhile (· = 32)) (st.pp + 1) false).1
            rw [if_neg hroom]
            refine ⟨iff_of_false (by simp) (by omega),fun st' s' heq => ?_⟩
            cases heq
        · have hpp1 : (st.setLength.put c).count.pp = st.pp + 1 := rfl
          have hc1 : (st.setLength.put c).count.c = st.c + 1 := rfl
          obtain ⟨hsome,hread⟩ := (h.blank hpp c).loop (s.dropWhile (· = 32))
          rw [hpp1,hc1] at hsome
          rw [hbyte,hstops,List.length_cons,Option.bind_some]
          refine ⟨by rw [hsome]; omega,fun st' s' heq => ?_⟩
          obtain ⟨hblank,hcount,hcookies⟩ := hread st' s' heq
          exact .count h hv hblank hcount hcookies fun q hq => (Nat.le_succ _).trans (cookieBlank_ge hq)
      · have hfull : HTTP_HEADER_MAX ≤ st.pp := not_lt.1 hpp
        rw [httpCookieLoop,if_pos (.inr (.inr hpp)),cookieStops,if_pos (.inr hpp)]
        refine ⟨iff_of_true rfl hslot,fun st' s' heq => ?_⟩
        cases heq
        exact .stop h (hvalue.trans hfull)

end Sound
end CookieState

/-! ### A call -/

/-- A call changes no entries that count, and nothing outside of the table and of `hlines`. -/
structure CookieCall (req req' : HttpReq) : Prop where
  ready : CookieReady req'
  le : req.ncookies ≤ req'.ncookies
  before : ∀ i < req.ncookies, req'.cookies i = req.cookies i
  cookies : ∀ i ≥ HTTP_COOKIES_MAX, req'.cookies i = req.cookies i
  hlines : ∀ i ≥ HTTP_HEADER_MAX, req'.hlines i = req.hlines i

theorem CookieReady.zero : CookieReady HttpReq.zero where
  ncookies := Nat.zero_le _
  unused _ _ := ⟨rfl,rfl⟩
  nameLength h := absurd rfl h
  left := Nat.zero_le _
  nhline := Nat.zero_le _

theorem HttpReq.cookieStart_ne (req : HttpReq) : req.cookieStart ≠ 0 := by
  unfold HttpReq.cookieStart
  split_ifs with h
  · exact Nat.one_ne_zero
  · exact h

/-- The state in which a call begins. -/
def HttpReq.cookieState (req : HttpReq) : CookieState :=
  CookieState.startName ⟨{ req with nhline := req.cookieStart },req.ncookies,req.cookieStart⟩

theorem httpCookieParse_begin {p : List UInt8} (hp : p ≠ []) (req : HttpReq) :
    httpCookieParse p req = if req.ncookies < HTTP_COOKIES_MAX then
      (httpCookieLoop HTTP_COOKIES_MAX p req.cookieState).map fun r => (r.1.req,p.length - r.2.length) else none :=
  httpCookieParse_eq hp

theorem CookieReady.sound {req : HttpReq} (h : CookieReady req) (hslot : req.ncookies < HTTP_COOKIES_MAX) :
    CookieState.Sound req req.cookieState := by
  have hmax : 1 ≤ HTTP_HEADER_MAX ∧ HTTP_HEADER_MAX < 65536 := by decide
  have hnhline := h.nhline
  have hstart : req.cookieStart ≤ HTTP_HEADER_MAX := by
    unfold HttpReq.cookieStart
    split_ifs
    · exact hmax.1
    · exact hnhline
  have hplace : ushort req.cookieStart = req.cookieStart := ushort_of_lt (by omega)
  have hcookie : req.cookieState.cookie = { req.cookies req.ncookies with k := req.cookieStart } := by
    rw [HttpReq.cookieState,CookieState.cookie_startName,hplace]
    rfl
  have hother : ∀ i, i ≠ req.ncookies → req.cookieState.req.cookies i = req.cookies i :=
    fun i hi => Function.update_of_ne hi _ _
  refine ⟨hslot,rfl,fun i hi => ?_,by rw [hcookie]; rfl,⟨req.cookieStart_ne,le_rfl⟩,?_,?_,hstart,
    fun i hi => hother i (by omega),fun _ _ => rfl⟩
  · rw [hother i (Nat.ne_of_gt hi)]
    exact h.unused i hi
  · rw [hcookie]
    exact h.nameLength
  · rw [hcookie]
    exact h.left

/-- The condition on the bytes of a call that are not empty. -/
def CookieStopsFit (p : List UInt8) (req : HttpReq) : Prop :=
  p.head? = some 13 ∨
    req.ncookies + (cookieStops p req.cookieStart (decide (req.cookieLeft ≠ 0))).length ≤ HTTP_COOKIES_MAX

/-- A call uses entries of the table alone exactly when its cookies fit behind those that count; the new
ones then lie in `hlines` exactly when none ends below an offset that was left behind. -/
theorem httpCookieParse_table {p : List UInt8} (hp : p ≠ []) {req : HttpReq} (h : CookieReady req) :
    ((httpCookieParse p req).isSome ↔ req.ncookies < HTTP_COOKIES_MAX ∧ CookieStopsFit p req) ∧
      ∀ req' n, httpCookieParse p req = some (req',n) → CookieCall req req' ∧
        ((∀ i, req.ncookies ≤ i → i < req'.ncookies → Within HTTP_HEADER_MAX (req'.cookies i)) ↔
          p.head? = some 13 ∨
            ∀ q ∈ cookieStops p req.cookieStart (decide (req.cookieLeft ≠ 0)), req.cookieLeft ≤ q) := by
  rw [httpCookieParse_begin hp]
  by_cases hslot : req.ncookies < HTTP_COOKIES_MAX
  · have hsound := h.sound hslot
    have hother : ∀ i, i ≠ req.ncookies → req.cookieState.req.cookies i = req.cookies i :=
      fun i hi => Function.update_of_ne hi _ _
    have hv : req.cookieState.cookie.v = req.cookieLeft := by
      rw [HttpReq.cookieState,CookieState.cookie_startName]
      rfl
    have hbegun : req.cookieState.begun = decide (req.cookieLeft ≠ 0) := by rw [CookieState.begun,hv]
    have hc : req.cookieState.c = req.ncookies := rfl
    have hplace : req.cookieState.pp = req.cookieStart := rfl
    rw [if_pos hslot,Option.isSome_map]
    cases p with
    | nil => exact absurd rfl hp
    | cons c s =>
      by_cases h13 : c = 13
      · have hhead : (c::s).head? = some 13 := congrArg some h13
        rw [httpCookieLoop,if_pos (.inl h13)]
        refine ⟨iff_of_true rfl ⟨hslot,.inl hhead⟩,fun req' n heq => ?_⟩
        cases heq
        refine ⟨⟨hsound.ready,le_rfl,fun i hi => hother i hi.ne,hsound.cookies,hsound.hlines⟩,
          iff_of_true (fun i hlow hhigh => ?_) (.inl hhead)⟩
        exact absurd hhigh (not_lt.2 hlow)
      · have hhead : (c::s).head? ≠ some 13 := fun hhead => h13 (Option.some.inj hhead)
        have hnext : httpCookieLoop HTTP_COOKIES_MAX (c::s) req.cookieState = httpCookieNext (c::s) req.cookieState :=
          (if_neg (not_atEnd_cons s h13)).symm
        obtain ⟨hsome,hread⟩ := hsound.loop (c::s)
        rw [hbegun,hc,hplace] at hsome
        rw [hbegun,hplace] at hread
        rw [hnext,hsome,CookieStopsFit,or_iff_right hhead]
        refine ⟨(and_iff_right hslot).symm,fun req' n heq => ?_⟩
        obtain ⟨⟨st,s'⟩,hloop,hst⟩ := Option.map_eq_some_iff.1 heq
        cases hst
        have hst := hread st s' hloop
        have hle := hst.le
        rw [hc] at hle
        refine ⟨⟨hst.ready,hle,fun i hi => (hst.before i hi).trans (hother i hi.ne),hst.cookies,
          hst.hlines⟩,?_⟩
        rw [or_iff_right hhead]
        constructor
        · intro hall
          by_contra hno
          push Not at hno
          obtain ⟨q,hq,hlt⟩ := hno
          obtain ⟨hcount,hnot⟩ := hst.wrong ⟨q,hq,by rw [hv]; exact hlt⟩
          exact hnot (hall _ le_rfl hcount)
        · intro hall
          exact hst.right fun q hq => by
            rw [hv]
            exact hall q hq
  · rw [if_neg hslot]
    refine ⟨iff_of_false (by simp) fun hall => hslot hall.1,fun req' n heq => ?_⟩
    cases heq

end Sbase
