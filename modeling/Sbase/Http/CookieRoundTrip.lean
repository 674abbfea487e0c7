import Sbase.Http.Argv
import Sbase.Http.Cookie

/-! The round trip of cookies.

Names and values are decoded into `hlines` one behind the other, each name with the `=` and each value
with the `;` that follows it. The last cookie counts where the next byte is the end of the line. -/
namespace Sbase
open Memory

/-- Pairs joined as `name=value`, with `;` and any number of spaces between them. -/
inductive EncodesCookies : List (List UInt8 × List UInt8) → List UInt8 → Prop
  | nil : EncodesCookies [] []
  | last {n v en ev : List UInt8} (hn : Encodes n en) (hv : Encodes v ev) :
      EncodesCookies [(n,v)] (en ++ 61::ev)
  | cons {n v en ev : List UInt8} {nv : List UInt8 × List UInt8}
      {nvs : List (List UInt8 × List UInt8)} {es : List UInt8} (spaces : ℕ) (hn : Encodes n en)
      (hv : Encodes v ev) (tail : EncodesCookies (nv::nvs) es) :
      EncodesCookies ((n,v)::nv::nvs) (en ++ 61::(ev ++ 59::(List.replicate spaces 32 ++ es)))

/-- The room that pairs take in `hlines`, with the byte in front of the first one. -/
def cookieRoom (nvs : List (List UInt8 × List UInt8)) : ℕ :=
  (nvs.map fun nv => nv.1.length + 1 + nv.2.length + 1).sum

/-- The record holds the pairs as cookies. -/
def HttpReq.HoldsCookies (req : HttpReq) (nvs : List (List UInt8 × List UInt8)) : Prop :=
  req.ncookies = nvs.length ∧ ∀ i (hi : i < nvs.length),
    (req.cookies i).nk = nvs[i].1.length ∧ (req.cookies i).nv = nvs[i].2.length ∧
    read req.hlines (req.cookies i).k (req.cookies i).nk = nvs[i].1 ∧
    read req.hlines (req.cookies i).v (req.cookies i).nv = nvs[i].2

/-! ### The end of the line -/

/-- Nothing is left, or a CR is next. -/
def AtEnd (s : List UInt8) : Prop := s = [] ∨ s.head? = some 13

instance (s : List UInt8) : Decidable (AtEnd s) := inferInstanceAs (Decidable (_ ∨ _))

theorem not_atEnd_cons {c : UInt8} (s : List UInt8) (hc : c ≠ 13) : ¬ AtEnd (c::s) := by
  rintro (h | h)
  · cases h
  · exact hc (Option.some.inj h)

/-- What the loop does behind a byte. -/
def httpCookieNext (s : List UInt8) (st : CookieState) : Option (CookieState × List UInt8) :=
  if AtEnd s then (httpCookieFinish HTTP_COOKIES_MAX st).map fun st => (st,s)
  else httpCookieLoop HTTP_COOKIES_MAX s st

theorem httpCookieLoop_byte {c : UInt8} {s : List UInt8} {st : CookieState} (hc : c ≠ 13)
    (hslot : st.c < HTTP_COOKIES_MAX) (hpp : st.pp < HTTP_HEADER_MAX) :
    httpCookieLoop HTTP_COOKIES_MAX (c::s) st = (httpCookieByte HTTP_COOKIES_MAX c s st).bind fun r => httpCookieNext r.2 r.1 := by
  have hgo : ¬ (c = 13 ∨ ¬ st.c < HTTP_COOKIES_MAX + 1 ∨ ¬ st.pp < HTTP_HEADER_MAX) := by
    rintro (h | h | h)
    · exact hc h
    · exact h (Nat.lt_succ_of_lt hslot)
    · exact h hpp
  exact httpCookieLoop_step hgo

theorem httpCookieNext_cons {c : UInt8} {s s' : List UInt8} {st st' : CookieState} (hc : c ≠ 13)
    (hslot : st.c < HTTP_COOKIES_MAX) (hpp : st.pp < HTTP_HEADER_MAX)
    (hbyte : httpCookieByte HTTP_COOKIES_MAX c s st = some (st',s')) :
    httpCookieNext (c::s) st = httpCookieNext s' st' := by
  rw [httpCookieNext,if_neg (not_atEnd_cons s hc),httpCookieLoop_byte hc hslot hpp,hbyte]
  rfl

/-! ### Bytes of a name or a value -/

namespace CookieState

@[simp] theorem cookie_put (st : CookieState) (b : UInt8) : (st.put b).cookie = st.cookie := rfl

@[simp] theorem cookie_setCookie (st : CookieState) (kv : HttpKV) : (st.setCookie kv).cookie = kv := by
  simp [cookie,setCookie]

/-- The state after some decoded bytes. -/
def putAll (st : CookieState) (bs : List UInt8) : CookieState :=
  { st with req := { st.req with hlines := write st.req.hlines st.pp bs }, pp := st.pp + bs.length }

theorem putAll_nil (st : CookieState) : st.putAll [] = st := by
  simp [putAll]

theorem putAll_cons (st : CookieState) (b : UInt8) (bs : List UInt8) :
    st.putAll (b::bs) = (st.put b).putAll bs := by
  simp only [putAll,put,write_cons,List.length_cons]
  congr 1
  omega

@[simp] theorem cookie_putAll (st : CookieState) (bs : List UInt8) : (st.putAll bs).cookie = st.cookie :=
  rfl

/-- The state behind a name and its value. -/
def readPair (st : CookieState) (n v : List UInt8) : CookieState := (st.putAll n).startValue.putAll v

theorem startValue_c (st : CookieState) : st.startValue.c = st.c := rfl

theorem startValue_pp (st : CookieState) : st.startValue.pp = st.pp + 1 := rfl

theorem cookie_startName (st : CookieState) :
    st.startName.cookie = { st.cookie with k := ushort st.pp } := cookie_setCookie st _

theorem readPair_c (st : CookieState) (n v : List UInt8) : (st.readPair n v).c = st.c := by
  simp only [readPair,putAll,startValue_c]

theorem readPair_pp (st : CookieState) (n v : List UInt8) :
    (st.readPair n v).pp = st.pp + n.length + 1 + v.length := by
  simp only [readPair,putAll,startValue_pp]

theorem cookie_startValue (st : CookieState) : st.startValue.cookie =
    { st.cookie with nk := ushortSub st.pp st.cookie.k, v := ushort (st.pp + 1) } := by
  simp only [startValue,cookie_setCookie,cookie_put]
  rfl

end CookieState

/-- An encoded byte begins with none of the bytes that end a line or an encoding. -/
theorem EncodesByte.head {c : UInt8} {e : List UInt8} (h : EncodesByte c e) :
    ∃ d e', e = d::e' ∧ d ≠ 13 ∧ d ≠ 32 := by
  cases h with
  | plain h =>
    obtain ⟨hstop,-⟩ := isAlnum_plain h
    exact ⟨c,[],rfl,fun hc => hstop (.inl hc),fun hc => hstop (.inr (.inr hc))⟩
  | plus => exact ⟨43,[],rfl,by decide,by decide⟩
  | escape hh hl => exact ⟨37,_,rfl,by decide,by decide⟩

theorem escapeAt_none {c : UInt8} (s : List UInt8) (hc : c ≠ 37) : escapeAt c s = none := by
  rcases s with _ | ⟨h,_ | ⟨l,s⟩⟩
  · rfl
  · rfl
  · exact if_neg hc

/-- In a cookie an encoded byte is decoded. -/
theorem httpCookieNext_byte {c : UInt8} {e : List UInt8} (he : EncodesByte c e) (rest : List UInt8)
    (st : CookieState) (hslot : st.c < HTTP_COOKIES_MAX) (hpp : st.pp < HTTP_HEADER_MAX)
    (hk : st.cookie.k ≠ 0) :
    httpCookieNext (e ++ rest) st = httpCookieNext rest (st.put c) := by
  cases he with
  | plain h =>
    obtain ⟨hstop,h43,h61,-,h37⟩ := isAlnum_plain h
    have hsep : ¬ (c = 59 ∨ c = 32 ∨ c = 9) := by
      rintro (rfl | rfl | rfl)
      · cases h
      · cases h
      · cases h
    have hkeep : st.keep c = st.put c := if_pos (.inl hk)
    refine httpCookieNext_cons (fun hc => hstop (.inl hc)) hslot hpp ?_
    rw [httpCookieByte,escapeAt_none _ h37]
    dsimp only
    rw [if_neg h43,if_neg (not_not.2 hslot),if_neg fun h => h61 h.1,if_neg fun h => hsep h.1,hkeep]
    rfl
  | plus =>
    refine httpCookieNext_cons (by decide) hslot hpp ?_
    rw [httpCookieByte,escapeAt_none _ (by decide)]
    rfl
  | @escape _ h l hh hl =>
    have hesc : escapeAt 37 (h::l::rest) = some c := by
      simp only [escapeAt,unescape,if_pos,hh,hl,ofNat_hex]
    have hbyte : httpCookieByte HTTP_COOKIES_MAX 37 (h::l::rest) st = some (st.put c,rest) := by
      rw [httpCookieByte,hesc]
      rfl
    exact httpCookieNext_cons (by decide) hslot hpp hbyte

theorem httpCookieNext_bytes {cs es : List UInt8} (he : Encodes cs es) (rest : List UInt8)
    (st : CookieState) (hslot : st.c < HTTP_COOKIES_MAX) (hpp : st.pp + cs.length ≤ HTTP_HEADER_MAX)
    (hk : st.cookie.k ≠ 0) :
    httpCookieNext (es ++ rest) st = httpCookieNext rest (st.putAll cs) := by
  induction he generalizing st with
  | nil => rw [List.nil_append,CookieState.putAll_nil]
  | @cons c cs e es head tail ih =>
    rw [List.length_cons] at hpp
    rw [List.append_assoc,httpCookieNext_byte head _ st hslot (by omega) hk,
      ih (st.put c) hslot (show st.pp + 1 + cs.length ≤ _ by omega) hk,CookieState.putAll_cons]

/-- The bytes of one cookie, up to what follows its value. -/
theorem httpCookieNext_pair {n v en ev : List UInt8} (hen : Encodes n en) (hev : Encodes v ev)
    (rest : List UInt8) (st : CookieState) (hslot : st.c < HTTP_COOKIES_MAX)
    (hroom : st.pp + (n.length + 1 + v.length) ≤ HTTP_HEADER_MAX) (hk : st.cookie.k ≠ 0)
    (hv : st.cookie.v = 0) :
    httpCookieNext (en ++ 61::(ev ++ rest)) st = httpCookieNext rest (st.readPair n v) := by
  have hstart : httpCookieByte HTTP_COOKIES_MAX 61 (ev ++ rest) (st.putAll n) = some ((st.putAll n).startValue,ev ++ rest) := by
    rw [httpCookieByte,escapeAt_none _ (by decide)]
    dsimp only
    rw [if_neg (by decide),if_neg (not_not.2 (show (st.putAll n).c < _ from hslot)),if_pos ⟨rfl,hk,hv⟩]
  have hk1 : (st.putAll n).startValue.cookie.k ≠ 0 := by
    rw [CookieState.cookie_startValue]
    exact hk
  have hequals : httpCookieNext (61::(ev ++ rest)) (st.putAll n) =
      httpCookieNext (ev ++ rest) (st.putAll n).startValue :=
    httpCookieNext_cons (by decide) hslot (show st.pp + n.length < _ by omega) hstart
  have hslot1 : (st.putAll n).startValue.c < HTTP_COOKIES_MAX := by
    rw [CookieState.startValue_c]
    exact hslot
  have hpp1 : (st.putAll n).pp = st.pp + n.length := rfl
  have hvalue := httpCookieNext_bytes hev rest (st.putAll n).startValue hslot1
    (by rw [CookieState.startValue_pp,hpp1]; omega) hk1
  rw [httpCookieNext_bytes hen _ st hslot (by omega) hk,hequals,hvalue]
  rfl

/-- The state when a cookie is complete. -/
theorem CookieState.pair_eq (st : CookieState) (n v : List UInt8) (hk : st.cookie.k = st.pp)
    (hroom : st.pp + (n.length + 1 + v.length) ≤ HTTP_HEADER_MAX) :
    (st.readPair n v).setLength =
      ⟨{ st.req with
          hlines := write st.req.hlines st.pp (n ++ 61::v)
          cookies := Function.update st.req.cookies st.c ⟨n.length,v.length,st.pp,st.pp + n.length + 1⟩ },
        st.c,st.pp + (n.length + 1 + v.length)⟩ := by
  have hlt : HTTP_HEADER_MAX < 65536 := by decide
  have hline : write (Function.update (write st.req.hlines st.pp n) (st.pp + n.length) 61)
      (st.pp + n.length + 1) v = write st.req.hlines st.pp (n ++ 61::v) := by
    rw [← write_singleton,write_write_append,
      show st.pp + n.length + 1 = st.pp + (n ++ [61]).length by simp [Nat.add_assoc],
      write_write_append]
    simp
  have hk' : (st.req.cookies st.c).k = st.pp := hk
  have hnk : ushortSub (st.pp + n.length) st.pp = n.length := by
    rw [ushortSub_of_le (by omega) (by omega),Nat.add_sub_cancel_left]
  have hv : ushort (st.pp + n.length + 1) = st.pp + n.length + 1 := ushort_of_lt (by omega)
  have hnv : ushortSub (st.pp + n.length + 1 + v.length) (st.pp + n.length + 1) = v.length := by
    rw [ushortSub_of_le (by omega) (by omega),Nat.add_sub_cancel_left]
  have hpp : st.pp + n.length + 1 + v.length = st.pp + (n.length + 1 + v.length) := by omega
  simp only [readPair,setLength,startValue,putAll,put,setCookie,cookie,Function.update_self,
    Function.update_idem,hk',hnk,hv,hnv,hline]
  rw [hpp]

/-! ### A list of cookies -/

/-- The cookies parsed so far fill `hlines` up to `used`, and the next entries are unused. -/
structure CookiesBuilt (req : HttpReq) (done : List (List UInt8 × List UInt8)) (used : ℕ) : Prop where
  ncookies_eq : req.ncookies = done.length
  cookies : ∀ i (hi : i < done.length), ArgAt req.hlines (req.cookies i) done[i] used
  unused : ∀ i, done.length ≤ i → (req.cookies i).v = 0

/-- A name and a value with a byte between them. -/
theorem argAt_joined (m : Mem) (start : ℕ) (n v : List UInt8) (x : UInt8) :
    ArgAt (write m start (n ++ x::v)) ⟨n.length,v.length,start,start + n.length + 1⟩ (n,v)
      (start + (n.length + 1 + v.length)) where
  nk_eq := rfl
  nv_eq := rfl
  k_le := by dsimp only; omega
  v_le := by dsimp only; omega
  key_eq := read_write_take m start n _
  value_eq := by
    have hsplit : write m start (n ++ x::v) =
        write (write m start (n ++ [x])) (start + (n ++ [x]).length) (v ++ []) := by
      rw [write_write_append]
      simp
    have hoff : start + n.length + 1 = start + (n ++ [x]).length := by simp [Nat.add_assoc]
    dsimp only
    rw [hsplit,hoff]
    exact read_write_take _ _ v []

/-- A complete cookie adds its pair. -/
theorem CookiesBuilt.pair {st : CookieState} {done : List (List UInt8 × List UInt8)}
    (h : CookiesBuilt st.req done st.pp) (hc : st.c = done.length) (n v : List UInt8)
    (hk : st.cookie.k = st.pp) (hroom : st.pp + (n.length + 1 + v.length) ≤ HTTP_HEADER_MAX) :
    CookiesBuilt (st.readPair n v).setLength.count.req (done ++ [(n,v)])
      (st.pp + (n.length + 1 + v.length)) := by
  rw [CookieState.pair_eq st n v hk hroom]
  refine ⟨?_,fun i hi => ?_,fun i hi => ?_⟩
  · rw [List.length_append,List.length_singleton]
    exact congrArg (· + 1) h.ncookies_eq
  · rw [List.length_append,List.length_singleton] at hi
    dsimp only [CookieState.count]
    by_cases hlast : i = done.length
    · subst hlast
      rw [hc,Function.update_self,List.getElem_concat_length]
      · exact argAt_joined st.req.hlines st.pp n v 61
      · rfl
    · have hlt : i < done.length := by omega
      rw [hc,Function.update_of_ne hlast,List.getElem_append_left hlt]
      exact (h.cookies i hlt).write (by omega) _
  · rw [List.length_append,List.length_singleton] at hi
    dsimp only [CookieState.count]
    rw [hc,Function.update_of_ne (by omega)]
    exact h.unused i (by omega)

/-- A byte behind the cookies, and the start of the next name. -/
theorem CookiesBuilt.next {st : CookieState} {done : List (List UInt8 × List UInt8)}
    (h : CookiesBuilt st.count.req done st.pp) (hc : st.c + 1 = done.length) (b : UInt8) :
    CookiesBuilt (st.put b).count.startName.req done (st.pp + 1) where
  ncookies_eq := h.ncookies_eq
  cookies i hi := by
    have hcookie : (st.put b).count.startName.req.cookies i = st.req.cookies i :=
      Function.update_of_ne (show i ≠ st.c + 1 by omega) _ _
    have hlines : (st.put b).count.startName.req.hlines = write st.req.hlines st.pp [b] :=
      (write_singleton _ _ _).symm
    rw [hcookie,hlines]
    exact (h.cookies i hi).write (Nat.le_succ st.pp) [b]
  unused i hi := by
    by_cases heq : i = st.c + 1
    · subst heq
      change (st.put b).count.startName.cookie.v = 0
      rw [CookieState.cookie_startName]
      exact h.unused (st.c + 1) hi
    · have hcookie : (st.put b).count.startName.req.cookies i = st.req.cookies i :=
        Function.update_of_ne heq _ _
      rw [hcookie]
      exact h.unused i hi

/-! ### Where a cookie ends -/

/-- In a value, the offsets of name and value are set. -/
theorem CookieState.inValue (st : CookieState) (n v : List UInt8) (hk : st.cookie.k ≠ 0)
    (hroom : st.pp + n.length + 1 < 65536) :
    (st.readPair n v).cookie.k ≠ 0 ∧ (st.readPair n v).cookie.v ≠ 0 := by
  have hcookie : (st.readPair n v).cookie = (st.putAll n).startValue.cookie := rfl
  rw [hcookie,CookieState.cookie_startValue]
  refine ⟨hk,?_⟩
  change ushort (st.pp + n.length + 1) ≠ 0
  rw [ushort_of_lt hroom]
  omega

/-- At the end of the line the cookie counts. -/
theorem httpCookieNext_end {rest : List UInt8} (hrest : AtEnd rest) (st : CookieState)
    (hslot : st.c < HTTP_COOKIES_MAX) (hin : st.cookie.k ≠ 0 ∧ st.cookie.v ≠ 0) :
    httpCookieNext rest st = some (st.setLength.count,rest) := by
  rw [httpCookieNext,if_pos hrest,httpCookieFinish,if_neg (not_not.2 (Nat.lt_succ_of_lt hslot)),
    if_neg (not_not.2 hslot),if_pos hin]
  rfl

/-- At a `;` it counts, and the spaces behind it are skipped. -/
theorem httpCookieNext_semicolon (s : List UInt8) (st : CookieState) (hslot : st.c + 1 < HTTP_COOKIES_MAX)
    (hpp : st.pp < HTTP_HEADER_MAX) (hin : st.cookie.k ≠ 0 ∧ st.cookie.v ≠ 0) :
    httpCookieNext (59::s) st =
      httpCookieNext (s.dropWhile (· = 32)) (st.setLength.put 59).count.startName := by
  have hlt : st.c < HTTP_COOKIES_MAX := by omega
  refine httpCookieNext_cons (by decide) hlt hpp ?_
  rw [httpCookieByte,escapeAt_none _ (by decide)]
  dsimp only
  rw [if_neg (by decide),if_neg (not_not.2 hlt),if_neg (by simp),if_pos ⟨.inl rfl,hin⟩,if_pos rfl,
    if_pos (show (st.setLength.put 59).count.c < _ from hslot)]

/-- Encoded cookies do not begin with a space. -/
theorem EncodesCookies.skip {nvs : List (List UInt8 × List UInt8)} {es : List UInt8}
    (he : EncodesCookies nvs es) (hne : nvs ≠ []) (spaces : ℕ) (rest : List UInt8) :
    ((List.replicate spaces 32 ++ es) ++ rest).dropWhile (· = 32) = es ++ rest := by
  have hhead : ∀ {n en w : List UInt8}, Encodes n en → ∃ d w', en ++ 61::w = d::w' ∧ d ≠ 32 := by
    intro n en w hn
    cases hn with
    | nil => exact ⟨61,w,rfl,by decide⟩
    | cons head tail =>
      obtain ⟨d,e',rfl,-,hd⟩ := head.head
      exact ⟨d,_,rfl,hd⟩
  have hstart : ∃ d w, es = d::w ∧ d ≠ 32 := by
    cases he with
    | nil => exact absurd rfl hne
    | last hn hv => exact hhead hn
    | cons spaces hn hv tail => exact hhead hn
  obtain ⟨d,w,rfl,hd⟩ := hstart
  have hspaces : ∀ c ∈ List.replicate spaces (32 : UInt8), decide (c = 32) = true := by
    intro c hc
    rw [List.eq_of_mem_replicate hc]
    rfl
  rw [List.append_assoc,List.dropWhile_append_of_pos hspaces]
  exact List.dropWhile_cons_of_neg (by simpa using hd)

theorem httpCookieNext_cookies {nvs : List (List UInt8 × List UInt8)} {es rest : List UInt8}
    (he : EncodesCookies nvs es) (hne : nvs ≠ []) (hrest : AtEnd rest) (st : CookieState)
    (done : List (List UInt8 × List UInt8)) (hb : CookiesBuilt st.req done st.pp)
    (hc : st.c = done.length) (hk : st.cookie.k = st.pp) (hpos : 0 < st.pp) (hv : st.cookie.v = 0)
    (hcount : done.length + nvs.length ≤ HTTP_COOKIES_MAX)
    (hroom : st.pp + cookieRoom nvs ≤ HTTP_HEADER_MAX + 1) :
    ∃ st', httpCookieNext (es ++ rest) st = some (st',rest) ∧ ∃ used,
      CookiesBuilt st'.req (done ++ nvs) used := by
  have hmax : HTTP_HEADER_MAX < 65536 := by decide
  have hk0 : st.cookie.k ≠ 0 := by omega
  induction he generalizing st done with
  | nil => exact absurd rfl hne
  | @last n v en ev hen hev =>
    have hr : cookieRoom [(n,v)] = n.length + 1 + v.length + 1 := by simp [cookieRoom]
    rw [hr] at hroom
    rw [List.length_singleton] at hcount
    have hin := st.inValue n v hk0 (by omega)
    have hend := httpCookieNext_end hrest (st.readPair n v) (by rw [CookieState.readPair_c]; omega) hin
    rw [List.append_assoc,List.cons_append,
      httpCookieNext_pair hen hev rest st (by omega) (by omega) hk0 hv,hend]
    exact ⟨_,rfl,_,hb.pair hc n v hk (by omega)⟩
  | @cons n v en ev nv nvs es spaces hen hev tail ih =>
    have hr : cookieRoom ((n,v)::nv::nvs) =
        n.length + 1 + v.length + 1 + cookieRoom (nv::nvs) := by simp [cookieRoom]
    have hr1 : 0 < cookieRoom (nv::nvs) := by
      rw [cookieRoom,List.map_cons,List.sum_cons]
      omega
    have hassoc : done ++ (n,v)::nv::nvs = done ++ [(n,v)] ++ nv::nvs := by simp
    have htext : en ++ 61::(ev ++ 59::(List.replicate spaces 32 ++ es)) ++ rest =
        en ++ 61::(ev ++ 59::((List.replicate spaces 32 ++ es) ++ rest)) := by simp
    rw [hr] at hroom
    simp only [List.length_cons] at hcount
    have hpair := st.pair_eq n v hk (by omega)
    have hb1 := hb.pair hc n v hk (by omega)
    have hin := st.inValue n v hk0 (by omega)
    have hsemi := httpCookieNext_semicolon ((List.replicate spaces 32 ++ es) ++ rest) (st.readPair n v)
      (by rw [CookieState.readPair_c]; omega) (by rw [CookieState.readPair_pp]; omega) hin
    rw [tail.skip (List.cons_ne_nil _ _)] at hsemi
    rw [hassoc,htext,httpCookieNext_pair hen hev _ st (by omega) (by omega) hk0 hv,hsemi]
    have hpp1 : (st.readPair n v).setLength.pp = st.pp + (n.length + 1 + v.length) := by rw [hpair]
    have hc1 : (st.readPair n v).setLength.c + 1 = (done ++ [(n,v)]).length := by
      rw [hpair,List.length_append,List.length_singleton]
      exact congrArg (· + 1) hc
    rw [← hpp1] at hb1
    have hb2 := hb1.next hc1 59
    have hunused := hb1.unused _ hc1.ge
    generalize (st.readPair n v).setLength = st1 at hpp1 hc1 hb2 hunused
    have hkey : (st1.put 59).count.startName.cookie.k = st1.pp + 1 := by
      rw [CookieState.cookie_startName]
      exact ushort_of_lt (show st1.pp + 1 < 65536 by omega)
    have hvalue : (st1.put 59).count.startName.cookie.v = 0 := by
      rw [CookieState.cookie_startName]
      exact hunused
    exact ih (List.cons_ne_nil _ _) (st1.put 59).count.startName (done ++ [(n,v)]) hb2 hc1 hkey
      (Nat.succ_pos _) hvalue (by simp only [List.length_append,List.length_cons,List.length_nil]; omega)
      (show st1.pp + 1 + _ ≤ _ by omega) (by omega)

/-! ### A call of the parser -/

theorem CookiesBuilt.holds {req : HttpReq} {done : List (List UInt8 × List UInt8)} {used : ℕ}
    (h : CookiesBuilt req done used) : req.HoldsCookies done :=
  ⟨h.ncookies_eq,fun i hi => ⟨(h.cookies i hi).nk_eq,(h.cookies i hi).nv_eq,(h.cookies i hi).key_eq,
    (h.cookies i hi).value_eq⟩⟩

theorem EncodesCookies.head {nvs : List (List UInt8 × List UInt8)} {es : List UInt8}
    (he : EncodesCookies nvs es) (hne : nvs ≠ []) : ∃ c s, es = c::s ∧ c ≠ 13 := by
  have hhead : ∀ {n en w : List UInt8}, Encodes n en → ∃ c s, en ++ 61::w = c::s ∧ c ≠ 13 := by
    intro n en w hn
    cases hn with
    | nil => exact ⟨61,w,rfl,by decide⟩
    | cons head tail =>
      obtain ⟨c,e',rfl,hc,-⟩ := head.head
      exact ⟨c,_,rfl,hc⟩
  cases he with
  | nil => exact absurd rfl hne
  | last hn hv => exact hhead hn
  | cons spaces hn hv tail => exact hhead hn

/-- The round trip of cookies: names and values are read back byte for byte, whether the line ends with
a CR or with the input. -/
theorem http_cookie_round_trip (nvs : List (List UInt8 × List UInt8)) (es rest : List UInt8)
    (he : EncodesCookies nvs es) (hrest : AtEnd rest) (hcount : nvs.length ≤ HTTP_COOKIES_MAX)
    (hroom : cookieRoom nvs ≤ HTTP_HEADER_MAX) :
    ∃ req, httpCookieParse (es ++ rest) HttpReq.zero = some (req,es.length) ∧ req.HoldsCookies nvs := by
  have hzero : HttpReq.zero.cookieStart = 1 := rfl
  by_cases hne : nvs = []
  · subst hne
    cases he
    rw [List.nil_append]
    rcases hrest with rfl | hrest
    · exact ⟨HttpReq.zero,rfl,rfl,fun i hi => absurd hi (Nat.not_lt_zero i)⟩
    · obtain ⟨s,rfl⟩ : ∃ s, rest = 13::s := by
        cases rest with
        | nil => cases hrest
        | cons c s => exact ⟨s,by rw [Option.some.inj hrest]⟩
      rw [httpCookieParse,httpCookieParse_eq (by simp),if_pos (by decide),httpCookieLoop,if_pos (.inl rfl),
        Option.map_some,Nat.sub_self]
      exact ⟨_,rfl,rfl,fun i hi => absurd hi (Nat.not_lt_zero i)⟩
  · obtain ⟨c,s,rfl,hc⟩ := he.head hne
    let st : CookieState := CookieState.startName ⟨{ HttpReq.zero with nhline := 1 },0,1⟩
    have hcookie : st.cookie = { (⟨0,0,0,0⟩ : HttpKV) with k := ushort 1 } :=
      CookieState.cookie_startName _
    have hk : st.cookie.k = 1 := by
      rw [hcookie]
      rfl
    have hunused : ∀ i, (st.req.cookies i).v = 0 := by
      intro i
      by_cases hi : i = 0
      · subst hi
        change st.cookie.v = 0
        rw [hcookie]
      · have hzero : st.req.cookies i = HttpReq.zero.cookies i := Function.update_of_ne hi _ _
        rw [hzero]
        rfl
    have hb : CookiesBuilt st.req [] st.pp :=
      ⟨rfl,fun i hi => absurd hi (Nat.not_lt_zero i),fun i _ => hunused i⟩
    obtain ⟨st',hnext,used,hb'⟩ := httpCookieNext_cookies he hne hrest st [] hb rfl hk Nat.one_pos
      (hunused 0) (by simpa using hcount) (show 1 + _ ≤ _ by omega)
    rw [httpCookieNext,List.cons_append,if_neg (not_atEnd_cons _ hc)] at hnext
    rw [List.cons_append,httpCookieParse,httpCookieParse_eq (by simp),if_pos (by decide),hzero]
    change ∃ req, (httpCookieLoop HTTP_COOKIES_MAX (c::(s ++ rest)) st).map _ = _ ∧ _
    rw [hnext,Option.map_some]
    refine ⟨st'.req,?_,hb'.holds⟩
    simp only [List.length_cons,List.length_append]
    rw [show s.length + rest.length + 1 - rest.length = s.length + 1 by omega]

/-- The cookies `a=%26` and `b=` with two spaces between them, in front of a CR. -/
theorem http_cookie_round_trip_two :
    ∃ req, httpCookieParse [97,61,37,50,54,59,32,32,98,61,13] HttpReq.zero = some (req,10) ∧
      req.HoldsCookies [([97],[38]),([98],[])] := by
  have ha : Encodes [97] [97] := .cons (.plain rfl) .nil
  have hb : Encodes [98] [98] := .cons (.plain rfl) .nil
  have hamp : Encodes [38] [37,50,54] := .cons (.escape rfl rfl) .nil
  exact http_cookie_round_trip [([97],[38]),([98],[])] [97,61,37,50,54,59,32,32,98,61] [13]
    (.cons 2 ha hamp (.last hb .nil)) (.inr rfl) (by decide) (by decide)

end Sbase
