import Sbase.Http.ResponseText
import Sbase.Lib.Separated

/-! A `Set-Cookie` line, and what `http_resp_cookie_parse` finds in it. -/
namespace Sbase
open Memory

/-! ### A line -/

inductive AttrKind
  | expires
  | path
  | domain
deriving DecidableEq

instance : Fintype AttrKind := ⟨{.expires,.path,.domain},fun a => by cases a <;> decide⟩

def AttrKind.key : AttrKind → List UInt8
  | .expires => ascii "expires"
  | .path => ascii "path"
  | .domain => ascii "domain"

/-- The bytes that the parser looks for. -/
def AttrKind.needle (a : AttrKind) : List UInt8 := a.key ++ [61]

/-- An attribute, with any number of spaces in front of it and its name in any case. -/
structure CookieAttribute where
  kind : AttrKind
  gap : ℕ
  name : List UInt8
  value : List UInt8
  name_key : name.map lower = kind.key
  value_plain : ∀ c ∈ value, c ≠ 59 ∧ c ≠ 13 ∧ c ≠ 10 ∧ c ≠ 0

def CookieAttribute.text (a : CookieAttribute) : List UInt8 :=
  List.replicate a.gap 32 ++ (a.name ++ 61::a.value)

/-- A `Set-Cookie` line: a name, a value, and each attribute at most once. -/
structure SetCookie where
  header : List UInt8
  gap : ℕ
  name : List UInt8
  value : List UInt8
  attrs : List CookieAttribute
  header_key : fieldKey header = headerKey 48
  name_ne : name ≠ []
  name_plain : ∀ c ∈ name, c ≠ 61 ∧ c ≠ 32 ∧ c ≠ 9 ∧ c ≠ 59 ∧ c ≠ 13 ∧ c ≠ 10 ∧ c ≠ 0
  value_plain : ∀ c ∈ value, c ≠ 59 ∧ c ≠ 13 ∧ c ≠ 10 ∧ c ≠ 0
  attrs_nodup : (attrs.map CookieAttribute.kind).Nodup

namespace SetCookie

variable (c : SetCookie)

def segments : List (List UInt8) := c.attrs.map CookieAttribute.text

/-- The cookie and its attributes, in front of the bytes behind them. -/
def body (w : List UInt8) : List UInt8 := c.name ++ 61::(c.value ++ Separated.behind 59 w c.segments)

/-- The line with its CRLF, in front of the rest of the response. -/
def text (rest : List UInt8) : List UInt8 := fieldText c.header c.gap (c.body (13::10::rest))

/-- The line up to its LF. -/
def cut : List UInt8 := fieldText c.header c.gap (c.body [13])

/-- The value of an attribute, if it is present. -/
def attr (a : AttrKind) : Option (List UInt8) :=
  (c.attrs.find? (·.kind = a)).map CookieAttribute.value

/-- All attributes are present, in lower case and in the order in which they are sought. -/
def Complete : Prop := c.attrs.map CookieAttribute.name = [ascii "expires",ascii "path",ascii "domain"]

instance : Decidable c.Complete := inferInstanceAs (Decidable (_ = _))

/-- The room of the strings of a cookie in `hlines`. -/
def size : ℕ := c.name.length + 1 + (c.value.length + 1) + (c.attrs.map fun a => a.value.length + 1).sum

end SetCookie

/-! ### Bytes of a line -/

theorem lower_eq_self {c : UInt8} (h : ¬ (65 ≤ c ∧ c ≤ 90)) : lower c = c := if_neg h

/-- The name of an attribute has letters only. -/
theorem CookieAttribute.not_mem_name (a : CookieAttribute) {b : UInt8} (hupper : ¬ (65 ≤ b ∧ b ≤ 90))
    (hb : ∀ k : AttrKind, b ∉ k.key) : b ∉ a.name := by
  intro hmem
  have hlower := List.mem_map_of_mem (f := lower) hmem
  rw [a.name_key,lower_eq_self hupper] at hlower
  exact hb a.kind hlower

theorem CookieAttribute.name_length (a : CookieAttribute) : a.name.length = a.kind.key.length := by
  rw [← a.name_key,List.length_map]

theorem AttrKind.key_letters (k : AttrKind) : ∀ c ∈ k.key, 97 ≤ c ∧ c ≤ 122 := by
  cases k with
  | expires => decide +kernel
  | path => decide +kernel
  | domain => decide +kernel

theorem AttrKind.not_mem_key {b : UInt8} (hb : ¬ 97 ≤ b) (k : AttrKind) : b ∉ k.key :=
  fun hmem => hb (k.key_letters b hmem).1

theorem AttrKind.not_mem_needle {b : UInt8} (hb : ¬ 97 ≤ b) (heq : b ≠ 61) (k : AttrKind) :
    b ∉ k.needle := by
  rw [needle,List.mem_append,List.mem_singleton,not_or]
  exact ⟨k.not_mem_key hb,heq⟩

theorem AttrKind.key_injective {k k' : AttrKind} (h : k.key = k'.key) : k = k' := by
  revert h
  cases k <;> cases k' <;> decide +kernel

/-- The bytes of an attribute are plain. -/
theorem CookieAttribute.text_plain (a : CookieAttribute) :
    ∀ c ∈ a.text, c ≠ 59 ∧ c ≠ 13 ∧ c ≠ 10 ∧ c ≠ 0 := by
  have hname : ∀ b : UInt8, ¬ 97 ≤ b → ¬ (65 ≤ b ∧ b ≤ 90) → b ∉ a.name := fun b hb hupper =>
    a.not_mem_name hupper fun k => k.not_mem_key hb
  intro c hc
  rw [text,List.mem_append,List.mem_append,List.mem_cons] at hc
  rcases hc with hgap | hmem | rfl | hvalue
  · rw [List.eq_of_mem_replicate hgap]
    decide
  · refine ⟨?_,?_,?_,?_⟩
    all_goals
      rintro rfl
      exact hname _ (by decide) (by decide) hmem
  · decide
  · exact a.value_plain c hvalue

theorem SetCookie.segments_plain (c : SetCookie) {s : List UInt8} (hs : s ∈ c.segments) :
    ∀ b ∈ s, b ≠ 59 ∧ b ≠ 13 ∧ b ≠ 10 ∧ b ≠ 0 := by
  obtain ⟨a,-,rfl⟩ := List.mem_map.1 hs
  exact a.text_plain

theorem SetCookie.header_ne (c : SetCookie) : c.header ≠ [] := by
  intro hnil
  have hlen := congrArg List.length c.header_key
  rw [fieldKey_length,hnil] at hlen
  exact absurd hlen (by decide +kernel)

theorem SetCookie.header_plain (c : SetCookie) :
    ∀ b ∈ c.header, b ≠ 32 ∧ b ≠ 58 ∧ b ≠ 13 ∧ b ≠ 10 := by
  have hkey : ∀ b ∈ (headerKey 48).dropLast, b ≠ 32 ∧ b ≠ 58 ∧ b ≠ 13 ∧ b ≠ 10 := by decide +kernel
  intro b hb
  have hlower : lower b ∈ (headerKey 48).dropLast := by
    rw [← c.header_key,fieldKey,List.dropLast_concat]
    exact List.mem_map_of_mem hb
  obtain ⟨hspace,hcolon,hcr,hlf⟩ := hkey _ hlower
  refine ⟨?_,?_,?_,?_⟩
  · rintro rfl
    exact hspace (by decide)
  · rintro rfl
    exact hcolon (by decide)
  · rintro rfl
    exact hcr (by decide)
  · rintro rfl
    exact hlf (by decide)

/-- Behind the name of a header stand the spaces and the cookie. -/
theorem SetCookie.fieldRead (c : SetCookie) (last : UInt8) (w : List UInt8) :
    FieldRead last (fieldText c.header c.gap (c.body w)) c.header (c.body w) := by
  apply fieldText_read last c.gap c.header_ne
  · intro b hb
    obtain ⟨hspace,hcolon,-⟩ := c.header_plain b hb
    exact ⟨hspace,hcolon⟩
  · obtain ⟨b,name,hname⟩ := List.exists_cons_of_ne_nil c.name_ne
    have hb := (c.name_plain b (by simp [hname])).2.1
    rw [body,hname]
    simpa using hb

/-! ### Searches in a line -/

/-- What is found does not depend on the bytes behind it. -/
theorem strstr_append {needle m r : List UInt8} (t : List UInt8) (h : strstr needle m = .ok (some r)) :
    strstr needle (m ++ t) = .ok (some (r ++ t)) := by
  induction m with
  | nil => cases h
  | cons c m ih =>
    have hlen : needle.length ≤ (c::m).length := by
      obtain ⟨x,hx⟩ := strstr_some h
      rw [hx]
      simp only [List.length_append]
      omega
    rw [strstr] at h
    rw [List.cons_append,strstr]
    split_ifs at h with hpre hzero
    · cases h
      rw [← List.cons_append,if_pos (hpre.trans (List.prefix_append (c::m) t)),
        List.drop_append_of_le_length hlen]
    · cases h
    · have hno : ¬ needle <+: c::(m ++ t) := fun hpre' =>
        hpre (List.prefix_of_prefix_length_le hpre' (List.prefix_append (c::m) t) hlen)
      rw [if_neg hno,if_neg hzero,ih h]

theorem strstr_found {needle m : List UInt8} (hne : needle ≠ []) (hmem : needle <:+: m) (hzero : 0 ∉ m) :
    ∃ r, strstr needle m = .ok (some r) := by
  induction m with
  | nil => exact absurd (List.infix_nil.1 hmem) hne
  | cons c m ih =>
    rw [List.mem_cons,not_or] at hzero
    rw [strstr]
    split_ifs with hpre hc
    · exact ⟨_,rfl⟩
    · exact absurd hc.symm hzero.1
    · exact ih ((List.infix_cons_iff.1 hmem).resolve_left hpre) hzero.2

/-- A word without spaces is found behind spaces. -/
theorem strstr_gap {needle : List UInt8} (hne : needle ≠ []) (hspace : 32 ∉ needle) (gap : ℕ)
    (t : List UInt8) : strstr needle (List.replicate gap 32 ++ (needle ++ t)) = .ok (some t) := by
  obtain ⟨c,u,rfl⟩ := List.exists_cons_of_ne_nil hne
  rw [List.mem_cons,not_or] at hspace
  induction gap with
  | zero =>
    change strstr (c::u) (c::(u ++ t)) = _
    rw [strstr,← List.cons_append,if_pos (List.prefix_append _ t),List.drop_left]
  | succ gap ih =>
    have hno : ¬ c::u <+: 32::(List.replicate gap 32 ++ (c::u ++ t)) := fun hpre =>
      hspace.1 (List.cons_prefix_cons.1 hpre).1.symm
    rw [List.replicate_succ,List.cons_append,strstr,if_neg hno,if_neg (by decide),ih]

/-- In one of the segments `u` is found, with `v` behind it and some segments left, whatever follows the
line. -/
structure SegmentFound (u : List UInt8) (ss : List (List UInt8)) (v : List UInt8)
    (post : List (List UInt8)) : Prop where
  split : ∃ pre y, ss = pre ++ (y ++ u ++ v)::post
  found : ∀ t, strstr u (Separated.text 59 (13::10::t) ss) =
    .ok (some (v ++ Separated.behind 59 (13::10::t) post))

/-- A search that ends in a line has found a segment. -/
theorem AttrKind.segmentFound (k : AttrKind) {ss : List (List UInt8)}
    (hplain : ∀ s ∈ ss, ∀ b ∈ s, b ≠ 59 ∧ b ≠ 13 ∧ b ≠ 10 ∧ b ≠ 0)
    (h : SearchEnds k.needle (Separated.text 59 [13,10] ss)) :
    ∃ v post, SegmentFound k.needle ss v post := by
  have hne : k.needle ≠ [] := by simp [needle]
  have hzero : 0 ∉ Separated.text 59 [13,10] ss := by
    intro hmem
    rcases Separated.mem_text hmem with hsep | ⟨s,hs,hb⟩ | htail
    · cases hsep
    · exact (hplain s hs 0 hb).2.2.2 rfl
    · exact absurd htail (by decide)
  obtain ⟨r,hr⟩ := strstr_found hne (h.resolve_right hzero) hzero
  obtain ⟨x,hx⟩ := strstr_some hr
  have htail : ∀ a ∈ [(13 : UInt8),10], a ∉ k.needle := by
    intro a ha
    simp only [List.mem_cons,List.not_mem_nil,or_false] at ha
    rcases ha with rfl | rfl
    · exact k.not_mem_needle (by decide) (by decide)
    · exact k.not_mem_needle (by decide) (by decide)
  obtain ⟨pre,s,post,y,v,hss,hs,hrest⟩ := Separated.occurs hne (k.not_mem_needle (by decide) (by decide))
    (by simp) htail hx
  refine ⟨v,post,⟨pre,y,by rw [hss,hs]⟩,fun t => ?_⟩
  have happend := strstr_append t hr
  rw [hrest,← Separated.text_append,List.append_assoc,← Separated.behind_append] at happend
  exact happend

namespace SegmentFound

variable {u v : List UInt8} {ss post : List (List UInt8)}

theorem length (h : SegmentFound u ss v post) : post.length + 1 ≤ ss.length := by
  obtain ⟨pre,y,rfl⟩ := h.split
  simp only [List.length_append,List.length_cons]
  omega

theorem plain (h : SegmentFound u ss v post) {p : UInt8 → Prop} (hplain : ∀ s ∈ ss, ∀ b ∈ s, p b) :
    (∀ b ∈ v, p b) ∧ ∀ s ∈ post, ∀ b ∈ s, p b := by
  obtain ⟨pre,y,rfl⟩ := h.split
  constructor
  · intro b hb
    exact hplain (y ++ u ++ v) (by simp) b (by simp [hb])
  · intro s hs
    exact hplain s (by simp [hs])

end SegmentFound

/-! ### Values in a line -/

/-- A value ends at its separator or at the end of the line, and the parser stands at the next segment. -/
theorem RespCursor.read_value {c : RespCursor} {v t : List UInt8} {ss : List (List UInt8)}
    (hv : ∀ b ∈ v, b ≠ 59 ∧ b ≠ 13) (hm : c.m = v ++ Separated.behind 59 (13::10::t) ss) :
    c.text = v ∧ c.behind = ⟨Separated.text 59 (13::10::t) ss,c.pp + v.length + 1,
      write c.hlines c.pp (v ++ [0])⟩ := by
  obtain ⟨b,w,hw,hb⟩ : ∃ b w, Separated.behind 59 (13::10::t) ss = b::w ∧ (b = 59 ∨ b = 13) := by
    cases ss with
    | nil => exact ⟨13,10::t,rfl,.inr rfl⟩
    | cons s ss => exact ⟨59,_,rfl,.inl rfl⟩
  have hstop : decide (b ≠ 59 ∧ b ≠ 13) = false := by
    apply decide_eq_false
    tauto
  have hplain : ∀ b ∈ v, decide (b ≠ 59 ∧ b ≠ 13) = true := fun b hb => decide_eq_true (hv b hb)
  have htext : c.text = v := by
    rw [text,hm,hw]
    cases w with
    | nil =>
      rw [List.dropLast_concat]
      exact List.takeWhile_eq_self_iff.2 hplain
    | cons b' w =>
      rw [List.dropLast_append_of_ne_nil (by simp)]
      exact (takeWhile_stop hplain hstop).1
  refine ⟨htext,?_⟩
  rw [behind,htext,hm,List.drop_left]
  cases ss with
  | nil => rfl
  | cons s ss => rfl

/-- An attribute that is found in a line. -/
theorem SegmentFound.attribute {u v : List UInt8} {ss post : List (List UInt8)}
    (h : SegmentFound u ss v post) (hv : ∀ b ∈ v, b ≠ 59 ∧ b ≠ 13) (t : List UInt8) (pp : ℕ)
    (hlines : Mem) : respAttribute u ⟨Separated.text 59 (13::10::t) ss,pp,hlines⟩ =
      if pp + v.length < HTTP_HEADER_MAX then
        .ok (⟨Separated.text 59 (13::10::t) post,pp + v.length + 1,write hlines pp (v ++ [0])⟩,
          some (pp,v.length)) else .error .access := by
  have hread := RespCursor.read_value (c := ⟨v ++ Separated.behind 59 (13::10::t) post,pp,hlines⟩) hv rfl
  rw [respAttribute,h.found t]
  change respValue _ >>= _ = _
  rw [respValue_eq]
  by_cases hroom : pp + v.length < HTTP_HEADER_MAX
  · have hhas : RespCursor.HasRoom ⟨v ++ Separated.behind 59 (13::10::t) post,pp,hlines⟩ := by
      refine ⟨?_,by rw [hread.1]; exact hroom⟩
      cases post with
      | nil => simp [Separated.behind]
      | cons s post => simp [Separated.behind]
    rw [if_pos hhas,if_pos hroom,hread.1,hread.2]
    rfl
  · have hno : ¬ RespCursor.HasRoom ⟨v ++ Separated.behind 59 (13::10::t) post,pp,hlines⟩ := by
      intro hhas
      exact hroom (hread.1 ▸ hhas.2)
    rw [if_neg hno,if_neg hroom]
    rfl

/-! ### A cookie with three segments -/

/-- The name, the value and the attributes of a record, as they stand in `hlines`. -/
structure HttpCookie.Reads (cookie : HttpCookie) (hlines : Mem) (name value e p d : List UInt8) : Prop where
  name : read hlines cookie.kv.k cookie.kv.nk = name
  value : read hlines cookie.kv.v cookie.kv.nv = value
  expires : read hlines cookie.expireOff cookie.expireLen = e
  path : read hlines cookie.pathOff cookie.pathLen = p
  domain : read hlines cookie.domainOff cookie.domainLen = d

namespace SetCookie

variable (c : SetCookie)

/-- The three searches end in the line, one segment behind the other, with these values. -/
def Found (e p d : List UInt8) : Prop :=
  ∃ se sp, SegmentFound AttrKind.expires.needle c.segments e se ∧
    SegmentFound AttrKind.path.needle se p sp ∧ SegmentFound AttrKind.domain.needle sp d []

/-- The room that is used in `hlines`. -/
def foundSize (e p d : List UInt8) : ℕ :=
  c.name.length + 1 + (c.value.length + 1) + (e.length + 1) + (p.length + 1) + (d.length + 1)

/-- A cookie is added to a record, behind the bytes before `k`. -/
structure Stored (k : ℕ) (e p d : List UInt8) (resp resp' : HttpResponse) : Prop where
  ncookies : resp'.ncookies = resp.ncookies + 1
  nhline : resp'.nhline = k + c.foundSize e p d
  kept : ∀ j < k, resp'.hlines j = resp.hlines j
  others : ∀ j ≠ resp.ncookies, resp'.cookies j = resp.cookies j
  reads : ∀ hlines : Mem, (∀ j < resp'.nhline, hlines j = resp'.hlines j) →
    (resp'.cookies resp.ncookies).Reads hlines c.name c.value e p d

variable {c}

theorem needles : ascii "expires=" = AttrKind.expires.needle ∧ ascii "path=" = AttrKind.path.needle ∧
    ascii "domain=" = AttrKind.domain.needle := by
  decide +kernel

/-- Where the value of the cookie begins, and what stands behind it. -/
theorem valueCursor_body (c : SetCookie) (k : ℕ) (t : List UInt8) (hlines : Mem) :
    (valueCursor k c.name (c.body (13::10::t)) hlines).text = c.value ∧
      (valueCursor k c.name (c.body (13::10::t)) hlines).behind =
        ⟨Separated.text 59 (13::10::t) c.segments,k + c.name.length + 1 + c.value.length + 1,
          write (write hlines k (c.name ++ [0])) (k + c.name.length + 1) (c.value ++ [0])⟩ := by
  have hvalue : ∀ b ∈ c.value, b ≠ 59 ∧ b ≠ 13 := fun b hb =>
    ⟨(c.value_plain b hb).1,(c.value_plain b hb).2.1⟩
  have hm : (valueCursor k c.name (c.body (13::10::t)) hlines).m =
      c.value ++ Separated.behind 59 (13::10::t) c.segments := by
    rw [valueCursor,body]
    simp [List.drop_append]
  exact RespCursor.read_value hvalue hm

/-- The values that are found are plain. -/
theorem Found.plain {e p d : List UInt8} (h : c.Found e p d) :
    (∀ b ∈ e, b ≠ 59 ∧ b ≠ 13) ∧ (∀ b ∈ p, b ≠ 59 ∧ b ≠ 13) ∧ ∀ b ∈ d, b ≠ 59 ∧ b ≠ 13 := by
  obtain ⟨se,sp,he,hp,hd⟩ := h
  have hplain : ∀ s ∈ c.segments, ∀ b ∈ s, b ≠ 59 ∧ b ≠ 13 := fun s hs b hb =>
    ⟨(c.segments_plain hs b hb).1,(c.segments_plain hs b hb).2.1⟩
  obtain ⟨hpe,hse⟩ := he.plain hplain
  obtain ⟨hpp,hsp⟩ := hp.plain hse
  exact ⟨hpe,hpp,(hd.plain hsp).1⟩

/-- A cookie whose attributes are found is stored, whatever stands behind its line. -/
theorem Found.respCookie {e p d : List UInt8} (h : c.Found e p d) {k : ℕ} (resp : HttpResponse)
    (hroom : k + c.foundSize e p d ≤ HTTP_HEADER_MAX) (t : List UInt8) :
    ∃ resp', respCookie k c.name (c.body (13::10::t)) resp = .ok (resp',13::10::t) ∧
      c.Stored k e p d resp resp' := by
  obtain ⟨hpe,hpp,hpd⟩ := h.plain
  obtain ⟨se,sp,he,hp,hd⟩ := h
  obtain ⟨hne,hnp,hnd⟩ := needles
  rw [foundSize] at hroom
  obtain ⟨htext,hbehind⟩ := c.valueCursor_body k t resp.hlines
  have hhas : (valueCursor k c.name (c.body (13::10::t)) resp.hlines).HasRoom := by
    refine ⟨?_,?_⟩
    · rw [valueCursor,body]
      cases c.segments <;> simp [Separated.behind,List.drop_append]
    · rw [htext,valueCursor]
      dsimp only
      omega
  have hv := respValue_eq (valueCursor k c.name (c.body (13::10::t)) resp.hlines)
  rw [if_pos hhas,hbehind,htext] at hv
  have h1 := fun pp hl => he.attribute hpe t pp hl
  have h2 := fun pp hl => hp.attribute hpp t pp hl
  have h3 := fun pp hl => hd.attribute hpd t pp hl
  rw [Sbase.respCookie,if_pos (by omega),← valueCursor,hne,hnp,hnd]
  refine ⟨_,bind_ok_iff.2 ⟨_,hv,bind_ok_iff.2 ⟨_,(h1 _ _).trans (if_pos (by omega)),
    bind_ok_iff.2 ⟨_,(h2 _ _).trans (if_pos (by omega)),bind_ok_iff.2 ⟨_,(h3 _ _).trans (if_pos (by omega)),
      rfl⟩⟩⟩⟩,?_⟩
  refine ⟨rfl,?_,?_,?_,?_⟩
  · rw [foundSize]
    dsimp only
    omega
  · intro j hj
    dsimp only
    simp (disch := omega) only [write_apply_of_not_mem]
  · intro j hj
    exact Function.update_of_ne hj _ _
  · intro hlines hsame
    have hread : ∀ {off n : ℕ}, off + n ≤ k + c.foundSize e p d →
        read hlines off n = read _ off n :=
      fun hle => read_congr fun j _ hj => hsame j (by rw [foundSize] at hle; dsimp only; omega)
    rw [foundSize] at hread
    dsimp only
    rw [Function.update_self,HttpCookie.record]
    constructor
    all_goals
      dsimp only [Option.elim]
      rw [hread (by omega)]
      simp (disch := omega) only [read_write_before,read_write_take]

/-- An attribute that fits in the bytes of a line is found in one of its segments. -/
theorem attribute_cut (a : AttrKind) {ss : List (List UInt8)} {pp : ℕ} {hlines : Mem}
    (hplain : ∀ s ∈ ss, ∀ b ∈ s, b ≠ 59 ∧ b ≠ 13 ∧ b ≠ 10 ∧ b ≠ 0)
    (h : AttributeFits a.needle ⟨Separated.text 59 [13,10] ss,pp,hlines⟩) :
    ∃ v post, SegmentFound a.needle ss v post ∧ pp + v.length < HTTP_HEADER_MAX ∧
      respAttribute a.needle ⟨Separated.text 59 [13,10] ss,pp,hlines⟩ =
        .ok (⟨Separated.text 59 [13,10] post,pp + v.length + 1,write hlines pp (v ++ [0])⟩,
          some (pp,v.length)) := by
  obtain ⟨v,post,hfound⟩ := a.segmentFound hplain h.ends
  have hv : ∀ b ∈ v, b ≠ 59 ∧ b ≠ 13 := fun b hb =>
    ⟨((hfound.plain hplain).1 b hb).1,((hfound.plain hplain).1 b hb).2.1⟩
  have hread := hfound.attribute hv [] pp hlines
  have hin := (respAttribute_inBounds (by simp [AttrKind.needle]) _).2 h
  rw [hread,inBounds_ite] at hin
  exact ⟨v,post,hfound,hin,hread.trans (if_pos hin)⟩

theorem segments_length (c : SetCookie) : c.segments.length ≤ 3 := by
  have hcard := c.attrs_nodup.length_le_card
  rw [segments,List.length_map]
  rw [List.length_map] at hcard
  exact hcard.trans_eq (by decide)

/-- Where the bytes of a line are enough, its attributes are found in three segments. -/
theorem respCookie_cut {k : ℕ} {resp : HttpResponse}
    (h : InBounds (respCookie k c.name (c.body [13,10]) resp)) :
    ∃ e p d, c.Found e p d ∧ k + c.foundSize e p d ≤ HTTP_HEADER_MAX := by
  obtain ⟨-,-,hexpires,hpath,hdomain⟩ := (respCookie_inBounds _ _ _ _).1 h
  obtain ⟨hne,hnp,hnd⟩ := needles
  rw [(c.valueCursor_body k [] resp.hlines).2,hne] at hexpires hpath hdomain
  rw [hnp] at hpath hdomain
  rw [hnd] at hdomain
  have hplain : ∀ s ∈ c.segments, ∀ b ∈ s, b ≠ 59 ∧ b ≠ 13 ∧ b ≠ 10 ∧ b ≠ 0 := fun s => c.segments_plain
  obtain ⟨e,se,he,-,hre⟩ := attribute_cut .expires hplain hexpires
  obtain ⟨p,sp,hp,-,hrp⟩ := attribute_cut .path (he.plain hplain).2 (hpath _ hre)
  obtain ⟨d,sd,hd,hroom,-⟩ := attribute_cut .domain (hp.plain (he.plain hplain).2).2 (hdomain _ hre _ hrp)
  have hlast : sd = [] := by
    have hsegments := c.segments_length
    have he' := he.length
    have hp' := hp.length
    have hd' := hd.length
    exact List.length_eq_zero_iff.1 (by omega)
  rw [hlast] at hd
  refine ⟨e,p,d,⟨se,sp,he,hp,hd⟩,?_⟩
  rw [foundSize]
  omega

/-! ### Complete lines -/

/-- An occurrence in an attribute does not begin in its spaces. -/
theorem occurs_behind_gap {a : CookieAttribute} {k : AttrKind} {y v : List UInt8}
    (h : a.text = y ++ k.needle ++ v) :
    ∃ z, z ++ k.needle ++ v = a.name ++ 61::a.value ∧ y = List.replicate a.gap 32 ++ z := by
  rw [CookieAttribute.text,List.append_assoc] at h
  rcases List.append_eq_append_iff.1 h with ⟨z,hy,hz⟩ | ⟨z,hgap,hz⟩
  · exact ⟨z,by rw [hz,List.append_assoc],hy⟩
  · cases z with
    | nil =>
      rw [List.append_nil] at hgap
      exact ⟨[],by simpa using hz,by simp [hgap]⟩
    | cons b z =>
      have hspace : b = 32 := List.eq_of_mem_replicate (hgap ▸ (by simp : b ∈ y ++ b::z))
      have hb : b ∈ k.needle := by
        rw [AttrKind.needle] at hz ⊢
        cases hkey : k.key with
        | nil => exact absurd hkey (by cases k <;> decide +kernel)
        | cons b' w =>
          rw [hkey] at hz
          injection hz with hbb
          simp [hbb]
      exact absurd (hspace ▸ hb) (k.not_mem_needle (by decide) (by decide))

/-- An attribute with its name in lower case is found in its own segment. -/
theorem segmentFound_head {a : CookieAttribute} {k : AttrKind} (hname : a.name = k.key)
    (ss : List (List UInt8)) : SegmentFound k.needle (a.text::ss) a.value ss := by
  have htext : a.text = List.replicate a.gap 32 ++ k.needle ++ a.value := by
    simp [CookieAttribute.text,AttrKind.needle,hname]
  refine ⟨⟨[],List.replicate a.gap 32,by rw [htext]; rfl⟩,fun t => ?_⟩
  have hne : k.needle ≠ [] := by simp [AttrKind.needle]
  have hgap := strstr_gap hne (k.not_mem_needle (by decide) (by decide)) a.gap
    (a.value ++ Separated.behind 59 (13::10::t) ss)
  rw [Separated.text,htext,List.append_assoc,List.append_assoc]
  exact hgap

theorem kind_of_name {a : CookieAttribute} {k : AttrKind} (hname : a.name = k.key) : a.kind = k := by
  have hlower : k.key.map lower = k.key := by
    cases k <;> decide +kernel
  apply AttrKind.key_injective
  rw [← a.name_key,hname,hlower]

/-- A complete line has its own attributes found. -/
theorem Complete.found (h : c.Complete) : ∃ e p d, c.Found e p d ∧ c.foundSize e p d = c.size ∧
    c.attr .expires = some e ∧ c.attr .path = some p ∧ c.attr .domain = some d := by
  obtain ⟨a,as,hattrs,ha,h⟩ := List.map_eq_cons_iff.1 h
  obtain ⟨b,bs,rfl,hb,h⟩ := List.map_eq_cons_iff.1 h
  obtain ⟨x,xs,rfl,hx,h⟩ := List.map_eq_cons_iff.1 h
  rw [List.map_eq_nil_iff] at h
  cases h
  have hka : a.kind = .expires := kind_of_name ha
  have hkb : b.kind = .path := kind_of_name hb
  have hkx : x.kind = .domain := kind_of_name hx
  refine ⟨a.value,b.value,x.value,⟨[b.text,x.text],[x.text],?_,?_,?_⟩,?_,?_,?_,?_⟩
  · rw [segments,hattrs]
    exact segmentFound_head ha _
  · exact segmentFound_head hb _
  · exact segmentFound_head hx _
  · rw [foundSize,size,hattrs]
    simp only [List.map_cons,List.map_nil,List.sum_cons,List.sum_nil]
    omega
  · simp [attr,hattrs,hka]
  · simp [attr,hattrs,hka,hkb]
  · simp [attr,hattrs,hka,hkb,hkx]

/-- Before an `=`, a name is determined. -/
theorem name_unique {x y v w : List UInt8} (hx : 61 ∉ x) (hy : 61 ∉ y) (h : x ++ 61::v = y ++ 61::w) :
    x = y := by
  have hplain : ∀ {x : List UInt8}, 61 ∉ x → ∀ b ∈ x, decide (b ≠ 61) = true :=
    fun hx b hb => decide_eq_true (ne_of_mem_of_not_mem hb hx)
  have htake := congrArg (List.takeWhile (· ≠ 61)) h
  rwa [(takeWhile_stop (hplain hx) (by decide)).1,(takeWhile_stop (hplain hy) (by decide)).1] at htake

/-- Where nothing stands before an occurrence, the attribute is the one that was sought. -/
theorem name_of_occurs {a : CookieAttribute} {k : AttrKind} {z v : List UInt8}
    (h : z ++ k.needle ++ v = a.name ++ 61::a.value) (hz : z = []) : a.name = k.key := by
  rw [hz,AttrKind.needle,List.nil_append,List.append_assoc] at h
  refine (name_unique (k.not_mem_key (by decide)) (a.not_mem_name (by decide) ?_) h).symm
  exact fun k => k.not_mem_key (by decide)

/-- The three segments of a line with three attributes. -/
theorem Found.split {e p d : List UInt8} (h : c.Found e p d) : ∃ x y z, c.segments =
    [x ++ AttrKind.expires.needle ++ e,y ++ AttrKind.path.needle ++ p,z ++ AttrKind.domain.needle ++ d] := by
  obtain ⟨se,sp,he,hp,hd⟩ := h
  have hlen := c.segments_length
  obtain ⟨pre,x,hx⟩ := he.split
  obtain ⟨pre',y,rfl⟩ := hp.split
  obtain ⟨pre'',z,rfl⟩ := hd.split
  rw [hx] at hlen
  simp only [List.length_append,List.length_cons,List.length_nil] at hlen
  have hnil : ∀ {l : List (List UInt8)}, l.length = 0 → l = [] := List.length_eq_zero_iff.1
  rw [hnil (l := pre) (by omega),hnil (l := pre') (by omega),hnil (l := pre'') (by omega)] at hx
  exact ⟨x,y,z,hx⟩

theorem attr_of_mem {a : CookieAttribute} (ha : a ∈ c.attrs) : c.attr a.kind = some a.value := by
  have hfind : ∀ {as : List CookieAttribute}, (as.map CookieAttribute.kind).Nodup → a ∈ as →
      as.find? (·.kind = a.kind) = some a := by
    intro as hnodup hmem
    induction as with
    | nil => cases hmem
    | cons b as ih =>
      rw [List.map_cons,List.nodup_cons] at hnodup
      rcases List.mem_cons.1 hmem with rfl | hmem
      · simp
      · have hne : b.kind ≠ a.kind := fun heq => hnodup.1 (heq ▸ List.mem_map_of_mem hmem)
        rw [List.find?_cons_of_neg (by simpa using hne)]
        exact ih hnodup.2 hmem
  rw [attr,hfind c.attrs_nodup ha]
  rfl

/-- Three attributes are all of them, in some order. -/
theorem attrs_sum (hlen : c.attrs.length = 3) (f : AttrKind → ℕ) :
    (c.attrs.map fun a => f a.kind).sum = f .expires + f .path + f .domain := by
  have huniv : (c.attrs.map CookieAttribute.kind).toFinset = Finset.univ := by
    apply Finset.eq_univ_of_card
    rw [List.toFinset_card_of_nodup c.attrs_nodup,List.length_map,hlen]
    decide
  have hsum := List.sum_toFinset f c.attrs_nodup
  rw [huniv,List.map_map] at hsum
  rw [Nat.add_assoc]
  exact hsum.symm

/-- Where the values that are found are those of the line, it is complete. -/
theorem Found.complete {e p d : List UInt8} (h : c.Found e p d) (he : (c.attr .expires).getD [] = e)
    (hp : (c.attr .path).getD [] = p) (hd : (c.attr .domain).getD [] = d) : c.Complete := by
  obtain ⟨x,y,z,hsplit⟩ := h.split
  obtain ⟨a1,as,hattrs,h1,hsplit⟩ := List.map_eq_cons_iff.1 hsplit
  obtain ⟨a2,as,rfl,h2,hsplit⟩ := List.map_eq_cons_iff.1 hsplit
  obtain ⟨a3,as,rfl,h3,hsplit⟩ := List.map_eq_cons_iff.1 hsplit
  rw [List.map_eq_nil_iff] at hsplit
  cases hsplit
  obtain ⟨x,hx,-⟩ := occurs_behind_gap h1
  obtain ⟨y,hy,-⟩ := occurs_behind_gap h2
  obtain ⟨z,hz,-⟩ := occurs_behind_gap h3
  have hlen : ∀ {a : CookieAttribute} {k : AttrKind} {x v : List UInt8}, a ∈ c.attrs →
      x ++ k.needle ++ v = a.name ++ 61::a.value → x.length + k.key.length + v.length =
        a.kind.key.length + ((c.attr a.kind).getD []).length := by
    intro a k x v ha hx
    have hx := congrArg List.length hx
    simp only [AttrKind.needle,List.length_append,List.length_cons,List.length_nil,a.name_length] at hx
    rw [attr_of_mem ha,Option.getD_some]
    omega
  have hxlen := hlen (by simp [hattrs]) hx
  have hylen := hlen (by simp [hattrs]) hy
  have hzlen := hlen (by simp [hattrs]) hz
  -- The attributes are the three that are sought, in some order, so that nothing else stands in the line.
  have hsum := attrs_sum (by rw [hattrs]; rfl) fun k => k.key.length + ((c.attr k).getD []).length
  rw [hattrs,he,hp,hd] at hsum
  simp only [List.map_cons,List.map_nil,List.sum_cons,List.sum_nil] at hsum
  rw [Complete,hattrs]
  simp only [List.map_cons,List.map_nil]
  rw [name_of_occurs hx (List.length_eq_zero_iff.1 (by omega)),
    name_of_occurs hy (List.length_eq_zero_iff.1 (by omega)),
    name_of_occurs hz (List.length_eq_zero_iff.1 (by omega))]
  rfl

end SetCookie

end Sbase
