import Sbase.Http.HeaderField

/-! Which headers of a well-formed request keep their values.

A name is cut at the first space, so that a line is only read where the line before it has a space, and
its value is only stored where a space follows the colon. -/
namespace Sbase
open Memory

/-- For each line, whether it is read from its start and its name is cut behind the colon. -/
def fieldsStored : Bool → List HeaderField → List (HeaderField × Bool)
  | _, [] => []
  | reached, f::fs => (f,reached && f.spaced)::fieldsStored (decide f.HasSpace) fs

/-- Lines without a space are not stored, and the next one is neither, for its start is not reached. -/
theorem fieldsStored_append {us : List HeaderField} (hus : ∀ u ∈ us, ¬ u.HasSpace) (reached : Bool)
    (fs : List HeaderField) : fieldsStored reached (us ++ fs) =
      us.map (·,false) ++ fieldsStored (us.isEmpty && reached) fs := by
  induction us generalizing reached with
  | nil => simp
  | cons u us ih =>
    obtain ⟨hu,hus⟩ := List.forall_mem_cons.1 hus
    have htight : u.spaced = false := by
      cases h : u.spaced with
      | true => exact absurd (.inl h) hu
      | false => rfl
    rw [List.cons_append,fieldsStored,ih hus,htight,decide_eq_false hu,Bool.and_false,Bool.and_false]
    rfl

theorem fieldsStored_fst (reached : Bool) (fs : List HeaderField) :
    (fieldsStored reached fs).map Prod.fst = fs := by
  induction fs generalizing reached with
  | nil => rfl
  | cons f fs ih => rw [fieldsStored,List.map_cons,ih]

/-! ### The record of the lines so far -/

/-- The value of a header lies below a place, where its offset says. -/
def StoredAt (st : HttpParse) (f : HeaderField) : Prop :=
  st.req.headers f.h + f.value.length < st.pp ∧
    HoldsString st.req.hlines (st.req.headers f.h) f.value

/-- The invariant between lines: the two places in `hlines` agree from the first line on, and the headers
are those that were stored. -/
structure Recorded (st : HttpParse) (seen : List (HeaderField × Bool)) : Prop where
  zero : st.req.hlines 0 = 0
  pos : 0 < st.pp
  ncookies : st.req.ncookies ≤ HTTP_COOKIES_MAX + 1
  nhline : st.req.nhline = st.pp ∨ st.req.nhline = 0 ∧ seen = []
  stored : ∀ f, (f,true) ∈ seen → ¬ f.Exempt → StoredAt st f
  missed : ∀ f, (f,false) ∈ seen → st.req.headers f.h = 0
  absent : ∀ h, (∀ x ∈ seen, x.1.h ≠ h) → st.req.headers h = 0

namespace Recorded

variable {st st' : HttpParse} {seen : List (HeaderField × Bool)} {rest : List UInt8} {start n : ℕ}

theorem cookieStart (h : Recorded st seen) : 0 < st.req.cookieStart ∧
    (st.req.cookieStart = st.pp ∨ seen = []) ∧ st.req.cookieStart ≤ st.pp := by
  have hpos := h.pos
  unfold HttpReq.cookieStart
  rcases h.nhline with hn | ⟨hn,hseen⟩
  · rw [if_neg (by omega),hn]
    exact ⟨hpos,.inl rfl,le_rfl⟩
  · rw [if_pos hn]
    exact ⟨Nat.one_pos,.inr hseen,hpos⟩

/-- What was stored before stays in place when a line writes behind it. -/
theorem keep (h : Recorded st seen) (hstart : start = st.pp ∨ seen = []) (hlow : start < st'.pp)
    (hkept : ∀ j < start, st'.req.hlines j = st.req.hlines j) {f : HeaderField}
    (hf : (f,true) ∈ seen) (hex : ¬ f.Exempt) (hh : st'.req.headers f.h = st.req.headers f.h) :
    StoredAt st' f := by
  obtain ⟨hbelow,hread,hend⟩ := h.stored f hf hex
  rcases hstart with rfl | rfl
  · refine ⟨by omega,?_,?_⟩
    · rw [hh]
      refine (read_congr fun j _ hj => ?_).trans hread
      exact hkept j (by omega)
    · rw [hh,hkept _ hbelow,hend]
  · cases hf

/-- Lines whose headers are not set. -/
theorem miss (h : Recorded st seen) {i : ℤ} (hi : i < 0) {us : List HeaderField}
    (hline : LineRead i st st' rest start n) (hkeeps : st.Keeps st') (hstart : start = st.pp ∨ seen = [])
    (hpos : 0 < start) (hnew : ∀ u ∈ us, ∀ x ∈ seen, x.1.h ≠ u.h) :
    Recorded st' (seen ++ us.map (·,false)) := by
  have hheaders : st'.req.headers = st.req.headers := by
    rw [hline.headers,HttpParse.setHeader,if_pos hi]
  refine ⟨?_,?_,hkeeps.ncookies h.ncookies,.inl hline.nhline,?_,?_,?_⟩
  · rw [hline.kept 0 hpos,h.zero]
  · exact hpos.trans hline.low
  · intro f hf hex
    rw [List.mem_append,List.mem_map] at hf
    rcases hf with hf | ⟨u,-,hu⟩
    · exact h.keep hstart hline.low hline.kept hf hex (by rw [hheaders])
    · cases hu
  · intro f hf
    rw [hheaders]
    rw [List.mem_append,List.mem_map] at hf
    rcases hf with hf | ⟨u,hu,hfu⟩
    · exact h.missed f hf
    · cases hfu
      exact h.absent _ (hnew _ hu)
  · intro k hk
    rw [hheaders]
    exact h.absent k fun x hx => hk x (List.mem_append_left _ hx)

/-- A line whose header is set. -/
theorem store (h : Recorded st seen) {f : HeaderField}
    (hline : LineRead f.h st st' rest start n) (hkeeps : st.Keeps st') (hstart : start = st.pp ∨ seen = [])
    (hpos : 0 < start) (hnew : ∀ x ∈ seen, x.1.h ≠ f.h)
    (hvalue : ¬ f.Exempt → st.pp + f.value.length < st'.pp ∧ HoldsString st'.req.hlines st.pp f.value) :
    Recorded st' (seen ++ [(f,true)]) := by
  have hheaders : st'.req.headers = Function.update st.req.headers f.h st.pp := by
    rw [hline.headers,HttpParse.setHeader,if_neg (by omega)]
    rfl
  have hother : ∀ k, k ≠ f.h → st'.req.headers k = st.req.headers k := by
    intro k hk
    rw [hheaders,Function.update_of_ne hk]
  refine ⟨?_,?_,hkeeps.ncookies h.ncookies,.inl hline.nhline,?_,?_,?_⟩
  · rw [hline.kept 0 hpos,h.zero]
  · exact hpos.trans hline.low
  · intro g hg hex
    rw [List.mem_append,List.mem_singleton] at hg
    rcases hg with hg | hg
    · exact h.keep hstart hline.low hline.kept hg hex (hother _ (hnew _ hg))
    · cases hg
      rw [StoredAt,hheaders,Function.update_self]
      exact hvalue hex
  · intro g hg
    rw [List.mem_append,List.mem_singleton] at hg
    rcases hg with hg | hg
    · rw [hother _ (hnew _ hg),h.missed g hg]
    · cases hg
  · intro k hk
    have hkf : f.h ≠ k := hk (f,true) (by simp)
    rw [hother k hkf.symm]
    exact h.absent k fun x hx => hk x (List.mem_append_left _ hx)

end Recorded

/-! ### The lines of a request -/

/-- From the start of each line, what there is up to the next space fits in `line`, and the values fit in
`hlines`. -/
structure FieldsFit (fs : List HeaderField) (pp : ℕ) : Prop where
  names : ∀ rest, rest <:+ fs → (lineToken (fieldsText rest)).length < HTTP_HEAD_MAX
  room : pp + (fs.map HeaderField.room).sum ≤ HTTP_HEADER_MAX

/-- The outcome of a line: the lines up to the first space are recorded, and the next one is reached. -/
structure FieldsRead (st st' : HttpParse) (seen done : List (HeaderField × Bool))
    (us fs : List HeaderField) : Prop where
  rest : st'.s = fieldsText fs
  recorded : Recorded st' (seen ++ done)
  done_eq : fieldsStored true (us ++ fs) = done ++ fieldsStored true fs
  room : st'.pp ≤ st.pp + (us.map HeaderField.room).sum

theorem HeaderField.room_pos (f : HeaderField) : f.value.length < f.room := by
  unfold HeaderField.room
  omega

/-- A header whose line is reached and whose name is cut behind the colon. -/
theorem httpHeaderLine_store (last : UInt8) {st : HttpParse} {seen : List (HeaderField × Bool)}
    (hrec : Recorded st seen) {f : HeaderField} {rest : List UInt8} (hhead : Head (f.name ++ [58]))
    (hs : st.s = (f.name ++ [58]) ++ 32::(f.value ++ 13::10::rest))
    (hroom : st.pp + f.room ≤ HTTP_HEADER_MAX) (hnew : ∀ x ∈ seen, x.1.h ≠ f.h) :
    ∃ st', httpHeaderLine httpHeadersMapInit last st = .ok st' ∧ st'.s = rest ∧
      Recorded st' (seen ++ [(f,true)]) ∧ st'.pp ≤ st.pp + f.room := by
  have hindex : mtrieGet httpHeadersMapInit ((f.name ++ [58]).map lower) - 1 = f.h := by
    rw [List.map_append,show List.map lower [58] = [58] from rfl,f.name_eq,mtrieGet_headerKey f.h_lt]
  have hv : ∀ c ∈ f.value, c ≠ 13 ∧ c ≠ 10 := fun c hc =>
    ⟨(f.value_plain c hc).1,(f.value_plain c hc).2.1⟩
  have hskip : skipSpaces (f.value ++ 13::10::rest) = f.value ++ 13::10::rest := by
    cases hvalue : f.value with
    | nil => rfl
    | cons c v =>
      have hc : c ≠ 32 := by
        rintro rfl
        exact f.value_start (by rw [hvalue]; rfl)
      exact List.dropWhile_cons_of_neg (by simpa using hc)
  have hlt := f.room_pos
  have hkeeps : ∀ {st'}, httpHeaderLine httpHeadersMapInit last st = .ok st' → st.Keeps st' :=
    httpHeaderLine_keeps
  rw [hhead.line last hs,hindex,hskip] at hkeeps ⊢
  by_cases hcookie : (f.h : ℤ) = HEAD_REQ_COOKIE
  · obtain ⟨hpos,hstart,hle⟩ := hrec.cookieStart
    obtain ⟨st',hline,hread⟩ := cookieLine last rest hv (show st.pp + f.value.length < _ by omega) hle
      hrec.ncookies
    rw [← hcookie] at hline hread
    have hhigh := hread.high
    exact ⟨st',hline,hread.rest,hrec.store hread (hkeeps hline) hstart hpos hnew
      fun hex => absurd (.inl hcookie) hex,by omega⟩
  by_cases hbasic : (f.h : ℤ) = HEAD_REQ_AUTHORIZATION ∧ HeaderField.IsBasic f.value
  · have hroom' : f.room = f.value.length + 1 + 2 := by rw [HeaderField.room,if_pos hbasic.2]
    obtain ⟨st',hline,hread⟩ := basicLine f.h last rest hv
      (show st.pp + f.value.length + 2 < _ by omega)
    have hhigh := hread.high
    have hvalue : httpValue f.h last { st.setHeader f.h with s := f.value ++ 13::10::rest } =
        httpBasic last { st.setHeader f.h with s := f.value ++ 13::10::rest } := by
      rw [hbasic.1]
      exact httpValue_basic last _ rfl hbasic.2
    rw [hvalue] at hkeeps ⊢
    exact ⟨st',hline,hread.rest,hrec.store hread (hkeeps hline) (.inl rfl) hrec.pos hnew
      fun hex => absurd (.inr hbasic) hex,by omega⟩
  · obtain ⟨st',hline,hread,hpp,hvalue⟩ := copyLine f.h rest hv
      (show st.pp + f.value.length < _ by omega)
    rw [httpValue_plain last rfl hcookie fun hauth hb => hbasic ⟨hauth,hb⟩] at hkeeps ⊢
    exact ⟨st',hline,hread.rest,hrec.store hread (hkeeps hline) (.inl rfl) hrec.pos hnew
      fun _ => ⟨by omega,hvalue⟩,by omega⟩

/-- Lines up to one whose first space is not the one behind the colon. -/
theorem httpHeaderLine_miss (last : UInt8) (us : List HeaderField) {st : HttpParse}
    {seen : List (HeaderField × Bool)} (hrec : Recorded st seen) {a v rest : List UInt8} (hhead : Head a)
    (ha : 58 ∈ a.dropLast) (hs : st.s = a ++ 32::(v ++ 13::10::rest))
    (hv : ∀ c ∈ v, c ≠ 13 ∧ c ≠ 10) (hroom : st.pp + v.length < HTTP_HEADER_MAX)
    (hnew : ∀ u ∈ us, ∀ x ∈ seen, x.1.h ≠ u.h) :
    ∃ st', httpHeaderLine httpHeadersMapInit last st = .ok st' ∧ st'.s = rest ∧
      Recorded st' (seen ++ us.map (·,false)) ∧ st'.pp ≤ st.pp + v.length + 1 := by
  obtain ⟨v',hskip,hsuf⟩ := dropWhile_stops (· = 32) v (10::rest) (x := 13) (by decide)
  have hle := hsuf.length_le
  obtain ⟨st',hline,hread,hpp,-⟩ := copyLine (-1) rest (fun c hc => hv c (hsuf.subset hc))
    (show st.pp + v'.length < _ by omega)
  have hstep : httpHeaderLine httpHeadersMapInit last st = .ok st' := by
    rw [hhead.line last hs,index_colon ha,skipSpaces,hskip,httpValue,if_neg (by decide),
      if_neg (by decide)]
    exact hline
  exact ⟨st',hstep,hread.rest,
    hrec.miss (by decide) hread (httpHeaderLine_keeps hstep) (.inl rfl) hrec.pos hnew,by omega⟩

/-- The lines of a request without a space left. -/
theorem httpHeaderLine_last (last : UInt8) (us : List HeaderField) {st : HttpParse}
    {seen : List (HeaderField × Bool)} (hrec : Recorded st seen) {a : List UInt8} (hhead : Head a)
    (ha : 58 ∈ a.dropLast) (hs : st.s = a) (hroom : st.pp < HTTP_HEADER_MAX)
    (hnew : ∀ u ∈ us, ∀ x ∈ seen, x.1.h ≠ u.h) :
    ∃ st', httpHeaderLine httpHeadersMapInit last st = .ok st' ∧ st'.s = [] ∧
      Recorded st' (seen ++ us.map (·,false)) ∧ st'.pp ≤ st.pp + 1 := by
  obtain ⟨st',hline,hread⟩ := lastLine last hhead hs ha hroom
  exact ⟨st',hline,hread.rest,
    hrec.miss (by decide) hread (httpHeaderLine_keeps hline) (.inl rfl) hrec.pos hnew,hread.high⟩

/-- One line of the parser takes the lines of the request up to the first space. -/
theorem httpHeaderLine_fields (last : UInt8) {st : HttpParse} {seen : List (HeaderField × Bool)}
    {fs : List HeaderField} (hs : st.s = fieldsText fs) (hne : fs ≠ []) (hrec : Recorded st seen)
    (hfit : FieldsFit fs st.pp) (hnew : ∀ f ∈ fs, ∀ x ∈ seen, x.1.h ≠ f.h) :
    ∃ st' done us rest, httpHeaderLine httpHeadersMapInit last st = .ok st' ∧ fs = us ++ rest ∧
      us ≠ [] ∧ FieldsRead st st' seen done us rest := by
  have htoken := hfit.names fs List.suffix_rfl
  cases firstSpace fs with
  | none _ hus ha hname =>
    have hcolon := hname hne
    have htext : fieldsText fs ≠ [] := by
      intro hnil
      rw [hnil] at hcolon
      cases hcolon
    rw [lineToken_all ha,List.length_map] at htoken
    obtain ⟨u,us',rfl⟩ := List.exists_cons_of_ne_nil hne
    have hroom := hfit.room
    have hu := u.room_pos
    rw [List.map_cons,List.sum_cons] at hroom
    obtain ⟨st',hline,hrest,hrec',hhigh⟩ := httpHeaderLine_last last (u::us') hrec ⟨htext,ha,htoken⟩ hcolon hs
      (by omega) hnew
    refine ⟨st',_,u::us',[],hline,(List.append_nil _).symm,hne,hrest,hrec',?_,?_⟩
    · rw [fieldsStored_append hus]
      rfl
    · rw [List.map_cons,List.sum_cons]
      omega
  | found us g rest a v hus hg ha hv htext hname =>
    have hroom := hfit.room
    have hgroom := g.room_pos
    have hle := hv.length_le
    rw [List.map_append,List.sum_append,List.map_cons,List.sum_cons] at hroom
    rw [htext] at hs
    rw [htext,lineToken_space ha,List.length_map] at htoken
    have hdone : fieldsStored true (us ++ g::rest) =
        us.map (·,false) ++ (g,us.isEmpty && g.spaced)::fieldsStored true rest := by
      rw [fieldsStored_append hus,fieldsStored,decide_eq_true hg,Bool.and_true]
    have hsplit : us ++ g::rest = (us ++ [g]) ++ rest := by simp
    rcases hname with ⟨rfl,hspaced,rfl,rfl⟩ | ⟨hmissed,hcolon⟩
    · have hhead : Head (g.name ++ [58]) := ⟨by simp,ha,htoken⟩
      rw [List.map_nil,List.sum_nil] at hroom
      obtain ⟨st',hline,hrest,hrec',hhigh⟩ := httpHeaderLine_store last hrec hhead hs (by omega)
        (hnew g (by simp))
      refine ⟨st',[(g,true)],[g],rest,hline,rfl,by simp,hrest,hrec',?_,by simpa using hhigh⟩
      rw [hspaced] at hdone
      exact hdone
    · have hne' : a ≠ [] := by
        rintro rfl
        cases hcolon
      have hflag : (us.isEmpty && g.spaced) = false := by
        rw [Bool.and_eq_false_iff]
        by_cases hnil : us = []
        · exact .inr (by simpa using fun h => hmissed ⟨hnil,h⟩)
        · exact .inl (by simpa using hnil)
      have hvalue : ∀ c ∈ v, c ≠ 13 ∧ c ≠ 10 := fun c hc =>
        ⟨(g.value_plain c (hv.subset hc)).1,(g.value_plain c (hv.subset hc)).2.1⟩
      obtain ⟨st',hline,hrest,hrec',hhigh⟩ := httpHeaderLine_miss last (us ++ [g]) hrec
        ⟨hne',ha,htoken⟩ hcolon hs hvalue (by omega) fun u hu => hnew u (by
          rw [hsplit]
          exact List.mem_append_left rest hu)
      refine ⟨st',_,us ++ [g],rest,hline,hsplit,by simp,hrest,hrec',?_,?_⟩
      · rw [← hsplit,hdone,hflag]
        simp
      · rw [List.map_append,List.sum_append,List.map_singleton,List.sum_singleton]
        omega

theorem FieldsFit.rest {us fs : List HeaderField} {pp pp' : ℕ} (h : FieldsFit (us ++ fs) pp)
    (hpp : pp' ≤ pp + (us.map HeaderField.room).sum) : FieldsFit fs pp' := by
  have hroom := h.room
  rw [List.map_append,List.sum_append] at hroom
  exact ⟨fun rest hrest => h.names rest (hrest.trans (List.suffix_append us fs)),by omega⟩

/-- The whole loop: every line is recorded as stored or not. -/
theorem httpHeaderLoop_fields (last : UInt8) (fs : List HeaderField) {st : HttpParse}
    {seen : List (HeaderField × Bool)} (hs : st.s = fieldsText fs) (hrec : Recorded st seen)
    (hfit : FieldsFit fs st.pp)
    (hdist : ((seen.map Prod.fst ++ fs).map HeaderField.h).Nodup) :
    ∃ st', httpHeaderLoop httpHeadersMapInit last st = .ok st' ∧
      Recorded st' (seen ++ fieldsStored true fs) := by
  induction hn : fs.length using Nat.strong_induction_on generalizing fs st seen with
  | _ n ih =>
    by_cases hne : fs = []
    · subst hne
      refine ⟨st,httpHeaderLoop_nil hs,?_⟩
      rwa [fieldsStored,List.append_nil]
    have hnew : ∀ f ∈ fs, ∀ x ∈ seen, x.1.h ≠ f.h := by
      rw [List.map_append,List.nodup_append] at hdist
      intro f hf x hx
      have hmem : x.1.h ∈ (seen.map Prod.fst).map HeaderField.h :=
        List.mem_map_of_mem (List.mem_map_of_mem hx)
      exact hdist.2.2 _ hmem _ (List.mem_map_of_mem hf)
    have hcons : st.s ≠ [] := by
      obtain ⟨f,fs',rfl⟩ := List.exists_cons_of_ne_nil hne
      rw [hs,fieldsText,HeaderField.text]
      simp
    rw [httpHeaderLoop_cons hcons]
    obtain ⟨st1,done,us,rest,hline,rfl,hus,hread⟩ := httpHeaderLine_fields last hs hne hrec hfit hnew
    have hdone : done.map Prod.fst = us := by
      have hmap := congrArg (List.map Prod.fst) hread.done_eq
      rw [List.map_append,fieldsStored_fst,fieldsStored_fst] at hmap
      exact (List.append_cancel_right hmap).symm
    have hlen : 0 < us.length := List.length_pos_iff.2 hus
    rw [List.length_append] at hn
    rw [hline]
    change ∃ st', httpHeaderLoop httpHeadersMapInit last st1 = _ ∧ _
    obtain ⟨st',hloop,hrec'⟩ := ih rest.length (by omega) rest hread.rest hread.recorded
      (hfit.rest hread.room) (by rwa [List.map_append (f := Prod.fst),hdone,List.append_assoc]) rfl
    refine ⟨st',hloop,?_⟩
    rwa [hread.done_eq,← List.append_assoc]

/-! ### A well-formed request -/

/-- The parts of the request fit in the buffers of the parser. -/
structure RequestFits (l : RequestLine) (fields : List HeaderField) : Prop where
  path : (decodePath l.path).length < HTTP_URL_PATH_MAX
  fields : FieldsFit fields (1 + l.method.length)

/-- What a record is to hold: the values of the headers as they stand, and no others. -/
def HeadersRight (req : HttpReq) (fields : List HeaderField) : Prop :=
  (∀ f ∈ fields, ¬ f.Exempt → HoldsString req.hlines (req.headers f.h) f.value) ∧
    ∀ h < HTTP_HEADER_NUM, (∀ f ∈ fields, f.h ≠ h) → req.headers h = 0

/-- Every value to be stored is empty, or on a line that is reached and has a space behind its colon. -/
def AllStored (fields : List HeaderField) : Prop :=
  ∀ x ∈ fieldsStored true fields, ¬ x.1.Exempt → x.1.value ≠ [] → x.2 = true

theorem Recorded.headersRight_iff {st : HttpParse} {fields : List HeaderField}
    (h : Recorded st (fieldsStored true fields)) :
    HeadersRight st.req fields ↔ AllStored fields := by
  have hflag : ∀ f ∈ fields, ∃ b, (f,b) ∈ fieldsStored true fields := by
    intro f hf
    rw [← fieldsStored_fst true fields] at hf
    simpa using hf
  have hfield : ∀ x ∈ fieldsStored true fields, x.1 ∈ fields := by
    intro x hx
    rw [← fieldsStored_fst true fields]
    exact List.mem_map_of_mem hx
  constructor
  · rintro ⟨hvalues,-⟩ ⟨f,b⟩ hx hex hne
    by_contra hb
    have hb : b = false := by simpa using hb
    subst hb
    have hstring := (hvalues f (hfield _ hx) hex).1
    rw [h.missed f hx] at hstring
    obtain ⟨c,v,hv⟩ := List.exists_cons_of_ne_nil hne
    dsimp only at hv
    have hplain := f.value_plain c (by simp [hv])
    rw [hv,List.length_cons,read_succ,h.zero] at hstring
    exact hplain.2.2 (List.cons.inj hstring).1.symm
  · intro hall
    refine ⟨?_,?_⟩
    · intro f hf hex
      obtain ⟨b,hx⟩ := hflag f hf
      cases b with
      | true => exact (h.stored f hx hex).2
      | false =>
        have hnil : f.value = [] := by
          by_contra hne
          exact absurd (hall _ hx hex hne) (by simp)
        rw [hnil,h.missed f hx]
        exact ⟨rfl,h.zero⟩
    · intro k _ hk
      exact h.absent k fun x hx => hk x.1 (hfield x hx)

/-- A request within the buffers is recorded line by line, however many arguments and cookies it has. -/
theorem httpRequestParse_fields (l : RequestLine) (fields : List HeaderField) (last : UInt8)
    (hfit : RequestFits l fields) (hdist : (fields.map HeaderField.h).Nodup) :
    ∃ st, httpRequestParse httpHeadersMapInit (l.text (fieldsText fields)) last .zero =
      .ok (st.req,st.ret + 1) ∧ Recorded st (fieldsStored true fields) := by
  have hroom := hfit.fields.room
  obtain ⟨st,hline,hread⟩ := l.httpRequestLine_text (fieldsText fields) last (by omega) hfit.path
  have hzero : st.req.hlines 0 = 0 := by
    rw [hread.hlines]
    exact write_apply_of_not_mem _ _ _ _ (.inl Nat.one_pos)
  have hpos : 0 < st.pp := by
    rw [hread.pp]
    omega
  have hcookies : st.req.ncookies ≤ HTTP_COOKIES_MAX + 1 := by
    rw [hread.ncookies]
    exact Nat.zero_le _
  have hrec : Recorded st [] := ⟨hzero,hpos,hcookies,.inr ⟨hread.nhline,rfl⟩,by simp,by simp,
    fun h _ => hread.headers h⟩
  have hfields := hfit.fields
  rw [← hread.pp] at hfields
  obtain ⟨st',hloop,hrec'⟩ := httpHeaderLoop_fields last fields hread.rest hrec hfields (by simpa using hdist)
  refine ⟨st',?_,hrec'⟩
  rw [httpRequestParse,hline]
  change (httpHeaderLoop httpHeadersMapInit last st >>= _) = _
  rw [hloop]
  rfl

/-- For every well-formed request that fits in the buffers of the parser, the values of the headers are all
there exactly when each one that is to be stored is empty or stands on a line with a space behind its colon,
and that line is the first one or follows a line with a space. -/
theorem http_header_values_iff (l : RequestLine) (fields : List HeaderField) (last : UInt8)
    (hdist : (fields.map HeaderField.h).Nodup) (hfit : RequestFits l fields) :
    ∃ r, httpRequestParse httpHeadersMapInit (l.text (fieldsText fields)) last .zero = .ok r ∧
      (HeadersRight r.1 fields ↔ AllStored fields) := by
  obtain ⟨st,hparse,hrec⟩ := httpRequestParse_fields l fields last hfit hdist
  exact ⟨_,hparse,hrec.headersRight_iff⟩

/-- The lines `Host: a` and `Accept:b`. -/
def twoLines : List HeaderField :=
  [{ h := 22, name := ascii "Host", spaced := true, value := [97],
     h_lt := by decide, name_eq := by decide +kernel, value_plain := by decide +kernel,
     value_start := by decide },
   { h := 0, name := ascii "ACCEPT", spaced := false, value := [98],
     h_lt := by decide, name_eq := by decide +kernel, value_plain := by decide +kernel,
     value_start := by decide }]

theorem twoLines_fits : RequestFits getLine twoLines where
  path := by decide +kernel
  fields := by
    refine ⟨fun rest hrest => ?_,by decide +kernel⟩
    have hall : ∀ rest ∈ twoLines.tails, (lineToken (fieldsText rest)).length < HTTP_HEAD_MAX := by
      decide +kernel
    exact hall rest ((List.mem_tails rest twoLines).mpr hrest)

theorem http_header_values_two_lines :
    ∃ r, httpRequestParse httpHeadersMapInit (getLine.text (fieldsText twoLines)) 0 .zero = .ok r ∧
      (HeadersRight r.1 twoLines ↔ AllStored twoLines) :=
  http_header_values_iff getLine twoLines 0 (by decide) twoLines_fits

/-- Without a space behind the colon of `Accept:b`, its value is not found. -/
theorem http_header_values_tight : RequestFits getLine twoLines ∧
    ∀ r, httpRequestParse httpHeadersMapInit (getLine.text (fieldsText twoLines)) 0 .zero = .ok r →
      ¬ HeadersRight r.1 twoLines := by
  refine ⟨twoLines_fits,fun r hr => ?_⟩
  obtain ⟨st,hparse,hrec⟩ := httpRequestParse_fields getLine twoLines 0 twoLines_fits (by decide)
  rw [hparse] at hr
  cases hr
  rw [hrec.headersRight_iff]
  intro hall
  exact absurd (hall _ (List.mem_cons_of_mem _ (List.mem_singleton_self _))) (by decide +kernel)

end Sbase
