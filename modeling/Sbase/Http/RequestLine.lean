import Sbase.Http.RequestParse

/-! The request line: what the method, the path and its arguments leave to the headers. -/
namespace Sbase
open Memory

/-! ### The path -/

/-- The decoded bytes of a path, which ends at a space, a CR or a `?`. -/
def decodePath : List UInt8 → List UInt8
  | [] => []
  | c::s =>
    if c = 32 ∨ c = 13 ∨ c = 63 then []
    else
      match escapeAt c s with
      | some b => b::decodePath (s.drop 2)
      | none => c::decodePath s
termination_by s => s.length

theorem update_eq_write (m : Mem) (off : ℕ) (b : UInt8) (bs : List UInt8) :
    write (Function.update m off b) (off + 1) bs = write m off (b::bs) := (write_cons m off b bs).symm

/-- The loop stores as much of the decoded path as there is room for. -/
theorem httpPathLoop_eq (s : List UInt8) (path : Mem) (ps : ℕ) (hps : ps ≤ HTTP_URL_PATH_MAX) :
    (httpPathLoop s path ps).2 =
      (write path ps ((decodePath s).take (HTTP_URL_PATH_MAX - ps)),
        min HTTP_URL_PATH_MAX (ps + (decodePath s).length)) := by
  induction s, path, ps using httpPathLoop.induct with
  | case1 path ps => simp [httpPathLoop,decodePath,hps]
  | case2 c s path ps hstop =>
    rw [httpPathLoop,if_pos hstop]
    by_cases hend : c = 32 ∨ c = 13 ∨ c = 63
    · rw [decodePath,if_pos hend]
      simp [hps]
    · have hfull : HTTP_URL_PATH_MAX - ps = 0 := by
        rcases hstop with h | h | h | h
        · exact absurd (.inl h) hend
        · exact absurd (.inr (.inl h)) hend
        · exact absurd (.inr (.inr h)) hend
        · omega
      rw [hfull,List.take_zero,write_nil]
      simp only [Prod.mk.injEq,true_and]
      omega
  | case3 c s path ps hgo b hb ih =>
    have hlt : ps < HTTP_URL_PATH_MAX := by tauto
    rw [httpPathLoop,if_neg hgo,decodePath,if_neg (by tauto),hb]
    dsimp only
    rw [ih hlt,update_eq_write,List.length_cons,
      show HTTP_URL_PATH_MAX - ps = HTTP_URL_PATH_MAX - (ps + 1) + 1 by omega,List.take_succ_cons,
      show ps + 1 + (decodePath (s.drop 2)).length = ps + ((decodePath (s.drop 2)).length + 1) by omega]
  | case4 c s path ps hgo hnone ih =>
    have hlt : ps < HTTP_URL_PATH_MAX := by tauto
    rw [httpPathLoop,if_neg hgo,decodePath,if_neg (by tauto),hnone]
    dsimp only
    rw [ih hlt,update_eq_write,List.length_cons,
      show HTTP_URL_PATH_MAX - ps = HTTP_URL_PATH_MAX - (ps + 1) + 1 by omega,List.take_succ_cons,
      show ps + 1 + (decodePath s).length = ps + ((decodePath s).length + 1) by omega]

/-! ### The method -/

/-- The method, up to the first space. -/
def methodToken (p : List UInt8) : List UInt8 :=
  (p.dropWhile fun c => c = 32 ∨ c = 9).takeWhile (· ≠ 32)

/-- The bytes behind the method. -/
def methodRest (p : List UInt8) : List UInt8 :=
  (p.dropWhile fun c => c = 32 ∨ c = 9).dropWhile (· ≠ 32)

/-- The bytes from the path on. -/
def pathText (p : List UInt8) : List UInt8 := skipSpaces (methodRest p)

/-- The method is copied in lower case, and its number is set where it has one. -/
theorem httpMethod_eq {map : Mtrie} {p : List UInt8} {req : HttpReq} {st : HttpParse}
    (h : httpMethod map ⟨p,1,req,-1⟩ = .ok st) : st = ⟨methodRest p,1 + (methodToken p).length,
      { req with
        reqid := if 0 ≤ mtrieGet map ((methodToken p).map lower) - 1 then
          mtrieGet map ((methodToken p).map lower) - 1 else req.reqid
        hlines := write req.hlines 1 ((methodToken p).map lower) },-1⟩ := by
  unfold httpMethod at h
  obtain ⟨st1,h1,h⟩ := bind_ok_iff.1 h
  obtain ⟨-,rfl⟩ := copyWhile_ok h1
  have htoken : read (HttpParse.copied (· ≠ 32) lower
      ⟨p.dropWhile fun c => c = 32 ∨ c = 9,1,req,-1⟩).req.hlines 1 (methodToken p).length =
        (methodToken p).map lower := by
    have hread := read_write_self req.hlines 1 ((methodToken p).map lower)
    rwa [List.length_map] at hread
  have hlen : (HttpParse.copied (· ≠ 32) lower
      ⟨p.dropWhile fun c => c = 32 ∨ c = 9,1,req,-1⟩).pp - 1 = (methodToken p).length :=
    Nat.add_sub_cancel_left 1 _
  dsimp only at h
  rw [hlen,htoken] at h
  cases h
  split_ifs
  · rfl
  · rfl

theorem httpMethod_ok {map : Mtrie} {p : List UInt8} {req : HttpReq} {st : HttpParse}
    (h : httpMethod map ⟨p,1,req,-1⟩ = .ok st) : ∃ reqid, st =
      ⟨methodRest p,1 + (methodToken p).length,
        { req with reqid := reqid, hlines := write req.hlines 1 ((methodToken p).map lower) },-1⟩ :=
  ⟨_,httpMethod_eq h⟩

theorem httpMethod_fits (map : Mtrie) (p : List UInt8) (req : HttpReq)
    (hfit : (methodToken p).length < HTTP_HEADER_MAX) :
    ∃ st, httpMethod map ⟨p,1,req,-1⟩ = .ok st := by
  have hle : 1 + (methodToken p).length ≤ HTTP_HEADER_MAX := by omega
  unfold httpMethod
  rw [copyWhile_eq]
  dsimp only
  rw [← methodToken,if_pos hle]
  exact ⟨_,rfl⟩

/-! ### Text that the loops stop in -/

theorem decodePath_append (path w : List UInt8) : decodePath (path ++ 32::w) = decodePath path := by
  induction path using decodePath.induct with
  | case1 => simp [decodePath]
  | case2 c s hstop => rw [List.cons_append,decodePath,if_pos hstop,decodePath,if_pos hstop]
  | case3 c s hgo b hb ih =>
    have hlen := escapeAt_length hb
    rw [List.cons_append,decodePath,if_neg hgo,decodePath,if_neg hgo,escapeAt_before c s w rfl,hb]
    dsimp only
    rw [List.drop_append_of_le_length hlen,ih]
  | case4 c s hgo hnone ih =>
    rw [List.cons_append,decodePath,if_neg hgo,decodePath,if_neg hgo,escapeAt_before c s w rfl,hnone]
    dsimp only
    rw [ih]

/-- The loop over the path stops by the next space. -/
theorem httpPathLoop_stops (q w : List UInt8) (path : Mem) (ps : ℕ) :
    ∃ q', (httpPathLoop (q ++ 32::w) path ps).1 = q' ++ 32::w ∧ q' <:+ q := by
  induction q, path, ps using httpPathLoop.induct with
  | case1 path ps => exact ⟨[],by rw [List.nil_append,httpPathLoop,if_pos (.inl rfl)],List.suffix_rfl⟩
  | case2 c s path ps hstop =>
    refine ⟨c::s,?_,List.suffix_rfl⟩
    rw [List.cons_append,httpPathLoop,if_pos hstop]
  | case3 c s path ps hgo b hb ih =>
    have hlen := escapeAt_length hb
    obtain ⟨q',hq,hsuf⟩ := ih
    rw [← List.drop_append_of_le_length hlen] at hq
    refine ⟨q',?_,hsuf.trans ((List.drop_suffix 2 s).trans (List.suffix_cons c s))⟩
    rw [List.cons_append,httpPathLoop,if_neg hgo,escapeAt_before c s w rfl,hb]
    exact hq
  | case4 c s path ps hgo hnone ih =>
    obtain ⟨q',hq,hsuf⟩ := ih
    refine ⟨q',?_,hsuf.trans (List.suffix_cons c s)⟩
    rw [List.cons_append,httpPathLoop,if_neg hgo,escapeAt_before c s w rfl,hnone]
    exact hq

/-- The loop over the arguments stops by the next space. -/
theorem httpArgvLoop_stops (q w : List UInt8) {room : ℕ} {st st' : ArgvState} {s' : List UInt8}
    (h : httpArgvLoop room (q ++ 32::w) st = some (st',s')) : ∃ q', s' = q' ++ 32::w ∧ q' <:+ q := by
  induction hn : q.length using Nat.strong_induction_on generalizing q st with
  | _ n ih =>
    cases q with
    | nil =>
      rcases httpArgvLoop_step h with heq | ⟨hne,-⟩
      · cases heq
        exact ⟨[],rfl,List.suffix_rfl⟩
      · exact absurd rfl hne
    | cons c q =>
      rw [List.length_cons] at hn
      rw [List.cons_append] at h
      rcases httpArgvLoop_step h with heq | ⟨-,st1,s1,-,hs1 | ⟨hesc,hs1⟩,hrest⟩
      · cases heq
        exact ⟨c::q,rfl,List.suffix_rfl⟩
      · subst hs1
        obtain ⟨q',hq,hsuf⟩ := ih _ (by omega) q hrest rfl
        exact ⟨q',hq,hsuf.trans (List.suffix_cons c q)⟩
      · rw [escapeAt_before c q w rfl] at hesc
        obtain ⟨b,hb⟩ := Option.isSome_iff_exists.1 hesc
        rw [List.drop_append_of_le_length (escapeAt_length hb)] at hs1
        subst hs1
        obtain ⟨q',hq,hsuf⟩ := ih _ (by rw [List.length_drop]; omega) (q.drop 2) hrest rfl
        exact ⟨q',hq,hsuf.trans ((List.drop_suffix 2 q).trans (List.suffix_cons c q))⟩

theorem httpArgvParse_stops {room : ℕ} {q w : List UInt8} {req req' : HttpReq} {n : ℕ}
    (h : httpArgvParseIn room (q ++ 32::w) req = some (req',n)) :
    ∃ q', (q ++ 32::w).drop n = q' ++ 32::w ∧ q' <:+ q := by
  unfold httpArgvParseIn at h
  split_ifs at h with hnil
  · simp at hnil
  all_goals
    obtain ⟨⟨st,s⟩,hloop,hst⟩ := Option.map_eq_some_iff.1 h
    cases hst
    obtain ⟨q',rfl,hsuf⟩ := httpArgvLoop_stops q w hloop
    refine ⟨q',?_,hsuf⟩
    obtain ⟨u,rfl⟩ := hsuf
    have hlen : (u ++ q' ++ 32::w).length - (q' ++ 32::w).length = u.length := by
      simp only [List.length_append,List.length_cons]
      omega
    rw [hlen,List.append_assoc,List.drop_left]

/-- What the arguments leave alone, and where they stop. -/
theorem httpQuery_stops (p : List UInt8) (last : UInt8) (st : HttpParse) {q w : List UInt8}
    (hs : st.s = q ++ 32::w) (hargs : st.req.nargvs ≤ HTTP_ARGVS_MAX) :
    ∃ st' q', httpQuery p last st = .ok st' ∧ st'.s = q' ++ 32::w ∧ q' <:+ q ∧
      st'.pp = st.pp ∧ st'.req.headers = st.req.headers ∧ st'.req.nhline = st.req.nhline ∧
      st'.req.hlines = st.req.hlines ∧ st'.req.ncookies = st.req.ncookies := by
  unfold httpQuery
  rw [hs]
  by_cases hquery : (q ++ 32::w).headD last = 63
  · rw [if_pos hquery]
    cases q with
    | nil => cases hquery
    | cons c q =>
      simp only [List.cons_append,List.drop_one,List.tail_cons]
      obtain ⟨req,n,hover⟩ := httpArgvParseOver_some (q ++ 32::w) { st.req with
        argvOff := p.length - (c::(q ++ 32::w)).length + 1 } hargs
      rw [hover]
      have hsame := httpArgvParseOver_same hover
      obtain ⟨⟨r,m⟩,hparse,hr⟩ := Option.map_eq_some_iff.1 hover
      cases hr
      obtain ⟨q',hq,hsuf⟩ := httpArgvParse_stops hparse
      refine ⟨_,q',rfl,hq,hsuf.trans (List.suffix_cons c q),rfl,?_,?_,?_,?_⟩
      all_goals
        dsimp only
        rw [hsame]
  · rw [if_neg hquery]
    exact ⟨st,q,rfl,hs,List.suffix_rfl,rfl,rfl,rfl,rfl,rfl⟩

/-! ### A well-formed request line -/

theorem takeWhile_stop {test : UInt8 → Bool} {bs w : List UInt8} {c : UInt8}
    (hbs : ∀ b ∈ bs, test b = true) (hc : test c = false) :
    (bs ++ c::w).takeWhile test = bs ∧ (bs ++ c::w).dropWhile test = c::w := by
  rw [List.takeWhile_append_of_pos hbs,List.dropWhile_append_of_pos hbs,
    List.takeWhile_cons_of_neg (by simp [hc]),List.dropWhile_cons_of_neg (by simp [hc])]
  exact ⟨List.append_nil bs,rfl⟩

theorem dropWhile_keep {test : UInt8 → Bool} {bs : List UInt8} (w : List UInt8) (hne : bs ≠ [])
    (hbs : ∀ b ∈ bs, test b = false) : (bs ++ w).dropWhile test = bs ++ w := by
  obtain ⟨b,bs,rfl⟩ := List.exists_cons_of_ne_nil hne
  rw [List.cons_append,List.dropWhile_cons_of_neg]
  simp [hbs b (by simp)]

theorem nextLine_append {bs w : List UInt8} (hbs : 10 ∉ bs) : nextLine (bs ++ 10::w) = w := by
  have hplain : ∀ b ∈ bs, decide (b ≠ 10) = true := fun b hb =>
    decide_eq_true (ne_of_mem_of_not_mem hb hbs)
  rw [nextLine,(takeWhile_stop hplain (by decide)).2]
  rfl

/-- The parts of a request line, which have no blanks or ends of lines in them. -/
structure RequestLine where
  method : List UInt8
  path : List UInt8
  version : List UInt8
  method_ne : method ≠ []
  method_plain : ∀ c ∈ method, c ≠ 32 ∧ c ≠ 9 ∧ c ≠ 13 ∧ c ≠ 10
  path_ne : path ≠ []
  path_plain : ∀ c ∈ path, c ≠ 32 ∧ c ≠ 9 ∧ c ≠ 13 ∧ c ≠ 10
  version_plain : ∀ c ∈ version, c ≠ 13 ∧ c ≠ 10

namespace RequestLine

/-- The line with its CRLF, in front of the rest of the request. -/
def text (l : RequestLine) (rest : List UInt8) : List UInt8 :=
  l.method ++ 32::(l.path ++ 32::(l.version ++ 13::10::rest))

variable (l : RequestLine) (rest : List UInt8)

theorem start : (l.text rest).dropWhile (fun c => c = 32 ∨ c = 9) = l.text rest := by
  apply dropWhile_keep _ l.method_ne
  intro c hc
  have hplain := l.method_plain c hc
  simp [hplain]

theorem methodToken_text : methodToken (l.text rest) = l.method := by
  rw [methodToken,start]
  refine (takeWhile_stop (fun c hc => ?_) (by decide)).1
  simp [l.method_plain c hc]

theorem pathText_text : pathText (l.text rest) = l.path ++ 32::(l.version ++ 13::10::rest) := by
  have hmethod : methodRest (l.text rest) = 32::(l.path ++ 32::(l.version ++ 13::10::rest)) := by
    rw [methodRest,start]
    refine (takeWhile_stop (fun c hc => ?_) (by decide)).2
    simp [l.method_plain c hc]
  rw [pathText,hmethod,skipSpaces,List.dropWhile_cons_of_pos (by decide)]
  apply dropWhile_keep _ l.path_ne
  intro c hc
  simp [l.path_plain c hc]

/-- What is left of the line behind a part of the path. -/
theorem nextLine_text {q : List UInt8} (hq : q <:+ l.path) :
    nextLine (q ++ 32::(l.version ++ 13::10::rest)) = rest := by
  have hplain : 10 ∉ q ++ 32::(l.version ++ [13]) := by
    intro h
    rw [List.mem_append,List.mem_cons,List.mem_append,List.mem_singleton] at h
    rcases h with h | h | h | h
    · exact (l.path_plain 10 (hq.subset h)).2.2.2 rfl
    · cases h
    · exact (l.version_plain 10 h).2 rfl
    · cases h
  have hsplit : q ++ 32::(l.version ++ 13::10::rest) = (q ++ 32::(l.version ++ [13])) ++ 10::rest := by
    simp
  rw [hsplit,nextLine_append hplain]

/-- The record behind a request line: no header is set, and of `hlines` only the method. -/
structure Read (st : HttpParse) : Prop where
  rest : st.s = rest
  pp : st.pp = 1 + l.method.length
  headers : ∀ h, st.req.headers h = 0
  nhline : st.req.nhline = 0
  ncookies : st.req.ncookies = 0
  hlines : st.req.hlines = write (fun _ => 0) 1 (l.method.map lower)

/-- A request line within the buffers is read up to the headers, however many arguments it has. -/
theorem httpRequestLine_text (last : UInt8) (hmethod : l.method.length < HTTP_HEADER_MAX)
    (hpath : (decodePath l.path).length < HTTP_URL_PATH_MAX) :
    ∃ st, httpRequestLine httpHeadersMapInit (l.text rest) last .zero = .ok st ∧ l.Read rest st := by
  obtain ⟨st,hst⟩ := httpMethod_fits httpHeadersMapInit (l.text rest) .zero
    (by rwa [methodToken_text])
  obtain ⟨reqid,rfl⟩ := httpMethod_ok hst
  have hskip := l.pathText_text rest
  rw [pathText] at hskip
  obtain ⟨q,hq,hsuf⟩ := httpPathLoop_stops l.path (l.version ++ 13::10::rest) HttpReq.zero.path 0
  have hloop := httpPathLoop_eq (l.path ++ 32::(l.version ++ 13::10::rest)) HttpReq.zero.path 0
    (Nat.zero_le _)
  rw [decodePath_append] at hloop
  have hroom : ¬ HTTP_URL_PATH_MAX ≤
      (httpPathLoop (skipSpaces (methodRest (l.text rest))) HttpReq.zero.path 0).2.2 := by
    rw [hskip,hloop]
    simp [hpath]
  unfold httpRequestLine
  rw [hst]
  dsimp only [bind,Except.bind]
  rw [if_neg hroom,hskip]
  obtain ⟨st,q',hquery,hs,hq',hpp,hh,hn,hl,hc⟩ := httpQuery_stops (l.text rest) last
    (⟨_,1 + (methodToken (l.text rest)).length,
      { HttpReq.zero with
        reqid := reqid
        hlines := write HttpReq.zero.hlines 1 ((methodToken (l.text rest)).map lower)
        path := Function.update _ _ 0 },-1⟩) hq (Nat.zero_le _)
  rw [hquery]
  refine ⟨_,rfl,?_,?_,?_,hn,hc,?_⟩
  · dsimp only
    rw [hs,l.nextLine_text rest (hq'.trans hsuf)]
  · dsimp only
    rw [hpp,methodToken_text]
  · dsimp only
    rw [hh]
    exact fun _ => rfl
  · dsimp only
    rw [hl,methodToken_text]
    rfl

end RequestLine

end Sbase
