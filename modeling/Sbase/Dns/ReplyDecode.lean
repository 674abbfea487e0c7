import Sbase.Dns.QueryRoundTrip

/-! What `evdns_parse_reply` makes of a well-formed reply: the format of its names and records, and the
`HOSTENT` that is filled from them. -/
namespace Sbase

open Memory FuelLoop

/-! ### The format -/

/-- The labels of a name. -/
abbrev Labels := List (List UInt8)

/-- The bytes of a name that is written in full. -/
def wireLength (ls : Labels) : ℕ := (ls.map fun l => l.length+1).sum + 1

/-- The name at `p`, in full or with pointers to what stands before them; the record goes on at `e`. -/
inductive WireName (buf : List UInt8) : ℕ → Labels → ℕ → Prop
  | root {p} : buf[p]? = some 0 → WireName buf p [] (p+1)
  | label {p l ls e} : 0 < l.length → l.length ≤ 63 → buf[p]? = some (UInt8.ofNat l.length) →
      p+1+l.length ≤ buf.length → (buf.drop (p+1)).take l.length = l →
      WireName buf (p+1+l.length) ls e → WireName buf p (l::ls) e
  | pointer {p c d o ls e} : buf[p]? = some c → OFF_MASK ≤ c → buf[p+1]? = some d →
      o = (c.toNat-192)*256+d.toNat → o < p → WireName buf o ls e → WireName buf p ls (p+2)

/-- The questions from `p` on; the last one ends before `p'`. -/
inductive WireQuestions (buf : List UInt8) : List Labels → ℕ → ℕ → Prop
  | nil {p} : WireQuestions buf [] p p
  | cons {ls qs p e p'} : WireName buf p ls e → wireLength ls ≤ MAXCDNAME → e+QFIXEDSZ ≤ buf.length →
      WireQuestions buf qs (e+QFIXEDSZ) p' → WireQuestions buf (ls::qs) p p'

/-- The data of an answer. -/
inductive AnswerData
  | addr (a b c d : UInt8)
  | cname (target : Labels)
  | ptr (target : Labels)

structure Answer where
  owner : Labels
  data : AnswerData

/-- The `TYPE_*` value. -/
def AnswerData.type : AnswerData → ℕ
  | addr _ _ _ _ => TYPE_ANAME
  | cname _ => TYPE_CNAME
  | ptr _ => TYPE_PTR

def AnswerData.names : AnswerData → List Labels
  | addr _ _ _ _ => []
  | cname target | ptr target => [target]

/-- The bytes of an address as they lie in memory. -/
def AnswerData.addrs : AnswerData → List UInt32
  | addr a b c d => [a.toUInt32 ||| b.toUInt32 <<< 8 ||| c.toUInt32 <<< 16 ||| d.toUInt32 <<< 24]
  | cname _ | ptr _ => []

/-- The owner and the target. -/
def Answer.names (a : Answer) : List Labels := a.owner :: a.data.names

def Answer.addrs (a : Answer) : List UInt32 := a.data.addrs

/-- The data between `p` and `e`. -/
inductive WireData (buf : List UInt8) (p e : ℕ) : AnswerData → Prop
  | addr {a b c d} : e = p+4 → (buf.drop p).take 4 = [a,b,c,d] → WireData buf p e (.addr a b c d)
  | cname {target} : WireName buf p target e → wireLength target ≤ MAXCDNAME → WireData buf p e (.cname target)
  | ptr {target} : WireName buf p target e → wireLength target ≤ MAXCDNAME → WireData buf p e (.ptr target)

/-- The answers from `p` on. -/
inductive WireAnswers (buf : List UInt8) : List Answer → ℕ → Prop
  | nil {p} : WireAnswers buf [] p
  | cons {a as p e} : WireName buf p a.owner e → wireLength a.owner ≤ MAXCDNAME →
      e+RRFIXEDSZ ≤ buf.length → word16 buf e = a.data.type →
      WireData buf (e+RRFIXEDSZ) (e+RRFIXEDSZ+word16 buf (e+8)) a.data →
      WireAnswers buf as (e+RRFIXEDSZ+word16 buf (e+8)) → WireAnswers buf (a::as) p

/-- A reply whose names and addresses have room in the `HOSTENT`. -/
structure WireReply (buf : List UInt8) (qs : List Labels) (as : List Answer) : Prop where
  header : HFIXEDSZ ≤ buf.length
  qdcount : word16 buf 4 = qs.length
  ancount : word16 buf 6 = as.length
  records : ∃ p, WireQuestions buf qs HFIXEDSZ p ∧ WireAnswers buf as p
  aliases : (as.flatMap Answer.names).length ≤ DNS_MAX_NUM
  addrs : (as.flatMap Answer.addrs).length ≤ DNS_MAX_NUM

/-- The string is the name, without a dot behind it. -/
def Spells (name : Block UInt8) (ls : Labels) : Prop :=
  read name 0 (([46].intercalate ls).length+1) = [46].intercalate ls ++ [0]

/-- The `HOSTENT` has exactly what the reply says. -/
structure Decoded (buf : List UInt8) (qs : List Labels) (as : List Answer) (h : HostEnt) : Prop where
  qid : h.qid = word16 buf 0
  name : ∀ ls, qs.getLast? = some ls → Spells h.name ls
  nalias : h.nalias = (as.flatMap Answer.names).length
  aliases : ∀ i ls, (as.flatMap Answer.names)[i]? = some ls → Spells (h.aliases i) ls
  naddrs : h.naddrs = (as.flatMap Answer.addrs).length
  addrs : ∀ i a, (as.flatMap Answer.addrs)[i]? = some a → h.addrs i = a

/-! ### Names -/

section

variable {buf : List UInt8} {p e n : ℕ} {ls : Labels} {h h' h'' : HostEnt}

theorem pointerOffset_eq {c : UInt8} (hc : OFF_MASK ≤ c) (d : UInt8) :
    pointerOffset c d = (c.toNat-192)*256+d.toNat := by
  have hlow : 192 ≤ c.toNat := UInt8.le_iff_toNat_le.mp hc
  have hhigh : c.toNat < 256 := c.toNat_lt
  have hmask : (c &&& ~~~OFF_MASK).toNat = c.toNat-192 := by
    have hand : (c &&& ~~~OFF_MASK).toNat = c.toNat &&& (2^6-1) := UInt8.toNat_and c _
    rw [hand,Nat.and_two_pow_sub_one_eq_mod]
    omega
  rw [pointerOffset,hmask,← Nat.shiftLeft_add_eq_or_of_lt d.toNat_lt,Nat.shiftLeft_eq]

theorem length_dotted (ls : Labels) : (ls.flatMap (· ++ [(46 : UInt8)])).length+1 = wireLength ls := by
  rw [wireLength,List.length_flatMap]
  simp

/-- A name of the format is one that the loop reads. -/
theorem WireName.nameAt (hw : WireName buf p ls e) : NameAt buf p (ls.flatMap (· ++ [46])) e := by
  induction hw with
  | root h0 => exact .zero h0
  | @label p l ls e hpos hle hc hlen hl _ ih =>
    have hnat : (UInt8.ofNat l.length).toNat = l.length := by
      rw [UInt8.toNat_ofNat']
      omega
    have h0 : UInt8.ofNat l.length ≠ 0 := by
      intro hzero
      rw [hzero] at hnat
      exact absurd hnat (by simpa using hpos.ne)
    have hmask : ¬ OFF_MASK ≤ UInt8.ofNat l.length := by
      intro hmask
      have hlow := UInt8.le_iff_toNat_le.mp hmask
      rw [hnat] at hlow
      have h192 : OFF_MASK.toNat = 192 := rfl
      omega
    have hname := NameAt.label hc h0 hmask (by rw [hnat]; exact hlen) (by rw [hnat]; exact ih)
    rw [hnat,hl] at hname
    simpa using hname
  | pointer hc hmask hd ho _ _ ih =>
    rw [ho,← pointerOffset_eq hmask] at ih
    exact .pointer hc hmask hd ih

/-- The zero takes the place of the last dot. -/
theorem spells_closeName (name : Block UInt8) (ls : Labels) :
    Spells (closeName name (ls.flatMap (· ++ [46]))) ls := by
  by_cases hls : ls = []
  · rw [hls]
    rfl
  · rw [Spells,flatMap_dot hls]
    generalize [46].intercalate ls = text
    have hread := read_write_take name 0 (text ++ [0]) [0]
    rw [List.length_append,List.length_singleton,List.append_assoc] at hread
    rw [closeName_dot]
    exact hread

theorem dotted_lt (hle : wireLength ls ≤ MAXCDNAME) :
    (ls.flatMap (· ++ [(46 : UInt8)])).length < DNS_NAME_MAX := by
  have hlen := length_dotted ls
  have hmax : DNS_NAME_MAX = MAXCDNAME+1 := rfl
  omega

/-! ### Records -/

/-- What the records put into the `HOSTENT` behind what it has. -/
structure Filled (h : HostEnt) (names : List Labels) (addrs : List UInt32) (h' : HostEnt) : Prop where
  qid : h'.qid = h.qid
  name : h'.name = h.name
  nalias : h'.nalias = h.nalias+names.length
  oldAliases : ∀ i < h.nalias, h'.aliases i = h.aliases i
  aliases : ∀ i ls, names[i]? = some ls → Spells (h'.aliases (h.nalias+i)) ls
  naddrs : h'.naddrs = h.naddrs+addrs.length
  oldAddrs : ∀ i < h.naddrs, h'.addrs i = h.addrs i
  addrs : ∀ (i : ℕ) a, addrs[i]? = some a → h'.addrs (h.naddrs+i) = a

theorem Filled.refl (h : HostEnt) : Filled h [] [] h :=
  ⟨rfl,rfl,rfl,fun _ _ => rfl,nofun,rfl,fun _ _ => rfl,nofun⟩

theorem Filled.trans {ns ms : List Labels} {as bs : List UInt32} (h1 : Filled h ns as h')
    (h2 : Filled h' ms bs h'') : Filled h (ns ++ ms) (as ++ bs) h'' where
  qid := h2.qid.trans h1.qid
  name := h2.name.trans h1.name
  nalias := by
    rw [h2.nalias,h1.nalias,List.length_append,Nat.add_assoc]
  oldAliases i hi := by
    rw [h2.oldAliases i (by rw [h1.nalias]; omega),h1.oldAliases i hi]
  aliases i ls hls := by
    by_cases hi : i < ns.length
    · rw [List.getElem?_append_left hi] at hls
      rw [h2.oldAliases _ (by rw [h1.nalias]; omega)]
      exact h1.aliases i ls hls
    · rw [List.getElem?_append_right (not_lt.mp hi)] at hls
      have hnew := h2.aliases _ ls hls
      rwa [h1.nalias,Nat.add_assoc,Nat.add_sub_cancel' (not_lt.mp hi)] at hnew
  naddrs := by
    rw [h2.naddrs,h1.naddrs,List.length_append,Nat.add_assoc]
  oldAddrs i hi := by
    rw [h2.oldAddrs i (by rw [h1.naddrs]; omega),h1.oldAddrs i hi]
  addrs i a ha := by
    by_cases hi : i < as.length
    · rw [List.getElem?_append_left hi] at ha
      rw [h2.oldAddrs _ (by rw [h1.naddrs]; omega)]
      exact h1.addrs i a ha
    · rw [List.getElem?_append_right (not_lt.mp hi)] at ha
      have hnew := h2.addrs _ a ha
      rwa [h1.naddrs,Nat.add_assoc,Nat.add_sub_cancel' (not_lt.mp hi)] at hnew

/-- A name goes to the next alias. -/
theorem WireName.returns (hw : WireName buf p ls e) (hle : wireLength ls ≤ MAXCDNAME)
    (hroom : h.nalias < DNS_MAX_NUM) :
    ∃ h', Returns (fun fuel => expandAlias fuel buf p h) (e,h') ∧ Filled h [ls] [] h' := by
  refine ⟨_,returns_expandAlias.mpr ⟨_,e,hw.nameAt,dotted_lt hle,hroom,rfl⟩,rfl,rfl,rfl,fun i hi => ?_,
    fun i ls' hls => ?_,rfl,fun _ _ => rfl,nofun⟩
  · exact Function.update_of_ne hi.ne _ _
  · obtain ⟨hi,rfl⟩ := List.getElem?_eq_some_iff.mp hls
    obtain rfl : i = 0 := by simpa using hi
    dsimp only
    rw [Nat.add_zero,Function.update_self]
    exact spells_closeName _ _

theorem loadInt_eq {a b c d : UInt8} (hbytes : (buf.drop p).take 4 = [a,b,c,d]) :
    loadInt buf p = .ok (a.toUInt32 ||| b.toUInt32 <<< 8 ||| c.toUInt32 <<< 16 ||| d.toUInt32 <<< 24) := by
  have hget : ∀ i < 4, buf[p+i]? = [a,b,c,d][i]? := by
    intro i hi
    rw [← hbytes,List.getElem?_take_of_lt hi,List.getElem?_drop]
  have h0 : fetch buf p = .ok a := fetch_eq_ok.mpr (hget 0 (by decide))
  have h1 : fetch buf (p+1) = .ok b := fetch_eq_ok.mpr (hget 1 (by decide))
  have h2 : fetch buf (p+2) = .ok c := fetch_eq_ok.mpr (hget 2 (by decide))
  have h3 : fetch buf (p+3) = .ok d := fetch_eq_ok.mpr (hget 3 (by decide))
  rw [loadInt,h0,h1,h2,h3]
  rfl

theorem WireData.returns {data : AnswerData} (hd : WireData buf p e data)
    (hnames : h.nalias+data.names.length ≤ DNS_MAX_NUM) (haddrs : h.naddrs+data.addrs.length ≤ DNS_MAX_NUM) :
    ∃ h', Returns (fun fuel => parseData fuel buf data.type p h) h' ∧ Filled h data.names data.addrs h' := by
  have htarget : ∀ {type target}, type = TYPE_CNAME ∨ type = TYPE_PTR → WireName buf p target e →
      wireLength target ≤ MAXCDNAME → h.nalias < DNS_MAX_NUM →
      ∃ h', Returns (fun fuel => parseData fuel buf type p h) h' ∧ Filled h [target] [] h' := by
    intro type target htype hname hle hroom
    obtain ⟨h',hreturns,hfilled⟩ := hname.returns hle hroom
    simp only [parseData_name htype]
    exact ⟨h',(returns_bind_const stable_expandAlias).mpr ⟨_,hreturns,rfl⟩,hfilled⟩
  cases hd with
  | @addr a b c d _ hbytes =>
    have hroom : h.naddrs < DNS_MAX_NUM := haddrs
    refine ⟨{ h with
      naddrs := h.naddrs+1
      addrs := Function.update h.addrs h.naddrs
        (a.toUInt32 ||| b.toUInt32 <<< 8 ||| c.toUInt32 <<< 16 ||| d.toUInt32 <<< 24) },?_,?_⟩
    · simp only [AnswerData.type,parseData,if_true,loadInt_eq hbytes,returns_const]
      exact if_pos hroom
    · refine ⟨rfl,rfl,rfl,fun _ _ => rfl,nofun,rfl,fun i hi => Function.update_of_ne hi.ne _ _,fun i x hx => ?_⟩
      obtain ⟨hi,rfl⟩ := List.getElem?_eq_some_iff.mp hx
      obtain rfl : i = 0 := by simpa [AnswerData.addrs] using hi
      exact Function.update_self _ _ _
  | cname hname hle => exact htarget (.inl rfl) hname hle hnames
  | ptr hname hle => exact htarget (.inr rfl) hname hle hnames

theorem WireAnswers.returns {as : List Answer} (hw : WireAnswers buf as p)
    (hnames : h.nalias+(as.flatMap Answer.names).length ≤ DNS_MAX_NUM)
    (haddrs : h.naddrs+(as.flatMap Answer.addrs).length ≤ DNS_MAX_NUM) :
    ∃ h', Returns (fun fuel => parseAnswers fuel buf as.length p h) h' ∧
      Filled h (as.flatMap Answer.names) (as.flatMap Answer.addrs) h' := by
  induction hw generalizing h with
  | nil => exact ⟨h,returns_const.mpr rfl,.refl h⟩
  | @cons a as p e hname hle hfixed htype hdata _ ih =>
    rw [List.flatMap_cons,List.length_append,Answer.names,List.length_cons] at hnames
    rw [List.flatMap_cons,List.length_append,Answer.addrs] at haddrs
    obtain ⟨h1,hr1,hf1⟩ := hname.returns (h := h) hle (by omega)
    have hn1 := hf1.nalias
    have ha1 := hf1.naddrs
    rw [List.length_singleton] at hn1
    rw [List.length_nil] at ha1
    obtain ⟨h2,hr2,hf2⟩ := hdata.returns (h := h1) (by omega) (by omega)
    have hn2 := hf2.nalias
    have ha2 := hf2.naddrs
    obtain ⟨h3,hr3,hf3⟩ := ih (h := h2) (by omega) (by omega)
    rw [← htype] at hr2
    exact ⟨h3,returns_parseAnswers_succ.mpr ⟨_,hr1,hfixed,h2,hr2,hr3⟩,(hf1.trans hf2).trans hf3⟩

/-- Every question writes its name over the one before. -/
theorem WireQuestions.returns {qs : List Labels} {p' : ℕ} (hw : WireQuestions buf qs p p') :
    ∃ name, Returns (fun fuel => parseQuestions fuel buf qs.length p h) (p',{ h with name := name }) ∧
      (qs = [] → name = h.name) ∧ ∀ ls, qs.getLast? = some ls → Spells name ls := by
  induction hw generalizing h with
  | nil => exact ⟨h.name,returns_const.mpr rfl,fun _ => rfl,nofun⟩
  | @cons ls qs p e p' hname hle hfixed _ ih =>
    obtain ⟨name,hr,hnil,hlast⟩ := ih (h := { h with name := closeName h.name (ls.flatMap (· ++ [46])) })
    refine ⟨name,returns_parseQuestions_succ.mpr ⟨_,e,hname.nameAt,dotted_lt hle,hfixed,hr⟩,nofun,?_⟩
    intro ls' hls
    cases qs with
    | nil =>
      cases hls
      rw [hnil rfl]
      exact spells_closeName _ _
    | cons q qs => exact hlast ls' (by rwa [List.getLast?_cons_cons] at hls)

end

/-- A well-formed reply with a record is decoded completely, whatever was in the `HOSTENT`. -/
theorem reply_decoded {buf : List UInt8} {qs : List Labels} {as : List Answer} (hw : WireReply buf qs as)
    (hlen : HFIXEDSZ < buf.length) (h : HostEnt) :
    ∃ h', Returns (fun fuel => evdnsParseReply fuel buf h) (h',0) ∧ Decoded buf qs as h' := by
  obtain ⟨p,hq,ha⟩ := hw.records
  obtain ⟨name,hr,-,hlast⟩ := hq.returns (h := { h with naddrs := 0,nalias := 0,qid := word16 buf 0 })
  obtain ⟨h',hr',hf⟩ := ha.returns
    (h := { h with naddrs := 0,nalias := 0,qid := word16 buf 0,name := name })
    ((Nat.zero_add _).trans_le hw.aliases) ((Nat.zero_add _).trans_le hw.addrs)
  refine ⟨h',(returns_parseReply hlen).mpr ⟨_,by rwa [hw.qdcount],h',by rwa [hw.ancount],rfl⟩,?_⟩
  refine ⟨hf.qid,fun ls hls => ?_,hf.nalias.trans (Nat.zero_add _),fun i ls hls => ?_,
    hf.naddrs.trans (Nat.zero_add _),fun i a ha => ?_⟩
  · rw [hf.name]
    exact hlast ls hls
  · have hspells := hf.aliases i ls hls
    rwa [Nat.zero_add] at hspells
  · have haddr := hf.addrs i a ha
    rwa [Nat.zero_add] at haddr

/-- The name `a` is asked for. It stands for `b.a`, where a pointer follows the label; its address is 10.0.0.1, and
`b.a` points back to `a`, both by pointers to pointers. -/
def sampleReply : List UInt8 :=
  [0,7,0x81,0x80,0,1,0,3,0,0,0,0,1,97,0,0,1,0,1,0xc0,12,0,5,0,1,0,0,0,60,0,4,1,98,0xc0,12,
    0xc0,33,0,1,0,1,0,0,0,60,0,4,10,0,0,1,0xc0,31,0,12,0,1,0,0,0,60,0,2,0xc0,35]

theorem reply_decoded_sample :
    ∃ h', Returns (fun fuel => evdnsParseReply fuel sampleReply ⟨0,fun _ => 7,0,fun _ _ => 7,0,fun _ => 0⟩) (h',0) ∧
      Decoded sampleReply [[[97]]]
        [⟨[[97]],.cname [[98],[97]]⟩,⟨[[97]],.addr 10 0 0 1⟩,⟨[[98],[97]],.ptr [[97]]⟩] h' := by
  have hname : WireName sampleReply 12 [[97]] 15 :=
    .label (by decide) (by decide) rfl (by decide) rfl (.root rfl)
  have hpointer : WireName sampleReply 33 [[97]] 35 := .pointer rfl (by decide) rfl rfl (by decide) hname
  have htarget : WireName sampleReply 31 [[98],[97]] 35 :=
    .label (by decide) (by decide) rfl (by decide) rfl hpointer
  have hagain : WireName sampleReply 35 [[97]] 37 := .pointer rfl (by decide) rfl rfl (by decide) hpointer
  have howner : WireName sampleReply 51 [[98],[97]] 53 := .pointer rfl (by decide) rfl rfl (by decide) htarget
  refine reply_decoded ⟨by decide,rfl,rfl,⟨19,?_,?_⟩,by decide,by decide⟩ (by decide) _
  · exact .cons hname (by decide) (by decide) .nil
  · refine .cons (.pointer rfl (by decide) rfl rfl (by decide) hname) (by decide) (by decide) rfl
      (.cname htarget (by decide)) ?_
    refine .cons hagain (by decide) (by decide) rfl (.addr rfl rfl) ?_
    refine .cons howner (by decide) (by decide) rfl (.ptr ?_ (by decide)) .nil
    exact .pointer rfl (by decide) rfl rfl (by decide) hagain

/-- A header alone is a reply without records, which is refused. -/
theorem header_alone_refused :
    WireReply (List.replicate 12 0) [] [] ∧
      ∀ h fuel, evdnsParseReply fuel (List.replicate 12 0) h = .ok (h,-1) :=
  ⟨⟨by decide,rfl,rfl,⟨HFIXEDSZ,.nil,.nil⟩,by decide,by decide⟩,fun _ _ => rfl⟩

end Sbase
