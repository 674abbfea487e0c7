import Sbase.Dns.ExpandName

/-! The replies that `evdns_parse_reply` reads to the end, inside the buffer and the `HOSTENT`. -/
namespace Sbase

open Memory FuelLoop

/-- The 16-bit number at `p`. -/
def word16 (buf : List UInt8) (p : ℕ) : ℕ :=
  (buf.getD p 0).toNat <<< 8 ||| (buf.getD (p+1) 0).toNat

/-- The name at `p` is whole, has room in a string of the `HOSTENT`, and the record goes on at `e`. -/
def NameFits (buf : List UInt8) (p e : ℕ) : Prop := ∃ w, NameAt buf p w e ∧ w.length < DNS_NAME_MAX

/-- From `p` on there are `n` questions; the last one ends before `p'`. -/
inductive Questions (buf : List UInt8) : ℕ → ℕ → ℕ → Prop
  | nil {p} : Questions buf 0 p p
  | cons {n p e p'} : NameFits buf p e → e+QFIXEDSZ ≤ buf.length →
      Questions buf n (e+QFIXEDSZ) p' → Questions buf (n+1) p p'

/-- The data at `p` of an answer of type `type` is whole; there is room for it behind `i` aliases and `k`
addresses, and it adds `a` of the former and `d` of the latter. -/
inductive DataFits (buf : List UInt8) (type p i k : ℕ) : ℕ → ℕ → Prop
  | addr : type = TYPE_ANAME → p+4 ≤ buf.length → k < DNS_MAX_NUM → DataFits buf type p i k 0 1
  | name {e} : type = TYPE_CNAME ∨ type = TYPE_PTR → NameFits buf p e → i < DNS_MAX_NUM →
      DataFits buf type p i k 1 0
  | other : type ≠ TYPE_ANAME → type ≠ TYPE_CNAME → type ≠ TYPE_PTR → DataFits buf type p i k 0 0

/-- From `p` on there are `n` answers, with room behind `i` aliases and `k` addresses. -/
inductive Answers (buf : List UInt8) : ℕ → ℕ → ℕ → ℕ → Prop
  | nil {p i k} : Answers buf 0 p i k
  | cons {n p i k e a d} : NameFits buf p e → i < DNS_MAX_NUM → e+RRFIXEDSZ ≤ buf.length →
      DataFits buf (word16 buf e) (e+RRFIXEDSZ) (i+1) k a d →
      Answers buf n (e+RRFIXEDSZ+word16 buf (e+8)) (i+1+a) (k+d) → Answers buf (n+1) p i k

/-- The reply is too short to be looked at, or its records are whole and fit the `HOSTENT`. -/
def ReplyFits (buf : List UInt8) : Prop :=
  HFIXEDSZ < buf.length →
    ∃ p, Questions buf (word16 buf 4) HFIXEDSZ p ∧ Answers buf (word16 buf 6) p 0 0

section

variable {buf : List UInt8} {n p : ℕ} {h : HostEnt}

/-! ### The fixed parts -/

theorem fetch_eq_ok_iff {c : UInt8} : fetch buf p = .ok c ↔ p < buf.length ∧ c = buf.getD p 0 := by
  rw [fetch_eq_ok,List.getElem?_eq_some_iff]
  constructor
  · intro ⟨hlt,hc⟩
    exact ⟨hlt,by simp [List.getD,hlt,hc]⟩
  · intro ⟨hlt,hc⟩
    exact ⟨hlt,by simp [hc,List.getD,hlt]⟩

theorem dns16bit_eq_ok {v : ℕ} : dns16bit buf p = .ok v ↔ p+2 ≤ buf.length ∧ v = word16 buf p := by
  unfold dns16bit word16
  simp only [bind_eq_ok,fetch_eq_ok_iff]
  constructor
  · intro ⟨a,⟨_,ha⟩,b,⟨hb,hb'⟩,hv⟩
    subst ha
    subst hb'
    exact ⟨by omega,(Except.ok.inj hv).symm⟩
  · intro ⟨hp,hv⟩
    exact ⟨_,⟨by omega,rfl⟩,_,⟨by omega,rfl⟩,hv ▸ rfl⟩

theorem dns32bit_eq_ok : (∃ v, dns32bit buf p = .ok v) ↔ p+4 ≤ buf.length := by
  unfold dns32bit
  simp only [bind_eq_ok,dns16bit_eq_ok]
  constructor
  · intro ⟨_,_,_,_,⟨hp,_⟩,_⟩
    omega
  · intro hp
    exact ⟨_,_,⟨by omega,rfl⟩,_,⟨by omega,rfl⟩,rfl⟩

theorem loadInt_eq_ok : (∃ v, loadInt buf p = .ok v) ↔ p+4 ≤ buf.length := by
  unfold loadInt
  simp only [bind_eq_ok,fetch_eq_ok_iff]
  constructor
  · intro ⟨_,_,_,_,_,_,_,_,⟨hp,_⟩,_⟩
    omega
  · intro hp
    exact ⟨_,_,⟨by omega,rfl⟩,_,⟨by omega,rfl⟩,_,⟨by omega,rfl⟩,_,⟨by omega,rfl⟩,rfl⟩

theorem dnsHeader_eq_ok (hlen : HFIXEDSZ < buf.length) : ∃ header, dnsHeader buf = .ok header ∧
    header.qid = word16 buf 0 ∧ header.qdcount = word16 buf 4 ∧ header.ancount = word16 buf 6 := by
  unfold HFIXEDSZ at hlen
  have hword (p : ℕ) (hp : p ≤ 10) : dns16bit buf p = .ok (word16 buf p) :=
    dns16bit_eq_ok.mpr ⟨by omega,rfl⟩
  have hbyte (p : ℕ) (hp : p ≤ 10) : fetch buf p = .ok (buf.getD p 0) :=
    fetch_eq_ok_iff.mpr ⟨by omega,rfl⟩
  unfold dnsHeader
  rw [hword 0 (by omega),hbyte 2 (by omega),hbyte 3 (by omega),hword 4 (by omega),hword 6 (by omega),
    hword 8 (by omega),hword 10 (by omega)]
  exact ⟨_,rfl,rfl,rfl,rfl⟩

/-! ### The questions -/

theorem stable_parseQuestions : Stable fun fuel => parseQuestions fuel buf n p h := by
  induction n generalizing p h with
  | zero => exact .const _
  | succ n ih =>
    exact stable_expandName.bind fun x => (Stable.const _).bind fun _ => (Stable.const _).bind fun _ => ih

theorem returns_parseQuestions_succ {r : ℕ × HostEnt} :
    Returns (fun fuel => parseQuestions fuel buf (n+1) p h) r ↔
      ∃ w e, NameAt buf p w e ∧ w.length < DNS_NAME_MAX ∧ e+QFIXEDSZ ≤ buf.length ∧
        Returns (fun fuel => parseQuestions fuel buf n (e+QFIXEDSZ)
          { h with name := closeName h.name w }) r := by
  refine (returns_bind (g := fun fuel x => do
    let _ ← dns16bit buf x.1
    let _ ← dns16bit buf (x.1+2)
    parseQuestions fuel buf n (x.1+QFIXEDSZ) { h with name := x.2 }) stable_expandName fun _ =>
      (Stable.const _).bind fun _ => (Stable.const _).bind fun _ => stable_parseQuestions).trans ?_
  simp only [returns_expandName,returns_const_bind,dns16bit_eq_ok]
  constructor
  · intro ⟨x,⟨w,e,hw,hroom,hx⟩,_,_,_,⟨hp,_⟩,hr⟩
    subst hx
    exact ⟨w,e,hw,hroom,hp,hr⟩
  · intro ⟨w,e,hw,hroom,hp,hr⟩
    have hp' : e+4 ≤ buf.length := hp
    exact ⟨_,⟨w,e,hw,hroom,rfl⟩,_,⟨by omega,rfl⟩,_,⟨hp,rfl⟩,hr⟩

/-- The questions are read exactly when they are there, and they fill nothing but the name. -/
theorem questions_of_returns {p' : ℕ} {h' : HostEnt}
    (hr : Returns (fun fuel => parseQuestions fuel buf n p h) (p',h')) :
    Questions buf n p p' ∧ h'.nalias = h.nalias ∧ h'.naddrs = h.naddrs := by
  induction n generalizing p h with
  | zero =>
    cases returns_const.mp hr
    exact ⟨.nil,rfl,rfl⟩
  | succ n ih =>
    obtain ⟨w,e,hw,hroom,hp,hr⟩ := returns_parseQuestions_succ.mp hr
    obtain ⟨hq,hn,hd⟩ := ih hr
    exact ⟨.cons ⟨w,hw,hroom⟩ hp hq,hn,hd⟩

theorem Questions.returns {p' : ℕ} (hq : Questions buf n p p') :
    ∃ h', Returns (fun fuel => parseQuestions fuel buf n p h) (p',h') := by
  induction hq generalizing h with
  | nil => exact ⟨h,returns_const.mpr rfl⟩
  | cons hname hp _ ih =>
    obtain ⟨w,hw,hroom⟩ := hname
    obtain ⟨h',hr⟩ := ih
    exact ⟨h',returns_parseQuestions_succ.mpr ⟨w,_,hw,hroom,hp,hr⟩⟩

/-! ### The answers -/

theorem stable_expandAlias : Stable fun fuel => expandAlias fuel buf p h :=
  stable_expandName.bind fun _ => .const _

theorem length_lt_aliasRoom {i m : ℕ} : m < aliasRoom i ↔ m < DNS_NAME_MAX ∧ i < DNS_MAX_NUM := by
  unfold aliasRoom
  by_cases hi : i < DNS_MAX_NUM
  · simp [hi]
  · simp [hi]

theorem returns_expandAlias {r : ℕ × HostEnt} :
    Returns (fun fuel => expandAlias fuel buf p h) r ↔
      ∃ w e, NameAt buf p w e ∧ w.length < DNS_NAME_MAX ∧ h.nalias < DNS_MAX_NUM ∧
        r = (e,{ h with
          nalias := h.nalias+1
          aliases := Function.update h.aliases h.nalias (closeName (h.aliases h.nalias) w) }) := by
  refine (returns_bind_const (g := fun x => .ok (x.1,{ h with
    nalias := h.nalias+1
    aliases := Function.update h.aliases h.nalias x.2 })) stable_expandName).trans ?_
  simp only [returns_expandName,length_lt_aliasRoom]
  constructor
  · intro ⟨x,⟨w,e,hw,⟨hroom,hi⟩,hx⟩,hr⟩
    subst hx
    exact ⟨w,e,hw,hroom,hi,(Except.ok.inj hr).symm⟩
  · intro ⟨w,e,hw,hroom,hi,hr⟩
    exact ⟨_,⟨w,e,hw,⟨hroom,hi⟩,rfl⟩,hr ▸ rfl⟩

theorem stable_parseData {type : ℕ} : Stable fun fuel => parseData fuel buf type p h := by
  by_cases h1 : type = TYPE_ANAME
  · simp only [parseData,if_pos h1]
    exact .const _
  · by_cases h2 : type = TYPE_CNAME
    · simp only [parseData,if_neg h1,if_pos h2]
      exact stable_expandAlias.bind fun _ => .const _
    · by_cases h3 : type = TYPE_PTR
      · simp only [parseData,if_neg h1,if_neg h2,if_pos h3]
        exact stable_expandAlias.bind fun _ => .const _
      · simp only [parseData,if_neg h1,if_neg h2,if_neg h3]
        exact .const _

/-- The answers that name another host are handled alike. -/
theorem parseData_name {type fuel : ℕ} (ht : type = TYPE_CNAME ∨ type = TYPE_PTR) :
    parseData fuel buf type p h = expandAlias fuel buf p h >>= fun x => .ok x.2 := by
  cases ht with
  | inl ht => rw [ht]; rfl
  | inr ht => rw [ht]; rfl

theorem returns_parseData {type : ℕ} {h' : HostEnt} :
    Returns (fun fuel => parseData fuel buf type p h) h' →
      DataFits buf type p h.nalias h.naddrs (h'.nalias-h.nalias) (h'.naddrs-h.naddrs) ∧
      h.nalias ≤ h'.nalias ∧ h.naddrs ≤ h'.naddrs := by
  intro hr
  by_cases h1 : type = TYPE_ANAME
  · simp only [parseData,if_pos h1,returns_const,bind_eq_ok] at hr
    obtain ⟨v,hv,hr⟩ := hr
    split_ifs at hr with hk
    cases hr
    simpa using DataFits.addr h1 (loadInt_eq_ok.mp ⟨v,hv⟩) hk
  · by_cases h2 : type = TYPE_CNAME ∨ type = TYPE_PTR
    · simp only [parseData_name h2] at hr
      rw [returns_bind_const stable_expandAlias] at hr
      obtain ⟨x,hx,hr⟩ := hr
      obtain ⟨w,e,hw,hroom,hi,hx⟩ := returns_expandAlias.mp hx
      subst hx
      cases hr
      simpa using DataFits.name h2 ⟨w,hw,hroom⟩ hi
    · push Not at h2
      simp only [parseData,if_neg h1,if_neg h2.1,if_neg h2.2,returns_const] at hr
      cases hr
      simpa using DataFits.other h1 h2.1 h2.2

theorem DataFits.returns {type a d : ℕ} (hd : DataFits buf type p h.nalias h.naddrs a d) :
    ∃ h', Returns (fun fuel => parseData fuel buf type p h) h' ∧
      h'.nalias = h.nalias+a ∧ h'.naddrs = h.naddrs+d := by
  cases hd with
  | addr h1 hp hk =>
    obtain ⟨v,hv⟩ := loadInt_eq_ok.mpr hp
    simp only [parseData,if_pos h1,returns_const,hv]
    exact ⟨_,if_pos hk,rfl,rfl⟩
  | name h2 hname hi =>
    obtain ⟨w,hw,hroom⟩ := hname
    simp only [parseData_name h2]
    exact ⟨_,(returns_bind_const stable_expandAlias).mpr
      ⟨_,returns_expandAlias.mpr ⟨w,_,hw,hroom,hi,rfl⟩,rfl⟩,rfl,rfl⟩
  | other h1 h2 h3 =>
    simp only [parseData,if_neg h1,if_neg h2,if_neg h3,returns_const]
    exact ⟨h,rfl,rfl,rfl⟩

theorem stable_parseAnswers : Stable fun fuel => parseAnswers fuel buf n p h := by
  induction n generalizing p h with
  | zero => exact .const _
  | succ n ih =>
    exact stable_expandAlias.bind fun _ => (Stable.const _).bind fun _ => (Stable.const _).bind fun _ =>
      (Stable.const _).bind fun _ => (Stable.const _).bind fun _ => stable_parseData.bind fun _ => ih

/-- The part of an answer behind its name. -/
theorem returns_parseAnswers_succ {r : HostEnt} :
    Returns (fun fuel => parseAnswers fuel buf (n+1) p h) r ↔
      ∃ x, Returns (fun fuel => expandAlias fuel buf p h) x ∧ x.1+RRFIXEDSZ ≤ buf.length ∧
        ∃ h', Returns (fun fuel => parseData fuel buf (word16 buf x.1) (x.1+RRFIXEDSZ) x.2) h' ∧
          Returns (fun fuel => parseAnswers fuel buf n (x.1+RRFIXEDSZ+word16 buf (x.1+8)) h') r := by
  have hcont (x : ℕ × HostEnt) (type rrlen : ℕ) : Stable fun fuel => (do
      let h ← parseData fuel buf type (x.1+RRFIXEDSZ) x.2
      parseAnswers fuel buf n (x.1+RRFIXEDSZ+rrlen) h) :=
    stable_parseData.bind fun _ => stable_parseAnswers
  refine (returns_bind (g := fun fuel x => do
    let type ← dns16bit buf x.1
    let _ ← dns16bit buf (x.1+2)
    let _ ← dns32bit buf (x.1+4)
    let rrlen ← dns16bit buf (x.1+8)
    let h ← parseData fuel buf type (x.1+RRFIXEDSZ) x.2
    parseAnswers fuel buf n (x.1+RRFIXEDSZ+rrlen) h) stable_expandAlias fun x =>
      (Stable.const _).bind fun _ => (Stable.const _).bind fun _ => (Stable.const _).bind fun _ =>
        (Stable.const _).bind fun _ => hcont x _ _).trans ?_
  simp only [returns_const_bind,dns16bit_eq_ok]
  apply exists_congr
  intro x
  apply and_congr_right
  intro _
  constructor
  · intro ⟨_,⟨_,ht⟩,_,_,_,_,_,⟨hp,hl⟩,hr⟩
    subst ht
    subst hl
    exact ⟨hp,(returns_bind stable_parseData fun _ => stable_parseAnswers).mp hr⟩
  · intro ⟨hp,hr⟩
    have hp' : x.1+10 ≤ buf.length := hp
    obtain ⟨v,hv⟩ := dns32bit_eq_ok.mpr (show x.1+4+4 ≤ buf.length by omega)
    exact ⟨_,⟨by omega,rfl⟩,_,⟨by omega,rfl⟩,v,hv,_,⟨hp,rfl⟩,
      (returns_bind stable_parseData fun _ => stable_parseAnswers).mpr hr⟩

theorem answers_of_returns {h' : HostEnt}
    (hr : Returns (fun fuel => parseAnswers fuel buf n p h) h') :
    Answers buf n p h.nalias h.naddrs := by
  induction n generalizing p h with
  | zero => exact .nil
  | succ n ih =>
    obtain ⟨x,hx,hp,g,hg,hr⟩ := returns_parseAnswers_succ.mp hr
    obtain ⟨w,e,hw,hroom,hi,hx⟩ := returns_expandAlias.mp hx
    subst hx
    obtain ⟨hd,ha,hk⟩ := returns_parseData hg
    have hrest := ih hr
    refine .cons ⟨w,hw,hroom⟩ hi hp hd ?_
    rwa [Nat.add_sub_cancel' ha,Nat.add_sub_cancel' hk]

theorem Answers.returns {i k : ℕ} (ha : Answers buf n p i k) (hi : h.nalias = i) (hk : h.naddrs = k) :
    ∃ h', Returns (fun fuel => parseAnswers fuel buf n p h) h' := by
  induction ha generalizing h with
  | nil => exact ⟨h,returns_const.mpr rfl⟩
  | @cons n p i k e a d hname hlt hp hd _ ih =>
    obtain ⟨w,hw,hroom⟩ := hname
    subst hi
    subst hk
    have hx := returns_expandAlias (h := h).mpr ⟨w,e,hw,hroom,hlt,rfl⟩
    obtain ⟨g,hg,hga,hgd⟩ := hd.returns (h := { h with
      nalias := h.nalias+1
      aliases := Function.update h.aliases h.nalias (closeName (h.aliases h.nalias) w) })
    obtain ⟨h',hr⟩ := ih hga hgd
    exact ⟨h',returns_parseAnswers_succ.mpr ⟨_,hx,hp,g,hg,hr⟩⟩

/-! ### The reply -/

/-- A reply that is looked at is read when its questions and its answers are. -/
theorem returns_parseReply (hlen : HFIXEDSZ < buf.length) {r : HostEnt × ℤ} :
    Returns (fun fuel => evdnsParseReply fuel buf h) r ↔
      ∃ x, Returns (fun fuel => parseQuestions fuel buf (word16 buf 4) HFIXEDSZ
          { h with naddrs := 0,nalias := 0,qid := word16 buf 0 }) x ∧
        ∃ h', Returns (fun fuel => parseAnswers fuel buf (word16 buf 6) x.1 x.2) h' ∧ r = (h',0) := by
  obtain ⟨header,hheader,hqid,hqd,han⟩ := dnsHeader_eq_ok hlen
  simp only [evdnsParseReply,if_pos hlen,← hqid,← hqd,← han]
  rw [returns_const_bind]
  simp only [hheader,Except.ok.injEq,exists_eq_left']
  refine (returns_bind (g := fun fuel x => do
    let h ← parseAnswers fuel buf header.ancount x.1 x.2
    .ok (h,(0 : ℤ))) stable_parseQuestions fun _ => stable_parseAnswers.bind_const _).trans ?_
  apply exists_congr
  intro x
  apply and_congr_right
  intro _
  rw [returns_bind_const stable_parseAnswers]
  apply exists_congr
  intro h'
  rw [Except.ok.injEq,eq_comm]

/-- The parser ends and stays inside the reply and the `HOSTENT` exactly on the replies that fit. -/
theorem reply_in_bounds_iff (buf : List UInt8) (h : HostEnt) :
    (∃ r, Returns (fun fuel => evdnsParseReply fuel buf h) r) ↔ ReplyFits buf := by
  by_cases hlen : HFIXEDSZ < buf.length
  · simp only [returns_parseReply hlen,ReplyFits,hlen,forall_const]
    constructor
    · intro ⟨_,⟨p,g⟩,hq,h',ha,_⟩
      obtain ⟨hq,hi,hk⟩ := questions_of_returns hq
      refine ⟨p,hq,?_⟩
      have ha := answers_of_returns ha
      rwa [hi,hk] at ha
    · intro ⟨p,hq,ha⟩
      obtain ⟨g,hg⟩ := hq.returns (h := { h with naddrs := 0,nalias := 0,qid := word16 buf 0 })
      obtain ⟨_,hi,hk⟩ := questions_of_returns hg
      obtain ⟨h',hr⟩ := ha.returns hi hk
      exact ⟨_,_,hg,h',hr,rfl⟩
  · simp only [evdnsParseReply,gt_iff_lt,hlen,if_false,returns_const,ReplyFits,false_imp_iff,iff_true]
    exact ⟨_,rfl⟩

/-- A pointer to itself is no name. -/
theorem not_nameAt_of_pointer_self {c d : UInt8} (hc : buf[p]? = some c) (hmask : OFF_MASK ≤ c)
    (hd : buf[p+1]? = some d) (hself : pointerOffset c d = p) (w : List UInt8) (e : ℕ) :
    ¬ NameAt buf p w e := by
  intro hname
  induction hname with
  | zero h0 =>
    rw [hc] at h0
    exact OFF_MASK_ne_zero hmask (Option.some.inj h0)
  | past hlen =>
    rw [List.getElem?_eq_none hlen] at hc
    cases hc
  | label hc' _ hmask' _ _ _ =>
    rw [hc] at hc'
    cases hc'
    exact hmask' hmask
  | pointer hc' _ hd' _ ih =>
    rw [hc] at hc'
    rw [hd] at hd'
    cases hc'
    cases hd'
    rw [hself] at ih
    exact ih hc hd rfl

/-- One question, whose name is a pointer to itself. -/
def loopingReply : List UInt8 := [0,1,0,0,0,1,0,0,0,0,0,0,0xc0,12,0,1,0,1]

/-- The parser follows the pointer forever, whatever was in the `HOSTENT`. -/
theorem reply_pointer_loop :
    ¬ ∃ (h : HostEnt) (r : _), Returns (fun fuel => evdnsParseReply fuel loopingReply h) r := by
  intro ⟨h,r,hr⟩
  obtain ⟨x,hx,_⟩ := (returns_parseReply (by decide)).mp hr
  obtain ⟨w,e,hw,_⟩ := returns_parseQuestions_succ.mp (show Returns (fun fuel =>
    parseQuestions fuel loopingReply (0+1) HFIXEDSZ _) x from hx)
  exact not_nameAt_of_pointer_self (c := 0xc0) (d := 12) rfl (by decide) rfl rfl w e hw

end

end Sbase
