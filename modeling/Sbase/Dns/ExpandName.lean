import Sbase.Dns.Evdns

/-! What `evdns_expand_name` returns: the grammar of the names in a message, and the loop as a reading of
it. -/
namespace Sbase

open Memory FuelLoop

/-- The name at `p` spells `w`, where each label has a dot behind it, and the record goes on at `e`. -/
inductive NameAt (buf : List UInt8) : ℕ → List UInt8 → ℕ → Prop
  | zero {p} : buf[p]? = some 0 → NameAt buf p [] (p+1)
  | past {p} : buf.length ≤ p → NameAt buf p [] (p+1)
  | label {p c w e} : buf[p]? = some c → c ≠ 0 → ¬ OFF_MASK ≤ c → p+1+c.toNat ≤ buf.length →
      NameAt buf (p+1+c.toNat) w e → NameAt buf p ((buf.drop (p+1)).take c.toNat ++ 46::w) e
  | pointer {p c d w e} : buf[p]? = some c → OFF_MASK ≤ c → buf[p+1]? = some d →
      NameAt buf (pointerOffset c d) w e → NameAt buf p w (p+2)

section

variable {buf : List UInt8} {room p n : ℕ} {w : List UInt8} {e : ℕ} {s s' : Expand}

theorem length_slice (h : p+n ≤ buf.length) : ((buf.drop p).take n).length = n := by
  simp only [List.length_take,List.length_drop]
  omega

theorem fetch_eq_ok {c : UInt8} : fetch buf p = .ok c ↔ buf[p]? = some c := by
  unfold fetch
  cases buf[p]? with
  | none => simp
  | some d => simp

theorem put_eq_ok {name name' : Block UInt8} {q : ℕ} {c : UInt8} :
    put room name q c = .ok name' ↔ q < room ∧ name' = Function.update name q c := by
  unfold put
  by_cases h : q < room
  · simp [h,eq_comm]
  · simp [h]

/-- The loop over a label goes through when its bytes lie in the message and in the name. -/
theorem copyLabel_eq_ok (hp : s.p ≤ buf.length) (hq : s.q ≤ room) :
    copyLabel buf room n s = .ok s' ↔ s.p+n ≤ buf.length ∧ s.q+n ≤ room ∧
      s' = { s with p := s.p+n,q := s.q+n,name := write s.name s.q ((buf.drop s.p).take n) } := by
  induction n generalizing s with
  | zero => simp [copyLabel,hp,hq,eq_comm]
  | succ n ih =>
    rw [copyLabel,bind_eq_ok]
    simp only [bind_eq_ok,fetch_eq_ok,put_eq_ok]
    by_cases hlt : s.p < buf.length
    · by_cases hroom : s.q < room
      · have hdrop : (buf.drop s.p).take (n+1) = buf[s.p]::(buf.drop (s.p+1)).take n := by
          rw [List.drop_eq_getElem_cons hlt,List.take_succ_cons]
        rw [hdrop,write_cons]
        have hnext := ih (s := ⟨s.p+1,s.q+1,s.ret,Function.update s.name s.q buf[s.p]⟩) hlt hroom
        rw [List.getElem?_eq_getElem hlt]
        simp only [Option.some.injEq,exists_eq_left',hroom,true_and,exists_eq_left]
        rw [hnext]
        simp only [Nat.add_assoc,Nat.add_comm 1 n]
      · constructor
        · intro ⟨_,_,_,h,_⟩
          exact absurd h.1 hroom
        · intro ⟨_,h,_⟩
          omega
    · constructor
      · intro ⟨c,hc,_⟩
        rw [List.getElem?_eq_none (by omega)] at hc
        cases hc
      · intro ⟨h,_⟩
        omega

/-! ### One round of the loop -/

theorem expandBody_past (h : buf.length ≤ s.p) : expandBody buf room s = .ok (.inr s) := by
  simp [expandBody,h]

theorem expandBody_zero (h : buf[s.p]? = some 0) : expandBody buf room s = .ok (.inr s) := by
  simp [expandBody,h]

theorem OFF_MASK_ne_zero {c : UInt8} (h : OFF_MASK ≤ c) : c ≠ 0 := by
  intro hc
  rw [hc] at h
  exact absurd h (by decide)

theorem expandBody_pointer {c : UInt8} (hc : buf[s.p]? = some c) (hmask : OFF_MASK ≤ c)
    {x : Expand ⊕ Expand} : expandBody buf room s = .ok x ↔ ∃ d, buf[s.p+1]? = some d ∧
      x = .inl { s with ret := s.ret <|> some (s.p+2),p := pointerOffset c d } := by
  simp only [expandBody,hc,if_neg (OFF_MASK_ne_zero hmask),if_pos hmask]
  rw [bind_eq_ok]
  simp only [fetch_eq_ok,Except.ok.injEq,eq_comm (b := x)]

/-- The locals behind a label `l`, which was written with its dot. -/
def Expand.pastLabel (s : Expand) (l : List UInt8) : Expand :=
  { s with p := s.p+1+l.length,q := s.q+(l.length+1),name := write s.name s.q (l ++ [46]) }

theorem expandBody_label {c : UInt8} (hc : buf[s.p]? = some c) (h0 : c ≠ 0) (hmask : ¬ OFF_MASK ≤ c)
    (hq : s.q ≤ room) {x : Expand ⊕ Expand} : expandBody buf room s = .ok x ↔
      s.p+1+c.toNat ≤ buf.length ∧ s.q+(c.toNat+1) ≤ room ∧
      x = .inl (s.pastLabel ((buf.drop (s.p+1)).take c.toNat)) := by
  obtain ⟨hlt,_⟩ := List.getElem?_eq_some_iff.mp hc
  have hcopy (t : Expand) : copyLabel buf room c.toNat { s with p := s.p+1 } = .ok t ↔ _ :=
    copyLabel_eq_ok hlt hq
  have hpast (hlen : s.p+1+c.toNat ≤ buf.length) :
      s.pastLabel ((buf.drop (s.p+1)).take c.toNat) = { s with
        p := s.p+1+c.toNat
        q := s.q+c.toNat+1
        name := Function.update (write s.name s.q ((buf.drop (s.p+1)).take c.toNat)) (s.q+c.toNat) 46 } := by
    rw [Expand.pastLabel,← write_write_append,length_slice hlen,write_singleton,Nat.add_assoc s.q]
  simp only [expandBody,hc,if_neg h0,if_neg hmask]
  rw [bind_eq_ok]
  simp only [bind_eq_ok,put_eq_ok,hcopy]
  constructor
  · intro ⟨_,⟨hlen,_,ht⟩,_,⟨hroom,hname⟩,hx⟩
    subst ht
    subst hname
    cases hx
    exact ⟨hlen,hroom,congrArg Sum.inl (hpast hlen).symm⟩
  · intro ⟨hlen,hroom,hx⟩
    rw [hx,hpast hlen]
    exact ⟨_,⟨hlen,by omega,rfl⟩,_,⟨hroom,rfl⟩,rfl⟩

/-! ### The loop -/

/-- From `s` the loop has written `w` and would return `e`. -/
structure Spelled (s s' : Expand) (w : List UInt8) (e : ℕ) : Prop where
  q : s'.q = s.q+w.length
  name : s'.name = write s.name s.q w
  ret : s'.ret.getD (s'.p+1) = s.ret.getD e

theorem Spelled.refl (s : Expand) : Spelled s s [] (s.p+1) :=
  ⟨rfl,(write_nil _ _).symm,rfl⟩

theorem Spelled.label {l : List UInt8} (h : Spelled (s.pastLabel l) s' w e) :
    Spelled s s' (l ++ 46::w) e := by
  constructor
  · rw [h.q,Expand.pastLabel,List.length_append,List.length_cons]
    simp only
    omega
  · have hsplit : l ++ 46::w = (l ++ [46]) ++ w := by simp
    have hlen : s.q+(l.length+1) = s.q+(l ++ [46]).length := by simp
    rw [hsplit,← write_write_append,← hlen]
    exact h.name
  · exact h.ret

theorem Spelled.pointer {o : ℕ}
    (h : Spelled { s with ret := s.ret <|> some (s.p+2),p := o } s' w e) :
    Spelled s s' w (s.p+2) := by
  refine ⟨h.q,h.name,h.ret.trans ?_⟩
  cases s.ret <;> rfl

/-- Where the loop leaves, it has read a name. -/
theorem nameAt_of_halts (h : Halts (expandBody buf room) s s') (hq : s.q ≤ room) :
    ∃ w e, NameAt buf s.p w e ∧ s.q+w.length ≤ room ∧ Spelled s s' w e := by
  induction h with
  | @leave s r hb =>
    cases hc : buf[s.p]? with
    | none =>
      have hlen := List.getElem?_eq_none_iff.mp hc
      cases (expandBody_past hlen).symm.trans hb
      exact ⟨[],s.p+1,.past hlen,hq,.refl s⟩
    | some c =>
      by_cases h0 : c = 0
      · subst h0
        cases (expandBody_zero hc).symm.trans hb
        exact ⟨[],s.p+1,.zero hc,hq,.refl s⟩
      · by_cases hmask : OFF_MASK ≤ c
        · obtain ⟨d,_,hx⟩ := (expandBody_pointer hc hmask).mp hb
          cases hx
        · obtain ⟨_,_,hx⟩ := (expandBody_label hc h0 hmask hq).mp hb
          cases hx
  | @next s t r hb _ ih =>
    cases hc : buf[s.p]? with
    | none => cases (expandBody_past (List.getElem?_eq_none_iff.mp hc)).symm.trans hb
    | some c =>
      by_cases h0 : c = 0
      · subst h0
        cases (expandBody_zero hc).symm.trans hb
      · by_cases hmask : OFF_MASK ≤ c
        · obtain ⟨d,hd,hx⟩ := (expandBody_pointer hc hmask).mp hb
          cases hx
          obtain ⟨w,e,hw,hroom,hs⟩ := ih hq
          exact ⟨w,s.p+2,.pointer hc hmask hd hw,hroom,hs.pointer⟩
        · obtain ⟨hlen,hroom,hx⟩ := (expandBody_label hc h0 hmask hq).mp hb
          cases hx
          have hl := length_slice hlen
          obtain ⟨w,e,hw,hr,hs⟩ := ih (by simpa only [Expand.pastLabel,hl] using hroom)
          simp only [Expand.pastLabel,hl] at hw hr
          refine ⟨_,e,.label hc h0 hmask hlen hw,?_,hs.label⟩
          rw [List.length_append,List.length_cons,hl]
          omega

/-- A name that fits is read to its end. -/
theorem NameAt.halts (h : NameAt buf p w e) (q : ℕ) (ret : Option ℕ) (name : Block UInt8)
    (hroom : q+w.length ≤ room) :
    ∃ s', Halts (expandBody buf room) ⟨p,q,ret,name⟩ s' ∧ Spelled ⟨p,q,ret,name⟩ s' w e := by
  induction h generalizing q ret name with
  | zero h0 => exact ⟨_,.leave (expandBody_zero h0),.refl _⟩
  | past hlen => exact ⟨_,.leave (expandBody_past hlen),.refl _⟩
  | @label p c w e hc h0 hmask hlen _ ih =>
    have hl := length_slice hlen
    rw [List.length_append,List.length_cons,hl] at hroom
    have hb := (expandBody_label (s := ⟨p,q,ret,name⟩) hc h0 hmask (show q ≤ room by omega)).mpr
      ⟨hlen,show q+(c.toNat+1) ≤ room by omega,rfl⟩
    obtain ⟨s',hs',hs⟩ := ih (q+(c.toNat+1)) ret
      (write name q ((buf.drop (p+1)).take c.toNat ++ [46])) (by omega)
    have hpast : Expand.pastLabel ⟨p,q,ret,name⟩ ((buf.drop (p+1)).take c.toNat) =
        ⟨p+1+c.toNat,q+(c.toNat+1),ret,write name q ((buf.drop (p+1)).take c.toNat ++ [46])⟩ := by
      rw [Expand.pastLabel,hl]
    rw [← hpast] at hs' hs
    exact ⟨s',.next hb hs',hs.label⟩
  | @pointer p c d w e hc hmask hd _ ih =>
    have hb : expandBody buf room ⟨p,q,ret,name⟩ = .ok _ :=
      (expandBody_pointer hc hmask).mpr ⟨d,hd,rfl⟩
    obtain ⟨s',hs',hs⟩ := ih q (ret <|> some (p+2)) name hroom
    exact ⟨s',.next hb hs',Spelled.pointer (s := ⟨p,q,ret,name⟩) hs⟩

/-- The string that is left of a name: the zero overwrites its last dot. -/
def closeName (name : Block UInt8) (w : List UInt8) : Block UInt8 :=
  let name := write name 0 (w ++ [0])
  if 0 < w.length ∧ name (w.length-1) = 46 then Function.update name (w.length-1) 0 else name

/-- What stands behind the loop. -/
theorem Spelled.closed {name name' : Block UInt8} (h : Spelled ⟨p,0,none,name⟩ s w e)
    (hname : name' = Function.update s.name s.q 0) :
    (if 0 < s.q ∧ name' (s.q-1) = 46 then
      (return (s.ret.getD (s.p+1),Function.update name' (s.q-1) 0) : Except DnsFault (ℕ × Block UInt8))
    else return (s.ret.getD (s.p+1),name')) = .ok (e,closeName name w) := by
  have hlen : s.q = w.length := h.q.trans (Nat.zero_add _)
  have hret : s.ret.getD (s.p+1) = e := h.ret
  have hwrite : name' = write name 0 (w ++ [0]) := by
    rw [← write_write_append,write_singleton,hname,h.name,Nat.zero_add,hlen]
  rw [hret,hwrite,hlen,closeName]
  split_ifs <;> rfl

/-- The function returns on the names that fit into their string with a zero behind them. -/
theorem returns_expandName {name : Block UInt8} {r : ℕ × Block UInt8} :
    Returns (fun fuel => evdnsExpandName fuel buf room p name) r ↔
      ∃ w e, NameAt buf p w e ∧ w.length < room ∧ r = (e,closeName name w) := by
  refine (returns_bind_const stable_run).trans ?_
  simp only [returns_run,bind_eq_ok,put_eq_ok]
  constructor
  · intro ⟨s,hs,name',⟨hq,hname⟩,hr⟩
    obtain ⟨w,e,hw,_,hsp⟩ := nameAt_of_halts hs (Nat.zero_le _)
    have hlen : s.q = w.length := hsp.q.trans (Nat.zero_add _)
    refine ⟨w,e,hw,hlen ▸ hq,?_⟩
    rw [hsp.closed hname] at hr
    exact (Except.ok.inj hr).symm
  · intro ⟨w,e,hw,hroom,hr⟩
    obtain ⟨s,hs,hsp⟩ := hw.halts 0 none name (show 0+w.length ≤ room by omega)
    have hlen : s.q = w.length := hsp.q.trans (Nat.zero_add _)
    refine ⟨s,hs,_,⟨hlen ▸ hroom,rfl⟩,?_⟩
    rw [hsp.closed rfl,hr]

theorem stable_expandName {name : Block UInt8} :
    Stable fun fuel => evdnsExpandName fuel buf room p name :=
  stable_run.bind fun _ => .const _

end

end Sbase
