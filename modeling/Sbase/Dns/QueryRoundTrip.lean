import Mathlib.Data.List.TakeWhile
import Sbase.Dns.ReplyBounds

/-! What `evdns_make_query` writes for a domain name, and that `evdns_parse_reply` reads the name back. -/
namespace Sbase

open Memory FuelLoop

/-- The labels of a domain name; only the root, which has none, needs its dot. -/
structure DomainName where
  labels : List (List UInt8)
  dot : Bool
  length : ∀ l ∈ labels, 0 < l.length ∧ l.length ≤ 63
  plain : ∀ l ∈ labels, 46 ∉ l ∧ 92 ∉ l ∧ 0 ∉ l
  root : labels = [] → dot = true

namespace DomainName

/-- The name without its trailing dot. -/
def bare (d : DomainName) : List UInt8 := [46].intercalate d.labels

/-- The name as it is written in `domain`. -/
def text (d : DomainName) : List UInt8 := d.bare ++ if d.dot then [46] else []

/-- Each label behind its length. -/
def labelBytes (ls : List (List UInt8)) : List UInt8 :=
  ls.flatMap fun l => UInt8.ofNat l.length::l

/-- The name in a message: the labels and the root. -/
def encoding (d : DomainName) : List UInt8 := labelBytes d.labels ++ [0]

end DomainName

open DomainName

section

variable {b buf : Block UInt8} {l rest : List UInt8} {ls : List (List UInt8)} {p q len : ℕ}

/-! ### Writing in order -/

theorem update_write_cons (b : Block UInt8) (q : ℕ) (x : UInt8) (xs : List UInt8) :
    Function.update (write b (q+1) xs) q x = write b q (x::xs) := by
  rw [write_cons]
  funext i
  by_cases hi : i = q
  · subst hi
    rw [Function.update_self,write_apply_of_not_mem _ _ _ _ (Or.inl (Nat.lt_succ_self i)),
      Function.update_self]
  · rw [Function.update_of_ne hi]
    unfold write
    split_ifs
    · rw [Function.update_of_ne hi]
    · rw [Function.update_of_ne hi]

theorem update_write (b : Block UInt8) (q : ℕ) (xs : List UInt8) {i : ℕ} (hi : i < xs.length)
    (x : UInt8) : Function.update (write b q xs) (q+i) x = write b q (xs.set i x) := by
  funext j
  by_cases hj : j = q+i
  · subst hj
    simp [write,hi]
  · rw [Function.update_of_ne hj]
    unfold write
    split_ifs
    · rw [List.getElem?_set_ne (by omega)]
    · rfl

/-- A write over the end of another one. -/
theorem write_write_over (b : Block UInt8) (q : ℕ) (xs ys zs : List UInt8)
    (h : ys.length ≤ zs.length) :
    write (write b q (xs ++ ys)) (q+xs.length) zs = write b q (xs ++ zs) := by
  rw [← write_write_append,← write_write_append]
  funext i
  generalize write b q xs = c
  unfold write
  split_ifs with hi
  · by_cases hz : i-(q+xs.length) < zs.length
    · simp [hz]
    · rw [List.getElem?_eq_none (not_lt.mp hz),List.getElem?_eq_none (by omega)]
      rfl
  · rfl

theorem dnsSet16bit_eq (b : Block UInt8) (p : ℕ) (v : ℤ) :
    dnsSet16bit b p v = write b p [lowByte (v >>> (8 : ℕ)),lowByte v] := by
  rw [write_cons,write_singleton,dnsSet16bit]

/-! ### The labels -/

theorem copyText_stop (hrest : rest = [] ∨ ∃ t, rest = 46::t) :
    copyText rest q len b = (rest,q,len,b) := by
  cases hrest with
  | inl h => rw [h,copyText]
  | inr h =>
    obtain ⟨t,ht⟩ := h
    rw [ht,copyText,if_pos rfl]

/-- The inner loop copies one label. -/
theorem copyText_label (hdot : 46 ∉ l) (hslash : 92 ∉ l) (hrest : rest = [] ∨ ∃ t, rest = 46::t) :
    copyText (l ++ rest) q len b = (rest,q+l.length,len+l.length,write b q l) := by
  induction l generalizing q len b with
  | nil => simpa using copyText_stop hrest
  | cons c l ih =>
    simp only [List.mem_cons,not_or] at hdot hslash
    rw [List.cons_append,copyText,if_neg (Ne.symm hdot.1),if_neg (Ne.symm hslash.1),ih hdot.2 hslash.2,
      write_cons,List.length_cons]
    simp only [Prod.mk.injEq,true_and,and_true]
    omega

/-- One round of the outer loop writes one label behind its length. -/
theorem writeName_label (hdot : 46 ∉ l) (hslash : 92 ∉ l) (hrest : rest = [] ∨ ∃ t, rest = 46::t) :
    writeName (l ++ rest) q b =
      if rest.tail = [] then (q+(l.length+1),write b q (UInt8.ofNat l.length::l))
      else writeName rest.tail (q+(l.length+1)) (write b q (UInt8.ofNat l.length::l)) := by
  rw [writeName]
  simp only [copyText_label hdot hslash hrest,Nat.zero_add,update_write_cons,
    Nat.add_assoc q 1 l.length,Nat.add_comm 1 l.length]
  rfl

theorem bare_ne_nil (hls : ls ≠ []) (hpos : ∀ l ∈ ls, 0 < l.length) : [46].intercalate ls ≠ [] := by
  cases ls with
  | nil => exact absurd rfl hls
  | cons l ls =>
    have hl : l ≠ [] := List.length_pos_iff.mp (hpos l (by simp))
    cases ls with
    | nil => simpa [List.intercalate] using hl
    | cons m ls => simp [List.intercalate,hl]

/-- The outer loop writes all the labels. -/
theorem writeName_labels (hls : ls ≠ []) (hpos : ∀ l ∈ ls, 0 < l.length)
    (hplain : ∀ l ∈ ls, 46 ∉ l ∧ 92 ∉ l ∧ 0 ∉ l) (hrest : rest = [] ∨ rest = [46]) :
    writeName ([46].intercalate ls ++ rest) q b = (q+(labelBytes ls).length,write b q (labelBytes ls)) := by
  induction ls generalizing q b with
  | nil => exact absurd rfl hls
  | cons l ls ih =>
    obtain ⟨hdot,hslash,_⟩ := hplain l (by simp)
    cases ls with
    | nil =>
      have htail : rest.tail = [] := by
        cases hrest with
        | inl h => rw [h]; rfl
        | inr h => rw [h]; rfl
      have hstop : rest = [] ∨ ∃ t, rest = 46::t := hrest.imp id fun h => ⟨[],h⟩
      rw [List.intercalate_singleton,writeName_label hdot hslash hstop,if_pos htail]
      simp [labelBytes]
    | cons m ls =>
      have hmore : ∀ l ∈ m::ls, 0 < l.length := fun l hl => hpos l (List.mem_cons_of_mem _ hl)
      have hne : [46].intercalate (m::ls) ++ rest ≠ [] :=
        List.append_ne_nil_of_left_ne_nil (bare_ne_nil (by simp) hmore) rest
      rw [List.intercalate_cons_cons,List.append_assoc,List.append_assoc,List.singleton_append,
        writeName_label hdot hslash (Or.inr ⟨_,rfl⟩),List.tail_cons,if_neg hne,
        ih (by simp) hmore fun l hl => hplain l (List.mem_cons_of_mem _ hl)]
      have hbytes : labelBytes (l::m::ls) = (UInt8.ofNat l.length::l) ++ labelBytes (m::ls) := by
        simp [labelBytes]
      have hq : q+(l.length+1) = q+(UInt8.ofNat l.length::l).length := by simp
      rw [hbytes,← write_write_append,hq,List.length_append,Nat.add_assoc]

/-! ### The length -/

/-- The dots between the labels stand for the lengths of all the labels but the first. -/
theorem length_bare (hls : ls ≠ []) : ([46].intercalate ls).length+1 = (labelBytes ls).length := by
  induction ls with
  | nil => exact absurd rfl hls
  | cons l ls ih =>
    cases ls with
    | nil => simp [labelBytes]
    | cons m ls =>
      have hm := ih (by simp)
      rw [List.intercalate_cons_cons]
      simp only [labelBytes,List.flatMap_cons,List.length_append,List.length_cons,List.length_nil] at hm ⊢
      omega

theorem mem_bare {c : UInt8} (hc : c ∈ [46].intercalate ls) : c = 46 ∨ ∃ l ∈ ls, c ∈ l := by
  induction ls with
  | nil => simp at hc
  | cons l ls ih =>
    cases ls with
    | nil =>
      rw [List.intercalate_singleton] at hc
      exact Or.inr ⟨l,by simp,hc⟩
    | cons m ls =>
      rw [List.intercalate_cons_cons,List.append_assoc,List.mem_append] at hc
      cases hc with
      | inl hc => exact Or.inr ⟨l,by simp,hc⟩
      | inr hc =>
        rw [List.singleton_append,List.mem_cons] at hc
        cases hc with
        | inl hc => exact Or.inl hc
        | inr hc =>
          refine (ih hc).imp id fun ⟨k,hk,hck⟩ => ⟨k,List.mem_cons_of_mem _ hk,hck⟩

/-- A name does not end in a dot unless one is put behind it. -/
theorem getLast?_bare (hls : ls ≠ []) (hpos : ∀ l ∈ ls, 0 < l.length) (hdot : ∀ l ∈ ls, 46 ∉ l) :
    ([46].intercalate ls).getLast? ≠ some 46 := by
  induction ls with
  | nil => exact absurd rfl hls
  | cons l ls ih =>
    cases ls with
    | nil =>
      rw [List.intercalate_singleton]
      intro hlast
      exact hdot l (by simp) (List.mem_of_getLast? hlast)
    | cons m ls =>
      have hmore : ∀ l ∈ m::ls, 0 < l.length := fun l hl => hpos l (List.mem_cons_of_mem _ hl)
      rw [List.intercalate_cons_cons,List.getLast?_append_of_ne_nil _ (bare_ne_nil (by simp) hmore)]
      exact ih (by simp) hmore fun l hl => hdot l (List.mem_cons_of_mem _ hl)

/-- The counted length is that of the encoding, and one more for the root, whose dot is counted as well. -/
theorem queryNameLen_text (d : DomainName) :
    queryNameLen d.text = d.encoding.length + if d.labels = [] then 1 else 0 := by
  by_cases hls : d.labels = []
  · simp [queryNameLen,text,bare,encoding,labelBytes,hls,d.root hls]
  · have hplain : 92 ∉ d.text := by
      intro hmem
      rw [text,List.mem_append] at hmem
      cases hmem with
      | inl hmem =>
        cases mem_bare hmem with
        | inl h => exact absurd h (by decide)
        | inr h =>
          obtain ⟨l,hl,hc⟩ := h
          exact (d.plain l hl).2.1 hc
      | inr hmem =>
        split_ifs at hmem
        · simp at hmem
        · simp at hmem
    have hcount : d.text.countP (· ≠ 92) = d.text.length := by
      rw [List.countP_eq_length]
      intro c hc
      rw [decide_eq_true_eq]
      rintro rfl
      exact hplain hc
    have hbare : d.bare.length+1 = (labelBytes d.labels).length := length_bare hls
    rw [queryNameLen,hcount,if_neg hls]
    by_cases hdot : d.dot
    · simp only [text,hdot,if_true,List.getLast?_append,encoding,List.length_append,List.length_singleton]
      simp
      omega
    · have hlast : d.bare.getLast? ≠ some 46 :=
        getLast?_bare hls (fun l hl => (d.length l hl).1) fun l hl => (d.plain l hl).1
      simp only [text,hdot,encoding,List.length_append,List.length_singleton]
      simp [hlast]
      omega

/-! ### The query -/

theorem toNat_lowByte (v : ℤ) : (lowByte v).toNat = (v % 256).toNat := by
  rw [lowByte,UInt8.toNat_ofNat']
  omega

/-- `DNS__SET16BIT` and `DNS__16BIT` are inverse up to the width. -/
theorem word_lowByte (v : ℤ) :
    (lowByte (v >>> (8 : ℕ))).toNat <<< 8 ||| (lowByte v).toNat = (v % 65536).toNat := by
  rw [toNat_lowByte,toNat_lowByte,← Nat.shiftLeft_add_eq_or_of_lt (by omega),Nat.shiftLeft_eq,
    Int.shiftRight_eq_div_pow]
  norm_num
  omega

/-- The header of a query. -/
def queryHeader (id : ℕ) (rd : ℤ) : List UInt8 :=
  [lowByte ((id : ℤ) >>> (8 : ℕ)),lowByte id,if rd ≠ 0 then 1 else 0,0,0,1,0,0,0,0,0,0]

/-- What stands behind the header of a query. -/
def queryBody (d : DomainName) (dnsclass type : ℤ) : List UInt8 :=
  d.encoding ++ (if d.labels = [] then [(0 : UInt8)] else []) ++ [lowByte (type >>> (8 : ℕ)),lowByte type] ++
    [lowByte (dnsclass >>> (8 : ℕ)),lowByte dnsclass]

theorem length_queryBody (d : DomainName) (dnsclass type : ℤ) :
    (queryBody d dnsclass type).length = queryNameLen d.text + QFIXEDSZ := by
  rw [queryNameLen_text]
  simp only [queryBody,QFIXEDSZ,List.length_append,List.length_cons,List.length_nil]
  split_ifs
  · simp
  · simp

/-- The header fields that are set make up the header. -/
theorem queryHeader_eq (b : Block UInt8) (id : ℕ) (rd : ℤ) (n : ℕ) :
    dnsSet16bit (dnsHeaderSetRd (dnsHeaderSetOpcode (dnsSet16bit
      (write b 0 (List.replicate (n+HFIXEDSZ) 0)) 0 id) 0 0) 0 (if rd ≠ 0 then 1 else 0)) 4 1 =
      write b 0 (queryHeader id rd ++ List.replicate n 0) := by
  have hsplit : List.replicate (n+HFIXEDSZ) (0 : UInt8) =
      [0,0,0,0,0,0,0,0,0,0,0,0] ++ List.replicate n 0 := by
    rw [Nat.add_comm,List.replicate_add]
    rfl
  have hset (xs : List UInt8) (i : ℕ) (hi : i < xs.length) (x : UInt8) :
      Function.update (write b 0 xs) i x = write b 0 (xs.set i x) := by
    have := update_write b 0 xs hi x
    rwa [Nat.zero_add] at this
  have hrd : (if rd = 0 then 0 else 1 : UInt8) &&& 1 = if rd = 0 then 0 else 1 := by
    split_ifs
    · rfl
    · rfl
  have hone : lowByte ((1 : ℤ) >>> (8 : ℕ)) = 0 := by decide
  have hone' : lowByte 1 = 1 := by decide
  rw [hsplit]
  simp only [dnsSet16bit,dnsHeaderSetRd,dnsHeaderSetOpcode]
  have hget (xs : List UInt8) (i : ℕ) : write b 0 xs i = xs[i]?.getD (b i) := by
    simp [write]
  simp [hset,hget,hrd,hone,hone',queryHeader]

theorem writeName_text (d : DomainName) :
    writeName (if d.text = [46] then [] else d.text) q b =
      (q+(labelBytes d.labels).length+(if d.labels = [] then 1 else 0),
        write b q (labelBytes d.labels ++ if d.labels = [] then [(0 : UInt8)] else [])) := by
  by_cases hls : d.labels = []
  · have htext : d.text = [46] := by simp [text,bare,hls,d.root hls]
    rw [if_pos htext,writeName]
    simp [copyText,hls,labelBytes,write_singleton]
  · have hpos : ∀ l ∈ d.labels, 0 < l.length := fun l hl => (d.length l hl).1
    have htext : d.text ≠ [46] := by
      intro h
      rw [text,List.append_eq_singleton_iff] at h
      cases h with
      | inl h => exact bare_ne_nil hls hpos h.1
      | inr h =>
        apply getLast?_bare hls hpos fun l hl => (d.plain l hl).1
        change d.bare.getLast? = some 46
        rw [h.1]
        rfl
    rw [if_neg htext,if_neg hls,text,bare,writeName_labels hls hpos d.plain]
    · simp [hls]
    · split_ifs
      · exact Or.inr rfl
      · exact Or.inl rfl

/-- The end of a query is written behind the labels. -/
theorem queryBody_eq (d : DomainName) (dnsclass type : ℤ) :
    dnsSet16bit (dnsSet16bit (Function.update (write b q
      (labelBytes d.labels ++ if d.labels = [] then [(0 : UInt8)] else []))
      (q+(labelBytes d.labels).length+(if d.labels = [] then 1 else 0)) 0)
      (q+(labelBytes d.labels).length+(if d.labels = [] then 1 else 0)+1) type)
      (q+(labelBytes d.labels).length+(if d.labels = [] then 1 else 0)+3) dnsclass =
      write b q (queryBody d dnsclass type) := by
  have hxs : ∃ xs : List UInt8, xs = labelBytes d.labels ++ (if d.labels = [] then [(0 : UInt8)] else []) ∧
      q+(labelBytes d.labels).length+(if d.labels = [] then 1 else 0) = q+xs.length ∧
      queryBody d dnsclass type = xs ++ [(0 : UInt8)] ++ [lowByte (type >>> (8 : ℕ)),lowByte type] ++
        [lowByte (dnsclass >>> (8 : ℕ)),lowByte dnsclass] := by
    refine ⟨_,rfl,?_,?_⟩
    · split_ifs
      · simp [Nat.add_assoc]
      · simp
    · rw [queryBody,encoding]
      split_ifs
      · simp
      · simp
  obtain ⟨xs,hxs,hlen,hbody⟩ := hxs
  rw [← hxs,hlen,hbody,dnsSet16bit_eq,dnsSet16bit_eq,← write_singleton,write_write_append]
  have h1 : q+xs.length+1 = q+(xs ++ [(0 : UInt8)]).length := by simp [Nat.add_assoc]
  have h3 : q+xs.length+3 = q+(xs ++ [(0 : UInt8)] ++ [lowByte (type >>> (8 : ℕ)),lowByte type]).length := by
    simp [Nat.add_assoc]
  rw [h1,write_write_append,h3,write_write_append]

/-- The packet of a query. -/
def queryPacket (d : DomainName) (dnsclass type : ℤ) (id : ℕ) (rd : ℤ) : List UInt8 :=
  queryHeader id rd ++ queryBody d dnsclass type

theorem evdnsMakeQuery_eq (d : DomainName) (hfit : d.encoding.length ≤ MAXCDNAME) (dnsclass type : ℤ)
    (id : ℕ) (rd : ℤ) (buf : Block UInt8) :
    evdnsMakeQuery (some d.text) dnsclass type id rd buf =
      (write buf 0 (queryPacket d dnsclass type id rd),
        ((queryPacket d dnsclass type id rd).length : ℤ)) := by
  have hlen : ¬ queryNameLen d.text > MAXCDNAME := by
    rw [queryNameLen_text]
    split_ifs with hls
    · simp [encoding,labelBytes,hls,MAXCDNAME]
    · omega
  have hn : queryNameLen d.text+HFIXEDSZ+QFIXEDSZ = (queryBody d dnsclass type).length+HFIXEDSZ := by
    rw [length_queryBody]
    omega
  simp only [evdnsMakeQuery,if_neg hlen,hn,queryHeader_eq,writeName_text,queryBody_eq]
  rw [Prod.mk.injEq]
  constructor
  · exact write_write_over buf 0 (queryHeader id rd) _ _ (by simp)
  · simp [queryPacket,queryHeader,HFIXEDSZ]
    omega

/-! ### Reading the query back -/

/-- A written name is a name of the message. -/
theorem nameAt_labels (hlen : ∀ l ∈ ls, 0 < l.length ∧ l.length ≤ 63) (before tail : List UInt8) :
    NameAt (before ++ (labelBytes ls ++ 0::tail)) before.length (ls.flatMap (· ++ [46]))
      (before.length+(labelBytes ls).length+1) := by
  induction ls generalizing before with
  | nil => exact .zero (by simp [labelBytes])
  | cons l ls ih =>
    obtain ⟨hpos,hmax⟩ := hlen l (by simp)
    have hc : (UInt8.ofNat l.length).toNat = l.length := by
      rw [UInt8.toNat_ofNat']
      omega
    have hzero : UInt8.ofNat l.length ≠ 0 := by
      intro h
      rw [h] at hc
      simp at hc
      omega
    have hmask : ¬ OFF_MASK ≤ UInt8.ofNat l.length := by
      rw [UInt8.le_iff_toNat_le,hc]
      change ¬ 192 ≤ l.length
      omega
    have hsplit : before ++ (labelBytes (l::ls) ++ 0::tail) =
        (before ++ UInt8.ofNat l.length::l) ++ (labelBytes ls ++ 0::tail) := by
      simp [labelBytes]
    have hnext := ih (fun l hl => hlen l (List.mem_cons_of_mem _ hl)) (before ++ UInt8.ofNat l.length::l)
    rw [← hsplit] at hnext
    have hbefore : (before ++ UInt8.ofNat l.length::l).length =
        before.length+1+(UInt8.ofNat l.length).toNat := by
      rw [hc]
      simp [Nat.add_assoc,Nat.add_comm 1]
    rw [hbefore] at hnext
    have hname := NameAt.label (c := UInt8.ofNat l.length) (by simp [labelBytes]) hzero hmask
      (by simp [labelBytes,hc]; omega) hnext
    have hslice : ((before ++ (labelBytes (l::ls) ++ 0::tail)).drop (before.length+1)).take
        (UInt8.ofNat l.length).toNat = l := by
      rw [hc,← List.drop_drop,List.drop_left]
      simp [labelBytes]
    have hend : before.length+1+(UInt8.ofNat l.length).toNat+(labelBytes ls).length+1 =
        before.length+(labelBytes (l::ls)).length+1 := by
      rw [hc]
      simp [labelBytes]
      omega
    rw [hslice,hend] at hname
    simpa using hname

theorem flatMap_dot (hls : ls ≠ []) : ls.flatMap (· ++ [46]) = [46].intercalate ls ++ [(46 : UInt8)] := by
  induction ls with
  | nil => exact absurd rfl hls
  | cons l ls ih =>
    cases ls with
    | nil => simp
    | cons m ls =>
      rw [List.flatMap_cons,ih (by simp),List.intercalate_cons_cons]
      simp

/-- A zero takes the place of the last dot. -/
theorem closeName_dot (name : Block UInt8) (text : List UInt8) :
    closeName name (text ++ [46]) = write name 0 (text ++ [0,0]) := by
  have hlast : write name 0 (text ++ [46] ++ [0]) ((text ++ [46]).length-1) = 46 := by
    simp [write]
  have hset := update_write name 0 (text ++ [46] ++ [0]) (i := text.length) (by simp) 0
  rw [closeName,if_pos ⟨by simp,hlast⟩]
  simpa using hset

/-- The string that is left of a written name is the name without its dot. -/
theorem cstr_closeName (d : DomainName) (name : Block UInt8)
    (hroom : (d.labels.flatMap (· ++ [46])).length < DNS_NAME_MAX) :
    cstr (closeName name (d.labels.flatMap (· ++ [46]))) 0 DNS_NAME_MAX = d.bare := by
  by_cases hls : d.labels = []
  · rw [hls,bare,hls]
    rfl
  · have hw := flatMap_dot hls
    change _ = d.bare ++ [46] at hw
    rw [hw] at hroom ⊢
    have hzero : 0 ∉ d.bare := by
      intro hmem
      cases mem_bare hmem with
      | inl h => exact absurd h (by decide)
      | inr h =>
        obtain ⟨l,hl,hc⟩ := h
        exact (d.plain l hl).2.2 hc
    have hroom' : d.bare.length < DNS_NAME_MAX := by
      rw [List.length_append] at hroom
      omega
    rw [closeName_dot,cstr_eq_takeWhile _ 0 d.bare.length DNS_NAME_MAX (by simp [write]) hroom',read_write_take,
      List.takeWhile_eq_self_iff]
    intro c hc
    rw [decide_eq_true_eq]
    rintro rfl
    exact hzero hc

/-- The question of a query. -/
theorem nameAt_query (d : DomainName) (dnsclass type : ℤ) (id : ℕ) (rd : ℤ) :
    NameAt (queryPacket d dnsclass type id rd) HFIXEDSZ (d.labels.flatMap (· ++ [46]))
      (HFIXEDSZ+d.encoding.length) := by
  have hsplit : ∃ tail, queryPacket d dnsclass type id rd =
      queryHeader id rd ++ (labelBytes d.labels ++ 0::tail) := by
    rw [queryPacket,queryBody,encoding]
    exact ⟨(if d.labels = [] then [(0 : UInt8)] else []) ++ [lowByte (type >>> (8 : ℕ)),lowByte type] ++
      [lowByte (dnsclass >>> (8 : ℕ)),lowByte dnsclass],by simp⟩
  obtain ⟨tail,htail⟩ := hsplit
  have hname := nameAt_labels d.length (queryHeader id rd) tail
  rw [← htail,show (queryHeader id rd).length = HFIXEDSZ from rfl] at hname
  simpa only [encoding,List.length_append,List.length_singleton,Nat.add_assoc] using hname

/-- The dotted text of an encoding that fits is shorter than it by the root. -/
theorem length_flatMap_dot (ls : List (List UInt8)) :
    (ls.flatMap (· ++ [46])).length = (labelBytes ls).length := by
  simp [labelBytes,List.length_flatMap]

/-- The query for a domain name fills as many bytes as it returns, and its reader finds the name. -/
theorem query_round_trip (d : DomainName) (hfit : d.encoding.length ≤ MAXCDNAME) (dnsclass type : ℤ)
    (id : ℕ) (rd : ℤ) (buf : Block UInt8) (h : HostEnt) :
    ∃ packet : List UInt8,
      evdnsMakeQuery (some d.text) dnsclass type id rd buf = (write buf 0 packet,(packet.length : ℤ)) ∧
      packet = queryPacket d dnsclass type id rd ∧
      ∃ h', Returns (fun fuel => evdnsParseReply fuel packet h) (h',0) ∧
        h'.qid = id % 2^16 ∧ h'.naddrs = 0 ∧ cstr h'.name 0 DNS_NAME_MAX = d.bare := by
  refine ⟨_,evdnsMakeQuery_eq d hfit dnsclass type id rd buf,rfl,?_⟩
  have hqid : word16 (queryPacket d dnsclass type id rd) 0 = id % 2^16 := by
    change (lowByte ((id : ℤ) >>> (8 : ℕ))).toNat <<< 8 ||| (lowByte id).toNat = _
    rw [word_lowByte]
    omega
  have hlen : HFIXEDSZ+d.encoding.length+QFIXEDSZ ≤ (queryPacket d dnsclass type id rd).length := by
    rw [queryPacket,List.length_append,length_queryBody,queryNameLen_text]
    simp only [queryHeader,List.length_cons,List.length_nil,HFIXEDSZ]
    omega
  have hroom : (d.labels.flatMap (· ++ [46])).length < DNS_NAME_MAX := by
    rw [encoding,List.length_append] at hfit
    rw [length_flatMap_dot]
    exact lt_of_le_of_lt (Nat.le_of_succ_le hfit) (by decide)
  have hstart : HFIXEDSZ < (queryPacket d dnsclass type id rd).length := by
    unfold QFIXEDSZ at hlen
    omega
  have hquestion := returns_parseQuestions_succ (n := 0)
    (h := { h with naddrs := 0,nalias := 0,qid := word16 (queryPacket d dnsclass type id rd) 0 }).mpr
      ⟨_,_,nameAt_query d dnsclass type id rd,hroom,hlen,returns_const.mpr rfl⟩
  have hqdcount : word16 (queryPacket d dnsclass type id rd) 4 = 0+1 := by
    change (0 : UInt8).toNat <<< 8 ||| (1 : UInt8).toNat = 1
    decide
  have hancount : word16 (queryPacket d dnsclass type id rd) 6 = 0 := by
    change (0 : UInt8).toNat <<< 8 ||| (0 : UInt8).toNat = 0
    decide
  refine ⟨{ h with
    naddrs := 0
    nalias := 0
    qid := word16 (queryPacket d dnsclass type id rd) 0
    name := closeName h.name (d.labels.flatMap (· ++ [46])) },?_,hqid,rfl,cstr_closeName d h.name hroom⟩
  rw [returns_parseReply hstart,hqdcount,hancount]
  exact ⟨_,hquestion,_,returns_const.mpr rfl,rfl⟩

/-- The name `ab.c.`, to be looked up. -/
def sampleName : DomainName where
  labels := [[97,98],[99]]
  dot := true
  length := by decide
  plain := by decide
  root := by decide

theorem query_round_trip_sample : ∃ packet : List UInt8,
    evdnsMakeQuery (some sampleName.text) 1 1 70000 1 (fun _ => 7) =
      (write (fun _ => 7) 0 packet,(packet.length : ℤ)) ∧
    packet = queryPacket sampleName 1 1 70000 1 ∧
    ∃ h', Returns (fun fuel => evdnsParseReply fuel packet ⟨0,fun _ => 7,0,fun _ _ => 7,0,fun _ => 0⟩) (h',0) ∧
      h'.qid = 70000 % 2^16 ∧ h'.naddrs = 0 ∧ cstr h'.name 0 DNS_NAME_MAX = sampleName.bare :=
  query_round_trip sampleName (by decide) 1 1 70000 1 _ _

end

end Sbase
