import Sbase.Ini.Dictionary

/-! The dictionary is a map from keys to values, as long as a key is not sought behind a free slot whose
hash it has. -/
namespace Sbase.Ini
open KeySlots

def DictSlot.entry (s : DictSlot) : Option (List UInt8 × Option (List UInt8)) := s.key.map fun k => (k,s.val)

/-- The slots hold the map, with the hashes of their keys, and `n` is the number of keys. -/
structure Dictionary.Sound (d : Dictionary) (m : List UInt8 → Option (Option (List UInt8))) : Prop where
  holds : Holds (d.slots.map DictSlot.entry) m
  hash : ∀ s ∈ d.slots, s.hash = (s.key.map dictionaryHash).getD 0
  count : d.n = d.slots.countP (·.key.isSome)
  slots : 0 < d.slots.length

/-- The number of slots from which on `mem_double` fails. -/
def DICT_ENTRIES_MAX : ℕ := 2^27

/-- A map of entries for which the table can be doubled as often as they need. -/
def Few (m : List UInt8 → Option (Option (List UInt8))) : Prop :=
  ∃ S : Finset (List UInt8), S.card ≤ DICT_ENTRIES_MAX ∧ ∀ k, m k ≠ none → k ∈ S

variable {d : Dictionary} {m : List UInt8 → Option (Option (List UInt8))} {key : List UInt8}
  {val : Option (List UInt8)} {slots : List DictSlot} {s : DictSlot} {i : ℕ}

theorem entry_eq_some {v : Option (List UInt8)} : s.entry = some (key,v) ↔ s.key = some key ∧ s.val = v := by
  cases hk : s.key <;> simp [DictSlot.entry,hk]

theorem dictionaryNew_sound (size : ℕ) : (dictionaryNew size).Sound fun _ => none := by
  refine ⟨?_,fun s hs => ?_,?_,?_⟩
  · simpa [dictionaryNew,DictSlot.entry,DictSlot.empty] using Holds.free (max size DICTMINSZ)
  · rw [List.eq_of_mem_replicate hs]
    rfl
  · simp [dictionaryNew,DictSlot.empty,List.countP_replicate]
  · simp [dictionaryNew,DICTMINSZ]

namespace Dictionary.Sound

theorem slot_hash (h : d.Sound m) (hi : d.slots[i]? = some s) : s.hash = (s.key.map dictionaryHash).getD 0 :=
  h.hash s (List.mem_of_getElem? hi)

theorem at_iff (h : d.Sound m) (hi : d.slots[i]? = some s) (hk : s.key = some key) : m key = some s.val :=
  h.holds.slot i key s.val (by simp [hi,entry_eq_some,hk])

theorem found (h : d.Sound m) (hm : m key = some val) :
    ∃ (i : ℕ) (s : DictSlot), d.slots[i]? = some s ∧ s.key = some key ∧ s.val = val := by
  obtain ⟨i,hi⟩ := h.holds.found key val hm
  rw [List.getElem?_map,Option.map_eq_some_iff] at hi
  obtain ⟨s,hs,hentry⟩ := hi
  exact ⟨i,s,hs,entry_eq_some.mp hentry⟩

/-- The slot that is sought is that of the key. -/
theorem seek_some (h : d.Sound m) (hseek : dictionarySeek d key = some i) :
    ∃ s, d.slots[i]? = some s ∧ s.key = some key ∧ m key = some s.val := by
  obtain ⟨hi,hp,-⟩ := List.findIdx?_eq_some_iff_getElem.mp hseek
  simp only [decide_eq_true_eq] at hp
  have hslot : d.slots[i]? = some d.slots[i] := List.getElem?_eq_getElem hi
  exact ⟨_,hslot,hp.2.2,h.at_iff hslot hp.2.2⟩

theorem seek_none (h : d.Sound m) (hseek : dictionarySeek d key = none) : m key = none := by
  by_contra hne
  obtain ⟨val,hm⟩ := Option.ne_none_iff_exists'.mp hne
  obtain ⟨i,s,hi,hk,-⟩ := h.found hm
  have hp := List.findIdx?_eq_none_iff.mp hseek s (List.mem_of_getElem? hi)
  simp [hk,h.slot_hash hi] at hp

/-- The search is left out for an empty dictionary, where it would find nothing. -/
theorem seek_guarded (h : d.Sound m) (key : List UInt8) :
    (if 0 < d.n then dictionarySeek d key else none) = dictionarySeek d key := by
  split_ifs with hn
  · rfl
  · have hzero : d.slots.countP (·.key.isSome) = 0 := by
      rw [← h.count]
      omega
    symm
    refine List.findIdx?_eq_none_iff.mpr fun s hs => ?_
    have hfree := List.countP_eq_zero.mp hzero s hs
    simp [hfree]

theorem double (h : d.Sound m) :
    (Dictionary.mk d.n (d.slots ++ List.replicate d.slots.length DictSlot.empty)).Sound m := by
  refine ⟨?_,fun s hs => ?_,?_,?_⟩
  · simpa [DictSlot.entry,DictSlot.empty] using h.holds.grow d.slots.length
  · rcases List.mem_append.mp hs with hs | hs
    · exact h.hash s hs
    · rw [List.eq_of_mem_replicate hs]
      rfl
  · simpa [DictSlot.empty,List.countP_replicate] using h.count
  · simpa using h.slots

/-- There are fewer entries than there may be once a new one is in. -/
theorem count_lt (h : d.Sound m) (hnew : m key = none) (hfew : Few (Function.update m key (some val))) :
    d.n < DICT_ENTRIES_MAX := by
  obtain ⟨S,hcard,hS⟩ := hfew
  have hmem : key ∈ S := hS key (by simp)
  have hothers : ∀ k, m k ≠ none → k ∈ S.erase key := by
    intro k hk
    have hne : k ≠ key := by
      rintro rfl
      exact hk hnew
    refine Finset.mem_erase.mpr ⟨hne,hS k ?_⟩
    rwa [Function.update_of_ne hne]
  have hcount : d.n = (d.slots.map DictSlot.entry).countP Option.isSome := by
    rw [h.count,List.countP_map]
    exact List.countP_congr fun s _ => by simp [DictSlot.entry]
  calc d.n ≤ (S.erase key).card := hcount.trans_le (h.holds.count_le hothers)
    _ < S.card := Finset.card_erase_lt_of_mem hmem
    _ ≤ DICT_ENTRIES_MAX := hcard

/-- There is room for a new entry, in a table that is doubled if it is full. -/
theorem room (h : d.Sound m) (hlt : d.n < DICT_ENTRIES_MAX) :
    ∃ slots, dictionaryRoom d = some slots ∧ (Dictionary.mk d.n slots).Sound m ∧ d.n < slots.length := by
  have hle : d.n ≤ d.slots.length := h.count ▸ List.countP_le_length
  unfold dictionaryRoom
  split_ifs with hfull
  · have hdouble : 2*(d.slots.length*8) < 2^31 := by
      rw [DICT_ENTRIES_MAX] at hlt
      omega
    refine ⟨_,if_pos hdouble,h.double,?_⟩
    have hpos := h.slots
    rw [List.length_append,List.length_replicate]
    omega
  · exact ⟨d.slots,rfl,h,by omega⟩

/-- A key takes a value in the slot it has, or in a free one. -/
theorem put (h : d.Sound m) (hi : d.slots[i]? = some s) (hslot : ∀ k, s.key = some k → k = key)
    (hkey : m key = none ∨ s.key = some key) (val : Option (List UInt8)) :
    (Dictionary.mk (if s.key.isSome then d.n else d.n+1) (d.slots.set i ⟨some key,val,dictionaryHash key⟩)).Sound
      (Function.update m key (some val)) := by
  obtain ⟨hlt,hs⟩ := List.getElem?_eq_some_iff.mp hi
  refine ⟨?_,fun t ht => ?_,?_,by simpa using h.slots⟩
  · rw [List.map_set]
    refine h.holds.put (by simpa using hlt) (fun q u hq => ?_) fun j u hj => ?_
    · simp only [List.getElem?_map,hi,Option.map_some,Option.some.injEq] at hq
      exact hslot q (entry_eq_some.mp hq).1
    · rcases hkey with hnone | hkey
      · rw [h.holds.slot j key u hj] at hnone
        cases hnone
      · exact h.holds.once j i key u s.val hj (by simp [hi,entry_eq_some,hkey])
  · rcases List.mem_or_eq_of_mem_set ht with ht | rfl
    · exact h.hash t ht
    · rfl
  · have hmem : s.key.isSome → 0 < d.n := by
      intro hsome
      rw [h.count]
      exact List.countP_pos_iff.mpr ⟨s,List.mem_of_getElem? hi,hsome⟩
    simp only [List.countP_set hlt,hs,← h.count,Option.isSome_some,if_true]
    split_ifs with hsome
    · have hpos := hmem hsome
      omega
    · rfl

/-- The slot of a key becomes free. -/
theorem clear (h : d.Sound m) (hi : d.slots[i]? = some s) (hk : s.key = some key) :
    (Dictionary.mk (d.n-1) (d.slots.set i .empty)).Sound (Function.update m key none) := by
  obtain ⟨hlt,hs⟩ := List.getElem?_eq_some_iff.mp hi
  refine ⟨?_,fun t ht => ?_,?_,by simpa using h.slots⟩
  · rw [List.map_set]
    exact h.holds.clear (w := s.val) (by simp [hi,entry_eq_some,hk])
  · rcases List.mem_or_eq_of_mem_set ht with ht | rfl
    · exact h.hash t ht
    · rfl
  · simp [List.countP_set hlt,hs,← h.count,hk,DictSlot.empty]

end Dictionary.Sound

theorem dictionarySet_sound (h : d.Sound m) (key : List UInt8) (val : Option (List UInt8))
    (hfew : Few (Function.update m key (some val))) :
    ∃ d', dictionarySet d key val = some d' ∧ d'.Sound (Function.update m key (some val)) := by
  unfold dictionarySet
  rw [h.seek_guarded key]
  cases hseek : dictionarySeek d key with
  | some i =>
    obtain ⟨s,hi,hk,-⟩ := h.seek_some hseek
    have hmodify : d.slots.modify i (fun s => { s with val := val }) =
        d.slots.set i ⟨some key,val,dictionaryHash key⟩ := by
      rw [List.modify_eq_set_getElem?,hi]
      change d.slots.set i ⟨s.key,val,s.hash⟩ = _
      rw [h.slot_hash hi,hk]
      rfl
    have hput := h.put hi (fun k hk' => Option.some.inj (hk'.symm.trans hk)) (.inr hk) val
    rw [hk] at hput
    exact ⟨_,rfl,by rw [hmodify]; exact hput⟩
  | none =>
    have hnew := h.seek_none hseek
    obtain ⟨slots,hslots,hgrow,hroom⟩ := h.room (h.count_lt hnew hfew)
    rw [hslots]
    dsimp only
    cases hfree : slots.findIdx? fun s => s.key.isNone with
    | some i =>
      obtain ⟨hlt,hnone,-⟩ := List.findIdx?_eq_some_iff_getElem.mp hfree
      have hput := hgrow.put (List.getElem?_eq_getElem hlt) (fun k hk => ?_) (.inl hnew) val
      · rw [Option.isNone_iff_eq_none.mp hnone] at hput
        exact ⟨_,rfl,hput⟩
      · rw [hk] at hnone
        cases hnone
    | none =>
      have hall : slots.countP (·.key.isSome) = slots.length := by
        refine List.countP_eq_length.mpr fun s hs => ?_
        simpa using List.findIdx?_eq_none_iff.mp hfree s hs
      have hcount : d.n = slots.countP (·.key.isSome) := hgrow.count
      omega

theorem dictionaryUnset_sound (h : d.Sound m) (key : List UInt8) :
    (dictionaryUnset d key).Sound (Function.update m key none) := by
  unfold dictionaryUnset
  cases hseek : dictionarySeek d key with
  | some i =>
    obtain ⟨s,hi,hk,-⟩ := h.seek_some hseek
    exact h.clear hi hk
  | none =>
    rw [Function.update_eq_self_iff.mpr (h.seek_none hseek).symm]
    exact h

/-! ### Looking up -/

/-- What `dictionary_get` is to return for a value of the map. -/
def answer : Option (Option (List UInt8)) → DictValue
  | none => .default
  | some val => .value val

/-- `dictionary_get` stops at the key, and at a free slot if the hash of the key is that of a free slot. -/
theorem dictionaryGetFrom_eq (key : List UInt8) (slots : List DictSlot)
    (hhash : ∀ s ∈ slots, s.hash = (s.key.map dictionaryHash).getD 0) :
    dictionaryGetFrom key slots =
      match slots.find? fun s => s.key = some key ∨ s.key = none ∧ dictionaryHash key = 0 with
      | none => some .default
      | some s => s.key.map fun _ => .value s.val := by
  induction slots with
  | nil => rfl
  | cons s slots ih =>
    have hs := hhash s (by simp)
    have ih := ih fun t ht => hhash t (by simp [ht])
    cases hk : s.key with
    | none =>
      rw [hk] at hs
      by_cases hzero : dictionaryHash key = 0
      · simp [dictionaryGetFrom,hs,hk,hzero]
      · simp [dictionaryGetFrom,hs,hk,hzero,ih]
    | some k =>
      by_cases hkey : key = k
      · subst hkey
        simp [dictionaryGetFrom,hs,hk]
      · simp [dictionaryGetFrom,hs,hk,hkey,Ne.symm hkey,ih]

/-- No free slot comes before that of a key with the hash of a free slot. -/
def Dictionary.Finds (d : Dictionary) (key : List UInt8) : Prop :=
  dictionaryHash key = 0 → ∀ i : ℕ, d.slots[i]?.map DictSlot.key = some none →
    ∃ j < i, d.slots[j]?.map DictSlot.key = some (some key)

theorem dictionaryGet_iff (h : d.Sound m) (key : List UInt8) :
    dictionaryGet d key = some (answer (m key)) ↔ d.Finds key := by
  rw [dictionaryGet,dictionaryGetFrom_eq key d.slots h.hash]
  cases hfind : d.slots.find? fun s => s.key = some key ∨ s.key = none ∧ dictionaryHash key = 0 with
  | none =>
    have hstop : ∀ s ∈ d.slots, ¬ (s.key = some key ∨ s.key = none ∧ dictionaryHash key = 0) := by
      simpa using hfind
    have hm : m key = none := by
      by_contra hne
      obtain ⟨val,hval⟩ := Option.ne_none_iff_exists'.mp hne
      obtain ⟨i,s,hi,hk,-⟩ := h.found hval
      exact hstop s (List.mem_of_getElem? hi) (.inl hk)
    simp only [hm,answer,true_iff]
    intro hzero i hi
    obtain ⟨s,hs,hk⟩ := Option.map_eq_some_iff.mp hi
    exact absurd (.inr ⟨hk,hzero⟩) (hstop s (List.mem_of_getElem? hs))
  | some s =>
    obtain ⟨hs,i,hlt,rfl,hfirst⟩ := List.find?_eq_some_iff_getElem.mp hfind
    have hi : d.slots[i]? = some d.slots[i] := List.getElem?_eq_getElem hlt
    have hbefore : ∀ j < i, ∀ t, d.slots[j]? = some t →
        ¬ (t.key = some key ∨ t.key = none ∧ dictionaryHash key = 0) := by
      intro j hj t ht
      obtain ⟨hjlt,rfl⟩ := List.getElem?_eq_some_iff.mp ht
      have hpass := hfirst j hj
      rw [Bool.not_eq_true',decide_eq_false_iff_not] at hpass
      exact hpass
    simp only [decide_eq_true_eq] at hs
    rcases hs with hk | ⟨hk,hzero⟩
    · simp only [hk,h.at_iff hi hk,answer,Option.map_some,true_iff]
      intro hzero j hj
      obtain ⟨t,ht,htk⟩ := Option.map_eq_some_iff.mp hj
      refine ⟨i,?_,by rw [hi,Option.map_some,hk]⟩
      by_contra hge
      rcases (not_lt.mp hge).lt_or_eq with hji | rfl
      · exact hbefore j hji t ht (.inr ⟨htk,hzero⟩)
      · cases hi.symm.trans ht
        rw [hk] at htk
        cases htk
    · -- The search ends at a free slot.
      simp only [hk,Option.map_none,reduceCtorEq,false_iff]
      intro hfinds
      obtain ⟨j,hj,hkey⟩ := hfinds hzero i (by rw [hi,Option.map_some,hk])
      obtain ⟨t,ht,htk⟩ := Option.map_eq_some_iff.mp hkey
      exact hbefore j hj t ht (.inl htk)

/-! ### Runs -/

inductive IniOp
  | setstr (entry : List UInt8) (val : Option (List UInt8))
  | unset (entry : List UInt8)

def IniOp.run (d : Dictionary) : IniOp → Option Dictionary
  | setstr entry val => iniparserSetstr d entry val
  | unset entry => some (iniparserUnset d entry)

/-- What an operation does to a map from entries in lower case. -/
def IniOp.apply (m : List UInt8 → Option (Option (List UInt8))) : IniOp → List UInt8 → Option (Option (List UInt8))
  | setstr entry val => Function.update m (strlwc entry) (some val)
  | unset entry => Function.update m (strlwc entry) none

theorem iniOps_sound (ops : List IniOp) (h : d.Sound m) (hfew : ∀ k, k <+: ops → Few (k.foldl IniOp.apply m)) :
    ∃ d', ops.foldlM IniOp.run d = some d' ∧ d'.Sound (ops.foldl IniOp.apply m) := by
  induction ops generalizing d m with
  | nil => exact ⟨d,rfl,h⟩
  | cons op ops ih =>
    have hrest : ∀ k, k <+: ops → Few (k.foldl IniOp.apply (op.apply m)) := fun k hk =>
      hfew (op::k) (List.cons_prefix_cons.mpr ⟨rfl,hk⟩)
    cases op with
    | setstr entry val =>
      obtain ⟨d₁,hset,hsound⟩ := dictionarySet_sound h (strlwc entry) val (hrest [] List.nil_prefix)
      obtain ⟨d₂,hrest,hend⟩ := ih hsound hrest
      refine ⟨d₂,?_,hend⟩
      simp only [List.foldlM_cons,IniOp.run,iniparserSetstr,hset]
      exact hrest
    | unset entry =>
      obtain ⟨d₂,hrest,hend⟩ := ih (dictionaryUnset_sound h (strlwc entry)) hrest
      exact ⟨d₂,hrest,hend⟩

/-- The entry of an operation. -/
def IniOp.entry : IniOp → List UInt8
  | setstr entry _ => strlwc entry
  | unset entry => strlwc entry

theorem mem_entries {ops : List IniOp} (hkey : ops.foldl IniOp.apply m key ≠ none) :
    m key ≠ none ∨ key ∈ ops.map IniOp.entry := by
  induction ops generalizing m with
  | nil => exact .inl hkey
  | cons op ops ih =>
    rw [List.map_cons,List.mem_cons]
    rcases ih hkey with hop | hops
    · by_cases hentry : key = op.entry
      · exact .inr (.inl hentry)
      · refine .inl ?_
        cases op <;> simpa [IniOp.apply,Function.update_of_ne (show key ≠ strlwc _ from hentry)] using hop
    · exact .inr (.inr hops)

/-- A run that is not too long never has too many entries. -/
theorem few_of_length {ops k : List IniOp} (hlen : ops.length ≤ DICT_ENTRIES_MAX) (hk : k <+: ops) :
    Few (k.foldl IniOp.apply fun _ => none) := by
  refine ⟨(k.map IniOp.entry).toFinset,?_,fun key hkey => ?_⟩
  · have hcard := List.toFinset_card_le (k.map IniOp.entry)
    rw [List.length_map] at hcard
    exact (hcard.trans hk.length_le).trans hlen
  · exact List.mem_toFinset.mpr ((mem_entries hkey).resolve_left fun hnone => hnone rfl)

/-- After any entries have been set and deleted, in any case and through any number of doublings of the
table, each is found with its last value, exactly if no free slot is met first whose hash its key has, as long
as there are never more entries than the table can be doubled for. -/
theorem ini_entries_iff (size : ℕ) (ops : List IniOp)
    (hfew : ∀ k, k <+: ops → Few (k.foldl IniOp.apply fun _ => none)) :
    ∃ d, ops.foldlM IniOp.run (dictionaryNew size) = some d ∧
      ∀ entry, iniparserGetstring d entry = some (answer (ops.foldl IniOp.apply (fun _ => none) (strlwc entry))) ↔
        d.Finds (strlwc entry) := by
  obtain ⟨d,hrun,hsound⟩ := iniOps_sound ops (dictionaryNew_sound size) hfew
  exact ⟨d,hrun,fun entry => dictionaryGet_iff hsound (strlwc entry)⟩

/-- `A:b` is set, set again as `a:B`, and found as `a:b`. -/
theorem ini_entries_again :
    ∃ d, [IniOp.setstr [65,58,98] (some [49]),.setstr [97,58,66] (some [50])].foldlM IniOp.run (dictionaryNew 0) =
      some d ∧ iniparserGetstring d [97,58,98] = some (.value (some [50])) := by
  obtain ⟨d,hrun,hget⟩ := ini_entries_iff 0 [.setstr [65,58,98] (some [49]),.setstr [97,58,66] (some [50])]
    fun k hk => few_of_length (by decide) hk
  refine ⟨d,hrun,?_⟩
  have hkey : strlwc [97,58,98] = [97,58,98] := by decide
  have hfinds : d.Finds (strlwc [97,58,98]) := fun hzero => by
    rw [hkey] at hzero
    exact absurd hzero (by decide)
  rw [(hget _).mpr hfinds]
  decide

end Sbase.Ini
