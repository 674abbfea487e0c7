import Sbase.Ini.DictionaryMap
import Sbase.Ini.Iniparser

/-! What `iniparser_dump_ini` writes, `iniparser_new` reads back. -/
namespace Sbase.Ini
open Lines Scanf

/-- A text within one line. -/
def Plain (s : List UInt8) : Prop := s ≠ [] ∧ ∀ c ∈ s, c ≠ 0 ∧ c ≠ 10

/-- A text without blanks at its ends. -/
def Trimmed (s : List UInt8) : Prop :=
  (∀ c, s.head? = some c → isSpace c = false) ∧ ∀ c, s.getLast? = some c → isSpace c = false

def Lower (s : List UInt8) : Prop := ∀ c ∈ s, toLower c = c

/-- A section that stands between brackets. -/
structure SectionName (sec : List UInt8) : Prop where
  plain : Plain sec
  lower : Lower sec
  bracket : 93 ∉ sec
  short : sec.length+3 < ASCIILINESZ

/-- A key in front of an equals sign that is neither a comment nor a section. -/
structure KeyName (key : List UInt8) : Prop where
  plain : Plain key
  lower : Lower key
  trimmed : Trimmed key
  equals : 61 ∉ key
  first : key.head? ≠ some 59 ∧ key.head? ≠ some 35 ∧ key.head? ≠ some 91

/-- A value without quotes in front or a comment inside. -/
structure ValueText (val : List UInt8) : Prop where
  plain : Plain val
  trimmed : Trimmed val
  comment : 59 ∉ val ∧ 35 ∉ val
  quotes : val.head? ≠ some 34 ∧ val.head? ≠ some 39

/-- The entries of a section that stand on lines of their own. -/
structure EntryText (key val : List UInt8) : Prop where
  name : KeyName key
  text : ValueText val
  short : max key.length 30+3+val.length+1 < ASCIILINESZ

/-- A map of sections without a value and of their entries. -/
def IniText (m : List UInt8 → Option (Option (List UInt8))) : Prop :=
  ∀ key val, m key = some val →
    (58 ∉ key ∧ SectionName key ∧ val = none) ∨
      ∃ sec k v, key = sec ++ 58::k ∧ 58 ∉ sec ∧ m sec = some none ∧ EntryText k v ∧ val = some v

variable {d : Dictionary} {m : List UInt8 → Option (Option (List UInt8))} {f : IniFields}
  {sec key val : List UInt8}

/-! ### One line -/

theorem strlwc_lower {s : List UInt8} (h : Lower s) (hshort : s.length ≤ ASCIILINESZ) : strlwc s = s := by
  rw [strlwc,List.take_of_length_le hshort]
  exact (List.map_congr_left h).trans (List.map_id s)

theorem strcrop_blanks {s blanks : List UInt8} (h : Trimmed s) (hblanks : ∀ c ∈ blanks, isSpace c) :
    strcrop (s ++ blanks) = s := by
  have hend : s.rdropWhile isSpace = s := by
    rcases List.eq_nil_or_concat s with rfl | ⟨t,c,rfl⟩
    · rfl
    · have hc := h.2 c (by simp)
      simp [hc]
  induction blanks using List.reverseRecOn with
  | nil => simpa [strcrop] using hend
  | append_singleton bs b ih =>
    rw [← List.append_assoc,strcrop,List.rdropWhile_concat_pos _ _ _ (hblanks b (by simp))]
    exact ih fun c hc => hblanks c (by simp [hc])

/-- A line that does not begin with a blank is read as it is. -/
theorem text_eq {s : List UInt8} (hzero : ∀ c ∈ s, c ≠ 0) (hfirst : ∀ c, s.head? = some c → isSpace c = false) :
    (s.takeWhile (· ≠ 0)).dropWhile isSpace = s := by
  rw [List.takeWhile_eq_self_iff.mpr (by simpa using hzero)]
  cases s with
  | nil => rfl
  | cons c s => simp [hfirst c rfl]

theorem blankLine (d : Dictionary) (f : IniFields) : iniparserLine (d,f) [10] = some (d,f) := by
  simp [iniparserLine,isSpace]

theorem secFormat_eq (h : SectionName sec) (f : IniFields) :
    sscanf secFormat (91::sec ++ [93,10]) f = ({ f with sec := sec },1) := by
  rw [secFormat,List.cons_append,sscanf_byte,sscanf_set (fun c hc => ?_) h.plain.1 fun c hc => ?_]
  · rfl
  · simpa using ne_of_mem_of_not_mem hc h.bracket
  · simpa using hc.symm

theorem sectionLine (hd : d.Sound m) (hfew : Few (Function.update m sec (some none))) (f : IniFields)
    (h : SectionName sec) :
    ∃ d' f', iniparserLine (d,f) (91::sec ++ [93,10]) = some (d',f') ∧ f'.sec = sec ∧
      d'.Sound (Function.update m sec (some none)) := by
  have htext : ((91::sec ++ [93,10]).takeWhile (· ≠ 0)).dropWhile isSpace = 91::sec ++ [93,10] := by
    refine text_eq (fun c hc => ?_) fun c hc => ?_
    · simp only [List.cons_append,List.mem_cons,List.mem_append] at hc
      rcases hc with rfl | hc | rfl | rfl | hc
      · decide
      · exact (h.plain.2 c hc).1
      · decide
      · decide
      · cases hc
    · cases hc
      rfl
  obtain ⟨d',hset,hsound⟩ := dictionarySet_sound hd sec none hfew
  refine ⟨d',{ f with sec := sec },?_,rfl,hsound⟩
  have hshort := h.short
  simp only [iniparserLine,htext]
  rw [if_neg (by simp),secFormat_eq h]
  simp [strlwc_lower h.lower (by omega),iniparserAddEntry,hset]

/-- The key of a line up to its equals sign, with the blanks that pad it. -/
theorem keyFormat_eq (h : KeyName key) {pad : List UInt8} (hpad : ∀ c ∈ pad, c = 32)
    {rest : List UInt8} (hrest : ∀ c, rest.head? = some c → isSpace c = false) (f : IniFields)
    (fmt : List (Directive IniFields)) :
    sscanf (keyFormat fmt) (key ++ pad ++ 61::[32] ++ rest) f =
      ((sscanf fmt rest { f with key := key ++ pad }).1,(sscanf fmt rest { f with key := key ++ pad }).2+1) := by
  have hkey : ∀ c ∈ key ++ pad, decide (c ≠ 61) = true := by
    intro c hc
    rcases List.mem_append.mp hc with hc | hc
    · simpa using ne_of_mem_of_not_mem hc h.equals
    · rw [hpad c hc]
      decide
  have hequals : ∀ x : IniFields, sscanf (.blank::.byte 61::.blank::fmt) (61::[32] ++ rest) x = sscanf fmt rest x := by
    intro x
    rw [sscanf_no_blank fun c hc => by cases hc; rfl,List.cons_append,sscanf_byte]
    exact sscanf_blank hrest (by simp [isSpace])
  rw [keyFormat,List.append_assoc,sscanf_set hkey (by simp [h.plain.1]) (fun c hc => by cases hc; rfl),hequals]

/-- A value without quotes is what the third format takes, its line end included. -/
theorem scanEntry_eq (h : EntryText key val) {pad : List UInt8} (hpad : ∀ c ∈ pad, c = 32) (f : IniFields) :
    scanEntry (key ++ pad ++ 61::[32] ++ (val ++ [10])) f =
      ({ f with key := key ++ pad, val := val ++ [10] },true) := by
  obtain ⟨v,vs,rfl⟩ := List.exists_cons_of_ne_nil h.text.plain.1
  have hfirst : ∀ c, ((v::vs) ++ [10]).head? = some c → isSpace c = false := by
    intro c hc
    exact h.text.trimmed.1 c hc
  have hquoted : ∀ q, q = 34 ∨ q = 39 → ∀ x : IniFields, sscanf (quotedFormat q) ((v::vs) ++ [10]) x = (x,0) := by
    intro q hq x
    refine sscanf_byte_ne fun hhead => ?_
    have hv : v = q := Option.some.inj hhead
    subst hv
    rcases hq with rfl | rfl
    · exact h.text.quotes.1 rfl
    · exact h.text.quotes.2 rfl
  have hplain : ∀ x : IniFields, sscanf plainFormat ((v::vs) ++ [10]) x = ({ x with val := (v::vs) ++ [10] },1) := by
    intro x
    have hall : ∀ c ∈ (v::vs) ++ [10], decide (c ≠ 59 ∧ c ≠ 35) = true := by
      intro c hc
      rcases List.mem_append.mp hc with hc | hc
      · exact decide_eq_true ⟨ne_of_mem_of_not_mem hc h.text.comment.1,ne_of_mem_of_not_mem hc h.text.comment.2⟩
      · rw [List.mem_singleton.mp hc]
        decide
    rw [plainFormat,← List.append_nil ((v::vs) ++ [10]),sscanf_set hall (by simp) fun c hc => by cases hc]
    simp [sscanf]
  simp only [scanEntry,keyFormat_eq h.name hpad hfirst,hquoted _ (.inl rfl),hquoted _ (.inr rfl),hplain]
  simp

theorem entryLine_eq (key val : List UInt8) : entryLine key val =
    key ++ (List.replicate (30-key.length) 32 ++ [32]) ++ 61::[32] ++ (val ++ [10]) := by
  simp [entryLine]

theorem length_entryLine (key val : List UInt8) :
    (entryLine key val).length = max key.length 30+3+val.length+1 := by
  simp [entryLine]
  omega

theorem entryLine_read (hd : d.Sound m) (hfew : Few (Function.update m (sec ++ 58::key) (some (some val))))
    (hf : f.sec = sec) (h : EntryText key val) :
    ∃ d' f', iniparserLine (d,f) (entryLine key val) = some (d',f') ∧ f'.sec = sec ∧
      d'.Sound (Function.update m (sec ++ 58::key) (some (some val))) := by
  have hpad : ∀ c ∈ List.replicate (30-key.length) (32 : UInt8) ++ [32], c = 32 := by
    intro c hc
    rcases List.mem_append.mp hc with hc | hc
    · exact List.eq_of_mem_replicate hc
    · exact List.mem_singleton.mp hc
  have hblank : ∀ c ∈ List.replicate (30-key.length) (32 : UInt8) ++ [32], isSpace c := by
    intro c hc
    rw [hpad c hc]
    rfl
  obtain ⟨k,ks,hk⟩ := List.exists_cons_of_ne_nil h.name.plain.1
  have hhead : (entryLine key val).head? = key.head? := by simp [entryLine,hk]
  have htext : ((entryLine key val).takeWhile (· ≠ 0)).dropWhile isSpace = entryLine key val := by
    refine text_eq (fun c hc => ?_) fun c hc => h.name.trimmed.1 c (hhead ▸ hc)
    simp only [entryLine,List.mem_append,List.mem_replicate,List.mem_cons,List.not_mem_nil,or_false] at hc
    rcases hc with (((hc | ⟨-,rfl⟩) | rfl | rfl | rfl) | hc) | rfl
    · exact (h.name.plain.2 c hc).1
    · decide
    · decide
    · decide
    · decide
    · exact (h.text.plain.2 c hc).1
    · decide
  have hsection : sscanf secFormat (entryLine key val) f = (f,0) := sscanf_byte_ne (by rw [hhead]; exact h.name.first.2.2)
  have hcrop : strcrop (val ++ [10]) = val := strcrop_blanks h.text.trimmed (by simp [isSpace])
  have hcropKey : strcrop (key ++ (List.replicate (30-key.length) 32 ++ [32])) = key :=
    strcrop_blanks h.name.trimmed hblank
  have hempty : ¬ (val ++ [10] = [34,34] ∨ val ++ [10] = [39,39]) := by
    rintro (heq | heq)
    · exact absurd (congrArg List.getLast? heq) (by simp)
    · exact absurd (congrArg List.getLast? heq) (by simp)
  have hshort := h.short
  obtain ⟨d',hset,hsound⟩ := dictionarySet_sound hd (sec ++ 58::key) (some val) hfew
  refine ⟨d',⟨f.sec,key,val⟩,?_,hf,hsound⟩
  simp only [iniparserLine,htext,hsection]
  rw [if_neg ?_,if_neg (by decide)]
  · rw [entryLine_eq,scanEntry_eq h hpad]
    simp only [if_true,hcropKey,if_neg hempty,hcrop,strlwc_lower h.name.lower (by omega),iniparserAddEntry,hf,hset]
    rfl
  · rw [hhead]
    rintro (heq | heq | heq)
    · exact h.name.first.1 heq
    · exact h.name.first.2.1 heq
    · rw [heq,hk] at hhead
      cases hhead

/-! ### All lines -/

/-- A map on some of its keys. -/
def restrict (m : List UInt8 → Option (Option (List UInt8))) (ks : List (List UInt8)) (key : List UInt8) :
    Option (Option (List UInt8)) :=
  if ks.contains key then m key else none

variable {ks : List (List UInt8)} {st : Dictionary × IniFields}

theorem update_restrict (m : List UInt8 → Option (Option (List UInt8))) (ks : List (List UInt8)) (key : List UInt8) :
    Function.update (restrict m ks) key (m key) = restrict m (key::ks) := by
  funext q
  by_cases hq : q = key
  · simp [restrict,hq]
  · simp [restrict,hq]

theorem Few.restrict (h : Few m) (ks : List (List UInt8)) : Few (restrict m ks) := by
  obtain ⟨S,hcard,hS⟩ := h
  refine ⟨S,hcard,fun key hkey => hS key fun hnone => hkey ?_⟩
  rw [Ini.restrict,hnone,ite_self]

theorem sectionEntry_eq_some {s : DictSlot} {l : List UInt8} (h : sectionEntry sec s = some l) :
    ∃ k, s.key = some (sec ++ 58::k) ∧ l = entryLine k (s.val.getD []) := by
  unfold sectionEntry at h
  cases hk : s.key with
  | none => simp [hk] at h
  | some key =>
    simp only [hk] at h
    split_ifs at h with htake
    refine ⟨key.drop (sec.length+1),?_,(Option.some.inj h).symm⟩
    rw [← List.take_append_drop (sec.length+1) key,htake]
    simp

theorem sectionEntry_entry {s : DictSlot} {k : List UInt8} (hk : s.key = some (sec ++ 58::k)) :
    sectionEntry sec s = some (entryLine k (s.val.getD [])) := by
  have htake : (sec ++ 58::k).take (sec.length+1) = sec ++ [58] := by simp [List.take_append]
  have hdrop : (sec ++ 58::k).drop (sec.length+1) = k := by simp [List.drop_append]
  simp only [sectionEntry,hk,htake,hdrop,if_true]

/-- A key is cut at its first colon. -/
theorem colon_inj {sec' k k' : List UInt8} (hsec : 58 ∉ sec) (hsec' : 58 ∉ sec')
    (heq : sec ++ 58::k = sec' ++ 58::k') : sec = sec' ∧ k = k' := by
  have hcut : ∀ s t : List UInt8, 58 ∉ s → (s ++ 58::t).takeWhile (· ≠ 58) = s := by
    intro s t hs
    rw [List.takeWhile_append_of_pos fun c hc => by simpa using ne_of_mem_of_not_mem hc hs]
    simp
  have hsame := congrArg (List.takeWhile (· ≠ 58)) heq
  rw [hcut sec k hsec,hcut sec' k' hsec'] at hsame
  subst hsame
  exact ⟨rfl,by simpa using heq⟩

/-- What the map says about the entry of a slot. -/
theorem IniText.entry (hm : IniText m) (hsec : 58 ∉ sec) {k : List UInt8} {val' : Option (List UInt8)}
    (hval : m (sec ++ 58::k) = some val') :
    ∃ v, EntryText k v ∧ val' = some v := by
  rcases hm _ _ hval with ⟨hno,-⟩ | ⟨sec',k',v,heq,hsec',-,htext,hv⟩
  · exact absurd (by simp) hno
  · obtain ⟨-,rfl⟩ := colon_inj hsec hsec' heq
    exact ⟨v,htext,hv⟩

/-- A dictionary with some of the keys, in the middle of a section. -/
structure Reading (m : List UInt8 → Option (Option (List UInt8))) (sec : List UInt8) (ks : List (List UInt8))
    (st : Dictionary × IniFields) : Prop where
  sound : st.1.Sound (restrict m ks)
  sec : st.2.sec = sec
  few : Few m

theorem Reading.entry (h : Reading m sec ks st) {k v : List UInt8} (htext : EntryText k v)
    (hval : m (sec ++ 58::k) = some (some v)) :
    ∃ st', iniparserLine st (entryLine k v) = some st' ∧ Reading m sec ((sec ++ 58::k)::ks) st' := by
  have hfew := h.few.restrict ((sec ++ 58::k)::ks)
  rw [← update_restrict,hval] at hfew
  obtain ⟨d',f',hline,hsec,hsound⟩ := entryLine_read h.sound hfew h.sec htext
  rw [← hval,update_restrict] at hsound
  exact ⟨(d',f'),hline,hsound,hsec,h.few⟩

theorem Reading.section {sec' : List UInt8} (h : Reading m sec' ks st) (hname : SectionName sec)
    (hval : m sec = some none) :
    ∃ st', iniparserLine st (91::sec ++ [93,10]) = some st' ∧ Reading m sec (sec::ks) st' := by
  have hfew := h.few.restrict (sec::ks)
  rw [← update_restrict,hval] at hfew
  obtain ⟨d',f',hline,hsec,hsound⟩ := sectionLine h.sound hfew st.2 hname
  rw [← hval,update_restrict] at hsound
  exact ⟨(d',f'),hline,hsound,hsec,h.few⟩

theorem Reading.entries (hm : IniText m) (hsec : 58 ∉ sec) (slots : List DictSlot)
    (hslots : ∀ s ∈ slots, ∀ key, s.key = some key → m key = some s.val) (h : Reading m sec ks st) :
    ∃ st' ks', (slots.filterMap (sectionEntry sec)).foldlM iniparserLine st = some st' ∧ Reading m sec ks' st' ∧
      ks ⊆ ks' ∧ ∀ s ∈ slots, ∀ k, s.key = some (sec ++ 58::k) → sec ++ 58::k ∈ ks' := by
  induction slots generalizing st ks with
  | nil => exact ⟨st,ks,rfl,h,fun _ hk => hk,fun s hs => by cases hs⟩
  | cons s slots ih =>
    have hrest := fun t ht => hslots t (List.mem_cons_of_mem s ht)
    cases hentry : sectionEntry sec s with
    | none =>
      obtain ⟨st',ks',hfold,hread,hsub,hall⟩ := ih hrest h
      refine ⟨st',ks',by rw [List.filterMap_cons_none hentry,hfold],hread,hsub,fun t ht k hk => ?_⟩
      rcases List.mem_cons.mp ht with rfl | ht
      · rw [sectionEntry_entry hk] at hentry
        cases hentry
      · exact hall t ht k hk
    | some l =>
      obtain ⟨k,hk,rfl⟩ := sectionEntry_eq_some hentry
      have hval := hslots s List.mem_cons_self _ hk
      obtain ⟨v,htext,hv⟩ := hm.entry hsec hval
      obtain ⟨st₁,hline,hfirst⟩ := h.entry htext (by rw [hval,hv])
      obtain ⟨st',ks',hfold,hread,hsub,hall⟩ := ih hrest hfirst
      refine ⟨st',ks',?_,hread,fun q hq => hsub (List.mem_cons_of_mem _ hq),fun t ht k' hk' => ?_⟩
      · rw [List.filterMap_cons_some hentry,List.foldlM_cons,hv,Option.getD_some,hline]
        exact hfold
      · rcases List.mem_cons.mp ht with rfl | ht
        · rw [Option.some.inj (hk'.symm.trans hk)]
          exact hsub List.mem_cons_self
        · exact hall t ht k' hk'

/-- One section with all its entries. -/
theorem Reading.sectionLines {sec' : List UInt8} (hm : IniText m) (hd : d.Sound m) (hname : SectionName sec)
    (hsec : 58 ∉ sec) (hval : m sec = some none) (h : Reading m sec' ks st) :
    ∃ st' ks', (sectionLines d sec).foldlM iniparserLine st = some st' ∧ Reading m sec ks' st' ∧ ks ⊆ ks' ∧
      sec ∈ ks' ∧ ∀ s ∈ d.slots, ∀ k, s.key = some (sec ++ 58::k) → sec ++ 58::k ∈ ks' := by
  obtain ⟨st₁,hline,hfirst⟩ := h.section hname hval
  have hslots : ∀ s ∈ d.slots, ∀ key, s.key = some key → m key = some s.val := by
    intro s hs key hk
    obtain ⟨i,hi⟩ := List.mem_iff_getElem?.mp hs
    exact hd.at_iff hi hk
  obtain ⟨st',ks',hfold,hread,hsub,hall⟩ := hfirst.entries hm hsec d.slots hslots
  refine ⟨st',ks',?_,hread,fun q hq => hsub (List.mem_cons_of_mem _ hq),hsub List.mem_cons_self,hall⟩
  rw [Ini.sectionLines,List.foldlM_cons,blankLine]
  change (_::_ : List (List UInt8)).foldlM iniparserLine st = _
  rw [List.foldlM_cons,hline]
  exact hfold

theorem reading_sections (hm : IniText m) (hd : d.Sound m) (secs : List (List UInt8))
    (hsecs : ∀ sec ∈ secs, SectionName sec ∧ 58 ∉ sec ∧ m sec = some none) {sec' : List UInt8}
    (h : Reading m sec' ks st) :
    ∃ st' ks' sec'', (secs.flatMap (sectionLines d)).foldlM iniparserLine st = some st' ∧ Reading m sec'' ks' st' ∧
      ks ⊆ ks' ∧ ∀ sec ∈ secs, sec ∈ ks' ∧ ∀ s ∈ d.slots, ∀ k, s.key = some (sec ++ 58::k) → sec ++ 58::k ∈ ks' := by
  induction secs generalizing st ks sec' with
  | nil => exact ⟨st,ks,sec',rfl,h,fun _ hk => hk,fun sec hsec => by cases hsec⟩
  | cons sec secs ih =>
    obtain ⟨hname,hcolon,hval⟩ := hsecs sec List.mem_cons_self
    obtain ⟨st₁,ks₁,hfirst,hread₁,hsub₁,hmem₁,hall₁⟩ := h.sectionLines hm hd hname hcolon hval
    obtain ⟨st',ks',sec'',hrest,hread,hsub,hall⟩ := ih (fun t ht => hsecs t (List.mem_cons_of_mem _ ht)) hread₁
    refine ⟨st',ks',sec'',?_,hread,fun q hq => hsub (hsub₁ hq),fun t ht => ?_⟩
    · rw [List.flatMap_cons,List.foldlM_append,hfirst]
      exact hrest
    · rcases List.mem_cons.mp ht with rfl | ht
      · exact ⟨hsub hmem₁,fun s hs k hk => hsub (hall₁ s hs k hk)⟩
      · exact hall t ht

/-! ### The file -/

theorem mem_iniparserSections : sec ∈ iniparserSections d ↔ (∃ s ∈ d.slots, s.key = some sec) ∧ 58 ∉ sec := by
  simp [iniparserSections]

/-- The sections and the entries that are read are all there are. -/
theorem restrict_all (hm : IniText m) (hd : d.Sound m)
    (hsecs : ∀ sec ∈ iniparserSections d, sec ∈ ks ∧
      ∀ s ∈ d.slots, ∀ k, s.key = some (sec ++ 58::k) → sec ++ 58::k ∈ ks) : restrict m ks = m := by
  have hslot : ∀ {key : List UInt8} {val : Option (List UInt8)}, m key = some val → ∃ s ∈ d.slots, s.key = some key := by
    intro key val hval
    obtain ⟨i,s,hi,hk,-⟩ := hd.found hval
    exact ⟨s,List.mem_of_getElem? hi,hk⟩
  funext key
  rw [restrict,ite_eq_left_iff,List.contains_iff_mem]
  intro hkey
  by_contra hne
  obtain ⟨val,hval⟩ := Option.ne_none_iff_exists'.mp (Ne.symm hne)
  rcases hm key val hval with ⟨hcolon,-⟩ | ⟨sec,k,v,rfl,hcolon,hsec,-⟩
  · exact hkey (hsecs key (mem_iniparserSections.mpr ⟨hslot hval,hcolon⟩)).1
  · obtain ⟨s,hs,hk⟩ := hslot hval
    exact hkey ((hsecs sec (mem_iniparserSections.mpr ⟨hslot hsec,hcolon⟩)).2 s hs k hk)

theorem section_text (hm : IniText m) (hd : d.Sound m) (hsec : sec ∈ iniparserSections d) :
    SectionName sec ∧ 58 ∉ sec ∧ m sec = some none := by
  obtain ⟨⟨s,hs,hk⟩,hcolon⟩ := mem_iniparserSections.mp hsec
  obtain ⟨i,hi⟩ := List.mem_iff_getElem?.mp hs
  have hval := hd.at_iff hi hk
  rcases hm sec _ hval with ⟨-,hname,hnone⟩ | ⟨sec',k,v,rfl,-⟩
  · exact ⟨hname,hcolon,hnone ▸ hval⟩
  · exact absurd (by simp) hcolon

theorem sectionLines_whole (hm : IniText m) (hd : d.Sound m) (hsec : sec ∈ iniparserSections d) {l : List UInt8}
    (hl : l ∈ sectionLines d sec) : ∃ p, l = p ++ [10] ∧ 10 ∉ p ∧ l.length ≤ ASCIILINESZ-1 := by
  obtain ⟨hname,hcolon,-⟩ := section_text hm hd hsec
  simp only [sectionLines,List.mem_cons,List.mem_filterMap] at hl
  rcases hl with rfl | rfl | ⟨s,hs,hentry⟩
  · exact ⟨[],rfl,List.not_mem_nil,by decide⟩
  · refine ⟨91::sec ++ [93],by simp,fun hc => ?_,?_⟩
    · simp only [List.cons_append,List.mem_cons,List.mem_append] at hc
      rcases hc with hc | hc | hc | hc
      · cases hc
      · exact (hname.plain.2 10 hc).2 rfl
      · cases hc
      · cases hc
    · have hshort := hname.short
      simp
      omega
  · obtain ⟨k,hk,rfl⟩ := sectionEntry_eq_some hentry
    obtain ⟨i,hi⟩ := List.mem_iff_getElem?.mp hs
    obtain ⟨v,htext,hv⟩ := hm.entry hcolon (hd.at_iff hi hk)
    rw [hv,Option.getD_some]
    refine ⟨_,rfl,fun hc => ?_,?_⟩
    · simp only [List.mem_append,List.mem_replicate,List.mem_cons,List.not_mem_nil,or_false] at hc
      rcases hc with ((hc | ⟨-,hc⟩) | hc | hc | hc) | hc
      · exact (htext.name.plain.2 10 hc).2 rfl
      · cases hc
      · cases hc
      · cases hc
      · cases hc
      · exact (htext.text.plain.2 10 hc).2 rfl
    · have hshort := htext.short
      rw [length_entryLine]
      omega

/-- Every line that is written is read as one. -/
theorem dump_lines (hm : IniText m) (hd : d.Sound m) :
    pieces 10 (ASCIILINESZ-1) ((iniparserSections d).flatMap (sectionLines d) ++ [[10]]).flatten =
      (iniparserSections d).flatMap (sectionLines d) ++ [[10]] := by
  refine pieces_flatten fun l hl => ?_
  rcases List.mem_append.mp hl with hl | hl
  · obtain ⟨sec,hsec,hl⟩ := List.mem_flatMap.mp hl
    exact sectionLines_whole hm hd hsec hl
  · rw [List.mem_singleton.mp hl]
    exact ⟨[],rfl,List.not_mem_nil,by decide⟩

/-- Where there is no section there is no entry. -/
theorem looseLines_nil (hm : IniText m) (hd : d.Sound m) (hsecs : iniparserSections d = []) : looseLines d = [] := by
  have hnone : ∀ sec, 58 ∉ sec → m sec = none := by
    intro sec hcolon
    by_contra hne
    obtain ⟨val,hval⟩ := Option.ne_none_iff_exists'.mp hne
    obtain ⟨i,s,hi,hk,-⟩ := hd.found hval
    have hmem : sec ∈ iniparserSections d := mem_iniparserSections.mpr ⟨⟨s,List.mem_of_getElem? hi,hk⟩,hcolon⟩
    rw [hsecs] at hmem
    cases hmem
  refine List.filterMap_eq_nil_iff.mpr fun s hs => Option.map_eq_none_iff.mpr ?_
  by_contra hne
  obtain ⟨key,hk⟩ := Option.ne_none_iff_exists'.mp hne
  obtain ⟨i,hi⟩ := List.mem_iff_getElem?.mp hs
  have hval := hd.at_iff hi hk
  rcases hm key s.val hval with ⟨hcolon,-⟩ | ⟨sec,k,v,-,hcolon,hsec,-⟩
  · simp [hnone key hcolon] at hval
  · simp [hnone sec hcolon] at hsec

/-- What is written for a map is read as the map. -/
theorem ini_reload (hm : IniText m) (hfew : Few m) (hd : d.Sound m) :
    ∃ d', iniparserNew (iniparserDumpIni d) = some d' ∧ d'.Sound m := by
  have hnew : Reading m [] [] (dictionaryNew 0,⟨[],[],[]⟩) := by
    refine ⟨?_,rfl,hfew⟩
    have hnone : restrict m [] = fun _ => none := by
      funext key
      simp [restrict]
    rw [hnone]
    exact dictionaryNew_sound 0
  obtain ⟨st,ks,sec,hfold,hread,-,hall⟩ :=
    reading_sections hm hd (iniparserSections d) (fun sec hsec => section_text hm hd hsec) hnew
  have hsound := hread.sound
  rw [restrict_all hm hd hall] at hsound
  refine ⟨st.1,?_,hsound⟩
  rw [iniparserDumpIni]
  split_ifs with hsecs
  · rw [hsecs] at hfold
    rw [looseLines_nil hm hd hsecs,← Option.some.inj hfold]
    simp [iniparserNew]
  · rw [iniparserNew,dump_lines hm hd,List.foldlM_append,hfold]
    simp [blankLine st.1 st.2]

/-- Sections and entries that fit on their lines survive being written to a file and read from it: a
dictionary that any entries have been set in and deleted from is written as a file that gives every entry
the answer it had. -/
theorem ini_round_trip (size : ℕ) (ops : List IniOp) (hm : IniText (ops.foldl IniOp.apply fun _ => none))
    (hfew : ∀ k, k <+: ops → Few (k.foldl IniOp.apply fun _ => none)) :
    ∃ d d', ops.foldlM IniOp.run (dictionaryNew size) = some d ∧ iniparserNew (iniparserDumpIni d) = some d' ∧
      ∀ entry, dictionaryHash (strlwc entry) ≠ 0 → iniparserGetstring d' entry = iniparserGetstring d entry := by
  obtain ⟨d,hrun,hd⟩ := iniOps_sound ops (dictionaryNew_sound size) hfew
  obtain ⟨d',hread,hd'⟩ := ini_reload hm (hfew ops List.prefix_rfl) hd
  refine ⟨d,d',hrun,hread,fun entry hne => ?_⟩
  have hfinds : ∀ t : Dictionary, t.Finds (strlwc entry) := fun t hzero => absurd hzero hne
  rw [iniparserGetstring,iniparserGetstring,(dictionaryGet_iff hd' _).mpr (hfinds d'),
    (dictionaryGet_iff hd _).mpr (hfinds d)]

/-- `[a]` with `b = c` -/
theorem ini_round_trip_section : ∃ d d', [IniOp.setstr [97] none,.setstr [97,58,98] (some [99])].foldlM IniOp.run
      (dictionaryNew 0) = some d ∧ iniparserNew (iniparserDumpIni d) = some d' ∧
    ∀ entry, dictionaryHash (strlwc entry) ≠ 0 → iniparserGetstring d' entry = iniparserGetstring d entry := by
  refine ini_round_trip 0 _ (fun key val hval => ?_) fun k hk => few_of_length (by decide) hk
  have hsec : strlwc [97] = [97] := by decide
  have hkey : strlwc [97,58,98] = [97,58,98] := by decide
  simp only [List.foldl_cons,List.foldl_nil,IniOp.apply,hsec,hkey,Function.update_apply] at hval ⊢
  split_ifs at hval with hb ha
  · subst hb
    refine .inr ⟨[97],[98],[99],rfl,by decide,by simp,⟨⟨⟨?_,?_⟩,?_,⟨?_,?_⟩,?_,?_⟩,⟨⟨?_,?_⟩,⟨?_,?_⟩,?_,?_⟩,?_⟩,?_⟩ <;>
      simp_all [Lower,toLower,isSpace,ASCIILINESZ]
  · subst ha
    refine .inl ⟨by decide,⟨⟨?_,?_⟩,?_,?_,?_⟩,(Option.some.inj hval).symm⟩ <;> simp [Lower,toLower,ASCIILINESZ]

end Sbase.Ini
