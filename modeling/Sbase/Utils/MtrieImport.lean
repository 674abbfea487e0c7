import Mathlib.Data.List.DropRight
import Mathlib.Data.UInt
import Sbase.Lib.Lines
import Sbase.Lib.Memory
import Sbase.Utils.MtrieFind

/-! `mtrie_import`: a dictionary read line by line through a buffer of `MTRIE_WORD_MAX` bytes.

The file is the list of its bytes. A byte outside the buffer that is read or written, and a counter of the
trie beyond the range of an `int`, leave no result. -/
namespace Sbase
open Lines Memory Runs

def MTRIE_WORD_MAX : ℕ := 4096

/-- What `fgets` leaves out of the buffer: `mtrie_import` gives it one byte less than there is, and it
keeps one for the terminator. -/
def MTRIE_WORD_READ : ℕ := MTRIE_WORD_MAX - 1 - 1

/-- `'\r'` or `'\n'` -/
def isEol (b : UInt8) : Bool := b = 13 ∨ b = 10

/-- The loop that takes the line end off the `n` bytes of `word`. It reads `word[-1]` when none is left. -/
def mtrieTrim (word : Block UInt8) : ℕ → Option (Block UInt8 × ℕ)
  | 0 => none
  | n+1 => if isEol (word n) then mtrieTrim (Function.update word n 0) n else some (word,n+1)

/-- `mtrie_rxadd` or `mtrie_xadd`, as the direction says. -/
def mtrieImportKey (direction : ℤ) (t : Mtrie) (key : List UInt8) : Option Mtrie :=
  let t := if direction < 0 then (Down.mtrieRxadd t key).1 else (mtrieXadd t key).1
  if t.Overflowed then none else some t

/-- The body of the loop of `mtrie_import`, after `fgets` has read some bytes. -/
def mtrieImportLine (direction : ℤ) (t : Mtrie) (bytes : List UInt8) : Option Mtrie :=
  if MTRIE_WORD_MAX < bytes.length + 1 then none
  else
    let word := write (fun _ => 0) 0 (bytes ++ [0])
    let n := (cstr word 0 MTRIE_WORD_MAX).length
    (mtrieTrim word n).bind fun r => mtrieImportKey direction t (read r.1 0 r.2)

/-- `mtrie_import` -/
def mtrieImport (direction : ℤ) (t : Mtrie) (file : List UInt8) : Option Mtrie :=
  if h : file = [] then some t
  else
    let r := readLine 10 MTRIE_WORD_READ file
    (mtrieImportLine direction t r.1).bind fun t => mtrieImport direction t r.2
termination_by file.length
decreasing_by
  have hlen := readLine_length (e := 10) MTRIE_WORD_READ file
  have hpos := readLine_pos (e := 10) (n := MTRIE_WORD_READ) (by decide) h
  omega

/-! ### What a dictionary is to hold -/

/-- The bytes of a key in the order in which they are read. -/
def orient (direction : ℤ) (key : List UInt8) : List UInt8 :=
  if direction < 0 then key.reverse else key

/-- The key of a line: its bytes without the line end, reversed when the direction says so. -/
def lineKey (direction : ℤ) (line : List UInt8) : List UInt8 :=
  orient direction (line.rdropWhile isEol)

/-- A call of `mtrie_import`. -/
structure Load where
  direction : ℤ
  file : List UInt8

namespace Load

/-- The key is that of a line which fits the buffer with its terminator. -/
def Names (l : Load) (key : List UInt8) : Prop :=
  key ≠ [] ∧ ∃ line ∈ lines 10 l.file, line.length < MTRIE_WORD_MAX ∧ lineKey l.direction line = key

/-- The key is a part of a longer line. -/
def Cuts (l : Load) (key : List UInt8) : Prop :=
  ∃ line ∈ lines 10 l.file, MTRIE_WORD_MAX ≤ line.length ∧ orient l.direction key <:+: line

end Load

/-- The calls one after the other. -/
def mtrieImports (t : Mtrie) (loads : List Load) : Option Mtrie :=
  loads.foldlM (fun t l => mtrieImport l.direction t l.file) t

/-- Every line that fits the buffer has one id, distinct ones have distinct ids, all ids that were given
out are in use, and nothing else is stored but parts of lines that do not fit. -/
structure Dictionary (loads : List Load) (t : Mtrie) : Prop where
  named : ∀ l ∈ loads, ∀ key, l.Names key → t.Stored key
  only : ∀ key, t.Stored key → ∃ l ∈ loads, l.Names key ∨ l.Cuts key
  single : ∀ key v v', t.Holds key v → t.Holds key v' → v = v'
  distinct : ∀ key key' v, t.Holds key v → t.Holds key' v → key = key'
  ids : ∀ v, (∃ key, t.Holds key v) ↔ 0 < v ∧ v ≤ t.id

/-! ### What is read -/

/-- The key that is made of the bytes read by a call of `fgets`: those before the first zero byte. -/
def pieceKey (direction : ℤ) (bytes : List UInt8) : List UInt8 :=
  lineKey direction (bytes.takeWhile (· ≠ 0))

namespace Load

/-- The keys of a file, each as `fgets` reads it: by line, or in parts of a line that is too long. -/
def keys (l : Load) : List (List UInt8) :=
  (pieces 10 MTRIE_WORD_READ l.file).map (pieceKey l.direction)

/-- Whatever `fgets` reads has a byte in front of its line end and its first zero byte; no line that fits
the buffer has a zero byte, or is too long by one byte for `fgets`. -/
structure Clean (l : Load) : Prop where
  added : ∀ key ∈ l.keys, key ≠ []
  fitting : ∀ line ∈ lines 10 l.file, line.length < MTRIE_WORD_MAX →
    0 ∉ line ∧ line.length ≠ MTRIE_WORD_MAX - 1

end Load

section

variable {word : Block UInt8} {n : ℕ} {t : Mtrie} {direction : ℤ} {bytes file : List UInt8}

@[simp] theorem orient_orient (direction : ℤ) (key : List UInt8) :
    orient direction (orient direction key) = key := by
  unfold orient
  split_ifs
  · exact List.reverse_reverse key
  · rfl

@[simp] theorem mem_orient {b : UInt8} : b ∈ orient direction bytes ↔ b ∈ bytes := by
  unfold orient
  split_ifs
  · exact List.mem_reverse
  · exact Iff.rfl

@[simp] theorem length_orient (direction : ℤ) (key : List UInt8) :
    (orient direction key).length = key.length := by
  unfold orient
  split_ifs
  · exact List.length_reverse
  · rfl

@[simp] theorem orient_eq_nil : orient direction bytes = [] ↔ bytes = [] := by
  rw [← List.length_eq_zero_iff,length_orient,List.length_eq_zero_iff]

theorem mtrieTrim_eq (word : Block UInt8) (n : ℕ) :
    (mtrieTrim word n).map (fun r => read r.1 0 r.2) =
      if (read word 0 n).rdropWhile isEol = [] then none else some ((read word 0 n).rdropWhile isEol) := by
  induction n generalizing word with
  | zero => rfl
  | succ n ih =>
    have hread : read word 0 (n+1) = read word 0 n ++ [word n] := by
      rw [read_append word 0 n 1]
      simp [read_succ]
    rw [mtrieTrim,hread,List.rdropWhile_concat]
    by_cases heol : isEol (word n) = true
    · have hkeep : read (Function.update word n 0) 0 n = read word 0 n :=
        read_congr fun i _ hi => Function.update_of_ne (by omega) _ _
      rw [if_pos heol,if_pos heol,ih,hkeep]
    · rw [if_neg heol,if_neg heol,if_neg (by simp),Option.map_some,hread]

/-- The string that is left in the buffer. -/
theorem mtrieImportLine_eq (h : bytes.length ≤ MTRIE_WORD_READ) :
    mtrieImportLine direction t bytes = if pieceKey direction bytes = [] then none
      else mtrieImportKey direction t ((bytes.takeWhile (· ≠ 0)).rdropWhile isEol) := by
  have hmax : MTRIE_WORD_READ + 2 = MTRIE_WORD_MAX := rfl
  set s := bytes.takeWhile (· ≠ 0) with hs
  have hroom : ¬ MTRIE_WORD_MAX < bytes.length + 1 := by omega
  have hprefix : s = bytes.take s.length := List.prefix_iff_eq_take.mp (List.takeWhile_prefix _)
  have hbytes : read (write (fun _ => 0) 0 (bytes ++ [0])) 0 bytes.length = bytes :=
    read_write_take _ _ _ _
  have hend : write (fun _ => 0) 0 (bytes ++ [(0 : UInt8)]) (0 + bytes.length) = 0 := by
    simp [write]
  have hcstr : cstr (write (fun _ => 0) 0 (bytes ++ [0])) 0 MTRIE_WORD_MAX = s := by
    rw [cstr_eq_takeWhile _ 0 bytes.length MTRIE_WORD_MAX hend (by omega),hbytes]
  have hread : read (write (fun _ => 0) 0 (bytes ++ [0])) 0 s.length = s := by
    rw [← take_read _ 0 (List.takeWhile_prefix _).length_le,hbytes,← hprefix]
  have htrim := mtrieTrim_eq (write (fun _ => 0) 0 (bytes ++ [0])) s.length
  rw [hread] at htrim
  rw [mtrieImportLine,if_neg hroom]
  dsimp only
  rw [hcstr]
  have hkey : pieceKey direction bytes = [] ↔ s.rdropWhile isEol = [] := orient_eq_nil
  by_cases hempty : s.rdropWhile isEol = []
  · rw [if_pos hempty] at htrim
    rw [Option.map_eq_none_iff.mp htrim,if_pos (hkey.mpr hempty)]
    rfl
  · rw [if_neg hempty] at htrim
    obtain ⟨r,hr,hrest⟩ := Option.map_eq_some_iff.mp htrim
    rw [hr,if_neg (hkey.not.mpr hempty),Option.bind_some,hrest]

theorem mtrieImport_eq (direction : ℤ) (t : Mtrie) (file : List UInt8) :
    mtrieImport direction t file = (pieces 10 MTRIE_WORD_READ file).foldlM (mtrieImportLine direction) t := by
  induction t, file using mtrieImport.induct with
  | case1 t =>
    rw [mtrieImport,dif_pos rfl,pieces_nil]
    rfl
  | case2 t file h r ih =>
    rw [mtrieImport,dif_neg h,pieces_eq (by decide) h,List.foldlM_cons]
    exact Option.bind_congr fun t' _ => ih t'

end

/-! ### The ids -/

/-- A map whose keys are those of a finite set, with the ids from 1 on. -/
structure Numbered (a : KeyMap) (keys : Finset (List UInt8)) : Prop where
  value : ∀ key, a.value key ≠ 0 ↔ key ∈ keys
  id : a.id = keys.card
  range : ∀ v, (∃ key ∈ keys, a.value key = v) ↔ 0 < v ∧ v ≤ a.id
  distinct : ∀ key ∈ keys, ∀ key' ∈ keys, a.value key = a.value key' → key = key'

section

variable {t : Mtrie} {a : KeyMap} {keys : Finset (List UInt8)} {key : List UInt8}

theorem Numbered.empty : Numbered ⟨fun _ => 0,0⟩ ∅ where
  value key := by simp
  id := rfl
  range v := by
    constructor
    · rintro ⟨key,hkey,-⟩
      cases hkey
    · intro hv
      dsimp only at hv
      omega
  distinct key hkey := by cases hkey

/-- A new key is given the next id. -/
theorem Numbered.insert (h : Numbered a keys) (hkey : key ∉ keys) :
    Numbered ⟨Function.update a.value key (a.id + 1),a.id + 1⟩ (insert key keys) := by
  generalize hvalue : Function.update a.value key (a.id + 1) = value
  have hself : value key = a.id + 1 := by rw [← hvalue,Function.update_self]
  have hother : ∀ k, k ≠ key → value k = a.value k := by
    intro k hk
    rw [← hvalue,Function.update_of_ne hk]
  have hold : ∀ k ∈ keys, value k = a.value k ∧ 0 < a.value k ∧ a.value k ≤ a.id := by
    intro k hk
    refine ⟨hother k fun heq => hkey (heq ▸ hk),(h.range _).mp ⟨k,hk,rfl⟩⟩
  have hid : 0 ≤ a.id := by
    rw [h.id]
    exact Int.natCast_nonneg _
  refine ⟨fun k => ?_,?_,fun v => ⟨?_,?_⟩,?_⟩
  · dsimp only
    rw [Finset.mem_insert]
    by_cases heq : k = key
    · rw [heq,hself]
      exact iff_of_true (by omega) (.inl rfl)
    · rw [hother k heq,h.value]
      exact ⟨.inr,fun hmem => hmem.resolve_left heq⟩
  · rw [Finset.card_insert_of_notMem hkey,Nat.cast_succ,← h.id]
  · rintro ⟨k,hk,rfl⟩
    dsimp only
    rcases Finset.mem_insert.mp hk with rfl | hk
    · omega
    · have hk := hold k hk
      omega
  · rintro ⟨hpos,hle⟩
    by_cases hlast : v = a.id + 1
    · exact ⟨key,Finset.mem_insert_self _ _,hself.trans hlast.symm⟩
    · dsimp only at hle
      obtain ⟨k,hk,rfl⟩ := (h.range v).mpr ⟨hpos,by omega⟩
      exact ⟨k,Finset.mem_insert_of_mem hk,(hold k hk).1⟩
  · intro k hk k' hk' heq
    dsimp only at heq
    rcases Finset.mem_insert.mp hk with rfl | hmem
    · rcases Finset.mem_insert.mp hk' with rfl | hmem'
      · rfl
      · have hvalue' := hold k' hmem'
        omega
    · rcases Finset.mem_insert.mp hk' with rfl | hmem'
      · have hvalue := hold k hmem
        omega
      · rw [(hold k hmem).1,(hold k' hmem').1] at heq
        exact h.distinct k hmem k' hmem' heq

/-- Adding a key. -/
theorem Numbered.store (h : Mapped t a) (hn : Numbered a keys) (hkey : key ≠ []) (fail : ℤ) :
    ∃ a', Mapped (mtrieStore fail nextId t key).1 a' ∧ Numbered a' (Insert.insert key keys) := by
  by_cases hmem : key ∈ keys
  · rw [Finset.insert_eq_of_mem hmem]
    exact ⟨a,(h.keep hkey ((hn.value key).mpr hmem) fail).2,hn⟩
  · have hzero : a.value key = 0 := by
      by_contra hvalue
      exact hmem ((hn.value key).mp hvalue)
    exact ⟨_,(h.issue hkey hzero fail).2,hn.insert hmem⟩

/-- The trie after a key has been imported. -/
def importNext (t : Mtrie) (key : List UInt8) : Mtrie := (mtrieXadd t key).1

/-- The nodes of every key that is imported are within an `int`. -/
def ImportFits : Mtrie → List (List UInt8) → Prop := Allowed Mtrie.Room importNext

/-- A result under a condition, a trie with the keys of a set, and no result otherwise. -/
def Yields (res : Option Mtrie) (ok : Prop) (keys : Finset (List UInt8)) : Prop :=
  (ok → ∃ t a, res = some t ∧ Mapped t a ∧ Numbered a keys) ∧ (¬ ok → res = none)

/-- What is returned where no block is found does not matter to the trie. -/
theorem mtrieStore_fail (fail fail' : ℤ) (issue : Mtrie → Mtrie × ℤ) (t : Mtrie) (key : List UInt8) :
    (mtrieStore fail issue t key).1 = (mtrieStore fail' issue t key).1 := by
  cases key with
  | nil => rfl
  | cons b bs =>
    rw [mtrieStore,mtrieStore]
    dsimp only
    cases (mtrieWalk t b.toNat bs).2 with
    | none => rfl
    | some i => rfl

theorem mtrieImportKey_eq (direction : ℤ) (t : Mtrie) (key : List UInt8) :
    mtrieImportKey direction t key = if (importNext t (orient direction key)).Overflowed then none
      else some (importNext t (orient direction key)) := by
  by_cases hneg : direction < 0
  · rw [mtrieImportKey,orient,if_pos hneg,if_pos hneg,Down.mtrieRxadd,rstore_eq,
      mtrieStore_fail (-1) (-3)]
    rfl
  · rw [mtrieImportKey,orient,if_neg hneg,if_neg hneg]
    rfl

/-- An import overflows an `int` exactly where it makes too many keys, or needs too many nodes. -/
theorem Numbered.importNext (h : Mapped t a) (hn : Numbered a keys) (hsize : ArraySized t)
    (hint : ¬ t.Overflowed) (hkey : key ≠ []) :
    (∃ a', Mapped (Sbase.importNext t key) a' ∧ Numbered a' (Insert.insert key keys)) ∧
      ArraySized (Sbase.importNext t key) ∧ ((Sbase.importNext t key).Overflowed ↔
        ¬ ((Insert.insert key keys).card ≤ MTRIE_INT_MAX ∧ t.Room key)) := by
  obtain ⟨own,bins,hlaid⟩ := h.laid
  obtain ⟨a',ha',hn'⟩ := hn.store h hkey (-3)
  have htotal := hlaid.store_total hsize (-3) nextId (fun _ => ⟨rfl,rfl⟩)
    (fun h => h.setId _) key
  refine ⟨⟨a',ha',hn'⟩,(h.number hsize hint (-3) key).1,?_⟩
  have hid : (Sbase.importNext t key).id = (Insert.insert key keys).card := ha'.id.trans hn'.id
  rw [Mtrie.Overflowed,hid,not_and_or,not_le,Nat.cast_lt,or_comm]
  exact or_congr_right htotal

/-- What `fgets` has read, in files of either direction, one after the other. -/
theorem Numbered.importLines (h : Mapped t a) (hn : Numbered a keys) (hsize : ArraySized t)
    (hint : ¬ t.Overflowed) {xs : List (ℤ × List UInt8)} (hxs : ∀ x ∈ xs, x.2.length ≤ MTRIE_WORD_READ) :
    Yields (xs.foldlM (fun t x => mtrieImportLine x.1 t x.2) t)
      ((∀ x ∈ xs, pieceKey x.1 x.2 ≠ []) ∧
        (keys ∪ (xs.map fun x => pieceKey x.1 x.2).toFinset).card ≤ MTRIE_INT_MAX ∧
        ImportFits t (xs.map fun x => pieceKey x.1 x.2))
      (keys ∪ (xs.map fun x => pieceKey x.1 x.2).toFinset) := by
  have hids : keys.card ≤ MTRIE_INT_MAX := by
    by_contra hgt
    refine hint (.inr ?_)
    rw [h.id,hn.id]
    exact_mod_cast not_le.mp hgt
  induction xs generalizing t a keys with
  | nil =>
    rw [List.map_nil,List.toFinset_nil,Finset.union_empty]
    exact ⟨fun _ => ⟨t,a,rfl,h,hn⟩,fun hno => absurd ⟨by simp,hids,trivial⟩ hno⟩
  | cons x xs ih =>
    have hunion : keys ∪ ((x::xs).map fun x => pieceKey x.1 x.2).toFinset =
        Insert.insert (pieceKey x.1 x.2) keys ∪ (xs.map fun x => pieceKey x.1 x.2).toFinset := by
      rw [List.map_cons,List.toFinset_cons,Finset.union_insert,Finset.insert_union]
    rw [hunion,List.foldlM_cons,mtrieImportLine_eq (hxs x List.mem_cons_self)]
    by_cases hempty : pieceKey x.1 x.2 = []
    · rw [if_pos hempty]
      exact ⟨fun hok => absurd hempty (hok.1 x List.mem_cons_self),fun _ => rfl⟩
    rw [if_neg hempty,mtrieImportKey_eq]
    change Yields ((if (Sbase.importNext t (pieceKey x.1 x.2)).Overflowed then none
      else some (Sbase.importNext t (pieceKey x.1 x.2))) >>= _) _ _
    obtain ⟨⟨a',ha',hn'⟩,hsize',hover⟩ := hn.importNext h hsize hint hempty
    by_cases hbeyond : (Sbase.importNext t (pieceKey x.1 x.2)).Overflowed
    · rw [if_pos hbeyond]
      refine ⟨fun hok => absurd ⟨hok.2.1.trans' ?_,hok.2.2.1⟩ (hover.mp hbeyond),fun _ => rfl⟩
      exact Finset.card_le_card Finset.subset_union_left
    · obtain ⟨hcard,hroom⟩ := not_not.mp (mt hover.mpr hbeyond)
      obtain ⟨hdone,hnone⟩ := ih ha' hn' hsize' hbeyond (fun y hy => hxs y (List.mem_cons_of_mem x hy)) hcard
      rw [if_neg hbeyond]
      refine ⟨fun hok => hdone ⟨fun y hy => hok.1 y (List.mem_cons_of_mem x hy),hok.2.1,hok.2.2.2⟩,
        fun hno => ?_⟩
      refine hnone fun hrest => hno ⟨fun y hy => ?_,hrest.2.1,hroom,hrest.2.2⟩
      rcases List.mem_cons.mp hy with rfl | hy
      · exact hempty
      · exact hrest.1 y hy

end

/-! ### The dictionary -/

section

variable {loads : List Load} {l : Load} {key line : List UInt8}

/-- The calls, as one pass over what `fgets` reads. -/
theorem mtrieImports_eq (t : Mtrie) (loads : List Load) :
    mtrieImports t loads =
      (loads.flatMap fun l => (pieces 10 MTRIE_WORD_READ l.file).map (l.direction,·)).foldlM
        (fun t x => mtrieImportLine x.1 t x.2) t := by
  unfold mtrieImports
  induction loads generalizing t with
  | nil => rfl
  | cons l loads ih =>
    rw [List.foldlM_cons,List.flatMap_cons,List.foldlM_append,mtrieImport_eq,List.foldlM_map]
    exact Option.bind_congr fun t' _ => ih t'

/-- The keys that are added. -/
def Load.allKeys (loads : List Load) : Finset (List UInt8) := (loads.flatMap Load.keys).toFinset

theorem imports_yield (loads : List Load) :
    Yields (mtrieImports mtrieInit loads)
      ((∀ l ∈ loads, ∀ key ∈ l.keys, key ≠ []) ∧ (Load.allKeys loads).card ≤ MTRIE_INT_MAX ∧
        ImportFits mtrieInit (loads.flatMap Load.keys))
      (Load.allKeys loads) := by
  have hread : ∀ x ∈ loads.flatMap fun l => (pieces 10 MTRIE_WORD_READ l.file).map (l.direction,·),
      x.2.length ≤ MTRIE_WORD_READ := by
    intro x hx
    obtain ⟨l,-,hx⟩ := List.mem_flatMap.mp hx
    obtain ⟨bytes,hbytes,rfl⟩ := List.mem_map.mp hx
    obtain ⟨line,-,hbytes⟩ := List.mem_flatMap.mp hbytes
    exact length_le_of_mem_parts (by decide) hbytes
  have hkeys : (loads.flatMap fun l => (pieces 10 MTRIE_WORD_READ l.file).map (l.direction,·)).map
      (fun x => pieceKey x.1 x.2) = loads.flatMap Load.keys := by
    rw [List.map_flatMap]
    simp only [List.map_map]
    rfl
  have h := Numbered.empty.importLines mtrieInit_mapped .init mtrieInit_int hread
  rw [hkeys,Finset.empty_union,← mtrieImports_eq] at h
  refine ⟨fun hok => h.1 ⟨fun x hx => ?_,hok.2⟩,fun hno => h.2 fun hok => hno ⟨?_,hok.2⟩⟩
  · obtain ⟨l,hl,hx⟩ := List.mem_flatMap.mp hx
    obtain ⟨bytes,hbytes,rfl⟩ := List.mem_map.mp hx
    exact hok.1 l hl _ (List.mem_map_of_mem hbytes)
  · intro l hl key hkey
    obtain ⟨bytes,hbytes,rfl⟩ := List.mem_map.mp hkey
    exact hok.1 (l.direction,bytes) (List.mem_flatMap.mpr ⟨l,hl,List.mem_map_of_mem hbytes⟩)

theorem Load.mem_keys : key ∈ l.keys ↔
    ∃ line ∈ lines 10 l.file, ∃ bytes ∈ parts MTRIE_WORD_READ line, pieceKey l.direction bytes = key := by
  rw [Load.keys,List.mem_map]
  constructor
  · rintro ⟨bytes,hbytes,hkey⟩
    obtain ⟨line,hline,hbytes⟩ := List.mem_flatMap.mp hbytes
    exact ⟨line,hline,bytes,hbytes,hkey⟩
  · rintro ⟨line,hline,bytes,hbytes,hkey⟩
    exact ⟨bytes,List.mem_flatMap.mpr ⟨line,hline,hbytes⟩,hkey⟩

theorem lineKey_subset {b : UInt8} {direction : ℤ} (h : b ∈ lineKey direction line) : b ∈ line :=
  (List.rdropWhile_prefix isEol line).subset (mem_orient.mp h)

theorem lineKey_length_le (direction : ℤ) (line : List UInt8) : (lineKey direction line).length ≤ line.length := by
  rw [lineKey,length_orient]
  exact (List.rdropWhile_prefix isEol line).length_le

/-- A key that was added has no zero byte, and at most the length that `fgets` reads. -/
theorem Load.bounded (h : key ∈ l.keys) : 0 ∉ key ∧ key.length ≤ MTRIE_WORD_READ := by
  obtain ⟨line,-,bytes,hbytes,rfl⟩ := Load.mem_keys.mp h
  constructor
  · intro hzero
    simpa using List.mem_takeWhile_imp (lineKey_subset hzero)
  · exact ((lineKey_length_le _ _).trans (List.takeWhile_prefix _).length_le).trans
      (length_le_of_mem_parts (by decide) hbytes)

/-- A line without a zero byte that `fgets` reads whole gives its key. -/
theorem pieceKey_eq (direction : ℤ) (h : 0 ∉ line) : pieceKey direction line = lineKey direction line := by
  have hall : line.takeWhile (· ≠ 0) = line := by
    rw [List.takeWhile_eq_self_iff]
    intro b hb
    have hb0 : b ≠ 0 := fun hzero => h (hzero ▸ hb)
    simpa using hb0
  rw [pieceKey,hall]

namespace Load

theorem Clean.whole (h : l.Clean) (hline : line ∈ lines 10 l.file) (hfits : line.length < MTRIE_WORD_MAX) :
    parts MTRIE_WORD_READ line = [line] ∧ pieceKey l.direction line = lineKey l.direction line := by
  obtain ⟨hzero,hlen⟩ := h.fitting line hline hfits
  have hread : MTRIE_WORD_READ + 1 = MTRIE_WORD_MAX - 1 := rfl
  exact ⟨parts_short (by omega),pieceKey_eq _ hzero⟩

theorem Clean.named (h : l.Clean) (hkey : l.Names key) : key ∈ l.keys := by
  obtain ⟨-,line,hline,hfits,rfl⟩ := hkey
  obtain ⟨hparts,hpiece⟩ := h.whole hline hfits
  exact mem_keys.mpr ⟨line,hline,line,by rw [hparts]; exact List.mem_singleton_self line,hpiece⟩

theorem Clean.only (h : l.Clean) (hkey : key ∈ l.keys) : l.Names key ∨ l.Cuts key := by
  have hne := h.added key hkey
  obtain ⟨line,hline,bytes,hbytes,rfl⟩ := mem_keys.mp hkey
  by_cases hfits : line.length < MTRIE_WORD_MAX
  · obtain ⟨hparts,hpiece⟩ := h.whole hline hfits
    rw [hparts,List.mem_singleton] at hbytes
    rw [hbytes,hpiece] at hne ⊢
    exact .inl ⟨hne,line,hline,hfits,rfl⟩
  · refine .inr ⟨line,hline,not_lt.mp hfits,?_⟩
    rw [pieceKey,lineKey,orient_orient]
    exact ((List.rdropWhile_prefix isEol _).isInfix.trans (List.takeWhile_prefix _).isInfix).trans
      (infix_of_mem_parts hbytes)

/-- A line that fits the buffer is added, so that it has no zero byte and is not too long for `fgets`. -/
theorem clean_of_named (hkeys : ∀ key ∈ l.keys, key ≠ [])
    (hnamed : ∀ key, l.Names key → 0 ∉ key ∧ key.length ≤ MTRIE_WORD_READ) : l.Clean := by
  have hread : MTRIE_WORD_READ + 2 = MTRIE_WORD_MAX := rfl
  refine ⟨hkeys,fun line hline hfits => ?_⟩
  have hname : line.rdropWhile isEol ≠ [] → 0 ∉ line.rdropWhile isEol ∧
      (line.rdropWhile isEol).length ≤ MTRIE_WORD_READ := by
    intro hne
    have hbound := hnamed (lineKey l.direction line) ⟨orient_eq_nil.not.mpr hne,line,hline,hfits,rfl⟩
    rwa [lineKey,mem_orient,length_orient] at hbound
  by_cases hlen : line.length = MTRIE_WORD_MAX - 1
  · -- the last byte is read by itself, and is no line end
    have hlong : 0 < MTRIE_WORD_READ ∧ MTRIE_WORD_READ < line.length := ⟨by decide,by omega⟩
    obtain ⟨c,hc⟩ : ∃ c, line.drop MTRIE_WORD_READ = [c] := by
      rw [← List.length_eq_one_iff,List.length_drop]
      omega
    have hmem : [c] ∈ parts MTRIE_WORD_READ line := by
      rw [parts,if_pos hlong,hc,parts_short (show 1 ≤ MTRIE_WORD_READ by decide)]
      simp
    have hlast := hkeys _ (mem_keys.mpr ⟨line,hline,_,hmem,rfl⟩)
    have heol : ¬ isEol c = true := by
      intro heol
      apply hlast
      rw [pieceKey,lineKey,orient_eq_nil,List.rdropWhile_eq_nil_iff]
      intro b hb
      rw [List.mem_singleton.mp ((List.takeWhile_prefix _).subset hb)]
      exact heol
    have hself : line.rdropWhile isEol = line := by
      rw [← List.take_append_drop MTRIE_WORD_READ line,hc]
      exact List.rdropWhile_concat_neg _ _ _ heol
    have hbound := (hname (by rw [hself]; exact List.ne_nil_of_length_pos (by omega))).2
    rw [hself] at hbound
    omega
  · refine ⟨fun hzero => ?_,hlen⟩
    have hkept : 0 ∈ line.rdropWhile isEol := by
      rw [← List.rdropWhile_append_rtakeWhile (p := isEol) (l := line),List.mem_append] at hzero
      rcases hzero with hzero | hzero
      · exact hzero
      · exact absurd (List.mem_rtakeWhile_imp hzero) (by decide)
    exact (hname (List.ne_nil_of_mem hkept)).1 hkept

end Load

/-- A trie is a dictionary of what was imported when its keys are those of the lines. -/
theorem dictionary_iff {t : Mtrie} {a : KeyMap} (h : Mapped t a) (hn : Numbered a (Load.allKeys loads))
    (hkeys : ∀ l ∈ loads, ∀ key ∈ l.keys, key ≠ []) : Dictionary loads t ↔ ∀ l ∈ loads, l.Clean := by
  have hmem : ∀ key, key ∈ Load.allKeys loads ↔ ∃ l ∈ loads, key ∈ l.keys := by
    intro key
    rw [Load.allKeys,List.mem_toFinset,List.mem_flatMap]
  have hholds : ∀ key v, t.Holds key v ↔ key ∈ Load.allKeys loads ∧ a.value key = v := by
    intro key v
    rw [h.holds_iff,← hn.value]
    constructor
    · rintro ⟨hv,rfl⟩
      exact ⟨hv,rfl⟩
    · rintro ⟨hv,rfl⟩
      exact ⟨hv,rfl⟩
  have hstored : ∀ key, t.Stored key ↔ ∃ l ∈ loads, key ∈ l.keys := by
    intro key
    rw [← hmem]
    exact ⟨fun ⟨v,hv⟩ => ((hholds key v).mp hv).1,fun hkey => ⟨_,(hholds key _).mpr ⟨hkey,rfl⟩⟩⟩
  constructor
  · intro hdict l hl
    apply Load.clean_of_named (hkeys l hl)
    intro key hkey
    obtain ⟨l',-,hkey'⟩ := (hstored key).mp (hdict.named l hl key hkey)
    exact Load.bounded hkey'
  · intro hclean
    refine ⟨fun l hl key hkey => ?_,fun key hkey => ?_,?_,?_,fun v => ?_⟩
    · exact (hstored key).mpr ⟨l,hl,(hclean l hl).named hkey⟩
    · obtain ⟨l,hl,hkey⟩ := (hstored key).mp hkey
      exact ⟨l,hl,(hclean l hl).only hkey⟩
    · intro key v v' hv hv'
      exact ((hholds key v).mp hv).2.symm.trans ((hholds key v').mp hv').2
    · intro key key' v hv hv'
      obtain ⟨hkey,hvalue⟩ := (hholds key v).mp hv
      obtain ⟨hkey',hvalue'⟩ := (hholds key' v).mp hv'
      exact hn.distinct key hkey key' hkey' (hvalue.trans hvalue'.symm)
    · rw [h.id,← hn.range]
      exact exists_congr fun key => hholds key v

end

end Sbase
