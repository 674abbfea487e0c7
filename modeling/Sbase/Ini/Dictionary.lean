import Mathlib.Data.UInt
import Sbase.Lib.KeySlots

/-! The dictionary behind the configuration files, `iniparser.c`: slots with the hash of their key, doubled
when they are used up.

A string is its bytes before the zero byte. Allocations succeed where their sizes are those that are meant. -/
namespace Sbase.Ini

def DICTMINSZ : ℕ := 128
def ASCIILINESZ : ℕ := 1024

structure DictSlot where
  key : Option (List UInt8)
  val : Option (List UInt8)
  hash : UInt32
  deriving DecidableEq

/-- The `size` of a `dictionary` is the number of its slots. -/
structure Dictionary where
  n : ℕ
  slots : List DictSlot
  deriving DecidableEq

/-- A slot of a `calloc`. -/
def DictSlot.empty : DictSlot := ⟨none,none,0⟩

/-- A signed `char` as an `unsigned`. -/
def charToUnsigned (c : UInt8) : UInt32 := if c < 128 then c.toUInt32 else c.toUInt32+0xffffff00

def dictionaryHash (key : List UInt8) : UInt32 :=
  let hash := key.foldl (fun hash c =>
    let hash := hash + charToUnsigned c
    let hash := hash + (hash <<< 10)
    hash ^^^ (hash >>> 6)) 0
  let hash := hash + (hash <<< 3)
  let hash := hash ^^^ (hash >>> 11)
  hash + (hash <<< 15)

def dictionaryNew (size : ℕ) : Dictionary := ⟨0,List.replicate (max size DICTMINSZ) .empty⟩

/-- What `dictionary_get` returns: its default, or the value of a slot, which may be `NULL`. -/
inductive DictValue
  | default
  | value (val : Option (List UInt8))
  deriving DecidableEq

/-- The loop of `dictionary_get`, which compares with the key of a free slot if the hash is that of the
slot. -/
def dictionaryGetFrom (key : List UInt8) : List DictSlot → Option DictValue
  | [] => some .default
  | s::slots =>
    if dictionaryHash key = s.hash then
      match s.key with
      | none => none
      | some k => if key = k then some (.value s.val) else dictionaryGetFrom key slots
    else dictionaryGetFrom key slots

/-- `dictionary_get`, `none` where it reads a string at `NULL`. -/
def dictionaryGet (d : Dictionary) (key : List UInt8) : Option DictValue := dictionaryGetFrom key d.slots

/-- The slot that `dictionary_set` and `dictionary_unset` search. -/
def dictionarySeek (d : Dictionary) (key : List UInt8) : Option ℕ :=
  d.slots.findIdx? fun s => s.key.isSome ∧ dictionaryHash key = s.hash ∧ s.key = some key

/-- `mem_double` of the pointers, which counts their bytes in an `int`: `none` where twice their number is more,
and `calloc` gets a size that is not meant. -/
def memDouble (slots : List DictSlot) : Option (List DictSlot) :=
  if 2*(slots.length*8) < 2^31 then some (slots ++ List.replicate slots.length DictSlot.empty) else none

/-- The slots in which `dictionary_set` puts a new key. -/
def dictionaryRoom (d : Dictionary) : Option (List DictSlot) :=
  if d.n = d.slots.length then memDouble d.slots else some d.slots

/-- `dictionary_set`, `none` where the table cannot be doubled or it writes behind the slots. -/
def dictionarySet (d : Dictionary) (key : List UInt8) (val : Option (List UInt8)) : Option Dictionary :=
  match if 0 < d.n then dictionarySeek d key else none with
  | some i => some { d with slots := d.slots.modify i fun s => { s with val := val } }
  | none =>
    match dictionaryRoom d with
    | some slots =>
      match slots.findIdx? fun s => s.key.isNone with
      | some i => some ⟨d.n+1,slots.set i ⟨some key,val,dictionaryHash key⟩⟩
      | none => none
    | none => none

/-- `dictionary_unset` -/
def dictionaryUnset (d : Dictionary) (key : List UInt8) : Dictionary :=
  match dictionarySeek d key with
  | some i => ⟨d.n-1,d.slots.set i .empty⟩
  | none => d

/-! ### Entries -/

/-- `tolower` -/
def toLower (c : UInt8) : UInt8 := if 65 ≤ c ∧ c ≤ 90 then c+32 else c

/-- `strlwc` -/
def strlwc (s : List UInt8) : List UInt8 := (s.take ASCIILINESZ).map toLower

/-- `iniparser_getstring` -/
def iniparserGetstring (d : Dictionary) (key : List UInt8) : Option DictValue := dictionaryGet d (strlwc key)

/-- `iniparser_setstr` -/
def iniparserSetstr (d : Dictionary) (entry : List UInt8) (val : Option (List UInt8)) : Option Dictionary :=
  dictionarySet d (strlwc entry) val

/-- `iniparser_unset` -/
def iniparserUnset (d : Dictionary) (entry : List UInt8) : Dictionary := dictionaryUnset d (strlwc entry)

end Sbase.Ini
