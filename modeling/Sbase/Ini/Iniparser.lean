import Mathlib.Data.List.DropRight
import Sbase.Lib.Lines
import Sbase.Lib.Scanf
import Sbase.Ini.Dictionary

/-! Configuration files, `iniparser.c`: how `iniparser_new` reads one and `iniparser_dump_ini` writes one. -/
namespace Sbase.Ini
open Lines Scanf

/-- The texts of `iniparser_new` that `sscanf` stores into. -/
structure IniFields where
  sec : List UInt8
  key : List UInt8
  val : List UInt8

/-- `[%[^]]` -/
def secFormat : List (Directive IniFields) :=
  [.byte 91,.set (fun c => c ≠ 93) fun w f => { f with sec := w }]

/-- `%[^=] = ` with what follows it. -/
def keyFormat (rest : List (Directive IniFields)) : List (Directive IniFields) :=
  .set (fun c => c ≠ 61) (fun w f => { f with key := w })::.blank::.byte 61::.blank::rest

/-- The rest of the format for a value between two quotes. -/
def quotedFormat (q : UInt8) : List (Directive IniFields) :=
  [.byte q,.set (fun c => c ≠ q) (fun w f => { f with val := w }),.byte q]

/-- The rest of the format for a plain value, up to a comment. -/
def plainFormat : List (Directive IniFields) :=
  [.set (fun c => c ≠ 59 ∧ c ≠ 35) fun w f => { f with val := w }]

/-- `strcrop` -/
def strcrop (s : List UInt8) : List UInt8 := s.rdropWhile isSpace

/-- `iniparser_add_entry` -/
def iniparserAddEntry (d : Dictionary) (sec : List UInt8) (key : Option (List UInt8)) (val : Option (List UInt8)) :
    Option Dictionary :=
  match key with
  | some key => dictionarySet d (sec ++ 58::key) val
  | none => dictionarySet d sec val

/-- The three formats of a key with its value, in turn. -/
def scanEntry (text : List UInt8) (f : IniFields) : IniFields × Bool :=
  let (f,n) := sscanf (keyFormat (quotedFormat 34)) text f
  if n = 2 then (f,true)
  else
    let (f,n) := sscanf (keyFormat (quotedFormat 39)) text f
    if n = 2 then (f,true)
    else
      let (f,n) := sscanf (keyFormat plainFormat) text f
      (f,n = 2)

/-- The body of the loop of `iniparser_new`, for what `fgets` has read. -/
def iniparserLine (st : Dictionary × IniFields) (lin : List UInt8) : Option (Dictionary × IniFields) :=
  let (d,f) := st
  let text := (lin.takeWhile (· ≠ 0)).dropWhile isSpace
  if text.head? = some 59 ∨ text.head? = some 35 ∨ text = [] then some st
  else
    let (f,n) := sscanf secFormat text f
    if n = 1 then do
      let f := { f with sec := strlwc f.sec }
      let d ← iniparserAddEntry d f.sec none none
      some (d,f)
    else
      let (f,matched) := scanEntry text f
      if matched then do
        let f := { f with key := strlwc (strcrop f.key) }
        let f := { f with val := if f.val = [34,34] ∨ f.val = [39,39] then [] else strcrop f.val }
        let d ← iniparserAddEntry d f.sec (some f.key) (some f.val)
        some (d,f)
      else some (d,f)

/-- `iniparser_new`, given the content of the file. -/
def iniparserNew (content : List UInt8) : Option Dictionary := do
  let (d,_) ← (pieces 10 (ASCIILINESZ-1) content).foldlM iniparserLine (dictionaryNew 0,⟨[],[],[]⟩)
  some d

/-! ### Writing -/

/-- The sections in the order of their slots, which `iniparser_getnsec` counts and `iniparser_getsecname`
names. -/
def iniparserSections (d : Dictionary) : List (List UInt8) :=
  (d.slots.filterMap DictSlot.key).filter fun key => 58 ∉ key

/-- `%-30s = %s` and a line end. -/
def entryLine (key val : List UInt8) : List UInt8 :=
  key ++ List.replicate (30-key.length) 32 ++ [32,61,32] ++ val ++ [10]

/-- The line of a slot whose key is in a section. -/
def sectionEntry (sec : List UInt8) (s : DictSlot) : Option (List UInt8) :=
  match s.key with
  | some key =>
    if key.take (sec.length+1) = sec ++ [58] then some (entryLine (key.drop (sec.length+1)) (s.val.getD []))
    else none
  | none => none

/-- The lines of one section. -/
def sectionLines (d : Dictionary) (sec : List UInt8) : List (List UInt8) :=
  [10]::(91::sec ++ [93,10])::d.slots.filterMap (sectionEntry sec)

/-- The lines where there is no section; a missing value is printed as `(null)`. -/
def looseLines (d : Dictionary) : List (List UInt8) :=
  d.slots.filterMap fun s =>
    s.key.map fun key => key ++ [32,61,32] ++ s.val.getD [40,110,117,108,108,41] ++ [10]

/-- `iniparser_dump_ini` -/
def iniparserDumpIni (d : Dictionary) : List UInt8 :=
  if iniparserSections d = [] then (looseLines d).flatten
  else ((iniparserSections d).flatMap (sectionLines d) ++ [[10]]).flatten

end Sbase.Ini
