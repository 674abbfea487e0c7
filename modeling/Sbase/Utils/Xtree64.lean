import Sbase.Lib.PointerTree

/-! `xtree64`: an unbalanced binary tree over `int64_t` keys that caches its two ends, with its
nodes taken from a free list threaded through their parent pointers. -/
namespace Sbase
open PointerTree

def XTRNODE64_LINE_NUM : ℕ := 2048
def XTRNODE64_LINE_MAX : ℕ := 1024

structure XTNode64 where
  key : ℤ
  data : ℤ
  left : Option ℕ
  right : Option ℕ
  parent : Option ℕ

def XTNode64.child (s : Side) (n : XTNode64) : Option ℕ :=
  match s with
  | .left => n.left
  | .right => n.right

def XTNode64.setChild (s : Side) (c : Option ℕ) (n : XTNode64) : XTNode64 :=
  match s with
  | .left => { n with left := c }
  | .right => { n with right := c }

/-- A node as `calloc` leaves it. -/
def XTNode64.zero : XTNode64 := ⟨0, 0, none, none, none⟩

/-- The tree with its nodes: those of `init` are numbered first, then those of each line. -/
structure XTree64 where
  nodes : ℕ → XTNode64
  total : ℤ
  nlines : ℕ
  kmax : Option ℕ
  kmin : Option ℕ
  root : Option ℕ
  list : Option ℕ

namespace XTree64

def modify (t : XTree64) (i : ℕ) (f : XTNode64 → XTNode64) : XTree64 :=
  { t with nodes := Function.update t.nodes i (f (t.nodes i)) }

def setParent (t : XTree64) (i : ℕ) (p : Option ℕ) : XTree64 :=
  t.modify i fun n => { n with parent := p }

def setChild (t : XTree64) (s : Side) (i : ℕ) (c : Option ℕ) : XTree64 :=
  t.modify i (XTNode64.setChild s c)

/-- The cached end of one side, `kmin` or `kmax`. -/
def kend (t : XTree64) : Side → Option ℕ
  | .left => t.kmin
  | .right => t.kmax

def setKend (t : XTree64) (s : Side) (p : Option ℕ) : XTree64 :=
  match s with
  | .left => { t with kmin := p }
  | .right => { t with kmax := p }

end XTree64

/-- `XTNODE64_PUSH`. -/
def xtnode64Push (t : XTree64) (i : ℕ) : XTree64 :=
  { t.setParent i t.list with list := some i }

/-- The loop that hands all nodes of a fresh line but the first to the free list. -/
def xtnode64Line (base : ℕ) : ℕ → XTree64 → XTree64
  | 0, t => t
  | 1, t => t
  | x+2, t => xtnode64Line base (x+1) (xtnode64Push t (base + (x+1)))

/-- `XTNODE64_POP`: a free node, or the first one of a fresh line; `none` is a null pointer. -/
def xtnode64Pop (alloc : Bool) (t : XTree64) : XTree64 × Option ℕ :=
  match t.list with
  | some i => ({ t with list := (t.nodes i).parent }, some i)
  | none =>
    if t.nlines < XTRNODE64_LINE_MAX then
      if alloc then
        let base := XTRNODE64_LINE_NUM * (t.nlines+1)
        let t' : XTree64 := { t with
          nlines := t.nlines+1
          nodes := fun i =>
            if base ≤ i ∧ i < base + XTRNODE64_LINE_NUM then XTNode64.zero else t.nodes i }
        (xtnode64Line base XTRNODE64_LINE_NUM t', some base)
      else ({ t with nlines := t.nlines+1 }, none)
    else (t, none)

/-- A popped node hung under `xp`; without a node the code dereferences a null pointer. -/
def xtree64Hang (alloc : Bool) (t : XTree64) (s : Side) (xp : ℕ) (key data : ℤ) :
    Option (XTree64 × ℕ) :=
  match xtnode64Pop alloc t with
  | (_, none) => none
  | (t, some node) =>
    let t := t.modify node fun _ => ⟨key, data, none, none, some xp⟩
    let t := t.setChild s xp (some node)
    some ({ t with total := t.total+1 }, node)

/-- A popped node as the whole tree. -/
def xtree64Plant (alloc : Bool) (t : XTree64) (key data : ℤ) : Option XTree64 :=
  match xtnode64Pop alloc t with
  | (_, none) => none
  | (t, some node) =>
    let t := t.modify node fun _ => ⟨key, data, none, none, none⟩
    some { t with root := some node, kmin := some node, kmax := some node, total := t.total+1 }

/-- A popped node hung outside the cached end, which it becomes. -/
def xtree64Extend (alloc : Bool) (t : XTree64) (s : Side) (xp : ℕ) (key data : ℤ) :
    Option XTree64 :=
  match xtree64Hang alloc t s xp key data with
  | none => none
  | some (t, node) => some (t.setKend s (some node))

/-- Where the descent for a key goes at a node. -/
def XTree64.dir (t : XTree64) (key : ℤ) (i : ℕ) : Side :=
  if key > (t.nodes i).key then .right else .left

/-- The `do … while (xp)` descent, which can meet no more nodes than there are. -/
def xtree64Descend (alloc : Bool) (t : XTree64) (root : ℕ) (key data : ℤ) : Option XTree64 :=
  match follow (fun i => (t.nodes i).child (t.dir key i)) t.total.toNat root with
  | none => none
  | some xp => (xtree64Hang alloc t (t.dir key xp) xp key data).map Prod.fst

/-- `xtree64_push`: the new state and the return value; `none` where it would crash. -/
def xtree64Push (alloc : Bool) (t : XTree64) (key data : ℤ) : Option (XTree64 × ℤ) :=
  match t.root, t.kmin, t.kmax with
  | some root, some kmin, some kmax =>
    if t.total > 0 then
      if key ≤ (t.nodes kmin).key then (xtree64Extend alloc t .left kmin key data).map (·, 0)
      else if key ≥ (t.nodes kmax).key then
        (xtree64Extend alloc t .right kmax key data).map (·, 0)
      else (xtree64Descend alloc t root key data).map (·, 0)
    else (xtree64Plant alloc t key data).map (·, 0)
  | _, _, _ => (xtree64Plant alloc t key data).map (·, 0)

/-- `xtree64_add`: the new state, the return value and what `*old` is set to. -/
def xtree64Add (alloc : Bool) (t : XTree64) (key data : ℤ) : Option (XTree64 × ℤ × Option ℤ) :=
  match t.root, t.kmin, t.kmax with
  | some root, some kmin, some kmax =>
    if t.total > 0 then
      if key = (t.nodes kmin).key then some (t, 1, some (t.nodes kmin).data)
      else if key = (t.nodes kmax).key then some (t, 1, some (t.nodes kmax).data)
      else if key < (t.nodes kmin).key then
        (xtree64Extend alloc t .left kmin key data).map (·, 0, none)
      else if key > (t.nodes kmax).key then
        (xtree64Extend alloc t .right kmax key data).map (·, 0, none)
      else (xtree64Descend alloc t root key data).map (·, 0, none)
    else (xtree64Plant alloc t key data).map (·, 0, none)
  | _, _, _ => (xtree64Plant alloc t key data).map (·, 0, none)

/-- The splice of a pop: `node` or nothing takes the place of `xp`, and the new end is found. -/
def xtree64Splice (t : XTree64) (s : Side) (xp : ℕ) : Option XTree64 :=
  let parent := (t.nodes xp).parent
  match (t.nodes xp).child s.flip with
  | some node =>
    let t := t.setParent node parent
    let t := match parent with
      | some q => t.setChild s q (some node)
      | none => { t with root := some node }
    match follow (fun i => (t.nodes i).child s) t.total.toNat node with
    | none => none
    | some last => some (t.setKend s (some last))
  | none =>
    let t := t.setKend s parent
    match parent with
    | some q => some (t.setChild s q none)
    | none => some t

/-- The pop of one end: the new state, the return value, and the key and data stored. -/
def xtree64PopEnd (t : XTree64) (s : Side) : Option (XTree64 × ℤ × Option (ℤ × ℤ)) :=
  match t.kend s with
  | none => some (t, -1, none)
  | some xp =>
    let kv := ((t.nodes xp).key, (t.nodes xp).data)
    match xtree64Splice t s xp with
    | none => none
    | some t =>
      let t := xtnode64Push t xp
      let t := { t with total := t.total-1 }
      let t := if t.total = 0 then { t with root := none, kmin := none, kmax := none } else t
      some (t, 0, some kv)

/-- `xtree64_pop_min`. -/
def xtree64PopMin (t : XTree64) : Option (XTree64 × ℤ × Option (ℤ × ℤ)) := xtree64PopEnd t .left

/-- `xtree64_pop_max`. -/
def xtree64PopMax (t : XTree64) : Option (XTree64 × ℤ × Option (ℤ × ℤ)) := xtree64PopEnd t .right

/-- `xtree64_init`. -/
def xtree64Init : XTree64 :=
  (List.range XTRNODE64_LINE_NUM).foldl xtnode64Push
    ⟨fun _ => XTNode64.zero, 0, 0, none, none, none, none⟩

end Sbase
