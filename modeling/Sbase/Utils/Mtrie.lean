import Sbase.Lib.Bisect

/-! The trie of `utils/mtrie.c`: the children of a node are a sorted block of an array of nodes, and
blocks that are given up are kept in free lists by their size.

Growth of the array always succeeds, so that `map`, `state` and `nodes` are never null. -/
namespace Sbase
open Bisect

def MTRIE_LINE_MAX : ℕ := 256
def MTRIE_INCREMENT_NUM : ℕ := 100000
def MTRIE_NODES_MAX : ℕ := 1000000

/-- The largest value of the `int`s of `MTRSTATE`. -/
def MTRIE_INT_MAX : ℕ := 2147483647

/-- `MTRLIST`, the free list of one block size. -/
structure MtrList where
  count : ℕ
  head : ℕ
deriving DecidableEq, Repr

/-- `MTRNODE`. Its key only ever holds a byte. -/
structure MtrNode where
  key : UInt8
  nchilds : ℕ
  data : ℤ
  childs : ℕ
deriving DecidableEq, Repr

/-- A node of zeroed memory. -/
def MtrNode.zero : MtrNode := ⟨0,0,0,0⟩

/-- `MTRNODE_SETK` -/
def mtrnodeSetk (b : UInt8) : MtrNode := ⟨b,0,0,0⟩

/-- `MTRIE` with its `MTRSTATE`. The mapping has room for `total` nodes. -/
structure Mtrie where
  id : ℤ
  current : ℕ
  total : ℕ
  left : ℕ
  list : ℕ → MtrList
  nodes : ℕ → MtrNode

/-- `MTRIE_MAP_INIT` -/
def mtrieInit : Mtrie where
  id := 0
  current := MTRIE_LINE_MAX
  total := MTRIE_NODES_MAX
  left := MTRIE_NODES_MAX - MTRIE_LINE_MAX
  list _ := ⟨0,0⟩
  nodes _ := .zero

namespace Mtrie

/-- Whether a counter has left the range of an `int`, after which nothing is defined in the source: `total`
and `id` only grow, and `current` and `left` are never above `total`. -/
def Overflowed (t : Mtrie) : Prop := MTRIE_INT_MAX < t.total ∨ (MTRIE_INT_MAX : ℤ) < t.id

instance (t : Mtrie) : Decidable t.Overflowed := inferInstanceAs (Decidable (_ ∨ _))

/-- An assignment to fields of the node `i`. -/
def modify (t : Mtrie) (i : ℕ) (f : MtrNode → MtrNode) : Mtrie :=
  { t with nodes := Function.update t.nodes i (f (t.nodes i)) }

/-- An assignment to the free list `k`. -/
def setList (t : Mtrie) (k : ℕ) (l : MtrList) : Mtrie :=
  { t with list := Function.update t.list k l }

end Mtrie

/-- `MTRIE_INCREMENT`: the old mapping is copied into a larger one of zeroed pages. It overflows the `int`
`total` where the result is `Overflowed`. -/
def mtrieIncrement (t : Mtrie) : Mtrie :=
  { t with total := t.total + MTRIE_INCREMENT_NUM, left := t.left + MTRIE_INCREMENT_NUM,
           nodes := fun q => if q < t.total then t.nodes q else .zero }

/-- `MTRIE_PUSH` -/
def mtriePush (t : Mtrie) (num pos : ℕ) : Mtrie :=
  if MTRIE_LINE_MAX ≤ pos ∧ 0 < num ∧ num ≤ MTRIE_LINE_MAX then
    let l := t.list (num - 1)
    (t.modify pos fun d => { d with childs := l.head }).setList (num - 1) ⟨l.count + 1,pos⟩
  else t

/-- `MTRIE_POP`, with no position where the source leaves -1. -/
def mtriePop (t : Mtrie) (num : ℕ) : Mtrie × Option ℕ :=
  if 0 < num ∧ num ≤ MTRIE_LINE_MAX then
    let l := t.list (num - 1)
    if 0 < l.count then
      (t.setList (num - 1) ⟨l.count - 1,(t.nodes l.head).childs⟩, some l.head)
    else
      let t := if t.left < num then mtrieIncrement t else t
      ({ t with current := t.current + num, left := t.left - num }, some t.current)
  else (t,none)

/-- The search for a byte among the children of a node: 0 where it has none, -1 and 1 where the byte
lies before and after all of them, and else the child with the byte or the last one below it. -/
def mtrieSeek (nodes : ℕ → MtrNode) (i : ℕ) (b : UInt8) : ℤ :=
  let d := nodes i
  if 0 < d.nchilds ∧ MTRIE_LINE_MAX ≤ d.childs then
    let min := d.childs
    let max := min + d.nchilds - 1
    if b = (nodes min).key then min
    else if b = (nodes max).key then max
    else if b.toNat < (nodes min).key.toNat then -1
    else if (nodes max).key.toNat < b.toNat then 1
    else ((search (fun z => (nodes z).key.toNat) b.toNat min max).getD 0 : ℕ)
  else 0

/-- A loop of `MTRNODE_COPY` over `m` nodes. -/
def mtrnodeCopy (nodes : ℕ → MtrNode) (dst src : ℕ) : ℕ → ℕ → MtrNode
  | 0 => nodes
  | m+1 => mtrnodeCopy (Function.update nodes dst (nodes src)) (dst + 1) (src + 1) m

/-- The loop of `MTRNODE_COPY` over the nodes whose key lies below a byte, with the positions at which
it ends. -/
def mtrnodeCopyBelow (b : UInt8) (nodes : ℕ → MtrNode) (dst src : ℕ) :
    ℕ → (ℕ → MtrNode) × ℕ × ℕ
  | 0 => (nodes,dst,src)
  | m+1 =>
    if (nodes src).key.toNat < b.toNat then
      mtrnodeCopyBelow b (Function.update nodes dst (nodes src)) (dst + 1) (src + 1) m
    else (nodes,dst,src)

/-- The children of a node, copied from `z` to a block of `n` nodes at `pos` with a new node among
them, and the position of the new node. -/
def mtrieSpread (nodes : ℕ → MtrNode) (x : ℤ) (b : UInt8) (pos z n : ℕ) : (ℕ → MtrNode) × ℕ :=
  if x = 0 then (Function.update nodes pos (mtrnodeSetk b), pos)
  else if x = -1 then
    (mtrnodeCopy (Function.update nodes pos (mtrnodeSetk b)) (pos + 1) z (n - 1), pos)
  else if x = 1 then
    let k := n - 1
    (Function.update (mtrnodeCopy nodes pos z k) (pos + k) (mtrnodeSetk b), pos + k)
  else
    let r := mtrnodeCopyBelow b nodes pos z n
    let k := r.2.1 - pos
    (mtrnodeCopy (Function.update r.1 r.2.1 (mtrnodeSetk b)) (r.2.1 + 1) r.2.2 (n - (k + 1)),
      pos + k)

/-- The branch of `mtrie_add` that gives the node `i` a new child, at which it goes on. -/
def mtrieNewChild (t : Mtrie) (i : ℕ) (x : ℤ) (b : UInt8) : Mtrie × Option ℕ :=
  let n := (t.nodes i).nchilds + 1
  let z := (t.nodes i).childs
  let r := mtriePop t n
  match r.2 with
  | some pos =>
    if pos < MTRIE_LINE_MAX ∨ r.1.current < pos then (r.1,none)
    else
      let s := mtrieSpread r.1.nodes x b pos z n
      let t := { r.1 with nodes := s.1 }
      let t := mtriePush t (t.nodes i).nchilds (t.nodes i).childs
      (t.modify i fun d => { d with nchilds := d.nchilds + 1, childs := pos }, some s.2)
  | none => (r.1,none)

/-- One byte of the loop of `mtrie_add`. -/
def mtrieStep (t : Mtrie) (i : ℕ) (b : UInt8) : Mtrie × Option ℕ :=
  let x := mtrieSeek t.nodes i b
  if x < MTRIE_LINE_MAX ∨ (t.nodes x.toNat).key ≠ b then mtrieNewChild t i x b
  else (t,some x.toNat)

/-- The loop of `mtrie_add`, with the node that it ends at. -/
def mtrieWalk (t : Mtrie) (i : ℕ) : List UInt8 → Mtrie × Option ℕ
  | [] => (t,some i)
  | b::bs =>
    match (mtrieStep t i b).2 with
    | some j => mtrieWalk (mtrieStep t i b).1 j bs
    | none => ((mtrieStep t i b).1,none)

/-- The common body of the functions that add a key, whose bytes come in the order in which they are
read: `issue` gives the data of a key without any, and `fail` is returned where no block is found. -/
def mtrieStore (fail : ℤ) (issue : Mtrie → Mtrie × ℤ) (t : Mtrie) : List UInt8 → Mtrie × ℤ
  | [] => (t,-5)
  | b::bs =>
    let r := mtrieWalk t b.toNat bs
    match r.2 with
    | some i =>
      if (r.1.nodes i).data = 0 then
        let s := issue r.1
        (s.1.modify i fun d => { d with data := s.2 }, s.2)
      else (r.1,(r.1.nodes i).data)
    | none => (r.1,fail)

/-- The data given to `mtrie_add`. -/
def givenData (data : ℤ) (t : Mtrie) : Mtrie × ℤ := (t,data)

/-- The next id of `mtrie_xadd`, which overflows an `int` behind `MTRIE_INT_MAX`. -/
def nextId (t : Mtrie) : Mtrie × ℤ := ({ t with id := t.id + 1 }, t.id + 1)

/-- `mtrie_add` -/
def mtrieAdd (t : Mtrie) (key : List UInt8) (data : ℤ) : Mtrie × ℤ :=
  mtrieStore (-1) (givenData data) t key

/-- `mtrie_xadd` -/
def mtrieXadd (t : Mtrie) (key : List UInt8) : Mtrie × ℤ := mtrieStore (-3) nextId t key

/-- `mtrie_radd` -/
def mtrieRadd (t : Mtrie) (key : List UInt8) (data : ℤ) : Mtrie × ℤ :=
  mtrieStore (-1) (givenData data) t key.reverse

/-- `mtrie_rxadd` -/
def mtrieRxadd (t : Mtrie) (key : List UInt8) : Mtrie × ℤ := mtrieStore (-1) nextId t key.reverse

/-- The node at which `mtrie_get` and `mtrie_del` go on with a byte. A node without children is kept. -/
def mtrieNext (t : Mtrie) (i : ℕ) (b : UInt8) : Option ℕ :=
  if 0 < (t.nodes i).nchilds ∧ MTRIE_LINE_MAX ≤ (t.nodes i).childs then
    let x := mtrieSeek t.nodes i b
    if x = -1 ∨ x = 1 ∨ (t.nodes x.toNat).key ≠ b then none else some x.toNat
  else some i

/-- The loop of `mtrie_get` and `mtrie_del`, with the node whose data they read. -/
def mtrieLookup (t : Mtrie) (i : ℕ) : List UInt8 → Option ℕ
  | [] => none
  | b::bs =>
    (mtrieNext t i b).bind fun i =>
      if i < t.total ∧ ((t.nodes i).nchilds = 0 ∨ bs = []) then
        if (t.nodes i).key ≠ b then none
        else if bs = [] then some i
        else none
      else mtrieLookup t i bs

/-- `mtrie_get` -/
def mtrieGet (t : Mtrie) : List UInt8 → ℤ
  | [] => 0
  | b::bs =>
    if bs = [] ∧ b.toNat < t.total then (t.nodes b.toNat).data
    else (mtrieLookup t b.toNat bs).elim 0 fun i => (t.nodes i).data

/-- `mtrie_del` -/
def mtrieDel (t : Mtrie) : List UInt8 → Mtrie × ℤ
  | [] => (t,0)
  | b::bs =>
    let clear := fun i => (t.modify i fun d => { d with data := 0 }, (t.nodes i).data)
    if bs = [] ∧ b.toNat < t.total ∧ (t.nodes b.toNat).data ≠ 0 then clear b.toNat
    else (mtrieLookup t b.toNat bs).elim (t,0) clear

/-- `mtrie_rdel` -/
def mtrieRdel (t : Mtrie) (key : List UInt8) : Mtrie × ℤ := mtrieDel t key.reverse

end Sbase
