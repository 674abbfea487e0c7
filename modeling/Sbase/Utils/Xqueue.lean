import Sbase.Lib.LinkedList

/-! `utils/xqueue.c`: many queues over one pool of nodes and one stack of free ids.

An `XQNODE` is named by its place in the lines of `list`, and `α` is what the pointers point to. An
operation is undefined where it would write past the end of `waits` or of `list`. Every operation
holds the mutex, `xqueue_head` apart, which only reads. -/
namespace Sbase
open LinkedList

def XQ_ROOTS_MAX : ℕ := 4096
def XQ_NODES_MAX : ℕ := 4096
def XQ_LINE_MAX : ℕ := 1024

/-- `XQROOT` -/
structure XqRoot where
  total : ℤ
  status : ℕ
  first : Option ℕ
  last : Option ℕ
  deriving DecidableEq

/-- Zeroed memory. -/
def XqRoot.zero : XqRoot := ⟨0,0,none,none⟩

/-- `XQUEUE`; the list `waits` holds the first `nwaits` entries of the array, the last one first. -/
structure XQueue (α : Type*) where
  nleft : ℤ
  nlist : ℕ
  left : Option ℕ
  waits : List ℕ
  roots : ℕ → XqRoot
  next : ℕ → Option ℕ
  ptr : ℕ → Option α

section
variable {α : Type*}

/-- `xqueue_init` -/
def xqueueInit : XQueue α where
  nleft := 0
  nlist := 0
  left := none
  waits := (List.range' 1 (XQ_ROOTS_MAX - 1)).foldl (fun waits i => i::waits) []
  roots _ := .zero
  next _ := none
  ptr _ := none

/-- The test of a queue id that every operation but `xqueue_new` makes. -/
def XqId (qid : ℤ) : Prop := 0 < qid ∧ qid < XQ_ROOTS_MAX

instance (qid : ℤ) : Decidable (XqId qid) := by unfold XqId; infer_instance

/-- The queue at the root `r`. -/
def XQueue.setRoot (q : XQueue α) (r : ℕ) (root : XqRoot) : XQueue α :=
  { q with roots := Function.update q.roots r root }

namespace XQueue
variable (q : XQueue α) (r : ℕ) (root : XqRoot)

@[simp] theorem roots_setRoot : (q.setRoot r root).roots = Function.update q.roots r root := rfl
@[simp] theorem nlist_setRoot : (q.setRoot r root).nlist = q.nlist := rfl
@[simp] theorem left_setRoot : (q.setRoot r root).left = q.left := rfl
@[simp] theorem waits_setRoot : (q.setRoot r root).waits = q.waits := rfl
@[simp] theorem next_setRoot : (q.setRoot r root).next = q.next := rfl
@[simp] theorem ptr_setRoot : (q.setRoot r root).ptr = q.ptr := rfl

end XQueue

/-- `xqueue_new` -/
def xqueueNew (q : XQueue α) : Option (XQueue α × ℤ) :=
  match q.waits with
  | [] => some (q,-1)
  | qid::waits =>
    if qid < XQ_ROOTS_MAX then
      some ({ q with waits := waits }.setRoot qid { q.roots qid with status := 1 }, qid)
    else none

/-- `xqueue_total` -/
def xqueueTotal (q : XQueue α) (qid : ℤ) : ℤ := if XqId qid then (q.roots qid.toNat).total else 0

/-- The loop of `xqueue_close` that puts the nodes of the root `r` on the free list, for at most
`fuel` rounds. -/
def xqueueDrain (r : ℕ) : ℕ → XQueue α → XQueue α
  | 0, q => q
  | fuel+1, q =>
    match (q.roots r).first with
    | none => q
    | some node =>
      xqueueDrain r fuel { q.setRoot r { q.roots r with first := q.next node } with
        next := Function.update q.next node q.left, left := some node }

/-- `xqueue_close` -/
def xqueueClose (q : XQueue α) (qid : ℤ) : Option (XQueue α) :=
  if XqId qid then
    let q := (xqueueDrain qid.toNat (q.nlist * XQ_NODES_MAX) q).setRoot qid.toNat .zero
    if q.waits.length < XQ_ROOTS_MAX then some { q with waits := qid.toNat::q.waits } else none
  else some q

/-- The part of `xqueue_push` that finds a node, where `xmm_mnew` succeeds. -/
def xqueueTake (q : XQueue α) : Option (XQueue α × ℕ) :=
  match q.left with
  | some node => some ({ q with left := q.next node, nleft := q.nleft - 1 }, node)
  | none =>
    if q.nlist < XQ_LINE_MAX then
      let nodes := q.nlist * XQ_NODES_MAX
      let links := stack q.next q.left (List.range' (nodes + 1) (XQ_NODES_MAX - 1))
      some ({ q with nlist := q.nlist + 1, next := links.1, left := links.2 }, nodes)
    else none

/-- The part of `xqueue_push` that hangs the node in at the root `r`. -/
def xqueueHang (q : XQueue α) (r node : ℕ) (ptr : Option α) : XQueue α :=
  let root := q.roots r
  let q := { q with ptr := Function.update q.ptr node ptr }
  let q := match root.last with
    | some last => { q.setRoot r { root with last := some node, total := root.total + 1 } with
        next := Function.update q.next last (some node) }
    | none => q.setRoot r
        { root with first := some node, last := some node, total := root.total + 1 }
  { q with next := Function.update q.next node none }

/-- `xqueue_push` -/
def xqueuePush (q : XQueue α) (qid : ℤ) (ptr : Option α) : Option (XQueue α) :=
  if XqId qid then (xqueueTake q).map fun s => xqueueHang s.1 qid.toNat s.2 ptr else some q

/-- `xqueue_head` -/
def xqueueHead (q : XQueue α) (qid : ℤ) : Option α :=
  if XqId qid then (q.roots qid.toNat).first.bind q.ptr else none

/-- `xqueue_pop` -/
def xqueuePop (q : XQueue α) (qid : ℤ) : XQueue α × Option α :=
  if XqId qid then
    let root := q.roots qid.toNat
    match root.first with
    | none => (q,none)
    | some node =>
      let last := if q.next node = none then none else root.last
      ({ q.setRoot qid.toNat { root with first := q.next node, last := last, total := root.total - 1 }
         with next := Function.update q.next node q.left, left := some node, nleft := q.nleft + 1 },
        q.ptr node)
  else (q,none)

/-- The calls on the queues. -/
inductive XqOp (α : Type*)
  | new
  | push (qid : ℤ) (ptr : Option α)
  | pop (qid : ℤ)
  | head (qid : ℤ)
  | close (qid : ℤ)

/-- What a call returns. -/
inductive XqRet (α : Type*)
  | void
  | qid (n : ℤ)
  | ptr (p : Option α)
  deriving DecidableEq

/-- A call, undefined where it leaves the arrays. -/
def XqOp.run (q : XQueue α) : XqOp α → Option (XQueue α × XqRet α)
  | .new => (xqueueNew q).map fun s => (s.1,.qid s.2)
  | .push qid ptr => (xqueuePush q qid ptr).map fun q => (q,.void)
  | .pop qid => some ((xqueuePop q qid).1,.ptr (xqueuePop q qid).2)
  | .head qid => some (q,.ptr (xqueueHead q qid))
  | .close qid => (xqueueClose q qid).map fun q => (q,.void)

end

end Sbase
