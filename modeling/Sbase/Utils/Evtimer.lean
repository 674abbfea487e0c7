import Mathlib.Tactic

/-! `utils/evtimer.c`: timers on a list sorted by expiry, over a fixed array of nodes.

A node pointer is the node's place in `nodes`. `H` is the type of handlers and `A` that of their
arguments; the time read by `gettimeofday` is a parameter of each operation that reads it. -/
namespace Sbase

def EVTNODE_MAX : ℕ := 65536

/-- `EVTNODE` -/
structure EvtNode (H A : Type*) where
  id : ℕ
  ison : Bool
  evusec : ℤ
  arg : Option A
  handler : Option H
  prev : Option ℕ
  next : Option ℕ

/-- A node of zeroed memory. -/
def EvtNode.zero {H A : Type*} : EvtNode H A := ⟨0,false,0,none,none,none,none⟩

/-- The fields that `evtimer_add` and `evtimer_update` both assign. -/
def EvtNode.arm {H A : Type*} (n : EvtNode H A) (evusec : ℤ) (handler : Option H)
    (arg : Option A) : EvtNode H A :=
  { n with handler := handler, arg := arg, evusec := evusec }

/-- `EVTIMER`; the list `timeouts` holds the first `ntimeout` entries of the array. -/
structure EvTimer (H A : Type*) where
  nodes : ℕ → EvtNode H A
  timeouts : List ℕ
  left : Option ℕ
  head : Option ℕ
  tail : Option ℕ

section
variable {H A : Type*}

/-- An assignment to fields of the node at place `i`. -/
def EvTimer.modify (t : EvTimer H A) (i : ℕ) (f : EvtNode H A → EvtNode H A) : EvTimer H A :=
  { t with nodes := Function.update t.nodes i (f (t.nodes i)) }

def EvTimer.setNext (t : EvTimer H A) (i : ℕ) (p : Option ℕ) : EvTimer H A :=
  t.modify i fun n => { n with next := p }

def EvTimer.setPrev (t : EvTimer H A) (i : ℕ) (p : Option ℕ) : EvTimer H A :=
  t.modify i fun n => { n with prev := p }

/-- The search `while(tmp && tmp->evusec > node->evusec) tmp = tmp->prev`, for at most `fuel`
rounds. -/
def evtimerSeek (t : EvTimer H A) (evusec : ℤ) : ℕ → Option ℕ → Option ℕ
  | 0, _ => none
  | _, none => none
  | fuel+1, some i =>
    if evusec < (t.nodes i).evusec then evtimerSeek t evusec fuel (t.nodes i).prev else some i

/-- The branch of `evtimer_push` that links the node `n` in behind `m`. -/
def evtimerLinkAfter (t : EvTimer H A) (n m : ℕ) : EvTimer H A :=
  let t := ((t.setNext n (t.nodes m).next).setPrev n (some m)).setNext m (some n)
  match (t.nodes n).next with
  | some k => t.setPrev k (some n)
  | none => t

/-- `evtimer_push` after it has cleared the links of the node. -/
def evtimerLink (t : EvTimer H A) (n : ℕ) : EvTimer H A :=
  match t.head, t.tail with
  | some h, some l =>
    if (t.nodes l).evusec ≤ (t.nodes n).evusec then
      { (t.setPrev n (some l)).setNext l (some n) with tail := some n }
    else if (t.nodes n).evusec < (t.nodes h).evusec then
      { (t.setNext n (some h)).setPrev h (some n) with head := some n }
    else
      match evtimerSeek t (t.nodes n).evusec EVTNODE_MAX (t.nodes l).prev with
      | some m => evtimerLinkAfter t n m
      | none => t
  | _, _ => { t with head := some n, tail := some n }

/-- `evtimer_push` -/
def evtimerPush (t : EvTimer H A) (n : ℕ) : EvTimer H A :=
  evtimerLink ((t.setNext n none).setPrev n none) n

/-- `evtimer_add`: the new node's id, or -1. -/
def evtimerAdd (t : EvTimer H A) (now timeout : ℤ) (handler : Option H) (arg : Option A) :
    EvTimer H A × ℤ :=
  if handler.isSome ∧ 0 < timeout then
    match t.left with
    | some i =>
      let n := t.nodes i
      let t := { t with left := n.next }
      let t := t.modify i fun n => { n.arm (now + timeout) handler arg with ison := true }
      (evtimerPush t i, n.id)
    | none => (t,-1)
  else (t,-1)

/-- The unlinking that `evtimer_update` and `evtimer_delete` begin with. -/
def evtimerUnlink (t : EvTimer H A) (i : ℕ) : EvTimer H A :=
  let t := match (t.nodes i).prev with
    | some p => t.setNext p (t.nodes i).next
    | none => t
  let t := match (t.nodes i).next with
    | some q => t.setPrev q (t.nodes i).prev
    | none => t
  { t with head := if t.head = some i then (t.nodes i).next else t.head,
           tail := if t.tail = some i then (t.nodes i).prev else t.tail }

/-- `evtimer_update` -/
def evtimerUpdate (t : EvTimer H A) (evid now timeout : ℤ) (handler : Option H) (arg : Option A) :
    EvTimer H A × ℤ :=
  if 0 < evid ∧ evid < EVTNODE_MAX then
    let i := evid.toNat
    if (t.nodes i).ison then
      let t := (evtimerUnlink t i).modify i fun n => n.arm (now + timeout) handler arg
      (evtimerPush t i, 0)
    else (t,-1)
  else (t,-1)

/-- `evtimer_delete`, whose return value is -1 in every case. -/
def evtimerDelete (t : EvTimer H A) (evid : ℤ) : EvTimer H A × ℤ :=
  if 0 < evid ∧ evid < EVTNODE_MAX then
    let i := evid.toNat
    if (t.nodes i).ison then
      let t := evtimerUnlink t i
      let t := t.modify i fun _ => { EvtNode.zero with id := i, next := t.left }
      ({ t with left := some i }, -1)
    else (t,-1)
  else (t,-1)

/-- The body of the locked loop of `evtimer_check` for the node `i` at the head: it leaves the list
and is noted in `timeouts`. -/
def evtimerShift (t : EvTimer H A) (i : ℕ) : EvTimer H A :=
  let t := match (t.nodes i).next with
    | some j => { t.setPrev j none with head := some j }
    | none => { t with head := none, tail := none }
  let t := { t with timeouts := t.timeouts ++ [(t.nodes i).id] }
  (t.setNext i none).setPrev i none

/-- The locked loop of `evtimer_check`, for at most `fuel` rounds. -/
def evtimerExpire (now : ℤ) : ℕ → EvTimer H A → EvTimer H A
  | 0, t => t
  | fuel+1, t =>
    match t.head with
    | none => t
    | some i => if (t.nodes i).evusec < now then evtimerExpire now fuel (evtimerShift t i) else t

/-- The test by which `evtimer_check` calls the handler of an expired id. -/
def evtimerFires (t : EvTimer H A) (id : ℕ) : Option H :=
  if id ≠ 0 ∧ (t.nodes id).next = none ∧ (t.nodes id).prev = none ∧ (t.nodes id).ison
  then (t.nodes id).handler else none

/-- The unlocked loop of `evtimer_check` over the expired ids. The handlers act on the state `σ` of
the whole program, of which the timer is a part. -/
def evtimerDispatch {σ : Type*} (timer : σ → EvTimer H A) (call : H → Option A → σ → σ) :
    List ℕ → σ → σ
  | [], s => s
  | id::ids, s =>
    match evtimerFires (timer s) id with
    | some handler => evtimerDispatch timer call ids (call handler ((timer s).nodes id).arg s)
    | none => evtimerDispatch timer call ids s

/-- `evtimer_check` up to the end of its locked section. -/
def evtimerCheckLocked (t : EvTimer H A) (now : ℤ) : EvTimer H A :=
  match t.head with
  | none => t
  | some _ => evtimerExpire now EVTNODE_MAX { t with timeouts := [] }

/-- `evtimer_check` -/
def evtimerCheck {σ : Type*} (timer : σ → EvTimer H A) (setTimer : EvTimer H A → σ → σ)
    (call : H → Option A → σ → σ) (now : ℤ) (s : σ) : σ :=
  match (timer s).head with
  | none => s
  | some _ =>
    let t := evtimerCheckLocked (timer s) now
    evtimerDispatch timer call t.timeouts (setTimer t s)

/-- The loop of `evtimer_init` after its first `n` rounds. -/
def evtimerFill : ℕ → EvTimer H A
  | 0 => ⟨fun _ => EvtNode.zero,[],none,none,none⟩
  | n+1 =>
    let t := evtimerFill n
    { t.modify (n+1) fun d => { d with next := t.left, id := n+1 } with left := some (n+1) }

/-- `evtimer_init` -/
def evtimerInit : EvTimer H A := evtimerFill (EVTNODE_MAX - 1)

end

end Sbase
