import Sbase.Lib.LinkedList
import Sbase.Conn.State

/-! The message queues of `message.c`, a linked list whose nodes are recycled through a free list, and
`conn_push_message`.

A `MESSAGE` node is named by its place: the nodes of `pools` come first, then those of the lines of
`list` in their order. Every operation holds the mutex of its queue, so that each is one step. -/
namespace Sbase
open LinkedList

def QMSG_LINE_MAX : ℕ := 1024
def QMSG_LINE_NUM : ℕ := 4096
def QMSG_INIT_NUM : ℕ := 4096
def MESSAGE_MAX : ℤ := 0x17

/-- The contents of a `MESSAGE`, its link apart; a null pointer is 0. -/
structure Message where
  msgId : ℤ
  index : ℤ
  fd : ℤ
  tid : ℤ
  handler : ℕ
  parent : ℕ
  arg : ℕ
  deriving DecidableEq

structure QMessage where
  total : ℤ
  qtotal : ℤ
  nleft : ℤ
  nlist : ℕ
  left : Option ℕ
  first : Option ℕ
  last : Option ℕ
  next : ℕ → Option ℕ
  msg : ℕ → Message

/-- `qmessage_left` -/
def qmessageLeft (q : QMessage) (i : ℕ) : QMessage :=
  { q with next := Function.update q.next i q.left, left := some i, nleft := q.nleft + 1 }

/-- Nodes put on the free list one after the other. -/
def stockLeft (q : QMessage) (is : List ℕ) : QMessage := is.foldl qmessageLeft q

/-- A queue of zeroed memory. -/
def QMessage.zero : QMessage where
  total := 0
  qtotal := 0
  nleft := 0
  nlist := 0
  left := none
  first := none
  last := none
  next _ := none
  msg _ := ⟨0,0,0,0,0,0,0⟩

/-- `qmessage_init` -/
def qmessageInit : QMessage :=
  { stockLeft .zero (List.range QMSG_INIT_NUM) with qtotal := QMSG_INIT_NUM }

/-- The first node of the next line. -/
def QMessage.line (q : QMessage) : ℕ := QMSG_INIT_NUM + q.nlist * QMSG_LINE_NUM

/-- The part of `qmessage_push` that allocates a line and keeps its first node. -/
def addLine (q : QMessage) : QMessage :=
  let s := stockLeft { q with nlist := q.nlist + 1 } (List.range' (q.line + 1) (QMSG_LINE_NUM - 1))
  { s with qtotal := s.qtotal + QMSG_LINE_NUM }

/-- The part of `qmessage_push` that finds a node, where the allocation of a line succeeds. -/
def takeNode (q : QMessage) : QMessage × Option ℕ :=
  match q.left with
  | some i => ({ q with left := q.next i, nleft := q.nleft - 1 }, some i)
  | none => if q.nlist < QMSG_LINE_MAX then (addLine q, some q.line) else (q,none)

/-- The part of `qmessage_push` that fills a node and hangs it behind the last one. -/
def hangNode (q : QMessage) (i : ℕ) (m : Message) : QMessage :=
  let next := Function.update q.next i none
  match q.last with
  | some j => { q with msg := Function.update q.msg i m, next := Function.update next j (some i),
                       last := some i, total := q.total + 1 }
  | none => { q with msg := Function.update q.msg i m, next := next, first := some i, last := some i,
                     total := q.total + 1 }

/-- `qmessage_push` -/
def qmessagePush (q : QMessage) (m : Message) : QMessage :=
  match takeNode q with
  | (q,some i) => hangNode q i m
  | (q,none) => q

/-- `qmessage_pop` -/
def qmessagePop (q : QMessage) : QMessage × Option ℕ :=
  match q.first with
  | some i =>
    ({ q with first := q.next i, last := if q.next i = none then none else q.last,
              total := q.total - 1, next := Function.update q.next i none }, some i)
  | none => (q,none)

/-- The fields of a `CONN` that `conn_push_message` reads, and its address; `queued` tells whether it
has a message queue. -/
structure Sender where
  self : ℕ
  dState : ℕ
  queued : Bool
  parent : ℕ
  index : ℤ
  fd : ℤ

/-- The message that `conn_push_message` pushes. -/
def Sender.message (c : Sender) (id : ℤ) : Message := ⟨id,c.index,c.fd,-1,c.self,c.parent,0⟩

/-- The tests of `conn_push_message`. -/
def Sender.sends (c : Sender) (id : ℤ) : Bool :=
  closing c.dState = false ∧ c.queued ∧ 0 < id ∧ id ≤ MESSAGE_MAX ∧ c.parent ≠ 0

/-- `conn_push_message`, the wakeup of its thread apart. -/
def connPushMessage (q : QMessage) (c : Sender) (id : ℤ) : QMessage × ℤ :=
  if c.sends id then (qmessagePush q (c.message id), 0) else (q,-1)

/-- The calls on a queue, `left` by a thread that has done with a node. -/
inductive QueueOp
  | push (m : Message)
  | pop
  | left (i : ℕ)
  | connPush (c : Sender) (id : ℤ)

/-- A queue with the record of its callers: the messages pushed, those of `conn_push_message` only
where it returned 0, the messages popped, and the nodes popped and not returned since. -/
structure MessageWorld where
  q : QMessage
  pushed : List Message
  popped : List Message
  out : List ℕ

namespace MessageWorld

def push (w : MessageWorld) (m : Message) : MessageWorld :=
  { w with q := qmessagePush w.q m, pushed := w.pushed ++ [m] }

def pop (w : MessageWorld) : MessageWorld :=
  match qmessagePop w.q with
  | (q,some i) => { w with q := q, popped := w.popped ++ [q.msg i], out := i::w.out }
  | (q,none) => { w with q := q }

/-- A thread returns only a node that it has popped. -/
def giveBack (w : MessageWorld) (i : ℕ) : MessageWorld :=
  if i ∈ w.out then { w with q := qmessageLeft w.q i, out := w.out.erase i } else w

def connPush (w : MessageWorld) (c : Sender) (id : ℤ) : MessageWorld :=
  let r := connPushMessage w.q c id
  { w with q := r.1, pushed := if r.2 = 0 then w.pushed ++ [c.message id] else w.pushed }

end MessageWorld

def QueueOp.apply (w : MessageWorld) : QueueOp → MessageWorld
  | .push m => w.push m
  | .pop => w.pop
  | .left i => w.giveBack i
  | .connPush c id => w.connPush c id

def MessageWorld.init : MessageWorld := ⟨qmessageInit,[],[],[]⟩

/-- The nodes of the queue, in order. -/
def QMessage.queue (q : QMessage) : List ℕ := walk q.next q.total.toNat q.first

/-- The nodes of the free list. -/
def QMessage.free (q : QMessage) : List ℕ := walk q.next q.nleft.toNat q.left

/-- The messages pushed are those popped and then those queued, `total` counts the latter, and each
node is in one place. -/
structure QueueOK (w : MessageWorld) : Prop where
  fifo : w.pushed = w.popped ++ w.q.queue.map w.q.msg
  queue : Chain w.q.next w.q.first w.q.queue
  free : Chain w.q.next w.q.left w.q.free
  total : w.q.total = w.q.queue.length
  nodes : (w.q.queue ++ (w.q.free ++ w.out)).Perm (List.range (QMSG_INIT_NUM + w.q.nlist * QMSG_LINE_NUM))
  qtotal : w.q.qtotal = QMSG_INIT_NUM + w.q.nlist * QMSG_LINE_NUM
  sum : w.q.nleft + w.q.total + w.out.length = w.q.qtotal

/-- The nodes that a queue can ever have. -/
def QMSG_MAX : ℕ := QMSG_INIT_NUM + QMSG_LINE_MAX * QMSG_LINE_NUM

/-- Whether a call pushes a message. -/
def QueueOp.pushes : QueueOp → Bool
  | .push _ => true
  | .connPush c id => c.sends id
  | _ => false

/-- A call that pushes finds fewer messages queued or not yet returned than there can be nodes. -/
def Fits (w : MessageWorld) (op : QueueOp) : Prop :=
  op.pushes → w.q.total + w.out.length < QMSG_MAX

end Sbase
