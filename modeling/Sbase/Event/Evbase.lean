import Mathlib.Tactic

/-! The event bases of `libevbase`: `evbase.c` over the backends of `evselect.c`, `evpoll.c` and
`evepoll.c`.

An `EVENT` is named by its address. `ev_base` only tells whether an event belongs to the base. The
tables of the backends are indexed by file descriptors. -/
namespace Sbase

/-- The `int` that holds event flags. -/
abbrev Flags : Type := BitVec 32

def E_READ : Flags := 0x01
def E_WRITE : Flags := 0x02
def E_CLOSE : Flags := 0x04
def E_PERSIST : Flags := 0x08
def E_EPOLL_ET : Flags := 0x10
def E_LOCK : Flags := 0x20

def EV_MAX_FD : ℤ := 65000
def FD_SETSIZE : ℤ := 1024

def POLLIN : Flags := 0x01
def POLLOUT : Flags := 0x04
def EPOLLIN : Flags := 0x01
def EPOLLOUT : Flags := 0x04
def EPOLLET : Flags := 0x80000000

/-- The test `flags & bit`. -/
def hasFlag (flags bit : Flags) : Bool := flags &&& bit ≠ 0

structure Event where
  evFlags : Flags
  oldEvFlags : Flags
  evFd : ℤ
  evBase : Bool

/-- An event that reads or writes. -/
def Event.interested (ev : Event) : Bool := hasFlag ev.evFlags E_READ || hasFlag ev.evFlags E_WRITE

/-- An `EVBASE` with the tables of its backend. -/
structure Evbase (τ : Type) where
  maxfd : ℤ
  allowed : ℤ
  evlist : ℕ → Option ℕ
  table : τ

namespace Evbase
variable {τ : Type}

/-- The test of every operation of a backend. -/
def accepts (b : Evbase τ) (ev : Event) : Bool := 0 ≤ ev.evFd ∧ ev.evFd < b.allowed

/-- `UPDATE_EVENT_FD` -/
def updateEventFd (b : Evbase τ) (e : ℕ) (ev : Event) : Evbase τ :=
  { b with evlist := Function.update b.evlist ev.evFd.toNat (some e),
           maxfd := if b.maxfd < ev.evFd then ev.evFd else b.maxfd }

/-- `REMOVE_EVENT_FD` -/
def removeEventFd (b : Evbase τ) (ev : Event) : Evbase τ :=
  { b with maxfd := if ev.evFd = b.maxfd then ev.evFd - 1 else b.maxfd,
           evlist := Function.update b.evlist ev.evFd.toNat none }

end Evbase

/-- The operations of a backend, on the event with an address, and the interest registered in its
tables. -/
structure Backend (τ : Type) where
  start : τ
  add : Evbase τ → ℕ → Event → Evbase τ × Event
  update : Evbase τ → ℕ → Event → Evbase τ × Event
  del : Evbase τ → ℕ → Event → Evbase τ
  reads : τ → ℕ → Bool
  writes : τ → ℕ → Bool

/-! ### `evselect.c` -/

/-- `ev_read_fds` and `ev_write_fds`. -/
structure SelectFds where
  readFds : ℕ → Bool
  writeFds : ℕ → Bool

/-- `FD_SET` and `FD_CLR` -/
def fdPut (fds : ℕ → Bool) (fd : ℤ) (b : Bool) : ℕ → Bool := Function.update fds fd.toNat b

/-- `evselect_add` -/
def evselectAdd (b : Evbase SelectFds) (e : ℕ) (ev : Event) : Evbase SelectFds × Event :=
  if b.accepts ev then
    let b := b.updateEventFd e ev
    let b :=
      if hasFlag ev.evFlags E_READ then
        { b with table := { b.table with readFds := fdPut b.table.readFds ev.evFd true } }
      else b
    let b :=
      if hasFlag ev.evFlags E_WRITE then
        { b with table := { b.table with writeFds := fdPut b.table.writeFds ev.evFd true } }
      else b
    (b, { ev with evBase := true })
  else (b,ev)

/-- `evselect_update` -/
def evselectUpdate (b : Evbase SelectFds) (e : ℕ) (ev : Event) : Evbase SelectFds × Event :=
  if b.accepts ev then
    let b := b.updateEventFd e ev
    let flags := ev.evFlags ^^^ ev.oldEvFlags
    let addFlags := ev.evFlags &&& flags
    let delFlags := ev.oldEvFlags &&& flags
    let readFds := b.table.readFds
    let readFds := if hasFlag addFlags E_READ then fdPut readFds ev.evFd true else readFds
    let readFds := if hasFlag delFlags E_READ then fdPut readFds ev.evFd false else readFds
    let writeFds := b.table.writeFds
    let writeFds := if hasFlag addFlags E_WRITE then fdPut writeFds ev.evFd true else writeFds
    let writeFds := if hasFlag delFlags E_WRITE then fdPut writeFds ev.evFd false else writeFds
    ({ b with table := ⟨readFds,writeFds⟩ }, ev)
  else (b,ev)

/-- `evselect_del` -/
def evselectDel (b : Evbase SelectFds) (_ : ℕ) (ev : Event) : Evbase SelectFds :=
  if b.accepts ev then
    let readFds := fdPut b.table.readFds ev.evFd false
    let writeFds := fdPut b.table.writeFds ev.evFd false
    Evbase.removeEventFd { b with table := ⟨readFds,writeFds⟩ } ev
  else b

def evselect : Backend SelectFds where
  start := ⟨fun _ => false,fun _ => false⟩
  add := evselectAdd
  update := evselectUpdate
  del := evselectDel
  reads t n := t.readFds n
  writes t n := t.writeFds n

/-! ### `evpoll.c` -/

/-- A `pollfd`, its `revents` apart. -/
structure PollFd where
  fd : ℤ
  events : Flags

/-- The interest of an event in the bits of `poll`. -/
def pollFlags (ev : Event) : Flags :=
  (if hasFlag ev.evFlags E_READ then POLLIN else 0) |||
    if hasFlag ev.evFlags E_WRITE then POLLOUT else 0

/-- `evpoll_add` -/
def evpollAdd (b : Evbase (ℕ → PollFd)) (e : ℕ) (ev : Event) : Evbase (ℕ → PollFd) × Event :=
  if b.accepts ev then
    let b := b.updateEventFd e ev
    let b :=
      if pollFlags ev ≠ 0 then
        { b with table := Function.update b.table ev.evFd.toNat ⟨ev.evFd,pollFlags ev⟩ }
      else b
    (b, { ev with evBase := true })
  else (b,ev)

/-- `evpoll_update` -/
def evpollUpdate (b : Evbase (ℕ → PollFd)) (e : ℕ) (ev : Event) : Evbase (ℕ → PollFd) × Event :=
  if b.accepts ev then
    let b := b.updateEventFd e ev
    ({ b with table := Function.update b.table ev.evFd.toNat ⟨ev.evFd,pollFlags ev⟩ },
      { ev with evBase := true })
  else (b,ev)

/-- `evpoll_del` -/
def evpollDel (b : Evbase (ℕ → PollFd)) (_ : ℕ) (ev : Event) : Evbase (ℕ → PollFd) :=
  if b.accepts ev then
    Evbase.removeEventFd { b with table := Function.update b.table ev.evFd.toNat ⟨0,0⟩ } ev
  else b

def evpoll : Backend (ℕ → PollFd) where
  start _ := ⟨0,0⟩
  add := evpollAdd
  update := evpollUpdate
  del := evpollDel
  reads t n := (t n).fd = n ∧ hasFlag (t n).events POLLIN
  writes t n := (t n).fd = n ∧ hasFlag (t n).events POLLOUT

/-! ### `evepoll.c` -/

/-- What `epoll_ctl` keeps for a descriptor: the mask and the event. -/
abbrev EpollSet : Type := ℕ → Option (Flags × ℕ)

inductive EpollOp
  | add
  | mod
  | del

inductive Errno
  | eexist
  | enoent

/-- `epoll_ctl` -/
def epollCtl (s : EpollSet) (op : EpollOp) (fd : ℤ) (ev : Flags × ℕ) : EpollSet × Option Errno :=
  match op, s fd.toNat with
  | .add, none => (Function.update s fd.toNat (some ev), none)
  | .add, some _ => (s, some .eexist)
  | .mod, some _ => (Function.update s fd.toNat (some ev), none)
  | .mod, none => (s, some .enoent)
  | .del, some _ => (Function.update s fd.toNat none, none)
  | .del, none => (s, some .enoent)

/-- The call of `epoll_ctl` in `evepoll_add` and `evepoll_update`, with what follows a failure. -/
def epollRetry (s : EpollSet) (op : EpollOp) (fd : ℤ) (ev : Flags × ℕ) : EpollSet :=
  match epollCtl s op fd ev with
  | (s,none) => s
  | (s,some .enoent) => (epollCtl s .add fd ev).1
  | (s,some .eexist) => (epollCtl s .mod fd ev).1

/-- The interest of an event in the bits of `epoll`. -/
def epollFlags (ev : Event) : Flags :=
  (if hasFlag ev.evFlags E_READ then EPOLLIN else 0) |||
    (if hasFlag ev.evFlags E_WRITE then EPOLLOUT else 0) |||
    if hasFlag ev.evFlags E_EPOLL_ET then EPOLLET else 0

/-- `evepoll_add` -/
def evepollAdd (b : Evbase EpollSet) (e : ℕ) (ev : Event) : Evbase EpollSet × Event :=
  if b.accepts ev then
    let b :=
      if ev.interested then
        let b := b.updateEventFd e ev
        { b with table := epollRetry b.table .add ev.evFd (epollFlags ev,e) }
      else b
    (b, { ev with evBase := true })
  else (b,ev)

/-- `evepoll_update` -/
def evepollUpdate (b : Evbase EpollSet) (e : ℕ) (ev : Event) : Evbase EpollSet × Event :=
  if b.accepts ev then
    let b := b.updateEventFd e ev
    let op := if b.evlist ev.evFd.toNat = none then EpollOp.add else EpollOp.mod
    ({ b with table := epollRetry b.table op ev.evFd (epollFlags ev,e) }, ev)
  else (b,ev)

/-- `evepoll_del` -/
def evepollDel (b : Evbase EpollSet) (e : ℕ) (ev : Event) : Evbase EpollSet :=
  if b.accepts ev ∧ b.evlist ev.evFd.toNat ≠ none then
    Evbase.removeEventFd { b with table := (epollCtl b.table .del ev.evFd (0,e)).1 } ev
  else b

def evepoll : Backend EpollSet where
  start _ := none
  add := evepollAdd
  update := evepollUpdate
  del := evepollDel
  reads t n := (t n).any fun x => hasFlag x.1 EPOLLIN
  writes t n := (t n).any fun x => hasFlag x.1 EPOLLOUT

/-! ### `evbase.c` -/

/-- A base and the events. -/
structure EventWorld (τ : Type) where
  base : Evbase τ
  events : ℕ → Event

namespace EventWorld
variable {τ : Type}

/-- An assignment to an event and the base. -/
def put (w : EventWorld τ) (e : ℕ) (r : Evbase τ × Event) : EventWorld τ :=
  ⟨r.1,Function.update w.events e r.2⟩

/-- `event_set`, with a handler. -/
def eventSet (w : EventWorld τ) (e : ℕ) (fd : ℤ) (flags : Flags) : EventWorld τ :=
  if 0 < fd then w.put e (w.base, { w.events e with evFd := fd, evFlags := flags }) else w

/-- `evbase->add` -/
def add (B : Backend τ) (w : EventWorld τ) (e : ℕ) : EventWorld τ :=
  w.put e (B.add w.base e (w.events e))

/-- `event_add` -/
def eventAdd (B : Backend τ) (w : EventWorld τ) (e : ℕ) (flags : Flags) : EventWorld τ :=
  let ev := w.events e
  if ev.evBase ∧ flags ≠ 0 then
    w.put e (B.update w.base e
      { ev with oldEvFlags := ev.evFlags, evFlags := ev.evFlags ||| flags })
  else w

/-- `event_del` -/
def eventDel (B : Backend τ) (w : EventWorld τ) (e : ℕ) (flags : Flags) : EventWorld τ :=
  let ev := w.events e
  if ev.evBase ∧ flags ≠ 0 then
    w.put e (B.update w.base e
      { ev with oldEvFlags := ev.evFlags, evFlags := ev.evFlags &&& ~~~flags })
  else w

/-- `event_destroy` -/
def eventDestroy (B : Backend τ) (w : EventWorld τ) (e : ℕ) : EventWorld τ :=
  let ev := { w.events e with evFlags := 0 }
  if ev.evBase then w.put e (B.del w.base e ev, { ev with evBase := false }) else w.put e (w.base,ev)

end EventWorld

inductive EventOp
  | set (e : ℕ) (fd : ℤ) (flags : Flags)
  | add (e : ℕ)
  | eventAdd (e : ℕ) (flags : Flags)
  | eventDel (e : ℕ) (flags : Flags)
  | destroy (e : ℕ)

def EventOp.apply {τ : Type} (B : Backend τ) (w : EventWorld τ) : EventOp → EventWorld τ
  | .set e fd flags => w.eventSet e fd flags
  | .add e => w.add B e
  | .eventAdd e flags => w.eventAdd B e flags
  | .eventDel e flags => w.eventDel B e flags
  | .destroy e => w.eventDestroy B e

/-- The base as `evbase_init` makes it, and events that belong to no base yet. -/
def Backend.init {τ : Type} (B : Backend τ) (events : ℕ → Event) : EventWorld τ :=
  ⟨⟨0,EV_MAX_FD,fun _ => none,B.start⟩,fun e => { events e with evBase := false }⟩

end Sbase
