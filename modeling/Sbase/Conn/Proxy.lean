import Sbase.Service.State
import Sbase.Conn.ReadHandler
import Sbase.Conn.Send
import Sbase.Conn.Segmentation

/-! The relay of a proxy: `service_findconn`, by which `conn_proxy_handler` looks its peer up in the
table of the service, and the bytes that reach the send queue of the peer.

`service_findconn` tests the session state of the peer against a flag of its data state. -/
namespace Sbase
open Memory Runs RecvConn

/-- The test by which `conn_push_chunk` accepts data for a connection. -/
def Control.accepts (k : Control) : Bool :=
  !connCheck k.dState (D_STATE_CLOSE ||| D_STATE_WCLOSE ||| D_STATE_RCLOSE) ∧
    k.status = CONN_STATUS_FREE

namespace Service

/-- `service_findconn` -/
def serviceFindconn (s : Service) (index : ℤ) : Option ℕ :=
  if s.lock = 0 ∧ 0 < index ∧ index ≤ s.indexMax then
    match s.connections index.toNat with
    | some c => if (s.conns c).sState &&& D_STATE_CLOSE ≠ 0 then none else some c
    | none => none
  else none

/-- The connection that `conn_proxy_handler` and `conn_close_proxy` find. -/
def proxyPeer (s : Service) (c : ℕ) : Option ℕ :=
  let d := s.conns c
  if d.parent ≠ none ∧ s.serviceFindconn d.parentid = d.parent then d.parent
  else if d.child ≠ none ∧ s.serviceFindconn d.childid = d.child then d.child
  else none

/-- What `conn_close_proxy` does to the peer, its timeout apart. -/
def unbindPeer (s : Service) (c : ℕ) : Service :=
  let d := s.conns c
  if d.parent ≠ none ∧ s.serviceFindconn d.parentid = d.parent then
    s.modify (d.parent.getD 0) fun p => { p with childid := 0, child := none }
  else if d.child ≠ none ∧ s.serviceFindconn d.childid = d.child then
    s.modify (d.child.getD 0) fun p => { p with parent := none, parentid := 0 }
  else s

end Service

namespace RecvConn

/-- The data that `conn_proxy_handler` has to relay. -/
def pending (s : RecvConn) : List UInt8 := s.exchange.bytes ++ s.chunkBytes ++ s.buffer.bytes

/-- The test by which `conn_terminate` calls the reader and the handler of chunks. -/
def readsChunk (s : RecvConn) : Prop :=
  s.sState = S_STATE_CHUNK_READING ∧ 0 < s.buffer.ndata ∧
    0 < s.session.chunkReader.elim 0 fun reader => reader s.buffer.bytes

instance (s : RecvConn) : Decidable s.readsChunk := inferInstanceAs (Decidable (_ ∧ _ ∧ _))

/-- The input half of `conn_terminate`; `errorHandler` tells whether the session has one. -/
def connTerminate (errorHandler : Bool) (peer : Bool) (s : RecvConn) : RecvConn :=
  let s : RecvConn := { s with dState := D_STATE_CLOSE }
  let s :=
    if s.sState = S_STATE_DATA_HANDLING ∧ 0 < s.chunk.ndata ∧ s.session.packetType = PACKET_PROXY then
      (s.connProxyHandler peer).1
    else s
  let s : RecvConn :=
    if s.readsChunk then
      { s with eState := E_STATE_OFF, handed := s.handed ++ [.chunk s.buffer.bytes] }
    else s
  let s : RecvConn :=
    if s.eState = E_STATE_ON ∧ errorHandler then
      { s with buffer := mmblockReset s.buffer, packet := mmblockReset s.packet,
               oob := mmblockReset s.oob, chunk := chunkReset s.chunk }
    else s
  let s := if s.session.packetType &&& PACKET_PROXY ≠ 0 then (s.connProxyHandler peer).1 else s
  { s with fd := -1 }

/-- The error handler of a session comes before the data in the chunk and in the buffer are relayed,
which are dropped after it. -/
def Drops (errorHandler : Bool) (s : RecvConn) : Prop :=
  errorHandler = true ∧ s.eState = E_STATE_ON ∧ ¬ s.readsChunk ∧
    ¬ (s.sState = S_STATE_DATA_HANDLING ∧ 0 < s.chunk.ndata) ∧ s.chunkBytes ++ s.buffer.bytes ≠ []

end RecvConn

/-- A service, and the bytes pushed to the send queue of each connection. -/
structure ProxyWorld where
  service : Service
  sendq : ℕ → List UInt8

/-- The steps of a proxied connection: a read event, the messages for it, its end, and what other
threads do to the rest of the service. -/
inductive ProxyStep
  | read (env : RecvEnv)
  | proxy
  | data (env : RecvEnv)
  | close (errorHandler : Bool)
  | world (s : Service)

namespace ProxyWorld

/-- `conn_push_chunk`, its event apart, where it gets a block of the pool and memory for the bytes. -/
def pushChunk (w : ProxyWorld) (p : ℕ) (bs : List UInt8) : ProxyWorld :=
  if (w.service.conns p).toControl.accepts ∧ 0 < bs.length then
    { w with sendq := Function.update w.sendq p (w.sendq p ++ bs) }
  else w

/-- The connection `c` after an operation of its receiving half, whose additions to `relayed` are
pushed to its peer. -/
def relay (w : ProxyWorld) (c : ℕ) (r : RecvConn) : ProxyWorld :=
  let bs := r.relayed.drop (w.service.conns c).relayed.length
  let w' := { w with service := w.service.modify c fun d => { d with toRecvConn := r } }
  match w.service.proxyPeer c with
  | some p => w'.pushChunk p bs
  | none => w'

/-- Whether the peer of a connection is found. -/
def hasPeer (w : ProxyWorld) (c : ℕ) : Bool := (w.service.proxyPeer c).isSome

/-- The result of `conn_proxy_handler`. -/
def proxyResult (w : ProxyWorld) (c : ℕ) : ℤ :=
  ((w.service.conns c).toRecvConn.connProxyHandler (w.hasPeer c)).2

def read (w : ProxyWorld) (c : ℕ) (env : RecvEnv) : ProxyWorld :=
  w.relay c ((w.service.conns c).toRecvConn.readEvent { env with peer := w.hasPeer c })

def proxy (w : ProxyWorld) (c : ℕ) : ProxyWorld :=
  w.relay c ((w.service.conns c).toRecvConn.connProxyHandler (w.hasPeer c)).1

def data (w : ProxyWorld) (c : ℕ) (env : RecvEnv) : ProxyWorld :=
  w.relay c ((w.service.conns c).toRecvConn.connDataHandler { env with peer := w.hasPeer c })

def close (w : ProxyWorld) (c : ℕ) (errorHandler : Bool) : ProxyWorld :=
  let w := w.relay c
    ((w.service.conns c).toRecvConn.connTerminate errorHandler (w.hasPeer c))
  { w with service := w.service.unbindPeer c }

/-- The connection `p` is the peer of `c`, in the table and not closing. -/
structure Bound (s : Service) (c p : ℕ) : Prop where
  lock : s.lock = 0
  ne : p ≠ c
  peer : ∃ index : ℤ, 0 < index ∧ index ≤ s.indexMax ∧ s.connections index.toNat = some p ∧
    ((s.conns c).parent = some p ∧ (s.conns c).parentid = index ∨
      (s.conns c).parent = none ∧ (s.conns c).child = some p ∧ (s.conns c).childid = index)
  alive : (s.conns p).dState = D_STATE_FREE

def Step (c p : ℕ) (w : ProxyWorld) : ProxyStep → ProxyWorld → Prop
  | .read env, t => t = w.read c env
  | .proxy, t => t = w.proxy c
  | .data env, t => t = w.data c env
  | .close errorHandler, t => t = w.close c errorHandler
  | .world s, t => s.conns c = w.service.conns c ∧ Bound s c p ∧ t = { w with service := s }

/-- The peer has no 0x08 in its `s_state` and is connected. -/
def Takes (w : ProxyWorld) (p : ℕ) : Prop :=
  (w.service.conns p).sState &&& D_STATE_CLOSE = 0 ∧ (w.service.conns p).status = CONN_STATUS_FREE

/-- The condition on a step of the connection: the peer takes its data, memory is there to read into,
and no error handler drops what is still to be relayed. -/
def Clear (c p : ℕ) (w : ProxyWorld) : ProxyStep → Prop
  | .read env => w.Takes p ∧ CanRead env (w.service.conns c).buffer
  | .proxy => w.Takes p
  | .data _ => w.Takes p
  | .close errorHandler => w.Takes p ∧ ¬ (w.service.conns c).toRecvConn.Drops errorHandler
  | .world _ => True

/-- What has been pushed to the peer, followed by what is still to be relayed, is what was there at
the start, followed by what has been read since. -/
def Relays (c p : ℕ) (w₀ w : ProxyWorld) : Prop :=
  ∃ since, (w.service.conns c).received = (w₀.service.conns c).received ++ since ∧
    w.sendq p ++ (w.service.conns c).toRecvConn.pending =
      w₀.sendq p ++ (w₀.service.conns c).toRecvConn.pending ++ since

end ProxyWorld

/-! ### The receiving half -/

namespace RecvConn

/-- What an operation moves on: nothing is lost of what was to be relayed and of what it reads. -/
structure Moves (s t : RecvConn) (bs : List UInt8) : Prop where
  session : t.session = s.session
  received : t.received = s.received ++ bs
  relayed : ∃ moved, t.relayed = s.relayed ++ moved ∧ moved ++ t.pending = s.pending ++ bs
  buffer : (∃ q, Holds s.buffer q) → ∃ q, Holds t.buffer q

variable {s t u : RecvConn} {bs cs : List UInt8} {env : RecvEnv}

/-- An operation that leaves the data alone. -/
theorem Moves.still (hsession : t.session = s.session) (hreceived : t.received = s.received)
    (hrelayed : t.relayed = s.relayed) (hpending : t.pending = s.pending)
    (hbuffer : t.buffer = s.buffer) : Moves s t [] where
  session := hsession
  received := by rw [hreceived,List.append_nil]
  relayed := ⟨[],by rw [hrelayed,List.append_nil],by rw [hpending,List.append_nil,List.nil_append]⟩
  buffer h := by rwa [hbuffer]

theorem Moves.trans (h : Moves s t bs) (k : Moves t u cs) : Moves s u (bs ++ cs) where
  session := k.session.trans h.session
  received := by rw [k.received,h.received,List.append_assoc]
  relayed := by
    obtain ⟨m,hm,hpending⟩ := h.relayed
    obtain ⟨n,hn,hpending'⟩ := k.relayed
    refine ⟨m ++ n,by rw [hn,hm,List.append_assoc],?_⟩
    rw [List.append_assoc,hpending',← List.append_assoc,hpending,List.append_assoc]
  buffer hs := k.buffer (h.buffer hs)

theorem bytes_empty {m : MMBlock} (h : ¬ 0 < m.ndata) : m.bytes = [] := by
  have hzero : m.ndata.toNat = 0 := by omega
  rw [MMBlock.bytes,hzero]
  cases m.data <;> rfl

theorem reset_bytes (m : MMBlock) : (mmblockReset m).bytes = [] := by
  apply bytes_empty
  rw [mmblockReset]
  split_ifs <;> exact lt_irrefl 0

theorem reset_chunkBytes (c : Chunk) :
    ((chunkReset c).data.elim [] fun d => read d 0 (chunkReset c).ndata) = [] := by
  have hzero : (chunkReset c).ndata = 0 := by
    rw [chunkReset]
    dsimp only
    split_ifs <;> rfl
  rw [hzero]
  cases (chunkReset c).data <;> rfl

/-- The three parts of `conn_proxy_handler`. -/
def relayExchange (s : RecvConn) : RecvConn :=
  if 0 < s.exchange.ndata then
    { s with relayed := s.relayed ++ s.exchange.bytes, exchange := mmblockReset s.exchange }
  else s

def relayChunk (s : RecvConn) : RecvConn :=
  if 0 < s.chunk.ndata then
    { s with relayed := s.relayed ++ s.chunkBytes, chunk := chunkReset s.chunk }
  else s

def relayBuffer (s : RecvConn) : RecvConn :=
  if s.session.packetType = PACKET_PROXY ∧ 0 < s.buffer.ndata then
    { s with relayed := s.relayed ++ s.buffer.bytes,
             buffer := (mmblockDel s.buffer s.buffer.ndata).1 }
  else s

theorem connProxyHandler_eq (s : RecvConn) :
    s.connProxyHandler true = (relayBuffer (relayChunk (relayExchange s)), 0) := rfl

theorem relayExchange_moves (s : RecvConn) :
    Moves s (relayExchange s) [] ∧ (relayExchange s).exchange.bytes = [] := by
  rw [relayExchange]
  split_ifs with hdata
  · have hreset := reset_bytes s.exchange
    refine ⟨⟨rfl,(List.append_nil _).symm,⟨s.exchange.bytes,rfl,?_⟩,id⟩,hreset⟩
    change s.exchange.bytes ++ ((mmblockReset s.exchange).bytes ++ s.chunkBytes ++ s.buffer.bytes) =
      s.exchange.bytes ++ s.chunkBytes ++ s.buffer.bytes ++ []
    rw [hreset,List.nil_append,List.append_nil,List.append_assoc]
  · exact ⟨.still rfl rfl rfl rfl rfl,bytes_empty hdata⟩

theorem relayChunk_moves (h : s.exchange.bytes = []) :
    Moves s (relayChunk s) [] ∧ (relayChunk s).exchange.bytes = [] ∧
      (relayChunk s).chunkBytes = [] := by
  rw [relayChunk]
  split_ifs with hdata
  · have hreset := reset_chunkBytes s.chunk
    refine ⟨⟨rfl,(List.append_nil _).symm,⟨s.chunkBytes,rfl,?_⟩,id⟩,h,hreset⟩
    change s.chunkBytes ++ (s.exchange.bytes ++
      ((chunkReset s.chunk).data.elim [] fun d => read d 0 (chunkReset s.chunk).ndata) ++
        s.buffer.bytes) = s.exchange.bytes ++ s.chunkBytes ++ s.buffer.bytes ++ []
    rw [hreset,h,List.nil_append,List.nil_append,List.nil_append,List.append_nil]
  · have hzero : s.chunk.ndata = 0 := by omega
    refine ⟨.still rfl rfl rfl rfl rfl,h,?_⟩
    rw [chunkBytes,hzero]
    cases s.chunk.data <;> rfl

theorem relayBuffer_moves (ht : s.session.packetType = PACKET_PROXY) (hx : s.exchange.bytes = [])
    (hc : s.chunkBytes = []) : Moves s (relayBuffer s) [] ∧ (relayBuffer s).pending = [] := by
  rw [relayBuffer]
  split_ifs with hdata
  · have hdel : (mmblockDel s.buffer s.buffer.ndata).1.bytes = [] := by
      apply bytes_empty
      rw [mmblockDel,if_pos hdata.2,if_pos le_rfl]
      exact lt_irrefl 0
    have hpending : s.exchange.bytes ++ s.chunkBytes ++
        (mmblockDel s.buffer s.buffer.ndata).1.bytes = [] := by
      rw [hx,hc,hdel]
      rfl
    refine ⟨⟨rfl,(List.append_nil _).symm,⟨s.buffer.bytes,rfl,?_⟩,?_⟩,hpending⟩
    · change s.buffer.bytes ++ (s.exchange.bytes ++ s.chunkBytes ++
        (mmblockDel s.buffer s.buffer.ndata).1.bytes) =
          s.exchange.bytes ++ s.chunkBytes ++ s.buffer.bytes ++ []
      rw [hpending,hx,hc,List.nil_append,List.nil_append]
    · rintro ⟨q,hq⟩
      exact ⟨_,mmblockDel_holds hq _⟩
  · have hempty := bytes_empty fun hpos => hdata ⟨ht,hpos⟩
    refine ⟨.still rfl rfl rfl rfl rfl,?_⟩
    rw [pending,hx,hc,hempty]
    rfl

/-- `conn_proxy_handler` relays all that it has to, to a peer that it has found. -/
theorem connProxyHandler_found (ht : s.session.packetType = PACKET_PROXY) :
    Moves s (s.connProxyHandler true).1 [] ∧ (s.connProxyHandler true).1.pending = [] := by
  rw [connProxyHandler_eq]
  obtain ⟨h1,hx⟩ := relayExchange_moves s
  obtain ⟨h2,hx',hc⟩ := relayChunk_moves hx
  have ht' : (relayChunk (relayExchange s)).session.packetType = PACKET_PROXY := by
    rw [h2.session,h1.session,ht]
  obtain ⟨h3,hpending⟩ := relayBuffer_moves ht' hx' hc
  exact ⟨(h1.trans h2).trans h3,hpending⟩

theorem Moves.withControl (h : Moves s t bs) (k : Control) : Moves s (t.withControl k) bs :=
  ⟨h.session,h.received,h.relayed,h.buffer⟩

theorem readBlock_canRead {m : MMBlock} (h : CanRead env m) :
    readBlock env.alloc m = readBlock true m := by
  obtain hroom | halloc := h
  · rw [readBlock,readBlock,if_neg (not_lt.2 hroom),if_neg (not_lt.2 hroom)]
  · rw [halloc]

/-- A read that finds the peer relays what it reads at once. -/
theorem readBuffer_moves (ht : s.session.packetType = PACKET_PROXY) {q : List UInt8}
    (hq : Holds s.buffer q) (hroom : CanRead env s.buffer) (hpeer : env.peer = true) :
    ∃ bs, Moves s (s.readBuffer env).1 bs ∧ (bs ≠ [] → (s.readBuffer env).1.pending = []) := by
  have hread : mmblockRead env.alloc s.buffer env.recv = mmblockRead true s.buffer env.recv := by
    rw [mmblockRead,mmblockRead,readBlock_canRead hroom]
  have hbytes : blockBytes env.alloc s.buffer env.recv = readBytes s.buffer env.recv := by
    rw [← blockBytes_eq hq,blockBytes,blockBytes,readBlock_canRead hroom]
  obtain ⟨hholds,hret⟩ := mmblockRead_holds hq env.recv
  rw [RecvConn.readBuffer,hread,hbytes]
  dsimp only
  generalize mmblockRead true s.buffer env.recv = r at hholds hret ⊢
  let t : RecvConn := { s with buffer := r.1,
                               received := s.received ++ readBytes s.buffer env.recv }
  have hmoves : Moves s t (readBytes s.buffer env.recv) := by
    refine ⟨rfl,rfl,⟨[],(List.append_nil _).symm,?_⟩,fun _ => ⟨_,hholds⟩⟩
    change [] ++ (s.exchange.bytes ++ s.chunkBytes ++ r.1.bytes) =
      s.exchange.bytes ++ s.chunkBytes ++ s.buffer.bytes ++ readBytes s.buffer env.recv
    rw [List.nil_append,hholds.bytes_eq,hq.bytes_eq,List.append_assoc,List.append_assoc,
      List.append_assoc]
  refine ⟨readBytes s.buffer env.recv,?_⟩
  split_ifs with hnone
  · refine ⟨hmoves,fun hne => absurd ?_ hne⟩
    apply Recv.take_eq_nil
    omega
  · have hdata : t.readData env = t.connProxyHandler true := by
      rw [readData,hpeer,if_pos (show t.session.packetType = PACKET_PROXY from ht)]
      exact if_pos (by rw [show t.session.packetType = PACKET_PROXY from ht]; decide)
    obtain ⟨hrelay,hpending⟩ := connProxyHandler_found (s := t) ht
    change Moves s (t.readData env).1 _ ∧ (_ → (t.readData env).1.pending = [])
    rw [hdata]
    have hboth := hmoves.trans hrelay
    rw [List.append_nil] at hboth
    exact ⟨hboth,fun _ => hpending⟩

theorem connReadHandler_moves (ht : s.session.packetType = PACKET_PROXY) {q : List UInt8}
    (hq : Holds s.buffer q) (hroom : CanRead env s.buffer) (hpeer : env.peer = true) :
    ∃ bs, Moves s (s.connReadHandler env).1 bs ∧
      (bs ≠ [] → (s.connReadHandler env).1.pending = []) := by
  have hstill : ∀ o : MMBlock, Moves s { s with oob := o } [] := fun o =>
    .still rfl rfl rfl rfl rfl
  rw [connReadHandler]
  dsimp only
  generalize (if s.session.useOOB then mmblockRecv env.alloc s.oob env.oob else (s.oob,-1)) = o
  generalize (if s.session.useOOB then blockReads env.alloc s.oob env.oob else []) = reads
  split
  · exact ⟨[],.still rfl rfl rfl rfl rfl,fun hne => absurd rfl hne⟩
  split
  · exact ⟨[],hstill _,fun hne => absurd rfl hne⟩
  · rw [if_neg fun hreceiving : RecvConn.receiving { s with oob := o.1 } => hreceiving.2.1 ht]
    obtain ⟨bs,hmoves,hpending⟩ :=
      readBuffer_moves (s := { s with oob := o.1 }) ht hq hroom hpeer
    exact ⟨bs,(hstill o.1).trans hmoves,hpending⟩

theorem readEvent_moves (ht : s.session.packetType = PACKET_PROXY) {q : List UInt8}
    (hq : Holds s.buffer q) (hroom : CanRead env s.buffer) (hpeer : env.peer = true) :
    ∃ bs, Moves s (s.readEvent env) bs ∧ (bs ≠ [] → (s.readEvent env).pending = []) := by
  obtain ⟨bs,hmoves,hpending⟩ := connReadHandler_moves ht hq hroom hpeer
  refine ⟨bs,?_⟩
  rw [readEvent]
  split_ifs
  · exact ⟨hmoves.withControl _,hpending⟩
  · exact ⟨hmoves,hpending⟩

theorem connDataHandler_moves (ht : s.session.packetType = PACKET_PROXY)
    (hpeer : env.peer = true) : Moves s (s.connDataHandler env) [] := by
  rw [connDataHandler]
  split_ifs
  · exact .still rfl rfl rfl rfl rfl
  · rw [hpeer]
    exact (connProxyHandler_found ht).1

/-- The three parts of `conn_terminate` that come before `conn_close_proxy`. -/
def flushData (peer : Bool) (s : RecvConn) : RecvConn :=
  if s.sState = S_STATE_DATA_HANDLING ∧ 0 < s.chunk.ndata ∧ s.session.packetType = PACKET_PROXY then
    (s.connProxyHandler peer).1
  else s

def readRest (s : RecvConn) : RecvConn :=
  if s.readsChunk then
    { s with eState := E_STATE_OFF, handed := s.handed ++ [.chunk s.buffer.bytes] }
  else s

def handleError (errorHandler : Bool) (s : RecvConn) : RecvConn :=
  if s.eState = E_STATE_ON ∧ errorHandler then
    { s with buffer := mmblockReset s.buffer, packet := mmblockReset s.packet,
             oob := mmblockReset s.oob, chunk := chunkReset s.chunk }
  else s

theorem connTerminate_eq (e peer : Bool) (s : RecvConn) :
    s.connTerminate e peer =
      let t := ((flushData peer { s with dState := D_STATE_CLOSE }).readRest).handleError e
      { (if t.session.packetType &&& PACKET_PROXY ≠ 0 then (t.connProxyHandler peer).1 else t) with
        fd := -1 } := rfl

theorem flushData_moves (ht : s.session.packetType = PACKET_PROXY) :
    Moves s (s.flushData true) [] ∧ ((s.flushData true).pending = [] ∨
      s.flushData true = s ∧ ¬ (s.sState = S_STATE_DATA_HANDLING ∧ 0 < s.chunk.ndata)) := by
  rw [flushData]
  split_ifs with hdata
  · exact ⟨(connProxyHandler_found ht).1,.inl (connProxyHandler_found ht).2⟩
  · exact ⟨.still rfl rfl rfl rfl rfl,.inr ⟨rfl,fun h => hdata ⟨h.1,h.2,ht⟩⟩⟩

theorem readRest_moves (s : RecvConn) :
    Moves s s.readRest [] ∧ s.readRest.pending = s.pending ∧
      (s.readRest.eState = E_STATE_ON → ¬ s.readsChunk ∧ s.readRest = s) := by
  rw [readRest]
  split_ifs with hreads
  · exact ⟨.still rfl rfl rfl rfl rfl,rfl,
      fun hon : E_STATE_OFF = E_STATE_ON => absurd hon (by decide)⟩
  · exact ⟨.still rfl rfl rfl rfl rfl,rfl,fun _ => ⟨hreads,rfl⟩⟩

theorem handleError_moves {e : Bool}
    (h : e = true → s.eState = E_STATE_ON → s.chunkBytes ++ s.buffer.bytes = []) :
    Moves s (s.handleError e) [] := by
  rw [handleError]
  split_ifs with herror
  · refine ⟨rfl,(List.append_nil _).symm,⟨[],(List.append_nil _).symm,?_⟩,?_⟩
    · have hrest := h herror.2 herror.1
      change [] ++ (s.exchange.bytes ++
        ((chunkReset s.chunk).data.elim [] fun d => read d 0 (chunkReset s.chunk).ndata) ++
          (mmblockReset s.buffer).bytes) = s.exchange.bytes ++ s.chunkBytes ++ s.buffer.bytes ++ []
      rw [reset_bytes,reset_chunkBytes,List.append_assoc s.exchange.bytes s.chunkBytes,hrest]
      rfl
    · exact fun ⟨_,hq⟩ => ⟨[],mmblockReset_holds hq⟩
  · exact .still rfl rfl rfl rfl rfl

/-- The end of a connection relays all that is left, where the error handler has nothing to drop. -/
theorem connTerminate_moves (ht : s.session.packetType = PACKET_PROXY) {e : Bool}
    (hkeep : ¬ s.Drops e) :
    Moves s (s.connTerminate e true) [] ∧ (s.connTerminate e true).pending = [] := by
  let s0 : RecvConn := { s with dState := D_STATE_CLOSE }
  have hmoves0 : Moves s s0 [] := .still rfl rfl rfl rfl rfl
  obtain ⟨hmoves1,hflush⟩ := flushData_moves (s := s0) ht
  obtain ⟨hmoves2,hsame,hon⟩ := readRest_moves (s0.flushData true)
  have hmoves3 : Moves (s0.flushData true).readRest ((s0.flushData true).readRest.handleError e)
      [] := by
    apply handleError_moves
    intro herror hstate
    obtain hempty | ⟨heq,hdata⟩ := hflush
    · have hnone := hsame.trans hempty
      rw [pending,List.append_assoc,List.append_eq_nil_iff] at hnone
      exact hnone.2
    · obtain ⟨hreads,heq'⟩ := hon hstate
      rw [heq',heq] at hstate ⊢
      rw [heq] at hreads
      by_contra hleft
      exact hkeep ⟨herror,hstate,hreads,hdata,hleft⟩
  have hmoves := ((hmoves0.trans hmoves1).trans hmoves2).trans hmoves3
  have ht3 := (congrArg Session.packetType hmoves.session).trans ht
  obtain ⟨hrelay,hpending⟩ := connProxyHandler_found ht3
  have hclosed := connTerminate_eq e true s
  change _ = (let t := (s0.flushData true).readRest.handleError e
    ({ (if t.session.packetType &&& PACKET_PROXY ≠ 0 then (t.connProxyHandler true).1 else t) with
      fd := -1 } : RecvConn)) at hclosed
  generalize (s0.flushData true).readRest.handleError e = t at hmoves ht3 hrelay hpending hclosed
  dsimp only at hclosed
  rw [if_pos (by rw [ht3]; decide)] at hclosed
  generalize (t.connProxyHandler true).1 = u at hrelay hpending hclosed
  rw [hclosed]
  exact ⟨(hmoves.trans hrelay).trans (.still rfl rfl rfl rfl rfl),hpending⟩

end RecvConn

/-! ### The run of a proxied connection -/

namespace ProxyWorld

variable {w t w₀ : ProxyWorld} {s : Service} {c p : ℕ} {r : RecvConn} {bs : List UInt8}

/-- The index of the peer finds it while its `s_state` has no 0x08. -/
theorem Bound.proxyPeer (h : Bound s c p) (hstate : (s.conns p).sState &&& D_STATE_CLOSE = 0) :
    s.proxyPeer c = some p := by
  obtain ⟨index,hpos,hle,hslot,hbound⟩ := h.peer
  have hfind : s.serviceFindconn index = some p := by
    rw [Service.serviceFindconn,if_pos ⟨h.lock,hpos,hle⟩,hslot]
    exact if_neg (not_not.2 hstate)
  rw [Service.proxyPeer]
  obtain ⟨hparent,hindex⟩ | ⟨hparent,hchild,hindex⟩ := hbound
  · rw [if_pos ⟨by rw [hparent]; exact Option.some_ne_none p,by rw [hindex,hfind,hparent]⟩,hparent]
  · rw [if_neg fun hp => hp.1 hparent,
      if_pos ⟨by rw [hchild]; exact Option.some_ne_none p,by rw [hindex,hfind,hchild]⟩,hchild]

theorem Bound.accepts (h : Bound s c p) (hstatus : (s.conns p).status = CONN_STATUS_FREE) :
    (s.conns p).toControl.accepts = true := by
  rw [Control.accepts,h.alive,hstatus]
  rfl

theorem relay_service (w : ProxyWorld) (c : ℕ) (r : RecvConn) :
    (w.relay c r).service = w.service.modify c fun d => { d with toRecvConn := r } := by
  rw [relay]
  cases w.service.proxyPeer c with
  | none => rfl
  | some p =>
    dsimp only
    rw [pushChunk]
    split_ifs <;> rfl

/-- What an operation adds to `relayed` reaches the send queue of a peer that takes it. -/
theorem relay_sendq (hbound : Bound w.service c p) (htakes : w.Takes p) {moved : List UInt8}
    (hmoved : r.relayed = (w.service.conns c).relayed ++ moved) :
    (w.relay c r).sendq p = w.sendq p ++ moved := by
  have hsame : (w.service.modify c fun d => { d with toRecvConn := r }).conns p =
    w.service.conns p := Function.update_of_ne hbound.ne _ _
  have haccepts := hbound.accepts htakes.2
  rw [← hsame] at haccepts
  rw [relay,hbound.proxyPeer htakes.1,hmoved,List.drop_left]
  dsimp only
  rw [pushChunk]
  split_ifs with hpush
  · exact Function.update_self ..
  · have hnil : moved = [] := by
      by_contra hne
      exact hpush ⟨haccepts,List.length_pos_of_ne_nil hne⟩
    rw [hnil,List.append_nil]

/-- The binding concerns neither half of the connection itself. -/
theorem Bound.relay (h : Bound w.service c p) : Bound (w.relay c r).service c p := by
  rw [relay_service]
  have hself : (w.service.modify c fun d => { d with toRecvConn := r }).conns c =
    { w.service.conns c with toRecvConn := r } := Function.update_self ..
  have hpeer : (w.service.modify c fun d => { d with toRecvConn := r }).conns p =
    w.service.conns p := Function.update_of_ne h.ne _ _
  refine ⟨h.lock,h.ne,?_,?_⟩
  · rw [hself]
    exact h.peer
  · rw [hpeer]
    exact h.alive

/-- `conn_close_proxy` changes the binding of the peer only. -/
theorem Bound.unbindPeer (h : Bound s c p) (hstate : (s.conns p).sState &&& D_STATE_CLOSE = 0) :
    ∃ f : ServiceConn → ServiceConn, (∀ d, (f d).toRecvConn = d.toRecvConn) ∧
      s.unbindPeer c = s.modify p f := by
  obtain ⟨index,hpos,hle,hslot,hbound⟩ := h.peer
  have hfind : s.serviceFindconn index = some p := by
    rw [Service.serviceFindconn,if_pos ⟨h.lock,hpos,hle⟩,hslot]
    exact if_neg (not_not.2 hstate)
  rw [Service.unbindPeer]
  obtain ⟨hparent,hindex⟩ | ⟨hparent,hchild,hindex⟩ := hbound
  · refine ⟨fun d => { d with childid := 0, child := none },fun _ => rfl,?_⟩
    rw [if_pos ⟨by rw [hparent]; exact Option.some_ne_none p,by rw [hindex,hfind,hparent]⟩,hparent]
    rfl
  · refine ⟨fun d => { d with parent := none, parentid := 0 },fun _ => rfl,?_⟩
    rw [if_neg fun hp => hp.1 hparent,
      if_pos ⟨by rw [hchild]; exact Option.some_ne_none p,by rw [hindex,hfind,hchild]⟩,hchild]
    rfl

theorem Bound.modifyPeer (h : Bound s c p) {f : ServiceConn → ServiceConn}
    (hf : ∀ d, (f d).toRecvConn = d.toRecvConn) :
    Bound (s.modify p f) c p ∧ (s.modify p f).conns c = s.conns c := by
  have hconn : (s.modify p f).conns c = s.conns c := Function.update_of_ne h.ne.symm _ _
  have hpeer : (s.modify p f).conns p = f (s.conns p) := Function.update_self ..
  refine ⟨⟨h.lock,h.ne,?_,?_⟩,hconn⟩
  · rw [hconn]
    exact h.peer
  · rw [hpeer]
    exact (congrArg (fun r => r.dState) (hf (s.conns p))).trans h.alive

/-- What holds all along the run: the connection is a proxy bound to its peer, and nothing is
missing or doubled between the two. -/
structure Joined (c p : ℕ) (w₀ w : ProxyWorld) : Prop where
  bound : Bound w.service c p
  packetType : (w.service.conns c).session.packetType = PACKET_PROXY
  buffer : ∃ q, Holds (w.service.conns c).buffer q
  relays : Relays c p w₀ w

/-- An operation of the receiving half keeps the record. -/
theorem Joined.relay (h : Joined c p w₀ w) (htakes : w.Takes p)
    (hmoves : RecvConn.Moves (w.service.conns c).toRecvConn r bs) :
    Joined c p w₀ (w.relay c r) ∧ ((w.relay c r).service.conns c).toRecvConn = r ∧
      ((w.relay c r).service.conns p) = w.service.conns p := by
  obtain ⟨moved,hmoved,hpending⟩ := hmoves.relayed
  have hsendq := relay_sendq h.bound htakes hmoved
  have hconn : ((w.relay c r).service.conns c).toRecvConn = r := by
    rw [relay_service,Service.modify]
    dsimp only
    rw [Function.update_self]
  have hpeer : (w.relay c r).service.conns p = w.service.conns p := by
    rw [relay_service]
    exact Function.update_of_ne h.bound.ne _ _
  refine ⟨⟨h.bound.relay,?_,?_,?_⟩,hconn,hpeer⟩
  · rw [hconn,hmoves.session]
    exact h.packetType
  · rw [hconn]
    exact hmoves.buffer h.buffer
  · obtain ⟨since,hreceived,hqueue⟩ := h.relays
    refine ⟨since ++ bs,?_,?_⟩
    · rw [hconn,hmoves.received,hreceived,List.append_assoc]
    · rw [hsendq,hconn,List.append_assoc,hpending,← List.append_assoc,hqueue,List.append_assoc]

/-- What has been relayed once a step is over. -/
def Flushed (c : ℕ) (w : ProxyWorld) (e : ProxyStep) (t : ProxyWorld) : Prop :=
  match e with
  | .read _ => (t.service.conns c).received = (w.service.conns c).received ∨
      (t.service.conns c).toRecvConn.pending = []
  | .proxy => (t.service.conns c).toRecvConn.pending = []
  | .data _ => closing (w.service.conns c).dState ∨ (t.service.conns c).toRecvConn.pending = []
  | .close _ => (t.service.conns c).toRecvConn.pending = []
  | .world _ => True

theorem Joined.step (h : Joined c p w₀ w) {e : ProxyStep} (hclear : Clear c p w e)
    (hstep : Step c p w e t) : Joined c p w₀ t ∧ Flushed c w e t := by
  have hpeer : w.Takes p → w.hasPeer c = true := fun htakes => by
    rw [hasPeer,h.bound.proxyPeer htakes.1]
    rfl
  obtain ⟨q,hq⟩ := h.buffer
  cases e with
  | read env =>
    obtain ⟨htakes,hroom⟩ := hclear
    have hread : RecvConn.CanRead { env with peer := w.hasPeer c } (w.service.conns c).toRecvConn.buffer := hroom
    obtain ⟨bs,hmoves,hpending⟩ := RecvConn.readEvent_moves h.packetType hq hread (hpeer htakes)
    obtain ⟨hjoined,hconn,-⟩ := h.relay htakes hmoves
    obtain rfl : t = w.read c env := hstep
    refine ⟨hjoined,?_⟩
    by_cases hnone : bs = []
    · left
      have hreceived := hmoves.received
      rw [hnone,List.append_nil] at hreceived
      exact (congrArg RecvConn.received hconn).trans hreceived
    · right
      exact (congrArg RecvConn.pending hconn).trans (hpending hnone)
  | proxy =>
    obtain ⟨hmoves,hpending⟩ := RecvConn.connProxyHandler_found h.packetType
    rw [← hpeer hclear] at hmoves hpending
    obtain ⟨hjoined,hconn,-⟩ := h.relay hclear hmoves
    obtain rfl : t = w.proxy c := hstep
    exact ⟨hjoined,(congrArg RecvConn.pending hconn).trans hpending⟩
  | data env =>
    have hfound : ({ env with peer := w.hasPeer c } : RecvEnv).peer = true := hpeer hclear
    have hmoves := RecvConn.connDataHandler_moves h.packetType hfound
    obtain ⟨hjoined,hconn,-⟩ := h.relay hclear hmoves
    obtain rfl : t = w.data c env := hstep
    refine ⟨hjoined,?_⟩
    by_cases hclosing : closing (w.service.conns c).dState
    · exact .inl hclosing
    · right
      refine (congrArg RecvConn.pending hconn).trans ?_
      rw [RecvConn.connDataHandler,if_neg hclosing,if_pos h.packetType,hpeer hclear]
      exact (RecvConn.connProxyHandler_found h.packetType).2
  | close errorHandler =>
    obtain ⟨htakes,hkeep⟩ := hclear
    obtain ⟨hmoves,hpending⟩ := RecvConn.connTerminate_moves h.packetType hkeep
    rw [← hpeer htakes] at hmoves hpending
    obtain ⟨hjoined,hconn,hsame⟩ := h.relay htakes hmoves
    obtain ⟨f,hf,hunbind⟩ := hjoined.bound.unbindPeer (by rw [hsame]; exact htakes.1)
    obtain ⟨hbound,hconn'⟩ := hjoined.bound.modifyPeer hf
    obtain rfl : t = w.close c errorHandler := hstep
    have hservice : (w.close c errorHandler).service = _ := hunbind
    have hend : (w.close c errorHandler).service.conns c = _ :=
      (congrArg (fun s => s.conns c) hservice).trans hconn'
    refine ⟨⟨?_,?_,?_,?_⟩,?_⟩
    · rw [hservice]
      exact hbound
    · rw [hend]
      exact hjoined.packetType
    · rw [hend]
      exact hjoined.buffer
    · obtain ⟨since,hreceived,hqueue⟩ := hjoined.relays
      refine ⟨since,?_,?_⟩
      · rw [hend]
        exact hreceived
      · rw [hend]
        exact hqueue
    · change ((w.close c errorHandler).service.conns c).toRecvConn.pending = []
      rw [hend]
      exact (congrArg RecvConn.pending hconn).trans hpending
  | world s =>
    obtain ⟨hconn,hbound,rfl⟩ := hstep
    refine ⟨⟨hbound,?_,?_,?_⟩,trivial⟩
    · change (s.conns c).session.packetType = PACKET_PROXY
      rw [hconn]
      exact h.packetType
    · exact ⟨q,by change Holds (s.conns c).buffer q; rw [hconn]; exact hq⟩
    · obtain ⟨since,hreceived,hqueue⟩ := h.relays
      refine ⟨since,?_,?_⟩
      · change (s.conns c).received = _
        rw [hconn]
        exact hreceived
      · change w.sendq p ++ (s.conns c).toRecvConn.pending = _
        rw [hconn]
        exact hqueue

theorem Joined.proxyResult (h : Joined c p w₀ w) (htakes : w.Takes p) : w.proxyResult c = 0 := by
  rw [ProxyWorld.proxyResult,hasPeer,h.bound.proxyPeer htakes.1]
  rfl

/-- In every run in which the peer takes its data, and no data is dropped, `conn_proxy_handler`
returns 0, and the peer is sent what is read, in order and once: what was there to relay at the
start, then all that has been read since, up to what the next step has still to relay. -/
theorem proxy_relay (hbound : Bound w₀.service c p)
    (ht : (w₀.service.conns c).session.packetType = PACKET_PROXY)
    (hbuffer : ∃ q, Holds (w₀.service.conns c).buffer q) {es : List ProxyStep}
    (run : Run (Guarded (Clear c p) (Step c p)) w₀ es w) :
    Relays c p w₀ w ∧ (w.Takes p → w.proxyResult c = 0) ∧
      ∀ e t, Clear c p w e → Step c p w e t → Flushed c w e t := by
  have hjoined : Joined c p w₀ w := by
    apply run.invariant (Joined c p w₀)
    · exact ⟨hbound,ht,hbuffer,[],(List.append_nil _).symm,(List.append_nil _).symm⟩
    · intro a e b ha hstep
      exact (ha.step hstep.1 hstep.2).1
  exact ⟨hjoined.relays,hjoined.proxyResult,fun e t hclear hstep => (hjoined.step hclear hstep).2⟩

/-- Connection 1 relays to connection 2, which stands in slot 1 of the table with this state. -/
def proxied (sState : ℕ) : ProxyWorld where
  service :=
    { Service.init 4 0 S_SERVICE with
      indexMax := 1
      connections := fun i => if i = 1 then some 2 else none
      conns := fun c =>
        if c = 1 then
          { ServiceConn.init with
            session := { ServiceConn.init.session with packetType := PACKET_PROXY }
            child := some 2
            childid := 1 }
        else { ServiceConn.init with index := 1, sState := sState } }
  sendq _ := []

theorem proxied_bound (sState : ℕ) : Bound (proxied sState).service 1 2 :=
  ⟨rfl,by decide,⟨1,by decide,le_rfl,rfl,.inr ⟨rfl,rfl,rfl⟩⟩,rfl⟩

/-- Two bytes are read while the peer is idle. -/
theorem proxy_relay_two :
    Relays 1 2 (proxied S_STATE_READY) ((proxied S_STATE_READY).read 1 (socketHas [104,105])) := by
  have hclear : Clear 1 2 (proxied S_STATE_READY) (.read (socketHas [104,105])) :=
    ⟨⟨rfl,rfl⟩,.inr rfl⟩
  have hrun : Run (Guarded (Clear 1 2) (Step 1 2)) (proxied S_STATE_READY)
      [.read (socketHas [104,105])] ((proxied S_STATE_READY).read 1 (socketHas [104,105])) :=
    .one ⟨hclear,rfl⟩
  exact (proxy_relay (proxied_bound S_STATE_READY) rfl ⟨[],mmblockInit_holds⟩ hrun).1

/-- A peer that is handling a packet has 0x08 in its `s_state` and is taken for closing. -/
theorem proxy_peer_missed : ¬ ∀ w₀ c p es w, Bound w₀.service c p →
    (w₀.service.conns c).session.packetType = PACKET_PROXY →
    (∃ q, Holds (w₀.service.conns c).buffer q) → Run (Step c p) w₀ es w →
    Relays c p w₀ w ∧ w.proxyResult c = 0 ∧ ∀ e t, Step c p w e t → Flushed c w e t := by
  intro hall
  have hrun := hall (proxied S_STATE_PACKET_HANDLING) 1 2 [] _
    (proxied_bound S_STATE_PACKET_HANDLING) rfl ⟨[],mmblockInit_holds⟩ .refl
  have hret : (proxied S_STATE_PACKET_HANDLING).proxyResult 1 = -1 := rfl
  rw [hret] at hrun
  exact absurd hrun.2.1 (by decide)

end ProxyWorld
end Sbase
