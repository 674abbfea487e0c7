import Sbase.Service.Shutdown

/-! A connection is shut down at most once in each incarnation, and its descriptor is closed after its
events have been destroyed. -/
namespace Sbase
open Slots Runs

/-- The messages by which a connection is shut down. -/
def MessageId.teardown : MessageId → Bool
  | .shut | .shutout | .over | .quit => true
  | _ => false

/-- The connection for which something is pushed. -/
def PushState.conn? : PushState → Option ℕ
  | .idle => none
  | .looked c _ _ => some c
  | .ready m => some m.conn

/-- A push as far as it is for one connection. -/
def PushState.of (c : ℕ) (s : PushState) : PushState := if s.conn? = some c then s else .idle

/-- What the threads share of one connection: its fields, how often it waits in `qconns`, its messages and the
pushes for it. -/
structure ConnView where
  conn : ThreadConn
  pooled : ℕ
  messages : List ConnMessage
  pushers : ℕ → PushState

theorem PushState.of_eq {s : PushState} {c : ℕ} (h : s.conn? = some c) : s.of c = s := if_pos h

theorem PushState.of_other {s : PushState} {c k : ℕ} (h : s.conn? = some c ∨ s.conn? = none) (hk : k ≠ c) :
    s.of k = .idle := by
  rcases h with h | h <;> simp [PushState.of,h,hk.symm]

def ConnView.modify (v : ConnView) (f : ThreadConn → ThreadConn) : ConnView := { v with conn := f v.conn }

def ConnView.note (v : ConnView) (h : ℕ → Happening) : ConnView :=
  v.modify fun d => { d with past := h d.born::d.past }

def ConnView.append (v : ConnView) (m : ConnMessage) : ConnView := { v with messages := v.messages ++ [m] }

def ShutWorld.view (w : ShutWorld) (c : ℕ) : ConnView :=
  ⟨w.conns c,w.qconns.count c,w.messages.filter (·.conn = c),fun j => (w.pushers j).of c⟩

/-- At most one connection differs. -/
structure OnlyConn (c : ℕ) (w w' : ShutWorld) : Prop where
  others : ∀ k ≠ c, w'.view k = w.view k
  nconns : w'.nconns = w.nconns

variable {T : ServiceThreads} {w w' w'' : ShutWorld} {v : ConnView} {c : ℕ} {m : ConnMessage}

theorem OnlyConn.refl (c : ℕ) (w : ShutWorld) : OnlyConn c w w := ⟨fun _ _ => rfl,rfl⟩

theorem OnlyConn.trans (h : OnlyConn c w w') (h' : OnlyConn c w' w'') : OnlyConn c w w'' :=
  ⟨fun k hk => (h'.others k hk).trans (h.others k hk),h'.nconns.trans h.nconns⟩

namespace ShutWorld

/-! ### One connection at a time -/

theorem modify_only (w : ShutWorld) (c : ℕ) (f : ThreadConn → ThreadConn) : OnlyConn c w (w.modify c f) :=
  ⟨fun k hk => by simp [view,modify,hk],rfl⟩

theorem view_modify (w : ShutWorld) (c : ℕ) (f : ThreadConn → ThreadConn) :
    (w.modify c f).view c = (w.view c).modify f := by
  simp [view,modify,ConnView.modify]

theorem note_only (w : ShutWorld) (c : ℕ) (h : ℕ → Happening) : OnlyConn c w (w.note c h) :=
  modify_only w c _

theorem view_note (w : ShutWorld) (c : ℕ) (h : ℕ → Happening) : (w.note c h).view c = (w.view c).note h :=
  view_modify w c _

theorem qmessagePush_only (w : ShutWorld) (queue : Option ℕ) (id : MessageId) (index : ℤ) (parent : Option ℕ)
    (c : ℕ) : OnlyConn c w (w.qmessagePush queue id index parent c) := by
  cases queue with
  | none => exact .refl c w
  | some t => exact ⟨fun k hk => by simp [view,qmessagePush,hk.symm],rfl⟩

theorem view_qmessagePush (w : ShutWorld) (t : ℕ) (id : MessageId) (index : ℤ) (parent : Option ℕ) (c : ℕ) :
    (w.qmessagePush (some t) id index parent c).view c =
      (w.view c).append ⟨t,id,index,(w.conns c).fd,parent,c,(w.conns c).born⟩ := by
  simp [view,qmessagePush,ConnView.append]

theorem setPusher_only {j : ℕ} {s : PushState} (hold : (w.pushers j).conn? = some c ∨ (w.pushers j).conn? = none)
    (hnew : s.conn? = some c ∨ s.conn? = none) : OnlyConn c w (w.setPusher j s) := by
  refine ⟨fun k hk => ?_,rfl⟩
  have hpushers : (fun i => ((w.setPusher j s).pushers i).of k) = fun i => (w.pushers i).of k := by
    funext i
    by_cases hi : i = j
    · rw [hi,PushState.of_other hold hk]
      simp [setPusher,PushState.of_other hnew hk]
    · simp [setPusher,hi]
  exact congrArg (ConnView.mk (w.conns k) (w.qconns.count k) (w.messages.filter (·.conn = k))) hpushers

theorem view_setPusher (w : ShutWorld) (j : ℕ) (s : PushState) (c : ℕ) :
    (w.setPusher j s).view c = { w.view c with pushers := Function.update (w.view c).pushers j (s.of c) } := by
  have hpushers : (fun i => ((w.setPusher j s).pushers i).of c) =
      Function.update (fun i => (w.pushers i).of c) j (s.of c) := by
    funext i
    by_cases hi : i = j
    · simp [setPusher,hi]
    · simp [setPusher,hi]
  exact congrArg (ConnView.mk (w.conns c) (w.qconns.count c) (w.messages.filter (·.conn = c))) hpushers

/-- The step in which a push ends. -/
theorem view_push {j : ℕ} (hready : w.pushers j = .ready m) :
    OnlyConn m.conn w (w.push j) ∧ (w.push j).view m.conn =
      { w.view m.conn with
        pushers := Function.update (w.view m.conn).pushers j .idle
        messages := (w.view m.conn).messages ++ [m] } := by
  have honly : OnlyConn m.conn w (w.setPusher j .idle) := setPusher_only (.inl (by rw [hready]; rfl)) (.inr rfl)
  have hview := view_setPusher w j .idle m.conn
  have hpush : w.push j = { w.setPusher j .idle with messages := w.messages ++ [m] } := by rw [push,hready]
  rw [hpush]
  refine ⟨⟨fun k hk => ?_,rfl⟩,?_⟩
  · rw [← honly.others k hk]
    simp [view,setPusher,hk.symm]
  · have hpushers := congrArg ConnView.pushers hview
    have hsame : (fun i => ((w.setPusher j .idle).pushers i).of m.conn) =
        Function.update (fun i => (w.pushers i).of m.conn) j .idle := hpushers
    simp only [view,hsame]
    simp [setPusher]

theorem servicePushtoq_only (w : ShutWorld) (c : ℕ) : OnlyConn c w (w.servicePushtoq c) := by
  unfold servicePushtoq
  split_ifs
  · exact ⟨fun k hk => by simp [view,hk.symm],rfl⟩
  · exact .refl c w

theorem view_servicePushtoq (w : ShutWorld) (c : ℕ) : (w.servicePushtoq c).view c = w.view c ∨
    (w.servicePushtoq c).view c = { w.view c with pooled := (w.view c).pooled + 1 } := by
  unfold servicePushtoq
  split_ifs
  · exact .inr (by simp [view])
  · exact .inl rfl

theorem view_servicePopconn (w : ShutWorld) (c k : ℕ) : (w.servicePopconn c).view k = w.view k := by
  unfold servicePopconn
  dsimp only
  split_ifs <;> rfl

theorem servicePushconn_only (w : ShutWorld) (c : ℕ) : OnlyConn c w (w.servicePushconn c) := by
  unfold servicePushconn
  split_ifs
  · cases seek (fun i => w.connections i = none) 1 w.connectionsLimit with
    | none => exact .refl c w
    | some i => exact ⟨(modify_only w c fun d => { d with index := i }).others,rfl⟩
  · exact .refl c w

theorem view_servicePushconn (w : ShutWorld) (c : ℕ) : ∃ index : ℤ,
    (w.servicePushconn c).view c = (w.view c).modify fun d => { d with index := index } := by
  unfold servicePushconn
  split_ifs
  · cases seek (fun i => w.connections i = none) 1 w.connectionsLimit with
    | none => exact ⟨(w.conns c).index,rfl⟩
    | some i => exact ⟨i,view_modify w c fun d => { d with index := i }⟩
  · exact ⟨(w.conns c).index,rfl⟩

end ShutWorld

/-! ### The invariant of a connection -/

/-- Every descriptor is given to a thread with a daemon for its input. -/
def ServiceThreads.HasIndaemons (T : ServiceThreads) : Prop :=
  ∀ fd t, T.threadFor fd = some t → (T.indaemon t).isSome

/-- Every descriptor is given to a thread with a daemon for its output. -/
def ServiceThreads.HasOutdaemons (T : ServiceThreads) : Prop :=
  ∀ fd t, T.threadFor fd = some t → (T.outdaemon t).isSome

/-- Before the descriptor is closed, the events that have been registered are destroyed. -/
def Ordered (T : ServiceThreads) (past : List Happening) : Prop :=
  ∀ n older, .closed n::older <:+ past →
    (T.HasIndaemons → .destroyed .event n ∈ older) ∧ (T.HasOutdaemons → .destroyed .outevent n ∈ older)

/-- What has happened to a connection: in each incarnation it is shut and terminated at most once. -/
structure PastOnce (T : ServiceThreads) (d : ThreadConn) : Prop where
  shut : .shut d.born ∈ d.past → closing d.dState = true ∨ d.fd ≤ 0
  gone : .terminated d.born ∈ d.past → d.fd ≤ 0
  future : ∀ n > d.born, .shut n ∉ d.past ∧ .terminated n ∉ d.past
  shuts : ∀ n, d.past.count (.shut n) ≤ 1
  ends : ∀ n, d.past.count (.terminated n) ≤ 1
  closes : ∀ n, d.past.count (.closed n) ≤ d.past.count (.terminated n)
  ordered : Ordered T d.past

/-- Where a message that shuts the connection down has come from. -/
structure Begun (d : ThreadConn) (id : MessageId) : Prop where
  closing : closing d.dState = true
  registered : d.parent.isSome
  shut : .shut d.born ∈ d.past
  going : .terminated d.born ∉ d.past
  out : id = .over ∨ id = .quit → d.outdaemon.isSome → .destroyed .outevent d.born ∈ d.past
  input : id = .quit → d.indaemon.isSome → .destroyed .event d.born ∈ d.past

/-- At most one message that shuts the connection down is on its way, and none before it is registered. -/
structure ShutInv (T : ServiceThreads) (v : ConnView) : Prop where
  past : PastOnce T v.conn
  pooled : v.pooled ≤ 1
  waiting : 0 < v.pooled → v.conn.parent = none ∧ ∀ m ∈ v.messages, m.id ≠ .newSession
  unregistered : v.conn.parent = none →
    v.conn.messageQueue = none ∧ v.conn.inqmessage = none ∧ v.conn.outqmessage = none
  registered : ∀ t, v.conn.parent = some t → (∃ fd, T.threadFor fd = some t) ∧
    v.conn.indaemon = T.indaemon t ∧ v.conn.outdaemon = T.outdaemon t ∧ ∀ m ∈ v.messages, m.id ≠ .newSession
  session : v.messages.countP (·.id = .newSession) ≤ 1 ∧
    ∀ m ∈ v.messages, m.id = .newSession → ∃ fd t, m.parent = some t ∧ T.threadFor fd = some t
  once : v.messages.countP (·.id.teardown) ≤ 1
  begun : ∀ m ∈ v.messages, m.id.teardown = true → Begun v.conn m.id
  pending : ∀ j m, v.pushers j = .ready m → m.id.teardown = false ∧ m.id ≠ .newSession

variable {d : ThreadConn} {past : List Happening} {e : Happening}

/-- Something that is no part of a shutdown. -/
def Happening.aside : Happening → Bool
  | destroyed _ _ | dispatched _ _ => true
  | _ => false

theorem Ordered.cons (h : Ordered T past) (he : ∀ n, e ≠ .closed n) : Ordered T (e::past) := by
  intro n older hsuffix
  rcases List.suffix_cons_iff.mp hsuffix with heq | hsuffix
  · exact absurd (List.cons.inj heq).1.symm (he n)
  · exact h n older hsuffix

theorem PastOnce.cons (h : PastOnce T d) (he : e.aside = true) : PastOnce T { d with past := e::d.past } := by
  have hshut : ∀ n, e ≠ .shut n := by
    rintro n rfl
    cases he
  have hterminated : ∀ n, e ≠ .terminated n := by
    rintro n rfl
    cases he
  have hclosed : ∀ n, e ≠ .closed n := by
    rintro n rfl
    cases he
  refine ⟨fun hs => ?_,fun ht => ?_,fun n hn => ?_,fun n => ?_,fun n => ?_,fun n => ?_,h.ordered.cons hclosed⟩
  · exact h.shut (List.mem_of_ne_of_mem (hshut _).symm hs)
  · exact h.gone (List.mem_of_ne_of_mem (hterminated _).symm ht)
  · obtain ⟨hs,ht⟩ := h.future n hn
    exact ⟨List.not_mem_cons_of_ne_of_not_mem (hshut n).symm hs,
      List.not_mem_cons_of_ne_of_not_mem (hterminated n).symm ht⟩
  · rw [List.count_cons_of_ne (hshut n)]
    exact h.shuts n
  · rw [List.count_cons_of_ne (hterminated n)]
    exact h.ends n
  · rw [List.count_cons_of_ne (hterminated n),List.count_cons_of_ne (hclosed n)]
    exact h.closes n

theorem Begun.cons {id : MessageId} (h : Begun d id) (he : e.aside = true) :
    Begun { d with past := e::d.past } id := by
  refine ⟨h.closing,h.registered,List.mem_cons_of_mem _ h.shut,?_,fun hid hout => ?_,fun hid hin => ?_⟩
  · refine List.not_mem_cons_of_ne_of_not_mem ?_ h.going
    intro heq
    rw [← heq] at he
    cases he
  · exact List.mem_cons_of_mem _ (h.out hid hout)
  · exact List.mem_cons_of_mem _ (h.input hid hin)

namespace ShutInv

theorem note {f : ℕ → Happening} (h : ShutInv T v) (hf : ∀ n, (f n).aside = true) : ShutInv T (v.note f) :=
  ⟨h.past.cons (hf _),h.pooled,h.waiting,h.unregistered,h.registered,h.session,h.once,
    fun m hm hid => (h.begun m hm hid).cons (hf _),h.pending⟩

/-- A message that is no part of a shutdown. -/
theorem append (h : ShutInv T v) (hid : m.id.teardown = false) (hsession : m.id ≠ .newSession) :
    ShutInv T (v.append m) := by
  have hmem : ∀ k ∈ v.messages ++ [m], k ∈ v.messages ∨ k = m := fun k hk => by simpa using hk
  refine ⟨h.past,h.pooled,fun hp => ⟨(h.waiting hp).1,fun k hk => ?_⟩,h.unregistered,fun t ht => ?_,⟨?_,?_⟩,?_,?_,
    h.pending⟩
  · rcases hmem k hk with hk | rfl
    · exact (h.waiting hp).2 k hk
    · exact hsession
  · obtain ⟨hfd,hin,hout,hnone⟩ := h.registered t ht
    refine ⟨hfd,hin,hout,fun k hk => ?_⟩
    rcases hmem k hk with hk | rfl
    · exact hnone k hk
    · exact hsession
  · have hcount := h.session.1
    simpa [ConnView.append,hsession] using hcount
  · intro k hk hnew
    rcases hmem k hk with hk | rfl
    · exact h.session.2 k hk hnew
    · exact absurd hnew hsession
  · have hcount := h.once
    simpa [ConnView.append,hid] using hcount
  · intro k hk hk'
    rcases hmem k hk with hk | rfl
    · exact h.begun k hk hk'
    · rw [hid] at hk'
      cases hk'

/-- A message is taken off. -/
theorem receive {pre post : List ConnMessage} (h : ShutInv T v) (hv : v.messages = pre ++ m::post) :
    ShutInv T { v with messages := pre ++ post } ∧
      (m.id.teardown = true → ∀ k ∈ pre ++ post, k.id.teardown = false) ∧
        (m.id = .newSession → ∀ k ∈ pre ++ post, k.id ≠ .newSession) := by
  have hsub : ∀ k ∈ pre ++ post, k ∈ v.messages := by
    intro k hk
    rw [hv]
    simp only [List.mem_append,List.mem_cons] at hk ⊢
    tauto
  have hcount : ∀ p : ConnMessage → Bool, v.messages.countP p = (pre ++ post).countP p + if p m then 1 else 0 := by
    intro p
    rw [hv,List.countP_append,List.countP_append,List.countP_cons]
    omega
  have honce := h.once
  have hsession := h.session.1
  rw [hcount] at honce hsession
  have honce' : (pre ++ post).countP (·.id.teardown) ≤ 1 := by omega
  have hsession' : (pre ++ post).countP (·.id = .newSession) ≤ 1 := by omega
  refine ⟨⟨h.past,h.pooled,fun hp => ⟨(h.waiting hp).1,fun k hk => (h.waiting hp).2 k (hsub k hk)⟩,h.unregistered,
    fun t ht => ?_,⟨hsession',fun k hk => h.session.2 k (hsub k hk)⟩,honce',fun k hk => h.begun k (hsub k hk),
    h.pending⟩,fun hid => ?_,fun hid => ?_⟩
  · obtain ⟨hfd,hin,hout,hnone⟩ := h.registered t ht
    exact ⟨hfd,hin,hout,fun k hk => hnone k (hsub k hk)⟩
  · rw [if_pos hid] at honce
    have hzero : (pre ++ post).countP (·.id.teardown) = 0 := by omega
    intro k hk
    exact Bool.eq_false_iff.mpr (List.countP_eq_zero.mp hzero k hk)
  · rw [if_pos (decide_eq_true hid)] at hsession
    have hzero : (pre ++ post).countP (·.id = .newSession) = 0 := by omega
    intro k hk
    simpa using List.countP_eq_zero.mp hzero k hk

/-- A connection whose `NEW_SESSION` is on its way is neither registered nor in the queue. -/
theorem unused (h : ShutInv T v) (hm : m ∈ v.messages) (hid : m.id = .newSession) :
    v.conn.parent = none ∧ v.pooled = 0 := by
  constructor
  · by_contra hsome
    obtain ⟨p,hp⟩ := Option.ne_none_iff_exists'.mp hsome
    exact (h.registered p hp).2.2.2 m hm hid
  · by_contra hp
    exact (h.waiting (Nat.pos_of_ne_zero hp)).2 m hm hid

/-- The next message of a shutdown, when the one before it has been taken off. -/
theorem advance (h : ShutInv T v) (hnone : ∀ k ∈ v.messages, k.id.teardown = false) (hid : m.id.teardown = true)
    (hbegun : Begun v.conn m.id) : ShutInv T (v.append m) := by
  have hmem : ∀ k ∈ v.messages ++ [m], k ∈ v.messages ∨ k = m := fun k hk => by simpa using hk
  have hsession : m.id ≠ .newSession := by
    intro hnew
    rw [hnew] at hid
    cases hid
  refine ⟨h.past,h.pooled,fun hp => ?_,h.unregistered,fun t ht => ?_,⟨?_,?_⟩,?_,?_,h.pending⟩
  · have hregistered := hbegun.registered
    rw [(h.waiting hp).1] at hregistered
    cases hregistered
  · obtain ⟨hfd,hin,hout,hnew⟩ := h.registered t ht
    refine ⟨hfd,hin,hout,fun k hk => ?_⟩
    rcases hmem k hk with hk | rfl
    · exact hnew k hk
    · exact hsession
  · have hcount := h.session.1
    simpa [ConnView.append,hsession] using hcount
  · intro k hk hnew
    rcases hmem k hk with hk | rfl
    · exact h.session.2 k hk hnew
    · exact absurd hnew hsession
  · have hzero : v.messages.countP (·.id.teardown) = 0 :=
      List.countP_eq_zero.mpr fun k hk => Bool.eq_false_iff.mp (hnone k hk)
    simp [ConnView.append,hzero,hid]
  · intro k hk hk'
    rcases hmem k hk with hk | rfl
    · rw [hnone k hk] at hk'
      cases hk'
    · exact hbegun

/-- `conn_shut` begins. -/
theorem shut {dState : ℕ} (h : ShutInv T v) (hclosing : closing dState = true) (hfree : v.conn.dState = D_STATE_FREE) :
    ShutInv T (v.modify fun d => { d with dState := d.dState ||| dState }) := by
  have hnew : closing (v.conn.dState ||| dState) = true := by
    rw [hfree]
    simpa [D_STATE_FREE] using hclosing
  have hnone : ∀ k ∈ v.messages, k.id.teardown = false := by
    intro k hk
    rw [Bool.eq_false_iff]
    intro hid
    have hbegun := (h.begun k hk hid).closing
    rw [hfree] at hbegun
    cases hbegun
  refine ⟨⟨fun _ => .inl hnew,h.past.gone,h.past.future,h.past.shuts,h.past.ends,h.past.closes,h.past.ordered⟩,
    h.pooled,h.waiting,h.unregistered,h.registered,h.session,h.once,fun k hk hid => ?_,h.pending⟩
  rw [hnone k hk] at hid
  cases hid

/-- The first message of a shutdown. -/
theorem pushShut (h : ShutInv T v) (hclosing : closing v.conn.dState = true) (hfd : 0 < v.conn.fd)
    (hregistered : v.conn.parent.isSome) (hfirst : .shut v.conn.born ∉ v.conn.past)
    (hnone : ∀ k ∈ v.messages, k.id.teardown = false) (hid : m.id = .shut) :
    ShutInv T ((v.append m).note .shut) := by
  have hgone : .terminated v.conn.born ∉ v.conn.past := fun hmem => not_lt.mpr (h.past.gone hmem) hfd
  have hpast : ShutInv T (v.note .shut) := by
    refine ⟨⟨fun _ => .inl hclosing,fun hmem => ?_,fun n hn => ?_,fun n => ?_,fun n => ?_,fun n => ?_,?_⟩,
      h.pooled,h.waiting,h.unregistered,h.registered,h.session,h.once,fun k hk hid => ?_,h.pending⟩
    · exact h.past.gone (List.mem_of_ne_of_mem (by simp) hmem)
    · obtain ⟨hs,ht⟩ := h.past.future n hn
      refine ⟨List.not_mem_cons_of_ne_of_not_mem ?_ hs,List.not_mem_cons_of_ne_of_not_mem (by simp) ht⟩
      intro heq
      cases heq
      exact lt_irrefl _ hn
    · by_cases hn : n = v.conn.born
      · change List.count (Happening.shut n) (Happening.shut v.conn.born::v.conn.past) ≤ 1
        rw [hn,List.count_cons_self,List.count_eq_zero.mpr hfirst]
      · change List.count (Happening.shut n) (Happening.shut v.conn.born::v.conn.past) ≤ 1
        rw [List.count_cons_of_ne (by simpa using Ne.symm hn)]
        exact h.past.shuts n
    · change List.count (Happening.terminated n) (Happening.shut v.conn.born::v.conn.past) ≤ 1
      rw [List.count_cons_of_ne (by simp)]
      exact h.past.ends n
    · change List.count (Happening.closed n) (Happening.shut v.conn.born::v.conn.past) ≤
        List.count (Happening.terminated n) (Happening.shut v.conn.born::v.conn.past)
      rw [List.count_cons_of_ne (by simp),List.count_cons_of_ne (by simp)]
      exact h.past.closes n
    · exact h.past.ordered.cons (by simp)
    · rw [hnone k hk] at hid
      cases hid
  refine hpast.advance hnone (by rw [hid]; rfl) ⟨hclosing,hregistered,List.mem_cons_self,?_,?_,?_⟩
  · exact List.not_mem_cons_of_ne_of_not_mem (by simp) hgone
  · rw [hid]
    rintro (hm | hm) <;> cases hm
  · rw [hid]
    intro hm
    cases hm

/-- `procthread_add_connection` -/
theorem register {t : ℕ} {index : ℤ} (h : ShutInv T v) (hparent : v.conn.parent = none) (hidle : v.pooled = 0)
    (hnew : ∀ k ∈ v.messages, k.id ≠ .newSession) (ht : ∃ fd, T.threadFor fd = some t) :
    ShutInv T (v.modify fun d =>
      { d with messageQueue := some t, indaemon := T.indaemon t, inqmessage := T.indaemon t,
               outdaemon := T.outdaemon t, outqmessage := T.outdaemon t, parent := some t, index := index }) := by
  refine ⟨⟨h.past.shut,h.past.gone,h.past.future,h.past.shuts,h.past.ends,h.past.closes,h.past.ordered⟩,
    h.pooled,fun hp => ?_,fun hnone => ?_,fun t' ht' => ?_,h.session,h.once,fun k hk hid => ?_,h.pending⟩
  · change 0 < v.pooled at hp
    omega
  · cases hnone
  · cases ht'
    exact ⟨ht,rfl,rfl,hnew⟩
  · have hregistered := (h.begun k hk hid).registered
    rw [hparent] at hregistered
    cases hregistered

/-- `procthread_addconn` -/
theorem announce {t : ℕ} (h : ShutInv T v) (hparent : v.conn.parent = none) (hidle : v.pooled = 0)
    (hnew : ∀ k ∈ v.messages, k.id ≠ .newSession) (hid : m.id = .newSession) (hm : m.parent = some t)
    (ht : ∃ fd, T.threadFor fd = some t) : ShutInv T (v.append m) := by
  have hmem : ∀ k ∈ v.messages ++ [m], k ∈ v.messages ∨ k = m := fun k hk => by simpa using hk
  refine ⟨h.past,h.pooled,fun hp => ?_,h.unregistered,fun t' ht' => ?_,⟨?_,fun k hk hk' => ?_⟩,?_,fun k hk hk' => ?_,
    h.pending⟩
  · change 0 < v.pooled at hp
    omega
  · change v.conn.parent = some t' at ht'
    rw [hparent] at ht'
    cases ht'
  · have hzero : v.messages.countP (·.id = .newSession) = 0 :=
      List.countP_eq_zero.mpr fun k hk => by simpa using hnew k hk
    simp [ConnView.append,hzero,hid]
  · rcases hmem k hk with hk | rfl
    · exact absurd hk' (hnew k hk)
    · obtain ⟨fd,hfd⟩ := ht
      exact ⟨fd,t,hm,hfd⟩
  · have hcount := h.once
    have hplain : m.id.teardown = false := by rw [hid]; rfl
    simpa [ConnView.append,hplain] using hcount
  · rcases hmem k hk with hk | rfl
    · exact h.begun k hk hk'
    · rw [hid] at hk'
      cases hk'

/-- `service_pushtoq` -/
theorem shelve (h : ShutInv T v) (hparent : v.conn.parent = none) (hidle : v.pooled = 0)
    (hnew : ∀ k ∈ v.messages, k.id ≠ .newSession) : ShutInv T { v with pooled := v.pooled + 1 } :=
  ⟨h.past,by rw [hidle],fun _ => ⟨hparent,hnew⟩,h.unregistered,h.registered,h.session,h.once,h.begun,h.pending⟩

/-- A new incarnation of a connection that waits. -/
theorem take {fd : ℤ} (h : ShutInv T v) (hparent : v.conn.parent = none) :
    ShutInv T ⟨{ v.conn with fd := fd, born := v.conn.born + 1 },0,v.messages,v.pushers⟩ := by
  obtain ⟨hshut,hterminated⟩ := h.past.future (v.conn.born + 1) (Nat.lt_succ_self _)
  refine ⟨⟨fun hs => absurd hs hshut,fun ht => absurd ht hterminated,fun n hn => ?_,h.past.shuts,h.past.ends,
    h.past.closes,h.past.ordered⟩,Nat.zero_le _,fun hp => ?_,h.unregistered,h.registered,h.session,h.once,
    fun k hk hid => ?_,h.pending⟩
  · exact h.past.future n (lt_trans (Nat.lt_succ_self _) hn)
  · cases hp
  · have hregistered := (h.begun k hk hid).registered
    rw [hparent] at hregistered
    cases hregistered

end ShutInv

/-- The end of an incarnation. -/
theorem PastOnce.terminate (h : PastOnce T d) (hgone : .terminated d.born ∉ d.past) {dState : ℕ} {fd : ℤ}
    (hfd : fd ≤ 0) : PastOnce T { d with past := .terminated d.born::d.past, dState := dState, fd := fd } := by
  refine ⟨fun _ => .inr hfd,fun _ => hfd,fun n hn => ?_,fun n => ?_,fun n => ?_,fun n => ?_,h.ordered.cons (by simp)⟩
  · obtain ⟨hs,ht⟩ := h.future n hn
    refine ⟨List.not_mem_cons_of_ne_of_not_mem (by simp) hs,List.not_mem_cons_of_ne_of_not_mem ?_ ht⟩
    intro heq
    cases heq
    exact lt_irrefl _ hn
  · rw [List.count_cons_of_ne (by simp)]
    exact h.shuts n
  · by_cases hn : n = d.born
    · rw [hn,List.count_cons_self,List.count_eq_zero.mpr hgone]
    · rw [List.count_cons_of_ne (by simpa using Ne.symm hn)]
      exact h.ends n
  · rw [List.count_cons_of_ne (by simp)]
    exact (h.closes n).trans (List.count_le_count_cons ..)

/-- The same, with the descriptor closed. -/
theorem PastOnce.close (h : PastOnce T d) (hgone : .terminated d.born ∉ d.past) {dState : ℕ} {fd : ℤ} (hfd : fd ≤ 0)
    (hin : T.HasIndaemons → .destroyed .event d.born ∈ d.past)
    (hout : T.HasOutdaemons → .destroyed .outevent d.born ∈ d.past) :
    PastOnce T { d with past := .closed d.born::.terminated d.born::d.past, dState := dState, fd := fd } := by
  have hend : PastOnce T { d with past := .terminated d.born::d.past, dState := dState, fd := fd } :=
    h.terminate hgone hfd
  refine ⟨fun _ => .inr hfd,fun _ => hfd,fun n hn => ?_,fun n => ?_,fun n => ?_,fun n => ?_,fun n older hs => ?_⟩
  · obtain ⟨hs,ht⟩ := hend.future n hn
    exact ⟨List.not_mem_cons_of_ne_of_not_mem (by simp) hs,List.not_mem_cons_of_ne_of_not_mem (by simp) ht⟩
  · rw [List.count_cons_of_ne (by simp)]
    exact hend.shuts n
  · rw [List.count_cons_of_ne (by simp)]
    exact hend.ends n
  · have hcloses := h.closes n
    by_cases hn : n = d.born
    · rw [hn] at hcloses ⊢
      rw [List.count_cons_self,List.count_cons_of_ne (by simp),List.count_cons_of_ne (by simp),List.count_cons_self]
      omega
    · rw [List.count_cons_of_ne (by simpa using Ne.symm hn)]
      exact hend.closes n
  · rcases List.suffix_cons_iff.mp hs with heq | hs
    · obtain ⟨hclosed,rfl⟩ := List.cons.inj heq
      cases hclosed
      exact ⟨fun hT => List.mem_cons_of_mem _ (hin hT),fun hT => List.mem_cons_of_mem _ (hout hT)⟩
    · exact hend.ordered n older hs

namespace ShutInv

/-- The events of a connection that is about to be closed are destroyed. -/
theorem destroyed (h : ShutInv T v) (hbegun : Begun v.conn .quit) :
    (T.HasIndaemons → .destroyed .event v.conn.born ∈ v.conn.past) ∧
      (T.HasOutdaemons → .destroyed .outevent v.conn.born ∈ v.conn.past) := by
  obtain ⟨t,ht⟩ := Option.isSome_iff_exists.mp hbegun.registered
  obtain ⟨⟨fd,hfd⟩,hin,hout,-⟩ := h.registered t ht
  exact ⟨fun hT => hbegun.input rfl (by rw [hin]; exact hT fd t hfd),
    fun hT => hbegun.out (.inr rfl) (by rw [hout]; exact hT fd t hfd)⟩

/-- Other fields of a connection without a message that shuts it down. -/
theorem withPast {d : ThreadConn} (h : ShutInv T v) (hnone : ∀ k ∈ v.messages, k.id.teardown = false)
    (hpast : PastOnce T d) (hqueues : d.messageQueue = v.conn.messageQueue ∧ d.inqmessage = v.conn.inqmessage ∧
      d.outqmessage = v.conn.outqmessage) (hparent : d.parent = v.conn.parent)
    (hdaemons : d.indaemon = v.conn.indaemon ∧ d.outdaemon = v.conn.outdaemon) : ShutInv T { v with conn := d } := by
  refine ⟨hpast,h.pooled,?_,?_,?_,h.session,h.once,fun k hk hid => ?_,h.pending⟩
  · rw [hparent]
    exact h.waiting
  · rw [hparent,hqueues.1,hqueues.2.1,hqueues.2.2]
    exact h.unregistered
  · rw [hparent,hdaemons.1,hdaemons.2]
    exact h.registered
  · rw [hnone k hk] at hid
    cases hid

/-- `conn_reset` -/
theorem reset (h : ShutInv T v) (hnone : ∀ k ∈ v.messages, k.id.teardown = false) (hidle : v.pooled = 0) :
    ShutInv T (v.modify fun d =>
      { d with index := -1, dState := D_STATE_FREE, fd := 0, messageQueue := none, inqmessage := none,
               outqmessage := none, parent := none }) := by
  refine ⟨⟨fun _ => .inr le_rfl,fun _ => le_rfl,h.past.future,h.past.shuts,h.past.ends,h.past.closes,h.past.ordered⟩,
    h.pooled,fun hp => ?_,fun _ => ⟨rfl,rfl,rfl⟩,fun t ht => ?_,h.session,h.once,fun k hk hid => ?_,h.pending⟩
  · change 0 < v.pooled at hp
    omega
  · cases ht
  · rw [hnone k hk] at hid
    cases hid

end ShutInv

theorem ShutInv.new : ShutInv T ⟨.init,0,[],fun _ => .idle⟩ := by
  refine ⟨⟨fun hs => ?_,fun ht => ?_,fun n _ => ⟨?_,?_⟩,fun n => Nat.zero_le _,fun n => Nat.zero_le _,
    fun n => le_rfl,fun n older hs => ?_⟩,Nat.zero_le _,fun hp => ?_,fun _ => ⟨rfl,rfl,rfl⟩,fun t ht => ?_,
    ⟨Nat.zero_le _,fun m hm => ?_⟩,Nat.zero_le _,fun m hm => ?_,fun j m hm => ?_⟩
  · cases hs
  · cases ht
  · exact List.not_mem_nil
  · exact List.not_mem_nil
  · cases List.suffix_nil.mp hs
  · cases hp
  · cases ht
  · cases hm
  · cases hm
  · cases hm

/-! ### The invariant of the threads -/

/-- Every connection keeps its invariant, and nothing is on its way for one that does not exist yet. -/
structure ShutKept (T : ServiceThreads) (w : ShutWorld) : Prop where
  conns : ∀ c, ShutInv T (w.view c)
  fresh : ∀ c, w.nconns ≤ c →
    (w.view c).messages = [] ∧ (w.view c).pooled = 0 ∧ (w.view c).pushers = fun _ => .idle

/-- What a step does to its connection. -/
structure Steps (T : ServiceThreads) (w w' : ShutWorld) (c : ℕ) : Prop where
  only : OnlyConn c w w'
  inv : ShutInv T (w'.view c)

theorem Steps.trans (h : Steps T w w' c) (h' : Steps T w' w'' c) : Steps T w w'' c :=
  ⟨h.only.trans h'.only,h'.inv⟩

theorem ShutKept.step (h : ShutKept T w) (hc : c < w.nconns) (hsteps : Steps T w w' c) : ShutKept T w' := by
  refine ⟨fun k => ?_,fun k hk => ?_⟩
  · by_cases hkc : k = c
    · rw [hkc]
      exact hsteps.inv
    · rw [hsteps.only.others k hkc]
      exact h.conns k
  · rw [hsteps.only.nconns] at hk
    rw [hsteps.only.others k (by omega)]
    exact h.fresh k hk

theorem Begun.first {id : MessageId} (h : Begun d id) : Begun d .shut := by
  refine ⟨h.closing,h.registered,h.shut,h.going,?_,?_⟩
  · rintro (hid | hid) <;> cases hid
  · intro hid
    cases hid

theorem Posted.plain (p : Posted) : p.id.teardown = false ∧ p.id ≠ .newSession := by
  cases p <;> exact ⟨rfl,by decide⟩

namespace ShutWorld

theorem note_steps {f : ℕ → Happening} (h : ShutInv T (w.view c)) (hf : ∀ n, (f n).aside = true) :
    Steps T w (w.note c f) c := by
  refine ⟨note_only w c f,?_⟩
  rw [view_note]
  exact h.note hf

theorem qmessagePush_advance {queue parent : Option ℕ} {id : MessageId} {index : ℤ} (h : ShutInv T (w.view c))
    (hnone : ∀ k ∈ (w.view c).messages, k.id.teardown = false) (hid : id.teardown = true)
    (hbegun : Begun (w.conns c) id) : Steps T w (w.qmessagePush queue id index parent c) c := by
  refine ⟨qmessagePush_only w queue id index parent c,?_⟩
  cases queue with
  | none => exact h
  | some t =>
    rw [view_qmessagePush]
    exact h.advance hnone hid hbegun

/-- What is pushed besides is no part of a shutdown, and is for the connection that was looked at. -/
theorem reads_plain {n : ℕ} {p : Push} (hm : w.reads T c n p = some m) :
    m.conn = c ∧ m.born = n ∧ m.id.teardown = false ∧ m.id ≠ .newSession := by
  unfold reads at hm
  cases p with
  | posted p =>
    dsimp only at hm
    split at hm
    · obtain ⟨t,-,rfl⟩ := Option.map_eq_some_iff.mp hm
      exact ⟨rfl,rfl,p.plain⟩
    · cases hm
  | buffer | chunkio | accepted =>
    obtain ⟨t,-,rfl⟩ := Option.map_eq_some_iff.mp hm
    exact ⟨rfl,rfl,rfl,by simp⟩
  | out =>
    dsimp only at hm
    split at hm
    · obtain ⟨t,-,rfl⟩ := Option.map_eq_some_iff.mp hm
      exact ⟨rfl,rfl,rfl,by simp⟩
    · obtain ⟨t,-,rfl⟩ := Option.map_eq_some_iff.mp hm
      exact ⟨rfl,rfl,rfl,by simp⟩
    · cases hm
  | transaction =>
    dsimp only at hm
    split_ifs at hm
    split at hm
    · split_ifs at hm
      cases hm
      exact ⟨rfl,rfl,rfl,by simp⟩
    · cases hm

/-- How far a push gets when it reads its arguments. -/
theorem readArgs_cases (T : ServiceThreads) {j n : ℕ} {p : Push} (hlooked : w.pushers j = .looked c n p) :
    (∃ m, w.reads T c n p = some m ∧ w.readArgs T j = w.setPusher j (.ready m)) ∨
      w.readArgs T j = w.setPusher j .idle := by
  rw [readArgs,hlooked]
  dsimp only
  cases hm : w.reads T c n p with
  | none => exact .inr rfl
  | some m => exact .inl ⟨m,rfl,rfl⟩

theorem setPusher_steps {j : ℕ} {s : PushState} (h : ShutInv T (w.view c))
    (hold : (w.pushers j).conn? = some c ∨ (w.pushers j).conn? = none) (hnew : s.conn? = some c ∨ s.conn? = none)
    (hplain : ∀ m, s = .ready m → m.id.teardown = false ∧ m.id ≠ .newSession) :
    Steps T w (w.setPusher j s) c := by
  refine ⟨setPusher_only hold hnew,?_⟩
  rw [view_setPusher]
  refine ⟨h.past,h.pooled,h.waiting,h.unregistered,h.registered,h.session,h.once,h.begun,fun i m hm => ?_⟩
  by_cases hi : i = j
  · rw [hi] at hm
    dsimp only at hm
    rw [Function.update_self] at hm
    rcases hnew with hnew | hnew
    · rw [PushState.of_eq hnew] at hm
      exact hplain m hm
    · rw [PushState.of,hnew] at hm
      cases hm
  · dsimp only at hm
    rw [Function.update_of_ne hi] at hm
    exact h.pending i m hm

theorem readArgs_steps {j n : ℕ} {p : Push} (h : ShutInv T (w.view c)) (hlooked : w.pushers j = .looked c n p) :
    Steps T w (w.readArgs T j) c := by
  have hold : (w.pushers j).conn? = some c ∨ (w.pushers j).conn? = none := .inl (by rw [hlooked]; rfl)
  rcases readArgs_cases T hlooked with ⟨m,hm,hstep⟩ | hstep
  · obtain ⟨hc,-,hplain⟩ := reads_plain hm
    rw [hstep]
    refine setPusher_steps h hold (.inl (congrArg some hc)) fun k hk => ?_
    cases hk
    exact hplain
  · rw [hstep]
    exact setPusher_steps h hold (.inr rfl) fun k hk => by cases hk

theorem push_steps {j : ℕ} (h : ShutInv T (w.view m.conn)) (hready : w.pushers j = .ready m) :
    Steps T w (w.push j) m.conn := by
  obtain ⟨honly,hview⟩ := view_push hready
  have hpending : (w.view m.conn).pushers j = .ready m := by
    rw [view]
    dsimp only
    rw [hready,PushState.of_eq rfl]
  obtain ⟨hid,hsession⟩ := h.pending j m hpending
  have happend := h.append hid hsession
  refine ⟨honly,?_⟩
  rw [hview]
  refine ⟨happend.past,happend.pooled,happend.waiting,happend.unregistered,happend.registered,happend.session,
    happend.once,happend.begun,fun i k hk => ?_⟩
  by_cases hi : i = j
  · rw [hi] at hk
    dsimp only at hk
    rw [Function.update_self] at hk
    cases hk
  · dsimp only at hk
    rw [Function.update_of_ne hi] at hk
    exact h.pending i k hk

theorem connShut_steps {dState : ℕ} (h : ShutInv T (w.view c)) (hclosing : closing dState = true) :
    Steps T w (w.connShut c dState) c := by
  unfold connShut
  dsimp only
  split_ifs with hclosed hfree hqueue
  · exact ⟨.refl c w,h⟩
  · obtain ⟨hdState,hfd⟩ := hfree
    obtain ⟨hmessages,hparent⟩ := hqueue
    have hshut := h.shut hclosing hdState
    rw [← view_modify] at hshut
    have honly := modify_only w c fun d => { d with dState := d.dState ||| dState }
    have hview := view_modify w c fun d => { d with dState := d.dState ||| dState }
    generalize w.modify c (fun d => { d with dState := d.dState ||| dState }) = w₁ at hshut honly hview
    have hconn : w₁.conns c = { w.conns c with dState := (w.conns c).dState ||| dState } :=
      congrArg ConnView.conn hview
    obtain ⟨p,hp⟩ := Option.isSome_iff_exists.mp hparent
    obtain ⟨t,ht⟩ := Option.isSome_iff_exists.mp hmessages
    have hpush : w₁.pushMessage c .shut = w₁.qmessagePush (some t) .shut (w₁.conns c).index (some p) c := by
      rw [pushMessage,hconn]
      dsimp only
      rw [hp,ht]
    rw [hpush]
    refine ⟨(honly.trans (qmessagePush_only ..)).trans (note_only ..),?_⟩
    rw [view_note,view_qmessagePush]
    have hnew : closing (w₁.conns c).dState = true := by
      rw [hconn]
      dsimp only
      rw [hdState]
      simpa [D_STATE_FREE] using hclosing
    have hnone : ∀ k ∈ (w₁.view c).messages, k.id.teardown = false := by
      rw [hview]
      intro k hk
      rw [Bool.eq_false_iff]
      intro hid
      have hbegun := (h.begun k hk hid).closing
      exact hclosed hbegun
    refine hshut.pushShut hnew ?_ ?_ ?_ hnone rfl
    · rw [hview]
      exact hfd
    · rw [hview]
      exact hparent
    · rw [hview]
      intro hmem
      rcases h.past.shut hmem with hc | hc
      · exact hclosed hc
      · exact not_lt.mpr hc hfd
  · refine ⟨modify_only w c _,?_⟩
    rw [view_modify]
    exact h.shut hclosing hfree.1
  · exact ⟨.refl c w,h⟩

/-! ### From message to message -/

theorem shutInput_steps (h : ShutInv T (w.view c)) (hnone : ∀ k ∈ (w.view c).messages, k.id.teardown = false)
    (hbegun : Begun (w.conns c) .shut)
    (hout : (w.conns c).outdaemon.isSome → .destroyed .outevent (w.conns c).born ∈ (w.conns c).past) :
    Steps T w (w.shutInput c) c := by
  unfold shutInput
  dsimp only
  cases hin : (w.conns c).indaemon with
  | some i =>
    refine qmessagePush_advance h hnone rfl ⟨hbegun.closing,hbegun.registered,hbegun.shut,hbegun.going,?_,?_⟩
    · exact fun _ => hout
    · intro hid
      cases hid
  | none =>
    cases (w.conns c).parent with
    | none => exact ⟨.refl c w,h⟩
    | some p =>
      refine qmessagePush_advance h hnone rfl ⟨hbegun.closing,hbegun.registered,hbegun.shut,hbegun.going,?_,?_⟩
      · exact fun _ => hout
      · intro _ hsome
        rw [hin] at hsome
        cases hsome

theorem connShutHandler_steps (h : ShutInv T (w.view c))
    (hnone : ∀ k ∈ (w.view c).messages, k.id.teardown = false) (hbegun : Begun (w.conns c) .shut) :
    Steps T w (w.connShutHandler c) c := by
  unfold connShutHandler
  dsimp only
  cases hout : (w.conns c).outdaemon with
  | some o =>
    refine qmessagePush_advance h hnone rfl ⟨hbegun.closing,hbegun.registered,hbegun.shut,hbegun.going,?_,?_⟩
    · rintro (hid | hid) <;> cases hid
    · intro hid
      cases hid
  | none =>
    refine shutInput_steps h hnone hbegun fun hsome => ?_
    rw [hout] at hsome
    cases hsome

theorem connShutoutHandler_steps (h : ShutInv T (w.view c))
    (hnone : ∀ k ∈ (w.view c).messages, k.id.teardown = false) (hbegun : Begun (w.conns c) .shutout) :
    Steps T w (w.connShutoutHandler c) c := by
  unfold connShutoutHandler
  split_ifs with hout
  · have hdestroy : Steps T w (w.eventDestroy .outevent c) c := note_steps h fun _ => rfl
    have hview : (w.eventDestroy .outevent c).view c = (w.view c).note (.destroyed .outevent) := view_note ..
    have hconn : (w.eventDestroy .outevent c).conns c =
        { w.conns c with past := .destroyed .outevent (w.conns c).born::(w.conns c).past } :=
      congrArg ConnView.conn hview
    have hinput : Steps T (w.eventDestroy .outevent c) ((w.eventDestroy .outevent c).shutInput c) c := by
      refine shutInput_steps hdestroy.inv ?_ ?_ ?_
      · rw [hview]
        exact hnone
      · rw [hconn]
        exact hbegun.first.cons rfl
      · rw [hconn]
        exact fun _ => List.mem_cons_self
    exact hdestroy.trans hinput
  · exact shutInput_steps h hnone hbegun.first fun hsome => absurd hsome hout

theorem procthreadOverConnection_steps (h : ShutInv T (w.view c))
    (hnone : ∀ k ∈ (w.view c).messages, k.id.teardown = false) (hbegun : Begun (w.conns c) .over) :
    Steps T w (procthreadOverConnection T w c) c := by
  have hdestroy : Steps T w (w.eventDestroy .event c) c := note_steps h fun _ => rfl
  have hview : (w.eventDestroy .event c).view c = (w.view c).note (.destroyed .event) := view_note ..
  have hconn : (w.eventDestroy .event c).conns c =
      { w.conns c with past := .destroyed .event (w.conns c).born::(w.conns c).past } :=
    congrArg ConnView.conn hview
  unfold procthreadOverConnection serviceOverconn
  cases T.daemon with
  | none => exact hdestroy
  | some daemon =>
    refine hdestroy.trans (qmessagePush_advance hdestroy.inv ?_ rfl ?_)
    · rw [hview]
      exact hnone
    · have hfirst : Begun ((w.eventDestroy .event c).conns c) .over := by
        rw [hconn]
        exact hbegun.cons rfl
      refine ⟨hfirst.closing,hfirst.registered,hfirst.shut,hfirst.going,fun _ => hfirst.out (.inl rfl),fun _ _ => ?_⟩
      rw [hconn]
      exact List.mem_cons_self

/-! ### Out of use and into use -/

/-- What `procthread_terminate_connection` does before it looks at the lock. -/
theorem view_connTerminate (w : ShutWorld) (c : ℕ) :
    OnlyConn c w (((w.note c .terminated).servicePopconn c).connTerminate c) ∧
      ∃ ended, (ended = [.closed (w.conns c).born,.terminated (w.conns c).born] ∨
          ended = [.terminated (w.conns c).born]) ∧
        (((w.note c .terminated).servicePopconn c).connTerminate c).view c = { w.view c with
          conn := { w.conns c with past := ended ++ (w.conns c).past, dState := D_STATE_CLOSE, fd := -1 } } := by
  have hview : ((w.note c .terminated).servicePopconn c).view c = (w.view c).note .terminated := by
    rw [view_servicePopconn,view_note]
  have honly : OnlyConn c w ((w.note c .terminated).servicePopconn c) := by
    refine ⟨fun k hk => ?_,?_⟩
    · rw [view_servicePopconn]
      exact (note_only w c _).others k hk
    · unfold servicePopconn
      dsimp only
      split_ifs <;> rfl
  generalize (w.note c .terminated).servicePopconn c = w₁ at hview honly ⊢
  unfold connTerminate
  dsimp only
  split_ifs
  · refine ⟨(honly.trans (note_only ..)).trans (modify_only ..),_,.inl rfl,?_⟩
    rw [view_modify,view_note,hview]
    rfl
  · refine ⟨honly.trans (modify_only ..),_,.inr rfl,?_⟩
    rw [view_modify,hview]
    rfl

theorem connTerminate_steps (h : ShutInv T (w.view c)) (hnone : ∀ k ∈ (w.view c).messages, k.id.teardown = false)
    (hbegun : Begun (w.conns c) .quit) :
    Steps T w (((w.note c .terminated).servicePopconn c).connTerminate c) c := by
  obtain ⟨hin,hout⟩ := h.destroyed hbegun
  obtain ⟨honly,ended,hended,hview⟩ := view_connTerminate w c
  refine ⟨honly,?_⟩
  rw [hview]
  refine h.withPast hnone ?_ ⟨rfl,rfl,rfl⟩ rfl ⟨rfl,rfl⟩
  rcases hended with rfl | rfl
  · exact h.past.close hbegun.going (by decide) hin hout
  · exact h.past.terminate hbegun.going (by decide)

theorem servicePushtoq_steps (h : ShutInv T (w.view c)) (hparent : (w.conns c).parent = none)
    (hidle : (w.view c).pooled = 0) (hnew : ∀ k ∈ (w.view c).messages, k.id ≠ .newSession) :
    Steps T w (w.servicePushtoq c) c := by
  refine ⟨servicePushtoq_only w c,?_⟩
  rcases view_servicePushtoq w c with hview | hview
  · rw [hview]
    exact h
  · rw [hview]
    exact h.shelve hparent hidle hnew

theorem procthreadTerminateConnection_steps {pth : ℕ} (h : ShutInv T (w.view c))
    (hnone : ∀ k ∈ (w.view c).messages, k.id.teardown = false) (hbegun : Begun (w.conns c) .quit) :
    Steps T w (w.procthreadTerminateConnection pth c) c := by
  obtain ⟨t,ht⟩ := Option.isSome_iff_exists.mp hbegun.registered
  obtain ⟨-,-,-,hnew⟩ := h.registered t ht
  have hidle : (w.view c).pooled = 0 := by
    by_contra hp
    have hparent : (w.conns c).parent = none := (h.waiting (Nat.pos_of_ne_zero hp)).1
    rw [hparent] at ht
    cases ht
  have hsteps := connTerminate_steps h hnone hbegun
  obtain ⟨-,ended,-,hview⟩ := view_connTerminate w c
  unfold procthreadTerminateConnection
  dsimp only
  generalize ((w.note c .terminated).servicePopconn c).connTerminate c = w₁ at hsteps hview ⊢
  split_ifs
  · exact hsteps
  · have hreset : Steps T w₁ (w₁.connReset c) c := by
      refine ⟨modify_only w₁ c _,?_⟩
      rw [connReset,view_modify]
      refine hsteps.inv.reset ?_ ?_
      · rw [hview]
        exact hnone
      · rw [hview]
        exact hidle
    have hconn : (w₁.connReset c).view c = (w₁.view c).modify _ := view_modify ..
    refine (hsteps.trans hreset).trans (servicePushtoq_steps hreset.inv ?_ ?_ ?_)
    · exact congrArg (fun v => v.conn.parent) hconn
    · rw [hconn,hview]
      exact hidle
    · rw [hconn,hview]
      exact hnew

theorem procthreadAddConnection_steps {pth : ℕ} (h : ShutInv T (w.view c)) (hparent : (w.conns c).parent = none)
    (hidle : (w.view c).pooled = 0) (hnew : ∀ k ∈ (w.view c).messages, k.id ≠ .newSession)
    (hpth : ∃ fd, T.threadFor fd = some pth) : Steps T w (procthreadAddConnection T w pth c) c := by
  unfold procthreadAddConnection
  refine ⟨(modify_only ..).trans (servicePushconn_only ..),?_⟩
  obtain ⟨index,hview⟩ := view_servicePushconn (w.modify c fun d =>
    { d with messageQueue := some pth, indaemon := T.indaemon pth, inqmessage := T.indaemon pth,
             outdaemon := T.outdaemon pth, outqmessage := T.outdaemon pth, parent := some pth }) c
  rw [hview,view_modify]
  exact h.register hparent hidle hnew hpth

theorem procthreadAddconn_steps {pth : ℕ} (h : ShutInv T (w.view c)) (hparent : (w.conns c).parent = none)
    (hidle : (w.view c).pooled = 0) (hnew : ∀ k ∈ (w.view c).messages, k.id ≠ .newSession)
    (hpth : ∃ fd, T.threadFor fd = some pth) : Steps T w (w.procthreadAddconn pth c) c := by
  unfold procthreadAddconn
  split_ifs
  · refine ⟨qmessagePush_only ..,?_⟩
    rw [view_qmessagePush]
    exact h.announce hparent hidle hnew rfl rfl hpth
  · exact ⟨.refl c w,h⟩

theorem route_steps {fd : ℤ} (h : ShutInv T (w.view c)) (hparent : (w.conns c).parent = none)
    (hidle : (w.view c).pooled = 0) (hnew : ∀ k ∈ (w.view c).messages, k.id ≠ .newSession) (status : ℕ) :
    Steps T w (route T w c fd status) c := by
  unfold route
  cases hpth : T.threadFor fd with
  | none => exact servicePushtoq_steps h hparent hidle hnew
  | some pth =>
    dsimp only
    split_ifs
    · exact procthreadAddConnection_steps h hparent hidle hnew ⟨fd,hpth⟩
    · exact procthreadAddconn_steps h hparent hidle hnew ⟨fd,hpth⟩

/-! ### Taking a message -/

/-- The oldest message of a queue is the oldest that its connection has in that queue. -/
theorem view_received {t : ℕ} (hm : w.messages.find? (·.thread = t) = some m) :
    ∃ pre post, (w.view m.conn).messages = pre ++ m::post ∧ m.thread = t ∧ (∀ k ∈ pre, k.thread ≠ t) ∧
      (({ w with messages := w.messages.eraseP (·.thread = t) } : ShutWorld).view m.conn =
        { w.view m.conn with messages := pre ++ post }) ∧
      OnlyConn m.conn w { w with messages := w.messages.eraseP (·.thread = t) } := by
  obtain ⟨ht,as,bs,hmessages,has⟩ := List.find?_eq_some_iff_append.mp hm
  have hsplit : w.messages.eraseP (·.thread = t) = as ++ bs := by
    rw [hmessages,List.eraseP_append_right _ fun a ha => by simpa using has a ha]
    exact congrArg (as ++ ·) (List.eraseP_cons_of_pos ht)
  refine ⟨as.filter (·.conn = m.conn),bs.filter (·.conn = m.conn),?_,by simpa using ht,fun k hk => ?_,?_,fun k hk => ?_,rfl⟩
  · simp [view,hmessages]
  · simpa using has k (List.mem_of_mem_filter hk)
  · simp [view,hsplit]
  · rw [view,hsplit]
    simp [view,hmessages,hk.symm]

theorem dispatch_steps {pth : ℕ} (h : ShutInv T (w.view m.conn))
    (hteardown : m.id.teardown = true →
      (∀ k ∈ (w.view m.conn).messages, k.id.teardown = false) ∧ Begun (w.conns m.conn) m.id)
    (hsession : m.id = .newSession → (w.conns m.conn).parent = none ∧ (w.view m.conn).pooled = 0 ∧
      (∀ k ∈ (w.view m.conn).messages, k.id ≠ .newSession) ∧ ∃ fd, T.threadFor fd = some pth) :
    Steps T w (dispatch T w pth m) m.conn := by
  unfold dispatch
  split
  · rename_i hid
    obtain ⟨hparent,hidle,hnew,hpth⟩ := hsession hid
    exact procthreadAddConnection_steps h hparent hidle hnew hpth
  · rename_i hid
    obtain ⟨hnone,hbegun⟩ := hteardown (by rw [hid]; rfl)
    exact connShutHandler_steps h hnone (by rwa [hid] at hbegun)
  · rename_i hid
    obtain ⟨hnone,hbegun⟩ := hteardown (by rw [hid]; rfl)
    exact connShutoutHandler_steps h hnone (by rwa [hid] at hbegun)
  · rename_i hid
    obtain ⟨hnone,hbegun⟩ := hteardown (by rw [hid]; rfl)
    exact procthreadOverConnection_steps h hnone (by rwa [hid] at hbegun)
  · rename_i hid
    obtain ⟨hnone,hbegun⟩ := hteardown (by rw [hid]; rfl)
    exact procthreadTerminateConnection_steps h hnone (by rwa [hid] at hbegun)
  · exact ⟨.refl m.conn w,h⟩

end ShutWorld

namespace ShutKept

/-- What is pushed is for a connection that exists. -/
theorem known (h : ShutKept T w) {j c : ℕ} (hj : (w.pushers j).conn? = some c) : c < w.nconns := by
  by_contra hnew
  have hidle := congrFun (h.fresh c (not_lt.mp hnew)).2.2 j
  rw [ShutWorld.view] at hidle
  dsimp only at hidle
  rw [PushState.of_eq hj] at hidle
  rw [hidle] at hj
  cases hj

/-- One message of a thread. -/
theorem qmessageHandler_steps (h : ShutKept T w) {t : ℕ} (hm : w.messages.find? (·.thread = t) = some m) :
    m.conn < w.nconns ∧ Steps T w (w.qmessageHandler T t) m.conn := by
  obtain ⟨pre,post,hv,-,-,hview,honly⟩ := ShutWorld.view_received hm
  have hmem : m ∈ (w.view m.conn).messages := by
    rw [hv]
    exact List.mem_append_right _ List.mem_cons_self
  have hc : m.conn < w.nconns := by
    by_contra hnew
    rw [(h.fresh m.conn (not_lt.mp hnew)).1] at hmem
    cases hmem
  refine ⟨hc,?_⟩
  obtain ⟨hinv,hteardown,hsession⟩ := (h.conns m.conn).receive hv
  unfold ShutWorld.qmessageHandler
  rw [hm]
  dsimp only
  generalize ({ w with messages := w.messages.eraseP (·.thread = t) } : ShutWorld) = w₁ at hview honly ⊢
  rw [← hview] at hinv
  have hreceived : Steps T w w₁ m.conn := ⟨honly,hinv⟩
  cases hparent : m.parent with
  | none => exact hreceived
  | some pth =>
    dsimp only
    split_ifs
    · have hnote : Steps T w₁ (w₁.note m.conn (.dispatched m)) m.conn :=
        ShutWorld.note_steps hinv fun _ => rfl
      have hnoted : (w₁.note m.conn (.dispatched m)).view m.conn = (w₁.view m.conn).note (.dispatched m) :=
        ShutWorld.view_note ..
      have hconn : (w₁.note m.conn (.dispatched m)).conns m.conn = { w.conns m.conn with
          past := .dispatched m (w.conns m.conn).born::(w.conns m.conn).past } := by
        have hconns := congrArg ConnView.conn hnoted
        rw [hview] at hconns
        exact hconns
      refine (hreceived.trans hnote).trans (ShutWorld.dispatch_steps hnote.inv (fun hid => ?_) fun hid => ?_)
      · rw [hnoted,hview,hconn]
        exact ⟨hteardown hid,((h.conns m.conn).begun m hmem hid).cons rfl⟩
      · obtain ⟨hunregistered,hidle⟩ := (h.conns m.conn).unused hmem hid
        obtain ⟨fd,p,hp,hfd⟩ := (h.conns m.conn).session.2 m hmem hid
        rw [hparent] at hp
        cases hp
        rw [hnoted,hview,hconn]
        exact ⟨hunregistered,hidle,hsession hid,fd,hfd⟩
    · exact hreceived

theorem handle (h : ShutKept T w) (t : ℕ) : ShutKept T (w.qmessageHandler T t) := by
  cases hm : w.messages.find? (·.thread = t) with
  | none =>
    rw [ShutWorld.qmessageHandler,hm]
    exact h
  | some m =>
    obtain ⟨hc,hsteps⟩ := h.qmessageHandler_steps hm
    exact h.step hc hsteps

/-- A connection comes from the queue or from `conn_init`. -/
theorem view_taken (w : ShutWorld) (fresh : Bool) {c : ℕ} (hc : (w.servicePopfromq fresh).2 = some c) :
    (∀ k ≠ c, (w.servicePopfromq fresh).1.view k = w.view k) ∧
      (((w.servicePopfromq fresh).1.nconns = w.nconns ∧ 0 < (w.view c).pooled ∧
          (w.servicePopfromq fresh).1.view c = { w.view c with pooled := (w.view c).pooled - 1 }) ∨
        (c = w.nconns ∧ (w.servicePopfromq fresh).1.nconns = w.nconns + 1 ∧
          (w.servicePopfromq fresh).1.view c = { w.view c with conn := .init })) := by
  unfold ShutWorld.servicePopfromq at hc ⊢
  cases hq : w.qconns with
  | cons d rest =>
    rw [hq] at hc
    cases hc
    have hcount : (w.view c).pooled = rest.count c + 1 := by
      rw [ShutWorld.view,hq]
      exact List.count_cons_self
    refine ⟨fun k hk => ?_,.inl ⟨rfl,?_,?_⟩⟩
    · simp [ShutWorld.view,hq,hk.symm]
    · omega
    · rw [hcount]
      rfl
  | nil =>
    rw [hq] at hc
    cases fresh with
    | false => cases hc
    | true =>
      cases hc
      exact ⟨fun k hk => by simp [ShutWorld.view,hk,hq],.inr ⟨rfl,rfl,by simp [ShutWorld.view,hq]⟩⟩

/-- Such a connection is not in use. -/
theorem taken (h : ShutKept T w) (fresh : Bool) {c : ℕ} (hc : (w.servicePopfromq fresh).2 = some c) :
    ShutKept T (w.servicePopfromq fresh).1 ∧ c < (w.servicePopfromq fresh).1.nconns ∧
      ((w.servicePopfromq fresh).1.view c).pooled = 0 ∧ ((w.servicePopfromq fresh).1.conns c).parent = none ∧
        ∀ k ∈ ((w.servicePopfromq fresh).1.view c).messages, k.id ≠ .newSession := by
  obtain ⟨hothers,⟨hnconns,hpooled,hview⟩ | ⟨rfl,hnconns,hview⟩⟩ := view_taken w fresh hc
  · generalize (w.servicePopfromq fresh).1 = w₁ at hothers hnconns hview ⊢
    have hinv := h.conns c
    obtain ⟨hparent,hnew⟩ := hinv.waiting hpooled
    have hidle : (w.view c).pooled - 1 = 0 := by
      have hone := hinv.pooled
      omega
    have hlt : c < w.nconns := by
      by_contra hge
      rw [(h.fresh c (not_lt.mp hge)).2.1] at hpooled
      cases hpooled
    have hconn : w₁.conns c = w.conns c := congrArg ConnView.conn hview
    have hinv' : ShutInv T (w₁.view c) := by
      rw [hview]
      refine ⟨hinv.past,?_,fun hp => ?_,hinv.unregistered,hinv.registered,hinv.session,hinv.once,hinv.begun,
        hinv.pending⟩
      · exact hidle.trans_le zero_le_one
      · exact absurd hidle (Nat.pos_iff_ne_zero.mp hp)
    refine ⟨h.step hlt ⟨⟨hothers,hnconns⟩,hinv'⟩,hnconns ▸ hlt,?_,?_,?_⟩
    · rw [hview]
      exact hidle
    · rw [hconn]
      exact hparent
    · rw [hview]
      exact hnew
  · generalize (w.servicePopfromq fresh).1 = w₁ at hothers hnconns hview ⊢
    obtain ⟨hmessages,hidle,hpushers⟩ := h.fresh w.nconns le_rfl
    have hnew : w₁.view w.nconns = ⟨.init,0,[],fun _ => .idle⟩ := by
      rw [hview]
      dsimp only
      rw [hmessages,hidle,hpushers]
    refine ⟨⟨fun k => ?_,fun k hk => ?_⟩,hnconns ▸ Nat.lt_succ_self _,by rw [hnew],?_,?_⟩
    · by_cases hk : k = w.nconns
      · rw [hk,hnew]
        exact .new
      · rw [hothers k hk]
        exact h.conns k
    · rw [hnconns] at hk
      rw [hothers k (by omega)]
      exact h.fresh k (by omega)
    · exact congrArg (fun v => v.conn.parent) hnew
    · rw [hnew]
      intro k hk
      cases hk

theorem none_taken (w : ShutWorld) (fresh : Bool) (hnone : (w.servicePopfromq fresh).2 = none) :
    (w.servicePopfromq fresh).1 = w := by
  unfold ShutWorld.servicePopfromq at hnone ⊢
  cases hq : w.qconns with
  | cons c rest =>
    rw [hq] at hnone
    cases hnone
  | nil =>
    rw [hq] at hnone
    cases fresh with
    | false => rfl
    | true => cases hnone

/-- A new incarnation, and what becomes of it. -/
theorem route_steps (h : ShutKept T w) {c : ℕ} (fd : ℤ) (status : ℕ) (hidle : (w.view c).pooled = 0)
    (hparent : (w.conns c).parent = none) (hnew : ∀ k ∈ (w.view c).messages, k.id ≠ .newSession) :
    Steps T w (w.modify c fun d => { d with fd := fd, born := d.born + 1 }) c ∧
      Steps T w (ShutWorld.route T (w.modify c fun d => { d with fd := fd, born := d.born + 1 }) c fd status) c := by
  have hview := ShutWorld.view_modify w c fun d => { d with fd := fd, born := d.born + 1 }
  have htake : Steps T w (w.modify c fun d => { d with fd := fd, born := d.born + 1 }) c := by
    refine ⟨ShutWorld.modify_only ..,?_⟩
    rw [hview]
    have hinv : ShutInv T ⟨{ w.conns c with fd := fd, born := (w.conns c).born + 1 },0,(w.view c).messages,
        (w.view c).pushers⟩ := (h.conns c).take hparent
    rw [← hidle] at hinv
    exact hinv
  refine ⟨htake,htake.trans (ShutWorld.route_steps htake.inv ?_ ?_ ?_ status)⟩
  · exact (congrArg (fun v => v.conn.parent) hview).trans hparent
  · rw [hview]
    exact hidle
  · rw [hview]
    exact hnew

theorem addconn (h : ShutKept T w) (fd : ℤ) (status : ℕ) (fresh : Bool) :
    ShutKept T (w.serviceAddconn T fd status fresh) := by
  unfold ShutWorld.serviceAddconn
  split_ifs
  · cases hpop : w.servicePopfromq fresh with
    | mk w₁ taken =>
      cases taken with
      | none =>
        have hsame := none_taken w fresh (by rw [hpop])
        rw [hpop] at hsame
        dsimp only at hsame ⊢
        rw [hsame]
        exact h
      | some c =>
        obtain ⟨hkept,hlt,hidle,hparent,hnew⟩ := h.taken fresh (by rw [hpop])
        rw [hpop] at hkept hlt hidle hparent hnew
        exact hkept.step hlt (hkept.route_steps fd status hidle hparent hnew).2
  · exact h

theorem op (h : ShutKept T w) (op : ShutOp) : ShutKept T (op.step T w) := by
  cases op with
  | addconn fd status fresh => exact h.addconn fd status fresh
  | close c =>
    simp only [ShutOp.step]
    split_ifs with hc
    · exact h.step hc (ShutWorld.connShut_steps (h.conns c) rfl)
    · exact h
  | fail c =>
    simp only [ShutOp.step]
    split_ifs with hc
    · exact h.step hc (ShutWorld.connShut_steps (h.conns c) rfl)
    · exact h
  | destroy side c =>
    simp only [ShutOp.step]
    split_ifs with hc
    · exact h.step hc (ShutWorld.note_steps (h.conns c) fun _ => rfl)
    · exact h
  | look j c p =>
    cases hidle : w.pushers j with
    | idle =>
      simp only [ShutOp.step,ShutWorld.look,hidle]
      split_ifs with hlook
      · refine h.step hlook.1 (ShutWorld.setPusher_steps (h.conns c) (.inr ?_) (.inl rfl) fun m hm => by cases hm)
        rw [hidle]
        rfl
      · exact h
    | looked => simpa only [ShutOp.step,ShutWorld.look,hidle] using h
    | ready => simpa only [ShutOp.step,ShutWorld.look,hidle] using h
  | readArgs j =>
    cases hlooked : w.pushers j with
    | looked c n p => exact h.step (h.known (by rw [hlooked]; rfl)) (ShutWorld.readArgs_steps (h.conns c) hlooked)
    | idle => simpa only [ShutOp.step,ShutWorld.readArgs,hlooked] using h
    | ready => simpa only [ShutOp.step,ShutWorld.readArgs,hlooked] using h
  | push j =>
    cases hready : w.pushers j with
    | ready m => exact h.step (h.known (by rw [hready]; rfl)) (ShutWorld.push_steps (h.conns m.conn) hready)
    | idle => simpa only [ShutOp.step,ShutWorld.push,hready] using h
    | looked => simpa only [ShutOp.step,ShutWorld.push,hready] using h
  | handle t => exact h.handle t
  | stopThread t => exact ⟨h.conns,h.fresh⟩
  | stopService => exact ⟨h.conns,h.fresh⟩

theorem init (limit : ℕ) : ShutKept T (.init limit) :=
  ⟨fun _ => .new,fun _ _ => ⟨rfl,rfl,rfl⟩⟩

theorem run (limit : ℕ) (ops : List ShutOp) : ShutKept T (ops.foldl (ShutOp.step T) (.init limit)) :=
  (run_ofFun_iff.mpr rfl).invariant (ShutKept T) (init limit) fun _ op _ h hstep => hstep ▸ h.op op

end ShutKept

/-- In every state that the threads reach, in any order of their steps, no connection waits twice in the
queue, and in each of its incarnations it has been shut, terminated and closed at most once, the registered
events being destroyed before the descriptor is closed. -/
theorem shutdown_once (T : ServiceThreads) (limit : ℕ) (ops : List ShutOp) :
    let w := ops.foldl (ShutOp.step T) (.init limit)
    w.qconns.Nodup ∧ ∀ c,
      (∀ n, (w.conns c).past.count (.shut n) ≤ 1 ∧ (w.conns c).past.count (.terminated n) ≤ 1 ∧
        (w.conns c).past.count (.closed n) ≤ 1) ∧
      Ordered T (w.conns c).past := by
  intro w
  have hkept : ShutKept T w := .run limit ops
  refine ⟨List.nodup_iff_count_le_one.mpr fun c => (hkept.conns c).pooled,fun c => ⟨fun n => ?_,?_⟩⟩
  · have hpast := (hkept.conns c).past
    exact ⟨hpast.shuts n,hpast.ends n,(hpast.closes n).trans (hpast.ends n)⟩
  · exact (hkept.conns c).past.ordered

/-- One thread with a daemon for its input and none for its output. -/
def inputOnly : ServiceThreads :=
  ⟨WORKING_THREAD,some 0,1,fun _ => some 1,fun _ => some 2,fun _ => none⟩

/-- A connection is accepted, closed and terminated. -/
def acceptAndClose : List ShutOp := [.addconn 5 CONN_STATUS_FREE true,.close 0,.handle 1,.handle 2,.handle 0]

theorem outevent_kept : inputOnly.workingMode = WORKING_THREAD ∧ inputOnly.HasIndaemons ∧
    let w := acceptAndClose.foldl (ShutOp.step inputOnly) (.init 8)
    .closed 1 ∈ (w.conns 0).past ∧ .destroyed .outevent 1 ∉ (w.conns 0).past :=
  ⟨rfl,fun _ _ _ => rfl,by decide,by decide⟩

end Sbase
