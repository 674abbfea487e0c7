import Sbase.Service.ShutdownOnce

/-! No message of one incarnation of a connection is dispatched to a later one, as long as no push ends that
was begun for a connection which has begun to be shut down. -/
namespace Sbase
open Slots Runs

/-- The connection has not begun to be shut down. -/
def ThreadConn.Open (d : ThreadConn) : Prop := closing d.dState = false ∧ .shut d.born ∉ d.past

/-- A push ends while the connection for which it was begun is there and is not being shut down. -/
def Timely (w : ShutWorld) : ShutOp → Prop
  | .push j => ∀ m, w.pushers j = .ready m → (w.conns m.conn).born = m.born ∧ (w.conns m.conn).Open
  | _ => True

/-! ### The invariant of a connection -/

/-- The queues in which messages for a connection wait. -/
def ThreadConn.Reaches (T : ServiceThreads) (d : ThreadConn) (t : ℕ) : Prop :=
  T.threadFor d.fd = some t ∨ d.messageQueue = some t ∨ d.outqmessage = some t ∨ d.inqmessage = some t

/-- The queues in which messages may wait together with one that shuts the connection down, which has gone
through the others. -/
def ThreadConn.Ahead (d : ThreadConn) : MessageId → ℕ → Prop
  | .shut, t => d.messageQueue = some t ∨ d.outqmessage = some t ∨ d.inqmessage = some t
  | .shutout, t => d.outqmessage = some t ∨ d.inqmessage = some t
  | .over, t => d.inqmessage = some t
  | _, _ => False

/-- The queue of a message that shuts the connection down. -/
def ThreadConn.Stands (d : ThreadConn) : MessageId → ℕ → Prop
  | .shut, t => d.messageQueue = some t
  | .shutout, t => d.outqmessage = some t
  | .over, t => d.inqmessage = some t
  | _, _ => True

/-- What is known of a push that is under way: it was begun in this incarnation or before, and the queue that it has
read in this one is one of the connection, unless that has begun to be shut down. -/
def ThreadConn.Expects (T : ServiceThreads) (d : ThreadConn) (pooled : ℕ) : PushState → Prop
  | .idle => True
  | .looked _ n _ => n ≤ d.born
  | .ready m => m.born ≤ d.born ∧ (m.born = d.born → d.Open → pooled = 0 ∧ d.Reaches T m.thread)

/-- A push was begun before an incarnation. -/
def PushState.Before (n : ℕ) : PushState → Prop
  | .idle => True
  | .looked _ k _ => k < n
  | .ready m => m.born < n

/-- All messages are of this incarnation, none is left while the connection waits in `qconns`, and behind a
message that shuts it down there is none. -/
structure Apart (T : ServiceThreads) (v : ConnView) : Prop where
  born : ∀ m ∈ v.messages, m.born = v.conn.born
  dispatched : ∀ m n, .dispatched m n ∈ v.conn.past → m.born = n
  waiting : 0 < v.pooled → v.messages = [] ∧ (0 < v.conn.fd → T.threadFor v.conn.fd = none)
  thread : ∀ t, v.conn.parent = some t →
    v.conn.messageQueue = some t ∧ (0 < v.conn.fd → T.threadFor v.conn.fd = some t)
  daemons : (v.conn.outdaemon = none → v.conn.outqmessage = none) ∧
    (v.conn.indaemon = none → v.conn.inqmessage = none)
  session : ∀ m ∈ v.messages, m.id = .newSession → ∀ t, m.parent = some t → T.threadFor v.conn.fd = some t
  calm : (∀ m ∈ v.messages, m.id.teardown = false) →
    closing v.conn.dState = true ∨ ∀ m ∈ v.messages, v.conn.Reaches T m.thread
  torn : ∀ m ∈ v.messages, m.id.teardown = true → v.conn.Stands m.id m.thread ∧
    ∃ pre, v.messages = pre ++ [m] ∧ ∀ k ∈ pre, k.id.teardown = false ∧ v.conn.Ahead m.id k.thread
  pending : ∀ j, v.conn.Expects T v.pooled (v.pushers j)

variable {T : ServiceThreads} {w w' : ShutWorld} {v : ConnView} {c : ℕ} {m : ConnMessage} {d d' : ThreadConn}
  {pooled pooled' : ℕ} {s : PushState}

namespace ThreadConn.Expects

/-- The connection goes on, and is open only where it was before. -/
theorem keep (h : d.Expects T pooled s) (hborn : d.born ≤ d'.born)
    (hopen : d'.born = d.born → d'.Open →
      d.Open ∧ (pooled = 0 → pooled' = 0) ∧ ∀ t, d.Reaches T t → d'.Reaches T t) : d'.Expects T pooled' s := by
  cases s with
  | idle => trivial
  | looked c n p => exact Nat.le_trans h hborn
  | ready m =>
    obtain ⟨hle,hread⟩ := h
    refine ⟨hle.trans hborn,fun heq ho => ?_⟩
    have hsame : d'.born = d.born := le_antisymm (heq.symm.trans_le hle) hborn
    obtain ⟨hopen',hpooled,hreach⟩ := hopen hsame ho
    obtain ⟨hidle,ht⟩ := hread (heq.trans hsame) hopen'
    exact ⟨hpooled hidle,hreach _ ht⟩

theorem before (h : d.Expects T pooled s) : s.Before (d.born + 1) := by
  cases s with
  | idle => trivial
  | looked c n p => exact Nat.lt_succ_of_le h
  | ready m => exact Nat.lt_succ_of_le h.1

end ThreadConn.Expects

theorem PushState.Before.expects (h : s.Before d.born) : d.Expects T pooled s := by
  cases s with
  | idle => trivial
  | looked c n p => exact Nat.le_of_lt h
  | ready m => exact ⟨Nat.le_of_lt h,fun heq => absurd heq (Nat.ne_of_lt h)⟩

namespace Apart

theorem new : Apart T ⟨.init,0,[],fun _ => .idle⟩ := by
  refine ⟨fun m hm => ?_,fun m n hm => ?_,fun hp => ?_,fun t ht => ?_,⟨fun _ => rfl,fun _ => rfl⟩,fun m hm => ?_,
    fun _ => .inr fun m hm => ?_,fun m hm => ?_,fun j => trivial⟩
  · cases hm
  · cases hm
  · cases hp
  · cases ht
  · cases hm
  · cases hm
  · cases hm

/-- Something else happens to the connection. -/
theorem note {f : ℕ → Happening} (h : Apart T v) (hf : ∀ m n, f v.conn.born = .dispatched m n → m.born = n) :
    Apart T (v.note f) := by
  refine ⟨h.born,fun m n hm => ?_,h.waiting,h.thread,h.daemons,h.session,h.calm,h.torn,
    fun j => (h.pending j).keep le_rfl fun _ hopen => ⟨⟨hopen.1,fun hs => hopen.2 (List.mem_cons_of_mem _ hs)⟩,id,
      fun _ => id⟩⟩
  rcases List.mem_cons.mp hm with heq | hm
  · exact hf m n heq.symm
  · exact h.dispatched m n hm

/-- A message that is no part of a shutdown, before one that is. -/
theorem append (h : Apart T v) (hnone : ∀ k ∈ v.messages, k.id.teardown = false) (hidle : v.pooled = 0)
    (hborn : m.born = v.conn.born) (hid : m.id.teardown = false)
    (hsession : m.id = .newSession → ∀ t, m.parent = some t → T.threadFor v.conn.fd = some t)
    (hreach : v.conn.Reaches T m.thread) : Apart T (v.append m) := by
  have hmem : ∀ k ∈ v.messages ++ [m], k ∈ v.messages ∨ k = m := fun k hk => by simpa using hk
  refine ⟨fun k hk => ?_,h.dispatched,fun hp => ?_,h.thread,h.daemons,fun k hk hk' => ?_,fun _ => ?_,
    fun k hk hk' => ?_,h.pending⟩
  · rcases hmem k hk with hk | rfl
    · exact h.born k hk
    · exact hborn
  · change 0 < v.pooled at hp
    omega
  · rcases hmem k hk with hk | rfl
    · exact h.session k hk hk'
    · exact hsession hk'
  · refine (h.calm hnone).imp_right fun hreach' k hk => ?_
    rcases hmem k hk with hk | rfl
    · exact hreach' k hk
    · exact hreach
  · rcases hmem k hk with hk | rfl
    · rw [hnone k hk] at hk'
      cases hk'
    · rw [hid] at hk'
      cases hk'

/-- The next message of a shutdown. -/
theorem advance (h : Apart T v) (hidle : v.pooled = 0) (hborn : m.born = v.conn.born) (hid : m.id.teardown = true)
    (hstands : v.conn.Stands m.id m.thread)
    (hahead : ∀ k ∈ v.messages, k.id.teardown = false ∧ v.conn.Ahead m.id k.thread) : Apart T (v.append m) := by
  have hmem : ∀ k ∈ v.messages ++ [m], k ∈ v.messages ∨ k = m := fun k hk => by simpa using hk
  refine ⟨fun k hk => ?_,h.dispatched,fun hp => ?_,h.thread,h.daemons,fun k hk hk' => ?_,fun hnone => ?_,
    fun k hk hk' => ?_,h.pending⟩
  · rcases hmem k hk with hk | rfl
    · exact h.born k hk
    · exact hborn
  · change 0 < v.pooled at hp
    omega
  · rcases hmem k hk with hk | rfl
    · exact h.session k hk hk'
    · rw [hk'] at hid
      cases hid
  · have hplain := hnone m (List.mem_append_right _ List.mem_cons_self)
    rw [hid] at hplain
    cases hplain
  · rcases hmem k hk with hk | rfl
    · rw [(hahead k hk).1] at hk'
      cases hk'
    · exact ⟨hstands,v.messages,rfl,hahead⟩

/-- Messages are taken off. -/
theorem receive {pre post : List ConnMessage} (h : Apart T v) (hinv : ShutInv T v)
    (hv : v.messages = pre ++ m::post) : Apart T { v with messages := pre ++ post } := by
  have hsub : ∀ k ∈ pre ++ post, k ∈ v.messages := by
    intro k hk
    rw [hv]
    simp only [List.mem_append,List.mem_cons] at hk ⊢
    tauto
  refine ⟨fun k hk => h.born k (hsub k hk),h.dispatched,fun hp => ?_,h.thread,h.daemons,
    fun k hk => h.session k (hsub k hk),fun hnone => ?_,fun k hk hid => ?_,h.pending⟩
  · have hnil := (h.waiting hp).1
    rw [hv] at hnil
    cases pre <;> cases hnil
  · by_cases hm : m.id.teardown = true
    · refine .inl (hinv.begun m ?_ hm).closing
      rw [hv]
      exact List.mem_append_right _ List.mem_cons_self
    · have hall : ∀ k ∈ v.messages, k.id.teardown = false := by
        intro k hk
        rw [hv] at hk
        rcases List.mem_append.mp hk with hk | hk
        · exact hnone k (List.mem_append_left _ hk)
        · rcases List.mem_cons.mp hk with rfl | hk
          · exact Bool.eq_false_iff.mpr hm
          · exact hnone k (List.mem_append_right _ hk)
      exact (h.calm hall).imp_right fun hreach k hk => hreach k (hsub k hk)
  · obtain ⟨hstands,before,hlast,hbefore⟩ := h.torn k (hsub k hk) hid
    refine ⟨hstands,?_⟩
    rcases List.eq_nil_or_concat post with rfl | ⟨post',k',rfl⟩
    · -- The message taken off would be the last one, which is the only one of its kind.
      exfalso
      rw [hv] at hlast
      obtain ⟨rfl,-⟩ := List.append_inj' hlast rfl
      rw [List.append_nil] at hk
      rw [(hbefore k hk).1] at hid
      cases hid
    · rw [hv,List.concat_eq_append,← List.cons_append,← List.append_assoc] at hlast
      obtain ⟨rfl,hsame⟩ := List.append_inj' hlast rfl
      cases hsame
      refine ⟨pre ++ post',by simp,fun j hj => hbefore j ?_⟩
      simp only [List.mem_append,List.mem_cons] at hj ⊢
      tauto

/-- A message that shuts the connection down is its last one. -/
theorem last {pre post : List ConnMessage} (h : Apart T v) (hv : v.messages = pre ++ m::post)
    (hid : m.id.teardown = true) : post = [] ∧ v.conn.Stands m.id m.thread ∧
      ∀ k ∈ pre, k.id.teardown = false ∧ v.conn.Ahead m.id k.thread := by
  have hm : m ∈ v.messages := by
    rw [hv]
    exact List.mem_append_right _ List.mem_cons_self
  obtain ⟨hstands,before,hlast,hbefore⟩ := h.torn m hm hid
  rw [hv] at hlast
  rcases List.eq_nil_or_concat post with rfl | ⟨post',k',rfl⟩
  · obtain ⟨rfl,-⟩ := List.append_inj' hlast rfl
    exact ⟨rfl,hstands,hbefore⟩
  · exfalso
    rw [List.concat_eq_append,← List.cons_append,← List.append_assoc] at hlast
    obtain ⟨rfl,-⟩ := List.append_inj' hlast rfl
    rw [(hbefore m (List.mem_append_right _ List.mem_cons_self)).1] at hid
    cases hid

/-- `conn_shut` begins. -/
theorem shut {dState : ℕ} (h : Apart T v) (hclosing : closing dState = true) :
    Apart T (v.modify fun d => { d with dState := d.dState ||| dState }) := by
  have hclosed : closing (v.conn.dState ||| dState) = true := by
    simp only [closing,connCheck,decide_eq_true_eq] at hclosing ⊢
    intro hzero
    apply hclosing
    rw [Nat.and_or_distrib_right] at hzero
    exact (Nat.or_eq_zero_iff.mp hzero).2
  refine ⟨h.born,h.dispatched,h.waiting,h.thread,h.daemons,h.session,fun _ => .inl hclosed,h.torn,
    fun j => (h.pending j).keep le_rfl fun _ hopen => ?_⟩
  have hopen' : closing (v.conn.dState ||| dState) = false := hopen.1
  rw [hclosed] at hopen'
  cases hopen'

/-- `procthread_add_connection` -/
theorem register {t : ℕ} {index : ℤ} (h : Apart T v) (hinv : ShutInv T v) (hparent : v.conn.parent = none)
    (ht : 0 < v.conn.fd → T.threadFor v.conn.fd = some t) :
    Apart T (v.modify fun d =>
      { d with messageQueue := some t, indaemon := T.indaemon t, inqmessage := T.indaemon t,
               outdaemon := T.outdaemon t, outqmessage := T.outdaemon t, parent := some t, index := index }) := by
  obtain ⟨hqueue,hin,hout⟩ := hinv.unregistered hparent
  -- What could reach it before is for the thread that registers it.
  have hreached : ∀ t', v.conn.Reaches T t' → T.threadFor v.conn.fd = some t' := by
    rintro t' (hthread | hq | hq | hq)
    · exact hthread
    · rw [hqueue] at hq
      cases hq
    · rw [hout] at hq
      cases hq
    · rw [hin] at hq
      cases hq
  refine ⟨h.born,h.dispatched,h.waiting,fun t' ht' => ?_,⟨fun hnone => hnone,fun hnone => hnone⟩,h.session,
    fun hnone => ?_,fun m hm hid => ?_,
    fun j => (h.pending j).keep le_rfl fun _ hopen => ⟨hopen,id,fun t' ht' => .inl (hreached t' ht')⟩⟩
  · cases ht'
    exact ⟨rfl,ht⟩
  · exact (h.calm hnone).imp_right fun hreach m hm => .inl (hreached _ (hreach m hm))
  · have hregistered := (hinv.begun m hm hid).registered
    rw [hparent] at hregistered
    cases hregistered

/-- A connection without messages, whatever its other fields are. -/
theorem ofNil {pushers : ℕ → PushState}
    (hdispatched : ∀ m n, .dispatched m n ∈ d.past → m.born = n)
    (hwaiting : 0 < pooled → 0 < d.fd → T.threadFor d.fd = none)
    (hthread : ∀ t, d.parent = some t → d.messageQueue = some t ∧ (0 < d.fd → T.threadFor d.fd = some t))
    (hdaemons : (d.outdaemon = none → d.outqmessage = none) ∧ (d.indaemon = none → d.inqmessage = none))
    (hpending : ∀ j, d.Expects T pooled (pushers j)) : Apart T ⟨d,pooled,[],pushers⟩ := by
  refine ⟨fun m hm => ?_,hdispatched,fun hp => ⟨rfl,hwaiting hp⟩,hthread,hdaemons,fun m hm => ?_,
    fun _ => .inr fun m hm => ?_,fun m hm => ?_,hpending⟩ <;> cases hm

end Apart

namespace ShutWorld

/-! ### Pushes -/

/-- A connection that is not being shut down has no message that shuts it down. -/
theorem none_of_open (hinv : ShutInv T (w.view c)) (hopen : closing (w.conns c).dState = false) :
    ∀ k ∈ (w.view c).messages, k.id.teardown = false := by
  intro k hk
  rw [Bool.eq_false_iff]
  intro hid
  have hclosing : closing (w.conns c).dState = true := (hinv.begun k hk hid).closing
  rw [hopen] at hclosing
  cases hclosing

theorem qmessagePush_apart {queue parent : Option ℕ} {id : MessageId} {index : ℤ} (h : Apart T (w.view c))
    (hnone : ∀ k ∈ (w.view c).messages, k.id.teardown = false) (hidle : queue.isSome → (w.view c).pooled = 0)
    (hid : id.teardown = false)
    (hsession : id = .newSession → ∀ t, parent = some t → T.threadFor (w.conns c).fd = some t)
    (hreach : ∀ t, queue = some t → (w.conns c).Reaches T t) :
    Apart T ((w.qmessagePush queue id index parent c).view c) := by
  cases queue with
  | none => exact h
  | some t =>
    rw [view_qmessagePush]
    exact h.append hnone (hidle rfl) rfl hid hsession (hreach t rfl)

theorem qmessagePush_advance_apart {queue parent : Option ℕ} {id : MessageId} {index : ℤ} (h : Apart T (w.view c))
    (hidle : (w.view c).pooled = 0) (hid : id.teardown = true)
    (hstands : ∀ t, queue = some t → (w.conns c).Stands id t)
    (hahead : ∀ k ∈ (w.view c).messages, k.id.teardown = false ∧ (w.conns c).Ahead id k.thread) :
    Apart T ((w.qmessagePush queue id index parent c).view c) := by
  cases queue with
  | none => exact h
  | some t =>
    rw [view_qmessagePush]
    exact h.advance hidle rfl hid (hstands t rfl) hahead

/-- A connection with a queue of its own does not wait in `qconns`. -/
theorem idle_of_parent (hinv : ShutInv T (w.view c)) (hparent : (w.conns c).parent ≠ none) :
    (w.view c).pooled = 0 := by
  by_contra hp
  exact hparent (hinv.waiting (Nat.pos_of_ne_zero hp)).1

/-- A push that reads a queue of the connection reads one that reaches it. -/
theorem reads_reach {n : ℕ} {p : Push} (h : Apart T (w.view c)) (hinv : ShutInv T (w.view c))
    (hm : w.reads T c n p = some m) : (w.view c).pooled = 0 ∧ (w.conns c).Reaches T m.thread := by
  have hqueue : ∀ {q : Option ℕ} {t : ℕ}, q = some t → q = (w.conns c).messageQueue ∨ q = (w.conns c).inqmessage ∨
      q = (w.conns c).outqmessage → (w.view c).pooled = 0 := by
    intro q t ht hq
    apply idle_of_parent hinv
    intro hparent
    obtain ⟨hmessage,hin,hout⟩ := hinv.unregistered hparent
    change (w.conns c).messageQueue = none at hmessage
    change (w.conns c).inqmessage = none at hin
    change (w.conns c).outqmessage = none at hout
    rcases hq with rfl | rfl | rfl <;> simp_all
  unfold reads at hm
  cases p with
  | posted p =>
    dsimp only at hm
    split at hm
    · obtain ⟨t,ht,rfl⟩ := Option.map_eq_some_iff.mp hm
      exact ⟨hqueue ht (.inl rfl),.inr (.inl ht)⟩
    · cases hm
  | buffer | chunkio =>
    obtain ⟨t,ht,rfl⟩ := Option.map_eq_some_iff.mp hm
    exact ⟨hqueue ht (.inr (.inl rfl)),.inr (.inr (.inr ht))⟩
  | out =>
    dsimp only at hm
    split at hm
    · obtain ⟨t,ht,rfl⟩ := Option.map_eq_some_iff.mp hm
      exact ⟨hqueue ht (.inr (.inr rfl)),.inr (.inr (.inl ht))⟩
    · obtain ⟨t,ht,rfl⟩ := Option.map_eq_some_iff.mp hm
      exact ⟨hqueue ht (.inr (.inl rfl)),.inr (.inr (.inr ht))⟩
    · cases hm
  | accepted =>
    obtain ⟨pth,hpth,rfl⟩ := Option.map_eq_some_iff.mp hm
    refine ⟨idle_of_parent hinv ?_,.inr (.inl (h.thread pth hpth).1)⟩
    rw [hpth]
    exact Option.some_ne_none pth
  | transaction =>
    dsimp only at hm
    split_ifs at hm with hlock
    split at hm
    · rename_i pth hpth
      split_ifs at hm
      cases hm
      refine ⟨?_,.inl hpth⟩
      by_contra hp
      have hnone : T.threadFor (w.conns c).fd = none := (h.waiting (Nat.pos_of_ne_zero hp)).2 hlock.2
      rw [hpth] at hnone
      cases hnone
    · cases hm

theorem setPusher_apart {j : ℕ} (h : Apart T (w.view c)) (hs : (w.conns c).Expects T (w.view c).pooled (s.of c)) :
    Apart T ((w.setPusher j s).view c) := by
  rw [view_setPusher]
  refine ⟨h.born,h.dispatched,h.waiting,h.thread,h.daemons,h.session,h.calm,h.torn,fun i => ?_⟩
  by_cases hi : i = j
  · rw [hi]
    dsimp only
    rwa [Function.update_self]
  · dsimp only
    rw [Function.update_of_ne hi]
    exact h.pending i

theorem readArgs_apart {j n : ℕ} {p : Push} (h : Apart T (w.view c)) (hinv : ShutInv T (w.view c))
    (hlooked : w.pushers j = .looked c n p) : Apart T ((w.readArgs T j).view c) := by
  have hn : n ≤ (w.conns c).born := by
    have hpending := h.pending j
    rw [view] at hpending
    dsimp only at hpending
    rwa [hlooked,PushState.of_eq rfl] at hpending
  rcases readArgs_cases T hlooked with ⟨m,hm,hstep⟩ | hstep
  · obtain ⟨hc,hborn,-⟩ := reads_plain hm
    rw [hstep]
    apply setPusher_apart h
    rw [PushState.of_eq (show (PushState.ready m).conn? = some c from congrArg some hc)]
    exact ⟨hborn.trans_le hn,fun _ _ => reads_reach h hinv hm⟩
  · rw [hstep]
    exact setPusher_apart h trivial

theorem push_apart {j : ℕ} (h : Apart T (w.view m.conn)) (hinv : ShutInv T (w.view m.conn))
    (hready : w.pushers j = .ready m) (hborn : (w.conns m.conn).born = m.born) (hopen : (w.conns m.conn).Open) :
    Apart T ((w.push j).view m.conn) := by
  have hpending : (w.view m.conn).pushers j = .ready m := by
    rw [view]
    dsimp only
    rw [hready,PushState.of_eq rfl]
  obtain ⟨hid,hsession⟩ := hinv.pending j m hpending
  have hexpects := h.pending j
  rw [hpending] at hexpects
  obtain ⟨hidle,hreach⟩ := hexpects.2 hborn.symm hopen
  have happend := h.append (none_of_open hinv hopen.1) hidle hborn.symm hid (fun hid' => absurd hid' hsession) hreach
  rw [(view_push hready).2]
  refine ⟨happend.born,happend.dispatched,happend.waiting,happend.thread,happend.daemons,happend.session,happend.calm,
    happend.torn,fun i => ?_⟩
  by_cases hi : i = j
  · rw [hi]
    dsimp only
    rw [Function.update_self]
    trivial
  · dsimp only
    rw [Function.update_of_ne hi]
    exact h.pending i

/-! ### Shutting down -/

theorem connShut_apart {dState : ℕ} (h : Apart T (w.view c)) (hinv : ShutInv T (w.view c))
    (hclosing : closing dState = true) : Apart T ((w.connShut c dState).view c) := by
  unfold connShut
  dsimp only
  split_ifs with hclosed hfree hqueue
  · exact h
  · obtain ⟨hdState,hfd⟩ := hfree
    obtain ⟨p,hp⟩ := Option.isSome_iff_exists.mp hqueue.2
    obtain ⟨hmessages,hthread⟩ := h.thread p hp
    have hnone : ∀ k ∈ (w.view c).messages, k.id.teardown = false := by
      intro k hk
      rw [Bool.eq_false_iff]
      exact fun hid => hclosed (hinv.begun k hk hid).closing
    have hplaces : ∀ k ∈ (w.view c).messages, (w.conns c).Ahead .shut k.thread := by
      intro k hk
      rcases h.calm hnone with hc | hreach
      · exact absurd hc hclosed
      · rcases hreach k hk with hk | hk
        · rw [hthread hfd] at hk
          cases hk
          exact .inl hmessages
        · exact hk
    have hshut := h.shut hclosing
    rw [← view_modify] at hshut
    have hview := view_modify w c fun d => { d with dState := d.dState ||| dState }
    generalize w.modify c (fun d => { d with dState := d.dState ||| dState }) = w₁ at hshut hview
    have hconn : w₁.conns c = { w.conns c with dState := (w.conns c).dState ||| dState } :=
      congrArg ConnView.conn hview
    rw [view_note]
    refine Apart.note ?_ fun m n heq => by cases heq
    unfold pushMessage
    split
    · refine qmessagePush_advance_apart hshut ?_ rfl (fun t ht => ?_) fun k hk => ?_
      · rw [hview]
        refine idle_of_parent hinv ?_
        rw [hp]
        exact Option.some_ne_none p
      · exact ht
      · rw [hview] at hk
        rw [hconn]
        exact ⟨hnone k hk,hplaces k hk⟩
    · exact hshut
  · rw [view_modify]
    exact h.shut hclosing
  · exact h

theorem shutInput_apart (h : Apart T (w.view c)) (hidle : (w.view c).pooled = 0)
    (hahead : ∀ k ∈ (w.view c).messages, k.id.teardown = false ∧ (w.conns c).Ahead .over k.thread) :
    Apart T ((w.shutInput c).view c) := by
  unfold shutInput
  dsimp only
  cases hin : (w.conns c).indaemon with
  | some i => exact qmessagePush_advance_apart h hidle rfl (fun t ht => ht) hahead
  | none =>
    cases (w.conns c).parent with
    | none => exact h
    | some p =>
      refine qmessagePush_advance_apart h hidle rfl (fun t _ => trivial) fun k hk => ?_
      have hqueue : (w.conns c).inqmessage = some k.thread := (hahead k hk).2
      have hnone : (w.conns c).inqmessage = none := h.daemons.2 hin
      rw [hnone] at hqueue
      cases hqueue

theorem connShutHandler_apart (h : Apart T (w.view c)) (hidle : (w.view c).pooled = 0)
    (hahead : ∀ k ∈ (w.view c).messages, k.id.teardown = false ∧ (w.conns c).Ahead .shutout k.thread) :
    Apart T ((w.connShutHandler c).view c) := by
  unfold connShutHandler
  dsimp only
  cases hout : (w.conns c).outdaemon with
  | some o => exact qmessagePush_advance_apart h hidle rfl (fun t ht => ht) hahead
  | none =>
    refine shutInput_apart h hidle fun k hk => ⟨(hahead k hk).1,?_⟩
    have hnone : (w.conns c).outqmessage = none := h.daemons.1 hout
    rcases (hahead k hk).2 with hqueue | hqueue
    · rw [hnone] at hqueue
      cases hqueue
    · exact hqueue

theorem connShutoutHandler_apart (h : Apart T (w.view c)) (hidle : (w.view c).pooled = 0)
    (hahead : ∀ k ∈ (w.view c).messages, k.id.teardown = false ∧ (w.conns c).Ahead .over k.thread) :
    Apart T ((w.connShutoutHandler c).view c) := by
  unfold connShutoutHandler
  split_ifs
  · have hview : (w.eventDestroy .outevent c).view c = (w.view c).note (.destroyed .outevent) := view_note ..
    have hconn := congrArg ConnView.conn hview
    change (w.eventDestroy .outevent c).conns c = _ at hconn
    refine shutInput_apart ?_ ?_ ?_
    · rw [hview]
      exact h.note fun m n heq => by cases heq
    · rw [hview]
      exact hidle
    · rw [hview,hconn]
      exact hahead
  · exact shutInput_apart h hidle hahead

theorem procthreadOverConnection_apart (h : Apart T (w.view c)) (hidle : (w.view c).pooled = 0)
    (hnil : (w.view c).messages = []) : Apart T ((procthreadOverConnection T w c).view c) := by
  have hview : (w.eventDestroy .event c).view c = (w.view c).note (.destroyed .event) := view_note ..
  have hdestroy : Apart T ((w.eventDestroy .event c).view c) := by
    rw [hview]
    exact h.note fun m n heq => by cases heq
  unfold procthreadOverConnection serviceOverconn
  cases T.daemon with
  | none => exact hdestroy
  | some daemon =>
    refine qmessagePush_advance_apart hdestroy ?_ rfl (fun t _ => trivial) fun k hk => ?_
    · rw [hview]
      exact hidle
    · rw [hview] at hk
      change k ∈ (w.view c).messages at hk
      rw [hnil] at hk
      cases hk

/-! ### Out of use and into use -/

theorem procthreadTerminateConnection_apart {pth : ℕ} (h : Apart T (w.view c))
    (hnil : (w.view c).messages = []) (hshut : .shut (w.conns c).born ∈ (w.conns c).past) : Apart T ((w.procthreadTerminateConnection pth c).view c) := by
  obtain ⟨-,ended,hended,hview⟩ := view_connTerminate w c
  dsimp only at hview
  rw [hnil] at hview
  have hdispatched : ∀ m n, .dispatched m n ∈ ended ++ (w.conns c).past → m.born = n := by
    intro m n hm
    have hpast : .dispatched m n ∈ (w.conns c).past := by
      rcases hended with rfl | rfl <;> simpa using hm
    exact h.dispatched m n hpast
  -- Behind its end no push is open.
  have hpending : ∀ {d' : ThreadConn} {pooled' : ℕ}, d'.born = (w.conns c).born →
      d'.past = ended ++ (w.conns c).past → ∀ j, d'.Expects T pooled' ((w.view c).pushers j) := by
    intro d' pooled' hborn hpast j
    refine (h.pending j).keep hborn.ge fun _ hopen => absurd ?_ hopen.2
    rw [hborn,hpast]
    exact List.mem_append_right _ hshut
  unfold procthreadTerminateConnection
  dsimp only
  generalize ((w.note c .terminated).servicePopconn c).connTerminate c = w₁ at hview ⊢
  split_ifs
  · rw [hview]
    refine .ofNil hdispatched (fun _ hfd => ?_) (fun t ht => ⟨(h.thread t ht).1,fun hfd => ?_⟩) h.daemons
      (hpending rfl rfl)
    · cases hfd
    · cases hfd
  · have hreset : (w₁.connReset c).view c = (w₁.view c).modify _ := view_modify ..
    rw [hview] at hreset
    rcases view_servicePushtoq (w₁.connReset c) c with hpush | hpush
    · rw [hpush,hreset]
      refine .ofNil hdispatched (fun _ hfd => ?_) (fun t ht => ?_) ⟨fun _ => rfl,fun _ => rfl⟩
        (hpending rfl rfl)
      · cases hfd
      · cases ht
    · rw [hpush,hreset]
      refine .ofNil hdispatched (fun _ hfd => ?_) (fun t ht => ?_) ⟨fun _ => rfl,fun _ => rfl⟩
        (hpending rfl rfl)
      · cases hfd
      · cases ht

theorem procthreadAddConnection_apart {pth : ℕ} (h : Apart T (w.view c)) (hinv : ShutInv T (w.view c))
    (hparent : (w.conns c).parent = none) (hpth : 0 < (w.conns c).fd → T.threadFor (w.conns c).fd = some pth) :
    Apart T ((procthreadAddConnection T w pth c).view c) := by
  unfold procthreadAddConnection
  obtain ⟨index,hview⟩ := view_servicePushconn (w.modify c fun d =>
    { d with messageQueue := some pth, indaemon := T.indaemon pth, inqmessage := T.indaemon pth,
             outdaemon := T.outdaemon pth, outqmessage := T.outdaemon pth, parent := some pth }) c
  rw [hview,view_modify]
  exact h.register hinv hparent hpth

theorem route_apart {status : ℕ} (h : Apart T (w.view c)) (hinv : ShutInv T (w.view c))
    (hparent : (w.conns c).parent = none) (hidle : (w.view c).pooled = 0) (hnil : (w.view c).messages = [])
    (hbefore : ∀ j, ((w.view c).pushers j).Before (w.conns c).born) : Apart T ((route T w c (w.conns c).fd status).view c) := by
  unfold route
  cases hpth : T.threadFor (w.conns c).fd with
  | none =>
    rcases view_servicePushtoq w c with hview | hview
    · rw [hview]
      exact h
    · rw [hview]
      dsimp only
      rw [hnil]
      exact .ofNil h.dispatched (fun _ _ => hpth) h.thread h.daemons fun j => (hbefore j).expects
  | some pth =>
    dsimp only
    split_ifs
    · exact procthreadAddConnection_apart h hinv hparent fun _ => hpth
    · unfold procthreadAddconn
      split_ifs
      · refine qmessagePush_apart h (fun k hk => ?_) (fun _ => hidle) rfl (fun _ t ht => ?_) fun t ht => ?_
        · rw [hnil] at hk
          cases hk
        · cases ht
          exact hpth
        · cases ht
          exact .inl hpth
      · exact h

/-! ### Taking a message -/

/-- Where messages that wait are, once their queue has handed on the one that shuts the connection down. -/
theorem ahead_next {d : ThreadConn} {t k : ℕ} (hk : k ≠ t) :
    (d.Stands .shut t → d.Ahead .shut k → d.Ahead .shutout k) ∧
      (d.Stands .shutout t → d.Ahead .shutout k → d.Ahead .over k) ∧ (d.Stands .over t → ¬ d.Ahead .over k) := by
  have hother : ∀ {q : Option ℕ}, q = some t → q ≠ some k := by
    rintro q rfl heq
    exact hk (Option.some.inj heq).symm
  exact ⟨fun ht ha => ha.resolve_left (hother ht),fun ht ha => ha.resolve_left (hother ht),hother⟩

theorem dispatch_apart {pth : ℕ} (h : Apart T (w.view m.conn)) (hinv : ShutInv T (w.view m.conn))
    (hidle : (w.view m.conn).pooled = 0)
    (hteardown : m.id.teardown = true → (w.conns m.conn).Stands m.id m.thread ∧ ∀ k ∈ (w.view m.conn).messages,
      k.thread ≠ m.thread ∧ k.id.teardown = false ∧ (w.conns m.conn).Ahead m.id k.thread)
    (hshut : m.id.teardown = true → .shut (w.conns m.conn).born ∈ (w.conns m.conn).past)
    (hsession : m.id = .newSession →
      (w.conns m.conn).parent = none ∧ T.threadFor (w.conns m.conn).fd = some pth) :
    Apart T ((dispatch T w pth m).view m.conn) := by
  unfold dispatch
  split
  · rename_i hid
    obtain ⟨hparent,hpth⟩ := hsession hid
    exact procthreadAddConnection_apart h hinv hparent fun _ => hpth
  · rename_i hid
    obtain ⟨hstands,hmessages⟩ := hteardown (by rw [hid]; rfl)
    rw [hid] at hstands hmessages
    refine connShutHandler_apart h hidle fun k hk => ?_
    obtain ⟨hthread,hplain,hahead⟩ := hmessages k hk
    exact ⟨hplain,(ahead_next hthread).1 hstands hahead⟩
  · rename_i hid
    obtain ⟨hstands,hmessages⟩ := hteardown (by rw [hid]; rfl)
    rw [hid] at hstands hmessages
    refine connShutoutHandler_apart h hidle fun k hk => ?_
    obtain ⟨hthread,hplain,hahead⟩ := hmessages k hk
    exact ⟨hplain,(ahead_next hthread).2.1 hstands hahead⟩
  · rename_i hid
    obtain ⟨hstands,hmessages⟩ := hteardown (by rw [hid]; rfl)
    rw [hid] at hstands hmessages
    refine procthreadOverConnection_apart h hidle (List.eq_nil_iff_forall_not_mem.mpr fun k hk => ?_)
    obtain ⟨hthread,-,hahead⟩ := hmessages k hk
    exact (ahead_next hthread).2.2 hstands hahead
  · rename_i hid
    obtain ⟨-,hmessages⟩ := hteardown (by rw [hid]; rfl)
    rw [hid] at hmessages
    refine procthreadTerminateConnection_apart h (List.eq_nil_iff_forall_not_mem.mpr fun k hk => ?_)
      (hshut (by rw [hid]; rfl))
    exact (hmessages k hk).2.2
  · exact h

end ShutWorld

/-! ### The invariant of the threads -/

/-- The messages of every connection are of its incarnation. -/
structure ApartKept (T : ServiceThreads) (w : ShutWorld) : Prop where
  kept : ShutKept T w
  conns : ∀ c, Apart T (w.view c)

namespace ApartKept

/-- Only one connection has changed. -/
theorem others (h : ApartKept T w) (hothers : ∀ k, k ≠ c → w'.view k = w.view k) (hview : Apart T (w'.view c))
    (k : ℕ) : Apart T (w'.view k) := by
  by_cases hk : k = c
  · rw [hk]
    exact hview
  · rw [hothers k hk]
    exact h.conns k

theorem step (h : ApartKept T w) (hc : c < w.nconns) (hsteps : Steps T w w' c) (hview : Apart T (w'.view c)) :
    ApartKept T w' :=
  ⟨h.kept.step hc hsteps,h.others hsteps.only.others hview⟩

theorem handle (h : ApartKept T w) (t : ℕ) : ApartKept T (w.qmessageHandler T t) := by
  cases hm : w.messages.find? (·.thread = t) with
  | none =>
    rw [ShutWorld.qmessageHandler,hm]
    exact h
  | some m =>
    obtain ⟨hc,hsteps⟩ := h.kept.qmessageHandler_steps hm
    refine h.step hc hsteps ?_
    obtain ⟨pre,post,hv,hthread,hpre,hview,-⟩ := ShutWorld.view_received hm
    have hmem : m ∈ (w.view m.conn).messages := by
      rw [hv]
      exact List.mem_append_right _ List.mem_cons_self
    have hapart := h.conns m.conn
    have hinv := h.kept.conns m.conn
    have hreceived := hapart.receive hinv hv
    have hinv' := (hinv.receive hv).1
    unfold ShutWorld.qmessageHandler
    rw [hm]
    dsimp only
    generalize ({ w with messages := w.messages.eraseP (·.thread = t) } : ShutWorld) = w₁ at hview ⊢
    rw [← hview] at hreceived hinv'
    cases hparent : m.parent with
    | none => exact hreceived
    | some pth =>
      dsimp only
      split_ifs
      · have hnoted : (w₁.note m.conn (.dispatched m)).view m.conn = (w₁.view m.conn).note (.dispatched m) :=
          ShutWorld.view_note ..
        have hconn : (w₁.note m.conn (.dispatched m)).conns m.conn = { w.conns m.conn with
            past := .dispatched m (w.conns m.conn).born::(w.conns m.conn).past } := by
          have hconns := congrArg ConnView.conn hnoted
          rw [hview] at hconns
          exact hconns
        have hborn : m.born = (w₁.view m.conn).conn.born := by
          rw [hview]
          exact hapart.born m hmem
        refine ShutWorld.dispatch_apart ?_ ?_ ?_ (fun hid => ?_) (fun hid => ?_) fun hid => ?_
        · rw [hnoted]
          refine hreceived.note fun k n heq => ?_
          cases heq
          exact hborn
        · rw [hnoted]
          exact hinv'.note fun _ => rfl
        · rw [hnoted,hview]
          by_contra hp
          have hnil := (hapart.waiting (Nat.pos_of_ne_zero hp)).1
          rw [hnil] at hmem
          cases hmem
        · obtain ⟨rfl,hstands,hahead⟩ := hapart.last hv hid
          rw [hconn]
          refine ⟨hstands,fun k hk => ?_⟩
          rw [hnoted,hview] at hk
          have hk' : k ∈ pre := by simpa [ConnView.note,ConnView.modify] using hk
          exact ⟨hthread ▸ hpre k hk',hahead k hk'⟩
        · rw [hconn]
          exact List.mem_cons_of_mem _ (hinv.begun m hmem hid).shut
        · rw [hconn]
          exact ⟨(hinv.unused hmem hid).1,hapart.session m hmem hid pth hparent⟩
      · exact hreceived

theorem taken (h : ApartKept T w) (fresh : Bool) (hc : (w.servicePopfromq fresh).2 = some c) :
    ApartKept T (w.servicePopfromq fresh).1 ∧ ((w.servicePopfromq fresh).1.view c).messages = [] := by
  obtain ⟨hkept,-⟩ := h.kept.taken fresh hc
  obtain ⟨hothers,hcases⟩ := ShutKept.view_taken w fresh hc
  generalize (w.servicePopfromq fresh).1 = w₁ at hkept hothers hcases ⊢
  have hview : Apart T (w₁.view c) ∧ (w₁.view c).messages = [] := by
    rcases hcases with ⟨-,hpooled,hview⟩ | ⟨rfl,-,hview⟩
    · have hapart := h.conns c
      have hnil := (hapart.waiting hpooled).1
      rw [hview]
      dsimp only
      rw [hnil]
      refine ⟨.ofNil hapart.dispatched (fun _ => (hapart.waiting hpooled).2) hapart.thread hapart.daemons
        fun j => (hapart.pending j).keep le_rfl fun _ hopen => ⟨hopen,fun hp => ?_,fun _ => id⟩,rfl⟩
      exact absurd hp (Nat.pos_iff_ne_zero.mp hpooled)
    · obtain ⟨hmessages,hidle,hpushers⟩ := h.kept.fresh w.nconns le_rfl
      rw [hview]
      dsimp only
      rw [hmessages,hidle,hpushers]
      exact ⟨.new,rfl⟩
  exact ⟨⟨hkept,h.others hothers hview.1⟩,hview.2⟩

theorem addconn (h : ApartKept T w) (fd : ℤ) (status : ℕ) (fresh : Bool) :
    ApartKept T (w.serviceAddconn T fd status fresh) := by
  unfold ShutWorld.serviceAddconn
  split_ifs
  · cases hpop : w.servicePopfromq fresh with
    | mk w₁ taken =>
      cases taken with
      | none =>
        have hsame := ShutKept.none_taken w fresh (by rw [hpop])
        rw [hpop] at hsame
        dsimp only at hsame ⊢
        rw [hsame]
        exact h
      | some c =>
        obtain ⟨-,hlt,hidle,hparent,hnew⟩ := h.kept.taken fresh (by rw [hpop])
        obtain ⟨hapart,hnil⟩ := h.taken fresh (by rw [hpop])
        rw [hpop] at hlt hidle hparent hnew hapart hnil
        dsimp only at hlt hidle hparent hnew hapart hnil ⊢
        obtain ⟨htake,hroute⟩ := hapart.kept.route_steps fd status hidle hparent hnew
        have hview := ShutWorld.view_modify w₁ c fun d => { d with fd := fd, born := d.born + 1 }
        have hconn : (w₁.modify c fun d => { d with fd := fd, born := d.born + 1 }).conns c =
            { w₁.conns c with fd := fd, born := (w₁.conns c).born + 1 } := congrArg ConnView.conn hview
        refine hapart.step hlt hroute ?_
        generalize (w₁.modify c fun d => { d with fd := fd, born := d.born + 1 }) = w₂ at htake hview hconn ⊢
        have hfd : fd = (w₂.conns c).fd := by rw [hconn]
        have hbefore : ∀ j, ((w₁.view c).pushers j).Before ((w₁.conns c).born + 1) := fun j =>
          ((hapart.conns c).pending j).before
        have hview' : w₂.view c = ⟨{ w₁.conns c with fd := fd, born := (w₁.conns c).born + 1 },0,[],
            (w₁.view c).pushers⟩ := by
          rw [hview,← hnil,← hidle]
          rfl
        rw [hfd]
        refine ShutWorld.route_apart ?_ htake.inv ?_ ?_ ?_ ?_
        · rw [hview']
          refine .ofNil (hapart.conns c).dispatched (fun hp => ?_) (fun t ht => ?_) (hapart.conns c).daemons
            fun j => (hbefore j).expects
          · cases hp
          · change (w₁.conns c).parent = some t at ht
            rw [hparent] at ht
            cases ht
        · rw [hconn]
          exact hparent
        · rw [hview']
        · rw [hview']
        · rw [hview',hconn]
          exact hbefore
  · exact h

theorem op (h : ApartKept T w) (op : ShutOp) (htimely : Timely w op) : ApartKept T (op.step T w) := by
  cases op with
  | addconn fd status fresh => exact h.addconn fd status fresh
  | close c =>
    simp only [ShutOp.step]
    split_ifs with hc
    · exact h.step hc (ShutWorld.connShut_steps (h.kept.conns c) rfl)
        (ShutWorld.connShut_apart (h.conns c) (h.kept.conns c) rfl)
    · exact h
  | fail c =>
    simp only [ShutOp.step]
    split_ifs with hc
    · exact h.step hc (ShutWorld.connShut_steps (h.kept.conns c) rfl)
        (ShutWorld.connShut_apart (h.conns c) (h.kept.conns c) rfl)
    · exact h
  | destroy side c =>
    simp only [ShutOp.step]
    split_ifs with hc
    · refine h.step hc (ShutWorld.note_steps (h.kept.conns c) fun _ => rfl) ?_
      rw [ShutWorld.eventDestroy,ShutWorld.view_note]
      exact (h.conns c).note fun m n heq => by cases heq
    · exact h
  | look j c p =>
    cases hidle : w.pushers j with
    | idle =>
      simp only [ShutOp.step,ShutWorld.look,hidle]
      split_ifs with hlook
      · have hsteps : Steps T w (w.setPusher j (.looked c (w.conns c).born p)) c := by
          refine ShutWorld.setPusher_steps (h.kept.conns c) (.inr ?_) (.inl rfl) fun m hm => by cases hm
          rw [hidle]
          rfl
        refine h.step hlook.1 hsteps (ShutWorld.setPusher_apart (h.conns c) ?_)
        rw [PushState.of_eq rfl]
        exact le_rfl
      · exact h
    | looked => simpa only [ShutOp.step,ShutWorld.look,hidle] using h
    | ready => simpa only [ShutOp.step,ShutWorld.look,hidle] using h
  | readArgs j =>
    cases hlooked : w.pushers j with
    | looked c n p =>
      exact h.step (h.kept.known (by rw [hlooked]; rfl)) (ShutWorld.readArgs_steps (h.kept.conns c) hlooked)
        (ShutWorld.readArgs_apart (h.conns c) (h.kept.conns c) hlooked)
    | idle => simpa only [ShutOp.step,ShutWorld.readArgs,hlooked] using h
    | ready => simpa only [ShutOp.step,ShutWorld.readArgs,hlooked] using h
  | push j =>
    cases hready : w.pushers j with
    | ready m =>
      obtain ⟨hborn,hopen⟩ := htimely m hready
      exact h.step (h.kept.known (by rw [hready]; rfl)) (ShutWorld.push_steps (h.kept.conns m.conn) hready)
        (ShutWorld.push_apart (h.conns m.conn) (h.kept.conns m.conn) hready hborn hopen)
    | idle => simpa only [ShutOp.step,ShutWorld.push,hready] using h
    | looked => simpa only [ShutOp.step,ShutWorld.push,hready] using h
  | handle t => exact h.handle t
  | stopThread t => exact ⟨⟨h.kept.conns,h.kept.fresh⟩,h.conns⟩
  | stopService => exact ⟨⟨h.kept.conns,h.kept.fresh⟩,h.conns⟩

theorem init (limit : ℕ) : ApartKept T (.init limit) :=
  ⟨.init limit,fun _ => .new⟩

end ApartKept

/-- In every run in which no push ends once the connection for which it was begun has begun to be shut down, a
message is dispatched only to the incarnation for which its push was begun. -/
theorem incarnations_apart {limit : ℕ} {ops : List ShutOp}
    (h : Run (Guarded Timely (ofFun (ShutOp.step T))) (.init limit) ops w) :
    ∀ c m n, .dispatched m n ∈ (w.conns c).past → m.born = n := by
  have hkept : ApartKept T w := by
    apply h.invariant (ApartKept T) (.init limit)
    rintro a op b ha ⟨hop,rfl⟩
    exact ha.op op hop
  exact fun c m n hm => (hkept.conns c).dispatched m n hm

/-- A connection is used twice, with a transaction each time. -/
def usedTwice : List ShutOp :=
  [.addconn 5 CONN_STATUS_FREE true,.look 0 0 .transaction,.readArgs 0,.push 0,.close 0,.handle 1,.handle 1,.handle 2,
    .handle 0,.addconn 5 CONN_STATUS_FREE true,.look 0 0 .transaction,.readArgs 0,.push 0,.handle 1]

theorem usedTwice_allowed : Allowed Timely (ShutOp.step inputOnly) (.init 10) usedTwice := by
  refine ⟨trivial,trivial,trivial,fun m hm => ?_,trivial,trivial,trivial,trivial,trivial,trivial,trivial,trivial,
    fun m hm => ?_,trivial,trivial⟩
  · obtain rfl : m = ⟨1,.transaction,-1,5,some 1,0,1⟩ := PushState.ready.inj (hm.symm.trans (by decide))
    exact ⟨by decide,by decide,by decide⟩
  · obtain rfl : m = ⟨1,.transaction,-1,5,some 1,0,2⟩ := PushState.ready.inj (hm.symm.trans (by decide))
    exact ⟨by decide,by decide,by decide⟩

theorem incarnations_apart_twice :
    let past := ((usedTwice.foldl (ShutOp.step inputOnly) (.init 10)).conns 0).past
    (∃ m, .dispatched m 1 ∈ past ∧ m.id = .transaction ∧ m.born = 1) ∧
      ∃ m, .dispatched m 2 ∈ past ∧ m.id = .transaction ∧ m.born = 2 := by
  intro past
  have hfirst : .dispatched ⟨1,.transaction,-1,5,some 1,0,1⟩ 1 ∈ past := by decide
  have hsecond : .dispatched ⟨1,.transaction,-1,5,some 1,0,2⟩ 2 ∈ past := by decide
  have hapart := incarnations_apart usedTwice_allowed.run 0
  exact ⟨⟨_,hfirst,rfl,hapart _ _ hfirst⟩,_,hsecond,rfl,hapart _ _ hsecond⟩

/-- A push that has looked at `d_state` gets the lock of the queue when the connection has been shut down, and its
message waits until the connection and its descriptor are in use again. -/
def pushedLate : List ShutOp :=
  [.addconn 5 CONN_STATUS_FREE true,.look 0 0 (.posted .packet),.readArgs 0,.close 0,.handle 1,.handle 2,.handle 0,
    .push 0,.addconn 5 CONN_STATUS_FREE true,.handle 1]

theorem pushedLate_crosses : ¬ ∀ (ops : List ShutOp) (w : ShutWorld),
    Run (ofFun (ShutOp.step inputOnly)) (.init 10) ops w →
      ∀ c m n, .dispatched m n ∈ (w.conns c).past → m.born = n := by
  intro hall
  have hcross := hall pushedLate _ (run_ofFun_iff.mpr rfl) 0 ⟨1,.packet,1,5,some 1,0,1⟩ 2 (by decide)
  cases hcross

end Sbase
