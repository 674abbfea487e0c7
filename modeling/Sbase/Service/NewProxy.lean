import Sbase.Service.State

/-! `service_newproxy`: what it writes to the sessions of its service and of the parent, and who sees it.

Sessions are named by where they are, so that the session that is given may be the one of the service or
of a connection. What the system calls and `service_addconn` return is given with the call. -/
namespace Sbase

def SB_USE_SSL : ℕ := 0x01
def SB_PROXY_TIMEOUT : ℤ := 20000000

/-- Where a `SESSION` is: in the service, in a connection, or with the caller. -/
inductive SessionAt
  | service
  | conn (c : ℕ)
  | caller (u : ℕ)
  deriving DecidableEq

/-- The fields of a `SESSION` that `service_newproxy` uses. -/
structure ProxySession where
  flags : ℕ
  timeout : ℤ
  packetType : ℕ
  parent : Option ℕ
  parentid : ℤ
  child : Option ℕ
  childid : ℤ
  deriving DecidableEq

/-- A service with its sessions, the indexes of its connections, the connections that have been told to
end, and the descriptors that have been closed. -/
structure SessionWorld where
  lock : ℤ
  cCtx : Bool
  sessions : SessionAt → ProxySession
  index : ℕ → ℤ
  ended : List ℕ
  closed : List ℤ

/-- What `service_addconn` returns: no connection, or one that may have been bound to its parent with an
index of the table. -/
inductive AddResult
  | fails
  | adds (c : ℕ) (bound : Option ℤ)

/-- What the calls within `service_newproxy` return. -/
structure ProxyCalls where
  socket : ℤ
  connect : Bool
  stream : Bool
  handshake : Bool
  addconn : AddResult

namespace SessionWorld

/-- An assignment to the fields of a session. -/
def write (w : SessionWorld) (l : SessionAt) (f : ProxySession → ProxySession) : SessionWorld :=
  { w with sessions := Function.update w.sessions l (f (w.sessions l)) }

/-- `conn_set_session` on a new connection, a copy of the session. -/
def connSetSession (w : SessionWorld) (c : ℕ) (l : SessionAt) : SessionWorld :=
  w.write (.conn c) fun _ => w.sessions l

/-- `conn_bind_proxy` on the parent, its message apart. -/
def connBindProxy (w : SessionWorld) (parent c : ℕ) (index : ℤ) : SessionWorld :=
  w.write (.conn parent) fun x =>
    { x with packetType := x.packetType ||| PACKET_PROXY, childid := index, child := some c }

/-- The assignment to the session of a child that is told to end. -/
def dropParent (x : ProxySession) : ProxySession := { x with parent := none }

/-- What `service_addconn` does to the sessions. -/
def serviceAddconn (w : SessionWorld) (parent : ℕ) (l : SessionAt) : AddResult → SessionWorld × Option ℕ
  | .fails => (w,none)
  | .adds c bound =>
    let w := w.connSetSession c l
    (bound.elim w fun index => w.connBindProxy parent c index, some c)

/-- The end of the connection that the parent had a proxy with. -/
def overChild (w : SessionWorld) (parent : ℕ) : SessionWorld :=
  (w.sessions (.conn parent)).child.elim w fun c =>
    { w.write (.conn c) dropParent with ended := w.ended ++ [c] }

/-- The assignments to the session of the parent. -/
def writeParent (x : ProxySession) : ProxySession :=
  { x with timeout := if x.timeout = 0 then SB_PROXY_TIMEOUT else x.timeout,
           packetType := x.packetType ||| PACKET_PROXY }

/-- The assignments to the session of the new connection. -/
def writeProxy (parent : ℕ) (index : ℤ) (x : ProxySession) : ProxySession :=
  { x with packetType := x.packetType ||| PACKET_PROXY, parent := some parent, parentid := index,
           timeout := SB_PROXY_TIMEOUT }

/-- The test by which a proxy connects with SSL. -/
def useSSL (w : SessionWorld) (l : SessionAt) (o : ProxyCalls) : Prop :=
  (w.sessions l).flags &&& SB_USE_SSL ≠ 0 ∧ o.stream = true ∧ w.cCtx = true

instance (w : SessionWorld) (l : SessionAt) (o : ProxyCalls) : Decidable (w.useSSL l o) :=
  inferInstanceAs (Decidable (_ ∧ _ ∧ _))

/-- `service_newproxy`, with the session that is given, if any. -/
def serviceNewproxy (w : SessionWorld) (parent : ℕ) (session : Option SessionAt) (o : ProxyCalls) :
    SessionWorld × Option ℕ :=
  if w.lock = 0 then
    let w := w.overChild parent
    let l := session.getD .service
    if 0 < o.socket ∧ o.connect = true then
      if w.useSSL l o ∧ o.handshake = false then ({ w with closed := w.closed ++ [o.socket] }, none)
      else
        let w := (w.write (.conn parent) writeParent).write l (writeProxy parent (w.index parent))
        match w.serviceAddconn parent l o.addconn with
        | (w,some c) => (w,some c)
        | (w,none) => ({ w with closed := w.closed ++ [o.socket] }, none)
    else (w,none)
  else (w,none)

/-- `procthread_newconn`: a connection that is accepted gets the session of the service. -/
def procthreadNewconn (w : SessionWorld) (c : ℕ) : SessionWorld := w.connSetSession c .service

/-- Two sessions are bound to their clients alike. -/
structure SameBinding (x y : ProxySession) : Prop where
  packetType : y.packetType = x.packetType
  timeout : y.timeout = x.timeout
  child : y.child = x.child
  childid : y.childid = x.childid

/-- A call leaves the session of the service alone, so that connections accepted later get the same, and
when it fails that of the parent. -/
structure Undisturbing (w : SessionWorld) (parent : ℕ) (r : SessionWorld × Option ℕ) : Prop where
  service : r.1.sessions .service = w.sessions .service
  accepted : ∀ c, (r.1.procthreadNewconn c).sessions (.conn c) =
    (w.procthreadNewconn c).sessions (.conn c)
  parent : r.2 = none → SameBinding (w.sessions (.conn parent)) (r.1.sessions (.conn parent))

/-- The call comes as far as a connected socket. -/
def Connects (w : SessionWorld) (l : SessionAt) (o : ProxyCalls) : Prop :=
  w.lock = 0 ∧ 0 < o.socket ∧ o.connect = true ∧ (w.useSSL l o → o.handshake = true)

/-- What the parent's session already has, where the new connection fails after the assignments: the bit
of proxies, and a timeout that they keep. -/
def Prepared (x : ProxySession) (own : Prop) : Prop :=
  x.packetType ||| PACKET_PROXY = x.packetType ∧ x.timeout ≠ 0 ∧ (own → x.timeout = SB_PROXY_TIMEOUT)

/-- The condition: where the call comes as far as a connected socket, the session that is written is not
that of the service, unless the assignments change nothing in it, and the new connection is added, unless
those to the parent change nothing. -/
def Spares (w : SessionWorld) (parent : ℕ) (session : Option SessionAt) (o : ProxyCalls) : Prop :=
  w.Connects (session.getD .service) o →
    (session.getD .service = .service →
      writeProxy parent (w.index parent) (w.sessions .service) = w.sessions .service) ∧
    (o.addconn = .fails →
      Prepared (w.sessions (.conn parent)) (session.getD .service = .conn parent))

section
variable {w : SessionWorld} {parent : ℕ} {l : SessionAt} {o : ProxyCalls}

theorem SameBinding.rfl' (x : ProxySession) : SameBinding x x := ⟨rfl,rfl,rfl,rfl⟩

theorem write_other {m : SessionAt} (h : m ≠ l) (f : ProxySession → ProxySession) :
    (w.write l f).sessions m = w.sessions m := Function.update_of_ne h ..

theorem write_self (f : ProxySession → ProxySession) :
    (w.write l f).sessions l = f (w.sessions l) := Function.update_self ..

/-- The child that is told to end loses its parent, and nothing else changes in any session. -/
theorem overChild_sessions (w : SessionWorld) (parent : ℕ) (m : SessionAt) :
    SameBinding (w.sessions m) ((w.overChild parent).sessions m) ∧
      ((w.overChild parent).sessions m).flags = (w.sessions m).flags := by
  unfold overChild
  cases (w.sessions (.conn parent)).child with
  | none => exact ⟨.rfl' _,rfl⟩
  | some c =>
    change SameBinding _ ((w.write (.conn c) dropParent).sessions m) ∧
      ((w.write (.conn c) dropParent).sessions m).flags = _
    by_cases hm : m = .conn c
    · rw [hm,write_self]
      exact ⟨⟨rfl,rfl,rfl,rfl⟩,rfl⟩
    · rw [write_other hm]
      exact ⟨.rfl' _,rfl⟩

theorem overChild_service (w : SessionWorld) (parent : ℕ) :
    (w.overChild parent).sessions .service = w.sessions .service := by
  unfold overChild
  cases (w.sessions (.conn parent)).child with
  | none => rfl
  | some c => exact write_other (l := .conn c) (m := .service) nofun dropParent

theorem overChild_steady (w : SessionWorld) (parent : ℕ) :
    (w.overChild parent).index = w.index ∧ (w.overChild parent).cCtx = w.cCtx := by
  unfold overChild
  cases (w.sessions (.conn parent)).child with
  | none => exact ⟨rfl,rfl⟩
  | some c => exact ⟨rfl,rfl⟩

theorem overChild_useSSL : (w.overChild parent).useSSL l o ↔ w.useSSL l o := by
  unfold useSSL
  rw [(overChild_sessions w parent l).2,(overChild_steady w parent).2]

/-- The sessions after the assignments. -/
def prepare (w : SessionWorld) (parent : ℕ) (l : SessionAt) : SessionWorld :=
  ((w.overChild parent).write (.conn parent) writeParent).write l (writeProxy parent (w.index parent))

/-- A call that does not come as far as a connected socket ends the old child at most. -/
theorem serviceNewproxy_early (parent : ℕ) {session : Option SessionAt} (h : ¬ w.Connects (session.getD .service) o) :
    (w.serviceNewproxy parent session o).2 = none ∧
      ((w.serviceNewproxy parent session o).1.sessions = w.sessions ∨
        (w.serviceNewproxy parent session o).1.sessions = (w.overChild parent).sessions) := by
  unfold serviceNewproxy
  by_cases hlock : w.lock = 0
  · rw [if_pos hlock]
    dsimp only
    by_cases hsocket : 0 < o.socket ∧ o.connect = true
    · rw [if_pos hsocket]
      by_cases hssl : (w.overChild parent).useSSL (session.getD .service) o ∧ o.handshake = false
      · rw [if_pos hssl]
        exact ⟨rfl,Or.inr rfl⟩
      · refine absurd ⟨hlock,hsocket.1,hsocket.2,fun huse => ?_⟩ h
        rw [← Bool.not_eq_false]
        exact fun hno => hssl ⟨overChild_useSSL.mpr huse,hno⟩
    · rw [if_neg hsocket]
      exact ⟨rfl,Or.inr rfl⟩
  · rw [if_neg hlock]
    exact ⟨rfl,Or.inl rfl⟩

/-- A call with a connected socket. -/
theorem serviceNewproxy_connected (parent : ℕ) {session : Option SessionAt} (h : w.Connects (session.getD .service) o) :
    w.serviceNewproxy parent session o =
      match (w.prepare parent (session.getD .service)).serviceAddconn parent (session.getD .service)
          o.addconn with
      | (w,some c) => (w,some c)
      | (w,none) => ({ w with closed := w.closed ++ [o.socket] }, none) := by
  obtain ⟨hlock,hsocket,hconnect,hssl⟩ := h
  have hagree : ¬ ((w.overChild parent).useSSL (session.getD .service) o ∧ o.handshake = false) :=
    fun hc => absurd ((hssl (overChild_useSSL.mp hc.1)).symm.trans hc.2) (by decide)
  unfold serviceNewproxy prepare
  rw [if_pos hlock]
  dsimp only
  rw [if_pos ⟨hsocket,hconnect⟩,if_neg hagree,(overChild_steady w parent).1]

/-- The session of the service after the assignments. -/
theorem prepare_service (w : SessionWorld) (parent : ℕ) (l : SessionAt) :
    (w.prepare parent l).sessions .service =
      if l = .service then writeProxy parent (w.index parent) (w.sessions .service)
      else w.sessions .service := by
  have hparent : ((w.overChild parent).write (.conn parent) writeParent).sessions .service =
      w.sessions .service := by
    rw [write_other (by nofun),overChild_service]
  unfold prepare
  by_cases hl : l = .service
  · rw [if_pos hl,hl,write_self,hparent]
  · rw [if_neg hl,write_other (Ne.symm hl),hparent]

theorem timeout_kept (t : ℤ) : (if t = 0 then SB_PROXY_TIMEOUT else t) = t ↔ t ≠ 0 := by
  by_cases ht : t = 0
  · rw [if_pos ht,ht]
    decide
  · rw [if_neg ht]
    exact iff_of_true rfl ht

/-- The session of the parent is the same after the assignments exactly where it was prepared. -/
theorem prepare_parent (w : SessionWorld) (parent : ℕ) (l : SessionAt) :
    SameBinding (w.sessions (.conn parent)) ((w.prepare parent l).sessions (.conn parent)) ↔
      Prepared (w.sessions (.conn parent)) (l = .conn parent) := by
  obtain ⟨hpacket,htimeout,hchild,hchildid⟩ := (overChild_sessions w parent (.conn parent)).1
  unfold prepare Prepared
  by_cases hl : l = .conn parent
  · rw [hl,write_self,write_self]
    constructor
    · intro h
      have htype := h.packetType
      have htime := h.timeout
      change (_ ||| PACKET_PROXY) ||| PACKET_PROXY = _ at htype
      change SB_PROXY_TIMEOUT = _ at htime
      rw [hpacket,Nat.or_assoc,Nat.or_self] at htype
      refine ⟨htype,?_,fun _ => htime.symm⟩
      rw [← htime]
      decide
    · intro h
      refine ⟨?_,(h.2.2 rfl).symm,hchild,hchildid⟩
      change (_ ||| PACKET_PROXY) ||| PACKET_PROXY = _
      rw [hpacket,Nat.or_assoc,Nat.or_self]
      exact h.1
  · rw [write_other (Ne.symm hl),write_self]
    constructor
    · intro h
      have htype := h.packetType
      have htime := h.timeout
      change _ ||| PACKET_PROXY = _ at htype
      change (if _ = 0 then _ else _) = _ at htime
      rw [hpacket] at htype
      rw [htimeout] at htime
      exact ⟨htype,(timeout_kept _).mp htime,fun hc => absurd hc hl⟩
    · intro h
      refine ⟨?_,?_,hchild,hchildid⟩
      · change _ ||| PACKET_PROXY = _
        rw [hpacket]
        exact h.1
      · change (if _ = 0 then _ else _) = _
        rw [htimeout]
        exact (timeout_kept _).mpr h.2.1

/-- `service_addconn` writes to the sessions of connections only. -/
theorem serviceAddconn_service (w : SessionWorld) (parent : ℕ) (l : SessionAt) (r : AddResult) :
    (w.serviceAddconn parent l r).1.sessions .service = w.sessions .service := by
  cases r with
  | fails => rfl
  | adds c bound =>
    cases bound with
    | none => exact write_other (l := .conn c) (m := .service) nofun fun _ => w.sessions l
    | some index =>
      change (((w.connSetSession c l).connBindProxy parent c index).sessions .service) = _
      unfold connBindProxy connSetSession
      rw [write_other (by nofun),write_other (by nofun)]

theorem Undisturbing.of_service {r : SessionWorld × Option ℕ}
    (hservice : r.1.sessions .service = w.sessions .service)
    (hparent : r.2 = none → SameBinding (w.sessions (.conn parent)) (r.1.sessions (.conn parent))) :
    Undisturbing w parent r := by
  refine ⟨hservice,fun c => ?_,hparent⟩
  unfold procthreadNewconn connSetSession
  rw [write_self,write_self]
  exact hservice

/-- For every parent, every session that is given and whatever the calls within return, creating a proxy
disturbs neither later connections nor, when it fails, the parent, under just that condition. -/
theorem newproxy_undisturbing_iff (w : SessionWorld) (parent : ℕ) (session : Option SessionAt)
    (o : ProxyCalls) :
    Undisturbing w parent (w.serviceNewproxy parent session o) ↔ Spares w parent session o := by
  by_cases hconnects : w.Connects (session.getD .service) o
  · have hcall := serviceNewproxy_connected parent hconnects
    unfold Spares
    rw [hcall]
    generalize session.getD .service = l at hconnects ⊢
    have hservice : (w.prepare parent l).sessions .service = w.sessions .service ↔
        (l = .service → writeProxy parent (w.index parent) (w.sessions .service) =
          w.sessions .service) := by
      rw [prepare_service]
      by_cases hl : l = .service
      · rw [if_pos hl]
        exact ⟨fun h _ => h,fun h => h hl⟩
      · rw [if_neg hl]
        exact iff_of_true rfl fun hc => absurd hc hl
    cases hresult : o.addconn with
    | fails =>
      change Undisturbing w parent ({ w.prepare parent l with closed := _ }, none) ↔ _
      constructor
      · intro h _
        exact ⟨hservice.mp h.service,fun _ => (prepare_parent w parent l).mp (h.parent rfl)⟩
      · intro h
        obtain ⟨hwritten,hprepared⟩ := h hconnects
        exact .of_service (hservice.mpr hwritten)
          fun _ => (prepare_parent w parent l).mpr (hprepared rfl)
    | adds c bound =>
      have hadded := serviceAddconn_service (w.prepare parent l) parent l (.adds c bound)
      change Undisturbing w parent (((w.prepare parent l).serviceAddconn parent l (.adds c bound)).1,
        some c) ↔ _
      constructor
      · intro h _
        exact ⟨hservice.mp (hadded.symm.trans h.service),nofun⟩
      · intro h
        exact .of_service (hadded.trans (hservice.mpr (h hconnects).1)) nofun
  · refine iff_of_true ?_ fun hc => absurd hc hconnects
    obtain ⟨hnone,hsessions⟩ := serviceNewproxy_early parent hconnects
    obtain hsame | hover := hsessions
    · exact .of_service (by rw [hsame]) fun _ => by rw [hsame]; exact .rfl' _
    · refine .of_service (by rw [hover,overChild_service]) fun _ => ?_
      rw [hover]
      exact (overChild_sessions w parent (.conn parent)).1

end

/-- A service whose packets have a certain length, with one connection. -/
def certain : SessionWorld where
  lock := 0
  cCtx := false
  sessions _ := ⟨0,0,PACKET_CERTAIN_LENGTH,none,0,none,0⟩
  index _ := 1
  ended := []
  closed := []

/-- A proxy is created with the session of the service: from then on each connection that is accepted is
a proxy of that parent. -/
theorem newproxy_default_session :
    ¬ ∀ w parent session o, Undisturbing w parent (serviceNewproxy w parent session o) := by
  intro h
  have hsession := (h certain 1 none ⟨7,true,true,true,.adds 2 (some 2)⟩).service
  exact absurd (congrArg ProxySession.packetType hsession) (by decide)

end SessionWorld

end Sbase
