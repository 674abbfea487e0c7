import Sbase.Service.Pool

/-! The pool of connections that a client service keeps up: `service_state` opens connections until
its counter `nconnections` reaches `conns_limit`, and `service_popconn` counts down the connections
that it finds on the free list.

A connection that a caller has checked out is on no free list, and is not counted down. -/
namespace Sbase
open Slots Runs

namespace Service

/-- The test by which `service_popconn` counts down `nconnections`. -/
def countsDown (s : Service) (c : ℕ) : Prop :=
  (s.conns c).grouped = false ∧ s.pooling = true ∧ 0 ≤ (s.conns c).xindex ∧
    (s.conns c).xindex < s.connsLimit ∧ 0 < s.connsFree (s.conns c).xindex.toNat ∧
    (s.connsFree (s.conns c).xindex.toNat : ℤ) = (s.conns c).index

instance (s : Service) (c : ℕ) : Decidable (s.countsDown c) :=
  inferInstanceAs (Decidable (_ ∧ _ ∧ _ ∧ _ ∧ _ ∧ _))

end Service

/-- The operations on the connections of a service and the steps of `service_state`: its test, the
result of a call of `service_newconn`, which is a `CONN` and what it holds, and the increment of
`nconnections` behind it. -/
inductive RefillOp
  | service (op : ServiceOp)
  | state
  | newconn (result : Option (ℕ × ServiceConn))
  | count

/-- A service with what is left to `service_state`: `n`, and whether a connection that it has opened
is still to be counted. `alive` are the connections that it has opened and that have not been popped
since. -/
structure RefillWorld extends ServiceWorld where
  n : ℤ
  adding : Bool
  alive : Finset ℕ

namespace RefillWorld

/-- An operation on the connections; what `service_popconn` takes out of the table is not alive. -/
def service' (w : RefillWorld) (op : ServiceOp) : RefillWorld :=
  { w with toServiceWorld := op.apply w.toServiceWorld,
           alive := match op with
             | .popconn c => if (w.service.servicePopconn c).2 = 0 then w.alive.erase c else w.alive
             | _ => w.alive }

/-- `service_state` up to its loop. -/
def state (w : RefillWorld) : RefillWorld :=
  if w.n ≤ 0 ∧ w.adding = false then
    if w.service.pooling ∧ w.service.nconnections < w.service.connsLimit then
      { w with n := w.service.connsLimit - w.service.nconnections }
    else w
  else w

/-- The call of `service_newconn` in the loop. -/
def newconn (w : RefillWorld) (result : Option (ℕ × ServiceConn)) : RefillWorld :=
  if 0 < w.n ∧ w.adding = false then
    match result with
    | none => { w with n := 0 }
    | some (c,d) =>
      { w with service := w.service.modify c fun _ => d, adding := true, alive := insert c w.alive }
  else w

/-- The rest of the body of the loop. -/
def count (w : RefillWorld) : RefillWorld :=
  if w.adding then
    { w with service := { w.service with nconnections := w.service.nconnections + 1 },
             n := w.n - 1, adding := false }
  else w

def apply (w : RefillWorld) : RefillOp → RefillWorld
  | .service op => w.service' op
  | .state => w.state
  | .newconn result => w.newconn result
  | .count => w.count

/-- The counter is the number of the connections that are alive, one that is still to be counted
apart. -/
def Balanced (w : RefillWorld) : Prop :=
  w.service.nconnections + (if w.adding then 1 else 0) = w.alive.card

/-- The condition on a step: a connection that is popped is on the free list exactly when it is one
of the pool, and `service_newconn` returns a new connection. -/
def Tracked (w : RefillWorld) : RefillOp → Prop
  | .service (.popconn c) =>
    w.service.lock = 0 ∧ w.service.listed c → (c ∈ w.alive ↔ w.service.countsDown c)
  | .newconn (some (c,_)) => 0 < w.n ∧ w.adding = false → c ∉ w.alive
  | _ => True

end RefillWorld

namespace Service

variable (s : Service)

/-! ### What counts `nconnections` -/

theorem nconnections_joinGroup (c : ℕ) : (s.joinGroup c).nconnections = s.nconnections := by
  simp only [joinGroup]
  cases s.freeGroupSlot (s.conns c).groupid with
  | none => rfl
  | some x =>
    dsimp only
    split_ifs <;> rfl

theorem nconnections_joinPool (c : ℕ) : (s.joinPool c).nconnections = s.nconnections := by
  rw [joinPool]
  cases s.freePoolSlot <;> rfl

theorem nconnections_occupy (c i : ℕ) : (s.occupy c i).nconnections = s.nconnections := by
  rw [occupy]
  dsimp only
  split_ifs
  · exact nconnections_joinGroup _ c
  · exact nconnections_joinPool _ c
  · rfl

theorem nconnections_bindParent (c : ℕ) : (s.bindParent c).nconnections = s.nconnections := by
  rw [bindParent]
  cases (s.conns c).parent with
  | none => rfl
  | some parent =>
    dsimp only
    split_ifs <;> rfl

theorem nconnections_pushconn (c : ℕ) :
    (s.servicePushconn c).1.nconnections = s.nconnections := by
  rw [servicePushconn]
  split_ifs
  · cases s.freeSlot with
    | none => exact nconnections_bindParent s c
    | some i => exact (nconnections_bindParent _ c).trans (nconnections_occupy s c i)
  · rfl

theorem nconnections_okconn (c : ℕ) : (s.serviceOkconn c).nconnections = s.nconnections := by
  rw [serviceOkconn]
  split_ifs <;> rfl

theorem nconnections_getconn (id : ℤ) :
    (s.serviceGetconn id).1.nconnections = s.nconnections := by
  rw [serviceGetconn]
  split_ifs with hlock hgroup
  · simp only [takeGroup]
    split_ifs
    · cases seek (fun x => s.ready ((s.groups id.toNat).connsFree x)) 0 SB_GROUP_CONN_MAX with
      | none => rfl
      | some x =>
        dsimp only
        cases s.connections ((s.groups id.toNat).connsFree x) <;> rfl
    · rfl
  · rw [takePool]
    split_ifs
    · cases seek (fun x => s.ready (s.connsFree x)) 0 s.connsLimit.toNat with
      | none => rfl
      | some x =>
        dsimp only
        cases s.connections (s.connsFree x) <;> rfl
    · rfl
  · rfl

theorem nconnections_freeconn (c : ℕ) :
    (s.serviceFreeconn c).nconnections = s.nconnections := by
  simp only [serviceFreeconn]
  split_ifs
  · rfl
  · cases s.freeGroupSlot (s.conns c).groupid <;> rfl
  · cases s.freePoolSlot <;> rfl
  · rfl

theorem nconnections_overSession (c : ℕ) :
    (s.connOverSession c).nconnections = s.nconnections := by
  rw [connOverSession]
  dsimp only
  split_ifs
  · rfl
  · exact nconnections_freeconn _ c
  · rfl

theorem nconnections_leaveGroup (c : ℕ) : (s.leaveGroup c).nconnections = s.nconnections := by
  rw [leaveGroup]
  split_ifs <;> rfl

/-- `service_popconn` counts down where its test holds. -/
theorem nconnections_popconn {c : ℕ} (h : s.lock = 0 ∧ s.listed c) :
    (s.servicePopconn c).2 = 0 ∧ (s.servicePopconn c).1.nconnections =
      if s.countsDown c then s.nconnections - 1 else s.nconnections := by
  rw [servicePopconn,if_pos h]
  refine ⟨rfl,?_⟩
  by_cases hgrouped : (s.conns c).grouped = true
  · have hdown : ¬ s.countsDown c := fun hdown => by
      rw [hdown.1] at hgrouped
      cases hgrouped
    rw [if_pos hgrouped,if_neg hdown]
    exact nconnections_leaveGroup s c
  · rw [if_neg hgrouped]
    by_cases hpooling : s.pooling = true
    · rw [if_pos hpooling]
      change (s.leavePool c).nconnections = _
      simp only [leavePool,countsDown,Bool.eq_false_of_not_eq_true hgrouped,hpooling,true_and]
      split_ifs <;> rfl
    · rw [if_neg hpooling,if_neg fun hdown : s.countsDown c => hpooling hdown.2.1]
      rfl

end Service

namespace RefillWorld

variable {w : RefillWorld} {op : ServiceOp} {c : ℕ}

/-- Only `service_popconn` counts `nconnections` down. -/
theorem nconnections_apply (w : ServiceWorld) (hop : ∀ c, op ≠ .popconn c) :
    (op.apply w).service.nconnections = w.service.nconnections := by
  cases op with
  | pushconn c => exact w.service.nconnections_pushconn c
  | popconn c => exact absurd rfl (hop c)
  | okconn c => exact w.service.nconnections_okconn c
  | getconn id => exact w.service.nconnections_getconn id
  | freeconn c => exact w.service.nconnections_freeconn c
  | overSession c => exact w.service.nconnections_overSession c
  | close c => rfl

theorem balanced_other (hop : ∀ c, op ≠ .popconn c) :
    Balanced (w.service' op) ↔ Balanced w := by
  have halive : (w.service' op).alive = w.alive := by
    cases op with
    | popconn c => exact absurd rfl (hop c)
    | pushconn c | okconn c | getconn id | freeconn c | overSession c | close c => rfl
  rw [Balanced,Balanced,halive]
  change (op.apply w.toServiceWorld).service.nconnections + _ = _ ↔ _
  rw [nconnections_apply w.toServiceWorld hop]
  rfl

/-- A connection that is popped keeps the balance exactly when it is tracked. -/
theorem balanced_popconn (h : Balanced w) :
    Balanced (w.service' (.popconn c)) ↔ Tracked w (.service (.popconn c)) := by
  by_cases hlisted : w.service.lock = 0 ∧ w.service.listed c
  · obtain ⟨hret,hcount⟩ := w.service.nconnections_popconn hlisted
    have halive : (w.service' (.popconn c)).alive = w.alive.erase c := if_pos hret
    rw [Balanced,halive]
    change (w.service.servicePopconn c).1.nconnections + (if w.adding then 1 else 0) = _ ↔
      (_ → _)
    rw [hcount]
    have hbalance : w.service.nconnections + (if w.adding then 1 else 0) = w.alive.card := h
    generalize (if w.adding then (1 : ℤ) else 0) = k at hbalance ⊢
    by_cases hc : c ∈ w.alive
    · have hcard := Finset.card_erase_add_one hc
      by_cases hdown : w.service.countsDown c
      · rw [if_pos hdown]
        exact ⟨fun _ _ => ⟨fun _ => hdown,fun _ => hc⟩,fun _ => by omega⟩
      · rw [if_neg hdown]
        exact ⟨fun hbad => by omega,fun htracked => absurd ((htracked hlisted).1 hc) hdown⟩
    · rw [Finset.erase_eq_of_notMem hc]
      by_cases hdown : w.service.countsDown c
      · rw [if_pos hdown]
        exact ⟨fun hbad => by omega,fun htracked => absurd ((htracked hlisted).2 hdown) hc⟩
      · rw [if_neg hdown]
        exact ⟨fun _ _ => ⟨fun hmem => absurd hmem hc,fun hcounts => absurd hcounts hdown⟩,
          fun _ => hbalance⟩
  · have hpop : w.service.servicePopconn c = (w.service,-1) := by
      rw [Service.servicePopconn,if_neg hlisted]
    have hsame : Balanced (w.service' (.popconn c)) ↔ Balanced w := by
      have halive : (w.service' (.popconn c)).alive = w.alive :=
        if_neg (by rw [hpop]; exact fun hzero : (-1 : ℤ) = 0 => absurd hzero (by decide))
      rw [Balanced,Balanced,halive]
      change (w.service.servicePopconn c).1.nconnections + _ = _ ↔ _
      rw [hpop]
      rfl
    rw [hsame]
    exact ⟨fun _ h => absurd h hlisted,fun _ => h⟩

theorem balanced_state (h : Balanced w) : Balanced w.state := by
  rw [state]
  split_ifs <;> exact h

theorem balanced_count (h : Balanced w) : Balanced w.count := by
  rw [count]
  split_ifs with hadding
  · have hbalance : w.service.nconnections + (if w.adding then 1 else 0) = w.alive.card := h
    rw [if_pos hadding] at hbalance
    change w.service.nconnections + 1 + 0 = w.alive.card
    omega
  · exact h

theorem balanced_newconn (h : Balanced w) (result : Option (ℕ × ServiceConn)) :
    Balanced (w.newconn result) ↔ Tracked w (.newconn result) := by
  have hbalance : w.service.nconnections + (if w.adding then 1 else 0) = w.alive.card := h
  by_cases hopen : 0 < w.n ∧ w.adding = false
  · rw [hopen.2] at hbalance
    change w.service.nconnections + 0 = _ at hbalance
    cases result with
    | none =>
      have heq : w.newconn none = { w with n := 0 } := if_pos hopen
      rw [heq]
      exact ⟨fun _ => trivial,fun _ => h⟩
    | some r =>
      have heq : w.newconn (some r) = { w with service := w.service.modify r.1 fun _ => r.2,
                                               adding := true, alive := insert r.1 w.alive } :=
        if_pos hopen
      rw [heq]
      change w.service.nconnections + 1 = ((insert r.1 w.alive).card : ℤ) ↔ (_ → _)
      by_cases hr : r.1 ∈ w.alive
      · rw [Finset.insert_eq_of_mem hr]
        exact ⟨fun hbad => by omega,fun hnew => absurd hr (hnew hopen)⟩
      · rw [Finset.card_insert_of_notMem hr]
        exact ⟨fun _ _ => hr,fun _ => by push_cast; omega⟩
  · have heq : w.newconn result = w := if_neg hopen
    rw [heq]
    cases result with
    | none => exact ⟨fun _ => trivial,fun _ => h⟩
    | some r => exact ⟨fun _ hopen' => absurd hopen' hopen,fun _ => h⟩

theorem balanced_apply (h : Balanced w) (op : RefillOp) : Balanced (w.apply op) ↔ Tracked w op := by
  cases op with
  | state => exact ⟨fun _ => trivial,fun _ => balanced_state h⟩
  | count => exact ⟨fun _ => trivial,fun _ => balanced_count h⟩
  | newconn result => exact balanced_newconn h result
  | service op =>
    cases op with
    | popconn c => exact balanced_popconn h
    | pushconn c | okconn c | getconn id | freeconn c | overSession c | close c =>
      exact (balanced_other (by intro d hd; cases hd)).trans ⟨fun _ => trivial,fun _ => h⟩

/-! ### A successful `service_state` -/

/-- `service_state` with the connections that its calls of `service_newconn` return. -/
def refill (w : RefillWorld) (news : List (ℕ × ServiceConn)) : RefillWorld :=
  (news.flatMap fun r => [.newconn (some r),.count]).foldl apply w.state

/-- Each pass of the loop brings one connection. -/
theorem refill_loop (news : List (ℕ × ServiceConn)) (hadding : w.adding = false)
    (hn : (news.length : ℤ) ≤ w.n) (hnodup : (news.map Prod.fst).Nodup)
    (hnew : ∀ r ∈ news, r.1 ∉ w.alive) :
    ((news.flatMap fun r => [RefillOp.newconn (some r),.count]).foldl apply w).alive.card =
      w.alive.card + news.length := by
  induction news generalizing w with
  | nil => rfl
  | cons r news ih =>
    rw [List.length_cons] at hn
    rw [List.map_cons,List.nodup_cons] at hnodup
    have hopen : 0 < w.n ∧ w.adding = false := ⟨by push_cast at hn; omega,hadding⟩
    have hfirst : (w.apply (.newconn (some r))).apply .count =
        { w with service := { w.service.modify r.1 fun _ => r.2 with
                   nconnections := w.service.nconnections + 1 },
                 n := w.n - 1, alive := insert r.1 w.alive, adding := false } := by
      change (w.newconn (some r)).count = _
      rw [newconn,if_pos hopen]
      rfl
    rw [List.flatMap_cons,List.foldl_append,List.foldl_cons,List.foldl_cons,List.foldl_nil,hfirst]
    rw [ih rfl (by push_cast at hn; change _ ≤ w.n - 1; omega) hnodup.2]
    · change (insert r.1 w.alive).card + news.length = w.alive.card + (news.length + 1)
      rw [Finset.card_insert_of_notMem (hnew r (List.mem_cons_self ..))]
      omega
    · intro q hq hmem
      change q.1 ∈ insert r.1 w.alive at hmem
      obtain heq | hmem := Finset.mem_insert.1 hmem
      · exact hnodup.1 (heq ▸ List.mem_map_of_mem hq)
      · exact hnew q (List.mem_cons_of_mem _ hq) hmem

/-- The next `service_state` whose calls all return a connection brings their number to
`conns_limit`. -/
def Refills (w : RefillWorld) : Prop :=
  w.n ≤ 0 → w.adding = false → w.service.pooling → ∀ news : List (ℕ × ServiceConn),
    (news.length : ℤ) = w.service.connsLimit - w.service.nconnections →
    (news.map Prod.fst).Nodup → (∀ r ∈ news, r.1 ∉ w.alive) →
    ((w.refill news).alive.card : ℤ) = w.service.connsLimit

theorem Balanced.refills (h : Balanced w) : Refills w := by
  intro hn hadding hpooling news hlength hnodup hnew
  have hbalance : w.service.nconnections + (if w.adding then 1 else 0) = w.alive.card := h
  rw [hadding] at hbalance
  have hstate : w.state.adding = false ∧ w.state.alive = w.alive ∧
      (news.length : ℤ) ≤ w.state.n ∨ news = [] := by
    rw [state,if_pos ⟨hn,hadding⟩]
    split_ifs with hroom
    · exact .inl ⟨hadding,rfl,hlength.le⟩
    · right
      rw [← List.length_eq_zero_iff]
      have hle := not_lt.1 fun hlt => hroom ⟨hpooling,hlt⟩
      omega
  obtain ⟨hadding',halive,hn'⟩ | rfl := hstate
  · rw [refill,refill_loop news hadding' hn' hnodup (by rw [halive]; exact hnew),halive]
    push_cast
    change w.service.nconnections + 0 = _ at hbalance
    omega
  · have halive : w.state.alive = w.alive := by
      rw [state]
      split_ifs <;> rfl
    change (w.state.alive.card : ℤ) = _
    rw [halive]
    change w.service.nconnections + 0 = _ at hbalance
    change (0 : ℤ) = _ at hlength
    omega

/-- A service in which `service_state` has not run yet. -/
def start (s : Service) : RefillWorld := { s.start with n := 0, adding := false, alive := ∅ }

/-- In every state of a run the counter is the number of connections alive, and the next successful
`service_state` refills the pool, exactly when each connection that is popped was on the free list or
none of the pool. -/
theorem client_pool_refilled {s : Service} (h : s.nconnections = 0) (ops : List RefillOp) :
    (∀ ks, ks <+: ops → Balanced (ks.foldl apply (start s)) ∧ Refills (ks.foldl apply (start s))) ↔
      Allowed Tracked apply (start s) ops := by
  apply always_iff_allowed (I := Balanced) (P := fun w => Balanced w ∧ Refills w)
  · exact fun a ha => ⟨ha,ha.refills⟩
  · exact fun a op ha hop => (balanced_apply ha op).2 hop
  · exact fun a op ha hop hbad => hop ((balanced_apply ha op).1 hbad.1)
  · change s.nconnections + 0 = ((∅ : Finset ℕ).card : ℤ)
    rw [h]
    rfl

theorem client_pool_popped_idle :
    Balanced ([.state, .newconn (some (1,.init)), .count, .service (.pushconn 1),
      .service (.popconn 1)].foldl apply (start (Service.init 4 1 C_SERVICE))) := by
  have hrun := (client_pool_refilled (s := Service.init 4 1 C_SERVICE) rfl
    [.state, .newconn (some (1,.init)), .count, .service (.pushconn 1), .service (.popconn 1)]).2
    ⟨trivial,fun _ => Finset.notMem_empty 1,trivial,trivial,fun _ => by decide,trivial⟩
  exact (hrun _ (List.prefix_refl _)).1

/-- A connection that is lost while it is checked out stays counted, so that no new one is opened. -/
theorem client_pool_checked_out :
    ¬ ∀ s : Service, s.ClientFresh → s.nconnections = 0 → ∀ ops : List RefillOp,
      Balanced (ops.foldl apply (start s)) ∧ Refills (ops.foldl apply (start s)) := by
  intro hall
  have hclient : (Service.init 4 1 C_SERVICE).ClientFresh :=
    Service.init_clientFresh (by decide) (by decide) (by decide)
  have hbad := (hall _ hclient rfl [.state, .newconn (some (1,.init)), .count,
    .service (.pushconn 1), .service (.getconn 0), .service (.popconn 1)]).1
  revert hbad
  rw [Balanced]
  decide

end RefillWorld
end Sbase
