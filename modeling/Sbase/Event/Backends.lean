import Sbase.Event.Evbase
import Sbase.Lib.Runs

/-! The three backends keep the same interest: that of the flags of the events. -/
namespace Sbase
open Runs

/-! ### Flags -/

theorem hasFlag_twoPow (x : Flags) {i : ℕ} (hi : i < 32) :
    hasFlag x (BitVec.twoPow 32 i) = x.getLsbD i := by
  rw [hasFlag,BitVec.and_twoPow]
  cases x.getLsbD i with
  | false => simp
  | true =>
    have hne : BitVec.twoPow 32 i ≠ 0#32 := by
      intro h
      have hbit := congrArg (BitVec.getLsbD · i) h
      simp [hi] at hbit
    simpa using hne

theorem hasFlag_read (x : Flags) : hasFlag x E_READ = x.getLsbD 0 := by
  have hbit : E_READ = BitVec.twoPow 32 0 := by decide
  rw [hbit,hasFlag_twoPow x (by decide)]

theorem hasFlag_write (x : Flags) : hasFlag x E_WRITE = x.getLsbD 1 := by
  have hbit : E_WRITE = BitVec.twoPow 32 1 := by decide
  rw [hbit,hasFlag_twoPow x (by decide)]

theorem pollFlags_in (ev : Event) : hasFlag (pollFlags ev) POLLIN = hasFlag ev.evFlags E_READ := by
  rw [pollFlags]
  cases hasFlag ev.evFlags E_READ <;> cases hasFlag ev.evFlags E_WRITE <;> decide

theorem pollFlags_out (ev : Event) : hasFlag (pollFlags ev) POLLOUT = hasFlag ev.evFlags E_WRITE := by
  rw [pollFlags]
  cases hasFlag ev.evFlags E_READ <;> cases hasFlag ev.evFlags E_WRITE <;> decide

theorem pollFlags_eq_zero (ev : Event) : pollFlags ev = 0 ↔ ev.interested = false := by
  rw [pollFlags,Event.interested]
  cases hasFlag ev.evFlags E_READ <;> cases hasFlag ev.evFlags E_WRITE <;> decide

theorem epollFlags_in (ev : Event) : hasFlag (epollFlags ev) EPOLLIN = hasFlag ev.evFlags E_READ := by
  rw [epollFlags]
  cases hasFlag ev.evFlags E_READ <;> cases hasFlag ev.evFlags E_WRITE <;>
    cases hasFlag ev.evFlags E_EPOLL_ET <;> decide

theorem epollFlags_out (ev : Event) :
    hasFlag (epollFlags ev) EPOLLOUT = hasFlag ev.evFlags E_WRITE := by
  rw [epollFlags]
  cases hasFlag ev.evFlags E_READ <;> cases hasFlag ev.evFlags E_WRITE <;>
    cases hasFlag ev.evFlags E_EPOLL_ET <;> decide

/-! ### What a backend has to do -/

variable {τ : Type}

/-- The interest registered for the descriptor of an event is that of its flags. -/
def ShowsInterest (B : Backend τ) (b : Evbase τ) (ev : Event) : Prop :=
  B.reads b.table ev.evFd.toNat = hasFlag ev.evFlags E_READ ∧
    B.writes b.table ev.evFd.toNat = hasFlag ev.evFlags E_WRITE

/-- Nothing is registered for a descriptor. -/
def Silent (B : Backend τ) (b : Evbase τ) (n : ℕ) : Prop :=
  B.reads b.table n = false ∧ B.writes b.table n = false

/-- Other descriptors keep their interest. -/
def SameElse (B : Backend τ) (b b' : Evbase τ) (n : ℕ) : Prop :=
  ∀ m ≠ n, B.reads b'.table m = B.reads b.table m ∧ B.writes b'.table m = B.writes b.table m

/-- Two bases list the same events. -/
def SameList (b b' : Evbase τ) : Prop := b'.evlist = b.evlist ∧ b'.maxfd = b.maxfd

/-- The behaviour that the invariant of a base needs. -/
structure Backend.Sound (B : Backend τ) : Prop where
  start : ∀ n, B.reads B.start n = false ∧ B.writes B.start n = false
  add : ∀ b e ev, b.accepts ev → ShowsInterest B b ev ∨ Silent B b ev.evFd.toNat →
    (B.add b e ev).2 = { ev with evBase := true } ∧ (B.add b e ev).1.allowed = b.allowed ∧
      ShowsInterest B (B.add b e ev).1 ev ∧ SameElse B b (B.add b e ev).1 ev.evFd.toNat ∧
      (SameList (b.updateEventFd e ev) (B.add b e ev).1 ∨
        ev.interested = false ∧ SameList b (B.add b e ev).1)
  update : ∀ b e ev, b.accepts ev → ev.evBase = true →
    ShowsInterest B b { ev with evFlags := ev.oldEvFlags } →
    (B.update b e ev).2 = ev ∧ (B.update b e ev).1.allowed = b.allowed ∧
      ShowsInterest B (B.update b e ev).1 ev ∧ SameElse B b (B.update b e ev).1 ev.evFd.toNat ∧
      SameList (b.updateEventFd e ev) (B.update b e ev).1
  del : ∀ b e ev, b.accepts ev → Silent B b ev.evFd.toNat ∨ b.evlist ev.evFd.toNat ≠ none →
    (B.del b e ev).allowed = b.allowed ∧ Silent B (B.del b e ev) ev.evFd.toNat ∧
      SameElse B b (B.del b e ev) ev.evFd.toNat ∧
      (SameList (b.removeEventFd ev) (B.del b e ev) ∨
        b.evlist ev.evFd.toNat = none ∧ SameList b (B.del b e ev))

/-! ### The three backends -/

theorem fdPut_self (fds : ℕ → Bool) (fd : ℤ) (v : Bool) : fdPut fds fd v fd.toNat = v :=
  Function.update_self ..

theorem fdPut_other (fds : ℕ → Bool) {fd : ℤ} {n : ℕ} (h : n ≠ fd.toNat) (v : Bool) :
    fdPut fds fd v n = fds n := Function.update_of_ne h ..

/-- The bit of a descriptor after `evselect_update`, for the flag whose bit it is. -/
theorem selectBit_self (fds : ℕ → Bool) (fd : ℤ) (new old bit : Flags)
    (hbit : ∀ x y, hasFlag (x &&& y) bit = (hasFlag x bit && hasFlag y bit))
    (hxor : hasFlag (new ^^^ old) bit = (hasFlag new bit ^^ hasFlag old bit))
    (hold : fds fd.toNat = hasFlag old bit) :
    (let fds := if hasFlag (new &&& (new ^^^ old)) bit then fdPut fds fd true else fds
     if hasFlag (old &&& (new ^^^ old)) bit then fdPut fds fd false else fds) fd.toNat =
      hasFlag new bit := by
  dsimp only
  rw [hbit,hbit,hxor]
  cases hn : hasFlag new bit <;> cases ho : hasFlag old bit <;> simp [fdPut_self,hold,ho]

theorem selectBit_other (fds : ℕ → Bool) {fd : ℤ} {n : ℕ} (h : n ≠ fd.toNat) (a b : Bool) :
    (let fds := if a then fdPut fds fd true else fds
     if b then fdPut fds fd false else fds) n = fds n := by
  cases a <;> cases b <;> simp [fdPut_other _ h]

theorem hasFlag_read_and (x y : Flags) :
    hasFlag (x &&& y) E_READ = (hasFlag x E_READ && hasFlag y E_READ) := by
  simp only [hasFlag_read,BitVec.getLsbD_and]

theorem hasFlag_write_and (x y : Flags) :
    hasFlag (x &&& y) E_WRITE = (hasFlag x E_WRITE && hasFlag y E_WRITE) := by
  simp only [hasFlag_write,BitVec.getLsbD_and]

theorem evselectAdd_eq {b : Evbase SelectFds} {ev : Event} (h : b.accepts ev) (e : ℕ) :
    evselectAdd b e ev = ({ b.updateEventFd e ev with table :=
      ⟨if hasFlag ev.evFlags E_READ then fdPut b.table.readFds ev.evFd true else b.table.readFds,
        if hasFlag ev.evFlags E_WRITE then fdPut b.table.writeFds ev.evFd true
        else b.table.writeFds⟩ }, { ev with evBase := true }) := by
  rw [evselectAdd,if_pos h]
  cases hasFlag ev.evFlags E_READ <;> cases hasFlag ev.evFlags E_WRITE <;> rfl

/-- Setting the bit of a flag, where it is not set without the flag. -/
theorem setBit_self (fds : ℕ → Bool) (fd : ℤ) (v : Bool) (h : fds fd.toNat = v ∨ fds fd.toNat = false) :
    (if v then fdPut fds fd true else fds) fd.toNat = v := by
  cases v with
  | true => exact fdPut_self ..
  | false => simpa using h

theorem setBit_other (fds : ℕ → Bool) {fd : ℤ} {n : ℕ} (h : n ≠ fd.toNat) (v : Bool) :
    (if v then fdPut fds fd true else fds) n = fds n := by
  cases v with
  | true => exact fdPut_other fds h true
  | false => rfl

theorem evselect_sound : evselect.Sound where
  start _ := ⟨rfl,rfl⟩
  add b e ev hacc hpre := by
    change (evselectAdd b e ev).2 = _ ∧ (evselectAdd b e ev).1.allowed = _ ∧
      ShowsInterest evselect (evselectAdd b e ev).1 ev ∧ SameElse evselect b (evselectAdd b e ev).1 _ ∧
      (SameList _ (evselectAdd b e ev).1 ∨ _)
    rw [evselectAdd_eq hacc]
    refine ⟨rfl,rfl,⟨?_,?_⟩,fun n hn => ⟨?_,?_⟩,.inl ⟨rfl,rfl⟩⟩
    · exact setBit_self _ _ _ (hpre.imp And.left And.left)
    · exact setBit_self _ _ _ (hpre.imp And.right And.right)
    · exact setBit_other _ hn _
    · exact setBit_other _ hn _
  update b e ev hacc _ hpre := by
    change (evselectUpdate b e ev).2 = _ ∧ (evselectUpdate b e ev).1.allowed = _ ∧
      ShowsInterest evselect (evselectUpdate b e ev).1 ev ∧ SameElse evselect b (evselectUpdate b e ev).1 _ ∧
      SameList _ (evselectUpdate b e ev).1
    rw [evselectUpdate,if_pos hacc]
    refine ⟨rfl,rfl,⟨?_,?_⟩,fun n hn => ⟨?_,?_⟩,rfl,rfl⟩
    · apply selectBit_self _ _ _ _ _ hasFlag_read_and _ hpre.1
      simp only [hasFlag_read,BitVec.getLsbD_xor]
    · apply selectBit_self _ _ _ _ _ hasFlag_write_and _ hpre.2
      simp only [hasFlag_write,BitVec.getLsbD_xor]
    · exact selectBit_other _ hn _ _
    · exact selectBit_other _ hn _ _
  del b e ev hacc _ := by
    change (evselectDel b e ev).allowed = _ ∧ Silent evselect (evselectDel b e ev) _ ∧
      SameElse evselect b (evselectDel b e ev) _ ∧ (SameList _ (evselectDel b e ev) ∨ _)
    rw [evselectDel,if_pos hacc]
    refine ⟨rfl,⟨?_,?_⟩,fun n hn => ⟨?_,?_⟩,.inl ⟨rfl,rfl⟩⟩
    · exact fdPut_self ..
    · exact fdPut_self ..
    · exact fdPut_other _ hn _
    · exact fdPut_other _ hn _

/-- What the table of `poll` has registered after an entry is written. -/
theorem poll_shows {b : Evbase (ℕ → PollFd)} {ev : Event} (h : b.accepts ev)
    (ht : b.table ev.evFd.toNat = ⟨ev.evFd,pollFlags ev⟩) : ShowsInterest evpoll b ev := by
  have hfd : ev.evFd = ev.evFd.toNat := by
    rw [Evbase.accepts,decide_eq_true_eq] at h
    omega
  constructor
  · change decide (_ ∧ _) = _
    rw [ht,← pollFlags_in]
    simp [← hfd]
  · change decide (_ ∧ _) = _
    rw [ht,← pollFlags_out]
    simp [← hfd]

theorem poll_silent {b : Evbase (ℕ → PollFd)} {n : ℕ} (h : b.table n = ⟨0,0⟩) :
    Silent evpoll b n := by
  constructor
  · change decide (_ ∧ _) = _
    rw [h]
    simp [hasFlag]
  · change decide (_ ∧ _) = _
    rw [h]
    simp [hasFlag]

theorem poll_sameElse {b b' : Evbase (ℕ → PollFd)} {n : ℕ}
    (h : ∀ m ≠ n, b'.table m = b.table m) : SameElse evpoll b b' n := by
  intro m hm
  change decide _ = decide _ ∧ decide _ = decide _
  rw [h m hm]
  exact ⟨rfl,rfl⟩

theorem evpoll_sound : evpoll.Sound where
  start n := by
    change decide ((0 : ℤ) = n ∧ hasFlag 0 POLLIN) = false ∧
      decide ((0 : ℤ) = n ∧ hasFlag 0 POLLOUT) = false
    simp [hasFlag]
  add b e ev hacc hpre := by
    change (evpollAdd b e ev).2 = _ ∧ (evpollAdd b e ev).1.allowed = _ ∧
      ShowsInterest evpoll (evpollAdd b e ev).1 ev ∧ SameElse evpoll b (evpollAdd b e ev).1 _ ∧
      (SameList _ (evpollAdd b e ev).1 ∨ _)
    rw [evpollAdd,if_pos hacc]
    dsimp only
    by_cases hflags : pollFlags ev = 0
    · rw [if_neg (not_not.2 hflags)]
      refine ⟨rfl,rfl,?_,fun _ _ => ⟨rfl,rfl⟩,.inl ⟨rfl,rfl⟩⟩
      -- without interest the entry stays as it is, and it shows none
      rcases hpre with hshow | hsilent
      · exact hshow
      · have hnone := (pollFlags_eq_zero ev).1 hflags
        rw [Event.interested,Bool.or_eq_false_iff] at hnone
        exact ⟨hsilent.1.trans hnone.1.symm,hsilent.2.trans hnone.2.symm⟩
    · rw [if_pos hflags]
      refine ⟨rfl,rfl,?_,?_,.inl ⟨rfl,rfl⟩⟩
      · exact poll_shows hacc (Function.update_self ..)
      · exact poll_sameElse fun m hm => Function.update_of_ne hm ..
  update b e ev hacc hbase _ := by
    change (evpollUpdate b e ev).2 = _ ∧ (evpollUpdate b e ev).1.allowed = _ ∧
      ShowsInterest evpoll (evpollUpdate b e ev).1 ev ∧ SameElse evpoll b (evpollUpdate b e ev).1 _ ∧
      SameList _ (evpollUpdate b e ev).1
    rw [evpollUpdate,if_pos hacc]
    refine ⟨?_,rfl,?_,?_,rfl,rfl⟩
    · rw [← hbase]
    · exact poll_shows hacc (Function.update_self ..)
    · exact poll_sameElse fun m hm => Function.update_of_ne hm ..
  del b e ev hacc _ := by
    change (evpollDel b e ev).allowed = _ ∧ Silent evpoll (evpollDel b e ev) _ ∧
      SameElse evpoll b (evpollDel b e ev) _ ∧ (SameList _ (evpollDel b e ev) ∨ _)
    rw [evpollDel,if_pos hacc]
    refine ⟨rfl,?_,?_,.inl ⟨rfl,rfl⟩⟩
    · exact poll_silent (Function.update_self ..)
    · exact poll_sameElse fun m hm => Function.update_of_ne hm ..

/-- Whether it has to add or to modify, the retried call registers the mask. -/
theorem epollRetry_eq (s : EpollSet) {op : EpollOp} (hop : op ≠ .del) (fd : ℤ) (ev : Flags × ℕ) :
    epollRetry s op fd ev = Function.update s fd.toNat (some ev) := by
  rw [epollRetry]
  cases op with
  | add => cases hs : s fd.toNat <;> simp [epollCtl,hs]
  | mod => cases hs : s fd.toNat <;> simp [epollCtl,hs]
  | del => exact absurd rfl hop

theorem epollCtl_del (s : EpollSet) (fd : ℤ) (ev : Flags × ℕ) :
    (epollCtl s .del fd ev).1 = Function.update s fd.toNat none := by
  cases hs : s fd.toNat with
  | some x => simp [epollCtl,hs]
  | none =>
    simp only [epollCtl,hs]
    exact (Function.update_eq_self_iff.2 hs.symm).symm

theorem epoll_shows {b : Evbase EpollSet} {ev : Event} {e : ℕ}
    (h : b.table ev.evFd.toNat = some (epollFlags ev,e)) : ShowsInterest evepoll b ev := by
  constructor
  · change Option.any _ _ = _
    rw [h]
    exact epollFlags_in ev
  · change Option.any _ _ = _
    rw [h]
    exact epollFlags_out ev

theorem epoll_silent {b : Evbase EpollSet} {n : ℕ} (h : b.table n = none) :
    Silent evepoll b n := by
  constructor
  · change Option.any _ _ = _
    rw [h]
    rfl
  · change Option.any _ _ = _
    rw [h]
    rfl

theorem epoll_sameElse {b b' : Evbase EpollSet} {n : ℕ}
    (h : ∀ m ≠ n, b'.table m = b.table m) : SameElse evepoll b b' n := by
  intro m hm
  change Option.any _ _ = Option.any _ _ ∧ Option.any _ _ = Option.any _ _
  rw [h m hm]
  exact ⟨rfl,rfl⟩

theorem evepoll_sound : evepoll.Sound where
  start _ := ⟨rfl,rfl⟩
  add b e ev hacc hpre := by
    change (evepollAdd b e ev).2 = _ ∧ (evepollAdd b e ev).1.allowed = _ ∧
      ShowsInterest evepoll (evepollAdd b e ev).1 ev ∧ SameElse evepoll b (evepollAdd b e ev).1 _ ∧
      (SameList _ (evepollAdd b e ev).1 ∨ _ ∧ SameList _ (evepollAdd b e ev).1)
    rw [evepollAdd,if_pos hacc]
    dsimp only
    cases hint : ev.interested with
    | false =>
      refine ⟨rfl,rfl,?_,fun _ _ => ⟨rfl,rfl⟩,.inr ⟨rfl,rfl,rfl⟩⟩
      -- without interest nothing is registered, and nothing was
      rcases hpre with hshow | hsilent
      · exact hshow
      · rw [Event.interested,Bool.or_eq_false_iff] at hint
        exact ⟨hsilent.1.trans hint.1.symm,hsilent.2.trans hint.2.symm⟩
    | true =>
      rw [if_pos rfl,epollRetry_eq _ (by simp)]
      refine ⟨rfl,rfl,?_,?_,.inl ⟨rfl,rfl⟩⟩
      · exact epoll_shows (Function.update_self ..)
      · exact epoll_sameElse fun m hm => Function.update_of_ne hm ..
  update b e ev hacc _ _ := by
    change (evepollUpdate b e ev).2 = _ ∧ (evepollUpdate b e ev).1.allowed = _ ∧
      ShowsInterest evepoll (evepollUpdate b e ev).1 ev ∧ SameElse evepoll b (evepollUpdate b e ev).1 _ ∧
      SameList _ (evepollUpdate b e ev).1
    rw [evepollUpdate,if_pos hacc]
    dsimp only
    rw [epollRetry_eq _ (by split_ifs <;> simp)]
    refine ⟨rfl,rfl,?_,?_,rfl,rfl⟩
    · exact epoll_shows (Function.update_self ..)
    · exact epoll_sameElse fun m hm => Function.update_of_ne hm ..
  del b e ev hacc hpre := by
    change (evepollDel b e ev).allowed = _ ∧ Silent evepoll (evepollDel b e ev) _ ∧
      SameElse evepoll b (evepollDel b e ev) _ ∧ (SameList _ (evepollDel b e ev) ∨ _ ∧ SameList _ (evepollDel b e ev))
    rw [evepollDel]
    split_ifs with hlist
    · rw [epollCtl_del]
      refine ⟨rfl,?_,?_,.inl ⟨rfl,rfl⟩⟩
      · exact epoll_silent (Function.update_self ..)
      · exact epoll_sameElse fun m hm => Function.update_of_ne hm ..
    · have hnone : b.evlist ev.evFd.toNat = none := by
        by_contra hne
        exact hlist ⟨hacc,hne⟩
      exact ⟨rfl,hpre.resolve_right (not_not.2 hnone),fun _ _ => ⟨rfl,rfl⟩,.inr ⟨hnone,rfl,rfl⟩⟩

end Sbase
