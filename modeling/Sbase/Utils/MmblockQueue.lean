import Sbase.Utils.Mmblock

/-! `MMBLOCK` as a byte queue: reads and pushes append, deletions drop from the front.

`Holds` is the representation invariant, with one lemma for each operation. A push fails in two
boundary cases that `PushFits` excludes, and the last section says exactly which sequences of
operations keep the block in step with the queue. -/
namespace Sbase
open Memory

/-- The block holds the queue `q`: its fields agree with one another and with the queue, and the
allocation has a byte to spare for the terminator. -/
structure Holds (m : MMBlock) (q : List UInt8) : Prop where
  ndata_eq : m.ndata = q.length
  bytes_eq : m.bytes = q
  end_eq : m.end = m.data.map fun _ => q.length
  left_eq : 0 < m.size → m.left = m.size - 1 - m.ndata
  data_none : m.data = none → m.size = 0 ∧ m.left ≤ 0
  data_some : ∀ d, m.data = some d → m.ndata < m.size ∧ m.size % MMBLOCK_BASE = 0

theorem mmblockInit_holds : Holds mmblockInit [] where
  ndata_eq := rfl
  bytes_eq := rfl
  end_eq := rfl
  left_eq := by simp [mmblockInit]
  data_none _ := by simp [mmblockInit]
  data_some d h := by simp [mmblockInit] at h

theorem Holds.nil_of_none {m : MMBlock} {q : List UInt8} (h : Holds m q) (hd : m.data = none) :
    q = [] := by
  have := h.bytes_eq
  simpa [MMBlock.bytes, hd] using this.symm

theorem Holds.size_nonneg {m : MMBlock} {q : List UInt8} (h : Holds m q) : 0 ≤ m.size := by
  cases hd : m.data with
  | none => have := h.data_none hd; omega
  | some d => have := h.data_some d hd; have := h.ndata_eq; omega

theorem Holds.ndata_le_size {m : MMBlock} {q : List UInt8} (h : Holds m q) : m.ndata ≤ m.size := by
  cases hd : m.data with
  | none => have := h.data_none hd; have := h.ndata_eq; rw [h.nil_of_none hd] at this; simp at this; omega
  | some d => have := h.data_some d hd; omega

theorem mmblockRound_spec (size : ℤ) :
    size ≤ mmblockRound size ∧ mmblockRound size < size + MMBLOCK_BASE ∧
      mmblockRound size % MMBLOCK_BASE = 0 := by
  unfold mmblockRound MMBLOCK_BASE
  split_ifs <;> omega

theorem xmmResize_of_lt (old : Option Mem) {oldSize newSize : ℤ} (h : 0 ≤ oldSize)
    (hlt : oldSize < newSize) : ∃ d, xmmResize true old oldSize newSize = some d ∧
      ∀ o, old = some o → ∀ n, n ≤ oldSize.toNat → read d 0 n = read o 0 n := by
  unfold xmmResize
  rw [if_pos ⟨by omega, hlt, rfl⟩]
  cases old with
  | none => exact ⟨_, rfl, by simp⟩
  | some o =>
    refine ⟨_, rfl, ?_⟩
    rintro o' ⟨⟩ n hn
    have hw := read_write_self (fun _ => (0 : UInt8)) 0 (read o 0 oldSize.toNat)
    rw [read_length] at hw
    rw [← take_read _ 0 hn, hw, take_read _ 0 hn]

/-- Growing keeps the contents and leaves at least the requested space. -/
theorem mmblockIncre_holds {m : MMBlock} {q : List UInt8} {k : ℤ} (h : Holds m q) (hk : 0 < k) :
    Holds (mmblockIncre true m k).1 q ∧
      (mmblockIncre true m k).1.size = mmblockRound (m.size + k) ∧
      (mmblockIncre true m k).1.left = mmblockRound (m.size + k) - 1 - q.length ∧
      (mmblockIncre true m k).1.data.isSome := by
  have hs := h.size_nonneg
  obtain ⟨hr, -, hmod⟩ := mmblockRound_spec (m.size + k)
  obtain ⟨d, hd, hcopy⟩ := xmmResize_of_lt m.data hs (show m.size < mmblockRound (m.size + k) by omega)
  have hnd := h.ndata_eq
  have hle := h.ndata_le_size
  have heq : mmblockIncre true m k = (⟨some d, m.ndata, mmblockRound (m.size + k),
      mmblockRound (m.size + k) - m.ndata - 1, some m.ndata.toNat⟩, 0) := by
    simp [mmblockIncre, hk, hd]
  rw [heq]
  refine ⟨⟨hnd, ?_, by simp [hnd], fun _ => by simp only; omega, by simp, ?_⟩, rfl,
    by simp only; omega, rfl⟩
  · cases hdm : m.data with
    | none => simp [MMBlock.bytes, h.nil_of_none hdm, hnd]
    | some o =>
      have := h.bytes_eq
      simp only [MMBlock.bytes, hdm] at this ⊢
      rw [← this]
      exact hcopy o hdm _ (by omega)
  · rintro _ -
    exact ⟨by simp only; omega, hmod⟩

/-- The space a read offers to the kernel. -/
def readSpace (m : MMBlock) : ℕ := (readBlock true m).left.toNat

theorem readBlock_holds {m : MMBlock} {q : List UInt8} (h : Holds m q) :
    Holds (readBlock true m) q ∧ 0 < (readBlock true m).left ∧ (readBlock true m).data.isSome := by
  unfold readBlock
  split_ifs with hl
  · obtain ⟨hh, hsz, hleft, hsome⟩ := mmblockIncre_holds h (show (0 : ℤ) < MMBLOCK_BASE by decide)
    have hr := (mmblockRound_spec (m.size + MMBLOCK_BASE)).1
    have hle := h.ndata_le_size
    have hnd := h.ndata_eq
    refine ⟨hh, ?_, hsome⟩
    simp only [MMBLOCK_BASE] at *
    omega
  · refine ⟨h, by simp only [MMBLOCK_MIN] at hl; omega, ?_⟩
    cases hd : m.data with
    | none => have := h.data_none hd; simp only [MMBLOCK_MIN] at hl; omega
    | some d => rfl

theorem readSpace_pos {m : MMBlock} {q : List UInt8} (h : Holds m q) : 0 < readSpace m := by
  have := (readBlock_holds h).2.1
  unfold readSpace
  omega

/-- Storing `bs` behind the contents, with its terminator, where `left` offers the room. -/
theorem Holds.store {m : MMBlock} {q : List UInt8} {d : Mem} (h : Holds m q) (hd : m.data = some d)
    (bs : List UInt8) (hn : (bs.length : ℤ) ≤ m.left) :
    Holds { m with data := some (write d q.length (bs ++ [0])), ndata := m.ndata + bs.length,
                   «end» := some (q.length + bs.length), left := m.left - bs.length } (q ++ bs) := by
  obtain ⟨hlt, hmod⟩ := h.data_some d hd
  have hnd := h.ndata_eq
  have hleft := h.left_eq (by omega)
  refine ⟨by simp [hnd], ?_, by simp, fun _ => by simp only; omega, by simp, ?_⟩
  · have hb := h.bytes_eq
    simp only [MMBlock.bytes, hd, hnd, Int.toNat_natCast] at hb ⊢
    rw [show ((q.length : ℤ) + bs.length).toNat = q.length + bs.length by omega,
      read_write_append, hb]
  · rintro _ -
    exact ⟨by simp only; omega, hmod⟩

/-- The bytes that a read hands over. -/
def readBytes (m : MMBlock) (r : Recv) : List UInt8 := (r.take (readSpace m)).1

theorem Recv.take_length (r : Recv) {want : ℕ} (h : 0 < (r.take want).2) :
    ((r.take want).1.length : ℤ) = (r.take want).2 ∧ (r.take want).1.length ≤ want := by
  cases r with
  | bytes bs => simp [Recv.take]
  | fail n => simp only [Recv.take] at h; omega

theorem Recv.take_eq_nil (r : Recv) {want : ℕ} (h : ¬ 0 < (r.take want).2) :
    (r.take want).1 = [] := by
  cases r with
  | bytes bs =>
    simp only [Recv.take] at h ⊢
    exact List.length_eq_zero_iff.mp (by omega)
  | fail n => rfl

/-- A read appends what the kernel handed over, and returns its count or the failure. -/
theorem mmblockRead_holds {m : MMBlock} {q : List UInt8} (h : Holds m q) (r : Recv) :
    Holds (mmblockRead true m r).1 (q ++ readBytes m r) ∧
      (mmblockRead true m r).2 = (r.take (readSpace m)).2 := by
  obtain ⟨hb, hleft, hsome⟩ := readBlock_holds h
  obtain ⟨d, hd⟩ := Option.isSome_iff_exists.mp hsome
  have hend : (readBlock true m).end = some q.length := by rw [hb.end_eq, hd]; rfl
  unfold mmblockRead readBytes readSpace
  generalize readBlock true m = m' at *
  simp only [recvInto, hd, hend, hleft, if_true]
  split_ifs with hpos
  · obtain ⟨hlen, hle⟩ := r.take_length hpos
    refine ⟨?_, rfl⟩
    rw [← hlen, Int.toNat_natCast]
    exact hb.store hd _ (by omega)
  · rw [r.take_eq_nil hpos, List.append_nil]
    exact ⟨hb, rfl⟩

/-- Without memory the contents are gone, but the block is in order. -/
theorem readBlock_keeps {m : MMBlock} {q : List UInt8} (h : Holds m q) (alloc : Bool) :
    ∃ q', Holds (readBlock alloc m) q' := by
  cases alloc with
  | true => exact ⟨q, (readBlock_holds h).1⟩
  | false =>
    unfold readBlock
    split_ifs
    · have hinit : (mmblockIncre false m MMBLOCK_BASE).1 = mmblockInit := by
        simp [mmblockIncre, xmmResize, MMBLOCK_BASE, mmblockInit]
      rw [hinit]
      exact ⟨[], mmblockInit_holds⟩
    · exact ⟨q, h⟩

theorem mmblockRead_keeps {m : MMBlock} {q : List UInt8} (h : Holds m q) (alloc : Bool) (r : Recv) :
    ∃ q', Holds (mmblockRead alloc m r).1 q' := by
  obtain ⟨q', hb⟩ := readBlock_keeps h alloc
  unfold mmblockRead
  generalize readBlock alloc m = m' at hb
  cases hd : m'.data with
  | none => exact ⟨q', by simpa [recvInto, hd] using hb⟩
  | some d =>
    have hend : m'.end = some q'.length := by rw [hb.end_eq, hd]; rfl
    simp only [recvInto, hd, hend]
    split_ifs with hleft hpos
    · obtain ⟨hlen, hle⟩ := r.take_length hpos
      refine ⟨q' ++ (r.take m'.left.toNat).1, ?_⟩
      rw [← hlen, Int.toNat_natCast]
      exact hb.store hd _ (by omega)
    · exact ⟨q', hb⟩
    · exact ⟨q', hb⟩

/-- The pushes that succeed: the space left is not exactly that of the data, and a first
allocation is not filled to its last byte. -/
def PushFits (m : MMBlock) (n : ℕ) : Prop :=
  m.left ≠ n ∧ ¬ (m.size = 0 ∧ ((n : ℤ)+1) % MMBLOCK_BASE = 0)

instance (m : MMBlock) (n : ℕ) : Decidable (PushFits m n) := by unfold PushFits; infer_instance

theorem pushBlock_holds {m : MMBlock} {q : List UInt8} (h : Holds m q) {n : ℕ} (hn : 0 < n) :
    Holds (pushBlock true m n) q ∧ (pushBlock true m n).data.isSome ∧
      ((n : ℤ) < (pushBlock true m n).left ↔ PushFits m n) := by
  unfold pushBlock PushFits
  split_ifs with hl
  · obtain ⟨hh, hsz, hleft, hsome⟩ := mmblockIncre_holds h (show (0 : ℤ) < n+1 by omega)
    obtain ⟨hge, hlt, hmod⟩ := mmblockRound_spec (m.size + (n+1))
    refine ⟨hh, hsome, ?_⟩
    rw [hleft]
    cases hd : m.data with
    | none =>
      obtain ⟨hs0, -⟩ := h.data_none hd
      have hq := h.nil_of_none hd
      subst hq
      rw [hs0, zero_add] at hge hlt hmod
      simp only [hs0, zero_add, List.length_nil, MMBLOCK_BASE, true_and] at hlt hmod ⊢
      omega
    | some d =>
      have := h.data_some d hd
      have := h.ndata_eq
      omega
  · refine ⟨h, ?_, ?_⟩
    · cases hd : m.data with
      | none => have := h.data_none hd; omega
      | some d => rfl
    · cases hd : m.data with
      | none => have := h.data_none hd; omega
      | some d =>
        have := h.data_some d hd
        have := h.ndata_eq
        omega

/-- A push either appends all its bytes or, exactly when it does not fit, changes nothing that
the queue shows and fails. -/
theorem mmblockPush_holds {m : MMBlock} {q : List UInt8} (h : Holds m q) {bs : List UInt8}
    (hbs : bs ≠ []) :
    if PushFits m bs.length then
      Holds (mmblockPush true m bs).1 (q ++ bs) ∧ (mmblockPush true m bs).2 = bs.length
    else Holds (mmblockPush true m bs).1 q ∧ (mmblockPush true m bs).2 = -1 := by
  have hpos : 0 < bs.length := List.length_pos_iff.mpr hbs
  obtain ⟨hb, hsome, hfit⟩ := pushBlock_holds h hpos
  obtain ⟨d, hd⟩ := Option.isSome_iff_exists.mp hsome
  have hend : (pushBlock true m bs.length).end = some q.length := by rw [hb.end_eq, hd]; rfl
  rw [mmblockPush, if_pos hpos]
  generalize pushBlock true m bs.length = m' at *
  simp only [pushInto, hd, hend]
  by_cases hf : PushFits m bs.length
  · have hlt := hfit.mpr hf
    rw [if_pos hf, if_pos hlt]
    exact ⟨hb.store hd bs hlt.le, rfl⟩
  · rw [if_neg hf, if_neg (mt hfit.mp hf)]
    exact ⟨hb, rfl⟩

theorem mmblockPush_nil (m : MMBlock) : mmblockPush true m [] = (m,-1) := rfl

theorem mmblockDel_holds {m : MMBlock} {q : List UInt8} (h : Holds m q) (n : ℤ) :
    Holds (mmblockDel m n).1 (q.drop n.toNat) := by
  have hnd := h.ndata_eq
  unfold mmblockDel
  split_ifs with hn hle
  · rw [List.drop_eq_nil_of_le (by omega)]
    refine ⟨rfl, by cases m.data <;> simp [MMBlock.bytes], rfl, fun _ => by simp, ?_, ?_⟩
    · intro hd
      have := h.data_none hd
      exact ⟨this.1, by simp only; omega⟩
    · intro d hd
      have := h.data_some d hd
      exact ⟨by simp only; omega, this.2⟩
  · cases hd : m.data with
    | none => have := h.nil_of_none hd; subst this; simp only [List.length_nil] at hnd; omega
    | some d =>
      obtain ⟨hlt, hmod⟩ := h.data_some d hd
      have hleft := h.left_eq (by omega)
      have hend : m.end = some q.length := by rw [h.end_eq, hd]; rfl
      have hb := h.bytes_eq
      simp only [MMBlock.bytes, hd, hnd, Int.toNat_natCast] at hb
      have hk : q.length = n.toNat + (q.length - n.toNat) := by omega
      simp only [hend]
      refine ⟨by simp only [List.length_drop]; omega, ?_, by simp, fun _ => by simp only; omega,
        by simp, ?_⟩
      · simp only [MMBlock.bytes]
        rw [show (m.ndata - n).toNat = q.length - n.toNat by omega, read_write_before _ _ (by omega),
          read_copyDown _ _ (by omega)]
        conv_rhs => rw [← hb, hk, drop_read]
        simp
      · rintro _ -
        exact ⟨by simp only; omega, hmod⟩
  · rw [show n.toNat = 0 by omega]
    exact h

theorem mmblockReset_holds {m : MMBlock} {q : List UInt8} (h : Holds m q) :
    Holds (mmblockReset m) [] := by
  unfold mmblockReset
  split_ifs with hmax
  · exact mmblockInit_holds
  · refine ⟨rfl, by cases m.data <;> simp [MMBlock.bytes], rfl, fun _ => by simp, ?_, ?_⟩
    · intro hd
      have := h.data_none hd
      exact ⟨this.1, by simp only; omega⟩
    · intro d hd
      obtain ⟨hlt, hmod⟩ := h.data_some d hd
      have := h.ndata_eq
      exact ⟨by simp only; omega, hmod⟩

/-! ### Sequences of operations -/

inductive BlockOp
  | push (bs : List UInt8)
  | recv (r : Recv)
  | read (r : Recv)
  | del (n : ℤ)
  | reset

/-- The operation on the block, allocation succeeding, and its return value. -/
def BlockOp.run (m : MMBlock) : BlockOp → MMBlock × ℤ
  | .push bs => mmblockPush true m bs
  | .recv r => mmblockRecv true m r
  | .read r => mmblockRead true m r
  | .del n => mmblockDel m n
  | .reset => (mmblockReset m, 0)

/-- The bytes that wait in the socket. -/
def Recv.waiting : Recv → List UInt8
  | .bytes bs => bs
  | .fail _ => []

/-- The model queue, told how many bytes a read returned. -/
def BlockOp.queue (q : List UInt8) (ret : ℤ) : BlockOp → List UInt8
  | .push bs => q ++ bs
  | .recv r => q ++ r.waiting.take ret.toNat
  | .read r => q ++ r.waiting.take ret.toNat
  | .del n => q.drop (min n.toNat q.length)
  | .reset => []

/-- The fields of the block show the queue. -/
structure Shows (m : MMBlock) (q : List UInt8) : Prop where
  bytes_eq : m.bytes = q
  ndata_eq : m.ndata = q.length
  end_eq : m.end = m.data.map fun _ => m.ndata.toNat
  left_eq : 0 < m.size → m.left = m.size - 1 - m.ndata

/-- Along the whole sequence the block shows the model queue and every push succeeds. -/
def Conforms (m : MMBlock) (q : List UInt8) : List BlockOp → Prop
  | [] => Shows m q
  | op::ops => Shows m q ∧ (∀ bs, op = .push bs → bs ≠ [] → (op.run m).2 = bs.length) ∧
      Conforms (op.run m).1 (op.queue q (op.run m).2) ops

/-- Along the whole sequence every push meets a block that it fits. -/
def AllFit (m : MMBlock) : List BlockOp → Prop
  | [] => True
  | op::ops => (∀ bs, op = .push bs → bs ≠ [] → PushFits m bs.length) ∧ AllFit (op.run m).1 ops

theorem Holds.shows {m : MMBlock} {q : List UInt8} (h : Holds m q) : Shows m q where
  bytes_eq := h.bytes_eq
  ndata_eq := h.ndata_eq
  end_eq := by rw [h.end_eq, h.ndata_eq, Int.toNat_natCast]
  left_eq := h.left_eq

theorem Recv.take_waiting (r : Recv) (want : ℕ) :
    (r.take want).1 = r.waiting.take (r.take want).2.toNat := by
  cases r with
  | bytes bs =>
    simp only [Recv.take, Recv.waiting, List.length_take, Int.toNat_natCast]
    rw [List.take_eq_take_iff]
    omega
  | fail n => simp [Recv.take, Recv.waiting]

/-- The step lemma: an operation whose push fits takes the block to the next queue. -/
theorem BlockOp.run_holds {m : MMBlock} {q : List UInt8} (h : Holds m q) (op : BlockOp)
    (hfit : ∀ bs, op = .push bs → bs ≠ [] → PushFits m bs.length) :
    Holds (op.run m).1 (op.queue q (op.run m).2) ∧
      ∀ bs, op = .push bs → bs ≠ [] → (op.run m).2 = bs.length := by
  cases op with
  | push bs =>
    by_cases hbs : bs = []
    · subst hbs
      refine ⟨by simpa [run, queue, mmblockPush_nil] using h, ?_⟩
      rintro _ ⟨⟩ hne
      exact absurd rfl hne
    · have hp := mmblockPush_holds h hbs
      rw [if_pos (hfit bs rfl hbs)] at hp
      exact ⟨hp.1, by rintro _ ⟨⟩ -; exact hp.2⟩
  | recv r =>
    obtain ⟨hh, hret⟩ := mmblockRead_holds h r
    refine ⟨?_, by rintro _ ⟨⟩⟩
    simp only [run, queue, mmblockRecv, hret, ← r.take_waiting]
    exact hh
  | read r =>
    obtain ⟨hh, hret⟩ := mmblockRead_holds h r
    refine ⟨?_, by rintro _ ⟨⟩⟩
    simp only [run, queue, hret, ← r.take_waiting]
    exact hh
  | del n =>
    refine ⟨?_, by rintro _ ⟨⟩⟩
    have hd := mmblockDel_holds h n
    rcases le_total n.toNat q.length with hle | hle
    · simpa [run, queue, hle] using hd
    · simpa [run, queue, hle, List.drop_eq_nil_of_le] using hd
  | reset => exact ⟨mmblockReset_holds h, by rintro _ ⟨⟩⟩

theorem conforms_iff_allFit {m : MMBlock} {q : List UInt8} (h : Holds m q) (ops : List BlockOp) :
    Conforms m q ops ↔ AllFit m ops := by
  induction ops generalizing m q with
  | nil => exact ⟨fun _ => trivial, fun _ => h.shows⟩
  | cons op ops ih =>
    simp only [Conforms, AllFit]
    constructor
    · rintro ⟨-, hret, hrest⟩
      have hfit : ∀ bs, op = .push bs → bs ≠ [] → PushFits m bs.length := by
        rintro bs rfl hbs
        by_contra hno
        have hp := mmblockPush_holds h hbs
        rw [if_neg hno] at hp
        have := hret bs rfl hbs
        simp only [BlockOp.run] at this
        omega
      exact ⟨hfit, (ih (op.run_holds h hfit).1).mp hrest⟩
    · rintro ⟨hfit, hrest⟩
      obtain ⟨hh, hret⟩ := op.run_holds h hfit
      exact ⟨h.shows, hret, (ih hh).mpr hrest⟩

/-- From `mmblock_init` on, a sequence of operations keeps the block in step with the byte queue
exactly when each of its pushes fits. -/
theorem mmblock_refines_queue_iff (ops : List BlockOp) :
    Conforms mmblockInit [] ops ↔ AllFit mmblockInit ops :=
  conforms_iff_allFit mmblockInit_holds ops

/-- A first push that fills its allocation to the last byte is dropped. -/
theorem not_conforms_of_boundary {bs : List UInt8} (hbs : bs ≠ [])
    (hlen : ((bs.length : ℤ) + 1) % MMBLOCK_BASE = 0) : ¬ Conforms mmblockInit [] [.push bs] := by
  rintro ⟨-, hret, -⟩
  have hp := mmblockPush_holds mmblockInit_holds hbs
  rw [if_neg fun hf => hf.2 ⟨rfl, hlen⟩] at hp
  have := hret bs rfl hbs
  simp only [BlockOp.run] at this
  omega

/-- One byte less than the block size is such a push. -/
theorem mmblock_push_boundary_fails :
    ¬ Conforms mmblockInit [] [.push (List.replicate 32767 0)] := by
  have hlen : (List.replicate 32767 (0 : UInt8)).length = 32767 := List.length_replicate
  exact not_conforms_of_boundary (List.ne_nil_of_length_pos (by rw [hlen]; norm_num))
    (by rw [hlen]; decide)

end Sbase
