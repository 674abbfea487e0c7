import Sbase.Conn.FramingRuns

/-! The search of `conn_packet_reader` for a delimiter, as a C string search over a buffer whose length
is kept elsewhere, after any reads, deletions and resets. -/
namespace Sbase
open Memory

/-- What the receiving half does to `conn->buffer`; an extraction deletes the packet. -/
inductive BufferOp
  | read (alloc : Bool) (r : Recv)
  | del (n : ℤ)
  | reset

def BufferOp.run (m : MMBlock) : BufferOp → MMBlock
  | .read alloc r => (mmblockRead alloc m r).1
  | .del n => (mmblockDel m n).1
  | .reset => mmblockReset m

/-- The buffer, with the last data that its memory has held. -/
structure Traced where
  buffer : MMBlock
  last : List UInt8

/-- The last data after the buffer has become `m`: fresh memory has held none. -/
def lastData (last : List UInt8) (m : MMBlock) : List UInt8 :=
  if m.bytes ≠ [] then m.bytes else if m.data.isNone then [] else last

def BufferOp.apply (s : Traced) (op : BufferOp) : Traced :=
  ⟨op.run s.buffer,lastData s.last (op.run s.buffer)⟩

/-- The buffer of a connection after a sequence of operations. -/
def bufferRun (ops : List BufferOp) : Traced := ops.foldl BufferOp.apply ⟨mmblockInit,[]⟩

/-- A buffer without data still shows what it held last, as a C string. -/
structure Remembers (m : MMBlock) (last : List UInt8) : Prop where
  holds : Holds m m.bytes
  current : m.bytes ≠ [] → last = m.bytes
  fresh : m.data = none → last = []
  memory : ∀ d, m.data = some d →
    read d 0 last.length = last ∧ d last.length = 0 ∧ (last.length : ℤ) < m.size

section
variable {m m' : MMBlock} {last q : List UInt8}

theorem lastData_none (h : m.data = none) : lastData last m = [] := by
  simp [lastData,MMBlock.bytes,h]

theorem Remembers.of_terminated (h : Holds m q) (hq : q ≠ []) (ht : Terminated m)
    (last : List UInt8) : Remembers m (lastData last m) := by
  have hb := h.bytes_eq
  have hlast : lastData last m = q := by
    unfold lastData
    rw [hb,if_pos hq]
  rw [hlast]
  refine ⟨hb.symm ▸ h,fun _ => hb.symm,h.nil_of_none,?_⟩
  intro d hd
  obtain ⟨d',hd',hread⟩ := h.nonempty hq
  cases hd.symm.trans hd'
  have hnd := h.ndata_eq
  have hlen := List.length_pos_iff.mpr hq
  have hzero := ht d hd (by omega)
  rw [hnd,Int.toNat_natCast] at hzero
  exact ⟨hread,hzero,hnd ▸ (h.data_some d hd).1⟩

/-- The buffer has lost all its data or none, and its memory is as it was, or grown, or gone. -/
theorem Remembers.keep (h : Remembers m last) (hm : Holds m' q) (hq : q ≠ [] → q = m.bytes)
    (hsame : ∀ d', m'.data = some d' → m.size ≤ m'.size ∧ ∃ d, m.data = some d ∧
      ∀ n ≤ m.size.toNat, read d' 0 n = read d 0 n) : Remembers m' (lastData last m') := by
  have hb := hm.bytes_eq
  have hlast : ∀ d', m'.data = some d' → lastData last m' = last := by
    intro d' hd'
    unfold lastData
    rw [hb,hd']
    by_cases hnil : q = []
    · simp [hnil]
    · have hcur := h.current (hq hnil ▸ hnil)
      rw [if_pos hnil,hq hnil,hcur]
  refine ⟨hb.symm ▸ hm,?_,lastData_none,?_⟩
  · intro hne
    unfold lastData
    rw [if_pos hne]
  · intro d' hd'
    obtain ⟨hle,d,hd,heq⟩ := hsame d' hd'
    obtain ⟨hread,hzero,hlt⟩ := h.memory d hd
    have hnext := heq (last.length+1) (by omega)
    rw [read_append,read_append,heq last.length (by omega),List.append_cancel_left_eq] at hnext
    have hcell : d' last.length = d last.length := by simpa [read_succ] using hnext
    rw [hlast d' hd',hcell,heq last.length (by omega)]
    exact ⟨hread,hzero,by omega⟩

theorem mmblockInit_remembers : Remembers mmblockInit [] :=
  ⟨mmblockInit_holds,fun h => absurd rfl h,fun _ => rfl,fun d hd => by cases hd⟩

theorem Remembers.del (h : Remembers m last) (n : ℤ) :
    Remembers (mmblockDel m n).1 (lastData last (mmblockDel m n).1) := by
  have hm := mmblockDel_holds h.holds n
  by_cases hpart : 0 < n ∧ n < m.ndata
  · have hne : m.bytes.drop n.toNat ≠ [] := by
      have := h.holds.ndata_eq
      rw [ne_eq,List.drop_eq_nil_iff]
      omega
    refine .of_terminated hm hne (mmblockDel_terminated h.holds ?_ n) last
    intro d hd hpos
    have hb : m.bytes ≠ [] := fun hnil => hne (by rw [hnil,List.drop_nil])
    have hzero := (h.memory d hd).2.1
    rwa [h.current hb,← Int.toNat_natCast m.bytes.length,← h.holds.ndata_eq] at hzero
  · have hdata : (mmblockDel m n).1.data = m.data ∧ (mmblockDel m n).1.size = m.size := by
      unfold mmblockDel
      split_ifs with hn hle
      · exact ⟨rfl,rfl⟩
      · exact absurd ⟨hn,not_le.mp hle⟩ hpart
      · exact ⟨rfl,rfl⟩
    refine h.keep hm ?_ ?_
    · intro hne
      have hn : ¬ 0 < n := by
        intro hn
        have := h.holds.ndata_eq
        exact hne (List.drop_eq_nil_of_le (by omega))
      rw [Int.toNat_of_nonpos (not_lt.mp hn),List.drop_zero]
    · intro d' hd'
      exact ⟨hdata.2.ge,d',hdata.1 ▸ hd',fun _ _ => rfl⟩

theorem Remembers.reset (h : Remembers m last) :
    Remembers (mmblockReset m) (lastData last (mmblockReset m)) := by
  refine h.keep (mmblockReset_holds h.holds) (fun hne => absurd rfl hne) ?_
  intro d' hd'
  by_cases hmax : MMBLOCK_MAX < m.size
  · simp [mmblockReset,hmax] at hd'
  · simp only [mmblockReset,if_neg hmax] at hd' ⊢
    exact ⟨le_rfl,d',hd',fun _ _ => rfl⟩

theorem Remembers.same (h : Remembers m last) : Remembers m (lastData last m) :=
  h.keep h.holds (fun _ => rfl) fun d hd => ⟨le_rfl,d,hd,fun _ _ => rfl⟩

/-- The buffer that a read receives into. -/
theorem Remembers.readBlock (h : Remembers m last) (alloc : Bool) :
    Remembers (readBlock alloc m) (lastData last (readBlock alloc m)) := by
  unfold Sbase.readBlock
  split_ifs with hleft
  · cases alloc with
    | false =>
      have hinit : (mmblockIncre false m MMBLOCK_BASE).1 = mmblockInit := by
        simp [mmblockIncre,xmmResize,MMBLOCK_BASE,mmblockInit]
      rw [hinit]
      exact mmblockInit_remembers
    | true =>
      have hbase : (0 : ℤ) < MMBLOCK_BASE := by decide
      obtain ⟨hm,hsize,-,-⟩ := mmblockIncre_holds h.holds hbase
      have hround := (mmblockRound_spec (m.size + MMBLOCK_BASE)).1
      cases hold : m.data with
      | none =>
        have hbytes := h.holds.nil_of_none hold
        have hlast : lastData last (mmblockIncre true m MMBLOCK_BASE).1 = [] := by
          simp [lastData,hm.bytes_eq,hbytes,h.fresh hold]
        rw [hlast]
        refine ⟨hm.bytes_eq.symm ▸ hm,fun hne => absurd (hm.bytes_eq.trans hbytes) hne,
          fun _ => rfl,?_⟩
        intro d hd
        have hzero : d = fun _ => 0 := by
          have hsize0 := (h.holds.data_none hold).1
          simp [mmblockIncre,xmmResize,hold,hsize0,mmblockRound,MMBLOCK_BASE] at hd
          exact hd.symm
        have hnd := hm.ndata_eq
        have := (hm.data_some d hd).1
        rw [hbytes,List.length_nil] at hnd
        exact ⟨rfl,by rw [hzero],by simp only [List.length_nil]; omega⟩
      | some d =>
        refine h.keep hm (fun _ => rfl) ?_
        intro d' hd'
        obtain ⟨d₁,hd₁,hcopy⟩ := xmmResize_of_lt m.data h.holds.size_nonneg
          (show m.size < mmblockRound (m.size + MMBLOCK_BASE) by omega)
        have hgrown : (mmblockIncre true m MMBLOCK_BASE).1.data = some d₁ := by
          simp [mmblockIncre,hbase,hd₁]
        obtain rfl : d₁ = d' := Option.some.inj (hgrown.symm.trans hd')
        exact ⟨by omega,d,hold,hcopy d hold⟩
  · exact h.same

theorem Remembers.recvInto (h : Remembers m (lastData last m)) (r : Recv) :
    Remembers (recvInto m r).1 (lastData last (recvInto m r).1) := by
  cases hd : m.data with
  | none => simpa [Sbase.recvInto,hd] using h
  | some d =>
    have hend : m.end = some m.bytes.length := by rw [h.holds.end_eq,hd]; rfl
    simp only [Sbase.recvInto,hd,hend]
    split_ifs with hleft hpos
    · obtain ⟨hlen,hle⟩ := r.take_length hpos
      rw [← hlen,Int.toNat_natCast]
      have hstore := h.holds.store hd (r.take m.left.toNat).1 (by omega)
      refine .of_terminated hstore ?_ ?_ last
      · have hne : (r.take m.left.toNat).1 ≠ [] := List.ne_nil_of_length_pos (by omega)
        simp [hne]
      · rintro d' hd' -
        cases hd'
        have hnd := h.holds.ndata_eq
        dsimp only
        rw [hnd,show ((m.bytes.length : ℤ) + ((r.take m.left.toNat).1.length : ℤ)).toNat =
          m.bytes.length + (r.take m.left.toNat).1.length by omega]
        exact write_apply_behind d m.bytes.length _ 0
    · exact h
    · exact h

end

theorem BufferOp.apply_remembers {s : Traced} (h : Remembers s.buffer s.last) (op : BufferOp) :
    Remembers (op.apply s).buffer (op.apply s).last := by
  cases op with
  | read alloc r => exact (h.readBlock alloc).recvInto r
  | del n => exact h.del n
  | reset => exact h.reset

theorem bufferRun_remembers (ops : List BufferOp) :
    Remembers (bufferRun ops).buffer (bufferRun ops).last := by
  apply List.foldlRecOn (motive := fun s : Traced => Remembers s.buffer s.last)
  · exact mmblockInit_remembers
  · exact fun s hs op _ => BufferOp.apply_remembers hs op

/-- `strstr` searches what the buffer held last, up to its first zero. -/
theorem Remembers.cstr_eq {m : MMBlock} {last : List UInt8} (h : Remembers m last) {d : Mem}
    (hd : m.data = some d) : cstr d 0 m.size.toNat = last.takeWhile (· ≠ 0) := by
  obtain ⟨hread,hzero,hlt⟩ := h.memory d hd
  rw [cstr_eq_takeWhile d 0 last.length m.size.toNat (by rwa [Nat.zero_add]) (by omega),hread]

/-- The search up to the first zero agrees with the search in all the data exactly when no zero stands
before the delimiter. -/
theorem firstMatch_takeWhile_iff {d q : List UInt8} (hd : 0 ∉ d) :
    firstMatch d (q.takeWhile (· ≠ 0)) = firstMatch d q ↔
      ∀ k, firstMatch d q = some k → 0 ∉ q.take k := by
  refine ⟨?_,firstMatch_takeWhile hd⟩
  intro h k hk
  rw [← h] at hk
  have hlen := firstMatch_add_length_le hk
  have hpre : q.take k = (q.takeWhile (· ≠ 0)).take k := by
    have hsplit := List.takeWhile_append_dropWhile (p := (· ≠ 0)) (l := q)
    conv_lhs => rw [← hsplit,List.take_append_of_le_length (by omega)]
  rw [hpre]
  intro hmem
  have := List.all_takeWhile (p := (· ≠ 0)) (l := q)
  simpa using List.all_eq_true.mp this 0 (List.mem_of_mem_take hmem)

namespace RecvConn
variable {s : RecvConn} {env : RecvEnv} {d : List UInt8}

/-- The search of `conn_packet_reader` has a string to search, and it returns the end of the first
delimiter in the data of the buffer, or -1 where there is none. -/
def FindsDelimiter (env : RecvEnv) (s : RecvConn) (d : List UInt8) : Prop :=
  s.buffer.data.isSome ∧ (s.connPacketReader env).2 =
    (firstMatch d s.buffer.bytes).elim (-1) fun k => (k : ℤ) + d.length

/-- A session of packets that end in the delimiter `d`, a string that is not empty, on an open connection
that is ready for the next packet. -/
structure Delimited (s : RecvConn) (d : List UInt8) : Prop where
  opened : closing s.dState = false
  ready : s.sState = S_STATE_READY
  type : s.session.packetType = PACKET_DELIMITER
  delimiter : s.session.packetDelimiter = some d
  length : s.session.packetDelimiterLength = d.length
  nonempty : d ≠ []
  string : 0 ∉ d

theorem connPacketReader_ret (h : s.Delimited d) :
    (s.connPacketReader env).2 = (s.delimiterAt d).elim (-1) fun k => (k : ℤ) + d.length := by
  have hpos : 0 < s.session.packetDelimiterLength := by
    have := List.length_pos_iff.mpr h.nonempty
    rw [h.length]
    omega
  have hlen : s.packetLen = (s.delimiterAt d).elim (-1) fun k => (k : ℤ) + d.length := by
    unfold packetLen
    dsimp only
    rw [h.type,if_neg (fun hc => hc.1 (by decide)),if_neg (fun hc => hc.1 (by decide)),
      if_pos ⟨by decide,hpos⟩,h.delimiter,Option.bind_some,h.length]
    cases s.delimiterAt d <;> rfl
  have hall : s.session.packetType &&& PACKET_ALL ≠ 0 := by
    rw [h.type]
    decide
  unfold connPacketReader
  rw [h.opened,if_neg Bool.false_ne_true,if_pos h.ready,if_neg hall,← hlen]
  dsimp only
  split_ifs <;> rfl

/-- After any operations on the buffer the delimiter is found as it should be exactly when the buffer has
memory, no zero stands before the delimiter, and an empty buffer does not show one in what it held
last. -/
theorem finds_delimiter_iff (ops : List BufferOp) (env : RecvEnv)
    (hbuffer : s.buffer = (bufferRun ops).buffer) (h : s.Delimited d) :
    s.FindsDelimiter env d ↔ s.buffer.data.isSome ∧
      (∀ k, firstMatch d s.buffer.bytes = some k → 0 ∉ s.buffer.bytes.take k) ∧
      (s.buffer.bytes = [] → firstMatch d ((bufferRun ops).last.takeWhile (· ≠ 0)) = none) := by
  have hr := bufferRun_remembers ops
  rw [← hbuffer] at hr
  generalize (bufferRun ops).last = last at *
  unfold FindsDelimiter
  rw [connPacketReader_ret h]
  apply and_congr_right
  intro hsome
  obtain ⟨b,hb⟩ := Option.isSome_iff_exists.mp hsome
  have hat : s.delimiterAt d = firstMatch d (last.takeWhile (· ≠ 0)) := by
    unfold delimiterAt
    rw [hb]
    dsimp only
    rw [hr.cstr_eq hb]
  have hinj : ∀ x y : Option ℕ, (x.elim (-1 : ℤ) fun k => (k : ℤ) + d.length) =
      (y.elim (-1) fun k => (k : ℤ) + d.length) ↔ x = y := by
    intro x y
    cases x <;> cases y <;> simp <;> omega
  rw [hinj,hat]
  by_cases hq : s.buffer.bytes = []
  · simp [hq,firstMatch,h.nonempty]
  · rw [hr.current hq,firstMatch_takeWhile_iff h.string]
    simp [hq]

/-- A connection of lines whose buffer has seen some operations. -/
def lineConn (ops : List BufferOp) : RecvConn :=
  { RecvConn.start lineSession with buffer := (bufferRun ops).buffer }

theorem lineConn_delimited (ops : List BufferOp) : (lineConn ops).Delimited [10] :=
  ⟨closing_free,rfl,rfl,rfl,rfl,by decide,by decide⟩

theorem finds_delimiter_line :
    (lineConn [.read true (.bytes [97,10])]).FindsDelimiter (socketHas []) [10] :=
  (finds_delimiter_iff [.read true (.bytes [97,10])] (socketHas []) rfl (lineConn_delimited _)).mpr
    ⟨rfl,by decide +kernel,by decide +kernel⟩

/-- A zero in front of the line feed hides it, and a line feed that has been taken out with its line is
found again in the empty buffer. -/
theorem misses_delimiter_line :
    ¬ (lineConn [.read true (.bytes [0,10])]).FindsDelimiter (socketHas []) [10] ∧
      ¬ (lineConn [.read true (.bytes [97,10]),.del 2]).FindsDelimiter (socketHas []) [10] := by
  constructor
  · intro h
    revert h
    unfold FindsDelimiter
    decide +kernel
  · intro h
    revert h
    unfold FindsDelimiter
    decide +kernel

end RecvConn

end Sbase
