import Sbase.Lib.Framing
import Sbase.Utils.MmblockString
import Sbase.Conn.RecvSteps

/-! The packets and chunks of a session as the frames of its stream, and the search of
`conn_packet_reader` as that rule on the bytes in the buffer. -/
namespace Sbase
open Memory Framing

/-- What the stream goes on with: a packet, or a chunk of `n` bytes that belongs to a packet. -/
inductive Mode
  | packet
  | chunk (packet : List UInt8) (n : ℕ)

/-- What a handler's choice makes of the stream behind the data it was given. -/
def Mode.after (packet : List UInt8) : Choice → Mode
  | .recvChunk n => .chunk packet n
  | _ => .packet

/-- To finish, or to receive a chunk. -/
def Choice.Plain : Choice → Prop
  | .finish => True
  | .recvChunk n => 0 < n
  | _ => False

namespace Session

/-- The length of the packet at the front of a stream: the fixed length, or up to the end of the
first delimiter. -/
def frameLen (s : Session) (bs : List UInt8) : Option ℕ :=
  if s.packetType = PACKET_CERTAIN_LENGTH then
    if 0 < s.packetLength ∧ s.packetLength ≤ bs.length then some s.packetLength.toNat else none
  else
    s.packetDelimiter.bind fun d =>
      if d = [] then none else (firstMatch d bs).map (· + d.length)

/-- What follows a packet. -/
def afterPacket (s : Session) (packet : List UInt8) : Mode :=
  s.packetHandler.elim .packet fun handler => .after packet (handler packet)

/-- What follows a chunk. -/
def afterChunk (s : Session) (packet chunk : List UInt8) : Mode :=
  s.dataHandler.elim .packet fun handler => .after packet (handler packet chunk)

def next (s : Session) : Mode → List UInt8 → Option (Handed × Mode × ℕ)
  | .packet, bs =>
    (s.frameLen bs).map fun n => (.packet (bs.take n), s.afterPacket (bs.take n), n)
  | .chunk packet n, bs =>
    if 0 < n ∧ n ≤ bs.length then some (.chunk (bs.take n), s.afterChunk packet (bs.take n), n)
    else none

variable {s : Session} {bs ys : List UInt8} {n : ℕ}

theorem frameLen_bounds (h : s.frameLen bs = some n) : 0 < n ∧ n ≤ bs.length := by
  unfold frameLen at h
  split_ifs at h with ht hl
  · cases h
    omega
  · obtain ⟨d, hd, h⟩ := Option.bind_eq_some_iff.mp h
    split_ifs at h with hnil
    obtain ⟨k, hk, rfl⟩ := Option.map_eq_some_iff.mp h
    have hle := firstMatch_add_length_le hk
    have hpos := List.length_pos_iff.mpr hnil
    omega

theorem frameLen_append (h : s.frameLen bs = some n) (ys : List UInt8) :
    s.frameLen (bs ++ ys) = some n := by
  unfold frameLen at h ⊢
  by_cases ht : s.packetType = PACKET_CERTAIN_LENGTH
  · rw [if_pos ht] at h ⊢
    split_ifs at h with hl
    rw [if_pos ⟨hl.1, by rw [List.length_append]; omega⟩]
    exact h
  · rw [if_neg ht] at h ⊢
    obtain ⟨d, hd, h⟩ := Option.bind_eq_some_iff.mp h
    split_ifs at h with hnil
    obtain ⟨k, hk, rfl⟩ := Option.map_eq_some_iff.mp h
    rw [hd, Option.bind_some, if_neg hnil, firstMatch_append hk ys]
    rfl

/-- The rule that cuts the stream of a session into packets and chunks. -/
def deframer (s : Session) : Deframer Mode UInt8 Handed where
  next := s.next
  taken := by
    intro m xs f m' n h
    cases m with
    | packet =>
      obtain ⟨k, hk, heq⟩ := Option.map_eq_some_iff.mp h
      cases heq
      exact frameLen_bounds hk
    | chunk packet k =>
      simp only [next] at h
      split_ifs at h with hk
      cases h
      exact hk
  stable := by
    intro m xs r h ys
    cases m with
    | packet =>
      obtain ⟨k, hk, rfl⟩ := Option.map_eq_some_iff.mp h
      have hle := (frameLen_bounds hk).2
      simp only [next, frameLen_append hk ys, Option.map_some, List.take_append_of_le_length hle]
    | chunk packet k =>
      simp only [next] at h ⊢
      split_ifs at h with hk
      cases h
      rw [if_pos ⟨hk.1, by rw [List.length_append]; omega⟩, List.take_append_of_le_length hk.2]

/-- Sessions of delimited packets or of packets of a certain length, whose handlers finish or receive
chunks. The delimiter is a C string. -/
structure Framed (s : Session) : Prop where
  rule : (s.packetType = PACKET_CERTAIN_LENGTH ∧ 0 < s.packetLength) ∨
    (s.packetType = PACKET_DELIMITER ∧ ∃ d, s.packetDelimiter = some d ∧ d ≠ [] ∧ 0 ∉ d ∧
      s.packetDelimiterLength = d.length)
  quick : s.quickHandler = none
  packets : ∃ handler, s.packetHandler = some handler ∧ ∀ bs, (handler bs).Plain
  chunks : ∃ handler, s.dataHandler = some handler ∧ ∀ bs cs, (handler bs cs).Plain

/-- No zero byte stands in front of the first delimiter of the data. -/
def Clear (s : Session) (q : List UInt8) : Prop :=
  s.packetType = PACKET_DELIMITER →
    ∀ d k, s.packetDelimiter = some d → firstMatch d q = some k → 0 ∉ q.take k

end Session

namespace RecvConn

/-- A buffer that has been emptied does not show a delimiter among its old bytes. -/
def NotStale (s : RecvConn) : Prop :=
  s.session.packetType = PACKET_DELIMITER → s.buffer.ndata = 0 →
    ∀ d, s.session.packetDelimiter = some d → s.delimiterAt d = none

/-- The packet at the front of the data `q` fits into the block for packets. -/
def PacketFits (s : RecvConn) (q : List UInt8) : Prop :=
  ∀ n, s.session.frameLen q = some n → PushFits (mmblockReset s.packet) n

variable {s : RecvConn} {q : List UInt8}

/-- `strstr` on the buffer finds the first delimiter of the data. -/
theorem delimiterAt_eq {d : List UInt8} (h : Holds s.buffer q) (ht : Terminated s.buffer)
    (hnil : d ≠ []) (hzero : 0 ∉ d) (hstale : q = [] → s.delimiterAt d = none)
    (hclear : ∀ k, firstMatch d q = some k → 0 ∉ q.take k) :
    s.delimiterAt d = firstMatch d q := by
  by_cases hq : q = []
  · rw [hstale hq, hq]
    simp [firstMatch, hnil]
  · obtain ⟨m, hm, -⟩ := h.nonempty hq
    unfold delimiterAt
    rw [hm]
    dsimp only
    rw [h.cstr_eq ht hq hm, firstMatch_takeWhile hzero hclear]

/-- `conn_packet_reader` finds the packet at the front of the data. -/
theorem packetLen_eq (hf : s.session.Framed) (h : Holds s.buffer q) (ht : Terminated s.buffer)
    (hstale : q = [] → s.NotStale) (hclear : s.session.Clear q) :
    s.packetLen = (s.session.frameLen q).elim (-1) Nat.cast := by
  have hnd := h.ndata_eq
  unfold packetLen Session.frameLen
  dsimp only
  obtain ⟨htype, hlen⟩ | ⟨htype, d, hd, hnil, hzero, hdlen⟩ := hf.rule
  · rw [htype, if_neg (fun hc => hc.1 (by decide)), if_pos rfl]
    by_cases hle : s.session.packetLength ≤ q.length
    · rw [if_pos ⟨by decide, hnd ▸ hle⟩, if_pos ⟨hlen, hle⟩]
      exact (Int.toNat_of_nonneg hlen.le).symm
    · rw [if_neg fun hc => hle (hnd ▸ hc.2), if_neg fun hc => hc.1 (by decide),
        if_neg fun hc => hle hc.2]
      rfl
  · have hpos : 0 < s.session.packetDelimiterLength := by
      have := List.length_pos_iff.mpr hnil
      omega
    have hat := delimiterAt_eq h ht hnil hzero
      (fun hq => hstale hq htype (by rw [hnd, hq]; rfl) d hd) fun k hk => hclear htype d k hd hk
    rw [htype, if_neg (fun hc => hc.1 (by decide)), if_neg (fun hc => hc.1 (by decide)),
      if_pos ⟨by decide, hpos⟩, if_neg (by decide), hd, Option.bind_some, Option.bind_some, hat,
      if_neg hnil]
    cases firstMatch d q with
    | none => rfl
    | some k =>
      rw [hdlen]
      exact (Nat.cast_add k d.length).symm

end RecvConn

end Sbase
