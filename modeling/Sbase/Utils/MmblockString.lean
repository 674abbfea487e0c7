import Sbase.Utils.MmblockQueue

/-! An `MMBLOCK` with data as a C string: a read leaves a zero behind the data, a deletion of part of
it keeps one there, and only a block that was emptied shows what it held before. -/
namespace Sbase
open Memory

/-- The byte behind the data is zero, where there is data. -/
def Terminated (m : MMBlock) : Prop := ∀ d, m.data = some d → 0 < m.ndata → d m.ndata.toNat = 0

section
variable {m : MMBlock} {q : List UInt8}

theorem Holds.nonempty (h : Holds m q) (hq : q ≠ []) :
    ∃ d, m.data = some d ∧ read d 0 q.length = q := by
  cases hd : m.data with
  | none => exact absurd (h.nil_of_none hd) hq
  | some d =>
    have hb := h.bytes_eq
    simp only [MMBlock.bytes, hd, h.ndata_eq, Int.toNat_natCast] at hb
    exact ⟨d, rfl, hb⟩

theorem mmblockRead_terminated (h : Holds m q) {r : Recv} (hret : 0 < (mmblockRead true m r).2) :
    Terminated (mmblockRead true m r).1 := by
  obtain ⟨hb, hleft, hsome⟩ := readBlock_holds h
  obtain ⟨d, hd⟩ := Option.isSome_iff_exists.mp hsome
  have hend : (readBlock true m).end = some q.length := by rw [hb.end_eq, hd]; rfl
  have hnd := hb.ndata_eq
  unfold mmblockRead at hret ⊢
  generalize readBlock true m = m' at *
  simp only [recvInto, hd, hend, hleft, if_true] at hret ⊢
  split_ifs at hret ⊢ with hpos
  · obtain ⟨hlen, -⟩ := r.take_length hpos
    rintro d' hd' -
    cases hd'
    dsimp only
    rw [hnd, ← hlen, show ((q.length : ℤ) + ((r.take m'.left.toNat).1.length : ℤ)).toNat =
      q.length + (r.take m'.left.toNat).1.length by omega]
    exact write_apply_behind d q.length _ 0
  · exact absurd hret hpos

theorem mmblockDel_terminated (h : Holds m q) (ht : Terminated m) (n : ℤ) :
    Terminated (mmblockDel m n).1 := by
  have hnd := h.ndata_eq
  unfold mmblockDel
  split_ifs with hn hle
  · exact fun d hd hpos => absurd hpos (lt_irrefl 0)
  · cases hd : m.data with
    | none => exact fun d hd' => absurd hd' (by simp [hd])
    | some d =>
      have hend : m.end = some q.length := by rw [h.end_eq, hd]; rfl
      simp only [hend]
      rintro d' hd' -
      cases hd'
      dsimp only
      rw [show (m.ndata - n).toNat = q.length - n.toNat by omega]
      exact write_apply_behind _ _ [] 0
  · exact ht

/-- `strstr` on a block with data searches the data up to its first zero. -/
theorem Holds.cstr_eq {d : Mem} (h : Holds m q) (ht : Terminated m) (hq : q ≠ [])
    (hd : m.data = some d) : cstr d 0 m.size.toNat = q.takeWhile (· ≠ 0) := by
  obtain ⟨d', hd', hread⟩ := h.nonempty hq
  cases hd.symm.trans hd'
  have hnd := h.ndata_eq
  have hlen := List.length_pos_iff.mpr hq
  have hsize := (h.data_some d hd).1
  rw [cstr_eq_takeWhile d 0 q.length m.size.toNat ?_ (by omega), hread]
  have hzero := ht d hd (by omega)
  rwa [hnd, Int.toNat_natCast, ← Nat.zero_add q.length] at hzero

end

end Sbase
