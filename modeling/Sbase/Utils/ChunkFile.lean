import Sbase.Lib.Runs
import Sbase.Utils.Chunk
import Sbase.Utils.MmblockQueue

/-! A file chunk that is received into: `chunk_read_to_file` and `chunk_file_fill` with every outcome of
`open`, `recv` and the store, and what has become of the bytes. -/
namespace Sbase
open Memory Runs

/-- What `pwrite` or `write` makes of the bytes that it is given: it stores `k+1` of them, or all, or it
fails. -/
structure Store where
  accept : Option ℕ
  deriving DecidableEq, Repr

/-- The number of bytes that are stored out of `n`. -/
def Store.count (st : Store) (n : ℕ) : ℕ :=
  match st.accept with
  | some k => min (k+1) n
  | none => 0

/-- A chunk with the file that its descriptor is open on, the bytes that have been written to each file
since the chunk was set up, and those that have been taken from the socket or, as the return values say,
from the caller. -/
structure FileWorld where
  chunk : Chunk
  opened : String
  written : String → ℕ → Option UInt8
  taken : List UInt8

namespace FileWorld

/-- `chunk_file`, on a chunk in any state. -/
def start (c : Chunk) (opened file : String) (offset len : ℕ) : FileWorld :=
  ⟨chunkFile c file offset len,opened,fun _ _ => none,[]⟩

/-- `chunk_file_check`: the file is opened where no descriptor is. -/
def fileCheck (w : FileWorld) (openOk : Bool) : FileWorld :=
  if w.chunk.fd then w
  else { w with chunk := chunkFileCheck openOk w.chunk, opened := w.chunk.filename }

/-- The bytes on the file that the descriptor is open on, from the offset of the chunk on. -/
def store (w : FileWorld) (bs : List UInt8) : FileWorld :=
  { w with written := Function.update w.written w.opened fun j =>
      if w.chunk.offset ≤ j then (bs[j - w.chunk.offset]?).or (w.written w.opened j)
      else w.written w.opened j }

/-- The assignments behind a store: the offset and the rest, and the end of the file part. -/
def advance (w : FileWorld) (n received : ℕ) : FileWorld :=
  let left := w.chunk.left - n
  { w with chunk := { w.chunk with offset := w.chunk.offset + n, left := left,
                                   ndata := w.chunk.ndata + received,
                                   status := if left = 0 then CHUNK_STATUS_OVER else w.chunk.status,
                                   fd := if left = 0 then false else w.chunk.fd } }

/-- The bytes that are to be received by a call of `chunk_read_to_file`. -/
def want (w : FileWorld) : ℕ := min w.chunk.left w.chunk.bsize

/-- `chunk_read_to_file` and `chunk_read_to_file_SSL` -/
def readToFile (w : FileWorld) (openOk : Bool) (r : Recv) (st : Store) : FileWorld × ℤ :=
  match w.chunk.data with
  | some d =>
    if 0 < w.chunk.left then
      let w := w.fileCheck openOk
      if w.chunk.fd then
        let got := r.take w.want
        if 0 < got.2 then
          let n := got.1.length
          let w := { w with chunk := { w.chunk with data := some (write d 0 got.1) },
                            taken := w.taken ++ got.1 }
          let k := st.count n
          if 0 < k then ((w.store (got.1.take k)).advance n n,n) else (w,-1)
        else (w,-1)
      else (w,-1)
    else (w,-1)
  | none => (w,-1)

/-- `chunk_file_fill` -/
def fileFill (w : FileWorld) (openOk : Bool) (bs : List UInt8) (st : Store) : FileWorld × ℤ :=
  if 0 < bs.length ∧ 0 < w.chunk.left then
    let n := min w.chunk.left bs.length
    let w := w.fileCheck openOk
    if w.chunk.fd then
      let k := st.count n
      if 0 < k then
        (({ w with taken := w.taken ++ bs.take n }.store (bs.take k)).advance n 0,n)
      else (w,-1)
    else (w,-1)
  else (w,-1)

end FileWorld

/-- The calls on a file chunk, with the outcomes of the system calls in them. -/
inductive FileOp
  | read (openOk : Bool) (r : Recv) (st : Store)
  | fill (openOk : Bool) (bs : List UInt8) (st : Store)

namespace FileWorld

def apply (w : FileWorld) : FileOp → FileWorld
  | .read openOk r st => (w.readToFile openOk r st).1
  | .fill openOk bs st => (w.fileFill openOk bs st).1

/-- Nothing is lost of a part of a file of `len` bytes from `offset` on. -/
structure Stored (file : String) (offset len : ℕ) (w : FileWorld) : Prop where
  stored : ∀ j, w.written file j = if offset ≤ j then w.taken[j-offset]? else none
  offset : w.chunk.offset = offset + w.taken.length
  left : w.chunk.left + w.taken.length = len
  complete : w.chunk.status = CHUNK_STATUS_OVER ↔ w.taken.length = len

/-- The condition on a call: what `chunk_read_to_file` has received is stored to the last byte, and
`chunk_file_fill` stores all or nothing; and they store to the file of the chunk. -/
def Whole (w : FileWorld) : FileOp → Prop
  | .read openOk r st =>
    let v := w.fileCheck openOk
    w.chunk.data.isSome → 0 < w.chunk.left → v.chunk.fd → 0 < (r.take v.want).2 →
      st.count (r.take v.want).1.length = (r.take v.want).1.length ∧ v.opened = w.chunk.filename
  | .fill openOk bs st =>
    let v := w.fileCheck openOk
    let n := min w.chunk.left bs.length
    0 < n → v.chunk.fd → 0 < st.count n → st.count n = n ∧ v.opened = w.chunk.filename

/-- The invariant. -/
structure Receiving (file : String) (offset len : ℕ) (w : FileWorld) : Prop
    extends Stored file offset len w where
  filename : w.chunk.filename = file

variable {file : String} {offset len : ℕ} {w v : FileWorld} {bs : List UInt8} {k : ℕ}

/-- A call that takes nothing and stores nothing. -/
theorem Stored.same (h : Stored file offset len w) (hwritten : v.written = w.written)
    (htaken : v.taken = w.taken) (hoffset : v.chunk.offset = w.chunk.offset)
    (hleft : v.chunk.left = w.chunk.left) (hstatus : v.chunk.status = w.chunk.status) :
    Stored file offset len v := by
  refine ⟨?_,?_,?_,?_⟩
  · rw [hwritten,htaken]
    exact h.stored
  · rw [hoffset,htaken]
    exact h.offset
  · rw [hleft,htaken]
    exact h.left
  · rw [hstatus,htaken]
    exact h.complete

theorem fileCheck_stored (h : Stored file offset len w) (openOk : Bool) :
    Stored file offset len (w.fileCheck openOk) := by
  rw [fileCheck]
  split_ifs
  · exact h
  · refine h.same rfl rfl ?_ ?_ ?_ <;> dsimp only [chunkFileCheck] <;> split_ifs <;> rfl

theorem fileCheck_filename (w : FileWorld) (openOk : Bool) :
    (w.fileCheck openOk).chunk.filename = w.chunk.filename := by
  rw [fileCheck]
  split_ifs
  · rfl
  · dsimp only
    rw [chunkFileCheck]
    split_ifs
    rfl

theorem fileCheck_chunk (w : FileWorld) (openOk : Bool) :
    (w.fileCheck openOk).chunk = chunkFileCheck openOk w.chunk := by
  rw [fileCheck]
  split_ifs with hfd
  · rw [chunkFileCheck,if_pos hfd]
  · rfl

/-- A store that fails, as on the descriptor that `chunk_file_check` opens for reading only. -/
theorem readToFile_readonly (w : FileWorld) (openOk : Bool) (r : Recv) :
    (w.readToFile openOk r ⟨none⟩).1.chunk = (chunkReadToFile openOk w.chunk r).1 ∧
      (w.readToFile openOk r ⟨none⟩).2 = (chunkReadToFile openOk w.chunk r).2.2 := by
  have hcheck := fileCheck_chunk w openOk
  have hwant : (w.fileCheck openOk).want = min w.chunk.left w.chunk.bsize := by
    rw [want,hcheck,chunkFileCheck]
    split_ifs <;> rfl
  rw [readToFile,chunkReadToFile,← hcheck,← hwant]
  cases w.chunk.data with
  | none => exact ⟨rfl,rfl⟩
  | some d =>
    dsimp only
    split_ifs
    · rename_i hcount
      cases hcount
    all_goals exact ⟨rfl,rfl⟩

theorem fileFill_readonly (w : FileWorld) (openOk : Bool) (bs : List UInt8) :
    (w.fileFill openOk bs ⟨none⟩).1.chunk = (chunkFileFill openOk w.chunk bs).1 ∧
      (w.fileFill openOk bs ⟨none⟩).2 = (chunkFileFill openOk w.chunk bs).2 := by
  rw [fileFill,chunkFileFill,← fileCheck_chunk]
  dsimp only
  split_ifs
  · rename_i hcount
    cases hcount
  all_goals exact ⟨rfl,rfl⟩

/-- Bytes that are taken and of which `k` are stored: nothing is lost where all of them are, in the file of
the chunk. -/
theorem stored_iff (h : Stored file offset len w) (hbs : bs ≠ []) (hle : bs.length ≤ w.chunk.left)
    (hk : k ≤ bs.length) (received : ℕ) :
    Stored file offset len (({ w with taken := w.taken ++ bs }.store (bs.take k)).advance bs.length received) ↔
      k = bs.length ∧ w.opened = file := by
  have hpos := List.length_pos_of_ne_nil hbs
  have hoffset := h.offset
  have hleft := h.left
  constructor
  · intro hnew
    have hstored : ∀ i (hi : i < bs.length), Function.update w.written w.opened (fun j =>
        if w.chunk.offset ≤ j then ((bs.take k)[j - w.chunk.offset]?).or (w.written w.opened j)
        else w.written w.opened j) file (w.chunk.offset + i) = some bs[i] := by
      intro i hi
      have hj := hnew.stored (w.chunk.offset + i)
      have hsub : w.chunk.offset + i - offset = w.taken.length + i := by omega
      rw [if_pos (by omega),hsub] at hj
      refine hj.trans ?_
      change (w.taken ++ bs)[w.taken.length + i]? = _
      rw [List.getElem?_append_right (by omega),Nat.add_sub_cancel_left,List.getElem?_eq_getElem hi]
    have hold : ∀ i, w.written file (w.chunk.offset + i) = none := by
      intro i
      rw [h.stored,if_pos (by omega),List.getElem?_eq_none (by omega)]
    have hopened : w.opened = file := by
      by_contra hne
      have hfirst := hstored 0 hpos
      rw [Function.update_of_ne (Ne.symm hne),hold] at hfirst
      cases hfirst
    refine ⟨?_,hopened⟩
    by_contra hne
    have hlast := hstored k (by omega)
    rw [hopened,Function.update_self,if_pos (by omega),Nat.add_sub_cancel_left,
      List.getElem?_eq_none (by rw [List.length_take]; omega),Option.none_or,hold] at hlast
    cases hlast
  · intro ⟨hall,hopened⟩
    subst hall
    have hlength : (w.taken ++ bs).length = w.taken.length + bs.length := List.length_append
    refine ⟨?_,?_,?_,?_⟩
    · intro j
      change Function.update w.written w.opened _ file j = if offset ≤ j then (w.taken ++ bs)[j-offset]? else none
      rw [hopened,Function.update_self,List.take_length,h.stored]
      dsimp only
      split_ifs with hcur hoff
      · have hold : w.taken[j-offset]? = none := List.getElem?_eq_none (by omega)
        have hsub : j - offset - w.taken.length = j - w.chunk.offset := by omega
        rw [List.getElem?_append_right (by omega),hold,Option.or_none,hsub]
      · omega
      · rw [List.getElem?_append_left (by omega)]
      · rfl
    · change w.chunk.offset + bs.length = offset + (w.taken ++ bs).length
      omega
    · change w.chunk.left - bs.length + (w.taken ++ bs).length = len
      omega
    · change (if w.chunk.left - bs.length = 0 then CHUNK_STATUS_OVER else w.chunk.status) =
        CHUNK_STATUS_OVER ↔ (w.taken ++ bs).length = len
      have hover := h.complete
      split_ifs with hzero
      · exact ⟨fun _ => by omega,fun _ => rfl⟩
      · rw [hover,hlength]
        omega

theorem Store.count_le (st : Store) (n : ℕ) : st.count n ≤ n := by
  rw [Store.count]
  cases st.accept with
  | none => exact Nat.zero_le n
  | some k => exact Nat.min_le_right _ _

/-- Bytes that are taken while the chunk stays where it is are lost. -/
theorem not_stored (h : Stored file offset len w) (hoffset : v.chunk.offset = w.chunk.offset)
    (htaken : v.taken = w.taken ++ bs) (hbs : bs ≠ []) : ¬ Stored file offset len v := by
  intro hnew
  have hpos := List.length_pos_of_ne_nil hbs
  have hold := h.offset
  have hlength := hnew.offset
  rw [hoffset,htaken,List.length_append] at hlength
  omega

theorem read_iff (h : Receiving file offset len w) (openOk : Bool) (r : Recv) (st : Store) :
    Stored file offset len (w.readToFile openOk r st).1 ↔ Whole w (.read openOk r st) := by
  have hcheck := fileCheck_stored h.toStored openOk
  rw [readToFile,Whole,h.filename]
  dsimp only
  generalize w.fileCheck openOk = v at hcheck
  cases w.chunk.data with
  | none => exact iff_of_true h.toStored fun hsome => by cases hsome
  | some d =>
    dsimp only
    by_cases hleft : 0 < w.chunk.left
    · rw [if_pos hleft]
      by_cases hfd : v.chunk.fd
      · rw [if_pos hfd]
        by_cases hgot : 0 < (r.take v.want).2
        · obtain ⟨hlength,hle⟩ := r.take_length hgot
          rw [if_pos hgot]
          have hwhole : ∀ p : Prop, (true → 0 < w.chunk.left → v.chunk.fd → 0 < (r.take v.want).2 → p) ↔ p :=
            fun p => ⟨fun hall => hall rfl hleft hfd hgot,fun hp _ _ _ _ => hp⟩
          refine Iff.trans ?_ (hwhole _).symm
          generalize (r.take v.want).1 = bs at hlength hle
          have hbs : bs ≠ [] := by
            intro hnil
            rw [hnil,List.length_nil] at hlength
            omega
          by_cases hk : 0 < st.count bs.length
          · rw [if_pos hk]
            have hv : Stored file offset len
                { v with chunk := { v.chunk with data := some (write d 0 bs) } } :=
              hcheck.same rfl rfl rfl rfl rfl
            exact stored_iff hv hbs (hle.trans (Nat.min_le_left _ _)) (Store.count_le st _) bs.length
          · rw [if_neg hk]
            have hpos := List.length_pos_of_ne_nil hbs
            exact iff_of_false (not_stored hcheck rfl (show _ = v.taken ++ bs from rfl) hbs) fun hall => by omega
        · rw [if_neg hgot]
          exact iff_of_true hcheck fun _ _ _ hpos => absurd hpos hgot
      · rw [if_neg hfd]
        exact iff_of_true hcheck fun _ _ hopen => absurd hopen hfd
    · rw [if_neg hleft]
      exact iff_of_true h.toStored fun _ hpos => absurd hpos hleft

theorem fileCheck_left (w : FileWorld) (openOk : Bool) :
    (w.fileCheck openOk).chunk.left = w.chunk.left := by
  rw [fileCheck]
  split_ifs
  · rfl
  · dsimp only [chunkFileCheck]
    split_ifs
    rfl

theorem fill_iff (h : Receiving file offset len w) (openOk : Bool) (bs : List UInt8) (st : Store) :
    Stored file offset len (w.fileFill openOk bs st).1 ↔ Whole w (.fill openOk bs st) := by
  have hcheck := fileCheck_stored h.toStored openOk
  have hleft := fileCheck_left w openOk
  rw [fileFill,Whole,h.filename]
  dsimp only
  generalize w.fileCheck openOk = v at hcheck hleft
  have hlength : (bs.take (min w.chunk.left bs.length)).length = min w.chunk.left bs.length := by
    rw [List.length_take]
    omega
  by_cases hn : 0 < min w.chunk.left bs.length
  · rw [if_pos (by omega)]
    have hle : min w.chunk.left bs.length ≤ v.chunk.left := hleft.symm ▸ Nat.min_le_left _ _
    generalize min w.chunk.left bs.length = n at hn hlength hle
    by_cases hfd : v.chunk.fd
    · rw [if_pos hfd]
      by_cases hk : 0 < st.count n
      · rw [if_pos hk]
        have hwhole : ∀ p : Prop, (0 < n → v.chunk.fd → 0 < st.count n → p) ↔ p :=
          fun p => ⟨fun hall => hall hn hfd hk,fun hp _ _ _ => hp⟩
        refine Iff.trans ?_ (hwhole _).symm
        have hcount := Store.count_le st n
        have hne : bs.take n ≠ [] := List.ne_nil_of_length_pos (by omega)
        have hiff := stored_iff hcheck hne (hlength.trans_le hle) (hcount.trans_eq hlength.symm) 0
        rw [hlength,List.take_take,Nat.min_eq_left hcount] at hiff
        exact hiff
      · rw [if_neg hk]
        exact iff_of_true hcheck fun _ _ hpos => absurd hpos hk
    · rw [if_neg hfd]
      exact iff_of_true hcheck fun _ hopen => absurd hopen hfd
  · rw [if_neg (by omega)]
    exact iff_of_true h.toStored fun hpos => absurd hpos hn

theorem apply_filename (w : FileWorld) (op : FileOp) : (w.apply op).chunk.filename = w.chunk.filename := by
  cases op with
  | read openOk r st =>
    have hcheck := fileCheck_filename w openOk
    change (w.readToFile openOk r st).1.chunk.filename = _
    rw [readToFile]
    cases w.chunk.data with
    | none => rfl
    | some d =>
      dsimp only
      split_ifs <;> first | rfl | exact hcheck
  | fill openOk bs st =>
    have hcheck := fileCheck_filename w openOk
    change (w.fileFill openOk bs st).1.chunk.filename = _
    rw [fileFill]
    dsimp only
    split_ifs <;> first | rfl | exact hcheck

theorem stored_step_iff (h : Receiving file offset len w) (op : FileOp) :
    Stored file offset len (w.apply op) ↔ Whole w op := by
  cases op with
  | read openOk r st => exact read_iff h openOk r st
  | fill openOk bs st => exact fill_iff h openOk bs st

theorem start_receiving (c : Chunk) (opened file : String) (offset : ℕ) {len : ℕ} (hlen : 0 < len) :
    Receiving file offset len (start c opened file offset len) := by
  rw [start,chunkFile,if_pos hlen]
  refine ⟨⟨?_,rfl,rfl,?_⟩,rfl⟩
  · intro j
    split_ifs <;> rfl
  · constructor
    · intro hstatus
      cases hstatus
    · intro hzero
      change 0 = len at hzero
      omega

/-- Over any sequence of calls with any outcomes, nothing is lost in any state exactly where what each call
receives is stored to the last byte, what it is given is stored to the last byte or not at all, and the
descriptor is on the file of the chunk. -/
theorem file_receive_iff (c : Chunk) (opened file : String) (offset : ℕ) {len : ℕ} (hlen : 0 < len)
    (ops : List FileOp) :
    (∀ ks, ks <+: ops → Stored file offset len (ks.foldl apply (start c opened file offset len))) ↔
      Allowed Whole apply (start c opened file offset len) ops := by
  apply always_iff_allowed (I := Receiving file offset len)
  · exact fun _ h => h.toStored
  · exact fun w op h hop => ⟨(stored_step_iff h op).mpr hop,(apply_filename w op).trans h.filename⟩
  · exact fun _ op h hop hnew => hop ((stored_step_iff h op).mp hnew)
  · exact start_receiving c opened file offset hlen

/-- A block of two bytes without a descriptor. -/
def upload : Chunk := { chunkInit with data := some fun _ => 0, bsize := 2 }

/-- All bytes of a part of two bytes are stored. -/
theorem file_receive_whole : Stored "f" 0 2 ([FileOp.read true (.bytes [1]) ⟨some 0⟩,
    .fill true [2] ⟨some 0⟩].foldl apply (start upload "" "f" 0 2)) :=
  (file_receive_iff upload "" "f" 0 (by decide) [.read true (.bytes [1]) ⟨some 0⟩,.fill true [2] ⟨some 0⟩]).mpr
    ⟨fun _ _ _ _ => ⟨rfl,rfl⟩,fun _ _ _ => ⟨rfl,rfl⟩,trivial⟩ _ (List.prefix_refl _)

/-- The descriptor is open for reading, so that the store fails, and the byte is gone. -/
theorem file_receive_dropped : ¬ Stored "f" 0 2 ([FileOp.read true (.bytes [1]) ⟨none⟩].foldl apply
    (start upload "" "f" 0 2)) := by
  intro h
  have hoffset := h.offset
  cases hoffset

end FileWorld

end Sbase
