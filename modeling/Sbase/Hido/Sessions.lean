import Sbase.Hido.KeyedDelete

/-! The block store across restarts: a directory that is opened again, in either mode, and the calls that
read a record or a part of it, by its id or by its key.

The lengths and the offsets of the callers are not negative. -/
namespace Sbase
open Runs

/-! ### Opening a directory again -/

/-- `db_init` in the directory that a store has left, with `db_clean` or without it. -/
def dbReopen (db : Db Mtrie) (isMmap : Bool) : Db Mtrie :=
  { db with
    isMmap := isMmap
    dbsio := fun i =>
      let file := db.dbsio i
      if i ≤ db.lastId then ⟨isMmap,if file.size = 0 then DB_MFILE_SIZE else file.size,file.bytes⟩
      else ⟨false,0,file.bytes⟩ }

/-! ### Reading -/

/-- `db_get_data_len` -/
def dbGetDataLen (db : Db Mtrie) (id : ℤ) : Db Mtrie × ℤ :=
  if 0 ≤ id then
    let db := db.checkDbxio id.toNat
    (db,(db.dbx id.toNat).ndata)
  else (db,-1)

/-- The end of `db_pread_data` and `db_xpread_data`: `memcpy` of no bytes is done, `read` of none is not. -/
def Db.pread (db : Db Mtrie) (d : Dbx) (len off : ℕ) : Option (List UInt8) :=
  if nonneg d.blockid ∧ 0 < d.ndata ∧ off < d.ndata then
    let n := min len (d.ndata-off)
    let data := db.readFile d.index (d.blockid*DB_PAGE_SIZE+off) n
    if db.isMmap ∧ (db.dbsio d.index).map then some data else if 0 < n then some data else none
  else none

/-- `db_pread_data`; no bytes where it returns `-1`. -/
def dbPreadData (db : Db Mtrie) (id : ℤ) (len off : ℕ) : Option (List UInt8) :=
  if 0 ≤ id ∧ id.toNat < db.dbxEnd then db.pread (db.dbx id.toNat) len off else none

/-- The record that a call with a key reads, if the key has an id. There is no result where that is behind
the end of the file of records. -/
def Db.keyed (db : Db Mtrie) (key : List UInt8) : Option (Option Dbx) :=
  let id := mmtrieGet db.kmap key
  if 0 < id then if id.toNat < db.dbxEnd then some (some (db.dbx id.toNat)) else none else some none

/-- `db_xget_data_len` -/
def dbXgetDataLen (db : Db Mtrie) (key : List UInt8) : Option ℤ :=
  (db.keyed key).map fun r => r.elim (-1) fun d => d.ndata

/-- `db_xread_data`; no bytes where it returns `-1`. -/
def dbXreadData (db : Db Mtrie) (key : List UInt8) : Option (Option (List UInt8)) :=
  if key ≠ [] then
    (db.keyed key).map fun r => r.bind fun d =>
      if nonneg d.blockid ∧ 0 < d.ndata then some (db.readFile d.index (d.blockid*DB_PAGE_SIZE) d.ndata)
      else none
  else some none

/-- `db_xpread_data`; no bytes where it returns `-1`. -/
def dbXpreadData (db : Db Mtrie) (key : List UInt8) (len off : ℕ) : Option (Option (List UInt8)) :=
  if key ≠ [] then (db.keyed key).map fun r => r.bind fun d => db.pread d len off else some none

/-! ### Runs -/

/-- The calls, and the restarts of the program. -/
inductive SessionOp
  | call (op : KeyedOp)
  | reopen (isMmap : Bool)

namespace SessionOp

/-- A restart leaves the bytes and the ids as they were given. -/
def step (w : KeyedDb) : SessionOp → Option KeyedDb
  | call op => op.step w
  | reopen isMmap => some ⟨dbReopen w.db isMmap,w.bytes,w.ids⟩

/-- A call fits as before, and leaves the counters of the trie within an `int`. -/
def Fits (w : KeyedDb) : SessionOp → Prop
  | call op => op.Fits w ∧ ∀ w', op.step w = some w' → ¬ w'.db.kmap.Overflowed
  | reopen _ => True

end SessionOp

/-- A part of the bytes of an id in a map. -/
def readingPart (m : ℕ → List UInt8) (id : ℤ) (len off : ℕ) : Option (List UInt8) :=
  if 0 ≤ id ∧ off < (m id.toNat).length then some (((m id.toNat).drop off).take len) else none

namespace KeyedDb

/-- The calls that read by id return the bytes of the map. -/
structure ReadsIds (w : KeyedDb) : Prop where
  get : ∀ id, (dbGetData w.db id).2 = reading w.bytes id
  read : ∀ id, dbReadData w.db id = reading w.bytes id
  len : ∀ id, (dbGetDataLen w.db id).2 = if 0 ≤ id then ((w.bytes id.toNat).length : ℤ) else -1
  pread : ∀ id len off, 0 < len → dbPreadData w.db id len off = readingPart w.bytes id len off

/-- The calls that read by a key return the bytes of an id. -/
structure ReadsKey (w : KeyedDb) (key : List UInt8) (id : ℕ) : Prop where
  get : (dbXgetData w.db key).map (fun r => r.2.1) = some (reading w.bytes id)
  read : dbXreadData w.db key = some (reading w.bytes id)
  len : dbXgetDataLen w.db key = some ((w.bytes id).length : ℤ)
  pread : ∀ len off, 0 < len → dbXpreadData w.db key len off = some (readingPart w.bytes id len off)

/-- The calls that read by a key find nothing. -/
structure ReadsNothing (w : KeyedDb) (key : List UInt8) : Prop where
  read : dbXreadData w.db key = some none
  len : dbXgetDataLen w.db key = some (-1)
  pread : ∀ len off, dbXpreadData w.db key len off = some none

end KeyedDb

variable {db : Db Mtrie} {m : ℕ → List UInt8} {w : KeyedDb} {key : List UInt8}

/-! ### Restarts -/

/-- A directory that is opened again has the same records, whatever the mode. -/
theorem Db.Refines.reopen (h : db.Refines m) (isMmap : Bool) : (dbReopen db isMmap).Refines m := by
  have hsound := h.sound
  have hsame : Db.SameOutside ∅ db (dbReopen db isMmap) := by
    intro i o _
    unfold dbReopen
    dsimp only
    split_ifs <;> rfl
  have hfree : (dbReopen db isMmap).freeBlocks = db.freeBlocks := by
    funext x
    exact hsame.freeBlocks rfl fun b _ => Set.notMem_empty b
  have hpool : (dbReopen db isMmap).pool (withHand ⟨0,0,0,0⟩ db.dbx) = db.pool (withHand ⟨0,0,0,0⟩ db.dbx) := by
    unfold Db.pool
    rw [hfree]
    rfl
  refine ⟨⟨?_,hsound.bin,hsound.off,?_,hsound.last,hsound.whole,hsound.fits,?_⟩,h.ends⟩
  · change ((dbReopen db isMmap).pool (withHand ⟨0,0,0,0⟩ db.dbx)).Sound filePages
    rw [hpool]
    exact hsound.pool
  · intro i hi
    have hsize := hsound.size i hi
    unfold dbReopen
    dsimp only
    rw [if_pos (show i ≤ db.lastId from hi),hsize]
    rfl
  · intro o
    exact (hsame.content (Set.disjoint_empty _) (hsound.whole o) (hsound.fits o)).trans (hsound.content o)

namespace KeyedDb.Kept

theorem session {w' : KeyedDb} {op : SessionOp} (h : w.Kept) (hfits : op.Fits w) (hstep : op.step w = some w') :
    w'.Kept := by
  cases op with
  | call op => exact h.step hfits.1 hstep
  | reopen isMmap =>
    cases hstep
    exact ⟨h.refines.reopen isMmap,h.keys⟩

theorem sessions {isMmap : Bool} {ops : List SessionOp}
    (h : Run (Guarded SessionOp.Fits (ofPartial fun w op => op.step w)) (KeyedDb.init isMmap) ops w) : w.Kept :=
  h.invariant KeyedDb.Kept (init isMmap) fun _ _ _ hw hstep => hw.session hstep.1 hstep.2

end KeyedDb.Kept

/-! ### Parts of records -/

/-- The part of a record, as that of the bytes it has. -/
theorem Db.Refines.pread (h : db.Refines m) (id : ℕ) {len : ℕ} (hlen : 0 < len) (off : ℕ) :
    db.pread (db.dbx id) len off = readingPart m id len off := by
  have hcontent : db.readFile (db.dbx id).index ((db.dbx id).blockid*DB_PAGE_SIZE) (db.dbx id).ndata = m id :=
    h.sound.content (some id)
  unfold Db.pread readingPart
  rw [Int.toNat_natCast,← h.length id]
  by_cases hoff : off < (db.dbx id).ndata
  · have hblockid := h.blockid (Nat.zero_lt_of_lt hoff)
    have hpos := Nat.zero_lt_of_lt hoff
    have hn : 0 < min len ((db.dbx id).ndata-off) := by omega
    have hrest : (m id).drop off = db.readFile (db.dbx id).index
        ((db.dbx id).blockid*DB_PAGE_SIZE+off) ((db.dbx id).ndata-off) := by
      rw [← hcontent]
      nth_rewrite 1 [← Nat.add_sub_cancel' hoff.le]
      exact Memory.drop_read ..
    have hpart : db.readFile (db.dbx id).index ((db.dbx id).blockid*DB_PAGE_SIZE+off)
        (min len ((db.dbx id).ndata-off)) = ((m id).drop off).take len := by
      rw [List.take_eq_take_min,hrest]
      unfold Db.readFile
      rw [Memory.read_length,Memory.take_read _ _ (min_le_right ..)]
    simp only [hpart,hblockid,hpos,hoff,if_pos hn,ite_self,Int.natCast_nonneg,and_self,if_true]
  · simp only [hoff,and_false,if_false]

/-- A record behind the end of the file of records has no bytes. -/
theorem Db.Refines.lt_dbxEnd {id : ℕ} (h : db.Refines m) (hbytes : m id ≠ []) : id < db.dbxEnd := by
  by_contra hend
  have hnone := h.ends id (not_lt.mp hend)
  rw [h.length] at hnone
  exact hbytes (List.eq_nil_of_length_eq_zero hnone)

/-- `mmtrie_get` of a key without an id that is not a byte and a zero behind it. -/
theorem KeysKept.get_nonpos {t : Mtrie} {a : KeyMap} (h : KeysKept t a) (hk : a.value key = 0)
    (hzero : ∀ c, key ≠ [c,0]) : mmtrieGet t key ≤ 0 := by
  cases key with
  | nil => exact neg_one_lt_zero.le
  | cons c bs =>
    cases bs with
    | nil => rw [mmtrieGet,if_pos ⟨rfl,h.mapped.total c⟩,h.mapped.stores.ends (.root c),hk]
    | cons b bs =>
      rw [mmtrieGet,if_neg fun hcond => List.cons_ne_nil _ _ hcond.1]
      have hroot : (t.nodes c.toNat).nchilds = 0 → b::bs ≠ [0] := fun _ hbs => hzero c (by rw [hbs])
      rcases h.mapped.finds hroot with ⟨j,hj,hends⟩ | ⟨hfound,-⟩
      · rw [hj]
        change (t.nodes j).data ≤ 0
        rw [h.mapped.stores.ends hends,hk]
      · rw [hfound]
        exact neg_one_lt_zero.le

namespace KeyedDb

theorem Kept.readsIds (h : w.Kept) : w.ReadsIds where
  get id := (getData_reading h.refines id).1
  read id := readData_reading h.refines id
  len id := by
    unfold dbGetDataLen
    by_cases hid : 0 ≤ id
    · obtain ⟨h₀,-,-⟩ := h.refines.checkDbxio id.toNat
      rw [if_pos hid,if_pos hid]
      exact congrArg Nat.cast (h₀.length _)
    · rw [if_neg hid,if_neg hid]
  pread id len off hlen := by
    unfold dbPreadData
    by_cases hid : 0 ≤ id
    · obtain ⟨k,rfl⟩ := Int.eq_ofNat_of_zero_le hid
      rw [Int.toNat_natCast]
      by_cases hend : k < w.db.dbxEnd
      · rw [if_pos ⟨hid,hend⟩,h.refines.pread k hlen off]
      · have hnone : w.bytes k = [] := by
          by_contra hbytes
          exact hend (h.refines.lt_dbxEnd hbytes)
        rw [if_neg fun hc => hend hc.2,readingPart,Int.toNat_natCast,hnone]
        exact (if_neg fun hc => Nat.not_lt_zero _ hc.2).symm
    · rw [if_neg fun hc => hid hc.1,readingPart,if_neg fun hc => hid hc.1]

/-- The id of a key is what the trie has for it. -/
theorem Kept.get_id {id : ℕ} (h : w.Kept) (hids : w.ids key = some id) :
    mmtrieGet w.db.kmap key = id ∧ 0 < id ∧ key ≠ [] := by
  obtain ⟨a,ha,hvalues⟩ := h.keys
  have hvalue : a.value key ≠ 0 := fun hzero => by simp [hvalues key,hzero] at hids
  have hrange := (ha.range key hvalue).1
  rw [hvalues,if_neg hvalue] at hids
  have hid := Option.some.inj hids
  refine ⟨?_,by omega,?_⟩
  · rw [ha.get_value hvalue,← hid,Int.toNat_of_nonneg hrange.le]
  · rintro rfl
    exact hvalue ha.nil_value

theorem Kept.readsKey {id : ℕ} (h : w.Kept) (hids : w.ids key = some id)
    (hthere : w.bytes id ≠ [] ∨ id < w.db.dbxEnd) : w.ReadsKey key id := by
  obtain ⟨hget,hpos,hkey⟩ := h.get_id hids
  have hpos : (0 : ℤ) < id := Int.natCast_pos.mpr hpos
  have hend : id < w.db.dbxEnd := hthere.elim h.refines.lt_dbxEnd fun hend => hend
  have hkeyed : w.db.keyed key = some (some (w.db.dbx id)) := by
    rw [Db.keyed,hget,Int.toNat_natCast,if_pos hpos,if_pos hend]
  refine ⟨?_,?_,?_,fun len off hlen => ?_⟩
  · have hread := h.refines.read id
    have hreading : reading w.bytes id = if w.bytes id ≠ [] then some (w.bytes id) else none := by simp [reading]
    rw [hreading,← hread,dbXgetData]
    dsimp only
    rw [hget,Int.toNat_natCast,if_neg fun hc => hc.2.not_gt hend]
    by_cases hdata : 0 < (w.db.dbx id).ndata
    · rw [if_pos ⟨hpos,hdata⟩,if_pos hdata]
      rfl
    · rw [if_neg fun hc => hdata hc.2,if_neg hdata]
      rfl
  · rw [dbXreadData,if_pos hkey,hkeyed,← readData_reading h.refines,dbReadData,
      if_pos ⟨hpos.le,by rwa [Int.toNat_natCast]⟩,Int.toNat_natCast]
    rfl
  · rw [dbXgetDataLen,hkeyed]
    exact congrArg (fun n : ℕ => some (n : ℤ)) (h.refines.length id)
  · rw [dbXpreadData,if_pos hkey,hkeyed]
    exact congrArg some (h.refines.pread id hlen off)

/-- A key without an id is not taken for another, but for a byte and a zero behind it. -/
theorem Kept.readsNothing (h : w.Kept) (hids : w.ids key = none) (hzero : ∀ c, key ≠ [c,0]) :
    w.ReadsNothing key := by
  obtain ⟨a,ha,hvalues⟩ := h.keys
  have hget := ha.get_nonpos ((ids_none_iff hvalues key).mp hids) hzero
  have hkeyed : w.db.keyed key = some none := by
    rw [Db.keyed]
    exact if_neg hget.not_gt
  refine ⟨?_,?_,fun len off => ?_⟩
  · rw [dbXreadData,hkeyed]
    exact ite_self _
  · rw [dbXgetDataLen,hkeyed]
    rfl
  · rw [dbXpreadData,hkeyed]
    exact ite_self _

end KeyedDb

/-- Two bytes set by a key, -/
def keySet : KeyedDb :=
  ⟨(DbOp.xset [97,98] [1,2]).run mmtrieXadd (dbInit false mmtrieInit),Function.update (fun _ => []) 1 [1,2],
    Function.update (fun _ => none) [97,98] (some 1)⟩

/-- the directory opened again with maps, -/
def keyReopened : KeyedDb := ⟨dbReopen keySet.db true,keySet.bytes,keySet.ids⟩

/-- and a third byte added by the key. -/
def keyAdded : KeyedDb :=
  ⟨(DbOp.xadd [97,98] [3]).run mmtrieXadd keyReopened.db,Function.update keySet.bytes 1 [1,2,3],
    Function.update keySet.ids [97,98] (some 1)⟩

end Sbase
