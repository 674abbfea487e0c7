import Sbase.Hido.MmtrieKeys
import Sbase.Hido.RecordMap

/-! Deleting a record of the block store by its id and by its key: what `db_xdel_data` takes for the id of
a key, and which records are left. -/
namespace Sbase
open Runs

/-! ### Calls with a key -/

/-- `db_data_id` -/
def dbDataId (db : Db Mtrie) (key : List UInt8) : Db Mtrie × ℤ :=
  if key ≠ [] then ({ db with kmap := (mmtrieXadd db.kmap key).1 },(mmtrieXadd db.kmap key).2) else (db,-1)

/-- `db_xget_data`: the bytes, if there are any, and the id. There is no result where it looks at a record
behind the end of the file of records. -/
def dbXgetData (db : Db Mtrie) (key : List UInt8) : Option (Db Mtrie × Option (List UInt8) × ℤ) :=
  let id := mmtrieGet db.kmap key
  if 0 < id ∧ db.dbxEnd ≤ id.toNat then none
  else
    let d := db.dbx id.toNat
    if 0 < id ∧ 0 < d.ndata then
      some (db,some (db.readFile d.index (d.blockid*DB_PAGE_SIZE) d.ndata),id)
    else
      let r := mmtrieXadd db.kmap key
      some ({ db with kmap := r.1 },none,r.2)

/-- `db_xdel_data`, with no result where the record is behind the end of the file of records, for which it
does not look. -/
def dbXdelData (db : Db Mtrie) (key : List UInt8) : Option (Db Mtrie × ℤ) :=
  if key ≠ [] ∧ 0 ≤ mmtrieGet db.kmap key then
    let id := (mmtrieGet db.kmap key).toNat
    if id < db.dbxEnd then
      let d := db.dbx id
      some ((db.pushBlock d.index d.blockid d.blockSize).1.setDbx id
        { d with blockSize := 0, blockid := 0, ndata := 0 },id)
    else none
  else some (db,-1)

/-- `db_destroy` -/
def dbDestroy (db : Db Mtrie) : Db Mtrie :=
  { dbInit db.isMmap mmtrieInit with
    dbsio := fun i =>
      if i = 0 then ⟨db.isMmap,DB_MFILE_SIZE,fun _ => 0⟩ else ⟨false,(db.dbsio i).size,fun _ => 0⟩ }

/-! ### Runs -/

/-- A store with the bytes that were given for each id, and the ids that were returned for the keys added. -/
structure KeyedDb where
  db : Db Mtrie
  bytes : ℕ → List UInt8
  ids : List UInt8 → Option ℕ

/-- The calls, those of the map of records first. -/
inductive KeyedOp
  | call (op : DbOp)
  | dataId (key : List UInt8)
  | xget (key : List UInt8)
  | xdel (key : List UInt8)
  | destroy

namespace KeyedDb

def init (isMmap : Bool) : KeyedDb := ⟨dbInit isMmap mmtrieInit,fun _ => [],fun _ => none⟩

/-- The ids once a key has been added. -/
def named (w : KeyedDb) (key : List UInt8) : List UInt8 → Option ℕ :=
  let id := (mmtrieXadd w.db.kmap key).2
  if 0 < id then Function.update w.ids key (some id.toNat) else w.ids

end KeyedDb

namespace KeyedOp

/-- The ids after a call of the map of records. -/
def dataIds (w : KeyedDb) : DbOp → List UInt8 → Option ℕ
  | .xset key data | .xadd key data => if data ≠ [] then w.named key else w.ids
  | _ => w.ids

def step (w : KeyedDb) : KeyedOp → Option KeyedDb
  | call op => some ⟨op.run mmtrieXadd w.db,(op.apply mmtrieXadd ⟨w.db.kmap,w.bytes⟩).bytes,dataIds w op⟩
  | dataId key => some ⟨(dbDataId w.db key).1,w.bytes,w.named key⟩
  | xget key => (dbXgetData w.db key).map fun r =>
    ⟨r.1,w.bytes,if r.2.1 = none then w.named key else w.ids⟩
  | xdel key => (dbXdelData w.db key).map fun r =>
    ⟨r.1,if 0 ≤ r.2 then Function.update w.bytes r.2.toNat [] else w.bytes,w.ids⟩
  | destroy => some ⟨dbDestroy w.db,fun _ => [],fun _ => none⟩

/-- Each record fits a data file, and the call does not run out of data files. -/
def Fits (w : KeyedDb) : KeyedOp → Prop
  | call op => op.Fits mmtrieXadd (w.db,⟨w.db.kmap,w.bytes⟩)
  | _ => True

end KeyedOp

/-! ### Deletions -/

/-- The record of an id is gone; all others can be read as before, and the keys are left as they are. -/
structure Removed (db db' : Db Mtrie) (id : ℤ) : Prop where
  kmap : db'.kmap = db.kmap
  gone : dbReadData db' id = none ∧ (dbGetData db' id).2 = none
  others : ∀ k ≠ id, dbReadData db' k = dbReadData db k ∧ (dbGetData db' k).2 = (dbGetData db k).2

namespace KeyedDb

/-- `db_xdel_data` of a key that was added removes its record; otherwise it fails and changes nothing. -/
def XdelRight (w : KeyedDb) (key : List UInt8) : Prop :=
  match w.ids key with
  | some id => ∃ db', dbXdelData w.db key = some (db',(id : ℤ)) ∧ Removed w.db db' id
  | none => ∃ ret < 0, dbXdelData w.db key = some (w.db,ret)

/-- The record of an added key is in the file of records. A key that was not added is empty, or longer than
a byte and not the beginning of an added key, nor a byte followed by zero where no longer key begins with
that byte. -/
def Addressed (w : KeyedDb) (key : List UInt8) : Prop :=
  match w.ids key with
  | some id => id < w.db.dbxEnd
  | none => key = [] ∨ key.length ≠ 1 ∧ (∀ k, w.ids k ≠ none → ¬ key <+: k) ∧
    ∀ c, key = [c,0] → ∃ k b, w.ids k ≠ none ∧ [c,b] <+: k

/-- The store has the given bytes, and the trie the returned ids. -/
structure Kept (w : KeyedDb) : Prop where
  refines : w.db.Refines w.bytes
  keys : ∃ a, KeysKept w.db.kmap a ∧ ∀ k, w.ids k = if a.value k = 0 then none else some (a.value k).toNat

end KeyedDb

variable {db : Db Mtrie} {m : ℕ → List UInt8} {key : List UInt8} {w : KeyedDb}

/-! ### What a deletion does -/

theorem dbXdelData_eq {id : ℕ} (hkey : key ≠ []) (hget : mmtrieGet db.kmap key = id) (hid : id < db.dbxEnd) :
    dbXdelData db key = some (db.delData id,(id : ℤ)) := by
  have hsame : db.checkDbxio id = db := if_neg (not_le.mpr hid)
  rw [dbXdelData,if_pos ⟨hkey,by omega⟩]
  dsimp only
  rw [hget,Int.toNat_natCast,if_pos hid,Db.delData,hsame]

/-- The readings of a map with one id removed. -/
theorem Db.Refines.removed (h : db.Refines m) (id : ℕ) : Removed db (db.delData id) id := by
  obtain ⟨hdel,hkmap⟩ := h.delData id
  have hread := fun k => readData_reading hdel k
  have hget := fun k => (getData_reading hdel k).1
  have hgone : reading (Function.update m id []) id = none := by
    rw [reading,Int.toNat_natCast,Function.update_self,if_neg fun hc => hc.2 rfl]
  have hother : ∀ k : ℤ, k ≠ id → reading (Function.update m id []) k = reading m k := by
    intro k hk
    unfold reading
    by_cases hneg : 0 ≤ k
    · rw [Function.update_of_ne (show k.toNat ≠ id by omega)]
    · rw [if_neg fun hc => hneg hc.1,if_neg fun hc => hneg hc.1]
  refine ⟨hkmap,⟨(hread id).trans hgone,(hget id).trans hgone⟩,fun k hk => ?_⟩
  rw [hread,hget,hother k hk,readData_reading h,(getData_reading h k).1]
  exact ⟨rfl,rfl⟩

/-- The calls of `db_xdel_data` that return: with no id for the key, or with the deletion of an id. -/
theorem dbXdelData_cases {r : Db Mtrie × ℤ} (h : dbXdelData db key = some r) :
    r = (db,-1) ∨ ∃ id : ℕ, r = (db.delData id,(id : ℤ)) := by
  by_cases hget : key ≠ [] ∧ 0 ≤ mmtrieGet db.kmap key
  · obtain ⟨id,hid⟩ := Int.eq_ofNat_of_zero_le hget.2
    by_cases hend : id < db.dbxEnd
    · rw [dbXdelData_eq hget.1 hid hend] at h
      exact .inr ⟨id,(Option.some.inj h).symm⟩
    · rw [dbXdelData,if_pos hget] at h
      dsimp only at h
      rw [hid,Int.toNat_natCast,if_neg hend] at h
      cases h
  · rw [dbXdelData,if_neg hget] at h
    exact .inl (Option.some.inj h).symm

/-! ### What every call preserves -/

theorem Db.Refines.withKeys (h : db.Refines m) (kmap : Mtrie) : ({ db with kmap := kmap } : Db Mtrie).Refines m :=
  ⟨h.sound.same rfl rfl rfl rfl,h.ends⟩

theorem dbDestroy_refines (db : Db Mtrie) : (dbDestroy db).Refines fun _ => [] :=
  emptied_refines db.isMmap mmtrieInit rfl

namespace KeyedDb.Kept

/-- Adding a key gives the trie and the returned ids the same new id, or none. -/
theorem named (h : w.Kept) (key : List UInt8) : ∃ a, KeysKept (mmtrieXadd w.db.kmap key).1 a ∧
    ∀ k, w.named key k = if a.value k = 0 then none else some (a.value k).toNat := by
  obtain ⟨a,ha,hids⟩ := h.keys
  have hlow := ha.low
  rcases ha.xadd key with hfail | ⟨hret,hkeys⟩
  · refine ⟨a,?_,fun k => ?_⟩
    · rw [hfail]
      exact ha
    · rw [KeyedDb.named,hfail]
      exact hids k
  · refine ⟨_,hkeys,fun k => ?_⟩
    by_cases hzero : a.value key = 0
    · rw [if_pos hzero] at hret ⊢
      have hvalue : (a.enter key).value k = if k = key then a.id + 1 else a.value k := Function.update_apply ..
      rw [KeyedDb.named,hret,if_pos (by omega),Function.update_apply]
      simp only [hvalue]
      by_cases hk : k = key
      · rw [if_pos hk,if_pos hk,if_neg (by omega)]
      · rw [if_neg hk,if_neg hk,hids]
    · rw [if_neg hzero] at hret ⊢
      rw [KeyedDb.named,hret,if_pos (ha.range key hzero).1,Function.update_apply]
      by_cases hk : k = key
      · rw [if_pos hk,hk,if_neg hzero]
      · rw [if_neg hk,hids]

/-- The calls of the map of records. -/
theorem call (h : w.Kept) (op : DbOp) (hfits : op.Fits mmtrieXadd (w.db,⟨w.db.kmap,w.bytes⟩)) :
    KeyedDb.Kept ⟨op.run mmtrieXadd w.db,(op.apply mmtrieXadd ⟨w.db.kmap,w.bytes⟩).bytes,
      KeyedOp.dataIds w op⟩ := by
  have hmatches : Matches (op.step mmtrieXadd (w.db,⟨w.db.kmap,w.bytes⟩)) := Matches.step ⟨rfl,h.refines⟩ hfits
  have hkmap : (op.run mmtrieXadd w.db).kmap = (op.apply mmtrieXadd ⟨w.db.kmap,w.bytes⟩).kmap := hmatches.kmap
  have hadd : ∀ key data : List UInt8, ∃ a,
      KeysKept (if key ≠ [] ∧ data ≠ [] then (mmtrieXadd w.db.kmap key).1 else w.db.kmap) a ∧
        ∀ k, (if data ≠ [] then w.named key else w.ids) k =
          if a.value k = 0 then none else some (a.value k).toNat := by
    intro key data
    by_cases hdata : data ≠ []
    · by_cases hkey : key ≠ []
      · rw [if_pos ⟨hkey,hdata⟩,if_pos hdata]
        exact h.named key
      · rw [if_neg fun hc => hkey hc.1,if_pos hdata,not_not.mp hkey]
        exact h.named []
    · rw [if_neg fun hc => hdata hc.2,if_neg hdata]
      exact h.keys
  refine ⟨hmatches.refines,?_⟩
  dsimp only
  rw [hkmap]
  cases op with
  | set id data | add id data | del id =>
    dsimp only [DbOp.apply,KeyedOp.dataIds]
    split_ifs <;> exact h.keys
  | get id | read id => exact h.keys
  | xset key data | xadd key data =>
    have hsame := hadd key data
    dsimp only [DbOp.apply,KeyedOp.dataIds] at hsame ⊢
    split_ifs at hsame ⊢ <;> exact hsame

theorem step {w' : KeyedDb} {op : KeyedOp} (h : w.Kept) (hfits : op.Fits w) (hstep : op.step w = some w') :
    w'.Kept := by
  cases op with
  | call op =>
    cases hstep
    exact h.call op hfits
  | dataId key =>
    cases hstep
    by_cases hkey : key ≠ []
    · rw [dbDataId,if_pos hkey]
      exact ⟨h.refines.withKeys _,h.named key⟩
    · rw [dbDataId,if_neg hkey,not_not.mp hkey]
      exact ⟨h.refines,h.named []⟩
  | xget key =>
    obtain ⟨r,hr,rfl⟩ := Option.map_eq_some_iff.mp hstep
    rw [dbXgetData] at hr
    dsimp only at hr
    split_ifs at hr with hend hbytes
    · cases hr
      exact ⟨h.refines,h.keys⟩
    · cases hr
      exact ⟨h.refines.withKeys _,h.named key⟩
  | xdel key =>
    obtain ⟨r,hr,rfl⟩ := Option.map_eq_some_iff.mp hstep
    obtain ⟨a,ha,hids⟩ := h.keys
    rcases dbXdelData_cases hr with rfl | ⟨id,rfl⟩
    · exact ⟨h.refines,a,ha,hids⟩
    · obtain ⟨hdel,hkmap⟩ := h.refines.delData id
      dsimp only
      rw [if_pos (Int.natCast_nonneg id),Int.toNat_natCast]
      exact ⟨hdel,a,by rwa [hkmap],hids⟩
  | destroy =>
    cases hstep
    exact ⟨dbDestroy_refines _,_,mmtrieInit_keys,fun _ => rfl⟩

theorem init (isMmap : Bool) : (KeyedDb.init isMmap).Kept :=
  ⟨(init_matches isMmap mmtrieInit).refines,_,mmtrieInit_keys,fun _ => rfl⟩

theorem run {isMmap : Bool} {ops : List KeyedOp}
    (h : Run (Guarded KeyedOp.Fits (ofPartial fun w op => op.step w)) (KeyedDb.init isMmap) ops w) : w.Kept :=
  h.invariant KeyedDb.Kept (init isMmap) fun _ _ _ hw hstep => hw.step hstep.1 hstep.2

end KeyedDb.Kept

namespace KeyedDb

/-! ### What is right -/

/-- A key without an id is refused exactly if the trie has nothing for it. -/
theorem xdelRight_unknown (hids : w.ids key = none) : w.XdelRight key ↔ mmtrieGet w.db.kmap key < 0 := by
  rw [XdelRight,hids]
  constructor
  · rintro ⟨ret,hret,hxdel⟩
    by_contra hget
    have hkey : key ≠ [] := by
      rintro rfl
      exact hget neg_one_lt_zero
    rw [dbXdelData,if_pos ⟨hkey,not_lt.mp hget⟩] at hxdel
    dsimp only at hxdel
    split_ifs at hxdel
    obtain ⟨-,rfl⟩ := Prod.mk.inj (Option.some.inj hxdel)
    omega
  · intro hget
    exact ⟨-1,neg_one_lt_zero,if_neg fun hc => hget.not_ge hc.2⟩

/-- The record of a key with an id goes exactly if it is in the file of records. -/
theorem xdelRight_added {id : ℕ} (h : w.db.Refines w.bytes) (hids : w.ids key = some id) (hkey : key ≠ [])
    (hget : mmtrieGet w.db.kmap key = id) : w.XdelRight key ↔ id < w.db.dbxEnd := by
  rw [XdelRight,hids]
  constructor
  · rintro ⟨db',hxdel,-⟩
    by_contra hend
    rw [dbXdelData,if_pos ⟨hkey,by omega⟩] at hxdel
    dsimp only at hxdel
    rw [hget,Int.toNat_natCast,if_neg hend] at hxdel
    cases hxdel
  · intro hend
    exact ⟨_,dbXdelData_eq hkey hget hend,h.removed id⟩

namespace Kept

/-- The keys with a returned id are those of the trie. -/
theorem ids_none_iff {a : KeyMap} (hids : ∀ k, w.ids k = if a.value k = 0 then none else some (a.value k).toNat)
    (key : List UInt8) : w.ids key = none ↔ a.value key = 0 := by
  rw [hids]
  by_cases hzero : a.value key = 0
  · rw [if_pos hzero]
    exact iff_of_true rfl hzero
  · rw [if_neg hzero]
    exact iff_of_false (Option.some_ne_none _) hzero

/-- Two keys never share an id. -/
theorem ids_distinct (h : w.Kept) {key key' : List UInt8} {id : ℕ} (hkey : w.ids key = some id)
    (hkey' : w.ids key' = some id) : key = key' := by
  obtain ⟨a,ha,hids⟩ := h.keys
  rw [hids] at hkey hkey'
  split_ifs at hkey hkey' with hzero hzero'
  have hrange := ha.range key hzero
  have hrange' := ha.range key' hzero'
  have hid := Option.some.inj hkey
  have hid' := Option.some.inj hkey'
  exact ha.distinct key key' hzero (by omega)

theorem xdelRight_iff (h : w.Kept) (key : List UInt8) : w.XdelRight key ↔ w.Addressed key := by
  obtain ⟨a,ha,hids⟩ := h.keys
  have hnone := ids_none_iff hids
  cases hkey : w.ids key with
  | none =>
    rw [xdelRight_unknown hkey,ha.get_neg_iff ((hnone key).mp hkey),Addressed,hkey,Unmistaken]
    simp only [ne_eq,hnone]
  | some id =>
    have hvalue : a.value key ≠ 0 := fun hzero => by simp [(hnone key).mpr hzero] at hkey
    have hid : (a.value key).toNat = id := by
      rw [hids,if_neg hvalue] at hkey
      exact Option.some.inj hkey
    have hget : mmtrieGet w.db.kmap key = id := by
      rw [ha.get_value hvalue,← hid,Int.toNat_of_nonneg (ha.value_nonneg key)]
    have hne : key ≠ [] := by
      rintro rfl
      exact hvalue ha.nil_value
    rw [xdelRight_added h.refines hkey hne hget,Addressed,hkey]

end Kept

end KeyedDb

/-- A deletion by id removes that record alone, distinct keys have distinct records, and a deletion by key
removes the key's record, or fails where the key was not added, exactly if the key is addressed. -/
theorem db_delete_iff (isMmap : Bool) {ops : List KeyedOp}
    (h : Run (Guarded KeyedOp.Fits (ofPartial fun w op => op.step w)) (KeyedDb.init isMmap) ops w) :
    (∀ id : ℤ, 0 ≤ id → Removed w.db (dbDelData w.db id).1 id) ∧
      (∀ key key' id, w.ids key = some id → w.ids key' = some id → key = key') ∧
        ∀ key, w.XdelRight key ↔ w.Addressed key := by
  have hkept := KeyedDb.Kept.run h
  refine ⟨fun id hid => ?_,fun key key' id => hkept.ids_distinct,hkept.xdelRight_iff⟩
  have hdel : (dbDelData w.db id).1 = w.db.delData id.toNat := by
    rw [dbDelData,if_pos hid]
  have hremoved := hkept.refines.removed id.toNat
  rwa [Int.toNat_of_nonneg hid,← hdel] at hremoved

/-- A record set by the id 0. -/
def zeroRecord : KeyedDb :=
  ⟨(DbOp.set 0 [7]).run mmtrieXadd (dbInit false mmtrieInit),Function.update (fun _ => []) 0 [7],fun _ => none⟩

/-- Another record set by a key of two bytes. -/
def zeroAndKey : KeyedDb :=
  ⟨(DbOp.xset [97,98] [8]).run mmtrieXadd zeroRecord.db,Function.update zeroRecord.bytes 1 [8],
    Function.update zeroRecord.ids [97,98] (some 1)⟩

theorem zeroAndKey_run :
    Run (Guarded KeyedOp.Fits (ofPartial fun w op => op.step w)) (KeyedDb.init false)
      [.call (.set 0 [7]),.call (.xset [97,98] [8])] zeroAndKey := by
  have hbytes : ∀ id, (zeroRecord.bytes id).length ≤ DB_MFILE_SIZE :=
    update_length (fun _ => zero_le) (by decide)
  have hset : Guarded KeyedOp.Fits (ofPartial fun w op => op.step w) (KeyedDb.init false)
    (.call (.set 0 [7])) zeroRecord := ⟨⟨hbytes,by decide⟩,rfl⟩
  have hxset : Guarded KeyedOp.Fits (ofPartial fun w op => op.step w) zeroRecord
    (.call (.xset [97,98] [8])) zeroAndKey := ⟨⟨update_length hbytes (by decide),by decide⟩,rfl⟩
  exact (Run.one hset).snoc hxset

theorem db_delete_zeroAndKey :
    dbReadData (dbDelData zeroAndKey.db 0).1 0 = none ∧ zeroAndKey.XdelRight [97,98] := by
  obtain ⟨hdel,-,hxdel⟩ := db_delete_iff false zeroAndKey_run
  exact ⟨(hdel 0 le_rfl).gone.1,(hxdel _).mpr (show (1 : ℕ) < zeroAndKey.db.dbxEnd by decide)⟩

theorem zero_deleted : ¬ zeroAndKey.XdelRight [97] ∧ zeroAndKey.ids [97] = none ∧
    dbReadData zeroAndKey.db 0 = some [7] ∧
    ∃ db, dbXdelData zeroAndKey.db [97] = some (db,0) ∧ dbReadData db 0 = none := by
  have hids : zeroAndKey.ids [97] = none := by decide
  refine ⟨?_,hids,by decide,_,rfl,by decide⟩
  rw [KeyedDb.xdelRight_unknown hids]
  decide

end Sbase
