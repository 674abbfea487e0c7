import Sbase.Hido.BlockStore

/-! The block store as a map from ids to bytes: after any sequence of calls a record reads as the bytes that
the map has for its id. -/
namespace Sbase
open PagePool Runs

/-- The entries of `f`, and `z` for the run that a call has in hand. -/
def withHand {α : Type*} (z : α) (f : ℕ → α) : Option ℕ → α := fun o => o.elim z f

theorem withHand_some {α : Type*} (z : α) (f : ℕ → α) (id : ℕ) (a : α) :
    Function.update (withHand z f) (some id) a = withHand z (Function.update f id a) := by
  funext o
  cases o with
  | none => rfl
  | some k =>
    by_cases hk : k = id
    · rw [hk,Function.update_self]
      exact (Function.update_self id a f).symm
    · rw [Function.update_of_ne fun hc => hk (Option.some.inj hc)]
      exact (Function.update_of_ne hk a f).symm

/-- The run in hand becomes that of a record. -/
theorem withHand_swap {α : Type*} (z : α) (f : ℕ → α) (id : ℕ) (a : α) :
    Function.update (Function.update (withHand z f) (some id) z) none a ∘ Equiv.swap none (some id) =
      withHand z (Function.update f id a) := by
  funext o
  cases o with
  | none =>
    rw [Function.comp_apply]
    rw [Equiv.swap_apply_left,Function.update_of_ne (Option.some_ne_none id),Function.update_self]
    rfl
  | some k =>
    change _ = Function.update f id a k
    rw [Function.comp_apply]
    by_cases hk : k = id
    · rw [hk,Equiv.swap_apply_right,Function.update_self,Function.update_self]
    · have hsome : some k ≠ some id := fun hc => hk (Option.some.inj hc)
      rw [Equiv.swap_apply_of_ne_of_ne (Option.some_ne_none k) hsome,
        Function.update_of_ne (Option.some_ne_none k),
        Function.update_of_ne hsome,Function.update_of_ne hk]
      rfl

theorem dbBlocksCount_bounds {n : ℕ} (hpos : 0 < n) (hfits : n ≤ DB_MFILE_SIZE) :
    0 < dbBlocksCount n ∧ dbBlocksCount n ≤ filePages ∧ n ≤ dbBlocksCount n*DB_PAGE_SIZE := by
  unfold dbBlocksCount filePages DB_MFILE_SIZE DB_PAGE_SIZE at *
  split_ifs <;> omega

namespace Db
variable {κ : Type*} {db db' : Db κ} {m : ℕ → List UInt8} {id off : ℕ} {data : List UInt8} {d : Dbx}

/-! ### What is left alone -/

/-- The records but for that of `id`, and the keys, left as they are. -/
structure Keeps (id : ℕ) (db db' : Db κ) : Prop where
  kmap : db'.kmap = db.kmap
  dbxEnd : db'.dbxEnd = db.dbxEnd
  dbx : ∀ k ≠ id, db'.dbx k = db.dbx k

theorem Keeps.rfl' (id : ℕ) (db : Db κ) : Keeps id db db := ⟨rfl,rfl,fun _ _ => rfl⟩

theorem Keeps.trans {db'' : Db κ} (h : Keeps id db db') (k : Keeps id db' db'') : Keeps id db db'' :=
  ⟨k.kmap.trans h.kmap,k.dbxEnd.trans h.dbxEnd,fun j hj => (k.dbx j hj).trans (h.dbx j hj)⟩

theorem setDbx_keeps (db : Db κ) (id : ℕ) (d : Dbx) : Keeps id db (db.setDbx id d) :=
  ⟨rfl,rfl,fun _ hk => Function.update_of_ne hk ..⟩

theorem store_keeps (db : Db κ) (id off : ℕ) (data : List UInt8) : Keeps id db (db.store id off data) :=
  ⟨rfl,rfl,fun _ hk => Function.update_of_ne hk ..⟩

theorem writeFile_keeps (id : ℕ) (db : Db κ) (index off : ℕ) (data : List UInt8) :
    Keeps id db (db.writeFile index off data) := ⟨rfl,rfl,fun _ _ => rfl⟩

theorem pushBlock_same (db : Db κ) (index blockid blockSize : ℕ) :
    (db.pushBlock index blockid blockSize).1.kmap = db.kmap ∧
      (db.pushBlock index blockid blockSize).1.dbxEnd = db.dbxEnd ∧
      (db.pushBlock index blockid blockSize).1.dbx = db.dbx := by
  unfold pushBlock
  dsimp only
  split_ifs <;> exact ⟨rfl,rfl,rfl⟩

theorem popBlock_same (db : Db κ) (x : ℕ) :
    (db.popBlock x).1.kmap = db.kmap ∧ (db.popBlock x).1.dbxEnd = db.dbxEnd ∧
      (db.popBlock x).1.dbx = db.dbx := by
  unfold popBlock
  dsimp only
  split_ifs <;> first | exact ⟨rfl,rfl,rfl⟩ | exact pushBlock_same ..

theorem pushBlock_keeps (id : ℕ) (db : Db κ) (index blockid blockSize : ℕ) :
    Keeps id db (db.pushBlock index blockid blockSize).1 := by
  obtain ⟨hkmap,hend,hdbx⟩ := pushBlock_same db index blockid blockSize
  exact ⟨hkmap,hend,fun k _ => congrFun hdbx k⟩

theorem popBlock_keeps (id : ℕ) (db : Db κ) (x : ℕ) : Keeps id db (db.popBlock x).1 := by
  obtain ⟨hkmap,hend,hdbx⟩ := popBlock_same db x
  exact ⟨hkmap,hend,fun k _ => congrFun hdbx k⟩

/-! ### Records -/

/-- The bytes of the records are those of `m`, and the file of records has an entry for each. -/
structure Refines (db : Db κ) (m : ℕ → List UInt8) : Prop where
  sound : db.Sound (withHand ⟨0,0,0,0⟩ db.dbx) (withHand [] m)
  ends : ∀ id, db.dbxEnd ≤ id → (db.dbx id).ndata = 0

theorem Refines.length (h : db.Refines m) (id : ℕ) : (db.dbx id).ndata = (m id).length := by
  have hbytes := congrArg List.length (h.sound.content (some id))
  exact (Memory.read_length ..).symm.trans hbytes

theorem checkDbxio_kmap (db : Db κ) (id : ℕ) : (db.checkDbxio id).kmap = db.kmap := by
  unfold checkDbxio
  split_ifs <;> rfl

/-- `CHECK_DBXIO` leaves the records as they are. -/
theorem Refines.checkDbxio (h : db.Refines m) (id : ℕ) :
    (db.checkDbxio id).Refines m ∧ id < (db.checkDbxio id).dbxEnd ∧ (db.checkDbxio id).dbx = db.dbx := by
  unfold Db.checkDbxio
  by_cases hend : db.dbxEnd ≤ id
  · rw [if_pos hend]
    have hlt : id < (id/DB_DBX_INCREMENT+1)*DB_DBX_INCREMENT := by
      unfold DB_DBX_INCREMENT
      omega
    refine ⟨⟨h.sound.same rfl rfl rfl rfl,fun k hk => h.ends k ?_⟩,hlt,rfl⟩
    exact hend.trans (hlt.le.trans hk)
  · rw [if_neg hend]
    exact ⟨h,not_le.mp hend,rfl⟩

theorem Keeps.ends (hkeeps : Keeps id db db') (h : db.Refines m) (hid : id < db.dbxEnd) :
    ∀ k, db'.dbxEnd ≤ k → (db'.dbx k).ndata = 0 := by
  intro k hk
  rw [hkeeps.dbxEnd] at hk
  rw [hkeeps.dbx k (by omega)]
  exact h.ends k hk

/-- Bytes written to a run that the record has. -/
theorem Sound.store (h : db.Sound (withHand ⟨0,0,0,0⟩ db.dbx) (withHand [] m))
    (hoff : off ≤ (db.dbx id).ndata) (hfits : off+data.length ≤ (db.dbx id).blockSize) :
    (db.store id off data).Sound (withHand ⟨0,0,0,0⟩ (db.store id off data).dbx)
      (withHand [] (Function.update m id ((m id).take off ++ data))) := by
  have hwrite := Sound.write h (some id) hoff hfits
  rw [withHand_some,withHand_some] at hwrite
  exact hwrite.same rfl rfl rfl rfl

/-- A run found for a record, whatever it had. -/
theorem Sound.assign {e : Dbx} {bytes : List UInt8} (hkeeps : Keeps id db db')
    (h : db'.Sound (Function.update (withHand ⟨0,0,0,0⟩ db.dbx) (some id) e)
      (Function.update (withHand [] m) (some id) bytes)) :
    (db'.setDbx id e).Sound (withHand ⟨0,0,0,0⟩ (db'.setDbx id e).dbx)
      (withHand [] (Function.update m id bytes)) := by
  have hdbx : Function.update db.dbx id e = Function.update db'.dbx id e := by
    funext k
    by_cases hk : k = id
    · rw [hk,Function.update_self,Function.update_self]
    · rw [Function.update_of_ne hk,Function.update_of_ne hk,hkeeps.dbx k hk]
  rw [withHand_some,withHand_some,hdbx] at h
  exact h.same rfl rfl rfl rfl

/-- The bytes of a record in a run that has been found for it. -/
theorem Sound.storeNew {x : ℕ} {b : ℕ × ℕ} (hkeeps : Keeps id db db')
    (h : db'.Sound (Function.update (withHand ⟨0,0,0,0⟩ db.dbx) (some id) ⟨x*DB_PAGE_SIZE,b.2,0,b.1⟩)
      (Function.update (withHand [] m) (some id) [])) (hbytes : data.length ≤ x*DB_PAGE_SIZE) :
    let db'' := (db'.setDbx id ⟨x*DB_PAGE_SIZE,b.2,0,b.1⟩).store id 0 data
    Keeps id db db'' ∧
      db''.Sound (withHand ⟨0,0,0,0⟩ db''.dbx) (withHand [] (Function.update m id data)) := by
  intro db''
  have hassigned := h.assign hkeeps
  have hsize : 0+data.length ≤ ((db'.setDbx id ⟨x*DB_PAGE_SIZE,b.2,0,b.1⟩).dbx id).blockSize := by
    unfold setDbx
    dsimp only
    rw [Function.update_self,Nat.zero_add]
    exact hbytes
  have hstored := hassigned.store zero_le hsize
  rw [Function.update_self,Function.update_idem] at hstored
  exact ⟨(hkeeps.trans (setDbx_keeps ..)).trans (store_keeps ..),hstored⟩

/-- The run of a record given back, if it has one. -/
theorem Sound.free (h : db.Sound (withHand ⟨0,0,0,0⟩ db.dbx) (withHand [] m)) (id : ℕ) :
    let d := db.dbx id
    ∃ z bytes, (if 0 < d.blockSize then (db.pushBlock d.index d.blockid d.blockSize).1 else db).Sound
      (Function.update (withHand ⟨0,0,0,0⟩ db.dbx) (some id) z)
      (Function.update (withHand [] m) (some id) bytes) := by
  intro d
  by_cases hpos : 0 < d.blockSize
  · rw [if_pos hpos]
    exact ⟨⟨0,0,0,0⟩,[],(Sound.push h (some id) hpos rfl rfl).2⟩
  · rw [if_neg hpos]
    refine ⟨d,m id,?_⟩
    rw [withHand_some,withHand_some,Function.update_eq_self,Function.update_eq_self]
    exact h

/-- `db__set__data` -/
theorem Refines.setData (h : db.Refines m) (id : ℕ) (hdata : data ≠ []) (hfits : data.length ≤ DB_MFILE_SIZE)
    (hroom : (db.setData id data).1.lastId < DB_MFILE_MAX) :
    (db.setData id data).1.Refines (Function.update m id data) ∧ (db.setData id data).2 = id ∧
      (db.setData id data).1.kmap = db.kmap := by
  obtain ⟨h₀,hid,hdbx⟩ := h.checkDbxio id
  unfold Db.setData at hroom ⊢
  dsimp only at hroom ⊢
  rw [← checkDbxio_kmap db id]
  generalize db.checkDbxio id = db₀ at *
  by_cases hlarge : (db₀.dbx id).blockSize < data.length
  · rw [if_pos hlarge] at hroom ⊢
    obtain ⟨z,bytes,hfree⟩ := h₀.sound.free id
    have hpush : Keeps id db₀ (if 0 < (db₀.dbx id).blockSize then
        (db₀.pushBlock (db₀.dbx id).index (db₀.dbx id).blockid (db₀.dbx id).blockSize).1 else db₀) := by
      split_ifs
      · exact pushBlock_keeps ..
      · exact .rfl' ..
    generalize (if 0 < (db₀.dbx id).blockSize then
      (db₀.pushBlock (db₀.dbx id).index (db₀.dbx id).blockid (db₀.dbx id).blockSize).1 else db₀) = db₁
      at hfree hpush hroom ⊢
    obtain ⟨hcount,hpages,hbytes⟩ := dbBlocksCount_bounds (List.length_pos_iff.mpr hdata) hfits
    have hcleared := hpush.trans (setDbx_keeps db₁ id ⟨0,0,0,(db₀.dbx id).index⟩)
    have hzero : (db₁.setDbx id ⟨0,0,0,(db₀.dbx id).index⟩).Sound _ _ := hfree.same rfl rfl rfl rfl
    have hpop := hzero.pop (some id) hcount hpages
    have hkeeps := hcleared.trans (popBlock_keeps id _ (dbBlocksCount data.length))
    cases hresult : (db₁.setDbx id ⟨0,0,0,(db₀.dbx id).index⟩).popBlock
        (dbBlocksCount data.length) with
    | mk db₂ o =>
      rw [hresult] at hpop hkeeps hroom
      dsimp only at hpop hkeeps hroom
      obtain ⟨b,rfl,hfound⟩ | ⟨rfl,hfull⟩ := hpop
      · dsimp only
        rw [Function.update_idem,Function.update_idem] at hfound
        obtain ⟨hall,hstored⟩ := hfound.storeNew hkeeps hbytes
        exact ⟨⟨hstored,hall.ends h₀ hid⟩,rfl,hall.kmap⟩
      · exact absurd hroom (not_lt.mpr hfull)
  · have hsize : 0+data.length ≤ (db₀.dbx id).blockSize := by
      rw [Nat.zero_add]
      exact not_lt.mp hlarge
    have hstored := h₀.sound.store zero_le hsize
    rw [if_neg hlarge]
    exact ⟨⟨hstored,(store_keeps ..).ends h₀ hid⟩,rfl,rfl⟩

/-! ### A record that moves -/

section
variable {e : Option ℕ → Dbx} {c : Option ℕ → List UInt8} {hand : Dbx} {bytes : List UInt8}

/-- Bytes written to the run in hand. -/
theorem Sound.writeHand (h : db.Sound (Function.update e none hand) (Function.update c none bytes))
    (off : ℕ) (data : List UInt8) (hoff : off ≤ hand.ndata) (hfits : off+data.length ≤ hand.blockSize) :
    (db.writeFile hand.index (hand.blockid*DB_PAGE_SIZE+off) data).Sound
      (Function.update e none { hand with ndata := off+data.length })
      (Function.update c none (bytes.take off ++ data)) := by
  have hoff' : off ≤ (Function.update e none hand none).ndata := by rwa [Function.update_self]
  have hfits' : off+data.length ≤ (Function.update e none hand none).blockSize := by
    rwa [Function.update_self]
  have hwrite := Sound.write h none hoff' hfits'
  rw [Function.update_self,Function.update_self,Function.update_idem,Function.update_idem] at hwrite
  exact hwrite

/-- The old run of a record given back, with the new one in hand. -/
theorem Sound.freeOld (h : db.Sound (Function.update e none hand) (Function.update c none bytes)) (id : ℕ)
    (hpos : 0 < (e (some id)).blockSize) :
    (db.pushBlock (e (some id)).index (e (some id)).blockid (e (some id)).blockSize).1.Sound
      (Function.update (Function.update e (some id) ⟨0,0,0,0⟩) none hand)
      (Function.update (Function.update c (some id) []) none bytes) := by
  have hsome : some id ≠ none := Option.some_ne_none id
  have hpush := Sound.push h (some id) (z := ⟨0,0,0,0⟩)
  rw [Function.update_of_ne hsome,Function.update_comm hsome.symm,Function.update_comm hsome.symm] at hpush
  exact (hpush hpos rfl rfl).2

/-- The run in hand becomes that of the record. -/
theorem Sound.moved (hkeeps : Keeps id db db')
    (h : db'.Sound (Function.update (Function.update (withHand ⟨0,0,0,0⟩ db.dbx) (some id) ⟨0,0,0,0⟩) none hand)
      (Function.update (Function.update (withHand [] m) (some id) []) none bytes)) :
    Keeps id db (db'.setDbx id hand) ∧
      (db'.setDbx id hand).Sound (withHand ⟨0,0,0,0⟩ (db'.setDbx id hand).dbx)
        (withHand [] (Function.update m id bytes)) := by
  refine ⟨hkeeps.trans (setDbx_keeps ..),Sound.assign hkeeps ?_⟩
  have hswap := h.reindex (Equiv.swap none (some id)).injective
  rw [withHand_swap,withHand_swap] at hswap
  rw [withHand_some,withHand_some]
  exact hswap

end

/-- `db__add__data` -/
theorem Refines.addData (h : db.Refines m) (id : ℕ) (hdata : data ≠ [])
    (hfits : (m id).length+data.length ≤ DB_MFILE_SIZE)
    (hroom : (db.addData id data).1.lastId < DB_MFILE_MAX) :
    (db.addData id data).1.Refines (Function.update m id (m id ++ data)) ∧ (db.addData id data).2 = id ∧
      (db.addData id data).1.kmap = db.kmap := by
  obtain ⟨h₀,hid,hdbx⟩ := h.checkDbxio id
  unfold Db.addData at hroom ⊢
  dsimp only at hroom ⊢
  rw [← checkDbxio_kmap db id]
  generalize db.checkDbxio id = db₀ at *
  rw [← h₀.length] at hfits
  have hpos := List.length_pos_iff.mpr hdata
  by_cases hlarge : (db₀.dbx id).blockSize < (db₀.dbx id).ndata+data.length
  · rw [if_pos hlarge] at hroom ⊢
    obtain ⟨hcount,hpages,hbytes⟩ := dbBlocksCount_bounds (by omega) hfits
    have hkeeps := popBlock_keeps id db₀ (dbBlocksCount ((db₀.dbx id).ndata+data.length))
    by_cases hold : 0 < (db₀.dbx id).ndata
    · have hpop := h₀.sound.pop none hcount hpages
      obtain ⟨-,-,hsame⟩ := popBlock_same db₀ (dbBlocksCount ((db₀.dbx id).ndata+data.length))
      cases hresult : db₀.popBlock (dbBlocksCount ((db₀.dbx id).ndata+data.length)) with
      | mk db₁ o =>
        rw [hresult] at hpop hkeeps hroom hsame
        dsimp only at hpop hkeeps hroom hsame
        obtain ⟨b,rfl,hfound⟩ | ⟨rfl,hfull⟩ := hpop
        · dsimp only
          rw [if_pos hold]
          have hbytesOld : db₁.readFile (db₀.dbx id).index ((db₀.dbx id).blockid*DB_PAGE_SIZE)
              (db₀.dbx id).ndata = m id := by
            have hcontent := hfound.content (some id)
            rw [Function.update_of_ne (Option.some_ne_none id),
              Function.update_of_ne (Option.some_ne_none id)] at hcontent
            exact hcontent
          have hblock : 0 < (withHand ⟨0,0,0,0⟩ db₀.dbx (some id)).blockSize :=
            hold.trans_le (h₀.sound.fits (some id))
          have hlength := h₀.length id
          rw [hbytesOld]
          split_ifs with hmap
          · have hcopied := hfound.writeHand 0 (m id) le_rfl (by dsimp only; omega)
            rw [Nat.add_zero,Nat.zero_add] at hcopied
            have hfreed := hcopied.freeOld id hblock
            have hwritten := hfreed.writeHand (db₀.dbx id).ndata data (by dsimp only; omega)
              (by dsimp only; omega)
            obtain ⟨hall,hmoved⟩ := hwritten.moved (((hkeeps.trans (writeFile_keeps ..)).trans
              (pushBlock_keeps ..)).trans (writeFile_keeps ..))
            have htake : List.take (db₀.dbx id).ndata (List.take 0 [] ++ m id) = m id := by
              rw [List.take_zero,List.nil_append,hlength,List.take_length]
            rw [htake] at hmoved
            exact ⟨⟨hmoved,hall.ends h₀ hid⟩,rfl,hall.kmap⟩
          · have hfreed := hfound.freeOld id hblock
            have hwritten := hfreed.writeHand 0 (m id ++ data) le_rfl
              (by dsimp only; rw [List.length_append]; omega)
            rw [Nat.add_zero,Nat.zero_add,List.length_append,← hlength] at hwritten
            obtain ⟨hall,hmoved⟩ := hwritten.moved ((hkeeps.trans (pushBlock_keeps ..)).trans
              (writeFile_keeps ..))
            rw [List.take_zero,List.nil_append] at hmoved
            exact ⟨⟨hmoved,hall.ends h₀ hid⟩,rfl,hall.kmap⟩
        · exact absurd hroom (not_lt.mpr hfull)
    · have hpop := h₀.sound.pop (some id) hcount hpages
      have hempty : (db₀.dbx id).ndata = 0 := Nat.eq_zero_of_not_pos hold
      cases hresult : db₀.popBlock (dbBlocksCount ((db₀.dbx id).ndata+data.length)) with
      | mk db₁ o =>
        rw [hresult] at hpop hkeeps hroom
        dsimp only at hpop hkeeps hroom
        obtain ⟨b,rfl,hfound⟩ | ⟨rfl,hfull⟩ := hpop
        · dsimp only
          rw [if_neg hold]
          have hnil : m id = [] := List.eq_nil_of_length_eq_zero ((h₀.length id).symm.trans hempty)
          rw [hempty,Nat.zero_add] at hfound hbytes ⊢
          rw [hnil,List.nil_append]
          obtain ⟨hall,hstored⟩ := hfound.storeNew hkeeps hbytes
          exact ⟨⟨hstored,hall.ends h₀ hid⟩,rfl,hall.kmap⟩
        · exact absurd hroom (not_lt.mpr hfull)
  · rw [if_neg hlarge]
    have hstored := h₀.sound.store le_rfl (not_lt.mp hlarge)
    rw [h₀.length,List.take_length] at hstored
    refine ⟨⟨?_,(store_keeps ..).ends h₀ hid⟩,rfl,rfl⟩
    rw [h₀.length]
    exact hstored

/-- `db_del_data` -/
theorem Refines.delData (h : db.Refines m) (id : ℕ) :
    (db.delData id).Refines (Function.update m id []) ∧ (db.delData id).kmap = db.kmap := by
  obtain ⟨h₀,hid,-⟩ := h.checkDbxio id
  unfold Db.delData
  dsimp only
  rw [← checkDbxio_kmap db id]
  generalize db.checkDbxio id = db₀ at *
  have hpushed : (db₀.pushBlock (db₀.dbx id).index (db₀.dbx id).blockid (db₀.dbx id).blockSize).1.Sound
      (Function.update (withHand ⟨0,0,0,0⟩ db₀.dbx) (some id) ⟨0,0,0,(db₀.dbx id).index⟩)
      (Function.update (withHand [] m) (some id) []) := by
    by_cases hpos : 0 < (db₀.dbx id).blockSize
    · exact (Sound.push h₀.sound (some id) hpos rfl rfl).2
    · have hsame : (db₀.pushBlock (db₀.dbx id).index (db₀.dbx id).blockid
          (db₀.dbx id).blockSize).1 = db₀ := by
        rw [Nat.eq_zero_of_not_pos hpos]
        unfold pushBlock
        exact congrArg Prod.fst (if_neg fun hc => absurd hc.2.1 (by decide))
      rw [hsame]
      exact Sound.forget h₀.sound (some id) rfl rfl
  have hkeeps : Keeps id db₀ (db₀.pushBlock (db₀.dbx id).index (db₀.dbx id).blockid
    (db₀.dbx id).blockSize).1 := pushBlock_keeps ..
  exact ⟨⟨hpushed.assign hkeeps,(hkeeps.trans (setDbx_keeps ..)).ends h₀ hid⟩,hkeeps.kmap⟩

/-! ### Reading -/

/-- The bytes of a record that is not empty. -/
theorem Refines.read (h : db.Refines m) (id : ℕ) :
    (if 0 < (db.dbx id).ndata then
      some (db.readFile (db.dbx id).index ((db.dbx id).blockid*DB_PAGE_SIZE) (db.dbx id).ndata) else none) =
      if m id ≠ [] then some (m id) else none := by
  have hcontent : db.readFile (db.dbx id).index ((db.dbx id).blockid*DB_PAGE_SIZE) (db.dbx id).ndata = m id :=
    h.sound.content (some id)
  rw [hcontent,h.length id]
  by_cases hempty : m id = []
  · rw [hempty,if_neg (not_not.mpr rfl)]
    rfl
  · rw [if_pos (List.length_pos_iff.mpr hempty),if_pos hempty]

/-- A record that has bytes has a page. -/
theorem Refines.blockid (h : db.Refines m) (hpos : 0 < (db.dbx id).ndata) :
    nonneg (db.dbx id).blockid = true := by
  have hfits := h.sound.fits (some id)
  have hwhole := h.sound.whole (some id)
  have hpages : 0 < (db.dbx id).blockSize/DB_PAGE_SIZE := by
    change (db.dbx id).ndata ≤ (db.dbx id).blockSize at hfits
    change (db.dbx id).blockSize%DB_PAGE_SIZE = 0 at hwhole
    unfold DB_PAGE_SIZE at hwhole ⊢
    omega
  have hfirst := h.sound.pool.bound (.held (some id)) _ (Extent.first_mem (e := (db.dbx id).extent) hpages)
  exact decide_eq_true (hfirst.trans (by decide))

end Db

/-- The keys with their ids, and the bytes of each id. -/
structure RecordMap (κ : Type*) where
  kmap : κ
  bytes : ℕ → List UInt8

/-- The calls on a block store. -/
inductive DbOp
  | set (id : ℤ) (data : List UInt8)
  | add (id : ℤ) (data : List UInt8)
  | xset (key data : List UInt8)
  | xadd (key data : List UInt8)
  | del (id : ℤ)
  | get (id : ℤ)
  | read (id : ℤ)

namespace DbOp
variable {κ : Type*}

def run (xadd : κ → List UInt8 → κ × ℤ) (db : Db κ) : DbOp → Db κ
  | .set id data => (dbSetData db id data).1
  | .add id data => (dbAddData db id data).1
  | .xset key data => (dbXsetData xadd db key data).1
  | .xadd key data => (dbXaddData xadd db key data).1
  | .del id => (dbDelData db id).1
  | .get id => (dbGetData db id).1
  | .read _ => db

/-- What a call does to the map: set replaces, add appends, del removes. -/
def apply (xadd : κ → List UInt8 → κ × ℤ) (m : RecordMap κ) : DbOp → RecordMap κ
  | .set id data =>
    if 0 ≤ id ∧ data ≠ [] then { m with bytes := Function.update m.bytes id.toNat data } else m
  | .add id data =>
    if 0 ≤ id ∧ data ≠ [] then
      { m with bytes := Function.update m.bytes id.toNat (m.bytes id.toNat ++ data) }
    else m
  | .xset key data =>
    if key ≠ [] ∧ data ≠ [] then
      let (kmap,id) := xadd m.kmap key
      ⟨kmap,if 0 < id then Function.update m.bytes id.toNat data else m.bytes⟩
    else m
  | .xadd key data =>
    if key ≠ [] ∧ data ≠ [] then
      let (kmap,id) := xadd m.kmap key
      ⟨kmap,if 0 < id then Function.update m.bytes id.toNat (m.bytes id.toNat ++ data) else m.bytes⟩
    else m
  | .del id => if 0 ≤ id then { m with bytes := Function.update m.bytes id.toNat [] } else m
  | .get _ => m
  | .read _ => m

/-- A call on the store, and what it does to the map. -/
def step (xadd : κ → List UInt8 → κ × ℤ) (w : Db κ × RecordMap κ) (op : DbOp) : Db κ × RecordMap κ :=
  (op.run xadd w.1,op.apply xadd w.2)

/-- Each record fits a data file, and the call does not run out of data files. -/
def Fits (xadd : κ → List UInt8 → κ × ℤ) (w : Db κ × RecordMap κ) (op : DbOp) : Prop :=
  (∀ id, ((op.apply xadd w.2).bytes id).length ≤ DB_MFILE_SIZE) ∧ (op.run xadd w.1).lastId < DB_MFILE_MAX

end DbOp

/-- What a call returns that reads `id` in a map: no bytes where there are none. -/
def reading (m : ℕ → List UInt8) (id : ℤ) : Option (List UInt8) :=
  if 0 ≤ id ∧ m id.toNat ≠ [] then some (m id.toNat) else none

section
variable {κ : Type*} {db : Db κ} {m : ℕ → List UInt8}

theorem getData_reading (h : db.Refines m) (id : ℤ) :
    (dbGetData db id).2 = reading m id ∧ (dbGetData db id).1.Refines m ∧
      (dbGetData db id).1.kmap = db.kmap := by
  unfold dbGetData reading
  by_cases hid : 0 ≤ id
  · obtain ⟨h₀,-,-⟩ := h.checkDbxio id.toNat
    rw [if_pos hid]
    refine ⟨?_,h₀,Db.checkDbxio_kmap ..⟩
    dsimp only
    rw [h₀.read]
    simp only [hid,true_and]
  · rw [if_neg hid,if_neg fun hc => hid hc.1]
    exact ⟨rfl,h,rfl⟩

theorem readData_reading (h : db.Refines m) (id : ℤ) : dbReadData db id = reading m id := by
  unfold dbReadData reading
  by_cases hid : 0 ≤ id
  · by_cases hend : id.toNat < db.dbxEnd
    · rw [if_pos ⟨hid,hend⟩]
      have hread := h.read id.toNat
      simp only [hid,true_and]
      rw [← hread]
      by_cases hpos : 0 < (db.dbx id.toNat).ndata
      · rw [if_pos ⟨h.blockid hpos,hpos⟩,if_pos hpos]
      · rw [if_neg fun hc => hpos hc.2,if_neg hpos]
    · rw [if_neg fun hc => hend hc.2]
      have hempty := (h.length id.toNat).symm.trans (h.ends id.toNat (not_lt.mp hend))
      rw [if_neg fun hc => hc.2 (List.eq_nil_of_length_eq_zero hempty)]
  · rw [if_neg fun hc => hid hc.1,if_neg fun hc => hid hc.1]

/-! ### Runs -/

/-- The store has the keys and the bytes of the map. -/
structure Matches (w : Db κ × RecordMap κ) : Prop where
  kmap : w.1.kmap = w.2.kmap
  refines : w.1.Refines w.2.bytes

/-- At first the first data file is all tail. -/
theorem init_pool (isMmap : Bool) (kmap : κ) :
    ((dbInit isMmap kmap).pool (withHand ⟨0,0,0,0⟩ (dbInit isMmap kmap).dbx)).Sound filePages := by
  have hzero : 0/DB_PAGE_SIZE = 0 := Nat.zero_div _
  have hheld : ∀ i, ((dbInit isMmap kmap).pool (withHand ⟨0,0,0,0⟩ (dbInit isMmap kmap).dbx)).cells
      filePages (.held i) = ∅ := by
    intro i
    cases i with
    | none => exact Extent.cells_eq_empty hzero
    | some k => exact Extent.cells_eq_empty hzero
  have hfree : ∀ x k, ((dbInit isMmap kmap).pool (withHand ⟨0,0,0,0⟩ (dbInit isMmap kmap).dbx)).cells
      filePages (.free x k) = ∅ := fun x k => Extent.cells_none
  have htail : ((dbInit isMmap kmap).pool (withHand ⟨0,0,0,0⟩ (dbInit isMmap kmap).dbx)).cells
      filePages .tail = {c | c.1 = 0 ∧ c.2 < filePages} := by
    ext ⟨i,p⟩
    change (i = 0 ∧ 0/DB_PAGE_SIZE ≤ p ∧ p < 0/DB_PAGE_SIZE+(filePages-0/DB_PAGE_SIZE)) ↔
      i = 0 ∧ p < filePages
    rw [hzero,Nat.zero_add,Nat.sub_zero]
    exact ⟨fun h => ⟨h.1,h.2.2⟩,fun h => ⟨h.1,zero_le,h.2⟩⟩
  have hapart : Disjoint {c : ℕ × ℕ | c.1 = 0 ∧ c.2 < filePages} {c | 0 < c.1 ∧ c.2 < filePages} := by
    rw [Set.disjoint_left]
    rintro c ⟨hfile,-⟩ ⟨hrest,-⟩
    omega
  refine ⟨fun o o' hne => ?_,fun o c hc => ?_,hzero.trans_le zero_le⟩
  · rw [Function.onFun_apply]
    cases o with
    | held i => rw [hheld]; exact Set.empty_disjoint _
    | free x k => rw [hfree]; exact Set.empty_disjoint _
    | tail =>
      cases o' with
      | held i => rw [hheld]; exact Set.disjoint_empty _
      | free x k => rw [hfree]; exact Set.disjoint_empty _
      | tail => exact absurd rfl hne
      | rest => rw [htail]; exact hapart
    | rest =>
      cases o' with
      | held i => rw [hheld]; exact Set.disjoint_empty _
      | free x k => rw [hfree]; exact Set.disjoint_empty _
      | tail => rw [htail]; exact hapart.symm
      | rest => exact absurd rfl hne
  · cases o with
    | held i =>
      rw [hheld] at hc
      exact hc.elim
    | free x k =>
      rw [hfree] at hc
      exact hc.elim
    | tail =>
      rw [htail] at hc
      exact hc.2
    | rest => exact hc.2

/-- Nothing is stored where no record has any bytes, whatever is left in the files. -/
theorem emptied_refines (isMmap : Bool) (kmap : κ) {files : ℕ → DataFile} (hfirst : (files 0).size = DB_MFILE_SIZE) :
    ({ dbInit isMmap kmap with dbsio := files } : Db κ).Refines fun _ => [] := by
  have hmax : 0 < DB_MFILE_MAX := by decide
  refine ⟨⟨init_pool isMmap kmap,rfl,rfl,?_,hmax,?_,?_,?_⟩,fun _ _ => rfl⟩
  · intro i hi
    rw [Nat.le_zero.mp hi]
    exact hfirst
  · intro i
    cases i <;> rfl
  · intro i
    cases i <;> exact le_rfl
  · intro i
    cases i <;> rfl

theorem init_matches (isMmap : Bool) (kmap : κ) : Matches (dbInit isMmap kmap,⟨kmap,fun _ => []⟩) :=
  ⟨rfl,emptied_refines isMmap kmap rfl⟩

theorem Matches.set {m : RecordMap κ} (h : Matches (db,m)) (id : ℕ) {data : List UInt8} (hdata : data ≠ [])
    (hfits : (Function.update m.bytes id data id).length ≤ DB_MFILE_SIZE)
    (hroom : (db.setData id data).1.lastId < DB_MFILE_MAX) :
    Matches ((db.setData id data).1,⟨m.kmap,Function.update m.bytes id data⟩) := by
  rw [Function.update_self] at hfits
  obtain ⟨hset,-,hkmap⟩ := h.refines.setData id hdata hfits hroom
  exact ⟨hkmap.trans h.kmap,hset⟩

theorem Matches.add {m : RecordMap κ} (h : Matches (db,m)) (id : ℕ) {data : List UInt8} (hdata : data ≠ [])
    (hfits : (Function.update m.bytes id (m.bytes id ++ data) id).length ≤ DB_MFILE_SIZE)
    (hroom : (db.addData id data).1.lastId < DB_MFILE_MAX) :
    Matches ((db.addData id data).1,⟨m.kmap,Function.update m.bytes id (m.bytes id ++ data)⟩) := by
  rw [Function.update_self,List.length_append] at hfits
  obtain ⟨hadd,-,hkmap⟩ := h.refines.addData id hdata hfits hroom
  exact ⟨hkmap.trans h.kmap,hadd⟩

/-- The keys do not matter for the records. -/
theorem Matches.keys {m : RecordMap κ} (h : Matches (db,m)) (kmap : κ) :
    Matches ({ db with kmap := kmap },⟨kmap,m.bytes⟩) :=
  ⟨rfl,⟨h.refines.sound.same rfl rfl rfl rfl,h.refines.ends⟩⟩

theorem Matches.step {xadd : κ → List UInt8 → κ × ℤ} {w : Db κ × RecordMap κ} {op : DbOp} (h : Matches w)
    (hfits : op.Fits xadd w) : Matches (op.step xadd w) := by
  obtain ⟨db,m⟩ := w
  obtain ⟨hlength,hroom⟩ := hfits
  have hkmap : db.kmap = m.kmap := h.kmap
  unfold DbOp.step
  cases op with
  | get id =>
    obtain ⟨-,hget,hkeys⟩ := getData_reading h.refines id
    exact ⟨hkeys.trans hkmap,hget⟩
  | read id => exact h
  | set id data =>
    unfold DbOp.run DbOp.apply dbSetData at *
    dsimp only at hlength hroom ⊢
    split_ifs at hlength hroom ⊢ with hset
    · exact h.set id.toNat hset.2 (hlength id.toNat) hroom
    · exact h
  | add id data =>
    unfold DbOp.run DbOp.apply dbAddData at *
    dsimp only at hlength hroom ⊢
    split_ifs at hlength hroom ⊢ with hadd
    · exact h.add id.toNat hadd.2 (hlength id.toNat) hroom
    · exact h
  | del id =>
    unfold DbOp.run DbOp.apply dbDelData at *
    dsimp only at hlength hroom ⊢
    split_ifs at hlength hroom ⊢ with hdel
    · obtain ⟨hdeleted,hkeys⟩ := h.refines.delData id.toNat
      exact ⟨hkeys.trans hkmap,hdeleted⟩
    · exact h
  | xset key data =>
    unfold DbOp.run DbOp.apply dbXsetData at *
    dsimp only at hlength hroom ⊢
    rw [hkmap] at hroom ⊢
    split_ifs at hlength hroom ⊢ with hkey hid
    · exact (h.keys _).set _ hkey.2 (hlength _) hroom
    · exact h.keys _
    · exact h
  | xadd key data =>
    unfold DbOp.run DbOp.apply dbXaddData at *
    dsimp only at hlength hroom ⊢
    rw [hkmap] at hroom ⊢
    split_ifs at hlength hroom ⊢ with hkey hid
    · exact (h.keys _).add _ hkey.2 (hlength _) hroom
    · exact h.keys _
    · exact h

/-- After any sequence of calls, in either mode, reading an id returns the bytes of the map, and no page
belongs to two of the records, free runs and the tail. -/
theorem db_refines_map (xadd : κ → List UInt8 → κ × ℤ) (isMmap : Bool) (kmap : κ) {ops : List DbOp}
    {db : Db κ} {m : RecordMap κ} (h : Run (Guarded (DbOp.Fits xadd) (ofFun (DbOp.step xadd)))
      (dbInit isMmap kmap,⟨kmap,fun _ => []⟩) ops (db,m)) :
    (∀ id, (dbGetData db id).2 = reading m.bytes id ∧ dbReadData db id = reading m.bytes id) ∧
      Pairwise (Function.onFun Disjoint ((db.pool db.dbx).cells filePages)) := by
  have hmatches : Matches (db,m) := by
    apply h.invariant Matches (init_matches isMmap kmap)
    rintro w op _ hw ⟨hfits,rfl⟩
    exact hw.step hfits
  obtain ⟨-,hrefines⟩ := hmatches
  dsimp only at hrefines
  refine ⟨fun id => ⟨(getData_reading hrefines id).1,readData_reading hrefines id⟩,?_⟩
  exact (hrefines.sound.reindex (Option.some_injective ℕ)).pool.disjoint

end

/-- Ids in the order of the keys, from 1 on. -/
def orderOfKeys (keys : List (List UInt8)) (key : List UInt8) : List (List UInt8) × ℤ :=
  if key ∈ keys then (keys,keys.idxOf key+1) else (keys ++ [key],keys.length+1)

/-- Two bytes set by a key, and a third added by its id. -/
def setThenAdd : List DbOp := [.xset [97] [1,2],.add 1 [3]]

theorem update_length {m : ℕ → List UInt8} {n id : ℕ} {data : List UInt8} (h : ∀ k, (m k).length ≤ n)
    (hdata : data.length ≤ n) (k : ℕ) : (Function.update m id data k).length ≤ n := by
  by_cases hk : k = id
  · rw [hk,Function.update_self]
    exact hdata
  · rw [Function.update_of_ne hk]
    exact h k

theorem setThenAdd_allowed : Allowed (DbOp.Fits orderOfKeys) (DbOp.step orderOfKeys)
    (dbInit false [],⟨[],fun _ => []⟩) setThenAdd := by
  have hset : ∀ id, (Function.update (fun _ => []) 1 [1,2] id : List UInt8).length ≤ DB_MFILE_SIZE :=
    update_length (fun _ => zero_le) (by decide)
  exact ⟨⟨hset,by decide⟩,⟨update_length hset (by decide),by decide⟩,trivial⟩

theorem db_refines_map_set_add :
    let w := setThenAdd.foldl (DbOp.step orderOfKeys) (dbInit false [],⟨[],fun _ => []⟩)
    dbReadData w.1 1 = some [1,2,3] ∧
      Pairwise (Function.onFun Disjoint ((w.1.pool w.1.dbx).cells filePages)) := by
  intro w
  have hrun : Run _ _ setThenAdd (w.1,w.2) := setThenAdd_allowed.run
  obtain ⟨hread,hpages⟩ := db_refines_map orderOfKeys false [] hrun
  exact ⟨(hread 1).2.trans (by decide),hpages⟩

end Sbase
