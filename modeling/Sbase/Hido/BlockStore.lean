import Sbase.Hido.Db

/-! The runs of pages of the block store: those of the records, those on the links and the tail of the last
data file share no page, and what is written to one run is read from that run only. -/
namespace Sbase
open Memory PagePool

def filePages : ℕ := DB_MFILE_SIZE/DB_PAGE_SIZE

/-- The run of pages of a record. -/
def Dbx.extent (d : Dbx) : Extent := ⟨d.index,d.blockid,d.blockSize/DB_PAGE_SIZE⟩

namespace Db
variable {κ ι : Type*}

/-- The free runs of `x` pages, in the order of their links. -/
def freeBlocks (db : Db κ) (x : ℕ) : List (ℕ × ℕ) :=
  List.iterate db.linkAt ((db.links x).index,(db.links x).blockid) (db.links x).count

/-- The pages of the data files, with the runs that `e` names as held. -/
def pool (db : Db κ) (e : ι → Dbx) : Pool ι :=
  ⟨fun i => (e i).extent,db.freeBlocks,db.lastId,db.lastOff/DB_PAGE_SIZE⟩

/-- The bytes of a record. -/
def content (db : Db κ) (d : Dbx) : List UInt8 := db.readFile d.index (d.blockid*DB_PAGE_SIZE) d.ndata

/-- The runs that `e` names are held, and contain the bytes of `m`. -/
structure Sound (db : Db κ) (e : ι → Dbx) (m : ι → List UInt8) : Prop where
  pool : (db.pool e).Sound filePages
  bin : (db.links 0).count = 0
  off : db.lastOff%DB_PAGE_SIZE = 0
  size : ∀ i ≤ db.lastId, (db.dbsio i).size = DB_MFILE_SIZE
  last : db.lastId < DB_MFILE_MAX
  whole : ∀ i, (e i).blockSize%DB_PAGE_SIZE = 0
  fits : ∀ i, (e i).ndata ≤ (e i).blockSize
  content : ∀ i, db.content (e i) = m i

/-- The data files agree but on some pages. -/
def SameOutside (cells : Set (ℕ × ℕ)) (db db' : Db κ) : Prop :=
  ∀ i o, (i,o/DB_PAGE_SIZE) ∉ cells → (db'.dbsio i).bytes o = (db.dbsio i).bytes o

section
variable {db db' : Db κ} {e : ι → Dbx} {m : ι → List UInt8} {cells : Set (ℕ × ℕ)} {i : ι} {b : ℕ × ℕ}
  {index blockid x off n : ℕ} {data : List UInt8} {d : Dbx}

/-! ### Reading and writing -/

theorem writeFile_size (db : Db κ) (index off : ℕ) (data : List UInt8) (i : ℕ) :
    ((db.writeFile index off data).dbsio i).size = (db.dbsio i).size := by
  unfold writeFile
  by_cases hi : i = index
  · rw [hi]
    dsimp only
    rw [Function.update_self]
  · dsimp only
    rw [Function.update_of_ne hi]

/-- A write within a run of pages. -/
theorem writeFile_outside {r : Extent} (hlow : r.first*DB_PAGE_SIZE ≤ off)
    (hhigh : off+data.length ≤ (r.first+r.pages)*DB_PAGE_SIZE) :
    SameOutside r.cells db (db.writeFile r.file off data) := by
  intro i o ho
  unfold writeFile
  dsimp only
  by_cases hi : i = r.file
  · rw [hi,Function.update_self]
    apply write_apply_of_not_mem
    by_contra hin
    apply ho
    unfold DB_PAGE_SIZE at hlow hhigh ⊢
    exact ⟨hi,by dsimp only; omega,by dsimp only; omega⟩
  · rw [Function.update_of_ne hi]

theorem SameOutside.mono {cells' : Set (ℕ × ℕ)} (h : SameOutside cells db db') (hsub : cells ⊆ cells') :
    SameOutside cells' db db' := fun i o ho => h i o fun hc => ho (hsub hc)

theorem SameOutside.readFile (h : SameOutside cells db db')
    (hout : ∀ o, off ≤ o → o < off+n → (index,o/DB_PAGE_SIZE) ∉ cells) :
    db'.readFile index off n = db.readFile index off n :=
  read_congr fun o hlow hhigh => h index o (hout o hlow hhigh)

/-- The bytes of a record whose pages have not been written to. -/
theorem SameOutside.content (h : SameOutside cells db db') (hdisjoint : Disjoint d.extent.cells cells)
    (hwhole : d.blockSize%DB_PAGE_SIZE = 0) (hfits : d.ndata ≤ d.blockSize) :
    db'.content d = db.content d := by
  apply h.readFile
  intro o hlow hhigh
  apply Set.disjoint_left.mp hdisjoint
  unfold DB_PAGE_SIZE at hlow hhigh hwhole ⊢
  refine ⟨rfl,?_,?_⟩
  · change d.blockid ≤ o/512
    omega
  · change o/512 < d.blockid+d.blockSize/512
    omega

theorem SameOutside.linkAt (h : SameOutside cells db db') (hb : b ∉ cells) :
    db'.linkAt b = db.linkAt b := by
  have hpage : ∀ o, b.2*DB_PAGE_SIZE ≤ o → o < b.2*DB_PAGE_SIZE+8 → (b.1,o/DB_PAGE_SIZE) ∉ cells := by
    intro o hlow hhigh
    have ho : o/DB_PAGE_SIZE = b.2 := by
      unfold DB_PAGE_SIZE at hlow hhigh ⊢
      omega
    rw [ho]
    exact hb
  unfold Db.linkAt
  rw [h.readFile fun o hlow hhigh => hpage o hlow (by omega)]
  rw [h.readFile fun o hlow hhigh => hpage o (by omega) (by omega)]

/-- Free runs that have not been written to keep their links. -/
theorem SameOutside.freeBlocks (h : SameOutside cells db db') (hlinks : db'.links x = db.links x)
    (hfree : ∀ b ∈ db.freeBlocks x, b ∉ cells) : db'.freeBlocks x = db.freeBlocks x := by
  unfold Db.freeBlocks
  rw [hlinks]
  exact iterate_congr fun b hb => h.linkAt (hfree b hb)

/-! ### The links -/

theorem intOfBytes_intBytes (h : n < 4294967296) : intOfBytes (intBytes n) = n := by
  simp only [intBytes,intOfBytes,UInt8.toNat_ofNat']
  omega

/-- A link that has been written to a page is read from it. -/
theorem linkAt_write (db : Db κ) (index blockid : ℕ) (rest : List UInt8) {l : ℕ × ℕ} (hfirst : l.1 < 4294967296) (hsecond : l.2 < 4294967296) :
    (db.writeFile index (blockid*DB_PAGE_SIZE) (intBytes l.1 ++ intBytes l.2 ++ rest)).linkAt
      (index,blockid) = l := by
  have hbytes : ((db.writeFile index (blockid*DB_PAGE_SIZE)
      (intBytes l.1 ++ intBytes l.2 ++ rest)).dbsio index).bytes =
      write (db.dbsio index).bytes (blockid*DB_PAGE_SIZE) (intBytes l.1 ++ (intBytes l.2 ++ rest)) := by
    unfold writeFile
    dsimp only
    rw [Function.update_self,List.append_assoc]
  unfold linkAt readFile
  dsimp only
  rw [hbytes]
  apply Prod.ext
  · change intOfBytes (read _ _ (intBytes l.1).length) = _
    rw [read_write_take,intOfBytes_intBytes hfirst]
  · change intOfBytes (read _ (_+(intBytes l.1).length) (intBytes l.2).length) = _
    rw [← write_write_append,read_write_take,intOfBytes_intBytes hsecond]

theorem freeBlocks_of_empty (h : (db.links x).count = 0) : db.freeBlocks x = [] := by
  unfold freeBlocks
  rw [h]
  rfl

theorem freeBlocks_of_pos (h : 0 < (db.links x).count) :
    db.freeBlocks x = ((db.links x).index,(db.links x).blockid) ::
      List.iterate db.linkAt (db.linkAt ((db.links x).index,(db.links x).blockid))
        ((db.links x).count-1) := by
  unfold freeBlocks
  obtain ⟨n,hn⟩ := Nat.exists_eq_succ_of_ne_zero h.ne'
  rw [hn]
  rfl

theorem linkWritten (hwritten : data.length ≤ DB_PAGE_SIZE) :
    SameOutside {(index,blockid)} db (db.writeFile index (blockid*DB_PAGE_SIZE) data) := by
  have hpage : (⟨index,blockid,1⟩ : Extent).cells ⊆ {(index,blockid)} := by
    rintro ⟨i,p⟩ ⟨hfile,hlow,hhigh⟩
    dsimp only at hfile hlow hhigh
    rw [Set.mem_singleton_iff,hfile,show p = blockid by omega]
  apply SameOutside.mono (writeFile_outside (r := ⟨index,blockid,1⟩) le_rfl ?_) hpage
  dsimp only
  rw [Nat.add_mul,Nat.one_mul]
  exact Nat.add_le_add_left hwritten _

/-- The fields that the links are not among, left as they are. -/
structure SameFields (db db' : Db κ) : Prop where
  lastId : db'.lastId = db.lastId
  lastOff : db'.lastOff = db.lastOff
  dbx : db'.dbx = db.dbx
  dbxEnd : db'.dbxEnd = db.dbxEnd
  kmap : db'.kmap = db.kmap
  size : ∀ i, (db'.dbsio i).size = (db.dbsio i).size

theorem SameFields.rfl' (db : Db κ) : SameFields db db := ⟨rfl,rfl,rfl,rfl,rfl,fun _ => rfl⟩

theorem writeFile_fields (db : Db κ) (index off : ℕ) (data : List UInt8) :
    SameFields db (db.writeFile index off data) :=
  ⟨rfl,rfl,rfl,rfl,rfl,writeFile_size db index off data⟩

/-- What `db_push_block` does with a run that is not free yet. -/
structure Pushed (db db' : Db κ) (x : ℕ) (b : ℕ × ℕ) : Prop where
  fields : SameFields db db'
  outside : SameOutside {b} db db'
  free : db'.freeBlocks = Function.update db.freeBlocks x (b :: db.freeBlocks x)
  links : ∀ y ≠ x, db'.links y = db.links y

/-- The run comes first on its link, once its page leads to the run that did. -/
theorem Pushed.intro {db₁ : Db κ} (hfields : SameFields db db₁) (hlinks : db₁.links = db.links)
    (houtside : SameOutside {(index,blockid)} db db₁) (hnew : ∀ y, (index,blockid) ∉ db.freeBlocks y)
    (hlinked : 0 < (db.links x).count →
      db₁.linkAt (index,blockid) = ((db.links x).index,(db.links x).blockid)) :
    Pushed db (db₁.setLink x ⟨index,blockid,(db.links x).count+1⟩) x (index,blockid) := by
  have hold : ∀ y, db₁.freeBlocks y = db.freeBlocks y := by
    intro y
    apply houtside.freeBlocks (by rw [hlinks])
    intro b hb hc
    rw [Set.mem_singleton_iff.mp hc] at hb
    exact hnew y hb
  refine ⟨⟨hfields.lastId,hfields.lastOff,hfields.dbx,hfields.dbxEnd,hfields.kmap,hfields.size⟩,
    houtside,?_,?_⟩
  · funext y
    by_cases hy : y = x
    · rw [hy,Function.update_self]
      unfold freeBlocks setLink
      dsimp only
      rw [Function.update_self,List.iterate]
      congr 1
      change List.iterate db₁.linkAt (db₁.linkAt (index,blockid)) (db.links x).count = db.freeBlocks x
      by_cases hcount : 0 < (db.links x).count
      · rw [hlinked hcount,← hold x]
        unfold freeBlocks
        rw [hlinks]
      · rw [Nat.eq_zero_of_not_pos hcount,freeBlocks_of_empty (Nat.eq_zero_of_not_pos hcount)]
        rfl
    · rw [Function.update_of_ne hy,← hold y]
      unfold freeBlocks setLink
      dsimp only
      rw [Function.update_of_ne hy]
      rfl
  · intro y hy
    unfold setLink
    dsimp only
    rw [Function.update_of_ne hy,hlinks]

/-- `db_push_block` of a run that is not free yet. -/
theorem pushBlock_pushed {blockSize : ℕ} (hblockid : nonneg blockid = true) (hindex : index < DB_MFILE_MAX)
    (hx : dbBlocksCount blockSize = x) (hpos : 0 < x) (hnew : ∀ y, (index,blockid) ∉ db.freeBlocks y)
    (hhead : 0 < (db.links x).count →
      (db.links x).index < 4294967296 ∧ (db.links x).blockid < 4294967296) :
    Pushed db (db.pushBlock index blockid blockSize).1 x (index,blockid) := by
  unfold pushBlock
  dsimp only
  rw [hx,if_pos ⟨hblockid,hpos,hindex⟩]
  split_ifs with hcount hmap
  · refine .intro (writeFile_fields ..) rfl (linkWritten (by simp [intBytes,DB_PAGE_SIZE])) hnew fun _ => ?_
    obtain ⟨hfirst,hsecond⟩ := hhead hcount
    have hlink := linkAt_write db index blockid []
      (l := ((db.links x).index,(db.links x).blockid)) hfirst hsecond
    rw [List.append_nil] at hlink
    exact hlink
  · refine .intro (writeFile_fields ..) rfl (linkWritten (by simp [intBytes,DB_PAGE_SIZE])) hnew fun _ => ?_
    obtain ⟨hfirst,hsecond⟩ := hhead hcount
    exact linkAt_write db index blockid (intBytes 0) (l := ((db.links x).index,(db.links x).blockid)) hfirst hsecond
  · exact .intro (.rfl' db) rfl (fun _ _ _ => rfl) hnew fun h => absurd h hcount

/-! ### Sound stores -/

theorem dbBlocksCount_whole (h : n%DB_PAGE_SIZE = 0) : dbBlocksCount n = n/DB_PAGE_SIZE := by
  unfold dbBlocksCount
  rw [h]
  rfl

/-- The records, the keys and the mode do not matter. -/
theorem Sound.same (h : db.Sound e m) (hlinks : db'.links = db.links) (hfiles : db'.dbsio = db.dbsio)
    (hlast : db'.lastId = db.lastId) (hoff : db'.lastOff = db.lastOff) : db'.Sound e m := by
  cases db
  cases db'
  dsimp only at hlinks hfiles hlast hoff
  subst hlinks hfiles hlast hoff
  exact ⟨h.pool,h.bin,h.off,h.size,h.last,h.whole,h.fits,h.content⟩

/-- Some of the holders only, or under other names. -/
theorem Sound.reindex {ι' : Type*} (h : db.Sound e m) {f : ι' → ι} (hf : f.Injective) :
    db.Sound (e ∘ f) (m ∘ f) :=
  ⟨h.pool.reindex hf,h.bin,h.off,h.size,h.last,fun i => h.whole (f i),fun i => h.fits (f i),
    fun i => h.content (f i)⟩

theorem Sound.free_cells (h : db.Sound e m) (hb : b ∈ db.freeBlocks x) :
    ∃ k, b ∈ (db.pool e).cells filePages (.free x k) := by
  obtain ⟨k,hk⟩ := List.mem_iff_getElem?.mp hb
  have hx : 0 < x := by
    by_contra hx
    rw [Nat.eq_zero_of_not_pos hx,freeBlocks_of_empty h.bin] at hb
    cases hb
  refine ⟨k,?_⟩
  change b ∈ ((db.pool e).freeAt x k).cells
  rw [Pool.freeAt_getElem hk]
  exact Extent.first_mem hx

theorem Sound.free_bound (h : db.Sound e m) (hb : b ∈ db.freeBlocks x) :
    b.1 < DB_MFILE_MAX ∧ b.2 < filePages := by
  obtain ⟨k,hk⟩ := h.free_cells hb
  exact ⟨(h.pool.file_le (o := .free x k) nofun hk).trans_lt h.last,h.pool.bound _ b hk⟩

/-- The first page of a free run belongs to no one else. -/
theorem Sound.free_not_mem (h : db.Sound e m) {o : Owner ι} (ho : ∀ y k, o ≠ .free y k)
    (hb : b ∈ db.freeBlocks x) : b ∉ (db.pool e).cells filePages o := by
  obtain ⟨k,hk⟩ := h.free_cells hb
  exact Set.disjoint_left.mp (h.pool.disjoint (ho x k).symm) hk

theorem Sound.head_bound (h : db.Sound e m) (hcount : 0 < (db.links x).count) :
    (db.links x).index < DB_MFILE_MAX ∧ (db.links x).blockid < filePages := by
  apply h.free_bound (b := ((db.links x).index,(db.links x).blockid)) (x := x)
  rw [freeBlocks_of_pos hcount]
  exact List.mem_cons_self

/-- `db_push_block` of a run that belongs to `o`. -/
theorem Sound.pushed (h : db.Sound e m) {o : Owner ι} (hfree : ∀ y k, o ≠ .free y k) (hrest : o ≠ .rest)
    (hrun : (⟨index,blockid,x⟩ : Extent).cells ⊆ (db.pool e).cells filePages o) (hpos : 0 < x)
    {blockSize : ℕ} (hx : dbBlocksCount blockSize = x) :
    Pushed db (db.pushBlock index blockid blockSize).1 x (index,blockid) := by
  have hfirst := hrun (Extent.first_mem hpos)
  have hfile := (h.pool.file_le hrest hfirst).trans_lt h.last
  have hpage := h.pool.bound o _ hfirst
  refine pushBlock_pushed (decide_eq_true (hpage.trans (by decide))) hfile hx hpos ?_ ?_
  · intro y hb
    exact h.free_not_mem hfree hb hfirst
  · intro hcount
    obtain ⟨hindex,hblockid⟩ := h.head_bound hcount
    exact ⟨hindex.trans (by decide),hblockid.trans (by decide)⟩

theorem extent_cells_empty (h : d.blockSize = 0) : d.extent.cells = ∅ := by
  apply Extent.cells_eq_empty
  change d.blockSize/DB_PAGE_SIZE = 0
  rw [h,Nat.zero_div]

theorem extent_pages (index blockid x ndata : ℕ) :
    (⟨x*DB_PAGE_SIZE,blockid,ndata,index⟩ : Dbx).extent = ⟨index,blockid,x⟩ := by
  unfold Dbx.extent
  dsimp only
  rw [Nat.mul_div_cancel x (by decide)]

theorem content_empty (db : Db κ) (h : d.ndata = 0) : db.content d = [] := by
  unfold content readFile
  rw [h]
  rfl

/-- A change that leaves the files of the run of `o` only in other states keeps what the other runs
contain. -/
theorem Sound.content_outside (h : db.Sound e m) {o : Owner ι} (hout : SameOutside cells db db')
    (hcells : cells ⊆ (db.pool e).cells filePages o) {j : ι} (hj : .held j ≠ o) :
    db'.content (e j) = m j := by
  rw [← h.content j]
  refine hout.content ?_ (h.whole j) (h.fits j)
  exact (h.pool.disjoint hj).mono_right hcells

theorem SameFields.sizes (hfields : SameFields db db') (h : db.Sound e m) :
    db'.lastOff%DB_PAGE_SIZE = 0 ∧ (∀ k ≤ db'.lastId, (db'.dbsio k).size = DB_MFILE_SIZE) ∧
      db'.lastId < DB_MFILE_MAX := by
  rw [hfields.lastOff,hfields.lastId]
  refine ⟨h.off,fun k hk => ?_,h.last⟩
  rw [hfields.size]
  exact h.size k hk

section
variable [DecidableEq ι]

/-- A change to what `i` holds. -/
theorem Sound.of_update (h : db.Sound e m) (hpool : (db'.pool (Function.update e i d)).Sound filePages)
    (hbin : (db'.links 0).count = 0) (hoff : db'.lastOff%DB_PAGE_SIZE = 0)
    (hsize : ∀ k ≤ db'.lastId, (db'.dbsio k).size = DB_MFILE_SIZE) (hlast : db'.lastId < DB_MFILE_MAX)
    (hwhole : d.blockSize%DB_PAGE_SIZE = 0) (hfits : d.ndata ≤ d.blockSize)
    (hother : ∀ j ≠ i, db'.content (e j) = m j) :
    db'.Sound (Function.update e i d) (Function.update m i (db'.content d)) := by
  refine ⟨hpool,hbin,hoff,hsize,hlast,?_,?_,?_⟩
  · intro j
    by_cases hj : j = i
    · rw [hj,Function.update_self]
      exact hwhole
    · rw [Function.update_of_ne hj]
      exact h.whole j
  · intro j
    by_cases hj : j = i
    · rw [hj,Function.update_self]
      exact hfits
    · rw [Function.update_of_ne hj]
      exact h.fits j
  · intro j
    by_cases hj : j = i
    · rw [hj,Function.update_self,Function.update_self]
    · rw [Function.update_of_ne hj,Function.update_of_ne hj]
      exact hother j hj

/-- What is held and what is left of the last file, after a change to what `i` holds. -/
theorem held_cells (db db' : Db κ) (e : ι → Dbx) (i : ι) (d : Dbx) (hlast : db'.lastId = db.lastId)
    (hoff : db'.lastOff = db.lastOff) {o : Owner ι} (hi : o ≠ .held i) (hfree : ∀ y k, o ≠ .free y k) :
    (db'.pool (Function.update e i d)).cells filePages o = (db.pool e).cells filePages o := by
  cases o with
  | held j =>
    have hj : j ≠ i := fun hc => hi (congrArg _ hc)
    change (Function.update e i d j).extent.cells = _
    rw [Function.update_of_ne hj]
    rfl
  | free y k => exact absurd rfl (hfree y k)
  | tail =>
    change (⟨db'.lastId,db'.lastOff/DB_PAGE_SIZE,filePages-db'.lastOff/DB_PAGE_SIZE⟩ : Extent).cells = _
    rw [hlast,hoff]
    rfl
  | rest =>
    change {c : ℕ × ℕ | db'.lastId < c.1 ∧ _} = _
    rw [hlast]
    rfl

theorem held_cells_self (db : Db κ) (e : ι → Dbx) (i : ι) (d : Dbx) :
    (db.pool (Function.update e i d)).cells filePages (.held i) = d.extent.cells := by
  change (Function.update e i d i).extent.cells = _
  rw [Function.update_self]

/-- The run of a record that is given back. -/
theorem Sound.push (h : db.Sound e m) (i : ι) (hpos : 0 < (e i).blockSize) {z : Dbx}
    (hblock : z.blockSize = 0) (hdata : z.ndata = 0) :
    let db' := (db.pushBlock (e i).index (e i).blockid (e i).blockSize).1
    SameFields db db' ∧ db'.Sound (Function.update e i z) (Function.update m i []) := by
  intro db'
  have hwhole := h.whole i
  have hpages : 0 < (e i).blockSize/DB_PAGE_SIZE := by
    unfold DB_PAGE_SIZE at hwhole ⊢
    omega
  have hpushed : Pushed db db' ((e i).blockSize/DB_PAGE_SIZE) ((e i).index,(e i).blockid) :=
    h.pushed (o := .held i) nofun nofun subset_rfl hpages (dbBlocksCount_whole hwhole)
  obtain ⟨hfields,houtside,hfree,hlinks⟩ := hpushed
  obtain ⟨hoff,hsize,hlast⟩ := hfields.sizes h
  have hbin : (db'.links 0).count = 0 := by
    rw [hlinks 0 hpages.ne]
    exact h.bin
  have hcells : {((e i).index,(e i).blockid)} ⊆ (db.pool e).cells filePages (.held i) := by
    rw [Set.singleton_subset_iff]
    exact Extent.first_mem (e := (e i).extent) hpages
  have hempty : (db'.pool (Function.update e i z)).cells filePages (.held i) = ∅ := by
    rw [held_cells_self,extent_cells_empty hblock]
  refine ⟨hfields,?_⟩
  rw [← content_empty db' hdata]
  refine h.of_update ?_ hbin hoff hsize hlast (by rw [hblock,Nat.zero_mod]) (by rw [hdata,hblock])
    fun j hj => h.content_outside houtside hcells fun hc => hj (Owner.held.inj hc)
  refine h.pool.push (.held i) nofun hfree subset_rfl hempty ?_ ?_
  · intro o ho
    by_cases hi : o = .held i
    · rw [hi,hempty]
      exact Set.empty_subset _
    · rw [held_cells db db' e i z hfields.lastId hfields.lastOff hi ho]
  · change db'.lastOff/DB_PAGE_SIZE ≤ _
    rw [hfields.lastOff]
    exact h.pool.used

/-- What `i` holds given up. -/
theorem Sound.forget (h : db.Sound e m) (i : ι) {z : Dbx} (hblock : z.blockSize = 0) (hdata : z.ndata = 0) :
    db.Sound (Function.update e i z) (Function.update m i []) := by
  have hempty : (db.pool (Function.update e i z)).cells filePages (.held i) = ∅ := by
    rw [held_cells_self,extent_cells_empty hblock]
  rw [← content_empty db hdata]
  refine h.of_update ?_ h.bin h.off h.size h.last (by rw [hblock,Nat.zero_mod]) (by rw [hdata,hblock])
    fun j _ => h.content j
  refine h.pool.pass .tail (.held i) ?_ ?_ (fun o hi => ?_) h.pool.used
  · rw [hempty]
    exact Set.empty_subset _
  · rw [hempty]
    exact Set.disjoint_empty _
  · cases o with
    | free y k => exact subset_rfl
    | held j => exact (held_cells db db e i z rfl rfl hi nofun).subset
    | tail => exact subset_rfl
    | rest => exact subset_rfl

/-- A write within the run of a record, from where its bytes end or before. -/
theorem Sound.write (h : db.Sound e m) (i : ι) (hoff : off ≤ (e i).ndata)
    (hfits : off+data.length ≤ (e i).blockSize) :
    (db.writeFile (e i).index ((e i).blockid*DB_PAGE_SIZE+off) data).Sound
      (Function.update e i { e i with ndata := off+data.length })
      (Function.update m i ((m i).take off ++ data)) := by
  have hwhole := h.whole i
  have houtside : SameOutside (e i).extent.cells db
      (db.writeFile (e i).index ((e i).blockid*DB_PAGE_SIZE+off) data) := by
    apply writeFile_outside (r := (e i).extent) (Nat.le_add_right ..)
    change (e i).blockid*DB_PAGE_SIZE+off+data.length ≤
      ((e i).blockid+(e i).blockSize/DB_PAGE_SIZE)*DB_PAGE_SIZE
    unfold DB_PAGE_SIZE at hwhole ⊢
    omega
  have hfields := writeFile_fields db (e i).index ((e i).blockid*DB_PAGE_SIZE+off) data
  obtain ⟨hoff',hsize,hlast⟩ := hfields.sizes h
  have hcontent : (db.writeFile (e i).index ((e i).blockid*DB_PAGE_SIZE+off) data).content
      { e i with ndata := off+data.length } = (m i).take off ++ data := by
    have hbefore := h.content i
    unfold Db.content readFile at hbefore ⊢
    unfold writeFile
    dsimp only
    rw [Function.update_self]
    dsimp only
    rw [read_append,read_write_before _ _ le_rfl,read_write_self,← hbefore,take_read _ _ hoff]
  have hpool : (db.writeFile (e i).index ((e i).blockid*DB_PAGE_SIZE+off) data).pool
      (Function.update e i { e i with ndata := off+data.length }) = db.pool e := by
    have hheld : ∀ j, (Function.update e i { e i with ndata := off+data.length } j).extent =
        (e j).extent := by
      intro j
      by_cases hj : j = i
      · rw [hj,Function.update_self]
        rfl
      · rw [Function.update_of_ne hj]
    have hfree : ∀ x, (db.writeFile (e i).index ((e i).blockid*DB_PAGE_SIZE+off) data).freeBlocks x =
        db.freeBlocks x := fun x =>
      houtside.freeBlocks rfl fun b hb => h.free_not_mem (o := .held i) nofun hb
    unfold Db.pool
    simp only [hheld,funext hfree]
    rfl
  rw [← hcontent]
  refine h.of_update (by rw [hpool]; exact h.pool) h.bin hoff' hsize hlast hwhole hfits fun j hj => ?_
  exact h.content_outside (o := .held i) houtside subset_rfl fun hc => hj (Owner.held.inj hc)

/-- The first run on a link. -/
theorem Sound.popLink (h : db.Sound e m) (i : ι) (hx : 0 < x) (hcount : 0 < (db.links x).count) {next : ℕ × ℕ}
    (hnext : 1 < (db.links x).count →
      next = db.linkAt ((db.links x).index,(db.links x).blockid)) :
    (db.setLink x ⟨next.1,next.2,(db.links x).count-1⟩).Sound
      (Function.update e i ⟨x*DB_PAGE_SIZE,(db.links x).blockid,0,(db.links x).index⟩)
      (Function.update m i []) := by
  have hfree : db.freeBlocks =
      Function.update (db.setLink x ⟨next.1,next.2,(db.links x).count-1⟩).freeBlocks x
        (((db.links x).index,(db.links x).blockid) ::
          (db.setLink x ⟨next.1,next.2,(db.links x).count-1⟩).freeBlocks x) := by
    funext y
    by_cases hy : y = x
    · rw [hy,Function.update_self,freeBlocks_of_pos hcount]
      unfold freeBlocks setLink
      dsimp only
      rw [Function.update_self]
      by_cases hmore : 1 < (db.links x).count
      · rw [hnext hmore]
        rfl
      · rw [show (db.links x).count-1 = 0 by omega]
        rfl
    · rw [Function.update_of_ne hy]
      unfold freeBlocks setLink
      dsimp only
      rw [Function.update_of_ne hy]
      rfl
  have hrun : ((db.setLink x ⟨next.1,next.2,(db.links x).count-1⟩).pool (Function.update e i
      ⟨x*DB_PAGE_SIZE,(db.links x).blockid,0,(db.links x).index⟩)).cells filePages (.held i) ⊆
      (⟨(db.links x).index,(db.links x).blockid,x⟩ : Extent).cells := by
    rw [held_cells_self,extent_pages]
  have hbin : ((db.setLink x ⟨next.1,next.2,(db.links x).count-1⟩).links 0).count = 0 := by
    unfold setLink
    dsimp only
    rw [Function.update_of_ne hx.ne]
    exact h.bin
  rw [← content_empty (db.setLink x ⟨next.1,next.2,(db.links x).count-1⟩)
    (d := ⟨x*DB_PAGE_SIZE,(db.links x).blockid,0,(db.links x).index⟩) rfl]
  refine h.of_update ?_ hbin h.off h.size h.last (Nat.mul_mod_left ..) zero_le fun j _ => h.content j
  refine h.pool.pop (.held i) hfree hrun (fun o hi ho => ?_) h.pool.used
  exact (held_cells db (db.setLink x ⟨next.1,next.2,(db.links x).count-1⟩) e i _ rfl rfl hi ho).subset

/-- A run from the tail of the last file. -/
theorem Sound.popTail (h : db.Sound e m) (i : ι) (hroom : db.lastOff+DB_PAGE_SIZE*x ≤ DB_MFILE_SIZE) :
    ({ db with lastOff := db.lastOff+DB_PAGE_SIZE*x } : Db κ).Sound
      (Function.update e i ⟨x*DB_PAGE_SIZE,db.lastOff/DB_PAGE_SIZE,0,db.lastId⟩)
      (Function.update m i []) := by
  have hoff := h.off
  have hpages : (db.lastOff+DB_PAGE_SIZE*x)/DB_PAGE_SIZE = db.lastOff/DB_PAGE_SIZE+x := by
    unfold DB_PAGE_SIZE
    omega
  have hused : db.lastOff/DB_PAGE_SIZE+x ≤ filePages := by
    rw [← hpages]
    exact Nat.div_le_div_right hroom
  have hoff' : (db.lastOff+DB_PAGE_SIZE*x)%DB_PAGE_SIZE = 0 := by
    rw [Nat.add_mul_mod_self_left]
    exact hoff
  rw [← content_empty ({ db with lastOff := db.lastOff+DB_PAGE_SIZE*x } : Db κ)
    (d := ⟨x*DB_PAGE_SIZE,db.lastOff/DB_PAGE_SIZE,0,db.lastId⟩) rfl]
  refine h.of_update ?_ h.bin hoff' h.size h.last (Nat.mul_mod_left ..) zero_le fun j _ => h.content j
  refine h.pool.pass .tail (.held i) ?_ ?_ (fun o hi => ?_) (hpages.trans_le hused)
  · rw [held_cells_self,extent_pages]
    rintro ⟨k,p⟩ ⟨hfile,hlow,hhigh⟩
    refine ⟨hfile,hlow,?_⟩
    change p < db.lastOff/DB_PAGE_SIZE+(filePages-db.lastOff/DB_PAGE_SIZE)
    dsimp only at hhigh
    omega
  · rw [held_cells_self,extent_pages,Set.disjoint_left]
    rintro ⟨k,p⟩ ⟨-,hlow,-⟩ ⟨-,-,hhigh⟩
    change (db.lastOff+DB_PAGE_SIZE*x)/DB_PAGE_SIZE ≤ p at hlow
    dsimp only at hhigh
    omega
  · cases o with
    | held j =>
      change (Function.update e i _ j).extent.cells ⊆ _
      rw [Function.update_of_ne fun hc => hi (congrArg _ hc)]
      exact subset_rfl
    | free y k => exact subset_rfl
    | rest => exact subset_rfl
    | tail =>
      rintro ⟨k,p⟩ ⟨hfile,hlow,hhigh⟩
      change (db.lastOff+DB_PAGE_SIZE*x)/DB_PAGE_SIZE ≤ p at hlow
      change p < (db.lastOff+DB_PAGE_SIZE*x)/DB_PAGE_SIZE +
        (filePages-(db.lastOff+DB_PAGE_SIZE*x)/DB_PAGE_SIZE) at hhigh
      refine ⟨hfile,?_,?_⟩
      · change db.lastOff/DB_PAGE_SIZE ≤ p
        omega
      · change p < db.lastOff/DB_PAGE_SIZE+(filePages-db.lastOff/DB_PAGE_SIZE)
        omega

omit [DecidableEq ι] in
/-- What is left of the last file goes to a link. -/
theorem Sound.shelve (h : db.Sound e m) :
    let left := DB_MFILE_SIZE-db.lastOff
    let db₁ := if 0 < left then (db.pushBlock db.lastId (db.lastOff/DB_PAGE_SIZE) left).1 else db
    SameFields db db₁ ∧ ({ db₁ with lastOff := DB_MFILE_SIZE } : Db κ).Sound e m := by
  intro left db₁
  have hoff := h.off
  have hmod : DB_MFILE_SIZE%DB_PAGE_SIZE = 0 := by decide
  by_cases hleft : 0 < left
  · have hdb : db₁ = (db.pushBlock db.lastId (db.lastOff/DB_PAGE_SIZE) left).1 := if_pos hleft
    have hpages : dbBlocksCount left = filePages-db.lastOff/DB_PAGE_SIZE := by
      rw [dbBlocksCount_whole]
      · unfold left filePages DB_PAGE_SIZE DB_MFILE_SIZE at *
        omega
      · unfold left DB_PAGE_SIZE DB_MFILE_SIZE at *
        omega
    have hpos : 0 < filePages-db.lastOff/DB_PAGE_SIZE := by
      unfold left filePages DB_PAGE_SIZE DB_MFILE_SIZE at *
      omega
    have hpushed : Pushed db db₁ (filePages-db.lastOff/DB_PAGE_SIZE)
        (db.lastId,db.lastOff/DB_PAGE_SIZE) := by
      rw [hdb]
      exact h.pushed (o := .tail) nofun nofun subset_rfl hpos hpages
    obtain ⟨hfields,houtside,hfree,hlinks⟩ := hpushed
    obtain ⟨-,hsize,hlast⟩ := hfields.sizes h
    have hcells : {(db.lastId,db.lastOff/DB_PAGE_SIZE)} ⊆ (db.pool e).cells filePages .tail := by
      rw [Set.singleton_subset_iff]
      exact Extent.first_mem (e := ⟨db.lastId,db.lastOff/DB_PAGE_SIZE,_⟩) hpos
    have hempty : (({ db₁ with lastOff := DB_MFILE_SIZE } : Db κ).pool e).cells filePages .tail = ∅ :=
      Extent.cells_eq_empty (Nat.sub_self _)
    refine ⟨hfields,⟨?_,?_,hmod,hsize,hlast,h.whole,h.fits,?_⟩⟩
    · refine h.pool.push .tail nofun hfree subset_rfl hempty (fun o ho => ?_) le_rfl
      cases o with
      | held j => exact subset_rfl
      | free y k => exact absurd rfl (ho y k)
      | tail =>
        rw [hempty]
        exact Set.empty_subset _
      | rest =>
        change {c : ℕ × ℕ | db₁.lastId < c.1 ∧ c.2 < filePages} ⊆ _
        rw [hfields.lastId]
        exact subset_rfl
    · rw [hlinks 0 hpos.ne]
      exact h.bin
    · exact fun j => h.content_outside houtside hcells nofun
  · have hdb : db₁ = db := if_neg hleft
    have hused := h.pool.used
    have hfull : db.lastOff = DB_MFILE_SIZE := by
      change db.lastOff/DB_PAGE_SIZE ≤ filePages at hused
      unfold left filePages DB_PAGE_SIZE DB_MFILE_SIZE at *
      omega
    rw [hdb,← hfull]
    exact ⟨.rfl' db,h⟩

/-- The next data file, with no page given out. -/
theorem Sound.openNext (h : db.Sound e m) (hlast : db.lastId+1 < DB_MFILE_MAX) :
    (({ db with lastOff := 0, lastId := db.lastId+1 } : Db κ).openFile (db.lastId+1)).Sound e m := by
  have hbytes : ∀ i, ((db.openFile (db.lastId+1)).dbsio i).bytes = (db.dbsio i).bytes := by
    intro i
    unfold openFile
    dsimp only
    by_cases hi : i = db.lastId+1
    · rw [hi,Function.update_self]
    · rw [Function.update_of_ne hi]
  have houtside : SameOutside ∅ db
      (({ db with lastOff := 0, lastId := db.lastId+1 } : Db κ).openFile (db.lastId+1)) := by
    intro i o _
    exact congrFun (hbytes i) o
  have hfree : (({ db with lastOff := 0, lastId := db.lastId+1 } : Db κ).openFile
      (db.lastId+1)).freeBlocks = db.freeBlocks := by
    funext x
    exact houtside.freeBlocks rfl fun b _ => Set.notMem_empty b
  refine ⟨?_,h.bin,rfl,?_,hlast,h.whole,h.fits,?_⟩
  · unfold Db.pool
    rw [hfree]
    have hzero : 0/DB_PAGE_SIZE ≤ filePages := by decide
    refine h.pool.pass .rest .tail ?_ ?_ (fun o ho => ?_) hzero
    · rintro ⟨k,p⟩ ⟨hfile,-,hhigh⟩
      change k = db.lastId+1 at hfile
      change p < 0/DB_PAGE_SIZE+(filePages-0/DB_PAGE_SIZE) at hhigh
      rw [Nat.zero_div,Nat.zero_add,Nat.sub_zero] at hhigh
      exact ⟨by change db.lastId < k; omega,hhigh⟩
    · rw [Set.disjoint_left]
      rintro ⟨k,p⟩ ⟨hlow,-⟩ ⟨hfile,-,-⟩
      change db.lastId+1 < k at hlow
      change k = db.lastId+1 at hfile
      omega
    · cases o with
      | held j => exact subset_rfl
      | free y k => exact subset_rfl
      | tail => exact absurd rfl ho
      | rest =>
        rintro ⟨k,p⟩ ⟨hlow,hhigh⟩
        change db.lastId+1 < k at hlow
        exact ⟨by change db.lastId < k; omega,hhigh⟩
  · intro k hk
    unfold openFile
    dsimp only
    by_cases hlast : k = db.lastId+1
    · rw [hlast,Function.update_self]
    · rw [Function.update_of_ne hlast]
      exact h.size k (by change k ≤ db.lastId+1 at hk; omega)
  · intro j
    rw [← h.content j]
    exact houtside.content (Set.disjoint_empty _) (h.whole j) (h.fits j)

/-- `db_pop_block` finds a run for `i`, unless it runs out of data files. -/
theorem Sound.pop (h : db.Sound e m) (i : ι) (hx : 0 < x) (hfit : x ≤ filePages) :
    (∃ b, (db.popBlock x).2 = some b ∧ (db.popBlock x).1.Sound
      (Function.update e i ⟨x*DB_PAGE_SIZE,b.2,0,b.1⟩) (Function.update m i [])) ∨
      (db.popBlock x).2 = none ∧ DB_MFILE_MAX ≤ (db.popBlock x).1.lastId := by
  unfold popBlock
  dsimp only
  rw [if_pos hx]
  by_cases hlink : 0 < (db.links x).count ∧ (db.links x).index < DB_MFILE_MAX
  · rw [if_pos hlink]
    exact .inl ⟨_,rfl,h.popLink i hx hlink.1 fun hmore => if_pos hmore⟩
  · rw [if_neg hlink,h.size db.lastId le_rfl]
    by_cases htail : DB_MFILE_SIZE-db.lastOff < DB_PAGE_SIZE*x
    · rw [if_pos htail]
      obtain ⟨hfields,hshelved⟩ := h.shelve
      generalize (if 0 < DB_MFILE_SIZE-db.lastOff then
        (db.pushBlock db.lastId (db.lastOff/DB_PAGE_SIZE) (DB_MFILE_SIZE-db.lastOff)).1 else db) = db₁
        at hfields hshelved ⊢
      by_cases hlast : db.lastId+1 < DB_MFILE_MAX
      · rw [if_pos hlast]
        rw [← hfields.lastId] at hlast ⊢
        have hfits : 0+DB_PAGE_SIZE*x ≤ DB_MFILE_SIZE := by
          unfold filePages DB_PAGE_SIZE DB_MFILE_SIZE at *
          omega
        have hnext := (hshelved.openNext hlast).popTail i hfits
        have hpage : (({ db₁ with lastOff := 0, lastId := db₁.lastId+1 } : Db κ).openFile
            (db₁.lastId+1)).lastOff/DB_PAGE_SIZE = 0 := Nat.zero_div _
        refine .inl ⟨_,rfl,?_⟩
        rw [← Nat.zero_add (DB_PAGE_SIZE*x)]
        rw [hpage] at hnext
        exact hnext
      · rw [if_neg hlast]
        exact .inr ⟨rfl,not_lt.mp hlast⟩
    · rw [if_neg htail]
      refine .inl ⟨_,rfl,h.popTail i ?_⟩
      unfold DB_PAGE_SIZE DB_MFILE_SIZE at *
      omega

end

end

end Db

end Sbase
