import Sbase.Utils.MtrieMap

/-! The allocation of nodes over any sequence of additions from either end, within the `int`s of the
state. -/
namespace Sbase
open BlockTree LinkedList Runs

/-- Whether a position lies in the block of `size` nodes at `start`. -/
def InBlock (start size q : ℕ) : Prop := start ≤ q ∧ q < start + size

/-- The conditions on the allocation of nodes. -/
structure AllocOK (t : Mtrie) : Prop where
  kids : ∀ i, t.Live i → 0 < (t.nodes i).nchilds → MTRIE_LINE_MAX ≤ (t.nodes i).childs ∧
    (t.nodes i).childs + (t.nodes i).nchilds ≤ t.current
  sorted : ∀ i, t.Live i → ∀ q r, q < r → r < (t.nodes i).nchilds →
    (t.nodes ((t.nodes i).childs + q)).key.toNat < (t.nodes ((t.nodes i).childs + r)).key.toNat
  kids_apart : ∀ i j, t.Live i → t.Live j → i ≠ j → ∀ q,
    ¬ (InBlock (t.nodes i).childs (t.nodes i).nchilds q ∧
      InBlock (t.nodes j).childs (t.nodes j).nchilds q)
  free : ∃ bins : ℕ → List ℕ,
    (∀ num, 0 < num → num ≤ MTRIE_LINE_MAX → (t.list (num - 1)).count = (bins num).length ∧
      Thread (fun p => (t.nodes p).childs) (t.list (num - 1)).head (bins num) ∧
      (bins num).Nodup) ∧
    (∀ num, ∀ p ∈ bins num, MTRIE_LINE_MAX ≤ p ∧ p + num ≤ t.current) ∧
    (∀ num, ∀ p ∈ bins num, ∀ num', ∀ p' ∈ bins num', (num,p) ≠ (num',p') → ∀ q,
      ¬ (InBlock p num q ∧ InBlock p' num' q)) ∧
    (∀ num, ∀ p ∈ bins num, ∀ i, t.Live i → ∀ q,
      ¬ (InBlock p num q ∧ InBlock (t.nodes i).childs (t.nodes i).nchilds q)) ∧
    ∀ q, MTRIE_LINE_MAX ≤ q → q < t.current →
      (∃ i, t.Live i ∧ InBlock (t.nodes i).childs (t.nodes i).nchilds q) ∨
        ∃ num, ∃ p ∈ bins num, InBlock p num q
  capacity : t.current + t.left = t.total
  increment : ¬ (mtrieIncrement t).Overflowed → (∀ q < t.current, (mtrieIncrement t).nodes q = t.nodes q) ∧
    (mtrieIncrement t).list = t.list ∧ (mtrieIncrement t).id = t.id ∧
    (mtrieIncrement t).current = t.current ∧
    (mtrieIncrement t).current + (mtrieIncrement t).left = (mtrieIncrement t).total

theorem Laid.allocOK {t : Mtrie} {own : ℕ → Holder UInt8} {bins : ℕ → List ℕ}
    (h : Laid t own bins) : AllocOK t := by
  have hfree : ∀ num, ∀ p ∈ bins num, ∀ q, InBlock p num q → own q = .free num p :=
    fun num p hp q hq => (h.blocks hp).2.2.2.2 q hq.1 hq.2
  constructor
  · rintro i ⟨w,hi⟩ hpos
    exact h.bounds hi hpos
  · rintro i ⟨w,hi⟩
    exact (h.sorted hi).keys
  · rintro i j ⟨w,hi⟩ ⟨v,hj⟩ hne q ⟨hqi,hqj⟩
    exact hne (h.shape.apart hi hj hqi hqj)
  · refine ⟨bins,h.lists,?_,?_,?_,?_⟩
    · intro num p hp
      obtain ⟨-,-,hfloor,htop,-⟩ := h.blocks hp
      exact ⟨hfloor,htop⟩
    · rintro num p hp num' p' hp' hne q ⟨hq,hq'⟩
      have howner := hfree num p hp q hq
      rw [hfree num' p' hp' q hq'] at howner
      cases howner
      exact hne rfl
    · rintro num p hp i ⟨w,hi⟩ q ⟨hq,hqi⟩
      have howner := hfree num p hp q hq
      rw [h.shape.owned hi hqi] at howner
      cases howner
    · intro q hfloor htop
      cases hq : own q with
      | wild =>
        have := (h.wild q).mp hq
        omega
      | kids w =>
        obtain ⟨i,hi,hqi⟩ := h.shape.kids hq
        exact .inl ⟨i,⟨w,hi⟩,hqi⟩
      | free num p =>
        obtain ⟨hp,hqp⟩ := h.free hq
        exact .inr ⟨num,p,hp,hqp⟩
  · exact h.capacity
  · obtain ⟨hnodes,hlist,hid,hcurrent,hcap,-⟩ := mtrieIncrement_keeps h.capacity
    exact fun _ => ⟨hnodes,hlist,hid,hcurrent,hcap⟩

/-- The operations that add a key. -/
inductive AllocOp
  | add (key : List UInt8) (data : ℤ)
  | xadd (key : List UInt8)
  | radd (key : List UInt8) (data : ℤ)
  | rxadd (key : List UInt8)

namespace AllocOp

def apply (t : Mtrie) : AllocOp → Mtrie
  | add key data => (mtrieAdd t key data).1
  | xadd key => (mtrieXadd t key).1
  | radd key data => (mtrieRadd t key data).1
  | rxadd key => (mtrieRxadd t key).1

/-- Whether an addition finds the nodes and the id that it needs within an `int`. -/
def Fits (t : Mtrie) : AllocOp → Prop
  | add key _ => t.Room key
  | xadd key => t.Room key ∧ t.IdLeft key
  | radd key _ => t.Room key.reverse
  | rxadd key => t.Room key.reverse ∧ t.IdLeft key.reverse

end AllocOp

/-- The invariant of the states that additions reach. -/
structure Allocated (t : Mtrie) : Prop where
  mapped : ∃ a, Mapped t a
  size : ArraySized t
  int : ¬ t.Overflowed

namespace Allocated

variable {t : Mtrie}

/-- An addition leaves the range of an `int` exactly where it does not fit. -/
theorem apply (h : Allocated t) (op : AllocOp) : ArraySized (op.apply t) ∧
    ((op.apply t).Overflowed ↔ ¬ op.Fits t) ∧ ∃ a', Mapped (op.apply t) a' := by
  obtain ⟨a,ha⟩ := h.mapped
  cases op with
  | add key data => exact ha.give h.size h.int _ data key
  | xadd key => exact ha.number h.size h.int _ key
  | radd key data => exact ha.give h.size h.int _ data key.reverse
  | rxadd key => exact ha.number h.size h.int _ key.reverse

theorem step (h : Allocated t) {op : AllocOp} (hfits : op.Fits t) : Allocated (op.apply t) := by
  obtain ⟨hsize,hover,hmapped⟩ := h.apply op
  exact ⟨hmapped,hsize,fun ho => hover.mp ho hfits⟩

theorem allocOK (h : Allocated t) : AllocOK t ∧ ¬ t.Overflowed := by
  obtain ⟨a,ha⟩ := h.mapped
  obtain ⟨own,bins,hlaid⟩ := ha.laid
  exact ⟨hlaid.allocOK,h.int⟩

theorem init : Allocated mtrieInit := ⟨⟨_,mtrieInit_mapped⟩,.init,mtrieInit_int⟩

end Allocated

/-- A key needs a node for each of its bytes but the first in an empty trie. -/
theorem mtrieInit_fresh (b : UInt8) (bs : List UInt8) : mtrieInit.fresh (b::bs) = bs.length := by
  cases bs with
  | nil => rfl
  | cons c bs =>
    have hchild : mtrieInit.child b.toNat c = none := Laid.child_leaf rfl
    rw [Mtrie.fresh,Mtrie.freshAt,hchild]
    change 0 + 1 + (bs.length - (0 - 1)) = bs.length + 1
    omega

/-- A first key without room for it overflows `total`. -/
theorem Allocated.first_overflow {key : List UInt8} (data : ℤ) (hroom : ¬ mtrieInit.Room key) :
    ¬ ∀ done, done <+: [AllocOp.add key data] → AllocOK (done.foldl AllocOp.apply mtrieInit) ∧
      ¬ (done.foldl AllocOp.apply mtrieInit).Overflowed := by
  intro hall
  exact (hall [.add key data] List.prefix_rfl).2 ((Allocated.init.apply (.add key data)).2.1.mpr hroom)

end Sbase
