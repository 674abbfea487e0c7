import Sbase.Lib.Runs
import Sbase.Utils.Xqueue

/-! The queues of an `XQUEUE` do not touch one another: as long as calls go to open queues and the lines
suffice, every run is a run of separate queues. -/
namespace Sbase
open LinkedList Runs

section
variable {α : Type*}

/-! ### Separate queues -/

/-- The contents of the open queues. -/
abbrev Queues (α : Type*) := ℕ → Option (List (Option α))

/-- What is in a queue; nothing, when it is not open. -/
def Queues.at (A : Queues α) (qid : ℤ) : List (Option α) :=
  if 0 ≤ qid then (A qid.toNat).getD [] else []

/-- A change of one queue, if it is open. -/
def Queues.change (A : Queues α) (qid : ℤ) (f : List (Option α) → List (Option α)) : Queues α :=
  fun i => if (i : ℤ) = qid then (A i).map f else A i

/-- One call on separate queues: its answer and the queues after it. -/
def Serves (A : Queues α) : XqOp α → XqRet α → Queues α → Prop
  | .new, ret, B =>
    (∃ i : ℕ, XqId i ∧ A i = none ∧ ret = .qid i ∧ B = Function.update A i (some [])) ∨
      ((∀ i : ℕ, XqId i → A i ≠ none) ∧ ret = .qid (-1) ∧ B = A)
  | .push qid ptr, ret, B => ret = .void ∧ B = A.change qid (· ++ [ptr])
  | .pop qid, ret, B => ret = .ptr (A.at qid).head?.join ∧ B = A.change qid List.tail
  | .head qid, ret, B => ret = .ptr (A.at qid).head?.join ∧ B = A
  | .close qid, ret, B => ret = .void ∧ B = fun i : ℕ => if (i : ℤ) = qid then none else A i

/-- Where a node is: in a queue, on the free list, or with the `xqueue_push` that is about to use it. -/
inductive XqPlace
  | queue (i : ℕ)
  | free
  | hand
  deriving DecidableEq

/-- The root of a queue with these nodes. -/
def rootOf (isOpen : Bool) (ids : List ℕ) : XqRoot :=
  ⟨ids.length,if isOpen then 1 else 0,ids.head?,ids.getLast?⟩

/-- The lists `ids` hold the queues `A`, and each node is in one place. -/
structure XqLaid (q : XQueue α) (A : Queues α) (ids : ℕ → List ℕ) (free : List ℕ)
    (hand : Option ℕ) (place : ℕ → XqPlace) : Prop where
  roots : ∀ i, q.roots i = rootOf (A i).isSome (ids i)
  range : ∀ i, (A i).isSome → XqId i
  contents : ∀ i, (A i).getD [] = (ids i).map q.ptr
  list : ∀ i, Chain q.next (ids i).head? (ids i)
  freeList : Chain q.next q.left free
  mem_ids : ∀ i k, k ∈ ids i ↔ k < q.nlist * XQ_NODES_MAX ∧ place k = .queue i
  mem_free : ∀ k, k ∈ free ↔ k < q.nlist * XQ_NODES_MAX ∧ place k = .free
  mem_hand : ∀ k, hand = some k ↔ k < q.nlist * XQ_NODES_MAX ∧ place k = .hand
  waits : q.waits.Nodup ∧ ∀ i : ℕ, i ∈ q.waits ↔ XqId i ∧ A i = none
  lines : q.nlist ≤ XQ_LINE_MAX

/-- Every open queue is a list of its own with its length in `total`, the free ids are those of the queues
that are not open, and every node is in one queue or free. -/
def Isolated (q : XQueue α) (A : Queues α) : Prop :=
  ∃ ids free place, XqLaid q A ids free none place

variable {q q' : XQueue α} {A : Queues α} {ids : ℕ → List ℕ} {free : List ℕ} {hand : Option ℕ}
  {place : ℕ → XqPlace} {i node : ℕ}

theorem xqId_natCast (i : ℕ) : XqId (i : ℤ) ↔ 0 < i ∧ i < XQ_ROOTS_MAX := by
  unfold XqId
  omega

theorem xqueueInit_laid :
    XqLaid (xqueueInit : XQueue α) (fun _ => none) (fun _ => []) [] none fun _ => .free where
  roots i := rfl
  range i h := by cases h
  contents i := rfl
  list i := rfl
  freeList := rfl
  mem_ids i k := by simp
  mem_free k := by simp [xqueueInit]
  mem_hand k := by simp
  waits := by
    have hfold : (xqueueInit : XQueue α).waits = (List.range' 1 (XQ_ROOTS_MAX - 1)).reverse := by
      simp [xqueueInit]
    rw [hfold]
    refine ⟨List.nodup_reverse.mpr List.nodup_range',?_⟩
    intro i
    rw [List.mem_reverse,List.mem_range'_1,xqId_natCast]
    unfold XQ_ROOTS_MAX
    simp only [and_true]
    omega
  lines := by simp [xqueueInit]

namespace XqLaid

/-- The free ids are fewer than the places for them while some queue is open. -/
theorem waits_length (h : XqLaid q A ids free hand place) (hopen : (A i).isSome) :
    q.waits.length < XQ_ROOTS_MAX := by
  have hsub : i::q.waits ⊆ List.range XQ_ROOTS_MAX := by
    intro j hj
    rw [List.mem_range]
    rcases List.mem_cons.mp hj with rfl | hj
    · exact ((xqId_natCast j).mp (h.range j hopen)).2
    · exact ((xqId_natCast j).mp ((h.waits.2 j).mp hj).1).2
  have hnd : (i::q.waits).Nodup := by
    refine List.nodup_cons.mpr ⟨?_,h.waits.1⟩
    intro hm
    rw [((h.waits.2 i).mp hm).2] at hopen
    cases hopen
  have hle := (List.subperm_of_subset hnd hsub).length_le
  rw [List.length_range,List.length_cons] at hle
  omega

/-! ### The calls -/

theorem new (h : XqLaid q A ids free none place) :
    ∃ q' ret B, XqOp.run q .new = some (q',ret) ∧ Serves A .new ret B ∧ Isolated q' B := by
  cases hw : q.waits with
  | nil =>
    refine ⟨q,.qid (-1),A,by simp [XqOp.run,xqueueNew,hw],Or.inr ⟨?_,rfl,rfl⟩,ids,free,place,h⟩
    intro i hi hnone
    have := (h.waits.2 i).mpr ⟨hi,hnone⟩
    simp [hw] at this
  | cons i waits =>
    obtain ⟨hnd,hmem⟩ := h.waits
    rw [hw] at hnd hmem
    obtain ⟨hi,hclosed⟩ := (hmem i).mp (by simp)
    have hlt := ((xqId_natCast i).mp hi).2
    have hids : ids i = [] := by
      have := h.contents i
      rwa [hclosed,Option.getD_none,eq_comm,List.map_eq_nil_iff] at this
    have hrun : XqOp.run q .new = some ({ q with waits := waits }.setRoot i
        { q.roots i with status := 1 },.qid i) := by
      simp [XqOp.run,xqueueNew,hw,hlt]
    refine ⟨_,_,_,hrun,Or.inl ⟨i,hi,hclosed,rfl,rfl⟩,ids,free,place,
      ⟨?_,?_,?_,h.list,h.freeList,h.mem_ids,h.mem_free,h.mem_hand,?_,h.lines⟩⟩
    · intro j
      by_cases hj : j = i
      · subst hj
        simp [h.roots,rootOf,hids]
      · simp [h.roots,hj]
    · intro j hj
      by_cases hji : j = i
      · exact hji ▸ hi
      · rw [Function.update_of_ne hji] at hj
        exact h.range j hj
    · intro j
      by_cases hj : j = i
      · subst hj
        simp [hids]
      · rw [Function.update_of_ne hj]
        exact h.contents j
    · refine ⟨(List.nodup_cons.mp hnd).2,?_⟩
      intro j
      have hj := hmem j
      rw [List.mem_cons] at hj
      by_cases hji : j = i
      · subst hji
        simpa using (List.nodup_cons.mp hnd).1
      · rw [Function.update_of_ne hji,← hj]
        simp [hji]

/-- The node that a push takes is on no list. -/
theorem take (h : XqLaid q A ids free none place)
    (hroom : q.left = none → q.nlist < XQ_LINE_MAX) :
    ∃ q' node free' place', xqueueTake q = some (q',node) ∧
      XqLaid q' A ids free' (some node) place' := by
  have hhand : ∀ k, k < q.nlist * XQ_NODES_MAX → place k ≠ .hand := by
    intro k hk hp
    cases (h.mem_hand k).mpr ⟨hk,hp⟩
  cases free with
  | cons node rest =>
    obtain ⟨hleft,hrest⟩ := h.freeList
    obtain ⟨hlt,hfree⟩ := (h.mem_free node).mp (by simp)
    have hnd := List.nodup_cons.mp h.freeList.nodup
    have hrun : xqueueTake q =
        some ({ q with left := q.next node, nleft := q.nleft - 1 },node) := by
      simp [xqueueTake,hleft]
    refine ⟨_,node,rest,Function.update place node .hand,hrun,
      ⟨h.roots,h.range,h.contents,h.list,hrest,?_,?_,?_,h.waits,h.lines⟩⟩
    · intro i k
      rw [h.mem_ids]
      by_cases hk : k = node
      · simp [hk,hfree]
      · simp [hk]
    · intro k
      have hm := h.mem_free k
      by_cases hk : k = node
      · simp [hk,hnd.1]
      · simpa [hk] using hm
    · intro k
      by_cases hk : k = node
      · simp [hk,hlt]
      · simpa [hk,Ne.symm hk] using hhand k
  | nil =>
    have hleft : q.left = none := h.freeList
    have hline := hroom hleft
    obtain ⟨base,hbase⟩ : ∃ base, base = q.nlist * XQ_NODES_MAX := ⟨_,rfl⟩
    have hsize : (q.nlist + 1) * XQ_NODES_MAX = base + XQ_NODES_MAX := by rw [hbase]; ring
    rw [← hbase] at hhand
    obtain ⟨line,hline'⟩ : ∃ line, line = List.range' (base + 1) (XQ_NODES_MAX - 1) := ⟨_,rfl⟩
    have hnd : line.Nodup := hline' ▸ List.nodup_range'
    have hmem : ∀ k, k ∈ line ↔ base < k ∧ k < base + XQ_NODES_MAX := by
      intro k
      rw [hline',List.mem_range'_1]
      unfold XQ_NODES_MAX
      omega
    have hrun : xqueueTake q = some (
        { q with nlist := q.nlist + 1, next := (stack q.next q.left line).1,
                 left := (stack q.next q.left line).2 },base) := by
      simp [xqueueTake,hleft,hline,hbase,hline']
    have hpos : 0 < XQ_NODES_MAX := by decide
    have hold : ∀ i, ∀ k ∈ ids i, k < base := fun i k hk => hbase ▸ ((h.mem_ids i k).mp hk).1
    refine ⟨_,base,line.reverse,
      fun k => if k < base then place k else if k = base then .hand else .free,hrun,
      ⟨h.roots,h.range,h.contents,?_,?_,?_,?_,?_,h.waits,hline⟩⟩
    · intro i
      apply (h.list i).congr
      intro k hk
      apply stack_frame
      have := hold i k hk
      rw [hmem]
      omega
    · have hstack := h.freeList.stack (by rwa [List.append_nil])
      rwa [List.append_nil] at hstack
    · intro i k
      rw [h.mem_ids,hsize,← hbase]
      by_cases hk : k < base
      · simp [hk,show k < base + XQ_NODES_MAX by omega]
      · by_cases hkb : k = base <;> simp [hk,hkb]
    · intro k
      rw [List.mem_reverse,hmem,hsize]
      by_cases hk : k < base
      · have hplace : place k ≠ .free := by
          intro hp
          cases (h.mem_free k).mpr ⟨hbase ▸ hk,hp⟩
        simp [hk,hplace]
        omega
      · by_cases hkb : k = base
        · simp [hkb]
        · simp [hk,hkb]
          omega
    · intro k
      rw [hsize]
      by_cases hk : k < base
      · have hne : base ≠ k := by omega
        simp [hk,hhand k hk,hne]
      · by_cases hkb : k = base
        · simp [hkb,hpos]
        · simp [hk,hkb,Ne.symm hkb]

end XqLaid

/-- What `xqueueHang` writes. -/
theorem xqueueHang_fields {b : Bool} {xs : List ℕ} (hroot : q.roots i = rootOf b xs) (node : ℕ)
    (p : Option α) :
    (xqueueHang q i node p).roots = Function.update q.roots i (rootOf b (xs ++ [node])) ∧
      (∀ j, (xqueueHang q i node p).next j =
        if j = node then none else if xs.getLast? = some j then some node else q.next j) ∧
      (xqueueHang q i node p).ptr = Function.update q.ptr node p ∧
      (xqueueHang q i node p).left = q.left ∧ (xqueueHang q i node p).nlist = q.nlist ∧
      (xqueueHang q i node p).waits = q.waits := by
  have hlast : (q.roots i).last = xs.getLast? := by rw [hroot]; rfl
  unfold xqueueHang
  cases hl : xs.getLast? with
  | none =>
    obtain rfl := List.getLast?_eq_none_iff.mp hl
    simp [hroot,rootOf,Function.update_apply]
  | some last =>
    have hhead : (xs ++ [node]).head? = xs.head? := by
      cases xs with
      | nil => cases hl
      | cons x xs => rfl
    rw [hl] at hlast
    simp only [hlast]
    refine ⟨?_,?_,rfl,rfl,rfl,rfl⟩
    · simp [hroot,rootOf,hhead]
    · intro j
      by_cases hj : j = node
      · simp [hj]
      · by_cases hjl : last = j
        · simp [hj,hjl]
        · simp [hj,hjl,Ne.symm hjl]

namespace XqLaid

theorem hang (h : XqLaid q A ids free (some node) place) {l : List (Option α)} (hopen : A i = some l)
    (p : Option α) :
    XqLaid (xqueueHang q i node p) (Function.update A i (some (l ++ [p])))
      (Function.update ids i (ids i ++ [node])) free none (Function.update place node (.queue i)) := by
  obtain ⟨hroots,hnext,hptr,hleft,hnlist,hwaits⟩ := xqueueHang_fields (h.roots i) node p
  obtain ⟨hlt,hhand⟩ := (h.mem_hand node).mp rfl
  have hfree : ∀ k ∈ free, k ≠ node := by
    rintro k hk rfl
    have := ((h.mem_free k).mp hk).2
    simp [hhand] at this
  have hids : ∀ j, ∀ k ∈ ids j, k ≠ node := by
    rintro j k hk rfl
    have := ((h.mem_ids j k).mp hk).2
    simp [hhand] at this
  have hlast : ∀ k, (ids i).getLast? = some k → place k = .queue i := by
    intro k hk
    exact ((h.mem_ids i k).mp (List.mem_of_mem_getLast? hk)).2
  refine ⟨?_,?_,?_,?_,?_,?_,?_,?_,?_,hnlist ▸ h.lines⟩
  · intro j
    rw [hroots]
    by_cases hj : j = i
    · subst hj
      simp [hopen]
    · simp [hj,h.roots]
  · intro j hj
    by_cases hji : j = i
    · exact hji ▸ h.range i (by simp [hopen])
    · rw [Function.update_of_ne hji] at hj
      exact h.range j hj
  · intro j
    have hold : ∀ j, (ids j).map (Function.update q.ptr node p) = (ids j).map q.ptr := by
      intro j
      apply List.map_congr_left
      intro k hk
      exact Function.update_of_ne (hids j k hk) _ _
    rw [hptr]
    by_cases hj : j = i
    · subst hj
      have hc := h.contents j
      rw [hopen,Option.getD_some] at hc
      simp [hold,← hc]
    · simp [hj,hold,h.contents]
  · intro j
    by_cases hj : j = i
    · subst hj
      rw [Function.update_self]
      apply (h.list j).concat
      · intro k hk
        rw [hnext,if_neg (hids j k hk)]
      · rw [hnext,if_pos rfl]
      · cases ids j <;> rfl
    · rw [Function.update_of_ne hj]
      apply (h.list j).congr
      intro k hk
      rw [hnext,if_neg (hids j k hk),if_neg]
      intro hc
      have hk' := ((h.mem_ids j k).mp hk).2
      rw [hlast k hc] at hk'
      exact hj (XqPlace.queue.inj hk').symm
  · rw [hleft]
    apply h.freeList.congr
    intro k hk
    rw [hnext,if_neg (hfree k hk),if_neg]
    intro hc
    have hk' := ((h.mem_free k).mp hk).2
    rw [hlast k hc] at hk'
    cases hk'
  · intro j k
    rw [hnlist]
    have hm := h.mem_ids j k
    by_cases hk : k = node
    · subst hk
      by_cases hj : j = i
      · simp [hj,hlt]
      · have hnot : k ∉ ids j := fun hmem => hids j k hmem rfl
        simp [hj,hnot,Ne.symm hj]
    · by_cases hj : j = i
      · subst hj
        simpa [hk] using hm
      · simpa [hk,hj] using hm
  · intro k
    rw [hnlist]
    by_cases hk : k = node
    · subst hk
      have hnot : k ∉ free := fun hmem => hfree k hmem rfl
      simp [hnot]
    · simpa [hk] using h.mem_free k
  · intro k
    rw [hnlist]
    by_cases hk : k = node
    · simp [hk]
    · simpa [hk,Ne.symm hk] using h.mem_hand k
  · rw [hwaits]
    refine ⟨h.waits.1,?_⟩
    intro j
    rw [h.waits.2]
    by_cases hj : j = i
    · simp [hj,hopen]
    · simp [hj]

/-- The first node of a queue goes back to the free list. -/
theorem unhang (h : XqLaid q A ids free none place) {xs : List ℕ} {l : List (Option α)}
    (hids : ids i = node::xs) (hopen : A i = some l) :
    xqueuePop q i = ({ q.setRoot i (rootOf true xs) with
        next := Function.update q.next node q.left, left := some node, nleft := q.nleft + 1 },
      q.ptr node) ∧ l = q.ptr node :: xs.map q.ptr ∧
      XqLaid (xqueuePop q i).1 (Function.update A i (some (xs.map q.ptr))) (Function.update ids i xs)
        (node::free) none (Function.update place node .free) := by
  have hi := h.range i (by simp [hopen])
  have hchain := h.list i
  rw [hids] at hchain
  obtain ⟨-,hrest⟩ := hchain
  have hnd := (h.list i).nodup
  rw [hids,List.nodup_cons] at hnd
  have hnext : q.next node = xs.head? := by
    cases xs with
    | nil => exact hrest
    | cons x xs => exact hrest.1
  have hl : l = q.ptr node :: xs.map q.ptr := by
    have hc := h.contents i
    rwa [hopen,hids,Option.getD_some,List.map_cons] at hc
  obtain ⟨hlt,hplace⟩ := (h.mem_ids i node).mp (by simp [hids])
  have hfree : node ∉ free := by
    intro hm
    have := ((h.mem_free node).mp hm).2
    simp [hplace] at this
  have hother : ∀ j, j ≠ i → node ∉ ids j := by
    intro j hj hm
    have := ((h.mem_ids j node).mp hm).2
    rw [hplace] at this
    exact hj (XqPlace.queue.inj this).symm
  have hroot : q.roots i = rootOf true (node::xs) := by
    rw [h.roots,hopen,hids]
    rfl
  have hrun : xqueuePop q i = ({ q.setRoot i (rootOf true xs) with
      next := Function.update q.next node q.left, left := some node, nleft := q.nleft + 1 },
        q.ptr node) := by
    have hlast : (if xs = [] then none else some (xs.getLast?.getD node)) = xs.getLast? := by
      cases xs with
      | nil => rfl
      | cons x xs => simp [List.getLast?_cons]
    simp only [xqueuePop,if_pos hi,Int.toNat_natCast,hroot]
    simp [rootOf,hnext,hlast,List.getLast?_cons]
  refine ⟨hrun,hl,?_⟩
  rw [hrun]
  refine ⟨?_,?_,?_,?_,h.freeList.push hfree,?_,?_,?_,?_,h.lines⟩
  · intro j
    by_cases hj : j = i
    · simp [hj]
    · simp [hj,h.roots]
  · intro j hj
    by_cases hji : j = i
    · exact hji ▸ hi
    · rw [Function.update_of_ne hji] at hj
      exact h.range j hj
  · intro j
    by_cases hj : j = i
    · simp [hj]
    · simpa [hj] using h.contents j
  · intro j
    by_cases hj : j = i
    · subst hj
      rw [Function.update_self,← hnext]
      apply hrest.congr
      intro k hk
      have hne : k ≠ node := fun he => hnd.1 (he ▸ hk)
      exact Function.update_of_ne hne _ _
    · rw [Function.update_of_ne hj]
      apply (h.list j).congr
      intro k hk
      have hne : k ≠ node := fun he => hother j hj (he ▸ hk)
      exact Function.update_of_ne hne _ _
  · intro j k
    have hm := h.mem_ids j k
    by_cases hk : k = node
    · subst hk
      by_cases hj : j = i
      · simp [hj,hnd.1]
      · simp [hj,hother j hj]
    · by_cases hj : j = i
      · subst hj
        simpa [hk,hids] using hm
      · simpa [hk,hj] using hm
  · intro k
    by_cases hk : k = node
    · simp [hk,hlt]
    · simpa [hk] using h.mem_free k
  · intro k
    by_cases hk : k = node
    · simp [hk]
    · simpa [hk] using h.mem_hand k
  · refine ⟨h.waits.1,?_⟩
    intro j
    rw [XQueue.waits_setRoot,h.waits.2]
    by_cases hj : j = i
    · simp [hj,hopen]
    · simp [hj]

end XqLaid

/-- The loop of `xqueue_close` stacks the nodes of the queue on the free list. -/
theorem xqueueDrain_eq {xs : List ℕ} {fuel : ℕ} (h : Chain q.next (q.roots i).first xs)
    (hf : xs.length ≤ fuel) (root : XqRoot) :
    (xqueueDrain i fuel q).setRoot i root = { q.setRoot i root with
      next := (stack q.next q.left xs).1, left := (stack q.next q.left xs).2 } := by
  induction xs generalizing q fuel with
  | nil =>
    have hnone : (q.roots i).first = none := h
    cases fuel with
    | zero => rfl
    | succ fuel =>
      rw [xqueueDrain,hnone]
      rfl
  | cons x xs ih =>
    have hnd := List.nodup_cons.mp h.nodup
    obtain ⟨hfirst,hrest⟩ := h
    obtain ⟨fuel,rfl⟩ : ∃ f, fuel = f+1 := ⟨fuel-1,by simp at hf; omega⟩
    rw [xqueueDrain,hfirst]
    dsimp only
    rw [ih]
    · simp [XQueue.setRoot,stack]
    · simp only [XQueue.roots_setRoot,Function.update_self]
      apply hrest.congr
      intro k hk
      have hne : k ≠ x := fun he => hnd.1 (he ▸ hk)
      exact Function.update_of_ne hne _ _
    · simpa using hf

namespace XqLaid

theorem length_le (h : XqLaid q A ids free hand place) (i : ℕ) :
    (ids i).length ≤ q.nlist * XQ_NODES_MAX := by
  have hsub : ids i ⊆ List.range (q.nlist * XQ_NODES_MAX) := by
    intro k hk
    exact List.mem_range.mpr ((h.mem_ids i k).mp hk).1
  simpa using (List.subperm_of_subset (h.list i).nodup hsub).length_le

theorem close (h : XqLaid q A ids free none place) (hopen : (A i).isSome) :
    ∃ q', xqueueClose q i = some q' ∧ XqLaid q' (Function.update A i none) (Function.update ids i [])
      ((ids i).reverse ++ free) none fun k => if place k = .queue i then .free else place k := by
  have hi := h.range i hopen
  have hfirst : (q.roots i).first = (ids i).head? := by rw [h.roots]; rfl
  have hdrain := xqueueDrain_eq (hfirst.symm ▸ h.list i) (h.length_le i) XqRoot.zero
  have hroom := h.waits_length hopen
  have hrun : xqueueClose q i = some { q.setRoot i .zero with
      next := (stack q.next q.left (ids i)).1, left := (stack q.next q.left (ids i)).2,
      waits := i::q.waits } := by
    simp only [xqueueClose,if_pos hi,Int.toNat_natCast,hdrain]
    simp [hroom]
  have hnd : (ids i ++ free).Nodup := by
    refine List.nodup_append.mpr ⟨(h.list i).nodup,h.freeList.nodup,?_⟩
    rintro k hk _ hk' rfl
    have := ((h.mem_ids i k).mp hk).2.symm.trans ((h.mem_free k).mp hk').2
    cases this
  have hother : ∀ j, j ≠ i → ∀ k ∈ ids j, k ∉ ids i := by
    intro j hj k hk hk'
    have := ((h.mem_ids j k).mp hk).2.symm.trans ((h.mem_ids i k).mp hk').2
    exact hj (XqPlace.queue.inj this)
  refine ⟨_,hrun,⟨?_,?_,?_,?_,h.freeList.stack hnd,?_,?_,?_,?_,h.lines⟩⟩
  · intro j
    by_cases hj : j = i
    · subst hj
      simp [rootOf,XqRoot.zero]
    · simp [hj,h.roots]
  · intro j hj
    by_cases hji : j = i
    · exact hji ▸ hi
    · rw [Function.update_of_ne hji] at hj
      exact h.range j hj
  · intro j
    by_cases hj : j = i
    · simp [hj]
    · simpa [hj] using h.contents j
  · intro j
    by_cases hj : j = i
    · subst hj
      rw [Function.update_self]
      rfl
    · rw [Function.update_of_ne hj]
      apply (h.list j).congr
      intro k hk
      exact stack_frame _ _ (hother j hj k hk)
  · intro j k
    have hm := h.mem_ids j k
    by_cases hj : j = i
    · subst hj
      simp
      intro _
      split_ifs <;> simp_all
    · by_cases hk : place k = .queue i
      · simp [hj,hm,hk,Ne.symm hj]
      · simpa [hj,hk] using hm
  · intro k
    rw [List.mem_append,List.mem_reverse,h.mem_ids,h.mem_free]
    by_cases hk : place k = .queue i
    · simp [hk]
    · simp [hk]
  · intro k
    have hm := h.mem_hand k
    by_cases hk : place k = .queue i
    · simp [hk]
    · simpa [hk] using hm
  · obtain ⟨hwnd,hmem⟩ := h.waits
    refine ⟨List.nodup_cons.mpr ⟨?_,hwnd⟩,?_⟩
    · intro hm
      rw [((hmem i).mp hm).2] at hopen
      cases hopen
    · intro j
      rw [List.mem_cons,hmem]
      by_cases hj : j = i
      · simp [hj,hi]
      · simp [hj]

end XqLaid

/-! ### Runs -/

theorem Queues.change_natCast (A : Queues α) (i : ℕ) (f : List (Option α) → List (Option α)) :
    A.change i f = Function.update A i ((A i).map f) := by
  funext j
  by_cases hj : j = i
  · simp [Queues.change,hj]
  · simp [Queues.change,hj]

/-- A change of what is no open queue. -/
theorem Queues.change_of_none {A : Queues α} {qid : ℤ} (h : ∀ i : ℕ, (i : ℤ) = qid → A i = none)
    (f : List (Option α) → List (Option α)) : A.change qid f = A := by
  funext i
  unfold Queues.change
  split_ifs with hi
  · rw [h i hi]
    rfl
  · rfl

theorem Queues.at_of_none {A : Queues α} {qid : ℤ} (h : ∀ i : ℕ, (i : ℤ) = qid → A i = none) :
    A.at qid = [] := by
  unfold Queues.at
  split_ifs with hpos
  · rw [h qid.toNat (Int.toNat_of_nonneg hpos)]
    rfl
  · rfl

/-- The calls that the queues are made for: `xqueue_push` and `xqueue_close` get open queues, and a
push that finds no free node finds a free entry in `list`. -/
def Orderly (q : XQueue α) : XqOp α → Prop
  | .push qid _ => XqId qid →
    (q.roots qid.toNat).status = 1 ∧ (q.left = none → q.nlist < XQ_LINE_MAX)
  | .close qid => XqId qid → (q.roots qid.toNat).status = 1
  | _ => True

instance (q : XQueue α) (op : XqOp α) : Decidable (Orderly q op) := by
  cases op <;> unfold Orderly <;> infer_instance

/-- An id is that of an open queue, or none of the queues is meant. -/
theorem XqLaid.open_or_none (h : XqLaid q A ids free hand place) (qid : ℤ) :
    (∃ i : ℕ, qid = i ∧ XqId i ∧ (A i).isSome ∧ (q.roots i).status = 1) ∨
      (∀ i : ℕ, (i : ℤ) = qid → A i = none ∧ ids i = []) ∧
        (XqId qid → (q.roots qid.toNat).status ≠ 1 ∧ (q.roots qid.toNat).first = none) := by
  by_cases hopen : 0 ≤ qid ∧ (A qid.toNat).isSome
  · left
    obtain ⟨i,rfl⟩ := Int.eq_ofNat_of_zero_le hopen.1
    have hi : (A i).isSome := hopen.2
    exact ⟨i,rfl,h.range i hi,hi,by rw [h.roots,hi]; rfl⟩
  · right
    have hnone : ∀ i : ℕ, (i : ℤ) = qid → A i = none ∧ ids i = [] := by
      rintro i rfl
      have hi : A i = none := by simpa using hopen
      have hc := h.contents i
      rw [hi,Option.getD_none,eq_comm,List.map_eq_nil_iff] at hc
      exact ⟨hi,hc⟩
    refine ⟨hnone,?_⟩
    intro hid
    obtain ⟨i,rfl⟩ := Int.eq_ofNat_of_zero_le (show 0 ≤ qid from hid.1.le)
    obtain ⟨hi,hids⟩ := hnone i rfl
    rw [Int.toNat_natCast,h.roots,hi,hids]
    exact ⟨by simp [rootOf],rfl⟩

/-- An orderly call stays inside the arrays and is a call on separate queues. -/
theorem Isolated.step (h : Isolated q A) {op : XqOp α} (hop : Orderly q op) :
    ∃ q' ret B, op.run q = some (q',ret) ∧ Serves A op ret B ∧ Isolated q' B := by
  obtain ⟨ids,free,place,h⟩ := h
  cases op with
  | new => exact h.new
  | push qid p =>
    rcases h.open_or_none qid with ⟨i,rfl,hi,hopen,-⟩ | ⟨hnone,hclosed⟩
    · obtain ⟨l,hl⟩ := Option.isSome_iff_exists.mp hopen
      obtain ⟨q₁,node,free',place',htake,h₁⟩ := h.take (hop hi).2
      have hrun : XqOp.run q (.push i p) = some (xqueueHang q₁ i node p,.void) := by
        simp [XqOp.run,xqueuePush,hi,htake]
      refine ⟨_,_,_,hrun,⟨rfl,?_⟩,_,_,_,h₁.hang hl p⟩
      rw [Queues.change_natCast,hl]
      rfl
    · have hid : ¬ XqId qid := fun hid => (hclosed hid).1 (hop hid).1
      refine ⟨q,.void,A,by simp [XqOp.run,xqueuePush,hid],⟨rfl,?_⟩,ids,free,place,h⟩
      exact (Queues.change_of_none (fun i hi => (hnone i hi).1) _).symm
  | pop qid =>
    rcases h.open_or_none qid with ⟨i,rfl,hi,hopen,-⟩ | ⟨hnone,hclosed⟩
    · obtain ⟨l,hl⟩ := Option.isSome_iff_exists.mp hopen
      have hat : A.at i = l := by simp [Queues.at,hl]
      cases hids : ids i with
      | nil =>
        have hnil : l = [] := by
          have hc := h.contents i
          rwa [hl,hids] at hc
        have hpop : xqueuePop q i = (q,none) := by
          simp [xqueuePop,hi,h.roots,hids,rootOf]
        refine ⟨q,.ptr none,A,by simp only [XqOp.run,hpop],⟨?_,?_⟩,ids,free,place,h⟩
        · rw [hat,hnil]
          rfl
        · have hsame : (A i).map List.tail = A i := by simp [hl,hnil]
          rw [Queues.change_natCast,hsame,Function.update_eq_self]
      | cons node xs =>
        obtain ⟨hpop,hcons,hnext⟩ := h.unhang hids hl
        refine ⟨_,_,_,rfl,⟨?_,?_⟩,_,_,_,hnext⟩
        · rw [hat,hcons,hpop]
          rfl
        · rw [Queues.change_natCast,hl,hcons]
          rfl
    · have hpop : xqueuePop q qid = (q,none) := by
        by_cases hid : XqId qid
        · simp [xqueuePop,hid,(hclosed hid).2]
        · simp [xqueuePop,hid]
      have hA : ∀ i : ℕ, (i : ℤ) = qid → A i = none := fun i hi => (hnone i hi).1
      refine ⟨q,.ptr none,A,by simp only [XqOp.run,hpop],⟨?_,?_⟩,ids,free,place,h⟩
      · rw [Queues.at_of_none hA]
        rfl
      · exact (Queues.change_of_none hA _).symm
  | head qid =>
    refine ⟨q,_,A,rfl,⟨?_,rfl⟩,ids,free,place,h⟩
    rcases h.open_or_none qid with ⟨i,rfl,hi,hopen,-⟩ | ⟨hnone,hclosed⟩
    · have hat : A.at i = (ids i).map q.ptr := by simp [Queues.at,h.contents]
      rw [hat]
      cases hids : ids i <;> simp [xqueueHead,hi,h.roots,rootOf,hids]
    · rw [Queues.at_of_none fun i hi => (hnone i hi).1]
      by_cases hid : XqId qid
      · simp [xqueueHead,hid,(hclosed hid).2]
      · simp [xqueueHead,hid]
  | close qid =>
    rcases h.open_or_none qid with ⟨i,rfl,hi,hopen,-⟩ | ⟨hnone,hclosed⟩
    · obtain ⟨q',hclose,hlaid⟩ := h.close hopen
      have hrun : XqOp.run q (.close i) = some (q',.void) := by simp [XqOp.run,hclose]
      refine ⟨q',_,_,hrun,⟨rfl,?_⟩,_,_,_,hlaid⟩
      funext j
      by_cases hj : j = i
      · simp [hj]
      · simp [hj]
    · have hid : ¬ XqId qid := fun hid => (hclosed hid).1 (hop hid)
      refine ⟨q,.void,A,by simp [XqOp.run,xqueueClose,hid],⟨rfl,?_⟩,ids,free,place,h⟩
      funext i
      split_ifs with hi
      · exact (hnone i hi).1
      · rfl

/-- The answers to a sequence of calls and the queues after it. -/
def xqRun (q : XQueue α) : List (XqOp α) → Option (List (XqRet α) × XQueue α)
  | [] => some ([],q)
  | op::ops => (op.run q).bind fun s => (xqRun s.1 ops).map fun t => (s.2::t.1,t.2)

/-- Every call of the sequence is orderly when its turn comes. -/
def orderlyRun (q : XQueue α) : List (XqOp α) → Bool
  | [] => true
  | op::ops => decide (Orderly q op) && (op.run q).all fun s => orderlyRun s.1 ops

theorem Isolated.run (h : Isolated q A) {ops : List (XqOp α)} (hops : orderlyRun q ops = true) :
    ∃ rets q' B, xqRun q ops = some (rets,q') ∧
      Run (fun A l B => Serves A l.1 l.2 B) A (ops.zip rets) B ∧ Isolated q' B := by
  induction ops generalizing q A with
  | nil => exact ⟨[],q,A,rfl,.refl,h⟩
  | cons op ops ih =>
    rw [orderlyRun,Bool.and_eq_true,decide_eq_true_eq] at hops
    obtain ⟨q₁,ret,A₁,hrun,hserves,h₁⟩ := h.step hops.1
    rw [hrun,Option.all_some] at hops
    obtain ⟨rets,q',B,hrest,hB,h'⟩ := ih h₁ hops.2
    refine ⟨ret::rets,q',B,?_,?_,h'⟩
    · simp [xqRun,hrun,hrest]
    · exact hB.cons hserves

/-- Every sequence of orderly calls stays inside the arrays, is answered as by separate queues, and leaves
the state of such queues. -/
theorem xqueue_isolation (ops : List (XqOp α)) (h : orderlyRun xqueueInit ops = true) :
    ∃ rets q A, xqRun xqueueInit ops = some (rets,q) ∧
      Run (fun A l B => Serves A l.1 l.2 B) (fun _ => none) (ops.zip rets) A ∧ Isolated q A :=
  Isolated.run ⟨_,_,_,xqueueInit_laid⟩ h

theorem xqueue_isolation_two :
    ∃ rets q A, xqRun xqueueInit [.new,.new,.push 4095 (some 7),.push 4094 (some 8),.close 4095,
        .pop 4094] = some (rets,q) ∧
      Run (fun A l B => Serves A l.1 l.2 B) (fun _ => none)
        ([.new,.new,.push 4095 (some 7),.push 4094 (some 8),.close 4095,.pop 4094].zip rets) A ∧
      Isolated q A :=
  xqueue_isolation _ (by decide +kernel)

/-- A queue that is closed twice is handed out while it is open. -/
theorem xqueue_close_twice :
    (xqRun (xqueueInit : XQueue ℕ) [.new,.close 4095,.close 4095,.new]).map (fun s =>
      ((s.2.roots 4095).status,(xqueueNew s.2).map Prod.snd)) = some (1,some 4095) := by
  decide +kernel

end

end Sbase
