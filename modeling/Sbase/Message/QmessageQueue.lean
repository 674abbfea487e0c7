import Sbase.Message.Qmessage
import Sbase.Lib.Runs

/-! Every run of a message queue is a run of a queue of messages, up to the number of messages that
its nodes can hold. -/
namespace Sbase
open LinkedList Runs

/-- Where the nodes are: queued, free, or out at the thread that popped them. -/
structure Stocked (q : QMessage) (xs fs os : List ℕ) : Prop where
  queue : Chain q.next q.first xs
  last : q.last = xs.getLast?
  free : Chain q.next q.left fs
  total : q.total = xs.length
  nleft : q.nleft = fs.length
  lines : q.nlist ≤ QMSG_LINE_MAX
  qtotal : q.qtotal = q.line
  nodes : (xs ++ (fs ++ os)).Perm (List.range q.line)

variable {q : QMessage} {xs fs os : List ℕ} {i : ℕ}

namespace Stocked

theorem nodup (h : Stocked q xs fs os) : (xs ++ (fs ++ os)).Nodup :=
  h.nodes.nodup_iff.2 List.nodup_range

theorem lengths (h : Stocked q xs fs os) : xs.length + (fs.length + os.length) = q.line := by
  have hlen := h.nodes.length_eq
  rwa [List.length_append,List.length_append,List.length_range] at hlen

theorem queue_eq (h : Stocked q xs fs os) : q.queue = xs := by
  rw [QMessage.queue,h.total,Int.toNat_natCast]
  exact h.queue.walk_eq

theorem free_eq (h : Stocked q xs fs os) : q.free = fs := by
  rw [QMessage.free,h.nleft,Int.toNat_natCast]
  exact h.free.walk_eq

theorem qtotal_eq (h : Stocked q xs fs os) :
    q.qtotal = QMSG_INIT_NUM + q.nlist * QMSG_LINE_NUM := by
  rw [h.qtotal,QMessage.line]
  push_cast
  rfl

end Stocked

/-! ### The free list -/

theorem stockLeft_cons (q : QMessage) (i : ℕ) (is : List ℕ) :
    stockLeft q (i::is) = stockLeft (qmessageLeft q i) is := rfl

/-- Stocking the free list leaves everything but the free list and the links of its nodes. -/
theorem stockLeft_frame (q : QMessage) (is : List ℕ) :
    (stockLeft q is).first = q.first ∧ (stockLeft q is).last = q.last ∧
      (stockLeft q is).total = q.total ∧ (stockLeft q is).qtotal = q.qtotal ∧
      (stockLeft q is).nlist = q.nlist ∧ (stockLeft q is).msg = q.msg ∧
      (stockLeft q is).nleft = q.nleft + is.length ∧
      ∀ j ∉ is, (stockLeft q is).next j = q.next j := by
  induction is generalizing q with
  | nil => simp [stockLeft]
  | cons i is ih =>
    obtain ⟨hfirst,hlast,htotal,hqtotal,hnlist,hmsg,hnleft,hnext⟩ := ih (qmessageLeft q i)
    rw [stockLeft_cons]
    refine ⟨hfirst,hlast,htotal,hqtotal,hnlist,hmsg,?_,?_⟩
    · rw [hnleft,qmessageLeft,List.length_cons]
      push_cast
      ring
    · intro j hj
      rw [List.mem_cons,not_or] at hj
      rw [hnext j hj.2]
      exact Function.update_of_ne hj.1 _ _

theorem stockLeft_free {is : List ℕ} (h : Chain q.next q.left fs) (hnd : (is ++ fs).Nodup) :
    Chain (stockLeft q is).next (stockLeft q is).left (is.reverse ++ fs) := by
  induction is generalizing q fs with
  | nil => exact h
  | cons i is ih =>
    rw [List.cons_append,List.nodup_cons,List.mem_append,not_or] at hnd
    rw [stockLeft_cons,List.reverse_cons,List.append_assoc]
    apply ih
    · have hhead : (qmessageLeft q i).next i = q.left := Function.update_self ..
      refine ⟨rfl,?_⟩
      change Chain _ _ fs
      rw [hhead]
      apply h.congr
      intro j hj
      have hne : j ≠ i := fun he => hnd.1.2 (he ▸ hj)
      exact Function.update_of_ne hne _ _
    · have hperm : (is ++ ([i] ++ fs)).Perm (i::(is ++ fs)) := List.perm_middle
      rw [hperm.nodup_iff,List.nodup_cons,List.mem_append,not_or]
      exact hnd

/-- Stocking an empty free list. -/
theorem stockLeft_all {is : List ℕ} (h : q.left = none) (hnd : is.Nodup) :
    Chain (stockLeft q is).next (stockLeft q is).left is.reverse := by
  have hfree : Chain (stockLeft q is).next (stockLeft q is).left (is.reverse ++ []) :=
    stockLeft_free h (by rwa [List.append_nil])
  rwa [List.append_nil] at hfree

theorem init_stocked {is : List ℕ} (his : is.Perm (List.range QMSG_INIT_NUM)) :
    Stocked { stockLeft .zero is with qtotal := QMSG_INIT_NUM } [] is.reverse [] := by
  have hframe := stockLeft_frame .zero is
  have hnone : QMessage.zero.left = none := rfl
  have hfree := stockLeft_all hnone (his.nodup_iff.2 List.nodup_range)
  generalize stockLeft .zero is = s at hframe hfree ⊢
  obtain ⟨hfirst,hlast,htotal,-,hnlist,-,hnleft,-⟩ := hframe
  have hline : s.line = QMSG_INIT_NUM := by
    rw [QMessage.line,hnlist,QMessage.zero,zero_mul,add_zero]
  constructor
  · exact hfirst
  · exact hlast
  · exact hfree
  · exact htotal
  · rw [List.length_reverse]
    exact hnleft.trans (zero_add _)
  · change s.nlist ≤ _
    rw [hnlist]
    exact Nat.zero_le _
  · change (QMSG_INIT_NUM : ℤ) = (s.line : ℕ)
    rw [hline]
  · change List.Perm _ (List.range s.line)
    rw [hline,List.nil_append,List.append_nil]
    exact is.reverse_perm.trans his

theorem Stocked.left (h : Stocked q xs fs os) (hi : i ∈ os) :
    Stocked (qmessageLeft q i) xs (i::fs) (os.erase i) := by
  have hnd := h.nodup
  have hxs : i ∉ xs := fun hx => (List.nodup_append.1 hnd).2.2 i hx i (by simp [hi]) rfl
  have hfs : i ∉ fs := fun hf =>
    (List.nodup_append.1 (List.nodup_append.1 hnd).2.1).2.2 i hf i hi rfl
  have hnext : ∀ j ≠ i, (qmessageLeft q i).next j = q.next j := fun j hj =>
    Function.update_of_ne hj _ _
  constructor
  · apply h.queue.congr
    exact fun j hj => hnext j fun he => hxs (he ▸ hj)
  · exact h.last
  · have hhead : (qmessageLeft q i).next i = q.left := Function.update_self ..
    refine ⟨rfl,?_⟩
    rw [hhead]
    apply h.free.congr
    exact fun j hj => hnext j fun he => hfs (he ▸ hj)
  · exact h.total
  · change q.nleft + 1 = _
    rw [h.nleft,List.length_cons]
    push_cast
    rfl
  · exact h.lines
  · exact h.qtotal
  · have hperm : (i::fs ++ os.erase i).Perm (fs ++ os) := by
      have herase := List.perm_cons_erase hi
      exact (List.perm_middle.symm.trans (herase.symm.append_left fs))
    exact (hperm.append_left xs).trans h.nodes

/-! ### Pushing -/

/-- A new line: its first node is out, the others are free. -/
theorem Stocked.newLine (h : Stocked q xs [] os) (hlines : q.nlist < QMSG_LINE_MAX) {is : List ℕ}
    (his : List.range (q.line + QMSG_LINE_NUM) = List.range q.line ++ q.line::is) :
    Stocked { stockLeft { q with nlist := q.nlist + 1 } is with
        qtotal := (stockLeft { q with nlist := q.nlist + 1 } is).qtotal + QMSG_LINE_NUM }
      xs is.reverse (q.line::os) := by
  have hframe := stockLeft_frame { q with nlist := q.nlist + 1 } is
  have hnone : { q with nlist := q.nlist + 1 }.left = none := h.free
  have hrange : (List.range q.line ++ q.line::is).Nodup := his ▸ List.nodup_range
  have hnd := (List.nodup_append.1 hrange).2.1
  have hfree := stockLeft_all hnone (List.nodup_cons.1 hnd).2
  generalize stockLeft { q with nlist := q.nlist + 1 } is = s at hframe hfree ⊢
  obtain ⟨hfirst,hlast,htotal,hqtotal,hnlist,hmsg,hnleft,hnext⟩ := hframe
  have hline : s.line = q.line + QMSG_LINE_NUM := by
    rw [QMessage.line,hnlist,QMessage.line]
    ring
  constructor
  · change Chain s.next s.first xs
    rw [hfirst]
    apply h.queue.congr
    intro j hj
    apply hnext
    intro hmem
    have hlt : j ∈ List.range q.line := h.nodes.subset (by simp [hj])
    exact (List.nodup_append.1 hrange).2.2 j hlt j (List.mem_cons_of_mem _ hmem) rfl
  · exact hlast.trans h.last
  · exact hfree
  · exact htotal.trans h.total
  · have hzero := h.nleft
    rw [List.length_nil,Nat.cast_zero] at hzero
    change s.nleft = _
    rw [hnleft,List.length_reverse]
    change q.nleft + _ = _
    rw [hzero,zero_add]
  · change s.nlist ≤ _
    rw [hnlist]
    exact hlines
  · change s.qtotal + (QMSG_LINE_NUM : ℤ) = (s.line : ℕ)
    rw [hline,hqtotal]
    change q.qtotal + _ = _
    rw [h.qtotal]
    push_cast
    rfl
  · change List.Perm _ (List.range s.line)
    rw [hline,his,List.perm_iff_count]
    intro a
    have hcount := h.nodes.count_eq a
    simp only [List.count_append,List.count_nil,List.count_cons,List.count_reverse] at hcount ⊢
    omega

theorem range_line (n : ℕ) : List.range (n + QMSG_LINE_NUM) =
    List.range n ++ n::List.range' (n + 1) (QMSG_LINE_NUM - 1) := by
  rw [List.range_eq_range',List.range_eq_range',← List.range'_append_1,zero_add,
    ← List.range'_succ]
  rfl

theorem addLine_msg (q : QMessage) : (addLine q).msg = q.msg := by
  rw [addLine]
  generalize List.range' (q.line + 1) (QMSG_LINE_NUM - 1) = is
  exact (stockLeft_frame { q with nlist := q.nlist + 1 } is).2.2.2.2.2.1

/-- A node is found where one is free or a line can be added; until it is hung it is nowhere. -/
theorem Stocked.takeNode (h : Stocked q xs fs os) (hroom : fs ≠ [] ∨ q.nlist < QMSG_LINE_MAX) :
    ∃ i fs', (takeNode q).2 = some i ∧ Stocked (takeNode q).1 xs fs' (i::os) ∧
      (takeNode q).1.msg = q.msg := by
  have hfree := h.free
  cases fs with
  | cons f fs =>
    obtain ⟨hleft,hrest⟩ := hfree
    rw [Sbase.takeNode,hleft]
    refine ⟨f,fs,rfl,?_,rfl⟩
    constructor
    · exact h.queue
    · exact h.last
    · exact hrest
    · exact h.total
    · change q.nleft - 1 = _
      rw [h.nleft,List.length_cons]
      push_cast
      ring
    · exact h.lines
    · exact h.qtotal
    · exact (List.perm_middle.append_left xs).trans h.nodes
  | nil =>
    have hlines : q.nlist < QMSG_LINE_MAX := hroom.resolve_left (by simp)
    have hnone : q.left = none := hfree
    rw [Sbase.takeNode,hnone]
    dsimp only
    rw [if_pos hlines]
    exact ⟨q.line,_,rfl,h.newLine hlines (range_line q.line),addLine_msg q⟩

theorem takeNode_full (hleft : q.left = none) (hlines : q.nlist = QMSG_LINE_MAX) :
    takeNode q = (q,none) := by
  rw [takeNode,hleft]
  dsimp only
  rw [if_neg (by omega)]

/-- A node that is nowhere becomes the last of the queue. -/
theorem Stocked.hangNode (h : Stocked q xs fs (i::os)) (m : Message) :
    Stocked (hangNode q i m) (xs ++ [i]) fs os ∧
      (xs ++ [i]).map (hangNode q i m).msg = xs.map q.msg ++ [m] := by
  have hnd := h.nodup
  have hxs : i ∉ xs := fun hx => (List.nodup_append.1 hnd).2.2 i hx i (by simp) rfl
  have hfs : i ∉ fs := fun hf =>
    (List.nodup_append.1 (List.nodup_append.1 hnd).2.1).2.2 i hf i (by simp) rfl
  have hbase : ∀ j ≠ i, Function.update q.next i none j = q.next j := fun j hj =>
    Function.update_of_ne hj _ _
  have hnodes : (xs ++ [i] ++ (fs ++ os)).Perm (List.range q.line) := by
    apply List.Perm.trans _ h.nodes
    rw [List.append_assoc,List.singleton_append]
    exact (List.perm_middle.symm).append_left xs
  have hmsg : (xs ++ [i]).map (Function.update q.msg i m) = xs.map q.msg ++ [m] := by
    rw [List.map_append,List.map_singleton,Function.update_self]
    congr 1
    apply List.map_congr_left
    intro j hj
    have hji : j ≠ i := fun he => hxs (he ▸ hj)
    exact Function.update_of_ne hji _ _
  rw [Sbase.hangNode]
  have hlast := h.last
  cases hj : q.last with
  | none =>
    obtain rfl : xs = [] := List.getLast?_eq_none_iff.1 (hlast.symm.trans hj)
    refine ⟨?_,hmsg⟩
    constructor
    · exact ⟨rfl,Function.update_self ..⟩
    · rfl
    · apply h.free.congr
      exact fun j hj => hbase j fun he => hfs (he ▸ hj)
    · change q.total + 1 = _
      rw [h.total]
      rfl
    · exact h.nleft
    · exact h.lines
    · exact h.qtotal
    · exact hnodes
  | some j =>
    have hjlast : xs.getLast? = some j := hlast.symm.trans hj
    have hjxs : j ∈ xs := List.mem_of_getLast? hjlast
    have hji : j ≠ i := fun he => hxs (he ▸ hjxs)
    refine ⟨?_,hmsg⟩
    constructor
    · apply h.queue.concat
      · intro k hk
        have hki : k ≠ i := fun he => hxs (he ▸ hk)
        rw [hjlast]
        by_cases hkj : k = j
        · rw [hkj,if_pos rfl]
          exact Function.update_self ..
        · rw [if_neg fun he => hkj (Option.some.inj he).symm]
          exact (Function.update_of_ne hkj _ _).trans (hbase k hki)
      · exact (Function.update_of_ne hji.symm _ _).trans (Function.update_self ..)
      · cases xs with
        | nil => cases hjxs
        | cons x xs =>
          change q.first = _
          rw [h.queue.1]
          rfl
    · rw [List.getLast?_concat]
    · apply h.free.congr
      intro k hk
      have hki : k ≠ i := fun he => hfs (he ▸ hk)
      have hkj : k ≠ j := fun he =>
        (List.nodup_append.1 hnd).2.2 j hjxs k (by simp [hk]) he.symm
      exact (Function.update_of_ne hkj _ _).trans (hbase k hki)
    · change q.total + 1 = _
      rw [h.total,List.length_append]
      rfl
    · exact h.nleft
    · exact h.lines
    · exact h.qtotal
    · exact hnodes

/-- A push that finds a node hangs it at the end of the queue. -/
theorem Stocked.push (h : Stocked q xs fs os) (hroom : fs ≠ [] ∨ q.nlist < QMSG_LINE_MAX)
    (m : Message) : ∃ i fs', Stocked (qmessagePush q m) (xs ++ [i]) fs' os ∧
      (xs ++ [i]).map (qmessagePush q m).msg = xs.map q.msg ++ [m] := by
  obtain ⟨i,fs',htake,hstocked,hmsg⟩ := h.takeNode hroom
  have heq : qmessagePush q m = Sbase.hangNode (Sbase.takeNode q).1 i m := by
    rw [qmessagePush,show Sbase.takeNode q = ((Sbase.takeNode q).1,some i) from Prod.ext rfl htake]
  rw [heq,← hmsg]
  exact ⟨i,fs',hstocked.hangNode m⟩

theorem QMessage.line_max (h : q.nlist = QMSG_LINE_MAX) : q.line = QMSG_MAX := by
  rw [QMessage.line,h,QMSG_MAX]

/-- Below its capacity a queue has a free node or can add a line. -/
theorem Stocked.room (h : Stocked q xs fs os) (hfits : q.total + os.length < QMSG_MAX) :
    fs ≠ [] ∨ q.nlist < QMSG_LINE_MAX := by
  by_contra hfull
  rw [not_or,not_not,not_lt] at hfull
  obtain ⟨rfl,hlines⟩ := hfull
  have hlengths := h.lengths
  rw [QMessage.line_max (le_antisymm h.lines hlines),List.length_nil] at hlengths
  rw [h.total] at hfits
  omega

/-- At its capacity it has neither. -/
theorem Stocked.full (h : Stocked q xs fs os) (hfull : ¬ q.total + os.length < QMSG_MAX) :
    q.left = none ∧ q.nlist = QMSG_LINE_MAX := by
  have hlengths := h.lengths
  have hlines := h.lines
  rw [h.total] at hfull
  rw [QMessage.line] at hlengths
  rw [QMSG_MAX] at hfull
  have hnlist : q.nlist = QMSG_LINE_MAX := by
    have hmul : q.nlist * QMSG_LINE_NUM ≤ QMSG_LINE_MAX * QMSG_LINE_NUM :=
      Nat.mul_le_mul_right _ hlines
    have hmul' : QMSG_LINE_MAX * QMSG_LINE_NUM ≤ q.nlist * QMSG_LINE_NUM := by omega
    exact le_antisymm hlines (Nat.le_of_mul_le_mul_right hmul' (by decide))
  refine ⟨?_,hnlist⟩
  have hfs : fs = [] := by
    rw [← List.length_eq_zero_iff]
    rw [hnlist] at hlengths
    omega
  subst hfs
  exact h.free

/-- A queue whose nodes are all in use loses the message. -/
theorem qmessagePush_full (hleft : q.left = none) (hlines : q.nlist = QMSG_LINE_MAX) (m : Message) :
    qmessagePush q m = q := by
  rw [qmessagePush,takeNode_full hleft hlines]

theorem Stocked.pop (h : Stocked q (i::xs) fs os) :
    (qmessagePop q).2 = some i ∧ Stocked (qmessagePop q).1 xs fs (i::os) ∧
      (qmessagePop q).1.msg = q.msg := by
  have hnd := h.nodup
  obtain ⟨hfirst,hrest⟩ := h.queue
  have hxs : i ∉ xs := (List.nodup_cons.1 (List.nodup_append.1 hnd).1).1
  have hfs : i ∉ fs := fun hf => (List.nodup_append.1 hnd).2.2 i (by simp) i (by simp [hf]) rfl
  have hother : ∀ j ≠ i, Function.update q.next i none j = q.next j := fun j hj =>
    Function.update_of_ne hj _ _
  rw [qmessagePop,hfirst]
  refine ⟨rfl,?_,rfl⟩
  constructor
  · apply hrest.congr
    exact fun j hj => hother j fun he => hxs (he ▸ hj)
  · change (if q.next i = none then none else q.last) = _
    cases xs with
    | nil =>
      have hnone : q.next i = none := hrest
      rw [if_pos hnone]
      rfl
    | cons x xs =>
      rw [hrest.1,if_neg (by simp),h.last,List.getLast?_cons_cons]
  · apply h.free.congr
    exact fun j hj => hother j fun he => hfs (he ▸ hj)
  · change q.total - 1 = _
    rw [h.total,List.length_cons]
    push_cast
    ring
  · exact h.nleft
  · exact h.lines
  · exact h.qtotal
  · apply List.Perm.trans _ h.nodes
    rw [List.cons_append]
    exact (List.perm_middle.append_left xs).trans List.perm_middle

theorem Stocked.pop_empty (h : Stocked q [] fs os) : qmessagePop q = (q,none) := by
  have hfirst : q.first = none := h.queue
  rw [qmessagePop,hfirst]

/-! ### Runs -/

/-- The invariant of a run. -/
structure Tracked (w : MessageWorld) (xs fs : List ℕ) : Prop where
  stocked : Stocked w.q xs fs w.out
  fifo : w.pushed = w.popped ++ xs.map w.q.msg

variable {w : MessageWorld}

theorem Tracked.ok (h : Tracked w xs fs) : QueueOK w where
  fifo := by rw [h.stocked.queue_eq]; exact h.fifo
  queue := by rw [h.stocked.queue_eq]; exact h.stocked.queue
  free := by rw [h.stocked.free_eq]; exact h.stocked.free
  total := by rw [h.stocked.queue_eq]; exact h.stocked.total
  nodes := by rw [h.stocked.queue_eq,h.stocked.free_eq]; exact h.stocked.nodes
  qtotal := h.stocked.qtotal_eq
  sum := by
    have hlengths := h.stocked.lengths
    rw [h.stocked.nleft,h.stocked.total,h.stocked.qtotal]
    omega

theorem Tracked.push (h : Tracked w xs fs) (hfits : w.q.total + w.out.length < QMSG_MAX)
    (m : Message) : ∃ i gs, Tracked (w.push m) (xs ++ [i]) gs := by
  obtain ⟨i,gs,hstocked,hmsg⟩ := h.stocked.push (h.stocked.room hfits) m
  refine ⟨i,gs,hstocked,?_⟩
  change w.pushed ++ [m] = w.popped ++ (xs ++ [i]).map (qmessagePush w.q m).msg
  rw [hmsg,h.fifo,List.append_assoc]

theorem Tracked.pop (h : Tracked w xs fs) : ∃ ys gs, Tracked w.pop ys gs := by
  have hstocked := h.stocked
  cases xs with
  | nil =>
    refine ⟨[],fs,?_⟩
    rw [MessageWorld.pop,hstocked.pop_empty]
    exact h
  | cons i xs =>
    obtain ⟨hret,hstocked',hmsg⟩ := hstocked.pop
    refine ⟨xs,fs,?_⟩
    rw [MessageWorld.pop,show qmessagePop w.q = ((qmessagePop w.q).1,some i) from Prod.ext rfl hret]
    refine ⟨hstocked',?_⟩
    change w.pushed = w.popped ++ [(qmessagePop w.q).1.msg i] ++ xs.map (qmessagePop w.q).1.msg
    rw [hmsg,h.fifo,List.map_cons,List.append_assoc,List.singleton_append]

theorem Tracked.giveBack (h : Tracked w xs fs) (i : ℕ) :
    ∃ ys gs, Tracked (w.giveBack i) ys gs := by
  rw [MessageWorld.giveBack]
  split_ifs with hi
  · exact ⟨xs,i::fs,h.stocked.left hi,h.fifo⟩
  · exact ⟨xs,fs,h⟩

theorem MessageWorld.connPush_sends {c : Sender} {id : ℤ} (hc : c.sends id) :
    w.connPush c id = w.push (c.message id) := by
  rw [connPush,connPushMessage,if_pos hc]
  rfl

theorem MessageWorld.connPush_refused {c : Sender} {id : ℤ} (hc : ¬ c.sends id) :
    w.connPush c id = w := by
  rw [connPush,connPushMessage,if_neg hc]
  rfl

theorem Tracked.step (h : Tracked w xs fs) (op : QueueOp) (hfits : Fits w op) :
    ∃ ys gs, Tracked (op.apply w) ys gs := by
  cases op with
  | push m =>
    obtain ⟨i,gs,hpush⟩ := h.push (hfits rfl) m
    exact ⟨_,gs,hpush⟩
  | pop => exact h.pop
  | left i => exact h.giveBack i
  | connPush c id =>
    rw [QueueOp.apply]
    by_cases hc : c.sends id
    · rw [MessageWorld.connPush_sends hc]
      obtain ⟨i,gs,hpush⟩ := h.push (hfits hc) (c.message id)
      exact ⟨_,gs,hpush⟩
    · rw [MessageWorld.connPush_refused hc]
      exact ⟨xs,fs,h⟩

/-- A message pushed on a full queue is not in it. -/
theorem Tracked.lost (h : Tracked w xs fs) (hfull : ¬ w.q.total + w.out.length < QMSG_MAX)
    (m : Message) : ¬ QueueOK (w.push m) := by
  intro hok
  obtain ⟨hleft,hlines⟩ := h.stocked.full hfull
  have heq : (w.push m).q = w.q := qmessagePush_full hleft hlines m
  have hfifo := hok.fifo
  rw [heq,h.stocked.queue_eq] at hfifo
  change w.pushed ++ [m] = w.popped ++ xs.map w.q.msg at hfifo
  rw [← h.fifo] at hfifo
  simp at hfifo

theorem Tracked.not_ok (h : Tracked w xs fs) (op : QueueOp) (hfits : ¬ Fits w op) :
    ¬ QueueOK (op.apply w) := by
  rw [Fits,not_forall] at hfits
  obtain ⟨hpushes,hfull⟩ := hfits
  cases op with
  | push m => exact h.lost hfull m
  | pop => cases hpushes
  | left i => cases hpushes
  | connPush c id =>
    rw [QueueOp.apply,MessageWorld.connPush_sends hpushes]
    exact h.lost hfull _

theorem MessageWorld.init_tracked :
    Tracked .init [] (List.range QMSG_INIT_NUM).reverse :=
  ⟨init_stocked (List.Perm.refl _),rfl⟩

/-- A queue keeps its messages and its nodes in order through every run exactly when no message is
pushed while as many nodes are in use as there can be. -/
theorem qmessage_fifo_iff (ops : List QueueOp) :
    (∀ ks, ks <+: ops → QueueOK (ks.foldl QueueOp.apply .init)) ↔
      Allowed Fits QueueOp.apply .init ops := by
  apply always_iff_allowed (I := fun w => ∃ xs fs, Tracked w xs fs)
  · rintro w ⟨xs,fs,h⟩
    exact h.ok
  · rintro w op ⟨xs,fs,h⟩ hfits
    exact h.step op hfits
  · rintro w op ⟨xs,fs,h⟩ hfits
    exact h.not_ok op hfits
  · exact ⟨_,_,MessageWorld.init_tracked⟩

theorem pushes_tracked (m : Message) (n : ℕ) (hn : n ≤ QMSG_MAX) : ∃ xs fs,
    Tracked ((List.replicate n (QueueOp.push m)).foldl QueueOp.apply .init) xs fs ∧ xs.length = n ∧
      ((List.replicate n (QueueOp.push m)).foldl QueueOp.apply .init).out = [] := by
  induction n with
  | zero => exact ⟨[],_,MessageWorld.init_tracked,rfl,rfl⟩
  | succ n ih =>
    obtain ⟨xs,fs,h,hlen,hout⟩ := ih (by omega)
    rw [List.replicate_succ',List.foldl_concat]
    generalize (List.replicate n (QueueOp.push m)).foldl QueueOp.apply .init = w at h hout ⊢
    have hfits : w.q.total + w.out.length < QMSG_MAX := by
      rw [h.stocked.total,hout,hlen,List.length_nil]
      omega
    obtain ⟨i,gs,hpush⟩ := h.push hfits m
    exact ⟨_,gs,hpush,by rw [List.length_append,hlen]; rfl,hout⟩

/-- One message more than there can be nodes, pushed before any is popped. -/
theorem qmessage_push_dropped : ¬ QueueOK
    ((List.replicate (QMSG_MAX + 1) (QueueOp.push ⟨5,1,7,-1,0,0,0⟩)).foldl QueueOp.apply .init) := by
  obtain ⟨xs,fs,h,hlen,hout⟩ := pushes_tracked ⟨5,1,7,-1,0,0,0⟩ QMSG_MAX le_rfl
  rw [List.replicate_succ',List.foldl_concat]
  apply h.lost
  rw [h.stocked.total,hout,hlen,List.length_nil]
  omega

end Sbase
