import Sbase.Utils.EvtimerList

/-! The invariant of `EVTIMER` over every sequence of operations.

Each id is in exactly one of three places: on the active list, on the free list, or fired, which
is still allocated but on neither list. `Timed` also lets one node be in hand, between its removal
from a list and its next insertion. -/
namespace Sbase
open LinkedList EvTimer

section
variable {H A : Type*}

/-- The ids of a timer. -/
def InRange (i : ℕ) : Prop := 0 < i ∧ i < EVTNODE_MAX

instance (i : ℕ) : Decidable (InRange i) := by unfold InRange; infer_instance

/-- The order of the active list: by expiry, ties in insertion order. -/
def Before (t : EvTimer H A) (stamp : ℕ → ℕ) (i j : ℕ) : Prop :=
  t.evusec i < t.evusec j ∨ (t.evusec i = t.evusec j ∧ stamp i < stamp j)

/-- The timer's lists are `active` and `free`. The number `stamp i` orders the insertions, of
which `clock` is the next, and `hand` is a node taken off both lists. -/
structure Timed (t : EvTimer H A) (stamp : ℕ → ℕ) (clock : ℕ) (active free : List ℕ)
    (hand : Option ℕ) : Prop where
  list : DList t.next t.prev t.head t.tail active
  freeList : Chain t.next t.left free
  active_on : ∀ i ∈ active, InRange i ∧ t.ison i = true
  free_off : ∀ i ∈ free, InRange i ∧ t.ison i = false
  off_free : ∀ i, InRange i → t.ison i = false → i ∈ free
  fired : ∀ i, InRange i → t.ison i = true → i ∉ active → hand ≠ some i →
    t.next i = none ∧ t.prev i = none
  id_eq : ∀ i, InRange i → (t.nodes i).id = i
  sorted : active.Pairwise (Before t stamp)
  stamped : ∀ i ∈ active, stamp i < clock

variable {t : EvTimer H A} {stamp : ℕ → ℕ} {clock : ℕ} {active free : List ℕ} {hand : Option ℕ}

theorem Timed.length_le (h : Timed t stamp clock active free hand) :
    active.length ≤ EVTNODE_MAX := by
  have hsub : active ⊆ List.range EVTNODE_MAX := by
    intro i hi
    exact List.mem_range.mpr (h.active_on i hi).1.2
  simpa using (List.subperm_of_subset h.list.nodup hsub).length_le

theorem Timed.not_mem_free (h : Timed t stamp clock active free hand) {i : ℕ}
    (hi : t.ison i = true) : i ∉ free := by
  intro hm
  have := (h.free_off i hm).2
  simp [hi] at this

theorem Timed.weakly_sorted (h : Timed t stamp clock active free hand) :
    active.Pairwise fun i j => t.evusec i ≤ t.evusec j := by
  refine h.sorted.imp ?_
  intro i j hij
  rcases hij with hlt | ⟨he, -⟩
  · exact hlt.le
  · exact he.le

/-- Inserting the node in hand. -/
theorem Timed.push {n : ℕ} (h : Timed t stamp clock active free (some n)) (hn : n ∉ active)
    (hr : InRange n) (hon : t.ison n = true) :
    ∃ as bs, active = as ++ bs ∧
      Timed (evtimerPush t n) (Function.update stamp n clock) (clock+1) (as ++ n::bs) free none := by
  obtain ⟨hleft, -, hcontent⟩ := evtimerPush_frame t n
  obtain ⟨as, bs, rfl, ha, hb, hlist, hsame⟩ :=
    evtimerPush_list h.list hn h.weakly_sorted h.length_le
  have hison : ∀ j, (evtimerPush t n).ison j = t.ison j := fun j => ison_eq_of_content (hcontent j)
  have hkey : ∀ j, (evtimerPush t n).evusec j = t.evusec j :=
    fun j => evusec_eq_of_content (hcontent j)
  have hne : ∀ j ∈ as ++ bs, j ≠ n := fun j hj he => hn (he ▸ hj)
  have hmem : ∀ j, j ∈ as ++ n::bs ↔ j = n ∨ j ∈ as ++ bs := by
    intro j
    simp only [List.mem_append, List.mem_cons]
    tauto
  refine ⟨as, bs, rfl, ⟨hlist, ?_, ?_, ?_, ?_, ?_, ?_, ?_, ?_⟩⟩
  · rw [hleft]
    refine h.freeList.congr ?_
    intro j hj
    have hjn : j ≠ n := fun he => h.not_mem_free hon (he ▸ hj)
    have hja : j ∉ as ++ bs := fun hm => h.not_mem_free (h.active_on j hm).2 hj
    exact congrArg EvtNode.next (hsame j hja hjn)
  · intro j hj
    rw [hison]
    rcases (hmem j).mp hj with rfl | hj
    · exact ⟨hr, hon⟩
    · exact h.active_on j hj
  · intro j hj
    rw [hison]
    exact h.free_off j hj
  · intro j hj hoff
    rw [hison] at hoff
    exact h.off_free j hj hoff
  · intro j hj hjon hja _
    rw [hison] at hjon
    have hja' := mt (hmem j).mpr hja
    rw [not_or] at hja'
    have hnode := hsame j hja'.2 hja'.1
    have := h.fired j hj hjon hja'.2 (by simpa using Ne.symm hja'.1)
    exact ⟨(congrArg EvtNode.next hnode).trans this.1, (congrArg EvtNode.prev hnode).trans this.2⟩
  · intro j hj
    rw [id_eq_of_content (hcontent j)]
    exact h.id_eq j hj
  · have hstep : ∀ i ∈ as ++ bs, ∀ j ∈ as ++ bs, Before t stamp i j →
        Before (evtimerPush t n) (Function.update stamp n clock) i j := by
      intro i hi j hj hij
      unfold Before
      rwa [hkey, hkey, Function.update_of_ne (hne i hi), Function.update_of_ne (hne j hj)]
    have hsorted := h.sorted.imp_of_mem fun hi hj => hstep _ hi _ hj
    rw [List.pairwise_append] at hsorted ⊢
    refine ⟨hsorted.1, List.pairwise_cons.mpr ⟨?_, hsorted.2.1⟩, ?_⟩
    · intro j hj
      left
      rw [hkey, hkey]
      exact hb j hj
    · intro i hi j hj
      rcases List.mem_cons.mp hj with rfl | hj
      · unfold Before
        have hin : i ≠ j := hne i (List.mem_append_left _ hi)
        rw [hkey, hkey, Function.update_self, Function.update_of_ne hin]
        have := ha i hi
        have := h.stamped i (List.mem_append_left _ hi)
        omega
      · exact hsorted.2.2 i hi j hj
  · intro j hj
    rcases (hmem j).mp hj with rfl | hj
    · rw [Function.update_self]
      omega
    · rw [Function.update_of_ne (hne j hj)]
      have := h.stamped j hj
      omega

/-- Taking an allocated node off the active list, or a fired one from nowhere. -/
theorem Timed.unlink {i : ℕ} (h : Timed t stamp clock active free none) (hr : InRange i)
    (hon : t.ison i = true) : Timed (evtimerUnlink t i) stamp clock (active.erase i) free (some i) := by
  obtain ⟨hleft, -, hcontent⟩ := evtimerUnlink_frame t i
  by_cases hi : i ∈ active
  · obtain ⟨hlist, hsame⟩ := evtimerUnlink_list h.list hi
    have hison : ∀ j, (evtimerUnlink t i).ison j = t.ison j :=
      fun j => ison_eq_of_content (hcontent j)
    have hkey : ∀ j, (evtimerUnlink t i).evusec j = t.evusec j :=
      fun j => evusec_eq_of_content (hcontent j)
    refine ⟨hlist, ?_, ?_, ?_, ?_, ?_, ?_, ?_, ?_⟩
    · rw [hleft]
      refine h.freeList.congr ?_
      intro j hj
      have hja : j ∉ active := fun hm => h.not_mem_free (h.active_on j hm).2 hj
      exact congrArg EvtNode.next (hsame j hja)
    · intro j hj
      rw [hison]
      exact h.active_on j (List.mem_of_mem_erase hj)
    · intro j hj
      rw [hison]
      exact h.free_off j hj
    · intro j hj hoff
      rw [hison] at hoff
      exact h.off_free j hj hoff
    · intro j hj hjon hja hji
      rw [hison] at hjon
      have hji' : j ≠ i := fun he => hji (by rw [he])
      have hja' : j ∉ active := fun hm => hja ((List.mem_erase_of_ne hji').mpr hm)
      have hnode := hsame j hja'
      have := h.fired j hj hjon hja' (by simp)
      exact ⟨(congrArg EvtNode.next hnode).trans this.1, (congrArg EvtNode.prev hnode).trans this.2⟩
    · intro j hj
      rw [id_eq_of_content (hcontent j)]
      exact h.id_eq j hj
    · refine (h.sorted.sublist List.erase_sublist).imp ?_
      intro a b hab
      unfold Before
      rwa [hkey, hkey]
    · intro j hj
      exact h.stamped j (List.mem_of_mem_erase hj)
  · obtain ⟨hn, hp⟩ := h.fired i hr hon hi (by simp)
    rw [evtimerUnlink_of_not_mem h.list hi hp hn, List.erase_of_not_mem hi]
    exact { h with fired := fun j hj hjon hja _ => h.fired j hj hjon hja (by simp) }

/-- Assigning to the node in hand, links and id apart. -/
theorem Timed.assign {i : ℕ} {f : EvtNode H A → EvtNode H A}
    (h : Timed t stamp clock active free (some i)) (hi : i ∉ active) (hon : t.ison i = true)
    (hid : (f (t.nodes i)).id = (t.nodes i).id) (hf : (f (t.nodes i)).ison = true) :
    Timed (t.modify i f) stamp clock active free (some i) := by
  have hsame : ∀ j, j ≠ i → (t.modify i f).nodes j = t.nodes j := by
    intro j hj
    simp [nodes_modify, hj]
  have hison : ∀ j, (t.modify i f).ison j = t.ison j := by
    intro j
    by_cases hj : j = i
    · subst hj
      rw [hon]
      simpa [ison, nodes_modify] using hf
    · exact congrArg EvtNode.ison (hsame j hj)
  have hne : ∀ j ∈ active, j ≠ i := fun j hj he => hi (he ▸ hj)
  refine ⟨?_, ?_, ?_, ?_, ?_, ?_, ?_, ?_, h.stamped⟩
  · refine h.list.congr ?_ ?_
    · exact fun j hj => congrArg EvtNode.next (hsame j (hne j hj))
    · exact fun j hj => congrArg EvtNode.prev (hsame j (hne j hj))
  · refine h.freeList.congr ?_
    intro j hj
    have hji : j ≠ i := fun he => h.not_mem_free hon (he ▸ hj)
    exact congrArg EvtNode.next (hsame j hji)
  · intro j hj
    rw [hison]
    exact h.active_on j hj
  · intro j hj
    rw [hison]
    exact h.free_off j hj
  · intro j hj hoff
    rw [hison] at hoff
    exact h.off_free j hj hoff
  · intro j hj hjon hja hji
    rw [hison] at hjon
    have hnode := hsame j fun he => hji (by rw [he])
    have := h.fired j hj hjon hja hji
    exact ⟨(congrArg EvtNode.next hnode).trans this.1, (congrArg EvtNode.prev hnode).trans this.2⟩
  · intro j hj
    by_cases hji : j = i
    · subst hji
      rw [nodes_modify, if_pos rfl, hid]
      exact h.id_eq j hj
    · rw [hsame j hji]
      exact h.id_eq j hj
  · refine h.sorted.imp_of_mem ?_
    intro a b ha hb hab
    unfold Before
    rw [evusec, evusec, hsame a (hne a ha), hsame b (hne b hb)]
    exact hab

theorem Timed.not_mem_active (h : Timed t stamp clock active free hand) {i : ℕ}
    (hi : t.ison i = false) : i ∉ active := by
  intro hm
  have := (h.active_on i hm).2
  simp [hi] at this

/-- Taking the first node off the free list and switching it on. -/
theorem Timed.allocate {i : ℕ} {rest : List ℕ} {f : EvtNode H A → EvtNode H A}
    (h : Timed t stamp clock active (i::rest) none)
    (hid : (f (t.nodes i)).id = (t.nodes i).id) (hf : (f (t.nodes i)).ison = true) :
    Timed (({ t with left := (t.nodes i).next } : EvTimer H A).modify i f) stamp clock active rest
      (some i) := by
  obtain ⟨t', ht'⟩ : ∃ t', t' = ({ t with left := (t.nodes i).next } : EvTimer H A).modify i f :=
    ⟨_, rfl⟩
  have hnodes : ∀ j, t'.nodes j = if j = i then f (t.nodes j) else t.nodes j := by
    intro j
    rw [ht', nodes_modify]
  have hsame : ∀ j, j ≠ i → t'.nodes j = t.nodes j := fun j hj => by rw [hnodes, if_neg hj]
  have hon : t'.ison i = true := by rw [ison, hnodes, if_pos rfl, hf]
  obtain ⟨hr, hoff⟩ := h.free_off i (by simp)
  have hia := h.not_mem_active hoff
  have hnd := List.nodup_cons.mp h.freeList.nodup
  have hne : ∀ j ∈ active, j ≠ i := fun j hj he => hia (he ▸ hj)
  have hne' : ∀ j ∈ rest, j ≠ i := fun j hj he => hnd.1 (he ▸ hj)
  have hlist := h.list.congr (fun j hj => congrArg EvtNode.next (hsame j (hne j hj)))
    (fun j hj => congrArg EvtNode.prev (hsame j (hne j hj)))
  have hfree := h.freeList.2.congr fun j hj => congrArg EvtNode.next (hsame j (hne' j hj))
  rw [← ht']
  refine ⟨?_, ?_, ?_, ?_, ?_, ?_, ?_, ?_, h.stamped⟩
  · subst ht'
    exact hlist
  · subst ht'
    exact hfree
  · intro j hj
    rw [ison, hsame j (hne j hj)]
    exact h.active_on j hj
  · intro j hj
    rw [ison, hsame j (hne' j hj)]
    exact h.free_off j (by simp [hj])
  · intro j hj hjoff
    have hji : j ≠ i := fun he => by simp [he, hon] at hjoff
    rw [ison, hsame j hji] at hjoff
    simpa [hji] using h.off_free j hj hjoff
  · intro j hj hjon hja hji
    have hji' : j ≠ i := fun he => hji (by rw [he])
    rw [ison, hsame j hji'] at hjon
    rw [next, prev, hsame j hji']
    exact h.fired j hj hjon hja (by simp)
  · intro j hj
    rw [hnodes]
    split_ifs with hji
    · rw [hji, hid]
      exact h.id_eq i hr
    · exact h.id_eq j hj
  · refine h.sorted.imp_of_mem ?_
    intro a b ha hb hab
    unfold Before
    rw [evusec, evusec, hsame a (hne a ha), hsame b (hne b hb)]
    exact hab

/-- Zeroing the node in hand and putting it on the free list. -/
theorem Timed.release {i : ℕ} (h : Timed t stamp clock active free (some i)) (hr : InRange i)
    (hia : i ∉ active) (hon : t.ison i = true) :
    Timed { t.modify i fun _ => { EvtNode.zero with id := i, next := t.left } with left := some i }
      stamp clock active (i::free) none := by
  obtain ⟨t', ht'⟩ : ∃ t' : EvTimer H A, t' = { t.modify i fun _ =>
    { EvtNode.zero with id := i, next := t.left } with left := some i } := ⟨_, rfl⟩
  have hnodes : ∀ j, t'.nodes j =
      if j = i then { EvtNode.zero with id := i, next := t.left } else t.nodes j := by
    intro j
    rw [ht', ← nodes_modify t i j fun _ => { EvtNode.zero with id := i, next := t.left }]
  have hsame : ∀ j, j ≠ i → t'.nodes j = t.nodes j := fun j hj => by rw [hnodes, if_neg hj]
  have hnode : t'.nodes i = { EvtNode.zero with id := i, next := t.left } := by
    rw [hnodes, if_pos rfl]
  have hne : ∀ j ∈ active, j ≠ i := fun j hj he => hia (he ▸ hj)
  have hne' : ∀ j ∈ free, j ≠ i := fun j hj he => h.not_mem_free hon (he ▸ hj)
  have hlist := h.list.congr (fun j hj => congrArg EvtNode.next (hsame j (hne j hj)))
    (fun j hj => congrArg EvtNode.prev (hsame j (hne j hj)))
  have hfree := h.freeList.congr fun j hj => congrArg EvtNode.next (hsame j (hne' j hj))
  have hleft : t'.next i = t.left := congrArg EvtNode.next hnode
  rw [← ht']
  refine ⟨?_, ⟨?_, ?_⟩, ?_, ?_, ?_, ?_, ?_, ?_, h.stamped⟩
  · subst ht'
    exact hlist
  · rw [ht']
  · rw [hleft]
    exact hfree
  · intro j hj
    rw [ison, hsame j (hne j hj)]
    exact h.active_on j hj
  · intro j hj
    rcases List.mem_cons.mp hj with rfl | hj
    · exact ⟨hr, congrArg EvtNode.ison hnode⟩
    · rw [ison, hsame j (hne' j hj)]
      exact h.free_off j hj
  · intro j hj hjoff
    by_cases hji : j = i
    · simp [hji]
    · rw [ison, hsame j hji] at hjoff
      exact List.mem_cons_of_mem i (h.off_free j hj hjoff)
  · intro j hj hjon hja _
    have hji : j ≠ i := by
      rintro rfl
      rw [ison, hnode] at hjon
      cases hjon
    rw [ison, hsame j hji] at hjon
    rw [next, prev, hsame j hji]
    exact h.fired j hj hjon hja fun he => hji (Option.some.inj he).symm
  · intro j hj
    rw [hnodes]
    split_ifs with hji
    · exact hji.symm
    · exact h.id_eq j hj
  · refine h.sorted.imp_of_mem ?_
    intro a b ha hb hab
    unfold Before
    rw [evusec, evusec, hsame a (hne a ha), hsame b (hne b hb)]
    exact hab

/-- The node that an operation gave to its caller, with the data of the call. -/
def armed (i : ℕ) (evusec : ℤ) (handler : Option H) (arg : Option A) : EvtNode H A :=
  ⟨i,true,evusec,arg,handler,none,none⟩

theorem evtimerPush_armed {evusec : ℤ} {handler : Option H} {arg : Option A} {i : ℕ}
    {f : EvtNode H A → EvtNode H A} (hid : (t.nodes i).id = i)
    (hf : (f (t.nodes i)).content = { (t.nodes i).content with
      handler := handler, arg := arg, evusec := evusec, ison := true }) :
    (evtimerPush (t.modify i f) i).content i = armed i evusec handler arg ∧
      ∀ j, j ≠ i → (evtimerPush (t.modify i f) i).content j = t.content j := by
  obtain ⟨-, -, hcontent⟩ := evtimerPush_frame (t.modify i f) i
  constructor
  · rw [hcontent, content, nodes_modify, if_pos rfl, hf]
    simp [EvtNode.content, armed, hid]
  · intro j hj
    rw [hcontent, content, nodes_modify, if_neg hj, content]

/-- `evtimer_add` fails for want of a handler, a positive timeout or a free node, or moves the
first free node to its place on the active list. -/
theorem Timed.add (h : Timed t stamp clock active free none) (now timeout : ℤ)
    (handler : Option H) (arg : Option A) :
    (evtimerAdd t now timeout handler arg = (t,-1) ∧
        (handler = none ∨ timeout ≤ 0 ∨ free = [])) ∨
      ∃ (i : ℕ) (as bs rest : List ℕ), active = as ++ bs ∧ free = i::rest ∧
        (evtimerAdd t now timeout handler arg).2 = i ∧
        Timed (evtimerAdd t now timeout handler arg).1 (Function.update stamp i clock) (clock+1)
          (as ++ i::bs) rest none ∧
        (evtimerAdd t now timeout handler arg).1.content i = armed i (now+timeout) handler arg ∧
        ∀ j, j ≠ i → (evtimerAdd t now timeout handler arg).1.content j = t.content j := by
  unfold evtimerAdd
  by_cases hok : handler.isSome ∧ 0 < timeout
  · simp only [if_pos hok]
    have hfree := h.freeList
    cases hleft : t.left with
    | none =>
      rw [hleft] at hfree
      cases free with
      | nil => exact Or.inl ⟨rfl, Or.inr (Or.inr rfl)⟩
      | cons j rest => cases hfree.1
    | some i =>
      right
      rw [hleft] at hfree
      obtain ⟨rest, rfl⟩ : ∃ rest, free = i::rest := by
        cases free with
        | nil => cases hfree
        | cons j rest => exact ⟨rest, by rw [Option.some.inj hfree.1]⟩
      obtain ⟨hr, hoff⟩ := h.free_off i (by simp)
      have hia := h.not_mem_active hoff
      have hid := h.id_eq i hr
      have htake := h.allocate (f := fun n =>
        { n.arm (now + timeout) handler arg with ison := true }) rfl rfl
      obtain ⟨as, bs, hsplit, hpush⟩ := htake.push hia hr (by simp [ison, nodes_modify])
      obtain ⟨hi, hj⟩ := evtimerPush_armed (t := { t with left := (t.nodes i).next })
        (f := fun n => { n.arm (now + timeout) handler arg with ison := true }) hid rfl
      exact ⟨i, as, bs, rest, hsplit, rfl, congrArg Nat.cast hid, hpush, hi, hj⟩
  · rw [if_neg hok]
    left
    refine ⟨rfl, ?_⟩
    cases handler with
    | none => exact Or.inl rfl
    | some f => exact Or.inr (Or.inl (not_lt.mp fun hpos => hok ⟨rfl, hpos⟩))

/-- An id that passes the tests of `evtimer_update` and `evtimer_delete` leaves its list. -/
theorem Timed.takeOut (h : Timed t stamp clock active free none) {evid : ℤ}
    (hok : (0 < evid ∧ evid < EVTNODE_MAX) ∧ (t.nodes evid.toNat).ison = true) :
    ∃ i : ℕ, evid = i ∧ InRange i ∧ t.ison i = true ∧
      Timed (evtimerUnlink t i) stamp clock (active.erase i) free (some i) ∧
      (evtimerUnlink t i).ison i = true ∧ i ∉ active.erase i := by
  obtain ⟨⟨hpos, hmax⟩, hon⟩ := hok
  obtain ⟨i, rfl⟩ := Int.eq_ofNat_of_zero_le hpos.le
  rw [Int.toNat_natCast] at hon
  have hr : InRange i := ⟨by omega, by omega⟩
  obtain ⟨-, -, hcontent⟩ := evtimerUnlink_frame t i
  refine ⟨i, rfl, hr, hon, h.unlink hr hon, ?_, ?_⟩
  · rw [ison_eq_of_content (hcontent i)]
    exact hon
  · exact fun hm => (h.list.nodup.mem_erase_iff.mp hm).1 rfl

theorem ison_of_refused {evid : ℤ}
    (hok : ¬ ((0 < evid ∧ evid < EVTNODE_MAX) ∧ (t.nodes evid.toNat).ison = true)) {i : ℕ}
    (he : evid = i) (hr : InRange i) : t.ison i = false := by
  subst he
  rw [Int.toNat_natCast] at hok
  cases hon : t.ison i with
  | false => rfl
  | true => exact absurd ⟨⟨by exact_mod_cast hr.1, by exact_mod_cast hr.2⟩, hon⟩ hok

/-- `evtimer_update` fails on an id that is not allocated, and otherwise moves its node, fired or
not, to its new place. -/
theorem Timed.update (h : Timed t stamp clock active free none) (evid now timeout : ℤ)
    (handler : Option H) (arg : Option A) :
    (evtimerUpdate t evid now timeout handler arg = (t,-1) ∧
        ∀ i : ℕ, evid = i → InRange i → t.ison i = false) ∨
      ∃ (i : ℕ) (as bs : List ℕ), evid = i ∧ InRange i ∧ t.ison i = true ∧
        active.erase i = as ++ bs ∧ (evtimerUpdate t evid now timeout handler arg).2 = 0 ∧
        Timed (evtimerUpdate t evid now timeout handler arg).1 (Function.update stamp i clock)
          (clock+1) (as ++ i::bs) free none ∧
        (evtimerUpdate t evid now timeout handler arg).1.content i =
          armed i (now+timeout) handler arg ∧
        ∀ j, j ≠ i → (evtimerUpdate t evid now timeout handler arg).1.content j = t.content j := by
  by_cases hok : (0 < evid ∧ evid < EVTNODE_MAX) ∧ (t.nodes evid.toNat).ison = true
  · right
    obtain ⟨i, rfl, hr, hon, hun, hon', hia⟩ := h.takeOut hok
    obtain ⟨-, -, hcontent⟩ := evtimerUnlink_frame t i
    have hset := hun.assign (f := fun n => n.arm (now + timeout) handler arg) hia hon' rfl hon'
    obtain ⟨as, bs, hsplit, hpush⟩ := hset.push hia hr
      (by rw [ison, nodes_modify, if_pos rfl]; exact hon')
    have hcont : (((evtimerUnlink t i).nodes i).arm (now+timeout) handler arg).content =
        { ((evtimerUnlink t i).nodes i).content with
          handler := handler, arg := arg, evusec := now+timeout, ison := true } := by
      have : ((evtimerUnlink t i).nodes i).ison = true := hon'
      simp [EvtNode.content, EvtNode.arm, this]
    obtain ⟨hi, hj⟩ := evtimerPush_armed (t := evtimerUnlink t i)
      (f := fun n => n.arm (now + timeout) handler arg) (hun.id_eq i hr) hcont
    have heq : evtimerUpdate t i now timeout handler arg = (evtimerPush
        ((evtimerUnlink t i).modify i fun n => n.arm (now + timeout) handler arg) i, 0) := by
      have hon0 : (t.nodes i).ison = true := hon
      simp [evtimerUpdate, hr.1, hr.2, hon0]
    rw [heq]
    refine ⟨i, as, bs, rfl, hr, hon, hsplit, rfl, hpush, hi, ?_⟩
    intro j hji
    rw [hj j hji, hcontent]
  · left
    refine ⟨?_, fun i => ison_of_refused hok⟩
    unfold evtimerUpdate
    by_cases hr : 0 < evid ∧ evid < EVTNODE_MAX
    · rw [if_pos hr]
      exact if_neg fun hon => hok ⟨hr, hon⟩
    · rw [if_neg hr]

/-- `evtimer_delete` does nothing on an id that is not allocated, and otherwise frees its node. -/
theorem Timed.delete (h : Timed t stamp clock active free none) (evid : ℤ) :
    ((evtimerDelete t evid).1 = t ∧ ∀ i : ℕ, evid = i → InRange i → t.ison i = false) ∨
      ∃ i : ℕ, evid = i ∧ InRange i ∧ t.ison i = true ∧
        Timed (evtimerDelete t evid).1 stamp clock (active.erase i) (i::free) none ∧
        ∀ j, j ≠ i → (evtimerDelete t evid).1.content j = t.content j := by
  by_cases hok : (0 < evid ∧ evid < EVTNODE_MAX) ∧ (t.nodes evid.toNat).ison = true
  · right
    obtain ⟨i, rfl, hr, hon, hun, hon', hia⟩ := h.takeOut hok
    obtain ⟨-, -, hcontent⟩ := evtimerUnlink_frame t i
    have heq : (evtimerDelete t i).1 = { (evtimerUnlink t i).modify i fun _ =>
        { EvtNode.zero with id := i, next := (evtimerUnlink t i).left } with left := some i } := by
      have hon0 : (t.nodes i).ison = true := hon
      simp [evtimerDelete, hr.1, hr.2, hon0]
    rw [heq]
    refine ⟨i, rfl, hr, hon, hun.release hr hia hon', ?_⟩
    intro j hji
    rw [← hcontent, content, content]
    simp [nodes_modify, hji]
  · left
    refine ⟨?_, fun i => ison_of_refused hok⟩
    unfold evtimerDelete
    by_cases hr : 0 < evid ∧ evid < EVTNODE_MAX
    · rw [if_pos hr]
      exact congrArg Prod.fst (if_neg fun hon => hok ⟨hr, hon⟩)
    · rw [if_neg hr]

/-- Expiring takes off exactly the nodes whose time has passed, in their order. -/
theorem Timed.expire (h : Timed t stamp clock active free none) (now : ℤ) :
    active = active.filter (fun i => t.evusec i < now) ++ active.filter (fun i => now ≤ t.evusec i) ∧
      Timed (evtimerExpire now EVTNODE_MAX t) stamp clock
        (active.filter fun i => now ≤ t.evusec i) free none ∧
      (evtimerExpire now EVTNODE_MAX t).timeouts =
        t.timeouts ++ active.filter (fun i => t.evusec i < now) ∧
      ∀ j, (evtimerExpire now EVTNODE_MAX t).content j = t.content j := by
  obtain ⟨due, rest, rfl, hdue, hstop, hlist, htimeouts, hleft, hcontent, hdone, hsame⟩ :=
    evtimerExpire_list now h.list h.length_le
  have hlate : ∀ i ∈ rest, now ≤ t.evusec i := by
    intro i hi
    cases rest with
    | nil => cases hi
    | cons y ys =>
      have hy := hstop y rfl
      rcases List.mem_cons.mp hi with rfl | hi
      · exact hy
      · have hs := (List.pairwise_append.mp h.weakly_sorted).2.1
        exact hy.trans ((List.pairwise_cons.mp hs).1 i hi)
  have hearly : (due ++ rest).filter (fun i => t.evusec i < now) = due := by
    rw [List.filter_append, List.filter_eq_self.mpr, List.filter_eq_nil_iff.mpr, List.append_nil]
    · intro i hi
      simpa using hlate i hi
    · intro i hi
      simpa using hdue i hi
  have hrest : (due ++ rest).filter (fun i => now ≤ t.evusec i) = rest := by
    rw [List.filter_append, List.filter_eq_nil_iff.mpr, List.filter_eq_self.mpr, List.nil_append]
    · intro i hi
      simpa using hlate i hi
    · intro i hi
      simpa using hdue i hi
  have hids : due.map (fun i => (t.nodes i).id) = due := by
    conv_rhs => rw [← List.map_id due]
    refine List.map_congr_left fun i hi => ?_
    exact h.id_eq i (h.active_on i (List.mem_append_left _ hi)).1
  have hison : ∀ j, (evtimerExpire now EVTNODE_MAX t).ison j = t.ison j :=
    fun j => ison_eq_of_content (hcontent j)
  have hkey : ∀ j, (evtimerExpire now EVTNODE_MAX t).evusec j = t.evusec j :=
    fun j => evusec_eq_of_content (hcontent j)
  rw [hearly, hrest]
  refine ⟨rfl, ⟨hlist, ?_, ?_, ?_, ?_, ?_, ?_, ?_, ?_⟩, by rw [htimeouts, hids], hcontent⟩
  · rw [hleft]
    refine h.freeList.congr ?_
    intro j hj
    exact congrArg EvtNode.next (hsame j (h.not_mem_active (h.free_off j hj).2))
  · intro j hj
    rw [hison]
    exact h.active_on j (List.mem_append_right _ hj)
  · intro j hj
    rw [hison]
    exact h.free_off j hj
  · intro j hj hoff
    rw [hison] at hoff
    exact h.off_free j hj hoff
  · intro j hj hon hja _
    rw [hison] at hon
    by_cases hjd : j ∈ due
    · exact hdone j hjd
    · have hja' : j ∉ due ++ rest := by simp [hjd, hja]
      have hnode := hsame j hja'
      have := h.fired j hj hon hja' (by simp)
      exact ⟨(congrArg EvtNode.next hnode).trans this.1, (congrArg EvtNode.prev hnode).trans this.2⟩
  · intro j hj
    rw [id_eq_of_content (hcontent j)]
    exact h.id_eq j hj
  · refine (List.pairwise_append.mp h.sorted).2.1.imp ?_
    intro a b hab
    unfold Before
    rwa [hkey, hkey]
  · intro j hj
    exact h.stamped j (List.mem_append_right _ hj)

theorem Timed.check (h : Timed t stamp clock active free none) (now : ℤ) :
    Timed (evtimerCheckLocked t now) stamp clock (active.filter fun i => now ≤ t.evusec i) free
        none ∧
      (t.head ≠ none →
        (evtimerCheckLocked t now).timeouts = active.filter fun i => t.evusec i < now) ∧
      ∀ j, (evtimerCheckLocked t now).content j = t.content j := by
  by_cases hhead : t.head = none
  · have heq : evtimerCheckLocked t now = t := by
      unfold evtimerCheckLocked
      rw [hhead]
    have hnil : active = [] := by
      have := h.list.head_eq
      rw [hhead] at this
      exact List.head?_eq_none_iff.mp this.symm
    subst hnil
    rw [heq]
    exact ⟨h, fun hne => absurd hhead hne, fun _ => rfl⟩
  · have heq : evtimerCheckLocked t now =
        evtimerExpire now EVTNODE_MAX { t with timeouts := [] } := by
      unfold evtimerCheckLocked
      cases ht : t.head with
      | none => exact absurd ht hhead
      | some x => rfl
    have h₀ : Timed { t with timeouts := [] } stamp clock active free none := { h with }
    obtain ⟨-, htimed, htimeouts, hcontent⟩ := h₀.expire now
    rw [heq]
    exact ⟨htimed, fun _ => htimeouts, hcontent⟩

theorem evtimerFill_spec (n : ℕ) :
    Chain (evtimerFill n : EvTimer H A).next (evtimerFill n : EvTimer H A).left
        (List.range' 1 n).reverse ∧
      (evtimerFill n : EvTimer H A).head = none ∧ (evtimerFill n : EvTimer H A).tail = none ∧
      (∀ i, (evtimerFill n : EvTimer H A).ison i = false) ∧
      ∀ i, 0 < i → i ≤ n → ((evtimerFill n : EvTimer H A).nodes i).id = i := by
  induction n with
  | zero => exact ⟨rfl, rfl, rfl, fun _ => rfl, fun i hi hn => by omega⟩
  | succ n ih =>
    obtain ⟨hchain, hhead, htail, hoff, hid⟩ := ih
    generalize ht : (evtimerFill n : EvTimer H A) = t at *
    have hfill : (evtimerFill (n+1) : EvTimer H A) =
        { t.modify (n+1) fun d => { d with next := t.left, id := n+1 } with left := some (n+1) } := by
      rw [evtimerFill, ht]
    have hnodes : ∀ j, (evtimerFill (n+1) : EvTimer H A).nodes j =
        if j = n+1 then { t.nodes j with next := t.left, id := n+1 } else t.nodes j := by
      intro j
      rw [← nodes_modify t (n+1) j fun d => { d with next := t.left, id := n+1 }, hfill]
    refine ⟨?_, ?_, ?_, ?_, ?_⟩
    · rw [List.range'_1_concat, List.reverse_concat, Nat.add_comm 1 n]
      refine ⟨by rw [hfill], ?_⟩
      have hnext : (evtimerFill (n+1) : EvTimer H A).next (n+1) = t.left := by
        rw [next, hnodes, if_pos rfl]
      rw [hnext]
      refine hchain.congr ?_
      intro i hi
      have hne : i ≠ n+1 := by
        simp at hi
        omega
      rw [next, hnodes, if_neg hne, next]
    · rw [hfill]
      exact hhead
    · rw [hfill]
      exact htail
    · intro i
      rw [ison, hnodes]
      have := hoff i
      split_ifs <;> exact this
    · intro i hpos hle
      rw [hnodes]
      split_ifs with hi
      · exact hi.symm
      · exact hid i hpos (by omega)

theorem evtimerInit_timed (stamp : ℕ → ℕ) (clock : ℕ) :
    Timed (evtimerInit : EvTimer H A) stamp clock [] (List.range' 1 (EVTNODE_MAX - 1)).reverse
      none := by
  unfold evtimerInit
  obtain ⟨n, hn⟩ : ∃ n, n = EVTNODE_MAX - 1 := ⟨_, rfl⟩
  rw [← hn]
  obtain ⟨hchain, hhead, htail, hoff, hid⟩ := evtimerFill_spec (H := H) (A := A) n
  have hrange : ∀ i, i ∈ (List.range' 1 n).reverse ↔ InRange i := by
    intro i
    rw [List.mem_reverse, List.mem_range'_1, hn]
    unfold InRange EVTNODE_MAX
    omega
  refine ⟨⟨List.nodup_nil, trivial, hhead, htail⟩, hchain, by simp, ?_, ?_, ?_, ?_, by simp, by simp⟩
  · intro i hi
    exact ⟨(hrange i).mp hi, hoff i⟩
  · intro i hi _
    exact (hrange i).mpr hi
  · intro i _ hon
    rw [hoff i] at hon
    cases hon
  · intro i hi
    exact hid i hi.1 (hn ▸ Nat.le_sub_one_of_lt hi.2)

/-! ### Sequences of operations -/

/-- A timer with the ghost numbering of its insertions. -/
structure Stamped (H A : Type*) where
  timer : EvTimer H A
  stamp : ℕ → ℕ
  clock : ℕ

/-- The state after an insertion of the node `evid`. -/
def Stamped.note (s : Stamped H A) (t : EvTimer H A) (evid : ℤ) : Stamped H A :=
  ⟨t,Function.update s.stamp evid.toNat s.clock,s.clock+1⟩

/-- The calls by which timers are set, each with the time that it reads. -/
inductive TimerCall (H A : Type*)
  | add (now timeout : ℤ) (handler : Option H) (arg : Option A)
  | update (evid now timeout : ℤ) (handler : Option H) (arg : Option A)
  | delete (evid : ℤ)

def TimerCall.run (s : Stamped H A) : TimerCall H A → Stamped H A
  | .add now timeout handler arg =>
    let r := evtimerAdd s.timer now timeout handler arg
    if 0 ≤ r.2 then s.note r.1 r.2 else { s with timer := r.1 }
  | .update evid now timeout handler arg =>
    let r := evtimerUpdate s.timer evid now timeout handler arg
    if r.2 = 0 then s.note r.1 evid else { s with timer := r.1 }
  | .delete evid => { s with timer := (evtimerDelete s.timer evid).1 }

/-- The operations of a timer. The handlers that a check calls answer with any calls of their own,
chosen from the state they find. -/
inductive TimerOp (H A : Type*)
  | call (c : TimerCall H A)
  | check (now : ℤ) (behave : EvTimer H A → H → Option A → List (TimerCall H A))

def TimerOp.run (s : Stamped H A) : TimerOp H A → Stamped H A
  | .call c => c.run s
  | .check now behave => evtimerCheck Stamped.timer (fun t s => { s with timer := t })
      (fun handler arg s => (behave s.timer handler arg).foldl TimerCall.run s) now s

/-- The state after a sequence of operations from `evtimer_init` on. -/
def evtimerRun (ops : List (TimerOp H A)) : Stamped H A :=
  ops.foldl TimerOp.run ⟨evtimerInit,fun _ => 0,0⟩

def Stamped.Good (s : Stamped H A) : Prop :=
  ∃ active free, Timed s.timer s.stamp s.clock active free none

theorem TimerCall.run_good {s : Stamped H A} (hs : s.Good) (c : TimerCall H A) : (c.run s).Good := by
  obtain ⟨active, free, h⟩ := hs
  cases c with
  | add now timeout handler arg =>
    unfold TimerCall.run
    dsimp only
    rcases h.add now timeout handler arg with ⟨heq, -⟩ | ⟨i, as, bs, rest, -, -, hret, hadd, -⟩
    · rw [heq]
      exact ⟨active, free, h⟩
    · rw [hret, if_pos (Int.natCast_nonneg i)]
      exact ⟨_, _, hadd⟩
  | update evid now timeout handler arg =>
    unfold TimerCall.run
    dsimp only
    rcases h.update evid now timeout handler arg with
      ⟨heq, -⟩ | ⟨i, as, bs, rfl, -, -, -, hret, hupdate, -⟩
    · rw [heq]
      exact ⟨active, free, h⟩
    · rw [hret, if_pos rfl]
      exact ⟨_, _, hupdate⟩
  | delete evid =>
    rcases h.delete evid with ⟨heq, -⟩ | ⟨i, rfl, -, -, hdelete, -⟩
    · refine ⟨active, free, ?_⟩
      unfold TimerCall.run
      dsimp only
      rw [heq]
      exact h
    · exact ⟨_, _, hdelete⟩

/-- The handlers that a check calls keep what each of them keeps. -/
theorem evtimerDispatch_induction {σ : Type*} {timer : σ → EvTimer H A}
    {call : H → Option A → σ → σ} {P : σ → Prop} (hcall : ∀ handler arg s, P s → P (call handler arg s))
    (ids : List ℕ) {s : σ} (hs : P s) : P (evtimerDispatch timer call ids s) := by
  induction ids generalizing s with
  | nil => exact hs
  | cons id ids ih =>
    unfold evtimerDispatch
    split
    · exact ih (hcall _ _ s hs)
    · exact ih hs

theorem TimerOp.run_good {s : Stamped H A} (hs : s.Good) (op : TimerOp H A) : (op.run s).Good := by
  cases op with
  | call c => exact c.run_good hs
  | check now behave =>
    simp only [TimerOp.run, evtimerCheck]
    split
    · exact hs
    · refine evtimerDispatch_induction ?_ _ ?_
      · intro handler arg s hs
        exact List.foldlRecOn _ _ hs fun s hs c _ => c.run_good hs
      · obtain ⟨active, free, h⟩ := hs
        exact ⟨_, _, (h.check now).1⟩

theorem evtimerRun_good (ops : List (TimerOp H A)) : (evtimerRun ops).Good :=
  List.foldlRecOn ops _ ⟨_, _, evtimerInit_timed _ _⟩ fun _ hs op _ => op.run_good hs

/-- A node that is still allocated but on neither list. -/
def Fired (t : EvTimer H A) (active : List ℕ) (i : ℕ) : Prop :=
  t.ison i = true ∧ t.prev i = none ∧ t.next i = none ∧ i ∉ active

def ExactlyOne (a b c : Prop) : Prop := (a ∧ ¬ b ∧ ¬ c) ∨ (¬ a ∧ b ∧ ¬ c) ∨ (¬ a ∧ ¬ b ∧ c)

/-- The active list reads the same both ways and is sorted, and each id is in one place. -/
structure Consistent (s : Stamped H A) (active free : List ℕ) : Prop where
  forward : Chain s.timer.next s.timer.head active
  backward : Chain s.timer.prev s.timer.tail active.reverse
  sorted : active.Pairwise (Before s.timer s.stamp)
  freeList : Chain s.timer.next s.timer.left free
  inRange : ∀ i, i ∈ active ∨ i ∈ free → InRange i
  place : ∀ i, InRange i → ExactlyOne (i ∈ active) (i ∈ free) (Fired s.timer active i)

/-- What a check at the time `now` does before it calls handlers: the due nodes become fired, and
`timeouts` lists them in the order of the active list. -/
structure Expires (s : Stamped H A) (active : List ℕ) (now : ℤ) : Prop where
  remaining : Chain (evtimerCheckLocked s.timer now).next (evtimerCheckLocked s.timer now).head
    (active.filter fun i => now ≤ s.timer.evusec i)
  fired : ∀ i, InRange i →
    (Fired (evtimerCheckLocked s.timer now) (active.filter fun i => now ≤ s.timer.evusec i) i ↔
      Fired s.timer active i ∨ i ∈ active.filter fun i => s.timer.evusec i < now)
  order : s.timer.head ≠ none →
    (evtimerCheckLocked s.timer now).timeouts = active.filter fun i => s.timer.evusec i < now
  same : ∀ i, (evtimerCheckLocked s.timer now).content i = s.timer.content i

theorem Timed.place (h : Timed t stamp clock active free none) {i : ℕ} (hi : InRange i) :
    ExactlyOne (i ∈ active) (i ∈ free) (Fired t active i) := by
  unfold ExactlyOne Fired
  cases hon : t.ison i with
  | false =>
    have := h.off_free i hi hon
    have := h.not_mem_active hon
    simp_all
  | true =>
    have := h.not_mem_free hon
    by_cases ha : i ∈ active
    · simp_all
    · have := h.fired i hi hon ha (by simp)
      simp_all

theorem Timed.fired_iff (h : Timed t stamp clock active free none) {i : ℕ} (hi : InRange i) :
    Fired t active i ↔ t.ison i = true ∧ i ∉ active := by
  constructor
  · rintro ⟨hon, -, -, ha⟩
    exact ⟨hon, ha⟩
  · rintro ⟨hon, ha⟩
    obtain ⟨hn, hp⟩ := h.fired i hi hon ha (by simp)
    exact ⟨hon, hp, hn, ha⟩

/-- After every sequence of operations the lists are consistent, and a check then expires exactly
the nodes that are due. -/
theorem evtimer_run_consistent (ops : List (TimerOp H A)) :
    ∃ active free, Consistent (evtimerRun ops) active free ∧
      ∀ now, Expires (evtimerRun ops) active now := by
  obtain ⟨active, free, h⟩ := evtimerRun_good ops
  refine ⟨active, free, ⟨h.list.forward, h.list.backward, h.sorted, h.freeList, ?_, ?_⟩, ?_⟩
  · rintro i (hi | hi)
    · exact (h.active_on i hi).1
    · exact (h.free_off i hi).1
  · exact fun i hi => h.place hi
  · intro now
    obtain ⟨hcheck, horder, hsame⟩ := h.check now
    refine ⟨hcheck.list.forward, ?_, horder, hsame⟩
    intro i hi
    rw [hcheck.fired_iff hi, h.fired_iff hi, ison_eq_of_content (hsame i)]
    simp only [List.mem_filter, decide_eq_true_eq, not_and, not_le]
    constructor
    · rintro ⟨hon, hlate⟩
      by_cases ha : i ∈ active
      · exact Or.inr ⟨ha, hlate ha⟩
      · exact Or.inl ⟨hon, ha⟩
    · rintro (⟨hon, ha⟩ | ⟨ha, hlt⟩)
      · exact ⟨hon, fun hm => absurd hm ha⟩
      · exact ⟨(h.active_on i ha).2, fun _ => hlt⟩

end
end Sbase
