import Sbase.Lib.LinkedList
import Sbase.Utils.Evtimer

/-! The list operations of `EVTIMER`: pushing, unlinking and expiring nodes, as insertions into
and removals from the sorted list of active ids. -/
namespace Sbase
open LinkedList

section
variable {H A : Type*}

/-- What a node holds besides its links. -/
def EvtNode.content (n : EvtNode H A) : EvtNode H A := { n with prev := none, next := none }

namespace EvTimer

def next (t : EvTimer H A) (i : ℕ) : Option ℕ := (t.nodes i).next
def prev (t : EvTimer H A) (i : ℕ) : Option ℕ := (t.nodes i).prev
def evusec (t : EvTimer H A) (i : ℕ) : ℤ := (t.nodes i).evusec
def ison (t : EvTimer H A) (i : ℕ) : Bool := (t.nodes i).ison
def content (t : EvTimer H A) (i : ℕ) : EvtNode H A := (t.nodes i).content

theorem nodes_modify (t : EvTimer H A) (i j : ℕ) (f : EvtNode H A → EvtNode H A) :
    (t.modify i f).nodes j = if j = i then f (t.nodes j) else t.nodes j := by
  unfold modify
  by_cases h : j = i
  · subst h; simp
  · simp [h]

@[simp] theorem left_modify (t : EvTimer H A) (i f) : (t.modify i f).left = t.left := rfl
@[simp] theorem head_modify (t : EvTimer H A) (i f) : (t.modify i f).head = t.head := rfl
@[simp] theorem tail_modify (t : EvTimer H A) (i f) : (t.modify i f).tail = t.tail := rfl
@[simp] theorem timeouts_modify (t : EvTimer H A) (i f) :
    (t.modify i f).timeouts = t.timeouts := rfl

@[simp] theorem left_setNext (t : EvTimer H A) (i p) : (t.setNext i p).left = t.left := rfl
@[simp] theorem head_setNext (t : EvTimer H A) (i p) : (t.setNext i p).head = t.head := rfl
@[simp] theorem tail_setNext (t : EvTimer H A) (i p) : (t.setNext i p).tail = t.tail := rfl
@[simp] theorem timeouts_setNext (t : EvTimer H A) (i p) :
    (t.setNext i p).timeouts = t.timeouts := rfl
@[simp] theorem left_setPrev (t : EvTimer H A) (i p) : (t.setPrev i p).left = t.left := rfl
@[simp] theorem head_setPrev (t : EvTimer H A) (i p) : (t.setPrev i p).head = t.head := rfl
@[simp] theorem tail_setPrev (t : EvTimer H A) (i p) : (t.setPrev i p).tail = t.tail := rfl
@[simp] theorem timeouts_setPrev (t : EvTimer H A) (i p) :
    (t.setPrev i p).timeouts = t.timeouts := rfl

theorem nodes_setNext (t : EvTimer H A) (i j : ℕ) (p : Option ℕ) :
    (t.setNext i p).nodes j = if j = i then { t.nodes j with next := p } else t.nodes j :=
  t.nodes_modify i j _

theorem nodes_setPrev (t : EvTimer H A) (i j : ℕ) (p : Option ℕ) :
    (t.setPrev i p).nodes j = if j = i then { t.nodes j with prev := p } else t.nodes j :=
  t.nodes_modify i j _

@[simp] theorem next_nodes_setNext (t : EvTimer H A) (i j : ℕ) (p : Option ℕ) :
    ((t.setNext i p).nodes j).next = if j = i then p else (t.nodes j).next := by
  rw [nodes_setNext]; split_ifs <;> rfl

@[simp] theorem prev_nodes_setNext (t : EvTimer H A) (i j : ℕ) (p : Option ℕ) :
    ((t.setNext i p).nodes j).prev = (t.nodes j).prev := by
  rw [nodes_setNext]; split_ifs <;> rfl

@[simp] theorem next_nodes_setPrev (t : EvTimer H A) (i j : ℕ) (p : Option ℕ) :
    ((t.setPrev i p).nodes j).next = (t.nodes j).next := by
  rw [nodes_setPrev]; split_ifs <;> rfl

@[simp] theorem prev_nodes_setPrev (t : EvTimer H A) (i j : ℕ) (p : Option ℕ) :
    ((t.setPrev i p).nodes j).prev = if j = i then p else (t.nodes j).prev := by
  rw [nodes_setPrev]; split_ifs <;> rfl

@[simp] theorem content_nodes_setNext (t : EvTimer H A) (i j : ℕ) (p : Option ℕ) :
    ((t.setNext i p).nodes j).content = (t.nodes j).content := by
  rw [nodes_setNext]; split_ifs <;> rfl

@[simp] theorem content_nodes_setPrev (t : EvTimer H A) (i j : ℕ) (p : Option ℕ) :
    ((t.setPrev i p).nodes j).content = (t.nodes j).content := by
  rw [nodes_setPrev]; split_ifs <;> rfl

theorem evusec_eq_of_content {t t' : EvTimer H A} {i : ℕ} (h : t'.content i = t.content i) :
    t'.evusec i = t.evusec i := by
  have := congrArg EvtNode.evusec h
  exact this

theorem ison_eq_of_content {t t' : EvTimer H A} {i : ℕ} (h : t'.content i = t.content i) :
    t'.ison i = t.ison i := by
  have := congrArg EvtNode.ison h
  exact this

theorem id_eq_of_content {t t' : EvTimer H A} {i : ℕ} (h : t'.content i = t.content i) :
    (t'.nodes i).id = (t.nodes i).id := by
  have := congrArg EvtNode.id h
  exact this

theorem arg_eq_of_content {t t' : EvTimer H A} {i : ℕ} (h : t'.content i = t.content i) :
    (t'.nodes i).arg = (t.nodes i).arg := by
  have := congrArg EvtNode.arg h
  exact this

theorem handler_eq_of_content {t t' : EvTimer H A} {i : ℕ} (h : t'.content i = t.content i) :
    (t'.nodes i).handler = (t.nodes i).handler := by
  have := congrArg EvtNode.handler h
  exact this

@[simp] theorem evusec_nodes_setNext (t : EvTimer H A) (i j : ℕ) (p : Option ℕ) :
    ((t.setNext i p).nodes j).evusec = (t.nodes j).evusec := by
  rw [nodes_setNext]; split_ifs <;> rfl

@[simp] theorem evusec_nodes_setPrev (t : EvTimer H A) (i j : ℕ) (p : Option ℕ) :
    ((t.setPrev i p).nodes j).evusec = (t.nodes j).evusec := by
  rw [nodes_setPrev]; split_ifs <;> rfl

@[simp] theorem id_nodes_setPrev (t : EvTimer H A) (i j : ℕ) (p : Option ℕ) :
    ((t.setPrev i p).nodes j).id = (t.nodes j).id := by
  rw [nodes_setPrev]; split_ifs <;> rfl

/-- The first id comes strictly before every id whose node expires later. -/
theorem exists_split (t : EvTimer H A) (e : ℤ) {active : List ℕ}
    (hs : active.Pairwise fun i j => t.evusec i ≤ t.evusec j) :
    ∃ as bs, active = as ++ bs ∧ (∀ i ∈ as, t.evusec i ≤ e) ∧ ∀ i ∈ bs, e < t.evusec i := by
  induction active with
  | nil => exact ⟨[],[],rfl,by simp,by simp⟩
  | cons x xs ih =>
    rw [List.pairwise_cons] at hs
    by_cases hx : t.evusec x ≤ e
    · obtain ⟨as, bs, rfl, ha, hb⟩ := ih hs.2
      exact ⟨x::as,bs,rfl,by simpa [hx] using ha,hb⟩
    · refine ⟨[],x::xs,rfl,by simp,?_⟩
      intro i hi
      rcases List.mem_cons.mp hi with rfl | hi
      · omega
      · have := hs.1 i hi
        omega

end EvTimer
open EvTimer

theorem evtimerSeek_eq (t : EvTimer H A) (e : ℤ) {fuel : ℕ} {p : Option ℕ} {xs : List ℕ}
    (h : Chain t.prev p xs) (hf : xs.length ≤ fuel) :
    evtimerSeek t e fuel p = xs.find? fun i => t.evusec i ≤ e := by
  induction xs generalizing p fuel with
  | nil =>
    obtain rfl : p = none := h
    cases fuel <;> rfl
  | cons x xs ih =>
    obtain ⟨rfl, hrest⟩ := h
    obtain ⟨f, rfl⟩ : ∃ f, fuel = f+1 := ⟨fuel-1, by simp at hf; omega⟩
    have hf' : xs.length ≤ f := by simpa using hf
    rw [evtimerSeek, List.find?_cons]
    by_cases hx : e < t.evusec x
    · have hx' : e < (t.nodes x).evusec := hx
      rw [if_pos hx', decide_eq_false (not_le.mpr hx)]
      exact ih hrest hf'
    · have hx' : ¬ e < (t.nodes x).evusec := hx
      rw [if_neg hx', decide_eq_true (not_lt.mp hx)]

theorem evtimerLinkAfter_frame (t : EvTimer H A) (n m : ℕ) :
    (evtimerLinkAfter t n m).left = t.left ∧ (evtimerLinkAfter t n m).timeouts = t.timeouts ∧
      ∀ j, (evtimerLinkAfter t n m).content j = t.content j := by
  unfold evtimerLinkAfter EvTimer.content
  dsimp only
  split <;> simp

/-- `evtimer_push` changes links only. -/
theorem evtimerPush_frame (t : EvTimer H A) (n : ℕ) :
    (evtimerPush t n).left = t.left ∧ (evtimerPush t n).timeouts = t.timeouts ∧
      ∀ j, (evtimerPush t n).content j = t.content j := by
  unfold evtimerPush evtimerLink
  split
  · split_ifs
    · simp [EvTimer.content]
    · simp [EvTimer.content]
    · split
      · obtain ⟨hl, ht, hc⟩ := evtimerLinkAfter_frame ((t.setNext n none).setPrev n none) n ‹ℕ›
        refine ⟨hl, ht, ?_⟩
        intro j
        rw [hc j]
        simp [EvTimer.content]
      · simp [EvTimer.content]
  · simp [EvTimer.content]

theorem evtimerPush_nil {t : EvTimer H A} {n : ℕ}
    (h : DList t.next t.prev t.head t.tail []) :
    DList (evtimerPush t n).next (evtimerPush t n).prev (evtimerPush t n).head
        (evtimerPush t n).tail [n] ∧
      ∀ j, j ≠ n → (evtimerPush t n).nodes j = t.nodes j := by
  have hhead : t.head = none := h.head_eq
  have heq : evtimerPush t n =
      { (t.setNext n none).setPrev n none with head := some n, tail := some n } := by
    simp [evtimerPush, evtimerLink, hhead]
  rw [heq]
  refine ⟨h.insert [] [] (by simp) (by simp) (by simp) ?_ ?_ rfl rfl, ?_⟩
  · simp [next]
  · simp [prev]
  · intro j hj
    simp [nodes_setNext, nodes_setPrev, hj]

theorem evtimerPush_last {t : EvTimer H A} {n l : ℕ} {as : List ℕ}
    (h : DList t.next t.prev t.head t.tail (as ++ [l])) (hn : n ∉ as ++ [l])
    (hle : t.evusec l ≤ t.evusec n) :
    DList (evtimerPush t n).next (evtimerPush t n).prev (evtimerPush t n).head
        (evtimerPush t n).tail (as ++ [l] ++ [n]) ∧
      ∀ j, j ∉ as ++ [l] → j ≠ n → (evtimerPush t n).nodes j = t.nodes j := by
  obtain ⟨x, hx⟩ : ∃ x, t.head = some x := by rw [h.head_eq]; cases as <;> simp
  have ht : t.tail = some l := by rw [h.tail_eq, List.getLast?_concat]
  have hle' : (t.nodes l).evusec ≤ (t.nodes n).evusec := hle
  have heq : evtimerPush t n =
      { (((t.setNext n none).setPrev n none).setPrev n (some l)).setNext l (some n) with
        tail := some n } := by
    simp [evtimerPush, evtimerLink, hx, ht, hle']
  have hln : n ≠ l := fun he => hn (by simp [he])
  have h' : DList t.next t.prev t.head t.tail (as ++ [l] ++ []) := by rwa [List.append_nil]
  rw [heq]
  refine ⟨h'.insert (as ++ [l]) [] (by simpa using hn) ?_ ?_ ?_ ?_ ?_ rfl, ?_⟩
  · intro i hi
    have hne : i ≠ n := fun he => hn (by simpa [he] using hi)
    simp [next, hne, eq_comm]
  · intro i hi
    have hne : i ≠ n := fun he => hn (by simpa [he] using hi)
    simp [prev, hne]
  · simp [next, hln]
  · simp [prev]
  · simp only [head_setNext, head_setPrev, h.head_eq]
    cases as <;> simp
  · intro j hj hjn
    have hjl : j ≠ l := fun he => hj (by simp [he])
    simp [nodes_setNext, nodes_setPrev, hjn, hjl]

theorem evtimerPush_first {t : EvTimer H A} {n x : ℕ} {bs : List ℕ}
    (h : DList t.next t.prev t.head t.tail (x::bs)) (hn : n ∉ x::bs)
    (hlt : ∀ i ∈ x::bs, t.evusec n < t.evusec i) :
    DList (evtimerPush t n).next (evtimerPush t n).prev (evtimerPush t n).head
        (evtimerPush t n).tail (n::x::bs) ∧
      ∀ j, j ∉ x::bs → j ≠ n → (evtimerPush t n).nodes j = t.nodes j := by
  have hx : t.head = some x := h.head_eq
  obtain ⟨l, hl, ht⟩ : ∃ l ∈ x::bs, t.tail = some l := by
    rw [h.tail_eq]
    exact ⟨_, List.getLast_mem (by simp), List.getLast?_eq_some_getLast (by simp)⟩
  have hl' : ¬ (t.nodes l).evusec ≤ (t.nodes n).evusec := not_le.mpr (hlt l hl)
  have hx' : (t.nodes n).evusec < (t.nodes x).evusec := hlt x (by simp)
  have heq : evtimerPush t n =
      { (((t.setNext n none).setPrev n none).setNext n (some x)).setPrev x (some n) with
        head := some n } := by
    simp [evtimerPush, evtimerLink, hx, ht, hl', hx']
  have hxn : n ≠ x := fun he => hn (by simp [he])
  rw [heq]
  refine ⟨h.insert [] (x::bs) hn ?_ ?_ ?_ ?_ rfl ?_, ?_⟩
  · intro i hi
    have hne : i ≠ n := fun he => hn (by simpa [he] using hi)
    simp [next, hne]
  · intro i hi
    have hne : i ≠ n := fun he => hn (by simpa [he] using hi)
    simp [prev, hne, eq_comm]
  · simp [next]
  · simp [prev, hxn]
  · simp only [tail_setNext, tail_setPrev, h.tail_eq]
    simp [List.getLast?_cons]
  · intro j hj hjn
    have hjx : j ≠ x := fun he => hj (by simp [he])
    simp [nodes_setNext, nodes_setPrev, hjn, hjx]

/-- The search back from the tail stops at the last node that expires no later. -/
theorem evtimerSeek_split {t : EvTimer H A} {e : ℤ} {m l : ℕ} {as bs : List ℕ}
    (h : DList t.next t.prev t.head t.tail (as ++ [m] ++ (bs ++ [l])))
    (ha : t.evusec m ≤ e) (hb : ∀ i ∈ bs, e < t.evusec i)
    (hlen : (as ++ [m] ++ bs).length ≤ EVTNODE_MAX) :
    evtimerSeek t e EVTNODE_MAX (t.prev l) = some m := by
  have hback := h.backward
  rw [← List.append_assoc, List.reverse_concat] at hback
  rw [evtimerSeek_eq t e hback.2 (by simp at hlen ⊢; omega)]
  simp only [List.reverse_append, List.reverse_cons, List.reverse_nil, List.nil_append,
    List.singleton_append, List.find?_append]
  have hnone : bs.reverse.find? (fun i => t.evusec i ≤ e) = none := by
    rw [List.find?_eq_none]
    intro i hi
    have := hb i (List.mem_reverse.mp hi)
    simpa using this
  simp [hnone, ha]

theorem evtimerLinkAfter_list {t : EvTimer H A} {n m k : ℕ} {as bs : List ℕ}
    (h : DList t.next t.prev t.head t.tail (as ++ [m] ++ (k::bs)))
    (hn : n ∉ as ++ [m] ++ (k::bs)) :
    DList (evtimerLinkAfter t n m).next (evtimerLinkAfter t n m).prev (evtimerLinkAfter t n m).head
        (evtimerLinkAfter t n m).tail (as ++ [m] ++ n::k::bs) ∧
      ∀ j, j ∉ as ++ [m] ++ (k::bs) → j ≠ n → (evtimerLinkAfter t n m).nodes j = t.nodes j := by
  have hne : ∀ i ∈ as ++ [m] ++ (k::bs), i ≠ n := fun i hi he => hn (he ▸ hi)
  have hmn : n ≠ m := fun he => hn (by simp [he])
  have hkn : n ≠ k := fun he => hn (by simp [he])
  have hmk : (t.nodes m).next = some k := (DList.links_of_mem (by simpa using h)).2
  have heq : evtimerLinkAfter t n m =
      (((t.setNext n (some k)).setPrev n (some m)).setNext m (some n)).setPrev k (some n) := by
    simp [evtimerLinkAfter, hmk, hmn]
  rw [heq]
  refine ⟨h.insert (as ++ [m]) (k::bs) hn ?_ ?_ ?_ ?_ ?_ ?_, ?_⟩
  · intro i hi
    simp [next, hne i hi, eq_comm]
  · intro i hi
    simp [prev, hne i hi, eq_comm]
  · simp [next, hmn]
  · simp [prev, hkn]
  · simp only [head_setNext, head_setPrev, h.head_eq]
    cases as <;> simp
  · simp only [tail_setNext, tail_setPrev, h.tail_eq]
    simp [List.getLast?_append, List.getLast?_cons]
  · intro j hj hjn
    have hjm : j ≠ m := fun he => hj (by simp [he])
    have hjk : j ≠ k := fun he => hj (by simp [he])
    simp [nodes_setNext, nodes_setPrev, hjn, hjm, hjk]

theorem evtimerPush_middle {t : EvTimer H A} {n m k : ℕ} {as bs : List ℕ}
    (h : DList t.next t.prev t.head t.tail (as ++ [m] ++ (k::bs))) (hn : n ∉ as ++ [m] ++ (k::bs))
    (ha : ∀ i ∈ as ++ [m], t.evusec i ≤ t.evusec n) (hb : ∀ i ∈ k::bs, t.evusec n < t.evusec i)
    (hlen : (as ++ [m] ++ (k::bs)).length ≤ EVTNODE_MAX) :
    DList (evtimerPush t n).next (evtimerPush t n).prev (evtimerPush t n).head
        (evtimerPush t n).tail (as ++ [m] ++ n::k::bs) ∧
      ∀ j, j ∉ as ++ [m] ++ (k::bs) → j ≠ n → (evtimerPush t n).nodes j = t.nodes j := by
  obtain ⟨t₁, ht⟩ : ∃ t₁, t₁ = (t.setNext n none).setPrev n none := ⟨_, rfl⟩
  have hkey : ∀ i, (t₁.nodes i).evusec = t.evusec i := by subst ht; simp [evusec]
  have hsame : ∀ j, j ≠ n → t₁.nodes j = t.nodes j := by
    intro j hj
    simp [ht, nodes_setNext, nodes_setPrev, hj]
  have hne : ∀ i ∈ as ++ [m] ++ (k::bs), i ≠ n := fun i hi he => hn (he ▸ hi)
  have h₁ : DList t₁.next t₁.prev t₁.head t₁.tail (as ++ [m] ++ (k::bs)) := by
    have hn' : ∀ i ∈ as ++ [m] ++ (k::bs), t₁.next i = t.next i :=
      fun i hi => congrArg EvtNode.next (hsame i (hne i hi))
    have hp' : ∀ i ∈ as ++ [m] ++ (k::bs), t₁.prev i = t.prev i :=
      fun i hi => congrArg EvtNode.prev (hsame i (hne i hi))
    have hc := h.congr hn' hp'
    subst ht
    exact hc
  obtain ⟨x, hx, hhead⟩ : ∃ x ∈ as ++ [m], t₁.head = some x := by
    rw [h₁.head_eq]
    cases as <;> simp
  obtain ⟨cs, l, hcs⟩ : ∃ cs l, k::bs = cs ++ [l] :=
    ⟨_, _, (List.dropLast_append_getLast (List.cons_ne_nil k bs)).symm⟩
  have htail : t₁.tail = some l := by
    rw [h₁.tail_eq, hcs, ← List.append_assoc, List.getLast?_concat]
  have hseek : evtimerSeek t₁ (t₁.nodes n).evusec EVTNODE_MAX (t₁.nodes l).prev = some m := by
    refine evtimerSeek_split (hcs ▸ h₁) ?_ ?_ ?_
    · rw [evusec, hkey, hkey]
      exact ha m (by simp)
    · intro i hi
      rw [evusec, hkey, hkey]
      exact hb i (by rw [hcs]; simp [hi])
    · have := congrArg List.length hcs
      simp at hlen this ⊢
      omega
  have heq : evtimerPush t n = evtimerLinkAfter t₁ n m := by
    have hl : ¬ t.evusec l ≤ t.evusec n := not_le.mpr (hb l (by simp [hcs]))
    have hx' : ¬ t.evusec n < t.evusec x := not_lt.mpr (ha x hx)
    rw [hkey] at hseek
    simp [evtimerPush, ← ht, evtimerLink, hhead, htail, hkey, hl, hx', hseek]
  obtain ⟨hlist, hframe⟩ := evtimerLinkAfter_list h₁ hn
  rw [heq]
  refine ⟨hlist, ?_⟩
  intro j hj hjn
  rw [hframe j hj hjn, hsame j hjn]

/-- `evtimer_push` puts the node behind all those that expire no later, and touches no node
outside the list. -/
theorem evtimerPush_list {t : EvTimer H A} {n : ℕ} {active : List ℕ}
    (h : DList t.next t.prev t.head t.tail active) (hn : n ∉ active)
    (hs : active.Pairwise fun i j => t.evusec i ≤ t.evusec j) (hlen : active.length ≤ EVTNODE_MAX) :
    ∃ as bs, active = as ++ bs ∧ (∀ i ∈ as, t.evusec i ≤ t.evusec n) ∧
      (∀ i ∈ bs, t.evusec n < t.evusec i) ∧
      DList (evtimerPush t n).next (evtimerPush t n).prev (evtimerPush t n).head
        (evtimerPush t n).tail (as ++ n::bs) ∧
      ∀ j, j ∉ active → j ≠ n → (evtimerPush t n).nodes j = t.nodes j := by
  obtain ⟨as, bs, rfl, ha, hb⟩ := t.exists_split (t.evusec n) hs
  refine ⟨as, bs, rfl, ha, hb, ?_⟩
  rcases List.eq_nil_or_concat as with rfl | ⟨as', m, rfl⟩
  · cases bs with
    | nil =>
      obtain ⟨hl, hf⟩ := evtimerPush_nil h
      exact ⟨hl, fun j _ => hf j⟩
    | cons k bs => exact evtimerPush_first h hn hb
  · rw [List.concat_eq_append] at *
    cases bs with
    | nil =>
      rw [List.append_nil] at *
      exact evtimerPush_last h hn (ha m (by simp))
    | cons k bs => exact evtimerPush_middle h hn ha hb hlen

/-! ### Unlinking -/

theorem evtimerUnlink_frame (t : EvTimer H A) (i : ℕ) :
    (evtimerUnlink t i).left = t.left ∧ (evtimerUnlink t i).timeouts = t.timeouts ∧
      ∀ j, (evtimerUnlink t i).content j = t.content j := by
  unfold evtimerUnlink content
  dsimp only
  split <;> split <;> simp

/-- The neighbours of a node that is not its own neighbour are joined over it. -/
theorem evtimerUnlink_links (t : EvTimer H A) {i : ℕ} (hp : t.prev i ≠ some i)
    (hn : t.next i ≠ some i) :
    (∀ j, (evtimerUnlink t i).next j = if t.prev i = some j then t.next i else t.next j) ∧
      (∀ j, (evtimerUnlink t i).prev j = if t.next i = some j then t.prev i else t.prev j) ∧
      (evtimerUnlink t i).head = (if t.head = some i then t.next i else t.head) ∧
      (evtimerUnlink t i).tail = if t.tail = some i then t.prev i else t.tail := by
  unfold next prev at *
  cases hpi : (t.nodes i).prev with
  | none =>
    cases hni : (t.nodes i).next with
    | none => simp [evtimerUnlink, hpi, hni]
    | some q =>
      have hqi : i ≠ q := fun he => hn (by rw [hni, he])
      simp [evtimerUnlink, hpi, hni, hqi, eq_comm]
  | some p =>
    have hpi' : i ≠ p := fun he => hp (by rw [hpi, he])
    cases hni : (t.nodes i).next with
    | none => simp [evtimerUnlink, hpi, hni, hpi', eq_comm]
    | some q =>
      have hqi : i ≠ q := fun he => hn (by rw [hni, he])
      simp [evtimerUnlink, hpi, hni, hpi', hqi, eq_comm]

theorem evtimerUnlink_nodes (t : EvTimer H A) {i j : ℕ} (hp : t.prev i ≠ some j)
    (hn : t.next i ≠ some j) (hpi : t.prev i ≠ some i) :
    (evtimerUnlink t i).nodes j = t.nodes j := by
  unfold next prev at *
  cases hpi : (t.nodes i).prev with
  | none =>
    cases hni : (t.nodes i).next with
    | none => simp [evtimerUnlink, hpi, hni]
    | some q =>
      have hqj : j ≠ q := fun he => hn (by rw [hni, he])
      simp [evtimerUnlink, hpi, hni, nodes_setPrev, hqj]
  | some p =>
    have hpj : j ≠ p := fun he => hp (by rw [hpi, he])
    have hpi' : i ≠ p := fun he => hp (by simp_all)
    cases hni : (t.nodes i).next with
    | none => simp [evtimerUnlink, hpi, hni, hpi', nodes_setNext, hpj]
    | some q =>
      have hqj : j ≠ q := fun he => hn (by rw [hni, he])
      simp [evtimerUnlink, hpi, hni, hpi', nodes_setNext, nodes_setPrev, hpj, hqj]

theorem evtimerUnlink_list {t : EvTimer H A} {i : ℕ} {active : List ℕ}
    (h : DList t.next t.prev t.head t.tail active) (hi : i ∈ active) :
    DList (evtimerUnlink t i).next (evtimerUnlink t i).prev (evtimerUnlink t i).head
        (evtimerUnlink t i).tail (active.erase i) ∧
      ∀ j, j ∉ active → (evtimerUnlink t i).nodes j = t.nodes j := by
  obtain ⟨as, bs, rfl⟩ := List.append_of_mem hi
  obtain ⟨hp, hn⟩ := h.links_of_mem
  have hnd := h.nodup
  have hia : i ∉ as := fun hm => (List.disjoint_of_nodup_append hnd) hm (by simp)
  have hib : i ∉ bs := (List.nodup_cons.mp (List.Nodup.of_append_right hnd)).1
  have hpmem : ∀ j, t.prev i = some j → j ∈ as := by
    intro j he
    exact List.mem_of_mem_getLast? (hp.symm.trans he)
  have hnmem : ∀ j, t.next i = some j → j ∈ bs := by
    intro j he
    exact List.mem_of_mem_head? (hn.symm.trans he)
  have hpi : t.prev i ≠ some i := fun he => hia (hpmem i he)
  have hni : t.next i ≠ some i := fun he => hib (hnmem i he)
  obtain ⟨hnext, hprev, hhead, htail⟩ := evtimerUnlink_links t hpi hni
  rw [List.erase_append_right _ hia, List.erase_cons_head]
  refine ⟨h.unlink (fun j _ => hnext j) (fun j _ => hprev j) hhead htail, ?_⟩
  intro j hj
  rw [List.mem_append, List.mem_cons, not_or, not_or] at hj
  exact evtimerUnlink_nodes t (fun he => hj.1 (hpmem j he)) (fun he => hj.2.2 (hnmem j he)) hpi

theorem evtimerUnlink_of_not_mem {t : EvTimer H A} {i : ℕ} {active : List ℕ}
    (h : DList t.next t.prev t.head t.tail active) (hi : i ∉ active)
    (hp : t.prev i = none) (hn : t.next i = none) : evtimerUnlink t i = t := by
  have hhead : t.head ≠ some i := by
    rw [h.head_eq]
    exact fun he => hi (List.mem_of_mem_head? he)
  have htail : t.tail ≠ some i := by
    rw [h.tail_eq]
    exact fun he => hi (List.mem_of_mem_getLast? he)
  simp only [prev, next] at hp hn
  simp [evtimerUnlink, hp, hn, hhead, htail]

/-! ### Expiring -/

theorem evtimerShift_frame (t : EvTimer H A) (i : ℕ) :
    (evtimerShift t i).left = t.left ∧
      (evtimerShift t i).timeouts = t.timeouts ++ [(t.nodes i).id] ∧
      ∀ j, (evtimerShift t i).content j = t.content j := by
  unfold evtimerShift content
  dsimp only
  split <;> simp

theorem evtimerShift_list {t : EvTimer H A} {i : ℕ} {rest : List ℕ}
    (h : DList t.next t.prev t.head t.tail (i::rest)) :
    DList (evtimerShift t i).next (evtimerShift t i).prev (evtimerShift t i).head
        (evtimerShift t i).tail rest ∧
      (evtimerShift t i).next i = none ∧ (evtimerShift t i).prev i = none ∧
      ∀ j, j ∉ i::rest → (evtimerShift t i).nodes j = t.nodes j := by
  have hnd := List.nodup_cons.mp h.nodup
  have h' : DList t.next t.prev t.head t.tail ([] ++ i::rest) := h
  obtain ⟨hprev, hnext⟩ := h'.links_of_mem
  have hhead : t.head = some i := h.head_eq
  have htail : t.tail = (i::rest).getLast? := h.tail_eq
  simp only [next, prev, List.getLast?_nil] at hprev hnext
  cases rest with
  | nil =>
    have heq : evtimerShift t i = (({ t with head := none, tail := none, timeouts :=
        t.timeouts ++ [(t.nodes i).id] } : EvTimer H A).setNext i none).setPrev i none := by
      simp only [List.head?_nil] at hnext
      simp [evtimerShift, hnext]
    rw [heq]
    refine ⟨⟨List.nodup_nil, trivial, rfl, rfl⟩, by simp [next], by simp [prev], ?_⟩
    intro j hj
    have hji : j ≠ i := fun he => hj (by simp [he])
    simp [nodes_setNext, nodes_setPrev, hji]
  | cons k rest =>
    simp only [List.head?_cons] at hnext
    have hki : i ≠ k := fun he => hnd.1 (by simp [he])
    have heq : evtimerShift t i = (({ t.setPrev k none with head := some k, timeouts :=
        t.timeouts ++ [(t.nodes i).id] } : EvTimer H A).setNext i none).setPrev i none := by
      simp [evtimerShift, hnext]
    rw [heq]
    refine ⟨?_, by simp [next], by simp [prev], ?_⟩
    · refine h'.unlink ?_ ?_ ?_ ?_
      · intro j hj
        have hji : j ≠ i := fun he => hnd.1 (by simpa [he] using hj)
        have hpi : t.prev i ≠ some j := by simp [prev, hprev]
        simp [next, hji, hpi]
      · intro j hj
        have hji : j ≠ i := fun he => hnd.1 (by simpa [he] using hj)
        simp [prev, next, hji, hnext, hprev, eq_comm]
      · simp [next, hhead, hnext]
      · have hne : t.tail ≠ some i := by
          rw [htail, List.getLast?_cons_cons]
          exact fun he => hnd.1 (List.mem_of_mem_getLast? he)
        simp [hne]
    · intro j hj
      have hji : j ≠ i := fun he => hj (by simp [he])
      have hjk : j ≠ k := fun he => hj (by simp [he])
      simp [nodes_setNext, nodes_setPrev, hji, hjk]

/-- The expired nodes are those up to the first one whose time has not passed. -/
theorem evtimerExpire_list (now : ℤ) {fuel : ℕ} {t : EvTimer H A} {active : List ℕ}
    (h : DList t.next t.prev t.head t.tail active) (hf : active.length ≤ fuel) :
    ∃ due rest, active = due ++ rest ∧ (∀ i ∈ due, t.evusec i < now) ∧
      (∀ i, rest.head? = some i → now ≤ t.evusec i) ∧
      DList (evtimerExpire now fuel t).next (evtimerExpire now fuel t).prev
        (evtimerExpire now fuel t).head (evtimerExpire now fuel t).tail rest ∧
      (evtimerExpire now fuel t).timeouts = t.timeouts ++ due.map (fun i => (t.nodes i).id) ∧
      (evtimerExpire now fuel t).left = t.left ∧
      (∀ j, (evtimerExpire now fuel t).content j = t.content j) ∧
      (∀ i ∈ due, (evtimerExpire now fuel t).next i = none ∧
        (evtimerExpire now fuel t).prev i = none) ∧
      ∀ j, j ∉ active → (evtimerExpire now fuel t).nodes j = t.nodes j := by
  induction fuel generalizing t active with
  | zero =>
    obtain rfl := List.length_eq_zero_iff.mp (Nat.le_zero.mp hf)
    exact ⟨[],[],rfl,by simp,by simp,h,by simp [evtimerExpire],rfl,fun _ => rfl,by simp,
      fun _ _ => rfl⟩
  | succ fuel ih =>
    cases active with
    | nil =>
      have hhead : t.head = none := h.head_eq
      have heq : evtimerExpire now (fuel+1) t = t := by simp [evtimerExpire, hhead]
      rw [heq]
      exact ⟨[],[],rfl,by simp,by simp,h,by simp,rfl,fun _ => rfl,by simp,fun _ _ => rfl⟩
    | cons i rest =>
      have hhead : t.head = some i := h.head_eq
      by_cases hlt : t.evusec i < now
      · have heq : evtimerExpire now (fuel+1) t = evtimerExpire now fuel (evtimerShift t i) := by
          simp only [evtimerExpire, hhead]
          exact if_pos hlt
        rw [heq]
        obtain ⟨hlist, hni, hpi, hsame⟩ := evtimerShift_list h
        obtain ⟨hleft, htimeouts, hcontent⟩ := evtimerShift_frame t i
        have hnd := List.nodup_cons.mp h.nodup
        obtain ⟨due, rest', rfl, hdue, hstop, hlist', htimeouts', hleft', hcontent', hdone, hsame'⟩ :=
          ih hlist (by simpa using hf)
        have hkey : ∀ j, (evtimerShift t i).evusec j = t.evusec j :=
          fun j => evusec_eq_of_content (hcontent j)
        have hnode : (evtimerExpire now fuel (evtimerShift t i)).nodes i =
            (evtimerShift t i).nodes i := hsame' i hnd.1
        refine ⟨i::due, rest', rfl, ?_, ?_, hlist', ?_, hleft'.trans hleft, ?_, ?_, ?_⟩
        · intro j hj
          rcases List.mem_cons.mp hj with rfl | hj
          · exact hlt
          · rw [← hkey]
            exact hdue j hj
        · intro j hj
          rw [← hkey]
          exact hstop j hj
        · rw [htimeouts', htimeouts, List.map_cons, List.append_assoc, List.singleton_append]
          congr 2
          refine List.map_congr_left fun j _ => ?_
          exact id_eq_of_content (hcontent j)
        · intro j
          rw [hcontent', hcontent]
        · intro j hj
          rcases List.mem_cons.mp hj with rfl | hj
          · exact ⟨(congrArg EvtNode.next hnode).trans hni, (congrArg EvtNode.prev hnode).trans hpi⟩
          · exact hdone j hj
        · intro j hj
          rw [hsame' j fun hm => hj (List.mem_cons_of_mem i hm), hsame j hj]
      · have heq : evtimerExpire now (fuel+1) t = t := by
          simp only [evtimerExpire, hhead]
          exact if_neg hlt
        rw [heq]
        refine ⟨[], i::rest, rfl, by simp, ?_, h, by simp, rfl, fun _ => rfl, by simp,
          fun _ _ => rfl⟩
        intro j hj
        cases hj
        exact not_lt.mp hlt

end
end Sbase
