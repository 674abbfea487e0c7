import Mathlib.Tactic

/-! A table of slots, each free or with a key and its value, as the map that it stands for. -/
namespace KeySlots

variable {κ υ : Type*}

/-- The slots hold the map, each key in one slot. -/
structure Holds (xs : List (Option (κ × υ))) (m : κ → Option υ) : Prop where
  slot : ∀ (i : ℕ) (k : κ) (v : υ), xs[i]? = some (some (k,v)) → m k = some v
  found : ∀ k v, m k = some v → ∃ i : ℕ, xs[i]? = some (some (k,v))
  once : ∀ (i j : ℕ) (k : κ) (v w : υ), xs[i]? = some (some (k,v)) → xs[j]? = some (some (k,w)) → i = j

variable {xs : List (Option (κ × υ))} {m : κ → Option υ} {i : ℕ} {k : κ} {v w : υ}

theorem Holds.free (n : ℕ) : Holds (List.replicate n (none : Option (κ × υ))) fun _ => none := by
  have hnone : ∀ (i : ℕ) (k : κ) (v : υ), (List.replicate n none)[i]? ≠ some (some (k,v)) := by
    intro i k v h
    simp [List.getElem?_replicate] at h
  refine ⟨fun i k v h => absurd h (hnone i k v),fun k v h => ?_,fun i j k v w h => absurd h (hnone i k v)⟩
  cases h

/-- Free slots behind the table. -/
theorem Holds.grow (h : Holds xs m) (n : ℕ) : Holds (xs ++ List.replicate n none) m := by
  have hold : ∀ (i : ℕ) (k : κ) (v : υ), (xs ++ List.replicate n none)[i]? = some (some (k,v)) → xs[i]? = some (some (k,v)) := by
    intro i k v hi
    rcases lt_or_ge i xs.length with hlt | hge
    · rwa [List.getElem?_append_left hlt] at hi
    · simp [List.getElem?_append_right hge,List.getElem?_replicate] at hi
  refine ⟨fun i k v hi => h.slot i k v (hold i k v hi),fun k v hm => ?_,fun i j k v w hi hj => ?_⟩
  · obtain ⟨i,hi⟩ := h.found k v hm
    refine ⟨i,?_⟩
    rwa [List.getElem?_append_left (List.getElem?_eq_some_iff.mp hi).1]
  · exact h.once i j k v w (hold i k v hi) (hold j k w hj)

/-- There are no more slots in use than keys. -/
theorem Holds.count_le (h : Holds xs m) {S : Finset κ} (hS : ∀ k, m k ≠ none → k ∈ S) :
    xs.countP Option.isSome ≤ S.card := by
  classical
  have hnodup : (xs.filterMap (Option.map Prod.fst)).Nodup := by
    rw [List.Nodup,List.pairwise_filterMap,List.pairwise_iff_getElem]
    intro i j hi hj hij k hk k' hk' heq
    obtain ⟨⟨q,v⟩,hv,rfl⟩ := Option.map_eq_some_iff.mp hk
    obtain ⟨⟨q',w⟩,hw,rfl⟩ := Option.map_eq_some_iff.mp hk'
    cases heq
    have hsame := h.once i j q v w (by rw [List.getElem?_eq_getElem hi,hv]) (by rw [List.getElem?_eq_getElem hj,hw])
    exact hij.ne hsame
  have hsub : (xs.filterMap (Option.map Prod.fst)).toFinset ⊆ S := by
    intro k hk
    obtain ⟨x,hx,hk⟩ := List.mem_filterMap.mp (List.mem_toFinset.mp hk)
    obtain ⟨⟨q,v⟩,rfl,rfl⟩ := Option.map_eq_some_iff.mp hk
    obtain ⟨i,hi⟩ := List.mem_iff_getElem?.mp hx
    refine hS q ?_
    rw [h.slot i q v hi]
    exact Option.some_ne_none v
  have hlength : (xs.filterMap (Option.map Prod.fst)).length = xs.countP Option.isSome := by
    rw [List.length_filterMap_eq_countP]
    exact List.countP_congr fun x _ => by cases x <;> simp
  calc xs.countP Option.isSome = (xs.filterMap (Option.map Prod.fst)).toFinset.card := by
        rw [List.toFinset_card_of_nodup hnodup,hlength]
    _ ≤ S.card := Finset.card_le_card hsub

theorem getElem?_set_ne_none {x : Option (κ × υ)} {j : ℕ} (hj : (xs.set i x)[j]? = some (some (k,v))) :
    j = i ∧ x = some (k,v) ∨ j ≠ i ∧ xs[j]? = some (some (k,v)) := by
  rw [List.getElem?_set] at hj
  split_ifs at hj with hij hlt
  · exact .inl ⟨hij.symm,Option.some.inj hj⟩
  · exact .inr ⟨Ne.symm hij,hj⟩

variable [DecidableEq κ]

/-- A slot with the key, or a free one for a key that has none, takes a value. -/
theorem Holds.put (h : Holds xs m) (hi : i < xs.length) (hslot : ∀ (q : κ) (u : υ), xs[i]? = some (some (q,u)) → q = k)
    (hkey : ∀ (j : ℕ) (u : υ), xs[j]? = some (some (k,u)) → j = i) :
    Holds (xs.set i (some (k,v))) (Function.update m k (some v)) := by
  refine ⟨fun j q u hj => ?_,fun q u hq => ?_,fun j l q u u' hj hl => ?_⟩
  · rcases getElem?_set_ne_none hj with ⟨-,hx⟩ | ⟨hne,hold⟩
    · cases hx
      simp
    · have hq : q ≠ k := by
        rintro rfl
        exact hne (hkey j u hold)
      simpa [hq] using h.slot j q u hold
  · by_cases hqk : q = k
    · subst hqk
      rw [Function.update_self] at hq
      cases hq
      exact ⟨i,by simp [hi]⟩
    · rw [Function.update_of_ne hqk] at hq
      obtain ⟨j,hj⟩ := h.found q u hq
      have hne : i ≠ j := by
        rintro rfl
        exact hqk (hslot q u hj)
      exact ⟨j,by simpa [hne] using hj⟩
  · rcases getElem?_set_ne_none hj with ⟨rfl,hx⟩ | ⟨hjne,hjold⟩ <;>
      rcases getElem?_set_ne_none hl with ⟨rfl,hy⟩ | ⟨hlne,hlold⟩
    · rfl
    · cases hx
      exact absurd (hkey l u' hlold) hlne
    · cases hy
      exact absurd (hkey j u hjold) hjne
    · exact h.once j l q u u' hjold hlold

/-- The slot of a key is given up. -/
theorem Holds.clear (h : Holds xs m) (hi : xs[i]? = some (some (k,w))) :
    Holds (xs.set i none) (Function.update m k none) := by
  refine ⟨fun j q u hj => ?_,fun q u hq => ?_,fun j l q u u' hj hl => ?_⟩
  · rcases getElem?_set_ne_none hj with ⟨-,hx⟩ | ⟨hne,hold⟩
    · cases hx
    · have hq : q ≠ k := by
        rintro rfl
        exact hne (h.once j i q u w hold hi)
      simpa [hq] using h.slot j q u hold
  · have hqk : q ≠ k := by
      rintro rfl
      simp at hq
    rw [Function.update_of_ne hqk] at hq
    obtain ⟨j,hj⟩ := h.found q u hq
    have hne : i ≠ j := by
      rintro rfl
      rw [hi] at hj
      cases hj
      exact hqk rfl
    exact ⟨j,by simpa [hne] using hj⟩
  · rcases getElem?_set_ne_none hj with ⟨-,hx⟩ | ⟨-,hjold⟩
    · cases hx
    · rcases getElem?_set_ne_none hl with ⟨-,hy⟩ | ⟨-,hlold⟩
      · cases hy
      · exact h.once j l q u u' hjold hlold

end KeySlots
