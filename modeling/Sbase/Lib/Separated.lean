import Mathlib.Tactic

/-! Segments with separators between them, and where a word without separators occurs in their text. -/
namespace Separated

variable {α : Type*} {sep : α} {w x u r s t : List α} {ss : List (List α)}

/-- The text of segments with a separator in front of each, before a tail. -/
def behind (sep : α) (w : List α) : List (List α) → List α
  | [] => w
  | s::ss => sep::(s ++ behind sep w ss)

/-- The text of segments with separators between them, before a tail. -/
def text (sep : α) (w : List α) : List (List α) → List α
  | [] => w
  | s::ss => s ++ behind sep w ss

theorem behind_append (sep : α) (w t : List α) (ss : List (List α)) :
    behind sep (w ++ t) ss = behind sep w ss ++ t := by
  induction ss with
  | nil => rfl
  | cons s ss ih => simp [behind,ih]

theorem text_append (sep : α) (w t : List α) (ss : List (List α)) :
    text sep (w ++ t) ss = text sep w ss ++ t := by
  cases ss with
  | nil => rfl
  | cons s ss => simp [text,behind_append]

/-- An element of a text is a separator, or in a segment or the tail. -/
theorem mem_text {a : α} (h : a ∈ text sep w ss) : a = sep ∨ (∃ s ∈ ss, a ∈ s) ∨ a ∈ w := by
  have hbehind : ∀ {ss : List (List α)}, a ∈ behind sep w ss → a = sep ∨ (∃ s ∈ ss, a ∈ s) ∨ a ∈ w := by
    intro ss hmem
    induction ss with
    | nil => exact .inr (.inr hmem)
    | cons s ss ih =>
      rw [behind,List.mem_cons,List.mem_append] at hmem
      rcases hmem with hsep | hs | hss
      · exact .inl hsep
      · exact .inr (.inl ⟨s,by simp,hs⟩)
      · rcases ih hss with hsep | ⟨s',hs',ha⟩ | hw
        · exact .inl hsep
        · exact .inr (.inl ⟨s',by simp [hs'],ha⟩)
        · exact .inr (.inr hw)
  cases ss with
  | nil => exact .inr (.inr h)
  | cons s ss =>
    rw [text,List.mem_append] at h
    rcases h with hs | hss
    · exact .inr (.inl ⟨s,by simp,hs⟩)
    · rcases hbehind hss with hsep | ⟨s',hs',ha⟩ | hw
      · exact .inl hsep
      · exact .inr (.inl ⟨s',by simp [hs'],ha⟩)
      · exact .inr (.inr hw)

/-- A word lies before or behind an element that is not in it. -/
theorem occurs_split {c : α} (h : x ++ u ++ r = s ++ c::t) (hc : c ∉ u) :
    (∃ v, s = x ++ u ++ v ∧ r = v ++ c::t) ∨ ∃ y, x = s ++ c::y ∧ y ++ u ++ r = t := by
  rcases List.append_eq_append_iff.1 h with ⟨v,hs,hr⟩ | ⟨v,hxu,hct⟩
  · exact .inl ⟨v,hs,hr⟩
  · cases v with
    | nil =>
      rw [List.append_nil] at hxu
      exact .inl ⟨[],by rw [List.append_nil,hxu],hct.symm⟩
    | cons a v =>
      rw [List.cons_append,List.cons.injEq] at hct
      obtain ⟨rfl,rfl⟩ := hct
      rcases List.append_eq_append_iff.1 hxu with ⟨y,hs,hu'⟩ | ⟨y,hx,hcv⟩
      · exact absurd (by rw [hu']; simp) hc
      · cases y with
        | nil =>
          rw [List.nil_append] at hcv
          exact absurd (by rw [← hcv]; simp) hc
        | cons b y =>
          rw [List.cons_append,List.cons.injEq] at hcv
          obtain ⟨rfl,rfl⟩ := hcv
          exact .inr ⟨y,hx,rfl⟩

/-- A word that shares nothing with the separator and the tail occurs in one of the segments. -/
theorem occurs (hu : u ≠ []) (hsep : sep ∉ u) (hne : w ≠ []) (hw : ∀ a ∈ w, a ∉ u)
    (h : text sep w ss = x ++ u ++ r) :
    ∃ pre s post y v, ss = pre ++ s::post ∧ s = y ++ u ++ v ∧ r = v ++ behind sep w post := by
  have hnot : ∀ y, w ≠ y ++ u ++ r := by
    rintro y rfl
    obtain ⟨a,ha⟩ := List.exists_mem_of_ne_nil u hu
    exact hw a (by simp [ha]) ha
  induction ss generalizing x with
  | nil => exact absurd h (hnot x)
  | cons s ss ih =>
    rw [text] at h
    cases ss with
    | nil =>
      obtain ⟨c,w',rfl⟩ := List.exists_cons_of_ne_nil hne
      rw [behind] at h
      rcases occurs_split h.symm (hw c (by simp)) with ⟨v,hs,hr⟩ | ⟨y,-,hy⟩
      · exact ⟨[],s,[],x,v,rfl,hs,hr⟩
      · exact absurd (congrArg (c::·) hy.symm) (hnot (c::y))
    | cons s' ss =>
      rw [behind] at h
      rcases occurs_split h.symm hsep with ⟨v,hs,hr⟩ | ⟨y,-,hy⟩
      · exact ⟨[],s,s'::ss,x,v,rfl,hs,hr⟩
      · obtain ⟨pre,s₁,post,z,v,hss,hs,hr⟩ := ih hy.symm
        exact ⟨s::pre,s₁,post,z,v,by rw [hss]; rfl,hs,hr⟩

end Separated
