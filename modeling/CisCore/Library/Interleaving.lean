import Mathlib.Data.List.Basic

/-! # Interleavings

Several sequences merge into one that keeps the order of each. What a property
selects from the merged sequence comes from the sequences one by one.
-/

variable {α : Type}

inductive Interleaving : List (List α) → List α → Prop where
  | done {parts : List (List α)} (empty : ∀ part ∈ parts, part = []) : Interleaving parts []
  | next {before after : List (List α)} {part merged : List α} (a : α)
      (rest : Interleaving (before ++ part :: after) merged) :
      Interleaving (before ++ (a :: part) :: after) (a :: merged)

namespace Interleaving

variable {parts before after : List (List α)} {part merged : List α}

theorem single (l : List α) : Interleaving [l] l := by
  induction l with
  | nil => exact .done fun part hPart => List.mem_singleton.mp hPart
  | cons a l ih => exact @next α [] [] l l a ih

theorem mem_iff (h : Interleaving parts merged) {x : α} : x ∈ merged ↔ ∃ part ∈ parts, x ∈ part := by
  rw [← List.mem_flatten]
  induction h with
  | done empty => rw [List.flatten_eq_nil_iff.mpr empty]
  | @next before after part merged a rest ih =>
    rw [List.mem_cons, ih]
    simp only [List.flatten_append, List.flatten_cons, List.cons_append, List.mem_append, List.mem_cons]
    tauto

theorem filter (p : α → Bool) (h : Interleaving parts merged) :
    Interleaving (parts.map (List.filter p)) (merged.filter p) := by
  induction h with
  | done empty =>
    refine .done fun part hPart => ?_
    obtain ⟨l, hl, rfl⟩ := List.mem_map.mp hPart
    rw [empty l hl]
    rfl
  | @next before after part merged a rest ih =>
    rw [List.map_append, List.map_cons] at ih ⊢
    cases hp : p a with
    | true =>
      rw [List.filter_cons_of_pos hp, List.filter_cons_of_pos hp]
      exact .next a ih
    | false =>
      rw [List.filter_cons_of_neg (by simp [hp]), List.filter_cons_of_neg (by simp [hp])]
      exact ih

/-- Next to empty sequences nothing is merged. -/
theorem eq_flatten (h : Interleaving parts merged)
    (hOne : parts.Pairwise fun l l' => l = [] ∨ l' = []) : merged = parts.flatten := by
  induction h with
  | done empty => exact (List.flatten_eq_nil_iff.mpr empty).symm
  | @next before after part merged a rest ih =>
    rw [List.pairwise_append, List.pairwise_cons] at hOne
    obtain ⟨hLeft, ⟨hAfter, hRight⟩, hBefore⟩ := hOne
    have hBefore' : ∀ l ∈ before, l = [] := fun l hl =>
      (hBefore l hl _ List.mem_cons_self).resolve_right (List.cons_ne_nil a part)
    have hAfter' : ∀ l ∈ after, l = [] := fun l hl =>
      (hAfter l hl).resolve_left (List.cons_ne_nil a part)
    have hRest : merged = (before ++ part :: after).flatten := by
      apply ih
      rw [List.pairwise_append, List.pairwise_cons]
      exact ⟨hLeft, ⟨fun l hl => Or.inr (hAfter' l hl), hRight⟩, fun l hl l' _ => Or.inl (hBefore' l hl)⟩
    rw [hRest]
    simp [List.flatten_eq_nil_iff.mpr hBefore']

/-- Where one part alone has what the property selects, the selection is that part's. -/
theorem filter_eq (p : α → Bool) (h : Interleaving (before ++ part :: after) merged)
    (hBefore : ∀ l ∈ before, l.filter p = []) (hAfter : ∀ l ∈ after, l.filter p = []) :
    merged.filter p = part.filter p := by
  have hLeft : ∀ l ∈ before.map (List.filter p), l = [] := List.forall_mem_map.mpr hBefore
  have hRight : ∀ l ∈ after.map (List.filter p), l = [] := List.forall_mem_map.mpr hAfter
  have hFilter := h.filter p
  rw [List.map_append, List.map_cons] at hFilter
  rw [hFilter.eq_flatten]
  · simp [List.flatten_eq_nil_iff.mpr hLeft, List.flatten_eq_nil_iff.mpr hRight]
  · rw [List.pairwise_append, List.pairwise_cons]
    refine ⟨?_, ⟨fun l hl => Or.inr (hRight l hl), ?_⟩, fun l hl l' _ => Or.inl (hLeft l hl)⟩
    · exact List.pairwise_of_forall_mem_list fun l hl l' _ => Or.inl (hLeft l hl)
    · exact List.pairwise_of_forall_mem_list fun l hl l' _ => Or.inl (hRight l hl)

end Interleaving
