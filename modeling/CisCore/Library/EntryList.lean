import Mathlib.Data.List.DropRight
import Mathlib.Data.List.Nodup

/-! # Replacing or appending a pair of an entry list -/

namespace EntryList

variable {κ ν κ' ν' : Type} [DecidableEq κ] [DecidableEq κ']

/-- Replaces the value of the key in place, or appends the pair when the key is new. -/
def upsert (k : κ) (v : ν) (l : List (κ × ν)) : List (κ × ν) :=
  l.map (fun e => if e.1 = k then (e.1, v) else e) ++
    if k ∈ l.map Prod.fst then [] else [(k, v)]

theorem map_fst_replace (k : κ) (v : ν) (l : List (κ × ν)) :
    (l.map fun e => if e.1 = k then (e.1, v) else e).map Prod.fst = l.map Prod.fst := by
  rw [List.map_map]
  apply List.map_congr_left
  intro e _
  by_cases h : e.1 = k <;> simp [h]

theorem upsert_nodup (k : κ) (v : ν) {l : List (κ × ν)} (h : (l.map Prod.fst).Nodup) :
    ((upsert k v l).map Prod.fst).Nodup := by
  rw [upsert, List.map_append, map_fst_replace]
  split_ifs with hk
  · simpa using h
  · refine List.nodup_append.mpr ⟨h, by simp, ?_⟩
    rintro a ha b hb rfl
    rw [List.map_singleton, List.mem_singleton] at hb
    subst hb
    exact hk ha

theorem mem_upsert_self {k : κ} {v v' : ν} {l : List (κ × ν)} :
    (k, v') ∈ upsert k v l ↔ v' = v := by
  rw [upsert, List.mem_append, List.mem_map]
  constructor
  · rintro (⟨e, _, heq⟩ | h)
    · split_ifs at heq with he
      · exact (Prod.mk.inj heq).2.symm
      · exact absurd (congrArg Prod.fst heq) he
    · split_ifs at h
      · cases h
      · exact (Prod.mk.inj (List.mem_singleton.mp h)).2
  · rintro rfl
    by_cases hMem : k ∈ l.map Prod.fst
    · obtain ⟨e, he, hek⟩ := List.mem_map.mp hMem
      exact Or.inl ⟨e, he, by simp [hek]⟩
    · rw [if_neg hMem]
      exact Or.inr (List.mem_singleton.mpr rfl)

theorem mem_upsert_of_ne {k k' : κ} {v v' : ν} {l : List (κ × ν)} (hk : k' ≠ k) :
    (k', v') ∈ upsert k v l ↔ (k', v') ∈ l := by
  rw [upsert, List.mem_append, List.mem_map]
  constructor
  · rintro (⟨e, he, heq⟩ | h)
    · split_ifs at heq with hek
      · exact absurd ((congrArg Prod.fst heq).symm.trans hek) hk
      · exact heq ▸ he
    · split_ifs at h
      · cases h
      · exact absurd (congrArg Prod.fst (List.mem_singleton.mp h)) hk
  · intro h
    exact Or.inl ⟨(k', v'), h, if_neg hk⟩

theorem mem_upsert_cases {k : κ} {v : ν} {l : List (κ × ν)} {e : κ × ν} (he : e ∈ upsert k v l) :
    e = (k, v) ∨ e.1 ≠ k ∧ e ∈ l := by
  obtain ⟨k', v'⟩ := e
  by_cases hk : k' = k
  · subst hk
    exact Or.inl (congrArg _ (mem_upsert_self.mp he))
  · exact Or.inr ⟨hk, (mem_upsert_of_ne hk).mp he⟩

theorem upsert_map {f : κ → κ'} (hf : Function.Injective f) (g : ν → ν') (k : κ) (v : ν)
    (l : List (κ × ν)) :
    upsert (f k) (g v) (l.map (Prod.map f g)) = (upsert k v l).map (Prod.map f g) := by
  have hMem : f k ∈ (l.map (Prod.map f g)).map Prod.fst ↔ k ∈ l.map Prod.fst := by
    rw [List.map_map, show Prod.fst ∘ Prod.map f g = f ∘ Prod.fst from rfl, ← List.map_map]
    exact List.mem_map_of_injective hf
  have hReplace : (l.map (Prod.map f g)).map (fun e => if e.1 = f k then (e.1, g v) else e) =
      (l.map fun e => if e.1 = k then (e.1, v) else e).map (Prod.map f g) := by
    rw [List.map_map, List.map_map]
    apply List.map_congr_left
    intro e _
    by_cases h : e.1 = k
    · simp [h]
    · simp [h, hf.eq_iff]
  rw [upsert, upsert, List.map_append, hReplace]
  by_cases h : k ∈ l.map Prod.fst
  · rw [if_pos h, if_pos (hMem.mpr h), List.map_nil]
  · rw [if_neg h, if_neg (mt hMem.mp h)]
    rfl

/-! ### The last entries of a list -/

theorem mem_take_or_rtake {α : Type} (l : List α) (k : Nat) (a : α) :
    a ∈ l ↔ a ∈ l.take (l.length - k) ∨ a ∈ l.rtake k := by
  rw [List.rtake, ← List.mem_append, List.take_append_drop]

theorem rel_take_rtake {α : Type} {R : α → α → Prop} {l : List α} (h : l.Pairwise R) (k : Nat)
    {a b : α} (ha : a ∈ l.take (l.length - k)) (hb : b ∈ l.rtake k) : R a b := by
  rw [← List.take_append_drop (l.length - k) l] at h
  exact (List.pairwise_append.mp h).2.2 a ha b hb

/-- Forgetting all but the last entries does not change the last entries of a longer list. -/
theorem rtake_append_rtake {α : Type} (l l' : List α) (k : Nat) :
    (l.rtake k ++ l').rtake k = (l ++ l').rtake k := by
  rw [List.rtake_eq_reverse_take_reverse, List.rtake_eq_reverse_take_reverse,
    List.rtake_eq_reverse_take_reverse, List.reverse_append, List.reverse_append,
    List.reverse_reverse, List.take_append, List.take_append, List.take_take]
  have hMin : min (k - l'.reverse.length) k = k - l'.reverse.length := by omega
  rw [hMin]

end EntryList
