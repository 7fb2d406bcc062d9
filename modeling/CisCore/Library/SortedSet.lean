import CisCore.Library.SortedMap

/-! # Ordered sets

A set over a linearly ordered type is an ordered map to the unit type. Its keys
are its elements in increasing order, and two sets with the same elements are
equal.
-/

abbrev SortedSet (κ : Type) [LinearOrder κ] := SortedMap κ Unit

namespace SortedSet

variable {κ : Type} [LinearOrder κ]

instance : Membership κ (SortedSet κ) := ⟨fun s k => k ∈ SortedMap.keys s⟩

def add (s : SortedSet κ) (k : κ) : SortedSet κ := SortedMap.insert s k ()

def remove (s : SortedSet κ) (k : κ) : SortedSet κ := SortedMap.erase s k

instance (s : SortedSet κ) (k : κ) : Decidable (k ∈ s) :=
  inferInstanceAs (Decidable (k ∈ SortedMap.keys s))

theorem mem_iff_keys {s : SortedSet κ} {k : κ} : k ∈ s ↔ k ∈ SortedMap.keys s := Iff.rfl

theorem mem_iff_find {s : SortedSet κ} {k : κ} : k ∈ s ↔ (SortedMap.find s k).isSome :=
  SortedMap.find_isSome_iff.symm

theorem not_mem_empty (k : κ) : k ∉ (∅ : SortedSet κ) := List.not_mem_nil

theorem mem_add {s : SortedSet κ} {k k' : κ} : k' ∈ s.add k ↔ k' = k ∨ k' ∈ s := by
  rw [mem_iff_find, mem_iff_find, add, SortedMap.find_insert]
  split_ifs with h
  · simp [h]
  · simp [h]

theorem mem_remove {s : SortedSet κ} {k k' : κ} : k' ∈ s.remove k ↔ k' ≠ k ∧ k' ∈ s := by
  rw [mem_iff_find, mem_iff_find, remove, SortedMap.erase, SortedMap.find_filterKeys]
  by_cases h : k' = k
  · simp [h]
  · simp [h]

theorem ext_mem {s s' : SortedSet κ} (h : ∀ k, k ∈ s ↔ k ∈ s') : s = s' := by
  apply SortedMap.ext_find
  intro k
  apply Option.ext
  rintro ⟨⟩
  have hk := h k
  rw [mem_iff_find, mem_iff_find, Option.isSome_iff_exists, Option.isSome_iff_exists] at hk
  constructor
  · intro hFind
    obtain ⟨⟨⟩, hFind'⟩ := hk.mp ⟨(), hFind⟩
    exact hFind'
  · intro hFind
    obtain ⟨⟨⟩, hFind'⟩ := hk.mpr ⟨(), hFind⟩
    exact hFind'

theorem mem_foldl_add {ks : List κ} {s : SortedSet κ} {k : κ} :
    k ∈ ks.foldl add s ↔ k ∈ ks ∨ k ∈ s := by
  induction ks generalizing s with
  | nil => simp
  | cons k' ks ih =>
    rw [List.foldl_cons, ih, mem_add, List.mem_cons]
    constructor
    · rintro (h | h | h)
      · exact Or.inl (Or.inr h)
      · exact Or.inl (Or.inl h)
      · exact Or.inr h
    · rintro ((h | h) | h)
      · exact Or.inr (Or.inl h)
      · exact Or.inl h
      · exact Or.inr (Or.inr h)

theorem foldl_add_keys (s : SortedSet κ) : (SortedMap.keys s).foldl add ∅ = s := by
  apply ext_mem
  intro k
  rw [mem_foldl_add, ← mem_iff_keys]
  exact or_iff_left (not_mem_empty k)

end SortedSet
