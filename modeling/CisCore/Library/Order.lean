import Mathlib.Data.Finset.Card
import Mathlib.Data.Nat.Find
import Mathlib.Order.Nat
import Mathlib.Order.SuccPred.Archimedean

/-! # Sets in a linear order

How many members of a finite set are larger than a given one, and what comes next
after a given element in a set that need not be finite.
-/

/-! ### Members above a bound

Taking out a member that has enough larger ones leaves enough above every other one.
-/

namespace Largest

variable {α : Type} [LinearOrder α]

def above (s : Finset α) (a : α) : Finset α := s.filter (a < ·)

theorem mem_above {s : Finset α} {a b : α} : b ∈ above s a ↔ b ∈ s ∧ a < b := Finset.mem_filter

theorem card_above_mono {s t : Finset α} (h : s ⊆ t) (a : α) :
    (above s a).card ≤ (above t a).card :=
  Finset.card_le_card (Finset.filter_subset_filter _ h)

theorem le_card_above_erase {s : Finset α} {k : Nat} {a b : α} (ha : k ≤ (above s a).card)
    (hb : k ≤ (above s b).card) : k ≤ (above (s.erase b) a).card := by
  obtain hLt | hGe := lt_or_ge a b
  · refine hb.trans (Finset.card_le_card fun c hc => ?_)
    obtain ⟨hMem, hLarger⟩ := mem_above.mp hc
    exact mem_above.mpr ⟨Finset.mem_erase.mpr ⟨hLarger.ne', hMem⟩, hLt.trans hLarger⟩
  · refine ha.trans (Finset.card_le_card fun c hc => ?_)
    obtain ⟨hMem, hLarger⟩ := mem_above.mp hc
    exact mem_above.mpr ⟨Finset.mem_erase.mpr ⟨(hGe.trans_lt hLarger).ne', hMem⟩, hLarger⟩

end Largest

/-! ### Schedules

A schedule is a set of instants. What comes next after an instant is the least
element of the set that lies behind it.
-/

namespace Schedule

variable {α : Type} [LinearOrder α]

def IsNext (S : Set α) (next : α → α) : Prop := ∀ t, IsLeast {o | o ∈ S ∧ t < o} (next t)

variable {S : Set α} {next : α → α}

theorem IsNext.mem (h : IsNext S next) (t : α) : next t ∈ S := (h t).1.1

theorem IsNext.lt (h : IsNext S next) (t : α) : t < next t := (h t).1.2

theorem IsNext.le (h : IsNext S next) {t o : α} (ho : o ∈ S) (ht : t < o) : next t ≤ o :=
  (h t).2 ⟨ho, ht⟩

variable [SuccOrder α] [IsSuccArchimedean α] {f : ℕ → α}

theorem exists_le_of_strictMono (hMono : StrictMono f) (o : α) : ∃ k, o ≤ f k := by
  by_contra! hBelow
  refine hMono.not_bddAbove_range_of_isSuccArchimedean ⟨o, ?_⟩
  rintro _ ⟨k, rfl⟩
  exact (hBelow k).le

/-- A walk upwards meets every element behind `b` exactly once if and only if it never
passes one by. -/
theorem existsUnique_iff_no_gap (hMono : StrictMono f) {b : α} (hStart : b < f 0)
    (hFirst : ∀ o ∈ S, b < o → f 0 ≤ o) :
    (∀ o ∈ S, b < o → ∃! k, f k = o) ↔ ∀ k, ∀ o ∈ S, f k < o → f (k + 1) ≤ o := by
  constructor
  · intro h k o ho hLt
    have hBehind : b < o := hStart.trans_le ((hMono.monotone (Nat.zero_le k)).trans hLt.le)
    obtain ⟨j, rfl, _⟩ := h o ho hBehind
    exact hMono.monotone (hMono.lt_iff_lt.mp hLt)
  · intro hGap o ho hBehind
    -- the first place where the walk has reached the element
    have hReached := exists_le_of_strictMono hMono o
    have hLeast := Nat.find_spec hReached
    have hMin := fun k => Nat.find_min hReached (m := k)
    generalize Nat.find hReached = k at hLeast hMin
    have hMeets : f k ≤ o := by
      cases k with
      | zero => exact hFirst o ho hBehind
      | succ k => exact hGap k o ho (not_le.mp (hMin k (Nat.lt_succ_self k)))
    refine ⟨k, hMeets.antisymm hLeast, fun j hj => ?_⟩
    exact hMono.injective (hj.trans (hMeets.antisymm hLeast).symm)

end Schedule
