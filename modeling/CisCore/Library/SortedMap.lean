import Mathlib.Data.List.Lex
import Mathlib.Data.List.Sort

/-! # Ordered maps

A map over a linearly ordered key type is its list of entries in strictly
increasing key order. In-order iteration, the least entry and removal from
the front are therefore list operations, and two maps with the same lookups
are equal.
-/

structure SortedMap (κ ν : Type) [LinearOrder κ] where
  entries : List (κ × ν)
  sorted : entries.Pairwise (fun a b => a.1 < b.1)
deriving DecidableEq

namespace SortedMap

variable {κ ν : Type} [LinearOrder κ]

def empty : SortedMap κ ν := ⟨[], .nil⟩

instance : EmptyCollection (SortedMap κ ν) := ⟨empty⟩

instance : Inhabited (SortedMap κ ν) := ⟨empty⟩

def lookupEntry (k : κ) : List (κ × ν) → Option ν
  | [] => none
  | (k', v) :: l => if k = k' then some v else lookupEntry k l

def find (m : SortedMap κ ν) (k : κ) : Option ν := lookupEntry k m.entries

def size (m : SortedMap κ ν) : Nat := m.entries.length

def keys (m : SortedMap κ ν) : List κ := m.entries.map Prod.fst

def insertEntry (k : κ) (v : ν) : List (κ × ν) → List (κ × ν)
  | [] => [(k, v)]
  | (k', v') :: l =>
    if k < k' then (k, v) :: (k', v') :: l
    else if k = k' then (k, v) :: l
    else (k', v') :: insertEntry k v l

theorem mem_insertEntry {k : κ} {v : ν} {l : List (κ × ν)} {a : κ × ν}
    (h : a ∈ insertEntry k v l) : a = (k, v) ∨ a ∈ l := by
  induction l with
  | nil => simpa [insertEntry] using h
  | cons head tail ih =>
    rw [insertEntry] at h
    split_ifs at h with hlt heq
    · simpa using h
    · obtain h | h := List.mem_cons.mp h
      · exact Or.inl h
      · exact Or.inr (List.mem_cons_of_mem _ h)
    · obtain h | h := List.mem_cons.mp h
      · exact Or.inr (List.mem_cons.mpr (Or.inl h))
      · exact (ih h).imp_right (List.mem_cons_of_mem _)

theorem insertEntry_sorted (k : κ) (v : ν) {l : List (κ × ν)}
    (h : l.Pairwise (fun a b => a.1 < b.1)) :
    (insertEntry k v l).Pairwise (fun a b => a.1 < b.1) := by
  induction l with
  | nil => simp [insertEntry]
  | cons head tail ih =>
    obtain ⟨hHead, hTail⟩ := List.pairwise_cons.mp h
    rw [insertEntry]
    split_ifs with hlt heq
    · refine List.pairwise_cons.mpr ⟨?_, h⟩
      intro b hb
      obtain rfl | hb := List.mem_cons.mp hb
      · exact hlt
      · exact hlt.trans (hHead b hb)
    · subst heq
      exact List.pairwise_cons.mpr ⟨hHead, hTail⟩
    · refine List.pairwise_cons.mpr ⟨?_, ih hTail⟩
      intro b hb
      obtain rfl | hb := mem_insertEntry hb
      · exact lt_of_le_of_ne (not_lt.mp hlt) (Ne.symm heq)
      · exact hHead b hb

/-- `m[k] = v`: an entry with the same key is overwritten. -/
def insert (m : SortedMap κ ν) (k : κ) (v : ν) : SortedMap κ ν :=
  ⟨insertEntry k v m.entries, insertEntry_sorted k v m.sorted⟩

/-- Insertion that leaves an entry with the same key alone. -/
def emplace (m : SortedMap κ ν) (k : κ) (v : ν) : SortedMap κ ν :=
  if (m.find k).isSome then m else m.insert k v

def filterKeys (p : κ → Bool) (m : SortedMap κ ν) : SortedMap κ ν :=
  ⟨m.entries.filter (fun e => p e.1), m.sorted.sublist List.filter_sublist⟩

def erase (m : SortedMap κ ν) (k : κ) : SortedMap κ ν := m.filterKeys (fun k' => k' != k)

/-- The map without its `n` least entries. -/
def dropLeast (n : Nat) (m : SortedMap κ ν) : SortedMap κ ν :=
  ⟨m.entries.drop n, m.sorted.sublist (List.drop_sublist n m.entries)⟩

/-- Later pairs overwrite earlier ones. -/
def ofList (l : List (κ × ν)) : SortedMap κ ν := l.foldl (fun m e => m.insert e.1 e.2) ∅

@[simp] theorem find_empty (k : κ) : (∅ : SortedMap κ ν).find k = none := rfl

@[simp] theorem entries_empty : (∅ : SortedMap κ ν).entries = [] := rfl

theorem lookupEntry_insertEntry (k k' : κ) (v : ν) (l : List (κ × ν)) :
    lookupEntry k' (insertEntry k v l) = if k' = k then some v else lookupEntry k' l := by
  induction l with
  | nil => rfl
  | cons head tail ih =>
    rw [insertEntry]
    split_ifs with hlt heq hk hk hk <;> simp_all [lookupEntry]

theorem find_insert (m : SortedMap κ ν) (k k' : κ) (v : ν) [Decidable (k' = k)] :
    (m.insert k v).find k' = if k' = k then some v else m.find k' := by
  rw [find, insert, lookupEntry_insertEntry]
  split_ifs <;> rfl

@[simp] theorem find_insert_self (m : SortedMap κ ν) (k : κ) (v : ν) :
    (m.insert k v).find k = some v := by
  rw [find_insert, if_pos rfl]

theorem find_insert_of_ne (m : SortedMap κ ν) {k k' : κ} (v : ν) (h : k' ≠ k) :
    (m.insert k v).find k' = m.find k' := by
  rw [find_insert, if_neg h]

theorem isSome_find_insert (m : SortedMap κ ν) (k : κ) {k' : κ} (v : ν) (h : (m.find k').isSome) :
    ((m.insert k v).find k').isSome := by
  rw [find_insert]
  split_ifs
  · rfl
  · exact h

theorem lookupEntry_eq_some_iff {l : List (κ × ν)} (h : l.Pairwise (fun a b => a.1 < b.1))
    {k : κ} {v : ν} : lookupEntry k l = some v ↔ (k, v) ∈ l := by
  induction l with
  | nil => simp [lookupEntry]
  | cons head tail ih =>
    obtain ⟨k', v'⟩ := head
    obtain ⟨hHead, hTail⟩ := List.pairwise_cons.mp h
    rw [lookupEntry]
    split_ifs with hk
    · subst hk
      constructor
      · intro hv
        cases hv
        exact List.mem_cons_self
      · intro hv
        obtain hv | hv := List.mem_cons.mp hv
        · cases hv
          rfl
        · exact absurd (hHead _ hv) (lt_irrefl _)
    · rw [ih hTail]
      simp [hk]

theorem find_eq_some_iff {m : SortedMap κ ν} {k : κ} {v : ν} :
    m.find k = some v ↔ (k, v) ∈ m.entries := lookupEntry_eq_some_iff m.sorted

theorem find_isSome_iff {m : SortedMap κ ν} {k : κ} : (m.find k).isSome ↔ k ∈ m.keys := by
  rw [Option.isSome_iff_exists, keys, List.mem_map]
  constructor
  · rintro ⟨v, hv⟩
    exact ⟨(k, v), find_eq_some_iff.mp hv, rfl⟩
  · rintro ⟨⟨k', v⟩, hv, rfl⟩
    exact ⟨v, find_eq_some_iff.mpr hv⟩

theorem keys_sorted (m : SortedMap κ ν) : m.keys.Pairwise (· < ·) :=
  List.pairwise_map.mpr m.sorted

theorem keys_nodup (m : SortedMap κ ν) : m.keys.Nodup := m.keys_sorted.imp ne_of_lt

theorem entries_injective {m m' : SortedMap κ ν} (h : m.entries = m'.entries) : m = m' := by
  cases m
  cases m'
  cases h
  rfl

theorem ext_find {m m' : SortedMap κ ν} (h : ∀ k, m.find k = m'.find k) : m = m' := by
  apply entries_injective
  apply List.Perm.eq_of_pairwise (fun a b _ _ hab hba => absurd (hab.trans hba) (lt_irrefl _))
    m.sorted m'.sorted
  apply (List.perm_ext_iff_of_nodup (m.sorted.imp fun hab heq => ?_)
    (m'.sorted.imp fun hab heq => ?_)).mpr
  · rintro ⟨k, v⟩
    rw [← find_eq_some_iff, ← find_eq_some_iff, h k]
  · exact absurd (heq ▸ hab) (lt_irrefl _)
  · exact absurd (heq ▸ hab) (lt_irrefl _)

theorem entries_eq_of_mem_iff {m : SortedMap κ ν} {l : List (κ × ν)}
    (hl : l.Pairwise (fun a b => a.1 < b.1)) (h : ∀ k v, m.find k = some v ↔ (k, v) ∈ l) :
    m.entries = l := by
  have heq : m = ⟨l, hl⟩ := by
    apply ext_find
    intro k
    apply Option.ext
    intro v
    exact (h k v).trans (lookupEntry_eq_some_iff hl).symm
  rw [heq]

theorem find_filterKeys (p : κ → Bool) (m : SortedMap κ ν) (k : κ) :
    (m.filterKeys p).find k = if p k then m.find k else none := by
  apply Option.ext
  intro v
  rw [find_eq_some_iff]
  simp only [filterKeys, List.mem_filter]
  split_ifs with hp
  · simp [hp, find_eq_some_iff]
  · simp [hp]

theorem find_emplace (m : SortedMap κ ν) (k k' : κ) (v : ν) [Decidable (k' = k)] :
    (m.emplace k v).find k' = if k' = k then some ((m.find k).getD v) else m.find k' := by
  unfold emplace
  split_ifs with hSome heq heq
  · obtain ⟨w, hw⟩ := Option.isSome_iff_exists.mp hSome
    rw [heq, hw, Option.getD_some]
  · rfl
  · have hNone : m.find k = none := by simpa using hSome
    rw [heq, hNone, find_insert_self, Option.getD_none]
  · exact find_insert_of_ne m v heq

theorem foldl_insert_find (l : List (κ × ν)) (m : SortedMap κ ν) (k : κ) (v : ν)
    (h : (l.foldl (fun m e => m.insert e.1 e.2) m).find k = some v) :
    m.find k = some v ∨ (k, v) ∈ l := by
  induction l generalizing m with
  | nil => exact Or.inl h
  | cons e l ih =>
    obtain h | h := ih _ h
    · rw [find_insert] at h
      split_ifs at h with heq
      · cases h
        exact Or.inr (heq ▸ List.mem_cons_self)
      · exact Or.inl h
    · exact Or.inr (List.mem_cons_of_mem _ h)

theorem foldl_insert_isSome (l : List (κ × ν)) (m : SortedMap κ ν) (k : κ)
    (h : (m.find k).isSome ∨ k ∈ l.map Prod.fst) :
    ((l.foldl (fun m e => m.insert e.1 e.2) m).find k).isSome := by
  induction l generalizing m with
  | nil => simpa using h
  | cons e l ih =>
    apply ih
    rw [find_insert]
    split_ifs with heq
    · exact Or.inl rfl
    · exact h.imp_right fun hk => by simpa [heq] using hk

theorem mem_of_find_ofList {l : List (κ × ν)} {k : κ} {v : ν}
    (h : (ofList l).find k = some v) : (k, v) ∈ l := by
  obtain h | h := foldl_insert_find l ∅ k v h
  · cases h
  · exact h

theorem find_ofList_isSome {l : List (κ × ν)} {e : κ × ν} (h : e ∈ l) :
    ((ofList l).find e.1).isSome :=
  foldl_insert_isSome l ∅ e.1 (Or.inr (List.mem_map_of_mem h))

theorem find_foldl_insert [DecidableEq κ] (l : List (κ × ν)) (m : SortedMap κ ν) (k : κ) :
    (l.foldl (fun m e => m.insert e.1 e.2) m).find k =
      ((l.reverse.find? fun e => e.1 = k).map Prod.snd).or (m.find k) := by
  induction l generalizing m with
  | nil => rfl
  | cons e l ih =>
    rw [List.foldl_cons, ih, find_insert, List.reverse_cons, List.find?_append]
    cases List.find? (fun e => decide (e.1 = k)) l.reverse with
    | some e' => rfl
    | none =>
      by_cases h : e.1 = k
      · simp [h]
      · simp [h, Ne.symm h]

theorem find_ofList (l : List (κ × ν)) (k : κ) :
    (ofList l).find k = (l.reverse.find? fun e => e.1 = k).map Prod.snd := by
  rw [ofList, find_foldl_insert]
  exact Option.or_none

/-- The last value of a key is the one that stays. -/
theorem find_ofList_of_last {a b : List (κ × ν)} {k : κ} (v : ν) (h : ∀ e ∈ b, e.1 ≠ k) :
    (ofList (a ++ (k, v) :: b)).find k = some v := by
  have hNone : b.reverse.find? (fun e => decide (e.1 = k)) = none := by
    rw [List.find?_eq_none]
    intro e he
    simpa using h e (List.mem_reverse.mp he)
  rw [find_ofList, List.reverse_append, List.reverse_cons, List.append_assoc, List.find?_append,
    hNone]
  simp

theorem find_ofList_of_not_mem {l : List (κ × ν)} {k : κ} (h : ∀ e ∈ l, e.1 ≠ k) :
    (ofList l).find k = none := by
  rw [find_ofList, Option.map_eq_none_iff, List.find?_eq_none]
  intro e he
  simpa using h e (List.mem_reverse.mp he)

theorem find_ofList_of_ne (a b : List (κ × ν)) {k k' : κ} (v : ν) (h : k' ≠ k) :
    (ofList (a ++ (k, v) :: b)).find k' = (ofList (a ++ b)).find k' := by
  have hOther : List.find? (fun e => decide (e.1 = k')) [(k, v)] = none := by simp [Ne.symm h]
  simp only [find_ofList, List.reverse_append, List.reverse_cons, List.append_assoc,
    List.find?_append, hOther, Option.none_or]

@[simp] theorem entries_dropLeast (n : Nat) (m : SortedMap κ ν) :
    (m.dropLeast n).entries = m.entries.drop n := rfl

/-! ### The order of the entries -/

theorem filter_lt_keys {m : SortedMap κ ν} {e : κ × ν} {before after : List (κ × ν)}
    (h : m.entries = before ++ e :: after) :
    m.keys.filter (fun k => e.1 < k) = after.map Prod.fst := by
  have hSorted := m.keys_sorted
  rw [keys, h, List.map_append, List.map_cons] at hSorted
  obtain ⟨_, hAfter, hBefore⟩ := List.pairwise_append.mp hSorted
  have hLarger := (List.pairwise_cons.mp hAfter).1
  have hNone : (before.map Prod.fst).filter (fun k => decide (e.1 < k)) = [] := by
    rw [List.filter_eq_nil_iff]
    intro k hk
    simpa using (hBefore k hk e.1 List.mem_cons_self).le
  have hAll : (after.map Prod.fst).filter (fun k => decide (e.1 < k)) = after.map Prod.fst := by
    rw [List.filter_eq_self]
    intro k hk
    simpa using hLarger k hk
  rw [keys, h, List.map_append, List.map_cons, List.filter_append, List.filter_cons, hNone, hAll]
  simp

/-- All but the last `keep` entries are those with `keep` larger keys. -/
theorem mem_take_entries_iff {m : SortedMap κ ν} {e : κ × ν} {keep : Nat} :
    e ∈ m.entries.take (m.size - keep) ↔
      e ∈ m.entries ∧ keep ≤ (m.keys.filter fun k => e.1 < k).length := by
  constructor
  · intro hTake
    have hMem := List.mem_of_mem_take hTake
    obtain ⟨before, after, hSplit⟩ := List.append_of_mem hMem
    refine ⟨hMem, ?_⟩
    rw [filter_lt_keys hSplit, List.length_map]
    by_contra hLess
    have hShort : m.size - keep ≤ before.length := by
      rw [size, hSplit, List.length_append, List.length_cons]
      omega
    have hNodup := m.keys_nodup
    rw [hSplit, List.take_append_of_le_length hShort] at hTake
    rw [keys, hSplit, List.map_append, List.map_cons] at hNodup
    exact (List.nodup_append.mp hNodup).2.2 e.1
      (List.mem_map_of_mem (List.mem_of_mem_take hTake)) e.1 List.mem_cons_self rfl
  · rintro ⟨hMem, hKeep⟩
    obtain ⟨before, after, hSplit⟩ := List.append_of_mem hMem
    rw [filter_lt_keys hSplit, List.length_map] at hKeep
    have hLong : before.length < m.size - keep := by
      rw [size, hSplit, List.length_append, List.length_cons]
      omega
    rw [hSplit, List.take_append, List.mem_append]
    right
    obtain ⟨d, hd⟩ := Nat.exists_eq_add_of_lt hLong
    have hRest : m.size - keep - before.length = d + 1 := by omega
    rw [hRest, List.take_succ_cons]
    exact List.mem_cons_self

theorem mem_drop_entries_iff {m : SortedMap κ ν} {n : Nat} {e : κ × ν} :
    e ∈ m.entries.drop n ↔ e ∈ m.entries ∧ e ∉ m.entries.take n := by
  have hNodup : (m.entries.take n ++ m.entries.drop n).Nodup := by
    rw [List.take_append_drop]
    exact List.Nodup.of_map _ m.keys_nodup
  constructor
  · intro h
    exact ⟨List.mem_of_mem_drop h, fun hTake => (List.nodup_append.mp hNodup).2.2 e hTake e h rfl⟩
  · rintro ⟨hMem, hTake⟩
    rw [← List.take_append_drop n m.entries] at hMem
    exact (List.mem_append.mp hMem).resolve_left hTake

theorem lt_of_mem_take_drop {m : SortedMap κ ν} {n : Nat} {e e' : κ × ν}
    (h : e ∈ m.entries.take n) (h' : e' ∈ m.entries.drop n) : e.1 < e'.1 := by
  have hSorted := m.sorted
  rw [← List.take_append_drop n m.entries] at hSorted
  exact (List.pairwise_append.mp hSorted).2.2 e h e' h'

theorem find_dropLeast {m : SortedMap κ ν} {n : Nat} {k : κ} {v : ν} :
    (m.dropLeast n).find k = some v ↔ m.find k = some v ∧ (k, v) ∉ m.entries.take n := by
  rw [find_eq_some_iff, find_eq_some_iff, entries_dropLeast, mem_drop_entries_iff]

theorem entries_dropLeast_one {m : SortedMap κ ν} {e : κ × ν} {l : List (κ × ν)}
    (h : m.entries = e :: l) : (m.dropLeast 1).entries = l := by
  rw [entries_dropLeast, h, List.drop_one, List.tail_cons]

theorem size_dropLeast (n : Nat) (m : SortedMap κ ν) : (m.dropLeast n).size = m.size - n :=
  List.length_drop

theorem dropLeast_dropLeast (k n : Nat) (m : SortedMap κ ν) :
    (m.dropLeast k).dropLeast n = m.dropLeast (k + n) :=
  entries_injective (List.drop_drop ..)

/-! ### Iterators

An iterator is the key it points at, or `none` at the end of the map.
-/

def first (m : SortedMap κ ν) : Option κ := m.keys.head?

/-- The iterator behind `k`, which also is what erasing `k` returns. -/
def next (m : SortedMap κ ν) (k : κ) : Option κ := (m.keys.filter fun k' => k < k').head?

theorem next_congr {m m' : SortedMap κ ν} {k : κ} (h : ∀ k', k < k' → m.find k' = m'.find k') :
    m.next k = m'.next k := by
  have hKeys : (m.keys.filter fun k' => k < k') = m'.keys.filter fun k' => k < k' := by
    apply List.Perm.eq_of_pairwise (fun a b _ _ hab hba => absurd (hab.trans hba) (lt_irrefl _))
      (m.keys_sorted.filter _) (m'.keys_sorted.filter _)
    apply (List.perm_ext_iff_of_nodup (m.keys_nodup.filter _) (m'.keys_nodup.filter _)).mpr
    intro k'
    rw [List.mem_filter, List.mem_filter, ← find_isSome_iff, ← find_isSome_iff]
    by_cases hk : k < k'
    · rw [h k' hk]
    · simp [hk]
  rw [next, next, hKeys]

theorem next_eq_head {m : SortedMap κ ν} {k : κ} {before after : List κ}
    (h : m.keys = before ++ k :: after) : m.next k = after.head? := by
  obtain ⟨entries, rest, hEntries, rfl, hRest⟩ := List.map_eq_append_iff.mp h
  obtain ⟨e, tail, rfl, rfl, rfl⟩ := List.map_eq_cons_iff.mp hRest
  rw [next, filter_lt_keys hEntries]

theorem find_erase (m : SortedMap κ ν) (k k' : κ) [Decidable (k' = k)] :
    (m.erase k).find k' = if k' = k then none else m.find k' := by
  rw [erase, find_filterKeys]
  by_cases h : k' = k
  · simp [h]
  · simp [h]

theorem keys_eq_of_mem_iff {ν' : Type} {m : SortedMap κ ν} {m' : SortedMap κ ν'}
    (h : ∀ k, k ∈ m.keys ↔ k ∈ m'.keys) : m.keys = m'.keys := by
  apply List.Perm.eq_of_pairwise (fun a b _ _ hab hba => absurd (hab.trans hba) (lt_irrefl _))
    m.keys_sorted m'.keys_sorted
  exact (List.perm_ext_iff_of_nodup m.keys_nodup m'.keys_nodup).mpr h

end SortedMap
