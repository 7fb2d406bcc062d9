import Mathlib.Data.List.Basic
import Mathlib.Tactic.SplitIfs

/-! # Reading a stream up to a delimiter

A stream delivers its elements in chunks. A read up to a delimiter collects
chunks in a buffer until the buffer holds the delimiter; the buffer keeps what
was collected behind it. At the end of the stream the read fails.
-/

namespace ReadUntil

inductive ReadError where
  | eof
  | other
deriving DecidableEq

/-- How a read completes; `rest` are the chunks that were not collected. -/
structure Completion (α : Type) where
  error : Option ReadError
  bytesTransferred : Nat
  buffer : List α
  rest : List (List α)

variable {α : Type} {delim : α} {buffer : List α} {chunks : List (List α)}

/-- More chunks than needed may be collected. The length of a successful read
includes the delimiter, that of a failed one is zero. -/
inductive Completes (delim : α) (buffer : List α) : List (List α) → Completion α → Prop where
  | found {taken rest : List (List α)} {line behind : List α} (hLine : delim ∉ line)
      (hBuffer : buffer ++ taken.flatten = line ++ delim :: behind) :
      Completes delim buffer (taken ++ rest)
        ⟨none, line.length + 1, buffer ++ taken.flatten, rest⟩
  | eof {chunks : List (List α)} (hEnd : delim ∉ buffer ++ chunks.flatten) :
      Completes delim buffer chunks ⟨some .eof, 0, buffer ++ chunks.flatten, []⟩

theorem Completes.flatten {c : Completion α} (h : Completes delim buffer chunks c) :
    c.buffer ++ c.rest.flatten = buffer ++ chunks.flatten := by
  cases h with
  | found => simp
  | eof => simp

theorem Completes.cases {c : Completion α} (h : Completes delim buffer chunks c) :
    (∃ line behind, delim ∉ line ∧ c.error = none ∧ c.bytesTransferred = line.length + 1 ∧
      c.buffer = line ++ delim :: behind) ∨
    c.error = some .eof ∧ delim ∉ c.buffer ∧ c.rest = [] ∧ c.bytesTransferred = 0 := by
  cases h with
  | found hLine hBuffer => exact Or.inl ⟨_, _, hLine, rfl, rfl, hBuffer⟩
  | eof hEnd => exact Or.inr ⟨rfl, hEnd, rfl, rfl⟩

theorem exists_completes (delim : α) (buffer : List α) (chunks : List (List α)) :
    ∃ c, Completes delim buffer chunks c := by
  by_cases hEnd : delim ∈ buffer ++ chunks.flatten
  · obtain ⟨line, behind, hBuffer, hLine⟩ := List.eq_append_cons_of_mem hEnd
    have hFound := @Completes.found α delim buffer chunks [] line behind hLine hBuffer
    rw [List.append_nil] at hFound
    exact ⟨_, hFound⟩
  · exact ⟨_, .eof hEnd⟩

section Lines

variable [DecidableEq α]

theorem not_mem_of_mem_splitOn {piece stream : List α} (h : piece ∈ stream.splitOn delim) :
    delim ∉ piece := by
  induction stream generalizing piece with
  | nil =>
    rw [List.splitOn_nil, List.mem_singleton] at h
    rw [h]
    exact List.not_mem_nil
  | cons c stream ih =>
    rw [List.splitOn_cons_eq_if_modifyHead] at h
    split_ifs at h with hc
    · obtain rfl | h := List.mem_cons.mp h
      · exact List.not_mem_nil
      · exact ih h
    · obtain ⟨first, rest, hSplit⟩ := List.exists_cons_of_ne_nil (List.splitOn_ne_nil delim stream)
      rw [hSplit] at h ih
      rw [List.modifyHead_cons] at h
      obtain rfl | h := List.mem_cons.mp h
      · rw [List.mem_cons, not_or]
        exact ⟨fun hEq => hc (beq_iff_eq.mpr hEq.symm), ih List.mem_cons_self⟩
      · exact ih (List.mem_cons_of_mem first h)

theorem length_splitOn (delim : α) (stream : List α) :
    (stream.splitOn delim).length = stream.count delim + 1 := by
  induction stream with
  | nil => rfl
  | cons c stream ih =>
    rw [List.splitOn_cons_eq_if_modifyHead, List.count_cons]
    split_ifs
    · rw [List.length_cons, ih]
    · rw [List.length_modifyHead, ih, Nat.add_zero]

theorem flatten_splitOn (delim : α) (stream : List α) :
    (stream.splitOn delim).flatten = stream.filter (· ≠ delim) := by
  induction stream with
  | nil => rfl
  | cons c stream ih =>
    rw [List.splitOn_cons_eq_if_modifyHead]
    by_cases hc : c = delim
    · simp [hc, ih]
    · obtain ⟨first, rest, hSplit⟩ := List.exists_cons_of_ne_nil (List.splitOn_ne_nil delim stream)
      rw [hSplit, List.flatten_cons] at ih
      simp [hc, hSplit, ih]

/-- The last piece is empty when the stream is empty or ends with the delimiter. -/
theorem last_eq_nil_iff {stream last : List α} {pieces : List (List α)}
    (h : stream.splitOn delim = pieces ++ [last]) :
    last = [] ↔ ∀ c, stream.getLast? = some c → c = delim := by
  by_cases hMem : delim ∈ stream
  · obtain ⟨behind, before, hReverse, hBehind⟩ :=
      List.eq_append_cons_of_mem (List.mem_reverse.mpr hMem)
    have hStream : stream = before.reverse ++ delim :: behind.reverse := by
      rw [← stream.reverse_reverse, hReverse]
      simp
    rw [hStream, List.splitOn_append_cons_self,
      List.splitOn_eq_singleton (mt List.mem_reverse.mp hBehind)] at h
    obtain rfl := List.singleton_inj.mp (List.append_inj' h rfl).2
    rw [hStream]
    cases behind with
    | nil => simp
    | cons c behind =>
      have hc : c ≠ delim := fun hEq => hBehind (hEq ▸ List.mem_cons_self)
      simp [List.getLast?_cons, hc]
  · rw [List.splitOn_eq_singleton hMem, ← List.nil_append [stream]] at h
    obtain rfl := List.singleton_inj.mp (List.append_inj' h rfl).2
    constructor
    · rintro rfl
      simp
    · intro hLast
      by_contra hne
      obtain ⟨c, hc⟩ := Option.isSome_iff_exists.mp (List.getLast?_isSome.mpr hne)
      exact hMem (hLast c hc ▸ List.mem_of_getLast? hc)

end Lines

end ReadUntil
