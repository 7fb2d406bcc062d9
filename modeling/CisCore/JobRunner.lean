import CisCore.Library.ReadUntil
import CisCore.Library.Text
import Mathlib.Logic.Relation

/-! # The job runner

The runner reads the standard output of a script line by line. The handler of a
read passes the line to a callback and starts the next read; the last read ends
with the stream and delivers what stands behind the last newline. The standard
error has a handler of its own, which drops that rest.
-/

namespace CisCore

open ReadUntil

/-- One pipe of the runner: the chunks that it still delivers, the buffer, the
strings passed to the callback and whether a read is under way. -/
structure PipeReader where
  pipe : List Str
  buffer : Str
  lines : List Str
  reading : Bool

def PipeReader.start (pipe : List Str) : PipeReader := ⟨pipe, [], [], true⟩

def makeString (buffer : Str) (size : Nat) : Str := buffer.take size

/-- The handler of `async_read_until` on the standard output. -/
def PipeReader.onOutLineRead (r : PipeReader) (c : Completion Char) : PipeReader :=
  match c.error with
  | none => ⟨c.rest, c.buffer.drop c.bytesTransferred,
      r.lines ++ [makeString c.buffer (c.bytesTransferred - 1)], true⟩
  | some .eof => ⟨c.rest, c.buffer.drop c.buffer.length,
      r.lines ++ [makeString c.buffer c.buffer.length], false⟩
  | some .other => ⟨c.rest, c.buffer, r.lines, false⟩

/-- The handler on the standard error. A read that fails has transferred nothing. -/
def PipeReader.onErrLineRead (r : PipeReader) (c : Completion Char) : PipeReader :=
  match c.error with
  | none => ⟨c.rest, c.buffer.drop c.bytesTransferred,
      r.lines ++ [makeString c.buffer (c.bytesTransferred - 1)], true⟩
  | some .eof =>
    if c.bytesTransferred ≠ 0 then
      ⟨c.rest, c.buffer.drop c.buffer.length,
        r.lines ++ [makeString c.buffer c.buffer.length], false⟩
    else ⟨c.rest, c.buffer, r.lines, false⟩
  | some .other => ⟨c.rest, c.buffer, r.lines, false⟩

/-- A read that is under way completes and its handler runs. -/
inductive PipeReader.Step (handler : PipeReader → Completion Char → PipeReader) :
    PipeReader → PipeReader → Prop where
  | complete {r : PipeReader} {c : Completion Char} (hReading : r.reading = true)
      (hRead : Completes '\n' r.buffer r.pipe c) : Step handler r (handler r c)

abbrev PipeReader.OutStep := PipeReader.Step PipeReader.onOutLineRead

abbrev PipeReader.ErrStep := PipeReader.Step PipeReader.onErrLineRead

namespace PipeReader

/-- What the callback has not got yet. -/
def pending (r : PipeReader) : Str := r.buffer ++ r.pipe.flatten

/-- The lines delivered so far and those to come are the lines of the stream. -/
structure Inv (stream : Str) (r : PipeReader) : Prop where
  reading : r.reading = true → r.lines ++ r.pending.splitOn '\n' = stream.splitOn '\n'
  finished : r.reading = false → r.lines = stream.splitOn '\n'

theorem inv_start (pipe : List Str) : (start pipe).Inv pipe.flatten where
  reading _ := by rw [pending, start, List.nil_append, List.nil_append]
  finished h := by cases h

theorem OutStep.inv {stream : Str} {r r' : PipeReader} (h : r.Inv stream) (hStep : OutStep r r') :
    r'.Inv stream := by
  obtain ⟨hReading, hRead⟩ := hStep
  rename_i c
  have hLines := h.reading hReading
  rw [pending, ← hRead.flatten] at hLines
  obtain ⟨line, behind, hLine, hError, hBytes, hBuffer⟩ | ⟨hError, hEnd, hRest, _⟩ := hRead.cases
  · have hString : makeString c.buffer (c.bytesTransferred - 1) = line := by
      rw [makeString, hBytes, hBuffer, Nat.add_sub_cancel, List.take_left]
    have hKept : c.buffer.drop c.bytesTransferred = behind := by
      rw [hBytes, hBuffer, List.drop_append]
      simp
    rw [hBuffer, List.append_assoc, List.cons_append,
      List.splitOn_append_cons_self_of_not_mem hLine] at hLines
    rw [onOutLineRead, hError]
    refine ⟨fun _ => ?_, fun hFinished => by cases hFinished⟩
    simp only [pending]
    rw [hString, hKept, ← hLines, List.append_assoc, List.singleton_append]
  · rw [hRest, List.flatten_nil, List.append_nil, List.splitOn_eq_singleton hEnd] at hLines
    rw [onOutLineRead, hError]
    refine ⟨fun hReading => (by cases hReading), fun _ => ?_⟩
    simp only [makeString]
    rw [List.take_length, hLines]

theorem OutStep.length {r r' : PipeReader} (hStep : OutStep r r') :
    r'.lines.length = r.lines.length + 1 := by
  obtain ⟨_, hRead⟩ := hStep
  obtain ⟨_, _, _, hError, _⟩ | ⟨hError, _⟩ := hRead.cases
  · rw [onOutLineRead, hError, List.length_append, List.length_singleton]
  · rw [onOutLineRead, hError, List.length_append, List.length_singleton]

theorem inv_of_reachable {pipe : List Str} {r : PipeReader}
    (h : Relation.ReflTransGen OutStep (start pipe) r) : r.Inv pipe.flatten := by
  induction h with
  | refl => exact inv_start pipe
  | tail _ hStep ih => exact hStep.inv ih

/-- Each step delivers one of the lines of the stream. -/
theorem Inv.length_le {stream : Str} {r : PipeReader} (h : r.Inv stream) :
    r.lines.length ≤ stream.count '\n' + 1 := by
  rw [← length_splitOn]
  cases hReading : r.reading with
  | true =>
    rw [← h.reading hReading, List.length_append]
    exact Nat.le_add_right _ _
  | false => rw [h.finished hReading]

theorem exists_step {r : PipeReader} (h : r.reading = true) : ∃ r', OutStep r r' := by
  obtain ⟨c, hRead⟩ := exists_completes '\n' r.buffer r.pipe
  exact ⟨_, .complete h hRead⟩

theorem exists_finished {stream : Str} {r : PipeReader} (h : r.Inv stream) :
    ∃ r', Relation.ReflTransGen OutStep r r' ∧ r'.reading = false := by
  induction hLeft : stream.count '\n' + 1 - r.lines.length generalizing r with
  | zero =>
    cases hReading : r.reading with
    | true =>
      obtain ⟨r', hStep⟩ := exists_step hReading
      have hLe := (hStep.inv h).length_le
      rw [hStep.length] at hLe
      omega
    | false => exact ⟨r, .refl, hReading⟩
  | succ left ih =>
    cases hReading : r.reading with
    | true =>
      obtain ⟨r', hStep⟩ := exists_step hReading
      have hLength := hStep.length
      obtain ⟨r'', hRun, hFinished⟩ := ih (hStep.inv h) (by omega)
      exact ⟨r'', .head hStep hRun, hFinished⟩
    | false => exact ⟨r, .refl, hReading⟩

theorem length_of_run {runs : Nat → PipeReader} {pipe : List Str} (hStart : runs 0 = start pipe)
    (hSteps : ∀ i, OutStep (runs i) (runs (i + 1))) (i : Nat) :
    Relation.ReflTransGen OutStep (start pipe) (runs i) ∧ (runs i).lines.length = i := by
  induction i with
  | zero =>
    rw [hStart]
    exact ⟨.refl, rfl⟩
  | succ i ih =>
    exact ⟨ih.1.tail (hSteps i), by rw [(hSteps i).length, ih.2]⟩

theorem not_endless (pipe : List Str) :
    ¬∃ runs : Nat → PipeReader, runs 0 = start pipe ∧ ∀ i, OutStep (runs i) (runs (i + 1)) := by
  rintro ⟨runs, hStart, hSteps⟩
  obtain ⟨hRun, hLength⟩ := length_of_run hStart hSteps (pipe.flatten.count '\n' + 2)
  have hLe := (inv_of_reachable hRun).length_le
  rw [hLength] at hLe
  omega

end PipeReader

open PipeReader in
/-- However the pipe cuts the output of a script into chunks, the reader ends and
has delivered the output line by line. The length of a successful read is never
zero, so that the one for the newline can be taken off. -/
theorem stdout_reader_lossless (pipe : List Str) :
    (∀ r, Relation.ReflTransGen OutStep (.start pipe) r →
      (∀ c, Completes '\n' r.buffer r.pipe c → c.error = none →
        1 ≤ c.bytesTransferred ∧ c.bytesTransferred ≤ c.buffer.length) ∧
      (r.reading = true → ∃ r', OutStep r r') ∧
      (r.reading = false → List.intercalate ['\n'] r.lines = pipe.flatten ∧
        (∀ line ∈ r.lines, '\n' ∉ line) ∧ r.lines = pipe.flatten.splitOn '\n')) ∧
    (∃ r, Relation.ReflTransGen OutStep (.start pipe) r ∧ r.reading = false) ∧
    ¬∃ runs : Nat → PipeReader, runs 0 = .start pipe ∧ ∀ i, OutStep (runs i) (runs (i + 1)) := by
  refine ⟨fun r hRun => ⟨?_, exists_step, ?_⟩, exists_finished (inv_start pipe), not_endless pipe⟩
  · intro c hRead hError
    obtain ⟨line, behind, _, _, hBytes, hBuffer⟩ | ⟨hEof, _⟩ := hRead.cases
    · rw [hBytes, hBuffer, List.length_append, List.length_cons]
      omega
    · rw [hError] at hEof
      cases hEof
  · intro hFinished
    rw [(inv_of_reachable hRun).finished hFinished]
    exact ⟨List.intercalate_splitOn '\n', fun _ => not_mem_of_mem_splitOn, rfl⟩

/-! ### The standard error -/

namespace PipeReader

theorem Step.reading {handler : PipeReader → Completion Char → PipeReader} {r r' : PipeReader}
    (h : Step handler r r') : r.reading = true := by
  obtain ⟨hReading, _⟩ := h
  exact hReading

/-- Both handlers do the same until the stream ends. There the one for the standard
output delivers one line more. -/
theorem step_cases {r : PipeReader} {c : Completion Char} (h : Completes '\n' r.buffer r.pipe c) :
    (r.onErrLineRead c = r.onOutLineRead c ∧ (r.onOutLineRead c).reading = true) ∨
      (r.onErrLineRead c).reading = false ∧ (r.onOutLineRead c).reading = false ∧
        ∃ last, (r.onOutLineRead c).lines = (r.onErrLineRead c).lines ++ [last] := by
  rw [onErrLineRead, onOutLineRead]
  obtain ⟨_, _, _, hError, _⟩ | ⟨hError, _, _, hBytes⟩ := h.cases
  · rw [hError]
    exact Or.inl ⟨rfl, rfl⟩
  · rw [hError, hBytes]
    exact Or.inr ⟨rfl, rfl, _, rfl⟩

/-- Two readers whose handlers do the same until the stream ends keep step, up to what the
last completion makes of either. -/
theorem lockstep {handler : PipeReader → Completion Char → PipeReader}
    (handler' : PipeReader → Completion Char → PipeReader) (ends : PipeReader → PipeReader → Prop)
    (hStep : ∀ r c, Completes '\n' r.buffer r.pipe c →
      (handler r c = handler' r c ∧ (handler r c).reading = true) ∨
        (handler r c).reading = false ∧ ends (handler r c) (handler' r c))
    {pipe : List Str} {r : PipeReader} (h : Relation.ReflTransGen (Step handler) (start pipe) r) :
    (r.reading = true ∧ Relation.ReflTransGen (Step handler') (start pipe) r) ∨
      r.reading = false ∧ ∃ r', Relation.ReflTransGen (Step handler') (start pipe) r' ∧ ends r r' := by
  induction h with
  | refl => exact Or.inl ⟨rfl, .refl⟩
  | tail _ hLast ih =>
    obtain ⟨hReading, hRead⟩ := hLast
    obtain ⟨_, hRun⟩ | ⟨hFinished, _⟩ := ih
    · have hNext := hRun.tail (.complete hReading hRead)
      obtain ⟨hSame, hGoesOn⟩ | ⟨hEnded, hEnds⟩ := hStep _ _ hRead
      · exact Or.inl ⟨hGoesOn, hSame ▸ hNext⟩
      · exact Or.inr ⟨hEnded, _, hNext, hEnds⟩
    · rw [hFinished] at hReading
      cases hReading

/-- The reader of the standard error keeps step with that of the standard output. -/
theorem err_reachable {pipe : List Str} {r : PipeReader}
    (h : Relation.ReflTransGen ErrStep (start pipe) r) :
    (r.reading = true ∧ Relation.ReflTransGen OutStep (start pipe) r) ∨
      r.reading = false ∧ ∃ r₀, Relation.ReflTransGen OutStep (start pipe) r₀ ∧
        r₀.reading = false ∧ ∃ last, r₀.lines = r.lines ++ [last] := by
  refine lockstep onOutLineRead
    (fun r r₀ => r₀.reading = false ∧ ∃ last, r₀.lines = r.lines ++ [last]) (fun r c hRead => ?_) h
  obtain ⟨hSame, hGoesOn⟩ | ⟨hErr, hEnds⟩ := step_cases hRead
  · exact Or.inl ⟨hSame, hSame ▸ hGoesOn⟩
  · exact Or.inr ⟨hErr, hEnds⟩

theorem out_reachable {pipe : List Str} {r : PipeReader}
    (h : Relation.ReflTransGen OutStep (start pipe) r) :
    (r.reading = true ∧ Relation.ReflTransGen ErrStep (start pipe) r) ∨
      r.reading = false ∧ ∃ r₀, Relation.ReflTransGen ErrStep (start pipe) r₀ ∧
        r₀.reading = false := by
  refine lockstep onErrLineRead (fun _ r₀ => r₀.reading = false) (fun r c hRead => ?_) h
  obtain ⟨hSame, hGoesOn⟩ | ⟨hErr, hEnds, _⟩ := step_cases hRead
  · exact Or.inl ⟨hSame.symm, hGoesOn⟩
  · exact Or.inr ⟨hEnds, hErr⟩

theorem exists_err_finished (pipe : List Str) :
    ∃ r, Relation.ReflTransGen ErrStep (start pipe) r ∧ r.reading = false := by
  obtain ⟨r, hRun, hFinished⟩ := exists_finished (inv_start pipe)
  obtain ⟨hReading, _⟩ | ⟨_, hErr⟩ := out_reachable hRun
  · rw [hFinished] at hReading
    cases hReading
  · exact hErr

theorem err_not_endless (pipe : List Str) :
    ¬∃ runs : Nat → PipeReader, runs 0 = start pipe ∧ ∀ i, ErrStep (runs i) (runs (i + 1)) := by
  rintro ⟨runs, hStart, hSteps⟩
  refine not_endless pipe ⟨runs, hStart, fun i => ?_⟩
  have hNext := (hSteps (i + 1)).reading
  have hStep := hSteps i
  generalize runs (i + 1) = r' at hNext hStep
  obtain ⟨hReading, hRead⟩ := hStep
  obtain ⟨hSame, _⟩ | ⟨hEnds, _⟩ := step_cases hRead
  · rw [hSame]
    exact .complete hReading hRead
  · rw [hNext] at hEnds
    cases hEnds

end PipeReader

open PipeReader in
/-- The reader of the standard error ends as well. It delivers the lines that the other
reader delivers, and every byte but the newlines, exactly if the output ends with a
newline or is empty. -/
theorem stderr_reader_agrees_iff (pipe : List Str) :
    (∃ r, Relation.ReflTransGen ErrStep (.start pipe) r ∧ r.reading = false) ∧
    (¬∃ runs : Nat → PipeReader, runs 0 = .start pipe ∧ ∀ i, ErrStep (runs i) (runs (i + 1))) ∧
    ((∀ r, Relation.ReflTransGen ErrStep (.start pipe) r → r.reading = false →
        (∀ pipe' r', pipe'.flatten = pipe.flatten →
          Relation.ReflTransGen OutStep (.start pipe') r' → r'.reading = false →
          r'.lines = r.lines ∨ r'.lines = r.lines ++ [[]]) ∧
        r.lines.flatten = pipe.flatten.filter (· ≠ '\n')) ↔
      ∀ c, pipe.flatten.getLast? = some c → c = '\n') := by
  refine ⟨exists_err_finished pipe, err_not_endless pipe, ?_⟩
  -- the lines that are delivered are those of the stream without the last one
  have hLines : ∀ r, Relation.ReflTransGen ErrStep (.start pipe) r → r.reading = false →
      ∃ last, pipe.flatten.splitOn '\n' = r.lines ++ [last] := by
    intro r hRun hFinished
    obtain ⟨hReading, _⟩ | ⟨_, r₀, hOut, hEnds, last, hLast⟩ := err_reachable hRun
    · rw [hFinished] at hReading
      cases hReading
    · exact ⟨last, by rw [← hLast, (inv_of_reachable hOut).finished hEnds]⟩
  constructor
  · intro hAgrees
    obtain ⟨r, hRun, hFinished⟩ := exists_err_finished pipe
    obtain ⟨last, hSplit⟩ := hLines r hRun hFinished
    apply (last_eq_nil_iff hSplit).mp
    have hFlatten := flatten_splitOn '\n' pipe.flatten
    rw [hSplit, ← (hAgrees r hRun hFinished).2] at hFlatten
    simpa using hFlatten
  · intro hEnd r hRun hFinished
    obtain ⟨last, hSplit⟩ := hLines r hRun hFinished
    obtain rfl := (last_eq_nil_iff hSplit).mpr hEnd
    constructor
    · intro pipe' r' hSame hOut hEnds
      right
      rw [(inv_of_reachable hOut).finished hEnds, hSame, hSplit]
    · rw [← flatten_splitOn, hSplit]
      simp

open PipeReader in
/-- What stands behind the last newline is delivered from the standard output only. -/
theorem stderr_last_line_lost :
    ∃ r r', Relation.ReflTransGen ErrStep (.start ["oops"]) r ∧ r.reading = false ∧
      Relation.ReflTransGen OutStep (.start ["oops"]) r' ∧ r'.reading = false ∧
      r.lines = [] ∧ r'.lines = ["oops"] := by
  have hRead : Completes '\n' [] ["oops"] ⟨some .eof, 0, "oops", []⟩ := .eof (by decide)
  exact ⟨_, _, .single (.complete rfl hRead), rfl, .single (.complete rfl hRead), rfl, rfl, rfl⟩

end CisCore
