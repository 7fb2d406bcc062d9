import CisCore.Job.Output
import CisCore.JobRunner

/-! # A script between its pipes

`execute` starts the script and runs an event loop: the completed reads of the two
pipes and the exit of the process are handled one after the other, in the order in
which they happen. The loop ends when nothing is awaited any more.
-/

namespace CisCore

open ReadUntil Relation

/-- What a script does: the chunks in which its streams arrive, and its exit status
unless the process library reports an error. -/
structure ChildRun where
  out : List Str
  err : List Str
  status : Option Int32

structure Runner where
  tree : FileTree
  /-- How much the stream of `output.txt` has written. -/
  position : Nat
  out : PipeReader
  err : PipeReader
  events : List LineEvent
  exited : Bool
  ec : Ec
  exitCode : Int32

namespace Runner

def start (t : FileTree) (child : ChildRun) (exitCode : Int32) : Runner :=
  ⟨t, 0, .start child.out, .start child.err, [], false, none, exitCode⟩

section Model

variable (os : Os) (dir : FsPath) (status : Option Int32)

/-- The callback for lines of either stream. -/
def writeLine (r : Runner) (e : LineEvent) : Runner :=
  { r with
    tree := r.tree.writeAt (dir / "output.txt") r.position (e.text ++ ['\n'])
    position := r.position + (e.text ++ ['\n']).length
    events := r.events ++ [e] }

/-- The handler of a reader has passed these lines on. -/
def deliver (error : Bool) (r : Runner) (lines : List Str) : Runner :=
  (lines.map (LineEvent.mk error)).foldl (writeLine dir) r

def onOut (r : Runner) (c : Completion Char) : Runner :=
  deliver dir false { r with out := r.out.onOutLineRead c }
    ((r.out.onOutLineRead c).lines.drop r.out.lines.length)

def onErr (r : Runner) (c : Completion Char) : Runner :=
  deliver dir true { r with err := r.err.onErrLineRead c }
    ((r.err.onErrLineRead c).lines.drop r.err.lines.length)

def onExit (r : Runner) : Runner :=
  let result := CisCore.onExit os r.tree dir r.exitCode status
  { r with tree := result.1, ec := result.2.1, exitCode := result.2.2, exited := true }

/-- One handler runs. -/
inductive Step : Runner → Runner → Prop where
  | out {r : Runner} {c : Completion Char} (hReading : r.out.reading = true)
      (hRead : Completes '\n' r.out.buffer r.out.pipe c) : Step r (r.onOut dir c)
  | err {r : Runner} {c : Completion Char} (hReading : r.err.reading = true)
      (hRead : Completes '\n' r.err.buffer r.err.pipe c) : Step r (r.onErr dir c)
  | exit {r : Runner} (hRuns : r.exited = false) : Step r (r.onExit os dir status)

end Model

/-- Nothing is awaited any more. -/
def Done (r : Runner) : Prop := r.out.reading = false ∧ r.err.reading = false ∧ r.exited = true

end Runner

/-- `execute` with its event loop. -/
def Job.ExecutesTo (os : Os) (job : Job) (t : FileTree) (env : SortedMap Str Str) (number : Nat)
    (force : Bool) (child : Launch → ChildRun) (exitCode : Int32) (e : Execution) : Prop :=
  let dir := (job.builds.pending.find number).getD []
  match ensureExecutable os t (dir / job.config.script) force with
  | (t, some error) => e = ⟨t, job, some error, exitCode, none⟩
  | (t, none) =>
    match os.openOfstream t (dir / "output.txt") with
    | none => e = ⟨t, job, fail .cantOpenBuildOutputFile, exitCode, none⟩
    | some t =>
      let launch : Launch := ⟨env, dir, t⟩
      ∃ r, ReflTransGen (Runner.Step os dir (child launch).status)
          (.start t (child launch) exitCode) r ∧ r.Done ∧
        e = ⟨r.tree, job.settle number r.exitCode, r.ec, r.exitCode, some launch⟩

/-- The lines that have come from one of the streams. -/
def textsOf (error : Bool) (events : List LineEvent) : List Str :=
  (events.filter fun e => e.error == error).map LineEvent.text

theorem textsOf_append (b error : Bool) (events : List LineEvent) (lines : List Str) :
    textsOf b (events ++ lines.map (LineEvent.mk error)) =
      textsOf b events ++ if error = b then lines else [] := by
  by_cases h : error = b
  · subst h
    simp [textsOf, List.filter_map, Function.comp_def]
  · simp [textsOf, List.filter_map, Function.comp_def, h]

/-! ### What a reader still delivers -/

namespace PipeReader

variable {r r' : PipeReader}

def outTodo (r : PipeReader) : List Str := if r.reading then r.pending.splitOn '\n' else []

def errTodo (r : PipeReader) : List Str := r.outTodo.dropLast

/-- How many handlers of the reader are still to run. -/
def left (r : PipeReader) : Nat := r.outTodo.length

theorem outTodo_start (pipe : List Str) : (start pipe).outTodo = pipe.flatten.splitOn '\n' := by
  simp [outTodo, start, pending]

theorem outTodo_eq_nil_iff : r.outTodo = [] ↔ r.reading = false := by
  rw [outTodo]
  cases r.reading with
  | true => simp [List.splitOn_ne_nil]
  | false => simp

/-- A completed read makes a line of what is awaited; the handler for the standard
error keeps the last one to itself. -/
theorem completed (hReading : r.reading = true) {c : Completion Char}
    (hRead : Completes '\n' r.buffer r.pipe c) :
    ∃ line, r.outTodo = line :: (r.onOutLineRead c).outTodo ∧
      (r.onOutLineRead c).lines = r.lines ++ [line] ∧
      (r.onErrLineRead c).outTodo = (r.onOutLineRead c).outTodo ∧
      (r.onErrLineRead c).lines =
        if (r.onOutLineRead c).outTodo = [] then r.lines else r.lines ++ [line] := by
  have hPending : r.outTodo = (c.buffer ++ c.rest.flatten).splitOn '\n' := by
    rw [hRead.flatten, outTodo, if_pos hReading, pending]
  obtain ⟨line, behind, hLine, hError, hBytes, hBuffer⟩ | ⟨hError, hEnd, hRest, hBytes⟩ := hRead.cases
  · have hString : makeString c.buffer (c.bytesTransferred - 1) = line := by
      rw [makeString, hBytes, hBuffer, Nat.add_sub_cancel, List.take_left]
    have hKept : c.buffer.drop c.bytesTransferred = behind := by
      rw [hBytes, hBuffer, List.drop_append]
      simp
    rw [hBuffer, List.append_assoc, List.cons_append,
      List.splitOn_append_cons_self_of_not_mem hLine] at hPending
    have hOut : r.onOutLineRead c = ⟨c.rest, behind, r.lines ++ [line], true⟩ := by
      rw [onOutLineRead, hError, ← hString, ← hKept]
    have hErr : r.onErrLineRead c = ⟨c.rest, behind, r.lines ++ [line], true⟩ := by
      rw [onErrLineRead, hError, ← hString, ← hKept]
    have hNext : outTodo ⟨c.rest, behind, r.lines ++ [line], true⟩ ≠ [] := by
      rw [Ne, outTodo_eq_nil_iff]
      simp
    rw [hOut, hErr]
    exact ⟨line, hPending, rfl, rfl, (if_neg hNext).symm⟩
  · rw [hRest, List.flatten_nil, List.append_nil, List.splitOn_eq_singleton hEnd] at hPending
    have hOut : r.onOutLineRead c = ⟨c.rest, [], r.lines ++ [c.buffer], false⟩ := by
      rw [onOutLineRead, hError]
      simp [makeString]
    have hErr : r.onErrLineRead c = ⟨c.rest, c.buffer, r.lines, false⟩ := by
      rw [onErrLineRead, hError, hBytes]
      rfl
    rw [hOut, hErr]
    exact ⟨c.buffer, hPending, rfl, rfl, rfl⟩

theorem left_onOutLineRead (hReading : r.reading = true) {c : Completion Char}
    (hRead : Completes '\n' r.buffer r.pipe c) : (r.onOutLineRead c).left + 1 = r.left := by
  obtain ⟨line, hTodo, _⟩ := completed hReading hRead
  rw [left, left, hTodo, List.length_cons]

theorem left_onErrLineRead (hReading : r.reading = true) {c : Completion Char}
    (hRead : Completes '\n' r.buffer r.pipe c) : (r.onErrLineRead c).left + 1 = r.left := by
  obtain ⟨line, hTodo, _, hSame, _⟩ := completed hReading hRead
  rw [left, left, hSame, hTodo, List.length_cons]

/-- The lines that the handler passes on are the next ones of those still to come. -/
theorem onOutLineRead_delivers (hReading : r.reading = true) {c : Completion Char}
    (hRead : Completes '\n' r.buffer r.pipe c) :
    (r.onOutLineRead c).lines.drop r.lines.length ++ (r.onOutLineRead c).outTodo = r.outTodo := by
  obtain ⟨line, hTodo, hLines, _⟩ := completed hReading hRead
  rw [hLines, List.drop_left, hTodo, List.singleton_append]

theorem onErrLineRead_delivers (hReading : r.reading = true) {c : Completion Char}
    (hRead : Completes '\n' r.buffer r.pipe c) :
    (r.onErrLineRead c).lines.drop r.lines.length ++ (r.onErrLineRead c).errTodo = r.errTodo := by
  obtain ⟨line, hTodo, _, hSame, hLines⟩ := completed hReading hRead
  rw [hLines, errTodo, errTodo, hSame, hTodo]
  split_ifs with hLast
  · rw [hLast, List.drop_length]
    rfl
  · rw [List.drop_left, List.singleton_append, List.dropLast_cons_of_ne_nil hLast]

end PipeReader

/-! ### The output file next to the exit status -/

section Files

variable {os : Os} {dir : FsPath} {t : FileTree}

theorem FileTree.write_comm {p q : FsPath} (hne : p ≠ q) (t : FileTree) (text text' : Str) :
    (t.write p text).write q text' = (t.write q text').write p text := by
  apply SortedMap.ext_find
  intro r
  simp only [FileTree.find_write]
  by_cases hp : r = p
  · subst hp
    simp [hne]
  · by_cases hq : r = q
    · subst hq
      simp [hp]
    · simp [hp, hq]

theorem output_ne_exitcode_path (dir : FsPath) : dir / "output.txt" ≠ dir / "exitcode.txt" := by
  simp

/-- The exit handler does the same whatever has been written to the output file. -/
theorem onExit_write (os : Os) (t : FileTree) (dir : FsPath) (text : Str) (exitCode : Int32)
    (status : Option Int32) :
    onExit os (t.write (dir / "output.txt") text) dir exitCode status =
      ((onExit os t dir exitCode status).1.write (dir / "output.txt") text,
        (onExit os t dir exitCode status).2) := by
  cases status with
  | none => rfl
  | some status =>
    have hFind : (t.write (dir / "output.txt") text).find (dir / "exitcode.txt") =
        t.find (dir / "exitcode.txt") :=
      FileTree.find_write_of_ne text (output_ne_exitcode_path dir).symm
    have hne : dir ≠ dir / "output.txt" := (FileTree.inside_child dir "output.txt".toList).2.symm
    have hDir : (t.write (dir / "output.txt") text).isDirectory dir = t.isDirectory dir := by
      rw [FileTree.isDirectory, FileTree.isDirectory, FileTree.find_write_of_ne text hne]
    have hOpen : (os.openOfstream (t.write (dir / "output.txt") text) (dir / "exitcode.txt")).isSome =
        (os.openOfstream t (dir / "exitcode.txt")).isSome := by
      rw [Bool.eq_iff_iff, Os.openOfstream_isSome_iff, Os.openOfstream_isSome_iff,
        FileTree.content_congr hFind, FileTree.pathExists, FileTree.pathExists, hFind]
      exact and_congr_right fun _ => or_congr_right (and_congr_right fun _ => Bool.eq_iff_iff.mp hDir)
    have hNew : ∀ t₁, os.writeFile (t.write (dir / "output.txt") text) (dir / "exitcode.txt")
        (exitcodeText status) = some t₁ →
        t₁ = (t.write (dir / "exitcode.txt") (exitcodeText status)).write (dir / "output.txt") text :=
      fun t₁ h => (Os.writeFile_eq_some h).trans (FileTree.write_comm (output_ne_exitcode_path dir) ..)
    simp only [onExit, recordExitcode]
    rcases hWrite : os.writeFile t (dir / "exitcode.txt") (exitcodeText status) with _ | t₁
    · have hSame : os.writeFile (t.write (dir / "output.txt") text) (dir / "exitcode.txt")
          (exitcodeText status) = none := by
        rw [Os.writeFile, Option.map_eq_none_iff] at hWrite ⊢
        rw [← Option.not_isSome_iff_eq_none, hOpen, hWrite]
        simp
      rw [hSame]
    · have hSame : (os.writeFile (t.write (dir / "output.txt") text) (dir / "exitcode.txt")
          (exitcodeText status)).isSome := by
        rw [Os.writeFile, Option.isSome_map, hOpen, ← Option.isSome_map, ← Os.writeFile, hWrite]
        rfl
      obtain ⟨t₂, hSecond⟩ := Option.isSome_iff_exists.mp hSame
      rw [hSecond, hNew t₂ hSecond, Os.writeFile_eq_some hWrite]

end Files

/-! ### One handler -/

namespace Runner

section Handlers

variable (os : Os) (dir : FsPath) (child : ChildRun) (t : FileTree) (exitCode : Int32)

/-- What has come of the files, the error and the status after these lines. -/
def outcome (exited : Bool) (lines : List Str) : FileTree × Ec × Int32 :=
  if exited then CisCore.onExit os (exitTree dir t lines) dir exitCode child.status
  else (exitTree dir t lines, none, exitCode)

/-- The files are those of the lines that have been written. -/
structure Written (r : Runner) : Prop where
  tree : r.tree = (outcome os dir child t exitCode r.exited (r.events.map LineEvent.text)).1
  result : (r.ec, r.exitCode) = (outcome os dir child t exitCode r.exited []).2
  position : r.position = (outputText (r.events.map LineEvent.text)).length

/-- The lines of each stream are those that have been written and those to come. -/
structure Inv (r : Runner) : Prop extends Written os dir child t exitCode r where
  out : textsOf false r.events ++ r.out.outTodo = child.out.flatten.splitOn '\n'
  err : textsOf true r.events ++ r.err.errTodo = (child.err.flatten.splitOn '\n').dropLast

end Handlers

variable {os : Os} {dir : FsPath} {child : ChildRun} {t : FileTree} {exitCode : Int32}

theorem outcome_eq_write (os : Os) (dir : FsPath) (child : ChildRun) (t : FileTree) (exitCode : Int32)
    (exited : Bool) (lines : List Str) :
    outcome os dir child t exitCode exited lines =
      ((outcome os dir child t exitCode exited []).1.write (dir / "output.txt") (outputText lines),
        (outcome os dir child t exitCode exited []).2) := by
  cases exited with
  | false => simp [outcome, exitTree, FileTree.write_write]
  | true =>
    simp only [outcome, if_true, exitTree, onExit_write, FileTree.write_write]

theorem writeAt_outcome (exited : Bool) (lines : List Str) (line : Str) :
    (outcome os dir child t exitCode exited lines).1.writeAt (dir / "output.txt")
        (outputText lines).length (line ++ ['\n']) =
      (outcome os dir child t exitCode exited (lines ++ [line])).1 := by
  rw [outcome_eq_write os dir child t exitCode exited lines,
    outcome_eq_write os dir child t exitCode exited (lines ++ [line])]
  simp only
  rw [FileTree.writeAt_end (FileTree.content_write_self _ _ _), FileTree.write_write, outputText,
    outputText, List.flatMap_append, List.flatMap_singleton]

theorem Written.writeLine {r : Runner} (h : r.Written os dir child t exitCode) (e : LineEvent) :
    (r.writeLine dir e).Written os dir child t exitCode where
  tree := by
    simp only [Runner.writeLine, List.map_append, List.map_cons, List.map_nil]
    rw [h.position, h.tree, writeAt_outcome]
  result := h.result
  position := by
    simp only [Runner.writeLine, h.position]
    simp [outputText]

theorem Written.deliver {r : Runner} (h : r.Written os dir child t exitCode) (error : Bool)
    (lines : List Str) : (r.deliver dir error lines).Written os dir child t exitCode := by
  induction lines generalizing r with
  | nil => exact h
  | cons line lines ih => exact ih (h.writeLine ⟨error, line⟩)

theorem deliver_eq (dir : FsPath) (error : Bool) (r : Runner) (lines : List Str) :
    ∃ t position, deliver dir error r lines =
      { r with tree := t, position := position, events := r.events ++ lines.map (LineEvent.mk error) } := by
  induction lines generalizing r with
  | nil => exact ⟨r.tree, r.position, by simp [deliver]⟩
  | cons line lines ih =>
    obtain ⟨t, position, hRest⟩ := ih (r.writeLine dir ⟨error, line⟩)
    refine ⟨t, position, ?_⟩
    rw [deliver, List.map_cons, List.foldl_cons, ← deliver, hRest, writeLine]
    simp

theorem Step.inv {r r' : Runner} (h : r.Inv os dir child t exitCode)
    (hStep : Step os dir child.status r r') : r'.Inv os dir child t exitCode := by
  cases hStep with
  | @out c hReading hRead =>
    have hWritten : Written os dir child t exitCode { r with out := r.out.onOutLineRead c } :=
      ⟨h.tree, h.result, h.position⟩
    refine ⟨hWritten.deliver false _, ?_, ?_⟩
    · obtain ⟨t', position, hEq⟩ := deliver_eq dir false { r with out := r.out.onOutLineRead c }
        ((r.out.onOutLineRead c).lines.drop r.out.lines.length)
      rw [onOut, hEq, textsOf_append, if_pos rfl, List.append_assoc,
        PipeReader.onOutLineRead_delivers hReading hRead]
      exact h.out
    · obtain ⟨t', position, hEq⟩ := deliver_eq dir false { r with out := r.out.onOutLineRead c }
        ((r.out.onOutLineRead c).lines.drop r.out.lines.length)
      rw [onOut, hEq, textsOf_append, if_neg (by simp), List.append_nil]
      exact h.err
  | @err c hReading hRead =>
    have hWritten : Written os dir child t exitCode { r with err := r.err.onErrLineRead c } :=
      ⟨h.tree, h.result, h.position⟩
    refine ⟨hWritten.deliver true _, ?_, ?_⟩
    · obtain ⟨t', position, hEq⟩ := deliver_eq dir true { r with err := r.err.onErrLineRead c }
        ((r.err.onErrLineRead c).lines.drop r.err.lines.length)
      rw [onErr, hEq, textsOf_append, if_neg (by simp), List.append_nil]
      exact h.out
    · obtain ⟨t', position, hEq⟩ := deliver_eq dir true { r with err := r.err.onErrLineRead c }
        ((r.err.onErrLineRead c).lines.drop r.err.lines.length)
      rw [onErr, hEq, textsOf_append, if_pos rfl, List.append_assoc,
        PipeReader.onErrLineRead_delivers hReading hRead]
      exact h.err
  | exit hRuns =>
    have hBefore := h.result
    have hTree := h.tree
    rw [hRuns] at hBefore hTree
    obtain ⟨hEc, hExitCode⟩ := Prod.mk.inj hBefore
    have hExit : CisCore.onExit os r.tree dir r.exitCode child.status =
        outcome os dir child t exitCode true (r.events.map LineEvent.text) := by
      rw [hTree, hExitCode]
      rfl
    refine ⟨⟨?_, ?_, h.position⟩, h.out, h.err⟩
    · simp only [onExit, hExit]
    · simp only [onExit, hExit]
      rw [outcome_eq_write]

theorem inv_start (hEmpty : t.content (dir / "output.txt") = some []) :
    (start t child exitCode).Inv os dir child t exitCode where
  tree := (FileTree.write_content hEmpty).symm
  result := rfl
  position := rfl
  out := PipeReader.outTodo_start child.out
  err := congrArg List.dropLast (PipeReader.outTodo_start child.err)

/-! ### The end of the event loop -/

def left (r : Runner) : Nat := r.out.left + r.err.left + if r.exited then 0 else 1

theorem done_iff_left {r : Runner} : r.Done ↔ r.left = 0 := by
  rw [Done, left, ← PipeReader.outTodo_eq_nil_iff, ← PipeReader.outTodo_eq_nil_iff,
    ← List.length_eq_zero_iff, ← List.length_eq_zero_iff, PipeReader.left, PipeReader.left]
  cases r.exited with
  | true => simp
  | false => simp

theorem Step.left {status : Option Int32} {r r' : Runner} (hStep : Step os dir status r r') :
    r'.left + 1 = r.left := by
  cases hStep with
  | @out c hReading hRead =>
    obtain ⟨t', position, hEq⟩ := deliver_eq dir false { r with out := r.out.onOutLineRead c }
      ((r.out.onOutLineRead c).lines.drop r.out.lines.length)
    have hLess := PipeReader.left_onOutLineRead hReading hRead
    rw [onOut, hEq, Runner.left, Runner.left]
    simp only
    omega
  | @err c hReading hRead =>
    obtain ⟨t', position, hEq⟩ := deliver_eq dir true { r with err := r.err.onErrLineRead c }
      ((r.err.onErrLineRead c).lines.drop r.err.lines.length)
    have hLess := PipeReader.left_onErrLineRead hReading hRead
    rw [onErr, hEq, Runner.left, Runner.left]
    simp only
    omega
  | exit hRuns =>
    rw [onExit, Runner.left, Runner.left, hRuns]
    simp

theorem exists_out {status : Option Int32} {r : Runner} {line : Str} {rest : List Str}
    (hTodo : r.out.outTodo = line :: rest) :
    ∃ r', Step os dir status r r' ∧ r'.events = r.events ++ [⟨false, line⟩] ∧
      r'.out.outTodo = rest ∧ r'.err = r.err ∧ r'.exited = r.exited := by
  have hReading : r.out.reading = true := by
    rw [← Bool.not_eq_false, ← PipeReader.outTodo_eq_nil_iff, hTodo]
    simp
  obtain ⟨c, hRead⟩ := exists_completes '\n' r.out.buffer r.out.pipe
  obtain ⟨line', hNext, hLines, _⟩ := PipeReader.completed hReading hRead
  obtain ⟨rfl, rfl⟩ := List.cons.inj (hTodo.symm.trans hNext)
  refine ⟨_, .out hReading hRead, ?_⟩
  obtain ⟨t', position, hEq⟩ := deliver_eq dir false { r with out := r.out.onOutLineRead c }
    ((r.out.onOutLineRead c).lines.drop r.out.lines.length)
  rw [onOut, hEq, hLines, List.drop_left]
  exact ⟨rfl, rfl, rfl, rfl⟩

theorem exists_err {status : Option Int32} {r : Runner} {line : Str} {rest : List Str}
    (hTodo : r.err.outTodo = line :: rest) :
    ∃ r', Step os dir status r r' ∧
      r'.events = r.events ++ (if rest = [] then [] else [⟨true, line⟩]) ∧
      r'.err.outTodo = rest ∧ r'.out = r.out ∧ r'.exited = r.exited := by
  have hReading : r.err.reading = true := by
    rw [← Bool.not_eq_false, ← PipeReader.outTodo_eq_nil_iff, hTodo]
    simp
  obtain ⟨c, hRead⟩ := exists_completes '\n' r.err.buffer r.err.pipe
  obtain ⟨line', hNext, _, hSame, hLines⟩ := PipeReader.completed hReading hRead
  obtain ⟨rfl, rfl⟩ := List.cons.inj (hTodo.symm.trans hNext)
  refine ⟨_, .err hReading hRead, ?_⟩
  obtain ⟨t', position, hEq⟩ := deliver_eq dir true { r with err := r.err.onErrLineRead c }
    ((r.err.onErrLineRead c).lines.drop r.err.lines.length)
  rw [onErr, hEq, hLines]
  refine ⟨?_, hSame, rfl, rfl⟩
  split_ifs
  · simp
  · simp

theorem exists_step {status : Option Int32} {r : Runner} (h : ¬r.Done) :
    ∃ r', Step os dir status r r' := by
  cases hOut : r.out.outTodo with
  | cons line rest =>
    obtain ⟨r', hStep, _⟩ := @exists_out os dir status r line rest hOut
    exact ⟨r', hStep⟩
  | nil =>
    cases hErr : r.err.outTodo with
    | cons line rest =>
      obtain ⟨r', hStep, _⟩ := @exists_err os dir status r line rest hErr
      exact ⟨r', hStep⟩
    | nil =>
      refine ⟨_, .exit ?_⟩
      by_contra hExited
      exact h ⟨PipeReader.outTodo_eq_nil_iff.mp hOut, PipeReader.outTodo_eq_nil_iff.mp hErr,
        Bool.not_eq_false _ ▸ hExited⟩

/-- With no line to come the loop ends without another one. -/
theorem exists_end {status : Option Int32} {r : Runner} (hOut : r.out.outTodo = [])
    (hErr : r.err.errTodo = []) :
    ∃ r', ReflTransGen (Step os dir status) r r' ∧ r'.Done ∧ r'.events = r.events := by
  have hExit : ∀ r : Runner, r.out.outTodo = [] → r.err.outTodo = [] →
      ∃ r', ReflTransGen (Step os dir status) r r' ∧ r'.Done ∧ r'.events = r.events := by
    intro r hOut hErr
    rw [PipeReader.outTodo_eq_nil_iff] at hOut hErr
    cases hExited : r.exited with
    | true => exact ⟨r, .refl, ⟨hOut, hErr, hExited⟩, rfl⟩
    | false => exact ⟨_, .single (.exit hExited), ⟨hOut, hErr, rfl⟩, rfl⟩
  cases hLast : r.err.outTodo with
  | nil => exact hExit r hOut hLast
  | cons line rest =>
    obtain rfl : rest = [] := by
      by_contra hRest
      rw [PipeReader.errTodo, hLast, List.dropLast_cons_of_ne_nil hRest] at hErr
      cases hErr
    obtain ⟨r₁, hStep, hEvents, hErr₁, hOut₁, _⟩ := @exists_err os dir status r line [] hLast
    obtain ⟨r', hRun, hDone, hSame⟩ := hExit r₁ (hOut₁ ▸ hOut) hErr₁
    exact ⟨r', .head hStep hRun, hDone, hSame.trans (hEvents.trans (List.append_nil _))⟩

theorem textsOf_cons (b : Bool) (e : LineEvent) (events : List LineEvent) :
    textsOf b (e :: events) = if e.error = b then e.text :: textsOf b events else textsOf b events := by
  by_cases h : e.error = b
  · simp [textsOf, h]
  · simp [textsOf, h]

/-- Any order of the lines that keeps that of either stream can come about. -/
theorem exists_schedule {status : Option Int32} (events : List LineEvent) {r : Runner}
    (hOut : textsOf false events = r.out.outTodo) (hErr : textsOf true events = r.err.errTodo) :
    ∃ r', ReflTransGen (Step os dir status) r r' ∧ r'.Done ∧ r'.events = r.events ++ events := by
  induction events generalizing r with
  | nil =>
    obtain ⟨r', hRun, hDone, hSame⟩ := @exists_end os dir status r hOut.symm hErr.symm
    exact ⟨r', hRun, hDone, hSame.trans (List.append_nil _).symm⟩
  | cons e events ih =>
    obtain ⟨_ | _, text⟩ := e
    · rw [textsOf_cons, if_pos rfl] at hOut
      rw [textsOf_cons, if_neg (by simp)] at hErr
      obtain ⟨r₁, hStep, hEvents, hOut₁, hErr₁, _⟩ := @exists_out os dir status r _ _ hOut.symm
      obtain ⟨r', hRun, hDone, hSame⟩ := @ih r₁ hOut₁.symm (hErr₁ ▸ hErr)
      refine ⟨r', .head hStep hRun, hDone, hSame.trans ?_⟩
      rw [hEvents, List.append_assoc, List.singleton_append]
    · rw [textsOf_cons, if_neg (by simp)] at hOut
      rw [textsOf_cons, if_pos rfl] at hErr
      cases hTodo : r.err.outTodo with
      | nil =>
        rw [PipeReader.errTodo, hTodo] at hErr
        cases hErr
      | cons line rest =>
        rw [PipeReader.errTodo, hTodo] at hErr
        have hRest : rest ≠ [] := by
          rintro rfl
          cases hErr
        rw [List.dropLast_cons_of_ne_nil hRest] at hErr
        obtain ⟨rfl, hLater⟩ := List.cons.inj hErr
        obtain ⟨r₁, hStep, hEvents, hErr₁, hOut₁, _⟩ := @exists_err os dir status r _ _ hTodo
        rw [if_neg hRest] at hEvents
        obtain ⟨r', hRun, hDone, hSame⟩ := @ih r₁ (hOut₁ ▸ hOut) (by
          rw [PipeReader.errTodo, hErr₁]
          exact hLater)
        refine ⟨r', .head hStep hRun, hDone, hSame.trans ?_⟩
        rw [hEvents, List.append_assoc, List.singleton_append]

theorem inv_of_reachable (hEmpty : t.content (dir / "output.txt") = some []) {r : Runner}
    (h : ReflTransGen (Step os dir child.status) (start t child exitCode) r) :
    r.Inv os dir child t exitCode := by
  induction h with
  | refl => exact inv_start hEmpty
  | tail _ hStep ih => exact hStep.inv ih

end Runner

theorem Runner.left_start (t : FileTree) (child : ChildRun) (exitCode : Int32) :
    (Runner.start t child exitCode).left =
      child.out.flatten.count '\n' + child.err.flatten.count '\n' + 3 := by
  have hOut := PipeReader.outTodo_start child.out
  have hErr := PipeReader.outTodo_start child.err
  simp only [Runner.left, Runner.start, PipeReader.left, hOut, hErr, length_splitOn,
    Bool.false_eq_true, if_false]
  omega

/-- The event loop returns after one handler for each newline, one more for either
pipe and the one for the exit, in whatever order they run; before that it never
waits for something that does not come. -/
theorem event_loop_ends {os : Os} {dir : FsPath} {child : ChildRun} {t : FileTree} {exitCode : Int32}
    {runs : Nat → Runner} {n : Nat} (hStart : runs 0 = .start t child exitCode)
    (hSteps : ∀ i < n, Runner.Step os dir child.status (runs i) (runs (i + 1))) :
    n ≤ child.out.flatten.count '\n' + child.err.flatten.count '\n' + 3 ∧
    ((runs n).Done ↔ n = child.out.flatten.count '\n' + child.err.flatten.count '\n' + 3) ∧
    (¬(runs n).Done → ∃ r, Runner.Step os dir child.status (runs n) r) := by
  have hLeft : (runs n).left + n =
      child.out.flatten.count '\n' + child.err.flatten.count '\n' + 3 := by
    rw [← Runner.left_start t child exitCode, ← hStart]
    induction n with
    | zero => rfl
    | succ n ih =>
      have hOne := (hSteps n (Nat.lt_succ_self n)).left
      have hBefore := ih fun i hi => hSteps i (Nat.lt_succ_of_lt hi)
      omega
  refine ⟨by omega, ?_, Runner.exists_step⟩
  rw [Runner.done_iff_left]
  omega

def demoChild : ChildRun := ⟨["a\n"], [], some 0⟩

/-- The exit is handled before any line. -/
def demoRunner : Nat → Runner
  | 0 => .start ∅ demoChild (-1)
  | _ + 1 => (Runner.start ∅ demoChild (-1)).onExit (.ideal ∅) [] (some 0)

theorem event_loop_ends_one :
    ¬(demoRunner 1).Done ∧ ∃ r, Runner.Step (.ideal ∅) [] (some 0) (demoRunner 1) r := by
  have hSteps : ∀ i < 1, Runner.Step (.ideal ∅) [] demoChild.status (demoRunner i)
      (demoRunner (i + 1)) := by
    intro i hi
    obtain rfl : i = 0 := by omega
    exact .exit rfl
  obtain ⟨_, hDone, hStep⟩ := event_loop_ends rfl hSteps
  have hNot : ¬(demoRunner 1).Done := mt hDone.mp (by decide)
  exact ⟨hNot, hStep hNot⟩

/-- What the handlers of the two pipes may deliver: the lines of either stream in
their order, those of the standard error without the last one. -/
def ChildRun.Delivers (child : ChildRun) (events : List LineEvent) : Prop :=
  textsOf false events = child.out.flatten.splitOn '\n' ∧
    textsOf true events = (child.err.flatten.splitOn '\n').dropLast

theorem ChildRun.exists_delivers (child : ChildRun) : ∃ events, child.Delivers events := by
  refine ⟨(child.out.flatten.splitOn '\n').map (LineEvent.mk false) ++
    ((child.err.flatten.splitOn '\n').dropLast).map (LineEvent.mk true), ?_, ?_⟩
  · rw [textsOf_append]
    simp [textsOf, List.filter_map, Function.comp_def]
  · rw [textsOf_append]
    simp [textsOf, List.filter_map, Function.comp_def]

theorem Runner.Inv.delivers {os : Os} {dir : FsPath} {child : ChildRun} {t : FileTree}
    {exitCode : Int32} {r : Runner} (h : r.Inv os dir child t exitCode) (hDone : r.Done) :
    child.Delivers r.events := by
  have hOut := h.out
  have hErr := h.err
  rw [PipeReader.errTodo] at hErr
  rw [PipeReader.outTodo_eq_nil_iff.mpr hDone.1, List.append_nil] at hOut
  rw [PipeReader.outTodo_eq_nil_iff.mpr hDone.2.1, List.dropLast_nil, List.append_nil] at hErr
  exact ⟨hOut, hErr⟩

section Execute

variable {os : Os} {job : Job} {t t₁ t₂ : FileTree} {env : SortedMap Str Str} {number : Nat}
  {force : Bool} {exitCode : Int32} {dir : FsPath}
  (hDir : (job.builds.pending.find number).getD [] = dir)
  (hEnsure : ensureExecutable os t (dir / job.config.script) force = (t₁, none))
  (hOpen : os.openOfstream t₁ (dir / "output.txt") = some t₂)
include hDir hEnsure hOpen

theorem execute_launched (script : Launch → ScriptRun) :
    job.execute os t env number force script exitCode =
      ⟨(onExit os (exitTree dir t₂ (script ⟨env, dir, t₂⟩).output) dir exitCode
          (script ⟨env, dir, t₂⟩).status).1,
        job.settle number (onExit os (exitTree dir t₂ (script ⟨env, dir, t₂⟩).output) dir exitCode
          (script ⟨env, dir, t₂⟩).status).2.2,
        (onExit os (exitTree dir t₂ (script ⟨env, dir, t₂⟩).output) dir exitCode
          (script ⟨env, dir, t₂⟩).status).2.1,
        (onExit os (exitTree dir t₂ (script ⟨env, dir, t₂⟩).output) dir exitCode
          (script ⟨env, dir, t₂⟩).status).2.2, some ⟨env, dir, t₂⟩⟩ := by
  have hEmpty : t₂.content (dir / "output.txt") = some [] := by
    rw [Os.openOfstream_eq_some hOpen]
    exact FileTree.content_write_self _ _ _
  have hOverwrite : ∀ lines, t₂.overwrite (dir / "output.txt") (outputText lines) =
      exitTree dir t₂ lines := by
    intro lines
    rw [FileTree.overwrite, hEmpty, exitTree]
    simp
  simp only [Job.execute, hDir, hEnsure, hOpen, hOverwrite]

theorem execute_of_done {child : ChildRun} {script : Launch → ScriptRun} {r : Runner}
    (hInv : r.Inv os dir child t₂ exitCode) (hDone : r.Done)
    (hScript : script ⟨env, dir, t₂⟩ = ⟨r.events.map LineEvent.text, child.status⟩) :
    job.execute os t env number force script exitCode =
      ⟨r.tree, job.settle number r.exitCode, r.ec, r.exitCode, some ⟨env, dir, t₂⟩⟩ := by
  have hTree := hInv.tree
  have hResult := hInv.result
  rw [hDone.2.2] at hTree hResult
  have hSame := congrArg Prod.snd (Runner.outcome_eq_write os dir child t₂ exitCode true
    (r.events.map LineEvent.text))
  obtain ⟨hEc, hExitCode⟩ := Prod.mk.inj (hResult.trans hSame.symm)
  rw [execute_launched hDir hEnsure hOpen, hScript, hTree, hEc, hExitCode]
  rfl

end Execute

/-- The event loop has exactly the outcomes of a script that prints the lines of its
two streams in one of their possible orders and then exits. -/
theorem executesTo_iff (os : Os) (job : Job) (t : FileTree) (env : SortedMap Str Str) (number : Nat)
    (force : Bool) (child : Launch → ChildRun) (exitCode : Int32) (e : Execution) :
    job.ExecutesTo os t env number force child exitCode e ↔
      ∃ events : Launch → List LineEvent, (∀ launch, (child launch).Delivers (events launch)) ∧
        e = job.execute os t env number force
          (fun launch => ⟨(events launch).map LineEvent.text, (child launch).status⟩) exitCode := by
  classical
  choose anyEvents hAny using fun launch => (child launch).exists_delivers
  obtain ⟨dir, hDir⟩ : ∃ dir, (job.builds.pending.find number).getD [] = dir := ⟨_, rfl⟩
  rcases hEnsure : ensureExecutable os t (dir / job.config.script) force with ⟨t₁, _ | error⟩
  swap
  · simp only [Job.ExecutesTo, Job.execute, hDir, hEnsure]
    constructor
    · exact fun h => ⟨anyEvents, hAny, h⟩
    · rintro ⟨_, _, h⟩
      exact h
  rcases hOpen : os.openOfstream t₁ (dir / "output.txt") with _ | t₂
  · simp only [Job.ExecutesTo, Job.execute, hDir, hEnsure, hOpen]
    constructor
    · exact fun h => ⟨anyEvents, hAny, h⟩
    · rintro ⟨_, _, h⟩
      exact h
  have hEmpty : t₂.content (dir / "output.txt") = some [] := by
    rw [Os.openOfstream_eq_some hOpen]
    exact FileTree.content_write_self _ _ _
  simp only [Job.ExecutesTo, hDir, hEnsure, hOpen]
  constructor
  · rintro ⟨r, hRun, hDone, rfl⟩
    have hInv := Runner.inv_of_reachable hEmpty hRun
    refine ⟨Function.update anyEvents ⟨env, dir, t₂⟩ r.events, fun launch => ?_, ?_⟩
    · obtain rfl | hne := eq_or_ne launch ⟨env, dir, t₂⟩
      · rw [Function.update_self]
        exact hInv.delivers hDone
      · rw [Function.update_of_ne hne]
        exact hAny launch
    · exact (execute_of_done hDir hEnsure hOpen hInv hDone (by rw [Function.update_self])).symm
  · rintro ⟨events, hDelivers, rfl⟩
    obtain ⟨hOut, hErr⟩ := hDelivers ⟨env, dir, t₂⟩
    obtain ⟨r, hRun, hDone, hEvents⟩ := @Runner.exists_schedule os dir
      (child ⟨env, dir, t₂⟩).status (events ⟨env, dir, t₂⟩) (.start t₂ (child ⟨env, dir, t₂⟩) exitCode)
      (hOut.trans (PipeReader.outTodo_start _).symm)
      (hErr.trans (congrArg List.dropLast (PipeReader.outTodo_start _)).symm)
    refine ⟨r, hRun, hDone, ?_⟩
    exact execute_of_done hDir hEnsure hOpen (Runner.inv_of_reachable hEmpty hRun) hDone (by
      rw [hEvents]
      rfl)

end CisCore
