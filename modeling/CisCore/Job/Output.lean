import CisCore.Job.Execute

/-! # The output of a script

The runner delivers the lines of both output streams to `execute`, in the order
in which they arrive. Each line is written to `output.txt`. The callback that the
caller gives for new lines is captured by the handlers but never called.
-/

namespace CisCore

structure LineEvent where
  /-- The line comes from the standard error. -/
  error : Bool
  text : Str

/-- The calls of a callback for new lines, one for each line. -/
def LineEvent.call (e : LineEvent) : Bool × Str := (e.error, e.text)

/-- What has been written to `output.txt` and with which arguments `newline_cb`
has been called. -/
structure OutputSinks where
  output : Str
  newlineCalls : List (Bool × Str)

def OutputSinks.writeLine (s : OutputSinks) (str : Str) : OutputSinks :=
  { s with output := s.output ++ str ++ ['\n'] }

/-- The handler for lines of the standard output that `execute` gives to the runner. -/
def OutputSinks.onOutLine (s : OutputSinks) (str : Str) : OutputSinks := s.writeLine str

/-- The handler for lines of the standard error. -/
def OutputSinks.onErrLine (s : OutputSinks) (str : Str) : OutputSinks := s.writeLine str

def OutputSinks.deliver (s : OutputSinks) (e : LineEvent) : OutputSinks :=
  if e.error then s.onErrLine e.text else s.onOutLine e.text

/-- A run of the script with the lines of both streams in the order of their delivery. -/
structure LineRun where
  events : List LineEvent
  status : Option Int32

def LineRun.sinks (r : LineRun) : OutputSinks := r.events.foldl OutputSinks.deliver ⟨[], []⟩

def LineRun.scriptRun (r : LineRun) : ScriptRun := ⟨r.events.map LineEvent.text, r.status⟩

/-- `execute` and the calls of `newline_cb` while it runs. -/
def Job.executeLines (os : Os) (job : Job) (t : FileTree) (env : SortedMap Str Str) (number : Nat)
    (force : Bool) (script : Launch → LineRun) (exitCode : Int32) :
    Execution × List (Bool × Str) :=
  let run := job.execute os t env number force (fun launch => (script launch).scriptRun) exitCode
  match run.launch with
  | none => (run, [])
  | some launch => (run, (script launch).sinks.newlineCalls)

/-! ### What the handlers do -/

theorem deliver_eq (s : OutputSinks) (e : LineEvent) : s.deliver e = s.writeLine e.text := by
  rw [OutputSinks.deliver]
  split <;> rfl

theorem foldl_deliver (events : List LineEvent) (s : OutputSinks) :
    events.foldl OutputSinks.deliver s =
      ⟨s.output ++ outputText (events.map LineEvent.text), s.newlineCalls⟩ := by
  induction events generalizing s with
  | nil => simp [outputText]
  | cons e events ih =>
    rw [List.foldl_cons, ih, deliver_eq]
    simp [OutputSinks.writeLine, outputText]

/-- The lines that the handlers write are those that `execute` leaves in the file. -/
theorem LineRun.sinks_output (r : LineRun) : r.sinks.output = outputText r.scriptRun.output := by
  rw [sinks, foldl_deliver]
  rfl

theorem LineRun.sinks_newlineCalls (r : LineRun) : r.sinks.newlineCalls = [] := by
  rw [sinks, foldl_deliver]

theorem execute_output {os : Os} {job : Job} {number : Nat} {dir : FsPath}
    (hDir : job.builds.pending.find number = some dir) {t : FileTree} {env : SortedMap Str Str}
    {force : Bool} {script : Launch → ScriptRun} {exitCode : Int32} {launch : Launch}
    (h : (job.execute os t env number force script exitCode).launch = some launch) :
    (job.execute os t env number force script exitCode).tree.content (dir / "output.txt") =
      some (outputText (script launch).output) := by
  obtain ⟨t₁, _, _, ⟨e, hExecute⟩ | ⟨r, rfl, hExecute⟩⟩ :=
    execute_cases os hDir t env force script exitCode
  · rw [hExecute] at h
    cases h
  · rw [hExecute] at h ⊢
    cases h
    have hWritten : (exitTree dir t₁ (script (launchOf env dir t₁)).output).content
        (dir / "output.txt") = some (outputText (script (launchOf env dir t₁)).output) :=
      FileTree.content_write_self _ _ _
    obtain ⟨e, hTree, _⟩ | ⟨e, _, hExit⟩ := onExit_cases os
      (exitTree dir t₁ (script (launchOf env dir t₁)).output) dir exitCode
      (script (launchOf env dir t₁)).status
    · rw [hTree]
      exact hWritten
    · rw [hExit]
      exact (FileTree.content_write_of_ne _ (by simp)).trans hWritten

/-- `output.txt` gets every line, but the callback only hears of all of them when
there are none. -/
theorem lines_reported_iff {os : Os} {job : Job} {number : Nat} {dir : FsPath}
    (hDir : job.builds.pending.find number = some dir) {t : FileTree} {env : SortedMap Str Str}
    {force : Bool} {script : Launch → LineRun} {exitCode : Int32} {launch : Launch}
    (hLaunch : (job.executeLines os t env number force script exitCode).1.launch = some launch) :
    ((job.executeLines os t env number force script exitCode).1.tree.content (dir / "output.txt") =
        some ((script launch).events.flatMap fun e => e.text ++ ['\n']) ∧
      (job.executeLines os t env number force script exitCode).2 =
        (script launch).events.map LineEvent.call) ↔ (script launch).events = [] := by
  have hRun : (job.executeLines os t env number force script exitCode).1 =
      job.execute os t env number force (fun launch => (script launch).scriptRun) exitCode := by
    rw [Job.executeLines]
    split <;> rfl
  rw [hRun] at hLaunch ⊢
  have hCalls : (job.executeLines os t env number force script exitCode).2 = [] := by
    simp only [Job.executeLines, hLaunch]
    exact (script launch).sinks_newlineCalls
  have hOutput := execute_output hDir hLaunch
  rw [LineRun.scriptRun, outputText, List.flatMap_map] at hOutput
  rw [hOutput, hCalls]
  constructor
  · rintro ⟨_, hAll⟩
    exact List.map_eq_nil_iff.mp hAll.symm
  · intro hNone
    rw [hNone]
    exact ⟨rfl, rfl⟩

/-- A job `j` whose build 0 is pending and whose script is executable. -/
def pendingJob : Job :=
  ⟨"j", ⟨"s", 1, 1, []⟩, ⟨∅, ∅, .ofList [(0, jobPath demoContext "j" / "000000")]⟩⟩

def pendingTree : FileTree :=
  demoTree "1" [(jobPath demoContext "j" / "000000", .directory),
    (jobPath demoContext "j" / "000000" / "s", .file [] true)]

theorem lines_reported_iff_silent :
    (pendingJob.executeLines (.ideal ∅) pendingTree ∅ 0 false (fun _ => ⟨[], some 0⟩) (-1)).1.launch =
        some ⟨∅, jobPath demoContext "j" / "000000",
          pendingTree.write (jobPath demoContext "j" / "000000" / "output.txt") []⟩ ∧
    (((pendingJob.executeLines (.ideal ∅) pendingTree ∅ 0 false (fun _ => ⟨[], some 0⟩)
          (-1)).1.tree.content (jobPath demoContext "j" / "000000" / "output.txt") =
        some (([] : List LineEvent).flatMap fun e => e.text ++ ['\n']) ∧
      (pendingJob.executeLines (.ideal ∅) pendingTree ∅ 0 false (fun _ => ⟨[], some 0⟩) (-1)).2 =
        ([] : List LineEvent).map LineEvent.call) ↔ ([] : List LineEvent) = []) :=
  have hDir : pendingJob.builds.pending.find 0 = some (jobPath demoContext "j" / "000000") := rfl
  have hLaunch : (pendingJob.executeLines (.ideal ∅) pendingTree ∅ 0 false (fun _ => ⟨[], some 0⟩)
      (-1)).1.launch = some _ := rfl
  ⟨rfl, lines_reported_iff hDir hLaunch⟩

/-- One line on the standard output, and no call. -/
theorem newline_cb_not_called :
    ¬((pendingJob.executeLines (.ideal ∅) pendingTree ∅ 0 false
        (fun _ => ⟨[⟨false, "hello"⟩], some 0⟩) (-1)).2 =
      [(⟨false, "hello"⟩ : LineEvent)].map LineEvent.call) := by
  decide

end CisCore
