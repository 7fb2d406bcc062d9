import CisCore.Job.Prepare

/-! # Executing a build

The script runs in the build's directory. Its lines go to `output.txt`; when it
has exited, its status is recorded in `exitcode.txt` and the build leaves the
pending ones.
-/

namespace CisCore

/-- What a script finds when it starts. -/
structure Launch where
  env : SortedMap Str Str
  workingDir : FsPath
  tree : FileTree

/-- The lines that a script prints, and its exit status unless the process
library reports an error. -/
structure ScriptRun where
  output : List Str
  status : Option Int32

structure Execution where
  tree : FileTree
  job : Job
  ec : Ec
  exitCode : Int32
  launch : Option Launch

section Model

variable (os : Os)

/-- The check for permission to execute; with an error the script is not run. -/
def ensureExecutable (t : FileTree) (script : FsPath) (force : Bool) : FileTree × Ec :=
  match os.isExecutable t script with
  | (true, _) => (t, none)
  | (false, some e) => (t, some e)
  | (false, none) => if force then os.makeExecutable t script else (t, fail .scriptIsNotExecutable)

def recordExitcode (t : FileTree) (dir : FsPath) (status : Int32) : FileTree × Ec :=
  match os.writeFile t (dir / "exitcode.txt") (exitcodeText status) with
  | none => (t, fail .cantOpenBuildExitCodeFile)
  | some t => (t, none)

/-- The exit handler of the runner. -/
def onExit (t : FileTree) (dir : FsPath) (exitCode : Int32) : Option Int32 → FileTree × Ec × Int32
  | none => (t, fail .cantExecuteScript, exitCode)
  | some status => ((recordExitcode os t dir status).1, (recordExitcode os t dir status).2, status)

def Job.settle (job : Job) (number : Nat) (exitCode : Int32) : Job :=
  match job.builds.pending.find number with
  | none => job
  | some dir =>
    let pending := job.builds.pending.erase number
    if exitCode = 0 then
      { job with builds := ⟨job.builds.successful.emplace number dir, job.builds.broken, pending⟩ }
    else
      { job with builds := ⟨job.builds.successful, job.builds.broken.emplace number dir, pending⟩ }

def outputText (lines : List Str) : Str := lines.flatMap fun line => line ++ ['\n']

def Job.execute (job : Job) (t : FileTree) (env : SortedMap Str Str) (number : Nat) (force : Bool)
    (script : Launch → ScriptRun) (exitCode : Int32) : Execution :=
  let dir := (job.builds.pending.find number).getD []
  match ensureExecutable os t (dir / job.config.script) force with
  | (t, some e) => ⟨t, job, some e, exitCode, none⟩
  | (t, none) =>
    match os.openOfstream t (dir / "output.txt") with
    | none => ⟨t, job, fail .cantOpenBuildOutputFile, exitCode, none⟩
    | some t =>
      let launch : Launch := ⟨env, dir, t⟩
      let t := t.overwrite (dir / "output.txt") (outputText (script launch).output)
      match onExit os t dir exitCode (script launch).status with
      | (t, ec, exitCode) => ⟨t, job.settle number exitCode, ec, exitCode, some launch⟩

end Model

variable {os : Os}

theorem ensureExecutable_sameOutside {t : FileTree} {S : FsPath → Prop} {script : FsPath} {force : Bool}
    {r : FileTree × Ec} (h : S script) (hEnsure : ensureExecutable os t script force = r) :
    FileTree.SameOutside S t r.1 := by
  rw [← hEnsure]
  unfold ensureExecutable
  split
  · exact FileTree.SameOutside.refl S t
  · exact FileTree.SameOutside.refl S t
  · cases force with
    | false => exact FileTree.SameOutside.refl S t
    | true => exact Os.makeExecutable_sameOutside h rfl

theorem ensureExecutable_content (os : Os) (t : FileTree) (script q : FsPath) (force : Bool) :
    (ensureExecutable os t script force).1.content q = t.content q := by
  unfold ensureExecutable
  split
  · rfl
  · rfl
  · cases force with
    | false => rfl
    | true => exact Os.makeExecutable_content os t script q

theorem ensureExecutable_pathExists (os : Os) (t : FileTree) (script q : FsPath) (force : Bool) :
    (ensureExecutable os t script force).1.pathExists q = t.pathExists q := by
  unfold ensureExecutable
  split
  · rfl
  · rfl
  · cases force with
    | false => rfl
    | true => exact Os.makeExecutable_pathExists os t script q

theorem onExit_cases (os : Os) (t : FileTree) (dir : FsPath) (exitCode : Int32) (status : Option Int32) :
    (∃ e, (onExit os t dir exitCode status).1 = t ∧
      (onExit os t dir exitCode status).2.1 = some e) ∨
    ∃ e, status = some e ∧ onExit os t dir exitCode status =
      (t.write (dir / "exitcode.txt") (exitcodeText e), none, e) := by
  cases status with
  | none => exact Or.inl ⟨_, rfl, rfl⟩
  | some e =>
    simp only [onExit, recordExitcode]
    cases hWrite : os.writeFile t (dir / "exitcode.txt") (exitcodeText e) with
    | none => exact Or.inl ⟨_, rfl, rfl⟩
    | some t' => exact Or.inr ⟨e, rfl, by rw [Os.writeFile_eq_some hWrite]⟩

theorem onExit_clear_iff {os : Os} {t : FileTree} {dir : FsPath} {exitCode : Int32}
    {status : Option Int32} : (onExit os t dir exitCode status).2.1 = none ↔
      status ≠ none ∧ (os.openOfstream t (dir / "exitcode.txt")).isSome := by
  cases status with
  | none => simp [onExit, fail]
  | some e =>
    rw [onExit, recordExitcode, Os.writeFile]
    cases hOpen : os.openOfstream t (dir / "exitcode.txt") with
    | none => simp [fail]
    | some t' => simp

theorem onExit_sameOutside (os : Os) (t : FileTree) (dir : FsPath) (exitCode : Int32)
    (status : Option Int32) :
    FileTree.SameOutside (FileTree.Inside dir) t (onExit os t dir exitCode status).1 := by
  obtain ⟨e, hTree, _⟩ | ⟨e, _, hExit⟩ := onExit_cases os t dir exitCode status
  · rw [hTree]
    exact FileTree.SameOutside.refl _ t
  · rw [hExit]
    exact FileTree.SameOutside.write (FileTree.inside_child dir _) t _

def launchOf (env : SortedMap Str Str) (dir : FsPath) (t : FileTree) : Launch :=
  ⟨env, dir, t.write (dir / "output.txt") []⟩

def exitTree (dir : FsPath) (t : FileTree) (lines : List Str) : FileTree :=
  t.write (dir / "output.txt") (outputText lines)

theorem execute_cases (os : Os) {job : Job} {number : Nat} {dir : FsPath}
    (hDir : job.builds.pending.find number = some dir) (t : FileTree) (env : SortedMap Str Str)
    (force : Bool) (script : Launch → ScriptRun) (exitCode : Int32) :
    ∃ t₁, FileTree.SameOutside (FileTree.Inside dir) t t₁ ∧ (∀ q, t₁.content q = t.content q) ∧
      ((∃ e, job.execute os t env number force script exitCode =
          ⟨t₁, job, some e, exitCode, none⟩) ∨
        ∃ r : FileTree × Ec × Int32, r = onExit os (exitTree dir t₁ (script (launchOf env dir t₁)).output)
            dir exitCode (script (launchOf env dir t₁)).status ∧
          job.execute os t env number force script exitCode =
            ⟨r.1, job.settle number r.2.2, r.2.1, r.2.2, some (launchOf env dir t₁)⟩) := by
  have hEnsureFrame : FileTree.SameOutside (FileTree.Inside dir) t
      (ensureExecutable os t (dir / job.config.script) force).1 :=
    ensureExecutable_sameOutside (FileTree.inside_child dir _) rfl
  have hEnsureContent := ensureExecutable_content os t (dir / job.config.script)
  refine ⟨(ensureExecutable os t (dir / job.config.script) force).1, hEnsureFrame,
    fun q => hEnsureContent q force, ?_⟩
  simp only [Job.execute, hDir, Option.getD_some]
  split
  · rename_i t₁ e hEnsure
    rw [hEnsure]
    exact Or.inl ⟨e, rfl⟩
  rename_i t₁ hEnsure
  rw [hEnsure]
  split
  · exact Or.inl ⟨_, rfl⟩
  rename_i t₂ hOpen
  obtain rfl := Os.openOfstream_eq_some hOpen
  refine Or.inr ⟨_, rfl, ?_⟩
  rw [FileTree.overwrite_write_nil]
  rfl

theorem execute_sameOutside (os : Os) {job : Job} {number : Nat} {dir : FsPath}
    (hDir : job.builds.pending.find number = some dir) (t : FileTree) (env : SortedMap Str Str)
    (force : Bool) (script : Launch → ScriptRun) (exitCode : Int32) :
    FileTree.SameOutside (FileTree.Inside dir) t
      (job.execute os t env number force script exitCode).tree := by
  obtain ⟨t₁, hFrame, _, ⟨e, hExecute⟩ | ⟨r, rfl, hExecute⟩⟩ :=
    execute_cases os hDir t env force script exitCode
  · rw [hExecute]
    exact hFrame
  · rw [hExecute]
    exact (hFrame.trans (FileTree.SameOutside.write (FileTree.inside_child dir _) t₁ _)).trans
      (onExit_sameOutside os _ dir exitCode _)

theorem onExit_grows (os : Os) (t : FileTree) (dir : FsPath) (exitCode : Int32)
    (status : Option Int32) : FileTree.Grows t (onExit os t dir exitCode status).1 := by
  obtain ⟨e, hTree, _⟩ | ⟨e, _, hExit⟩ := onExit_cases os t dir exitCode status
  · rw [hTree]
    exact FileTree.Grows.refl t
  · rw [hExit]
    exact FileTree.Grows.write t _ _

theorem ensureExecutable_grows (os : Os) (t : FileTree) (script : FsPath) (force : Bool) :
    FileTree.Grows t (ensureExecutable os t script force).1 := by
  rw [ensureExecutable]
  split
  · exact FileTree.Grows.refl t
  · exact FileTree.Grows.refl t
  · cases force with
    | false => exact FileTree.Grows.refl t
    | true => exact Os.makeExecutable_grows os t script

theorem execute_grows (os : Os) (job : Job) (t : FileTree) (env : SortedMap Str Str) (number : Nat)
    (force : Bool) (script : Launch → ScriptRun) (exitCode : Int32) :
    FileTree.Grows t (job.execute os t env number force script exitCode).tree := by
  have hEnsure := ensureExecutable_grows os t
    ((job.builds.pending.find number).getD [] / job.config.script) force
  simp only [Job.execute]
  split
  · rename_i t₁ e hScript
    rw [hScript] at hEnsure
    exact hEnsure
  rename_i t₁ hScript
  rw [hScript] at hEnsure
  split
  · exact hEnsure
  rename_i t₂ hOpen
  obtain rfl := Os.openOfstream_eq_some hOpen
  rw [FileTree.overwrite_write_nil]
  exact (hEnsure.trans (FileTree.Grows.write t₁ _ _)).trans (onExit_grows os _ _ _ _)

/-- Without an error the status of the script is recorded, and texts other than
those of the output and of the exit code stay. -/
theorem execute_clear {job : Job} {number : Nat} {dir : FsPath}
    (hDir : job.builds.pending.find number = some dir) {t : FileTree} {env : SortedMap Str Str}
    {force : Bool} {script : Launch → ScriptRun} {exitCode : Int32}
    (hClear : (job.execute os t env number force script exitCode).ec = none) :
    ∃ launch e, (job.execute os t env number force script exitCode).launch = some launch ∧
      (script launch).status = some e ∧
      (job.execute os t env number force script exitCode).exitCode = e ∧
      (job.execute os t env number force script exitCode).tree.content (dir / "exitcode.txt") =
        some (exitcodeText e) ∧
      ∀ q, q ≠ dir / "exitcode.txt" → q ≠ dir / "output.txt" →
        (job.execute os t env number force script exitCode).tree.content q = t.content q := by
  obtain ⟨t₁, hFrame, hContent, ⟨e, hExecute⟩ | ⟨r, rfl, hExecute⟩⟩ :=
    execute_cases os hDir t env force script exitCode
  · rw [hExecute] at hClear
    cases hClear
  · rw [hExecute] at hClear ⊢
    rcases onExit_cases os (exitTree dir t₁ (script (launchOf env dir t₁)).output) dir
      exitCode (script (launchOf env dir t₁)).status with ⟨e, _, hError⟩ | ⟨e, hStatus, hExit⟩
    · rw [hError] at hClear
      cases hClear
    · rw [hExit]
      refine ⟨launchOf env dir t₁, e, rfl, hStatus, rfl, FileTree.content_write_self _ _ _, ?_⟩
      intro q hExitcode hOutput
      rw [FileTree.content_write_of_ne _ hExitcode, exitTree,
        FileTree.content_write_of_ne _ hOutput, hContent]

theorem execute_launch (os : Os) {job : Job} {number : Nat} {dir : FsPath}
    (hDir : job.builds.pending.find number = some dir) {t : FileTree} {env : SortedMap Str Str}
    {force : Bool} {script : Launch → ScriptRun} {exitCode : Int32} {launch : Launch}
    (h : (job.execute os t env number force script exitCode).launch = some launch) :
    launch.env = env ∧ launch.workingDir = dir ∧
      FileTree.SameOutside (FileTree.Inside dir) t launch.tree ∧
      ∀ q, q ≠ dir / "output.txt" → launch.tree.content q = t.content q := by
  obtain ⟨t₁, hFrame, hContent, ⟨e, hExecute⟩ | ⟨r, rfl, hExecute⟩⟩ :=
    execute_cases os hDir t env force script exitCode
  · rw [hExecute] at h
    cases h
  · rw [hExecute] at h
    cases h
    refine ⟨rfl, rfl, hFrame.trans (FileTree.SameOutside.write (FileTree.inside_child dir _) t₁ []), ?_⟩
    intro q hq
    exact (FileTree.content_write_of_ne [] hq).trans (hContent q)

theorem execute_not_launched (os : Os) {job : Job} {number : Nat} {dir : FsPath}
    (hDir : job.builds.pending.find number = some dir) {t : FileTree} {env : SortedMap Str Str}
    {force : Bool} {script : Launch → ScriptRun} {exitCode : Int32}
    (h : (job.execute os t env number force script exitCode).launch = none) :
    (job.execute os t env number force script exitCode).ec ≠ none := by
  intro hClear
  obtain ⟨launch, _, hLaunch, _⟩ := execute_clear hDir hClear
  rw [h] at hLaunch
  cases hLaunch

end CisCore
