import CisCore.Job.Interrupted
import CisCore.Job.Output
import CisCore.Job.Prepared
import CisCore.Numbers

/-! # The end of a build, in memory and on disk

`execute` sorts a build by the exit status that its handler was told, a later
`load_job` by the text of `exitcode.txt`. Errors that are raised in the handler do
not keep `execute` from sorting the build.
-/

namespace CisCore

/-- The job objects that a process can hold: one that it has loaded, after any of
its operations, each on the tree as it is by then. -/
inductive JobObject (P : ProtoUtils) (ctx : Context) (jobName : Str) : Job → Prop where
  | loaded {os : Os} {t : FileTree} {job : Job} (h : loadJob P os t ctx jobName = .ok job) :
      JobObject P ctx jobName job
  | prepared {job : Job} (h : JobObject P ctx jobName job) (os : Os) (t : FileTree)
      (session : Session) (params : List (Str × Str)) :
      JobObject P ctx jobName (job.prepareBuild P os t ctx session params).2.1
  | executed {job : Job} (h : JobObject P ctx jobName job) (os : Os) (t : FileTree)
      (env : SortedMap Str Str) {number : Nat} (force : Bool) (script : Launch → ScriptRun)
      (exitCode : Int32) (hPending : (job.builds.pending.find number).isSome) :
      JobObject P ctx jobName (job.execute os t env number force script exitCode).job
  | cleaned {job : Job} (h : JobObject P ctx jobName job) (os : Os) (t : FileTree) :
      JobObject P ctx jobName (job.cleanup os t).2.1

section Model

variable (os : Os)

/-- What the script finds when it is started, if it is. -/
def Job.scriptLaunch (job : Job) (t : FileTree) (env : SortedMap Str Str) (dir : FsPath)
    (force : Bool) : Option Launch :=
  match ensureExecutable os t (dir / job.config.script) force with
  | (_, some _) => none
  | (t, none) =>
    (os.openOfstream t (dir / "output.txt")).map fun _ => launchOf env dir t

end Model

def BuildStatus.ofStatus (e : Int32) : BuildStatus := if e = 0 then .successful else .broken

/-- The build has left the pending ones for those of the status, and no other has moved. -/
structure Job.Moved (job job' : Job) (number : Nat) (dir : FsPath) (status : BuildStatus) : Prop where
  gone : job'.builds.pending.find number = none
  moved : (job'.builds.get status).find number = some dir
  others : ∀ s n, n ≠ number ∨ s ≠ .pending ∧ s ≠ status →
    (job'.builds.get s).find n = (job.builds.get s).find n

/-- A build that waits for its execution, in memory and on disk. -/
structure Job.PendingBuild (job : Job) (t : FileTree) (number : Nat) (dir : FsPath) : Prop where
  memory : job.builds.Only .pending number dir
  present : t.pathExists dir = true
  recorded : recordedStatus t dir = .pending

variable {P : ProtoUtils} {os : Os} {ctx : Context} {jobName : Str} {job : Job}

/-! ### Jobs in memory -/

theorem Loaded.withoutOldest {script : Str} (h : Loaded ctx jobName script job)
    (successful broken : Nat) :
    Loaded ctx jobName script (job.withoutOldest successful broken) where
  name := h.name
  script := h.script
  placed s n p hFind := by
    have hOld : (job.builds.get s).find n = some p := by
      cases s with
      | successful => exact (SortedMap.find_dropLeast.mp hFind).1
      | broken => exact (SortedMap.find_dropLeast.mp hFind).1
      | pending => exact hFind
    exact h.placed s n p hOld

theorem JobObject.isLoaded (h : JobObject P ctx jobName job) :
    ∃ script, Loaded ctx jobName script job := by
  induction h with
  | loaded h => exact ⟨_, loadJob_name h, rfl, loadJob_placed h⟩
  | prepared _ os t session params ih =>
    obtain ⟨script, hLoaded⟩ := ih
    exact ⟨script, hLoaded.prepareBuild P os t session params⟩
  | executed _ os t env force run exitCode _ ih =>
    obtain ⟨script, hLoaded⟩ := ih
    exact ⟨script, hLoaded.execute os t env _ force run exitCode⟩
  | cleaned _ os t ih =>
    obtain ⟨script, hLoaded⟩ := ih
    obtain ⟨successful, broken, hCleanup⟩ := cleanup_withoutOldest os _ t
    rw [hCleanup]
    exact ⟨script, hLoaded.withoutOldest successful broken⟩

theorem JobObject.dir_eq (h : JobObject P ctx jobName job) {s : BuildStatus} {n : Nat} {p : FsPath}
    (hFind : (job.builds.get s).find n = some p) : p = buildDir ctx jobName n := by
  obtain ⟨_, hLoaded⟩ := h.isLoaded
  rw [hLoaded.placed s n p hFind, hLoaded.name]

/-! ### What `execute` does in terms of its launch -/

section Launches

variable {number : Nat} {dir : FsPath} (hDir : job.builds.pending.find number = some dir)
  {t : FileTree} {env : SortedMap Str Str} {force : Bool} {script : Launch → ScriptRun}
  {exitCode : Int32}
include hDir

theorem execute_not_started (hLaunch : job.scriptLaunch os t env dir force = none)
    (script : Launch → ScriptRun) (exitCode : Int32) :
    ∃ e, job.execute os t env number force script exitCode =
      ⟨(ensureExecutable os t (dir / job.config.script) force).1, job, some e, exitCode, none⟩ := by
  rw [Job.scriptLaunch] at hLaunch
  simp only [Job.execute, hDir, Option.getD_some]
  split
  · rename_i t₁ e hEnsure
    rw [hEnsure]
    exact ⟨e, rfl⟩
  rename_i t₁ hEnsure
  rw [hEnsure] at hLaunch ⊢
  split
  · exact ⟨_, rfl⟩
  · rename_i t₂ hOpen
    cases (Option.map_eq_none_iff.mp hLaunch).symm.trans hOpen

theorem execute_started {launch : Launch}
    (hLaunch : job.scriptLaunch os t env dir force = some launch)
    (script : Launch → ScriptRun) (exitCode : Int32) :
    ∃ t₁, t₁ = (ensureExecutable os t (dir / job.config.script) force).1 ∧
      launch = launchOf env dir t₁ ∧
      ∃ r : FileTree × Ec × Int32,
        r = onExit os (exitTree dir t₁ (script launch).output) dir exitCode (script launch).status ∧
        job.execute os t env number force script exitCode =
          ⟨r.1, job.settle number r.2.2, r.2.1, r.2.2, some launch⟩ := by
  rw [Job.scriptLaunch] at hLaunch
  simp only [Job.execute, hDir, Option.getD_some]
  split
  · rename_i t₁ e hEnsure
    rw [hEnsure] at hLaunch
    cases hLaunch
  rename_i t₁ hEnsure
  rw [hEnsure] at hLaunch ⊢
  obtain ⟨_, hSome, rfl⟩ := Option.map_eq_some_iff.mp hLaunch
  split
  · rename_i hOpen
    cases hSome.symm.trans hOpen
  rename_i t₂ hOpen
  obtain rfl := Os.openOfstream_eq_some hOpen
  refine ⟨t₁, rfl, rfl, _, rfl, ?_⟩
  rw [FileTree.overwrite_write_nil]
  rfl

theorem settle_gone (e : Int32) : (job.settle number e).builds.pending.find number = none := by
  rw [Job.settle, hDir]
  simp only
  split_ifs
  · rw [SortedMap.find_erase, if_pos rfl]
  · rw [SortedMap.find_erase, if_pos rfl]

theorem settle_moved (h : JobObject P ctx jobName job) (e : Int32) :
    job.Moved (job.settle number e) number dir (.ofStatus e) := by
  have hTarget : ∀ s, ((job.builds.get s).emplace number dir).find number = some dir := by
    intro s
    rw [SortedMap.find_emplace, if_pos rfl]
    cases hOld : (job.builds.get s).find number with
    | none => rfl
    | some p => rw [Option.getD_some, h.dir_eq hOld, h.dir_eq (s := .pending) hDir]
  have hErased : ∀ n, n ≠ number →
      (job.builds.pending.erase number).find n = job.builds.pending.find n := by
    intro n hn
    rw [SortedMap.find_erase, if_neg hn]
  have hOther : ∀ s n, n ≠ number →
      ((job.builds.get s).emplace number dir).find n = (job.builds.get s).find n := by
    intro s n hn
    rw [SortedMap.find_emplace, if_neg hn]
  refine ⟨settle_gone hDir e, ?_, ?_⟩
  · rw [Job.settle, hDir, BuildStatus.ofStatus]
    simp only
    split_ifs
    · exact hTarget .successful
    · exact hTarget .broken
  · rw [Job.settle, hDir, BuildStatus.ofStatus]
    simp only
    split_ifs
    · rintro (_ | _ | _) n hMoved
      · exact hOther .successful n (by simpa using hMoved)
      · rfl
      · exact hErased n (by simpa using hMoved)
    · rintro (_ | _ | _) n hMoved
      · rfl
      · exact hOther .broken n (by simpa using hMoved)
      · exact hErased n (by simpa using hMoved)

theorem execute_clear_started
    (hClear : (job.execute os t env number force script exitCode).ec = none) :
    ∃ launch, job.scriptLaunch os t env dir force = some launch := by
  cases hLaunch : job.scriptLaunch os t env dir force with
  | none =>
    obtain ⟨e, hExecute⟩ := execute_not_started hDir hLaunch script exitCode
    rw [hExecute] at hClear
    cases hClear
  | some launch => exact ⟨launch, rfl⟩

omit hDir in
/-- A script is only started where there is a directory for its output. -/
theorem scriptLaunch_isDirectory (hTree : t.WellFormed) {launch : Launch}
    (hLaunch : job.scriptLaunch os t env dir force = some launch) : t.isDirectory dir = true := by
  have hFrame : FileTree.SameOutside (FileTree.Inside dir) t
      (ensureExecutable os t (dir / job.config.script) force).1 :=
    ensureExecutable_sameOutside (FileTree.inside_child dir _) rfl
  have hContent := ensureExecutable_content os t (dir / job.config.script)
    (dir / "output.txt") force
  rw [Job.scriptLaunch] at hLaunch
  split at hLaunch
  · cases hLaunch
  rename_i t₁ hEnsure
  rw [hEnsure] at hFrame hContent
  obtain ⟨t₂, hOpen, _⟩ := Option.map_eq_some_iff.mp hLaunch
  obtain hDirectory | hFile := Os.openOfstream_parent hOpen
  · rw [FileTree.isDirectory, ← hFrame dir fun hInside => hInside.2 rfl]
    exact hDirectory
  · have hWritten : (t.content (dir / "output.txt")).isSome := by
      rw [← hContent]
      exact hFile
    exact hTree dir "output.txt".toList (FileTree.pathExists_of_content hWritten)

omit hDir in
/-- The stream for the exit code opens for the handler when it opens for `execute`. -/
theorem exitcode_opens_iff (os : Os) (job : Job) (t : FileTree) (dir : FsPath) (force : Bool)
    (lines : List Str) :
    (os.openOfstream (exitTree dir (ensureExecutable os t (dir / job.config.script) force).1 lines)
        (dir / "exitcode.txt")).isSome ↔
      (os.openOfstream t (dir / "exitcode.txt")).isSome := by
  have hOther : dir / "exitcode.txt" ≠ dir / "output.txt" := by simp
  have hDirectory : dir ≠ dir / "output.txt" := (FileTree.inside_child dir _).2.symm
  have hFrame : FileTree.SameOutside (FileTree.Inside dir) t
      (ensureExecutable os t (dir / job.config.script) force).1 :=
    ensureExecutable_sameOutside (FileTree.inside_child dir _) rfl
  have hParent : (exitTree dir (ensureExecutable os t (dir / job.config.script) force).1
      lines).isDirectory dir = t.isDirectory dir := by
    rw [FileTree.isDirectory, exitTree, FileTree.find_write_of_ne _ hDirectory,
      hFrame dir fun hInside => hInside.2 rfl, FileTree.isDirectory]
  have hThere : (exitTree dir (ensureExecutable os t (dir / job.config.script) force).1
      lines).pathExists (dir / "exitcode.txt") = t.pathExists (dir / "exitcode.txt") := by
    rw [FileTree.pathExists, exitTree, FileTree.find_write_of_ne _ hOther, ← FileTree.pathExists,
      ensureExecutable_pathExists]
  rw [Os.openOfstream_isSome_iff, Os.openOfstream_isSome_iff, hThere, exitTree,
    FileTree.content_write_of_ne _ hOther, ensureExecutable_content]
  change _ ∧ (_ ∨ _ ∧ (exitTree dir _ lines).isDirectory dir = true) ↔ _
  rw [hParent]
  rfl

theorem settle_not_only (e : Int32) :
    ¬(job.settle number e).builds.Only .pending number dir := by
  intro hOnly
  have hPending := hOnly .pending
  rw [if_pos rfl] at hPending
  cases (settle_gone hDir e).symm.trans hPending

omit hDir in
theorem Job.PendingBuild.find_pending (h : job.PendingBuild t number dir) :
    job.builds.pending.find number = some dir := h.memory .pending

omit hDir in
/-- Whatever fails, the files of a build that is not executed are those of a pending one. -/
theorem execute_recorded_pending (h : job.PendingBuild t number dir)
    (hError : (job.execute os t env number force script exitCode).ec ≠ none) :
    (job.execute os t env number force script exitCode).tree.pathExists dir = true ∧
      recordedStatus (job.execute os t env number force script exitCode).tree dir = .pending := by
  refine ⟨execute_grows os job t env number force script exitCode dir h.present, ?_⟩
  have hSame : (job.execute os t env number force script exitCode).tree.content
      (dir / "exitcode.txt") = t.content (dir / "exitcode.txt") := by
    obtain ⟨t₁, _, hContent, ⟨e, hExecute⟩ | ⟨r, rfl, hExecute⟩⟩ :=
      execute_cases os h.find_pending t env force script exitCode
    · rw [hExecute]
      exact hContent _
    · rw [hExecute] at hError ⊢
      obtain ⟨e, hTree, _⟩ | ⟨e, _, hExit⟩ := onExit_cases os
        (exitTree dir t₁ (script (launchOf env dir t₁)).output) dir exitCode
        (script (launchOf env dir t₁)).status
      · rw [hTree, exitTree, FileTree.content_write_of_ne _ (by simp)]
        exact hContent _
      · rw [hExit] at hError
        exact absurd rfl hError
  rw [recordedStatus, hSame, ← recordedStatus]
  exact h.recorded

end Launches

variable {number : Nat} {dir : FsPath} {t : FileTree} {env : SortedMap Str Str} {force : Bool}
  {script : Launch → ScriptRun} {exitCode : Int32}

/-! ### Where a finished build is found -/

/-- A build whose number has six digits is in the same class in memory and for
whoever loads the job later. The directory of build 1000000 is not taken for a
build. -/
theorem finished_build_agrees_iff (hDir : job.builds.pending.find number = some dir)
    (hJob : JobObject P ctx jobName job) (hTree : t.WellFormed)
    (hClear : (job.execute os t env number force script exitCode).ec = none) :
    (∃ launch e, (job.execute os t env number force script exitCode).launch = some launch ∧
      (script launch).status = some e ∧
      (job.execute os t env number force script exitCode).exitCode = e ∧
      job.Moved (job.execute os t env number force script exitCode).job number dir (.ofStatus e) ∧
      ∀ reader : Os, reader.ifstreamFault (dir / "exitcode.txt") = false →
        (loadBuilds reader (job.execute os t env number force script exitCode).tree
          (jobPath ctx jobName)).Only (.ofStatus e) number dir) ↔
    number < 1000000 := by
  obtain ⟨launch, e, hLaunch, hStatus, hExit, hRecorded, _⟩ := execute_clear hDir hClear
  have hNumber := hJob.dir_eq (s := .pending) hDir
  constructor
  · rintro ⟨_, e', _, _, _, _, hOnly⟩
    have hListed := hOnly (.ideal ∅) rfl (.ofStatus e')
    rw [if_pos rfl] at hListed
    exact (find_loadBuilds.mp hListed).1
  · intro hLt
    refine ⟨launch, e, hLaunch, hStatus, hExit, ?_, ?_⟩
    · obtain ⟨launch', hStarted⟩ := execute_clear_started hDir hClear
      obtain ⟨t₁, _, _, r, _, hExecute⟩ := execute_started hDir hStarted script exitCode
      rw [hExecute] at hExit ⊢
      simp only at hExit
      rw [hExit]
      exact settle_moved hDir hJob e
    · intro reader hRead s
      obtain ⟨launch', hStarted⟩ := execute_clear_started hDir hClear
      have hThere : (job.execute os t env number force script exitCode).tree.pathExists dir = true := by
        have hSame := execute_sameOutside os hDir t env force script exitCode dir
          fun hInside => hInside.2 rfl
        rw [FileTree.pathExists, hSame,
          FileTree.isDirectory_iff.mp (scriptLaunch_isDirectory hTree hStarted)]
        rfl
      have hSeen : buildStatus reader (job.execute os t env number force script exitCode).tree dir =
          .ofStatus e := by
        rw [buildStatus_eq_recorded hRead, recordedStatus_exitcodeText hRecorded]
        rfl
      exact find_loadBuilds_only hLt hNumber hThere hSeen s

theorem pendingTree_wellFormed : pendingTree.WellFormed := FileTree.wellFormed_of_keys (by decide)

theorem pendingJob_object : JobObject .reference demoContext "j" pendingJob :=
  .loaded (rfl : loadJob .reference (.ideal ∅) pendingTree demoContext "j" = .ok pendingJob)

theorem pendingJob_pending :
    pendingJob.PendingBuild pendingTree 0 (jobPath demoContext "j" / "000000") where
  memory s := by cases s <;> rfl
  present := rfl
  recorded := rfl

/-- A run of build 0 on a system where nothing fails but, without a status, the
process library. -/
def pendingRun (status : Option Int32) (exitCode : Int32) : Execution :=
  pendingJob.execute (.ideal ∅) pendingTree ∅ 0 false (fun _ => ⟨[], status⟩) exitCode

theorem finished_build_agrees_negative :
    ∃ launch e, (pendingRun (some (-1)) 0).launch = some launch ∧ some (-1) = some e ∧
      (pendingRun (some (-1)) 0).exitCode = e ∧
      pendingJob.Moved (pendingRun (some (-1)) 0).job 0 (jobPath demoContext "j" / "000000")
        (.ofStatus e) ∧
      ∀ reader : Os, reader.ifstreamFault (jobPath demoContext "j" / "000000" / "exitcode.txt") =
          false →
        (loadBuilds reader (pendingRun (some (-1)) 0).tree (jobPath demoContext "j")).Only
          (.ofStatus e) 0 (jobPath demoContext "j" / "000000") :=
  have hClear : (pendingRun (some (-1)) 0).ec = none := rfl
  (finished_build_agrees_iff rfl pendingJob_object pendingTree_wellFormed hClear).mpr (by decide)

/-- Build 1000000 succeeds, and whoever loads the job later does not find it. -/
theorem build_million_lost :
    ∃ job t' job' later, loadJob .reference (.ideal ∅) brimTree demoContext "j" = .ok job ∧
      job.prepareBuild .reference (.ideal ∅) brimTree demoContext ⟨"s", true⟩ [] =
        (t', job', some 1000000, none) ∧
      (job'.execute (.ideal ∅) t' ∅ 1000000 false (fun _ => ⟨[], some 0⟩) (-1)).ec = none ∧
      loadJob .reference (.ideal ∅)
        (job'.execute (.ideal ∅) t' ∅ 1000000 false (fun _ => ⟨[], some 0⟩) (-1)).tree
        demoContext "j" = .ok later ∧ later.builds.successful.find 1000000 = none :=
  ⟨_, _, _, _, rfl, rfl, rfl, rfl, rfl⟩

/-! ### Where a build that failed is found -/

/-- No file can be opened for writing. -/
def readOnlyOs : Os := { Os.ideal ∅ with ofstreamFault := fun _ => true }

end CisCore
