import CisCore.Startjob

/-! # Session parameters that cannot be read

An error of `prepareParams` is overwritten by the creation of the directory.
Such a run ends early only for the reasons that end any other run.
-/

namespace CisCore

/-- No directory of a build appears, no script starts and the run fails. -/
structure StopsBuild (ctx : Context) (jobName : Str) (t : FileTree) (r : StartjobResult) : Prop where
  noDirectory : ∀ n, t.find (buildDir ctx jobName n) = none →
    r.tree.find (buildDir ctx jobName n) = none
  notLaunched : r.launch = none
  failed : r.exitStatus ≠ 0

/-- Every operation between the creation of the directory and the start of the
script succeeds. -/
def Job.ReachesScript (P : ProtoUtils) (os : Os) (job : Job) (t : FileTree) (ctx : Context)
    (session : Session) (params : List (Str × Str)) (number : Nat) (force : Bool) : Prop :=
  ∃ t₁ t₂ t₃, job.fillBuildDir P os os.copy t ctx session params number = (t₁, none) ∧
    ensureExecutable os t₁ (buildDir ctx job.name number / job.config.script) force = (t₂, none) ∧
    os.openOfstream t₂ (buildDir ctx job.name number / "output.txt") = some t₃

theorem execute_launch_isSome_iff (os : Os) {job : Job} {number : Nat} {dir : FsPath}
    (hDir : job.builds.pending.find number = some dir) (t : FileTree) (env : SortedMap Str Str)
    (force : Bool) (script : Launch → ScriptRun) (exitCode : Int32) :
    (job.execute os t env number force script exitCode).launch ≠ none ↔
      ∃ t₁ t₂, ensureExecutable os t (dir / job.config.script) force = (t₁, none) ∧
        os.openOfstream t₁ (dir / "output.txt") = some t₂ := by
  simp only [Job.execute, hDir, Option.getD_some]
  split
  · rename_i t₁ e hEnsure
    simp only [ne_eq, not_true_eq_false, false_iff, not_exists]
    rintro t₂ t₃ ⟨hEnsure₂, _⟩
    rw [hEnsure] at hEnsure₂
    cases hEnsure₂
  · rename_i t₁ hEnsure
    split
    · rename_i hOpen
      simp only [ne_eq, not_true_eq_false, false_iff, not_exists]
      rintro t₂ t₃ ⟨hEnsure₂, hOpen₂⟩
      rw [hEnsure] at hEnsure₂
      cases hEnsure₂
      rw [hOpen] at hOpen₂
      cases hOpen₂
    · rename_i t₂ hOpen
      simp only [ne_eq, reduceCtorEq, not_false_eq_true, true_iff]
      exact ⟨t₁, t₂, hEnsure, hOpen⟩

section Build

variable (P : ProtoUtils) (os : Os) {job : Job} {ctx : Context} (hPlaced : job.Placed ctx)
  {t : FileTree} (session : Session) (params : List (Str × Str)) (env : Nat → SortedMap Str Str)
  (force : Bool) (script : Launch → ScriptRun)
include hPlaced

theorem runBuild_launch_iff {made : Bool} {t₁ : FileTree}
    (hCreate : os.createDirectory t
      (buildDir ctx job.name (nextBuildNumber t (jobPath ctx job.name))) = (made, t₁, none)) :
    (job.runBuild P os t ctx session params env force script).launch ≠ none ↔
      job.ReachesScript P os t₁ ctx session params
        (nextBuildNumber t (jobPath ctx job.name)) force := by
  unfold Job.ReachesScript
  rcases hFill : job.fillBuildDir P os os.copy t₁ ctx session params
    (nextBuildNumber t (jobPath ctx job.name)) with ⟨t₂, _ | e⟩
  · have hPrepare : ∃ job', job.prepareBuild P os t ctx session params =
        (t₂, job', some (nextBuildNumber t (jobPath ctx job.name)), none) ∧
        job'.config = job.config := by
      simp only [Job.prepareBuild, Job.prepareBuildWith, hCreate, hFill]
      exact ⟨_, rfl, rfl⟩
    obtain ⟨job', hPrepare, hConfig⟩ := hPrepare
    have hPending := prepareBuild_pending hPlaced hPrepare
    have hLaunch : (job.runBuild P os t ctx session params env force script).launch =
        (job'.execute os t₂ (env (nextBuildNumber t (jobPath ctx job.name)))
          (nextBuildNumber t (jobPath ctx job.name)) force script (-1)).launch := by
      simp only [Job.runBuild, hPrepare, Option.getD_some]
      split <;> rfl
    rw [hLaunch, execute_launch_isSome_iff os hPending, hConfig]
    constructor
    · rintro ⟨t₃, t₄, hEnsure, hOpen⟩
      exact ⟨t₂, t₃, t₄, rfl, hEnsure, hOpen⟩
    · rintro ⟨_, t₃, t₄, hEq, hEnsure, hOpen⟩
      cases hEq
      exact ⟨t₃, t₄, hEnsure, hOpen⟩
  · have hRun : (job.runBuild P os t ctx session params env force script).launch = none := by
      simp only [Job.runBuild, Job.prepareBuild, Job.prepareBuildWith, hCreate, hFill]
    simp [hRun]

theorem runBuild_created {t₁ : FileTree}
    (hCreate : os.createDirectory t
      (buildDir ctx job.name (nextBuildNumber t (jobPath ctx job.name))) = (true, t₁, none)) :
    (job.runBuild P os t ctx session params env force script).tree.find
      (buildDir ctx job.name (nextBuildNumber t (jobPath ctx job.name))) = some .directory := by
  have hDir := (Os.createDirectory_clear hCreate).1
  have hPrepared : (job.prepareBuild P os t ctx session params).1.find
      (buildDir ctx job.name (nextBuildNumber t (jobPath ctx job.name))) = some .directory := by
    have hFrame := fillBuildDir_sameOutside P os os.copy_lawful job t₁ ctx session params
      (nextBuildNumber t (jobPath ctx job.name))
    have hTree : (job.prepareBuild P os t ctx session params).1 = (job.fillBuildDir P os os.copy t₁ ctx session
        params (nextBuildNumber t (jobPath ctx job.name))).1 := by
      simp only [Job.prepareBuild, Job.prepareBuildWith, hCreate]
      split
      · rename_i hFill
        rw [hFill]
      · rename_i hFill
        rw [hFill]
    rw [hTree]
    exact (hFrame _ fun hInside => hInside.2 rfl).trans hDir
  rcases runBuild_cases P os hPlaced t session params env force script with
    ⟨e, hRun⟩ | ⟨t₂, job', n, rfl, hPrepare, hPending, hRun⟩
  · rw [hRun]
    exact hPrepared
  · rw [hPrepare] at hPrepared
    rw [hRun]
    exact (execute_sameOutside os hPending t₂ _ force script (-1) _
      fun hInside => hInside.2 rfl).trans hPrepared

end Build

/-- A joined run without `--params` whose session parameters cannot be read is
stopped exactly if the directory of the build cannot be created, or if it was
there before and the script is not reached in it. -/
theorem params_error_stops_build_iff (P : ProtoUtils) (os : Os) {sessionId : Str}
    (hId : sessionId ≠ []) (hJoined : os.getEnvVar "session_id" = sessionId) {t : FileTree}
    {ctx : Context} {args : StartjobArgs} (hNew : args.newSession = false)
    (hParams : args.params = none) {job : Job} (hLoad : loadJob P os t ctx args.jobName = .ok job)
    (freshId : Str) (stdin : List Str) (script : Launch → ScriptRun) :
    (prepareParams P os t ctx ⟨sessionId, false⟩ job.config.params).2 ≠ none →
    (StopsBuild ctx args.jobName t (startjob P os t ctx freshId args stdin script) ↔
      (os.createDirectory t (buildDir ctx args.jobName
        (nextBuildNumber t (jobPath ctx args.jobName)))).2.2 ≠ none ∨
      t.find (buildDir ctx args.jobName (nextBuildNumber t (jobPath ctx args.jobName))) =
          some .directory ∧
        ¬job.ReachesScript P os t ctx ⟨sessionId, false⟩ job.config.params
          (nextBuildNumber t (jobPath ctx args.jobName)) args.force) := by
  intro hError
  have hDefaults := prepareParams_error hError
  obtain ⟨env, run, _, _, hRun, _, hLaunch, hTree, hStatus⟩ :=
    startjob_joined P os hId hJoined hNew hParams hLoad freshId stdin script
  rw [hDefaults] at hRun
  have hPlaced := loadJob_placed hLoad
  have hSession : ∀ n, (startjob P os t ctx freshId args stdin script).tree.find
      (buildDir ctx args.jobName n) = run.tree.find (buildDir ctx args.jobName n) := by
    intro n
    apply hTree
    intro hEq
    have hSame : buildDir ctx args.jobName n = sessionDat ctx ⟨sessionId, false⟩ := hEq
    exact not_buildDir_suffix_sessionDat ctx ⟨sessionId, false⟩ args.jobName n
      (hSame ▸ List.suffix_rfl)
  have hFailed : run.launch = none →
      (startjob P os t ctx freshId args stdin script).exitStatus ≠ 0 := by
    intro hNone hZero
    rw [hRun] at hNone hStatus
    exact runBuild_clear P os hPlaced t _ _ env args.force script (hStatus.mp hZero).1 hNone
  have hName := loadJob_name hLoad
  rw [← hName] at hSession ⊢
  rcases os.createDirectory_cases t (buildDir ctx job.name (nextBuildNumber t (jobPath ctx job.name)))
    with ⟨made, e, hCreate⟩ | ⟨hCreate, hFind⟩ | ⟨hCreate, hFind, _⟩
  · -- nothing is touched
    have hNone : run = ⟨t, none, none, none, some e⟩ := by
      simp only [hRun, Job.runBuild, Job.prepareBuild, Job.prepareBuildWith, hCreate]
    have hStops : StopsBuild ctx job.name t (startjob P os t ctx freshId args stdin script) :=
      ⟨fun n hn => by rw [hSession, hNone, hn], by rw [hLaunch, hNone], hFailed (by rw [hNone])⟩
    simp [hCreate, hStops]
  · -- the directory is there already, and everything hangs on the files in it
    have hIff := runBuild_launch_iff P os hPlaced ⟨sessionId, false⟩ job.config.params env args.force
      script hCreate
    rw [← hRun] at hIff
    have hFrame := runBuild_sameOutside P os hPlaced t ⟨sessionId, false⟩ job.config.params env
      args.force script
    rw [← hRun] at hFrame
    rw [hCreate, hFind, ← hIff]
    constructor
    · intro hStops
      refine Or.inr ⟨rfl, not_not.mpr ?_⟩
      rw [← hLaunch, hStops.notLaunched]
    · rintro (hError | ⟨_, hLaunched⟩)
      · exact absurd rfl hError
      · have hNone := not_not.mp hLaunched
        refine ⟨fun m hm => ?_, by rw [hLaunch, hNone], hFailed hNone⟩
        have hOther : nextBuildNumber t (jobPath ctx job.name) ≠ m := by
          rintro rfl
          rw [hm] at hFind
          cases hFind
        rw [hSession, hFrame _ fun hInside => buildDir_disjoint hOther hInside List.suffix_rfl, hm]
  · have hCreated := runBuild_created P os hPlaced ⟨sessionId, false⟩ job.config.params env args.force
      script hCreate
    rw [← hRun] at hCreated
    rw [hCreate, hFind]
    constructor
    · intro hStops
      have hAbsent := hStops.noDirectory _ hFind
      rw [hSession, hCreated] at hAbsent
      cases hAbsent
    · rintro (hError | ⟨hSome, _⟩)
      · exact absurd rfl hError
      · cases hSome

/-- The session of the small job holds a parameter line without a name. -/
def unreadableTree : FileTree :=
  demoTree "1" [(["job.params".toList, "j".toList, "jobs".toList], .file "p=d\n" false),
    (["s.prm".toList, "sessions".toList], .file "=v\n" false)]

def demoArgs : StartjobArgs := ⟨"j", false, false, none⟩

theorem params_error_stops_build_iff_one :
    ∃ job, loadJob .reference joinedOs unreadableTree demoContext "j" = .ok job ∧
      (StopsBuild demoContext "j" unreadableTree (startjob .reference joinedOs unreadableTree
          demoContext "f" demoArgs [] fun _ => ⟨[], some 0⟩) ↔
        (joinedOs.createDirectory unreadableTree (buildDir demoContext "j"
          (nextBuildNumber unreadableTree (jobPath demoContext "j")))).2.2 ≠ none ∨
        unreadableTree.find (buildDir demoContext "j"
            (nextBuildNumber unreadableTree (jobPath demoContext "j"))) = some .directory ∧
          ¬job.ReachesScript .reference joinedOs unreadableTree demoContext ⟨"s", false⟩
            job.config.params (nextBuildNumber unreadableTree (jobPath demoContext "j")) false) :=
  have hId : ("s" : Str) ≠ [] := by decide
  have hNew : demoArgs.newSession = false := rfl
  ⟨_, rfl, params_error_stops_build_iff .reference joinedOs hId rfl hNew rfl rfl "f" []
    (fun _ => ⟨[], some 0⟩) (by decide)⟩

/-- The script runs with the default of `p`, and the run reports success. -/
theorem params_error_runs_with_defaults :
    ∃ r, startjob .reference joinedOs unreadableTree demoContext "f" demoArgs []
        (fun _ => ⟨[], some 0⟩) = r ∧
      (loadJob .reference joinedOs unreadableTree demoContext "j").toOption.map
        (fun job => job.config.params) = some [(("p" : Str), ("d" : Str))] ∧
      unreadableTree.pathExists (sessionPrm demoContext ⟨"s", false⟩) = true ∧
      prepareParams .reference joinedOs unreadableTree demoContext ⟨"s", false⟩ [("p", "d")] =
        ([(("p" : Str), ("d" : Str))], fail .cantReadSessionValuesFile) ∧
      r.exitStatus = 0 ∧
      (r.launch.bind fun launch => launch.tree.content (buildDir demoContext "j" 0 / "job.params")) =
        some "p=d\n" ∧
      ¬StopsBuild demoContext "j" unreadableTree r := by
  refine ⟨_, rfl, by decide, by decide, by decide, by decide, by decide, ?_⟩
  intro hStops
  exact hStops.failed (by decide)

end CisCore
