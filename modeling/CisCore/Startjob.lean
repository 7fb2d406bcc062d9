import CisCore.Job.Build
import CisCore.Session.KvFile

/-! # The `startjob` command

The parameters come from the terminal, from the command line or from the
session. The build is prepared and executed, and a process that joined its
session publishes the build there before it spawns the maintenance process.
-/

namespace CisCore

structure StartjobArgs where
  jobName : Str
  newSession : Bool
  force : Bool
  /-- The words behind `--params`, when it is given. -/
  params : Option (List Str)

structure Spawn where
  startDir : FsPath
  executable : FsPath
  args : List Str
  env : SortedMap Str Str

structure StartjobResult where
  tree : FileTree
  exitStatus : Nat
  stdout : List Str
  stderr : List Str
  /-- The number of a prepared build. -/
  build : Option Nat
  launch : Option Launch
  /-- The exit status that was recorded for it. -/
  recorded : Option Int32
  maintenance : Option Spawn
  /-- The error of an exception that nobody catches. -/
  thrown : Option Errno

section Model

variable (P : ProtoUtils) (os : Os)

/-- Names and values alternate; a last name without a value gets an empty one. -/
def paramPairs : List Str → List (Str × Str)
  | [] => []
  | [k] => [(k, [])]
  | k :: v :: rest => (k, v) :: paramPairs rest

def preparedParams (words : List Str) : SortedMap Str Str := .ofList (paramPairs words)

def overrideParams (values : SortedMap Str Str) (params : List (Str × Str)) : List (Str × Str) :=
  params.map fun e => (e.1, (values.find e.1).getD e.2)

def prompt (k v : Str) : Str :=
  "Type param value for parameter ".toList ++ k ++ "(\"Enter\" for default value:\"".toList ++ v ++
    "\")".toList

/-- Asks for each value; an empty line keeps the default. -/
def askParams : List (Str × Str) → List Str → List Str × Option (List (Str × Str))
  | [], _ => ([], some [])
  | (k, v) :: params, stdin =>
    let tmp := stdin.headD []
    match if tmp.isEmpty then some v else P.decodeParam tmp with
    | none => ([prompt k v, "Invalid params"], none)
    | some value =>
      let (stdout, rest) := askParams params stdin.tail
      (prompt k v :: stdout, rest.map ((k, value) :: ·))

/-- The parameters of the build. The error code of `prepareParams` is not looked
at, and the next operation overwrites it. -/
def chooseParams (t : FileTree) (ctx : Context) (session : Session) (args : StartjobArgs)
    (stdin : List Str) (params : List (Str × Str)) : List Str × Option (List (Str × Str)) :=
  if params ≠ [] ∧ session.openedByMe = true ∧ args.params = none then askParams P params stdin
  else
    match args.params with
    | some words => ([], some (overrideParams (preparedParams words) params))
    | none =>
      if params ≠ [] then ([], some (prepareParams P os t ctx session params).1)
      else ([], some params)

/-- The environment of the script names the build and the one above it. -/
def exportBuild (ctx : Context) (jobName : Str) (number : Nat) : Context :=
  let parentJob := os.getEnvVar "job_name"
  let ctx := if parentJob ≠ [] then ctx.setEnvVar "parent_job_name" parentJob else ctx
  let parentBuild := os.getEnvVar "build_number"
  let ctx := if parentBuild ≠ [] then ctx.setEnvVar "parent_job_build_number" parentBuild else ctx
  (ctx.setEnvVar "job_name" jobName).setEnvVar "build_number" (numberString number)

/-- Two separate calls; the session's opener makes none. -/
def publishBuild (t : FileTree) (ctx : Context) (session : Session) (jobName : Str) (number : Nat) :
    FileTree × Ec :=
  if session.openedByMe then (t, none)
  else
    match setValue P os t ctx session "last_job_name" jobName with
    | (t, some e) => (t, some e)
    | (t, none) => setValue P os t ctx session "last_job_build_number" (numberString number)

def startedText (ctx : Context) (session : Session) (jobName : Str) (number : Nat) : Str :=
  "session_id=".toList ++ session.sessionId ++ " action=start_job".toList ++
    " job_name=".toList ++ jobName ++ " build_dir=".toList ++ numberString number ++
    " pid=".toList ++ Text.decimal ctx.processId ++ " ppid=".toList ++
    Text.decimal ctx.parentStartjobId

def exitCodeText (exitCode : Int32) : Str := "Exit code: ".toList ++ Text.intText exitCode.toInt

def spawnMaintenance (ctx : Context) (jobName : Str) : Spawn :=
  ⟨ctx.baseDir, ([] : FsPath) / "core" / ctx.getEnvVar os "maintenance", ["--job", jobName], ctx.env⟩

/-- What follows the execution of a build that reported no error. -/
def finishBuild (ctx : Context) (session : Session) (jobName : Str) (number : Nat)
    (stdout : List Str) (run : BuildRun) : StartjobResult :=
  match publishBuild P os run.tree ctx session jobName number with
  | (t, some e) =>
    ⟨t, 1, stdout, [message os.strerror (some e)], run.handle, run.launch, run.recorded, none, none⟩
  | (t, none) =>
    let stdout :=
      stdout ++ [startedText ctx session jobName number, exitCodeText (run.recorded.getD (-1))]
    let spawn := spawnMaintenance os ctx jobName
    match os.spawnFault spawn.executable with
    -- the process library throws, and the process is aborted
    | some e => ⟨t, 134, stdout, [], run.handle, run.launch, run.recorded, none, some e⟩
    | none => ⟨t, 0, stdout, [], run.handle, run.launch, run.recorded, some spawn, none⟩

/-- `main` in its session. -/
def startjobIn (session : Session) (ctx : Context) (t : FileTree) (args : StartjobArgs)
    (stdin : List Str) (script : Launch → ScriptRun) : StartjobResult :=
  let stdout := [session.sessionId]
  match loadJob P os t ctx args.jobName with
  | .error e => ⟨t, 1, stdout ++ [message os.strerror (fail e)], [], none, none, none, none, none⟩
  | .ok job =>
    match chooseParams P os t ctx session args stdin job.config.params with
    | (asked, none) => ⟨t, 1, stdout ++ asked, [], none, none, none, none, none⟩
    | (asked, some params) =>
      let run := job.runBuild P os t ctx session params
        (fun number => (exportBuild os ctx args.jobName number).env) args.force script
      match run.ec with
      | some e =>
        ⟨run.tree, 1, stdout ++ asked, [message os.strerror (some e)], run.handle, run.launch,
          run.recorded, none, none⟩
      | none =>
        let number := run.handle.getD 0
        finishBuild P os (exportBuild os ctx args.jobName number) session args.jobName number
          (stdout ++ asked) run

/-- `main` once the arguments are parsed and the context is set up. -/
def startjob (t : FileTree) (ctx : Context) (freshId : Str) (args : StartjobArgs)
    (stdin : List Str) (script : Launch → ScriptRun) : StartjobResult :=
  let (session, ctx) := invokeSession os freshId ctx args.newSession
  startjobIn P os session ctx t args stdin script

end Model

section Spec

variable (P : ProtoUtils) (os : Os)

@[simp] theorem exportBuild_baseDir (ctx : Context) (jobName : Str) (number : Nat) :
    (exportBuild os ctx jobName number).baseDir = ctx.baseDir := by
  simp only [exportBuild, Context.setEnvVar_baseDir]
  split
  · split <;> rfl
  · split <;> rfl

theorem publishBuild_sameOutside (t : FileTree) (ctx : Context) (session : Session) (jobName : Str)
    (number : Nat) : FileTree.SameOutside (· = sessionDat ctx session) t
      (publishBuild P os t ctx session jobName number).1 := by
  unfold publishBuild
  split
  · exact FileTree.SameOutside.refl _ t
  have hName := setKvFile_sameOutside P os t (sessionDat ctx session) .cantReadSessionValuesFile
    "last_job_name" jobName
  split
  · rename_i t' e hSet
    rw [setValue] at hSet
    rw [hSet] at hName
    exact hName
  · rename_i t' hSet
    rw [setValue] at hSet
    rw [hSet] at hName
    exact hName.trans (setKvFile_sameOutside P os t' _ _ _ _)

theorem finishBuild_effect (ctx : Context) (session : Session) (jobName : Str) (number : Nat)
    (stdout : List Str) (run : BuildRun) :
    (finishBuild P os ctx session jobName number stdout run).build = run.handle ∧
      (finishBuild P os ctx session jobName number stdout run).launch = run.launch ∧
      (finishBuild P os ctx session jobName number stdout run).recorded = run.recorded ∧
      FileTree.SameOutside (· = sessionDat ctx session) run.tree
        (finishBuild P os ctx session jobName number stdout run).tree := by
  have hPublish := publishBuild_sameOutside P os run.tree ctx session jobName number
  unfold finishBuild
  split
  · rename_i t e hPublished
    rw [hPublished] at hPublish
    exact ⟨rfl, rfl, rfl, hPublish⟩
  · rename_i t hPublished
    rw [hPublished] at hPublish
    dsimp only
    split
    · exact ⟨rfl, rfl, rfl, hPublish⟩
    · exact ⟨rfl, rfl, rfl, hPublish⟩

theorem publishBuild_congr {ctx ctx' : Context} (h : ctx'.baseDir = ctx.baseDir) (t : FileTree)
    (session : Session) (jobName : Str) (number : Nat) :
    publishBuild P os t ctx' session jobName number =
      publishBuild P os t ctx session jobName number := by
  simp only [publishBuild, setValue, sessionDat, h]

theorem finishBuild_exitStatus (ctx : Context) (session : Session) (jobName : Str) (number : Nat)
    (stdout : List Str) (run : BuildRun) :
    (finishBuild P os ctx session jobName number stdout run).exitStatus = 0 ↔
      (publishBuild P os run.tree ctx session jobName number).2 = none ∧
        os.spawnFault (spawnMaintenance os ctx jobName).executable = none := by
  unfold finishBuild
  split
  · rename_i t e hPublished
    simp [hPublished]
  · rename_i t hPublished
    dsimp only
    split
    · rename_i e hSpawn
      simp [hSpawn]
    · rename_i hSpawn
      simp [hPublished, hSpawn]

theorem finishBuild_stdout (ctx : Context) (session : Session) (jobName : Str) (number : Nat)
    (stdout : List Str) (run : BuildRun) :
    stdout <+: (finishBuild P os ctx session jobName number stdout run).stdout := by
  unfold finishBuild
  split
  · exact List.prefix_refl stdout
  · dsimp only
    split
    · exact List.prefix_append _ _
    · exact List.prefix_append _ _

theorem find_exportBuild (ctx : Context) (jobName : Str) (number : Nat) :
    (exportBuild os ctx jobName number).env.find "job_name" = some jobName ∧
      (exportBuild os ctx jobName number).env.find "build_number" = some (numberString number) := by
  constructor
  · exact (Context.find_setEnvVar_of_ne _ _ (by decide)).trans (Context.find_setEnvVar_self _ _ _)
  · exact Context.find_setEnvVar_self _ _ _

/-- What the environment says of the build above, unless it was left as it was. -/
theorem find_exportBuild_parent (ctx : Context) (jobName : Str) (number : Nat) :
    (exportBuild os ctx jobName number).env.find "parent_job_name" =
        (if os.getEnvVar "job_name" ≠ [] then some (os.getEnvVar "job_name")
        else ctx.env.find "parent_job_name") ∧
      (exportBuild os ctx jobName number).env.find "parent_job_build_number" =
        (if os.getEnvVar "build_number" ≠ [] then some (os.getEnvVar "build_number")
        else ctx.env.find "parent_job_build_number") := by
  simp only [exportBuild]
  constructor
  · rw [Context.find_setEnvVar_of_ne _ _ (by decide), Context.find_setEnvVar_of_ne _ _ (by decide)]
    split_ifs
    all_goals simp [Context.find_setEnvVar_of_ne]
  · rw [Context.find_setEnvVar_of_ne _ _ (by decide), Context.find_setEnvVar_of_ne _ _ (by decide)]
    split_ifs
    all_goals simp [Context.find_setEnvVar_of_ne]

theorem find_exportBuild_of_ne (ctx : Context) (jobName : Str) (number : Nat) {key : Str}
    (hParentJob : key ≠ "parent_job_name".toList)
    (hParentBuild : key ≠ "parent_job_build_number".toList) (hJob : key ≠ "job_name".toList)
    (hBuild : key ≠ "build_number".toList) :
    (exportBuild os ctx jobName number).env.find key = ctx.env.find key := by
  simp only [exportBuild]
  rw [Context.find_setEnvVar_of_ne _ _ hBuild, Context.find_setEnvVar_of_ne _ _ hJob]
  split_ifs
  · rw [Context.find_setEnvVar_of_ne _ _ hParentBuild, Context.find_setEnvVar_of_ne _ _ hParentJob]
  · rw [Context.find_setEnvVar_of_ne _ _ hParentBuild]
  · rw [Context.find_setEnvVar_of_ne _ _ hParentJob]
  · rfl

/-- A run stops before the build, or the build ends with an error, or with the
steps that follow it. -/
theorem startjobIn_cases (session : Session) (ctx : Context) (t : FileTree) (args : StartjobArgs)
    (stdin : List Str) (script : Launch → ScriptRun) :
    (∃ stdout, startjobIn P os session ctx t args stdin script =
      ⟨t, 1, stdout, [], none, none, none, none, none⟩) ∨
    ∃ job asked params run, loadJob P os t ctx args.jobName = .ok job ∧
      chooseParams P os t ctx session args stdin job.config.params = (asked, some params) ∧
      run = job.runBuild P os t ctx session params
        (fun number => (exportBuild os ctx args.jobName number).env) args.force script ∧
      ((∃ e, run.ec = some e ∧ startjobIn P os session ctx t args stdin script =
        ⟨run.tree, 1, [session.sessionId] ++ asked, [message os.strerror (some e)], run.handle,
          run.launch, run.recorded, none, none⟩) ∨
      run.ec = none ∧ startjobIn P os session ctx t args stdin script =
        finishBuild P os (exportBuild os ctx args.jobName (run.handle.getD 0)) session args.jobName
          (run.handle.getD 0) ([session.sessionId] ++ asked) run) := by
  unfold startjobIn
  cases hLoad : loadJob P os t ctx args.jobName with
  | error e => exact Or.inl ⟨_, rfl⟩
  | ok job =>
    rcases hParams : chooseParams P os t ctx session args stdin job.config.params with
      ⟨asked, _ | params⟩
    · exact Or.inl ⟨[session.sessionId] ++ asked, by simp only [hParams]⟩
    · refine Or.inr ⟨job, asked, params, _, rfl, hParams, rfl, ?_⟩
      simp only [hParams]
      generalize job.runBuild P os t ctx session params
        (fun number => (exportBuild os ctx args.jobName number).env) args.force script = run
      cases hEc : run.ec with
      | some e => exact Or.inl ⟨e, rfl, rfl⟩
      | none => exact Or.inr ⟨rfl, rfl⟩

/-- But for the session's values, `startjob` leaves what the build has left, or
nothing when it does not get that far. -/
theorem startjobIn_effect (session : Session) (ctx : Context) (t : FileTree) (args : StartjobArgs)
    (stdin : List Str) (script : Launch → ScriptRun) :
    ((startjobIn P os session ctx t args stdin script).tree = t ∧
      (startjobIn P os session ctx t args stdin script).recorded = none) ∨
    ∃ job params env, loadJob P os t ctx args.jobName = .ok job ∧
      (startjobIn P os session ctx t args stdin script).recorded =
        (job.runBuild P os t ctx session params env args.force script).recorded ∧
      FileTree.SameOutside (· = sessionDat ctx session)
        (job.runBuild P os t ctx session params env args.force script).tree
        (startjobIn P os session ctx t args stdin script).tree := by
  obtain ⟨_, hStop⟩ | ⟨job, asked, params, run, hLoad, _, rfl, hBuild⟩ :=
    startjobIn_cases P os session ctx t args stdin script
  · rw [hStop]
    exact Or.inl ⟨rfl, rfl⟩
  · refine Or.inr ⟨job, params, fun number => (exportBuild os ctx args.jobName number).env, hLoad, ?_⟩
    obtain ⟨e, _, hFailed⟩ | ⟨_, hFinish⟩ := hBuild
    · rw [hFailed]
      exact ⟨rfl, FileTree.SameOutside.refl _ _⟩
    · rw [hFinish]
      have hEffect := finishBuild_effect P os (exportBuild os ctx args.jobName
        ((job.runBuild P os t ctx session params
          (fun number => (exportBuild os ctx args.jobName number).env) args.force
          script).handle.getD 0)) session args.jobName
      simp only [sessionDat, exportBuild_baseDir] at hEffect ⊢
      exact (hEffect _ _ _).2.2

theorem startjob_effect (t : FileTree) (ctx : Context) (freshId : Str) (args : StartjobArgs)
    (stdin : List Str) (script : Launch → ScriptRun) :
    ((startjob P os t ctx freshId args stdin script).tree = t ∧
      (startjob P os t ctx freshId args stdin script).recorded = none) ∨
    ∃ job session params env, loadJob P os t ctx args.jobName = .ok job ∧
      (startjob P os t ctx freshId args stdin script).recorded =
        (job.runBuild P os t ctx session params env args.force script).recorded ∧
      FileTree.SameOutside (· = sessionDat ctx session)
        (job.runBuild P os t ctx session params env args.force script).tree
        (startjob P os t ctx freshId args stdin script).tree := by
  have hBase := invokeSession_baseDir os freshId ctx args.newSession
  unfold startjob
  rcases hInvoke : invokeSession os freshId ctx args.newSession with ⟨session, ctx'⟩
  rw [hInvoke] at hBase
  obtain h | ⟨job, params, env, h⟩ := startjobIn_effect P os session ctx' t args stdin script
  · exact Or.inl h
  · rw [loadJob_congr hBase, runBuild_congr P os job t hBase, sessionDat, hBase] at h
    exact Or.inr ⟨job, session, params, env, h⟩

theorem startjob_eq (t : FileTree) (ctx : Context) (freshId : Str) (args : StartjobArgs)
    (stdin : List Str) (script : Launch → ScriptRun) :
    startjob P os t ctx freshId args stdin script =
      startjobIn P os (invokeSession os freshId ctx args.newSession).1
        (invokeSession os freshId ctx args.newSession).2 t args stdin script := rfl

theorem startjob_loads {t : FileTree} {ctx : Context} {freshId : Str} {args : StartjobArgs}
    {stdin : List Str} {script : Launch → ScriptRun}
    (h : (startjob P os t ctx freshId args stdin script).exitStatus = 0) :
    ∃ job, loadJob P os t ctx args.jobName = .ok job := by
  have hBase := invokeSession_baseDir os freshId ctx args.newSession
  rw [startjob_eq] at h
  obtain ⟨_, hStop⟩ | ⟨job, _, _, _, hLoad, _⟩ := startjobIn_cases P os
    (invokeSession os freshId ctx args.newSession).1 (invokeSession os freshId ctx args.newSession).2
    t args stdin script
  · rw [hStop] at h
    cases h
  · exact ⟨job, (loadJob_congr hBase t _).symm.trans hLoad⟩

/-- What a successful run has printed last, and the process it leaves behind. -/
theorem startjob_success {t : FileTree} {ctx : Context} {freshId : Str} {args : StartjobArgs}
    {stdin : List Str} {script : Launch → ScriptRun}
    (h : (startjob P os t ctx freshId args stdin script).exitStatus = 0) :
    ∃ (lines : List Str) (started : Str) (ctx' : Context),
      (startjob P os t ctx freshId args stdin script).stdout = lines ++ [started, exitCodeText
        ((startjob P os t ctx freshId args stdin script).recorded.getD (-1))] ∧
      (startjob P os t ctx freshId args stdin script).maintenance =
        some (spawnMaintenance os ctx' args.jobName) := by
  rw [startjob_eq] at h ⊢
  obtain ⟨_, hStop⟩ | ⟨_, asked, _, run, _, _, _, ⟨e, _, hFailed⟩ | ⟨_, hFinish⟩⟩ :=
    startjobIn_cases P os (invokeSession os freshId ctx args.newSession).1
      (invokeSession os freshId ctx args.newSession).2 t args stdin script
  · rw [hStop] at h
    cases h
  · rw [hFailed] at h
    cases h
  · rw [hFinish] at h ⊢
    unfold finishBuild at h ⊢
    split at h
    · cases h
    dsimp only at h ⊢
    split at h
    · cases h
    · exact ⟨_, _, _, rfl, rfl⟩

/-- The environment of a launched script is the context's, with the build in it. -/
theorem startjob_launch {t : FileTree} {ctx : Context} {freshId : Str} {args : StartjobArgs}
    {stdin : List Str} {script : Launch → ScriptRun} {launch : Launch}
    (h : (startjob P os t ctx freshId args stdin script).launch = some launch) :
    ∃ n, (startjob P os t ctx freshId args stdin script).build = some n ∧
      launch.env =
        (exportBuild os (invokeSession os freshId ctx args.newSession).2 args.jobName n).env := by
  rw [startjob_eq] at h ⊢
  obtain ⟨_, hStop⟩ | ⟨_, asked, _, run, hLoad, _, hRun, hEnd⟩ :=
    startjobIn_cases P os (invokeSession os freshId ctx args.newSession).1
      (invokeSession os freshId ctx args.newSession).2 t args stdin script
  · rw [hStop] at h
    cases h
  · have hLaunch : run.launch = some launch → ∃ n, run.handle = some n ∧ launch.env =
        (exportBuild os (invokeSession os freshId ctx args.newSession).2 args.jobName n).env := by
      intro hSome
      rw [hRun] at hSome ⊢
      obtain ⟨n, _, hHandle, hEnv, _⟩ := runBuild_launch P os (loadJob_placed hLoad) t _ _ _ _ _ hSome
      exact ⟨n, hHandle, hEnv⟩
    obtain ⟨e, _, hFailed⟩ | ⟨_, hFinish⟩ := hEnd
    · rw [hFailed] at h ⊢
      exact hLaunch h
    · rw [hFinish] at h ⊢
      obtain ⟨hFinishBuild, hFinishLaunch, _⟩ := finishBuild_effect P os
        (exportBuild os (invokeSession os freshId ctx args.newSession).2 args.jobName
          (run.handle.getD 0)) (invokeSession os freshId ctx args.newSession).1 args.jobName
        (run.handle.getD 0) ([(invokeSession os freshId ctx args.newSession).1.sessionId] ++ asked) run
      rw [hFinishBuild]
      exact hLaunch (hFinishLaunch.symm.trans h)

/-- The run of a process that joined its session and takes the parameters from there. -/
theorem startjob_joined {sessionId : Str} (hId : sessionId ≠ [])
    (hJoined : os.getEnvVar "session_id" = sessionId) {t : FileTree} {ctx : Context}
    {args : StartjobArgs} (hNew : args.newSession = false) (hParams : args.params = none) {job : Job}
    (hLoad : loadJob P os t ctx args.jobName = .ok job) (freshId : Str) (stdin : List Str)
    (script : Launch → ScriptRun) :
    ∃ (env : Nat → SortedMap Str Str) (run : BuildRun) (program : FsPath),
      (∀ n, (env n).find "job_name" = some args.jobName ∧
        (env n).find "build_number" = some (numberString n)) ∧
      run = job.runBuild P os t ctx ⟨sessionId, false⟩
        (prepareParams P os t ctx ⟨sessionId, false⟩ job.config.params).1 env args.force script ∧
      (startjob P os t ctx freshId args stdin script).build = run.handle ∧
      (startjob P os t ctx freshId args stdin script).launch = run.launch ∧
      FileTree.SameOutside (· = sessionDat ctx ⟨sessionId, false⟩) run.tree
        (startjob P os t ctx freshId args stdin script).tree ∧
      ((startjob P os t ctx freshId args stdin script).exitStatus = 0 ↔ run.ec = none ∧
        (publishBuild P os run.tree ctx ⟨sessionId, false⟩ args.jobName
          (run.handle.getD 0)).2 = none ∧ os.spawnFault program = none) := by
  have hBase := invokeSession_baseDir os freshId ctx false
  have hSession := invokeSession_joined hId hJoined freshId ctx
  rcases hInvoke : invokeSession os freshId ctx false with ⟨session, ctx'⟩
  rw [hInvoke] at hBase hSession
  change ctx'.baseDir = ctx.baseDir at hBase
  obtain rfl : session = ⟨sessionId, false⟩ := hSession
  have hChoose : chooseParams P os t ctx' ⟨sessionId, false⟩ args stdin job.config.params =
      ([], some (prepareParams P os t ctx ⟨sessionId, false⟩ job.config.params).1) := by
    rw [← prepareParams_congr hBase]
    simp only [chooseParams, hParams, Bool.false_eq_true, false_and, and_false, if_false]
    split_ifs with hNone
    · rfl
    · rw [not_not.mp hNone, prepareParams_nil]
  have hLoad' : loadJob P os t ctx' args.jobName = .ok job := (loadJob_congr hBase t _).trans hLoad
  obtain ⟨run, hRun⟩ : ∃ run, run = job.runBuild P os t ctx ⟨sessionId, false⟩
      (prepareParams P os t ctx ⟨sessionId, false⟩ job.config.params).1
      (fun number => (exportBuild os ctx' args.jobName number).env) args.force script := ⟨_, rfl⟩
  refine ⟨_, run, (spawnMaintenance os (exportBuild os ctx' args.jobName (run.handle.getD 0))
    args.jobName).executable, fun n => find_exportBuild os ctx' _ n, hRun, ?_⟩
  simp only [startjob, hNew, hInvoke, startjobIn, hLoad', hChoose, runBuild_congr P os job t hBase,
    ← hRun]
  split
  · rename_i e hEc
    exact ⟨rfl, rfl, FileTree.SameOutside.refl _ _, by simp [hEc]⟩
  · rename_i hEc
    obtain ⟨hBuild, hLaunch, _, hTree⟩ := finishBuild_effect P os (exportBuild os ctx' args.jobName
      (run.handle.getD 0)) ⟨sessionId, false⟩ args.jobName _ _ _
    refine ⟨hBuild, hLaunch, ?_, ?_⟩
    · simpa only [sessionDat, exportBuild_baseDir, hBase] using hTree
    · have hBuildBase : ∀ number, (exportBuild os ctx' args.jobName number).baseDir = ctx.baseDir :=
        fun number => (exportBuild_baseDir os ctx' args.jobName number).trans hBase
      rw [finishBuild_exitStatus, publishBuild_congr P os (hBuildBase _)]
      simp [hEc]

end Spec

end CisCore
