import CisCore.Job.Execute

/-! # A build from preparation to exit status

The part of `startjob` that works in the job directory. Whatever happens, it
touches the directory of one number, and when it reports no error that
directory is new and holds the exit status and the session of the build.
-/

namespace CisCore

structure BuildRun where
  tree : FileTree
  /-- The number of a prepared build. -/
  handle : Option Nat
  launch : Option Launch
  /-- The exit status that was recorded. -/
  recorded : Option Int32
  ec : Ec

section Model

variable (P : ProtoUtils) (os : Os)

/-- `prepareBuild` and, with a valid handle, `execute` in an environment that
names the build. -/
def Job.runBuild (job : Job) (t : FileTree) (ctx : Context) (session : Session)
    (params : List (Str × Str)) (env : Nat → SortedMap Str Str) (force : Bool)
    (script : Launch → ScriptRun) : BuildRun :=
  match job.prepareBuild P os t ctx session params with
  | (t, _, _, some e) => ⟨t, none, none, none, some e⟩
  | (t, job, handle, none) =>
    -- a handle that comes without an error is valid
    let number := handle.getD 0
    let run := job.execute os t (env number) number force script (-1)
    match run.ec with
    | some e => ⟨run.tree, handle, run.launch, none, some e⟩
    | none => ⟨run.tree, handle, run.launch, some run.exitCode, none⟩

end Model

theorem runBuild_congr (P : ProtoUtils) (os : Os) (job : Job) (t : FileTree) {ctx ctx' : Context}
    (h : ctx'.baseDir = ctx.baseDir) (session : Session) (params : List (Str × Str))
    (env : Nat → SortedMap Str Str) (force : Bool) (script : Launch → ScriptRun) :
    job.runBuild P os t ctx' session params env force script =
      job.runBuild P os t ctx session params env force script := by
  simp only [Job.runBuild, Job.prepareBuild, Job.prepareBuildWith, Job.fillBuildDir, buildDir, jobPath, h]

section Spec

variable (P : ProtoUtils) (os : Os) {job : Job} {ctx : Context} (hPlaced : job.Placed ctx)
  (t : FileTree) (session : Session) (params : List (Str × Str)) (env : Nat → SortedMap Str Str)
  (force : Bool) (script : Launch → ScriptRun)
include hPlaced

theorem runBuild_cases :
    (∃ e, job.runBuild P os t ctx session params env force script =
      ⟨(job.prepareBuild P os t ctx session params).1, none, none, none, some e⟩) ∨
    ∃ t₁ job' n, n = nextBuildNumber t (jobPath ctx job.name) ∧
      job.prepareBuild P os t ctx session params = (t₁, job', some n, none) ∧
      job'.builds.pending.find n = some (buildDir ctx job.name n) ∧
      job.runBuild P os t ctx session params env force script =
        ⟨(job'.execute os t₁ (env n) n force script (-1)).tree, some n,
          (job'.execute os t₁ (env n) n force script (-1)).launch,
          if (job'.execute os t₁ (env n) n force script (-1)).ec = none then
            some (job'.execute os t₁ (env n) n force script (-1)).exitCode else none,
          (job'.execute os t₁ (env n) n force script (-1)).ec⟩ := by
  have hHandle := prepareBuild_handle_iff P os job t ctx session params
  unfold Job.runBuild
  rcases hPrepare : job.prepareBuild P os t ctx session params with ⟨t₁, job', handle, _ | e⟩
  · right
    rw [hPrepare] at hHandle
    obtain ⟨n, rfl⟩ := Option.ne_none_iff_exists'.mp (hHandle.mpr rfl)
    obtain ⟨_, _, hNumber, _⟩ := prepareBuild_handle hPrepare
    refine ⟨t₁, job', n, hNumber, rfl, prepareBuild_pending hPlaced hPrepare, ?_⟩
    simp only [Option.getD_some]
    split
    · rename_i e hEc
      simp [hEc]
    · rename_i hEc
      simp [hEc]
  · exact Or.inl ⟨e, rfl⟩

theorem runBuild_sameOutside :
    FileTree.SameOutside
      (buildDir ctx job.name (nextBuildNumber t (jobPath ctx job.name)) <:+ ·) t
      (job.runBuild P os t ctx session params env force script).tree := by
  have hPrepareFrame := prepareBuild_sameOutside P os job t ctx session params
  rcases runBuild_cases P os hPlaced t session params env force script with
    ⟨e, hRun⟩ | ⟨t₁, job', n, rfl, hPrepare, hPending, hRun⟩
  · rw [hRun]
    exact hPrepareFrame
  · rw [hPrepare] at hPrepareFrame
    rw [hRun]
    exact hPrepareFrame.trans (execute_sameOutside os hPending t₁ _ force script (-1)).below

theorem runBuild_recorded {e : Int32}
    (h : (job.runBuild P os t ctx session params env force script).recorded = some e) :
    ∃ n, n = nextBuildNumber t (jobPath ctx job.name) ∧
      (job.runBuild P os t ctx session params env force script).handle = some n ∧
      (job.runBuild P os t ctx session params env force script).ec = none ∧
      (t.find (buildDir ctx job.name n) = none ∨
        t.find (buildDir ctx job.name n) = some .directory) ∧
      (job.runBuild P os t ctx session params env force script).tree.find
        (buildDir ctx job.name n) = some .directory ∧
      (job.runBuild P os t ctx session params env force script).tree.content
        (buildDir ctx job.name n / "exitcode.txt") = some (exitcodeText e) ∧
      (job.runBuild P os t ctx session params env force script).tree.content
        (buildDir ctx job.name n / "session_id.txt") = some (sessionIdText session) := by
  rcases runBuild_cases P os hPlaced t session params env force script with
    ⟨e, hRun⟩ | ⟨t₁, job', n, hNumber, hPrepare, hPending, hRun⟩
  · rw [hRun] at h
    cases h
  · rw [hRun] at h ⊢
    obtain ⟨hBefore, hDir, _, hSession⟩ := prepareBuild_files hPrepare
    have hClear : (job'.execute os t₁ (env n) n force script (-1)).ec = none := by
      by_contra hEc
      simp [hEc] at h
    simp only [hClear, if_true, Option.some.injEq] at h
    obtain ⟨_, e', _, _, hExit, hExitcode, hKept⟩ := execute_clear hPending hClear
    obtain rfl := hExit.symm.trans h
    have hFrame := execute_sameOutside os hPending t₁ (env n) force script (-1)
    refine ⟨n, hNumber, rfl, hClear, hBefore, ?_, hExitcode, ?_⟩
    · exact (hFrame _ fun hInside => hInside.2 rfl).trans hDir
    · exact (hKept _ (by simp) (by simp)).trans hSession

theorem runBuild_launch {launch : Launch}
    (h : (job.runBuild P os t ctx session params env force script).launch = some launch) :
    ∃ n, n = nextBuildNumber t (jobPath ctx job.name) ∧
      (job.runBuild P os t ctx session params env force script).handle = some n ∧
      launch.env = env n ∧ launch.workingDir = buildDir ctx job.name n ∧
      FileTree.SameOutside (buildDir ctx job.name n <:+ ·) t launch.tree ∧
      launch.tree.content (buildDir ctx job.name n / "job.params") =
        some (P.encodedLines params) := by
  have hPrepareFrame := prepareBuild_sameOutside P os job t ctx session params
  rcases runBuild_cases P os hPlaced t session params env force script with
    ⟨e, hRun⟩ | ⟨t₁, job', n, hNumber, hPrepare, hPending, hRun⟩
  · rw [hRun] at h
    cases h
  · rw [hRun] at h ⊢
    rw [hPrepare, ← hNumber] at hPrepareFrame
    obtain ⟨_, _, hParams, _⟩ := prepareBuild_files hPrepare
    obtain ⟨hEnv, hWorkingDir, hFrame, hContent⟩ := execute_launch os hPending h
    exact ⟨n, hNumber, rfl, hEnv, hWorkingDir, hPrepareFrame.trans hFrame.below,
      (hContent _ (by simp)).trans hParams⟩

theorem runBuild_clear (h : (job.runBuild P os t ctx session params env force script).ec = none) :
    (job.runBuild P os t ctx session params env force script).launch ≠ none := by
  rcases runBuild_cases P os hPlaced t session params env force script with
    ⟨e, hRun⟩ | ⟨t₁, job', n, hNumber, hPrepare, hPending, hRun⟩
  · rw [hRun] at h
    cases h
  · rw [hRun] at h ⊢
    intro hNone
    exact execute_not_launched os hPending hNone h

end Spec

/-! ### Progress -/

theorem fillBuildDir_completes (P : ProtoUtils) {os : Os} (hOs : os.Faultless) {job : Job}
    {t : FileTree} {ctx : Context} (session : Session) (params : List (Str × Str)) {n : Nat}
    {script conf : Str} {executable confExecutable : Bool}
    (hName : job.config.script ≠ "job.conf".toList)
    (hScript : t.find (jobPath ctx job.name / job.config.script) = some (.file script executable))
    (hConf : t.find (jobPath ctx job.name / "job.conf") = some (.file conf confExecutable))
    (hDir : t.find (buildDir ctx job.name n) = some .directory)
    (hNew : ∀ name : Str, t.find (buildDir ctx job.name n / name) = none) :
    ∃ t', job.fillBuildDir P os os.copy t ctx session params n = (t', none) ∧
      t'.FilesOnly (buildDir ctx job.name n) := by
  have hWrite : ∀ (u : FileTree) (name text : Str), u.FilesOnly (buildDir ctx job.name n) →
      os.writeFile u (buildDir ctx job.name n / name) text =
        some (u.write (buildDir ctx job.name n / name) text) := fun u name text hu =>
    Os.writeFile_faultless hOs text (FileTree.isDirectory_iff.mpr hu.1) (hu.2 name)
  have hOutside : FileTree.SameOutside (buildDir ctx job.name n <:+ ·) t _ :=
    FileTree.SameOutside.insert (q := buildDir ctx job.name n / job.config.script)
      (FileTree.suffix_child _ _) t (.file script executable)
  have hFiles : t.FilesOnly (buildDir ctx job.name n) :=
    ⟨hDir, fun name => by rw [hNew name]; simp⟩
  have hCopyScript := Os.copy_faultless hOs hScript (hNew job.config.script)
    (FileTree.isDirectory_iff.mpr hDir)
  have hFiles₁ := hFiles.insert job.config.script script executable
  have hNoConf₁ : SortedMap.find (SortedMap.insert t (buildDir ctx job.name n / job.config.script)
      (.file script executable)) (buildDir ctx job.name n / "job.conf".toList) = none :=
    (SortedMap.find_insert_of_ne t _ fun hEq => hName (List.cons.inj hEq).1.symm).trans (hNew _)
  generalize SortedMap.insert t (buildDir ctx job.name n / job.config.script)
    (.file script executable) = t₁ at hCopyScript hFiles₁ hNoConf₁ hOutside
  have hParams := hWrite t₁ "job.params".toList (P.encodedLines params) hFiles₁
  have hFiles₂ := hFiles₁.write "job.params".toList (P.encodedLines params)
  have hOutside₂ := hOutside.trans (FileTree.SameOutside.write
    (FileTree.suffix_child (buildDir ctx job.name n) "job.params".toList) t₁ (P.encodedLines params))
  have hParamsName : buildDir ctx job.name n / "job.conf".toList ≠
      buildDir ctx job.name n / "job.params".toList := fun hEq =>
    absurd (List.cons.inj hEq).1 (by decide)
  have hNoConf₂ := (FileTree.find_write_of_ne (P.encodedLines params) hParamsName).trans hNoConf₁
  generalize FileTree.write t₁ (buildDir ctx job.name n / "job.params".toList) (P.encodedLines params) = t₂
    at hParams hFiles₂ hNoConf₂ hOutside₂
  have hConf₂ : t₂.find (jobPath ctx job.name / "job.conf") = some (.file conf confExecutable) :=
    (hOutside₂ _ (not_buildDir_suffix_jobConf ctx job.name n)).trans hConf
  have hCopyConf := Os.copy_faultless hOs hConf₂ hNoConf₂ (FileTree.isDirectory_iff.mpr hFiles₂.1)
  have hFiles₃ := hFiles₂.insert "job.conf".toList conf confExecutable
  generalize SortedMap.insert t₂ (buildDir ctx job.name n / "job.conf".toList)
    (.file conf confExecutable) = t₃ at hCopyConf hFiles₃
  have hSession := hWrite t₃ "session_id.txt".toList (sessionIdText session) hFiles₃
  refine ⟨_, ?_, hFiles₃.write "session_id.txt".toList (sessionIdText session)⟩
  simp only [FileTree.div_str, FileTree.div_string] at hCopyScript hParams hCopyConf hSession
  simp only [Job.fillBuildDir, FileTree.div_str, FileTree.div_string, hCopyScript, hParams,
    hCopyConf, hSession]

theorem fillBuildDir_executable {P : ProtoUtils} {os : Os} {job : Job} {t t' : FileTree}
    {ctx : Context} {session : Session} {params : List (Str × Str)} {n : Nat} {script : Str}
    (h : job.fillBuildDir P os os.copy t ctx session params n = (t', none))
    (hName : job.config.script ≠ "job.conf".toList)
    (hScript : t.find (jobPath ctx job.name / job.config.script) = some (.file script true)) :
    t'.ExecutableFile (buildDir ctx job.name n / job.config.script) := by
  obtain ⟨t₁, t₂, t₃, node, conf, hSource, _, rfl, rfl, rfl, rfl⟩ := fillBuildDir_clear h
  obtain rfl := Option.some.inj (hSource.symm.trans hScript)
  have hCopied : FileTree.ExecutableFile (SortedMap.insert t
      (buildDir ctx job.name n / job.config.script) (.file script true))
      (buildDir ctx job.name n / job.config.script) := ⟨script, SortedMap.find_insert_self t _ _⟩
  have hOther : buildDir ctx job.name n / job.config.script ≠
      buildDir ctx job.name n / "job.conf".toList := fun hEq => hName (List.cons.inj hEq).1
  exact ((hCopied.write _ _).insert hOther _).write _ _

theorem prepareBuild_completes (P : ProtoUtils) {os : Os} (hOs : os.Faultless) {job : Job}
    {t : FileTree} {ctx : Context} (session : Session) (params : List (Str × Str)) {n : Nat}
    (hNumber : n = nextBuildNumber t (jobPath ctx job.name))
    {script conf : Str} {executable confExecutable : Bool}
    (hName : job.config.script ≠ "job.conf".toList)
    (hScript : t.find (jobPath ctx job.name / job.config.script) = some (.file script executable))
    (hConf : t.find (jobPath ctx job.name / "job.conf") = some (.file conf confExecutable))
    (hJob : t.isDirectory (jobPath ctx job.name) = true)
    (hFresh : ∀ q, buildDir ctx job.name n <:+ q → t.find q = none) :
    ∃ t₁ t' job', job.prepareBuild P os t ctx session params = (t', job', some n, none) ∧
      job.fillBuildDir P os os.copy t₁ ctx session params n = (t', none) ∧
      t₁.find (jobPath ctx job.name / job.config.script) = some (.file script executable) ∧
      t'.FilesOnly (buildDir ctx job.name n) := by
  have hCreate := Os.createDirectory_faultless hOs (p := buildDir ctx job.name n) hJob
    (hFresh _ List.suffix_rfl)
  have hFrame : FileTree.SameOutside (buildDir ctx job.name n <:+ ·) t _ :=
    FileTree.SameOutside.insert (q := buildDir ctx job.name n) List.suffix_rfl t .directory
  have hNew : ∀ name : Str, SortedMap.find (SortedMap.insert t (buildDir ctx job.name n) .directory)
      (buildDir ctx job.name n / name) = none := by
    intro name
    rw [SortedMap.find_insert_of_ne t _ (FileTree.inside_child _ name).2]
    exact hFresh _ (FileTree.suffix_child _ name)
  have hOutside : ¬buildDir ctx job.name n <:+ (jobPath ctx job.name / job.config.script) := by
    intro hInside
    rw [hFresh _ hInside] at hScript
    cases hScript
  obtain ⟨t', hFill, hFiles⟩ := fillBuildDir_completes P hOs session params hName
    ((hFrame _ hOutside).trans hScript)
    ((hFrame _ (not_buildDir_suffix_jobConf ctx job.name n)).trans hConf)
    (SortedMap.find_insert_self t _ _) hNew
  refine ⟨_, t', { job with builds := { job.builds with
    pending := job.builds.pending.emplace n (buildDir ctx job.name n) } }, ?_, hFill,
    (hFrame _ hOutside).trans hScript, hFiles⟩
  simp only [Job.prepareBuild, Job.prepareBuildWith, ← hNumber, hCreate, hFill]

theorem recordExitcode_faultless {os : Os} (hOs : os.Faultless) {t : FileTree} {dir : FsPath}
    (h : t.FilesOnly dir) (status : Int32) : (recordExitcode os t dir status).2 = none := by
  have hWrite : os.writeFile t (dir / "exitcode.txt") (exitcodeText status) =
      some (t.write (dir / "exitcode.txt") (exitcodeText status)) :=
    Os.writeFile_faultless hOs _ (FileTree.isDirectory_iff.mpr h.1) (h.2 _)
  rw [recordExitcode, hWrite]

theorem execute_faultless {os : Os} (hOs : os.Faultless) {job : Job} {number : Nat} {dir : FsPath}
    (hDir : job.builds.pending.find number = some dir) {t : FileTree} (hFiles : t.FilesOnly dir)
    (hScript : t.ExecutableFile (dir / job.config.script)) (env : SortedMap Str Str) (force : Bool)
    {script : Launch → ScriptRun} (hStatus : ∀ launch, (script launch).status ≠ none)
    (exitCode : Int32) : (job.execute os t env number force script exitCode).ec = none := by
  have hParent : ∀ (u : FileTree) (name : Str), u.FilesOnly dir →
      u.isDirectory (dir / name).tail = true := fun u name hu => FileTree.isDirectory_iff.mpr hu.1
  have hEnsure : ensureExecutable os t (dir / job.config.script) force = (t, none) := by
    rw [ensureExecutable, Os.isExecutable_faultless hOs hScript]
  have hOpen : os.openOfstream t (dir / "output.txt") = some (t.write (dir / "output.txt") []) :=
    Os.openOfstream_faultless hOs (hParent t "output.txt".toList hFiles) (hFiles.2 _)
  have hFiles' : FileTree.FilesOnly (exitTree dir t (script (launchOf env dir t)).output) dir :=
    hFiles.write "output.txt".toList _
  obtain ⟨e, hExit⟩ := Option.ne_none_iff_exists'.mp (hStatus (launchOf env dir t))
  simp only [Job.execute, hDir, Option.getD_some, hEnsure, hOpen, FileTree.overwrite_write_nil]
  change (onExit os (exitTree dir t (script (launchOf env dir t)).output) dir exitCode
    (script (launchOf env dir t)).status).2.1 = none
  rw [hExit, onExit]
  exact recordExitcode_faultless hOs hFiles' e

theorem runBuild_faultless (P : ProtoUtils) {os : Os} (hOs : os.Faultless) {job : Job}
    {t : FileTree} {ctx : Context} (hPlaced : job.Placed ctx) (session : Session)
    (params : List (Str × Str)) (env : Nat → SortedMap Str Str) (force : Bool)
    {script : Launch → ScriptRun} (hStatus : ∀ launch, (script launch).status ≠ none)
    {scriptText conf : Str} {confExecutable : Bool} (hName : job.config.script ≠ "job.conf".toList)
    (hScript : t.find (jobPath ctx job.name / job.config.script) = some (.file scriptText true))
    (hConf : t.find (jobPath ctx job.name / "job.conf") = some (.file conf confExecutable))
    (hJob : t.isDirectory (jobPath ctx job.name) = true)
    (hFresh : ∀ q, buildDir ctx job.name (nextBuildNumber t (jobPath ctx job.name)) <:+ q →
      t.find q = none) :
    (job.runBuild P os t ctx session params env force script).ec = none := by
  obtain ⟨t₁, t', job', hPrepared, hFill, hSource, hFiles⟩ := prepareBuild_completes P hOs session
    params rfl hName hScript hConf hJob hFresh
  have hExecutable := fillBuildDir_executable hFill hName hSource
  have hPending := prepareBuild_pending hPlaced hPrepared
  have hConfig : job'.config = job.config := by
    obtain ⟨_, _, _, _, _, _, rfl⟩ := prepareBuild_handle hPrepared
    rfl
  have hEc := execute_faultless hOs hPending hFiles (hConfig ▸ hExecutable)
    (env (nextBuildNumber t (jobPath ctx job.name))) force hStatus (-1)
  simp only [Job.runBuild, hPrepared, Option.getD_some, hEc]

end CisCore
