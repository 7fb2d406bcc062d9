import CisCore.Parameters.CommandLine
import CisCore.Parameters.Colon
import CisCore.Script.ExitCode
import CisCore.Script.Tools

/-! # Jobs that scripts start

A script hands parameters to a job through its session, starts it and finds
there which build it was. In between it keeps what else it has set. The
maintenance processes that the builds leave behind run when they like.
-/

namespace CisCore

open Machine

structure StartjobCall where
  process : Process
  args : StartjobArgs
  stdin : List Str
  script : Launch → ScriptRun

inductive ScriptAction where
  | tool (c : ToolCall)
  | job (c : StartjobCall)
  /-- The maintenance process of an earlier build. -/
  | maintenance (process : Process) (jobName : Str)

inductive ScriptAnswer where
  | tool (stdout : Str) (exitStatus : Nat)
  | job (r : StartjobResult)
  | maintenance (stdout : List Str) (exitStatus : Nat)

section Model

variable (P : ProtoUtils) (version : Version)

/-- The process that is spawned at the end runs later, as an action of its own. -/
def StartjobCall.run (t : FileTree) (c : StartjobCall) : StartjobResult :=
  startjobProcess P c.process t c.args c.stdin c.script

def ScriptAction.run (t : FileTree) : ScriptAction → FileTree × ScriptAnswer
  | .tool c => ((c.run P version t).1, .tool (c.run P version t).2.1 (c.run P version t).2.2)
  | .job c => ((c.run P t).tree, .job (c.run P t))
  | .maintenance p jobName => ((maintenanceProcess P p t jobName).1,
      .maintenance (maintenanceProcess P p t jobName).2.1 (maintenanceProcess P p t jobName).2.2)

/-- The parameters of a job whose own ones are declared. -/
def SessionView.jobParams (s : SessionView) (words : Option (List Str)) (declared : List (Str × Str)) :
    List (Str × Str) :=
  match words with
  | none => overrideParams s.params declared
  | some words => overrideParams (preparedParams words) declared

/-- A build was the last one of the session. -/
def SessionView.published (s : SessionView) (jobName : Str) (number : Nat) : SessionView :=
  ⟨(s.values.insert "last_job_name" jobName).insert "last_job_build_number" (numberString number),
    s.params⟩

/-- A script that is launched finds these parameters in its build. -/
def SessionView.Passes (t₀ : FileTree) (baseDir : FsPath) (s : SessionView) (c : StartjobCall)
    (r : StartjobResult) : Prop :=
  ∀ launch, r.launch = some launch → ∃ declared,
    loadParams P c.process.os t₀ (baseDir / "jobs" / c.args.jobName) = .ok declared ∧
      launch.tree.content (launch.workingDir / "job.params") =
        some (P.encodedLines (s.jobParams c.args.params declared))

/-- What a session makes of the actions of its scripts. -/
inductive SessionView.Tells (t₀ : FileTree) (baseDir : FsPath)
    (build : Process → SortedMap Str Str) (s : SessionView) :
    ScriptAction → ScriptAnswer → SessionView → Prop
  | tool (c : ToolCall) : Tells t₀ baseDir build s (.tool c)
      (.tool (s.call version build c).2.1 (s.call version build c).2.2) (s.call version build c).1
  | finished {c : StartjobCall} {r : StartjobResult} {n : Nat} (success : r.exitStatus = 0)
      (numbered : r.build = some n) (launched : r.launch ≠ none) (passes : s.Passes P t₀ baseDir c r) :
      Tells t₀ baseDir build s (.job c) (.job r) (s.published c.args.jobName n)
  | failed {c : StartjobCall} {r : StartjobResult} (failure : r.exitStatus ≠ 0)
      (passes : s.Passes P t₀ baseDir c r) : Tells t₀ baseDir build s (.job c) (.job r) s
  | maintained (p : Process) (jobName : Str) (stdout : List Str) (exitStatus : Nat) :
      Tells t₀ baseDir build s (.maintenance p jobName) (.maintenance stdout exitStatus) s

def siteBuild (baseDir : FsPath) (jobName : Str) (number : Nat) : FsPath :=
  baseDir / "jobs" / jobName / numberString number

def BuildFile (baseDir q : FsPath) : Prop := ∃ jobName n, siteBuild baseDir jobName n <:+ q

/-- A build without an exit status, such as the one a script belongs to. -/
structure OpenBuild (t : FileTree) (baseDir : FsPath) (jobName : Str) (n : Nat) : Prop where
  numbered : n < 1000000
  directory : t.isDirectory (siteBuild baseDir jobName n) = true
  pending : recordedStatus t (siteBuild baseDir jobName n) = .pending

/-- The files of the session hold the two maps. The open builds are left alone,
and nothing but builds has come or gone. -/
structure SessionView.StandsAmong (t₀ : FileTree) (baseDir : FsPath) (sessionId : Str) (t : FileTree)
    (s : SessionView) : Prop where
  values : Stores P t (valuesFile baseDir sessionId) s.values
  params : Stores P t (paramsFile baseDir sessionId) s.params
  builds : ∀ jobName n, OpenBuild t₀ baseDir jobName n →
    ∀ q, siteBuild baseDir jobName n <:+ q → t.find q = t₀.find q
  frame : FileTree.SameOutside (fun q => SessionFile baseDir sessionId q ∨ BuildFile baseDir q) t₀ t

/-- The script of an open build calls a tool or starts a job in the session, or a job is
maintained. -/
def ScriptAction.Allowed (t₀ : FileTree) (baseDir : FsPath) (sessionId : Str)
    (build : Process → SortedMap Str Str) : ScriptAction → Prop
  | .tool c => c.Allowed P t₀ baseDir sessionId build ∧ ∃ jobName n,
      OpenBuild t₀ baseDir jobName n ∧
      buildParamsFile baseDir c.process = siteBuild baseDir jobName n / "job.params"
  | .job c => Serves P c.process t₀ baseDir sessionId ∧ c.args.newSession = false ∧
      '\r' ∉ c.args.jobName
  | .maintenance p _ => Serves P p t₀ baseDir sessionId

end Model

variable {P : ProtoUtils} {version : Version} {t₀ t : FileTree} {baseDir : FsPath} {sessionId : Str}
  {build : Process → SortedMap Str Str} {s : SessionView}

/-! ### Files apart from the builds -/

theorem siteBuild_inj {jobName jobName' : Str} {n m : Nat} {q : FsPath}
    (h : siteBuild baseDir jobName n <:+ q) (h' : siteBuild baseDir jobName' m <:+ q) :
    jobName = jobName' ∧ n = m := by
  have hSame := (List.suffix_of_suffix_length_le h h' le_rfl).eq_of_length rfl
  obtain ⟨hNumber, hPath⟩ := List.cons.inj hSame
  exact ⟨(List.cons.inj hPath).1, numberString_injective hNumber⟩

theorem siteBuild_length {jobName : Str} {n : Nat} {q : FsPath} (h : siteBuild baseDir jobName n <:+ q) :
    baseDir.length + 3 ≤ q.length := h.length_le

theorem not_buildFile_of_length {q : FsPath} (h : q.length < baseDir.length + 3) :
    ¬BuildFile baseDir q := by
  rintro ⟨jobName, n, hBelow⟩
  have hLength := siteBuild_length hBelow
  omega

theorem not_buildFile_jobFile {name : Str} {c : Char} (hc : c ∈ name) (hDigit : c.isDigit = false)
    (jobName : Str) : ¬BuildFile baseDir (baseDir / "jobs" / jobName / name) := by
  rintro ⟨jobName', n, hBelow⟩
  have hEq := List.IsSuffix.eq_of_length hBelow rfl
  exact numberString_ne hc hDigit n (List.cons.inj hEq).1

theorem not_sessionFile_of_length {q : FsPath} (h : q.length ≠ baseDir.length + 2) :
    ¬SessionFile baseDir sessionId q := fun hFile => h hFile.length

theorem SessionFile.not_build {q : FsPath} (h : SessionFile baseDir sessionId q) :
    ¬BuildFile baseDir q := by
  apply not_buildFile_of_length
  rw [h.length]
  omega

namespace SessionView.StandsAmong

variable (h : s.StandsAmong P t₀ baseDir sessionId t)
include h

theorem serves {p : Process} (hServes : Serves P p t₀ baseDir sessionId) :
    Serves P p t baseDir sessionId := by
  obtain ⟨ctx, hContext, rfl⟩ := hServes.context
  refine ⟨hServes.faultless, hServes.joined, ctx, ?_, rfl⟩
  rw [initContext_congr (initContext_baseDir hContext), hContext]
  · apply h.frame
    rw [not_or]
    exact ⟨not_sessionFile_of_length (by omega), not_buildFile_of_length (by omega)⟩
  · apply h.frame
    rw [not_or]
    exact ⟨fun hFile => hFile.ne_core _ rfl, not_buildFile_of_length (by simp)⟩

theorem sessions (hSessions : t₀.isDirectory (baseDir / "sessions") = true) :
    t.isDirectory (baseDir / "sessions") = true := by
  rw [FileTree.isDirectory, h.frame]
  · exact hSessions
  · rw [not_or]
    exact ⟨not_sessionFile_of_length (by simp), not_buildFile_of_length (by simp)⟩

/-- What a tool changes. -/
theorem of_tool {t' : FileTree} {s' : SessionView} (hTool : s'.Stands P t baseDir sessionId t') :
    s'.StandsAmong P t₀ baseDir sessionId t' where
  values := hTool.values
  params := hTool.params
  builds jobName n hOpen q hBelow := by
    rw [hTool.frame q fun hFile => hFile.not_build ⟨jobName, n, hBelow⟩]
    exact h.builds jobName n hOpen q hBelow
  frame := h.frame.trans (hTool.frame.mono fun _ hFile => Or.inl hFile)

/-- What a build changes. -/
theorem of_build {jobName : Str} {t' : FileTree}
    (hFrame : FileTree.SameOutside
      (siteBuild baseDir jobName (nextBuildNumber t (baseDir / "jobs" / jobName)) <:+ ·) t t') :
    s.StandsAmong P t₀ baseDir sessionId t' where
  values := h.values.congr (hFrame _ fun hBelow =>
    SessionFile.not_build (Or.inl rfl) ⟨jobName, _, hBelow⟩)
  params := h.params.congr (hFrame _ fun hBelow =>
    SessionFile.not_build (Or.inr rfl) ⟨jobName, _, hBelow⟩)
  builds jobName' n hOpen q hBelow := by
    rw [hFrame q, h.builds jobName' n hOpen q hBelow]
    intro hNew
    obtain ⟨rfl, hNumber⟩ := siteBuild_inj hBelow hNew
    have hDir : t.isDirectory (siteBuild baseDir jobName' n) = true := by
      rw [FileTree.isDirectory, h.builds jobName' n hOpen _ List.suffix_rfl]
      exact hOpen.directory
    exact absurd hNumber (Nat.ne_of_lt (lt_nextBuildNumber hOpen.numbered hDir))
  frame := h.frame.trans (hFrame.mono fun _ hBelow => Or.inr ⟨jobName, _, hBelow⟩)

/-- What a maintenance process changes. -/
theorem of_maintenance {p : Process} (hServes : Serves P p t₀ baseDir sessionId) (jobName : Str) :
    s.StandsAmong P t₀ baseDir sessionId (maintenanceProcess P p t jobName).1 := by
  obtain ⟨ctx, hContext, rfl⟩ := (h.serves hServes).context
  have hMain : maintenanceProcess P p t jobName = maintenanceMain P p.os t ctx jobName := by
    rw [maintenanceProcess, hContext]
  -- only builds that have a status are removed
  have hFind : ∀ q, (maintenanceMain P p.os t ctx jobName).1.find q = t.find q ∨
      ∃ m, siteBuild ctx.baseDir jobName m <:+ q ∧
        recordedStatus t (siteBuild ctx.baseDir jobName m) ≠ .pending := by
    intro q
    obtain hSame | ⟨job, hLoad, ⟨dir, hDir, hBelow⟩, _⟩ :=
      maintenanceMain_find P p.os t ctx jobName q
    · exact Or.inl hSame
    · obtain ⟨m, rfl⟩ := outdated_buildDir hLoad hDir
      exact Or.inr ⟨m, hBelow, outdated_not_pending hLoad hDir⟩
  have hFrame : FileTree.SameOutside (BuildFile ctx.baseDir) t
      (maintenanceMain P p.os t ctx jobName).1 := by
    intro q hOutside
    obtain hSame | ⟨m, hBelow, _⟩ := hFind q
    · exact hSame
    · exact absurd ⟨jobName, m, hBelow⟩ hOutside
  rw [hMain]
  refine ⟨h.values.congr (hFrame _ (SessionFile.not_build (Or.inl rfl))),
    h.params.congr (hFrame _ (SessionFile.not_build (Or.inr rfl))), fun jobName' n hOpen q hBelow => ?_,
    h.frame.trans (hFrame.mono fun _ hBuild => Or.inr hBuild)⟩
  have hUntouched := h.builds jobName' n hOpen
  obtain hSame | ⟨m, hBelow', hStatus⟩ := hFind q
  · exact hSame.trans (hUntouched q hBelow)
  · obtain ⟨rfl, rfl⟩ := siteBuild_inj hBelow hBelow'
    have hStill : recordedStatus t (siteBuild ctx.baseDir jobName' n) = .pending := by
      rw [recordedStatus_congr (hUntouched _ (FileTree.suffix_child _ "exitcode.txt".toList))]
      exact hOpen.pending
    exact absurd hStill hStatus

/-- What setting a value changes. -/
theorem of_setValue (hP : P.Lawful) (hSessions : t₀.isDirectory (baseDir / "sessions") = true) {os : Os}
    (hOs : os.Faultless) {ctx : Context} (hBase : ctx.baseDir = baseDir) {name value : Str}
    (hPair : Storable (name, value)) :
    ∃ t', setValue P os t ctx ⟨sessionId, false⟩ name value = (t', none) ∧
      (⟨s.values.insert name value, s.params⟩ : SessionView).StandsAmong P t₀ baseDir sessionId t' := by
  subst hBase
  obtain ⟨text, hSet, hEnc⟩ := setKvFile_refines hP hOs h.values (h.sessions hSessions)
    .cantReadSessionValuesFile hPair
  have hStands : s.Stands P t ctx.baseDir sessionId t :=
    ⟨h.values, h.params, FileTree.SameOutside.refl _ t⟩
  exact ⟨_, hSet, h.of_tool (hStands.write_values hEnc)⟩

/-- What the end of a job changes. -/
theorem of_publish (hP : P.Lawful) (hSessions : t₀.isDirectory (baseDir / "sessions") = true) {os : Os}
    (hOs : os.Faultless) {ctx : Context} (hBase : ctx.baseDir = baseDir) {jobName : Str}
    (hCr : '\r' ∉ jobName) (n : Nat) :
    ∃ t', publishBuild P os t ctx ⟨sessionId, false⟩ jobName n = (t', none) ∧
      (s.published jobName n).StandsAmong P t₀ baseDir sessionId t' := by
  have hNumber : '\r' ∉ numberString n := fun hMem =>
    numberString_ne hMem (by decide) n rfl
  obtain ⟨t₁, hName, hNamed⟩ := h.of_setValue hP hSessions hOs hBase
    (show Storable ("last_job_name".toList, jobName) from ⟨List.cons_ne_nil _ _, hCr⟩)
  obtain ⟨t₂, hBuild, hPublished⟩ := hNamed.of_setValue hP hSessions hOs hBase
    (show Storable ("last_job_build_number".toList, numberString n) from ⟨List.cons_ne_nil _ _, hNumber⟩)
  refine ⟨t₂, ?_, hPublished⟩
  rw [publishBuild, if_neg Bool.false_ne_true]
  simp only [hName, hBuild]

end SessionView.StandsAmong

/-! ### One job -/

theorem chooseParams_of_stores (hP : P.Lawful) {os : Os} (hOs : os.Faultless) {ctx : Context}
    (hParams : Stores P t (paramsFile ctx.baseDir sessionId) s.params) (args : StartjobArgs)
    (stdin : List Str) (declared : List (Str × Str)) :
    chooseParams P os t ctx ⟨sessionId, false⟩ args stdin declared =
      ([], some (s.jobParams args.params declared)) := by
  cases hWords : args.params with
  | some words => exact chooseParams_words hWords _ _ _
  | none =>
    have hRead : readKvFile P os t (sessionPrm ctx ⟨sessionId, false⟩) true .cantReadSessionValuesFile =
        (some s.params, none) := readKvFile_of_stores hP hOs hParams _
    have hPrepare : prepareParams P os t ctx ⟨sessionId, false⟩ declared =
        (overrideParams s.params declared, none) := by
      simp only [prepareParams, hRead]
      rfl
    simp only [chooseParams, hWords, hPrepare, SessionView.jobParams, Bool.false_eq_true, false_and,
      and_false, if_false]
    split_ifs with hEmpty
    · rfl
    · rw [not_not.mp hEmpty]
      rfl

/-- What a job is declared to take does not change. -/
theorem SessionView.StandsAmong.loadParams_eq (h : s.StandsAmong P t₀ baseDir sessionId t) (os : Os)
    (jobName : Str) :
    loadParams P os t (baseDir / "jobs" / jobName) = loadParams P os t₀ (baseDir / "jobs" / jobName) := by
  have hFile : t.find (baseDir / "jobs" / jobName / "job.params") =
      t₀.find (baseDir / "jobs" / jobName / "job.params") := by
    apply h.frame
    rw [not_or]
    exact ⟨not_sessionFile_of_length (by simp),
      not_buildFile_jobFile (c := 'j') (by decide) (by decide) jobName⟩
  simp only [loadParams, Os.openIfstream, hFile]

theorem StartjobCall.run_tells (hP : P.Lawful) (hId : sessionId ≠ [])
    (hSessions : t₀.isDirectory (baseDir / "sessions") = true)
    (h : s.StandsAmong P t₀ baseDir sessionId t) {c : StartjobCall}
    (hAllowed : (ScriptAction.job c).Allowed P t₀ baseDir sessionId build) :
    ∃ s', s.Tells P version t₀ baseDir build (.job c) (.job (c.run P t)) s' ∧
      s'.StandsAmong P t₀ baseDir sessionId (c.run P t).tree := by
  obtain ⟨hServes, hNew, hCr⟩ := hAllowed
  have hOs := hServes.faultless
  obtain ⟨ctx, ctx', hContext, rfl, hInvoke⟩ := (h.serves hServes).joins hId
  have hRun : c.run P t = startjobIn P c.process.os ⟨sessionId, false⟩ ctx' t c.args c.stdin c.script := by
    simp only [StartjobCall.run, startjobProcess, hContext, startjob, hNew, hInvoke]
  rw [hRun]
  obtain ⟨_, hStop⟩ | ⟨job, asked, chosen, run, hLoad, hChosen, hBuild, hEnd⟩ :=
    startjobIn_cases P c.process.os ⟨sessionId, false⟩ ctx' t c.args c.stdin c.script
  · rw [hStop]
    exact ⟨s, .failed Nat.one_ne_zero fun launch hLaunch => (by cases hLaunch), h⟩
  rw [chooseParams_of_stores hP hOs h.params] at hChosen
  cases hChosen
  have hPlaced := loadJob_placed hLoad
  obtain ⟨_, _, _, _, _, _, hDeclared, hName, _⟩ := loadJob_eq_ok hLoad
  have hTree : s.StandsAmong P t₀ ctx'.baseDir sessionId run.tree := by
    have hFrame := runBuild_sameOutside P c.process.os hPlaced t ⟨sessionId, false⟩
      (s.jobParams c.args.params job.config.params)
      (fun number => (exportBuild c.process.os ctx' c.args.jobName number).env) c.args.force c.script
    rw [← hBuild] at hFrame
    exact h.of_build hFrame
  have hPasses : ∀ r : StartjobResult, r.launch = run.launch → s.Passes P t₀ ctx'.baseDir c r := by
    intro r hSame launch hLaunch
    rw [hSame, hBuild] at hLaunch
    obtain ⟨n, _, _, _, hDir, _, hContent⟩ := runBuild_launch P c.process.os hPlaced t _ _ _ _ _ hLaunch
    exact ⟨job.config.params, (h.loadParams_eq _ _).symm.trans hDeclared, hDir ▸ hContent⟩
  obtain ⟨e, _, hFailed⟩ | ⟨hClear, hFinish⟩ := hEnd
  · rw [hFailed]
    exact ⟨s, .failed Nat.one_ne_zero (hPasses _ rfl), hTree⟩
  · rw [hFinish]
    have hLaunched : run.launch ≠ none := by
      rw [hBuild] at hClear ⊢
      exact runBuild_clear P c.process.os hPlaced t _ _ _ _ _ hClear
    obtain ⟨launch, hLaunch⟩ := Option.ne_none_iff_exists'.mp hLaunched
    obtain ⟨n, hHandle⟩ : ∃ n, run.handle = some n := by
      rw [hBuild] at hLaunch ⊢
      obtain ⟨n, _, hHandle, _⟩ := runBuild_launch P c.process.os hPlaced t _ _ _ _ _ hLaunch
      exact ⟨n, hHandle⟩
    have hContext' := exportBuild_baseDir c.process.os ctx' c.args.jobName n
    obtain ⟨t', hPublish, hPublished⟩ := hTree.of_publish hP hSessions hOs hContext' hCr n
    simp only [hHandle, Option.getD_some, finishBuild, hPublish, hOs.spawn]
    exact ⟨_, .finished rfl rfl hLaunched (hPasses _ rfl), hPublished⟩

/-! ### Any sequence of actions -/

theorem ScriptAction.run_follows (hP : P.Lawful) (version : Version) (hId : sessionId ≠ [])
    (hSessions : t₀.isDirectory (baseDir / "sessions") = true) :
    Follows (ScriptAction.run P version) (SessionView.Tells P version t₀ baseDir build)
      (ScriptAction.Allowed P t₀ baseDir sessionId build)
      (fun t s => s.StandsAmong P t₀ baseDir sessionId t) := by
  intro t s action hAllowed h
  cases action with
  | job c => exact c.run_tells hP hId hSessions h hAllowed
  | maintenance p jobName => exact ⟨s, .maintained p jobName _ _, h.of_maintenance hAllowed jobName⟩
  | tool c =>
    obtain ⟨⟨hServes, hStorable, hParams⟩, jobName, n, hOpen, hFile⟩ := hAllowed
    have hBuild : t.find (buildParamsFile baseDir c.process) =
        t₀.find (buildParamsFile baseDir c.process) := by
      apply h.builds jobName n hOpen
      rw [hFile]
      exact FileTree.suffix_child _ _
    have hStands : s.Stands P t baseDir sessionId t :=
      ⟨h.values, h.params, FileTree.SameOutside.refl _ t⟩
    obtain ⟨hNext, hAnswer⟩ := ToolCall.run_simulates hP version hId (h.sessions hSessions) t s c
      ⟨h.serves hServes, hStorable, hParams.congr hBuild⟩ hStands
    refine ⟨(s.call version build c).1, ?_, h.of_tool hNext⟩
    rw [ScriptAction.run, hAnswer]
    exact .tool c

/-- Scripts that call tools and start jobs share two maps. A job is started with
the parameters that were set, and when it has succeeded it is the last one. What
the maintenance processes remove are builds that have ended. -/
theorem scripts_call_jobs (hP : P.Lawful) (version : Version) (hId : sessionId ≠ [])
    (hSessions : t.isDirectory (baseDir / "sessions") = true)
    (hValues : Stores P t (valuesFile baseDir sessionId) s.values)
    (hParams : Stores P t (paramsFile baseDir sessionId) s.params) {actions : List ScriptAction}
    (hAllowed : ∀ a ∈ actions, a.Allowed P t baseDir sessionId build) :
    ∃ s', Chain (SessionView.Tells P version t baseDir build) s
        (actions.zip (answers (ScriptAction.run P version) t actions).2) s' ∧
      s'.StandsAmong P t baseDir sessionId (answers (ScriptAction.run P version) t actions).1 :=
  (ScriptAction.run_follows hP version hId hSessions).answers hAllowed
    ⟨hValues, hParams, fun _ _ _ _ _ => rfl, FileTree.SameOutside.refl _ t⟩

/-! ### A script that starts its own job again -/

def callerEnv : SortedMap Str Str :=
  .ofList [("cis_base_dir", "/"), ("session_id", "s"), ("job_name", "j"), ("build_number", "000000")]

def callerTree : FileTree :=
  (((siteTree "j").insert ["sessions".toList] .directory).insert
    ["job.params".toList, "j".toList, "jobs".toList]
    (.file (ProtoUtils.reference.encodedLines oneParam) false)).insert
    ["000000".toList, "j".toList, "jobs".toList] .directory

def callerActions : List ScriptAction :=
  [.tool ⟨siteProcess callerEnv 7 1, .setparam, ["p", "x"]⟩,
    .job ⟨siteProcess callerEnv 8 1, ⟨"j", false, false, none⟩, [], fun _ => ⟨[], some 0⟩⟩,
    .maintenance (siteProcess callerEnv 9 8) "j",
    .tool ⟨siteProcess callerEnv 10 1, .getvalue, ["last_job_name"]⟩]

theorem callerProcess_serves (id parentId : Nat) :
    Serves .reference (siteProcess callerEnv id parentId) callerTree [] "s" where
  faultless := Os.ideal_faultless _
  joined := rfl
  context := ⟨_, rfl, rfl⟩

theorem callerActions_allowed :
    ∀ a ∈ callerActions, a.Allowed .reference callerTree [] "s" fun _ => ∅ := by
  have hBuild : ∃ jobName n, OpenBuild callerTree [] jobName n ∧
      buildParamsFile [] (siteProcess callerEnv 7 1) = siteBuild [] jobName n / "job.params" :=
    ⟨"j", 0, ⟨by decide, by decide, by decide⟩, rfl⟩
  intro a ha
  simp only [callerActions, List.mem_cons, List.not_mem_nil, or_false] at ha
  obtain rfl | rfl | rfl | rfl := ha
  · exact ⟨⟨callerProcess_serves 7 1, by simp [Storable], Or.inl ⟨by decide, rfl⟩⟩, hBuild⟩
  · exact ⟨callerProcess_serves 8 1, rfl, by decide⟩
  · exact callerProcess_serves 9 8
  · exact ⟨⟨callerProcess_serves 10 1, by simp, Or.inl ⟨by decide, rfl⟩⟩, hBuild⟩

theorem scripts_call_jobs_four :
    ∃ s', Chain (SessionView.Tells .reference scriptVersion callerTree [] fun _ => ∅) ⟨∅, ∅⟩
        (callerActions.zip
          (answers (ScriptAction.run .reference scriptVersion) callerTree callerActions).2) s' ∧
      s'.StandsAmong .reference callerTree [] "s"
        (answers (ScriptAction.run .reference scriptVersion) callerTree callerActions).1 :=
  scripts_call_jobs ProtoUtils.reference_lawful scriptVersion (by decide) (by decide)
    (Or.inl ⟨by decide, rfl⟩) (Or.inl ⟨by decide, rfl⟩) callerActions_allowed

end CisCore
