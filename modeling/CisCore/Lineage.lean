import CisCore.Session.InitContext
import CisCore.Startjob

/-! # Lineage in the process tree

A script may start further `startjob` processes, which inherit the environment
it was given. Each process of such a tree sits under a line of processes, the
one whose script launched it first and the root last. What a script finds in
its environment is a matter of that line alone.
-/

namespace CisCore

/-- A `startjob` process that was given a context. -/
structure JobProcess (P : ProtoUtils) extends Process where
  tree : FileTree
  args : StartjobArgs
  stdin : List Str
  script : Launch → ScriptRun
  ctx : Context
  started : initContext P toProcess tree = .ok ctx

namespace JobProcess

variable {P : ProtoUtils} (p : JobProcess P)

def environment : SortedMap Str Str := p.os.environment

def jobName : Str := p.args.jobName

def session : Session :=
  (invokeSession p.os p.freshSessionId p.ctx p.args.newSession).1

def sessionCtx : Context :=
  (invokeSession p.os p.freshSessionId p.ctx p.args.newSession).2

def result : StartjobResult :=
  CisCore.startjob P p.os p.tree p.ctx p.freshSessionId p.args p.stdin p.script

def number : Nat := p.result.build.getD 0

def buildDir : FsPath := CisCore.buildDir p.ctx p.jobName p.number

end JobProcess

inductive ProcessTree (P : ProtoUtils) where
  | startjob (own : JobProcess P) (nested : List (ProcessTree P))

variable {P : ProtoUtils}

def ProcessTree.own : ProcessTree P → JobProcess P
  | .startjob own _ => own

/-- A process is started with an environment and passes what it gives to its
script on to the processes below; without a launched script there are none. -/
inductive ProcessTree.Runs : SortedMap Str Str → ProcessTree P → Prop
  | startjob {environment : SortedMap Str Str} {own : JobProcess P} {nested : List (ProcessTree P)}
      (inherits : own.environment = environment)
      (launched : own.result.launch = none → nested = [])
      (below : ∀ launch, own.result.launch = some launch →
        ∀ child ∈ nested, Runs launch.env child) :
      Runs environment (.startjob own nested)

/-- The subtree sits in the tree under this line of processes, the nearest first. -/
inductive ProcessTree.Under (tree : ProcessTree P) : ProcessTree P → List (JobProcess P) → Prop
  | root : Under tree tree []
  | nested {own : JobProcess P} {nested : List (ProcessTree P)} {above : List (JobProcess P)}
      {child : ProcessTree P} : Under tree (.startjob own nested) above → child ∈ nested →
      Under tree child (own :: above)

/-- What a script is promised about the line of processes it runs under. -/
structure ScriptLaw (own : JobProcess P) (above : List (JobProcess P)) (env : SortedMap Str Str) :
    Prop where
  opens : own.session.openedByMe = true ↔ own.args.newSession = true ∨ above = []
  sessionId : ∃ opener, (own :: above).find? (fun p => p.session.openedByMe) = some opener ∧
    env.find "session_id" = some opener.session.sessionId
  openedByMe : env.find "session_opened_by_me" =
    some (if own.session.openedByMe then "true".toList else "false".toList)
  jobName : env.find "job_name" = some own.jobName
  buildNumber : env.find "build_number" = some (numberString own.number)
  parentJob : ∀ parent ∈ above.head?, env.find "parent_job_name" = some parent.jobName ∧
    env.find "parent_job_build_number" = some (numberString parent.number)
  getParam : ∀ os : Os, os.SplitsAtColon → os.environment = env → ∀ t ctx name,
    ctx.baseDir = own.ctx.baseDir → getParam P os t ctx name =
      getKvFile P os t (own.buildDir / "job.params") .cantReadJobParamsFile name

/-! ### The environment of one script -/

namespace JobProcess

variable {p : JobProcess P} {launch : Launch}

theorem launch_env (h : p.result.launch = some launch) :
    launch.env = (exportBuild p.os p.sessionCtx p.jobName p.number).env := by
  obtain ⟨n, hBuild, hEnv⟩ := startjob_launch P p.os h
  rw [hEnv, number, result, hBuild]
  rfl

/-- What has happened in a process when its script is launched. -/
theorem launched (h : p.result.launch = some launch) :
    ∃ job asked chosen run, loadJob P p.os p.tree p.ctx p.jobName = .ok job ∧
      chooseParams P p.os p.tree p.sessionCtx p.session p.args p.stdin job.config.params =
        (asked, some chosen) ∧
      run = job.runBuild P p.os p.tree p.sessionCtx p.session chosen
        (fun number => (exportBuild p.os p.sessionCtx p.jobName number).env) p.args.force p.script ∧
      run.launch = some launch ∧ p.result.build = run.handle ∧
      p.session.sessionId :: asked <+: p.result.stdout := by
  have hBase : p.sessionCtx.baseDir = p.ctx.baseDir := invokeSession_baseDir p.os _ p.ctx _
  have hResult : p.result =
      startjobIn P p.os p.session p.sessionCtx p.tree p.args p.stdin p.script := rfl
  rw [hResult] at h ⊢
  obtain ⟨_, hStop⟩ | ⟨job, asked, chosen, run, hLoad, hChosen, hRun, hEnd⟩ :=
    startjobIn_cases P p.os p.session p.sessionCtx p.tree p.args p.stdin p.script
  · rw [hStop] at h
    cases h
  · refine ⟨job, asked, chosen, run, (loadJob_congr hBase p.tree p.jobName).symm.trans hLoad, hChosen,
      hRun, ?_⟩
    obtain ⟨e, _, hFailed⟩ | ⟨_, hFinish⟩ := hEnd
    · rw [hFailed] at h ⊢
      exact ⟨h, rfl, List.prefix_refl _⟩
    · rw [hFinish] at h ⊢
      obtain ⟨hBuild, hLaunch, _⟩ := finishBuild_effect P p.os
        (exportBuild p.os p.sessionCtx p.args.jobName (run.handle.getD 0)) p.session p.args.jobName
        (run.handle.getD 0) ([p.session.sessionId] ++ asked) run
      exact ⟨hLaunch.symm.trans h, hBuild, finishBuild_stdout P p.os _ _ _ _ _ _⟩

/-- The build of a launched script, and the parameters it was prepared with. -/
theorem launched_build (h : p.result.launch = some launch) :
    ∃ job asked chosen, loadJob P p.os p.tree p.ctx p.jobName = .ok job ∧
      chooseParams P p.os p.tree p.sessionCtx p.session p.args p.stdin job.config.params =
        (asked, some chosen) ∧
      p.session.sessionId :: asked <+: p.result.stdout ∧ launch.workingDir = p.buildDir ∧
      launch.tree.content (p.buildDir / "job.params") = some (P.encodedLines chosen) := by
  obtain ⟨job, asked, chosen, run, hLoad, hChosen, hRun, hSome, hBuild, hStdout⟩ := launched h
  have hBase : p.sessionCtx.baseDir = p.ctx.baseDir := invokeSession_baseDir p.os _ p.ctx _
  have hPlaced := loadJob_placed ((loadJob_congr hBase p.tree p.jobName).trans hLoad)
  rw [hRun] at hSome hBuild
  obtain ⟨n, _, hHandle, _, hDir, _, hContent⟩ :=
    runBuild_launch P p.os hPlaced p.tree _ _ _ _ _ hSome
  have hSame : p.buildDir = CisCore.buildDir p.sessionCtx job.name n := by
    rw [buildDir, number, hBuild, hHandle, loadJob_name hLoad]
    rfl
  exact ⟨job, asked, chosen, hLoad, hChosen, hStdout, hDir.trans hSame.symm, hSame ▸ hContent⟩

theorem find_sessionCtx (p : JobProcess P) :
    p.sessionCtx.env.find "session_id" = some p.session.sessionId ∧
      p.sessionCtx.env.find "session_opened_by_me" =
        some (if p.session.openedByMe then "true".toList else "false".toList) := by
  constructor
  · exact (Context.find_setEnvVar_of_ne _ _ (by decide)).trans (Context.find_setEnvVar_self _ _ _)
  · exact Context.find_setEnvVar_self _ _ _

theorem find_sessionCtx_of_ne (p : JobProcess P) {key : Str} (hId : key ≠ "session_id".toList)
    (hOpened : key ≠ "session_opened_by_me".toList) :
    p.sessionCtx.env.find key = p.ctx.env.find key :=
  (Context.find_setEnvVar_of_ne _ _ hOpened).trans (Context.find_setEnvVar_of_ne _ _ hId)

theorem session_opened (h : p.args.newSession = true ∨ p.os.getEnvVar "session_id" = []) :
    p.session = ⟨p.freshSessionId, true⟩ :=
  invokeSession_opened h _ _

theorem session_joined (hNew : p.args.newSession = false)
    (h : p.os.getEnvVar "session_id" ≠ []) :
    p.session = ⟨p.os.getEnvVar "session_id", false⟩ := by
  rw [session, hNew]
  exact invokeSession_joined h rfl _ _

theorem find_launch_session (h : p.result.launch = some launch) :
    launch.env.find "session_id" = some p.session.sessionId ∧
      launch.env.find "session_opened_by_me" =
        some (if p.session.openedByMe then "true".toList else "false".toList) := by
  obtain ⟨hId, hOpened⟩ := p.find_sessionCtx
  rw [launch_env h]
  constructor
  · exact (find_exportBuild_of_ne _ _ _ _ (by decide) (by decide) (by decide) (by decide)).trans hId
  · exact (find_exportBuild_of_ne _ _ _ _ (by decide) (by decide) (by decide) (by decide)).trans
      hOpened

theorem find_launch_build (h : p.result.launch = some launch) :
    launch.env.find "job_name" = some p.jobName ∧
      launch.env.find "build_number" = some (numberString p.number) := by
  rw [launch_env h]
  exact find_exportBuild p.os _ _ _

theorem find_launch_parent (h : p.result.launch = some launch) :
    launch.env.find "parent_job_name" =
        (if p.os.getEnvVar "job_name" ≠ [] then some (p.os.getEnvVar "job_name")
        else p.ctx.env.find "parent_job_name") ∧
      launch.env.find "parent_job_build_number" =
        (if p.os.getEnvVar "build_number" ≠ [] then some (p.os.getEnvVar "build_number")
        else p.ctx.env.find "parent_job_build_number") := by
  rw [launch_env h, ← p.find_sessionCtx_of_ne (by decide) (by decide),
    ← p.find_sessionCtx_of_ne (by decide) (by decide)]
  exact find_exportBuild_parent p.os _ _ _

end JobProcess

/-! ### Walking down the tree -/

namespace ProcessTree

variable {tree sub : ProcessTree P} {environment : SortedMap Str Str} {above : List (JobProcess P)}

theorem Runs.inherits_own (h : sub.Runs environment) : sub.own.environment = environment := by
  cases h with
  | startjob inherits launched below => exact inherits

theorem Runs.child {own : JobProcess P} {nested : List (ProcessTree P)} {child : ProcessTree P}
    (h : (ProcessTree.startjob own nested).Runs environment) (hChild : child ∈ nested) :
    ∃ launch, own.result.launch = some launch ∧ child.Runs launch.env := by
  cases h with
  | startjob inherits launched below =>
    cases hLaunch : own.result.launch with
    | none =>
      rw [launched hLaunch] at hChild
      cases hChild
    | some launch => exact ⟨launch, rfl, below launch hLaunch child hChild⟩

theorem Under.runs (h : tree.Under sub above) (hRuns : tree.Runs environment) :
    sub.Runs sub.own.environment := by
  induction h with
  | root => rwa [hRuns.inherits_own]
  | nested _ hChild ih =>
    obtain ⟨launch, _, hBelow⟩ := ih.child hChild
    rwa [hBelow.inherits_own]

theorem Under.inherits {parent : JobProcess P} (h : tree.Under sub (parent :: above))
    (hRuns : tree.Runs environment) :
    ∃ nested launch, tree.Under (.startjob parent nested) above ∧
      parent.result.launch = some launch ∧ sub.own.environment = launch.env := by
  cases h with
  | nested hUnder hChild =>
    obtain ⟨launch, hLaunch, hBelow⟩ := (hUnder.runs hRuns).child hChild
    exact ⟨_, launch, hUnder, hLaunch, hBelow.inherits_own⟩

end ProcessTree

/-! ### The law of the lineage -/

def ProcessTree.ScriptsLawful (tree : ProcessTree P) : Prop :=
  ∀ own nested above launch, tree.Under (.startjob own nested) above →
    own.result.launch = some launch → ScriptLaw own above launch.env

/-- No job with a script has a colon in its name, and a script under a build
without a name finds that empty name left in the environment. -/
structure ProcessTree.NamesPass (tree : ProcessTree P) : Prop where
  colon : ∀ own nested above, tree.Under (.startjob own nested) above →
    own.result.launch ≠ none → ':' ∉ own.jobName
  empty : ∀ own nested parent above, tree.Under (.startjob own nested) (parent :: above) →
    own.result.launch ≠ none →
      parent.jobName ≠ [] ∨ own.ctx.env.find "parent_job_name" = some []

def ProcessTree.SplitsAtColon (tree : ProcessTree P) : Prop :=
  ∀ sub above, tree.Under sub above → sub.own.os.SplitsAtColon

/-- What a process knows of its session. -/
structure SessionKnown (own : JobProcess P) (above : List (JobProcess P)) : Prop where
  opens : own.session.openedByMe = true ↔ own.args.newSession = true ∨ above = []
  opener : ∃ opener, (own :: above).find? (fun p => p.session.openedByMe) = some opener ∧
    own.session.sessionId = opener.session.sessionId
  ne_nil : own.session.sessionId ≠ []
  no_colon : ':' ∉ own.session.sessionId

theorem sessionKnown_of_opened {own : JobProcess P} {above : List (JobProcess P)}
    (h : own.args.newSession = true ∨ own.os.getEnvVar "session_id" = [])
    (hOpens : own.args.newSession = true ∨ above = []) : SessionKnown own above := by
  have hSession := JobProcess.session_opened h
  constructor
  · simp [hSession, hOpens]
  · exact ⟨own, by simp [hSession], rfl⟩
  · rw [hSession]
    exact freshSessionId_ne_nil _ _ _
  · rw [hSession]
    exact colon_not_mem_freshSessionId _ _ _

theorem SessionKnown.nested {own parent : JobProcess P} {above : List (JobProcess P)}
    (h : SessionKnown parent above) (hSplits : own.os.SplitsAtColon)
    (hInherits : own.environment.find "session_id" = some parent.session.sessionId) :
    SessionKnown own (parent :: above) := by
  have hId := Os.getEnvVar_eq_self hSplits hInherits h.no_colon
  cases hNew : own.args.newSession with
  | true => exact sessionKnown_of_opened (Or.inl hNew) (Or.inl hNew)
  | false =>
    have hSession := JobProcess.session_joined hNew (hId ▸ h.ne_nil)
    rw [hId] at hSession
    obtain ⟨opener, hFind, hSame⟩ := h.opener
    constructor
    · simp [hSession, hNew]
    · exact ⟨opener, by rw [List.find?_cons_of_neg (by simp [hSession]), hFind], by rw [hSession, hSame]⟩
    · rw [hSession]
      exact h.ne_nil
    · rw [hSession]
      exact h.no_colon

namespace ProcessTree

variable {tree sub : ProcessTree P} {environment : SortedMap Str Str} {above : List (JobProcess P)}
  (hRuns : tree.Runs environment) (hSplits : tree.SplitsAtColon)
  (hNoSession : environment.find "session_id" = none)
include hRuns hSplits hNoSession

theorem Under.sessionKnown (h : tree.Under sub above) : SessionKnown sub.own above := by
  induction h with
  | root =>
    have hNone : tree.own.os.getEnvVar "session_id" = [] := by
      rw [Os.getEnvVar, ← JobProcess.environment, hRuns.inherits_own, hNoSession]
    exact sessionKnown_of_opened (Or.inr hNone) (Or.inr rfl)
  | @nested own nested above child hUnder hChild ih =>
    have hBelow := Under.nested hUnder hChild
    obtain ⟨_, launch, _, hLaunch, hInherits⟩ := hBelow.inherits hRuns
    apply ih.nested (hSplits child _ hBelow)
    rw [hInherits]
    exact (JobProcess.find_launch_session hLaunch).1

end ProcessTree

/-! ### Job names -/

/-- A system on which existing files cannot be opened. -/
def lockedOs (environment : SortedMap Str Str) : Os :=
  { Os.ideal environment with ifstreamFault := fun _ => true }

theorem lockedOs_splitsAtColon (environment : SortedMap Str Str) :
    (lockedOs environment).SplitsAtColon := Os.ideal_splitsAtColon environment

/-- Which file a getter looks for shows in whether it finds one. -/
theorem lockedOs_getKvFile {env : SortedMap Str Str} {p q : FsPath} {e : ErrorCode}
    (h : ∀ t, getKvFile P (lockedOs env) t p e [] = getKvFile P (lockedOs env) t q e []) :
    p = q := by
  by_contra hne
  have hRead := h ((∅ : FileTree).insert q (.file [] false))
  have hAbsent : ((∅ : FileTree).insert q (.file [] false)).find p = none := by
    rw [SortedMap.find_insert, if_neg hne, SortedMap.find_empty]
  have hPresent : ((∅ : FileTree).insert q (.file [] false)).find q = some (.file [] false) :=
    SortedMap.find_insert_self _ _ _
  simp [getKvFile, readKvFile, Os.pathExists, Os.openIfstream, FileTree.pathExists, hAbsent, hPresent,
    lockedOs, Os.ideal] at hRead

theorem ScriptLaw.colon {own : JobProcess P} {above : List (JobProcess P)} {env : SortedMap Str Str}
    (h : ScriptLaw own above env) : ':' ∉ own.jobName := by
  have hPath := lockedOs_getKvFile fun t =>
    h.getParam (lockedOs env) (lockedOs_splitsAtColon env) rfl t own.ctx [] rfl
  have hJob : (lockedOs env).getEnvVar "job_name" = own.jobName :=
    (List.cons.inj (List.cons.inj (List.cons.inj hPath).2).2).1
  rw [Os.getEnvVar_eq (lockedOs_splitsAtColon env) h.jobName] at hJob
  exact Os.takeWhile_ne_colon_iff.mp hJob

section Names

variable {tree : ProcessTree P} {environment : SortedMap Str Str}
  (hRuns : tree.Runs environment) (hSplits : tree.SplitsAtColon)
include hRuns hSplits

theorem find_parent {own parent : JobProcess P} {nested : List (ProcessTree P)}
    {above : List (JobProcess P)} (h : tree.Under (.startjob own nested) (parent :: above))
    (hColon : ':' ∉ parent.jobName) {launch : Launch} (hLaunch : own.result.launch = some launch) :
    launch.env.find "parent_job_name" = (if parent.jobName ≠ [] then some parent.jobName
        else own.ctx.env.find "parent_job_name") ∧
      launch.env.find "parent_job_build_number" = some (numberString parent.number) := by
  have hOwn : own.os.SplitsAtColon := hSplits _ _ h
  obtain ⟨_, launch', _, hLaunch', hInherits⟩ := h.inherits hRuns
  obtain ⟨hJob, hNumber⟩ := JobProcess.find_launch_build hLaunch'
  rw [← hInherits] at hJob hNumber
  obtain ⟨hParentJob, hParentNumber⟩ := JobProcess.find_launch_parent hLaunch
  rw [Os.getEnvVar_eq_self hOwn hJob hColon] at hParentJob
  rw [Os.getEnvVar_eq_self hOwn hNumber (colon_not_mem_numberString _),
    if_pos (numberString_ne_nil _)] at hParentNumber
  exact ⟨hParentJob, hParentNumber⟩

theorem scriptsLawful_of_namesPass (hNoSession : environment.find "session_id" = none)
    (h : tree.NamesPass) : tree.ScriptsLawful := by
  intro own nested above launch hUnder hLaunch
  have hKnown := hUnder.sessionKnown hRuns hSplits hNoSession
  have hLaunched : own.result.launch ≠ none := by simp [hLaunch]
  obtain ⟨hId, hOpened⟩ := JobProcess.find_launch_session hLaunch
  obtain ⟨hJob, hNumber⟩ := JobProcess.find_launch_build hLaunch
  obtain ⟨opener, hFind, hSame⟩ := hKnown.opener
  constructor
  · exact hKnown.opens
  · exact ⟨opener, hFind, hId.trans (congrArg some hSame)⟩
  · exact hOpened
  · exact hJob
  · exact hNumber
  · intro parent hParent
    obtain ⟨rest, rfl⟩ := List.head?_eq_some_iff.mp hParent
    obtain ⟨_, launch', hAbove, hLaunch', _⟩ := hUnder.inherits hRuns
    have hColon := h.colon parent _ rest hAbove (by simp [hLaunch'])
    obtain ⟨hParentJob, hParentNumber⟩ := find_parent hRuns hSplits hUnder hColon hLaunch
    refine ⟨?_, hParentNumber⟩
    rw [hParentJob]
    split_ifs with hEmpty
    · rfl
    · rw [(h.empty own nested parent rest hUnder hLaunched).resolve_left hEmpty, not_not.mp hEmpty]
  · intro os hOs hEnv t ctx name hBase
    have hColon := h.colon own nested above hUnder hLaunched
    rw [getParam, Os.getEnvVar_eq_self hOs (hEnv ▸ hJob) hColon,
      Os.getEnvVar_eq_self hOs (hEnv ▸ hNumber) (colon_not_mem_numberString _), hBase]
    rfl

theorem namesPass_of_scriptsLawful (h : tree.ScriptsLawful) : tree.NamesPass := by
  constructor
  · intro own nested above hUnder hLaunched
    obtain ⟨launch, hLaunch⟩ := Option.ne_none_iff_exists'.mp hLaunched
    exact (h own nested above launch hUnder hLaunch).colon
  · intro own nested parent above hUnder hLaunched
    obtain ⟨launch, hLaunch⟩ := Option.ne_none_iff_exists'.mp hLaunched
    obtain ⟨_, launch', hAbove, hLaunch', _⟩ := hUnder.inherits hRuns
    have hColon := (h parent _ above launch' hAbove hLaunch').colon
    obtain ⟨hParentJob, _⟩ := find_parent hRuns hSplits hUnder hColon hLaunch
    obtain ⟨hLaw, _⟩ := (h own nested _ launch hUnder hLaunch).parentJob parent rfl
    rw [hLaw] at hParentJob
    by_cases hEmpty : parent.jobName = []
    · rw [if_neg (not_not.mpr hEmpty), hEmpty] at hParentJob
      exact Or.inr hParentJob.symm
    · exact Or.inl hEmpty

end Names

/-- The scripts of a process tree know their lineage exactly if the names of
the jobs pass through the environment. -/
theorem lineage_law_iff {tree : ProcessTree P} {environment : SortedMap Str Str}
    (hRuns : tree.Runs environment) (hSplits : tree.SplitsAtColon)
    (hNoSession : environment.find "session_id" = none) : tree.ScriptsLawful ↔ tree.NamesPass :=
  ⟨namesPass_of_scriptsLawful hRuns hSplits,
    scriptsLawful_of_namesPass hRuns hSplits hNoSession⟩

/-! ### A small tree -/

def siteJob (p : Process) (t : FileTree) (jobName : Str) (newSession : Bool)
    (started : initContext .reference p t = .ok (makeContext p [] ∅)) : JobProcess .reference where
  toProcess := p
  tree := t
  args := ⟨jobName, newSession, false, none⟩
  stdin := []
  script _ := ⟨[], some 0⟩
  ctx := makeContext p [] ∅
  started := started

def rootJob : JobProcess .reference := siteJob (siteProcess siteEnv 7 1) (siteTree "j") "j" false rfl

theorem rootJob_launched : rootJob.result.launch.isSome = true := by decide

def rootLaunch : Launch := rootJob.result.launch.get rootJob_launched

/-- The script of the root starts the job again, in a session of its own. -/
def nestedJob : JobProcess .reference :=
  siteJob (siteProcess rootLaunch.env 8 7) rootLaunch.tree "j" true rfl

def twoProcesses : ProcessTree .reference := .startjob rootJob [.startjob nestedJob []]

theorem rootJob_launch : rootJob.result.launch = some rootLaunch :=
  (Option.some_get rootJob_launched).symm

theorem twoProcesses_runs : twoProcesses.Runs siteEnv := by
  refine .startjob rfl (fun h => ?_) (fun launch hLaunch child hChild => ?_)
  · rw [rootJob_launch] at h
    exact absurd h (Option.some_ne_none _)
  · rw [rootJob_launch] at hLaunch
    obtain rfl := Option.some.inj hLaunch
    obtain rfl := List.mem_singleton.mp hChild
    exact .startjob rfl (fun _ => rfl) (fun _ _ child hChild => absurd hChild List.not_mem_nil)

theorem twoProcesses_under {sub : ProcessTree .reference} {above : List (JobProcess .reference)}
    (h : twoProcesses.Under sub above) : sub = twoProcesses ∨ sub = .startjob nestedJob [] := by
  induction h with
  | root => exact Or.inl rfl
  | nested _ hChild ih =>
    obtain h | h := ih
    · cases h
      exact Or.inr (List.mem_singleton.mp hChild)
    · cases h
      cases hChild

theorem twoProcesses_splits : twoProcesses.SplitsAtColon := by
  intro sub above h
  obtain rfl | rfl := twoProcesses_under h
  · exact Os.ideal_splitsAtColon siteEnv
  · exact Os.ideal_splitsAtColon rootLaunch.env

theorem lineage_law_iff_two : twoProcesses.ScriptsLawful ↔ twoProcesses.NamesPass :=
  lineage_law_iff twoProcesses_runs twoProcesses_splits (by decide)

def colonJob : JobProcess .reference :=
  siteJob (siteProcess siteEnv 7 1) (siteTree "a:b") "a:b" false rfl

theorem colonJob_launched : colonJob.result.launch.isSome = true := by decide

/-- The script of job `a:b` looks for its parameters in the directory of another job. -/
theorem lineage_fails_with_colon :
    siteEnv.find "session_id" = none ∧ siteEnv.find "job_name" = none ∧
      (ProcessTree.startjob colonJob []).Runs siteEnv ∧
      (ProcessTree.startjob colonJob []).SplitsAtColon ∧
      ¬(ProcessTree.startjob colonJob []).ScriptsLawful := by
  refine ⟨by decide, by decide, ?_, ?_, fun h => ?_⟩
  · exact .startjob rfl (fun _ => rfl) (fun _ _ child hChild => absurd hChild List.not_mem_nil)
  · intro sub above h
    have hOwn : sub = .startjob colonJob [] := by
      induction h with
      | root => rfl
      | nested _ hChild ih =>
        cases ih
        cases hChild
    rw [hOwn]
    exact Os.ideal_splitsAtColon siteEnv
  · obtain ⟨launch, hLaunch⟩ := Option.isSome_iff_exists.mp colonJob_launched
    exact absurd (h colonJob [] [] launch .root hLaunch).colon (by decide)

end CisCore
