import CisCore.Lineage
import CisCore.Script.Tools

/-! # The session of a process tree

Scripts of different builds, nested to any depth, call the tools of their
session. All of them reach the same two files, and each one the parameters of
its own build.
-/

namespace CisCore

open Fallible Machine

variable {P : ProtoUtils}

/-- What a tool needs of the site before it looks at a session. -/
structure SiteReady (P : ProtoUtils) (t : FileTree) (baseDir : FsPath) : Prop where
  base : t.isDirectory baseDir = true
  conf : ∃ text executables, t.content (baseDir / "core" / "cis.conf") = some text ∧
    P.readIstreamKvStr text false = some executables
  sessions : t.isDirectory (baseDir / "sessions") = true

/-- The configuration of the core leaves the place of the site alone. -/
def ProcessTree.KeepsBase (tree : ProcessTree P) : Prop :=
  ∀ sub above, tree.Under sub above →
    sub.own.ctx.env.find "cis_base_dir" = sub.own.environment.find "cis_base_dir"

/-- A call that the script of a process of the tree makes in the session. -/
structure ProcessTree.ScriptCall (tree : ProcessTree P) (t : FileTree) (sessionId : Str)
    (params : JobProcess P → SortedMap Str Str) (own : JobProcess P) (c : ToolCall) : Prop where
  launched : ∃ nested above launch, tree.Under (.startjob own nested) above ∧
    own.result.launch = some launch ∧ c.process.os.environment = launch.env
  session : own.session.sessionId = sessionId
  colon : ':' ∉ own.jobName
  faultless : c.process.os.Faultless
  splits : c.process.os.SplitsAtColon
  storable : ∀ name value, c.args = [name, value] → Storable (name, value)
  build : Stores P t (own.buildDir / "job.params") (params own)

/-! ### The place of the site -/

theorem resolvePath_absolute {path : Str} (h : path.head? = some '/') (dir dir' : FsPath) :
    resolvePath dir path = resolvePath dir' path := by
  simp only [resolvePath, h, if_true]

namespace JobProcess

variable {p : JobProcess P} {launch : Launch}

theorem find_launch_base (h : p.result.launch = some launch) :
    launch.env.find "cis_base_dir" = p.ctx.env.find "cis_base_dir" := by
  rw [launch_env h, find_exportBuild_of_ne _ _ _ _ (by decide) (by decide) (by decide) (by decide),
    p.find_sessionCtx_of_ne (by decide) (by decide)]

theorem ctx_baseDir (p : JobProcess P) :
    p.ctx.baseDir = resolvePath p.workingDir (p.os.getEnvVar "cis_base_dir") :=
  initContext_baseDir p.started

end JobProcess

theorem Os.getEnvVar_congr {os os' : Os} (h : os.SplitsAtColon) (h' : os'.SplitsAtColon) {name : Str}
    (hFind : os'.environment.find name = os.environment.find name) :
    os'.getEnvVar name = os.getEnvVar name := by
  cases hValue : os.environment.find name with
  | none => rw [Os.getEnvVar, Os.getEnvVar, hFind, hValue]
  | some value => rw [Os.getEnvVar_eq h hValue, Os.getEnvVar_eq h' (hFind.trans hValue)]

/-- With a readable configuration a process finds its context. -/
theorem SiteReady.context {t : FileTree} {baseDir : FsPath} (h : SiteReady P t baseDir) {p : Process}
    (hOs : p.os.Faultless) (hPath : p.os.getEnvVar "cis_base_dir" ≠ [])
    (hBase : resolvePath p.workingDir (p.os.getEnvVar "cis_base_dir") = baseDir) :
    ∃ ctx, initContext P p t = .ok ctx ∧ ctx.baseDir = baseDir := by
  obtain ⟨text, executables, hText, hConf⟩ := h.conf
  have hDir : p.os.surelyDirectory t baseDir = true := by
    rw [Os.surelyDirectory, hOs.pathExists, h.base]
    rfl
  refine ⟨makeContext p baseDir executables, ?_, rfl⟩
  simp only [initContext, bind_eq_ok, hBase]
  exact ⟨(), by simpa using hPath, (), require_eq_ok.mpr hDir, text,
    orThrow_eq_ok.mpr (Os.openIfstream_faultless hOs hText), executables, orThrow_eq_ok.mpr hConf, rfl⟩

section Tree

variable {tree : ProcessTree P} {environment : SortedMap Str Str} (hRuns : tree.Runs environment)
  (hKeeps : tree.KeepsBase)
include hRuns hKeeps

/-- The place of the site is handed down unchanged. -/
theorem ProcessTree.Under.base {sub : ProcessTree P} {above : List (JobProcess P)}
    (h : tree.Under sub above) :
    sub.own.ctx.env.find "cis_base_dir" = environment.find "cis_base_dir" := by
  induction h with
  | root => rw [hKeeps tree [] .root, hRuns.inherits_own]
  | @nested own nested above child hUnder hChild ih =>
    have hBelow := ProcessTree.Under.nested hUnder hChild
    obtain ⟨_, launch, _, hLaunch, hInherits⟩ := hBelow.inherits hRuns
    rw [hKeeps child _ hBelow, hInherits, JobProcess.find_launch_base hLaunch]
    exact ih

variable (hSplits : tree.SplitsAtColon)
include hSplits

theorem ProcessTree.Under.ctx_baseDir {sub : ProcessTree P} {above : List (JobProcess P)}
    (h : tree.Under sub above)
    (hAbsolute : (tree.own.os.getEnvVar "cis_base_dir").head? = some '/') :
    sub.own.ctx.baseDir = tree.own.ctx.baseDir := by
  have hFind : sub.own.os.environment.find "cis_base_dir" =
      tree.own.os.environment.find "cis_base_dir" := by
    have hRoot := hRuns.inherits_own
    rw [JobProcess.environment] at hRoot
    rw [hRoot, ← h.base hRuns hKeeps, hKeeps sub above h]
    rfl
  rw [JobProcess.ctx_baseDir, JobProcess.ctx_baseDir,
    Os.getEnvVar_congr (hSplits tree [] .root) (hSplits sub above h) hFind]
  exact resolvePath_absolute hAbsolute _ _

theorem ProcessTree.ScriptCall.allowed {t : FileTree} {sessionId : Str}
    {params : JobProcess P → SortedMap Str Str} {own : JobProcess P} {c : ToolCall}
    (h : tree.ScriptCall t sessionId params own c)
    (hNoSession : environment.find "session_id" = none)
    (hAbsolute : (tree.own.os.getEnvVar "cis_base_dir").head? = some '/')
    (hReady : SiteReady P t tree.own.ctx.baseDir) :
    c.Allowed P t tree.own.ctx.baseDir sessionId fun _ => params own := by
  obtain ⟨nested, above, launch, hUnder, hLaunch, hEnv⟩ := h.launched
  obtain ⟨hId, _⟩ := JobProcess.find_launch_session hLaunch
  obtain ⟨hJob, hNumber⟩ := JobProcess.find_launch_build hLaunch
  have hKnown := hUnder.sessionKnown hRuns hSplits hNoSession
  have hJoined : c.process.os.getEnvVar "session_id" = sessionId := by
    rw [Os.getEnvVar_eq_self h.splits (hEnv ▸ hId) hKnown.no_colon]
    exact h.session
  have hFind : c.process.os.environment.find "cis_base_dir" =
      tree.own.os.environment.find "cis_base_dir" := by
    have hRoot := hRuns.inherits_own
    rw [JobProcess.environment] at hRoot
    rw [hEnv, JobProcess.find_launch_base hLaunch, hRoot]
    exact hUnder.base hRuns hKeeps
  have hPath := Os.getEnvVar_congr (hSplits tree [] .root) h.splits hFind
  have hBase : resolvePath c.process.workingDir (c.process.os.getEnvVar "cis_base_dir") =
      tree.own.ctx.baseDir := by
    rw [JobProcess.ctx_baseDir, hPath]
    exact resolvePath_absolute hAbsolute _ _
  have hFile : buildParamsFile tree.own.ctx.baseDir c.process = own.buildDir / "job.params" := by
    rw [buildParamsFile, Os.getEnvVar_eq_self h.splits (hEnv ▸ hJob) h.colon,
      Os.getEnvVar_eq_self h.splits (hEnv ▸ hNumber) (colon_not_mem_numberString _),
      JobProcess.buildDir, buildDir, jobPath]
    rw [show own.ctx.baseDir = tree.own.ctx.baseDir from
      hUnder.ctx_baseDir hRuns hKeeps hSplits hAbsolute]
  refine ⟨⟨h.faultless, hJoined, hReady.context h.faultless ?_ hBase⟩, h.storable, ?_⟩
  · intro hNil
    rw [← hPath, hNil] at hAbsolute
    cases hAbsolute
  · rw [hFile]
    exact h.build

/-- However their builds are nested, the scripts of a session find in it what
the last of their calls left there. -/
theorem session_of_tree_refines (hP : P.Lawful) (version : Version)
    (hNoSession : environment.find "session_id" = none)
    (hAbsolute : (tree.own.os.getEnvVar "cis_base_dir").head? = some '/') {t : FileTree}
    (hReady : SiteReady P t tree.own.ctx.baseDir) {sessionId : Str} {s : SessionView}
    (hValues : Stores P t (valuesFile tree.own.ctx.baseDir sessionId) s.values)
    (hParams : Stores P t (paramsFile tree.own.ctx.baseDir sessionId) s.params)
    {params : JobProcess P → SortedMap Str Str} {calls : List (JobProcess P × ToolCall)}
    (hCalls : ∀ c ∈ calls, tree.ScriptCall t sessionId params c.1 c.2) :
    (answers (fun s c => s.call version (fun _ => params c.1) c.2) s calls).1.Stands P t
        tree.own.ctx.baseDir sessionId (answers (fun t c => c.2.run P version t) t calls).1 ∧
      (answers (fun t c => c.2.run P version t) t calls).2 =
        (answers (fun s c => SessionView.call version (fun _ => params c.1) s c.2) s calls).2 := by
  have hStep : Simulates (fun t (c : JobProcess P × ToolCall) => c.2.run P version t)
      (fun s c => SessionView.call version (fun _ => params c.1) s c.2)
      (fun c => tree.ScriptCall t sessionId params c.1 c.2)
      (fun t' s => s.Stands P t tree.own.ctx.baseDir sessionId t') := by
    intro t' s c hCall hStands
    obtain ⟨nested, above, launch, hUnder, _⟩ := hCall.launched
    have hId : sessionId ≠ [] :=
      hCall.session ▸ (hUnder.sessionKnown hRuns hSplits hNoSession).ne_nil
    exact ToolCall.run_simulates hP version hId hReady.sessions t' s c.2
      (hCall.allowed hRuns hKeeps hSplits hNoSession hAbsolute hReady) hStands
  exact hStep.answers hCalls ⟨hValues, hParams, FileTree.SameOutside.refl _ t⟩

end Tree

/-! ### Two builds in one session -/

theorem joinedJob_started : initContext .reference (siteProcess rootLaunch.env 8 7) rootLaunch.tree =
    .ok (makeContext (siteProcess rootLaunch.env 8 7) [] ∅) := rfl

/-- The script of the root starts the job again, in its own session. -/
def joinedJob : JobProcess .reference :=
  siteJob (siteProcess rootLaunch.env 8 7) rootLaunch.tree "j" false joinedJob_started

theorem joinedJob_launched : joinedJob.result.launch.isSome = true := by decide

def joinedLaunch : Launch := joinedJob.result.launch.get joinedJob_launched

def joinedTree : ProcessTree .reference := .startjob rootJob [.startjob joinedJob []]

theorem joinedTree_runs : joinedTree.Runs siteEnv := by
  refine .startjob rfl (fun h => ?_) (fun launch hLaunch child hChild => ?_)
  · rw [rootJob_launch] at h
    exact absurd h (Option.some_ne_none _)
  · rw [rootJob_launch] at hLaunch
    obtain rfl := Option.some.inj hLaunch
    obtain rfl := List.mem_singleton.mp hChild
    exact .startjob rfl (fun _ => rfl) (fun _ _ child hChild => absurd hChild List.not_mem_nil)

theorem joinedTree_own {sub : ProcessTree .reference} {above : List (JobProcess .reference)}
    (h : joinedTree.Under sub above) : sub = joinedTree ∨ sub = .startjob joinedJob [] := by
  induction h with
  | root => exact Or.inl rfl
  | nested _ hChild ih =>
    obtain h | h := ih
    · cases h
      exact Or.inr (List.mem_singleton.mp hChild)
    · cases h
      cases hChild

theorem joinedTree_splits : joinedTree.SplitsAtColon := by
  intro sub above h
  obtain rfl | rfl := joinedTree_own h
  · exact Os.ideal_splitsAtColon siteEnv
  · exact Os.ideal_splitsAtColon rootLaunch.env

theorem joinedTree_keepsBase : joinedTree.KeepsBase := by
  intro sub above h
  obtain rfl | rfl := joinedTree_own h
  · decide
  · decide

def joinedSite : FileTree := (siteTree "j").insert ["sessions".toList] .directory

theorem joinedSite_ready : SiteReady .reference joinedSite joinedTree.own.ctx.baseDir where
  base := by decide
  conf := ⟨[], _, by decide, rfl⟩
  sessions := by decide

/-- A value that the first script sets is there for the second one. -/
def joinedCalls : List (JobProcess .reference × ToolCall) :=
  [(rootJob, ⟨siteProcess rootLaunch.env 9 7, .setvalue, ["a", "1"]⟩),
    (joinedJob, ⟨siteProcess joinedLaunch.env 10 8, .getvalue, ["a"]⟩)]

theorem joinedCalls_scripts : ∀ c ∈ joinedCalls,
    joinedTree.ScriptCall joinedSite rootJob.freshSessionId (fun _ => ∅) c.1 c.2 := by
  intro c hc
  simp only [joinedCalls, List.mem_cons, List.not_mem_nil, or_false] at hc
  obtain rfl | rfl := hc
  · refine ⟨⟨_, _, rootLaunch, .root, rootJob_launch, rfl⟩, by decide, by decide,
      Os.ideal_faultless _, Os.ideal_splitsAtColon _, by simp [Storable], Or.inl ⟨by decide, rfl⟩⟩
  · refine ⟨⟨_, _, joinedLaunch, .nested .root List.mem_cons_self, ?_, rfl⟩, by decide, by decide,
      Os.ideal_faultless _, Os.ideal_splitsAtColon _, by simp, Or.inl ⟨by decide, rfl⟩⟩
    exact (Option.some_get joinedJob_launched).symm

theorem session_of_tree_refines_two :
    (answers (fun s c => SessionView.call scriptVersion (fun _ => ∅) s c.2) ⟨∅, ∅⟩
        joinedCalls).1.Stands .reference joinedSite joinedTree.own.ctx.baseDir rootJob.freshSessionId
        (answers (fun t c => c.2.run .reference scriptVersion t) joinedSite joinedCalls).1 ∧
      (answers (fun t c => c.2.run .reference scriptVersion t) joinedSite joinedCalls).2 =
        (answers (fun s c => SessionView.call scriptVersion (fun _ => ∅) s c.2) ⟨∅, ∅⟩
          joinedCalls).2 :=
  session_of_tree_refines joinedTree_runs joinedTree_keepsBase joinedTree_splits
    ProtoUtils.reference_lawful scriptVersion (by decide) (by decide) joinedSite_ready
    (Or.inl ⟨by decide, rfl⟩) (Or.inl ⟨by decide, rfl⟩) joinedCalls_scripts

end CisCore
