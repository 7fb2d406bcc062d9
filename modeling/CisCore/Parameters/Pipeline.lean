import CisCore.Session.Writers
import CisCore.Startjob

/-! # The way of a parameter

A parameter goes from `setParam` in one process through the session's file, the
build's file and the environment of the script to `getParam` in another one.
-/

namespace CisCore

open Transition

section Model

variable (P : ProtoUtils)

/-- The calls of `setParam` in a session, each in a process of its own. -/
def setParams (ctx : Context) (session : Session) (t : FileTree) (calls : List Writer) :
    Option FileTree :=
  run (fun t (c : Writer) => accepted (setParam P c.os t ctx session c.name c.value)) t calls

/-- The value of the last call for a declared parameter, or its default. -/
def finalValue (calls : List Writer) (e : Str × Str) : Str :=
  ((calls.reverse.find? fun c => c.name = e.1).map Writer.value).getD e.2

def finalParams (calls : List Writer) (declared : List (Str × Str)) : List (Str × Str) :=
  declared.map fun e => (e.1, finalValue calls e)

/-- A run of the job that joined a session whose parameters were set before, and
in which no step reports an error. -/
structure ParamRun (jobName : Str) where
  os : Os
  ctx : Context
  sessionId : Str
  freshId : Str
  force : Bool
  stdin : List Str
  script : Launch → ScriptRun
  calls : List Writer
  declared : List (Str × Str)
  /-- The files before the calls, after them and when the run starts. -/
  before : FileTree
  after : FileTree
  tree : FileTree
  sessionId_ne_nil : sessionId ≠ []
  joined : os.getEnvVar "session_id" = sessionId
  absent : before.find (sessionPrm ctx ⟨sessionId, false⟩) = none
  storable : ∀ c ∈ calls, Storable (c.name, c.value)
  set : setParams P ctx ⟨sessionId, false⟩ before calls = some after
  kept : tree.find (sessionPrm ctx ⟨sessionId, false⟩) = after.find (sessionPrm ctx ⟨sessionId, false⟩)
  declares : ∃ text, tree.content (jobPath ctx jobName / "job.params") = some text ∧
    P.readIstreamOrderedKvStr text true = some declared
  opens : os.ifstreamFault (jobPath ctx jobName / "job.params") = false
  distinct : (declared.map Prod.fst).Nodup
  parsesBack : ∀ e ∈ declared, e.1 ≠ [] ∧ P.ParsesBack e
  prepared : (prepareParams P os tree ctx ⟨sessionId, false⟩ declared).2 = none
  succeeded : (startjob P os tree ctx freshId ⟨jobName, false, force, none⟩ stdin script).exitStatus = 0

def ParamRun.result {jobName : Str} (r : ParamRun P jobName) : StartjobResult :=
  startjob P r.os r.tree r.ctx r.freshId ⟨jobName, false, r.force, none⟩ r.stdin r.script

/-- The build has exactly the declared parameters, and its script reads the
final value of each and nothing else. -/
def PipelineLaw (jobName : Str) : Prop :=
  ∀ r : ParamRun P jobName, ∃ launch n, r.result.launch = some launch ∧ r.result.build = some n ∧
    (∃ text, launch.tree.content (buildDir r.ctx jobName n / "job.params") = some text ∧
      P.readIstreamOrderedKvStr text true = some (finalParams r.calls r.declared)) ∧
    ∀ (reader : Os) (t : FileTree), reader.Faultless → reader.SplitsAtColon →
      reader.environment = launch.env →
      t.content (buildDir r.ctx jobName n / "job.params") =
        launch.tree.content (buildDir r.ctx jobName n / "job.params") →
      ∀ name, getParam P reader t r.ctx name =
        (some (((r.declared.find? fun e => e.1 = name).map (finalValue r.calls)).getD []), none)

end Model

variable {P : ProtoUtils}

/-! ### From the session to the build -/

theorem stores_of_setParams (hP : P.Lawful) {ctx : Context} {session : Session}
    {calls : List Writer} (hCalls : ∀ c ∈ calls, Storable (c.name, c.value)) {t t' : FileTree}
    {m : SortedMap Str Str} (h : Stores P t (sessionPrm ctx session) m)
    (hSet : setParams P ctx session t calls = some t') :
    Stores P t' (sessionPrm ctx session) (calls.foldl (fun m c => m.insert c.name c.value) m) := by
  induction calls generalizing t m with
  | nil =>
    cases hSet
    exact h
  | cons c calls ih =>
    obtain ⟨t₁, hFirst, hRest⟩ := run_cons_eq_some.mp hSet
    have hStores := setKvFile_clear_refines hP h (hCalls c List.mem_cons_self)
      (accepted_eq_some.mp hFirst)
    exact ih (fun d hd => hCalls d (List.mem_cons_of_mem c hd)) hStores hRest

theorem find_foldl_writers (calls : List Writer) (name : Str) :
    (calls.foldl (fun m c => m.insert c.name c.value) (∅ : SortedMap Str Str)).find name =
      (calls.reverse.find? fun c => c.name = name).map Writer.value := by
  have hPairs : calls.foldl (fun m c => m.insert c.name c.value) (∅ : SortedMap Str Str) =
      (calls.map fun c => (c.name, c.value)).foldl (fun m e => m.insert e.1 e.2) ∅ := by
    rw [List.foldl_map]
  rw [hPairs, SortedMap.find_foldl_insert, SortedMap.find_empty, Option.or_none, ← List.map_reverse,
    List.find?_map, Option.map_map]
  rfl

section Run

variable {jobName : Str} (r : ParamRun P jobName)

theorem ParamRun.prepareParams_eq (hP : P.Lawful) :
    prepareParams P r.os r.tree r.ctx ⟨r.sessionId, false⟩ r.declared =
      (finalParams r.calls r.declared, none) := by
  have hStores : Stores P r.tree (sessionPrm r.ctx ⟨r.sessionId, false⟩)
      (r.calls.foldl (fun m c => m.insert c.name c.value) ∅) := by
    have hAfter := stores_of_setParams hP r.storable (Or.inl ⟨r.absent, rfl⟩) r.set
    unfold Stores at hAfter ⊢
    rwa [r.kept, FileTree.content_congr r.kept]
  have hClear : (readKvFile P r.os r.tree (sessionPrm r.ctx ⟨r.sessionId, false⟩) true
      .cantReadSessionValuesFile).2 = none := by
    have hPrepared := r.prepared
    unfold prepareParams at hPrepared
    split at hPrepared
    · rename_i ec hRead
      rw [hRead]
      exact hPrepared
    · rename_i values ec hRead
      rw [hRead]
      exact hPrepared
  simp only [prepareParams, readKvFile_clear_of_stores hP hStores hClear, find_foldl_writers]
  rfl

theorem ParamRun.loadJob_ok :
    ∃ job, loadJob P r.os r.tree r.ctx jobName = .ok job ∧ job.config.params = r.declared := by
  obtain ⟨job, hLoad⟩ := startjob_loads P r.os r.succeeded
  refine ⟨job, hLoad, ?_⟩
  obtain ⟨_, _, _, _, _, _, hParams, _, _⟩ := loadJob_eq_ok hLoad
  obtain ⟨text, hText, hDeclared⟩ := r.declares
  simp only [loadParams, Os.openIfstream_of_content r.opens hText, hDeclared,
    Fallible.orThrow_eq_ok, Option.some.injEq] at hParams
  exact hParams.symm

theorem ParamRun.launch_ok (hP : P.Lawful) :
    ∃ launch n, r.result.launch = some launch ∧ r.result.build = some n ∧
      launch.env.find "job_name" = some jobName ∧
      launch.env.find "build_number" = some (numberString n) ∧
      launch.tree.content (buildDir r.ctx jobName n / "job.params") =
        some (P.encodedLines (finalParams r.calls r.declared)) ∧
      FileTree.SameOutside (buildDir r.ctx jobName n <:+ ·) r.tree launch.tree := by
  obtain ⟨job, hLoad, hDeclared⟩ := r.loadJob_ok
  obtain ⟨env, run, _, hEnv, hRun, hBuild, hLaunch, _, hStatus⟩ := startjob_joined P r.os
    r.sessionId_ne_nil r.joined (show (⟨jobName, false, r.force, none⟩ : StartjobArgs).newSession = false
      from rfl) rfl hLoad r.freshId r.stdin r.script
  rw [hDeclared, r.prepareParams_eq hP] at hRun
  have hPlaced := loadJob_placed hLoad
  have hClear := (hStatus.mp r.succeeded).1
  rw [hRun] at hBuild hLaunch hClear
  obtain ⟨launch, hSome⟩ := Option.ne_none_iff_exists'.mp
    (runBuild_clear P r.os hPlaced r.tree _ _ env _ r.script hClear)
  obtain ⟨n, _, hHandle, hLaunchEnv, _, hFrame, hContent⟩ :=
    runBuild_launch P r.os hPlaced r.tree _ _ env _ r.script hSome
  obtain rfl := loadJob_name hLoad
  refine ⟨launch, n, hLaunch.trans hSome, hBuild.trans hHandle, ?_, ?_, hContent, hFrame⟩
  · rw [hLaunchEnv]
    exact (hEnv n).1
  · rw [hLaunchEnv]
    exact (hEnv n).2

/-! ### From the build to the script -/

theorem ParamRun.final_parsesBack (hP : P.Lawful) :
    ∀ e ∈ finalParams r.calls r.declared, P.ParsesBack e := by
  intro e he
  obtain ⟨d, hd, rfl⟩ := List.mem_map.mp he
  cases hFind : r.calls.reverse.find? fun c => c.name = d.1 with
  | none =>
    simp only [finalValue, hFind, Option.map_none, Option.getD_none]
    exact (r.parsesBack d hd).2
  | some c =>
    have hName : c.name = d.1 := by simpa using List.find?_some hFind
    have hStorable := r.storable c (List.mem_reverse.mp (List.mem_of_find?_eq_some hFind))
    simp only [finalValue, hFind, Option.map_some, Option.getD_some]
    exact hP.parsesBack (hName ▸ hStorable.1) hStorable.2

theorem find_finalParams {calls : List Writer} {declared : List (Str × Str)}
    (hDistinct : (declared.map Prod.fst).Nodup) {m : SortedMap Str Str}
    (hm : ∀ k v, m.find k = some v ↔ (k, v) ∈ finalParams calls declared) (name : Str) :
    m.find name = (declared.find? fun e => e.1 = name).map (finalValue calls) := by
  apply Option.ext
  intro v
  rw [hm, finalParams, List.mem_map, Option.map_eq_some_iff]
  constructor
  · rintro ⟨d, hd, hEq⟩
    cases hEq
    have hSome : (declared.find? fun e => e.1 = d.1).isSome := by
      rw [List.find?_isSome]
      exact ⟨d, hd, by simp⟩
    obtain ⟨a, ha⟩ := Option.isSome_iff_exists.mp hSome
    have hName : a.1 = d.1 := by simpa using List.find?_some ha
    have hSame : a = d := List.inj_on_of_nodup_map hDistinct (List.mem_of_find?_eq_some ha) hd hName
    exact ⟨a, ha, by rw [hSame]⟩
  · rintro ⟨d, hd, rfl⟩
    have hName : d.1 = name := by simpa using List.find?_some hd
    exact ⟨d, List.mem_of_find?_eq_some hd, by rw [hName]⟩

theorem ParamRun.getParam_eq (hP : P.Lawful) {t : FileTree} {p : FsPath}
    (hContent : t.content p = some (P.encodedLines (finalParams r.calls r.declared))) {reader : Os}
    (hReader : reader.Faultless) {ctx : Context}
    (hPath : ctx.baseDir / "jobs" / reader.getEnvVar "job_name" / reader.getEnvVar "build_number" /
      "job.params" = p) (name : Str) :
    getParam P reader t ctx name =
      (some (((r.declared.find? fun e => e.1 = name).map (finalValue r.calls)).getD []), none) := by
  have hRead := hP.read_encodedLines (r.final_parsesBack hP)
  have hNodup : ((finalParams r.calls r.declared).map Prod.fst).Nodup := by
    rw [finalParams, List.map_map]
    exact r.distinct
  obtain ⟨m, hMap, hm⟩ := hP.readKv_find hRead hNodup
  rw [getParam, hPath, getKvFile, readKvFile_present hReader hContent, hMap]
  simp only [find_finalParams r.distinct hm]

end Run

theorem pipelineLaw_of_no_colon (hP : P.Lawful) {jobName : Str} (hName : ':' ∉ jobName) :
    PipelineLaw P jobName := by
  intro r
  obtain ⟨launch, n, hLaunch, hBuild, hJob, hNumber, hContent, _⟩ := r.launch_ok hP
  refine ⟨launch, n, hLaunch, hBuild,
    ⟨_, hContent, hP.read_encodedLines (r.final_parsesBack hP)⟩, ?_⟩
  intro reader t hReader hSplits hEnv hSame
  apply r.getParam_eq hP (hSame.trans hContent) hReader
  rw [Os.getEnvVar_eq_self hSplits (hEnv ▸ hJob) hName,
    Os.getEnvVar_eq_self hSplits (hEnv ▸ hNumber) (colon_not_mem_numberString n)]
  rfl

end CisCore
