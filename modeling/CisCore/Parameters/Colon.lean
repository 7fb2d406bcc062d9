import CisCore.Parameters.Pipeline
import CisCore.Session.Commands

/-! # Job names with a colon

The environment is read back up to the first colon of an entry, so a job whose
name has one looks for its parameters in another job's directory.
-/

namespace CisCore

theorem publishBuild_of_readable {P : ProtoUtils} (hP : P.Lawful) {os : Os} (hOs : os.Faultless)
    {t : FileTree} {ctx : Context} {session : Session}
    (h : Readable P t (sessionDat ctx session))
    (hSessions : t.isDirectory (ctx.baseDir / "sessions") = true) (jobName : Str) (number : Nat) :
    (publishBuild P os t ctx session jobName number).2 = none := by
  unfold publishBuild
  split
  · rfl
  have hFirst := setKvFile_of_readable hOs h hSessions .cantReadSessionValuesFile "last_job_name" jobName
  split
  · rename_i t₁ e hSet
    rw [setValue] at hSet
    rw [hSet] at hFirst
    cases hFirst
  · rename_i t₁ hSet
    rw [setValue] at hSet
    have hFrame := setKvFile_sameOutside P os t (sessionDat ctx session) .cantReadSessionValuesFile
      "last_job_name" jobName
    rw [hSet] at hFrame
    have hParent : t₁.isDirectory (ctx.baseDir / "sessions") = true := by
      rw [FileTree.isDirectory, hFrame _ (by simp [sessionDat])]
      exact hSessions
    exact setKvFile_of_readable hOs (setKvFile_readable hP h (by decide) hSet) hParent _ _ _

section World

variable (P : ProtoUtils) (jobName : Str)

def oneParam : List (Str × Str) := [("p", "d")]

def oneParamConf : List (Str × Str) :=
  [("script", "s"), ("keep_last_success_builds", "1"), ("keep_last_break_builds", "1")]

/-- A job with one parameter, and a session without any. -/
def oneParamTree : FileTree :=
  ((((((∅ : FileTree).insert [] .directory).insert ["sessions".toList] .directory).insert
    [jobName, "jobs".toList] .directory).insert ["s".toList, jobName, "jobs".toList] (.file [] true)).insert
    ["job.conf".toList, jobName, "jobs".toList] (.file (rawLines oneParamConf) false)).insert
    ["job.params".toList, jobName, "jobs".toList] (.file (P.encodedLines oneParam) false)

theorem find_oneParamTree (q : FsPath) : (oneParamTree P jobName).find q =
    if q = ["job.params".toList, jobName, "jobs".toList] then
      some (.file (P.encodedLines oneParam) false)
    else if q = ["job.conf".toList, jobName, "jobs".toList] then
      some (.file (rawLines oneParamConf) false)
    else if q = ["s".toList, jobName, "jobs".toList] then some (.file [] true)
    else if q = [jobName, "jobs".toList] then some .directory
    else if q = ["sessions".toList] then some .directory
    else if q = [] then some .directory else none := by
  simp only [oneParamTree, SortedMap.find_insert, SortedMap.find_empty]

theorem find_oneParamTree_build (n : Nat) {q : FsPath}
    (h : buildDir demoContext jobName n <:+ q) : (oneParamTree P jobName).find q = none := by
  have hName : ∀ name : Str, (∃ c ∈ name, c.isDigit = false) → q ≠ [name, jobName, "jobs".toList] := by
    rintro name ⟨c, hMem, hDigit⟩ rfl
    have hEq := List.IsSuffix.eq_of_length h rfl
    exact numberString_ne hMem hDigit n (List.cons.inj hEq).1
  have hLength := h.length_le
  rw [find_oneParamTree, if_neg (hName _ ⟨'j', by decide, by decide⟩),
    if_neg (hName _ ⟨'j', by decide, by decide⟩), if_neg (hName _ ⟨'s', by decide, by decide⟩),
    if_neg, if_neg, if_neg]
  all_goals
    rintro rfl
    simp [buildDir, jobPath, demoContext] at hLength

theorem find_oneParamTree_of_length {q : FsPath} (h : 3 < q.length) :
    (oneParamTree P jobName).find q = none := by
  rw [find_oneParamTree, if_neg, if_neg, if_neg, if_neg, if_neg, if_neg]
  all_goals
    rintro rfl
    simp at h

theorem find_oneParamTree_params : (oneParamTree P jobName).find
    ["job.params".toList, jobName, "jobs".toList] = some (.file (P.encodedLines oneParam) false) := by
  rw [find_oneParamTree, if_pos rfl]

theorem find_oneParamTree_conf : (oneParamTree P jobName).find
    ["job.conf".toList, jobName, "jobs".toList] = some (.file (rawLines oneParamConf) false) := by
  rw [find_oneParamTree, if_neg (by simp), if_pos rfl]

theorem find_oneParamTree_script : (oneParamTree P jobName).find
    ["s".toList, jobName, "jobs".toList] = some (.file [] true) := by
  rw [find_oneParamTree, if_neg (by simp), if_neg (by simp), if_pos rfl]

theorem find_oneParamTree_job :
    (oneParamTree P jobName).find [jobName, "jobs".toList] = some .directory := by
  rw [find_oneParamTree, if_neg (by simp), if_neg (by simp), if_neg (by simp), if_pos rfl]

theorem find_oneParamTree_sessions :
    (oneParamTree P jobName).find ["sessions".toList] = some .directory := by
  rw [find_oneParamTree, if_neg (by simp), if_neg (by simp), if_neg (by simp), if_neg (by simp),
    if_pos rfl]

theorem find_oneParamTree_session (name : Str) :
    (oneParamTree P jobName).find [name, "sessions".toList] = none := by
  rw [find_oneParamTree, if_neg (by simp), if_neg (by simp), if_neg (by simp), if_neg (by simp),
    if_neg (by simp), if_neg (by simp)]

theorem joinedOs_faultless : joinedOs.Faultless := Os.ideal_faultless _

theorem surelyExists_oneParamTree {q : FsPath} {node : Node}
    (h : (oneParamTree P jobName).find q = some node) :
    joinedOs.surelyExists (oneParamTree P jobName) q = true := by
  rw [Os.surelyExists, Os.pathExists_faultless joinedOs_faultless, FileTree.pathExists, h]
  rfl

variable {P}

theorem jobCounts_oneParam (hP : P.Lawful) :
    ∃ conf, P.readIstreamKvStr (rawLines oneParamConf) false = some conf ∧
      jobCounts conf = some ("s".toList, 1, 1) := by
  have hLines : P.readIstreamOrderedKvStr (rawLines oneParamConf) false = some oneParamConf :=
    hP.read_rawLines (by decide)
  obtain ⟨conf, hConf, hFind⟩ := hP.readKv_find hLines (by decide)
  have hScript := (hFind "script" "s").mpr (by decide)
  have hSuccess := (hFind "keep_last_success_builds" "1").mpr (by decide)
  have hBreak := (hFind "keep_last_break_builds" "1").mpr (by decide)
  have hOne : u32FromString "1" = some 1 := by decide
  refine ⟨conf, hConf, ?_⟩
  simp only [jobCounts, hScript, hSuccess, hBreak, Option.getD_some, hOne]

theorem read_oneParam (hP : P.Lawful) :
    P.readIstreamOrderedKvStr (P.encodedLines oneParam) true = some oneParam := by
  apply hP.read_encodedLines
  intro p hp
  obtain rfl := List.mem_singleton.mp hp
  exact hP.parsesBack (by decide) (by decide)

theorem loadJob_oneParam (hP : P.Lawful) :
    ∃ job, loadJob P joinedOs (oneParamTree P jobName) demoContext jobName = .ok job ∧
      job.config.script = "s".toList ∧ job.config.params = oneParam := by
  have hConfText : joinedOs.openIfstream (oneParamTree P jobName)
      (jobPath demoContext jobName / "job.conf") = some (rawLines oneParamConf) := by
    apply Os.openIfstream_faultless joinedOs_faultless
    exact FileTree.content_of_find (find_oneParamTree_conf P jobName)
  obtain ⟨conf, hConf, hCounts⟩ := jobCounts_oneParam hP
  have hParams : loadParams P joinedOs (oneParamTree P jobName) (jobPath demoContext jobName) =
      .ok oneParam := by
    have hText : joinedOs.openIfstream (oneParamTree P jobName)
        (jobPath demoContext jobName / "job.params") = some (P.encodedLines oneParam) := by
      apply Os.openIfstream_faultless joinedOs_faultless
      exact FileTree.content_of_find (find_oneParamTree_params P jobName)
    simp only [loadParams, hText, Fallible.orThrow_eq_ok]
    exact read_oneParam hP
  refine ⟨⟨jobName, ⟨"s".toList, 1, 1, oneParam⟩, loadBuilds joinedOs (oneParamTree P jobName)
    (jobPath demoContext jobName)⟩, ?_, rfl, rfl⟩
  simp only [loadJob, loadConfig, Fallible.bind_eq_ok, Fallible.require_eq_ok, Fallible.orThrow_eq_ok,
    Fallible.pure_eq_ok]
  exact ⟨(), surelyExists_oneParamTree P jobName (find_oneParamTree_job P jobName), _, ⟨_, hConfText,
    conf, hConf, _, hCounts, (),
    surelyExists_oneParamTree P jobName (find_oneParamTree_script P jobName), _, hParams, rfl⟩, rfl⟩

theorem startjob_oneParam (hP : P.Lawful) : (startjob P joinedOs (oneParamTree P jobName) demoContext "f"
    ⟨jobName, false, false, none⟩ [] fun _ => ⟨[], some 0⟩).exitStatus = 0 := by
  obtain ⟨job, hLoad, hScript, hParams⟩ := loadJob_oneParam jobName hP
  have hId : ("s" : Str) ≠ [] := by decide
  have hNew : (⟨jobName, false, false, none⟩ : StartjobArgs).newSession = false := rfl
  obtain ⟨env, run, _, _, hRun, _, _, _, hStatus⟩ :=
    startjob_joined P joinedOs hId rfl hNew rfl hLoad "f" [] fun _ => ⟨[], some 0⟩
  have hPlaced := loadJob_placed hLoad
  have hName := loadJob_name hLoad
  have hClear : run.ec = none := by
    rw [hRun]
    apply runBuild_faultless P joinedOs_faultless hPlaced
    · simp
    · rw [hScript]; decide
    · rw [hScript, hName]; exact find_oneParamTree_script P jobName
    · rw [hName]; exact find_oneParamTree_conf P jobName
    · rw [hName, FileTree.isDirectory_iff]; exact find_oneParamTree_job P jobName
    · rw [hName]; intro q hq; exact find_oneParamTree_build P jobName _ hq
  have hFrame := runBuild_sameOutside P joinedOs hPlaced (oneParamTree P jobName) ⟨"s", false⟩
    (prepareParams P joinedOs (oneParamTree P jobName) demoContext ⟨"s", false⟩ job.config.params).1
    env false fun _ => ⟨[], some 0⟩
  rw [← hRun] at hFrame
  have hDat : run.tree.find (sessionDat demoContext ⟨"s", false⟩) = none := by
    rw [hFrame _ (not_buildDir_suffix_sessionDat _ _ _ _)]
    exact find_oneParamTree_session P jobName _
  have hSessions : run.tree.isDirectory (demoContext.baseDir / "sessions") = true := by
    rw [FileTree.isDirectory_iff, hFrame]
    · exact find_oneParamTree_sessions P jobName
    · intro hSuffix
      have hLength := hSuffix.length_le
      simp only [buildDir, jobPath, FileTree.div_str, FileTree.div_string, List.length_cons] at hLength
      omega
  rw [hStatus]
  exact ⟨hClear, publishBuild_of_readable hP joinedOs_faultless (Or.inl hDat) hSessions _ _, rfl⟩

def oneParamRun (hP : P.Lawful) : ParamRun P jobName where
  os := joinedOs
  ctx := demoContext
  sessionId := "s"
  freshId := "f"
  force := false
  stdin := []
  script := fun _ => ⟨[], some 0⟩
  calls := []
  declared := oneParam
  before := oneParamTree P jobName
  after := oneParamTree P jobName
  tree := oneParamTree P jobName
  sessionId_ne_nil := by decide
  joined := rfl
  absent := find_oneParamTree_session P jobName _
  storable := by simp
  set := rfl
  kept := rfl
  declares := ⟨_, FileTree.content_of_find (find_oneParamTree_params P jobName), read_oneParam hP⟩
  opens := rfl
  distinct := by decide
  parsesBack := by
    intro e he
    obtain rfl := List.mem_singleton.mp he
    exact ⟨by decide, hP.parsesBack (by decide) (by decide)⟩
  prepared := by
    have hAbsent : (oneParamTree P jobName).find (sessionPrm demoContext ⟨"s", false⟩) = none :=
      find_oneParamTree_session P jobName _
    rw [prepareParams, readKvFile_absent joinedOs_faultless hAbsent]
  succeeded := startjob_oneParam jobName hP

end World

theorem not_pipelineLaw_of_colon {P : ProtoUtils} (hP : P.Lawful) {jobName : Str}
    (hColon : ':' ∈ jobName) : ¬PipelineLaw P jobName := by
  intro hLaw
  obtain ⟨launch, n, hLaunch, hBuild, hJob, hNumber, _, hFrame⟩ :=
    (oneParamRun jobName hP).launch_ok hP
  obtain ⟨launch', n', hLaunch', hBuild', _, hRead⟩ := hLaw (oneParamRun jobName hP)
  cases hLaunch.symm.trans hLaunch'
  cases hBuild.symm.trans hBuild'
  have hSplits := Os.ideal_splitsAtColon launch.env
  have hShort : jobName.takeWhile (· != ':') ≠ jobName := fun hEq =>
    Os.takeWhile_ne_colon_iff.mp hEq hColon
  have hAbsent : launch.tree.find (demoContext.baseDir / "jobs" /
      (Os.ideal launch.env).getEnvVar "job_name" / (Os.ideal launch.env).getEnvVar "build_number" /
      "job.params") = none := by
    rw [Os.getEnvVar_eq hSplits hJob, hFrame]
    · exact find_oneParamTree_of_length P jobName (by simp [demoContext])
    · intro hSuffix
      have hTail := List.IsSuffix.eq_of_length
        ((List.suffix_cons_iff.mp hSuffix).resolve_left fun hEq => by
          have := congrArg List.length hEq
          simp [buildDir, jobPath, demoContext, oneParamRun] at this) rfl
      exact hShort (List.cons.inj (List.cons.inj hTail).2).1.symm
  have hDefault := hRead (Os.ideal launch.env) launch.tree (Os.ideal_faultless _) hSplits rfl rfl "p"
  simp only [getParam, getKvFile, oneParamRun] at hDefault
  rw [readKvFile_absent (Os.ideal_faultless _) hAbsent] at hDefault
  revert hDefault
  decide

/-- The pipeline works for a job exactly if its name has no colon. -/
theorem pipeline_law_iff {P : ProtoUtils} (hP : P.Lawful) (jobName : Str) :
    PipelineLaw P jobName ↔ ':' ∉ jobName := by
  constructor
  · intro hLaw hColon
    exact not_pipelineLaw_of_colon hP hColon hLaw
  · exact pipelineLaw_of_no_colon hP

theorem pipeline_law_iff_reference : PipelineLaw .reference "j" ↔ ':' ∉ ("j" : Str) :=
  pipeline_law_iff ProtoUtils.reference_lawful "j"

/-- The build of job `a:b` has the parameter `p=d`, and its script reads nothing. -/
theorem pipeline_fails_with_colon :
    ∃ launch, (startjob .reference joinedOs (oneParamTree .reference "a:b") demoContext "f"
        ⟨"a:b", false, false, none⟩ [] fun _ => ⟨[], some 0⟩).launch = some launch ∧
      launch.tree.content (buildDir demoContext "a:b" 0 / "job.params") = some "p=d\n" ∧
      getParam .reference (.ideal launch.env) launch.tree demoContext "p" = (some [], none) ∧
      ¬PipelineLaw .reference "a:b" := by
  refine ⟨_, rfl, by decide, by decide, ?_⟩
  exact not_pipelineLaw_of_colon ProtoUtils.reference_lawful (by decide)

end CisCore
