import CisCore.Job.Load

/-! # Which jobs are loaded, and how their builds are sorted

What `load_job` asks of a job's directory, without the order of its checks, and
the partition of the entries of the directory among the three maps.
-/

namespace CisCore

open Fallible

variable {P : ProtoUtils} {os : Os} {t : FileTree} {ctx : Context} {jobName : Str}

/-! ### Acceptance -/

theorem Os.surelyExists_iff {p : FsPath} :
    os.surelyExists t p = true ↔ os.pathExists t p = (true, none) := by
  rw [Os.surelyExists]
  rcases os.pathExists t p with ⟨found, _ | e⟩ <;> simp

theorem u32FromString_nil : u32FromString [] = none := by decide

/-- The key that is never checked has to be there all the same. -/
theorem jobCounts_eq_some_iff {conf : SortedMap Str Str} {script : Str} {ks kb : Nat} :
    jobCounts conf = some (script, ks, kb) ↔ conf.find "script" = some script ∧
      (∃ text, conf.find "keep_last_success_builds" = some text ∧ u32FromString text = some ks) ∧
      ∃ text, conf.find "keep_last_break_builds" = some text ∧ u32FromString text = some kb := by
  have hMissing : ∀ value : Option Str, u32FromString (value.getD []) = some kb ↔
      ∃ text, value = some text ∧ u32FromString text = some kb := by
    intro value
    cases value with
    | none => simp [u32FromString_nil]
    | some text => simp
  rw [jobCounts, ← hMissing]
  cases conf.find "script" with
  | none => simp
  | some script' =>
    cases conf.find "keep_last_success_builds" with
    | none => simp
    | some text =>
      cases hKs : u32FromString text with
      | none => simp [hKs]
      | some ks' =>
        cases hKb : u32FromString ((conf.find "keep_last_break_builds").getD []) with
        | none => simp [hKs]
        | some kb' => simp [hKs]

theorem loadParams_eq_ok_iff {path : FsPath} :
    (∃ params, loadParams P os t path = .ok params) ↔
      ∀ text, os.openIfstream t (path / "job.params") = some text →
        P.readIstreamOrderedKvStr text true ≠ none := by
  rw [loadParams]
  cases os.openIfstream t (path / "job.params") with
  | none => simp
  | some text =>
    simp only [orThrow_eq_ok, Option.some.injEq, forall_eq']
    exact Option.ne_none_iff_exists'.symm

theorem loadConfig_ok_iff {path : FsPath} {scriptFound : Str → Bool} :
    (∃ config, loadConfig P os t path scriptFound = .ok config) ↔
      (∃ text conf script ks kb, os.openIfstream t (path / "job.conf") = some text ∧
        P.readIstreamKvStr text false = some conf ∧ jobCounts conf = some (script, ks, kb) ∧
        scriptFound script = true) ∧
      ∀ text, os.openIfstream t (path / "job.params") = some text →
        P.readIstreamOrderedKvStr text true ≠ none := by
  simp only [loadConfig, bind_eq_ok, orThrow_eq_ok, require_eq_ok, pure_eq_ok,
    ← loadParams_eq_ok_iff]
  constructor
  · rintro ⟨config, text, hText, conf, hConf, ⟨script, ks, kb⟩, hCounts, _, hScript, params, hParams,
      _⟩
    exact ⟨⟨text, conf, script, ks, kb, hText, hConf, hCounts, hScript⟩, params, hParams⟩
  · rintro ⟨⟨text, conf, script, ks, kb, hText, hConf, hCounts, hScript⟩, params, hParams⟩
    exact ⟨_, text, hText, conf, hConf, _, hCounts, (), hScript, params, hParams, rfl⟩

theorem loadConfig_error {path : FsPath} {scriptFound : Str → Bool} {e : ErrorCode}
    (h : loadConfig P os t path scriptFound = .error e) :
    e ∈ [.cantReadJobConfFile, .scriptDoesntExist, .cantReadJobParamsFile] := by
  have hParams : loadParams P os t path = .error e → e = .cantReadJobParamsFile := by
    intro hParams
    rw [loadParams] at hParams
    split at hParams
    · cases hParams
    · exact (orThrow_eq_error.mp hParams).2.symm
  simp only [loadConfig, bind_eq_error, require_eq_error, orThrow_eq_error] at h
  obtain ⟨_, rfl⟩ | ⟨_, _, ⟨_, rfl⟩ | ⟨_, _, ⟨_, rfl⟩ | ⟨_, _, ⟨_, rfl⟩ |
    ⟨_, _, hLast | ⟨_, _, hPure⟩⟩⟩⟩⟩ := h
  · simp
  · simp
  · simp
  · simp
  · simp [hParams hLast]
  · cases hPure

/-- Only the script that the configuration names is looked for. -/
theorem loadConfig_congr {path : FsPath} {scriptFound scriptFound' : Str → Bool}
    (h : ∀ text conf script counts, os.openIfstream t (path / "job.conf") = some text →
      P.readIstreamKvStr text false = some conf → jobCounts conf = some (script, counts) →
      scriptFound script = scriptFound' script) :
    loadConfig P os t path scriptFound = loadConfig P os t path scriptFound' := by
  rw [loadConfig, loadConfig]
  cases hText : os.openIfstream t (path / "job.conf") with
  | none => rfl
  | some text =>
    cases hConf : P.readIstreamKvStr text false with
    | none => simp [orThrow, bind, Except.bind, hConf]
    | some conf =>
      cases hCounts : jobCounts conf with
      | none => simp [orThrow, bind, Except.bind, hConf, hCounts]
      | some counts =>
        simp [orThrow, bind, Except.bind, hConf, hCounts, h text conf counts.1 counts.2 hText hConf hCounts]

theorem loadJob_ok_iff :
    (∃ job, loadJob P os t ctx jobName = .ok job) ↔
      os.pathExists t (jobPath ctx jobName) = (true, none) ∧
      (∃ text conf script ks kb, os.openIfstream t (jobPath ctx jobName / "job.conf") = some text ∧
        P.readIstreamKvStr text false = some conf ∧ jobCounts conf = some (script, ks, kb) ∧
        os.pathExists t (jobPath ctx jobName / script) = (true, none)) ∧
      ∀ text, os.openIfstream t (jobPath ctx jobName / "job.params") = some text →
        P.readIstreamOrderedKvStr text true ≠ none := by
  simp only [loadJob, bind_eq_ok, require_eq_ok, pure_eq_ok, ← Os.surelyExists_iff]
  rw [← loadConfig_ok_iff]
  constructor
  · rintro ⟨job, _, hExists, config, hConfig, _⟩
    exact ⟨hExists, config, hConfig⟩
  · rintro ⟨hExists, config, hConfig⟩
    exact ⟨_, (), hExists, config, hConfig, rfl⟩

/-! ### The partition of the builds -/

theorem buildExitcode_eq (dir : FsPath) : buildExitcode os t dir =
    ((os.openIfstream t (dir / "exitcode.txt")).map Text.firstLine).bind u32FromString := by
  rw [buildExitcode]
  cases os.openIfstream t (dir / "exitcode.txt") with
  | none => exact u32FromString_nil
  | some text => rfl

theorem loadBuilds_entry (os : Os) {path : FsPath} {name : Str} {node : Node}
    (hEntry : (name, node) ∈ t.children path) (hName : isBuild name = true) :
    (loadBuilds os t path).Only (buildStatus os t (path / name)) (Text.digitsValue name)
      (path / name) := by
  have hNumber := buildNumber_eq_digitsValue hName
  apply find_loadBuilds_only
  · rw [← hNumber]
    exact buildNumber_lt hName
  · rw [← hNumber, numberString_buildNumber hName]
  · rw [FileTree.pathExists, FileTree.mem_children_iff.mp hEntry]
    rfl
  · rfl

theorem mem_children_of_find_loadBuilds {path p : FsPath} {s : BuildStatus} {n : Nat}
    (h : ((loadBuilds os t path).get s).find n = some p) :
    ∃ name node, (name, node) ∈ t.children path ∧ isBuild name = true ∧
      n = Text.digitsValue name ∧ p = path / name := by
  obtain ⟨hLt, rfl, hExists, _⟩ := find_loadBuilds.mp h
  obtain ⟨node, hNode⟩ := Option.isSome_iff_exists.mp hExists
  exact ⟨numberString n, node, FileTree.mem_children_iff.mpr hNode, isBuild_numberString hLt,
    (Text.digitsValue_zeroPadded 6 n).symm, rfl⟩

/-! ### The outcome of the call

The name of the job and that of its script may be any texts, and the directory is
listed by a call that throws.
-/

def jobDirectory (t : FileTree) (ctx : Context) (jobName : Str) : Option FsPath :=
  t.follow (ctx.baseDir / "jobs") jobName

def Os.scriptFound (os : Os) (t : FileTree) (path : FsPath) (script : Str) : Bool :=
  (t.follow path script).any (os.surelyExists t)

/-- `load_job`: the exception that leaves it, or the job or the error code that it returns. -/
def loadJobThrowing (P : ProtoUtils) (os : Os) (t : FileTree) (ctx : Context) (jobName : Str) :
    Except Errno (Except ErrorCode Job) :=
  match jobDirectory t ctx jobName with
  | none => .ok (.error .jobDirDoesntExist)
  | some path =>
    if os.surelyExists t path then
      match loadConfig P os t path (os.scriptFound t path) with
      | .error e => .ok (.error e)
      | .ok config =>
        match os.listDirectory t path with
        | .error e => .error e
        | .ok entries => .ok (.ok ⟨jobName, config, sortBuilds os t path entries⟩)
    else .ok (.error .jobDirDoesntExist)

/-- What `load_job` asks of the directory of a job. -/
structure WellFormedJob (P : ProtoUtils) (os : Os) (t : FileTree) (path : FsPath) : Prop where
  directory : os.pathExists t path = (true, none)
  configured : ∃ text conf script ks kb, os.openIfstream t (path / "job.conf") = some text ∧
    P.readIstreamKvStr text false = some conf ∧ conf.find "script" = some script ∧
    conf.find "keep_last_success_builds" = some ks ∧ u32FromString ks ≠ none ∧
    conf.find "keep_last_break_builds" = some kb ∧ u32FromString kb ≠ none ∧
    ∃ q, t.follow path script = some q ∧ os.pathExists t q = (true, none)
  params : ∀ text, os.openIfstream t (path / "job.params") = some text →
    P.readIstreamOrderedKvStr text true ≠ none

theorem Os.scriptFound_iff {path : FsPath} {script : Str} :
    os.scriptFound t path script = true ↔
      ∃ q, t.follow path script = some q ∧ os.pathExists t q = (true, none) := by
  rw [Os.scriptFound, Option.any_eq_true]
  simp only [Os.surelyExists_iff]

theorem wellFormedJob_iff {path : FsPath} :
    WellFormedJob P os t path ↔ os.surelyExists t path = true ∧
      ∃ config, loadConfig P os t path (os.scriptFound t path) = .ok config := by
  rw [loadConfig_ok_iff, Os.surelyExists_iff]
  simp only [jobCounts_eq_some_iff, Os.scriptFound_iff]
  constructor
  · rintro ⟨hExists, ⟨text, conf, script, s, k, hText, hConf, hScript, hs, hKs, hk, hKb, hFound⟩,
      hParams⟩
    obtain ⟨ks, hKs⟩ := Option.ne_none_iff_exists'.mp hKs
    obtain ⟨kb, hKb⟩ := Option.ne_none_iff_exists'.mp hKb
    exact ⟨hExists, ⟨text, conf, script, ks, kb, hText, hConf,
      ⟨hScript, ⟨s, hs, hKs⟩, k, hk, hKb⟩, hFound⟩, hParams⟩
  · rintro ⟨hExists, ⟨text, conf, script, ks, kb, hText, hConf,
      ⟨hScript, ⟨s, hs, hKs⟩, k, hk, hKb⟩, hFound⟩, hParams⟩
    exact ⟨hExists, ⟨text, conf, script, s, k, hText, hConf, hScript, hs, by simp [hKs], hk,
      by simp [hKb], hFound⟩, hParams⟩

/-- An error code says that there is no well-formed job; where there is one the listing
of its directory decides. -/
theorem loadJobThrowing_cases (P : ProtoUtils) (os : Os) (t : FileTree) (ctx : Context) (jobName : Str) :
    (∃ e, loadJobThrowing P os t ctx jobName = .ok (.error e) ∧ e ≠ .ok ∧
      ∀ path, jobDirectory t ctx jobName = some path → ¬WellFormedJob P os t path) ∨
    ∃ path config, jobDirectory t ctx jobName = some path ∧ WellFormedJob P os t path ∧
      loadConfig P os t path (os.scriptFound t path) = .ok config ∧
      loadJobThrowing P os t ctx jobName =
        match os.listDirectory t path with
        | .error e => .error e
        | .ok entries => .ok (.ok ⟨jobName, config, sortBuilds os t path entries⟩) := by
  rw [loadJobThrowing]
  cases jobDirectory t ctx jobName with
  | none => exact Or.inl ⟨_, rfl, by decide, by simp⟩
  | some path =>
    by_cases hExists : os.surelyExists t path
    · cases hConfig : loadConfig P os t path (os.scriptFound t path) with
      | error e =>
        refine Or.inl ⟨e, by simp [hExists, hConfig], ?_, ?_⟩
        · rintro rfl
          exact absurd (loadConfig_error hConfig) (by decide)
        · rintro _ ⟨⟩ hJob
          obtain ⟨_, config, hOk⟩ := wellFormedJob_iff.mp hJob
          cases hConfig.symm.trans hOk
      | ok config =>
        refine Or.inr ⟨path, config, rfl, wellFormedJob_iff.mpr ⟨hExists, config, hConfig⟩, hConfig, ?_⟩
        simp only [hExists, hConfig, if_true]
    · refine Or.inl ⟨.jobDirDoesntExist, by simp [hExists], by decide, ?_⟩
      rintro _ ⟨⟩ hJob
      exact hExists (wellFormedJob_iff.mp hJob).1

theorem Os.listDirectory_cases (os : Os) (t : FileTree) (p : FsPath) :
    os.listDirectory t p = .ok (t.children p) ∨ ∃ e, os.listDirectory t p = .error e := by
  rw [Os.listDirectory]
  cases os.listFault p with
  | some e => exact Or.inr ⟨e, rfl⟩
  | none =>
    cases t.isDirectory p with
    | false => exact Or.inr ⟨_, rfl⟩
    | true => exact Or.inl rfl

/-- Where every name is one component, the outcome is that of `loadJob` and of the listing. -/
theorem loadJobThrowing_of_plain (hTree : t.WellFormed) (hName : FileTree.PlainName jobName)
    (hScript : ∀ text conf script counts,
      os.openIfstream t (jobPath ctx jobName / "job.conf") = some text →
      P.readIstreamKvStr text false = some conf → jobCounts conf = some (script, counts) →
      FileTree.PlainName script) :
    loadJobThrowing P os t ctx jobName =
      match loadJob P os t ctx jobName with
      | .error e => .ok (.error e)
      | .ok job =>
        match os.listFault (jobPath ctx jobName) with
        | some e => .error e
        | none => .ok (.ok job) := by
  have hMissing : ∀ p, t.pathExists p = false → os.surelyExists t p = false := by
    intro p hNone
    rw [← Bool.not_eq_true]
    intro hExists
    rw [Os.surelyExists_eq_true hExists] at hNone
    cases hNone
  cases hJobs : t.isDirectory (ctx.baseDir / "jobs") with
  | false =>
    have hNoFollow : jobDirectory t ctx jobName = none := by
      rw [jobDirectory, hName.follow_eq, hJobs]
      rfl
    have hNoJob : os.surelyExists t (jobPath ctx jobName) = false := by
      apply hMissing
      rw [← Bool.not_eq_true]
      intro hExists
      rw [hTree _ _ hExists] at hJobs
      cases hJobs
    simp [loadJobThrowing, hNoFollow, loadJob, hNoJob, require, bind, Except.bind]
  | true =>
    have hFollow : jobDirectory t ctx jobName = some (jobPath ctx jobName) := hName.follow hJobs
    have hConfig : loadConfig P os t (jobPath ctx jobName) (os.scriptFound t (jobPath ctx jobName)) =
        loadConfig P os t (jobPath ctx jobName) fun script =>
          os.surelyExists t (jobPath ctx jobName / script) := by
      apply loadConfig_congr
      intro text conf script counts hText hConf hCounts
      have hDir : t.isDirectory (jobPath ctx jobName) = true :=
        hTree _ "job.conf".toList (Os.openIfstream_pathExists hText)
      rw [Os.scriptFound, (hScript text conf script counts hText hConf hCounts).follow hDir]
      rfl
    rw [loadJobThrowing, hFollow]
    simp only [hConfig, loadJob]
    cases hExists : os.surelyExists t (jobPath ctx jobName) with
    | false => rfl
    | true =>
      cases hLoaded : loadConfig P os t (jobPath ctx jobName) fun script =>
        os.surelyExists t (jobPath ctx jobName / script) with
      | error e => rfl
      | ok config =>
        obtain ⟨⟨text, _, _, _, _, hText, _⟩, _⟩ := loadConfig_ok_iff.mp ⟨config, hLoaded⟩
        have hDir : t.isDirectory (jobPath ctx jobName) = true :=
          hTree _ "job.conf".toList (Os.openIfstream_pathExists hText)
        simp only [Os.listDirectory, hDir, if_true]
        cases os.listFault (jobPath ctx jobName) with
        | some e => rfl
        | none => rfl

/-! ### Acceptance and partition -/

/-- A job is returned exactly if it is well formed, and an error code otherwise. Of the
entries of its directory those of six digits are sorted by their exit codes. -/
structure LoadsExactly (P : ProtoUtils) (os : Os) (t : FileTree) (ctx : Context) (jobName : Str) :
    Prop where
  accepts : (∃ job, loadJobThrowing P os t ctx jobName = .ok (.ok job)) ↔
    ∃ path, jobDirectory t ctx jobName = some path ∧ WellFormedJob P os t path
  refuses : (¬∃ job, loadJobThrowing P os t ctx jobName = .ok (.ok job)) →
    ∃ e, loadJobThrowing P os t ctx jobName = .ok (.error e) ∧ e ≠ .ok
  listed : ∀ job path name node, loadJobThrowing P os t ctx jobName = .ok (.ok job) →
    jobDirectory t ctx jobName = some path → (name, node) ∈ t.children path → name.length = 6 →
    (∀ c ∈ name, c.isDigit = true) →
    job.builds.Only (.ofExitcode (((os.openIfstream t (path / name / "exitcode.txt")).map
      Text.firstLine).bind u32FromString)) (Text.digitsValue name) (path / name)
  others : ∀ job path s n p, loadJobThrowing P os t ctx jobName = .ok (.ok job) →
    jobDirectory t ctx jobName = some path → (job.builds.get s).find n = some p →
    ∃ name node, (name, node) ∈ t.children path ∧ name.length = 6 ∧
      (∀ c ∈ name, c.isDigit = true) ∧ n = Text.digitsValue name ∧ p = path / name

/-- The one thing that is not answered for is a directory that cannot be listed. -/
theorem loads_exactly_iff (P : ProtoUtils) (os : Os) (t : FileTree) (ctx : Context) (jobName : Str) :
    LoadsExactly P os t ctx jobName ↔
      ∀ path, jobDirectory t ctx jobName = some path → WellFormedJob P os t path →
        os.listDirectory t path = .ok (t.children path) := by
  constructor
  · intro h path hPath hJob
    obtain ⟨job, hLoad⟩ := h.accepts.mpr ⟨path, hPath, hJob⟩
    obtain ⟨e, hRefused, _⟩ | ⟨path', config, hPath', _, _, hOutcome⟩ :=
      loadJobThrowing_cases P os t ctx jobName
    · rw [hRefused] at hLoad
      cases hLoad
    · obtain rfl := Option.some.inj (hPath.symm.trans hPath')
      refine (os.listDirectory_cases t path).resolve_right ?_
      rintro ⟨e, hThrown⟩
      rw [hOutcome, hThrown] at hLoad
      cases hLoad
  · intro hList
    obtain ⟨e, hRefused, hError, hNone⟩ | ⟨path, config, hPath, hJob, _, hOutcome⟩ :=
      loadJobThrowing_cases P os t ctx jobName
    · have hNoJob : ¬∃ job, loadJobThrowing P os t ctx jobName = .ok (.ok job) := by
        rintro ⟨job, hLoad⟩
        rw [hRefused] at hLoad
        cases hLoad
      refine ⟨⟨fun hLoad => absurd hLoad hNoJob, ?_⟩, fun _ => ⟨e, hRefused, hError⟩,
        fun job _ _ _ hLoad => absurd ⟨job, hLoad⟩ hNoJob,
        fun job _ _ _ _ hLoad => absurd ⟨job, hLoad⟩ hNoJob⟩
      rintro ⟨path, hPath, hJob⟩
      exact absurd hJob (hNone path hPath)
    · rw [hList path hPath hJob] at hOutcome
      replace hOutcome : loadJobThrowing P os t ctx jobName =
        .ok (.ok ⟨jobName, config, loadBuilds os t path⟩) := hOutcome
      have hBuilds : ∀ job, loadJobThrowing P os t ctx jobName = .ok (.ok job) →
          job.builds = loadBuilds os t path := by
        intro job hLoad
        rw [hOutcome] at hLoad
        cases hLoad
        rfl
      refine ⟨⟨fun _ => ⟨path, hPath, hJob⟩, fun _ => ⟨_, hOutcome⟩⟩,
        fun hFails => absurd ⟨_, hOutcome⟩ hFails, ?_, ?_⟩
      · intro job path' name node hLoad hPath' hEntry hLength hDigits
        obtain rfl := Option.some.inj (hPath.symm.trans hPath')
        have hOnly := loadBuilds_entry os hEntry (isBuild_iff.mpr ⟨hLength, hDigits⟩)
        rw [buildStatus, buildExitcode_eq] at hOnly
        rw [hBuilds job hLoad]
        exact hOnly
      · intro job path' s n p hLoad hPath' hFind
        obtain rfl := Option.some.inj (hPath.symm.trans hPath')
        rw [hBuilds job hLoad] at hFind
        obtain ⟨name, node, hEntry, hName, hRest⟩ := mem_children_of_find_loadBuilds hFind
        obtain ⟨hLength, hDigits⟩ := isBuild_iff.mp hName
        exact ⟨name, node, hEntry, hLength, hDigits, hRest⟩

/-- A well-formed job whose directory may be entered but not read. -/
theorem unlisted_job_throws :
    ∃ path, jobDirectory (demoTree "1" []) demoContext "j" = some path ∧
      WellFormedJob .reference { Os.ideal ∅ with listFault := fun _ => some (.other 13) }
        (demoTree "1" []) path ∧
      loadJobThrowing .reference { Os.ideal ∅ with listFault := fun _ => some (.other 13) }
        (demoTree "1" []) demoContext "j" = .error (.other 13) ∧
      ¬LoadsExactly .reference { Os.ideal ∅ with listFault := fun _ => some (.other 13) }
        (demoTree "1" []) demoContext "j" := by
  have hJob : WellFormedJob .reference { Os.ideal ∅ with listFault := fun _ => some (.other 13) }
      (demoTree "1" []) (jobPath demoContext "j") := by
    refine ⟨rfl, ⟨_, _, _, _, _, rfl, rfl, rfl, rfl, by decide, rfl, by decide, _, rfl, rfl⟩, ?_⟩
    rintro text ⟨⟩
  have hThrown : loadJobThrowing .reference
      { Os.ideal ∅ with listFault := fun _ => some (.other 13) } (demoTree "1" []) demoContext "j" =
        .error (.other 13) := rfl
  refine ⟨_, rfl, hJob, hThrown, fun hLoads => ?_⟩
  obtain ⟨job, hLoad⟩ := hLoads.accepts.mpr ⟨_, rfl, hJob⟩
  rw [hThrown] at hLoad
  cases hLoad

end CisCore
