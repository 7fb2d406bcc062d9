import CisCore.Library.Transition
import CisCore.ProtoUtils
import CisCore.Session.Context
import CisCore.Utils

/-! # Loading a job

A job is its configuration and its builds, sorted by what their exit code files
say. Every entry of the job directory with a build's name counts as a build.
-/

namespace CisCore

open Fallible

structure JobConfig where
  script : Str
  keepSuccessfulBuilds : Nat
  keepBrokenBuilds : Nat
  params : List (Str × Str)

inductive BuildStatus where
  | successful | broken | pending
deriving DecidableEq

structure Builds where
  successful : SortedMap Nat FsPath
  broken : SortedMap Nat FsPath
  pending : SortedMap Nat FsPath

def Builds.get (builds : Builds) : BuildStatus → SortedMap Nat FsPath
  | .successful => builds.successful
  | .broken => builds.broken
  | .pending => builds.pending

theorem Builds.ext_get {builds builds' : Builds} (h : ∀ status n, (builds.get status).find n =
    (builds'.get status).find n) : builds = builds' := by
  obtain ⟨successful, broken, pending⟩ := builds
  obtain ⟨successful', broken', pending'⟩ := builds'
  obtain rfl : successful = successful' := SortedMap.ext_find (h .successful)
  obtain rfl : broken = broken' := SortedMap.ext_find (h .broken)
  obtain rfl : pending = pending' := SortedMap.ext_find (h .pending)
  rfl

structure Job where
  name : Str
  config : JobConfig
  builds : Builds

def jobPath (ctx : Context) (jobName : Str) : FsPath := ctx.baseDir / "jobs" / jobName

section Model

variable (P : ProtoUtils) (os : Os)

/-- The exit code of a build; a file that cannot be opened reads as empty. -/
def buildExitcode (t : FileTree) (buildDir : FsPath) : Option Nat :=
  u32FromString (Text.firstLine ((os.openIfstream t (buildDir / "exitcode.txt")).getD []))

def addEntry (t : FileTree) (path : FsPath) (builds : Builds) (name : Str) : Builds :=
  if isBuild name then
    match buildExitcode os t (path / name) with
    | none => { builds with pending := builds.pending.emplace (buildNumber name) (path / name) }
    | some exitcode =>
      if exitcode = 0 then
        { builds with successful := builds.successful.emplace (buildNumber name) (path / name) }
      else { builds with broken := builds.broken.emplace (buildNumber name) (path / name) }
  else builds

def sortBuilds (t : FileTree) (path : FsPath) (entries : List (Str × Node)) : Builds :=
  entries.foldl (fun builds entry => addEntry os t path builds entry.1) ⟨∅, ∅, ∅⟩

/-- The builds of a directory that can be listed. -/
def loadBuilds (t : FileTree) (path : FsPath) : Builds := sortBuilds os t path (t.children path)

/-- The counts of `job.conf`. The key of the first one is checked twice and the
other never, but the value of an absent key is no number either. -/
def jobCounts (conf : SortedMap Str Str) : Option (Str × Nat × Nat) :=
  match conf.find "script", conf.find "keep_last_success_builds" with
  | some script, some keepSuccessfulBuilds =>
    match u32FromString keepSuccessfulBuilds,
      u32FromString ((conf.find "keep_last_break_builds").getD []) with
    | some ks, some kb => some (script, ks, kb)
    | _, _ => none
  | _, _ => none

/-- `exists` with an error reported by the caller as absence. -/
def Os.surelyExists (t : FileTree) (p : FsPath) : Bool :=
  match os.pathExists t p with
  | (found, none) => found
  | (_, some _) => false

def loadParams (t : FileTree) (path : FsPath) : Except ErrorCode (List (Str × Str)) :=
  match os.openIfstream t (path / "job.params") with
  | none => .ok []
  | some text => orThrow (P.readIstreamOrderedKvStr text true) .cantReadJobParamsFile

/-- What is read before the directory is listed; `scriptFound` tells whether a script exists. -/
def loadConfig (t : FileTree) (path : FsPath) (scriptFound : Str → Bool) :
    Except ErrorCode JobConfig := do
  let confText ← orThrow (os.openIfstream t (path / "job.conf")) .cantReadJobConfFile
  let conf ← orThrow (P.readIstreamKvStr confText false) .cantReadJobConfFile
  let counts ← orThrow (jobCounts conf) .cantReadJobConfFile
  require (scriptFound counts.1) .scriptDoesntExist
  let params ← loadParams P os t path
  pure ⟨counts.1, counts.2.1, counts.2.2, params⟩

/-- `load_job` for a job and a script that are named by one component each, when the
directory can be listed (see `loadJobThrowing`). -/
def loadJob (t : FileTree) (ctx : Context) (jobName : Str) : Except ErrorCode Job := do
  let path := jobPath ctx jobName
  require (os.surelyExists t path) .jobDirDoesntExist
  let config ← loadConfig P os t path fun script => os.surelyExists t (path / script)
  pure ⟨jobName, config, loadBuilds os t path⟩

end Model

variable {P : ProtoUtils} {os : Os}

/-! ### What a loaded job is -/

/-- The configuration that `job.conf` holds. -/
def Configured (P : ProtoUtils) (t : FileTree) (ctx : Context) (jobName script : Str)
    (ks kb : Nat) : Prop :=
  ∃ text executable conf, t.find (jobPath ctx jobName / "job.conf") = some (.file text executable) ∧
    P.readIstreamKvStr text false = some conf ∧ jobCounts conf = some (script, ks, kb)

theorem Os.surelyExists_eq_true {t : FileTree} {p : FsPath} (h : os.surelyExists t p = true) :
    t.pathExists p = true := by
  rw [Os.surelyExists] at h
  rcases hExists : os.pathExists t p with ⟨found, _ | e⟩
  · have hClear : os.pathExists t p = (t.pathExists p, none) :=
      Os.pathExists_of_clear (by rw [hExists])
    rw [hClear] at h
    exact h
  · rw [hExists] at h
    cases h

theorem loadJob_eq_ok {t : FileTree} {ctx : Context} {jobName : Str} {job : Job}
    (h : loadJob P os t ctx jobName = .ok job) :
    ∃ text conf, os.openIfstream t (jobPath ctx jobName / "job.conf") = some text ∧
      P.readIstreamKvStr text false = some conf ∧
      jobCounts conf = some (job.config.script, job.config.keepSuccessfulBuilds,
        job.config.keepBrokenBuilds) ∧
      t.pathExists (jobPath ctx jobName / job.config.script) = true ∧
      loadParams P os t (jobPath ctx jobName) = .ok job.config.params ∧
      job.name = jobName ∧ job.builds = loadBuilds os t (jobPath ctx jobName) := by
  simp only [loadJob, loadConfig, bind_eq_ok, orThrow_eq_ok, require_eq_ok, pure_eq_ok] at h
  obtain ⟨_, _, _, ⟨text, hText, conf, hConf, ⟨script, ks, kb⟩, hCounts, _, hScript, params, hParams,
    rfl⟩, rfl⟩ := h
  exact ⟨text, conf, hText, hConf, hCounts, Os.surelyExists_eq_true hScript, hParams, rfl, rfl⟩

theorem loadJob_congr {ctx ctx' : Context} (h : ctx'.baseDir = ctx.baseDir) (t : FileTree)
    (jobName : Str) : loadJob P os t ctx' jobName = loadJob P os t ctx jobName := by
  simp only [loadJob, jobPath, h]

theorem loadJob_name {t : FileTree} {ctx : Context} {jobName : Str} {job : Job}
    (h : loadJob P os t ctx jobName = .ok job) : job.name = jobName := by
  obtain ⟨_, _, _, _, _, _, _, hName, _⟩ := loadJob_eq_ok h
  exact hName

/-- What `job.conf` says does not depend on who reads it. -/
theorem loadJob_config_congr {os' : Os} {t t' : FileTree} {ctx : Context} {jobName : Str}
    {job job' : Job} (h : loadJob P os t ctx jobName = .ok job)
    (h' : loadJob P os' t' ctx jobName = .ok job')
    (hConf : t'.find (jobPath ctx jobName / "job.conf") = t.find (jobPath ctx jobName / "job.conf")) :
    job'.config.script = job.config.script ∧
      job'.config.keepSuccessfulBuilds = job.config.keepSuccessfulBuilds ∧
      job'.config.keepBrokenBuilds = job.config.keepBrokenBuilds := by
  obtain ⟨text, conf, hText, hRead, hCounts, _⟩ := loadJob_eq_ok h
  obtain ⟨text', conf', hText', hRead', hCounts', _⟩ := loadJob_eq_ok h'
  have hSame : text' = text := by
    rw [Os.openIfstream_text hText, Os.openIfstream_text hText', FileTree.content_congr hConf]
  subst hSame
  rw [hRead, Option.some.injEq] at hRead'
  subst hRead'
  rw [hCounts, Option.some.injEq] at hCounts'
  obtain ⟨hScript, hRest⟩ := Prod.mk.inj hCounts'
  obtain ⟨hKs, hKb⟩ := Prod.mk.inj hRest
  exact ⟨hScript.symm, hKs.symm, hKb.symm⟩

theorem Configured.of_loadJob {t : FileTree} {ctx : Context} {jobName script : Str} {ks kb : Nat}
    (hConf : Configured P t ctx jobName script ks kb) {job : Job}
    (h : loadJob P os t ctx jobName = .ok job) :
    job.config.script = script ∧ job.config.keepSuccessfulBuilds = ks ∧
      job.config.keepBrokenBuilds = kb := by
  obtain ⟨text, executable, conf, hFind, hRead, hCounts⟩ := hConf
  obtain ⟨text', conf', hText, hRead', hCounts', _⟩ := loadJob_eq_ok h
  have hContent : t.content (jobPath ctx jobName / "job.conf") = some text := by
    rw [FileTree.content, hFind]
  have hSame := Os.openIfstream_text hText
  rw [hContent, Option.getD_some] at hSame
  subst hSame
  rw [hRead, Option.some.injEq] at hRead'
  subst hRead'
  rw [hCounts, Option.some.injEq] at hCounts'
  cases hCounts'
  exact ⟨rfl, rfl, rfl⟩

/-! ### The scan for builds -/

def BuildStatus.ofExitcode : Option Nat → BuildStatus
  | none => .pending
  | some exitcode => if exitcode = 0 then .successful else .broken

/-- What the scan takes the build for. -/
def buildStatus (os : Os) (t : FileTree) (buildDir : FsPath) : BuildStatus :=
  .ofExitcode (buildExitcode os t buildDir)

/-- What the exit code file of a build says. -/
def recordedStatus (t : FileTree) (buildDir : FsPath) : BuildStatus :=
  .ofExitcode (u32FromString (Text.firstLine ((t.content (buildDir / "exitcode.txt")).getD [])))

theorem buildStatus_eq_recorded {os : Os} {buildDir : FsPath}
    (hRead : os.ifstreamFault (buildDir / "exitcode.txt") = false) (t : FileTree) :
    buildStatus os t buildDir = recordedStatus t buildDir := by
  have hText : (os.openIfstream t (buildDir / "exitcode.txt")).getD [] =
      (t.content (buildDir / "exitcode.txt")).getD [] := by
    unfold Os.openIfstream FileTree.content
    rw [hRead, if_neg (by simp)]
    rcases t.find (buildDir / "exitcode.txt") with _ | (_ | ⟨text, executable⟩) <;> rfl
  rw [buildStatus, buildExitcode, hText, recordedStatus]

theorem buildStatus_cases (os : Os) (t : FileTree) (buildDir : FsPath) :
    buildStatus os t buildDir = recordedStatus t buildDir ∨
      buildStatus os t buildDir = .pending := by
  cases hFault : os.ifstreamFault (buildDir / "exitcode.txt") with
  | true =>
    right
    rw [buildStatus, buildExitcode, Os.openIfstream, hFault]
    rfl
  | false => exact Or.inl (buildStatus_eq_recorded hFault t)

/-- A build that the scan takes for a finished one is recorded as such. -/
theorem recordedStatus_of_seen {t : FileTree} {dir : FsPath} {status : BuildStatus}
    (hStatus : status ≠ .pending) (h : buildStatus os t dir = status) :
    recordedStatus t dir = status := by
  obtain hSame | hPending := buildStatus_cases os t dir
  · exact hSame.symm.trans h
  · exact absurd (h.symm.trans hPending) hStatus

/-- No reader takes a build that is recorded as pending for a finished one. -/
theorem buildStatus_of_pending {t : FileTree} {dir : FsPath}
    (h : recordedStatus t dir = .pending) (os : Os) : buildStatus os t dir = .pending := by
  obtain hSame | hPending := buildStatus_cases os t dir
  · exact hSame.trans h
  · exact hPending

theorem buildStatus_congr {t t' : FileTree} {dir : FsPath}
    (h : t'.find (dir / "exitcode.txt") = t.find (dir / "exitcode.txt")) (os : Os) :
    buildStatus os t' dir = buildStatus os t dir := by
  rw [buildStatus, buildStatus, buildExitcode, buildExitcode, Os.openIfstream_congr h]

theorem recordedStatus_congr {t t' : FileTree} {dir : FsPath}
    (h : t'.find (dir / "exitcode.txt") = t.find (dir / "exitcode.txt")) :
    recordedStatus t' dir = recordedStatus t dir := by
  rw [recordedStatus, recordedStatus, FileTree.content_congr h]

theorem recordedStatus_of_absent {t : FileTree} {dir : FsPath}
    (h : t.find (dir / "exitcode.txt") = none) : recordedStatus t dir = .pending := by
  rw [recordedStatus, FileTree.content, h]
  rfl

theorem recordedStatus_exitcodeText {t : FileTree} {buildDir : FsPath} {e : Int32}
    (h : t.content (buildDir / "exitcode.txt") = some (exitcodeText e)) :
    recordedStatus t buildDir = if e = 0 then .successful else .broken := by
  obtain ⟨n, hValue, hZero⟩ := u32FromString_exitcodeText e
  rw [recordedStatus, h, Option.getD_some, hValue, BuildStatus.ofExitcode]
  by_cases hStatus : e = 0
  · rw [if_pos hStatus, if_pos (hZero.mpr hStatus)]
  · rw [if_neg hStatus, if_neg fun h => hStatus (hZero.mp h)]

theorem get_addEntry (t : FileTree) (path : FsPath) (builds : Builds) (name : Str)
    (status : BuildStatus) :
    (addEntry os t path builds name).get status =
      if isBuild name = true ∧ buildStatus os t (path / name) = status then
        (builds.get status).emplace (buildNumber name) (path / name)
      else builds.get status := by
  unfold addEntry buildStatus
  cases hBuild : isBuild name with
  | false => simp
  | true =>
    rcases hExitcode : buildExitcode os t (path / name) with _ | exitcode
    · cases status <;> simp [Builds.get, BuildStatus.ofExitcode]
    · by_cases hZero : exitcode = 0
      · cases status <;> simp [Builds.get, BuildStatus.ofExitcode, hZero]
      · cases status <;> simp [Builds.get, BuildStatus.ofExitcode, hZero]

theorem find_addEntry {t : FileTree} {path : FsPath} {builds : Builds} {status : BuildStatus} {n : Nat}
    (hOld : ∀ p, (builds.get status).find n = some p → p = path / numberString n) (name : Str)
    (p : FsPath) :
    ((addEntry os t path builds name).get status).find n = some p ↔
      (builds.get status).find n = some p ∨
        numberString n = name ∧ n < 1000000 ∧ p = path / name ∧ buildStatus os t p = status := by
  rw [get_addEntry]
  split_ifs with hEntry
  · obtain ⟨hBuild, hStatus⟩ := hEntry
    have hLt := buildNumber_lt hBuild
    have hName := numberString_buildNumber hBuild
    rw [SortedMap.find_emplace]
    split_ifs with hNumber
    · subst hNumber
      rw [hName] at hOld ⊢
      rcases hFind : (builds.get status).find (buildNumber name) with _ | q
      · simp only [Option.getD_none, Option.some.injEq, reduceCtorEq, false_or, true_and, hLt]
        constructor
        · rintro rfl
          exact ⟨rfl, hStatus⟩
        · rintro ⟨rfl, _⟩
          rfl
      · obtain rfl := hOld q hFind
        simp only [Option.getD_some, Option.some.injEq, true_and, hLt]
        constructor
        · intro h
          exact Or.inl h
        · rintro (h | ⟨rfl, _⟩)
          · exact h
          · rfl
    · constructor
      · intro h
        exact Or.inl h
      · rintro (h | ⟨rfl, hn, _⟩)
        · exact h
        · exact absurd (buildNumber_numberString hn).symm hNumber
  · constructor
    · intro h
      exact Or.inl h
    · rintro (h | ⟨rfl, hn, rfl, hStatus⟩)
      · exact h
      · exact absurd ⟨isBuild_numberString hn, hStatus⟩ hEntry

theorem find_foldl_addEntry (t : FileTree) (path : FsPath) (entries : List (Str × Node))
    (status : BuildStatus) (n : Nat) (p : FsPath) :
    ((entries.foldl (fun builds entry => addEntry os t path builds entry.1) ⟨∅, ∅, ∅⟩).get
        status).find n = some p ↔
      numberString n ∈ entries.map Prod.fst ∧ n < 1000000 ∧ p = path / numberString n ∧
        buildStatus os t p = status := by
  induction entries using List.reverseRecOn generalizing p with
  | nil => cases status <;> simp [Builds.get]
  | append_singleton entries entry ih =>
    rw [List.foldl_concat, find_addEntry (fun q hq => ((ih q).mp hq).2.2.1), ih, List.map_append,
      List.map_singleton, List.mem_append, List.mem_singleton]
    constructor
    · rintro (⟨hMem, hRest⟩ | ⟨hName, hLt, rfl, hStatus⟩)
      · exact ⟨Or.inl hMem, hRest⟩
      · exact ⟨Or.inr hName, hLt, by rw [hName], hStatus⟩
    · rintro ⟨hMem | hName, hLt, hp, hStatus⟩
      · exact Or.inl ⟨hMem, hLt, hp, hStatus⟩
      · exact Or.inr ⟨hName, hLt, by rw [hp, hName], hStatus⟩

/-- The scan finds every entry with a build's name, under the status it has. -/
theorem find_loadBuilds {t : FileTree} {path : FsPath} {status : BuildStatus} {n : Nat} {p : FsPath} :
    ((loadBuilds os t path).get status).find n = some p ↔
      n < 1000000 ∧ p = path / numberString n ∧ t.pathExists p = true ∧
        buildStatus os t p = status := by
  have hMem : numberString n ∈ (t.children path).map Prod.fst ↔
      t.pathExists (path / numberString n) = true := by
    rw [List.mem_map, FileTree.pathExists, Option.isSome_iff_exists]
    constructor
    · rintro ⟨⟨name, node⟩, hEntry, rfl⟩
      exact ⟨node, FileTree.mem_children_iff.mp hEntry⟩
    · rintro ⟨node, hNode⟩
      exact ⟨(numberString n, node), FileTree.mem_children_iff.mpr hNode, rfl⟩
  rw [loadBuilds, sortBuilds, find_foldl_addEntry, hMem]
  constructor
  · rintro ⟨hExists, hLt, rfl, hStatus⟩
    exact ⟨hLt, rfl, hExists, hStatus⟩
  · rintro ⟨hLt, rfl, hExists, hStatus⟩
    exact ⟨hExists, hLt, rfl, hStatus⟩

/-- The build is in the map of the status and in no other one. -/
def Builds.Only (builds : Builds) (status : BuildStatus) (number : Nat) (dir : FsPath) : Prop :=
  ∀ s, (builds.get s).find number = if s = status then some dir else none

theorem find_loadBuilds_only {t : FileTree} {path dir : FsPath} {status : BuildStatus} {n : Nat}
    (hLt : n < 1000000) (hDir : dir = path / numberString n) (hExists : t.pathExists dir = true)
    (hSeen : buildStatus os t dir = status) : (loadBuilds os t path).Only status n dir := by
  intro s
  split_ifs with hSame
  · exact find_loadBuilds.mpr ⟨hLt, hDir, hExists, hSeen.trans hSame.symm⟩
  · rw [Option.eq_none_iff_forall_ne_some]
    intro p hFind
    obtain ⟨_, rfl, _, hStatus⟩ := find_loadBuilds.mp hFind
    rw [← hDir, hSeen] at hStatus
    exact hSame hStatus.symm

/-! ### A small job -/

def demoContext : Context := ⟨[], ∅, 1, 0⟩

def joinedOs : Os := .ideal (.ofList [("session_id", "s")])

/-- A job `j` without builds that keeps the given number of builds of either kind. -/
def demoTree (keep : Str) (params : List (FsPath × Node)) : FileTree :=
  .ofList ([([], .directory), (["sessions".toList], .directory), (["jobs".toList], .directory),
    (["j".toList, "jobs".toList], .directory),
    (["s".toList, "j".toList, "jobs".toList], .file [] true),
    (["job.conf".toList, "j".toList, "jobs".toList], .file
      ("script=s\nkeep_last_success_builds=".toList ++ keep ++
        "\nkeep_last_break_builds=".toList ++ keep ++ "\n".toList) false)] ++ params)

example : (loadJob .reference (.ideal ∅) (demoTree "1" []) demoContext "j").toOption.map
    (fun job => (job.config.script, job.config.keepSuccessfulBuilds)) = some ("s".toList, 1) := by
  decide

theorem demoTree_keys (keep : Str) : (demoTree keep []).keys =
    [[], ["j".toList, "jobs".toList], ["job.conf".toList, "j".toList, "jobs".toList],
      ["jobs".toList], ["s".toList, "j".toList, "jobs".toList], ["sessions".toList]] := rfl

theorem demoTree_no_build (keep : Str) (n : Nat) :
    (demoTree keep []).pathExists (jobPath demoContext "j" / numberString n) = false := by
  rw [FileTree.pathExists, ← Bool.not_eq_true, SortedMap.find_isSome_iff, demoTree_keys]
  have hScript := numberString_ne (List.mem_singleton_self 's') (by decide) n
  have hConf : numberString n ≠ "job.conf".toList :=
    numberString_ne (c := 'j') (by decide) (by decide) n
  simp [jobPath, demoContext] at *
  exact ⟨hConf, hScript⟩

end CisCore
