import CisCore.Copy
import CisCore.Job.Load

/-! # Preparing a build

A build takes the number after the largest one in the job directory and gets a
directory with the script, its parameters, the configuration and the session.
The directory is listed and created without a lock; `Preparation.step` is one
file operation of a process that prepares a build while others do the same.
-/

namespace CisCore

section Model

/-- The body of the loop over the entries of the job directory. -/
def largerBuildNum (maxBuildNum : Int) (entry : Str × Node) : Int :=
  if entry.2 = .directory ∧ isBuild entry.1 = true then
    if (buildNumber entry.1 : Int) > maxBuildNum then buildNumber entry.1 else maxBuildNum
  else maxBuildNum

/-- The largest number in a directory that can be listed. -/
def maxBuildNum (t : FileTree) (path : FsPath) : Int := (t.children path).foldl largerBuildNum (-1)

def nextBuildNumber (t : FileTree) (path : FsPath) : Nat := (maxBuildNum t path + 1).toNat

def buildDir (ctx : Context) (jobName : Str) (number : Nat) : FsPath :=
  jobPath ctx jobName / numberString number

variable (P : ProtoUtils) (os : Os)

def sessionIdText (session : Session) : Str := session.sessionId ++ ['\n']

section Copier

variable (copy : Copier)

/-- What follows the creation of the directory. The error code is that of the
operation that failed, or clear. -/
def Job.fillBuildDir (job : Job) (t : FileTree) (ctx : Context) (session : Session)
    (params : List (Str × Str)) (number : Nat) : FileTree × Ec :=
  let dir := buildDir ctx job.name number
  match copy t (jobPath ctx job.name / job.config.script) (dir / job.config.script) with
  | (t, some e) => (t, some e)
  | (t, none) =>
    match os.writeFile t (dir / "job.params") (P.encodedLines params) with
    | none => (t, fail .cantWriteJobParamsFile)
    | some t =>
      match copy t (jobPath ctx job.name / "job.conf") (dir / "job.conf") with
      | (t, some _) => (t, fail .cantWriteJobConfFile)
      | (t, none) =>
        match os.writeFile t (dir / "session_id.txt") (sessionIdText session) with
        | none => (t, fail .cantWriteSessionIdFile)
        | some t => (t, none)

/-- The tree, the job with the pending build, the number of a valid handle and
the error code, whatever it held before. -/
def Job.prepareBuildWith (job : Job) (t : FileTree) (ctx : Context) (session : Session)
    (params : List (Str × Str)) : FileTree × Job × Option Nat × Ec :=
  let number := nextBuildNumber t (jobPath ctx job.name)
  match os.createDirectory t (buildDir ctx job.name number) with
  | (_, t, some e) => (t, job, none, some e)
  | (_, t, none) =>
    match job.fillBuildDir P os copy t ctx session params number with
    | (t, some e) => (t, job, none, some e)
    | (t, none) =>
      let pending := job.builds.pending.emplace number (buildDir ctx job.name number)
      (t, { job with builds := { job.builds with pending := pending } }, some number, none)

end Copier

def Job.prepareBuild (job : Job) (t : FileTree) (ctx : Context) (session : Session)
    (params : List (Str × Str)) : FileTree × Job × Option Nat × Ec :=
  job.prepareBuildWith P os os.copy t ctx session params

inductive PrepareStage where
  | start
  | listed (number : Nat)
  | created (number : Nat)
  | copied (number : Nat)
  | paramsWritten (number : Nat)
  | confCopied (number : Nat)
  | finished (handle : Option Nat) (ec : Ec)

/-- A process that prepares a build of the job. -/
structure Preparation where
  os : Os
  session : Session
  params : List (Str × Str)

def Preparation.step (w : Preparation) (ctx : Context) (jobName script : Str) (t : FileTree) :
    PrepareStage → Option (FileTree × PrepareStage)
  | .start => some (t, .listed (nextBuildNumber t (jobPath ctx jobName)))
  | .listed number =>
    match w.os.createDirectory t (buildDir ctx jobName number) with
    | (_, t, some e) => some (t, .finished none (some e))
    | (_, t, none) => some (t, .created number)
  | .created number =>
    match w.os.copy t (jobPath ctx jobName / script) (buildDir ctx jobName number / script) with
    | (t, some e) => some (t, .finished none (some e))
    | (t, none) => some (t, .copied number)
  | .copied number =>
    match w.os.writeFile t (buildDir ctx jobName number / "job.params") (P.encodedLines w.params) with
    | none => some (t, .finished none (fail .cantWriteJobParamsFile))
    | some t => some (t, .paramsWritten number)
  | .paramsWritten number =>
    match w.os.copy t (jobPath ctx jobName / "job.conf") (buildDir ctx jobName number / "job.conf") with
    | (t, some _) => some (t, .finished none (fail .cantWriteJobConfFile))
    | (t, none) => some (t, .confCopied number)
  | .confCopied number =>
    match w.os.writeFile t (buildDir ctx jobName number / "session_id.txt")
      (sessionIdText w.session) with
    | none => some (t, .finished none (fail .cantWriteSessionIdFile))
    | some t => some (t, .finished (some number) none)
  | .finished _ _ => none

end Model

variable {P : ProtoUtils} {os : Os} {copy : Copier}

/-! ### The next number -/

theorem largerBuildNum_cases (m : Int) (entry : Str × Node) :
    m ≤ largerBuildNum m entry ∧
    (entry.2 = .directory → isBuild entry.1 = true →
      (buildNumber entry.1 : Int) ≤ largerBuildNum m entry) ∧
    (largerBuildNum m entry = m ∨ entry.2 = .directory ∧ isBuild entry.1 = true ∧
      largerBuildNum m entry = buildNumber entry.1) := by
  unfold largerBuildNum
  split_ifs with hEntry hLarger
  · exact ⟨by omega, fun _ _ => le_refl _, Or.inr ⟨hEntry.1, hEntry.2, rfl⟩⟩
  · exact ⟨le_refl _, fun _ _ => by omega, Or.inl rfl⟩
  · exact ⟨le_refl _, fun hDir hBuild => absurd ⟨hDir, hBuild⟩ hEntry, Or.inl rfl⟩

theorem foldl_largerBuildNum (entries : List (Str × Node)) (m : Int) :
    m ≤ entries.foldl largerBuildNum m ∧
    (∀ entry ∈ entries, entry.2 = .directory → isBuild entry.1 = true →
      (buildNumber entry.1 : Int) ≤ entries.foldl largerBuildNum m) ∧
    (entries.foldl largerBuildNum m = m ∨ ∃ entry ∈ entries, entry.2 = .directory ∧
      isBuild entry.1 = true ∧ entries.foldl largerBuildNum m = buildNumber entry.1) := by
  induction entries generalizing m with
  | nil => simp
  | cons entry entries ih =>
    rw [List.foldl_cons]
    obtain ⟨hLe, hEntry, hCases⟩ := largerBuildNum_cases m entry
    obtain ⟨hRest, hAll, hSome⟩ := ih (largerBuildNum m entry)
    refine ⟨hLe.trans hRest, ?_, ?_⟩
    · rintro e (_ | ⟨_, he⟩) hDir hBuild
      · exact (hEntry hDir hBuild).trans hRest
      · exact hAll e he hDir hBuild
    · obtain h | ⟨e, he, hRest⟩ := hSome
      · obtain hSame | ⟨hDir, hBuild, hNumber⟩ := hCases
        · exact Or.inl (h.trans hSame)
        · exact Or.inr ⟨entry, List.mem_cons_self, hDir, hBuild, h.trans hNumber⟩
      · exact Or.inr ⟨e, List.mem_cons_of_mem _ he, hRest⟩

theorem lt_nextBuildNumber {t : FileTree} {path : FsPath} {n : Nat} (hn : n < 1000000)
    (hDir : t.isDirectory (path / numberString n) = true) : n < nextBuildNumber t path := by
  have hMem := FileTree.mem_children_iff.mpr (FileTree.isDirectory_iff.mp hDir)
  obtain ⟨_, hAll, _⟩ := foldl_largerBuildNum (t.children path) (-1)
  have hLe : (buildNumber (numberString n) : Int) ≤ maxBuildNum t path :=
    hAll (numberString n, .directory) hMem rfl (isBuild_numberString hn)
  rw [buildNumber_numberString hn] at hLe
  unfold nextBuildNumber
  omega

/-- The number follows a directory that is there. -/
theorem nextBuildNumber_eq_succ {t : FileTree} {path : FsPath} {n : Nat}
    (h : nextBuildNumber t path = n + 1) :
    n < 1000000 ∧ t.isDirectory (path / numberString n) = true := by
  rw [nextBuildNumber, maxBuildNum] at h
  obtain ⟨_, _, hNone | ⟨⟨name, node⟩, hEntry, hDir, hBuild, hNumber⟩⟩ :=
    foldl_largerBuildNum (t.children path) (-1)
  · omega
  · simp only at hDir hBuild hNumber
    obtain rfl : buildNumber name = n := by omega
    subst hDir
    rw [numberString_buildNumber hBuild]
    exact ⟨buildNumber_lt hBuild, FileTree.isDirectory_iff.mpr (FileTree.mem_children_iff.mp hEntry)⟩

theorem nextBuildNumber_le (t : FileTree) (path : FsPath) : nextBuildNumber t path ≤ 1000000 := by
  cases h : nextBuildNumber t path with
  | zero => exact Nat.zero_le _
  | succ n => exact (nextBuildNumber_eq_succ h).1

theorem nextBuildNumber_mono {t t' : FileTree} {path : FsPath}
    (h : ∀ n, nextBuildNumber t path = n + 1 → t.isDirectory (path / numberString n) = true →
      t'.isDirectory (path / numberString n) = true) :
    nextBuildNumber t path ≤ nextBuildNumber t' path := by
  cases hNext : nextBuildNumber t path with
  | zero => exact Nat.zero_le _
  | succ n =>
    obtain ⟨hLt, hDir⟩ := nextBuildNumber_eq_succ hNext
    exact lt_nextBuildNumber hLt (h n hNext hDir)

/-! ### The directory of a prepared build -/

theorem buildDir_injective (ctx : Context) (jobName : Str) :
    Function.Injective (buildDir ctx jobName) :=
  fun _ _ h => numberString_injective (List.cons.inj h).1

theorem buildDir_disjoint {ctx : Context} {jobName : Str} {m n : Nat} (hne : m ≠ n) {q : FsPath}
    (h : buildDir ctx jobName m <:+ q) : ¬buildDir ctx jobName n <:+ q :=
  FileTree.not_suffix_of_sibling (fun hEq => hne (numberString_injective hEq)) h

theorem eq_of_buildDir_suffix {ctx : Context} {jobName : Str} {m n : Nat}
    (h : buildDir ctx jobName m <:+ buildDir ctx jobName n) : m = n := by
  by_contra hne
  exact buildDir_disjoint hne h List.suffix_rfl

theorem not_buildDir_suffix_jobConf (ctx : Context) (jobName : Str) (n : Nat) :
    ¬buildDir ctx jobName n <:+ (jobPath ctx jobName / "job.conf") :=
  FileTree.not_suffix_of_sibling
    (numberString_ne (c := 'j') (by decide) (by decide) n).symm List.suffix_rfl

theorem not_buildDir_suffix_sessionDat (ctx : Context) (session : Session) (jobName : Str) (n : Nat) :
    ¬buildDir ctx jobName n <:+ sessionDat ctx session := by
  intro h
  have hLength := h.length_le
  simp [buildDir, jobPath, sessionDat] at hLength

theorem Configured.of_same {t t' : FileTree} {ctx : Context} {jobName script : Str} {ks kb : Nat}
    (h : Configured P t ctx jobName script ks kb)
    (hSame : t'.find (jobPath ctx jobName / "job.conf") = t.find (jobPath ctx jobName / "job.conf")) :
    Configured P t' ctx jobName script ks kb := by
  obtain ⟨text, executable, conf, hFind, hRest⟩ := h
  exact ⟨text, executable, conf, hSame.trans hFind, hRest⟩

theorem fillBuildDir_clear {job : Job} {t t' : FileTree} {ctx : Context} {session : Session}
    {params : List (Str × Str)} {n : Nat}
    (h : job.fillBuildDir P os os.copy t ctx session params n = (t', none)) :
    ∃ (t₁ t₂ t₃ : FileTree) (script conf : Node),
      t.find (jobPath ctx job.name / job.config.script) = some script ∧
      t.find (buildDir ctx job.name n / job.config.script) = none ∧
      t₁ = t.insert (buildDir ctx job.name n / job.config.script) script ∧
      t₂ = t₁.write (buildDir ctx job.name n / "job.params") (P.encodedLines params) ∧
      t₃ = t₂.insert (buildDir ctx job.name n / "job.conf") conf ∧
      t' = t₃.write (buildDir ctx job.name n / "session_id.txt") (sessionIdText session) := by
  simp only [Job.fillBuildDir] at h
  split at h
  · cases h
  rename_i t₁ hScript
  split at h
  · cases h
  rename_i t₂ hParams
  split at h
  · cases h
  rename_i t₃ hConf
  split at h
  · cases h
  rename_i t₄ hSession
  cases h
  obtain ⟨script, hScriptTree, hSource, hNone⟩ := Os.copy_clear hScript
  obtain ⟨conf, hConfTree, _, _⟩ := Os.copy_clear hConf
  exact ⟨t₁, t₂, t₃, script, conf, hSource, hNone, hScriptTree, Os.writeFile_eq_some hParams, hConfTree,
    Os.writeFile_eq_some hSession⟩

/-- Only four entries of the directory are touched. -/
theorem fillBuildDir_sameOutside_files (P : ProtoUtils) (os : Os) (hCopy : copy.Lawful) (job : Job)
    (t : FileTree) (ctx : Context) (session : Session) (params : List (Str × Str)) (n : Nat)
    {S : FsPath → Prop} (hFiles : ∀ name ∈ [job.config.script, "job.params".toList,
      "job.conf".toList, "session_id.txt".toList], ∀ q, buildDir ctx job.name n / name <:+ q → S q) :
    FileTree.SameOutside S t (job.fillBuildDir P os copy t ctx session params n).1 := by
  simp only [List.forall_mem_cons] at hFiles
  obtain ⟨hScriptFile, hParamsFile, hConfFile, hSessionFile, _⟩ := hFiles
  have hScriptFrame := (hCopy.adds t (jobPath ctx job.name / job.config.script)
    (buildDir ctx job.name n / job.config.script)).sameOutside hScriptFile
  simp only [Job.fillBuildDir]
  split
  · rename_i t₁ e hScript
    rw [hScript] at hScriptFrame
    exact hScriptFrame
  rename_i t₁ hScript
  rw [hScript] at hScriptFrame
  split
  · exact hScriptFrame
  rename_i t₂ hParams
  have hParamsFrame := hScriptFrame.trans
    (Os.writeFile_sameOutside (hParamsFile _ List.suffix_rfl) hParams)
  have hConfFrame := hParamsFrame.trans ((hCopy.adds t₂ (jobPath ctx job.name / "job.conf")
    (buildDir ctx job.name n / "job.conf")).sameOutside hConfFile)
  split
  · rename_i t₃ e hConf
    rw [hConf] at hConfFrame
    exact hConfFrame
  rename_i t₃ hConf
  rw [hConf] at hConfFrame
  split
  · exact hConfFrame
  rename_i t₄ hSession
  exact hConfFrame.trans (Os.writeFile_sameOutside (hSessionFile _ List.suffix_rfl) hSession)

theorem fillBuildDir_sameOutside (P : ProtoUtils) (os : Os) (hCopy : copy.Lawful) (job : Job)
    (t : FileTree) (ctx : Context) (session : Session) (params : List (Str × Str)) (n : Nat) :
    FileTree.SameOutside (FileTree.Inside (buildDir ctx job.name n)) t
      (job.fillBuildDir P os copy t ctx session params n).1 :=
  fillBuildDir_sameOutside_files P os hCopy job t ctx session params n
    fun name _ _ hBelow => (FileTree.inside_child _ name).of_suffix hBelow

/-- The script stays as it is copied unless another file of the directory has its name. -/
theorem fillBuildDir_script (hCopy : copy.Lawful) {job : Job} {t t' : FileTree} {ctx : Context}
    {session : Session} {params : List (Str × Str)} {n : Nat}
    (h : job.fillBuildDir P os copy t ctx session params n = (t', none))
    (hNew : t.find (buildDir ctx job.name n / job.config.script) = none)
    (hName : ∀ name ∈ ["job.params".toList, "job.conf".toList, "session_id.txt".toList],
      job.config.script ≠ name) :
    t'.content (buildDir ctx job.name n / job.config.script) =
      t.content (jobPath ctx job.name / job.config.script) := by
  simp only [List.forall_mem_cons] at hName
  obtain ⟨hParamsName, hConfName, hSessionName, _⟩ := hName
  have hParams : buildDir ctx job.name n / job.config.script ≠ buildDir ctx job.name n / "job.params" :=
    fun hEq => hParamsName (List.cons.inj hEq).1
  have hSession : buildDir ctx job.name n / job.config.script ≠
      buildDir ctx job.name n / "session_id.txt" := fun hEq => hSessionName (List.cons.inj hEq).1
  have hConf : ¬(buildDir ctx job.name n / "job.conf") <:+ (buildDir ctx job.name n / job.config.script) :=
    FileTree.not_suffix_of_sibling hConfName List.suffix_rfl
  simp only [Job.fillBuildDir] at h
  split at h
  · cases h
  rename_i t₁ hScript
  split at h
  · cases h
  rename_i t₂ hWriteParams
  split at h
  · cases h
  rename_i t₃ hCopyConf
  split at h
  · cases h
  rename_i t₄ hWriteSession
  cases h
  have hConfFrame := (hCopy.adds t₂ (jobPath ctx job.name / "job.conf")
    (buildDir ctx job.name n / "job.conf")).sameOutside fun q hq => hq
  rw [hCopyConf] at hConfFrame
  rw [Os.writeFile_eq_some hWriteSession, FileTree.content_write_of_ne _ hSession,
    hConfFrame.content_eq hConf, Os.writeFile_eq_some hWriteParams,
    FileTree.content_write_of_ne _ hParams, hCopy.text _ _ _ _ hScript hNew]

theorem prepareBuildWith_sameOutside (P : ProtoUtils) (os : Os) (hCopy : copy.Lawful) (job : Job)
    (t : FileTree) (ctx : Context) (session : Session) (params : List (Str × Str)) :
    FileTree.SameOutside
      (buildDir ctx job.name (nextBuildNumber t (jobPath ctx job.name)) <:+ ·) t
      (job.prepareBuildWith P os copy t ctx session params).1 := by
  have hSelf : buildDir ctx job.name (nextBuildNumber t (jobPath ctx job.name)) <:+
      buildDir ctx job.name (nextBuildNumber t (jobPath ctx job.name)) := List.suffix_rfl
  simp only [Job.prepareBuildWith]
  split
  · rename_i made t₁ e hCreate
    have hCreateFrame := Os.createDirectory_sameOutside hSelf hCreate
    exact hCreateFrame
  rename_i made t₁ hCreate
  have hCreateFrame := Os.createDirectory_sameOutside hSelf hCreate
  have hFillFrame := hCreateFrame.trans (fillBuildDir_sameOutside P os hCopy job t₁ ctx session params
    (nextBuildNumber t (jobPath ctx job.name))).below
  split
  · rename_i t₂ e hFill
    rw [hFill] at hFillFrame
    exact hFillFrame
  · rename_i t₂ hFill
    rw [hFill] at hFillFrame
    exact hFillFrame

theorem prepareBuild_sameOutside (P : ProtoUtils) (os : Os) (job : Job) (t : FileTree)
    (ctx : Context) (session : Session) (params : List (Str × Str)) :
    FileTree.SameOutside
      (buildDir ctx job.name (nextBuildNumber t (jobPath ctx job.name)) <:+ ·) t
      (job.prepareBuild P os t ctx session params).1 :=
  prepareBuildWith_sameOutside P os os.copy_lawful job t ctx session params

/-- Whatever the copy of the script has added stays. -/
theorem fillBuildDir_grows_script (P : ProtoUtils) (os : Os) (hCopy : copy.Lawful) (job : Job)
    (t : FileTree) (ctx : Context) (session : Session) (params : List (Str × Str)) (n : Nat) :
    FileTree.Grows (copy t (jobPath ctx job.name / job.config.script)
        (buildDir ctx job.name n / job.config.script)).1
      (job.fillBuildDir P os copy t ctx session params n).1 := by
  simp only [Job.fillBuildDir]
  split
  · rename_i t₁ e hScript
    rw [hScript]
    exact FileTree.Grows.refl t₁
  rename_i t₁ hScript
  rw [hScript]
  split
  · exact FileTree.Grows.refl t₁
  rename_i t₂ hParams
  have hGrows₂ : FileTree.Grows t₁ t₂ := Os.writeFile_eq_some hParams ▸ FileTree.Grows.write t₁ _ _
  have hGrows₃ := hGrows₂.trans (hCopy.adds t₂ (jobPath ctx job.name / "job.conf")
    (buildDir ctx job.name n / "job.conf")).grows
  split
  · rename_i t₃ e hConf
    rw [hConf] at hGrows₃
    exact hGrows₃
  rename_i t₃ hConf
  rw [hConf] at hGrows₃
  split
  · exact hGrows₃
  rename_i t₄ hSession
  exact hGrows₃.trans (Os.writeFile_eq_some hSession ▸ FileTree.Grows.write t₃ _ _)

theorem fillBuildDir_grows (P : ProtoUtils) (os : Os) (hCopy : copy.Lawful) (job : Job) (t : FileTree)
    (ctx : Context) (session : Session) (params : List (Str × Str)) (n : Nat) :
    FileTree.Grows t (job.fillBuildDir P os copy t ctx session params n).1 :=
  (hCopy.adds _ _ _).grows.trans (fillBuildDir_grows_script P os hCopy job t ctx session params n)

theorem prepareBuild_grows (P : ProtoUtils) (os : Os) (job : Job) (t : FileTree) (ctx : Context)
    (session : Session) (params : List (Str × Str)) :
    FileTree.Grows t (job.prepareBuild P os t ctx session params).1 := by
  have hCreate := Os.createDirectory_grows os t
    (buildDir ctx job.name (nextBuildNumber t (jobPath ctx job.name)))
  simp only [Job.prepareBuild, Job.prepareBuildWith]
  split
  · rename_i made t₁ e hMade
    rw [hMade] at hCreate
    exact hCreate
  rename_i made t₁ hMade
  rw [hMade] at hCreate
  have hFill := hCreate.trans (fillBuildDir_grows P os os.copy_lawful job t₁ ctx session params
    (nextBuildNumber t (jobPath ctx job.name)))
  split
  · rename_i t₂ e hFilled
    rw [hFilled] at hFill
    exact hFill
  · rename_i t₂ hFilled
    rw [hFilled] at hFill
    exact hFill

theorem prepareBuildWith_handle {job job' : Job} {t t' : FileTree} {ctx : Context} {session : Session}
    {params : List (Str × Str)} {n : Nat} {ec : Ec}
    (h : job.prepareBuildWith P os copy t ctx session params = (t', job', some n, ec)) :
    ∃ made t₁, n = nextBuildNumber t (jobPath ctx job.name) ∧ ec = none ∧
      os.createDirectory t (buildDir ctx job.name n) = (made, t₁, none) ∧
      job.fillBuildDir P os copy t₁ ctx session params n = (t', none) ∧
      job' = { job with builds := { job.builds with
        pending := job.builds.pending.emplace n (buildDir ctx job.name n) } } := by
  simp only [Job.prepareBuildWith] at h
  split at h
  · cases h
  rename_i made t₁ hCreate
  split at h
  · cases h
  rename_i t₂ hFill
  cases h
  exact ⟨made, t₁, rfl, rfl, hCreate, hFill, rfl⟩

theorem prepareBuild_handle {job job' : Job} {t t' : FileTree} {ctx : Context} {session : Session}
    {params : List (Str × Str)} {n : Nat} {ec : Ec}
    (h : job.prepareBuild P os t ctx session params = (t', job', some n, ec)) :
    ∃ made t₁, n = nextBuildNumber t (jobPath ctx job.name) ∧ ec = none ∧
      os.createDirectory t (buildDir ctx job.name n) = (made, t₁, none) ∧
      job.fillBuildDir P os os.copy t₁ ctx session params n = (t', none) ∧
      job' = { job with builds := { job.builds with
        pending := job.builds.pending.emplace n (buildDir ctx job.name n) } } :=
  prepareBuildWith_handle h

/-- The process ends with a valid handle or with an error. -/
theorem prepareBuild_handle_iff (P : ProtoUtils) (os : Os) (job : Job) (t : FileTree)
    (ctx : Context) (session : Session)
    (params : List (Str × Str)) :
    (job.prepareBuild P os t ctx session params).2.2.1 ≠ none ↔
      (job.prepareBuild P os t ctx session params).2.2.2 = none := by
  simp only [Job.prepareBuild, Job.prepareBuildWith]
  split
  · simp
  split
  · simp
  · simp

theorem prepareBuild_files {job job' : Job} {t t' : FileTree} {ctx : Context} {session : Session}
    {params : List (Str × Str)} {n : Nat} {ec : Ec}
    (h : job.prepareBuild P os t ctx session params = (t', job', some n, ec)) :
    (t.find (buildDir ctx job.name n) = none ∨
      t.find (buildDir ctx job.name n) = some .directory) ∧
    t'.find (buildDir ctx job.name n) = some .directory ∧
    t'.content (buildDir ctx job.name n / "job.params") = some (P.encodedLines params) ∧
    t'.content (buildDir ctx job.name n / "session_id.txt") = some (sessionIdText session) := by
  obtain ⟨made, t₁, _, _, hCreate, hFill, _⟩ := prepareBuild_handle h
  have hFrame := fillBuildDir_sameOutside P os os.copy_lawful job t₁ ctx session params n
  rw [hFill] at hFrame
  obtain ⟨hDir, hBefore⟩ := Os.createDirectory_clear hCreate
  obtain ⟨t₂, t₃, t₄, script, conf, _, _, rfl, rfl, rfl, rfl⟩ := fillBuildDir_clear hFill
  refine ⟨hBefore, (hFrame _ fun hInside => hInside.2 rfl).trans hDir, ?_,
    FileTree.content_write_self _ _ _⟩
  have hSession : buildDir ctx job.name n / "job.params" ≠ buildDir ctx job.name n / "session_id.txt" := by
    simp
  have hConf : buildDir ctx job.name n / "job.params" ≠ buildDir ctx job.name n / "job.conf" := by
    simp
  rw [FileTree.content_write_of_ne _ hSession,
    FileTree.content_congr (SortedMap.find_insert_of_ne _ _ hConf), FileTree.content_write_self]

/-- The script was not in the directory before. -/
theorem prepareBuild_script {job job' : Job} {t t' : FileTree} {ctx : Context} {session : Session}
    {params : List (Str × Str)} {n : Nat} {ec : Ec}
    (h : job.prepareBuild P os t ctx session params = (t', job', some n, ec)) :
    t.pathExists (buildDir ctx job.name n / job.config.script) = false ∧
      t'.pathExists (buildDir ctx job.name n / job.config.script) = true := by
  obtain ⟨made, t₁, _, _, hCreate, hFill, _⟩ := prepareBuild_handle h
  obtain ⟨t₂, t₃, t₄, node, conf, _, hNone, hCopied, rfl, rfl, rfl⟩ := fillBuildDir_clear hFill
  constructor
  · rw [← Bool.not_eq_true]
    intro hExists
    have hCreated := Os.createDirectory_grows os t (buildDir ctx job.name n) _ hExists
    rw [hCreate, FileTree.pathExists, hNone] at hCreated
    cases hCreated
  · have hScript : t₂.pathExists (buildDir ctx job.name n / job.config.script) = true := by
      rw [hCopied, FileTree.pathExists_insert_self]
    have hParams := FileTree.Grows.write t₂ (buildDir ctx job.name n / "job.params")
      (P.encodedLines params) _ hScript
    exact FileTree.Grows.write _ _ _ _ (FileTree.Grows.insert _ _ conf _ hParams)

/-- Every build of the job lies in the directory of its number. -/
def Job.Placed (job : Job) (ctx : Context) : Prop :=
  ∀ status n p, (job.builds.get status).find n = some p → p = buildDir ctx job.name n

theorem loadJob_placed {t : FileTree} {ctx : Context} {jobName : Str} {job : Job}
    (h : loadJob P os t ctx jobName = .ok job) : job.Placed ctx := by
  obtain ⟨_, _, _, _, _, _, _, hName, hBuilds⟩ := loadJob_eq_ok h
  intro status n p hFind
  rw [hBuilds, find_loadBuilds] at hFind
  rw [hFind.2.1, buildDir, hName]

theorem prepareBuild_pending {job job' : Job} {t t' : FileTree} {ctx : Context} {session : Session}
    {params : List (Str × Str)} {n : Nat} {ec : Ec} (hPlaced : job.Placed ctx)
    (h : job.prepareBuild P os t ctx session params = (t', job', some n, ec)) :
    job'.builds.pending.find n = some (buildDir ctx job.name n) := by
  obtain ⟨_, _, _, _, _, _, rfl⟩ := prepareBuild_handle h
  rw [SortedMap.find_emplace, if_pos rfl]
  rcases hOld : job.builds.pending.find n with _ | p
  · rfl
  · rw [Option.getD_some, hPlaced .pending n p hOld]

end CisCore
