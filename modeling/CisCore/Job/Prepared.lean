import CisCore.Job.Acceptance
import CisCore.Job.Build

/-! # What a preparation leaves behind

The directory of a prepared build is what later scans of the job find. So is the
directory of a preparation that failed after it had created one.
-/

namespace CisCore

variable {P : ProtoUtils} {os : Os} {t t' : FileTree} {ctx : Context} {jobName : Str}

/-- A directory with a six-digit number is created, whatever comes of the preparation. -/
def Job.CreatesBuild (os : Os) (job : Job) (t : FileTree) (ctx : Context) : Prop :=
  (os.createDirectory t (buildDir ctx job.name (nextBuildNumber t (jobPath ctx job.name)))).2.2 =
      none ∧ nextBuildNumber t (jobPath ctx job.name) < 1000000

/-! ### Later readers of the job -/

/-- Nothing but the directory of one build may have changed, and that is still there if it was. -/
theorem loadJob_frame {reader : Os} {job : Job} {n : Nat}
    (hSame : FileTree.SameOutside (buildDir ctx jobName n <:+ ·) t t')
    (hKept : t.pathExists (buildDir ctx jobName n) = true →
      t'.find (buildDir ctx jobName n) = t.find (buildDir ctx jobName n))
    (hLoad : loadJob P reader t ctx jobName = .ok job) :
    ∃ job', loadJob P reader t' ctx jobName = .ok job' := by
  have hPath : t'.find (jobPath ctx jobName) = t.find (jobPath ctx jobName) := by
    apply hSame
    intro hBelow
    have hLength := hBelow.length_le
    simp [buildDir] at hLength
  have hEntry : ∀ name : Str, numberString n ≠ name →
      t'.find (jobPath ctx jobName / name) = t.find (jobPath ctx jobName / name) :=
    fun name hne => hSame _ (FileTree.not_suffix_of_sibling hne.symm List.suffix_rfl)
  have hOpen : ∀ name : Str, numberString n ≠ name →
      reader.openIfstream t' (jobPath ctx jobName / name) =
        reader.openIfstream t (jobPath ctx jobName / name) :=
    fun name hne => Os.openIfstream_congr (hEntry name hne) reader
  obtain ⟨hExists, ⟨text, conf, script, ks, kb, hText, hConf, hCounts, hScript⟩, hParams⟩ :=
    loadJob_ok_iff.mp ⟨job, hLoad⟩
  have hScriptSame : t'.find (jobPath ctx jobName / script) = t.find (jobPath ctx jobName / script) := by
    obtain rfl | hne := eq_or_ne (numberString n) script
    · exact hKept (Os.surelyExists_eq_true (Os.surelyExists_iff.mpr hScript))
    · exact hEntry script hne
  refine loadJob_ok_iff.mpr ⟨(Os.pathExists_congr hPath reader).trans hExists,
    ⟨text, conf, script, ks, kb, ?_, hConf, hCounts,
      (Os.pathExists_congr hScriptSame reader).trans hScript⟩, ?_⟩
  · exact (hOpen _ (numberString_ne (c := 'j') (by decide) (by decide) n)).trans hText
  · intro params hOpened
    exact hParams params ((hOpen _ (numberString_ne (c := 'j') (by decide) (by decide) n)).symm.trans
      hOpened)

/-- The scan sees a change of one build's directory under its number only. -/
theorem find_loadBuilds_frame {n m : Nat} (hne : m ≠ n)
    (hSame : FileTree.SameOutside (buildDir ctx jobName n <:+ ·) t t') (reader : Os)
    (s : BuildStatus) :
    ((loadBuilds reader t' (jobPath ctx jobName)).get s).find m =
      ((loadBuilds reader t (jobPath ctx jobName)).get s).find m := by
  have hEntry : ∀ q, buildDir ctx jobName m <:+ q → t'.find q = t.find q :=
    fun q hq => hSame q (buildDir_disjoint hne hq)
  have hStatus : buildStatus reader t' (buildDir ctx jobName m) =
      buildStatus reader t (buildDir ctx jobName m) :=
    buildStatus_congr (hEntry _ (FileTree.suffix_child _ "exitcode.txt".toList)) reader
  apply Option.ext
  intro p
  rw [find_loadBuilds, find_loadBuilds, FileTree.pathExists, FileTree.pathExists]
  constructor
  · rintro ⟨hLt, rfl, hExists, hSeen⟩
    exact ⟨hLt, rfl, hEntry _ List.suffix_rfl ▸ hExists, hStatus.symm.trans hSeen⟩
  · rintro ⟨hLt, rfl, hExists, hSeen⟩
    exact ⟨hLt, rfl, (hEntry _ List.suffix_rfl).symm ▸ hExists, hStatus.trans hSeen⟩

/-! ### The number after a preparation -/

theorem numberString_million : numberString 1000000 = "1000000".toList := by decide

theorem nextBuildNumber_eq_million {path : FsPath} :
    nextBuildNumber t path = 1000000 ↔ t.isDirectory (path / "999999") = true := by
  constructor
  · intro h
    exact (nextBuildNumber_eq_succ (n := 999999) h).2
  · intro hDir
    have hLarger := lt_nextBuildNumber (n := 999999) (by decide) hDir
    have hLe := nextBuildNumber_le t path
    omega

theorem nextBuildNumber_succ {n : Nat} (hNumber : n = nextBuildNumber t (jobPath ctx jobName))
    (hSame : FileTree.SameOutside (buildDir ctx jobName n <:+ ·) t t') (hLt : n < 1000000)
    (hDir : t'.isDirectory (buildDir ctx jobName n) = true) :
    nextBuildNumber t' (jobPath ctx jobName) = n + 1 := by
  have hLarger := lt_nextBuildNumber hLt hDir
  obtain ⟨m, hm⟩ := Nat.exists_eq_add_one_of_ne_zero (Nat.ne_of_gt (Nat.zero_lt_of_lt hLarger))
  obtain ⟨hmLt, hmDir⟩ := nextBuildNumber_eq_succ hm
  obtain rfl | hne := eq_or_ne m n
  · exact hm
  · rw [FileTree.isDirectory, hSame (jobPath ctx jobName / numberString m)
      (buildDir_disjoint hne List.suffix_rfl), ← FileTree.isDirectory] at hmDir
    have hSmaller := lt_nextBuildNumber hmLt hmDir
    omega

theorem next_not_directory {path : FsPath} (hLt : nextBuildNumber t path < 1000000) :
    t.isDirectory (path / numberString (nextBuildNumber t path)) = false := by
  rw [← Bool.not_eq_true]
  intro hDir
  exact absurd (lt_nextBuildNumber hLt hDir) (lt_irrefl _)

/-! ### What is in the directory of a prepared build -/

section Prepared

variable {copy : Copier} {job job' : Job} {session : Session} {params : List (Str × Str)} {n : Nat}
  {ec : Ec}

theorem prepareBuildWith_tree {made : Bool} {t₁ : FileTree}
    (hCreate : os.createDirectory t (buildDir ctx job.name
      (nextBuildNumber t (jobPath ctx job.name))) = (made, t₁, none))
    (P : ProtoUtils) (copy : Copier) (session : Session) (params : List (Str × Str)) :
    (job.prepareBuildWith P os copy t ctx session params).1 =
      (job.fillBuildDir P os copy t₁ ctx session params
        (nextBuildNumber t (jobPath ctx job.name))).1 := by
  simp only [Job.prepareBuildWith, hCreate]
  split
  · rename_i t₂ e hFill
    rw [hFill]
  · rename_i t₂ hFill
    rw [hFill]

theorem prepareBuildWith_not_created (hCreate : (os.createDirectory t (buildDir ctx job.name
      (nextBuildNumber t (jobPath ctx job.name)))).2.2 ≠ none)
    (P : ProtoUtils) (copy : Copier) (session : Session) (params : List (Str × Str)) :
    (job.prepareBuildWith P os copy t ctx session params).1 = t := by
  simp only [Job.prepareBuildWith]
  obtain ⟨made, e, hMake⟩ | ⟨hMake, _⟩ | ⟨hMake, _⟩ := os.createDirectory_cases t
    (buildDir ctx job.name (nextBuildNumber t (jobPath ctx job.name)))
  · rw [hMake]
  · rw [hMake] at hCreate
    exact absurd rfl hCreate
  · rw [hMake] at hCreate
    exact absurd rfl hCreate

theorem prepareBuildWith_created (hCopy : copy.Lawful) (hCreate : (os.createDirectory t
      (buildDir ctx job.name (nextBuildNumber t (jobPath ctx job.name)))).2.2 = none)
    (P : ProtoUtils) (session : Session) (params : List (Str × Str)) :
    (t.find (buildDir ctx job.name (nextBuildNumber t (jobPath ctx job.name))) = none ∨
      t.find (buildDir ctx job.name (nextBuildNumber t (jobPath ctx job.name))) = some .directory) ∧
    (job.prepareBuildWith P os copy t ctx session params).1.find
      (buildDir ctx job.name (nextBuildNumber t (jobPath ctx job.name))) = some .directory := by
  rcases hMake : os.createDirectory t (buildDir ctx job.name
    (nextBuildNumber t (jobPath ctx job.name))) with ⟨made, t₁, ec⟩
  rw [hMake] at hCreate
  obtain rfl : ec = none := hCreate
  obtain ⟨hDir, hBefore⟩ := Os.createDirectory_clear hMake
  refine ⟨hBefore, ?_⟩
  rw [prepareBuildWith_tree hMake, fillBuildDir_sameOutside P os hCopy job t₁ ctx session params _ _
    fun hInside => hInside.2 rfl]
  exact hDir

theorem prepareBuildWith_kept (P : ProtoUtils) (os : Os) (hCopy : copy.Lawful) (job : Job)
    (t : FileTree) (ctx : Context) (session : Session) (params : List (Str × Str))
    (hThere : t.pathExists (buildDir ctx job.name (nextBuildNumber t (jobPath ctx job.name))) = true) :
    (job.prepareBuildWith P os copy t ctx session params).1.find
        (buildDir ctx job.name (nextBuildNumber t (jobPath ctx job.name))) =
      t.find (buildDir ctx job.name (nextBuildNumber t (jobPath ctx job.name))) := by
  by_cases hCreate : (os.createDirectory t (buildDir ctx job.name
    (nextBuildNumber t (jobPath ctx job.name)))).2.2 = none
  · obtain ⟨hNone | hDir, hAfter⟩ := prepareBuildWith_created hCopy hCreate P session params
    · rw [FileTree.pathExists, hNone] at hThere
      cases hThere
    · rw [hAfter, hDir]
  · rw [prepareBuildWith_not_created hCreate]

theorem prepareBuildWith_no_exitcode (hCopy : copy.Lawful) (hTree : t.WellFormed)
    (hNew : t.find (buildDir ctx job.name (nextBuildNumber t (jobPath ctx job.name))) = none)
    (hScript : job.config.script ≠ "exitcode.txt".toList)
    (P : ProtoUtils) (os : Os) (session : Session) (params : List (Str × Str)) :
    recordedStatus (job.prepareBuildWith P os copy t ctx session params).1
      (buildDir ctx job.name (nextBuildNumber t (jobPath ctx job.name))) = .pending := by
  apply recordedStatus_of_absent
  have hOther : ∀ name : Str, name ≠ "exitcode.txt".toList →
      ∀ q, buildDir ctx job.name (nextBuildNumber t (jobPath ctx job.name)) / name <:+ q →
        q ≠ buildDir ctx job.name (nextBuildNumber t (jobPath ctx job.name)) / "exitcode.txt".toList := by
    rintro name hne q hBelow rfl
    exact FileTree.not_suffix_of_sibling hne.symm List.suffix_rfl hBelow
  have hAbsent : t.find (buildDir ctx job.name (nextBuildNumber t (jobPath ctx job.name)) /
      "exitcode.txt".toList) = none := hTree.find_below hNew (FileTree.suffix_child _ _)
  by_cases hCreate : (os.createDirectory t (buildDir ctx job.name
    (nextBuildNumber t (jobPath ctx job.name)))).2.2 = none
  · rcases hMake : os.createDirectory t (buildDir ctx job.name
      (nextBuildNumber t (jobPath ctx job.name))) with ⟨made, t₁, ec⟩
    rw [hMake] at hCreate
    obtain rfl : ec = none := hCreate
    have hCreated := Os.createDirectory_sameOutside (S := (· = buildDir ctx job.name
      (nextBuildNumber t (jobPath ctx job.name)))) rfl hMake
    have hFrame := fillBuildDir_sameOutside_files P os hCopy job t₁ ctx session params
      (nextBuildNumber t (jobPath ctx job.name)) (S := (· ≠ buildDir ctx job.name
        (nextBuildNumber t (jobPath ctx job.name)) / "exitcode.txt".toList)) (by
        simp only [List.forall_mem_cons]
        exact ⟨hOther _ hScript, hOther _ (by decide), hOther _ (by decide), hOther _ (by decide),
          List.forall_mem_nil _⟩)
    rw [prepareBuildWith_tree hMake]
    exact ((hFrame _ fun hne => hne rfl).trans (hCreated _ (List.cons_ne_self _ _))).trans hAbsent
  · rw [prepareBuildWith_not_created hCreate]
    exact hAbsent

theorem prepareBuildWith_new (hCopy : copy.Lawful)
    (h : job.prepareBuildWith P os copy t ctx session params = (t', job', some n, ec))
    (hLt : n < 1000000) : t.find (buildDir ctx job.name n) = none ∧
      t'.find (buildDir ctx job.name n) = some .directory := by
  obtain ⟨made, t₁, rfl, _, hCreate, _⟩ := prepareBuildWith_handle h
  have hCreated := prepareBuildWith_created hCopy (by rw [hCreate]) P session params
  rw [h] at hCreated
  refine ⟨hCreated.1.resolve_right fun hDir => ?_, hCreated.2⟩
  have hNoDir := next_not_directory hLt
  rw [← buildDir, FileTree.isDirectory, hDir] at hNoDir
  cases hNoDir

/-- Only the script can bring an exit code with it. -/
theorem prepareBuildWith_recorded (hCopy : copy.Lawful) (hTree : t.WellFormed)
    (h : job.prepareBuildWith P os copy t ctx session params = (t', job', some n, ec))
    (hLt : n < 1000000) :
    recordedStatus t' (buildDir ctx job.name n) =
      if job.config.script = "exitcode.txt".toList then recordedStatus t (jobPath ctx job.name)
      else .pending := by
  obtain ⟨hNew, _⟩ := prepareBuildWith_new hCopy h hLt
  obtain ⟨made, t₁, hNumber, _, hCreate, hFill, _⟩ := prepareBuildWith_handle h
  have hCreated := Os.createDirectory_sameOutside (S := (· = buildDir ctx job.name n)) rfl hCreate
  split_ifs with hScript
  · have hOther : jobPath ctx job.name / "exitcode.txt" ≠ buildDir ctx job.name n := fun hEq =>
      numberString_ne (c := 'e') (by decide) (by decide) n (List.cons.inj hEq).1.symm
    have hFree : t₁.find (buildDir ctx job.name n / job.config.script) = none :=
      (hCreated _ (List.cons_ne_self _ _)).trans
        (hTree.find_below hNew (FileTree.suffix_child _ _))
    have hCopied := fillBuildDir_script hCopy hFill hFree (by
      rw [hScript]
      decide)
    rw [hScript] at hCopied
    have hText : t'.content (buildDir ctx job.name n / "exitcode.txt") =
        t.content (jobPath ctx job.name / "exitcode.txt") :=
      hCopied.trans (hCreated.content_eq hOther)
    rw [recordedStatus, hText, ← recordedStatus]
  · have hNoExitcode := prepareBuildWith_no_exitcode hCopy hTree (hNumber ▸ hNew) hScript P os session
      params
    rw [h, ← hNumber] at hNoExitcode
    exact hNoExitcode

theorem fillBuildDir_stdCopy (hScript : (t.content (jobPath ctx job.name / job.config.script)).isSome)
    (hConf : (t.content (jobPath ctx job.name / "job.conf")).isSome)
    (hFiles : t.FilesOnly (buildDir ctx job.name n)) :
    job.fillBuildDir P os os.stdCopy t ctx session params n =
      job.fillBuildDir P os os.copy t ctx session params n := by
  have hTarget : ∀ (u : FileTree) (name : Str), u.FilesOnly (buildDir ctx job.name n) →
      u.isDirectory (buildDir ctx job.name n / name) = false := by
    intro u name hu
    rw [← Bool.not_eq_true, FileTree.isDirectory_iff]
    exact hu.2 name
  have hOutside := not_buildDir_suffix_jobConf ctx job.name n
  simp only [Job.fillBuildDir, Os.stdCopy_eq_copy hScript (hTarget t _ hFiles)]
  obtain ⟨e, hCopy⟩ | ⟨node, hCopy, hSource, _, _⟩ := os.copy_cases t
    (jobPath ctx job.name / job.config.script) (buildDir ctx job.name n / job.config.script)
  · rw [hCopy]
  · obtain ⟨text, executable, hNode⟩ := FileTree.find_of_content hScript
    obtain rfl := Option.some.inj (hSource.symm.trans hNode)
    rw [hCopy]
    simp only
    have hFiles₁ := hFiles.insert job.config.script text executable
    have hConf₁ : (FileTree.content (SortedMap.insert t (buildDir ctx job.name n / job.config.script)
        (.file text executable)) (jobPath ctx job.name / "job.conf")).isSome := by
      rw [(FileTree.SameOutside.insert (S := (buildDir ctx job.name n <:+ ·))
        (FileTree.suffix_child _ _) t _).content_eq hOutside]
      exact hConf
    generalize SortedMap.insert t (buildDir ctx job.name n / job.config.script)
      (.file text executable) = t₁ at hFiles₁ hConf₁
    cases hParams : os.writeFile t₁ (buildDir ctx job.name n / "job.params") (P.encodedLines params) with
    | none => rfl
    | some t₂ =>
      obtain rfl := Os.writeFile_eq_some hParams
      have hConf₂ : (FileTree.content (FileTree.write t₁ (buildDir ctx job.name n / "job.params")
          (P.encodedLines params)) (jobPath ctx job.name / "job.conf")).isSome := by
        rw [(FileTree.SameOutside.write (S := (buildDir ctx job.name n <:+ ·))
          (q := buildDir ctx job.name n / "job.params") (List.suffix_cons _ _) t₁ _).content_eq hOutside]
        exact hConf₁
      have hSame : os.stdCopy (FileTree.write t₁ (buildDir ctx job.name n / "job.params")
          (P.encodedLines params)) (jobPath ctx job.name / "job.conf")
          (buildDir ctx job.name n / "job.conf") = os.copy _ _ _ :=
        Os.stdCopy_eq_copy hConf₂ (hTarget _ _ (hFiles₁.write "job.params".toList _))
      simp only [hSame]

/-- A regular file as the script of a build with six digits: the two copies do the same. -/
theorem prepareBuildWith_stdCopy (hTree : t.WellFormed)
    (hLt : nextBuildNumber t (jobPath ctx job.name) < 1000000)
    (hScript : (t.content (jobPath ctx job.name / job.config.script)).isSome)
    (hConf : (t.content (jobPath ctx job.name / "job.conf")).isSome) :
    job.prepareBuildWith P os os.stdCopy t ctx session params =
      job.prepareBuild P os t ctx session params := by
  simp only [Job.prepareBuild, Job.prepareBuildWith]
  obtain ⟨made, e, hCreate⟩ | ⟨_, hDir⟩ | ⟨hCreate, hNew, _⟩ := os.createDirectory_cases t
    (buildDir ctx job.name (nextBuildNumber t (jobPath ctx job.name)))
  · rw [hCreate]
  · have hNoDir := next_not_directory hLt
    rw [← buildDir, FileTree.isDirectory, hDir] at hNoDir
    cases hNoDir
  · have hFrame := FileTree.SameOutside.insert (S := (· = buildDir ctx job.name
      (nextBuildNumber t (jobPath ctx job.name)))) rfl t .directory
    have hKept : ∀ q, (t.content q).isSome → (FileTree.content (SortedMap.insert t
        (buildDir ctx job.name (nextBuildNumber t (jobPath ctx job.name))) .directory) q).isSome := by
      intro q hFile
      rw [hFrame.content_eq]
      · exact hFile
      · rintro rfl
        rw [FileTree.content, hNew] at hFile
        cases hFile
    have hFiles : FileTree.FilesOnly (SortedMap.insert t (buildDir ctx job.name
        (nextBuildNumber t (jobPath ctx job.name))) .directory) (buildDir ctx job.name
        (nextBuildNumber t (jobPath ctx job.name))) := by
      refine ⟨SortedMap.find_insert_self t _ _, fun name => ?_⟩
      rw [hFrame _ (FileTree.inside_child _ name).2, hTree.find_below hNew (FileTree.suffix_child _ name)]
      simp
    rw [hCreate]
    simp only [fillBuildDir_stdCopy (hKept _ hScript) (hKept _ hConf) hFiles]

end Prepared

/-! ### A prepared build is a build -/

/-- What the caller of `prepareBuild` and later readers of the job find: those who could
load the job before can load it, and its scan takes the new directory for a pending build. -/
structure ListedBuild (P : ProtoUtils) (ctx : Context) (jobName : Str) (t t' : FileTree) (n : Nat) :
    Prop where
  loads : ∀ reader job, loadJob P reader t ctx jobName = .ok job →
    ∃ job', loadJob P reader t' ctx jobName = .ok job'
  listed : ∀ reader : Os, (loadBuilds reader t' (jobPath ctx jobName)).Only .pending n
    (jobPath ctx jobName / numberString n)
  directory : t'.find (jobPath ctx jobName / numberString n) = some .directory
  next : n < nextBuildNumber t' (jobPath ctx jobName)

section Listed

variable {job job' : Job} {session : Session} {params : List (Str × Str)} {n : Nat} {ec : Ec}

theorem prepareBuildWith_listed {copy : Copier} (hCopy : copy.Lawful) (hTree : t.WellFormed)
    (hName : job.name = jobName)
    (h : job.prepareBuildWith P os copy t ctx session params = (t', job', some n, ec))
    (hLt : n < 1000000) (hScript : job.config.script = "exitcode.txt".toList →
      recordedStatus t (jobPath ctx jobName) = .pending) : ListedBuild P ctx jobName t t' n := by
  subst hName
  have hSame := prepareBuildWith_sameOutside P os hCopy job t ctx session params
  obtain ⟨hNew, hDir⟩ := prepareBuildWith_new hCopy h hLt
  have hRecorded := prepareBuildWith_recorded hCopy hTree h hLt
  obtain ⟨_, _, rfl, _⟩ := prepareBuildWith_handle h
  rw [h] at hSame
  have hVacant : ¬t.pathExists (buildDir ctx job.name (nextBuildNumber t (jobPath ctx job.name))) =
      true := by
    rw [FileTree.pathExists, hNew]
    simp
  refine ⟨fun reader job₀ hLoad => loadJob_frame hSame (absurd · hVacant) hLoad, fun reader => ?_, hDir,
    lt_nextBuildNumber hLt (FileTree.isDirectory_iff.mpr hDir)⟩
  have hPending : recordedStatus t' (buildDir ctx job.name (nextBuildNumber t (jobPath ctx job.name))) =
      .pending := by
    rw [hRecorded]
    split_ifs with hExitcode
    · exact hScript hExitcode
    · rfl
  exact find_loadBuilds_only hLt rfl (Option.isSome_iff_exists.mpr ⟨_, hDir⟩)
    (buildStatus_of_pending hPending reader)

/-- What keeps a preparation with the number 1000000 from creating anything: the entry of that
name, when it is no directory; and when it is one, entries in it that are in the way of the
script, or of the parameters where a script that is a directory has no file to copy. -/
def MillionTaken (t : FileTree) (path : FsPath) (script : Str) : Prop :=
  t.pathExists (path / "1000000") = true ∧
    (t.isDirectory (path / "1000000") = true →
      NothingToCopy t (path / script) (path / "1000000" / script) ∧
      (CopyCollides t (path / script) (path / "1000000" / script) ∨
        t.isDirectory (path / "1000000" / "job.params") = true))

theorem buildDir_million (ctx : Context) (jobName : Str) :
    buildDir ctx jobName 1000000 = jobPath ctx jobName / "1000000" := by
  rw [buildDir, numberString_million]
  rfl

theorem MillionTaken.blocked (h : MillionTaken t (jobPath ctx job.name) job.config.script)
    (hBrim : t.isDirectory (jobPath ctx job.name / "999999") = true)
    (P : ProtoUtils) (os : Os) (session : Session) (params : List (Str × Str)) :
    ∃ e, job.prepareBuildWith P os os.stdCopy t ctx session params = (t, job, none, some e) := by
  obtain ⟨hTaken, hDirectory⟩ := h
  rw [← buildDir_million] at hTaken hDirectory
  simp only [Job.prepareBuildWith, nextBuildNumber_eq_million.mpr hBrim]
  obtain ⟨made, e, hCreate⟩ | ⟨hCreate, hFound⟩ | ⟨_, hNone, _⟩ :=
    os.createDirectory_cases t (buildDir ctx job.name 1000000)
  · rw [hCreate]
    exact ⟨e, rfl⟩
  · obtain ⟨hNothing, hCollides⟩ := hDirectory (FileTree.isDirectory_iff.mpr hFound)
    obtain ⟨hSame, hFails⟩ := hNothing.stdCopy os
    rw [hCreate]
    simp only [Job.fillBuildDir]
    rcases hScript : os.stdCopy t (jobPath ctx job.name / job.config.script)
      (buildDir ctx job.name 1000000 / job.config.script) with ⟨t₁, _ | e⟩
    · rw [hScript] at hSame hFails
      obtain rfl : t₁ = t := hSame
      have hParams := hCollides.resolve_left fun hCollides => hFails hCollides rfl
      have hNoFile : os.writeFile t₁ (buildDir ctx job.name 1000000 / "job.params")
          (P.encodedLines params) = none := Os.writeFile_directory hParams _
      simp only [hNoFile]
      exact ⟨_, rfl⟩
    · rw [hScript] at hSame
      obtain rfl : t₁ = t := hSame
      exact ⟨e, rfl⟩
  · rw [FileTree.pathExists, hNone] at hTaken
    cases hTaken

theorem loadJob_path (hTree : t.WellFormed) (hLoad : loadJob P os t ctx jobName = .ok job) :
    t.isDirectory (jobPath ctx jobName) = true := by
  obtain ⟨_, _, hText, _⟩ := loadJob_eq_ok hLoad
  exact hTree _ "job.conf".toList (Os.openIfstream_pathExists hText)

/-- An empty file, which is what a directory reads as, configures no job. -/
theorem loadJob_conf_file (hP : P.Lawful) (hLoad : loadJob P os t ctx jobName = .ok job) :
    ∃ text executable, t.find (jobPath ctx jobName / "job.conf") = some (.file text executable) := by
  obtain ⟨text, conf, hText, hConf, hCounts, _⟩ := loadJob_eq_ok hLoad
  have hThere := Os.openIfstream_pathExists hText
  rw [FileTree.pathExists, Option.isSome_iff_exists] at hThere
  obtain ⟨_ | ⟨text', executable⟩, hNode⟩ := hThere
  · have hEmpty := Os.openIfstream_text hText
    rw [FileTree.content, hNode] at hEmpty
    subst hEmpty
    obtain ⟨m, hRead, hPairs, _⟩ := hP.map_some _ false [] (hP.read_nil false)
    obtain rfl := Option.some.inj (hConf.symm.trans hRead)
    have hScript := (jobCounts_eq_some_iff.mp hCounts).1
    exact absurd (hPairs _ _ hScript) List.not_mem_nil
  · exact ⟨text', executable, hNode⟩

/-- Two lists of parameters are written as two texts, so one of them changes the file. -/
theorem exists_write_ne (P : ProtoUtils) (t : FileTree) (p : FsPath) :
    ∃ params, t.write p (P.encodedLines params) ≠ t := by
  by_contra hNone
  have hText : ∀ params, t.content p = some (P.encodedLines params) := by
    intro params
    by_contra hOther
    refine hNone ⟨params, fun hSame => hOther ?_⟩
    rw [← hSame, FileTree.content_write_self]
  have hSame := Option.some.inj ((hText []).symm.trans (hText [([], [])]))
  simp [ProtoUtils.encodedLines, ProtoUtils.encodedLine, ProtoUtils.rawLine] at hSame

/-- Where the entry 1000000 leaves room, some preparation creates something. -/
theorem millionTaken_of_unchanged (hP : P.Lawful) (hTree : t.WellFormed)
    (hLoad : loadJob P os t ctx jobName = .ok job)
    (hBrim : t.isDirectory (jobPath ctx jobName / "999999") = true)
    (h : ∀ (os : Os) session params,
      (job.prepareBuildWith P os os.stdCopy t ctx session params).1 = t) :
    MillionTaken t (jobPath ctx jobName) job.config.script := by
  obtain rfl := loadJob_name hLoad
  have hPath := loadJob_path hTree hLoad
  have hNumber := nextBuildNumber_eq_million.mpr hBrim
  rw [MillionTaken, ← buildDir_million]
  constructor
  · by_contra hNone
    have hIdeal := Os.ideal_faultless ∅
    have hCreate := Os.createDirectory_faultless hIdeal (p := buildDir ctx job.name 1000000) hPath
      (FileTree.find_eq_none hNone)
    rw [← hNumber] at hCreate
    have hGrows := fillBuildDir_grows P (.ideal ∅) (Os.stdCopy_lawful (.ideal ∅)) job
      (SortedMap.insert t (buildDir ctx job.name (nextBuildNumber t (jobPath ctx job.name))) .directory)
      ctx ⟨[], true⟩ [] (nextBuildNumber t (jobPath ctx job.name))
    rw [← prepareBuildWith_tree hCreate, h, hNumber] at hGrows
    exact hNone (hGrows _ (FileTree.pathExists_insert_self _ _ _))
  · intro hDir
    have hne : jobPath ctx job.name / job.config.script ≠
        buildDir ctx job.name 1000000 / job.config.script := by
      intro hEq
      have hLength := congrArg List.length hEq
      simp [buildDir] at hLength
    have hCreate : ∀ os : Os, os.createDirectoryFault (buildDir ctx job.name 1000000) = none →
        os.createDirectory t (buildDir ctx job.name 1000000) = (false, t, none) := by
      intro os hFault
      rw [Os.createDirectory, hFault, FileTree.isDirectory_iff.mp hDir]
    have hNothing : NothingToCopy t (jobPath ctx job.name / job.config.script)
        (buildDir ctx job.name 1000000 / job.config.script) := by
      by_contra hSomething
      obtain ⟨entry, q, hFree, hThere⟩ := exists_stdCopy_grows hSomething hDir hne
      have hMade := hCreate (Os.readingFirst entry) rfl
      have hGrows := fillBuildDir_grows_script P (Os.readingFirst entry)
        (Os.stdCopy_lawful (Os.readingFirst entry)) job t ctx ⟨[], true⟩ [] 1000000
      rw [← hNumber] at hMade hGrows
      rw [← prepareBuildWith_tree hMade, h, hNumber] at hGrows
      rw [hGrows q hThere] at hFree
      cases hFree
    refine ⟨hNothing, ?_⟩
    by_contra hNeither
    obtain ⟨hNoCollision, hNoDirectory⟩ := not_or.mp hNeither
    obtain ⟨_, _, _, _, _, hThere, _⟩ := loadJob_eq_ok hLoad
    obtain ⟨conf, executable, hConf⟩ := loadJob_conf_file hP hLoad
    have hName : job.config.script ≠ "job.conf".toList := by
      intro hScript
      refine hNoCollision (Or.inl ?_)
      rw [hScript]
      exact Option.isSome_iff_exists.mpr ⟨_, FileTree.content_of_find hConf⟩
    obtain ⟨params, hNew⟩ := exists_write_ne P t (buildDir ctx job.name 1000000 / "job.params")
    -- the configuration cannot be copied, so that what was written before is all that is left
    let noConf : Os := { Os.ideal ∅ with
      copyFault := fun _ q =>
        if q = buildDir ctx job.name 1000000 / "job.conf" then some (.other 5) else none }
    have hScript : noConf.stdCopy t (jobPath ctx job.name / job.config.script)
        (buildDir ctx job.name 1000000 / job.config.script) = (t, none) := by
      apply hNothing.stdCopy_idle hNoCollision hThere hne
      · exact if_neg fun hEq => hName (List.cons.inj hEq).1
      · intro p name
        refine if_neg fun hEq => ?_
        have hLength := congrArg List.length hEq
        simp at hLength
    have hOpens : (noConf.writeFile t (buildDir ctx job.name 1000000 / "job.params")
        (P.encodedLines params)).isSome := by
      rw [Os.writeFile, Option.isSome_map, Os.openOfstream_isSome_iff]
      refine ⟨rfl, ?_⟩
      rcases hFind : t.find (buildDir ctx job.name 1000000 / "job.params") with _ | (_ | ⟨text, x⟩)
      · right
        rw [FileTree.pathExists, hFind]
        exact ⟨rfl, hDir⟩
      · exact absurd (FileTree.isDirectory_iff.mpr hFind) hNoDirectory
      · left
        rw [FileTree.content_of_find hFind]
        rfl
    obtain ⟨t₂, hParams⟩ := Option.isSome_iff_exists.mp hOpens
    have hConfFails : noConf.stdCopy t₂ (jobPath ctx job.name / "job.conf")
        (buildDir ctx job.name 1000000 / "job.conf") = (t₂, some (.system (.other 5))) := by
      have hFault : noConf.copyFault (jobPath ctx job.name / "job.conf")
        (buildDir ctx job.name 1000000 / "job.conf") = some (.other 5) := if_pos rfl
      simp only [Os.stdCopy, hFault]
    have hFill : (job.fillBuildDir P noConf noConf.stdCopy t ctx ⟨[], true⟩ params 1000000).1 = t₂ := by
      simp only [Job.fillBuildDir, hScript, hParams, hConfFails]
    have hMade := hCreate noConf rfl
    rw [← hNumber] at hMade
    have hUnchanged := h noConf ⟨[], true⟩ params
    rw [prepareBuildWith_tree hMade, hNumber, hFill, Os.writeFile_eq_some hParams] at hUnchanged
    exact hNew hUnchanged

/-- A script that is its own exit code makes the new build look finished. -/
theorem prepareBuildWith_not_listed (hP : P.Lawful) (hTree : t.WellFormed)
    (hLoad : loadJob P os t ctx jobName = .ok job)
    (hLt : nextBuildNumber t (jobPath ctx jobName) < 1000000)
    (hScript : job.config.script = "exitcode.txt".toList)
    (hRecorded : recordedStatus t (jobPath ctx jobName) ≠ .pending)
    (hNew : t.find (buildDir ctx jobName (nextBuildNumber t (jobPath ctx jobName))) = none) :
    ∃ t' job' n, job.prepareBuildWith P (.ideal ∅) (Os.stdCopy (.ideal ∅)) t ctx ⟨[], true⟩ [] =
        (t', job', some n, none) ∧ ¬ListedBuild P ctx jobName t t' n := by
  obtain rfl := loadJob_name hLoad
  obtain ⟨conf, confExecutable, hConf⟩ := loadJob_conf_file hP hLoad
  have hFile : ∃ text executable, t.find (jobPath ctx job.name / job.config.script) =
      some (.file text executable) := by
    rw [hScript]
    rcases hNode : t.find (jobPath ctx job.name / "exitcode.txt".toList) with
      _ | (_ | ⟨text, executable⟩)
    · exact absurd (recordedStatus_of_absent hNode) hRecorded
    · refine absurd ?_ hRecorded
      have hNoText : t.content (jobPath ctx job.name / "exitcode.txt") = none := by
        rw [FileTree.content]
        exact hNode ▸ rfl
      rw [recordedStatus, hNoText]
      rfl
    · exact ⟨text, executable, rfl⟩
  obtain ⟨text, executable, hSource⟩ := hFile
  have hName : job.config.script ≠ "job.conf".toList := by
    rw [hScript]
    decide
  obtain ⟨_, t', job', hPrepared, _⟩ := prepareBuild_completes P (Os.ideal_faultless ∅) ⟨[], true⟩ []
    rfl hName hSource hConf (loadJob_path hTree hLoad) fun q hBelow => hTree.find_below hNew hBelow
  rw [← prepareBuildWith_stdCopy hTree hLt
    (Option.isSome_iff_exists.mpr ⟨_, FileTree.content_of_find hSource⟩)
    (Option.isSome_iff_exists.mpr ⟨_, FileTree.content_of_find hConf⟩)] at hPrepared
  refine ⟨t', job', _, hPrepared, fun hListed => hRecorded ?_⟩
  have hSeen := hListed.listed (.ideal ∅) .pending
  rw [if_pos rfl] at hSeen
  have hStatus := (find_loadBuilds.mp hSeen).2.2.2
  rw [buildStatus_eq_recorded rfl, ← buildDir,
    prepareBuildWith_recorded (Os.stdCopy_lawful _) hTree hPrepared hLt, if_pos hScript] at hStatus
  exact hStatus

end Listed

/-- A prepared build is found by whoever loads the job, and where the numbers are used up
nothing is prepared; unless a directory 999999 leaves room for an entry 1000000, or the
script of the job is an exit code. -/
theorem prepared_build_listed_iff (hP : P.Lawful) (hTree : t.WellFormed) {job : Job}
    (hLoad : loadJob P os t ctx jobName = .ok job) :
    ((∀ (os : Os) session params t' job' n ec,
        job.prepareBuildWith P os os.stdCopy t ctx session params = (t', job', some n, ec) →
        ListedBuild P ctx jobName t t' n) ∧
      (t.isDirectory (jobPath ctx jobName / "999999") = true → ∀ (os : Os) session params,
        ∃ e, job.prepareBuildWith P os os.stdCopy t ctx session params = (t, job, none, some e))) ↔
    (t.isDirectory (jobPath ctx jobName / "999999") = true →
      MillionTaken t (jobPath ctx jobName) job.config.script) ∧
    (t.isDirectory (jobPath ctx jobName / "999999") = false →
      job.config.script = "exitcode.txt".toList →
      recordedStatus t (jobPath ctx jobName) = .pending ∨
        t.pathExists (jobPath ctx jobName /
          numberString (nextBuildNumber t (jobPath ctx jobName))) = true) := by
  have hName := loadJob_name hLoad
  have hBelow : t.isDirectory (jobPath ctx jobName / "999999") = false →
      nextBuildNumber t (jobPath ctx jobName) < 1000000 := by
    intro hFree
    refine lt_of_le_of_ne (nextBuildNumber_le t _) fun hMillion => ?_
    rw [nextBuildNumber_eq_million.mp hMillion] at hFree
    cases hFree
  constructor
  · rintro ⟨hListed, hBlocked⟩
    refine ⟨fun hBrim => ?_, fun hFree hScript => ?_⟩
    · apply millionTaken_of_unchanged hP hTree hLoad hBrim
      intro os' session params
      obtain ⟨e, hPrepare⟩ := hBlocked hBrim os' session params
      rw [hPrepare]
    · by_contra hNeither
      obtain ⟨hRecorded, hNew⟩ := not_or.mp hNeither
      obtain ⟨t', job', n, hPrepared, hNotListed⟩ := prepareBuildWith_not_listed hP hTree hLoad
        (hBelow hFree) hScript hRecorded (FileTree.find_eq_none hNew)
      exact hNotListed (hListed _ _ _ _ _ _ _ hPrepared)
  · rintro ⟨hBrim, hFree⟩
    subst hName
    constructor
    · intro os' session params t' job' n ec hPrepare
      obtain ⟨_, _, hNumber, _⟩ := prepareBuildWith_handle hPrepare
      cases hFull : t.isDirectory (jobPath ctx job.name / "999999") with
      | true =>
        obtain ⟨e, hBlocked⟩ := (hBrim hFull).blocked hFull P os' session params
        rw [hBlocked] at hPrepare
        cases hPrepare
      | false =>
        have hLt := hBelow hFull
        rw [← hNumber] at hLt
        apply prepareBuildWith_listed os'.stdCopy_lawful hTree rfl hPrepare hLt
        intro hScript
        refine (hFree hFull hScript).resolve_right ?_
        rw [← hNumber, ← buildDir, FileTree.pathExists,
          (prepareBuildWith_new os'.stdCopy_lawful hPrepare hLt).1]
        simp
    · intro hFull os' session params
      exact (hBrim hFull).blocked hFull P os' session params

theorem demoTree_wellFormed : (demoTree "1" []).WellFormed :=
  FileTree.wellFormed_of_keys (by decide)

theorem prepared_build_listed_first :
    (∀ (os : Os) session params t' job' n ec,
        (⟨"j", ⟨"s", 1, 1, []⟩, ⟨∅, ∅, ∅⟩⟩ : Job).prepareBuildWith .reference os os.stdCopy
          (demoTree "1" []) demoContext session params = (t', job', some n, ec) →
        ListedBuild .reference demoContext "j" (demoTree "1" []) t' n) ∧
      ((demoTree "1" []).isDirectory (jobPath demoContext "j" / "999999") = true →
        ∀ (os : Os) session params, ∃ e, (⟨"j", ⟨"s", 1, 1, []⟩, ⟨∅, ∅, ∅⟩⟩ : Job).prepareBuildWith
          .reference os os.stdCopy (demoTree "1" []) demoContext session params =
            (demoTree "1" [], ⟨"j", ⟨"s", 1, 1, []⟩, ⟨∅, ∅, ∅⟩⟩, none, some e)) := by
  have hLoad : loadJob .reference (.ideal ∅) (demoTree "1" []) demoContext "j" =
    .ok ⟨"j", ⟨"s", 1, 1, []⟩, ⟨∅, ∅, ∅⟩⟩ := rfl
  have hFree : (demoTree "1" []).isDirectory (jobPath demoContext "j" / "999999") = false := by decide
  refine (prepared_build_listed_iff ProtoUtils.reference_lawful demoTree_wellFormed hLoad).mpr
    ⟨fun hBrim => ?_, fun _ => by decide⟩
  rw [hFree] at hBrim
  cases hBrim

/-- A job `j` whose build 999999 is pending. -/
def brimTree : FileTree := demoTree "1" [(jobPath demoContext "j" / "999999", .directory)]

/-- The next build gets a valid handle with a number that nobody lists, and so does the one
after it. -/
theorem build_million_not_listed :
    ∃ job t' job' later, loadJob .reference (.ideal ∅) brimTree demoContext "j" = .ok job ∧
      job.prepareBuildWith .reference (.ideal ∅) (Os.stdCopy (.ideal ∅)) brimTree demoContext
        ⟨"s", true⟩ [] = (t', job', some 1000000, none) ∧
      loadJob .reference (.ideal ∅) t' demoContext "j" = .ok later ∧
      later.builds.pending.find 1000000 = none ∧
      nextBuildNumber t' (jobPath demoContext "j") = 1000000 :=
  ⟨_, _, _, _, rfl, rfl, rfl, rfl, rfl⟩

-- a directory with the name of the script lets the copy in
example : ((⟨"j", ⟨"s", 1, 1, []⟩, ⟨∅, ∅, ∅⟩⟩ : Job).prepareBuildWith .reference (.ideal ∅)
    (Os.stdCopy (.ideal ∅)) (demoTree "1" [(jobPath demoContext "j" / "999999", .directory),
      (jobPath demoContext "j" / "1000000", .directory),
      (jobPath demoContext "j" / "1000000" / "s", .directory)]) demoContext ⟨"s", true⟩ []).2.2.1 =
    some 1000000 := rfl

end CisCore
