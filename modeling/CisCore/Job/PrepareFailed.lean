import CisCore.Job.Prepared

/-! # A preparation that fails

What it leaves behind is what later scans of the job take for a build.
-/

namespace CisCore

variable {P : ProtoUtils} {os : Os} {t t' : FileTree} {ctx : Context}

section Failed

variable {job job' : Job} {session : Session} {params : List (Str × Str)} {n : Nat} {ec : Ec}

theorem prepareBuild_failed (h : job.prepareBuild P os t ctx session params = (t', job', none, ec)) :
    ec ≠ none ∧ job' = job := by
  have hHandle := prepareBuild_handle_iff P os job t ctx session params
  rw [h] at hHandle
  refine ⟨fun hClear => hHandle.mpr hClear rfl, ?_⟩
  simp only [Job.prepareBuild, Job.prepareBuildWith] at h
  split at h
  · cases h
    rfl
  split at h
  · cases h
    rfl
  · cases h

/-- Without a new directory of six digits the scan and the next number stay what they were. -/
theorem prepareBuild_not_creates (h : ¬job.CreatesBuild os t ctx) (P : ProtoUtils)
    (session : Session) (params : List (Str × Str)) (reader : Os) :
    loadBuilds reader (job.prepareBuild P os t ctx session params).1 (jobPath ctx job.name) =
        loadBuilds reader t (jobPath ctx job.name) ∧
      nextBuildNumber (job.prepareBuild P os t ctx session params).1 (jobPath ctx job.name) =
        nextBuildNumber t (jobPath ctx job.name) := by
  by_cases hCreate : (os.createDirectory t (buildDir ctx job.name
    (nextBuildNumber t (jobPath ctx job.name)))).2.2 = none
  · have hMillion : nextBuildNumber t (jobPath ctx job.name) = 1000000 :=
      Nat.le_antisymm (nextBuildNumber_le t _) (not_lt.mp fun hLt => h ⟨hCreate, hLt⟩)
    have hSame := prepareBuild_sameOutside P os job t ctx session params
    rw [hMillion] at hSame ⊢
    constructor
    · apply Builds.ext_get
      intro s m
      obtain rfl | hne := eq_or_ne m 1000000
      · apply Option.ext
        intro p
        rw [find_loadBuilds, find_loadBuilds]
        simp
      · exact find_loadBuilds_frame hne hSame reader s
    · have hBrim := nextBuildNumber_eq_million.mp hMillion
      have hOutside : ¬buildDir ctx job.name 1000000 <:+ (jobPath ctx job.name / "999999") :=
        FileTree.not_suffix_of_sibling (by decide) List.suffix_rfl
      rw [nextBuildNumber_eq_million, FileTree.isDirectory, hSame _ hOutside]
      exact hBrim
  · have hSame : (job.prepareBuild P os t ctx session params).1 = t :=
      prepareBuildWith_not_created hCreate P os.copy session params
    rw [hSame]
    exact ⟨rfl, rfl⟩

/-- With one, the directory is all that is new, and it counts as a pending build. -/
theorem prepareBuild_creates (hTree : t.WellFormed) (h : job.CreatesBuild os t ctx) (P : ProtoUtils)
    (session : Session) (params : List (Str × Str)) {n : Nat}
    (hNumber : n = nextBuildNumber t (jobPath ctx job.name)) :
    t.find (buildDir ctx job.name n) = none ∧
      (job.prepareBuild P os t ctx session params).1.find (buildDir ctx job.name n) =
        some .directory ∧
      nextBuildNumber (job.prepareBuild P os t ctx session params).1 (jobPath ctx job.name) = n + 1 ∧
      ∀ reader : Os, ∃ status, (loadBuilds reader (job.prepareBuild P os t ctx session params).1
          (jobPath ctx job.name)).Only status n (buildDir ctx job.name n) ∧
        (job.config.script ≠ "exitcode.txt".toList → status = .pending) := by
  obtain ⟨hCreate, hLt⟩ := h
  obtain ⟨hBefore, hAfter⟩ := prepareBuildWith_created os.copy_lawful hCreate P session params
  have hNew : t.find (buildDir ctx job.name (nextBuildNumber t (jobPath ctx job.name))) = none := by
    refine hBefore.resolve_right fun hDir => ?_
    have hNoDir := next_not_directory hLt
    rw [← buildDir, FileTree.isDirectory, hDir] at hNoDir
    cases hNoDir
  subst hNumber
  refine ⟨hNew, hAfter, nextBuildNumber_succ rfl
    (prepareBuild_sameOutside P os job t ctx session params) hLt
    (FileTree.isDirectory_iff.mpr hAfter), fun reader => ⟨_, find_loadBuilds_only hLt rfl
      (Option.isSome_iff_exists.mpr ⟨_, hAfter⟩) rfl, fun hScript => ?_⟩⟩
  exact buildStatus_of_pending
    (prepareBuildWith_no_exitcode os.copy_lawful hTree hNew hScript P os session params) reader

end Failed

/-- A preparation that fails reports an error. What it leaves behind is at most the
directory that it has created; its number is then taken, and those who load the job
find it among the pending builds. -/
theorem failed_prepare_leaves {job job' : Job} {session : Session} {params : List (Str × Str)}
    {ec : Ec} {n : Nat} (hTree : t.WellFormed)
    (h : job.prepareBuild P os t ctx session params = (t', job', none, ec))
    (hNumber : n = nextBuildNumber t (jobPath ctx job.name)) :
    ec ≠ none ∧ job' = job ∧ (∀ q, ¬buildDir ctx job.name n <:+ q → t'.find q = t.find q) ∧
      (¬job.CreatesBuild os t ctx → nextBuildNumber t' (jobPath ctx job.name) = n) ∧
      (job.CreatesBuild os t ctx → t.find (buildDir ctx job.name n) = none ∧
        t'.find (buildDir ctx job.name n) = some .directory ∧
        nextBuildNumber t' (jobPath ctx job.name) = n + 1) ∧
      ∀ reader before, loadJob P reader t ctx job.name = .ok before →
        ∃ after, loadJob P reader t' ctx job.name = .ok after ∧
          (¬job.CreatesBuild os t ctx → after.builds = before.builds) ∧
          (job.CreatesBuild os t ctx →
            (∀ s m, m ≠ n → (after.builds.get s).find m = (before.builds.get s).find m) ∧
            ∃ status, after.builds.Only status n (buildDir ctx job.name n) ∧
              (job.config.script ≠ "exitcode.txt".toList → status = .pending)) := by
  obtain ⟨hError, hJob⟩ := prepareBuild_failed h
  have hSame := prepareBuild_sameOutside P os job t ctx session params
  have hKept : t.pathExists (buildDir ctx job.name (nextBuildNumber t (jobPath ctx job.name))) = true →
      (job.prepareBuild P os t ctx session params).1.find
          (buildDir ctx job.name (nextBuildNumber t (jobPath ctx job.name))) =
        t.find (buildDir ctx job.name (nextBuildNumber t (jobPath ctx job.name))) :=
    prepareBuildWith_kept P os os.copy_lawful job t ctx session params
  have hNothing : ¬job.CreatesBuild os t ctx → ∀ reader : Os,
      loadBuilds reader t' (jobPath ctx job.name) = loadBuilds reader t (jobPath ctx job.name) ∧
      nextBuildNumber t' (jobPath ctx job.name) = n := by
    intro hNot reader
    have hSameBuilds := prepareBuild_not_creates hNot P session params reader
    rw [h, ← hNumber] at hSameBuilds
    exact hSameBuilds
  have hNew := fun hMade : job.CreatesBuild os t ctx =>
    prepareBuild_creates hTree hMade P session params hNumber
  rw [h] at hNew
  rw [h, ← hNumber] at hSame hKept
  refine ⟨hError, hJob, hSame, fun hNot => (hNothing hNot os).2, fun hMade => ?_, ?_⟩
  · obtain ⟨hAbsent, hDir, hNext, _⟩ := hNew hMade
    exact ⟨hAbsent, hDir, hNext⟩
  · intro reader before hBefore
    obtain ⟨after, hAfter⟩ := loadJob_frame hSame hKept hBefore
    obtain ⟨_, _, _, _, _, _, _, _, hBuildsBefore⟩ := loadJob_eq_ok hBefore
    obtain ⟨_, _, _, _, _, _, _, _, hBuildsAfter⟩ := loadJob_eq_ok hAfter
    refine ⟨after, hAfter, fun hNot => ?_, fun hMade => ⟨fun s m hne => ?_, ?_⟩⟩
    · rw [hBuildsAfter, (hNothing hNot reader).1, hBuildsBefore]
    · rw [hBuildsAfter, hBuildsBefore]
      exact find_loadBuilds_frame hne hSame reader s
    · obtain ⟨_, _, _, hListed⟩ := hNew hMade
      rw [hBuildsAfter]
      exact hListed reader

def uncopyingOs : Os := { Os.ideal ∅ with copyFault := fun _ _ => some (.other 5) }

theorem failed_prepare_leaves_first :
    ∃ t', (⟨"j", ⟨"s", 1, 1, []⟩, ⟨∅, ∅, ∅⟩⟩ : Job).prepareBuild .reference uncopyingOs
        (demoTree "1" []) demoContext ⟨"s", true⟩ [] =
          (t', ⟨"j", ⟨"s", 1, 1, []⟩, ⟨∅, ∅, ∅⟩⟩, none, some (.system (.other 5))) ∧
      t'.find (buildDir demoContext "j" 0) = some .directory ∧
      nextBuildNumber t' (jobPath demoContext "j") = 1 := by
  have hFails : (⟨"j", ⟨"s", 1, 1, []⟩, ⟨∅, ∅, ∅⟩⟩ : Job).prepareBuild .reference uncopyingOs
    (demoTree "1" []) demoContext ⟨"s", true⟩ [] = (_, _, none, _) := rfl
  obtain ⟨_, _, _, _, hCreates, _⟩ := failed_prepare_leaves demoTree_wellFormed hFails (n := 0) rfl
  exact ⟨_, hFails, (hCreates ⟨rfl, by decide⟩).2⟩

/-- The build that was not prepared is pending for whoever loads the job next. -/
theorem failed_prepare_listed :
    ∃ job t' later, loadJob .reference (.ideal ∅) (demoTree "1" []) demoContext "j" = .ok job ∧
      job.prepareBuild .reference uncopyingOs (demoTree "1" []) demoContext ⟨"s", true⟩ [] =
        (t', job, none, some (.system (.other 5))) ∧
      loadJob .reference (.ideal ∅) t' demoContext "j" = .ok later ∧
      job.builds.pending.find 0 = none ∧
      later.builds.pending.find 0 = some (jobPath demoContext "j" / "000000") ∧
      nextBuildNumber (demoTree "1" []) (jobPath demoContext "j") = 0 ∧
      nextBuildNumber t' (jobPath demoContext "j") = 1 :=
  ⟨_, _, _, rfl, rfl, rfl, rfl, rfl, rfl, rfl⟩

end CisCore
