import CisCore.Job.Prepare
import Mathlib.Data.Finset.Card

/-! # Cleaning a job up

The maintenance process loads the job and removes the outdated builds of either
kind, oldest first. Pending builds are never removed.
-/

namespace CisCore

section Model

variable (P : ProtoUtils) (os : Os)

def buildsToErase (size keep : Nat) : Nat := if size > keep then size - keep else 0

/-- One of the two loops. It ends at the first error. -/
def eraseOldest : Nat → FileTree → SortedMap Nat FsPath → FileTree × SortedMap Nat FsPath × Ec
  | 0, t, builds => (t, builds, none)
  | count + 1, t, builds =>
    match builds.entries.head? with
    | none => (t, builds, none)
    | some (_, dir) =>
      match os.removeAll t dir with
      | (t, some e) => (t, builds, some e)
      | (t, none) => eraseOldest count t (builds.dropLeast 1)

def Job.cleanup (job : Job) (t : FileTree) : FileTree × Job × Ec :=
  let ⟨successful, broken, pending⟩ := job.builds
  match eraseOldest os (buildsToErase successful.size job.config.keepSuccessfulBuilds) t
    successful with
  | (t, successful, some e) => (t, { job with builds := ⟨successful, broken, pending⟩ }, some e)
  | (t, successful, none) =>
    match eraseOldest os (buildsToErase broken.size job.config.keepBrokenBuilds) t broken with
    | (t, broken, ec) => (t, { job with builds := ⟨successful, broken, pending⟩ }, ec)

/-- `main` behind its usage checks. -/
def maintenanceMain (t : FileTree) (ctx : Context) (jobName : Str) : FileTree × List Str × Nat :=
  match loadJob P os t ctx jobName with
  | .error e => (t, [message os.strerror (fail e)], 1)
  | .ok job =>
    match job.cleanup os t with
    | (t, _, some e) => (t, [message os.strerror (some e)], 1)
    | (t, _, none) => (t, [], 0)

/-- The directories that one loop removes, in its order. -/
def outdated (builds : SortedMap Nat FsPath) (keep : Nat) : List FsPath :=
  (builds.entries.take (builds.size - keep)).map Prod.snd

def Job.outdated (job : Job) : List FsPath :=
  CisCore.outdated job.builds.successful job.config.keepSuccessfulBuilds ++
    CisCore.outdated job.builds.broken job.config.keepBrokenBuilds

def removeDirs : FileTree → List FsPath → FileTree × Ec
  | t, [] => (t, none)
  | t, dir :: dirs =>
    match os.removeAll t dir with
    | (t, some e) => (t, some e)
    | (t, none) => removeDirs t dirs

end Model

variable {P : ProtoUtils} {os : Os}

theorem buildsToErase_eq (size keep : Nat) : buildsToErase size keep = size - keep := by
  rw [buildsToErase]
  split_ifs with h
  · rfl
  · omega

theorem removeDirs_append (t : FileTree) (dirs dirs' : List FsPath) :
    removeDirs os t (dirs ++ dirs') =
      match removeDirs os t dirs with
      | (t, some e) => (t, some e)
      | (t, none) => removeDirs os t dirs' := by
  induction dirs generalizing t with
  | nil => rfl
  | cons dir dirs ih =>
    simp only [List.cons_append, removeDirs]
    obtain ⟨t', _ | e⟩ := os.removeAll t dir
    · exact ih t'
    · rfl

theorem eraseOldest_eq_removeDirs (os : Os) (count : Nat) (t : FileTree)
    (builds : SortedMap Nat FsPath) :
    ((eraseOldest os count t builds).1, (eraseOldest os count t builds).2.2) =
      removeDirs os t ((builds.entries.take count).map Prod.snd) := by
  induction count generalizing t builds with
  | zero => rfl
  | succ count ih =>
    rw [eraseOldest]
    cases hEntries : builds.entries with
    | nil => rfl
    | cons entry entries =>
      simp only [List.head?_cons, List.take_succ_cons, List.map_cons, removeDirs]
      obtain ⟨t', _ | e⟩ := os.removeAll t entry.2
      · have hRest := ih t' (builds.dropLeast 1)
        rw [SortedMap.entries_dropLeast_one hEntries] at hRest
        exact hRest
      · rfl

theorem cleanup_eq_removeDirs (os : Os) (job : Job) (t : FileTree) :
    ((job.cleanup os t).1, (job.cleanup os t).2.2) = removeDirs os t job.outdated := by
  obtain ⟨name, config, ⟨successful, broken, pending⟩⟩ := job
  have hSuccessful := eraseOldest_eq_removeDirs os
    (buildsToErase successful.size config.keepSuccessfulBuilds) t successful
  simp only [Job.cleanup, Job.outdated, removeDirs_append]
  rw [buildsToErase_eq] at hSuccessful ⊢
  rw [outdated, ← hSuccessful]
  rcases eraseOldest os (successful.size - config.keepSuccessfulBuilds) t successful with
    ⟨t', successful', _ | e⟩
  · have hBroken := eraseOldest_eq_removeDirs os
      (buildsToErase broken.size config.keepBrokenBuilds) t' broken
    rw [buildsToErase_eq] at hBroken ⊢
    exact hBroken
  · rfl

theorem removeDirs_clear {t t' : FileTree} {dirs : List FsPath}
    (h : removeDirs os t dirs = (t', none)) :
    t' = dirs.foldl FileTree.removeAll t := by
  induction dirs generalizing t with
  | nil =>
    cases h
    rfl
  | cons dir dirs ih =>
    simp only [removeDirs] at h
    rcases hRemove : os.removeAll t dir with ⟨t₁, _ | e⟩
    · rw [hRemove] at h
      have hClear : os.removeAll t dir = (t.removeAll dir, none) :=
        Os.removeAll_clear (by rw [hRemove])
      rw [hRemove] at hClear
      cases hClear
      exact ih h
    · rw [hRemove] at h
      cases h

theorem find_foldl_removeAll (dirs : List FsPath) (t : FileTree) (q : FsPath) :
    (dirs.foldl FileTree.removeAll t).find q =
      if ∃ dir ∈ dirs, dir <:+ q then none else t.find q := by
  induction dirs generalizing t with
  | nil => simp
  | cons dir dirs ih =>
    rw [List.foldl_cons, ih, FileTree.find_removeAll]
    by_cases hDir : dir <:+ q
    · simp [hDir]
    · simp [hDir]

theorem maintenanceMain_success {t t' : FileTree} {ctx : Context} {jobName : Str}
    {stdout : List Str} (h : maintenanceMain P os t ctx jobName = (t', stdout, 0)) :
    ∃ job, loadJob P os t ctx jobName = .ok job ∧ t' = job.outdated.foldl FileTree.removeAll t := by
  rw [maintenanceMain] at h
  split at h
  · cases h
  rename_i job hLoad
  have hDirs := cleanup_eq_removeDirs os job t
  split at h
  · cases h
  rename_i t₁ job' hCleanup
  cases h
  rw [hCleanup] at hDirs
  exact ⟨job, hLoad, removeDirs_clear hDirs.symm⟩

theorem mem_outdated_iff {builds : SortedMap Nat FsPath} {keep : Nat} {dir : FsPath} :
    dir ∈ outdated builds keep ↔ ∃ n, builds.find n = some dir ∧
      keep ≤ (builds.keys.filter fun m => n < m).length := by
  rw [outdated, List.mem_map]
  constructor
  · rintro ⟨⟨n, d⟩, hTake, rfl⟩
    obtain ⟨hMem, hKeep⟩ := SortedMap.mem_take_entries_iff.mp hTake
    exact ⟨n, SortedMap.find_eq_some_iff.mpr hMem, hKeep⟩
  · rintro ⟨n, hFind, hKeep⟩
    exact ⟨(n, dir), SortedMap.mem_take_entries_iff.mpr
      ⟨SortedMap.find_eq_some_iff.mp hFind, hKeep⟩, rfl⟩

/-! ### Maintenance that may fail -/

/-- A removal removes nothing else, and what it leaves is as it was. -/
theorem removeDirs_find (os : Os) (t : FileTree) (dirs : List FsPath) (q : FsPath) :
    (removeDirs os t dirs).1.find q = t.find q ∨
      (∃ dir ∈ dirs, dir <:+ q) ∧ (removeDirs os t dirs).1.find q = none := by
  induction dirs generalizing t with
  | nil => exact Or.inl rfl
  | cons dir dirs ih =>
    have hOne : (os.removeAll t dir).1.find q = t.find q ∨
        dir <:+ q ∧ (os.removeAll t dir).1.find q = none := by
      rw [Os.removeAll]
      split
      · rename_i e survives hFault
        rw [SortedMap.find_filterKeys]
        by_cases hBelow : dir <:+ q
        · cases survives q with
          | true => exact Or.inl (by simp)
          | false => exact Or.inr ⟨hBelow, by simp [hBelow]⟩
        · exact Or.inl (by simp [hBelow])
      · rw [FileTree.find_removeAll]
        split_ifs with hBelow
        · exact Or.inr ⟨hBelow, rfl⟩
        · exact Or.inl rfl
    simp only [removeDirs]
    rcases hRemove : os.removeAll t dir with ⟨t₁, _ | e⟩
    · rw [hRemove] at hOne
      obtain hSame | ⟨⟨dir', hDir', hBelow⟩, hNone⟩ := ih t₁
      · obtain hFirst | ⟨hBelow, hNone⟩ := hOne
        · exact Or.inl (hSame.trans hFirst)
        · exact Or.inr ⟨⟨dir, List.mem_cons_self, hBelow⟩, hSame.trans hNone⟩
      · exact Or.inr ⟨⟨dir', List.mem_cons_of_mem dir hDir', hBelow⟩, hNone⟩
    · rw [hRemove] at hOne
      exact hOne.imp_right fun h => ⟨⟨dir, List.mem_cons_self, h.1⟩, h.2⟩

theorem maintenanceMain_find (P : ProtoUtils) (os : Os) (t : FileTree) (ctx : Context)
    (jobName : Str) (q : FsPath) :
    (maintenanceMain P os t ctx jobName).1.find q = t.find q ∨
      ∃ job, loadJob P os t ctx jobName = .ok job ∧ (∃ dir ∈ job.outdated, dir <:+ q) ∧
        (maintenanceMain P os t ctx jobName).1.find q = none := by
  rw [maintenanceMain]
  split
  · exact Or.inl rfl
  rename_i job hLoad
  have hTree : (removeDirs os t job.outdated).1 = (job.cleanup os t).1 := by
    rw [← cleanup_eq_removeDirs]
  have hFind := removeDirs_find os t job.outdated q
  rw [hTree] at hFind
  split
  · rename_i t' job' e hCleanup
    rw [hCleanup] at hFind
    exact hFind.imp_right fun h => ⟨job, hLoad, h.1, h.2⟩
  · rename_i t' job' hCleanup
    rw [hCleanup] at hFind
    exact hFind.imp_right fun h => ⟨job, hLoad, h.1, h.2⟩

theorem removeDirs_atomic (hAtomic : os.AtomicRemoval) (t : FileTree) (dirs : List FsPath) :
    ∃ removed, removed <+: dirs ∧ (removeDirs os t dirs).1 = removed.foldl FileTree.removeAll t := by
  induction dirs generalizing t with
  | nil => exact ⟨[], List.prefix_rfl, rfl⟩
  | cons dir dirs ih =>
    simp only [removeDirs]
    obtain hRemove | ⟨e, hRemove⟩ := Os.removeAll_atomic hAtomic t dir
    · obtain ⟨removed, hPrefix, hTree⟩ := ih (t.removeAll dir)
      rw [hRemove]
      exact ⟨dir :: removed, List.cons_prefix_cons.mpr ⟨rfl, hPrefix⟩, hTree⟩
    · rw [hRemove]
      exact ⟨[], List.nil_prefix, rfl⟩

theorem outdated_found {t : FileTree} {ctx : Context} {jobName : Str} {job : Job}
    (hLoad : loadJob P os t ctx jobName = .ok job) {dir : FsPath} (h : dir ∈ job.outdated) :
    ∃ status n, status ≠ .pending ∧ n < 1000000 ∧ dir = buildDir ctx jobName n ∧
      t.pathExists dir = true ∧ buildStatus os t dir = status := by
  obtain ⟨_, _, _, _, _, _, _, _, hBuilds⟩ := loadJob_eq_ok hLoad
  have hKind : ∀ status keep, status ≠ .pending →
      dir ∈ CisCore.outdated (job.builds.get status) keep →
      ∃ status n, status ≠ .pending ∧ n < 1000000 ∧ dir = buildDir ctx jobName n ∧
        t.pathExists dir = true ∧ buildStatus os t dir = status := by
    intro status keep hStatus hMem
    obtain ⟨n, hFind, _⟩ := mem_outdated_iff.mp hMem
    rw [hBuilds, find_loadBuilds] at hFind
    exact ⟨status, n, hStatus, hFind⟩
  obtain h | h := List.mem_append.mp h
  · exact hKind .successful _ (by simp) h
  · exact hKind .broken _ (by simp) h

theorem outdated_number {t : FileTree} {ctx : Context} {jobName : Str} {job : Job}
    (hLoad : loadJob P os t ctx jobName = .ok job) {dir : FsPath} (h : dir ∈ job.outdated) :
    ∃ n < 1000000, dir = buildDir ctx jobName n := by
  obtain ⟨_, n, _, hLt, hDir, _⟩ := outdated_found hLoad h
  exact ⟨n, hLt, hDir⟩

theorem outdated_not_pending {t : FileTree} {ctx : Context} {jobName : Str} {job : Job}
    (hLoad : loadJob P os t ctx jobName = .ok job) {dir : FsPath} (h : dir ∈ job.outdated) :
    recordedStatus t dir ≠ .pending := by
  obtain ⟨status, _, hStatus, _, _, _, hSeen⟩ := outdated_found hLoad h
  rw [recordedStatus_of_seen hStatus hSeen]
  exact hStatus

theorem outdated_buildDir {t : FileTree} {ctx : Context} {jobName : Str} {job : Job}
    (hLoad : loadJob P os t ctx jobName = .ok job) {dir : FsPath} (h : dir ∈ job.outdated) :
    ∃ n, dir = buildDir ctx jobName n := by
  obtain ⟨n, _, hDir⟩ := outdated_number hLoad h
  exact ⟨n, hDir⟩

theorem maintenanceMain_tree (P : ProtoUtils) (hAtomic : os.AtomicRemoval) (t : FileTree)
    (ctx : Context) (jobName : Str) :
    ∃ dirs : List FsPath, (∀ dir ∈ dirs, ∃ n, dir = buildDir ctx jobName n) ∧
      (maintenanceMain P os t ctx jobName).1 = dirs.foldl FileTree.removeAll t := by
  rw [maintenanceMain]
  split
  · exact ⟨[], by simp, rfl⟩
  rename_i job hLoad
  obtain ⟨removed, hPrefix, hTree⟩ := removeDirs_atomic hAtomic t job.outdated
  rw [← cleanup_eq_removeDirs] at hTree
  refine ⟨removed, fun dir hDir => outdated_buildDir hLoad (hPrefix.subset hDir), ?_⟩
  rw [← hTree]
  split
  · rename_i t' job' e hCleanup
    rw [hCleanup]
  · rename_i t' job' hCleanup
    rw [hCleanup]

theorem find_of_survivor {ctx : Context} {jobName : Str} {t : FileTree} {dirs : List FsPath} {n : Nat}
    (hDirs : ∀ dir ∈ dirs, ∃ m, dir = buildDir ctx jobName m)
    (hExists : (dirs.foldl FileTree.removeAll t).pathExists (buildDir ctx jobName n) = true) :
    ∀ q, buildDir ctx jobName n <:+ q → (dirs.foldl FileTree.removeAll t).find q = t.find q := by
  intro q hq
  rw [FileTree.pathExists, find_foldl_removeAll] at hExists
  split_ifs at hExists with hRemoved
  · cases hExists
  rw [find_foldl_removeAll, if_neg]
  rintro ⟨dir, hDir, hBelow⟩
  obtain ⟨m, rfl⟩ := hDirs dir hDir
  obtain rfl | hne := eq_or_ne m n
  · exact hRemoved ⟨_, hDir, List.suffix_rfl⟩
  · exact buildDir_disjoint hne hBelow hq

/-! ### Builds by their status -/

section Numbers

variable (ctx : Context) (jobName : Str)

/-- The entries of the job directory that have a build's name. -/
def buildNumbers (t : FileTree) : Finset Nat :=
  (((t.children (jobPath ctx jobName)).filter fun entry => isBuild entry.1).map
    fun entry => buildNumber entry.1).toFinset

def numbersWith (status : BuildStatus) (t : FileTree) : Finset Nat :=
  (buildNumbers ctx jobName t).filter fun n =>
    recordedStatus t (buildDir ctx jobName n) = status

end Numbers

section Numbers

variable {ctx : Context} {jobName : Str}

theorem mem_buildNumbers {t : FileTree} {n : Nat} :
    n ∈ buildNumbers ctx jobName t ↔
      n < 1000000 ∧ t.pathExists (buildDir ctx jobName n) = true := by
  rw [buildNumbers, List.mem_toFinset, List.mem_map, FileTree.pathExists,
    Option.isSome_iff_exists]
  constructor
  · rintro ⟨⟨name, node⟩, hEntry, hNumber⟩
    obtain ⟨hMem, hBuild⟩ := List.mem_filter.mp hEntry
    obtain ⟨hLt, hName⟩ := isBuild_and_number_iff.mp ⟨hBuild, hNumber⟩
    simp only at hName
    subst hName
    exact ⟨hLt, node, FileTree.mem_children_iff.mp hMem⟩
  · rintro ⟨hLt, node, hNode⟩
    exact ⟨(numberString n, node), List.mem_filter.mpr
      ⟨FileTree.mem_children_iff.mpr hNode, isBuild_numberString hLt⟩, buildNumber_numberString hLt⟩

theorem mem_numbersWith {t : FileTree} {status : BuildStatus} {n : Nat} :
    n ∈ numbersWith ctx jobName status t ↔
      (n < 1000000 ∧ t.pathExists (buildDir ctx jobName n) = true) ∧
        recordedStatus t (buildDir ctx jobName n) = status := by
  rw [numbersWith, Finset.mem_filter, mem_buildNumbers]

theorem mem_numbersWith_congr {t t' : FileTree} {status : BuildStatus} {n : Nat}
    (h : ∀ q, buildDir ctx jobName n <:+ q → t'.find q = t.find q) :
    n ∈ numbersWith ctx jobName status t' ↔ n ∈ numbersWith ctx jobName status t := by
  have hText := FileTree.content_congr (h _ (FileTree.suffix_child _ "exitcode.txt".toList))
  rw [mem_numbersWith, mem_numbersWith, FileTree.pathExists, FileTree.pathExists,
    h _ List.suffix_rfl, recordedStatus, recordedStatus]
  rw [FileTree.div_string, ← FileTree.div_str, hText]

end Numbers

end CisCore
