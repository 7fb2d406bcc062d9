import CisCore.Job.Cleanup
import CisCore.Job.Execute
import CisCore.Library.Transition

/-! # Numbers that are not used again

The next number is computed from what is on disk, so it is new as long as the
largest numbered directory stays. Maintenance takes that one only when its kind
of builds is to be kept in no number at all. Processes hold job objects that they
have loaded at some time before.
-/

namespace CisCore

open Transition

/-- The tree, the job objects of the processes, and the numbers of the builds in
the order in which they were prepared. -/
structure Numbering (ι : Type) where
  tree : FileTree
  jobs : ι → Option Job
  prepared : List Nat

inductive NumberingEvent (ι : Type) where
  | load (i : ι) (os : Os)
  | prepare (i : ι) (os : Os) (session : Session) (params : List (Str × Str))
  | execute (i : ι) (os : Os) (number : Nat) (env : SortedMap Str Str) (force : Bool)
      (script : Launch → ScriptRun)
  | maintenance (os : Os)

section Model

variable (P : ProtoUtils) (ctx : Context) (jobName : Str) {ι : Type} [DecidableEq ι]

def Numbering.start (t : FileTree) : Numbering ι := ⟨t, fun _ => none, []⟩

def Numbering.step (s : Numbering ι) : NumberingEvent ι → Option (Numbering ι)
  | .load i os =>
    match loadJob P os s.tree ctx jobName with
    | .error _ => some s
    | .ok job => some { s with jobs := Function.update s.jobs i (some job) }
  | .prepare i os session params =>
    (s.jobs i).map fun job =>
      match job.prepareBuild P os s.tree ctx session params with
      | (t, job, handle, _) =>
        ⟨t, Function.update s.jobs i (some job), s.prepared ++ handle.toList⟩
  | .execute i os number env force script =>
    match s.jobs i with
    | none => none
    | some job =>
      if (job.builds.pending.find number).isSome then
        let run := job.execute os s.tree env number force script (-1)
        some { s with tree := run.tree, jobs := Function.update s.jobs i (some run.job) }
      else none
  | .maintenance os => some { s with tree := (maintenanceMain P os s.tree ctx jobName).1 }

/-- Maintenance does not take the largest numbered directory. -/
def Numbering.HighestKept (s : Numbering ι) : NumberingEvent ι → Prop
  | .maintenance os => ∀ job, loadJob P os s.tree ctx jobName = .ok job → ∀ n,
      nextBuildNumber s.tree (jobPath ctx jobName) = n + 1 →
      buildDir ctx jobName n ∉ job.outdated
  | _ => True

/-- A regular file with a build's name has no exit code file below it. -/
def NoStatusBelowFiles (t : FileTree) : Prop :=
  ∀ n text executable, t.find (buildDir ctx jobName n) = some (.file text executable) →
    t.find (buildDir ctx jobName n / "exitcode.txt") = none

end Model

variable {P : ProtoUtils} {ctx : Context} {jobName script : Str} {ks kb : Nat} {ι : Type}

structure Loaded (ctx : Context) (jobName script : Str) (job : Job) : Prop where
  name : job.name = jobName
  script : job.config.script = script
  placed : job.Placed ctx

/-- Every prepared number lies below the next one. The only exception is the
first number with seven digits, whose directory is never counted; a second build
cannot get it since the script is there already. -/
structure Numbering.Inv (P : ProtoUtils) (ctx : Context) (jobName script : Str) (ks kb : Nat)
    (s : Numbering ι) : Prop where
  configured : Configured P s.tree ctx jobName script ks kb
  jobs : ∀ i job, s.jobs i = some job → Loaded ctx jobName script job
  files : NoStatusBelowFiles ctx jobName s.tree
  below : ∀ n ∈ s.prepared, n < nextBuildNumber s.tree (jobPath ctx jobName) ∨
    n = 1000000 ∧ nextBuildNumber s.tree (jobPath ctx jobName) = 1000000 ∧
      s.tree.pathExists (buildDir ctx jobName n / script) = true
  increasing : s.prepared.Pairwise (· < ·)

/-! ### Jobs in memory -/

theorem Loaded.of_loadJob {os : Os} {t : FileTree} {job : Job}
    (hConf : Configured P t ctx jobName script ks kb)
    (h : loadJob P os t ctx jobName = .ok job) : Loaded ctx jobName script job :=
  ⟨loadJob_name h, (hConf.of_loadJob h).1, loadJob_placed h⟩

theorem Loaded.prepareBuild {job : Job} (h : Loaded ctx jobName script job) (P : ProtoUtils)
    (os : Os) (t : FileTree) (session : Session) (params : List (Str × Str)) :
    Loaded ctx jobName script (job.prepareBuild P os t ctx session params).2.1 := by
  simp only [Job.prepareBuild, Job.prepareBuildWith]
  split
  · exact h
  split
  · exact h
  refine ⟨h.name, h.script, ?_⟩
  intro status n p hFind
  cases status with
  | successful => exact h.placed .successful n p hFind
  | broken => exact h.placed .broken n p hFind
  | pending =>
    simp only [Builds.get, SortedMap.find_emplace] at hFind
    split_ifs at hFind with hn
    · subst hn
      cases hOld : job.builds.pending.find (nextBuildNumber t (jobPath ctx job.name)) with
      | none =>
        rw [hOld] at hFind
        exact (Option.some.inj hFind).symm
      | some q =>
        rw [hOld] at hFind
        exact (Option.some.inj hFind).symm.trans (h.placed .pending _ q hOld)
    · exact h.placed .pending n p hFind

theorem Job.Placed.settle {job : Job} (h : job.Placed ctx) (number : Nat) (exitCode : Int32) :
    (job.settle number exitCode).Placed ctx := by
  rw [Job.settle]
  cases hDir : job.builds.pending.find number with
  | none => exact h
  | some dir =>
    have hPending : ∀ n p, (job.builds.pending.erase number).find n = some p →
        p = buildDir ctx job.name n := by
      intro n p hFind
      rw [SortedMap.find_erase] at hFind
      split_ifs at hFind
      exact h .pending n p hFind
    have hMoved : ∀ status n p,
        ((job.builds.get status).emplace number dir).find n = some p →
        p = buildDir ctx job.name n := by
      intro status n p hFind
      rw [SortedMap.find_emplace] at hFind
      split_ifs at hFind with hn
      · subst hn
        cases hOld : (job.builds.get status).find n with
        | none =>
          rw [hOld] at hFind
          exact (Option.some.inj hFind).symm.trans (h .pending n dir hDir)
        | some q =>
          rw [hOld] at hFind
          exact (Option.some.inj hFind).symm.trans (h status n q hOld)
      · exact h status n p hFind
    simp only
    split_ifs
    · intro status n p hFind
      cases status with
      | successful => exact hMoved .successful n p hFind
      | broken => exact h .broken n p hFind
      | pending => exact hPending n p hFind
    · intro status n p hFind
      cases status with
      | successful => exact h .successful n p hFind
      | broken => exact hMoved .broken n p hFind
      | pending => exact hPending n p hFind

theorem execute_job_cases (os : Os) (job : Job) (t : FileTree) (env : SortedMap Str Str)
    (number : Nat) (force : Bool) (script : Launch → ScriptRun) (exitCode : Int32) :
    (job.execute os t env number force script exitCode).job = job ∨
      ∃ e, (job.execute os t env number force script exitCode).job = job.settle number e := by
  simp only [Job.execute]
  split
  · exact Or.inl rfl
  split
  · exact Or.inl rfl
  · exact Or.inr ⟨_, rfl⟩

theorem Job.settle_name (job : Job) (number : Nat) (exitCode : Int32) :
    (job.settle number exitCode).name = job.name ∧
      (job.settle number exitCode).config = job.config := by
  rw [settle]
  split
  · exact ⟨rfl, rfl⟩
  · dsimp only
    split_ifs <;> exact ⟨rfl, rfl⟩

theorem Loaded.execute {job : Job} (h : Loaded ctx jobName script job) (os : Os) (t : FileTree)
    (env : SortedMap Str Str) (number : Nat) (force : Bool) (run : Launch → ScriptRun)
    (exitCode : Int32) :
    Loaded ctx jobName script (job.execute os t env number force run exitCode).job := by
  obtain hSame | ⟨e, hSettled⟩ := execute_job_cases os job t env number force run exitCode
  · rw [hSame]
    exact h
  · rw [hSettled]
    obtain ⟨hName, hConfig⟩ := job.settle_name number e
    exact ⟨hName.trans h.name, hConfig ▸ h.script, h.placed.settle number e⟩

/-! ### Files with a build's name -/

theorem NoStatusBelowFiles.of_same {t t' : FileTree} (h : NoStatusBelowFiles ctx jobName t) {m : Nat}
    (hSame : ∀ n, n ≠ m → ∀ q, buildDir ctx jobName n <:+ q → t'.find q = t.find q)
    (hOwn : ∀ text executable, t'.find (buildDir ctx jobName m) = some (.file text executable) →
      t'.find (buildDir ctx jobName m / "exitcode.txt") = none) :
    NoStatusBelowFiles ctx jobName t' := by
  intro n text executable hFile
  obtain rfl | hne := eq_or_ne n m
  · exact hOwn text executable hFile
  · rw [hSame n hne _ List.suffix_rfl] at hFile
    exact (hSame n hne _ (FileTree.suffix_child _ _)).trans (h n text executable hFile)

theorem NoStatusBelowFiles.prepareBuild {t : FileTree} {job : Job}
    (h : NoStatusBelowFiles ctx job.name t) (P : ProtoUtils) (os : Os) (session : Session)
    (params : List (Str × Str)) :
    NoStatusBelowFiles ctx job.name (job.prepareBuild P os t ctx session params).1 := by
  have hFrame := prepareBuild_sameOutside P os job t ctx session params
  refine h.of_same (m := nextBuildNumber t (jobPath ctx job.name))
    (fun n hne q hq => hFrame q (buildDir_disjoint hne hq)) ?_
  intro text executable hFile
  simp only [Job.prepareBuild, Job.prepareBuildWith] at hFile ⊢
  split at hFile
  · rename_i made t₁ e hCreate
    have hSame : t₁ = t := by
      obtain ⟨_, _, hMake⟩ | ⟨hMake, _⟩ | ⟨hMake, _⟩ := os.createDirectory_cases t
        (buildDir ctx job.name (nextBuildNumber t (jobPath ctx job.name)))
      · rw [hMake] at hCreate
        cases hCreate
        rfl
      · rw [hMake] at hCreate
        cases hCreate
      · rw [hMake] at hCreate
        cases hCreate
    subst hSame
    exact h _ text executable hFile
  · rename_i made t₁ hCreate
    have hDir := (Os.createDirectory_clear hCreate).1
    have hFill := fillBuildDir_sameOutside P os os.copy_lawful job t₁ ctx session params
      (nextBuildNumber t (jobPath ctx job.name))
    have hStill := (hFill _ fun hInside => hInside.2 rfl).trans hDir
    split at hFile
    · rename_i t₂ e hFilled
      rw [hFilled] at hStill
      rw [hStill] at hFile
      cases hFile
    · rename_i t₂ hFilled
      rw [hFilled] at hStill
      rw [hStill] at hFile
      cases hFile

/-- A regular file without an exit code file below it. -/
def StatusFree (t : FileTree) (dir : FsPath) : Prop :=
  (∃ text executable, t.find dir = some (.file text executable)) ∧
    t.find (dir / "exitcode.txt") = none

theorem StatusFree.write {t : FileTree} {dir : FsPath} (h : StatusFree t dir) (name : Str)
    (hName : name ≠ "exitcode.txt".toList) (text : Str) : StatusFree (t.write (dir / name) text) dir := by
  obtain ⟨⟨old, executable, hFile⟩, hNone⟩ := h
  refine ⟨⟨old, executable, ?_⟩, ?_⟩
  · rw [FileTree.find_write_of_ne text (FileTree.inside_child dir name).2.symm]
    exact hFile
  · rw [FileTree.find_write_of_ne text (by simpa using hName.symm)]
    exact hNone

theorem StatusFree.ensureExecutable {t : FileTree} {dir : FsPath} (h : StatusFree t dir) (os : Os)
    (script : Str) (force : Bool) :
    StatusFree (ensureExecutable os t (dir / script) force).1 dir := by
  rw [CisCore.ensureExecutable]
  split
  · exact h
  · exact h
  cases force with
  | false => exact h
  | true =>
    rw [if_pos rfl]
    obtain ⟨_, hMake⟩ | ⟨hMake, _⟩ | ⟨text, executable, hFind, hMake⟩ :=
      os.makeExecutable_cases t (dir / script)
    · rw [hMake]
      exact h
    · rw [hMake]
      exact h
    · rw [hMake]
      obtain ⟨⟨old, executable', hFile⟩, hNone⟩ := h
      refine ⟨⟨old, executable', ?_⟩, ?_⟩
      · exact (SortedMap.find_insert_of_ne t _ (FileTree.inside_child dir script).2.symm).trans hFile
      · refine (SortedMap.find_insert_of_ne t _ fun hEq => ?_).trans hNone
        rw [hEq, hFind] at hNone
        cases hNone

/-- The parent of the exit code file is no directory, so the file cannot be made. -/
theorem StatusFree.onExit {t : FileTree} {dir : FsPath} (h : StatusFree t dir) (os : Os)
    (exitCode : Int32) (status : Option Int32) : (onExit os t dir exitCode status).1 = t := by
  obtain ⟨⟨text, executable, hFile⟩, hNone⟩ := h
  have hParent : t.isDirectory (dir / "exitcode.txt").tail = false := by
    simp [FileTree.isDirectory, hFile]
  cases status with
  | none => rfl
  | some e =>
    rw [CisCore.onExit, recordExitcode, Os.writeFile_no_directory hNone hParent]

theorem StatusFree.execute {job : Job} {t : FileTree} {number : Nat} {dir : FsPath}
    (h : StatusFree t dir) (hDir : job.builds.pending.find number = some dir) (os : Os)
    (env : SortedMap Str Str) (force : Bool) (run : Launch → ScriptRun) (exitCode : Int32) :
    StatusFree (job.execute os t env number force run exitCode).tree dir := by
  have hEnsure := h.ensureExecutable os job.config.script force
  simp only [Job.execute, hDir, Option.getD_some]
  split
  · rename_i t₁ e hScript
    rw [hScript] at hEnsure
    exact hEnsure
  rename_i t₁ hScript
  rw [hScript] at hEnsure
  split
  · exact hEnsure
  rename_i t₂ hOpen
  obtain rfl := Os.openOfstream_eq_some hOpen
  rw [FileTree.overwrite_write_nil]
  generalize run ⟨env, dir, t₁.write (dir / "output.txt") []⟩ = r
  have hOutput : StatusFree (t₁.write (dir / "output.txt") (outputText r.output)) dir :=
    hEnsure.write "output.txt".toList (by decide) (outputText r.output)
  rw [hOutput.onExit]
  exact hOutput

theorem NoStatusBelowFiles.execute {job : Job} {t : FileTree}
    (h : NoStatusBelowFiles ctx job.name t) (hPlaced : job.Placed ctx) (os : Os) {number : Nat}
    (hPending : (job.builds.pending.find number).isSome) (env : SortedMap Str Str) (force : Bool)
    (run : Launch → ScriptRun) (exitCode : Int32) :
    NoStatusBelowFiles ctx job.name (job.execute os t env number force run exitCode).tree := by
  obtain ⟨dir, hDir⟩ := Option.isSome_iff_exists.mp hPending
  obtain rfl := hPlaced .pending number dir hDir
  have hFrame := execute_sameOutside os hDir t env force run exitCode
  refine h.of_same (m := number)
    (fun n hne q hq => hFrame q fun hInside => buildDir_disjoint hne hq hInside.1) ?_
  intro text executable hFile
  rw [hFrame _ fun hInside => hInside.2 rfl] at hFile
  have hFree : StatusFree t (buildDir ctx job.name number) :=
    ⟨⟨text, executable, hFile⟩, h number text executable hFile⟩
  exact (hFree.execute hDir os env force run exitCode).2

theorem NoStatusBelowFiles.maintenance {t : FileTree} (h : NoStatusBelowFiles ctx jobName t)
    (P : ProtoUtils) (os : Os) :
    NoStatusBelowFiles ctx jobName (maintenanceMain P os t ctx jobName).1 := by
  intro n text executable hFile
  have hFind := maintenanceMain_find P os t ctx jobName
  obtain hSame | ⟨_, _, _, hNone⟩ := hFind (buildDir ctx jobName n)
  · rw [hSame] at hFile
    obtain hStatus | ⟨_, _, _, hNone⟩ := hFind (buildDir ctx jobName n / "exitcode.txt")
    · exact hStatus.trans (h n text executable hFile)
    · exact hNone
  · rw [hNone] at hFile
    cases hFile

/-! ### One step -/

theorem Numbering.Inv.of_tree {s : Numbering ι} (h : s.Inv P ctx jobName script ks kb) {t : FileTree}
    {jobs : ι → Option Job} (hJobs : ∀ i job, jobs i = some job → Loaded ctx jobName script job)
    (hConf : t.find (jobPath ctx jobName / "job.conf") =
      s.tree.find (jobPath ctx jobName / "job.conf"))
    (hFiles : NoStatusBelowFiles ctx jobName t)
    (hNext : nextBuildNumber s.tree (jobPath ctx jobName) ≤ nextBuildNumber t (jobPath ctx jobName))
    (hScript : s.tree.pathExists (buildDir ctx jobName 1000000 / script) = true →
      t.pathExists (buildDir ctx jobName 1000000 / script) = true) :
    Numbering.Inv P ctx jobName script ks kb ⟨t, jobs, s.prepared⟩ where
  configured := h.configured.of_same hConf
  jobs := hJobs
  files := hFiles
  below n hn := by
    obtain hLt | ⟨rfl, hEq, hExists⟩ := h.below n hn
    · exact Or.inl (hLt.trans_le hNext)
    · refine Or.inr ⟨rfl, le_antisymm (nextBuildNumber_le t _) (hEq ▸ hNext), hScript hExists⟩
  increasing := h.increasing

theorem Numbering.Inv.prepare {s : Numbering ι} (h : s.Inv P ctx jobName script ks kb) {os : Os}
    {job job' : Job} (hLoaded : Loaded ctx jobName script job) {session : Session}
    {params : List (Str × Str)} {t : FileTree} {handle : Option Nat} {ec : Ec}
    (hPrepare : job.prepareBuild P os s.tree ctx session params = (t, job', handle, ec))
    {jobs : ι → Option Job} (hJobs : ∀ i job, jobs i = some job → Loaded ctx jobName script job) :
    Numbering.Inv P ctx jobName script ks kb ⟨t, jobs, s.prepared ++ handle.toList⟩ := by
  obtain ⟨rfl, rfl, hPlaced⟩ := hLoaded
  have hFrame := prepareBuild_sameOutside P os job s.tree ctx session params
  have hGrows := prepareBuild_grows P os job s.tree ctx session params
  have hFiles := h.files.prepareBuild P os session params
  rw [hPrepare] at hFrame hGrows hFiles
  have hNext : nextBuildNumber s.tree (jobPath ctx job.name) ≤
      nextBuildNumber t (jobPath ctx job.name) := by
    apply nextBuildNumber_mono
    intro n hn hDir
    rw [FileTree.isDirectory_iff] at hDir ⊢
    exact (hFrame _ (buildDir_disjoint (by omega) List.suffix_rfl)).trans hDir
  have hKept := h.of_tree hJobs (hFrame _ (not_buildDir_suffix_jobConf ctx job.name _)) hFiles hNext
    (hGrows _)
  cases handle with
  | none =>
    rw [Option.toList_none, List.append_nil]
    exact hKept
  | some n =>
    obtain ⟨_, _, hNumber, _, _, _, _⟩ := prepareBuild_handle hPrepare
    have hDir := (prepareBuild_files hPrepare).2.1
    obtain ⟨hAbsent, hThere⟩ := prepareBuild_script hPrepare
    have hAll : ∀ m ∈ s.prepared, m < n := by
      intro m hm
      obtain hLt | ⟨rfl, hEq, hExists⟩ := h.below m hm
      · rwa [hNumber]
      · rw [hEq] at hNumber
        rw [← hNumber, hAbsent] at hExists
        cases hExists
    refine ⟨hKept.configured, hKept.jobs, hKept.files, fun m hm => ?_, ?_⟩
    · rw [Option.toList_some, List.mem_append, List.mem_singleton] at hm
      obtain hm | rfl := hm
      · exact hKept.below m hm
      · obtain hLt | hGe := lt_or_ge m 1000000
        · exact Or.inl (lt_nextBuildNumber hLt (FileTree.isDirectory_iff.mpr hDir))
        · have hLe := nextBuildNumber_le s.tree (jobPath ctx job.name)
          have hLe' := nextBuildNumber_le t (jobPath ctx job.name)
          exact Or.inr ⟨by omega, le_antisymm hLe' (hGe.trans (hNumber.le.trans hNext)), hThere⟩
    · rw [Option.toList_some]
      refine List.pairwise_append.mpr ⟨h.increasing, List.pairwise_singleton _ n, ?_⟩
      intro m hm k hk
      rw [List.mem_singleton.mp hk]
      exact hAll m hm

theorem Numbering.Inv.execute {s : Numbering ι} (h : s.Inv P ctx jobName script ks kb) {job : Job}
    (hLoaded : Loaded ctx jobName script job) (os : Os) {number : Nat}
    (hPending : (job.builds.pending.find number).isSome) (env : SortedMap Str Str) (force : Bool)
    (run : Launch → ScriptRun) {jobs : ι → Option Job}
    (hJobs : ∀ i job, jobs i = some job → Loaded ctx jobName script job) :
    Numbering.Inv P ctx jobName script ks kb
      ⟨(job.execute os s.tree env number force run (-1)).tree, jobs, s.prepared⟩ := by
  obtain ⟨rfl, rfl, hPlaced⟩ := hLoaded
  have hFiles := h.files.execute hPlaced os hPending env force run (-1)
  obtain ⟨dir, hDir⟩ := Option.isSome_iff_exists.mp hPending
  obtain rfl := hPlaced .pending number dir hDir
  have hFrame := execute_sameOutside os hDir s.tree env force run (-1)
  refine h.of_tree hJobs (hFrame _ fun hInside => ?_) hFiles ?_
    (execute_grows os job s.tree env number force run (-1) _)
  · exact not_buildDir_suffix_jobConf ctx job.name number hInside.1
  · apply nextBuildNumber_mono
    intro n _ hDir'
    rw [FileTree.isDirectory_iff] at hDir' ⊢
    refine (hFrame _ fun hInside => ?_).trans hDir'
    obtain rfl | hne := eq_or_ne n number
    · exact hInside.2 rfl
    · exact buildDir_disjoint hne List.suffix_rfl hInside.1

theorem Numbering.Inv.maintenance {s : Numbering ι} (h : s.Inv P ctx jobName script ks kb) {os : Os}
    (hKept : s.HighestKept P ctx jobName (.maintenance os)) :
    Numbering.Inv P ctx jobName script ks kb
      ⟨(maintenanceMain P os s.tree ctx jobName).1, s.jobs, s.prepared⟩ := by
  have hSame : ∀ q, (∀ job, loadJob P os s.tree ctx jobName = .ok job → ∀ n < 1000000,
      buildDir ctx jobName n <:+ q → buildDir ctx jobName n ∉ job.outdated) →
      (maintenanceMain P os s.tree ctx jobName).1.find q = s.tree.find q := by
    intro q hq
    obtain hSame | ⟨job, hLoad, ⟨dir, hDir, hBelow⟩, _⟩ :=
      maintenanceMain_find P os s.tree ctx jobName q
    · exact hSame
    · obtain ⟨n, hLt, rfl⟩ := outdated_number hLoad hDir
      exact absurd hDir (hq job hLoad n hLt hBelow)
  refine h.of_tree h.jobs (hSame _ fun job _ n _ hBelow => ?_) (h.files.maintenance P os) ?_ ?_
  · exact absurd hBelow (not_buildDir_suffix_jobConf ctx jobName n)
  · apply nextBuildNumber_mono
    intro n hn hDir
    rw [FileTree.isDirectory_iff] at hDir ⊢
    refine (hSame (buildDir ctx jobName n) fun job hLoad m _ hBelow => ?_).trans hDir
    obtain rfl | hne := eq_or_ne m n
    · exact hKept job hLoad m hn
    · exact absurd hBelow (buildDir_disjoint hne.symm List.suffix_rfl)
  · intro hExists
    rw [FileTree.pathExists] at hExists ⊢
    rw [hSame]
    · exact hExists
    · intro job _ m hm hBelow
      exact absurd hBelow (buildDir_disjoint (by omega) (FileTree.suffix_child _ script))

section Steps

variable [DecidableEq ι]

theorem Loaded.update {jobs : ι → Option Job} {i : ι} {job : Job}
    (hJobs : ∀ i job, jobs i = some job → Loaded ctx jobName script job)
    (hJob : Loaded ctx jobName script job) :
    ∀ j job', Function.update jobs i (some job) j = some job' → Loaded ctx jobName script job' := by
  intro j job' h
  obtain rfl | hne := eq_or_ne j i
  · rw [Function.update_self] at h
    cases h
    exact hJob
  · rw [Function.update_of_ne hne] at h
    exact hJobs j job' h

theorem Numbering.Inv.step {s s' : Numbering ι} {event : NumberingEvent ι}
    (h : s.Inv P ctx jobName script ks kb) (hKept : s.HighestKept P ctx jobName event)
    (hStep : s.step P ctx jobName event = some s') : s'.Inv P ctx jobName script ks kb := by
  cases event with
  | load i os =>
    rw [Numbering.step] at hStep
    split at hStep
    · cases hStep
      exact h
    · rename_i job hLoad
      cases hStep
      exact { h with jobs := Loaded.update h.jobs (Loaded.of_loadJob h.configured hLoad) }
  | prepare i os session params =>
    obtain ⟨job, hJob, rfl⟩ := Option.map_eq_some_iff.mp hStep
    have hLoaded := h.jobs i job hJob
    have hNew := hLoaded.prepareBuild P os s.tree session params
    rcases hPrepare : job.prepareBuild P os s.tree ctx session params with ⟨t, job', handle, ec⟩
    rw [hPrepare] at hNew
    exact h.prepare hLoaded hPrepare (Loaded.update h.jobs hNew)
  | execute i os number env force run =>
    rw [Numbering.step] at hStep
    split at hStep
    · cases hStep
    · rename_i job hJob
      split_ifs at hStep with hPending
      cases hStep
      have hLoaded := h.jobs i job hJob
      exact h.execute hLoaded os hPending env force run
        (Loaded.update h.jobs (hLoaded.execute os s.tree env number force run (-1)))
  | maintenance os =>
    cases hStep
    exact h.maintenance hKept

end Steps

/-! ### Counts that keep the newest build -/

theorem buildStatus_of_no_status {os : Os} {t : FileTree} {dir : FsPath}
    (h : t.find (dir / "exitcode.txt") = none) : buildStatus os t dir = .pending := by
  have hText : os.openIfstream t (dir / "exitcode.txt") = none := by
    rw [Os.openIfstream, h]
    split <;> rfl
  rw [buildStatus, buildExitcode, hText]
  rfl

/-- A build of either kind with a larger number than the largest directory would
be a regular file, which has no status. -/
theorem Numbering.Inv.not_larger {s : Numbering ι} (h : s.Inv P ctx jobName script ks kb) {os : Os}
    {status : BuildStatus} (hStatus : status ≠ .pending) {m : Nat} {p : FsPath}
    (hFind : ((loadBuilds os s.tree (jobPath ctx jobName)).get status).find m = some p) :
    m < nextBuildNumber s.tree (jobPath ctx jobName) := by
  obtain ⟨hLt, rfl, hExists, hSeen⟩ := find_loadBuilds.mp hFind
  rw [FileTree.pathExists] at hExists
  cases hNode : s.tree.find (jobPath ctx jobName / numberString m) with
  | none =>
    rw [hNode] at hExists
    cases hExists
  | some node =>
    cases node with
    | directory => exact lt_nextBuildNumber hLt (FileTree.isDirectory_iff.mpr hNode)
    | file text executable =>
      have hNone := h.files m text executable hNode
      rw [buildDir] at hNone
      exact absurd ((buildStatus_of_no_status hNone).symm.trans hSeen) hStatus.symm

/-- With a count of at least one a build is outdated only below a larger one of
its kind. -/
theorem Numbering.Inv.highestKept {s : Numbering ι} (h : s.Inv P ctx jobName script ks kb)
    (hKs : 0 < ks) (hKb : 0 < kb) (event : NumberingEvent ι) :
    s.HighestKept P ctx jobName event := by
  cases event with
  | maintenance os =>
    intro job hLoad n hn hOutdated
    obtain ⟨_, hSuccessful, hBroken⟩ := h.configured.of_loadJob hLoad
    obtain ⟨_, _, _, _, _, _, _, _, hBuilds⟩ := loadJob_eq_ok hLoad
    have hKind : ∀ status keep, status ≠ .pending → 0 < keep →
        buildDir ctx jobName n ∉ outdated (job.builds.get status) keep := by
      intro status keep hStatus hKeep hMem
      rw [hBuilds] at hMem
      obtain ⟨m, hFind, hLarger⟩ := mem_outdated_iff.mp hMem
      have hm : n = m := buildDir_injective ctx jobName (find_loadBuilds.mp hFind).2.1
      obtain ⟨k, hk⟩ := List.exists_mem_of_length_pos (hKeep.trans_le hLarger)
      obtain ⟨hKey, hLt⟩ := List.mem_filter.mp hk
      obtain ⟨p, hp⟩ := Option.isSome_iff_exists.mp (SortedMap.find_isSome_iff.mpr hKey)
      have hBelow := h.not_larger hStatus hp
      rw [decide_eq_true_eq] at hLt
      omega
    obtain hMem | hMem := List.mem_append.mp hOutdated
    · exact hKind .successful _ (by decide) (hSuccessful ▸ hKs) hMem
    · exact hKind .broken _ (by decide) (hBroken ▸ hKb) hMem
  | load | prepare | execute => trivial

/-- A build is prepared, executed with success and cleaned up; then another one
is prepared. -/
def twoBuilds : List (NumberingEvent Unit) :=
  [.load () (.ideal ∅), .prepare () (.ideal ∅) ⟨"s", true⟩ [],
    .execute () (.ideal ∅) 0 ∅ false (fun _ => ⟨[], some 0⟩), .maintenance (.ideal ∅),
    .prepare () (.ideal ∅) ⟨"s", true⟩ []]

theorem demoTree_no_files (keep : Str) : NoStatusBelowFiles demoContext "j" (demoTree keep []) := by
  intro n text executable hFile
  have hNone := demoTree_no_build keep n
  rw [FileTree.pathExists, Option.isSome_eq_false_iff, Option.isNone_iff_eq_none] at hNone
  rw [buildDir, hNone] at hFile
  cases hFile

end CisCore
