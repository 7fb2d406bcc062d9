import CisCore.Job.Finish
import CisCore.Job.PrepareFailed

/-! # The maps of a job over its life

A process that has loaded a job prepares, executes and cleans up in any order. The
number of a new build comes from the disk; as every build in memory has its directory
there, no number is given to two builds, and none of the insertions meets an old key.
-/

namespace CisCore

open Transition

/-- A recursive removal that fails leaves the directory itself, which it removes last. -/
def Os.RemovesRootLast (os : Os) : Prop :=
  ∀ dir e survives, os.removeAllFault dir = some (e, survives) → survives dir = true

/-- A process with its job and the handles that it has not executed. -/
structure JobState where
  tree : FileTree
  job : Job
  handles : List Nat

inductive JobCall where
  | prepareBuild (os : Os) (session : Session) (params : List (Str × Str))
  | execute (os : Os) (env : SortedMap Str Str) (number : Nat) (force : Bool)
      (script : Launch → ScriptRun) (exitCode : Int32)
  | cleanup (os : Os)

/-- Numbers have six digits, and a handle is executed at most once. -/
def JobState.step (P : ProtoUtils) (ctx : Context) (s : JobState) : JobCall → Option JobState
  | .prepareBuild os session params =>
    if nextBuildNumber s.tree (jobPath ctx s.job.name) < 1000000 then
      match s.job.prepareBuild P os s.tree ctx session params with
      | (t, job, handle, _) => some ⟨t, job, handle.toList ++ s.handles⟩
    else none
  | .execute os env number force script exitCode =>
    if number ∈ s.handles then
      let run := s.job.execute os s.tree env number force script exitCode
      some ⟨run.tree, run.job, s.handles.erase number⟩
    else none
  | .cleanup os =>
    match s.job.cleanup os s.tree with
    | (t, job, _) => some ⟨t, job, s.handles⟩

def Builds.Holds (builds : Builds) (n : Nat) (dir : FsPath) : Prop :=
  ∃ s, (builds.get s).find n = some dir

/-- Maps, handles and directories fit together. -/
structure JobState.Consistent (P : ProtoUtils) (ctx : Context) (jobName : Str) (s : JobState) :
    Prop where
  object : JobObject P ctx jobName s.job
  single : ∀ status status' n p p', (s.job.builds.get status).find n = some p →
    (s.job.builds.get status').find n = some p' → status = status'
  present : ∀ status n p, (s.job.builds.get status).find n = some p →
    n < 1000000 ∧ s.tree.find p = some .directory
  nodup : s.handles.Nodup
  waiting : ∀ n ∈ s.handles, (s.job.builds.pending.find n).isSome

variable {P : ProtoUtils} {ctx : Context} {jobName : Str}

namespace JobState.Consistent

variable {s : JobState} (h : s.Consistent P ctx jobName)
include h

theorem name : s.job.name = jobName := by
  obtain ⟨_, hLoaded⟩ := h.object.isLoaded
  exact hLoaded.name

theorem lt_next {status : BuildStatus} {n : Nat} {p : FsPath}
    (hFind : (s.job.builds.get status).find n = some p) :
    n < nextBuildNumber s.tree (jobPath ctx s.job.name) := by
  obtain ⟨hLt, hDir⟩ := h.present status n p hFind
  rw [h.object.dir_eq hFind] at hDir
  rw [h.name]
  exact lt_nextBuildNumber hLt (FileTree.isDirectory_iff.mpr hDir)

theorem next_fresh (status : BuildStatus) :
    (s.job.builds.get status).find (nextBuildNumber s.tree (jobPath ctx s.job.name)) = none := by
  rw [Option.eq_none_iff_forall_ne_some]
  intro p hFind
  exact lt_irrefl _ (h.lt_next hFind)

theorem apart : s.job.Apart := by
  intro status n p status' n' p' hFind hFind' hBelow
  rw [h.object.dir_eq hFind, h.object.dir_eq hFind'] at hBelow
  obtain rfl := eq_of_buildDir_suffix hBelow
  exact ⟨h.single _ _ _ _ _ hFind hFind', rfl⟩

/-- What happens in the directory of one build leaves those of the others alone. -/
theorem find_other {number n : Nat} {p : FsPath} {status : BuildStatus} {t : FileTree}
    (hSame : FileTree.SameOutside (buildDir ctx jobName number <:+ ·) s.tree t)
    (hFind : (s.job.builds.get status).find n = some p) (hne : n ≠ number) :
    t.find p = s.tree.find p := by
  rw [h.object.dir_eq hFind]
  exact hSame _ (buildDir_disjoint hne List.suffix_rfl)

end JobState.Consistent

/-! ### One build changes its map -/

/-- The build is in the map of the status and nowhere else, and no other has moved. -/
structure Job.Filed (job job' : Job) (status : BuildStatus) (number : Nat) (dir : FsPath) : Prop where
  only : job'.builds.Only status number dir
  others : ∀ s n, n ≠ number → (job'.builds.get s).find n = (job.builds.get s).find n

theorem prepareBuild_filed {os : Os} {t t' : FileTree} {job job' : Job} {session : Session}
    {params : List (Str × Str)} {n : Nat} {ec : Ec}
    (h : job.prepareBuild P os t ctx session params = (t', job', some n, ec))
    (hFresh : ∀ s, (job.builds.get s).find n = none) :
    job.Filed job' .pending n (buildDir ctx job.name n) := by
  obtain ⟨_, _, _, _, _, _, rfl⟩ := prepareBuild_handle h
  have hPending := hFresh .pending
  simp only [Builds.get] at hPending
  constructor
  · rintro (_ | _ | _)
    · exact hFresh .successful
    · exact hFresh .broken
    · simp [Builds.get, SortedMap.find_emplace, hPending]
  · rintro (_ | _ | _) m hne
    · rfl
    · rfl
    · simp [Builds.get, SortedMap.find_emplace, hne]

theorem Job.Moved.filed {job job' : Job} {number : Nat} {dir : FsPath} {e : Int32}
    (h : job.Moved job' number dir (.ofStatus e))
    (hOnly : ∀ s, s ≠ .pending → (job.builds.get s).find number = none) :
    job.Filed job' (.ofStatus e) number dir := by
  refine ⟨fun s => ?_, fun s n hne => h.others s n (Or.inl hne)⟩
  split_ifs with hStatus
  · rw [hStatus, h.moved]
  · by_cases hPending : s = .pending
    · rw [hPending]
      exact h.gone
    · rw [h.others s number (Or.inr ⟨hPending, hStatus⟩), hOnly s hPending]

theorem Job.Filed.holds {job job' : Job} {status : BuildStatus} {number : Nat} {dir : FsPath}
    (h : job.Filed job' status number dir) {n : Nat} {p : FsPath} (hHolds : job.builds.Holds n p)
    (hDir : n = number → p = dir) : job'.builds.Holds n p := by
  obtain ⟨s, hFind⟩ := hHolds
  obtain rfl | hne := eq_or_ne n number
  · have hOnly := h.only status
    rw [if_pos rfl] at hOnly
    exact ⟨status, hDir rfl ▸ hOnly⟩
  · exact ⟨s, (h.others s n hne).trans hFind⟩

/-! ### What a cleanup leaves -/

theorem outdated_fault_cases (os : Os) (dirs : List FsPath) :
    (∀ d ∈ dirs, os.removeAllFault d = none) ∨
      ∃ before dir after e survives, dirs = before ++ dir :: after ∧
        (∀ d ∈ before, os.removeAllFault d = none) ∧ os.removeAllFault dir = some (e, survives) := by
  cases hFirst : dirs.find? fun d => (os.removeAllFault d).isSome with
  | none => exact Or.inl fun d hd => by simpa using List.find?_eq_none.mp hFirst d hd
  | some dir =>
    obtain ⟨hFault, before, after, hDirs, hBefore⟩ := List.find?_eq_some_iff_append.mp hFirst
    obtain ⟨⟨e, survives⟩, hFault⟩ := Option.isSome_iff_exists.mp hFault
    exact Or.inr ⟨before, dir, after, e, survives, hDirs, fun d hd => by simpa using hBefore d hd,
      hFault⟩

/-- An entry that stays is an old one whose directory stays. -/
theorem cleanup_kept {os : Os} (hRoot : os.RemovesRootLast) {job : Job} (hApart : job.Apart)
    {t : FileTree} {s : BuildStatus} {n : Nat} {p : FsPath}
    (hFind : ((job.cleanup os t).2.1.builds.get s).find n = some p) :
    (job.builds.get s).find n = some p ∧ (job.cleanup os t).1.find p = t.find p := by
  obtain hClear | ⟨before, dir, after, e, survives, hDirs, hBefore, hFault⟩ :=
    outdated_fault_cases os job.outdated
  · rw [cleanup_faultless hClear] at hFind ⊢
    obtain ⟨hOld, hKept⟩ := (hApart.find_withoutOldest _ _).mp hFind
    refine ⟨hOld, ?_⟩
    rw [find_foldl_removeAll, if_neg]
    rintro ⟨d, hd, hBelow⟩
    rw [job.outdated_eq_oldest] at hd
    exact hKept (hApart.eq_of_mem_oldest hOld hd hBelow ▸ hd)
  · have hOldest := eq_oldest_of_prefix (hDirs ▸ List.prefix_append before (dir :: after))
    have hRemoved := interrupted_find hDirs hBefore hFault t p
    rw [cleanup_fault hDirs hBefore hFault] at hFind hRemoved ⊢
    obtain ⟨hOld, hKept⟩ := (hApart.find_withoutOldest _ _).mp hFind
    refine ⟨hOld, ?_⟩
    rw [hRemoved, if_neg]
    rintro (⟨d, hd, hBelow⟩ | ⟨hBelow, hLost⟩)
    · rw [hOldest] at hd
      exact hKept (hApart.eq_of_mem_oldest hOld hd hBelow ▸ hd)
    · have hMem : dir ∈ job.outdated := hDirs ▸ List.mem_append_right _ List.mem_cons_self
      rw [job.outdated_eq_oldest] at hMem
      rw [← hApart.eq_of_mem_oldest hOld hMem hBelow, hRoot dir e survives hFault] at hLost
      cases hLost

namespace JobState.Consistent

variable {s : JobState} (h : s.Consistent P ctx jobName)
include h

/-- When the maps stay, it is enough that the directories do. -/
theorem of_same_job {t : FileTree} {handles : List Nat}
    (hSame : ∀ status n p, (s.job.builds.get status).find n = some p → t.find p = s.tree.find p)
    (hNodup : handles.Nodup) (hWaiting : ∀ n ∈ handles, (s.job.builds.pending.find n).isSome) :
    JobState.Consistent P ctx jobName ⟨t, s.job, handles⟩ where
  object := h.object
  single := h.single
  present status n p hFind := by
    obtain ⟨hLt, hDir⟩ := h.present status n p hFind
    exact ⟨hLt, (hSame status n p hFind).trans hDir⟩
  nodup := hNodup
  waiting := hWaiting

theorem of_filed {t : FileTree} {job : Job} {status : BuildStatus} {number : Nat}
    {handles : List Nat} (hObject : JobObject P ctx jobName job)
    (hFiled : s.job.Filed job status number (buildDir ctx jobName number)) (hLt : number < 1000000)
    (hSame : FileTree.SameOutside (buildDir ctx jobName number <:+ ·) s.tree t)
    (hDir : t.find (buildDir ctx jobName number) = some .directory)
    (hNodup : handles.Nodup) (hWaiting : ∀ n ∈ handles, (job.builds.pending.find n).isSome) :
    JobState.Consistent P ctx jobName ⟨t, job, handles⟩ := by
  have hNumber : ∀ s p, (job.builds.get s).find number = some p →
      s = status ∧ p = buildDir ctx jobName number := by
    intro s p hFind
    have hOnly := hFiled.only s
    split_ifs at hOnly with hStatus
    · exact ⟨hStatus, Option.some.inj (hFind.symm.trans hOnly)⟩
    · cases hFind.symm.trans hOnly
  refine ⟨hObject, ?_, ?_, hNodup, hWaiting⟩
  · intro status₁ status₂ n p p' hFind hFind'
    obtain rfl | hne := eq_or_ne n number
    · exact (hNumber _ _ hFind).1.trans (hNumber _ _ hFind').1.symm
    · exact h.single _ _ _ _ _ ((hFiled.others _ _ hne).symm.trans hFind)
        ((hFiled.others _ _ hne).symm.trans hFind')
  · intro status₁ n p hFind
    obtain rfl | hne := eq_or_ne n number
    · rw [(hNumber _ _ hFind).2]
      exact ⟨hLt, hDir⟩
    · have hOld := (hFiled.others _ _ hne).symm.trans hFind
      obtain ⟨hOldLt, hOldDir⟩ := h.present _ _ _ hOld
      exact ⟨hOldLt, (h.find_other hSame hOld hne).trans hOldDir⟩

/-! ### The three calls -/

/-- A valid handle is for a new build; without one the maps stay. -/
theorem prepareBuild (os : Os) (session : Session) (params : List (Str × Str))
    (hLt : nextBuildNumber s.tree (jobPath ctx s.job.name) < 1000000) {t : FileTree} {job : Job}
    {handle : Option Nat} {ec : Ec}
    (hPrepare : s.job.prepareBuild P os s.tree ctx session params = (t, job, handle, ec)) :
    JobState.Consistent P ctx jobName ⟨t, job, handle.toList ++ s.handles⟩ ∧
      ∀ n p, s.job.builds.Holds n p → job.builds.Holds n p := by
  have hSame := prepareBuild_sameOutside P os s.job s.tree ctx session params
  have hObject := h.object.prepared os s.tree session params
  rw [hPrepare, h.name] at hSame
  rw [hPrepare] at hObject
  cases handle with
  | none =>
    obtain ⟨_, rfl⟩ := prepareBuild_failed hPrepare
    refine ⟨h.of_same_job (fun status n p hFind => ?_) h.nodup h.waiting, fun _ _ hHolds => hHolds⟩
    have hOlder := h.lt_next hFind
    rw [h.name] at hOlder
    exact h.find_other hSame hFind (Nat.ne_of_lt hOlder)
  | some number =>
    obtain ⟨_, _, hNumber, _⟩ := prepareBuild_handle hPrepare
    have hFresh := h.next_fresh
    rw [← hNumber] at hFresh
    have hFiled := prepareBuild_filed hPrepare hFresh
    obtain ⟨_, hDir, _⟩ := prepareBuild_files hPrepare
    have hNew : number ∉ s.handles := by
      intro hMem
      obtain ⟨p, hFind⟩ := Option.isSome_iff_exists.mp (h.waiting number hMem)
      cases hFind.symm.trans (hFresh .pending)
    have hPending : job.builds.pending.find number = some (buildDir ctx s.job.name number) :=
      hFiled.only .pending
    rw [h.name] at hFiled hDir
    rw [← h.name, ← hNumber, h.name] at hSame
    refine ⟨h.of_filed hObject hFiled (hNumber ▸ hLt) hSame hDir (List.nodup_cons.mpr ⟨hNew, h.nodup⟩)
      ?_, fun n p hHolds => hFiled.holds hHolds ?_⟩
    · rintro n (_ | ⟨_, hMem⟩)
      · exact Option.isSome_iff_exists.mpr ⟨_, hPending⟩
      · have hne : n ≠ number := fun hEq => hNew (hEq ▸ hMem)
        have hOther := hFiled.others .pending n hne
        simp only [Builds.get] at hOther
        rw [hOther]
        exact h.waiting n hMem
    · rintro rfl
      obtain ⟨_, hFind⟩ := hHolds
      exact h.object.dir_eq hFind

/-- A build with a handle stays pending or becomes a finished one. -/
theorem execute (os : Os) (env : SortedMap Str Str) {number : Nat} (force : Bool)
    (script : Launch → ScriptRun) (exitCode : Int32) (hHandle : number ∈ s.handles) :
    JobState.Consistent P ctx jobName
        ⟨(s.job.execute os s.tree env number force script exitCode).tree,
          (s.job.execute os s.tree env number force script exitCode).job, s.handles.erase number⟩ ∧
      ∀ n p, s.job.builds.Holds n p →
        (s.job.execute os s.tree env number force script exitCode).job.builds.Holds n p := by
  have hSome := h.waiting number hHandle
  have hObject := h.object.executed os s.tree env force script exitCode hSome
  obtain ⟨dir, hDir⟩ := Option.isSome_iff_exists.mp hSome
  have hSame := execute_sameOutside os hDir s.tree env force script exitCode
  obtain ⟨hLt, hPresent⟩ := h.present .pending number dir hDir
  have hNodup := h.nodup.erase number
  have hHandles : ∀ n ∈ s.handles.erase number, n ≠ number ∧ n ∈ s.handles :=
    fun n hMem => h.nodup.mem_erase_iff.mp hMem
  obtain rfl := h.object.dir_eq (s := .pending) hDir
  have hKept := (hSame _ fun hInside => hInside.2 rfl).trans hPresent
  obtain hJob | ⟨e, hJob⟩ := execute_job_cases os s.job s.tree env number force script exitCode
  · rw [hJob]
    refine ⟨h.of_same_job (fun status n p hFind => ?_) hNodup
      fun n hMem => h.waiting n (hHandles n hMem).2, fun _ _ hHolds => hHolds⟩
    obtain rfl | hne := eq_or_ne n number
    · rw [h.object.dir_eq hFind]
      exact hSame _ fun hInside => hInside.2 rfl
    · exact h.find_other hSame.below hFind hne
  · have hOnly : ∀ status, status ≠ .pending → (s.job.builds.get status).find number = none := by
      intro status hStatus
      rw [Option.eq_none_iff_forall_ne_some]
      intro p hFind
      exact hStatus (h.single status .pending _ _ _ hFind hDir)
    have hFiled := (settle_moved hDir h.object e).filed hOnly
    rw [hJob] at hObject ⊢
    refine ⟨h.of_filed hObject hFiled hLt hSame.below hKept hNodup fun n hMem => ?_,
      fun n p hHolds => hFiled.holds hHolds ?_⟩
    · have hOther := hFiled.others .pending n (hHandles n hMem).1
      simp only [Builds.get] at hOther
      rw [hOther]
      exact h.waiting n (hHandles n hMem).2
    · rintro rfl
      obtain ⟨_, hFind⟩ := hHolds
      exact h.object.dir_eq hFind

theorem cleanup {os : Os} (hRoot : os.RemovesRootLast) :
    JobState.Consistent P ctx jobName
      ⟨(s.job.cleanup os s.tree).1, (s.job.cleanup os s.tree).2.1, s.handles⟩ := by
  have hKept := fun status n p =>
    cleanup_kept hRoot h.apart (t := s.tree) (s := status) (n := n) (p := p)
  refine ⟨h.object.cleaned os s.tree, ?_, ?_, h.nodup, ?_⟩
  · intro status status' n p p' hFind hFind'
    exact h.single _ _ _ _ _ (hKept _ _ _ hFind).1 (hKept _ _ _ hFind').1
  · intro status n p hFind
    obtain ⟨hOld, hDir⟩ := hKept _ _ _ hFind
    obtain ⟨hLt, hPresent⟩ := h.present _ _ _ hOld
    exact ⟨hLt, hDir.trans hPresent⟩
  · obtain ⟨successful, broken, hCleanup⟩ := cleanup_withoutOldest os s.job s.tree
    rw [hCleanup]
    exact h.waiting

theorem step {call : JobCall} {s' : JobState}
    (hRoot : ∀ os, call = .cleanup os → os.RemovesRootLast)
    (hStep : s.step P ctx call = some s') :
    s'.Consistent P ctx jobName ∧ ((∀ os, call ≠ .cleanup os) →
      ∀ n p, s.job.builds.Holds n p → s'.job.builds.Holds n p) := by
  cases call with
  | prepareBuild os session params =>
    simp only [JobState.step] at hStep
    split_ifs at hStep with hLt
    rcases hPrepare : s.job.prepareBuild P os s.tree ctx session params with ⟨t, job, handle, ec⟩
    rw [hPrepare] at hStep
    cases hStep
    obtain ⟨hConsistent, hKeeps⟩ := h.prepareBuild os session params hLt hPrepare
    exact ⟨hConsistent, fun _ => hKeeps⟩
  | execute os env number force script exitCode =>
    simp only [JobState.step] at hStep
    split_ifs at hStep with hHandle
    cases hStep
    obtain ⟨hConsistent, hKeeps⟩ := h.execute os env force script exitCode hHandle
    exact ⟨hConsistent, fun _ => hKeeps⟩
  | cleanup os =>
    cases hStep
    exact ⟨h.cleanup (hRoot os rfl), fun hCall => absurd rfl (hCall os)⟩

end JobState.Consistent

/-! ### From the loaded job on -/

theorem loadJob_consistent {os : Os} {t : FileTree} {job : Job}
    (hLoad : loadJob P os t ctx jobName = .ok job)
    (hDirs : ∀ name node, isBuild name = true →
      t.find (jobPath ctx jobName / name) = some node → node = .directory) :
    JobState.Consistent P ctx jobName ⟨t, job, []⟩ where
  object := .loaded hLoad
  single status status' n p p' hFind hFind' := by
    obtain rfl : p = p' := by
      rw [loadJob_placed hLoad status n p hFind, loadJob_placed hLoad status' n p' hFind']
    exact (loadJob_apart hLoad _ _ _ _ _ _ hFind hFind' List.suffix_rfl).1
  present status n p hFind := by
    obtain ⟨_, _, _, _, _, _, _, _, hBuilds⟩ := loadJob_eq_ok hLoad
    rw [hBuilds, find_loadBuilds] at hFind
    obtain ⟨hLt, rfl, hExists, _⟩ := hFind
    obtain ⟨node, hNode⟩ := Option.isSome_iff_exists.mp hExists
    exact ⟨hLt, hDirs _ node (isBuild_numberString hLt) hNode ▸ hNode⟩
  nodup := List.nodup_nil
  waiting := List.forall_mem_nil _

/-- After any preparations, executions and cleanups of a loaded job no number is in two
maps, every build is in the directory of its number, which is there, and only a cleanup
takes builds out of the maps. -/
theorem build_maps_invariant {os : Os} {t : FileTree} {job : Job}
    (hLoad : loadJob P os t ctx jobName = .ok job)
    (hDirs : ∀ name node, isBuild name = true →
      t.find (jobPath ctx jobName / name) = some node → node = .directory)
    {calls : List JobCall} (hCalls : ∀ os, .cleanup os ∈ calls → os.RemovesRootLast) {s : JobState}
    (hRun : run (JobState.step P ctx) ⟨t, job, []⟩ calls = some s) :
    (∀ status status' n, n ∈ (s.job.builds.get status).keys → n ∈ (s.job.builds.get status').keys →
      status = status') ∧
    (∀ status n p, (s.job.builds.get status).find n = some p →
      p = jobPath ctx jobName / numberString n ∧ n < 1000000 ∧ s.tree.isDirectory p = true) ∧
    ∀ call s', (∀ os, call ≠ .cleanup os) → s.step P ctx call = some s' →
      ∀ status n p, (s.job.builds.get status).find n = some p →
        ∃ status', (s'.job.builds.get status').find n = some p := by
  have hAlong : Along (JobState.step P ctx) (fun _ call => ∀ os, call = .cleanup os →
      os.RemovesRootLast) ⟨t, job, []⟩ calls :=
    along_of_forall fun call hCall os hCleanup => hCalls os (hCleanup ▸ hCall)
  have hConsistent : s.Consistent P ctx jobName :=
    invariant_of_along (fun _ _ _ h hRoot hStep => (h.step hRoot hStep).1)
      (loadJob_consistent hLoad hDirs) hAlong hRun
  refine ⟨fun status status' n hMem hMem' => ?_, fun status n p hFind => ?_,
    fun call s' hCall hStep status n p hFind => ?_⟩
  · obtain ⟨p, hFind⟩ := Option.isSome_iff_exists.mp (SortedMap.find_isSome_iff.mpr hMem)
    obtain ⟨p', hFind'⟩ := Option.isSome_iff_exists.mp (SortedMap.find_isSome_iff.mpr hMem')
    exact hConsistent.single _ _ _ _ _ hFind hFind'
  · obtain ⟨hLt, hDir⟩ := hConsistent.present _ _ _ hFind
    exact ⟨hConsistent.object.dir_eq hFind, hLt, FileTree.isDirectory_iff.mpr hDir⟩
  · have hRoot : ∀ os, call = .cleanup os → os.RemovesRootLast := fun os hCleanup =>
      absurd hCleanup (hCall os)
    exact (hConsistent.step hRoot hStep).2 hCall n p ⟨status, hFind⟩

/-- Directories are emptied but not removed. -/
def emptyingOs : Os :=
  { Os.ideal ∅ with removeAllFault := fun dir => some (.other 5, fun q => decide (q = dir)) }

/-- The cleanup is to keep no builds and fails at the only one that has finished. -/
theorem build_maps_invariant_two :
    ∃ job s, loadJob .reference (.ideal ∅) (demoTree "0" []) demoContext "j" = .ok job ∧
      run (JobState.step .reference demoContext) ⟨demoTree "0" [], job, []⟩
        [.prepareBuild (.ideal ∅) ⟨"s", true⟩ [],
          .execute (.ideal ∅) ∅ 0 false (fun _ => ⟨[], some 0⟩) (-1),
          .cleanup emptyingOs, .prepareBuild (.ideal ∅) ⟨"s", true⟩ []] = some s ∧
      s.job.builds.successful.keys = [0] ∧ s.job.builds.pending.keys = [1] ∧
      ∀ status n p, (s.job.builds.get status).find n = some p →
        p = jobPath demoContext "j" / numberString n ∧ n < 1000000 ∧ s.tree.isDirectory p = true := by
  have hLoad : loadJob .reference (.ideal ∅) (demoTree "0" []) demoContext "j" =
    .ok ⟨"j", ⟨"s", 0, 0, []⟩, ⟨∅, ∅, ∅⟩⟩ := rfl
  have hRun : run (JobState.step .reference demoContext)
      ⟨demoTree "0" [], ⟨"j", ⟨"s", 0, 0, []⟩, ⟨∅, ∅, ∅⟩⟩, []⟩
    [.prepareBuild (.ideal ∅) ⟨"s", true⟩ [],
      .execute (.ideal ∅) ∅ 0 false (fun _ => ⟨[], some 0⟩) (-1),
      .cleanup emptyingOs, .prepareBuild (.ideal ∅) ⟨"s", true⟩ []] = some _ := rfl
  refine ⟨_, _, hLoad, hRun, rfl, rfl, (build_maps_invariant hLoad ?_ ?_ hRun).2.1⟩
  · intro name node hBuild hFind
    have hAbsent := demoTree_no_build "0" (buildNumber name)
    rw [numberString_buildNumber hBuild, FileTree.pathExists, hFind] at hAbsent
    cases hAbsent
  · intro os hMem dir e survives hFault
    obtain rfl : os = emptyingOs := by simpa using hMem
    cases hFault
    exact decide_eq_true rfl

end CisCore
