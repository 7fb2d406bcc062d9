import CisCore.Job.Build
import CisCore.Job.Cleanup
import CisCore.Library.EntryList
import CisCore.Library.Transition

/-! # Retention over whole runs

What the maintenance of a job is for: of the finished builds of either kind the
job directory keeps the newest ones. The abstract state is a history of builds
in the order of their runs; the directory shows the last builds of each kind.
Numbers are handed out again only above everything that is on disk, so the
order of the numbers on disk is the order of the history.
-/

namespace CisCore

open Transition

structure BuildRecord where
  number : Nat
  status : Int32
  session : Session

/-- One run of a job and the maintenance process after it. -/
structure CompleteRun where
  os : Os
  session : Session
  params : List (Str × Str)
  env : Nat → SortedMap Str Str
  force : Bool
  script : Launch → ScriptRun
  maintenanceOs : Os

def successfulOf (history : List BuildRecord) : List BuildRecord :=
  history.filter fun b => b.status = 0

def brokenOf (history : List BuildRecord) : List BuildRecord :=
  history.filter fun b => b.status ≠ 0

section Model

variable (P : ProtoUtils) (ctx : Context) (jobName : Str)

/-- The run reports no error in any of its parts; its build joins the history. -/
def completeRun (s : FileTree × List BuildRecord) (r : CompleteRun) :
    Option (FileTree × List BuildRecord) :=
  match loadJob P r.os s.1 ctx jobName with
  | .error _ => none
  | .ok job =>
    let run := job.runBuild P r.os s.1 ctx r.session r.params r.env r.force r.script
    match run.handle, run.recorded with
    | some number, some status =>
      match maintenanceMain P r.maintenanceOs run.tree ctx jobName with
      | (t, _, 0) => some (t, s.2 ++ [⟨number, status, r.session⟩])
      | (_, _, _ + 1) => none
    | _, _ => none

end Model

variable {P : ProtoUtils} {ctx : Context} {jobName : Str}

/-- The directory of the build with its session and its exit status. -/
structure Finished (ctx : Context) (jobName : Str) (t : FileTree) (b : BuildRecord) : Prop where
  number : b.number < 1000000
  directory : t.find (buildDir ctx jobName b.number) = some .directory
  exitcode : t.content (buildDir ctx jobName b.number / "exitcode.txt") =
    some (exitcodeText b.status)
  session : t.content (buildDir ctx jobName b.number / "session_id.txt") =
    some (sessionIdText b.session)

/-- The builds in the job directory are those of the two lists, in their order. -/
structure OnDisk (ctx : Context) (jobName : Str) (t : FileTree)
    (successful broken : List BuildRecord) : Prop where
  present : ∀ n < 1000000, t.pathExists (buildDir ctx jobName n) = true ↔
    ∃ b ∈ successful ++ broken, b.number = n
  finished : ∀ b ∈ successful ++ broken, Finished ctx jobName t b
  successful : (∀ b ∈ successful, b.status = 0) ∧
    successful.Pairwise (fun a b => a.number < b.number)
  broken : (∀ b ∈ broken, b.status ≠ 0) ∧ broken.Pairwise (fun a b => a.number < b.number)

theorem Finished.of_sameOutside {t t' : FileTree} {b : BuildRecord} {n : Nat}
    (h : Finished ctx jobName t b) (hne : b.number ≠ n)
    (hFrame : FileTree.SameOutside (buildDir ctx jobName n <:+ ·) t t') :
    Finished ctx jobName t' b := by
  have hApart : ∀ q, buildDir ctx jobName b.number <:+ q → ¬buildDir ctx jobName n <:+ q :=
    fun q hq => buildDir_disjoint hne hq
  refine ⟨h.number, ?_, ?_, ?_⟩
  · exact (hFrame _ (hApart _ List.suffix_rfl)).trans h.directory
  · exact (hFrame.content_eq (hApart _ (FileTree.suffix_child _ _))).trans h.exitcode
  · exact (hFrame.content_eq (hApart _ (FileTree.suffix_child _ _))).trans h.session

/-- The process can read what the exit code files say. -/
def Os.ReadsExitcodes (os : Os) : Prop :=
  ∀ dir : FsPath, os.ifstreamFault (dir / "exitcode.txt") = false

theorem Finished.buildStatus {os : Os} (hRead : os.ReadsExitcodes) {t : FileTree}
    {b : BuildRecord} (h : Finished ctx jobName t b) :
    buildStatus os t (buildDir ctx jobName b.number) =
      if b.status = 0 then .successful else .broken := by
  rw [buildStatus_eq_recorded (hRead _), recordedStatus_exitcodeText h.exitcode]

theorem exitcodeText_zero_iff {e e' : Int32} (h : exitcodeText e = exitcodeText e') :
    e = 0 ↔ e' = 0 := by
  obtain ⟨n, hn, hZero⟩ := u32FromString_exitcodeText e
  obtain ⟨n', hn', hZero'⟩ := u32FromString_exitcodeText e'
  rw [h, hn', Option.some.injEq] at hn
  subst hn
  exact hZero.symm.trans hZero'

namespace OnDisk

variable {t t' : FileTree} {successful broken : List BuildRecord}

theorem apart (h : OnDisk ctx jobName t successful broken) {b b' : BuildRecord}
    (hb : b ∈ successful) (hb' : b' ∈ broken) : b.number ≠ b'.number := by
  intro hEq
  have hText := (h.finished b (List.mem_append_left _ hb)).exitcode
  rw [hEq, (h.finished b' (List.mem_append_right _ hb')).exitcode, Option.some.injEq] at hText
  exact h.broken.1 b' hb' ((exitcodeText_zero_iff hText).mpr (h.successful.1 b hb))

theorem lt_next (h : OnDisk ctx jobName t successful broken) {b : BuildRecord}
    (hb : b ∈ successful ++ broken) : b.number < nextBuildNumber t (jobPath ctx jobName) :=
  lt_nextBuildNumber (h.finished b hb).number
    (FileTree.isDirectory_iff.mpr (h.finished b hb).directory)

theorem eq_of_mem_kinds {b b' : BuildRecord} (h : b' ∈ successfulOf [b] ∨ b' ∈ brokenOf [b]) :
    b' = b := by
  simp only [successfulOf, brokenOf, List.mem_filter, List.mem_singleton] at h
  obtain h | h := h
  · exact h.1
  · exact h.1

/-- A new build is in the list of its kind. -/
theorem mem_append_kinds {b b' : BuildRecord} :
    b' ∈ (successful ++ successfulOf [b]) ++ (broken ++ brokenOf [b]) ↔
      b' ∈ successful ++ broken ∨ b' = b := by
  have hNew : b ∈ successfulOf [b] ∨ b ∈ brokenOf [b] := by
    by_cases hStatus : b.status = 0
    · simp [successfulOf, hStatus]
    · simp [brokenOf, hStatus]
  simp only [List.mem_append]
  constructor
  · rintro ((hb' | hb') | (hb' | hb'))
    · exact Or.inl (Or.inl hb')
    · exact Or.inr (eq_of_mem_kinds (Or.inl hb'))
    · exact Or.inl (Or.inr hb')
    · exact Or.inr (eq_of_mem_kinds (Or.inr hb'))
  · rintro (hb' | rfl)
    · exact hb'.imp Or.inl Or.inl
    · exact hNew.imp Or.inr Or.inr

theorem build (h : OnDisk ctx jobName t successful broken) {b : BuildRecord}
    (hNumber : b.number = nextBuildNumber t (jobPath ctx jobName))
    (hFrame : FileTree.SameOutside (buildDir ctx jobName b.number <:+ ·) t t')
    (hFinished : Finished ctx jobName t' b) :
    OnDisk ctx jobName t' (successful ++ successfulOf [b]) (broken ++ brokenOf [b]) := by
  have hLt : ∀ b' ∈ successful ++ broken, b'.number < b.number :=
    fun b' hb' => hNumber ▸ h.lt_next hb'
  refine ⟨fun n hn => ?_, fun b' hb' => ?_, ⟨fun b' hb' => ?_, ?_⟩, ⟨fun b' hb' => ?_, ?_⟩⟩
  · obtain rfl | hne := eq_or_ne n b.number
    · constructor
      · intro _
        exact ⟨b, mem_append_kinds.mpr (Or.inr rfl), rfl⟩
      · intro _
        rw [FileTree.pathExists, hFinished.directory]
        rfl
    · have hSame := hFrame _ (buildDir_disjoint (q := buildDir ctx jobName n) hne List.suffix_rfl)
      rw [FileTree.pathExists, hSame, ← FileTree.pathExists, h.present n hn]
      constructor
      · rintro ⟨b', hb', rfl⟩
        exact ⟨b', mem_append_kinds.mpr (Or.inl hb'), rfl⟩
      · rintro ⟨b', hb', rfl⟩
        obtain hb' | rfl := mem_append_kinds.mp hb'
        · exact ⟨b', hb', rfl⟩
        · exact absurd rfl hne
  · obtain hb' | rfl := mem_append_kinds.mp hb'
    · exact (h.finished b' hb').of_sameOutside (hLt b' hb').ne hFrame
    · exact hFinished
  · obtain hb' | hb' := List.mem_append.mp hb'
    · exact h.successful.1 b' hb'
    · simpa using (List.mem_filter.mp hb').2
  · refine List.pairwise_append.mpr ⟨h.successful.2, (List.pairwise_singleton _ b).filter _, ?_⟩
    intro a ha b' hb'
    rw [eq_of_mem_kinds (Or.inl hb')]
    exact hLt a (List.mem_append_left _ ha)
  · obtain hb' | hb' := List.mem_append.mp hb'
    · exact h.broken.1 b' hb'
    · simpa using (List.mem_filter.mp hb').2
  · refine List.pairwise_append.mpr ⟨h.broken.2, (List.pairwise_singleton _ b).filter _, ?_⟩
    intro a ha b' hb'
    rw [eq_of_mem_kinds (Or.inr hb')]
    exact hLt a (List.mem_append_right _ ha)

theorem loaded_entries {os : Os} (hRead : os.ReadsExitcodes)
    (status : BuildStatus) {kind : List BuildRecord}
    (hKind : ∀ b ∈ kind, Finished ctx jobName t b ∧
      (if b.status = 0 then .successful else .broken) = status)
    (hAll : ∀ n < 1000000, t.pathExists (buildDir ctx jobName n) = true →
      buildStatus os t (buildDir ctx jobName n) = status → ∃ b ∈ kind, b.number = n)
    (hAscending : kind.Pairwise fun a b => a.number < b.number) :
    ((loadBuilds os t (jobPath ctx jobName)).get status).entries =
      kind.map fun b => (b.number, buildDir ctx jobName b.number) := by
  apply SortedMap.entries_eq_of_mem_iff
  · exact List.pairwise_map.mpr hAscending
  · intro n p
    rw [find_loadBuilds, List.mem_map]
    constructor
    · rintro ⟨hn, rfl, hExists, hStatus⟩
      obtain ⟨b, hb, rfl⟩ := hAll n hn hExists hStatus
      exact ⟨b, hb, rfl⟩
    · rintro ⟨b, hb, hEq⟩
      cases hEq
      obtain ⟨hFinished, hStatus⟩ := hKind b hb
      refine ⟨hFinished.number, rfl, ?_, (hFinished.buildStatus hRead).trans hStatus⟩
      rw [FileTree.pathExists, hFinished.directory]
      rfl

theorem outdated_eq {P : ProtoUtils} {os : Os} {script : Str} {ks kb : Nat}
    (h : OnDisk ctx jobName t successful broken) (hRead : os.ReadsExitcodes)
    (hConf : Configured P t ctx jobName script ks kb) {job : Job}
    (hLoad : loadJob P os t ctx jobName = .ok job) :
    job.outdated = ((successful.take (successful.length - ks)) ++
      (broken.take (broken.length - kb))).map fun b => buildDir ctx jobName b.number := by
  obtain ⟨_, hKs, hKb⟩ := hConf.of_loadJob hLoad
  obtain ⟨_, _, _, _, _, _, _, _, hBuilds⟩ := loadJob_eq_ok hLoad
  have hClass : ∀ n < 1000000, t.pathExists (buildDir ctx jobName n) = true →
      ∃ b ∈ successful ++ broken, b.number = n ∧
        buildStatus os t (buildDir ctx jobName n) = if b.status = 0 then .successful else .broken := by
    intro n hn hExists
    obtain ⟨b, hb, rfl⟩ := (h.present n hn).mp hExists
    exact ⟨b, hb, rfl, (h.finished b hb).buildStatus hRead⟩
  have hSuccessful : job.builds.successful.entries =
      successful.map fun b => (b.number, buildDir ctx jobName b.number) := by
    rw [hBuilds]
    refine loaded_entries hRead .successful ?_ ?_ h.successful.2
    · intro b hb
      exact ⟨h.finished b (List.mem_append_left _ hb), if_pos (h.successful.1 b hb)⟩
    · intro n hn hExists hStatus
      obtain ⟨b, hb, rfl, hb'⟩ := hClass n hn hExists
      obtain hb | hb := List.mem_append.mp hb
      · exact ⟨b, hb, rfl⟩
      · rw [hStatus, if_neg (h.broken.1 b hb)] at hb'
        cases hb'
  have hBroken : job.builds.broken.entries =
      broken.map fun b => (b.number, buildDir ctx jobName b.number) := by
    rw [hBuilds]
    refine loaded_entries hRead .broken ?_ ?_ h.broken.2
    · intro b hb
      exact ⟨h.finished b (List.mem_append_right _ hb), if_neg (h.broken.1 b hb)⟩
    · intro n hn hExists hStatus
      obtain ⟨b, hb, rfl, hb'⟩ := hClass n hn hExists
      obtain hb | hb := List.mem_append.mp hb
      · rw [hStatus, if_pos (h.successful.1 b hb)] at hb'
        cases hb'
      · exact ⟨b, hb, rfl⟩
  rw [Job.outdated, outdated, outdated, SortedMap.size, SortedMap.size, hSuccessful, hBroken, hKs,
    hKb, List.map_append, ← List.map_take, ← List.map_take, List.map_map, List.map_map,
    List.length_map, List.length_map]
  rfl

/-- Removing the oldest builds of either kind leaves the newest ones. -/
theorem prune (h : OnDisk ctx jobName t successful broken) (ks kb : Nat)
    (hTree : t' = (((successful.take (successful.length - ks)) ++
      (broken.take (broken.length - kb))).map fun b =>
        buildDir ctx jobName b.number).foldl FileTree.removeAll t) :
    OnDisk ctx jobName t' (successful.rtake ks) (broken.rtake kb) := by
  -- the numbers of removed and of kept builds differ
  have hApart : ∀ a ∈ successful.take (successful.length - ks) ++ broken.take (broken.length - kb),
      ∀ b ∈ successful.rtake ks ++ broken.rtake kb, a.number ≠ b.number := by
    intro a ha b hb
    obtain ha | ha := List.mem_append.mp ha
    · obtain hb | hb := List.mem_append.mp hb
      · exact (EntryList.rel_take_rtake h.successful.2 ks ha hb).ne
      · exact h.apart (List.mem_of_mem_take ha) (List.mem_of_mem_drop hb)
    · obtain hb | hb := List.mem_append.mp hb
      · exact (h.apart (List.mem_of_mem_drop hb) (List.mem_of_mem_take ha)).symm
      · exact (EntryList.rel_take_rtake h.broken.2 kb ha hb).ne
  have hKept : ∀ b ∈ successful.rtake ks ++ broken.rtake kb, ∀ q,
      buildDir ctx jobName b.number <:+ q → t'.find q = t.find q := by
    intro b hb q hq
    rw [hTree, find_foldl_removeAll, if_neg]
    rintro ⟨dir, hDir, hBelow⟩
    obtain ⟨a, ha, rfl⟩ := List.mem_map.mp hDir
    exact buildDir_disjoint (hApart a ha b hb) hBelow hq
  have hOld : ∀ b ∈ successful.rtake ks ++ broken.rtake kb, b ∈ successful ++ broken := by
    intro b hb
    rw [List.mem_append] at hb ⊢
    exact hb.imp List.mem_of_mem_drop List.mem_of_mem_drop
  refine ⟨fun n hn => ?_, fun b hb => ?_, ⟨fun b hb => ?_, ?_⟩, ⟨fun b hb => ?_, ?_⟩⟩
  · constructor
    · intro hExists
      rw [FileTree.pathExists, hTree, find_foldl_removeAll] at hExists
      split_ifs at hExists with hRemoved
      · cases hExists
      obtain ⟨b, hb, rfl⟩ := (h.present n hn).mp hExists
      rw [List.mem_append, EntryList.mem_take_or_rtake successful ks,
        EntryList.mem_take_or_rtake broken kb] at hb
      have hKeep : b ∉ successful.take (successful.length - ks) ++
          broken.take (broken.length - kb) :=
        fun hTake => hRemoved ⟨_, List.mem_map_of_mem hTake, List.suffix_rfl⟩
      rw [List.mem_append, not_or] at hKeep
      refine ⟨b, List.mem_append.mpr ?_, rfl⟩
      obtain (hb | hb) | (hb | hb) := hb
      · exact absurd hb hKeep.1
      · exact Or.inl hb
      · exact absurd hb hKeep.2
      · exact Or.inr hb
    · rintro ⟨b, hb, rfl⟩
      rw [FileTree.pathExists, hKept b hb _ List.suffix_rfl, (h.finished b (hOld b hb)).directory]
      rfl
  · have hFinished := h.finished b (hOld b hb)
    exact ⟨hFinished.number, (hKept b hb _ List.suffix_rfl).trans hFinished.directory,
      (FileTree.content_congr (hKept b hb _ (FileTree.suffix_child _ _))).trans hFinished.exitcode,
      (FileTree.content_congr (hKept b hb _ (FileTree.suffix_child _ _))).trans hFinished.session⟩
  · exact h.successful.1 b (List.mem_of_mem_drop hb)
  · exact h.successful.2.sublist (List.drop_sublist _ _)
  · exact h.broken.1 b (List.mem_of_mem_drop hb)
  · exact h.broken.2.sublist (List.drop_sublist _ _)

theorem nodup (h : OnDisk ctx jobName t successful broken) :
    ((successful ++ broken).map BuildRecord.number).Nodup := by
  rw [List.map_append, List.nodup_append]
  refine ⟨(List.pairwise_map.mpr h.successful.2).imp ne_of_lt,
    (List.pairwise_map.mpr h.broken.2).imp ne_of_lt, ?_⟩
  intro n hn m hm
  obtain ⟨b, hb, rfl⟩ := List.mem_map.mp hn
  obtain ⟨b', hb', rfl⟩ := List.mem_map.mp hm
  exact h.apart hb hb'

end OnDisk

/-! ### Runs -/

theorem completeRun_eq_some {s s' : FileTree × List BuildRecord} {r : CompleteRun}
    (h : completeRun P ctx jobName s r = some s') :
    ∃ job b t₁ stdout, loadJob P r.os s.1 ctx jobName = .ok job ∧
      t₁ = (job.runBuild P r.os s.1 ctx r.session r.params r.env r.force r.script).tree ∧
      (job.runBuild P r.os s.1 ctx r.session r.params r.env r.force r.script).handle =
        some b.number ∧
      (job.runBuild P r.os s.1 ctx r.session r.params r.env r.force r.script).recorded =
        some b.status ∧ b.session = r.session ∧
      maintenanceMain P r.maintenanceOs t₁ ctx jobName = (s'.1, stdout, 0) ∧
      s'.2 = s.2 ++ [b] := by
  unfold completeRun at h
  split at h
  · cases h
  rename_i job hLoad
  simp only at h
  split at h
  · rename_i number status hHandle hRecorded
    split at h
    · rename_i t stdout hMaintenance
      cases h
      exact ⟨job, ⟨number, status, r.session⟩, _, stdout, hLoad, rfl, hHandle, hRecorded, rfl,
        hMaintenance, rfl⟩
    · cases h
  · cases h

/-- The invariant of whole runs: the directory shows the end of the history. -/
structure RetentionInv (P : ProtoUtils) (ctx : Context) (jobName script : Str) (ks kb : Nat)
    (s : FileTree × List BuildRecord) : Prop where
  configured : Configured P s.1 ctx jobName script ks kb
  onDisk : OnDisk ctx jobName s.1 ((successfulOf s.2).rtake ks) ((brokenOf s.2).rtake kb)

theorem RetentionInv.step {script : Str} {ks kb : Nat} {s s' : FileTree × List BuildRecord}
    {r : CompleteRun} (h : RetentionInv P ctx jobName script ks kb s)
    (hRead : r.maintenanceOs.ReadsExitcodes)
    (hStep : completeRun P ctx jobName s r = some s')
    (hNumbers : ∀ b ∈ s'.2, b.number < 1000000) :
    RetentionInv P ctx jobName script ks kb s' := by
  obtain ⟨job, b, t₁, stdout, hLoad, hTree, hHandle, hRecorded, hSession, hMaintenance, hHistory⟩ :=
    completeRun_eq_some hStep
  obtain ⟨n, hNumber, hHandle', _, _, hDir, hExitcode, hSessionId⟩ := runBuild_recorded P r.os
    (loadJob_placed hLoad) s.1 r.session r.params r.env r.force r.script hRecorded
  have hFrame := runBuild_sameOutside P r.os (loadJob_placed hLoad) s.1 r.session r.params r.env
    r.force r.script
  obtain rfl := loadJob_name hLoad
  rw [← hNumber, ← hTree] at hFrame
  rw [← hTree] at hDir hExitcode hSessionId
  have hEq : b.number = n := Option.some.inj (hHandle.symm.trans hHandle')
  subst hEq
  have hFinished : Finished ctx job.name t₁ b :=
    ⟨hNumbers b (by simp [hHistory]), hDir, hExitcode, by rw [hSession]; exact hSessionId⟩
  have hBuilt := h.onDisk.build hNumber hFrame hFinished
  have hConf := h.configured.of_same (hFrame _ (not_buildDir_suffix_jobConf ctx job.name b.number))
  obtain ⟨job', hLoad', hRemoved⟩ := maintenanceMain_success hMaintenance
  have hOutdated := hBuilt.outdated_eq hRead hConf hLoad'
  have hPruned := hBuilt.prune ks kb (hOutdated ▸ hRemoved)
  rw [EntryList.rtake_append_rtake, EntryList.rtake_append_rtake] at hPruned
  refine ⟨hConf.of_same ?_, ?_⟩
  · rw [hRemoved, find_foldl_removeAll, if_neg]
    rintro ⟨dir, hMem, hBelow⟩
    rw [hOutdated] at hMem
    obtain ⟨a, _, rfl⟩ := List.mem_map.mp hMem
    exact not_buildDir_suffix_jobConf ctx job.name a.number hBelow
  · rw [hHistory, successfulOf, brokenOf, List.filter_append, List.filter_append]
    exact hPruned

theorem history_grows {s s' : FileTree × List BuildRecord} {runs : List CompleteRun}
    (hRun : run (completeRun P ctx jobName) s runs = some s') : s.2 <+: s'.2 := by
  induction runs generalizing s with
  | nil =>
    cases hRun
    exact List.prefix_rfl
  | cons r runs ih =>
    obtain ⟨s₁, hStep, hRest⟩ := run_cons_eq_some.mp hRun
    obtain ⟨_, b, _, _, _, _, _, _, _, _, hHistory⟩ := completeRun_eq_some hStep
    exact (hHistory ▸ List.prefix_append s.2 [b]).trans (ih hRest)

theorem RetentionInv.run {script : Str} {ks kb : Nat} {s s' : FileTree × List BuildRecord}
    (h : RetentionInv P ctx jobName script ks kb s) {runs : List CompleteRun}
    (hRead : ∀ r ∈ runs, r.maintenanceOs.ReadsExitcodes)
    (hRun : run (completeRun P ctx jobName) s runs = some s')
    (hNumbers : ∀ b ∈ s'.2, b.number < 1000000) :
    RetentionInv P ctx jobName script ks kb s' := by
  induction runs generalizing s with
  | nil =>
    cases hRun
    exact h
  | cons r runs ih =>
    obtain ⟨s₁, hStep, hRest⟩ := run_cons_eq_some.mp hRun
    have hNumbers₁ : ∀ b ∈ s₁.2, b.number < 1000000 :=
      fun b hb => hNumbers b ((history_grows hRest).subset hb)
    have hStep' := h.step (hRead r List.mem_cons_self) hStep hNumbers₁
    exact ih hStep' (fun r' hr' => hRead r' (List.mem_cons_of_mem r hr')) hRest

/-- After every sequence of complete runs the builds in the job directory are
the last `ks` successful and the last `kb` broken ones of the history, each
with its exit status and its session. -/
theorem retention_after_runs {script : Str} {ks kb : Nat} {t₀ t : FileTree}
    {history : List BuildRecord} (hConf : Configured P t₀ ctx jobName script ks kb)
    (hEmpty : ∀ n < 1000000, t₀.pathExists (buildDir ctx jobName n) = false)
    (runs : List CompleteRun) (hRead : ∀ r ∈ runs, r.maintenanceOs.ReadsExitcodes)
    (hRun : run (completeRun P ctx jobName) (t₀, []) runs = some (t, history))
    (hNumbers : ∀ b ∈ history, b.number < 1000000) :
    (∀ n < 1000000, t.pathExists (buildDir ctx jobName n) = true ↔
      ∃ b ∈ (successfulOf history).rtake ks ++ (brokenOf history).rtake kb, b.number = n) ∧
    (∀ b ∈ (successfulOf history).rtake ks ++ (brokenOf history).rtake kb,
      Finished ctx jobName t b) ∧
    (((successfulOf history).rtake ks ++ (brokenOf history).rtake kb).map
      BuildRecord.number).Nodup := by
  have hInit : RetentionInv P ctx jobName script ks kb (t₀, []) := by
    refine ⟨hConf, fun n hn => ?_, ?_, ?_, ?_⟩
    · simp [hEmpty n hn, successfulOf, brokenOf]
    · simp [successfulOf, brokenOf]
    · simp [successfulOf]
    · simp [brokenOf]
  have hInv := hInit.run hRead hRun hNumbers
  exact ⟨hInv.onDisk.present, hInv.onDisk.finished, hInv.onDisk.nodup⟩

def demoRun (status : Int32) : CompleteRun :=
  ⟨.ideal ∅, ⟨"x", true⟩, [], fun _ => ∅, false, fun _ => ⟨["hello"], some status⟩, .ideal ∅⟩

theorem retention_after_runs_three :
    ∃ t history, run (completeRun .reference demoContext "j") (demoTree "1" [], [])
        [demoRun 0, demoRun 3, demoRun 0] = some (t, history) ∧
      (∀ n < 1000000, t.pathExists (buildDir demoContext "j" n) = true ↔
        ∃ b ∈ (successfulOf history).rtake 1 ++ (brokenOf history).rtake 1, b.number = n) ∧
      (∀ b ∈ (successfulOf history).rtake 1 ++ (brokenOf history).rtake 1,
        Finished demoContext "j" t b) ∧
      (((successfulOf history).rtake 1 ++ (brokenOf history).rtake 1).map
        BuildRecord.number).Nodup := by
  refine ⟨_, _, rfl, ?_⟩
  refine retention_after_runs (P := .reference) ⟨_, _, _, rfl, rfl, rfl⟩
    (fun n _ => demoTree_no_build "1" n) [demoRun 0, demoRun 3, demoRun 0] ?_ rfl (by decide)
  simp only [List.mem_cons, List.not_mem_nil, or_false, forall_eq_or_imp, forall_eq]
  exact ⟨fun _ => rfl, fun _ => rfl, fun _ => rfl⟩

/-- A system on which the exit codes of builds cannot be read. -/
def unreadableExitcodes : Os :=
  { Os.ideal ∅ with ifstreamFault := fun p => p.head? == some "exitcode.txt".toList }

/-- A maintenance that cannot read the exit codes ends without an error and leaves a build
too many. -/
theorem unreadable_exitcode_keeps_build :
    ∃ t history, run (completeRun .reference demoContext "j") (demoTree "1" [], [])
        [demoRun 0, { demoRun 0 with maintenanceOs := unreadableExitcodes }] = some (t, history) ∧
      (∀ b ∈ history, b.number < 1000000) ∧
      t.pathExists (buildDir demoContext "j" 0) = true ∧
      ¬∃ b ∈ (successfulOf history).rtake 1 ++ (brokenOf history).rtake 1, b.number = 0 :=
  ⟨_, _, rfl, by decide, rfl, by decide⟩

end CisCore
