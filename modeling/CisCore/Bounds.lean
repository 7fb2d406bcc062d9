import CisCore.Job.Cleanup
import CisCore.Library.Transition
import CisCore.Startjob

/-! # The size of a job directory

Maintenance bounds the builds with a recorded exit status. A build without one
is pending for ever: every run of `startjob` that records no status may leave
one more such directory, and no maintenance removes it.
-/

namespace CisCore

open Transition

structure StartjobRun where
  os : Os
  freshId : Str
  args : StartjobArgs
  stdin : List Str
  script : Launch → ScriptRun

inductive JobEvent where
  | startjob (r : StartjobRun)
  | maintenance (os : Os)

section Model

variable (P : ProtoUtils) (ctx : Context) (jobName : Str)

/-- The file tree and the number of `startjob` runs that recorded no status. -/
def jobEvent (s : FileTree × Nat) : JobEvent → Option (FileTree × Nat)
  | .startjob r =>
    let result := startjob P r.os s.1 ctx r.freshId { r.args with jobName := jobName } r.stdin r.script
    some (result.tree, if result.recorded = none then s.2 + 1 else s.2)
  | .maintenance os => some ((maintenanceMain P os s.1 ctx jobName).1, s.2)

def JobEvent.AtomicRemoval : JobEvent → Prop
  | .startjob _ => True
  | .maintenance os => os.AtomicRemoval

end Model

variable {P : ProtoUtils} {ctx : Context} {jobName : Str}

theorem card_buildNumbers_le (ctx : Context) (jobName : Str) (t : FileTree) :
    (buildNumbers ctx jobName t).card ≤ (numbersWith ctx jobName .successful t).card +
      (numbersWith ctx jobName .broken t).card + (numbersWith ctx jobName .pending t).card := by
  have hCover : buildNumbers ctx jobName t ⊆ (numbersWith ctx jobName .successful t ∪
      numbersWith ctx jobName .broken t) ∪ numbersWith ctx jobName .pending t := by
    intro n hn
    rw [Finset.mem_union, Finset.mem_union, mem_numbersWith, mem_numbersWith, mem_numbersWith]
    have hn' := mem_buildNumbers.mp hn
    cases hStatus : recordedStatus t (buildDir ctx jobName n) with
    | successful => exact Or.inl (Or.inl ⟨hn', rfl⟩)
    | broken => exact Or.inl (Or.inr ⟨hn', rfl⟩)
    | pending => exact Or.inr ⟨hn', rfl⟩
  have hUnion := Finset.card_union_le
    (numbersWith ctx jobName .successful t ∪ numbersWith ctx jobName .broken t)
    (numbersWith ctx jobName .pending t)
  have hUnion' := Finset.card_union_le (numbersWith ctx jobName .successful t)
    (numbersWith ctx jobName .broken t)
  have hCard := Finset.card_le_card hCover
  omega

/-! ### One event -/

/-- Of the jobs' files, a run touches only those of its own build. -/
theorem startjob_sameOutside (P : ProtoUtils) (ctx : Context) (os : Os) (t : FileTree)
    (freshId : Str) (args : StartjobArgs)
    (stdin : List Str) (script : Launch → ScriptRun) :
    FileTree.SameOutside (fun q => (∃ session, q = sessionDat ctx session) ∨
        buildDir ctx args.jobName (nextBuildNumber t (jobPath ctx args.jobName)) <:+ q) t
      (startjob P os t ctx freshId args stdin script).tree := by
  rcases startjob_effect P os t ctx freshId args stdin script with
    ⟨hTree, _⟩ | ⟨job, session, params, env, hLoad, _, hTree⟩
  · rw [hTree]
    exact FileTree.SameOutside.refl _ t
  · have hRun := runBuild_sameOutside P os (loadJob_placed hLoad) t session params env args.force script
    rw [loadJob_name hLoad] at hRun
    exact (hRun.mono fun _ hq => Or.inr hq).trans (hTree.mono fun _ hq => Or.inl ⟨session, hq⟩)

theorem startjob_other_builds (P : ProtoUtils) (ctx : Context) (os : Os) (t : FileTree)
    (freshId : Str) (args : StartjobArgs)
    (stdin : List Str) (script : Launch → ScriptRun) (n : Nat)
    (hne : n ≠ nextBuildNumber t (jobPath ctx args.jobName)) :
    ∀ q, buildDir ctx args.jobName n <:+ q →
      (startjob P os t ctx freshId args stdin script).tree.find q = t.find q := by
  intro q hq
  apply startjob_sameOutside P ctx os t freshId args stdin script
  rintro (⟨session, rfl⟩ | hOwn)
  · exact not_buildDir_suffix_sessionDat ctx session args.jobName n hq
  · exact buildDir_disjoint hne hq hOwn

theorem startjob_recorded (P : ProtoUtils) (ctx : Context) (os : Os) (t : FileTree)
    (freshId : Str) (args : StartjobArgs)
    (stdin : List Str) (script : Launch → ScriptRun) (e : Int32)
    (h : (startjob P os t ctx freshId args stdin script).recorded = some e) :
    recordedStatus (startjob P os t ctx freshId args stdin script).tree
      (buildDir ctx args.jobName (nextBuildNumber t (jobPath ctx args.jobName))) ≠ .pending := by
  rcases startjob_effect P os t ctx freshId args stdin script with
    ⟨_, hNone⟩ | ⟨job, session, params, env, hLoad, hRecorded, hTree⟩
  · rw [h] at hNone
    cases hNone
  · rw [h] at hRecorded
    obtain ⟨n, hNumber, _, _, _, _, hExitcode, _⟩ := runBuild_recorded P os (loadJob_placed hLoad)
      t session params env args.force script hRecorded.symm
    rw [loadJob_name hLoad] at hNumber hExitcode
    have hSession : ¬(buildDir ctx args.jobName n / "exitcode.txt" = sessionDat ctx session) :=
      fun hEq => not_buildDir_suffix_sessionDat ctx session args.jobName n
        (hEq ▸ FileTree.suffix_child _ _)
    rw [← hNumber, recordedStatus_exitcodeText ((hTree.content_eq hSession).trans hExitcode)]
    split_ifs <;> simp

theorem maintenance_other_builds {os : Os} (hAtomic : os.AtomicRemoval) (t : FileTree) {n : Nat}
    (hExists : (maintenanceMain P os t ctx jobName).1.pathExists (buildDir ctx jobName n) = true) :
    ∀ q, buildDir ctx jobName n <:+ q →
      (maintenanceMain P os t ctx jobName).1.find q = t.find q := by
  obtain ⟨dirs, hDirs, hTree⟩ := maintenanceMain_tree P hAtomic t ctx jobName
  rw [hTree] at hExists ⊢
  exact find_of_survivor hDirs hExists

/-- The directory never holds more builds without a status than it had at the
start and than there were runs that recorded none. -/
def PendingBound (ctx : Context) (jobName : Str) (start : Nat) (s : FileTree × Nat) : Prop :=
  (numbersWith ctx jobName .pending s.1).card ≤ start + s.2

theorem PendingBound.step {start : Nat} {s s' : FileTree × Nat} {event : JobEvent}
    (h : PendingBound ctx jobName start s) (hAtomic : event.AtomicRemoval)
    (hStep : jobEvent P ctx jobName s event = some s') : PendingBound ctx jobName start s' := by
  unfold PendingBound at h ⊢
  cases event with
  | startjob r =>
    cases hStep
    have hOther := startjob_other_builds P ctx r.os s.1 r.freshId
      { r.args with jobName := jobName } r.stdin r.script
    have hNew := startjob_recorded P ctx r.os s.1 r.freshId
      { r.args with jobName := jobName } r.stdin r.script
    simp only at hOther hNew ⊢
    generalize startjob P r.os s.1 ctx r.freshId { r.args with jobName := jobName } r.stdin
      r.script = result at hOther hNew ⊢
    cases hRecorded : result.recorded with
    | none =>
      -- at most the new number is added
      have hSubset : numbersWith ctx jobName .pending result.tree ⊆
          insert (nextBuildNumber s.1 (jobPath ctx jobName)) (numbersWith ctx jobName .pending s.1) := by
        intro n hn
        obtain rfl | hne := eq_or_ne n (nextBuildNumber s.1 (jobPath ctx jobName))
        · exact Finset.mem_insert_self _ _
        · exact Finset.mem_insert_of_mem ((mem_numbersWith_congr (hOther n hne)).mp hn)
      have hCard := (Finset.card_le_card hSubset).trans (Finset.card_insert_le _ _)
      rw [if_pos rfl]
      omega
    | some e =>
      have hSubset : numbersWith ctx jobName .pending result.tree ⊆
          numbersWith ctx jobName .pending s.1 := by
        intro n hn
        obtain rfl | hne := eq_or_ne n (nextBuildNumber s.1 (jobPath ctx jobName))
        · exact absurd (mem_numbersWith.mp hn).2 (hNew e hRecorded)
        · exact (mem_numbersWith_congr (hOther n hne)).mp hn
      rw [if_neg (by simp)]
      exact (Finset.card_le_card hSubset).trans h
  | maintenance os =>
    cases hStep
    refine le_trans (Finset.card_le_card ?_) h
    intro n hn
    have hOther := maintenance_other_builds hAtomic s.1 (mem_numbersWith.mp hn).1.2
    exact (mem_numbersWith_congr hOther).mp hn

theorem Configured.jobEvent {script : Str} {ks kb : Nat} {s s' : FileTree × Nat} {event : JobEvent}
    (h : Configured P s.1 ctx jobName script ks kb) (hAtomic : event.AtomicRemoval)
    (hStep : jobEvent P ctx jobName s event = some s') :
    Configured P s'.1 ctx jobName script ks kb := by
  have hBuild := not_buildDir_suffix_jobConf ctx jobName
  cases event with
  | startjob r =>
    cases hStep
    apply h.of_same
    apply startjob_sameOutside P ctx r.os s.1 r.freshId { r.args with jobName := jobName } r.stdin
      r.script
    rintro (⟨session, hSession⟩ | hOwn)
    · have hLength := congrArg List.length hSession
      simp [jobPath, sessionDat] at hLength
    · exact hBuild _ hOwn
  | maintenance os =>
    cases hStep
    apply h.of_same
    obtain ⟨dirs, hDirs, hTree⟩ := maintenanceMain_tree P hAtomic s.1 ctx jobName
    rw [hTree, find_foldl_removeAll, if_neg]
    rintro ⟨dir, hDir, hBelow⟩
    obtain ⟨n, rfl⟩ := hDirs dir hDir
    exact hBuild n hBelow

/-! ### Whole runs -/

theorem card_numbersWith_le {os : Os} (hRead : ∀ p, os.ifstreamFault p = false) {t : FileTree}
    {dirs : List FsPath} (hDirs : ∀ dir ∈ dirs, ∃ n, dir = buildDir ctx jobName n)
    {status : BuildStatus} {keep : Nat}
    (hOutdated : ∀ dir ∈ outdated ((loadBuilds os t (jobPath ctx jobName)).get status) keep,
      dir ∈ dirs) :
    (numbersWith ctx jobName status (dirs.foldl FileTree.removeAll t)).card ≤ keep := by
  have hSubset : numbersWith ctx jobName status (dirs.foldl FileTree.removeAll t) ⊆
      ((((loadBuilds os t (jobPath ctx jobName)).get status).entries.drop
        (((loadBuilds os t (jobPath ctx jobName)).get status).size - keep)).map Prod.fst).toFinset := by
    intro n hn
    have hSurvivor := (mem_numbersWith.mp hn).1.2
    obtain ⟨⟨hLt, hExists⟩, hStatus⟩ :=
      mem_numbersWith.mp ((mem_numbersWith_congr (find_of_survivor hDirs hSurvivor)).mp hn)
    have hFind : ((loadBuilds os t (jobPath ctx jobName)).get status).find n =
        some (buildDir ctx jobName n) :=
      find_loadBuilds.mpr ⟨hLt, rfl, hExists, (buildStatus_eq_recorded (hRead _) t).trans hStatus⟩
    have hMem := SortedMap.find_eq_some_iff.mp hFind
    rw [← List.take_append_drop (((loadBuilds os t (jobPath ctx jobName)).get status).size - keep)
      ((loadBuilds os t (jobPath ctx jobName)).get status).entries] at hMem
    rw [List.mem_toFinset, List.mem_map]
    obtain hTake | hDrop := List.mem_append.mp hMem
    · -- the build would have been removed
      have hRemoved := hOutdated _ (List.mem_map_of_mem hTake)
      rw [FileTree.pathExists, find_foldl_removeAll, if_pos ⟨_, hRemoved, List.suffix_rfl⟩] at hSurvivor
      cases hSurvivor
    · exact ⟨_, hDrop, rfl⟩
  have hCard := (Finset.card_le_card hSubset).trans (List.toFinset_card_le _)
  rw [List.length_map, List.length_drop, SortedMap.size] at hCard
  omega

def demoStart (status : Option Int32) : JobEvent :=
  .startjob ⟨.ideal ∅, "id", ⟨"j", false, false, none⟩, [], fun _ => ⟨[], status⟩⟩

end CisCore
