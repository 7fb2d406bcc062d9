import CisCore.Concurrent.Maintenance
import CisCore.Job.Acceptance
import CisCore.Job.Interrupted

/-! # Several maintenances of one job

Every run of a job starts a maintenance, so that several of them can be at work
at a time. They remove one list of builds from its front, each from where the
others were when it loaded the job.
-/

namespace CisCore

open Transition Fallible

variable {P : ProtoUtils} {ctx : Context} {jobName script : Str}

/-! ### A job whose oldest builds are gone -/

section Removed

variable {os os' : Os} {t : FileTree} {job : Job}

theorem Os.Faultless.surelyExists (hOs : os.Faultless) (t : FileTree) (p : FsPath) :
    os.surelyExists t p = t.pathExists p := by
  rw [Os.surelyExists, Os.pathExists_faultless hOs]

theorem Os.Faultless.openIfstream_congr (hOs : os.Faultless) (hOs' : os'.Faultless) {t t' : FileTree}
    {p : FsPath} (h : t'.find p = t.find p) : os'.openIfstream t' p = os.openIfstream t p := by
  rw [Os.openIfstream, Os.openIfstream, hOs.openIfstream, hOs'.openIfstream, h]

/-- What is below a build that was not removed is as it was. -/
theorem find_removed_of_kept (hLoad : loadJob P os t ctx jobName = .ok job) {removed : List FsPath}
    (hSubset : removed ⊆ job.outdated) {n : Nat} (hKept : buildDir ctx jobName n ∉ removed)
    {q : FsPath} (hBelow : buildDir ctx jobName n <:+ q) :
    (removed.foldl FileTree.removeAll t).find q = t.find q := by
  rw [find_foldl_removeAll, if_neg]
  rintro ⟨dir, hDir, hq⟩
  obtain ⟨m, rfl⟩ := outdated_buildDir hLoad (hSubset hDir)
  obtain rfl | hne := eq_or_ne m n
  · exact hKept hDir
  · exact buildDir_disjoint hne hq hBelow

theorem find_removed_outside (hLoad : loadJob P os t ctx jobName = .ok job) {removed : List FsPath}
    (hSubset : removed ⊆ job.outdated) (name : Str) (hName : isBuild name = false) :
    (removed.foldl FileTree.removeAll t).find (jobPath ctx jobName / name) =
      t.find (jobPath ctx jobName / name) := by
  rw [find_foldl_removeAll, if_neg]
  rintro ⟨dir, hDir, hq⟩
  obtain ⟨n, hLt, rfl⟩ := outdated_number hLoad (hSubset hDir)
  have hne : name ≠ numberString n := by
    rintro rfl
    rw [isBuild_numberString hLt] at hName
    cases hName
  exact FileTree.not_suffix_of_sibling hne List.suffix_rfl hq

theorem loadBuilds_removed (hOs : os.Faultless) (hOs' : os'.Faultless)
    (hLoad : loadJob P os t ctx jobName = .ok job) {removed rest : List FsPath}
    (hDirs : job.outdated = removed ++ rest) :
    loadBuilds os' (removed.foldl FileTree.removeAll t) (jobPath ctx jobName) =
      (job.withoutOldest
        (min removed.length (job.builds.successful.size - job.config.keepSuccessfulBuilds))
        (removed.length - (job.builds.successful.size - job.config.keepSuccessfulBuilds))).builds := by
  obtain ⟨_, _, _, _, _, _, _, _, hBuilds⟩ := loadJob_eq_ok hLoad
  have hSubset : removed ⊆ job.outdated := hDirs ▸ List.subset_append_left removed rest
  have hOldest := eq_oldest_of_prefix (hDirs ▸ List.prefix_append removed rest)
  have hKept : ∀ n, buildDir ctx jobName n ∉ removed →
      (removed.foldl FileTree.removeAll t).pathExists (buildDir ctx jobName n) =
          t.pathExists (buildDir ctx jobName n) ∧
        buildStatus os' (removed.foldl FileTree.removeAll t) (buildDir ctx jobName n) =
          buildStatus os t (buildDir ctx jobName n) := by
    intro n hn
    refine ⟨congrArg Option.isSome (find_removed_of_kept hLoad hSubset hn List.suffix_rfl), ?_⟩
    rw [buildStatus_eq_recorded (hOs'.openIfstream _), buildStatus_eq_recorded (hOs.openIfstream _)]
    exact recordedStatus_congr (find_removed_of_kept hLoad hSubset hn
      (FileTree.suffix_child _ "exitcode.txt".toList))
  apply Builds.ext_get
  intro s n
  apply Option.ext
  intro p
  rw [(loadJob_apart hLoad).find_withoutOldest, ← hOldest, hBuilds, find_loadBuilds, find_loadBuilds]
  constructor
  · rintro ⟨hLt, rfl, hExists, hSeen⟩
    have hn : buildDir ctx jobName n ∉ removed := by
      intro hMem
      rw [← buildDir, FileTree.pathExists, find_foldl_removeAll,
        if_pos ⟨_, hMem, List.suffix_rfl⟩] at hExists
      cases hExists
    exact ⟨⟨hLt, rfl, (hKept n hn).1.symm.trans hExists, (hKept n hn).2.symm.trans hSeen⟩, hn⟩
  · rintro ⟨⟨hLt, rfl, hExists, hSeen⟩, hn⟩
    exact ⟨hLt, rfl, (hKept n hn).1.trans hExists, (hKept n hn).2.trans hSeen⟩

/-- A job that is loaded when some of its outdated builds are gone finds the
others outdated. -/
theorem loadJob_removed (hOs : os.Faultless) (hOs' : os'.Faultless)
    (hLoad : loadJob P os t ctx jobName = .ok job) (hScript : isBuild job.config.script = false)
    {removed rest : List FsPath} (hDirs : job.outdated = removed ++ rest) :
    ∃ job', loadJob P os' (removed.foldl FileTree.removeAll t) ctx jobName = .ok job' ∧
      job'.outdated = rest := by
  have hSubset : removed ⊆ job.outdated := hDirs ▸ List.subset_append_left removed rest
  have hBuilds := loadBuilds_removed hOs hOs' hLoad hDirs
  have hConf := find_removed_outside hLoad hSubset "job.conf".toList (by decide)
  have hParams := find_removed_outside hLoad hSubset "job.params".toList (by decide)
  have hFind := find_removed_outside hLoad hSubset _ hScript
  have hPath : (removed.foldl FileTree.removeAll t).find (jobPath ctx jobName) =
      t.find (jobPath ctx jobName) := by
    rw [find_foldl_removeAll, if_neg]
    rintro ⟨dir, hDir, hq⟩
    obtain ⟨n, rfl⟩ := outdated_buildDir hLoad (hSubset hDir)
    have hLength := hq.length_le
    simp [buildDir] at hLength
  have hLoaded := hLoad
  simp only [loadJob, loadConfig, bind_eq_ok, orThrow_eq_ok, require_eq_ok, pure_eq_ok] at hLoaded
  obtain ⟨_, hExists, _, ⟨text, hText, conf, hRead, counts, hCounts, _, hThere, params, hLoadParams,
    rfl⟩, rfl⟩ := hLoaded
  refine ⟨_, ?_, outdated_withoutOldest hDirs⟩
  simp only [loadJob, loadConfig, bind_eq_ok, orThrow_eq_ok, require_eq_ok, pure_eq_ok]
  refine ⟨(), ?_, _, ⟨text, ?_, conf, hRead, counts, hCounts, (), ?_, params, ?_, rfl⟩, ?_⟩
  · rw [hOs'.surelyExists, FileTree.pathExists, hPath]
    rw [hOs.surelyExists] at hExists
    exact hExists
  · exact (hOs.openIfstream_congr hOs' hConf).trans hText
  · rw [hOs'.surelyExists, FileTree.pathExists, hFind]
    rw [hOs.surelyExists] at hThere
    exact hThere
  · have hStream : os'.openIfstream (removed.foldl FileTree.removeAll t)
        (jobPath ctx jobName / "job.params") = os.openIfstream t (jobPath ctx jobName / "job.params") :=
      hOs.openIfstream_congr hOs' hParams
    rw [loadParams, hStream]
    exact hLoadParams
  · rw [hBuilds]
    rfl

end Removed

/-! ### The steps of several maintenances -/

/-- The tree without the first `count` of the directories. -/
def FileTree.without (t : FileTree) (dirs : List FsPath) (count : Nat) : FileTree :=
  (dirs.take count).foldl FileTree.removeAll t

theorem removeAll_without_again {t : FileTree} {dirs : List FsPath} {dir : FsPath} {count : Nat}
    (h : dir ∈ dirs.take count) :
    (FileTree.without t dirs count).removeAll dir = FileTree.without t dirs count := by
  apply SortedMap.ext_find
  intro q
  rw [FileTree.find_removeAll]
  split_ifs with hBelow
  · exact ((find_foldl_removeAll _ t q).trans (if_pos ⟨dir, h, hBelow⟩)).symm
  · rfl

theorem removeAll_without_next {t : FileTree} {dirs plan : List FsPath} {dir : FsPath} {count : Nat}
    (h : dirs.drop count = dir :: plan) :
    (FileTree.without t dirs count).removeAll dir = FileTree.without t dirs (count + 1) := by
  have hGet : dirs[count]? = some dir := by
    rw [← List.head?_drop, h, List.head?_cons]
  rw [FileTree.without, FileTree.without, List.take_add_one, hGet, Option.toList_some,
    List.foldl_append, List.foldl_cons, List.foldl_nil]

/-- How many steps a process can still take when its plan has at most `bound` builds. -/
def MaintainStage.left (bound : Nat) : MaintainStage → Nat
  | start => bound + 2
  | removing plan => plan.length + 1
  | ended _ => 0

theorem maintainStep_left {os : Os} {t t' : FileTree} {stage stage' : MaintainStage} {bound : Nat}
    (h : maintainStep P ctx jobName os t stage = some (t', stage'))
    (hPlan : ∀ plan, stage' = .removing plan → plan.length ≤ bound) :
    stage'.left bound < stage.left bound := by
  cases stage with
  | start =>
    cases stage' with
    | start =>
      simp only [maintainStep] at h
      split at h <;> cases h
    | removing plan => exact Nat.succ_lt_succ (Nat.lt_succ_of_le (hPlan plan rfl))
    | ended ec => exact Nat.succ_pos _
  | ended ec => cases h
  | removing plan =>
    cases plan with
    | nil =>
      cases h
      exact Nat.succ_pos _
    | cons dir plan =>
      simp only [maintainStep] at h
      split at h
      · cases h
        exact Nat.succ_pos _
      · cases h
        exact Nat.lt_succ_self _

variable {ι κ : Type} [DecidableEq ι] [DecidableEq κ] {starters : ι → Starter} {maintainers : κ → Os}

/-- The builds that are gone are the first `count` of `dirs`; every process has
removed some of these, and all of `dirs` when it has ended. -/
structure Site.Progress (dirs : List FsPath) (t₀ : FileTree) (s : Site ι κ) (count : Nat) : Prop where
  le : count ≤ dirs.length
  tree : s.tree = FileTree.without t₀ dirs count
  planned : ∀ k plan, s.maintains k = .removing plan → ∃ done ≤ count, plan = dirs.drop done
  ended : ∀ k ec, s.maintains k = .ended ec → ec = none ∧ count = dirs.length

omit [DecidableEq ι] in
theorem Site.Progress.restage {dirs : List FsPath} {t₀ : FileTree} {s : Site ι κ} {count count' : Nat}
    (h : s.Progress dirs t₀ count) (hMore : count ≤ count') (hLe : count' ≤ dirs.length) {k : κ}
    {stage : MaintainStage}
    (hPlanned : ∀ plan, stage = .removing plan → ∃ done ≤ count', plan = dirs.drop done)
    (hEnded : ∀ ec, stage = .ended ec → ec = none ∧ count' = dirs.length) :
    (⟨FileTree.without t₀ dirs count', s.starts, Function.update s.maintains k stage⟩ :
      Site ι κ).Progress dirs t₀ count' where
  le := hLe
  tree := rfl
  planned l plan hl := by
    obtain rfl | hne := eq_or_ne l k
    · simp only [Function.update_self] at hl
      exact hPlanned plan hl
    · simp only [Function.update_of_ne hne] at hl
      obtain ⟨done, hDone, hPlan⟩ := h.planned l plan hl
      exact ⟨done, hDone.trans hMore, hPlan⟩
  ended l ec hl := by
    obtain rfl | hne := eq_or_ne l k
    · simp only [Function.update_self] at hl
      exact hEnded ec hl
    · simp only [Function.update_of_ne hne] at hl
      obtain ⟨hClear, hAll⟩ := h.ended l ec hl
      exact ⟨hClear, le_antisymm hLe (hAll ▸ hMore)⟩

/-- Each process has at least `left` steps of its own before it. -/
structure Site.Agreed (dirs : List FsPath) (t₀ : FileTree) (order : List κ) (s : Site ι κ) : Prop where
  progress : ∃ count, s.Progress dirs t₀ count
  steps : ∀ k, order.count k + (s.maintains k).left dirs.length ≤ dirs.length + 2

section Runs

variable {os : Os} {t₀ : FileTree} {job : Job} (hOs : os.Faultless)
  (hMaintainers : ∀ k, (maintainers k).Faultless)
  (hLoad : loadJob P os t₀ ctx jobName = .ok job) (hScript : isBuild job.config.script = false)
include hOs hMaintainers hLoad hScript

theorem Site.Progress.step {s s' : Site ι κ} {count : Nat} (h : s.Progress job.outdated t₀ count)
    {k : κ} (hStep : s.step P ctx jobName script starters maintainers (.maintain k) = some s') :
    ∃ count', s'.Progress job.outdated t₀ count' := by
  obtain ⟨⟨t', stage'⟩, hOne, rfl⟩ := Option.map_eq_some_iff.mp hStep
  rw [h.tree] at hOne
  cases hStage : s.maintains k with
  | start =>
    obtain ⟨job', hLoad', hRest⟩ := loadJob_removed hOs (hMaintainers k) hLoad hScript
      (List.take_append_drop count job.outdated).symm
    rw [hStage] at hOne
    simp only [maintainStep, FileTree.without, hLoad'] at hOne
    cases hOne
    refine ⟨count, h.restage le_rfl h.le (fun plan hPlan => ?_) fun ec hEnded => by cases hEnded⟩
    cases hPlan
    exact ⟨count, le_rfl, hRest⟩
  | ended ec =>
    rw [hStage] at hOne
    cases hOne
  | removing plan =>
    obtain ⟨done, hDone, rfl⟩ := h.planned k plan hStage
    rw [hStage] at hOne
    cases hPlan : job.outdated.drop done with
    | nil =>
      rw [hPlan] at hOne
      cases hOne
      have hAll : count = job.outdated.length :=
        le_antisymm h.le ((List.drop_eq_nil_iff.mp hPlan).trans hDone)
      refine ⟨count, h.restage le_rfl h.le (fun plan hRemoving => by cases hRemoving) fun ec hEnded => ?_⟩
      cases hEnded
      exact ⟨rfl, hAll⟩
    | cons dir plan =>
      rw [hPlan] at hOne
      simp only [maintainStep, Os.removeAll, (hMaintainers k).removeAll] at hOne
      cases hOne
      have hRest : plan = job.outdated.drop (done + 1) := by
        rw [← List.tail_drop, hPlan, List.tail_cons]
      have hLt : done < job.outdated.length := by
        rw [← not_le, ← List.drop_eq_nil_iff, hPlan]
        simp
      obtain rfl | hBehind := hDone.eq_or_lt
      · -- this process is as far as any other one
        rw [removeAll_without_next hPlan]
        refine ⟨done + 1, h.restage (Nat.le_succ done) hLt (fun rest hRemoving => ?_)
          fun ec hEnded => by cases hEnded⟩
        cases hRemoving
        exact ⟨done + 1, le_rfl, hRest⟩
      · have hGone : dir ∈ job.outdated.take count := by
          have hGet : job.outdated[done]? = some dir := by
            rw [← List.head?_drop, hPlan, List.head?_cons]
          exact List.mem_of_getElem? ((List.getElem?_take_of_lt hBehind).trans hGet)
        rw [removeAll_without_again hGone]
        refine ⟨count, h.restage le_rfl h.le (fun rest hRemoving => ?_)
          fun ec hEnded => by cases hEnded⟩
        cases hRemoving
        exact ⟨done + 1, hBehind, hRest⟩

theorem Site.Agreed.step {order : List κ} {s s' : Site ι κ} {k : κ}
    (h : s.Agreed job.outdated t₀ order)
    (hStep : s.step P ctx jobName script starters maintainers (.maintain k) = some s') :
    s'.Agreed job.outdated t₀ (order ++ [k]) := by
  obtain ⟨count, hProgress⟩ := h.progress
  obtain ⟨count', hProgress'⟩ := hProgress.step hOs hMaintainers hLoad hScript hStep
  refine ⟨⟨count', hProgress'⟩, fun l => ?_⟩
  obtain ⟨⟨t', stage'⟩, hOne, rfl⟩ := Option.map_eq_some_iff.mp hStep
  have hBefore := h.steps l
  obtain rfl | hne := eq_or_ne l k
  · have hLess := maintainStep_left hOne fun plan hPlan => by
      obtain ⟨done, _, rfl⟩ := hProgress'.planned l plan (by simp only [Function.update_self, hPlan])
      rw [List.length_drop]
      exact Nat.sub_le _ _
    simp only [Function.update_self, List.count_append, List.count_singleton_self]
    omega
  · simp only [Function.update_of_ne hne, List.count_append, List.count_singleton,
      beq_eq_false_iff_ne.mpr (Ne.symm hne), Bool.false_eq_true, if_false]
    exact hBefore

/-- Maintenances of one job that take their steps in any order remove its outdated
builds one after the other, the oldest first. Each ends without an error after a
bounded number of its own steps, and then the job directory is as a single
maintenance would have left it. -/
theorem maintenances_agree {starts : ι → StartStage} {order : List κ} {s : Site ι κ}
    (hRun : run (fun (s : Site ι κ) k => s.step P ctx jobName script starters maintainers (.maintain k))
      ⟨t₀, starts, fun _ => .start⟩ order = some s) :
    (∃ count ≤ job.outdated.length,
      s.tree = (job.outdated.take count).foldl FileTree.removeAll t₀ ∧
      ∀ k plan, s.maintains k = .removing plan → ∃ done ≤ count, plan = job.outdated.drop done) ∧
    (∀ k ec, s.maintains k = .ended ec →
      ec = none ∧ s.tree = (maintenanceMain P os t₀ ctx jobName).1) ∧
    ∀ k, job.outdated.length + 2 ≤ order.count k → ∃ ec, s.maintains k = .ended ec := by
  have hStart : (⟨t₀, starts, fun _ => .start⟩ : Site ι κ).Progress job.outdated t₀ 0 :=
    ⟨Nat.zero_le _, rfl, fun k plan hPlan => (by cases hPlan), fun k ec hEnded => (by cases hEnded)⟩
  have hStep : ∀ order (s : Site ι κ) k s', s.Agreed job.outdated t₀ order →
      s.step P ctx jobName script starters maintainers (.maintain k) = some s' →
      s'.Agreed job.outdated t₀ (order ++ [k]) :=
    fun _ _ _ _ h hOne => h.step hOs hMaintainers hLoad hScript hOne
  have hAgreed := history hStep ⟨⟨0, hStart⟩, fun k => by simp [MaintainStage.left]⟩ hRun
  obtain ⟨count, h⟩ := hAgreed.progress
  refine ⟨⟨count, h.le, h.tree, h.planned⟩, fun k ec hEnded => ?_, fun k hMany => ?_⟩
  · obtain ⟨hClear, hAll⟩ := h.ended k ec hEnded
    refine ⟨hClear, h.tree.trans ?_⟩
    simp only [maintenanceMain, hLoad, cleanup_faultless fun dir _ => hOs.removeAll dir]
    rw [FileTree.without, hAll, List.take_length]
  · have hLeft : (s.maintains k).left job.outdated.length = 0 := by
      have hBound := hAgreed.steps k
      omega
    cases hStage : s.maintains k with
    | ended ec => exact ⟨ec, rfl⟩
    | start => simp [hStage, MaintainStage.left] at hLeft
    | removing plan => simp [hStage, MaintainStage.left] at hLeft

end Runs

theorem maintenances_agree_two :
    ∃ s : Site Empty Bool,
      run (fun (s : Site Empty Bool) k => s.step .reference demoContext "j" "s" nofun
          (fun _ => .ideal ∅) (.maintain k))
        ⟨demoTree "0" (finishedBuild 0 ++ finishedBuild 1), nofun, fun _ => .start⟩
        [false, false, true, true, false, false, true] = some s ∧
      s.maintains false = .ended none ∧ s.maintains true = .ended none ∧
      s.tree = (maintenanceMain .reference (.ideal ∅)
        (demoTree "0" (finishedBuild 0 ++ finishedBuild 1)) demoContext "j").1 := by
  have hLoad : loadJob .reference (.ideal ∅) (demoTree "0" (finishedBuild 0 ++ finishedBuild 1))
    demoContext "j" = .ok _ := rfl
  have hRun : run (fun (s : Site Empty Bool) k => s.step .reference demoContext "j" "s" nofun
      (fun _ => .ideal ∅) (.maintain k))
    ⟨demoTree "0" (finishedBuild 0 ++ finishedBuild 1), nofun, fun _ => .start⟩
    [false, false, true, true, false, false, true] = some _ := rfl
  obtain ⟨_, hEnded, _⟩ := maintenances_agree (Os.ideal_faultless ∅) (fun _ => Os.ideal_faultless ∅)
    hLoad rfl hRun
  exact ⟨_, hRun, rfl, rfl, (hEnded false none rfl).2⟩

end CisCore
