import CisCore.Concurrent.Site
import CisCore.Library.Order

/-! # Maintenance next to running builds

A plan of a maintenance process may be old when it is carried out. As long as
no planned number is used again, everything in a plan is outdated at any time.
-/

namespace CisCore

open Transition

def keepOf (ks kb : Nat) : BuildStatus → Nat
  | .successful => ks
  | .broken => kb
  | .pending => 0

section Model

variable (ctx : Context) (jobName script : Str) {ι κ : Type}

/-- The directory of a build that is being prepared or run. -/
structure Taken (t : FileTree) (maintains : κ → MaintainStage) (n : Nat) : Prop where
  dir : t.find (buildDir ctx jobName n) = some .directory
  script : (t.find (buildDir ctx jobName n / script)).isSome
  exitcode : n < 1000000 → t.find (buildDir ctx jobName n / "exitcode.txt") = none
  notPlanned : n < 1000000 → NotPlanned ctx jobName maintains n

/-- The directory of a picked number, if it is there, belongs to a build or is
fresh. -/
def Vacant (t : FileTree) (maintains : κ → MaintainStage) (n : Nat) : Prop :=
  n < 1000000 → t.find (buildDir ctx jobName n) = some .directory →
    (t.find (buildDir ctx jobName n / script)).isSome ∨
      (t.find (buildDir ctx jobName n / "exitcode.txt") = none ∧ NotPlanned ctx jobName maintains n)

/-- Outdated: enough builds of the same kind have a larger number, and if the
directory is there it is one of them. -/
def Outdated (ks kb : Nat) (t : FileTree) (dir : FsPath) : Prop :=
  ∃ n status, dir = buildDir ctx jobName n ∧ n < 1000000 ∧ status ≠ .pending ∧
    (t.pathExists dir = true → recordedStatus t dir = status) ∧
    keepOf ks kb status ≤ (Largest.above (numbersWith ctx jobName status t) n).card

variable (P : ProtoUtils) (ks kb : Nat)

structure Site.Inv (s : Site ι κ) : Prop where
  configured : Configured P s.tree ctx jobName script ks kb
  exitDirs : ∀ n, (s.tree.find (buildDir ctx jobName n / "exitcode.txt")).isSome →
    s.tree.find (buildDir ctx jobName n) = some .directory
  taken : ∀ i n, (s.starts i).owned = some n → Taken ctx jobName script s.tree s.maintains n
  exclusive : ∀ i j n, (s.starts i).owned = some n → (s.starts j).owned = some n → i = j
  vacant : ∀ i n, (s.starts i).number = some n → Vacant ctx jobName script s.tree s.maintains n
  planned : ∀ k plan, s.maintains k = .removing plan → ∀ dir ∈ plan,
    Outdated ctx jobName ks kb s.tree dir

end Model

variable {P : ProtoUtils} {ctx : Context} {jobName script : Str} {ks kb : Nat}

/-! ### Trees that change quietly -/

section Quiet

variable {κ : Type} {t t' : FileTree} {fresh : Option Nat} (hQuiet : Quiet ctx jobName fresh t t')
include hQuiet

theorem Quiet.numbersWith_subset (status : BuildStatus) :
    numbersWith ctx jobName status t ⊆ numbersWith ctx jobName status t' := by
  intro n hn
  obtain ⟨⟨hLt, hExists⟩, hStatus⟩ := mem_numbersWith.mp hn
  exact mem_numbersWith.mpr ⟨⟨hLt, hQuiet.isSome _ hExists⟩,
    (recordedStatus_congr (hQuiet.exitcode n)).trans hStatus⟩

theorem Taken.quiet {maintains : κ → MaintainStage} {n : Nat}
    (h : Taken ctx jobName script t maintains n) : Taken ctx jobName script t' maintains n where
  dir := hQuiet.kept _ _ h.dir
  script := hQuiet.isSome _ h.script
  exitcode hLt := (hQuiet.exitcode n).trans (h.exitcode hLt)
  notPlanned := h.notPlanned

theorem Outdated.quiet {dir : FsPath} (h : Outdated ctx jobName ks kb t dir)
    (hFresh : ∀ n, fresh = some n → dir ≠ buildDir ctx jobName n) :
    Outdated ctx jobName ks kb t' dir := by
  obtain ⟨n, status, rfl, hLt, hStatus, hSame, hKeep⟩ := h
  refine ⟨n, status, rfl, hLt, hStatus, ?_, ?_⟩
  · intro hExists
    rw [recordedStatus_congr (hQuiet.exitcode n)]
    exact hSame ((hQuiet.dirs n hExists).resolve_right fun hn => hFresh n hn rfl)
  · exact hKeep.trans (Largest.card_above_mono (hQuiet.numbersWith_subset status) n)

end Quiet

section Moves

variable {ι κ : Type} {s : Site ι κ}

theorem Site.Inv.quiet (h : s.Inv ctx jobName script P ks kb) {t' : FileTree} {fresh : Option Nat}
    (hQuiet : Quiet ctx jobName fresh s.tree t')
    (hFresh : ∀ n, fresh = some n → s.tree.find (buildDir ctx jobName n) = none ∧
      NotPlanned ctx jobName s.maintains n) :
    (⟨t', s.starts, s.maintains⟩ : Site ι κ).Inv ctx jobName script P ks kb where
  configured := by
    obtain ⟨text, executable, conf, hFind, hRest⟩ := h.configured
    exact ⟨text, executable, conf, hQuiet.kept "job.conf".toList _ hFind, hRest⟩
  exitDirs n hn := by
    rw [hQuiet.exitcode] at hn
    exact hQuiet.kept _ _ (h.exitDirs n hn)
  taken i n hOwned := (h.taken i n hOwned).quiet hQuiet
  exclusive := h.exclusive
  vacant i n hNumber hLt hDir := by
    obtain hSome | hNew := hQuiet.dirs n (by rw [hDir]; rfl)
    · obtain ⟨node, hNode⟩ := Option.isSome_iff_exists.mp hSome
      have hSame : node = .directory := by
        have hKept := hQuiet.kept _ _ hNode
        rw [show t'.find (jobPath ctx jobName / numberString n) = _ from hDir] at hKept
        exact (Option.some.inj hKept).symm
      obtain hScript | ⟨hExit, hNot⟩ := h.vacant i n hNumber hLt (hSame ▸ hNode)
      · exact Or.inl (hQuiet.isSome _ hScript)
      · exact Or.inr ⟨(hQuiet.exitcode n).trans hExit, hNot⟩
    · obtain ⟨hNone, hNot⟩ := hFresh n hNew
      refine Or.inr ⟨?_, hNot⟩
      rw [hQuiet.exitcode, ← Option.not_isSome_iff_eq_none]
      intro hSome
      have hOld := h.exitDirs n hSome
      rw [hNone] at hOld
      cases hOld
  planned k plan hk dir hDir := by
    apply (h.planned k plan hk dir hDir).quiet hQuiet
    rintro n hn rfl
    exact (hFresh n hn).2 k plan hk hDir

theorem Site.Inv.restage [DecidableEq ι] (h : s.Inv ctx jobName script P ks kb) {i : ι}
    {stage : StartStage}
    (hTaken : ∀ n, stage.owned = some n → Taken ctx jobName script s.tree s.maintains n)
    (hFree : ∀ j n, j ≠ i → (s.starts j).owned = some n → stage.owned ≠ some n)
    (hVacant : ∀ n, stage.number = some n → Vacant ctx jobName script s.tree s.maintains n) :
    (⟨s.tree, Function.update s.starts i stage, s.maintains⟩ : Site ι κ).Inv ctx jobName script
      P ks kb where
  configured := h.configured
  exitDirs := h.exitDirs
  taken j n hOwned := by
    obtain rfl | hne := eq_or_ne j i
    · simp only [Function.update_self] at hOwned
      exact hTaken n hOwned
    · simp only [Function.update_of_ne hne] at hOwned
      exact h.taken j n hOwned
  exclusive := exclusive_update h.exclusive hFree
  vacant j n hNumber := by
    obtain rfl | hne := eq_or_ne j i
    · simp only [Function.update_self] at hNumber
      exact hVacant n hNumber
    · simp only [Function.update_of_ne hne] at hNumber
      exact h.vacant j n hNumber
  planned := h.planned

/-- A change in the directory of a build that nobody owns. -/
theorem Site.Inv.of_sameOutside (h : s.Inv ctx jobName script P ks kb) {n : Nat} {t' : FileTree}
    (hFrame : FileTree.SameOutside (buildDir ctx jobName n <:+ ·) s.tree t')
    (hFree : ∀ i, (s.starts i).owned ≠ some n)
    (hExit : (t'.find (buildDir ctx jobName n / "exitcode.txt")).isSome →
      t'.find (buildDir ctx jobName n) = some .directory)
    (hVacant : Vacant ctx jobName script t' s.maintains n)
    (hPlanned : ∀ k plan, s.maintains k = .removing plan → buildDir ctx jobName n ∈ plan →
      t'.find (buildDir ctx jobName n) = none)
    (hKeep : ∀ status m, status ≠ .pending →
      keepOf ks kb status ≤ (Largest.above (numbersWith ctx jobName status s.tree) m).card →
      keepOf ks kb status ≤ (Largest.above (numbersWith ctx jobName status t') m).card) :
    (⟨t', s.starts, s.maintains⟩ : Site ι κ).Inv ctx jobName script P ks kb := by
  have hSame : ∀ m, m ≠ n → ∀ q, buildDir ctx jobName m <:+ q → t'.find q = s.tree.find q :=
    fun m hne q hq => hFrame q (buildDir_disjoint hne hq)
  have hFile : ∀ m (name : Str), m ≠ n →
      t'.find (buildDir ctx jobName m / name) = s.tree.find (buildDir ctx jobName m / name) :=
    fun m name hne => hSame m hne _ (FileTree.suffix_child _ name)
  have hDir : ∀ m, m ≠ n → t'.find (buildDir ctx jobName m) = s.tree.find (buildDir ctx jobName m) :=
    fun m hne => hSame m hne _ List.suffix_rfl
  refine ⟨?_, ?_, ?_, h.exclusive, ?_, ?_⟩
  · exact h.configured.of_same (hFrame _ (not_buildDir_suffix_jobConf ctx jobName n))
  · intro m hm
    obtain rfl | hne := eq_or_ne m n
    · exact hExit hm
    · have hSome := congrArg Option.isSome (hFile m "exitcode.txt".toList hne)
      exact (hDir m hne).trans (h.exitDirs m (hSome.symm.trans hm))
  · intro i m hOwned
    have hTaken := h.taken i m hOwned
    have hne : m ≠ n := by
      rintro rfl
      exact hFree i hOwned
    exact ⟨(hDir m hne).trans hTaken.dir,
      (congrArg Option.isSome (hFile m script hne)).trans hTaken.script,
      fun hLt => (hFile m "exitcode.txt".toList hne).trans (hTaken.exitcode hLt), hTaken.notPlanned⟩
  · intro i m hNumber hLt hThere
    obtain rfl | hne := eq_or_ne m n
    · exact hVacant hLt hThere
    · obtain hScript | ⟨hNone, hNot⟩ := h.vacant i m hNumber hLt ((hDir m hne).symm.trans hThere)
      · exact Or.inl ((congrArg Option.isSome (hFile m script hne)).trans hScript)
      · exact Or.inr ⟨(hFile m "exitcode.txt".toList hne).trans hNone, hNot⟩
  · intro k plan hk dir hMem
    obtain ⟨m, status, rfl, hLt, hStatus, hRecorded, hLarger⟩ := h.planned k plan hk dir hMem
    refine ⟨m, status, rfl, hLt, hStatus, fun hExists => ?_, hKeep status m hStatus hLarger⟩
    have hne : m ≠ n := by
      rintro rfl
      cases (congrArg Option.isSome (hPlanned k plan hk hMem)).symm.trans hExists
    exact (recordedStatus_congr (hFile m "exitcode.txt".toList hne)).trans
      (hRecorded ((congrArg Option.isSome (hDir m hne)).symm.trans hExists))

/-- The exit status of a build is recorded by the process that ran it. -/
theorem Site.Inv.record (h : s.Inv ctx jobName script P ks kb) {n : Nat}
    (hTaken : Taken ctx jobName script s.tree s.maintains n)
    (hFree : ∀ j, (s.starts j).owned ≠ some n) (text : Str) :
    (⟨s.tree.write (buildDir ctx jobName n / "exitcode.txt") text, s.starts, s.maintains⟩ :
      Site ι κ).Inv ctx jobName script P ks kb := by
  have hFrame : FileTree.SameOutside (buildDir ctx jobName n <:+ ·) s.tree
      (s.tree.write (buildDir ctx jobName n / "exitcode.txt") text) :=
    FileTree.SameOutside.write (S := (buildDir ctx jobName n <:+ ·)) (FileTree.suffix_child _ _) _ _
  have hSome : ∀ q, (s.tree.find q).isSome →
      ((s.tree.write (buildDir ctx jobName n / "exitcode.txt") text).find q).isSome :=
    fun q hq => SortedMap.isSome_find_insert s.tree _ _ hq
  refine h.of_sameOutside hFrame hFree (fun _ => ?_) (fun _ _ => Or.inl (hSome _ hTaken.script)) ?_ ?_
  · exact (FileTree.find_write_of_ne text (FileTree.inside_child _ _).2.symm).trans hTaken.dir
  · intro k plan hk hMem
    obtain ⟨m, _, hm, hLt, _⟩ := h.planned k plan hk _ hMem
    obtain rfl := buildDir_injective ctx jobName hm
    exact absurd hMem (hTaken.notPlanned hLt k plan hk)
  · intro status m hStatus hLarger
    refine hLarger.trans (Largest.card_above_mono ?_ m)
    intro l hl
    -- only a build without a status gets one
    have hne : l ≠ n := by
      rintro rfl
      obtain ⟨⟨hLt, _⟩, hRecorded⟩ := mem_numbersWith.mp hl
      exact hStatus (hRecorded.symm.trans (recordedStatus_of_absent (hTaken.exitcode hLt)))
    exact (mem_numbersWith_congr fun q hq => hFrame q (buildDir_disjoint hne hq)).mpr hl

theorem Site.Inv.remaintain [DecidableEq κ] (h : s.Inv ctx jobName script P ks kb) {k : κ}
    {stage : MaintainStage}
    (hPlanned : ∀ plan, stage = .removing plan → ∀ dir ∈ plan, Outdated ctx jobName ks kb s.tree dir)
    (hFree : ∀ plan n, stage = .removing plan →
      s.tree.find (buildDir ctx jobName n / "exitcode.txt") = none →
      NotPlanned ctx jobName s.maintains n → buildDir ctx jobName n ∉ plan) :
    (⟨s.tree, s.starts, Function.update s.maintains k stage⟩ : Site ι κ).Inv ctx jobName script
      P ks kb := by
  have hNot : ∀ n, s.tree.find (buildDir ctx jobName n / "exitcode.txt") = none →
      NotPlanned ctx jobName s.maintains n →
      NotPlanned ctx jobName (Function.update s.maintains k stage) n := by
    intro n hExit hOld l plan hl
    obtain rfl | hne := eq_or_ne l k
    · rw [Function.update_self] at hl
      exact hFree plan n hl hExit hOld
    · rw [Function.update_of_ne hne] at hl
      exact hOld l plan hl
  refine ⟨h.configured, h.exitDirs, ?_, h.exclusive, ?_, ?_⟩
  · intro i n hOwned
    have hTaken := h.taken i n hOwned
    exact ⟨hTaken.dir, hTaken.script, hTaken.exitcode,
      fun hLt => hNot n (hTaken.exitcode hLt) (hTaken.notPlanned hLt)⟩
  · intro i n hNumber hLt hDir
    obtain hScript | ⟨hExit, hOld⟩ := h.vacant i n hNumber hLt hDir
    · exact Or.inl hScript
    · exact Or.inr ⟨hExit, hNot n hExit hOld⟩
  · intro l plan hl
    obtain rfl | hne := eq_or_ne l k
    · simp only [Function.update_self] at hl
      exact hPlanned plan hl
    · simp only [Function.update_of_ne hne] at hl
      exact h.planned l plan hl

theorem Site.Inv.not_owned (h : s.Inv ctx jobName script P ks kb) {k : κ} {plan : List FsPath}
    (hPlan : s.maintains k = .removing plan) {n : Nat} (hLt : n < 1000000)
    (hDir : buildDir ctx jobName n ∈ plan) (i : ι) : (s.starts i).owned ≠ some n :=
  fun hOwned => (h.taken i n hOwned).notPlanned hLt k plan hPlan hDir

theorem Site.Inv.removal (h : s.Inv ctx jobName script P ks kb) {dir : FsPath}
    (hOutdated : Outdated ctx jobName ks kb s.tree dir)
    (hFree : ∀ i n, dir = buildDir ctx jobName n → (s.starts i).owned ≠ some n) :
    (⟨s.tree.removeAll dir, s.starts, s.maintains⟩ : Site ι κ).Inv ctx jobName script P ks kb := by
  obtain ⟨n, status, rfl, _, _, hSame, hKeep⟩ := hOutdated
  have hFrame : FileTree.SameOutside (buildDir ctx jobName n <:+ ·) s.tree
      (s.tree.removeAll (buildDir ctx jobName n)) :=
    fun q hq => FileTree.find_removeAll_of_not_suffix hq
  have hBelow : ∀ q, buildDir ctx jobName n <:+ q →
      (s.tree.removeAll (buildDir ctx jobName n)).find q = none := by
    intro q hq
    rw [FileTree.find_removeAll, if_pos hq]
  refine h.of_sameOutside hFrame (fun i => hFree i n rfl) (fun hExit => ?_) (fun _ hDir => ?_)
    (fun _ _ _ _ => hBelow _ List.suffix_rfl) ?_
  · have hGone := congrArg Option.isSome (hBelow _ (FileTree.suffix_child _ "exitcode.txt".toList))
    cases hGone.symm.trans hExit
  · cases (hBelow _ List.suffix_rfl).symm.trans hDir
  · intro status' m _ hLarger
    have hErase : (numbersWith ctx jobName status' s.tree).erase n ⊆
        numbersWith ctx jobName status' (s.tree.removeAll (buildDir ctx jobName n)) := by
      intro l hl
      obtain ⟨hne, hMem⟩ := Finset.mem_erase.mp hl
      exact (mem_numbersWith_congr fun q hq => hFrame q (buildDir_disjoint hne hq)).mpr hMem
    refine le_trans ?_ (Largest.card_above_mono hErase m)
    -- the removed build has enough larger ones of its own kind
    by_cases hMem : n ∈ numbersWith ctx jobName status' s.tree
    · obtain ⟨⟨_, hExists⟩, hRecorded⟩ := mem_numbersWith.mp hMem
      obtain rfl : status' = status := hRecorded.symm.trans (hSame hExists)
      exact Largest.le_card_above_erase hLarger hKeep
    · rw [Finset.erase_eq_of_notMem hMem]
      exact hLarger

theorem Outdated.of_loadJob {os : Os} {t : FileTree} {job : Job}
    (hConf : Configured P t ctx jobName script ks kb) (hLoad : loadJob P os t ctx jobName = .ok job)
    {dir : FsPath} (hDir : dir ∈ job.outdated) :
    Outdated ctx jobName ks kb t dir ∧ recordedStatus t dir ≠ .pending := by
  obtain ⟨_, hKs, hKb⟩ := hConf.of_loadJob hLoad
  obtain ⟨_, _, _, _, _, _, _, _, hBuilds⟩ := loadJob_eq_ok hLoad
  have hKind : ∀ status, status ≠ .pending →
      dir ∈ outdated (job.builds.get status) (keepOf ks kb status) →
      Outdated ctx jobName ks kb t dir ∧ recordedStatus t dir ≠ .pending := by
    intro status hStatus hMem
    rw [hBuilds] at hMem
    obtain ⟨n, hFind, hKeep⟩ := mem_outdated_iff.mp hMem
    obtain ⟨hLt, rfl, _, hSeen⟩ := find_loadBuilds.mp hFind
    have hRecorded := recordedStatus_of_seen hStatus hSeen
    refine ⟨⟨n, status, rfl, hLt, hStatus, fun _ => hRecorded, ?_⟩, hRecorded ▸ hStatus⟩
    -- the larger builds that were seen are on disk
    have hSubset : (((loadBuilds os t (jobPath ctx jobName)).get status).keys.filter
        fun m => n < m).toFinset ⊆ Largest.above (numbersWith ctx jobName status t) n := by
      intro m hm
      obtain ⟨hKey, hLarger⟩ := List.mem_filter.mp (List.mem_toFinset.mp hm)
      obtain ⟨p, hp⟩ := Option.isSome_iff_exists.mp (SortedMap.find_isSome_iff.mpr hKey)
      obtain ⟨hm', rfl, hExists, hSeen'⟩ := find_loadBuilds.mp hp
      exact Largest.mem_above.mpr ⟨mem_numbersWith.mpr
        ⟨⟨hm', hExists⟩, recordedStatus_of_seen hStatus hSeen'⟩, of_decide_eq_true hLarger⟩
    have hNodup := ((loadBuilds os t (jobPath ctx jobName)).get status).keys_nodup.filter
      fun m => decide (n < m)
    rw [← List.toFinset_card_of_nodup hNodup] at hKeep
    exact hKeep.trans (Finset.card_le_card hSubset)
  rw [Job.outdated, hKs, hKb] at hDir
  obtain hMem | hMem := List.mem_append.mp hDir
  · exact hKind .successful (by simp) hMem
  · exact hKind .broken (by simp) hMem

theorem Site.Inv.maintain [DecidableEq κ] (h : s.Inv ctx jobName script P ks kb) {os : Os}
    (hAtomic : os.AtomicRemoval) {k : κ} {t' : FileTree} {stage' : MaintainStage}
    (hStep : maintainStep P ctx jobName os s.tree (s.maintains k) = some (t', stage')) :
    (⟨t', s.starts, Function.update s.maintains k stage'⟩ : Site ι κ).Inv ctx jobName script
      P ks kb := by
  have hEnd : ∀ ec, (⟨s.tree, s.starts, Function.update s.maintains k (.ended ec)⟩ :
      Site ι κ).Inv ctx jobName script P ks kb :=
    fun ec => h.remaintain (fun plan hPlan => by cases hPlan) fun plan n hPlan => by cases hPlan
  cases hStage : s.maintains k with
  | start =>
    rw [hStage] at hStep
    simp only [maintainStep] at hStep
    split at hStep
    · cases hStep
      exact hEnd _
    · rename_i job hLoad
      cases hStep
      apply h.remaintain
      · rintro _ ⟨⟩ dir hDir
        exact (Outdated.of_loadJob h.configured hLoad hDir).1
      · rintro _ n ⟨⟩ hExit _ hDir
        exact (Outdated.of_loadJob h.configured hLoad hDir).2 (recordedStatus_of_absent hExit)
  | ended ec =>
    rw [hStage] at hStep
    cases hStep
  | removing plan =>
    rw [hStage] at hStep
    cases plan with
    | nil =>
      cases hStep
      exact hEnd _
    | cons dir plan =>
      simp only [maintainStep] at hStep
      obtain hRemove | ⟨e, hRemove⟩ := Os.removeAll_atomic hAtomic s.tree dir
      · rw [hRemove] at hStep
        cases hStep
        have hOutdated := h.planned k _ hStage dir List.mem_cons_self
        have hRemoved := h.removal hOutdated fun i n hDir => by
          obtain ⟨m, _, hm, hLt, _⟩ := hOutdated
          obtain rfl := buildDir_injective ctx jobName (hm.symm.trans hDir)
          exact h.not_owned hStage hLt (hm ▸ List.mem_cons_self) i
        apply hRemoved.remaintain
        · rintro _ ⟨⟩ dir' hDir'
          exact hRemoved.planned k _ hStage dir' (List.mem_cons_of_mem dir hDir')
        · rintro _ n ⟨⟩ _ hNot hDir
          exact hNot k _ hStage (List.mem_cons_of_mem dir hDir)
      · rw [hRemove] at hStep
        cases hStep
        exact hEnd _

theorem StartStage.number_of_owned {stage : StartStage} {n : Nat} (h : stage.owned = some n) :
    stage.number = some n := by
  obtain (_ | _ | _ | _ | _ | _ | _) | _ | _ := stage
  all_goals first | exact h | cases h

theorem Site.Inv.start [DecidableEq ι] (h : s.Inv ctx jobName script P ks kb)
    (hScript : script ≠ "exitcode.txt") {w : Starter} {i : ι} {t' : FileTree} {stage' : StartStage}
    (hAllowed : s.NoReuse ctx jobName (.start i))
    (hStep : w.step P ctx jobName script s.tree (s.starts i) = some (t', stage')) :
    (⟨t', Function.update s.starts i stage', s.maintains⟩ : Site ι κ).Inv ctx jobName script
      P ks kb := by
  rcases Starter.step_cases hScript hStep with
    ⟨old, new, hOld, rfl, hMove⟩ | ⟨hQuiet, hNumber⟩ | ⟨n, t₁, e, ec, hOld, rfl, hQuiet, rfl⟩
  · obtain ⟨fresh, hQuiet, hFresh⟩ := hMove.quiet hScript
    have hChanged := h.quiet hQuiet fun n hn => by
      obtain ⟨rfl, hNone⟩ := hFresh n hn
      exact ⟨hNone, hAllowed i n rfl hOld hNone⟩
    have hOwns : ∀ n, old.owned = some n → (s.starts i).owned = some n := by
      intro n hOwned
      rw [hOld]
      exact hOwned
    have hPicked : ∀ n, old.number = some n → (s.starts i).number = some n := by
      intro n hPick
      rw [hOld]
      exact hPick
    refine hChanged.restage ?_ ?_ ?_
    · intro n hOwned
      obtain hBefore | ⟨hPick, hNone, hDir, hSome⟩ := hMove.owned_cases hOwned
      · exact hChanged.taken i n (hOwns n hBefore)
      · -- the copy of the script takes a directory that was free
        have hVacant : n < 1000000 → _ := fun hLt =>
          (h.vacant i n (hPicked n hPick) hLt hDir).resolve_left (by rw [hNone]; simp)
        exact ⟨hMove.kept hDir, hSome, fun hLt => (hQuiet.exitcode n).trans (hVacant hLt).1,
          fun hLt => (hVacant hLt).2⟩
    · intro j n hne hOwned hOwned'
      obtain hBefore | ⟨_, hNone, _⟩ := hMove.owned_cases hOwned'
      · exact hne (h.exclusive j i n hOwned (hOwns n hBefore))
      · have hSome := (h.taken j n hOwned).script
        rw [hNone] at hSome
        cases hSome
    · intro n hPick
      obtain hBefore | ⟨rfl, hNext⟩ := hMove.number_cases hPick
      · exact hChanged.vacant i n (hPicked n hBefore)
      · intro hLt hDir
        have hBelow := lt_nextBuildNumber hLt (FileTree.isDirectory_iff.mpr hDir)
        exact absurd hNext hBelow.ne
  · have hChanged := h.quiet hQuiet fun n hn => by cases hn
    refine hChanged.restage ?_ ?_ ?_
    · intro n hOwned
      exact hChanged.taken i n (hNumber n (StartStage.number_of_owned hOwned)).2
    · intro j n hne hOwned hOwned'
      exact hne (h.exclusive j i n hOwned (hNumber n (StartStage.number_of_owned hOwned')).2)
    · intro n hPick
      exact hChanged.vacant i n (StartStage.number_of_owned (hNumber n hPick).2)
  · have hOwned : (s.starts i).owned = some n := by
      rw [hOld]
      rfl
    have hChanged := h.quiet hQuiet fun n hn => by cases hn
    have hEnded : (⟨t₁, Function.update s.starts i (.ended ec), s.maintains⟩ : Site ι κ).Inv
        ctx jobName script P ks kb :=
      hChanged.restage (fun m hm => by cases hm) (fun j m _ _ hm => by cases hm) fun m hm => by cases hm
    apply hEnded.record (hChanged.taken i n hOwned)
    intro j hj
    obtain rfl | hne := eq_or_ne j i
    · simp only [Function.update_self] at hj
      cases hj
    · simp only [Function.update_of_ne hne] at hj
      exact hne (h.exclusive j i n hj hOwned)

end Moves

/-! ### Whole runs -/

section Runs

variable {ι κ : Type} [DecidableEq ι] [DecidableEq κ] {starters : ι → Starter} {maintainers : κ → Os}

theorem Site.Inv.step {s s' : Site ι κ} {a : SiteAction ι κ} (hScript : script ≠ "exitcode.txt")
    (hAtomic : ∀ k, (maintainers k).AtomicRemoval) (h : s.Inv ctx jobName script P ks kb)
    (hAllowed : s.NoReuse ctx jobName a)
    (hStep : s.step P ctx jobName script starters maintainers a = some s') :
    s'.Inv ctx jobName script P ks kb := by
  cases a with
  | start i =>
    obtain ⟨⟨t', stage'⟩, hOne, rfl⟩ := Option.map_eq_some_iff.mp hStep
    exact h.start hScript hAllowed hOne
  | maintain k =>
    obtain ⟨⟨t', stage'⟩, hOne, rfl⟩ := Option.map_eq_some_iff.mp hStep
    exact h.maintain (hAtomic k) hOne

omit [DecidableEq ι] [DecidableEq κ] in
theorem Site.inv_start {t₀ : FileTree} (hConf : Configured P t₀ ctx jobName script ks kb)
    (hExit : ∀ n, (t₀.find (buildDir ctx jobName n / "exitcode.txt")).isSome →
      t₀.find (buildDir ctx jobName n) = some .directory) :
    (⟨t₀, fun _ => .preparing .start, fun _ => .start⟩ : Site ι κ).Inv ctx jobName script P ks kb where
  configured := hConf
  exitDirs := hExit
  taken _ _ hOwned := by cases hOwned
  exclusive _ _ _ hOwned := by cases hOwned
  vacant _ _ hNumber := by cases hNumber
  planned _ _ hPlan := by cases hPlan

/-- As long as no planned number is used again, whatever a maintenance process
removes is a build with a recorded exit status, enough newer ones of its kind
and no process that prepares or runs it. -/
theorem maintenance_removes_outdated {t₀ : FileTree}
    (hConf : Configured P t₀ ctx jobName script ks kb)
    (hExit : ∀ n, (t₀.find (buildDir ctx jobName n / "exitcode.txt")).isSome →
      t₀.find (buildDir ctx jobName n) = some .directory)
    (hScript : script ≠ "exitcode.txt") (hAtomic : ∀ k, (maintainers k).AtomicRemoval)
    {order : List (SiteAction ι κ)} {s : Site ι κ}
    (hAlong : Along (Site.step P ctx jobName script starters maintainers) (Site.NoReuse ctx jobName)
      ⟨t₀, fun _ => .preparing .start, fun _ => .start⟩ order)
    (hRun : run (Site.step P ctx jobName script starters maintainers)
      ⟨t₀, fun _ => .preparing .start, fun _ => .start⟩ order = some s)
    {k : κ} {dir : FsPath} {plan : List FsPath} (hPlan : s.maintains k = .removing (dir :: plan))
    (hExists : s.tree.pathExists dir = true) :
    ∃ n status, dir = buildDir ctx jobName n ∧ status ≠ .pending ∧
      recordedStatus s.tree dir = status ∧
      keepOf ks kb status ≤ (Largest.above (numbersWith ctx jobName status s.tree) n).card ∧
      ∀ i, (s.starts i).owned ≠ some n := by
  have hInv := invariant_of_along (fun _ _ _ h hAllowed hStep => h.step hScript hAtomic hAllowed hStep)
    (Site.inv_start hConf hExit) hAlong hRun
  obtain ⟨n, status, rfl, hLt, hStatus, hSame, hKeep⟩ :=
    hInv.planned k _ hPlan dir List.mem_cons_self
  exact ⟨n, status, rfl, hStatus, hSame hExists, hKeep,
    fun i => hInv.not_owned hPlan hLt List.mem_cons_self i⟩

end Runs

def finishedBuild (n : Nat) : List (FsPath × Node) :=
  [(buildDir demoContext "j" n, .directory),
    (buildDir demoContext "j" n / "exitcode.txt", .file "0\n".toList false)]

/-- Between the plan and the removal of build 0 a process prepares and starts build 2. -/
theorem maintenance_removes_outdated_two :
    ∃ s : Site Unit Unit, run (Site.step .reference demoContext "j" "s"
          (fun _ => ⟨⟨.ideal ∅, ⟨"s", false⟩, []⟩, false, ⟨[], some 0⟩⟩) fun _ => .ideal ∅)
        ⟨demoTree "1" (finishedBuild 0 ++ finishedBuild 1), fun _ => .preparing .start,
          fun _ => .start⟩
        [.maintain (), .start (), .start (), .start (), .start (), .start (), .start (), .start ()] =
          some s ∧
      s.maintains () = .removing [buildDir demoContext "j" 0] ∧ s.starts () = .running 2 ∧
      ∃ n status, buildDir demoContext "j" 0 = buildDir demoContext "j" n ∧ status ≠ .pending ∧
        recordedStatus s.tree (buildDir demoContext "j" 0) = status ∧
        keepOf 1 1 status ≤ (Largest.above (numbersWith demoContext "j" status s.tree) n).card ∧
        ∀ i, (s.starts i).owned ≠ some n := by
  have hExit : ∀ n, (SortedMap.find (demoTree "1" (finishedBuild 0 ++ finishedBuild 1))
        (buildDir demoContext "j" n / "exitcode.txt")).isSome →
      SortedMap.find (demoTree "1" (finishedBuild 0 ++ finishedBuild 1))
        (buildDir demoContext "j" n) = some .directory := by
    intro n hn
    obtain ⟨node, hNode⟩ := Option.isSome_iff_exists.mp hn
    have hMem := SortedMap.mem_of_find_ofList hNode
    simp only [List.mem_append, List.mem_cons, List.not_mem_nil, or_false, finishedBuild] at hMem
    simp only [buildDir, jobPath, demoContext, FileTree.div_str, FileTree.div_string, Prod.mk.injEq,
      List.cons.injEq, reduceCtorEq, and_false, false_and, or_false, false_or, and_true, true_and]
      at hMem
    have hNumber : n = 0 ∨ n = 1 :=
      hMem.imp (fun h => numberString_injective h.1) fun h => numberString_injective h.1
    obtain rfl | rfl := hNumber
    · rfl
    · rfl
  have hConf : Configured .reference (demoTree "1" (finishedBuild 0 ++ finishedBuild 1)) demoContext
      "j" "s" 1 1 := ⟨_, _, _, rfl, rfl, rfl⟩
  have hAtomic : ∀ _ : Unit, (Os.ideal ∅).AtomicRemoval := fun _ => by
    simp [Os.AtomicRemoval, Os.ideal]
  have hScript : ("s" : Str) ≠ "exitcode.txt" := by decide
  have hRun : run (Site.step .reference demoContext "j" "s"
        (fun _ : Unit => ⟨⟨.ideal ∅, ⟨"s", false⟩, []⟩, false, ⟨[], some 0⟩⟩)
        fun _ : Unit => .ideal ∅)
      ⟨demoTree "1" (finishedBuild 0 ++ finishedBuild 1), fun _ => .preparing .start, fun _ => .start⟩
      [.maintain (), .start (), .start (), .start (), .start (), .start (), .start (), .start ()] =
        some _ := rfl
  refine ⟨_, hRun, rfl, rfl, ?_⟩
  refine maintenance_removes_outdated hConf hExit hScript hAtomic ?_ hRun (k := ()) rfl rfl
  -- only the step that creates the directory has something to avoid
  refine ⟨fun i n hAction => (by cases hAction), ?_⟩
  rintro _ ⟨⟩
  refine ⟨fun i n _ hStage => (by cases hStage), ?_⟩
  rintro _ ⟨⟩
  refine ⟨fun i n _ hStage _ k plan hPlan => ?_, ?_⟩
  · cases hStage
    cases hPlan
    decide
  iterate 5
    rintro _ ⟨⟩
    refine ⟨fun i n _ hStage => (by cases hStage), ?_⟩
  exact fun _ _ => trivial

def demoStarter (_ : Bool) : Starter := ⟨⟨.ideal ∅, ⟨"s", false⟩, []⟩, false, ⟨[], some 0⟩⟩

/-- A job that keeps no builds and whose script has the name of the file for the
exit status. -/
def exitcodeScriptTree : FileTree :=
  .ofList [(["j".toList, "jobs".toList], .directory),
    (["exitcode.txt".toList, "j".toList, "jobs".toList], .file "0".toList true),
    (["job.conf".toList, "j".toList, "jobs".toList], .file
      "script=exitcode.txt\nkeep_last_success_builds=0\nkeep_last_break_builds=0\n".toList false)]

/-- A removal fails after the exit status is gone. -/
def partialRemoval (k : Bool) : Os :=
  { Os.ideal ∅ with removeAllFault := fun p =>
      if k then none else some (.other 13, fun q => q ≠ p / "exitcode.txt") }

/-- A directory planned by two processes is removed by one, and the other is
about to remove the build that got the number again. The same happens to a
running build whose script is taken for its exit status, and to a build without
one after a removal that stopped half way. -/
theorem maintenance_removes_live :
    (∃ s, run (Site.step .reference demoContext "j" "s" demoStarter fun _ : Bool => .ideal ∅)
        ⟨demoTree "0" [], fun _ => .preparing .start, fun _ => .start⟩
        (List.replicate 8 (.start false) ++ [.maintain false, .maintain true, .maintain false] ++
          List.replicate 7 (.start true)) = some s ∧
      s.maintains true = .removing [buildDir demoContext "j" 0] ∧
      s.tree.pathExists (buildDir demoContext "j" 0) = true ∧
      recordedStatus s.tree (buildDir demoContext "j" 0) = .pending ∧
      s.starts true = .running 0) ∧
    (∃ s, run (Site.step .reference demoContext "j" "exitcode.txt" demoStarter
          fun _ : Bool => .ideal ∅)
        ⟨exitcodeScriptTree, fun _ => .preparing .start, fun _ => .start⟩
        (List.replicate 7 (.start false) ++ [.maintain false]) = some s ∧
      s.maintains false = .removing [buildDir demoContext "j" 0] ∧
      s.tree.pathExists (buildDir demoContext "j" 0) = true ∧
      s.starts false = .running 0) ∧
    ∃ s, run (Site.step .reference demoContext "j" "s" demoStarter partialRemoval)
        ⟨demoTree "0" (finishedBuild 0), fun _ => .preparing .start, fun _ => .start⟩
        [.maintain false, .maintain true, .maintain false] = some s ∧
      s.maintains true = .removing [buildDir demoContext "j" 0] ∧
      s.tree.pathExists (buildDir demoContext "j" 0) = true ∧
      recordedStatus s.tree (buildDir demoContext "j" 0) = .pending :=
  ⟨⟨_, rfl, rfl, rfl, rfl, rfl⟩, ⟨_, rfl, rfl, rfl, rfl⟩, ⟨_, rfl, rfl, rfl, rfl⟩⟩

end CisCore
