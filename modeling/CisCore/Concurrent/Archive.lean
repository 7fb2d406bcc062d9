import CisCore.Concurrent.Maintenance

/-! # What becomes of a build

A build belongs to the process that prepares and runs it. When that process has
ended, or has stopped on the way, no other one changes the build until a
maintenance removes it.
-/

namespace CisCore

open Transition

variable {P : ProtoUtils} {ctx : Context} {jobName script : Str} {ks kb : Nat}

/-! ### Steps of processes that do not own the build -/

section Steps

variable {w : Starter} {t t' : FileTree} {m n : Nat} {stage stage' : StartStage}

theorem Starter.launch_frame
    (h : w.step P ctx jobName script t (.preparing (.finished (some m) none)) = some (t', stage')) :
    FileTree.SameOutside (buildDir ctx jobName m <:+ ·) t t' ∧
      (stage'.owned = none ∨ stage'.owned = some m) := by
  have hEnsure : ∀ {r}, ensureExecutable w.os t (buildDir ctx jobName m / script) w.force = r →
      FileTree.SameOutside (buildDir ctx jobName m <:+ ·) t r.1 :=
    fun hr => ensureExecutable_sameOutside (FileTree.suffix_child _ script) hr
  simp only [step] at h
  split at h
  · rename_i t₁ e hFailed
    cases h
    exact ⟨hEnsure hFailed, Or.inl rfl⟩
  · rename_i t₁ hClear
    split at h
    · cases h
      exact ⟨hEnsure hClear, Or.inl rfl⟩
    · rename_i t₂ hOpen
      cases h
      rw [Os.openOfstream_eq_some hOpen]
      exact ⟨(hEnsure hClear).trans
        (FileTree.SameOutside.write (FileTree.suffix_child _ "output.txt".toList) t₁ []), Or.inr rfl⟩

theorem Starter.exit_frame (h : w.step P ctx jobName script t (.running m) = some (t', stage')) :
    FileTree.SameOutside (buildDir ctx jobName m <:+ ·) t t' ∧ stage'.owned = none := by
  simp only [step, Option.some.injEq, Prod.mk.injEq] at h
  obtain ⟨rfl, rfl⟩ := h
  have hOutput : FileTree.SameOutside (buildDir ctx jobName m <:+ ·) t
      (if t.pathExists (buildDir ctx jobName m / "output.txt") then
        t.overwrite (buildDir ctx jobName m / "output.txt") (outputText w.script.output) else t) := by
    split
    · exact FileTree.SameOutside.write (FileTree.suffix_child _ "output.txt".toList) t _
    · exact FileTree.SameOutside.refl _ t
  refine ⟨hOutput.trans ?_, rfl⟩
  obtain ⟨_, hTree, _⟩ | ⟨e, _, hExit⟩ := onExit_cases w.os (if t.pathExists
      (buildDir ctx jobName m / "output.txt") then t.overwrite (buildDir ctx jobName m / "output.txt")
        (outputText w.script.output) else t) (buildDir ctx jobName m) (-1) w.script.status
  · rw [hTree]
    exact FileTree.SameOutside.refl _ _
  · rw [hExit]
    exact FileTree.SameOutside.write (FileTree.suffix_child _ "exitcode.txt".toList) _ _

/-- A build that has its script is not given to another process. -/
theorem Preparation.Move.elsewhere {w : Preparation} {stage stage' : PrepareStage}
    (h : w.Move P ctx jobName script t stage t' stage')
    (hDir : t.find (buildDir ctx jobName n) = some .directory)
    (hScript : (t.find (buildDir ctx jobName n / script)).isSome) (hOwned : stage.owned ≠ some n) :
    (∀ q, buildDir ctx jobName n <:+ q → t'.find q = t.find q) ∧ stage'.owned ≠ some n := by
  refine ⟨fun q hq => ?_, fun hOwned' => ?_⟩
  · by_cases hNumber : stage.number = some n
    · cases h with
      | listed => rfl
      | gaveUp => rfl
      | shared => rfl
      | created hNone =>
        cases hNumber
        rw [hDir] at hNone
        cases hNone
      | copied _ hNone =>
        cases hNumber
        rw [hNone] at hScript
        cases hScript
      | paramsWritten => exact absurd hNumber hOwned
      | confCopied => exact absurd hNumber hOwned
      | finished => exact absurd hNumber hOwned
    · apply h.find_eq
      rintro m hm hBelow
      refine buildDir_disjoint ?_ hBelow hq
      rintro rfl
      exact hNumber hm
  · obtain hBefore | ⟨_, hNone, _⟩ := h.owned_cases hOwned'
    · exact hOwned hBefore
    · rw [hNone] at hScript
      cases hScript

theorem Starter.step_elsewhere (h : w.step P ctx jobName script t stage = some (t', stage'))
    (hDir : t.find (buildDir ctx jobName n) = some .directory)
    (hScript : (t.find (buildDir ctx jobName n / script)).isSome) (hOwned : stage.owned ≠ some n) :
    (∀ q, buildDir ctx jobName n <:+ q → t'.find q = t.find q) ∧ stage'.owned ≠ some n := by
  have hFrame : ∀ {m}, m ≠ n → FileTree.SameOutside (buildDir ctx jobName m <:+ ·) t t' →
      ∀ q, buildDir ctx jobName n <:+ q → t'.find q = t.find q :=
    fun hne hSame q hq => hSame q (buildDir_disjoint hne.symm hq)
  cases stage with
  | preparing old =>
    by_cases hFinished : ∃ handle ec, old = .finished handle ec
    · obtain ⟨_ | m, _ | e, rfl⟩ := hFinished
      · cases h
        exact ⟨fun _ _ => rfl, by simp [StartStage.owned]⟩
      · cases h
        exact ⟨fun _ _ => rfl, by simp [StartStage.owned]⟩
      · have hne : m ≠ n := fun hEq => hOwned (congrArg some hEq)
        obtain ⟨hSame, hNone | hSome⟩ := Starter.launch_frame h
        · exact ⟨hFrame hne hSame, by simp [hNone]⟩
        · exact ⟨hFrame hne hSame, by simpa [hSome] using hne⟩
      · cases h
        exact ⟨fun _ _ => rfl, by simp [StartStage.owned]⟩
    · have hNot : ∀ handle ec, old ≠ .finished handle ec :=
        fun handle ec hOld => hFinished ⟨handle, ec, hOld⟩
      rw [Starter.step_preparing w t hNot] at h
      obtain ⟨⟨u, new⟩, hOne, hEq⟩ := Option.map_eq_some_iff.mp h
      cases hEq
      exact (Preparation.move_of_step hOne).elsewhere hDir hScript hOwned
  | running m =>
    have hne : m ≠ n := fun hEq => hOwned (congrArg some hEq)
    obtain ⟨hSame, hNone⟩ := Starter.exit_frame h
    exact ⟨hFrame hne hSame, by simp [hNone]⟩
  | ended ec => cases h

end Steps

/-! ### Whole runs -/

section Runs

variable {ι κ : Type} [DecidableEq ι] [DecidableEq κ] {starters : ι → Starter} {maintainers : κ → Os}

/-- Maintenances plan to remove builds only. -/
def Site.PlansBuilds (ctx : Context) (jobName : Str) (s : Site ι κ) : Prop :=
  ∀ k plan, s.maintains k = .removing plan → ∀ dir ∈ plan, ∃ n, dir = buildDir ctx jobName n

theorem maintainStep_plan {os : Os} {t t' : FileTree} {stage : MaintainStage} {plan : List FsPath}
    (h : maintainStep P ctx jobName os t stage = some (t', .removing plan)) :
    (∀ dir ∈ plan, ∃ n, dir = buildDir ctx jobName n) ∨
      ∃ dir, stage = .removing (dir :: plan) := by
  cases stage with
  | start =>
    simp only [maintainStep] at h
    split at h
    · cases h
    · rename_i job hLoad
      cases h
      exact Or.inl fun dir hDir => outdated_buildDir hLoad hDir
  | ended ec => cases h
  | removing old =>
    cases old with
    | nil => cases h
    | cons dir old =>
      simp only [maintainStep] at h
      split at h
      · cases h
      · cases h
        exact Or.inr ⟨dir, rfl⟩

theorem Site.PlansBuilds.step {s s' : Site ι κ} {a : SiteAction ι κ} (h : s.PlansBuilds ctx jobName)
    (hStep : s.step P ctx jobName script starters maintainers a = some s') :
    s'.PlansBuilds ctx jobName := by
  cases a with
  | start i =>
    obtain ⟨⟨t', stage'⟩, hOne, rfl⟩ := Option.map_eq_some_iff.mp hStep
    exact h
  | maintain k =>
    obtain ⟨⟨t', stage'⟩, hOne, rfl⟩ := Option.map_eq_some_iff.mp hStep
    intro l plan hPlan
    obtain rfl | hne := eq_or_ne l k
    · simp only [Function.update_self] at hPlan
      rw [hPlan] at hOne
      obtain hBuilds | ⟨dir, hOld⟩ := maintainStep_plan hOne
      · exact hBuilds
      · exact fun dir' hDir => h l _ hOld dir' (List.mem_cons_of_mem dir hDir)
    · simp only [Function.update_of_ne hne] at hPlan
      exact h l plan hPlan

theorem maintainStep_elsewhere {os : Os} {t t' : FileTree} {stage stage' : MaintainStage} {n : Nat}
    (h : maintainStep P ctx jobName os t stage = some (t', stage'))
    (hBuilds : ∀ plan, stage = .removing plan → ∀ dir ∈ plan, ∃ m, dir = buildDir ctx jobName m) :
    (∀ q, buildDir ctx jobName n <:+ q → t'.find q = t.find q) ∨
      ∃ plan, stage = .removing (buildDir ctx jobName n :: plan) := by
  cases stage with
  | start =>
    simp only [maintainStep] at h
    split at h <;> cases h <;> exact Or.inl fun _ _ => rfl
  | ended ec => cases h
  | removing plan =>
    cases plan with
    | nil =>
      cases h
      exact Or.inl fun _ _ => rfl
    | cons dir plan =>
      obtain ⟨m, rfl⟩ := hBuilds _ rfl dir List.mem_cons_self
      obtain rfl | hne := eq_or_ne m n
      · exact Or.inr ⟨plan, rfl⟩
      · left
        intro q hq
        have hSame := os.removeAll_sameOutside t (buildDir ctx jobName m) q
          (buildDir_disjoint hne.symm hq)
        simp only [maintainStep] at h
        split at h
        · rename_i t₁ e hRemove
          cases h
          rw [hRemove] at hSame
          exact hSame
        · rename_i t₁ hRemove
          cases h
          rw [hRemove] at hSame
          exact hSame

/-- The build is as in the tree `t`, and no idle process owns it. -/
structure Site.Kept (ctx : Context) (jobName : Str) (n : Nat) (t : FileTree) (idle : ι → Prop)
    (s : Site ι κ) : Prop where
  plans : s.PlansBuilds ctx jobName
  same : ∀ q, buildDir ctx jobName n <:+ q → s.tree.find q = t.find q
  idle : ∀ i, idle i → (s.starts i).owned ≠ some n

theorem Site.Kept.step {s s' : Site ι κ} {a : SiteAction ι κ} {n : Nat} {t : FileTree}
    {idle : ι → Prop} (h : s.Kept ctx jobName n t idle)
    (hDir : t.find (buildDir ctx jobName n) = some .directory)
    (hScript : (t.find (buildDir ctx jobName n / script)).isSome)
    (hIdle : ∀ i, a = .start i → idle i)
    (hStep : s.step P ctx jobName script starters maintainers a = some s') :
    s'.Kept ctx jobName n t idle ∨
      ∃ k plan, a = .maintain k ∧ s.maintains k = .removing (buildDir ctx jobName n :: plan) := by
  have hPlans := h.plans.step hStep
  cases a with
  | start i =>
    obtain ⟨⟨t', stage'⟩, hOne, rfl⟩ := Option.map_eq_some_iff.mp hStep
    have hScript' := congrArg Option.isSome (h.same _ (FileTree.suffix_child _ script))
    obtain ⟨hSame, hOwned⟩ := Starter.step_elsewhere hOne
      ((h.same _ List.suffix_rfl).trans hDir) (hScript'.trans hScript) (h.idle i (hIdle i rfl))
    refine Or.inl ⟨hPlans, fun q hq => (hSame q hq).trans (h.same q hq), fun j hj => ?_⟩
    obtain rfl | hne := eq_or_ne j i
    · simp only [Function.update_self]
      exact hOwned
    · simp only [Function.update_of_ne hne]
      exact h.idle j hj
  | maintain k =>
    obtain ⟨⟨t', stage'⟩, hOne, rfl⟩ := Option.map_eq_some_iff.mp hStep
    obtain hSame | ⟨plan, hPlan⟩ := maintainStep_elsewhere (n := n) hOne fun plan => h.plans k plan
    · exact Or.inl ⟨hPlans, fun q hq => (hSame q hq).trans (h.same q hq), h.idle⟩
    · exact Or.inr ⟨k, plan, rfl, hPlan⟩

theorem Site.Kept.run {order : List (SiteAction ι κ)} {s s' : Site ι κ} {n : Nat} {t : FileTree}
    {idle : ι → Prop} (h : s.Kept ctx jobName n t idle)
    (hDir : t.find (buildDir ctx jobName n) = some .directory)
    (hScript : (t.find (buildDir ctx jobName n / script)).isSome)
    (hIdle : ∀ i, .start i ∈ order → idle i)
    (hRun : run (Site.step P ctx jobName script starters maintainers) s order = some s') :
    s'.Kept ctx jobName n t idle ∨
      ∃ before k after s₁ plan, order = before ++ .maintain k :: after ∧
        Transition.run (Site.step P ctx jobName script starters maintainers) s before = some s₁ ∧
        s₁.Kept ctx jobName n t idle ∧ s₁.maintains k = .removing (buildDir ctx jobName n :: plan) := by
  have hStep : ∀ s₁ s₂, ∀ a ∈ order, s₁.Kept ctx jobName n t idle →
      Site.step P ctx jobName script starters maintainers s₁ a = some s₂ →
      s₂.Kept ctx jobName n t idle ∨
        ∃ k plan, a = .maintain k ∧ s₁.maintains k = .removing (buildDir ctx jobName n :: plan) :=
    fun _ _ a ha hKept hStep => hKept.step hDir hScript (fun i hi => hIdle i (hi ▸ ha)) hStep
  obtain hEnd | ⟨before, a, after, s₁, hOrder, hBefore, hKept, k, plan, rfl, hPlan⟩ :=
    kept_until hStep h hRun
  · exact Or.inl hEnd
  · exact Or.inr ⟨before, k, after, s₁, plan, hOrder, hBefore, hKept, hPlan⟩

theorem Site.kept_start {t₀ : FileTree} {order : List (SiteAction ι κ)} {s : Site ι κ}
    (hRun : run (Site.step P ctx jobName script starters maintainers)
      ⟨t₀, fun _ => .preparing .start, fun _ => .start⟩ order = some s) {n : Nat} {idle : ι → Prop}
    (hIdle : ∀ i, idle i → (s.starts i).owned ≠ some n) : s.Kept ctx jobName n s.tree idle where
  plans := invariant (fun _ _ _ h hStep => h.step hStep) (fun k plan hPlan => by cases hPlan) hRun
  same _ _ := rfl
  idle := hIdle

/-- A build whose script is there and whose owner takes no more steps, because it
has ended or because it has crashed, stays exactly as it is until a maintenance
carries out the removal of its directory. -/
theorem build_kept_until_removed {t₀ : FileTree} {order order' : List (SiteAction ι κ)}
    {s s' : Site ι κ}
    (hRun : run (Site.step P ctx jobName script starters maintainers)
      ⟨t₀, fun _ => .preparing .start, fun _ => .start⟩ order = some s)
    (hLater : run (Site.step P ctx jobName script starters maintainers) s order' = some s') {n : Nat}
    (hDir : s.tree.find (buildDir ctx jobName n) = some .directory)
    (hScript : (s.tree.find (buildDir ctx jobName n / script)).isSome)
    (hIdle : ∀ i, .start i ∈ order' → (s.starts i).owned ≠ some n) :
    (∀ q, buildDir ctx jobName n <:+ q → s'.tree.find q = s.tree.find q) ∨
      ∃ before k after s₁ plan, order' = before ++ .maintain k :: after ∧
        run (Site.step P ctx jobName script starters maintainers) s before = some s₁ ∧
        (∀ q, buildDir ctx jobName n <:+ q → s₁.tree.find q = s.tree.find q) ∧
        s₁.maintains k = .removing (buildDir ctx jobName n :: plan) := by
  obtain hEnd | ⟨before, k, after, s₁, plan, hOrder, hBefore, hKept, hPlan⟩ :=
    (Site.kept_start hRun hIdle).run hDir hScript (fun _ hi => hi) hLater
  · exact Or.inl hEnd.same
  · exact Or.inr ⟨before, k, after, s₁, plan, hOrder, hBefore, hKept.same, hPlan⟩

def archiveTree : FileTree :=
  demoTree "0" (finishedBuild 0 ++ [(buildDir demoContext "j" 0 / "s", .file [] true)])

/-- Nobody owns the build that was there before. -/
theorem build_kept_until_removed_one :
    ∃ s', run (Site.step .reference demoContext "j" "s" demoStarter fun _ : Bool => .ideal ∅)
        ⟨archiveTree, fun _ => .preparing .start, fun _ => .start⟩ [.maintain false] = some s' ∧
      s'.maintains false = .removing [buildDir demoContext "j" 0] ∧
      ∀ q, buildDir demoContext "j" 0 <:+ q → s'.tree.find q = archiveTree.find q := by
  have hLater : run (Site.step .reference demoContext "j" "s" demoStarter fun _ : Bool => .ideal ∅)
    ⟨archiveTree, fun _ => .preparing .start, fun _ => .start⟩ [.maintain false] =
      some ⟨archiveTree, fun _ => .preparing .start, Function.update (fun _ => .start) false
        (.removing [buildDir demoContext "j" 0])⟩ := rfl
  have hDir : archiveTree.find (buildDir demoContext "j" 0) = some .directory := rfl
  have hScript : (archiveTree.find (buildDir demoContext "j" 0 / "s")).isSome = true := rfl
  refine ⟨_, hLater, rfl, ?_⟩
  refine (build_kept_until_removed (run_nil _) hLater hDir hScript fun i _ => nofun).resolve_right ?_
  rintro ⟨before, k, after, s₁, plan, hOrder, hBefore, _, hPlan⟩
  obtain ⟨rfl, hRest⟩ | ⟨rfl, hRest⟩ := List.append_eq_singleton_iff.mp hOrder.symm
  · cases hBefore
    cases hPlan
  · cases hRest

theorem Site.starts_of_idle {i : ι} {order : List (SiteAction ι κ)} {s s' : Site ι κ}
    (hIdle : .start i ∉ order)
    (hRun : run (Site.step P ctx jobName script starters maintainers) s order = some s') :
    s'.starts i = s.starts i := by
  have hStep : ∀ s₁ a s₂, s₁.starts i = s.starts i → a ∈ order →
      Site.step P ctx jobName script starters maintainers s₁ a = some s₂ →
      s₂.starts i = s.starts i := by
    intro s₁ a s₂ hSame ha hOne
    cases a with
    | start j =>
      obtain ⟨⟨t', stage'⟩, _, rfl⟩ := Option.map_eq_some_iff.mp hOne
      have hne : i ≠ j := by
        rintro rfl
        exact hIdle ha
      simp only [Function.update_of_ne hne]
      exact hSame
    | maintain k =>
      obtain ⟨⟨t', stage'⟩, _, rfl⟩ := Option.map_eq_some_iff.mp hOne
      exact hSame
  exact invariant_of_along hStep rfl (along_of_forall fun _ ha => ha) hRun

omit [DecidableEq κ] in
theorem Taken.loaded {t : FileTree} {maintains : κ → MaintainStage} {n : Nat} (hLt : n < 1000000)
    (h : Taken ctx jobName script t maintains n) {os : Os} {job : Job}
    (hLoad : loadJob P os t ctx jobName = .ok job) :
    job.builds.Only .pending n (buildDir ctx jobName n) ∧ buildDir ctx jobName n ∉ job.outdated ∧
      n < nextBuildNumber t (jobPath ctx jobName) := by
  obtain ⟨_, _, _, _, _, _, _, _, hBuilds⟩ := loadJob_eq_ok hLoad
  have hPending := recordedStatus_of_absent (h.exitcode hLt)
  have hExists : t.pathExists (buildDir ctx jobName n) = true := by
    rw [FileTree.pathExists, h.dir]
    rfl
  refine ⟨?_, fun hMem => outdated_not_pending hLoad hMem hPending,
    lt_nextBuildNumber hLt (FileTree.isDirectory_iff.mpr h.dir)⟩
  rw [hBuilds]
  exact find_loadBuilds_only hLt rfl hExists (buildStatus_of_pending hPending os)

/-- A process that has got its build and takes no more steps leaves a pending build
behind: nobody changes or removes it, its number is not given again, and every job
that is loaded has it as pending. -/
theorem stopped_build_stays {t₀ : FileTree} (hConf : Configured P t₀ ctx jobName script ks kb)
    (hExit : ∀ n, (t₀.find (buildDir ctx jobName n / "exitcode.txt")).isSome →
      t₀.find (buildDir ctx jobName n) = some .directory)
    (hScript : script ≠ "exitcode.txt") (hAtomic : ∀ k, (maintainers k).AtomicRemoval)
    {order order' : List (SiteAction ι κ)} {s s' : Site ι κ}
    (hAlong : Along (Site.step P ctx jobName script starters maintainers) (Site.NoReuse ctx jobName)
      ⟨t₀, fun _ => .preparing .start, fun _ => .start⟩ (order ++ order'))
    (hRun : run (Site.step P ctx jobName script starters maintainers)
      ⟨t₀, fun _ => .preparing .start, fun _ => .start⟩ order = some s)
    (hLater : run (Site.step P ctx jobName script starters maintainers) s order' = some s')
    {i : ι} (hStopped : .start i ∉ order') {n : Nat} (hOwned : (s.starts i).owned = some n)
    (hLt : n < 1000000) :
    (∀ q, buildDir ctx jobName n <:+ q → s'.tree.find q = s.tree.find q) ∧
    ∀ os job, loadJob P os s'.tree ctx jobName = .ok job →
      job.builds.Only .pending n (buildDir ctx jobName n) ∧ buildDir ctx jobName n ∉ job.outdated ∧
      n < nextBuildNumber s'.tree (jobPath ctx jobName) := by
  have hInv : ∀ before after s₁, order' = before ++ after →
      run (Site.step P ctx jobName script starters maintainers) s before = some s₁ →
      s₁.Inv ctx jobName script P ks kb ∧ (s₁.starts i).owned = some n := by
    rintro before after s₁ rfl hBefore
    rw [← List.append_assoc] at hAlong
    have hReached := invariant_of_along
      (fun _ _ _ h hAllowed hStep => h.step hScript hAtomic hAllowed hStep)
      (Site.inv_start hConf hExit) (along_append.mp hAlong).1 (run_append_eq_some.mpr ⟨s, hRun, hBefore⟩)
    have hIdle := Site.starts_of_idle (fun hMem => hStopped (List.mem_append_left after hMem)) hBefore
    exact ⟨hReached, (congrArg StartStage.owned hIdle).trans hOwned⟩
  obtain ⟨hInv₀, _⟩ := hInv [] order' s rfl rfl
  obtain ⟨hEnd, hOwned'⟩ := hInv order' [] s' (List.append_nil order').symm hLater
  have hTaken := hInv₀.taken i n hOwned
  have hOthers : ∀ j, .start j ∈ order' → (s.starts j).owned ≠ some n :=
    fun j hj hOther => hStopped (hInv₀.exclusive i j n hOwned hOther ▸ hj)
  refine ⟨?_, fun os job hLoad => (hEnd.taken i n hOwned').loaded hLt hLoad⟩
  obtain hKept | ⟨before, k, after, s₁, plan, hOrder, hBefore, _, hPlan⟩ :=
    (Site.kept_start hRun hOthers).run hTaken.dir hTaken.script (fun _ hi => hi) hLater
  · exact hKept.same
  · obtain ⟨hInv₁, hOwned₁⟩ := hInv before _ s₁ hOrder hBefore
    exact absurd List.mem_cons_self ((hInv₁.taken i n hOwned₁).notPlanned hLt k _ hPlan)

/-- Nothing is planned before a maintenance has begun. -/
theorem along_starts (order : List ι) {s : Site ι κ}
    (hStart : ∀ k, s.maintains k = .start) :
    Along (Site.step P ctx jobName script starters maintainers) (Site.NoReuse ctx jobName) s
      (order.map .start) := by
  induction order generalizing s with
  | nil => exact trivial
  | cons i order ih =>
    refine ⟨fun _ _ _ _ _ k plan hPlan => ?_, fun s' hs => ih ?_⟩
    · rw [hStart k] at hPlan
      cases hPlan
    · obtain ⟨_, _, rfl⟩ := Option.map_eq_some_iff.mp hs
      exact hStart

end Runs

/-- The process is stopped when it has copied the script. -/
theorem stopped_build_stays_one :
    ∃ s s', run (Site.step .reference demoContext "j" "s" demoStarter fun _ : Bool => .ideal ∅)
        ⟨demoTree "0" [], fun _ => .preparing .start, fun _ => .start⟩
        ((List.replicate 3 false).map .start) = some s ∧
      run (Site.step .reference demoContext "j" "s" demoStarter fun _ : Bool => .ideal ∅) s
        [.maintain false] = some s' ∧
      (s.starts false).owned = some 0 ∧
      ∀ q, buildDir demoContext "j" 0 <:+ q → s'.tree.find q = s.tree.find q := by
  have hRun : run (Site.step .reference demoContext "j" "s" demoStarter fun _ : Bool => .ideal ∅)
    ⟨demoTree "0" [], fun _ => .preparing .start, fun _ => .start⟩
    ((List.replicate 3 false).map .start) = some _ := rfl
  have hAlong : Along (Site.step .reference demoContext "j" "s" demoStarter fun _ : Bool => .ideal ∅)
      (Site.NoReuse demoContext "j") ⟨demoTree "0" [], fun _ => .preparing .start, fun _ => .start⟩
      ((List.replicate 3 false).map .start ++ [.maintain false]) :=
    along_append.mpr ⟨along_starts _ fun _ => rfl, fun _ _ => along_of_always (by
      simp [Site.NoReuse])⟩
  have hExit : ∀ n, SortedMap.find (demoTree "0" []) (buildDir demoContext "j" n / "exitcode.txt") =
      none := by
    intro n
    rw [← Option.not_isSome_iff_eq_none, SortedMap.find_isSome_iff, demoTree_keys]
    simp [buildDir, jobPath, demoContext]
  refine ⟨_, _, hRun, rfl, rfl, ?_⟩
  exact (stopped_build_stays ⟨_, _, _, rfl, rfl, rfl⟩ (fun n hn => by rw [hExit n] at hn; cases hn)
    (by decide) (fun _ => by simp [Os.AtomicRemoval, Os.ideal]) hAlong hRun rfl
    (i := false) (by simp) rfl (by decide)).1

end CisCore
