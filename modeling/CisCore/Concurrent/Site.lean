import CisCore.Concurrent.Prepare
import CisCore.Job.Build
import CisCore.Job.Cleanup

/-! # Builds and maintenance at the same time

Processes that run builds of a job and processes that maintain it take their
steps in any order. A maintenance process removes what was outdated when it
loaded the job.
-/

namespace CisCore

open Transition

inductive StartStage where
  | preparing (stage : PrepareStage)
  | running (number : Nat)
  | ended (ec : Ec)

def StartStage.number : StartStage → Option Nat
  | preparing stage => stage.number
  | running number => some number
  | ended _ => none

/-- The number of a process whose build is being prepared or run. -/
def StartStage.owned : StartStage → Option Nat
  | preparing stage => stage.owned
  | running number => some number
  | ended _ => none

/-- A process that runs a build, and what its script will do. -/
structure Starter extends Preparation where
  force : Bool
  script : ScriptRun

inductive MaintainStage where
  | start
  | removing (plan : List FsPath)
  | ended (ec : Ec)

structure Site (ι κ : Type) where
  tree : FileTree
  starts : ι → StartStage
  maintains : κ → MaintainStage

inductive SiteAction (ι κ : Type) where
  | start (i : ι)
  | maintain (k : κ)

section Model

variable (P : ProtoUtils) (ctx : Context) (jobName script : Str)

def Starter.step (w : Starter) (t : FileTree) : StartStage → Option (FileTree × StartStage)
  | .preparing (.finished (some number) none) =>
    match ensureExecutable w.os t (buildDir ctx jobName number / script) w.force with
    | (t, some e) => some (t, .ended (some e))
    | (t, none) =>
      match w.os.openOfstream t (buildDir ctx jobName number / "output.txt") with
      | none => some (t, .ended (fail .cantOpenBuildOutputFile))
      | some t => some (t, .running number)
  | .preparing (.finished _ ec) => some (t, .ended ec)
  | .preparing stage =>
    (w.toPreparation.step P ctx jobName script t stage).map fun r => (r.1, .preparing r.2)
  | .running number =>
    let dir := buildDir ctx jobName number
    -- the output of a file that was removed is lost
    let t := if t.pathExists (dir / "output.txt") then
      t.overwrite (dir / "output.txt") (outputText w.script.output) else t
    let r := onExit w.os t dir (-1) w.script.status
    some (r.1, .ended r.2.1)
  | .ended _ => none

def maintainStep (os : Os) (t : FileTree) : MaintainStage → Option (FileTree × MaintainStage)
  | .start =>
    match loadJob P os t ctx jobName with
    | .error e => some (t, .ended (fail e))
    | .ok job => some (t, .removing job.outdated)
  | .removing [] => some (t, .ended none)
  | .removing (dir :: plan) =>
    match os.removeAll t dir with
    | (t, some e) => some (t, .ended (some e))
    | (t, none) => some (t, .removing plan)
  | .ended _ => none

variable {ι κ : Type} [DecidableEq ι] [DecidableEq κ] (starters : ι → Starter) (maintainers : κ → Os)

def Site.step (s : Site ι κ) : SiteAction ι κ → Option (Site ι κ)
  | .start i => ((starters i).step P ctx jobName script s.tree (s.starts i)).map fun r =>
      ⟨r.1, Function.update s.starts i r.2, s.maintains⟩
  | .maintain k => (maintainStep P ctx jobName (maintainers k) s.tree (s.maintains k)).map fun r =>
      ⟨r.1, s.starts, Function.update s.maintains k r.2⟩

def NotPlanned (maintains : κ → MaintainStage) (number : Nat) : Prop :=
  ∀ k plan, maintains k = .removing plan → buildDir ctx jobName number ∉ plan

/-- No process creates the directory of a number that is still to be removed. -/
def Site.NoReuse (s : Site ι κ) (a : SiteAction ι κ) : Prop :=
  ∀ i n, a = .start i → s.starts i = .preparing (.listed n) →
    s.tree.find (buildDir ctx jobName n) = none → NotPlanned ctx jobName s.maintains n

end Model

variable {P : ProtoUtils} {ctx : Context} {jobName script : Str}

/-! ### Processes without interruption -/

theorem Starter.step_preparing (w : Starter) (t : FileTree) {stage : PrepareStage}
    (h : ∀ handle ec, stage ≠ .finished handle ec) :
    w.step P ctx jobName script t (.preparing stage) =
      (w.toPreparation.step P ctx jobName script t stage).map fun r => (r.1, .preparing r.2) := by
  cases stage with
  | finished handle ec => exact absurd rfl (h handle ec)
  | start => rfl
  | listed n => rfl
  | created n => rfl
  | copied n => rfl
  | paramsWritten n => rfl
  | confCopied n => rfl

theorem Starter.run_preparing {w : Starter} {t t' : FileTree} {stage stage' : PrepareStage} {k : Nat}
    (h : run (fun r (_ : Unit) => w.toPreparation.step P ctx jobName script r.1 r.2) (t, stage)
      (List.replicate k ()) = some (t', stage')) :
    run (fun r (_ : Unit) => w.step P ctx jobName script r.1 r.2) (t, .preparing stage)
      (List.replicate k ()) = some (t', .preparing stage') := by
  induction k generalizing t stage with
  | zero =>
    cases h
    rfl
  | succ k ih =>
    rw [List.replicate_succ] at h ⊢
    obtain ⟨⟨t₁, stage₁⟩, hOne, hRest⟩ := run_cons_eq_some.mp h
    have hNot : ∀ handle ec, stage ≠ .finished handle ec := by
      rintro handle ec rfl
      cases hOne
    refine run_cons_eq_some.mpr ⟨(t₁, .preparing stage₁), ?_, ih hRest⟩
    exact (Starter.step_preparing w t hNot).trans (congrArg (Option.map _) hOne)

/-- The steps of one starter are the build that `startjob` runs. -/
theorem Starter.steps_eq_runBuild (P : ProtoUtils) (w : Starter) {job : Job}
    (hPlaced : job.Placed ctx) (t : FileTree) (env : Nat → SortedMap Str Str) :
    ∃ k, run (fun r (_ : Unit) => w.step P ctx job.name job.config.script r.1 r.2)
        (t, .preparing .start) (List.replicate k ()) =
      some ((job.runBuild P w.os t ctx w.session w.params env w.force fun _ => w.script).tree,
        .ended (job.runBuild P w.os t ctx w.session w.params env w.force fun _ => w.script).ec) := by
  obtain ⟨k, hPrepare⟩ := Preparation.steps_eq_prepareBuild P ctx w.toPreparation job t
  have hPrepared := Starter.run_preparing hPrepare
  have hEnd : ∀ m r, run (fun r (_ : Unit) => w.step P ctx job.name job.config.script r.1 r.2)
      ((job.prepareBuild P w.os t ctx w.session w.params).1, .preparing (.finished
        (job.prepareBuild P w.os t ctx w.session w.params).2.2.1
        (job.prepareBuild P w.os t ctx w.session w.params).2.2.2)) (List.replicate m ()) = some r →
      ∃ k, run (fun r (_ : Unit) => w.step P ctx job.name job.config.script r.1 r.2)
        (t, .preparing .start) (List.replicate k ()) = some r := by
    intro m r hr
    refine ⟨k + m, ?_⟩
    rw [List.replicate_add]
    exact run_append_eq_some.mpr ⟨_, hPrepared, hr⟩
  rcases hBuild : job.prepareBuild P w.os t ctx w.session w.params with ⟨t₁, job', handle, _ | e⟩
  swap
  · have hHandle := prepareBuild_handle_iff P w.os job t ctx w.session w.params
    rw [hBuild] at hEnd hHandle
    obtain rfl : handle = none := by simpa using hHandle
    apply hEnd 1
    simp only [Job.runBuild, hBuild]
    rfl
  have hHandle := prepareBuild_handle_iff P w.os job t ctx w.session w.params
  rw [hBuild] at hEnd hHandle
  obtain ⟨n, rfl⟩ := Option.ne_none_iff_exists'.mp (hHandle.mpr rfl)
  have hDir := prepareBuild_pending hPlaced hBuild
  obtain ⟨_, _, _, _, _, _, hJob⟩ := prepareBuild_handle hBuild
  have hScript : job'.config.script = job.config.script := by rw [hJob]
  rcases hEnsure : ensureExecutable w.os t₁ (buildDir ctx job.name n / job.config.script) w.force with
    ⟨t₂, _ | e⟩
  swap
  · apply hEnd 1
    simp only [Job.runBuild, hBuild, Option.getD_some, Job.execute, hDir, hScript, hEnsure,
      List.replicate, run, step, Option.bind_some]
  rcases hOpen : w.os.openOfstream t₂ (buildDir ctx job.name n / "output.txt") with _ | t₃
  · apply hEnd 1
    simp only [Job.runBuild, hBuild, Option.getD_some, Job.execute, hDir, hScript, hEnsure, hOpen,
      List.replicate, run, step, Option.bind_some]
    rfl
  have hExists : t₃.pathExists (buildDir ctx job.name n / "output.txt") = true := by
    rw [Os.openOfstream_eq_some hOpen]
    exact congrArg Option.isSome (SortedMap.find_insert_self t₂ _ _)
  apply hEnd 2
  rcases hExit : onExit w.os (t₃.overwrite (buildDir ctx job.name n / "output.txt")
    (outputText w.script.output)) (buildDir ctx job.name n) (-1) w.script.status with
    ⟨t₄, _ | e, status⟩
  · simp only [Job.runBuild, hBuild, Option.getD_some, Job.execute, hDir, hScript, hEnsure, hOpen,
      hExit, hExists, if_true, List.replicate, run, step, Option.bind_some]
  · simp only [Job.runBuild, hBuild, Option.getD_some, Job.execute, hDir, hScript, hEnsure, hOpen,
      hExit, hExists, if_true, List.replicate, run, step, Option.bind_some]

theorem removing_steps (P : ProtoUtils) (ctx : Context) (jobName : Str) (os : Os) (t : FileTree)
    (plan : List FsPath) :
    ∃ k, run (fun r (_ : Unit) => maintainStep P ctx jobName os r.1 r.2) (t, .removing plan)
        (List.replicate k ()) =
      some ((removeDirs os t plan).1, .ended (removeDirs os t plan).2) := by
  induction plan generalizing t with
  | nil => exact ⟨1, rfl⟩
  | cons dir plan ih =>
    rcases hRemove : os.removeAll t dir with ⟨t₁, _ | e⟩
    · obtain ⟨k, hRest⟩ := ih t₁
      refine ⟨k + 1, ?_⟩
      rw [List.replicate_succ]
      refine run_cons_eq_some.mpr ⟨(t₁, .removing plan), ?_, ?_⟩
      · simp only [maintainStep, hRemove]
      · simp only [removeDirs, hRemove]
        exact hRest
    · refine ⟨1, ?_⟩
      simp only [List.replicate, run, maintainStep, removeDirs, hRemove, Option.bind_some]

/-- The steps of one maintenance process are its `main`. -/
theorem maintain_steps_eq_maintenanceMain (P : ProtoUtils) (ctx : Context) (jobName : Str) (os : Os)
    (t : FileTree) :
    ∃ k ec, run (fun r (_ : Unit) => maintainStep P ctx jobName os r.1 r.2) (t, .start)
        (List.replicate k ()) = some ((maintenanceMain P os t ctx jobName).1, .ended ec) ∧
      ((maintenanceMain P os t ctx jobName).2.2 = 0 ↔ ec = none) := by
  rcases hLoad : loadJob P os t ctx jobName with e | job
  · refine ⟨1, fail e, ?_, ?_⟩
    · simp only [List.replicate, run, maintainStep, maintenanceMain, hLoad, Option.bind_some]
    · simp [maintenanceMain, hLoad, fail]
  obtain ⟨k, hRun⟩ := removing_steps P ctx jobName os t job.outdated
  rw [← cleanup_eq_removeDirs] at hRun
  have hStart : maintainStep P ctx jobName os t .start = some (t, .removing job.outdated) := by
    simp only [maintainStep, hLoad]
  refine ⟨k + 1, (job.cleanup os t).2.2, ?_, ?_⟩
  · rw [List.replicate_succ]
    refine run_cons_eq_some.mpr ⟨(t, .removing job.outdated), hStart, hRun.trans ?_⟩
    rcases hCleanup : job.cleanup os t with ⟨t₁, job', _ | e⟩
    · simp only [maintenanceMain, hLoad, hCleanup]
    · simp only [maintenanceMain, hLoad, hCleanup]
  · rcases hCleanup : job.cleanup os t with ⟨t₁, job', _ | e⟩
    · simp [maintenanceMain, hLoad, hCleanup]
    · simp [maintenanceMain, hLoad, hCleanup]

/-! ### What a starter changes -/

/-- A step that leaves the exit codes alone and creates at most the directory
of the `fresh` number. -/
structure Quiet (ctx : Context) (jobName : Str) (fresh : Option Nat) (t t' : FileTree) : Prop where
  kept : ∀ (name : Str) node, t.find (jobPath ctx jobName / name) = some node →
    t'.find (jobPath ctx jobName / name) = some node
  isSome : ∀ q, (t.find q).isSome → (t'.find q).isSome
  exitcode : ∀ n, t'.find (buildDir ctx jobName n / "exitcode.txt") =
    t.find (buildDir ctx jobName n / "exitcode.txt")
  dirs : ∀ n, (t'.find (buildDir ctx jobName n)).isSome →
    (t.find (buildDir ctx jobName n)).isSome ∨ fresh = some n

theorem Quiet.refl (t : FileTree) : Quiet ctx jobName none t t :=
  ⟨fun _ _ h => h, fun _ h => h, fun _ => rfl, fun _ h => Or.inl h⟩

theorem Quiet.insert {t : FileTree} {n : Nat} {name : Str} (hName : name ≠ "exitcode.txt")
    (node : Node) :
    Quiet ctx jobName none t (SortedMap.insert t (buildDir ctx jobName n / name) node) where
  kept name' node' hNode := by
    have hne := child_ne_grandchild (jobPath ctx jobName) name' (numberString n) name
    exact (SortedMap.find_insert_of_ne t node hne).trans hNode
  isSome _ hq := SortedMap.isSome_find_insert t _ _ hq
  exitcode m := by
    apply SortedMap.find_insert_of_ne
    intro hEq
    exact hName (List.cons.inj hEq).1.symm
  dirs m hm := by
    have hne := child_ne_grandchild (jobPath ctx jobName) (numberString m) (numberString n) name
    have hSame : SortedMap.find (SortedMap.insert t (buildDir ctx jobName n / name) node)
        (buildDir ctx jobName m) = t.find (buildDir ctx jobName m) :=
      SortedMap.find_insert_of_ne t node hne
    rw [hSame] at hm
    exact Or.inl hm

theorem Quiet.trans {t t' t'' : FileTree} (h : Quiet ctx jobName none t t')
    (h' : Quiet ctx jobName none t' t'') : Quiet ctx jobName none t t'' where
  kept name node hNode := h'.kept name node (h.kept name node hNode)
  isSome q hq := h'.isSome q (h.isSome q hq)
  exitcode n := (h'.exitcode n).trans (h.exitcode n)
  dirs n hn := (h'.dirs n hn).elim (h.dirs n) fun hFresh => by cases hFresh

theorem Quiet.of_created {t : FileTree} {n : Nat} (hNone : t.find (buildDir ctx jobName n) = none) :
    Quiet ctx jobName (some n) t (SortedMap.insert t (buildDir ctx jobName n) .directory) where
  kept name node hNode := by
    rw [SortedMap.find_insert_of_ne, hNode]
    intro hEq
    rw [hEq, hNone] at hNode
    cases hNode
  isSome _ hq := SortedMap.isSome_find_insert t _ _ hq
  exitcode m := by
    apply SortedMap.find_insert_of_ne
    exact (child_ne_grandchild (jobPath ctx jobName) (numberString n) (numberString m) _).symm
  dirs m hm := by
    obtain rfl | hne := eq_or_ne n m
    · exact Or.inr rfl
    · rw [SortedMap.find_insert_of_ne] at hm
      · exact Or.inl hm
      · intro hEq
        exact hne (buildDir_injective ctx jobName hEq).symm

/-- Only the creation of a directory is not quiet in this sense. -/
theorem Preparation.Move.quiet (hScript : script ≠ "exitcode.txt") {w : Preparation}
    {t t' : FileTree} {stage stage' : PrepareStage}
    (h : w.Move P ctx jobName script t stage t' stage') :
    ∃ fresh, Quiet ctx jobName fresh t t' ∧
      ∀ n, fresh = some n → stage = .listed n ∧ t.find (buildDir ctx jobName n) = none := by
  have hNone : ∀ {t' : FileTree}, Quiet ctx jobName none t t' → ∃ fresh, Quiet ctx jobName fresh t t' ∧
      ∀ n, fresh = some n → stage = .listed n ∧ t.find (buildDir ctx jobName n) = none :=
    fun hQuiet => ⟨none, hQuiet, fun n hn => by cases hn⟩
  cases h with
  | listed => exact hNone (Quiet.refl t)
  | gaveUp => exact hNone (Quiet.refl t)
  | shared => exact hNone (Quiet.refl t)
  | @created n hAbsent =>
    exact ⟨some n, Quiet.of_created hAbsent, fun m hm => by cases hm; exact ⟨rfl, hAbsent⟩⟩
  | copied => exact hNone (Quiet.insert hScript _)
  | paramsWritten => exact hNone (Quiet.insert (by decide) _)
  | confCopied => exact hNone (Quiet.insert (by decide) _)
  | finished => exact hNone (Quiet.insert (by decide) _)

theorem ensureExecutable_quiet (hScript : script ≠ "exitcode.txt") {os : Os} {t t' : FileTree} {n : Nat}
    {force : Bool} {ec : Ec}
    (h : ensureExecutable os t (buildDir ctx jobName n / script) force = (t', ec)) :
    Quiet ctx jobName none t t' := by
  unfold ensureExecutable at h
  split at h
  · cases h
    exact Quiet.refl t
  · cases h
    exact Quiet.refl t
  · cases force with
    | false =>
      cases h
      exact Quiet.refl t
    | true =>
      simp only [if_true] at h
      rcases os.makeExecutable_cases t (buildDir ctx jobName n / script) with
        ⟨e, hMake⟩ | ⟨hMake, _⟩ | ⟨text, executable, _, hMake⟩
      · cases hMake.symm.trans h
        exact Quiet.refl t
      · cases hMake.symm.trans h
        exact Quiet.refl t
      · cases hMake.symm.trans h
        exact Quiet.insert hScript _

theorem output_ne_exitcode : "output.txt".toList ≠ "exitcode.txt".toList := by decide

/-- After its preparation a process runs its script, or it ends. -/
theorem Starter.launch_quiet (hScript : script ≠ "exitcode.txt") {w : Starter} {t t' : FileTree}
    {handle : Option Nat} {ec : Ec} {stage' : StartStage}
    (h : w.step P ctx jobName script t (.preparing (.finished handle ec)) = some (t', stage')) :
    Quiet ctx jobName none t t' ∧ ∀ n, stage'.number = some n →
      stage'.owned = some n ∧ (StartStage.preparing (.finished handle ec)).owned = some n := by
  rcases handle with _ | n
  · cases h
    exact ⟨Quiet.refl t, fun n hn => by cases hn⟩
  rcases ec with _ | e
  · simp only [step] at h
    split at h
    · rename_i t₁ e hEnsure
      cases h
      exact ⟨ensureExecutable_quiet hScript hEnsure, fun n hn => by cases hn⟩
    · rename_i t₁ hEnsure
      have hQuiet := ensureExecutable_quiet hScript hEnsure
      split at h
      · cases h
        exact ⟨hQuiet, fun n hn => by cases hn⟩
      · rename_i t₂ hOpen
        cases h
        rw [Os.openOfstream_eq_some hOpen]
        exact ⟨hQuiet.trans (Quiet.insert output_ne_exitcode _), fun m hm => ⟨hm, hm⟩⟩
  · cases h
    exact ⟨Quiet.refl t, fun n hn => by cases hn⟩

/-- When its script has exited a process ends, in most cases after recording the status. -/
theorem Starter.exit_cases {w : Starter} {t t' : FileTree} {n : Nat} {stage' : StartStage}
    (h : w.step P ctx jobName script t (.running n) = some (t', stage')) :
    ∃ t₁ ec, stage' = .ended ec ∧ Quiet ctx jobName none t t₁ ∧
      (t' = t₁ ∨ ∃ e, t' = t₁.write (buildDir ctx jobName n / "exitcode.txt") (exitcodeText e)) := by
  simp only [step, Option.some.injEq, Prod.mk.injEq] at h
  obtain ⟨rfl, rfl⟩ := h
  have hOutput : Quiet ctx jobName none t
      (if t.pathExists (buildDir ctx jobName n / "output.txt") then
        t.overwrite (buildDir ctx jobName n / "output.txt") (outputText w.script.output) else t) := by
    split
    · exact Quiet.insert output_ne_exitcode _
    · exact Quiet.refl t
  refine ⟨_, _, rfl, hOutput, ?_⟩
  obtain ⟨e, hTree, _⟩ | ⟨e, _, hExit⟩ := onExit_cases w.os (if t.pathExists
      (buildDir ctx jobName n / "output.txt") then t.overwrite (buildDir ctx jobName n / "output.txt")
        (outputText w.script.output) else t) (buildDir ctx jobName n) (-1) w.script.status
  · exact Or.inl hTree
  · exact Or.inr ⟨e, by rw [hExit]⟩

/-- What a step of a starter can do: it prepares its build, it starts or ends
without recording anything, or it records an exit status. -/
theorem Starter.step_cases (hScript : script ≠ "exitcode.txt") {w : Starter} {t t' : FileTree}
    {stage stage' : StartStage} (h : w.step P ctx jobName script t stage = some (t', stage')) :
    (∃ old new, stage = .preparing old ∧ stage' = .preparing new ∧
      w.toPreparation.Move P ctx jobName script t old t' new) ∨
    (Quiet ctx jobName none t t' ∧ ∀ n, stage'.number = some n →
      stage'.owned = some n ∧ stage.owned = some n) ∨
    ∃ n t₁ e ec, stage = .running n ∧ stage' = .ended ec ∧ Quiet ctx jobName none t t₁ ∧
      t' = t₁.write (buildDir ctx jobName n / "exitcode.txt") (exitcodeText e) := by
  cases stage with
  | preparing old =>
    by_cases hFinished : ∃ handle ec, old = .finished handle ec
    · obtain ⟨handle, ec, rfl⟩ := hFinished
      exact Or.inr (Or.inl (Starter.launch_quiet hScript h))
    · have hNot : ∀ handle ec, old ≠ .finished handle ec :=
        fun handle ec hOld => hFinished ⟨handle, ec, hOld⟩
      rw [Starter.step_preparing w t hNot] at h
      obtain ⟨⟨u, new⟩, hOne, hEq⟩ := Option.map_eq_some_iff.mp h
      cases hEq
      exact Or.inl ⟨old, new, rfl, rfl, Preparation.move_of_step hOne⟩
  | running n =>
    obtain ⟨t₁, ec, rfl, hQuiet, rfl | ⟨e, rfl⟩⟩ := Starter.exit_cases h
    · exact Or.inr (Or.inl ⟨hQuiet, fun m hm => by cases hm⟩)
    · exact Or.inr (Or.inr ⟨n, t₁, e, ec, rfl, rfl, hQuiet, rfl⟩)
  | ended ec => cases h

end CisCore
