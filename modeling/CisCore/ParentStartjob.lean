import CisCore.Lineage

/-! # The id of the launching process

A context parses `parent_startjob_id` from its environment, but no process
writes that variable. Below a process it is what it was in that process's own
context: a number given from outside the core or none.
-/

namespace CisCore

variable {P : ProtoUtils}

/-- Every process below another one knows that one's id. -/
def ProcessTree.ParentsKnown (tree : ProcessTree P) : Prop :=
  ∀ own nested parent above, tree.Under (.startjob own nested) (parent :: above) →
    own.ctx.parentStartjobId = parent.ctx.processId

/-- The number that the context of a process holds for the processes below it. -/
def JobProcess.passedId (p : JobProcess P) : Nat :=
  (u32FromString (p.ctx.getEnvVar p.os "parent_startjob_id")).getD 0

/-- Every process that launched others found its own id in the environment or
in the configuration of the core. -/
def ProcessTree.IdsGiven (tree : ProcessTree P) : Prop :=
  ∀ own nested parent above, tree.Under (.startjob own nested) (parent :: above) →
    parent.passedId = parent.processId

namespace JobProcess

variable (p : JobProcess P)

theorem ctx_processId : p.ctx.processId = p.processId := by
  obtain ⟨_, hContext⟩ := initContext_eq_ok p.started
  rw [hContext]
  rfl

theorem ctx_parentStartjobId :
    p.ctx.parentStartjobId = (u32FromString (p.os.getEnvVar "parent_startjob_id")).getD 0 := by
  obtain ⟨_, hContext⟩ := initContext_eq_ok p.started
  rw [hContext]
  rfl

theorem find_launch_parentId {launch : Launch} (h : p.result.launch = some launch) :
    launch.env.find "parent_startjob_id" = p.ctx.env.find "parent_startjob_id" := by
  rw [launch_env h, find_exportBuild_of_ne _ _ _ _ (by decide) (by decide) (by decide) (by decide),
    p.find_sessionCtx_of_ne (by decide) (by decide)]

end JobProcess

/-- The text of a variable is the same in a context and in a process started
with its environment. -/
theorem getEnvVar_inherited {os os' : Os} (h : os.SplitsAtColon) (h' : os'.SplitsAtColon)
    {ctx : Context} {name : Str} (hFind : os'.environment.find name = ctx.env.find name) :
    os'.getEnvVar name = ctx.getEnvVar os name := by
  rw [Os.getEnvVar, Context.getEnvVar, hFind]
  cases ctx.env.find name with
  | none => rfl
  | some value =>
    simp only [List.headD_eq_head?_getD, h value, h' value]

section Ids

variable {tree : ProcessTree P} {environment : SortedMap Str Str}
  (hRuns : tree.Runs environment) (hSplits : tree.SplitsAtColon)
include hRuns hSplits

/-- A process takes the number that the process above it passes on. -/
theorem parentStartjobId_eq {own parent : JobProcess P} {nested : List (ProcessTree P)}
    {above : List (JobProcess P)} (h : tree.Under (.startjob own nested) (parent :: above)) :
    own.ctx.parentStartjobId = parent.passedId := by
  obtain ⟨_, launch, hAbove, hLaunch, hInherits⟩ := h.inherits hRuns
  have hFind := JobProcess.find_launch_parentId parent hLaunch
  rw [← hInherits] at hFind
  have hText : own.os.getEnvVar "parent_startjob_id" =
      parent.ctx.getEnvVar parent.os "parent_startjob_id" :=
    getEnvVar_inherited (hSplits _ _ hAbove) (hSplits _ _ h) hFind
  rw [JobProcess.ctx_parentStartjobId, JobProcess.passedId, hText]

/-- Every process of a tree knows the id of the one that launched it exactly if
those ids were in the environment all along. -/
theorem parents_known_iff : tree.ParentsKnown ↔ tree.IdsGiven := by
  constructor
  · intro h own nested parent above hUnder
    rw [← parentStartjobId_eq hRuns hSplits hUnder, h own nested parent above hUnder,
      JobProcess.ctx_processId]
  · intro h own nested parent above hUnder
    rw [parentStartjobId_eq hRuns hSplits hUnder, h own nested parent above hUnder,
      JobProcess.ctx_processId]

omit hSplits in
/-- Where neither the root nor the configuration mentions the variable, it never
appears. -/
theorem find_parentId_none (hRoot : environment.find "parent_startjob_id" = none)
    (hConf : ∀ sub above, tree.Under sub above →
      sub.own.ctx.env.find "parent_startjob_id" = sub.own.environment.find "parent_startjob_id")
    {sub : ProcessTree P} {above : List (JobProcess P)} (h : tree.Under sub above) :
    sub.own.ctx.env.find "parent_startjob_id" = none := by
  induction h with
  | root => rw [hConf tree [] .root, hRuns.inherits_own, hRoot]
  | @nested own nested above child hUnder hChild ih =>
    have hBelow := ProcessTree.Under.nested hUnder hChild
    obtain ⟨_, launch, _, hLaunch, hInherits⟩ := hBelow.inherits hRuns
    rw [hConf child _ hBelow, hInherits, JobProcess.find_launch_parentId own hLaunch]
    exact ih

/-- Then every process of the tree takes 0 for the id of the one that launched it. -/
theorem parentStartjobId_unset (hRoot : environment.find "parent_startjob_id" = none)
    (hConf : ∀ sub above, tree.Under sub above →
      sub.own.ctx.env.find "parent_startjob_id" = sub.own.environment.find "parent_startjob_id")
    {own parent : JobProcess P} {nested : List (ProcessTree P)} {above : List (JobProcess P)}
    (h : tree.Under (.startjob own nested) (parent :: above)) : own.ctx.parentStartjobId = 0 := by
  obtain ⟨_, _, hAbove, _⟩ := h.inherits hRuns
  have hNone : parent.ctx.env.find "parent_startjob_id" = none :=
    find_parentId_none hRuns hRoot hConf hAbove
  rw [parentStartjobId_eq hRuns hSplits h, JobProcess.passedId, Context.getEnvVar, hNone]
  rfl

end Ids

theorem parents_known_iff_two : twoProcesses.ParentsKnown ↔ twoProcesses.IdsGiven :=
  parents_known_iff twoProcesses_runs twoProcesses_splits

/-- Process 8, launched by the script of process 7, takes 0 for its parent. -/
theorem parent_unknown : twoProcesses.Runs siteEnv ∧ twoProcesses.SplitsAtColon ∧
    nestedJob.ctx.parentStartjobId = 0 ∧ rootJob.ctx.processId = 7 ∧
    ¬twoProcesses.ParentsKnown := by
  have hId : nestedJob.ctx.parentStartjobId = 0 := by decide
  refine ⟨twoProcesses_runs, twoProcesses_splits, hId, rfl, fun h => ?_⟩
  have hUnder : twoProcesses.Under (.startjob nestedJob []) [rootJob] :=
    .nested .root List.mem_cons_self
  have hKnown := h nestedJob [] rootJob [] hUnder
  rw [hId] at hKnown
  cases hKnown

end CisCore
