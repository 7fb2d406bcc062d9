import CisCore.Concurrent.Site
import CisCore.Cron.Writers
import CisCore.Job.Interrupted
import CisCore.Library.Locality
import CisCore.Session.Writers

/-! # The parts of a site

A site has its jobs, the values and the parameters of its sessions and the crons
file. The processes that work on one part depend on the files of that part only,
and nobody else changes them. So whatever holds of the processes of one part on
their own holds of them in a site where all the others run as well.
-/

namespace CisCore

open Locality Transition

inductive SitePart where
  | job (name : Str)
  | values (sessionId : Str)
  | params (sessionId : Str)
  | crons
deriving DecidableEq

def valuesPath (ctx : Context) (sessionId : Str) : FsPath := sessionDat ctx ⟨sessionId, false⟩

def paramsPath (ctx : Context) (sessionId : Str) : FsPath := sessionPrm ctx ⟨sessionId, false⟩

/-- What the processes of a part depend on. -/
def SitePart.reads (ctx : Context) : SitePart → Set FsPath
  | .job name => {q | jobPath ctx name <:+ q}
  | .values sessionId => {ctx.baseDir / "sessions", valuesPath ctx sessionId}
  | .params sessionId => {ctx.baseDir / "sessions", paramsPath ctx sessionId}
  | .crons => {ctx.baseDir / "core", cronsFile ctx}

def SitePart.writes (ctx : Context) : SitePart → Set FsPath
  | .job name => {q | jobPath ctx name <:+ q}
  | .values sessionId => {valuesPath ctx sessionId}
  | .params sessionId => {paramsPath ctx sessionId}
  | .crons => {cronsFile ctx}

/-! ### The operations of the file system -/

section Operations

variable {R W : Set FsPath} {t t' : FileTree} {p : FsPath}

theorem agreeOn_pathExists (h : AgreeOn R t t') (hp : p ∈ R) : t'.pathExists p = t.pathExists p := by
  rw [FileTree.pathExists, FileTree.pathExists, h p hp]

theorem agreeOn_isDirectory (h : AgreeOn R t t') (hp : p ∈ R) :
    t'.isDirectory p = t.isDirectory p := by
  rw [FileTree.isDirectory, FileTree.isDirectory, h p hp]

theorem AgreeOn.write (h : AgreeOn R t t') (hp : p ∈ R) (text : Str) :
    AgreeOn R (t.write p text) (t'.write p text) := by
  rw [FileTree.write, FileTree.write, h p hp]
  exact AgreeOn.insert h p _

theorem AgreeOn.overwrite (h : AgreeOn R t t') (hp : p ∈ R) (text : Str) :
    AgreeOn R (t.overwrite p text) (t'.overwrite p text) := by
  rw [FileTree.overwrite, FileTree.overwrite, FileTree.content_congr (h p hp)]
  exact AgreeOn.write h hp _

theorem agreeOn_write_of_mem (hp : p ∈ W) (t : FileTree) (text : Str) :
    AgreeOn Wᶜ t (t.write p text) := by
  intro q hq
  exact FileTree.find_write_of_ne text fun hEq => hq (hEq ▸ hp)

variable (os : Os)

theorem createDirectory_local (hp : p ∈ R) (hParent : p.tail ∈ R) (hW : p ∈ W) :
    Local R W fun t => some (os.createDirectory t p).2 := by
  refine .total (fun t t' hAgree => ?_) fun t q hq =>
    Os.createDirectory_sameOutside hW rfl q hq
  rw [Os.createDirectory, Os.createDirectory, hAgree p hp, agreeOn_isDirectory hAgree hParent]
  repeat' split
  all_goals first | exact ⟨rfl, hAgree⟩ | exact ⟨rfl, hAgree.insert p _⟩

theorem copy_local {src : FsPath} (hSrc : src ∈ R) (hp : p ∈ R) (hParent : p.tail ∈ R)
    (hW : p ∈ W) : Local R W fun t => some (os.copy t src p) := by
  refine .total (fun t t' hAgree => ?_) fun t q hq => Os.copy_sameOutside hW rfl q hq
  rw [Os.copy, Os.copy, hAgree src hSrc, agreeOn_pathExists hAgree hp,
    agreeOn_isDirectory hAgree hParent]
  repeat' split
  all_goals first | exact ⟨rfl, hAgree⟩ | exact ⟨rfl, hAgree.insert p _⟩

/-- The tree after an attempt to open the stream, and whether it opened. -/
def openedOfstream (t : FileTree) (p : FsPath) : FileTree × Bool :=
  ((os.openOfstream t p).getD t, (os.openOfstream t p).isSome)

theorem openOfstream_local (hp : p ∈ R) (hParent : p.tail ∈ R) (hW : p ∈ W) :
    Local R W fun t => some (openedOfstream os t p) := by
  refine .total (fun t t' hAgree => ?_) fun t => ?_
  · rw [openedOfstream, openedOfstream, Os.openOfstream, Os.openOfstream, hAgree p hp,
      agreeOn_isDirectory hAgree hParent]
    repeat' split
    all_goals first | exact ⟨rfl, hAgree⟩ | exact ⟨rfl, AgreeOn.write hAgree hp []⟩
  · rw [openedOfstream]
    cases hOpen : os.openOfstream t p with
    | none => exact AgreeOn.refl _ t
    | some t₁ =>
      rw [Os.openOfstream_eq_some hOpen]
      exact agreeOn_write_of_mem hW t []

theorem overwrite_local (hp : p ∈ R) (hW : p ∈ W) (text : Str) :
    Local R W fun t : FileTree => some (t.overwrite p text, ()) :=
  .total (fun _ _ hAgree => ⟨rfl, AgreeOn.overwrite hAgree hp text⟩) fun t =>
    agreeOn_write_of_mem hW t _

/-- The tree after an attempt to write the file, and whether that worked. -/
def writtenFile (t : FileTree) (p : FsPath) (text : Str) : FileTree × Bool :=
  ((os.writeFile t p text).getD t, (os.writeFile t p text).isSome)

theorem writeFile_local (hp : p ∈ R) (hParent : p.tail ∈ R) (hW : p ∈ W) (text : Str) :
    Local R W fun t => some (writtenFile os t p text) := by
  have hRest : ∀ opened : Bool, Local R W fun t : FileTree =>
      some (if opened then t.overwrite p text else t, opened) := by
    intro opened
    cases opened with
    | true => exact (overwrite_local hp hW text).map fun _ => true
    | false => exact .pure false
  refine ((openOfstream_local os hp hParent hW).bind hRest).of_eq fun t => ?_
  rw [writtenFile, Os.writeFile, openedOfstream]
  cases os.openOfstream t p <;> rfl

theorem ensureExecutable_local (hp : p ∈ R) (hW : p ∈ W) (force : Bool) :
    Local R W fun t => some (ensureExecutable os t p force) := by
  refine .total (fun t t' hAgree => ?_) fun t q hq =>
    ensureExecutable_sameOutside hW rfl q hq
  have hExecutable : os.isExecutable t' p = os.isExecutable t p := by
    rw [Os.isExecutable, Os.isExecutable, agreeOn_pathExists hAgree hp, FileTree.isExecutable,
      FileTree.isExecutable, hAgree p hp]
  have hMake : (os.makeExecutable t' p).2 = (os.makeExecutable t p).2 ∧
      AgreeOn R (os.makeExecutable t p).1 (os.makeExecutable t' p).1 := by
    rw [Os.makeExecutable, Os.makeExecutable, hAgree p hp]
    repeat' split
    all_goals first | exact ⟨rfl, hAgree⟩ | exact ⟨rfl, hAgree.insert p _⟩
  rw [ensureExecutable, ensureExecutable, hExecutable]
  repeat' split
  all_goals first | exact ⟨rfl, hAgree⟩ | exact hMake

/-- The output that is lost when the file is gone. -/
theorem writeOutput_local (hp : p ∈ R) (hW : p ∈ W) (text : Str) :
    Local R W fun t : FileTree => some (if t.pathExists p then t.overwrite p text else t, ()) := by
  refine .total (fun t t' hAgree => ⟨rfl, ?_⟩) fun t => ?_
  · rw [agreeOn_pathExists hAgree hp]
    split
    · exact AgreeOn.overwrite hAgree hp text
    · exact hAgree
  · split
    · exact agreeOn_write_of_mem hW t _
    · exact AgreeOn.refl _ t

theorem onExit_local {dir : FsPath} (hp : dir / "exitcode.txt" ∈ R) (hParent : dir ∈ R)
    (hW : dir / "exitcode.txt" ∈ W) (exitCode : Int32) (status : Option Int32) :
    Local R W fun t => some (onExit os t dir exitCode status) := by
  cases status with
  | none => exact .pure _
  | some status =>
    refine ((writeFile_local os hp hParent hW (exitcodeText status)).map fun written =>
      (if written then none else fail .cantOpenBuildExitCodeFile, status)).of_eq fun t => ?_
    rw [onExit, recordExitcode, writtenFile]
    cases os.writeFile t (dir / "exitcode.txt") (exitcodeText status) <;> rfl

theorem removeAll_local (hW : ∀ q, p <:+ q → q ∈ W) :
    Local R W fun t => some (os.removeAll t p) := by
  refine .total (fun t t' hAgree => ?_) fun t q hq => ?_
  · rw [Os.removeAll, Os.removeAll]
    split
    · exact ⟨rfl, hAgree.filterKeys _⟩
    · exact ⟨rfl, hAgree.filterKeys _⟩
  · have hOutside : ¬p <:+ q := fun hBelow => hq (hW q hBelow)
    rw [Os.removeAll]
    split
    · simp [SortedMap.find_filterKeys, hOutside]
    · exact FileTree.find_removeAll_of_not_suffix hOutside

end Operations

/-! ### The processes of a job -/

section Job

variable {P : ProtoUtils} {ctx : Context} {jobName script : Str}

theorem mem_job_reads (ctx : Context) (jobName name : Str) :
    jobPath ctx jobName / name ∈ (SitePart.job jobName).reads ctx :=
  FileTree.suffix_child (jobPath ctx jobName) name

theorem mem_build_reads (ctx : Context) (jobName : Str) (n : Nat) (name : Str) :
    buildDir ctx jobName n / name ∈ (SitePart.job jobName).reads ctx :=
  (FileTree.suffix_child (jobPath ctx jobName) (numberString n)).trans
    (FileTree.suffix_child (buildDir ctx jobName n) name)

variable {t t' : FileTree} (h : AgreeOn ((SitePart.job jobName).reads ctx) t t')
include h

theorem nextBuildNumber_agree :
    nextBuildNumber t' (jobPath ctx jobName) = nextBuildNumber t (jobPath ctx jobName) := by
  have hDirs : ∀ n, t'.isDirectory (jobPath ctx jobName / numberString n) =
      t.isDirectory (jobPath ctx jobName / numberString n) := fun n =>
    agreeOn_isDirectory h (mem_job_reads ctx jobName (numberString n))
  apply le_antisymm
  · exact nextBuildNumber_mono fun n _ hDir => (hDirs n) ▸ hDir
  · exact nextBuildNumber_mono fun n _ hDir => (hDirs n).symm ▸ hDir

theorem loadBuilds_agree (os : Os) :
    loadBuilds os t' (jobPath ctx jobName) = loadBuilds os t (jobPath ctx jobName) := by
  apply Builds.ext_get
  intro status n
  apply Option.ext
  intro p
  rw [find_loadBuilds, find_loadBuilds]
  have hSame : p = jobPath ctx jobName / numberString n →
      t'.pathExists p = t.pathExists p ∧ buildStatus os t' p = buildStatus os t p := by
    rintro rfl
    exact ⟨agreeOn_pathExists h (mem_job_reads ctx jobName (numberString n)),
      buildStatus_congr (h _ (mem_build_reads ctx jobName n _)) os⟩
  constructor
  · rintro ⟨hLt, hPath, hExists, hStatus⟩
    obtain ⟨hPathEq, hStatusEq⟩ := hSame hPath
    exact ⟨hLt, hPath, hPathEq ▸ hExists, hStatusEq ▸ hStatus⟩
  · rintro ⟨hLt, hPath, hExists, hStatus⟩
    obtain ⟨hPathEq, hStatusEq⟩ := hSame hPath
    exact ⟨hLt, hPath, hPathEq ▸ hExists, hStatusEq ▸ hStatus⟩

theorem loadJob_agree (os : Os) : loadJob P os t' ctx jobName = loadJob P os t ctx jobName := by
  have hExists : ∀ name : Str, os.surelyExists t' (jobPath ctx jobName / name) =
      os.surelyExists t (jobPath ctx jobName / name) := fun name => by
    rw [Os.surelyExists, Os.surelyExists, Os.pathExists_congr (h _ (mem_job_reads ctx jobName name))]
  have hJob : os.surelyExists t' (jobPath ctx jobName) = os.surelyExists t (jobPath ctx jobName) := by
    rw [Os.surelyExists, Os.surelyExists, Os.pathExists_congr (h _ List.suffix_rfl)]
  have hOpen : ∀ name : Str, os.openIfstream t' (jobPath ctx jobName / name) =
      os.openIfstream t (jobPath ctx jobName / name) := fun name =>
    Os.openIfstream_congr (h _ (mem_job_reads ctx jobName name)) os
  simp only [FileTree.div_str] at hExists hOpen
  simp only [loadJob, loadConfig, loadParams, FileTree.div_str, FileTree.div_string, hJob, hExists, hOpen,
    loadBuilds_agree h os]

end Job

theorem Preparation.step_local (P : ProtoUtils) (ctx : Context) (jobName script : Str)
    (w : Preparation) (stage : PrepareStage) :
    Local ((SitePart.job jobName).reads ctx) ((SitePart.job jobName).writes ctx)
      fun t => w.step P ctx jobName script t stage := by
  have hJob := mem_job_reads ctx jobName
  have hBuild := mem_build_reads ctx jobName
  have hSelf : jobPath ctx jobName ∈ (SitePart.job jobName).reads ctx := List.suffix_rfl
  cases stage with
  | start => exact .look fun t t' hAgree => by rw [nextBuildNumber_agree hAgree]
  | listed n =>
    refine ((createDirectory_local w.os (p := buildDir ctx jobName n) (hJob _) hSelf (hJob _)).map
      fun ec => ec.elim (PrepareStage.created n) fun e => .finished none (some e)).of_eq fun t => ?_
    rcases hCreate : w.os.createDirectory t (buildDir ctx jobName n) with ⟨made, t₁, _ | e⟩
    all_goals
      simp only [Preparation.step, hCreate]
      rfl
  | created n =>
    refine ((copy_local w.os (hJob script) (hBuild n script) (hJob _) (hBuild n script)).map
      fun ec => ec.elim (PrepareStage.copied n) fun e => .finished none (some e)).of_eq fun t => ?_
    rcases hCopy : w.os.copy t (jobPath ctx jobName / script) (buildDir ctx jobName n / script)
      with ⟨t₁, _ | e⟩
    all_goals
      simp only [Preparation.step, hCopy]
      rfl
  | copied n =>
    refine ((writeFile_local w.os (hBuild n "job.params".toList) (hJob _) (hBuild n _)
      (P.encodedLines w.params)).map fun written =>
        if written then PrepareStage.paramsWritten n
        else .finished none (fail .cantWriteJobParamsFile)).of_eq fun t => ?_
    rw [writtenFile]
    simp only [Preparation.step, FileTree.div_str, FileTree.div_string]
    cases w.os.writeFile t _ (P.encodedLines w.params) <;> rfl
  | paramsWritten n =>
    refine ((copy_local w.os (hJob "job.conf".toList) (hBuild n "job.conf".toList) (hJob _)
      (hBuild n "job.conf".toList)).map fun ec => ec.elim (PrepareStage.confCopied n) fun _ =>
        .finished none (fail .cantWriteJobConfFile)).of_eq fun t => ?_
    simp only [Preparation.step, FileTree.div_str, FileTree.div_string]
    rcases w.os.copy t _ _ with ⟨t₁, _ | e⟩ <;> rfl
  | confCopied n =>
    refine ((writeFile_local w.os (hBuild n "session_id.txt".toList) (hJob _) (hBuild n _)
      (sessionIdText w.session)).map fun written =>
        if written then PrepareStage.finished (some n) none
        else .finished none (fail .cantWriteSessionIdFile)).of_eq fun t => ?_
    rw [writtenFile]
    simp only [Preparation.step, FileTree.div_str, FileTree.div_string]
    cases w.os.writeFile t _ (sessionIdText w.session) <;> rfl
  | finished handle ec => exact .none

/-- What follows the check of the script when a build is launched. -/
def Starter.openOutput (w : Starter) (dir : FsPath) (n : Nat) (t : FileTree) :
    Ec → FileTree × StartStage
  | some e => (t, .ended (some e))
  | none =>
    match w.os.openOfstream t (dir / "output.txt") with
    | none => (t, .ended (fail .cantOpenBuildOutputFile))
    | some t => (t, .running n)

theorem Starter.openOutput_local {R W : Set FsPath} (w : Starter) {dir : FsPath} (n : Nat) (ec : Ec)
    (hp : dir / "output.txt" ∈ R) (hParent : dir ∈ R) (hW : dir / "output.txt" ∈ W) :
    Local R W fun t => some (w.openOutput dir n t ec) := by
  cases ec with
  | some e => exact .pure _
  | none =>
    refine ((openOfstream_local w.os hp hParent hW).map fun opened =>
      if opened then StartStage.running n
      else .ended (fail .cantOpenBuildOutputFile)).of_eq fun t => ?_
    simp only [Starter.openOutput, openedOfstream]
    cases w.os.openOfstream t (dir / "output.txt") <;> rfl

theorem Starter.step_local (P : ProtoUtils) (ctx : Context) (jobName script : Str)
    (w : Starter) (stage : StartStage) :
    Local ((SitePart.job jobName).reads ctx) ((SitePart.job jobName).writes ctx)
      fun t => w.step P ctx jobName script t stage := by
  have hJob := mem_job_reads ctx jobName
  have hBuild := mem_build_reads ctx jobName
  have hPrepare := Preparation.step_local P ctx jobName script w.toPreparation
  cases stage with
  | preparing stage =>
    by_cases hFinished : ∃ handle ec, stage = .finished handle ec
    · obtain ⟨handle, ec, rfl⟩ := hFinished
      rcases handle with _ | n
      · exact .pure _
      rcases ec with _ | e
      · refine ((ensureExecutable_local w.os (hBuild n script) (hBuild n script) w.force).bind
          fun ec => w.openOutput_local n ec (hBuild n "output.txt".toList) (hJob _)
            (hBuild n _)).of_eq fun t => ?_
        simp only [Starter.step, Option.bind_some, Starter.openOutput]
        rcases ensureExecutable w.os t _ w.force with ⟨t₁, _ | e⟩
        · simp only
          cases w.os.openOfstream t₁ _ <;> rfl
        · rfl
      · exact .pure _
    · refine ((hPrepare stage).map StartStage.preparing).of_eq fun t => ?_
      exact Starter.step_preparing w t fun handle ec hEq => hFinished ⟨handle, ec, hEq⟩
  | running n =>
    have hExit : ∀ _ : Unit, Local ((SitePart.job jobName).reads ctx)
        ((SitePart.job jobName).writes ctx) fun t =>
          (some (onExit w.os t (buildDir ctx jobName n) (-1) w.script.status)).map fun r =>
            (r.1, StartStage.ended r.2.1) := fun _ =>
      (onExit_local w.os (hBuild n "exitcode.txt".toList) (hJob _) (hBuild n _) (-1)
        w.script.status).map fun r : Ec × Int32 => StartStage.ended r.1
    exact ((writeOutput_local (hBuild n "output.txt".toList) (hBuild n _)
      (outputText w.script.output)).bind hExit).of_eq fun t => rfl
  | ended ec => exact .none

/-- The directories that a maintenance process still removes are those of the job. -/
def MaintainStage.Inside (ctx : Context) (jobName : Str) (stage : MaintainStage) : Prop :=
  ∀ plan, stage = .removing plan → ∀ dir ∈ plan, jobPath ctx jobName <:+ dir

theorem mem_outdated_of_loadJob {P : ProtoUtils} {os : Os} {t : FileTree} {ctx : Context}
    {jobName : Str} {job : Job} (h : loadJob P os t ctx jobName = .ok job) {dir : FsPath}
    (hDir : dir ∈ job.outdated) : jobPath ctx jobName <:+ dir := by
  rw [Job.outdated_eq_oldest] at hDir
  obtain ⟨status, n, hFind⟩ := exists_of_mem_oldest hDir
  rw [loadJob_placed h status n dir hFind, loadJob_name h]
  exact FileTree.suffix_child _ _

def MaintainStage.planned : Except ErrorCode Job → MaintainStage
  | .error e => .ended (fail e)
  | .ok job => .removing job.outdated

theorem maintainStep_local (P : ProtoUtils) {ctx : Context} {jobName : Str} (os : Os)
    {stage : MaintainStage} (hInside : stage.Inside ctx jobName) :
    Local ((SitePart.job jobName).reads ctx) ((SitePart.job jobName).writes ctx)
      fun t => maintainStep P ctx jobName os t stage := by
  cases stage with
  | start =>
    have hPlan : ∀ t t' : FileTree, AgreeOn ((SitePart.job jobName).reads ctx) t t' →
        MaintainStage.planned (loadJob P os t' ctx jobName) =
          .planned (loadJob P os t ctx jobName) :=
      fun t t' hAgree => congrArg MaintainStage.planned (loadJob_agree hAgree os)
    refine (Local.look hPlan).of_eq fun t => ?_
    rw [maintainStep]
    cases loadJob P os t ctx jobName <;> rfl
  | removing plan =>
    cases plan with
    | nil => exact .pure _
    | cons dir plan =>
      have hDir := hInside _ rfl dir List.mem_cons_self
      refine ((removeAll_local os fun q hq => hDir.trans hq).map fun ec =>
        ec.elim (MaintainStage.removing plan) fun e => .ended (some e)).of_eq fun t => ?_
      rw [maintainStep]
      rcases os.removeAll t dir with ⟨t₁, _ | e⟩ <;> rfl
  | ended ec => exact .none

theorem MaintainStage.Inside.step {P : ProtoUtils} {ctx : Context} {jobName : Str} {os : Os}
    {stage stage' : MaintainStage} (h : stage.Inside ctx jobName) {t t' : FileTree}
    (hStep : maintainStep P ctx jobName os t stage = some (t', stage')) :
    stage'.Inside ctx jobName := by
  cases stage with
  | start =>
    rw [maintainStep] at hStep
    cases hLoad : loadJob P os t ctx jobName with
    | error e =>
      rw [hLoad] at hStep
      cases hStep
      exact fun _ hPlan => (by cases hPlan)
    | ok job =>
      rw [hLoad] at hStep
      cases hStep
      rintro plan hPlan dir hDir
      cases hPlan
      exact mem_outdated_of_loadJob hLoad hDir
  | removing plan =>
    cases plan with
    | nil =>
      cases hStep
      exact fun _ hPlan => (by cases hPlan)
    | cons dir plan =>
      rw [maintainStep] at hStep
      rcases hRemove : os.removeAll t dir with ⟨t₁, _ | e⟩
      · rw [hRemove] at hStep
        cases hStep
        rintro _ hPlan d hd
        cases hPlan
        exact h _ rfl d (List.mem_cons_of_mem dir hd)
      · rw [hRemove] at hStep
        cases hStep
        exact fun _ hPlan => (by cases hPlan)
  | ended ec => cases hStep

/-! ### The other processes -/

section Files

variable {R W : Set FsPath} {p : FsPath} (hp : p ∈ R) (hParent : p.tail ∈ R) (hW : p ∈ W)
include hp hParent hW

theorem Writer.step_local (P : ProtoUtils) (writeError : ErrorCode) (w : Writer)
    (phase : WriterPhase) : Local R W fun t => w.step P p writeError t phase := by
  cases phase with
  | start =>
    have hRead : ∀ t t' : FileTree, AgreeOn R t t' →
        readKvFile P w.os t' p false .cantReadSessionValuesFile =
          readKvFile P w.os t p false .cantReadSessionValuesFile := fun t t' hAgree => by
      rw [readKvFile, readKvFile, Os.pathExists_congr (hAgree p hp),
        Os.openIfstream_congr (hAgree p hp)]
    refine ((Local.look hRead).map fun r =>
      r.1.elim (WriterPhase.finished r.2) fun values => .read values r.2).of_eq fun t => ?_
    rw [Writer.step]
    rcases readKvFile P w.os t p false .cantReadSessionValuesFile with ⟨_ | values, ec⟩ <;> rfl
  | read values ec =>
    refine ((openOfstream_local w.os hp hParent hW).map fun opened =>
      if opened then WriterPhase.opened values ec else .finished (fail writeError)).of_eq fun t => ?_
    rw [Writer.step, openedOfstream]
    cases w.os.openOfstream t p <;> rfl
  | opened values ec => exact (overwrite_local hp hW _).map fun _ => WriterPhase.finished ec
  | finished ec => exact .none

end Files

/-- What a command makes of the table that it has loaded. -/
def CronCommand.changed (c : CronCommand) : Except ErrorCode Crons → CronPhase
  | .error _ => .finished 1
  | .ok crons => if c.edit = .del ∧ c.entry ∉ crons then .finished 1 else .loaded (c.apply crons)

theorem CronCommand.step_local {ε : Type} (makeCron : Str → Option ε) (ctx : Context)
    (c : CronCommand) (phase : CronPhase) :
    Local (SitePart.crons.reads ctx) (SitePart.crons.writes ctx)
      fun t => c.step makeCron ctx t phase := by
  have hp : cronsFile ctx ∈ SitePart.crons.reads ctx := Or.inr rfl
  have hParent : (cronsFile ctx).tail ∈ SitePart.crons.reads ctx := Or.inl rfl
  have hW : cronsFile ctx ∈ SitePart.crons.writes ctx := rfl
  cases phase with
  | start =>
    cases hExpr : makeCron c.cron with
    | none =>
      refine Local.of_eq (.pure (CronPhase.finished 1)) fun t => ?_
      simp only [CronCommand.step, hExpr]
    | some x =>
      have hLoad : ∀ t t' : FileTree, AgreeOn (SitePart.crons.reads ctx) t t' →
          c.changed (loadCronList c.os t' (cronsFile ctx)) =
            c.changed (loadCronList c.os t (cronsFile ctx)) := fun t t' hAgree => by
        rw [loadCronList, loadCronList, Os.openIfstream_congr (hAgree _ hp)]
      refine (Local.look hLoad).of_eq fun t => ?_
      simp only [CronCommand.step, hExpr]
      cases loadCronList c.os t (cronsFile ctx) with
      | error e => rfl
      | ok crons =>
        simp only [CronCommand.changed]
        split_ifs <;> rfl
  | loaded crons =>
    refine ((openOfstream_local c.os hp hParent hW).map fun opened =>
      if opened then CronPhase.writing 0 crons.keys else .finished 0).of_eq fun t => ?_
    rw [CronCommand.step, openedOfstream]
    cases c.os.openOfstream t (cronsFile ctx) <;> rfl
  | writing offset rest =>
    cases rest with
    | nil => exact .pure _
    | cons e rest =>
      have hWrite : Local (SitePart.crons.reads ctx) (SitePart.crons.writes ctx)
          fun t : FileTree => some (t.writeAt (cronsFile ctx) offset e.line, ()) := by
        refine .total (fun t t' hAgree => ⟨rfl, ?_⟩) fun t => agreeOn_write_of_mem hW t _
        rw [FileTree.writeAt, FileTree.writeAt, FileTree.content_congr (hAgree _ hp)]
        exact AgreeOn.write hAgree hp _
      exact hWrite.map fun _ => CronPhase.writing (offset + e.line.length) rest
  | finished status => exact .none

/-! ### The parts side by side -/

/-- The processes that work on a site. A `startjob` process that joins a session takes
parameters from it and sets values there, and so crosses the parts; those here open
their sessions and know the parameters of their builds. -/
structure SiteProcesses (ι : Type) where
  script : Str → Str
  starters : Str → ι → Starter
  opens : ∀ jobName i, (starters jobName i).session.openedByMe = true
  maintainers : Str → ι → Os
  valueWriters : Str → ι → Writer
  paramWriters : Str → ι → Writer
  cronCommands : ι → CronCommand

section Components

variable {ε : Type} (P : ProtoUtils) (makeCron : Str → Option ε) (ctx : Context) {ι : Type}
  [DecidableEq ι] (processes : SiteProcesses ι)

def jobComponent (jobName : Str) : Component FsPath Node where
  State := (ι → StartStage) × (ι → MaintainStage)
  Action := SiteAction ι ι
  reads := (SitePart.job jobName).reads ctx
  writes := (SitePart.job jobName).writes ctx
  step t s a := (Site.step P ctx jobName (processes.script jobName) (processes.starters jobName)
    (processes.maintainers jobName) ⟨t, s.1, s.2⟩ a).map fun r => (r.tree, r.starts, r.maintains)
  Valid s := ∀ k, (s.2 k).Inside ctx jobName
  valid_step t t' s s' a hValid hStep := by
    obtain ⟨r, hSite, hEq⟩ := Option.map_eq_some_iff.mp hStep
    cases hEq
    cases a with
    | start i =>
      obtain ⟨r', _, rfl⟩ := Option.map_eq_some_iff.mp hSite
      exact hValid
    | maintain k =>
      obtain ⟨r', hMaintain, rfl⟩ := Option.map_eq_some_iff.mp hSite
      exact (Function.forall_update_iff s.2 fun _ stage => stage.Inside ctx jobName).mpr
        ⟨(hValid k).step hMaintain, fun k' _ => hValid k'⟩
  isLocal s a hValid := by
    cases a with
    | start i =>
      refine ((Starter.step_local P ctx jobName (processes.script jobName)
        (processes.starters jobName i) (s.1 i)).map fun stage =>
          (Function.update s.1 i stage, s.2)).of_eq fun t => ?_
      rw [Site.step, Option.map_map]
      rfl
    | maintain k =>
      refine ((maintainStep_local P (processes.maintainers jobName k) (hValid k)).map fun stage =>
        (s.1, Function.update s.2 k stage)).of_eq fun t => ?_
      rw [Site.step, Option.map_map]
      rfl
  writes_subset := fun _ h => h

def writersComponent (p : FsPath) (writeError : ErrorCode) (writers : ι → Writer) :
    Component FsPath Node where
  State := ι → WriterPhase
  Action := ι
  reads := {p.tail, p}
  writes := {p}
  step t s i := (Writers.step P p writeError writers ⟨t, s⟩ i).map fun r => (r.tree, r.phase)
  Valid _ := True
  valid_step _ _ _ _ _ _ _ := trivial
  isLocal s i _ := by
    refine ((Writer.step_local (R := {p.tail, p}) (W := {p}) (p := p) (Or.inr rfl) (Or.inl rfl) rfl
      P writeError (writers i) (s i)).map fun phase => Function.update s i phase).of_eq fun t => ?_
    rw [Writers.step, Option.map_map]
    rfl
  writes_subset := fun _ h => Or.inr h

def cronsComponent : Component FsPath Node where
  State := ι → CronPhase
  Action := ι
  reads := SitePart.crons.reads ctx
  writes := SitePart.crons.writes ctx
  step t s i :=
    (CronWriters.step makeCron ctx processes.cronCommands ⟨t, s⟩ i).map fun r => (r.tree, r.phase)
  Valid _ := True
  valid_step _ _ _ _ _ _ _ := trivial
  isLocal s i _ := by
    refine ((CronCommand.step_local makeCron ctx (processes.cronCommands i) (s i)).map fun phase =>
      Function.update s i phase).of_eq fun t => ?_
    rw [CronWriters.step, Option.map_map]
    rfl
  writes_subset := fun _ h => Or.inr h

def siteComponent : SitePart → Component FsPath Node
  | .job jobName => jobComponent P ctx processes jobName
  | .values sessionId => writersComponent P (valuesPath ctx sessionId) .cantReadSessionValuesFile
      (processes.valueWriters sessionId)
  | .params sessionId => writersComponent P (paramsPath ctx sessionId) .cantWriteSessionParamsFile
      (processes.paramWriters sessionId)
  | .crons => cronsComponent makeCron ctx processes

theorem siteComponent_reads (part : SitePart) :
    (siteComponent P makeCron ctx processes part).reads = part.reads ctx := by
  cases part <;> rfl

theorem siteComponent_writes (part : SitePart) :
    (siteComponent P makeCron ctx processes part).writes = part.writes ctx := by
  cases part <;> rfl

end Components

/-! ### No part changes what another one depends on -/

section Apart

variable (ctx : Context)

theorem not_below_job {dir : Str} (hDir : dir ≠ "jobs".toList) (jobName name : Str) :
    ¬jobPath ctx jobName <:+ name :: dir :: ctx.baseDir := by
  intro h
  have hPath : jobPath ctx jobName = jobName :: "jobs".toList :: ctx.baseDir := rfl
  have hEq := h.eq_of_length (by rw [hPath]; rfl)
  rw [hPath] at hEq
  exact hDir (List.cons.inj (List.cons.inj hEq).2).1.symm

theorem not_below_job_top (jobName dir : Str) : ¬jobPath ctx jobName <:+ dir :: ctx.baseDir := by
  intro h
  have hLength := h.length_le
  have hPath : jobPath ctx jobName = jobName :: "jobs".toList :: ctx.baseDir := rfl
  rw [hPath] at hLength
  simp only [List.length_cons] at hLength
  omega

theorem cons_ne_top (name name' dir : Str) : name :: dir :: ctx.baseDir ≠ name' :: ctx.baseDir := by
  intro h
  have hLength := congrArg List.length h
  simp only [List.length_cons] at hLength
  omega

theorem dat_ne_prm (sessionId sessionId' : Str) :
    sessionId ++ ".dat".toList ≠ sessionId' ++ ".prm".toList := by
  intro h
  have hSuffix := (List.append_inj' h rfl).2
  revert hSuffix
  decide

/-- The directory and the name of the file, where a part is a single file. -/
def SitePart.file : SitePart → Option (Str × Str)
  | .job _ => none
  | .values sessionId => some ("sessions", sessionId ++ ".dat".toList)
  | .params sessionId => some ("sessions", sessionId ++ ".prm".toList)
  | .crons => some ("core", "crons")

theorem SitePart.eq_of_file {i j : SitePart} {f : Str × Str} (hi : i.file = some f)
    (hj : j.file = some f) : i = j := by
  have hDir : "sessions".toList ≠ "core".toList := by decide
  cases i with
  | job jobName => cases hi
  | values sessionId =>
    cases hi
    cases j with
    | job jobName => cases hj
    | values sessionId' =>
      have hName := (Prod.mk.inj (Option.some.inj hj)).2
      rw [List.append_cancel_right hName]
    | params sessionId' => exact absurd (Prod.mk.inj (Option.some.inj hj)).2.symm (dat_ne_prm _ _)
    | crons => exact absurd (Prod.mk.inj (Option.some.inj hj)).1.symm hDir
  | params sessionId =>
    cases hi
    cases j with
    | job jobName => cases hj
    | values sessionId' => exact absurd (Prod.mk.inj (Option.some.inj hj)).2 (dat_ne_prm _ _)
    | params sessionId' =>
      have hName := (Prod.mk.inj (Option.some.inj hj)).2
      rw [List.append_cancel_right hName]
    | crons => exact absurd (Prod.mk.inj (Option.some.inj hj)).1.symm hDir
  | crons =>
    cases hi
    cases j with
    | job jobName => cases hj
    | values sessionId => exact absurd (Prod.mk.inj (Option.some.inj hj)).1 hDir
    | params sessionId => exact absurd (Prod.mk.inj (Option.some.inj hj)).1 hDir
    | crons => rfl

theorem SitePart.file_cases (part : SitePart) :
    (∃ jobName, part = .job jobName) ∨ ∃ dir name, part.file = some (dir, name) ∧
      dir ≠ "jobs".toList ∧ part.writes ctx = {name :: dir :: ctx.baseDir} ∧
      part.reads ctx = {dir :: ctx.baseDir, name :: dir :: ctx.baseDir} := by
  cases part with
  | job jobName => exact Or.inl ⟨jobName, rfl⟩
  | values sessionId => exact Or.inr ⟨_, _, rfl, by decide, rfl, rfl⟩
  | params sessionId => exact Or.inr ⟨_, _, rfl, by decide, rfl, rfl⟩
  | crons => exact Or.inr ⟨_, _, rfl, by decide, rfl, rfl⟩

theorem SitePart.writes_not_reads {i j : SitePart} (hne : i ≠ j) {q : FsPath}
    (hWrites : q ∈ i.writes ctx) : q ∉ j.reads ctx := by
  obtain ⟨jobName, rfl⟩ | ⟨dir, name, hFile, hDir, hOwn, _⟩ := i.file_cases ctx
  · obtain ⟨jobName', rfl⟩ | ⟨dir, name, _, hDir, _, hReads⟩ := j.file_cases ctx
    · exact FileTree.not_suffix_of_sibling (fun hName => hne (congrArg SitePart.job hName)) hWrites
    · rw [hReads]
      rintro (rfl | rfl)
      · exact not_below_job_top ctx _ _ hWrites
      · exact not_below_job ctx hDir _ _ hWrites
  · rw [hOwn] at hWrites
    obtain rfl : q = name :: dir :: ctx.baseDir := hWrites
    obtain ⟨jobName, rfl⟩ | ⟨dir', name', hFile', _, _, hReads⟩ := j.file_cases ctx
    · exact not_below_job ctx hDir _ _
    · rw [hReads]
      rintro (hEq | hEq)
      · exact cons_ne_top ctx _ _ _ hEq
      · obtain ⟨rfl, hEq'⟩ := List.cons.inj hEq
        obtain ⟨rfl, _⟩ := List.cons.inj hEq'
        exact hne (SitePart.eq_of_file hFile hFile')

end Apart

section Runs

variable {ε : Type} {P : ProtoUtils} {makeCron : Str → Option ε} {ctx : Context} {ι : Type}
  [DecidableEq ι] {processes : SiteProcesses ι}

theorem siteComponent_apart : Apart (siteComponent P makeCron ctx processes) := by
  intro i j hne
  rw [siteComponent_writes, siteComponent_reads]
  exact fun q hWrites => SitePart.writes_not_reads ctx hne hWrites

/-- A run of a part by itself is a run of the system that it models. -/
theorem run_of_solo {c : Component FsPath Node} {σ : Type} {step : σ → c.Action → Option σ}
    (f : FileTree × c.State → σ) (h : ∀ r a, step (f r) a = (c.solo r a).map f) {t n : FileTree}
    {s s' : c.State} {order : List c.Action} (hRun : run c.solo (t, s) order = some (n, s')) :
    run step (f (t, s)) order = some (f (n, s')) := by
  rw [run_map f h, hRun, Option.map_some]

theorem run_solo_job {jobName : Str} {t n : FileTree}
    {s s' : (jobComponent P ctx processes jobName).State} {order : List (SiteAction ι ι)}
    (h : run (jobComponent P ctx processes jobName).solo (t, s) order = some (n, s')) :
    run (Site.step P ctx jobName (processes.script jobName) (processes.starters jobName)
      (processes.maintainers jobName)) ⟨t, s.1, s.2⟩ order = some ⟨n, s'.1, s'.2⟩ := by
  refine run_of_solo (c := jobComponent P ctx processes jobName)
    (fun r => (⟨r.1, r.2.1, r.2.2⟩ : Site ι ι)) (fun r a => ?_) h
  simp only [Component.solo, jobComponent, Option.map_map]
  exact Option.map_id'.symm

theorem run_solo_writers {p : FsPath} {e : ErrorCode} {writers : ι → Writer} {t n : FileTree}
    {s s' : ι → WriterPhase} {order : List ι}
    (h : run (writersComponent P p e writers).solo (t, s) order = some (n, s')) :
    run (Writers.step P p e writers) ⟨t, s⟩ order = some ⟨n, s'⟩ := by
  refine run_of_solo (c := writersComponent P p e writers)
    (fun r => (⟨r.1, r.2⟩ : Writers ι)) (fun r i => ?_) h
  simp only [Component.solo, writersComponent, Option.map_map]
  exact Option.map_id'.symm

theorem run_solo_crons {t n : FileTree} {s s' : ι → CronPhase} {order : List ι}
    (h : run (cronsComponent makeCron ctx processes).solo (t, s) order = some (n, s')) :
    run (CronWriters.step makeCron ctx processes.cronCommands) ⟨t, s⟩ order = some ⟨n, s'⟩ := by
  refine run_of_solo (c := cronsComponent makeCron ctx processes)
    (fun r => (⟨r.1, r.2⟩ : CronWriters ι)) (fun r i => ?_) h
  simp only [Component.solo, cronsComponent, Option.map_map]
  exact Option.map_id'.symm

/-- Whatever the order in which the processes of a site take their steps, those of one
part do what they do when they are alone, and its files are left as they leave them. So
the outcome depends on the order within each part only. -/
theorem site_parts_independent
    {order : List (Σ part, (siteComponent P makeCron ctx processes part).Action)} {t t' : FileTree}
    {s s' : ∀ part, (siteComponent P makeCron ctx processes part).State}
    (hValid : ∀ part, (siteComponent P makeCron ctx processes part).Valid (s part))
    (hRun : run (together (siteComponent P makeCron ctx processes)) (t, s) order = some (t', s')) :
    (∀ jobName, ∃ n, run (Site.step P ctx jobName (processes.script jobName)
          (processes.starters jobName) (processes.maintainers jobName))
          ⟨t, (s (.job jobName)).1, (s (.job jobName)).2⟩
          (own (siteComponent P makeCron ctx processes) (.job jobName) order) =
        some ⟨n, (s' (.job jobName)).1, (s' (.job jobName)).2⟩ ∧
      ∀ q, jobPath ctx jobName <:+ q → t'.find q = n.find q) ∧
    (∀ sessionId, ∃ n, run (Writers.step P (valuesPath ctx sessionId) .cantReadSessionValuesFile
          (processes.valueWriters sessionId)) ⟨t, s (.values sessionId)⟩
          (own (siteComponent P makeCron ctx processes) (.values sessionId) order) =
        some ⟨n, s' (.values sessionId)⟩ ∧
      t'.find (valuesPath ctx sessionId) = n.find (valuesPath ctx sessionId)) ∧
    (∀ sessionId, ∃ n, run (Writers.step P (paramsPath ctx sessionId) .cantWriteSessionParamsFile
          (processes.paramWriters sessionId)) ⟨t, s (.params sessionId)⟩
          (own (siteComponent P makeCron ctx processes) (.params sessionId) order) =
        some ⟨n, s' (.params sessionId)⟩ ∧
      t'.find (paramsPath ctx sessionId) = n.find (paramsPath ctx sessionId)) ∧
    (∃ n, run (CronWriters.step makeCron ctx processes.cronCommands) ⟨t, s .crons⟩
          (own (siteComponent P makeCron ctx processes) .crons order) = some ⟨n, s' .crons⟩ ∧
      t'.find (cronsFile ctx) = n.find (cronsFile ctx)) ∧
    (∀ q, (∀ part : SitePart, q ∉ part.writes ctx) → t'.find q = t.find q) ∧
    ∀ order', (∀ part, own (siteComponent P makeCron ctx processes) part order' =
        own (siteComponent P makeCron ctx processes) part order) →
      run (together (siteComponent P makeCron ctx processes)) (t, s) order' = some (t', s') := by
  have hAlone := run_alone_of_together siteComponent_apart hValid (fun _ => AgreeOn.refl _ t) hRun
  refine ⟨fun jobName => ?_, fun sessionId => ?_, fun sessionId => ?_, ?_, fun q hq => ?_, ?_⟩
  · obtain ⟨n, hSolo, hAgree⟩ := hAlone (.job jobName)
    exact ⟨n, run_solo_job hSolo, hAgree⟩
  · obtain ⟨n, hSolo, hAgree⟩ := hAlone (.values sessionId)
    exact ⟨n, run_solo_writers hSolo, hAgree _ (Or.inr rfl)⟩
  · obtain ⟨n, hSolo, hAgree⟩ := hAlone (.params sessionId)
    exact ⟨n, run_solo_writers hSolo, hAgree _ (Or.inr rfl)⟩
  · obtain ⟨n, hSolo, hAgree⟩ := hAlone .crons
    exact ⟨n, run_solo_crons hSolo, hAgree _ (Or.inr rfl)⟩
  · refine run_untouched hValid hRun q fun part hWrites => hq part ?_
    rwa [siteComponent_writes] at hWrites
  · intro order' hOwn
    exact run_together_congr siteComponent_apart (fun part => (hOwn part).symm) hValid hRun

/-- No process has begun. -/
def siteStart (P : ProtoUtils) (makeCron : Str → Option ε) (ctx : Context)
    (processes : SiteProcesses ι) :
    ∀ part, (siteComponent P makeCron ctx processes part).State
  | .job _ => (fun _ => .preparing .start, fun _ => .start)
  | .values _ => fun _ => WriterPhase.start
  | .params _ => fun _ => WriterPhase.start
  | .crons => fun _ => CronPhase.start

theorem siteStart_valid (part : SitePart) : (siteComponent P makeCron ctx processes part).Valid
    (siteStart P makeCron ctx processes part) := by
  cases part with
  | job jobName => exact fun _ => nofun
  | values sessionId => trivial
  | params sessionId => trivial
  | crons => trivial

end Runs

/-- One process of each kind. -/
def oneProcess : SiteProcesses Unit where
  script _ := "s"
  starters _ _ := ⟨⟨.ideal ∅, ⟨"s", true⟩, []⟩, false, ⟨[], some 0⟩⟩
  opens _ _ := rfl
  maintainers _ _ := .ideal ∅
  valueWriters _ _ := ⟨.ideal ∅, "a", "1"⟩
  paramWriters _ _ := ⟨.ideal ∅, "b", "2"⟩
  cronCommands _ := ⟨.ideal ∅, .add, "0 * * * * *", "j"⟩

/-- A build is begun while a value of the session is written. -/
def twoParts : List (Σ part, (siteComponent .reference sixFields demoContext oneProcess part).Action) :=
  [⟨.job "j", .start ()⟩, ⟨.values "s", ()⟩, ⟨.job "j", .start ()⟩, ⟨.values "s", ()⟩,
    ⟨.job "j", .start ()⟩]

theorem site_parts_independent_two :
    ∃ t' s', run (together (siteComponent .reference sixFields demoContext oneProcess))
        (demoTree "1" [], siteStart .reference sixFields demoContext oneProcess) twoParts =
          some (t', s') ∧
      ∀ q, (∀ part : SitePart, q ∉ part.writes demoContext) →
        t'.find q = (demoTree "1" []).find q := by
  have hRuns : (run (together (siteComponent .reference sixFields demoContext oneProcess))
      (demoTree "1" [], siteStart .reference sixFields demoContext oneProcess) twoParts).isSome :=
    rfl
  obtain ⟨⟨t', s'⟩, hRun⟩ := Option.isSome_iff_exists.mp hRuns
  exact ⟨t', s', hRun, (site_parts_independent siteStart_valid hRun).2.2.2.2.1⟩

end CisCore
