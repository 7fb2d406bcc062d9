import CisCore.Library.Transition
import CisCore.ProtoUtils
import CisCore.Session.Context
import CisCore.Utils

/-! # How a process finds its context and its session

The base directory comes from the environment, the names of the executables
from `core/cis.conf`. A context keeps its own copy of the environment, into
which those names are written.
-/

namespace CisCore

open Fallible

/-- The six numbers that `%Y-%m-%d-%H-%M-%S-` prints. -/
structure LocalTime where
  year : Nat
  month : Nat
  day : Nat
  hour : Nat
  minute : Nat
  second : Nat

/-- A process when it starts. -/
structure Process where
  os : Os
  workingDir : FsPath
  processId : Nat
  parentId : Nat
  now : LocalTime

section Model

/-- The components of a path without links, `.` and `..` among them resolved. -/
def resolvePath (workingDir : FsPath) (path : Str) : FsPath :=
  (path.splitOn '/').foldl (fun dir name =>
    if name = [] ∨ name = "." then dir else if name = ".." then dir.tail else dir / name)
    (if path.head? = some '/' then [] else workingDir)

/-- The text that `invoke_session` builds for a session of its own. -/
def freshSessionId (now : LocalTime) (id parentId : Nat) : Str :=
  Text.decimal now.year ++ "-".toList ++
    ([now.month, now.day, now.hour, now.minute, now.second].flatMap fun n =>
      Text.zeroPadded 2 n ++ "-".toList) ++
    Text.decimal id ++ "_".toList ++ Text.decimal parentId

def Process.freshSessionId (p : Process) : Str :=
  CisCore.freshSessionId p.now p.processId p.parentId

/-- The constructor of `context`. The parent's id is looked up before the names
of the executables are written. -/
def makeContext (p : Process) (baseDir : FsPath) (executables : SortedMap Str Str) : Context :=
  let ctx : Context := ⟨baseDir, p.os.environment, p.processId, 0⟩
  let parentStartjobId := ctx.getEnvVar p.os "parent_startjob_id"
  ⟨baseDir, executables.entries.foldl (fun env e => env.insert e.1 e.2) p.os.environment,
    p.processId, (u32FromString parentStartjobId).getD 0⟩

/-- `is_directory` asks for the status of the path as `exists` does. -/
def Os.surelyDirectory (os : Os) (t : FileTree) (p : FsPath) : Bool :=
  (os.existsFault p).isNone && t.isDirectory p

def initContext (P : ProtoUtils) (p : Process) (t : FileTree) : Except ErrorCode Context := do
  let cisBaseDir := p.os.getEnvVar "cis_base_dir"
  require (!cisBaseDir.isEmpty) .baseDirNotDefined
  let baseDir := resolvePath p.workingDir cisBaseDir
  require (p.os.surelyDirectory t baseDir) .baseDirDoesntExist
  let confText ← orThrow (p.os.openIfstream t (baseDir / "core" / "cis.conf")) .cantReadBaseConfFile
  let executables ← orThrow (P.readIstreamKvStr confText false) .cantReadBaseConfFile
  pure (makeContext p baseDir executables)

end Model

theorem freshSessionId_ne_nil (now : LocalTime) (id parentId : Nat) :
    freshSessionId now id parentId ≠ [] := by
  simp [freshSessionId]

theorem colon_not_mem_digits {s : Str} (h : ∀ c ∈ s, c.isDigit = true) : ':' ∉ s := fun hMem =>
  absurd (h ':' hMem) (by decide)

theorem colon_not_mem_freshSessionId (now : LocalTime) (id parentId : Nat) :
    ':' ∉ freshSessionId now id parentId := by
  have hDecimal : ∀ n, ':' ∉ Text.decimal n := fun n =>
    colon_not_mem_digits fun c => Text.isDigit_of_mem_decimal
  have hPadded : ∀ n, ':' ∉ Text.zeroPadded 2 n := fun n =>
    colon_not_mem_digits fun c => Text.isDigit_of_mem_zeroPadded
  simp [freshSessionId, hDecimal, hPadded]

theorem initContext_eq_ok {P : ProtoUtils} {p : Process} {t : FileTree} {ctx : Context}
    (h : initContext P p t = .ok ctx) :
    ∃ executables, ctx = makeContext p (resolvePath p.workingDir (p.os.getEnvVar "cis_base_dir"))
      executables := by
  simp only [initContext, bind_eq_ok] at h
  obtain ⟨_, _, _, _, _, _, executables, _, hContext⟩ := h
  exact ⟨executables, (Except.ok.inj hContext).symm⟩

/-- Only the base directory and the configuration in it are looked at. -/
theorem initContext_congr {P : ProtoUtils} {p : Process} {t t' : FileTree} {baseDir : FsPath}
    (hBase : baseDir = resolvePath p.workingDir (p.os.getEnvVar "cis_base_dir"))
    (hDir : t'.find baseDir = t.find baseDir)
    (hConf : t'.find (baseDir / "core" / "cis.conf") = t.find (baseDir / "core" / "cis.conf")) :
    initContext P p t' = initContext P p t := by
  simp only [initContext, ← hBase, Os.surelyDirectory, FileTree.isDirectory, Os.openIfstream, hDir,
    hConf]

theorem initContext_baseDir {P : ProtoUtils} {p : Process} {t : FileTree} {ctx : Context}
    (h : initContext P p t = .ok ctx) :
    ctx.baseDir = resolvePath p.workingDir (p.os.getEnvVar "cis_base_dir") := by
  obtain ⟨_, rfl⟩ := initContext_eq_ok h
  rfl

/-! ### A small site -/

/-- A site with one job that has no builds. -/
def siteTree (jobName : Str) : FileTree :=
  .ofList [([], .directory), (["core".toList], .directory),
    (["cis.conf".toList, "core".toList], .file [] false), (["jobs".toList], .directory),
    ([jobName, "jobs".toList], .directory), (["s".toList, jobName, "jobs".toList], .file [] true),
    (["job.conf".toList, jobName, "jobs".toList], .file
      "script=s\nkeep_last_success_builds=1\nkeep_last_break_builds=1\n".toList false)]

def siteEnv : SortedMap Str Str := .ofList [("cis_base_dir", "/")]

def siteProcess (environment : SortedMap Str Str) (id parentId : Nat) : Process :=
  ⟨.ideal environment, [], id, parentId, ⟨2020, 1, 1, 0, 0, 0⟩⟩

end CisCore
