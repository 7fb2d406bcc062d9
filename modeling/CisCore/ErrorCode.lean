import CisCore.Library.Text

/-! # Error codes

An error code holds a value of one of the core's conditions or an error of the
operating system; a cleared error code is `none`.
-/

namespace CisCore

inductive ErrorCode where
  | ok | badState | baseDirNotDefined | baseDirDoesntExist | jobDirDoesntExist
  | cantReadBaseConfFile | cantReadJobConfFile | cantReadJobParamsFile
  | cantReadSessionParamsFile | cantWriteSessionParamsFile | cantReadSessionValuesFile
  | scriptDoesntExist | cantOpenSession | cantOpenBuildOutputFile
  | cantOpenBuildExitCodeFile | cantWriteJobParamsFile | cantWriteJobConfFile
  | cantWriteSessionIdFile | cantReadCronsFile | cantWriteCronsFile
  | invalidCronExpression | cantGenerateBuildNum | cantCreateBuildDir | cantCopyScript
  | cantExecuteScript | invalidKvFileFormat | scriptIsNotExecutable
deriving DecidableEq

/-- Errors of file operations; `other` carries the number of any further one. -/
inductive Errno where
  | enoent | eexist | enotdir | eisdir | enotsup
  | other (number : Nat)
deriving DecidableEq

inductive ErrorValue where
  | core (code : ErrorCode)
  | system (errno : Errno)
deriving DecidableEq

abbrev Ec := Option ErrorValue

def fail (code : ErrorCode) : Ec := some (.core code)

def ErrorCode.message : ErrorCode → Str
  | ok => "OK"
  | badState => "Insufficient core state"
  | baseDirNotDefined => "CIS base dir not defined"
  | baseDirDoesntExist => "CIS base dir doesnt exist"
  | jobDirDoesntExist => "Job dir doesnt exist"
  | cantReadBaseConfFile => "Cant cis configuration file"
  | cantReadJobConfFile => "Cant read job configuration file"
  | cantReadJobParamsFile => "Cant read job params file"
  | cantReadSessionParamsFile => "Cant read session params file"
  | cantReadSessionValuesFile => "Cant read sessions values file"
  | scriptDoesntExist => "Job script doesnt exist"
  | cantOpenSession => "Cant open session"
  | cantOpenBuildOutputFile => "Cant open build output file"
  | cantOpenBuildExitCodeFile => "Cant open build exit_code file"
  | cantWriteJobParamsFile => "Cant write job params file"
  | cantWriteJobConfFile => "Cant write job conf file"
  | cantWriteSessionIdFile => "Cant write job session_id file"
  | cantReadCronsFile => "Cant read crons file"
  | cantWriteCronsFile => "Cant write crons file"
  | invalidCronExpression => "Invalid cron expression"
  | cantGenerateBuildNum => "Cant generate build number"
  | cantCreateBuildDir => "Cant create build directory"
  | cantCopyScript => "Cant copy job script"
  | cantExecuteScript => "Cant execute job script"
  | invalidKvFileFormat => "Cant parse kv-file"
  | scriptIsNotExecutable => "Script is not executable"
  -- the one enumerator that the switch leaves to its default label
  | cantWriteSessionParamsFile => "(unrecognized error)"

/-- `ec.message()`, with the operating system's texts given by `strerror`. -/
def message (strerror : Errno → Str) : Ec → Str
  | none => []
  | some (.core code) => code.message
  | some (.system errno) => strerror errno

end CisCore
