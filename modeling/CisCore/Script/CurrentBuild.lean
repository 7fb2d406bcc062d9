import CisCore.Script.Sessions

/-! # The constructor of `CisCurrentBuild`

A script asks its environment which build it belongs to. The constructor asserts
what `startjob` is supposed to have put there.
-/

namespace CisCore

open Fallible

/-- `os.path.join`. -/
def osPathJoin (path : Str) (parts : List Str) : Str :=
  parts.foldl (fun path part =>
    if part.head? = some '/' then part
    else if path = [] ∨ path.getLast? = some '/' then path ++ part
    else path ++ "/".toList ++ part) path

section Model

variable (env : SortedMap Str Str) (t : FileTree) (workingDir : FsPath)

def osPathIsdir (path : Str) : Bool := path ≠ [] ∧ t.isDirectory (resolvePath workingDir path)

/-- `os.path.isfile(path) and os.access(path, os.X_OK)`; a path that ends with a
slash names no file. -/
def isExe (cisBaseDir path : Str) : Bool :=
  let path := osPathJoin cisBaseDir ["core", path]
  path.getLast? ≠ some '/' ∧ (t.content (resolvePath workingDir path)).isSome ∧
    t.isExecutable (resolvePath workingDir path)

/-- `re.match("^[0-9]{6}$", s)`, where `$` also matches before a last newline. -/
def matchesSixDigits (s : Str) : Bool :=
  let digits := if s.getLast? = some '\n' then s.dropLast else s
  digits.length = 6 && digits.all Char.isDigit

/-- `os.getenv` and the assertion that the variable is defined. -/
def getenv (name : Str) : Except Str Str :=
  orThrow (env.find name) ("Environment variable ".toList ++ name ++ " is not defined".toList)

/-- One of the programs, by its variable and the name that the message gives it. -/
def getExe (cisBaseDir : Str) (name title : Str) : Except Str Str := do
  let exe ← getenv env name
  require (isExe t workingDir cisBaseDir exe) (title ++ " is not executable".toList)
  pure exe

structure CurrentBuild where
  cisBaseDir : Str
  sessionOwner : Bool
  startjobExe : Str
  setvalueExe : Str
  getvalueExe : Str
  setparamExe : Str
  getparamExe : Str
  jobName : Str
  buildNumber : Str

/-- `CisCurrentBuild.__init__`. The assertion that `session_opened_by_me` is
defined looks at the base directory. -/
def CurrentBuild.init : Except Str CurrentBuild := do
  let cisBaseDir ← getenv env "cis_base_dir"
  require (osPathIsdir t workingDir cisBaseDir) "Cis base dir is not directory"
  let sessionOpenedByMe := env.find "session_opened_by_me"
  require (sessionOpenedByMe = some "true".toList ∨ sessionOpenedByMe = some "false".toList)
    "session_opened_by_me is not bool"
  let startjobExe ← getExe env t workingDir cisBaseDir "startjob" "Startjob"
  let setvalueExe ← getExe env t workingDir cisBaseDir "setvalue" "Setvalue"
  let getvalueExe ← getExe env t workingDir cisBaseDir "getvalue" "Getvalue"
  let setparamExe ← getExe env t workingDir cisBaseDir "setparam" "Setparam"
  let getparamExe ← getExe env t workingDir cisBaseDir "getparam" "Getparam"
  let jobName ← getenv env "job_name"
  let buildNumber ← getenv env "build_number"
  require (matchesSixDigits buildNumber) "build_number should be string with six-digit integer"
  pure ⟨cisBaseDir, sessionOpenedByMe = some "true".toList, startjobExe, setvalueExe, getvalueExe,
    setparamExe, getparamExe, jobName, buildNumber⟩

def CurrentBuild.tools : List Str := ["startjob", "setvalue", "getvalue", "setparam", "getparam"]

/-- The variable names a program in the directory of the core. -/
def Installed (cisBaseDir name exe : Str) : Prop :=
  env.find name = some exe ∧ isExe t workingDir cisBaseDir exe = true

/-- What the constructor has asserted. -/
structure CurrentBuild.Asserted (b : CurrentBuild) : Prop where
  base : env.find "cis_base_dir" = some b.cisBaseDir
  isdir : osPathIsdir t workingDir b.cisBaseDir = true
  owner : env.find "session_opened_by_me" =
    some (if b.sessionOwner then "true".toList else "false".toList)
  startjob : Installed env t workingDir b.cisBaseDir "startjob" b.startjobExe
  setvalue : Installed env t workingDir b.cisBaseDir "setvalue" b.setvalueExe
  getvalue : Installed env t workingDir b.cisBaseDir "getvalue" b.getvalueExe
  setparam : Installed env t workingDir b.cisBaseDir "setparam" b.setparamExe
  getparam : Installed env t workingDir b.cisBaseDir "getparam" b.getparamExe
  jobName : env.find "job_name" = some b.jobName
  buildNumber : env.find "build_number" = some b.buildNumber
  sixDigits : matchesSixDigits b.buildNumber = true

end Model

variable {env env' : SortedMap Str Str} {t : FileTree} {workingDir : FsPath}

/-! ### Numbers -/

theorem matchesSixDigits_numberString {n : Nat} :
    matchesSixDigits (numberString n) = true ↔ n < 1000000 := by
  have hNewline : (numberString n).getLast? ≠ some '\n' := by
    intro hLast
    exact numberString_ne (List.mem_of_getLast? hLast) (by decide) n rfl
  rw [matchesSixDigits, if_neg hNewline]
  exact ⟨lt_of_isBuild_numberString, isBuild_numberString⟩

/-! ### The assertions -/

theorem getenv_eq_ok {name value : Str} : getenv env name = .ok value ↔ env.find name = some value := by
  rw [getenv, orThrow_eq_ok]

theorem getExe_eq_ok {cisBaseDir name title exe : Str} :
    getExe env t workingDir cisBaseDir name title = .ok exe ↔
      Installed env t workingDir cisBaseDir name exe := by
  simp only [getExe, bind_eq_ok, getenv_eq_ok, require_eq_ok, pure_eq_ok]
  constructor
  · rintro ⟨exe', hFind, _, hExe, rfl⟩
    exact ⟨hFind, hExe⟩
  · rintro ⟨hFind, hExe⟩
    exact ⟨exe, hFind, (), hExe, rfl⟩

/-- Of the two texts that are let through, the comparison tells which one it was. -/
theorem owner_eq_iff {value : Option Str} {owner : Bool} :
    (value = some "true".toList ∨ value = some "false".toList) ∧
        decide (value = some "true".toList) = owner ↔
      value = some (if owner then "true".toList else "false".toList) := by
  have hne : ¬"false".toList = "true".toList := by decide
  constructor
  · rintro ⟨rfl | rfl, rfl⟩
    · rw [decide_eq_true rfl, if_pos rfl]
    · rw [decide_eq_false fun h => hne (Option.some.inj h), if_neg Bool.false_ne_true]
  · rintro rfl
    cases owner with
    | true => exact ⟨Or.inl rfl, decide_eq_true rfl⟩
    | false => exact ⟨Or.inr rfl, decide_eq_false fun h => hne (Option.some.inj h)⟩

theorem CurrentBuild.init_eq_ok {b : CurrentBuild} :
    CurrentBuild.init env t workingDir = .ok b ↔ b.Asserted env t workingDir := by
  simp only [CurrentBuild.init, bind_eq_ok, getenv_eq_ok, getExe_eq_ok, require_eq_ok, pure_eq_ok,
    decide_eq_true_iff]
  constructor
  · rintro ⟨base, hBase, _, hDir, _, hOwner, startjob, hStartjob, setvalue, hSetvalue, getvalue,
      hGetvalue, setparam, hSetparam, getparam, hGetparam, job, hJob, number, hNumber, _, hSix, rfl⟩
    exact ⟨hBase, hDir, owner_eq_iff.mp ⟨hOwner, rfl⟩, hStartjob, hSetvalue, hGetvalue, hSetparam,
      hGetparam, hJob, hNumber, hSix⟩
  · intro h
    obtain ⟨hText, hOwner⟩ := owner_eq_iff.mpr h.owner
    refine ⟨b.cisBaseDir, h.base, (), h.isdir, (), hText, b.startjobExe, h.startjob, b.setvalueExe,
      h.setvalue, b.getvalueExe, h.getvalue, b.setparamExe, h.setparam, b.getparamExe, h.getparam,
      b.jobName, h.jobName, b.buildNumber, h.buildNumber, (), h.sixDigits, ?_⟩
    rw [hOwner]

/-- In an environment that names the build, the rest depends on the site. -/
theorem CurrentBuild.exists_asserted_iff {owner : Bool} {jobName buildNumber : Str}
    (hOwner : env.find "session_opened_by_me" =
      some (if owner then "true".toList else "false".toList))
    (hJob : env.find "job_name" = some jobName)
    (hNumber : env.find "build_number" = some buildNumber) :
    (∃ b : CurrentBuild, b.Asserted env t workingDir) ↔
      matchesSixDigits buildNumber = true ∧ ∃ base, env.find "cis_base_dir" = some base ∧
        osPathIsdir t workingDir base = true ∧
        ∀ name ∈ CurrentBuild.tools, ∃ exe, Installed env t workingDir base name exe := by
  constructor
  · rintro ⟨b, hb⟩
    have hSame : b.buildNumber = buildNumber := Option.some.inj (hb.buildNumber.symm.trans hNumber)
    refine ⟨hSame ▸ hb.sixDigits, b.cisBaseDir, hb.base, hb.isdir, fun name hName => ?_⟩
    simp only [CurrentBuild.tools, List.mem_cons, List.not_mem_nil, or_false] at hName
    obtain rfl | rfl | rfl | rfl | rfl := hName
    · exact ⟨_, hb.startjob⟩
    · exact ⟨_, hb.setvalue⟩
    · exact ⟨_, hb.getvalue⟩
    · exact ⟨_, hb.setparam⟩
    · exact ⟨_, hb.getparam⟩
  · rintro ⟨hSix, base, hBase, hDir, hTools⟩
    obtain ⟨startjob, hStartjob⟩ := hTools "startjob" (by decide)
    obtain ⟨setvalue, hSetvalue⟩ := hTools "setvalue" (by decide)
    obtain ⟨getvalue, hGetvalue⟩ := hTools "getvalue" (by decide)
    obtain ⟨setparam, hSetparam⟩ := hTools "setparam" (by decide)
    obtain ⟨getparam, hGetparam⟩ := hTools "getparam" (by decide)
    exact ⟨⟨base, owner, startjob, setvalue, getvalue, setparam, getparam, jobName, buildNumber⟩,
      hBase, hDir, hOwner, hStartjob, hSetvalue, hGetvalue, hSetparam, hGetparam, hJob, hNumber, hSix⟩

/-! ### The script of a build -/

section Scripts

variable {P : ProtoUtils} {p : JobProcess P} {launch : Launch}

theorem JobProcess.launch_workingDir (h : p.result.launch = some launch) :
    launch.workingDir = p.buildDir := by
  obtain ⟨_, _, _, _, _, _, hDir, _⟩ := JobProcess.launched_build h
  exact hDir

theorem JobProcess.find_launch_tool (h : p.result.launch = some launch) {name : Str}
    (hName : name ∈ CurrentBuild.tools) : launch.env.find name = p.ctx.env.find name := by
  rw [launch_env h]
  simp only [CurrentBuild.tools, List.mem_cons, List.not_mem_nil, or_false] at hName
  obtain rfl | rfl | rfl | rfl | rfl := hName
  all_goals
    rw [find_exportBuild_of_ne _ _ _ _ (by decide) (by decide) (by decide) (by decide),
      p.find_sessionCtx_of_ne (by decide) (by decide)]

/-- In a script that `startjob` has launched, the object can be made exactly if
the programs of the core are found from the directory of the build and the
number has not outgrown its six digits. Then it is the object of that build. -/
theorem current_build_iff (h : p.result.launch = some launch) :
    (∀ b, CurrentBuild.init launch.env launch.tree launch.workingDir = .ok b →
      b.jobName = p.jobName ∧ b.buildNumber = numberString p.number ∧
        b.sessionOwner = p.session.openedByMe) ∧
    ((∃ b, CurrentBuild.init launch.env launch.tree launch.workingDir = .ok b) ↔
      p.number < 1000000 ∧ ∃ base, p.ctx.env.find "cis_base_dir" = some base ∧
        osPathIsdir launch.tree p.buildDir base = true ∧
        ∀ name ∈ CurrentBuild.tools, ∃ exe,
          Installed p.ctx.env launch.tree p.buildDir base name exe) := by
  obtain ⟨hJob, hNumber⟩ := JobProcess.find_launch_build h
  obtain ⟨_, hOwner⟩ := JobProcess.find_launch_session h
  have hBase := JobProcess.find_launch_base h
  have hInstalled : ∀ name ∈ CurrentBuild.tools, ∀ base exe,
      Installed launch.env launch.tree p.buildDir base name exe ↔
        Installed p.ctx.env launch.tree p.buildDir base name exe := by
    intro name hName base exe
    rw [Installed, Installed, JobProcess.find_launch_tool h hName]
  rw [JobProcess.launch_workingDir h]
  simp only [CurrentBuild.init_eq_ok]
  constructor
  · intro b hb
    refine ⟨Option.some.inj (hb.jobName.symm.trans hJob),
      Option.some.inj (hb.buildNumber.symm.trans hNumber), ?_⟩
    rw [← (owner_eq_iff.mpr hb.owner).2, ← (owner_eq_iff.mpr hOwner).2]
  · rw [CurrentBuild.exists_asserted_iff hOwner hJob hNumber, matchesSixDigits_numberString, hBase]
    constructor
    · rintro ⟨hLt, base, hFind, hDir, hTools⟩
      refine ⟨hLt, base, hFind, hDir, fun name hName => ?_⟩
      obtain ⟨exe, hExe⟩ := hTools name hName
      exact ⟨exe, (hInstalled name hName base exe).mp hExe⟩
    · rintro ⟨hLt, base, hFind, hDir, hTools⟩
      refine ⟨hLt, base, hFind, hDir, fun name hName => ?_⟩
      obtain ⟨exe, hExe⟩ := hTools name hName
      exact ⟨exe, (hInstalled name hName base exe).mpr hExe⟩

/-- A site with one program that serves as all of them. -/
def toolsEnv : SortedMap Str Str :=
  .ofList (("cis_base_dir".toList, "/".toList) :: CurrentBuild.tools.map fun name => (name, "e".toList))

def toolsJob : JobProcess .reference :=
  siteJob (siteProcess toolsEnv 7 1) ((siteTree "j").insert ["e".toList, "core".toList] (.file [] true))
    "j" false rfl

theorem toolsJob_launched : toolsJob.result.launch.isSome = true := by decide

def toolsLaunch : Launch := toolsJob.result.launch.get toolsJob_launched

theorem current_build_iff_tools :
    (∀ b, CurrentBuild.init toolsLaunch.env toolsLaunch.tree toolsLaunch.workingDir = .ok b →
      b.jobName = toolsJob.jobName ∧ b.buildNumber = numberString toolsJob.number ∧
        b.sessionOwner = toolsJob.session.openedByMe) ∧
    ((∃ b, CurrentBuild.init toolsLaunch.env toolsLaunch.tree toolsLaunch.workingDir = .ok b) ↔
      toolsJob.number < 1000000 ∧ ∃ base, toolsJob.ctx.env.find "cis_base_dir" = some base ∧
        osPathIsdir toolsLaunch.tree toolsJob.buildDir base = true ∧
        ∀ name ∈ CurrentBuild.tools, ∃ exe,
          Installed toolsJob.ctx.env toolsLaunch.tree toolsJob.buildDir base name exe) :=
  current_build_iff (Option.some_get toolsJob_launched).symm

end Scripts

end CisCore
