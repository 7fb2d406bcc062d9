import CisCore.Library.Machine
import CisCore.Script.Values

/-! # The tools of a session

The scripts of a session share its values and parameters through four programs.
Whatever processes call them, one after the other, they answer like two maps that
are kept in memory, next to the parameters of the builds.
-/

namespace CisCore

open Machine

section Model

variable (P : ProtoUtils) (version : Version)

/-- `main` of a program that prints one entry, behind its version check. -/
def getCommand (get : FileTree → Context → Session → Str → Option Str × Ec) (os : Os) (freshId : Str)
    (ctx : Context) (args : List Str) (t : FileTree) : Str × Nat :=
  let (session, ctx) := invokeSession os freshId ctx false
  match args with
  | [name] =>
    if session.openedByMe then ([], 1)
    else
      match get t ctx session name with
      | (_, some _) => ([], 1)
      | (value, none) => (value.getD [] ++ ['\n'], 0)
  | _ => ([], 1)

def getparamMain (os : Os) := getCommand (fun t ctx _ name => getParam P os t ctx name) os

def setparamProcess (p : Process) (t : FileTree) (args : List Str) : FileTree × Nat :=
  if args = ["--version".toList] then (t, 0)
  else
    match initContext P p t with
    | .error _ => (t, 1)
    | .ok ctx => setparamMain P p.os p.freshSessionId ctx args t

def getparamProcess (p : Process) (t : FileTree) (args : List Str) : Str × Nat :=
  if args = ["--version".toList] then (printVersion version, 0)
  else
    match initContext P p t with
    | .error _ => ([], 1)
    | .ok ctx => getparamMain P p.os p.freshSessionId ctx args t

inductive SessionTool where
  | setvalue
  | getvalue
  | setparam
  | getparam

structure ToolCall where
  process : Process
  tool : SessionTool
  args : List Str

/-- What a program that prints nothing else prints. -/
def versionOutput (args : List Str) : Str :=
  if args = ["--version".toList] then printVersion version else []

def ToolCall.run (t : FileTree) (c : ToolCall) : FileTree × Str × Nat :=
  match c.tool with
  | .setvalue =>
    let (t, status) := setvalueProcess P c.process t c.args
    (t, versionOutput version c.args, status)
  | .setparam =>
    let (t, status) := setparamProcess P c.process t c.args
    (t, versionOutput version c.args, status)
  | .getvalue => (t, getvalueProcess P version c.process t c.args)
  | .getparam => (t, getparamProcess P version c.process t c.args)

/-- What a session stands for. -/
structure SessionView where
  values : SortedMap Str Str
  params : SortedMap Str Str

/-- The answer of a tool whose process belongs to a build with these parameters. -/
def SessionView.call (build : Process → SortedMap Str Str) (s : SessionView) (c : ToolCall) :
    SessionView × Str × Nat :=
  if c.args = ["--version".toList] then (s, printVersion version, 0)
  else
    match c.tool, c.args with
    | .setvalue, [name, value] => (⟨s.values.insert name value, s.params⟩, [], 0)
    | .setparam, [name, value] => (⟨s.values, s.params.insert name value⟩, [], 0)
    | .getvalue, [name] => (s, (s.values.find name).getD [] ++ ['\n'], 0)
    | .getparam, [name] => (s, ((build c.process).find name).getD [] ++ ['\n'], 0)
    | _, _ => (s, [], 1)

def paramsFile (baseDir : FsPath) (sessionId : Str) : FsPath :=
  baseDir / "sessions" / (sessionId ++ ".prm".toList)

/-- The parameters of the build that a process belongs to. -/
def buildParamsFile (baseDir : FsPath) (p : Process) : FsPath :=
  baseDir / "jobs" / p.os.getEnvVar "job_name" / p.os.getEnvVar "build_number" / "job.params"

def SessionFile (baseDir : FsPath) (sessionId : Str) (q : FsPath) : Prop :=
  q = valuesFile baseDir sessionId ∨ q = paramsFile baseDir sessionId

/-- The files of the session hold the two maps, and nothing else has changed. -/
structure SessionView.Stands (t₀ : FileTree) (baseDir : FsPath) (sessionId : Str) (t : FileTree)
    (s : SessionView) : Prop where
  values : Stores P t (valuesFile baseDir sessionId) s.values
  params : Stores P t (paramsFile baseDir sessionId) s.params
  frame : FileTree.SameOutside (SessionFile baseDir sessionId) t₀ t

/-- A call from the session with arguments that its files can hold. -/
structure ToolCall.Allowed (t₀ : FileTree) (baseDir : FsPath) (sessionId : Str)
    (build : Process → SortedMap Str Str) (c : ToolCall) : Prop where
  serves : Serves P c.process t₀ baseDir sessionId
  storable : ∀ name value, c.args = [name, value] → Storable (name, value)
  build : Stores P t₀ (buildParamsFile baseDir c.process) (build c.process)

end Model

variable {P : ProtoUtils} {t₀ t : FileTree} {baseDir : FsPath} {sessionId : Str}

theorem getvalueMain_eq (P : ProtoUtils) (os : Os) :
    getvalueMain P os = getCommand (getValue P os) os := rfl

/-! ### The files of the session -/

theorem valuesFile_ne_paramsFile (baseDir : FsPath) (sessionId : Str) :
    valuesFile baseDir sessionId ≠ paramsFile baseDir sessionId :=
  sessionDat_ne_sessionPrm ⟨baseDir, ∅, 0, 0⟩ ⟨sessionId, false⟩

theorem SessionFile.length {q : FsPath} (h : SessionFile baseDir sessionId q) :
    q.length = baseDir.length + 2 := by
  obtain rfl | rfl := h
  · rfl
  · rfl

theorem SessionFile.ne_core {q : FsPath} (h : SessionFile baseDir sessionId q) (name : Str) :
    q ≠ baseDir / "core" / name := by
  intro hEq
  have hCore : baseDir / "core" / name ≠ valuesFile baseDir sessionId ∧
      baseDir / "core" / name ≠ paramsFile baseDir sessionId := by
    simp [valuesFile, paramsFile]
  obtain rfl | rfl := h
  · exact hCore.1 hEq.symm
  · exact hCore.2 hEq.symm

theorem Serves.of_frame {p : Process} (h : Serves P p t₀ baseDir sessionId)
    (hFrame : FileTree.SameOutside (SessionFile baseDir sessionId) t₀ t) :
    Serves P p t baseDir sessionId := by
  obtain ⟨ctx, hContext, rfl⟩ := h.context
  refine ⟨h.faultless, h.joined, ctx, ?_, rfl⟩
  rw [initContext_congr (initContext_baseDir hContext), hContext]
  · apply hFrame
    intro hFile
    have hLength := hFile.length
    omega
  · apply hFrame
    intro hFile
    exact hFile.ne_core _ rfl

theorem Stores.congr {p : FsPath} {m : SortedMap Str Str} (h : Stores P t₀ p m)
    (hSame : t.find p = t₀.find p) : Stores P t p m := by
  unfold Stores
  rw [hSame, FileTree.content_congr hSame]
  exact h

/-- The directory of the sessions is none of their files. -/
theorem isDirectory_of_frame (hSessions : t₀.isDirectory (baseDir / "sessions") = true)
    (hFrame : FileTree.SameOutside (SessionFile baseDir sessionId) t₀ t) :
    t.isDirectory (baseDir / "sessions") = true := by
  rw [FileTree.isDirectory, hFrame]
  · exact hSessions
  · intro hFile
    have hLength := hFile.length
    simp at hLength

theorem buildParams_of_frame {p : Process} {m : SortedMap Str Str}
    (h : Stores P t₀ (buildParamsFile baseDir p) m)
    (hFrame : FileTree.SameOutside (SessionFile baseDir sessionId) t₀ t) :
    Stores P t (buildParamsFile baseDir p) m := by
  apply h.congr
  apply hFrame
  intro hFile
  have hLength := hFile.length
  simp [buildParamsFile] at hLength
  omega

/-! ### One call -/

section Calls

variable {p : Process} {args : List Str}

theorem Serves.joins (hId : sessionId ≠ []) (h : Serves P p t baseDir sessionId) :
    ∃ ctx ctx', initContext P p t = .ok ctx ∧ ctx'.baseDir = baseDir ∧
      invokeSession p.os p.freshSessionId ctx false = (⟨sessionId, false⟩, ctx') := by
  obtain ⟨ctx, hContext, rfl⟩ := h.context
  have hSession := invokeSession_joined hId h.joined p.freshSessionId ctx
  have hBase := invokeSession_baseDir p.os p.freshSessionId ctx false
  exact ⟨ctx, (invokeSession p.os p.freshSessionId ctx false).2, hContext, hBase, by rw [← hSession]⟩

theorem setCommand_wrong (set : FileTree → Context → Session → Str → Str → FileTree × Ec) (os : Os)
    (freshId : Str) (ctx : Context) (t : FileTree) (hArgs : ¬∃ name value, args = [name, value]) :
    setCommand set os freshId ctx args t = (t, 1) := by
  obtain _ | ⟨name, _ | ⟨value, _ | ⟨extra, rest⟩⟩⟩ := args
  · rfl
  · rfl
  · exact absurd ⟨name, value, rfl⟩ hArgs
  · rfl

theorem getCommand_wrong (get : FileTree → Context → Session → Str → Option Str × Ec) (os : Os)
    (freshId : Str) (ctx : Context) (t : FileTree) (hArgs : ¬∃ name, args = [name]) :
    getCommand get os freshId ctx args t = ([], 1) := by
  obtain _ | ⟨name, _ | ⟨extra, rest⟩⟩ := args
  · rfl
  · exact absurd ⟨name, rfl⟩ hArgs
  · rfl

theorem setparamProcess_eq (hP : P.Lawful) (hId : sessionId ≠ [])
    (h : Serves P p t baseDir sessionId) {m : SortedMap Str Str}
    (hStores : Stores P t (paramsFile baseDir sessionId) m)
    (hSessions : t.isDirectory (baseDir / "sessions") = true) {name value : Str}
    (hPair : Storable (name, value)) :
    ∃ text, setparamProcess P p t [name, value] =
        (t.write (paramsFile baseDir sessionId) text, 0) ∧
      Encodes P text (m.insert name value) := by
  obtain ⟨ctx, ctx', hContext, rfl, hInvoke⟩ := h.joins hId
  obtain ⟨text, hSet, hEnc⟩ := setKvFile_refines hP h.faultless hStores hSessions
    .cantWriteSessionParamsFile hPair
  have hParam : setParam P p.os t ctx' ⟨sessionId, false⟩ name value =
      (t.write (paramsFile ctx'.baseDir sessionId) text, none) := hSet
  refine ⟨text, ?_, hEnc⟩
  rw [setparamProcess, if_neg (by simp), hContext]
  simp only [setparamMain, setCommand, hInvoke, hParam, exitStatus]
  rfl

theorem getparamProcess_eq (hP : P.Lawful) (hId : sessionId ≠ [])
    (h : Serves P p t baseDir sessionId) {m : SortedMap Str Str}
    (hStores : Stores P t (buildParamsFile baseDir p) m) (version : Version) {name : Str}
    (hName : name ≠ "--version".toList) :
    getparamProcess P version p t [name] = ((m.find name).getD [] ++ ['\n'], 0) := by
  obtain ⟨ctx, ctx', hContext, rfl, hInvoke⟩ := h.joins hId
  have hGet : getParam P p.os t ctx' name = (some ((m.find name).getD []), none) :=
    getKvFile_refines hP h.faultless hStores .cantReadJobParamsFile name
  rw [getparamProcess, if_neg (by simpa using hName), hContext]
  simp only [getparamMain, getCommand, hInvoke, hGet]
  rfl

end Calls

/-! ### Any sequence of calls -/

section Runs

variable {build : Process → SortedMap Str Str}

theorem SessionView.Stands.write_values {s : SessionView} (h : s.Stands P t₀ baseDir sessionId t)
    {text name value : Str} (hEnc : Encodes P text (s.values.insert name value)) :
    (⟨s.values.insert name value, s.params⟩ : SessionView).Stands P t₀ baseDir sessionId
      (t.write (valuesFile baseDir sessionId) text) where
  values := Or.inr ⟨text, FileTree.content_write_self _ _ _, hEnc⟩
  params := h.params.congr (FileTree.find_write_of_ne _ (valuesFile_ne_paramsFile _ _).symm)
  frame := h.frame.trans (FileTree.SameOutside.write (Or.inl rfl) t text)

theorem SessionView.Stands.write_params {s : SessionView} (h : s.Stands P t₀ baseDir sessionId t)
    {text name value : Str} (hEnc : Encodes P text (s.params.insert name value)) :
    (⟨s.values, s.params.insert name value⟩ : SessionView).Stands P t₀ baseDir sessionId
      (t.write (paramsFile baseDir sessionId) text) where
  values := h.values.congr (FileTree.find_write_of_ne _ (valuesFile_ne_paramsFile _ _))
  params := Or.inr ⟨text, FileTree.content_write_self _ _ _, hEnc⟩
  frame := h.frame.trans (FileTree.SameOutside.write (Or.inr rfl) t text)

theorem SessionView.call_set_wrong {c : ToolCall} (version : Version) (s : SessionView)
    (hTool : c.tool = .setvalue ∨ c.tool = .setparam) (hVersion : c.args ≠ ["--version".toList])
    (hArgs : ¬∃ name value, c.args = [name, value]) :
    s.call version build c = (s, [], 1) := by
  obtain ⟨p, tool, args⟩ := c
  unfold SessionView.call
  rw [if_neg hVersion]
  dsimp only at hTool hArgs ⊢
  split
  case h_1 name value => exact absurd ⟨name, value, rfl⟩ hArgs
  case h_2 name value => exact absurd ⟨name, value, rfl⟩ hArgs
  case h_3 => simp at hTool
  case h_4 => simp at hTool
  case h_5 => rfl

theorem SessionView.call_get_wrong {c : ToolCall} (version : Version) (s : SessionView)
    (hTool : c.tool = .getvalue ∨ c.tool = .getparam) (hVersion : c.args ≠ ["--version".toList])
    (hArgs : ¬∃ name, c.args = [name]) :
    s.call version build c = (s, [], 1) := by
  obtain ⟨p, tool, args⟩ := c
  unfold SessionView.call
  rw [if_neg hVersion]
  dsimp only at hTool hArgs ⊢
  split
  case h_1 => simp at hTool
  case h_2 => simp at hTool
  case h_3 name => exact absurd ⟨name, rfl⟩ hArgs
  case h_4 name => exact absurd ⟨name, rfl⟩ hArgs
  case h_5 => rfl

theorem ToolCall.run_simulates (hP : P.Lawful) (version : Version) (hId : sessionId ≠ [])
    (hSessions : t₀.isDirectory (baseDir / "sessions") = true) :
    Simulates (ToolCall.run P version) (SessionView.call version build)
      (ToolCall.Allowed P t₀ baseDir sessionId build)
      (fun t s => s.Stands P t₀ baseDir sessionId t) := by
  intro t s c hAllowed hStands
  have hServes := hAllowed.serves.of_frame hStands.frame
  have hDir := isDirectory_of_frame hSessions hStands.frame
  by_cases hVersion : c.args = ["--version".toList]
  · obtain ⟨p, tool, args⟩ := c
    obtain rfl : args = _ := hVersion
    cases tool <;> exact ⟨hStands, rfl⟩
  obtain ⟨ctx, ctx', hContext, _, hInvoke⟩ := hServes.joins hId
  obtain ⟨p, tool, args⟩ := c
  cases tool with
  | setvalue =>
    by_cases hTwo : ∃ name value, args = [name, value]
    · obtain ⟨name, value, rfl⟩ := hTwo
      obtain ⟨text, hRun, hEnc⟩ := setvalueProcess_eq hP hId hServes hStands.values hDir
        (hAllowed.storable name value rfl)
      simp only [ToolCall.run, SessionView.call, hRun, versionOutput, hVersion, if_false]
      exact ⟨hStands.write_values hEnc, trivial⟩
    · have hRun : setvalueProcess P p t args = (t, 1) := by
        rw [setvalueProcess, if_neg hVersion, hContext]
        exact setCommand_wrong _ _ _ _ _ hTwo
      rw [SessionView.call_set_wrong version s (Or.inl rfl) hVersion hTwo]
      simp only [ToolCall.run, hRun, versionOutput, hVersion, if_false]
      exact ⟨hStands, trivial⟩
  | setparam =>
    by_cases hTwo : ∃ name value, args = [name, value]
    · obtain ⟨name, value, rfl⟩ := hTwo
      obtain ⟨text, hRun, hEnc⟩ := setparamProcess_eq hP hId hServes hStands.params hDir
        (hAllowed.storable name value rfl)
      simp only [ToolCall.run, SessionView.call, hRun, versionOutput, hVersion, if_false]
      exact ⟨hStands.write_params hEnc, trivial⟩
    · have hRun : setparamProcess P p t args = (t, 1) := by
        rw [setparamProcess, if_neg hVersion, hContext]
        exact setCommand_wrong _ _ _ _ _ hTwo
      rw [SessionView.call_set_wrong version s (Or.inr rfl) hVersion hTwo]
      simp only [ToolCall.run, hRun, versionOutput, hVersion, if_false]
      exact ⟨hStands, trivial⟩
  | getvalue =>
    by_cases hOne : ∃ name, args = [name]
    · obtain ⟨name, rfl⟩ := hOne
      have hRun := getvalueProcess_eq hP hId hServes hStands.values version (by simpa using hVersion)
      simp only [ToolCall.run, SessionView.call, hRun, hVersion, if_false]
      exact ⟨hStands, trivial⟩
    · have hRun : getvalueProcess P version p t args = ([], 1) := by
        rw [getvalueProcess, if_neg hVersion, hContext, getvalueMain_eq]
        exact getCommand_wrong _ _ _ _ _ hOne
      rw [SessionView.call_get_wrong version s (Or.inl rfl) hVersion hOne]
      exact ⟨hStands, hRun⟩
  | getparam =>
    by_cases hOne : ∃ name, args = [name]
    · obtain ⟨name, rfl⟩ := hOne
      have hRun := getparamProcess_eq hP hId hServes (buildParams_of_frame hAllowed.build hStands.frame)
        version (by simpa using hVersion)
      simp only [ToolCall.run, SessionView.call, hRun, hVersion, if_false]
      exact ⟨hStands, trivial⟩
    · have hRun : getparamProcess P version p t args = ([], 1) := by
        rw [getparamProcess, if_neg hVersion, hContext]
        exact getCommand_wrong _ _ _ _ _ hOne
      rw [SessionView.call_get_wrong version s (Or.inr rfl) hVersion hOne]
      exact ⟨hStands, hRun⟩

/-- The processes of a session answer like two maps in memory, and nothing but
the two files of the session changes. -/
theorem session_tools_refine (hP : P.Lawful) (version : Version) (hId : sessionId ≠ [])
    (hSessions : t.isDirectory (baseDir / "sessions") = true) {s : SessionView}
    (hValues : Stores P t (valuesFile baseDir sessionId) s.values)
    (hParams : Stores P t (paramsFile baseDir sessionId) s.params) {calls : List ToolCall}
    (hCalls : ∀ c ∈ calls, c.Allowed P t baseDir sessionId build) :
    (answers (SessionView.call version build) s calls).1.Stands P t baseDir sessionId
        (answers (ToolCall.run P version) t calls).1 ∧
      (answers (ToolCall.run P version) t calls).2 =
        (answers (SessionView.call version build) s calls).2 :=
  (ToolCall.run_simulates hP version hId hSessions).answers hCalls
    ⟨hValues, hParams, FileTree.SameOutside.refl _ t⟩

def scriptCalls : List ToolCall :=
  [⟨scriptProcess 7, .setvalue, ["a", "1"]⟩, ⟨scriptProcess 8, .setparam, ["p", "2"]⟩,
    ⟨scriptProcess 9, .getvalue, ["a"]⟩, ⟨scriptProcess 7, .getparam, ["p"]⟩,
    ⟨scriptProcess 8, .setvalue, ["a"]⟩]

theorem scriptCalls_allowed :
    ∀ c ∈ scriptCalls, c.Allowed .reference scriptTree [] "s" fun _ => ∅ := by
  intro c hc
  simp only [scriptCalls, List.mem_cons, List.not_mem_nil, or_false] at hc
  obtain rfl | rfl | rfl | rfl | rfl := hc
  all_goals refine ⟨scriptProcess_serves _, ?_, Or.inl ⟨by decide, rfl⟩⟩
  all_goals simp [Storable]

theorem session_tools_refine_five :
    (answers (SessionView.call scriptVersion fun _ => ∅) ⟨∅, ∅⟩ scriptCalls).1.Stands .reference
        scriptTree [] "s" (answers (ToolCall.run .reference scriptVersion) scriptTree scriptCalls).1 ∧
      (answers (ToolCall.run .reference scriptVersion) scriptTree scriptCalls).2 =
        (answers (SessionView.call scriptVersion fun _ => ∅) ⟨∅, ∅⟩ scriptCalls).2 :=
  session_tools_refine ProtoUtils.reference_lawful scriptVersion (by decide) (by decide)
    scriptTree_stores (Or.inl ⟨by decide, rfl⟩) scriptCalls_allowed

end Runs

end CisCore
