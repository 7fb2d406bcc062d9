import CisCore.Script.Python
import CisCore.Session.Commands
import CisCore.Session.InitContext

/-! # Session values in a script

`setvalue` and `getvalue` of `CisCurrentBuild` start the commands of these names.
The value goes out as an argument and comes back as the first line that
`getvalue` prints.
-/

namespace CisCore

/-- The constants that the build writes into `version.h`. -/
structure Version where
  currentVersion : Str
  gitRetreivedState : Bool
  gitSha1 : Str
  gitIsDirty : Bool

def printVersion (v : Version) : Str :=
  if v.gitRetreivedState then
    v.currentVersion ++ " ".toList ++ v.gitSha1 ++ (if v.gitIsDirty then " dirty".toList else []) ++
      ['\n']
  else v.currentVersion

section Model

variable (P : ProtoUtils) (version : Version)

def setvalueProcess (p : Process) (t : FileTree) (args : List Str) : FileTree × Nat :=
  if args = ["--version".toList] then (t, 0)
  else
    match initContext P p t with
    | .error _ => (t, 1)
    | .ok ctx => setvalueMain P p.os p.freshSessionId ctx args t

/-- `main` of `getvalue` behind the set-up of its context. -/
def getvalueMain (os : Os) (freshId : Str) (ctx : Context) (args : List Str) (t : FileTree) :
    Str × Nat :=
  let (session, ctx) := invokeSession os freshId ctx false
  match args with
  | [name] =>
    if session.openedByMe then ([], 1)
    else
      match getValue P os t ctx session name with
      | (_, some _) => ([], 1)
      | (value, none) => (value.getD [] ++ ['\n'], 0)
  | _ => ([], 1)

/-- What `getvalue` prints, and its exit status. -/
def getvalueProcess (p : Process) (t : FileTree) (args : List Str) : Str × Nat :=
  if args = ["--version".toList] then (printVersion version, 0)
  else
    match initContext P p t with
    | .error _ => ([], 1)
    | .ok ctx => getvalueMain P p.os p.freshSessionId ctx args t

/-- `CisCurrentBuild.setvalue`; `none` where it raises. -/
def CurrentBuild.setvalue (p : Process) (t : FileTree) (name value : PyStr) :
    Option (FileTree × Nat) :=
  (Python.popenArgs [name, value]).map (setvalueProcess P p t)

/-- `CisCurrentBuild.getvalue`; `none` where it raises. -/
def CurrentBuild.getvalue (p : Process) (t : FileTree) (name : PyStr) : Option (Nat × PyStr) := do
  let args ← Python.popenArgs [name]
  let (stdout, status) := getvalueProcess P version p t args
  let value ← Python.decodeFirstLine stdout
  some (status, value)

/-- A value that is set and read again. -/
def CurrentBuild.roundTrip (p q : Process) (t : FileTree) (name value : PyStr) :
    Option (Nat × PyStr) := do
  let (t, _) ← CurrentBuild.setvalue P p t name value
  CurrentBuild.getvalue P version q t name

def valuesFile (baseDir : FsPath) (sessionId : Str) : FsPath :=
  baseDir / "sessions" / (sessionId ++ ".dat".toList)

/-- A command that a script of the session starts. -/
structure Serves (p : Process) (t : FileTree) (baseDir : FsPath) (sessionId : Str) : Prop where
  faultless : p.os.Faultless
  joined : p.os.getEnvVar "session_id" = sessionId
  context : ∃ ctx, initContext P p t = .ok ctx ∧ ctx.baseDir = baseDir

/-- The value is one line of text, the name can be passed as an argument, and
`getvalue` does not take it for a request of its version. -/
structure Survives (name value : PyStr) : Prop where
  newline : Python.char '\n' ∉ value
  text : ∀ c ∈ value, c.val.isValidChar
  argument : ∃ arg, Python.fsencode name = some arg ∧ '\x00' ∉ arg
  version : Python.fsencode name = some "--version".toList →
    Python.decodeFirstLine (printVersion version) = some value

end Model

variable {P : ProtoUtils} {p q : Process} {t : FileTree} {baseDir : FsPath} {sessionId : Str}

/-! ### One command -/

theorem Serves.write (h : Serves P p t baseDir sessionId) (text : Str) :
    Serves P p (t.write (valuesFile baseDir sessionId) text) baseDir sessionId := by
  obtain ⟨ctx, hContext, rfl⟩ := h.context
  refine ⟨h.faultless, h.joined, ctx, ?_, rfl⟩
  rw [initContext_congr (initContext_baseDir hContext), hContext]
  · apply FileTree.find_write_of_ne
    intro hEq
    have hLength : ctx.baseDir.length = ctx.baseDir.length + 1 + 1 := congrArg List.length hEq
    omega
  · apply FileTree.find_write_of_ne
    intro hEq
    have hCore := (List.cons.inj (List.cons.inj hEq).2).1
    revert hCore
    decide

/-- Both commands join the session and look at its file. -/
theorem Serves.invoke (hId : sessionId ≠ []) (h : Serves P p t baseDir sessionId) :
    ∃ ctx ctx', initContext P p t = .ok ctx ∧
      invokeSession p.os p.freshSessionId ctx false = (⟨sessionId, false⟩, ctx') ∧
      sessionDat ctx' ⟨sessionId, false⟩ = valuesFile baseDir sessionId := by
  obtain ⟨ctx, hContext, rfl⟩ := h.context
  have hSession := invokeSession_joined hId h.joined p.freshSessionId ctx
  have hBase := invokeSession_baseDir p.os p.freshSessionId ctx false
  refine ⟨ctx, (invokeSession p.os p.freshSessionId ctx false).2, hContext, ?_, ?_⟩
  · rw [← hSession]
  · rw [sessionDat, hBase]
    rfl

theorem setvalueProcess_eq (hP : P.Lawful) (hId : sessionId ≠ [])
    (h : Serves P p t baseDir sessionId) {m : SortedMap Str Str}
    (hStores : Stores P t (valuesFile baseDir sessionId) m)
    (hSessions : t.isDirectory (baseDir / "sessions") = true) {name value : Str}
    (hPair : Storable (name, value)) :
    ∃ text, setvalueProcess P p t [name, value] =
        (t.write (valuesFile baseDir sessionId) text, 0) ∧
      Encodes P text (m.insert name value) := by
  obtain ⟨ctx, ctx', hContext, hInvoke, hPath⟩ := h.invoke hId
  obtain ⟨text, hSet, hEnc⟩ := setKvFile_refines hP h.faultless hStores hSessions
    .cantReadSessionValuesFile hPair
  refine ⟨text, ?_, hEnc⟩
  rw [setvalueProcess, if_neg (by simp), hContext]
  simp only [setvalueMain, setCommand, hInvoke, setValue, hPath, hSet, exitStatus]
  rfl

theorem getvalueProcess_eq (hP : P.Lawful) (hId : sessionId ≠ [])
    (h : Serves P q t baseDir sessionId) {m : SortedMap Str Str}
    (hStores : Stores P t (valuesFile baseDir sessionId) m) (version : Version) {name : Str}
    (hName : name ≠ "--version".toList) :
    getvalueProcess P version q t [name] = ((m.find name).getD [] ++ ['\n'], 0) := by
  obtain ⟨ctx, ctx', hContext, hInvoke, hPath⟩ := h.invoke hId
  have hGet := getKvFile_refines hP h.faultless hStores .cantReadSessionValuesFile name
  rw [getvalueProcess, if_neg (by simpa using hName), hContext]
  simp only [getvalueMain, hInvoke, getValue, hPath, hGet]
  rfl

/-! ### The round trip -/

theorem decodeFirstLine_eq_some {stdout : Str} {value : PyStr}
    (h : Python.decodeFirstLine stdout = some value) :
    Python.char '\n' ∉ value ∧ ∀ c ∈ value, c.val.isValidChar := by
  obtain ⟨text, _, rfl⟩ := Option.map_eq_some_iff.mp h
  constructor
  · intro hMem
    have := List.mem_takeWhile_imp (Python.mem_ofText.mp hMem)
    simp at this
  · exact Python.isValidChar_of_mem_ofText

theorem decodeFirstLine_encode (text : List Char) :
    Python.decodeFirstLine (Utf8.encode text ++ ['\n']) =
      some (Python.ofText (Text.firstLine text)) := by
  have hByte : Utf8.encode ['\n'] = ['\n'] := Utf8.encode_of_ascii (by decide)
  have hLine : Utf8.encode text ++ ['\n'] = Utf8.encode (text ++ ['\n']) := by
    rw [Utf8.encode_append, hByte]
  rw [Python.decodeFirstLine, hLine, Utf8.decode_encode, Option.map_some, Text.firstLine_concat]

theorem getvalue_eq_some {version : Version} {name value : PyStr} {status : Nat}
    (h : CurrentBuild.getvalue P version q t name = some (status, value)) :
    ∃ arg, Python.fsencode name = some arg ∧ '\x00' ∉ arg ∧
      (getvalueProcess P version q t [arg]).2 = status ∧
      Python.decodeFirstLine (getvalueProcess P version q t [arg]).1 = some value := by
  obtain ⟨args, hArgs, h⟩ := Option.bind_eq_some_iff.mp h
  obtain ⟨arg, hArg, hNone, rfl⟩ := Python.popenArgs_one.mp hArgs
  obtain ⟨line, hLine, h⟩ := Option.bind_eq_some_iff.mp h
  cases h
  exact ⟨arg, hArg, hNone, rfl, hLine⟩

theorem survives_of_roundTrip {version : Version} {name value : PyStr}
    (h : CurrentBuild.roundTrip P version p q t name value = some (0, value)) :
    Survives version name value := by
  obtain ⟨⟨t', _⟩, _, hGet⟩ := Option.bind_eq_some_iff.mp h
  obtain ⟨arg, hArg, hNone, _, hLine⟩ := getvalue_eq_some hGet
  obtain ⟨hNewline, hText⟩ := decodeFirstLine_eq_some hLine
  refine ⟨hNewline, hText, ⟨arg, hArg, hNone⟩, fun hVersion => ?_⟩
  rw [hArg] at hVersion
  cases hVersion
  exact hLine

section RoundTrip

variable (hP : P.Lawful) (version : Version) (hId : sessionId ≠ [])
  (hp : Serves P p t baseDir sessionId) (hq : Serves P q t baseDir sessionId)
  {m : SortedMap Str Str} (hStores : Stores P t (valuesFile baseDir sessionId) m)
  (hSessions : t.isDirectory (baseDir / "sessions") = true) {name : PyStr} {arg : Str}
  (hName : name ≠ []) (hArg : Python.fsencode name = some arg) (hNone : '\x00' ∉ arg)
  {text : List Char} (hCr : '\r' ∉ text) (hNul : '\x00' ∉ text)
include hP hId hp hStores hSessions hName hArg hNone hCr hNul

/-- Text reaches the file of the session. -/
theorem setvalue_eq : ∃ content, CurrentBuild.setvalue P p t name (Python.ofText text) =
      some (t.write (valuesFile baseDir sessionId) content, 0) ∧
    Stores P (t.write (valuesFile baseDir sessionId) content) (valuesFile baseDir sessionId)
      (m.insert arg (Utf8.encode text)) := by
  have hCr' : '\r' ∉ Utf8.encode text := fun hMem =>
    hCr ((Utf8.mem_encode_iff (by decide)).mp hMem)
  have hNul' : '\x00' ∉ Utf8.encode text := fun hMem =>
    hNul ((Utf8.mem_encode_iff (by decide)).mp hMem)
  have hArgNe : arg ≠ [] := by
    rintro rfl
    exact Python.fsencode_ne_nil hName hArg
  obtain ⟨content, hSet, hEnc⟩ := setvalueProcess_eq hP hId hp hStores hSessions
    (show Storable (arg, Utf8.encode text) from ⟨hArgNe, hCr'⟩)
  refine ⟨content, ?_, Or.inr ⟨content, FileTree.content_write_self _ _ _, hEnc⟩⟩
  rw [CurrentBuild.setvalue, Python.popenArgs_two hArg (Python.fsencode_ofText text) hNone hNul',
    Option.map_some, hSet]

include hq

/-- Of a text the first line comes back. -/
theorem roundTrip_eq (hVersion : arg ≠ "--version".toList) :
    CurrentBuild.roundTrip P version p q t name (Python.ofText text) =
      some (0, Python.ofText (Text.firstLine text)) := by
  obtain ⟨content, hSet, hStores'⟩ :=
    setvalue_eq hP hId hp hStores hSessions hName hArg hNone hCr hNul
  have hGet := getvalueProcess_eq hP hId (hq.write content) hStores' version hVersion
  rw [SortedMap.find_insert_self, Option.getD_some] at hGet
  have hGetArgs := Python.popenArgs_one.mpr ⟨arg, hArg, hNone, rfl⟩
  rw [CurrentBuild.roundTrip, hSet]
  simp only [Option.bind_eq_bind, Option.bind_some, CurrentBuild.getvalue, hGetArgs, hGet,
    decodeFirstLine_encode]

omit hq in
/-- For one name the version comes back. -/
theorem roundTrip_version (hVersion : arg = "--version".toList) :
    CurrentBuild.roundTrip P version p q t name (Python.ofText text) =
      (Python.decodeFirstLine (printVersion version)).map fun line => (0, line) := by
  obtain ⟨content, hSet, _⟩ :=
    setvalue_eq hP hId hp hStores hSessions hName hArg hNone hCr hNul
  have hGetArgs := Python.popenArgs_one.mpr ⟨arg, hArg, hNone, rfl⟩
  rw [hVersion] at hGetArgs
  rw [CurrentBuild.roundTrip, hSet]
  simp only [Option.bind_eq_bind, Option.bind_some, CurrentBuild.getvalue, hGetArgs, getvalueProcess,
    if_true]
  cases Python.decodeFirstLine (printVersion version) <;> rfl

end RoundTrip

/-- A value set from a script is read back from it exactly if it survives the
way out and back. -/
theorem script_round_trip_iff (hP : P.Lawful) (version : Version) (hId : sessionId ≠ [])
    (hp : Serves P p t baseDir sessionId) (hq : Serves P q t baseDir sessionId)
    {m : SortedMap Str Str} (hStores : Stores P t (valuesFile baseDir sessionId) m)
    (hSessions : t.isDirectory (baseDir / "sessions") = true) {name value : PyStr}
    (hName : name ≠ []) (hCr : Python.char '\r' ∉ value) (hNul : Python.char '\x00' ∉ value) :
    CurrentBuild.roundTrip P version p q t name value = some (0, value) ↔
      Survives version name value := by
  refine ⟨survives_of_roundTrip, fun h => ?_⟩
  obtain ⟨arg, hArg, hNone⟩ := h.argument
  obtain ⟨text, rfl⟩ := Python.exists_ofText h.text
  have hNewline : '\n' ∉ text := fun hMem => h.newline (Python.mem_ofText.mpr hMem)
  have hCr' : '\r' ∉ text := fun hMem => hCr (Python.mem_ofText.mpr hMem)
  have hNul' : '\x00' ∉ text := fun hMem => hNul (Python.mem_ofText.mpr hMem)
  by_cases hVersion : arg = "--version".toList
  · rw [roundTrip_version hP version hId hp hStores hSessions hName hArg hNone hCr' hNul' hVersion,
      h.version (hVersion ▸ hArg), Option.map_some]
  · rw [roundTrip_eq hP version hId hp hq hStores hSessions hName hArg hNone hCr' hNul' hVersion,
      Text.firstLine_of_newline_not_mem hNewline]

/-! ### A script in a session -/

def scriptEnv : SortedMap Str Str := .ofList [("cis_base_dir", "/"), ("session_id", "s")]

def scriptTree : FileTree :=
  .ofList [([], .directory), (["core".toList], .directory), (["sessions".toList], .directory),
    (["cis.conf".toList, "core".toList], .file [] false)]

/-- A command that the script starts. -/
def scriptProcess (id : Nat) : Process := ⟨.ideal scriptEnv, [], id, 1, ⟨2020, 1, 1, 0, 0, 0⟩⟩

def scriptVersion : Version := ⟨"1.0.1", false, [], false⟩

theorem scriptProcess_serves (id : Nat) : Serves .reference (scriptProcess id) scriptTree [] "s" where
  faultless := Os.ideal_faultless scriptEnv
  joined := show (Os.ideal scriptEnv).getEnvVar "session_id" = "s" by decide
  context := ⟨_, rfl, rfl⟩

theorem scriptTree_stores : Stores .reference scriptTree (valuesFile [] "s") ∅ :=
  Or.inl ⟨by decide, rfl⟩

theorem script_round_trip_iff_one :
    CurrentBuild.roundTrip .reference scriptVersion (scriptProcess 7) (scriptProcess 8) scriptTree
        (Python.ofText "a".toList) (Python.ofText "b=\\".toList) =
        some (0, Python.ofText "b=\\".toList) ↔
      Survives scriptVersion (Python.ofText "a".toList) (Python.ofText "b=\\".toList) :=
  script_round_trip_iff ProtoUtils.reference_lawful scriptVersion (by decide)
    (scriptProcess_serves 7) (scriptProcess_serves 8) scriptTree_stores (by decide) (by decide)
    (by decide) (by decide)

/-- Of a value of two lines only the first one comes back. -/
theorem script_round_trip_loses_lines :
    CurrentBuild.roundTrip .reference scriptVersion (scriptProcess 7) (scriptProcess 8) scriptTree
        (Python.ofText "a".toList) (Python.ofText "a\nb".toList) =
        some (0, Python.ofText "a".toList) ∧
      CurrentBuild.roundTrip .reference scriptVersion (scriptProcess 7) (scriptProcess 8) scriptTree
        (Python.ofText "a".toList) (Python.ofText "a\nb".toList) ≠
        some (0, Python.ofText "a\nb".toList) := by
  have hArg : Utf8.encode "a".toList = "a".toList := Utf8.encode_of_ascii (by decide)
  have hRun := roundTrip_eq ProtoUtils.reference_lawful scriptVersion (by decide)
    (scriptProcess_serves 7) (scriptProcess_serves 8) scriptTree_stores (by decide)
    (by decide : Python.ofText "a".toList ≠ []) (Python.fsencode_ofText "a".toList)
    (by rw [hArg]; decide) (by decide : '\r' ∉ "a\nb".toList) (by decide) (by rw [hArg]; decide)
  refine ⟨hRun, fun hSame => ?_⟩
  rw [hRun] at hSame
  revert hSame
  decide

end CisCore
