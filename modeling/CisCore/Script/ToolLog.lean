import CisCore.Script.Tools
import CisCore.Session.Log

/-! # The log of a session

The tools log what they set and what they found. The log of a session is a
history of its values: whoever goes through it knows what the files hold. Names
and values are not escaped in it, so this takes names without a quotation mark.
-/

namespace CisCore

open Machine

section Model

variable (P : ProtoUtils)

def SessionTool.act : SessionTool → Actions
  | .setvalue => .setvalue
  | .getvalue => .getvalue
  | .setparam => .setparam
  | .getparam => .getparam

def SessionTool.wrongArgs : SessionTool → Str
  | .setvalue => "Wrong args count in setvalue"
  | .getvalue => "Wrong args count in getvalue"
  | .setparam => "Wrong args count in setparam"
  | .getparam => "Wrong args count in getparam"

def SessionTool.outside : SessionTool → Str
  | .setvalue => "Cant set value outside the session"
  | .getvalue => "Cant get value outside the session"
  | .setparam => "Cant set param outside the session"
  | .getparam => "Cant get param outside the session"

def textLog (text : Str) : LogCall := .teeLog ⟨.error, text⟩

def errorLog (os : Os) (ec : Ec) : LogCall := .teeLog ⟨.error, message os.strerror ec⟩

def entryText (name value : Str) : Str := '"' :: name ++ "\"=\"".toList ++ value ++ ['"']

def entryLog (tool : SessionTool) (name value : Str) : LogCall :=
  .sessionLog ⟨tool.act, entryText name value⟩

/-- What `main` of a setter logs. -/
def setCommandLog (tool : SessionTool) (set : FileTree → Context → Session → Str → Str → FileTree × Ec)
    (os : Os) (freshId : Str) (ctx : Context) (args : List Str) (t : FileTree) : List LogCall :=
  let (session, ctx) := invokeSession os freshId ctx false
  match args with
  | [name, value] =>
    if session.openedByMe then [textLog tool.outside]
    else
      match set t ctx session name value with
      | (_, some e) => [errorLog os (some e)]
      | (_, none) => [entryLog tool name value]
  | _ => [textLog tool.wrongArgs]

/-- What `main` of a getter logs. -/
def getCommandLog (tool : SessionTool) (get : FileTree → Context → Session → Str → Option Str × Ec)
    (os : Os) (freshId : Str) (ctx : Context) (args : List Str) (t : FileTree) : List LogCall :=
  let (session, ctx) := invokeSession os freshId ctx false
  match args with
  | [name] =>
    if session.openedByMe then [textLog tool.outside]
    else
      match get t ctx session name with
      | (_, some e) => [errorLog os (some e)]
      | (value, none) => [entryLog tool name (value.getD [])]
  | _ => [textLog tool.wrongArgs]

def ToolCall.log (t : FileTree) (c : ToolCall) : List LogCall :=
  let p := c.process
  if c.args = ["--version".toList] then []
  else
    match initContext P p t with
    | .error _ => []
    | .ok ctx =>
      match c.tool with
      | .setvalue => setCommandLog .setvalue (setValue P p.os) p.os p.freshSessionId ctx c.args t
      | .getvalue => getCommandLog .getvalue (getValue P p.os) p.os p.freshSessionId ctx c.args t
      | .setparam => setCommandLog .setparam (setParam P p.os) p.os p.freshSessionId ctx c.args t
      | .getparam =>
        getCommandLog .getparam (fun t ctx _ name => getParam P p.os t ctx name) p.os p.freshSessionId
          ctx c.args t

/-- What a tool adds to the log of its session. -/
def ToolCall.sessionRecords (t : FileTree) (c : ToolCall) : List LogEntry :=
  ((c.log P t).foldl Loggers.call (.initial none)).file .session

/-- What is logged about the values of a session. -/
def SessionView.log (build : Process → SortedMap Str Str) (s : SessionView) (c : ToolCall) :
    List LogCall :=
  if c.args = ["--version".toList] then []
  else
    match c.tool, c.args with
    | .setvalue, [name, value] => [entryLog .setvalue name value]
    | .setparam, [name, value] => [entryLog .setparam name value]
    | .getvalue, [name] => [entryLog .getvalue name ((s.values.find name).getD [])]
    | .getparam, [name] => [entryLog .getparam name (((build c.process).find name).getD [])]
    | tool, _ => [textLog tool.wrongArgs]

/-- The name and the value of a message, where the name has no quotation mark. -/
def readEntry : Str → Option (Str × Str)
  | '"' :: rest =>
    let name := rest.takeWhile (· != '"')
    some (name, (rest.drop (name.length + 3)).dropLast)
  | _ => none

/-- Takes a record of the log as an order. -/
def SessionView.replay (s : SessionView) (e : LogEntry) : SessionView :=
  match e.act, readEntry e.message with
  | .setvalue, some (name, value) => ⟨s.values.insert name value, s.params⟩
  | .setparam, some (name, value) => ⟨s.values, s.params.insert name value⟩
  | _, _ => s

/-- Every value that the log reports as found is the one that was set before. -/
def SessionView.Truthful : SessionView → List LogEntry → Prop
  | _, [] => True
  | s, e :: es => (∀ name value, e.act = .getvalue → readEntry e.message = some (name, value) →
      value = (s.values.find name).getD []) ∧ (s.replay e).Truthful es

/-- Its messages can be read. -/
def ToolCall.Legible (c : ToolCall) : Prop := ∀ name ∈ c.args.head?, '"' ∉ name

end Model

variable {P : ProtoUtils} {t₀ t : FileTree} {baseDir : FsPath} {sessionId : Str}
  {build : Process → SortedMap Str Str}

/-! ### One call -/

section Calls

variable {p : Process} {args : List Str} {s : SessionView} (hP : P.Lawful) (hId : sessionId ≠ [])
  (hSessions : t₀.isDirectory (baseDir / "sessions") = true) (hStands : s.Stands P t₀ baseDir sessionId t)
  (hVersion : args ≠ ["--version".toList])
include hP hId hSessions hStands hVersion

theorem log_setvalue (hAllowed : (⟨p, .setvalue, args⟩ : ToolCall).Allowed P t₀ baseDir sessionId build) :
    (⟨p, .setvalue, args⟩ : ToolCall).log P t = s.log build ⟨p, .setvalue, args⟩ := by
  have hServes := hAllowed.serves.of_frame hStands.frame
  have hDir := isDirectory_of_frame hSessions hStands.frame
  obtain ⟨ctx, ctx', hContext, rfl, hInvoke⟩ := hServes.joins hId
  simp only [ToolCall.log, SessionView.log, hVersion, if_false, hContext]
  obtain _ | ⟨name, _ | ⟨value, _ | ⟨extra, rest⟩⟩⟩ := args
  · rfl
  · rfl
  · obtain ⟨text, hSet, _⟩ := setKvFile_refines hP hServes.faultless hStands.values hDir
      .cantReadSessionValuesFile (hAllowed.storable name value rfl)
    have hValue : setValue P p.os t ctx' ⟨sessionId, false⟩ name value =
        (t.write (valuesFile ctx'.baseDir sessionId) text, none) := hSet
    simp only [setCommandLog, hInvoke, hValue]
    rfl
  · rfl

theorem log_setparam (hAllowed : (⟨p, .setparam, args⟩ : ToolCall).Allowed P t₀ baseDir sessionId build) :
    (⟨p, .setparam, args⟩ : ToolCall).log P t = s.log build ⟨p, .setparam, args⟩ := by
  have hServes := hAllowed.serves.of_frame hStands.frame
  have hDir := isDirectory_of_frame hSessions hStands.frame
  obtain ⟨ctx, ctx', hContext, rfl, hInvoke⟩ := hServes.joins hId
  simp only [ToolCall.log, SessionView.log, hVersion, if_false, hContext]
  obtain _ | ⟨name, _ | ⟨value, _ | ⟨extra, rest⟩⟩⟩ := args
  · rfl
  · rfl
  · obtain ⟨text, hSet, _⟩ := setKvFile_refines hP hServes.faultless hStands.params hDir
      .cantWriteSessionParamsFile (hAllowed.storable name value rfl)
    have hParam : setParam P p.os t ctx' ⟨sessionId, false⟩ name value =
        (t.write (paramsFile ctx'.baseDir sessionId) text, none) := hSet
    simp only [setCommandLog, hInvoke, hParam]
    rfl
  · rfl

omit hSessions in
theorem log_getvalue (hAllowed : (⟨p, .getvalue, args⟩ : ToolCall).Allowed P t₀ baseDir sessionId build) :
    (⟨p, .getvalue, args⟩ : ToolCall).log P t = s.log build ⟨p, .getvalue, args⟩ := by
  have hServes := hAllowed.serves.of_frame hStands.frame
  obtain ⟨ctx, ctx', hContext, rfl, hInvoke⟩ := hServes.joins hId
  simp only [ToolCall.log, SessionView.log, hVersion, if_false, hContext]
  obtain _ | ⟨name, _ | ⟨extra, rest⟩⟩ := args
  · rfl
  · have hValue : getValue P p.os t ctx' ⟨sessionId, false⟩ name =
        (some ((s.values.find name).getD []), none) :=
      getKvFile_refines hP hServes.faultless hStands.values .cantReadSessionValuesFile name
    simp only [getCommandLog, hInvoke, hValue]
    rfl
  · rfl

omit hSessions in
theorem log_getparam (hAllowed : (⟨p, .getparam, args⟩ : ToolCall).Allowed P t₀ baseDir sessionId build) :
    (⟨p, .getparam, args⟩ : ToolCall).log P t = s.log build ⟨p, .getparam, args⟩ := by
  have hServes := hAllowed.serves.of_frame hStands.frame
  have hBuild := buildParams_of_frame hAllowed.build hStands.frame
  obtain ⟨ctx, ctx', hContext, rfl, hInvoke⟩ := hServes.joins hId
  simp only [ToolCall.log, SessionView.log, hVersion, if_false, hContext]
  obtain _ | ⟨name, _ | ⟨extra, rest⟩⟩ := args
  · rfl
  · have hParam : getParam P p.os t ctx' name = (some (((build p).find name).getD []), none) :=
      getKvFile_refines hP hServes.faultless hBuild .cantReadJobParamsFile name
    simp only [getCommandLog, hInvoke, hParam]
    rfl
  · rfl

omit hVersion in
theorem ToolCall.log_eq {c : ToolCall} (hAllowed : c.Allowed P t₀ baseDir sessionId build) :
    c.log P t = s.log build c := by
  obtain ⟨p, tool, args⟩ := c
  by_cases hVersion : args = ["--version".toList]
  · simp only [ToolCall.log, SessionView.log, hVersion, if_true]
  · cases tool with
    | setvalue => exact log_setvalue hP hId hSessions hStands hVersion hAllowed
    | setparam => exact log_setparam hP hId hSessions hStands hVersion hAllowed
    | getvalue => exact log_getvalue hP hId hStands hVersion hAllowed
    | getparam => exact log_getparam hP hId hStands hVersion hAllowed

end Calls

/-! ### The history -/

def SessionView.records (build : Process → SortedMap Str Str) (s : SessionView) (c : ToolCall) :
    List LogEntry :=
  ((s.log build c).filter (LogCall.reaches · .session)).map LogCall.entry

theorem SessionView.truthful_append {s : SessionView} {es es' : List LogEntry} :
    s.Truthful (es ++ es') ↔ s.Truthful es ∧ (es.foldl SessionView.replay s).Truthful es' := by
  induction es generalizing s with
  | nil => simp [SessionView.Truthful]
  | cons e es ih => simp only [List.cons_append, SessionView.Truthful, ih, List.foldl_cons, and_assoc]

theorem records_textLog (text : Str) :
    (([textLog text].filter (LogCall.reaches · .session)).map LogCall.entry) = [⟨.error, text⟩] := rfl

theorem records_entryLog (tool : SessionTool) (name value : Str) :
    (([entryLog tool name value].filter (LogCall.reaches · .session)).map LogCall.entry) =
      [⟨tool.act, entryText name value⟩] := rfl

theorem readEntry_entryText {name : Str} (h : '"' ∉ name) (value : Str) :
    readEntry (entryText name value) = some (name, value) := by
  have hQuote : "\"=\"".toList = ['"', '=', '"'] := rfl
  have hName : ∀ c ∈ name, (c != '"') = true := by
    intro c hc
    simp only [bne_iff_ne, ne_eq]
    rintro rfl
    exact h hc
  have hTake : (name ++ ['"', '=', '"'] ++ value ++ ['"']).takeWhile (· != '"') = name := by
    rw [List.append_assoc, List.append_assoc, List.takeWhile_append_of_pos hName]
    simp
  have hDrop : (name ++ ['"', '=', '"'] ++ value ++ ['"']).drop (name.length + 3) = value ++ ['"'] := by
    have hLength : (name ++ ['"', '=', '"']).length = name.length + 3 := by simp
    rw [List.append_assoc, ← hLength, List.drop_left]
  rw [entryText, hQuote]
  simp only [List.cons_append, readEntry]
  rw [hTake, hDrop, List.dropLast_concat]

/-- The records of one call tell what it has done. -/
theorem SessionView.replay_records (version : Version) (s : SessionView) {c : ToolCall}
    (hLegible : c.Legible) :
    (s.records build c).foldl SessionView.replay s = (s.call version build c).1 ∧
      s.Truthful (s.records build c) := by
  obtain ⟨p, tool, args⟩ := c
  simp only [SessionView.records, SessionView.log, SessionView.call]
  by_cases hVersion : args = ["--version".toList]
  · simp [hVersion, SessionView.Truthful]
  rw [if_neg hVersion, if_neg hVersion]
  cases tool
  case setvalue | setparam =>
    obtain _ | ⟨name, _ | ⟨value, _ | ⟨extra, rest⟩⟩⟩ := args
    case cons.cons.nil =>
      simp only [records_entryLog, List.foldl_cons, List.foldl_nil, SessionView.Truthful,
        SessionView.replay, SessionTool.act, readEntry_entryText (hLegible name rfl)]
      simp
    all_goals
      simp only [records_textLog]
      exact ⟨rfl, by simp [SessionView.Truthful]⟩
  case getvalue | getparam =>
    obtain _ | ⟨name, _ | ⟨extra, rest⟩⟩ := args
    case cons.nil =>
      simp only [records_entryLog, List.foldl_cons, List.foldl_nil, SessionView.Truthful,
        SessionView.replay, SessionTool.act, readEntry_entryText (hLegible name rfl)]
      simp
    all_goals
      simp only [records_textLog]
      exact ⟨rfl, by simp [SessionView.Truthful]⟩

/-- A call and what it adds to the log of the session. -/
def ToolCall.logged (P : ProtoUtils) (version : Version) (t : FileTree) (c : ToolCall) :
    FileTree × List LogEntry :=
  ((c.run P version t).1, c.sessionRecords P t)

/-- The two maps, with the records of each call. -/
def SessionView.logged (version : Version) (build : Process → SortedMap Str Str) (s : SessionView)
    (c : ToolCall) : SessionView × List LogEntry :=
  ((s.call version build c).1, s.records build c)

theorem ToolCall.logged_simulates (hP : P.Lawful) (version : Version) (hId : sessionId ≠ [])
    (hSessions : t₀.isDirectory (baseDir / "sessions") = true) :
    Simulates (ToolCall.logged P version) (SessionView.logged version build)
      (ToolCall.Allowed P t₀ baseDir sessionId build)
      (fun t s => s.Stands P t₀ baseDir sessionId t) := by
  intro t s c hAllowed hStands
  refine ⟨(ToolCall.run_simulates hP version hId hSessions t s c hAllowed hStands).1, ?_⟩
  have hRecords : c.sessionRecords P t = s.records build c := by
    rw [ToolCall.sessionRecords, (Loggers.initial_initialised none).file_calls,
      ToolCall.log_eq hP hId hSessions hStands hAllowed]
    rfl
  exact hRecords

theorem SessionView.truthful_answers (version : Version) {calls : List ToolCall}
    (hLegible : ∀ c ∈ calls, c.Legible) (s : SessionView) :
    s.Truthful (answers (SessionView.logged version build) s calls).2.flatten := by
  induction calls generalizing s with
  | nil => exact trivial
  | cons c calls ih =>
    obtain ⟨hReplay, hTruthful⟩ : (s.records build c).foldl SessionView.replay s =
        (s.call version build c).1 ∧ s.Truthful (s.records build c) :=
      s.replay_records version (hLegible c List.mem_cons_self)
    rw [answers_cons, List.flatten_cons, SessionView.truthful_append]
    refine ⟨hTruthful, ?_⟩
    rw [SessionView.logged, hReplay]
    exact ih (fun d hd => hLegible d (List.mem_cons_of_mem c hd)) _

/-- Going through the log of a session from its first record gives the values
and the parameters that its files hold, and no record of a value is wrong. -/
theorem session_log_tells_values (hP : P.Lawful) (version : Version) (hId : sessionId ≠ [])
    (hSessions : t.isDirectory (baseDir / "sessions") = true) {s : SessionView}
    (hValues : Stores P t (valuesFile baseDir sessionId) s.values)
    (hParams : Stores P t (paramsFile baseDir sessionId) s.params) {calls : List ToolCall}
    (hCalls : ∀ c ∈ calls, c.Allowed P t baseDir sessionId build)
    (hLegible : ∀ c ∈ calls, c.Legible) :
    ((answers (ToolCall.logged P version) t calls).2.flatten.foldl SessionView.replay s).Stands P t
        baseDir sessionId (answers (ToolCall.logged P version) t calls).1 ∧
      s.Truthful (answers (ToolCall.logged P version) t calls).2.flatten := by
  obtain ⟨hStands, hRecords⟩ := (ToolCall.logged_simulates hP version hId hSessions).answers hCalls
    ⟨hValues, hParams, FileTree.SameOutside.refl _ t⟩
  have hReplay : (answers (SessionView.logged version build) s calls).2.foldl
      (fun s es => es.foldl SessionView.replay s) s =
      (answers (SessionView.logged version build) s calls).1 :=
    foldl_answers (fun c hc s => (s.replay_records version (hLegible c hc)).1) s
  rw [hRecords, List.foldl_flatten, hReplay]
  exact ⟨hStands, SessionView.truthful_answers version hLegible s⟩

theorem session_log_tells_values_five :
    ((answers (ToolCall.logged .reference scriptVersion) scriptTree scriptCalls).2.flatten.foldl
        SessionView.replay ⟨∅, ∅⟩).Stands .reference scriptTree [] "s"
        (answers (ToolCall.logged .reference scriptVersion) scriptTree scriptCalls).1 ∧
      SessionView.Truthful ⟨∅, ∅⟩
        (answers (ToolCall.logged .reference scriptVersion) scriptTree scriptCalls).2.flatten :=
  session_log_tells_values ProtoUtils.reference_lawful scriptVersion (by decide) (by decide)
    scriptTree_stores (Or.inl ⟨by decide, rfl⟩) scriptCalls_allowed
    (by simp [scriptCalls, ToolCall.Legible])

end CisCore
