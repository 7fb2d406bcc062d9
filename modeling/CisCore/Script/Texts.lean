import CisCore.Script.Tools

/-! # Texts shared by scripts

Through its methods a script keeps texts in the session. To the scripts of a
session these are two tables of texts, of which a getter returns one line.
-/

namespace CisCore

open Machine

/-- A call of one of the methods of `CisCurrentBuild`. -/
inductive CurrentBuild.Call (τ : Type) where
  | setvalue (name value : τ)
  | getvalue (name : τ)
  | setparam (name value : τ)
  | getparam (name : τ)

inductive CurrentBuild.Answer where
  | raised
  | status (returncode : Nat)
  | result (returncode : Nat) (value : PyStr)
  deriving DecidableEq

section Model

variable (P : ProtoUtils) (version : Version)

/-- `CisCurrentBuild.setparam`; `none` where it raises. -/
def CurrentBuild.setparam (p : Process) (t : FileTree) (name value : PyStr) :
    Option (FileTree × Nat) :=
  (Python.popenArgs [name, value]).map (setparamProcess P p t)

/-- `CisCurrentBuild.getparam`; `none` where it raises. -/
def CurrentBuild.getparam (p : Process) (t : FileTree) (name : PyStr) : Option (Nat × PyStr) := do
  let args ← Python.popenArgs [name]
  let (stdout, status) := getparamProcess P version p t args
  let value ← Python.decodeFirstLine stdout
  some (status, value)

def CurrentBuild.setAnswer (t : FileTree) (r : Option (FileTree × Nat)) : FileTree × Answer :=
  match r with
  | none => (t, .raised)
  | some (t', returncode) => (t', .status returncode)

def CurrentBuild.getAnswer (r : Option (Nat × PyStr)) : Answer :=
  match r with
  | none => .raised
  | some (returncode, value) => .result returncode value

/-- What a call does to the files, and what the script gets from it. -/
def CurrentBuild.call (p : Process) (t : FileTree) : Call PyStr → FileTree × Answer
  | .setvalue name value => setAnswer t (CurrentBuild.setvalue P p t name value)
  | .getvalue name => (t, getAnswer (CurrentBuild.getvalue P version p t name))
  | .setparam name value => setAnswer t (CurrentBuild.setparam P p t name value)
  | .getparam name => (t, getAnswer (CurrentBuild.getparam P version p t name))

def CurrentBuild.Call.map {τ τ' : Type} (f : τ → τ') : Call τ → Call τ'
  | .setvalue name value => .setvalue (f name) (f value)
  | .getvalue name => .getvalue (f name)
  | .setparam name value => .setparam (f name) (f value)
  | .getparam name => .getparam (f name)

/-- The call of a script, and the process it starts. -/
structure TextCall where
  process : Process
  call : CurrentBuild.Call (List Char)

def TextCall.run (t : FileTree) (c : TextCall) : FileTree × CurrentBuild.Answer :=
  CurrentBuild.call P version c.process t (c.call.map Python.ofText)

/-- What a session keeps for its scripts; what was never set is empty. -/
structure TextView where
  values : List Char → List Char
  params : List Char → List Char

/-- The first line of a text; one name stands for the version of the tool. -/
def TextView.read (texts : List Char → List Char) (name : List Char) : CurrentBuild.Answer :=
  if '\x00' ∈ name then .raised
  else if name = "--version".toList then
    CurrentBuild.getAnswer ((Python.decodeFirstLine (printVersion version)).map fun line => (0, line))
  else .result 0 (Python.ofText (Text.firstLine (texts name)))

/-- The answer to a script of a build with these parameters. -/
def TextView.call (build : Process → List Char → List Char) (v : TextView) (c : TextCall) :
    TextView × CurrentBuild.Answer :=
  match c.call with
  | .setvalue name value =>
    if '\x00' ∈ name ∨ '\x00' ∈ value then (v, .raised)
    else (⟨Function.update v.values name value, v.params⟩, .status 0)
  | .setparam name value =>
    if '\x00' ∈ name ∨ '\x00' ∈ value then (v, .raised)
    else (⟨v.values, Function.update v.params name value⟩, .status 0)
  | .getvalue name => (v, read version v.values name)
  | .getparam name => (v, read version (build c.process) name)

/-- The bytes of the map are the texts. -/
def HoldsTexts (m : SortedMap Str Str) (texts : List Char → List Char) : Prop :=
  ∀ name, (m.find (Utf8.encode name)).getD [] = Utf8.encode (texts name)

/-- The files of the session hold the two tables, and nothing else has changed. -/
def TextView.Stands (t₀ : FileTree) (baseDir : FsPath) (sessionId : Str) (t : FileTree)
    (v : TextView) : Prop :=
  ∃ s : SessionView, s.Stands P t₀ baseDir sessionId t ∧ HoldsTexts s.values v.values ∧
    HoldsTexts s.params v.params

def CurrentBuild.Call.Storable : Call (List Char) → Prop
  | .setvalue name value => name ≠ [] ∧ '\r' ∉ value
  | .setparam name value => name ≠ [] ∧ '\r' ∉ value
  | .getvalue _ => True
  | .getparam _ => True

/-- A call from the session with texts that its files can hold. -/
structure TextCall.Allowed (t₀ : FileTree) (baseDir : FsPath) (sessionId : Str)
    (build : Process → List Char → List Char) (c : TextCall) : Prop where
  serves : Serves P c.process t₀ baseDir sessionId
  storable : c.call.Storable
  build : ∃ m, Stores P t₀ (buildParamsFile baseDir c.process) m ∧ HoldsTexts m (build c.process)

end Model

variable {P : ProtoUtils} {version : Version} {t₀ t : FileTree} {baseDir : FsPath} {sessionId : Str}
  {build : Process → List Char → List Char}

/-! ### Texts as arguments -/

theorem encode_injective : Function.Injective Utf8.encode := by
  intro text text' h
  have hDecode := congrArg Utf8.decode h
  rw [Utf8.decode_encode, Utf8.decode_encode] at hDecode
  exact Option.some.inj hDecode

theorem null_mem_encode {text : List Char} : '\x00' ∈ Utf8.encode text ↔ '\x00' ∈ text :=
  Utf8.mem_encode_iff (by decide)

theorem encode_eq_version {name : List Char} :
    Utf8.encode name = "--version".toList ↔ name = "--version".toList := by
  have hVersion : Utf8.encode "--version".toList = "--version".toList :=
    Utf8.encode_of_ascii (by decide)
  constructor
  · intro h
    exact encode_injective (h.trans hVersion.symm)
  · rintro rfl
    exact hVersion

theorem popenArgs_text (name : List Char) : Python.popenArgs [Python.ofText name] =
    if '\x00' ∈ name then none else some [Utf8.encode name] := by
  split_ifs with hNull
  · rw [Option.eq_none_iff_forall_ne_some]
    intro args hArgs
    obtain ⟨arg, hArg, hNone, _⟩ := Python.popenArgs_one.mp hArgs
    rw [Python.fsencode_ofText] at hArg
    obtain rfl := Option.some.inj hArg
    exact hNone (null_mem_encode.mpr hNull)
  · exact Python.popenArgs_one.mpr
      ⟨_, Python.fsencode_ofText name, fun h => hNull (null_mem_encode.mp h), rfl⟩

theorem popenArgs_texts (name value : List Char) :
    Python.popenArgs [Python.ofText name, Python.ofText value] =
      if '\x00' ∈ name ∨ '\x00' ∈ value then none
      else some [Utf8.encode name, Utf8.encode value] := by
  split_ifs with hNull
  · rw [Option.eq_none_iff_forall_ne_some]
    intro args hArgs
    obtain ⟨hEncoded, hNone⟩ := Python.popenArgs_eq_some.mp hArgs
    have hPair : [Python.ofText name, Python.ofText value].mapM Python.fsencode =
        some [Utf8.encode name, Utf8.encode value] := by
      simp [Python.fsencode_ofText]
    obtain rfl := Option.some.inj (hPair.symm.trans hEncoded)
    obtain hName | hValue := hNull
    · exact hNone _ (by simp) (null_mem_encode.mpr hName)
    · exact hNone _ (by simp) (null_mem_encode.mpr hValue)
  · rw [not_or] at hNull
    exact Python.popenArgs_two (Python.fsencode_ofText name) (Python.fsencode_ofText value)
      (fun h => hNull.1 (null_mem_encode.mp h)) (fun h => hNull.2 (null_mem_encode.mp h))

theorem HoldsTexts.insert {m : SortedMap Str Str} {texts : List Char → List Char}
    (h : HoldsTexts m texts) (name value : List Char) :
    HoldsTexts (m.insert (Utf8.encode name) (Utf8.encode value))
      (Function.update texts name value) := by
  intro k
  rw [SortedMap.find_insert]
  obtain rfl | hne := eq_or_ne k name
  · rw [if_pos rfl, Function.update_self]
    rfl
  · rw [if_neg (encode_injective.ne hne), Function.update_of_ne hne]
    exact h k

theorem storable_encode {name value : List Char} (h : name ≠ [] ∧ '\r' ∉ value) :
    Storable (Utf8.encode name, Utf8.encode value) :=
  ⟨encode_injective.ne h.1, fun hMem => h.2 ((Utf8.mem_encode_iff (by decide)).mp hMem)⟩

theorem storable_args {name value : List Char} (h : name ≠ [] ∧ '\r' ∉ value) (arg arg' : Str)
    (hArgs : [Utf8.encode name, Utf8.encode value] = [arg, arg']) : Storable (arg, arg') := by
  cases hArgs
  exact storable_encode h

/-! ### One call -/

theorem TextView.Stands.set {v v' : TextView} (h : v.Stands P t₀ baseDir sessionId t)
    {f : List Str → FileTree × Nat} {name value : List Char}
    (hTree : v'.Stands P t₀ baseDir sessionId (f [Utf8.encode name, Utf8.encode value]).1)
    (hStatus : (f [Utf8.encode name, Utf8.encode value]).2 = 0) :
    (if '\x00' ∈ name ∨ '\x00' ∈ value then (v, CurrentBuild.Answer.raised)
        else (v', .status 0)).1.Stands P t₀ baseDir sessionId (CurrentBuild.setAnswer t
          ((Python.popenArgs [Python.ofText name, Python.ofText value]).map f)).1 ∧
      (CurrentBuild.setAnswer t
          ((Python.popenArgs [Python.ofText name, Python.ofText value]).map f)).2 =
        (if '\x00' ∈ name ∨ '\x00' ∈ value then (v, CurrentBuild.Answer.raised)
          else (v', .status 0)).2 := by
  rw [popenArgs_texts]
  split_ifs
  · exact ⟨h, rfl⟩
  · exact ⟨hTree, congrArg CurrentBuild.Answer.status hStatus⟩

/-- What a getter makes of a process that prints the text behind a name. -/
theorem getAnswer_eq {f : List Str → Str × Nat} {texts : List Char → List Char} {name : List Char}
    (hVersion : f ["--version".toList] = (printVersion version, 0))
    (hText : name ≠ "--version".toList →
      f [Utf8.encode name] = (Utf8.encode (texts name) ++ ['\n'], 0)) :
    CurrentBuild.getAnswer ((Python.popenArgs [Python.ofText name]).bind fun args =>
        (Python.decodeFirstLine (f args).1).bind fun value => some ((f args).2, value)) =
      TextView.read version texts name := by
  rw [popenArgs_text, TextView.read]
  split_ifs with hNull hName
  · rfl
  · rw [Option.bind_some, encode_eq_version.mpr hName, hVersion]
    cases Python.decodeFirstLine (printVersion version) <;> rfl
  · rw [Option.bind_some, hText hName, decodeFirstLine_encode]
    rfl

theorem TextCall.run_simulates (hP : P.Lawful) (hId : sessionId ≠ [])
    (hSessions : t₀.isDirectory (baseDir / "sessions") = true) :
    Simulates (TextCall.run P version) (TextView.call version build)
      (TextCall.Allowed P t₀ baseDir sessionId build)
      (fun t v => v.Stands P t₀ baseDir sessionId t) := by
  rintro t v ⟨p, call⟩ hAllowed ⟨s, hStands, hValues, hParams⟩
  obtain ⟨m, hBuild, hTexts⟩ := hAllowed.build
  have hTool : ∀ c : ToolCall, c.Allowed P t₀ baseDir sessionId (fun _ => m) →
      (s.call version (fun _ => m) c).1.Stands P t₀ baseDir sessionId (c.run P version t).1 ∧
        (c.run P version t).2 = (s.call version (fun _ => m) c).2 :=
    fun c hCall => ToolCall.run_simulates hP version hId hSessions t s c hCall hStands
  have hUnchanged : v.Stands P t₀ baseDir sessionId t := ⟨s, hStands, hValues, hParams⟩
  cases call with
  | setvalue name value =>
    have hCall : s.call version (fun _ => m) ⟨p, .setvalue, [Utf8.encode name, Utf8.encode value]⟩ =
        (⟨s.values.insert (Utf8.encode name) (Utf8.encode value), s.params⟩, [], 0) :=
      if_neg (by simp)
    obtain ⟨hNext, hSame⟩ := hTool ⟨p, .setvalue, [Utf8.encode name, Utf8.encode value]⟩
      ⟨hAllowed.serves, storable_args hAllowed.storable, hBuild⟩
    rw [hCall] at hNext hSame
    exact @TextView.Stands.set P t₀ t baseDir sessionId v _ hUnchanged (setvalueProcess P p t)
      name value
      ⟨_, hNext, hValues.insert name value, hParams⟩ (Prod.mk.inj hSame).2
  | setparam name value =>
    have hCall : s.call version (fun _ => m) ⟨p, .setparam, [Utf8.encode name, Utf8.encode value]⟩ =
        (⟨s.values, s.params.insert (Utf8.encode name) (Utf8.encode value)⟩, [], 0) :=
      if_neg (by simp)
    obtain ⟨hNext, hSame⟩ := hTool ⟨p, .setparam, [Utf8.encode name, Utf8.encode value]⟩
      ⟨hAllowed.serves, storable_args hAllowed.storable, hBuild⟩
    rw [hCall] at hNext hSame
    exact @TextView.Stands.set P t₀ t baseDir sessionId v _ hUnchanged (setparamProcess P p t)
      name value
      ⟨_, hNext, hValues, hParams.insert name value⟩ (Prod.mk.inj hSame).2
  | getvalue name =>
    have hText : name ≠ "--version".toList → getvalueProcess P version p t [Utf8.encode name] =
        (Utf8.encode (v.values name) ++ ['\n'], 0) := by
      intro hName
      have hCall : s.call version (fun _ => m) ⟨p, .getvalue, [Utf8.encode name]⟩ =
          (s, (s.values.find (Utf8.encode name)).getD [] ++ ['\n'], 0) :=
        if_neg (by simpa using mt encode_eq_version.mp hName)
      obtain ⟨_, hSame⟩ := hTool ⟨p, .getvalue, [Utf8.encode name]⟩
        ⟨hAllowed.serves, fun _ _ hArgs => (by cases hArgs), hBuild⟩
      rw [hCall, hValues name] at hSame
      exact hSame
    have hVersion : getvalueProcess P version p t ["--version".toList] = (printVersion version, 0) :=
      if_pos rfl
    exact ⟨hUnchanged, getAnswer_eq hVersion hText⟩
  | getparam name =>
    have hText : name ≠ "--version".toList → getparamProcess P version p t [Utf8.encode name] =
        (Utf8.encode (build p name) ++ ['\n'], 0) := by
      intro hName
      have hCall : s.call version (fun _ => m) ⟨p, .getparam, [Utf8.encode name]⟩ =
          (s, (m.find (Utf8.encode name)).getD [] ++ ['\n'], 0) :=
        if_neg (by simpa using mt encode_eq_version.mp hName)
      obtain ⟨_, hSame⟩ := hTool ⟨p, .getparam, [Utf8.encode name]⟩
        ⟨hAllowed.serves, fun _ _ hArgs => (by cases hArgs), hBuild⟩
      rw [hCall, hTexts name] at hSame
      exact hSame
    have hVersion : getparamProcess P version p t ["--version".toList] = (printVersion version, 0) :=
      if_pos rfl
    exact ⟨hUnchanged, getAnswer_eq hVersion hText⟩

/-! ### Any sequence of calls -/

/-- To the scripts of a session it is two tables of texts, next to the
parameters of their builds. -/
theorem scripts_share_texts (hP : P.Lawful) (version : Version) (hId : sessionId ≠ [])
    (hSessions : t.isDirectory (baseDir / "sessions") = true) {s : SessionView}
    (hValues : Stores P t (valuesFile baseDir sessionId) s.values)
    (hParams : Stores P t (paramsFile baseDir sessionId) s.params) {v : TextView}
    (hValueTexts : HoldsTexts s.values v.values) (hParamTexts : HoldsTexts s.params v.params)
    {calls : List TextCall} (hCalls : ∀ c ∈ calls, c.Allowed P t baseDir sessionId build) :
    (answers (TextView.call version build) v calls).1.Stands P t baseDir sessionId
        (answers (TextCall.run P version) t calls).1 ∧
      (answers (TextCall.run P version) t calls).2 =
        (answers (TextView.call version build) v calls).2 :=
  (TextCall.run_simulates hP hId hSessions).answers hCalls
    ⟨s, ⟨hValues, hParams, FileTree.SameOutside.refl _ t⟩, hValueTexts, hParamTexts⟩

theorem holdsTexts_empty : HoldsTexts ∅ fun _ => [] := fun _ => rfl

/-- A text of two lines, set by one script and read by another one. -/
def textCalls : List TextCall :=
  [⟨scriptProcess 7, .setvalue "é".toList "a\nb".toList⟩, ⟨scriptProcess 8, .getvalue "é".toList⟩,
    ⟨scriptProcess 9, .getparam "p".toList⟩]

def noTexts : TextView := ⟨fun _ => [], fun _ => []⟩

theorem textCalls_allowed :
    ∀ c ∈ textCalls, c.Allowed .reference scriptTree [] "s" fun _ _ => [] := by
  intro c hc
  simp only [textCalls, List.mem_cons, List.not_mem_nil, or_false] at hc
  obtain rfl | rfl | rfl := hc
  all_goals refine ⟨scriptProcess_serves _, ?_, ∅, Or.inl ⟨by decide, rfl⟩, holdsTexts_empty⟩
  · exact ⟨by decide, by decide⟩
  · trivial
  · trivial

theorem scripts_share_texts_three :
    (answers (TextView.call scriptVersion fun _ _ => []) noTexts textCalls).1.Stands .reference
        scriptTree [] "s" (answers (TextCall.run .reference scriptVersion) scriptTree textCalls).1 ∧
      (answers (TextCall.run .reference scriptVersion) scriptTree textCalls).2 =
        (answers (TextView.call scriptVersion fun _ _ => []) noTexts textCalls).2 :=
  @scripts_share_texts .reference scriptTree [] "s" (fun _ _ => []) ProtoUtils.reference_lawful
    scriptVersion (by decide) (by decide) ⟨∅, ∅⟩ scriptTree_stores (Or.inl ⟨by decide, rfl⟩) noTexts
    holdsTexts_empty holdsTexts_empty textCalls textCalls_allowed

example : (answers (TextView.call scriptVersion fun _ _ => []) noTexts textCalls).2 =
    [.status 0, .result 0 (Python.ofText ['a']), .result 0 []] := by decide

end CisCore
