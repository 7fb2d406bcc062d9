import CisCore.Session.Store

/-! # The `setvalue` and `setparam` commands

What keeps a session file readable. A file that the readers accept is a
sequence of lines with non-empty escaped keys; rewriting it keeps those lines
and adds one for the new name. Nothing checks that name before it is written.
-/

namespace CisCore

open Transition

section Model

variable (P : ProtoUtils)

/-- The exit status of a setter's error code. -/
def exitStatus (r : FileTree × Ec) : FileTree × Nat :=
  match r with
  | (t, none) => (t, 0)
  | (t, some _) => (t, 1)

/-- `main` of both commands, after the context was set up: the arguments behind
the program name, the changed tree and the exit status. -/
def setCommand (set : FileTree → Context → Session → Str → Str → FileTree × Ec) (os : Os)
    (freshId : Str) (ctx : Context) (args : List Str) (t : FileTree) : FileTree × Nat :=
  let (session, ctx) := invokeSession os freshId ctx false
  match args with
  | [name, value] =>
    if session.openedByMe then (t, 1)
    else exitStatus (set t ctx session name value)
  | _ => (t, 1)

def setvalueMain (os : Os) := setCommand (setValue P os) os

def setparamMain (os : Os) := setCommand (setParam P os) os

inductive Setter where
  | setvalue
  | setparam

/-- One command as a script issues it, in a process of its own. -/
structure Command where
  os : Os
  freshId : Str
  setter : Setter
  name : Str
  value : Str

/-- The tree after a command that reports success. -/
def Command.run (ctx : Context) (t : FileTree) (c : Command) : Option FileTree :=
  let main := match c.setter with
    | .setvalue => setvalueMain P c.os
    | .setparam => setparamMain P c.os
  match main c.freshId ctx [c.name, c.value] t with
  | (t', 0) => some t'
  | (_, _ + 1) => none

/-- Every function that reads one of the two files of a session parses it. -/
structure SessionParses (os : Os) (t : FileTree) (ctx : Context) (session : Session) : Prop where
  getValue : (readKvFile P os t (sessionDat ctx session) true .cantReadSessionValuesFile).2 = none
  setValue : (readKvFile P os t (sessionDat ctx session) false .cantReadSessionValuesFile).2 = none
  setParam : (readKvFile P os t (sessionPrm ctx session) false .cantReadSessionValuesFile).2 = none
  prepareParams :
    (readKvFile P os t (sessionPrm ctx session) true .cantReadSessionValuesFile).2 = none

/-- Absent, or accepted by both readers. -/
def Readable (t : FileTree) (p : FsPath) : Prop :=
  t.find p = none ∨ ∃ text, t.content p = some text ∧
    (P.readIstreamKvStr text false).isSome ∧ (P.readIstreamKvStr text true).isSome

/-- Present and rejected by both readers. -/
def Broken (t : FileTree) (p : FsPath) : Prop :=
  ∃ text, t.content p = some text ∧ P.readIstreamKvStr text false = none ∧
    P.readIstreamKvStr text true = none

end Model

variable {P : ProtoUtils}

/-! ### Lines the readers accept -/

def AcceptedKey (e : Str × Str) : Prop :=
  KeyValueText.isEscaped e.1 = true ∧ e.1 ≠ [] ∧ '\n' ∉ e.2

theorem AcceptedKey.newline {e : Str × Str} (h : AcceptedKey e) : '\n' ∉ e.1 :=
  KeyValueText.newline_not_mem_of_isEscaped h.1

def rawLines (entries : List (Str × Str)) : Str :=
  entries.flatMap fun e => ProtoUtils.rawLine e.1 e.2

/-- What the raw reader returns for one line has an accepted key, and is
decodable when the decoding reader accepts the line. -/
theorem line_accepted (hP : P.Lawful) {l : Str} (hl : '\n' ∉ l) {ps : List (Str × Str)}
    (hRaw : P.readIstreamOrderedKvStr (l ++ ['\n']) false = some ps) :
    (∀ e ∈ ps, AcceptedKey e) ∧
      ((P.readIstreamOrderedKvStr (l ++ ['\n']) true).isSome →
        ∀ e ∈ ps, (P.decodePair e).isSome) := by
  obtain rfl | ⟨k, v, rfl, hEsc, hk, hv⟩ := hP.read_halves l ps hl hRaw
  · simp
  · refine ⟨by simpa using ⟨hEsc, hk, hv⟩, fun hDecoded => ?_⟩
    rw [hP.read_decoded l hl, hRaw] at hDecoded
    cases hPair : P.decodePair (k, v) with
    | none => simp [hPair] at hDecoded
    | some p => simp [hPair]

theorem text_accepted (hP : P.Lawful) (text : Str) {ps : List (Str × Str)}
    (hRaw : P.readIstreamOrderedKvStr text false = some ps) :
    (∀ e ∈ ps, AcceptedKey e) ∧
      ((P.readIstreamOrderedKvStr text true).isSome → ∀ e ∈ ps, (P.decodePair e).isSome) := by
  induction text using Text.line_induction generalizing ps with
  | last l hl =>
    rw [hP.read_last l _ hl] at hRaw ⊢
    exact line_accepted hP hl hRaw
  | line l t hl ih =>
    rw [hP.read_line l t false hl] at hRaw
    rw [hP.read_line l t true hl]
    obtain ⟨first, hFirst, hBind⟩ := Option.bind_eq_some_iff.mp hRaw
    obtain ⟨rest, hRest, rfl⟩ := Option.map_eq_some_iff.mp hBind
    obtain ⟨hKeys, hDecode⟩ := line_accepted hP hl hFirst
    obtain ⟨hKeys', hDecode'⟩ := ih hRest
    constructor
    · intro e he
      obtain he | he := List.mem_append.mp he
      · exact hKeys e he
      · exact hKeys' e he
    · intro hSome e he
      obtain ⟨_, hBoth⟩ := Option.isSome_iff_exists.mp hSome
      obtain ⟨a, ha, hMap⟩ := Option.bind_eq_some_iff.mp hBoth
      obtain ⟨b, hb, _⟩ := Option.map_eq_some_iff.mp hMap
      obtain he | he := List.mem_append.mp he
      · exact hDecode (by simp [ha]) e he
      · exact hDecode' (by simp [hb]) e he

theorem rawLine_accepted (hP : P.Lawful) {e : Str × Str} (hKey : AcceptedKey e)
    (hDecode : (P.decodePair e).isSome) (decode : Bool) :
    (P.readIstreamOrderedKvStr (ProtoUtils.rawLine e.1 e.2) decode).isSome := by
  obtain ⟨v, n, hv, hRead⟩ := hP.read_pair e.1 e.2 hKey.1 hKey.2.1 hKey.2.2
  cases decode with
  | false => simp [hRead]
  | true =>
    rw [hP.read_decoded_rawLine hKey.newline hKey.2.2, hRead]
    obtain ⟨p, hPair⟩ := Option.isSome_iff_exists.mp hDecode
    obtain ⟨k', hk', hPair⟩ := Option.bind_eq_some_iff.mp hPair
    obtain ⟨v', hv', _⟩ := Option.bind_eq_some_iff.mp hPair
    obtain ⟨w, hw⟩ := Option.isSome_iff_exists.mp (hP.decode_trim v n (by rw [← hv, hv']; rfl))
    simp [ProtoUtils.decodePair, hk', hw]

theorem rawLines_accepted (hP : P.Lawful) {entries : List (Str × Str)}
    (hKeys : ∀ e ∈ entries, AcceptedKey e) (hDecode : ∀ e ∈ entries, (P.decodePair e).isSome)
    (decode : Bool) : (P.readIstreamOrderedKvStr (rawLines entries) decode).isSome := by
  induction entries with
  | nil => simp [rawLines, hP.read_nil]
  | cons e entries ih =>
    have hKey := hKeys e List.mem_cons_self
    obtain ⟨a, ha⟩ := Option.isSome_iff_exists.mp
      (rawLine_accepted hP hKey (hDecode e List.mem_cons_self) decode)
    obtain ⟨b, hb⟩ := Option.isSome_iff_exists.mp
      (ih (fun f hf => hKeys f (List.mem_cons_of_mem _ hf))
        (fun f hf => hDecode f (List.mem_cons_of_mem _ hf)))
    change (P.readIstreamOrderedKvStr (ProtoUtils.rawLine e.1 e.2 ++ rawLines entries) decode).isSome
    rw [hP.read_rawLine_append hKey.newline hKey.2.2, ha, hb]
    rfl

theorem rawLines_append_empty_key (hP : P.Lawful) {entries : List (Str × Str)}
    (hKeys : ∀ e ∈ entries, AcceptedKey e) {v : Str} (hv : '\n' ∉ v) (decode : Bool) :
    P.readIstreamOrderedKvStr (rawLines entries ++ ProtoUtils.rawLine [] v) decode = none := by
  induction entries with
  | nil => exact hP.read_empty_key v decode hv
  | cons e entries ih =>
    have hKey := hKeys e List.mem_cons_self
    change P.readIstreamOrderedKvStr
      (ProtoUtils.rawLine e.1 e.2 ++ rawLines entries ++ ProtoUtils.rawLine [] v) decode = none
    rw [List.append_assoc, hP.read_rawLine_append hKey.newline hKey.2.2,
      ih fun f hf => hKeys f (List.mem_cons_of_mem _ hf)]
    cases P.readIstreamOrderedKvStr (ProtoUtils.rawLine e.1 e.2) decode <;> rfl

/-! ### One setter call -/

theorem exists_raw_of_readKv (hP : P.Lawful) {text : Str} {decode : Bool} {m : SortedMap Str Str}
    (h : P.readIstreamKvStr text decode = some m) :
    ∃ ps, P.readIstreamOrderedKvStr text decode = some ps ∧ ∀ e ∈ m.entries, e ∈ ps := by
  cases hOrdered : P.readIstreamOrderedKvStr text decode with
  | none =>
    rw [hP.map_none text decode hOrdered] at h
    cases h
  | some ps =>
    obtain ⟨m', hm', hMem, _⟩ := hP.map_some text decode ps hOrdered
    rw [h] at hm'
    cases hm'
    exact ⟨ps, rfl, fun e he => hMem e.1 e.2 (SortedMap.find_eq_some_iff.mpr he)⟩

theorem ReadBefore.acceptedKey (hP : P.Lawful) {os : Os} {t : FileTree} {p : FsPath}
    {values : SortedMap Str Str} (h : ReadBefore P os t p false values) :
    ∀ e ∈ values.entries, AcceptedKey e := by
  obtain ⟨_, rfl⟩ | ⟨text, _, hRead⟩ := h
  · simp
  · obtain ⟨ps, hps, hMem⟩ := exists_raw_of_readKv hP hRead
    exact fun e he => (text_accepted hP text hps).1 e (hMem e he)

theorem ReadBefore.decodable (hP : P.Lawful) {os : Os} {t : FileTree} {p : FsPath}
    {values : SortedMap Str Str} (hReadable : Readable P t p) (h : ReadBefore P os t p false values) :
    ∀ e ∈ values.entries, (P.decodePair e).isSome := by
  obtain ⟨_, rfl⟩ | ⟨text, hOpen, hRead⟩ := h
  · simp
  · obtain hAbsent | ⟨text', hText, _, hDecoded⟩ := hReadable
    · simp [Os.openIfstream, hAbsent] at hOpen
    · have hSame := Os.openIfstream_text hOpen
      rw [hText, Option.getD_some] at hSame
      subst hSame
      obtain ⟨ps, hps, hMem⟩ := exists_raw_of_readKv hP hRead
      exact fun e he => (text_accepted hP text hps).2
        ((hP.readKv_isSome_iff text true).mp hDecoded) e (hMem e he)

/-- A call with a name keeps the file readable. -/
theorem setKvFile_readable (hP : P.Lawful) {os : Os} {t t' : FileTree} {p : FsPath} {e : ErrorCode}
    {name value : Str} (hReadable : Readable P t p) (hName : name ≠ [])
    (h : setKvFile P os t p e name value = (t', none)) : Readable P t' p := by
  obtain ⟨values, rfl, hBefore⟩ := setKvFile_clear h
  have hKeys := ReadBefore.acceptedKey hP hBefore
  have hDecode := ReadBefore.decodable hP hReadable hBefore
  have hPair : ∀ f ∈ EntryList.upsert (P.encodeParam name) (P.encodeParam value) values.entries,
      AcceptedKey f ∧ (P.decodePair f).isSome := by
    intro f hf
    obtain rfl | ⟨_, hOld⟩ := EntryList.mem_upsert_cases hf
    · exact ⟨⟨hP.encode_escaped name, hP.encode_ne_nil hName, hP.encode_newline value⟩,
        by simp [ProtoUtils.decodePair, hP.decode_encode]⟩
    · exact ⟨hKeys f hOld, hDecode f hOld⟩
  refine Or.inr ⟨_, FileTree.content_write_self t p _, ?_, ?_⟩
  all_goals
    rw [hP.readKv_isSome_iff, writeValues_eq]
    exact rawLines_accepted hP (fun f hf => (hPair f hf).1) (fun f hf => (hPair f hf).2) _

/-- A call with the empty name breaks it. -/
theorem setKvFile_broken (hP : P.Lawful) {os : Os} {t t' : FileTree} {p : FsPath} {e : ErrorCode}
    {value : Str} (h : setKvFile P os t p e [] value = (t', none)) : Broken P t' p := by
  obtain ⟨values, rfl, hBefore⟩ := setKvFile_clear h
  have hKeys := ReadBefore.acceptedKey hP hBefore
  have hNone : ∀ decode, P.readIstreamOrderedKvStr
      (writeValues (P.encodeParam []) (P.encodeParam value) values) decode = none := by
    intro decode
    have hNot : ([] : Str) ∉ values.entries.map Prod.fst := by
      intro hMem
      obtain ⟨f, hf, hNil⟩ := List.mem_map.mp hMem
      exact (hKeys f hf).2.1 hNil
    have hSame : values.entries.map (fun f => if f.1 = [] then (f.1, P.encodeParam value) else f) =
        values.entries := by
      conv_rhs => rw [← List.map_id values.entries]
      apply List.map_congr_left
      intro f hf
      exact if_neg (hKeys f hf).2.1
    rw [writeValues_eq, hP.encode_nil, EntryList.upsert, if_neg hNot, hSame, List.flatMap_append]
    have hLine : [(([] : Str), P.encodeParam value)].flatMap (fun f => ProtoUtils.rawLine f.1 f.2) =
        ProtoUtils.rawLine [] (P.encodeParam value) := by simp
    rw [hLine]
    exact rawLines_append_empty_key hP hKeys (hP.encode_newline value) decode
  exact ⟨_, FileTree.content_write_self t p _, hP.map_none _ _ (hNone false),
    hP.map_none _ _ (hNone true)⟩

/-! ### Sequences of commands -/

def Command.path (c : Command) (ctx : Context) (session : Session) : FsPath :=
  match c.setter with
  | .setvalue => sessionDat ctx session
  | .setparam => sessionPrm ctx session

theorem eq_of_exitStatus_zero {r : FileTree × Ec} {t' : FileTree}
    (h : (match exitStatus r with
      | (s, 0) => some s
      | (_, _ + 1) => none) = some t') : r = (t', none) := by
  obtain ⟨s, ec⟩ := r
  cases ec with
  | none => simpa [exitStatus] using h
  | some _ => cases h

theorem Command.run_eq_some {c : Command} {ctx : Context} {sessionId : Str} (hId : sessionId ≠ [])
    (hJoined : c.os.getEnvVar "session_id" = sessionId) {t t' : FileTree}
    (h : c.run P ctx t = some t') :
    ∃ e, setKvFile P c.os t (c.path ctx ⟨sessionId, false⟩) e c.name c.value = (t', none) := by
  have hSession := invokeSession_joined hId hJoined c.freshId ctx
  have hBase := invokeSession_baseDir c.os c.freshId ctx false
  rw [Command.run] at h
  rw [Command.path]
  cases hSetter : c.setter with
  | setvalue =>
    refine ⟨.cantReadSessionValuesFile, ?_⟩
    simp only [hSetter, setvalueMain, setCommand, hSession, Bool.false_eq_true, if_false] at h
    exact eq_of_exitStatus_zero h
  | setparam =>
    refine ⟨.cantWriteSessionParamsFile, ?_⟩
    simp only [hSetter, setparamMain, setCommand, hSession, Bool.false_eq_true, if_false] at h
    exact eq_of_exitStatus_zero h

theorem readKvFile_readable {os : Os} (hOs : os.Faultless) {t : FileTree}
    {p : FsPath} (h : Readable P t p) (decode : Bool) (e : ErrorCode) :
    (readKvFile P os t p decode e).2 = none := by
  obtain hAbsent | ⟨text, hText, hRaw, hDecoded⟩ := h
  · rw [readKvFile_absent hOs hAbsent]
  · have hSome : (P.readIstreamKvStr text decode).isSome := by
      cases decode
      · exact hRaw
      · exact hDecoded
    obtain ⟨values, hValues⟩ := Option.isSome_iff_exists.mp hSome
    rw [readKvFile_present hOs hText, hValues]

theorem setKvFile_of_readable {os : Os} (hOs : os.Faultless) {t : FileTree} {p : FsPath}
    (h : Readable P t p) (hParent : t.isDirectory p.tail = true) (e : ErrorCode) (name value : Str) :
    (setKvFile P os t p e name value).2 = none := by
  have hFile : t.find p ≠ some .directory := by
    obtain hAbsent | ⟨text, hText, _⟩ := h
    · simp [hAbsent]
    · intro hDir
      simp [FileTree.content, hDir] at hText
  obtain ⟨values, hRead, _⟩ :=
    readKvFile_clear (readKvFile_readable hOs h false .cantReadSessionValuesFile)
  rw [setKvFile_faultless hOs hParent hFile hRead]

theorem readKvFile_broken {os : Os} (hOs : os.Faultless) {t : FileTree} {p : FsPath}
    (h : Broken P t p) (e : ErrorCode) : readKvFile P os t p false e = (none, fail e) := by
  obtain ⟨text, hText, hRaw, _⟩ := h
  rw [readKvFile_present hOs hText, hRaw]

theorem setKvFile_of_broken {os : Os} {t t' : FileTree} {p : FsPath} {e : ErrorCode}
    {name value : Str} (hBroken : Broken P t p) :
    setKvFile P os t p e name value ≠ (t', none) := by
  intro h
  obtain ⟨values, _, hBefore⟩ := setKvFile_clear h
  obtain ⟨text, hText, hRaw, _⟩ := hBroken
  obtain ⟨hAbsent, _⟩ | ⟨text', hOpen, hRead⟩ := hBefore
  · simp [FileTree.content, hAbsent] at hText
  · have hSame := Os.openIfstream_text hOpen
    rw [hText, Option.getD_some] at hSame
    rw [hSame, hRaw] at hRead
    cases hRead

theorem readable_write_of_ne {t : FileTree} {p q : FsPath} (text : Str) (hne : q ≠ p)
    (h : Readable P t q) : Readable P (t.write p text) q := by
  rw [Readable]
  rwa [FileTree.find_write_of_ne text hne, FileTree.content_write_of_ne text hne]

theorem broken_write_of_ne {t : FileTree} {p q : FsPath} (text : Str) (hne : q ≠ p)
    (h : Broken P t q) : Broken P (t.write p text) q := by
  rw [Broken]
  rwa [FileTree.content_write_of_ne text hne]

section Runs

variable {ctx : Context} {sessionId : Str}

theorem Command.run_readable (hP : P.Lawful) (hId : sessionId ≠ []) {c : Command}
    (hJoined : c.os.getEnvVar "session_id" = sessionId) {t t' : FileTree}
    (hRun : c.run P ctx t = some t') (hName : c.name ≠ [])
    (hDat : Readable P t (sessionDat ctx ⟨sessionId, false⟩))
    (hPrm : Readable P t (sessionPrm ctx ⟨sessionId, false⟩)) :
    Readable P t' (sessionDat ctx ⟨sessionId, false⟩) ∧
      Readable P t' (sessionPrm ctx ⟨sessionId, false⟩) := by
  obtain ⟨e, hSet⟩ := Command.run_eq_some hId hJoined hRun
  obtain ⟨values, hWrite, _⟩ := setKvFile_clear hSet
  have hDiff := sessionDat_ne_sessionPrm ctx ⟨sessionId, false⟩
  unfold Command.path at hSet hWrite
  cases hSetter : c.setter with
  | setvalue =>
    simp only [hSetter] at hSet hWrite
    exact ⟨setKvFile_readable hP hDat hName hSet, hWrite ▸ readable_write_of_ne _ hDiff.symm hPrm⟩
  | setparam =>
    simp only [hSetter] at hSet hWrite
    exact ⟨hWrite ▸ readable_write_of_ne _ hDiff hDat, setKvFile_readable hP hPrm hName hSet⟩

theorem Command.run_broken (hId : sessionId ≠ []) {c d : Command}
    (hJoined : c.os.getEnvVar "session_id" = sessionId) {t t' : FileTree}
    (hRun : c.run P ctx t = some t') (h : Broken P t (d.path ctx ⟨sessionId, false⟩)) :
    Broken P t' (d.path ctx ⟨sessionId, false⟩) := by
  obtain ⟨e, hSet⟩ := Command.run_eq_some hId hJoined hRun
  obtain ⟨values, rfl, _⟩ := setKvFile_clear hSet
  apply broken_write_of_ne _ _ h
  intro heq
  rw [heq] at h
  exact setKvFile_of_broken h hSet

theorem sessionParses_of_readable {os : Os} (hOs : os.Faultless) {t : FileTree}
    {session : Session} (hDat : Readable P t (sessionDat ctx session))
    (hPrm : Readable P t (sessionPrm ctx session)) : SessionParses P os t ctx session where
  getValue := readKvFile_readable hOs hDat true _
  setValue := readKvFile_readable hOs hDat false _
  setParam := readKvFile_readable hOs hPrm false _
  prepareParams := readKvFile_readable hOs hPrm true _

theorem not_sessionParses_of_broken {os : Os} (hOs : os.Faultless) {t : FileTree}
    {session : Session} {c : Command} (h : Broken P t (c.path ctx session)) :
    ¬SessionParses P os t ctx session := by
  intro hParses
  rw [Command.path] at h
  cases hSetter : c.setter with
  | setvalue =>
    simp only [hSetter] at h
    have := hParses.setValue
    rw [readKvFile_broken hOs h] at this
    cases this
  | setparam =>
    simp only [hSetter] at h
    have := hParses.setParam
    rw [readKvFile_broken hOs h] at this
    cases this

/-- After a run of successful commands both files of the session parse exactly
if no command was given the empty name. -/
theorem commands_keep_session_parsable_iff (hP : P.Lawful) (ctx : Context) (hId : sessionId ≠ [])
    {os : Os} (hOs : os.Faultless) (commands : List Command)
    (hJoined : ∀ c ∈ commands, c.os.getEnvVar "session_id" = sessionId) {t t' : FileTree}
    (hDat : Readable P t (sessionDat ctx ⟨sessionId, false⟩))
    (hPrm : Readable P t (sessionPrm ctx ⟨sessionId, false⟩))
    (hRun : run (Command.run P ctx) t commands = some t') :
    SessionParses P os t' ctx ⟨sessionId, false⟩ ↔ ∀ c ∈ commands, c.name ≠ [] := by
  induction commands generalizing t with
  | nil =>
    cases hRun
    simpa using sessionParses_of_readable hOs hDat hPrm
  | cons c commands ih =>
    obtain ⟨s, hFirst, hRest⟩ := run_cons_eq_some.mp hRun
    have hJoinedC := hJoined c List.mem_cons_self
    have hJoinedRest := fun d hd => hJoined d (List.mem_cons_of_mem c hd)
    by_cases hName : c.name = []
    · -- the file of this command is broken here and in every later state
      obtain ⟨e, hSet⟩ := Command.run_eq_some hId hJoinedC hFirst
      rw [hName] at hSet
      have hKept : ∀ u d u', Broken P u (c.path ctx ⟨sessionId, false⟩) →
          d.os.getEnvVar "session_id" = sessionId → Command.run P ctx u d = some u' →
          Broken P u' (c.path ctx ⟨sessionId, false⟩) :=
        fun u d u' hu hd hRun => Command.run_broken hId hd hRun hu
      have hBroken := invariant_of_along hKept (setKvFile_broken hP hSet)
        (along_of_forall hJoinedRest) hRest
      constructor
      · intro hParses
        exact absurd hParses (not_sessionParses_of_broken hOs hBroken)
      · intro hAll
        exact absurd hName (hAll c List.mem_cons_self)
    · obtain ⟨hDat', hPrm'⟩ := Command.run_readable hP hId hJoinedC hFirst hName hDat hPrm
      rw [ih hJoinedRest hDat' hPrm' hRest]
      simp [hName]

end Runs

theorem commands_keep_session_parsable_iff_two :
    ∃ t', run (Command.run .reference ⟨[], ∅, 1, 0⟩)
        (.ofList [([], .directory), (["sessions".toList], .directory)])
        [⟨.ideal (.ofList [("session_id", "s")]), "f", .setvalue, "a", "=\n"⟩,
          ⟨.ideal (.ofList [("session_id", "s")]), "g", .setparam, "b", ""⟩] = some t' ∧
      (SessionParses .reference (.ideal ∅) t' ⟨[], ∅, 1, 0⟩ ⟨"s", false⟩ ↔
        ∀ c ∈ [(⟨.ideal (.ofList [("session_id", "s")]), "f", .setvalue, "a", "=\n"⟩ : Command),
          ⟨.ideal (.ofList [("session_id", "s")]), "g", .setparam, "b", ""⟩], c.name ≠ []) := by
  refine ⟨_, rfl, ?_⟩
  have hId : ("s" : Str) ≠ [] := by decide
  refine commands_keep_session_parsable_iff ProtoUtils.reference_lawful ⟨[], ∅, 1, 0⟩ hId
    (Os.ideal_faultless ∅) _ ?_ (t := .ofList [([], .directory),
      (["sessions".toList], .directory)]) (Or.inl rfl) (Or.inl rfl) rfl
  simp only [List.mem_cons, List.not_mem_nil, or_false, forall_eq_or_imp, forall_eq]
  exact ⟨by decide, by decide⟩

/-- `setvalue "" v` reports success and leaves a value file that no longer parses. -/
theorem setvalue_empty_name_spoils_session :
    ∃ t t', Readable .reference t (sessionDat ⟨[], ∅, 1, 0⟩ ⟨"s", false⟩) ∧
      Readable .reference t (sessionPrm ⟨[], ∅, 1, 0⟩ ⟨"s", false⟩) ∧
      run (Command.run .reference ⟨[], ∅, 1, 0⟩) t
        [⟨.ideal (.ofList [("session_id", "s")]), "f", .setvalue, "", "v"⟩] = some t' ∧
      getValue .reference (.ideal ∅) t' ⟨[], ∅, 1, 0⟩ ⟨"s", false⟩ "a" =
        (none, fail .cantReadSessionValuesFile) ∧
      ¬SessionParses .reference (.ideal ∅) t' ⟨[], ∅, 1, 0⟩ ⟨"s", false⟩ := by
  refine ⟨.ofList [([], .directory), (["sessions".toList], .directory)], _, Or.inl rfl,
    Or.inl rfl, rfl, by decide, ?_⟩
  intro h
  exact absurd h.getValue (by decide)

end CisCore
