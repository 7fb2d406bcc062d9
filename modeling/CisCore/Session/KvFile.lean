import CisCore.Library.EntryList
import CisCore.ProtoUtils
import CisCore.Session.Context

/-! # Session values and parameters

All five functions read a whole key-value file; the setters rewrite it line by
line, comparing encoded names, and append the pair when its name is new.
-/

namespace CisCore

variable (P : ProtoUtils) (os : Os)

/-- The pairs of a file that may be absent. Without pairs the error code tells
why; with pairs it is what the check for existence left. -/
def readKvFile (t : FileTree) (p : FsPath) (decode : Bool) (readError : ErrorCode) :
    Option (SortedMap Str Str) × Ec :=
  let (found, ec) := os.pathExists t p
  if found then
    match os.openIfstream t p with
    | none => (none, fail readError)
    | some text =>
      match P.readIstreamKvStr text decode with
      | none => (none, fail readError)
      | some values => (some values, ec)
  else (some ∅, ec)

/-- The loop over the values and the line appended after it. -/
def writeValues (encodedName encodedValue : Str) (values : SortedMap Str Str) : Str :=
  let (text, found) := values.entries.foldl (fun (acc : Str × Bool) (e : Str × Str) =>
    if e.1 = encodedName then (acc.1 ++ ProtoUtils.rawLine e.1 encodedValue, true)
    else (acc.1 ++ ProtoUtils.rawLine e.1 e.2, acc.2)) ([], false)
  if found then text else text ++ ProtoUtils.rawLine encodedName encodedValue

def setKvFile (t : FileTree) (p : FsPath) (writeError : ErrorCode) (name value : Str) :
    FileTree × Ec :=
  match readKvFile P os t p false .cantReadSessionValuesFile with
  | (none, ec) => (t, ec)
  | (some values, ec) =>
    match os.openOfstream t p with
    | none => (t, fail writeError)
    | some t' =>
      (t'.overwrite p (writeValues (P.encodeParam name) (P.encodeParam value) values), ec)

def getKvFile (t : FileTree) (p : FsPath) (readError : ErrorCode) (name : Str) : Option Str × Ec :=
  match readKvFile P os t p true readError with
  | (none, ec) => (none, ec)
  | (some values, ec) => (some ((values.find name).getD []), ec)

def setValue (t : FileTree) (ctx : Context) (session : Session) (name value : Str) :
    FileTree × Ec :=
  setKvFile P os t (sessionDat ctx session) .cantReadSessionValuesFile name value

def setParam (t : FileTree) (ctx : Context) (session : Session) (name value : Str) :
    FileTree × Ec :=
  setKvFile P os t (sessionPrm ctx session) .cantWriteSessionParamsFile name value

def getValue (t : FileTree) (ctx : Context) (session : Session) (name : Str) : Option Str × Ec :=
  getKvFile P os t (sessionDat ctx session) .cantReadSessionValuesFile name

/-- The parameters of the build that the environment names. -/
def getParam (t : FileTree) (ctx : Context) (name : Str) : Option Str × Ec :=
  getKvFile P os t (ctx.baseDir / "jobs" / os.getEnvVar "job_name" / os.getEnvVar "build_number"
    / "job.params") .cantReadJobParamsFile name

def prepareParams (t : FileTree) (ctx : Context) (session : Session)
    (params : List (Str × Str)) : List (Str × Str) × Ec :=
  match readKvFile P os t (sessionPrm ctx session) true .cantReadSessionValuesFile with
  | (none, ec) => (params, ec)
  | (some values, ec) => (params.map fun e => (e.1, (values.find e.1).getD e.2), ec)

/-- The pairs that a call without an error has read. -/
def ReadBefore (t : FileTree) (p : FsPath) (decode : Bool) (values : SortedMap Str Str) : Prop :=
  (t.find p = none ∧ values = ∅) ∨
    ∃ text, os.openIfstream t p = some text ∧ P.readIstreamKvStr text decode = some values

variable {P os}

theorem prepareParams_congr {ctx ctx' : Context} (h : ctx'.baseDir = ctx.baseDir) (t : FileTree)
    (session : Session) (params : List (Str × Str)) :
    prepareParams P os t ctx' session params = prepareParams P os t ctx session params := by
  simp only [prepareParams, sessionPrm, h]

theorem prepareParams_nil (t : FileTree) (ctx : Context) (session : Session) :
    (prepareParams P os t ctx session []).1 = [] := by
  rw [prepareParams]
  split <;> rfl

theorem prepareParams_error {t : FileTree} {ctx : Context} {session : Session}
    {params : List (Str × Str)} (h : (prepareParams P os t ctx session params).2 ≠ none) :
    (prepareParams P os t ctx session params).1 = params := by
  unfold prepareParams at h ⊢
  split
  · rfl
  · rename_i values ec hRead
    rw [hRead] at h
    have hEmpty : values = ∅ := by
      rw [readKvFile] at hRead
      rcases hExists : os.pathExists t (sessionPrm ctx session) with ⟨_ | _, ec'⟩
      · simp only [hExists, Bool.false_eq_true, if_false, Prod.mk.injEq, Option.some.injEq] at hRead
        exact hRead.1.symm
      · -- a file that is found leaves a clear error code
        obtain rfl := Os.pathExists_true hExists
        simp only [hExists, if_true] at hRead
        split at hRead
        · cases hRead
        · split at hRead
          · cases hRead
          · cases hRead
            exact absurd rfl h
    simp [hEmpty]

/-! ### The rewriting loop -/

theorem writeValues_foldl (name value : Str) (entries : List (Str × Str)) (acc : Str × Bool) :
    entries.foldl (fun (acc : Str × Bool) (e : Str × Str) =>
      if e.1 = name then (acc.1 ++ ProtoUtils.rawLine e.1 value, true)
      else (acc.1 ++ ProtoUtils.rawLine e.1 e.2, acc.2)) acc =
    (acc.1 ++ (entries.map fun e => if e.1 = name then (e.1, value) else e).flatMap
      (fun e => ProtoUtils.rawLine e.1 e.2), acc.2 || decide (name ∈ entries.map Prod.fst)) := by
  induction entries generalizing acc with
  | nil => simp
  | cons e entries ih =>
    rw [List.foldl_cons, ih]
    by_cases h : e.1 = name
    · simp [h]
    · have hMem : name ∈ (e :: entries).map Prod.fst ↔ name ∈ entries.map Prod.fst := by
        simp [Ne.symm h]
      simp [h, decide_eq_decide.mpr hMem]

theorem writeValues_eq (name value : Str) (values : SortedMap Str Str) :
    writeValues name value values =
      (EntryList.upsert name value values.entries).flatMap fun e => ProtoUtils.rawLine e.1 e.2 := by
  unfold writeValues EntryList.upsert
  rw [writeValues_foldl]
  by_cases h : name ∈ values.entries.map Prod.fst
  · simp [h]
  · simp [h]

/-! ### What the functions can do -/

theorem readKvFile_absent (hOs : os.Faultless) {t : FileTree} {p : FsPath} (h : t.find p = none)
    (decode : Bool) (e : ErrorCode) : readKvFile P os t p decode e = (some ∅, none) := by
  have hExists : t.pathExists p = false := by simp [FileTree.pathExists, h]
  simp [readKvFile, Os.pathExists_faultless hOs, hExists]

theorem readKvFile_present (hOs : os.Faultless) {t : FileTree} {p : FsPath} {text : Str}
    (h : t.content p = some text) (decode : Bool) (e : ErrorCode) :
    readKvFile P os t p decode e =
      match P.readIstreamKvStr text decode with
      | none => (none, fail e)
      | some values => (some values, none) := by
  have hExists : t.pathExists p = true := by
    rw [FileTree.content] at h
    rw [FileTree.pathExists]
    split at h
    · rename_i hFind
      rw [hFind]
      rfl
    · cases h
  simp only [readKvFile, Os.pathExists_faultless hOs, hExists, if_true,
    Os.openIfstream_faultless hOs h]

theorem readKvFile_clear {t : FileTree} {p : FsPath} {decode : Bool} {e : ErrorCode}
    (h : (readKvFile P os t p decode e).2 = none) :
    ∃ values, readKvFile P os t p decode e = (some values, none) ∧
      ReadBefore P os t p decode values := by
  unfold readKvFile at h ⊢
  rcases hExists : os.pathExists t p with ⟨_ | _, ec⟩
  · simp only [hExists, Bool.false_eq_true, if_false] at h ⊢
    have hClear : os.pathExists t p = (t.pathExists p, none) :=
      Os.pathExists_of_clear (by rw [hExists, h])
    rw [hExists] at hClear
    have hNone : t.pathExists p = false := (Prod.mk.inj hClear).1.symm
    exact ⟨∅, by rw [h], Or.inl ⟨by simpa [FileTree.pathExists] using hNone, rfl⟩⟩
  · simp only [hExists, if_true] at h ⊢
    cases hOpen : os.openIfstream t p with
    | none =>
      rw [hOpen] at h
      cases h
    | some text =>
      cases hRead : P.readIstreamKvStr text decode with
      | none =>
        simp only [hOpen, hRead] at h
        cases h
      | some values =>
        simp only [hOpen, hRead] at h
        exact ⟨values, by simp only [hRead, h], Or.inr ⟨text, hOpen, hRead⟩⟩

theorem setKvFile_clear {t t' : FileTree} {p : FsPath} {e : ErrorCode} {name value : Str}
    (h : setKvFile P os t p e name value = (t', none)) :
    ∃ values, t' = t.write p (writeValues (P.encodeParam name) (P.encodeParam value) values) ∧
      ReadBefore P os t p false values := by
  have hClear : (readKvFile P os t p false .cantReadSessionValuesFile).2 = none := by
    rw [setKvFile] at h
    split at h
    · rename_i ec hRead
      rw [hRead]
      exact (Prod.mk.inj h).2
    · rename_i values ec hRead
      split at h
      · cases h
      · rw [hRead]
        exact (Prod.mk.inj h).2
  obtain ⟨values, hRead, hBefore⟩ := readKvFile_clear hClear
  simp only [setKvFile, hRead] at h
  split at h
  · cases h
  · rename_i t₁ hOpen
    refine ⟨values, ?_, hBefore⟩
    rw [← (Prod.mk.inj h).1, Os.openOfstream_eq_some hOpen, FileTree.overwrite_write_nil]

theorem setKvFile_faultless (hOs : os.Faultless) {t : FileTree} {p : FsPath} {e : ErrorCode}
    {name value : Str} {values : SortedMap Str Str} (hParent : t.isDirectory p.tail = true)
    (hFile : t.find p ≠ some .directory)
    (hRead : readKvFile P os t p false .cantReadSessionValuesFile = (some values, none)) :
    setKvFile P os t p e name value =
      (t.write p (writeValues (P.encodeParam name) (P.encodeParam value) values), none) := by
  simp only [setKvFile, hRead, Os.openOfstream_faultless hOs hParent hFile,
    FileTree.overwrite_write_nil]

theorem setKvFile_sameOutside (P : ProtoUtils) (os : Os) (t : FileTree) (p : FsPath) (e : ErrorCode)
    (name value : Str) : FileTree.SameOutside (· = p) t (setKvFile P os t p e name value).1 := by
  rw [setKvFile]
  split
  · exact FileTree.SameOutside.refl _ t
  split
  · exact FileTree.SameOutside.refl _ t
  rename_i t' hOpen
  obtain rfl := Os.openOfstream_eq_some hOpen
  rw [FileTree.overwrite_write_nil]
  exact FileTree.SameOutside.write (S := (· = p)) rfl t _

end CisCore
