import CisCore.ErrorCode
import CisCore.Library.FileTree

/-! # The operating system interface

An `Os` is what one process sees of its system apart from the files: its
environment and which operations fail. Operations on files take the tree and
return the changed one. As in the standard library, an operation that is given
an error code clears it when it succeeds.
-/

namespace CisCore

structure Os where
  environment : SortedMap Str Str
  /-- The pieces of an environment entry, as the process library splits it. -/
  toVector : Str → List Str
  strerror : Errno → Str
  existsFault : FsPath → Option Errno
  createDirectoryFault : FsPath → Option Errno
  copyFault : FsPath → FsPath → Option Errno
  ifstreamFault : FsPath → Bool
  ofstreamFault : FsPath → Bool
  /-- The error of a recursive removal and the paths that survive it. -/
  removeAllFault : FsPath → Option (Errno × (FsPath → Bool))
  isExecutableFault : FsPath → Option Errno
  makeExecutableFault : FsPath → Option Errno
  listFault : FsPath → Option Errno
  spawnFault : FsPath → Option Errno
  /-- The order in which the entries of a directory are read. -/
  readOrder : List (Str × Node) → List (Str × Node)
  readOrder_perm : ∀ entries, (readOrder entries).Perm entries

/-- No file operation of the process fails of itself. -/
structure Os.Faultless (os : Os) : Prop where
  pathExists : ∀ p, os.existsFault p = none
  createDirectory : ∀ p, os.createDirectoryFault p = none
  copy : ∀ p q, os.copyFault p q = none
  openIfstream : ∀ p, os.ifstreamFault p = false
  openOfstream : ∀ p, os.ofstreamFault p = false
  removeAll : ∀ p, os.removeAllFault p = none
  isExecutable : ∀ p, os.isExecutableFault p = none
  makeExecutable : ∀ p, os.makeExecutableFault p = none
  listDirectory : ∀ p, os.listFault p = none
  spawn : ∀ p, os.spawnFault p = none

/-- A removal that fails removes nothing. -/
def Os.AtomicRemoval (os : Os) : Prop :=
  ∀ p e survives, os.removeAllFault p = some (e, survives) → ∀ q, survives q = true

/-- The process library splits environment entries at colons. -/
def Os.SplitsAtColon (os : Os) : Prop :=
  ∀ value, (os.toVector value).head? = some (value.takeWhile (· != ':'))

namespace Os

/-- A system on which nothing fails. -/
def ideal (environment : SortedMap Str Str) : Os where
  environment := environment
  toVector value := value.splitOn ':'
  strerror _ := []
  existsFault _ := none
  createDirectoryFault _ := none
  copyFault _ _ := none
  ifstreamFault _ := false
  ofstreamFault _ := false
  removeAllFault _ := none
  isExecutableFault _ := none
  makeExecutableFault _ := none
  listFault _ := none
  spawnFault _ := none
  readOrder entries := entries
  readOrder_perm entries := .refl entries

theorem ideal_faultless (environment : SortedMap Str Str) : (ideal environment).Faultless where
  pathExists _ := rfl
  createDirectory _ := rfl
  copy _ _ := rfl
  openIfstream _ := rfl
  openOfstream _ := rfl
  removeAll _ := rfl
  isExecutable _ := rfl
  makeExecutable _ := rfl
  listDirectory _ := rfl
  spawn _ := rfl

theorem head_splitOn_colon (value : Str) :
    (value.splitOn ':').head? = some (value.takeWhile (· != ':')) := by
  induction value with
  | nil => rfl
  | cons c value ih =>
    rw [List.splitOn_cons_eq_if_modifyHead, List.takeWhile_cons]
    by_cases h : c = ':'
    · simp [h]
    · simp [h, List.head?_modifyHead, ih]

theorem ideal_splitsAtColon (environment : SortedMap Str Str) :
    (ideal environment).SplitsAtColon := head_splitOn_colon

/-- Only the first piece of the split entry is returned. -/
def getEnvVar (os : Os) (name : Str) : Str :=
  match os.environment.find name with
  | some value => (os.toVector value).headD []
  | none => []

def pathExists (os : Os) (t : FileTree) (p : FsPath) : Bool × Ec :=
  match os.existsFault p with
  | some e => (false, some (.system e))
  | none => (t.pathExists p, none)

/-- An existing directory is left alone and is no error. -/
def createDirectory (os : Os) (t : FileTree) (p : FsPath) : Bool × FileTree × Ec :=
  match os.createDirectoryFault p with
  | some e => (false, t, some (.system e))
  | none =>
    match t.find p with
    | some .directory => (false, t, none)
    | some (.file _ _) => (false, t, some (.system .eexist))
    | none =>
      if t.isDirectory p.tail then (true, t.insert p .directory, none)
      else (false, t, some (.system .enoent))

/-- The copy of a node to a path where nothing is. An existing target is refused; what the
library does with directories is told by `stdCopy`, which is the same for a regular file
and a target that is no directory. -/
def copy (os : Os) (t : FileTree) (src dst : FsPath) : FileTree × Ec :=
  match os.copyFault src dst with
  | some e => (t, some (.system e))
  | none =>
    match t.find src with
    | none => (t, some (.system .enoent))
    | some node =>
      if t.pathExists dst then (t, some (.system .eexist))
      else if t.isDirectory dst.tail then (t.insert dst node, none)
      else (t, some (.system .enoent))

/-- The text of an opened stream; a directory opens and yields nothing. -/
def openIfstream (os : Os) (t : FileTree) (p : FsPath) : Option Str :=
  if os.ifstreamFault p then none
  else
    match t.find p with
    | some (.file text _) => some text
    | some .directory => some []
    | none => none

/-- The tree with the file emptied, when the stream opens. -/
def openOfstream (os : Os) (t : FileTree) (p : FsPath) : Option FileTree :=
  if os.ofstreamFault p then none
  else
    match t.find p with
    | some (.file _ _) => some (t.write p [])
    | some .directory => none
    | none => if t.isDirectory p.tail then some (t.write p []) else none

/-- Opens `p` and writes `text` through the stream. -/
def writeFile (os : Os) (t : FileTree) (p : FsPath) (text : Str) : Option FileTree :=
  (os.openOfstream t p).map fun t' => t'.overwrite p text

def removeAll (os : Os) (t : FileTree) (p : FsPath) : FileTree × Ec :=
  match os.removeAllFault p with
  | some (e, survives) =>
    (t.filterKeys fun q => !p.isSuffixOf q || survives q, some (.system e))
  | none => (t.removeAll p, none)

def isExecutable (os : Os) (t : FileTree) (p : FsPath) : Bool × Ec :=
  match os.isExecutableFault p with
  | some e => (false, some (.system e))
  | none => if t.pathExists p then (t.isExecutable p, none) else (false, some (.system .enoent))

def makeExecutable (os : Os) (t : FileTree) (p : FsPath) : FileTree × Ec :=
  match os.makeExecutableFault p with
  | some e => (t, some (.system e))
  | none =>
    match t.find p with
    | some (.file text _) => (t.insert p (.file text true), none)
    | some .directory => (t, none)
    | none => (t, some (.system .enoent))

/-- The one operation that is given no error code: an error leaves it as an exception. -/
def listDirectory (os : Os) (t : FileTree) (p : FsPath) : Except Errno (List (Str × Node)) :=
  match os.listFault p with
  | some e => .error e
  | none => if t.isDirectory p then .ok (t.children p) else .error .enotdir

/-! ### What each operation can do -/

theorem getEnvVar_eq {os : Os} (h : os.SplitsAtColon) {name value : Str}
    (hFind : os.environment.find name = some value) :
    os.getEnvVar name = value.takeWhile (· != ':') := by
  have hHead := h value
  rw [getEnvVar, hFind]
  cases hv : os.toVector value with
  | nil => simp [hv] at hHead
  | cons first rest => simpa [hv] using hHead

theorem takeWhile_ne_colon_iff {value : Str} :
    value.takeWhile (· != ':') = value ↔ ':' ∉ value := by
  rw [List.takeWhile_eq_self_iff]
  constructor
  · intro h hColon
    exact absurd (h ':' hColon) (by decide)
  · intro hColon c hc
    simp only [bne_iff_ne, ne_eq]
    rintro rfl
    exact hColon hc

theorem getEnvVar_eq_self {os : Os} (h : os.SplitsAtColon) {name value : Str}
    (hFind : os.environment.find name = some value) (hColon : ':' ∉ value) :
    os.getEnvVar name = value :=
  (getEnvVar_eq h hFind).trans (takeWhile_ne_colon_iff.mpr hColon)

theorem pathExists_of_clear {os : Os} {t : FileTree} {p : FsPath}
    (h : (os.pathExists t p).2 = none) : os.pathExists t p = (t.pathExists p, none) := by
  unfold pathExists at h ⊢
  cases hFault : os.existsFault p with
  | some e => simp [hFault] at h
  | none => rfl

theorem pathExists_true {os : Os} {t : FileTree} {p : FsPath} {ec : Ec}
    (h : os.pathExists t p = (true, ec)) : ec = none := by
  rw [pathExists] at h
  cases hFault : os.existsFault p with
  | some e => simp [hFault] at h
  | none =>
    simp only [hFault, Prod.mk.injEq] at h
    exact h.2.symm

theorem pathExists_congr {t t' : FileTree} {p : FsPath} (h : t'.find p = t.find p) (os : Os) :
    os.pathExists t' p = os.pathExists t p := by
  rw [pathExists, pathExists, FileTree.pathExists, FileTree.pathExists, h]

theorem pathExists_faultless {os : Os} (h : os.Faultless) (t : FileTree) (p : FsPath) :
    os.pathExists t p = (t.pathExists p, none) := by
  rw [pathExists, h.pathExists]

theorem createDirectory_cases (os : Os) (t : FileTree) (p : FsPath) :
    (∃ made e, os.createDirectory t p = (made, t, some e)) ∨
    (os.createDirectory t p = (false, t, none) ∧ t.find p = some .directory) ∨
    (os.createDirectory t p = (true, t.insert p .directory, none) ∧ t.find p = none ∧
      t.isDirectory p.tail = true) := by
  rw [createDirectory]
  cases os.createDirectoryFault p with
  | some e => exact Or.inl ⟨_, _, rfl⟩
  | none =>
    cases hFind : t.find p with
    | none =>
      by_cases hParent : t.isDirectory p.tail
      · exact Or.inr (Or.inr ⟨by simp [hParent], rfl, hParent⟩)
      · exact Or.inl ⟨_, _, by simp [hParent]; exact ⟨rfl, rfl⟩⟩
    | some node =>
      cases node with
      | directory => exact Or.inr (Or.inl ⟨rfl, rfl⟩)
      | file _ _ => exact Or.inl ⟨_, _, rfl⟩

theorem copy_cases (os : Os) (t : FileTree) (src dst : FsPath) :
    (∃ e, os.copy t src dst = (t, some e)) ∨
    (∃ node, os.copy t src dst = (t.insert dst node, none) ∧ t.find src = some node ∧
      t.find dst = none ∧ t.isDirectory dst.tail = true) := by
  rw [copy]
  cases os.copyFault src dst with
  | some e => exact Or.inl ⟨_, rfl⟩
  | none =>
    cases hSrc : t.find src with
    | none => exact Or.inl ⟨_, rfl⟩
    | some node =>
      by_cases hDst : t.pathExists dst
      · exact Or.inl ⟨_, by simp [hDst]; rfl⟩
      · by_cases hParent : t.isDirectory dst.tail
        · have hNone : t.find dst = none := by simpa [FileTree.pathExists] using hDst
          exact Or.inr ⟨node, by simp [hDst, hParent], rfl, hNone, hParent⟩
        · exact Or.inl ⟨_, by simp [hDst, hParent]; rfl⟩

theorem createDirectory_clear {os : Os} {t t' : FileTree} {p : FsPath} {made : Bool}
    (h : os.createDirectory t p = (made, t', none)) :
    t'.find p = some .directory ∧ (t.find p = none ∨ t.find p = some .directory) := by
  obtain ⟨_, _, hCreate⟩ | ⟨hCreate, hDir⟩ | ⟨hCreate, hNone, _⟩ := os.createDirectory_cases t p
  · rw [hCreate] at h
    cases h
  · rw [hCreate] at h
    cases h
    exact ⟨hDir, Or.inr hDir⟩
  · rw [hCreate] at h
    cases h
    exact ⟨SortedMap.find_insert_self t p _, Or.inl hNone⟩

theorem copy_clear {os : Os} {t t' : FileTree} {src dst : FsPath} (h : os.copy t src dst = (t', none)) :
    ∃ node, t' = t.insert dst node ∧ t.find src = some node ∧ t.find dst = none := by
  obtain ⟨e, hCopy⟩ | ⟨node, hCopy, hSrc, hDst, _⟩ := os.copy_cases t src dst
  · rw [hCopy] at h
    cases h
  · rw [hCopy] at h
    cases h
    exact ⟨node, rfl, hSrc, hDst⟩

theorem openOfstream_eq_some {os : Os} {t t' : FileTree} {p : FsPath}
    (h : os.openOfstream t p = some t') : t' = t.write p [] := by
  rw [openOfstream] at h
  split at h
  · cases h
  · split at h
    · exact (Option.some.inj h).symm
    · cases h
    · split at h
      · exact (Option.some.inj h).symm
      · cases h

theorem openOfstream_parent {os : Os} {t t' : FileTree} {p : FsPath} {name : Str}
    (h : os.openOfstream t (p / name) = some t') :
    t.isDirectory p = true ∨ (t.content (p / name)).isSome := by
  rw [openOfstream] at h
  split at h
  · cases h
  · rcases hFind : t.find (p / name) with _ | (_ | ⟨text, executable⟩)
    · rw [hFind] at h
      simp only at h
      split_ifs at h with hParent
      exact Or.inl hParent
    · rw [hFind] at h
      cases h
    · exact Or.inr (by rw [FileTree.content_of_find hFind]; rfl)

/-- Whether a stream opens does not depend on the texts of the files. -/
theorem openOfstream_isSome_iff {os : Os} {t : FileTree} {p : FsPath} :
    (os.openOfstream t p).isSome ↔ os.ofstreamFault p = false ∧
      ((t.content p).isSome ∨ t.pathExists p = false ∧ t.isDirectory p.tail = true) := by
  rw [openOfstream, FileTree.content, FileTree.pathExists]
  cases os.ofstreamFault p with
  | true => simp
  | false =>
    rcases t.find p with _ | (_ | ⟨text, executable⟩)
    · by_cases hParent : t.isDirectory p.tail
      · simp [hParent]
      · simp [hParent]
    · simp
    · simp

theorem writeFile_eq_some {os : Os} {t t' : FileTree} {p : FsPath} {text : Str}
    (h : os.writeFile t p text = some t') : t' = t.write p text := by
  obtain ⟨s, hOpen, rfl⟩ := Option.map_eq_some_iff.mp h
  rw [openOfstream_eq_some hOpen, FileTree.overwrite_write_nil]

theorem writeFile_no_directory {os : Os} {t : FileTree} {p : FsPath} (hNone : t.find p = none)
    (hParent : t.isDirectory p.tail = false) (text : Str) : os.writeFile t p text = none := by
  rw [writeFile, Option.map_eq_none_iff, openOfstream, hNone]
  simp [hParent]

theorem writeFile_directory {os : Os} {t : FileTree} {p : FsPath} (hDir : t.isDirectory p = true)
    (text : Str) : os.writeFile t p text = none := by
  rw [writeFile, Option.map_eq_none_iff, openOfstream, FileTree.isDirectory_iff.mp hDir]
  exact ite_self none

theorem openOfstream_faultless {os : Os} (hOs : os.Faultless) {t : FileTree} {p : FsPath}
    (hParent : t.isDirectory p.tail = true) (hFile : t.find p ≠ some .directory) :
    os.openOfstream t p = some (t.write p []) := by
  rw [openOfstream]
  rw [hOs.openOfstream, if_neg (by simp)]
  cases hFind : t.find p with
  | none => simp [hParent]
  | some node =>
    cases node with
    | directory => exact absurd hFind hFile
    | file _ _ => rfl

theorem openOfstream_of_content {os : Os} (hOs : os.Faultless) {t : FileTree} {p : FsPath}
    {text : Str} (h : t.content p = some text) : os.openOfstream t p = some (t.write p []) := by
  rw [openOfstream, hOs.openOfstream, if_neg (by simp)]
  rw [FileTree.content] at h
  split at h
  · rename_i hFind
    rw [hFind]
  · cases h

theorem writeFile_faultless {os : Os} (hOs : os.Faultless) {t : FileTree} {p : FsPath} (text : Str)
    (hParent : t.isDirectory p.tail = true) (hFile : t.find p ≠ some .directory) :
    os.writeFile t p text = some (t.write p text) := by
  rw [writeFile, openOfstream_faultless hOs hParent hFile, Option.map_some,
    FileTree.overwrite_write_nil]

theorem createDirectory_faultless {os : Os} (hOs : os.Faultless) {t : FileTree} {p : FsPath}
    (hParent : t.isDirectory p.tail = true) (hNone : t.find p = none) :
    os.createDirectory t p = (true, t.insert p .directory, none) := by
  rw [createDirectory, hOs.createDirectory]
  simp [hNone, hParent]

theorem copy_faultless {os : Os} (hOs : os.Faultless) {t : FileTree} {src dst : FsPath} {node : Node}
    (hSrc : t.find src = some node) (hDst : t.find dst = none)
    (hParent : t.isDirectory dst.tail = true) :
    os.copy t src dst = (t.insert dst node, none) := by
  rw [copy, hOs.copy]
  simp [hSrc, FileTree.pathExists, hDst, hParent]

theorem isExecutable_faultless {os : Os} (hOs : os.Faultless) {t : FileTree} {p : FsPath}
    (h : t.ExecutableFile p) : os.isExecutable t p = (true, none) := by
  obtain ⟨text, hFind⟩ := h
  rw [isExecutable, hOs.isExecutable]
  simp only [FileTree.pathExists, FileTree.isExecutable, hFind, Option.isSome_some, if_true]

theorem openIfstream_congr {t t' : FileTree} {p : FsPath} (h : t'.find p = t.find p) (os : Os) :
    os.openIfstream t' p = os.openIfstream t p := by
  rw [openIfstream, openIfstream, h]

theorem openIfstream_pathExists {os : Os} {t : FileTree} {p : FsPath} {text : Str}
    (hOpen : os.openIfstream t p = some text) : t.pathExists p = true := by
  rw [openIfstream] at hOpen
  rw [FileTree.pathExists]
  split at hOpen
  · cases hOpen
  · cases hFind : t.find p with
    | none => simp [hFind] at hOpen
    | some node => rfl

/-- Whoever can open a file reads the same. -/
theorem openIfstream_text {os : Os} {t : FileTree} {p : FsPath} {text : Str}
    (hOpen : os.openIfstream t p = some text) : text = (t.content p).getD [] := by
  rw [openIfstream] at hOpen
  split at hOpen
  · cases hOpen
  · rw [FileTree.content]
    rcases hFind : t.find p with _ | (_ | ⟨text', executable⟩)
    · simp [hFind] at hOpen
    · simpa [hFind, eq_comm] using hOpen
    · simpa [hFind, eq_comm] using hOpen

theorem openIfstream_of_content {os : Os} {t : FileTree} {p : FsPath} {text : Str}
    (hRead : os.ifstreamFault p = false) (h : t.content p = some text) :
    os.openIfstream t p = some text := by
  rw [openIfstream]
  rw [hRead, if_neg (by simp)]
  rw [FileTree.content] at h
  split at h
  · rename_i text' executable hFind
    rw [hFind]
    exact h
  · cases h

theorem openIfstream_faultless {os : Os} (hOs : os.Faultless) {t : FileTree} {p : FsPath} {text : Str}
    (h : t.content p = some text) : os.openIfstream t p = some text :=
  openIfstream_of_content (hOs.openIfstream p) h

theorem removeAll_clear {os : Os} {t : FileTree} {p : FsPath}
    (h : (os.removeAll t p).2 = none) : os.removeAll t p = (t.removeAll p, none) := by
  unfold removeAll at h ⊢
  cases hFault : os.removeAllFault p with
  | some fault => simp [hFault] at h
  | none => rfl

theorem removeAll_atomic {os : Os} (h : os.AtomicRemoval) (t : FileTree) (p : FsPath) :
    os.removeAll t p = (t.removeAll p, none) ∨ ∃ e, os.removeAll t p = (t, some e) := by
  rw [removeAll]
  rcases hFault : os.removeAllFault p with _ | ⟨e, survives⟩
  · exact Or.inl rfl
  · right
    refine ⟨.system e, Prod.ext ?_ rfl⟩
    apply SortedMap.ext_find
    intro q
    rw [SortedMap.find_filterKeys, h p e survives hFault q, Bool.or_true, if_pos rfl]

/-! ### What each operation leaves alone -/

section Frame

open FileTree

variable {os : Os} {t : FileTree} {S : FsPath → Prop} {q : FsPath}

theorem createDirectory_sameOutside {r : Bool × FileTree × Ec} (h : S q)
    (hCreate : os.createDirectory t q = r) : SameOutside S t r.2.1 := by
  rw [← hCreate]
  obtain ⟨_, _, hMake⟩ | ⟨hMake, _⟩ | ⟨hMake, _⟩ := os.createDirectory_cases t q
  · rw [hMake]
    exact SameOutside.refl S t
  · rw [hMake]
    exact SameOutside.refl S t
  · rw [hMake]
    exact SameOutside.insert h t _

theorem copy_sameOutside {r : FileTree × Ec} {src : FsPath} (h : S q)
    (hCopy : os.copy t src q = r) : SameOutside S t r.1 := by
  rw [← hCopy]
  obtain ⟨_, hCopy⟩ | ⟨_, hCopy, _⟩ := os.copy_cases t src q
  · rw [hCopy]
    exact SameOutside.refl S t
  · rw [hCopy]
    exact SameOutside.insert h t _

theorem writeFile_sameOutside {t' : FileTree} {text : Str} (h : S q)
    (hWrite : os.writeFile t q text = some t') : SameOutside S t t' := by
  rw [writeFile_eq_some hWrite]
  exact SameOutside.write h t text

theorem removeAll_sameOutside (os : Os) (t : FileTree) (p : FsPath) :
    SameOutside (p <:+ ·) t (os.removeAll t p).1 := by
  intro q hq
  rw [removeAll]
  split
  · have hOutside : p.isSuffixOf q = false := by
      rw [← Bool.not_eq_true, List.isSuffixOf_iff_suffix]
      exact hq
    rw [SortedMap.find_filterKeys]
    simp [hOutside]
  · exact find_removeAll_of_not_suffix hq

theorem makeExecutable_cases (os : Os) (t : FileTree) (q : FsPath) :
    (∃ e, os.makeExecutable t q = (t, some e)) ∨
    (os.makeExecutable t q = (t, none) ∧ t.find q = some .directory) ∨
    ∃ text executable, t.find q = some (.file text executable) ∧
      os.makeExecutable t q = (t.insert q (.file text true), none) := by
  rw [makeExecutable]
  cases os.makeExecutableFault q with
  | some e => exact Or.inl ⟨_, rfl⟩
  | none =>
    cases hFind : t.find q with
    | none => exact Or.inl ⟨_, rfl⟩
    | some node =>
      cases node with
      | directory => exact Or.inr (Or.inl ⟨rfl, rfl⟩)
      | file text executable => exact Or.inr (Or.inr ⟨text, executable, rfl, rfl⟩)

theorem makeExecutable_sameOutside {r : FileTree × Ec} (h : S q)
    (hExecutable : os.makeExecutable t q = r) : SameOutside S t r.1 := by
  rw [← hExecutable]
  obtain ⟨_, hMake⟩ | ⟨hMake, _⟩ | ⟨_, _, _, hMake⟩ := os.makeExecutable_cases t q
  · rw [hMake]
    exact SameOutside.refl S t
  · rw [hMake]
    exact SameOutside.refl S t
  · rw [hMake]
    exact SameOutside.insert h t _

theorem createDirectory_grows (os : Os) (t : FileTree) (p : FsPath) :
    Grows t (os.createDirectory t p).2.1 := by
  obtain ⟨_, _, hMake⟩ | ⟨hMake, _⟩ | ⟨hMake, _⟩ := os.createDirectory_cases t p
  · rw [hMake]
    exact Grows.refl t
  · rw [hMake]
    exact Grows.refl t
  · rw [hMake]
    exact Grows.insert t p _

theorem makeExecutable_grows (os : Os) (t : FileTree) (p : FsPath) :
    Grows t (os.makeExecutable t p).1 := by
  obtain ⟨_, hMake⟩ | ⟨hMake, _⟩ | ⟨_, _, _, hMake⟩ := os.makeExecutable_cases t p
  · rw [hMake]
    exact Grows.refl t
  · rw [hMake]
    exact Grows.refl t
  · rw [hMake]
    exact Grows.insert t p _

theorem makeExecutable_content (os : Os) (t : FileTree) (p q : FsPath) :
    (os.makeExecutable t p).1.content q = t.content q := by
  obtain ⟨_, hMake⟩ | ⟨hMake, _⟩ | ⟨text, executable, hFind, hMake⟩ := os.makeExecutable_cases t p
  · rw [hMake]
  · rw [hMake]
  · rw [hMake]
    obtain rfl | hne := eq_or_ne q p
    · simp [content, hFind]
    · exact content_congr (SortedMap.find_insert_of_ne t _ hne)

theorem makeExecutable_pathExists (os : Os) (t : FileTree) (p q : FsPath) :
    (os.makeExecutable t p).1.pathExists q = t.pathExists q := by
  obtain ⟨_, hMake⟩ | ⟨hMake, _⟩ | ⟨text, executable, hFind, hMake⟩ := os.makeExecutable_cases t p
  · rw [hMake]
  · rw [hMake]
  · rw [hMake, FileTree.pathExists, FileTree.pathExists]
    obtain rfl | hne := eq_or_ne q p
    · rw [SortedMap.find_insert_self, hFind]
      rfl
    · rw [SortedMap.find_insert_of_ne t _ hne]

end Frame

end Os

end CisCore
