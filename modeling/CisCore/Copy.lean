import CisCore.Os

/-! # Copying files

`Os.copy` puts a file where nothing is. The copy of the standard library also finds a
place inside a directory that has the target's name, and copies the files of a
directory. Either adds nodes at or below the target and replaces none.
-/

namespace CisCore

open FileTree (AddsBelow)

abbrev Copier := FileTree → FsPath → FsPath → FileTree × Ec

namespace Os

section Model

variable (os : Os)

def copyFile (t : FileTree) (src dst : FsPath) (node : Node) : FileTree × Ec :=
  match os.copyFault src dst with
  | some e => (t, some (.system e))
  | none =>
    if t.isDirectory (t.landing src dst) then (t, some (.system .enotsup))
    else if t.pathExists (t.landing src dst) then (t, some (.system .eexist))
    else if t.isDirectory (t.landing src dst).tail then (t.insert (t.landing src dst) node, none)
    else (t, some (.system .enoent))

/-- One entry of a directory that is copied. Directories in it are passed over. -/
def copyEntry (src dst : FsPath) (t : FileTree) (entry : Str × Node) : FileTree × Ec :=
  match entry.2 with
  | .file _ _ => os.copyFile t (src / entry.1) (dst / entry.1) entry.2
  | .directory =>
    match os.copyFault (src / entry.1) (dst / entry.1) with
    | some e => (t, some (.system e))
    | none => if (t.content (dst / entry.1)).isSome then (t, some (.system .eisdir)) else (t, none)

/-- The first entry that cannot be copied ends the copy. -/
def copyEntries (src dst : FsPath) : FileTree → List (Str × Node) → FileTree × Ec
  | t, [] => (t, none)
  | t, entry :: entries =>
    match os.copyEntry src dst t entry with
    | (t, some e) => (t, some e)
    | (t, none) => copyEntries src dst t entries

def copyDirectory (t : FileTree) (src dst : FsPath) : FileTree × Ec :=
  match t.find dst with
  | some (.file _ _) => (t, some (.system .eisdir))
  | some .directory => os.copyEntries src dst t (os.readOrder (t.children src))
  | none =>
    if t.isDirectory dst.tail then
      let made : FileTree := t.insert dst .directory
      os.copyEntries src dst made (os.readOrder (made.children src))
    else (t, some (.system .enoent))

/-- `std::filesystem::copy` without options. -/
def stdCopy : Copier := fun t src dst =>
  match os.copyFault src dst with
  | some e => (t, some (.system e))
  | none =>
    match t.find src with
    | none => (t, some (.system .enoent))
    | some (.file text executable) => os.copyFile t src dst (.file text executable)
    | some .directory =>
      if src = dst then (t, some (.system .eexist)) else os.copyDirectory t src dst

end Model

/-! ### Nothing is replaced -/

variable {os : Os} {t t' : FileTree} {src dst : FsPath} {node : Node} {entry : Str × Node}

theorem copyFile_cases (os : Os) (t : FileTree) (src dst : FsPath) (node : Node) :
    (∃ e, os.copyFile t src dst node = (t, some e)) ∨
    (os.copyFile t src dst node = (t.insert (t.landing src dst) node, none) ∧
      t.find (t.landing src dst) = none) := by
  rw [copyFile]
  cases os.copyFault src dst with
  | some e => exact Or.inl ⟨_, rfl⟩
  | none =>
    simp only
    split_ifs with hDir hThere
    · exact Or.inl ⟨_, rfl⟩
    · exact Or.inl ⟨_, rfl⟩
    · exact Or.inr ⟨rfl, FileTree.find_eq_none hThere⟩
    · exact Or.inl ⟨_, rfl⟩

theorem copyFile_adds (os : Os) (t : FileTree) (src dst : FsPath) (node : Node) :
    AddsBelow dst t (os.copyFile t src dst node).1 := by
  obtain ⟨e, hCopy⟩ | ⟨hCopy, hNone⟩ := os.copyFile_cases t src dst node
  · rw [hCopy]
    exact .refl dst t
  · rw [hCopy]
    exact .insert (FileTree.suffix_landing t src dst) hNone node

theorem copyEntry_adds (os : Os) (src dst : FsPath) (t : FileTree) (entry : Str × Node) :
    AddsBelow dst t (os.copyEntry src dst t entry).1 := by
  rw [copyEntry]
  split
  · exact (os.copyFile_adds t _ _ _).mono (FileTree.suffix_child dst entry.1)
  · split
    · exact .refl dst t
    · split_ifs
      · exact .refl dst t
      · exact .refl dst t

theorem copyEntries_adds (os : Os) (src dst : FsPath) (t : FileTree) (entries : List (Str × Node)) :
    AddsBelow dst t (os.copyEntries src dst t entries).1 := by
  induction entries generalizing t with
  | nil => exact .refl dst t
  | cons entry entries ih =>
    have hFirst := os.copyEntry_adds src dst t entry
    rw [copyEntries]
    rcases hEntry : os.copyEntry src dst t entry with ⟨t₁, _ | e⟩
    · rw [hEntry] at hFirst
      exact hFirst.trans (ih t₁)
    · rw [hEntry] at hFirst
      exact hFirst

theorem copyDirectory_adds (os : Os) (t : FileTree) (src dst : FsPath) :
    AddsBelow dst t (os.copyDirectory t src dst).1 := by
  rw [copyDirectory]
  split
  · exact .refl dst t
  · exact os.copyEntries_adds src dst t _
  · rename_i hNone
    split_ifs
    · exact (AddsBelow.insert List.suffix_rfl hNone _).trans (os.copyEntries_adds src dst _ _)
    · exact .refl dst t

theorem stdCopy_adds (os : Os) (t : FileTree) (src dst : FsPath) :
    AddsBelow dst t (os.stdCopy t src dst).1 := by
  rw [stdCopy]
  split
  · exact .refl dst t
  · split
    · exact .refl dst t
    · exact os.copyFile_adds t src dst _
    · split_ifs
      · exact .refl dst t
      · exact os.copyDirectory_adds t src dst

end Os

/-- A copy only adds nodes, and a free target holds the text of the source afterwards. -/
structure Copier.Lawful (copy : Copier) : Prop where
  adds : ∀ t src dst, AddsBelow dst t (copy t src dst).1
  text : ∀ t t' src dst, copy t src dst = (t', none) → t.find dst = none →
    t'.content dst = t.content src

theorem Os.copy_lawful (os : Os) : Copier.Lawful os.copy where
  adds t src dst := by
    obtain ⟨_, hCopy⟩ | ⟨_, hCopy, _, hNone, _⟩ := os.copy_cases t src dst
    · rw [hCopy]
      exact .refl dst t
    · rw [hCopy]
      exact .insert List.suffix_rfl hNone _
  text t t' src dst hCopy _ := by
    obtain ⟨node, rfl, hSource, _⟩ := Os.copy_clear hCopy
    rw [FileTree.content, SortedMap.find_insert_self, FileTree.content, hSource]

theorem Os.stdCopy_lawful (os : Os) : Copier.Lawful os.stdCopy where
  adds := os.stdCopy_adds
  text t t' src dst hCopy hNone := by
    have hNotDir : t.isDirectory dst = false := by
      rw [FileTree.isDirectory, hNone]
      rfl
    rw [stdCopy] at hCopy
    split at hCopy
    · cases hCopy
    · split at hCopy
      · cases hCopy
      · rename_i text executable hSource
        obtain ⟨e, hFails⟩ | ⟨hFile, _⟩ := os.copyFile_cases t src dst (.file text executable)
        · rw [hFails] at hCopy
          cases hCopy
        · rw [hFile, FileTree.landing, hNotDir] at hCopy
          cases hCopy
          rw [FileTree.content, if_neg (by simp), SortedMap.find_insert_self, FileTree.content, hSource]
      · rename_i hSource
        split_ifs at hCopy
        · cases hCopy
        rw [copyDirectory, hNone] at hCopy
        simp only at hCopy
        split_ifs at hCopy
        swap
        · cases hCopy
        have hAdds := os.copyEntries_adds src dst (t.insert dst .directory)
          (os.readOrder (FileTree.children (t.insert dst .directory) src))
        have hDir := hAdds.find_eq (FileTree.pathExists_insert_self t dst .directory)
        rw [hCopy, SortedMap.find_insert_self] at hDir
        rw [FileTree.content, hDir, FileTree.content, hSource]

/-- A regular file and a target that is no directory: the two copies are one. -/
theorem Os.stdCopy_eq_copy {os : Os} {t : FileTree} {src dst : FsPath}
    (hSource : (t.content src).isSome) (hTarget : t.isDirectory dst = false) :
    os.stdCopy t src dst = os.copy t src dst := by
  rw [FileTree.content] at hSource
  split at hSource
  · rename_i text executable hFind
    have hLanding : t.landing src dst = dst := by
      rw [FileTree.landing, hTarget, if_neg (by simp)]
    simp only [stdCopy, copy, hFind, copyFile, hLanding, hTarget]
    cases hFault : os.copyFault src dst with
    | some e => rfl
    | none => simp
  · cases hSource

/-! ### When nothing can be copied -/

/-- No copy of the file, or of a file of the directory, would be a new one. -/
structure NothingToCopy (t : FileTree) (src dst : FsPath) : Prop where
  file : (t.content src).isSome → t.pathExists (t.landing src dst) = true
  directory : t.isDirectory src = true → t.pathExists dst = true
  entries : t.isDirectory src = true → t.isDirectory dst = true → ∀ name : Str,
    (t.content (src / name)).isSome → t.pathExists (t.landing (src / name) (dst / name)) = true

/-- A file stands where the copy, or that of an entry, meets it. -/
def CopyCollides (t : FileTree) (src dst : FsPath) : Prop :=
  (t.content src).isSome ∨ (t.content dst).isSome ∨
    ∃ name : Str, (t.content (src / name)).isSome ∨
      t.pathExists (src / name) = true ∧ (t.content (dst / name)).isSome

section Nothing

variable {os : Os} {t : FileTree} {src dst : FsPath}

theorem Os.copyFile_taken (h : t.pathExists (t.landing src dst) = true) (os : Os) (node : Node) :
    ∃ e, os.copyFile t src dst node = (t, some e) := by
  obtain hFails | ⟨_, hNone⟩ := os.copyFile_cases t src dst node
  · exact hFails
  · rw [FileTree.pathExists, hNone] at h
    cases h

/-- Entries that are all in the way, or of no account, leave the tree as it is. -/
theorem Os.copyEntries_nothing (os : Os) {entries : List (Str × Node)}
    (h : ∀ entry ∈ entries, entry.2 = .directory ∨
      t.pathExists (t.landing (src / entry.1) (dst / entry.1)) = true) :
    (os.copyEntries src dst t entries).1 = t ∧
      ((∃ entry ∈ entries, entry.2 = .directory → (t.content (dst / entry.1)).isSome) →
        (os.copyEntries src dst t entries).2 ≠ none) := by
  induction entries with
  | nil => simp [copyEntries]
  | cons entry entries ih =>
    have hFirst := h entry List.mem_cons_self
    obtain ⟨hSame, hFails⟩ := ih fun e he => h e (List.mem_cons_of_mem _ he)
    have hEntry : (∃ e, os.copyEntry src dst t entry = (t, some e)) ∨
        os.copyEntry src dst t entry = (t, none) ∧
          ¬(entry.2 = .directory → (t.content (dst / entry.1)).isSome) := by
      obtain ⟨name, _ | ⟨text, executable⟩⟩ := entry
      · rw [copyEntry]
        simp only
        cases os.copyFault (src / name) (dst / name) with
        | some e => exact Or.inl ⟨_, rfl⟩
        | none =>
          by_cases hFile : (t.content (dst / name)).isSome
          · exact Or.inl ⟨_, if_pos hFile⟩
          · exact Or.inr ⟨if_neg hFile, fun hCollides => hFile (hCollides trivial)⟩
      · obtain hDir | hTaken := hFirst
        · cases hDir
        · exact Or.inl (Os.copyFile_taken hTaken os _)
    rw [copyEntries]
    obtain ⟨e, hFailed⟩ | ⟨hPassed, hFree⟩ := hEntry
    · rw [hFailed]
      simp
    · rw [hPassed]
      refine ⟨hSame, ?_⟩
      rintro ⟨other, _ | ⟨_, hOther⟩, hCollides⟩
      · exact absurd hCollides hFree
      · exact hFails ⟨other, hOther, hCollides⟩

theorem NothingToCopy.entry (h : NothingToCopy t src dst) (hSource : t.isDirectory src = true)
    (hTarget : t.isDirectory dst = true) {entry : Str × Node} (hEntry : entry ∈ t.children src) :
    entry.2 = .directory ∨ t.pathExists (t.landing (src / entry.1) (dst / entry.1)) = true := by
  obtain ⟨name, _ | ⟨text, executable⟩⟩ := entry
  · exact Or.inl rfl
  · right
    apply h.entries hSource hTarget
    rw [FileTree.content_of_find (FileTree.mem_children_iff.mp hEntry)]
    rfl

/-- Where nothing can be copied nothing is, and whatever is in the way is reported. -/
theorem NothingToCopy.stdCopy (h : NothingToCopy t src dst) (os : Os) :
    (os.stdCopy t src dst).1 = t ∧
      (CopyCollides t src dst → (os.stdCopy t src dst).2 ≠ none) := by
  rw [Os.stdCopy]
  cases os.copyFault src dst with
  | some e => simp
  | none =>
    rcases hSource : t.find src with _ | (_ | ⟨text, executable⟩)
    · simp
    · have hDir : t.isDirectory src = true := FileTree.isDirectory_iff.mpr hSource
      simp only
      split_ifs
      · simp
      · rw [Os.copyDirectory]
        rcases hTarget : t.find dst with _ | (_ | ⟨text, executable⟩)
        · have hThere := h.directory hDir
          rw [FileTree.pathExists, hTarget] at hThere
          cases hThere
        · have hTargetDir : t.isDirectory dst = true := FileTree.isDirectory_iff.mpr hTarget
          have hMem : ∀ entry, entry ∈ os.readOrder (t.children src) ↔ entry ∈ t.children src :=
            fun entry => (os.readOrder_perm _).mem_iff
          obtain ⟨hSame, hFails⟩ := os.copyEntries_nothing fun entry hEntry =>
            h.entry hDir hTargetDir ((hMem entry).mp hEntry)
          refine ⟨hSame, fun hCollides => hFails ?_⟩
          obtain hFile | hFile | ⟨name, hName⟩ := hCollides
          · rw [FileTree.content, hSource] at hFile
            cases hFile
          · rw [FileTree.content, hTarget] at hFile
            cases hFile
          · obtain hFile | ⟨hThere, hFile⟩ := hName
            · obtain ⟨text, executable, hNode⟩ := FileTree.find_of_content hFile
              refine ⟨(name, .file text executable), (hMem _).mpr (FileTree.mem_children_iff.mpr hNode), ?_⟩
              intro hDirectory
              cases hDirectory
            · obtain ⟨node, hNode⟩ := Option.isSome_iff_exists.mp hThere
              exact ⟨(name, node), (hMem _).mpr (FileTree.mem_children_iff.mpr hNode), fun _ => hFile⟩
        · simp
    · obtain ⟨e, hTaken⟩ := Os.copyFile_taken (h.file (by
        rw [FileTree.content_of_find hSource]
        rfl)) os (.file text executable)
      simp [hTaken]

theorem Os.copyEntries_idle {entries : List (Str × Node)}
    (h : ∀ entry ∈ entries, entry.2 = .directory ∧ ¬(t.content (dst / entry.1)).isSome)
    (hFault : ∀ (p : FsPath) (name : Str), os.copyFault p (dst / name) = none) :
    os.copyEntries src dst t entries = (t, none) := by
  induction entries with
  | nil => rfl
  | cons entry entries ih =>
    obtain ⟨hDir, hFree⟩ := h entry List.mem_cons_self
    have hEntry : os.copyEntry src dst t entry = (t, none) := by
      rw [copyEntry, hDir]
      simp only [FileTree.div_str] at hFault hFree ⊢
      rw [hFault]
      exact if_neg hFree
    rw [copyEntries, hEntry]
    exact ih fun e he => h e (List.mem_cons_of_mem _ he)

/-- Where nothing is in the way of a directory, copying nothing succeeds. -/
theorem NothingToCopy.stdCopy_idle (h : NothingToCopy t src dst) (hFree : ¬CopyCollides t src dst)
    (hSource : t.pathExists src = true) (hne : src ≠ dst) (hFault : os.copyFault src dst = none)
    (hFaults : ∀ (p : FsPath) (name : Str), os.copyFault p (dst / name) = none) : os.stdCopy t src dst = (t, none) := by
  obtain ⟨hNoFile, hNoTarget, hNoEntry⟩ : ¬(t.content src).isSome ∧ ¬(t.content dst).isSome ∧
      ¬∃ name : Str, (t.content (src / name)).isSome ∨
        t.pathExists (src / name) = true ∧ (t.content (dst / name)).isSome := by
    rwa [CopyCollides, not_or, not_or] at hFree
  have hDirectory : ∀ p : FsPath, t.pathExists p = true → ¬(t.content p).isSome →
      t.find p = some .directory := by
    intro p hThere hNoText
    rcases hNode : t.find p with _ | (_ | ⟨text, executable⟩)
    · rw [FileTree.pathExists, hNode] at hThere
      cases hThere
    · rfl
    · rw [FileTree.content_of_find hNode] at hNoText
      exact absurd rfl hNoText
  have hSourceDir := hDirectory src hSource hNoFile
  have hTargetDir := hDirectory dst (h.directory (FileTree.isDirectory_iff.mpr hSourceDir)) hNoTarget
  simp only [Os.stdCopy, hFault, hSourceDir, if_neg hne, Os.copyDirectory, hTargetDir]
  apply Os.copyEntries_idle ?_ hFaults
  rintro ⟨name, node⟩ hEntry
  have hNode := FileTree.mem_children_iff.mp ((os.readOrder_perm _).mem_iff.mp hEntry)
  have hThere : t.pathExists (src / name) = true := by
    rw [FileTree.pathExists, hNode]
    rfl
  refine ⟨?_, fun hFile => hNoEntry ⟨name, Or.inr ⟨hThere, hFile⟩⟩⟩
  have hEntryDir := hDirectory (src / name) hThere fun hFile => hNoEntry ⟨name, Or.inl hFile⟩
  exact Option.some.inj (hNode.symm.trans hEntryDir)

/-- A system on which nothing fails and directories are read from one entry on. -/
def Os.readingFirst (entry : Str × Node) : Os :=
  { Os.ideal ∅ with
    readOrder := fun entries => if entry ∈ entries then entry :: entries.erase entry else entries
    readOrder_perm := fun entries => by
      split_ifs with hMem
      · exact (List.perm_cons_erase hMem).symm
      · exact .refl entries }

theorem Os.readingFirst_faultless (entry : Str × Node) : (Os.readingFirst entry).Faultless where
  pathExists _ := rfl
  createDirectory _ := rfl
  copy _ _ := rfl
  openIfstream _ := rfl
  openOfstream _ := rfl
  removeAll _ := rfl
  isExecutable _ := rfl
  makeExecutable _ := rfl
  listDirectory _ := rfl
  spawn _ := rfl

theorem Os.copyFile_free (hOs : os.Faultless) {node : Node}
    (hFree : t.pathExists (t.landing src dst) = false) (hParent : t.isDirectory dst.tail = true) :
    os.copyFile t src dst node = (t.insert (t.landing src dst) node, none) := by
  have hLandingParent : t.isDirectory (t.landing src dst).tail = true := by
    rw [FileTree.landing]
    split_ifs with hDir
    · exact hDir
    · exact hParent
  have hNotDir : t.isDirectory (t.landing src dst) = false := by
    rw [FileTree.isDirectory, FileTree.find_eq_none (by simp [hFree])]
    rfl
  simp [copyFile, hOs.copy, hFree, hNotDir, hLandingParent]

/-- Where something can be copied, some reader of the directory copies it first. -/
theorem exists_stdCopy_grows (h : ¬NothingToCopy t src dst) (hParent : t.isDirectory dst.tail = true)
    (hne : src ≠ dst) : ∃ entry q, t.pathExists q = false ∧
      FileTree.pathExists ((Os.readingFirst entry).stdCopy t src dst).1 q = true := by
  by_contra hNone
  have hOs := Os.readingFirst_faultless
  have hTaken : ∀ entry q, FileTree.pathExists ((Os.readingFirst entry).stdCopy t src dst).1 q = true →
      t.pathExists q = true := by
    intro entry q hThere
    by_contra hNew
    exact hNone ⟨entry, q, by simpa using hNew, hThere⟩
  refine h ⟨fun hFile => ?_, fun hDir => ?_, fun hDir hTarget name hFile => ?_⟩
  · obtain ⟨text, executable, hNode⟩ := FileTree.find_of_content hFile
    by_contra hFree
    refine hFree (hTaken ([], .directory) _ ?_)
    simp only [Os.stdCopy, (hOs _).copy, hNode]
    rw [Os.copyFile_free (hOs _) (by simpa using hFree) hParent]
    exact FileTree.pathExists_insert_self _ _ _
  · by_contra hFree
    refine hFree (hTaken ([], .directory) dst ?_)
    simp only [Os.stdCopy, (hOs _).copy, FileTree.isDirectory_iff.mp hDir, if_neg hne,
      Os.copyDirectory, FileTree.find_eq_none hFree, hParent, if_true]
    exact (Os.copyEntries_adds _ src dst _ _).grows _ (FileTree.pathExists_insert_self _ _ _)
  · obtain ⟨text, executable, hNode⟩ := FileTree.find_of_content hFile
    by_contra hFree
    refine hFree (hTaken (name, .file text executable) _ ?_)
    have hMem : (name, .file text executable) ∈ t.children src := FileTree.mem_children_iff.mpr hNode
    have hOrder : (Os.readingFirst (name, .file text executable)).readOrder (t.children src) =
        (name, .file text executable) :: (t.children src).erase (name, .file text executable) :=
      if_pos hMem
    have hFirst : (Os.readingFirst (name, .file text executable)).copyFile t (src / name) (dst / name)
        (.file text executable) =
          (SortedMap.insert t (t.landing (src / name) (dst / name)) (.file text executable), none) :=
      Os.copyFile_free (hOs _) (by simpa using hFree) hTarget
    simp only [Os.stdCopy, (hOs _).copy, FileTree.isDirectory_iff.mp hDir, if_neg hne,
      Os.copyDirectory, FileTree.isDirectory_iff.mp hTarget, hOrder, Os.copyEntries, Os.copyEntry, hFirst]
    exact (Os.copyEntries_adds _ src dst _ _).grows _ (FileTree.pathExists_insert_self _ _ _)

end Nothing

end CisCore
