import CisCore.Library.SortedMap
import CisCore.Library.Text
import Mathlib.Data.Char

/-! # File trees

A file tree maps absolute paths to nodes. A path lists its components from the
innermost outwards, so that the entries of a directory are the paths one
component longer and a subtree is the set of paths with a given suffix. `p / name`
is the entry of that name and nothing else; a text that may have several
components, or none, is followed through the tree.
-/

abbrev FsPath := List Str

instance : HDiv FsPath Str FsPath := ⟨fun p name => name :: p⟩

instance : HDiv FsPath String FsPath := ⟨fun p name => name.toList :: p⟩

inductive Node where
  | directory
  | file (content : Str) (executable : Bool)
deriving DecidableEq

abbrev FileTree := SortedMap FsPath Node

namespace FileTree

@[simp] theorem div_str (p : FsPath) (name : Str) : p / name = name :: p := rfl

@[simp] theorem div_string (p : FsPath) (name : String) : p / name = name.toList :: p := rfl

def isDirectory (t : FileTree) (p : FsPath) : Bool := t.find p = some .directory

def pathExists (t : FileTree) (p : FsPath) : Bool := (t.find p).isSome

/-- The path that the components lead to; each but the last has to be a directory. -/
def followFrom (t : FileTree) : FsPath → List Str → Option FsPath
  | p, [] => some p
  | p, name :: names =>
    if t.isDirectory p then
      if name = [] ∨ name = ['.'] then followFrom t p names
      else if name = ['.', '.'] then followFrom t p.tail names
      else followFrom t (p / name) names
    else none

/-- What a text stands for that is appended to the path `p` as paths are: from the
root on if it starts there, and up to the first zero, where the system's texts end. -/
def follow (t : FileTree) (p : FsPath) (text : Str) : Option FsPath :=
  let text := text.takeWhile (· != '\x00')
  t.followFrom (if text.head? = some '/' then [] else p) (text.splitOn '/')

/-- The text is the name of an entry. -/
structure PlainName (name : Str) : Prop where
  not_empty : name ≠ []
  not_dot : name ≠ ['.']
  not_dots : name ≠ ['.', '.']
  one_component : '/' ∉ name
  no_zero : '\x00' ∉ name

/-- A file that is copied onto a directory ends up in it. -/
def landing (t : FileTree) (src dst : FsPath) : FsPath :=
  if t.isDirectory dst then dst / src.headD [] else dst

/-- The text of a regular file. -/
def content (t : FileTree) (p : FsPath) : Option Str :=
  match t.find p with
  | some (.file text _) => some text
  | _ => none

def isExecutable (t : FileTree) (p : FsPath) : Bool :=
  match t.find p with
  | some (.file _ executable) => executable
  | some .directory => true
  | none => false

/-- Replaces the text at `p`; a new file is not executable. -/
def write (t : FileTree) (p : FsPath) (text : Str) : FileTree :=
  t.insert p (.file text (match t.find p with
    | some (.file _ executable) => executable
    | _ => false))

/-- Writes at the start of the file without cutting off what lies behind. -/
def overwrite (t : FileTree) (p : FsPath) (text : Str) : FileTree :=
  t.write p (text ++ ((t.content p).getD []).drop text.length)

/-- Writes at an offset; a gap behind the end of the file is filled with zeros. -/
def writeAt (t : FileTree) (p : FsPath) (offset : Nat) (text : Str) : FileTree :=
  let old := (t.content p).getD []
  t.write p (old.take offset ++ List.replicate (offset - old.length) '\x00' ++ text ++
    old.drop (offset + text.length))

/-- The tree without `p` and everything below it. -/
def removeAll (t : FileTree) (p : FsPath) : FileTree := t.filterKeys fun q => !p.isSuffixOf q

def childNode (p : FsPath) : FsPath × Node → Option (Str × Node)
  | (name :: parent, node) => if parent = p then some (name, node) else none
  | ([], _) => none

def children (t : FileTree) (p : FsPath) : List (Str × Node) := t.entries.filterMap (childNode p)

theorem childNode_eq_some_iff {p : FsPath} {e : FsPath × Node} {c : Str × Node} :
    childNode p e = some c ↔ e = (p / c.1, c.2) := by
  obtain ⟨q, node⟩ := e
  obtain ⟨name, node'⟩ := c
  cases q with
  | nil => simp [childNode]
  | cons first parent =>
    simp only [childNode, div_str]
    split_ifs with h
    · simp [h]
    · simp [h]

theorem mem_children_iff {t : FileTree} {p : FsPath} {name : Str} {node : Node} :
    (name, node) ∈ t.children p ↔ t.find (p / name) = some node := by
  rw [children, List.mem_filterMap, SortedMap.find_eq_some_iff]
  constructor
  · rintro ⟨e, he, hc⟩
    rwa [childNode_eq_some_iff.mp hc] at he
  · intro h
    exact ⟨_, h, childNode_eq_some_iff.mpr rfl⟩

theorem splitOn_of_not_mem {text : Str} {sep : Char} (h : sep ∉ text) : text.splitOn sep = [text] := by
  induction text with
  | nil => rfl
  | cons c text ih =>
    obtain ⟨hFirst, hRest⟩ := not_or.mp (List.mem_cons.not.mp h)
    rw [List.splitOn_cons_eq_if_modifyHead, ih hRest, if_neg (by simpa using Ne.symm hFirst)]
    rfl

theorem PlainName.follow_eq {name : Str} (h : PlainName name) (t : FileTree) (p : FsPath) :
    t.follow p name = if t.isDirectory p then some (p / name) else none := by
  have hText : name.takeWhile (· != '\x00') = name := by
    rw [List.takeWhile_eq_self_iff]
    intro c hc
    rw [bne_iff_ne]
    rintro rfl
    exact h.no_zero hc
  have hRelative : name.head? ≠ some '/' := fun hHead =>
    h.one_component (List.mem_of_mem_head? hHead)
  rw [FileTree.follow, hText, if_neg hRelative, splitOn_of_not_mem h.one_component, followFrom,
    if_neg (not_or.mpr ⟨h.not_empty, h.not_dot⟩), if_neg h.not_dots, followFrom]

theorem PlainName.follow {name : Str} (h : PlainName name) {t : FileTree} {p : FsPath}
    (hDir : t.isDirectory p = true) : t.follow p name = some (p / name) := by
  rw [h.follow_eq, if_pos hDir]

/-! ### Lookups after each operation -/

theorem find_write (t : FileTree) (p q : FsPath) (text : Str) :
    (t.write p text).find q =
      if q = p then some (.file text (match t.find p with
        | some (.file _ executable) => executable
        | _ => false)) else t.find q := SortedMap.find_insert t p q _

theorem find_write_of_ne {t : FileTree} {p q : FsPath} (text : Str) (h : q ≠ p) :
    (t.write p text).find q = t.find q := SortedMap.find_insert_of_ne t _ h

@[simp] theorem content_write_self (t : FileTree) (p : FsPath) (text : Str) :
    (t.write p text).content p = some text := by
  simp [content, find_write]

theorem content_write_of_ne {t : FileTree} {p q : FsPath} (text : Str) (h : q ≠ p) :
    (t.write p text).content q = t.content q := by
  simp [content, find_write_of_ne text h]

theorem content_of_find {t : FileTree} {p : FsPath} {text : Str} {executable : Bool}
    (h : t.find p = some (.file text executable)) : t.content p = some text := by
  rw [content, h]

theorem find_of_content {t : FileTree} {p : FsPath} (h : (t.content p).isSome) :
    ∃ text executable, t.find p = some (.file text executable) := by
  rw [content] at h
  split at h
  · rename_i text executable hFind
    exact ⟨text, executable, hFind⟩
  · cases h

theorem pathExists_insert_self (t : FileTree) (p : FsPath) (node : Node) :
    FileTree.pathExists (SortedMap.insert t p node) p = true := by
  rw [pathExists, SortedMap.find_insert_self]
  rfl

theorem pathExists_of_content {t : FileTree} {p : FsPath} (h : (t.content p).isSome) :
    t.pathExists p = true := by
  rw [content] at h
  split at h
  · rename_i hFind
    rw [pathExists, hFind]
    rfl
  · cases h

theorem find_eq_none {t : FileTree} {p : FsPath} (h : ¬t.pathExists p = true) : t.find p = none := by
  simpa [pathExists] using h

theorem content_congr {t t' : FileTree} {p : FsPath} (h : t.find p = t'.find p) :
    t.content p = t'.content p := by
  rw [content, content, h]

theorem write_write (t : FileTree) (p : FsPath) (text text' : Str) :
    (t.write p text).write p text' = t.write p text' := by
  apply SortedMap.ext_find
  intro q
  rw [find_write, find_write, find_write, find_write]
  by_cases h : q = p <;> simp [h]

theorem writeAt_end {t : FileTree} {p : FsPath} {old : Str} (h : t.content p = some old)
    (text : Str) : t.writeAt p old.length text = t.write p (old ++ text) := by
  have hDrop : old.drop (old.length + text.length) = [] := List.drop_eq_nil_of_le (by omega)
  simp [writeAt, h, hDrop]

theorem write_content {t : FileTree} {p : FsPath} {text : Str} (h : t.content p = some text) :
    t.write p text = t := by
  apply SortedMap.ext_find
  intro q
  rw [find_write]
  split_ifs with hq
  · subst hq
    rw [content] at h
    split at h
    · rename_i text' executable hFind
      cases h
      rw [hFind]
    · cases h
  · rfl

theorem overwrite_write_nil (t : FileTree) (p : FsPath) (text : Str) :
    (t.write p []).overwrite p text = t.write p text := by
  rw [overwrite, content_write_self, write_write]
  simp

theorem find_removeAll (t : FileTree) (p q : FsPath) :
    (t.removeAll p).find q = if p <:+ q then none else t.find q := by
  rw [removeAll, SortedMap.find_filterKeys]
  by_cases h : p <:+ q
  · simp [h]
  · simp [h]

theorem find_removeAll_of_not_suffix {t : FileTree} {p q : FsPath} (h : ¬p <:+ q) :
    (t.removeAll p).find q = t.find q := by
  rw [find_removeAll, if_neg h]

theorem not_suffix_of_sibling {p q : FsPath} {name name' : Str} (hne : name ≠ name')
    (h : (p / name) <:+ q) : ¬(p / name') <:+ q := by
  intro h'
  have hlen : (p / name').length ≤ (p / name).length := by simp
  have hEq := List.suffix_of_suffix_length_le h' h hlen
  obtain ⟨l, hl⟩ := hEq
  cases l with
  | nil =>
    simp only [List.nil_append, div_str] at hl
    exact hne (List.cons.inj hl).1.symm
  | cons c l =>
    have := congrArg List.length hl
    simp at this
    omega

theorem isDirectory_iff {t : FileTree} {p : FsPath} :
    t.isDirectory p = true ↔ t.find p = some .directory := by
  simp [isDirectory]

/-! ### Changes in one place -/

theorem suffix_child (p : FsPath) (name : Str) : p <:+ (p / name) := List.suffix_cons name p

/-- Below `p` but not `p` itself. -/
def Inside (p q : FsPath) : Prop := p <:+ q ∧ q ≠ p

theorem inside_child (p : FsPath) (name : Str) : Inside p (p / name) :=
  ⟨suffix_child p name, List.cons_ne_self name p⟩

theorem Inside.of_suffix {p q r : FsPath} (h : Inside p q) (hBelow : q <:+ r) : Inside p r := by
  refine ⟨h.1.trans hBelow, ?_⟩
  rintro rfl
  exact h.2 (hBelow.eq_of_length_le h.1.length_le)

/-- Nothing has changed but at paths of the set. -/
def SameOutside (S : FsPath → Prop) (t t' : FileTree) : Prop := ∀ q, ¬S q → t'.find q = t.find q

namespace SameOutside

variable {S S' : FsPath → Prop} {q : FsPath} {t t' t'' : FileTree}

theorem refl (S : FsPath → Prop) (t : FileTree) : SameOutside S t t := fun _ _ => rfl

theorem trans (h : SameOutside S t t') (h' : SameOutside S t' t'') : SameOutside S t t'' :=
  fun r hr => (h' r hr).trans (h r hr)

theorem insert (hq : S q) (t : FileTree) (node : Node) :
    SameOutside S t (SortedMap.insert t q node) := by
  intro r hr
  apply SortedMap.find_insert_of_ne
  rintro rfl
  exact hr hq

theorem write (hq : S q) (t : FileTree) (text : Str) : SameOutside S t (t.write q text) :=
  insert hq t _

theorem mono (hS : ∀ q, S q → S' q) (h : SameOutside S t t') : SameOutside S' t t' :=
  fun r hr => h r fun hS' => hr (hS r hS')

theorem below {p : FsPath} (h : SameOutside (Inside p) t t') : SameOutside (p <:+ ·) t t' :=
  h.mono fun _ hq => hq.1

theorem content_eq (h : SameOutside S t t') (hq : ¬S q) : t'.content q = t.content q :=
  content_congr (h q hq)

end SameOutside

/-- Nothing is removed. -/
def Grows (t t' : FileTree) : Prop := ∀ q, t.pathExists q = true → t'.pathExists q = true

namespace Grows

variable {t t' t'' : FileTree}

theorem refl (t : FileTree) : Grows t t := fun _ h => h

theorem trans (h : Grows t t') (h' : Grows t' t'') : Grows t t'' := fun q hq => h' q (h q hq)

theorem insert (t : FileTree) (p : FsPath) (node : Node) : Grows t (SortedMap.insert t p node) :=
  fun _ hq => SortedMap.isSome_find_insert t p node hq

theorem write (t : FileTree) (p : FsPath) (text : Str) : Grows t (t.write p text) := insert t p _

end Grows

theorem suffix_landing (t : FileTree) (src dst : FsPath) : dst <:+ t.landing src dst := by
  rw [landing]
  split_ifs
  · exact suffix_child dst _
  · exact List.suffix_rfl

/-- What is new lies at `p` or below it, and nothing else has changed. -/
def AddsBelow (p : FsPath) (t t' : FileTree) : Prop :=
  ∀ q, t'.find q = t.find q ∨ p <:+ q ∧ t.find q = none

namespace AddsBelow

variable {p q : FsPath} {S : FsPath → Prop} {t t' t'' : FileTree}

theorem refl (p : FsPath) (t : FileTree) : AddsBelow p t t := fun _ => Or.inl rfl

theorem trans (h : AddsBelow p t t') (h' : AddsBelow p t' t'') : AddsBelow p t t'' := by
  intro q
  obtain hSame | hNew := h q
  · obtain hSame' | ⟨hBelow, hNone⟩ := h' q
    · exact Or.inl (hSame'.trans hSame)
    · exact Or.inr ⟨hBelow, hSame.symm.trans hNone⟩
  · exact Or.inr hNew

theorem insert (hBelow : p <:+ q) (hNone : t.find q = none) (node : Node) :
    AddsBelow p t (SortedMap.insert t q node) := by
  intro r
  obtain rfl | hne := eq_or_ne r q
  · exact Or.inr ⟨hBelow, hNone⟩
  · exact Or.inl (SortedMap.find_insert_of_ne t node hne)

theorem mono (hBelow : p <:+ q) (h : AddsBelow q t t') : AddsBelow p t t' := fun r =>
  (h r).imp_right fun hNew => ⟨hBelow.trans hNew.1, hNew.2⟩

theorem sameOutside (h : AddsBelow p t t') (hS : ∀ q, p <:+ q → S q) : SameOutside S t t' :=
  fun q hq => (h q).resolve_right fun hNew => hq (hS q hNew.1)

theorem find_eq (h : AddsBelow p t t') (hThere : t.pathExists q = true) : t'.find q = t.find q := by
  refine (h q).resolve_right fun hNew => ?_
  rw [pathExists, hNew.2] at hThere
  cases hThere

theorem grows (h : AddsBelow p t t') : Grows t t' := by
  intro q hThere
  rw [pathExists, h.find_eq hThere]
  exact hThere

end AddsBelow

/-! ### Directories of files -/

/-- A directory without directories in it. -/
def FilesOnly (t : FileTree) (p : FsPath) : Prop :=
  t.find p = some .directory ∧ ∀ name : Str, t.find (p / name) ≠ some .directory

theorem FilesOnly.insert {t : FileTree} {p : FsPath} (h : t.FilesOnly p) (name text : Str)
    (executable : Bool) :
    FileTree.FilesOnly (SortedMap.insert t (p / name) (.file text executable)) p := by
  refine ⟨?_, fun name' => ?_⟩
  · rw [SortedMap.find_insert_of_ne t _ (inside_child p name).2.symm]
    exact h.1
  · rw [SortedMap.find_insert]
    split_ifs
    · simp
    · exact h.2 name'

theorem FilesOnly.write {t : FileTree} {p : FsPath} (h : t.FilesOnly p) (name text : Str) :
    (t.write (p / name) text).FilesOnly p := h.insert name text _

def ExecutableFile (t : FileTree) (p : FsPath) : Prop := ∃ text, t.find p = some (.file text true)

theorem ExecutableFile.write {t : FileTree} {p : FsPath} (h : t.ExecutableFile p) (q : FsPath)
    (text : Str) : (t.write q text).ExecutableFile p := by
  obtain ⟨old, hFind⟩ := h
  obtain rfl | hne := eq_or_ne p q
  · exact ⟨text, by rw [find_write, if_pos rfl, hFind]⟩
  · exact ⟨old, by rw [find_write_of_ne text hne, hFind]⟩

theorem ExecutableFile.insert {t : FileTree} {p q : FsPath} (h : t.ExecutableFile p) (hne : p ≠ q)
    (node : Node) : FileTree.ExecutableFile (SortedMap.insert t q node) p := by
  obtain ⟨text, hFind⟩ := h
  exact ⟨text, by rw [SortedMap.find_insert_of_ne t _ hne, hFind]⟩

/-! ### Trees of a file system -/

/-- Every node but the root lies in a directory. -/
def WellFormed (t : FileTree) : Prop :=
  ∀ (p : FsPath) (name : Str), t.pathExists (p / name) = true → t.isDirectory p = true

theorem wellFormed_of_keys {t : FileTree}
    (h : (t.keys.all fun q => q.isEmpty || t.isDirectory q.tail) = true) : t.WellFormed := by
  intro p name hExists
  have hKey := List.all_eq_true.mp h (p / name) (SortedMap.find_isSome_iff.mp hExists)
  simpa using hKey

/-- Nothing lies below a path that is not a directory. -/
theorem WellFormed.find_inside {t : FileTree} (h : t.WellFormed) {p q : FsPath}
    (hDir : t.isDirectory p = false) (hInside : Inside p q) : t.find q = none := by
  obtain ⟨⟨names, rfl⟩, hne⟩ := hInside
  induction names with
  | nil => exact absurd rfl hne
  | cons name names ih =>
    have hParent : t.isDirectory (names ++ p) = false := by
      cases names with
      | nil => exact hDir
      | cons name' names =>
        have hNone := ih (by
          intro hEq
          have hLength := congrArg List.length hEq
          simp at hLength
          omega)
        rw [isDirectory, hNone]
        rfl
    by_contra hSome
    have hExists : t.pathExists ((names ++ p) / name) = true :=
      Option.isSome_iff_ne_none.mpr hSome
    rw [h (names ++ p) name hExists] at hParent
    cases hParent

theorem WellFormed.find_below {t : FileTree} (h : t.WellFormed) {p q : FsPath}
    (hNone : t.find p = none) (hBelow : p <:+ q) : t.find q = none := by
  obtain rfl | hne := eq_or_ne q p
  · exact hNone
  · apply h.find_inside _ ⟨hBelow, hne⟩
    rw [isDirectory, hNone]
    rfl

end FileTree
