import CisCore.Job.Prepare
import CisCore.Library.Transition

/-! # Builds prepared at the same time

Several processes may pick one number and share its directory. The copy of the
script, which never replaces a file, lets one of them go on.
-/

namespace CisCore

open Transition

/-- The number of a process that has copied the script. -/
def PrepareStage.owned : PrepareStage → Option Nat
  | copied number => some number
  | paramsWritten number => some number
  | confCopied number => some number
  | finished handle _ => handle
  | _ => none

def PrepareStage.number : PrepareStage → Option Nat
  | listed number => some number
  | created number => some number
  | stage => stage.owned

structure Preparing (ι : Type) where
  tree : FileTree
  stage : ι → PrepareStage

section Model

variable (P : ProtoUtils) (ctx : Context) (jobName script : Str)

inductive Preparation.Move (w : Preparation) (t : FileTree) :
    PrepareStage → FileTree → PrepareStage → Prop
  | listed : Move w t .start t (.listed (nextBuildNumber t (jobPath ctx jobName)))
  | gaveUp {stage : PrepareStage} {e : ErrorValue} : Move w t stage t (.finished none (some e))
  | shared {n : Nat} (hDir : t.find (buildDir ctx jobName n) = some .directory) :
      Move w t (.listed n) t (.created n)
  | created {n : Nat} (hNone : t.find (buildDir ctx jobName n) = none) :
      Move w t (.listed n) (SortedMap.insert t (buildDir ctx jobName n) .directory) (.created n)
  | copied {n : Nat} {node : Node} (hSrc : t.find (jobPath ctx jobName / script) = some node)
      (hNone : t.find (buildDir ctx jobName n / script) = none)
      (hDir : t.find (buildDir ctx jobName n) = some .directory) :
      Move w t (.created n) (SortedMap.insert t (buildDir ctx jobName n / script) node) (.copied n)
  | paramsWritten {n : Nat} :
      Move w t (.copied n) (t.write (buildDir ctx jobName n / "job.params") (P.encodedLines w.params))
        (.paramsWritten n)
  | confCopied {n : Nat} {node : Node} (hSrc : t.find (jobPath ctx jobName / "job.conf") = some node)
      (hNone : t.find (buildDir ctx jobName n / "job.conf") = none) :
      Move w t (.paramsWritten n)
        (SortedMap.insert t (buildDir ctx jobName n / "job.conf") node) (.confCopied n)
  | finished {n : Nat} :
      Move w t (.confCopied n)
        (t.write (buildDir ctx jobName n / "session_id.txt") (sessionIdText w.session))
        (.finished (some n) none)

variable {ι : Type} [DecidableEq ι] (processes : ι → Preparation)

def Preparing.step (s : Preparing ι) (i : ι) : Option (Preparing ι) :=
  ((processes i).step P ctx jobName script s.tree (s.stage i)).map fun r =>
    ⟨r.1, Function.update s.stage i r.2⟩

end Model

variable {P : ProtoUtils} {ctx : Context} {jobName script : Str}

theorem Preparation.move_of_step {w : Preparation} {t t' : FileTree} {stage stage' : PrepareStage}
    (h : w.step P ctx jobName script t stage = some (t', stage')) :
    w.Move P ctx jobName script t stage t' stage' := by
  cases stage with
  | start =>
    cases h
    exact .listed
  | listed n =>
    simp only [Preparation.step] at h
    rcases w.os.createDirectory_cases t (buildDir ctx jobName n) with
      ⟨_, e, hCreate⟩ | ⟨hCreate, hDir⟩ | ⟨hCreate, hNone, _⟩
    · rw [hCreate] at h
      cases h
      exact .gaveUp
    · rw [hCreate] at h
      cases h
      exact .shared hDir
    · rw [hCreate] at h
      cases h
      exact .created hNone
  | created n =>
    simp only [Preparation.step] at h
    rcases w.os.copy_cases t (jobPath ctx jobName / script) (buildDir ctx jobName n / script) with
      ⟨e, hCopy⟩ | ⟨node, hCopy, hSrc, hNone, hDir⟩
    · rw [hCopy] at h
      cases h
      exact .gaveUp
    · rw [hCopy] at h
      cases h
      exact .copied hSrc hNone (FileTree.isDirectory_iff.mp hDir)
  | copied n =>
    simp only [Preparation.step] at h
    split at h
    · cases h
      exact .gaveUp
    · rename_i t₁ hWrite
      cases h
      rw [Os.writeFile_eq_some hWrite]
      exact .paramsWritten
  | paramsWritten n =>
    simp only [Preparation.step] at h
    rcases w.os.copy_cases t (jobPath ctx jobName / "job.conf") (buildDir ctx jobName n / "job.conf")
      with ⟨e, hCopy⟩ | ⟨node, hCopy, hSrc, hNone, _⟩
    · rw [hCopy] at h
      cases h
      exact .gaveUp
    · rw [hCopy] at h
      cases h
      exact .confCopied hSrc hNone
  | confCopied n =>
    simp only [Preparation.step] at h
    split at h
    · cases h
      exact .gaveUp
    · rename_i t₁ hWrite
      cases h
      rw [Os.writeFile_eq_some hWrite]
      exact .finished
  | finished handle ec => cases h

/-- The steps of one process without interruption are one call. -/
theorem Preparation.steps_eq_prepareBuild (P : ProtoUtils) (ctx : Context) (w : Preparation)
    (job : Job) (t : FileTree) :
    ∃ k, run (fun r (_ : Unit) => w.step P ctx job.name job.config.script r.1 r.2) (t, .start)
        (List.replicate k ()) =
      some ((job.prepareBuild P w.os t ctx w.session w.params).1,
        .finished (job.prepareBuild P w.os t ctx w.session w.params).2.2.1
          (job.prepareBuild P w.os t ctx w.session w.params).2.2.2) := by
  generalize hNumber : nextBuildNumber t (jobPath ctx job.name) = n
  rcases hCreate : w.os.createDirectory t (buildDir ctx job.name n) with ⟨made, t₁, _ | e⟩
  swap
  · refine ⟨2, ?_⟩
    simp only [List.replicate, run, step, Job.prepareBuild, Job.prepareBuildWith, hNumber, hCreate, Option.bind_some]
  rcases hScript : w.os.copy t₁ (jobPath ctx job.name / job.config.script)
    (buildDir ctx job.name n / job.config.script) with ⟨t₂, _ | e⟩
  swap
  · refine ⟨3, ?_⟩
    simp only [List.replicate, run, step, Job.prepareBuild, Job.prepareBuildWith, Job.fillBuildDir, hNumber, hCreate,
      hScript, Option.bind_some]
  cases hParams : w.os.writeFile t₂ (buildDir ctx job.name n / "job.params")
    (P.encodedLines w.params) with
  | none =>
    refine ⟨4, ?_⟩
    simp only [List.replicate, run, step, Job.prepareBuild, Job.prepareBuildWith, Job.fillBuildDir, hNumber, hCreate,
      hScript, hParams, Option.bind_some]
    rfl
  | some t₃ =>
    rcases hConf : w.os.copy t₃ (jobPath ctx job.name / "job.conf")
      (buildDir ctx job.name n / "job.conf") with ⟨t₄, _ | e⟩
    swap
    · refine ⟨5, ?_⟩
      simp only [List.replicate, run, step, Job.prepareBuild, Job.prepareBuildWith, Job.fillBuildDir, hNumber, hCreate,
        hScript, hParams, hConf, Option.bind_some]
      rfl
    cases hSession : w.os.writeFile t₄ (buildDir ctx job.name n / "session_id.txt")
      (sessionIdText w.session) with
    | none =>
      refine ⟨6, ?_⟩
      simp only [List.replicate, run, step, Job.prepareBuild, Job.prepareBuildWith, Job.fillBuildDir, hNumber, hCreate,
        hScript, hParams, hConf, hSession, Option.bind_some]
      rfl
    | some t₅ =>
      refine ⟨6, ?_⟩
      simp only [List.replicate, run, step, Job.prepareBuild, Job.prepareBuildWith, Job.fillBuildDir, hNumber, hCreate,
        hScript, hParams, hConf, hSession, Option.bind_some]

/-! ### Moves in one directory -/

section Moves

variable {w : Preparation} {t t' : FileTree} {stage stage' : PrepareStage}

theorem Preparation.Move.find_eq (h : w.Move P ctx jobName script t stage t' stage') {q : FsPath}
    (hq : ∀ n, stage.number = some n → ¬buildDir ctx jobName n <:+ q) : t'.find q = t.find q := by
  have hInsert : ∀ (n : Nat) (name : Str) (node : Node), stage.number = some n →
      SortedMap.find (SortedMap.insert t (buildDir ctx jobName n / name) node) q = t.find q := by
    intro n name node hn
    apply SortedMap.find_insert_of_ne
    rintro rfl
    exact hq n hn (FileTree.suffix_child _ _)
  cases h with
  | listed => rfl
  | gaveUp => rfl
  | shared => rfl
  | created =>
    apply SortedMap.find_insert_of_ne
    rintro rfl
    exact hq _ rfl List.suffix_rfl
  | copied => exact hInsert _ _ _ rfl
  | paramsWritten => exact hInsert _ _ _ rfl
  | confCopied => exact hInsert _ _ _ rfl
  | finished => exact hInsert _ _ _ rfl

theorem Preparation.Move.isSome (h : w.Move P ctx jobName script t stage t' stage') {q : FsPath}
    (hq : (t.find q).isSome) : (t'.find q).isSome := by
  have hInsert : ∀ (p : FsPath) (node : Node),
      (SortedMap.find (SortedMap.insert t p node) q).isSome :=
    fun p node => SortedMap.isSome_find_insert t p node hq
  cases h with
  | listed => exact hq
  | gaveUp => exact hq
  | shared => exact hq
  | created => exact hInsert _ _
  | copied => exact hInsert _ _
  | paramsWritten => exact hInsert _ _
  | confCopied => exact hInsert _ _
  | finished => exact hInsert _ _

theorem child_ne_grandchild (p : FsPath) (name name' name'' : Str) : p / name ≠ p / name' / name'' := by
  intro hEq
  have hLength := congrArg List.length hEq
  simp at hLength

theorem Preparation.Move.kept (h : w.Move P ctx jobName script t stage t' stage') {name : Str}
    {node : Node} (hNode : t.find (jobPath ctx jobName / name) = some node) :
    t'.find (jobPath ctx jobName / name) = some node := by
  have hInsert : ∀ (n : Nat) (name' : Str) (node' : Node),
      SortedMap.find (SortedMap.insert t (buildDir ctx jobName n / name') node')
        (jobPath ctx jobName / name) = some node := by
    intro n name' node'
    have hne := child_ne_grandchild (jobPath ctx jobName) name (numberString n) name'
    exact (SortedMap.find_insert_of_ne t node' hne).trans hNode
  cases h with
  | listed => exact hNode
  | gaveUp => exact hNode
  | shared => exact hNode
  | @created n hNone =>
    rw [SortedMap.find_insert_of_ne, hNode]
    intro hEq
    rw [hEq, hNone] at hNode
    cases hNode
  | copied => exact hInsert _ _ _
  | paramsWritten => exact hInsert _ _ _
  | confCopied => exact hInsert _ _ _
  | finished => exact hInsert _ _ _

/-- A number is taken by the copy of the script. -/
theorem Preparation.Move.owned_cases (h : w.Move P ctx jobName script t stage t' stage') {n : Nat}
    (hOwned : stage'.owned = some n) :
    stage.owned = some n ∨
      (stage.number = some n ∧ t.find (buildDir ctx jobName n / script) = none ∧
        t.find (buildDir ctx jobName n) = some .directory ∧
        (t'.find (buildDir ctx jobName n / script)).isSome) := by
  cases h with
  | listed => cases hOwned
  | gaveUp => cases hOwned
  | shared => cases hOwned
  | created => cases hOwned
  | @copied m node hSrc hNone hDir =>
    obtain rfl : m = n := Option.some.inj hOwned
    refine Or.inr ⟨rfl, hNone, hDir, ?_⟩
    rw [SortedMap.find_insert_self]
    rfl
  | paramsWritten => exact Or.inl hOwned
  | confCopied => exact Or.inl hOwned
  | finished => exact Or.inl hOwned

theorem Preparation.Move.number_cases (h : w.Move P ctx jobName script t stage t' stage') {n : Nat}
    (hNumber : stage'.number = some n) :
    stage.number = some n ∨ (t' = t ∧ n = nextBuildNumber t (jobPath ctx jobName)) := by
  cases h with
  | listed => exact Or.inr ⟨rfl, (Option.some.inj hNumber).symm⟩
  | gaveUp => cases hNumber
  | shared => exact Or.inl hNumber
  | created => exact Or.inl hNumber
  | copied => exact Or.inl hNumber
  | paramsWritten => exact Or.inl hNumber
  | confCopied => exact Or.inl hNumber
  | finished => exact Or.inl hNumber

end Moves

/-! ### The winner of a number -/

section Win

variable (P : ProtoUtils) (ctx : Context) (jobName script : Str)

/-- The files of a build as its process wrote them, from what was in the job
before. The script may have been overwritten by the process itself. -/
structure ScriptCopied (t₀ t : FileTree) (n : Nat) : Prop where
  script : ∀ node, t₀.find (jobPath ctx jobName / script) = some node →
    script ≠ "job.params" → script ≠ "session_id.txt" →
    t.find (buildDir ctx jobName n / script) = some node

structure ParamsWritten (w : Preparation) (t₀ t : FileTree) (n : Nat) : Prop
    extends ScriptCopied ctx jobName script t₀ t n where
  params : t.content (buildDir ctx jobName n / "job.params") = some (P.encodedLines w.params)

structure ConfCopied (w : Preparation) (t₀ t : FileTree) (n : Nat) : Prop
    extends ParamsWritten P ctx jobName script w t₀ t n where
  conf : ∀ node, t₀.find (jobPath ctx jobName / "job.conf") = some node →
    t.find (buildDir ctx jobName n / "job.conf") = some node

structure Prepared (w : Preparation) (t₀ t : FileTree) (n : Nat) : Prop
    extends ConfCopied P ctx jobName script w t₀ t n where
  session : t.content (buildDir ctx jobName n / "session_id.txt") = some (sessionIdText w.session)

def PrepareStage.Wrote (w : Preparation) (t₀ t : FileTree) : PrepareStage → Prop
  | copied n => ScriptCopied ctx jobName script t₀ t n
  | paramsWritten n => ParamsWritten P ctx jobName script w t₀ t n
  | confCopied n => ConfCopied P ctx jobName script w t₀ t n
  | finished (some n) _ => Prepared P ctx jobName script w t₀ t n
  | _ => True

end Win

section Same

variable {w : Preparation} {t₀ t t' : FileTree} {n : Nat}
  (hSame : ∀ q, buildDir ctx jobName n <:+ q → t'.find q = t.find q)
include hSame

theorem ScriptCopied.of_same (h : ScriptCopied ctx jobName script t₀ t n) :
    ScriptCopied ctx jobName script t₀ t' n where
  script node hNode hParams hSession :=
    (hSame _ (FileTree.suffix_child _ _)).trans (h.script node hNode hParams hSession)

theorem ParamsWritten.of_same (h : ParamsWritten P ctx jobName script w t₀ t n) :
    ParamsWritten P ctx jobName script w t₀ t' n where
  toScriptCopied := h.toScriptCopied.of_same hSame
  params := (FileTree.content_congr (hSame _ (FileTree.suffix_child _ _))).trans h.params

theorem ConfCopied.of_same (h : ConfCopied P ctx jobName script w t₀ t n) :
    ConfCopied P ctx jobName script w t₀ t' n where
  toParamsWritten := h.toParamsWritten.of_same hSame
  conf node hNode := (hSame _ (FileTree.suffix_child _ _)).trans (h.conf node hNode)

theorem Prepared.of_same (h : Prepared P ctx jobName script w t₀ t n) :
    Prepared P ctx jobName script w t₀ t' n where
  toConfCopied := h.toConfCopied.of_same hSame
  session := (FileTree.content_congr (hSame _ (FileTree.suffix_child _ _))).trans h.session

end Same

theorem PrepareStage.Wrote.of_same {w : Preparation} {t₀ t t' : FileTree} {stage : PrepareStage}
    (h : stage.Wrote P ctx jobName script w t₀ t)
    (hSame : ∀ n, stage.owned = some n → ∀ q, buildDir ctx jobName n <:+ q → t'.find q = t.find q) :
    stage.Wrote P ctx jobName script w t₀ t' := by
  cases stage with
  | start => trivial
  | listed n => trivial
  | created n => trivial
  | copied n => exact ScriptCopied.of_same (hSame n rfl) h
  | paramsWritten n => exact ParamsWritten.of_same (hSame n rfl) h
  | confCopied n => exact ConfCopied.of_same (hSame n rfl) h
  | finished handle ec =>
    cases handle with
    | none => trivial
    | some n => exact Prepared.of_same (hSame n rfl) h

theorem Preparation.Move.wrote {w : Preparation} {t₀ t t' : FileTree} {stage stage' : PrepareStage}
    (h : w.Move P ctx jobName script t stage t' stage')
    (hKept : ∀ (name : Str) node, t₀.find (jobPath ctx jobName / name) = some node →
      t.find (jobPath ctx jobName / name) = some node)
    (hTaken : ∀ n, stage.owned = some n → (t.find (buildDir ctx jobName n / script)).isSome)
    (hWrote : stage.Wrote P ctx jobName script w t₀ t) :
    stage'.Wrote P ctx jobName script w t₀ t' := by
  have hName : ∀ (n : Nat) {name name' : Str}, name ≠ name' →
      buildDir ctx jobName n / name ≠ buildDir ctx jobName n / name' :=
    fun n _ _ hne hEq => hne (List.cons.inj hEq).1
  cases h with
  | listed => trivial
  | gaveUp => trivial
  | shared => trivial
  | created => trivial
  | copied hSrc hNone hDir =>
    constructor
    intro node hNode _ _
    rw [SortedMap.find_insert_self, ← hSrc, hKept _ node hNode]
  | @paramsWritten n =>
    refine ⟨⟨fun node hNode hParams hSession => ?_⟩, FileTree.content_write_self _ _ _⟩
    exact (FileTree.find_write_of_ne _ (hName n hParams)).trans
      (hWrote.script node hNode hParams hSession)
  | @confCopied n conf hSrc hNone =>
    refine ⟨⟨⟨fun node hNode hParams hSession => ?_⟩, ?_⟩, fun node hNode => ?_⟩
    · have hne : buildDir ctx jobName n / script ≠ buildDir ctx jobName n / "job.conf" := by
        intro hEq
        have hSome := hTaken n rfl
        rw [hEq, hNone] at hSome
        cases hSome
      rw [SortedMap.find_insert_of_ne t _ hne]
      exact hWrote.script node hNode hParams hSession
    · exact (FileTree.content_congr (SortedMap.find_insert_of_ne t _ (hName n (by decide)))).trans
        hWrote.params
    · exact (SortedMap.find_insert_self t _ _).trans (hSrc.symm.trans (hKept _ node hNode))
  | @finished n =>
    refine ⟨⟨⟨⟨fun node hNode hParams hSession => ?_⟩, ?_⟩, fun node hNode => ?_⟩,
      FileTree.content_write_self _ _ _⟩
    · exact (FileTree.find_write_of_ne _ (hName n hSession)).trans
        (hWrote.script node hNode hParams hSession)
    · exact (FileTree.content_write_of_ne _ (hName n (by decide))).trans hWrote.params
    · exact (FileTree.find_write_of_ne _ (hName n (by decide))).trans (hWrote.conf node hNode)

section Runs

variable {ι : Type} {processes : ι → Preparation}

structure Preparing.Inv (P : ProtoUtils) (ctx : Context) (jobName script : Str)
    (processes : ι → Preparation) (t₀ : FileTree) (s : Preparing ι) : Prop where
  kept : ∀ (name : Str) node, t₀.find (jobPath ctx jobName / name) = some node →
    s.tree.find (jobPath ctx jobName / name) = some node
  taken : ∀ i n, (s.stage i).owned = some n →
    s.tree.find (buildDir ctx jobName n) = some .directory ∧
      (s.tree.find (buildDir ctx jobName n / script)).isSome
  exclusive : ∀ i j n, (s.stage i).owned = some n → (s.stage j).owned = some n → i = j
  wrote : ∀ i, (s.stage i).Wrote P ctx jobName script (processes i) t₀ s.tree

theorem Preparing.inv_start (t₀ : FileTree) :
    Preparing.Inv P ctx jobName script processes t₀ ⟨t₀, fun _ => .start⟩ where
  kept _ _ hNode := hNode
  taken _ _ hOwned := by cases hOwned
  exclusive _ _ _ hOwned := by cases hOwned
  wrote _ := trivial

theorem Preparing.Inv.untouched {t₀ : FileTree} {s : Preparing ι}
    (h : s.Inv P ctx jobName script processes t₀)
    {i j : ι} (hne : i ≠ j) {t' : FileTree} {stage' : PrepareStage}
    (hMove : (processes j).Move P ctx jobName script s.tree (s.stage j) t' stage') {n : Nat}
    (hOwned : (s.stage i).owned = some n) {q : FsPath} (hq : buildDir ctx jobName n <:+ q) :
    t'.find q = s.tree.find q := by
  obtain ⟨hDir, hScript⟩ := h.taken i n hOwned
  generalize hStage : s.stage j = stage at hMove
  by_cases hNumber : stage.number = some n
  · -- a process with the same number has not won
    cases hMove with
    | listed => rfl
    | gaveUp => rfl
    | shared => rfl
    | created hNone =>
      obtain rfl := Option.some.inj hNumber
      rw [hDir] at hNone
      cases hNone
    | copied _ hNone _ =>
      obtain rfl := Option.some.inj hNumber
      rw [hNone] at hScript
      cases hScript
    | paramsWritten => exact absurd (h.exclusive i j n hOwned (by rw [hStage]; exact hNumber)) hne
    | confCopied => exact absurd (h.exclusive i j n hOwned (by rw [hStage]; exact hNumber)) hne
    | finished => exact absurd (h.exclusive i j n hOwned (by rw [hStage]; exact hNumber)) hne
  · apply hMove.find_eq
    intro m hm hSuffix
    apply buildDir_disjoint _ hq hSuffix
    rintro rfl
    exact hNumber hm

variable [DecidableEq ι]

theorem Preparing.Inv.step {t₀ : FileTree} {s s' : Preparing ι} {i : ι}
    (h : s.Inv P ctx jobName script processes t₀)
    (hStep : s.step P ctx jobName script processes i = some s') :
    s'.Inv P ctx jobName script processes t₀ := by
  obtain ⟨⟨t', stage'⟩, hOne, rfl⟩ := Option.map_eq_some_iff.mp hStep
  have hMove := Preparation.move_of_step hOne
  have hTaken : ∀ j n, (s.stage j).owned = some n →
      t'.find (buildDir ctx jobName n) = some .directory ∧
        (t'.find (buildDir ctx jobName n / script)).isSome := by
    intro j n hOwned
    obtain ⟨hDir, hScript⟩ := h.taken j n hOwned
    exact ⟨hMove.kept hDir, hMove.isSome hScript⟩
  -- whoever takes a number now finds it free
  have hFree : ∀ j n, j ≠ i → (s.stage j).owned = some n → stage'.owned ≠ some n := by
    intro j n hne hOwned hOwned'
    obtain hOld | ⟨_, hNone, _⟩ := hMove.owned_cases hOwned'
    · exact hne (h.exclusive j i n hOwned hOld)
    · have hScript := (h.taken j n hOwned).2
      rw [hNone] at hScript
      cases hScript
  refine ⟨fun name node hNode => hMove.kept (h.kept name node hNode), ?_, ?_, ?_⟩
  · intro j n hOwned
    obtain rfl | hne := eq_or_ne j i
    · simp only [Function.update_self] at hOwned
      obtain hOld | ⟨_, _, hDir, hScript⟩ := hMove.owned_cases hOwned
      · exact hTaken j n hOld
      · exact ⟨hMove.kept hDir, hScript⟩
    · simp only [Function.update_of_ne hne] at hOwned
      exact hTaken j n hOwned
  · exact exclusive_update h.exclusive hFree
  · intro j
    obtain rfl | hne := eq_or_ne j i
    · simp only [Function.update_self]
      exact hMove.wrote h.kept (fun n hOwned => (h.taken j n hOwned).2) (h.wrote j)
    · simp only [Function.update_of_ne hne]
      exact (h.wrote j).of_same fun n hOwned q hq => h.untouched hne hMove hOwned hq

/-- In every interleaving valid handles have different numbers, the files of a
winner are as it wrote them, and no step of another process reaches below the
directory of a process that has copied the script. -/
theorem prepare_exclusive {t₀ : FileTree} {order : List ι} {s : Preparing ι}
    (hRun : run (Preparing.step P ctx jobName script processes) ⟨t₀, fun _ => .start⟩ order = some s) :
    (∀ i j n ec ec', s.stage i = .finished (some n) ec → s.stage j = .finished (some n) ec' → i = j) ∧
    (∀ i n ec, s.stage i = .finished (some n) ec →
      Prepared P ctx jobName script (processes i) t₀ s.tree n) ∧
    ∀ i j n s', (s.stage i).owned = some n → i ≠ j →
      s.step P ctx jobName script processes j = some s' →
      ∀ q, buildDir ctx jobName n <:+ q → s'.tree.find q = s.tree.find q := by
  have hInv := invariant (fun _ _ _ h hStep => Preparing.Inv.step h hStep)
    (Preparing.inv_start t₀) hRun
  refine ⟨?_, ?_, ?_⟩
  · intro i j n ec ec' hi hj
    exact hInv.exclusive i j n (by rw [hi]; rfl) (by rw [hj]; rfl)
  · intro i n ec hi
    have hWrote := hInv.wrote i
    rw [hi] at hWrote
    exact hWrote
  · intro i j n s' hOwned hne hStep q hq
    obtain ⟨⟨t', stage'⟩, hOne, rfl⟩ := Option.map_eq_some_iff.mp hStep
    exact hInv.untouched hne (Preparation.move_of_step hOne) hOwned hq

end Runs

def preparePair (i : Bool) : Preparation := ⟨.ideal ∅, ⟨"s", false⟩, if i then [("p", "1")] else []⟩

/-- Both list the directory before either creates one; the second one loses. -/
theorem prepare_exclusive_two :
    ∃ s, run (Preparing.step .reference demoContext "j" "s" preparePair)
        ⟨demoTree "1" [], fun _ => .start⟩
        [false, true, false, true, false, true, false, false, false] = some s ∧
      s.stage false = .finished (some 0) none ∧
      s.stage true = .finished none (some (.system .eexist)) ∧
      Prepared .reference demoContext "j" "s" (preparePair false) (demoTree "1" []) s.tree 0 := by
  refine ⟨_, rfl, rfl, rfl, ?_⟩
  have hRun : run (Preparing.step .reference demoContext "j" "s" preparePair)
    ⟨demoTree "1" [], fun _ => .start⟩
    [false, true, false, true, false, true, false, false, false] = some _ := rfl
  exact (prepare_exclusive hRun).2.1 false 0 none rfl

end CisCore
