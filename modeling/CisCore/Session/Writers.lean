import CisCore.Session.Store
import Mathlib.Logic.Function.Basic

/-! # Concurrent writers of one session

A setter reads the whole file, truncates it and writes the lines out. The file
is not locked, so these steps of several processes interleave freely. A system
of writers is the tree and the phase of each of them.
-/

namespace CisCore

open Transition

structure Writer where
  os : Os
  name : Str
  value : Str

inductive WriterPhase where
  | start
  | read (values : SortedMap Str Str) (ec : Ec)
  | opened (values : SortedMap Str Str) (ec : Ec)
  | finished (ec : Ec)

/-- Between its read and its write. -/
def WriterPhase.busy : WriterPhase → Bool
  | read _ _ => true
  | opened _ _ => true
  | _ => false

structure Writers (ι : Type) where
  tree : FileTree
  phase : ι → WriterPhase

section Model

variable (P : ProtoUtils) (p : FsPath) (writeError : ErrorCode)

def Writer.step (w : Writer) (t : FileTree) : WriterPhase → Option (FileTree × WriterPhase)
  | .start =>
    match readKvFile P w.os t p false .cantReadSessionValuesFile with
    | (none, ec) => some (t, .finished ec)
    | (some values, ec) => some (t, .read values ec)
  | .read values ec =>
    match w.os.openOfstream t p with
    | none => some (t, .finished (fail writeError))
    | some t' => some (t', .opened values ec)
  | .opened values ec =>
    -- the stream stands at the start of the file, whatever the file holds by now
    some (t.overwrite p (writeValues (P.encodeParam w.name) (P.encodeParam w.value) values),
      .finished ec)
  | .finished _ => none

variable {ι : Type} [DecidableEq ι]

def Writers.step (writers : ι → Writer) (s : Writers ι) (i : ι) : Option (Writers ι) :=
  ((writers i).step P p writeError s.tree (s.phase i)).map fun r =>
    ⟨r.1, Function.update s.phase i r.2⟩

/-- A process reads only while no other one is between its read and its write. -/
def Writers.Apart (s : Writers ι) (i : ι) : Prop :=
  s.phase i = .start → ∀ j, (s.phase j).busy = false

end Model

variable {P : ProtoUtils} {p : FsPath} {writeError : ErrorCode}

/-- The steps of one writer without interruption are one call. -/
theorem Writer.steps_eq_setKvFile (w : Writer) (t : FileTree) :
    ∃ n ≤ 3, run (fun r (_ : Unit) => w.step P p writeError r.1 r.2) (t, .start)
        (List.replicate n ()) =
      some ((setKvFile P w.os t p writeError w.name w.value).1,
        .finished (setKvFile P w.os t p writeError w.name w.value).2) := by
  unfold setKvFile
  rcases hRead : readKvFile P w.os t p false .cantReadSessionValuesFile with ⟨_ | values, ec⟩
  · refine ⟨1, by omega, ?_⟩
    simp [run, Writer.step, hRead]
  · cases hOpen : w.os.openOfstream t p with
    | none =>
      refine ⟨2, by omega, ?_⟩
      simp [List.replicate, run, Writer.step, hRead, hOpen]
    | some t' =>
      refine ⟨3, by omega, ?_⟩
      simp [List.replicate, run, Writer.step, hRead, hOpen]

/-! ### Writers that keep apart -/

section Apart

variable {ι : Type} {writers : ι → Writer}

/-- What a phase promises about the map `m` that the session stands for. -/
def WriterPhase.Agrees (P : ProtoUtils) (t : FileTree) (p : FsPath) (m : SortedMap Str Str)
    (w : Writer) : WriterPhase → Prop
  | .start => True
  | .read values ec => ec = none ∧ RawOf P values m ∧ Stores P t p m
  | .opened values ec => ec = none ∧ RawOf P values m ∧ t.content p = some []
  | .finished ec => ec = none ∧ m.find w.name = some w.value

/-- The session stands for `m`: the map before, with the pairs of the writers
that have finished. At most one writer is busy. -/
structure Writers.Inv (P : ProtoUtils) (p : FsPath) (writers : ι → Writer)
    (before : SortedMap Str Str) (s : Writers ι) (m : SortedMap Str Str) : Prop where
  parent : s.tree.isDirectory p.tail = true
  agrees : ∀ i, (s.phase i).Agrees P s.tree p m (writers i)
  exclusive : ∀ i j, (s.phase i).busy = true → (s.phase j).busy = true → i = j
  rest : (∀ i, (s.phase i).busy = false) → Stores P s.tree p m
  kept : ∀ k, (∀ i ec, s.phase i = .finished ec → (writers i).name ≠ k) →
    m.find k = before.find k

theorem WriterPhase.agrees_of_idle {phase : WriterPhase} (hIdle : phase.busy = false)
    {t t' : FileTree} {m : SortedMap Str Str} {w : Writer} (h : phase.Agrees P t p m w) :
    phase.Agrees P t' p m w := by
  cases phase with
  | start => trivial
  | read values ec => cases hIdle
  | opened values ec => cases hIdle
  | finished ec => exact h

theorem WriterPhase.agrees_insert {phase : WriterPhase} (hIdle : phase.busy = false)
    {t t' : FileTree} {m : SortedMap Str Str} {w : Writer} {name value : Str}
    (hName : w.name ≠ name) (h : phase.Agrees P t p m w) :
    phase.Agrees P t' p (m.insert name value) w := by
  cases phase with
  | start => trivial
  | read values ec => cases hIdle
  | opened values ec => cases hIdle
  | finished ec => exact ⟨h.1, by rw [SortedMap.find_insert_of_ne m value hName, h.2]⟩

theorem Writers.Inv.idle_of_busy {before m : SortedMap Str Str} {s : Writers ι}
    (h : s.Inv P p writers before m) {i j : ι} (hBusy : (s.phase i).busy = true) (hne : j ≠ i) :
    (s.phase j).busy = false := single_others h.exclusive hBusy hne

theorem tail_ne_self {p : FsPath} (hp : p ≠ []) : p.tail ≠ p := by
  intro h
  have hLength := congrArg List.length h
  have hPos := List.length_pos_of_ne_nil hp
  rw [List.length_tail] at hLength
  omega

theorem Writers.inv_start {before : SortedMap Str Str} {t : FileTree}
    (hParent : t.isDirectory p.tail = true) (hStores : Stores P t p before) :
    Writers.Inv P p writers before ⟨t, fun _ => .start⟩ before where
  parent := hParent
  agrees _ := trivial
  exclusive _ _ h := by cases h
  rest _ := hStores
  kept _ _ := rfl

variable [DecidableEq ι]

theorem Writers.Inv.move {before m m' : SortedMap Str Str} {s : Writers ι} {i : ι}
    {t' : FileTree} {phase' : WriterPhase} (h : s.Inv P p writers before m)
    (hUnfinished : ∀ ec, s.phase i ≠ .finished ec)
    (hIdle : ∀ j, j ≠ i → (s.phase j).busy = false)
    (hParent : t'.isDirectory p.tail = true) (hSelf : phase'.Agrees P t' p m' (writers i))
    (hOthers : ∀ j, j ≠ i → (s.phase j).Agrees P t' p m' (writers j))
    (hRest : phase'.busy = false → Stores P t' p m')
    (hKept : ∀ k, (∀ ec, phase' = .finished ec → (writers i).name ≠ k) → m'.find k = m.find k) :
    Writers.Inv P p writers before ⟨t', Function.update s.phase i phase'⟩ m' where
  parent := hParent
  agrees := (Function.forall_update_iff s.phase _).mpr ⟨hSelf, hOthers⟩
  exclusive := single_update hIdle
  rest hAll := by
    have hi : (Function.update s.phase i phase' i).busy = false := hAll i
    rw [Function.update_self] at hi
    exact hRest hi
  kept k hk := by
    have hk' : ∀ j ec, Function.update s.phase i phase' j = .finished ec →
        (writers j).name ≠ k := hk
    rw [hKept k fun ec hec => hk' i ec (by rw [Function.update_self, hec])]
    apply h.kept k
    intro j ec hj
    have hne : j ≠ i := by
      rintro rfl
      exact hUnfinished ec hj
    exact hk' j ec (by rw [Function.update_of_ne hne, hj])

theorem Writers.Inv.step (hP : P.Lawful) (hp : p ≠ []) (hOs : ∀ i, (writers i).os.Faultless)
    (hPairs : ∀ i, Storable ((writers i).name, (writers i).value))
    (hNames : ∀ i j, (writers i).name = (writers j).name → i = j)
    {before m : SortedMap Str Str} {s s' : Writers ι} {i : ι}
    (h : s.Inv P p writers before m) (hApart : s.Apart i)
    (hStep : s.step P p writeError writers i = some s') :
    ∃ m', s'.Inv P p writers before m' := by
  obtain ⟨⟨t', phase'⟩, hWriter, rfl⟩ := Option.map_eq_some_iff.mp hStep
  have hSelf := h.agrees i
  cases hPhase : s.phase i with
  | start =>
    have hIdle := hApart hPhase
    have hStores := h.rest hIdle
    obtain ⟨values, hRead, hRaw⟩ :=
      readKvFile_raw_of_stores hP (hOs i) hStores .cantReadSessionValuesFile
    simp only [Writer.step, hPhase, hRead, Option.some.injEq, Prod.mk.injEq] at hWriter
    obtain ⟨rfl, rfl⟩ := hWriter
    refine ⟨m, h.move ?_ (fun j _ => hIdle j) h.parent ⟨rfl, hRaw, hStores⟩
      (fun j _ => h.agrees j) ?_ (fun _ _ => rfl)⟩
    · simp [hPhase]
    · intro hFalse
      cases hFalse
  | read values ec =>
    rw [hPhase] at hSelf
    obtain ⟨rfl, hRaw, hStores⟩ := hSelf
    have hIdle : ∀ j, j ≠ i → (s.phase j).busy = false :=
      fun j hne => h.idle_of_busy (by rw [hPhase]; rfl) hne
    have hOpen := Os.openOfstream_faultless (hOs i) h.parent (find_ne_directory_of_stores hStores)
    simp only [Writer.step, hPhase, hOpen, Option.some.injEq, Prod.mk.injEq] at hWriter
    obtain ⟨rfl, rfl⟩ := hWriter
    refine ⟨m, h.move ?_ hIdle (isDirectory_write [] h.parent (tail_ne_self hp))
      ⟨rfl, hRaw, FileTree.content_write_self s.tree p []⟩
      (fun j hne => WriterPhase.agrees_of_idle (hIdle j hne) (h.agrees j)) ?_ (fun _ _ => rfl)⟩
    · simp [hPhase]
    · intro hFalse
      cases hFalse
  | opened values ec =>
    rw [hPhase] at hSelf
    obtain ⟨rfl, hRaw, hText⟩ := hSelf
    have hIdle : ∀ j, j ≠ i → (s.phase j).busy = false :=
      fun j hne => h.idle_of_busy (by rw [hPhase]; rfl) hne
    simp only [Writer.step, hPhase, Option.some.injEq, Prod.mk.injEq] at hWriter
    obtain ⟨rfl, rfl⟩ := hWriter
    have hWrite : ∀ text, s.tree.overwrite p text = s.tree.write p text := by
      intro text
      rw [FileTree.overwrite, hText, Option.getD_some, List.drop_nil, List.append_nil]
    rw [hWrite]
    have hEnc := encodes_writeValues hP hRaw (hPairs i)
    refine ⟨m.insert (writers i).name (writers i).value, h.move ?_ hIdle
      (isDirectory_write _ h.parent (tail_ne_self hp)) ⟨rfl, SortedMap.find_insert_self m _ _⟩
      (fun j hne => WriterPhase.agrees_insert (hIdle j hne) (fun hEq => hne (hNames j i hEq))
        (h.agrees j))
      (fun _ => Or.inr ⟨_, FileTree.content_write_self s.tree p _, hEnc⟩) ?_⟩
    · simp [hPhase]
    · intro k hk
      exact SortedMap.find_insert_of_ne m _ (hk none rfl).symm
  | finished ec =>
    simp [Writer.step, hPhase] at hWriter

/-- Writers of different names that keep apart lose nothing. -/
theorem writers_apart_lose_nothing (hP : P.Lawful) (ctx : Context) (session : Session)
    (hOs : ∀ i, (writers i).os.Faultless)
    (hPairs : ∀ i, (writers i).name ≠ [] ∧ '\r' ∉ (writers i).value)
    (hNames : ∀ i j, (writers i).name = (writers j).name → i = j) {os : Os} (hReader : os.Faultless)
    {t : FileTree} {before : SortedMap Str Str}
    (hSessions : t.isDirectory (ctx.baseDir / "sessions") = true)
    (hBefore : Stores P t (sessionDat ctx session) before) (order : List ι) {s : Writers ι}
    (hRun : run (Writers.step P (sessionDat ctx session) .cantReadSessionValuesFile writers)
      ⟨t, fun _ => .start⟩ order = some s)
    (hApart : Along (Writers.step P (sessionDat ctx session) .cantReadSessionValuesFile writers)
      Writers.Apart ⟨t, fun _ => .start⟩ order)
    (hFinished : ∀ i, ∃ ec, s.phase i = .finished ec) :
    (∀ i, s.phase i = .finished none) ∧
    (∀ i, getValue P os s.tree ctx session (writers i).name = (some (writers i).value, none)) ∧
    ∀ name, (∀ i, (writers i).name ≠ name) →
      getValue P os s.tree ctx session name = getValue P os t ctx session name := by
  have hKeep : ∀ (u : Writers ι) (i : ι) (u' : Writers ι),
      (∃ m, u.Inv P (sessionDat ctx session) writers before m) → u.Apart i →
      u.step P (sessionDat ctx session) .cantReadSessionValuesFile writers i = some u' →
      ∃ m, u'.Inv P (sessionDat ctx session) writers before m := by
    rintro u i u' ⟨m, hm⟩ hi hStep
    exact hm.step hP (by simp [sessionDat]) hOs hPairs hNames hi hStep
  obtain ⟨m, hInv⟩ := invariant_of_along hKeep
    ⟨before, Writers.inv_start (by simpa [sessionDat] using hSessions) hBefore⟩ hApart hRun
  have hIdle : ∀ i, (s.phase i).busy = false := by
    intro i
    obtain ⟨ec, hec⟩ := hFinished i
    rw [hec]
    rfl
  have hEnd : ∀ i, s.phase i = .finished none ∧ m.find (writers i).name = some (writers i).value := by
    intro i
    obtain ⟨ec, hec⟩ := hFinished i
    have hAgrees := hInv.agrees i
    rw [hec] at hAgrees
    exact ⟨by rw [hec, hAgrees.1], hAgrees.2⟩
  have hGet := getKvFile_refines hP hReader (hInv.rest hIdle) .cantReadSessionValuesFile
  refine ⟨fun i => (hEnd i).1, fun i => ?_, fun name hName => ?_⟩
  · rw [getValue, hGet, (hEnd i).2, Option.getD_some]
  · rw [getValue, getValue, hGet, getKvFile_refines hP hReader hBefore,
      hInv.kept name fun i _ _ => hName i]

end Apart

def writerPair (i : Bool) : Writer :=
  ⟨.ideal ∅, if i then "b" else "a", if i then "2" else "1"⟩

theorem writers_apart_lose_nothing_two :
    ∃ s, run (Writers.step .reference (sessionDat ⟨[], ∅, 1, 0⟩ ⟨"s", false⟩)
        .cantReadSessionValuesFile writerPair)
        ⟨.ofList [([], .directory), (["sessions".toList], .directory)], fun _ => .start⟩
        [false, false, false, true, true, true] = some s ∧
      (∀ i, s.phase i = .finished none) ∧
      (∀ i, getValue .reference (.ideal ∅) s.tree ⟨[], ∅, 1, 0⟩ ⟨"s", false⟩ (writerPair i).name =
        (some (writerPair i).value, none)) ∧
      ∀ name, (∀ i, (writerPair i).name ≠ name) →
        getValue .reference (.ideal ∅) s.tree ⟨[], ∅, 1, 0⟩ ⟨"s", false⟩ name =
          getValue .reference (.ideal ∅)
            (.ofList [([], .directory), (["sessions".toList], .directory)])
            ⟨[], ∅, 1, 0⟩ ⟨"s", false⟩ name := by
  refine ⟨_, rfl, ?_⟩
  refine writers_apart_lose_nothing ProtoUtils.reference_lawful ⟨[], ∅, 1, 0⟩ ⟨"s", false⟩
    (fun _ => Os.ideal_faultless ∅) (by decide) (by decide) (Os.ideal_faultless ∅)
    (by decide) (Or.inl ⟨rfl, rfl⟩) [false, false, false, true, true, true] rfl ?_ ?_
  · refine ⟨fun _ j => (by cases j <;> rfl), ?_⟩
    rintro _ ⟨⟩
    refine ⟨fun h => (by cases h), ?_⟩
    rintro _ ⟨⟩
    refine ⟨fun h => (by cases h), ?_⟩
    rintro _ ⟨⟩
    refine ⟨fun _ j => (by cases j <;> rfl), ?_⟩
    rintro _ ⟨⟩
    refine ⟨fun h => (by cases h), ?_⟩
    rintro _ ⟨⟩
    exact ⟨fun h => (by cases h), fun _ _ => trivial⟩
  · intro i
    cases i <;> exact ⟨none, rfl⟩

/-- Both writers read before either has written: the pair of the first one is lost. -/
theorem writers_lose_update :
    ∃ s, run (Writers.step .reference (sessionDat ⟨[], ∅, 1, 0⟩ ⟨"s", false⟩)
        .cantReadSessionValuesFile writerPair)
        ⟨.ofList [([], .directory), (["sessions".toList], .directory)], fun _ => .start⟩
        [false, true, false, false, true, true] = some s ∧
      (∀ i, s.phase i = .finished none) ∧ (writerPair false).name ≠ (writerPair true).name ∧
      getValue .reference (.ideal ∅) s.tree ⟨[], ∅, 1, 0⟩ ⟨"s", false⟩ (writerPair false).name ≠
        (some (writerPair false).value, none) := by
  refine ⟨_, rfl, ?_, by decide, by decide⟩
  intro i
  cases i <;> rfl

end CisCore
