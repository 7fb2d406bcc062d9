import CisCore.Cron.Commands
import Mathlib.Logic.Function.Basic

/-! # Concurrent edits of the crons file

A command loads the whole table, empties the file and writes the entries of its
own table one by one. The file is not locked, so these steps of several processes
interleave freely, and a process that loads between the steps of another one
works on an old table or on a part of one.
-/

namespace CisCore

open Transition

inductive CronPhase where
  | start
  /-- The table in memory is changed, the file is not opened yet. -/
  | loaded (crons : Crons)
  /-- The position of the stream and the entries that are left. -/
  | writing (offset : Nat) (rest : List CronEntry)
  | finished (exitStatus : Nat)

/-- Between its load and the end of its save. -/
def CronPhase.busy : CronPhase → Bool
  | .loaded _ => true
  | .writing _ _ => true
  | _ => false

structure CronWriters (ι : Type) where
  tree : FileTree
  phase : ι → CronPhase

section Model

variable {ε : Type} (makeCron : Str → Option ε) (ctx : Context)

def CronCommand.step (c : CronCommand) (t : FileTree) : CronPhase → Option (FileTree × CronPhase)
  | .start =>
    match makeCron c.cron with
    | none => some (t, .finished 1)
    | some _ =>
      match loadCronList c.os t (cronsFile ctx) with
      | .error _ => some (t, .finished 1)
      | .ok crons =>
        if c.edit = .del ∧ c.entry ∉ crons then some (t, .finished 1)
        else some (t, .loaded (c.apply crons))
  | .loaded crons =>
    match c.os.openOfstream t (cronsFile ctx) with
    | none => some (t, .finished 0)
    | some t => some (t, .writing 0 crons.keys)
  | .writing offset (e :: rest) =>
    some (t.writeAt (cronsFile ctx) offset e.line, .writing (offset + e.line.length) rest)
  | .writing _ [] => some (t, .finished 0)
  | .finished _ => none

variable {ι : Type} [DecidableEq ι]

def CronWriters.step (commands : ι → CronCommand) (s : CronWriters ι) (i : ι) :
    Option (CronWriters ι) :=
  ((commands i).step makeCron ctx s.tree (s.phase i)).map fun r =>
    ⟨r.1, Function.update s.phase i r.2⟩

/-- A process loads only while no other one is between its load and the end of
its save. -/
def CronWriters.Apart (s : CronWriters ι) (i : ι) : Prop :=
  s.phase i = .start → ∀ j, (s.phase j).busy = false

end Model

/-! ### One process alone -/

section Alone

variable {ε : Type} (makeCron : Str → Option ε) (ctx : Context) (c : CronCommand)

def CronCommand.stepAlone (r : FileTree × CronPhase) (_ : Unit) : Option (FileTree × CronPhase) :=
  c.step makeCron ctx r.1 r.2

theorem CronCommand.run_writing (rest : List CronEntry) {t : FileTree} {written : Str}
    (h : t.content (cronsFile ctx) = some written) :
    Transition.run (c.stepAlone makeCron ctx) (t, .writing written.length rest)
        (List.replicate (rest.length + 1) ()) =
      some (t.write (cronsFile ctx) (written ++ rest.flatMap CronEntry.line), .finished 0) := by
  induction rest generalizing t written with
  | nil =>
    rw [List.flatMap_nil, List.append_nil, FileTree.write_content h]
    rfl
  | cons e rest ih =>
    have hStep : c.stepAlone makeCron ctx (t, .writing written.length (e :: rest)) () =
        some (t.write (cronsFile ctx) (written ++ e.line),
          .writing (written ++ e.line).length rest) := by
      rw [stepAlone, step, FileTree.writeAt_end h, List.length_append]
    rw [List.length_cons, List.replicate_succ, run_cons, hStep, Option.bind_some,
      ih (FileTree.content_write_self t _ _), FileTree.write_write, List.flatMap_cons,
      List.append_assoc]

theorem CronCommand.run_loaded (t : FileTree) (crons : Crons) :
    ∃ n, Transition.run (c.stepAlone makeCron ctx) (t, .loaded crons) (List.replicate n ()) =
      some ((saveAndNotify c.os t ctx crons).tree,
        .finished (saveAndNotify c.os t ctx crons).exitStatus) := by
  rw [saveAndNotify, saveCrons]
  cases hOpen : c.os.openOfstream t (cronsFile ctx) with
  | none => exact ⟨1, by simp [Transition.run, stepAlone, step, hOpen]⟩
  | some t' =>
    obtain rfl := Os.openOfstream_eq_some hOpen
    have hStep : c.stepAlone makeCron ctx (t, .loaded crons) () =
        some (t.write (cronsFile ctx) [], .writing 0 crons.keys) := by
      simp [stepAlone, step, hOpen]
    have hWriting := c.run_writing makeCron ctx crons.keys
      (FileTree.content_write_self t (cronsFile ctx) [])
    rw [FileTree.write_write] at hWriting
    refine ⟨crons.keys.length + 1 + 1, ?_⟩
    rw [List.replicate_succ, run_cons, hStep, Option.bind_some]
    simp only [FileTree.overwrite_write_nil]
    exact hWriting

theorem CronCommand.step_of_saves {t : FileTree} {crons : Crons}
    (h : c.Saves makeCron ctx t crons) :
    c.step makeCron ctx t .start = some (t, .loaded (c.apply crons)) := by
  obtain ⟨hExpr, hLoad, hDel⟩ := h
  obtain ⟨x, hExpr⟩ := Option.isSome_iff_exists.mp hExpr
  simp only [step, hExpr, hLoad]
  rw [if_neg]
  rintro ⟨hEdit, hAbsent⟩
  exact hAbsent (hDel hEdit)

theorem CronCommand.step_of_not_saves {t : FileTree} (h : ∀ crons, ¬c.Saves makeCron ctx t crons) :
    c.step makeCron ctx t .start = some (t, .finished 1) := by
  rw [step]
  cases hExpr : makeCron c.cron with
  | none => rfl
  | some x =>
    cases hLoad : loadCronList c.os t (cronsFile ctx) with
    | error e => rfl
    | ok crons =>
      have hNot := h crons
      simp only [Saves, hExpr, hLoad, Option.isSome_some, true_and] at hNot
      simp only
      rw [if_pos (Classical.not_imp.mp hNot)]

/-- The steps of one process without interruption are the command. -/
theorem CronCommand.steps_eq_result (t : FileTree) :
    ∃ n, Transition.run (c.stepAlone makeCron ctx) (t, .start) (List.replicate n ()) =
      some ((c.result makeCron ctx t).tree, .finished (c.result makeCron ctx t).exitStatus) := by
  by_cases hSaves : ∃ crons, c.Saves makeCron ctx t crons
  · obtain ⟨crons, hSaves⟩ := hSaves
    obtain ⟨n, hRun⟩ := c.run_loaded makeCron ctx t (c.apply crons)
    refine ⟨n + 1, ?_⟩
    rw [List.replicate_succ, run_cons, stepAlone, c.step_of_saves makeCron ctx hSaves,
      result_of_saves hSaves]
    exact hRun
  · rw [not_exists] at hSaves
    obtain ⟨hTree, hExit, _⟩ := result_of_not_saves hSaves
    refine ⟨1, ?_⟩
    rw [List.replicate_one, run_cons, stepAlone, c.step_of_not_saves makeCron ctx hSaves, hTree, hExit]
    rfl

end Alone

variable {ε : Type} {makeCron : Str → Option ε} {ctx : Context}

/-! ### Processes that keep apart -/

section Apart

variable {ι : Type} {commands : ι → CronCommand}

/-- What a phase promises about the table `m` that the file stands for. -/
def CronPhase.Agrees (ctx : Context) (t : FileTree) (m : Crons) (c : CronCommand) :
    CronPhase → Prop
  | .start => True
  | .loaded crons => crons = c.apply m ∧ (∀ e ∈ crons, e.HasJob ∧ e.HasExpr) ∧
      t.content (cronsFile ctx) = some (saveText m)
  | .writing offset rest => (∀ e ∈ c.apply m, e.HasJob ∧ e.HasExpr) ∧
      ∃ written, t.content (cronsFile ctx) = some written ∧ offset = written.length ∧
        saveText (c.apply m) = written ++ rest.flatMap CronEntry.line
  | .finished status => status = 0 → (c.entry ∈ m ↔ c.edit = .add)

/-- While no process is busy the file stands for `m`: the table before, with the
edits of the processes that have finished. At most one process is busy. -/
structure CronWriters.Inv (ctx : Context) (commands : ι → CronCommand) (before : Crons)
    (s : CronWriters ι) (m : Crons) : Prop where
  agrees : ∀ i, (s.phase i).Agrees ctx s.tree m (commands i)
  exclusive : ∀ i j, (s.phase i).busy = true → (s.phase j).busy = true → i = j
  rest : (∀ i, (s.phase i).busy = false) → s.tree.content (cronsFile ctx) = some (saveText m)
  proper : ∀ e ∈ m, e.HasJob ∧ e.HasExpr
  kept : ∀ e, (∀ i, s.phase i = .finished 0 → (commands i).entry ≠ e) → (e ∈ m ↔ e ∈ before)

theorem CronPhase.agrees_of_idle {phase : CronPhase} (hIdle : phase.busy = false)
    {t t' : FileTree} {m : Crons} {c : CronCommand} (h : phase.Agrees ctx t m c) :
    phase.Agrees ctx t' m c := by
  cases phase with
  | start => trivial
  | loaded crons => cases hIdle
  | writing offset rest => cases hIdle
  | finished status => exact h

theorem CronCommand.mem_apply_of_ne {c : CronCommand} {m : Crons} {e : CronEntry}
    (h : e ≠ c.entry) : e ∈ c.apply m ↔ e ∈ m := by
  rw [apply]
  cases c.edit with
  | add => simp [SortedSet.mem_add, h]
  | del => simp [SortedSet.mem_remove, h]

theorem CronCommand.entry_mem_apply (c : CronCommand) (m : Crons) :
    c.entry ∈ c.apply m ↔ c.edit = .add := by
  rw [apply]
  cases c.edit with
  | add => simp [SortedSet.mem_add]
  | del => simp [SortedSet.mem_remove]

theorem CronPhase.agrees_apply {phase : CronPhase} (hIdle : phase.busy = false)
    {t t' : FileTree} {m : Crons} {c d : CronCommand} (hEntry : c.entry ≠ d.entry)
    (h : phase.Agrees ctx t m c) : phase.Agrees ctx t' (d.apply m) c := by
  cases phase with
  | start => trivial
  | loaded crons => cases hIdle
  | writing offset rest => cases hIdle
  | finished status =>
    intro hStatus
    rw [CronCommand.mem_apply_of_ne hEntry]
    exact h hStatus

theorem CronWriters.Inv.idle_of_busy {before m : Crons} {s : CronWriters ι}
    (h : s.Inv ctx commands before m) {i j : ι} (hBusy : (s.phase i).busy = true) (hne : j ≠ i) :
    (s.phase j).busy = false := single_others h.exclusive hBusy hne

theorem CronWriters.inv_start {before : Crons} {t : FileTree}
    (hProper : ∀ e ∈ before, e.HasJob ∧ e.HasExpr)
    (hSaved : t.content (cronsFile ctx) = some (saveText before)) :
    CronWriters.Inv ctx commands before ⟨t, fun _ => .start⟩ before where
  agrees _ := trivial
  exclusive _ _ h := by cases h
  rest _ := hSaved
  proper := hProper
  kept _ _ := Iff.rfl

variable [DecidableEq ι]

theorem CronWriters.Inv.move {before m m' : Crons} {s : CronWriters ι} {i : ι} {t' : FileTree}
    {phase' : CronPhase} (h : s.Inv ctx commands before m) (hUnfinished : s.phase i ≠ .finished 0)
    (hIdle : ∀ j, j ≠ i → (s.phase j).busy = false) (hSelf : phase'.Agrees ctx t' m' (commands i))
    (hOthers : ∀ j, j ≠ i → (s.phase j).Agrees ctx t' m' (commands j))
    (hRest : phase'.busy = false → t'.content (cronsFile ctx) = some (saveText m'))
    (hProper : ∀ e ∈ m', e.HasJob ∧ e.HasExpr)
    (hKept : ∀ e, (phase' = .finished 0 → (commands i).entry ≠ e) → (e ∈ m' ↔ e ∈ m)) :
    CronWriters.Inv ctx commands before ⟨t', Function.update s.phase i phase'⟩ m' where
  agrees := (Function.forall_update_iff s.phase _).mpr ⟨hSelf, hOthers⟩
  exclusive := single_update hIdle
  rest hAll := by
    have hi : (Function.update s.phase i phase' i).busy = false := hAll i
    rw [Function.update_self] at hi
    exact hRest hi
  proper := hProper
  kept e he := by
    have he' : ∀ j, Function.update s.phase i phase' j = .finished 0 → (commands j).entry ≠ e := he
    rw [hKept e fun hFinished => he' i (by rw [Function.update_self, hFinished])]
    apply h.kept e
    intro j hj
    have hne : j ≠ i := by
      rintro rfl
      exact hUnfinished hj
    exact he' j (by rw [Function.update_of_ne hne, hj])

theorem CronWriters.Inv.step (hCron : Accepting makeCron)
    (hOs : ∀ i, (commands i).os.Faultless)
    (hJobs : ∀ i, (commands i).edit = .add → (commands i).entry.HasJob)
    (hEntries : ∀ i j, (commands i).entry = (commands j).entry → i = j)
    {before m : Crons} {s s' : CronWriters ι} {i : ι} (h : s.Inv ctx commands before m)
    (hApart : s.Apart i) (hStep : s.step makeCron ctx commands i = some s') :
    ∃ m', s'.Inv ctx commands before m' := by
  obtain ⟨⟨t', phase'⟩, hProcess, rfl⟩ := Option.map_eq_some_iff.mp hStep
  have hSelf := h.agrees i
  cases hPhase : s.phase i with
  | start =>
    have hIdle := hApart hPhase
    have hSaved := h.rest hIdle
    have hLoad := loadCronList_of_content (hOs i) hSaved
    rw [readCrons_saveText h.proper] at hLoad
    have hUnfinished : s.phase i ≠ .finished 0 := by simp [hPhase]
    have hFails : CronWriters.Inv ctx commands before
        ⟨s.tree, Function.update s.phase i (.finished 1)⟩ m :=
      h.move hUnfinished (fun j _ => hIdle j) (fun hStatus => nomatch hStatus)
        (fun j _ => h.agrees j) (fun _ => hSaved) h.proper fun _ _ => Iff.rfl
    simp only [CronCommand.step, hPhase, hLoad] at hProcess
    cases hExpr : makeCron (commands i).cron with
    | none =>
      rw [hExpr] at hProcess
      cases hProcess
      exact ⟨m, hFails⟩
    | some x =>
      rw [hExpr] at hProcess
      simp only at hProcess
      split_ifs at hProcess
      · cases hProcess
        exact ⟨m, hFails⟩
      · cases hProcess
        have hProper := CronCommand.apply_proper h.proper fun hAdd =>
          ⟨hJobs i hAdd, hCron _ (Option.isSome_of_eq_some hExpr)⟩
        exact ⟨m, h.move hUnfinished (fun j _ => hIdle j) ⟨rfl, hProper, hSaved⟩
          (fun j _ => h.agrees j) (fun hBusy => nomatch hBusy) h.proper fun _ _ => Iff.rfl⟩
  | loaded crons =>
    rw [hPhase] at hSelf
    obtain ⟨rfl, hProper, hSaved⟩ := hSelf
    have hIdle : ∀ j, j ≠ i → (s.phase j).busy = false :=
      fun j hne => h.idle_of_busy (by rw [hPhase]; rfl) hne
    simp only [CronCommand.step, hPhase, Os.openOfstream_of_content (hOs i) hSaved] at hProcess
    cases hProcess
    refine ⟨m, h.move (by simp [hPhase]) hIdle ⟨hProper, [], FileTree.content_write_self _ _ _, rfl,
      rfl⟩ (fun j hne => CronPhase.agrees_of_idle (hIdle j hne) (h.agrees j))
      (fun hBusy => nomatch hBusy) h.proper fun _ _ => Iff.rfl⟩
  | writing offset rest =>
    rw [hPhase] at hSelf
    obtain ⟨hProper, written, hContent, rfl, hText⟩ := hSelf
    have hIdle : ∀ j, j ≠ i → (s.phase j).busy = false :=
      fun j hne => h.idle_of_busy (by rw [hPhase]; rfl) hne
    cases rest with
    | nil =>
      simp only [CronCommand.step, hPhase] at hProcess
      cases hProcess
      rw [List.flatMap_nil, List.append_nil] at hText
      refine ⟨(commands i).apply m, h.move (by simp [hPhase]) hIdle
        (fun _ => (commands i).entry_mem_apply m)
        (fun j hne => CronPhase.agrees_apply (hIdle j hne) (fun hEq => hne (hEntries j i hEq))
          (h.agrees j)) (fun _ => hText ▸ hContent) hProper fun e he => ?_⟩
      exact CronCommand.mem_apply_of_ne (he rfl).symm
    | cons e rest =>
      simp only [CronCommand.step, hPhase, FileTree.writeAt_end hContent] at hProcess
      cases hProcess
      refine ⟨m, h.move (by simp [hPhase]) hIdle ⟨hProper, written ++ e.line,
        FileTree.content_write_self _ _ _, by rw [List.length_append], ?_⟩
        (fun j hne => CronPhase.agrees_of_idle (hIdle j hne) (h.agrees j))
        (fun hBusy => nomatch hBusy) h.proper fun _ _ => Iff.rfl⟩
      rw [hText, List.flatMap_cons, List.append_assoc]
  | finished status =>
    simp [CronCommand.step, hPhase] at hProcess

/-- When processes on different entries all succeed and keep apart, the table
afterwards is the one before with each of their entries added or deleted. -/
theorem cron_writers_apart_lose_nothing (hCron : Accepting makeCron) (ctx : Context)
    (hOs : ∀ i, (commands i).os.Faultless)
    (hJobs : ∀ i, (commands i).edit = .add → (commands i).entry.HasJob)
    (hEntries : ∀ i j, (commands i).entry = (commands j).entry → i = j) {os : Os}
    (hReader : os.Faultless) {t : FileTree} {before : Crons}
    (hProper : ∀ e ∈ before, e.HasJob ∧ e.HasExpr)
    (hSaved : t.content (cronsFile ctx) = some (saveText before)) (order : List ι)
    {s : CronWriters ι}
    (hRun : run (CronWriters.step makeCron ctx commands) ⟨t, fun _ => .start⟩ order = some s)
    (hApart : Along (CronWriters.step makeCron ctx commands) CronWriters.Apart
      ⟨t, fun _ => .start⟩ order)
    (hFinished : ∀ i, s.phase i = .finished 0) :
    ∃ crons, loadCronList os s.tree (cronsFile ctx) = .ok crons ∧
      (∀ i, (commands i).entry ∈ crons ↔ (commands i).edit = .add) ∧
      ∀ e, (∀ i, (commands i).entry ≠ e) → (e ∈ crons ↔ e ∈ before) := by
  have hKeep : ∀ (u : CronWriters ι) (i : ι) (u' : CronWriters ι),
      (∃ m, u.Inv ctx commands before m) → u.Apart i →
      u.step makeCron ctx commands i = some u' → ∃ m, u'.Inv ctx commands before m := by
    rintro u i u' ⟨m, hm⟩ hi hStep
    exact hm.step hCron hOs hJobs hEntries hi hStep
  obtain ⟨m, hInv⟩ := invariant_of_along hKeep
    ⟨before, CronWriters.inv_start hProper hSaved⟩ hApart hRun
  have hIdle : ∀ i, (s.phase i).busy = false := by
    intro i
    rw [hFinished i]
    rfl
  refine ⟨m, ?_, fun i => ?_, fun e he => hInv.kept e fun i _ => he i⟩
  · rw [loadCronList_of_content hReader (hInv.rest hIdle), readCrons_saveText hInv.proper]
  · have hAgrees := hInv.agrees i
    rw [hFinished i] at hAgrees
    exact hAgrees rfl

end Apart

def addPair (i : Bool) : CronCommand :=
  ⟨.ideal ∅, .add, "0 * * * * *", if i then "b" else "a"⟩

theorem cron_writers_apart_lose_nothing_two :
    ∃ s, run (CronWriters.step sixFields ⟨[], ∅, 1, 0⟩ addPair)
        ⟨cronsTree (saveText ∅), fun _ => .start⟩
        [false, false, false, false, true, true, true, true, true] = some s ∧
      ∃ crons, loadCronList (.ideal ∅) s.tree (cronsFile ⟨[], ∅, 1, 0⟩) = .ok crons ∧
        (∀ i, (addPair i).entry ∈ crons ↔ (addPair i).edit = .add) ∧
        ∀ e, (∀ i, (addPair i).entry ≠ e) → (e ∈ crons ↔ e ∈ (∅ : Crons)) := by
  refine ⟨_, rfl, ?_⟩
  refine cron_writers_apart_lose_nothing sixFields_accepting ⟨[], ∅, 1, 0⟩
    (fun _ => Os.ideal_faultless ∅) (by decide) (by decide) (Os.ideal_faultless ∅)
    (t := cronsTree (saveText ∅)) (fun e he => absurd he (SortedSet.not_mem_empty e)) rfl
    [false, false, false, false, true, true, true, true, true] rfl ?_ ?_
  · refine ⟨fun _ j => (by cases j <;> rfl), ?_⟩
    rintro _ ⟨⟩
    refine ⟨fun h => (by cases h), ?_⟩
    rintro _ ⟨⟩
    refine ⟨fun h => (by cases h), ?_⟩
    rintro _ ⟨⟩
    refine ⟨fun h => (by cases h), ?_⟩
    rintro _ ⟨⟩
    refine ⟨fun _ j => (by cases j <;> rfl), ?_⟩
    rintro _ ⟨⟩
    refine ⟨fun h => (by cases h), ?_⟩
    rintro _ ⟨⟩
    refine ⟨fun h => (by cases h), ?_⟩
    rintro _ ⟨⟩
    refine ⟨fun h => (by cases h), ?_⟩
    rintro _ ⟨⟩
    exact ⟨fun h => (by cases h), fun _ _ => trivial⟩
  · intro i
    cases i <;> rfl

/-- Both processes load before either has saved: the entry of the first is lost. -/
theorem cron_writers_lose_entry :
    ∃ s crons, run (CronWriters.step sixFields ⟨[], ∅, 1, 0⟩ addPair)
        ⟨cronsTree (saveText ∅), fun _ => .start⟩
        [false, true, false, false, false, true, true, true] = some s ∧
      (∀ i, s.phase i = .finished 0) ∧ (addPair false).entry ≠ (addPair true).entry ∧
      loadCronList (.ideal ∅) s.tree (cronsFile ⟨[], ∅, 1, 0⟩) = .ok crons ∧
      (addPair false).entry ∉ crons := by
  refine ⟨_, _, rfl, ?_, by decide, rfl, by decide⟩
  intro i
  cases i <;> rfl

end CisCore
