import CisCore.Cron.CronList
import CisCore.Library.Transition

/-! # The `cis_cron` command

Adding and deleting load the whole table, change it and save it. The expression
is checked before, the job is not: a job that is empty or has a space is
accepted and its entry is read back as another one, or not at all.
-/

namespace CisCore

open Transition

structure CronResult where
  tree : FileTree
  stdout : List Str
  exitStatus : Nat
  /-- `notify_daemon` is called. -/
  notifies : Bool

inductive CronEdit where
  | add
  | del
deriving DecidableEq

/-- One `--add` or `--del` command, in a process of its own. -/
structure CronCommand where
  os : Os
  edit : CronEdit
  cron : Str
  job : Str

section Model

variable {ε : Type} (makeCron : Str → Option ε)

/-- What is relied on of the expressions that the cron library accepts. -/
def Accepting : Prop := ∀ s, (makeCron s).isSome → s ≠ [] ∧ '\n' ∉ s

def saveAndNotify (os : Os) (t : FileTree) (ctx : Context) (crons : Crons) : CronResult :=
  match saveCrons os t (cronsFile ctx) crons with
  | (t, some e) => ⟨t, [message os.strerror (some e)], 1, false⟩
  | (t, none) => ⟨t, [], 0, true⟩

def cronAdd (os : Os) (t : FileTree) (ctx : Context) (cron job : Str) : CronResult :=
  match makeCron cron with
  | none => ⟨t, [message os.strerror (fail .invalidCronExpression)], 1, false⟩
  | some _ =>
    match loadCronList os t (cronsFile ctx) with
    | .error e => ⟨t, [message os.strerror (fail e)], 1, false⟩
    | .ok crons => saveAndNotify os t ctx (crons.add ⟨job, cron⟩)

def cronDel (os : Os) (t : FileTree) (ctx : Context) (cron job : Str) : CronResult :=
  match makeCron cron with
  | none => ⟨t, ["Invalid cron expression"], 1, false⟩
  | some _ =>
    match loadCronList os t (cronsFile ctx) with
    | .error e => ⟨t, [message os.strerror (fail e)], 1, false⟩
    | .ok crons =>
      if (⟨job, cron⟩ : CronEntry) ∈ crons then
        saveAndNotify os t ctx (crons.remove ⟨job, cron⟩)
      else ⟨t, ["Entry doesn't exists"], 1, false⟩

def CronCommand.result (ctx : Context) (t : FileTree) (c : CronCommand) : CronResult :=
  match c.edit with
  | .add => cronAdd makeCron c.os t ctx c.cron c.job
  | .del => cronDel makeCron c.os t ctx c.cron c.job

/-- The tree after a command that reports success. -/
def CronCommand.run (ctx : Context) (t : FileTree) (c : CronCommand) : Option FileTree :=
  if (c.result makeCron ctx t).exitStatus = 0 then some (c.result makeCron ctx t).tree else none

end Model

def CronCommand.entry (c : CronCommand) : CronEntry := ⟨c.job, c.cron⟩

/-- What the command is to do to the table. -/
def CronCommand.apply (crons : Crons) (c : CronCommand) : Crons :=
  match c.edit with
  | .add => crons.add c.entry
  | .del => crons.remove c.entry

variable {ε : Type} {makeCron : Str → Option ε} {ctx : Context}

/-! ### One command -/

theorem saveAndNotify_of_content {os : Os} (hOs : os.Faultless) {t : FileTree} {text : Str}
    (h : t.content (cronsFile ctx) = some text) (crons : Crons) :
    saveAndNotify os t ctx crons = ⟨t.write (cronsFile ctx) (saveText crons), [], 0, true⟩ := by
  rw [saveAndNotify, saveCrons_of_content hOs h]

/-- A successful command rewrites the file from what it has read; an entry that
it deletes was read. -/
theorem CronCommand.run_eq_some {c : CronCommand} (hOs : c.os.Faultless) {t t' : FileTree}
    {text : Str} (h : t.content (cronsFile ctx) = some text) (hRun : c.run makeCron ctx t = some t') :
    (makeCron c.cron).isSome ∧ (c.edit = .del → c.entry ∈ readCrons text) ∧
      t' = t.write (cronsFile ctx) (saveText (c.apply (readCrons text))) := by
  obtain ⟨os, edit, cron, job⟩ := c
  have hLoad := loadCronList_of_content hOs h
  have hSave := saveAndNotify_of_content hOs h
  simp only at hLoad hSave
  rw [run] at hRun
  split_ifs at hRun with hExit
  cases hRun
  cases edit with
  | add =>
    simp only [result, cronAdd] at hExit ⊢
    cases hExpr : makeCron cron with
    | none => simp [hExpr] at hExit
    | some x =>
      simp only [hLoad, hSave]
      exact ⟨rfl, nofun, rfl⟩
  | del =>
    simp only [result, cronDel] at hExit ⊢
    cases hExpr : makeCron cron with
    | none => simp [hExpr] at hExit
    | some x =>
      simp only [hExpr, hLoad, hSave] at hExit ⊢
      split_ifs at hExit ⊢ with hMem
      exact ⟨rfl, fun _ => hMem, rfl⟩

/-! ### Sequences of commands -/

/-- An entry without a proper job that the table is to hold cannot be deleted
again, since no command ever reads it. -/
theorem mem_history_of_not_hasJob {commands : List CronCommand}
    (hOs : ∀ c ∈ commands, c.os.Faultless) {t t' : FileTree} {text : Str}
    (hText : t.content (cronsFile ctx) = some text)
    (hRun : run (CronCommand.run makeCron ctx) t commands = some t') {crons : Crons} {e : CronEntry}
    (hJob : ¬e.HasJob) (h : e ∈ crons ∨ ∃ c ∈ commands, c.edit = .add ∧ c.entry = e) :
    e ∈ commands.foldl CronCommand.apply crons := by
  induction commands generalizing t text crons with
  | nil => simpa using h
  | cons c commands ih =>
    obtain ⟨s, hFirst, hRest⟩ := run_cons_eq_some.mp hRun
    obtain ⟨_, hDel, rfl⟩ := CronCommand.run_eq_some (hOs c List.mem_cons_self) hText hFirst
    refine ih (fun d hd => hOs d (List.mem_cons_of_mem c hd)) (FileTree.content_write_self t _ _)
      hRest ?_
    obtain h | ⟨d, hd, hAdd, hEntry⟩ := h
    · left
      rw [CronCommand.apply]
      cases hEdit : c.edit with
      | add => exact SortedSet.mem_add.mpr (Or.inr h)
      | del =>
        refine SortedSet.mem_remove.mpr ⟨?_, h⟩
        rintro rfl
        exact hJob (mem_readCrons (hDel hEdit)).1
    · obtain rfl | hd := List.mem_cons.mp hd
      · left
        rw [CronCommand.apply, hAdd]
        exact SortedSet.mem_add.mpr (Or.inl hEntry.symm)
      · exact Or.inr ⟨d, hd, hAdd, hEntry⟩

theorem CronCommand.apply_proper {c : CronCommand} {crons : Crons}
    (hProper : ∀ e ∈ crons, e.HasJob ∧ e.HasExpr)
    (hEntry : c.edit = .add → c.entry.HasJob ∧ c.entry.HasExpr) :
    ∀ e ∈ c.apply crons, e.HasJob ∧ e.HasExpr := by
  intro e he
  rw [apply] at he
  cases hEdit : c.edit with
  | add =>
    rw [hEdit] at he
    obtain rfl | he := SortedSet.mem_add.mp he
    · exact hEntry hEdit
    · exact hProper e he
  | del =>
    rw [hEdit] at he
    exact hProper e (SortedSet.mem_remove.mp he).2

theorem history_saved (hCron : Accepting makeCron) {commands : List CronCommand}
    (hOs : ∀ c ∈ commands, c.os.Faultless) {t t' : FileTree} {crons : Crons}
    (hProper : ∀ e ∈ crons, e.HasJob ∧ e.HasExpr)
    (hAdded : ∀ c ∈ commands, c.edit = .add → c.entry.HasJob)
    (hSaved : t.content (cronsFile ctx) = some (saveText crons))
    (hRun : run (CronCommand.run makeCron ctx) t commands = some t') :
    t'.content (cronsFile ctx) = some (saveText (commands.foldl CronCommand.apply crons)) ∧
      ∀ e ∈ commands.foldl CronCommand.apply crons, e.HasJob ∧ e.HasExpr := by
  induction commands generalizing t crons with
  | nil =>
    cases hRun
    exact ⟨hSaved, hProper⟩
  | cons c commands ih =>
    obtain ⟨s, hFirst, hRest⟩ := run_cons_eq_some.mp hRun
    obtain ⟨hAccepted, _, rfl⟩ := CronCommand.run_eq_some (hOs c List.mem_cons_self) hSaved hFirst
    have hEntry : c.edit = .add → c.entry.HasJob ∧ c.entry.HasExpr :=
      fun hAdd => ⟨hAdded c List.mem_cons_self hAdd, hCron c.cron hAccepted⟩
    rw [readCrons_saveText hProper] at hRest
    exact ih (fun d hd => hOs d (List.mem_cons_of_mem c hd))
      (CronCommand.apply_proper hProper hEntry)
      (fun d hd => hAdded d (List.mem_cons_of_mem c hd)) (FileTree.content_write_self t _ _) hRest

/-- The table that is loaded after a run of successful commands is the one that
the commands make of the saved table exactly if no job in it and no added job is
empty or has a space. -/
theorem cron_history_iff (hCron : Accepting makeCron) (ctx : Context) {os : Os} (hOs : os.Faultless)
    {crons : Crons} (hExpr : ∀ e ∈ crons, e.HasExpr) (commands : List CronCommand)
    (hCommands : ∀ c ∈ commands, c.os.Faultless) {t t' : FileTree}
    (hSaved : t.content (cronsFile ctx) = some (saveText crons))
    (hRun : run (CronCommand.run makeCron ctx) t commands = some t') :
    loadCronList os t' (cronsFile ctx) = .ok (commands.foldl CronCommand.apply crons) ↔
      (∀ e ∈ crons, e.HasJob) ∧ ∀ c ∈ commands, c.edit = .add → c.entry.HasJob := by
  constructor
  · intro hLoad
    have hRead : ∀ e ∈ commands.foldl CronCommand.apply crons, e.HasJob :=
      fun e he => (mem_loadCronList hLoad e he).1
    have hAll : ∀ e, (e ∈ crons ∨ ∃ c ∈ commands, c.edit = .add ∧ c.entry = e) → e.HasJob := by
      intro e he
      by_contra hJob
      exact hJob (hRead e (mem_history_of_not_hasJob hCommands hSaved hRun hJob he))
    exact ⟨fun e he => hAll e (Or.inl he), fun c hc hAdd => hAll _ (Or.inr ⟨c, hc, hAdd, rfl⟩)⟩
  · rintro ⟨hJobs, hAdded⟩
    obtain ⟨hContent, hProper⟩ := history_saved hCron hCommands
      (fun e he => ⟨hJobs e he, hExpr e he⟩) hAdded hSaved hRun
    rw [loadCronList_of_content hOs hContent, readCrons_saveText hProper]

/-- Accepts six fields that are a star or a number each. -/
def sixFields (s : Str) : Option (List Str) :=
  let fields := (s.splitOn ' ').filter (· ≠ [])
  if s ≠ [] ∧ s.all (fun c => c == ' ' || c == '*' || c.isDigit) = true ∧ fields.length = 6 ∧
      fields.all (fun field => field == ['*'] || field.all Char.isDigit) = true then some fields
  else none

theorem sixFields_accepting : Accepting sixFields := by
  intro s h
  rw [sixFields] at h
  split_ifs at h with hFields
  · refine ⟨hFields.1, fun hMem => ?_⟩
    have hNewline := List.all_eq_true.mp hFields.2.1 '\n' hMem
    revert hNewline
    decide
  · cases h

def cronsTree (text : Str) : FileTree :=
  .ofList [([], .directory), (["core".toList], .directory),
    (["crons".toList, "core".toList], .file text false)]

theorem cron_history_iff_three :
    ∃ t', run (CronCommand.run sixFields ⟨[], ∅, 1, 0⟩)
        (cronsTree (saveText ((∅ : Crons).add ⟨"a", "0 * * * * *"⟩)))
        [⟨.ideal ∅, .add, "* * * * * *", "b/c"⟩, ⟨.ideal ∅, .add, "5 * * * * *", "a"⟩,
          ⟨.ideal ∅, .del, "0 * * * * *", "a"⟩] = some t' ∧
      (loadCronList (.ideal ∅) t' (cronsFile ⟨[], ∅, 1, 0⟩) =
          .ok ([⟨.ideal ∅, .add, "* * * * * *", "b/c"⟩, ⟨.ideal ∅, .add, "5 * * * * *", "a"⟩,
            ⟨.ideal ∅, .del, "0 * * * * *", "a"⟩].foldl CronCommand.apply
              ((∅ : Crons).add ⟨"a", "0 * * * * *"⟩)) ↔
        (∀ e ∈ (∅ : Crons).add ⟨"a", "0 * * * * *"⟩, e.HasJob) ∧
        ∀ c ∈ [(⟨.ideal ∅, .add, "* * * * * *", "b/c"⟩ : CronCommand),
          ⟨.ideal ∅, .add, "5 * * * * *", "a"⟩, ⟨.ideal ∅, .del, "0 * * * * *", "a"⟩],
          c.edit = .add → c.entry.HasJob) := by
  refine ⟨_, rfl, ?_⟩
  refine cron_history_iff sixFields_accepting ⟨[], ∅, 1, 0⟩
    (Os.ideal_faultless ∅) (by decide) _ ?_ (t := cronsTree _) rfl rfl
  simp only [List.mem_cons, List.not_mem_nil, or_false, forall_eq_or_imp, forall_eq]
  exact ⟨Os.ideal_faultless ∅, Os.ideal_faultless ∅, Os.ideal_faultless ∅⟩

/-- A job with a space is added with success and is not in the table. -/
theorem cron_history_fails_with_space :
    ∃ t', run (CronCommand.run sixFields ⟨[], ∅, 1, 0⟩) (cronsTree (saveText ∅))
        [⟨.ideal ∅, .add, "* * * * * *", "my job"⟩] = some t' ∧
      loadCronList (.ideal ∅) t' (cronsFile ⟨[], ∅, 1, 0⟩) =
        .ok ((∅ : Crons).add ⟨"my", "job * * * * * *"⟩) ∧
      loadCronList (.ideal ∅) t' (cronsFile ⟨[], ∅, 1, 0⟩) ≠
        .ok ([⟨.ideal ∅, .add, "* * * * * *", "my job"⟩].foldl CronCommand.apply ∅) := by
  refine ⟨_, rfl, rfl, ?_⟩
  intro h
  have hCrons := Except.ok.inj h
  revert hCrons
  decide

/-! ### What success says about the file -/

namespace CronCommand

variable (makeCron)

/-- The command comes to saving what it makes of the table `crons` it has loaded. -/
def Saves (ctx : Context) (t : FileTree) (c : CronCommand) (crons : Crons) : Prop :=
  (makeCron c.cron).isSome ∧ loadCronList c.os t (cronsFile ctx) = .ok crons ∧
    (c.edit = .del → c.entry ∈ crons)

/-- Whoever can read the file after a reported success finds the changed table there, and a
file that does not open for writing is reported. -/
def SucceedsOnDisk (ctx : Context) (t : FileTree) (c : CronCommand) : Prop :=
  ((c.result makeCron ctx t).exitStatus = 0 ∨ (c.result makeCron ctx t).notifies = true →
    ∃ crons, loadCronList c.os t (cronsFile ctx) = .ok crons ∧
      ∀ reader : Os, reader.ifstreamFault (cronsFile ctx) = false →
        loadCronList reader (c.result makeCron ctx t).tree (cronsFile ctx) = .ok (c.apply crons)) ∧
    ∀ crons, c.Saves makeCron ctx t crons → c.os.openOfstream t (cronsFile ctx) = none →
      (saveCrons c.os t (cronsFile ctx) (c.apply crons)).2 = fail .cantWriteCronsFile ∧
        (c.result makeCron ctx t).exitStatus ≠ 0

variable {makeCron}

theorem result_of_saves {t : FileTree} {c : CronCommand} {crons : Crons}
    (h : c.Saves makeCron ctx t crons) :
    c.result makeCron ctx t = saveAndNotify c.os t ctx (c.apply crons) := by
  obtain ⟨os, edit, cron, job⟩ := c
  obtain ⟨hExpr, hLoad, hDel⟩ := h
  obtain ⟨x, hExpr⟩ := Option.isSome_iff_exists.mp hExpr
  cases edit with
  | add => simp only [result, cronAdd, hExpr, hLoad, apply, entry]
  | del =>
    have hMem : (⟨job, cron⟩ : CronEntry) ∈ crons := hDel rfl
    simp only [result, cronDel, hExpr, hLoad, if_pos hMem, apply, entry]

theorem result_of_not_saves {t : FileTree} {c : CronCommand}
    (h : ∀ crons, ¬c.Saves makeCron ctx t crons) :
    (c.result makeCron ctx t).tree = t ∧ (c.result makeCron ctx t).exitStatus = 1 ∧
      (c.result makeCron ctx t).notifies = false := by
  obtain ⟨os, edit, cron, job⟩ := c
  cases hExpr : makeCron cron with
  | none => cases edit <;> simp [result, cronAdd, cronDel, hExpr]
  | some x =>
    cases hLoad : loadCronList os t (cronsFile ctx) with
    | error e => cases edit <;> simp [result, cronAdd, cronDel, hExpr, hLoad]
    | ok crons =>
      have hAbsent : edit = .del ∧ (⟨job, cron⟩ : CronEntry) ∉ crons := by
        have hNot := h crons
        simp only [Saves, hExpr, hLoad, Option.isSome_some, true_and] at hNot
        exact Classical.not_imp.mp hNot
      obtain ⟨rfl, hAbsent⟩ := hAbsent
      simp [result, cronDel, hExpr, hLoad, hAbsent]

end CronCommand

/-- Saving never reports an error, so the command always goes on to notify. -/
theorem saveAndNotify_eq (os : Os) (t : FileTree) (ctx : Context) (crons : Crons) :
    saveAndNotify os t ctx crons = ⟨(saveCrons os t (cronsFile ctx) crons).1, [], 0, true⟩ := by
  rw [saveAndNotify, saveCrons]
  cases os.openOfstream t (cronsFile ctx) with
  | none => rfl
  | some t' => rfl

/-- Success is the truth about the file exactly if the file opens for writing whenever the
command comes to it and an added entry is one that can be read back. -/
theorem cron_success_on_disk_iff (makeCron : Str → Option ε) (ctx : Context) (t : FileTree)
    (c : CronCommand) :
    c.SucceedsOnDisk makeCron ctx t ↔ ∀ crons, c.Saves makeCron ctx t crons →
      (c.os.openOfstream t (cronsFile ctx)).isSome ∧
        (c.edit = .add → c.entry.HasJob ∧ c.entry.HasExpr) := by
  constructor
  · rintro ⟨hSuccess, hReport⟩ crons hSaves
    have hResult := CronCommand.result_of_saves hSaves
    rw [saveAndNotify_eq] at hResult
    have hOpen : (c.os.openOfstream t (cronsFile ctx)).isSome := by
      by_contra hClosed
      have hExit := (hReport crons hSaves (Option.not_isSome_iff_eq_none.mp hClosed)).2
      exact hExit (by rw [hResult])
    refine ⟨hOpen, fun hAdd => ?_⟩
    obtain ⟨loaded, hLoad, hAfter⟩ := hSuccess (Or.inl (by rw [hResult]))
    have hRead := hAfter (.ideal ∅) rfl
    cases hSaves.2.1.symm.trans hLoad
    rw [hResult, loadCronList_saveCrons hOpen rfl] at hRead
    refine readCrons_saveText_iff.mp (Except.ok.inj hRead) c.entry ?_
    rw [CronCommand.apply, hAdd]
    exact SortedSet.mem_add.mpr (Or.inl rfl)
  · intro h
    by_cases hSaves : ∃ crons, c.Saves makeCron ctx t crons
    · obtain ⟨crons, hSaves⟩ := hSaves
      obtain ⟨hOpen, hEntry⟩ := h crons hSaves
      have hResult := CronCommand.result_of_saves hSaves
      rw [saveAndNotify_eq] at hResult
      refine ⟨fun _ => ⟨crons, hSaves.2.1, fun reader hReader => ?_⟩, fun crons' hSaves' hClosed => ?_⟩
      · have hProper := CronCommand.apply_proper (mem_loadCronList hSaves.2.1) hEntry
        rw [hResult, loadCronList_saveCrons hOpen hReader, readCrons_saveText hProper]
      · rw [hClosed] at hOpen
        exact absurd hOpen Bool.false_ne_true
    · rw [not_exists] at hSaves
      obtain ⟨_, hExit, hQuiet⟩ := CronCommand.result_of_not_saves hSaves
      refine ⟨fun hSuccess => ?_, fun crons hSaves' => absurd hSaves' (hSaves crons)⟩
      obtain hSuccess | hSuccess := hSuccess
      · rw [hExit] at hSuccess
        cases hSuccess
      · rw [hQuiet] at hSuccess
        cases hSuccess

/-- The file is readable but not writable: the command succeeds and notifies, and nothing
has been added. -/
theorem cron_add_lost_unwritable :
    let os : Os := { Os.ideal ∅ with ofstreamFault := fun _ => true }
    let c : CronCommand := ⟨os, .add, "* * * * * *", "a"⟩
    let result := c.result sixFields ⟨[], ∅, 1, 0⟩ (cronsTree [])
    result.exitStatus = 0 ∧ result.notifies = true ∧
      loadCronList os (cronsTree []) (cronsFile ⟨[], ∅, 1, 0⟩) = .ok ∅ ∧
      loadCronList os result.tree (cronsFile ⟨[], ∅, 1, 0⟩) = .ok ∅ ∧
      ¬c.SucceedsOnDisk sixFields ⟨[], ∅, 1, 0⟩ (cronsTree []) := by
  refine ⟨rfl, rfl, rfl, rfl, ?_⟩
  rintro ⟨_, hReport⟩
  exact (hReport ∅ ⟨rfl, rfl, nofun⟩ rfl).2 rfl

end CisCore
