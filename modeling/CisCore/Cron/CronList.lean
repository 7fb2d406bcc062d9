import CisCore.Library.SortedSet
import CisCore.Os
import CisCore.Session.Context
import Mathlib.Data.Prod.Lex

/-! # The crons file

One entry a line, the job before the first space and the expression behind it.
The reader stops at the first line where one of the two is empty, and nothing
keeps an entry from being written that is read back as another one.
-/

namespace CisCore

structure CronEntry where
  job : Str
  expr : Str
deriving DecidableEq

namespace CronEntry

instance : LinearOrder CronEntry :=
  LinearOrder.lift' (fun e => toLex (e.job, e.expr)) (by
    rintro ⟨_, _⟩ ⟨_, _⟩ h
    cases h
    rfl)

theorem lt_iff {a b : CronEntry} :
    a < b ↔ a.job < b.job ∨ a.job = b.job ∧ a.expr < b.expr := Prod.Lex.toLex_lt_toLex

def line (e : CronEntry) : Str := e.job ++ ' ' :: (e.expr ++ ['\n'])

/-- The job reaches up to the first space of its line. -/
def HasJob (e : CronEntry) : Prop := e.job ≠ [] ∧ ' ' ∉ e.job

def HasExpr (e : CronEntry) : Prop := e.expr ≠ [] ∧ '\n' ∉ e.expr

instance (e : CronEntry) : Decidable e.HasJob := inferInstanceAs (Decidable (_ ∧ _))

instance (e : CronEntry) : Decidable e.HasExpr := inferInstanceAs (Decidable (_ ∧ _))

end CronEntry

abbrev Crons := SortedSet CronEntry

def cronsFile (ctx : Context) : FsPath := ctx.baseDir / "core" / "crons"

/-- The loop over the stream; `fuel` bounds the lines. -/
def readCronsFrom : Nat → Str → Crons → Crons
  | 0, _, crons => crons
  | fuel + 1, text, crons =>
    match Text.getline ' ' text with
    -- the stream has ended, so the expression stays empty
    | (_, none) => crons
    | (job, some rest) =>
      match Text.getline '\n' rest with
      | (cron, after) =>
        if job.isEmpty || cron.isEmpty then crons
        else
          match after with
          | none => crons.add ⟨job, cron⟩
          | some text => readCronsFrom fuel text (crons.add ⟨job, cron⟩)

def readCrons (text : Str) : Crons := readCronsFrom (text.length + 1) text ∅

def saveText (crons : Crons) : Str := crons.keys.flatMap CronEntry.line

section Model

variable (os : Os)

def loadCronList (t : FileTree) (path : FsPath) : Except ErrorCode Crons :=
  match os.openIfstream t path with
  | none => .error .cantReadCronsFile
  | some text => .ok (readCrons text)

/-- `cron_list::save`. It only asks whether there is a stream object, and there
always is one: a file that does not open is no error. -/
def saveCrons (t : FileTree) (path : FsPath) (crons : Crons) : FileTree × Ec :=
  match os.openOfstream t path with
  | none => (t, none)
  | some t => (t.overwrite path (saveText crons), none)

end Model

/-! ### What the reader returns -/

/-- One iteration reads at least one character, so the bound is never reached. -/
theorem readCronsFrom_fuel {fuel : Nat} {text : Str} (h : text.length < fuel) (crons : Crons) :
    readCronsFrom fuel text crons = readCronsFrom (text.length + 1) text crons := by
  induction hn : text.length using Nat.strong_induction_on generalizing fuel text crons with
  | _ n ih =>
    subst hn
    obtain ⟨fuel, rfl⟩ := Nat.exists_eq_add_of_lt h
    rw [readCronsFrom, readCronsFrom]
    rcases hJob : Text.getline ' ' text with ⟨job, _ | rest⟩
    · rfl
    · have hRest := Text.length_getline hJob
      rcases hCron : Text.getline '\n' rest with ⟨cron, _ | after⟩
      · simp only [hCron]
      · have hAfter := Text.length_getline hCron
        simp only [hCron]
        split_ifs
        · rfl
        · have hFirst := ih after.length (by omega) (show after.length < text.length + fuel by omega)
            (crons.add ⟨job, cron⟩) rfl
          have hSecond := ih after.length (by omega) (show after.length < text.length by omega)
            (crons.add ⟨job, cron⟩) rfl
          rw [hFirst, hSecond]

theorem readCronsFrom_line {e : CronEntry} (hJob : e.HasJob) (hExpr : e.HasExpr) (fuel : Nat)
    (text : Str) (crons : Crons) :
    readCronsFrom (fuel + 1) (e.line ++ text) crons = readCronsFrom fuel text (crons.add e) := by
  have hLine : e.line ++ text = e.job ++ ' ' :: (e.expr ++ '\n' :: text) := by
    simp [CronEntry.line]
  have hSpace := Text.getline_append hJob.2 (e.expr ++ '\n' :: text)
  have hNewline := Text.getline_append hExpr.2 text
  have hEmpty : (e.job.isEmpty || e.expr.isEmpty) = false := by simp [hJob.1, hExpr.1]
  simp only [readCronsFrom, hLine, hSpace, hNewline, hEmpty, Bool.false_eq_true, if_false]

theorem readCronsFrom_lines {es : List CronEntry} (h : ∀ e ∈ es, e.HasJob ∧ e.HasExpr) {fuel : Nat}
    (hFuel : (es.flatMap CronEntry.line).length < fuel) (crons : Crons) :
    readCronsFrom fuel (es.flatMap CronEntry.line) crons = es.foldl SortedSet.add crons := by
  induction es generalizing fuel crons with
  | nil =>
    cases fuel with
    | zero => rfl
    | succ fuel => rfl
  | cons e es ih =>
    cases fuel with
    | zero => exact absurd hFuel (Nat.not_lt_zero _)
    | succ fuel =>
      obtain ⟨hJob, hExpr⟩ := h e List.mem_cons_self
      have hLonger : 0 < e.line.length := by simp [CronEntry.line]
      rw [List.flatMap_cons, List.length_append] at hFuel
      rw [List.flatMap_cons, readCronsFrom_line hJob hExpr, List.foldl_cons]
      exact ih (fun e' he' => h e' (List.mem_cons_of_mem e he')) (by omega) _

/-- What is saved is read back when every entry of the set is. -/
theorem readCrons_saveText {crons : Crons} (h : ∀ e ∈ crons, e.HasJob ∧ e.HasExpr) :
    readCrons (saveText crons) = crons := by
  rw [readCrons, saveText, readCronsFrom_lines h (Nat.lt_succ_self _)]
  exact SortedSet.foldl_add_keys crons

theorem mem_readCronsFrom {fuel : Nat} {text : Str} {crons : Crons} {e : CronEntry}
    (h : e ∈ readCronsFrom fuel text crons) : e ∈ crons ∨ e.HasJob ∧ e.HasExpr := by
  induction fuel generalizing text crons with
  | zero => exact Or.inl h
  | succ fuel ih =>
    rw [readCronsFrom] at h
    rcases hJob : Text.getline ' ' text with ⟨job, _ | rest⟩
    · rw [hJob] at h
      exact Or.inl h
    · rcases hCron : Text.getline '\n' rest with ⟨cron, after⟩
      simp only [hJob, hCron] at h
      split_ifs at h with hEmpty
      · exact Or.inl h
      · have hSpace := Text.delim_not_mem_getline ' ' text
        have hNewline := Text.delim_not_mem_getline '\n' rest
        rw [hJob] at hSpace
        rw [hCron] at hNewline
        rw [Bool.or_eq_true, List.isEmpty_iff, List.isEmpty_iff, not_or] at hEmpty
        have hNew : ∀ e', e' ∈ crons.add ⟨job, cron⟩ → e' ∈ crons ∨ e'.HasJob ∧ e'.HasExpr := by
          intro e' he'
          obtain rfl | he' := SortedSet.mem_add.mp he'
          · exact Or.inr ⟨⟨hEmpty.1, hSpace⟩, hEmpty.2, hNewline⟩
          · exact Or.inl he'
        cases after with
        | none => exact hNew e h
        | some text =>
          obtain h | h := ih h
          · exact hNew e h
          · exact Or.inr h

theorem mem_readCrons {text : Str} {e : CronEntry} (h : e ∈ readCrons text) :
    e.HasJob ∧ e.HasExpr := by
  obtain h | h := mem_readCronsFrom h
  · exact absurd h (SortedSet.not_mem_empty e)
  · exact h

theorem readCrons_saveText_iff {crons : Crons} :
    readCrons (saveText crons) = crons ↔ ∀ e ∈ crons, e.HasJob ∧ e.HasExpr := by
  constructor
  · intro h e he
    rw [← h] at he
    exact mem_readCrons he
  · exact readCrons_saveText

/-! ### What the functions can do -/

theorem loadCronList_of_content {os : Os} (hOs : os.Faultless) {t : FileTree} {path : FsPath}
    {text : Str} (h : t.content path = some text) :
    loadCronList os t path = .ok (readCrons text) := by
  rw [loadCronList, Os.openIfstream_faultless hOs h]

theorem saveCrons_of_opened {os : Os} {t : FileTree} {path : FsPath}
    (h : (os.openOfstream t path).isSome) (crons : Crons) :
    saveCrons os t path crons = (t.write path (saveText crons), none) := by
  obtain ⟨t', hOpen⟩ := Option.isSome_iff_exists.mp h
  rw [saveCrons, hOpen, Os.openOfstream_eq_some hOpen]
  simp only [FileTree.overwrite_write_nil]

theorem saveCrons_of_content {os : Os} (hOs : os.Faultless) {t : FileTree} {path : FsPath}
    {text : Str} (h : t.content path = some text) (crons : Crons) :
    saveCrons os t path crons = (t.write path (saveText crons), none) := by
  apply saveCrons_of_opened
  rw [Os.openOfstream_of_content hOs h]
  rfl

theorem loadCronList_eq_ok {os : Os} {t : FileTree} {path : FsPath} {crons : Crons} :
    loadCronList os t path = .ok crons ↔
      ∃ text, os.openIfstream t path = some text ∧ readCrons text = crons := by
  rw [loadCronList]
  cases os.openIfstream t path with
  | none => simp
  | some text => simp

theorem mem_loadCronList {os : Os} {t : FileTree} {path : FsPath} {crons : Crons}
    (h : loadCronList os t path = .ok crons) : ∀ e ∈ crons, e.HasJob ∧ e.HasExpr := by
  obtain ⟨text, _, rfl⟩ := loadCronList_eq_ok.mp h
  exact fun e he => mem_readCrons he

/-- What is saved in a file that opens is loaded from it as it can be read back. -/
theorem loadCronList_saveCrons {os reader : Os} {t : FileTree} {path : FsPath}
    (hOpen : (os.openOfstream t path).isSome) (hReader : reader.ifstreamFault path = false)
    (crons : Crons) :
    loadCronList reader (saveCrons os t path crons).1 path = .ok (readCrons (saveText crons)) := by
  rw [saveCrons_of_opened hOpen]
  exact loadCronList_eq_ok.mpr
    ⟨_, Os.openIfstream_of_content hReader (FileTree.content_write_self t path _), rfl⟩

/-- The loop over any file ends, with entries that have a job and an expression. A set of
such entries is loaded as it was saved, so a set that was loaded is. -/
theorem crons_file_codec (os reader : Os) (t : FileTree) (path : FsPath) :
    (∀ text, os.openIfstream t path = some text →
      ∃ crons, loadCronList os t path = .ok crons ∧
        (∀ fuel, text.length < fuel → readCronsFrom fuel text ∅ = crons) ∧
        ∀ e ∈ crons, (e.job ≠ [] ∧ ' ' ∉ e.job) ∧ e.expr ≠ [] ∧ '\n' ∉ e.expr) ∧
    ((os.openOfstream t path).isSome → reader.ifstreamFault path = false →
      (∀ crons : Crons, (∀ e ∈ crons, (e.job ≠ [] ∧ ' ' ∉ e.job) ∧ e.expr ≠ [] ∧ '\n' ∉ e.expr) →
        loadCronList reader (saveCrons os t path crons).1 path = .ok crons) ∧
      ∀ crons, loadCronList os t path = .ok crons →
        loadCronList reader (saveCrons os t path crons).1 path = .ok crons) := by
  refine ⟨fun text hText => ?_, fun hOpen hReader => ?_⟩
  · refine ⟨readCrons text, loadCronList_eq_ok.mpr ⟨text, hText, rfl⟩, ?_, fun e he => mem_readCrons he⟩
    exact fun fuel hFuel => readCronsFrom_fuel hFuel ∅
  · have hCodec : ∀ crons : Crons, (∀ e ∈ crons, e.HasJob ∧ e.HasExpr) →
        loadCronList reader (saveCrons os t path crons).1 path = .ok crons := by
      intro crons hProper
      rw [loadCronList_saveCrons hOpen hReader, readCrons_saveText hProper]
    exact ⟨hCodec, fun crons hLoad => hCodec crons (mem_loadCronList hLoad)⟩

end CisCore
