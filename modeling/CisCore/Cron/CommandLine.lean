import CisCore.Cron.Commands
import CisCore.Job.Execute
import CisCore.Library.Machine
import CisCore.Script.Values

/-! # The `cis_cron` program

Every run of the program loads the table of cron entries from its file. To those
who call it, one after the other, it is one table that is kept in memory.
-/

namespace CisCore

open Machine

/-- What a program prints, its exit status and whether it notifies the daemon. -/
structure CronAnswer where
  stdout : Str
  exitStatus : Nat
  notifies : Bool

structure CronCall where
  process : Process
  args : List Str
  /-- The process library can spawn the daemon. -/
  daemonStarts : Bool

def cronUsage : List Str :=
  ["Usage:", "  start daemon: --daemon", "          list: --list \"mask\"",
    "           add: --add \"cron_expr\" \"project/job\"",
    "           del: --del \"cron_expr\" \"project/job\""]

section Model

-- `regex mask` is `none` where the constructor of `std::regex` throws, and else
-- what `std::regex_match` says of a text
variable (P : ProtoUtils) (version : Version) {ε : Type} (makeCron : Str → Option ε)
  (regex : Str → Option (Str → Bool))

def cronLines (isMatch : Str → Bool) (crons : Crons) : List Str :=
  (crons.keys.filter fun e => isMatch e.job).map fun e => e.job ++ " ".toList ++ e.expr

/-- `list`, behind `validate_mask`. -/
def cronList (os : Os) (t : FileTree) (ctx : Context) (mask : Str) : CronResult :=
  match regex mask with
  | none => ⟨t, ["Invalid mask."], 1, false⟩
  | some isMatch =>
    match loadCronList os t (cronsFile ctx) with
    | .error _ => ⟨t, ["Can't load crons file."], 1, false⟩
    | .ok crons => ⟨t, cronLines isMatch crons, 0, false⟩

/-- The `switch` of `main`. -/
def cisCronMain (os : Os) (ctx : Context) (daemonStarts : Bool) (args : List Str) (t : FileTree) :
    CronResult :=
  match args with
  | [option] =>
    if option = "--usage" then ⟨t, cronUsage, 0, false⟩
    else if option = "--daemon" then ⟨t, [], if daemonStarts then 0 else 1, false⟩
    else ⟨t, cronUsage, 1, false⟩
  | [option, mask] =>
    if option = "--list" then cronList regex os t ctx mask
    -- the one failure that reports success
    else ⟨t, cronUsage, 0, false⟩
  | [option, cron, job] =>
    if option = "--add" then cronAdd makeCron os t ctx cron job
    else if option = "--del" then cronDel makeCron os t ctx cron job
    else ⟨t, cronUsage, 1, false⟩
  | _ => ⟨t, cronUsage, 1, false⟩

def CronResult.answer (r : CronResult) : CronAnswer := ⟨outputText r.stdout, r.exitStatus, r.notifies⟩

def CronCall.run (t : FileTree) (c : CronCall) : FileTree × CronAnswer :=
  if c.args = ["--version".toList] then (t, ⟨printVersion version, 0, false⟩)
  else
    match initContext P c.process t with
    | .error _ => (t, ⟨[], 1, false⟩)
    | .ok ctx =>
      let r := cisCronMain makeCron regex c.process.os ctx c.daemonStarts c.args t
      (r.tree, r.answer)

/-! The table itself. -/

def CronAnswer.failed (stdout : List Str) : CronAnswer := ⟨outputText stdout, 1, false⟩

def tableAdd (crons : Crons) (cron job : Str) : Crons × CronAnswer :=
  if (makeCron cron).isSome then (crons.add ⟨job, cron⟩, ⟨[], 0, true⟩)
  else (crons, .failed [ErrorCode.message .invalidCronExpression])

def tableDel (crons : Crons) (cron job : Str) : Crons × CronAnswer :=
  if (makeCron cron).isNone then (crons, .failed ["Invalid cron expression"])
  else if (⟨job, cron⟩ : CronEntry) ∈ crons then (crons.remove ⟨job, cron⟩, ⟨[], 0, true⟩)
  else (crons, .failed ["Entry doesn't exists"])

def tableList (crons : Crons) (mask : Str) : CronAnswer :=
  match regex mask with
  | none => .failed ["Invalid mask."]
  | some isMatch => ⟨outputText (cronLines isMatch crons), 0, false⟩

def cronTable (crons : Crons) (c : CronCall) : Crons × CronAnswer :=
  if c.args = ["--version".toList] then (crons, ⟨printVersion version, 0, false⟩)
  else
    match c.args with
    | [option] =>
      if option = "--usage" then (crons, ⟨outputText cronUsage, 0, false⟩)
      else if option = "--daemon" then (crons, ⟨[], if c.daemonStarts then 0 else 1, false⟩)
      else (crons, .failed cronUsage)
    | [option, mask] =>
      if option = "--list" then (crons, tableList regex crons mask)
      else (crons, ⟨outputText cronUsage, 0, false⟩)
    | [option, cron, job] =>
      if option = "--add" then tableAdd makeCron crons cron job
      else if option = "--del" then tableDel makeCron crons cron job
      else (crons, .failed cronUsage)
    | _ => (crons, .failed cronUsage)

/-- The file holds the table, and nothing else has changed. -/
structure CronsStand (t₀ : FileTree) (baseDir : FsPath) (t : FileTree) (crons : Crons) : Prop where
  saved : t.content (baseDir / "core" / "crons") = some (saveText crons)
  proper : ∀ e ∈ crons, e.HasJob ∧ e.HasExpr
  frame : FileTree.SameOutside (· = baseDir / "core" / "crons") t₀ t

/-- A call at this site; a job that it adds has a name without spaces. -/
structure CronCall.Allowed (t₀ : FileTree) (baseDir : FsPath) (c : CronCall) : Prop where
  faultless : c.process.os.Faultless
  context : ∃ ctx, initContext P c.process t₀ = .ok ctx ∧ ctx.baseDir = baseDir
  hasJob : ∀ cron job, c.args = ["--add".toList, cron, job] → (⟨job, cron⟩ : CronEntry).HasJob

end Model

variable {P : ProtoUtils} {ε : Type} {makeCron : Str → Option ε} {regex : Str → Option (Str → Bool)}
  {t₀ t : FileTree} {baseDir : FsPath} {crons : Crons}

/-- The table lies apart from what a process needs for its context. -/
theorem CronsStand.context (h : CronsStand t₀ baseDir t crons) {p : Process} {ctx : Context}
    (hContext : initContext P p t₀ = .ok ctx) (hBase : ctx.baseDir = baseDir) :
    initContext P p t = .ok ctx := by
  subst hBase
  rw [initContext_congr (initContext_baseDir hContext), hContext]
  · apply h.frame
    intro hEq
    have hLength : ctx.baseDir.length = ctx.baseDir.length + 1 + 1 := congrArg List.length hEq
    omega
  · apply h.frame
    intro hEq
    have hName := (List.cons.inj hEq).1
    revert hName
    decide

theorem CronsStand.load (h : CronsStand t₀ baseDir t crons) {os : Os} (hOs : os.Faultless)
    {ctx : Context} (hBase : ctx.baseDir = baseDir) :
    loadCronList os t (cronsFile ctx) = .ok crons := by
  have hSaved : t.content (cronsFile ctx) = some (saveText crons) := by
    rw [cronsFile, hBase]
    exact h.saved
  rw [loadCronList_of_content hOs hSaved, readCrons_saveText h.proper]

theorem CronsStand.save (h : CronsStand t₀ baseDir t crons) {crons' : Crons}
    (hProper : ∀ e ∈ crons', e.HasJob ∧ e.HasExpr) :
    CronsStand t₀ baseDir (t.write (baseDir / "core" / "crons") (saveText crons')) crons' where
  saved := FileTree.content_write_self t _ _
  proper := hProper
  frame := h.frame.trans (@FileTree.SameOutside.write (· = baseDir / "core" / "crons") _ rfl t _)

/-! ### One call -/

section Calls

variable {os : Os} (hOs : os.Faultless) {ctx : Context} (hBase : ctx.baseDir = baseDir)
  (h : CronsStand t₀ baseDir t crons) {cron job : Str}
include hOs hBase h

theorem CronsStand.saveAndNotify (crons' : Crons) :
    CisCore.saveAndNotify os t ctx crons' =
      ⟨t.write (baseDir / "core" / "crons") (saveText crons'), [], 0, true⟩ := by
  subst hBase
  exact saveAndNotify_of_content hOs h.saved crons'

theorem CronsStand.add (hCron : Accepting makeCron) (hJob : (⟨job, cron⟩ : CronEntry).HasJob) :
    CronsStand t₀ baseDir (cronAdd makeCron os t ctx cron job).tree (tableAdd makeCron crons cron job).1 ∧
      (cronAdd makeCron os t ctx cron job).answer = (tableAdd makeCron crons cron job).2 := by
  cases hExpr : makeCron cron with
  | none =>
    simp only [cronAdd, tableAdd, hExpr, Option.isSome_none]
    exact ⟨h, rfl⟩
  | some expr =>
    have hValid : (makeCron cron).isSome := by rw [hExpr]; rfl
    simp only [cronAdd, tableAdd, hExpr, Option.isSome_some, if_true, h.load hOs hBase,
      h.saveAndNotify hOs hBase]
    refine ⟨h.save fun e he => ?_, rfl⟩
    obtain rfl | he := SortedSet.mem_add.mp he
    · exact ⟨hJob, hCron cron hValid⟩
    · exact h.proper e he

theorem CronsStand.del :
    CronsStand t₀ baseDir (cronDel makeCron os t ctx cron job).tree (tableDel makeCron crons cron job).1 ∧
      (cronDel makeCron os t ctx cron job).answer = (tableDel makeCron crons cron job).2 := by
  cases hExpr : makeCron cron with
  | none =>
    simp only [cronDel, tableDel, hExpr, Option.isNone_none, if_true]
    exact ⟨h, rfl⟩
  | some expr =>
    simp only [cronDel, tableDel, hExpr, Option.isNone_some, Bool.false_eq_true, if_false,
      h.load hOs hBase, h.saveAndNotify hOs hBase]
    split_ifs with hMem
    · exact ⟨h.save fun e he => h.proper e (SortedSet.mem_remove.mp he).2, rfl⟩
    · exact ⟨h, rfl⟩

theorem CronsStand.list (mask : Str) :
    (cronList regex os t ctx mask).tree = t ∧
      (cronList regex os t ctx mask).answer = tableList regex crons mask := by
  rw [cronList, tableList]
  cases regex mask with
  | none => exact ⟨rfl, rfl⟩
  | some isMatch =>
    simp only [h.load hOs hBase]
    exact ⟨trivial, rfl⟩

end Calls

theorem CronCall.run_simulates (hCron : Accepting makeCron) (version : Version) :
    Simulates (CronCall.run P version makeCron regex) (cronTable version makeCron regex)
      (CronCall.Allowed P t₀ baseDir) (CronsStand t₀ baseDir) := by
  intro t crons c hAllowed h
  obtain ⟨ctx, hContext₀, hBase⟩ := hAllowed.context
  have hContext := h.context hContext₀ hBase
  have hOs := hAllowed.faultless
  have hJob := hAllowed.hasJob
  obtain ⟨p, args, daemonStarts⟩ := c
  by_cases hVersion : args = ["--version".toList]
  · simp only [CronCall.run, cronTable, hVersion, if_true]
    exact ⟨h, trivial⟩
  simp only [CronCall.run, cronTable, hVersion, if_false, hContext]
  obtain _ | ⟨option, _ | ⟨first, _ | ⟨second, _ | ⟨third, rest⟩⟩⟩⟩ := args
  · exact ⟨h, rfl⟩
  · dsimp only [cisCronMain]
    split_ifs
    all_goals exact ⟨h, rfl⟩
  · dsimp only [cisCronMain]
    split_ifs with hList
    · obtain ⟨hTree, hAnswer⟩ := h.list hOs hBase first
      refine ⟨?_, hAnswer⟩
      rw [hTree]
      exact h
    · exact ⟨h, rfl⟩
  · dsimp only [cisCronMain]
    split_ifs with hAdd hDel
    · subst hAdd
      exact h.add hOs hBase hCron (hJob first second rfl)
    · exact h.del hOs hBase
    · exact ⟨h, rfl⟩
  · exact ⟨h, rfl⟩

/-- To its callers, `cis_cron` is one table in memory: every run answers as that
table does, and the file of the site holds it. -/
theorem cis_cron_refines (hCron : Accepting makeCron) (version : Version)
    (hSaved : t.content (baseDir / "core" / "crons") = some (saveText crons))
    (hProper : ∀ e ∈ crons, e.HasJob ∧ e.HasExpr) {calls : List CronCall}
    (hCalls : ∀ c ∈ calls, c.Allowed P t baseDir) :
    CronsStand t baseDir (answers (CronCall.run P version makeCron regex) t calls).1
        (answers (cronTable version makeCron regex) crons calls).1 ∧
      (answers (CronCall.run P version makeCron regex) t calls).2 =
        (answers (cronTable version makeCron regex) crons calls).2 :=
  (CronCall.run_simulates hCron version).answers hCalls
    ⟨hSaved, hProper, FileTree.SameOutside.refl _ t⟩

/-! ### A small table -/

/-- Masks without a special character. -/
def literalMask (mask : Str) : Option (Str → Bool) :=
  if mask.all (fun c => c.isAlphanum) then some fun job => job == mask else none

def cronSite : FileTree :=
  .ofList [([], .directory), (["core".toList], .directory), (["cis.conf".toList, "core".toList], .file [] false),
    (["crons".toList, "core".toList], .file (saveText ∅) false)]

def cronCalls : List CronCall :=
  [⟨siteProcess siteEnv 7 1, ["--add", "0 * * * * *", "a"], true⟩,
    ⟨siteProcess siteEnv 8 1, ["--list", "a"], true⟩, ⟨siteProcess siteEnv 9 1, ["--list", "["], true⟩,
    ⟨siteProcess siteEnv 10 1, ["--del", "1 * * * * *", "a"], true⟩]

theorem cis_cron_refines_four :
    CronsStand cronSite [] (answers (CronCall.run .reference scriptVersion sixFields literalMask)
        cronSite cronCalls).1 (answers (cronTable scriptVersion sixFields literalMask) ∅ cronCalls).1 ∧
      (answers (CronCall.run .reference scriptVersion sixFields literalMask) cronSite cronCalls).2 =
        (answers (cronTable scriptVersion sixFields literalMask) ∅ cronCalls).2 := by
  refine cis_cron_refines sixFields_accepting scriptVersion (by decide)
    (fun e he => absurd he (SortedSet.not_mem_empty e)) fun c hc => ?_
  simp only [cronCalls, List.mem_cons, List.not_mem_nil, or_false] at hc
  obtain rfl | rfl | rfl | rfl := hc
  all_goals refine ⟨Os.ideal_faultless _, ⟨_, rfl, rfl⟩, ?_⟩
  · rintro cron job h
    obtain ⟨rfl, rfl⟩ : "0 * * * * *".toList = cron ∧ "a".toList = job := by simpa using h
    decide
  all_goals simp

end CisCore
