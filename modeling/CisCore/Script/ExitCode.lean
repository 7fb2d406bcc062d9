import CisCore.Job.Cleanup
import CisCore.Script.Python
import CisCore.Session.InitContext
import CisCore.Startjob

/-! # The exit code that a script sees

`startjob` of `CisCurrentBuild` reads the output of a `startjob` process to its
end and looks for the exit code in the last line. The maintenance process,
started at the end of `startjob`, writes to the same pipe.
-/

namespace Python

/-- The zeros of the decimal digits that `\d` matches and `int` reads. -/
def decimalZeros : List Nat :=
  [0x30, 0x660, 0x6f0, 0x7c0, 0x966, 0x9e6, 0xa66, 0xae6, 0xb66, 0xbe6, 0xc66, 0xce6, 0xd66, 0xde6,
    0xe50, 0xed0, 0xf20, 0x1040, 0x1090, 0x17e0, 0x1810, 0x1946, 0x19d0, 0x1a80, 0x1a90, 0x1b50,
    0x1bb0, 0x1c40, 0x1c50, 0xa620, 0xa8d0, 0xa900, 0xa9d0, 0xa9f0, 0xaa50, 0xabf0, 0xff10, 0x104a0,
    0x10d30, 0x11066, 0x110f0, 0x11136, 0x111d0, 0x112f0, 0x11450, 0x114d0, 0x11650, 0x116c0,
    0x11730, 0x118e0, 0x11950, 0x11c50, 0x11d50, 0x11da0, 0x16a60, 0x16ac0, 0x16b50, 0x1d7ce,
    0x1d7d8, 0x1d7e2, 0x1d7ec, 0x1d7f6, 0x1e140, 0x1e2f0, 0x1e950, 0x1fbf0]

def decimalDigit (c : Char) : Option Nat :=
  (decimalZeros.find? fun z => z ≤ c.toNat && c.toNat < z + 10).map (c.toNat - ·)

/-- The number that `re.match("Exit code: (\d+)", line)` captures. -/
def matchExitCode (line : List Char) : Option Nat :=
  if "Exit code: ".toList.isPrefixOf line then
    let digits := (line.drop 11).takeWhile fun c => (decimalDigit c).isSome
    if digits.isEmpty then none
    else some (digits.foldl (fun n c => 10 * n + (decimalDigit c).getD 0) 0)
  else none

end Python

namespace CisCore

section Model

variable (P : ProtoUtils)

def startjobProcess (p : Process) (t : FileTree) (args : StartjobArgs) (stdin : List Str)
    (script : Launch → ScriptRun) : StartjobResult :=
  match initContext P p t with
  | .error e => ⟨t, 1, [], [message p.os.strerror (fail e)], none, none, none, none, none⟩
  | .ok ctx => startjob P p.os t ctx p.freshSessionId args stdin script

/-- `maintenance --job`; without a context it writes nothing to its output. -/
def maintenanceProcess (q : Process) (t : FileTree) (jobName : Str) :
    FileTree × List Str × Nat :=
  match initContext P q t with
  | .error _ => (t, [], 1)
  | .ok ctx => maintenanceMain P q.os t ctx jobName

/-- The lines of the process that is spawned, which takes its second argument
for the name of the job. -/
def maintenanceOutput (q : Process) (t : FileTree) (spawn : Spawn) : List Str :=
  (maintenanceProcess P q t (spawn.args.getD 1 [])).2.1

/-- What comes out of the pipe before all its writers have closed it. -/
def pipeText (r : StartjobResult) (maintain : Spawn → List Str) : Str :=
  outputText r.stdout ++ ((r.maintenance.map fun spawn => outputText (maintain spawn)).getD [])

/-- `CisCurrentBuild.startjob`; `none` where it raises. -/
def CurrentBuild.startjob (p : Process) (t : FileTree) (stdin : List Str)
    (script : Launch → ScriptRun) (maintain : Spawn → List Str) (name : PyStr) :
    Option (Nat × Option Nat) := do
  let args ← Python.popenArgs [name]
  let r := startjobProcess P p t ⟨args.headD [], false, false, none⟩ stdin script
  let text ← Utf8.decode (pipeText r maintain)
  let lastLine := Python.lastLine (Python.translateNewlines text)
  some (r.exitStatus, Python.matchExitCode lastLine)

/-- The process finds no context, or it loads the job and cleans it up. -/
def MaintenanceSilent (q : Process) (t : FileTree) (jobName : Str) : Prop :=
  ∀ ctx, initContext P q t = .ok ctx →
    ∃ job, loadJob P q.os t ctx jobName = .ok job ∧ (job.cleanup q.os t).2.2 = none

end Model

/-- One line of single-byte characters that is not taken for an exit code. -/
def Plain (line : Str) : Bool :=
  (line.all fun c => c.toNat < 128 && c != '\n' && c != '\r') &&
    !("Exit code: ".toList.isPrefixOf line)

end CisCore

/-! ### Reading the exit code -/

namespace Python

theorem decimalDigit_of_isDigit {c : Char} (h : c.isDigit = true) :
    decimalDigit c = some (c.toNat - 48) := by
  obtain ⟨hLe, hGe⟩ := Text.digit_toNat h
  obtain ⟨zeros, hZeros⟩ : ∃ zeros, decimalZeros = 0x30 :: zeros := ⟨_, rfl⟩
  rw [decimalDigit, hZeros, List.find?_cons_of_pos, Option.map_some]
  simp only [Bool.and_eq_true, decide_eq_true_eq]
  omega

theorem takeWhile_decimal (n : Nat) :
    (Text.decimal n ++ ['\n']).takeWhile (fun c => (decimalDigit c).isSome) = Text.decimal n := by
  rw [List.takeWhile_append_of_pos]
  · have hNewline : decimalDigit '\n' = none := by decide
    simp [hNewline]
  · intro c hc
    rw [decimalDigit_of_isDigit (Text.isDigit_of_mem_decimal hc)]
    rfl

theorem foldl_decimalDigit {digits : List Char} (h : ∀ c ∈ digits, c.isDigit = true) (n : Nat) :
    digits.foldl (fun n c => 10 * n + (decimalDigit c).getD 0) n = Nat.ofDigitChars 10 digits n := by
  induction digits generalizing n with
  | nil => rfl
  | cons c digits ih =>
    rw [List.foldl_cons, Nat.ofDigitChars_cons, ih fun d hd => h d (List.mem_cons_of_mem _ hd),
      decimalDigit_of_isDigit (h c List.mem_cons_self)]
    rfl

theorem matchExitCode_decimal (n : Nat) :
    matchExitCode ("Exit code: ".toList ++ Text.decimal n ++ ['\n']) = some n := by
  have hPrefix : "Exit code: ".toList.isPrefixOf ("Exit code: ".toList ++ Text.decimal n ++ ['\n']) =
      true := by
    rw [List.isPrefixOf_iff_prefix, List.append_assoc]
    exact List.prefix_append _ _
  have hDrop : ("Exit code: ".toList ++ Text.decimal n ++ ['\n']).drop 11 =
      Text.decimal n ++ ['\n'] := by
    rw [List.append_assoc]
    exact List.drop_left' (by decide)
  have hEmpty : (Text.decimal n).isEmpty = false := by
    simpa using Text.decimal_ne_nil n
  rw [matchExitCode, if_pos hPrefix]
  simp only [hDrop, takeWhile_decimal, hEmpty, Bool.false_eq_true, if_false]
  rw [foldl_decimalDigit fun c hc => Text.isDigit_of_mem_decimal hc]
  exact congrArg some (Text.digitsValue_decimal n)

end Python

namespace CisCore

variable {P : ProtoUtils}

/-! ### The last line of the pipe -/

theorem ErrorCode.message_plain (code : ErrorCode) : Plain code.message = true := by
  cases code <;> decide

theorem message_plain {strerror : Errno → Str} (h : ∀ errno, Plain (strerror errno) = true)
    (e : ErrorValue) : Plain (message strerror (some e)) = true := by
  cases e with
  | system errno => exact h errno
  | core code => exact code.message_plain

theorem Plain.line {line : Str} (h : Plain line = true) :
    (∀ c ∈ line, c.toNat < 128) ∧ '\n' ∉ line ∧ '\r' ∉ line ∧ ¬"Exit code: ".toList <+: line := by
  simp only [Plain, Bool.and_eq_true, List.all_eq_true, decide_eq_true_eq, bne_iff_ne,
    Bool.not_eq_true', ← Bool.not_eq_true, List.isPrefixOf_iff_prefix] at h
  obtain ⟨hChars, hPrefix⟩ := h
  exact ⟨fun c hc => (hChars c hc).1.1, fun hMem => (hChars _ hMem).1.2 rfl,
    fun hMem => (hChars _ hMem).2 rfl, hPrefix⟩

/-- The line that ends a decoded stream, when it is one of single-byte characters. -/
theorem lastLine_of_decode {out line : Str} {text : List Char}
    (hAscii : ∀ c ∈ line, c.toNat < 128) (hNewline : '\n' ∉ line) (hCr : '\r' ∉ line)
    (h : Utf8.decode (out ++ '\n' :: (line ++ ['\n'])) = some text) :
    Python.lastLine (Python.translateNewlines text) = line ++ ['\n'] := by
  have hSuffix : ∀ c ∈ '\n' :: (line ++ ['\n']), c.toNat < 128 := by
    intro c hc
    simp only [List.mem_cons, List.mem_append, List.not_mem_nil, or_false] at hc
    obtain rfl | hc | rfl := hc
    · decide
    · exact hAscii c hc
    · decide
  obtain ⟨before, rfl, _⟩ := Utf8.exists_of_encode_append hSuffix (Utf8.encode_of_decode h)
  obtain ⟨before', hTranslate⟩ := Python.translateNewlines_append before (line ++ ['\n'])
  have hKept : Python.translateNewlines (line ++ ['\n']) = line ++ ['\n'] :=
    Python.translateNewlines_of_not_mem (by simp [hCr])
  rw [hTranslate, hKept, Python.lastLine_append hNewline]

theorem matchExitCode_plain {line : Str} (h : ¬"Exit code: ".toList <+: line) :
    Python.matchExitCode (line ++ ['\n']) = none := by
  have hPrefix : ¬"Exit code: ".toList.isPrefixOf (line ++ ['\n']) = true := by
    rw [List.isPrefixOf_iff_prefix, List.prefix_concat_iff]
    rintro (hEq | hPrefix)
    · have hLast := congrArg List.getLast? hEq
      simp at hLast
    · exact h hPrefix
  rw [Python.matchExitCode, if_neg hPrefix]

theorem maintenanceProcess_lines (q : Process) (t : FileTree) (jobName : Str) :
    (MaintenanceSilent P q t jobName ∧ (maintenanceProcess P q t jobName).2.1 = []) ∨
      ¬MaintenanceSilent P q t jobName ∧
        ∃ e, (maintenanceProcess P q t jobName).2.1 = [message q.os.strerror (some e)] := by
  unfold maintenanceProcess MaintenanceSilent
  cases hContext : initContext P q t with
  | error e => exact Or.inl ⟨fun _ h => (nomatch h), rfl⟩
  | ok ctx =>
    simp only [maintenanceMain]
    cases hLoad : loadJob P q.os t ctx jobName with
    | error e =>
      refine Or.inr ⟨fun h => ?_, _, rfl⟩
      obtain ⟨job, hJob, _⟩ := h ctx rfl
      rw [hLoad] at hJob
      cases hJob
    | ok job =>
      rcases hCleanup : job.cleanup q.os t with ⟨t', job', _ | e⟩
      · refine Or.inl ⟨fun _ h => ?_, by simp only [hCleanup]⟩
        cases h
        exact ⟨job, hLoad, by rw [hCleanup]⟩
      · refine Or.inr ⟨fun h => ?_, e, by simp only [hCleanup]⟩
        obtain ⟨job₁, hJob, hClear⟩ := h ctx rfl
        rw [hLoad] at hJob
        cases hJob
        rw [hCleanup] at hClear
        cases hClear

/-! ### The whole pipe -/

theorem outputText_concat (lines : List Str) (line line' : Str) :
    outputText (lines ++ [line, line']) =
      outputText lines ++ line ++ '\n' :: (line' ++ ['\n']) := by
  simp only [outputText, List.flatMap_append, List.flatMap_cons, List.flatMap_nil, List.append_nil,
    List.append_assoc, List.cons_append, List.nil_append]

theorem exitCodeText_of_nonneg {n : Int32} (hn : 0 ≤ n.toInt) :
    exitCodeText n = "Exit code: ".toList ++ Text.decimal n.toInt.natAbs := by
  have hText : Text.intText n.toInt = Text.decimal n.toInt.natAbs := by
    rw [Text.intText, if_neg (Int.not_lt.mpr hn)]
  exact congrArg ("Exit code: ".toList ++ ·) hText

theorem digit_plain {c : Char} (h : c.isDigit = true) : c.toNat < 128 ∧ c ≠ '\n' ∧ c ≠ '\r' := by
  have hRange := Text.digit_toNat h
  refine ⟨by omega, ?_, ?_⟩
  · rintro rfl
    exact absurd hRange (by decide)
  · rintro rfl
    exact absurd hRange (by decide)

theorem exitCodeText_plain {n : Int32} (hn : 0 ≤ n.toInt) :
    (∀ c ∈ exitCodeText n, c.toNat < 128) ∧ '\n' ∉ exitCodeText n ∧ '\r' ∉ exitCodeText n := by
  have hPrefix : ("Exit code: ".toList.all fun c => c.toNat < 128 && c != '\n' && c != '\r') = true := by
    decide
  simp only [List.all_eq_true, Bool.and_eq_true, decide_eq_true_eq, bne_iff_ne] at hPrefix
  have hChar : ∀ c ∈ exitCodeText n, c.toNat < 128 ∧ c ≠ '\n' ∧ c ≠ '\r' := by
    intro c hc
    rw [exitCodeText_of_nonneg hn] at hc
    obtain hc | hc := List.mem_append.mp hc
    · exact ⟨(hPrefix c hc).1.1, (hPrefix c hc).1.2, (hPrefix c hc).2⟩
    · exact digit_plain (Text.isDigit_of_mem_decimal hc)
  exact ⟨fun c hc => (hChar c hc).1, fun hMem => (hChar _ hMem).2.1 rfl,
    fun hMem => (hChar _ hMem).2.2 rfl⟩

theorem startjobProcess_success {p : Process} {t : FileTree} {args : StartjobArgs} {stdin : List Str}
    {script : Launch → ScriptRun} (h : (startjobProcess P p t args stdin script).exitStatus = 0) :
    ∃ (lines : List Str) (started : Str) (ctx : Context),
      (startjobProcess P p t args stdin script).stdout = lines ++ [started, exitCodeText
        ((startjobProcess P p t args stdin script).recorded.getD (-1))] ∧
      (startjobProcess P p t args stdin script).maintenance =
        some (spawnMaintenance p.os ctx args.jobName) := by
  unfold startjobProcess at h ⊢
  cases hContext : initContext P p t with
  | error e =>
    rw [hContext] at h
    cases h
  | ok ctx =>
    rw [hContext] at h
    exact startjob_success P p.os h

/-- A run that succeeds is read together with what the maintenance process writes. -/
theorem currentBuild_startjob_eq {p q : Process} {t t' : FileTree} {stdin : List Str}
    {script : Launch → ScriptRun} {name : PyStr} {jobName : Str}
    (hArgs : Python.popenArgs [name] = some [jobName])
    (hExit : (startjobProcess P p t ⟨jobName, false, false, none⟩ stdin script).exitStatus = 0) :
    CurrentBuild.startjob P p t stdin script (maintenanceOutput P q t') name =
      (Utf8.decode (outputText
          (startjobProcess P p t ⟨jobName, false, false, none⟩ stdin script).stdout ++
          outputText (maintenanceProcess P q t' jobName).2.1)).map fun text =>
        (0, Python.matchExitCode (Python.lastLine (Python.translateNewlines text))) := by
  obtain ⟨_, _, _, _, hSpawn⟩ := startjobProcess_success hExit
  rw [CurrentBuild.startjob, hArgs]
  simp only [Option.bind_eq_bind, Option.bind_some, List.headD_cons, pipeText, hSpawn, hExit,
    Option.map_some, Option.getD_some, maintenanceOutput, spawnMaintenance]
  exact (Option.map_eq_bind ..).symm

/-- The message of the maintenance process ends the stream and hides the exit code. -/
theorem currentBuild_startjob_loud {p q : Process} {t t' : FileTree} {stdin : List Str}
    {script : Launch → ScriptRun} {name : PyStr} {jobName : Str}
    (hTexts : ∀ errno, Plain (q.os.strerror errno) = true)
    (hArgs : Python.popenArgs [name] = some [jobName])
    (hExit : (startjobProcess P p t ⟨jobName, false, false, none⟩ stdin script).exitStatus = 0)
    (hLoud : ¬MaintenanceSilent P q t' jobName) :
    CurrentBuild.startjob P p t stdin script (maintenanceOutput P q t') name =
      (Utf8.decode (outputText
          (startjobProcess P p t ⟨jobName, false, false, none⟩ stdin script).stdout ++
          outputText (maintenanceProcess P q t' jobName).2.1)).map fun _ => (0, none) := by
  obtain ⟨lines, started, _, hStdout, _⟩ := startjobProcess_success hExit
  obtain ⟨hSilent, _⟩ | ⟨_, e, hLine⟩ := maintenanceProcess_lines q t' jobName
  · exact absurd hSilent hLoud
  rw [currentBuild_startjob_eq hArgs hExit]
  apply Option.map_congr
  intro text hText
  obtain ⟨hAscii, hNewline, hCr, hPrefix⟩ := Plain.line (message_plain hTexts e)
  have hMessage : outputText [message q.os.strerror (some e)] =
      message q.os.strerror (some e) ++ ['\n'] := List.append_nil _
  rw [hStdout, outputText_concat, hLine, hMessage] at hText
  generalize exitCodeText _ = exitLine at hText
  have hShape : outputText lines ++ started ++ '\n' :: (exitLine ++ ['\n']) ++
      (message q.os.strerror (some e) ++ ['\n']) =
      (outputText lines ++ started ++ '\n' :: exitLine) ++
        '\n' :: (message q.os.strerror (some e) ++ ['\n']) := by
    simp only [List.append_assoc, List.cons_append, List.nil_append]
  rw [hShape] at hText
  rw [lastLine_of_decode hAscii hNewline hCr hText, matchExitCode_plain hPrefix]

/-- A script sees the exit code of a build exactly if the output of `startjob`
is text and the maintenance process adds nothing to it. -/
theorem exit_code_reported_iff {p q : Process} {t t' : FileTree} {stdin : List Str}
    {script : Launch → ScriptRun} {name : PyStr} {jobName : Str} {n : Int32}
    (hTexts : ∀ errno, Plain (q.os.strerror errno) = true)
    (hArgs : Python.popenArgs [name] = some [jobName])
    (hExit : (startjobProcess P p t ⟨jobName, false, false, none⟩ stdin script).exitStatus = 0)
    (hRecorded : (startjobProcess P p t ⟨jobName, false, false, none⟩ stdin script).recorded = some n)
    (hn : 0 ≤ n.toInt) :
    CurrentBuild.startjob P p t stdin script (maintenanceOutput P q t') name =
        some (0, some n.toInt.natAbs) ↔
      (Utf8.decode (outputText
        (startjobProcess P p t ⟨jobName, false, false, none⟩ stdin script).stdout)).isSome = true ∧
        MaintenanceSilent P q t' jobName := by
  by_cases hSilent : MaintenanceSilent P q t' jobName
  · obtain ⟨lines, started, _, hStdout, _⟩ := startjobProcess_success hExit
    obtain ⟨_, hNoLine⟩ | ⟨hLoud, _⟩ := maintenanceProcess_lines q t' jobName
    · have hNothing : outputText [] = [] := rfl
      rw [hRecorded, Option.getD_some] at hStdout
      rw [currentBuild_startjob_eq hArgs hExit, hNoLine, hNothing, List.append_nil, hStdout,
        outputText_concat]
      constructor
      · intro h
        obtain ⟨text, hText, _⟩ := Option.map_eq_some_iff.mp h
        exact ⟨by rw [hText]; rfl, hSilent⟩
      · rintro ⟨hSome, _⟩
        obtain ⟨hAscii, hNewline, hCr⟩ := exitCodeText_plain hn
        obtain ⟨text, hText⟩ := Option.isSome_iff_exists.mp hSome
        rw [hText, Option.map_some, lastLine_of_decode hAscii hNewline hCr hText,
          exitCodeText_of_nonneg hn, Python.matchExitCode_decimal]
    · exact absurd hSilent hLoud
  · rw [currentBuild_startjob_loud hTexts hArgs hExit hSilent]
    refine ⟨fun h => ?_, fun h => absurd h.2 hSilent⟩
    obtain ⟨_, _, hNone⟩ := Option.map_eq_some_iff.mp h
    cases hNone

/-! ### A build and its maintenance -/

theorem popenArgs_j : Python.popenArgs [Python.ofText "j".toList] = some ["j".toList] := by
  have hArg : Utf8.encode "j".toList = "j".toList := Utf8.encode_of_ascii (by decide)
  refine Python.popenArgs_one.mpr ⟨"j".toList, ?_, by decide, rfl⟩
  rw [Python.fsencode_ofText, hArg]

def reportedRun : StartjobResult :=
  startjobProcess .reference (siteProcess siteEnv 7 1) (siteTree "j") ⟨"j", false, false, none⟩ []
    fun _ => ⟨[], some 0⟩

theorem reportedRun_success : reportedRun.exitStatus = 0 ∧ reportedRun.recorded = some 0 := by
  decide

/-- What the script sees of that run when its maintenance finds the given tree. -/
def reportedExitCode (t : FileTree) : Option (Nat × Option Nat) :=
  CurrentBuild.startjob .reference (siteProcess siteEnv 7 1) (siteTree "j") []
    (fun _ => ⟨[], some 0⟩) (maintenanceOutput .reference (siteProcess siteEnv 8 7) t)
    (Python.ofText "j".toList)

theorem exit_code_reported_iff_one :
    reportedExitCode (siteTree "j") = some (0, some 0) ↔
      (Utf8.decode (outputText reportedRun.stdout)).isSome = true ∧
        MaintenanceSilent .reference (siteProcess siteEnv 8 7) (siteTree "j") "j" :=
  exit_code_reported_iff (n := 0) (fun _ => rfl) popenArgs_j reportedRun_success.1
    reportedRun_success.2 (by decide)

/-- When the job is gone by the time of its maintenance, the message about it is
the last line. -/
theorem exit_code_hidden_by_maintenance :
    reportedRun.exitStatus = 0 ∧ reportedRun.recorded = some 0 ∧
      reportedExitCode (siteTree "k") = some (0, none) := by
  have hLoud : ¬MaintenanceSilent .reference (siteProcess siteEnv 8 7) (siteTree "k") "j" := by
    intro h
    obtain ⟨_, hLoad, _⟩ := h _ rfl
    cases hLoad
  have hAscii : (outputText reportedRun.stdout ++ outputText (maintenanceProcess .reference
      (siteProcess siteEnv 8 7) (siteTree "k") "j").2.1).all (·.toNat < 128) = true := by
    decide
  refine ⟨reportedRun_success.1, reportedRun_success.2, ?_⟩
  have hRead := currentBuild_startjob_loud (fun _ => rfl) popenArgs_j reportedRun_success.1 hLoud
  exact hRead.trans (congrArg (Option.map fun _ => (0, none)) (Utf8.decode_of_ascii hAscii))

end CisCore
