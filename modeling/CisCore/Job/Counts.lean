import CisCore.Job.Acceptance
import CisCore.Job.Interrupted

/-! # The counts of `job.conf`

How many builds of a kind a cleanup keeps is what `stoul` makes of a text, cut to 32
bits: signs, numbers that are too large and texts that go on behind the digits are
numbers too.
-/

namespace CisCore

open Fallible

/-- The text is the number in decimal digits, and the number has 32 bits. -/
def IsCount (text : Str) (n : Nat) : Prop :=
  text ≠ [] ∧ (∀ c ∈ text, c.isDigit = true) ∧ Text.digitsValue text = n ∧ n < 2 ^ 32

/-- Behind white space and a sign there is no digit, or a number of more than 64 bits. -/
def NoNumber (text : Str) : Prop :=
  Text.numberDigits text = [] ∨ 2 ^ 64 ≤ Text.digitsValue (Text.numberDigits text)

/-- Behind white space and a sign there is a number, and it is negative, has more than 32
bits or is followed by other characters. -/
def NotTheCount (text : Str) : Prop :=
  ∃ space sign digits rest, text = space ++ sign ++ digits ++ rest ∧
    (∀ c ∈ space, Text.isSpace c = true) ∧ sign ∈ ([[], ['+'], ['-']] : List Str) ∧
    digits ≠ [] ∧ (∀ c ∈ digits, c.isDigit = true) ∧ (∀ c ∈ rest.head?, c.isDigit = false) ∧
    (sign = ['-'] ∨ 2 ^ 32 ≤ Text.digitsValue digits ∨ rest ≠ [])

section Model

variable (P : ProtoUtils) (os : Os) (t : FileTree) (ctx : Context) (jobName : Str)

/-- The directory is there and its `job.conf` has the two texts as counts. -/
structure HasCounts (keepSuccessful keepBroken : Str) : Prop where
  directory : os.pathExists t (jobPath ctx jobName) = (true, none)
  conf : ∃ text conf script, os.openIfstream t (jobPath ctx jobName / "job.conf") = some text ∧
    P.readIstreamKvStr text false = some conf ∧ conf.find "script" = some script ∧
    conf.find "keep_last_success_builds" = some keepSuccessful ∧
    conf.find "keep_last_break_builds" = some keepBroken

/-- The script of `job.conf` is there and `job.params` can be read. -/
def RestLoads : Prop :=
  ∃ text conf script, os.openIfstream t (jobPath ctx jobName / "job.conf") = some text ∧
    P.readIstreamKvStr text false = some conf ∧ conf.find "script" = some script ∧
    os.surelyExists t (jobPath ctx jobName / script) = true ∧
    ∃ params, loadParams P os t (jobPath ctx jobName) = .ok params

/-- A job that is loaded keeps the numbers of builds that the two texts are, and a number
that is not the count is refused. -/
def KeepsCounts (keepSuccessful keepBroken : Str) : Prop :=
  (∀ job, loadJob P os t ctx jobName = .ok job → ∃ n m, IsCount keepSuccessful n ∧
    IsCount keepBroken m ∧ ∀ (remover : Os) (t' : FileTree),
      (∀ dir, remover.removeAllFault dir = none) →
      (job.cleanup remover t').2.2 = none ∧
      KeepsLargest n job.builds.successful (job.cleanup remover t').2.1.builds.successful ∧
      KeepsLargest m job.builds.broken (job.cleanup remover t').2.1.builds.broken) ∧
    (NotTheCount keepSuccessful ∨ NotTheCount keepBroken →
      loadJob P os t ctx jobName = .error .cantReadJobConfFile)

end Model

variable {P : ProtoUtils} {os : Os} {t : FileTree} {ctx : Context} {jobName : Str}
  {keepSuccessful keepBroken : Str}

theorem u32FromString_eq_none_iff {text : Str} : u32FromString text = none ↔ NoNumber text := by
  rw [u32FromString, Option.map_eq_none_iff]
  exact Text.stoul_eq_none_iff

theorem IsCount.u32FromString {text : Str} {n : Nat} (h : IsCount text n) :
    CisCore.u32FromString text = some n := by
  obtain ⟨hne, hDigits, rfl, hLt⟩ := h
  rw [CisCore.u32FromString, Text.stoul_digits hDigits hne (hLt.trans (by decide)), Option.map_some,
    Nat.mod_eq_of_lt hLt]

theorem IsCount.not_notTheCount {text : Str} {n : Nat} (h : IsCount text n) : ¬NotTheCount text := by
  rintro ⟨space, sign, digits, rest, rfl, hSpace, hSign, -, -, hRest, hWrong⟩
  obtain ⟨-, hDigits, hValue, hLt⟩ := h
  have hNoSpace : space = [] := by
    refine List.eq_nil_iff_forall_not_mem.mpr fun c hc => ?_
    have hDigit : c.isDigit = true := hDigits c (by simp [hc])
    have hIsSpace := hSpace c hc
    rw [Text.isSpace_of_isDigit hDigit] at hIsSpace
    cases hIsSpace
  have hNoSign : sign = [] := by
    simp only [List.mem_cons, List.not_mem_nil, or_false] at hSign
    obtain rfl | rfl | rfl := hSign
    · rfl
    · exact absurd (hDigits '+' (by simp)) (by decide)
    · exact absurd (hDigits '-' (by simp)) (by decide)
  have hNoRest : rest = [] := by
    cases rest with
    | nil => rfl
    | cons c rest =>
      have hDigit : c.isDigit = true := hDigits c (by simp)
      rw [hRest c rfl] at hDigit
      cases hDigit
  subst hNoSpace hNoSign hNoRest
  obtain hMinus | hLarge | hMore := hWrong
  · cases hMinus
  · simp only [List.nil_append, List.append_nil] at hValue
    omega
  · exact hMore rfl

theorem HasCounts.loadJob_config (h : HasCounts P os t ctx jobName keepSuccessful keepBroken)
    {job : Job} (hLoad : loadJob P os t ctx jobName = .ok job) :
    u32FromString keepSuccessful = some job.config.keepSuccessfulBuilds ∧
      u32FromString keepBroken = some job.config.keepBrokenBuilds := by
  obtain ⟨text, conf, script, hText, hConf, _, hKs, hKb⟩ := h.conf
  obtain ⟨text', conf', hText', hConf', hCounts, _⟩ := loadJob_eq_ok hLoad
  cases hText.symm.trans hText'
  cases hConf.symm.trans hConf'
  obtain ⟨_, ⟨ks, hFindKs, hSuccessful⟩, kb, hFindKb, hBroken⟩ := jobCounts_eq_some_iff.mp hCounts
  cases hKs.symm.trans hFindKs
  cases hKb.symm.trans hFindKb
  exact ⟨hSuccessful, hBroken⟩

theorem HasCounts.refused_iff (h : HasCounts P os t ctx jobName keepSuccessful keepBroken) :
    loadJob P os t ctx jobName = .error .cantReadJobConfFile ↔
      u32FromString keepSuccessful = none ∨ u32FromString keepBroken = none := by
  obtain ⟨text, conf, script, hText, hConf, hScript, hKs, hKb⟩ := h.conf
  have hCounts : jobCounts conf = none ↔
      u32FromString keepSuccessful = none ∨ u32FromString keepBroken = none := by
    simp only [jobCounts, hScript, hKs, hKb, Option.getD_some]
    cases u32FromString keepSuccessful with
    | none => simp
    | some ks => cases u32FromString keepBroken <;> simp
  have hParams : loadParams P os t (jobPath ctx jobName) ≠ .error .cantReadJobConfFile := by
    intro hParams
    rw [loadParams] at hParams
    split at hParams
    · cases hParams
    · cases (orThrow_eq_error.mp hParams).2
  rw [← hCounts]
  simp only [loadJob, loadConfig, bind_eq_error, require_eq_error, orThrow_eq_error, require_eq_ok,
    orThrow_eq_ok, Os.surelyExists_iff.mpr h.directory, hText]
  simp [hConf, hParams, pure, Except.pure]

theorem restLoads_of_loadJob {job : Job} (h : loadJob P os t ctx jobName = .ok job) :
    RestLoads P os t ctx jobName := by
  simp only [loadJob, loadConfig, bind_eq_ok, require_eq_ok, orThrow_eq_ok, pure_eq_ok] at h
  obtain ⟨_, _, _, ⟨text, hText, conf, hConf, ⟨script, ks, kb⟩, hCounts, _, hScript, params, hParams,
    _⟩, _⟩ := h
  obtain ⟨hFind, _⟩ := jobCounts_eq_some_iff.mp hCounts
  exact ⟨text, conf, script, hText, hConf, hFind, hScript, params, hParams⟩

theorem HasCounts.loads (h : HasCounts P os t ctx jobName keepSuccessful keepBroken)
    (hRest : RestLoads P os t ctx jobName) {ks kb : Nat} (hSuccessful : u32FromString keepSuccessful = some ks)
    (hBroken : u32FromString keepBroken = some kb) : ∃ job, loadJob P os t ctx jobName = .ok job := by
  obtain ⟨text, conf, _, hText, hConf, _, hKs, hKb⟩ := h.conf
  obtain ⟨text', conf', script, hText', hConf', hScript, hFound, params, hParams⟩ := hRest
  cases hText.symm.trans hText'
  cases hConf.symm.trans hConf'
  have hCounts : jobCounts conf = some (script, ks, kb) := by
    exact jobCounts_eq_some_iff.mpr ⟨hScript, ⟨_, hKs, hSuccessful⟩, _, hKb, hBroken⟩
  simp only [loadJob, loadConfig, bind_eq_ok, require_eq_ok, orThrow_eq_ok, pure_eq_ok]
  exact ⟨_, (), Os.surelyExists_iff.mpr h.directory, _, ⟨text, hText, conf, hConf, _, hCounts, (),
    hFound, params, hParams, rfl⟩, rfl⟩

/-- The counts of a job are those that its `job.conf` names exactly if both texts are
decimal numbers of 32 bits, or one of them holds no number at all, or neither is a wrong
number and something else is missing. -/
theorem keeps_counts_iff (h : HasCounts P os t ctx jobName keepSuccessful keepBroken) :
    KeepsCounts P os t ctx jobName keepSuccessful keepBroken ↔
      ((∃ n, IsCount keepSuccessful n) ∧ ∃ m, IsCount keepBroken m) ∨
        (NoNumber keepSuccessful ∨ NoNumber keepBroken) ∨
        ¬NotTheCount keepSuccessful ∧ ¬NotTheCount keepBroken ∧ ¬RestLoads P os t ctx jobName := by
  have hRefused := h.refused_iff
  rw [← u32FromString_eq_none_iff, ← u32FromString_eq_none_iff, ← hRefused]
  constructor
  · rintro ⟨hKeeps, hWrong⟩
    by_cases hError : loadJob P os t ctx jobName = .error .cantReadJobConfFile
    · exact Or.inr (Or.inl hError)
    have hNotWrong := mt hWrong hError
    by_cases hRest : RestLoads P os t ctx jobName
    · -- both texts are numbers, so the job is loaded and the numbers are the counts
      rw [hRefused, not_or] at hError
      obtain ⟨ks, hKs⟩ := Option.ne_none_iff_exists'.mp hError.1
      obtain ⟨kb, hKb⟩ := Option.ne_none_iff_exists'.mp hError.2
      obtain ⟨job, hLoad⟩ := h.loads hRest hKs hKb
      obtain ⟨n, m, hn, hm, _⟩ := hKeeps job hLoad
      exact Or.inl ⟨⟨n, hn⟩, m, hm⟩
    · exact Or.inr (Or.inr ⟨(not_or.mp hNotWrong).1, (not_or.mp hNotWrong).2, hRest⟩)
  · rintro (⟨⟨n, hn⟩, m, hm⟩ | hError | ⟨hKs, hKb, hRest⟩)
    · refine ⟨fun job hLoad => ⟨n, m, hn, hm, fun remover t' hFaults => ?_⟩, ?_⟩
      · obtain ⟨hKs, hKb⟩ := h.loadJob_config hLoad
        obtain rfl := Option.some.inj (hn.u32FromString.symm.trans hKs)
        obtain rfl := Option.some.inj (hm.u32FromString.symm.trans hKb)
        rw [cleanup_faultless fun dir _ => hFaults dir]
        exact ⟨rfl, keepsLargest_dropLeast _ _, keepsLargest_dropLeast _ _⟩
      · rintro (hWrong | hWrong)
        · exact absurd hWrong hn.not_notTheCount
        · exact absurd hWrong hm.not_notTheCount
    · refine ⟨fun job hLoad => ?_, fun _ => hError⟩
      rw [hError] at hLoad
      cases hLoad
    · refine ⟨fun job hLoad => absurd (restLoads_of_loadJob hLoad) hRest, ?_⟩
      rintro (hWrong | hWrong)
      · exact absurd hWrong hKs
      · exact absurd hWrong hKb

theorem keeps_counts_iff_two :
    KeepsCounts .reference (.ideal ∅) (demoTree "2" []) demoContext "j" "2" "2" ↔
      ((∃ n, IsCount "2" n) ∧ ∃ m, IsCount "2" m) ∨ (NoNumber "2" ∨ NoNumber "2") ∨
        ¬NotTheCount "2" ∧ ¬NotTheCount "2" ∧
          ¬RestLoads .reference (.ideal ∅) (demoTree "2" []) demoContext "j" :=
  keeps_counts_iff ⟨rfl, _, _, _, rfl, rfl, rfl, rfl, rfl⟩

/-- The job is to keep 2^32 builds of either kind and has one. -/
def manyKept : FileTree :=
  demoTree "4294967296" [(jobPath demoContext "j" / "000000", .directory),
    (jobPath demoContext "j" / "000000" / "exitcode.txt", .file (exitcodeText 0) false)]

/-- It keeps none. -/
theorem kept_build_removed :
    HasCounts .reference (.ideal ∅) manyKept demoContext "j" "4294967296" "4294967296" ∧
      (∃ job, loadJob .reference (.ideal ∅) manyKept demoContext "j" = .ok job ∧
        job.builds.successful.size = 1 ∧
        (job.cleanup (.ideal ∅) manyKept).2.1.builds.successful.size = 0 ∧
        (job.cleanup (.ideal ∅) manyKept).1.pathExists
          (jobPath demoContext "j" / "000000") = false) ∧
      ¬KeepsCounts .reference (.ideal ∅) manyKept demoContext "j" "4294967296" "4294967296" := by
  refine ⟨⟨rfl, _, _, _, rfl, rfl, rfl, rfl, rfl⟩, ⟨_, rfl, rfl, rfl, rfl⟩, ?_⟩
  rintro ⟨hKeeps, _⟩
  obtain ⟨n, _, ⟨_, _, rfl, hLt⟩, _⟩ := hKeeps _ rfl
  revert hLt
  decide

end CisCore
