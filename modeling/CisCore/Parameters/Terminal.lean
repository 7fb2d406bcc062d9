import CisCore.Lineage
import CisCore.Parameters.Colon

/-! # Parameters from the terminal

A process that has opened its session asks for each parameter in turn. An empty
line, and the end of the input, keeps the default; a line that cannot be decoded
ends the process before anything has been done.
-/

namespace CisCore

/-- What a typed line makes of a default. -/
def typedValue (P : ProtoUtils) (default line : Str) : Option Str :=
  if line.isEmpty then some default else P.decodeParam line

/-- The first typed line that cannot be decoded is that of the parameter at this place. -/
structure FirstInvalid (P : ProtoUtils) (params : List (Str × Str)) (stdin : List Str) (i : Nat) :
    Prop where
  invalid : ∃ k v, params[i]? = some (k, v) ∧ typedValue P v (stdin.getD i []) = none
  first : ∀ j < i, ∀ k v, params[j]? = some (k, v) → typedValue P v (stdin.getD j []) ≠ none

def prompts (params : List (Str × Str)) : List Str := params.map fun e => prompt e.1 e.2

variable {P : ProtoUtils} {params chosen : List (Str × Str)} {stdin asked : List Str}

/-! ### The questions -/

theorem askParams_cons_none {k v : Str} (h : typedValue P v (stdin.headD []) = none) :
    askParams P ((k, v) :: params) stdin = ([prompt k v, "Invalid params"], none) := by
  rw [typedValue] at h
  simp only [askParams, h]

theorem askParams_cons_some {k v value : Str} (h : typedValue P v (stdin.headD []) = some value) :
    askParams P ((k, v) :: params) stdin =
      (prompt k v :: (askParams P params stdin.tail).1,
        (askParams P params stdin.tail).2.map ((k, value) :: ·)) := by
  rw [typedValue] at h
  simp only [askParams, h]

theorem getD_tail (stdin : List Str) (i : Nat) : stdin.tail.getD i [] = stdin.getD (i + 1) [] := by
  cases stdin <;> rfl

theorem getD_zero (stdin : List Str) : stdin.getD 0 [] = stdin.headD [] := by
  cases stdin <;> rfl

theorem FirstInvalid.askParams {i : Nat} (h : FirstInvalid P params stdin i) :
    CisCore.askParams P params stdin =
      (prompts (params.take (i + 1)) ++ ["Invalid params".toList], none) := by
  induction params generalizing stdin i with
  | nil =>
    obtain ⟨k, v, hParam, _⟩ := h.invalid
    cases hParam
  | cons e params ih =>
    obtain ⟨k, v⟩ := e
    cases i with
    | zero =>
      obtain ⟨k', v', hParam, hTyped⟩ := h.invalid
      cases hParam
      rw [askParams_cons_none (getD_zero stdin ▸ hTyped)]
      rfl
    | succ i =>
      obtain ⟨value, hValue⟩ := Option.ne_none_iff_exists'.mp (h.first 0 (Nat.succ_pos i) k v rfl)
      have hRest : FirstInvalid P params stdin.tail i := by
        constructor
        · obtain ⟨k', v', hParam, hTyped⟩ := h.invalid
          exact ⟨k', v', hParam, (getD_tail stdin i).symm ▸ hTyped⟩
        · intro j hj k' v' hParam
          rw [getD_tail]
          exact h.first (j + 1) (Nat.succ_lt_succ hj) k' v' hParam
      rw [askParams_cons_some (getD_zero stdin ▸ hValue), ih hRest]
      rfl

theorem askParams_eq_some (h : askParams P params stdin = (asked, some chosen)) :
    asked = prompts params ∧ chosen.map Prod.fst = params.map Prod.fst ∧
      ∀ i k v, params[i]? = some (k, v) →
        ∃ value, typedValue P v (stdin.getD i []) = some value ∧ chosen[i]? = some (k, value) := by
  induction params generalizing stdin asked chosen with
  | nil =>
    obtain ⟨rfl, rfl⟩ : [] = asked ∧ [] = chosen := by simpa [askParams] using h
    exact ⟨rfl, rfl, fun i k v hParam => by cases hParam⟩
  | cons e params ih =>
    obtain ⟨k, v⟩ := e
    cases hTyped : typedValue P v (stdin.headD []) with
    | none =>
      rw [askParams_cons_none hTyped] at h
      cases h
    | some value =>
      rw [askParams_cons_some hTyped] at h
      obtain ⟨hAsked, hChosen⟩ := Prod.mk.inj h
      obtain ⟨rest, hRest, rfl⟩ := Option.map_eq_some_iff.mp hChosen
      have hSplit : askParams P params stdin.tail = ((askParams P params stdin.tail).1, some rest) :=
        Prod.ext rfl hRest
      obtain ⟨hPrompts, hNames, hValues⟩ := ih hSplit
      refine ⟨?_, by rw [List.map_cons, hNames]; rfl, fun i k' v' hParam => ?_⟩
      · rw [← hAsked, hPrompts]
        rfl
      cases i with
      | zero =>
        cases hParam
        exact ⟨value, getD_zero stdin ▸ hTyped, rfl⟩
      | succ i =>
        obtain ⟨value', hValue, hGet⟩ := hValues i k' v' hParam
        exact ⟨value', getD_tail stdin i ▸ hValue, hGet⟩

/-! ### From the terminal to the script -/

theorem getKvFile_encodedLines (hP : P.Lawful) (hNames : (chosen.map Prod.fst).Nodup)
    (hBack : ∀ e ∈ chosen, P.ParsesBack e) {os : Os} (hOs : os.Faultless) {t : FileTree} {path : FsPath}
    (hContent : t.content path = some (P.encodedLines chosen)) (e : ErrorCode) (name : Str) :
    getKvFile P os t path e name =
      (some (((chosen.find? fun e => e.1 = name).map Prod.snd).getD []), none) := by
  obtain ⟨m, hMap, hFind⟩ := hP.readKv_find (hP.read_encodedLines hBack) hNames
  have hName : m.find name = (chosen.find? fun e => e.1 = name).map Prod.snd := by
    cases hSearch : chosen.find? fun e => e.1 = name with
    | none =>
      apply Option.eq_none_iff_forall_ne_some.mpr
      intro value hValue
      have hNone := List.find?_eq_none.mp hSearch _ ((hFind name value).mp hValue)
      exact hNone (decide_eq_true rfl)
    | some found =>
      obtain rfl : found.1 = name := by simpa using List.find?_some hSearch
      exact (hFind found.1 found.2).mpr (List.mem_of_find?_eq_some hSearch)
  rw [getKvFile, readKvFile_present hOs hContent, hMap]
  simp only [hName]

/-- Every value a script reads was typed for its parameter, or is its default. -/
structure TypedBuild (p : JobProcess P) (declared : List (Str × Str)) (launch : Launch)
    (chosen : List (Str × Str)) : Prop where
  names : chosen.map Prod.fst = declared.map Prod.fst
  typed : ∀ i k v, declared[i]? = some (k, v) →
    ∃ value, typedValue P v (p.stdin.getD i []) = some value ∧ chosen[i]? = some (k, value)
  asked : p.session.sessionId :: prompts declared <+: p.result.stdout
  reads : (∀ e ∈ chosen, P.ParsesBack e) → ':' ∉ p.jobName →
    ∀ (reader : Os) (t : FileTree) (ctx : Context), reader.Faultless → reader.SplitsAtColon →
      reader.environment = launch.env → ctx.baseDir = p.ctx.baseDir →
      t.content (p.buildDir / "job.params") = launch.tree.content (p.buildDir / "job.params") →
      ∀ name, getParam P reader t ctx name =
        (some (((chosen.find? fun e => e.1 = name).map Prod.snd).getD []), none)

/-- A process that asks for its parameters stops at the first line that cannot
be decoded and has done nothing. The script it launches otherwise reads what
was typed. -/
theorem terminal_params_reach_script (hP : P.Lawful) {p : JobProcess P} {job : Job}
    (hOpened : p.session.openedByMe = true) (hArgs : p.args.params = none)
    (hLoad : loadJob P p.os p.tree p.ctx p.jobName = .ok job) (hParams : job.config.params ≠ [])
    (hNames : (job.config.params.map Prod.fst).Nodup) :
    (∀ i, FirstInvalid P job.config.params p.stdin i →
      p.result = ⟨p.tree, 1, p.session.sessionId :: prompts (job.config.params.take (i + 1)) ++
        ["Invalid params".toList], [], none, none, none, none, none⟩) ∧
    ∀ launch, p.result.launch = some launch →
      ∃ chosen, TypedBuild p job.config.params launch chosen := by
  have hChoose : chooseParams P p.os p.tree p.sessionCtx p.session p.args p.stdin
      job.config.params = askParams P job.config.params p.stdin :=
    if_pos ⟨hParams, hOpened, hArgs⟩
  constructor
  · intro i hInvalid
    have hSession : loadJob P p.os p.tree p.sessionCtx p.args.jobName = .ok job :=
      (loadJob_congr (invokeSession_baseDir p.os p.freshSessionId p.ctx p.args.newSession) p.tree
        p.jobName).trans hLoad
    rw [hInvalid.askParams] at hChoose
    change startjobIn P p.os p.session p.sessionCtx p.tree p.args p.stdin p.script = _
    simp only [startjobIn, hSession, hChoose]
    rfl
  · intro launch hLaunch
    obtain ⟨job', asked, chosen, hLoad', hChosen, hStdout, _, hContent⟩ :=
      JobProcess.launched_build hLaunch
    obtain rfl : job = job' := Except.ok.inj (hLoad.symm.trans hLoad')
    obtain ⟨rfl, hSame, hTyped⟩ := askParams_eq_some (hChoose.symm.trans hChosen)
    refine ⟨chosen, hSame, hTyped, hStdout, ?_⟩
    intro hBack hColon reader t ctx hReader hSplits hEnv hBase hKept name
    obtain ⟨hJob, hNumber⟩ := JobProcess.find_launch_build hLaunch
    rw [getParam, Os.getEnvVar_eq_self hSplits (hEnv ▸ hJob) hColon,
      Os.getEnvVar_eq_self hSplits (hEnv ▸ hNumber) (colon_not_mem_numberString _), hBase]
    exact getKvFile_encodedLines hP (hSame ▸ hNames) hBack hReader (hKept.trans hContent) _ name

/-- The site's job with one parameter, for which a value is typed. -/
def typedJob : JobProcess .reference where
  toProcess := siteProcess siteEnv 7 1
  tree := (siteTree "j").insert ["job.params".toList, "j".toList, "jobs".toList]
    (.file (ProtoUtils.reference.encodedLines oneParam) false)
  args := ⟨"j", false, false, none⟩
  stdin := ["x".toList]
  script _ := ⟨[], some 0⟩
  ctx := makeContext (siteProcess siteEnv 7 1) [] ∅
  started := rfl

def typedConfig : Job :=
  ⟨"j", ⟨"s", 1, 1, oneParam⟩, loadBuilds typedJob.os typedJob.tree (jobPath typedJob.ctx "j")⟩

theorem typedJob_loads :
    loadJob .reference typedJob.os typedJob.tree typedJob.ctx typedJob.jobName = .ok typedConfig := rfl

theorem terminal_params_reach_script_typed :
    (∀ i, FirstInvalid .reference typedConfig.config.params typedJob.stdin i →
      typedJob.result = ⟨typedJob.tree, 1, typedJob.session.sessionId ::
        prompts (typedConfig.config.params.take (i + 1)) ++ ["Invalid params".toList], [], none, none,
        none, none, none⟩) ∧
    ∀ launch, typedJob.result.launch = some launch →
      ∃ chosen, TypedBuild typedJob typedConfig.config.params launch chosen :=
  terminal_params_reach_script ProtoUtils.reference_lawful rfl rfl typedJob_loads (by decide) (by decide)

example : typedJob.result.launch.isSome = true ∧
    typedValue .reference "d" (typedJob.stdin.getD 0 []) = some ['x'] := by decide

end CisCore
