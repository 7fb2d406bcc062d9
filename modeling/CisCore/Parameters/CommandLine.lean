import CisCore.Startjob

/-! # Parameters on the command line

The words behind `--params` are names and values in turn. The pairs overwrite one
another in a map, and the declared parameters look themselves up there.
-/

namespace CisCore

/-- The last even position with the word, as a half of it. -/
def LastNamed (words : List Str) (k : Str) (j : Nat) : Prop :=
  words[2 * j]? = some k ∧ ∀ i, j < i → words[2 * i]? ≠ some k

/-! ### Words and pairs -/

theorem getElem?_paramPairs (words : List Str) (j : Nat) :
    (paramPairs words)[j]? = (words[2 * j]?).map fun k => (k, (words[2 * j + 1]?).getD []) := by
  induction words using paramPairs.induct generalizing j with
  | case1 => simp [paramPairs]
  | case2 k =>
    cases j with
    | zero => rfl
    | succ j => simp [paramPairs, Nat.mul_succ]
  | case3 k v rest ih =>
    cases j with
    | zero => rfl
    | succ j =>
      rw [paramPairs, List.getElem?_cons_succ, ih j]
      rfl

theorem paramPairs_append {before : List Str} (h : before.length % 2 = 0) (after : List Str) :
    paramPairs (before ++ after) = paramPairs before ++ paramPairs after := by
  induction before using paramPairs.induct with
  | case1 => rfl
  | case2 k => cases h
  | case3 k v rest ih =>
    have hRest : rest.length % 2 = 0 := by
      rw [List.length_cons, List.length_cons] at h
      omega
    rw [List.cons_append, List.cons_append, paramPairs, paramPairs, ih hRest, List.cons_append]

/-! ### The values of names -/

variable {words : List Str} {k : Str}

theorem find_preparedParams_last {j : Nat} (h : LastNamed words k j) :
    (preparedParams words).find k = some ((words[2 * j + 1]?).getD []) := by
  have hPair : (paramPairs words)[j]? = some (k, (words[2 * j + 1]?).getD []) := by
    rw [getElem?_paramPairs, h.1, Option.map_some]
  obtain ⟨hLt, hGet⟩ := List.getElem?_eq_some_iff.mp hPair
  have hSplit : paramPairs words = (paramPairs words).take j ++
      (k, (words[2 * j + 1]?).getD []) :: (paramPairs words).drop (j + 1) := by
    rw [← hGet, ← List.drop_eq_getElem_cons hLt, List.take_append_drop]
  rw [preparedParams, hSplit]
  apply SortedMap.find_ofList_of_last
  rintro ⟨k', v⟩ hMem rfl
  obtain ⟨i, hi⟩ := List.mem_iff_getElem?.mp hMem
  rw [List.getElem?_drop, getElem?_paramPairs] at hi
  obtain ⟨k', hWord, hEq⟩ := Option.map_eq_some_iff.mp hi
  cases hEq
  exact h.2 (j + 1 + i) (by omega) hWord

theorem find_preparedParams_absent (h : ∀ j, words[2 * j]? ≠ some k) :
    (preparedParams words).find k = none := by
  apply SortedMap.find_ofList_of_not_mem
  rintro ⟨k', v⟩ hMem rfl
  obtain ⟨j, hj⟩ := List.mem_iff_getElem?.mp hMem
  rw [getElem?_paramPairs] at hj
  obtain ⟨k', hWord, hEq⟩ := Option.map_eq_some_iff.mp hj
  cases hEq
  exact h j hWord

/-- A pair does not matter to other names. -/
theorem find_preparedParams_of_ne {before : List Str} (h : before.length % 2 = 0) {k' : Str}
    (hne : k' ≠ k) (v : Str) (after : List Str) :
    (preparedParams (before ++ k :: v :: after)).find k' =
      (preparedParams (before ++ after)).find k' := by
  rw [preparedParams, preparedParams, paramPairs_append h, paramPairs_append h, paramPairs]
  exact SortedMap.find_ofList_of_ne _ _ v hne

theorem find_preparedParams_tail {before : List Str} (h : before.length % 2 = 0) {k' : Str}
    (hne : k' ≠ k) :
    (preparedParams (before ++ [k])).find k' = (preparedParams before).find k' := by
  have hPairs : paramPairs (before ++ [k]) = paramPairs before ++ (k, []) :: [] :=
    paramPairs_append h [k]
  rw [preparedParams, preparedParams, hPairs, SortedMap.find_ofList_of_ne _ _ [] hne,
    List.append_nil]

/-! ### What the build is prepared with -/

theorem overrideParams_names (values : SortedMap Str Str) (params : List (Str × Str)) :
    (overrideParams values params).map Prod.fst = params.map Prod.fst := by
  rw [overrideParams, List.map_map]
  rfl

theorem getElem?_overrideParams {params : List (Str × Str)} {i : Nat} {default : Str}
    (h : params[i]? = some (k, default)) (values : SortedMap Str Str) :
    (overrideParams values params)[i]? = some (k, (values.find k).getD default) := by
  rw [overrideParams, List.getElem?_map, h, Option.map_some]

theorem overrideParams_congr {values values' : SortedMap Str Str} {params : List (Str × Str)}
    (h : ∀ k ∈ params.map Prod.fst, values.find k = values'.find k) :
    overrideParams values params = overrideParams values' params := by
  apply List.map_congr_left
  intro e he
  rw [h e.1 (List.mem_map_of_mem he)]

section Startjob

variable {P : ProtoUtils} {os : Os} {t : FileTree} {ctx : Context} {args : StartjobArgs} {job : Job}

theorem chooseParams_words (h : args.params = some words) (session : Session) (stdin : List Str)
    (params : List (Str × Str)) :
    chooseParams P os t ctx session args stdin params =
      ([], some (overrideParams (preparedParams words) params)) := by
  simp only [chooseParams, h, reduceCtorEq, and_false, if_false]

/-- All that the words decide is the parameters that the build is prepared with. -/
theorem startjob_words (hLoad : loadJob P os t ctx args.jobName = .ok job) (freshId : Str)
    (stdin : List Str) (script : Launch → ScriptRun) :
    ∃ (rest : List (Str × Str) → StartjobResult) (session : Session)
        (env : Nat → SortedMap Str Str),
      (∀ words, startjob P os t ctx freshId { args with params := some words } stdin script =
        rest (overrideParams (preparedParams words) job.config.params)) ∧
      ∀ params, (rest params).build =
          (job.runBuild P os t ctx session params env args.force script).handle ∧
        (rest params).launch =
          (job.runBuild P os t ctx session params env args.force script).launch ∧
        (rest params).recorded =
          (job.runBuild P os t ctx session params env args.force script).recorded := by
  have hBase := invokeSession_baseDir os freshId ctx args.newSession
  rcases hInvoke : invokeSession os freshId ctx args.newSession with ⟨session, ctx'⟩
  rw [hInvoke] at hBase
  change ctx'.baseDir = ctx.baseDir at hBase
  have hLoad' : loadJob P os t ctx' args.jobName = .ok job := (loadJob_congr hBase t _).trans hLoad
  have hChoose : ∀ words, chooseParams P os t ctx' session { args with params := some words } stdin
      job.config.params = ([], some (overrideParams (preparedParams words) job.config.params)) :=
    fun words => chooseParams_words rfl session stdin _
  refine ⟨fun params =>
    let env := fun number => (exportBuild os ctx' args.jobName number).env
    let run := job.runBuild P os t ctx session params env args.force script
    run.ec.elim
      (finishBuild P os (exportBuild os ctx' args.jobName (run.handle.getD 0)) session args.jobName
        (run.handle.getD 0) [session.sessionId] run)
      fun e => ⟨run.tree, 1, [session.sessionId], [message os.strerror (some e)], run.handle,
        run.launch, run.recorded, none, none⟩,
    session, fun number => (exportBuild os ctx' args.jobName number).env, fun words => ?_,
    fun params => ?_⟩
  · simp only [startjob, hInvoke, startjobIn, hLoad', hChoose, runBuild_congr P os job t hBase,
      List.append_nil]
    split
    · rename_i e hError
      rw [hError, Option.elim_some]
    · rename_i hClear
      rw [hClear, Option.elim_none]
  · simp only
    cases hEc : (job.runBuild P os t ctx session params
      (fun number => (exportBuild os ctx' args.jobName number).env) args.force script).ec with
    | some e => exact ⟨rfl, rfl, rfl⟩
    | none =>
      obtain ⟨hBuild, hLaunch, hRecorded, _⟩ := finishBuild_effect P os
        (exportBuild os ctx' args.jobName ((job.runBuild P os t ctx session params
          (fun number => (exportBuild os ctx' args.jobName number).env) args.force
          script).handle.getD 0)) session args.jobName _ _ _
      exact ⟨hBuild, hLaunch, hRecorded⟩

end Startjob

/-- With words on the command line the build is prepared with the declared names in their
order; each has the word behind its last even position, or its default. The words of other
names change nothing. -/
theorem startjob_command_line {P : ProtoUtils} {os : Os} {t : FileTree} {ctx : Context}
    (args : StartjobArgs) {job : Job} (hWords : args.params = some words)
    (hLoad : loadJob P os t ctx args.jobName = .ok job) (freshId : Str) (stdin : List Str)
    (script : Launch → ScriptRun) :
    (∃ (params : List (Str × Str)) (session : Session) (env : Nat → SortedMap Str Str)
        (run : BuildRun),
      run = job.runBuild P os t ctx session params env args.force script ∧
      (startjob P os t ctx freshId args stdin script).build = run.handle ∧
      (startjob P os t ctx freshId args stdin script).launch = run.launch ∧
      (startjob P os t ctx freshId args stdin script).recorded = run.recorded ∧
      params.map Prod.fst = job.config.params.map Prod.fst ∧
      ∀ (i : Nat) (k default : Str), job.config.params[i]? = some (k, default) →
        (∀ j, LastNamed words k j → params[i]? = some (k, (words[2 * j + 1]?).getD [])) ∧
        ((∀ j, words[2 * j]? ≠ some k) → params[i]? = some (k, default))) ∧
    ∀ before k after, k ∉ job.config.params.map Prod.fst → before.length % 2 = 0 →
      (∀ v, words = before ++ k :: v :: after →
        startjob P os t ctx freshId args stdin script =
          startjob P os t ctx freshId { args with params := some (before ++ after) } stdin script) ∧
      (words = before ++ [k] → startjob P os t ctx freshId args stdin script =
        startjob P os t ctx freshId { args with params := some before } stdin script) := by
  obtain ⟨rest, session, env, hStartjob, hRest⟩ := startjob_words hLoad freshId stdin script
  have hArgs : startjob P os t ctx freshId args stdin script =
      rest (overrideParams (preparedParams words) job.config.params) := by
    rw [← hStartjob, ← hWords]
  rw [hArgs]
  constructor
  · obtain ⟨hBuild, hLaunch, hRecorded⟩ :=
      hRest (overrideParams (preparedParams words) job.config.params)
    refine ⟨_, session, env, _, rfl, hBuild, hLaunch, hRecorded, overrideParams_names _ _,
      fun i k default hDeclared => ⟨fun j hLast => ?_, fun hAbsent => ?_⟩⟩
    · rw [getElem?_overrideParams hDeclared, find_preparedParams_last hLast, Option.getD_some]
    · rw [getElem?_overrideParams hDeclared, find_preparedParams_absent hAbsent, Option.getD_none]
  · intro before k after hUndeclared hEven
    have hOther : ∀ k' ∈ job.config.params.map Prod.fst, k' ≠ k := by
      rintro k' hk' rfl
      exact hUndeclared hk'
    refine ⟨fun v hEq => ?_, fun hEq => ?_⟩
    · rw [hStartjob, hEq]
      exact congrArg rest (overrideParams_congr fun k' hk' =>
        find_preparedParams_of_ne hEven (hOther k' hk') v after)
    · rw [hStartjob, hEq]
      exact congrArg rest (overrideParams_congr fun k' hk' =>
        find_preparedParams_tail hEven (hOther k' hk'))

/-- A job that declares `p` and `q`. -/
def twoParams : FileTree :=
  demoTree "1" [(["job.params".toList, "j".toList, "jobs".toList], .file "p=d\nq=e\n" false)]

/-- The name `q` is a value too, and the last word. -/
def pqWords : List Str := ["p", "1", "x", "q", "p", "2", "q"]

theorem startjob_command_line_pq :
    ∃ job, loadJob .reference (.ideal ∅) twoParams demoContext "j" = .ok job ∧
      ∃ (params : List (Str × Str)) (session : Session) (env : Nat → SortedMap Str Str),
        (startjob .reference (.ideal ∅) twoParams demoContext "f" ⟨"j", true, false, some pqWords⟩ []
            fun _ => ⟨[], some 0⟩).launch =
          (job.runBuild .reference (.ideal ∅) twoParams demoContext session params env false
            fun _ => ⟨[], some 0⟩).launch ∧
        params[0]? = some ("p".toList, "2".toList) ∧ params[1]? = some ("q".toList, []) := by
  have hLoad : ∃ job, loadJob .reference (.ideal ∅) twoParams demoContext "j" = .ok job ∧
      job.config.params = [("p".toList, "d".toList), ("q".toList, "e".toList)] := ⟨_, rfl, by decide⟩
  obtain ⟨job, hLoad, hParams⟩ := hLoad
  obtain ⟨params, session, env, run, rfl, _, hLaunch, _, _, hValues⟩ :=
    (startjob_command_line ⟨"j", true, false, some pqWords⟩ rfl hLoad "f" []
      fun _ => ⟨[], some 0⟩).1
  have hP : LastNamed pqWords "p" 2 := by
    refine ⟨rfl, fun i hi => ?_⟩
    obtain rfl | hi : i = 3 ∨ 4 ≤ i := by omega
    · decide
    · rw [List.getElem?_eq_none (by simp only [pqWords, List.length_cons, List.length_nil]; omega)]
      simp
  have hQ : LastNamed pqWords "q" 3 := by
    refine ⟨rfl, fun i hi => ?_⟩
    rw [List.getElem?_eq_none (by simp only [pqWords, List.length_cons, List.length_nil]; omega)]
    simp
  refine ⟨job, hLoad, params, session, env, hLaunch, ?_, ?_⟩
  · exact (hValues 0 "p" "d" (by rw [hParams]; rfl)).1 2 hP
  · exact (hValues 1 "q" "e" (by rw [hParams]; rfl)).1 3 hQ

end CisCore
