import CisCore.Library.Transition
import CisCore.Session.Store
import CisCore.Startjob

/-! # The last job of a session

Every child of a session publishes its build there in two calls. The calls are
atomic here, and the rest of the tree may change in between.
-/

namespace CisCore

open Transition

/-- A child of the session with the build that it has executed. -/
structure Child where
  os : Os
  jobName : Str
  number : Nat

inductive PublishStage where
  | start
  | named
  | finished (ec : Ec)

def PublishStage.afterName : Ec → PublishStage
  | none => named
  | some e => finished (some e)

structure Children (ι : Type) where
  tree : FileTree
  stage : ι → PublishStage

inductive PublishAction (ι : Type) where
  | setName (i : ι)
  | setNumber (i : ι)
  /-- A change that leaves the values of the session alone. -/
  | elsewhere (t : FileTree)

def PublishAction.naming {ι : Type} : PublishAction ι → Option ι
  | setName i => some i
  | _ => none

def PublishAction.numbering {ι : Type} : PublishAction ι → Option ι
  | setNumber i => some i
  | _ => none

section Model

variable (P : ProtoUtils) (ctx : Context) (session : Session)

def Child.setName (c : Child) (t : FileTree) : FileTree × Ec :=
  setValue P c.os t ctx session "last_job_name" c.jobName

def Child.setNumber (c : Child) (t : FileTree) : FileTree × Ec :=
  setValue P c.os t ctx session "last_job_build_number" (numberString c.number)

variable {ι : Type} [DecidableEq ι] (children : ι → Child)

def Children.step (s : Children ι) : PublishAction ι → Option (Children ι)
  | .setName i =>
    match s.stage i with
    | .start =>
      let r := (children i).setName P ctx session s.tree
      some ⟨r.1, Function.update s.stage i (.afterName r.2)⟩
    | _ => none
  | .setNumber i =>
    match s.stage i with
    | .named =>
      let r := (children i).setNumber P ctx session s.tree
      some ⟨r.1, Function.update s.stage i (.finished r.2)⟩
    | _ => none
  | .elsewhere t =>
    if t.find (sessionDat ctx session) = s.tree.find (sessionDat ctx session) then
      some ⟨t, s.stage⟩
    else none

/-- No child makes its first call between the two calls of another one. -/
def Children.Undisturbed (s : Children ι) (a : PublishAction ι) : Prop :=
  ∀ i, a.naming = some i → ∀ j, s.stage j ≠ .named

end Model

variable {P : ProtoUtils} {ctx : Context} {session : Session}

section Runs

variable {ι : Type} {children : ι → Child}

/-- What the session stands for after the calls of a history in which none failed. -/
structure Children.Inv (P : ProtoUtils) (ctx : Context) (session : Session) (children : ι → Child)
    (order : List (PublishAction ι)) (s : Children ι) (m : SortedMap Str Str) : Prop where
  stores : Stores P s.tree (sessionDat ctx session) m
  name : ∀ i, (order.filterMap PublishAction.naming).getLast? = some i →
    m.find "last_job_name" = some (children i).jobName
  number : ∀ i, (order.filterMap PublishAction.numbering).getLast? = some i →
    m.find "last_job_build_number" = some (numberString (children i).number)
  hasNamed : ∀ i, s.stage i ≠ .start → i ∈ order.filterMap PublishAction.naming
  hasNumbered : ∀ i ec, s.stage i = .finished ec → i ∈ order.filterMap PublishAction.numbering

@[simp] theorem filterMap_naming_concat (order : List (PublishAction ι)) (a : PublishAction ι) :
    (order ++ [a]).filterMap PublishAction.naming =
      order.filterMap PublishAction.naming ++ a.naming.toList := by
  rw [List.filterMap_append]
  cases a <;> rfl

@[simp] theorem filterMap_numbering_concat (order : List (PublishAction ι)) (a : PublishAction ι) :
    (order ++ [a]).filterMap PublishAction.numbering =
      order.filterMap PublishAction.numbering ++ a.numbering.toList := by
  rw [List.filterMap_append]
  cases a <;> rfl

theorem Children.inv_start {before : SortedMap Str Str} {t : FileTree}
    (h : Stores P t (sessionDat ctx session) before) :
    Children.Inv P ctx session children [] ⟨t, fun _ => .start⟩ before where
  stores := h
  name _ hLast := by cases hLast
  number _ hLast := by cases hLast
  hasNamed _ hStage := absurd rfl hStage
  hasNumbered _ _ hStage := by cases hStage

def Children.Clear (s : Children ι) : Prop := ∀ i e, s.stage i ≠ .finished (some e)

variable [DecidableEq ι]

theorem Children.step_cases {s s' : Children ι} {a : PublishAction ι}
    (h : s.step P ctx session children a = some s') :
    (∃ i, a = .setName i ∧ s.stage i = .start ∧
      s' = ⟨((children i).setName P ctx session s.tree).1, Function.update s.stage i
        (.afterName ((children i).setName P ctx session s.tree).2)⟩) ∨
    (∃ i, a = .setNumber i ∧ s.stage i = .named ∧
      s' = ⟨((children i).setNumber P ctx session s.tree).1, Function.update s.stage i
        (.finished ((children i).setNumber P ctx session s.tree).2)⟩) ∨
    ∃ t, a = .elsewhere t ∧
      t.find (sessionDat ctx session) = s.tree.find (sessionDat ctx session) ∧ s' = ⟨t, s.stage⟩ := by
  cases a with
  | setName i =>
    cases hStage : s.stage i with
    | start =>
      simp only [Children.step, hStage, Option.some.injEq] at h
      exact Or.inl ⟨i, rfl, hStage, h.symm⟩
    | named => simp [Children.step, hStage] at h
    | finished ec => simp [Children.step, hStage] at h
  | setNumber i =>
    cases hStage : s.stage i with
    | start => simp [Children.step, hStage] at h
    | named =>
      simp only [Children.step, hStage, Option.some.injEq] at h
      exact Or.inr (Or.inl ⟨i, rfl, hStage, h.symm⟩)
    | finished ec => simp [Children.step, hStage] at h
  | elsewhere t =>
    simp only [Children.step, Option.ite_none_right_eq_some, Option.some.injEq] at h
    exact Or.inr (Or.inr ⟨t, rfl, h.1, h.2.symm⟩)

theorem Children.clear_of_step {s s' : Children ι} {a : PublishAction ι}
    (h : s.step P ctx session children a = some s') (hClear : s'.Clear) : s.Clear := by
  intro i e hStage
  have hKept : ∀ k stage, s.stage k ≠ .finished (some e) →
      Function.update s.stage k stage i = .finished (some e) := by
    intro k stage hk
    rw [Function.update_of_ne, hStage]
    rintro rfl
    exact hk hStage
  apply hClear i e
  obtain ⟨k, _, hk, rfl⟩ | ⟨k, _, hk, rfl⟩ | ⟨t, _, _, rfl⟩ := Children.step_cases h
  · exact hKept k _ (by rw [hk]; exact PublishStage.noConfusion)
  · exact hKept k _ (by rw [hk]; exact PublishStage.noConfusion)
  · exact hStage

/-- The calls of one child without interruption are what `startjob` does. -/
theorem children_steps_eq_publishBuild (hJoined : session.openedByMe = false) (s : Children ι)
    (i : ι) (hStart : s.stage i = .start) :
    ∃ order s', run (Children.step P ctx session children) s order = some s' ∧
      (s'.tree, s'.stage i) = ((publishBuild P (children i).os s.tree ctx session
          (children i).jobName (children i).number).1,
        .finished (publishBuild P (children i).os s.tree ctx session
          (children i).jobName (children i).number).2) := by
  have hMine : ¬session.openedByMe = true := by
    rw [hJoined]
    exact Bool.false_ne_true
  rcases hName : (children i).setName P ctx session s.tree with ⟨t, _ | e⟩
  · have hPublish : publishBuild P (children i).os s.tree ctx session (children i).jobName
        (children i).number = (children i).setNumber P ctx session t := by
      rw [Child.setName] at hName
      rw [publishBuild, if_neg hMine, hName]
      rfl
    rw [hPublish]
    refine ⟨[.setName i, .setNumber i], ⟨((children i).setNumber P ctx session t).1,
      Function.update (Function.update s.stage i .named) i
        (.finished ((children i).setNumber P ctx session t).2)⟩, ?_, ?_⟩
    · simp only [run, Children.step, hStart, hName, Option.bind_some, Function.update_self,
        PublishStage.afterName]
    · simp only [Function.update_self]
  · have hPublish : publishBuild P (children i).os s.tree ctx session (children i).jobName
        (children i).number = (t, some e) := by
      rw [Child.setName] at hName
      rw [publishBuild, if_neg hMine, hName]
    rw [hPublish]
    refine ⟨[.setName i], ⟨t, Function.update s.stage i (.finished (some e))⟩, ?_, ?_⟩
    · simp only [run, Children.step, hStart, hName, Option.bind_some, PublishStage.afterName]
    · simp only [Function.update_self]

theorem Child.setName_stores (hP : P.Lawful) {c : Child} (hName : '\r' ∉ c.jobName) {t t' : FileTree}
    {m : SortedMap Str Str} (h : Stores P t (sessionDat ctx session) m)
    (hSet : c.setName P ctx session t = (t', none)) :
    Stores P t' (sessionDat ctx session) (m.insert "last_job_name" c.jobName) := by
  have hKey : ("last_job_name" : Str) ≠ [] := by decide
  exact setKvFile_clear_refines hP h ⟨hKey, hName⟩ hSet

theorem Child.setNumber_stores (hP : P.Lawful) {c : Child} {t t' : FileTree}
    {m : SortedMap Str Str} (h : Stores P t (sessionDat ctx session) m)
    (hSet : c.setNumber P ctx session t = (t', none)) :
    Stores P t' (sessionDat ctx session)
      (m.insert "last_job_build_number" (numberString c.number)) := by
  have hKey : ("last_job_build_number" : Str) ≠ [] := by decide
  have hDigits : '\r' ∉ numberString c.number :=
    fun hMem => numberString_ne hMem (by decide) c.number rfl
  exact setKvFile_clear_refines hP h ⟨hKey, hDigits⟩ hSet

theorem Children.Inv.step (hP : P.Lawful) (hNames : ∀ i, '\r' ∉ (children i).jobName)
    {order : List (PublishAction ι)} {s s' : Children ι} {a : PublishAction ι}
    {m : SortedMap Str Str} (h : s.Inv P ctx session children order m) (hClear : s'.Clear)
    (hStep : s.step P ctx session children a = some s') :
    ∃ m', s'.Inv P ctx session children (order ++ [a]) m' := by
  obtain ⟨k, rfl, hk, rfl⟩ | ⟨k, rfl, hk, rfl⟩ | ⟨t, rfl, hSame, rfl⟩ := Children.step_cases hStep
  · -- the first call of `k`
    rcases hSet : (children k).setName P ctx session s.tree with ⟨t, _ | e⟩
    · refine ⟨_, Child.setName_stores hP (hNames k) h.stores hSet, ?_, ?_, ?_, ?_⟩
      · intro i hi
        obtain rfl : k = i := by simpa [PublishAction.naming] using hi
        exact SortedMap.find_insert_self _ _ _
      · intro i hi
        rw [SortedMap.find_insert_of_ne _ _ (by decide)]
        exact h.number i (by simpa [PublishAction.numbering] using hi)
      · intro i hi
        obtain rfl | hne := eq_or_ne i k
        · simp [PublishAction.naming]
        · simp only [Function.update_of_ne hne] at hi
          rw [filterMap_naming_concat]
          exact List.mem_append_left _ (h.hasNamed i hi)
      · intro i ec hi
        have hne : i ≠ k := by
          rintro rfl
          simp [PublishStage.afterName] at hi
        simp only [Function.update_of_ne hne] at hi
        rw [filterMap_numbering_concat]
        exact List.mem_append_left _ (h.hasNumbered i ec hi)
    · refine absurd ?_ (hClear k e)
      simp [hSet, PublishStage.afterName]
  · -- its second call
    rcases hSet : (children k).setNumber P ctx session s.tree with ⟨t, _ | e⟩
    · refine ⟨_, Child.setNumber_stores hP h.stores hSet, ?_, ?_, ?_, ?_⟩
      · intro i hi
        rw [SortedMap.find_insert_of_ne _ _ (by decide)]
        exact h.name i (by simpa [PublishAction.naming] using hi)
      · intro i hi
        obtain rfl : k = i := by simpa [PublishAction.numbering] using hi
        exact SortedMap.find_insert_self _ _ _
      · intro i hi
        rw [filterMap_naming_concat]
        apply List.mem_append_left
        obtain rfl | hne := eq_or_ne i k
        · exact h.hasNamed i (by rw [hk]; exact PublishStage.noConfusion)
        · simp only [Function.update_of_ne hne] at hi
          exact h.hasNamed i hi
      · intro i ec hi
        obtain rfl | hne := eq_or_ne i k
        · simp [PublishAction.numbering]
        · simp only [Function.update_of_ne hne] at hi
          rw [filterMap_numbering_concat]
          exact List.mem_append_left _ (h.hasNumbered i ec hi)
    · refine absurd ?_ (hClear k e)
      simp [hSet]
  · have hStores : Stores P t (sessionDat ctx session) m := by
      have hOld := h.stores
      unfold Stores at hOld ⊢
      rwa [hSame, FileTree.content_congr hSame]
    refine ⟨m, hStores, ?_, ?_, ?_, ?_⟩
    · intro i hi
      exact h.name i (by simpa [PublishAction.naming] using hi)
    · intro i hi
      exact h.number i (by simpa [PublishAction.numbering] using hi)
    · intro i hi
      rw [filterMap_naming_concat]
      exact List.mem_append_left _ (h.hasNamed i hi)
    · intro i ec hi
      rw [filterMap_numbering_concat]
      exact List.mem_append_left _ (h.hasNumbered i ec hi)

/-- In an undisturbed run both last calls are those of one child, unless one is
between its calls: then it made the last first call. -/
structure Children.Paired (order : List (PublishAction ι)) (s : Children ι) : Prop where
  named : ∀ i, s.stage i = .named → (order.filterMap PublishAction.naming).getLast? = some i
  rest : (∀ i, s.stage i ≠ .named) → (order.filterMap PublishAction.naming).getLast? =
    (order.filterMap PublishAction.numbering).getLast?

theorem Children.Paired.step {order : List (PublishAction ι)} {s s' : Children ι}
    {a : PublishAction ι} (h : s.Paired order) (hUndisturbed : s.Undisturbed a) (hClear : s'.Clear)
    (hStep : s.step P ctx session children a = some s') : s'.Paired (order ++ [a]) := by
  obtain ⟨k, rfl, hk, rfl⟩ | ⟨k, rfl, hk, rfl⟩ | ⟨t, rfl, hSame, rfl⟩ := Children.step_cases hStep
  · rcases hSet : (children k).setName P ctx session s.tree with ⟨t, _ | e⟩
    · constructor
      · intro i hi
        obtain rfl | hne := eq_or_ne i k
        · simp [PublishAction.naming]
        · simp only [Function.update_of_ne hne] at hi
          exact absurd hi (hUndisturbed k rfl i)
      · intro hNone
        refine absurd ?_ (hNone k)
        simp [PublishStage.afterName]
    · refine absurd ?_ (hClear k e)
      simp [hSet, PublishStage.afterName]
  · have hLast := h.named k hk
    constructor
    · intro i hi
      have hne : i ≠ k := by
        rintro rfl
        simp at hi
      simp only [Function.update_of_ne hne] at hi
      exact absurd (Option.some.inj ((h.named i hi).symm.trans hLast)) hne
    · intro _
      simpa [PublishAction.naming, PublishAction.numbering] using hLast
  · constructor
    · intro i hi
      simpa [PublishAction.naming] using h.named i hi
    · intro hNone
      simpa [PublishAction.naming, PublishAction.numbering] using h.rest hNone

/-- When all children have finished without an error, the name is that of the
last first call and the number that of the last second call. In an undisturbed
run these are of one build. -/
theorem last_job_of_last_calls (hP : P.Lawful) (hNames : ∀ i, '\r' ∉ (children i).jobName)
    {t : FileTree} {before : SortedMap Str Str} (hBefore : Stores P t (sessionDat ctx session) before)
    (order : List (PublishAction ι)) {s : Children ι}
    (hRun : run (Children.step P ctx session children) ⟨t, fun _ => .start⟩ order = some s)
    (hFinished : ∀ i, s.stage i = .finished none) (i₀ : ι) {reader : Os} (hReader : reader.Faultless) :
    ∃ i j, (order.filterMap PublishAction.naming).getLast? = some i ∧
      (order.filterMap PublishAction.numbering).getLast? = some j ∧
      getValue P reader s.tree ctx session "last_job_name" = (some (children i).jobName, none) ∧
      getValue P reader s.tree ctx session "last_job_build_number" =
        (some (numberString (children j).number), none) ∧
      (Along (Children.step P ctx session children) Children.Undisturbed ⟨t, fun _ => .start⟩ order →
        i = j) := by
  have hClear : s.Clear := fun i e hStage => by
    rw [hFinished i] at hStage
    cases hStage
  have hInvStep : ∀ (as : List (PublishAction ι)) u a u',
      (u.Clear → ∃ m, u.Inv P ctx session children as m) →
      Children.step P ctx session children u a = some u' →
      u'.Clear → ∃ m, u'.Inv P ctx session children (as ++ [a]) m := by
    intro as u a u' hInv hStep hClear'
    obtain ⟨m, hm⟩ := hInv (Children.clear_of_step hStep hClear')
    exact hm.step hP hNames hClear' hStep
  obtain ⟨m, hInv⟩ := history hInvStep (fun _ => ⟨before, Children.inv_start hBefore⟩) hRun hClear
  obtain ⟨i, hi⟩ := List.getLast?_isSome.mpr (List.ne_nil_of_mem (hInv.hasNamed i₀ (by
    rw [hFinished i₀]
    exact PublishStage.noConfusion))) |> Option.isSome_iff_exists.mp
  obtain ⟨j, hj⟩ := List.getLast?_isSome.mpr
    (List.ne_nil_of_mem (hInv.hasNumbered i₀ none (hFinished i₀))) |> Option.isSome_iff_exists.mp
  have hGet := getKvFile_refines hP hReader hInv.stores .cantReadSessionValuesFile
  refine ⟨i, j, hi, hj, ?_, ?_, fun hAlong => ?_⟩
  · rw [getValue, hGet, hInv.name i hi, Option.getD_some]
  · rw [getValue, hGet, hInv.number j hj, Option.getD_some]
  · have hPairedStep : ∀ (as : List (PublishAction ι)) (u : Children ι) a u',
        (u.Clear → u.Paired as) → u.Undisturbed a →
        Children.step P ctx session children u a = some u' → u'.Clear → u'.Paired (as ++ [a]) := by
      intro as u a u' hPaired hUndisturbed hStep hClear'
      exact (hPaired (Children.clear_of_step hStep hClear')).step hUndisturbed hClear' hStep
    have hStart : Children.Paired [] (⟨t, fun _ => .start⟩ : Children ι) := by
      constructor
      · intro k hk
        cases hk
      · intro _
        rfl
    have hPaired := history_of_along hPairedStep (fun _ => hStart) hAlong hRun hClear
    have hRest := hPaired.rest fun k hk => by
      rw [hFinished k] at hk
      cases hk
    rw [hi, hj] at hRest
    exact Option.some.inj hRest

end Runs

def childPair (i : Bool) : Child :=
  if i then ⟨.ideal ∅, "b", 1⟩ else ⟨.ideal ∅, "a", 0⟩

def sessionTree : FileTree := .ofList [([], .directory), (["sessions".toList], .directory)]

theorem last_job_of_last_calls_two :
    ∃ s, run (Children.step .reference demoContext ⟨"s", false⟩ childPair)
        ⟨sessionTree, fun _ => .start⟩
        [.setName false, .setNumber false, .setName true, .setNumber true] = some s ∧
      ∃ i, getValue .reference (.ideal ∅) s.tree demoContext ⟨"s", false⟩ "last_job_name" =
          (some (childPair i).jobName, none) ∧
        getValue .reference (.ideal ∅) s.tree demoContext ⟨"s", false⟩ "last_job_build_number" =
          (some (numberString (childPair i).number), none) := by
  refine ⟨_, rfl, ?_⟩
  have hStart : Stores .reference sessionTree (sessionDat demoContext ⟨"s", false⟩) ∅ :=
    Or.inl ⟨rfl, rfl⟩
  have hNames : ∀ i, '\r' ∉ (childPair i).jobName := by decide
  obtain ⟨i, j, _, _, hName, hNumber, hPair⟩ :=
    last_job_of_last_calls ProtoUtils.reference_lawful hNames hStart
      [.setName false, .setNumber false, .setName true, .setNumber true] rfl
      (fun i => by cases i <;> rfl) true (Os.ideal_faultless ∅)
  refine ⟨i, hName, ?_⟩
  have hAlong : Along (Children.step .reference demoContext ⟨"s", false⟩ childPair)
      Children.Undisturbed ⟨sessionTree, fun _ => .start⟩
      [.setName false, .setNumber false, .setName true, .setNumber true] := by
    refine ⟨fun _ _ j => PublishStage.noConfusion, ?_⟩
    rintro _ ⟨⟩
    refine ⟨fun _ h => (by cases h), ?_⟩
    rintro _ ⟨⟩
    refine ⟨fun _ _ j => (by cases j <;> exact PublishStage.noConfusion), ?_⟩
    rintro _ ⟨⟩
    exact ⟨fun _ h => (by cases h), fun _ _ => trivial⟩
  rwa [hPair hAlong]

/-- Both children finish, and the pair is that of no build. -/
theorem last_job_of_no_build :
    ∃ s, run (Children.step .reference demoContext ⟨"s", false⟩ childPair)
        ⟨sessionTree, fun _ => .start⟩
        [.setName false, .setName true, .setNumber true, .setNumber false] = some s ∧
      (∀ i, s.stage i = .finished none) ∧
      ¬∃ i, getValue .reference (.ideal ∅) s.tree demoContext ⟨"s", false⟩ "last_job_name" =
          (some (childPair i).jobName, none) ∧
        getValue .reference (.ideal ∅) s.tree demoContext ⟨"s", false⟩ "last_job_build_number" =
          (some (numberString (childPair i).number), none) := by
  refine ⟨_, rfl, ?_, by decide⟩
  intro i
  cases i <;> rfl

end CisCore
