import CisCore.Library.SortedMap
import CisCore.Library.Transition
import Mathlib.Data.Set.Basic
import Mathlib.Logic.Function.Basic

/-! # Steps with a footprint

A step on a shared store depends on some of its keys and changes some. Components
none of which changes what another one depends on do not notice each other: a run
of all of them is a run of each on its own, in whatever order their steps come.
-/

namespace Locality

open Transition

variable {κ ν α β : Type} [LinearOrder κ]

/-- Both stores hold the same under the keys of the set. -/
def AgreeOn (R : Set κ) (m m' : SortedMap κ ν) : Prop := ∀ k ∈ R, m'.find k = m.find k

namespace AgreeOn

variable {R S : Set κ} {m m' m'' : SortedMap κ ν}

theorem refl (R : Set κ) (m : SortedMap κ ν) : AgreeOn R m m := fun _ _ => rfl

theorem symm (h : AgreeOn R m m') : AgreeOn R m' m := fun k hk => (h k hk).symm

theorem trans (h : AgreeOn R m m') (h' : AgreeOn R m' m'') : AgreeOn R m m'' :=
  fun k hk => (h' k hk).trans (h k hk)

theorem mono (hS : S ⊆ R) (h : AgreeOn R m m') : AgreeOn S m m' := fun k hk => h k (hS hk)

theorem insert (h : AgreeOn R m m') (k : κ) (v : ν) :
    AgreeOn R (m.insert k v) (m'.insert k v) := by
  intro k' hk'
  rw [SortedMap.find_insert, SortedMap.find_insert, h k' hk']

theorem filterKeys (h : AgreeOn R m m') (p : κ → Bool) :
    AgreeOn R (m.filterKeys p) (m'.filterKeys p) := by
  intro k hk
  rw [SortedMap.find_filterKeys, SortedMap.find_filterKeys, h k hk]

end AgreeOn

/-- The step depends on the keys in `R` and changes those in `W` only. -/
structure Local (R W : Set κ) (f : SortedMap κ ν → Option (SortedMap κ ν × α)) : Prop where
  reads : ∀ m₁ m₂ m₁' a, AgreeOn R m₁ m₂ → f m₁ = some (m₁', a) →
    ∃ m₂', f m₂ = some (m₂', a) ∧ AgreeOn R m₁' m₂'
  writes : ∀ m m' a, f m = some (m', a) → AgreeOn Wᶜ m m'

namespace Local

variable {R W : Set κ} {f g : SortedMap κ ν → Option (SortedMap κ ν × α)}

theorem of_eq (h : Local R W f) (hEq : ∀ m, g m = f m) : Local R W g := by
  rw [show g = f from funext hEq]
  exact h

theorem none : Local R W (fun _ : SortedMap κ ν => (Option.none : Option (SortedMap κ ν × α))) where
  reads _ _ _ _ _ h := by cases h
  writes _ _ _ h := by cases h

/-- A step that is always possible. -/
theorem total {f : SortedMap κ ν → SortedMap κ ν × α}
    (hReads : ∀ m m', AgreeOn R m m' → (f m').2 = (f m).2 ∧ AgreeOn R (f m).1 (f m').1)
    (hWrites : ∀ m, AgreeOn Wᶜ m (f m).1) : Local R W fun m => some (f m) where
  reads m₁ m₂ m₁' a hAgree hStep := by
    obtain ⟨hResult, hNext⟩ := hReads m₁ m₂ hAgree
    rw [Option.some.inj hStep] at hResult hNext
    exact ⟨(f m₂).1, congrArg some (Prod.ext rfl hResult), hNext⟩
  writes m m' a hStep := by
    have hKept := hWrites m
    rwa [Option.some.inj hStep] at hKept

/-- A step that only looks at the store. -/
theorem look {get : SortedMap κ ν → α} (h : ∀ m m', AgreeOn R m m' → get m' = get m) :
    Local R W fun m => some (m, get m) :=
  total (fun m m' hAgree => ⟨h m m' hAgree, hAgree⟩) fun m => AgreeOn.refl _ m

theorem pure (a : α) : Local R W fun m : SortedMap κ ν => some (m, a) := look fun _ _ _ => rfl

theorem bind {g : α → SortedMap κ ν → Option (SortedMap κ ν × β)} (hf : Local R W f)
    (hg : ∀ a, Local R W (g a)) : Local R W fun m => (f m).bind fun r => g r.2 r.1 where
  reads m₁ m₂ m₁' b hAgree hStep := by
    obtain ⟨⟨n₁, a⟩, hFirst, hSecond⟩ := Option.bind_eq_some_iff.mp hStep
    obtain ⟨n₂, hFirst', hNext⟩ := hf.reads m₁ m₂ n₁ a hAgree hFirst
    obtain ⟨m₂', hSecond', hLast⟩ := (hg a).reads n₁ n₂ m₁' b hNext hSecond
    exact ⟨m₂', by rw [hFirst', Option.bind_some, hSecond'], hLast⟩
  writes m m' b hStep := by
    obtain ⟨⟨n, a⟩, hFirst, hSecond⟩ := Option.bind_eq_some_iff.mp hStep
    exact (hf.writes m n a hFirst).trans ((hg a).writes n m' b hSecond)

theorem map (hf : Local R W f) (g : α → β) :
    Local R W fun m => (f m).map fun r => (r.1, g r.2) := by
  refine (hf.bind fun a => pure (g a)).of_eq fun m => ?_
  cases f m <;> rfl

end Local

/-! ### Components side by side -/

/-- A part of a system that shares its store with others. -/
structure Component (κ ν : Type) [LinearOrder κ] where
  State : Type
  Action : Type
  reads : Set κ
  writes : Set κ
  step : SortedMap κ ν → State → Action → Option (SortedMap κ ν × State)
  /-- What its own steps keep, and its footprint rests on. -/
  Valid : State → Prop
  valid_step : ∀ m m' s s' a, Valid s → step m s a = some (m', s') → Valid s'
  isLocal : ∀ s a, Valid s → Local reads writes fun m => step m s a
  writes_subset : writes ⊆ reads

def Component.solo (c : Component κ ν) (r : SortedMap κ ν × c.State) (a : c.Action) :
    Option (SortedMap κ ν × c.State) := c.step r.1 r.2 a

variable {ι : Type} [DecidableEq ι] (c : ι → Component κ ν)

/-- No component changes what another one depends on. -/
def Apart : Prop := ∀ i j, i ≠ j → ∀ k ∈ (c i).writes, k ∉ (c j).reads

def together (s : SortedMap κ ν × ∀ i, (c i).State) (a : Σ i, (c i).Action) :
    Option (SortedMap κ ν × ∀ i, (c i).State) :=
  ((c a.1).step s.1 (s.2 a.1) a.2).map fun r => (r.1, Function.update s.2 a.1 r.2)

/-- The actions of one component, in their order. -/
def own (i : ι) (order : List (Σ i, (c i).Action)) : List (c i).Action :=
  order.filterMap fun a => if h : a.1 = i then some (h ▸ a.2) else none

variable {c}

@[simp] theorem own_nil (i : ι) : own c i [] = [] := rfl

@[simp] theorem own_cons_self (i : ι) (a : (c i).Action) (order : List (Σ i, (c i).Action)) :
    own c i (⟨i, a⟩ :: order) = a :: own c i order := by
  simp [own]

theorem own_cons_of_ne {i : ι} {a : Σ i, (c i).Action} (h : a.1 ≠ i)
    (order : List (Σ i, (c i).Action)) : own c i (a :: order) = own c i order := by
  simp [own, h]

theorem together_eq_some {m m' : SortedMap κ ν} {s s' : ∀ i, (c i).State} {i : ι}
    {a : (c i).Action} : together c (m, s) ⟨i, a⟩ = some (m', s') ↔
      ∃ t, (c i).step m (s i) a = some (m', t) ∧ s' = Function.update s i t := by
  rw [together, Option.map_eq_some_iff]
  constructor
  · rintro ⟨⟨n, t⟩, hStep, hEq⟩
    cases hEq
    exact ⟨t, hStep, rfl⟩
  · rintro ⟨t, hStep, rfl⟩
    exact ⟨(m', t), hStep, rfl⟩

theorem valid_together {m m' : SortedMap κ ν} {s s' : ∀ i, (c i).State}
    (hValid : ∀ i, (c i).Valid (s i)) {a : Σ i, (c i).Action}
    (h : together c (m, s) a = some (m', s')) (i : ι) : (c i).Valid (s' i) := by
  obtain ⟨t, hStep, rfl⟩ := together_eq_some.mp h
  obtain rfl | hne := eq_or_ne a.1 i
  · rw [Function.update_self]
    exact (c a.1).valid_step m m' (s a.1) t a.2 (hValid a.1) hStep
  · rw [Function.update_of_ne hne.symm]
    exact hValid i

section Apart

variable (hApart : Apart c)
include hApart

omit [DecidableEq ι] in
/-- A step of one component leaves what the others depend on. -/
theorem agreeOn_of_step {m m' : SortedMap κ ν} {i j : ι} (hne : i ≠ j) {s t : (c i).State}
    (hValid : (c i).Valid s) {a : (c i).Action} (h : (c i).step m s a = some (m', t)) :
    AgreeOn (c j).reads m m' := by
  intro k hk
  exact ((c i).isLocal s a hValid).writes m m' t h k fun hWrites =>
    hApart i j hne k hWrites hk

/-- A step of all components is matched on the stores that each has for itself. -/
theorem alone_of_together {m m' : SortedMap κ ν} {s s' : ∀ i, (c i).State}
    (hValid : ∀ i, (c i).Valid (s i)) {alone : ι → SortedMap κ ν}
    (hAlone : ∀ i, AgreeOn (c i).reads (alone i) m) {i : ι} {a : (c i).Action}
    (h : together c (m, s) ⟨i, a⟩ = some (m', s')) :
    ∃ n t, (c i).step (alone i) (s i) a = some (n, t) ∧ s' = Function.update s i t ∧
      ∀ j, AgreeOn (c j).reads (Function.update alone i n j) m' := by
  obtain ⟨t, hStep, hState⟩ := together_eq_some.mp h
  obtain ⟨n, hSolo, hAgree⟩ :=
    ((c i).isLocal (s i) a (hValid i)).reads m (alone i) m' t (hAlone i).symm hStep
  refine ⟨n, t, hSolo, hState, fun j => ?_⟩
  obtain rfl | hne := eq_or_ne i j
  · rw [Function.update_self]
    exact hAgree.symm
  · rw [Function.update_of_ne hne.symm]
    exact (hAlone j).trans (agreeOn_of_step hApart hne (hValid i) hStep)

omit hApart in
theorem together_of_alone {m : SortedMap κ ν} {s : ∀ i, (c i).State}
    (hValid : ∀ i, (c i).Valid (s i)) {alone : ι → SortedMap κ ν}
    (hAlone : ∀ i, AgreeOn (c i).reads (alone i) m) {i : ι} {a : (c i).Action} {n : SortedMap κ ν} {t : (c i).State}
    (h : (c i).step (alone i) (s i) a = some (n, t)) :
    ∃ m', together c (m, s) ⟨i, a⟩ = some (m', Function.update s i t) := by
  obtain ⟨m', hStep, _⟩ :=
    ((c i).isLocal (s i) a (hValid i)).reads (alone i) m n t (hAlone i) h
  exact ⟨m', together_eq_some.mpr ⟨t, hStep, rfl⟩⟩

/-- A run of all components is a run of each of them on a store of its own. -/
theorem run_alone_of_together {order : List (Σ i, (c i).Action)} {m m' : SortedMap κ ν}
    {s s' : ∀ i, (c i).State} (hValid : ∀ i, (c i).Valid (s i)) {alone : ι → SortedMap κ ν}
    (hAlone : ∀ i, AgreeOn (c i).reads (alone i) m)
    (h : run (together c) (m, s) order = some (m', s')) (i : ι) :
    ∃ n, run (c i).solo (alone i, s i) (own c i order) = some (n, s' i) ∧
      AgreeOn (c i).reads n m' := by
  induction order generalizing m s alone with
  | nil =>
    cases h
    exact ⟨alone i, rfl, hAlone i⟩
  | cons a order ih =>
    obtain ⟨j, a⟩ := a
    obtain ⟨⟨m₁, s₁⟩, hStep, hRun⟩ := run_cons_eq_some.mp h
    obtain ⟨n, t, hSolo, rfl, hNext⟩ := alone_of_together hApart hValid hAlone hStep
    obtain ⟨n', hRest, hAgree⟩ := ih (valid_together hValid hStep) hNext hRun
    refine ⟨n', ?_, hAgree⟩
    obtain rfl | hne := eq_or_ne j i
    · rw [Function.update_self, Function.update_self] at hRest
      rw [own_cons_self]
      exact run_cons_eq_some.mpr ⟨(n, t), hSolo, hRest⟩
    · rw [Function.update_of_ne hne.symm, Function.update_of_ne hne.symm] at hRest
      rwa [own_cons_of_ne (a := ⟨j, a⟩) hne]

/-- Runs that each component has for itself make up a run of all of them. -/
theorem run_together_of_alone {order : List (Σ i, (c i).Action)} {m : SortedMap κ ν}
    {s : ∀ i, (c i).State} (hValid : ∀ i, (c i).Valid (s i)) {alone : ι → SortedMap κ ν}
    (hAlone : ∀ i, AgreeOn (c i).reads (alone i) m)
    (h : ∀ i, ∃ r, run (c i).solo (alone i, s i) (own c i order) = some r) :
    ∃ r, run (together c) (m, s) order = some r := by
  induction order generalizing m s alone with
  | nil => exact ⟨(m, s), rfl⟩
  | cons a order ih =>
    obtain ⟨j, a⟩ := a
    obtain ⟨r, hFirst⟩ := h j
    rw [own_cons_self] at hFirst
    obtain ⟨⟨n, t⟩, hSolo, hRest⟩ := run_cons_eq_some.mp hFirst
    obtain ⟨m', hStep⟩ := together_of_alone hValid hAlone hSolo
    obtain ⟨n', t', hSolo', hState, hNext⟩ := alone_of_together hApart hValid hAlone hStep
    have hSame : some (n, t) = some (n', t') := hSolo.symm.trans hSolo'
    cases hSame
    have hOthers : ∀ i, ∃ r, run (c i).solo (Function.update alone j n i,
        Function.update s j t i) (own c i order) = some r := by
      intro i
      obtain rfl | hne := eq_or_ne j i
      · rw [Function.update_self, Function.update_self]
        exact ⟨r, hRest⟩
      · rw [Function.update_of_ne hne.symm, Function.update_of_ne hne.symm]
        obtain ⟨r', hRun⟩ := h i
        rw [own_cons_of_ne (a := ⟨j, a⟩) hne] at hRun
        exact ⟨r', hRun⟩
    obtain ⟨r', hRun⟩ := ih (valid_together hValid hStep) hNext hOthers
    exact ⟨r', run_cons_eq_some.mpr ⟨_, hStep, hRun⟩⟩

omit hApart in
theorem run_untouched {order : List (Σ i, (c i).Action)} {m m' : SortedMap κ ν}
    {s s' : ∀ i, (c i).State} (hValid : ∀ i, (c i).Valid (s i))
    (h : run (together c) (m, s) order = some (m', s')) :
    AgreeOn {k | ∀ i, k ∉ (c i).writes} m m' := by
  induction order generalizing m s with
  | nil =>
    cases h
    exact AgreeOn.refl _ _
  | cons a order ih =>
    obtain ⟨⟨m₁, s₁⟩, hStep, hRun⟩ := run_cons_eq_some.mp h
    obtain ⟨t, hOwn, _⟩ := together_eq_some.mp hStep
    have hFirst := ((c a.1).isLocal (s a.1) a.2 (hValid a.1)).writes m m₁ t hOwn
    exact (hFirst.mono fun k (hk : ∀ i, k ∉ (c i).writes) => hk a.1).trans (ih (valid_together hValid hStep) hRun)

/-- What a run ends with depends on the order of each component's own actions only. -/
theorem run_together_congr {order order' : List (Σ i, (c i).Action)}
    (hOwn : ∀ i, own c i order = own c i order') {m m' : SortedMap κ ν} {s s' : ∀ i, (c i).State}
    (hValid : ∀ i, (c i).Valid (s i))
    (h : run (together c) (m, s) order = some (m', s')) :
    run (together c) (m, s) order' = some (m', s') := by
  have hSolo := run_alone_of_together hApart hValid (fun i => AgreeOn.refl (c i).reads m) h
  obtain ⟨⟨n, t⟩, hRun⟩ := run_together_of_alone hApart hValid
    (fun i => AgreeOn.refl (c i).reads m) fun i => by
      obtain ⟨n, hOne, _⟩ := hSolo i
      rw [hOwn i] at hOne
      exact ⟨_, hOne⟩
  have hSolo' := run_alone_of_together hApart hValid (fun i => AgreeOn.refl (c i).reads m) hRun
  have hSame : ∀ i, s' i = t i ∧ AgreeOn (c i).reads m' n := by
    intro i
    obtain ⟨n₁, hOne, hAgree⟩ := hSolo i
    obtain ⟨n₂, hTwo, hAgree'⟩ := hSolo' i
    rw [hOwn i, hTwo] at hOne
    obtain ⟨rfl, hState⟩ := Prod.mk.inj (Option.some.inj hOne)
    exact ⟨hState.symm, hAgree.symm.trans hAgree'⟩
  have hStore : n = m' := by
    apply SortedMap.ext_find
    intro k
    by_cases hWritten : ∃ i, k ∈ (c i).writes
    · obtain ⟨i, hk⟩ := hWritten
      exact (hSame i).2 k ((c i).writes_subset hk)
    · have hNone : ∀ i, k ∉ (c i).writes := fun i hk => hWritten ⟨i, hk⟩
      exact (run_untouched hValid hRun k hNone).trans (run_untouched hValid h k hNone).symm
  rw [hRun, hStore, funext fun i => (hSame i).1]

end Apart

end Locality
