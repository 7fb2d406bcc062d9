import Mathlib.Data.List.Induction
import Mathlib.Logic.Function.Basic

/-! # Partial functions and their runs

Code that stops at its first error consists of guards, and a success says something
about each of them.
-/

namespace Fallible

variable {ε α β : Type}

def require (condition : Bool) (e : ε) : Except ε Unit :=
  if condition then .ok () else .error e

def orThrow (value : Option α) (e : ε) : Except ε α :=
  match value with
  | some a => .ok a
  | none => .error e

theorem bind_eq_ok {x : Except ε α} {f : α → Except ε β} {b : β} :
    (x >>= f) = .ok b ↔ ∃ a, x = .ok a ∧ f a = .ok b := by
  cases x with
  | error e => simp [bind, Except.bind]
  | ok a => simp [bind, Except.bind]

theorem bind_eq_error {x : Except ε α} {f : α → Except ε β} {e : ε} :
    (x >>= f) = .error e ↔ x = .error e ∨ ∃ a, x = .ok a ∧ f a = .error e := by
  cases x with
  | error e => simp [bind, Except.bind]
  | ok a => simp [bind, Except.bind]

@[simp] theorem require_eq_error {condition : Bool} {e e' : ε} :
    require condition e = .error e' ↔ condition = false ∧ e = e' := by
  cases condition <;> simp [require]

@[simp] theorem orThrow_eq_error {value : Option α} {e e' : ε} :
    orThrow value e = .error e' ↔ value = none ∧ e = e' := by
  cases value <;> simp [orThrow]

@[simp] theorem require_eq_ok {condition : Bool} {e : ε} {u : Unit} :
    require condition e = .ok u ↔ condition = true := by
  cases condition <;> simp [require]

@[simp] theorem orThrow_eq_ok {value : Option α} {e : ε} {a : α} :
    orThrow value e = .ok a ↔ value = some a := by
  cases value <;> simp [orThrow]

@[simp] theorem pure_eq_ok {a b : α} : (pure a : Except ε α) = .ok b ↔ a = b := by
  simp [pure, Except.pure]

end Fallible

/-! ### Runs of a partial step function

A system is given by a step function that returns nothing where an action is
not enabled. A run performs a list of actions one after the other; when the
system consists of several processes the list is one interleaving of their
steps. An invariant kept by every step is kept by every run.
-/

namespace Transition

variable {σ α : Type}

def run (step : σ → α → Option σ) : σ → List α → Option σ
  | s, [] => some s
  | s, a :: as => (step s a).bind fun s' => run step s' as

/-- Every step of the run is taken in a state that allows it. -/
def Along (step : σ → α → Option σ) (allowed : σ → α → Prop) : σ → List α → Prop
  | _, [] => True
  | s, a :: as => allowed s a ∧ ∀ s', step s a = some s' → Along step allowed s' as

variable {step : σ → α → Option σ}

@[simp] theorem run_nil (s : σ) : run step s [] = some s := rfl

theorem run_cons (s : σ) (a : α) (as : List α) :
    run step s (a :: as) = (step s a).bind fun s' => run step s' as := rfl

theorem run_cons_eq_some {s t : σ} {a : α} {as : List α} :
    run step s (a :: as) = some t ↔ ∃ s', step s a = some s' ∧ run step s' as = some t := by
  rw [run_cons, Option.bind_eq_some_iff]

theorem run_append (s : σ) (as bs : List α) :
    run step s (as ++ bs) = (run step s as).bind fun s' => run step s' bs := by
  induction as generalizing s with
  | nil => rfl
  | cons a as ih =>
    rw [List.cons_append, run_cons, run_cons]
    cases step s a with
    | none => rfl
    | some s' => exact ih s'

theorem run_append_eq_some {s t : σ} {as bs : List α} :
    run step s (as ++ bs) = some t ↔ ∃ s', run step s as = some s' ∧ run step s' bs = some t := by
  rw [run_append, Option.bind_eq_some_iff]

/-- Two systems whose steps correspond have corresponding runs. -/
theorem run_map {τ : Type} {step' : τ → α → Option τ} (f : σ → τ)
    (h : ∀ s a, step' (f s) a = (step s a).map f) (s : σ) (as : List α) :
    run step' (f s) as = (run step s as).map f := by
  induction as generalizing s with
  | nil => rfl
  | cons a as ih =>
    rw [run_cons, run_cons, h]
    cases step s a with
    | none => rfl
    | some s' => exact ih s'

/-- The induction rule for runs whose steps are all allowed. -/
theorem invariant_of_along {inv : σ → Prop} {allowed : σ → α → Prop}
    (hStep : ∀ s a s', inv s → allowed s a → step s a = some s' → inv s')
    {s t : σ} {as : List α} (hInit : inv s) (hAlong : Along step allowed s as)
    (hRun : run step s as = some t) : inv t := by
  induction as generalizing s with
  | nil =>
    cases hRun
    exact hInit
  | cons a as ih =>
    obtain ⟨s', hs, hRest⟩ := run_cons_eq_some.mp hRun
    exact ih (hStep s a s' hInit hAlong.1 hs) (hAlong.2 s' hs) hRest

theorem along_of_always {allowed : σ → α → Prop} {s : σ} {as : List α}
    (h : ∀ a ∈ as, ∀ s, allowed s a) : Along step allowed s as := by
  induction as generalizing s with
  | nil => exact trivial
  | cons a as ih =>
    exact ⟨h a List.mem_cons_self s, fun _ _ => ih fun b hb => h b (List.mem_cons_of_mem a hb)⟩

theorem along_of_forall {allowed : α → Prop} {s : σ} {as : List α} (h : ∀ a ∈ as, allowed a) :
    Along step (fun _ a => allowed a) s as :=
  along_of_always fun a ha _ => h a ha

theorem invariant {inv : σ → Prop} (hStep : ∀ s a s', inv s → step s a = some s' → inv s')
    {s t : σ} {as : List α} (hInit : inv s) (hRun : run step s as = some t) : inv t :=
  invariant_of_along (fun s a s' h _ => hStep s a s' h) hInit (along_of_forall fun _ _ => trivial) hRun

/-- What every step keeps until an event holds at the end of a run, or the event
has occurred and it held until then. -/
theorem kept_until {inv : σ → Prop} {event : σ → α → Prop} {s t : σ} {as : List α}
    (hStep : ∀ s s', ∀ a ∈ as, inv s → step s a = some s' → inv s' ∨ event s a) (hInit : inv s)
    (hRun : run step s as = some t) :
    inv t ∨ ∃ before a after s', as = before ++ a :: after ∧ run step s before = some s' ∧
      inv s' ∧ event s' a := by
  induction as generalizing s with
  | nil =>
    cases hRun
    exact Or.inl hInit
  | cons a as ih =>
    obtain ⟨s', hs, hRest⟩ := run_cons_eq_some.mp hRun
    obtain hKept | hEvent := hStep s s' a List.mem_cons_self hInit hs
    · obtain hEnd | ⟨before, b, after, u, rfl, hBefore, hInv, hEvent⟩ :=
        ih (fun s s' b hb => hStep s s' b (List.mem_cons_of_mem a hb)) hKept hRest
      · exact Or.inl hEnd
      · exact Or.inr ⟨a :: before, b, after, u, rfl, run_cons_eq_some.mpr ⟨s', hs, hBefore⟩, hInv,
          hEvent⟩
    · exact Or.inr ⟨[], a, as, s, rfl, rfl, hInit, hEvent⟩

theorem along_append {allowed : σ → α → Prop} {s : σ} {as bs : List α} :
    Along step allowed s (as ++ bs) ↔
      Along step allowed s as ∧ ∀ s', run step s as = some s' → Along step allowed s' bs := by
  induction as generalizing s with
  | nil =>
    constructor
    · intro h
      exact ⟨trivial, fun s' hs => by cases hs; exact h⟩
    · intro h
      exact h.2 s rfl
  | cons a as ih =>
    constructor
    · rintro ⟨ha, hRest⟩
      refine ⟨⟨ha, fun s' hs => (ih.mp (hRest s' hs)).1⟩, ?_⟩
      intro t ht
      obtain ⟨s', hs, hRun⟩ := run_cons_eq_some.mp ht
      exact (ih.mp (hRest s' hs)).2 t hRun
    · rintro ⟨⟨ha, hAs⟩, hBs⟩
      refine ⟨ha, fun s' hs => ih.mpr ⟨hAs s' hs, fun t ht => ?_⟩⟩
      exact hBs t (run_cons_eq_some.mpr ⟨s', hs, ht⟩)

/-- The induction rule for properties of a state and the actions that led to it. -/
theorem history_of_along {inv : List α → σ → Prop} {allowed : σ → α → Prop} {s₀ : σ}
    (hStep : ∀ as s a s', inv as s → allowed s a → step s a = some s' → inv (as ++ [a]) s')
    {t : σ} {as : List α} (hInit : inv [] s₀) (hAlong : Along step allowed s₀ as)
    (hRun : run step s₀ as = some t) : inv as t := by
  induction as using List.reverseRecOn generalizing t with
  | nil =>
    cases hRun
    exact hInit
  | append_singleton as a ih =>
    obtain ⟨s, hBefore, hLast⟩ := run_append_eq_some.mp hRun
    obtain ⟨hAs, hA⟩ := along_append.mp hAlong
    obtain ⟨s', hs, hEnd⟩ := run_cons_eq_some.mp hLast
    cases hEnd
    exact hStep as s a t (ih hAs hBefore) (hA s hBefore).1 hs

theorem history {inv : List α → σ → Prop} {s₀ : σ}
    (hStep : ∀ as s a s', inv as s → step s a = some s' → inv (as ++ [a]) s')
    {t : σ} {as : List α} (hInit : inv [] s₀) (hRun : run step s₀ as = some t) : inv as t :=
  history_of_along (fun as s a s' h _ => hStep as s a s' h) hInit
    (along_of_forall fun _ _ => trivial) hRun

/-- A process that takes what no other one owns keeps what is owned apart. -/
theorem exclusive_update {ι τ β : Type} [DecidableEq ι] {stage : ι → τ} {owned : τ → Option β}
    (h : ∀ i j b, owned (stage i) = some b → owned (stage j) = some b → i = j) {i : ι} {next : τ}
    (hFree : ∀ j b, j ≠ i → owned (stage j) = some b → owned next ≠ some b) (j k : ι) (b : β)
    (hj : owned (Function.update stage i next j) = some b)
    (hk : owned (Function.update stage i next k) = some b) : j = k := by
  obtain rfl | hji := eq_or_ne j i
  · obtain rfl | hkj := eq_or_ne k j
    · rfl
    · rw [Function.update_self] at hj
      rw [Function.update_of_ne hkj] at hk
      exact absurd hj (hFree k b hkj hk)
  · obtain rfl | hki := eq_or_ne k i
    · rw [Function.update_of_ne hji] at hj
      rw [Function.update_self] at hk
      exact absurd hk (hFree j b hji hj)
    · rw [Function.update_of_ne hji] at hj
      rw [Function.update_of_ne hki] at hk
      exact h j k b hj hk

theorem single_others {ι τ : Type} {stage : ι → τ} {busy : τ → Bool}
    (h : ∀ i j, busy (stage i) = true → busy (stage j) = true → i = j) {i j : ι}
    (hBusy : busy (stage i) = true) (hne : j ≠ i) : busy (stage j) = false := by
  by_contra hj
  exact hne (h j i (eq_true_of_ne_false hj) hBusy)

/-- When no other process is busy, at most one is after the step of `i`. -/
theorem single_update {ι τ : Type} [DecidableEq ι] {stage : ι → τ} {busy : τ → Bool} {i : ι}
    {next : τ} (hIdle : ∀ j, j ≠ i → busy (stage j) = false) (j k : ι)
    (hj : busy (Function.update stage i next j) = true)
    (hk : busy (Function.update stage i next k) = true) : j = k := by
  have hOnly : ∀ l, busy (Function.update stage i next l) = true → l = i := by
    intro l hl
    by_contra hne
    rw [Function.update_of_ne hne, hIdle l hne] at hl
    cases hl
  exact (hOnly j hj).trans (hOnly k hk).symm

end Transition
