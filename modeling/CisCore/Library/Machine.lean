import Mathlib.Data.List.Basic

/-! # Machines with outputs

A machine answers each of its inputs and goes on to another state. One machine
stands for another one as long as related states answer alike and stay related;
then the two give the same answers to whole sequences of inputs. A system that is
only watched has labelled steps in the place of inputs and answers.
-/

namespace Machine

variable {σ τ α β : Type}

/-- The last state, and the answers to the inputs one after the other. -/
def answers (step : σ → α → σ × β) : σ → List α → σ × List β
  | s, [] => (s, [])
  | s, a :: as => ((answers step (step s a).1 as).1, (step s a).2 :: (answers step (step s a).1 as).2)

/-- For the inputs of the set, related states answer alike and stay related. -/
def Simulates (step : σ → α → σ × β) (step' : τ → α → τ × β) (inputs : α → Prop)
    (related : σ → τ → Prop) : Prop :=
  ∀ s t a, inputs a → related s t → related (step s a).1 (step' t a).1 ∧ (step s a).2 = (step' t a).2

variable {step : σ → α → σ × β} {step' : τ → α → τ × β} {inputs : α → Prop}
  {related : σ → τ → Prop}

@[simp] theorem answers_nil (s : σ) : answers step s [] = (s, []) := rfl

theorem answers_cons (s : σ) (a : α) (as : List α) :
    answers step s (a :: as) =
      ((answers step (step s a).1 as).1, (step s a).2 :: (answers step (step s a).1 as).2) := rfl

theorem Simulates.answers (h : Simulates step step' inputs related) {as : List α}
    (hInputs : ∀ a ∈ as, inputs a) {s : σ} {t : τ} (hRelated : related s t) :
    related (answers step s as).1 (answers step' t as).1 ∧
      (Machine.answers step s as).2 = (Machine.answers step' t as).2 := by
  induction as generalizing s t with
  | nil => exact ⟨hRelated, rfl⟩
  | cons a as ih =>
    obtain ⟨hNext, hAnswer⟩ := h s t a (hInputs a List.mem_cons_self) hRelated
    obtain ⟨hEnd, hRest⟩ := ih (fun b hb => hInputs b (List.mem_cons_of_mem a hb)) hNext
    rw [answers_cons, answers_cons]
    exact ⟨hEnd, List.cons_eq_cons.mpr ⟨hAnswer, hRest⟩⟩

/-- When each answer tells the next state, the answers tell the last one. -/
theorem foldl_answers {replay : σ → β → σ} {as : List α}
    (hStep : ∀ a ∈ as, ∀ s, replay s (step s a).2 = (step s a).1) (s : σ) :
    (Machine.answers step s as).2.foldl replay s = (Machine.answers step s as).1 := by
  induction as generalizing s with
  | nil => rfl
  | cons a as ih =>
    rw [answers_cons, List.foldl_cons, hStep a List.mem_cons_self]
    exact ih (fun b hb => hStep b (List.mem_cons_of_mem a hb)) _

/-! ### Answers that a relation allows -/

/-- A sequence of inputs with their answers, each of which the relation allows. -/
inductive Chain (tells : τ → α → β → τ → Prop) : τ → List (α × β) → τ → Prop
  | nil (t : τ) : Chain tells t [] t
  | cons {t t' t'' : τ} {a : α} {b : β} {rest : List (α × β)} (first : tells t a b t')
      (others : Chain tells t' rest t'') : Chain tells t ((a, b) :: rest) t''

/-- For the inputs of the set, the relation allows the answer in each related state. -/
def Follows (step : σ → α → σ × β) (tells : τ → α → β → τ → Prop) (inputs : α → Prop)
    (related : σ → τ → Prop) : Prop :=
  ∀ s t a, inputs a → related s t → ∃ t', tells t a (step s a).2 t' ∧ related (step s a).1 t'

theorem Follows.answers {tells : τ → α → β → τ → Prop} (h : Follows step tells inputs related)
    {as : List α} (hInputs : ∀ a ∈ as, inputs a) {s : σ} {t : τ} (hRelated : related s t) :
    ∃ t', Chain tells t (as.zip (Machine.answers step s as).2) t' ∧
      related (Machine.answers step s as).1 t' := by
  induction as generalizing s t with
  | nil => exact ⟨t, .nil t, hRelated⟩
  | cons a as ih =>
    obtain ⟨t₁, hFirst, hNext⟩ := h s t a (hInputs a List.mem_cons_self) hRelated
    obtain ⟨t', hRest, hEnd⟩ := ih (fun b hb => hInputs b (List.mem_cons_of_mem a hb)) hNext
    exact ⟨t', .cons hFirst hRest, hEnd⟩

end Machine

/-! ### Labelled steps

A step of a system may be seen from outside; it then has a label. When each step
of one system is matched by steps of another one that look the same, whatever is
seen of the first can be seen of the second.
-/

namespace Labelled

variable {σ τ α : Type}

/-- What is seen of a run, from its first state to its last one. -/
inductive Traces (step : σ → Option α → σ → Prop) : σ → List α → σ → Prop
  | nil (s : σ) : Traces step s [] s
  | cons {s s' s'' : σ} {label : Option α} {seen : List α} (first : step s label s')
      (others : Traces step s' seen s'') : Traces step s (label.toList ++ seen) s''

/-- Related states stay related, and what is seen of the step is seen of the steps
that match it. -/
def Simulates (step : σ → Option α → σ → Prop) (step' : τ → Option α → τ → Prop)
    (related : σ → τ → Prop) : Prop :=
  ∀ s t label s', related s t → step s label s' →
    ∃ t', Traces step' t label.toList t' ∧ related s' t'

variable {step : σ → Option α → σ → Prop} {step' : τ → Option α → τ → Prop}
  {related : σ → τ → Prop}

theorem Traces.single {s s' : σ} {label : Option α} (h : step s label s') :
    Traces step s label.toList s' := by
  have hTrace := Traces.cons h (.nil s')
  rwa [List.append_nil] at hTrace

theorem Traces.append {s s' s'' : σ} {seen seen' : List α} (h : Traces step s seen s')
    (h' : Traces step s' seen' s'') : Traces step s (seen ++ seen') s'' := by
  induction h with
  | nil s => exact h'
  | cons first others ih =>
    rw [List.append_assoc]
    exact .cons first (ih h')

theorem Simulates.traces (h : Simulates step step' related) {s s' : σ} {seen : List α}
    (hTraces : Traces step s seen s') {t : τ} (hRelated : related s t) :
    ∃ t', Traces step' t seen t' ∧ related s' t' := by
  induction hTraces generalizing t with
  | nil s => exact ⟨t, .nil t, hRelated⟩
  | cons first others ih =>
    obtain ⟨t₁, hFirst, hNext⟩ := h _ t _ _ hRelated first
    obtain ⟨t', hOthers, hEnd⟩ := ih hNext
    exact ⟨t', hFirst.append hOthers, hEnd⟩

end Labelled
