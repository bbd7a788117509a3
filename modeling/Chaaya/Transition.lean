import Mathlib

/-! Labelled transition systems judged one step at a time. A run keeps its labels;
`ok` is a condition on the state before a step and on its label. The two rules at
the end are how a fact about one step becomes a fact about every run. -/

namespace Chaaya.Transition

variable {σ α : Type*} {step : σ → α → σ → Prop} {ok ok' : σ → α → Prop}

/-- Runs of `step` all of whose steps meet `ok`. -/
inductive Run (step : σ → α → σ → Prop) (ok : σ → α → Prop) : σ → List α → σ → Prop
  | refl (s : σ) : Run step ok s [] s
  | snoc {s t u : σ} {as : List α} {a : α} :
      Run step ok s as t → ok t a → step t a u → Run step ok s (as ++ [a]) u

theorem Run.mono {s t : σ} {as : List α} (weaker : ∀ s a, ok s a → ok' s a)
    (run : Run step ok s as t) : Run step ok' s as t := by
  induction run with
  | refl => exact .refl _
  | snoc _ good move ih => exact .snoc ih (weaker _ _ good) move

theorem Run.trans {s t u : σ} {as bs : List α} (first : Run step ok s as t)
    (second : Run step ok t bs u) : Run step ok s (as ++ bs) u := by
  induction second with
  | refl => simpa using first
  | snoc _ good move ih =>
    rw [← List.append_assoc]
    exact .snoc ih good move

theorem Run.cons {s t u : σ} {a : α} {as : List α} (good : ok s a) (move : step s a t)
    (rest : Run step ok t as u) : Run step ok s (a :: as) u := by
  simpa using (Run.snoc (.refl s) good move).trans rest

/-- What the first state has and every good step keeps, the last state has. -/
theorem Run.invariant {Inv : σ → Prop}
    (keeps : ∀ s a t, Inv s → ok s a → step s a t → Inv t)
    {s t : σ} {as : List α} (run : Run step ok s as t) (start : Inv s) : Inv t := by
  induction run with
  | refl => exact start
  | snoc _ good move ih => exact keeps _ _ _ ih good move

/-- A property of single steps that an invariant implies holds of the next step
after any run. -/
theorem Run.next_step {Inv : σ → Prop} {P : σ → α → σ → Prop}
    (keeps : ∀ s a t, Inv s → ok s a → step s a t → Inv t)
    (gives : ∀ s a t, Inv s → ok s a → step s a t → P s a t)
    {s t u : σ} {as : List α} {a : α} (run : Run step ok s as t) (start : Inv s)
    (good : ok t a) (move : step t a u) : P t a u :=
  gives _ _ _ (run.invariant keeps start) good move

end Chaaya.Transition
