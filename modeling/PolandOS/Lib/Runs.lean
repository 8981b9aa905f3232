import Mathlib.Tactic.Common

/-! # Runs of a labelled transition system

A system is a step relation `σ → ε → σ → Prop` over states and events. A run is
a finite sequence of steps; `Run.invariant` turns a fact about one step into a
fact about every state of every run. Steps restricted by a side condition are
written with `Guarded`, so "in every run whose steps all meet the condition" is
a run of the guarded relation.
-/

namespace Runs

variable {σ ε : Type*}

/-- Finite runs, longest prefix first. -/
inductive Run (step : σ → ε → σ → Prop) (s₀ : σ) : σ → Prop
  | refl : Run step s₀ s₀
  | tail {s s' : σ} {e : ε} : Run step s₀ s → step s e s' → Run step s₀ s'

/-- The steps that meet the side condition `ok`, a condition on the event and
the state before it. -/
def Guarded (step : σ → ε → σ → Prop) (ok : σ → ε → Prop) : σ → ε → σ → Prop :=
  fun s e s' => ok s e ∧ step s e s'

variable {step : σ → ε → σ → Prop} {s₀ : σ}

/-- The invariant rule. -/
theorem Run.invariant {I : σ → Prop} (h₀ : I s₀)
    (hstep : ∀ s e s', I s → step s e s' → I s') {s : σ} (h : Run step s₀ s) : I s := by
  induction h with
  | refl => exact h₀
  | tail _ hs ih => exact hstep _ _ _ ih hs

/-- A run of steps that meet a stronger condition is a run of steps that meet a
weaker one. -/
theorem Run.mono {step' : σ → ε → σ → Prop} (himp : ∀ s e s', step s e s' → step' s e s')
    {s : σ} (h : Run step s₀ s) : Run step' s₀ s := by
  induction h with
  | refl => exact .refl
  | tail _ hs ih => exact .tail ih (himp _ _ _ hs)

theorem Guarded.mono {ok ok' : σ → ε → Prop} (himp : ∀ s e, ok s e → ok' s e)
    {s s' : σ} {e : ε} (h : Guarded step ok s e s') : Guarded step ok' s e s' :=
  ⟨himp _ _ h.1, h.2⟩

end Runs
