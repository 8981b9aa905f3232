import Mathlib.Tactic.Common

/-! # Ghost state

A proof may need a state that keeps more than the program's does. `Erases π P x y` says
that the computation `y` of the program is the computation `x` on states with ghost fields,
seen through `π`, and that what `x` returns meets `P`. The rules follow `>>=`, so that the
two are compared step by step while an invariant of the ghost state is carried along.
-/

namespace Ghost

variable {ε α α' β β' : Type} {π : α → β} {π' : α' → β'} {P Q : α → Prop} {P' : α' → Prop}

/-- `y` is `x` without the ghost fields. -/
structure Erases (π : α → β) (P : α → Prop) (x : Except ε α) (y : Except ε β) : Prop where
  image : y = x.map π
  post : ∀ a, x = .ok a → P a

theorem Erases.ok {a : α} (h : P a) : Erases π P (.ok a : Except ε α) (.ok (π a)) := by
  constructor
  · rfl
  · intro b hb
    rw [← Except.ok.inj hb]
    exact h

theorem Erases.error (e : ε) : Erases π P (.error e) (.error e) := by
  constructor
  · rfl
  · intro a ha
    cases ha

theorem Erases.bind {x : Except ε α} {y : Except ε β} {f : α → Except ε α'}
    {g : β → Except ε β'} (h : Erases π P x y)
    (hf : ∀ a, x = .ok a → P a → Erases π' P' (f a) (g (π a))) :
    Erases π' P' (x >>= f) (y >>= g) := by
  rw [h.image]
  cases x with
  | error e => exact .error e
  | ok a => exact hf a rfl (h.post a rfl)

theorem Erases.mono {x : Except ε α} {y : Except ε β} (h : Erases π P x y)
    (himp : ∀ a, x = .ok a → P a → Q a) : Erases π Q x y := by
  constructor
  · exact h.image
  · intro a ha
    exact himp a ha (h.post a ha)

/-- What the program returns comes from a run with ghost state. -/
theorem Erases.of_ok {x : Except ε α} {y : Except ε β} (h : Erases π P x y) {b : β}
    (hy : y = .ok b) : ∃ a, x = .ok a ∧ π a = b ∧ P a := by
  rw [h.image] at hy
  cases hx : x with
  | error e =>
      rw [hx] at hy
      cases hy
  | ok a =>
      rw [hx] at hy
      exact ⟨a, rfl, Except.ok.inj hy, h.post a hx⟩

theorem returns_map {x : Except ε α} {f : α → β} :
    (∃ b, x.map f = .ok b) ↔ ∃ a, x = .ok a := by
  cases x with
  | error e => simp [Except.map]
  | ok a => simp [Except.map]

/-- The program returns if and only if it does so with ghost state. -/
theorem Erases.returns {x : Except ε α} {y : Except ε β} (h : Erases π P x y) :
    (∃ b, y = .ok b) ↔ ∃ a, x = .ok a := by
  rw [h.image]
  exact returns_map

end Ghost
