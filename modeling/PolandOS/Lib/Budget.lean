import Mathlib.Algebra.Order.Group.Int
import Mathlib.Algebra.BigOperators.Group.List.Basic
import Mathlib.Tactic.Linarith
import PolandOS.Lib.Logged

/-! # Amortised cost of logged computations

Every event has a price. `Within` says that a computation that returns has paid for its
events out of a budget, and what it leaves of it; where budget and rest are a potential of
the state before and behind, this is the usual amortised analysis. There is one rule for
each construct.
-/

namespace Logging

variable {ε κ α β : Type}

/-- What the events of a log cost. -/
def spent (price : ε → ℤ) (log : List ε) : ℤ := (log.map price).sum

variable {price : ε → ℤ}

@[simp] theorem spent_nil : spent price [] = 0 := rfl

@[simp] theorem spent_cons (e : ε) (log : List ε) :
    spent price (e :: log) = price e + spent price log := by simp [spent]

@[simp] theorem spent_append (log log' : List ε) :
    spent price (log ++ log') = spent price log + spent price log' := by simp [spent]

/-- The computation pays for its events out of the budget, and leaves `rest` of it. -/
def Within (price : ε → ℤ) (budget : ℤ) (rest : α → ℤ) (x : Logged ε κ α) : Prop :=
  ∀ a, x.result = .ok a → spent price x.log + rest a ≤ budget

variable {budget budget' : ℤ} {rest : α → ℤ} {rest' : β → ℤ} {x y : Logged ε κ α}
  {f : α → Logged ε κ β}

theorem within_pure {a : α} (h : rest a ≤ budget) :
    Within price budget rest (pure a : Logged ε κ α) := by
  intro b hb
  cases hb
  simpa using h

theorem within_stop (k : κ) : Within price budget rest (Logged.stop k : Logged ε κ α) := by
  intro b hb
  cases hb

theorem within_emit {e : ε} {rest : Unit → ℤ} (h : price e + rest () ≤ budget) :
    Within price budget rest (Logged.emit e : Logged ε κ Unit) := by
  intro a ha
  cases ha
  simpa using h

/-- What the first part leaves is the budget of the second. -/
theorem within_bind (hx : Within price budget rest x)
    (hf : ∀ a, x.result = .ok a → Within price (rest a) rest' (f a)) :
    Within price budget rest' (x >>= f) := by
  intro b hb
  rcases Logged.result_bind.mp hb with ⟨a, ha, hfa⟩
  have hfirst := hx a ha
  have hsecond := hf a ha b hfa
  rw [Logged.bind_of_ok ha]
  dsimp only
  rw [spent_append]
  linarith

theorem within_emit_bind {e : ε} {y : Logged ε κ β}
    (hy : Within price (budget - price e) rest' y) :
    Within price budget rest' (Logged.emit e >>= fun _ => y) := by
  have hpaid : Within price budget (fun _ => budget - price e)
      (Logged.emit e : Logged ε κ Unit) := within_emit (by simp)
  exact within_bind hpaid fun _ _ => hy

theorem within_ite {c : Prop} [Decidable c] (hx : c → Within price budget rest x)
    (hy : ¬c → Within price budget rest y) : Within price budget rest (if c then x else y) := by
  split
  case isTrue h => exact hx h
  case isFalse h => exact hy h

theorem Within.mono (h : Within price budget rest x) (hle : budget ≤ budget') :
    Within price budget' rest x := fun a ha => (h a ha).trans hle

/-- What is put aside is left. -/
theorem Within.frame (h : Within price budget rest x) (k : ℤ) :
    Within price (budget + k) (fun a => rest a + k) x := by
  intro a ha
  have hleft := h a ha
  linarith

end Logging
