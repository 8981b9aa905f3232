import PolandOS.Lib.Ghost

/-! # Exact supplies

A computation draws on a supply of units and fails when there is none left. `Needs left n x
after` says that `n` units are exactly what `x` needs: with `left` units it returns if and
only if `n ≤ left`, and then it has used them. The rules follow `>>=`; the need of the second
part may depend on what the first has returned, as long as the sum does not.
-/

namespace Supply

variable {ε α β : Type}

/-- With `left` units the computation returns if and only if it needs no more, and what it
returns has `n` units less. -/
structure Needs (left n : Nat) (x : Except ε α) (after : α → Nat) : Prop where
  returns : (∃ a, x = .ok a) ↔ n ≤ left
  uses : ∀ a, x = .ok a → after a + n = left

variable {left n t : Nat} {x : Except ε α} {f : α → Except ε β} {after : α → Nat}
  {after' : β → Nat}

theorem Needs.ok {a : α} (h : after a + n = left) : Needs left n (.ok a : Except ε α) after := by
  constructor
  · refine iff_of_true ⟨a, rfl⟩ ?_
    omega
  · intro b hb
    rw [← Except.ok.inj hb]
    exact h

theorem Needs.error {e : ε} (h : left < n) : Needs left n (.error e) after := by
  constructor
  · refine iff_of_false ?_ (Nat.not_le_of_lt h)
    rintro ⟨a, ha⟩
    cases ha
  · intro a ha
    cases ha

/-- The needs of the two parts add up. -/
theorem Needs.bind (h : Needs left n x after) (hle : n ≤ t)
    (hf : ∀ a, x = .ok a → ∃ m, n + m = t ∧ Needs (after a) m (f a) after') :
    Needs left t (x >>= f) after' := by
  cases x with
  | error e =>
      -- the first part had too little
      have hlt : ¬n ≤ left := by
        rw [← h.returns]
        rintro ⟨a, ha⟩
        cases ha
      exact .error (by omega)
  | ok a =>
      obtain ⟨m, rfl, hm⟩ := hf a rfl
      have huses := h.uses a rfl
      constructor
      · refine hm.returns.trans ?_
        omega
      · intro b hb
        have hrest := hm.uses b hb
        omega

/-- A unit that has been used before counts on both sides. -/
theorem Needs.add (h : Needs left n x after) (k : Nat) : Needs (left + k) (n + k) x after := by
  constructor
  · refine h.returns.trans ?_
    omega
  · intro a ha
    have huses := h.uses a ha
    omega

theorem Needs.map {f : α → β} {room : β → Nat} (h : Needs left n x fun a => room (f a)) :
    Needs left n (x.map f) room := by
  constructor
  · rw [Ghost.returns_map]
    exact h.returns
  · intro b hb
    cases x with
    | error e => cases hb
    | ok a =>
        rw [← Except.ok.inj hb]
        exact h.uses a rfl

/-- Ghost state needs nothing. -/
theorem Needs.erase {π : α → β} {P : α → Prop} {y : Except ε β} {room : β → Nat}
    (herases : Ghost.Erases π P x y) (h : Needs left n x fun a => room (π a)) :
    Needs left n y room := by
  constructor
  · rw [herases.returns]
    exact h.returns
  · intro b hb
    obtain ⟨a, ha, rfl, -⟩ := herases.of_ok hb
    exact h.uses a ha

end Supply
