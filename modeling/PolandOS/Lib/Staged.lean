import Mathlib.Tactic.Common

/-! # Computations that may be left early

`Staged κ σ α` is a computation on a state `σ` that returns an `α`, or is left for a
reason in `κ`. The state stays what it is at that point: nothing is undone. `Outcome`
says what holds in the one case and in the other, and the rules below follow the
computation step by step.
-/

namespace Staging

/-- A computation on a state that may be left. -/
def Staged (κ σ α : Type) : Type := σ → Except κ α × σ

variable {κ σ α β : Type}

namespace Staged

protected def pure (a : α) : Staged κ σ α := fun s => (.ok a, s)

protected def bind (x : Staged κ σ α) (f : α → Staged κ σ β) : Staged κ σ β := fun s =>
  match x s with
  | (.ok a, t) => f a t
  | (.error k, t) => (.error k, t)

instance : Monad (Staged κ σ) where
  pure := Staged.pure
  bind := Staged.bind

/-- The computation is left. -/
def leave (k : κ) : Staged κ σ α := fun s => (.error k, s)

/-- The state. -/
def get : Staged κ σ σ := fun s => (.ok s, s)

/-- A change of the state. -/
def modify (f : σ → σ) : Staged κ σ Unit := fun s => (.ok (), f s)

/-- A value that may be missing. -/
def ofOption (k : κ) : Option α → Staged κ σ α
  | none => leave k
  | some a => pure a

end Staged

open Staged

/-- What holds behind a computation: `Q` where it returns, and `R` where it is left. -/
def Outcome (Q : α → σ → Prop) (R : κ → σ → Prop) (x : Staged κ σ α) (s : σ) : Prop :=
  match x s with
  | (.ok a, t) => Q a t
  | (.error k, t) => R k t

variable {Q Q' : α → σ → Prop} {P : β → σ → Prop} {R R' : κ → σ → Prop} {x : Staged κ σ α} {s t : σ}

theorem Outcome.of_ok (h : Outcome Q R x s) {a : α} (hx : x s = (.ok a, t)) : Q a t := by
  unfold Outcome at h
  rw [hx] at h
  exact h

theorem Outcome.of_error (h : Outcome Q R x s) {k : κ} (hx : x s = (.error k, t)) : R k t := by
  unfold Outcome at h
  rw [hx] at h
  exact h

theorem outcome_pure {a : α} (h : Q a s) : Outcome Q R (pure a : Staged κ σ α) s := h

theorem outcome_leave {k : κ} (h : R k s) : Outcome Q R (leave k : Staged κ σ α) s := h

theorem outcome_modify {Q : Unit → σ → Prop} {f : σ → σ} (h : Q () (f s)) :
    Outcome Q R (modify f : Staged κ σ Unit) s := h

theorem outcome_ofOption {k : κ} {o : Option α} (hsome : ∀ a, o = some a → Q a s)
    (hnone : o = none → R k s) : Outcome Q R (ofOption k o : Staged κ σ α) s := by
  cases o with
  | none => exact hnone rfl
  | some a => exact hsome a rfl

theorem outcome_bind {f : α → Staged κ σ β} (hx : Outcome Q R x s)
    (hf : ∀ a t, Q a t → Outcome P R (f a) t) : Outcome P R (x >>= f) s := by
  change Outcome P R (Staged.bind x f) s
  unfold Outcome Staged.bind
  rcases hxs : x s with ⟨r, t⟩
  cases r with
  | ok a => exact hf a t (hx.of_ok hxs)
  | error k => exact hx.of_error hxs

theorem outcome_ite {c : Prop} [Decidable c] {y : Staged κ σ α} (hx : c → Outcome Q R x s)
    (hy : ¬c → Outcome Q R y s) : Outcome Q R (if c then x else y) s := by
  by_cases h : c
  · rw [if_pos h]
    exact hx h
  · rw [if_neg h]
    exact hy h

theorem Outcome.mono (h : Outcome Q R x s) (hQ : ∀ a t, Q a t → Q' a t)
    (hR : ∀ k t, R k t → R' k t) : Outcome Q' R' x s := by
  unfold Outcome at h ⊢
  rcases hxs : x s with ⟨r, t⟩
  rw [hxs] at h
  cases r with
  | ok a => exact hQ a t h
  | error k => exact hR k t h

theorem Outcome.and (h : Outcome Q R x s) (h' : Outcome Q' R' x s) :
    Outcome (fun a t => Q a t ∧ Q' a t) (fun k t => R k t ∧ R' k t) x s := by
  unfold Outcome at h h' ⊢
  rcases hxs : x s with ⟨r, t⟩
  rw [hxs] at h h'
  cases r with
  | ok a => exact ⟨h, h'⟩
  | error k => exact ⟨h, h'⟩

/-- The reason for which a computation was left. -/
def exitOf : Except κ α × σ → Option κ
  | (.ok _, _) => none
  | (.error k, _) => some k

theorem eq_of_exitOf {r : Except κ α × σ} {k : κ} (h : exitOf r = some k) : r = (.error k, r.2) := by
  rcases r with ⟨a | k', t⟩
  · cases h
    rfl
  · cases h

theorem eq_of_exitOf_none {r : Except κ Unit × σ} (h : exitOf r = none) : r = (.ok (), r.2) := by
  rcases r with ⟨a | k', t⟩
  · cases h
  · rfl

/-! ## What is kept -/

/-- The computation keeps what `view` shows of the state, and is left for a reason in
`E` only. -/
def Keeps {ρ : Type} (view : σ → ρ) (E : κ → Prop) (x : Staged κ σ α) : Prop :=
  ∀ s, Outcome (fun _ t => view t = view s) (fun k t => E k ∧ view t = view s) x s

variable {ρ : Type} {view : σ → ρ} {E : κ → Prop} {k : κ} {p : ρ}

theorem keeps_pure (a : α) : Keeps view E (pure a : Staged κ σ α) := fun _ => outcome_pure rfl

theorem keeps_leave (h : E k) : Keeps view E (leave k : Staged κ σ α) := fun _ =>
  outcome_leave ⟨h, rfl⟩

theorem keeps_modify {f : σ → σ} (h : ∀ s, view (f s) = view s) :
    Keeps view E (modify f : Staged κ σ Unit) := fun s => outcome_modify (h s)

theorem keeps_bind {f : α → Staged κ σ β} (hx : Keeps view E x) (hf : ∀ a, Keeps view E (f a)) :
    Keeps view E (x >>= f) := by
  intro s
  refine outcome_bind (hx s) fun a t ht => ?_
  refine (hf a t).mono ?_ ?_
  · exact fun b u hu => hu.trans ht
  · exact fun e u hu => ⟨hu.1, hu.2.trans ht⟩

theorem keeps_ite {c : Prop} [Decidable c] {y : Staged κ σ α} (hx : Keeps view E x)
    (hy : Keeps view E y) : Keeps view E (if c then x else y) := fun s =>
  outcome_ite (fun _ => hx s) fun _ => hy s

theorem keeps_ofOption (h : E k) (o : Option α) :
    Keeps view E (ofOption k o : Staged κ σ α) := by
  cases o with
  | none => exact keeps_leave h
  | some a => exact keeps_pure a

/-- A check at which the computation is left, before it goes on with `f`. -/
theorem keeps_check {c : Prop} [Decidable c] {f : Unit → Staged κ σ α} (h : E k)
    (hf : Keeps view E (f ())) : Keeps view E (if c then leave k >>= f else f ()) :=
  keeps_ite (keeps_leave (α := α) h) hf

/-- A part that keeps what is shown, from a state that shows `p`. -/
theorem Keeps.outcome (h : Keeps view E x) (hs : view s = p)
    (hR : ∀ k t, E k → view t = p → R k t) : Outcome (fun _ t => view t = p) R x s :=
  (h s).mono (fun _ _ ht => ht.trans hs) fun k t ht => hR k t ht.1 (ht.2.trans hs)

end Staging
