import Mathlib.Tactic.Common

/-! # Programs in dialogue

A program asks questions of its environment and goes on with the answers; a program that is
out of fuel stops. `Path p tr p'` says that the exchanges `tr` lead from `p` to `p'`, and
`Returns p tr a` that they lead to its result `a`.

* `returns_bind`: the exchanges of a sequence of programs
* `Path.answer`: one more answer
* `Path.asks`: what is left of a program asks no other questions
* `returns_serve`: a run in an environment
-/

namespace Dialogue

variable {Q : Type} {A : Q → Type} {α β : Type}

/-- A program. -/
inductive Prog (Q : Type) (A : Q → Type) (α : Type) where
  | done (a : α)
  | stop
  | ask (q : Q) (k : A q → Prog Q A α)

/-- A program, and one that goes on with its result. -/
def Prog.bind : Prog Q A α → (α → Prog Q A β) → Prog Q A β
  | .done a, f => f a
  | .stop, _ => .stop
  | .ask q k, f => .ask q fun r => (k r).bind f

instance : Monad (Prog Q A) where
  pure := .done
  bind := .bind

/-- A question is asked. -/
def query (q : Q) : Prog Q A (A q) := .ask q .done

/-- The exchanges lead from a program to what is left of it. -/
inductive Path : Prog Q A α → List (Sigma A) → Prog Q A α → Prop
  | refl {p : Prog Q A α} : Path p [] p
  | ask {q : Q} {k : A q → Prog Q A α} {r : A q} {tr : List (Sigma A)} {p : Prog Q A α} :
      Path (k r) tr p → Path (.ask q k) (⟨q, r⟩ :: tr) p

/-- They lead to its result. -/
abbrev Returns (p : Prog Q A α) (tr : List (Sigma A)) (a : α) : Prop := Path p tr (.done a)

variable {p : Prog Q A α} {f : α → Prog Q A β} {tr tr' : List (Sigma A)} {a : α} {b : β}

/-- One more question is answered. -/
theorem Path.answer {q : Q} {k : A q → Prog Q A α} (h : Path p tr (.ask q k)) (r : A q) :
    Path p (tr ++ [⟨q, r⟩]) (k r) := by
  generalize hleft : Prog.ask q k = left at h
  induction h with
  | refl =>
      subst hleft
      exact .ask .refl
  | ask _ ih => exact .ask (ih hleft)

theorem Path.trans {p' p'' : Prog Q A α} (h : Path p tr p') (h' : Path p' tr' p'') :
    Path p (tr ++ tr') p'' := by
  induction h with
  | refl => exact h'
  | ask _ ih => exact .ask (ih h')

theorem Path.split {p'' : Prog Q A α} (h : Path p (tr ++ tr') p'') :
    ∃ p', Path p tr p' ∧ Path p' tr' p'' := by
  induction tr generalizing p with
  | nil => exact ⟨p, .refl, h⟩
  | cons e tr ih =>
      cases h with
      | ask h =>
          obtain ⟨p', h₁, h₂⟩ := ih h
          exact ⟨p', .ask h₁, h₂⟩

theorem Path.bind {p' : Prog Q A α} (h : Path p tr p') : Path (p >>= f) tr (p' >>= f) := by
  induction h with
  | refl => exact .refl
  | ask _ ih => exact .ask ih

theorem returns_pure {a' : α} : Returns (pure a : Prog Q A α) tr a' ↔ tr = [] ∧ a' = a := by
  constructor
  · intro h
    cases h
    exact ⟨rfl, rfl⟩
  · rintro ⟨rfl, rfl⟩
    exact .refl

theorem not_returns_stop : ¬Returns (.stop : Prog Q A α) tr a := nofun

theorem returns_query {q : Q} {r : A q} : Returns (query q) tr r ↔ tr = [⟨q, r⟩] := by
  constructor
  · intro h
    cases h with
    | ask h =>
        cases h
        rfl
  · rintro rfl
    exact .ask .refl

theorem returns_bind : Returns (p >>= f) tr b ↔
    ∃ tr₁ a tr₂, tr = tr₁ ++ tr₂ ∧ Returns p tr₁ a ∧ Returns (f a) tr₂ b := by
  constructor
  · intro h
    induction p generalizing tr with
    | done a => exact ⟨[], a, tr, rfl, .refl, h⟩
    | stop => exact absurd h not_returns_stop
    | ask q k ih =>
        cases h with
        | ask h =>
            obtain ⟨tr₁, a, tr₂, rfl, h₁, h₂⟩ := ih _ h
            exact ⟨_ :: tr₁, a, tr₂, rfl, .ask h₁, h₂⟩
  · rintro ⟨tr₁, a, tr₂, rfl, h₁, h₂⟩
    exact (h₁.bind (f := f)).trans h₂

theorem Returns.bind (h₁ : Returns p tr a) (h₂ : Returns (f a) tr' b) :
    Returns (p >>= f) (tr ++ tr') b := returns_bind.mpr ⟨tr, a, tr', rfl, h₁, h₂⟩

theorem returns_map {g : α → β} : Returns (g <$> p) tr b ↔ ∃ a, Returns p tr a ∧ b = g a := by
  change Returns (p >>= fun a => pure (g a)) tr b ↔ _
  rw [returns_bind]
  constructor
  · rintro ⟨tr₁, a, tr₂, rfl, hp, hg⟩
    rcases returns_pure.mp hg with ⟨rfl, rfl⟩
    exact ⟨a, by rwa [List.append_nil], rfl⟩
  · rintro ⟨a, hp, rfl⟩
    exact ⟨tr, a, [], (List.append_nil tr).symm, hp, returns_pure.mpr ⟨rfl, rfl⟩⟩

/-! ## Questions -/

/-- Every question of a program satisfies `P`. -/
def Prog.Asks (P : Q → Prop) : Prog Q A α → Prop
  | .done _ => True
  | .stop => True
  | .ask q k => P q ∧ ∀ r, (k r).Asks P

variable {P : Q → Prop}

theorem asks_bind (hp : p.Asks P) (hf : ∀ a, (f a).Asks P) : (p >>= f).Asks P := by
  induction p with
  | done a => exact hf a
  | stop => trivial
  | ask q k ih => exact ⟨hp.1, fun r => ih r (hp.2 r)⟩

theorem asks_query {q : Q} (h : P q) : (query q : Prog Q A (A q)).Asks P := ⟨h, fun _ => trivial⟩

theorem asks_map {g : α → β} (hp : p.Asks P) : (g <$> p).Asks P := asks_bind hp fun _ => trivial

theorem Path.asks {p' : Prog Q A α} (h : Path p tr p') (hp : p.Asks P) : p'.Asks P := by
  induction h with
  | refl => exact hp
  | ask _ ih => exact ih (hp.2 _)

/-! ## Environments -/

variable {σ : Type}

/-- A program is run in an environment that answers by its state: the exchanges, and the
result if it comes to one. -/
def Prog.serve (env : σ → (q : Q) → A q × σ) : Prog Q A α → σ → List (Sigma A) × Option α
  | .done a, _ => ([], some a)
  | .stop, _ => ([], none)
  | .ask q k, s =>
    let answer := env s q
    let rest := (k answer.1).serve env answer.2
    (⟨q, answer.1⟩ :: rest.1, rest.2)

theorem returns_serve {env : σ → (q : Q) → A q × σ} {s : σ} (h : (p.serve env s).2 = some a) :
    Returns p (p.serve env s).1 a := by
  induction p generalizing s with
  | done b =>
      cases h
      exact .refl
  | stop => cases h
  | ask q k ih => exact .ask (ih _ h)

end Dialogue
