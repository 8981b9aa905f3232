import Mathlib.Logic.Function.Basic
import PolandOS.Lib.TypedExpr

/-! # Programs with loops

A small structured language over the expressions of `TypedExpr`: declarations,
assignments, output, branches and loops, with `break` and `continue`. All variables live
in one store. `BigStep D` is its meaning in mathematics; `D` says which expressions are
defined under which values, and is a parameter.
-/

namespace WhileLang

open TypedExpr

/-- An argument of an output statement. -/
abbrev Arg (ν : Type) := (τ : Ty) × Expr ν τ

/-- What is put out for an argument. -/
abbrev Piece := (τ : Ty) × τ.Val

/-- Statements over variables in `ν`. -/
inductive Stmt (ν : Type) where
  | declare (x : ν) (e : Expr ν .int)
  | assign (x : ν) (e : Expr ν .int)
  | print (args : List (Arg ν))
  | ifThen (c : Expr ν .bool) (body : List (Stmt ν))
  | ifElse (c : Expr ν .bool) (body other : List (Stmt ν))
  | while (c : Expr ν .bool) (body : List (Stmt ν))
  | break
  | continue
  | block (body : List (Stmt ν))

/-- How a statement ends. -/
inductive Outcome where
  | normal | «break» | «continue»
deriving DecidableEq, Repr

/-- The variables that are declared, and their values. -/
abbrev Store (ν : Type) := ν → Option Int

variable {ν : Type}

/-- The value of a variable; of one that is not declared, zero. -/
def Store.value (ρ : Store ν) (x : ν) : Int := (ρ x).getD 0

section Semantics

variable (D : (ν → Int) → ∀ {τ : Ty}, Expr ν τ → Prop)

/-- The expression is defined, all its variables are declared, and this is its value. -/
structure Yields (ρ : Store ν) {τ : Ty} (e : Expr ν τ) (v : τ.Val) : Prop where
  declared : ∀ x, e.Mentions x → (ρ x).isSome
  defined : D ρ.value e
  denotes : e.denote ρ.value = v

/-- The values of the arguments. -/
inductive Prints (ρ : Store ν) : List (Arg ν) → List Piece → Prop
  | nil : Prints ρ [] []
  | cons {τ : Ty} {e : Expr ν τ} {v : τ.Val} {args : List (Arg ν)} {pieces : List Piece} :
      Yields D ρ e v → Prints ρ args pieces → Prints ρ (⟨τ, e⟩ :: args) (⟨τ, v⟩ :: pieces)

variable [DecidableEq ν]

/-- What a statement does: how it ends, with which store, and which lines it puts out. -/
inductive BigStep : Stmt ν → Store ν → Outcome → Store ν → List (List Piece) → Prop
  | declare {x : ν} {e : Expr ν .int} {ρ : Store ν} {k : Int} : Yields D ρ e k →
      BigStep (.declare x e) ρ .normal (Function.update ρ x (some k)) []
  | assign {x : ν} {e : Expr ν .int} {ρ : Store ν} {k : Int} : Yields D ρ e k →
      (ρ x).isSome → BigStep (.assign x e) ρ .normal (Function.update ρ x (some k)) []
  | print {args : List (Arg ν)} {ρ : Store ν} {pieces : List Piece} : Prints D ρ args pieces →
      BigStep (.print args) ρ .normal ρ [pieces]
  | ifThenTrue {c : Expr ν .bool} {body : List (Stmt ν)} {ρ ρ' : Store ν} {o : Outcome}
      {out : List (List Piece)} : Yields D ρ c true → BigStep (.block body) ρ o ρ' out →
      BigStep (.ifThen c body) ρ o ρ' out
  | ifThenFalse {c : Expr ν .bool} {body : List (Stmt ν)} {ρ : Store ν} : Yields D ρ c false →
      BigStep (.ifThen c body) ρ .normal ρ []
  | ifElseTrue {c : Expr ν .bool} {body other : List (Stmt ν)} {ρ ρ' : Store ν} {o : Outcome}
      {out : List (List Piece)} : Yields D ρ c true → BigStep (.block body) ρ o ρ' out →
      BigStep (.ifElse c body other) ρ o ρ' out
  | ifElseFalse {c : Expr ν .bool} {body other : List (Stmt ν)} {ρ ρ' : Store ν} {o : Outcome}
      {out : List (List Piece)} : Yields D ρ c false → BigStep (.block other) ρ o ρ' out →
      BigStep (.ifElse c body other) ρ o ρ' out
  | whileFalse {c : Expr ν .bool} {body : List (Stmt ν)} {ρ : Store ν} : Yields D ρ c false →
      BigStep (.while c body) ρ .normal ρ []
  | whileBreak {c : Expr ν .bool} {body : List (Stmt ν)} {ρ ρ' : Store ν}
      {out : List (List Piece)} : Yields D ρ c true → BigStep (.block body) ρ .break ρ' out →
      BigStep (.while c body) ρ .normal ρ' out
  | whileNext {c : Expr ν .bool} {body : List (Stmt ν)} {ρ ρ₁ ρ' : Store ν} {o o' : Outcome}
      {out out' : List (List Piece)} : Yields D ρ c true →
      BigStep (.block body) ρ o ρ₁ out → o ≠ .break → BigStep (.while c body) ρ₁ o' ρ' out' →
      BigStep (.while c body) ρ o' ρ' (out ++ out')
  | break {ρ : Store ν} : BigStep .break ρ .break ρ []
  | continue {ρ : Store ν} : BigStep .continue ρ .continue ρ []
  | blockNil {ρ : Store ν} : BigStep (.block []) ρ .normal ρ []
  | blockStop {s : Stmt ν} {ss : List (Stmt ν)} {ρ ρ' : Store ν} {o : Outcome}
      {out : List (List Piece)} : BigStep s ρ o ρ' out → o ≠ .normal →
      BigStep (.block (s :: ss)) ρ o ρ' out
  | blockNext {s : Stmt ν} {ss : List (Stmt ν)} {ρ ρ₁ ρ' : Store ν} {o : Outcome}
      {out out' : List (List Piece)} : BigStep s ρ .normal ρ₁ out →
      BigStep (.block ss) ρ₁ o ρ' out' → BigStep (.block (s :: ss)) ρ o ρ' (out ++ out')

/-- A program that starts with the empty store ends and has put out these lines. -/
def Runs (ss : List (Stmt ν)) (out : List (List Piece)) : Prop :=
  ∃ o ρ, BigStep D (.block ss) (fun _ => none) o ρ out

end Semantics

/-- The statement may stand where it stands: whether there is a loop around it. All its
expressions satisfy `E`, and all names that it binds are in `N`. -/
inductive Stmt.WellFormed (N : ν → Prop) (E : ∀ {τ : Ty}, Expr ν τ → Prop) : Bool → Stmt ν → Prop
  | declare {l : Bool} {x : ν} {e : Expr ν .int} : N x → E e → WellFormed N E l (.declare x e)
  | assign {l : Bool} {x : ν} {e : Expr ν .int} : N x → E e → WellFormed N E l (.assign x e)
  | print {l : Bool} {args : List (Arg ν)} : (∀ a ∈ args, E a.2) → WellFormed N E l (.print args)
  | ifThen {l : Bool} {c : Expr ν .bool} {body : List (Stmt ν)} : E c →
      (∀ s ∈ body, WellFormed N E l s) → WellFormed N E l (.ifThen c body)
  | ifElse {l : Bool} {c : Expr ν .bool} {body other : List (Stmt ν)} : E c →
      (∀ s ∈ body, WellFormed N E l s) → (∀ s ∈ other, WellFormed N E l s) →
      WellFormed N E l (.ifElse c body other)
  | while {l : Bool} {c : Expr ν .bool} {body : List (Stmt ν)} : E c →
      (∀ s ∈ body, WellFormed N E true s) → WellFormed N E l (.while c body)
  | break : WellFormed N E true .break
  | continue : WellFormed N E true .continue
  | block {l : Bool} {body : List (Stmt ν)} : (∀ s ∈ body, WellFormed N E l s) →
      WellFormed N E l (.block body)

section Outcomes

variable {D : (ν → Int) → ∀ {τ : Ty}, Expr ν τ → Prop} [DecidableEq ν] {N : ν → Prop}
  {E : ∀ {τ : Ty}, Expr ν τ → Prop} {s : Stmt ν} {ρ ρ' : Store ν} {o : Outcome}
  {out : List (List Piece)}

/-- A loop lets no `break` and no `continue` out. -/
theorem BigStep.while_outcome {c : Expr ν .bool} {body : List (Stmt ν)}
    (h : BigStep D (.while c body) ρ o ρ' out) : o = .normal := by
  generalize hs : Stmt.while c body = s at h
  induction h with
  | whileFalse => rfl
  | whileBreak => rfl
  | whileNext _ _ _ _ _ ih => exact ih hs
  | _ => cases hs

/-- Outside of loops every statement ends normally. -/
theorem BigStep.outcome (h : BigStep D s ρ o ρ' out) (hs : s.WellFormed N E false) :
    o = .normal := by
  induction h with
  | declare | assign | print | ifThenFalse | whileFalse | whileBreak | blockNil => rfl
  | ifThenTrue _ _ ih =>
      cases hs with
      | ifThen _ hbody => exact ih (.block hbody)
  | ifElseTrue _ _ ih =>
      cases hs with
      | ifElse _ hbody _ => exact ih (.block hbody)
  | ifElseFalse _ _ ih =>
      cases hs with
      | ifElse _ _ hother => exact ih (.block hother)
  | whileNext _ _ _ hrest => exact hrest.while_outcome
  | «break» => cases hs
  | «continue» => cases hs
  | blockStop _ ho ih =>
      cases hs with
      | block hbody => exact absurd (ih (hbody _ List.mem_cons_self)) ho
  | blockNext _ _ _ ih =>
      cases hs with
      | block hbody => exact ih (.block fun x hx => hbody x (List.mem_cons_of_mem _ hx))

end Outcomes

end WhileLang
