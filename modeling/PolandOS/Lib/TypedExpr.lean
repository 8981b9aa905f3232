import Mathlib.Tactic.Common

/-! # Integer and boolean expressions

A small typed expression language and what its expressions mean in mathematics: the
integers are unbounded, and a quotient is rounded towards zero. An expression that
mixes up integers and booleans cannot be built. `Defined R` says that no subexpression
divides by zero or has a value outside `R`.
-/

namespace TypedExpr

/-- The types of the expressions. -/
inductive Ty where
  | int | bool
deriving DecidableEq, Repr

/-- The values of a type. -/
abbrev Ty.Val : Ty → Type
  | .int => Int
  | .bool => Bool

inductive ArithOp where
  | add | sub | mul | div | mod
deriving DecidableEq, Repr

/-- The arithmetic operations; the remainder has the sign of the dividend. -/
def ArithOp.apply : ArithOp → Int → Int → Int
  | .add, a, b => a + b
  | .sub, a, b => a - b
  | .mul, a, b => a * b
  | .div, a, b => a.tdiv b
  | .mod, a, b => a.tmod b

/-- The operations that ask for a divisor. -/
def ArithOp.Divides (op : ArithOp) : Prop := op = .div ∨ op = .mod

instance : DecidablePred ArithOp.Divides := fun _ => inferInstanceAs (Decidable (_ ∨ _))

inductive CompareOp where
  | eq | ne | lt | gt | le | ge
deriving DecidableEq, Repr

def CompareOp.apply : CompareOp → Int → Int → Bool
  | .eq, a, b => decide (a = b)
  | .ne, a, b => decide (a ≠ b)
  | .lt, a, b => decide (a < b)
  | .gt, a, b => decide (b < a)
  | .le, a, b => decide (a ≤ b)
  | .ge, a, b => decide (b ≤ a)

inductive LogicOp where
  | and | or
deriving DecidableEq, Repr

def LogicOp.apply : LogicOp → Bool → Bool → Bool
  | .and, a, b => a && b
  | .or, a, b => a || b

/-- The expressions over variables in `ν`. -/
inductive Expr (ν : Type) : Ty → Type
  | lit (i : Int) : Expr ν .int
  | var (x : ν) : Expr ν .int
  | neg (e : Expr ν .int) : Expr ν .int
  | arith (op : ArithOp) (l r : Expr ν .int) : Expr ν .int
  | compare (op : CompareOp) (l r : Expr ν .int) : Expr ν .bool
  | not (e : Expr ν .bool) : Expr ν .bool
  | logic (op : LogicOp) (l r : Expr ν .bool) : Expr ν .bool

variable {ν : Type} (ρ : ν → Int)

/-- The meaning of an expression. -/
def Expr.denote : {τ : Ty} → Expr ν τ → τ.Val
  | _, .lit i => i
  | _, .var x => ρ x
  | _, .neg e => -e.denote
  | _, .arith op l r => op.apply l.denote r.denote
  | _, .compare op l r => op.apply l.denote r.denote
  | _, .not e => !e.denote
  | _, .logic op l r => op.apply l.denote r.denote

/-- No subexpression divides by zero or has a value outside `R`. -/
def Expr.Defined (R : Int → Prop) : {τ : Ty} → Expr ν τ → Prop
  | _, .lit _ => True
  | _, .var _ => True
  | _, .neg e => e.Defined R ∧ R (-e.denote ρ)
  | _, .arith op l r =>
    l.Defined R ∧ r.Defined R ∧ (op.Divides → r.denote ρ ≠ 0) ∧
      R (op.apply (l.denote ρ) (r.denote ρ))
  | _, .compare _ l r => l.Defined R ∧ r.Defined R
  | _, .not e => e.Defined R
  | _, .logic _ l r => l.Defined R ∧ r.Defined R

/-- The variable occurs in the expression. -/
def Expr.Mentions (x : ν) : {τ : Ty} → Expr ν τ → Prop
  | _, .lit _ => False
  | _, .var y => x = y
  | _, .neg e => e.Mentions x
  | _, .arith _ l r => l.Mentions x ∨ r.Mentions x
  | _, .compare _ l r => l.Mentions x ∨ r.Mentions x
  | _, .not e => e.Mentions x
  | _, .logic _ l r => l.Mentions x ∨ r.Mentions x

end TypedExpr
