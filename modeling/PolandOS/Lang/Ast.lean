import Mathlib.Tactic.Common

/-! # PolskiScript syntax trees

The tree of `kernel/lang/polskiscript.h` and the 64-bit integer operations that
the parser and the interpreter perform.
-/

namespace PolandOS.PolskiScript

/-- `ASTNodeType`. -/
inductive ASTNodeType where
  | program | varDecl | funcDecl | assign | binaryOp | unaryOp | call | «if» | «while» | «for»
  | «return» | print | input | «break» | «continue» | block | identifier
  | literalInt | literalFloat | literalString | literalBool | literalNull
deriving DecidableEq, Repr

/-- `ASTNode`. A string that is not set is empty, and `children` is the array of
`child_count` pointers. The line and the column of a node are never set. -/
structure ASTNode where
  type : ASTNodeType
  strValue : List Char
  intValue : Int64
  floatValue : Float
  boolValue : Bool
  children : List ASTNode

/-- `ast_node_create`, which zeroes the node. -/
def astNodeCreate (type : ASTNodeType) : ASTNode := ⟨type, [], 0, 0, false, []⟩

/-- The operations on `i64`. -/
inductive IntOp where
  | add | sub | mul | div | mod | neg
deriving DecidableEq, Repr

/-- What the machine computes: sums, differences and products wrap, and the
quotient is rounded towards zero. Division is asked for only where the processor
does not trap. -/
def IntOp.run : IntOp → Int64 → Int64 → Int64
  | .add, a, b => a + b
  | .sub, a, b => a - b
  | .mul, a, b => a * b
  | .div, a, b => a / b
  | .mod, a, b => a % b
  | .neg, a, _ => -a

/-- How an evaluation can fail to return. Only `outOfFuel` is none of the
program's own behaviours. -/
inductive Stop where
  | outOfFuel
  /-- The processor's divide error, from `idiv`. -/
  | divideError
  /-- A read of `children` behind its last element. -/
  | outOfBounds
  /-- `kpanic`, from `kfree`. -/
  | panic
deriving DecidableEq, Repr

end PolandOS.PolskiScript
