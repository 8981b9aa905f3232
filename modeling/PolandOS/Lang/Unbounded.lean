import PolandOS.Lang.Arithmetic

/-! # Scripts over unbounded integers

What a script means when its integers have any size: the evaluator of the interpreter, where
nothing wraps and nothing traps. It reads the program and the environment and nothing that the
machine computes, and it logs the operations, so that one can ask whether they stay in range.
-/

namespace PolandOS.PolskiScript.Unbounded

open Logging

/-! ## Values -/

/-- `Value`, with an integer of any size. -/
inductive Value where
  | null (bytes : Int64)
  | int (i : Int)
  | float (x : Float)
  | bool (b : Bool) (bytes : Int64)
  | string (p : Int64)

/-- The value that has only 64 bits of an integer. -/
def Value.bounded : Value → PolskiScript.Value
  | .null bytes => .null bytes
  | .int i => .int (Int64.ofInt i)
  | .float x => .float x
  | .bool b bytes => .bool b bytes
  | .string p => .string p

/-- `(v.type == VAL_BOOL) ? v.as_bool : (v.as_int != 0)`. -/
def Value.isTrue : Value → Bool
  | .int i => i != 0
  | v => v.bounded.isTrue

/-- `Environment`, without its parent. -/
abbrev Frame := List (List Char × Value)

/-- `Interpreter`. What is printed and the text of an error decide nothing. -/
structure Interp (σ : Type) where
  env : Frame
  parents : List Frame
  breakFlag : Bool
  continueFlag : Bool
  returnFlag : Bool
  returnValue : Value
  hasError : Bool
  mem : σ

/-- The steps of a run that are logged. -/
inductive Event where
  | parse (e : ParseEvent)
  /-- An integer operation is executed. -/
  | arith (op : IntOp) (a b : Int)

/-- A run of the interpreter. -/
abbrev Run := Logged Event Stop

/-- An evaluator of nodes. -/
abbrev Evaluator (σ : Type) := ASTNode → Interp σ → Run (Value × Interp σ)

/-- What an operation is in mathematics; a quotient is rounded towards zero. -/
def compute : IntOp → Int → Int → Int
  | .add, a, b => a + b
  | .sub, a, b => a - b
  | .mul, a, b => a * b
  | .div, a, b => a.tdiv b
  | .mod, a, b => a.tmod b
  | .neg, a, _ => -a

/-- No divisor is zero, and the result fits `i64`, for a remainder the quotient. -/
def OperationFits : IntOp → Int → Int → Prop
  | .div, a, b => b ≠ 0 ∧ InRange (a.tdiv b)
  | .mod, a, b => b ≠ 0 ∧ InRange (a.tdiv b)
  | op, a, b => InRange (compute op a b)

/-- The condition on a run. -/
def EventFits : Event → Prop
  | .parse e => ParseFits e
  | .arith op a b => OperationFits op a b

section Source

variable {σ : Type} (m : Memory σ)

/-- `value_create_null`. -/
def valueCreateNull (s : Interp σ) : Value × Interp σ :=
  (.null (m.uninitialised s.mem).1, { s with mem := (m.uninitialised s.mem).2 })

/-- `value_create_bool`. -/
def valueCreateBool (b : Bool) (s : Interp σ) : Value × Interp σ :=
  (.bool b (m.uninitialised s.mem).1, { s with mem := (m.uninitialised s.mem).2 })

/-- `value_create_string`. -/
def valueCreateString (str : List Char) (s : Interp σ) : Value × Interp σ :=
  (.string (m.store str s.mem).1, { s with mem := (m.store str s.mem).2 })

/-- `value_free`. -/
def valueFree (v : Value) (s : Interp σ) : Run (Interp σ) :=
  match v with
  | .string p =>
    if p = 0 then return s
    else do
      let mem ← Logged.ofOption .panic (m.kfree p s.mem)
      return { s with mem := mem }
  | _ => return s

/-! ## Environments -/

/-- The value of the first variable of the name in a frame. -/
def lookup (name : List Char) (frame : Frame) : Option Value :=
  (frame.find? (·.1 == name)).map Prod.snd

/-- The frame with another value in the first variable of the name. -/
def assign (name : List Char) (v : Value) : Frame → Frame
  | [] => []
  | (n, old) :: frame =>
    if n == name then (n, v) :: frame else (n, old) :: assign name v frame

/-- `env_define`. -/
def envDefine (name : List Char) (v : Value) (s : Interp σ) : Run (Interp σ) :=
  if s.env.length ≥ envMaxVars then return s
  else
    match lookup name s.env with
    | some old => do
      let s ← valueFree m old s
      return { s with env := assign name v s.env }
    | none => return { s with env := s.env ++ [(name, v)] }

/-- `env_get`. -/
def envGet (name : List Char) : List Frame → Option Value
  | [] => none
  | frame :: parents =>
    match lookup name frame with
    | some v => some v
    | none => envGet name parents

/-- The frames with another value in the variable that `env_get` finds. -/
def assignFrames (name : List Char) (v : Value) : List Frame → List Frame
  | [] => []
  | frame :: parents =>
    match lookup name frame with
    | some _ => assign name v frame :: parents
    | none => frame :: assignFrames name v parents

/-- The environments from `current_env` on. -/
def Interp.frames (s : Interp σ) : List Frame := s.env :: s.parents

/-- The interpreter with other environments. -/
def Interp.withFrames (s : Interp σ) (frames : List Frame) : Interp σ :=
  { s with env := frames.headD [], parents := frames.tail }

/-- `env_set`. -/
def envSet (name : List Char) (v : Value) (s : Interp σ) : Run (Bool × Interp σ) :=
  match envGet name s.frames with
  | some old => do
    let s ← valueFree m old s
    return (true, s.withFrames (assignFrames name v s.frames))
  | none => return (false, s)

/-! ## Operators -/

/-- An integer operation. -/
def intArith (op : IntOp) (a b : Int) : Run Int := do
  Logged.emit (.arith op a b)
  return compute op a b

/-- What the arithmetic part of the operators decides. -/
inductive Arithmetic where
  | int (op : IntOp) (a b : Int)
  | float (x : Float)
  | divideByZero

/-- `+`, `-` and `*`. -/
def arithmeticOn (op : IntOp) (f : Float → Float → Float) : Value → Value → Option Arithmetic
  | .int a, .int b => some (.int op a b)
  | left, right =>
    if left.bounded.isFloat || right.bounded.isFloat then
      some (.float (f left.bounded.asDouble right.bounded.asDouble))
    else none

/-- The arithmetic operators. -/
def arithmetic (op : Char) (left right : Value) : Option Arithmetic :=
  if op = '+' then arithmeticOn .add (· + ·) left right
  else if op = '-' then arithmeticOn .sub (· - ·) left right
  else if op = '*' then arithmeticOn .mul (· * ·) left right
  else if op = '/' then
    match left, right with
    | .int a, .int b => if b = 0 then some .divideByZero else some (.int .div a b)
    | _, _ => none
  else if op = '%' then
    match left, right with
    | .int a, .int b => some (.int .mod a b)
    | _, _ => none
  else none

/-- `if (left.type == VAL_INT && right.type == VAL_INT) return f(left, right)`. -/
def ifInts (f : Int → Int → Bool) : Value → Value → Option Bool
  | .int a, .int b => some (f a b)
  | _, _ => none

/-- The comparison operators. `<` and `>` look at one character only. -/
def comparison (op : List Char) (left right : Value) : Option Bool :=
  if op = "==".toList then some ((ifInts (· == ·) left right).getD false)
  else if op = "!=".toList then some ((ifInts (· != ·) left right).getD true)
  else
    (if op.headD nul = '<' then ifInts (fun a b => decide (a < b)) left right else none) <|>
    (if op.headD nul = '>' then ifInts (fun a b => decide (b < a)) left right else none) <|>
    (if op = "<=".toList then ifInts (fun a b => decide (a ≤ b)) left right else none) <|>
    (if op = ">=".toList then ifInts (fun a b => decide (b ≤ a)) left right else none)

/-- The logical operators. -/
def logical (op : List Char) (left right : Value) : Option Bool :=
  if op = "&&".toList then some (left.isTrue && right.isTrue)
  else if op = "||".toList then some (left.isTrue || right.isTrue)
  else none

/-- `has_error = true`. -/
def Interp.fail (s : Interp σ) : Interp σ := { s with hasError := true }

/-- The branch for `AST_BINARY_OP`, once both operands are evaluated. -/
def binaryOp (op : List Char) (left right : Value) (s : Interp σ) : Run (Value × Interp σ) :=
  match arithmetic (op.headD nul) left right with
  | some (.int o a b) => do
    let i ← intArith o a b
    return (.int i, s)
  | some (.float x) => return (.float x, s)
  | some .divideByZero => return valueCreateNull m s.fail
  | none =>
    match comparison op left right <|> logical op left right with
    | some b => return valueCreateBool m b s
    | none => do
      let s ← valueFree m left s
      let s ← valueFree m right s
      return valueCreateNull m s

/-- The branch for `AST_UNARY_OP`, once the operand is evaluated. -/
def unaryOp (op : List Char) (operand : Value) (s : Interp σ) : Run (Value × Interp σ) :=
  match op.headD nul, operand with
  | '-', .int i => do
    let i ← intArith .neg i 0
    return (.int i, s)
  | '-', .float x => return (.float (-x), s)
  | '!', v => return valueCreateBool m (!v.isTrue) s
  | _, v => do
    let s ← valueFree m v s
    return valueCreateNull m s

/-! ## The evaluator -/

/-- `node->children[i]`, without a check. -/
def childAt (node : ASTNode) (i : Nat) : Run ASTNode :=
  Logged.ofOption .outOfBounds node.children[i]?

variable (eval : Evaluator σ)

/-- The branch for `AST_IDENTIFIER`. -/
def evalIdentifier (node : ASTNode) (s : Interp σ) : Run (Value × Interp σ) :=
  match envGet node.strValue s.frames with
  | none => return valueCreateNull m s.fail
  | some v => return (v, s)

/-- The child of a declaration or a return, if there is one. -/
def evalOptional (cs : List ASTNode) (s : Interp σ) : Run (Value × Interp σ) :=
  match cs with
  | [] => return valueCreateNull m s
  | c :: _ => eval c s

/-- The branch for `AST_VAR_DECL`. -/
def evalVarDecl (node : ASTNode) (s : Interp σ) : Run (Value × Interp σ) := do
  let (v, s) ← evalOptional m eval node.children s
  let s ← envDefine m node.strValue v s
  return valueCreateNull m s

/-- The branch for `AST_ASSIGN`. -/
def evalAssign (node : ASTNode) (s : Interp σ) : Run (Value × Interp σ) := do
  let c ← childAt node 0
  let (v, s) ← eval c s
  let (found, s) ← envSet m node.strValue v s
  return (v, if found then s else s.fail)

/-- The branch for `AST_BINARY_OP`. -/
def evalBinary (node : ASTNode) (s : Interp σ) : Run (Value × Interp σ) := do
  let l ← childAt node 0
  let (left, s) ← eval l s
  let r ← childAt node 1
  let (right, s) ← eval r s
  binaryOp m node.strValue left right s

/-- The branch for `AST_UNARY_OP`. -/
def evalUnary (node : ASTNode) (s : Interp σ) : Run (Value × Interp σ) := do
  let c ← childAt node 0
  let (operand, s) ← eval c s
  unaryOp m node.strValue operand s

/-- The loop of `AST_PRINT`. -/
def printArguments : List ASTNode → Interp σ → Run (Interp σ)
  | [], s => return s
  | c :: rest, s => do
    let (v, s) ← eval c s
    let s ← valueFree m v s
    printArguments rest s

/-- A condition: its truth, and its value freed. -/
def evalCondition (node : ASTNode) (s : Interp σ) : Run (Bool × Interp σ) := do
  let c ← childAt node 0
  let (cond, s) ← eval c s
  let s ← valueFree m cond s
  return (cond.isTrue, s)

/-- The branch for `AST_IF`. -/
def evalIf (node : ASTNode) (s : Interp σ) : Run (Value × Interp σ) := do
  let (yes, s) ← evalCondition m eval node s
  if yes then do
    let thenBlock ← childAt node 1
    eval thenBlock s
  else
    match node.children[2]? with
    | some elseBlock => eval elseBlock s
    | none => return valueCreateNull m s

/-- The loop of `AST_WHILE`. -/
def runWhile (node : ASTNode) : Nat → Interp σ → Run (Interp σ)
  | 0, _ => Logged.stop .outOfFuel
  | fuel + 1, s => do
    let (yes, s) ← evalCondition m eval node s
    if !yes then return s
    else do
      let body ← childAt node 1
      let (_, s) ← eval body s
      if s.breakFlag then return { s with breakFlag := false }
      else if s.continueFlag then runWhile node fuel { s with continueFlag := false }
      else if s.returnFlag then return s
      else runWhile node fuel s

/-- The branch for `AST_RETURN`. -/
def evalReturn (node : ASTNode) (s : Interp σ) : Run (Value × Interp σ) := do
  let (v, s) ← evalOptional m eval node.children s
  return valueCreateNull m { s with returnValue := v, returnFlag := true }

/-- The loop of `AST_BLOCK`. -/
def runBlock : List ASTNode → Interp σ → Run (Interp σ)
  | [], s => return s
  | c :: rest, s => do
    let (_, s) ← eval c s
    if s.returnFlag || s.breakFlag || s.continueFlag then return s else runBlock rest s

/-- The loop of `AST_PROGRAM`. -/
def runProgram : List ASTNode → Interp σ → Run (Interp σ)
  | [], s => return s
  | c :: rest, s => do
    let (_, s) ← eval c s
    if s.hasError then return s else runProgram rest s

/-- A statement that is a loop over other nodes returns null. -/
def thenNull (run : Run (Interp σ)) : Run (Value × Interp σ) := do
  let s ← run
  return valueCreateNull m s

/-- The body of `interpreter_eval`, with the evaluator of the nodes inside. -/
def evalNode (fuel : Nat) (node : ASTNode) (s : Interp σ) : Run (Value × Interp σ) :=
  if s.hasError then return valueCreateNull m s
  else
    match node.type with
    | .literalInt => return (.int node.intValue.toInt, s)
    | .literalFloat => return (.float node.floatValue, s)
    | .literalString => return valueCreateString m node.strValue s
    | .literalBool => return valueCreateBool m node.boolValue s
    | .literalNull => return valueCreateNull m s
    | .identifier => evalIdentifier m node s
    | .varDecl => evalVarDecl m eval node s
    | .assign => evalAssign m eval node s
    | .binaryOp => evalBinary m eval node s
    | .unaryOp => evalUnary m eval node s
    | .print => thenNull m (printArguments m eval node.children s)
    | .if => evalIf m eval node s
    | .while => thenNull m (runWhile m eval node fuel s)
    | .return => evalReturn m eval node s
    | .break => return valueCreateNull m { s with breakFlag := true }
    | .continue => return valueCreateNull m { s with continueFlag := true }
    | .block => thenNull m (runBlock eval node.children s)
    | .program => thenNull m (runProgram eval node.children s)
    | _ => return valueCreateNull m s

/-- `interpreter_eval`. -/
def interpreterEval : Nat → Evaluator σ
  | 0, _, _ => Logged.stop .outOfFuel
  | fuel + 1, node, s => evalNode m (interpreterEval fuel) fuel node s

/-- `interpreter_execute`. -/
def interpreterExecute (fuel : Nat) (source : Nat → Char) (s : Interp σ) : Run (Interp σ) := do
  let (program, parser) ← (parseSource fuel source).mapLog .parse
  if parser.hasError then return s
  else
    match program with
    | none => return s
    | some tree => do
      let (_, s) ← interpreterEval m fuel tree s
      return s

end Source

end PolandOS.PolskiScript.Unbounded
