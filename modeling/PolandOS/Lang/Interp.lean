import PolandOS.Lang.Parser

/-! # The PolskiScript interpreter

The interpreter half of `kernel/lang/polskiscript.c`. The heap is a parameter. The
functions that call each other in a circle are tied by fuel, as in the parser, and
the log of a run records the steps that the theorems speak about. The names of
variables are plain values: their copies on the heap are never shared.
-/

namespace PolandOS.PolskiScript

open Logging

/-- What the interpreter asks of the machine it runs on. -/
structure Memory (σ : Type) where
  /-- `kmalloc` and `strcpy` of a string. -/
  store : List Char → σ → Int64 × σ
  /-- `kfree`; `none` where it calls `kpanic`. -/
  kfree : Int64 → σ → Option σ
  /-- The string at an address. -/
  stringAt : Int64 → σ → List Char
  /-- The bytes of a union to which nothing has been stored. -/
  uninitialised : σ → Int64 × σ

/-- `Value`. What is not set of the union is whatever its bytes happen to be; a
string is the address in `as_string`. Functions are never created. -/
inductive Value where
  | null (bytes : Int64)
  | int (i : Int64)
  | float (x : Float)
  | bool (b : Bool) (bytes : Int64)
  | string (p : Int64)

/-- `as_int`, of whatever the union holds. -/
def Value.asInt : Value → Int64
  | .null bytes => bytes
  | .int i => i
  | .float x => x.toBits.toInt64
  | .bool b bytes => (bytes &&& ~~~255) ||| if b then 1 else 0
  | .string p => p

/-- `(v.type == VAL_FLOAT) ? v.as_float : (double)v.as_int`. -/
def Value.asDouble : Value → Float
  | .float x => x
  | v => v.asInt.toFloat

/-- `(v.type == VAL_BOOL) ? v.as_bool : (v.as_int != 0)`. -/
def Value.isTrue : Value → Bool
  | .bool b _ => b
  | v => v.asInt != 0

def Value.isFloat : Value → Bool
  | .float _ => true
  | _ => false

/-- The arguments of a call of `kprintf`. -/
inductive Printed where
  | null
  | int (i : Int64)
  | fraction (whole thousandths : Int64)
  | bool (b : Bool)
  | text (s : List Char)
  | space
  | newline
  | message (label : String) (text : List Char)

/-- `Environment`, without its parent. -/
abbrev Frame := List (List Char × Value)

/-- `ENV_MAX_VARS`. -/
def envMaxVars : Nat := 256

/-- `Interpreter`, with the environments on the way up from `current_env`, what
has been printed, and the memory. -/
structure Interp (σ : Type) where
  env : Frame
  parents : List Frame
  breakFlag : Bool
  continueFlag : Bool
  returnFlag : Bool
  returnValue : Value
  error : List Char
  hasError : Bool
  out : List Printed
  mem : σ

/-- The steps of a run that are logged. -/
inductive RunEvent (σ : Type) where
  | parse (e : ParseEvent)
  /-- `interpreter_eval` begins. -/
  | begun (node : ASTNode) (s : Interp σ)
  /-- An integer operation is executed. -/
  | arith (op : IntOp) (a b : Int64)
  /-- An operator is applied. -/
  | binary (op : List Char) (left right : Value)
  | unary (op : List Char) (operand : Value)
  /-- The value of a condition. -/
  | condition (v : Value)
  /-- The value that an identifier yields. -/
  | identifier (v : Value)
  /-- A value goes to a variable that is declared; whether there is room for it. -/
  | declared (name : List Char) (taken : Bool) (v : Value)
  /-- A value goes to a variable that is assigned; whether there is such a variable. -/
  | assigned (name : List Char) (found : Bool) (v : Value)
  /-- `return_value` is overwritten. -/
  | overwritten (old : Value)
  /-- Nobody takes the value of a statement. -/
  | dropped (type : ASTNodeType) (v : Value)
  /-- A string is created, read, freed. -/
  | alloc (p : Int64)
  | read (p : Int64)
  | free (p : Int64)
  /-- `interpreter_eval` returns. -/
  | evaluated (type : ASTNodeType) (v : Value) (s : Interp σ)

/-- A run of the interpreter. -/
abbrev Run (σ : Type) := Logged (RunEvent σ) Stop

/-- An evaluator of nodes. -/
abbrev Evaluator (σ : Type) := ASTNode → Interp σ → Run σ (Value × Interp σ)

variable {σ : Type} (m : Memory σ)

/-! ## Values -/

/-- `value_create_null`. -/
def valueCreateNull (s : Interp σ) : Value × Interp σ :=
  (.null (m.uninitialised s.mem).1, { s with mem := (m.uninitialised s.mem).2 })

/-- `value_create_bool`. -/
def valueCreateBool (b : Bool) (s : Interp σ) : Value × Interp σ :=
  (.bool b (m.uninitialised s.mem).1, { s with mem := (m.uninitialised s.mem).2 })

/-- `value_create_string`. -/
def valueCreateString (str : List Char) (s : Interp σ) : Run σ (Value × Interp σ) := do
  let (p, mem) := m.store str s.mem
  Logged.emit (.alloc p)
  return (.string p, { s with mem := mem })

/-- `value_free`. -/
def valueFree (v : Value) (s : Interp σ) : Run σ (Interp σ) :=
  match v with
  | .string p =>
    if p = 0 then return s
    else do
      Logged.emit (.free p)
      let mem ← Logged.ofOption .panic (m.kfree p s.mem)
      return { s with mem := mem }
  | _ => return s

/-- What is printed comes behind what was printed before. -/
def Interp.print (s : Interp σ) (piece : Printed) : Interp σ := { s with out := s.out ++ [piece] }

/-- `(i64)x`. C has no value for a number out of range; as compiled, it is `INT64_MIN`. -/
def truncate (x : Float) : Int64 :=
  if -9223372036854775808.0 ≤ x ∧ x < 9223372036854775808.0 then x.toInt64 else Int64.minValue

/-- `value_print`. -/
def valuePrint (v : Value) (s : Interp σ) : Run σ (Interp σ) :=
  match v with
  | .null _ => return s.print .null
  | .int i => return s.print (.int i)
  | .float x =>
    return s.print (.fraction (truncate x) (truncate ((x - (truncate x).toFloat) * 1000)))
  | .bool b _ => return s.print (.bool b)
  | .string p => do
    Logged.emit (.read p)
    return s.print (.text (m.stringAt p s.mem))

/-! ## Environments -/

/-- The value of the first variable of the name in a frame. -/
def lookup (name : List Char) (frame : Frame) : Option Value :=
  (frame.find? (·.1 == name)).map Prod.snd

/-- The frame with another value in the first variable of the name. -/
def assign (name : List Char) (v : Value) : Frame → Frame
  | [] => []
  | (n, old) :: frame =>
    if n == name then (n, v) :: frame else (n, old) :: assign name v frame

/-- `env_define`. -/
def envDefine (name : List Char) (v : Value) (s : Interp σ) : Run σ (Interp σ) :=
  if s.env.length ≥ envMaxVars then do
    Logged.emit (.declared name false v)
    return s
  else do
    Logged.emit (.declared name true v)
    match lookup name s.env with
    | some old => do
      let s ← valueFree m old s
      return { s with env := assign name v s.env }
    | none => return { s with env := s.env ++ [(name, v)] }

/-- `env_get`. -/
def envGet (name : List Char) : List Frame → Option Value
  | [] => none
  | frame :: parents =>
    match lookup name frame with
    | some v => some v
    | none => envGet name parents

/-- The frames with another value in the variable that `env_get` finds. -/
def assignFrames (name : List Char) (v : Value) : List Frame → List Frame
  | [] => []
  | frame :: parents =>
    match lookup name frame with
    | some _ => assign name v frame :: parents
    | none => frame :: assignFrames name v parents

/-- The environments from `current_env` on. -/
def Interp.frames (s : Interp σ) : List Frame := s.env :: s.parents

/-- The interpreter with other environments. -/
def Interp.withFrames (s : Interp σ) (frames : List Frame) : Interp σ :=
  { s with env := frames.headD [], parents := frames.tail }

/-- `env_set`. The value in the variable is freed before it is overwritten. -/
def envSet (name : List Char) (v : Value) (s : Interp σ) : Run σ (Bool × Interp σ) :=
  match envGet name s.frames with
  | some old => do
    Logged.emit (.assigned name true v)
    let s ← valueFree m old s
    return (true, s.withFrames (assignFrames name v s.frames))
  | none => do
    Logged.emit (.assigned name false v)
    return (false, s)

/-! ## Operators -/

/-- The processor traps. -/
def traps (op : IntOp) (a b : Int64) : Prop :=
  (op = .div ∨ op = .mod) ∧ (b = 0 ∨ a = Int64.minValue ∧ b = -1)

instance (op : IntOp) (a b : Int64) : Decidable (traps op a b) := by
  unfold traps
  infer_instance

/-- An integer operation. -/
def intArith (op : IntOp) (a b : Int64) : Run σ Int64 := do
  Logged.emit (.arith op a b)
  if traps op a b then Logged.stop .divideError else return op.run a b

/-- What the arithmetic part of the operators decides. -/
inductive Arithmetic where
  | int (op : IntOp) (a b : Int64)
  | float (x : Float)
  | divideByZero

/-- `+`, `-` and `*`. -/
def arithmeticOn (op : IntOp) (f : Float → Float → Float) : Value → Value → Option Arithmetic
  | .int a, .int b => some (.int op a b)
  | left, right =>
    if left.isFloat || right.isFloat then some (.float (f left.asDouble right.asDouble)) else none

/-- The arithmetic operators. -/
def arithmetic (op : Char) (left right : Value) : Option Arithmetic :=
  if op = '+' then arithmeticOn .add (· + ·) left right
  else if op = '-' then arithmeticOn .sub (· - ·) left right
  else if op = '*' then arithmeticOn .mul (· * ·) left right
  else if op = '/' then
    match left, right with
    | .int a, .int b => if b = 0 then some .divideByZero else some (.int .div a b)
    | _, _ => none
  else if op = '%' then
    match left, right with
    | .int a, .int b => some (.int .mod a b)
    | _, _ => none
  else none

/-- `if (left.type == VAL_INT && right.type == VAL_INT) return f(left, right)`. -/
def ifInts (f : Int64 → Int64 → Bool) : Value → Value → Option Bool
  | .int a, .int b => some (f a b)
  | _, _ => none

/-- The comparison operators. `<` and `>` look at one character only. -/
def comparison (op : List Char) (left right : Value) : Option Bool :=
  if op = "==".toList then some ((ifInts (· == ·) left right).getD false)
  else if op = "!=".toList then some ((ifInts (· != ·) left right).getD true)
  else
    (if op.headD nul = '<' then ifInts (fun a b => decide (a < b)) left right else none) <|>
    (if op.headD nul = '>' then ifInts (fun a b => decide (b < a)) left right else none) <|>
    (if op = "<=".toList then ifInts (fun a b => decide (a ≤ b)) left right else none) <|>
    (if op = ">=".toList then ifInts (fun a b => decide (b ≤ a)) left right else none)

/-- The logical operators. -/
def logical (op : List Char) (left right : Value) : Option Bool :=
  if op = "&&".toList then some (left.isTrue && right.isTrue)
  else if op = "||".toList then some (left.isTrue || right.isTrue)
  else none

/-- `ksnprintf(interp->error, 512, ...)` and `has_error = true`. -/
def Interp.fail (s : Interp σ) (text : List Char) : Interp σ :=
  { s with error := text.take 511, hasError := true }

/-- The message for an undefined variable. -/
def undefinedMessage (name : List Char) : List Char := "Niezdefiniowana zmienna: ".toList ++ name

/-- The branch for `AST_BINARY_OP`, once both operands are evaluated. -/
def binaryOp (op : List Char) (left right : Value) (s : Interp σ) : Run σ (Value × Interp σ) :=
  match arithmetic (op.headD nul) left right with
  | some (.int o a b) => do
    let i ← intArith o a b
    return (.int i, s)
  | some (.float x) => return (.float x, s)
  | some .divideByZero => return valueCreateNull m (s.fail "Dzielenie przez zero".toList)
  | none =>
    match comparison op left right <|> logical op left right with
    | some b => return valueCreateBool m b s
    | none => do
      let s ← valueFree m left s
      let s ← valueFree m right s
      return valueCreateNull m s

/-- The branch for `AST_UNARY_OP`, once the operand is evaluated. -/
def unaryOp (op : List Char) (operand : Value) (s : Interp σ) : Run σ (Value × Interp σ) :=
  match op.headD nul, operand with
  | '-', .int i => do
    let i ← intArith .neg i 0
    return (.int i, s)
  | '-', .float x => return (.float (-x), s)
  | '!', v => return valueCreateBool m (!v.isTrue) s
  | _, v => do
    let s ← valueFree m v s
    return valueCreateNull m s

/-! ## The evaluator -/

/-- `node->children[i]`, without a check. -/
def childAt (node : ASTNode) (i : Nat) : Run σ ASTNode :=
  Logged.ofOption .outOfBounds node.children[i]?

variable (eval : Evaluator σ)

/-- The branch for `AST_IDENTIFIER`. -/
def evalIdentifier (node : ASTNode) (s : Interp σ) : Run σ (Value × Interp σ) :=
  match envGet node.strValue s.frames with
  | none => return valueCreateNull m (s.fail (undefinedMessage node.strValue))
  | some v => do
    Logged.emit (.identifier v)
    return (v, s)

/-- The branch for `AST_VAR_DECL`. -/
def evalVarDecl (node : ASTNode) (s : Interp σ) : Run σ (Value × Interp σ) := do
  let (v, s) ←
    (match node.children with
    | [] => pure (valueCreateNull m s)
    | c :: _ => eval c s)
  let s ← envDefine m node.strValue v s
  return valueCreateNull m s

/-- The branch for `AST_ASSIGN`. -/
def evalAssign (node : ASTNode) (s : Interp σ) : Run σ (Value × Interp σ) := do
  let c ← childAt node 0
  let (v, s) ← eval c s
  let (found, s) ← envSet m node.strValue v s
  return (v, if found then s else s.fail (undefinedMessage node.strValue))

/-- The branch for `AST_BINARY_OP`. -/
def evalBinary (node : ASTNode) (s : Interp σ) : Run σ (Value × Interp σ) := do
  let l ← childAt node 0
  let (left, s) ← eval l s
  let r ← childAt node 1
  let (right, s) ← eval r s
  Logged.emit (.binary node.strValue left right)
  binaryOp m node.strValue left right s

/-- The branch for `AST_UNARY_OP`. -/
def evalUnary (node : ASTNode) (s : Interp σ) : Run σ (Value × Interp σ) := do
  let c ← childAt node 0
  let (operand, s) ← eval c s
  Logged.emit (.unary node.strValue operand)
  unaryOp m node.strValue operand s

/-- The loop of `AST_PRINT`. -/
def printArguments : List ASTNode → Interp σ → Run σ (Interp σ)
  | [], s => return s
  | c :: rest, s => do
    let (v, s) ← eval c s
    let s ← valuePrint m v s
    let s ← valueFree m v (if rest = [] then s else s.print .space)
    printArguments rest s

/-- The branch for `AST_PRINT`. -/
def evalPrint (node : ASTNode) (s : Interp σ) : Run σ (Value × Interp σ) := do
  let s ← printArguments m eval node.children s
  return valueCreateNull m (s.print .newline)

/-- A condition: its truth, and its value freed. -/
def evalCondition (node : ASTNode) (s : Interp σ) : Run σ (Bool × Interp σ) := do
  let c ← childAt node 0
  let (cond, s) ← eval c s
  Logged.emit (.condition cond)
  let s ← valueFree m cond s
  return (cond.isTrue, s)

/-- The branch for `AST_IF`. -/
def evalIf (node : ASTNode) (s : Interp σ) : Run σ (Value × Interp σ) := do
  let (yes, s) ← evalCondition m eval node s
  if yes then do
    let thenBlock ← childAt node 1
    eval thenBlock s
  else
    match node.children[2]? with
    | some elseBlock => eval elseBlock s
    | none => return valueCreateNull m s

/-- The loop of `AST_WHILE`. -/
def runWhile (node : ASTNode) : Nat → Interp σ → Run σ (Interp σ)
  | 0, _ => Logged.stop .outOfFuel
  | fuel + 1, s => do
    let (yes, s) ← evalCondition m eval node s
    if !yes then return s
    else do
      let body ← childAt node 1
      let (v, s) ← eval body s
      Logged.emit (.dropped body.type v)
      if s.breakFlag then return { s with breakFlag := false }
      else if s.continueFlag then runWhile node fuel { s with continueFlag := false }
      else if s.returnFlag then return s
      else runWhile node fuel s

/-- The branch for `AST_RETURN`. -/
def evalReturn (node : ASTNode) (s : Interp σ) : Run σ (Value × Interp σ) := do
  let (v, s) ←
    (match node.children with
    | [] => pure (valueCreateNull m s)
    | c :: _ => eval c s)
  Logged.emit (.overwritten s.returnValue)
  return valueCreateNull m { s with returnValue := v, returnFlag := true }

/-- The loop of `AST_BLOCK`. -/
def runBlock : List ASTNode → Interp σ → Run σ (Interp σ)
  | [], s => return s
  | c :: rest, s => do
    let (v, s) ← eval c s
    Logged.emit (.dropped c.type v)
    if s.returnFlag || s.breakFlag || s.continueFlag then return s else runBlock rest s

/-- The loop of `AST_PROGRAM`. -/
def runProgram : List ASTNode → Interp σ → Run σ (Interp σ)
  | [], s => return s
  | c :: rest, s => do
    let (v, s) ← eval c s
    Logged.emit (.dropped c.type v)
    if s.hasError then return s else runProgram rest s

/-- A statement that is a loop over other nodes returns null. -/
def thenNull (run : Run σ (Interp σ)) : Run σ (Value × Interp σ) := do
  let s ← run
  return valueCreateNull m s

/-- The body of `interpreter_eval`, with the evaluator of the nodes inside. -/
def evalNode (fuel : Nat) (node : ASTNode) (s : Interp σ) : Run σ (Value × Interp σ) :=
  if s.hasError then return valueCreateNull m s
  else
    match node.type with
    | .literalInt => return (.int node.intValue, s)
    | .literalFloat => return (.float node.floatValue, s)
    | .literalString => valueCreateString m node.strValue s
    | .literalBool => return valueCreateBool m node.boolValue s
    | .literalNull => return valueCreateNull m s
    | .identifier => evalIdentifier m node s
    | .varDecl => evalVarDecl m eval node s
    | .assign => evalAssign m eval node s
    | .binaryOp => evalBinary m eval node s
    | .unaryOp => evalUnary m eval node s
    | .print => evalPrint m eval node s
    | .if => evalIf m eval node s
    | .while => thenNull m (runWhile m eval node fuel s)
    | .return => evalReturn m eval node s
    | .break => return valueCreateNull m { s with breakFlag := true }
    | .continue => return valueCreateNull m { s with continueFlag := true }
    | .block => thenNull m (runBlock eval node.children s)
    | .program => thenNull m (runProgram eval node.children s)
    | _ => return valueCreateNull m s

/-- `interpreter_eval`. -/
def interpreterEval : Nat → Evaluator σ
  | 0, _, _ => Logged.stop .outOfFuel
  | fuel + 1, node, s => do
    Logged.emit (.begun node s)
    let (v, s) ← evalNode m (interpreterEval fuel) fuel node s
    Logged.emit (.evaluated node.type v s)
    return (v, s)

/-! ## A whole run -/

/-- `interpreter_init`. -/
def interpreterInit (mem : σ) : Interp σ :=
  { env := [], parents := [], breakFlag := false, continueFlag := false, returnFlag := false,
    returnValue := .null (m.uninitialised mem).1, error := [], hasError := false, out := [],
    mem := (m.uninitialised mem).2 }

/-- `interpreter_execute`. -/
def interpreterExecute (fuel : Nat) (source : Nat → Char) (s : Interp σ) :
    Run σ (Interp σ) := do
  let (program, parser) ← (parseSource fuel source).mapLog .parse
  if parser.hasError then return s.print (.message "[Blad parsowania]" parser.error.toList)
  else
    match program with
    | none => return s
    | some tree => do
      let (_, s) ← interpreterEval m fuel tree s
      return if s.hasError then s.print (.message "[Blad wykonania]" s.error) else s

/-- `env_free`, as far as values go. -/
def envFree : Frame → Interp σ → Run σ (Interp σ)
  | [], s => return s
  | (_, v) :: frame, s => do
    let s ← valueFree m v s
    envFree frame s

/-- `interpreter_free`. -/
def interpreterFree (s : Interp σ) : Run σ (Interp σ) := do
  let s ← envFree m s.env s
  valueFree m s.returnValue s

/-- `polskiscript_eval_string`. -/
def polskiscriptEvalString (fuel : Nat) (source : Nat → Char) (mem : σ) : Run σ (Interp σ) := do
  let s ← interpreterExecute m fuel source (interpreterInit m mem)
  interpreterFree m s

end PolandOS.PolskiScript
