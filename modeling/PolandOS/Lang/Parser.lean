import PolandOS.Lang.Lexer
import PolandOS.Lang.Ast
import PolandOS.Lib.Logged

/-! # The PolskiScript parser

The parser half of `kernel/lang/polskiscript.c`, a recursive descent parser. The
functions that call each other in a circle are tied by fuel: each takes the
parser of the inner expressions or statements as an argument. `kmalloc` is taken
to succeed. The log of a run records the steps that the theorems speak about.
-/

namespace PolandOS.PolskiScript

open Logging

/-- `Parser`. -/
structure Parser where
  lexer : Lexer
  currentToken : Token
  error : String
  hasError : Bool

/-- The steps of a parse that are logged. -/
inductive ParseEvent where
  /-- The head of a statement loop. -/
  | loopHead (p : Parser)
  /-- A round of a statement loop, from its head to its end. -/
  | iteration (before after : Parser)
  /-- A call of `ast_node_add_child`; whether there is a child to add. -/
  | addChild (parent : ASTNodeType) (child : Bool)
  /-- The digits of an integer literal, before they are read. -/
  | literal (value : List Char)
  /-- An integer operation on the value of a literal. -/
  | arith (op : IntOp) (a b : Int64)

/-- A parsing computation. -/
abbrev Parse := Logged ParseEvent Stop

/-- A parser for some construct: a node, or `NULL`. -/
abbrev NodeParser := Parser → Parse (Option ASTNode × Parser)

/-- Enter a loop or a function that may call itself. -/
def outOfFuel {α : Type} : Parse α := Logged.stop .outOfFuel

/-- `ast_node_add_child`. -/
def astNodeAddChild (parent : ASTNode) (child : Option ASTNode) : Parse ASTNode := do
  Logged.emit (.addChild parent.type child.isSome)
  match child with
  | none => return parent
  | some c => return { parent with children := parent.children ++ [c] }

/-- `parser_advance`. -/
def parserAdvance (fuel : Nat) (p : Parser) : Parse Parser := do
  let (tok, lex) ← Logged.ofOption .outOfFuel (lexerNextToken fuel p.lexer)
  return { p with lexer := lex, currentToken := tok }

/-- The message of `parser_expect`. -/
def expectMessage (type : TokenType) (tok : Token) : String :=
  "Oczekiwano " ++ tokenTypeToString type ++ ", otrzymano " ++ tokenTypeToString tok.type ++
    " w linii " ++ toString tok.line

/-- `parser_expect`. -/
def parserExpect (fuel : Nat) (p : Parser) (type : TokenType) : Parse (Bool × Parser) :=
  if p.currentToken.type ≠ type then
    return (false, { p with error := expectMessage type p.currentToken, hasError := true })
  else do
    let p ← parserAdvance fuel p
    return (true, p)

/-! ## Expressions -/

/-- `c - '0'`. -/
def digitValue (c : Char) : Int := c.toNat - 48

/-- An integer operation of the parser. -/
def parseArith (op : IntOp) (a b : Int64) : Parse Int64 := do
  Logged.emit (.arith op a b)
  return op.run a b

/-- The loop that reads an integer literal. -/
def intLiteral : List Char → Int64 → Parse Int64
  | [], val => return val
  | c :: cs, val => do
    let val ← parseArith .mul val 10
    let val ← parseArith .add val (Int64.ofInt (digitValue c))
    intLiteral cs val

/-- The loop that reads a floating-point literal. -/
def floatLiteral : List Char → Bool → Float → Float → Float
  | [], _, val, _ => val
  | c :: cs, afterDot, val, frac =>
    if c = '.' then floatLiteral cs true val frac
    else if afterDot then
      floatLiteral cs true (val + Float.ofInt (digitValue c) * frac) (frac * 0.1)
    else floatLiteral cs false (val * 10 + Float.ofInt (digitValue c)) frac

/-- The loop over arguments: each round takes a comma, if there is one, and an
expression. -/
def parseArguments (expr : NodeParser) : Nat → ASTNode → Parser → Parse (ASTNode × Parser)
  | 0, _, _ => outOfFuel
  | fuel + 1, node, p => do
    let p ← (if p.currentToken.type = .przecinek then parserAdvance fuel p else pure p)
    let (arg, p) ← expr p
    let node ← (if arg.isSome then astNodeAddChild node arg else pure node)
    if p.currentToken.type = .przecinek then parseArguments expr fuel node p
    else return (node, p)

/-- A list of arguments and its closing parenthesis. -/
def parseArgumentList (expr : NodeParser) (fuel : Nat) (node : ASTNode) (p : Parser) :
    Parse (ASTNode × Parser) := do
  let (node, p) ←
    (if p.currentToken.type ≠ .nawiasPrawy then parseArguments expr fuel node p
    else pure (node, p))
  let (_, p) ← parserExpect fuel p .nawiasPrawy
  return (node, p)

/-- The branch of `parser_parse_primary` for numbers. -/
def parseNumber (fuel : Nat) : NodeParser := fun p => do
  let value := p.currentToken.value
  let node ←
    (if '.' ∈ value then
      pure { astNodeCreate .literalFloat with floatValue := floatLiteral value false 0 0.1 }
    else do
      Logged.emit (.literal value)
      let val ← intLiteral value 0
      return { astNodeCreate .literalInt with intValue := val })
  let p ← parserAdvance fuel p
  return (some node, p)

/-- The branch of `parser_parse_primary` for names and calls. -/
def parseName (expr : NodeParser) (fuel : Nat) : NodeParser := fun p => do
  let node := { astNodeCreate .identifier with strValue := p.currentToken.value }
  let p ← parserAdvance fuel p
  if p.currentToken.type = .nawiasLewy then do
    let call ← astNodeAddChild (astNodeCreate .call) (some node)
    let p ← parserAdvance fuel p
    let (call, p) ← parseArgumentList expr fuel call p
    return (some call, p)
  else return (some node, p)

/-- The branches of `parser_parse_primary` that take one token. -/
def parseLiteral (fuel : Nat) (node : ASTNode) : NodeParser := fun p => do
  let p ← parserAdvance fuel p
  return (some node, p)

/-- `parser_parse_primary`. -/
def parsePrimary (expr : NodeParser) (fuel : Nat) : NodeParser := fun p =>
  match p.currentToken.type with
  | .liczba => parseNumber fuel p
  | .tekst =>
    parseLiteral fuel { astNodeCreate .literalString with strValue := p.currentToken.value } p
  | .prawda => parseLiteral fuel { astNodeCreate .literalBool with boolValue := true } p
  | .falsz => parseLiteral fuel { astNodeCreate .literalBool with boolValue := false } p
  | .nic => parseLiteral fuel (astNodeCreate .literalNull) p
  | .identyfikator => parseName expr fuel p
  | .nawiasLewy => do
    let p ← parserAdvance fuel p
    let (node, p) ← expr p
    let (_, p) ← parserExpect fuel p .nawiasPrawy
    return (node, p)
  | _ => return (none, p)

/-- `parser_parse_unary`. -/
def parseUnary (expr : NodeParser) : Nat → NodeParser
  | 0, _ => outOfFuel
  | fuel + 1, p =>
    if p.currentToken.type = .minus ∨ p.currentToken.type = .nie then do
      let op := p.currentToken
      let p ← parserAdvance fuel p
      let (operand, p) ← parseUnary expr fuel p
      let node ← astNodeAddChild { astNodeCreate .unaryOp with strValue := op.value } operand
      return (some node, p)
    else parsePrimary expr fuel p

/-- The loop of a level of binary operators. -/
def binaryLoop (ops : List TokenType) (sub : NodeParser) :
    Nat → Option ASTNode → Parser → Parse (Option ASTNode × Parser)
  | 0, _, _ => outOfFuel
  | fuel + 1, left, p =>
    if p.currentToken.type ∈ ops then do
      let op := p.currentToken
      let p ← parserAdvance fuel p
      let (right, p) ← sub p
      let node ← astNodeAddChild { astNodeCreate .binaryOp with strValue := op.value } left
      let node ← astNodeAddChild node right
      binaryLoop ops sub fuel (some node) p
    else return (left, p)

/-- A level of left-associative binary operators over the level `sub`. -/
def binaryLevel (ops : List TokenType) (sub : NodeParser) (fuel : Nat) : NodeParser := fun p => do
  let (left, p) ← sub p
  binaryLoop ops sub fuel left p

/-- The operators of `parser_parse_factor`. -/
def factorOps : List TokenType := [.mnozenie, .dzielenie, .modulo]

/-- The operators of `parser_parse_term`. -/
def termOps : List TokenType := [.plus, .minus]

/-- The operators of `parser_parse_comparison`. -/
def comparisonOps : List TokenType :=
  [.mniejsze, .wieksze, .mniejszeRowne, .wiekszeRowne, .rowne, .nierowne]

/-- The operators of `parser_parse_logical`. -/
def logicalOps : List TokenType := [.i, .lub]

/-- `parser_parse_factor`. -/
def parseFactor (expr : NodeParser) (fuel : Nat) : NodeParser :=
  binaryLevel factorOps (parseUnary expr fuel) fuel

/-- `parser_parse_term`. -/
def parseTerm (expr : NodeParser) (fuel : Nat) : NodeParser :=
  binaryLevel termOps (parseFactor expr fuel) fuel

/-- `parser_parse_comparison`. -/
def parseComparison (expr : NodeParser) (fuel : Nat) : NodeParser :=
  binaryLevel comparisonOps (parseTerm expr fuel) fuel

/-- `parser_parse_logical`. -/
def parseLogical (expr : NodeParser) (fuel : Nat) : NodeParser :=
  binaryLevel logicalOps (parseComparison expr fuel) fuel

/-- `parser_parse_expression`. -/
def parseExpression : Nat → NodeParser
  | 0, _ => outOfFuel
  | fuel + 1, p => parseLogical (parseExpression fuel) fuel p

/-! ## Statements -/

/-- The loop of `parser_parse_block`. -/
def blockLoop (stmt : NodeParser) : Nat → ASTNode → Parser → Parse (ASTNode × Parser)
  | 0, _, _ => outOfFuel
  | fuel + 1, block, p =>
    if p.currentToken.type ≠ .klamraPrawa ∧ p.currentToken.type ≠ .koniec then do
      Logged.emit (.loopHead p)
      let (s, p') ← stmt p
      let block ← (if s.isSome then astNodeAddChild block s else pure block)
      Logged.emit (.iteration p p')
      if p'.hasError then return (block, p') else blockLoop stmt fuel block p'
    else return (block, p)

/-- `parser_parse_block`. -/
def parseBlock (stmt : NodeParser) (fuel : Nat) (p : Parser) : Parse (ASTNode × Parser) := do
  let block := astNodeCreate .block
  let (_, p) ← parserExpect fuel p .klamraLewa
  let (block, p) ← blockLoop stmt fuel block p
  let (_, p) ← parserExpect fuel p .klamraPrawa
  return (block, p)

/-- A variable declaration. -/
def parseVarDecl (fuel : Nat) : NodeParser := fun p => do
  let p ← parserAdvance fuel p
  if p.currentToken.type ≠ .identyfikator then return (none, { p with hasError := true })
  else do
    let node := { astNodeCreate .varDecl with strValue := p.currentToken.value }
    let p ← parserAdvance fuel p
    let (node, p) ←
      (if p.currentToken.type = .przypisanie then do
        let p ← parserAdvance fuel p
        let (expr, p) ← parseExpression fuel p
        let node ← astNodeAddChild node expr
        return (node, p)
      else pure (node, p))
    let (_, p) ← parserExpect fuel p .srednikropek
    return (some node, p)

/-- A print statement. -/
def parsePrint (fuel : Nat) : NodeParser := fun p => do
  let p ← parserAdvance fuel p
  let (_, p) ← parserExpect fuel p .nawiasLewy
  let (node, p) ← parseArgumentList (parseExpression fuel) fuel (astNodeCreate .print) p
  let (_, p) ← parserExpect fuel p .srednikropek
  return (some node, p)

/-- The keyword, the condition and the block of `jesli` and `dopoki`. -/
def parseConditional (stmt : NodeParser) (fuel : Nat) (type : ASTNodeType) (p : Parser) :
    Parse (ASTNode × Parser) := do
  let p ← parserAdvance fuel p
  let (_, p) ← parserExpect fuel p .nawiasLewy
  let (cond, p) ← parseExpression fuel p
  let (_, p) ← parserExpect fuel p .nawiasPrawy
  let (block, p) ← parseBlock stmt fuel p
  let node ← astNodeAddChild (astNodeCreate type) cond
  let node ← astNodeAddChild node (some block)
  return (node, p)

/-- An if statement. -/
def parseIf (stmt : NodeParser) (fuel : Nat) : NodeParser := fun p => do
  let (node, p) ← parseConditional stmt fuel .if p
  if p.currentToken.type = .inaczej then do
    let p ← parserAdvance fuel p
    let (elseBlock, p) ← parseBlock stmt fuel p
    let node ← astNodeAddChild node (some elseBlock)
    return (some node, p)
  else return (some node, p)

/-- A while loop. -/
def parseWhile (stmt : NodeParser) (fuel : Nat) : NodeParser := fun p => do
  let (node, p) ← parseConditional stmt fuel .while p
  return (some node, p)

/-- A return statement. -/
def parseReturn (fuel : Nat) : NodeParser := fun p => do
  let p ← parserAdvance fuel p
  let (node, p) ←
    (if p.currentToken.type ≠ .srednikropek then do
      let (expr, p) ← parseExpression fuel p
      let node ← astNodeAddChild (astNodeCreate .return) expr
      return (node, p)
    else pure (astNodeCreate .return, p))
  let (_, p) ← parserExpect fuel p .srednikropek
  return (some node, p)

/-- A break or a continue statement. -/
def parseJump (fuel : Nat) (type : ASTNodeType) : NodeParser := fun p => do
  let p ← parserAdvance fuel p
  let (_, p) ← parserExpect fuel p .srednikropek
  return (some (astNodeCreate type), p)

/-- The lexer, moved back to where the token says that it starts. -/
def backtrack (lex : Lexer) (id : Token) : Lexer :=
  { lex with pos := id.column - 1, currentChar := lex.source (id.column - 1) }

/-- An assignment or an expression statement. -/
def parseSimple (fuel : Nat) : NodeParser := fun p => do
  let id := p.currentToken
  let p ← parserAdvance fuel p
  if p.currentToken.type = .przypisanie then do
    let p ← parserAdvance fuel p
    let (expr, p) ← parseExpression fuel p
    let node ← astNodeAddChild { astNodeCreate .assign with strValue := id.value } expr
    let (_, p) ← parserExpect fuel p .srednikropek
    return (some node, p)
  else do
    let p ← parserAdvance fuel { p with lexer := backtrack p.lexer id }
    let (expr, p) ← parseExpression fuel p
    let (_, p) ← parserExpect fuel p .srednikropek
    return (expr, p)

/-- `parser_parse_statement`, with the parser of the statements inside. -/
def parseStatementWith (stmt : NodeParser) (fuel : Nat) : NodeParser := fun p =>
  match p.currentToken.type with
  | .zmienna => parseVarDecl fuel p
  | .drukuj => parsePrint fuel p
  | .jesli => parseIf stmt fuel p
  | .dopoki => parseWhile stmt fuel p
  | .zwroc => parseReturn fuel p
  | .przerwij => parseJump fuel .break p
  | .kontynuuj => parseJump fuel .continue p
  | .identyfikator => parseSimple fuel p
  | .klamraLewa => do
    let (block, p) ← parseBlock stmt fuel p
    return (some block, p)
  | _ => return (none, p)

/-- `parser_parse_statement`. -/
def parseStatement : Nat → NodeParser
  | 0, _ => outOfFuel
  | fuel + 1, p => parseStatementWith (parseStatement fuel) fuel p

/-- `parser_init`. -/
def parserInit (fuel : Nat) (lex : Lexer) : Parse Parser := do
  let (tok, lex) ← Logged.ofOption .outOfFuel (lexerNextToken fuel lex)
  return ⟨lex, tok, "", false⟩

/-- The loop of `parser_parse_program`. -/
def programLoop : Nat → ASTNode → Parser → Parse (Option ASTNode × Parser)
  | 0, _, _ => outOfFuel
  | fuel + 1, program, p =>
    if p.currentToken.type ≠ .koniec then do
      Logged.emit (.loopHead p)
      let (s, p') ← parseStatement fuel p
      let program ← (if s.isSome then astNodeAddChild program s else pure program)
      Logged.emit (.iteration p p')
      if p'.hasError then return (none, p') else programLoop fuel program p'
    else return (some program, p)

/-- `parser_parse_program`. -/
def parseProgram (fuel : Nat) : NodeParser := programLoop fuel (astNodeCreate .program)

/-- The parse of a source, as `interpreter_execute` starts it. -/
def parseSource (fuel : Nat) (source : Nat → Char) : Parse (Option ASTNode × Parser) := do
  let p ← parserInit fuel (lexerInit source)
  parseProgram fuel p

end PolandOS.PolskiScript
