import PolandOS.Lib.Ledger
import PolandOS.Lang.Interp

/-! # The parser and its memory

The parser half of `kernel/lang/polskiscript.c` once more, with the blocks that it allocates:
each node, each array of children and each `str_value` lies in a block of its own. `kmalloc` and
`krealloc` are taken to succeed; whether `krealloc` moves a block is up to the allocator. What
reads tokens only is taken from the parser without blocks.
-/

namespace PolandOS.PolskiScript

open Logging

/-- A parsing computation that allocates. -/
abbrev Building := Allocating ParseEvent Stop

/-- `ASTNode`, with its block, the blocks of `str_value` and of `children`, and the nodes that
the children point to. -/
structure Node where
  block : ℕ
  type : ASTNodeType
  strValue : Option (ℕ × List Char)
  intValue : Int64
  floatValue : Float
  boolValue : Bool
  array : Option ℕ
  children : List Node

mutual

/-- The tree that a node stands for. -/
def Node.tree : Node → ASTNode
  | ⟨_, type, strValue, intValue, floatValue, boolValue, _, children⟩ =>
    ⟨type, (strValue.map Prod.snd).getD [], intValue, floatValue, boolValue, trees children⟩

/-- The trees that nodes stand for. -/
def trees : List Node → List ASTNode
  | [] => []
  | c :: cs => c.tree :: trees cs

end

namespace Blocks

/-- A parser for some construct: a node, or `NULL`. -/
abbrev NodeParser := Parser → Building (Option Node × Parser)

/-! ## Nodes -/

/-- `kmalloc`. -/
def kmalloc : Building ℕ := fun l => pure l.alloc

/-- `krealloc`. -/
def krealloc (block : Option ℕ) (size : ℕ) : Building ℕ := fun l => pure (l.realloc size block)

/-- A node that has been zeroed. -/
def zeroed (block : ℕ) (type : ASTNodeType) : Node := ⟨block, type, none, 0, 0, false, none, []⟩

/-- `ast_node_create`. -/
def astNodeCreate (type : ASTNodeType) : Building Node := do
  let block ← kmalloc
  return zeroed block type

/-- Give `str_value` a copy of a string. -/
def setStrValue (node : Node) (value : List Char) : Building Node := do
  let block ← kmalloc
  return { node with strValue := some (block, value) }

/-- `ast_node_add_child`. -/
def astNodeAddChild (parent : Node) (child : Option Node) : Building Node := do
  record (.addChild parent.type child.isSome)
  match child with
  | none => return parent
  | some c => do
    let array ← krealloc parent.array (8 * (parent.children.length + 1))
    return { parent with array := some array, children := parent.children ++ [c] }

mutual

/-- `ast_node_free`. -/
def astNodeFree (l : Ledger) : Node → Ledger
  | ⟨block, _, strValue, _, _, _, array, children⟩ =>
    ((freeChildren (l.freeAny (strValue.map Prod.fst)) children).freeAny array).free block

/-- The loop of `ast_node_free`. -/
def freeChildren (l : Ledger) : List Node → Ledger
  | [] => l
  | c :: cs => freeChildren (astNodeFree l c) cs

end

/-! ## Expressions -/

/-- The loop over arguments. -/
def parseArguments (expr : NodeParser) : ℕ → Node → Parser → Building (Node × Parser)
  | 0, _, _ => outOfFuel
  | fuel + 1, node, p => do
    let p ← (if p.currentToken.type = .przecinek then parserAdvance fuel p else pure p)
    let (arg, p) ← expr p
    let node ← (if arg.isSome then astNodeAddChild node arg else pure node)
    if p.currentToken.type = .przecinek then parseArguments expr fuel node p
    else return (node, p)

/-- A list of arguments and its closing parenthesis. -/
def parseArgumentList (expr : NodeParser) (fuel : ℕ) (node : Node) (p : Parser) :
    Building (Node × Parser) := do
  let (node, p) ←
    (if p.currentToken.type ≠ .nawiasPrawy then parseArguments expr fuel node p
    else pure (node, p))
  let (_, p) ← parserExpect fuel p .nawiasPrawy
  return (node, p)

/-- The branch of `parser_parse_primary` for numbers. -/
def parseNumber (fuel : ℕ) : NodeParser := fun p => do
  let value := p.currentToken.value
  let node ←
    (if '.' ∈ value then do
      let node ← astNodeCreate .literalFloat
      return { node with floatValue := floatLiteral value false 0 0.1 }
    else do
      let node ← astNodeCreate .literalInt
      record (.literal value)
      let val ← intLiteral value 0
      return { node with intValue := val })
  let p ← parserAdvance fuel p
  return (some node, p)

/-- The branch of `parser_parse_primary` for names and calls. -/
def parseName (expr : NodeParser) (fuel : ℕ) : NodeParser := fun p => do
  let node ← astNodeCreate .identifier
  let node ← setStrValue node p.currentToken.value
  let p ← parserAdvance fuel p
  if p.currentToken.type = .nawiasLewy then do
    let call ← astNodeCreate .call
    let call ← astNodeAddChild call (some node)
    let p ← parserAdvance fuel p
    let (call, p) ← parseArgumentList expr fuel call p
    return (some call, p)
  else return (some node, p)

/-- The branch of `parser_parse_primary` for strings. -/
def parseText (fuel : ℕ) : NodeParser := fun p => do
  let node ← astNodeCreate .literalString
  let node ← setStrValue node p.currentToken.value
  let p ← parserAdvance fuel p
  return (some node, p)

/-- The branches of `parser_parse_primary` for the words that are literals. -/
def parseWord (fuel : ℕ) (type : ASTNodeType) (value : Bool) : NodeParser := fun p => do
  let node ← astNodeCreate type
  let p ← parserAdvance fuel p
  return (some { node with boolValue := value }, p)

/-- `parser_parse_primary`. -/
def parsePrimary (expr : NodeParser) (fuel : ℕ) : NodeParser := fun p =>
  match p.currentToken.type with
  | .liczba => parseNumber fuel p
  | .tekst => parseText fuel p
  | .prawda => parseWord fuel .literalBool true p
  | .falsz => parseWord fuel .literalBool false p
  | .nic => parseWord fuel .literalNull false p
  | .identyfikator => parseName expr fuel p
  | .nawiasLewy => do
    let p ← parserAdvance fuel p
    let (node, p) ← expr p
    let (_, p) ← parserExpect fuel p .nawiasPrawy
    return (node, p)
  | _ => return (none, p)

/-- `parser_parse_unary`. -/
def parseUnary (expr : NodeParser) : ℕ → NodeParser
  | 0, _ => outOfFuel
  | fuel + 1, p =>
    if p.currentToken.type = .minus ∨ p.currentToken.type = .nie then do
      let op := p.currentToken
      let p ← parserAdvance fuel p
      let node ← astNodeCreate .unaryOp
      let node ← setStrValue node op.value
      let (operand, p) ← parseUnary expr fuel p
      let node ← astNodeAddChild node operand
      return (some node, p)
    else parsePrimary expr fuel p

/-- The loop of a level of binary operators. -/
def binaryLoop (ops : List TokenType) (sub : NodeParser) :
    ℕ → Option Node → Parser → Building (Option Node × Parser)
  | 0, _, _ => outOfFuel
  | fuel + 1, left, p =>
    if p.currentToken.type ∈ ops then do
      let op := p.currentToken
      let p ← parserAdvance fuel p
      let (right, p) ← sub p
      let node ← astNodeCreate .binaryOp
      let node ← setStrValue node op.value
      let node ← astNodeAddChild node left
      let node ← astNodeAddChild node right
      binaryLoop ops sub fuel (some node) p
    else return (left, p)

/-- A level of left-associative binary operators over the level `sub`. -/
def binaryLevel (ops : List TokenType) (sub : NodeParser) (fuel : ℕ) : NodeParser := fun p => do
  let (left, p) ← sub p
  binaryLoop ops sub fuel left p

/-- `parser_parse_factor`. -/
def parseFactor (expr : NodeParser) (fuel : ℕ) : NodeParser :=
  binaryLevel factorOps (parseUnary expr fuel) fuel

/-- `parser_parse_term`. -/
def parseTerm (expr : NodeParser) (fuel : ℕ) : NodeParser :=
  binaryLevel termOps (parseFactor expr fuel) fuel

/-- `parser_parse_comparison`. -/
def parseComparison (expr : NodeParser) (fuel : ℕ) : NodeParser :=
  binaryLevel comparisonOps (parseTerm expr fuel) fuel

/-- `parser_parse_logical`. -/
def parseLogical (expr : NodeParser) (fuel : ℕ) : NodeParser :=
  binaryLevel logicalOps (parseComparison expr fuel) fuel

/-- `parser_parse_expression`. -/
def parseExpression : ℕ → NodeParser
  | 0, _ => outOfFuel
  | fuel + 1, p => parseLogical (parseExpression fuel) fuel p

/-! ## Statements -/

/-- The loop of `parser_parse_block`. -/
def blockLoop (stmt : NodeParser) : ℕ → Node → Parser → Building (Node × Parser)
  | 0, _, _ => outOfFuel
  | fuel + 1, block, p =>
    if p.currentToken.type ≠ .klamraPrawa ∧ p.currentToken.type ≠ .koniec then do
      record (.loopHead p)
      let (s, p') ← stmt p
      let block ← (if s.isSome then astNodeAddChild block s else pure block)
      record (.iteration p p')
      if p'.hasError then return (block, p') else blockLoop stmt fuel block p'
    else return (block, p)

/-- `parser_parse_block`. -/
def parseBlock (stmt : NodeParser) (fuel : ℕ) (p : Parser) : Building (Node × Parser) := do
  let block ← astNodeCreate .block
  let (_, p) ← parserExpect fuel p .klamraLewa
  let (block, p) ← blockLoop stmt fuel block p
  let (_, p) ← parserExpect fuel p .klamraPrawa
  return (block, p)

/-- A variable declaration. Where no name comes, nothing points to the node any more. -/
def parseVarDecl (fuel : ℕ) : NodeParser := fun p => do
  let p ← parserAdvance fuel p
  let node ← astNodeCreate .varDecl
  if p.currentToken.type ≠ .identyfikator then return (none, { p with hasError := true })
  else do
    let node ← setStrValue node p.currentToken.value
    let p ← parserAdvance fuel p
    let (node, p) ←
      (if p.currentToken.type = .przypisanie then do
        let p ← parserAdvance fuel p
        let (expr, p) ← parseExpression fuel p
        let node ← astNodeAddChild node expr
        return (node, p)
      else pure (node, p))
    let (_, p) ← parserExpect fuel p .srednikropek
    return (some node, p)

/-- A print statement. -/
def parsePrint (fuel : ℕ) : NodeParser := fun p => do
  let p ← parserAdvance fuel p
  let node ← astNodeCreate .print
  let (_, p) ← parserExpect fuel p .nawiasLewy
  let (node, p) ← parseArgumentList (parseExpression fuel) fuel node p
  let (_, p) ← parserExpect fuel p .srednikropek
  return (some node, p)

/-- The keyword, the condition and the block of `jesli` and `dopoki`. -/
def parseConditional (stmt : NodeParser) (fuel : ℕ) (type : ASTNodeType) (p : Parser) :
    Building (Node × Parser) := do
  let p ← parserAdvance fuel p
  let node ← astNodeCreate type
  let (_, p) ← parserExpect fuel p .nawiasLewy
  let (cond, p) ← parseExpression fuel p
  let (_, p) ← parserExpect fuel p .nawiasPrawy
  let (block, p) ← parseBlock stmt fuel p
  let node ← astNodeAddChild node cond
  let node ← astNodeAddChild node (some block)
  return (node, p)

/-- An if statement. -/
def parseIf (stmt : NodeParser) (fuel : ℕ) : NodeParser := fun p => do
  let (node, p) ← parseConditional stmt fuel .if p
  if p.currentToken.type = .inaczej then do
    let p ← parserAdvance fuel p
    let (elseBlock, p) ← parseBlock stmt fuel p
    let node ← astNodeAddChild node (some elseBlock)
    return (some node, p)
  else return (some node, p)

/-- A while loop. -/
def parseWhile (stmt : NodeParser) (fuel : ℕ) : NodeParser := fun p => do
  let (node, p) ← parseConditional stmt fuel .while p
  return (some node, p)

/-- A return statement. -/
def parseReturn (fuel : ℕ) : NodeParser := fun p => do
  let p ← parserAdvance fuel p
  let node ← astNodeCreate .return
  let (node, p) ←
    (if p.currentToken.type ≠ .srednikropek then do
      let (expr, p) ← parseExpression fuel p
      let node ← astNodeAddChild node expr
      return (node, p)
    else pure (node, p))
  let (_, p) ← parserExpect fuel p .srednikropek
  return (some node, p)

/-- A break or a continue statement. -/
def parseJump (fuel : ℕ) (type : ASTNodeType) : NodeParser := fun p => do
  let p ← parserAdvance fuel p
  let (_, p) ← parserExpect fuel p .srednikropek
  let node ← astNodeCreate type
  return (some node, p)

/-- An assignment or an expression statement. -/
def parseSimple (fuel : ℕ) : NodeParser := fun p => do
  let id := p.currentToken
  let p ← parserAdvance fuel p
  if p.currentToken.type = .przypisanie then do
    let p ← parserAdvance fuel p
    let node ← astNodeCreate .assign
    let node ← setStrValue node id.value
    let (expr, p) ← parseExpression fuel p
    let node ← astNodeAddChild node expr
    let (_, p) ← parserExpect fuel p .srednikropek
    return (some node, p)
  else do
    let p ← parserAdvance fuel { p with lexer := backtrack p.lexer id }
    let (expr, p) ← parseExpression fuel p
    let (_, p) ← parserExpect fuel p .srednikropek
    return (expr, p)

/-- `parser_parse_statement`, with the parser of the statements inside. -/
def parseStatementWith (stmt : NodeParser) (fuel : ℕ) : NodeParser := fun p =>
  match p.currentToken.type with
  | .zmienna => parseVarDecl fuel p
  | .drukuj => parsePrint fuel p
  | .jesli => parseIf stmt fuel p
  | .dopoki => parseWhile stmt fuel p
  | .zwroc => parseReturn fuel p
  | .przerwij => parseJump fuel .break p
  | .kontynuuj => parseJump fuel .continue p
  | .identyfikator => parseSimple fuel p
  | .klamraLewa => do
    let (block, p) ← parseBlock stmt fuel p
    return (some block, p)
  | _ => return (none, p)

/-- `parser_parse_statement`. -/
def parseStatement : ℕ → NodeParser
  | 0, _ => outOfFuel
  | fuel + 1, p => parseStatementWith (parseStatement fuel) fuel p

/-- The loop of `parser_parse_program`, which frees the program where there is an error. -/
def programLoop : ℕ → Node → Parser → Building (Option Node × Parser)
  | 0, _, _ => outOfFuel
  | fuel + 1, program, p =>
    if p.currentToken.type ≠ .koniec then do
      record (.loopHead p)
      let (s, p') ← parseStatement fuel p
      let program ← (if s.isSome then astNodeAddChild program s else pure program)
      record (.iteration p p')
      if p'.hasError then do
        modify (astNodeFree · program)
        return (none, p')
      else programLoop fuel program p'
    else return (some program, p)

/-- `parser_parse_program`. -/
def parseProgram (fuel : ℕ) : NodeParser := fun p => do
  let program ← astNodeCreate .program
  programLoop fuel program p

/-- The parse of a source, as `interpreter_execute` starts it. -/
def parseSource (fuel : ℕ) (source : ℕ → Char) : Building (Option Node × Parser) := do
  let p ← parserInit fuel (lexerInit source)
  parseProgram fuel p

/-- `interpreter_execute`, which frees the tree once it has been evaluated. The evaluation reads
the tree only. -/
def interpreterExecute {σ : Type} (m : Memory σ) (fuel : ℕ) (source : ℕ → Char) (s : Interp σ)
    (l : Ledger) : Run σ (Interp σ × Ledger) := do
  let ((program, parser), l) ← (parseSource fuel source l).mapLog .parse
  if parser.hasError then return (s.print (.message "[Blad parsowania]" parser.error.toList), l)
  else
    match program with
    | none => return (s, l)
    | some node => do
      let (_, s) ← interpreterEval m fuel node.tree s
      return (if s.hasError then s.print (.message "[Blad wykonania]" s.error) else s,
        astNodeFree l node)

end Blocks

end PolandOS.PolskiScript
