import PolandOS.Lang.LexerProgress
import PolandOS.Lang.ParserMemory
import PolandOS.Lang.ParserInvariant
import PolandOS.Lang.ParserShapes
import PolandOS.Lang.Arithmetic

/-! # What the parser allocates is freed

The parser with blocks returns the trees of the parser without, and each tree owns its blocks
(`builds_source`); so does a whole run (`interpreterExecute_blocks`).

* `parsing_frees_all_iff`: at the end of a run everything has been freed once, exactly if the
  parser came to no declaration without a name. The node of such a declaration is lost.
-/

namespace PolandOS.PolskiScript

open Logging

/-- The statement is a declaration without a name. -/
def Nameless (p : Parser) : Prop :=
  p.currentToken.type = .zmienna ∧
    ∃ fuel tok lex, lexerNextToken fuel p.lexer = some (tok, lex) ∧ tok.type ≠ .identyfikator

open Classical in
/-- What is lost at an event of a parse: a node for each declaration without a name. -/
noncomputable def debt : ParseEvent → ℕ
  | .loopHead p => if Nameless p then 1 else 0
  | _ => 0

/-- Whether a declaration has a name is seen at the next token. -/
theorem nameless_iff {n : ℕ} {p p' : Parser} (htype : p.currentToken.type = .zmienna)
    (h : (parserAdvance n p).result = .ok p') :
    Nameless p ↔ p'.currentToken.type ≠ .identyfikator := by
  rcases Logged.result_bind.mp h with ⟨⟨tok, lex⟩, hnext, hp'⟩
  rw [Logged.result_ofOption] at hnext
  cases hp'
  constructor
  · rintro ⟨-, fuel, tok', lex', hnext', hne⟩
    cases lexerNextToken_unique hnext hnext'
    exact hne
  · exact fun hne => ⟨htype, n, tok, lex, hnext, hne⟩

/-! ## Nodes -/

mutual

/-- The blocks of a node and of what hangs on it. -/
def Node.blocks : Node → Multiset ℕ
  | ⟨block, _, strValue, _, _, _, array, children⟩ =>
    {block} + Ledger.pointed (strValue.map Prod.fst) + Ledger.pointed array + blocksOf children

/-- The blocks of nodes in a row. -/
def blocksOf : List Node → Multiset ℕ
  | [] => 0
  | c :: cs => c.blocks + blocksOf cs

end

/-- The blocks behind a pointer to a node. -/
def ownedBlocks : Option Node → Multiset ℕ
  | none => 0
  | some n => n.blocks

theorem trees_append (cs ds : List Node) : trees (cs ++ ds) = trees cs ++ trees ds := by
  induction cs with
  | nil => rfl
  | cons c cs ih => rw [List.cons_append, trees, trees, ih, List.cons_append]

theorem blocksOf_append (cs ds : List Node) :
    blocksOf (cs ++ ds) = blocksOf cs + blocksOf ds := by
  induction cs with
  | nil => exact (zero_add _).symm
  | cons c cs ih => rw [List.cons_append, blocksOf, blocksOf, ih, add_assoc]

mutual

/-- `ast_node_free` frees what the node owns. -/
theorem live_astNodeFree (n : Node) {l : Ledger} {rest : Multiset ℕ}
    (h : l.Live (n.blocks + rest)) : (Blocks.astNodeFree l n).Live rest := by
  obtain ⟨block, type, strValue, i, f, b, array, children⟩ := n
  rw [Node.blocks] at h
  rw [Blocks.astNodeFree]
  refine Ledger.Live.free (Ledger.Live.freeAny (live_freeChildren children ?_))
  exact Ledger.Live.freeAny (h.of_eq (by abel))

theorem live_freeChildren (cs : List Node) {l : Ledger} {rest : Multiset ℕ}
    (h : l.Live (blocksOf cs + rest)) : (Blocks.freeChildren l cs).Live rest := by
  cases cs with
  | nil =>
      rw [blocksOf, zero_add] at h
      exact h
  | cons c cs =>
      rw [blocksOf, add_assoc] at h
      exact live_freeChildren cs (live_astNodeFree c h)

end

/-- The blocks of a node but for the array of its children. -/
def Node.others (n : Node) : Multiset ℕ :=
  {n.block} + Ledger.pointed (n.strValue.map Prod.fst) + blocksOf n.children

theorem Node.blocks_eq (n : Node) : n.blocks = Ledger.pointed n.array + n.others := by
  obtain ⟨block, type, strValue, i, f, b, array, children⟩ := n
  rw [Node.blocks, Node.others]
  abel

/-- A node with a further child, in the array `a`. -/
def Node.adopt (n : Node) (a : ℕ) (c : Node) : Node :=
  { n with array := some a, children := n.children ++ [c] }

theorem Node.tree_adopt (n : Node) (a : ℕ) (c : Node) :
    (n.adopt a c).tree = { n.tree with children := n.tree.children ++ [c.tree] } := by
  obtain ⟨block, type, strValue, i, f, b, array, children⟩ := n
  rw [Node.adopt, Node.tree, Node.tree, trees_append]
  rfl

theorem Node.blocks_adopt (n : Node) (a : ℕ) (c : Node) :
    (n.adopt a c).blocks = {a} + (n.others + c.blocks) := by
  have hlast : blocksOf [c] = c.blocks := add_zero _
  rw [Node.blocks_eq, Node.others, Node.adopt, blocksOf_append, hlast, Node.others]
  change {a} + _ = _
  abel

theorem Node.type_tree (n : Node) : n.tree.type = n.type := by
  obtain ⟨block, type, strValue, i, f, b, array, children⟩ := n
  rfl

/-- A zeroed node that has been given a string. -/
def named (block text : ℕ) (type : ASTNodeType) (value : List Char) : Node :=
  { Blocks.zeroed block type with strValue := some (text, value) }

/-- A node without a string and without children is one block. -/
theorem blocks_bare (block : ℕ) (type : ASTNodeType) (i : Int64) (x : Float) (v : Bool) :
    Node.blocks ⟨block, type, none, i, x, v, none, []⟩ = {block} := by
  rw [Node.blocks]
  exact add_zero _

theorem blocks_named (block text : ℕ) (type : ASTNodeType) (value : List Char) :
    (named block text type value).blocks = {text} + {block} := by
  rw [named, Node.blocks, add_comm ({text} : Multiset ℕ)]
  exact add_zero _

/-- A parser that returns a node or `NULL` builds the tree. -/
abbrev BuildsTree (owe : ℕ) (inn : Multiset ℕ) (x : Building (Option Node × Parser))
    (y : Parse (Option ASTNode × Parser)) : Prop :=
  Builds debt owe inn x y (fun r => (r.1.map Node.tree, r.2)) fun r => ownedBlocks r.1

/-- A parser that returns a node builds the tree. -/
abbrev BuildsNode (inn : Multiset ℕ) (x : Building (Node × Parser))
    (y : Parse (ASTNode × Parser)) : Prop :=
  Builds debt 0 inn x y (fun r => (r.1.tree, r.2)) fun r => r.1.blocks

section Allocation

variable {α β : Type} {owe : ℕ} {inn : Multiset ℕ} {view : α → β} {own : α → Multiset ℕ}
  {f : Node → Building α} {y : Parse β}

theorem builds_create {type : ASTNodeType}
    (hf : ∀ b, Builds debt owe ({b} + inn) (f (Blocks.zeroed b type)) y view own) :
    Builds debt owe inn (Blocks.astNodeCreate type >>= f) y view own := by
  refine builds_account (h := fun l => (Blocks.zeroed l.alloc.1 type, l.alloc.2))
    (fun n => {n.block} + inn) (fun l rest hl => ?_) fun l => hf l.alloc.1
  exact hl.alloc.of_eq (add_assoc _ _ _).symm

theorem builds_setStrValue {node : Node} {value : List Char}
    (hf : ∀ b,
      Builds debt owe ({b} + inn) (f { node with strValue := some (b, value) }) y view own) :
    Builds debt owe inn (Blocks.setStrValue node value >>= f) y view own := by
  refine builds_account
    (h := fun l => ({ node with strValue := some (l.alloc.1, value) }, l.alloc.2))
    (fun n => Ledger.pointed (n.strValue.map Prod.fst) + inn) (fun l rest hl => ?_)
    fun l => hf l.alloc.1
  exact hl.alloc.of_eq (add_assoc _ _ _).symm

/-- A zeroed node that is given a string. -/
theorem builds_setName {block : ℕ} {type : ASTNodeType} {value : List Char}
    (hf : ∀ node : Node, node.tree = { astNodeCreate type with strValue := value } →
      Builds debt owe (node.blocks + inn) (f node) y view own) :
    Builds debt owe ({block} + inn) (Blocks.setStrValue (Blocks.zeroed block type) value >>= f) y
      view own := by
  refine builds_setStrValue fun t => (hf (named block t type value) rfl).of_eq ?_
  rw [blocks_named, add_assoc]

/-- A node that is created and given a string. -/
theorem builds_named {type : ASTNodeType} {value : List Char}
    (hf : ∀ node : Node, node.tree = { astNodeCreate type with strValue := value } →
      Builds debt owe (node.blocks + inn) (f node) y view own) :
    Builds debt owe inn (Blocks.astNodeCreate type >>= fun node =>
      Blocks.setStrValue node value >>= f) y view own :=
  builds_create fun _ => builds_setName hf

theorem builds_addChild (parent : Node) (child : Option Node) :
    Builds debt 0 (parent.blocks + ownedBlocks child) (Blocks.astNodeAddChild parent child)
      (astNodeAddChild parent.tree (child.map Node.tree)) Node.tree Node.blocks := by
  unfold Blocks.astNodeAddChild astNodeAddChild
  rw [Option.isSome_map, Node.type_tree]
  refine builds_emit ?_
  cases child with
  | none => exact builds_pure rfl (add_zero _)
  | some c =>
      refine builds_account (fun a => {a} + (parent.others + c.blocks)) ?_ fun l => ?_
      · intro l rest hl
        have hold : l.Live (Ledger.pointed parent.array + (parent.others + c.blocks + rest)) :=
          hl.of_eq (by rw [Node.blocks_eq, ownedBlocks]; abel)
        exact hold.realloc (8 * (parent.children.length + 1)) |>.of_eq (by abel)
      · refine builds_pure ?_ (Node.blocks_adopt parent _ c).symm
        refine (Node.tree_adopt parent _ c).trans ?_
        rw [← Node.type_tree parent]

theorem builds_addPresent (parent : Node) (child : Option Node) :
    Builds debt 0 (parent.blocks + ownedBlocks child)
      (if child.isSome then Blocks.astNodeAddChild parent child else pure parent)
      (if (child.map Node.tree).isSome then astNodeAddChild parent.tree (child.map Node.tree)
        else pure parent.tree) Node.tree Node.blocks := by
  cases child with
  | none => exact builds_pure rfl (add_zero _)
  | some c => exact builds_addChild parent (some c)

/-- A first step that returns a node and the parser. -/
theorem builds_node {x : Building (Node × Parser)} {y : Parse (ASTNode × Parser)}
    {f : Node × Parser → Building α} {g : ASTNode × Parser → Parse β} (hx : BuildsNode inn x y)
    (hf : ∀ r, Builds debt 0 r.1.blocks (f r) (g (r.1.tree, r.2)) view own) :
    Builds debt 0 inn (x >>= f) (y >>= g) view own := builds_then hx hf

/-- A first step that returns a node. -/
theorem builds_new {x : Building Node} {y : Parse ASTNode} {g : ASTNode → Parse β}
    (hx : Builds debt 0 inn x y Node.tree Node.blocks)
    (hf : ∀ n, Builds debt 0 n.blocks (f n) (g n.tree) view own) :
    Builds debt 0 inn (x >>= f) (y >>= g) view own := builds_then hx hf

end Allocation

section Steps

variable {fuel : ℕ} {p : Parser}

theorem costless_advance : (parserAdvance fuel p).All fun e => debt e = 0 := by
  unfold parserAdvance
  simp [Logged.all_bind]

theorem costless_expect {t : TokenType} : (parserExpect fuel p t).All fun e => debt e = 0 := by
  unfold parserExpect
  split
  · exact Logged.all_pure _
  · exact Logged.all_bind.mpr ⟨costless_advance, fun _ _ => Logged.all_pure _⟩

theorem costless_intLiteral (cs : List Char) (val : Int64) :
    (intLiteral cs val).All fun e => debt e = 0 := by
  induction cs generalizing val with
  | nil => exact Logged.all_pure _
  | cons c cs ih =>
      unfold intLiteral parseArith
      simp only [Logged.all_bind, Logged.all_emit, Logged.all_pure]
      exact ⟨⟨rfl, fun _ _ => trivial⟩, fun _ _ => ⟨⟨rfl, fun _ _ => trivial⟩, fun v _ => ih v⟩⟩

/-- A token that is skipped if it is there. -/
theorem builds_skip {c : Prop} [Decidable c] :
    Builds debt 0 0 (if c then liftM (parserAdvance fuel p) else pure p : Building Parser)
      (if c then parserAdvance fuel p else pure p) id fun _ => 0 :=
  builds_ite (fun _ => builds_lifted costless_advance) fun _ => builds_pure rfl rfl

end Steps

section Expressions

variable {fuel : ℕ} {expr sub : Blocks.NodeParser} {expr' sub' : NodeParser}

/-- What holds of the parsers of expressions. -/
def BuildsExpr (expr : Blocks.NodeParser) (expr' : NodeParser) : Prop :=
  ∀ p, BuildsTree 0 0 (expr p) (expr' p)

theorem builds_arguments (hexpr : BuildsExpr expr expr') (node : Node) (p : Parser) :
    BuildsNode node.blocks (Blocks.parseArguments expr fuel node p)
      (parseArguments expr' fuel node.tree p) := by
  induction fuel generalizing node p with
  | zero => exact builds_stop _
  | succ fuel ih =>
      unfold Blocks.parseArguments parseArguments
      -- the node is in hand while the comma and the argument are parsed
      refine builds_bind node.blocks (zero_add _).symm builds_skip fun q => ?_
      refine builds_bind node.blocks rfl (hexpr q) fun r => ?_
      rcases r with ⟨arg, q⟩
      refine builds_new ((builds_addPresent node arg).of_eq (add_comm _ _)) fun node' => ?_
      exact builds_ite (fun _ => ih node' q) fun _ => builds_pure rfl rfl

theorem builds_argumentList (hexpr : BuildsExpr expr expr') (node : Node) (p : Parser) :
    BuildsNode node.blocks (Blocks.parseArgumentList expr fuel node p)
      (parseArgumentList expr' fuel node.tree p) := by
  unfold Blocks.parseArgumentList parseArgumentList
  refine builds_node ?_ fun ⟨node', q⟩ => ?_
  · exact builds_ite (fun _ => builds_arguments hexpr node p) fun _ => builds_pure rfl rfl
  · exact builds_lift costless_expect fun r _ => builds_pure rfl rfl

theorem builds_number : BuildsExpr (Blocks.parseNumber fuel) (parseNumber fuel) := by
  intro p
  unfold Blocks.parseNumber parseNumber
  refine builds_new ?_ fun node => ?_
  · refine builds_ite (fun _ => builds_create fun b => ?_) fun _ => builds_create fun b => ?_
    · exact builds_pure rfl ((add_zero _).trans (blocks_bare _ _ _ _ _).symm)
    · refine builds_emit (builds_lift (costless_intLiteral _ _) fun val _ => ?_)
      exact builds_pure rfl ((add_zero _).trans (blocks_bare _ _ _ _ _).symm)
  · exact builds_lift costless_advance fun r _ => builds_pure rfl rfl

theorem builds_text :
    BuildsTree 0 0 (Blocks.parseText fuel p)
      (parseLiteral fuel { astNodeCreate .literalString with strValue := p.currentToken.value }
        p) := by
  refine builds_named fun node htree => builds_lift costless_advance fun q _ => ?_
  rw [← htree]
  exact builds_pure rfl (add_zero _)

theorem builds_word (type : ASTNodeType) (value : Bool) :
    BuildsTree 0 0 (Blocks.parseWord fuel type value p)
      (parseLiteral fuel { astNodeCreate type with boolValue := value } p) := by
  refine builds_create fun b => builds_lift costless_advance fun q _ => builds_pure rfl ?_
  rw [add_zero]
  exact (blocks_bare b type 0 0 value).symm

theorem builds_identifier (hexpr : BuildsExpr expr expr') :
    BuildsExpr (Blocks.parseName expr fuel) (parseName expr' fuel) := by
  intro p
  unfold Blocks.parseName parseName
  refine builds_named fun node htree => builds_lift costless_advance fun q _ => ?_
  rw [← htree, add_zero]
  refine builds_ite (fun _ => builds_create fun c => ?_) fun _ => builds_pure rfl rfl
  refine builds_new ((builds_addChild _ (some node)).of_eq ?_) fun call => ?_
  · exact congrArg (· + _) (blocks_bare c .call 0 0 false)
  refine builds_lift costless_advance fun q' _ => ?_
  exact builds_node (builds_argumentList hexpr call q') fun r => builds_pure rfl rfl

theorem builds_primary (hexpr : BuildsExpr expr expr') :
    BuildsExpr (Blocks.parsePrimary expr fuel) (parsePrimary expr' fuel) := by
  intro p
  unfold Blocks.parsePrimary parsePrimary
  cases p.currentToken.type <;> dsimp only
  case liczba => exact builds_number p
  case tekst => exact builds_text
  case prawda => exact builds_word _ _
  case falsz => exact builds_word _ _
  case nic => exact builds_word _ _
  case identyfikator => exact builds_identifier hexpr p
  case nawiasLewy =>
      refine builds_lift costless_advance fun q _ => builds_then (hexpr q) fun ⟨node, q'⟩ => ?_
      exact builds_lift costless_expect fun r _ => builds_pure rfl rfl
  all_goals exact builds_pure rfl rfl

theorem builds_unary (hexpr : BuildsExpr expr expr') :
    BuildsExpr (Blocks.parseUnary expr fuel) (parseUnary expr' fuel) := by
  induction fuel with
  | zero => exact fun _ => builds_stop _
  | succ fuel ih =>
      intro p
      unfold Blocks.parseUnary parseUnary
      refine builds_ite (fun _ => ?_) fun _ => builds_primary hexpr p
      refine builds_lift costless_advance fun q _ => builds_named fun node htree => ?_
      refine builds_bind node.blocks ?_ (ih q) fun r => ?_
      · rw [add_zero, zero_add]
      rcases r with ⟨operand, q'⟩
      rw [← htree]
      refine builds_new ((builds_addChild node operand).of_eq (add_comm _ _)) fun node' => ?_
      exact builds_pure rfl rfl

theorem builds_binaryLoop {ops : List TokenType} (hsub : BuildsExpr sub sub') (left : Option Node)
    (p : Parser) :
    BuildsTree 0 (ownedBlocks left) (Blocks.binaryLoop ops sub fuel left p)
      (binaryLoop ops sub' fuel (left.map Node.tree) p) := by
  induction fuel generalizing left p with
  | zero => exact builds_stop _
  | succ fuel ih =>
      unfold Blocks.binaryLoop binaryLoop
      refine builds_ite (fun _ => ?_) fun _ => builds_pure rfl rfl
      refine builds_lift costless_advance fun q _ => ?_
      -- `left` is in hand while the right operand is parsed, and both until they hang on the node
      refine builds_bind (ownedBlocks left) (zero_add _).symm (hsub q) fun r => ?_
      rcases r with ⟨right, q'⟩
      refine builds_named fun node htree => ?_
      rw [← htree]
      refine builds_bind (ownedBlocks right) ?_ (builds_addChild node left) fun node' => ?_
      · abel
      refine builds_new (builds_addChild node' right) fun node'' => ?_
      exact ih (some node'') q'

theorem builds_binaryLevel {ops : List TokenType} (hsub : BuildsExpr sub sub') :
    BuildsExpr (Blocks.binaryLevel ops sub fuel) (binaryLevel ops sub' fuel) :=
  fun p => builds_then (hsub p) fun r => builds_binaryLoop hsub r.1 r.2

theorem builds_logical (hexpr : BuildsExpr expr expr') :
    BuildsExpr (Blocks.parseLogical expr fuel) (parseLogical expr' fuel) :=
  builds_binaryLevel (builds_binaryLevel (builds_binaryLevel (builds_binaryLevel
    (builds_unary hexpr))))

theorem builds_expression : BuildsExpr (Blocks.parseExpression fuel) (parseExpression fuel) := by
  induction fuel with
  | zero => exact fun _ => builds_stop _
  | succ fuel ih => exact builds_logical ih

end Expressions

section Statements

variable {fuel : ℕ} {p : Parser} {stmt : Blocks.NodeParser} {stmt' : NodeParser}

theorem debt_of_ne (h : p.currentToken.type ≠ .zmienna) : debt (.loopHead p) = 0 :=
  if_neg fun hname => h hname.1

/-- What holds of the parsers of statements: a statement is behind the event at the head of a
loop. -/
def BuildsStmt (stmt : Blocks.NodeParser) (stmt' : NodeParser) : Prop :=
  ∀ p, BuildsTree (debt (.loopHead p)) 0 (stmt p) (stmt' p)

theorem builds_blockLoop (hstmt : BuildsStmt stmt stmt') (block : Node) (p : Parser) :
    BuildsNode block.blocks (Blocks.blockLoop stmt fuel block p)
      (blockLoop stmt' fuel block.tree p) := by
  induction fuel generalizing block p with
  | zero => exact builds_stop _
  | succ fuel ih =>
      unfold Blocks.blockLoop blockLoop
      refine builds_ite (fun _ => builds_emit ?_) fun _ => builds_pure rfl rfl
      rw [Nat.zero_add]
      refine builds_bind block.blocks (zero_add _).symm (hstmt p) fun r => ?_
      rcases r with ⟨s, q⟩
      refine builds_new ((builds_addPresent block s).of_eq (add_comm _ _)) fun block' => ?_
      exact builds_emit (builds_ite (fun _ => builds_pure rfl rfl) fun _ => ih block' q)

theorem builds_block (hstmt : BuildsStmt stmt stmt') (p : Parser) :
    BuildsNode 0 (Blocks.parseBlock stmt fuel p) (parseBlock stmt' fuel p) := by
  unfold Blocks.parseBlock parseBlock
  refine builds_create fun b => builds_lift costless_expect fun r _ => ?_
  refine builds_node ((builds_blockLoop hstmt (Blocks.zeroed b .block) r.2).of_eq ?_) fun r' => ?_
  · exact (blocks_bare b .block 0 0 false).trans (add_zero _).symm
  · exact builds_lift costless_expect fun _ _ => builds_pure rfl rfl

theorem builds_varDecl (htype : p.currentToken.type = .zmienna) :
    BuildsTree (debt (.loopHead p)) 0 (Blocks.parseVarDecl fuel p) (parseVarDecl fuel p) := by
  unfold Blocks.parseVarDecl parseVarDecl
  refine builds_lift costless_advance fun q hq => builds_create fun b => ?_
  refine builds_ite (fun hname => ?_) fun hname => ?_
  · -- no name: `NULL` is returned, and the node that has been created is lost
    have hdebt : debt (.loopHead p) = 1 := if_pos ((nameless_iff htype hq).mpr hname)
    rw [hdebt]
    exact builds_drop {b} rfl (zero_add _).symm rfl
  · have hdebt : debt (.loopHead p) = 0 := if_neg ((nameless_iff htype hq).not.mpr hname)
    rw [hdebt]
    refine builds_setName fun node htree => builds_lift costless_advance fun q' _ => ?_
    rw [← htree, add_zero]
    refine builds_node ?_ fun r => ?_
    · refine builds_ite (fun _ => builds_lift costless_advance fun q'' _ => ?_) fun _ =>
        builds_pure rfl rfl
      refine builds_bind node.blocks (zero_add _).symm (builds_expression q'') fun ⟨e, p₁⟩ => ?_
      refine builds_new ((builds_addChild node e).of_eq (add_comm _ _)) fun node' => ?_
      exact builds_pure rfl rfl
    · exact builds_lift costless_expect fun _ _ => builds_pure rfl rfl

theorem builds_print : BuildsTree 0 0 (Blocks.parsePrint fuel p) (parsePrint fuel p) := by
  unfold Blocks.parsePrint parsePrint
  refine builds_lift costless_advance fun q _ => builds_create fun b => ?_
  refine builds_lift costless_expect fun r _ => ?_
  refine builds_node ((builds_argumentList builds_expression (Blocks.zeroed b .print) r.2).of_eq ?_)
    fun r' => ?_
  · exact (blocks_bare b .print 0 0 false).trans (add_zero _).symm
  · exact builds_lift costless_expect fun _ _ => builds_pure rfl rfl

theorem builds_conditional (hstmt : BuildsStmt stmt stmt') (type : ASTNodeType) (p : Parser) :
    BuildsNode 0 (Blocks.parseConditional stmt fuel type p)
      (parseConditional stmt' fuel type p) := by
  unfold Blocks.parseConditional parseConditional
  refine builds_lift costless_advance fun q _ => builds_create fun b => ?_
  have hbare : (Blocks.zeroed b type).blocks = {b} := blocks_bare b type 0 0 false
  refine builds_lift costless_expect fun r _ => ?_
  -- three nodes are in hand before the first one hangs on another: the statement, its condition
  -- and its block
  refine builds_bind {b} (add_comm _ _) (builds_expression r.2) fun ⟨cond, p₁⟩ => ?_
  refine builds_lift costless_expect fun r' _ => ?_
  refine builds_bind (ownedBlocks cond + {b}) (zero_add _).symm (builds_block hstmt r'.2)
    fun ⟨block, p₂⟩ => ?_
  refine builds_bind block.blocks ?_ (builds_addChild (Blocks.zeroed b type) cond) fun node => ?_
  · rw [hbare]
    abel
  refine builds_new (builds_addChild node (some block)) fun node' => ?_
  exact builds_pure rfl rfl

theorem builds_if (hstmt : BuildsStmt stmt stmt') :
    BuildsTree 0 0 (Blocks.parseIf stmt fuel p) (parseIf stmt' fuel p) := by
  unfold Blocks.parseIf parseIf
  refine builds_node (builds_conditional hstmt .if p) fun ⟨node, q⟩ => ?_
  refine builds_ite (fun _ => ?_) fun _ => builds_pure rfl rfl
  refine builds_lift costless_advance fun q' _ => ?_
  refine builds_bind node.blocks (zero_add _).symm (builds_block hstmt q') fun ⟨block, p₁⟩ => ?_
  refine builds_new ((builds_addChild node (some block)).of_eq (add_comm _ _)) fun node' => ?_
  exact builds_pure rfl rfl

theorem builds_while (hstmt : BuildsStmt stmt stmt') :
    BuildsTree 0 0 (Blocks.parseWhile stmt fuel p) (parseWhile stmt' fuel p) :=
  builds_node (builds_conditional hstmt .while p) fun _ => builds_pure rfl rfl

theorem builds_return : BuildsTree 0 0 (Blocks.parseReturn fuel p) (parseReturn fuel p) := by
  unfold Blocks.parseReturn parseReturn
  refine builds_lift costless_advance fun q _ => builds_create fun b => ?_
  have hbare : {b} + 0 = (Blocks.zeroed b .return).blocks :=
    (add_zero _).trans (blocks_bare b .return 0 0 false).symm
  rw [hbare]
  refine builds_node ?_ fun r => ?_
  · refine builds_ite (fun _ => ?_) fun _ => builds_pure rfl rfl
    refine builds_bind _ (zero_add _).symm (builds_expression q) fun ⟨e, p₁⟩ => ?_
    refine builds_new ((builds_addChild (Blocks.zeroed b .return) e).of_eq (add_comm _ _))
      fun node' => ?_
    exact builds_pure rfl rfl
  · exact builds_lift costless_expect fun _ _ => builds_pure rfl rfl

theorem builds_jump (type : ASTNodeType) :
    BuildsTree 0 0 (Blocks.parseJump fuel type p) (parseJump fuel type p) := by
  unfold Blocks.parseJump parseJump
  refine builds_lift costless_advance fun q _ => builds_lift costless_expect fun r _ => ?_
  refine builds_create fun b => builds_pure rfl ?_
  exact (add_zero _).trans (blocks_bare b type 0 0 false).symm

theorem builds_simple : BuildsTree 0 0 (Blocks.parseSimple fuel p) (parseSimple fuel p) := by
  unfold Blocks.parseSimple parseSimple
  refine builds_lift costless_advance fun q _ => builds_ite (fun _ => ?_) fun _ => ?_
  · refine builds_lift costless_advance fun q' _ => builds_named fun node htree => ?_
    rw [← htree, add_zero]
    refine builds_bind node.blocks (zero_add _).symm (builds_expression q') fun ⟨e, p₁⟩ => ?_
    refine builds_new ((builds_addChild node e).of_eq (add_comm _ _)) fun node' => ?_
    exact builds_lift costless_expect fun _ _ => builds_pure rfl rfl
  · refine builds_lift costless_advance fun q' _ => ?_
    refine builds_then (builds_expression q') fun ⟨e, p₁⟩ => ?_
    exact builds_lift costless_expect fun _ _ => builds_pure rfl rfl

theorem builds_statementWith (hstmt : BuildsStmt stmt stmt') :
    BuildsStmt (Blocks.parseStatementWith stmt fuel) (parseStatementWith stmt' fuel) := by
  intro p
  by_cases hdecl : p.currentToken.type = .zmienna
  · unfold Blocks.parseStatementWith parseStatementWith
    rw [hdecl]
    exact builds_varDecl hdecl
  · rw [debt_of_ne hdecl]
    unfold Blocks.parseStatementWith parseStatementWith
    cases htype : p.currentToken.type <;> dsimp only
    case zmienna => exact absurd htype hdecl
    case drukuj => exact builds_print
    case jesli => exact builds_if hstmt
    case dopoki => exact builds_while hstmt
    case zwroc => exact builds_return
    case przerwij => exact builds_jump .break
    case kontynuuj => exact builds_jump .continue
    case identyfikator => exact builds_simple
    case klamraLewa => exact builds_node (builds_block hstmt p) fun _ => builds_pure rfl rfl
    all_goals exact builds_pure rfl rfl

theorem builds_statement : BuildsStmt (Blocks.parseStatement fuel) (parseStatement fuel) := by
  induction fuel with
  | zero => exact fun _ => builds_stop _
  | succ fuel ih => exact builds_statementWith ih

theorem builds_programLoop (program : Node) (p : Parser) :
    BuildsTree 0 program.blocks (Blocks.programLoop fuel program p)
      (programLoop fuel program.tree p) := by
  induction fuel generalizing program p with
  | zero => exact builds_stop _
  | succ fuel ih =>
      unfold Blocks.programLoop programLoop
      refine builds_ite (fun _ => builds_emit ?_) fun _ => builds_pure rfl rfl
      rw [Nat.zero_add]
      refine builds_bind program.blocks (zero_add _).symm (builds_statement p) fun r => ?_
      rcases r with ⟨s, q⟩
      refine builds_new ((builds_addPresent program s).of_eq (add_comm _ _)) fun program' => ?_
      refine builds_emit (builds_ite (fun _ => ?_) fun _ => ih program' q)
      -- on an error the program is freed with all that hangs on it
      refine builds_account (h := fun l => ((), Blocks.astNodeFree l program')) (fun _ => 0)
        (fun l rest hl => ?_) fun _ => builds_pure rfl rfl
      exact (live_astNodeFree program' hl).of_eq (zero_add _).symm

/-- The parser with blocks builds the trees of the parser without, and each owns its blocks. -/
theorem builds_source (fuel : ℕ) (source : ℕ → Char) :
    BuildsTree 0 0 (Blocks.parseSource fuel source) (parseSource fuel source) := by
  unfold Blocks.parseSource parseSource
  refine builds_lift ?_ fun p _ => builds_create fun b => ?_
  · unfold parserInit
    simp [Logged.all_bind]
  · refine (builds_programLoop (Blocks.zeroed b .program) p).of_eq ?_
    exact (blocks_bare b .program 0 0 false).trans (add_zero _).symm

end Statements

/-! ## Whole runs -/

section Runs

variable {σ : Type} (m : Memory σ) {fuel : ℕ} {source : ℕ → Char} {s s' : Interp σ} {l l' : Ledger}

/-- The run with blocks is the run without. -/
theorem interpreterExecute_blocks (fuel : ℕ) (source : ℕ → Char) (s : Interp σ) (l : Ledger) :
    SameUpTo Prod.fst (Blocks.interpreterExecute m fuel source s l)
      (interpreterExecute m fuel source s) := by
  unfold Blocks.interpreterExecute interpreterExecute
  refine sameUpTo_bind (((builds_source fuel source).same l).mapLog RunEvent.parse) ?_
  rintro ⟨⟨program, parser⟩, l₁⟩
  refine sameUpTo_ite (sameUpTo_pure rfl) ?_
  cases program with
  | none => exact sameUpTo_pure rfl
  | some node =>
      exact sameUpTo_bind (sameUpTo_refl _) fun r => sameUpTo_pure rfl

variable {m}

/-- What is live at the end is one node for each declaration without a name. -/
theorem lost_at_end
    (h : (Blocks.interpreterExecute m fuel source s l).result = .ok (s', l')) (hl : l.Live 0) :
    ∃ lost : Multiset ℕ, lost.card = debts debt (parseSource fuel source).log ∧ l'.Live lost := by
  have hbuilds := builds_source fuel source
  rcases Logged.result_bind.mp h with ⟨⟨⟨program, parser⟩, l₁⟩, hparse, hrest⟩
  rw [Logged.result_mapLog] at hparse
  obtain ⟨lost, hcard, hlive⟩ := hbuilds.live l 0 _ hl hparse
  refine ⟨lost, hcard.trans (Nat.zero_add _), ?_⟩
  cases program with
  | none =>
      -- there was an error, and the parser has freed what it had
      have hend : l' = l₁ := by
        dsimp only at hrest
        split at hrest <;> cases hrest <;> rfl
      rw [hend]
      exact hlive.of_eq (by rw [ownedBlocks]; abel)
  | some node =>
      -- a tree is returned without an error only, so that it is evaluated and freed
      have htree : (parseSource fuel source).result = .ok (some node.tree, parser) :=
        (hbuilds.same l).returned hparse
      dsimp only at hrest
      rw [(parseSource_shaped htree).1, if_neg Bool.false_ne_true] at hrest
      rcases Logged.result_bind.mp hrest with ⟨r, -, hr⟩
      cases hr
      exact live_astNodeFree node (hlive.of_eq (add_zero _))

/-- When `interpreter_execute` returns, every node, array of children and `str_value` that the
parser allocated has been freed once, exactly if no statement that the parser came to is a
declaration without a name. -/
theorem parsing_frees_all_iff (inPlace : ℕ → ℕ → Bool)
    (h : (Blocks.interpreterExecute m fuel source s (.empty inPlace)).result = .ok (s', l')) :
    l'.AllFreedOnce ↔
      ∀ p, ParseEvent.loopHead p ∈ (parseSource fuel source).log → ¬Nameless p := by
  obtain ⟨lost, hcard, hlive⟩ := lost_at_end h (Ledger.live_empty inPlace)
  rw [hlive.allFreedOnce_iff, ← Multiset.card_eq_zero, hcard, debts_eq_zero_iff]
  constructor
  · intro hall p hp hname
    have hzero := hall _ hp
    rw [debt, if_pos hname] at hzero
    cases hzero
  · intro hnone e he
    cases e with
    | loopHead p => exact if_neg (hnone p he)
    | _ => rfl

instance (P : Parser → Prop) [DecidablePred P] : DecidablePred (AtHeads P)
  | .loopHead p => inferInstanceAs (Decidable (P p))
  | .iteration _ _ | .addChild _ _ | .literal _ | .arith _ _ _ => .isTrue trivial

/-- `{x=(1;}`, where a closing bracket is missing. -/
theorem parsing_frees_all_error : ∃ s' l',
    (Blocks.interpreterExecute plainMemory 60 (sourceOf "{x=(1;}".toList)
      (interpreterInit plainMemory ()) (.empty fun _ _ => false)).result = .ok (s', l') ∧
    l'.AllFreedOnce := by
  have hrun : ∃ s' l', (Blocks.interpreterExecute plainMemory 60 (sourceOf "{x=(1;}".toList)
      (interpreterInit plainMemory ()) (.empty fun _ _ => false)).result = .ok (s', l') :=
    ⟨_, _, rfl⟩
  obtain ⟨s', l', hrun⟩ := hrun
  refine ⟨s', l', hrun, (parsing_frees_all_iff _ hrun).mpr ?_⟩
  have hheads : (parseSource 60 (sourceOf "{x=(1;}".toList)).All
      (AtHeads fun p => p.currentToken.type ≠ .zmienna) := by
    unfold Logged.All
    decide
  exact fun p hp hname => hheads _ hp hname.1

/-- `zmienna;`: the node of the declaration is never freed. -/
theorem nameless_declaration_leaks : ∃ s' l',
    (Blocks.interpreterExecute plainMemory 60 (sourceOf "zmienna;".toList)
      (interpreterInit plainMemory ()) (.empty fun _ _ => false)).result = .ok (s', l') ∧
    l'.next = 2 ∧ l'.freed = [0] ∧ ¬l'.AllFreedOnce :=
  ⟨_, _, rfl, rfl, rfl, fun h => absurd (h 1) (by decide)⟩

end Runs

end PolandOS.PolskiScript
