import PolandOS.Lang.Parser

/-! # The shapes of the trees the parser returns

`interpreter_eval` reads `children[0]` and `children[1]` of some nodes without a
look at `child_count`. `accepted_shapes`: in a tree that the parser accepts these
children are there exactly when the parse has never handed `ast_node_add_child` a
`NULL` for one of them.
-/

namespace PolandOS.PolskiScript

open Logging

/-! ## Shapes -/

/-- The types of the nodes that stand for expressions. -/
def IsExprType (t : ASTNodeType) : Prop :=
  t ∈ [ASTNodeType.binaryOp, .unaryOp, .call, .identifier, .literalInt, .literalFloat,
    .literalString, .literalBool, .literalNull]

instance : DecidablePred IsExprType := fun _ => List.instDecidableMemOfLawfulBEq _ _

/-- The children that `interpreter_eval` reads without a check: two operands, one
operand, one value, a condition with its block, a condition with one block or
two. -/
def NodeShape (n : ASTNode) : Prop :=
  match n.type with
  | .binaryOp => n.children.length = 2
  | .unaryOp | .assign => n.children.length = 1
  | .while => ∃ c b, n.children = [c, b] ∧ IsExprType c.type ∧ b.type = .block
  | .if => ∃ c b rest, n.children = c :: b :: rest ∧ IsExprType c.type ∧ b.type = .block ∧
      ∀ e ∈ rest, e.type = .block
  | _ => True

/-- Every node of the tree has its shape. -/
inductive Shaped : ASTNode → Prop
  | intro {n : ASTNode} : NodeShape n → (∀ c ∈ n.children, Shaped c) → Shaped n

theorem shaped_iff {n : ASTNode} : Shaped n ↔ NodeShape n ∧ ∀ c ∈ n.children, Shaped c := by
  constructor
  · rintro ⟨hshape, hchildren⟩
    exact ⟨hshape, hchildren⟩
  · rintro ⟨hshape, hchildren⟩
    exact ⟨hshape, hchildren⟩

/-- The nodes whose children are all read. -/
def NeedsChildren (t : ASTNodeType) : Prop :=
  t ∈ [ASTNodeType.binaryOp, .unaryOp, .assign, .if, .while]

instance : DecidablePred NeedsChildren := fun _ => List.instDecidableMemOfLawfulBEq _ _

/-- The step leaves out no child that is read: `ast_node_add_child` has not been
handed a `NULL` for such a node. -/
def NoSkip : ParseEvent → Prop
  | .addChild parent child => NeedsChildren parent → child = true
  | _ => True

/-! ## Following a parse -/

variable {α : Type} {pre : Prop} {f : ASTNode → Parse α} {Q good : α → Prop}

/-- A value is good exactly when the parse has left out nothing. -/
abbrev Tracks (pre : Prop) (x : Parse α) (Q good : α → Prop) : Prop :=
  Logged.Tracks NoSkip pre x Q good

/-- A node with a child added, unless it is `NULL`. -/
def ASTNode.add (n : ASTNode) (child : Option ASTNode) : ASTNode :=
  { n with children := n.children ++ child.toList }

@[simp] theorem add_type (n : ASTNode) (c : Option ASTNode) : (n.add c).type = n.type := rfl

@[simp] theorem add_none (n : ASTNode) : n.add none = n := by
  rw [ASTNode.add, Option.toList_none, List.append_nil]
  cases n
  rfl

theorem astNodeAddChild_eq (parent : ASTNode) (child : Option ASTNode) :
    astNodeAddChild parent child =
      ⟨[.addChild parent.type child.isSome], .ok (parent.add child)⟩ := by
  cases child with
  | none =>
      rw [add_none]
      rfl
  | some c => rfl

theorem tracks_addChild {parent : ASTNode} {child : Option ASTNode}
    (hf : Tracks (pre ∧ (NeedsChildren parent.type → child.isSome)) (f (parent.add child)) Q good) :
    Tracks pre (astNodeAddChild parent child >>= f) Q good := by
  refine Logged.tracks_bind (Q := (· = parent.add child))
    (G := fun _ => pre ∧ (NeedsChildren parent.type → child.isSome)) ?_ ?_
  · rw [astNodeAddChild_eq]
    intro n hn
    cases hn
    simp [Logged.All, NoSkip]
  · rintro n rfl
    exact hf

/-- `if (c) ast_node_add_child(node, c)` adds what there is to add. -/
theorem tracks_addPresent {parent : ASTNode} {child : Option ASTNode}
    (hf : Tracks pre (f (parent.add child)) Q good) :
    Tracks pre ((if child.isSome then astNodeAddChild parent child else pure parent) >>= f)
      Q good := by
  cases child with
  | none =>
      rw [add_none] at hf
      exact hf
  | some c =>
      refine tracks_addChild (hf.congr ?_)
      simp

/-- The steps that add no children. -/
theorem silent_advance (fuel : Nat) (p : Parser) : (parserAdvance fuel p).All NoSkip := by
  rw [parserAdvance, Logged.all_bind]
  exact ⟨Logged.all_ofOption _ _, fun _ _ => Logged.all_pure _⟩

theorem silent_advance_if {c : Prop} [Decidable c] (fuel : Nat) (p : Parser) :
    (if c then parserAdvance fuel p else pure p).All NoSkip := by
  split
  · exact silent_advance fuel p
  · exact Logged.all_pure p

theorem silent_expect (fuel : Nat) (p : Parser) (t : TokenType) :
    (parserExpect fuel p t).All NoSkip := by
  unfold parserExpect
  split
  · exact Logged.all_pure _
  · rw [Logged.all_bind]
    exact ⟨silent_advance fuel p, fun _ _ => Logged.all_pure _⟩

theorem silent_intLiteral (cs : List Char) (val : Int64) : (intLiteral cs val).All NoSkip := by
  induction cs generalizing val with
  | nil => exact Logged.all_pure _
  | cons c cs ih =>
      intro e he
      simp only [intLiteral, parseArith, Logged.mem_log_bind, Logged.log_emit, Logged.log_pure] at he
      rcases he with (he | ⟨_, _, he⟩) | ⟨_, _, (he | ⟨_, _, he⟩) | ⟨v, _, he⟩⟩
      · rw [List.mem_singleton.mp he]
        trivial
      · cases he
      · rw [List.mem_singleton.mp he]
        trivial
      · cases he
      · exact ih v e he

/-! ## Trees that may be missing -/

/-- The tree, if there is one, is shaped. -/
def ShapedOpt (node : Option ASTNode) : Prop := ∀ a ∈ node, Shaped a

/-- All children are shaped. -/
def AllShaped (n : ASTNode) : Prop := ∀ c ∈ n.children, Shaped c

/-- The tree, if there is one, is an expression. -/
def IsExpr (node : Option ASTNode) : Prop := ∀ a ∈ node, IsExprType a.type

@[simp] theorem shapedOpt_none : ShapedOpt none := by simp [ShapedOpt]

@[simp] theorem shapedOpt_some {n : ASTNode} : ShapedOpt (some n) ↔ Shaped n := by
  simp [ShapedOpt]

@[simp] theorem isExpr_none : IsExpr none := by simp [IsExpr]

@[simp] theorem isExpr_some {n : ASTNode} : IsExpr (some n) ↔ IsExprType n.type := by
  simp [IsExpr]

@[simp] theorem allShaped_add {n : ASTNode} {c : Option ASTNode} :
    AllShaped (n.add c) ↔ AllShaped n ∧ ShapedOpt c := by
  cases c <;> simp [AllShaped, ASTNode.add, or_imp, forall_and]

/-- A node without children. -/
theorem allShaped_leaf {n : ASTNode} (h : n.children = []) : AllShaped n := by
  simp [AllShaped, h]

/-- A node of which no child is read without a check. -/
theorem shaped_iff_children {n : ASTNode} (h : ¬NeedsChildren n.type) :
    Shaped n ↔ AllShaped n := by
  have hshape : NodeShape n := by
    unfold NodeShape
    cases ht : n.type <;> first | trivial | exact absurd (ht ▸ by decide) h
  rw [shaped_iff]
  exact ⟨fun hn => hn.2, fun hn => ⟨hshape, hn⟩⟩

theorem shaped_leaf {n : ASTNode} (h : n.children = []) (ht : ¬NeedsChildren n.type) :
    Shaped n := (shaped_iff_children ht).mpr (allShaped_leaf h)

variable {n : ASTNode}

theorem shaped_unary (ht : n.type = .unaryOp ∨ n.type = .assign) (hn : n.children = [])
    (operand : Option ASTNode) :
    Shaped (n.add operand) ↔ ShapedOpt operand ∧ operand.isSome := by
  rw [shaped_iff]
  cases operand <;> rcases ht with ht | ht <;> simp [NodeShape, ASTNode.add, ht, hn]

theorem shaped_binary (ht : n.type = .binaryOp) (hn : n.children = [])
    (left right : Option ASTNode) :
    Shaped ((n.add left).add right) ↔
      (ShapedOpt left ∧ ShapedOpt right) ∧ left.isSome ∧ right.isSome := by
  rw [shaped_iff]
  cases left <;> cases right <;> simp [NodeShape, ASTNode.add, ht, hn]

/-! ## Expressions -/

/-- What a parser of expressions has to do. -/
def ExprSpec (parse : NodeParser) : Prop :=
  ∀ p, Tracks True (parse p) (fun r => IsExpr r.1) (fun r => ShapedOpt r.1)

variable {expr sub : NodeParser} {fuel : Nat} {p : Parser} {node : ASTNode}

/-- The arguments are added to the node one by one. -/
theorem arguments_spec (hexpr : ExprSpec expr) :
    Tracks (AllShaped node) (parseArguments expr fuel node p) (fun r => r.1.type = node.type)
      (fun r => AllShaped r.1) := by
  induction fuel generalizing node p with
  | zero => exact Logged.tracks_stop _
  | succ fuel ih =>
      rw [parseArguments]
      refine Logged.tracks_silent (silent_advance_if fuel p) fun p₁ => ?_
      refine Logged.tracks_frame (hexpr p₁) ?_
      rintro ⟨arg, p₂⟩ -
      refine tracks_addPresent ?_
      refine Logged.tracks_ite (fun _ => ?_) fun _ => ?_
      · exact ih.congr allShaped_add
      · exact Logged.tracks_pure rfl allShaped_add

theorem argumentList_spec (hexpr : ExprSpec expr) :
    Tracks (AllShaped node) (parseArgumentList expr fuel node p) (fun r => r.1.type = node.type)
      (fun r => AllShaped r.1) := by
  rw [parseArgumentList]
  refine Logged.tracks_bind (Q := fun r => r.1.type = node.type) (G := fun r => AllShaped r.1)
    (Logged.tracks_ite (fun _ => arguments_spec hexpr) fun _ => Logged.tracks_pure rfl Iff.rfl) ?_
  rintro ⟨n, p₁⟩ htype
  refine Logged.tracks_silent (silent_expect _ _ _) ?_
  rintro ⟨_, p₂⟩
  exact Logged.tracks_pure htype Iff.rfl

theorem literal_spec (htype : IsExprType n.type) (hshaped : Shaped n) :
    Tracks True (parseLiteral fuel n p) (fun r => IsExpr r.1) (fun r => ShapedOpt r.1) := by
  rw [parseLiteral]
  refine Logged.tracks_silent (silent_advance _ _) fun p₁ => ?_
  exact Logged.tracks_pure (isExpr_some.mpr htype) (by simp [hshaped])

theorem number_spec : ExprSpec (parseNumber fuel) := by
  intro p
  rw [parseNumber]
  refine Logged.tracks_bind (Q := fun n => IsExprType n.type ∧ Shaped n) (G := fun _ => True)
    ?_ ?_
  · refine Logged.tracks_ite (fun _ => ?_) fun _ => ?_
    · refine Logged.tracks_pure ⟨?_, shaped_leaf rfl ?_⟩ Iff.rfl
      · exact (by decide : IsExprType .literalFloat)
      · exact (by decide : ¬NeedsChildren .literalFloat)
    · refine Logged.tracks_silent (Logged.all_emit.mpr trivial) fun _ => ?_
      refine Logged.tracks_silent (silent_intLiteral _ _) fun val => ?_
      refine Logged.tracks_pure ⟨?_, shaped_leaf rfl ?_⟩ Iff.rfl
      · exact (by decide : IsExprType .literalInt)
      · exact (by decide : ¬NeedsChildren .literalInt)
  · rintro n ⟨htype, hshaped⟩
    exact literal_spec htype hshaped

/-- A name, or a call with its arguments. -/
theorem name_spec (hexpr : ExprSpec expr) : ExprSpec (parseName expr fuel) := by
  intro p
  rw [parseName]
  have hname : Shaped { astNodeCreate .identifier with strValue := p.currentToken.value } :=
    shaped_leaf rfl (by exact (by decide : ¬NeedsChildren .identifier))
  refine Logged.tracks_silent (silent_advance _ _) fun p₁ => ?_
  refine Logged.tracks_ite (fun _ => ?_) fun _ => ?_
  · refine tracks_addChild ?_
    refine Logged.tracks_silent (silent_advance _ _) fun p₂ => ?_
    refine Logged.tracks_bind ((argumentList_spec hexpr).congr ?_) ?_
    · rw [allShaped_add, shapedOpt_some]
      simp only [hname, allShaped_leaf (n := astNodeCreate .call) rfl, Option.isSome_some,
        implies_true, and_true]
    · rintro ⟨call, p₃⟩ htype
      refine Logged.tracks_pure ?_ ?_
      · rw [isExpr_some, htype]
        exact (by decide : IsExprType .call)
      · rw [shapedOpt_some, shaped_iff_children]
        rw [htype]
        exact (by decide : ¬NeedsChildren .call)
  · refine Logged.tracks_pure ?_ (by simp [hname])
    exact isExpr_some.mpr (by decide : IsExprType .identifier)

theorem primary_spec (hexpr : ExprSpec expr) : ExprSpec (parsePrimary expr fuel) := by
  intro p
  unfold parsePrimary
  split
  · exact number_spec p
  · exact literal_spec (by exact (by decide : IsExprType .literalString))
      (shaped_leaf rfl (by exact (by decide : ¬NeedsChildren .literalString)))
  · exact literal_spec (by exact (by decide : IsExprType .literalBool))
      (shaped_leaf rfl (by exact (by decide : ¬NeedsChildren .literalBool)))
  · exact literal_spec (by exact (by decide : IsExprType .literalBool))
      (shaped_leaf rfl (by exact (by decide : ¬NeedsChildren .literalBool)))
  · exact literal_spec (by exact (by decide : IsExprType .literalNull))
      (shaped_leaf rfl (by exact (by decide : ¬NeedsChildren .literalNull)))
  · exact name_spec hexpr p
  · refine Logged.tracks_silent (silent_advance _ _) fun p₁ => ?_
    refine Logged.tracks_bind (hexpr p₁) ?_
    rintro ⟨node, p₂⟩ htype
    refine Logged.tracks_silent (silent_expect _ _ _) ?_
    rintro ⟨_, p₃⟩
    exact Logged.tracks_pure htype Iff.rfl
  · exact Logged.tracks_pure isExpr_none (by simp)

theorem unary_spec (hexpr : ExprSpec expr) : ExprSpec (parseUnary expr fuel) := by
  intro p
  induction fuel generalizing p with
  | zero => exact Logged.tracks_stop _
  | succ fuel ih =>
      rw [parseUnary]
      refine Logged.tracks_ite (fun _ => ?_) fun _ => primary_spec hexpr p
      refine Logged.tracks_silent (silent_advance _ _) fun p₁ => ?_
      refine Logged.tracks_bind (ih p₁) ?_
      rintro ⟨operand, p₂⟩ -
      refine tracks_addChild ?_
      refine Logged.tracks_pure ?_ ?_
      · exact isExpr_some.mpr (by decide : IsExprType .unaryOp)
      · rw [shapedOpt_some, shaped_unary (.inl rfl) rfl]
        simp [astNodeCreate, NeedsChildren]

/-- A level of binary operators passes on what the level below returns, or builds
nodes from it. -/
theorem binaryLoop_spec {ops : List TokenType} (hsub : ExprSpec sub) {left : Option ASTNode}
    (hleft : IsExpr left) :
    Tracks (ShapedOpt left) (binaryLoop ops sub fuel left p) (fun r => IsExpr r.1)
      (fun r => ShapedOpt r.1) := by
  induction fuel generalizing left p with
  | zero => exact Logged.tracks_stop _
  | succ fuel ih =>
      rw [binaryLoop]
      refine Logged.tracks_ite (fun _ => ?_) fun _ => Logged.tracks_pure hleft Iff.rfl
      refine Logged.tracks_silent (silent_advance _ _) fun p₁ => ?_
      refine Logged.tracks_frame (hsub p₁) ?_
      rintro ⟨right, p₂⟩ -
      refine tracks_addChild (tracks_addChild ?_)
      refine (ih (isExpr_some.mpr ?_)).congr ?_
      · exact (by decide : IsExprType .binaryOp)
      · rw [shapedOpt_some, shaped_binary rfl rfl]
        simp [astNodeCreate, NeedsChildren, and_assoc]

theorem binaryLevel_spec {ops : List TokenType} (hsub : ExprSpec sub) :
    ExprSpec (binaryLevel ops sub fuel) := by
  intro p
  rw [binaryLevel]
  refine Logged.tracks_bind (hsub p) ?_
  rintro ⟨left, p₁⟩ hleft
  exact binaryLoop_spec hsub hleft

theorem expression_spec : ExprSpec (parseExpression fuel) := by
  induction fuel with
  | zero => exact fun p => Logged.tracks_stop _
  | succ fuel ih =>
      exact binaryLevel_spec (binaryLevel_spec (binaryLevel_spec (binaryLevel_spec
        (unary_spec ih))))

/-! ## Statements -/

/-- What a parser of statements has to do. -/
def StmtSpec (parse : NodeParser) : Prop :=
  ∀ p, Tracks True (parse p) (fun _ => True) (fun r => ShapedOpt r.1)

theorem silent_emit {e : ParseEvent} (h : NoSkip e) :
    (Logged.emit e : Parse Unit).All NoSkip := Logged.all_emit.mpr h

/-- `parser_expect` and a value: the end of most statements. -/
theorem tracks_expect {t : TokenType} {node : Option ASTNode}
    (h : ShapedOpt node ↔ pre) :
    Tracks pre (parserExpect fuel p t >>= fun r => pure (node, r.2)) (fun _ => True)
      (fun r => ShapedOpt r.1) :=
  Logged.tracks_silent (silent_expect _ _ _) fun _ => Logged.tracks_pure trivial h

theorem varDecl_spec : StmtSpec (parseVarDecl fuel) := by
  intro p
  rw [parseVarDecl]
  refine Logged.tracks_silent (silent_advance _ _) fun p₁ => ?_
  refine Logged.tracks_ite (fun _ => Logged.tracks_pure trivial (by simp)) fun _ => ?_
  refine Logged.tracks_silent (silent_advance _ _) fun p₂ => ?_
  refine Logged.tracks_bind (Q := fun r => r.1.type = .varDecl) (G := fun r => AllShaped r.1)
    ?_ ?_
  · refine Logged.tracks_ite (fun _ => ?_) fun _ => ?_
    · refine Logged.tracks_silent (silent_advance _ _) fun p₃ => ?_
      refine Logged.tracks_frame (expression_spec p₃) ?_
      rintro ⟨value, p₄⟩ -
      refine tracks_addChild (Logged.tracks_pure rfl ?_)
      rw [allShaped_add]
      simp [allShaped_leaf, astNodeCreate, NeedsChildren]
    · exact Logged.tracks_pure rfl (by simp [allShaped_leaf, astNodeCreate])
  · rintro ⟨n, p₃⟩ htype
    refine tracks_expect ?_
    rw [shapedOpt_some, shaped_iff_children]
    rw [htype]
    exact (by decide : ¬NeedsChildren .varDecl)

theorem print_spec : StmtSpec (parsePrint fuel) := by
  intro p
  rw [parsePrint]
  refine Logged.tracks_silent (silent_advance _ _) fun p₁ => ?_
  refine Logged.tracks_silent (silent_expect _ _ _) ?_
  rintro ⟨_, p₂⟩
  refine Logged.tracks_bind ((argumentList_spec expression_spec).congr ?_) ?_
  · simp [allShaped_leaf, astNodeCreate]
  · rintro ⟨n, p₃⟩ htype
    refine tracks_expect ?_
    rw [shapedOpt_some, shaped_iff_children]
    rw [htype]
    exact (by decide : ¬NeedsChildren .print)

theorem return_spec : StmtSpec (parseReturn fuel) := by
  intro p
  rw [parseReturn]
  refine Logged.tracks_silent (silent_advance _ _) fun p₁ => ?_
  refine Logged.tracks_bind (Q := fun r => r.1.type = .return) (G := fun r => AllShaped r.1)
    ?_ ?_
  · refine Logged.tracks_ite (fun _ => ?_) fun _ => ?_
    · refine Logged.tracks_bind (expression_spec p₁) ?_
      rintro ⟨value, p₂⟩ -
      refine tracks_addChild (Logged.tracks_pure rfl ?_)
      rw [allShaped_add]
      simp [allShaped_leaf, astNodeCreate, NeedsChildren]
    · exact Logged.tracks_pure rfl (by simp [allShaped_leaf, astNodeCreate])
  · rintro ⟨n, p₂⟩ htype
    refine tracks_expect ?_
    rw [shapedOpt_some, shaped_iff_children]
    rw [htype]
    exact (by decide : ¬NeedsChildren .return)

theorem jump_spec {type : ASTNodeType} (h : ¬NeedsChildren type) :
    StmtSpec (parseJump fuel type) := by
  intro p
  rw [parseJump]
  refine Logged.tracks_silent (silent_advance _ _) fun p₁ => ?_
  refine tracks_expect ?_
  simp [shaped_leaf (n := astNodeCreate type) rfl h]

theorem simple_spec : StmtSpec (parseSimple fuel) := by
  intro p
  rw [parseSimple]
  refine Logged.tracks_silent (silent_advance _ _) fun p₁ => ?_
  refine Logged.tracks_ite (fun _ => ?_) fun _ => ?_
  · refine Logged.tracks_silent (silent_advance _ _) fun p₂ => ?_
    refine Logged.tracks_bind (expression_spec p₂) ?_
    rintro ⟨value, p₃⟩ -
    refine tracks_addChild (tracks_expect ?_)
    rw [shapedOpt_some, shaped_unary (.inr rfl) rfl]
    simp [astNodeCreate, NeedsChildren]
  · refine Logged.tracks_silent (silent_advance _ _) fun p₂ => ?_
    refine Logged.tracks_bind (expression_spec p₂) ?_
    rintro ⟨value, p₃⟩ -
    exact tracks_expect Iff.rfl

variable {stmt : NodeParser} {block : ASTNode}

theorem blockLoop_spec (hstmt : StmtSpec stmt) :
    Tracks (AllShaped block) (blockLoop stmt fuel block p) (fun r => r.1.type = block.type)
      (fun r => AllShaped r.1) := by
  induction fuel generalizing block p with
  | zero => exact Logged.tracks_stop _
  | succ fuel ih =>
      rw [blockLoop]
      refine Logged.tracks_ite (fun _ => ?_) fun _ => Logged.tracks_pure rfl Iff.rfl
      refine Logged.tracks_silent (silent_emit trivial) fun _ => ?_
      refine Logged.tracks_frame (hstmt p) ?_
      rintro ⟨s, p'⟩ -
      refine tracks_addPresent ?_
      refine Logged.tracks_silent (silent_emit trivial) fun _ => ?_
      refine Logged.tracks_ite (fun _ => ?_) fun _ => ?_
      · exact Logged.tracks_pure rfl allShaped_add
      · exact ih.congr allShaped_add

theorem block_spec (hstmt : StmtSpec stmt) :
    Tracks True (parseBlock stmt fuel p) (fun r => r.1.type = .block) (fun r => Shaped r.1) := by
  rw [parseBlock]
  refine Logged.tracks_silent (silent_expect _ _ _) ?_
  rintro ⟨_, p₁⟩
  refine Logged.tracks_bind ((blockLoop_spec hstmt).congr ?_) ?_
  · simp [allShaped_leaf, astNodeCreate]
  · rintro ⟨n, p₂⟩ htype
    refine Logged.tracks_silent (silent_expect _ _ _) ?_
    rintro ⟨_, p₃⟩
    refine Logged.tracks_pure htype (shaped_iff_children ?_)
    rw [htype]
    exact (by decide : ¬NeedsChildren .block)

/-- A conditional node: its condition, if there is one, and its block. -/
def Conditional (type : ASTNodeType) (n : ASTNode) : Prop :=
  ∃ cond b, n = ((astNodeCreate type).add cond).add (some b) ∧ IsExpr cond ∧ b.type = .block

theorem conditional_spec {type : ASTNodeType} (hstmt : StmtSpec stmt)
    (htype : NeedsChildren type) :
    Tracks True (parseConditional stmt fuel type p) (fun r => Conditional type r.1)
      (fun r => r.1.children.length = 2 ∧ AllShaped r.1) := by
  rw [parseConditional]
  refine Logged.tracks_silent (silent_advance _ _) fun p₁ => ?_
  refine Logged.tracks_silent (silent_expect _ _ _) ?_
  rintro ⟨_, p₂⟩
  refine Logged.tracks_bind (expression_spec p₂) ?_
  rintro ⟨cond, p₃⟩ hcond
  refine Logged.tracks_silent (silent_expect _ _ _) ?_
  rintro ⟨_, p₄⟩
  refine Logged.tracks_frame (block_spec hstmt) ?_
  rintro ⟨b, p₅⟩ hb
  refine tracks_addChild (tracks_addChild (Logged.tracks_pure ⟨cond, b, rfl, hcond, hb⟩ ?_))
  rw [allShaped_add, allShaped_add, shapedOpt_some]
  cases cond <;>
    simp [ASTNode.add, astNodeCreate, htype, allShaped_leaf]

theorem shaped_while (hn : Conditional .while node) :
    Shaped node ↔ node.children.length = 2 ∧ AllShaped node := by
  rcases hn with ⟨cond, b, rfl, hcond, hb⟩
  rw [shaped_iff]
  refine and_congr_left fun _ => ?_
  cases cond with
  | none => simp [NodeShape, ASTNode.add, astNodeCreate]
  | some c => simp [NodeShape, ASTNode.add, astNodeCreate, isExpr_some.mp hcond, hb]

/-- Without its condition, the node has a block in its place. -/
theorem shaped_if (hn : Conditional .if node) {e : Option ASTNode}
    (he : ∀ b ∈ e, b.type = .block) :
    Shaped (node.add e) ↔ (node.children.length = 2 ∧ AllShaped node) ∧ ShapedOpt e := by
  rcases hn with ⟨cond, b, rfl, hcond, hb⟩
  rw [shaped_iff, ← AllShaped, allShaped_add, and_assoc]
  refine and_congr_left fun _ => ?_
  have hblock : ¬IsExprType .block := by decide
  cases cond with
  | none =>
      cases e <;> simp [NodeShape, ASTNode.add, astNodeCreate, hb, hblock]
  | some c =>
      cases e with
      | none => simp [NodeShape, ASTNode.add, astNodeCreate, isExpr_some.mp hcond, hb]
      | some b' =>
          simp [NodeShape, ASTNode.add, astNodeCreate, isExpr_some.mp hcond, hb, he b' rfl]

theorem if_spec (hstmt : StmtSpec stmt) : StmtSpec (parseIf stmt fuel) := by
  intro p
  rw [parseIf]
  refine Logged.tracks_bind (conditional_spec hstmt (by decide)) ?_
  rintro ⟨n, p₁⟩ hn
  refine Logged.tracks_ite (fun _ => ?_) fun _ => ?_
  · refine Logged.tracks_silent (silent_advance _ _) fun p₂ => ?_
    refine Logged.tracks_frame (block_spec hstmt) ?_
    rintro ⟨e, p₃⟩ he
    refine tracks_addChild (Logged.tracks_pure trivial ?_)
    rw [shapedOpt_some, shaped_if hn (by simpa using he)]
    simp
  · refine Logged.tracks_pure trivial ?_
    have hshaped := shaped_if hn (e := none) (by simp)
    rw [add_none] at hshaped
    rw [shapedOpt_some, hshaped]
    simp

theorem while_spec (hstmt : StmtSpec stmt) : StmtSpec (parseWhile stmt fuel) := by
  intro p
  rw [parseWhile]
  refine Logged.tracks_bind (conditional_spec hstmt (by decide)) ?_
  rintro ⟨n, p₁⟩ hn
  exact Logged.tracks_pure trivial (by rw [shapedOpt_some, shaped_while hn])

theorem statement_spec : StmtSpec (parseStatement fuel) := by
  induction fuel with
  | zero => exact fun p => Logged.tracks_stop _
  | succ fuel ih =>
      intro p
      rw [parseStatement]
      unfold parseStatementWith
      split
      · exact varDecl_spec p
      · exact print_spec p
      · exact if_spec ih p
      · exact while_spec ih p
      · exact return_spec p
      · exact jump_spec (by decide) p
      · exact jump_spec (by decide) p
      · exact simple_spec p
      · refine Logged.tracks_bind (block_spec ih) ?_
        rintro ⟨b, p₁⟩ -
        exact Logged.tracks_pure trivial (by rw [shapedOpt_some])
      · exact Logged.tracks_pure trivial (by simp)

/-! ## Programs -/

/-- Where the program loop returns a tree, no round has failed; and the tree tells
what the log has left out. -/
theorem programLoop_shaped {program tree : ASTNode} {q : Parser}
    (hprogram : ¬NeedsChildren program.type) (hp : p.hasError = false)
    (h : (programLoop fuel program p).result = .ok (some tree, q)) :
    q.hasError = false ∧
      (Shaped tree ↔ Shaped program ∧ (programLoop fuel program p).All NoSkip) := by
  induction fuel generalizing program p with
  | zero => cases h
  | succ fuel ih =>
      rw [programLoop] at h ⊢
      split at h
      case isFalse hend =>
        rw [if_neg hend]
        cases h
        exact ⟨hp, by simp⟩
      case isTrue hend =>
        rw [if_pos hend]
        rcases Logged.result_bind.mp h with ⟨_, -, h⟩
        rcases Logged.result_bind.mp h with ⟨⟨s, p'⟩, hs, h⟩
        rcases Logged.result_bind.mp h with ⟨program', hadd, h⟩
        rcases Logged.result_bind.mp h with ⟨_, -, h⟩
        have hprogram' : program' = program.add s := by
          cases s with
          | none =>
              cases hadd
              exact (add_none program).symm
          | some c =>
              cases hadd
              rfl
        subst hprogram'
        -- a round that fails returns no tree
        have hp' : p'.hasError = false := by
          by_contra herr
          rw [if_pos (by simpa using herr)] at h
          cases h
        have hgo : ¬p'.hasError = true := by simp [hp']
        rw [if_neg hgo] at h
        have hadded : ¬NeedsChildren (program.add s).type := hprogram
        have hloop := ih hadded hp' h
        refine ⟨hloop.1, ?_⟩
        -- what the tree says is what the round says and what the other rounds say
        have hround : ShapedOpt s ↔ (parseStatement fuel p).All NoSkip := by
          simpa using (statement_spec p _ hs).2
        rw [hloop.2, shaped_iff_children (n := program.add s) hprogram, allShaped_add,
          ← shaped_iff_children hprogram, hround, and_assoc]
        refine and_congr_right fun _ => ?_
        rw [Logged.all_bind_of_ok (a := ()) rfl, Logged.all_bind_of_ok hs,
          Logged.all_bind_of_ok hadd, Logged.all_bind_of_ok (a := ()) rfl, if_neg hgo]
        have hadded : (if s.isSome then astNodeAddChild program s else pure program).All NoSkip := by
          cases s with
          | none => exact Logged.all_pure _
          | some c =>
              rw [if_pos Option.isSome_some, astNodeAddChild_eq]
              simp [Logged.All, NoSkip]
        simp [hadded, NoSkip]

/-- A tree that the parser accepts is shaped exactly when `ast_node_add_child` has
never been handed a `NULL` for a child that is read. -/
theorem parseSource_shaped {source : Nat → Char} {tree : ASTNode} {q : Parser}
    (h : (parseSource fuel source).result = .ok (some tree, q)) :
    q.hasError = false ∧ (Shaped tree ↔ (parseSource fuel source).All NoSkip) := by
  rw [parseSource] at h ⊢
  rcases Logged.result_bind.mp h with ⟨p, hinit, h⟩
  have hp : p.hasError = false := by
    rw [parserInit] at hinit
    rcases Logged.result_bind.mp hinit with ⟨⟨tok, lex⟩, -, hinit⟩
    cases hinit
    rfl
  have hsilent : (parserInit fuel (lexerInit source)).All NoSkip := by
    rw [parserInit, Logged.all_bind]
    exact ⟨Logged.all_ofOption _ _, fun _ _ => Logged.all_pure _⟩
  have hprogram : ¬NeedsChildren (astNodeCreate .program).type := by
    exact (by decide : ¬NeedsChildren .program)
  rcases programLoop_shaped hprogram hp h with ⟨hq, hshaped⟩
  refine ⟨hq, ?_⟩
  rw [hshaped, Logged.all_bind_of_ok hinit, parseProgram]
  simp [hsilent, shaped_leaf (n := astNodeCreate .program) rfl hprogram]

end PolandOS.PolskiScript
