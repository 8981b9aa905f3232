import PolandOS.Lib.Traces
import PolandOS.Lang.Parser

/-! # Invariants of the parser

What `parser_advance` keeps, every function of the parser keeps: none of them moves the
lexer in another way, apart from the backtrack of `parser_parse_statement`.
`parseSource_keeps`: an invariant holds at the head of every round of a statement loop
and at the end of the parse.
-/

namespace PolandOS.PolskiScript

open Logging

/-- The statement begins with an identifier that no `=` follows. -/
def Backtracks (p : Parser) : Prop :=
  p.currentToken.type = .identyfikator ∧
    ∃ fuel tok lex, lexerNextToken fuel p.lexer = some (tok, lex) ∧ tok.type ≠ .przypisanie

/-- `I` is kept by the steps of the parser, where statements begin with `P` only. -/
structure ParserInvariant (P I : Parser → Prop) : Prop where
  advance : ∀ {fuel : Nat} {p : Parser} {tok : Token} {lex : Lexer}, I p →
    lexerNextToken fuel p.lexer = some (tok, lex) → I { p with lexer := lex, currentToken := tok }
  error : ∀ {p : Parser} (text : String) (flag : Bool), I p →
    I { p with error := text, hasError := flag }
  backtrack : ∀ {fuel : Nat} {p q : Parser} {tok : Token} {lex : Lexer}, I p → P p →
    Backtracks p → I q →
    lexerNextToken fuel (backtrack q.lexer p.currentToken) = some (tok, lex) →
    I { q with lexer := lex, currentToken := tok }

/-- The heads of the statement loops. -/
def AtHeads (P : Parser → Prop) : ParseEvent → Prop
  | .loopHead p => P p
  | _ => True

variable {α β : Type} {P I : Parser → Prop}

/-- Where the heads satisfy `P`, they satisfy `I`, and `post` holds at the end. -/
abbrev Keeps (P I : Parser → Prop) (x : Parse α) (post : α → Prop) : Prop :=
  Logging.Under (AtHeads P) (AtHeads I) x post

variable {x : Parse α} {f : α → Parse β} {M : α → Prop} {post : β → Prop}

theorem keeps_bind (hx : Keeps P I x M) (hf : ∀ a, M a → Keeps P I (f a) post) :
    Keeps P I (x >>= f) post := follows_bind hx fun a _ ha => hf a ha

theorem keeps_pure {a : α} (h : M a) : Keeps P I (pure a) M := follows_pure h

/-- An event that is no head. -/
theorem keeps_emit {e : ParseEvent} {f : Unit → Parse β} (he : AtHeads I e)
    (hf : Keeps P I (f ()) post) : Keeps P I (Logged.emit e >>= f) post :=
  follows_emit (fun _ => he) fun _ => hf

section Rule

variable (hI : ParserInvariant P I)
include hI

variable {fuel : Nat} {p : Parser} {node : ASTNode} {expr sub stmt : NodeParser}

theorem keeps_advance (h : I p) : Keeps P I (parserAdvance fuel p) I := by
  refine keeps_bind (M := fun r => lexerNextToken fuel p.lexer = some r) ?_ ?_
  · exact follows_ofOption fun r hr => hr
  · intro r hr
    exact keeps_pure (hI.advance h hr)

theorem keeps_expect {t : TokenType} (h : I p) :
    Keeps P I (parserExpect fuel p t) fun r => I r.2 := by
  unfold parserExpect
  refine follows_ite (fun _ => keeps_pure (hI.error _ _ h)) fun _ => ?_
  exact keeps_bind (keeps_advance hI h) fun p₁ h₁ => keeps_pure h₁

omit hI in
theorem keeps_addChild (parent : ASTNode) (child : Option ASTNode) :
    Keeps P I (astNodeAddChild parent child) fun _ => True := by
  refine keeps_emit trivial ?_
  cases child with
  | none => exact keeps_pure trivial
  | some c => exact keeps_pure trivial

omit hI in
theorem keeps_addPresent (parent : ASTNode) (child : Option ASTNode) :
    Keeps P I (if child.isSome then astNodeAddChild parent child else pure parent)
      fun _ => True :=
  follows_ite (fun _ => keeps_addChild _ _) fun _ => keeps_pure trivial

omit hI in
theorem keeps_intLiteral (cs : List Char) (val : Int64) :
    Keeps P I (intLiteral cs val) fun _ => True := by
  induction cs generalizing val with
  | nil => exact keeps_pure trivial
  | cons c cs ih =>
      refine keeps_bind (M := fun _ => True) (keeps_emit trivial (keeps_pure trivial)) fun _ _ => ?_
      refine keeps_bind (M := fun _ => True) (keeps_emit trivial (keeps_pure trivial)) fun v _ => ?_
      exact ih v

/-! ## Expressions -/

/-- What holds of a parser of expressions. -/
def KeepingParser (P I : Parser → Prop) (parse : NodeParser) : Prop :=
  ∀ p, I p → Keeps P I (parse p) fun r => I r.2

theorem keeps_literal (h : I p) : Keeps P I (parseLiteral fuel node p) fun r => I r.2 :=
  keeps_bind (keeps_advance hI h) fun _ h₁ => keeps_pure h₁

theorem keeps_number (h : I p) : Keeps P I (parseNumber fuel p) fun r => I r.2 := by
  refine keeps_bind (M := fun _ => True) ?_ fun n _ => keeps_literal hI h
  refine follows_ite (fun _ => keeps_pure trivial) fun _ => ?_
  refine keeps_emit trivial ?_
  exact keeps_bind (keeps_intLiteral _ _) fun _ _ => keeps_pure trivial

theorem keeps_arguments (hexpr : KeepingParser P I expr) (h : I p) :
    Keeps P I (parseArguments expr fuel node p) fun r => I r.2 := by
  induction fuel generalizing node p with
  | zero => exact follows_stop _
  | succ fuel ih =>
      rw [parseArguments]
      refine keeps_bind (M := I) (follows_ite (fun _ => keeps_advance hI h)
        fun _ => keeps_pure h) fun p₁ h₁ => ?_
      refine keeps_bind (hexpr p₁ h₁) fun r hr => ?_
      refine keeps_bind (keeps_addPresent _ _) fun n _ => ?_
      exact follows_ite (fun _ => ih hr) fun _ => keeps_pure hr

theorem keeps_argumentList (hexpr : KeepingParser P I expr) (h : I p) :
    Keeps P I (parseArgumentList expr fuel node p) fun r => I r.2 := by
  rw [parseArgumentList]
  refine keeps_bind (M := fun r => I r.2) (follows_ite
    (fun _ => keeps_arguments hI hexpr h) fun _ => keeps_pure h) fun r hr => ?_
  exact keeps_bind (keeps_expect hI hr) fun r₁ h₁ => keeps_pure h₁

theorem keeps_primary (hexpr : KeepingParser P I expr) :
    KeepingParser P I (parsePrimary expr fuel) := by
  intro p h
  unfold parsePrimary
  split
  case h_1 => exact keeps_number hI h
  case h_6 =>
    refine keeps_bind (keeps_advance hI h) fun p₁ h₁ => ?_
    refine follows_ite (fun _ => ?_) fun _ => keeps_pure h₁
    refine keeps_bind (keeps_addChild _ _) fun call _ => ?_
    refine keeps_bind (keeps_advance hI h₁) fun p₂ h₂ => ?_
    exact keeps_bind (keeps_argumentList hI hexpr h₂) fun r hr => keeps_pure hr
  case h_7 =>
    refine keeps_bind (keeps_advance hI h) fun p₁ h₁ => ?_
    refine keeps_bind (hexpr p₁ h₁) fun r hr => ?_
    exact keeps_bind (keeps_expect hI hr) fun r₁ h₁ => keeps_pure h₁
  case h_8 => exact keeps_pure h
  all_goals exact keeps_literal hI h

theorem keeps_unary (hexpr : KeepingParser P I expr) :
    KeepingParser P I (parseUnary expr fuel) := by
  intro p h
  induction fuel generalizing p with
  | zero => exact follows_stop _
  | succ fuel ih =>
      rw [parseUnary]
      refine follows_ite (fun _ => ?_) fun _ => keeps_primary hI hexpr p h
      refine keeps_bind (keeps_advance hI h) fun p₁ h₁ => ?_
      refine keeps_bind (ih p₁ h₁) fun r hr => ?_
      exact keeps_bind (keeps_addChild _ _) fun n _ => keeps_pure hr

theorem keeps_binaryLoop {ops : List TokenType} (hsub : KeepingParser P I sub)
    {left : Option ASTNode} (h : I p) :
    Keeps P I (binaryLoop ops sub fuel left p) fun r => I r.2 := by
  induction fuel generalizing left p with
  | zero => exact follows_stop _
  | succ fuel ih =>
      rw [binaryLoop]
      refine follows_ite (fun _ => ?_) fun _ => keeps_pure h
      refine keeps_bind (keeps_advance hI h) fun p₁ h₁ => ?_
      refine keeps_bind (hsub p₁ h₁) fun r hr => ?_
      refine keeps_bind (keeps_addChild _ _) fun n _ => ?_
      exact keeps_bind (keeps_addChild _ _) fun n' _ => ih hr

theorem keeps_binaryLevel {ops : List TokenType} (hsub : KeepingParser P I sub) :
    KeepingParser P I (binaryLevel ops sub fuel) := fun p h =>
  keeps_bind (hsub p h) fun _ hr => keeps_binaryLoop hI hsub hr

theorem keeps_expression : KeepingParser P I (parseExpression fuel) := by
  induction fuel with
  | zero => exact fun _ _ => follows_stop _
  | succ fuel ih =>
      have hfactor : KeepingParser P I (parseFactor (parseExpression fuel) fuel) :=
        keeps_binaryLevel hI (keeps_unary hI ih)
      have hterm : KeepingParser P I (parseTerm (parseExpression fuel) fuel) :=
        keeps_binaryLevel hI hfactor
      have hcomparison : KeepingParser P I (parseComparison (parseExpression fuel) fuel) :=
        keeps_binaryLevel hI hterm
      exact keeps_binaryLevel hI hcomparison

/-! ## Statements -/

/-- What holds of a parser of statements, at a head with `P`. -/
def KeepingStmt (P I : Parser → Prop) (parse : NodeParser) : Prop :=
  ∀ p, I p → P p → Keeps P I (parse p) fun r => I r.2

/-- `parser_expect` at the end of a construct. -/
theorem keeps_last {γ : Type} {a : γ} {t : TokenType} (h : I p) :
    Keeps P I (parserExpect fuel p t >>= fun r => pure (a, r.2)) fun r => I r.2 :=
  keeps_bind (keeps_expect hI h) fun _ hr => keeps_pure hr

theorem keeps_varDecl (h : I p) : Keeps P I (parseVarDecl fuel p) fun r => I r.2 := by
  refine keeps_bind (keeps_advance hI h) fun p₁ h₁ => ?_
  refine follows_ite (fun _ => keeps_pure (hI.error _ _ h₁)) fun _ => ?_
  refine keeps_bind (keeps_advance hI h₁) fun p₂ h₂ => ?_
  refine keeps_bind (M := fun r => I r.2) (follows_ite (fun _ => ?_)
    fun _ => keeps_pure h₂) fun r hr => keeps_last hI hr
  refine keeps_bind (keeps_advance hI h₂) fun p₃ h₃ => ?_
  refine keeps_bind (keeps_expression hI p₃ h₃) fun r hr => ?_
  exact keeps_bind (keeps_addChild _ _) fun n _ => keeps_pure hr

theorem keeps_print (h : I p) : Keeps P I (parsePrint fuel p) fun r => I r.2 := by
  refine keeps_bind (keeps_advance hI h) fun p₁ h₁ => ?_
  refine keeps_bind (keeps_expect hI h₁) fun r₂ h₂ => ?_
  refine keeps_bind (keeps_argumentList hI (keeps_expression hI) h₂) fun r hr => ?_
  exact keeps_last hI hr

theorem keeps_return (h : I p) : Keeps P I (parseReturn fuel p) fun r => I r.2 := by
  refine keeps_bind (keeps_advance hI h) fun p₁ h₁ => ?_
  refine keeps_bind (M := fun r => I r.2) (follows_ite (fun _ => ?_)
    fun _ => keeps_pure h₁) fun r hr => keeps_last hI hr
  refine keeps_bind (keeps_expression hI p₁ h₁) fun r hr => ?_
  exact keeps_bind (keeps_addChild _ _) fun n _ => keeps_pure hr

theorem keeps_jump {type : ASTNodeType} (h : I p) :
    Keeps P I (parseJump fuel type p) fun r => I r.2 :=
  keeps_bind (keeps_advance hI h) fun _ h₁ => keeps_last hI h₁

/-- The one place where the lexer is moved otherwise. -/
theorem keeps_simple (h : I p) (hP : P p) (hid : p.currentToken.type = .identyfikator) :
    Keeps P I (parseSimple fuel p) fun r => I r.2 := by
  have hadvance : Keeps P I (parserAdvance fuel p) fun q =>
      I q ∧ (q.currentToken.type ≠ .przypisanie → Backtracks p) := by
    refine keeps_bind (M := fun r => lexerNextToken fuel p.lexer = some r) ?_ ?_
    · exact follows_ofOption fun r hr => hr
    · intro r hr
      exact keeps_pure ⟨hI.advance h hr, fun hne => ⟨hid, fuel, r.1, r.2, hr, hne⟩⟩
  refine keeps_bind hadvance ?_
  rintro p₁ ⟨h₁, hback⟩
  refine follows_ite (fun _ => ?_) fun hne => ?_
  · refine keeps_bind (keeps_advance hI h₁) fun p₂ h₂ => ?_
    refine keeps_bind (keeps_expression hI p₂ h₂) fun r hr => ?_
    exact keeps_bind (keeps_addChild _ _) fun n _ => keeps_last hI hr
  · refine keeps_bind (M := I) ?_ fun p₂ h₂ => ?_
    · refine keeps_bind (M := fun r =>
        lexerNextToken fuel (backtrack p₁.lexer p.currentToken) = some r) ?_ ?_
      · exact follows_ofOption fun r hr => hr
      · intro r hr
        exact keeps_pure (hI.backtrack (q := p₁) h hP (hback hne) h₁ hr)
    · exact keeps_bind (keeps_expression hI p₂ h₂) fun r hr => keeps_last hI hr

omit hI in
theorem keeps_blockLoop (hstmt : KeepingStmt P I stmt) (h : I p) :
    Keeps P I (blockLoop stmt fuel node p) fun r => I r.2 := by
  induction fuel generalizing node p with
  | zero => exact follows_stop _
  | succ fuel ih =>
      rw [blockLoop]
      refine follows_ite (fun _ => ?_) fun _ => keeps_pure h
      refine follows_emit (fun _ => h) fun hP => ?_
      refine keeps_bind (hstmt p h hP) fun r hr => ?_
      refine keeps_bind (keeps_addPresent _ _) fun n _ => ?_
      refine keeps_emit trivial ?_
      exact follows_ite (fun _ => keeps_pure hr) fun _ => ih hr

theorem keeps_block (hstmt : KeepingStmt P I stmt) (h : I p) :
    Keeps P I (parseBlock stmt fuel p) fun r => I r.2 := by
  rw [parseBlock]
  refine keeps_bind (keeps_expect hI h) fun r₁ h₁ => ?_
  exact keeps_bind (keeps_blockLoop hstmt h₁) fun r hr => keeps_last hI hr

theorem keeps_conditional {type : ASTNodeType} (hstmt : KeepingStmt P I stmt) (h : I p) :
    Keeps P I (parseConditional stmt fuel type p) fun r => I r.2 := by
  rw [parseConditional]
  refine keeps_bind (keeps_advance hI h) fun p₁ h₁ => ?_
  refine keeps_bind (keeps_expect hI h₁) fun r₂ h₂ => ?_
  refine keeps_bind (keeps_expression hI _ h₂) fun r₃ h₃ => ?_
  refine keeps_bind (keeps_expect hI h₃) fun r₄ h₄ => ?_
  refine keeps_bind (keeps_block hI hstmt h₄) fun r₅ h₅ => ?_
  refine keeps_bind (keeps_addChild _ _) fun n _ => ?_
  exact keeps_bind (keeps_addChild _ _) fun n' _ => keeps_pure h₅

theorem keeps_if (hstmt : KeepingStmt P I stmt) (h : I p) :
    Keeps P I (parseIf stmt fuel p) fun r => I r.2 := by
  refine keeps_bind (keeps_conditional hI hstmt h) fun r₁ h₁ => ?_
  refine follows_ite (fun _ => ?_) fun _ => keeps_pure h₁
  refine keeps_bind (keeps_advance hI h₁) fun p₂ h₂ => ?_
  refine keeps_bind (keeps_block hI hstmt h₂) fun r₃ h₃ => ?_
  exact keeps_bind (keeps_addChild _ _) fun n _ => keeps_pure h₃

theorem keeps_statement : KeepingStmt P I (parseStatement fuel) := by
  induction fuel with
  | zero => exact fun _ _ _ => follows_stop _
  | succ fuel ih =>
      intro p h hP
      rw [parseStatement]
      unfold parseStatementWith
      split
      case h_1 => exact keeps_varDecl hI h
      case h_2 => exact keeps_print hI h
      case h_3 => exact keeps_if hI ih h
      case h_4 => exact keeps_bind (keeps_conditional hI ih h) fun r hr => keeps_pure hr
      case h_5 => exact keeps_return hI h
      case h_6 => exact keeps_jump hI h
      case h_7 => exact keeps_jump hI h
      case h_8 hid => exact keeps_simple hI h hP hid
      case h_9 => exact keeps_bind (keeps_block hI ih h) fun r hr => keeps_pure hr
      case h_10 => exact keeps_pure h

theorem keeps_programLoop (h : I p) :
    Keeps P I (programLoop fuel node p) fun r => I r.2 := by
  induction fuel generalizing node p with
  | zero => exact follows_stop _
  | succ fuel ih =>
      rw [programLoop]
      refine follows_ite (fun _ => ?_) fun _ => keeps_pure h
      refine follows_emit (fun _ => h) fun hP => ?_
      refine keeps_bind (keeps_statement hI p h hP) fun r hr => ?_
      refine keeps_bind (keeps_addPresent _ _) fun n _ => ?_
      refine keeps_emit trivial ?_
      exact follows_ite (fun _ => keeps_pure hr) fun _ => ih hr

/-- What holds of the first token holds at every statement and at the end. -/
theorem parseSource_keeps {source : Nat → Char}
    (hinit : ∀ tok lex, lexerNextToken fuel (lexerInit source) = some (tok, lex) →
      I ⟨lex, tok, "", false⟩) :
    Keeps P I (parseSource fuel source) fun r => I r.2 := by
  refine keeps_bind (M := I) ?_ fun p h => keeps_programLoop hI h
  refine keeps_bind (M := fun r => lexerNextToken fuel (lexerInit source) = some r) ?_ ?_
  · exact follows_ofOption fun r hr => hr
  · intro r hr
    exact keeps_pure (hinit r.1 r.2 hr)

end Rule

end PolandOS.PolskiScript
