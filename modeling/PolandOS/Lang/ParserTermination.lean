import PolandOS.Lang.Parser
import PolandOS.Lang.LexerProgress

/-! # Where the parser comes to an end

A statement loop ends only if its rounds move on. `parser_terminates`: from loop
heads at which a statement starts, and at which moving the lexer back does not lose
ground, every round moves on or fails and the parse returns; and a parse that
returns was never at a head at which no statement starts.
-/

namespace PolandOS.PolskiScript

open Logging

/-! ## The parser moves on -/

/-- How far the parser has come. The last token takes no characters, so it counts
by itself. -/
def Parser.position (p : Parser) : Nat :=
  p.lexer.pos + if p.currentToken.type = .koniec then 1 else 0

/-- How much there is to read. -/
def Parser.room (N : Nat) (p : Parser) : Nat := N + 1 - p.position

/-- The parser has not moved back and has not forgotten an error. -/
structure Advances (N : Nat) (p p' : Parser) : Prop extends InText N p'.lexer where
  forward : p.position ≤ p'.position
  error : p.hasError → p'.hasError

variable {N : Nat} {p p' p'' : Parser}

theorem InText.stays (h : InText N p.lexer) : Advances N p p := ⟨h, Nat.le_refl _, id⟩

theorem Advances.trans (h : Advances N p p') (h' : Advances N p' p'') : Advances N p p'' :=
  ⟨h'.toInText, Nat.le_trans h.forward h'.forward, h'.error ∘ h.error⟩

theorem InText.position_le (h : InText N p.lexer) : p.position ≤ N + 1 := by
  have hpos := h.pos
  unfold Parser.position
  split <;> omega

theorem Advances.room_le (h : Advances N p p') : p'.room N ≤ p.room N :=
  Nat.sub_le_sub_left h.forward _

theorem Advances.room_lt (h : Advances N p p') (hlt : p.position < p'.position) :
    p'.room N < p.room N := by
  have hpos := h.toInText.position_le
  unfold Parser.room
  omega

/-- The tokens that start a statement. -/
def statementStarts : List TokenType :=
  [.zmienna, .drukuj, .jesli, .dopoki, .zwroc, .przerwij, .kontynuuj, .identyfikator, .klamraLewa]

/-- Unless an assignment follows, the lexer is moved back to where the current
token says that it starts; the token that is read there ends no earlier than the
current one. -/
def KeepsGround (p : Parser) : Prop :=
  ∀ fuel tok lex, lexerNextToken fuel p.lexer = some (tok, lex) → tok.type ≠ .przypisanie →
    p.currentToken.column - 1 ≤ p.lexer.pos ∧
      ∀ fuel' tok' lex', lexerNextToken fuel' (backtrack lex p.currentToken) = some (tok', lex') →
        p.lexer.pos ≤ lex'.pos

/-- A loop head from which the round comes to an end. -/
def GoodHead (p : Parser) : Prop :=
  (p.currentToken.type ∈ statementStarts ∨ p.hasError) ∧
    (p.currentToken.type = .identyfikator → KeepsGround p)

/-- The condition on a parse. -/
def GoodEvent : ParseEvent → Prop
  | .loopHead p => GoodHead p
  | _ => True

/-- What every round of a statement loop has to do. -/
def Progress : ParseEvent → Prop
  | .iteration p p' => p'.hasError ∨ p.position < p'.position
  | _ => True

variable {α β : Type} {x : Parse α} {f : α → Parse β} {post mid : α → Prop} {fuel : Nat}

/-- From good loop heads, the computation returns. -/
abbrev Returns (x : Parse α) (post : α → Prop) : Prop := Logged.Total GoodEvent Progress x post

theorem ends_of_result {a : α} (hx : x.result = .ok a) (hR : x.All Progress) (h : post a) :
    Returns x post := fun _ => ⟨a, hx, h, hR⟩

/-- `parser_advance`, with the token that it reads. -/
theorem advance_reads (h : InText N p.lexer) (hfuel : N - p.lexer.pos + 1 < fuel) :
    Returns (parserAdvance fuel p) fun p' =>
      (∃ tok lex, lexerNextToken fuel p.lexer = some (tok, lex) ∧
        p' = { p with lexer := lex, currentToken := tok }) ∧
      InText N p'.lexer ∧ p.lexer.pos < p'.position := by
  rcases lexerNextToken_moves h hfuel with ⟨tok, lex, htok, hread⟩
  have hlt : p.lexer.pos < lex.pos + if tok.type = .koniec then 1 else 0 := by
    have hforward := hread.forward
    split
    · omega
    · rename_i hne
      exact hread.moved hne
  refine ends_of_result (a := { p with lexer := lex, currentToken := tok }) ?_ ?_ ?_
  · rw [parserAdvance, Logged.result_bind_of_ok (Logged.result_ofOption.mpr htok)]
    rfl
  · rw [parserAdvance, Logged.all_bind]
    exact ⟨Logged.all_ofOption _ _, fun _ _ => Logged.all_pure _⟩
  · exact ⟨⟨tok, lex, htok, rfl⟩, hread.toInText, hlt⟩

theorem advance_returns (h : InText N p.lexer) (hfuel : p.room N + 2 ≤ fuel) :
    Returns (parserAdvance fuel p) fun p' =>
      Advances N p p' ∧ (p.currentToken.type ≠ .koniec → p.position < p'.position) := by
  have hpos := h.pos
  have hposition : p.position ≤ p.lexer.pos + 1 ∧
      (p.currentToken.type ≠ .koniec → p.position = p.lexer.pos) := by
    unfold Parser.position
    split <;> simp_all
  have hroom : N - p.lexer.pos + 1 < fuel := by
    unfold Parser.room at hfuel
    omega
  refine (advance_reads h hroom).mono ?_
  rintro p' ⟨⟨tok, lex, -, rfl⟩, htext, hlt⟩
  refine ⟨⟨htext, Nat.le_trans hposition.1 hlt, id⟩, fun hne => ?_⟩
  rw [hposition.2 hne]
  exact hlt

theorem expect_returns {t : TokenType} (h : InText N p.lexer) (hfuel : p.room N + 2 ≤ fuel) :
    Returns (parserExpect fuel p t) fun r =>
      Advances N p r.2 ∧ (t ≠ .koniec → r.2.hasError ∨ p.position < r.2.position) := by
  unfold parserExpect
  refine Logged.total_ite (fun _ => ?_) fun htype => ?_
  · exact Logged.total_pure ⟨⟨h, Nat.le_refl _, fun _ => rfl⟩,
      fun _ => .inl rfl⟩
  · refine Logged.total_bind (advance_returns h hfuel) ?_
    rintro p' ⟨hadv, hlt⟩
    refine Logged.total_pure ⟨hadv, fun hne => .inr (hlt ?_)⟩
    rw [not_not.mp htype]
    exact hne

theorem addChild_returns (parent : ASTNode) (child : Option ASTNode) :
    Returns (astNodeAddChild parent child) fun _ => True := by
  unfold astNodeAddChild
  refine Logged.total_emit trivial fun _ => ?_
  cases child with
  | none => exact Logged.total_pure trivial
  | some c => exact Logged.total_pure trivial

theorem addPresent_returns (parent : ASTNode) (child : Option ASTNode) :
    Returns (if child.isSome then astNodeAddChild parent child else pure parent) fun _ => True :=
  Logged.total_ite (fun _ => addChild_returns parent child) fun _ => Logged.total_pure trivial

theorem intLiteral_returns (cs : List Char) (val : Int64) :
    Returns (intLiteral cs val) fun _ => True := by
  induction cs generalizing val with
  | nil => exact Logged.total_pure trivial
  | cons c cs ih =>
      have harith : ∀ op a b, Returns (parseArith op a b) fun _ => True := fun op a b =>
        Logged.total_emit trivial fun _ => Logged.total_pure trivial
      rw [intLiteral]
      exact Logged.total_bind (harith _ _ _) fun _ _ =>
        Logged.total_bind (harith _ _ _) fun _ _ => ih _

/-! ## Expressions come to an end -/

/-- With less than `R` to read, the parser of an expression comes to an end. -/
def ExprReturns (N R : Nat) (parse : NodeParser) : Prop :=
  ∀ p, InText N p.lexer → p.room N < R → Returns (parse p) fun r => Advances N p r.2

theorem ExprReturns.mono {R S : Nat} {parse : NodeParser} (h : ExprReturns N R parse) (hS : S ≤ R) :
    ExprReturns N S parse := fun p hp hroom => h p hp (Nat.lt_of_lt_of_le hroom hS)

variable {R : Nat} {expr sub : NodeParser} {node : ASTNode}

/-- Every round but the first takes a comma. -/
theorem arguments_returns (hexpr : ExprReturns N R expr) (h : InText N p.lexer)
    (hroom : p.room N < R)
    (hfuel : p.room N + (if p.currentToken.type = .przecinek then 3 else 4) ≤ fuel) :
    Returns (parseArguments expr fuel node p) fun r => Advances N p r.2 := by
  induction fuel generalizing node p with
  | zero => split at hfuel <;> omega
  | succ fuel ih =>
      rw [parseArguments]
      -- what the round has left once the comma is read
      have hcomma : Returns (if p.currentToken.type = .przecinek then parserAdvance fuel p else pure p)
          fun p₁ => Advances N p p₁ ∧ p₁.room N + 3 ≤ fuel := by
        refine Logged.total_ite (fun hc => ?_) fun hc => ?_
        · rw [if_pos hc] at hfuel
          refine (advance_returns h (by omega)).mono ?_
          rintro p₁ ⟨hadv, hlt⟩
          have hless := hadv.room_lt (hlt (by rw [hc]; decide))
          exact ⟨hadv, by omega⟩
        · rw [if_neg hc] at hfuel
          exact Logged.total_pure ⟨h.stays, by omega⟩
      refine Logged.total_bind hcomma ?_
      rintro p₁ ⟨hadv₁, hfuel₁⟩
      have hroom₁ := hadv₁.room_le
      refine Logged.total_bind (hexpr p₁ hadv₁.toInText (by omega)) ?_
      rintro ⟨arg, p₂⟩ (hadv₂ : Advances N p₁ p₂)
      have hroom₂ := hadv₂.room_le
      have hadv := hadv₁.trans hadv₂
      refine Logged.total_bind (addPresent_returns node arg) fun node' _ => ?_
      refine Logged.total_ite (fun hnext => ?_) fun _ => Logged.total_pure hadv
      refine (ih hadv.toInText (by omega) ?_).mono fun r hr => hadv.trans hr
      rw [if_pos hnext]
      omega

theorem argumentList_returns (hexpr : ExprReturns N R expr) (h : InText N p.lexer)
    (hroom : p.room N < R)
    (hfuel : p.room N + 4 ≤ fuel) :
    Returns (parseArgumentList expr fuel node p) fun r => Advances N p r.2 := by
  rw [parseArgumentList]
  refine Logged.total_bind (M := fun r => Advances N p r.2) ?_ ?_
  · refine Logged.total_ite (fun _ => ?_) fun _ => Logged.total_pure h.stays
    exact arguments_returns hexpr h hroom (by split <;> omega)
  · rintro ⟨n, p₁⟩ (hadv : Advances N p p₁)
    have hless := hadv.room_le
    refine Logged.total_bind (expect_returns hadv.toInText (by omega)) ?_
    rintro ⟨b, p₂⟩ ⟨hadv₂, -⟩
    exact Logged.total_pure (hadv.trans hadv₂)

theorem literal_returns (h : InText N p.lexer) (hfuel : p.room N + 2 ≤ fuel) :
    Returns (parseLiteral fuel node p) fun r => Advances N p r.2 := by
  rw [parseLiteral]
  refine Logged.total_bind (advance_returns h hfuel) ?_
  rintro p₁ ⟨hadv, -⟩
  exact Logged.total_pure hadv

/-- An expression inside an expression has less to read. -/
theorem primary_returns (hexpr : ExprReturns N (p.room N) expr) (h : InText N p.lexer)
    (hfuel : p.room N + 3 ≤ fuel) :
    Returns (parsePrimary expr fuel p) fun r => Advances N p r.2 := by
  unfold parsePrimary
  split
  case h_1 =>
    rw [parseNumber]
    refine Logged.total_bind (M := fun _ => True) ?_ fun _ _ => literal_returns h (by omega)
    refine Logged.total_ite (fun _ => Logged.total_pure trivial) fun _ => ?_
    refine Logged.total_emit trivial fun _ => ?_
    exact Logged.total_bind (intLiteral_returns _ _) fun _ _ => Logged.total_pure trivial
  case h_6 htype =>
    rw [parseName]
    refine Logged.total_bind (advance_returns h (by omega)) ?_
    rintro p₁ ⟨hadv₁, hlt₁⟩
    have hless₁ := hadv₁.room_lt (hlt₁ (by rw [htype]; decide))
    refine Logged.total_ite (fun hcall => ?_) fun _ => Logged.total_pure hadv₁
    refine Logged.total_bind (addChild_returns _ _) fun call _ => ?_
    refine Logged.total_bind (advance_returns hadv₁.toInText (by omega)) ?_
    rintro p₂ ⟨hadv₂, hlt₂⟩
    have hless₂ := hadv₂.room_lt (hlt₂ (by rw [hcall]; decide))
    refine Logged.total_bind
      (argumentList_returns hexpr hadv₂.toInText (by omega) (by omega)) ?_
    rintro ⟨call, p₃⟩ hadv₃
    exact Logged.total_pure ((hadv₁.trans hadv₂).trans hadv₃)
  case h_7 htype =>
    refine Logged.total_bind (advance_returns h (by omega)) ?_
    rintro p₁ ⟨hadv₁, hlt₁⟩
    have hless₁ := hadv₁.room_lt (hlt₁ (by rw [htype]; decide))
    refine Logged.total_bind (hexpr p₁ hadv₁.toInText hless₁) ?_
    rintro ⟨inner, p₂⟩ (hadv₂ : Advances N p₁ p₂)
    have hless₂ := hadv₂.room_le
    refine Logged.total_bind (expect_returns hadv₂.toInText (by omega)) ?_
    rintro ⟨b, p₃⟩ ⟨hadv₃, -⟩
    exact Logged.total_pure ((hadv₁.trans hadv₂).trans hadv₃)
  case h_8 => exact Logged.total_pure h.stays
  all_goals exact literal_returns h (by omega)

theorem unary_returns (hexpr : ExprReturns N R expr) (h : InText N p.lexer) (hroom : p.room N ≤ R)
    (hfuel : p.room N + 4 ≤ fuel) :
    Returns (parseUnary expr fuel p) fun r => Advances N p r.2 := by
  induction fuel generalizing p with
  | zero => omega
  | succ fuel ih =>
      rw [parseUnary]
      refine Logged.total_ite (fun hop => ?_) fun _ => ?_
      · refine Logged.total_bind (advance_returns h (by omega)) ?_
        rintro p₁ ⟨hadv₁, hlt₁⟩
        have hne : p.currentToken.type ≠ .koniec := by
          rcases hop with hop | hop <;> rw [hop] <;> decide
        have hless₁ := hadv₁.room_lt (hlt₁ hne)
        refine Logged.total_bind (ih hadv₁.toInText (by omega) (by omega)) ?_
        rintro ⟨operand, p₂⟩ hadv₂
        refine Logged.total_bind (addChild_returns _ _) fun n _ => ?_
        exact Logged.total_pure (hadv₁.trans hadv₂)
      · exact primary_returns (hexpr.mono hroom) h (by omega)

/-- Every round takes an operator. -/
theorem binaryLoop_returns' {ops : List TokenType} (hops : TokenType.koniec ∉ ops)
    (hsub : ExprReturns N R sub) {left : Option ASTNode} (h : InText N p.lexer)
    (hroom : p.room N < R)
    (hfuel : p.room N + 3 ≤ fuel) :
    Returns (binaryLoop ops sub fuel left p) fun r => Advances N p r.2 := by
  induction fuel generalizing left p with
  | zero => omega
  | succ fuel ih =>
      rw [binaryLoop]
      refine Logged.total_ite (fun hop => ?_) fun _ => Logged.total_pure h.stays
      have hne : p.currentToken.type ≠ .koniec := by
        intro heq
        exact hops (heq ▸ hop)
      refine Logged.total_bind (advance_returns h (by omega)) ?_
      rintro p₁ ⟨hadv₁, hlt₁⟩
      have hless₁ := hadv₁.room_lt (hlt₁ hne)
      refine Logged.total_bind (hsub p₁ hadv₁.toInText (by omega)) ?_
      rintro ⟨right, p₂⟩ (hadv₂ : Advances N p₁ p₂)
      have hless₂ := hadv₂.room_le
      have hadv := hadv₁.trans hadv₂
      refine Logged.total_bind (addChild_returns _ _) fun n _ => ?_
      refine Logged.total_bind (addChild_returns _ _) fun n' _ => ?_
      exact (ih hadv.toInText (by omega) (by omega)).mono fun r hr => hadv.trans hr

theorem binaryLevel_returns {ops : List TokenType} (hops : TokenType.koniec ∉ ops)
    (hsub : ExprReturns N R sub) (hfuel : R + 2 ≤ fuel) :
    ExprReturns N R (binaryLevel ops sub fuel) := by
  intro p h hroom
  rw [binaryLevel]
  refine Logged.total_bind (hsub p h hroom) ?_
  rintro ⟨left, p₁⟩ (hadv : Advances N p p₁)
  have hless := hadv.room_le
  refine (binaryLoop_returns' hops hsub hadv.toInText (by omega) (by omega)).mono ?_
  exact fun r hr => hadv.trans hr

theorem expression_returns (hfuel : R + 4 ≤ fuel) : ExprReturns N R (parseExpression fuel) := by
  induction fuel generalizing R with
  | zero => omega
  | succ fuel ih =>
      have hunary : ExprReturns N R (parseUnary (parseExpression fuel) fuel) := by
        intro p h hroom
        exact unary_returns (ih (R := R - 1) (by omega)) h (by omega) (by omega)
      have hlevel : R + 2 ≤ fuel := by omega
      have hfactor := binaryLevel_returns (by decide : .koniec ∉ factorOps) hunary hlevel
      have hterm := binaryLevel_returns (by decide : .koniec ∉ termOps) hfactor hlevel
      have hcomparison := binaryLevel_returns (by decide : .koniec ∉ comparisonOps) hterm hlevel
      exact binaryLevel_returns (by decide) hcomparison hlevel

/-! ## Statements come to an end -/

/-- A round has moved on or has failed. -/
structure Round (N : Nat) (p p' : Parser) : Prop extends Advances N p p' where
  progress : p'.hasError ∨ p.position < p'.position

theorem Advances.round (h : Advances N p p') (hlt : p.position < p'.position)
    (h' : Advances N p' p'') : Round N p p'' :=
  ⟨h.trans h', .inr (Nat.lt_of_lt_of_le hlt h'.forward)⟩

theorem Round.trans (h : Round N p p') (h' : Advances N p' p'') : Round N p p'' :=
  ⟨h.toAdvances.trans h', h.progress.imp h'.error fun hlt => Nat.lt_of_lt_of_le hlt h'.forward⟩

theorem Advances.trans_round (h : Advances N p p') (h' : Round N p' p'') : Round N p p'' :=
  ⟨h.trans h'.toAdvances, h'.progress.imp_right fun hlt => Nat.lt_of_le_of_lt h.forward hlt⟩

/-- A statement that starts with a token of its own. -/
theorem first_token {γ : Type} {f : Parser → Parse (γ × Parser)} (h : InText N p.lexer)
    (hfuel : p.room N + 2 ≤ fuel) (htype : p.currentToken.type ≠ .koniec)
    (hf : ∀ p₁, InText N p₁.lexer → p₁.room N < p.room N →
      Returns (f p₁) fun r => Advances N p₁ r.2) :
    Returns (parserAdvance fuel p >>= f) fun r => Round N p r.2 := by
  refine Logged.total_bind (advance_returns h hfuel) ?_
  rintro p₁ ⟨hadv, hlt⟩
  refine (hf p₁ hadv.toInText (hadv.room_lt (hlt htype))).mono fun r hr => ?_
  exact hadv.round (hlt htype) hr

/-- A statement that ends with a token of its own. -/
theorem last_token {γ : Type} {a : γ} {t : TokenType} (h : InText N p.lexer)
    (hfuel : p.room N + 2 ≤ fuel) :
    Returns (parserExpect fuel p t >>= fun r => pure (a, r.2)) fun r => Advances N p r.2 := by
  refine Logged.total_bind (expect_returns h hfuel) ?_
  rintro ⟨b, p'⟩ ⟨hadv, -⟩
  exact Logged.total_pure hadv

/-- A declaration is parsed, with its value or without. -/
theorem varDecl_returns (h : InText N p.lexer) (hfuel : p.room N + 5 ≤ fuel)
    (htype : p.currentToken.type ≠ .koniec) :
    Returns (parseVarDecl fuel p) fun r => Round N p r.2 := by
  rw [parseVarDecl]
  refine first_token h (by omega) htype fun p₁ h₁ hless₁ => ?_
  refine Logged.total_ite (fun _ => ?_) fun _ => ?_
  · exact Logged.total_pure ⟨h₁, Nat.le_refl _, fun _ => rfl⟩
  refine Logged.total_bind (advance_returns h₁ (by omega)) ?_
  rintro p₂ ⟨hadv₂, -⟩
  have hless₂ := hadv₂.room_le
  refine Logged.total_bind (M := fun r => Advances N p₂ r.2) ?_ ?_
  · refine Logged.total_ite (fun _ => ?_) fun _ => Logged.total_pure hadv₂.toInText.stays
    refine Logged.total_bind (advance_returns hadv₂.toInText (by omega)) ?_
    rintro p₃ ⟨hadv₃, -⟩
    have hless₃ := hadv₃.room_le
    refine Logged.total_bind
      (expression_returns (R := p.room N) (by omega) p₃ hadv₃.toInText (by omega)) ?_
    rintro ⟨value, p₄⟩ hadv₄
    refine Logged.total_bind (addChild_returns _ _) fun n _ => ?_
    exact Logged.total_pure (hadv₃.trans hadv₄)
  · rintro ⟨n, p₃⟩ (hadv₃ : Advances N p₂ p₃)
    have hless₃ := hadv₃.room_le
    exact (last_token hadv₃.toInText (by omega)).mono fun r hr =>
      (hadv₂.trans hadv₃).trans hr

theorem print_returns (h : InText N p.lexer) (hfuel : p.room N + 5 ≤ fuel)
    (htype : p.currentToken.type ≠ .koniec) :
    Returns (parsePrint fuel p) fun r => Round N p r.2 := by
  rw [parsePrint]
  refine first_token h (by omega) htype fun p₁ h₁ hless₁ => ?_
  refine Logged.total_bind (expect_returns h₁ (by omega)) ?_
  rintro ⟨b, p₂⟩ ⟨(hadv₂ : Advances N p₁ p₂), -⟩
  have hless₂ := hadv₂.room_le
  refine Logged.total_bind (argumentList_returns (expression_returns (R := p.room N) (by omega))
    hadv₂.toInText (by omega) (by omega)) ?_
  rintro ⟨n, p₃⟩ (hadv₃ : Advances N p₂ p₃)
  have hless₃ := hadv₃.room_le
  exact (last_token hadv₃.toInText (by omega)).mono fun r hr => (hadv₂.trans hadv₃).trans hr

theorem return_returns (h : InText N p.lexer) (hfuel : p.room N + 5 ≤ fuel)
    (htype : p.currentToken.type ≠ .koniec) :
    Returns (parseReturn fuel p) fun r => Round N p r.2 := by
  rw [parseReturn]
  refine first_token h (by omega) htype fun p₁ h₁ hless₁ => ?_
  refine Logged.total_bind (M := fun r => Advances N p₁ r.2) ?_ ?_
  · refine Logged.total_ite (fun _ => ?_) fun _ => Logged.total_pure h₁.stays
    refine Logged.total_bind (expression_returns (R := p.room N) (by omega) p₁ h₁ hless₁) ?_
    rintro ⟨value, p₂⟩ hadv₂
    refine Logged.total_bind (addChild_returns _ _) fun n _ => ?_
    exact Logged.total_pure hadv₂
  · rintro ⟨n, p₂⟩ (hadv₂ : Advances N p₁ p₂)
    have hless₂ := hadv₂.room_le
    exact (last_token hadv₂.toInText (by omega)).mono fun r hr => hadv₂.trans hr

theorem jump_returns {type : ASTNodeType} (h : InText N p.lexer) (hfuel : p.room N + 5 ≤ fuel)
    (htype : p.currentToken.type ≠ .koniec) :
    Returns (parseJump fuel type p) fun r => Round N p r.2 := by
  rw [parseJump]
  exact first_token h (by omega) htype fun p₁ h₁ hless₁ => last_token h₁ (by omega)

/-- The lexer may move back as far as to the start of the source: the fuel has to
be enough for the whole of it. -/
theorem simple_returns (h : InText N p.lexer) (hfuel : p.room N + N + 5 ≤ fuel)
    (htype : p.currentToken.type ≠ .koniec) (hkeeps : KeepsGround p) :
    Returns (parseSimple fuel p) fun r => Round N p r.2 := by
  have hposition : p.position = p.lexer.pos := by simp [Parser.position, htype]
  have hpos := h.pos
  have hroom : N - p.lexer.pos + 1 = p.room N := by
    unfold Parser.room
    omega
  rw [parseSimple]
  -- the token behind the identifier decides
  refine Logged.total_bind (advance_reads h (by omega)) ?_
  rintro p₁ ⟨⟨tok, lex, htok, rfl⟩, htext₁, hlt₁⟩
  refine Logged.total_ite (fun hassign => ?_) fun hassign => ?_
  · -- an assignment
    have hadv₁ : Advances N p { p with lexer := lex, currentToken := tok } :=
      ⟨htext₁, by rw [hposition]; exact Nat.le_of_lt hlt₁, id⟩
    have hgo : p.position < Parser.position { p with lexer := lex, currentToken := tok } := by
      rw [hposition]
      exact hlt₁
    have hless₁ := hadv₁.room_lt hgo
    refine Logged.total_bind (advance_returns htext₁ (by omega)) ?_
    rintro p₂ ⟨hadv₂, -⟩
    have hless₂ := hadv₂.room_le
    refine Logged.total_bind
      (expression_returns (R := p.room N) (by omega) p₂ hadv₂.toInText (by omega)) ?_
    rintro ⟨value, p₃⟩ (hadv₃ : Advances N p₂ p₃)
    have hless₃ := hadv₃.room_le
    refine Logged.total_bind (addChild_returns _ _) fun n _ => ?_
    refine (last_token hadv₃.toInText (by omega)).mono fun r hr => ?_
    exact hadv₁.round hgo ((hadv₂.trans hadv₃).trans hr)
  · -- an expression: the lexer moves back to the identifier
    rcases hkeeps fuel tok lex htok hassign with ⟨hcolumn, hagain⟩
    have hback : InText N (backtrack lex p.currentToken) := by
      refine ⟨rfl, ?_, htext₁.nul⟩
      exact Nat.le_trans hcolumn hpos
    have hfar : N - (backtrack lex p.currentToken).pos + 1 < fuel := by omega
    refine Logged.total_bind (advance_reads (p := { p with
      lexer := backtrack lex p.currentToken, currentToken := tok }) hback hfar) ?_
    rintro p₂ ⟨⟨tok', lex', htok', rfl⟩, htext₂, -⟩
    have hadv₂ : Advances N p { p with lexer := lex', currentToken := tok' } := by
      refine ⟨htext₂, ?_, id⟩
      rw [hposition]
      exact Nat.le_trans (hagain fuel tok' lex' htok') (Nat.le_add_right _ _)
    have hless₂ := hadv₂.room_le
    refine Logged.total_bind (expression_returns (R := p.room N + 1) (by omega) _ htext₂
      (Nat.lt_succ_of_le hless₂)) ?_
    rintro ⟨value, p₃⟩ hadv₃
    have hadv : Advances N p p₃ := hadv₂.trans hadv₃
    have hless := hadv.room_le
    refine Logged.total_bind (expect_returns hadv.toInText (by omega)) ?_
    rintro ⟨b, p₄⟩ ⟨hadv₄, hround⟩
    exact Logged.total_pure (hadv.trans_round ⟨hadv₄, hround (by decide)⟩)

/-- With less than `R` to read, the parser of a statement comes to an end, from a
good head. -/
def StmtReturns (N R : Nat) (parse : NodeParser) : Prop :=
  ∀ p, InText N p.lexer → p.room N < R → GoodHead p → p.currentToken.type ≠ .koniec →
    Returns (parse p) fun r => Round N p r.2

variable {stmt : NodeParser} {block : ASTNode}

theorem blockLoop_returns (hstmt : StmtReturns N R stmt) (h : InText N p.lexer) (hroom : p.room N < R)
    (hfuel : p.room N < fuel) :
    Returns (blockLoop stmt fuel block p) fun r => Advances N p r.2 := by
  induction fuel generalizing block p with
  | zero => omega
  | succ fuel ih =>
      rw [blockLoop]
      refine Logged.total_ite (fun hgo => ?_) fun _ => Logged.total_pure h.stays
      refine Logged.total_emit trivial fun hhead => ?_
      refine Logged.total_bind (hstmt p h hroom hhead hgo.2) ?_
      rintro ⟨s, p'⟩ (hround : Round N p p')
      have hless := hround.room_le
      refine Logged.total_bind (addPresent_returns _ _) fun block' _ => ?_
      refine Logged.total_emit hround.progress fun _ => ?_
      refine Logged.total_ite (fun _ => Logged.total_pure hround.toAdvances) fun herr => ?_
      have hlt := hround.room_lt (hround.progress.resolve_left herr)
      refine (ih hround.toInText (by omega) (by omega)).mono fun r hr => ?_
      exact hround.toAdvances.trans hr

/-- A block is a round: it takes its brace or fails. Where the brace is there, its
statements have less to read. -/
theorem block_returns (hstmt : StmtReturns N R stmt) (h : InText N p.lexer)
    (hroom : p.room N < R ∨ p.currentToken.type = .klamraLewa ∧ p.room N ≤ R)
    (hfuel : p.room N + 2 ≤ fuel) :
    Returns (parseBlock stmt fuel p) fun r => Round N p r.2 := by
  rw [parseBlock]
  have hbrace : Returns (parserExpect fuel p .klamraLewa)
      fun r => Round N p r.2 ∧ r.2.room N < R := by
    by_cases htype : p.currentToken.type = .klamraLewa
    · have hroom' : p.room N ≤ R := hroom.elim Nat.le_of_lt And.right
      rw [parserExpect, if_neg (not_not.mpr htype)]
      refine Logged.total_bind (advance_returns h hfuel) ?_
      rintro p₁ ⟨hadv, hlt⟩
      have hgo := hlt (by rw [htype]; decide)
      exact Logged.total_pure ⟨hadv.round hgo hadv.toInText.stays,
        Nat.lt_of_lt_of_le (hadv.room_lt hgo) hroom'⟩
    · have hroom' : p.room N < R := hroom.resolve_right fun hb => htype hb.1
      refine (expect_returns h hfuel).mono ?_
      rintro r ⟨hadv, hround⟩
      exact ⟨⟨hadv, hround (by decide)⟩, Nat.lt_of_le_of_lt hadv.room_le hroom'⟩
  refine Logged.total_bind hbrace ?_
  rintro ⟨b, p₁⟩ ⟨(hround₁ : Round N p p₁), hroom₁⟩
  have hless₁ := hround₁.room_le
  refine Logged.total_bind (blockLoop_returns hstmt hround₁.toInText hroom₁ (by omega)) ?_
  rintro ⟨n, p₂⟩ (hadv₂ : Advances N p₁ p₂)
  have hless₂ := hadv₂.room_le
  exact (last_token hadv₂.toInText (by omega)).mono fun r hr => hround₁.trans (hadv₂.trans hr)

/-- A condition and a block are parsed, and the keyword is behind. -/
theorem conditional_returns {type : ASTNodeType} (hstmt : StmtReturns N (p.room N) stmt)
    (h : InText N p.lexer) (hfuel : p.room N + 5 ≤ fuel)
    (htype : p.currentToken.type ≠ .koniec) :
    Returns (parseConditional stmt fuel type p) fun r => Round N p r.2 ∧ r.2.room N < p.room N := by
  rw [parseConditional]
  refine Logged.total_bind (advance_returns h (by omega)) ?_
  rintro p₁ ⟨hadv₁, hlt₁⟩
  have hgo := hlt₁ htype
  have hless₁ := hadv₁.room_lt hgo
  refine Logged.total_bind (expect_returns hadv₁.toInText (by omega)) ?_
  rintro ⟨b, p₂⟩ ⟨(hadv₂ : Advances N p₁ p₂), -⟩
  have hless₂ := hadv₂.room_le
  refine Logged.total_bind
    (expression_returns (R := p.room N) (by omega) p₂ hadv₂.toInText (by omega)) ?_
  rintro ⟨cond, p₃⟩ (hadv₃ : Advances N p₂ p₃)
  have hless₃ := hadv₃.room_le
  refine Logged.total_bind (expect_returns hadv₃.toInText (by omega)) ?_
  rintro ⟨b, p₄⟩ ⟨(hadv₄ : Advances N p₃ p₄), -⟩
  have hless₄ := hadv₄.room_le
  refine Logged.total_bind (block_returns hstmt hadv₄.toInText (.inl (by omega)) (by omega)) ?_
  rintro ⟨n, p₅⟩ (hround₅ : Round N p₄ p₅)
  have hless₅ := hround₅.room_le
  refine Logged.total_bind (addChild_returns _ _) fun n _ => ?_
  refine Logged.total_bind (addChild_returns _ _) fun n' _ => ?_
  refine Logged.total_pure ⟨?_, by dsimp only; omega⟩
  exact hadv₁.round hgo (((hadv₂.trans hadv₃).trans hadv₄).trans hround₅.toAdvances)

theorem if_returns (hstmt : StmtReturns N (p.room N) stmt) (h : InText N p.lexer)
    (hfuel : p.room N + 5 ≤ fuel) (htype : p.currentToken.type ≠ .koniec) :
    Returns (parseIf stmt fuel p) fun r => Round N p r.2 := by
  rw [parseIf]
  refine Logged.total_bind (conditional_returns hstmt h hfuel htype) ?_
  rintro ⟨n, p₁⟩ ⟨(hround₁ : Round N p p₁), hless₁⟩
  dsimp only at hless₁
  refine Logged.total_ite (fun _ => ?_) fun _ => Logged.total_pure hround₁
  refine Logged.total_bind (advance_returns hround₁.toInText (by omega)) ?_
  rintro p₂ ⟨hadv₂, -⟩
  have hless₂ := hadv₂.room_le
  refine Logged.total_bind (block_returns hstmt hadv₂.toInText (.inl (by omega)) (by omega)) ?_
  rintro ⟨e, p₃⟩ (hround₃ : Round N p₂ p₃)
  refine Logged.total_bind (addChild_returns _ _) fun n' _ => ?_
  exact Logged.total_pure (hround₁.trans (hadv₂.trans hround₃.toAdvances))

theorem while_returns (hstmt : StmtReturns N (p.room N) stmt) (h : InText N p.lexer)
    (hfuel : p.room N + 5 ≤ fuel) (htype : p.currentToken.type ≠ .koniec) :
    Returns (parseWhile stmt fuel p) fun r => Round N p r.2 := by
  rw [parseWhile]
  refine Logged.total_bind (conditional_returns hstmt h hfuel htype) ?_
  rintro ⟨n, p₁⟩ ⟨hround₁, -⟩
  exact Logged.total_pure hround₁

/-- A statement inside a statement has less to read. -/
theorem statement_returns (hfuel : R + N + 6 ≤ fuel) : StmtReturns N R (parseStatement fuel) := by
  induction fuel generalizing R with
  | zero => omega
  | succ fuel ih =>
      intro p h hroom hhead htype
      have hstmt : StmtReturns N (p.room N) (parseStatement fuel) := ih (by omega)
      have hexpr : p.room N + 5 ≤ fuel := by omega
      rw [parseStatement]
      unfold parseStatementWith
      split
      case h_1 => exact varDecl_returns h hexpr htype
      case h_2 => exact print_returns h hexpr htype
      case h_3 => exact if_returns hstmt h hexpr htype
      case h_4 => exact while_returns hstmt h hexpr htype
      case h_5 => exact return_returns h hexpr htype
      case h_6 => exact jump_returns h hexpr htype
      case h_7 => exact jump_returns h hexpr htype
      case h_8 hident => exact simple_returns h (by omega) htype (hhead.2 hident)
      case h_9 hblock =>
        refine Logged.total_bind
          (block_returns hstmt h (.inr ⟨hblock, Nat.le_refl _⟩) (by omega)) ?_
        rintro ⟨n, p₁⟩ hround
        exact Logged.total_pure hround
      case h_10 =>
        -- no statement starts here: the head is good because it has failed before
        have herr : p.hasError := by
          refine hhead.1.resolve_left ?_
          intro hstart
          simp_all [statementStarts]
        exact Logged.total_pure ⟨h.stays, .inl herr⟩

theorem programLoop_returns {program : ASTNode} (h : InText N p.lexer)
    (hfuel : p.room N + N + 8 ≤ fuel) :
    Returns (programLoop fuel program p) fun r => r.1.isSome ∨ r.2.hasError := by
  induction fuel generalizing program p with
  | zero => omega
  | succ fuel ih =>
      rw [programLoop]
      refine Logged.total_ite (fun hgo => ?_) fun _ => Logged.total_pure (.inl rfl)
      refine Logged.total_emit trivial fun hhead => ?_
      refine Logged.total_bind (statement_returns (R := p.room N + 1) (by omega) p h
        (Nat.lt_succ_self _) hhead hgo) ?_
      rintro ⟨s, p'⟩ (hround : Round N p p')
      refine Logged.total_bind (addPresent_returns _ _) fun program' _ => ?_
      refine Logged.total_emit hround.progress fun _ => ?_
      refine Logged.total_ite (fun herr => Logged.total_pure (.inr herr)) fun herr => ?_
      have hlt := hround.room_lt (hround.progress.resolve_left herr)
      exact ih hround.toInText (by omega)

/-! ## Heads from which nothing moves -/

/-- A statement starts at the head, or the block has failed before. -/
def NotStuck : ParseEvent → Prop
  | .loopHead p => p.currentToken.type ∈ statementStarts ∨ p.hasError
  | _ => True

/-- If the computation returns, it was never stuck. -/
abbrev Calm (x : Parse α) : Prop := Logged.Sure NotStuck x

theorem calm_bind (hx : Calm x) (hf : ∀ a, Calm (f a)) : Calm (x >>= f) :=
  Logged.sure_bind hx fun a _ => hf a

theorem calm_pure (a : α) : Calm (pure a) := .of_all (Logged.all_pure a)

theorem calm_outOfFuel : Calm (outOfFuel (α := α)) := .of_all (Logged.all_stop _)

theorem calm_emit {e : ParseEvent} (he : NotStuck e) : Calm (Logged.emit e) :=
  .of_all (Logged.all_emit.mpr he)

theorem calm_advance (fuel : Nat) (p : Parser) : Calm (parserAdvance fuel p) :=
  calm_bind (.of_all (Logged.all_ofOption _ _)) fun _ => calm_pure _

theorem calm_expect (fuel : Nat) (p : Parser) (t : TokenType) : Calm (parserExpect fuel p t) := by
  unfold parserExpect
  exact Logged.sure_ite (fun _ => calm_pure _) fun _ =>
    calm_bind (calm_advance _ _) fun _ => calm_pure _

theorem calm_addChild (parent : ASTNode) (child : Option ASTNode) :
    Calm (astNodeAddChild parent child) := by
  unfold astNodeAddChild
  refine calm_bind (calm_emit trivial) fun _ => ?_
  cases child with
  | none => exact calm_pure _
  | some c => exact calm_pure _

theorem calm_addPresent (parent : ASTNode) (child : Option ASTNode) :
    Calm (if child.isSome then astNodeAddChild parent child else pure parent) :=
  Logged.sure_ite (fun _ => calm_addChild _ _) fun _ => calm_pure _

theorem calm_intLiteral (cs : List Char) (val : Int64) : Calm (intLiteral cs val) := by
  induction cs generalizing val with
  | nil => exact calm_pure _
  | cons c cs ih =>
      have harith : ∀ op a b, Calm (parseArith op a b) := fun op a b =>
        calm_bind (calm_emit trivial) fun _ => calm_pure _
      exact calm_bind (harith _ _ _) fun _ => calm_bind (harith _ _ _) fun _ => ih _

theorem calm_arguments (hexpr : ∀ p, Calm (expr p)) : Calm (parseArguments expr fuel node p) := by
  induction fuel generalizing node p with
  | zero => exact calm_outOfFuel
  | succ fuel ih =>
      rw [parseArguments]
      refine calm_bind (Logged.sure_ite (fun _ => calm_advance _ _) fun _ => calm_pure _) ?_
      refine fun p₁ => calm_bind (hexpr p₁) fun r => calm_bind (calm_addPresent _ _) fun n => ?_
      exact Logged.sure_ite (fun _ => ih) fun _ => calm_pure _

theorem calm_argumentList (hexpr : ∀ p, Calm (expr p)) :
    Calm (parseArgumentList expr fuel node p) := by
  rw [parseArgumentList]
  refine calm_bind (Logged.sure_ite (fun _ => calm_arguments hexpr) fun _ => calm_pure _) ?_
  exact fun r => calm_bind (calm_expect _ _ _) fun _ => calm_pure _

theorem calm_literal : Calm (parseLiteral fuel node p) :=
  calm_bind (calm_advance _ _) fun _ => calm_pure _

theorem calm_primary (hexpr : ∀ p, Calm (expr p)) : Calm (parsePrimary expr fuel p) := by
  unfold parsePrimary
  split
  case h_1 =>
    refine calm_bind (Logged.sure_ite (fun _ => calm_pure _) fun _ => ?_) fun _ => calm_literal
    refine calm_bind (calm_emit trivial) fun _ => ?_
    exact calm_bind (calm_intLiteral _ _) fun _ => calm_pure _
  case h_6 =>
    refine calm_bind (calm_advance _ _) fun p₁ => ?_
    refine Logged.sure_ite (fun _ => ?_) fun _ => calm_pure _
    refine calm_bind (calm_addChild _ _) fun call => calm_bind (calm_advance _ _) fun p₂ => ?_
    exact calm_bind (calm_argumentList hexpr) fun _ => calm_pure _
  case h_7 =>
    refine calm_bind (calm_advance _ _) fun p₁ => calm_bind (hexpr p₁) fun r => ?_
    exact calm_bind (calm_expect _ _ _) fun _ => calm_pure _
  case h_8 => exact calm_pure _
  all_goals exact calm_literal

theorem calm_unary (hexpr : ∀ p, Calm (expr p)) : Calm (parseUnary expr fuel p) := by
  induction fuel generalizing p with
  | zero => exact calm_outOfFuel
  | succ fuel ih =>
      rw [parseUnary]
      refine Logged.sure_ite (fun _ => ?_) fun _ => calm_primary hexpr
      refine calm_bind (calm_advance _ _) fun p₁ => calm_bind ih fun r => ?_
      exact calm_bind (calm_addChild _ _) fun _ => calm_pure _

theorem calm_binaryLevel {ops : List TokenType} (hsub : ∀ p, Calm (sub p)) :
    Calm (binaryLevel ops sub fuel p) := by
  have hloop : ∀ n left p, Calm (binaryLoop ops sub n left p) := by
    intro n
    induction n with
    | zero => exact fun _ _ => calm_outOfFuel
    | succ n ih =>
        intro left p
        rw [binaryLoop]
        refine Logged.sure_ite (fun _ => ?_) fun _ => calm_pure _
        refine calm_bind (calm_advance _ _) fun p₁ => calm_bind (hsub p₁) fun r => ?_
        exact calm_bind (calm_addChild _ _) fun _ => calm_bind (calm_addChild _ _) fun _ => ih _ _
  exact calm_bind (hsub p) fun r => hloop _ _ _

theorem calm_expression : Calm (parseExpression fuel p) := by
  induction fuel generalizing p with
  | zero => exact calm_outOfFuel
  | succ fuel ih =>
      exact calm_binaryLevel fun _ => calm_binaryLevel fun _ => calm_binaryLevel fun _ =>
        calm_binaryLevel fun _ => calm_unary fun _ => ih

/-- Where no statement starts, the parser of statements returns at once. -/
def GivesUp (parse : NodeParser) : Prop :=
  ∀ {p r}, p.currentToken.type ∉ statementStarts → (parse p).result = .ok r → r = (none, p)

/-- A loop that is stuck runs forever. -/
theorem stuck_blockLoop (hstmt : GivesUp stmt) (hgo : p.currentToken.type ≠ .klamraPrawa ∧
    p.currentToken.type ≠ .koniec) (hstart : p.currentToken.type ∉ statementStarts)
    (herr : ¬p.hasError) (r : ASTNode × Parser) : (blockLoop stmt fuel block p).result ≠ .ok r := by
  induction fuel generalizing block with
  | zero => exact fun h => nomatch h
  | succ fuel ih =>
      intro h
      rw [blockLoop, if_pos hgo] at h
      rcases Logged.result_bind.mp h with ⟨_, -, h⟩
      rcases Logged.result_bind.mp h with ⟨r₁, hr₁, h⟩
      rw [hstmt hstart hr₁] at h
      rcases Logged.result_bind.mp h with ⟨block', -, h⟩
      rcases Logged.result_bind.mp h with ⟨_, -, h⟩
      rw [if_neg herr] at h
      exact ih h

theorem calm_blockLoop (hstmt : GivesUp stmt) (hcalm : ∀ p, Calm (stmt p)) :
    Calm (blockLoop stmt fuel block p) := by
  induction fuel generalizing block p with
  | zero => exact calm_outOfFuel
  | succ fuel ih =>
      intro r hr
      -- the head is not stuck, because a stuck loop does not return
      have hhead : p.currentToken.type ≠ .klamraPrawa ∧ p.currentToken.type ≠ .koniec →
          NotStuck (.loopHead p) := by
        intro hgo
        by_contra hstuck
        rcases not_or.mp hstuck with ⟨hstart, herr⟩
        exact stuck_blockLoop hstmt hgo hstart herr r hr
      rw [blockLoop] at hr ⊢
      refine Logged.sure_ite (fun hgo => ?_) (fun _ => calm_pure _) r hr
      refine calm_bind (calm_emit (hhead hgo)) fun _ => calm_bind (hcalm p) fun s => ?_
      refine calm_bind (calm_addPresent _ _) fun block' => calm_bind (calm_emit trivial) fun _ => ?_
      exact Logged.sure_ite (fun _ => calm_pure _) fun _ => ih

theorem calm_block (hstmt : GivesUp stmt) (hcalm : ∀ p, Calm (stmt p)) :
    Calm (parseBlock stmt fuel p) := by
  refine calm_bind (calm_expect _ _ _) fun r => ?_
  refine calm_bind (calm_blockLoop hstmt hcalm) fun r₁ => ?_
  exact calm_bind (calm_expect _ _ _) fun _ => calm_pure _

theorem calm_conditional {type : ASTNodeType} (hstmt : GivesUp stmt) (hcalm : ∀ p, Calm (stmt p)) :
    Calm (parseConditional stmt fuel type p) := by
  refine calm_bind (calm_advance _ _) fun p₁ => calm_bind (calm_expect _ _ _) fun r₂ => ?_
  refine calm_bind calm_expression fun r₃ => calm_bind (calm_expect _ _ _) fun r₄ => ?_
  refine calm_bind (calm_block hstmt hcalm) fun r₅ => ?_
  exact calm_bind (calm_addChild _ _) fun _ => calm_bind (calm_addChild _ _) fun _ => calm_pure _

theorem givesUp_statement : GivesUp (parseStatement fuel) := by
  intro p r hstart h
  cases fuel with
  | zero => cases h
  | succ fuel =>
      rw [parseStatement] at h
      unfold parseStatementWith at h
      split at h
      case h_10 =>
        cases h
        rfl
      all_goals simp_all [statementStarts]

theorem calm_simple : Calm (parseSimple fuel p) := by
  refine calm_bind (calm_advance _ _) fun p₁ => Logged.sure_ite (fun _ => ?_) fun _ => ?_
  · refine calm_bind (calm_advance _ _) fun p₂ => calm_bind calm_expression fun r => ?_
    exact calm_bind (calm_addChild _ _) fun _ => calm_bind (calm_expect _ _ _) fun _ => calm_pure _
  · refine calm_bind (calm_advance _ _) fun p₂ => calm_bind calm_expression fun r => ?_
    exact calm_bind (calm_expect _ _ _) fun _ => calm_pure _

theorem calm_varDecl : Calm (parseVarDecl fuel p) := by
  refine calm_bind (calm_advance _ _) fun p₁ => Logged.sure_ite (fun _ => calm_pure _) fun _ => ?_
  refine calm_bind (calm_advance _ _) fun p₂ => calm_bind ?_ fun r =>
    calm_bind (calm_expect _ _ _) fun _ => calm_pure _
  refine Logged.sure_ite (fun _ => ?_) fun _ => calm_pure _
  refine calm_bind (calm_advance _ _) fun p₃ => calm_bind calm_expression fun r => ?_
  exact calm_bind (calm_addChild _ _) fun _ => calm_pure _

theorem calm_return : Calm (parseReturn fuel p) := by
  refine calm_bind (calm_advance _ _) fun p₁ => calm_bind ?_ fun r =>
    calm_bind (calm_expect _ _ _) fun _ => calm_pure _
  refine Logged.sure_ite (fun _ => ?_) fun _ => calm_pure _
  exact calm_bind calm_expression fun r => calm_bind (calm_addChild _ _) fun _ => calm_pure _

/-- A statement that is parsed to its end was not stuck at a loop head. -/
theorem calm_statement (p : Parser) : Calm (parseStatement fuel p) := by
  induction fuel generalizing p with
  | zero => exact calm_outOfFuel
  | succ fuel ih =>
      have hjump : ∀ type, Calm (parseJump fuel type p) := fun type =>
        calm_bind (calm_advance _ _) fun _ => calm_bind (calm_expect _ _ _) fun _ => calm_pure _
      rw [parseStatement]
      unfold parseStatementWith
      split
      case h_1 => exact calm_varDecl
      case h_2 =>
        refine calm_bind (calm_advance _ _) fun p₁ => calm_bind (calm_expect _ _ _) fun r => ?_
        refine calm_bind (calm_argumentList fun _ => calm_expression) fun r => ?_
        exact calm_bind (calm_expect _ _ _) fun _ => calm_pure _
      case h_3 =>
        refine calm_bind (calm_conditional givesUp_statement ih) fun r => ?_
        refine Logged.sure_ite (fun _ => ?_) fun _ => calm_pure _
        refine calm_bind (calm_advance _ _) fun p₁ => ?_
        refine calm_bind (calm_block givesUp_statement ih) fun r => ?_
        exact calm_bind (calm_addChild _ _) fun _ => calm_pure _
      case h_4 =>
        exact calm_bind (calm_conditional givesUp_statement ih) fun _ => calm_pure _
      case h_5 => exact calm_return
      case h_6 => exact hjump _
      case h_7 => exact hjump _
      case h_8 => exact calm_simple
      case h_9 => exact calm_bind (calm_block givesUp_statement ih) fun _ => calm_pure _
      case h_10 => exact calm_pure _

theorem stuck_programLoop {program : ASTNode} (hgo : p.currentToken.type ≠ .koniec)
    (hstart : p.currentToken.type ∉ statementStarts) (herr : ¬p.hasError)
    (r : Option ASTNode × Parser) : (programLoop fuel program p).result ≠ .ok r := by
  induction fuel generalizing program with
  | zero => exact fun h => nomatch h
  | succ fuel ih =>
      intro h
      rw [programLoop, if_pos hgo] at h
      rcases Logged.result_bind.mp h with ⟨_, -, h⟩
      rcases Logged.result_bind.mp h with ⟨r₁, hr₁, h⟩
      rw [givesUp_statement hstart hr₁] at h
      rcases Logged.result_bind.mp h with ⟨program', -, h⟩
      rcases Logged.result_bind.mp h with ⟨_, -, h⟩
      rw [if_neg herr] at h
      exact ih h

theorem calm_programLoop {program : ASTNode} : Calm (programLoop fuel program p) := by
  induction fuel generalizing program p with
  | zero => exact calm_outOfFuel
  | succ fuel ih =>
      intro r hr
      have hhead : p.currentToken.type ≠ .koniec → NotStuck (.loopHead p) := by
        intro hgo
        by_contra hstuck
        rcases not_or.mp hstuck with ⟨hstart, herr⟩
        exact stuck_programLoop hgo hstart herr r hr
      rw [programLoop] at hr ⊢
      refine Logged.sure_ite (fun hgo => ?_) (fun _ => calm_pure _) r hr
      refine calm_bind (calm_emit (hhead hgo)) fun _ => calm_bind (calm_statement p) fun s => ?_
      refine calm_bind (calm_addPresent _ _) fun program' => ?_
      refine calm_bind (calm_emit trivial) fun _ => ?_
      exact Logged.sure_ite (fun _ => calm_pure _) fun _ => ih

/-! ## The parse of a source -/

/-- With a fuel of twice the length of the source, a parse returns if all its loop
heads are good: its rounds move on or fail, and it returns a program or an error. A
parse that returns was never stuck. -/
theorem parser_terminates {source : Nat → Char} {N fuel : Nat} (hnul : source N = nul)
    (hfuel : 2 * N + 9 ≤ fuel) :
    ((parseSource fuel source).All GoodEvent →
      ∃ r, (parseSource fuel source).result = .ok r ∧ (r.1.isSome ∨ r.2.hasError) ∧
        (parseSource fuel source).All Progress) ∧
    ∀ r, (parseSource fuel source).result = .ok r → (parseSource fuel source).All NotStuck := by
  constructor
  · have htext : InText N (lexerInit source) := ⟨rfl, Nat.zero_le _, hnul⟩
    rcases lexerNextToken_moves htext (by omega : N - 0 + 1 < fuel) with ⟨tok, lex, htok, hread⟩
    have hinit : (parserInit fuel (lexerInit source)).result = .ok ⟨lex, tok, "", false⟩ := by
      rw [parserInit, Logged.result_bind_of_ok (Logged.result_ofOption.mpr htok)]
      rfl
    have hsilent : (parserInit fuel (lexerInit source)).All Progress := by
      rw [parserInit, Logged.all_bind]
      exact ⟨Logged.all_ofOption _ _, fun _ _ => Logged.all_pure _⟩
    have hloop : Returns (parseSource fuel source) fun r => r.1.isSome ∨ r.2.hasError := by
      refine Logged.total_bind (M := (· = ⟨lex, tok, "", false⟩))
        (ends_of_result hinit hsilent rfl) ?_
      rintro p rfl
      refine programLoop_returns hread.toInText ?_
      unfold Parser.room
      omega
    exact hloop
  · refine calm_bind (.of_all ?_) fun p => calm_programLoop
    rw [parserInit, Logged.all_bind]
    exact ⟨Logged.all_ofOption _ _, fun _ _ => Logged.all_pure _⟩

/-- A statement starts here, and a name has an assignment right behind it. -/
def PlainHead (p : Parser) : Prop :=
  p.currentToken.type ∈ statementStarts ∧
    (p.currentToken.type = .identyfikator →
      p.lexer.currentChar = '=' ∧ twoCharType '=' (lexerPeek p.lexer) = none)

instance (p : Parser) : Decidable (PlainHead p) := inferInstanceAs (Decidable (_ ∧ _))

theorem PlainHead.good {p : Parser} (h : PlainHead p) : GoodHead p := by
  refine ⟨.inl h.1, fun hname fuel tok lex htok hne => ?_⟩
  rcases h.2 hname with ⟨hchar, htwo⟩
  cases fuel with
  | zero => cases htok
  | succ fuel =>
      -- the equals sign is the next token
      have hread : lexerNextToken (fuel + 1) p.lexer = some (lexerOperator p.lexer) := by
        rw [lexerNextToken, hchar]
        rfl
      rw [hread] at htok
      have htype : tok.type = (lexerOperator p.lexer).1.type := by rw [Option.some.inj htok]
      rw [lexerOperator, hchar, htwo] at htype
      exact absurd htype hne

/-- The condition on the steps of a parse. -/
def PlainEvent : ParseEvent → Prop
  | .loopHead p => PlainHead p
  | _ => True

instance (e : ParseEvent) : Decidable (PlainEvent e) := by
  unfold PlainEvent
  split <;> infer_instance

theorem PlainEvent.good {e : ParseEvent} (h : PlainEvent e) : GoodEvent e := by
  cases e with
  | loopHead p => exact PlainHead.good h
  | _ => trivial

/-- An assignment, a loop with a block, and output. -/
def countdown : List Char := "x=3;dopoki(x>0){drukuj(x);x=x-1;}".toList

theorem parser_terminates_countdown : ∃ r,
    (parseSource 80 (sourceOf countdown)).result = .ok r ∧ (r.1.isSome ∨ r.2.hasError) ∧
      (parseSource 80 (sourceOf countdown)).All Progress := by
  have hplain : (parseSource 80 (sourceOf countdown)).All PlainEvent := by
    unfold Logged.All
    decide
  exact (parser_terminates (rfl : sourceOf countdown countdown.length = nul) (by decide)).1
    fun e he => (hplain e he).good

/-- A source on which the parser never returns: no statement starts with a
semicolon. -/
theorem parser_stuck_semicolon : sourceOf [';'] 1 = nul ∧
    ∀ fuel r, (parseSource fuel (sourceOf [';'])).result ≠ .ok r := by
  refine ⟨rfl, fun fuel r h => ?_⟩
  rcases Logged.result_bind.mp h with ⟨p, hp, h⟩
  cases fuel with
  | zero => cases hp
  | succ fuel =>
      cases hp
      exact stuck_programLoop (by decide) (by decide) (by decide) r h

end PolandOS.PolskiScript
