import Mathlib.Algebra.Group.Int.Defs
import PolandOS.Lang.ExprRoundTrip
import PolandOS.Lang.Interp

/-! # Where integer arithmetic is defined

The operations of the parser on literals and of the interpreter on integers are not
checked, apart from the zero of `/`. Those of a parse are defined exactly when every
literal fits `i64` (`parseSource_fitting`).
-/

namespace PolandOS.PolskiScript

open Logging

/-- The values of `i64`. -/
def InRange (i : Int) : Prop := -2 ^ 63 ≤ i ∧ i < 2 ^ 63

instance : DecidablePred InRange := fun _ => inferInstanceAs (Decidable (_ ∧ _))

/-- Where C defines an operation on `i64`. -/
def IntOp.Defined : IntOp → Int64 → Int64 → Prop
  | .add, a, b => InRange (a.toInt + b.toInt)
  | .sub, a, b => InRange (a.toInt - b.toInt)
  | .mul, a, b => InRange (a.toInt * b.toInt)
  | .div, a, b => b ≠ 0 ∧ ¬(a = Int64.minValue ∧ b = -1)
  | .mod, a, b => b ≠ 0 ∧ ¬(a = Int64.minValue ∧ b = -1)
  | .neg, a, _ => InRange (-a.toInt)

/-! ## Literals -/

/-- The step of a parse is an operation where it is defined, or no operation. -/
def ParseDefined : ParseEvent → Prop
  | .arith op a b => op.Defined a b
  | _ => True

/-- The value of the digits fits `i64`. -/
def LiteralFits (digits : List Char) : Prop := Nat.ofDigitChars 10 digits 0 < 2 ^ 63

/-- The condition on a parse. -/
def ParseFits : ParseEvent → Prop
  | .literal digits => LiteralFits digits
  | _ => True

theorem le_ofDigitChars (cs : List Char) (n : Nat) : n ≤ Nat.ofDigitChars 10 cs n := by
  induction cs generalizing n with
  | nil => simp
  | cons c cs ih =>
      rw [Nat.ofDigitChars_cons]
      have h := ih (10 * n + (c.toNat - '0'.toNat))
      omega

/-- The two operations for a digit, and those for the digits behind it. -/
theorem all_intLiteral_cons {P : ParseEvent → Prop} {c : Char} {cs : List Char} {val : Int64} :
    (intLiteral (c :: cs) val).All P ↔
      P (.arith .mul val 10) ∧ P (.arith .add (val * 10) (Int64.ofInt (digitValue c))) ∧
        (intLiteral cs (val * 10 + Int64.ofInt (digitValue c))).All P := by
  have hlog : (intLiteral (c :: cs) val).log = .arith .mul val 10 ::
      .arith .add (val * 10) (Int64.ofInt (digitValue c)) ::
        (intLiteral cs (val * 10 + Int64.ofInt (digitValue c))).log := rfl
  rw [Logged.All, hlog]
  simp [Logged.All]

/-- The operations on a literal are defined as long as its value fits. -/
theorem intLiteral_defined {cs : List Char} (hcs : ∀ c ∈ cs, c.isDigit) {n : Nat}
    (hn : n < 2 ^ 63) :
    (intLiteral cs (Int64.ofNat n)).All ParseDefined ↔ Nat.ofDigitChars 10 cs n < 2 ^ 63 := by
  induction cs generalizing n with
  | nil => simpa [intLiteral] using hn
  | cons c cs ih =>
      rcases List.forall_mem_cons.mp hcs with ⟨hc, hrest⟩
      have hle := le_ofDigitChars cs (10 * n + (c.toNat - '0'.toNat))
      have hten : Int64.ofNat n * 10 = Int64.ofNat (10 * n) := by
        rw [Int64.ofNat_mul, Int64.mul_comm]
        rfl
      rw [Nat.ofDigitChars_cons, all_intLiteral_cons, literal_step hc, hten, digitValue_eq hc,
        Int64.ofInt_eq_ofNat]
      -- what the two operations compute, as long as it fits
      have hmul : ParseDefined (.arith .mul (Int64.ofNat n) 10) ↔ 10 * n < 2 ^ 63 := by
        change InRange ((Int64.ofNat n).toInt * 10) ↔ _
        rw [Int64.toInt_ofNat_of_lt hn, InRange]
        omega
      have hdigit : c.toNat - '0'.toNat < 10 := by
        simp only [Char.isDigit, Bool.and_eq_true, decide_eq_true_eq, UInt32.le_iff_toNat_le] at hc
        have hmax : c.toNat ≤ 57 := hc.2
        change c.toNat - 48 < 10
        omega
      have hadd : 10 * n < 2 ^ 63 → (ParseDefined (.arith .add (Int64.ofNat (10 * n))
          (Int64.ofNat (c.toNat - '0'.toNat))) ↔ 10 * n + (c.toNat - '0'.toNat) < 2 ^ 63) := by
        intro hten
        change InRange ((Int64.ofNat _).toInt + (Int64.ofNat _).toInt) ↔ _
        rw [Int64.toInt_ofNat_of_lt hten, Int64.toInt_ofNat_of_lt (by omega), InRange]
        omega
      constructor
      · rintro ⟨hmul', hadd', hall⟩
        exact (ih hrest ((hadd (hmul.mp hmul')).mp hadd')).mp hall
      · intro hfits
        have hten' : 10 * n < 2 ^ 63 := by omega
        have hall : 10 * n + (c.toNat - '0'.toNat) < 2 ^ 63 := by omega
        exact ⟨hmul.mpr hten', (hadd hten').mpr hall, (ih hrest hall).mpr hfits⟩

theorem intLiteral_fits (cs : List Char) (val : Int64) : (intLiteral cs val).All ParseFits := by
  induction cs generalizing val with
  | nil => exact Logged.all_pure _
  | cons c cs ih => exact all_intLiteral_cons.mpr ⟨trivial, trivial, ih _⟩

/-! ## Tokens -/

/-- A number is written with digits and dots. -/
def Token.Lexical (t : Token) : Prop :=
  t.type = .liczba → ∀ c ∈ t.value, c.isDigit ∨ c = '.'

theorem mem_push {buf : List Char} {c d : Char} (h : d ∈ push buf c) : d ∈ buf ∨ d = c := by
  unfold push at h
  split at h
  · simpa using h
  · exact .inl h

theorem numberLoop_chars {fuel : Nat} {isFloat : Bool} {num num' : List Char} {lex lex' : Lexer}
    (hnum : ∀ c ∈ num, c.isDigit ∨ c = '.')
    (h : numberLoop fuel isFloat num lex = some (num', lex')) :
    ∀ c ∈ num', c.isDigit ∨ c = '.' := by
  induction fuel generalizing isFloat num lex with
  | zero => cases h
  | succ fuel ih =>
      rw [numberLoop] at h
      split at h
      case isFalse =>
        cases h
        exact hnum
      case isTrue hchar =>
        split at h
        · cases h
          exact hnum
        · refine ih (fun c hc => ?_) h
          rcases mem_push hc with hc | rfl
          · exact hnum c hc
          · exact hchar

theorem twoCharType_ne_liczba (a b : Char) : twoCharType a b ≠ some .liczba := by
  unfold twoCharType
  repeat' split
  all_goals simp

theorem oneCharType_ne_liczba (a : Char) : oneCharType a ≠ .liczba := by
  unfold oneCharType
  split <;> decide

theorem wordType_ne_liczba (word : List Char) : wordType word ≠ .liczba := by
  have hall : keywords.all (fun k => k.2 != .liczba) = true := by decide
  unfold wordType
  split
  case h_1 id type hfind =>
    simpa using List.all_eq_true.mp hall _ (List.mem_of_find?_eq_some hfind)
  case h_2 => decide

theorem lexical_of_ne {t : Token} (h : t.type ≠ .liczba) : t.Lexical := fun htype => absurd htype h

/-- The lexer makes a number of digits and dots only. -/
theorem lexerNextToken_lexical {fuel : Nat} {lex lex' : Lexer} {t : Token}
    (h : lexerNextToken fuel lex = some (t, lex')) : t.Lexical := by
  -- the branches in the order of the source
  induction fuel generalizing lex with
  | zero => cases h
  | succ fuel ih =>
      rw [lexerNextToken] at h
      split at h
      · cases h
        exact lexical_of_ne (by exact (by decide : TokenType.koniec ≠ .liczba))
      split at h
      · rcases Option.bind_eq_some_iff.mp h with ⟨lex₁, -, h⟩
        exact ih h
      split at h
      · rcases Option.bind_eq_some_iff.mp h with ⟨lex₁, -, h⟩
        exact ih h
      split at h
      · -- a number
        rcases Option.bind_eq_some_iff.mp h with ⟨⟨num, lex₁⟩, hnum, h⟩
        cases h
        intro _ c hc
        exact numberLoop_chars (by simp) hnum c (List.mem_of_mem_take hc)
      split at h
      · rcases Option.bind_eq_some_iff.mp h with ⟨⟨str, lex₁⟩, -, h⟩
        cases h
        exact lexical_of_ne (by exact (by decide : TokenType.tekst ≠ .liczba))
      split at h
      · rcases Option.bind_eq_some_iff.mp h with ⟨⟨word, lex₁⟩, -, h⟩
        cases h
        exact lexical_of_ne (wordType_ne_liczba word)
      · cases htwo : twoCharType lex.currentChar (lexerPeek lex) with
        | none =>
            simp only [lexerOperator, htwo] at h
            cases h
            exact lexical_of_ne (oneCharType_ne_liczba _)
        | some type =>
            simp only [lexerOperator, htwo] at h
            cases h
            refine lexical_of_ne ?_
            rintro rfl
            exact twoCharType_ne_liczba _ _ htwo

/-! ## The parser -/

/-- The current token of the parser has been read by the lexer. -/
def Lexical (p : Parser) : Prop := p.currentToken.Lexical

variable {α : Type} {x : Parse α} {post : α → Prop}

/-- The operations of a parsing computation are defined exactly when its literals
fit. -/
abbrev Fitting (x : Parse α) (post : α → Prop) : Prop :=
  Logged.Agree ParseDefined ParseFits x post

theorem advance_fitting (fuel : Nat) (p : Parser) : Fitting (parserAdvance fuel p) Lexical := by
  constructor
  · simp [parserAdvance, Logged.all_bind]
  · intro p' h
    rcases Logged.result_bind.mp h with ⟨⟨t, lex⟩, ht, h⟩
    cases h
    exact lexerNextToken_lexical (Logged.result_ofOption.mp ht)

theorem expect_fitting {fuel : Nat} {p : Parser} {t : TokenType} (h : Lexical p) :
    Fitting (parserExpect fuel p t) fun r => Lexical r.2 := by
  unfold parserExpect
  refine Logged.agree_ite (fun _ => Logged.agree_pure h) fun _ => ?_
  exact Logged.agree_bind (advance_fitting _ _) fun _ h₁ => Logged.agree_pure h₁

theorem addChild_fitting (parent : ASTNode) (child : Option ASTNode) :
    Fitting (astNodeAddChild parent child) fun _ => True := by
  unfold astNodeAddChild
  refine Logged.agree_bind (Logged.agree_emit Iff.rfl) fun _ _ => ?_
  cases child with
  | none => exact Logged.agree_pure trivial
  | some c => exact Logged.agree_pure trivial

theorem addPresent_fitting (parent : ASTNode) (child : Option ASTNode) :
    Fitting (if child.isSome then astNodeAddChild parent child else pure parent) fun _ => True :=
  Logged.agree_ite (fun _ => addChild_fitting _ _) fun _ => Logged.agree_pure trivial

/-- What holds of a parser of expressions or statements. -/
def FittingParser (parse : NodeParser) : Prop :=
  ∀ p, Lexical p → Fitting (parse p) fun r => Lexical r.2

variable {fuel : Nat} {p : Parser} {node : ASTNode} {expr sub stmt : NodeParser}

theorem literal_fitting : Fitting (parseLiteral fuel node p) fun r => Lexical r.2 :=
  Logged.agree_bind (advance_fitting _ _) fun _ h₁ => Logged.agree_pure h₁

/-- The one place where integers are read. -/
theorem number_fitting (h : Lexical p) (htype : p.currentToken.type = .liczba) :
    Fitting (parseNumber fuel p) fun r => Lexical r.2 := by
  rw [parseNumber]
  refine Logged.agree_bind (M := fun _ => True) ?_ fun n _ => literal_fitting
  refine Logged.agree_ite (fun _ => Logged.agree_pure trivial) fun hdot => ?_
  have hdigits : ∀ c ∈ p.currentToken.value, c.isDigit := by
    intro c hc
    refine (h htype c hc).resolve_right ?_
    rintro rfl
    exact hdot hc
  refine Logged.agree_emit_bind trivial ?_ fun _ _ => trivial
  have hdefined := intLiteral_defined hdigits (by decide : 0 < 2 ^ 63)
  simp only [Logged.all_bind, Logged.all_pure, implies_true, and_true, intLiteral_fits]
  exact hdefined

theorem arguments_fitting (hexpr : FittingParser expr) (h : Lexical p) :
    Fitting (parseArguments expr fuel node p) fun r => Lexical r.2 := by
  induction fuel generalizing node p with
  | zero => exact Logged.agree_stop _
  | succ fuel ih =>
      rw [parseArguments]
      refine Logged.agree_bind (M := Lexical) (Logged.agree_ite (fun _ => advance_fitting _ _)
        fun _ => Logged.agree_pure h) fun p₁ h₁ => ?_
      refine Logged.agree_bind (hexpr p₁ h₁) fun r hr => ?_
      refine Logged.agree_bind (addPresent_fitting _ _) fun n _ => ?_
      exact Logged.agree_ite (fun _ => ih hr) fun _ => Logged.agree_pure hr

theorem argumentList_fitting (hexpr : FittingParser expr) (h : Lexical p) :
    Fitting (parseArgumentList expr fuel node p) fun r => Lexical r.2 := by
  rw [parseArgumentList]
  refine Logged.agree_bind (M := fun r => Lexical r.2) (Logged.agree_ite
    (fun _ => arguments_fitting hexpr h) fun _ => Logged.agree_pure h) fun r hr => ?_
  exact Logged.agree_bind (expect_fitting hr) fun r₁ h₁ => Logged.agree_pure h₁

theorem primary_fitting (hexpr : FittingParser expr) : FittingParser (parsePrimary expr fuel) := by
  intro p h
  unfold parsePrimary
  split
  case h_1 htype => exact number_fitting h htype
  case h_6 =>
    refine Logged.agree_bind (advance_fitting _ _) fun p₁ h₁ => ?_
    refine Logged.agree_ite (fun _ => ?_) fun _ => Logged.agree_pure h₁
    refine Logged.agree_bind (addChild_fitting _ _) fun call _ => ?_
    refine Logged.agree_bind (advance_fitting _ _) fun p₂ h₂ => ?_
    exact Logged.agree_bind (argumentList_fitting hexpr h₂) fun r hr => Logged.agree_pure hr
  case h_7 =>
    refine Logged.agree_bind (advance_fitting _ _) fun p₁ h₁ => ?_
    refine Logged.agree_bind (hexpr p₁ h₁) fun r hr => ?_
    exact Logged.agree_bind (expect_fitting hr) fun r₁ h₁ => Logged.agree_pure h₁
  case h_8 => exact Logged.agree_pure h
  all_goals exact literal_fitting

theorem unary_fitting (hexpr : FittingParser expr) : FittingParser (parseUnary expr fuel) := by
  intro p h
  induction fuel generalizing p with
  | zero => exact Logged.agree_stop _
  | succ fuel ih =>
      rw [parseUnary]
      refine Logged.agree_ite (fun _ => ?_) fun _ => primary_fitting hexpr p h
      refine Logged.agree_bind (advance_fitting _ _) fun p₁ h₁ => ?_
      refine Logged.agree_bind (ih p₁ h₁) fun r hr => ?_
      exact Logged.agree_bind (addChild_fitting _ _) fun n _ => Logged.agree_pure hr

theorem binaryLoop_fitting {ops : List TokenType} (hsub : FittingParser sub)
    {left : Option ASTNode} (h : Lexical p) :
    Fitting (binaryLoop ops sub fuel left p) fun r => Lexical r.2 := by
  induction fuel generalizing left p with
  | zero => exact Logged.agree_stop _
  | succ fuel ih =>
      rw [binaryLoop]
      refine Logged.agree_ite (fun _ => ?_) fun _ => Logged.agree_pure h
      refine Logged.agree_bind (advance_fitting _ _) fun p₁ h₁ => ?_
      refine Logged.agree_bind (hsub p₁ h₁) fun r hr => ?_
      refine Logged.agree_bind (addChild_fitting _ _) fun n _ => ?_
      exact Logged.agree_bind (addChild_fitting _ _) fun n' _ => ih hr

theorem binaryLevel_fitting {ops : List TokenType} (hsub : FittingParser sub) :
    FittingParser (binaryLevel ops sub fuel) := fun p h =>
  Logged.agree_bind (hsub p h) fun _ hr => binaryLoop_fitting hsub hr

theorem expression_fitting : FittingParser (parseExpression fuel) := by
  induction fuel with
  | zero => exact fun _ _ => Logged.agree_stop _
  | succ fuel ih =>
      exact binaryLevel_fitting (binaryLevel_fitting (binaryLevel_fitting (binaryLevel_fitting
        (unary_fitting ih))))

/-- `parser_expect` at the end of a construct. -/
theorem last_fitting {γ : Type} {a : γ} {t : TokenType} (h : Lexical p) :
    Fitting (parserExpect fuel p t >>= fun r => pure (a, r.2)) fun r => Lexical r.2 :=
  Logged.agree_bind (expect_fitting h) fun _ hr => Logged.agree_pure hr

theorem varDecl_fitting : FittingParser (parseVarDecl fuel) := by
  intro p _
  refine Logged.agree_bind (advance_fitting _ _) fun p₁ h₁ => ?_
  refine Logged.agree_ite (fun _ => Logged.agree_pure h₁) fun _ => ?_
  refine Logged.agree_bind (advance_fitting _ _) fun p₂ h₂ => ?_
  refine Logged.agree_bind (M := fun r => Lexical r.2) (Logged.agree_ite (fun _ => ?_)
    fun _ => Logged.agree_pure h₂) fun r hr => last_fitting hr
  refine Logged.agree_bind (advance_fitting _ _) fun p₃ h₃ => ?_
  refine Logged.agree_bind (expression_fitting p₃ h₃) fun r hr => ?_
  exact Logged.agree_bind (addChild_fitting _ _) fun n _ => Logged.agree_pure hr

theorem print_fitting : FittingParser (parsePrint fuel) := by
  intro p _
  refine Logged.agree_bind (advance_fitting _ _) fun p₁ h₁ => ?_
  refine Logged.agree_bind (expect_fitting h₁) fun r₂ h₂ => ?_
  exact Logged.agree_bind (argumentList_fitting expression_fitting h₂) fun r hr => last_fitting hr

theorem return_fitting : FittingParser (parseReturn fuel) := by
  intro p _
  refine Logged.agree_bind (advance_fitting _ _) fun p₁ h₁ => ?_
  refine Logged.agree_bind (M := fun r => Lexical r.2) (Logged.agree_ite (fun _ => ?_)
    fun _ => Logged.agree_pure h₁) fun r hr => last_fitting hr
  refine Logged.agree_bind (expression_fitting p₁ h₁) fun r hr => ?_
  exact Logged.agree_bind (addChild_fitting _ _) fun n _ => Logged.agree_pure hr

theorem jump_fitting {type : ASTNodeType} : FittingParser (parseJump fuel type) := fun _ _ =>
  Logged.agree_bind (advance_fitting _ _) fun _ h₁ => last_fitting h₁

theorem simple_fitting : FittingParser (parseSimple fuel) := by
  intro p _
  refine Logged.agree_bind (advance_fitting _ _) fun p₁ h₁ => ?_
  refine Logged.agree_ite (fun _ => ?_) fun _ => ?_
  · refine Logged.agree_bind (advance_fitting _ _) fun p₂ h₂ => ?_
    refine Logged.agree_bind (expression_fitting p₂ h₂) fun r hr => ?_
    exact Logged.agree_bind (addChild_fitting _ _) fun n _ => last_fitting hr
  · refine Logged.agree_bind (advance_fitting _ _) fun p₂ h₂ => ?_
    exact Logged.agree_bind (expression_fitting p₂ h₂) fun r hr => last_fitting hr

theorem blockLoop_fitting (hstmt : FittingParser stmt) (h : Lexical p) :
    Fitting (blockLoop stmt fuel node p) fun r => Lexical r.2 := by
  induction fuel generalizing node p with
  | zero => exact Logged.agree_stop _
  | succ fuel ih =>
      rw [blockLoop]
      refine Logged.agree_ite (fun _ => ?_) fun _ => Logged.agree_pure h
      refine Logged.agree_bind (Logged.agree_emit Iff.rfl) fun _ _ => ?_
      refine Logged.agree_bind (hstmt p h) fun r hr => ?_
      refine Logged.agree_bind (addPresent_fitting _ _) fun n _ => ?_
      refine Logged.agree_bind (Logged.agree_emit Iff.rfl) fun _ _ => ?_
      exact Logged.agree_ite (fun _ => Logged.agree_pure hr) fun _ => ih hr

theorem block_fitting (hstmt : FittingParser stmt) (h : Lexical p) :
    Fitting (parseBlock stmt fuel p) fun r => Lexical r.2 := by
  rw [parseBlock]
  refine Logged.agree_bind (expect_fitting h) fun r₁ h₁ => ?_
  exact Logged.agree_bind (blockLoop_fitting hstmt h₁) fun r hr => last_fitting hr

theorem conditional_fitting {type : ASTNodeType} (hstmt : FittingParser stmt) :
    Fitting (parseConditional stmt fuel type p) fun r => Lexical r.2 := by
  rw [parseConditional]
  refine Logged.agree_bind (advance_fitting _ _) fun p₁ h₁ => ?_
  refine Logged.agree_bind (expect_fitting h₁) fun r₂ h₂ => ?_
  refine Logged.agree_bind (expression_fitting _ h₂) fun r₃ h₃ => ?_
  refine Logged.agree_bind (expect_fitting h₃) fun r₄ h₄ => ?_
  refine Logged.agree_bind (block_fitting hstmt h₄) fun r₅ h₅ => ?_
  refine Logged.agree_bind (addChild_fitting _ _) fun n _ => ?_
  exact Logged.agree_bind (addChild_fitting _ _) fun n' _ => Logged.agree_pure h₅

theorem if_fitting (hstmt : FittingParser stmt) : FittingParser (parseIf stmt fuel) := by
  intro p _
  refine Logged.agree_bind (conditional_fitting hstmt) fun r₁ h₁ => ?_
  refine Logged.agree_ite (fun _ => ?_) fun _ => Logged.agree_pure h₁
  refine Logged.agree_bind (advance_fitting _ _) fun p₂ h₂ => ?_
  refine Logged.agree_bind (block_fitting hstmt h₂) fun r₃ h₃ => ?_
  exact Logged.agree_bind (addChild_fitting _ _) fun n _ => Logged.agree_pure h₃

theorem statement_fitting : FittingParser (parseStatement fuel) := by
  induction fuel with
  | zero => exact fun _ _ => Logged.agree_stop _
  | succ fuel ih =>
      intro p h
      rw [parseStatement]
      unfold parseStatementWith
      split
      case h_1 => exact varDecl_fitting p h
      case h_2 => exact print_fitting p h
      case h_3 => exact if_fitting ih p h
      case h_4 =>
        exact Logged.agree_bind (conditional_fitting ih) fun r hr => Logged.agree_pure hr
      case h_5 => exact return_fitting p h
      case h_6 => exact jump_fitting p h
      case h_7 => exact jump_fitting p h
      case h_8 => exact simple_fitting p h
      case h_9 => exact Logged.agree_bind (block_fitting ih h) fun r hr => Logged.agree_pure hr
      case h_10 => exact Logged.agree_pure h

theorem programLoop_fitting (h : Lexical p) :
    Fitting (programLoop fuel node p) fun r => Lexical r.2 := by
  induction fuel generalizing node p with
  | zero => exact Logged.agree_stop _
  | succ fuel ih =>
      rw [programLoop]
      refine Logged.agree_ite (fun _ => ?_) fun _ => Logged.agree_pure h
      refine Logged.agree_bind (Logged.agree_emit Iff.rfl) fun _ _ => ?_
      refine Logged.agree_bind (statement_fitting p h) fun r hr => ?_
      refine Logged.agree_bind (addPresent_fitting _ _) fun n _ => ?_
      refine Logged.agree_bind (Logged.agree_emit Iff.rfl) fun _ _ => ?_
      exact Logged.agree_ite (fun _ => Logged.agree_pure hr) fun _ => ih hr

/-- In a parse every operation is defined exactly when every literal fits. -/
theorem parseSource_fitting (source : Nat → Char) :
    Fitting (parseSource fuel source) fun r => Lexical r.2 := by
  refine Logged.agree_bind (M := Lexical) ⟨?_, ?_⟩ fun p h => programLoop_fitting h
  · simp [parserInit, Logged.all_bind]
  · intro p h
    rcases Logged.result_bind.mp h with ⟨⟨t, lex⟩, ht, h⟩
    cases h
    exact lexerNextToken_lexical (Logged.result_ofOption.mp ht)

/-! ## The interpreter -/

/-- The step of a run is an operation where it is defined, or no operation. -/
def OpDefined {σ : Type} : RunEvent σ → Prop
  | .arith op a b => op.Defined a b
  | .parse e => ParseDefined e
  | _ => True

/-- A memory of which the arithmetic asks nothing. -/
def plainMemory : Memory Unit where
  store _ _ := (1, ())
  kfree _ _ := some ()
  stringAt _ _ := []
  uninitialised _ := (0, ())

end PolandOS.PolskiScript
