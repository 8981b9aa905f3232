import PolandOS.Lang.LexerRoundTrip
import PolandOS.Lang.ParserInvariant

/-! # The backtrack of the parser

A statement that begins with an identifier is looked at twice: where no `=` follows, the
lexer is moved back. The backtrack takes the column of the identifier for its position,
and restores neither the line nor the column. `parser_consumes_stream`: the parser
consumes the tokens of the source as it should exactly when it never backtracks.
-/

namespace PolandOS.PolskiScript

open Logging

/-- The current token has been read by the lexer as a word, from `start` on. -/
def ReadFrom (start : Lexer) (p : Parser) : Prop :=
  isIdentStart start.currentChar ∧
    ∃ fuel, lexerIdentifier fuel start = some (p.currentToken, p.lexer)

/-- The tokens from `lex` on, read one after another; and the lexer behind each. -/
inductive InTurn (lex : Lexer) : Token → Lexer → Prop
  | first {fuel : Nat} {tok : Token} {lex' : Lexer} :
      lexerNextToken fuel lex = some (tok, lex') → InTurn lex tok lex'
  | next {fuel : Nat} {tok tok' : Token} {lex' lex'' : Lexer} : InTurn lex tok lex' →
      lexerNextToken fuel lex' = some (tok', lex'') → InTurn lex tok' lex''

/-- The parser stands in the token stream of the source: it has consumed the tokens up to
the current one, each once and in their order. -/
def InStream (source : Nat → Char) (p : Parser) : Prop :=
  InTurn (lexerInit source) p.currentToken p.lexer

/-- Where no `=` follows the identifier, the lexer is put back to where it starts. -/
def Restores (p : Parser) : Prop :=
  ∀ start, ReadFrom start p → ∀ fuel tok lex, lexerNextToken fuel p.lexer = some (tok, lex) →
    tok.type ≠ .przypisanie → backtrack lex p.currentToken = start

/-- The parse backtracks to where its identifiers start, and consumes the token stream. -/
structure ConsumesStream (fuel : Nat) (source : Nat → Char) : Prop where
  restores : ∀ p, ParseEvent.loopHead p ∈ (parseSource fuel source).log →
    p.currentToken.type = .identyfikator → Restores p
  heads : ∀ p, ParseEvent.loopHead p ∈ (parseSource fuel source).log → InStream source p
  last : ∀ r, (parseSource fuel source).result = .ok r → InStream source r.2

/-! ## The lexer counts lines and columns -/

/-- In the order of lines, and of columns within a line. -/
def NotBefore (lex lex' : Lexer) : Prop :=
  lex.line < lex'.line ∨ lex.line = lex'.line ∧ lex.column ≤ lex'.column

variable {lex lex' lex'' : Lexer} {fuel : Nat}

theorem NotBefore.refl (lex : Lexer) : NotBefore lex lex := .inr ⟨rfl, Nat.le_refl _⟩

theorem NotBefore.trans (h : NotBefore lex lex') (h' : NotBefore lex' lex'') :
    NotBefore lex lex'' := by
  unfold NotBefore at *
  omega

theorem notBefore_advance (lex : Lexer) : NotBefore lex (lexerAdvance lex) := by
  unfold lexerAdvance
  split
  · exact .refl lex
  · by_cases hc : lex.currentChar = '\n'
    · left
      rw [if_pos hc]
      exact Nat.lt_succ_self _
    · right
      rw [if_neg hc, if_neg hc]
      exact ⟨rfl, Nat.le_succ _⟩

theorem notBefore_scanWhile {q : Char → Bool} {buf buf' : List Char}
    (h : scanWhile q fuel buf lex = some (buf', lex')) : NotBefore lex lex' := by
  induction fuel generalizing buf lex with
  | zero => cases h
  | succ fuel ih =>
      rw [scanWhile] at h
      split at h
      · exact (notBefore_advance lex).trans (ih h)
      · cases h
        exact .refl _

theorem notBefore_numberLoop {isFloat : Bool} {num num' : List Char}
    (h : numberLoop fuel isFloat num lex = some (num', lex')) : NotBefore lex lex' := by
  induction fuel generalizing isFloat num lex with
  | zero => cases h
  | succ fuel ih =>
      rw [numberLoop] at h
      split at h
      · split at h
        · cases h
          exact .refl _
        · exact (notBefore_advance lex).trans (ih h)
      · cases h
        exact .refl _

theorem oneCharType_ne_word (a : Char) : oneCharType a ≠ .identyfikator := by
  unfold oneCharType
  split <;> decide

theorem twoCharType_ne_word (a b : Char) : twoCharType a b ≠ some .identyfikator := by
  unfold twoCharType
  repeat' split
  all_goals simp

/-- Words are read by `lexer_identifier`, and no token ends before where it was asked for. -/
theorem lexerNextToken_cases {tok : Token} (h : lexerNextToken fuel lex = some (tok, lex')) :
    NotBefore lex lex' ∧ (tok.type = .identyfikator → ∃ start fuel',
      isIdentStart start.currentChar ∧ lexerIdentifier fuel' start = some (tok, lex')) := by
  -- the branches in the order of the source; only the one of words returns an identifier
  induction fuel generalizing lex with
  | zero => cases h
  | succ fuel ih =>
      rw [lexerNextToken] at h
      split at h
      · cases h
        refine ⟨.refl _, fun ht => ?_⟩
        cases ht
      split at h
      · rcases Option.bind_eq_some_iff.mp h with ⟨lex₁, hskip, h⟩
        rcases Option.map_eq_some_iff.mp hskip with ⟨⟨buf, _⟩, hscan, rfl⟩
        exact ⟨(notBefore_scanWhile hscan).trans (ih h).1, (ih h).2⟩
      split at h
      case isTrue hcomment =>
        rcases Option.bind_eq_some_iff.mp h with ⟨lex₁, hskip, h⟩
        rw [lexerSkipComment, if_pos hcomment] at hskip
        rcases Option.map_eq_some_iff.mp hskip with ⟨⟨buf, _⟩, hscan, rfl⟩
        exact ⟨(notBefore_scanWhile hscan).trans (ih h).1, (ih h).2⟩
      split at h
      · rcases Option.bind_eq_some_iff.mp h with ⟨⟨num, lex₁⟩, hnum, h⟩
        cases h
        refine ⟨notBefore_numberLoop hnum, fun ht => ?_⟩
        cases ht
      split at h
      · rcases Option.bind_eq_some_iff.mp h with ⟨⟨str, lex₁⟩, hscan, h⟩
        cases h
        refine ⟨((notBefore_advance lex).trans (notBefore_scanWhile hscan)).trans ?_, fun ht => ?_⟩
        · split
          · exact notBefore_advance _
          · exact .refl _
        · cases ht
      split at h
      case isTrue hstart =>
        refine ⟨?_, fun _ => ⟨lex, fuel, hstart, h⟩⟩
        rcases Option.bind_eq_some_iff.mp h with ⟨⟨word, lex₁⟩, hscan, h⟩
        cases h
        exact notBefore_scanWhile hscan
      case isFalse =>
        cases htwo : twoCharType lex.currentChar (lexerPeek lex) with
        | none =>
            simp only [lexerOperator, htwo] at h
            cases h
            refine ⟨notBefore_advance lex, fun ht => ?_⟩
            exact absurd ht (oneCharType_ne_word _)
        | some type =>
            simp only [lexerOperator, htwo] at h
            cases h
            refine ⟨(notBefore_advance lex).trans (notBefore_advance _), fun ht => ?_⟩
            exact absurd (htwo.trans (congrArg some ht)) (twoCharType_ne_word _ _)

/-! ## The backtrack -/

variable {p : Parser} {source : Nat → Char}

/-- An identifier is at least one character long, and stands on one line. -/
theorem ReadFrom.behind {start : Lexer} (h : ReadFrom start p)
    (hcurrent : start.currentChar = start.source start.pos) :
    start.line < p.lexer.line ∨ start.line = p.lexer.line ∧ start.column < p.lexer.column := by
  rcases h with ⟨hstart, fuel, hid⟩
  rcases Option.bind_eq_some_iff.mp hid with ⟨⟨word, lex⟩, hscan, hid⟩
  have hlex : lex = p.lexer := (Prod.mk.inj (Option.some.inj hid)).2
  subst hlex
  have hchar : isIdentChar start.currentChar := by
    simp only [isIdentStart, isIdentChar, Bool.or_eq_true] at hstart ⊢
    exact hstart.imp .inl id
  have hnul : start.source start.pos ≠ nul := by
    rw [← hcurrent]
    intro hc
    rw [hc] at hstart
    cases hstart
  have hline : start.currentChar ≠ '\n' := by
    intro hc
    rw [hc] at hstart
    cases hstart
  cases fuel with
  | zero => cases hscan
  | succ fuel =>
      rw [scanWhile, if_pos hchar] at hscan
      have hrest := notBefore_scanWhile hscan
      have hfirst : (lexerAdvance start).line = start.line ∧
          (lexerAdvance start).column = start.column + 1 := by
        rw [lexerAdvance, if_neg hnul]
        exact ⟨if_neg hline, if_neg hline⟩
      unfold NotBefore at hrest
      omega

/-- The line and the column stay where the lexer was behind the token that follows. -/
theorem backtrack_ne {start : Lexer} (h : ReadFrom start p) {tok : Token}
    (hnext : lexerNextToken fuel p.lexer = some (tok, lex)) :
    backtrack lex p.currentToken ≠ start := by
  intro heq
  have hline : lex.line = start.line := by
    rw [← heq]
    rfl
  have hcolumn : lex.column = start.column := by
    rw [← heq]
    rfl
  have hcurrent : start.currentChar = start.source start.pos := by
    rw [← heq]
    rfl
  have hbehind := h.behind hcurrent
  have hafter := (lexerNextToken_cases hnext).1
  unfold NotBefore at hafter
  omega

/-- The current token has been read by the lexer. -/
def Fresh (p : Parser) : Prop :=
  ∃ fuel lex, lexerNextToken fuel lex = some (p.currentToken, p.lexer)

theorem fresh_invariant : ParserInvariant (fun _ => True) Fresh where
  advance _ h := ⟨_, _, h⟩
  error _ _ h := h
  backtrack _ _ _ _ h := ⟨_, _, h⟩

/-- Where the parser does not backtrack, it reads on. -/
theorem inStream_invariant (source : Nat → Char) :
    ParserInvariant (fun p => ¬Backtracks p) (InStream source) where
  advance h hnext := .next h hnext
  error _ _ h := h
  backtrack _ hno hback _ _ := absurd hback hno

theorem Fresh.readFrom (h : Fresh p) (hid : p.currentToken.type = .identyfikator) :
    ∃ start, ReadFrom start p := by
  rcases h with ⟨fuel, lex, h⟩
  rcases (lexerNextToken_cases h).2 hid with ⟨start, fuel', hstart, hread⟩
  exact ⟨start, hstart, fuel', hread⟩

/-- The parser goes back to where its identifiers start and consumes the tokens of the
source, each once and in their order, exactly when no statement that it comes to begins
with an identifier that no `=` follows. -/
theorem parser_consumes_stream (fuel : Nat) (source : Nat → Char) :
    ConsumesStream fuel source ↔
      ∀ p, ParseEvent.loopHead p ∈ (parseSource fuel source).log → ¬Backtracks p := by
  constructor
  · rintro hconsumes p hp ⟨hid, n, tok, lex, hnext, hne⟩
    have hall : (parseSource fuel source).All (AtHeads fun _ => True) := by
      intro e _
      cases e <;> trivial
    have hkeeps : Keeps (fun _ => True) Fresh (parseSource fuel source) fun r => Fresh r.2 :=
      parseSource_keeps fresh_invariant fun _ _ h => ⟨_, _, h⟩
    have hfresh := under_iff.mp hkeeps hall
    rcases Fresh.readFrom (hfresh.1 _ hp) hid with ⟨start, hread⟩
    exact backtrack_ne hread hnext (hconsumes.restores p hp hid start hread n tok lex hnext hne)
  · intro hno
    have hall : (parseSource fuel source).All (AtHeads fun p => ¬Backtracks p) := by
      intro e he
      cases e with
      | loopHead p => exact hno p he
      | _ => trivial
    have hkeeps : Keeps (fun p => ¬Backtracks p) (InStream source) (parseSource fuel source)
        fun r => InStream source r.2 :=
      parseSource_keeps (inStream_invariant source) fun _ _ h => .first h
    have hstream := under_iff.mp hkeeps hall
    refine ⟨?_, fun p hp => hstream.1 _ hp, hstream.2⟩
    intro p hp hid start _ n tok lex hnext hne
    exact absurd ⟨hid, n, tok, lex, hnext, hne⟩ (hno p hp)

/-- `a=1;` and, on the second line, `b;`: the lexer goes back to `a`. -/
theorem backtrack_second_line : ¬ConsumesStream 60 (sourceOf "a=1;\nb;".toList) := by
  intro h
  have hhead : ∃ p, (parseSource 60 (sourceOf "a=1;\nb;".toList)).log[7]? =
      some (.loopHead p) ∧ p.currentToken = ⟨.identyfikator, ['b'], 2, 1⟩ ∧
      p.lexer = ⟨sourceOf "a=1;\nb;".toList, 6, 2, 2, ';'⟩ := ⟨_, rfl, rfl, rfl⟩
  rcases hhead with ⟨p, hlog, htoken, hlexer⟩
  have hrestores := h.restores p (List.mem_of_getElem? hlog) (by rw [htoken])
  -- the identifier starts at position 5
  have hread : ReadFrom ⟨sourceOf "a=1;\nb;".toList, 5, 2, 1, 'b'⟩ p := by
    refine ⟨by decide, 2, ?_⟩
    rw [htoken, hlexer]
    rfl
  have heq := hrestores _ hread 1 ⟨.srednikropek, [';'], 2, 2⟩
    ⟨sourceOf "a=1;\nb;".toList, 7, 2, 3, nul⟩ (by rw [hlexer]; rfl) (by decide)
  rw [htoken] at heq
  have hpos : 0 = 5 := congrArg Lexer.pos heq
  cases hpos

end PolandOS.PolskiScript
