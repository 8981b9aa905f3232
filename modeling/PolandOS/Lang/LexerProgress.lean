import PolandOS.Lang.LexerRoundTrip

/-! # The lexer moves on

In front of the NUL every call of `lexer_next_token` returns, and it moves on unless it is at
the NUL: `lexerNextToken_moves`. What it returns does not depend on the fuel:
`lexerNextToken_unique`.
-/

namespace PolandOS.PolskiScript

/-! ## Every call moves on -/

/-- The lexer is in front of the NUL at `N`. -/
structure InText (N : Nat) (lex : Lexer) : Prop where
  current : lex.currentChar = lex.source lex.pos
  pos : lex.pos ≤ N
  nul : lex.source N = nul

/-- The lexer has not moved back. -/
structure Moved (N : Nat) (lex lex' : Lexer) : Prop extends InText N lex' where
  source : lex'.source = lex.source
  forward : lex.pos ≤ lex'.pos

variable {N : Nat} {lex lex' lex'' : Lexer}

theorem InText.refl (h : InText N lex) : Moved N lex lex := ⟨h, rfl, Nat.le_refl _⟩

theorem Moved.trans (h : Moved N lex lex') (h' : Moved N lex' lex'') : Moved N lex lex'' :=
  ⟨h'.toInText, h'.source.trans h.source, Nat.le_trans h.forward h'.forward⟩

/-- The lexer stands on a character. -/
theorem InText.pos_lt (h : InText N lex) (hc : lex.currentChar ≠ PolskiScript.nul) :
    lex.pos < N := by
  refine Nat.lt_of_le_of_ne h.pos ?_
  intro heq
  rw [h.current, heq] at hc
  exact hc h.nul

theorem InText.advance (h : InText N lex) : Moved N lex (lexerAdvance lex) := by
  unfold lexerAdvance
  split
  case isTrue hnul => exact ⟨⟨hnul.symm, h.pos, h.nul⟩, rfl, Nat.le_refl _⟩
  case isFalse hc =>
    have hpos := h.pos_lt (h.current ▸ hc)
    exact ⟨⟨rfl, hpos, h.nul⟩, rfl, Nat.le_succ _⟩

theorem InText.advance_lt (h : InText N lex) (hc : lex.currentChar ≠ PolskiScript.nul) :
    lex.pos < (lexerAdvance lex).pos := by
  rw [lexerAdvance, if_neg (h.current ▸ hc)]
  exact Nat.lt_succ_self _

/-- A scanning loop comes to an end. -/
theorem scanWhile_moves {q : Char → Bool} (hq : q nul = false) {fuel : Nat} (buf : List Char)
    (h : InText N lex) (hfuel : N - lex.pos < fuel) :
    ∃ buf' lex', scanWhile q fuel buf lex = some (buf', lex') ∧ Moved N lex lex' ∧
      (q lex.currentChar → lex.pos < lex'.pos) := by
  induction fuel generalizing buf lex with
  | zero => omega
  | succ fuel ih =>
      rw [scanWhile]
      split
      case isFalse hstop => exact ⟨buf, lex, rfl, h.refl, fun hgo => absurd hgo hstop⟩
      case isTrue hgo =>
        have hc : lex.currentChar ≠ PolskiScript.nul := by
          intro hc
          rw [hc, hq] at hgo
          cases hgo
        have hlt := h.advance_lt hc
        have hpos := h.advance.pos
        rcases ih (push buf lex.currentChar) h.advance.toInText (by omega) with
          ⟨buf', lex', hscan, hmoved, -⟩
        exact ⟨buf', lex', hscan, h.advance.trans hmoved,
          fun _ => Nat.lt_of_lt_of_le hlt hmoved.forward⟩

/-- The loop over a number ends, and takes at least the digit that it starts with. -/
theorem numberLoop_moves {fuel : Nat} (isFloat : Bool) (num : List Char) (h : InText N lex)
    (hfuel : N - lex.pos < fuel) :
    ∃ num' lex', numberLoop fuel isFloat num lex = some (num', lex') ∧ Moved N lex lex' ∧
      (lex.currentChar.isDigit → lex.pos < lex'.pos) := by
  induction fuel generalizing isFloat num lex with
  | zero => omega
  | succ fuel ih =>
      rw [numberLoop]
      split
      case isFalse hstop =>
        exact ⟨num, lex, rfl, h.refl, fun hdigit => absurd (.inl hdigit) hstop⟩
      case isTrue hgo =>
        split
        case isTrue hdot =>
          refine ⟨num, lex, rfl, h.refl, fun hdigit => ?_⟩
          rw [hdot.1] at hdigit
          exact absurd hdigit (by decide)
        case isFalse =>
          have hc : lex.currentChar ≠ PolskiScript.nul := by
            intro hc
            rw [hc] at hgo
            exact absurd hgo (by decide)
          have hlt := h.advance_lt hc
          have hpos := h.advance.pos
          rcases ih (isFloat || lex.currentChar == '.')
              (push num lex.currentChar) h.advance.toInText (by omega) with
            ⟨num', lex', hscan, hmoved, -⟩
          exact ⟨num', lex', hscan, h.advance.trans hmoved,
            fun _ => Nat.lt_of_lt_of_le hlt hmoved.forward⟩

/-- A token has been read: the lexer stands behind it, unless it is the last. -/
structure HasRead (N : Nat) (lex : Lexer) (tok : Token) (lex' : Lexer) : Prop
    extends Moved N lex lex' where
  moved : tok.type ≠ .koniec → lex.pos < lex'.pos

theorem Moved.hasRead {tok : Token} (h : Moved N lex lex') (hlt : lex.pos < lex'.pos) :
    HasRead N lex tok lex' :=
  ⟨h, fun _ => hlt⟩

theorem lexerOperator_moves (h : InText N lex) (hc : lex.currentChar ≠ PolskiScript.nul) :
    HasRead N lex (lexerOperator lex).1 (lexerOperator lex).2 := by
  have hlt := h.advance_lt hc
  have hone := h.advance
  cases htwo : twoCharType lex.currentChar (lexerPeek lex) with
  | none =>
      simp only [lexerOperator, htwo]
      exact hone.hasRead hlt
  | some type =>
      simp only [lexerOperator, htwo]
      exact (hone.trans hone.advance).hasRead (Nat.lt_of_lt_of_le hlt hone.advance.forward)

/-- With fuel for the rest of the text, a token is returned, and the lexer has moved on unless
the text is at its end. -/
theorem lexerNextToken_moves {fuel : Nat} (h : InText N lex) (hfuel : N - lex.pos + 1 < fuel) :
    ∃ tok lex', lexerNextToken fuel lex = some (tok, lex') ∧ HasRead N lex tok lex' := by
  induction fuel generalizing lex with
  | zero => omega
  | succ fuel ih =>
      -- what is skipped leaves less to read
      have hskip : ∀ {lex₁ : Lexer}, Moved N lex lex₁ → lex.pos < lex₁.pos →
          ∃ tok lex', lexerNextToken fuel lex₁ = some (tok, lex') ∧ HasRead N lex tok lex' := by
        intro lex₁ hmoved hlt
        have hpos := hmoved.pos
        rcases ih hmoved.toInText (by omega) with ⟨tok, lex', htok, hread⟩
        exact ⟨tok, lex', htok, hmoved.trans hread.toMoved,
          fun hne => Nat.lt_trans hlt (hread.moved hne)⟩
      have hchars : N - lex.pos < fuel := by omega
      rw [lexerNextToken]
      split
      case isTrue hend => exact ⟨_, lex, rfl, h.refl, fun hne => absurd rfl hne⟩
      split
      case isTrue hspace =>
        rcases scanWhile_moves (q := isSpace) (by decide) [] h hchars with
          ⟨buf, lex₁, hscan, hmoved, hlt⟩
        rw [lexerSkipWhitespace, hscan]
        exact hskip hmoved (hlt hspace)
      split
      case isTrue hcomment =>
        rcases scanWhile_moves (q := fun c => c != '\n' && c != PolskiScript.nul)
          (by decide) [] h hchars with ⟨buf, lex₁, hscan, hmoved, hlt⟩
        rw [lexerSkipComment, if_pos hcomment, hscan]
        exact hskip hmoved (hlt (by rw [hcomment.1]; decide))
      rename_i hnul _ _
      split
      case isTrue hdigit =>
        rcases numberLoop_moves false [] h hchars with
          ⟨num, lex', hscan, hmoved, hlt⟩
        refine ⟨lexerMakeToken .liczba num lex.line lex.column, lex', ?_,
          hmoved.hasRead (hlt hdigit)⟩
        rw [lexerNumber, hscan]
        rfl
      split
      case isTrue hquote =>
        have hlt := h.advance_lt hnul
        have hbehind : N - (lexerAdvance lex).pos < fuel := by omega
        rcases scanWhile_moves (q := fun c => c != quote && c != PolskiScript.nul)
          (by decide) [] h.advance.toInText hbehind with
          ⟨str, lex₁, hscan, hmoved, -⟩
        have hclose : Moved N lex₁
            (if lex₁.currentChar = quote then lexerAdvance lex₁ else lex₁) := by
          split
          · exact hmoved.advance
          · exact hmoved.toInText.refl
        have hall := h.advance.trans (hmoved.trans hclose)
        refine ⟨lexerMakeToken .tekst str lex.line lex.column, _, ?_, hall.hasRead ?_⟩
        · rw [lexerString, hscan]
          rfl
        · exact Nat.lt_of_lt_of_le hlt (hmoved.trans hclose).forward
      split
      case isTrue hident =>
        rcases scanWhile_moves (q := isIdentChar) (by decide) [] h hchars with
          ⟨word, lex', hscan, hmoved, hlt⟩
        refine ⟨lexerMakeToken (wordType word) word lex.line lex.column, lex', ?_,
          hmoved.hasRead (hlt ?_)⟩
        · rw [lexerIdentifier, hscan]
          rfl
        · simp only [isIdentStart, isIdentChar, Bool.or_eq_true] at hident ⊢
          exact hident.imp .inl id
      case isFalse => exact ⟨_, _, rfl, lexerOperator_moves h hnul⟩

/-! ## The fuel -/

variable {n : Nat} {q : Char → Bool} {buf : List Char}

theorem scanWhile_succ {r : List Char × Lexer} (h : scanWhile q n buf lex = some r) :
    scanWhile q (n + 1) buf lex = some r := by
  induction n generalizing buf lex with
  | zero => cases h
  | succ n ih =>
      rw [scanWhile] at h ⊢
      split at h
      · rw [if_pos ‹_›]
        exact ih h
      · rw [if_neg ‹_›]
        exact h

theorem numberLoop_succ {isFloat : Bool} {r : List Char × Lexer}
    (h : numberLoop n isFloat buf lex = some r) : numberLoop (n + 1) isFloat buf lex = some r := by
  induction n generalizing isFloat buf lex with
  | zero => cases h
  | succ n ih =>
      rw [numberLoop] at h ⊢
      split at h
      · rw [if_pos ‹_›]
        split at h
        · rw [if_pos ‹_›]
          exact h
        · rw [if_neg ‹_›]
          exact ih h
      · rw [if_neg ‹_›]
        exact h

/-- A computation that goes on from a scan. -/
theorem bind_scan_succ {α β : Type} {x x' : Option α} {g g' : α → Option β} {r : β}
    (hx : ∀ a, x = some a → x' = some a) (hg : ∀ a, g a = some r → g' a = some r)
    (h : x.bind g = some r) : x'.bind g' = some r := by
  rcases Option.bind_eq_some_iff.mp h with ⟨a, ha, hr⟩
  exact Option.bind_eq_some_iff.mpr ⟨a, hx a ha, hg a hr⟩

theorem map_scan_succ {α β : Type} {x x' : Option α} {g : α → β} {r : β}
    (hx : ∀ a, x = some a → x' = some a) (h : x.map g = some r) : x'.map g = some r := by
  rcases Option.map_eq_some_iff.mp h with ⟨a, ha, hr⟩
  exact Option.map_eq_some_iff.mpr ⟨a, hx a ha, hr⟩

theorem lexerNextToken_succ {r : Token × Lexer} (h : lexerNextToken n lex = some r) :
    lexerNextToken (n + 1) lex = some r := by
  induction n generalizing lex with
  | zero => cases h
  | succ n ih =>
      rw [lexerNextToken] at h ⊢
      split_ifs at h ⊢
      · exact h
      · exact bind_scan_succ (fun _ => map_scan_succ fun _ => scanWhile_succ) (fun _ => ih) h
      · refine bind_scan_succ (fun a ha => ?_) (fun _ => ih) h
        rw [lexerSkipComment, if_pos ‹_›] at ha ⊢
        exact map_scan_succ (fun _ => scanWhile_succ) ha
      · exact bind_scan_succ (fun _ => numberLoop_succ) (fun _ => id) h
      · exact bind_scan_succ (fun _ => scanWhile_succ) (fun _ => id) h
      · exact bind_scan_succ (fun _ => scanWhile_succ) (fun _ => id) h
      · exact h

theorem lexerNextToken_le {m : Nat} {r : Token × Lexer} (h : lexerNextToken n lex = some r)
    (hm : n ≤ m) : lexerNextToken m lex = some r := by
  induction m, hm using Nat.le_induction with
  | base => exact h
  | succ m _ ih => exact lexerNextToken_succ ih

/-- The next token does not depend on the fuel. -/
theorem lexerNextToken_unique {m : Nat} {r r' : Token × Lexer} (h : lexerNextToken n lex = some r)
    (h' : lexerNextToken m lex = some r') : r = r' := by
  have hmore := lexerNextToken_le h (Nat.le_max_left n m)
  have hmore' := lexerNextToken_le h' (Nat.le_max_right n m)
  exact Option.some.inj (hmore.symm.trans hmore')

end PolandOS.PolskiScript
