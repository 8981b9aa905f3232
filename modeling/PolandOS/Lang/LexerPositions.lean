import PolandOS.Lang.LexerProgress

/-! # Where the tokens are

The lexer once more, with every read of the source checked: a read behind the NUL fails.
`lexer_progress`: from every state that calls of `lexer_next_token` reach, the next call
returns and does not fail, it moves on or is at the NUL, and the line and the column of the
token are those of its first character.
-/

namespace PolandOS.PolskiScript

open Fuel

/-! ## Checked reads -/

namespace Checked

section Source

variable (N : Nat)

/-- `lex->source[i]`, of a source with its NUL at `N`. -/
def sourceAt (lex : Lexer) (i : Nat) : Option Char := if i ≤ N then some (lex.source i) else none

/-- `lexer_advance`. -/
def lexerAdvance (lex : Lexer) : Option Lexer :=
  (sourceAt N lex lex.pos).bind fun here =>
    if here = nul then some { lex with currentChar := nul }
    else
      (sourceAt N lex (lex.pos + 1)).map fun next =>
        { lex with
          line := if lex.currentChar = '\n' then lex.line + 1 else lex.line
          column := if lex.currentChar = '\n' then 1 else lex.column + 1
          pos := lex.pos + 1
          currentChar := next }

/-- `lexer_peek`. -/
def lexerPeek (lex : Lexer) : Option Char := sourceAt N lex (lex.pos + 1)

/-- `lex->current_char == '/' && lexer_peek(lex) == '/'`. -/
def startsComment (lex : Lexer) : Option Bool :=
  if lex.currentChar = '/' then (lexerPeek N lex).map (· == '/') else some false

/-- A scanning loop. -/
def scanWhile (p : Char → Bool) : Nat → List Char → Lexer → Option (List Char × Lexer)
  | 0, _, _ => none
  | fuel + 1, buf, lex =>
    if p lex.currentChar then
      (lexerAdvance N lex).bind (scanWhile p fuel (push buf lex.currentChar))
    else some (buf, lex)

/-- `lexer_skip_whitespace`. -/
def lexerSkipWhitespace (fuel : Nat) (lex : Lexer) : Option Lexer :=
  (scanWhile N isSpace fuel [] lex).map Prod.snd

/-- `lexer_skip_comment`. -/
def lexerSkipComment (fuel : Nat) (lex : Lexer) : Option Lexer :=
  (startsComment N lex).bind fun comment =>
    if comment then
      (scanWhile N (fun c => c != '\n' && c != nul) fuel [] lex).map Prod.snd
    else some lex

/-- The loop of `lexer_number`. -/
def numberLoop : Nat → Bool → List Char → Lexer → Option (List Char × Lexer)
  | 0, _, _, _ => none
  | fuel + 1, isFloat, num, lex =>
    if lex.currentChar.isDigit ∨ lex.currentChar = '.' then
      if lex.currentChar = '.' ∧ isFloat then some (num, lex)
      else
        (lexerAdvance N lex).bind
          (numberLoop fuel (isFloat || lex.currentChar == '.') (push num lex.currentChar))
    else some (num, lex)

/-- `lexer_number`. -/
def lexerNumber (fuel : Nat) (lex : Lexer) : Option (Token × Lexer) := do
  let (num, lex') ← numberLoop N fuel false [] lex
  return (lexerMakeToken .liczba num lex.line lex.column, lex')

/-- `lexer_string`. -/
def lexerString (fuel : Nat) (lex : Lexer) : Option (Token × Lexer) := do
  let inside ← lexerAdvance N lex
  let (str, lex') ← scanWhile N (fun c => c != quote && c != nul) fuel [] inside
  let behind ← if lex'.currentChar = quote then lexerAdvance N lex' else some lex'
  return (lexerMakeToken .tekst str lex.line lex.column, behind)

/-- `lexer_identifier`. -/
def lexerIdentifier (fuel : Nat) (lex : Lexer) : Option (Token × Lexer) := do
  let (id, lex') ← scanWhile N isIdentChar fuel [] lex
  return (lexerMakeToken (wordType id) id lex.line lex.column, lex')

/-- The last part of `lexer_next_token`. -/
def lexerOperator (lex : Lexer) : Option (Token × Lexer) := do
  let next ← lexerPeek N lex
  let lex' ← lexerAdvance N lex
  match twoCharType lex.currentChar next with
  | some type =>
    let lex'' ← lexerAdvance N lex'
    return (lexerMakeToken type [lex.currentChar, next] lex.line lex.column, lex'')
  | none =>
    return (lexerMakeToken (oneCharType lex.currentChar) [lex.currentChar] lex.line lex.column,
      lex')

/-- `lexer_next_token`. -/
def lexerNextToken : Nat → Lexer → Option (Token × Lexer)
  | 0, _ => none
  | fuel + 1, lex =>
    if lex.currentChar = nul then
      some (lexerMakeToken .koniec [] lex.line lex.column, lex)
    else if isSpace lex.currentChar then
      (lexerSkipWhitespace N fuel lex).bind (lexerNextToken fuel)
    else
      (startsComment N lex).bind fun comment =>
        if comment then (lexerSkipComment N fuel lex).bind (lexerNextToken fuel)
        else if lex.currentChar.isDigit then lexerNumber N fuel lex
        else if lex.currentChar = quote then lexerString N fuel lex
        else if isIdentStart lex.currentChar then lexerIdentifier N fuel lex
        else lexerOperator N lex

end Source

end Checked

variable {N fuel k : Nat} {source : Nat → Char} {q : Char → Bool} {buf buf' : List Char}
  {lex lex' : Lexer} {tok : Token} {toks : List Token}

theorem InText.after (h : InText N lex) (k : Nat) : Moved N lex (skip k lex) := by
  induction k generalizing lex with
  | zero => exact h.refl
  | succ k ih => exact h.advance.trans (ih h.advance.toInText)

/-- A scanning loop advances over characters that satisfy `q`, to one that does not. -/
theorem scanWhile_skips (h : scanWhile q fuel buf lex = some (buf', lex')) :
    ∃ k, lex' = skip k lex ∧ (∀ i < k, q (skip i lex).currentChar) ∧
      q lex'.currentChar = false := by
  induction fuel generalizing buf lex with
  | zero => cases h
  | succ fuel ih =>
      rw [scanWhile] at h
      split at h
      case isTrue hgo =>
        rcases ih h with ⟨k, hk, hall, hend⟩
        refine ⟨k + 1, hk, fun i hi => ?_, hend⟩
        cases i with
        | zero => exact hgo
        | succ i => exact hall i (Nat.lt_of_succ_lt_succ hi)
      case isFalse hstop =>
        cases h
        exact ⟨0, rfl, fun i hi => absurd hi (Nat.not_lt_zero i), Bool.not_eq_true _ ▸ hstop⟩

/-! ## No read fails -/

theorem InText.checked_advance (h : InText N lex) :
    Checked.lexerAdvance N lex = some (lexerAdvance lex) := by
  unfold Checked.lexerAdvance lexerAdvance Checked.sourceAt
  rw [if_pos h.pos, Option.bind_some]
  split
  case isTrue => rfl
  case isFalse hc =>
    have hin : lex.pos + 1 ≤ N := h.pos_lt (h.current ▸ hc)
    rw [if_pos hin]
    rfl

theorem InText.checked_peek (h : InText N lex) (hc : lex.currentChar ≠ PolskiScript.nul) :
    Checked.lexerPeek N lex = some (lexerPeek lex) := if_pos (h.pos_lt hc)

theorem InText.checked_startsComment (h : InText N lex) :
    Checked.startsComment N lex = some (decide (lex.currentChar = '/' ∧ lexerPeek lex = '/')) := by
  unfold Checked.startsComment
  by_cases hslash : lex.currentChar = '/'
  · have hc : lex.currentChar ≠ PolskiScript.nul := by
      rw [hslash]
      decide
    rw [if_pos hslash, h.checked_peek hc]
    simp [hslash, beq_eq_decide]
  · rw [if_neg hslash]
    simp [hslash]

theorem InText.checked_scanWhile (h : InText N lex) :
    Checked.scanWhile N q fuel buf lex = scanWhile q fuel buf lex := by
  induction fuel generalizing buf lex with
  | zero => rfl
  | succ fuel ih =>
      rw [Checked.scanWhile, scanWhile, h.checked_advance, Option.bind_some,
        ih h.advance.toInText]

theorem InText.checked_numberLoop (h : InText N lex) (isFloat : Bool) :
    Checked.numberLoop N fuel isFloat buf lex = numberLoop fuel isFloat buf lex := by
  induction fuel generalizing isFloat buf lex with
  | zero => rfl
  | succ fuel ih =>
      rw [Checked.numberLoop, numberLoop, h.checked_advance, Option.bind_some,
        ih h.advance.toInText]

theorem InText.checked_string (h : InText N lex) :
    Checked.lexerString N fuel lex = lexerString fuel lex := by
  have hscan : Checked.scanWhile N (fun c => c != quote && c != PolskiScript.nul) fuel []
      (lexerAdvance lex) = _ := h.advance.toInText.checked_scanWhile
  rw [Checked.lexerString, lexerString, h.checked_advance]
  dsimp only [Option.bind_eq_bind, Option.bind_some]
  rw [hscan]
  cases hr : scanWhile (fun c => c != quote && c != PolskiScript.nul) fuel []
      (lexerAdvance lex) with
  | none => rfl
  | some r =>
      rcases r with ⟨str, lex'⟩
      rcases scanWhile_skips hr with ⟨k, rfl, -⟩
      have hclose := ((h.advance.toInText).after k).toInText.checked_advance
      dsimp only [Option.bind_some]
      split
      · rw [hclose]
        rfl
      · rfl

theorem InText.checked_operator (h : InText N lex) (hc : lex.currentChar ≠ PolskiScript.nul) :
    Checked.lexerOperator N lex = some (lexerOperator lex) := by
  rw [Checked.lexerOperator, lexerOperator, h.checked_peek hc, h.checked_advance]
  dsimp only [Option.bind_eq_bind, Option.bind_some]
  cases twoCharType lex.currentChar (lexerPeek lex) with
  | none => rfl
  | some type =>
      dsimp only
      rw [h.advance.toInText.checked_advance]
      rfl

/-- In front of the NUL no read fails. -/
theorem InText.checked_nextToken (h : InText N lex) :
    Checked.lexerNextToken N fuel lex = lexerNextToken fuel lex := by
  induction fuel generalizing lex with
  | zero => rfl
  | succ fuel ih =>
      -- what a round skips leaves a lexer in front of the NUL
      have hgo (p : Char → Bool) :
          ((Checked.scanWhile N p fuel [] lex).map Prod.snd).bind (Checked.lexerNextToken N fuel) =
            ((scanWhile p fuel [] lex).map Prod.snd).bind (lexerNextToken fuel) := by
        rw [h.checked_scanWhile]
        cases hr : scanWhile p fuel [] lex with
        | none => rfl
        | some r =>
            rcases scanWhile_skips hr with ⟨k, hk, -⟩
            exact ih (hk ▸ (h.after k).toInText)
      rw [Checked.lexerNextToken, lexerNextToken, h.checked_startsComment, Option.bind_some]
      by_cases hnul : lex.currentChar = PolskiScript.nul
      · rw [if_pos hnul, if_pos hnul]
      rw [if_neg hnul, if_neg hnul]
      by_cases hspace : isSpace lex.currentChar
      · rw [if_pos hspace, if_pos hspace]
        exact hgo _
      rw [if_neg hspace, if_neg hspace]
      by_cases hcomment : lex.currentChar = '/' ∧ lexerPeek lex = '/'
      · rw [if_pos (decide_eq_true hcomment), if_pos hcomment, Checked.lexerSkipComment,
          h.checked_startsComment, Option.bind_some, if_pos (decide_eq_true hcomment),
          lexerSkipComment, if_pos hcomment]
        exact hgo _
      rw [if_neg (fun ht => hcomment (of_decide_eq_true ht)), if_neg hcomment,
        h.checked_string, h.checked_operator hnul, Checked.lexerNumber, lexerNumber,
        h.checked_numberLoop, Checked.lexerIdentifier, lexerIdentifier,
        h.checked_scanWhile]

/-! ## Lines and columns -/

/-- The characters in front of `n`. -/
def before (source : Nat → Char) (n : Nat) : List Char := (List.range n).map source

/-- The line: 1 plus the number of newlines in front of `n`. -/
def lineAt (source : Nat → Char) (n : Nat) : Nat := 1 + (before source n).count '\n'

/-- The column: 1 plus the number of characters between the last of them and `n`. -/
def columnAt (source : Nat → Char) (n : Nat) : Nat :=
  1 + ((before source n).reverse.takeWhile (· ≠ '\n')).length

theorem before_succ (source : Nat → Char) (n : Nat) :
    before source (n + 1) = before source n ++ [source n] := by
  rw [before, List.range_succ, List.map_append]
  rfl

theorem lineAt_succ (source : Nat → Char) (n : Nat) :
    lineAt source (n + 1) =
      if source n = '\n' then lineAt source n + 1 else lineAt source n := by
  rw [lineAt, before_succ, List.count_append, List.count_singleton]
  by_cases hnl : source n = '\n'
  · rw [if_pos hnl, if_pos (beq_iff_eq.mpr hnl)]
    rfl
  · rw [if_neg hnl, if_neg (fun heq => hnl (beq_iff_eq.mp heq))]
    rfl

theorem columnAt_succ (source : Nat → Char) (n : Nat) :
    columnAt source (n + 1) = if source n = '\n' then 1 else columnAt source n + 1 := by
  rw [columnAt, before_succ, List.reverse_concat]
  by_cases hnl : source n = '\n'
  · rw [if_pos hnl, List.takeWhile_cons_of_neg (by simp [hnl])]
    rfl
  · rw [if_neg hnl, List.takeWhile_cons_of_pos (by simp [hnl]), List.length_cons]
    rfl

/-- The lexer knows its line and its column. -/
structure Placed (N : Nat) (lex : Lexer) : Prop extends InText N lex where
  line : lex.line = lineAt lex.source lex.pos
  column : lex.column = columnAt lex.source lex.pos

theorem Placed.advance (h : Placed N lex) : Placed N (lexerAdvance lex) := by
  refine ⟨h.toInText.advance.toInText, ?_, ?_⟩
  · unfold lexerAdvance
    split
    case isTrue => exact h.line
    case isFalse =>
      dsimp only
      rw [lineAt_succ, h.current, h.line]
  · unfold lexerAdvance
    split
    case isTrue => exact h.column
    case isFalse =>
      dsimp only
      rw [columnAt_succ, h.current, h.column]

theorem Placed.after (h : Placed N lex) (k : Nat) : Placed N (skip k lex) := by
  induction k generalizing lex with
  | zero => exact h
  | succ k ih => exact ih h.advance

theorem placed_lexerInit (hend : source N = nul) : Placed N (lexerInit source) :=
  ⟨⟨rfl, Nat.zero_le N, hend⟩, rfl, rfl⟩

/-! ## Where a token begins -/

/-- Between `p` and `p'` are white space and comments. -/
inductive Skipped (source : Nat → Char) : Nat → Nat → Prop
  | refl (p : Nat) : Skipped source p p
  | space {p p' : Nat} : isSpace (source p) → Skipped source (p + 1) p' → Skipped source p p'
  | comment {p p' : Nat} (n : Nat) : source p = '/' → source (p + 1) = '/' →
      (∀ i < n, source (p + i) ≠ '\n' ∧ source (p + i) ≠ nul) →
      (source (p + n) = '\n' ∨ source (p + n) = nul) → Skipped source (p + n) p' →
      Skipped source p p'

/-- The first character behind the white space and the comments. -/
structure StartsAt (source : Nat → Char) (p start : Nat) : Prop where
  skipped : Skipped source p start
  noSpace : ¬isSpace (source start)
  noComment : ¬(source start = '/' ∧ source (start + 1) = '/')

theorem skipped_spaces {p p' : Nat} (h : ∀ i < k, isSpace (source (p + i)))
    (hp : Skipped source (p + k) p') : Skipped source p p' := by
  induction k generalizing p with
  | zero => exact hp
  | succ k ih =>
      refine .space (h 0 (Nat.succ_pos k)) (ih (fun i hi => ?_) ?_)
      · rw [Nat.add_assoc, Nat.add_comm 1 i]
        exact h (i + 1) (Nat.succ_lt_succ hi)
      · rw [Nat.add_assoc, Nat.add_comm 1 k]
        exact hp

/-- Over characters that are not the NUL the lexer advances one by one. -/
theorem InText.skip_pos (h : InText N lex)
    (hall : ∀ i < k, (skip i lex).currentChar ≠ PolskiScript.nul) :
    (skip k lex).pos = lex.pos + k := by
  induction k generalizing lex with
  | zero => rfl
  | succ k ih =>
      have hfirst := hall 0 (Nat.succ_pos k)
      have hpos : (lexerAdvance lex).pos = lex.pos + 1 := by
        rw [lexerAdvance, if_neg (h.current ▸ hfirst)]
      have hrest := ih h.advance.toInText fun i hi => hall (i + 1) (Nat.succ_lt_succ hi)
      rw [hpos, Nat.add_assoc, Nat.add_comm 1 k] at hrest
      exact hrest

/-- What a scanning loop has advanced over. -/
theorem InText.scanned (h : InText N lex) (hq : q PolskiScript.nul = false)
    (hscan : scanWhile q fuel buf lex = some (buf', lex')) :
    ∃ k, lex' = skip k lex ∧ lex'.pos = lex.pos + k ∧
      (∀ i < k, q (lex.source (lex.pos + i))) ∧ q (lex.source (lex.pos + k)) = false := by
  rcases scanWhile_skips hscan with ⟨k, rfl, hall, hend⟩
  -- the NUL would have stopped the loop, so every advance is by one character
  have hchars : ∀ i < k, (skip i lex).currentChar ≠ PolskiScript.nul := by
    intro i hi hc
    have hgo := hall i hi
    rw [hc, hq] at hgo
    cases hgo
  have hcurrent : ∀ i ≤ k,
      (skip i lex).currentChar = lex.source (lex.pos + i) := by
    intro i hi
    have hmoved := h.after i
    rw [hmoved.current, hmoved.source, h.skip_pos fun j hj => hchars j (Nat.lt_of_lt_of_le hj hi)]
  refine ⟨k, rfl, h.skip_pos hchars, fun i hi => ?_, ?_⟩
  · rw [← hcurrent i (Nat.le_of_lt hi)]
    exact hall i hi
  · rw [← hcurrent k (Nat.le_refl k)]
    exact hend

/-! ## A token is read -/

theorem wordType_ne_koniec (id : List Char) : wordType id ≠ .koniec := by
  have hwords : ∀ w ∈ keywords, w.2 ≠ .koniec := by decide
  unfold wordType
  split
  case h_1 hfind => exact hwords _ (List.mem_of_find?_eq_some hfind)
  case h_2 => exact fun h => nomatch h

theorem oneCharType_ne_koniec (c : Char) : oneCharType c ≠ .koniec := by
  unfold oneCharType
  split <;> exact fun h => nomatch h

theorem twoCharType_ne_koniec {c d : Char} {type : TokenType} (h : twoCharType c d = some type) :
    type ≠ .koniec := by
  rintro rfl
  unfold twoCharType at h
  split_ifs at h
  all_goals cases h

/-- The token at `st` has been read: the last one, or one with characters. -/
structure ReadsToken (st : Lexer) (tok : Token) (lex' : Lexer) : Prop where
  line : tok.line = st.line
  column : tok.column = st.column
  behind : (tok.type = .koniec ∧ st.currentChar = nul ∧ lex' = st) ∨
    (tok.type ≠ .koniec ∧ st.currentChar ≠ nul ∧ ∃ k, lex' = skip (k + 1) st)

theorem numberLoop_skips {isFloat : Bool}
    (h : numberLoop fuel isFloat buf lex = some (buf', lex')) :
    ∃ k, lex' = skip k lex ∧ (lex.currentChar.isDigit → 0 < k) := by
  induction fuel generalizing isFloat buf lex with
  | zero => cases h
  | succ fuel ih =>
      rw [numberLoop] at h
      split at h
      case isTrue =>
        split at h
        case isTrue hdot =>
          cases h
          refine ⟨0, rfl, fun hdigit => ?_⟩
          rw [hdot.1] at hdigit
          exact absurd hdigit (by decide)
        case isFalse =>
          rcases ih h with ⟨k, hk, -⟩
          exact ⟨k + 1, hk, fun _ => Nat.succ_pos k⟩
      case isFalse hstop =>
        cases h
        exact ⟨0, rfl, fun hdigit => absurd (.inl hdigit) hstop⟩

theorem number_reads (hc : lex.currentChar ≠ nul) (hdigit : lex.currentChar.isDigit)
    (h : lexerNumber fuel lex = some (tok, lex')) : ReadsToken lex tok lex' := by
  rcases Option.bind_eq_some_iff.mp h with ⟨⟨num, lex₁⟩, hloop, hr⟩
  cases hr
  rcases numberLoop_skips hloop with ⟨k, rfl, hpos⟩
  obtain ⟨k, rfl⟩ := Nat.exists_eq_succ_of_ne_zero (Nat.ne_of_gt (hpos hdigit))
  exact ⟨rfl, rfl, .inr ⟨(fun h => nomatch h), hc, k, rfl⟩⟩

theorem string_reads (hc : lex.currentChar ≠ nul)
    (h : lexerString fuel lex = some (tok, lex')) : ReadsToken lex tok lex' := by
  rcases Option.bind_eq_some_iff.mp h with ⟨⟨str, lex₁⟩, hscan, hr⟩
  cases hr
  rcases scanWhile_skips hscan with ⟨k, rfl, -⟩
  refine ⟨rfl, rfl, .inr ⟨(fun h => nomatch h), hc, ?_⟩⟩
  split
  · refine ⟨k + 1, ?_⟩
    exact (skip_add (k + 1) 1 lex).symm
  · exact ⟨k, rfl⟩

theorem identifier_reads (hc : lex.currentChar ≠ nul) (hident : isIdentStart lex.currentChar)
    (h : lexerIdentifier fuel lex = some (tok, lex')) : ReadsToken lex tok lex' := by
  rcases Option.bind_eq_some_iff.mp h with ⟨⟨id, lex₁⟩, hscan, hr⟩
  cases hr
  rcases scanWhile_skips hscan with ⟨k, rfl, -, hend⟩
  -- the first character starts a word, so the loop has taken it
  cases k with
  | zero =>
      have hgo : isIdentChar lex.currentChar := by
        simp only [isIdentStart, isIdentChar, Bool.or_eq_true] at hident ⊢
        exact hident.imp .inl fun hunderscore => hunderscore
      exact absurd hgo (ne_true_of_eq_false hend)
  | succ k => exact ⟨rfl, rfl, .inr ⟨wordType_ne_koniec id, hc, k, rfl⟩⟩

theorem operator_reads (hc : lex.currentChar ≠ nul) :
    ReadsToken lex (lexerOperator lex).1 (lexerOperator lex).2 := by
  unfold lexerOperator
  dsimp only
  split
  case h_1 type htype =>
    exact ⟨rfl, rfl, .inr ⟨twoCharType_ne_koniec htype, hc, 1, rfl⟩⟩
  case h_2 => exact ⟨rfl, rfl, .inr ⟨oneCharType_ne_koniec _, hc, 0, rfl⟩⟩

/-- A call skips white space and comments, and reads the token behind them. -/
theorem lexerNextToken_reads (h : InText N lex) (ht : lexerNextToken fuel lex = some (tok, lex')) :
    ∃ k, StartsAt lex.source lex.pos (skip k lex).pos ∧ ReadsToken (skip k lex) tok lex' := by
  induction fuel generalizing lex with
  | zero => cases ht
  | succ fuel ih =>
      -- what is skipped comes in front of what the next round skips
      have hskip : ∀ {k}, (skip k lex).pos = lex.pos + k →
          lexerNextToken fuel (skip k lex) = some (tok, lex') →
          (∀ p', Skipped lex.source (lex.pos + k) p' → Skipped lex.source lex.pos p') →
          ∃ k, StartsAt lex.source lex.pos (skip k lex).pos ∧ ReadsToken (skip k lex) tok lex' := by
        intro k hpos hnext hextend
        have hmoved := h.after k
        rcases ih hmoved.toInText hnext with ⟨k', hstart, hread⟩
        rw [← skip_add, hmoved.source, hpos] at hstart
        rw [← skip_add] at hread
        exact ⟨k + k', ⟨hextend _ hstart.skipped, hstart.noSpace, hstart.noComment⟩, hread⟩
      have hhere : ¬isSpace lex.currentChar → ¬(lex.currentChar = '/' ∧ lexerPeek lex = '/') →
          StartsAt lex.source lex.pos lex.pos := by
        rw [h.current]
        exact fun hspace hcomment => ⟨.refl _, hspace, hcomment⟩
      rw [lexerNextToken] at ht
      split at ht
      case isTrue hnul =>
        cases ht
        refine ⟨0, hhere ?_ ?_, ⟨rfl, rfl, .inl ⟨rfl, hnul, rfl⟩⟩⟩
        · rw [hnul]
          decide
        · rw [hnul]
          exact fun hcomment => absurd hcomment.1 (by decide)
      split at ht
      case isTrue hspace =>
        rcases Option.bind_eq_some_iff.mp ht with ⟨lex₁, hspaces, hnext⟩
        rcases Option.map_eq_some_iff.mp hspaces with ⟨⟨buf, _⟩, hscan, rfl⟩
        rcases h.scanned (by decide) hscan with ⟨k, rfl, hpos, hall, -⟩
        exact hskip hpos hnext fun p' => skipped_spaces hall
      split at ht
      case isTrue hcomment =>
        rw [lexerSkipComment, if_pos hcomment] at ht
        rcases Option.bind_eq_some_iff.mp ht with ⟨lex₁, hbody, hnext⟩
        rcases Option.map_eq_some_iff.mp hbody with ⟨⟨buf, _⟩, hscan, rfl⟩
        rcases h.scanned (by decide) hscan with ⟨k, rfl, hpos, hall, hend⟩
        refine hskip hpos hnext fun p' => .comment k ?_ hcomment.2 (fun i hi => ?_) ?_
        · rw [← h.current]
          exact hcomment.1
        · simpa using hall i hi
        · have hstop := hend
          simp only [Bool.and_eq_false_iff, bne_eq_false_iff_eq] at hstop
          exact hstop
      case isFalse hnul hspace hcomment =>
        refine ⟨0, hhere hspace hcomment, ?_⟩
        split at ht
        case isTrue hdigit => exact number_reads hnul hdigit ht
        split at ht
        case isTrue => exact string_reads hnul ht
        split at ht
        case isTrue hident => exact identifier_reads hnul hident ht
        case isFalse =>
          have hoperator := operator_reads hnul
          rw [Option.some.inj ht] at hoperator
          exact hoperator

/-! ## Runs -/

/-- The states behind `lexer_init` and calls of `lexer_next_token`, with the tokens. -/
inductive Lexed (source : Nat → Char) : List Token → Lexer → Prop
  | init : Lexed source [] (lexerInit source)
  | next {toks : List Token} {tok : Token} {lex lex' : Lexer} :
      Lexed source toks lex → Lexes lex tok lex' → Lexed source (toks ++ [tok]) lex'

/-- What one call does: the lexer is at the NUL or has moved on, and the token is placed where
it starts. -/
structure MovesOn (N : Nat) (lex : Lexer) (tok : Token) (lex' : Lexer) : Prop where
  forward : (tok.type = .koniec ∧ lex'.pos = N) ∨ (tok.type ≠ .koniec ∧ lex.pos < lex'.pos)
  starts : ∃ start, StartsAt lex.source lex.pos start ∧ start ≤ lex'.pos ∧
    tok.line = lineAt lex.source start ∧ tok.column = columnAt lex.source start

/-- Only the NUL that ends the source stops the lexer. -/
theorem InText.pos_of_nul (h : InText N lex) (hfirst : ∀ i < N, lex.source i ≠ PolskiScript.nul)
    (hc : lex.currentChar = PolskiScript.nul) : lex.pos = N := by
  rcases Nat.lt_or_eq_of_le h.pos with hlt | heq
  · exact absurd (h.current.symm.trans hc) (hfirst _ hlt)
  · exact heq

/-- One call. -/
theorem Placed.call (h : Placed N lex) (hfirst : ∀ i < N, lex.source i ≠ PolskiScript.nul)
    (ht : lexerNextToken fuel lex = some (tok, lex')) :
    MovesOn N lex tok lex' ∧ Placed N lex' ∧ lex'.source = lex.source := by
  rcases lexerNextToken_reads h.toInText ht with ⟨k, hstart, hread⟩
  have hat := h.after k
  have hto := h.toInText.after k
  have hline : tok.line = lineAt lex.source (skip k lex).pos := by
    rw [hread.line, hat.line, hto.source]
  have hcolumn : tok.column = columnAt lex.source (skip k lex).pos := by
    rw [hread.column, hat.column, hto.source]
  -- the last token is at the NUL; any other one takes its first character
  rcases hread.behind with ⟨htype, hnul, rfl⟩ | ⟨htype, hc, j, rfl⟩
  · have hend := hat.toInText.pos_of_nul (hto.source ▸ hfirst) hnul
    exact ⟨⟨.inl ⟨htype, hend⟩, _, hstart, Nat.le_refl _, hline, hcolumn⟩, hat, hto.source⟩
  · have hlt := hat.toInText.advance_lt hc
    have hrest := hat.toInText.advance.toInText.after j
    have hpast : (skip k lex).pos < (skip (j + 1) (skip k lex)).pos :=
      Nat.lt_of_lt_of_le hlt hrest.forward
    have hsource := (hat.toInText.after (j + 1)).source.trans hto.source
    exact ⟨⟨.inr ⟨htype, Nat.lt_of_le_of_lt hto.forward hpast⟩, _, hstart, Nat.le_of_lt hpast,
      hline, hcolumn⟩, hat.after (j + 1), hsource⟩

theorem Lexed.placed (h : Lexed source toks lex) (hend : source N = nul)
    (hfirst : ∀ i < N, source i ≠ nul) : Placed N lex ∧ lex.source = source := by
  induction h with
  | init => exact ⟨placed_lexerInit hend, rfl⟩
  | next _ hcall ih =>
      rcases ih with ⟨hplaced, rfl⟩
      rcases settles_iff.mp hcall with ⟨n, hn⟩
      exact (hplaced.call hfirst (hn n (Nat.le_refl n))).2

/-- Every token but the last takes at least a character. -/
theorem Lexed.length_le (h : Lexed source toks lex) (hend : source N = nul)
    (hfirst : ∀ i < N, source i ≠ nul) (htoks : ∀ tok ∈ toks, tok.type ≠ .koniec) :
    toks.length ≤ lex.pos := by
  induction h with
  | init => exact Nat.le_refl 0
  | @next toks tok lex lex' hrun hcall ih =>
      have hle := ih fun t ht => htoks t (List.mem_append_left _ ht)
      have htype := htoks tok (List.mem_append_right _ List.mem_cons_self)
      rcases hrun.placed hend hfirst with ⟨hplaced, rfl⟩
      rcases settles_iff.mp hcall with ⟨n, hn⟩
      have hmoves := (hplaced.call hfirst (hn n (Nat.le_refl n))).1
      rw [List.length_append, List.length_singleton]
      rcases hmoves.forward with ⟨hlast, -⟩ | ⟨-, hlt⟩
      · exact absurd hlast htype
      · omega

/-- Every call returns and reads nothing behind the NUL, it moves on or is at the NUL, its token
is placed where it starts; and one of `N + 1` calls is at the NUL. -/
theorem lexer_progress (hend : source N = nul) (hfirst : ∀ i < N, source i ≠ nul)
    (h : Lexed source toks lex) :
    (∃ tok lex', Lexes lex tok lex' ∧
      Settles (fun fuel => Checked.lexerNextToken N fuel lex) (some (tok, lex')) ∧
      MovesOn N lex tok lex') ∧
    (N < toks.length → ∃ tok ∈ toks, tok.type = .koniec) := by
  rcases h.placed hend hfirst with ⟨hplaced, rfl⟩
  constructor
  · have hin := hplaced.toInText
    rcases lexerNextToken_moves hin (Nat.lt_succ_self _) with ⟨tok, lex', ht, -⟩
    have hlexes : Lexes lex tok lex' := .of_le fun n hn => lexerNextToken_le ht hn
    refine ⟨tok, lex', hlexes, hlexes.congr fun fuel => hin.checked_nextToken, ?_⟩
    exact (hplaced.call hfirst ht).1
  · intro hlong
    -- without the last token among them, the tokens are no more than the characters
    by_contra hnone
    have hall : ∀ tok ∈ toks, tok.type ≠ .koniec := fun tok ht htype => hnone ⟨tok, ht, htype⟩
    have hle := h.length_le hend hfirst hall
    have hpos := hplaced.pos
    omega

/-- A comment, and a word on the second line. -/
theorem lexer_progress_word :
    let source := sourceOf "//\n x".toList
    (∃ tok lex', Lexes (lexerInit source) tok lex' ∧
      Settles (fun fuel => Checked.lexerNextToken 5 fuel (lexerInit source)) (some (tok, lex')) ∧
      MovesOn 5 (lexerInit source) tok lex') ∧
    (5 < ([] : List Token).length → ∃ tok ∈ ([] : List Token), tok.type = .koniec) :=
  lexer_progress (by decide) (by decide) .init

example : (lexerNextToken 9 (lexerInit (sourceOf "//\n x".toList))).map Prod.fst =
    some ⟨.identyfikator, ['x'], 2, 2⟩ := by decide

end PolandOS.PolskiScript
