import PolandOS.Lang.Lexer
import PolandOS.Lib.Fuel
import Mathlib.Data.List.TakeWhile

/-! # What the lexer reads back

A text in which the lexemes stand in order, separated by white space and
comments, is lexed into exactly these lexemes: `lexer_round_trip`.
-/

namespace PolandOS.PolskiScript

open Fuel

/-! ## The text in front of the lexer -/

/-- From `pos` on, the source reads `text`. -/
def ReadsAt (source : Nat → Char) (pos : Nat) : List Char → Prop
  | [] => True
  | c :: cs => source pos = c ∧ ReadsAt source (pos + 1) cs

/-- What the lexer has yet to read starts with `text`. -/
structure Ahead (lex : Lexer) (text : List Char) : Prop where
  current : lex.currentChar = lex.source lex.pos
  reads : ReadsAt lex.source lex.pos text

variable {lex lex' : Lexer} {c d : Char} {text rest : List Char}

theorem Ahead.head (h : Ahead lex (c :: text)) : lex.currentChar = c :=
  h.current.trans h.reads.1

theorem Ahead.peek (h : Ahead lex (c :: d :: text)) : lexerPeek lex = d := h.reads.2.1

theorem Ahead.advance (h : Ahead lex (c :: text)) (hc : c ≠ nul) :
    Ahead (lexerAdvance lex) text := by
  have hpos : lex.source lex.pos ≠ nul := by rwa [h.reads.1]
  rw [lexerAdvance, if_neg hpos]
  exact ⟨rfl, h.reads.2⟩

/-- `n` calls of `lexer_advance`. -/
def skip (n : Nat) (lex : Lexer) : Lexer := lexerAdvance^[n] lex

theorem skip_add (m n : Nat) (lex : Lexer) : skip (m + n) lex = skip n (skip m lex) := by
  rw [skip, Nat.add_comm, Function.iterate_add_apply]
  rfl

theorem Ahead.skip {w : List Char} (h : Ahead lex (w ++ text)) (hw : ∀ c ∈ w, c ≠ nul) :
    Ahead (skip w.length lex) text := by
  induction w generalizing lex with
  | nil => exact h
  | cons c w ih =>
      exact ih (h.advance (hw c List.mem_cons_self)) fun c hc => hw c (List.mem_cons_of_mem _ hc)

theorem ahead_lexerInit {source : Nat → Char} (h : ReadsAt source 0 text) :
    Ahead (lexerInit source) text := ⟨rfl, h⟩

/-! ## The scanning loops -/

theorem foldl_push (w buf : List Char) (h : buf.length ≤ 255) :
    w.foldl push buf = (buf ++ w).take 255 := by
  induction w generalizing buf with
  | nil => simp [List.take_of_length_le h]
  | cons c w ih =>
      simp only [List.foldl_cons, push]
      split
      · rw [ih _ (by simp; omega)]
        simp
      · have hlen : buf.length = 255 := by omega
        rw [ih _ h, List.take_append_of_le_length (by omega), List.take_append_of_le_length (by omega)]

/-- A scanning loop takes the characters that satisfy `p`, up to the first that
does not. -/
theorem scanWhile_eq {p : Char → Bool} {w : List Char} (hw : ∀ c ∈ w, p c ∧ c ≠ nul)
    (hd : p d = false) (h : Ahead lex (w ++ d :: rest)) (buf : List Char) {fuel : Nat}
    (hfuel : w.length < fuel) :
    scanWhile p fuel buf lex = some (w.foldl push buf, skip w.length lex) := by
  induction w generalizing lex buf fuel with
  | nil =>
      obtain ⟨fuel, rfl⟩ : ∃ n, fuel = n + 1 := ⟨fuel - 1, by simp at hfuel; omega⟩
      rw [scanWhile, h.head, hd]
      rfl
  | cons c w ih =>
      obtain ⟨fuel, rfl⟩ : ∃ n, fuel = n + 1 := ⟨fuel - 1, by simp at hfuel; omega⟩
      obtain ⟨hc, hnul⟩ := hw c List.mem_cons_self
      have hrest := h.advance hnul
      rw [scanWhile, h.head, hc, if_pos rfl]
      exact ih (fun c hc => hw c (List.mem_cons_of_mem _ hc)) hrest _ (by simpa using hfuel)

/-! ## Gaps -/

/-- White space and comments that end in a newline. -/
inductive Gap : List Char → Prop
  | nil : Gap []
  | space {c : Char} {g : List Char} : isSpace c → Gap g → Gap (c :: g)
  | comment {body g : List Char} : (∀ c ∈ body, c ≠ '\n' ∧ c ≠ nul) → Gap g →
      Gap ('/' :: '/' :: (body ++ '\n' :: g))

theorem isSpace_ne_nul (h : isSpace c) : c ≠ nul := by
  rintro rfl
  exact absurd h (by decide)

theorem Gap.ne_nul {g : List Char} (h : Gap g) : ∀ c ∈ g, c ≠ nul := by
  induction h with
  | nil => simp
  | space hc _ ih => simpa [isSpace_ne_nul hc] using ih
  | comment hbody _ ih =>
      have hslash : '/' ≠ nul := by decide
      have hnl : '\n' ≠ nul := by decide
      intro c hc
      rcases List.mem_cons.mp hc with rfl | hc
      · exact hslash
      rcases List.mem_cons.mp hc with rfl | hc
      · exact hslash
      rcases List.mem_append.mp hc with hc | hc
      · exact (hbody c hc).2
      rcases List.mem_cons.mp hc with rfl | hc
      · exact hnl
      · exact ih c hc

/-- A gap starts with the white space that the lexer skips in one go. -/
theorem Gap.dropWhile {g : List Char} (h : Gap g) : Gap (g.dropWhile isSpace) := by
  induction h with
  | nil => exact .nil
  | space hc _ ih => rwa [List.dropWhile_cons_of_pos hc]
  | comment hbody hg _ =>
      rw [List.dropWhile_cons_of_neg (by decide)]
      exact .comment hbody hg

/-- `lexer_next_token` reads `t` and leaves the lexer in `lex'`. -/
def Lexes (lex : Lexer) (t : Token) (lex' : Lexer) : Prop :=
  Settles (fun fuel => lexerNextToken fuel lex) (some (t, lex'))

theorem Lexes.of_scan {p : Char → Bool} {w : List Char} {t : Token}
    (hw : ∀ c ∈ w, p c ∧ c ≠ nul) (hd : p d = false) (h : Ahead lex (w ++ d :: rest))
    (hlex : ∀ fuel, lexerNextToken (fuel + 1) lex =
      ((scanWhile p fuel [] lex).map Prod.snd).bind (lexerNextToken fuel))
    (ht : Lexes (skip w.length lex) t lex') : Lexes lex t lex' := by
  refine Settles.of_succ ?_
  refine Settles.congr (Settles.bind (g := fun n l => lexerNextToken n l) ?_ ht) hlex
  refine .of_le (N := w.length + 1) fun n hn => ?_
  rw [scanWhile_eq hw hd h [] hn]
  rfl

theorem lexes_spaces {w : List Char} {t : Token} (hne : w ≠ []) (hw : ∀ c ∈ w, isSpace c)
    (hd : isSpace d = false) (h : Ahead lex (w ++ d :: rest))
    (ht : Lexes (skip w.length lex) t lex') : Lexes lex t lex' := by
  obtain ⟨c, w, rfl⟩ := List.exists_cons_of_ne_nil hne
  have hc : isSpace c := hw c List.mem_cons_self
  refine .of_scan (fun c hc => ⟨hw c hc, isSpace_ne_nul (hw c hc)⟩) hd h (fun fuel => ?_) ht
  rw [lexerNextToken, h.head, if_neg (isSpace_ne_nul hc), if_pos hc]
  rfl

theorem lexes_comment {body : List Char} {t : Token} (hbody : ∀ c ∈ body, c ≠ '\n' ∧ c ≠ nul)
    (h : Ahead lex ('/' :: '/' :: (body ++ '\n' :: rest)))
    (ht : Lexes (skip (body.length + 2) lex) t lex') : Lexes lex t lex' := by
  refine .of_scan (p := fun c => c != '\n' && c != nul) (w := '/' :: '/' :: body) ?_ ?_ h
    (fun fuel => ?_) ht
  · intro c hc
    rcases List.mem_cons.mp hc with rfl | hc
    · decide
    rcases List.mem_cons.mp hc with rfl | hc
    · decide
    · simp [hbody c hc]
  · decide
  · have hnul : '/' ≠ nul := by decide
    have hspace : ¬isSpace '/' := by decide
    rw [lexerNextToken, lexerSkipComment, h.head, h.peek, if_neg hnul, if_neg hspace,
      if_pos ⟨rfl, rfl⟩, if_pos ⟨rfl, rfl⟩]

/-- Text that starts a token or a comment starts with no white space. -/
theorem Gap.head_of_dropWhile (g rest : List Char) (hd : isSpace d = false) :
    ∃ e rest', g.dropWhile isSpace ++ d :: rest = e :: rest' ∧ isSpace e = false := by
  cases hg : g.dropWhile isSpace with
  | nil => exact ⟨d, rest, rfl, hd⟩
  | cons e g' =>
      have he := List.head_dropWhile_not (p := isSpace) (l := g) (by simp [hg])
      simp only [hg, List.head_cons] at he
      exact ⟨e, g' ++ d :: rest, rfl, he⟩

/-- The lexer skips a gap. -/
theorem lexes_gap {g : List Char} {t : Token} (hg : Gap g) (hd : isSpace d = false)
    (h : Ahead lex (g ++ d :: rest)) (ht : Lexes (skip g.length lex) t lex') :
    Lexes lex t lex' := by
  -- one round of the loop of `lexer_next_token` skips all white space up to the
  -- next comment, so the induction is on the length of the gap
  induction hn : g.length using Nat.strong_induction_on generalizing g lex with
  | _ n ih =>
    subst hn
    cases hg with
    | nil => exact ht
    | @space c g hc hg =>
        have hgap : Gap ((c :: g).dropWhile isSpace) := (Gap.space hc hg).dropWhile
        have hsplit := List.takeWhile_append_dropWhile (p := isSpace) (l := c :: g)
        have hlen := congrArg List.length hsplit
        have hne : (c :: g).takeWhile isSpace ≠ [] := by
          rw [List.takeWhile_cons_of_pos hc]
          exact List.cons_ne_nil _ _
        have hpos := List.length_pos_iff.mpr hne
        rw [List.length_append] at hlen
        rw [← hsplit, List.append_assoc] at h
        rw [← hlen, skip_add] at ht
        obtain ⟨e, rest', heq, he⟩ := Gap.head_of_dropWhile (c :: g) rest hd
        have hw : ∀ x ∈ (c :: g).takeWhile isSpace, isSpace x := fun x hx =>
          List.mem_takeWhile_imp hx
        have hafter := h.skip fun x hx => isSpace_ne_nul (hw x hx)
        refine lexes_spaces hne hw he (heq ▸ h) ?_
        exact ih _ (by omega) hgap hafter ht rfl
    | @comment body g hbody hg =>
        have hlen : ('/' :: '/' :: (body ++ '\n' :: g)).length =
            body.length + 2 + ('\n' :: g).length := by
          simp only [List.length_cons, List.length_append]
          omega
        have hassoc : '/' :: '/' :: (body ++ '\n' :: g) ++ d :: rest =
            ('/' :: '/' :: body) ++ ('\n' :: g ++ d :: rest) := by
          simp
        rw [hassoc] at h
        have hafter := h.skip fun c hc => (by
          have hslash : '/' ≠ nul := by decide
          rcases List.mem_cons.mp hc with rfl | hc
          · exact hslash
          rcases List.mem_cons.mp hc with rfl | hc
          · exact hslash
          · exact (hbody c hc).2)
        rw [hlen, skip_add] at ht
        refine lexes_comment hbody h ?_
        exact ih _ (by omega) (.space (by decide) hg) hafter ht rfl

/-! ## Lexemes -/

/-- A word: a keyword or an identifier. -/
def IsWord (id : List Char) : Prop :=
  ∃ c cs, id = c :: cs ∧ isIdentStart c ∧ ∀ c ∈ cs, isIdentChar c

/-- A decimal number: a digit, then digits and at most one dot. -/
def IsNumber (num : List Char) : Prop :=
  ∃ c cs, num = c :: cs ∧ c.isDigit ∧ (∀ c ∈ cs, c.isDigit ∨ c = '.') ∧ cs.count '.' ≤ 1

/-- The tokens of the language: their types and values. -/
inductive Lexeme : TokenType → List Char → Prop
  | keyword {type : TokenType} {id : List Char} : (id, type) ∈ keywords → Lexeme type id
  | identifier {id : List Char} : IsWord id → (∀ type, (id, type) ∉ keywords) →
      Lexeme .identyfikator id
  | number {num : List Char} : IsNumber num → Lexeme .liczba num
  | string {str : List Char} : (∀ c ∈ str, c ≠ quote ∧ c ≠ nul) → Lexeme .tekst str
  | operator₂ {type : TokenType} {a b : Char} : twoCharType a b = some type → Lexeme type [a, b]
  | operator₁ {type : TokenType} {a : Char} : oneCharType a = type → type ≠ .nieznany →
      Lexeme type [a]

/-- How a token is written. -/
def spell : TokenType → List Char → List Char
  | .tekst, value => quote :: (value ++ [quote])
  | _, value => value

/-- What may follow a lexeme: white space, a comment or the end, but no comment
directly behind a slash. -/
def Follows (type : TokenType) (d : Char) : Prop :=
  (d = nul ∨ isSpace d ∨ d = '/') ∧ (type = .dzielenie → d ≠ '/')

theorem keywords_wordType : ∀ p ∈ keywords, wordType p.1 = p.2 := by decide

theorem keywords_isWord : ∀ p ∈ keywords, IsWord p.1 := by
  have h : ∀ p ∈ keywords, p.1.head?.any isIdentStart = true ∧ p.1.tail.all isIdentChar = true := by
    decide
  intro p hp
  obtain ⟨hstart, hchars⟩ := h p hp
  cases hid : p.1 with
  | nil => simp [hid] at hstart
  | cons c cs =>
      rw [hid] at hstart hchars
      exact ⟨c, cs, rfl, by simpa using hstart, by simpa using hchars⟩

theorem wordType_identifier {id : List Char} (h : ∀ type, (id, type) ∉ keywords) :
    wordType id = .identyfikator := by
  have hfind : keywords.find? (·.1 == id) = none := by
    rw [List.find?_eq_none]
    intro p hp heq
    exact h p.2 (by rwa [← beq_iff_eq.mp heq])
  rw [wordType, hfind]

theorem isSpace_iff : isSpace c ↔ c = ' ' ∨ c = '\t' ∨ c = '\r' ∨ c = '\n' := by
  simp [isSpace, or_assoc]

theorem isIdentStart_not_isDigit (h : isIdentStart c) : c.isDigit = false := by
  change (decide (c.val ≥ 'A'.val ∧ c.val ≤ 'Z'.val) ||
    decide (c.val ≥ 'a'.val) && decide (c.val ≤ 'z'.val) || c == '_') = true at h
  simp only [Bool.or_eq_true, Bool.and_eq_true, decide_eq_true_eq, ge_iff_le, beq_iff_eq,
    UInt32.le_iff_toNat_le] at h
  simp only [Char.isDigit, Bool.and_eq_false_iff, decide_eq_false_iff_not, ge_iff_le,
    UInt32.le_iff_toNat_le, not_le]
  rcases h with (h | h) | rfl
  · exact .inr (lt_of_lt_of_le (by decide) h.1)
  · exact .inr (lt_of_lt_of_le (by decide) h.1)
  · exact .inr (by decide)

/-- The branch of `lexer_next_token` that a character belongs to. -/
structure Plain (c : Char) : Prop where
  ne_nul : c ≠ nul
  not_space : isSpace c = false

theorem Plain.of_not {p : Char → Bool} (hp : p c) (hnul : p nul = false)
    (hspace : ∀ x, isSpace x → p x = false) : Plain c := by
  constructor
  · rintro rfl
    simp [hnul] at hp
  · by_contra hc
    simp [hspace c (by simpa using hc)] at hp

theorem plain_isIdentStart (h : isIdentStart c) : Plain c := by
  refine .of_not h (by decide) fun x hx => ?_
  rcases isSpace_iff.mp hx with rfl | rfl | rfl | rfl <;> decide

theorem plain_isDigit (h : c.isDigit) : Plain c := by
  refine .of_not h (by decide) fun x hx => ?_
  rcases isSpace_iff.mp hx with rfl | rfl | rfl | rfl <;> decide

theorem isIdentChar_ne_nul (h : isIdentChar c) : c ≠ nul := by
  rintro rfl
  exact absurd h (by decide)

theorem Follows.not_isIdentChar {type : TokenType} (h : Follows type d) :
    isIdentChar d = false := by
  rcases h.1 with rfl | hd | rfl
  · decide
  · rcases isSpace_iff.mp hd with rfl | rfl | rfl | rfl <;> decide
  · decide

theorem Follows.not_number {type : TokenType} (h : Follows type d) :
    ¬(d.isDigit ∨ d = '.') := by
  rcases h.1 with rfl | hd | rfl
  · decide
  · rcases isSpace_iff.mp hd with rfl | rfl | rfl | rfl <;> decide
  · decide

theorem Follows.twoCharType {type : TokenType} (h : Follows type d) (a : Char) :
    twoCharType a d = none := by
  have hne : d ≠ '=' ∧ d ≠ '&' ∧ d ≠ '|' := by
    rcases h.1 with rfl | hd | rfl
    · decide
    · rcases isSpace_iff.mp hd with rfl | rfl | rfl | rfl <;> decide
    · decide
  simp [PolskiScript.twoCharType, hne]

/-! ## One lexeme -/

theorem spell_eq {type : TokenType} (h : type ≠ .tekst) (value : List Char) :
    spell type value = value := by
  cases type with
  | tekst => exact absurd rfl h
  | _ => rfl

theorem lexerMakeToken_eq {value : List Char} (h : value.length ≤ 255) (type : TokenType)
    (line col : Nat) : lexerMakeToken type value line col = ⟨type, value, line, col⟩ := by
  rw [lexerMakeToken, List.take_of_length_le h]

/-- An identifier or keyword is lexed as it is written, if no character of an identifier
follows. -/
theorem lexes_word {id : List Char} (hid : IsWord id) (hlen : id.length ≤ 255)
    (hd : Follows (wordType id) d) (h : Ahead lex (id ++ d :: rest)) :
    Lexes lex ⟨wordType id, id, lex.line, lex.column⟩ (skip id.length lex) := by
  obtain ⟨c, cs, rfl, hc, hcs⟩ := hid
  have hplain := plain_isIdentStart hc
  have hslash : c ≠ '/' := by
    rintro rfl
    exact absurd hc (by decide)
  have hquote : c ≠ quote := by
    rintro rfl
    exact absurd hc (by decide)
  have hall : ∀ x ∈ c :: cs, isIdentChar x ∧ x ≠ nul := by
    intro x hx
    have hx : isIdentChar x := by
      rcases List.mem_cons.mp hx with rfl | hx
      · rcases Bool.or_eq_true _ _ ▸ hc with hc | hc <;> simp [isIdentChar, hc]
      · exact hcs x hx
    exact ⟨hx, isIdentChar_ne_nul hx⟩
  refine .of_le (N := (c :: cs).length + 2) fun fuel hfuel => ?_
  obtain ⟨fuel, rfl⟩ : ∃ n, fuel = n + 1 := ⟨fuel - 1, by omega⟩
  rw [lexerNextToken, h.head, if_neg hplain.ne_nul, hplain.not_space, if_neg Bool.false_ne_true,
    if_neg (fun hs => hslash hs.1), isIdentStart_not_isDigit hc, if_neg Bool.false_ne_true,
    if_neg hquote, if_pos hc, lexerIdentifier,
    scanWhile_eq hall hd.not_isIdentChar h [] (by omega), foldl_push _ _ (by simp)]
  simp only [List.nil_append, List.take_of_length_le hlen]
  exact congrArg (fun t => some (t, _)) (lexerMakeToken_eq hlen _ _ _)

/-- The loop takes all of a number with one dot at most, and stops behind it. -/
theorem numberLoop_eq {num : List Char} {isFloat : Bool}
    (hnum : ∀ c ∈ num, c.isDigit ∨ c = '.') (hdots : num.count '.' + isFloat.toNat ≤ 1)
    (hd : ¬(d.isDigit ∨ d = '.')) (h : Ahead lex (num ++ d :: rest)) (buf : List Char)
    {fuel : Nat} (hfuel : num.length < fuel) :
    numberLoop fuel isFloat buf lex = some (num.foldl push buf, skip num.length lex) := by
  induction num generalizing lex buf fuel isFloat with
  | nil =>
      obtain ⟨fuel, rfl⟩ : ∃ n, fuel = n + 1 := ⟨fuel - 1, by simp at hfuel; omega⟩
      rw [numberLoop, h.head, if_neg hd]
      rfl
  | cons c num ih =>
      obtain ⟨fuel, rfl⟩ : ∃ n, fuel = n + 1 := ⟨fuel - 1, by simp at hfuel; omega⟩
      have hc := hnum c List.mem_cons_self
      have hnul : c ≠ nul := by
        rcases hc with hc | rfl
        · exact (plain_isDigit hc).ne_nul
        · decide
      have hsecond : ¬(c = '.' ∧ isFloat) := by
        rintro ⟨rfl, rfl⟩
        simp at hdots
      have hdots' : num.count '.' + (isFloat || c == '.').toNat ≤ 1 := by
        rw [List.count_cons] at hdots
        cases isFloat <;> cases hdot : c == '.' <;> simp_all
      rw [numberLoop, h.head, if_pos hc, if_neg hsecond]
      exact ih (fun c hc => hnum c (List.mem_cons_of_mem _ hc)) hdots' (h.advance hnul) _
        (by simpa using hfuel)

/-- A number is lexed as it is written, if no digit and no dot follows. -/
theorem lexes_number {num : List Char} (hnum : IsNumber num) (hlen : num.length ≤ 255)
    (hd : Follows .liczba d) (h : Ahead lex (num ++ d :: rest)) :
    Lexes lex ⟨.liczba, num, lex.line, lex.column⟩ (skip num.length lex) := by
  obtain ⟨c, cs, rfl, hc, hcs, hdots⟩ := hnum
  have hplain := plain_isDigit hc
  have hdot : c ≠ '.' := by
    rintro rfl
    exact absurd hc (by decide)
  have hslash : c ≠ '/' := by
    rintro rfl
    exact absurd hc (by decide)
  have hall : ∀ x ∈ c :: cs, x.isDigit ∨ x = '.' := by
    simpa [hc] using hcs
  have hcount : (c :: cs).count '.' + Bool.false.toNat ≤ 1 := by
    simpa [List.count_cons_of_ne hdot] using hdots
  refine .of_le (N := (c :: cs).length + 2) fun fuel hfuel => ?_
  obtain ⟨fuel, rfl⟩ : ∃ n, fuel = n + 1 := ⟨fuel - 1, by omega⟩
  rw [lexerNextToken, h.head, if_neg hplain.ne_nul, hplain.not_space, if_neg Bool.false_ne_true,
    if_neg (fun hs => hslash hs.1), if_pos hc, lexerNumber,
    numberLoop_eq hall hcount hd.not_number h [] (by omega), foldl_push _ _ (by simp)]
  simp only [List.nil_append, List.take_of_length_le hlen]
  exact congrArg (fun t => some (t, _)) (lexerMakeToken_eq hlen _ _ _)

theorem lexes_string {str : List Char} (hstr : ∀ c ∈ str, c ≠ quote ∧ c ≠ nul)
    (hlen : str.length ≤ 255) (h : Ahead lex (quote :: (str ++ quote :: rest))) :
    Lexes lex ⟨.tekst, str, lex.line, lex.column⟩ (skip (str.length + 2) lex) := by
  have hafter := h.advance (by decide)
  have hall : ∀ c ∈ str, (c != quote && c != nul) = true ∧ c ≠ nul := by
    intro c hc
    simp [hstr c hc]
  refine .of_le (N := str.length + 2) fun fuel hfuel => ?_
  obtain ⟨fuel, rfl⟩ : ∃ n, fuel = n + 1 := ⟨fuel - 1, by omega⟩
  have hnul : quote ≠ nul := by decide
  have hspace : ¬isSpace quote := by decide
  have hslash : quote ≠ '/' := by decide
  have hdigit : ¬quote.isDigit := by decide
  have hend := (hafter.skip fun c hc => (hstr c hc).2).head
  rw [lexerNextToken, h.head, if_neg hnul, if_neg hspace, if_neg (fun hs => hslash hs.1),
    if_neg hdigit, if_pos rfl, lexerString, scanWhile_eq hall (by decide) hafter [] (by omega),
    foldl_push _ _ (by simp)]
  simp only [List.nil_append, List.take_of_length_le hlen, Option.bind_eq_bind, Option.bind_some,
    hend, if_true]
  rw [lexerMakeToken_eq hlen, skip_add (str.length + 1) 1]
  rfl

/-- A character that starts neither a number nor a string nor a word. -/
structure Punctuation (c : Char) : Prop extends Plain c where
  not_digit : c.isDigit = false
  ne_quote : c ≠ quote
  not_identStart : isIdentStart c = false

theorem lexerNextToken_operator (hc : Punctuation c) (h : Ahead lex (c :: text))
    (hcomment : ¬(c = '/' ∧ lexerPeek lex = '/')) (fuel : Nat) :
    lexerNextToken (fuel + 1) lex = some (lexerOperator lex) := by
  rw [lexerNextToken, h.head, if_neg hc.ne_nul, hc.not_space, if_neg Bool.false_ne_true,
    if_neg hcomment, hc.not_digit, if_neg Bool.false_ne_true, if_neg hc.ne_quote,
    hc.not_identStart, if_neg Bool.false_ne_true]

/-- The characters of the operators and delimiters. -/
def operatorChars : List Char := "+-*/%<>=!;,.:()[]{}&|".toList

theorem punctuation_of_mem (h : c ∈ operatorChars) : Punctuation c := by
  have hall : operatorChars.all (fun x => x != nul && !isSpace x && !x.isDigit && x != quote &&
      !isIdentStart x) = true := by decide
  have hc := List.all_eq_true.mp hall c h
  simp only [Bool.and_eq_true, bne_iff_ne, ne_eq, Bool.not_eq_true'] at hc
  exact ⟨⟨hc.1.1.1.1, hc.1.1.1.2⟩, hc.1.1.2, hc.1.2, hc.2⟩

theorem twoCharType_some {a b : Char} {type : TokenType} (h : twoCharType a b = some type) :
    a ∈ operatorChars ∧ a ≠ '/' ∧ b ≠ nul ∧ type ≠ .tekst := by
  unfold twoCharType at h
  split_ifs at h with h₁ h₂ h₃ h₄ h₅ h₆ <;> cases h <;>
    first
      | (obtain ⟨rfl, rfl⟩ := h₁; decide)
      | (obtain ⟨rfl, rfl⟩ := h₂; decide)
      | (obtain ⟨rfl, rfl⟩ := h₃; decide)
      | (obtain ⟨rfl, rfl⟩ := h₄; decide)
      | (obtain ⟨rfl, rfl⟩ := h₅; decide)
      | (obtain ⟨rfl, rfl⟩ := h₆; decide)

theorem oneCharType_known {a : Char} (h : oneCharType a ≠ .nieznany) :
    a ∈ operatorChars ∧ oneCharType a ≠ .tekst := by
  unfold oneCharType at h ⊢
  split at h <;> first | decide | exact absurd rfl h

theorem lexes_operator₂ {a b : Char} {type : TokenType} (hab : twoCharType a b = some type)
    (h : Ahead lex (a :: b :: rest)) :
    Lexes lex ⟨type, [a, b], lex.line, lex.column⟩ (skip 2 lex) := by
  obtain ⟨hmem, hslash, -, -⟩ := twoCharType_some hab
  have hpunct : Punctuation a := punctuation_of_mem hmem
  refine Settles.of_succ (.of_eq fun fuel => ?_)
  rw [lexerNextToken_operator hpunct h (fun hs => hslash hs.1), lexerOperator, h.head, h.peek]
  simp only [hab]
  rfl

theorem lexes_operator₁ {a : Char} (ha : oneCharType a ≠ .nieznany) (hd : Follows (oneCharType a) d)
    (h : Ahead lex (a :: d :: rest)) :
    Lexes lex ⟨oneCharType a, [a], lex.line, lex.column⟩ (skip 1 lex) := by
  obtain ⟨hmem, -⟩ := oneCharType_known ha
  have hpunct : Punctuation a := punctuation_of_mem hmem
  have hcomment : ¬(a = '/' ∧ lexerPeek lex = '/') := by
    rintro ⟨rfl, hpeek⟩
    exact hd.2 rfl (h.peek ▸ hpeek)
  refine Settles.of_succ (.of_eq fun fuel => ?_)
  rw [lexerNextToken_operator hpunct h hcomment, lexerOperator, h.head, h.peek]
  simp only [hd.twoCharType]
  rfl

/-- A lexeme is read back, with the place where it starts. -/
theorem lexes_lexeme {type : TokenType} {value : List Char} (hl : Lexeme type value)
    (hlen : value.length ≤ 255) (hd : Follows type d)
    (h : Ahead lex (spell type value ++ d :: rest)) :
    Lexes lex ⟨type, value, lex.line, lex.column⟩ (skip (spell type value).length lex) := by
  cases hl with
  | keyword hkey =>
      have htype : wordType value = type := keywords_wordType _ hkey
      have hne : ∀ p ∈ keywords, p.2 ≠ .tekst := by decide
      rw [spell_eq (hne _ hkey)] at h ⊢
      rw [← htype] at hd
      rw [← htype]
      exact lexes_word (keywords_isWord _ hkey) hlen hd h
  | identifier hword hkey =>
      have htype := wordType_identifier hkey
      rw [spell_eq (by decide)] at h ⊢
      rw [← htype] at hd
      rw [← htype]
      exact lexes_word hword hlen hd h
  | number hnum => exact lexes_number hnum hlen hd h
  | string hstr =>
      rw [spell, List.cons_append, List.append_assoc] at h
      rw [spell, List.length_cons, List.length_append]
      exact lexes_string hstr hlen h
  | operator₂ hab =>
      rw [spell_eq (twoCharType_some hab).2.2.2] at h ⊢
      exact lexes_operator₂ hab h
  | operator₁ ha hknown =>
      subst ha
      rw [spell_eq (oneCharType_known hknown).2] at h ⊢
      exact lexes_operator₁ hknown hd h

/-- A lexeme is written with characters of the source. -/
theorem spell_ne_nul {type : TokenType} {value : List Char} (hl : Lexeme type value) :
    ∀ c ∈ spell type value, c ≠ nul := by
  -- by the kind of the lexeme: none of its characters is the end of the text
  cases hl with
  | keyword hkey =>
      have hall : ∀ p ∈ keywords, (spell p.2 p.1).all (· != nul) = true := by decide
      intro c hc
      simpa using List.all_eq_true.mp (hall _ hkey) c hc
  | identifier hword hkey =>
      obtain ⟨c, cs, rfl, hc, hcs⟩ := hword
      intro x hx
      rcases List.mem_cons.mp hx with rfl | hx
      · exact (plain_isIdentStart hc).ne_nul
      · exact isIdentChar_ne_nul (hcs x hx)
  | number hnum =>
      obtain ⟨c, cs, rfl, hc, hcs, -⟩ := hnum
      intro x hx
      rcases List.mem_cons.mp hx with rfl | hx
      · exact (plain_isDigit hc).ne_nul
      · rcases hcs x hx with hx | rfl
        · exact (plain_isDigit hx).ne_nul
        · decide
  | string hstr =>
      have hquote : quote ≠ nul := by decide
      intro x hx
      simp only [spell, List.mem_cons, List.mem_append, List.not_mem_nil, or_false] at hx
      rcases hx with rfl | hx | rfl
      · exact hquote
      · exact (hstr x hx).2
      · exact hquote
  | @operator₂ type a b hab =>
      obtain ⟨hmem, -, hb, hne⟩ := twoCharType_some hab
      have ha : Punctuation a := punctuation_of_mem hmem
      rw [spell_eq hne]
      simp [ha.ne_nul, hb]
  | @operator₁ type a ha hknown =>
      subst ha
      obtain ⟨hmem, hne⟩ := oneCharType_known hknown
      have ha : Punctuation a := punctuation_of_mem hmem
      rw [spell_eq hne]
      simp [ha.ne_nul]

/-! ## The round trip -/

/-- A text in which the lexemes stand in order, each with a gap behind it. The
gap between two lexemes is not empty. -/
inductive Written : List (TokenType × List Char) → List Char → Prop
  | nil : Written [] []
  | cons {type : TokenType} {value g text : List Char} {ts : List (TokenType × List Char)} :
      Lexeme type value → value.length ≤ 255 → Gap g → (ts ≠ [] → g ≠ []) →
      (type = .dzielenie → g.head? ≠ some '/') → Written ts text →
      Written ((type, value) :: ts) (spell type value ++ (g ++ text))

/-- What `lexer_next_token` returns from here on: the lexemes, then `TOK_KONIEC`. -/
def Stream : Lexer → List (TokenType × List Char) → Prop
  | lex, [] => ∃ t lex', t.type = .koniec ∧ t.value = [] ∧ Lexes lex t lex' ∧
      lex'.currentChar = nul
  | lex, (type, value) :: ts => ∃ t lex', t.type = type ∧ t.value = value ∧ Lexes lex t lex' ∧
      Stream lex' ts

theorem lexes_koniec (h : lex.currentChar = nul) :
    Lexes lex ⟨.koniec, [], lex.line, lex.column⟩ lex := by
  refine Settles.of_succ (.of_eq fun fuel => ?_)
  rw [lexerNextToken, if_pos h]
  rfl

/-- No lexeme is empty or starts with a space. -/
theorem spell_head {type : TokenType} {value : List Char} (hl : Lexeme type value) :
    ∃ d rest, spell type value = d :: rest ∧ isSpace d = false := by
  cases hl with
  | keyword hkey =>
      have hne : ∀ p ∈ keywords, p.2 ≠ .tekst := by decide
      rw [spell_eq (hne _ hkey)]
      obtain ⟨c, cs, hid, hc, -⟩ := keywords_isWord _ hkey
      exact ⟨c, cs, hid, (plain_isIdentStart hc).not_space⟩
  | identifier hword _ =>
      obtain ⟨c, cs, rfl, hc, -⟩ := hword
      exact ⟨c, cs, rfl, (plain_isIdentStart hc).not_space⟩
  | number hnum =>
      obtain ⟨c, cs, rfl, hc, -⟩ := hnum
      exact ⟨c, cs, rfl, (plain_isDigit hc).not_space⟩
  | string _ => exact ⟨quote, _, rfl, by decide⟩
  | operator₂ hab =>
      obtain ⟨hmem, -, -, hne⟩ := twoCharType_some hab
      rw [spell_eq hne]
      exact ⟨_, _, rfl, (punctuation_of_mem hmem).not_space⟩
  | operator₁ ha hknown =>
      subst ha
      obtain ⟨hmem, hne⟩ := oneCharType_known hknown
      rw [spell_eq hne]
      exact ⟨_, _, rfl, (punctuation_of_mem hmem).not_space⟩

/-- What stands behind a lexeme of a written text may follow it. -/
theorem follows_gap {type : TokenType} {g : List Char} (hg : Gap g)
    (hslash : type = .dzielenie → g.head? ≠ some '/') (hne : text ≠ [] → g ≠ []) :
    ∃ d rest, g ++ (text ++ [nul]) = d :: rest ∧ Follows type d := by
  cases hg with
  | nil =>
      have htext : text = [] := by
        by_contra h
        exact hne h rfl
      subst htext
      exact ⟨nul, [], rfl, .inl rfl, fun _ => by decide⟩
  | space hc _ =>
      exact ⟨_, _, rfl, .inr (.inl hc), fun htype => by simpa using hslash htype⟩
  | comment _ _ =>
      exact ⟨_, _, rfl, .inr (.inr rfl), fun htype => absurd rfl (hslash htype)⟩

theorem Written.eq_nil {text : List Char} (h : Written [] text) : text = [] := by
  cases h
  rfl

theorem written_stream {ts : List (TokenType × List Char)} (hts : Written ts text) :
    ∀ {lex : Lexer} {g : List Char}, Gap g → Ahead lex (g ++ (text ++ [nul])) → Stream lex ts := by
  induction hts with
  | nil =>
      intro lex g hg h
      have hend := (h.skip hg.ne_nul).head
      exact ⟨_, _, rfl, rfl, lexes_gap hg (by decide) h (lexes_koniec hend), hend⟩
  | @cons type value g' text ts hl hlen hg' hne hslash hrest ih =>
      intro lex g hg h
      obtain ⟨d, after, hd, hfollows⟩ := follows_gap hg' hslash
        (fun htext => hne fun hts => htext (by subst hts; exact hrest.eq_nil))
      obtain ⟨e, more, he, hspace⟩ := spell_head hl
      rw [List.append_assoc, List.append_assoc] at h
      have hskip := h.skip hg.ne_nul
      have hnext := hskip.skip (spell_ne_nul hl)
      have hlex := lexes_lexeme hl hlen hfollows (hd ▸ hskip)
      rw [he, List.cons_append] at h
      exact ⟨_, _, rfl, rfl, lexes_gap hg hspace h hlex, ih hg' hnext⟩

/-- `k` calls of `lexer_next_token`. -/
def lexTokens (fuel : Nat) : Nat → Lexer → Option (List Token)
  | 0, _ => some []
  | k + 1, lex => do
    let (t, lex) ← lexerNextToken fuel lex
    let ts ← lexTokens fuel k lex
    return t :: ts

/-- The type and the value of a token. -/
def Token.lexeme (t : Token) : TokenType × List Char := (t.type, t.value)

theorem lexTokens_cons {t : Token} {k : Nat} {ls : List (TokenType × List Char)}
    (hlex : Lexes lex t lex')
    (hrest : Settles (fun fuel => (lexTokens fuel k lex').map (List.map Token.lexeme)) (some ls)) :
    Settles (fun fuel => (lexTokens fuel (k + 1) lex).map (List.map Token.lexeme))
      (some (t.lexeme :: ls)) := by
  filter_upwards [hlex, hrest] with fuel hfirst hrest
  obtain ⟨ts, hts, hmap⟩ := Option.map_eq_some_iff.mp hrest
  simp only [lexTokens, hfirst, hts, Option.bind_eq_bind, Option.bind_some, Option.map_some,
    pure, List.map_cons, hmap]

theorem lexTokens_end (h : lex.currentChar = nul) (k : Nat) :
    Settles (fun fuel => (lexTokens fuel k lex).map (List.map Token.lexeme))
      (some (List.replicate k (.koniec, []))) := by
  induction k with
  | zero => exact .of_eq fun _ => rfl
  | succ k ih => exact lexTokens_cons (lexes_koniec h) ih

theorem lexTokens_stream {ts : List (TokenType × List Char)} (h : Stream lex ts) (k : Nat) :
    Settles (fun fuel => (lexTokens fuel (ts.length + (k + 1)) lex).map (List.map Token.lexeme))
      (some (ts ++ List.replicate (k + 1) (.koniec, []))) := by
  induction ts generalizing lex with
  | nil =>
      obtain ⟨t, lex', htype, hvalue, hlex, hend⟩ := h
      have hfirst := lexTokens_cons hlex (lexTokens_end hend k)
      rw [Token.lexeme, htype, hvalue] at hfirst
      rw [List.length_nil, Nat.zero_add]
      exact hfirst
  | cons l ts ih =>
      obtain ⟨t, lex', htype, hvalue, hlex, hrest⟩ := h
      have hfirst := lexTokens_cons hlex (ih hrest)
      rw [Token.lexeme, htype, hvalue] at hfirst
      rw [List.length_cons, Nat.add_right_comm]
      exact hfirst

/-- The lexer reads back exactly the lexemes of a written text, in order, and
`TOK_KONIEC` from then on. -/
theorem lexer_round_trip {ts : List (TokenType × List Char)} {g text : List Char}
    {source : Nat → Char} (hg : Gap g) (htext : Written ts text)
    (hsource : ReadsAt source 0 (g ++ (text ++ [nul]))) (k : Nat) :
    ∃ N, ∀ fuel ≥ N,
      (lexTokens fuel (ts.length + (k + 1)) (lexerInit source)).map (List.map Token.lexeme) =
        some (ts ++ List.replicate (k + 1) (.koniec, [])) :=
  settles_iff.mp (lexTokens_stream (written_stream htext hg (ahead_lexerInit hsource)) k)

/-- The memory that holds a text, and zeros behind it. -/
def sourceOf (text : List Char) : Nat → Char := fun i => text.getD i nul

theorem readsAt_sourceOf (text before : List Char) :
    ReadsAt (sourceOf (before ++ text)) before.length (text ++ [nul]) := by
  induction text generalizing before with
  | nil => simp [ReadsAt, sourceOf]
  | cons c text ih =>
      have h := ih (before ++ [c])
      rw [List.append_assoc, List.length_append] at h
      exact ⟨by simp [sourceOf], h⟩

/-- A declaration with a comment in it. -/
theorem lexer_round_trip_declaration : ∃ N, ∀ fuel ≥ N,
    (lexTokens fuel 5 (lexerInit (sourceOf "zmienna x//tak\n= \"/\"".toList))).map
        (List.map Token.lexeme) =
      some [(.zmienna, "zmienna".toList), (.identyfikator, ['x']), (.przypisanie, ['=']),
        (.tekst, ['/']), (.koniec, [])] := by
  have hspace : Gap [' '] := .space (by decide) .nil
  have hcomment : Gap "//tak\n".toList := @Gap.comment "tak".toList [] (by simp [nul]) .nil
  have h₁ : Written [(.tekst, ['/'])] (spell .tekst ['/'] ++ ([] ++ [])) :=
    .cons (.string (by simp [quote, nul])) (by decide) .nil (by simp) (by simp) .nil
  have h₂ : Written [(.przypisanie, ['=']), (.tekst, ['/'])]
      (spell .przypisanie ['='] ++ ([' '] ++ _)) :=
    .cons (.operator₁ rfl (by decide)) (by decide) hspace (by simp) (by simp) h₁
  have h₃ : Written [(.identyfikator, ['x']), (.przypisanie, ['=']), (.tekst, ['/'])]
      (spell .identyfikator ['x'] ++ ("//tak\n".toList ++ _)) :=
    .cons (.identifier ⟨'x', [], rfl, by decide, by simp⟩ (by simp [keywords])) (by decide)
      hcomment (by simp) (by simp) h₂
  have h₄ : Written [(.zmienna, "zmienna".toList), (.identyfikator, ['x']), (.przypisanie, ['=']),
      (.tekst, ['/'])] (spell .zmienna "zmienna".toList ++ ([' '] ++ _)) :=
    .cons (.keyword (by decide)) (by decide) hspace (by simp) (by simp) h₃
  exact lexer_round_trip .nil h₄ (readsAt_sourceOf _ []) 0

/-- A comment directly behind a slash takes the slash with it: `/` and `1` with
the gap `//x`, newline, space between them are read as `1` alone. -/
theorem lexer_slash_comment : Lexeme .dzielenie ['/'] ∧ Lexeme .liczba ['1'] ∧
    Gap "//x\n ".toList ∧ (∃ c ∈ "//x\n ".toList, isSpace c) ∧
    (lexTokens 20 3 (lexerInit (sourceOf ("/".toList ++ "//x\n ".toList ++ "1".toList)))).map
        (List.map Token.lexeme) =
      some [(.liczba, ['1']), (.koniec, []), (.koniec, [])] :=
  ⟨.operator₁ rfl (by decide), .number ⟨'1', [], rfl, by decide, by simp, by simp⟩,
    @Gap.comment ['x'] [' '] (by simp [nul]) (.space (by decide) .nil), ⟨' ', by simp, by decide⟩,
    by decide⟩

end PolandOS.PolskiScript
