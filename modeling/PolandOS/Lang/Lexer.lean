import Mathlib.Tactic.Common

/-! # The PolskiScript lexer

The lexer half of `kernel/lang/polskiscript.c`. A source is the memory from
`source` on; what lies behind the closing NUL is unknown, so every loop takes a
fuel and ends in `none` when it runs out of it. `int` positions are naturals:
no source has 2^31 characters.
-/

namespace PolandOS.PolskiScript

/-- `TokenType`. -/
inductive TokenType where
  | liczba | tekst | prawda | falsz | nic
  | identyfikator | plus | minus | mnozenie | dzielenie | modulo
  | rowne | nierowne | mniejsze | wieksze | mniejszeRowne | wiekszeRowne
  | przypisanie | i | lub | nie
  | zmienna | funkcja | zwroc | jesli | inaczej | dopoki | dla | drukuj | wczytaj
  | przerwij | kontynuuj
  | srednikropek | przecinek | kropka | dwukropek | nawiasLewy | nawiasPrawy
  | kwadratLewy | kwadratPrawy | klamraLewa | klamraPrawa
  | koniec | nieznany
deriving DecidableEq, Repr

/-- `Token`; `value` is the string up to its NUL. -/
structure Token where
  type : TokenType
  value : List Char
  line : Nat
  column : Nat
deriving DecidableEq, Repr

/-- `Lexer`. -/
structure Lexer where
  source : Nat → Char
  pos : Nat
  line : Nat
  column : Nat
  currentChar : Char

/-- The character that ends a string. -/
def nul : Char := '\x00'

/-- The double quote. -/
def quote : Char := '\x22'

/-- What `lexer_skip_whitespace` skips. -/
def isSpace (c : Char) : Bool := c == ' ' || c == '\t' || c == '\r' || c == '\n'

/-- What an identifier starts with. -/
def isIdentStart (c : Char) : Bool := c.isAlpha || c == '_'

/-- What an identifier goes on with. -/
def isIdentChar (c : Char) : Bool := c.isAlpha || c.isDigit || c == '_'

/-- `lexer_advance`. -/
def lexerAdvance (lex : Lexer) : Lexer :=
  if lex.source lex.pos = nul then { lex with currentChar := nul }
  else
    { lex with
      line := if lex.currentChar = '\n' then lex.line + 1 else lex.line
      column := if lex.currentChar = '\n' then 1 else lex.column + 1
      pos := lex.pos + 1
      currentChar := lex.source (lex.pos + 1) }

/-- `lexer_peek`. -/
def lexerPeek (lex : Lexer) : Char := lex.source (lex.pos + 1)

/-- `if (i < 255) buf[i++] = c`, on a buffer of 256 zeroed bytes. -/
def push (buf : List Char) (c : Char) : List Char :=
  if buf.length < 255 then buf ++ [c] else buf

/-- A scanning loop: while `p` holds of the current character, the buffer takes
it and the lexer advances. -/
def scanWhile (p : Char → Bool) : Nat → List Char → Lexer → Option (List Char × Lexer)
  | 0, _, _ => none
  | fuel + 1, buf, lex =>
    if p lex.currentChar then scanWhile p fuel (push buf lex.currentChar) (lexerAdvance lex)
    else some (buf, lex)

/-- `lexer_skip_whitespace`; the loop needs no buffer. -/
def lexerSkipWhitespace (fuel : Nat) (lex : Lexer) : Option Lexer :=
  (scanWhile isSpace fuel [] lex).map Prod.snd

/-- `lexer_skip_comment`. -/
def lexerSkipComment (fuel : Nat) (lex : Lexer) : Option Lexer :=
  if lex.currentChar = '/' ∧ lexerPeek lex = '/' then
    (scanWhile (fun c => c != '\n' && c != nul) fuel [] lex).map Prod.snd
  else some lex

/-- `lexer_make_token`, whose `strncpy` keeps 255 characters. -/
def lexerMakeToken (type : TokenType) (value : List Char) (line col : Nat) : Token :=
  ⟨type, value.take 255, line, col⟩

/-- The loop of `lexer_number`. -/
def numberLoop : Nat → Bool → List Char → Lexer → Option (List Char × Lexer)
  | 0, _, _, _ => none
  | fuel + 1, isFloat, num, lex =>
    if lex.currentChar.isDigit ∨ lex.currentChar = '.' then
      -- a second dot ends the number
      if lex.currentChar = '.' ∧ isFloat then some (num, lex)
      else
        numberLoop fuel (isFloat || lex.currentChar == '.') (push num lex.currentChar)
          (lexerAdvance lex)
    else some (num, lex)

/-- `lexer_number`. -/
def lexerNumber (fuel : Nat) (lex : Lexer) : Option (Token × Lexer) := do
  let (num, lex') ← numberLoop fuel false [] lex
  return (lexerMakeToken .liczba num lex.line lex.column, lex')

/-- `lexer_string`. -/
def lexerString (fuel : Nat) (lex : Lexer) : Option (Token × Lexer) := do
  let (str, lex') ← scanWhile (fun c => c != quote && c != nul) fuel [] (lexerAdvance lex)
  return (lexerMakeToken .tekst str lex.line lex.column,
    if lex'.currentChar = quote then lexerAdvance lex' else lex')

/-- The keywords, in the order in which `lexer_identifier` compares them. -/
def keywords : List (List Char × TokenType) :=
  [("zmienna".toList, .zmienna), ("funkcja".toList, .funkcja), ("zwroc".toList, .zwroc),
   ("jesli".toList, .jesli), ("inaczej".toList, .inaczej), ("dopoki".toList, .dopoki),
   ("dla".toList, .dla), ("drukuj".toList, .drukuj), ("wczytaj".toList, .wczytaj),
   ("przerwij".toList, .przerwij), ("kontynuuj".toList, .kontynuuj),
   ("prawda".toList, .prawda), ("falsz".toList, .falsz), ("nic".toList, .nic)]

/-- The token type of a word. -/
def wordType (id : List Char) : TokenType :=
  match keywords.find? (·.1 == id) with
  | some (_, type) => type
  | none => .identyfikator

/-- `lexer_identifier`. -/
def lexerIdentifier (fuel : Nat) (lex : Lexer) : Option (Token × Lexer) := do
  let (id, lex') ← scanWhile isIdentChar fuel [] lex
  return (lexerMakeToken (wordType id) id lex.line lex.column, lex')

/-- `lexer_init`. -/
def lexerInit (source : Nat → Char) : Lexer := ⟨source, 0, 1, 1, source 0⟩

/-- The operators of two characters. -/
def twoCharType (ch next : Char) : Option TokenType :=
  if ch = '=' ∧ next = '=' then some .rowne
  else if ch = '!' ∧ next = '=' then some .nierowne
  else if ch = '<' ∧ next = '=' then some .mniejszeRowne
  else if ch = '>' ∧ next = '=' then some .wiekszeRowne
  else if ch = '&' ∧ next = '&' then some .i
  else if ch = '|' ∧ next = '|' then some .lub
  else none

/-- The operators and delimiters of one character. -/
def oneCharType : Char → TokenType
  | '+' => .plus
  | '-' => .minus
  | '*' => .mnozenie
  | '/' => .dzielenie
  | '%' => .modulo
  | '<' => .mniejsze
  | '>' => .wieksze
  | '=' => .przypisanie
  | '!' => .nie
  | ';' => .srednikropek
  | ',' => .przecinek
  | '.' => .kropka
  | ':' => .dwukropek
  | '(' => .nawiasLewy
  | ')' => .nawiasPrawy
  | '[' => .kwadratLewy
  | ']' => .kwadratPrawy
  | '{' => .klamraLewa
  | '}' => .klamraPrawa
  | _ => .nieznany

/-- The last part of `lexer_next_token`: operators and delimiters. -/
def lexerOperator (lex : Lexer) : Token × Lexer :=
  let ch := lex.currentChar
  let next := lexerPeek lex
  match twoCharType ch next with
  | some type =>
    (lexerMakeToken type [ch, next] lex.line lex.column, lexerAdvance (lexerAdvance lex))
  | none => (lexerMakeToken (oneCharType ch) [ch] lex.line lex.column, lexerAdvance lex)

/-- `lexer_next_token`. -/
def lexerNextToken : Nat → Lexer → Option (Token × Lexer)
  | 0, _ => none
  | fuel + 1, lex =>
    if lex.currentChar = nul then
      some (lexerMakeToken .koniec [] lex.line lex.column, lex)
    else if isSpace lex.currentChar then
      (lexerSkipWhitespace fuel lex).bind (lexerNextToken fuel)
    else if lex.currentChar = '/' ∧ lexerPeek lex = '/' then
      (lexerSkipComment fuel lex).bind (lexerNextToken fuel)
    else if lex.currentChar.isDigit then lexerNumber fuel lex
    else if lex.currentChar = quote then lexerString fuel lex
    else if isIdentStart lex.currentChar then lexerIdentifier fuel lex
    else some (lexerOperator lex)

/-- `token_type_to_string`. -/
def tokenTypeToString : TokenType → String
  | .liczba => "LICZBA"
  | .tekst => "TEKST"
  | .prawda => "PRAWDA"
  | .falsz => "FALSZ"
  | .nic => "NIC"
  | .identyfikator => "IDENTYFIKATOR"
  | .zmienna => "ZMIENNA"
  | .funkcja => "FUNKCJA"
  | .zwroc => "ZWROC"
  | .jesli => "JESLI"
  | .inaczej => "INACZEJ"
  | .dopoki => "DOPOKI"
  | .dla => "DLA"
  | .drukuj => "DRUKUJ"
  | .koniec => "KONIEC"
  | _ => "NIEZNANY"

end PolandOS.PolskiScript
