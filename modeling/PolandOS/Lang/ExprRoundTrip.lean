import Mathlib.Algebra.Group.Nat.Defs
import PolandOS.Lang.Parser
import PolandOS.Lang.LexerRoundTrip

/-! # What the parser reads back

Expressions as the grammar of `POLSKISCRIPT.md` has them, printed with the
parentheses that the grammar asks for and no others. `expression_round_trip`:
the parser reads back the tree that was printed. The induction is on the
expression; at every level of precedence it carries what the level's loop does
with the printed text (`ReadsBack`).
-/

namespace PolandOS.PolskiScript

open Fuel Logging

/-! ## Expressions and their printed form -/

/-- The binary operators. -/
inductive BinaryOp where
  | and | or | lt | gt | le | ge | eq | ne | add | sub | mul | div | mod
deriving DecidableEq

/-- The unary operators. -/
inductive UnaryOp where
  | neg | not
deriving DecidableEq

/-- Expressions. -/
inductive Expr where
  | int (n : Nat)
  | string (s : List Char)
  | bool (b : Bool)
  | null
  | ident (name : List Char)
  | call (f : List Char) (args : List Expr)
  | unary (op : UnaryOp) (e : Expr)
  | binary (op : BinaryOp) (l r : Expr)

/-- Tokens without their places. -/
abbrev Lexemes := List (TokenType × List Char)

/-- The level of the grammar at which a binary operator stands, from `logical` on. -/
def BinaryOp.level : BinaryOp → Nat
  | .and | .or => 0
  | .lt | .gt | .le | .ge | .eq | .ne => 1
  | .add | .sub => 2
  | .mul | .div | .mod => 3

/-- The token of a binary operator. -/
def BinaryOp.lexeme : BinaryOp → TokenType × List Char
  | .and => (.i, ['&', '&'])
  | .or => (.lub, ['|', '|'])
  | .lt => (.mniejsze, ['<'])
  | .gt => (.wieksze, ['>'])
  | .le => (.mniejszeRowne, ['<', '='])
  | .ge => (.wiekszeRowne, ['>', '='])
  | .eq => (.rowne, ['=', '='])
  | .ne => (.nierowne, ['!', '='])
  | .add => (.plus, ['+'])
  | .sub => (.minus, ['-'])
  | .mul => (.mnozenie, ['*'])
  | .div => (.dzielenie, ['/'])
  | .mod => (.modulo, ['%'])

/-- The token of a unary operator. -/
def UnaryOp.lexeme : UnaryOp → TokenType × List Char
  | .neg => (.minus, ['-'])
  | .not => (.nie, ['!'])

/-- The level of an expression; 4 is `unary`, and every call and primary too. -/
def Expr.level : Expr → Nat
  | .binary op _ _ => op.level
  | _ => 4

/-- Parentheses, where they are needed. -/
def parens (needed : Bool) (ts : Lexemes) : Lexemes :=
  if needed then (.nawiasLewy, ['(']) :: (ts ++ [(.nawiasPrawy, [')'])]) else ts

mutual

/-- The tokens of an expression. An operand is put in parentheses exactly when
it stands on a lower level than the grammar allows there. -/
def Expr.tokens : Expr → Lexemes
  | .int n => [(.liczba, Nat.toDigits 10 n)]
  | .string s => [(.tekst, s)]
  | .bool b => [if b then (.prawda, "prawda".toList) else (.falsz, "falsz".toList)]
  | .null => [(.nic, "nic".toList)]
  | .ident name => [(.identyfikator, name)]
  | .call f args =>
    (.identyfikator, f) :: (.nawiasLewy, ['(']) :: (Expr.argTokens args ++ [(.nawiasPrawy, [')'])])
  | .unary op e => op.lexeme :: parens (e.level < 4) e.tokens
  | .binary op l r =>
    parens (l.level < op.level) l.tokens ++
      op.lexeme :: parens (r.level < op.level + 1) r.tokens

/-- The arguments of a call, with commas between them. -/
def Expr.argTokens : List Expr → Lexemes
  | [] => []
  | e :: es => e.tokens ++ Expr.moreTokens es

/-- The arguments behind the first one. -/
def Expr.moreTokens : List Expr → Lexemes
  | [] => []
  | e :: es => (.przecinek, [',']) :: (e.tokens ++ Expr.moreTokens es)

end

mutual

/-- The syntax tree of an expression. -/
def Expr.ast : Expr → ASTNode
  | .int n => { astNodeCreate .literalInt with intValue := Int64.ofNat n }
  | .string s => { astNodeCreate .literalString with strValue := s }
  | .bool b => { astNodeCreate .literalBool with boolValue := b }
  | .null => astNodeCreate .literalNull
  | .ident name => { astNodeCreate .identifier with strValue := name }
  | .call f args =>
    { astNodeCreate .call with
      children := { astNodeCreate .identifier with strValue := f } :: Expr.asts args }
  | .unary op e => { astNodeCreate .unaryOp with strValue := op.lexeme.2, children := [e.ast] }
  | .binary op l r =>
    { astNodeCreate .binaryOp with strValue := op.lexeme.2, children := [l.ast, r.ast] }

/-- The syntax trees of arguments. -/
def Expr.asts : List Expr → List ASTNode
  | [] => []
  | e :: es => e.ast :: Expr.asts es

end

/-- An expression as it may stand where the grammar asks for level `k`. -/
def Expr.tokensAt (k : Nat) (e : Expr) : Lexemes := parens (e.level < k) e.tokens

/-! ## The parser on a stream of tokens -/

/-- The parser stands in front of `ts`: its current token is the first one. -/
def On (p : Parser) : Lexemes → Prop
  | [] => p.currentToken.type = .koniec
  | t :: ts => p.currentToken.lexeme = t ∧ Stream p.lexer ts

/-- The parser has moved to `ts` and has reported nothing. -/
structure Moves (p p' : Parser) (ts : Lexemes) : Prop where
  on : On p' ts
  error : p'.error = p.error
  hasError : p'.hasError = p.hasError

theorem Moves.trans {p p₁ p₂ : Parser} {ts us : Lexemes} (h : Moves p p₁ ts)
    (h' : Moves p₁ p₂ us) : Moves p p₂ us :=
  ⟨h'.on, h'.error.trans h.error, h'.hasError.trans h.hasError⟩

variable {p p' : Parser} {ts rest : Lexemes} {k : Nat}

/-- The type of the next token. -/
def nextType (ts : Lexemes) : TokenType := (ts.head?.map Prod.fst).getD .koniec

@[simp] theorem nextType_cons (t : TokenType × List Char) (ts : Lexemes) :
    nextType (t :: ts) = t.1 := rfl

theorem On.type (h : On p ts) : p.currentToken.type = nextType ts := by
  cases ts with
  | nil => exact h
  | cons t ts => exact congrArg Prod.fst h.1

theorem On.value {t : TokenType × List Char} (h : On p (t :: ts)) :
    p.currentToken.value = t.2 := congrArg Prod.snd h.1

/-- `parser_advance` takes one token. -/
theorem On.advance {t : TokenType × List Char} (h : On p (t :: ts)) :
    ∃ p', Moves p p' ts ∧ Settles (fun n => (parserAdvance n p).result) (.ok p') := by
  have hadvance : ∀ {tok : Token} {lex : Lexer}, Lexes p.lexer tok lex →
      Settles (fun n => (parserAdvance n p).result)
        (.ok { p with lexer := lex, currentToken := tok }) := by
    intro tok lex hlex
    filter_upwards [hlex] with n hn
    rw [parserAdvance, Logged.result_bind_of_ok (Logged.result_ofOption.mpr hn)]
    rfl
  cases ts with
  | nil =>
      obtain ⟨tok, lex, htype, -, hlex, -⟩ := h.2
      exact ⟨{ p with lexer := lex, currentToken := tok }, ⟨htype, rfl, rfl⟩, hadvance hlex⟩
  | cons t ts =>
      obtain ⟨tok, lex, htype, hvalue, hlex, hrest⟩ := h.2
      exact ⟨{ p with lexer := lex, currentToken := tok },
        ⟨⟨Prod.ext htype hvalue, hrest⟩, rfl, rfl⟩, hadvance hlex⟩

/-- `parser_expect` takes the token it expects. -/
theorem On.expect {t : TokenType × List Char} (h : On p (t :: ts)) :
    ∃ p', Moves p p' ts ∧ Settles (fun n => (parserExpect n p t.1).result) (.ok (true, p')) := by
  obtain ⟨p', hp', hadvance⟩ := h.advance
  refine ⟨p', hp', ?_⟩
  have htype : ¬p.currentToken.type ≠ t.1 := fun hne => hne h.type
  filter_upwards [hadvance] with n hn
  rw [parserExpect, if_neg htype, Logged.result_bind_of_ok hn]
  rfl

/-! ## Levels -/

/-- The operators of a level. -/
def levelOps : Nat → List TokenType
  | 0 => logicalOps
  | 1 => comparisonOps
  | 2 => termOps
  | _ => factorOps

/-- The parser of a level, over the parser of expressions inside it. -/
def parseLevel (expr : NodeParser) (fuel : Nat) : Nat → NodeParser
  | 0 => parseLogical expr fuel
  | 1 => parseComparison expr fuel
  | 2 => parseTerm expr fuel
  | 3 => parseFactor expr fuel
  | _ => parseUnary expr fuel

theorem parseLevel_eq (expr : NodeParser) (fuel : Nat) (hk : k ≤ 3) :
    parseLevel expr fuel k =
      binaryLevel (levelOps k) (parseLevel expr fuel (k + 1)) fuel := by
  obtain rfl | rfl | rfl | rfl : k = 0 ∨ k = 1 ∨ k = 2 ∨ k = 3 := by omega
  all_goals rfl

/-- The parser of level `k` reads `node` and stops in `p'`. There are two
amounts of fuel: one for the expressions inside parentheses, one for the loops. -/
def Parses (k : Nat) (p : Parser) (node : ASTNode) (p' : Parser) : Prop :=
  ∃ N, ∀ F ≥ N, ∀ m ≥ N,
    (parseLevel (parseExpression F) m k p).result = .ok (some node, p')

theorem Parses.expression {node : ASTNode} (h : Parses 0 p node p') :
    Settles (fun n => (parseExpression n p).result) (.ok (some node, p')) := by
  obtain ⟨N, hN⟩ := h
  refine Settles.of_succ (.of_le (N := N) fun n hn => ?_)
  exact hN n hn n hn

/-- The next token neither goes on with an expression of level `k` nor opens a
call. -/
def Ends (k : Nat) (ts : Lexemes) : Prop :=
  nextType ts ≠ .nawiasLewy ∧ ∀ j ≤ 3, k ≤ j → nextType ts ∉ levelOps j

theorem Ends.mono {j : Nat} (h : Ends k ts) (hj : k ≤ j) : Ends j ts :=
  ⟨h.1, fun i hi hji => h.2 i hi (hj.trans hji)⟩

/-- A level's loop ends at a token that is none of its operators. -/
theorem binaryLoop_ends {ops : List TokenType} (sub : NodeParser) (left : Option ASTNode)
    (h : On p ts) (hops : nextType ts ∉ ops) {m : Nat} (hm : 0 < m) :
    (binaryLoop ops sub m left p).result = .ok (left, p) := by
  obtain ⟨m, rfl⟩ := Nat.exists_eq_succ_of_ne_zero hm.ne'
  rw [binaryLoop, h.type, if_neg hops]
  rfl

/-- What a level reads, the level below it reads too, if no operator follows. -/
theorem Parses.lift {node : ASTNode} (h : Parses (k + 1) p node p') (hk : k ≤ 3)
    (hon : On p' rest) (hends : nextType rest ∉ levelOps k) : Parses k p node p' := by
  obtain ⟨N, hN⟩ := h
  refine ⟨N + 1, fun F hF m hm => ?_⟩
  rw [parseLevel_eq _ _ hk, binaryLevel, Logged.result_bind_of_ok (hN F (by omega) m (by omega))]
  exact binaryLoop_ends _ _ hon hends (by omega)

theorem Parses.lower {node : ASTNode} {j : Nat} (h : Parses j p node p') (hj : j ≤ 4)
    (hk : k ≤ j) (hon : On p' rest) (hends : Ends k rest) : Parses k p node p' := by
  obtain ⟨d, rfl⟩ := Nat.exists_eq_add_of_le hk
  induction d with
  | zero => exact h
  | succ d ih =>
      have hd : k + d ≤ 3 := by omega
      exact ih (h.lift hd hon (hends.2 _ hd (Nat.le_add_right k d))) (by omega) (by omega)

/-- What level `k` has to do with a printed expression. -/
def Reads (e : Expr) : Prop :=
  ∀ k ≤ 4, ∀ p rest, On p (e.tokensAt k ++ rest) → Ends k rest →
    ∃ p', Moves p p' rest ∧ Parses k p e.ast p'

/-- The loop of level `k` goes on with `node` in `p'`: `c` rounds have been
made. -/
def Continues (k : Nat) (p : Parser) (node : ASTNode) (p' : Parser) : Prop :=
  ∃ N c, ∀ F ≥ N, ∀ m' ≥ N, ∀ m ≥ N,
    (binaryLevel (levelOps k) (parseLevel (parseExpression F) m' (k + 1)) (m + c) p).result =
      (binaryLoop (levelOps k) (parseLevel (parseExpression F) m' (k + 1)) m (some node) p').result

/-- What the loop of level `k` has to do with a printed operand on its left,
whatever operator of that level follows. -/
def ReadsLeft (e : Expr) : Prop :=
  ∀ k ≤ 3, ∀ p rest, On p (e.tokensAt k ++ rest) → Ends (k + 1) rest →
    ∃ p', Moves p p' rest ∧ Continues k p e.ast p'

theorem tokensAt_eq {e : Expr} (h : k ≤ e.level) : e.tokensAt k = e.tokens := by
  have hlevel : ¬e.level < k := by omega
  simp [Expr.tokensAt, parens, hlevel]

theorem Parses.continues {node : ASTNode} (h : Parses (k + 1) p node p') :
    Continues k p node p' := by
  obtain ⟨N, hN⟩ := h
  refine ⟨N, 0, fun F hF m' hm' m hm => ?_⟩
  rw [binaryLevel, Logged.result_bind_of_ok (hN F hF m' hm')]
  rfl

theorem Continues.parses {node : ASTNode} (h : Continues k p node p') (hk : k ≤ 3)
    (hon : On p' rest) (hends : nextType rest ∉ levelOps k) : Parses k p node p' := by
  obtain ⟨N, c, hN⟩ := h
  refine ⟨N + c + 1, fun F hF m hm => ?_⟩
  obtain ⟨m₀, rfl⟩ := Nat.exists_eq_add_of_le' (show c ≤ m by omega)
  rw [parseLevel_eq _ _ hk, hN F (by omega) _ (by omega) _ (by omega)]
  exact binaryLoop_ends _ _ hon hends (by omega)

/-- A right operand that the loop takes. -/
theorem Continues.operand {left right : ASTNode} {op : TokenType × List Char} {p₁ p₂ p₃ : Parser}
    (h : Continues k p left p₁) (hon : On p₁ (op :: ts)) (hop : op.1 ∈ levelOps k)
    (hadvance : Settles (fun n => (parserAdvance n p₁).result) (.ok p₂))
    (hright : Parses (k + 1) p₂ right p₃) :
    Continues k p { astNodeCreate .binaryOp with strValue := op.2, children := [left, right] }
      p₃ := by
  obtain ⟨N, c, hN⟩ := h
  obtain ⟨M, hM⟩ := settles_iff.mp hadvance
  obtain ⟨K, hK⟩ := hright
  refine ⟨N + M + K, c + 1, fun F hF m' hm' m hm => ?_⟩
  have htype : p₁.currentToken.type ∈ levelOps k := by
    rw [hon.type]
    exact hop
  have hround := hN F (by omega) m' (by omega) (m + 1) (by omega)
  rw [show m + (c + 1) = m + 1 + c by omega, hround, binaryLoop, if_pos htype,
    Logged.result_bind_of_ok (hM m (by omega)),
    Logged.result_bind_of_ok (hK F (by omega) m' (by omega)), hon.value]
  rfl

/-! ## Primaries and unary expressions -/

theorem Parses.of_primary {node : ASTNode} (hon : On p ts)
    (hts : nextType ts ≠ .minus ∧ nextType ts ≠ .nie)
    (h : ∃ N, ∀ F ≥ N, ∀ m ≥ N,
      (parsePrimary (parseExpression F) m p).result = .ok (some node, p')) :
    Parses 4 p node p' := by
  obtain ⟨N, hN⟩ := h
  refine ⟨N + 1, fun F hF m hm => ?_⟩
  obtain ⟨m, rfl⟩ : ∃ n, m = n + 1 := ⟨m - 1, by omega⟩
  have htype : ¬(p.currentToken.type = .minus ∨ p.currentToken.type = .nie) := by
    rw [hon.type]
    exact not_or.mpr hts
  rw [parseLevel, parseUnary, if_neg htype]
  · exact hN F (by omega) m (by omega)
  all_goals intro h; cases h

/-- An expression in parentheses. -/
theorem reads_parens {e : ASTNode} {p₁ p₂ p₃ : Parser}
    (hon : On p ((.nawiasLewy, ['(']) :: ts))
    (hadvance : Settles (fun n => (parserAdvance n p).result) (.ok p₁))
    (hexpr : Settles (fun n => (parseExpression n p₁).result) (.ok (some e, p₂)))
    (hexpect : Settles (fun n => (parserExpect n p₂ .nawiasPrawy).result) (.ok (true, p₃))) :
    Parses 4 p e p₃ := by
  refine .of_primary hon (by simp) ?_
  obtain ⟨N₁, h₁⟩ := settles_iff.mp hadvance
  obtain ⟨N₂, h₂⟩ := settles_iff.mp hexpr
  obtain ⟨N₃, h₃⟩ := settles_iff.mp hexpect
  refine ⟨N₁ + N₂ + N₃, fun F hF m hm => ?_⟩
  have htype : p.currentToken.type = .nawiasLewy := hon.type
  rw [parsePrimary, htype]
  simp only
  rw [Logged.result_bind_of_ok (h₁ m (by omega)), Logged.result_bind_of_ok (h₂ F (by omega))]
  simp only
  rw [Logged.result_bind_of_ok (h₃ m (by omega))]
  rfl

/-- An expression that its own level reads is read wherever it is printed. -/
theorem reads_of_own {e : Expr} (hlevel : e.level ≤ 4)
    (hown : ∀ p rest, On p (e.tokens ++ rest) → Ends e.level rest →
      ∃ p', Moves p p' rest ∧ Parses e.level p e.ast p') : Reads e := by
  intro k hk p rest hon hends
  by_cases hle : k ≤ e.level
  · rw [tokensAt_eq hle] at hon
    obtain ⟨p', hmoves, hparses⟩ := hown p rest hon (hends.mono hle)
    exact ⟨p', hmoves, hparses.lower hlevel hle hmoves.on hends⟩
  · have htokens : e.tokensAt k ++ rest =
        (.nawiasLewy, ['(']) :: (e.tokens ++ (.nawiasPrawy, [')']) :: rest) := by
      simp [Expr.tokensAt, parens, Nat.lt_of_not_le hle]
    rw [htokens] at hon
    have hclose : Ends 0 ((.nawiasPrawy, [')']) :: rest) := by
      rw [Ends, nextType_cons]
      decide
    obtain ⟨p₁, hmoves₁, hadvance⟩ := hon.advance
    obtain ⟨p₂, hmoves₂, hparses⟩ := hown p₁ _ hmoves₁.on (hclose.mono (Nat.zero_le _))
    have hexpr := (hparses.lower hlevel (Nat.zero_le _) hmoves₂.on hclose).expression
    obtain ⟨p₃, hmoves₃, hexpect⟩ := hmoves₂.on.expect
    have hparens := reads_parens hon hadvance hexpr hexpect
    have hmoves := (hmoves₁.trans hmoves₂).trans hmoves₃
    exact ⟨p₃, hmoves, hparens.lower le_rfl hk hmoves.on hends⟩

/-- An operand that is not itself an operation of level `k` is read by the level
above. -/
theorem readsLeft_of_reads {e : Expr} (h : Reads e) (hk : k ≤ 3) (hne : e.level ≠ k)
    (hon : On p (e.tokensAt k ++ rest)) (hends : Ends (k + 1) rest) :
    ∃ p', Moves p p' rest ∧ Continues k p e.ast p' := by
  have hsame : e.tokensAt k = e.tokensAt (k + 1) := by
    have hiff : e.level < k ↔ e.level < k + 1 := by omega
    simp only [Expr.tokensAt, hiff]
  rw [hsame] at hon
  obtain ⟨p', hmoves, hparses⟩ := h (k + 1) (by omega) p rest hon hends
  exact ⟨p', hmoves, hparses.continues⟩

theorem BinaryOp.level_le (op : BinaryOp) : op.level ≤ 3 := by cases op <;> decide

theorem BinaryOp.mem_levelOps (op : BinaryOp) : op.lexeme.1 ∈ levelOps op.level := by
  cases op <;> decide

theorem BinaryOp.ends (op : BinaryOp) (ts : Lexemes) : Ends (op.level + 1) (op.lexeme :: ts) := by
  rw [Ends, nextType_cons]
  cases op <;> decide

/-- A binary operation: first the loop of its level, then its level. -/
theorem reads_binary {op : BinaryOp} {l r : Expr} (hl : ReadsLeft l) (hr : Reads r) :
    Reads (.binary op l r) ∧ ReadsLeft (.binary op l r) := by
  have hstep : ∀ p rest, On p ((Expr.binary op l r).tokens ++ rest) → Ends (op.level + 1) rest →
      ∃ p', Moves p p' rest ∧ Continues op.level p (Expr.binary op l r).ast p' := by
    intro p rest hon hends
    have htokens : (Expr.binary op l r).tokens ++ rest =
        l.tokensAt op.level ++ (op.lexeme :: (r.tokensAt (op.level + 1) ++ rest)) := by
      simp [Expr.tokens, Expr.tokensAt]
    rw [htokens] at hon
    obtain ⟨p₁, hmoves₁, hcont⟩ := hl op.level op.level_le p _ hon (op.ends _)
    obtain ⟨p₂, hmoves₂, hadvance⟩ := hmoves₁.on.advance
    obtain ⟨p₃, hmoves₃, hright⟩ := hr (op.level + 1) (Nat.succ_le_succ op.level_le) p₂ rest
      hmoves₂.on hends
    refine ⟨p₃, (hmoves₁.trans hmoves₂).trans hmoves₃, ?_⟩
    exact hcont.operand hmoves₁.on op.mem_levelOps hadvance hright
  have hreads : Reads (.binary op l r) := by
    refine reads_of_own (Nat.le_succ_of_le op.level_le) fun p rest hon hends => ?_
    obtain ⟨p', hmoves, hcont⟩ := hstep p rest hon (hends.mono (Nat.le_succ _))
    exact ⟨p', hmoves, hcont.parses op.level_le hmoves.on (hends.2 _ op.level_le le_rfl)⟩
  refine ⟨hreads, fun k hk p rest hon hends => ?_⟩
  by_cases hne : op.level = k
  · subst hne
    rw [tokensAt_eq (show op.level ≤ (Expr.binary op l r).level from le_rfl)] at hon
    exact hstep p rest hon hends
  · exact readsLeft_of_reads hreads hk hne hon hends

/-- An expression of the highest level is never the left operand's own
operation. -/
theorem readsLeft_of_top {e : Expr} (h : Reads e) (he : e.level = 4) : ReadsLeft e :=
  fun _ hk _ _ hon hends => readsLeft_of_reads h hk (by omega) hon hends

theorem UnaryOp.isOp (op : UnaryOp) : op.lexeme.1 = .minus ∨ op.lexeme.1 = .nie := by
  cases op <;> decide

theorem reads_unary {op : UnaryOp} {e : Expr} (h : Reads e) : Reads (.unary op e) := by
  refine reads_of_own le_rfl fun p rest hon hends => ?_
  have htokens : (Expr.unary op e).tokens ++ rest = op.lexeme :: (e.tokensAt 4 ++ rest) := by
    simp [Expr.tokens, Expr.tokensAt]
  rw [htokens] at hon
  obtain ⟨p₁, hmoves₁, hadvance⟩ := hon.advance
  obtain ⟨p₂, hmoves₂, N, hN⟩ := h 4 le_rfl p₁ rest hmoves₁.on hends
  refine ⟨p₂, hmoves₁.trans hmoves₂, ?_⟩
  obtain ⟨M, hM⟩ := settles_iff.mp hadvance
  refine ⟨N + M + 1, fun F hF m hm => ?_⟩
  obtain ⟨m, rfl⟩ : ∃ n, m = n + 1 := ⟨m - 1, by omega⟩
  have htype : p.currentToken.type = .minus ∨ p.currentToken.type = .nie := by
    rw [hon.type]
    exact op.isOp
  change (parseUnary (parseExpression F) (m + 1) p).result = _
  rw [parseUnary, if_pos htype, Logged.result_bind_of_ok (hM m (by omega))]
  have hoperand : (parseUnary (parseExpression F) m p₁).result = .ok (some e.ast, p₂) :=
    hN F (by omega) m (by omega)
  rw [Logged.result_bind_of_ok hoperand, hon.value]
  rfl

/-! ## Atoms -/

/-- An expression of one token, which `parser_parse_primary` reads. -/
theorem reads_atom {e : Expr} {t : TokenType × List Char} (hlevel : e.level = 4)
    (htokens : e.tokens = [t]) (ht : t.1 ≠ .minus ∧ t.1 ≠ .nie)
    (hprimary : ∀ (expr : NodeParser) (p p' : Parser) (m : Nat), p.currentToken.lexeme = t →
      (parserAdvance m p).result = .ok p' → p'.currentToken.type ≠ .nawiasLewy →
      (parsePrimary expr m p).result = .ok (some e.ast, p')) : Reads e := by
  refine reads_of_own hlevel.le fun p rest hon hends => ?_
  rw [htokens] at hon
  obtain ⟨p', hmoves, hadvance⟩ := hon.advance
  have hnext : p'.currentToken.type ≠ .nawiasLewy := by
    rw [hmoves.on.type]
    exact hends.1
  obtain ⟨N, hN⟩ := settles_iff.mp hadvance
  rw [hlevel]
  refine ⟨p', hmoves, .of_primary hon ht ⟨N, fun F _ m hm => ?_⟩⟩
  exact hprimary _ p p' m hon.1 (hN m hm) hnext

theorem parseLiteral_result {node : ASTNode} {m : Nat} (h : (parserAdvance m p).result = .ok p') :
    (parseLiteral m node p).result = .ok (some node, p') := by
  rw [parseLiteral, Logged.result_bind_of_ok h]
  rfl

theorem reads_string (s : List Char) : Reads (.string s) := by
  refine reads_atom (t := (.tekst, s)) rfl rfl (by simp)
    fun expr p p' m ht h _ => ?_
  obtain ⟨htype, hvalue⟩ := Prod.mk.inj ht
  rw [parsePrimary, htype, hvalue]
  exact parseLiteral_result h

theorem reads_bool (b : Bool) : Reads (.bool b) := by
  cases b with
  | true =>
      refine reads_atom (t := (.prawda, "prawda".toList)) rfl rfl (by simp)
        fun expr p p' m ht h _ => ?_
      rw [parsePrimary, (Prod.mk.inj ht).1]
      exact parseLiteral_result h
  | false =>
      refine reads_atom (t := (.falsz, "falsz".toList)) rfl rfl (by simp)
        fun expr p p' m ht h _ => ?_
      rw [parsePrimary, (Prod.mk.inj ht).1]
      exact parseLiteral_result h

theorem reads_null : Reads .null := by
  refine reads_atom (t := (.nic, "nic".toList)) rfl rfl (by simp)
    fun expr p p' m ht h _ => ?_
  rw [parsePrimary, (Prod.mk.inj ht).1]
  exact parseLiteral_result h

theorem reads_ident (name : List Char) : Reads (.ident name) := by
  refine reads_atom (t := (.identyfikator, name)) rfl rfl (by simp)
    fun expr p p' m ht h hnext => ?_
  obtain ⟨htype, hvalue⟩ := Prod.mk.inj ht
  rw [parsePrimary, htype]
  simp only
  rw [parseName, Logged.result_bind_of_ok h, if_neg hnext, hvalue]
  rfl

theorem digitValue_eq {c : Char} (hc : c.isDigit) :
    digitValue c = ((c.toNat - '0'.toNat : Nat) : Int) := by
  have hdigit : 48 ≤ c.toNat := by
    simp only [Char.isDigit, Bool.and_eq_true, decide_eq_true_eq, ge_iff_le,
      UInt32.le_iff_toNat_le] at hc
    exact hc.1
  change (c.toNat : Int) - 48 = ((c.toNat - 48 : Nat) : Int)
  omega

/-- A round of the loop that reads an integer literal. -/
theorem literal_step {c : Char} (hc : c.isDigit) (n : Nat) :
    Int64.ofNat n * 10 + Int64.ofInt (digitValue c) =
      Int64.ofNat (10 * n + (c.toNat - '0'.toNat)) := by
  rw [digitValue_eq hc, Int64.ofInt_eq_ofNat, Int64.ofNat_add, Int64.ofNat_mul, Int64.mul_comm]
  rfl

/-- The loop computes the value of the digits modulo 2^64. -/
theorem intLiteral_result {cs : List Char} (hcs : ∀ c ∈ cs, c.isDigit) (n : Nat) :
    (intLiteral cs (Int64.ofNat n)).result = .ok (Int64.ofNat (Nat.ofDigitChars 10 cs n)) := by
  induction cs generalizing n with
  | nil => rfl
  | cons c cs ih =>
      rcases List.forall_mem_cons.mp hcs with ⟨hc, hrest⟩
      rw [Nat.ofDigitChars_cons, intLiteral]
      change (intLiteral cs (Int64.ofNat n * 10 + Int64.ofInt (digitValue c))).result = _
      rw [literal_step hc]
      exact ih hrest _

theorem reads_int (n : Nat) : Reads (.int n) := by
  refine reads_atom (t := (.liczba, Nat.toDigits 10 n)) rfl rfl (by simp)
    fun expr p p' m ht h _ => ?_
  obtain ⟨htype, hvalue⟩ := Prod.mk.inj ht
  have hdigits : ∀ c ∈ Nat.toDigits 10 n, c.isDigit := fun c hc =>
    Nat.isDigit_of_mem_toDigits (by decide) (by decide) hc
  have hdot : '.' ∉ Nat.toDigits 10 n := fun hmem => absurd (hdigits _ hmem) (by decide)
  have hliteral : (intLiteral (Nat.toDigits 10 n) 0).result = .ok (Int64.ofNat n) := by
    have h := intLiteral_result hdigits 0
    rwa [Nat.ofDigitChars_toDigits (by decide) (by decide)] at h
  rw [parsePrimary, htype]
  simp only
  rw [parseNumber, hvalue, if_neg hdot, Logged.result_bind_of_ok (a := _) (by
    rw [Logged.result_bind_of_ok (Logged.result_emit _), Logged.result_bind_of_ok hliteral]
    rfl), Logged.result_bind_of_ok h]
  rfl

/-! ## Calls -/

/-- An expression starts neither with a comma nor with a closing parenthesis. -/
theorem tokens_start : ∀ (e : Expr) (rest : Lexemes),
    nextType (e.tokens ++ rest) ≠ .przecinek ∧ nextType (e.tokens ++ rest) ≠ .nawiasPrawy
  | .int _, _ | .string _, _ | .null, _ | .ident _, _ | .call _ _, _ => by simp [Expr.tokens]
  | .bool b, _ => by cases b <;> simp [Expr.tokens]
  | .unary op _, _ => by cases op <;> simp [Expr.tokens, UnaryOp.lexeme]
  | .binary op l r, rest => by
      rw [Expr.tokens, parens]
      split
      · simp
      · rw [List.append_assoc]
        exact tokens_start l _

theorem tokensAt_zero (e : Expr) : e.tokensAt 0 = e.tokens := tokensAt_eq (Nat.zero_le _)

theorem ends_more (es : List Expr) (rest : Lexemes) :
    Ends 0 (Expr.moreTokens es ++ (.nawiasPrawy, [')']) :: rest) := by
  cases es with
  | nil =>
      rw [Expr.moreTokens, List.nil_append, Ends, nextType_cons]
      decide
  | cons e es =>
      rw [Expr.moreTokens, List.cons_append, Ends, nextType_cons]
      decide

/-- The parser stands in front of an argument or of the comma before it. -/
def AtArgument (p : Parser) (e : Expr) (after : Lexemes) : Prop :=
  On p (e.tokens ++ after) ∨ On p ((.przecinek, [',']) :: (e.tokens ++ after))

/-- The comma is taken, if there is one. -/
theorem AtArgument.comma {e : Expr} (h : AtArgument p e ts) :
    ∃ p', Moves p p' (e.tokens ++ ts) ∧ Settles (fun n => (if p.currentToken.type = .przecinek then
      parserAdvance n p else pure p).result) (.ok p') := by
  rcases h with hon | hon
  · have htype : p.currentToken.type ≠ .przecinek := by
      rw [hon.type]
      exact (tokens_start e ts).1
    refine ⟨p, ⟨hon, rfl, rfl⟩, .of_eq fun n => ?_⟩
    rw [if_neg htype]
    rfl
  · obtain ⟨p', hmoves, hadvance⟩ := hon.advance
    have htype : p.currentToken.type = .przecinek := hon.type
    refine ⟨p', hmoves, hadvance.congr fun n => ?_⟩
    rw [if_pos htype]

/-- A round of the loop over the arguments. -/
theorem reads_argument {e : Expr} (he : Reads e) (node : ASTNode) (h : AtArgument p e ts)
    (hends : Ends 0 ts) :
    ∃ p', Moves p p' ts ∧ ∃ N, ∀ F ≥ N, ∀ m ≥ N,
      (parseArguments (parseExpression F) (m + 1) node p).result =
        (if p'.currentToken.type = .przecinek then
          parseArguments (parseExpression F) m
            { node with children := node.children ++ [e.ast] } p'
        else pure ({ node with children := node.children ++ [e.ast] }, p')).result := by
  obtain ⟨p₁, hmoves₁, hcomma⟩ := h.comma
  obtain ⟨p₂, hmoves₂, hparses⟩ := he 0 (by omega) p₁ ts (tokensAt_zero e ▸ hmoves₁.on) hends
  obtain ⟨N₁, h₁⟩ := settles_iff.mp hcomma
  obtain ⟨N₂, h₂⟩ := settles_iff.mp hparses.expression
  refine ⟨p₂, hmoves₁.trans hmoves₂, N₁ + N₂, fun F hF m hm => ?_⟩
  rw [parseArguments, Logged.result_bind_of_ok (h₁ m (by omega)),
    Logged.result_bind_of_ok (h₂ F (by omega))]
  rfl

/-- The loop over the arguments. -/
theorem reads_arguments {e : Expr} {es : List Expr} (he : Reads e) (hes : ∀ x ∈ es, Reads x)
    (node : ASTNode)
    (h : AtArgument p e (Expr.moreTokens es ++ (.nawiasPrawy, [')']) :: rest)) :
    ∃ p', Moves p p' ((.nawiasPrawy, [')']) :: rest) ∧ ∃ N, ∀ F ≥ N, ∀ m ≥ N,
      (parseArguments (parseExpression F) m node p).result =
        .ok ({ node with children := node.children ++ (e.ast :: Expr.asts es) }, p') := by
  induction es generalizing e p node with
  | nil =>
      obtain ⟨p', hmoves, N, hN⟩ := reads_argument he node h (ends_more [] rest)
      refine ⟨p', hmoves, N + 1, fun F hF m hm => ?_⟩
      obtain ⟨m, rfl⟩ : ∃ n, m = n + 1 := ⟨m - 1, by omega⟩
      have htype : p'.currentToken.type ≠ .przecinek := by
        rw [hmoves.on.type]
        simp [Expr.moreTokens]
      rw [hN F (by omega) m (by omega), if_neg htype]
      rfl
  | cons x es ih =>
      obtain ⟨p₁, hmoves₁, N₁, h₁⟩ := reads_argument he node h (ends_more (x :: es) rest)
      have hon₁ := hmoves₁.on
      rw [Expr.moreTokens, List.cons_append, List.append_assoc] at hon₁
      obtain ⟨p₂, hmoves₂, N₂, h₂⟩ := ih (hes x List.mem_cons_self)
        (fun y hy => hes y (List.mem_cons_of_mem _ hy))
        { node with children := node.children ++ [e.ast] } (.inr hon₁)
      refine ⟨p₂, hmoves₁.trans hmoves₂, N₁ + N₂ + 1, fun F hF m hm => ?_⟩
      obtain ⟨m, rfl⟩ : ∃ n, m = n + 1 := ⟨m - 1, by omega⟩
      have htype : p₁.currentToken.type = .przecinek := hon₁.type
      rw [h₁ F (by omega) m (by omega), if_pos htype, h₂ F (by omega) m (by omega)]
      simp [Expr.asts]

/-- The list of arguments and its closing parenthesis. -/
theorem reads_argumentList {es : List Expr} (hes : ∀ x ∈ es, Reads x) (node : ASTNode)
    (hon : On p (Expr.argTokens es ++ (.nawiasPrawy, [')']) :: rest)) :
    ∃ p', Moves p p' rest ∧ ∃ N, ∀ F ≥ N, ∀ m ≥ N,
      (parseArgumentList (parseExpression F) m node p).result =
        .ok ({ node with children := node.children ++ Expr.asts es }, p') := by
  cases es with
  | nil =>
      obtain ⟨p', hmoves, hexpect⟩ := On.expect hon
      obtain ⟨N, hN⟩ := settles_iff.mp hexpect
      refine ⟨p', hmoves, N, fun F _ m hm => ?_⟩
      have htype : ¬p.currentToken.type ≠ .nawiasPrawy := fun hne => hne hon.type
      rw [parseArgumentList, if_neg htype]
      have hnil : { node with children := node.children ++ Expr.asts [] } = node := by
        rw [Expr.asts, List.append_nil]
        cases node
        rfl
      simp only [Logged.pure_bind]
      rw [Logged.result_bind_of_ok (hN m hm), hnil]
      rfl
  | cons e es =>
      rw [Expr.argTokens, List.append_assoc] at hon
      have htype : p.currentToken.type ≠ .nawiasPrawy := by
        rw [hon.type]
        exact (tokens_start e _).2
      obtain ⟨p₁, hmoves₁, N₁, h₁⟩ := reads_arguments (hes e List.mem_cons_self)
        (fun x hx => hes x (List.mem_cons_of_mem _ hx)) node (.inl hon)
      obtain ⟨p₂, hmoves₂, hexpect⟩ := hmoves₁.on.expect
      obtain ⟨N₂, h₂⟩ := settles_iff.mp hexpect
      refine ⟨p₂, hmoves₁.trans hmoves₂, N₁ + N₂, fun F hF m hm => ?_⟩
      rw [parseArgumentList, if_pos htype, Logged.result_bind_of_ok (h₁ F (by omega) m (by omega))]
      simp only
      rw [Logged.result_bind_of_ok (h₂ m (by omega))]
      rfl

/-- A call is read back with its arguments. -/
theorem reads_call {f : List Char} {args : List Expr} (hargs : ∀ x ∈ args, Reads x) :
    Reads (.call f args) := by
  refine reads_of_own le_rfl fun p rest hon _ => ?_
  have htokens : (Expr.call f args).tokens ++ rest = (.identyfikator, f) :: (.nawiasLewy, ['(']) ::
      (Expr.argTokens args ++ (.nawiasPrawy, [')']) :: rest) := by
    simp [Expr.tokens]
  rw [htokens] at hon
  obtain ⟨p₁, hmoves₁, hadvance₁⟩ := hon.advance
  obtain ⟨p₂, hmoves₂, hadvance₂⟩ := hmoves₁.on.advance
  obtain ⟨p₃, hmoves₃, N₃, h₃⟩ := reads_argumentList hargs
    { astNodeCreate .call with children := [{ astNodeCreate .identifier with strValue := f }] }
    hmoves₂.on
  obtain ⟨N₁, h₁⟩ := settles_iff.mp hadvance₁
  obtain ⟨N₂, h₂⟩ := settles_iff.mp hadvance₂
  refine ⟨p₃, (hmoves₁.trans hmoves₂).trans hmoves₃, .of_primary hon (by simp)
    ⟨N₁ + N₂ + N₃, fun F hF m hm => ?_⟩⟩
  have htype : p.currentToken.type = .identyfikator := hon.type
  have hopen : p₁.currentToken.type = .nawiasLewy := hmoves₁.on.type
  rw [parsePrimary, htype]
  simp only
  rw [parseName, Logged.result_bind_of_ok (h₁ m (by omega)), if_pos hopen,
    Logged.result_bind_of_ok (a := _) rfl, Logged.result_bind_of_ok (h₂ m (by omega)), hon.value]
  refine (Logged.result_bind_of_ok (h₃ F (by omega) m (by omega))).trans ?_
  rw [Expr.ast]
  rfl

/-! ## The round trip -/

mutual

/-- Every expression is read back, wherever it stands. -/
theorem reads : ∀ e : Expr, Reads e ∧ ReadsLeft e
  | .int n => ⟨reads_int n, readsLeft_of_top (reads_int n) rfl⟩
  | .string s => ⟨reads_string s, readsLeft_of_top (reads_string s) rfl⟩
  | .bool b => ⟨reads_bool b, readsLeft_of_top (reads_bool b) rfl⟩
  | .null => ⟨reads_null, readsLeft_of_top reads_null rfl⟩
  | .ident name => ⟨reads_ident name, readsLeft_of_top (reads_ident name) rfl⟩
  | .call _ args => ⟨reads_call (reads_all args), readsLeft_of_top (reads_call (reads_all args)) rfl⟩
  | .unary _ e => ⟨reads_unary (reads e).1, readsLeft_of_top (reads_unary (reads e).1) rfl⟩
  | .binary _ l r => reads_binary (reads l).2 (reads r).1

theorem reads_all : ∀ (es : List Expr), ∀ x ∈ es, Reads x
  | [], _, h => absurd h List.not_mem_nil
  | e :: es, x, h => by
      rcases List.mem_cons.mp h with hx | h
      · exact hx ▸ (reads e).1
      · exact reads_all es x h

end

/-- A name that is no keyword and fits into a token. -/
def IsName (name : List Char) : Prop :=
  IsWord name ∧ (∀ type, (name, type) ∉ keywords) ∧ name.length ≤ 255

/-- The expressions that have a printed form: integers that fit into an `i64`,
strings without quotes, names, and no lexeme of more than 255 characters. -/
inductive Expr.Valid : Expr → Prop
  | int {n : Nat} : n < 2 ^ 63 → Valid (.int n)
  | string {s : List Char} : (∀ c ∈ s, c ≠ quote ∧ c ≠ nul) → s.length ≤ 255 → Valid (.string s)
  | bool {b : Bool} : Valid (.bool b)
  | null : Valid .null
  | ident {name : List Char} : IsName name → Valid (.ident name)
  | call {f : List Char} {args : List Expr} : IsName f → (∀ e ∈ args, Valid e) →
      Valid (.call f args)
  | unary {op : UnaryOp} {e : Expr} : Valid e → Valid (.unary op e)
  | binary {op : BinaryOp} {l r : Expr} : Valid l → Valid r → Valid (.binary op l r)

/-- A token that the lexer can return. -/
def IsLexeme (t : TokenType × List Char) : Prop := Lexeme t.1 t.2 ∧ t.2.length ≤ 255

theorem isLexeme_singleton {t : TokenType × List Char} (h : IsLexeme t) :
    ∀ x ∈ [t], IsLexeme x := by
  simpa using h

theorem isLexeme_name {name : List Char} (h : IsName name) : IsLexeme (.identyfikator, name) :=
  ⟨.identifier h.1 h.2.1, h.2.2⟩

theorem isLexeme_one {a : Char} {type : TokenType} (h : oneCharType a = type)
    (hknown : type ≠ .nieznany) : IsLexeme (type, [a]) :=
  ⟨.operator₁ h hknown, by simp⟩

theorem isLexeme_int {n : Nat} (h : n < 2 ^ 63) : IsLexeme (.liczba, Nat.toDigits 10 n) := by
  have hdigits : ∀ c ∈ Nat.toDigits 10 n, c.isDigit := fun c hc =>
    Nat.isDigit_of_mem_toDigits (by decide) (by decide) hc
  have hlen : (Nat.toDigits 10 n).length ≤ 255 := by
    rw [Nat.length_toDigits_le_iff (by decide) (by decide)]
    exact h.trans (by decide)
  obtain ⟨c, cs, hcs⟩ := List.exists_cons_of_ne_nil (Nat.toDigits_ne_nil (n := n) (b := 10))
  rw [hcs] at hdigits hlen ⊢
  have hdot : '.' ∉ cs := fun hmem =>
    absurd (hdigits _ (List.mem_cons_of_mem _ hmem)) (by decide)
  refine ⟨.number ⟨c, cs, rfl, hdigits c List.mem_cons_self, fun x hx => ?_, ?_⟩, hlen⟩
  · exact .inl (hdigits x (List.mem_cons_of_mem _ hx))
  · rw [List.count_eq_zero_of_not_mem hdot]
    exact Nat.zero_le _

theorem isLexeme_binary (op : BinaryOp) : IsLexeme op.lexeme := by
  cases op <;>
    first
      | exact ⟨.operator₂ (by decide), by decide⟩
      | exact ⟨.operator₁ (by decide) (by decide), by decide⟩

theorem isLexeme_unary (op : UnaryOp) : IsLexeme op.lexeme := by
  cases op <;> exact ⟨.operator₁ (by decide) (by decide), by decide⟩

theorem isLexeme_parens {needed : Bool} (h : ∀ t ∈ ts, IsLexeme t) :
    ∀ t ∈ parens needed ts, IsLexeme t := by
  have hopen : IsLexeme (.nawiasLewy, ['(']) := isLexeme_one rfl (by decide)
  have hclose : IsLexeme (.nawiasPrawy, [')']) := isLexeme_one rfl (by decide)
  cases needed with
  | false => exact h
  | true =>
      intro t ht
      simp only [parens, if_true, List.mem_cons, List.mem_append, List.not_mem_nil,
        or_false] at ht
      rcases ht with rfl | ht | rfl
      · exact hopen
      · exact h t ht
      · exact hclose

/-- The tokens of a list of arguments are lexemes, with the commas. -/
theorem isLexeme_arguments {es : List Expr} (h : ∀ e ∈ es, ∀ t ∈ e.tokens, IsLexeme t) :
    (∀ t ∈ Expr.moreTokens es, IsLexeme t) ∧ ∀ t ∈ Expr.argTokens es, IsLexeme t := by
  have hcomma : IsLexeme (.przecinek, [',']) := isLexeme_one rfl (by decide)
  have hmore : ∀ t ∈ Expr.moreTokens es, IsLexeme t := by
    induction es with
    | nil => simp [Expr.moreTokens]
    | cons e es ih =>
        intro t ht
        rw [Expr.moreTokens, List.mem_cons, List.mem_append] at ht
        rcases ht with rfl | ht | ht
        · exact hcomma
        · exact h e List.mem_cons_self t ht
        · exact ih (fun x hx => h x (List.mem_cons_of_mem _ hx)) t ht
  refine ⟨hmore, ?_⟩
  cases es with
  | nil => simp [Expr.argTokens]
  | cons e es =>
      intro t ht
      rw [Expr.argTokens, List.mem_append] at ht
      rcases ht with ht | ht
      · exact h e List.mem_cons_self t ht
      · exact hmore t (by simp [Expr.moreTokens, ht])

/-- A valid expression has a printed form. -/
theorem Expr.Valid.tokens {e : Expr} (he : e.Valid) : ∀ t ∈ e.tokens, IsLexeme t := by
  induction he with
  | int h => exact isLexeme_singleton (isLexeme_int h)
  | string h hlen => exact isLexeme_singleton ⟨.string h, hlen⟩
  | @bool b =>
      cases b
      · exact isLexeme_singleton ⟨.keyword (by decide), by decide⟩
      · exact isLexeme_singleton ⟨.keyword (by decide), by decide⟩
  | null => exact isLexeme_singleton ⟨.keyword (by decide), by decide⟩
  | ident h => exact isLexeme_singleton (isLexeme_name h)
  | call hf _ ih =>
      have hopen : IsLexeme (.nawiasLewy, ['(']) := isLexeme_one rfl (by decide)
      have hclose : IsLexeme (.nawiasPrawy, [')']) := isLexeme_one rfl (by decide)
      intro t ht
      simp only [Expr.tokens, List.mem_cons, List.mem_append, List.not_mem_nil, or_false] at ht
      rcases ht with rfl | rfl | ht | rfl
      · exact isLexeme_name hf
      · exact hopen
      · exact (isLexeme_arguments ih).2 t ht
      · exact hclose
  | @unary op e _ ih =>
      intro t ht
      rw [Expr.tokens, List.mem_cons] at ht
      rcases ht with rfl | ht
      · exact isLexeme_unary op
      · exact isLexeme_parens ih t ht
  | @binary op l r _ _ ihl ihr =>
      intro t ht
      rw [Expr.tokens, List.mem_append, List.mem_cons] at ht
      rcases ht with ht | rfl | ht
      · exact isLexeme_parens ihl t ht
      · exact isLexeme_binary op
      · exact isLexeme_parens ihr t ht

/-- The tokens with a space behind each. -/
def spaced (ts : Lexemes) : List Char := ts.flatMap fun t => spell t.1 t.2 ++ [' ']

theorem written_spaced (h : ∀ t ∈ ts, IsLexeme t) : Written ts (spaced ts) := by
  induction ts with
  | nil => exact .nil
  | cons t ts ih =>
      obtain ⟨hlexeme, hlen⟩ := h t List.mem_cons_self
      have hrest := ih fun x hx => h x (List.mem_cons_of_mem _ hx)
      have hwritten := Written.cons hlexeme hlen (.space (c := ' ') (by decide) .nil)
        (by simp) (by simp) hrest
      rwa [spaced, List.flatMap_cons, List.append_assoc]

/-- Lex and parse an expression. -/
def readExpression (fuel : Nat) (source : Nat → Char) : Parse (Option ASTNode × Parser) := do
  let p ← parserInit fuel (lexerInit source)
  parseExpression fuel p

/-- `parser_init` reads the first token. -/
theorem parserInit_stream {lex : Lexer} (h : Stream lex ts) :
    ∃ p, On p ts ∧ p.error = "" ∧ p.hasError = false ∧
      Settles (fun n => (parserInit n lex).result) (.ok p) := by
  have hinit : ∀ {tok : Token} {lex' : Lexer}, Lexes lex tok lex' →
      Settles (fun n => (parserInit n lex).result) (.ok ⟨lex', tok, "", false⟩) := by
    intro tok lex' hlex
    filter_upwards [hlex] with n hn
    rw [parserInit, Logged.result_bind_of_ok (Logged.result_ofOption.mpr hn)]
    rfl
  cases ts with
  | nil =>
      obtain ⟨tok, lex', htype, -, hlex, -⟩ := h
      exact ⟨⟨lex', tok, "", false⟩, htype, rfl, rfl, hinit hlex⟩
  | cons t ts =>
      obtain ⟨tok, lex', htype, hvalue, hlex, hrest⟩ := h
      exact ⟨⟨lex', tok, "", false⟩, ⟨Prod.ext htype hvalue, hrest⟩, rfl, rfl, hinit hlex⟩

/-- A valid expression has a printed form, and from every text that holds it the
parser reads back its syntax tree, reports nothing, and stops in front of the
token after it. That token is no operator and no opening parenthesis. -/
theorem expression_round_trip {e : Expr} (he : e.Valid) (hrest : ∀ t ∈ rest, IsLexeme t)
    (hends : Ends 0 rest) :
    (∃ text, Written (e.tokens ++ rest) text) ∧
      ∀ (g text : List Char) (source : Nat → Char), Gap g → Written (e.tokens ++ rest) text →
        ReadsAt source 0 (g ++ (text ++ [nul])) →
        ∃ p, On p rest ∧ p.error = "" ∧ p.hasError = false ∧
          ∃ N, ∀ fuel ≥ N, (readExpression fuel source).result = .ok (some e.ast, p) := by
  constructor
  · refine ⟨_, written_spaced fun t ht => ?_⟩
    rcases List.mem_append.mp ht with ht | ht
    · exact he.tokens t ht
    · exact hrest t ht
  · intro g text source hg htext hsource
    have hstream := written_stream htext hg (ahead_lexerInit hsource)
    obtain ⟨p₁, hon, herror, hhas, hinit⟩ := parserInit_stream hstream
    obtain ⟨p₂, hmoves, hparses⟩ := (reads e).1 0 (by omega) p₁ rest (tokensAt_zero e ▸ hon) hends
    obtain ⟨N₁, h₁⟩ := settles_iff.mp hinit
    obtain ⟨N₂, h₂⟩ := settles_iff.mp hparses.expression
    refine ⟨p₂, hmoves.on, hmoves.error.trans herror, hmoves.hasError.trans hhas, N₁ + N₂,
      fun fuel hfuel => ?_⟩
    rw [readExpression, Logged.result_bind_of_ok (h₁ fuel (by omega))]
    exact h₂ fuel (by omega)

/-- `1 - (x - 2)` in front of a semicolon: the right operand needs parentheses. -/
theorem expression_round_trip_difference : ∃ p,
    On p [(.srednikropek, [';'])] ∧ p.error = "" ∧ p.hasError = false ∧ ∃ N, ∀ fuel ≥ N,
      (readExpression fuel (sourceOf "1 - ( x - 2 ) ; ".toList)).result =
        .ok (some (Expr.binary .sub (.int 1) (.binary .sub (.ident ['x']) (.int 2))).ast, p) := by
  have hname : IsName ['x'] := ⟨⟨'x', [], rfl, by decide, by simp⟩, by simp [keywords], by decide⟩
  have hvalid : (Expr.binary .sub (.int 1) (.binary .sub (.ident ['x']) (.int 2))).Valid :=
    .binary (.int (by decide)) (.binary (.ident hname) (.int (by decide)))
  have hrest : ∀ t ∈ [(TokenType.srednikropek, [';'])], IsLexeme t :=
    isLexeme_singleton (isLexeme_one rfl (by decide))
  have hends : Ends 0 [(TokenType.srednikropek, [';'])] := by
    rw [Ends, nextType_cons]
    decide
  have htokens : ∀ t ∈ (Expr.binary .sub (.int 1) (.binary .sub (.ident ['x']) (.int 2))).tokens ++
      [(TokenType.srednikropek, [';'])], IsLexeme t := fun t ht =>
    (List.mem_append.mp ht).elim (hvalid.tokens t) (hrest t)
  exact (expression_round_trip hvalid hrest hends).2 [] _ _ .nil (written_spaced htokens)
    (readsAt_sourceOf _ [])

end PolandOS.PolskiScript
