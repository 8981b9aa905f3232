import PolandOS.Lang.ExprRoundTrip

/-! # Programs that are read back

The statements of `POLSKISCRIPT.md`, printed as tokens, and the trees that they stand
for. `program_round_trip`: the parser reads back every program, however deep its blocks
are nested, stops at the end of the text and reports nothing. Expressions that stand
alone as statements are left out, since the parser does not read those back from every
line (`PolandOS.Lang.Backtracking`).
-/

namespace PolandOS.PolskiScript

open Fuel Logging

/-! ## Statements and their printed form -/

/-- Statements. -/
inductive Stmt where
  | varDecl (name : List Char) (e : Option Expr)
  | assign (name : List Char) (e : Expr)
  | print (args : List Expr)
  | ifThen (c : Expr) (body : List Stmt)
  | ifElse (c : Expr) (body other : List Stmt)
  | while (c : Expr) (body : List Stmt)
  | return (e : Option Expr)
  | break
  | continue
  | block (body : List Stmt)

/-- The semicolon behind a statement. -/
def semicolon : TokenType × List Char := (.srednikropek, [';'])

/-- The brace that closes a block. -/
def closingBrace : TokenType × List Char := (.klamraPrawa, ['}'])

/-- Tokens in braces. -/
def braces (ts : Lexemes) : Lexemes := (.klamraLewa, ['{']) :: (ts ++ [closingBrace])

/-- Tokens in parentheses. -/
def inParens (ts : Lexemes) : Lexemes := (.nawiasLewy, ['(']) :: (ts ++ [(.nawiasPrawy, [')'])])

mutual

/-- The tokens of a statement. -/
def Stmt.tokens : Stmt → Lexemes
  | .varDecl name none => [(.zmienna, "zmienna".toList), (.identyfikator, name), semicolon]
  | .varDecl name (some e) =>
    (.zmienna, "zmienna".toList) :: (.identyfikator, name) :: (.przypisanie, ['=']) ::
      (e.tokens ++ [semicolon])
  | .assign name e =>
    (.identyfikator, name) :: (.przypisanie, ['=']) :: (e.tokens ++ [semicolon])
  | .print args =>
    (.drukuj, "drukuj".toList) :: (inParens (Expr.argTokens args) ++ [semicolon])
  | .ifThen c body =>
    (.jesli, "jesli".toList) :: (inParens c.tokens ++ braces (Stmt.listTokens body))
  | .ifElse c body other =>
    (.jesli, "jesli".toList) :: (inParens c.tokens ++ (braces (Stmt.listTokens body) ++
      (.inaczej, "inaczej".toList) :: braces (Stmt.listTokens other)))
  | .while c body =>
    (.dopoki, "dopoki".toList) :: (inParens c.tokens ++ braces (Stmt.listTokens body))
  | .return none => [(.zwroc, "zwroc".toList), semicolon]
  | .return (some e) => (.zwroc, "zwroc".toList) :: (e.tokens ++ [semicolon])
  | .break => [(.przerwij, "przerwij".toList), semicolon]
  | .continue => [(.kontynuuj, "kontynuuj".toList), semicolon]
  | .block body => braces (Stmt.listTokens body)

/-- The tokens of statements in a row. -/
def Stmt.listTokens : List Stmt → Lexemes
  | [] => []
  | s :: ss => s.tokens ++ Stmt.listTokens ss

end

/-- A block over the trees of its statements. -/
def blockNode (cs : List ASTNode) : ASTNode := { astNodeCreate .block with children := cs }

mutual

/-- The syntax tree of a statement. -/
def Stmt.ast : Stmt → ASTNode
  | .varDecl name e =>
    { astNodeCreate .varDecl with strValue := name, children := (e.map Expr.ast).toList }
  | .assign name e => { astNodeCreate .assign with strValue := name, children := [e.ast] }
  | .print args => { astNodeCreate .print with children := Expr.asts args }
  | .ifThen c body =>
    { astNodeCreate .if with children := [c.ast, blockNode (Stmt.asts body)] }
  | .ifElse c body other =>
    { astNodeCreate .if with
      children := [c.ast, blockNode (Stmt.asts body), blockNode (Stmt.asts other)] }
  | .while c body =>
    { astNodeCreate .while with children := [c.ast, blockNode (Stmt.asts body)] }
  | .return e => { astNodeCreate .return with children := (e.map Expr.ast).toList }
  | .break => astNodeCreate .break
  | .continue => astNodeCreate .continue
  | .block body => blockNode (Stmt.asts body)

/-- The syntax trees of statements in a row. -/
def Stmt.asts : List Stmt → List ASTNode
  | [] => []
  | s :: ss => s.ast :: Stmt.asts ss

end

/-- The syntax tree of a program. -/
def programNode (ss : List Stmt) : ASTNode :=
  { astNodeCreate .program with children := Stmt.asts ss }

/-! ## The parser on statements -/

variable {p p' : Parser} {ts rest : Lexemes}

/-- A computation that settles, and what settles behind it. -/
theorem settles_bind {α β : Type} {x : Nat → Parse α} {f : Nat → α → Parse β} {a : α}
    {r : Except Stop β} (hx : Settles (fun n => (x n).result) (.ok a))
    (hf : Settles (fun n => (f n a).result) r) :
    Settles (fun n => (x n >>= f n).result) r := by
  filter_upwards [hx, hf] with n h₁ h₂
  rw [Logged.result_bind_of_ok h₁, h₂]

/-- A child that is there is added. -/
theorem addChild_result (parent c : ASTNode) :
    (astNodeAddChild parent (some c)).result =
      .ok { parent with children := parent.children ++ [c] } := rfl

/-- What the parser of statements has to do with a printed statement. -/
def ReadsStmt (s : Stmt) : Prop :=
  ∀ p rest, p.hasError = false → On p (s.tokens ++ rest) → nextType rest ≠ .inaczej →
    ∃ p', Moves p p' rest ∧ Settles (fun n => (parseStatement n p).result) (.ok (some s.ast, p'))

/-- An expression is read up to a token that ends it. -/
theorem reads_expression (e : Expr) (hon : On p (e.tokens ++ rest)) (hends : Ends 0 rest) :
    ∃ p', Moves p p' rest ∧
      Settles (fun n => (parseExpression n p).result) (.ok (some e.ast, p')) := by
  obtain ⟨p', hmoves, hparses⟩ := (reads e).1 0 (by omega) p rest (tokensAt_zero e ▸ hon) hends
  exact ⟨p', hmoves, hparses.expression⟩

/-- No expression begins with a semicolon. -/
theorem expression_start : ∀ (e : Expr) (rest : Lexemes),
    nextType (e.tokens ++ rest) ≠ .srednikropek
  | .int _, _ | .string _, _ | .null, _ | .ident _, _ | .call _ _, _ => by simp [Expr.tokens]
  | .bool b, _ => by cases b <;> simp [Expr.tokens]
  | .unary op _, _ => by cases op <;> simp [Expr.tokens, UnaryOp.lexeme]
  | .binary op l r, rest => by
      rw [Expr.tokens, parens]
      split
      · simp
      · rw [List.append_assoc]
        exact expression_start l _

theorem ends_semicolon (ts : Lexemes) : Ends 0 (semicolon :: ts) := by
  rw [Ends, nextType_cons]
  decide

theorem ends_closingParen (ts : Lexemes) : Ends 0 ((.nawiasPrawy, [')']) :: ts) := by
  rw [Ends, nextType_cons]
  decide

/-- No statement begins with `inaczej`, with a closing brace or at the end. -/
theorem Stmt.start (s : Stmt) (rest : Lexemes) :
    nextType (s.tokens ++ rest) ≠ .inaczej ∧ nextType (s.tokens ++ rest) ≠ .klamraPrawa ∧
      nextType (s.tokens ++ rest) ≠ .koniec := by
  cases s with
  | varDecl name e => cases e <;> simp [Stmt.tokens]
  | «return» e => cases e <;> simp [Stmt.tokens]
  | _ => simp [Stmt.tokens, braces]

theorem start_list (ss : List Stmt) {t : TokenType × List Char} (ht : t.1 ≠ .inaczej)
    (rest : Lexemes) : nextType (Stmt.listTokens ss ++ t :: rest) ≠ .inaczej := by
  cases ss with
  | nil => exact ht
  | cons s ss =>
      rw [Stmt.listTokens, List.append_assoc]
      exact (s.start _).1

theorem start_list_end (ss : List Stmt) : nextType (Stmt.listTokens ss) ≠ .inaczej := by
  cases ss with
  | nil => simp [Stmt.listTokens, nextType]
  | cons s ss => exact (s.start _).1

/-- The loop of a block reads its statements up to the closing brace. The induction is
on the statements; the node that is built carries the children read so far. -/
theorem reads_blockLoop {ss : List Stmt} (hss : ∀ s ∈ ss, ReadsStmt s) (block : ASTNode)
    (hp : p.hasError = false) (hon : On p (Stmt.listTokens ss ++ closingBrace :: rest)) :
    ∃ p', Moves p p' (closingBrace :: rest) ∧ ∃ N, ∀ F ≥ N, ∀ m ≥ N,
      (blockLoop (parseStatement F) m block p).result =
        .ok ({ block with children := block.children ++ Stmt.asts ss }, p') := by
  induction ss generalizing p block with
  | nil =>
      refine ⟨p, ⟨hon, rfl, rfl⟩, 1, fun F _ m hm => ?_⟩
      obtain ⟨m, rfl⟩ : ∃ n, m = n + 1 := ⟨m - 1, by omega⟩
      have htype : p.currentToken.type = .klamraPrawa := hon.type
      have hnil : { block with children := block.children ++ Stmt.asts [] } = block := by
        rw [Stmt.asts, List.append_nil]
        cases block
        rfl
      rw [blockLoop, htype, if_neg (by simp), hnil]
      rfl
  | cons s ss ih =>
      rw [Stmt.listTokens, List.append_assoc] at hon
      obtain ⟨-, hbrace, hend⟩ := s.start (Stmt.listTokens ss ++ closingBrace :: rest)
      obtain ⟨p₁, hmoves₁, hstmt⟩ := hss s List.mem_cons_self p _ hp hon
        (start_list ss (by decide) rest)
      have hp₁ : p₁.hasError = false := hmoves₁.hasError.trans hp
      obtain ⟨p₂, hmoves₂, N₂, h₂⟩ := ih (fun x hx => hss x (List.mem_cons_of_mem _ hx))
        { block with children := block.children ++ [s.ast] } hp₁ hmoves₁.on
      obtain ⟨N₁, h₁⟩ := settles_iff.mp hstmt
      refine ⟨p₂, hmoves₁.trans hmoves₂, N₁ + N₂ + 1, fun F hF m hm => ?_⟩
      obtain ⟨m, rfl⟩ : ∃ n, m = n + 1 := ⟨m - 1, by omega⟩
      have htype : p.currentToken.type ≠ .klamraPrawa ∧ p.currentToken.type ≠ .koniec := by
        rw [hon.type]
        exact ⟨hbrace, hend⟩
      rw [blockLoop, if_pos htype, Logged.result_bind_of_ok rfl,
        Logged.result_bind_of_ok (h₁ F (by omega))]
      simp only [Option.isSome_some, if_true]
      rw [Logged.result_bind_of_ok (addChild_result _ _), Logged.result_bind_of_ok rfl, hp₁]
      simp only [Bool.false_eq_true, if_false]
      rw [h₂ F (by omega) m (by omega)]
      simp [Stmt.asts]

/-- A block in braces. -/
theorem reads_block {ss : List Stmt} (hss : ∀ s ∈ ss, ReadsStmt s) (hp : p.hasError = false)
    (hon : On p (braces (Stmt.listTokens ss) ++ rest)) :
    ∃ p', Moves p p' rest ∧ Settles (fun n => (parseBlock (parseStatement n) n p).result)
      (.ok (blockNode (Stmt.asts ss), p')) := by
  have hbraces : braces (Stmt.listTokens ss) ++ rest =
      (.klamraLewa, ['{']) :: (Stmt.listTokens ss ++ closingBrace :: rest) := by
    simp [braces]
  rw [hbraces] at hon
  obtain ⟨p₁, hmoves₁, hopen⟩ := hon.expect
  obtain ⟨p₂, hmoves₂, N, hN⟩ := reads_blockLoop hss (astNodeCreate .block)
    (hmoves₁.hasError.trans hp) hmoves₁.on
  obtain ⟨p₃, hmoves₃, hclose⟩ := hmoves₂.on.expect
  refine ⟨p₃, (hmoves₁.trans hmoves₂).trans hmoves₃, ?_⟩
  have hloop : Settles (fun n => (blockLoop (parseStatement n) n (astNodeCreate .block) p₁).result)
      (.ok (blockNode (Stmt.asts ss), p₂)) := .of_le fun n hn => hN n hn n hn
  exact settles_bind hopen (settles_bind hloop (settles_bind hclose (.of_eq fun _ => rfl)))

/-- A condition and its block: what `jesli` and `dopoki` have in common. -/
theorem reads_conditional {ss : List Stmt} {c : Expr} {t : TokenType × List Char}
    (type : ASTNodeType) (hss : ∀ s ∈ ss, ReadsStmt s) (hp : p.hasError = false)
    (hon : On p (t :: (inParens c.tokens ++ (braces (Stmt.listTokens ss) ++ rest)))) :
    ∃ p', Moves p p' rest ∧
      Settles (fun n => (parseConditional (parseStatement n) n type p).result)
        (.ok ({ astNodeCreate type with children := [c.ast, blockNode (Stmt.asts ss)] }, p')) := by
  have hparens : inParens c.tokens ++ (braces (Stmt.listTokens ss) ++ rest) =
      (.nawiasLewy, ['(']) ::
        (c.tokens ++ (.nawiasPrawy, [')']) :: (braces (Stmt.listTokens ss) ++ rest)) := by
    simp [inParens]
  rw [hparens] at hon
  obtain ⟨p₁, hmoves₁, hadvance⟩ := hon.advance
  obtain ⟨p₂, hmoves₂, hopen⟩ := hmoves₁.on.expect
  obtain ⟨p₃, hmoves₃, hexpr⟩ := reads_expression c hmoves₂.on (ends_closingParen _)
  obtain ⟨p₄, hmoves₄, hclose⟩ := hmoves₃.on.expect
  have hmoves := ((hmoves₁.trans hmoves₂).trans hmoves₃).trans hmoves₄
  obtain ⟨p₅, hmoves₅, hblock⟩ := reads_block hss (hmoves.hasError.trans hp) hmoves₄.on
  refine ⟨p₅, hmoves.trans hmoves₅, ?_⟩
  refine settles_bind hadvance (settles_bind hopen (settles_bind hexpr (settles_bind hclose
    (settles_bind hblock ?_))))
  exact .of_eq fun _ => rfl

/-! ## One lemma for each form -/

/-- A statement is parsed by the branch that its first token chooses. -/
theorem settles_statement {r : Except Stop (Option ASTNode × Parser)}
    (h : Settles (fun n => (parseStatementWith (parseStatement n) n p).result) r) :
    Settles (fun n => (parseStatement n p).result) r := .of_succ h

/-- A declaration is read back, with its value or without. -/
theorem reads_varDecl (name : List Char) (e : Option Expr) : ReadsStmt (.varDecl name e) := by
  intro p rest _ hon _
  cases e with
  | none =>
      have htype : p.currentToken.type = .zmienna := hon.type
      obtain ⟨p₁, hmoves₁, hadvance₁⟩ := hon.advance
      obtain ⟨p₂, hmoves₂, hadvance₂⟩ := hmoves₁.on.advance
      obtain ⟨p₃, hmoves₃, hsemi⟩ := hmoves₂.on.expect
      refine ⟨p₃, (hmoves₁.trans hmoves₂).trans hmoves₃, settles_statement ?_⟩
      have hname : p₁.currentToken.type = .identyfikator := hmoves₁.on.type
      have hinit : p₂.currentToken.type = .srednikropek := hmoves₂.on.type
      have hvalue : p₁.currentToken.value = name := hmoves₁.on.value
      simp only [parseStatementWith, htype]
      refine settles_bind hadvance₁ ?_
      simp only [hname, hvalue, ne_eq, not_true_eq_false, if_false]
      refine settles_bind hadvance₂ ?_
      simp only [hinit, reduceCtorEq, if_false]
      refine settles_bind (a := ({ astNodeCreate .varDecl with strValue := name }, p₂)) ?_
        (settles_bind hsemi (.of_eq fun _ => rfl))
      exact .of_eq fun _ => rfl
  | some e =>
      have htokens : (Stmt.varDecl name (some e)).tokens ++ rest =
          (.zmienna, "zmienna".toList) :: (.identyfikator, name) :: (.przypisanie, ['=']) ::
            (e.tokens ++ semicolon :: rest) := by
        simp [Stmt.tokens]
      rw [htokens] at hon
      have htype : p.currentToken.type = .zmienna := hon.type
      obtain ⟨p₁, hmoves₁, hadvance₁⟩ := hon.advance
      obtain ⟨p₂, hmoves₂, hadvance₂⟩ := hmoves₁.on.advance
      obtain ⟨p₃, hmoves₃, hadvance₃⟩ := hmoves₂.on.advance
      obtain ⟨p₄, hmoves₄, hexpr⟩ := reads_expression e hmoves₃.on (ends_semicolon rest)
      obtain ⟨p₅, hmoves₅, hsemi⟩ := hmoves₄.on.expect
      have hmoves := (((hmoves₁.trans hmoves₂).trans hmoves₃).trans hmoves₄).trans hmoves₅
      refine ⟨p₅, hmoves, settles_statement ?_⟩
      have hname : p₁.currentToken.type = .identyfikator := hmoves₁.on.type
      have hinit : p₂.currentToken.type = .przypisanie := hmoves₂.on.type
      simp only [parseStatementWith, htype]
      refine settles_bind hadvance₁ ?_
      simp only [hname, hmoves₁.on.value, ne_eq, not_true_eq_false, if_false]
      refine settles_bind hadvance₂ ?_
      simp only [hinit, if_true]
      refine settles_bind (a := ({ astNodeCreate .varDecl with
        strValue := name, children := [e.ast] }, p₄)) ?_ (settles_bind hsemi (.of_eq fun _ => rfl))
      exact settles_bind hadvance₃ (settles_bind hexpr (.of_eq fun _ => rfl))

theorem reads_assign (name : List Char) (e : Expr) : ReadsStmt (.assign name e) := by
  intro p rest _ hon _
  have htokens : (Stmt.assign name e).tokens ++ rest =
      (.identyfikator, name) :: (.przypisanie, ['=']) :: (e.tokens ++ semicolon :: rest) := by
    simp [Stmt.tokens]
  rw [htokens] at hon
  have htype : p.currentToken.type = .identyfikator := hon.type
  obtain ⟨p₁, hmoves₁, hadvance₁⟩ := hon.advance
  obtain ⟨p₂, hmoves₂, hadvance₂⟩ := hmoves₁.on.advance
  obtain ⟨p₃, hmoves₃, hexpr⟩ := reads_expression e hmoves₂.on (ends_semicolon rest)
  obtain ⟨p₄, hmoves₄, hsemi⟩ := hmoves₃.on.expect
  refine ⟨p₄, ((hmoves₁.trans hmoves₂).trans hmoves₃).trans hmoves₄, settles_statement ?_⟩
  have hassign : p₁.currentToken.type = .przypisanie := hmoves₁.on.type
  simp only [parseStatementWith, htype]
  refine settles_bind hadvance₁ ?_
  simp only [hassign, hon.value, if_true]
  refine settles_bind hadvance₂ (settles_bind hexpr (settles_bind
    (.of_eq fun _ => addChild_result _ _) (settles_bind hsemi (.of_eq fun _ => rfl))))

/-- `drukuj` is read back with its arguments. -/
theorem reads_print (args : List Expr) : ReadsStmt (.print args) := by
  intro p rest _ hon _
  have htokens : (Stmt.print args).tokens ++ rest =
      (.drukuj, "drukuj".toList) :: (.nawiasLewy, ['(']) ::
        (Expr.argTokens args ++ (.nawiasPrawy, [')']) :: semicolon :: rest) := by
    simp [Stmt.tokens, inParens]
  rw [htokens] at hon
  have htype : p.currentToken.type = .drukuj := hon.type
  obtain ⟨p₁, hmoves₁, hadvance⟩ := hon.advance
  obtain ⟨p₂, hmoves₂, hopen⟩ := hmoves₁.on.expect
  obtain ⟨p₃, hmoves₃, N, hN⟩ := reads_argumentList (reads_all args) (astNodeCreate .print)
    hmoves₂.on
  obtain ⟨p₄, hmoves₄, hsemi⟩ := hmoves₃.on.expect
  refine ⟨p₄, ((hmoves₁.trans hmoves₂).trans hmoves₃).trans hmoves₄, settles_statement ?_⟩
  simp only [parseStatementWith, htype]
  refine settles_bind hadvance (settles_bind hopen ?_)
  have hargs : Settles (fun n =>
      (parseArgumentList (parseExpression n) n (astNodeCreate .print) p₂).result)
      (.ok ((Stmt.print args).ast, p₃)) := by
    refine .of_le (N := N) fun n hn => (hN n hn n hn).trans ?_
    simp [Stmt.ast, astNodeCreate]
  exact settles_bind hargs (settles_bind hsemi (.of_eq fun _ => rfl))

theorem reads_ifThen {c : Expr} {body : List Stmt} (hbody : ∀ s ∈ body, ReadsStmt s) :
    ReadsStmt (.ifThen c body) := by
  intro p rest hp hon helse
  have htype : p.currentToken.type = .jesli := hon.type
  rw [Stmt.tokens, List.cons_append, List.append_assoc] at hon
  obtain ⟨p', hmoves, hcond⟩ := reads_conditional .if hbody hp hon
  refine ⟨p', hmoves, settles_statement ?_⟩
  have hnext : ¬p'.currentToken.type = .inaczej := by
    rw [hmoves.on.type]
    exact helse
  simp only [parseStatementWith, htype]
  refine settles_bind hcond ?_
  simp only [if_neg hnext]
  exact .of_eq fun _ => rfl

theorem reads_ifElse {c : Expr} {body other : List Stmt} (hbody : ∀ s ∈ body, ReadsStmt s)
    (hother : ∀ s ∈ other, ReadsStmt s) : ReadsStmt (.ifElse c body other) := by
  intro p rest hp hon _
  have htype : p.currentToken.type = .jesli := hon.type
  rw [Stmt.tokens, List.cons_append, List.append_assoc, List.append_assoc,
    List.cons_append] at hon
  obtain ⟨p₁, hmoves₁, hcond⟩ := reads_conditional .if hbody hp hon
  obtain ⟨p₂, hmoves₂, hadvance⟩ := hmoves₁.on.advance
  obtain ⟨p₃, hmoves₃, hblock⟩ := reads_block hother
    ((hmoves₁.trans hmoves₂).hasError.trans hp) hmoves₂.on
  refine ⟨p₃, (hmoves₁.trans hmoves₂).trans hmoves₃, settles_statement ?_⟩
  have hnext : p₁.currentToken.type = .inaczej := hmoves₁.on.type
  simp only [parseStatementWith, htype]
  refine settles_bind hcond ?_
  simp only [if_pos hnext]
  exact settles_bind hadvance (settles_bind hblock (.of_eq fun _ => rfl))

theorem reads_while {c : Expr} {body : List Stmt} (hbody : ∀ s ∈ body, ReadsStmt s) :
    ReadsStmt (.while c body) := by
  intro p rest hp hon _
  have htype : p.currentToken.type = .dopoki := hon.type
  rw [Stmt.tokens, List.cons_append, List.append_assoc] at hon
  obtain ⟨p', hmoves, hcond⟩ := reads_conditional .while hbody hp hon
  refine ⟨p', hmoves, settles_statement ?_⟩
  simp only [parseStatementWith, htype]
  exact settles_bind hcond (.of_eq fun _ => rfl)

/-- `zwroc` is read back, with its value or without. -/
theorem reads_return (e : Option Expr) : ReadsStmt (.return e) := by
  intro p rest _ hon _
  have htype : p.currentToken.type = .zwroc := by
    cases e <;> exact hon.type
  cases e with
  | none =>
      obtain ⟨p₁, hmoves₁, hadvance⟩ := hon.advance
      obtain ⟨p₂, hmoves₂, hsemi⟩ := hmoves₁.on.expect
      refine ⟨p₂, hmoves₁.trans hmoves₂, settles_statement ?_⟩
      have hnone : p₁.currentToken.type = .srednikropek := hmoves₁.on.type
      simp only [parseStatementWith, htype]
      refine settles_bind hadvance ?_
      simp only [hnone, ne_eq, not_true_eq_false, if_false]
      refine settles_bind (a := (astNodeCreate .return, p₁)) ?_
        (settles_bind hsemi (.of_eq fun _ => rfl))
      exact .of_eq fun _ => rfl
  | some e =>
      have htokens : (Stmt.return (some e)).tokens ++ rest =
          (.zwroc, "zwroc".toList) :: (e.tokens ++ semicolon :: rest) := by
        simp [Stmt.tokens]
      rw [htokens] at hon
      obtain ⟨p₁, hmoves₁, hadvance⟩ := hon.advance
      obtain ⟨p₂, hmoves₂, hexpr⟩ := reads_expression e hmoves₁.on (ends_semicolon rest)
      obtain ⟨p₃, hmoves₃, hsemi⟩ := hmoves₂.on.expect
      refine ⟨p₃, (hmoves₁.trans hmoves₂).trans hmoves₃, settles_statement ?_⟩
      have hsome : p₁.currentToken.type ≠ .srednikropek := by
        rw [hmoves₁.on.type]
        exact expression_start e _
      simp only [parseStatementWith, htype]
      refine settles_bind hadvance ?_
      simp only [if_pos hsome]
      refine settles_bind (a := ((Stmt.return (some e)).ast, p₂)) ?_
        (settles_bind hsemi (.of_eq fun _ => rfl))
      exact settles_bind hexpr (.of_eq fun _ => rfl)

/-- `przerwij;` and `kontynuuj;`. -/
theorem reads_jump {t : TokenType × List Char} (type : ASTNodeType)
    (hon : On p (t :: semicolon :: rest)) :
    ∃ p', Moves p p' rest ∧
      Settles (fun n => (parseJump n type p).result) (.ok (some (astNodeCreate type), p')) := by
  obtain ⟨p₁, hmoves₁, hadvance⟩ := hon.advance
  obtain ⟨p₂, hmoves₂, hsemi⟩ := hmoves₁.on.expect
  refine ⟨p₂, hmoves₁.trans hmoves₂, ?_⟩
  exact settles_bind hadvance (settles_bind hsemi (.of_eq fun _ => rfl))

theorem reads_break : ReadsStmt .break := by
  intro p rest _ hon _
  have htype : p.currentToken.type = .przerwij := hon.type
  obtain ⟨p', hmoves, hjump⟩ := reads_jump .break hon
  refine ⟨p', hmoves, settles_statement ?_⟩
  simp only [parseStatementWith, htype]
  exact hjump

theorem reads_continue : ReadsStmt .continue := by
  intro p rest _ hon _
  have htype : p.currentToken.type = .kontynuuj := hon.type
  obtain ⟨p', hmoves, hjump⟩ := reads_jump .continue hon
  refine ⟨p', hmoves, settles_statement ?_⟩
  simp only [parseStatementWith, htype]
  exact hjump

theorem reads_blockStmt {body : List Stmt} (hbody : ∀ s ∈ body, ReadsStmt s) :
    ReadsStmt (.block body) := by
  intro p rest hp hon _
  have htype : p.currentToken.type = .klamraLewa := hon.type
  obtain ⟨p', hmoves, hblock⟩ := reads_block hbody hp hon
  refine ⟨p', hmoves, settles_statement ?_⟩
  simp only [parseStatementWith, htype]
  exact settles_bind hblock (.of_eq fun _ => rfl)

mutual

/-- Every statement is read back, wherever it stands. -/
theorem reads_stmt : ∀ s : Stmt, ReadsStmt s
  | .varDecl name e => reads_varDecl name e
  | .assign name e => reads_assign name e
  | .print args => reads_print args
  | .ifThen _ body => reads_ifThen (reads_stmts body)
  | .ifElse _ body other => reads_ifElse (reads_stmts body) (reads_stmts other)
  | .while _ body => reads_while (reads_stmts body)
  | .return e => reads_return e
  | .break => reads_break
  | .continue => reads_continue
  | .block body => reads_blockStmt (reads_stmts body)

theorem reads_stmts : ∀ (ss : List Stmt), ∀ s ∈ ss, ReadsStmt s
  | [], _, h => absurd h List.not_mem_nil
  | x :: xs, s, h => by
      rcases List.mem_cons.mp h with hs | h
      · exact hs ▸ reads_stmt x
      · exact reads_stmts xs s h

end

/-! ## Programs -/

/-- The loop of `parser_parse_program` reads the statements up to the end. -/
theorem reads_programLoop (ss : List Stmt) (program : ASTNode) (hp : p.hasError = false)
    (hon : On p (Stmt.listTokens ss)) :
    ∃ p', Moves p p' [] ∧ ∃ N, ∀ m ≥ N, (programLoop m program p).result =
      .ok (some { program with children := program.children ++ Stmt.asts ss }, p') := by
  induction ss generalizing p program with
  | nil =>
      refine ⟨p, ⟨hon, rfl, rfl⟩, 1, fun m hm => ?_⟩
      obtain ⟨m, rfl⟩ : ∃ n, m = n + 1 := ⟨m - 1, by omega⟩
      have htype : p.currentToken.type = .koniec := hon
      have hnil : { program with children := program.children ++ Stmt.asts [] } = program := by
        rw [Stmt.asts, List.append_nil]
        cases program
        rfl
      rw [programLoop, htype, if_neg (by simp), hnil]
      rfl
  | cons s ss ih =>
      rw [Stmt.listTokens] at hon
      obtain ⟨p₁, hmoves₁, hstmt⟩ := reads_stmt s p _ hp hon (start_list_end ss)
      have hp₁ : p₁.hasError = false := hmoves₁.hasError.trans hp
      obtain ⟨p₂, hmoves₂, N₂, h₂⟩ := ih { program with children := program.children ++ [s.ast] }
        hp₁ hmoves₁.on
      obtain ⟨N₁, h₁⟩ := settles_iff.mp hstmt
      refine ⟨p₂, hmoves₁.trans hmoves₂, N₁ + N₂ + 1, fun m hm => ?_⟩
      obtain ⟨m, rfl⟩ : ∃ n, m = n + 1 := ⟨m - 1, by omega⟩
      have htype : p.currentToken.type ≠ .koniec := by
        rw [hon.type]
        exact (s.start _).2.2
      rw [programLoop, if_pos htype, Logged.result_bind_of_ok rfl,
        Logged.result_bind_of_ok (h₁ m (by omega))]
      simp only [Option.isSome_some, if_true]
      rw [Logged.result_bind_of_ok (addChild_result _ _), Logged.result_bind_of_ok rfl, hp₁]
      simp only [Bool.false_eq_true, if_false]
      rw [h₂ m (by omega)]
      simp [Stmt.asts]

/-- A text that holds the tokens of a program is parsed to its tree. -/
theorem reads_program {ss : List Stmt} {g text : List Char} {source : Nat → Char} (hg : Gap g)
    (htext : Written (Stmt.listTokens ss) text) (hsource : ReadsAt source 0 (g ++ (text ++ [nul]))) :
    ∃ p, On p [] ∧ p.error = "" ∧ p.hasError = false ∧
      Settles (fun n => (parseSource n source).result) (.ok (some (programNode ss), p)) := by
  have hstream := written_stream htext hg (ahead_lexerInit hsource)
  obtain ⟨p₁, hon, herror, hhas, hinit⟩ := parserInit_stream hstream
  obtain ⟨p₂, hmoves, N, hN⟩ := reads_programLoop ss (astNodeCreate .program) hhas hon
  refine ⟨p₂, hmoves.on, hmoves.error.trans herror, hmoves.hasError.trans hhas, ?_⟩
  exact settles_bind hinit (.of_le fun n hn => (hN n hn).trans rfl)

/-! ## Programs that can be printed -/

/-- The statements that have a printed form. -/
inductive Stmt.Valid : Stmt → Prop
  | varDecl {name : List Char} {e : Option Expr} : IsName name → (∀ x ∈ e, x.Valid) →
      Valid (.varDecl name e)
  | assign {name : List Char} {e : Expr} : IsName name → e.Valid → Valid (.assign name e)
  | print {args : List Expr} : (∀ e ∈ args, e.Valid) → Valid (.print args)
  | ifThen {c : Expr} {body : List Stmt} : c.Valid → (∀ s ∈ body, Valid s) →
      Valid (.ifThen c body)
  | ifElse {c : Expr} {body other : List Stmt} : c.Valid → (∀ s ∈ body, Valid s) →
      (∀ s ∈ other, Valid s) → Valid (.ifElse c body other)
  | while {c : Expr} {body : List Stmt} : c.Valid → (∀ s ∈ body, Valid s) →
      Valid (.while c body)
  | return {e : Option Expr} : (∀ x ∈ e, x.Valid) → Valid (.return e)
  | break : Valid .break
  | continue : Valid .continue
  | block {body : List Stmt} : (∀ s ∈ body, Valid s) → Valid (.block body)

/-- Every token of a list is one that the lexer can return. -/
def AllLexemes (ts : Lexemes) : Prop := ∀ t ∈ ts, IsLexeme t

theorem allLexemes_nil : AllLexemes [] := by simp [AllLexemes]

theorem allLexemes_cons {t : TokenType × List Char} :
    AllLexemes (t :: ts) ↔ IsLexeme t ∧ AllLexemes ts := List.forall_mem_cons

theorem allLexemes_append : AllLexemes (ts ++ rest) ↔ AllLexemes ts ∧ AllLexemes rest :=
  List.forall_mem_append

theorem isLexeme_semicolon : IsLexeme semicolon := isLexeme_one rfl (by decide)

theorem isLexeme_assignment : IsLexeme (.przypisanie, ['=']) := isLexeme_one rfl (by decide)

theorem isLexeme_keyword {t : TokenType × List Char} (h : (t.2, t.1) ∈ keywords) : IsLexeme t := by
  have hlen : ∀ k ∈ keywords, k.1.length ≤ 255 := by decide
  exact ⟨.keyword h, hlen _ h⟩

theorem allLexemes_inParens (h : AllLexemes ts) : AllLexemes (inParens ts) := by
  rw [inParens, allLexemes_cons, allLexemes_append, allLexemes_cons]
  exact ⟨isLexeme_one rfl (by decide), h, isLexeme_one rfl (by decide), allLexemes_nil⟩

theorem allLexemes_braces (h : AllLexemes ts) : AllLexemes (braces ts) := by
  rw [braces, allLexemes_cons, allLexemes_append, allLexemes_cons]
  exact ⟨isLexeme_one rfl (by decide), h, isLexeme_one rfl (by decide), allLexemes_nil⟩

/-- An expression and its semicolon. -/
theorem allLexemes_ended {e : Expr} (h : e.Valid) : AllLexemes (e.tokens ++ [semicolon]) := by
  rw [allLexemes_append, allLexemes_cons]
  exact ⟨h.tokens, isLexeme_semicolon, allLexemes_nil⟩

theorem allLexemes_list {ss : List Stmt} (h : ∀ s ∈ ss, AllLexemes s.tokens) :
    AllLexemes (Stmt.listTokens ss) := by
  induction ss with
  | nil => exact allLexemes_nil
  | cons s ss ih =>
      rw [Stmt.listTokens, allLexemes_append]
      exact ⟨h s List.mem_cons_self, ih fun x hx => h x (List.mem_cons_of_mem _ hx)⟩

/-- A valid statement has a printed form. -/
theorem Stmt.Valid.tokens {s : Stmt} (hs : s.Valid) : AllLexemes s.tokens := by
  induction hs with
  | @varDecl name e hname he =>
      have hkey : IsLexeme (.zmienna, "zmienna".toList) := isLexeme_keyword (by decide)
      cases e with
      | none =>
          simp only [Stmt.tokens, allLexemes_cons]
          exact ⟨hkey, isLexeme_name hname, isLexeme_semicolon, allLexemes_nil⟩
      | some e =>
          simp only [Stmt.tokens, allLexemes_cons]
          exact ⟨hkey, isLexeme_name hname, isLexeme_assignment, allLexemes_ended (he e rfl)⟩
  | assign hname he =>
      simp only [Stmt.tokens, allLexemes_cons]
      exact ⟨isLexeme_name hname, isLexeme_assignment, allLexemes_ended he⟩
  | print hargs =>
      simp only [Stmt.tokens, allLexemes_cons, allLexemes_append]
      have hargs := (isLexeme_arguments fun e he => (hargs e he).tokens).2
      exact ⟨isLexeme_keyword (by decide), allLexemes_inParens hargs, isLexeme_semicolon,
        allLexemes_nil⟩
  | ifThen hc _ ih =>
      simp only [Stmt.tokens, allLexemes_cons, allLexemes_append]
      exact ⟨isLexeme_keyword (by decide), allLexemes_inParens hc.tokens,
        allLexemes_braces (allLexemes_list ih)⟩
  | ifElse hc _ _ ih ih' =>
      simp only [Stmt.tokens, allLexemes_cons, allLexemes_append]
      exact ⟨isLexeme_keyword (by decide), allLexemes_inParens hc.tokens,
        allLexemes_braces (allLexemes_list ih), isLexeme_keyword (by decide),
        allLexemes_braces (allLexemes_list ih')⟩
  | «while» hc _ ih =>
      simp only [Stmt.tokens, allLexemes_cons, allLexemes_append]
      exact ⟨isLexeme_keyword (by decide), allLexemes_inParens hc.tokens,
        allLexemes_braces (allLexemes_list ih)⟩
  | @«return» e he =>
      have hkey : IsLexeme (.zwroc, "zwroc".toList) := isLexeme_keyword (by decide)
      cases e with
      | none =>
          simp only [Stmt.tokens, allLexemes_cons]
          exact ⟨hkey, isLexeme_semicolon, allLexemes_nil⟩
      | some e =>
          simp only [Stmt.tokens, allLexemes_cons]
          exact ⟨hkey, allLexemes_ended (he e rfl)⟩
  | «break» =>
      simp only [Stmt.tokens, allLexemes_cons]
      exact ⟨isLexeme_keyword (by decide), isLexeme_semicolon, allLexemes_nil⟩
  | «continue» =>
      simp only [Stmt.tokens, allLexemes_cons]
      exact ⟨isLexeme_keyword (by decide), isLexeme_semicolon, allLexemes_nil⟩
  | block _ ih => exact allLexemes_braces (allLexemes_list ih)

/-- A valid program has a printed form, and from every text that holds it the parser
reads back its tree, stands at the end of the text and has reported nothing. -/
theorem program_round_trip {ss : List Stmt} (hss : ∀ s ∈ ss, s.Valid) :
    (∃ text, Written (Stmt.listTokens ss) text) ∧
      ∀ (g text : List Char) (source : Nat → Char), Gap g → Written (Stmt.listTokens ss) text →
        ReadsAt source 0 (g ++ (text ++ [nul])) →
        ∃ p, On p [] ∧ p.error = "" ∧ p.hasError = false ∧
          ∃ N, ∀ fuel ≥ N, (parseSource fuel source).result = .ok (some (programNode ss), p) := by
  constructor
  · exact ⟨_, written_spaced (allLexemes_list fun s hs => (hss s hs).tokens)⟩
  · intro g text source hg htext hsource
    obtain ⟨p, hon, herror, hhas, hparse⟩ := reads_program hg htext hsource
    exact ⟨p, hon, herror, hhas, settles_iff.mp hparse⟩

/-- `dopoki ( x ) { jesli ( x ) { przerwij ; } }` -/
theorem program_round_trip_loop : ∃ p, On p [] ∧ p.error = "" ∧ p.hasError = false ∧
    ∃ N, ∀ fuel ≥ N, (parseSource fuel
      (sourceOf "dopoki ( x ) { jesli ( x ) { przerwij ; } } ".toList)).result =
        .ok (some (programNode [.while (.ident ['x']) [.ifThen (.ident ['x']) [.break]]]), p) := by
  have hname : IsName ['x'] := ⟨⟨'x', [], rfl, by decide, by simp⟩, by simp [keywords], by decide⟩
  have hvalid : ∀ s ∈ [Stmt.while (.ident ['x']) [.ifThen (.ident ['x']) [.break]]], s.Valid := by
    simp only [List.forall_mem_singleton]
    refine .while (.ident hname) ?_
    simp only [List.forall_mem_singleton]
    refine .ifThen (.ident hname) ?_
    simp only [List.forall_mem_singleton]
    exact .break
  exact (program_round_trip hvalid).2 [] _ _ .nil
    (written_spaced (allLexemes_list fun s hs => (hvalid s hs).tokens)) (readsAt_sourceOf _ [])

end PolandOS.PolskiScript
