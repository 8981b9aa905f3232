import PolandOS.Lib.Fuel
import PolandOS.Lib.TypedExpr
import PolandOS.Lang.Arithmetic

/-! # What expressions evaluate to

The evaluator on trees of integers and comparisons, against their meaning in
mathematics. `AST_BINARY_OP` finds the operators by a chain of tests, and the test for
`<` comes before the one for `<=`. `expression_meaning`: an expression evaluates to its
meaning exactly when no `<=` and no `>=` of equal integers decides it, and no
`INT64_MIN % -1` traps.
-/

namespace PolandOS.PolskiScript

open Logging Fuel TypedExpr

/-! ## The trees of typed expressions -/

/-- The lexeme of an arithmetic operator. -/
def arithLexeme : ArithOp → List Char
  | .add => ['+']
  | .sub => ['-']
  | .mul => ['*']
  | .div => ['/']
  | .mod => ['%']

/-- The lexeme of a comparison. -/
def compareLexeme : CompareOp → List Char
  | .eq => ['=', '=']
  | .ne => ['!', '=']
  | .lt => ['<']
  | .gt => ['>']
  | .le => ['<', '=']
  | .ge => ['>', '=']

/-- The lexeme of a logical operator. -/
def logicLexeme : LogicOp → List Char
  | .and => ['&', '&']
  | .or => ['|', '|']

/-- The expressions of the language over its variables. -/
abbrev Typed := TypedExpr.Expr (List Char)

/-- The node is the tree of the expression. -/
inductive Represents : {τ : Ty} → ASTNode → Typed τ → Prop
  | lit {n : ASTNode} : n.type = .literalInt → Represents n (.lit n.intValue.toInt)
  | var {n : ASTNode} : n.type = .identifier → Represents n (.var n.strValue)
  | neg {n c : ASTNode} {e : Typed .int} : n.type = .unaryOp → n.strValue = ['-'] →
      n.children = [c] → Represents c e → Represents n (.neg e)
  | arith {n l r : ASTNode} {op : ArithOp} {a b : Typed .int} : n.type = .binaryOp →
      n.strValue = arithLexeme op → n.children = [l, r] → Represents l a → Represents r b →
      Represents n (.arith op a b)
  | compare {n l r : ASTNode} {op : CompareOp} {a b : Typed .int} : n.type = .binaryOp →
      n.strValue = compareLexeme op → n.children = [l, r] → Represents l a → Represents r b →
      Represents n (.compare op a b)
  | not {n c : ASTNode} {e : Typed .bool} : n.type = .unaryOp → n.strValue = ['!'] →
      n.children = [c] → Represents c e → Represents n (.not e)
  | logic {n l r : ASTNode} {op : LogicOp} {a b : Typed .bool} : n.type = .binaryOp →
      n.strValue = logicLexeme op → n.children = [l, r] → Represents l a → Represents r b →
      Represents n (.logic op a b)

/-- Every variable of the expression is bound to an integer, which `ρ` names. -/
def Binds (frames : List Frame) (ρ : List Char → Int) {τ : Ty} (e : Typed τ) : Prop :=
  ∀ x, e.Mentions x → ∃ i : Int64, envGet x frames = some (.int i) ∧ i.toInt = ρ x

/-- The value is the integer or the boolean. -/
def Value.Is (v : Value) : (τ : Ty) → τ.Val → Prop
  | .int, k => ∃ i, v = .int i ∧ i.toInt = k
  | .bool, b => ∃ bytes, v = .bool b bytes

/-! ## Where the evaluator differs -/

/-- A remainder for which the processor traps, somewhere in the expression. -/
def Overflows (ρ : List Char → Int) : {τ : Ty} → Typed τ → Prop
  | _, .lit _ => False
  | _, .var _ => False
  | _, .neg e => Overflows ρ e
  | _, .arith op a b =>
    Overflows ρ a ∨ Overflows ρ b ∨ op = .mod ∧ a.denote ρ = -2 ^ 63 ∧ b.denote ρ = -1
  | _, .compare _ a b => Overflows ρ a ∨ Overflows ρ b
  | _, .not e => Overflows ρ e
  | _, .logic _ a b => Overflows ρ a ∨ Overflows ρ b

/-- Whether a `<=` or a `>=` of equal integers decides the truth of the expression. In
an operand of `&&` or `||` it does not, where the other operand decides. -/
def Flipped (ρ : List Char → Int) : {τ : Ty} → Typed τ → Prop
  | _, .lit _ => False
  | _, .var _ => False
  | _, .neg _ => False
  | _, .arith _ _ _ => False
  | _, .compare op a b => (op = .le ∨ op = .ge) ∧ a.denote ρ = b.denote ρ
  | _, .not e => Flipped ρ e
  | _, .logic .and a b =>
    Flipped ρ a ∧ Flipped ρ b ∧ a.denote ρ = b.denote ρ ∨
      Flipped ρ a ∧ ¬Flipped ρ b ∧ b.denote ρ = true ∨
        ¬Flipped ρ a ∧ Flipped ρ b ∧ a.denote ρ = true
  | _, .logic .or a b =>
    Flipped ρ a ∧ Flipped ρ b ∧ a.denote ρ = b.denote ρ ∨
      Flipped ρ a ∧ ¬Flipped ρ b ∧ b.denote ρ = false ∨
        ¬Flipped ρ a ∧ Flipped ρ b ∧ a.denote ρ = false

/-! ## The evaluator, without its log -/

variable {σ : Type} (m : Memory σ)

/-- With enough fuel the evaluation of the node comes to this result. -/
def ComesTo (n : ASTNode) (s : Interp σ) (r : Except Stop (Value × Interp σ)) : Prop :=
  Settles (fun fuel => (interpreterEval m fuel n s).result) r

variable {m} {n l r c : ASTNode} {s s₁ s₂ : Interp σ} {a b : Value} {k : Stop}

theorem result_interpreterEval (fuel : Nat) :
    (interpreterEval m (fuel + 1) n s).result =
      (evalNode m (interpreterEval m fuel) fuel n s).result := by
  rw [interpreterEval, Logged.result_bind_of_ok (a := ()) rfl, Logged.result_bind_eq]
  cases (evalNode m (interpreterEval m fuel) fuel n s).result with
  | error k => rfl
  | ok r => rfl

/-- What the node does for every fuel, the evaluation does. -/
theorem comesTo_of_node {x : Except Stop (Value × Interp σ)}
    (h : Settles (fun fuel => (evalNode m (interpreterEval m fuel) fuel n s).result) x) :
    ComesTo m n s x :=
  .of_succ (h.congr fun fuel => result_interpreterEval fuel)

theorem result_evalBinary {eval : Evaluator σ} (hc : n.children = [l, r]) :
    (evalBinary m eval n s).result = (eval l s).result.bind fun x =>
      (eval r x.2).result.bind fun y => (binaryOp m n.strValue x.1 y.1 y.2).result := by
  rw [evalBinary, childAt, childAt, hc]
  simp only [Logged.result_bind_eq]
  rfl

theorem result_evalUnary {eval : Evaluator σ} (hc : n.children = [c]) :
    (evalUnary m eval n s).result = (eval c s).result.bind fun x =>
      (unaryOp m n.strValue x.1 x.2).result := by
  rw [evalUnary, childAt, hc]
  simp only [Logged.result_bind_eq]
  rfl

theorem evalNode_go {eval : Evaluator σ} {fuel : Nat} (hs : s.hasError = false) :
    (n.type = .binaryOp → evalNode m eval fuel n s = evalBinary m eval n s) ∧
      (n.type = .unaryOp → evalNode m eval fuel n s = evalUnary m eval n s) := by
  have hgo : ¬s.hasError = true := by simp [hs]
  constructor
  · intro hn
    rw [evalNode, if_neg hgo, hn]
  · intro hn
    rw [evalNode, if_neg hgo, hn]

section Binary

variable (hs : s.hasError = false) (hn : n.type = .binaryOp) (hc : n.children = [l, r])
include hs hn hc

theorem comesTo_binary (hl : ComesTo m l s (.ok (a, s₁))) (hr : ComesTo m r s₁ (.ok (b, s₂))) :
    ComesTo m n s (binaryOp m n.strValue a b s₂).result := by
  refine comesTo_of_node ?_
  filter_upwards [hl, hr] with fuel hl hr
  rw [(evalNode_go hs).1 hn, result_evalBinary hc, hl]
  change ((interpreterEval m fuel r s₁).result.bind _) = _
  rw [hr]
  rfl

theorem comesTo_left (hl : ComesTo m l s (.error k)) : ComesTo m n s (.error k) := by
  refine comesTo_of_node ?_
  filter_upwards [hl] with fuel hl
  rw [(evalNode_go hs).1 hn, result_evalBinary hc, hl]
  rfl

theorem comesTo_right (hl : ComesTo m l s (.ok (a, s₁))) (hr : ComesTo m r s₁ (.error k)) :
    ComesTo m n s (.error k) := by
  refine comesTo_of_node ?_
  filter_upwards [hl, hr] with fuel hl hr
  rw [(evalNode_go hs).1 hn, result_evalBinary hc, hl]
  change ((interpreterEval m fuel r s₁).result.bind _) = _
  rw [hr]
  rfl

end Binary

section Unary

variable (hs : s.hasError = false) (hn : n.type = .unaryOp) (hc : n.children = [c])
include hs hn hc

theorem comesTo_unary (hop : ComesTo m c s (.ok (a, s₁))) :
    ComesTo m n s (unaryOp m n.strValue a s₁).result := by
  refine comesTo_of_node ?_
  filter_upwards [hop] with fuel hop
  rw [(evalNode_go hs).2 hn, result_evalUnary hc, hop]
  rfl

theorem comesTo_operand (hop : ComesTo m c s (.error k)) : ComesTo m n s (.error k) := by
  refine comesTo_of_node ?_
  filter_upwards [hop] with fuel hop
  rw [(evalNode_go hs).2 hn, result_evalUnary hc, hop]
  rfl

end Unary

/-! ## The operators -/

/-- The operation of the machine. -/
def machineOp : ArithOp → IntOp
  | .add => .add
  | .sub => .sub
  | .mul => .mul
  | .div => .div
  | .mod => .mod

/-- The comparison that the chain of tests comes to. -/
def seen : CompareOp → CompareOp
  | .le => .lt
  | .ge => .gt
  | op => op

variable {i j : Int64}

/-- Where the value fits, the machine computes it; only the remainder can trap then. -/
theorem machineOp_run {op : ArithOp} (hzero : op.Divides → j.toInt ≠ 0)
    (hfits : InRange (op.apply i.toInt j.toInt)) :
    (traps (machineOp op) i j ↔ op = .mod ∧ i.toInt = -2 ^ 63 ∧ j.toInt = -1) ∧
      (¬traps (machineOp op) i j →
        ((machineOp op).run i j).toInt = op.apply i.toInt j.toInt) := by
  have hmin : i = Int64.minValue ↔ i.toInt = -2 ^ 63 := by
    rw [← Int64.toInt_inj]
    rfl
  have hone : j = -1 ↔ j.toInt = -1 := by
    rw [← Int64.toInt_inj]
    rfl
  have hnull : j = 0 ↔ j.toInt = 0 := by
    rw [← Int64.toInt_inj]
    rfl
  -- a result in range is not wrapped
  have hbmod : ∀ z : Int, InRange z → z.bmod (2 ^ 64) = z := by
    rintro z ⟨hlow, hhigh⟩
    exact Int.bmod_eq_of_le (by omega) (by omega)
  unfold traps
  rw [hnull, hmin, hone]
  cases op with
  | add =>
      refine ⟨by simp [machineOp], fun _ => ?_⟩
      exact (Int64.toInt_add i j).trans (hbmod _ hfits)
  | sub =>
      refine ⟨by simp [machineOp], fun _ => ?_⟩
      exact (Int64.toInt_sub i j).trans (hbmod _ hfits)
  | mul =>
      refine ⟨by simp [machineOp], fun _ => ?_⟩
      exact (Int64.toInt_mul i j).trans (hbmod _ hfits)
  | div =>
      have hj := hzero (.inl rfl)
      constructor
      · -- the quotient of the smallest integer and -1 does not fit
        constructor
        · rintro ⟨-, hj' | ⟨hi, hj'⟩⟩
          · exact absurd hj' hj
          · have hhigh : (i.toInt.tdiv j.toInt) < 2 ^ 63 := hfits.2
            rw [hi, hj'] at hhigh
            exact absurd hhigh (by decide)
        · rintro ⟨hop, -⟩
          cases hop
      · intro _
        exact (Int64.toInt_div i j).trans (hbmod _ hfits)
  | mod =>
      have hj := hzero (.inr rfl)
      constructor
      · simp [machineOp, hj]
      · intro _
        exact Int64.toInt_mod i j

theorem result_arith {op : ArithOp} (hzero : op.Divides → j ≠ 0) :
    (binaryOp m (arithLexeme op) (.int i) (.int j) s).result =
      if traps (machineOp op) i j then .error .divideError
      else .ok (.int ((machineOp op).run i j), s) := by
  have harith : arithmetic ((arithLexeme op).headD nul) (.int i) (.int j) =
      some (.int (machineOp op) i j) := by
    cases op with
    | div =>
        have hj := hzero (.inl rfl)
        simp [arithLexeme, arithmetic, machineOp, hj]
    | _ => rfl
  unfold binaryOp
  rw [harith]
  change ((intArith (machineOp op) i j >>= _ : Run σ _)).result = _
  rw [intArith, Logged.result_bind_eq, Logged.result_bind_of_ok (a := ()) rfl]
  split
  · rfl
  · rfl

/-- `<=` and `>=` never come to their own tests. -/
theorem result_compare {op : CompareOp} :
    (binaryOp m (compareLexeme op) (.int i) (.int j) s).result =
      .ok (valueCreateBool m ((seen op).apply i.toInt j.toInt) s) := by
  have hlt : ∀ a b : Int64, decide (a < b) = decide (a.toInt < b.toInt) := fun a b =>
    decide_eq_decide.mpr Int64.lt_iff_toInt_lt
  have heq : (i == j) = decide (i.toInt = j.toInt) := by
    rw [Bool.eq_iff_iff, beq_iff_eq, decide_eq_true_iff, Int64.toInt_inj]
  cases op with
  | eq =>
      change _ = Except.ok (valueCreateBool m (decide (i.toInt = j.toInt)) s)
      rw [← heq]
      rfl
  | ne =>
      change _ = Except.ok (valueCreateBool m (decide (i.toInt ≠ j.toInt)) s)
      rw [decide_not, ← heq]
      rfl
  | lt | le =>
      change _ = Except.ok (valueCreateBool m (decide (i.toInt < j.toInt)) s)
      rw [← hlt]
      rfl
  | gt | ge =>
      change _ = Except.ok (valueCreateBool m (decide (j.toInt < i.toInt)) s)
      rw [← hlt]
      rfl

theorem result_logic {op : LogicOp} {p q : Bool} {bytes bytes' : Int64} :
    (binaryOp m (logicLexeme op) (.bool p bytes) (.bool q bytes') s).result =
      .ok (valueCreateBool m (op.apply p q) s) := by
  cases op with
  | and => rfl
  | or => rfl

/-! ## The expressions -/

variable {ρ : List Char → Int}

/-- What the evaluator gives for an expression: the integer that is meant, or a truth
that is the one that is meant exactly where nothing is flipped. -/
def Gives (ρ : List Char → Int) : {τ : Ty} → Typed τ → Value → Prop
  | .int, e, v => v.Is .int (e.denote ρ)
  | .bool, e, v => ∃ b bytes, v = .bool b bytes ∧ (b = e.denote ρ ↔ ¬Flipped ρ e)

theorem Gives.is_iff {τ : Ty} {e : Typed τ} {v : Value} (h : Gives ρ e v) :
    v.Is τ (e.denote ρ) ↔ ¬Flipped ρ e := by
  cases τ with
  | int =>
      have hflip : ¬Flipped ρ e := by
        cases e <;> exact id
      exact iff_of_true h hflip
  | bool =>
      rcases h with ⟨b, bytes, rfl, hiff⟩
      rw [← hiff]
      constructor
      · rintro ⟨_, hb⟩
        cases hb
        rfl
      · rintro rfl
        exact ⟨bytes, rfl⟩

/-- The evaluation of the node gives what `Gives` says, unless a remainder traps. -/
def Meets (m : Memory σ) (ρ : List Char → Int) {τ : Ty} (n : ASTNode) (e : Typed τ) : Prop :=
  ∀ s : Interp σ, s.hasError = false → Binds s.frames ρ e →
    (¬Overflows ρ e → ∃ v t, ComesTo m n s (.ok (v, t)) ∧ Gives ρ e v ∧
      t.frames = s.frames ∧ t.hasError = false) ∧
    (Overflows ρ e → ComesTo m n s (.error .divideError))

theorem Binds.mono {frames : List Frame} {τ τ' : Ty} {e : Typed τ} {e' : Typed τ'}
    (h : Binds frames ρ e) (himp : ∀ x, e'.Mentions x → e.Mentions x) : Binds frames ρ e' :=
  fun x hx => h x (himp x hx)

/-- The two operands, one after the other. -/
theorem meets_operands {τ : Ty} {e e' : Typed τ} (hl : Meets m ρ l e) (hr : Meets m ρ r e')
    (hs : s.hasError = false) (hn : n.type = .binaryOp) (hc : n.children = [l, r])
    (he : Binds s.frames ρ e) (he' : Binds s.frames ρ e') :
    (¬Overflows ρ e → ¬Overflows ρ e' → ∃ v w t, Gives ρ e v ∧ Gives ρ e' w ∧
      t.frames = s.frames ∧ t.hasError = false ∧
      ComesTo m n s (binaryOp m n.strValue v w t).result) ∧
    (Overflows ρ e ∨ Overflows ρ e' → ComesTo m n s (.error .divideError)) := by
  by_cases hover : Overflows ρ e
  · constructor
    · intro h
      exact absurd hover h
    · intro _
      exact comesTo_left hs hn hc ((hl s hs he).2 hover)
  rcases (hl s hs he).1 hover with ⟨v, s₁, hleft, hv, hframes, hs₁⟩
  rw [← hframes] at he'
  constructor
  · intro _ hover'
    rcases (hr s₁ hs₁ he').1 hover' with ⟨w, t, hright, hw, hframes', ht⟩
    exact ⟨v, w, t, hv, hw, hframes'.trans hframes, ht, comesTo_binary hs hn hc hleft hright⟩
  · intro hor
    have hover' := hor.resolve_left hover
    exact comesTo_right hs hn hc hleft ((hr s₁ hs₁ he').2 hover')

/-- The comparison that is seen says the same, but for `<=` and `>=` of equal integers. -/
theorem seen_apply {op : CompareOp} {x y : Int} :
    (seen op).apply x y = op.apply x y ↔ ¬((op = .le ∨ op = .ge) ∧ x = y) := by
  cases op <;> simp [seen, CompareOp.apply]
  all_goals omega

theorem logic_apply {op : LogicOp} {a b : Typed .bool} {p q : Bool}
    (hp : p = a.denote ρ ↔ ¬Flipped ρ a) (hq : q = b.denote ρ ↔ ¬Flipped ρ b) :
    op.apply p q = (TypedExpr.Expr.logic op a b).denote ρ ↔
      ¬Flipped ρ (TypedExpr.Expr.logic op a b) := by
  have hp' : Flipped ρ a ↔ ¬p = a.denote ρ := by rw [hp, not_not]
  have hq' : Flipped ρ b ↔ ¬q = b.denote ρ := by rw [hq, not_not]
  cases op
  all_goals
    simp only [Flipped, LogicOp.apply, TypedExpr.Expr.denote, hp', hq']
    generalize a.denote ρ = x, b.denote ρ = y
    clear hp hq hp' hq'
    revert p q x y
    decide

/-- An operator on integers computes what it means, where the result fits and no divisor is
zero. -/
theorem meets_arith {op : ArithOp} {e e' : Typed .int} (hl : Meets m ρ l e)
    (hr : Meets m ρ r e') (hn : n.type = .binaryOp) (hop : n.strValue = arithLexeme op)
    (hc : n.children = [l, r]) (hzero : op.Divides → e'.denote ρ ≠ 0)
    (hfits : InRange (op.apply (e.denote ρ) (e'.denote ρ))) :
    Meets m ρ n (.arith op e e') := by
  intro s hs hbinds
  rcases meets_operands hl hr hs hn hc (hbinds.mono fun _ => .inl) (hbinds.mono fun _ => .inr)
    with ⟨hvalues, herror⟩
  by_cases hover : Overflows ρ e ∨ Overflows ρ e'
  · constructor
    · intro h
      exact absurd (hover.imp id .inl) h
    · intro _
      exact herror hover
  rw [not_or] at hover
  rcases hvalues hover.1 hover.2 with ⟨_, _, t, ⟨i, rfl, hi⟩, ⟨j, rfl, hj⟩, hframes, ht, hcomes⟩
  rw [← hi, ← hj] at hfits
  rw [← hj] at hzero
  rcases machineOp_run hzero hfits with ⟨htraps, hrun⟩
  have hj₀ : op.Divides → j ≠ 0 := by
    rintro hdiv rfl
    exact hzero hdiv rfl
  rw [hop, result_arith hj₀] at hcomes
  have hover' : Overflows ρ (TypedExpr.Expr.arith op e e') ↔ traps (machineOp op) i j := by
    rw [htraps, hi, hj]
    simp only [Overflows, hover.1, hover.2, false_or]
  rw [hover']
  constructor
  · intro hgo
    rw [if_neg hgo] at hcomes
    refine ⟨_, t, hcomes, ⟨_, rfl, ?_⟩, hframes, ht⟩
    rw [hrun hgo, hi, hj]
    rfl
  · intro htrap
    rwa [if_pos htrap] at hcomes

theorem meets_compare {op : CompareOp} {e e' : Typed .int} (hl : Meets m ρ l e)
    (hr : Meets m ρ r e') (hn : n.type = .binaryOp) (hop : n.strValue = compareLexeme op)
    (hc : n.children = [l, r]) : Meets m ρ n (.compare op e e') := by
  intro s hs hbinds
  rcases meets_operands hl hr hs hn hc (hbinds.mono fun _ => .inl) (hbinds.mono fun _ => .inr)
    with ⟨hvalues, herror⟩
  constructor
  · intro hover
    rcases hvalues (fun h => hover (.inl h)) (fun h => hover (.inr h)) with
      ⟨_, _, t, ⟨i, rfl, hi⟩, ⟨j, rfl, hj⟩, hframes, ht, hcomes⟩
    rw [hop, result_compare] at hcomes
    refine ⟨_, _, hcomes, ⟨_, _, rfl, ?_⟩, hframes, ht⟩
    rw [hi, hj]
    exact seen_apply
  · exact herror

theorem meets_logic {op : LogicOp} {e e' : Typed .bool} (hl : Meets m ρ l e)
    (hr : Meets m ρ r e') (hn : n.type = .binaryOp) (hop : n.strValue = logicLexeme op)
    (hc : n.children = [l, r]) : Meets m ρ n (.logic op e e') := by
  intro s hs hbinds
  rcases meets_operands hl hr hs hn hc (hbinds.mono fun _ => .inl) (hbinds.mono fun _ => .inr)
    with ⟨hvalues, herror⟩
  constructor
  · intro hover
    rcases hvalues (fun h => hover (.inl h)) (fun h => hover (.inr h)) with
      ⟨_, _, t, ⟨p, bytes, rfl, hp⟩, ⟨q, bytes', rfl, hq⟩, hframes, ht, hcomes⟩
    rw [hop, result_logic] at hcomes
    exact ⟨_, _, hcomes, ⟨_, _, rfl, logic_apply hp hq⟩, hframes, ht⟩
  · exact herror

theorem meets_neg {e : Typed .int} (h : Meets m ρ c e) (hn : n.type = .unaryOp)
    (hop : n.strValue = ['-']) (hc : n.children = [c]) (hfits : InRange (-e.denote ρ)) :
    Meets m ρ n (.neg e) := by
  intro s hs hbinds
  rcases h s hs (hbinds.mono fun _ => id) with ⟨hvalue, herror⟩
  constructor
  · intro hover
    rcases hvalue hover with ⟨_, t, hcomes, ⟨i, rfl, hi⟩, hframes, ht⟩
    have hcomes := comesTo_unary hs hn hc hcomes
    rw [hop] at hcomes
    refine ⟨.int (-i), t, hcomes, ⟨-i, rfl, ?_⟩, hframes, ht⟩
    rw [Int64.toInt_neg, hi]
    exact Int.bmod_eq_of_le (by have := hfits.1; omega) (by have := hfits.2; omega)
  · intro hover
    exact comesTo_operand hs hn hc (herror hover)

theorem meets_not {e : Typed .bool} (h : Meets m ρ c e) (hn : n.type = .unaryOp)
    (hop : n.strValue = ['!']) (hc : n.children = [c]) : Meets m ρ n (.not e) := by
  intro s hs hbinds
  rcases h s hs (hbinds.mono fun _ => id) with ⟨hvalue, herror⟩
  constructor
  · intro hover
    rcases hvalue hover with ⟨_, t, hcomes, ⟨b, bytes, rfl, hb⟩, hframes, ht⟩
    have hcomes := comesTo_unary hs hn hc hcomes
    rw [hop] at hcomes
    refine ⟨.bool (!b) _, _, hcomes, ⟨!b, _, rfl, ?_⟩, hframes, ht⟩
    change (!b) = (!e.denote ρ) ↔ ¬Flipped ρ e
    rw [← hb, Bool.not_inj_iff]
  · intro hover
    exact comesTo_operand hs hn hc (herror hover)

/-- Every expression, by induction on its tree. -/
theorem meets {τ : Ty} {e : Typed τ} (h : Represents n e) (hdef : e.Defined ρ InRange) :
    Meets m ρ n e := by
  induction h with
  | @lit n hn =>
      intro s hs _
      have hgo : ¬s.hasError = true := by simp [hs]
      refine ⟨fun _ => ⟨.int n.intValue, s, ?_, ⟨_, rfl, rfl⟩, rfl, hs⟩, fun h => h.elim⟩
      refine comesTo_of_node (.of_eq fun fuel => ?_)
      rw [evalNode, if_neg hgo, hn]
      rfl
  | @var n hn =>
      intro s hs hbinds
      have hgo : ¬s.hasError = true := by simp [hs]
      rcases hbinds n.strValue rfl with ⟨i, hget, hi⟩
      refine ⟨fun _ => ⟨.int i, s, ?_, ⟨i, rfl, hi⟩, rfl, hs⟩, fun h => h.elim⟩
      refine comesTo_of_node (.of_eq fun fuel => ?_)
      rw [evalNode, if_neg hgo, hn]
      dsimp only
      rw [evalIdentifier, hget]
      rfl
  | neg hn hop hc _ ih => exact meets_neg (ih hdef.1) hn hop hc hdef.2
  | arith hn hop hc _ _ ihl ihr =>
      exact meets_arith (ihl hdef.1) (ihr hdef.2.1) hn hop hc hdef.2.2.1 hdef.2.2.2
  | compare hn hop hc _ _ ihl ihr => exact meets_compare (ihl hdef.1) (ihr hdef.2) hn hop hc
  | not hn hop hc _ ih => exact meets_not (ih hdef) hn hop hc
  | logic hn hop hc _ _ ihl ihr => exact meets_logic (ihl hdef.1) (ihr hdef.2) hn hop hc

/-- An expression whose subexpressions neither divide by zero nor leave the range of
`i64` evaluates to its meaning exactly when no `INT64_MIN % -1` traps in it, and no `<=`
and no `>=` of equal integers decides its truth. -/
theorem expression_meaning (m : Memory σ) {τ : Ty} {n : ASTNode} {e : Typed τ}
    (hn : Represents n e) {s : Interp σ} (hs : s.hasError = false) {ρ : List Char → Int}
    (hbinds : Binds s.frames ρ e) (hdef : e.Defined ρ InRange) :
    (∃ v t, ComesTo m n s (.ok (v, t)) ∧ v.Is τ (e.denote ρ)) ↔
      ¬Overflows ρ e ∧ ¬Flipped ρ e := by
  rcases meets hn hdef s hs hbinds with ⟨hvalue, herror⟩
  constructor
  · rintro ⟨v, t, hcomes, hv⟩
    have hover : ¬Overflows ρ e := by
      intro h
      cases hcomes.unique (herror h)
    rcases hvalue hover with ⟨v', t', hcomes', hgives, -⟩
    cases hcomes.unique hcomes'
    exact ⟨hover, hgives.is_iff.mp hv⟩
  · rintro ⟨hover, hflip⟩
    rcases hvalue hover with ⟨v, t, hcomes, hgives, -⟩
    exact ⟨v, t, hcomes, hgives.is_iff.mpr hflip⟩

/-- `x <= 3` -/
def atMostThree : ASTNode :=
  { astNodeCreate .binaryOp with
    strValue := ['<', '=']
    children := [{ astNodeCreate .identifier with strValue := ['x'] },
      { astNodeCreate .literalInt with intValue := 3 }] }

/-- The interpreter with `x` bound. -/
def binding (i : Int64) : Interp Unit :=
  { interpreterInit plainMemory () with env := [(['x'], .int i)] }

theorem represents_atMostThree :
    Represents atMostThree (.compare .le (.var ['x']) (.lit 3)) := by
  refine Represents.compare rfl rfl rfl ?_ ?_
  · exact Represents.var rfl
  · exact Represents.lit rfl

theorem binds_atMostThree (i : Int64) : Binds (binding i).frames (fun _ => i.toInt)
    (.compare .le (.var ['x']) (.lit 3)) := by
  rintro x (hx | hx)
  · cases hx
    exact ⟨i, rfl, rfl⟩
  · exact hx.elim

theorem expression_meaning_two : ∃ v t,
    ComesTo plainMemory atMostThree (binding 2) (.ok (v, t)) ∧ v.Is .bool true :=
  (expression_meaning plainMemory represents_atMostThree rfl (binds_atMostThree 2)
    ⟨trivial, trivial⟩).mpr ⟨fun h => h.elim id id, fun h => absurd h.2 (by decide)⟩

/-- Where `x` is 3, `x <= 3` is false for the interpreter. -/
theorem at_most_itself : ∃ e : Typed .bool, Represents atMostThree e ∧
    Binds (binding 3).frames (fun _ => 3) e ∧ e.Defined (fun _ => 3) InRange ∧
    ¬∃ v t, ComesTo plainMemory atMostThree (binding 3) (.ok (v, t)) ∧
      v.Is .bool (e.denote fun _ => 3) := by
  refine ⟨_, represents_atMostThree, binds_atMostThree 3, ⟨trivial, trivial⟩, ?_⟩
  rintro ⟨v, t, hcomes, bytes, rfl⟩
  rcases settles_iff.mp hcomes with ⟨N, hN⟩
  have hrun := hN (N + 2) (Nat.le_add_right N 2)
  cases hrun

end PolandOS.PolskiScript
