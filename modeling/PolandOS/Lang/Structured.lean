import PolandOS.Lang.ParserShapes
import PolandOS.Lang.Arithmetic

/-! # Structured control flow

`interpreter_eval` leaves blocks and loops by means of three flags. `BigStep` is the
structured semantics that the flags stand for: a statement ends normally or with a
break, a continue or a return. `flags_refine_outcomes`: the flags do what the
outcomes say.
-/

namespace PolandOS.PolskiScript

open Logging

variable {σ : Type} (m : Memory σ)

/-! ## The structured semantics -/

/-- How a statement ends. -/
inductive Outcome where
  | normal | «break» | «continue» | «return»
deriving DecidableEq, Repr

/-- The expression is evaluated, by `interpreter_eval` and without an error. -/
def Evaluates (e : ASTNode) (s : Interp σ) (v : Value) (t : Interp σ) : Prop :=
  (∃ fuel, (interpreterEval m fuel e s).result = .ok (v, t)) ∧ t.hasError = false

/-- The truth of an integer or a boolean. -/
inductive Truth : Value → Bool → Prop
  | int (i : Int64) : Truth (.int i) (i != 0)
  | bool (b : Bool) (bytes : Int64) : Truth (.bool b bytes) b

/-- The condition is evaluated to an integer or a boolean. -/
def Condition (c : ASTNode) (s : Interp σ) (b : Bool) (t : Interp σ) : Prop :=
  ∃ v, Evaluates m c s v t ∧ Truth v b

/-- The arguments are evaluated, printed and freed one by one. -/
inductive Prints : List ASTNode → Interp σ → Interp σ → Prop
  | nil {s : Interp σ} : Prints [] s s
  | cons {c : ASTNode} {cs : List ASTNode} {v : Value} {s s₁ s₂ s₃ t : Interp σ} :
      Evaluates m c s v s₁ → (valuePrint m v s₁).result = .ok s₂ →
      (valueFree m v (if cs = [] then s₂ else s₂.print .space)).result = .ok s₃ →
      Prints cs s₃ t → Prints (c :: cs) s t

/-- The optional value of a declaration or a return; without it, null. -/
def OptionalValue (cs : List ASTNode) (s : Interp σ) (v : Value) (t : Interp σ) : Prop :=
  match cs with
  | [] => (v, t) = valueCreateNull m s
  | c :: _ => Evaluates m c s v t

/-- The state in which a statement has returned its null. -/
def done (s : Interp σ) : Interp σ := (valueCreateNull m s).2

/-- The statements without statements inside. -/
def Simple (n : ASTNode) (s : Interp σ) (o : Outcome) (t : Interp σ) : Prop :=
  match n.type with
  | .varDecl => o = .normal ∧ ∃ v s₁ s₂, OptionalValue m n.children s v s₁ ∧
      (envDefine m n.strValue v s₁).result = .ok s₂ ∧ t = done m s₂
  | .assign => o = .normal ∧ ∃ c v s₁, n.children = [c] ∧ Evaluates m c s v s₁ ∧
      (envSet m n.strValue v s₁).result = .ok (true, t)
  | .print => o = .normal ∧ ∃ s₁, Prints m n.children s s₁ ∧ t = done m (s₁.print .newline)
  | .return => o = .return ∧ ∃ v s₁, OptionalValue m n.children s v s₁ ∧
      t = done m { s₁ with returnValue := v }
  | .break => o = .break ∧ t = done m s
  | .continue => o = .continue ∧ t = done m s
  | _ => False

/-- The structured semantics. It knows no flags. -/
inductive BigStep : ASTNode → Interp σ → Outcome → Interp σ → Prop
  | simple {n : ASTNode} {s t : Interp σ} {o : Outcome} : Simple m n s o t → BigStep n s o t
  | ifTrue {n c a : ASTNode} {rest : List ASTNode} {s s₁ t : Interp σ} {o : Outcome} :
      n.type = .if → n.children = c :: a :: rest → Condition m c s true s₁ →
      BigStep a s₁ o t → BigStep n s o t
  | ifFalse {n c a b : ASTNode} {rest : List ASTNode} {s s₁ t : Interp σ} {o : Outcome} :
      n.type = .if → n.children = c :: a :: b :: rest → Condition m c s false s₁ →
      BigStep b s₁ o t → BigStep n s o t
  | ifNone {n c a : ASTNode} {s s₁ : Interp σ} :
      n.type = .if → n.children = [c, a] → Condition m c s false s₁ →
      BigStep n s .normal (done m s₁)
  | whileFalse {n c b : ASTNode} {s s₁ : Interp σ} :
      n.type = .while → n.children = [c, b] → Condition m c s false s₁ →
      BigStep n s .normal (done m s₁)
  | whileBreak {n c b : ASTNode} {s s₁ t : Interp σ} :
      n.type = .while → n.children = [c, b] → Condition m c s true s₁ →
      BigStep b s₁ .break t → BigStep n s .normal (done m t)
  | whileReturn {n c b : ASTNode} {s s₁ t : Interp σ} :
      n.type = .while → n.children = [c, b] → Condition m c s true s₁ →
      BigStep b s₁ .return t → BigStep n s .return (done m t)
  | whileNext {n c b : ASTNode} {s s₁ s₂ t : Interp σ} {o o' : Outcome} :
      n.type = .while → n.children = [c, b] → Condition m c s true s₁ →
      BigStep b s₁ o' s₂ → o' = .normal ∨ o' = .continue → BigStep n s₂ o t → BigStep n s o t
  | blockNil {n : ASTNode} {s : Interp σ} :
      n.type = .block → n.children = [] → BigStep n s .normal (done m s)
  | blockStop {n c : ASTNode} {cs : List ASTNode} {s t : Interp σ} {o : Outcome} :
      n.type = .block → n.children = c :: cs → BigStep c s o t → o ≠ .normal →
      BigStep n s o (done m t)
  | blockNext {n c : ASTNode} {cs : List ASTNode} {s s₁ t : Interp σ} {o : Outcome} :
      n.type = .block → n.children = c :: cs → BigStep c s .normal s₁ →
      BigStep { n with children := cs } s₁ o t → BigStep n s o t

/-! ## Statement trees -/

/-- A tree of expressions. -/
inductive ExprTree : ASTNode → Prop
  | intro {n : ASTNode} : IsExprType n.type → (∀ c ∈ n.children, ExprTree c) → ExprTree n

/-- A tree of statements; whether it stands inside a loop. -/
inductive StmtTree : Bool → ASTNode → Prop
  | optional {l : Bool} {n : ASTNode} : n.type = .varDecl ∨ n.type = .return →
      n.children.length ≤ 1 → (∀ c ∈ n.children, ExprTree c) → StmtTree l n
  | assign {l : Bool} {n c : ASTNode} : n.type = .assign → n.children = [c] → ExprTree c →
      StmtTree l n
  | print {l : Bool} {n : ASTNode} : n.type = .print → (∀ c ∈ n.children, ExprTree c) →
      StmtTree l n
  | jump {n : ASTNode} : n.type = .break ∨ n.type = .continue → StmtTree true n
  | ifThen {l : Bool} {n c a : ASTNode} : n.type = .if → n.children = [c, a] → ExprTree c →
      StmtTree l a → StmtTree l n
  | ifElse {l : Bool} {n c a b : ASTNode} : n.type = .if → n.children = [c, a, b] → ExprTree c →
      StmtTree l a → StmtTree l b → StmtTree l n
  | while {l : Bool} {n c b : ASTNode} : n.type = .while → n.children = [c, b] → ExprTree c →
      StmtTree true b → StmtTree l n
  | block {l : Bool} {n : ASTNode} : n.type = .block → (∀ c ∈ n.children, StmtTree l c) →
      StmtTree l n

/-- A loop is a tree outside of loops too. -/
theorem StmtTree.while_outside {l : Bool} {n : ASTNode} (h : StmtTree l n)
    (hn : n.type = .while) : StmtTree false n := by
  cases h with
  | «while» htype hcs hc hb => exact .while htype hcs hc hb
  | optional htype | jump htype => rcases htype with htype | htype <;> cases hn.symm.trans htype
  | assign htype | print htype | ifThen htype | ifElse htype | block htype =>
      cases hn.symm.trans htype

/-! ## What expressions leave alone -/

variable {m} {s t u : Interp σ} {v : Value} {node : ASTNode} {fuel : Nat}

/-- The flags are unchanged, and an error is not forgotten. -/
structure Steady (s t : Interp σ) : Prop where
  breakFlag : t.breakFlag = s.breakFlag
  continueFlag : t.continueFlag = s.continueFlag
  returnFlag : t.returnFlag = s.returnFlag
  error : s.hasError → t.hasError

theorem Steady.refl (s : Interp σ) : Steady s s := ⟨rfl, rfl, rfl, id⟩

theorem Steady.trans (h : Steady s t) (h' : Steady t u) : Steady s u :=
  ⟨h'.breakFlag.trans h.breakFlag, h'.continueFlag.trans h.continueFlag,
    h'.returnFlag.trans h.returnFlag, h'.error ∘ h.error⟩

theorem steady_valueFree (v : Value) (s : Interp σ) : Logged.Ensures (valueFree m v s) (Steady s) := by
  unfold valueFree
  split
  · refine Logged.ensures_ite (fun _ => Logged.ensures_pure (.refl s)) fun _ => ?_
    refine Logged.ensures_skip fun _ => ?_
    refine Logged.ensures_skip fun mem => ?_
    exact Logged.ensures_pure ⟨rfl, rfl, rfl, id⟩
  · exact Logged.ensures_pure (.refl s)

theorem steady_valuePrint (v : Value) (s : Interp σ) :
    Logged.Ensures (valuePrint m v s) (Steady s) := by
  unfold valuePrint
  have hprint : ∀ piece, Steady s (s.print piece) := fun _ => ⟨rfl, rfl, rfl, id⟩
  split
  case h_5 =>
    exact Logged.ensures_skip fun _ =>
      Logged.ensures_pure (hprint _)
  all_goals exact Logged.ensures_pure (hprint _)

theorem steady_envDefine (name : List Char) (v : Value) (s : Interp σ) :
    Logged.Ensures (envDefine m name v s) (Steady s) := by
  unfold envDefine
  refine Logged.ensures_ite (fun _ => ?_) fun _ => ?_
  · exact Logged.ensures_skip fun _ =>
      Logged.ensures_pure (.refl s)
  refine Logged.ensures_skip fun _ => ?_
  split
  · refine Logged.ensures_bind (steady_valueFree _ s) fun t ht => ?_
    exact Logged.ensures_pure ⟨ht.breakFlag, ht.continueFlag, ht.returnFlag, ht.error⟩
  · exact Logged.ensures_pure ⟨rfl, rfl, rfl, id⟩

theorem steady_envSet (name : List Char) (v : Value) (s : Interp σ) :
    Logged.Ensures (envSet m name v s) fun r => Steady s r.2 := by
  unfold envSet
  split
  · refine Logged.ensures_skip fun _ => ?_
    refine Logged.ensures_bind (steady_valueFree _ s) fun t ht => ?_
    exact Logged.ensures_pure ⟨ht.breakFlag, ht.continueFlag, ht.returnFlag, ht.error⟩
  · exact Logged.ensures_skip fun _ =>
      Logged.ensures_pure (.refl s)

theorem steady_valueCreateNull (s : Interp σ) : Steady s (valueCreateNull m s).2 :=
  ⟨rfl, rfl, rfl, id⟩

theorem steady_intArith (op : IntOp) (a b : Int64) (s : Interp σ) :
    Logged.Ensures ((intArith op a b : Run σ Int64) >>= fun i => pure (Value.int i, s))
      fun r => Steady s r.2 :=
  Logged.ensures_skip fun _ =>
    Logged.ensures_pure (.refl s)

theorem steady_binaryOp (op : List Char) (left right : Value) (s : Interp σ) :
    Logged.Ensures (binaryOp m op left right s) fun r => Steady s r.2 := by
  unfold binaryOp
  split
  · exact steady_intArith _ _ _ s
  · exact Logged.ensures_pure (.refl s)
  · exact Logged.ensures_pure ⟨rfl, rfl, rfl, fun _ => rfl⟩
  · split
    · exact Logged.ensures_pure ⟨rfl, rfl, rfl, id⟩
    · refine Logged.ensures_bind (steady_valueFree _ s) fun s₁ h₁ => ?_
      refine Logged.ensures_bind (steady_valueFree _ s₁) fun s₂ h₂ => ?_
      exact Logged.ensures_pure ((h₁.trans h₂).trans (steady_valueCreateNull s₂))

theorem steady_unaryOp (op : List Char) (operand : Value) (s : Interp σ) :
    Logged.Ensures (unaryOp m op operand s) fun r => Steady s r.2 := by
  unfold unaryOp
  split
  · exact steady_intArith _ _ _ s
  · exact Logged.ensures_pure (.refl s)
  · exact Logged.ensures_pure ⟨rfl, rfl, rfl, id⟩
  · refine Logged.ensures_bind (steady_valueFree _ s) fun s₁ h₁ => ?_
    exact Logged.ensures_pure (h₁.trans (steady_valueCreateNull s₁))

/-- The evaluator is steady in the nodes `cs`. -/
def SteadyIn (eval : Evaluator σ) (cs : List ASTNode) : Prop :=
  ∀ c ∈ cs, ∀ s, Logged.Ensures (eval c s) fun r => Steady s r.2

theorem ensures_childAt {i : Nat} :
    Logged.Ensures (childAt node i : Run σ ASTNode) fun c => c ∈ node.children :=
  fun _ h => List.mem_of_getElem? (Logged.result_ofOption.mp h)

/-- Expressions leave variables and flags as they are. -/
theorem steady_evalNode {eval : Evaluator σ} (htype : IsExprType node.type)
    (heval : SteadyIn eval node.children) :
    Logged.Ensures (evalNode m eval fuel node s) fun r => Steady s r.2 := by
  unfold evalNode
  refine Logged.ensures_ite (fun _ => Logged.ensures_pure ⟨rfl, rfl, rfl, id⟩) fun _ => ?_
  cases hnode : node.type <;> rw [hnode] at htype <;> first
    | exact absurd htype (by decide)
    | dsimp only
  case literalString =>
    exact Logged.ensures_skip fun _ =>
      Logged.ensures_pure ⟨rfl, rfl, rfl, id⟩
  case identifier =>
    unfold evalIdentifier
    split
    · exact Logged.ensures_pure ⟨rfl, rfl, rfl, fun _ => rfl⟩
    · exact Logged.ensures_skip fun _ =>
        Logged.ensures_pure (.refl s)
  case binaryOp =>
    refine Logged.ensures_bind ensures_childAt fun l hl => ?_
    refine Logged.ensures_bind (heval l hl s) fun r₁ h₁ => ?_
    refine Logged.ensures_bind ensures_childAt fun r hr => ?_
    refine Logged.ensures_bind (heval r hr _) fun r₂ h₂ => ?_
    refine Logged.ensures_skip fun _ => ?_
    exact fun a ha => (h₁.trans h₂).trans (steady_binaryOp _ _ _ _ a ha)
  case unaryOp =>
    refine Logged.ensures_bind ensures_childAt fun c hc => ?_
    refine Logged.ensures_bind (heval c hc s) fun r₁ h₁ => ?_
    refine Logged.ensures_skip fun _ => ?_
    exact fun a ha => h₁.trans (steady_unaryOp _ _ _ a ha)
  all_goals exact Logged.ensures_pure ⟨rfl, rfl, rfl, id⟩

/-- An expression leaves the flags alone. -/
theorem steady_expression {e : ASTNode} (h : ExprTree e) (fuel : Nat) (s : Interp σ) :
    Logged.Ensures (interpreterEval m fuel e s) fun r => Steady s r.2 := by
  induction fuel generalizing e s with
  | zero => exact Logged.ensures_stop _
  | succ fuel ih =>
      rcases h with ⟨htype, hchildren⟩
      rw [interpreterEval]
      refine Logged.ensures_skip fun _ => ?_
      refine Logged.ensures_bind (steady_evalNode htype fun c hc s => ih (hchildren c hc) s) ?_
      intro r hr
      refine Logged.ensures_skip fun _ => ?_
      exact Logged.ensures_pure hr

/-! ## Errors are not forgotten -/

/-- After an error the evaluator does nothing. -/
theorem keeps_interpreterEval (h : s.hasError) (fuel : Nat) (n : ASTNode) :
    Logged.Ensures (interpreterEval m fuel n s) fun r => r.2.hasError := by
  cases fuel with
  | zero => exact Logged.ensures_stop _
  | succ fuel =>
      rw [interpreterEval, evalNode, if_pos h]
      refine Logged.ensures_skip fun _ => ?_
      refine Logged.ensures_bind (M := fun r => r.2.hasError) (Logged.ensures_pure h) ?_
      exact fun r hr => Logged.ensures_skip fun _ => Logged.ensures_pure hr

/-- Without an error behind a node, there was none before it. -/
theorem no_error_before_node (hrun : (interpreterEval m fuel node s).result = .ok (v, t))
    (ht : t.hasError = false) : s.hasError = false := by
  by_contra hs
  have herr : t.hasError = true := keeps_interpreterEval (by simpa using hs) fuel node _ hrun
  rw [ht] at herr
  cases herr

theorem keeps_runBlock {cs : List ASTNode} (h : s.hasError) :
    Logged.Ensures (runBlock (interpreterEval m fuel) cs s) fun t => t.hasError := by
  induction cs generalizing s with
  | nil => exact Logged.ensures_pure h
  | cons c cs ih =>
      refine Logged.ensures_bind (keeps_interpreterEval h fuel c) fun r hr => ?_
      refine Logged.ensures_skip fun _ => ?_
      exact Logged.ensures_ite (fun _ => Logged.ensures_pure hr) fun _ => ih hr

/-- What a round of a loop does with the flags that its body has left. -/
def afterBody (m : Memory σ) (fuel : Nat) (n : ASTNode) (k : Nat) (s : Interp σ) :
    Run σ (Interp σ) :=
  if s.breakFlag then return { s with breakFlag := false }
  else if s.continueFlag then
    runWhile m (interpreterEval m fuel) n k { s with continueFlag := false }
  else if s.returnFlag then return s
  else runWhile m (interpreterEval m fuel) n k s

/-- A round of a loop behind its condition. -/
def afterCondition (m : Memory σ) (fuel : Nat) (n : ASTNode) (k : Nat) (yes : Bool)
    (s : Interp σ) : Run σ (Interp σ) :=
  if !yes then return s
  else do
    let body ← childAt n 1
    let (v, s) ← interpreterEval m fuel body s
    Logged.emit (.dropped body.type v)
    afterBody m fuel n k s

theorem runWhile_succ (k : Nat) : runWhile m (interpreterEval m fuel) node (k + 1) s =
    evalCondition m (interpreterEval m fuel) node s >>= fun r =>
      afterCondition m fuel node k r.1 r.2 := rfl

theorem keeps_afterCondition {k : Nat} {yes : Bool}
    (hloop : ∀ t : Interp σ, t.hasError →
      Logged.Ensures (runWhile m (interpreterEval m fuel) node k t) fun t => t.hasError)
    (h : s.hasError) : Logged.Ensures (afterCondition m fuel node k yes s) fun t => t.hasError := by
  refine Logged.ensures_ite (fun _ => Logged.ensures_pure h) fun _ => ?_
  refine Logged.ensures_skip fun body => ?_
  refine Logged.ensures_bind (keeps_interpreterEval h fuel body) fun r hr => ?_
  refine Logged.ensures_skip fun _ => ?_
  refine Logged.ensures_ite (fun _ => Logged.ensures_pure hr) fun _ => ?_
  refine Logged.ensures_ite (fun _ => hloop _ hr) fun _ => ?_
  exact Logged.ensures_ite (fun _ => Logged.ensures_pure hr) fun _ => hloop _ hr

theorem keeps_runWhile {k : Nat} (h : s.hasError) :
    Logged.Ensures (runWhile m (interpreterEval m fuel) node k s) fun t => t.hasError := by
  induction k generalizing s with
  | zero => exact Logged.ensures_stop _
  | succ k ih =>
      rw [runWhile_succ]
      refine Logged.ensures_bind (M := fun r => r.2.hasError) ?_ fun r hr =>
        keeps_afterCondition (fun t ht => ih ht) hr
      refine Logged.ensures_skip fun c => ?_
      refine Logged.ensures_bind (keeps_interpreterEval h fuel c) fun r hr => ?_
      refine Logged.ensures_skip fun _ => ?_
      refine Logged.ensures_bind (steady_valueFree _ _) fun s₁ h₁ => ?_
      exact Logged.ensures_pure (h₁.error hr)

theorem keeps_afterBody {k : Nat} (h : s.hasError) :
    Logged.Ensures (afterBody m fuel node k s) fun t => t.hasError := by
  refine Logged.ensures_ite (fun _ => Logged.ensures_pure h) fun _ => ?_
  refine Logged.ensures_ite (fun _ => keeps_runWhile h) fun _ => ?_
  exact Logged.ensures_ite (fun _ => Logged.ensures_pure h) fun _ => keeps_runWhile h

/-- Without an error at the end, there was none before. -/
theorem no_error_before {x : Run σ (Interp σ)}
    (hx : s.hasError → Logged.Ensures x fun t => t.hasError) (hrun : x.result = .ok t)
    (ht : t.hasError = false) : s.hasError = false := by
  by_contra hs
  have herr : t.hasError = true := hx (by simpa using hs) t hrun
  rw [ht] at herr
  cases herr

/-! ## The flags and the outcomes -/

/-- No flag is set. -/
structure NoFlags (s : Interp σ) : Prop where
  breakFlag : s.breakFlag = false
  continueFlag : s.continueFlag = false
  returnFlag : s.returnFlag = false

/-- The flags that stand for an outcome. -/
def Interp.withOutcome (s : Interp σ) (o : Outcome) : Interp σ :=
  { s with
    breakFlag := decide (o = .break)
    continueFlag := decide (o = .continue)
    returnFlag := decide (o = .return) }

theorem NoFlags.withOutcome_normal (h : NoFlags s) : s.withOutcome .normal = s := by
  rcases h with ⟨hb, hc, hr⟩
  cases s
  cases hb
  cases hc
  cases hr
  rfl

theorem Steady.noFlags (h : Steady s t) (hs : NoFlags s) : NoFlags t :=
  ⟨h.breakFlag.trans hs.breakFlag, h.continueFlag.trans hs.continueFlag,
    h.returnFlag.trans hs.returnFlag⟩

/-- Without an error now, there was none before. -/
theorem Steady.no_error (h : Steady s t) (ht : t.hasError = false) : s.hasError = false := by
  by_contra hs
  have herr := h.error (by simpa using hs)
  rw [ht] at herr
  cases herr

/-- The conditions of a run are integers or booleans. -/
def ConditionOk : RunEvent σ → Prop
  | .condition v => ∃ b, Truth v b
  | _ => True

theorem Truth.isTrue {b : Bool} (h : Truth v b) : v.isTrue = b := by
  cases h <;> rfl

/-- Integers and booleans need not be freed. -/
theorem Truth.valueFree {b : Bool} (h : Truth v b) (s : Interp σ) :
    PolskiScript.valueFree m v s = pure s := by
  cases h <;> rfl

/-- What a run with a structured counterpart looks like. -/
def Structured (m : Memory σ) (l : Bool) (n : ASTNode) (s t : Interp σ) : Prop :=
  ∃ o u, BigStep m n s o u ∧ NoFlags u ∧ t = u.withOutcome o ∧
    (l = false → o = .normal ∨ o = .return)

theorem Structured.normal {l : Bool} {n : ASTNode} (h : BigStep m n s .normal t) (ht : NoFlags t) :
    Structured m l n s t := ⟨.normal, t, h, ht, ht.withOutcome_normal.symm, fun _ => .inl rfl⟩

/-- A run whose conditions are integers and booleans. -/
abbrev Goes {α : Type} (x : Run σ α) (a : α) : Prop := Logged.Yields ConditionOk x a

theorem evaluates_of_goes {e : ASTNode} (h : ExprTree e)
    (hrun : Goes (interpreterEval m fuel e s) (v, t)) (ht : t.hasError = false) :
    Evaluates m e s v t ∧ Steady s t :=
  ⟨⟨⟨fuel, hrun.1⟩, ht⟩, steady_expression h fuel s (v, t) hrun.1⟩

/-- The child that is read. -/
theorem goes_childAt {c c' : ASTNode} {cs : List ASTNode} {i : Nat} (hcs : node.children = cs)
    (h : Goes (childAt node i : Run σ ASTNode) c) (hc : cs[i]? = some c') : c = c' := by
  have hread : node.children[i]? = some c := Logged.yields_ofOption.mp h
  rw [hcs, hc] at hread
  exact (Option.some.inj hread).symm

/-- The value of a declaration or a return. -/
theorem optional_of_goes {cs : List ASTNode} (hcs : ∀ c ∈ cs, ExprTree c)
    (hrun : Goes (match cs with
      | [] => (pure (valueCreateNull m s) : Run σ (Value × Interp σ))
      | c :: _ => interpreterEval m fuel c s) (v, t)) (ht : t.hasError = false) :
    OptionalValue m cs s v t ∧ Steady s t := by
  cases cs with
  | nil =>
      have heq : (v, t) = valueCreateNull m s := Logged.yields_pure.mp hrun
      refine ⟨heq, ?_⟩
      rw [show t = (valueCreateNull m s).2 from congrArg Prod.snd heq]
      exact steady_valueCreateNull s
  | cons c cs => exact evaluates_of_goes (hcs c List.mem_cons_self) hrun ht

/-- The values that `drukuj` prints are those of the meaning, in their order. -/
theorem prints_of_goes {cs : List ASTNode} (hcs : ∀ c ∈ cs, ExprTree c)
    (hrun : Goes (printArguments m (interpreterEval m fuel) cs s) t) (ht : t.hasError = false) :
    Prints m cs s t ∧ Steady s t := by
  induction cs generalizing s with
  | nil =>
      cases Logged.yields_pure.mp hrun
      exact ⟨.nil, .refl _⟩
  | cons c cs ih =>
      rcases List.forall_mem_cons.mp hcs with ⟨hc, hcs⟩
      rcases Logged.yields_bind.mp hrun with ⟨⟨v, s₁⟩, heval, hrun⟩
      rcases Logged.yields_bind.mp hrun with ⟨s₂, hprint, hrun⟩
      rcases Logged.yields_bind.mp hrun with ⟨s₃, hfree, hrun⟩
      rcases ih hcs hrun with ⟨hprints, hsteady₃⟩
      -- no error at the end, so none on the way
      have hsteady₂ := steady_valueFree v _ s₃ hfree.1
      have hsteady₁ := steady_valuePrint v s₁ s₂ hprint.1
      have hspace : Steady s₁ (if cs = [] then s₂ else s₂.print .space) := by
        split
        · exact hsteady₁
        · exact ⟨hsteady₁.breakFlag, hsteady₁.continueFlag, hsteady₁.returnFlag, hsteady₁.error⟩
      have hrest := (hspace.trans hsteady₂).trans hsteady₃
      rcases evaluates_of_goes hc heval (hrest.no_error ht) with ⟨hevaluates, hsteady⟩
      exact ⟨.cons hevaluates hprint.1 hfree.1 hprints, hsteady.trans hrest⟩

theorem condition_of_goes {c : ASTNode} {rest : List ASTNode} {b : Bool}
    (hchildren : node.children = c :: rest) (hc : ExprTree c)
    (hrun : Goes (evalCondition m (interpreterEval m fuel) node s) (b, t))
    (ht : t.hasError = false) : Condition m c s b t ∧ Steady s t := by
  rcases Logged.yields_bind.mp hrun with ⟨c', hchild, hrun⟩
  have heq : c' = c := goes_childAt hchildren hchild rfl
  subst heq
  rcases Logged.yields_bind.mp hrun with ⟨⟨v, s₁⟩, heval, hrun⟩
  rcases Logged.yields_bind.mp hrun with ⟨_, hok, hrun⟩
  rcases Logged.yields_emit.mp hok with ⟨b', htruth⟩
  rw [htruth.valueFree] at hrun
  have heq := Logged.yields_pure.mp hrun
  cases heq
  rcases evaluates_of_goes hc heval ht with ⟨hevaluates, hsteady⟩
  refine ⟨⟨v, hevaluates, ?_⟩, hsteady⟩
  have hb : v.isTrue = b' := htruth.isTrue
  change Truth v v.isTrue
  rw [hb]
  exact htruth

/-- The induction hypothesis: the flags stand for the outcomes in the trees that are
evaluated with this fuel. -/
def Simulates (m : Memory σ) (fuel : Nat) : Prop :=
  ∀ {l n s v t}, StmtTree l n → NoFlags s → Goes (interpreterEval m fuel n s) (v, t) →
    t.hasError = false → Structured m l n s t

/-- The loop over a block, with the outcome of the statement that leaves it. -/
theorem block_of_goes {l : Bool} {n : ASTNode} {cs : List ASTNode} (hsim : Simulates m fuel)
    (hn : n.type = .block) (hcs : ∀ c ∈ cs, StmtTree l c) (hs : NoFlags s)
    (hrun : Goes (runBlock (interpreterEval m fuel) cs s) t) (ht : t.hasError = false) :
    ∃ o u, BigStep m { n with children := cs } s o (done m u) ∧ NoFlags u ∧
      t = u.withOutcome o ∧ (l = false → o = .normal ∨ o = .return) := by
  induction cs generalizing s with
  | nil =>
      cases Logged.yields_pure.mp hrun
      exact ⟨.normal, _, .blockNil hn rfl, hs, hs.withOutcome_normal.symm, fun _ => .inl rfl⟩
  | cons c cs ih =>
      rcases List.forall_mem_cons.mp hcs with ⟨hc, hcs⟩
      rcases Logged.yields_bind.mp hrun with ⟨⟨v, s₁⟩, heval, hrun⟩
      rcases Logged.yields_bind.mp hrun with ⟨_, -, hrun⟩
      have hs₁ : s₁.hasError = false :=
        no_error_before (fun herr => Logged.ensures_ite (fun _ => Logged.ensures_pure herr)
          fun _ => keeps_runBlock herr) hrun.1 ht
      rcases hsim hc hs heval hs₁ with ⟨o, u, hstep, hu, rfl, ho⟩
      by_cases hnormal : o = .normal
      · -- the block goes on
        subst hnormal
        rw [hu.withOutcome_normal] at hrun
        have hgo : ¬(u.returnFlag || u.breakFlag || u.continueFlag) = true := by
          simp [hu.returnFlag, hu.breakFlag, hu.continueFlag]
        rw [if_neg hgo] at hrun
        rcases ih hcs hu hrun with ⟨o', u', hrest, hu', hflags, ho'⟩
        exact ⟨o', u', .blockNext hn rfl hstep hrest, hu', hflags, ho'⟩
      · -- a flag is set, and the block is left
        have hstop : ((u.withOutcome o).returnFlag || (u.withOutcome o).breakFlag ||
            (u.withOutcome o).continueFlag) = true := by
          cases o <;> first | exact absurd rfl hnormal | rfl
        rw [if_pos hstop] at hrun
        cases Logged.yields_pure.mp hrun
        exact ⟨o, u, .blockStop hn rfl hstep hnormal, hu, rfl, ho⟩

/-- The rounds of a loop, of which the last is left by its condition, by a break or by a
return. -/
theorem while_of_goes {n c b : ASTNode} {k : Nat} (hsim : Simulates m fuel)
    (hn : n.type = .while) (hchildren : n.children = [c, b]) (hc : ExprTree c)
    (hb : StmtTree true b) (hs : NoFlags s)
    (hrun : Goes (runWhile m (interpreterEval m fuel) n k s) t) (ht : t.hasError = false) :
    ∃ o u, BigStep m n s o (done m u) ∧ NoFlags u ∧ t = u.withOutcome o ∧
      (o = .normal ∨ o = .return) := by
  induction k generalizing s with
  | zero => cases hrun.1
  | succ k ih =>
      rw [runWhile_succ] at hrun
      rcases Logged.yields_bind.mp hrun with ⟨⟨yes, s₁⟩, hcond, hrun⟩
      have hs₁ : s₁.hasError = false :=
        no_error_before (keeps_afterCondition fun _ => keeps_runWhile) hrun.1 ht
      rcases condition_of_goes hchildren hc hcond hs₁ with ⟨hcondition, hsteady⟩
      have hflags₁ := hsteady.noFlags hs
      cases yes with
      | false =>
          cases Logged.yields_pure.mp hrun
          exact ⟨.normal, _, .whileFalse hn hchildren hcondition, hflags₁,
            hflags₁.withOutcome_normal.symm, .inl rfl⟩
      | true =>
          rcases Logged.yields_bind.mp hrun with ⟨body, hchild, hrun⟩
          have hbody : body = b := goes_childAt hchildren hchild rfl
          subst hbody
          rcases Logged.yields_bind.mp hrun with ⟨⟨v, s₂⟩, heval, hrun⟩
          rcases Logged.yields_bind.mp hrun with ⟨_, -, hrun⟩
          have hs₂ : s₂.hasError = false := no_error_before keeps_afterBody hrun.1 ht
          rcases hsim hb hflags₁ heval hs₂ with ⟨o', u, hstep, hu, rfl, -⟩
          -- the flag of the outcome decides how the loop goes on
          cases o' with
          | «break» =>
              cases Logged.yields_pure.mp hrun
              refine ⟨.normal, u, .whileBreak hn hchildren hcondition hstep, hu, ?_, .inl rfl⟩
              rfl
          | «continue» =>
              have hcleared : { u.withOutcome .continue with continueFlag := false } = u :=
                hu.withOutcome_normal
              change Goes (runWhile m (interpreterEval m fuel) n k
                { u.withOutcome .continue with continueFlag := false }) t at hrun
              rw [hcleared] at hrun
              rcases ih hu hrun with ⟨o, u', hrest, hu', hflags, ho⟩
              exact ⟨o, u', .whileNext hn hchildren hcondition hstep (.inr rfl) hrest, hu',
                hflags, ho⟩
          | «return» =>
              cases Logged.yields_pure.mp hrun
              exact ⟨.return, u, .whileReturn hn hchildren hcondition hstep, hu, rfl, .inr rfl⟩
          | normal =>
              change Goes (runWhile m (interpreterEval m fuel) n k (u.withOutcome .normal)) t at hrun
              rw [hu.withOutcome_normal] at hrun
              rcases ih hu hrun with ⟨o, u', hrest, hu', hflags, ho⟩
              exact ⟨o, u', .whileNext hn hchildren hcondition hstep (.inl rfl) hrest, hu',
                hflags, ho⟩

/-- A statement returns its null. -/
theorem goes_thenNull {x : Run σ (Interp σ)} (h : Goes (thenNull m x) (v, t)) :
    ∃ u, Goes x u ∧ t = done m u := by
  rcases Logged.yields_bind.mp h with ⟨u, hx, hpure⟩
  exact ⟨u, hx, congrArg Prod.snd (Logged.yields_pure.mp hpure)⟩

/-- A condition that is executed without an error takes the branch of the meaning. -/
theorem if_of_goes {l : Bool} {n c a : ASTNode} {rest : List ASTNode} (hsim : Simulates m fuel)
    (hn : n.type = .if) (hchildren : n.children = c :: a :: rest) (hc : ExprTree c)
    (ha : StmtTree l a) (hrest : rest = [] ∨ ∃ b, rest = [b] ∧ StmtTree l b) (hs : NoFlags s)
    (hrun : Goes (evalIf m (interpreterEval m fuel) n s) (v, t)) (ht : t.hasError = false) :
    Structured m l n s t := by
  rcases Logged.yields_bind.mp hrun with ⟨⟨yes, s₁⟩, hcond, hrun⟩
  cases yes with
  | true =>
      rcases Logged.yields_bind.mp hrun with ⟨a', hchild, hrun⟩
      have heq : a' = a := goes_childAt hchildren hchild rfl
      subst heq
      have hs₁ : s₁.hasError = false := no_error_before_node hrun.1 ht
      rcases condition_of_goes hchildren hc hcond hs₁ with ⟨hcondition, hsteady⟩
      rcases hsim ha (hsteady.noFlags hs) hrun ht with ⟨o, u, hstep, hu, hflags, ho⟩
      exact ⟨o, u, .ifTrue hn hchildren hcondition hstep, hu, hflags, ho⟩
  | false =>
      dsimp only at hrun
      rcases hrest with rfl | ⟨b, rfl, hb⟩
      · -- there is no other branch
        rw [hchildren] at hrun
        have heq := congrArg Prod.snd (Logged.yields_pure.mp hrun)
        change t = done m s₁ at heq
        subst heq
        rcases condition_of_goes hchildren hc hcond ht with ⟨hcondition, hsteady⟩
        refine .normal (.ifNone hn hchildren hcondition) ?_
        exact (hsteady.trans (steady_valueCreateNull s₁)).noFlags hs
      · rw [hchildren] at hrun
        change Goes (interpreterEval m fuel b s₁) (v, t) at hrun
        have hs₁ : s₁.hasError = false := no_error_before_node hrun.1 ht
        rcases condition_of_goes hchildren hc hcond hs₁ with ⟨hcondition, hsteady⟩
        rcases hsim hb (hsteady.noFlags hs) hrun ht with ⟨o, u, hstep, hu, hflags, ho⟩
        exact ⟨o, u, .ifFalse hn hchildren hcondition hstep, hu, hflags, ho⟩

theorem simple_structured {l : Bool} {n : ASTNode} (h : Simple m n s .normal t)
    (ht : NoFlags t) : Structured m l n s t := .normal (.simple h) ht

theorem varDecl_of_goes {l : Bool} {n : ASTNode} (hn : n.type = .varDecl)
    (hcs : ∀ c ∈ n.children, ExprTree c) (hs : NoFlags s)
    (hrun : Goes (evalVarDecl m (interpreterEval m fuel) n s) (v, t)) (ht : t.hasError = false) :
    Structured m l n s t := by
  rcases Logged.yields_bind.mp hrun with ⟨⟨w, s₁⟩, hvalue, hrun⟩
  rcases Logged.yields_bind.mp hrun with ⟨s₂, hdefine, hrun⟩
  have heq : t = done m s₂ := congrArg Prod.snd (Logged.yields_pure.mp hrun)
  subst heq
  have hsteady := (steady_envDefine _ _ _ s₂ hdefine.1).trans (steady_valueCreateNull (m := m) s₂)
  rcases optional_of_goes hcs hvalue (hsteady.no_error ht) with ⟨hoptional, hsteady₁⟩
  refine simple_structured ?_ ((hsteady₁.trans hsteady).noFlags hs)
  unfold Simple
  rw [hn]
  exact ⟨rfl, w, s₁, s₂, hoptional, hdefine.1, rfl⟩

theorem return_of_goes {l : Bool} {n : ASTNode} (hn : n.type = .return)
    (hcs : ∀ c ∈ n.children, ExprTree c) (hs : NoFlags s)
    (hrun : Goes (evalReturn m (interpreterEval m fuel) n s) (v, t)) (ht : t.hasError = false) :
    Structured m l n s t := by
  rcases Logged.yields_bind.mp hrun with ⟨⟨w, s₁⟩, hvalue, hrun⟩
  rcases Logged.yields_bind.mp hrun with ⟨_, -, hrun⟩
  have heq : t = done m { s₁ with returnValue := w, returnFlag := true } :=
    congrArg Prod.snd (Logged.yields_pure.mp hrun)
  subst heq
  have ht₁ : s₁.hasError = false := ht
  rcases optional_of_goes hcs hvalue ht₁ with ⟨hoptional, hsteady⟩
  have hflags := hsteady.noFlags hs
  refine ⟨.return, done m { s₁ with returnValue := w }, .simple ?_, ?_, ?_, fun _ => .inr rfl⟩
  · unfold Simple
    rw [hn]
    exact ⟨rfl, w, s₁, hoptional, rfl⟩
  · exact ⟨hflags.breakFlag, hflags.continueFlag, hflags.returnFlag⟩
  · rcases hflags with ⟨hb, hc, -⟩
    simp [done, valueCreateNull, Interp.withOutcome, hb, hc]

/-- An assignment that is executed without an error is the one of the meaning. -/
theorem assign_of_goes {l : Bool} {n c : ASTNode} (hn : n.type = .assign)
    (hchildren : n.children = [c]) (hc : ExprTree c) (hs : NoFlags s)
    (hrun : Goes (evalAssign m (interpreterEval m fuel) n s) (v, t)) (ht : t.hasError = false) :
    Structured m l n s t := by
  rcases Logged.yields_bind.mp hrun with ⟨c', hchild, hrun⟩
  have heq : c' = c := goes_childAt hchildren hchild rfl
  subst heq
  rcases Logged.yields_bind.mp hrun with ⟨⟨w, s₁⟩, hvalue, hrun⟩
  rcases Logged.yields_bind.mp hrun with ⟨⟨found, s₂⟩, hset, hrun⟩
  have heq := congrArg Prod.snd (Logged.yields_pure.mp hrun)
  cases found with
  | false =>
      -- an undefined variable is an error
      change t = s₂.fail _ at heq
      rw [heq] at ht
      cases ht
  | true =>
      change t = s₂ at heq
      subst heq
      have hsteady := steady_envSet _ _ _ _ hset.1
      rcases evaluates_of_goes hc hvalue (hsteady.no_error ht) with ⟨hevaluates, hsteady₁⟩
      refine simple_structured ?_ ((hsteady₁.trans hsteady).noFlags hs)
      unfold Simple
      rw [hn]
      exact ⟨rfl, c', w, s₁, hchildren, hevaluates, hset.1⟩

theorem print_of_goes {l : Bool} {n : ASTNode} (hn : n.type = .print)
    (hcs : ∀ c ∈ n.children, ExprTree c) (hs : NoFlags s)
    (hrun : Goes (evalPrint m (interpreterEval m fuel) n s) (v, t)) (ht : t.hasError = false) :
    Structured m l n s t := by
  rcases Logged.yields_bind.mp hrun with ⟨s₁, hprint, hrun⟩
  have heq : t = done m (s₁.print .newline) := congrArg Prod.snd (Logged.yields_pure.mp hrun)
  subst heq
  have ht₁ : s₁.hasError = false := ht
  rcases prints_of_goes hcs hprint ht₁ with ⟨hprints, hsteady⟩
  have hflags := hsteady.noFlags hs
  refine simple_structured ?_ ⟨hflags.breakFlag, hflags.continueFlag, hflags.returnFlag⟩
  unfold Simple
  rw [hn]
  exact ⟨rfl, s₁, hprints, rfl⟩

theorem jump_of_goes {n : ASTNode} (hn : n.type = .break ∨ n.type = .continue) (hs : NoFlags s)
    (hrun : Goes (evalNode m (interpreterEval m fuel) fuel n s) (v, t))
    (herr : s.hasError = false) : Structured m true n s t := by
  rcases hs with ⟨hb, hc, hr⟩
  unfold evalNode at hrun
  rw [if_neg (by simp [herr])] at hrun
  rcases hn with hn | hn <;> rw [hn] at hrun <;>
    have heq := congrArg Prod.snd (Logged.yields_pure.mp hrun) <;> subst heq
  · refine ⟨.break, done m s, .simple ?_, ⟨hb, hc, hr⟩, ?_, fun h => nomatch h⟩
    · unfold Simple
      rw [hn]
      exact ⟨rfl, rfl⟩
    · simp [done, valueCreateNull, Interp.withOutcome, hc, hr]
  · refine ⟨.continue, done m s, .simple ?_, ⟨hb, hc, hr⟩, ?_, fun h => nomatch h⟩
    · unfold Simple
      rw [hn]
      exact ⟨rfl, rfl⟩
    · simp [done, valueCreateNull, Interp.withOutcome, hb, hr]

/-- The flags stand for the outcomes, in every tree and every run. -/
theorem simulates (m : Memory σ) (fuel : Nat) : Simulates m fuel := by
  -- induction on the fuel; the node inside is evaluated with less
  induction fuel with
  | zero =>
      intro l n s v t _ _ hrun _
      cases hrun.1
  | succ fuel ih =>
      intro l n s v t hn hs hrun ht
      have herr : s.hasError = false := no_error_before_node hrun.1 ht
      rw [interpreterEval] at hrun
      rcases Logged.yields_bind.mp hrun with ⟨_, -, hrun⟩
      rcases Logged.yields_bind.mp hrun with ⟨⟨w, u⟩, hnode, hrun⟩
      rcases Logged.yields_bind.mp hrun with ⟨_, -, hrun⟩
      cases Logged.yields_pure.mp hrun
      have hgo : ¬s.hasError = true := by simp [herr]
      cases hn with
      | jump htype => exact jump_of_goes htype hs hnode herr
      | optional htype _ hcs =>
          rw [evalNode, if_neg hgo] at hnode
          rcases htype with htype | htype <;> rw [htype] at hnode
          · exact varDecl_of_goes htype hcs hs hnode ht
          · exact return_of_goes htype hcs hs hnode ht
      | assign htype hchildren hc =>
          rw [evalNode, if_neg hgo, htype] at hnode
          exact assign_of_goes htype hchildren hc hs hnode ht
      | print htype hcs =>
          rw [evalNode, if_neg hgo, htype] at hnode
          exact print_of_goes htype hcs hs hnode ht
      | ifThen htype hchildren hc ha =>
          rw [evalNode, if_neg hgo, htype] at hnode
          exact if_of_goes ih htype hchildren hc ha (.inl rfl) hs hnode ht
      | ifElse htype hchildren hc ha hb =>
          rw [evalNode, if_neg hgo, htype] at hnode
          exact if_of_goes ih htype hchildren hc ha (.inr ⟨_, rfl, hb⟩) hs hnode ht
      | «while» htype hchildren hc hb =>
          rw [evalNode, if_neg hgo, htype] at hnode
          rcases goes_thenNull hnode with ⟨s₁, hloop, rfl⟩
          rcases while_of_goes ih htype hchildren hc hb hs hloop ht with
            ⟨o, u, hstep, hu, rfl, ho⟩
          exact ⟨o, done m u, hstep, ⟨hu.breakFlag, hu.continueFlag, hu.returnFlag⟩, rfl,
            fun _ => ho⟩
      | block htype hcs =>
          rw [evalNode, if_neg hgo, htype] at hnode
          rcases goes_thenNull hnode with ⟨s₁, hloop, rfl⟩
          rcases block_of_goes ih htype hcs hs hloop ht with ⟨o, u, hstep, hu, rfl, ho⟩
          refine ⟨o, done m u, ?_, ⟨hu.breakFlag, hu.continueFlag, hu.returnFlag⟩, rfl, ho⟩
          cases n
          exact hstep

/-! ## More fuel changes no result -/

/-- What the first evaluator returns, the second returns. -/
def Improves (eval eval' : Evaluator σ) : Prop :=
  ∀ c s, Logged.Extends (eval c s) (eval' c s)

variable {eval eval' : Evaluator σ}

theorem extends_optional (h : Improves eval eval') (cs : List ASTNode) :
    Logged.Extends (match cs with
      | [] => (pure (valueCreateNull m s) : Run σ (Value × Interp σ))
      | c :: _ => eval c s) (match cs with
      | [] => pure (valueCreateNull m s)
      | c :: _ => eval' c s) := by
  cases cs with
  | nil => exact Logged.extends_refl _
  | cons c cs => exact h c s

theorem extends_printArguments (h : Improves eval eval') (cs : List ASTNode) (s : Interp σ) :
    Logged.Extends (printArguments m eval cs s) (printArguments m eval' cs s) := by
  induction cs generalizing s with
  | nil => exact Logged.extends_refl _
  | cons c cs ih =>
      refine Logged.extends_bind (h c s) fun r => ?_
      refine Logged.extends_bind (Logged.extends_refl _) fun s₁ => ?_
      exact Logged.extends_bind (Logged.extends_refl _) fun s₂ => ih s₂

theorem extends_runBlock (h : Improves eval eval') (cs : List ASTNode) (s : Interp σ) :
    Logged.Extends (runBlock eval cs s) (runBlock eval' cs s) := by
  induction cs generalizing s with
  | nil => exact Logged.extends_refl _
  | cons c cs ih =>
      refine Logged.extends_bind (h c s) fun r => ?_
      refine Logged.extends_bind (Logged.extends_refl _) fun _ => ?_
      exact Logged.extends_ite (Logged.extends_refl _) (ih _)

theorem extends_runProgram (h : Improves eval eval') (cs : List ASTNode) (s : Interp σ) :
    Logged.Extends (runProgram eval cs s) (runProgram eval' cs s) := by
  induction cs generalizing s with
  | nil => exact Logged.extends_refl _
  | cons c cs ih =>
      refine Logged.extends_bind (h c s) fun r => ?_
      refine Logged.extends_bind (Logged.extends_refl _) fun _ => ?_
      exact Logged.extends_ite (Logged.extends_refl _) (ih _)

theorem extends_evalCondition (h : Improves eval eval') (s : Interp σ) :
    Logged.Extends (evalCondition m eval node s) (evalCondition m eval' node s) :=
  Logged.extends_bind (Logged.extends_refl _) fun c =>
    Logged.extends_bind (h c s) fun _ => Logged.extends_refl _

theorem extends_runWhile (h : Improves eval eval') {k k' : Nat} (hk : k ≤ k') (s : Interp σ) :
    Logged.Extends (runWhile m eval node k s) (runWhile m eval' node k' s) := by
  induction k generalizing k' s with
  | zero => exact Logged.extends_stop
  | succ k ih =>
      obtain ⟨j, rfl⟩ := Nat.exists_eq_add_of_le' hk
      have hj : k ≤ j + k := Nat.le_add_left k j
      rw [← Nat.add_assoc, runWhile, runWhile]
      refine Logged.extends_bind (extends_evalCondition h s) fun r => ?_
      refine Logged.extends_ite (Logged.extends_refl _) ?_
      refine Logged.extends_bind (Logged.extends_refl _) fun body => ?_
      refine Logged.extends_bind (h body _) fun r₁ => ?_
      refine Logged.extends_bind (Logged.extends_refl _) fun _ => ?_
      refine Logged.extends_ite (Logged.extends_refl _) ?_
      exact Logged.extends_ite (ih hj _) (Logged.extends_ite (Logged.extends_refl _) (ih hj _))

/-- More fuel changes nothing of what has been returned. -/
theorem extends_evalNode (h : Improves eval eval') {k k' : Nat} (hk : k ≤ k') (n : ASTNode)
    (s : Interp σ) : Logged.Extends (evalNode m eval k n s) (evalNode m eval' k' n s) := by
  unfold evalNode
  refine Logged.extends_ite (Logged.extends_refl _) ?_
  have hnull : ∀ {x y : Run σ (Interp σ)}, Logged.Extends x y →
      Logged.Extends (thenNull m x) (thenNull m y) := fun hx =>
    Logged.extends_bind hx fun _ => Logged.extends_refl _
  split
  case h_7 => exact Logged.extends_bind (extends_optional h _) fun r => Logged.extends_refl _
  case h_8 =>
    refine Logged.extends_bind (Logged.extends_refl _) fun c => ?_
    exact Logged.extends_bind (h c s) fun r => Logged.extends_refl _
  case h_9 =>
    refine Logged.extends_bind (Logged.extends_refl _) fun l => ?_
    refine Logged.extends_bind (h l s) fun r₁ => ?_
    refine Logged.extends_bind (Logged.extends_refl _) fun r => ?_
    exact Logged.extends_bind (h r _) fun r₂ => Logged.extends_refl _
  case h_10 =>
    refine Logged.extends_bind (Logged.extends_refl _) fun c => ?_
    exact Logged.extends_bind (h c s) fun r => Logged.extends_refl _
  case h_11 =>
    exact Logged.extends_bind (extends_printArguments h _ s) fun _ => Logged.extends_refl _
  case h_12 =>
    refine Logged.extends_bind (extends_evalCondition h s) fun r => ?_
    refine Logged.extends_ite ?_ ?_
    · exact Logged.extends_bind (Logged.extends_refl _) fun b => h b _
    · split
      · exact h _ _
      · exact Logged.extends_refl _
  case h_13 => exact hnull (extends_runWhile h hk s)
  case h_14 => exact Logged.extends_bind (extends_optional h _) fun r => Logged.extends_refl _
  case h_17 => exact hnull (extends_runBlock h _ s)
  case h_18 => exact hnull (extends_runProgram h _ s)
  all_goals exact Logged.extends_refl _

/-- With more fuel the interpreter returns the same. -/
theorem interpreterEval_mono {j k : Nat} (hjk : j ≤ k) :
    Improves (interpreterEval m j) (interpreterEval m k) := by
  induction j generalizing k with
  | zero => exact fun _ _ => Logged.extends_stop
  | succ j ih =>
      obtain ⟨i, rfl⟩ := Nat.exists_eq_add_of_le' hjk
      have hj : j ≤ i + j := Nat.le_add_left j i
      intro c s
      rw [← Nat.add_assoc, interpreterEval, interpreterEval]
      refine Logged.extends_bind (Logged.extends_refl _) fun _ => ?_
      exact Logged.extends_bind (extends_evalNode (ih hj) hj c s) fun r => Logged.extends_refl _

/-! ## The structured semantics is a function -/

theorem Evaluates.unique {e : ASTNode} {v v' : Value} {t' : Interp σ} (h : Evaluates m e s v t)
    (h' : Evaluates m e s v' t') : v = v' ∧ t = t' := by
  rcases h with ⟨⟨j, hj⟩, -⟩
  rcases h' with ⟨⟨k, hk⟩, -⟩
  have hmax := interpreterEval_mono (Nat.le_max_left j k) e s _ hj
  rw [interpreterEval_mono (Nat.le_max_right j k) e s _ hk] at hmax
  cases hmax
  exact ⟨rfl, rfl⟩

theorem Condition.unique {c : ASTNode} {b b' : Bool} {t' : Interp σ} (h : Condition m c s b t)
    (h' : Condition m c s b' t') : b = b' ∧ t = t' := by
  rcases h with ⟨v, heval, htruth⟩
  rcases h' with ⟨v', heval', htruth'⟩
  rcases heval.unique heval' with ⟨rfl, rfl⟩
  exact ⟨htruth.isTrue.symm.trans htruth'.isTrue, rfl⟩

theorem Prints.unique {cs : List ASTNode} {t' : Interp σ} (h : Prints m cs s t)
    (h' : Prints m cs s t') : t = t' := by
  induction h with
  | nil =>
      cases h'
      rfl
  | cons heval hprint hfree _ ih =>
      cases h' with
      | cons heval' hprint' hfree' hrest' =>
          rcases heval.unique heval' with ⟨rfl, rfl⟩
          cases hprint.symm.trans hprint'
          cases hfree.symm.trans hfree'
          exact ih hrest'

theorem OptionalValue.unique {cs : List ASTNode} {v v' : Value} {t' : Interp σ}
    (h : OptionalValue m cs s v t) (h' : OptionalValue m cs s v' t') : v = v' ∧ t = t' := by
  cases cs with
  | nil =>
      have heq : (v, t) = (v', t') := Eq.trans (b := valueCreateNull m s) h (Eq.symm h')
      cases heq
      exact ⟨rfl, rfl⟩
  | cons c cs => exact Evaluates.unique h h'

/-- A simple statement has one outcome and leaves one state. -/
theorem Simple.unique {n : ASTNode} {o o' : Outcome} {t' : Interp σ} (h : Simple m n s o t)
    (h' : Simple m n s o' t') : o = o' ∧ t = t' := by
  unfold Simple at h h'
  cases hn : n.type <;> rw [hn] at h h' <;> dsimp only at h h'
  case varDecl =>
    rcases h with ⟨rfl, v, s₁, s₂, hvalue, hdefine, rfl⟩
    rcases h' with ⟨rfl, v', s₁', s₂', hvalue', hdefine', rfl⟩
    rcases hvalue.unique hvalue' with ⟨rfl, rfl⟩
    cases hdefine.symm.trans hdefine'
    exact ⟨rfl, rfl⟩
  case assign =>
    rcases h with ⟨rfl, c, v, s₁, hc, heval, hset⟩
    rcases h' with ⟨rfl, c', v', s₁', hc', heval', hset'⟩
    cases hc.symm.trans hc'
    rcases heval.unique heval' with ⟨rfl, rfl⟩
    cases hset.symm.trans hset'
    exact ⟨rfl, rfl⟩
  case print =>
    rcases h with ⟨rfl, s₁, hprints, rfl⟩
    rcases h' with ⟨rfl, s₁', hprints', rfl⟩
    cases hprints.unique hprints'
    exact ⟨rfl, rfl⟩
  case «return» =>
    rcases h with ⟨rfl, v, s₁, hvalue, rfl⟩
    rcases h' with ⟨rfl, v', s₁', hvalue', rfl⟩
    rcases hvalue.unique hvalue' with ⟨rfl, rfl⟩
    exact ⟨rfl, rfl⟩
  case «break» =>
    rcases h with ⟨rfl, rfl⟩
    rcases h' with ⟨rfl, rfl⟩
    exact ⟨rfl, rfl⟩
  case «continue» =>
    rcases h with ⟨rfl, rfl⟩
    rcases h' with ⟨rfl, rfl⟩
    exact ⟨rfl, rfl⟩

/-- A statement without statements inside is no block, no loop and no conditional. -/
theorem Simple.type {n : ASTNode} {o : Outcome} (h : Simple m n s o t) :
    n.type ≠ .if ∧ n.type ≠ .while ∧ n.type ≠ .block := by
  unfold Simple at h
  refine ⟨fun hn => ?_, fun hn => ?_, fun hn => ?_⟩ <;> rw [hn] at h <;> exact h

/-- What a simple statement does. -/
theorem BigStep.simple_cases {n : ASTNode} {o : Outcome} (h : BigStep m n s o t)
    (hif : n.type ≠ .if) (hwhile : n.type ≠ .while) (hblock : n.type ≠ .block) :
    Simple m n s o t := by
  cases h with
  | simple hsimple => exact hsimple
  | ifTrue hn | ifFalse hn | ifNone hn => exact absurd hn hif
  | whileFalse hn | whileBreak hn | whileReturn hn | whileNext hn => exact absurd hn hwhile
  | blockNil hn | blockStop hn | blockNext hn => exact absurd hn hblock

/-- What a conditional does. -/
theorem BigStep.if_cases {n c a : ASTNode} {rest : List ASTNode} {o : Outcome}
    (h : BigStep m n s o t) (hn : n.type = .if) (hchildren : n.children = c :: a :: rest) :
    ∃ yes s₁, Condition m c s yes s₁ ∧
      if yes then BigStep m a s₁ o t
      else match rest with
        | [] => o = .normal ∧ t = done m s₁
        | b :: _ => BigStep m b s₁ o t := by
  cases h with
  | simple hsimple => exact absurd hn hsimple.type.1
  | ifTrue _ hcs hcond ha =>
      cases hchildren.symm.trans hcs
      exact ⟨true, _, hcond, ha⟩
  | ifFalse _ hcs hcond hb =>
      cases hchildren.symm.trans hcs
      exact ⟨false, _, hcond, hb⟩
  | ifNone _ hcs hcond =>
      cases hchildren.symm.trans hcs
      exact ⟨false, _, hcond, rfl, rfl⟩
  | whileFalse hn' | whileBreak hn' | whileReturn hn' | whileNext hn' =>
      cases hn.symm.trans hn'
  | blockNil hn' | blockStop hn' | blockNext hn' => cases hn.symm.trans hn'

/-- What a loop does. -/
theorem BigStep.while_cases {n c b : ASTNode} {o : Outcome} (h : BigStep m n s o t)
    (hn : n.type = .while) (hchildren : n.children = [c, b]) :
    ∃ yes s₁, Condition m c s yes s₁ ∧
      if yes then ∃ o' u, BigStep m b s₁ o' u ∧ match o' with
        | .break => o = .normal ∧ t = done m u
        | .return => o = .return ∧ t = done m u
        | _ => BigStep m n u o t
      else o = .normal ∧ t = done m s₁ := by
  cases h with
  | simple hsimple => exact absurd hn hsimple.type.2.1
  | ifTrue hn' | ifFalse hn' | ifNone hn' => cases hn.symm.trans hn'
  | whileFalse _ hcs hcond =>
      cases hchildren.symm.trans hcs
      exact ⟨false, _, hcond, rfl, rfl⟩
  | whileBreak _ hcs hcond hb =>
      cases hchildren.symm.trans hcs
      exact ⟨true, _, hcond, .break, _, hb, rfl, rfl⟩
  | whileReturn _ hcs hcond hb =>
      cases hchildren.symm.trans hcs
      exact ⟨true, _, hcond, .return, _, hb, rfl, rfl⟩
  | whileNext _ hcs hcond hb ho hrest =>
      cases hchildren.symm.trans hcs
      rcases ho with rfl | rfl
      · exact ⟨true, _, hcond, .normal, _, hb, hrest⟩
      · exact ⟨true, _, hcond, .continue, _, hb, hrest⟩
  | blockNil hn' | blockStop hn' | blockNext hn' => cases hn.symm.trans hn'

/-- What a block does. -/
theorem BigStep.block_cases {n : ASTNode} {o : Outcome} (h : BigStep m n s o t)
    (hn : n.type = .block) :
    match n.children with
      | [] => o = .normal ∧ t = done m s
      | c :: cs => ∃ o' u, BigStep m c s o' u ∧
        if o' = .normal then BigStep m { n with children := cs } u o t
        else o = o' ∧ t = done m u := by
  cases h with
  | simple hsimple => exact absurd hn hsimple.type.2.2
  | ifTrue hn' | ifFalse hn' | ifNone hn' => cases hn.symm.trans hn'
  | whileFalse hn' | whileBreak hn' | whileReturn hn' | whileNext hn' =>
      cases hn.symm.trans hn'
  | blockNil _ hcs =>
      rw [hcs]
      exact ⟨rfl, rfl⟩
  | blockStop _ hcs hc ho =>
      rw [hcs]
      refine ⟨_, _, hc, ?_⟩
      rw [if_neg ho]
      exact ⟨rfl, rfl⟩
  | blockNext _ hcs hc hrest =>
      rw [hcs]
      exact ⟨.normal, _, hc, hrest⟩

/-- The structured semantics is a function. -/
theorem BigStep.unique {n : ASTNode} {o o' : Outcome} {t' : Interp σ} (h : BigStep m n s o t)
    (h' : BigStep m n s o' t') : o = o' ∧ t = t' := by
  -- by induction on one derivation, with the last rule of the other read off the node
  induction h generalizing o' t' with
  | simple hsimple =>
      rcases hsimple.type with ⟨hif, hwhile, hblock⟩
      exact hsimple.unique (h'.simple_cases hif hwhile hblock)
  | ifTrue hn hcs hcond _ ih =>
      rcases h'.if_cases hn hcs with ⟨yes, s₁, hcond', hrest⟩
      rcases hcond.unique hcond' with ⟨rfl, rfl⟩
      exact ih hrest
  | ifFalse hn hcs hcond _ ih =>
      rcases h'.if_cases hn hcs with ⟨yes, s₁, hcond', hrest⟩
      rcases hcond.unique hcond' with ⟨rfl, rfl⟩
      exact ih hrest
  | ifNone hn hcs hcond =>
      rcases h'.if_cases hn hcs with ⟨yes, s₁, hcond', hrest⟩
      rcases hcond.unique hcond' with ⟨rfl, rfl⟩
      rcases hrest with ⟨rfl, rfl⟩
      exact ⟨rfl, rfl⟩
  | whileFalse hn hcs hcond =>
      rcases h'.while_cases hn hcs with ⟨yes, s₁, hcond', hrest⟩
      rcases hcond.unique hcond' with ⟨rfl, rfl⟩
      rcases hrest with ⟨rfl, rfl⟩
      exact ⟨rfl, rfl⟩
  | whileBreak hn hcs hcond _ ih =>
      rcases h'.while_cases hn hcs with ⟨yes, s₁, hcond', hrest⟩
      rcases hcond.unique hcond' with ⟨rfl, rfl⟩
      rcases hrest with ⟨o₁, u, hbody, hrest⟩
      rcases ih hbody with ⟨rfl, rfl⟩
      rcases hrest with ⟨rfl, rfl⟩
      exact ⟨rfl, rfl⟩
  | whileReturn hn hcs hcond _ ih =>
      rcases h'.while_cases hn hcs with ⟨yes, s₁, hcond', hrest⟩
      rcases hcond.unique hcond' with ⟨rfl, rfl⟩
      rcases hrest with ⟨o₁, u, hbody, hrest⟩
      rcases ih hbody with ⟨rfl, rfl⟩
      rcases hrest with ⟨rfl, rfl⟩
      exact ⟨rfl, rfl⟩
  | whileNext hn hcs hcond _ ho _ ihbody ih =>
      rcases h'.while_cases hn hcs with ⟨yes, s₁, hcond', hrest⟩
      rcases hcond.unique hcond' with ⟨rfl, rfl⟩
      rcases hrest with ⟨o₁, u, hbody, hrest⟩
      rcases ihbody hbody with ⟨rfl, rfl⟩
      rcases ho with rfl | rfl <;> exact ih hrest
  | blockNil hn hcs =>
      have hblock := h'.block_cases hn
      rw [hcs] at hblock
      rcases hblock with ⟨rfl, rfl⟩
      exact ⟨rfl, rfl⟩
  | blockStop hn hcs _ ho ih =>
      have hblock := h'.block_cases hn
      rw [hcs] at hblock
      rcases hblock with ⟨o₁, u, hc, hrest⟩
      rcases ih hc with ⟨rfl, rfl⟩
      rw [if_neg ho] at hrest
      rcases hrest with ⟨rfl, rfl⟩
      exact ⟨rfl, rfl⟩
  | blockNext hn hcs _ _ ihc ih =>
      have hblock := h'.block_cases hn
      rw [hcs] at hblock
      rcases hblock with ⟨o₁, u, hc, hrest⟩
      rcases ihc hc with ⟨rfl, rfl⟩
      exact ih hrest

/-! ## The refinement -/

/-- The flag machine does what the structured semantics does: to the environment, to
the memory and to what is printed. -/
theorem flags_refine_outcomes (m : Memory σ) (fuel : Nat) {l : Bool} {n : ASTNode}
    {s t : Interp σ} {v : Value} (hn : StmtTree l n) (hs : NoFlags s)
    (hrun : (interpreterEval m fuel n s).result = .ok (v, t)) (ht : t.hasError = false)
    (hconditions : (interpreterEval m fuel n s).All ConditionOk) :
    ∃ o u, BigStep m n s o u ∧ (∀ o' u', BigStep m n s o' u' → o' = o ∧ u' = u) ∧
      t.frames = u.frames ∧ t.mem = u.mem ∧ t.out = u.out ∧ (t.returnFlag ↔ o = .return) ∧
      (n.type = .while → t.breakFlag = false ∧ t.continueFlag = false) := by
  rcases simulates m fuel hn hs ⟨hrun, hconditions⟩ ht with ⟨o, u, hstep, -, rfl, -⟩
  refine ⟨o, u, hstep, fun o' u' h' => h'.unique hstep, rfl, rfl, rfl, decide_eq_true_iff, ?_⟩
  intro hwhile
  -- a loop lets no break and no continue out, wherever it stands
  rcases simulates m fuel (hn.while_outside hwhile) hs ⟨hrun, hconditions⟩ ht with
    ⟨o', u', hstep', -, -, ho⟩
  rcases hstep'.unique hstep with ⟨rfl, -⟩
  rcases ho rfl with rfl | rfl
  · exact ⟨rfl, rfl⟩
  · exact ⟨rfl, rfl⟩

/-- `dopoki (prawda) { drukuj(1); przerwij; }` -/
def printOnce : ASTNode :=
  { astNodeCreate .while with children :=
    [{ astNodeCreate .literalBool with boolValue := true },
      { astNodeCreate .block with children :=
        [{ astNodeCreate .print with children :=
          [{ astNodeCreate .literalInt with intValue := 1 }] },
          astNodeCreate .break] }] }

theorem printOnce_statement : StmtTree false printOnce := by
  refine .while rfl rfl ⟨by decide, fun c hc => nomatch hc⟩ (.block rfl ?_)
  refine List.forall_mem_cons.mpr ⟨.print rfl ?_, List.forall_mem_cons.mpr ⟨.jump (.inl rfl), ?_⟩⟩
  · exact List.forall_mem_cons.mpr ⟨⟨by decide, fun c hc => nomatch hc⟩, List.forall_mem_nil _⟩
  · exact List.forall_mem_nil _

theorem flags_refine_outcomes_printOnce : ∃ o u,
    BigStep plainMemory printOnce (interpreterInit plainMemory ()) o u ∧
      u.out = [.int 1, .newline] := by
  have hrun : ∃ v t, (interpreterEval plainMemory 4 printOnce
      (interpreterInit plainMemory ())).result = .ok (v, t) ∧ t.hasError = false ∧
      t.out = [.int 1, .newline] := ⟨_, _, rfl, rfl, rfl⟩
  rcases hrun with ⟨v, t, hrun, ht, hout⟩
  have hconditions : (interpreterEval plainMemory 4 printOnce
      (interpreterInit plainMemory ())).All ConditionOk := by
    unfold Logged.All
    refine List.forall_mem_cons.mpr ⟨trivial, List.forall_mem_cons.mpr ⟨trivial, ?_⟩⟩
    refine List.forall_mem_cons.mpr ⟨trivial, List.forall_mem_cons.mpr ⟨⟨true, .bool _ _⟩, ?_⟩⟩
    -- the rest of the log says nothing of conditions
    repeat refine List.forall_mem_cons.mpr ⟨trivial, ?_⟩
    exact List.forall_mem_nil _
  rcases flags_refine_outcomes plainMemory 4 printOnce_statement ⟨rfl, rfl, rfl⟩ hrun ht
    hconditions with ⟨o, u, hstep, -, -, -, hu, -⟩
  exact ⟨o, u, hstep, hu.symm.trans hout⟩

end PolandOS.PolskiScript
