import PolandOS.Lang.Expressions
import PolandOS.Lang.Structured

/-! # Everything the outcomes allow is done

`flags_refine_outcomes` takes a run of the interpreter to a derivation of the structured
semantics. Here is the other direction: `outcomes_returned` says that every derivation
is a run of `interpreter_eval`, which ends with the flags of its outcome.
-/

namespace PolandOS.PolskiScript

open Logging

variable {σ : Type} {m : Memory σ} {s t u : Interp σ} {v : Value} {n : ASTNode} {fuel : Nat}

/-! ## What a step leaves alone -/

/-- The two states differ in their memories only. -/
def OnlyMemory (s t : Interp σ) : Prop := t = { s with mem := t.mem }

/-- The two states differ in their environments and memories only. -/
def OnlyFrames (s t : Interp σ) : Prop :=
  t = { s with env := t.env, parents := t.parents, mem := t.mem }

theorem OnlyMemory.refl (s : Interp σ) : OnlyMemory s s := rfl

theorem OnlyMemory.trans (h : OnlyMemory s t) (h' : OnlyMemory t u) : OnlyMemory s u := by
  unfold OnlyMemory at *
  rw [h', h]

theorem OnlyMemory.noFlags (h : OnlyMemory s t) (hs : NoFlags s) : NoFlags t := by
  rw [h]
  exact ⟨hs.breakFlag, hs.continueFlag, hs.returnFlag⟩

theorem OnlyMemory.noError (h : OnlyMemory s t) (hs : s.hasError = false) :
    t.hasError = false := by
  rw [h]
  exact hs

theorem OnlyMemory.frames (h : OnlyMemory s t) : OnlyFrames s t := by
  unfold OnlyFrames
  rw [h]

theorem OnlyFrames.noFlags (h : OnlyFrames s t) (hs : NoFlags s) : NoFlags t := by
  rw [h]
  exact ⟨hs.breakFlag, hs.continueFlag, hs.returnFlag⟩

theorem OnlyFrames.noError (h : OnlyFrames s t) (hs : s.hasError = false) :
    t.hasError = false := by
  rw [h]
  exact hs

theorem onlyMemory_done (s : Interp σ) : OnlyMemory s (done m s) := rfl

theorem onlyMemory_valueFree (v : Value) (s : Interp σ) :
    Logged.Ensures (valueFree m v s) (OnlyMemory s) := by
  unfold valueFree
  split
  · refine Logged.ensures_ite (fun _ => Logged.ensures_pure (.refl s)) fun _ => ?_
    refine Logged.ensures_skip fun _ => ?_
    refine Logged.ensures_skip fun mem => ?_
    exact Logged.ensures_pure rfl
  · exact Logged.ensures_pure (.refl s)

theorem onlyFrames_envDefine (name : List Char) (v : Value) (s : Interp σ) :
    Logged.Ensures (envDefine m name v s) (OnlyFrames s) := by
  unfold envDefine
  refine Logged.ensures_ite (fun _ => ?_) fun _ => ?_
  · exact Logged.ensures_skip fun _ => Logged.ensures_pure rfl
  refine Logged.ensures_skip fun _ => ?_
  split
  · refine Logged.ensures_bind (onlyMemory_valueFree _ s) fun t ht => ?_
    rw [ht]
    exact Logged.ensures_pure rfl
  · exact Logged.ensures_pure rfl

theorem onlyFrames_envSet (name : List Char) (v : Value) (s : Interp σ) :
    Logged.Ensures (envSet m name v s) fun r => OnlyFrames s r.2 := by
  unfold envSet
  split
  · refine Logged.ensures_skip fun _ => ?_
    refine Logged.ensures_bind (onlyMemory_valueFree _ s) fun t ht => ?_
    rw [ht]
    exact Logged.ensures_pure rfl
  · exact Logged.ensures_skip fun _ => Logged.ensures_pure rfl

/-! ## Expressions -/

/-- A result without an error differs from `s` in the memory only. -/
def Tranquil (s : Interp σ) (r : Value × Interp σ) : Prop := r.2.hasError = false → OnlyMemory s r.2

theorem tranquil_binaryOp (op : List Char) (left right : Value) (s : Interp σ) :
    Logged.Ensures (binaryOp m op left right s) (Tranquil s) := by
  unfold binaryOp
  split
  · exact Logged.ensures_skip fun _ => Logged.ensures_pure fun _ => .refl s
  · exact Logged.ensures_pure fun _ => .refl s
  · exact Logged.ensures_pure fun h => nomatch h
  · split
    · exact Logged.ensures_pure fun _ => rfl
    · refine Logged.ensures_bind (onlyMemory_valueFree _ s) fun s₁ h₁ => ?_
      refine Logged.ensures_bind (onlyMemory_valueFree _ s₁) fun s₂ h₂ => ?_
      exact Logged.ensures_pure fun _ => (h₁.trans h₂).trans rfl

theorem tranquil_unaryOp (op : List Char) (operand : Value) (s : Interp σ) :
    Logged.Ensures (unaryOp m op operand s) (Tranquil s) := by
  unfold unaryOp
  split
  · exact Logged.ensures_skip fun _ => Logged.ensures_pure fun _ => .refl s
  · exact Logged.ensures_pure fun _ => .refl s
  · exact Logged.ensures_pure fun _ => rfl
  · refine Logged.ensures_bind (onlyMemory_valueFree _ s) fun s₁ h₁ => ?_
    exact Logged.ensures_pure fun _ => h₁.trans rfl

/-- Expressions leave variables and flags alone, if their operands do. -/
theorem tranquil_evalNode {eval : Evaluator σ} (htype : IsExprType n.type)
    (htranquil : ∀ c ∈ n.children, ∀ s, Logged.Ensures (eval c s) (Tranquil s))
    (hsteady : SteadyIn eval n.children) :
    Logged.Ensures (evalNode m eval fuel n s) (Tranquil s) := by
  unfold evalNode
  refine Logged.ensures_ite (fun _ => Logged.ensures_pure fun _ => rfl) fun _ => ?_
  cases hnode : n.type <;> rw [hnode] at htype <;> first
    | exact absurd htype (by decide)
    | dsimp only
  case literalString =>
    exact Logged.ensures_skip fun _ => Logged.ensures_pure fun _ => rfl
  case identifier =>
    unfold evalIdentifier
    split
    · exact Logged.ensures_pure fun h => nomatch h
    · exact Logged.ensures_skip fun _ => Logged.ensures_pure fun _ => .refl s
  case binaryOp =>
    refine Logged.ensures_bind ensures_childAt fun l hl => ?_
    refine Logged.ensures_bind (htranquil l hl s) fun r₁ h₁ => ?_
    refine Logged.ensures_bind ensures_childAt fun r hr => ?_
    refine Logged.ensures_bind (fun a ha => And.intro (htranquil r hr _ a ha) (hsteady r hr _ a ha))
      fun r₂ h₂ => ?_
    refine Logged.ensures_skip fun _ => ?_
    intro a ha hnone
    -- an error of an operand would still be there
    have hnone₂ := (steady_binaryOp _ _ _ _ a ha).no_error hnone
    have hnone₁ := h₂.2.no_error hnone₂
    exact ((h₁ hnone₁).trans (h₂.1 hnone₂)).trans (tranquil_binaryOp _ _ _ _ a ha hnone)
  case unaryOp =>
    refine Logged.ensures_bind ensures_childAt fun c hc => ?_
    refine Logged.ensures_bind (htranquil c hc s) fun r₁ h₁ => ?_
    refine Logged.ensures_skip fun _ => ?_
    intro a ha hnone
    have hnone₁ := (steady_unaryOp _ _ _ a ha).no_error hnone
    exact (h₁ hnone₁).trans (tranquil_unaryOp _ _ _ a ha hnone)
  all_goals exact Logged.ensures_pure fun _ => rfl

/-- An expression that is evaluated without an error changes the memory at most. -/
theorem tranquil_expression {e : ASTNode} (h : ExprTree e) (fuel : Nat) (s : Interp σ) :
    Logged.Ensures (interpreterEval m fuel e s) (Tranquil s) := by
  induction fuel generalizing e s with
  | zero => exact Logged.ensures_stop _
  | succ fuel ih =>
      rcases h with ⟨htype, hchildren⟩
      rw [interpreterEval]
      refine Logged.ensures_skip fun _ => ?_
      refine Logged.ensures_bind (tranquil_evalNode htype (fun c hc s => ih (hchildren c hc) s)
        fun c hc s => steady_expression (hchildren c hc) fuel s) ?_
      intro r hr
      refine Logged.ensures_skip fun _ => ?_
      exact Logged.ensures_pure hr

theorem Evaluates.onlyMemory {e : ASTNode} (h : Evaluates m e s v t) (he : ExprTree e) :
    OnlyMemory s t := by
  rcases h with ⟨⟨fuel, hrun⟩, hnone⟩
  exact tranquil_expression he fuel s _ hrun hnone

theorem Condition.onlyMemory {c : ASTNode} {b : Bool} (h : Condition m c s b t)
    (hc : ExprTree c) : OnlyMemory s t := by
  rcases h with ⟨v, heval, -⟩
  exact heval.onlyMemory hc

/-! ## Nodes that return -/

/-- `interpreter_eval` returns from the node, with enough fuel. -/
def Evals (m : Memory σ) (n : ASTNode) (s : Interp σ) (v : Value) (t : Interp σ) : Prop :=
  ∃ fuel, (interpreterEval m fuel n s).result = .ok (v, t)

theorem Evals.of_le {N : Nat} (h : (interpreterEval m N n s).result = .ok (v, t))
    (hle : N ≤ fuel) : (interpreterEval m fuel n s).result = .ok (v, t) :=
  interpreterEval_mono hle n s _ h

/-- What is in the branch of the node, the node returns. -/
theorem returns_of_node (fuel : Nat)
    (h : (evalNode m (interpreterEval m fuel) fuel n s).result = .ok (v, t)) :
    Evals m n s v t := ⟨fuel + 1, (result_interpreterEval fuel).trans h⟩

/-- A node that returns does so from its branch. -/
theorem Evals.node (h : Evals m n s v t) :
    ∃ fuel, (evalNode m (interpreterEval m fuel) fuel n s).result = .ok (v, t) := by
  rcases h with ⟨_ | fuel, h⟩
  · cases h
  · exact ⟨fuel, (result_interpreterEval fuel).symm.trans h⟩

theorem evalNode_of_type {eval : Evaluator σ} (hs : s.hasError = false) :
    (n.type = .while → evalNode m eval fuel n s = thenNull m (runWhile m eval n fuel s)) ∧
      (n.type = .block → evalNode m eval fuel n s = thenNull m (runBlock eval n.children s)) ∧
      (n.type = .if → evalNode m eval fuel n s = evalIf m eval n s) := by
  have hgo : ¬s.hasError = true := by simp [hs]
  refine ⟨fun hn => ?_, fun hn => ?_, fun hn => ?_⟩
  all_goals rw [evalNode, if_neg hgo, hn]

theorem result_thenNull {x : Run σ (Interp σ)} (h : x.result = .ok t) :
    (thenNull m x).result = .ok (valueCreateNull m t) := by
  rw [thenNull, Logged.result_bind_of_ok h]
  rfl

theorem thenNull_result {x : Run σ (Interp σ)} (h : (thenNull m x).result = .ok (v, t)) :
    ∃ u, x.result = .ok u ∧ (v, t) = valueCreateNull m u := by
  rcases Logged.result_bind.mp h with ⟨u, hx, hu⟩
  cases hu
  exact ⟨u, hx, rfl⟩

theorem result_childAt {c : ASTNode} {i : Nat} (h : n.children[i]? = some c) :
    (childAt n i : Run σ ASTNode).result = .ok c := by
  rw [childAt, h]
  rfl

theorem result_evalCondition {eval : Evaluator σ} {c : ASTNode} {rest : List ASTNode} {b : Bool}
    (hchildren : n.children = c :: rest) (heval : (eval c s).result = .ok (v, t))
    (htruth : Truth v b) : (evalCondition m eval n s).result = .ok (b, t) := by
  have hchild : n.children[0]? = some c := by rw [hchildren]; rfl
  rw [evalCondition, Logged.result_bind_of_ok (result_childAt hchild),
    Logged.result_bind_of_ok heval, Logged.result_bind_of_ok rfl, htruth.valueFree,
    Logged.result_bind_of_ok rfl, htruth.isTrue]
  rfl

/-! ## Loops -/

/-- The loop of `AST_WHILE` ends in `t`. -/
def Loops (m : Memory σ) (n : ASTNode) (s t : Interp σ) : Prop :=
  ∃ fuel, (runWhile m (interpreterEval m fuel) n fuel s).result = .ok t

theorem Loops.returns (h : Loops m n s t) (hn : n.type = .while) (hs : s.hasError = false) :
    ∃ v, Evals m n s v (done m t) := by
  rcases h with ⟨fuel, h⟩
  refine ⟨(valueCreateNull m t).1, returns_of_node fuel ?_⟩
  rw [(evalNode_of_type hs).1 hn]
  exact result_thenNull h

theorem Evals.loops (h : Evals m n s v t) (hn : n.type = .while)
    (hs : s.hasError = false) : ∃ u, Loops m n s u ∧ t = done m u := by
  rcases h.node with ⟨fuel, h⟩
  rw [(evalNode_of_type hs).1 hn] at h
  rcases thenNull_result h with ⟨u, hloop, hu⟩
  exact ⟨u, ⟨fuel, hloop⟩, congrArg Prod.snd hu⟩

section Loop

variable {c b : ASTNode} (hchildren : n.children = [c, b])
include hchildren

theorem loops_false (hcond : Condition m c s false t) : Loops m n s t := by
  rcases hcond with ⟨v, ⟨⟨fuel, hrun⟩, -⟩, htruth⟩
  refine ⟨fuel + 1, ?_⟩
  have hcond := result_evalCondition (m := m) hchildren (Evals.of_le hrun (Nat.le_succ fuel)) htruth
  rw [runWhile_succ, Logged.result_bind_of_ok hcond]
  rfl

/-- A round of the loop, up to what it does with the flags. -/
theorem loops_round (hcond : Condition m c s true t) (hbody : Evals m b t v u)
    {w : Interp σ} (hafter : ∃ N, (afterBody m N n N u).result = .ok w) :
    Loops m n s w := by
  rcases hcond with ⟨v₁, ⟨⟨N₁, hrun⟩, -⟩, htruth⟩
  rcases hbody with ⟨N₂, hbody⟩
  rcases hafter with ⟨N₃, hafter⟩
  -- one fuel for the condition, the body and the rounds behind it
  have hle₁ : N₁ ≤ N₁ + N₂ + N₃ + 1 := by omega
  have hle₂ : N₂ ≤ N₁ + N₂ + N₃ + 1 := by omega
  have hle₃ : N₃ ≤ N₁ + N₂ + N₃ + 1 := by omega
  refine ⟨N₁ + N₂ + N₃ + 1, ?_⟩
  have hchild : n.children[1]? = some b := by rw [hchildren]; rfl
  rw [runWhile_succ, Logged.result_bind_of_ok
    (result_evalCondition (m := m) hchildren (Evals.of_le hrun hle₁) htruth)]
  change (childAt n 1 >>= _ : Run σ _).result = _
  rw [Logged.result_bind_of_ok (result_childAt hchild),
    Logged.result_bind_of_ok (Evals.of_le hbody hle₂), Logged.result_bind_of_ok rfl]
  unfold afterBody at hafter ⊢
  have hextends : ∀ s₁, Logged.Extends (runWhile m (interpreterEval m N₃) n N₃ s₁)
      (runWhile m (interpreterEval m (N₁ + N₂ + N₃ + 1)) n (N₁ + N₂ + N₃) s₁) := fun s₁ =>
    extends_runWhile (interpreterEval_mono hle₃) (by omega) s₁
  refine Logged.extends_ite (Logged.extends_refl _) ?_ w hafter
  exact Logged.extends_ite (hextends _) (Logged.extends_ite (Logged.extends_refl _) (hextends _))

end Loop

/-! ## Blocks -/

/-- The loop of `AST_BLOCK` ends in `t`. -/
def Passes (m : Memory σ) (cs : List ASTNode) (s t : Interp σ) : Prop :=
  ∃ fuel, (runBlock (interpreterEval m fuel) cs s).result = .ok t

theorem Passes.returns (h : Passes m n.children s t) (hn : n.type = .block)
    (hs : s.hasError = false) : ∃ v, Evals m n s v (done m t) := by
  rcases h with ⟨fuel, h⟩
  refine ⟨(valueCreateNull m t).1, returns_of_node fuel ?_⟩
  rw [(evalNode_of_type hs).2.1 hn]
  exact result_thenNull h

theorem Evals.passes (h : Evals m n s v t) (hn : n.type = .block)
    (hs : s.hasError = false) : ∃ u, Passes m n.children s u ∧ t = done m u := by
  rcases h.node with ⟨fuel, h⟩
  rw [(evalNode_of_type hs).2.1 hn] at h
  rcases thenNull_result h with ⟨u, hpass, hu⟩
  exact ⟨u, ⟨fuel, hpass⟩, congrArg Prod.snd hu⟩

theorem result_runBlock {eval : Evaluator σ} {c : ASTNode} {cs : List ASTNode}
    (h : (eval c s).result = .ok (v, t)) :
    (runBlock eval (c :: cs) s).result =
      if t.returnFlag || t.breakFlag || t.continueFlag then .ok t
      else (runBlock eval cs t).result := by
  rw [runBlock, Logged.result_bind_of_ok h, Logged.result_bind_of_ok rfl]
  split
  · rfl
  · rfl

theorem passes_stop {c : ASTNode} {cs : List ASTNode} (h : Evals m c s v t)
    (hflag : (t.returnFlag || t.breakFlag || t.continueFlag) = true) :
    Passes m (c :: cs) s t := by
  rcases h with ⟨fuel, h⟩
  exact ⟨fuel, (result_runBlock h).trans (if_pos hflag)⟩

theorem passes_next {c : ASTNode} {cs : List ASTNode} (h : Evals m c s v t) (ht : NoFlags t)
    (hrest : Passes m cs t u) : Passes m (c :: cs) s u := by
  rcases h with ⟨N₁, h⟩
  rcases hrest with ⟨N₂, hrest⟩
  refine ⟨N₁ + N₂, ?_⟩
  have hflag : ¬(t.returnFlag || t.breakFlag || t.continueFlag) = true := by
    simp [ht.returnFlag, ht.breakFlag, ht.continueFlag]
  rw [result_runBlock (Evals.of_le h (Nat.le_add_right N₁ N₂)), if_neg hflag]
  exact extends_runBlock (interpreterEval_mono (Nat.le_add_left N₂ N₁)) cs t u hrest

/-! ## The simple statements -/

/-- The derivation is a run: the node returns, with the flags of the outcome. -/
structure Completes (m : Memory σ) (n : ASTNode) (s : Interp σ) (o : Outcome)
    (t : Interp σ) : Prop where
  returns : ∃ v, Evals m n s v (t.withOutcome o)
  noFlags : NoFlags t
  noError : t.hasError = false

theorem Completes.of_normal (h : Evals m n s v t) (hflags : NoFlags t)
    (hnone : t.hasError = false) : Completes m n s .normal t := by
  refine ⟨⟨v, ?_⟩, hflags, hnone⟩
  rw [hflags.withOutcome_normal]
  exact h

/-- The optional value of a declaration or a return. -/
theorem result_optional {cs : List ASTNode} (hvalue : OptionalValue m cs s v t)
    (hcs : ∀ c ∈ cs, ExprTree c) :
    (∃ fuel, (match cs with
      | [] => (pure (valueCreateNull m s) : Run σ (Value × Interp σ))
      | c :: _ => interpreterEval m fuel c s).result = .ok (v, t)) ∧ OnlyMemory s t := by
  cases cs with
  | nil =>
      have heq : (v, t) = valueCreateNull m s := hvalue
      refine ⟨⟨0, ?_⟩, ?_⟩
      · rw [heq]
        rfl
      · cases heq
        rfl
  | cons c cs => exact ⟨hvalue.1, hvalue.onlyMemory (hcs c List.mem_cons_self)⟩

theorem done_varDecl {o : Outcome} (hn : n.type = .varDecl) (hcs : ∀ c ∈ n.children, ExprTree c)
    (hs : NoFlags s) (herr : s.hasError = false) (h : Simple m n s o t) : Completes m n s o t := by
  unfold Simple at h
  rw [hn] at h
  rcases h with ⟨rfl, v, s₁, s₂, hvalue, hdefine, rfl⟩
  rcases result_optional hvalue hcs with ⟨⟨fuel, hrun⟩, hmem⟩
  have hframes := onlyFrames_envDefine _ _ _ s₂ hdefine
  refine .of_normal (returns_of_node (v := (valueCreateNull m s₂).1) fuel ?_)
    ((onlyMemory_done s₂).noFlags (hframes.noFlags (hmem.noFlags hs)))
    (hframes.noError (hmem.noError herr))
  rw [evalNode, if_neg (by simp [herr]), hn]
  dsimp only
  refine (Logged.result_bind_of_ok hrun).trans ?_
  exact Logged.result_bind_of_ok hdefine

theorem done_return {o : Outcome} (hn : n.type = .return) (hcs : ∀ c ∈ n.children, ExprTree c)
    (hs : NoFlags s) (herr : s.hasError = false) (h : Simple m n s o t) : Completes m n s o t := by
  unfold Simple at h
  rw [hn] at h
  rcases h with ⟨rfl, v, s₁, hvalue, rfl⟩
  rcases result_optional hvalue hcs with ⟨⟨fuel, hrun⟩, hmem⟩
  have hflags := hmem.noFlags hs
  refine ⟨⟨(valueCreateNull m s₁).1, returns_of_node fuel ?_⟩,
    ⟨hflags.breakFlag, hflags.continueFlag, hflags.returnFlag⟩, hmem.noError herr⟩
  rw [evalNode, if_neg (by simp [herr]), hn]
  dsimp only
  refine (Logged.result_bind_of_ok hrun).trans ?_
  refine (Logged.result_bind_of_ok rfl).trans ?_
  simp [done, valueCreateNull, Interp.withOutcome, hflags.breakFlag, hflags.continueFlag]

/-- An assignment that the meaning allows is executed without an error. -/
theorem done_assign {o : Outcome} {c : ASTNode} (hn : n.type = .assign)
    (hchildren : n.children = [c]) (hc : ExprTree c) (hs : NoFlags s) (herr : s.hasError = false)
    (h : Simple m n s o t) : Completes m n s o t := by
  unfold Simple at h
  rw [hn] at h
  rcases h with ⟨rfl, c', v, s₁, hchildren', heval, hset⟩
  have heq : c' = c := by
    rw [hchildren] at hchildren'
    cases hchildren'
    rfl
  subst heq
  have hmem := heval.onlyMemory hc
  have hframes := onlyFrames_envSet _ _ _ _ hset
  rcases heval.1 with ⟨fuel, hrun⟩
  refine .of_normal (returns_of_node (v := v) fuel ?_) (hframes.noFlags (hmem.noFlags hs))
    (hframes.noError (hmem.noError herr))
  have hchild : n.children[0]? = some c' := by rw [hchildren]; rfl
  rw [evalNode, if_neg (by simp [herr]), hn]
  dsimp only
  rw [evalAssign, Logged.result_bind_of_ok (result_childAt hchild), Logged.result_bind_of_ok hrun,
    Logged.result_bind_of_ok hset]
  rfl

/-- What printing changes, and that it is a run. -/
theorem Prints.result {cs : List ASTNode} (h : Prints m cs s t) (hcs : ∀ c ∈ cs, ExprTree c) :
    (∃ fuel, (printArguments m (interpreterEval m fuel) cs s).result = .ok t) ∧
      t = { s with out := t.out, mem := t.mem } := by
  induction h with
  | nil => exact ⟨⟨0, rfl⟩, rfl⟩
  | @cons c cs v s s₁ s₂ s₃ t heval hprint hfree _ ih =>
      rcases List.forall_mem_cons.mp hcs with ⟨hc, hcs⟩
      rcases ih hcs with ⟨⟨N₂, hrest⟩, hsame⟩
      rcases heval.1 with ⟨N₁, hrun⟩
      have hmem := heval.onlyMemory hc
      have hprinted : s₂ = { s₁ with out := s₂.out } := by
        unfold valuePrint at hprint
        split at hprint
        all_goals
          cases hprint
          rfl
      have hfreed := onlyMemory_valueFree _ _ _ hfree
      constructor
      · refine ⟨N₁ + N₂, ?_⟩
        rw [printArguments, Logged.result_bind_of_ok (Evals.of_le hrun (Nat.le_add_right N₁ N₂)),
          Logged.result_bind_of_ok hprint, Logged.result_bind_of_ok hfree]
        exact extends_printArguments (interpreterEval_mono (Nat.le_add_left N₂ N₁)) cs s₃ t hrest
      · rw [hsame, hfreed, hprinted, hmem]
        split
        · rfl
        · rfl

theorem done_print {o : Outcome} (hn : n.type = .print) (hcs : ∀ c ∈ n.children, ExprTree c)
    (hs : NoFlags s) (herr : s.hasError = false) (h : Simple m n s o t) : Completes m n s o t := by
  unfold Simple at h
  rw [hn] at h
  rcases h with ⟨rfl, s₁, hprints, rfl⟩
  rcases hprints.result hcs with ⟨⟨fuel, hrun⟩, hsame⟩
  refine .of_normal (returns_of_node (v := (valueCreateNull m (s₁.print .newline)).1) fuel ?_)
    ?_ ?_
  · rw [evalNode, if_neg (by simp [herr]), hn]
    dsimp only
    rw [evalPrint, Logged.result_bind_of_ok hrun]
    rfl
  · rw [hsame]
    exact ⟨hs.breakFlag, hs.continueFlag, hs.returnFlag⟩
  · rw [hsame]
    exact herr

theorem done_jump {o : Outcome} (hn : n.type = .break ∨ n.type = .continue) (hs : NoFlags s)
    (herr : s.hasError = false) (h : Simple m n s o t) : Completes m n s o t := by
  unfold Simple at h
  rcases hn with hn | hn
  all_goals
    rw [hn] at h
    rcases h with ⟨rfl, rfl⟩
    refine ⟨⟨(valueCreateNull m s).1, returns_of_node 0 ?_⟩,
      ⟨hs.breakFlag, hs.continueFlag, hs.returnFlag⟩, herr⟩
    rw [evalNode, if_neg (by simp [herr]), hn]
    simp [done, valueCreateNull, Interp.withOutcome, hs.breakFlag, hs.continueFlag, hs.returnFlag]

theorem done_simple {l : Bool} {o : Outcome} (hn : StmtTree l n) (hs : NoFlags s)
    (herr : s.hasError = false) (h : Simple m n s o t) : Completes m n s o t := by
  cases hn with
  | optional htype _ hcs =>
      rcases htype with htype | htype
      · exact done_varDecl htype hcs hs herr h
      · exact done_return htype hcs hs herr h
  | assign htype hchildren hc => exact done_assign htype hchildren hc hs herr h
  | print htype hcs => exact done_print htype hcs hs herr h
  | jump htype => exact done_jump htype hs herr h
  | ifThen htype | ifElse htype | «while» htype | block htype =>
      -- these statements are not simple
      unfold Simple at h
      rw [htype] at h
      exact h.elim

/-! ## The derivations -/

theorem StmtTree.while_parts {l : Bool} {c b : ASTNode} (h : StmtTree l n) (hn : n.type = .while)
    (hchildren : n.children = [c, b]) : ExprTree c ∧ StmtTree true b := by
  cases h with
  | «while» htype hcs hc hb =>
      rw [hchildren] at hcs
      cases hcs
      exact ⟨hc, hb⟩
  | optional htype | jump htype => rcases htype with htype | htype <;> cases hn.symm.trans htype
  | assign htype | print htype | ifThen htype | ifElse htype | block htype =>
      cases hn.symm.trans htype

theorem StmtTree.block_parts {l : Bool} (h : StmtTree l n) (hn : n.type = .block) :
    ∀ c ∈ n.children, StmtTree l c := by
  cases h with
  | block _ hcs => exact hcs
  | optional htype | jump htype => rcases htype with htype | htype <;> cases hn.symm.trans htype
  | assign htype | print htype | ifThen htype | ifElse htype | «while» htype =>
      cases hn.symm.trans htype

theorem StmtTree.if_parts {l : Bool} {c a : ASTNode} {rest : List ASTNode} (h : StmtTree l n)
    (hn : n.type = .if) (hchildren : n.children = c :: a :: rest) :
    ExprTree c ∧ StmtTree l a ∧ ∀ b ∈ rest, StmtTree l b := by
  cases h with
  | ifThen htype hcs hc ha =>
      rw [hchildren] at hcs
      cases hcs
      exact ⟨hc, ha, List.forall_mem_nil _⟩
  | ifElse htype hcs hc ha hb =>
      rw [hchildren] at hcs
      cases hcs
      exact ⟨hc, ha, List.forall_mem_singleton.mpr hb⟩
  | optional htype | jump htype => rcases htype with htype | htype <;> cases hn.symm.trans htype
  | assign htype | print htype | «while» htype | block htype => cases hn.symm.trans htype

/-- The condition and what is behind it. -/
theorem result_evalIf {c a : ASTNode} {rest : List ASTNode} {b : Bool}
    (hchildren : n.children = c :: a :: rest) (hcond : Condition m c s b t) :
    ∃ N, ∀ fuel ≥ N, (evalIf m (interpreterEval m fuel) n s).result =
      if b then (interpreterEval m fuel a t).result
      else match rest.head? with
        | some e => (interpreterEval m fuel e t).result
        | none => .ok (valueCreateNull m t) := by
  rcases hcond with ⟨v, ⟨⟨N, hrun⟩, -⟩, htruth⟩
  refine ⟨N, fun fuel hfuel => ?_⟩
  have hcond := result_evalCondition (m := m) hchildren (Evals.of_le hrun hfuel) htruth
  rw [evalIf, Logged.result_bind_of_ok hcond]
  cases b with
  | true =>
      have hchild : n.children[1]? = some a := by rw [hchildren]; rfl
      exact Logged.result_bind_of_ok (result_childAt hchild)
  | false =>
      dsimp only
      rw [hchildren]
      cases rest with
      | nil => rfl
      | cons e rest => rfl

/-- What a taken branch returns, the whole statement returns. -/
theorem done_branch {c a e : ASTNode} {rest : List ASTNode} {b : Bool} {o : Outcome}
    (hn : n.type = .if) (hchildren : n.children = c :: a :: rest) (herr : s.hasError = false)
    (hcond : Condition m c s b t) (htaken : if b then e = a else rest.head? = some e)
    (h : Completes m e t o u) : Completes m n s o u := by
  rcases h with ⟨⟨v, N₂, hrun⟩, hflags, hnone⟩
  rcases result_evalIf hchildren hcond with ⟨N₁, hif⟩
  refine ⟨⟨v, returns_of_node (N₁ + N₂) ?_⟩, hflags, hnone⟩
  have hrun := Evals.of_le hrun (Nat.le_add_left N₂ N₁)
  rw [(evalNode_of_type herr).2.2 hn, hif _ (Nat.le_add_right N₁ N₂)]
  cases b with
  | true =>
      have heq : e = a := htaken
      subst heq
      exact hrun
  | false =>
      have hhead : rest.head? = some e := htaken
      rw [hhead]
      exact hrun

theorem done_ifNone {c a : ASTNode} (hn : n.type = .if) (hchildren : n.children = [c, a])
    (hs : NoFlags s) (herr : s.hasError = false) (hcond : Condition m c s false t)
    (hc : ExprTree c) : Completes m n s .normal (done m t) := by
  have hmem := hcond.onlyMemory hc
  rcases result_evalIf hchildren hcond with ⟨N, hif⟩
  refine .of_normal (returns_of_node (v := (valueCreateNull m t).1) N ?_)
    ((onlyMemory_done t).noFlags (hmem.noFlags hs)) (hmem.noError herr)
  rw [(evalNode_of_type herr).2.2 hn, hif N le_rfl]
  rfl

/-- What a loop that ends leaves behind. -/
theorem done_loop {o : Outcome} (hn : n.type = .while) (herr : s.hasError = false)
    (h : Loops m n s (t.withOutcome o)) (hflags : NoFlags t) (hnone : t.hasError = false) :
    Completes m n s o (done m t) := by
  rcases h.returns hn herr with ⟨v, hreturns⟩
  exact ⟨⟨v, hreturns⟩, (onlyMemory_done t).noFlags hflags, hnone⟩

/-- A round of a loop whose body ends normally or with a continue. -/
theorem done_next {c b : ASTNode} {o o' : Outcome} {w : Interp σ} (hn : n.type = .while)
    (hchildren : n.children = [c, b]) (herr : s.hasError = false)
    (hcond : Condition m c s true t) (ho : o' = .normal ∨ o' = .continue)
    (hbody : Completes m b t o' u) (hrest : Completes m n u o w) : Completes m n s o w := by
  rcases hbody with ⟨⟨v, hbody⟩, hflags, hnone⟩
  rcases hrest with ⟨⟨v', hrest⟩, hflags', hnone'⟩
  rcases hrest.loops hn hnone with ⟨w', hloop, hw⟩
  -- the flag of the body is cleared, and the loop goes on from `u`
  have hafter : ∃ N, (afterBody m N n N (u.withOutcome o')).result = .ok w' := by
    rcases hloop with ⟨N, hloop⟩
    refine ⟨N, ?_⟩
    rcases ho with rfl | rfl
    · rw [hflags.withOutcome_normal, afterBody, hflags.breakFlag, hflags.continueFlag,
        hflags.returnFlag]
      exact hloop
    · have hcleared : { u.withOutcome .continue with continueFlag := false } = u :=
        hflags.withOutcome_normal
      change (runWhile m (interpreterEval m N) n N
        { u.withOutcome .continue with continueFlag := false }).result = _
      rw [hcleared]
      exact hloop
  rcases (loops_round hchildren hcond hbody hafter).returns hn herr with ⟨v, hreturns⟩
  refine ⟨⟨v, ?_⟩, hflags', hnone'⟩
  rw [hw]
  exact hreturns

/-- Every derivation is a run, by induction on the derivation. -/
theorem done_of_bigStep {l : Bool} {o : Outcome} (h : BigStep m n s o t) (hn : StmtTree l n)
    (hs : NoFlags s) (herr : s.hasError = false) : Completes m n s o t := by
  -- induction on the meaning; each step ends without flags and without an error
  induction h generalizing l with
  | simple h => exact done_simple hn hs herr h
  | @ifTrue n c a rest s s₁ t o htype hchildren hcond _ ih =>
      rcases hn.if_parts htype hchildren with ⟨hc, ha, -⟩
      have hmem := hcond.onlyMemory hc
      exact done_branch htype hchildren herr hcond rfl
        (ih ha (hmem.noFlags hs) (hmem.noError herr))
  | @ifFalse n c a b rest s s₁ t o htype hchildren hcond _ ih =>
      rcases hn.if_parts htype hchildren with ⟨hc, -, hb⟩
      have hmem := hcond.onlyMemory hc
      exact done_branch htype hchildren herr hcond rfl
        (ih (hb b List.mem_cons_self) (hmem.noFlags hs) (hmem.noError herr))
  | ifNone htype hchildren hcond =>
      exact done_ifNone htype hchildren hs herr hcond (hn.if_parts htype hchildren).1
  | whileFalse htype hchildren hcond =>
      have hmem := hcond.onlyMemory (hn.while_parts htype hchildren).1
      have hflags := hmem.noFlags hs
      refine done_loop htype herr ?_ hflags (hmem.noError herr)
      rw [hflags.withOutcome_normal]
      exact loops_false hchildren hcond
  | whileBreak htype hchildren hcond _ ih =>
      rcases hn.while_parts htype hchildren with ⟨hc, hb⟩
      have hmem := hcond.onlyMemory hc
      rcases ih hb (hmem.noFlags hs) (hmem.noError herr) with ⟨⟨v, hbody⟩, hflags, hnone⟩
      exact done_loop htype herr (loops_round hchildren hcond hbody ⟨0, rfl⟩) hflags hnone
  | whileReturn htype hchildren hcond _ ih =>
      rcases hn.while_parts htype hchildren with ⟨hc, hb⟩
      have hmem := hcond.onlyMemory hc
      rcases ih hb (hmem.noFlags hs) (hmem.noError herr) with ⟨⟨v, hbody⟩, hflags, hnone⟩
      exact done_loop htype herr (loops_round hchildren hcond hbody ⟨0, rfl⟩) hflags hnone
  | whileNext htype hchildren hcond _ ho _ ih ih' =>
      rcases hn.while_parts htype hchildren with ⟨hc, hb⟩
      have hmem := hcond.onlyMemory hc
      have hbody := ih hb (hmem.noFlags hs) (hmem.noError herr)
      exact done_next htype hchildren herr hcond ho hbody (ih' hn hbody.noFlags hbody.noError)
  | @blockNil n s htype hchildren =>
      have hpass : Passes m n.children s s := by
        rw [hchildren]
        exact ⟨0, rfl⟩
      rcases hpass.returns htype herr with ⟨v, hreturns⟩
      exact .of_normal hreturns ((onlyMemory_done s).noFlags hs) herr
  | @blockStop n c cs s t o htype hchildren _ ho ih =>
      have hc := hn.block_parts htype c (hchildren ▸ List.mem_cons_self)
      rcases ih hc hs herr with ⟨⟨v, hstmt⟩, hflags, hnone⟩
      -- the jump ends the loop over the statements with its flag set
      have hpass : Passes m n.children s (t.withOutcome o) := by
        rw [hchildren]
        refine passes_stop hstmt ?_
        cases o <;> first | exact absurd rfl ho | rfl
      rcases hpass.returns htype herr with ⟨v', hreturns⟩
      exact ⟨⟨v', hreturns⟩, (onlyMemory_done t).noFlags hflags, hnone⟩
  | @blockNext n c cs s s₁ t o htype hchildren _ _ ih ih' =>
      have hcs := hn.block_parts htype
      rw [hchildren] at hcs
      rcases List.forall_mem_cons.mp hcs with ⟨hc, hcs⟩
      rcases ih hc hs herr with ⟨⟨v, hstmt⟩, hflags, hnone⟩
      rw [hflags.withOutcome_normal] at hstmt
      -- the other statements, as a block of their own
      rcases ih' (.block htype hcs) hflags hnone with ⟨⟨v', hrest⟩, hflags', hnone'⟩
      rcases hrest.passes htype hnone with ⟨u, hpass, hu⟩
      have hwhole : Passes m n.children s u := by
        rw [hchildren]
        exact passes_next hstmt hflags hpass
      rcases hwhole.returns htype herr with ⟨v'', hreturns⟩
      refine ⟨⟨v'', ?_⟩, hflags', hnone'⟩
      rw [hu]
      exact hreturns

/-- Every derivation of the structured semantics is a run of the interpreter: with enough
fuel the statement returns, without an error and with the flags of the outcome. -/
theorem outcomes_returned (m : Memory σ) {l : Bool} {n : ASTNode} {s t : Interp σ} {o : Outcome}
    (hn : StmtTree l n) (hs : NoFlags s) (herr : s.hasError = false)
    (hstep : BigStep m n s o t) :
    t.hasError = false ∧ ∃ v N, ∀ fuel ≥ N,
      (interpreterEval m fuel n s).result = .ok (v, t.withOutcome o) := by
  rcases done_of_bigStep hstep hn hs herr with ⟨⟨v, N, hreturns⟩, -, hnone⟩
  exact ⟨hnone, v, N, fun fuel hfuel => Evals.of_le hreturns hfuel⟩

/-- `dopoki (prawda) { przerwij; }` -/
def breakOnce : ASTNode :=
  { astNodeCreate .while with children :=
    [{ astNodeCreate .literalBool with boolValue := true },
      { astNodeCreate .block with children := [astNodeCreate .break] }] }

theorem outcomes_returned_breakOnce : ∃ v N, ∀ fuel ≥ N,
    (interpreterEval plainMemory fuel breakOnce (interpreterInit plainMemory ())).result =
      .ok (v, interpreterInit plainMemory ()) := by
  have hcondition : ExprTree { astNodeCreate .literalBool with boolValue := true } :=
    ⟨by decide, List.forall_mem_nil _⟩
  have hbody : StmtTree true { astNodeCreate .block with children := [astNodeCreate .break] } :=
    .block rfl (List.forall_mem_singleton.mpr (.jump (.inl rfl)))
  have htree : StmtTree false breakOnce := .while rfl rfl hcondition hbody
  have hstep : BigStep plainMemory breakOnce (interpreterInit plainMemory ()) .normal
      (interpreterInit plainMemory ()) := by
    have hcond : Condition plainMemory { astNodeCreate .literalBool with boolValue := true }
        (interpreterInit plainMemory ()) true (interpreterInit plainMemory ()) :=
      ⟨.bool true _, ⟨⟨1, rfl⟩, rfl⟩, .bool true _⟩
    refine .whileBreak (t := interpreterInit plainMemory ()) rfl rfl hcond ?_
    refine .blockStop (t := interpreterInit plainMemory ()) rfl rfl (.simple ?_) (by decide)
    exact ⟨rfl, rfl⟩
  exact (outcomes_returned plainMemory htree ⟨rfl, rfl, rfl⟩ rfl hstep).2

end PolandOS.PolskiScript
