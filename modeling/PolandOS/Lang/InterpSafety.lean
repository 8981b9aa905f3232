import PolandOS.Lang.ParserShapes
import PolandOS.Lang.LexerRoundTrip
import PolandOS.Lang.Interp

/-! # Reads of children

`interpreter_eval` reads `children[i]` without a check. `accepted_trees_safe`: a
tree that the parser accepts is safe to evaluate exactly when the parse has left
out no child that is read.
-/

namespace PolandOS.PolskiScript

open Logging

variable {σ : Type} {m : Memory σ} {eval : Evaluator σ} {node : ASTNode}

/-- The run does not read behind the children of a node. -/
abbrev InBounds {α : Type} (x : Run σ α) : Prop := Logged.Avoids .outOfBounds x

theorem inBounds_valueFree (v : Value) (s : Interp σ) : InBounds (valueFree m v s) := by
  unfold valueFree
  split
  · refine Logged.avoids_ite (fun _ => Logged.avoids_pure _) fun _ => ?_
    refine Logged.avoids_bind (Logged.avoids_emit _) fun _ _ => ?_
    refine Logged.avoids_bind (Logged.avoids_ofOption ?_) fun _ _ => Logged.avoids_pure _
    intro h
    cases h
  · exact Logged.avoids_pure _

theorem inBounds_valuePrint (v : Value) (s : Interp σ) : InBounds (valuePrint m v s) := by
  unfold valuePrint
  split
  case h_5 => exact Logged.avoids_bind (Logged.avoids_emit _) fun _ _ => Logged.avoids_pure _
  all_goals exact Logged.avoids_pure _

theorem inBounds_envDefine (name : List Char) (v : Value) (s : Interp σ) :
    InBounds (envDefine m name v s) := by
  unfold envDefine
  refine Logged.avoids_ite (fun _ => ?_) fun _ => ?_
  · exact Logged.avoids_bind (Logged.avoids_emit _) fun _ _ => Logged.avoids_pure _
  refine Logged.avoids_bind (Logged.avoids_emit _) fun _ _ => ?_
  split
  · exact Logged.avoids_bind (inBounds_valueFree _ _) fun _ _ => Logged.avoids_pure _
  · exact Logged.avoids_pure _

theorem inBounds_envSet (name : List Char) (v : Value) (s : Interp σ) :
    InBounds (envSet m name v s) := by
  unfold envSet
  split
  · refine Logged.avoids_bind (Logged.avoids_emit _) fun _ _ => ?_
    exact Logged.avoids_bind (inBounds_valueFree _ _) fun _ _ => Logged.avoids_pure _
  · exact Logged.avoids_bind (Logged.avoids_emit _) fun _ _ => Logged.avoids_pure _

theorem inBounds_intArith (op : IntOp) (a b : Int64) :
    InBounds (intArith op a b : Run σ Int64) := by
  refine Logged.avoids_bind (Logged.avoids_emit _) fun _ _ => ?_
  exact Logged.avoids_ite (fun _ h => nomatch h) fun _ => Logged.avoids_pure _

theorem inBounds_binaryOp (op : List Char) (left right : Value) (s : Interp σ) :
    InBounds (binaryOp m op left right s) := by
  unfold binaryOp
  split
  · exact Logged.avoids_bind (inBounds_intArith _ _ _) fun _ _ => Logged.avoids_pure _
  · exact Logged.avoids_pure _
  · exact Logged.avoids_pure _
  · split
    · exact Logged.avoids_pure _
    · refine Logged.avoids_bind (inBounds_valueFree _ _) fun s₁ _ => ?_
      exact Logged.avoids_bind (inBounds_valueFree _ _) fun s₂ _ => Logged.avoids_pure _

theorem inBounds_unaryOp (op : List Char) (operand : Value) (s : Interp σ) :
    InBounds (unaryOp m op operand s) := by
  unfold unaryOp
  split
  · exact Logged.avoids_bind (inBounds_intArith _ _ _) fun _ _ => Logged.avoids_pure _
  · exact Logged.avoids_pure _
  · exact Logged.avoids_pure _
  · exact Logged.avoids_bind (inBounds_valueFree _ _) fun _ _ => Logged.avoids_pure _

/-! ## Shaped nodes -/

/-- The child is there. -/
theorem inBounds_childAt {i : Nat} (h : i < node.children.length) :
    InBounds (childAt node i : Run σ ASTNode) := by
  refine Logged.avoids_ofOption fun _ => ?_
  rw [List.getElem?_eq_getElem h]
  rfl

/-- A child that is read is one of the children. -/
theorem mem_of_childAt {i : Nat} {c : ASTNode}
    (h : (childAt node i : Run σ ASTNode).result = .ok c) : c ∈ node.children :=
  List.mem_of_getElem? (Logged.result_ofOption.mp h)

/-- The evaluator stays in bounds in the nodes `cs`. -/
def Safe (eval : Evaluator σ) (cs : List ASTNode) : Prop := ∀ c ∈ cs, ∀ s, InBounds (eval c s)

/-- Evaluate one child. -/
theorem inBounds_child {α : Type} {i : Nat} {f : ASTNode → Run σ α} (heval : Safe eval node.children)
    (hi : i < node.children.length)
    (hf : ∀ c, (∀ s, InBounds (eval c s)) → InBounds (f c)) :
    InBounds (childAt node i >>= f) :=
  Logged.avoids_bind (inBounds_childAt hi) fun c hc => hf c (heval c (mem_of_childAt hc))

theorem inBounds_evalCondition (heval : Safe eval node.children) (hlen : 0 < node.children.length)
    (s : Interp σ) : InBounds (evalCondition m eval node s) := by
  refine inBounds_child heval hlen fun c hc => ?_
  refine Logged.avoids_bind (hc s) fun r _ => ?_
  refine Logged.avoids_bind (Logged.avoids_emit _) fun _ _ => ?_
  exact Logged.avoids_bind (inBounds_valueFree _ _) fun _ _ => Logged.avoids_pure _

theorem inBounds_printArguments {cs : List ASTNode} (heval : Safe eval cs) (s : Interp σ) :
    InBounds (printArguments m eval cs s) := by
  induction cs generalizing s with
  | nil => exact Logged.avoids_pure _
  | cons c cs ih =>
      rcases List.forall_mem_cons.mp heval with ⟨hc, hcs⟩
      refine Logged.avoids_bind (hc s) fun r _ => ?_
      refine Logged.avoids_bind (inBounds_valuePrint _ _) fun s₁ _ => ?_
      exact Logged.avoids_bind (inBounds_valueFree _ _) fun s₂ _ => ih hcs s₂

theorem inBounds_runBlock {cs : List ASTNode} (heval : Safe eval cs) (s : Interp σ) :
    InBounds (runBlock eval cs s) := by
  induction cs generalizing s with
  | nil => exact Logged.avoids_pure _
  | cons c cs ih =>
      rcases List.forall_mem_cons.mp heval with ⟨hc, hcs⟩
      refine Logged.avoids_bind (hc s) fun r _ => ?_
      refine Logged.avoids_bind (Logged.avoids_emit _) fun _ _ => ?_
      exact Logged.avoids_ite (fun _ => Logged.avoids_pure _) fun _ => ih hcs _

theorem inBounds_runProgram {cs : List ASTNode} (heval : Safe eval cs) (s : Interp σ) :
    InBounds (runProgram eval cs s) := by
  induction cs generalizing s with
  | nil => exact Logged.avoids_pure _
  | cons c cs ih =>
      rcases List.forall_mem_cons.mp heval with ⟨hc, hcs⟩
      refine Logged.avoids_bind (hc s) fun r _ => ?_
      refine Logged.avoids_bind (Logged.avoids_emit _) fun _ _ => ?_
      exact Logged.avoids_ite (fun _ => Logged.avoids_pure _) fun _ => ih hcs _

theorem inBounds_runWhile (heval : Safe eval node.children) (hlen : node.children.length = 2)
    (fuel : Nat) (s : Interp σ) : InBounds (runWhile m eval node fuel s) := by
  induction fuel generalizing s with
  | zero => exact fun h => nomatch h
  | succ fuel ih =>
      rw [runWhile]
      refine Logged.avoids_bind (inBounds_evalCondition heval (by omega) s) fun r _ => ?_
      refine Logged.avoids_ite (fun _ => Logged.avoids_pure _) fun _ => ?_
      refine inBounds_child heval (by omega) fun body hbody => ?_
      refine Logged.avoids_bind (hbody _) fun r₁ _ => ?_
      refine Logged.avoids_bind (Logged.avoids_emit _) fun _ _ => ?_
      refine Logged.avoids_ite (fun _ => Logged.avoids_pure _) fun _ => ?_
      refine Logged.avoids_ite (fun _ => ih _) fun _ => ?_
      exact Logged.avoids_ite (fun _ => Logged.avoids_pure _) fun _ => ih _

theorem inBounds_thenNull {x : Run σ (Interp σ)} (h : InBounds x) : InBounds (thenNull m x) :=
  Logged.avoids_bind h fun _ _ => Logged.avoids_pure _

/-- The child of a declaration or a return is optional. -/
theorem inBounds_optionalChild {cs : List ASTNode} (heval : Safe eval cs) (s : Interp σ) :
    InBounds (match cs with
      | [] => (pure (valueCreateNull m s) : Run σ (Value × Interp σ))
      | c :: _ => eval c s) := by
  cases cs with
  | nil => exact Logged.avoids_pure _
  | cons c cs => exact heval c List.mem_cons_self s

/-- By the kind of the node: a node of the right shape has the children that are read. -/
theorem inBounds_evalNode (hshape : NodeShape node) (heval : Safe eval node.children) (fuel : Nat)
    (s : Interp σ) : InBounds (evalNode m eval fuel node s) := by
  unfold evalNode
  refine Logged.avoids_ite (fun _ => Logged.avoids_pure _) fun _ => ?_
  unfold NodeShape at hshape
  -- the shape says how many children a node of each type has
  cases htype : node.type <;> rw [htype] at hshape <;> dsimp only at hshape ⊢
  case literalString =>
    exact Logged.avoids_bind (Logged.avoids_emit _) fun _ _ => Logged.avoids_pure _
  case identifier =>
    unfold evalIdentifier
    split
    · exact Logged.avoids_pure _
    · exact Logged.avoids_bind (Logged.avoids_emit _) fun _ _ => Logged.avoids_pure _
  case varDecl =>
    refine Logged.avoids_bind (inBounds_optionalChild heval s) fun r _ => ?_
    exact Logged.avoids_bind (inBounds_envDefine _ _ _) fun _ _ => Logged.avoids_pure _
  case assign =>
    refine inBounds_child heval (by omega) fun c hc => Logged.avoids_bind (hc s) fun r _ => ?_
    exact Logged.avoids_bind (inBounds_envSet _ _ _) fun _ _ => Logged.avoids_pure _
  case binaryOp =>
    refine inBounds_child heval (by omega) fun l hl => Logged.avoids_bind (hl s) fun r₁ _ => ?_
    refine inBounds_child heval (by omega) fun r hr => Logged.avoids_bind (hr _) fun r₂ _ => ?_
    exact Logged.avoids_bind (Logged.avoids_emit _) fun _ _ => inBounds_binaryOp _ _ _ _
  case unaryOp =>
    refine inBounds_child heval (by omega) fun c hc => Logged.avoids_bind (hc s) fun r _ => ?_
    exact Logged.avoids_bind (Logged.avoids_emit _) fun _ _ => inBounds_unaryOp _ _ _
  case print =>
    exact Logged.avoids_bind (inBounds_printArguments heval s) fun _ _ => Logged.avoids_pure _
  case «if» =>
    rcases hshape with ⟨c, b, rest, hchildren, -⟩
    have hlen : 1 < node.children.length := by simp [hchildren]
    refine Logged.avoids_bind (inBounds_evalCondition heval (by omega) s) fun r _ => ?_
    refine Logged.avoids_ite (fun _ => ?_) fun _ => ?_
    · exact inBounds_child heval hlen fun b hb => hb _
    · split
      · exact heval _ (List.mem_of_getElem? ‹_›) _
      · exact Logged.avoids_pure _
  case «while» =>
    rcases hshape with ⟨c, b, hchildren, -⟩
    exact inBounds_thenNull (inBounds_runWhile heval (by simp [hchildren]) _ _)
  case «return» =>
    refine Logged.avoids_bind (inBounds_optionalChild heval s) fun r _ => ?_
    exact Logged.avoids_bind (Logged.avoids_emit _) fun _ _ => Logged.avoids_pure _
  case block => exact inBounds_thenNull (inBounds_runBlock heval _)
  case program => exact inBounds_thenNull (inBounds_runProgram heval _)
  all_goals exact Logged.avoids_pure _

/-- A shaped tree is evaluated in bounds. -/
theorem inBounds_interpreterEval {tree : ASTNode} (h : Shaped tree) (fuel : Nat) (s : Interp σ) :
    InBounds (interpreterEval m fuel tree s) := by
  induction fuel generalizing tree s with
  | zero => exact fun h => nomatch h
  | succ fuel ih =>
      rcases shaped_iff.mp h with ⟨hshape, hchildren⟩
      rw [interpreterEval]
      refine Logged.avoids_bind (Logged.avoids_emit _) fun _ _ => ?_
      refine Logged.avoids_bind (inBounds_evalNode hshape ?_ fuel s) fun r _ => ?_
      · exact fun c hc s => ih (hchildren c hc) s
      · exact Logged.avoids_bind (Logged.avoids_emit _) fun _ _ => Logged.avoids_pure _

/-- A tree that the parser accepts has the children that are read exactly when
`ast_node_add_child` has never been handed a `NULL` for one of them; and then no read
of its evaluation is out of bounds, whatever the environment. -/
theorem accepted_trees_safe {fuel : Nat} {source : Nat → Char} {tree : ASTNode} {p : Parser}
    (h : (parseSource fuel source).result = .ok (some tree, p)) :
    p.hasError = false ∧ (Shaped tree ↔ (parseSource fuel source).All NoSkip) ∧
      (Shaped tree → ∀ (σ : Type) (m : Memory σ) (n : Nat) (s : Interp σ),
        InBounds (interpreterEval m n tree s)) := by
  rcases parseSource_shaped h with ⟨herror, hshaped⟩
  exact ⟨herror, hshaped, fun htree _ _ n s => inBounds_interpreterEval htree n s⟩

theorem accepted_trees_safe_sum : ∃ tree p,
    (parseSource 25 (sourceOf "x=y+z;".toList)).result = .ok (some tree, p) ∧ Shaped tree := by
  refine ⟨_, _, rfl, ?_⟩
  refine (accepted_trees_safe
    (rfl : (parseSource 25 (sourceOf "x=y+z;".toList)).result = .ok (some _, _))).2.1.mpr ?_
  -- the two operands, the value and the statement are all there
  unfold Logged.All
  refine List.forall_mem_cons.mpr ⟨trivial, ?_⟩
  refine List.forall_mem_cons.mpr ⟨fun _ => rfl, List.forall_mem_cons.mpr ⟨fun _ => rfl, ?_⟩⟩
  refine List.forall_mem_cons.mpr ⟨fun _ => rfl, List.forall_mem_cons.mpr ⟨fun _ => rfl, ?_⟩⟩
  exact List.forall_mem_cons.mpr ⟨trivial, List.forall_mem_nil _⟩

/-- A source that is accepted although its operator has one operand only. -/
theorem accepted_missing_operand : ∃ tree p,
    (parseSource 30 (sourceOf "zmienna x = 1 + ;".toList)).result = .ok (some tree, p) ∧
      p.hasError = false ∧ ¬Shaped tree := by
  refine ⟨_, _, rfl, rfl, fun h => ?_⟩
  -- the declaration, and the sum in it
  have hdecl := (shaped_iff.mp h).2 _ (List.mem_singleton.mpr rfl)
  have hsum := (shaped_iff.mp hdecl).2 _ (List.mem_singleton.mpr rfl)
  have hlen : 1 = 2 := (shaped_iff.mp hsum).1
  exact absurd hlen (by decide)

end PolandOS.PolskiScript
