import PolandOS.Lib.Traces
import PolandOS.Lang.Structured

/-! # Control state between statements and scripts

The flags and the error of an interpreter outlive the statement and the script that set
them: neither `AST_PROGRAM` nor `interpreter_execute` clears them. `control_contained`:
in a run that returns nowhere, breaks and continues only in loops and raises no error,
every top-level statement and every script begins with a clear control state.
-/

namespace PolandOS.PolskiScript

open Logging

variable {σ : Type} (m : Memory σ)

/-- Scripts, run one after another on one interpreter. -/
def executeAll (fuel : Nat) : List (Nat → Char) → Interp σ → Run σ (Interp σ)
  | [], s => return s
  | source :: rest, s => do
    let s ← interpreterExecute m fuel source s
    executeAll fuel rest s

variable {m}

/-- The nodes under evaluation, the innermost first. -/
def nesting (outer : List ASTNode) : RunEvent σ → List ASTNode
  | .begun n _ => n :: outer
  | .evaluated .. => outer.tail
  | _ => outer

/-- Inside a loop, with only blocks and branches between. -/
def InLoop : List ASTNode → Prop
  | [] => False
  | n :: outer => n.type = .while ∨ (n.type = .block ∨ n.type = .if) ∧ InLoop outer

/-- The flags are false, and there is no error. -/
structure Clear (s : Interp σ) : Prop extends NoFlags s where
  error : s.hasError = false

/-- What the evaluation of a node may begin with: no return, a break or a continue only
in a loop, an expression as the condition of a conditional or a loop, and a name that is
bound. -/
def MayBegin (outer : List ASTNode) (n : ASTNode) (s : Interp σ) : Prop :=
  match n.type with
  | .return => False
  | .break | .continue => InLoop outer
  | .if | .while => ∀ c ∈ n.children.head?, IsExprType c.type
  | .identifier => (envGet n.strValue s.frames).isSome
  | _ => True

/-- The condition on a step of a run: besides, every assignment finds its variable, and
no division is by zero. -/
def Contained (outer : List ASTNode) : RunEvent σ → Prop
  | .begun n s => MayBegin outer n s
  | .assigned _ found _ => found
  | .binary op left right => arithmetic (op.headD nul) left right ≠ some .divideByZero
  | _ => True

/-- Where a script begins, or a statement of a program. -/
def AtTop : List ASTNode → Prop
  | [] => True
  | [n] => n.type = .program
  | _ => False

/-- Scripts and the statements of a program begin with a clear control state. -/
def BeginsClear (outer : List ASTNode) : RunEvent σ → Prop
  | .begun _ s => AtTop outer → Clear s
  | _ => True

section Decidable

instance InLoop.decidable : DecidablePred InLoop
  | [] => .isFalse id
  | _ :: outer =>
    have : Decidable (InLoop outer) := InLoop.decidable outer
    inferInstanceAs (Decidable (_ ∨ _ ∧ _))

instance (s : Interp σ) : Decidable (Clear s) :=
  decidable_of_iff (s.breakFlag = false ∧ s.continueFlag = false ∧ s.returnFlag = false ∧
    s.hasError = false)
    ⟨fun h => ⟨⟨h.1, h.2.1, h.2.2.1⟩, h.2.2.2⟩, fun h => ⟨h.1.1, h.1.2, h.1.3, h.2⟩⟩

instance (outer : List ASTNode) (n : ASTNode) (s : Interp σ) : Decidable (MayBegin outer n s) := by
  unfold MayBegin
  split <;> infer_instance

instance : (a : Option Arithmetic) → Decidable (a = some .divideByZero)
  | none => .isFalse nofun
  | some (.int ..) => .isFalse nofun
  | some (.float _) => .isFalse nofun
  | some .divideByZero => .isTrue rfl

instance (outer : List ASTNode) (e : RunEvent σ) : Decidable (Contained outer e) :=
  match e with
  | .begun n s => inferInstanceAs (Decidable (MayBegin outer n s))
  | .assigned _ found _ => inferInstanceAs (Decidable (found = true))
  | .binary op left right =>
      inferInstanceAs (Decidable (arithmetic (op.headD nul) left right ≠ some .divideByZero))
  | .parse _ | .arith .. | .unary .. | .condition _ | .identifier _ | .declared ..
  | .overwritten _ | .dropped .. | .alloc _ | .read _ | .free _ | .evaluated .. => .isTrue trivial

instance : DecidablePred AtTop
  | [] => .isTrue trivial
  | [_] => inferInstanceAs (Decidable (_ = _))
  | _ :: _ :: _ => .isFalse id

instance (outer : List ASTNode) (e : RunEvent σ) : Decidable (BeginsClear outer e) :=
  match e with
  | .begun _ s => inferInstanceAs (Decidable (AtTop outer → Clear s))
  | .parse _ | .arith .. | .binary .. | .unary .. | .condition _ | .identifier _ | .declared ..
  | .assigned .. | .overwritten _ | .dropped .. | .alloc _ | .read _ | .free _
  | .evaluated .. => .isTrue trivial

end Decidable

/-! ## Computations inside a node -/

variable {α β : Type} {outer : List ASTNode} {x : Run σ α} {f : α → Run σ β} {s t : Interp σ}

/-- In a contained run the computation returns to the nodes around it, with `post`. -/
abbrev Contains (outer : List ASTNode) (x : Run σ α) (post : α → Prop) : Prop :=
  Logging.Follows nesting Contained BeginsClear outer x fun a g => g = outer ∧ post a

variable {M post' : α → Prop} {post : β → Prop}

theorem contains_pure {a : α} (h : M a) : Contains outer (pure a : Run σ α) M :=
  follows_pure ⟨rfl, h⟩

theorem contains_bind (hx : Contains outer x M) (hf : ∀ a, M a → Contains outer (f a) post) :
    Contains outer (x >>= f) post := by
  refine follows_bind hx ?_
  rintro a _ ⟨rfl, ha⟩
  exact hf a ha

/-- An event that opens and closes no node. -/
theorem contains_emit {e : RunEvent σ} {f : Unit → Run σ β} (hplain : nesting outer e = outer)
    (hbegins : BeginsClear outer e) (hf : Contained outer e → Contains outer (f ()) post) :
    Contains outer (Logged.emit e >>= f) post := by
  refine follows_emit (fun _ => hbegins) fun he => ?_
  rw [hplain]
  exact hf he

theorem contains_skip {f : α → Run σ β} {k : Stop} {o : Option α}
    (hf : ∀ a, o = some a → Contains outer (f a) post) :
    Contains outer (Logged.ofOption k o >>= f) post :=
  contains_bind (M := fun a => o = some a) (follows_ofOption fun _ h => ⟨rfl, h⟩) hf

/-! ## Values and variables -/

/-- Only the flags and the error matter. -/
theorem Clear.of_eq (h : Clear s) (hb : t.breakFlag = s.breakFlag)
    (hc : t.continueFlag = s.continueFlag) (hr : t.returnFlag = s.returnFlag)
    (he : t.hasError = s.hasError) : Clear t :=
  ⟨⟨hb.trans h.breakFlag, hc.trans h.continueFlag, hr.trans h.returnFlag⟩, he.trans h.error⟩

theorem contains_valueFree (hs : Clear s) (v : Value) : Contains outer (valueFree m v s) Clear := by
  unfold valueFree
  split
  · refine follows_ite (fun _ => contains_pure hs) fun _ => ?_
    refine contains_emit rfl trivial fun _ => ?_
    exact contains_skip fun mem _ => contains_pure (hs.of_eq rfl rfl rfl rfl)
  · exact contains_pure hs

theorem contains_valuePrint (hs : Clear s) (v : Value) :
    Contains outer (valuePrint m v s) Clear := by
  have hprint : ∀ piece, Clear (s.print piece) := fun _ => hs.of_eq rfl rfl rfl rfl
  unfold valuePrint
  split
  case h_5 => exact contains_emit rfl trivial fun _ => contains_pure (hprint _)
  all_goals exact contains_pure (hprint _)

theorem contains_envDefine (hs : Clear s) (name : List Char) (v : Value) :
    Contains outer (envDefine m name v s) Clear := by
  unfold envDefine
  refine follows_ite (fun _ => ?_) fun _ => ?_
  · exact contains_emit rfl trivial fun _ => contains_pure hs
  refine contains_emit rfl trivial fun _ => ?_
  split
  · refine contains_bind (contains_valueFree hs _) fun t ht => ?_
    exact contains_pure (ht.of_eq rfl rfl rfl rfl)
  · exact contains_pure (hs.of_eq rfl rfl rfl rfl)

/-- In a contained run an assignment finds its variable. -/
theorem contains_envSet (hs : Clear s) (name : List Char) (v : Value) :
    Contains outer (envSet m name v s) fun r => r.1 = true ∧ Clear r.2 := by
  unfold envSet
  split
  · refine contains_emit rfl trivial fun _ => ?_
    refine contains_bind (contains_valueFree hs _) fun t ht => ?_
    exact contains_pure ⟨rfl, ht.of_eq rfl rfl rfl rfl⟩
  · exact contains_emit rfl trivial fun hfound => nomatch (hfound : false = true)

theorem contains_intArith (hs : Clear s) (op : IntOp) (a b : Int64) :
    Contains outer ((intArith op a b : Run σ Int64) >>= fun i => pure (Value.int i, s))
      fun r => Clear r.2 := by
  refine contains_bind (M := fun _ => True) ?_ fun i _ => contains_pure hs
  refine contains_emit rfl trivial fun _ => ?_
  exact follows_ite (fun _ => follows_stop _) fun _ => contains_pure trivial

theorem contains_binaryOp (hs : Clear s) {op : List Char} {left right : Value}
    (hzero : arithmetic (op.headD nul) left right ≠ some .divideByZero) :
    Contains outer (binaryOp m op left right s) fun r => Clear r.2 := by
  unfold binaryOp
  split
  · exact contains_intArith hs _ _ _
  · exact contains_pure hs
  case h_3 h => exact absurd h hzero
  · split
    · exact contains_pure (hs.of_eq rfl rfl rfl rfl)
    · refine contains_bind (contains_valueFree hs _) fun t ht => ?_
      refine contains_bind (contains_valueFree ht _) fun u hu => ?_
      exact contains_pure (hu.of_eq rfl rfl rfl rfl)

theorem contains_unaryOp (hs : Clear s) (op : List Char) (operand : Value) :
    Contains outer (unaryOp m op operand s) fun r => Clear r.2 := by
  unfold unaryOp
  split
  · exact contains_intArith hs _ _ _
  · exact contains_pure hs
  · exact contains_pure (hs.of_eq rfl rfl rfl rfl)
  · refine contains_bind (contains_valueFree hs _) fun t ht => ?_
    exact contains_pure (ht.of_eq rfl rfl rfl rfl)

/-! ## Nodes -/

variable {n : ASTNode} {eval : Evaluator σ}

/-- What a node leaves: no more than one of break and continue, and these only inside a
loop and not from an expression. -/
structure Leaves (outer : List ASTNode) (n : ASTNode) (t : Interp σ) : Prop where
  error : t.hasError = false
  returnFlag : t.returnFlag = false
  one : ¬(t.breakFlag = true ∧ t.continueFlag = true)
  jump : t.breakFlag = true ∨ t.continueFlag = true → InLoop outer ∧ ¬IsExprType n.type

theorem Clear.leaves (h : Clear t) : Leaves outer n t := by
  refine ⟨h.error, h.returnFlag, ?_, ?_⟩
  · rintro ⟨hb, -⟩
    rw [h.breakFlag] at hb
    cases hb
  · rintro (hb | hc)
    · rw [h.breakFlag] at hb
      cases hb
    · rw [h.continueFlag] at hc
      cases hc

/-- Where nothing can be left, the control state is clear. -/
theorem Leaves.clear (h : Leaves outer n t) (hno : ¬(InLoop outer ∧ ¬IsExprType n.type)) :
    Clear t := by
  have hflags : ¬(t.breakFlag = true ∨ t.continueFlag = true) := fun hf => hno (h.jump hf)
  rw [not_or, Bool.not_eq_true, Bool.not_eq_true] at hflags
  exact ⟨⟨hflags.1, hflags.2, h.returnFlag⟩, h.error⟩

/-- The evaluator is contained, from clear states on. -/
def ContainedEval (eval : Evaluator σ) : Prop :=
  ∀ outer n s, Clear s → Contains outer (eval n s) fun r => Leaves outer n r.2

theorem Contains.mono (h : Contains outer x M) (himp : ∀ a, M a → post' a) :
    Contains outer x post' :=
  Follows.mono h fun a _ ha => ⟨ha.1, himp a ha.2⟩

/-- A node that is neither a loop nor a block nor a conditional ends the loop around it. -/
theorem contains_child (heval : ContainedEval eval) (c : ASTNode) (hs : Clear s)
    (hn : n.type ≠ .while ∧ n.type ≠ .block ∧ n.type ≠ .if) :
    Contains (n :: outer) (eval c s) fun r => Clear r.2 := by
  refine (heval _ c s hs).mono fun r hr => hr.clear ?_
  rintro ⟨hwhile | ⟨hblock | hif, -⟩, -⟩
  · exact hn.1 hwhile
  · exact hn.2.1 hblock
  · exact hn.2.2 hif

theorem contains_childAt {i : Nat} {f : ASTNode → Run σ β}
    (hf : ∀ c, n.children[i]? = some c → Contains outer (f c) post) :
    Contains outer (childAt n i >>= f) post := contains_skip hf

/-- The condition of a conditional or a loop is an expression. -/
theorem contains_evalCondition (heval : ContainedEval eval) (hs : Clear s)
    (hn : ∀ c ∈ n.children.head?, IsExprType c.type) :
    Contains outer (evalCondition m eval n s) fun r => Clear r.2 := by
  refine contains_childAt fun c hc => ?_
  have hexpr : IsExprType c.type := hn c (by rw [List.head?_eq_getElem?]; exact hc)
  refine contains_bind (heval outer c s hs) fun r hr => ?_
  refine contains_emit rfl trivial fun _ => ?_
  have hclear := hr.clear fun h => h.2 hexpr
  refine contains_bind (contains_valueFree hclear _) fun t ht => ?_
  exact contains_pure ht

theorem contains_printArguments (heval : ContainedEval eval) (hs : Clear s)
    (hn : n.type ≠ .while ∧ n.type ≠ .block ∧ n.type ≠ .if) (cs : List ASTNode) :
    Contains (n :: outer) (printArguments m eval cs s) Clear := by
  induction cs generalizing s with
  | nil => exact contains_pure hs
  | cons c cs ih =>
      refine contains_bind (contains_child heval c hs hn) fun r hr => ?_
      refine contains_bind (contains_valuePrint hr _) fun t ht => ?_
      have hspace : Clear (if cs = [] then t else t.print .space) := by
        split
        · exact ht
        · exact ht.of_eq rfl rfl rfl rfl
      exact contains_bind (contains_valueFree hspace _) fun u hu => ih hu

/-- A block is left with the flag that its last statement has set. -/
theorem contains_runBlock (heval : ContainedEval eval) (hs : Clear s) (hn : n.type = .block)
    (cs : List ASTNode) :
    Contains (n :: outer) (runBlock eval cs s) fun t => Leaves outer n t := by
  induction cs generalizing s with
  | nil => exact contains_pure hs.leaves
  | cons c cs ih =>
      refine contains_bind (heval _ c s hs) fun r hr => ?_
      refine contains_emit rfl trivial fun _ => ?_
      refine follows_ite (fun _ => ?_) fun hgo => ?_
      · refine contains_pure ⟨hr.error, hr.returnFlag, hr.one, fun hf => ⟨?_, ?_⟩⟩
        · rcases (hr.jump hf).1 with hwhile | ⟨-, hloop⟩
          · cases hn.symm.trans hwhile
          · exact hloop
        · rw [hn]
          decide
      · simp only [Bool.or_eq_true, not_or, Bool.not_eq_true] at hgo
        exact ih ⟨⟨hgo.1.2, hgo.2, hgo.1.1⟩, hr.error⟩

theorem contains_runProgram (heval : ContainedEval eval) (hs : Clear s)
    (hn : n.type = .program) (cs : List ASTNode) :
    Contains (n :: outer) (runProgram eval cs s) Clear := by
  have hother : n.type ≠ .while ∧ n.type ≠ .block ∧ n.type ≠ .if := by
    rw [hn]
    decide
  induction cs generalizing s with
  | nil => exact contains_pure hs
  | cons c cs ih =>
      refine contains_bind (contains_child heval c hs hother) fun r hr => ?_
      refine contains_emit rfl trivial fun _ => ?_
      exact follows_ite (fun _ => contains_pure hr) fun _ => ih hr

/-- A loop takes the flags of its body: whichever of the two is set, it clears. -/
theorem contains_runWhile (heval : ContainedEval eval)
    (hcond : ∀ c ∈ n.children.head?, IsExprType c.type) (fuel : Nat) (hs : Clear s) :
    Contains (n :: outer) (runWhile m eval n fuel s) Clear := by
  induction fuel generalizing s with
  | zero => exact follows_stop _
  | succ fuel ih =>
      rw [runWhile]
      refine contains_bind (contains_evalCondition heval hs hcond) fun r hr => ?_
      refine follows_ite (fun _ => contains_pure hr) fun _ => ?_
      refine contains_childAt fun body _ => ?_
      refine contains_bind (heval _ body _ hr) fun r₁ h₁ => ?_
      refine contains_emit rfl trivial fun _ => ?_
      refine follows_ite (fun hb => ?_) fun hb => follows_ite (fun hc => ?_) fun hc => ?_
      · have hc : r₁.2.continueFlag = false := by
          rw [← Bool.not_eq_true]
          exact fun hc => h₁.one ⟨hb, hc⟩
        exact contains_pure ⟨⟨rfl, hc, h₁.returnFlag⟩, h₁.error⟩
      · rw [Bool.not_eq_true] at hb
        exact ih ⟨⟨hb, rfl, h₁.returnFlag⟩, h₁.error⟩
      · rw [Bool.not_eq_true] at hb hc
        have hclear : Clear r₁.2 := ⟨⟨hb, hc, h₁.returnFlag⟩, h₁.error⟩
        exact follows_ite (fun _ => contains_pure hclear) fun _ => ih hclear

theorem contains_thenNull {x : Run σ (Interp σ)} {M : Interp σ → Prop}
    (h : Contains outer x M) (hM : ∀ t, M t → M (valueCreateNull m t).2) :
    Contains outer (thenNull m x) fun r => M r.2 :=
  contains_bind h fun t ht => contains_pure (hM t ht)

theorem contains_optional (heval : ContainedEval eval) (hs : Clear s)
    (hn : n.type ≠ .while ∧ n.type ≠ .block ∧ n.type ≠ .if) (cs : List ASTNode) :
    Contains (n :: outer) (match cs with
      | [] => (pure (valueCreateNull m s) : Run σ (Value × Interp σ))
      | c :: _ => eval c s) fun r => Clear r.2 := by
  cases cs with
  | nil => exact contains_pure (hs.of_eq rfl rfl rfl rfl)
  | cons c cs => exact contains_child heval c hs hn

theorem contains_evalIf (heval : ContainedEval eval) (hs : Clear s) (hn : n.type = .if)
    (hcond : ∀ c ∈ n.children.head?, IsExprType c.type) :
    Contains (n :: outer) (evalIf m eval n s) fun r => Leaves outer n r.2 := by
  have hbranch : ∀ (c : ASTNode) (t : Interp σ), Clear t →
      Contains (n :: outer) (eval c t) fun r => Leaves outer n r.2 := by
    intro c t ht
    refine (heval _ c t ht).mono fun r hr => ?_
    refine ⟨hr.error, hr.returnFlag, hr.one, fun hf => ⟨?_, ?_⟩⟩
    · rcases (hr.jump hf).1 with hwhile | ⟨-, hloop⟩
      · cases hn.symm.trans hwhile
      · exact hloop
    · rw [hn]
      decide
  refine contains_bind (contains_evalCondition heval hs hcond) fun r hr => ?_
  refine follows_ite (fun _ => ?_) fun _ => ?_
  · exact contains_childAt fun c _ => hbranch c _ hr
  · split
    · exact hbranch _ _ hr
    · have hnull : Clear (valueCreateNull m r.2).2 := hr.of_eq rfl rfl rfl rfl
      exact contains_pure hnull.leaves

/-- By the kind of the node: a node that may begin leaves the flags that it may leave, and so
do the nodes inside it. -/
theorem contains_evalNode (heval : ContainedEval eval) (fuel : Nat) (hs : Clear s)
    (hok : MayBegin outer n s) :
    Contains (n :: outer) (evalNode m eval fuel n s) fun r => Leaves outer n r.2 := by
  have hmem : ∀ mem, Clear { s with mem := mem } := fun _ => hs.of_eq rfl rfl rfl rfl
  have hleaves : ∀ {x : Run σ (Value × Interp σ)}, Contains (n :: outer) x (fun r => Clear r.2) →
      Contains (n :: outer) x fun r => Leaves outer n r.2 := fun hx => hx.mono fun _ h => h.leaves
  unfold evalNode
  refine follows_ite (fun _ => contains_pure (hmem _).leaves) fun _ => ?_
  unfold MayBegin at hok
  -- a node of these types has no loop, block or branch around its operands
  have hother : ∀ t : ASTNodeType, n.type = t → t ≠ .while ∧ t ≠ .block ∧ t ≠ .if →
      n.type ≠ .while ∧ n.type ≠ .block ∧ n.type ≠ .if := by
    rintro _ rfl h
    exact h
  cases hn : n.type <;> rw [hn] at hok <;> dsimp only at hok ⊢
  case literalString =>
    exact contains_emit rfl trivial fun _ => contains_pure (hmem _).leaves
  case literalBool => exact contains_pure (hmem _).leaves
  case literalInt | literalFloat => exact contains_pure hs.leaves
  case identifier =>
    rcases Option.isSome_iff_exists.mp hok with ⟨v, hv⟩
    unfold evalIdentifier
    rw [hv]
    exact contains_emit rfl trivial fun _ => contains_pure hs.leaves
  case varDecl =>
    refine hleaves ?_
    refine contains_bind (contains_optional heval hs (hother _ hn (by decide)) _) fun r hr => ?_
    refine contains_bind (contains_envDefine hr _ _) fun t ht => ?_
    exact contains_pure (ht.of_eq rfl rfl rfl rfl)
  case assign =>
    refine hleaves ?_
    refine contains_childAt fun c _ => ?_
    refine contains_bind (contains_child heval c hs (hother _ hn (by decide))) fun r hr => ?_
    refine contains_bind (contains_envSet hr _ _) fun r₁ h₁ => ?_
    refine contains_pure ?_
    rw [if_pos h₁.1]
    exact h₁.2
  case binaryOp =>
    refine hleaves ?_
    have hn' := hother _ hn (by decide)
    refine contains_childAt fun l _ => ?_
    refine contains_bind (contains_child heval l hs hn') fun r₁ h₁ => ?_
    refine contains_childAt fun r _ => ?_
    refine contains_bind (contains_child heval r h₁ hn') fun r₂ h₂ => ?_
    exact contains_emit rfl trivial fun hzero => contains_binaryOp h₂ hzero
  case unaryOp =>
    refine hleaves ?_
    refine contains_childAt fun c _ => ?_
    refine contains_bind (contains_child heval c hs (hother _ hn (by decide))) fun r hr => ?_
    exact contains_emit rfl trivial fun _ => contains_unaryOp hr _ _
  case print =>
    refine hleaves ?_
    have hn' := hother _ hn (by decide)
    refine contains_bind (contains_printArguments heval hs hn' _) fun t ht => ?_
    exact contains_pure (ht.of_eq rfl rfl rfl rfl)
  case «if» => exact contains_evalIf heval hs hn hok
  case «while» =>
    refine hleaves ?_
    exact contains_thenNull (contains_runWhile heval hok fuel hs) fun t ht =>
      ht.of_eq rfl rfl rfl rfl
  -- the only nodes that set one of the two flags, and only inside a loop
  case «break» | «continue» =>
    refine contains_pure ⟨hs.error, hs.returnFlag, ?_, fun _ => ⟨hok, ?_⟩⟩
    · simp [valueCreateNull, hs.breakFlag, hs.continueFlag]
    · rw [hn]
      decide
  -- a block leaves the flag that a statement in it has left
  case block =>
    refine contains_thenNull (contains_runBlock heval hs hn _) fun t ht => ?_
    exact ⟨ht.error, ht.returnFlag, ht.one, ht.jump⟩
  case program =>
    refine hleaves ?_
    exact contains_thenNull (contains_runProgram heval hs hn _) fun t ht =>
      ht.of_eq rfl rfl rfl rfl
  all_goals exact contains_pure (hmem _).leaves

/-- Every evaluation that begins in a clear state begins and ends as it should. -/
theorem contains_interpreterEval (m : Memory σ) (fuel : Nat) :
    ContainedEval (interpreterEval m fuel) := by
  induction fuel with
  | zero => exact fun _ _ _ _ => follows_stop _
  | succ fuel ih =>
      intro outer n s hs
      rw [interpreterEval]
      refine follows_emit (fun _ _ => hs) fun hok => ?_
      -- the node is open until the event that closes it
      refine follows_bind (contains_evalNode ih fuel hs hok) ?_
      rintro r _ ⟨rfl, hr⟩
      exact follows_emit (fun _ => trivial) fun _ => follows_pure ⟨rfl, hr⟩

/-! ## Scripts -/

/-- The events of a parse are not those of an evaluation. -/
theorem contains_parse (x : Parse α) :
    Contains outer (x.mapLog RunEvent.parse : Run σ α) fun _ => True :=
  (follows_mapLog (fun _ => rfl) fun _ => trivial).mono fun _ _ hg => ⟨hg.2, trivial⟩

theorem contains_interpreterExecute (fuel : Nat) (source : Nat → Char) (hs : Clear s) :
    Contains [] (interpreterExecute m fuel source s) Clear := by
  refine contains_bind (contains_parse _) fun r _ => ?_
  refine follows_ite (fun _ => contains_pure (hs.of_eq rfl rfl rfl rfl)) fun _ => ?_
  split
  · exact contains_pure hs
  · refine contains_bind (contains_interpreterEval m fuel [] _ s hs) ?_
    rintro ⟨v, t⟩ ht
    have hclear : Clear t := ht.clear fun h => h.1
    have hgo : ¬t.hasError = true := by simp [hclear.error]
    dsimp only
    rw [if_neg hgo]
    exact contains_pure hclear

theorem contains_executeAll (fuel : Nat) (sources : List (Nat → Char)) (hs : Clear s) :
    Contains [] (executeAll m fuel sources s) Clear := by
  induction sources generalizing s with
  | nil => exact contains_pure hs
  | cons source rest ih =>
      exact contains_bind (contains_interpreterExecute fuel source hs) fun t ht => ih ht

/-- Scripts run one after another on one interpreter: if no step returns, breaks or
continues outside a loop, has a condition missing, or raises an error, then every script
and every statement of a program begins with the flags false and without an error. -/
theorem control_contained (m : Memory σ) (fuel : Nat) (sources : List (Nat → Char)) (mem : σ)
    (h : Along nesting Contained [] (executeAll m fuel sources (interpreterInit m mem)).log) :
    Along nesting BeginsClear [] (executeAll m fuel sources (interpreterInit m mem)).log :=
  (contains_executeAll fuel sources ⟨⟨rfl, rfl, rfl⟩, rfl⟩ h).1

/-- A script with a loop that is left, and a script that prints. -/
def leavesLoop : List (Nat → Char) :=
  [sourceOf "dopoki(prawda){przerwij;}".toList, sourceOf "drukuj(1);".toList]

theorem control_contained_loop :
    Along nesting BeginsClear [] (executeAll plainMemory 60 leavesLoop
      (interpreterInit plainMemory ())).log :=
  control_contained plainMemory 60 leavesLoop () (by decide)

/-- Behind a script that breaks outside of loops, the next one begins with the flag set. -/
theorem control_leaks :
    ¬Along nesting BeginsClear [] (executeAll plainMemory 60
      [sourceOf "przerwij;".toList, sourceOf "drukuj(1);".toList]
      (interpreterInit plainMemory ())).log := by
  decide

end PolandOS.PolskiScript
