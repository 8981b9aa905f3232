import PolandOS.Lang.ParserShapes
import PolandOS.Lang.StringLedger
import PolandOS.Lang.LexerRoundTrip

/-! # Who frees a string

* `strings_owned`: each string of a script has one owner and is freed once, and `kfree` never
  calls `kpanic`; if every string that is taken is that of a literal, and that of every literal
  is taken.
* `printed_variable_freed_twice`: a script that prints a variable.
-/

namespace PolandOS.PolskiScript

open Logging Heap

variable {σ α β : Type} {m : Memory σ} {I : σ → Finset Int64 → Prop} {g : StringLedger}
  {s t : Interp σ} {all : Multiset Int64} {ys : List Yield} {outer : List (List Yield)}
  {post : β → StringLedger → Prop}

/-! ## Nodes -/

variable {n : ASTNode} {eval : Evaluator σ}

/-- The evaluator yields one value to the node outside. -/
def OwningEval (I : σ → Finset Int64 → Prop) (eval : Evaluator σ) : Prop :=
  ∀ n s ys outer g, Sound I s ys outer g →
    Owning g (eval n s) fun r g' => Sound I r.2 (⟨n.type, r.1⟩ :: ys) outer g'

theorem owning_childAt {i : Nat} {f : ASTNode → Run σ β} (hf : ∀ c, Owning g (f c) post) :
    Owning g (childAt n i >>= f) post :=
  guards_bind (M := fun _ g' => g' = g) (guards_ofOption (.inl nofun) fun _ _ => rfl)
    fun c _ hg => hg ▸ hf c

theorem owning_evalCondition (hm : Lawful m I) (heval : OwningEval I eval)
    (h : Sound I s [] outer g) :
    Owning g (evalCondition m eval n s) fun r g' => Sound I r.2 [] outer g' := by
  refine owning_childAt fun c => ?_
  refine guards_bind (heval c s _ _ g h) fun r g₁ hr => ?_
  refine owning_settle rfl trivial fun hands => ?_
  rcases hr.take hands with ⟨hyielded, haccounts⟩
  rw [List.map_singleton, List.sum_singleton] at haccounts
  refine guards_bind (owning_valueFree hm haccounts) fun t g₂ ht => ?_
  exact guards_pure (ht.sound hr.parents hyielded)

theorem owning_printArguments (hm : Lawful m I) (heval : OwningEval I eval)
    (cs : List ASTNode) (h : Sound I s ys outer g) (hys : Stringless ys) :
    Owning g (printArguments m eval cs s) fun t g' => ∃ zs, Sound I t zs outer g' := by
  induction cs generalizing s ys g with
  | nil => exact guards_pure ⟨ys, h⟩
  | cons c cs ih =>
      refine guards_bind (heval c s _ _ g h) fun r g₁ hr => ?_
      refine guards_bind (owning_valuePrint hr hys) ?_
      rintro t g₂ ⟨⟨out, rfl⟩, zs, hzs, hyielded, haccounts⟩
      -- the space behind the argument comes before its string is freed
      have hspace : ∃ out', (if cs = [] then { r.2 with out := out } else
          ({ r.2 with out := out } : Interp σ).print .space) = { r.2 with out := out' } := by
        split
        · exact ⟨out, rfl⟩
        · exact ⟨_, rfl⟩
      rcases hspace with ⟨out', hspace⟩
      rw [hspace]
      have hall : Accounts I (r.1.strings + ({ r.2 with out := out' } : Interp σ).strings)
          ({ r.2 with out := out' } : Interp σ).mem g₂ := haccounts
      refine guards_bind (owning_valueFree hm hall) fun u g₃ hu => ?_
      exact ih (hu.sound hr.parents hyielded) hzs

/-- What a statement yields is dropped. -/
theorem owning_dropped {type : ASTNodeType} {v : Value} {f : Unit → Run σ β}
    (h : Sound I s ys outer g)
    (hf : ∀ g', Sound I s [] outer g' → Owning g' (f ()) post) :
    Owning g (Logged.emit (.dropped type v) >>= f) post :=
  owning_settle rfl trivial fun hands => hf _ (h.drop hands)

theorem owning_runBlock (heval : OwningEval I eval) (cs : List ASTNode)
    (h : Sound I s [] outer g) :
    Owning g (runBlock eval cs s) fun t g' => Sound I t [] outer g' := by
  induction cs generalizing s g with
  | nil => exact guards_pure h
  | cons c cs ih =>
      refine guards_bind (heval c s _ _ g h) fun r g₁ hr => ?_
      refine owning_dropped hr fun g₂ h₂ => ?_
      exact guards_ite (fun _ => guards_pure h₂) fun _ => ih h₂

theorem owning_runProgram (heval : OwningEval I eval) (cs : List ASTNode)
    (h : Sound I s [] outer g) :
    Owning g (runProgram eval cs s) fun t g' => Sound I t [] outer g' := by
  induction cs generalizing s g with
  | nil => exact guards_pure h
  | cons c cs ih =>
      refine guards_bind (heval c s _ _ g h) fun r g₁ hr => ?_
      refine owning_dropped hr fun g₂ h₂ => ?_
      exact guards_ite (fun _ => guards_pure h₂) fun _ => ih h₂

theorem owning_runWhile (hm : Lawful m I) (heval : OwningEval I eval) (fuel : Nat)
    (h : Sound I s [] outer g) :
    Owning g (runWhile m eval n fuel s) fun t g' => Sound I t [] outer g' := by
  induction fuel generalizing s g with
  | zero => exact guards_stop nofun
  | succ fuel ih =>
      rw [runWhile]
      refine guards_bind (owning_evalCondition hm heval h) fun r g₁ hr => ?_
      refine guards_ite (fun _ => guards_pure hr) fun _ => ?_
      refine owning_childAt fun body => ?_
      refine guards_bind (heval body _ _ _ g₁ hr) fun r₁ g₂ h₁ => ?_
      refine owning_dropped h₁ fun g₃ h₃ => ?_
      refine guards_ite (fun _ => guards_pure ⟨h₃.parents, h₃.yielded, h₃.accounts⟩) fun _ => ?_
      refine guards_ite (fun _ => ih ⟨h₃.parents, h₃.yielded, h₃.accounts⟩) fun _ => ?_
      exact guards_ite (fun _ => guards_pure h₃) fun _ => ih h₃

theorem owning_thenNull (hm : Lawful m I) {x : Run σ (Interp σ)}
    (h : Owning g x fun t g' => ∃ zs, Sound I t zs outer g') :
    Owning g (thenNull m x) fun r g' => ∃ zs, Sound I r.2 zs outer g' := by
  refine guards_bind h ?_
  rintro t g' ⟨zs, ht⟩
  exact guards_pure ⟨zs, ht.null hm⟩

/-- The value of a declaration or a return. -/
theorem owning_optional (hm : Lawful m I) (heval : OwningEval I eval) (h : Sound I s [] outer g)
    (cs : List ASTNode) :
    Owning g (match cs with
      | [] => (pure (valueCreateNull m s) : Run σ (Value × Interp σ))
      | c :: _ => eval c s) fun r g' => ∃ ys, Given r.1 ys ∧ Sound I r.2 ys outer g' := by
  cases cs with
  | nil => exact guards_pure ⟨[], .inl ⟨rfl, rfl⟩, h.null hm⟩
  | cons c cs =>
      refine (heval c s _ _ g h).mono fun r g' hr => ?_
      exact ⟨_, .inr ⟨c.type, rfl⟩, hr⟩

theorem owning_evalIf (hm : Lawful m I) (heval : OwningEval I eval) (h : Sound I s [] outer g) :
    Owning g (evalIf m eval n s) fun r g' => ∃ zs, Sound I r.2 zs outer g' := by
  have hbranch : ∀ (c : ASTNode) (t : Interp σ) (g' : StringLedger), Sound I t [] outer g' →
      Owning g' (eval c t) fun r g' => ∃ zs, Sound I r.2 zs outer g' := by
    intro c t g' ht
    exact (heval c t _ _ g' ht).mono fun r g'' hr => ⟨_, hr⟩
  refine guards_bind (owning_evalCondition hm heval h) fun r g₁ hr => ?_
  refine guards_ite (fun _ => owning_childAt fun c => hbranch c _ _ hr) fun _ => ?_
  split
  · exact hbranch _ _ _ hr
  · exact guards_pure ⟨[], hr.null hm⟩

theorem owning_evalReturn (hm : Lawful m I) (heval : OwningEval I eval) (h : Sound I s [] outer g) :
    Owning g (evalReturn m eval n s) fun r g' => ∃ zs, Sound I r.2 zs outer g' := by
  refine guards_bind (owning_optional hm heval h _) ?_
  rintro r g₁ ⟨ys, hgiven, hr⟩
  refine owning_settle rfl trivial ?_
  rintro ⟨hold, hands⟩
  rcases hr.take hands with ⟨hyielded, haccounts⟩
  rw [hgiven.sum, strings_eq hr.parents, hold, add_zero] at haccounts
  have hs : Sound I { r.2 with returnValue := r.1, returnFlag := true } [] outer g₁.settle :=
    sound_of_accounts hr.parents hyielded (haccounts.of_eq (add_comm _ _))
  exact guards_pure ⟨[], hs.null hm⟩

/-- Behind the body of a node, where a literal has made its string. -/
structure Done (I : σ → Finset Int64 → Prop) (y : Yield) (s : Interp σ)
    (outer : List (List Yield)) (g : StringLedger) : Prop where
  parents : s.parents = []
  yielded : ∃ ys, g.yielded = ys :: outer
  accounts : Accounts I (y.owned + s.strings) s.mem g

theorem Sound.done {y : Yield} (h : Sound I s ys outer g) (hy : y.owned = 0) :
    Done I y s outer g := by
  refine ⟨h.parents, ⟨ys, h.yielded⟩, h.accounts.of_eq ?_⟩
  rw [hy, zero_add]

/-- Where no string has been made, the value is a copy. -/
theorem Sound.copy {type : ASTNodeType} {v : Value} (h : Sound I s ys outer g)
    (htype : type ≠ .literalString) : Done I ⟨type, v⟩ s outer g := h.done (if_neg htype)

theorem owning_done {x : Run σ (Value × Interp σ)} {type : ASTNodeType}
    (h : Owning g x fun r g' => ∃ zs, Sound I r.2 zs outer g') (htype : type ≠ .literalString) :
    Owning g x fun r g' => Done I ⟨type, r.1⟩ r.2 outer g' := by
  refine h.mono ?_
  rintro r g' ⟨zs, hr⟩
  exact hr.copy htype

theorem owning_valueCreateString (hm : Lawful m I) (str : List Char) (h : Sound I s ys outer g) :
    Owning g (valueCreateString m str s) fun r g' =>
      Done I ⟨.literalString, r.1⟩ r.2 outer g' := by
  have hstore := hm.store str s.mem g.live h.accounts.memory
  refine guards_emit (fun he => (hstore he.1).1) fun he => guards_pure ?_
  rcases hstore he.1 with ⟨hnew, hI⟩
  exact ⟨h.parents, ⟨ys, h.yielded⟩, h.accounts.alloc he.1 hnew hI⟩

theorem owning_evalIdentifier (hm : Lawful m I) (h : Sound I s [] outer g) :
    Owning g (evalIdentifier m n s) fun r g' => ∃ zs, Sound I r.2 zs outer g' := by
  unfold evalIdentifier
  split
  · exact guards_pure ⟨[], (h.fail _).null hm⟩
  · exact guards_emit (fun _ => trivial) fun _ => guards_pure ⟨[], h⟩

theorem owning_evalAssign (hm : Lawful m I) (heval : OwningEval I eval) (h : Sound I s [] outer g) :
    Owning g (evalAssign m eval n s) fun r g' => ∃ zs, Sound I r.2 zs outer g' := by
  refine owning_childAt fun c => ?_
  refine guards_bind (heval c s _ _ g h) fun r g₁ hr => ?_
  refine guards_bind (owning_envSet hm hr) fun r₁ g₂ h₁ => guards_pure ⟨[], ?_⟩
  dsimp only
  split
  · exact h₁
  · exact h₁.fail _

theorem owning_evalBinary (hm : Lawful m I) (heval : OwningEval I eval) (h : Sound I s [] outer g) :
    Owning g (evalBinary m eval n s) fun r g' => ∃ zs, Sound I r.2 zs outer g' := by
  refine owning_childAt fun l => ?_
  refine guards_bind (heval l s _ _ g h) fun r₁ g₁ h₁ => ?_
  refine owning_childAt fun r => ?_
  refine guards_bind (heval r _ _ _ g₁ h₁) fun r₂ g₂ h₂ => ?_
  refine owning_settle rfl trivial fun hands => ?_
  exact (owning_binaryOp hm h₂ hands).mono fun r g' hr => ⟨[], hr⟩

theorem owning_evalUnary (hm : Lawful m I) (heval : OwningEval I eval) (h : Sound I s [] outer g) :
    Owning g (evalUnary m eval n s) fun r g' => ∃ zs, Sound I r.2 zs outer g' := by
  refine owning_childAt fun c => ?_
  refine guards_bind (heval c s _ _ g h) fun r g₁ hr => ?_
  refine owning_settle rfl trivial fun hands => ?_
  exact (owning_unaryOp hm hr hands).mono fun r g' hr => ⟨[], hr⟩

theorem owning_evalVarDecl (hm : Lawful m I) (heval : OwningEval I eval)
    (h : Sound I s [] outer g) :
    Owning g (evalVarDecl m eval n s) fun r g' => ∃ zs, Sound I r.2 zs outer g' := by
  refine guards_bind (owning_optional hm heval h _) ?_
  rintro r g₁ ⟨ys, hgiven, hr⟩
  refine guards_bind (owning_envDefine hm hr hgiven) fun t g₂ ht => ?_
  exact guards_pure ⟨[], ht.null hm⟩

theorem owning_evalPrint (hm : Lawful m I) (heval : OwningEval I eval) (h : Sound I s [] outer g) :
    Owning g (evalPrint m eval n s) fun r g' => ∃ zs, Sound I r.2 zs outer g' := by
  refine guards_bind (owning_printArguments hm heval _ h stringless_nil) ?_
  rintro t g' ⟨zs, ht⟩
  have hline : Sound I (t.print .newline) zs outer g' := ⟨ht.parents, ht.yielded, ht.accounts⟩
  exact guards_pure ⟨zs, hline.null hm⟩

/-- By the kind of the node: the strings that are evaluated, stored and dropped are accounted
for. -/
theorem owning_evalNode (hm : Lawful m I) (heval : OwningEval I eval) (fuel : Nat)
    (h : Sound I s [] outer g) :
    Owning g (evalNode m eval fuel n s) fun r g' => Done I ⟨n.type, r.1⟩ r.2 outer g' := by
  have hsome : ∀ {x : Run σ (Interp σ)}, (Owning g x fun t g' => Sound I t [] outer g') →
      Owning g x fun t g' => ∃ zs, Sound I t zs outer g' := fun hx =>
    hx.mono fun t g' ht => ⟨[], ht⟩
  unfold evalNode
  refine guards_ite (fun _ => ?_) fun _ => ?_
  -- behind an error a literal yields null like every other node
  · refine guards_pure ((h.null hm).done ?_)
    exact ite_self _
  cases hn : n.type <;> dsimp only
  case literalString => exact owning_valueCreateString hm _ h
  case literalInt | literalFloat => exact guards_pure (h.copy nofun)
  case identifier => exact owning_done (owning_evalIdentifier hm h) nofun
  case varDecl => exact owning_done (owning_evalVarDecl hm heval h) nofun
  case assign => exact owning_done (owning_evalAssign hm heval h) nofun
  case binaryOp => exact owning_done (owning_evalBinary hm heval h) nofun
  case unaryOp => exact owning_done (owning_evalUnary hm heval h) nofun
  case print => exact owning_done (owning_evalPrint hm heval h) nofun
  case «if» => exact owning_done (owning_evalIf hm heval h) nofun
  case «while» =>
    exact owning_done (owning_thenNull hm (hsome (owning_runWhile hm heval fuel h))) nofun
  case «return» => exact owning_done (owning_evalReturn hm heval h) nofun
  case «break» | «continue» =>
    have hflag : ∀ b c, Sound I { s with breakFlag := b, continueFlag := c } [] outer g :=
      fun _ _ => ⟨h.parents, h.yielded, h.accounts⟩
    exact guards_pure (((hflag _ _).null hm).copy nofun)
  case block => exact owning_done (owning_thenNull hm (hsome (owning_runBlock heval _ h))) nofun
  case program =>
    exact owning_done (owning_thenNull hm (hsome (owning_runProgram heval _ h))) nofun
  all_goals exact guards_pure ((h.null hm).copy nofun)

/-- Behind the event that closes the node, its value is yielded to the one outside. -/
theorem Done.close {type : ASTNodeType} {v : Value} (h : Done I ⟨type, v⟩ s (ys :: outer) g)
    (hands : g.Hands False) :
    Sound I s (⟨type, v⟩ :: ys) outer (g.next (.evaluated type v s)) := by
  rcases h.yielded with ⟨zs, hyielded⟩
  have hnone := temporaries_left hands hyielded id
  have hnext : g.next (.evaluated type v s) = { g with yielded := (⟨type, v⟩ :: ys) :: outer } := by
    change StringLedger.mk _ (yieldTo _ g.yielded.tail) = _
    rw [hyielded]
    rfl
  have howned := h.accounts.owned
  rw [hyielded, List.flatten_cons, temporaries_append, hnone, zero_add] at howned
  rw [hnext]
  refine ⟨h.parents, rfl, h.accounts.memory, h.accounts.null, ?_⟩
  rw [← howned, List.flatten_cons, List.cons_append, temporaries_cons]
  change _ + (_ + temporaries (ys :: outer).flatten) = _
  abel

/-- Every string has one owner, wherever a node begins or has been evaluated. -/
theorem owning_interpreterEval (hm : Lawful m I) (fuel : Nat) :
    OwningEval I (interpreterEval m fuel) := by
  induction fuel with
  | zero => exact fun _ _ _ _ _ _ => guards_stop nofun
  | succ fuel ih =>
      intro n s ys outer g h
      rw [interpreterEval]
      refine guards_emit (fun _ => ?_) fun _ => ?_
      · have howned := h.accounts.owned
        exact howned
      -- the node is open until the event that closes it
      have hopen : Sound I s [] (ys :: outer) (g.next (.begun n s)) := by
        refine ⟨h.parents, congrArg _ h.yielded, h.accounts.memory, h.accounts.null, ?_⟩
        exact h.accounts.owned
      refine guards_bind (owning_evalNode hm ih fuel hopen) fun r g₁ hr => ?_
      refine guards_emit (fun he => ?_) fun he => guards_pure (hr.close he.2)
      have hclosed := hr.close he.2
      exact hclosed.accounts.owned

/-! ## Scripts -/

theorem owning_envFree (hm : Lawful m I) (frame : Frame)
    (h : Accounts I (frameStrings frame + all) s.mem g) :
    Owning g (envFree m frame s) (Freed I all s g) := by
  induction frame generalizing s g with
  | nil => exact guards_pure ⟨rfl, rfl, h.of_eq (zero_add _)⟩
  | cons e frame ih =>
      rw [frameStrings_cons, add_assoc] at h
      refine guards_bind (owning_valueFree hm h) fun t g₁ ht => ?_
      exact (ih ht.accounts).mono fun u g₂ hu => ht.trans hu

/-- Behind `interpreter_free` nothing is there but what temporaries own. -/
theorem owning_interpreterFree (hm : Lawful m I) (h : Sound I s ys outer g) :
    Owning g (interpreterFree m s) fun _ g' =>
      g'.yielded = g.yielded ∧ temporaries g.yielded.flatten = g'.live.val := by
  have hall := h.accounts.of_eq (strings_eq h.parents)
  refine guards_bind (owning_envFree hm s.env hall) fun t g₁ ht => ?_
  have hret : Accounts I (t.returnValue.strings + 0) t.mem g₁ := by
    rw [ht.same, add_zero]
    exact ht.accounts
  refine (owning_valueFree hm hret).mono fun u g₂ hu => ?_
  have hyielded := hu.yielded.trans ht.yielded
  have howned := hu.accounts.owned
  rw [zero_add, hyielded] at howned
  exact ⟨hyielded, howned⟩

theorem owning_parse {x : Parse α} {a : α} (hx : x.result = .ok a) :
    Owning g (x.mapLog RunEvent.parse : Run σ α) fun b g' => b = a ∧ g' = g := by
  refine ⟨(follows_mapLog (fun _ => rfl) fun _ => trivial).mono ?_, fun _ h => ?_⟩
  · rintro b g' ⟨hb, hg⟩
    exact ⟨Except.ok.inj (hb.symm.trans hx), hg⟩
  · cases h.symm.trans hx

/-- The root of a tree is the node that `parser_parse_program` has made. -/
theorem programLoop_type {program tree : ASTNode} {p q : Parser}
    (h : (programLoop fuel program p).result = .ok (some tree, q)) :
    tree.type = program.type := by
  induction fuel generalizing program p with
  | zero => cases h
  | succ fuel ih =>
      rw [programLoop] at h
      split at h
      case isFalse =>
        cases h
        rfl
      case isTrue =>
        rcases Logged.result_bind.mp h with ⟨-, -, h⟩
        rcases Logged.result_bind.mp h with ⟨⟨s, p₁⟩, -, h⟩
        rcases Logged.result_bind.mp h with ⟨program', hadd, h⟩
        rcases Logged.result_bind.mp h with ⟨-, -, h⟩
        -- a child is added, which leaves the type as it is
        have htype : program'.type = program.type := by
          cases s <;> cases hadd <;> rfl
        split at h
        · cases h
        · exact (ih h).trans htype

/-- A program yields null. -/
theorem program_yields {v : Value} (hn : n.type = .program)
    (h : (interpreterEval m fuel n s).result = .ok (v, t)) : v.strings = 0 := by
  cases fuel with
  | zero => cases h
  | succ fuel =>
      rw [interpreterEval] at h
      rcases Logged.result_bind.mp h with ⟨-, -, h⟩
      rcases Logged.result_bind.mp h with ⟨⟨w, u⟩, hnode, h⟩
      cases h
      unfold evalNode at hnode
      rw [hn] at hnode
      split at hnode
      · cases hnode
        rfl
      · rcases Logged.result_bind.mp hnode with ⟨u', -, hnull⟩
        cases hnull
        rfl

/-- A program is left with nothing that is yielded, but null. -/
theorem owning_program (hm : Lawful m I) (fuel : Nat) (hn : n.type = .program)
    (h : Sound I s [] [] g) :
    Owning g (interpreterEval m fuel n s) fun r g' =>
      ∃ v, v.strings = 0 ∧ Sound I r.2 [⟨.program, v⟩] [] g' := by
  refine (guards_result (owning_interpreterEval hm fuel n s _ _ g h)).mono ?_
  rintro ⟨v, t⟩ g' ⟨hr, hres⟩
  exact ⟨v, program_yields hn hres, hn ▸ hr⟩

/-- The parser returns a tree. -/
def HasTree (fuel : Nat) (source : Nat → Char) : Prop :=
  ((parseSource fuel source).result.toOption.bind Prod.fst).isSome

instance (fuel : Nat) (source : Nat → Char) : Decidable (HasTree fuel source) :=
  inferInstanceAs (Decidable (_ = true))

theorem exists_tree {source : Nat → Char} (h : HasTree fuel source) :
    ∃ tree q, (parseSource fuel source).result = .ok (some tree, q) ∧ q.hasError = false ∧
      tree.type = .program := by
  cases hres : (parseSource fuel source).result with
  | error k =>
      rw [HasTree, hres] at h
      cases h
  | ok r =>
      obtain ⟨_ | tree, q⟩ := r
      · rw [HasTree, hres] at h
        cases h
      · rcases Logged.result_bind.mp hres with ⟨p, -, hloop⟩
        exact ⟨tree, q, rfl, (parseSource_shaped hres).1, programLoop_type hloop⟩

theorem owning_interpreterExecute (hm : Lawful m I) {source : Nat → Char}
    (hparse : HasTree fuel source) (h : Sound I s [] [] g) :
    Owning g (interpreterExecute m fuel source s) fun t g' =>
      ∃ v, v.strings = 0 ∧ Sound I t [⟨.program, v⟩] [] g' := by
  rcases exists_tree hparse with ⟨tree, q, hres, herror, htype⟩
  refine guards_bind (owning_parse hres) ?_
  rintro _ _ ⟨rfl, rfl⟩
  dsimp only
  rw [herror, if_neg Bool.false_ne_true]
  refine guards_bind (owning_program hm fuel htype h) ?_
  rintro r g' ⟨v, hv, hr⟩
  refine guards_pure ⟨v, hv, ?_⟩
  split
  · exact ⟨hr.parents, hr.yielded, hr.accounts⟩
  · exact hr

/-- All strings are freed at the end. -/
theorem owning_polskiscriptEvalString (hm : Lawful m I) {source : Nat → Char} {mem : σ}
    (hparse : HasTree fuel source) (hmem : I mem ∅) :
    Owning .start (polskiscriptEvalString m fuel source mem) fun _ g' => g'.live = ∅ := by
  have hstart : Sound I (interpreterInit m mem) [] [] .start :=
    ⟨rfl, rfl, hm.uninitialised _ _ hmem, Finset.notMem_empty _, rfl⟩
  refine guards_bind (owning_interpreterExecute hm hparse hstart) ?_
  rintro s g ⟨v, hv, hs⟩
  refine (owning_interpreterFree hm hs).mono ?_
  rintro t g' ⟨-, howned⟩
  rw [hs.yielded] at howned
  have hnone : Yield.owned ⟨.program, v⟩ = 0 := if_neg nofun
  have hsum : temporaries [⟨.program, v⟩] = 0 := by rw [temporaries_cons, hnone, zero_add]; rfl
  exact Finset.val_eq_zero.mp (howned.symm.trans hsum)

/-- Each string of a run has one owner at a time and is freed once, by the end, and `kfree`
does not call `kpanic`. -/
structure StringsOwned (x : Run σ α) : Prop where
  owned : Along StringLedger.next Owned .start x.log
  noPanic : x.result ≠ .error .panic
  freed : ∀ a, x.result = .ok a → (x.log.foldl StringLedger.next .start).live = ∅

/-- A script runs on the kernel's heap, and `kmalloc` does not fail: if every string that is
taken is that of a literal, and that of every literal is taken, then each string has one owner
and is freed once. -/
theorem strings_owned (bytes : HeapState → Int64) (fuel : Nat) (source : Nat → Char)
    (mem : HeapState) (hmem : Serves mem ∅) (hparse : HasTree fuel source)
    (hstored : (polskiscriptEvalString (kernelMemory bytes) fuel source mem).All Stored)
    (hhanded : Along StringLedger.next Handed .start
      (polskiscriptEvalString (kernelMemory bytes) fuel source mem).log) :
    StringsOwned (polskiscriptEvalString (kernelMemory bytes) fuel source mem) := by
  have hrun := owning_polskiscriptEvalString (lawful_kernelMemory bytes) hparse hmem
  have hall := along_and.mpr ⟨along_of_forall hstored, hhanded⟩
  rcases hrun.follows hall with ⟨howned, hend⟩
  exact ⟨howned, hrun.avoids hall, hend⟩

/-- A variable holds a string, and another string is printed. -/
def printsLiteral : Nat → Char := sourceOf "zmienna s = \"a\"; drukuj(\"b\");".toList

theorem strings_owned_literal :
    StringsOwned (polskiscriptEvalString (kernelMemory fun _ => 0) 60 printsLiteral readyHeap) :=
  strings_owned (fun _ => 0) 60 printsLiteral readyHeap serves_readyHeap (by decide +kernel)
    (by unfold Logged.All; decide +kernel) (by decide +kernel)

/-- A variable that holds a string is printed. -/
def printsVariable : Nat → Char := sourceOf "zmienna s = \"a\"; drukuj(s);".toList

instance error.decidable {κ : Type} [DecidableEq κ] (r : Except κ α) (k : κ) :
    Decidable (r = .error k) :=
  match r with
  | .ok _ => .isFalse nofun
  | .error j => decidable_of_iff (j = k) (Except.error.injEq j k ▸ Iff.rfl)

/-- PRINT frees the string of the variable, and `interpreter_free` frees it again. -/
theorem printed_variable_freed_twice :
    ¬∀ (bytes : HeapState → Int64) (fuel : Nat) (source : Nat → Char) (mem : HeapState),
      Serves mem ∅ → HasTree fuel source →
      (polskiscriptEvalString (kernelMemory bytes) fuel source mem).All Stored →
      StringsOwned (polskiscriptEvalString (kernelMemory bytes) fuel source mem) := by
  intro h
  have howned := h (fun _ => 0) 60 printsVariable readyHeap serves_readyHeap (by decide +kernel)
    (by unfold Logged.All; decide +kernel)
  exact howned.noPanic (by decide +kernel)

end PolandOS.PolskiScript
