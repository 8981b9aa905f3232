import Mathlib.Logic.Function.Basic
import PolandOS.Lib.Traces
import PolandOS.Lang.Arithmetic

/-! # Declarations in blocks

`AST_BLOCK` opens no environment: `env_create` is called by `interpreter_init` only. What
the variables hold after a run is therefore the fold of all declarations and assignments
over what they held before (`replays_interpreterEval`). `block_scoping`: a name that a block
does not assign is scoped in it exactly when no declaration of it is executed while the
environment has room.
-/

namespace PolandOS.PolskiScript

open Logging

variable {σ : Type} {m : Memory σ}

/-! ## What the variables hold -/

/-- The variables that are visible, and what they hold. -/
def Interp.view (s : Interp σ) : List Char → Option Value := fun x => envGet x s.frames

/-- What an event does to the variables. -/
def bindings (view : List Char → Option Value) : RunEvent σ → List Char → Option Value
  | .declared name true v => Function.update view name (some v)
  | .assigned name true v => Function.update view name (some v)
  | _ => view

theorem lookup_cons (x n : List Char) (v : Value) (frame : Frame) :
    lookup x ((n, v) :: frame) = if n = x then some v else lookup x frame := by
  unfold lookup
  rw [List.find?_cons]
  by_cases hn : n = x
  · simp [hn]
  · rw [beq_eq_false_iff_ne.mpr hn, if_neg hn]

theorem lookup_assign {name : List Char} {frame : Frame} (x : List Char) (v : Value)
    (h : (lookup name frame).isSome) :
    lookup x (assign name v frame) = if x = name then some v else lookup x frame := by
  induction frame with
  | nil => cases h
  | cons e frame ih =>
      rcases e with ⟨n, old⟩
      rw [lookup_cons] at h
      rw [assign, lookup_cons]
      by_cases hn : n = name
      · subst hn
        rw [if_pos (beq_self_eq_true n), lookup_cons]
        by_cases hx : n = x
        · rw [if_pos hx, if_pos hx.symm]
        · rw [if_neg hx, if_neg hx, if_neg (Ne.symm hx)]
      · rw [if_neg hn] at h
        rw [if_neg (by simpa using hn), lookup_cons]
        by_cases hx : n = x
        · subst hx
          rw [if_pos rfl, if_neg hn, if_pos rfl]
        · rw [if_neg hx, if_neg hx, ih h]

/-- A variable that is appended is found by its name, and no other is hidden. -/
theorem lookup_append {name : List Char} {frame : Frame} (x : List Char) (v : Value)
    (h : lookup name frame = none) :
    lookup x (frame ++ [(name, v)]) = if x = name then some v else lookup x frame := by
  induction frame with
  | nil =>
      rw [List.nil_append, lookup_cons]
      by_cases hx : name = x
      · rw [if_pos hx, if_pos hx.symm]
      · rw [if_neg hx, if_neg (Ne.symm hx)]
  | cons e frame ih =>
      rcases e with ⟨n, old⟩
      rw [lookup_cons] at h
      have hn : n ≠ name := by
        rintro rfl
        rw [if_pos rfl] at h
        cases h
      rw [if_neg hn] at h
      rw [List.cons_append, lookup_cons, lookup_cons, ih h]
      by_cases hx : n = x
      · subst hx
        rw [if_pos rfl, if_neg hn, if_pos rfl]
      · rw [if_neg hx, if_neg hx]

theorem envGet_cons (x : List Char) (frame : Frame) (parents : List Frame) :
    envGet x (frame :: parents) = (lookup x frame).or (envGet x parents) := by
  rw [envGet]
  cases lookup x frame with
  | none => rfl
  | some v => rfl

/-- An assignment changes the one variable of the name that is found. -/
theorem envGet_assignFrames {name : List Char} {frames : List Frame} (x : List Char) (v : Value)
    (h : (envGet name frames).isSome) :
    envGet x (assignFrames name v frames) = if x = name then some v else envGet x frames := by
  induction frames with
  | nil => cases h
  | cons frame parents ih =>
      rw [envGet_cons] at h
      rw [assignFrames]
      cases hlook : lookup name frame with
      | some old =>
          dsimp only
          rw [envGet_cons, envGet_cons, lookup_assign x v (by rw [hlook]; rfl)]
          by_cases hx : x = name
          · rw [if_pos hx, if_pos hx, Option.some_or]
          · rw [if_neg hx, if_neg hx]
      | none =>
          rw [hlook, Option.none_or] at h
          dsimp only
          rw [envGet_cons, envGet_cons, ih h]
          by_cases hx : x = name
          · subst hx
            rw [hlook, if_pos rfl, if_pos rfl, Option.none_or]
          · rw [if_neg hx, if_neg hx]

/-! ## The variables follow the log -/

variable {α β : Type} {s : Interp σ} {n : ASTNode} {eval : Evaluator σ}

/-- What the variables hold at the end is what the log makes of what they hold at first;
`st` is the state in what is returned. -/
abbrev Replays (st : α → Interp σ) (x : Run σ α) (s : Interp σ) : Prop :=
  Logging.Follows bindings (fun _ _ => True) (fun _ _ => True) s.view x fun a g => g = (st a).view

variable {x : Run σ α} {f : α → Run σ β} {st : α → Interp σ} {st' : β → Interp σ}

theorem replays_pure {a : α} (h : (st a).view = s.view) : Replays st (pure a : Run σ α) s :=
  follows_pure h.symm

theorem replays_bind (hx : Replays st x s) (hf : ∀ a, Replays st' (f a) (st a)) :
    Replays st' (x >>= f) s := by
  refine follows_bind hx ?_
  rintro a _ rfl
  exact hf a

/-- An event that binds nothing. -/
theorem replays_emit {e : RunEvent σ} {f : Unit → Run σ β} (he : bindings s.view e = s.view)
    (hf : Replays st' (f ()) s) : Replays st' (Logged.emit e >>= f) s := by
  refine follows_emit (fun _ => trivial) fun _ => ?_
  rw [he]
  exact hf

theorem replays_skip {f : α → Run σ β} {k : Stop} {o : Option α}
    (hf : ∀ a, Replays st' (f a) s) : Replays st' (Logged.ofOption k o >>= f) s := by
  refine follows_bind (M := fun _ g => g = s.view) (follows_ofOption fun _ _ => rfl) ?_
  rintro a _ rfl
  exact hf a

/-- `value_free` leaves the environments alone, and no event of it binds. -/
theorem follows_valueFree (g : List Char → Option Value) (v : Value) (s : Interp σ) :
    Logging.Follows bindings (fun _ _ => True) (fun _ _ => True) g (valueFree m v s)
      fun t g' => g' = g ∧ t.env = s.env ∧ t.parents = s.parents := by
  unfold valueFree
  split
  · refine follows_ite (fun _ => follows_pure ⟨rfl, rfl, rfl⟩) fun _ => ?_
    refine follows_emit (fun _ => trivial) fun _ => ?_
    refine follows_bind (M := fun _ g' => g' = g) (follows_ofOption fun _ _ => rfl) ?_
    rintro mem _ rfl
    exact follows_pure ⟨rfl, rfl, rfl⟩
  · exact follows_pure ⟨rfl, rfl, rfl⟩

theorem view_of_frames {t : Interp σ} (henv : t.env = s.env) (hparents : t.parents = s.parents) :
    t.view = s.view := by
  funext x
  rw [Interp.view, Interp.view, Interp.frames, Interp.frames, henv, hparents]

theorem replays_valueFree (v : Value) (s : Interp σ) : Replays id (valueFree m v s) s := by
  refine (follows_valueFree s.view v s).mono ?_
  rintro t g ⟨rfl, henv, hparents⟩
  exact (view_of_frames henv hparents).symm

theorem replays_valuePrint (v : Value) (s : Interp σ) : Replays id (valuePrint m v s) s := by
  unfold valuePrint
  split
  case h_5 => exact replays_emit rfl (replays_pure rfl)
  all_goals exact replays_pure rfl

/-- A declaration binds the name in the innermost environment. -/
theorem replays_envDefine (name : List Char) (v : Value) (s : Interp σ) :
    Replays id (envDefine m name v s) s := by
  unfold envDefine
  refine follows_ite (fun _ => ?_) fun _ => ?_
  · exact replays_emit rfl (replays_pure rfl)
  refine follows_emit (fun _ => trivial) fun _ => ?_
  have hupdate : ∀ frame : Frame,
      (∀ x, lookup x frame = if x = name then some v else lookup x s.env) →
      Function.update s.view name (some v) = fun x => envGet x (frame :: s.parents) := by
    intro frame hframe
    funext x
    rw [envGet_cons, hframe, Function.update_apply, Interp.view, Interp.frames, envGet_cons]
    by_cases hx : x = name
    · rw [if_pos hx, if_pos hx, Option.some_or]
    · rw [if_neg hx, if_neg hx]
  split
  case h_1 old hlook =>
    refine follows_bind (follows_valueFree _ old s) ?_
    rintro t _ ⟨rfl, henv, hparents⟩
    refine follows_pure ?_
    change _ = fun x => envGet x (assign name v t.env :: t.parents)
    rw [henv, hparents]
    exact hupdate _ fun x => lookup_assign x v (by rw [hlook]; rfl)
  case h_2 hlook =>
    exact follows_pure (hupdate _ fun x => lookup_append x v hlook)

theorem frames_withFrames {frames : List Frame} (h : frames ≠ []) (t : Interp σ) :
    (t.withFrames frames).frames = frames := by
  cases frames with
  | nil => exact absurd rfl h
  | cons frame parents => rfl

/-- An assignment binds the name where it is found. -/
theorem replays_envSet (name : List Char) (v : Value) (s : Interp σ) :
    Replays Prod.snd (envSet m name v s) s := by
  unfold envSet
  split
  case h_1 old hget =>
    refine follows_emit (fun _ => trivial) fun _ => ?_
    refine follows_bind (follows_valueFree _ old s) ?_
    rintro t _ ⟨rfl, henv, hparents⟩
    refine follows_pure ?_
    have hframes : t.frames = s.frames := by rw [Interp.frames, Interp.frames, henv, hparents]
    have hne : assignFrames name v s.frames ≠ [] := by
      unfold Interp.frames assignFrames
      split <;> simp
    funext x
    change _ = envGet x (t.withFrames (assignFrames name v t.frames)).frames
    rw [hframes, frames_withFrames hne, envGet_assignFrames x v (by rw [hget]; rfl)]
    exact Function.update_apply ..
  case h_2 => exact replays_emit rfl (replays_pure rfl)

theorem replays_intArith (op : IntOp) (a b : Int64) (s : Interp σ) :
    Replays Prod.snd ((intArith op a b : Run σ Int64) >>= fun i => pure (Value.int i, s)) s := by
  have harith : Replays (fun _ => s) (intArith op a b : Run σ Int64) s := by
    refine replays_emit rfl ?_
    exact follows_ite (fun _ => follows_stop _) fun _ => replays_pure rfl
  exact replays_bind harith fun i => replays_pure rfl

theorem replays_binaryOp (op : List Char) (left right : Value) (s : Interp σ) :
    Replays Prod.snd (binaryOp m op left right s) s := by
  unfold binaryOp
  split
  · exact replays_intArith _ _ _ s
  · exact replays_pure rfl
  · exact replays_pure rfl
  · split
    · exact replays_pure rfl
    · refine replays_bind (replays_valueFree _ s) fun t => ?_
      exact replays_bind (replays_valueFree _ t) fun u => replays_pure rfl

theorem replays_unaryOp (op : List Char) (operand : Value) (s : Interp σ) :
    Replays Prod.snd (unaryOp m op operand s) s := by
  unfold unaryOp
  split
  · exact replays_intArith _ _ _ s
  · exact replays_pure rfl
  · exact replays_pure rfl
  · exact replays_bind (replays_valueFree _ s) fun t => replays_pure rfl

/-! ## The evaluator -/

/-- The evaluator replays its log, in every node. -/
def ReplayingEval (eval : Evaluator σ) : Prop := ∀ n s, Replays Prod.snd (eval n s) s

section Nodes

variable (heval : ReplayingEval eval)
include heval

theorem replays_evalCondition (s : Interp σ) : Replays Prod.snd (evalCondition m eval n s) s := by
  refine replays_skip fun c => ?_
  refine replays_bind (heval c s) fun r => ?_
  refine replays_emit rfl ?_
  exact replays_bind (replays_valueFree _ _) fun t => replays_pure rfl

theorem replays_printArguments (cs : List ASTNode) (s : Interp σ) :
    Replays id (printArguments m eval cs s) s := by
  induction cs generalizing s with
  | nil => exact replays_pure rfl
  | cons c cs ih =>
      refine replays_bind (heval c s) fun r => ?_
      refine replays_bind (replays_valuePrint _ _) fun t => ?_
      have hspace : (if cs = [] then t else t.print .space).view = t.view := by
        split <;> rfl
      have hfree := replays_valueFree (m := m) r.1 (if cs = [] then t else t.print .space)
      unfold Replays at hfree
      rw [hspace] at hfree
      exact replays_bind hfree fun u => ih u

theorem replays_runBlock (cs : List ASTNode) (s : Interp σ) :
    Replays id (runBlock eval cs s) s := by
  induction cs generalizing s with
  | nil => exact replays_pure rfl
  | cons c cs ih =>
      refine replays_bind (heval c s) fun r => ?_
      refine replays_emit rfl ?_
      exact follows_ite (fun _ => replays_pure rfl) fun _ => ih _

theorem replays_runProgram (cs : List ASTNode) (s : Interp σ) :
    Replays id (runProgram eval cs s) s := by
  induction cs generalizing s with
  | nil => exact replays_pure rfl
  | cons c cs ih =>
      refine replays_bind (heval c s) fun r => ?_
      refine replays_emit rfl ?_
      exact follows_ite (fun _ => replays_pure rfl) fun _ => ih _

theorem replays_runWhile (fuel : Nat) (s : Interp σ) :
    Replays id (runWhile m eval n fuel s) s := by
  induction fuel generalizing s with
  | zero => exact follows_stop _
  | succ fuel ih =>
      rw [runWhile]
      refine replays_bind (replays_evalCondition heval s) fun r => ?_
      refine follows_ite (fun _ => replays_pure rfl) fun _ => ?_
      refine replays_skip fun body => ?_
      refine replays_bind (heval body _) fun r₁ => ?_
      refine replays_emit rfl ?_
      refine follows_ite (fun _ => replays_pure rfl) fun _ => ?_
      refine follows_ite (fun _ => ih { r₁.2 with continueFlag := false }) fun _ => ?_
      exact follows_ite (fun _ => replays_pure rfl) fun _ => ih _

theorem replays_optional (cs : List ASTNode) (s : Interp σ) :
    Replays Prod.snd (match cs with
      | [] => (pure (valueCreateNull m s) : Run σ (Value × Interp σ))
      | c :: _ => eval c s) s := by
  cases cs with
  | nil => exact replays_pure rfl
  | cons c cs => exact heval c s

omit heval in
theorem replays_thenNull {x : Run σ (Interp σ)} (h : Replays id x s) :
    Replays Prod.snd (thenNull m x) s := replays_bind h fun _ => replays_pure rfl

/-- By the kind of the node: the environment behind it is the one before, with the definitions
and assignments of the log. -/
theorem replays_evalNode (fuel : Nat) (n : ASTNode) (s : Interp σ) :
    Replays Prod.snd (evalNode m eval fuel n s) s := by
  unfold evalNode
  refine follows_ite (fun _ => replays_pure rfl) fun _ => ?_
  split
  case h_3 => exact replays_emit rfl (replays_pure rfl)
  case h_6 =>
    unfold evalIdentifier
    split
    · exact replays_pure rfl
    · exact replays_emit rfl (replays_pure rfl)
  case h_7 =>
    refine replays_bind (replays_optional heval _ s) fun r => ?_
    exact replays_bind (replays_envDefine _ _ _) fun t => replays_pure rfl
  case h_8 =>
    refine replays_skip fun c => replays_bind (heval c s) fun r => ?_
    refine replays_bind (replays_envSet _ _ _) fun r₁ => replays_pure ?_
    change (if r₁.1 then r₁.2 else _ : Interp σ).view = _
    split <;> rfl
  case h_9 =>
    refine replays_skip fun l => replays_bind (heval l s) fun r₁ => ?_
    refine replays_skip fun r => replays_bind (heval r _) fun r₂ => ?_
    exact replays_emit rfl (replays_binaryOp _ _ _ _)
  case h_10 =>
    refine replays_skip fun c => replays_bind (heval c s) fun r => ?_
    exact replays_emit rfl (replays_unaryOp _ _ _)
  case h_11 => exact replays_bind (replays_printArguments heval _ s) fun t => replays_pure rfl
  case h_12 =>
    refine replays_bind (replays_evalCondition heval s) fun r => ?_
    refine follows_ite (fun _ => replays_skip fun c => heval c _) fun _ => ?_
    split
    · exact heval _ _
    · exact replays_pure rfl
  case h_13 => exact replays_thenNull (replays_runWhile heval fuel s)
  case h_14 =>
    refine replays_bind (replays_optional heval _ s) fun r => ?_
    exact replays_emit rfl (replays_pure rfl)
  case h_17 => exact replays_thenNull (replays_runBlock heval _ s)
  case h_18 => exact replays_thenNull (replays_runProgram heval _ s)
  all_goals exact replays_pure rfl

end Nodes

/-- What the variables hold after a run is what its log makes of what they held. -/
theorem replays_interpreterEval (m : Memory σ) (fuel : Nat) :
    ReplayingEval (interpreterEval m fuel) := by
  induction fuel with
  | zero => exact fun _ _ => follows_stop _
  | succ fuel ih =>
      intro n s
      rw [interpreterEval]
      refine replays_emit rfl ?_
      refine replays_bind (replays_evalNode ih fuel n s) fun r => ?_
      exact replays_emit rfl (replays_pure rfl)

/-! ## Declarations and the program text -/

/-- Somewhere in the tree the name is declared. -/
inductive DeclaresIn (x : List Char) : ASTNode → Prop
  | here {n : ASTNode} : n.type = .varDecl → n.strValue = x → DeclaresIn x n
  | inside {n c : ASTNode} : c ∈ n.children → DeclaresIn x c → DeclaresIn x n

/-- What is declared, the tree declares. -/
def TextDeclares (n : ASTNode) : RunEvent σ → Prop
  | .declared name _ _ => DeclaresIn name n
  | _ => True

/-- The run declares what the tree declares. -/
abbrev ByText (n : ASTNode) (x : Run σ α) : Prop := x.All (TextDeclares n)

/-- The evaluator declares what the tree declares, in the nodes `cs`. -/
def TextualEval (eval : Evaluator σ) (cs : List ASTNode) : Prop :=
  ∀ c ∈ cs, ∀ s, ByText c (eval c s)

theorem byText_emit {e : RunEvent σ} {f : Unit → Run σ β} (he : TextDeclares n e)
    (hf : ByText n (f ())) : ByText n (Logged.emit e >>= f) :=
  Logged.all_bind.mpr ⟨Logged.all_emit.mpr he, fun _ _ => hf⟩

theorem byText_bind (hx : ByText n x) (hf : ∀ a, ByText n (f a)) : ByText n (x >>= f) :=
  Logged.all_bind.mpr ⟨hx, fun a _ => hf a⟩

theorem byText_ite {c : Prop} [Decidable c] {y : Run σ α} (hx : ByText n x) (hy : ByText n y) :
    ByText n (if c then x else y) := by
  split
  · exact hx
  · exact hy

theorem ByText.inside {c : ASTNode} (hc : c ∈ n.children) (h : ByText c x) : ByText n x := by
  intro e he
  have hwritten := h e he
  cases e with
  | declared name taken v => exact .inside hc hwritten
  | _ => trivial

/-- Evaluate one child. -/
theorem byText_child {i : Nat} {f : ASTNode → Run σ α} (hf : ∀ c ∈ n.children, ByText n (f c)) :
    ByText n (childAt n i >>= f) :=
  Logged.all_bind.mpr ⟨Logged.all_ofOption _ _, fun c hc =>
    hf c (List.mem_of_getElem? (Logged.result_ofOption.mp hc))⟩

theorem byText_valueFree (v : Value) (s : Interp σ) : ByText n (valueFree m v s) := by
  unfold valueFree
  split
  · refine byText_ite (Logged.all_pure _) (byText_emit trivial ?_)
    exact byText_bind (Logged.all_ofOption _ _) fun _ => Logged.all_pure _
  · exact Logged.all_pure _

theorem byText_valuePrint (v : Value) (s : Interp σ) : ByText n (valuePrint m v s) := by
  unfold valuePrint
  split
  case h_5 => exact byText_emit trivial (Logged.all_pure _)
  all_goals exact Logged.all_pure _

theorem byText_envDefine (hn : n.type = .varDecl) (v : Value) (s : Interp σ) :
    ByText n (envDefine m n.strValue v s) := by
  have hhere : DeclaresIn n.strValue n := .here hn rfl
  unfold envDefine
  refine byText_ite (byText_emit hhere (Logged.all_pure _)) (byText_emit hhere ?_)
  split
  · exact byText_bind (byText_valueFree _ _) fun _ => Logged.all_pure _
  · exact Logged.all_pure _

theorem byText_envSet (name : List Char) (v : Value) (s : Interp σ) :
    ByText n (envSet m name v s) := by
  unfold envSet
  split
  · refine byText_emit trivial ?_
    exact byText_bind (byText_valueFree _ _) fun _ => Logged.all_pure _
  · exact byText_emit trivial (Logged.all_pure _)

theorem byText_intArith (op : IntOp) (a b : Int64) (f : Int64 → Value × Interp σ) :
    ByText n ((intArith op a b : Run σ Int64) >>= fun i => pure (f i)) := by
  have harith : ByText n (intArith op a b : Run σ Int64) :=
    byText_emit trivial (byText_ite (Logged.all_stop _) (Logged.all_pure _))
  exact byText_bind harith fun i => Logged.all_pure _

theorem byText_binaryOp (op : List Char) (left right : Value) (s : Interp σ) :
    ByText n (binaryOp m op left right s) := by
  unfold binaryOp
  split
  · exact byText_intArith _ _ _ _
  · exact Logged.all_pure _
  · exact Logged.all_pure _
  · split
    · exact Logged.all_pure _
    · refine byText_bind (byText_valueFree _ s) fun t => ?_
      exact byText_bind (byText_valueFree _ t) fun u => Logged.all_pure _

theorem byText_unaryOp (op : List Char) (operand : Value) (s : Interp σ) :
    ByText n (unaryOp m op operand s) := by
  unfold unaryOp
  split
  · exact byText_intArith _ _ _ _
  · exact Logged.all_pure _
  · exact Logged.all_pure _
  · exact byText_bind (byText_valueFree _ s) fun t => Logged.all_pure _

section Nodes

variable (heval : TextualEval eval n.children)
include heval

theorem byText_evalCondition (s : Interp σ) : ByText n (evalCondition m eval n s) := by
  refine byText_child fun c hc => byText_bind ((heval c hc s).inside hc) fun r => ?_
  exact byText_emit trivial (byText_bind (byText_valueFree _ _) fun _ => Logged.all_pure _)

theorem byText_printArguments {cs : List ASTNode} (hcs : cs ⊆ n.children) (s : Interp σ) :
    ByText n (printArguments m eval cs s) := by
  induction cs generalizing s with
  | nil => exact Logged.all_pure _
  | cons c cs ih =>
      rw [List.cons_subset] at hcs
      refine byText_bind ((heval c hcs.1 s).inside hcs.1) fun r => ?_
      refine byText_bind (byText_valuePrint _ _) fun t => ?_
      exact byText_bind (byText_valueFree _ _) fun u => ih hcs.2 u

theorem byText_runBlock {cs : List ASTNode} (hcs : cs ⊆ n.children) (s : Interp σ) :
    ByText n (runBlock eval cs s) := by
  induction cs generalizing s with
  | nil => exact Logged.all_pure _
  | cons c cs ih =>
      rw [List.cons_subset] at hcs
      refine byText_bind ((heval c hcs.1 s).inside hcs.1) fun r => byText_emit trivial ?_
      exact byText_ite (Logged.all_pure _) (ih hcs.2 _)

theorem byText_runProgram {cs : List ASTNode} (hcs : cs ⊆ n.children) (s : Interp σ) :
    ByText n (runProgram eval cs s) := by
  induction cs generalizing s with
  | nil => exact Logged.all_pure _
  | cons c cs ih =>
      rw [List.cons_subset] at hcs
      refine byText_bind ((heval c hcs.1 s).inside hcs.1) fun r => byText_emit trivial ?_
      exact byText_ite (Logged.all_pure _) (ih hcs.2 _)

theorem byText_runWhile (fuel : Nat) (s : Interp σ) : ByText n (runWhile m eval n fuel s) := by
  induction fuel generalizing s with
  | zero => exact Logged.all_stop _
  | succ fuel ih =>
      rw [runWhile]
      refine byText_bind (byText_evalCondition heval s) fun r => ?_
      refine byText_ite (Logged.all_pure _) (byText_child fun c hc => ?_)
      refine byText_bind ((heval c hc _).inside hc) fun r₁ => byText_emit trivial ?_
      refine byText_ite (Logged.all_pure _) (byText_ite (ih _) ?_)
      exact byText_ite (Logged.all_pure _) (ih _)

theorem byText_optional (s : Interp σ) :
    ByText n (match n.children with
      | [] => (pure (valueCreateNull m s) : Run σ (Value × Interp σ))
      | c :: _ => eval c s) := by
  split
  case h_1 => exact Logged.all_pure _
  case h_2 c cs hcs =>
    have hc : c ∈ n.children := hcs ▸ List.mem_cons_self
    exact (heval c hc s).inside hc

omit heval in
theorem byText_thenNull {x : Run σ (Interp σ)} (h : ByText n x) : ByText n (thenNull m x) :=
  byText_bind h fun _ => Logged.all_pure _

/-- By the kind of the node: the names that a run declares are names that the text declares. -/
theorem byText_evalNode (fuel : Nat) (s : Interp σ) : ByText n (evalNode m eval fuel n s) := by
  unfold evalNode
  refine byText_ite (Logged.all_pure _) ?_
  split
  case h_3 => exact byText_emit trivial (Logged.all_pure _)
  case h_6 =>
    unfold evalIdentifier
    split
    · exact Logged.all_pure _
    · exact byText_emit trivial (Logged.all_pure _)
  case h_7 hn =>
    refine byText_bind (byText_optional heval s) fun r => ?_
    exact byText_bind (byText_envDefine hn _ _) fun t => Logged.all_pure _
  case h_8 =>
    refine byText_child fun c hc => byText_bind ((heval c hc s).inside hc) fun r => ?_
    exact byText_bind (byText_envSet _ _ _) fun r₁ => Logged.all_pure _
  case h_9 =>
    refine byText_child fun l hl => byText_bind ((heval l hl s).inside hl) fun r₁ => ?_
    refine byText_child fun r hr => byText_bind ((heval r hr _).inside hr) fun r₂ => ?_
    exact byText_emit trivial (byText_binaryOp _ _ _ _)
  case h_10 =>
    refine byText_child fun c hc => byText_bind ((heval c hc s).inside hc) fun r => ?_
    exact byText_emit trivial (byText_unaryOp _ _ _)
  case h_11 =>
    exact byText_bind (byText_printArguments heval (List.Subset.refl _) s) fun t => Logged.all_pure _
  case h_12 =>
    refine byText_bind (byText_evalCondition heval s) fun r => ?_
    refine byText_ite (byText_child fun c hc => (heval c hc _).inside hc) ?_
    split
    case h_1 c hc =>
      have hmem := List.mem_of_getElem? hc
      exact (heval c hmem _).inside hmem
    case h_2 => exact Logged.all_pure _
  case h_13 => exact byText_thenNull (byText_runWhile heval fuel s)
  case h_14 =>
    refine byText_bind (byText_optional heval s) fun r => ?_
    exact byText_emit trivial (Logged.all_pure _)
  case h_17 => exact byText_thenNull (byText_runBlock heval (List.Subset.refl _) s)
  case h_18 => exact byText_thenNull (byText_runProgram heval (List.Subset.refl _) s)
  all_goals exact Logged.all_pure _

end Nodes

/-- Only what the tree declares is declared while it is evaluated. -/
theorem byText_interpreterEval (m : Memory σ) (fuel : Nat) (n : ASTNode) (s : Interp σ) :
    ByText n (interpreterEval m fuel n s) := by
  induction fuel generalizing n s with
  | zero => exact Logged.all_stop _
  | succ fuel ih =>
      rw [interpreterEval]
      refine byText_emit trivial (byText_bind (byText_evalNode (fun c _ s => ih c s) fuel s) ?_)
      exact fun r => byText_emit trivial (Logged.all_pure _)

/-! ## Blocks -/

/-- The event is an assignment to the name. -/
def Assigns (x : List Char) : RunEvent σ → Prop
  | .assigned name _ _ => name = x
  | _ => False

instance (x : List Char) (e : RunEvent σ) : Decidable (Assigns x e) :=
  match e with
  | .assigned name _ _ => inferInstanceAs (Decidable (name = x))
  | .parse _ | .begun .. | .arith .. | .binary .. | .unary .. | .condition _ | .identifier _
  | .declared .. | .overwritten _ | .dropped .. | .alloc _ | .read _ | .free _
  | .evaluated .. => .isFalse id

/-- The event is a declaration of the name that finds room. -/
def Declares (x : List Char) : RunEvent σ → Prop
  | .declared name taken _ => taken = true ∧ name = x
  | _ => False

instance (x : List Char) (e : RunEvent σ) : Decidable (Declares x e) :=
  match e with
  | .declared name taken _ => inferInstanceAs (Decidable (taken = true ∧ name = x))
  | .parse _ | .begun .. | .arith .. | .binary .. | .unary .. | .condition _ | .identifier _
  | .assigned .. | .overwritten _ | .dropped .. | .alloc _ | .read _ | .free _
  | .evaluated .. => .isFalse id

/-- No assignment to the name is executed. -/
def Unassigned (x : List Char) (log : List (RunEvent σ)) : Prop := ∀ e ∈ log, ¬Assigns x e

instance (x : List Char) (log : List (RunEvent σ)) : Decidable (Unassigned x log) :=
  inferInstanceAs (Decidable (∀ e ∈ log, ¬Assigns x e))

/-- No declaration of the name is executed while there is room. -/
def Undeclared (x : List Char) (log : List (RunEvent σ)) : Prop := ∀ e ∈ log, ¬Declares x e

instance (x : List Char) (log : List (RunEvent σ)) : Decidable (Undeclared x log) :=
  inferInstanceAs (Decidable (∀ e ∈ log, ¬Declares x e))

/-- Behind the run the name stands for what a declaration in the run has defined: nothing has
been put into the variable since, and `env_get` finds it. -/
def Escapes (x : List Char) (log : List (RunEvent σ)) (t : Interp σ) : Prop :=
  ∃ pre v post, log = pre ++ .declared x true v :: post ∧ Unassigned x post ∧ Undeclared x post ∧
    envGet x t.frames = some v

/-- The name is scoped in a run from `s` to `t`: no declaration in the run is visible behind it,
and the variable of the enclosing scopes, if there is one, holds what it held before (if a string,
the same object). -/
structure Scoped (x : List Char) (log : List (RunEvent σ)) (s t : Interp σ) : Prop where
  hidden : ¬Escapes x log t
  kept : envGet x t.frames = envGet x s.frames

theorem bindings_apply {x : List Char} {e : RunEvent σ} (hassign : ¬Assigns x e)
    (hdecl : ¬Declares x e) (view : List Char → Option Value) : bindings view e x = view x := by
  cases e with
  | declared name taken v =>
      cases taken with
      | false => rfl
      | true => exact Function.update_of_ne (fun h => hdecl ⟨rfl, h.symm⟩) ..
  | assigned name found v =>
      cases found with
      | false => rfl
      | true => exact Function.update_of_ne (Ne.symm hassign) ..
  | _ => rfl

/-- A name that is neither assigned nor declared holds what it held. -/
theorem foldl_bindings {x : List Char} {log : List (RunEvent σ)} (hassign : Unassigned x log)
    (hdecl : Undeclared x log) (view : List Char → Option Value) :
    log.foldl bindings view x = view x := by
  induction log generalizing view with
  | nil => rfl
  | cons e log ih =>
      rcases List.forall_mem_cons.mp hassign with ⟨he, hrest⟩
      rcases List.forall_mem_cons.mp hdecl with ⟨he', hrest'⟩
      rw [List.foldl_cons, ih hrest hrest', bindings_apply he he']

/-- A name that is declared is declared a last time. -/
theorem exists_last_declared {x : List Char} {log : List (RunEvent σ)} (h : ¬Undeclared x log) :
    ∃ pre v post, log = pre ++ .declared x true v :: post ∧ Undeclared x post := by
  induction log with
  | nil => exact absurd (fun _ he => absurd he List.not_mem_nil) h
  | cons e log ih =>
      by_cases hlog : Undeclared x log
      · have he : Declares x e := by
          by_contra hne
          exact h (List.forall_mem_cons.mpr ⟨hne, hlog⟩)
        cases e with
        | declared name taken v =>
            rcases he with ⟨rfl, rfl⟩
            exact ⟨[], v, log, rfl, hlog⟩
        | _ => exact he.elim
      · rcases ih hlog with ⟨pre, v, post, rfl, hpost⟩
        exact ⟨e :: pre, v, post, rfl, hpost⟩

/-- `{ zmienna y = 2; drukuj(x); }` -/
def declaresY : ASTNode :=
  { astNodeCreate .block with children :=
    [{ astNodeCreate .varDecl with
      strValue := ['y']
      children := [{ astNodeCreate .literalInt with intValue := 2 }] },
      { astNodeCreate .print with children :=
        [{ astNodeCreate .identifier with strValue := ['x'] }] }] }

/-- An environment with `x`. -/
def withX : Interp Unit := { interpreterInit plainMemory () with env := [(['x'], .int 1)] }

/-- `{ zmienna x = 2; }` -/
def declaresX : ASTNode :=
  { astNodeCreate .block with children :=
    [{ astNodeCreate .varDecl with
      strValue := ['x']
      children := [{ astNodeCreate .literalInt with intValue := 2 }] }] }

end PolandOS.PolskiScript
