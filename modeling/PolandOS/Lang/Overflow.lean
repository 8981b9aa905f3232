import PolandOS.Lib.Paired
import PolandOS.Lang.Unbounded

/-! # Overflow

The interpreter computes with `i64` and checks nothing but the zero of `/`.
`arithmetic_defined_iff`: a run executes every integer operation where it is defined exactly if
the program, over unbounded integers and in the same environment, stays in range: every literal
and every result fits `i64`, and no divisor is zero. As long as it does, the state of the machine
is the state of the unbounded evaluator (`mirrored_interpreterEval`).
-/

namespace PolandOS.PolskiScript

open Logging Logged

namespace Unbounded

variable {σ : Type}

/-! ## Operations -/

theorem inRange_toInt (a : Int64) : InRange a.toInt := by
  have hlow := Int64.minValue_le_toInt a
  rw [Int64.toInt_minValue] at hlow
  exact ⟨hlow, Int64.toInt_lt a⟩

theorem inRange_bmod {z : Int} (h : InRange z) : z.bmod (2 ^ 64) = z := by
  rcases h with ⟨hlow, hhigh⟩
  exact Int.bmod_eq_of_le (by omega) (by omega)

/-- The one quotient that does not fit. -/
theorem inRange_tdiv (a b : Int64) :
    InRange (a.toInt.tdiv b.toInt) ↔ ¬(a = Int64.minValue ∧ b = -1) := by
  constructor
  · rintro h ⟨rfl, rfl⟩
    exact absurd h (by decide)
  · intro h
    by_cases ha : a = Int64.minValue
    · rw [← Int64.toInt_div_of_ne_right a b fun hb => h ⟨ha, hb⟩]
      exact inRange_toInt _
    · rw [← Int64.toInt_div_of_ne_left a b ha]
      exact inRange_toInt _

/-- An operation on `i64` is defined if it stays in range. -/
theorem defined_iff (op : IntOp) (a b : Int64) :
    op.Defined a b ↔ OperationFits op a.toInt b.toInt := by
  have hzero : b ≠ 0 ↔ b.toInt ≠ 0 := by
    rw [ne_eq, ← Int64.toInt_inj]
    rfl
  cases op with
  | add | sub | mul | neg => exact Iff.rfl
  | div | mod => exact and_congr hzero (inRange_tdiv a b).symm

/-- And then it does not trap, and its result is exact. -/
theorem run_exact {op : IntOp} {a b : Int64} (h : op.Defined a b) :
    ¬traps op a b ∧ (op.run a b).toInt = compute op a.toInt b.toInt := by
  cases op with
  | add => exact ⟨by simp [traps], (Int64.toInt_add a b).trans (inRange_bmod h)⟩
  | sub => exact ⟨by simp [traps], (Int64.toInt_sub a b).trans (inRange_bmod h)⟩
  | mul => exact ⟨by simp [traps], (Int64.toInt_mul a b).trans (inRange_bmod h)⟩
  | neg => exact ⟨by simp [traps], (Int64.toInt_neg a).trans (inRange_bmod h)⟩
  | div =>
      rcases h with ⟨hzero, hmin⟩
      refine ⟨fun htraps => htraps.2.elim hzero hmin, ?_⟩
      exact (Int64.toInt_div a b).trans (inRange_bmod ((inRange_tdiv a b).mpr hmin))
  | mod =>
      rcases h with ⟨hzero, hmin⟩
      exact ⟨fun htraps => htraps.2.elim hzero hmin, Int64.toInt_mod a b⟩

/-! ## Images -/

/-- A value of the machine. -/
def Value.of : PolskiScript.Value → Value
  | .null bytes => .null bytes
  | .int i => .int i.toInt
  | .float x => .float x
  | .bool b bytes => .bool b bytes
  | .string p => .string p

/-- An environment of the machine. -/
def Frame.of (frame : PolskiScript.Frame) : Frame := frame.map fun e => (e.1, Value.of e.2)

/-- The interpreter. -/
def Interp.of (s : PolskiScript.Interp σ) : Interp σ where
  env := Frame.of s.env
  parents := s.parents.map Frame.of
  breakFlag := s.breakFlag
  continueFlag := s.continueFlag
  returnFlag := s.returnFlag
  returnValue := Value.of s.returnValue
  hasError := s.hasError
  mem := s.mem

/-- What an evaluation returns. -/
def resultOf (r : PolskiScript.Value × PolskiScript.Interp σ) : Value × Interp σ :=
  (Value.of r.1, Interp.of r.2)

/-- The part of `AST_BINARY_OP` that is arithmetic. -/
def Arithmetic.of : PolskiScript.Arithmetic → Arithmetic
  | .int op a b => .int op a.toInt b.toInt
  | .float x => .float x
  | .divideByZero => .divideByZero

@[simp] theorem bounded_of (v : PolskiScript.Value) : (Value.of v).bounded = v := by
  cases v with
  | int i => exact congrArg PolskiScript.Value.int (Int64.ofInt_toInt i)
  | null | float | bool | string => rfl

theorem ne_zero_of (i : Int64) : (i.toInt != 0) = (i != 0) := by
  rw [Bool.eq_iff_iff, bne_iff_ne, bne_iff_ne, ne_eq, ne_eq, ← Int64.toInt_inj]
  rfl

@[simp] theorem isTrue_of (v : PolskiScript.Value) : (Value.of v).isTrue = v.isTrue := by
  cases v with
  | int i => exact ne_zero_of i
  | null | float | bool | string => rfl

theorem lookup_of (name : List Char) (frame : PolskiScript.Frame) :
    lookup name (Frame.of frame) = (PolskiScript.lookup name frame).map Value.of := by
  unfold lookup PolskiScript.lookup Frame.of
  rw [List.find?_map, Option.map_map, Option.map_map]
  rfl

theorem envGet_of (name : List Char) (frames : List PolskiScript.Frame) :
    envGet name (frames.map Frame.of) = (PolskiScript.envGet name frames).map Value.of := by
  induction frames with
  | nil => rfl
  | cons frame frames ih =>
      rw [List.map_cons, envGet, PolskiScript.envGet, lookup_of]
      cases PolskiScript.lookup name frame with
      | none => exact ih
      | some v => rfl

theorem assign_of (name : List Char) (v : PolskiScript.Value) (frame : PolskiScript.Frame) :
    assign name (Value.of v) (Frame.of frame) = Frame.of (PolskiScript.assign name v frame) := by
  induction frame with
  | nil => rfl
  | cons e frame ih =>
      rcases e with ⟨n, old⟩
      change (if n == name then (n, Value.of v) :: Frame.of frame
        else (n, Value.of old) :: assign name (Value.of v) (Frame.of frame)) = _
      rw [PolskiScript.assign, ih]
      split <;> rfl

theorem assignFrames_of (name : List Char) (v : PolskiScript.Value)
    (frames : List PolskiScript.Frame) :
    assignFrames name (Value.of v) (frames.map Frame.of) =
      (PolskiScript.assignFrames name v frames).map Frame.of := by
  induction frames with
  | nil => rfl
  | cons frame frames ih =>
      rw [List.map_cons, assignFrames, PolskiScript.assignFrames, lookup_of]
      cases PolskiScript.lookup name frame with
      | none => exact congrArg (Frame.of frame :: ·) ih
      | some old => exact congrArg (· :: frames.map Frame.of) (assign_of name v frame)

theorem withFrames_of (s : PolskiScript.Interp σ) (frames : List PolskiScript.Frame) :
    Interp.of (s.withFrames frames) = (Interp.of s).withFrames (frames.map Frame.of) := by
  cases frames <;> rfl

section Operators

variable (l r : PolskiScript.Value)

theorem arithmeticOn_of (op : IntOp) (f : Float → Float → Float) :
    arithmeticOn op f (Value.of l) (Value.of r) =
      (PolskiScript.arithmeticOn op f l r).map Arithmetic.of := by
  have hmixed : (if (Value.of l).bounded.isFloat || (Value.of r).bounded.isFloat then
      some (Arithmetic.float (f (Value.of l).bounded.asDouble (Value.of r).bounded.asDouble))
      else none) = (if l.isFloat || r.isFloat then
        some (PolskiScript.Arithmetic.float (f l.asDouble r.asDouble)) else none).map
          Arithmetic.of := by
    rw [bounded_of, bounded_of]
    split <;> rfl
  cases l with
  | int a =>
      cases r with
      | int b => rfl
      | null | float | bool | string => exact hmixed
  | null | float | bool | string => exact hmixed

theorem arithmetic_of (op : Char) : arithmetic op (Value.of l) (Value.of r) =
    (PolskiScript.arithmetic op l r).map Arithmetic.of := by
  unfold arithmetic PolskiScript.arithmetic
  rw [arithmeticOn_of, arithmeticOn_of, arithmeticOn_of]
  simp only [apply_ite (Option.map Arithmetic.of)]
  refine if_congr Iff.rfl rfl (if_congr Iff.rfl rfl (if_congr Iff.rfl rfl
    (if_congr Iff.rfl ?_ (if_congr Iff.rfl ?_ rfl))))
  · cases l with
    | int a =>
        cases r with
        | int b =>
            have hzero : b.toInt = 0 ↔ b = 0 := by
              rw [← Int64.toInt_inj]
              rfl
            change (if b.toInt = 0 then _ else _) = Option.map Arithmetic.of (if b = 0 then _ else _)
            rw [apply_ite (Option.map Arithmetic.of)]
            exact if_congr hzero rfl rfl
        | null | float | bool | string => rfl
    | null | float | bool | string => cases r <;> rfl
  · cases l <;> cases r <;> rfl

theorem ifInts_of {f : Int → Int → Bool} {g : Int64 → Int64 → Bool}
    (h : ∀ a b : Int64, f a.toInt b.toInt = g a b) :
    ifInts f (Value.of l) (Value.of r) = PolskiScript.ifInts g l r := by
  cases l with
  | int a =>
      cases r with
      | int b => exact congrArg some (h a b)
      | null | float | bool | string => rfl
  | null | float | bool | string => cases r <;> rfl

theorem comparison_of (op : List Char) :
    comparison op (Value.of l) (Value.of r) = PolskiScript.comparison op l r := by
  have heq : ∀ a b : Int64, (a.toInt == b.toInt) = (a == b) := fun a b => by
    rw [Bool.eq_iff_iff, beq_iff_eq, beq_iff_eq, Int64.toInt_inj]
  have hne : ∀ a b : Int64, (a.toInt != b.toInt) = (a != b) := fun a b => by
    rw [bne, bne, heq]
  have hlt : ∀ a b : Int64, decide (a.toInt < b.toInt) = decide (a < b) := fun a b =>
    decide_eq_decide.mpr Int64.lt_iff_toInt_lt.symm
  have hle : ∀ a b : Int64, decide (a.toInt ≤ b.toInt) = decide (a ≤ b) := fun a b =>
    decide_eq_decide.mpr Int64.le_iff_toInt_le.symm
  unfold comparison PolskiScript.comparison
  rw [ifInts_of l r heq, ifInts_of l r hne, ifInts_of l r hlt, ifInts_of l r fun a b => hlt b a,
    ifInts_of l r hle, ifInts_of l r fun a b => hle b a]

theorem logical_of (op : List Char) :
    logical op (Value.of l) (Value.of r) = PolskiScript.logical op l r := by
  unfold logical PolskiScript.logical
  rw [isTrue_of, isTrue_of]

end Operators

/-! ## The same evaluation -/

/-- The one run executes defined operations exactly if the other one stays in range, and then the
other one returns the image. -/
abbrev Mirrors {α β : Type} (g : α → β) (x : PolskiScript.Run σ α) (x' : Run β) : Prop :=
  Mirrored OpDefined EventFits g x x'

variable {m : Memory σ} {n : ASTNode} {s : PolskiScript.Interp σ}

theorem mirrored_intArith (op : IntOp) (a b : Int64) :
    Mirrors Int64.toInt (PolskiScript.intArith op a b : PolskiScript.Run σ Int64)
      (intArith op a.toInt b.toInt) := by
  refine mirrored_emit (defined_iff op a b) fun hdefined => ?_
  rcases run_exact hdefined with ⟨htraps, hexact⟩
  rw [if_neg htraps]
  exact mirrored_pure hexact

theorem mirrored_valueFree (v : PolskiScript.Value) (s : PolskiScript.Interp σ) :
    Mirrors Interp.of (PolskiScript.valueFree m v s) (valueFree m (Value.of v) (Interp.of s)) := by
  cases v with
  | string p =>
      refine mirrored_ite Iff.rfl (fun _ => mirrored_pure rfl) fun _ => ?_
      refine mirrored_silent trivial ?_
      have hfree : Mirrors id (Logged.ofOption .panic (m.kfree p s.mem) : PolskiScript.Run σ σ)
          (Logged.ofOption .panic (m.kfree p s.mem)) := mirrored_ofOption Option.map_id'.symm
      exact mirrored_bind hfree fun mem => mirrored_pure rfl
  | null | int | float | bool => exact mirrored_pure rfl

/-- What is printed is neither an integer operation nor in the image. -/
theorem mirrored_valuePrint {β : Type} (v : PolskiScript.Value) (s : PolskiScript.Interp σ)
    {f : PolskiScript.Interp σ → PolskiScript.Run σ β} {β' : Type} {g : β → β'} {y : Run β'}
    (hf : ∀ t, Interp.of t = Interp.of s → Mirrors g (f t) y) :
    Mirrors g (PolskiScript.valuePrint m v s >>= f) y := by
  cases v with
  | string p =>
      have hread : PolskiScript.valuePrint m (.string p) s >>= f =
          Logged.emit (.read p) >>= fun _ => f (s.print (.text (m.stringAt p s.mem))) := rfl
      rw [hread]
      exact mirrored_silent trivial (hf _ rfl)
  | null | int | float | bool => exact hf _ rfl

theorem mirrored_envDefine (name : List Char) (v : PolskiScript.Value)
    (s : PolskiScript.Interp σ) : Mirrors Interp.of (PolskiScript.envDefine m name v s)
      (envDefine m name (Value.of v) (Interp.of s)) := by
  unfold envDefine PolskiScript.envDefine
  have hlength : (Interp.of s).env.length = s.env.length := List.length_map ..
  refine mirrored_ite (by rw [hlength]) (fun _ => ?_) fun _ => ?_
  · exact mirrored_silent trivial (mirrored_pure rfl)
  refine mirrored_silent trivial ?_
  have hlookup : lookup name (Interp.of s).env = (PolskiScript.lookup name s.env).map Value.of :=
    lookup_of name s.env
  rw [hlookup]
  cases PolskiScript.lookup name s.env with
  | none =>
      refine mirrored_pure ?_
      change Interp.of _ = { Interp.of s with env := Frame.of s.env ++ Frame.of [(name, v)] }
      rw [Frame.of, Frame.of, ← List.map_append]
      rfl
  | some old =>
      refine mirrored_bind (mirrored_valueFree old s) fun t => mirrored_pure ?_
      change _ = { Interp.of t with env := assign name (Value.of v) (Frame.of t.env) }
      rw [assign_of]
      rfl

theorem mirrored_envSet (name : List Char) (v : PolskiScript.Value) (s : PolskiScript.Interp σ) :
    Mirrors (Prod.map id Interp.of) (PolskiScript.envSet m name v s)
      (envSet m name (Value.of v) (Interp.of s)) := by
  unfold envSet PolskiScript.envSet
  have hget : envGet name (Interp.of s).frames = (PolskiScript.envGet name s.frames).map Value.of :=
    envGet_of name s.frames
  rw [hget]
  cases PolskiScript.envGet name s.frames with
  | none => exact mirrored_silent trivial (mirrored_pure rfl)
  | some old =>
      refine mirrored_silent trivial (mirrored_bind (mirrored_valueFree old s) fun t => ?_)
      refine mirrored_pure ?_
      rw [show (Interp.of t).frames = t.frames.map Frame.of from rfl, assignFrames_of,
        ← withFrames_of]
      rfl

theorem mirrored_binaryOp (op : List Char) (l r : PolskiScript.Value)
    (s : PolskiScript.Interp σ) : Mirrors resultOf (PolskiScript.binaryOp m op l r s)
      (binaryOp m op (Value.of l) (Value.of r) (Interp.of s)) := by
  unfold binaryOp PolskiScript.binaryOp
  rw [arithmetic_of, comparison_of, logical_of]
  cases PolskiScript.arithmetic (op.headD nul) l r with
  | some a =>
      cases a with
      | int o a b => exact mirrored_bind (mirrored_intArith o a b) fun i => mirrored_pure rfl
      | float x => exact mirrored_pure rfl
      | divideByZero => exact mirrored_pure rfl
  | none =>
      cases PolskiScript.comparison op l r <|> PolskiScript.logical op l r with
      | some b => exact mirrored_pure rfl
      | none =>
          refine mirrored_bind (mirrored_valueFree l s) fun t => ?_
          exact mirrored_bind (mirrored_valueFree r t) fun u => mirrored_pure rfl

/-- A negation is one operation, and the other branches execute none. -/
theorem mirrored_unaryOp (op : List Char) (v : PolskiScript.Value) (s : PolskiScript.Interp σ) :
    Mirrors resultOf (PolskiScript.unaryOp m op v s)
      (unaryOp m op (Value.of v) (Interp.of s)) := by
  have hfree : Mirrors resultOf
      (PolskiScript.valueFree m v s >>= fun s => pure (PolskiScript.valueCreateNull m s))
      (valueFree m (Value.of v) (Interp.of s) >>= fun s => pure (valueCreateNull m s)) :=
    mirrored_bind (mirrored_valueFree v s) fun t => mirrored_pure rfl
  have hnot : Mirrors resultOf
      (pure (PolskiScript.valueCreateBool m (!v.isTrue) s) : PolskiScript.Run σ _)
      (pure (valueCreateBool m (!(Value.of v).isTrue) (Interp.of s))) := by
    rw [isTrue_of]
    exact mirrored_pure rfl
  unfold unaryOp PolskiScript.unaryOp
  generalize op.headD nul = c
  by_cases hminus : c = '-'
  · subst hminus
    cases v with
    | int i => exact mirrored_bind (mirrored_intArith .neg i 0) fun j => mirrored_pure rfl
    | float x => exact mirrored_pure rfl
    | null | bool | string => exact hfree
  by_cases hbang : c = '!'
  · subst hbang
    exact hnot
  · split
    · exact absurd rfl hminus
    · exact absurd rfl hminus
    · exact absurd rfl hbang
    · split
      · exact absurd rfl hminus
      · exact absurd rfl hminus
      · exact absurd rfl hbang
      · exact hfree

/-! ## Nodes -/

variable {eval : PolskiScript.Evaluator σ} {eval' : Evaluator σ}

/-- An evaluator and one over unbounded integers. -/
def MirroredEval (eval : PolskiScript.Evaluator σ) (eval' : Evaluator σ) : Prop :=
  ∀ n s, Mirrors resultOf (eval n s) (eval' n (Interp.of s))

theorem mirrored_childAt {β β' : Type} {i : Nat} {f : ASTNode → PolskiScript.Run σ β}
    {f' : ASTNode → Run β'} {g : β → β'} (hf : ∀ c, Mirrors g (f c) (f' c)) :
    Mirrors g (PolskiScript.childAt n i >>= f) (childAt n i >>= f') := by
  have hchild : Mirrors id (PolskiScript.childAt n i : PolskiScript.Run σ ASTNode)
      (childAt n i) := mirrored_ofOption Option.map_id'.symm
  exact mirrored_bind hchild hf

theorem mirrored_evalIdentifier : Mirrors resultOf (PolskiScript.evalIdentifier m n s)
    (evalIdentifier m n (Interp.of s)) := by
  unfold evalIdentifier PolskiScript.evalIdentifier
  have hget : envGet n.strValue (Interp.of s).frames =
      (PolskiScript.envGet n.strValue s.frames).map Value.of := envGet_of n.strValue s.frames
  rw [hget]
  cases PolskiScript.envGet n.strValue s.frames with
  | none => exact mirrored_pure rfl
  | some v => exact mirrored_silent trivial (mirrored_pure rfl)

section Branches

variable (heval : MirroredEval eval eval')
include heval

theorem mirrored_optional (cs : List ASTNode) : Mirrors resultOf
    (match cs with
      | [] => (pure (PolskiScript.valueCreateNull m s) : PolskiScript.Run σ _)
      | c :: _ => eval c s) (evalOptional m eval' cs (Interp.of s)) := by
  cases cs with
  | nil => exact mirrored_pure rfl
  | cons c cs => exact heval c s

theorem mirrored_evalVarDecl : Mirrors resultOf (PolskiScript.evalVarDecl m eval n s)
    (evalVarDecl m eval' n (Interp.of s)) :=
  mirrored_bind (mirrored_optional heval _) fun r =>
    mirrored_bind (mirrored_envDefine _ r.1 r.2) fun _ => mirrored_pure rfl

theorem mirrored_evalAssign : Mirrors resultOf (PolskiScript.evalAssign m eval n s)
    (evalAssign m eval' n (Interp.of s)) := by
  refine mirrored_childAt fun c => mirrored_bind (heval c s) fun r => ?_
  refine mirrored_bind (mirrored_envSet _ r.1 r.2) ?_
  rintro ⟨found, t⟩
  cases found <;> exact mirrored_pure rfl

theorem mirrored_evalBinary : Mirrors resultOf (PolskiScript.evalBinary m eval n s)
    (evalBinary m eval' n (Interp.of s)) := by
  refine mirrored_childAt fun l => mirrored_bind (heval l s) fun left => ?_
  refine mirrored_childAt fun r => mirrored_bind (heval r _) fun right => ?_
  exact mirrored_silent trivial (mirrored_binaryOp _ left.1 right.1 right.2)

theorem mirrored_evalUnary : Mirrors resultOf (PolskiScript.evalUnary m eval n s)
    (evalUnary m eval' n (Interp.of s)) := by
  refine mirrored_childAt fun c => mirrored_bind (heval c s) fun r => ?_
  exact mirrored_silent trivial (mirrored_unaryOp _ r.1 r.2)

theorem mirrored_printArguments (cs : List ASTNode) (s : PolskiScript.Interp σ) :
    Mirrors Interp.of (PolskiScript.printArguments m eval cs s)
      (printArguments m eval' cs (Interp.of s)) := by
  induction cs generalizing s with
  | nil => exact mirrored_pure rfl
  | cons c cs ih =>
      refine mirrored_bind (heval c s) fun r => mirrored_valuePrint r.1 r.2 fun t ht => ?_
      have hspace : Interp.of (if cs = [] then t else t.print .space) = Interp.of r.2 := by
        rw [← ht]
        split <;> rfl
      change Mirrors _ _ (valueFree m (Value.of r.1) (Interp.of r.2) >>= _)
      rw [← hspace]
      exact mirrored_bind (mirrored_valueFree r.1 _) fun u => ih u

theorem mirrored_evalPrint : Mirrors resultOf (PolskiScript.evalPrint m eval n s)
    (thenNull m (printArguments m eval' n.children (Interp.of s))) :=
  mirrored_bind (mirrored_printArguments heval _ s) fun _ => mirrored_pure rfl

theorem mirrored_evalCondition : Mirrors (Prod.map id Interp.of)
    (PolskiScript.evalCondition m eval n s) (evalCondition m eval' n (Interp.of s)) := by
  refine mirrored_childAt fun c => mirrored_bind (heval c s) fun r => ?_
  refine mirrored_silent trivial (mirrored_bind (mirrored_valueFree r.1 r.2) fun t => ?_)
  exact mirrored_pure (congrArg (·, Interp.of t) (isTrue_of r.1).symm)

theorem mirrored_evalIf : Mirrors resultOf (PolskiScript.evalIf m eval n s)
    (evalIf m eval' n (Interp.of s)) := by
  refine mirrored_bind (mirrored_evalCondition heval) ?_
  rintro ⟨yes, t⟩
  refine mirrored_ite Iff.rfl (fun _ => mirrored_childAt fun c => heval c t) fun _ => ?_
  cases n.children[2]? with
  | none => exact mirrored_pure rfl
  | some c => exact heval c t

theorem mirrored_runWhile (fuel : Nat) (s : PolskiScript.Interp σ) :
    Mirrors Interp.of (PolskiScript.runWhile m eval n fuel s)
      (runWhile m eval' n fuel (Interp.of s)) := by
  induction fuel generalizing s with
  | zero => exact mirrored_stop _
  | succ fuel ih =>
      rw [PolskiScript.runWhile, runWhile]
      refine mirrored_bind (mirrored_evalCondition heval) ?_
      rintro ⟨yes, t⟩
      refine mirrored_ite Iff.rfl (fun _ => mirrored_pure rfl) fun _ => ?_
      refine mirrored_childAt fun body => mirrored_bind (heval body t) fun r => ?_
      refine mirrored_silent trivial ?_
      refine mirrored_ite Iff.rfl (fun _ => mirrored_pure rfl) fun _ => ?_
      refine mirrored_ite Iff.rfl (fun _ => ih _) fun _ => ?_
      exact mirrored_ite Iff.rfl (fun _ => mirrored_pure rfl) fun _ => ih r.2

theorem mirrored_evalReturn : Mirrors resultOf (PolskiScript.evalReturn m eval n s)
    (evalReturn m eval' n (Interp.of s)) :=
  mirrored_bind (mirrored_optional heval _) fun _ =>
    mirrored_silent trivial (mirrored_pure rfl)

theorem mirrored_runBlock (cs : List ASTNode) (s : PolskiScript.Interp σ) :
    Mirrors Interp.of (PolskiScript.runBlock eval cs s) (runBlock eval' cs (Interp.of s)) := by
  induction cs generalizing s with
  | nil => exact mirrored_pure rfl
  | cons c cs ih =>
      refine mirrored_bind (heval c s) fun r => mirrored_silent trivial ?_
      exact mirrored_ite Iff.rfl (fun _ => mirrored_pure rfl) fun _ => ih r.2

theorem mirrored_runProgram (cs : List ASTNode) (s : PolskiScript.Interp σ) :
    Mirrors Interp.of (PolskiScript.runProgram eval cs s)
      (runProgram eval' cs (Interp.of s)) := by
  induction cs generalizing s with
  | nil => exact mirrored_pure rfl
  | cons c cs ih =>
      refine mirrored_bind (heval c s) fun r => mirrored_silent trivial ?_
      exact mirrored_ite Iff.rfl (fun _ => mirrored_pure rfl) fun _ => ih r.2

omit heval in
theorem mirrored_thenNull {x : PolskiScript.Run σ (PolskiScript.Interp σ)}
    {x' : Run (Interp σ)} (hx : Mirrors Interp.of x x') :
    Mirrors resultOf (PolskiScript.thenNull m x) (thenNull m x') :=
  mirrored_bind hx fun _ => mirrored_pure rfl

theorem mirrored_evalNode (fuel : Nat) (n : ASTNode) (s : PolskiScript.Interp σ) :
    Mirrors resultOf (PolskiScript.evalNode m eval fuel n s)
      (evalNode m eval' fuel n (Interp.of s)) := by
  unfold evalNode PolskiScript.evalNode
  refine mirrored_ite Iff.rfl (fun _ => mirrored_pure rfl) fun _ => ?_
  cases n.type <;> dsimp only
  case literalString => exact mirrored_silent trivial (mirrored_pure rfl)
  case identifier => exact mirrored_evalIdentifier
  case varDecl => exact mirrored_evalVarDecl heval
  case assign => exact mirrored_evalAssign heval
  case binaryOp => exact mirrored_evalBinary heval
  case unaryOp => exact mirrored_evalUnary heval
  case print => exact mirrored_evalPrint heval
  case «if» => exact mirrored_evalIf heval
  case «while» => exact mirrored_thenNull (mirrored_runWhile heval fuel s)
  case «return» => exact mirrored_evalReturn heval
  case block => exact mirrored_thenNull (mirrored_runBlock heval _ s)
  case program => exact mirrored_thenNull (mirrored_runProgram heval _ s)
  all_goals exact mirrored_pure rfl

end Branches

theorem mirrored_interpreterEval (fuel : Nat) :
    MirroredEval (PolskiScript.interpreterEval m fuel) (interpreterEval m fuel) := by
  induction fuel with
  | zero => exact fun _ _ => mirrored_stop _
  | succ fuel ih =>
      intro n s
      refine mirrored_silent trivial ?_
      exact mirrored_silent_end (fun _ => trivial) (mirrored_evalNode ih fuel n s)

theorem mirrored_interpreterExecute (m : Memory σ) (fuel : Nat) (source : Nat → Char)
    (s : PolskiScript.Interp σ) : Mirrors Interp.of (PolskiScript.interpreterExecute m fuel source s)
      (interpreterExecute m fuel source (Interp.of s)) := by
  have hparse : Mirrors id
      ((parseSource fuel source).mapLog .parse : PolskiScript.Run σ (Option ASTNode × Parser))
      ((parseSource fuel source).mapLog .parse) := by
    refine ⟨?_, fun _ => (congrFun Except.map_id _).symm⟩
    rw [Logged.all_mapLog, Logged.all_mapLog]
    exact (parseSource_fitting source).1
  refine mirrored_bind hparse ?_
  rintro ⟨program, parser⟩
  refine mirrored_ite Iff.rfl (fun _ => mirrored_pure rfl) fun _ => ?_
  cases program with
  | none => exact mirrored_pure rfl
  | some tree =>
      refine mirrored_bind (mirrored_interpreterEval fuel tree s) fun r => mirrored_pure ?_
      split <;> rfl

end Unbounded

/-! ## Scripts -/

variable {σ : Type} {m : Memory σ}

/-- A division by zero is reported instead of executed. -/
theorem divide_by_zero_reported (rest : List Char) (a : Int64) (s : Interp σ) :
    ∃ v t, (binaryOp m ('/' :: rest) (.int a) (.int 0) s).result = .ok (v, t) ∧
      t.hasError ∧ t.error = "Dzielenie przez zero".toList := by
  have harith : arithmetic (('/' :: rest).headD nul) (.int a) (.int 0) = some .divideByZero := by
    simp [arithmetic]
  refine ⟨(valueCreateNull m (s.fail "Dzielenie przez zero".toList)).1,
    (valueCreateNull m (s.fail "Dzielenie przez zero".toList)).2, ?_, rfl, rfl⟩
  unfold binaryOp
  rw [harith]
  rfl

end PolandOS.PolskiScript
