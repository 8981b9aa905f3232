import PolandOS.Lib.Paired
import PolandOS.Lang.Arithmetic

/-! # What branches depend on

Some constructors of `Value` leave the bytes of the union as they are, and the truth of a
value is read from the union. Two runs are compared, on memories that differ in such bytes
only.

* `same_branches`: the runs take the same steps, if no null is asked for its truth where it
  matters and no operand of a floating-point operation is null or a truth value
-/

namespace PolandOS.PolskiScript

open Logging Logged

variable {σ₁ σ₂ σ : Type}

/-! ## Two runs -/

/-- Memories that give the same answers, but for bytes to which nothing has been stored. -/
structure Indistinct (m₁ : Memory σ₁) (m₂ : Memory σ₂) (R : σ₁ → σ₂ → Prop) : Prop where
  store : ∀ str a b, R a b → (m₁.store str a).1 = (m₂.store str b).1 ∧
    R (m₁.store str a).2 (m₂.store str b).2
  kfree : ∀ p a b, R a b → Option.Rel R (m₁.kfree p a) (m₂.kfree p b)
  stringAt : ∀ p a b, R a b → m₁.stringAt p a = m₂.stringAt p b
  uninitialised : ∀ a b, R a b → R (m₁.uninitialised a).2 (m₂.uninitialised b).2

/-- The same value of the language. -/
inductive SameValue : Value → Value → Prop
  | null (bytes bytes' : Int64) : SameValue (.null bytes) (.null bytes')
  | int (i : Int64) : SameValue (.int i) (.int i)
  | float (x : Float) : SameValue (.float x) (.float x)
  | bool (b : Bool) (bytes bytes' : Int64) : SameValue (.bool b bytes) (.bool b bytes')
  | string (p : Int64) : SameValue (.string p) (.string p)

/-- The same variables. -/
abbrev SameFrame : Frame → Frame → Prop :=
  List.Forall₂ fun e e' => e.1 = e'.1 ∧ SameValue e.2 e'.2

/-- Interpreters that differ in bytes to which nothing has been stored. -/
structure SameState (R : σ₁ → σ₂ → Prop) (s : Interp σ₁) (s' : Interp σ₂) : Prop where
  env : SameFrame s.env s'.env
  parents : List.Forall₂ SameFrame s.parents s'.parents
  breakFlag : s.breakFlag = s'.breakFlag
  continueFlag : s.continueFlag = s'.continueFlag
  returnFlag : s.returnFlag = s'.returnFlag
  returnValue : SameValue s.returnValue s'.returnValue
  error : s.error = s'.error
  hasError : s.hasError = s'.hasError
  out : s.out = s'.out
  mem : R s.mem s'.mem

/-- The same step. Conditions and the operators `!`, `&&` and `||` decide the same. -/
inductive SameEvent (R : σ₁ → σ₂ → Prop) : RunEvent σ₁ → RunEvent σ₂ → Prop
  | parse (e : ParseEvent) : SameEvent R (.parse e) (.parse e)
  | begun (n : ASTNode) {s : Interp σ₁} {s' : Interp σ₂} : SameState R s s' →
      SameEvent R (.begun n s) (.begun n s')
  | arith (op : IntOp) (a b : Int64) : SameEvent R (.arith op a b) (.arith op a b)
  | binary (op : List Char) {l l' r r' : Value} : SameValue l l' → SameValue r r' →
      logical op l r = logical op l' r' → SameEvent R (.binary op l r) (.binary op l' r')
  | unary (op : List Char) {v v' : Value} : SameValue v v' →
      (op.headD nul = '!' → v.isTrue = v'.isTrue) → SameEvent R (.unary op v) (.unary op v')
  | condition {v v' : Value} : SameValue v v' → v.isTrue = v'.isTrue →
      SameEvent R (.condition v) (.condition v')
  | identifier {v v' : Value} : SameValue v v' → SameEvent R (.identifier v) (.identifier v')
  | declared (name : List Char) (taken : Bool) {v v' : Value} : SameValue v v' →
      SameEvent R (.declared name taken v) (.declared name taken v')
  | assigned (name : List Char) (found : Bool) {v v' : Value} : SameValue v v' →
      SameEvent R (.assigned name found v) (.assigned name found v')
  | overwritten {v v' : Value} : SameValue v v' → SameEvent R (.overwritten v) (.overwritten v')
  | dropped (type : ASTNodeType) {v v' : Value} : SameValue v v' →
      SameEvent R (.dropped type v) (.dropped type v')
  | alloc (p : Int64) : SameEvent R (.alloc p) (.alloc p)
  | read (p : Int64) : SameEvent R (.read p) (.read p)
  | free (p : Int64) : SameEvent R (.free p) (.free p)
  | evaluated (type : ASTNodeType) {v v' : Value} {s : Interp σ₁} {s' : Interp σ₂} :
      SameValue v v' → SameState R s s' → SameEvent R (.evaluated type v s) (.evaluated type v' s')

/-! ## The condition -/

def Value.isNull : Value → Bool
  | .null _ => true
  | _ => false

/-- Null or a truth value, of which the union has bytes to which nothing has been stored. -/
def Value.isVague : Value → Bool
  | .null _ | .bool .. => true
  | _ => false

/-- The truth of two values decides, where `b` decides alone. -/
def Decides (b : Bool) (left right : Value) : Prop :=
  (left.isNull = false ∧ left.isTrue = b) ∨ (right.isNull = false ∧ right.isTrue = b) ∨
    (left.isNull = false ∧ right.isNull = false)

/-- One operand is a floating-point number, and the other one is read as if it were a number. -/
def Mixes (left right : Value) : Prop :=
  left.isFloat ∧ right.isVague ∨ left.isVague ∧ right.isFloat

/-- The condition on a step of a run. -/
def Definite : RunEvent σ → Prop
  | .condition v => v.isNull = false
  | .unary op v => op.headD nul = '!' → v.isNull = false
  | .binary op left right =>
    (op = "&&".toList → Decides false left right) ∧ (op = "||".toList → Decides true left right) ∧
      (op.headD nul ∈ ['+', '-', '*'] → ¬Mixes left right)
  | _ => True

/-! ## Values -/

variable {v v' l l' r r' : Value} {name : List Char}

theorem SameValue.isTrue (h : SameValue v v') (hv : v.isNull = false) : v.isTrue = v'.isTrue := by
  cases h with
  | null => cases hv
  | int | float | bool | string => rfl

theorem SameValue.isNull (h : SameValue v v') : v.isNull = v'.isNull := by cases h <;> rfl

theorem logical_same (hl : SameValue l l') (hr : SameValue r r') {op : List Char}
    (hand : op = "&&".toList → Decides false l r) (hor : op = "||".toList → Decides true l r) :
    logical op l r = logical op l' r' := by
  have hdecides : ∀ {b : Bool} {f : Bool → Bool → Bool}, (∀ c, f b c = b) → (∀ c, f c b = b) →
      Decides b l r → f l.isTrue r.isTrue = f l'.isTrue r'.isTrue := by
    rintro b f hleft hright (⟨hnull, htrue⟩ | ⟨hnull, htrue⟩ | ⟨hnull, hnull'⟩)
    · rw [← hl.isTrue hnull, htrue, hleft, hleft]
    · rw [← hr.isTrue hnull, htrue, hright, hright]
    · rw [← hl.isTrue hnull, ← hr.isTrue hnull']
  unfold logical
  refine if_ctx_congr Iff.rfl (fun h => ?_) fun _ => if_ctx_congr Iff.rfl (fun h => ?_) fun _ => rfl
  · exact congrArg some (hdecides (by decide) (by decide) (hand h))
  · exact congrArg some (hdecides (by decide) (by decide) (hor h))

theorem ifInts_same (hl : SameValue l l') (hr : SameValue r r') (f : Int64 → Int64 → Bool) :
    ifInts f l r = ifInts f l' r' := by cases hl <;> cases hr <;> rfl

theorem comparison_same (hl : SameValue l l') (hr : SameValue r r') (op : List Char) :
    comparison op l r = comparison op l' r' := by
  unfold comparison
  simp only [ifInts_same hl hr]

theorem arithmeticOn_same (hl : SameValue l l') (hr : SameValue r r') (hmix : ¬Mixes l r)
    (op : IntOp) (f : Float → Float → Float) :
    arithmeticOn op f l r = arithmeticOn op f l' r' := by
  cases hl <;> cases hr <;>
    first
    | rfl
    | exact absurd (.inl ⟨rfl, rfl⟩) hmix
    | exact absurd (.inr ⟨rfl, rfl⟩) hmix

theorem arithmetic_same (hl : SameValue l l') (hr : SameValue r r') {op : Char}
    (hmix : op ∈ ['+', '-', '*'] → ¬Mixes l r) : arithmetic op l r = arithmetic op l' r' := by
  unfold arithmetic
  refine if_ctx_congr Iff.rfl (fun h => ?_) fun _ => if_ctx_congr Iff.rfl (fun h => ?_) fun _ =>
    if_ctx_congr Iff.rfl (fun h => ?_) fun _ => ?_
  · exact arithmeticOn_same hl hr (hmix (by simp [h])) _ _
  · exact arithmeticOn_same hl hr (hmix (by simp [h])) _ _
  · exact arithmeticOn_same hl hr (hmix (by simp [h])) _ _
  · cases hl <;> cases hr <;> rfl

/-! ## Variables -/

theorem lookup_same {frame frame' : Frame} (h : SameFrame frame frame') :
    Option.Rel SameValue (lookup name frame) (lookup name frame') := by
  induction h with
  | nil => exact .none
  | @cons e e' frame frame' he _ ih =>
      rcases e with ⟨n, v⟩
      rcases e' with ⟨n', v'⟩
      rcases he with ⟨hn, hv⟩
      cases hn
      unfold lookup
      rw [List.find?_cons, List.find?_cons]
      by_cases hname : n == name
      · rw [hname]
        exact .some hv
      · rw [Bool.not_eq_true] at hname
        rw [hname]
        exact ih

theorem assign_same {frame frame' : Frame} (h : SameFrame frame frame') (hv : SameValue v v') :
    SameFrame (assign name v frame) (assign name v' frame') := by
  induction h with
  | nil => exact .nil
  | @cons e e' frame frame' he hrest ih =>
      rcases e with ⟨n, old⟩
      rcases e' with ⟨n', old'⟩
      rcases he with ⟨hn, hold⟩
      cases hn
      rw [assign, assign]
      split
      · exact .cons ⟨rfl, hv⟩ hrest
      · exact .cons ⟨rfl, hold⟩ ih

theorem envGet_same {frames frames' : List Frame} (h : List.Forall₂ SameFrame frames frames') :
    Option.Rel SameValue (envGet name frames) (envGet name frames') := by
  induction h with
  | nil => exact .none
  | @cons frame frame' _ _ hframe _ ih =>
      have hlook : Option.Rel SameValue (lookup name frame) (lookup name frame') :=
        lookup_same hframe
      rw [envGet, envGet]
      generalize lookup name frame = o at hlook ⊢
      generalize lookup name frame' = o' at hlook ⊢
      cases hlook with
      | none => exact ih
      | some hv => exact .some hv

theorem assignFrames_same {frames frames' : List Frame} (h : List.Forall₂ SameFrame frames frames')
    (hv : SameValue v v') :
    List.Forall₂ SameFrame (assignFrames name v frames) (assignFrames name v' frames') := by
  induction h with
  | nil => exact .nil
  | @cons frame frame' _ _ hframe hrest ih =>
      have hlook : Option.Rel SameValue (lookup name frame) (lookup name frame') :=
        lookup_same hframe
      rw [assignFrames, assignFrames]
      generalize lookup name frame = o at hlook ⊢
      generalize lookup name frame' = o' at hlook ⊢
      cases hlook with
      | none => exact .cons hframe ih
      | some => exact .cons (assign_same hframe hv) hrest

/-! ## Computations -/

section Computations

variable {m₁ : Memory σ₁} {m₂ : Memory σ₂} {R : σ₁ → σ₂ → Prop} {α α' β β' : Type}
  {s : Interp σ₁} {s' : Interp σ₂}

/-- Two runs that take the same steps, the first of which is definite. -/
abbrev Pairs (R : σ₁ → σ₂ → Prop) (x : Run σ₁ α) (x' : Run σ₂ α') (M : α → α' → Prop) : Prop :=
  Logged.Paired Definite (SameEvent R) x x' M

/-- The same value, and the same interpreter. -/
abbrev SameResult (R : σ₁ → σ₂ → Prop) (r : Value × Interp σ₁) (r' : Value × Interp σ₂) : Prop :=
  SameValue r.1 r'.1 ∧ SameState R r.2 r'.2

theorem SameState.frames (h : SameState R s s') : List.Forall₂ SameFrame s.frames s'.frames :=
  .cons h.env h.parents

theorem SameState.withMem (h : SameState R s s') {mem : σ₁} {mem' : σ₂} (hmem : R mem mem') :
    SameState R { s with mem := mem } { s' with mem := mem' } := { h with mem := hmem }

theorem SameState.print (h : SameState R s s') (piece : Printed) :
    SameState R (s.print piece) (s'.print piece) :=
  { h with out := congrArg (· ++ [piece]) h.out }

theorem SameState.fail (h : SameState R s s') (text : List Char) :
    SameState R (s.fail text) (s'.fail text) := { h with error := rfl, hasError := rfl }

theorem SameState.withFrames (h : SameState R s s') {frames frames' : List Frame}
    (hframes : List.Forall₂ SameFrame frames frames') :
    SameState R (s.withFrames frames) (s'.withFrames frames') := by
  cases hframes with
  | nil => exact { h with env := .nil, parents := .nil }
  | cons henv hparents => exact { h with env := henv, parents := hparents }

variable (hm : Indistinct m₁ m₂ R)
include hm

theorem valueCreateNull_same (h : SameState R s s') :
    SameResult R (valueCreateNull m₁ s) (valueCreateNull m₂ s') :=
  ⟨.null _ _, h.withMem (hm.uninitialised _ _ h.mem)⟩

theorem valueCreateBool_same (h : SameState R s s') (b : Bool) :
    SameResult R (valueCreateBool m₁ b s) (valueCreateBool m₂ b s') :=
  ⟨.bool b _ _, h.withMem (hm.uninitialised _ _ h.mem)⟩

theorem pairs_valueCreateString (h : SameState R s s') (str : List Char) :
    Pairs R (valueCreateString m₁ str s) (valueCreateString m₂ str s') (SameResult R) := by
  rcases hm.store str _ _ h.mem with ⟨hp, hmem⟩
  unfold valueCreateString
  dsimp only
  rw [hp]
  exact paired_emit (fun _ => .alloc _) fun _ => paired_pure ⟨.string _, h.withMem hmem⟩

theorem pairs_valueFree (h : SameState R s s') (hv : SameValue v v') :
    Pairs R (valueFree m₁ v s) (valueFree m₂ v' s') (SameState R) := by
  cases hv with
  | string p =>
      refine paired_ite Iff.rfl (fun _ => paired_pure h) fun _ => ?_
      refine paired_emit (fun _ => .free p) fun _ => ?_
      refine paired_bind (paired_ofOption (hm.kfree p _ _ h.mem)) fun mem mem' hmem => ?_
      exact paired_pure (h.withMem hmem)
  | null | int | float | bool => exact paired_pure h

theorem pairs_valuePrint (h : SameState R s s') (hv : SameValue v v') :
    Pairs R (valuePrint m₁ v s) (valuePrint m₂ v' s') (SameState R) := by
  cases hv with
  | string p =>
      refine paired_emit (fun _ => .read p) fun _ => paired_pure ?_
      rw [hm.stringAt p _ _ h.mem]
      exact h.print _
  | null | int | float | bool => exact paired_pure (h.print _)

theorem pairs_envDefine (h : SameState R s s') (name : List Char) (hv : SameValue v v') :
    Pairs R (envDefine m₁ name v s) (envDefine m₂ name v' s') (SameState R) := by
  unfold envDefine
  have hfull : s.env.length ≥ envMaxVars ↔ s'.env.length ≥ envMaxVars := by rw [h.env.length_eq]
  refine paired_ite hfull (fun _ => ?_) fun _ => ?_
  · exact paired_emit (fun _ => .declared name false hv) fun _ => paired_pure h
  refine paired_emit (fun _ => .declared name true hv) fun _ => ?_
  have hlook : Option.Rel SameValue (lookup name s.env) (lookup name s'.env) := lookup_same h.env
  generalize lookup name s.env = o at hlook ⊢
  generalize lookup name s'.env = o' at hlook ⊢
  cases hlook with
  | none => exact paired_pure { h with env := List.rel_append h.env (.cons ⟨rfl, hv⟩ .nil) }
  | some hold =>
      refine paired_bind (pairs_valueFree hm h hold) fun t t' ht => ?_
      exact paired_pure { ht with env := assign_same ht.env hv }

theorem pairs_envSet (h : SameState R s s') (name : List Char) (hv : SameValue v v') :
    Pairs R (envSet m₁ name v s) (envSet m₂ name v' s')
      fun r r' => r.1 = r'.1 ∧ SameState R r.2 r'.2 := by
  unfold envSet
  have hget : Option.Rel SameValue (envGet name s.frames) (envGet name s'.frames) :=
    envGet_same h.frames
  generalize envGet name s.frames = o at hget ⊢
  generalize envGet name s'.frames = o' at hget ⊢
  cases hget with
  | none => exact paired_emit (fun _ => .assigned name false hv) fun _ => paired_pure ⟨rfl, h⟩
  | some hold =>
      refine paired_emit (fun _ => .assigned name true hv) fun _ => ?_
      refine paired_bind (pairs_valueFree hm h hold) fun t t' ht => ?_
      exact paired_pure ⟨rfl, ht.withFrames (assignFrames_same ht.frames hv)⟩

omit hm in
theorem pairs_intArith (h : SameState R s s') (op : IntOp) (a b : Int64) :
    Pairs R ((intArith op a b : Run σ₁ Int64) >>= fun i => pure (Value.int i, s))
      ((intArith op a b : Run σ₂ Int64) >>= fun i => pure (Value.int i, s')) (SameResult R) := by
  have harith : Pairs R (intArith op a b : Run σ₁ Int64) (intArith op a b : Run σ₂ Int64) Eq := by
    refine paired_emit (fun _ => .arith op a b) fun _ => ?_
    exact paired_ite Iff.rfl (fun _ => paired_stop _) fun _ => paired_pure rfl
  refine paired_bind harith ?_
  rintro i _ rfl
  exact paired_pure ⟨.int i, h⟩

theorem pairs_binaryOp (h : SameState R s s') {op : List Char} (hl : SameValue l l')
    (hr : SameValue r r') (hdefinite : Definite (.binary op l r : RunEvent σ₁)) :
    Pairs R (binaryOp m₁ op l r s) (binaryOp m₂ op l' r' s') (SameResult R) := by
  rcases hdefinite with ⟨hand, hor, hmix⟩
  unfold binaryOp
  rw [← arithmetic_same hl hr hmix, ← comparison_same hl hr, ← logical_same hl hr hand hor]
  split
  · exact pairs_intArith h _ _ _
  · exact paired_pure ⟨.float _, h⟩
  · exact paired_pure (valueCreateNull_same hm (h.fail _))
  · split
    · exact paired_pure (valueCreateBool_same hm h _)
    · refine paired_bind (pairs_valueFree hm h hl) fun t t' ht => ?_
      refine paired_bind (pairs_valueFree hm ht hr) fun u u' hu => ?_
      exact paired_pure (valueCreateNull_same hm hu)

/-- A unary operator takes the same steps, if `!` finds the same truth. -/
theorem pairs_unaryOp (h : SameState R s s') {op : List Char} (hv : SameValue v v')
    (htrue : op.headD nul = '!' → v.isTrue = v'.isTrue) :
    Pairs R (unaryOp m₁ op v s) (unaryOp m₂ op v' s') (SameResult R) := by
  have hfree : Pairs R (valueFree m₁ v s >>= fun s => pure (valueCreateNull m₁ s))
      (valueFree m₂ v' s' >>= fun s => pure (valueCreateNull m₂ s)) (SameResult R) :=
    paired_bind (pairs_valueFree hm h hv) fun t t' ht => paired_pure (valueCreateNull_same hm ht)
  unfold unaryOp
  generalize op.headD nul = c at htrue ⊢
  by_cases hminus : c = '-'
  · subst hminus
    cases hv with
    | int i => exact pairs_intArith h _ _ _
    | float x => exact paired_pure ⟨.float _, h⟩
    | null | bool | string => exact hfree
  by_cases hnot : c = '!'
  · subst hnot
    have hnot : Pairs R (pure (valueCreateBool m₁ (!v.isTrue) s))
        (pure (valueCreateBool m₂ (!v'.isTrue) s')) (SameResult R) := by
      rw [htrue rfl]
      exact paired_pure (valueCreateBool_same hm h _)
    exact hnot
  · split
    · exact absurd rfl hminus
    · exact absurd rfl hminus
    · exact absurd rfl hnot
    · split
      · exact absurd rfl hminus
      · exact absurd rfl hminus
      · exact absurd rfl hnot
      · exact hfree

/-! ## Nodes -/

variable {eval₁ : Evaluator σ₁} {eval₂ : Evaluator σ₂} {n : ASTNode}

/-- Evaluators that take the same steps. -/
def PairedEval (R : σ₁ → σ₂ → Prop) (eval₁ : Evaluator σ₁) (eval₂ : Evaluator σ₂) : Prop :=
  ∀ n s s', SameState R s s' → Pairs R (eval₁ n s) (eval₂ n s') (SameResult R)

omit hm in
theorem pairs_childAt {i : Nat} {f : ASTNode → Run σ₁ β} {f' : ASTNode → Run σ₂ β'}
    {post : β → β' → Prop} (hf : ∀ c, Pairs R (f c) (f' c) post) :
    Pairs R (childAt n i >>= f) (childAt n i >>= f') post := by
  have hchild : Pairs R (childAt n i : Run σ₁ ASTNode) (childAt n i : Run σ₂ ASTNode) Eq := by
    refine paired_ofOption ?_
    cases n.children[i]? with
    | none => exact .none
    | some c => exact .some rfl
  refine paired_bind hchild ?_
  rintro c _ rfl
  exact hf c

variable (heval : PairedEval R eval₁ eval₂)

theorem pairs_evalIdentifier (h : SameState R s s') :
    Pairs R (evalIdentifier m₁ n s) (evalIdentifier m₂ n s') (SameResult R) := by
  unfold evalIdentifier
  have hget : Option.Rel SameValue (envGet n.strValue s.frames) (envGet n.strValue s'.frames) :=
    envGet_same h.frames
  generalize envGet n.strValue s.frames = o at hget ⊢
  generalize envGet n.strValue s'.frames = o' at hget ⊢
  cases hget with
  | none => exact paired_pure (valueCreateNull_same hm (h.fail _))
  | some hv => exact paired_emit (fun _ => .identifier hv) fun _ => paired_pure ⟨hv, h⟩

include heval

theorem pairs_optional (h : SameState R s s') (cs : List ASTNode) :
    Pairs R (match cs with
        | [] => (pure (valueCreateNull m₁ s) : Run σ₁ (Value × Interp σ₁))
        | c :: _ => eval₁ c s)
      (match cs with
        | [] => (pure (valueCreateNull m₂ s') : Run σ₂ (Value × Interp σ₂))
        | c :: _ => eval₂ c s') (SameResult R) := by
  cases cs with
  | nil => exact paired_pure (valueCreateNull_same hm h)
  | cons c cs => exact heval c s s' h

theorem pairs_evalVarDecl (h : SameState R s s') :
    Pairs R (evalVarDecl m₁ eval₁ n s) (evalVarDecl m₂ eval₂ n s') (SameResult R) := by
  refine paired_bind (pairs_optional hm heval h _) fun r r' hr => ?_
  refine paired_bind (pairs_envDefine hm hr.2 _ hr.1) fun t t' ht => ?_
  exact paired_pure (valueCreateNull_same hm ht)

theorem pairs_evalAssign (h : SameState R s s') :
    Pairs R (evalAssign m₁ eval₁ n s) (evalAssign m₂ eval₂ n s') (SameResult R) := by
  refine pairs_childAt fun c => ?_
  refine paired_bind (heval c s s' h) fun r r' hr => ?_
  refine paired_bind (pairs_envSet hm hr.2 _ hr.1) ?_
  rintro ⟨found, t⟩ ⟨_, t'⟩ ⟨rfl, ht⟩
  refine paired_pure ⟨hr.1, ?_⟩
  cases found with
  | true => exact ht
  | false => exact ht.fail _

theorem pairs_evalBinary (h : SameState R s s') :
    Pairs R (evalBinary m₁ eval₁ n s) (evalBinary m₂ eval₂ n s') (SameResult R) := by
  refine pairs_childAt fun l => ?_
  refine paired_bind (heval l s s' h) fun rl rl' hl => ?_
  refine pairs_childAt fun r => ?_
  refine paired_bind (heval r _ _ hl.2) fun rr rr' hr => ?_
  refine paired_emit (fun hdefinite => ?_) fun hdefinite =>
    pairs_binaryOp hm hr.2 hl.1 hr.1 hdefinite
  exact .binary _ hl.1 hr.1 (logical_same hl.1 hr.1 hdefinite.1 hdefinite.2.1)

theorem pairs_evalUnary (h : SameState R s s') :
    Pairs R (evalUnary m₁ eval₁ n s) (evalUnary m₂ eval₂ n s') (SameResult R) := by
  refine pairs_childAt fun c => ?_
  refine paired_bind (heval c s s' h) fun r r' hr => ?_
  refine paired_emit (fun hdefinite => ?_) fun hdefinite => ?_
  · exact .unary _ hr.1 fun hnot => hr.1.isTrue (hdefinite hnot)
  · exact pairs_unaryOp hm hr.2 hr.1 fun hnot => hr.1.isTrue (hdefinite hnot)

theorem pairs_printArguments (h : SameState R s s') (cs : List ASTNode) :
    Pairs R (printArguments m₁ eval₁ cs s) (printArguments m₂ eval₂ cs s') (SameState R) := by
  induction cs generalizing s s' with
  | nil => exact paired_pure h
  | cons c cs ih =>
      refine paired_bind (heval c s s' h) fun r r' hr => ?_
      refine paired_bind (pairs_valuePrint hm hr.2 hr.1) fun t t' ht => ?_
      have hspace : SameState R (if cs = [] then t else t.print .space)
          (if cs = [] then t' else t'.print .space) := by
        split
        · exact ht
        · exact ht.print _
      exact paired_bind (pairs_valueFree hm hspace hr.1) fun u u' hu => ih hu

theorem pairs_evalPrint (h : SameState R s s') :
    Pairs R (evalPrint m₁ eval₁ n s) (evalPrint m₂ eval₂ n s') (SameResult R) :=
  paired_bind (pairs_printArguments hm heval h _) fun _ _ ht =>
    paired_pure (valueCreateNull_same hm (ht.print .newline))

/-- Where a condition is not null, the runs take the same branch. -/
theorem pairs_evalCondition (h : SameState R s s') :
    Pairs R (evalCondition m₁ eval₁ n s) (evalCondition m₂ eval₂ n s')
      fun r r' => r.1 = r'.1 ∧ SameState R r.2 r'.2 := by
  refine pairs_childAt fun c => ?_
  refine paired_bind (heval c s s' h) fun r r' hr => ?_
  refine paired_emit (fun hnull => .condition hr.1 (hr.1.isTrue hnull)) fun hnull => ?_
  refine paired_bind (pairs_valueFree hm hr.2 hr.1) fun t t' ht => ?_
  exact paired_pure ⟨hr.1.isTrue hnull, ht⟩

theorem pairs_evalIf (h : SameState R s s') :
    Pairs R (evalIf m₁ eval₁ n s) (evalIf m₂ eval₂ n s') (SameResult R) := by
  refine paired_bind (pairs_evalCondition hm heval h) ?_
  rintro ⟨yes, t⟩ ⟨_, t'⟩ ⟨rfl, ht⟩
  refine paired_ite Iff.rfl (fun _ => ?_) fun _ => ?_
  · exact pairs_childAt fun c => heval c _ _ ht
  · split
    · exact heval _ _ _ ht
    · exact paired_pure (valueCreateNull_same hm ht)

theorem pairs_runWhile (fuel : Nat) (h : SameState R s s') :
    Pairs R (runWhile m₁ eval₁ n fuel s) (runWhile m₂ eval₂ n fuel s') (SameState R) := by
  induction fuel generalizing s s' with
  | zero => exact paired_stop _
  | succ fuel ih =>
      rw [runWhile, runWhile]
      refine paired_bind (pairs_evalCondition hm heval h) ?_
      rintro ⟨yes, t⟩ ⟨_, t'⟩ ⟨rfl, ht⟩
      refine paired_ite Iff.rfl (fun _ => paired_pure ht) fun _ => ?_
      refine pairs_childAt fun body => ?_
      refine paired_bind (heval body _ _ ht) fun r r' hr => ?_
      have hflag : ∀ {b b' : Bool}, b = b' → (b = true ↔ b' = true) := fun h => by rw [h]
      refine paired_emit (fun _ => .dropped _ hr.1) fun _ => ?_
      refine paired_ite (hflag hr.2.breakFlag) (fun _ => ?_) fun _ => ?_
      · exact paired_pure { hr.2 with breakFlag := rfl }
      refine paired_ite (hflag hr.2.continueFlag) (fun _ => ?_) fun _ => ?_
      · exact ih { hr.2 with continueFlag := rfl }
      · exact paired_ite (hflag hr.2.returnFlag) (fun _ => paired_pure hr.2) fun _ => ih hr.2

theorem pairs_evalReturn (h : SameState R s s') :
    Pairs R (evalReturn m₁ eval₁ n s) (evalReturn m₂ eval₂ n s') (SameResult R) := by
  refine paired_bind (pairs_optional hm heval h _) fun r r' hr => ?_
  refine paired_emit (fun _ => .overwritten hr.2.returnValue) fun _ => ?_
  exact paired_pure (valueCreateNull_same hm { hr.2 with returnValue := hr.1, returnFlag := rfl })

omit hm in
theorem pairs_runBlock (h : SameState R s s') (cs : List ASTNode) :
    Pairs R (runBlock eval₁ cs s) (runBlock eval₂ cs s') (SameState R) := by
  induction cs generalizing s s' with
  | nil => exact paired_pure h
  | cons c cs ih =>
      refine paired_bind (heval c s s' h) fun r r' hr => ?_
      refine paired_emit (fun _ => .dropped _ hr.1) fun _ => ?_
      refine paired_ite ?_ (fun _ => paired_pure hr.2) fun _ => ih hr.2
      rw [hr.2.returnFlag, hr.2.breakFlag, hr.2.continueFlag]

omit hm in
theorem pairs_runProgram (h : SameState R s s') (cs : List ASTNode) :
    Pairs R (runProgram eval₁ cs s) (runProgram eval₂ cs s') (SameState R) := by
  induction cs generalizing s s' with
  | nil => exact paired_pure h
  | cons c cs ih =>
      refine paired_bind (heval c s s' h) fun r r' hr => ?_
      refine paired_emit (fun _ => .dropped _ hr.1) fun _ => ?_
      refine paired_ite ?_ (fun _ => paired_pure hr.2) fun _ => ih hr.2
      rw [hr.2.hasError]

omit heval in
theorem pairs_thenNull {x : Run σ₁ (Interp σ₁)} {x' : Run σ₂ (Interp σ₂)}
    (hx : Pairs R x x' (SameState R)) :
    Pairs R (thenNull m₁ x) (thenNull m₂ x') (SameResult R) :=
  paired_bind hx fun _ _ ht => paired_pure (valueCreateNull_same hm ht)

/-- By the kind of the node: evaluators that take the same steps inside it take the same steps
at it. -/
theorem pairs_evalNode (fuel : Nat) (h : SameState R s s') :
    Pairs R (evalNode m₁ eval₁ fuel n s) (evalNode m₂ eval₂ fuel n s') (SameResult R) := by
  unfold evalNode
  refine paired_ite (by rw [h.hasError]) (fun _ => ?_) fun _ => ?_
  · exact paired_pure (valueCreateNull_same hm h)
  cases n.type <;> dsimp only
  case literalInt => exact paired_pure ⟨.int _, h⟩
  case literalFloat => exact paired_pure ⟨.float _, h⟩
  case literalString => exact pairs_valueCreateString hm h _
  case literalBool => exact paired_pure (valueCreateBool_same hm h _)
  case identifier => exact pairs_evalIdentifier hm h
  case varDecl => exact pairs_evalVarDecl hm heval h
  case assign => exact pairs_evalAssign hm heval h
  case binaryOp => exact pairs_evalBinary hm heval h
  case unaryOp => exact pairs_evalUnary hm heval h
  case print => exact pairs_evalPrint hm heval h
  case «if» => exact pairs_evalIf hm heval h
  case «while» => exact pairs_thenNull hm (pairs_runWhile hm heval fuel h)
  case «return» => exact pairs_evalReturn hm heval h
  case «break» => exact paired_pure (valueCreateNull_same hm { h with breakFlag := rfl })
  case «continue» => exact paired_pure (valueCreateNull_same hm { h with continueFlag := rfl })
  case block => exact pairs_thenNull hm (pairs_runBlock heval h _)
  case program => exact pairs_thenNull hm (pairs_runProgram heval h _)
  all_goals exact paired_pure (valueCreateNull_same hm h)

omit heval in
theorem pairs_interpreterEval (fuel : Nat) :
    PairedEval R (interpreterEval m₁ fuel) (interpreterEval m₂ fuel) := by
  induction fuel with
  | zero => exact fun _ _ _ _ => paired_stop _
  | succ fuel ih =>
      intro n s s' h
      rw [interpreterEval, interpreterEval]
      refine paired_emit (fun _ => .begun n h) fun _ => ?_
      refine paired_bind (pairs_evalNode hm ih fuel h) fun r r' hr => ?_
      exact paired_emit (fun _ => .evaluated _ hr.1 hr.2) fun _ => paired_pure hr

end Computations

/-! ## Scripts -/

section Scripts

variable {m₁ : Memory σ₁} {m₂ : Memory σ₂} {R : σ₁ → σ₂ → Prop}

theorem interpreterInit_same (hm : Indistinct m₁ m₂ R) {a : σ₁} {b : σ₂} (h : R a b) :
    SameState R (interpreterInit m₁ a) (interpreterInit m₂ b) :=
  ⟨.nil, .nil, rfl, rfl, rfl, .null _ _, rfl, rfl, rfl, hm.uninitialised a b h⟩

section Decidable

instance (b : Bool) (left right : Value) : Decidable (Decides b left right) := by
  unfold Decides
  infer_instance

instance (left right : Value) : Decidable (Mixes left right) := by
  unfold Mixes
  infer_instance

instance (e : RunEvent σ) : Decidable (Definite e) := by
  unfold Definite
  split <;> infer_instance

end Decidable

/-- `plainMemory` with other bytes. -/
def noisyMemory : Memory Unit := { plainMemory with uninitialised := fun _ => (1, ()) }

theorem indistinct_noisy : Indistinct plainMemory noisyMemory fun _ _ => True where
  store _ _ _ _ := ⟨rfl, trivial⟩
  kfree _ _ _ _ := .some trivial
  stringAt _ _ _ _ := rfl
  uninitialised _ _ _ := trivial

/-- The script `jesli(!falsz){drukuj(1);}`. -/
def branches : Nat → Char := sourceOf "jesli(!falsz){drukuj(1);}".toList

end Scripts

end PolandOS.PolskiScript
