import Mathlib.Data.Finset.Card
import PolandOS.Lib.WhileLang
import PolandOS.Lang.Completeness
import PolandOS.Lang.Environments
import PolandOS.Lang.Statements

/-! # From the text to the output

The programs of `WhileLang` over integers and booleans, written down in PolskiScript.
`program_output`: from every text of such a program, the kernel's interpreter puts out
what the program means, provided that no expression meets one of the places where the
evaluator differs from mathematics. A block opens no scope, so all variables are one
store; and no more of them are declared than an environment holds.
-/

namespace PolandOS.PolskiScript

open Fuel Logging

/-! ## The programs in PolskiScript -/

/-- The operator of the language. -/
def arithOperator : TypedExpr.ArithOp → BinaryOp
  | .add => .add
  | .sub => .sub
  | .mul => .mul
  | .div => .div
  | .mod => .mod

def compareOperator : TypedExpr.CompareOp → BinaryOp
  | .eq => .eq
  | .ne => .ne
  | .lt => .lt
  | .gt => .gt
  | .le => .le
  | .ge => .ge

def logicOperator : TypedExpr.LogicOp → BinaryOp
  | .and => .and
  | .or => .or

/-- An expression, as the language writes it. -/
def exprOf : {τ : TypedExpr.Ty} → Typed τ → Expr
  | _, .lit i => .int i.toNat
  | _, .var x => .ident x
  | _, .neg e => .unary .neg (exprOf e)
  | _, .arith op l r => .binary (arithOperator op) (exprOf l) (exprOf r)
  | _, .compare op l r => .binary (compareOperator op) (exprOf l) (exprOf r)
  | _, .not e => .unary .not (exprOf e)
  | _, .logic op l r => .binary (logicOperator op) (exprOf l) (exprOf r)

/-- The programs over named variables. -/
abbrev Code := WhileLang.Stmt (List Char)

mutual

/-- A statement, as the language writes it. -/
def stmtOf : Code → Stmt
  | .declare x e => .varDecl x (some (exprOf e))
  | .assign x e => .assign x (exprOf e)
  | .print args => .print (args.map fun a => exprOf a.2)
  | .ifThen c body => .ifThen (exprOf c) (stmtsOf body)
  | .ifElse c body other => .ifElse (exprOf c) (stmtsOf body) (stmtsOf other)
  | .while c body => .while (exprOf c) (stmtsOf body)
  | .break => .break
  | .continue => .continue
  | .block body => .block (stmtsOf body)

/-- Statements in a row. -/
def stmtsOf : List Code → List Stmt
  | [] => []
  | s :: ss => stmtOf s :: stmtsOf ss

end

/-- The expression can be written down: its literals are not negative and fit into an
`i64`, and its names are among `names`. -/
def Writable (names : Finset (List Char)) : {τ : TypedExpr.Ty} → Typed τ → Prop
  | _, .lit i => 0 ≤ i ∧ i < 2 ^ 63
  | _, .var x => x ∈ names
  | _, .neg e => Writable names e
  | _, .arith _ l r => Writable names l ∧ Writable names r
  | _, .compare _ l r => Writable names l ∧ Writable names r
  | _, .not e => Writable names e
  | _, .logic _ l r => Writable names l ∧ Writable names r

/-- The expressions whose value the evaluator finds: nothing leaves the range of `i64`,
no remainder traps, and no `<=` and no `>=` of equal integers decides. -/
def Computable (ρ : List Char → Int) {τ : TypedExpr.Ty} (e : Typed τ) : Prop :=
  e.Defined ρ InRange ∧ ¬Overflows ρ e ∧ ¬Flipped ρ e

variable {names : Finset (List Char)}

theorem valid_exprOf (hnames : ∀ x ∈ names, IsName x) :
    ∀ {τ : TypedExpr.Ty} {e : Typed τ}, Writable names e → (exprOf e).Valid
  | _, .lit i, h => .int (by have := h.1; have := h.2; omega)
  | _, .var x, h => .ident (hnames x h)
  | _, .neg _, h => .unary (valid_exprOf hnames h)
  | _, .arith _ _ _, h => .binary (valid_exprOf hnames h.1) (valid_exprOf hnames h.2)
  | _, .compare _ _ _, h => .binary (valid_exprOf hnames h.1) (valid_exprOf hnames h.2)
  | _, .not _, h => .unary (valid_exprOf hnames h)
  | _, .logic _ _ _, h => .binary (valid_exprOf hnames h.1) (valid_exprOf hnames h.2)

/-- The tree that is read back is the tree of the expression. -/
theorem represents_exprOf : ∀ {τ : TypedExpr.Ty} {e : Typed τ}, Writable names e →
    Represents (exprOf e).ast e
  | _, .lit i, h => by
      have hi : (Int64.ofNat i.toNat).toInt = i := by
        rw [Int64.toInt_ofNat_of_lt (by have := h.1; have := h.2; omega)]
        exact Int.toNat_of_nonneg h.1
      have hlit : Represents (exprOf (.lit i)).ast (.lit (Int64.ofNat i.toNat).toInt) := .lit rfl
      rwa [hi] at hlit
  | _, .var x, _ => .var rfl
  | _, .neg _, h => .neg rfl rfl rfl (represents_exprOf h)
  | _, .arith op _ _, h =>
      .arith rfl (by cases op <;> rfl) rfl (represents_exprOf h.1) (represents_exprOf h.2)
  | _, .compare op _ _, h =>
      .compare rfl (by cases op <;> rfl) rfl (represents_exprOf h.1) (represents_exprOf h.2)
  | _, .not _, h => .not rfl rfl rfl (represents_exprOf h)
  | _, .logic op _ _, h =>
      .logic rfl (by cases op <;> rfl) rfl (represents_exprOf h.1) (represents_exprOf h.2)

theorem exprTree_exprOf : ∀ {τ : TypedExpr.Ty} (e : Typed τ), ExprTree (exprOf e).ast := by
  have hunary : ∀ {n c : ASTNode}, n.type = .unaryOp → n.children = [c] → ExprTree c →
      ExprTree n := by
    intro n c hn hc h
    exact ⟨by rw [hn]; decide, by rw [hc]; exact List.forall_mem_singleton.mpr h⟩
  have hbinary : ∀ {n l r : ASTNode}, n.type = .binaryOp → n.children = [l, r] → ExprTree l →
      ExprTree r → ExprTree n := by
    intro n l r hn hc hl hr
    refine ⟨by rw [hn]; decide, ?_⟩
    rw [hc]
    exact List.forall_mem_cons.mpr ⟨hl, List.forall_mem_singleton.mpr hr⟩
  intro τ e
  induction e with
  | lit => exact ⟨show IsExprType .literalInt by decide, List.forall_mem_nil _⟩
  | var => exact ⟨show IsExprType .identifier by decide, List.forall_mem_nil _⟩
  | neg _ ih => exact hunary rfl rfl ih
  | not _ ih => exact hunary rfl rfl ih
  | arith _ _ _ ihl ihr => exact hbinary rfl rfl ihl ihr
  | compare _ _ _ ihl ihr => exact hbinary rfl rfl ihl ihr
  | logic _ _ _ ihl ihr => exact hbinary rfl rfl ihl ihr

/-- The programs whose statements stand where they may and can be written down. -/
abbrev Code.WellFormed (names : Finset (List Char)) (l : Bool) (s : Code) : Prop :=
  WhileLang.Stmt.WellFormed (· ∈ names) (fun e => Writable names e) l s

theorem mem_stmtsOf {s : Stmt} : ∀ {ss : List Code}, s ∈ stmtsOf ss → ∃ c ∈ ss, s = stmtOf c
  | [], h => absurd h List.not_mem_nil
  | c :: cs, h => by
      rcases List.mem_cons.mp h with heq | h
      · exact ⟨c, List.mem_cons_self, heq⟩
      · rcases mem_stmtsOf h with ⟨c', hc', heq⟩
        exact ⟨c', List.mem_cons_of_mem _ hc', heq⟩

/-- A well-formed statement has a printed form. -/
theorem valid_stmtOf {l : Bool} {s : Code} (hnames : ∀ x ∈ names, IsName x)
    (hs : s.WellFormed names l) : (stmtOf s).Valid := by
  have hblock : ∀ {body : List Code}, (∀ c ∈ body, (stmtOf c).Valid) →
      ∀ s ∈ stmtsOf body, s.Valid := by
    intro body hbody s hs
    rcases mem_stmtsOf hs with ⟨c, hc, rfl⟩
    exact hbody c hc
  induction hs with
  | declare hx he =>
      refine .varDecl (hnames _ hx) ?_
      rintro _ ⟨⟩
      exact valid_exprOf hnames he
  | assign hx he => exact .assign (hnames _ hx) (valid_exprOf hnames he)
  | print hargs =>
      refine .print fun e he => ?_
      rcases List.mem_map.mp he with ⟨a, ha, rfl⟩
      exact valid_exprOf hnames (hargs a ha)
  | ifThen hc _ ih => exact .ifThen (valid_exprOf hnames hc) (hblock ih)
  | ifElse hc _ _ ih ih' => exact .ifElse (valid_exprOf hnames hc) (hblock ih) (hblock ih')
  | «while» hc _ ih => exact .while (valid_exprOf hnames hc) (hblock ih)
  | «break» => exact .break
  | «continue» => exact .continue
  | block _ ih => exact .block (hblock ih)

theorem mem_asts {n : ASTNode} : ∀ {ss : List Stmt}, n ∈ Stmt.asts ss → ∃ s ∈ ss, n = s.ast
  | [], h => absurd h List.not_mem_nil
  | s :: ss, h => by
      rcases List.mem_cons.mp h with heq | h
      · exact ⟨s, List.mem_cons_self, heq⟩
      · rcases mem_asts h with ⟨s', hs', heq⟩
        exact ⟨s', List.mem_cons_of_mem _ hs', heq⟩

theorem mem_exprAsts {n : ASTNode} : ∀ {es : List Expr}, n ∈ Expr.asts es → ∃ e ∈ es, n = e.ast
  | [], h => absurd h List.not_mem_nil
  | e :: es, h => by
      rcases List.mem_cons.mp h with heq | h
      · exact ⟨e, List.mem_cons_self, heq⟩
      · rcases mem_exprAsts h with ⟨e', he', heq⟩
        exact ⟨e', List.mem_cons_of_mem _ he', heq⟩

/-- The tree of a well-formed statement is a tree of statements. -/
theorem stmtTree_stmtOf {l : Bool} {s : Code} (hs : s.WellFormed names l) :
    StmtTree l (stmtOf s).ast := by
  have hblock : ∀ {l : Bool} {body : List Code}, (∀ c ∈ body, StmtTree l (stmtOf c).ast) →
      StmtTree l (blockNode (Stmt.asts (stmtsOf body))) := by
    intro l body hbody
    refine .block rfl fun n hn => ?_
    rcases mem_asts hn with ⟨s, hs, rfl⟩
    rcases mem_stmtsOf hs with ⟨c, hc, rfl⟩
    exact hbody c hc
  induction hs with
  | declare =>
      exact .optional (.inl rfl) le_rfl (List.forall_mem_singleton.mpr (exprTree_exprOf _))
  | assign => exact .assign rfl rfl (exprTree_exprOf _)
  | print =>
      refine .print rfl fun n hn => ?_
      rcases mem_exprAsts hn with ⟨e, he, rfl⟩
      rcases List.mem_map.mp he with ⟨a, -, rfl⟩
      exact exprTree_exprOf a.2
  | ifThen _ _ ih => exact .ifThen rfl rfl (exprTree_exprOf _) (hblock ih)
  | ifElse _ _ _ ih ih' => exact .ifElse rfl rfl (exprTree_exprOf _) (hblock ih) (hblock ih')
  | «while» _ _ ih => exact .while rfl rfl (exprTree_exprOf _) (hblock ih)
  | «break» => exact .jump (.inl rfl)
  | «continue» => exact .jump (.inr rfl)
  | block _ ih => exact hblock ih

/-! ## Stores and environments -/

variable {σ : Type} {m : Memory σ} {ρ ρ' : WhileLang.Store (List Char)} {s t : Interp σ}

/-- The environment holds the store, in one frame whose names are among `names`. -/
structure Holds (names : Finset (List Char)) (ρ : WhileLang.Store (List Char))
    (s : Interp σ) : Prop where
  value : ∀ x k, ρ x = some k → ∃ i : Int64, lookup x s.env = some (.int i) ∧ i.toInt = k
  integers : ∀ p ∈ s.env, p.1 ∈ names ∧ ∃ i, p.2 = .int i
  nodup : (s.env.map Prod.fst).Nodup
  parents : s.parents = []
  noError : s.hasError = false

theorem Holds.onlyMemory (h : Holds names ρ s) (hmem : OnlyMemory s t) : Holds names ρ t := by
  rw [hmem]
  exact ⟨h.value, h.integers, h.nodup, h.parents, h.noError⟩

/-- There is room for one more variable. -/
theorem Holds.room (h : Holds names ρ s) (hnames : names.card < envMaxVars) :
    s.env.length < envMaxVars := by
  have hsub : (s.env.map Prod.fst).toFinset ⊆ names := by
    intro x hx
    rcases List.mem_map.mp (List.mem_toFinset.mp hx) with ⟨p, hp, rfl⟩
    exact (h.integers p hp).1
  have hcard := Finset.card_le_card hsub
  rw [List.toFinset_card_of_nodup h.nodup, List.length_map] at hcard
  exact lt_of_le_of_lt hcard hnames

theorem Holds.lookup_int (h : Holds names ρ s) {x : List Char} {v : Value}
    (hv : lookup x s.env = some v) : ∃ i, v = .int i := by
  rcases Option.map_eq_some_iff.mp hv with ⟨p, hp, rfl⟩
  exact (h.integers p (List.mem_of_find?_eq_some hp)).2

theorem mem_assign {x : List Char} {v : Value} {p : List Char × Value} {frame : Frame}
    (hp : p ∈ assign x v frame) : p ∈ frame ∨ p = (x, v) := by
  induction frame with
  | nil => exact .inl hp
  | cons e frame ih =>
      rcases e with ⟨n, old⟩
      rw [assign] at hp
      split at hp
      · rename_i hn
        rcases List.mem_cons.mp hp with rfl | hp
        · rw [beq_iff_eq.mp hn]
          exact .inr rfl
        · exact .inl (List.mem_cons_of_mem _ hp)
      · rcases List.mem_cons.mp hp with rfl | hp
        · exact .inl List.mem_cons_self
        · exact (ih hp).imp (List.mem_cons_of_mem _) id

/-- The store with another value in a variable that the frame knows. -/
theorem Holds.assign (h : Holds names ρ s) {x : List Char} {i : Int64} (hx : x ∈ names)
    (hlook : (lookup x s.env).isSome) :
    Holds names (Function.update ρ x (some i.toInt))
      { s with env := PolskiScript.assign x (.int i) s.env } := by
  refine ⟨fun y k hy => ?_, fun p hp => ?_, ?_, h.parents, h.noError⟩
  · change ∃ i' : Int64, lookup y (PolskiScript.assign x (.int i) s.env) = some (.int i') ∧ _
    rw [lookup_assign y _ hlook]
    by_cases hyx : y = x
    · subst hyx
      rw [Function.update_self] at hy
      rw [if_pos rfl]
      exact ⟨i, rfl, Option.some.inj hy⟩
    · rw [Function.update_of_ne hyx] at hy
      rw [if_neg hyx]
      exact h.value y k hy
  · rcases mem_assign hp with hp | rfl
    · exact h.integers p hp
    · exact ⟨hx, i, rfl⟩
  · change ((PolskiScript.assign x (.int i) s.env).map Prod.fst).Nodup
    rw [map_fst_assign]
    exact h.nodup

/-- The store with a new variable behind the others. -/
theorem Holds.append (h : Holds names ρ s) {x : List Char} {i : Int64} (hx : x ∈ names)
    (hlook : lookup x s.env = none) :
    Holds names (Function.update ρ x (some i.toInt)) { s with env := s.env ++ [(x, .int i)] } := by
  refine ⟨fun y k hy => ?_, fun p hp => ?_, ?_, h.parents, h.noError⟩
  · change ∃ i' : Int64, lookup y (s.env ++ [(x, .int i)]) = some (.int i') ∧ _
    rw [lookup_append y _ hlook]
    by_cases hyx : y = x
    · subst hyx
      rw [Function.update_self] at hy
      rw [if_pos rfl]
      exact ⟨i, rfl, Option.some.inj hy⟩
    · rw [Function.update_of_ne hyx] at hy
      rw [if_neg hyx]
      exact h.value y k hy
  · rcases List.mem_append.mp hp with hp | hp
    · exact h.integers p hp
    · rw [List.mem_singleton.mp hp]
      exact ⟨hx, i, rfl⟩
  · change ((s.env ++ [(x, Value.int i)]).map Prod.fst).Nodup
    rw [List.map_append, List.nodup_append]
    refine ⟨h.nodup, List.nodup_singleton _, fun a ha b hb hab => ?_⟩
    rw [List.map_singleton, List.mem_singleton] at hb
    rw [hab, hb] at ha
    exact lookup_eq_none_iff.mp hlook ha

/-- A declaration does to the environment what it does to the store. -/
theorem Holds.define (h : Holds names ρ s) (hnames : names.card < envMaxVars) {x : List Char}
    (hx : x ∈ names) (i : Int64) :
    ∃ t, (envDefine m x (.int i) s).result = .ok t ∧ t.out = s.out ∧
      t.returnValue = s.returnValue ∧
      Holds names (Function.update ρ x (some i.toInt)) t := by
  have hroom : ¬s.env.length ≥ envMaxVars := Nat.not_le.mpr (h.room hnames)
  unfold envDefine
  rw [if_neg hroom, Logged.result_bind_of_ok rfl]
  cases hlook : lookup x s.env with
  | none => exact ⟨_, rfl, rfl, rfl, h.append hx hlook⟩
  | some old =>
      -- the integer that is overwritten need not be freed
      rcases h.lookup_int hlook with ⟨j, rfl⟩
      exact ⟨_, rfl, rfl, rfl, h.assign hx (by rw [hlook]; rfl)⟩

/-- An assignment to a variable of the store. -/
theorem Holds.set (h : Holds names ρ s) {x : List Char} (hx : x ∈ names)
    (hdeclared : (ρ x).isSome) (i : Int64) :
    ∃ t, (envSet m x (.int i) s).result = .ok (true, t) ∧ t.out = s.out ∧
      t.returnValue = s.returnValue ∧
      Holds names (Function.update ρ x (some i.toInt)) t := by
  rcases Option.isSome_iff_exists.mp hdeclared with ⟨k, hk⟩
  rcases h.value x k hk with ⟨j, hlook, -⟩
  have hget : envGet x s.frames = some (.int j) := by
    rw [Interp.frames, envGet, hlook]
  refine ⟨_, ?_, ?_, ?_, h.assign (i := i) hx (by rw [hlook]; rfl)⟩
  swap
  · rfl
  swap
  · rfl
  unfold envSet
  rw [hget]
  change Except.ok (true, s.withFrames (assignFrames x (.int i) s.frames)) = _
  rw [Interp.frames, assignFrames, hlook, h.parents]
  cases s
  cases h.parents
  rfl

/-! ## The simulation -/

/-- How an outcome shows. -/
def outcomeOf : WhileLang.Outcome → Outcome
  | .normal => .normal
  | .break => .break
  | .continue => .continue

/-- What `value_print` prints for a value. -/
def printedOf : WhileLang.Piece → Printed
  | ⟨.int, k⟩ => .int (Int64.ofInt k)
  | ⟨.bool, b⟩ => .bool b

/-- A line of output: blanks between the values, and a line break. -/
def lineOf (pieces : List WhileLang.Piece) : List Printed :=
  (pieces.map printedOf).intersperse .space ++ [.newline]

/-- Several lines. -/
def linesOf (out : List (List WhileLang.Piece)) : List Printed := (out.map lineOf).flatten

theorem linesOf_append (out out' : List (List WhileLang.Piece)) :
    linesOf (out ++ out') = linesOf out ++ linesOf out' := by
  rw [linesOf, List.map_append, List.flatten_append]
  rfl

/-- An expression that yields a value is evaluated to it. -/
theorem evaluates_exprOf {τ : TypedExpr.Ty} {e : Typed τ} {v : τ.Val} (h : Holds names ρ s)
    (hyields : WhileLang.Yields Computable ρ e v) (he : Writable names e) :
    ∃ w t, Evaluates m (exprOf e).ast s w t ∧ w.Is τ v ∧ OnlyMemory s t := by
  have hbinds : Binds s.frames ρ.value e := by
    intro x hx
    rcases Option.isSome_iff_exists.mp (hyields.declared x hx) with ⟨k, hk⟩
    rcases h.value x k hk with ⟨i, hlook, hi⟩
    refine ⟨i, ?_, ?_⟩
    · rw [Interp.frames, envGet, hlook]
    · rw [hi, WhileLang.Store.value, hk, Option.getD_some]
  rcases hyields.defined with ⟨hdef, hover, hflip⟩
  rcases (meets (m := m) (represents_exprOf he) hdef s h.noError hbinds).1 hover with
    ⟨w, t, hcomes, hgives, -, ht⟩
  rcases settles_iff.mp hcomes with ⟨N, hN⟩
  have heval : Evaluates m (exprOf e).ast s w t := ⟨⟨N, hN N le_rfl⟩, ht⟩
  refine ⟨w, t, heval, ?_, heval.onlyMemory (exprTree_exprOf e)⟩
  rw [← hyields.denotes]
  exact hgives.is_iff.mpr hflip

/-- A condition that yields a truth. -/
theorem condition_exprOf {c : Typed .bool} {b : Bool} (h : Holds names ρ s)
    (hyields : WhileLang.Yields Computable ρ c b) (hc : Writable names c) :
    ∃ t, Condition m (exprOf c).ast s b t ∧ OnlyMemory s t := by
  rcases evaluates_exprOf (m := m) h hyields hc with ⟨w, t, heval, ⟨bytes, rfl⟩, hmem⟩
  exact ⟨t, ⟨_, heval, .bool b bytes⟩, hmem⟩

/-- The arguments of `drukuj` are printed with blanks between them. -/
theorem prints_exprOf {args : List (WhileLang.Arg (List Char))} {pieces : List WhileLang.Piece}
    (h : Holds names ρ s) (hprints : WhileLang.Prints Computable ρ args pieces)
    (hargs : ∀ a ∈ args, Writable names a.2) :
    ∃ t, Prints m (Expr.asts (args.map fun a => exprOf a.2)) s t ∧ Holds names ρ t ∧
      t.out = s.out ++ (pieces.map printedOf).intersperse .space ∧
      t.returnValue = s.returnValue := by
  induction hprints generalizing s with
  | nil => exact ⟨s, .nil, h, (List.append_nil _).symm, rfl⟩
  | @cons τ e v args pieces hyields hrest ih =>
      rcases List.forall_mem_cons.mp hargs with ⟨he, hargs⟩
      rcases evaluates_exprOf (m := m) h hyields he with ⟨w, s₁, heval, hw, hmem⟩
      have hs₁ := h.onlyMemory hmem
      have hout : s₁.out = s.out ∧ s₁.returnValue = s.returnValue := by
        rw [hmem]
        exact ⟨rfl, rfl⟩
      -- an integer or a boolean is printed, and there is nothing to free
      have hvalue : (∀ u : Interp σ, (valuePrint m w u).result = .ok (u.print (printedOf ⟨τ, v⟩))) ∧
          ∀ u : Interp σ, (valueFree m w u).result = .ok u := by
        cases τ with
        | int =>
            rcases hw with ⟨i, rfl, rfl⟩
            refine ⟨fun u => ?_, fun _ => rfl⟩
            rw [printedOf, Int64.ofInt_toInt]
            rfl
        | bool =>
            rcases hw with ⟨bytes, rfl⟩
            exact ⟨fun _ => rfl, fun _ => rfl⟩
      have hprinted : ∀ p, Holds names ρ (s₁.print p) := fun p =>
        ⟨hs₁.value, hs₁.integers, hs₁.nodup, hs₁.parents, hs₁.noError⟩
      cases hrest with
      | nil =>
          refine ⟨_, .cons heval (hvalue.1 s₁) (hvalue.2 _) .nil, hprinted _, ?_, hout.2⟩
          change s₁.out ++ [printedOf ⟨τ, v⟩] = _
          rw [hout.1]
          rfl
      | @cons τ' e' v' args' pieces' hyields' hrest' =>
          have hspaced : Holds names ρ ((s₁.print (printedOf ⟨τ, v⟩)).print .space) :=
            ⟨hs₁.value, hs₁.integers, hs₁.nodup, hs₁.parents, hs₁.noError⟩
          rcases ih hspaced hargs with ⟨t, ht, hholds, hmore, hreturn⟩
          refine ⟨t, .cons heval (hvalue.1 s₁) (hvalue.2 _) ht, hholds, ?_, hreturn.trans hout.2⟩
          rw [hmore]
          change (s₁.out ++ [printedOf ⟨τ, v⟩] ++ [.space]) ++ _ = _
          rw [hout.1, List.map_cons, List.map_cons, List.map_cons, List.intersperse_cons_cons]
          simp only [List.append_assoc, List.cons_append, List.nil_append]

/-- What a statement of the interpreter has to do for one of `WhileLang`. -/
structure Imitates (m : Memory σ) (names : Finset (List Char)) (n : ASTNode) (s : Interp σ)
    (o : WhileLang.Outcome) (ρ' : WhileLang.Store (List Char))
    (out : List (List WhileLang.Piece)) (t : Interp σ) : Prop where
  step : BigStep m n s (outcomeOf o) t
  holds : Holds names ρ' t
  out : t.out = s.out ++ linesOf out
  returnValue : t.returnValue = s.returnValue

theorem Holds.done (h : Holds names ρ s) : Holds names ρ (PolskiScript.done m s) :=
  h.onlyMemory (onlyMemory_done s)

section Imitation

variable {o o' : WhileLang.Outcome} {out out' : List (List WhileLang.Piece)} {n : ASTNode}

/-- What is put out behind a condition that changed the memory only. -/
theorem Imitates.sameBefore {u : Interp σ} (h : Imitates m names n t o ρ' out u)
    (hmem : OnlyMemory s t) : u.out = s.out ++ linesOf out ∧ u.returnValue = s.returnValue := by
  rw [h.out, h.returnValue, hmem]
  exact ⟨rfl, rfl⟩

/-- A branch behind its condition. -/
theorem Imitates.behind {n' : ASTNode} {u : Interp σ} (h : Imitates m names n' t o ρ' out u)
    (hmem : OnlyMemory s t) (hstep : BigStep m n s (outcomeOf o) u) :
    Imitates m names n s o ρ' out u :=
  ⟨hstep, h.holds, (h.sameBefore hmem).1, (h.sameBefore hmem).2⟩

/-- The statement returns its null behind another one. -/
theorem Imitates.doneBehind {n' : ASTNode} (h : Imitates m names n' s o ρ' out t)
    (hstep : BigStep m n s (outcomeOf o') (PolskiScript.done m t)) :
    Imitates m names n s o' ρ' out (PolskiScript.done m t) :=
  ⟨hstep, h.holds.done, h.out, h.returnValue⟩

/-- A statement that puts nothing out and leaves the store as it is. -/
theorem Imitates.nothing (hs : Holds names ρ s) (hmem : OnlyMemory s t)
    (hstep : BigStep m n s (outcomeOf o) t) : Imitates m names n s o ρ [] t := by
  refine ⟨hstep, hs.onlyMemory hmem, ?_, ?_⟩
  · rw [hmem]
    exact (List.append_nil _).symm
  · rw [hmem]

/-- One statement behind another one. -/
theorem Imitates.trans {n₁ n₂ : ASTNode} {u : Interp σ} (h₁ : Imitates m names n₁ s o' ρ out t)
    (h₂ : Imitates m names n₂ t o ρ' out' u) (hstep : BigStep m n s (outcomeOf o) u) :
    Imitates m names n s o ρ' (out ++ out') u := by
  refine ⟨hstep, h₂.holds, ?_, h₂.returnValue.trans h₁.returnValue⟩
  rw [h₂.out, h₁.out, linesOf_append, List.append_assoc]

variable {x : List Char} {e : Typed .int} {k : Int}

theorem imitates_declare (hs : Holds names ρ s) (hnames : names.card < envMaxVars)
    (hx : x ∈ names) (he : Writable names e) (hyields : WhileLang.Yields Computable ρ e k) :
    ∃ t, Imitates m names (stmtOf (.declare x e)).ast s .normal
      (Function.update ρ x (some k)) [] t := by
  rcases evaluates_exprOf (m := m) hs hyields he with ⟨w, s₁, heval, ⟨i, rfl, rfl⟩, hmem⟩
  rcases (hs.onlyMemory hmem).define (m := m) hnames hx i with ⟨t, hdefine, hout, hret, hholds⟩
  have hsimple : Simple m (stmtOf (.declare x e)).ast s .normal (PolskiScript.done m t) :=
    ⟨rfl, .int i, s₁, t, heval, hdefine, rfl⟩
  refine ⟨PolskiScript.done m t, .simple hsimple, hholds.done, ?_, ?_⟩
  · change t.out = _
    rw [hout, hmem]
    exact (List.append_nil _).symm
  · change t.returnValue = _
    rw [hret, hmem]

theorem imitates_assign (hs : Holds names ρ s) (hx : x ∈ names) (he : Writable names e)
    (hdeclared : (ρ x).isSome) (hyields : WhileLang.Yields Computable ρ e k) :
    ∃ t, Imitates m names (stmtOf (.assign x e)).ast s .normal
      (Function.update ρ x (some k)) [] t := by
  rcases evaluates_exprOf (m := m) hs hyields he with ⟨w, s₁, heval, ⟨i, rfl, rfl⟩, hmem⟩
  rcases (hs.onlyMemory hmem).set (m := m) hx hdeclared i with ⟨t, hset, hout, hret, hholds⟩
  have hsimple : Simple m (stmtOf (.assign x e)).ast s .normal t :=
    ⟨rfl, _, .int i, s₁, rfl, heval, hset⟩
  refine ⟨t, .simple hsimple, hholds, ?_, ?_⟩
  · rw [hout, hmem]
    exact (List.append_nil _).symm
  · rw [hret, hmem]

theorem imitates_print {args : List (WhileLang.Arg (List Char))}
    {pieces : List WhileLang.Piece} (hs : Holds names ρ s)
    (hprints : WhileLang.Prints Computable ρ args pieces)
    (hargs : ∀ a ∈ args, Writable names a.2) :
    ∃ t, Imitates m names (stmtOf (.print args)).ast s .normal ρ [pieces] t := by
  rcases prints_exprOf (m := m) hs hprints hargs with ⟨t, ht, hholds, hout, hret⟩
  have hline : Holds names ρ (t.print .newline) :=
    ⟨hholds.value, hholds.integers, hholds.nodup, hholds.parents, hholds.noError⟩
  have hsimple : Simple m (stmtOf (.print args)).ast s .normal
      (PolskiScript.done m (t.print .newline)) := ⟨rfl, t, ht, rfl⟩
  refine ⟨_, .simple hsimple, hline.done, ?_, hret⟩
  change t.out ++ [.newline] = _
  rw [hout, linesOf, List.map_singleton, List.flatten_singleton, lineOf, List.append_assoc]

/-- Every statement, by induction on its derivation. -/
theorem imitates {l : Bool} {c : Code} (hnames : names.card < envMaxVars)
    (h : WhileLang.BigStep Computable c ρ o ρ' out) (hc : c.WellFormed names l)
    (hs : Holds names ρ s) : ∃ t, Imitates m names (stmtOf c).ast s o ρ' out t := by
  -- induction on the meaning; the environment that holds the store is the invariant
  induction h generalizing l s with
  | declare hyields =>
      cases hc with
      | declare hx he => exact imitates_declare hs hnames hx he hyields
  | assign hyields hdeclared =>
      cases hc with
      | assign hx he => exact imitates_assign hs hx he hdeclared hyields
  | print hprints =>
      cases hc with
      | print hargs => exact imitates_print hs hprints hargs
  | ifThenTrue hyields _ ih =>
      cases hc with
      | ifThen hcond hbody =>
          rcases condition_exprOf (m := m) hs hyields hcond with ⟨s₁, hcondition, hmem⟩
          rcases ih (.block hbody) (hs.onlyMemory hmem) with ⟨t, ht⟩
          exact ⟨t, ht.behind hmem (.ifTrue rfl rfl hcondition ht.step)⟩
  | ifThenFalse hyields =>
      cases hc with
      | ifThen hcond _ =>
          rcases condition_exprOf (m := m) hs hyields hcond with ⟨s₁, hcondition, hmem⟩
          exact ⟨_, .nothing hs (hmem.trans (onlyMemory_done s₁)) (.ifNone rfl rfl hcondition)⟩
  | ifElseTrue hyields _ ih =>
      cases hc with
      | ifElse hcond hbody _ =>
          rcases condition_exprOf (m := m) hs hyields hcond with ⟨s₁, hcondition, hmem⟩
          rcases ih (.block hbody) (hs.onlyMemory hmem) with ⟨t, ht⟩
          exact ⟨t, ht.behind hmem (.ifTrue rfl rfl hcondition ht.step)⟩
  | ifElseFalse hyields _ ih =>
      cases hc with
      | ifElse hcond _ hother =>
          rcases condition_exprOf (m := m) hs hyields hcond with ⟨s₁, hcondition, hmem⟩
          rcases ih (.block hother) (hs.onlyMemory hmem) with ⟨t, ht⟩
          exact ⟨t, ht.behind hmem (.ifFalse rfl rfl hcondition ht.step)⟩
  | whileFalse hyields =>
      cases hc with
      | «while» hcond _ =>
          rcases condition_exprOf (m := m) hs hyields hcond with ⟨s₁, hcondition, hmem⟩
          exact ⟨_, .nothing hs (hmem.trans (onlyMemory_done s₁)) (.whileFalse rfl rfl hcondition)⟩
  | whileBreak hyields _ ih =>
      cases hc with
      | «while» hcond hbody =>
          rcases condition_exprOf (m := m) hs hyields hcond with ⟨s₁, hcondition, hmem⟩
          rcases ih (.block hbody) (hs.onlyMemory hmem) with ⟨t, ht⟩
          rcases ht.sameBefore hmem with ⟨hout, hret⟩
          exact ⟨_, .whileBreak rfl rfl hcondition ht.step, ht.holds.done, hout, hret⟩
  | @whileNext c body ρ ρ₁ ρ' o o' out out' hyields _ ho _ ih ih' =>
      cases hc with
      | «while» hcond hbody =>
          rcases condition_exprOf (m := m) hs hyields hcond with ⟨s₁, hcondition, hmem⟩
          rcases ih (.block hbody) (hs.onlyMemory hmem) with ⟨t, ht⟩
          rcases ih' (.while (l := l) hcond hbody) ht.holds with ⟨u, hu⟩
          -- a round that ends is followed by the rest of the loop
          have hagain : outcomeOf o = .normal ∨ outcomeOf o = .continue := by
            cases o with
            | normal => exact .inl rfl
            | «break» => exact absurd rfl ho
            | «continue» => exact .inr rfl
          rcases ht.sameBefore hmem with ⟨hout, hret⟩
          refine ⟨u, .whileNext rfl rfl hcondition ht.step hagain hu.step, hu.holds, ?_,
            hu.returnValue.trans hret⟩
          rw [hu.out, hout, linesOf_append, List.append_assoc]
  | «break» => exact ⟨_, .nothing hs (onlyMemory_done s) (.simple ⟨rfl, rfl⟩)⟩
  | «continue» => exact ⟨_, .nothing hs (onlyMemory_done s) (.simple ⟨rfl, rfl⟩)⟩
  | blockNil => exact ⟨_, .nothing hs (onlyMemory_done s) (.blockNil rfl rfl)⟩
  | @blockStop c cs ρ ρ' o out _ ho ih =>
      cases hc with
      | block hbody =>
          rcases ih (hbody c List.mem_cons_self) hs with ⟨t, ht⟩
          -- a jump leaves the block with what it has put out so far
          have ho' : outcomeOf o ≠ .normal := by
            cases o with
            | normal => exact absurd rfl ho
            | «break» | «continue» => exact fun h => nomatch h
          exact ⟨_, ht.doneBehind (.blockStop rfl rfl ht.step ho')⟩
  | @blockNext c cs ρ ρ₁ ρ' o out out' _ _ ih ih' =>
      cases hc with
      | block hbody =>
          rcases List.forall_mem_cons.mp hbody with ⟨hc, hcs⟩
          rcases ih hc hs with ⟨t, ht⟩
          rcases ih' (.block hcs) ht.holds with ⟨u, hu⟩
          exact ⟨u, ht.trans hu (.blockNext rfl rfl ht.step hu.step)⟩

end Imitation

/-! ## Whole runs -/

/-- A block that is passed without a flag and without an error is a program. -/
theorem runProgram_of_runBlock {fuel : Nat} {cs : List ASTNode}
    (h : (runBlock (interpreterEval m fuel) cs s).result = .ok t) (hflags : NoFlags t)
    (hnone : t.hasError = false) : (runProgram (interpreterEval m fuel) cs s).result = .ok t := by
  induction cs generalizing s with
  | nil => exact h
  | cons c cs ih =>
      rw [runBlock] at h
      rcases Logged.result_bind.mp h with ⟨⟨v, s₁⟩, hc, h⟩
      rcases Logged.result_bind.mp h with ⟨_, -, h⟩
      rw [runProgram, Logged.result_bind_of_ok hc, Logged.result_bind_of_ok rfl]
      split at h
      · -- a flag that is set would still be set at the end
        rename_i hset
        cases h
        simp [hflags.returnFlag, hflags.breakFlag, hflags.continueFlag] at hset
      · have hs₁ : s₁.hasError = false := no_error_before keeps_runBlock h hnone
        rw [if_neg (by simp [hs₁])]
        exact ih h

/-- The integers of an environment are freed by doing nothing. -/
theorem result_envFree {frame : Frame} (h : ∀ p ∈ frame, ∃ i, p.2 = .int i) :
    (envFree m frame s).result = .ok s := by
  induction frame with
  | nil => rfl
  | cons e frame ih =>
      rcases e with ⟨x, v⟩
      rcases List.forall_mem_cons.mp h with ⟨⟨i, hi⟩, hrest⟩
      have hv : v = .int i := hi
      rw [hv, envFree]
      exact ih hrest

/-- A well-formed program whose meaning is that it puts out these lines: the interpreter
parses every text of it, runs to the end without an error and puts out these lines. -/
theorem program_output (m : Memory σ) {ss : List Code} {out : List (List WhileLang.Piece)}
    {names : Finset (List Char)} (hcard : names.card < envMaxVars)
    (hss : ∀ c ∈ ss, c.WellFormed names false)
    (hruns : WhileLang.Runs Computable ss out) {g text : List Char} {source : Nat → Char}
    (hg : Gap g) (htext : Written (Stmt.listTokens (stmtsOf ss)) text)
    (hsource : ReadsAt source 0 (g ++ (text ++ [nul]))) (mem : σ) :
    ∃ t, t.hasError = false ∧ t.out = linesOf out ∧ ∃ N, ∀ fuel ≥ N,
      (polskiscriptEvalString m fuel source mem).result = .ok t := by
  rcases hruns with ⟨o, ρ, hstep⟩
  have hblock : Code.WellFormed names false (.block ss) := .block hss
  have ho : o = .normal := hstep.outcome hblock
  subst ho
  have hstart : Holds names (fun _ => none) (interpreterInit m mem) :=
    ⟨fun _ _ h => (nomatch h), fun _ h => absurd h List.not_mem_nil, List.nodup_nil, rfl, rfl⟩
  rcases imitates (m := m) hcard hstep hblock hstart with ⟨t, ht⟩
  -- the block that the program would be, and from it the program
  rcases done_of_bigStep ht.step (stmtTree_stmtOf hblock) ⟨rfl, rfl, rfl⟩ rfl with
    ⟨⟨v, hreturns⟩, hflags, hnone⟩
  rcases hreturns.passes rfl rfl with ⟨u, ⟨N, hpass⟩, hu⟩
  have hut : t = done m u := hflags.withOutcome_normal.symm.trans hu
  have huflags : NoFlags u := by
    rw [hut] at hflags
    exact ⟨hflags.breakFlag, hflags.continueFlag, hflags.returnFlag⟩
  have hunone : u.hasError = false := by
    rw [hut] at hnone
    exact hnone
  have hprogram := runProgram_of_runBlock hpass huflags hunone
  have hreturns : Evals m (programNode (stmtsOf ss)) (interpreterInit m mem)
      (valueCreateNull m u).1 t := by
    refine returns_of_node N ?_
    rw [hut]
    exact result_thenNull hprogram
  rcases reads_program hg htext hsource with ⟨p, -, -, hp, hparse⟩
  rcases settles_iff.mp hparse with ⟨N₁, hN₁⟩
  rcases hreturns with ⟨N₂, hN₂⟩
  refine ⟨t, hnone, ?_, N₁ + N₂, fun fuel hfuel => ?_⟩
  · exact ht.out
  have heval := Evals.of_le hN₂ (show N₂ ≤ fuel by omega)
  have hexecute : (interpreterExecute m fuel source (interpreterInit m mem)).result = .ok t := by
    have hparsed : ((parseSource fuel source).mapLog RunEvent.parse : Run σ _).result =
        .ok (some (programNode (stmtsOf ss)), p) := hN₁ fuel (by omega)
    rw [interpreterExecute, Logged.result_bind_of_ok hparsed]
    dsimp only
    rw [hp, if_neg (by decide), Logged.result_bind_of_ok heval]
    dsimp only
    rw [hnone]
    rfl
  rw [polskiscriptEvalString, Logged.result_bind_of_ok hexecute, interpreterFree,
    Logged.result_bind_of_ok (result_envFree fun p hp => (ht.holds.integers p hp).2),
    ht.returnValue]
  rfl

/-- `zmienna x = 1; dopoki (0 < x) { drukuj(x); x = x - 2; }` -/
def countDown : List Code :=
  [.declare ['x'] (.lit 1), .while (.compare .lt (.lit 0) (.var ['x']))
    [.print [⟨.int, .var ['x']⟩], .assign ['x'] (.arith .sub (.var ['x']) (.lit 2))]]

/-- The store that knows `x` only. -/
def onlyX (k : Int) : WhileLang.Store (List Char) := Function.update (fun _ => none) ['x'] (some k)

theorem countDown_wellFormed : ∀ c ∈ countDown, Code.WellFormed {['x']} false c := by
  have hx : ['x'] ∈ ({['x']} : Finset (List Char)) := Finset.mem_singleton_self _
  refine List.forall_mem_cons.mpr ⟨.declare hx ⟨by decide, by decide⟩,
    List.forall_mem_singleton.mpr (.while ⟨⟨by decide, by decide⟩, hx⟩ ?_)⟩
  refine List.forall_mem_cons.mpr ⟨.print (List.forall_mem_singleton.mpr hx),
    List.forall_mem_singleton.mpr (.assign hx ⟨hx, by decide, by decide⟩)⟩

/-- The loop prints 1 and ends, as 1 - 2 is not positive. -/
theorem countDown_runs : WhileLang.Runs Computable countDown [[⟨.int, 1⟩]] := by
  have hx : ∀ k, (onlyX k).value ['x'] = k := fun k => rfl
  have hlit : WhileLang.Yields Computable (fun _ => none) (.lit 1 : Typed .int) 1 :=
    ⟨fun _ h => h.elim, ⟨trivial, fun h => h, fun h => h⟩, rfl⟩
  have hcond : ∀ k, WhileLang.Yields Computable (onlyX k)
      (.compare .lt (.lit 0) (.var ['x'])) (decide (0 < k)) := by
    intro k
    refine ⟨?_, ⟨⟨trivial, trivial⟩, fun h => h.elim id id, ?_⟩, rfl⟩
    · rintro x (h | rfl)
      · exact h.elim
      · rfl
    · rintro ⟨h | h, -⟩ <;> cases h
  have hvar : ∀ k, WhileLang.Yields Computable (onlyX k) (.var ['x'] : Typed .int) k := by
    intro k
    refine ⟨?_, ⟨trivial, fun h => h, fun h => h⟩, rfl⟩
    rintro x rfl
    rfl
  have hsub : WhileLang.Yields Computable (onlyX 1)
      (.arith .sub (.var ['x']) (.lit 2) : Typed .int) (-1) := by
    refine ⟨?_, ⟨⟨trivial, trivial, ?_, ?_⟩, ?_, fun h => h⟩, rfl⟩
    · rintro x (rfl | h)
      · rfl
      · exact h.elim
    · rintro (h | h) <;> cases h
    · exact ⟨by decide, by decide⟩
    · rintro (h | h | h)
      · exact h
      · exact h
      · cases h.1
  have hset : Function.update (onlyX 1) ['x'] (some (-1)) = onlyX (-1) :=
    Function.update_idem _ _ _
  have hbody : WhileLang.BigStep Computable (.block [.print [⟨.int, .var ['x']⟩],
      .assign ['x'] (.arith .sub (.var ['x']) (.lit 2))]) (onlyX 1) .normal (onlyX (-1))
      [[⟨.int, 1⟩]] := by
    have hassign := WhileLang.BigStep.assign (x := ['x']) hsub rfl
    rw [hset] at hassign
    exact .blockNext (.print (.cons (hvar 1) .nil)) (.blockNext hassign .blockNil)
  have hloop := WhileLang.BigStep.whileNext (hcond 1) hbody (by decide) (.whileFalse (hcond (-1)))
  exact ⟨_, _, .blockNext (.declare hlit) (.blockNext hloop .blockNil)⟩

theorem program_output_countDown : ∃ t : Interp Unit, t.hasError = false ∧
    t.out = [.int 1, .newline] ∧ ∃ N, ∀ fuel ≥ N,
      (polskiscriptEvalString plainMemory fuel (sourceOf
        "zmienna x = 1 ; dopoki ( 0 < x ) { drukuj ( x ) ; x = x - 2 ; } ".toList) ()).result =
        .ok t := by
  have hname : ∀ x ∈ ({['x']} : Finset (List Char)), IsName x := by
    intro x hx
    rw [Finset.mem_singleton.mp hx]
    exact ⟨⟨'x', [], rfl, by decide, by simp⟩, by simp [keywords], by decide⟩
  have hvalid : ∀ s ∈ stmtsOf countDown, s.Valid := by
    intro s hs
    rcases mem_stmtsOf hs with ⟨c, hc, rfl⟩
    exact valid_stmtOf hname (countDown_wellFormed c hc)
  exact program_output plainMemory (by decide) countDown_wellFormed countDown_runs .nil
    (written_spaced (allLexemes_list fun s hs => (hvalid s hs).tokens)) (readsAt_sourceOf _ []) ()

end PolandOS.PolskiScript
