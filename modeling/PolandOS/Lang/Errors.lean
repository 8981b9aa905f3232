import PolandOS.Lib.Traces
import PolandOS.Lang.Arithmetic

/-! # What happens behind an error

`has_error` is looked at when the evaluation of a node begins, and when a statement of a
program ends. The nodes around the one that fails go on with the value it returns.

* `error_stops_script`: a script stops without side effects, if none of the nodes around
  the one that fails has an effect left and the loops around it take the value for false
-/

namespace PolandOS.PolskiScript

open Logging

variable {σ : Type}

/-! ## Watching a run -/

/-- A node under evaluation. -/
structure Opened where
  node : ASTNode
  /-- What comes next is the body of the loop. -/
  bodyNext : Bool
  /-- The loop has begun to test its condition since the error. -/
  tested : Bool

/-- A node inside it begins. -/
def Opened.begins (failed : Bool) (o : Opened) : Opened :=
  { o with bodyNext := false, tested := o.tested || failed && !o.bodyNext }

/-- What has been seen of a run. -/
structure Watch where
  /-- The innermost first. -/
  nesting : List Opened
  /-- The variables and what had been printed when the error was set. -/
  failed : Option (List Frame × List Printed)

/-- The variables and what has been printed, if there is an error. -/
def Interp.failure (s : Interp σ) : Option (List Frame × List Printed) :=
  if s.hasError then some (s.frames, s.out) else none

def Watch.start (s : Interp σ) : Watch := ⟨[], s.failure⟩

/-- The next event. -/
def watch (w : Watch) : RunEvent σ → Watch
  | .begun n _ =>
    { w with nesting := ⟨n, false, false⟩ :: w.nesting.modifyHead (Opened.begins w.failed.isSome) }
  | .condition v =>
    { w with nesting := w.nesting.modifyHead fun o => { o with bodyNext := v.isTrue } }
  | .evaluated _ _ s => ⟨w.nesting.tail, w.failed.or s.failure⟩
  | _ => w

/-- The node has nothing left to do but to return. -/
def Spares (s : Interp σ) (n : ASTNode) : Prop :=
  match n.type with
  | .varDecl => s.env.length ≥ envMaxVars
  | .assign => envGet n.strValue s.frames = none
  | .print => False
  | _ => True

/-- The loop around is about to test its condition. -/
def Testing (w : Watch) : Prop :=
  ∃ o ∈ w.nesting.head?, o.node.type = .while ∧ o.bodyNext = false

/-- The condition on a step of a run. Where the error is set, the nodes around have nothing
left to do; where a loop tests its condition with the error set, the bytes that it takes for
the value are zero. -/
def Harmless (m : Memory σ) (w : Watch) : RunEvent σ → Prop
  | .begun _ s => w.failed.isSome → Testing w → (m.uninitialised s.mem).1 = 0
  | .evaluated _ _ s => w.failed = none → s.hasError → ∀ o ∈ w.nesting.tail, Spares s o.node
  | _ => True

/-- Since the error no variable has been defined or changed, and nothing has been printed. -/
def Unchanged (w : Watch) (s : Interp σ) : Prop := w.failed.isSome → w.failed = s.failure

/-- The loop around has not tested its condition since the error. -/
def Untested (w : Watch) : Prop :=
  w.failed.isSome → ∀ o ∈ w.nesting.head?, o.node.type = .while → o.tested = false

/-- Behind an error there are no side effects, and no loop goes on once it has tested its
condition. -/
def Stopped (w : Watch) : RunEvent σ → Prop
  | .begun _ s => Unchanged w s ∧ Untested w
  | .evaluated _ _ s => Unchanged w s
  | .declared _ taken _ => w.failed.isSome → taken = false
  | .assigned _ found _ => w.failed.isSome → found = false
  | _ => True

/-! ## States and what has been seen -/

variable {m : Memory σ} {α β : Type} {w : Watch} {s t : Interp σ}

/-- No effect and no error lies between. -/
structure SameEffects (s t : Interp σ) : Prop where
  error : t.hasError = s.hasError
  env : t.env = s.env
  parents : t.parents = s.parents
  out : t.out = s.out

theorem SameEffects.refl (s : Interp σ) : SameEffects s s := ⟨rfl, rfl, rfl, rfl⟩

theorem SameEffects.frames (h : SameEffects s t) : t.frames = s.frames := by
  rw [Interp.frames, Interp.frames, h.env, h.parents]

theorem SameEffects.failure (h : SameEffects s t) : t.failure = s.failure := by
  rw [Interp.failure, Interp.failure, h.error, h.frames, h.out]

/-- What has been seen is so, and behind an error the open nodes have nothing left to do. -/
structure Ready (w : Watch) (s : Interp σ) : Prop where
  failed : w.failed = s.failure
  spares : s.hasError → ∀ o ∈ w.nesting, Spares s o.node

theorem Ready.of_same (h : Ready w s) (hst : SameEffects s t) : Ready w t := by
  refine ⟨h.failed.trans hst.failure.symm, fun herr o ho => ?_⟩
  have hspares := h.spares (hst.error ▸ herr) o ho
  unfold Spares at hspares ⊢
  rw [hst.env, hst.frames]
  exact hspares

theorem Ready.failed_none (h : Ready w s) (hs : s.hasError = false) : w.failed = none := by
  rw [h.failed, Interp.failure, hs]
  rfl

/-- Before an error nothing is asked for. -/
theorem before_error {p : Prop} (hnone : w.failed = none) : w.failed.isSome → p := by
  intro hsome
  rw [hnone] at hsome
  cases hsome

/-- Before an error everything is allowed. -/
theorem ready_of_none (hw : w.failed = none) (ht : t.hasError = false) : Ready w t := by
  refine ⟨?_, fun herr => ?_⟩
  · rw [hw, Interp.failure, ht]
    rfl
  · rw [ht] at herr
    cases herr

/-- The same for the end of a node, which may have set the error. -/
def Behaves (w : Watch) (s : Interp σ) : Prop := w.failed = none ∨ Ready w s

theorem Ready.behaves (h : Ready w s) : Behaves w s := .inr h

theorem Ready.behaves_fail (h : Ready w s) (text : List Char) : Behaves w (s.fail text) := by
  cases herr : s.hasError with
  | false => exact .inl (h.failed_none herr)
  | true => exact .inr (h.of_same ⟨herr.symm, rfl, rfl, rfl⟩)

/-! ## Computations -/

/-- In a harmless run the computation stops as it should, with `post`. -/
abbrev Watches (m : Memory σ) (w : Watch) (x : Run σ α) (post : α → Watch → Prop) : Prop :=
  Logging.Follows watch (Harmless m) Stopped w x post

variable {x : Run σ α} {f : α → Run σ β} {M : α → Watch → Prop} {post : β → Watch → Prop}

/-- An event that is not watched. -/
theorem watches_emit {e : RunEvent σ} {f : Unit → Run σ β} (hplain : watch w e = w)
    (hstopped : Stopped w e) (hf : Watches m w (f ()) post) :
    Watches m w (Logged.emit e >>= f) post := by
  refine follows_emit (fun _ => hstopped) fun _ => ?_
  rw [hplain]
  exact hf

/-- A computation without an effect. -/
theorem watches_same {st : α → Interp σ}
    (hx : Watches m w x fun a w' => w' = w ∧ SameEffects s (st a))
    (hf : ∀ a, SameEffects s (st a) → Watches m w (f a) post) : Watches m w (x >>= f) post := by
  refine follows_bind hx ?_
  rintro a _ ⟨rfl, ha⟩
  exact hf a ha

theorem watches_valueFree (v : Value) (s : Interp σ) :
    Watches m w (valueFree m v s) fun t w' => w' = w ∧ SameEffects s t := by
  unfold valueFree
  split
  · refine follows_ite (fun _ => follows_pure ⟨rfl, .refl s⟩) fun _ => ?_
    refine watches_emit rfl trivial ?_
    refine follows_bind (M := fun _ w' => w' = w) (follows_ofOption fun _ _ => rfl) ?_
    rintro mem _ rfl
    exact follows_pure ⟨rfl, rfl, rfl, rfl, rfl⟩
  · exact follows_pure ⟨rfl, .refl s⟩

/-- Before an error a value may be printed. -/
theorem watches_valuePrint (hs : s.hasError = false) (v : Value) :
    Watches m w (valuePrint m v s) fun t w' => w' = w ∧ t.hasError = false := by
  unfold valuePrint
  split
  case h_5 => exact watches_emit rfl trivial (follows_pure ⟨rfl, hs⟩)
  all_goals exact follows_pure ⟨rfl, hs⟩

theorem watches_envDefine (hw : Ready w s) (hfull : s.hasError → s.env.length ≥ envMaxVars)
    (name : List Char) (v : Value) :
    Watches m w (envDefine m name v s) fun t w' => w' = w ∧ Ready w t := by
  unfold envDefine
  refine follows_ite (fun _ => ?_) fun hroom => ?_
  · exact watches_emit rfl (fun _ => rfl) (follows_pure ⟨rfl, hw⟩)
  -- behind an error the scope is full, so here there is none
  have hs : s.hasError = false := by
    rw [← Bool.not_eq_true]
    exact fun herr => hroom (hfull herr)
  have hnone := hw.failed_none hs
  refine watches_emit rfl (before_error hnone) ?_
  split
  · refine watches_same (watches_valueFree _ s) fun t ht => ?_
    exact follows_pure ⟨rfl, ready_of_none hnone (ht.error.trans hs)⟩
  · exact follows_pure ⟨rfl, ready_of_none hnone hs⟩

theorem watches_envSet (hw : Ready w s) {name : List Char}
    (hfree : s.hasError → envGet name s.frames = none) (v : Value) :
    Watches m w (envSet m name v s) fun r w' => w' = w ∧ Ready w r.2 := by
  unfold envSet
  split
  case h_1 old hget =>
    have hs : s.hasError = false := by
      rw [← Bool.not_eq_true]
      intro herr
      rw [hfree herr] at hget
      cases hget
    have hnone := hw.failed_none hs
    refine watches_emit rfl (before_error hnone) ?_
    refine watches_same (watches_valueFree _ s) fun t ht => ?_
    exact follows_pure ⟨rfl, ready_of_none hnone (ht.error.trans hs)⟩
  case h_2 => exact watches_emit rfl (fun _ => rfl) (follows_pure ⟨rfl, hw⟩)

theorem sameEffects_null (s : Interp σ) : SameEffects s (valueCreateNull m s).2 :=
  ⟨rfl, rfl, rfl, rfl⟩

theorem watches_intArith (op : IntOp) (a b : Int64) (s : Interp σ) :
    Watches m w ((intArith op a b : Run σ Int64) >>= fun i => pure (Value.int i, s))
      fun r w' => w' = w ∧ r.2 = s := by
  refine follows_bind (M := fun _ w' => w' = w) ?_ ?_
  · refine watches_emit rfl trivial ?_
    exact follows_ite (fun _ => follows_stop _) fun _ => follows_pure rfl
  · rintro i _ rfl
    exact follows_pure ⟨rfl, rfl⟩

theorem watches_binaryOp (hw : Ready w s) (op : List Char) (left right : Value) :
    Watches m w (binaryOp m op left right s) fun r w' => w' = w ∧ Behaves w r.2 := by
  unfold binaryOp
  split
  · refine (watches_intArith _ _ _ s).mono ?_
    rintro r w' ⟨rfl, hr⟩
    exact ⟨rfl, hr ▸ hw.behaves⟩
  · exact follows_pure ⟨rfl, hw.behaves⟩
  · refine follows_pure ⟨rfl, ?_⟩
    exact (hw.behaves_fail _).imp_right fun h => h.of_same (sameEffects_null _)
  · split
    · exact follows_pure ⟨rfl, .inr (hw.of_same ⟨rfl, rfl, rfl, rfl⟩)⟩
    · refine watches_same (watches_valueFree _ s) fun t ht => ?_
      refine watches_same (watches_valueFree _ t) fun u hu => ?_
      have hready := ((hw.of_same ht).of_same hu).of_same (sameEffects_null (m := m) u)
      exact follows_pure ⟨rfl, hready.behaves⟩

theorem watches_unaryOp (hw : Ready w s) (op : List Char) (operand : Value) :
    Watches m w (unaryOp m op operand s) fun r w' => w' = w ∧ Ready w r.2 := by
  unfold unaryOp
  split
  · refine (watches_intArith _ _ _ s).mono ?_
    rintro r w' ⟨rfl, hr⟩
    exact ⟨rfl, hr ▸ hw⟩
  · exact follows_pure ⟨rfl, hw⟩
  · exact follows_pure ⟨rfl, hw.of_same ⟨rfl, rfl, rfl, rfl⟩⟩
  · refine watches_same (watches_valueFree _ s) fun t ht => ?_
    exact follows_pure ⟨rfl, (hw.of_same ht).of_same (sameEffects_null t)⟩

/-! ## Nodes -/

variable {eval : Evaluator σ} {n : ASTNode} {o o' : Opened} {outer : List Opened}

/-- The marks on the innermost node do not matter. -/
theorem Ready.of_head (h : Ready w s) (hnest : w.nesting = o :: outer) (hnode : o'.node = o.node) :
    Ready { w with nesting := o' :: outer } s := by
  refine ⟨h.failed, fun herr => List.forall_mem_cons.mpr ?_⟩
  have hspares := h.spares herr
  rw [hnest] at hspares
  rw [hnode]
  exact List.forall_mem_cons.mp hspares

/-- What the evaluation of a node inside leaves. -/
structure Evaluated (w : Watch) (s : Interp σ) (r : Value × Interp σ) (w' : Watch) : Prop where
  nesting : w'.nesting = w.nesting.modifyHead (Opened.begins w.failed.isSome)
  ready : Ready w' r.2
  stops : s.hasError → Testing w → r.1.isTrue = false

/-- The evaluator stops behind errors. -/
def WatchedEval (m : Memory σ) (eval : Evaluator σ) : Prop :=
  ∀ w n s, Ready w s → Untested w → Watches m w (eval n s) (Evaluated w s)

/-- In the node, and inside others. -/
structure Within (n : ASTNode) (outer : List Opened) (w : Watch) (s : Interp σ) : Prop where
  inside : ∃ o, w.nesting = o :: outer ∧ o.node = n
  ready : Ready w s

theorem Within.spares (h : Within n outer w s) (herr : s.hasError) : Spares s n := by
  rcases h.inside with ⟨o, hnest, rfl⟩
  exact h.ready.spares herr o (by rw [hnest]; exact List.mem_cons_self)

theorem Within.of_ready (h : Within n outer w s) (ht : Ready w t) : Within n outer w t :=
  ⟨h.inside, ht⟩

/-- In a node that is no loop, no loop tests its condition. -/
theorem Within.untested (hn : n.type ≠ .while) (h : Within n outer w s) : Untested w := by
  rcases h.inside with ⟨o, hnest, hnode⟩
  intro _ o' ho' hwhile
  rw [hnest] at ho'
  cases ho'
  exact absurd (hnode ▸ hwhile) hn

/-- Behind an error `drukuj` would have its output left. -/
theorem Within.noError (hn : n.type = .print) (h : Within n outer w s) : s.hasError = false := by
  rw [← Bool.not_eq_true]
  intro herr
  have hspares := h.spares herr
  rwa [Spares, hn] at hspares

theorem watches_childAt {i : Nat} {f : ASTNode → Run σ β} (hf : ∀ c, Watches m w (f c) post) :
    Watches m w (childAt n i >>= f) post := by
  refine follows_bind (M := fun _ w' => w' = w) (follows_ofOption fun _ _ => rfl) ?_
  rintro c _ rfl
  exact hf c

section Nodes

variable (heval : WatchedEval m eval)
include heval

/-- A node that is no loop goes on where the node inside it has ended. -/
theorem watches_child (hn : n.type ≠ .while) (h : Within n outer w s) (c : ASTNode) :
    Watches m w (eval c s) fun r w' => Within n outer w' r.2 := by
  rcases h.inside with ⟨o, hnest, hnode⟩
  refine (heval w c s h.ready (h.untested hn)).mono fun r w' hr =>
    ⟨⟨o.begins w.failed.isSome, ?_, hnode⟩, hr.ready⟩
  rw [hr.nesting, hnest, List.modifyHead_cons]

theorem watches_evalCondition (hw : Ready w s) (hnest : w.nesting = o :: outer)
    (huntested : Untested w) :
    Watches m w (evalCondition m eval n s) fun r w' =>
      w'.nesting = { o.begins w.failed.isSome with bodyNext := r.1 } :: outer ∧ Ready w' r.2 ∧
        (s.hasError → Testing w → r.1 = false) := by
  refine watches_childAt fun c => ?_
  refine follows_bind (heval w c s hw huntested) fun r w' hr => ?_
  have hnest' : w'.nesting = o.begins w.failed.isSome :: outer := by
    rw [hr.nesting, hnest, List.modifyHead_cons]
  refine follows_emit (fun _ => trivial) fun _ => ?_
  refine watches_same (watches_valueFree _ _) fun t ht => ?_
  have hready : Ready (watch w' (.condition (σ := σ) r.1)) r.2 := by
    have hhead : Ready { w' with nesting :=
        { o.begins w.failed.isSome with bodyNext := r.1.isTrue } :: outer } r.2 :=
      hr.ready.of_head hnest' rfl
    rwa [watch, hnest', List.modifyHead_cons]
  refine follows_pure ⟨?_, hready.of_same ht, hr.stops⟩
  rw [watch, hnest', List.modifyHead_cons]

theorem watches_printArguments (hn : n.type = .print) (h : Within n outer w s)
    (cs : List ASTNode) :
    Watches m w (printArguments m eval cs s) fun t w' => Within n outer w' t := by
  induction cs generalizing w s with
  | nil => exact follows_pure h
  | cons c cs ih =>
      refine follows_bind (watches_child heval (by simp [hn]) h c) fun r w₁ h₁ => ?_
      have hr := h₁.noError hn
      have hnone := h₁.ready.failed_none hr
      refine follows_bind (watches_valuePrint hr r.1) ?_
      rintro t _ ⟨rfl, ht⟩
      have hspace : (if cs = [] then t else t.print .space).hasError = false := by
        split <;> exact ht
      refine watches_same (watches_valueFree _ _) fun u hu => ?_
      exact ih (h₁.of_ready (ready_of_none hnone (hu.error.trans hspace)))

theorem watches_runBlock (hn : n.type = .block) (h : Within n outer w s) (cs : List ASTNode) :
    Watches m w (runBlock eval cs s) fun t w' => Within n outer w' t := by
  induction cs generalizing w s with
  | nil => exact follows_pure h
  | cons c cs ih =>
      refine follows_bind (watches_child heval (by simp [hn]) h c) fun r w₁ h₁ => ?_
      refine watches_emit rfl trivial ?_
      exact follows_ite (fun _ => follows_pure h₁) fun _ => ih h₁

theorem watches_runProgram (hn : n.type = .program) (h : Within n outer w s)
    (cs : List ASTNode) :
    Watches m w (runProgram eval cs s) fun t w' => Within n outer w' t := by
  induction cs generalizing w s with
  | nil => exact follows_pure h
  | cons c cs ih =>
      refine follows_bind (watches_child heval (by simp [hn]) h c) fun r w₁ h₁ => ?_
      refine watches_emit rfl trivial ?_
      exact follows_ite (fun _ => follows_pure h₁) fun _ => ih h₁

/-- A loop that tests its condition behind an error ends there. -/
theorem watches_runWhile (hn : n.type = .while) (fuel : Nat) (hw : Ready w s)
    (hnest : w.nesting = ⟨n, false, false⟩ :: outer) :
    Watches m w (runWhile m eval n fuel s) fun t w' => Within n outer w' t := by
  induction fuel generalizing w s with
  | zero => exact follows_stop _
  | succ fuel ih =>
      have huntested : ∀ {w : Watch} {b : Bool}, w.nesting = ⟨n, b, false⟩ :: outer →
          Untested w := by
        intro w b hnest _ o ho _
        rw [hnest] at ho
        cases ho
        rfl
      rw [runWhile]
      refine follows_bind (watches_evalCondition heval hw hnest (huntested hnest)) ?_
      rintro ⟨yes, t⟩ w₁ ⟨hnest₁, hready₁, hstops⟩
      refine follows_ite (fun _ => follows_pure ⟨⟨_, hnest₁, rfl⟩, hready₁⟩) fun hyes => ?_
      have hyes' : yes = true := by simpa using hyes
      -- the value that is tested behind an error is false, and the body is not run
      have hs : s.hasError = false := by
        rw [← Bool.not_eq_true]
        intro herr
        have hno := hstops herr ⟨_, by rw [hnest]; rfl, hn, rfl⟩
        rw [hyes'] at hno
        cases hno
      rw [hw.failed_none hs, hyes'] at hnest₁
      refine watches_childAt fun body => ?_
      refine follows_bind (heval w₁ body t hready₁ (huntested hnest₁)) fun r w₂ h₂ => ?_
      refine watches_emit rfl trivial ?_
      have hnest₂ : w₂.nesting = ⟨n, false, false⟩ :: outer := by
        rw [h₂.nesting, hnest₁, List.modifyHead_cons]
        simp [Opened.begins]
      have hbreak : Ready w₂ { r.2 with breakFlag := false } :=
        h₂.ready.of_same ⟨rfl, rfl, rfl, rfl⟩
      have hcontinue : Ready w₂ { r.2 with continueFlag := false } :=
        h₂.ready.of_same ⟨rfl, rfl, rfl, rfl⟩
      refine follows_ite (fun _ => follows_pure ⟨⟨_, hnest₂, rfl⟩, hbreak⟩) fun _ => ?_
      refine follows_ite (fun _ => ih hcontinue hnest₂) fun _ => ?_
      refine follows_ite (fun _ => follows_pure ⟨⟨_, hnest₂, rfl⟩, h₂.ready⟩) fun _ => ?_
      exact ih h₂.ready hnest₂

theorem watches_optional (hn : n.type ≠ .while) (h : Within n outer w s) (cs : List ASTNode) :
    Watches m w (match cs with
      | [] => (pure (valueCreateNull m s) : Run σ (Value × Interp σ))
      | c :: _ => eval c s) fun r w' => Within n outer w' r.2 := by
  cases cs with
  | nil => exact follows_pure (h.of_ready (h.ready.of_same (sameEffects_null s)))
  | cons c cs => exact watches_child heval hn h c

theorem watches_evalIf (hn : n.type = .if) (h : Within n outer w s) :
    Watches m w (evalIf m eval n s) fun r w' => Within n outer w' r.2 := by
  rcases h.inside with ⟨o, hnest, hnode⟩
  have hother : n.type ≠ .while := by simp [hn]
  refine follows_bind (watches_evalCondition heval h.ready hnest (h.untested hother)) ?_
  rintro ⟨yes, t⟩ w₁ ⟨hnest₁, hready₁, -⟩
  have h₁ : Within n outer w₁ t := ⟨⟨_, hnest₁, hnode⟩, hready₁⟩
  refine follows_ite (fun _ => ?_) fun _ => ?_
  · exact watches_childAt fun c => watches_child heval hother h₁ c
  · split
    · exact watches_child heval hother h₁ _
    · exact follows_pure (h₁.of_ready (h₁.ready.of_same (sameEffects_null t)))

omit heval in
theorem watches_thenNull {x : Run σ (Interp σ)}
    (hx : Watches m w x fun t w' => Within n outer w' t) :
    Watches m w (thenNull m x) fun r w' => Within n outer w' r.2 :=
  follows_bind hx fun t _ ht => follows_pure (ht.of_ready (ht.ready.of_same (sameEffects_null t)))

/-- A node leaves the ones around as they are. It may be the one that sets the error. -/
theorem watches_evalNode (fuel : Nat) (hs : s.hasError = false) (hw : Ready w s)
    (hnest : w.nesting = ⟨n, false, false⟩ :: outer) :
    Watches m w (evalNode m eval fuel n s) fun r w' =>
      (∃ o, w'.nesting = o :: outer) ∧ Behaves w' r.2 := by
  have hin : Within n outer w s := ⟨⟨_, hnest, rfl⟩, hw⟩
  have hwithin : ∀ {x : Run σ (Value × Interp σ)},
      Watches m w x (fun r w' => Within n outer w' r.2) →
      Watches m w x fun r w' => (∃ o, w'.nesting = o :: outer) ∧ Behaves w' r.2 :=
    fun hx => hx.mono fun _ _ h => ⟨h.inside.imp fun _ ho => ho.1, h.ready.behaves⟩
  have hpure : ∀ {r : Value × Interp σ}, SameEffects s r.2 →
      Watches m w (pure r) fun r w' => (∃ o, w'.nesting = o :: outer) ∧ Behaves w' r.2 :=
    fun hr => follows_pure ⟨⟨_, hnest⟩, (hw.of_same hr).behaves⟩
  unfold evalNode
  rw [if_neg (by simp [hs])]
  cases hn : n.type <;> dsimp only
  case literalString =>
    exact watches_emit rfl trivial (hpure ⟨rfl, rfl, rfl, rfl⟩)
  -- the error that is set here is the first one, so there is nothing to compare it with
  case identifier =>
    unfold evalIdentifier
    split
    · exact follows_pure ⟨⟨_, hnest⟩, .inl (hw.failed_none hs)⟩
    · exact watches_emit rfl trivial (hpure (.refl s))
  case varDecl =>
    refine hwithin ?_
    refine follows_bind (watches_optional heval (by simp [hn]) hin _) fun r w₁ h₁ => ?_
    have hfull : r.2.hasError → r.2.env.length ≥ envMaxVars := by
      intro herr
      have hspares := h₁.spares herr
      rwa [Spares, hn] at hspares
    refine follows_bind (watches_envDefine h₁.ready hfull _ _) ?_
    rintro t _ ⟨rfl, ht⟩
    exact follows_pure (h₁.of_ready (ht.of_same (sameEffects_null t)))
  -- behind an error the name is not there, and the message of `env_set`'s caller comes too late
  case assign =>
    refine watches_childAt fun c => ?_
    refine follows_bind (watches_child heval (by simp [hn]) hin c) fun r w₁ h₁ => ?_
    have hfree : r.2.hasError → envGet n.strValue r.2.frames = none := by
      intro herr
      have hspares := h₁.spares herr
      rwa [Spares, hn] at hspares
    refine follows_bind (watches_envSet h₁.ready hfree _) ?_
    rintro ⟨found, t⟩ _ ⟨rfl, ht⟩
    refine follows_pure ⟨h₁.inside.imp fun _ ho => ho.1, ?_⟩
    dsimp only
    split
    · exact ht.behaves
    · exact ht.behaves_fail _
  case binaryOp =>
    refine watches_childAt fun l => ?_
    refine follows_bind (watches_child heval (by simp [hn]) hin l) fun r₁ w₁ h₁ => ?_
    refine watches_childAt fun r => ?_
    refine follows_bind (watches_child heval (by simp [hn]) h₁ r) fun r₂ w₂ h₂ => ?_
    refine watches_emit rfl trivial ?_
    refine (watches_binaryOp h₂.ready _ _ _).mono ?_
    rintro r₃ _ ⟨rfl, h₃⟩
    exact ⟨h₂.inside.imp fun _ ho => ho.1, h₃⟩
  case unaryOp =>
    refine hwithin ?_
    refine watches_childAt fun c => ?_
    refine follows_bind (watches_child heval (by simp [hn]) hin c) fun r w₁ h₁ => ?_
    refine watches_emit rfl trivial ?_
    refine (watches_unaryOp h₁.ready _ _).mono ?_
    rintro r₂ _ ⟨rfl, h₂⟩
    exact h₁.of_ready h₂
  case print =>
    refine hwithin ?_
    refine follows_bind (watches_printArguments heval hn hin _) fun t w₁ h₁ => ?_
    have ht := h₁.noError hn
    exact follows_pure (h₁.of_ready (ready_of_none (h₁.ready.failed_none ht) ht))
  case «if» => exact hwithin (watches_evalIf heval hn hin)
  case «while» => exact hwithin (watches_thenNull (watches_runWhile heval hn fuel hw hnest))
  case «return» =>
    refine hwithin ?_
    refine follows_bind (watches_optional heval (by simp [hn]) hin _) fun r w₁ h₁ => ?_
    refine watches_emit rfl trivial ?_
    exact follows_pure (h₁.of_ready (h₁.ready.of_same ⟨rfl, rfl, rfl, rfl⟩))
  case block => exact hwithin (watches_thenNull (watches_runBlock heval hn hin _))
  case program => exact hwithin (watches_thenNull (watches_runProgram heval hn hin _))
  all_goals exact hpure ⟨rfl, rfl, rfl, rfl⟩

end Nodes

/-! ## The evaluator -/

/-- Behind an error a node is null at once. -/
theorem evalNode_of_error (eval : Evaluator σ) (fuel : Nat) (n : ASTNode) (hs : s.hasError = true) :
    evalNode m eval fuel n s = pure (valueCreateNull m s) := by rw [evalNode, if_pos hs]

/-- Once the variables and the output of an error are seen, they stay. -/
theorem failure_or (s : Interp σ) : s.failure.or s.failure = s.failure := by
  cases s.failure <;> rfl

/-- A node begins inside. -/
theorem Ready.begins (h : Ready w s) :
    Ready { w with nesting := w.nesting.modifyHead (Opened.begins w.failed.isSome) } s := by
  cases hnest : w.nesting with
  | nil => exact ⟨h.failed, fun _ _ ho => nomatch ho⟩
  | cons o outer => exact h.of_head hnest rfl

theorem Behaves.unchanged (h : Behaves w s) : Unchanged w s := by
  rcases h with hnone | hready
  · exact before_error hnone
  · exact fun _ => hready.failed

/-- By induction on the fuel and by the kind of the node: the evaluator stops behind errors. -/
theorem watches_interpreterEval (m : Memory σ) (fuel : Nat) :
    WatchedEval m (interpreterEval m fuel) := by
  induction fuel with
  | zero => exact fun _ _ _ _ _ => follows_stop _
  | succ fuel ih =>
      intro w n s hw huntested
      rw [interpreterEval]
      refine follows_emit (fun _ => ⟨hw.behaves.unchanged, huntested⟩) fun hharmless => ?_
      cases herr : s.hasError with
      | true =>
          -- the node is not looked at, and the bytes of its value are zero in a loop
          have hsome : w.failed.isSome := by
            rw [hw.failed, Interp.failure, herr]
            rfl
          have hready : Ready
              { w with nesting := w.nesting.modifyHead (Opened.begins w.failed.isSome) }
              (valueCreateNull m s).2 := hw.begins.of_same (sameEffects_null s)
          have hseen : w.failed.or (valueCreateNull m s).2.failure = w.failed := by
            rw [← hready.failed]
            cases w.failed <;> rfl
          rw [evalNode_of_error _ _ _ herr, Logged.pure_bind]
          refine follows_emit (fun _ _ => hready.failed) fun _ => ?_
          refine follows_pure
            ⟨rfl, ⟨hseen.trans hready.failed, hready.spares⟩, fun _ htesting => ?_⟩
          have hzero := hharmless hsome htesting
          change ((m.uninitialised s.mem).1 != 0) = false
          rw [hzero]
          rfl
      | false =>
          have hnone := hw.failed_none herr
          -- before an error everything is allowed; what the nodes around have left is known
          -- only at the end, from the condition on the run
          have hnode := watches_evalNode ih fuel herr
            (ready_of_none hnone herr : Ready (watch w (.begun n s)) s) rfl
          refine follows_bind hnode ?_
          rintro r w' ⟨⟨o, hnest⟩, hsettles⟩
          refine follows_emit (fun _ => hsettles.unchanged) fun hspares => ?_
          have htail : w'.nesting.tail = w.nesting.modifyHead (Opened.begins w.failed.isSome) := by
            rw [hnest]
            rfl
          refine follows_pure ⟨htail, ?_, fun h => by rw [herr] at h; cases h⟩
          rcases hsettles with hnone' | hready
          · refine ⟨?_, hspares hnone'⟩
            change w'.failed.or _ = _
            rw [hnone', Option.none_or]
          · refine ⟨?_, fun herr' o' ho' => hready.spares herr' o' (List.mem_of_mem_tail ho')⟩
            change w'.failed.or _ = _
            rw [hready.failed, failure_or]

/-- From the moment that the error is set a script changes no variable and prints nothing, and
no loop goes on once it has tested its condition, if none of the nodes around has an effect
left and every null that a loop tests is zero. -/
theorem error_stops_script (m : Memory σ) (fuel : Nat) (n : ASTNode) (s : Interp σ)
    (h : Along watch (Harmless m) (.start s) (interpreterEval m fuel n s).log) :
    Along watch Stopped (.start s) (interpreterEval m fuel n s).log ∧
      ∀ v t, (interpreterEval m fuel n s).result = .ok (v, t) → t.hasError →
        ((interpreterEval m fuel n s).log.foldl watch (.start s)).failed = some (t.frames, t.out) := by
  have hready : Ready (.start s) s := ⟨rfl, fun _ _ ho => nomatch ho⟩
  have huntested : Untested (.start s) := fun _ _ ho => nomatch ho
  rcases watches_interpreterEval m fuel _ n s hready huntested h with ⟨hstopped, hreturned⟩
  refine ⟨hstopped, fun v t ht herr => ?_⟩
  rw [(hreturned _ ht).ready.failed, Interp.failure, if_pos herr]

section Decidable

instance (w : Watch) : Decidable (Testing w) := by
  unfold Testing
  infer_instance

theorem spares_iff (s : Interp σ) (n : ASTNode) :
    ((n.type = .varDecl → s.env.length ≥ envMaxVars) ∧
      (n.type = .assign → envGet n.strValue s.frames = none) ∧ n.type ≠ .print) ↔ Spares s n := by
  unfold Spares
  cases n.type <;> simp

instance (s : Interp σ) (n : ASTNode) : Decidable (Spares s n) :=
  decidable_of_iff _ (spares_iff s n)

instance (w : Watch) (e : RunEvent σ) : Decidable (Harmless m w e) :=
  match e with
  | .begun _ s =>
      inferInstanceAs (Decidable (w.failed.isSome → Testing w → (m.uninitialised s.mem).1 = 0))
  | .evaluated _ _ s =>
      inferInstanceAs (Decidable
        (w.failed = none → s.hasError → ∀ o ∈ w.nesting.tail, Spares s o.node))
  | .parse _ | .arith .. | .binary .. | .unary .. | .condition _ | .identifier _ | .declared ..
  | .assigned .. | .overwritten _ | .dropped .. | .alloc _ | .read _ | .free _ => .isTrue trivial

end Decidable

/-- The name of a variable that is not there. -/
def missingY : ASTNode := { astNodeCreate .identifier with strValue := ['y'] }

/-- `dopoki (prawda) { y; drukuj(1); }` -/
def failsInLoop : ASTNode :=
  { astNodeCreate .while with children :=
    [{ astNodeCreate .literalBool with boolValue := true },
     { astNodeCreate .block with children :=
      [missingY, { astNodeCreate .print with children :=
        [{ astNodeCreate .literalInt with intValue := 1 }] }] }] }

theorem error_stops_script_loop :
    Along watch Stopped (.start (interpreterInit plainMemory ()))
        (interpreterEval plainMemory 9 failsInLoop (interpreterInit plainMemory ())).log ∧
      ∀ v t, (interpreterEval plainMemory 9 failsInLoop (interpreterInit plainMemory ())).result =
        .ok (v, t) → t.hasError →
        ((interpreterEval plainMemory 9 failsInLoop (interpreterInit plainMemory ())).log.foldl
          watch (.start (interpreterInit plainMemory ()))).failed = some (t.frames, t.out) :=
  error_stops_script plainMemory 9 failsInLoop (interpreterInit plainMemory ())
    (by decide)

/-- `zmienna x = y;` -/
def declaresFailed : ASTNode :=
  { astNodeCreate .varDecl with strValue := ['x'], children := [missingY] }

/-- A variable is defined though the value for it could not be computed. -/
theorem failed_declaration_defines : ∃ v t,
    (interpreterEval plainMemory 4 declaresFailed (interpreterInit plainMemory ())).result =
      .ok (v, t) ∧ t.hasError = true ∧
    envGet ['x'] (interpreterInit plainMemory ()).frames = none ∧
    envGet ['x'] t.frames = some (.null 0) ∧
    ¬Along watch Stopped (.start (interpreterInit plainMemory ()))
      (interpreterEval plainMemory 4 declaresFailed (interpreterInit plainMemory ())).log := by
  refine ⟨_, _, rfl, rfl, rfl, rfl, fun h => ?_⟩
  -- the fourth event is the declaration
  have htaken : true = false := h.2.2.2.1 rfl
  cases htaken

end PolandOS.PolskiScript
