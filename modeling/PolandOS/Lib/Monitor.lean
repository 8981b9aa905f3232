import PolandOS.Lib.Dialogue
import PolandOS.Lib.Staged

/-! # Monitors for programs in dialogue

A monitor follows the questions of a program and says at each whether it is allowed.
`Prog.Obeys M post p t`: from state `t` of the monitor on, `p` asks only what is allowed, and
comes to a result with `post`. A program that may be left is one with `Except` for its result;
`Realizes` compares it with a staged computation.

* `obeys_bind`, `obeys_try`: sequences of programs
* `Path.allowed`: what a program has asked was allowed
* `realizes_bind`: sequences of programs next to sequences of staged computations
-/

namespace Dialogue

open Staging

variable {Q : Type} {A : Q → Type} {α β κ σ τ : Type}

/-- What a question does to the state of the monitor, and whether it is allowed there. -/
structure Monitor (Q τ : Type) where
  next : τ → Q → τ
  allows : τ → Q → Prop

/-- The question is allowed and changes nothing. -/
structure Monitor.Stays (M : Monitor Q τ) (t : τ) (q : Q) : Prop where
  allows : M.allows t q
  next : M.next t q = t

/-- The state of the monitor behind some exchanges. -/
def Monitor.after (M : Monitor Q τ) (tr : List (Sigma A)) (t : τ) : τ :=
  tr.foldl (fun t e => M.next t e.1) t

variable {M : Monitor Q τ} {post post' : τ → α → Prop} {p p' : Prog Q A α} {f : α → Prog Q A β}
  {t : τ} {tr tr' : List (Sigma A)}

def Prog.Obeys (M : Monitor Q τ) (post : τ → α → Prop) : Prog Q A α → τ → Prop
  | .done a, t => post t a
  | .stop, _ => True
  | .ask q k, t => M.allows t q ∧ ∀ r, (k r).Obeys M post (M.next t q)

theorem Prog.Obeys.mono (h : p.Obeys M post t) (hpost : ∀ t a, post t a → post' t a) :
    p.Obeys M post' t := by
  induction p generalizing t with
  | done a => exact hpost t a h
  | stop => trivial
  | ask q k ih => exact ⟨h.1, fun r => ih r (h.2 r)⟩

theorem obeys_bind {post : τ → β → Prop}
    (h : p.Obeys M (fun t a => (f a).Obeys M post t) t) : (p >>= f).Obeys M post t := by
  induction p generalizing t with
  | done a => exact h
  | stop => trivial
  | ask q k ih => exact ⟨h.1, fun r => ih r (h.2 r)⟩

theorem Path.obeys (h : Path p tr p') (hp : p.Obeys M post t) : p'.Obeys M post (M.after tr t) := by
  induction h generalizing t with
  | refl => exact hp
  | ask _ ih => exact ih (hp.2 _)

theorem Returns.obeys {a : α} (h : Returns p tr a) (hp : p.Obeys M post t) :
    post (M.after tr t) a := Path.obeys h hp

/-- What was asked was allowed when it was asked. -/
theorem Path.allowed {e : Sigma A} (h : Path p (tr ++ e :: tr') p') (hp : p.Obeys M post t) :
    M.allows (M.after tr t) e.1 := by
  obtain ⟨p'', hfirst, hlast⟩ := h.split
  cases hlast with
  | ask _ => exact (hfirst.obeys hp).1

/-! ## Programs that may be left -/

/-- A program that comes to a result, or is left for a reason. -/
abbrev Quitting (κ Q : Type) (A : Q → Type) (α : Type) : Type := ExceptT κ (Prog Q A) α

/-- A question is asked. -/
def ask (q : Q) : Quitting κ Q A (A q) := ExceptT.lift (query q)

/-- `post` for a result, and `exit` for a reason. -/
def Ends (post : τ → α → Prop) (exit : τ → κ → Prop) (t : τ) : Except κ α → Prop
  | .ok a => post t a
  | .error k => exit t k

variable {x : Quitting κ Q A α} {g : α → Quitting κ Q A β} {exit : τ → κ → Prop}

theorem obeys_try {post : τ → β → Prop}
    (h : x.run.Obeys M (Ends (fun t a => (g a).run.Obeys M (Ends post exit) t) exit) t) :
    (x >>= g).run.Obeys M (Ends post exit) t := by
  refine obeys_bind (h.mono fun t r hr => ?_)
  cases r with
  | ok a => exact hr
  | error k => exact hr

theorem obeys_return {a : α} (h : post t a) :
    (pure a : Quitting κ Q A α).run.Obeys M (Ends post exit) t := h

theorem obeys_throw {k : κ} (h : exit t k) :
    (throw k : Quitting κ Q A α).run.Obeys M (Ends post exit) t := h

theorem obeys_ask {q : Q} {post : τ → A q → Prop} (h : M.allows t q)
    (hpost : ∀ r, post (M.next t q) r) :
    (ask q : Quitting κ Q A (A q)).run.Obeys M (Ends post exit) t := ⟨h, hpost⟩

theorem obeys_ask_stays {q : Q} {post : τ → A q → Prop} (h : M.Stays t q) (hpost : ∀ r, post t r) :
    (ask q : Quitting κ Q A (A q)).run.Obeys M (Ends post exit) t :=
  obeys_ask h.allows (h.next.symm ▸ hpost)

theorem obeys_ite {c : Prop} [Decidable c] {y : Quitting κ Q A α}
    (hx : c → x.run.Obeys M (Ends post exit) t) (hy : ¬c → y.run.Obeys M (Ends post exit) t) :
    (if c then x else y).run.Obeys M (Ends post exit) t := by
  by_cases h : c
  · rw [if_pos h]
    exact hx h
  · rw [if_neg h]
    exact hy h

/-- A check at which a program is left, before it goes on with `g`. -/
theorem obeys_check {c : Prop} [Decidable c] {k : κ} {g : Unit → Quitting κ Q A α}
    (hexit : c → exit t k) (hg : ¬c → (g ()).run.Obeys M (Ends post exit) t) :
    (if c then throw k >>= g else g ()).run.Obeys M (Ends post exit) t :=
  obeys_ite hexit hg

/-- The exchanges of a sequence, where the first program is not left. -/
theorem Returns.try {a : α} {y : Prog Q A (Except κ β)} (h : Returns x.run tr (.ok a))
    (hg : Path (g a).run tr' y) : Path (x >>= g).run (tr ++ tr') y :=
  (Path.bind (f := ExceptT.bindCont g) h).trans hg

/-- The exchanges of a sequence, where the first program is left. -/
theorem Returns.left {k : κ} (h : Returns x.run tr (.error k)) :
    Returns (x >>= g).run tr (.error k) := Path.bind (f := ExceptT.bindCont g) h

/-! ## Environments -/

/-- The result of a program in an environment, and the state that it leaves there. -/
def Prog.exec (env : σ → (q : Q) → A q × σ) : Prog Q A α → σ → Option (α × σ)
  | .done a, s => some (a, s)
  | .stop, _ => none
  | .ask q k, s => (k (env s q).1).exec env (env s q).2

variable {env : σ → (q : Q) → A q × σ} {s s' : σ}

theorem exec_bind : (p >>= f).exec env s = (p.exec env s).bind fun r => (f r.1).exec env r.2 := by
  induction p generalizing s with
  | done a => rfl
  | stop => rfl
  | ask q k ih => exact ih _

/-- The exchanges of a program in an environment. -/
theorem exists_returns {a : α} (h : p.exec env s = some (a, s')) :
    ∃ tr, Returns p tr a ∧ s' = tr.foldl (fun s e => (env s e.1).2) s := by
  induction p generalizing s with
  | done b =>
      cases h
      exact ⟨[], .refl, rfl⟩
  | stop => cases h
  | ask q k ih =>
      obtain ⟨tr, htr, hs'⟩ := ih _ h
      exact ⟨_ :: tr, .ask htr, hs'⟩

/-- In its environment the program does what the staged computation does. -/
def Realizes (env : σ → (q : Q) → A q × σ) (x : Quitting κ Q A α) (y : Staged κ σ α) : Prop :=
  ∀ s, x.run.exec env s = some (y s)

variable {y : Staged κ σ α} {z : α → Staged κ σ β}

theorem realizes_pure (a : α) :
    Realizes env (pure a : Quitting κ Q A α) (pure a : Staged κ σ α) := fun _ => rfl

theorem realizes_throw (k : κ) :
    Realizes env (throw k : Quitting κ Q A α) (Staged.leave k : Staged κ σ α) := fun _ => rfl

theorem realizes_ask {q : Q} {y : Staged κ σ (A q)}
    (h : ∀ s, y s = (.ok (env s q).1, (env s q).2)) : Realizes env (ask q) y :=
  fun s => congrArg some (h s).symm

theorem realizes_bind (hx : Realizes env x y) (hg : ∀ a, Realizes env (g a) (z a)) :
    Realizes env (x >>= g) (y >>= z) := by
  intro s
  have hbind : (x >>= g).run.exec env s =
      (x.run.exec env s).bind fun r => (ExceptT.bindCont g r.1).exec env r.2 := exec_bind
  rw [hbind, hx s]
  change _ = some (Staged.bind y z s)
  unfold Staged.bind
  rcases y s with ⟨a | k, s'⟩
  · rfl
  · exact hg _ _

theorem realizes_ite {c : Prop} [Decidable c] {x' : Quitting κ Q A α} {y' : Staged κ σ α}
    (hx : Realizes env x y) (hy : Realizes env x' y') :
    Realizes env (if c then x else x') (if c then y else y') := by
  by_cases h : c
  · rw [if_pos h, if_pos h]
    exact hx
  · rw [if_neg h, if_neg h]
    exact hy

theorem realizes_check {c : Prop} [Decidable c] {k : κ} {g : Unit → Quitting κ Q A α}
    {z : Unit → Staged κ σ α} (h : Realizes env (g ()) (z ())) :
    Realizes env (if c then throw k >>= g else g ()) (if c then Staged.leave k >>= z else z ()) :=
  realizes_ite (fun _ => rfl) h

end Dialogue
