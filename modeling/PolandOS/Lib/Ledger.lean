import Mathlib.Algebra.Order.BigOperators.Group.List
import Mathlib.Algebra.Order.Group.Multiset
import Mathlib.Algebra.Order.Group.Nat
import Mathlib.Data.Multiset.Range
import Mathlib.Tactic.Abel
import PolandOS.Lib.Logged

/-! # Who owns what is allocated

An allocator hands out blocks, which are numbered in the order in which they are handed out;
its ledger remembers how many there were and which ones were freed. `Ledger.Live` accounts for
every block: it was freed, or it is one of those that are live.

`Builds` compares a computation that allocates with one that only computes: they log the same
and return the same, and the blocks that the first one is handed are those that its result
owns, up to the blocks that are lost at certain events. The frame is in the definition, as in a
small-footprint triple, and there is one rule for each construct.
-/

namespace Logging

/-- The account of an allocator. -/
structure Ledger where
  /-- Whether a block stays where it is when it gets a new size. -/
  inPlace : ℕ → ℕ → Bool
  /-- How many blocks have been handed out. -/
  next : ℕ
  freed : List ℕ

namespace Ledger

def empty (inPlace : ℕ → ℕ → Bool) : Ledger := ⟨inPlace, 0, []⟩

/-- Hand out a block. -/
def alloc (l : Ledger) : ℕ × Ledger := (l.next, { l with next := l.next + 1 })

/-- Take a block back. -/
def free (l : Ledger) (b : ℕ) : Ledger := { l with freed := b :: l.freed }

/-- Take a block back, if there is one. -/
def freeAny (l : Ledger) : Option ℕ → Ledger
  | none => l
  | some b => l.free b

/-- Resize a block, or hand one out if there is none. -/
def realloc (l : Ledger) (size : ℕ) : Option ℕ → ℕ × Ledger
  | none => l.alloc
  | some b => if l.inPlace b size then (b, l) else (l.alloc.1, l.alloc.2.free b)

/-- Every block that was handed out was freed, and freed once, and no other block was. -/
def AllFreedOnce (l : Ledger) : Prop := ∀ b, l.freed.count b = if b < l.next then 1 else 0

/-- Each block was freed once or is one of the `live` ones. -/
def Live (l : Ledger) (live : Multiset ℕ) : Prop :=
  (l.freed : Multiset ℕ) + live = Multiset.range l.next

/-- The blocks behind a pointer. -/
def pointed : Option ℕ → Multiset ℕ
  | none => 0
  | some b => {b}

variable {l : Ledger} {live lost rest : Multiset ℕ} {b : ℕ}

theorem live_empty (inPlace : ℕ → ℕ → Bool) : (empty inPlace).Live 0 := rfl

theorem Live.of_eq (h : l.Live live) (heq : live = lost) : l.Live lost := heq ▸ h

theorem Live.alloc (h : l.Live live) : l.alloc.2.Live ({l.alloc.1} + live) := by
  change (l.freed : Multiset ℕ) + ({l.next} + live) = Multiset.range (l.next + 1)
  rw [Multiset.range_succ, ← h, ← Multiset.singleton_add]
  abel

theorem Live.free (h : l.Live ({b} + live)) : (l.free b).Live live := by
  change ((b :: l.freed : List ℕ) : Multiset ℕ) + live = Multiset.range l.next
  rw [← h, ← Multiset.cons_coe, ← Multiset.singleton_add]
  abel

theorem Live.freeAny {p : Option ℕ} (h : l.Live (pointed p + live)) : (l.freeAny p).Live live := by
  cases p with
  | none => exact h.of_eq (zero_add live)
  | some b => exact Live.free h

theorem Live.realloc {p : Option ℕ} (h : l.Live (pointed p + live)) (size : ℕ) :
    (l.realloc size p).2.Live ({(l.realloc size p).1} + live) := by
  cases p with
  | none => exact Live.alloc (h.of_eq (zero_add live))
  | some b =>
      unfold Ledger.realloc
      dsimp only
      split
      case isTrue => exact h
      case isFalse =>
          -- the new block comes before the old one goes
          refine Live.free (Live.of_eq h.alloc ?_)
          unfold pointed
          abel

/-- All was freed once exactly if no block is live. -/
theorem Live.allFreedOnce_iff (h : l.Live lost) : l.AllFreedOnce ↔ lost = 0 := by
  have hcount : ∀ b, l.freed.count b + lost.count b = if b < l.next then 1 else 0 := by
    intro b
    rw [← Multiset.coe_count, ← Multiset.count_add, h,
      Multiset.count_eq_of_nodup (Multiset.nodup_range _)]
    simp only [Multiset.mem_range]
  constructor
  · intro hall
    refine Multiset.ext.mpr fun b => ?_
    have hb := hcount b
    rw [hall b] at hb
    rw [Multiset.count_zero]
    omega
  · rintro rfl b
    rw [← hcount b, Multiset.count_zero, Nat.add_zero]

end Ledger

variable {ε κ α β γ α' β' : Type}

/-! ## Computations that do the same -/

/-- `x` logs what `y` logs and ends as `y` ends, as `v` reads what it returns. -/
structure SameUpTo (v : α → β) (x : Logged ε κ α) (y : Logged ε κ β) : Prop where
  log : x.log = y.log
  result : x.result.map v = y.result

section Same

variable {v : α → β} {v' : α' → β'} {x : Logged ε κ α} {y : Logged ε κ β}
  {f : α → Logged ε κ α'} {g : β → Logged ε κ β'}

theorem SameUpTo.stopped (h : SameUpTo v x y) {k : κ} (hx : x.result = .error k) :
    y.result = .error k := by
  rw [← h.result, hx]
  rfl

theorem SameUpTo.returned (h : SameUpTo v x y) {a : α} (hx : x.result = .ok a) :
    y.result = .ok (v a) := by
  rw [← h.result, hx]
  rfl

theorem sameUpTo_refl (x : Logged ε κ α) : SameUpTo id x x :=
  ⟨rfl, by cases x.result <;> rfl⟩

theorem sameUpTo_pure {a : α} {b : β} (h : v a = b) :
    SameUpTo v (pure a : Logged ε κ α) (pure b) := ⟨rfl, congrArg Except.ok h⟩

theorem sameUpTo_bind (hx : SameUpTo v x y) (hf : ∀ a, SameUpTo v' (f a) (g (v a))) :
    SameUpTo v' (x >>= f) (y >>= g) := by
  cases hr : x.result with
  | error k =>
      rw [Logged.bind_of_error hr, Logged.bind_of_error (hx.stopped hr), hx.log]
      exact ⟨rfl, rfl⟩
  | ok a =>
      rw [Logged.bind_of_ok hr, Logged.bind_of_ok (hx.returned hr), hx.log, (hf a).log]
      exact ⟨rfl, (hf a).result⟩

theorem sameUpTo_ite {c : Prop} [Decidable c] {x₁ x₂ : Logged ε κ α} {y₁ y₂ : Logged ε κ β}
    (h₁ : SameUpTo v x₁ y₁) (h₂ : SameUpTo v x₂ y₂) :
    SameUpTo v (if c then x₁ else x₂) (if c then y₁ else y₂) := by
  split
  · exact h₁
  · exact h₂

/-- The same, with the events read as other events. -/
theorem SameUpTo.mapLog {ε' : Type} (h : SameUpTo v x y) (e : ε → ε') :
    SameUpTo v (x.mapLog e) (y.mapLog e) := ⟨congrArg (List.map e) h.log, h.result⟩

end Same

/-! ## Computations that allocate -/

/-- A computation that allocates and frees. -/
abbrev Allocating (ε κ : Type) := StateT Ledger (Logged ε κ)

/-- Log one event. -/
def record (e : ε) : Allocating ε κ Unit := liftM (Logged.emit e : Logged ε κ Unit)

/-- How many blocks are lost at the events of a log. -/
def debts (debt : ε → ℕ) (es : List ε) : ℕ := (es.map debt).sum

variable {debt : ε → ℕ} {owe : ℕ} {inn : Multiset ℕ}

theorem debts_append (es es' : List ε) :
    debts debt (es ++ es') = debts debt es + debts debt es' := by
  rw [debts, debts, debts, List.map_append, List.sum_append]

theorem debts_eq_zero_iff {es : List ε} : debts debt es = 0 ↔ ∀ e ∈ es, debt e = 0 := by
  rw [debts, List.sum_eq_zero_iff, List.forall_mem_map]

/-- `x` computes what `y` computes, as `view` reads it. It is handed the blocks `inn`, and its
result owns what is left of them and what was allocated, without the blocks that are lost: `owe`
from before and those that the events of the log cost. -/
structure Builds (debt : ε → ℕ) (owe : ℕ) (inn : Multiset ℕ) (x : Allocating ε κ α)
    (y : Logged ε κ β) (view : α → β) (own : α → Multiset ℕ) : Prop where
  same : ∀ l, SameUpTo (fun r => view r.1) (x l) y
  live : ∀ l rest r, Ledger.Live l (inn + rest) → (x l).result = .ok r →
    ∃ lost : Multiset ℕ, lost.card = owe + debts debt y.log ∧
      r.2.Live (own r.1 + lost + rest)

variable {x : Allocating ε κ α} {y : Logged ε κ β} {view : α → β} {own : α → Multiset ℕ}
  {f : α → Allocating ε κ α'} {g : β → Logged ε κ β'} {view' : α' → β'} {own' : α' → Multiset ℕ}

theorem Builds.of_eq {inn' : Multiset ℕ} (h : Builds debt owe inn x y view own) (heq : inn = inn') :
    Builds debt owe inn' x y view own := heq ▸ h

/-- What is returned owns a part of the blocks, and the others are lost. -/
theorem builds_drop {a : α} {b : β} (lost : Multiset ℕ) (hview : view a = b)
    (hown : inn = own a + lost) (hcard : lost.card = owe) :
    Builds (κ := κ) debt owe inn (pure a) (pure b) view own where
  same _ := sameUpTo_pure hview
  live l rest r hl hr := by
    cases hr
    exact ⟨lost, hcard, hown ▸ hl⟩

theorem builds_pure {a : α} {b : β} (hview : view a = b) (hown : inn = own a) :
    Builds (κ := κ) debt 0 inn (pure a) (pure b) view own :=
  builds_drop 0 hview (hown.trans (add_zero _).symm) rfl

theorem builds_stop (k : κ) :
    Builds debt owe inn (liftM (Logged.stop k : Logged ε κ α) : Allocating ε κ α)
      (Logged.stop k : Logged ε κ β) view own where
  same _ := ⟨rfl, rfl⟩
  live _ _ _ _ hr := nomatch hr

theorem run_bind (x : Allocating ε κ α) (f : α → Allocating ε κ α') (l : Ledger) :
    (x >>= f) l = x l >>= fun r => f r.1 r.2 := rfl

/-- The rule for steps in a row; what the second step is handed besides, the first one leaves
alone. -/
theorem builds_bind (held : Multiset ℕ) {total : Multiset ℕ} (htotal : total = inn + held)
    (hx : Builds debt owe inn x y view own)
    (hf : ∀ a, Builds debt 0 (own a + held) (f a) (g (view a)) view' own') :
    Builds debt owe total (x >>= f) (y >>= g) view' own' where
  same l := sameUpTo_bind (hx.same l) fun r => (hf r.1).same r.2
  live l rest r' hl hr' := by
    rw [run_bind] at hr'
    rcases Logged.result_bind.mp hr' with ⟨r, hr, hfr⟩
    -- what the second step is handed belongs to the frame of the first one
    obtain ⟨lost, hcard, hmid⟩ := hx.live l (held + rest) r
      (hl.of_eq (by rw [htotal, add_assoc])) hr
    -- and what the first one has lost, to the frame of the second one
    obtain ⟨lost', hcard', hend⟩ := (hf r.1).live r.2 (lost + rest) r' (hmid.of_eq (by abel)) hfr
    refine ⟨lost + lost', ?_, hend.of_eq (by abel)⟩
    rw [Logged.bind_of_ok ((hx.same l).returned hr), debts_append, Multiset.card_add, hcard, hcard']
    omega

/-- The same, where the second step is handed what the first one returns only. -/
theorem builds_then (hx : Builds debt owe inn x y view own)
    (hf : ∀ a, Builds debt 0 (own a) (f a) (g (view a)) view' own') :
    Builds debt owe inn (x >>= f) (y >>= g) view' own' :=
  builds_bind 0 (add_zero inn).symm hx fun a => (hf a).of_eq (add_zero _).symm

/-- A computation that allocates nothing and at which nothing is lost. -/
theorem builds_lifted {z : Logged ε κ γ} (hz : z.All fun e => debt e = 0) :
    Builds debt 0 0 (liftM z : Allocating ε κ γ) z id fun _ => 0 where
  same l := by
    have hrun : (liftM z : Allocating ε κ γ) l = z >>= fun c => pure (c, l) := rfl
    rw [hrun]
    cases hres : z.result with
    | error k =>
        rw [Logged.bind_of_error hres]
        exact ⟨rfl, hres.symm⟩
    | ok c =>
        rw [Logged.bind_of_ok hres]
        exact ⟨List.append_nil _, hres.symm⟩
  live l rest r hl hr := by
    rcases Logged.result_bind.mp hr with ⟨c, -, hc⟩
    cases hc
    exact ⟨0, by rw [debts_eq_zero_iff.mpr hz]; rfl, hl.of_eq (by abel)⟩

theorem run_lift_bind (z : Logged ε κ γ) (f : γ → Allocating ε κ α) (l : Ledger) :
    ((liftM z : Allocating ε κ γ) >>= f) l = z >>= fun c => f c l := by
  change (z >>= fun c => pure (c, l)) >>= (fun r => f r.1 r.2) = _
  cases hres : z.result with
  | error k => rw [Logged.bind_of_error hres, Logged.bind_of_error hres, Logged.bind_of_error rfl]
  | ok c =>
      rw [Logged.bind_of_ok hres, Logged.bind_of_ok hres, Logged.bind_of_ok (a := (c, l)) rfl,
        Logged.log_pure, List.append_nil]

/-- Such a step, and what it returns. -/
theorem builds_lift {z : Logged ε κ γ} {f : γ → Allocating ε κ α} {g : γ → Logged ε κ β}
    (hz : z.All fun e => debt e = 0)
    (hf : ∀ c, z.result = .ok c → Builds debt owe inn (f c) (g c) view own) :
    Builds debt owe inn ((liftM z : Allocating ε κ γ) >>= f) (z >>= g) view own where
  same l := by
    rw [run_lift_bind]
    cases hres : z.result with
    | error k =>
        rw [Logged.bind_of_error hres, Logged.bind_of_error hres]
        exact ⟨rfl, rfl⟩
    | ok c =>
        rw [Logged.bind_of_ok hres, Logged.bind_of_ok hres]
        have hrest := (hf c hres).same l
        exact ⟨congrArg (z.log ++ ·) hrest.log, hrest.result⟩
  live l rest r hl hr := by
    rw [run_lift_bind] at hr
    rcases Logged.result_bind.mp hr with ⟨c, hc, hfc⟩
    rcases (hf c hc).live l rest r hl hfc with ⟨lost, hcard, hend⟩
    refine ⟨lost, ?_, hend⟩
    rw [Logged.bind_of_ok hc, debts_append, debts_eq_zero_iff.mpr hz, hcard]
    omega

/-- An event, and what is lost at it. -/
theorem builds_emit {e : ε} {f : Unit → Allocating ε κ α} {g : Unit → Logged ε κ β}
    (hf : Builds debt (owe + debt e) inn (f ()) (g ()) view own) :
    Builds debt owe inn (record e >>= f) (Logged.emit e >>= g) view own where
  same l := ⟨congrArg (e :: ·) (hf.same l).log, (hf.same l).result⟩
  live l rest r hl hr := by
    rcases hf.live l rest r hl hr with ⟨lost, hcard, hend⟩
    refine ⟨lost, ?_, hend⟩
    have hlog : (Logged.emit e >>= g).log = [e] ++ (g ()).log := rfl
    have hone : debts debt [e] = debt e := List.sum_singleton
    rw [hlog, debts_append, hone, hcard, Nat.add_assoc]

/-- A step that only touches the ledger. -/
theorem builds_account {h : Ledger → α × Ledger} {f : α → Allocating ε κ α'} {y : Logged ε κ β'}
    (own : α → Multiset ℕ)
    (hlive : ∀ l rest, l.Live (inn + rest) → (h l).2.Live (own (h l).1 + rest))
    (hf : ∀ l, Builds debt owe (own (h l).1) (f (h l).1) y view' own') :
    Builds debt owe inn ((fun l => pure (h l) : Allocating ε κ α) >>= f) y view' own' where
  same l := (hf l).same (h l).2
  live l rest r hl hr := (hf l).live (h l).2 rest r (hlive l rest hl) hr

theorem builds_ite {c : Prop} [Decidable c] {x₁ x₂ : Allocating ε κ α} {y₁ y₂ : Logged ε κ β}
    (h₁ : c → Builds debt owe inn x₁ y₁ view own) (h₂ : ¬c → Builds debt owe inn x₂ y₂ view own) :
    Builds debt owe inn (if c then x₁ else x₂) (if c then y₁ else y₂) view own := by
  split
  case isTrue h => exact h₁ h
  case isFalse h => exact h₂ h

end Logging
