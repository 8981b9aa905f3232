import Mathlib.Logic.Function.Basic
import Mathlib.Tactic.Common

/-! # A disk next to a memory

Data goes between a memory and the media of a disk, a range of cells at a time. A transfer
that fails leaves anything in its range, and touches nothing outside it.

* `run_spares`: what is on a medium stays there until something is written over it
* `read_written`: a read returns what was written last
-/

namespace Disk

variable {κ V : Type} [DecidableEq κ]

/-- A range of cells is replaced. -/
def patch (start len : Nat) (new old : Nat → V) : Nat → V :=
  fun c => if start ≤ c ∧ c < start + len then new (c - start) else old c

/-- The memory, and what is on each medium. -/
@[ext] structure Store (κ V : Type) where
  mem : Nat → V
  media : κ → Nat → V

/-- A range of a medium, and where its data is in memory. -/
structure Range (κ : Type) where
  medium : κ
  start : Nat
  addr : Nat
  len : Nat

/-- A cell of the memory is written, or a range is transferred. Where a transfer fails, the
access says what it leaves. -/
inductive Access (κ V : Type) where
  | poke (a : Nat) (v : V)
  | read (r : Range κ) (left : Option (Nat → V))
  | write (r : Range κ) (left : Option (Nat → V))

namespace Store

def perform (s : Store κ V) : Access κ V → Store κ V
  | .poke a v => { s with mem := Function.update s.mem a v }
  | .read r left =>
    { s with mem := patch r.addr r.len (left.getD fun i => s.media r.medium (r.start + i)) s.mem }
  | .write r left =>
    let new := patch r.start r.len (left.getD fun i => s.mem (r.addr + i)) (s.media r.medium)
    { s with media := Function.update s.media r.medium new }

/-- Accesses one after the other. -/
def run (s : Store κ V) (as : List (Access κ V)) : Store κ V := as.foldl perform s

theorem run_append (s : Store κ V) (as bs : List (Access κ V)) :
    s.run (as ++ bs) = (s.run as).run bs := List.foldl_append

end Store

/-- Cell `c` lies in the range. -/
def Range.Has (r : Range κ) (k : κ) (c : Nat) : Prop :=
  r.medium = k ∧ r.start ≤ c ∧ c < r.start + r.len

/-- Nothing is written over the cell. -/
def Access.Spares (k : κ) (c : Nat) : Access κ V → Prop
  | .poke _ _ => True
  | .read _ _ => True
  | .write r _ => ¬r.Has k c

variable {s : Store κ V} {k : κ} {c : Nat} {r w : Range κ}

theorem patch_in {start len : Nat} {new old : Nat → V} (h : start ≤ c ∧ c < start + len) :
    patch start len new old c = new (c - start) := if_pos h

theorem patch_out {start len : Nat} {new old : Nat → V} (h : ¬(start ≤ c ∧ c < start + len)) :
    patch start len new old c = old c := if_neg h

theorem perform_spares {a : Access κ V} (h : a.Spares k c) :
    (s.perform a).media k c = s.media k c := by
  cases a with
  | poke b v => rfl
  | read r left => rfl
  | write r left =>
      by_cases hk : r.medium = k
      · subst hk
        change Function.update s.media r.medium _ r.medium c = _
        rw [Function.update_self]
        exact patch_out fun hin => h ⟨rfl, hin⟩
      · exact congrFun (Function.update_of_ne (Ne.symm hk) _ _) c

theorem run_spares {as : List (Access κ V)} (h : ∀ a ∈ as, a.Spares k c) :
    (s.run as).media k c = s.media k c := by
  induction as generalizing s with
  | nil => rfl
  | cons a as ih =>
      obtain ⟨ha, has⟩ := List.forall_mem_cons.1 h
      exact (ih has).trans (perform_spares ha)

/-- A cell that has been written holds what was in memory. -/
theorem perform_write (h : w.Has k c) :
    (s.perform (.write w none)).media k c = s.mem (w.addr + (c - w.start)) := by
  obtain ⟨rfl, hin⟩ := h
  change Function.update s.media w.medium _ w.medium c = _
  rw [Function.update_self]
  exact patch_in hin

/-- A cell that is read comes to memory. -/
theorem perform_read (h : r.Has k c) :
    (s.perform (.read r none)).mem (r.addr + (c - r.start)) = s.media k c := by
  obtain ⟨rfl, hlo, hhi⟩ := h
  have hin : r.addr ≤ r.addr + (c - r.start) ∧ r.addr + (c - r.start) < r.addr + r.len := by
    omega
  have hcell : r.start + (r.addr + (c - r.start) - r.addr) = c := by omega
  change patch r.addr r.len (fun i => s.media r.medium (r.start + i)) s.mem _ = _
  rw [patch_in hin, hcell]

/-- A read returns what was in memory when the cell was written last. -/
theorem read_written {as : List (Access κ V)} (hw : w.Has k c) (h : ∀ a ∈ as, a.Spares k c)
    (hr : r.Has k c) :
    (((s.perform (.write w none)).run as).perform (.read r none)).mem (r.addr + (c - r.start)) =
      s.mem (w.addr + (c - w.start)) := by
  rw [perform_read hr, run_spares h, perform_write hw]

end Disk
