import Mathlib.Order.Filter.AtTopBot.Basic

/-! # Functions with fuel

A loop that need not end is a function of a fuel. What it really computes is its
value for every large enough fuel: `Settles f b` says that this value is `b`.
-/

namespace Fuel

open Filter

variable {α β : Type*} {f : Nat → β} {b : β}

/-- From some fuel on, `f` is `b`. -/
def Settles (f : Nat → β) (b : β) : Prop := ∀ᶠ n in atTop, f n = b

theorem settles_iff : Settles f b ↔ ∃ N, ∀ n ≥ N, f n = b := eventually_atTop

theorem Settles.of_le {N : Nat} (h : ∀ n ≥ N, f n = b) : Settles f b := settles_iff.mpr ⟨N, h⟩

theorem Settles.of_eq (h : ∀ n, f n = b) : Settles f b := .of_forall h

/-- The first unit of fuel is spent on entering the function. -/
theorem Settles.of_succ (h : Settles (fun n => f (n + 1)) b) : Settles f b := by
  obtain ⟨N, hN⟩ := settles_iff.mp h
  refine .of_le (N := N + 1) fun n hn => ?_
  obtain ⟨m, rfl⟩ := Nat.exists_eq_add_of_le' hn
  exact hN (m + N) (Nat.le_add_left _ _)

theorem Settles.succ (h : Settles f b) : Settles (fun n => f (n + 1)) b := by
  obtain ⟨N, hN⟩ := settles_iff.mp h
  exact .of_le fun n hn => hN (n + 1) (Nat.le_succ_of_le hn)

theorem Settles.congr {g : Nat → β} (h : Settles f b) (hg : ∀ n, g n = f n) : Settles g b := by
  filter_upwards [h] with n hn
  rw [hg, hn]

/-- What follows a settled computation settles with it. -/
theorem Settles.bind {x : Nat → Option α} {g : Nat → α → Option β} {a : α} {r : Option β}
    (hx : Settles x (some a)) (hg : Settles (fun n => g n a) r) :
    Settles (fun n => (x n).bind (g n)) r := by
  filter_upwards [hx, hg] with n h₁ h₂
  rw [h₁]
  exact h₂

/-- A computation settles on one value at most. -/
theorem Settles.unique {c : β} (h : Settles f b) (h' : Settles f c) : b = c := by
  obtain ⟨n, hb, hc⟩ := (h.and h').exists
  exact hb.symm.trans hc

end Fuel
