import Mathlib.Data.List.Destutter
import Mathlib.Data.Nat.ModEq
import Mathlib.Tactic.Common

/-! # The last entries in a ring

A ring of `n` slots that keeps the last entries of a list that only grows: the next entry
goes to `head`, and the oldest one is overwritten where the ring is full. What it means
that a slot holds an entry is left open. `Recent.push` keeps `Recent`, and `Recent.get`
finds an entry by its age.
-/

namespace RecentRing

variable {α : Type} {n head count : Nat} {holds holds' : Nat → α → Prop} {as : List α} {a : α}

/-- The last entries of `as`, which begins with the newest one. -/
structure Recent (n : Nat) (holds : Nat → α → Prop) (head count : Nat) (as : List α) : Prop where
  head_eq : head = as.length % n
  count_eq : count = min n as.length
  entry : ∀ i a, i < n → as[i]? = some a → holds ((as.length - 1 - i) % n) a

theorem recent_nil : Recent n holds 0 0 ([] : List α) :=
  ⟨(Nat.zero_mod n).symm, (Nat.min_zero n).symm, fun _ _ _ h => nomatch h⟩

/-- Entries of different age, but both in the ring, are in different slots. -/
theorem slot_ne {k i j : Nat} (hi : i < n) (hik : i ≤ k) (hj : j < n) (hjk : j ≤ k) (hij : i ≠ j) :
    (k - i) % n ≠ (k - j) % n := by
  intro h
  rcases Nat.lt_or_gt_of_ne hij with hlt | hgt
  · have hd : n ∣ (k - i) - (k - j) := (Nat.modEq_iff_dvd' (by omega)).mp h.symm
    have := Nat.le_of_dvd (by omega) hd
    omega
  · have hd : n ∣ (k - j) - (k - i) := (Nat.modEq_iff_dvd' (by omega)).mp h
    have := Nat.le_of_dvd (by omega) hd
    omega

/-- The new entry overwrites the oldest one, if any. -/
theorem Recent.push (hn : 0 < n) (h : Recent n holds head count as) (hnew : holds' head a)
    (hkeep : ∀ i < n, i ≠ head → ∀ b, holds i b → holds' i b) :
    Recent n holds' ((head + 1) % n) (if count < n then count + 1 else count) (a :: as) := by
  refine ⟨?_, ?_, fun i b hi hb => ?_⟩
  · rw [h.head_eq, List.length_cons, Nat.mod_add_mod]
  · rw [h.count_eq, List.length_cons]
    split
    · omega
    · omega
  · cases i with
    | zero =>
        cases hb
        rw [List.length_cons, Nat.add_sub_cancel, Nat.sub_zero, ← h.head_eq]
        exact hnew
    | succ i =>
        rw [List.getElem?_cons_succ] at hb
        have hlen : i < as.length := (List.getElem?_eq_some_iff.mp hb).1
        have hage : (a :: as).length - 1 - (i + 1) = as.length - 1 - i := by
          rw [List.length_cons]
          omega
        rw [hage]
        refine hkeep _ (Nat.mod_lt _ hn) ?_ b (h.entry i b (by omega) hb)
        rw [h.head_eq]
        have hne := slot_ne (k := as.length) hi hlen hn (Nat.zero_le _) (Nat.succ_ne_zero i)
        rwa [Nat.sub_zero, show as.length - (i + 1) = as.length - 1 - i by omega] at hne

/-- The entry of an age. -/
theorem Recent.get (hn : 0 < n) (h : Recent n holds head count as) {i : Nat} (hi : i < count) :
    ∃ a, as[i]? = some a ∧ holds ((head + 2 * n - 1 - i) % n) a := by
  have hmin := h.count_eq
  have hlen : i < as.length := by omega
  refine ⟨as[i], List.getElem?_eq_getElem hlen, ?_⟩
  have hentry := h.entry i _ (by omega) (List.getElem?_eq_getElem hlen)
  have hslot : (head + 2 * n - 1 - i) % n = (as.length - 1 - i) % n := by
    have hmod := Nat.mod_add_div as.length n
    have hlt := Nat.mod_lt as.length hn
    rw [h.head_eq]
    have hshift : as.length % n + 2 * n - 1 - i + n * (as.length / n) =
        as.length - 1 - i + n * 2 := by
      rw [Nat.mul_comm n 2]
      omega
    calc (as.length % n + 2 * n - 1 - i) % n
        = (as.length % n + 2 * n - 1 - i + n * (as.length / n)) % n :=
          (Nat.add_mul_mod_self_left ..).symm
      _ = (as.length - 1 - i) % n := by rw [hshift, Nat.add_mul_mod_self_left]
  rwa [hslot]

/-- The newest entry. -/
theorem Recent.last (hn : 0 < n) (h : Recent n holds head count as) (hpos : 0 < count) :
    ∃ a, as.head? = some a ∧ holds ((head + n - 1) % n) a := by
  rcases h.get hn hpos with ⟨a, ha, hslot⟩
  have hround : head + 2 * n - 1 - 0 = head + n - 1 + n := by omega
  rw [hround, Nat.add_mod_right] at hslot
  exact ⟨a, List.head?_eq_getElem?.trans ha, hslot⟩

/-! ## Lists without repetitions -/

variable [DecidableEq α]

/-- A last element is kept if the last one kept is another one. -/
theorem destutter'_concat (b : α) (l : List α) (a : α) :
    (l ++ [a]).destutter' (· ≠ ·) b =
      if (l.destutter' (· ≠ ·) b).getLast? = some a then l.destutter' (· ≠ ·) b
      else l.destutter' (· ≠ ·) b ++ [a] := by
  induction l generalizing b with
  | nil =>
      rw [List.nil_append, List.destutter'_singleton, List.destutter'_nil]
      by_cases h : b = a
      · simp [h]
      · simp [h]
  | cons c l ih =>
      rw [List.cons_append]
      by_cases h : b = c
      · rw [List.destutter'_cons_neg _ (by simpa using h),
          List.destutter'_cons_neg _ (by simpa using h), ih]
      · rw [List.destutter'_cons_pos _ h, List.destutter'_cons_pos _ h, ih]
        have hlast : (b :: l.destutter' (· ≠ ·) c).getLast? = (l.destutter' (· ≠ ·) c).getLast? :=
          List.getLast?_cons_of_ne_nil (List.destutter'_ne_nil l _)
        rw [hlast]
        split
        · rfl
        · rfl

/-- An entry is added where it is not the last one already. -/
theorem destutter_concat (l : List α) (a : α) :
    (l ++ [a]).destutter (· ≠ ·) =
      if (l.destutter (· ≠ ·)).getLast? = some a then l.destutter (· ≠ ·)
      else l.destutter (· ≠ ·) ++ [a] := by
  cases l with
  | nil => simp
  | cons b l =>
      rw [List.cons_append, List.destutter_cons', List.destutter_cons']
      exact destutter'_concat b l a

end RecentRing
