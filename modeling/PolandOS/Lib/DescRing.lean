import Mathlib.Data.List.Nodup
import Mathlib.Data.List.Range
import Mathlib.Data.Nat.ModEq
import Mathlib.Logic.Function.Basic
import Mathlib.Tactic.Common

/-! # Rings of descriptors with done bits

A driver hands descriptors to a device at the tail, and the device completes them at its
head, as long as the two differ. The driver looks at the done bit of a descriptor before it
takes it. `Holds` says how many are outstanding. It survives every step, but where all slots
are outstanding the device takes the ring for empty.
-/

namespace DescRing

/-- The done bits, where the device is, and where the driver is. -/
structure Ring where
  done : Nat → Bool
  head : Nat
  tail : Nat

variable {n k : Nat} {r : Ring}

/-- The driver takes the descriptor at the tail, if it is done. -/
def Ring.send (n : Nat) (r : Ring) : Ring :=
  if r.done r.tail then
    { r with done := Function.update r.done r.tail false, tail := (r.tail + 1) % n }
  else r

/-- The device completes the descriptor at its head, if it thinks that there is one. -/
def Ring.complete (n : Nat) (r : Ring) : Ring :=
  if r.head = r.tail then r
  else { r with done := Function.update r.done r.head true, head := (r.head + 1) % n }

/-- The number of descriptors that are not done. -/
def Ring.outstanding (n : Nat) (r : Ring) : Nat := (List.range n).countP fun i => !r.done i

/-- The `k` descriptors from the head on are outstanding. -/
structure Holds (n : Nat) (r : Ring) (k : Nat) : Prop where
  head_lt : r.head < n
  le : k ≤ n
  tail_eq : r.tail = (r.head + k) % n
  done_iff : ∀ i < n, r.done ((r.head + i) % n) = true ↔ k ≤ i

/-- Slots by their distance from the head. -/
theorem exists_offset {h i : Nat} (hh : h < n) (hi : i < n) : ∃ j < n, i = (h + j) % n := by
  by_cases hle : h ≤ i
  · refine ⟨i - h, by omega, ?_⟩
    rw [Nat.add_sub_cancel' hle, Nat.mod_eq_of_lt hi]
  · refine ⟨i + n - h, by omega, ?_⟩
    rw [show h + (i + n - h) = i + n by omega, Nat.add_mod_right, Nat.mod_eq_of_lt hi]

theorem offset_inj {h i j : Nat} (hi : i < n) (hj : j < n) (heq : (h + i) % n = (h + j) % n) :
    i = j := by
  have hmod : i % n = j % n := Nat.ModEq.add_left_cancel' h heq
  rwa [Nat.mod_eq_of_lt hi, Nat.mod_eq_of_lt hj] at hmod

theorem Holds.tail_lt (h : Holds n r k) : r.tail < n := by
  rw [h.tail_eq]
  exact Nat.mod_lt _ (Nat.zero_lt_of_lt h.head_lt)

/-- Equal indices mean that none is outstanding, or all are. -/
theorem Holds.head_eq_tail_iff (h : Holds n r k) : r.head = r.tail ↔ k = 0 ∨ k = n := by
  have hn := h.head_lt
  have hk := h.le
  rw [h.tail_eq]
  by_cases hfull : k = n
  · rw [hfull, Nat.add_mod_right, Nat.mod_eq_of_lt hn]
    simp
  · have hzero : (r.head + 0) % n = r.head := Nat.mod_eq_of_lt hn
    constructor
    · intro heq
      have := offset_inj (by omega) (by omega) (hzero.trans heq)
      exact .inl this.symm
    · rintro (rfl | rfl)
      · exact hzero.symm
      · exact absurd rfl hfull

theorem Holds.done_tail_iff (h : Holds n r k) : r.done r.tail = true ↔ k ≠ n := by
  have hn := h.head_lt
  have hk := h.le
  rw [h.tail_eq]
  by_cases hfull : k = n
  · have hfirst := h.done_iff 0 (by omega)
    rw [hfull, Nat.add_mod_right]
    rw [Nat.add_zero] at hfirst
    rw [hfirst]
    omega
  · rw [h.done_iff k (by omega)]
    simp [hfull]

theorem Holds.send (h : Holds n r k) (hk : k ≠ n) : Holds n (r.send n) (k + 1) := by
  have hle := h.le
  have hhead := h.head_lt
  unfold Ring.send
  rw [if_pos (h.done_tail_iff.2 hk)]
  refine ⟨hhead, by omega, ?_, fun i hi => ?_⟩
  · dsimp only
    rw [h.tail_eq, Nat.mod_add_mod, Nat.add_assoc]
  · dsimp only
    rw [h.tail_eq]
    by_cases hik : i = k
    · rw [hik, Function.update_self]
      simp
    · have hne : (r.head + i) % n ≠ (r.head + k) % n :=
        fun heq => hik (offset_inj hi (by omega) heq)
      rw [Function.update_of_ne hne, h.done_iff i hi]
      omega

/-- The oldest one is done: it is the one at the head, and the head moves on. -/
theorem Holds.complete (h : Holds n r k) (hzero : k ≠ 0) (hk : k ≠ n) :
    Holds n (r.complete n) (k - 1) := by
  have hle := h.le
  have hhead := h.head_lt
  have hne : ¬r.head = r.tail := by
    rw [h.head_eq_tail_iff]
    omega
  unfold Ring.complete
  rw [if_neg hne]
  refine ⟨Nat.mod_lt _ (by omega), by omega, ?_, fun i hi => ?_⟩
  · dsimp only
    rw [h.tail_eq, Nat.mod_add_mod]
    congr 1
    omega
  · dsimp only
    rw [Nat.mod_add_mod, Nat.add_assoc]
    by_cases hlast : i + 1 = n
    · rw [Nat.add_comm 1 i, hlast, Nat.add_mod_right, Nat.mod_eq_of_lt hhead, Function.update_self]
      simp
      omega
    · have hother : (r.head + (1 + i)) % n ≠ r.head := by
        intro heq
        have hfirst : (r.head + 0) % n = r.head := Nat.mod_eq_of_lt hhead
        have := offset_inj (i := 1 + i) (j := 0) (by omega) (by omega) (heq.trans hfirst.symm)
        omega
      rw [Function.update_of_ne hother, h.done_iff (1 + i) (by omega)]
      omega

theorem countP_range_lt (hk : k ≤ n) : (List.range n).countP (fun i => decide (i < k)) = k := by
  obtain ⟨m, rfl⟩ := Nat.exists_eq_add_of_le hk
  have hlow : (List.range k).countP (fun i => decide (i < k)) = (List.range k).length :=
    List.countP_eq_length.2 fun i hi => decide_eq_true (List.mem_range.1 hi)
  have hhigh : ((List.range m).map (k + ·)).countP (fun i => decide (i < k)) = 0 :=
    List.countP_eq_zero.2 fun i hi => by
      obtain ⟨j, -, rfl⟩ := List.mem_map.1 hi
      simp
  rw [List.range_add, List.countP_append, hlow, hhigh, List.length_range, Nat.add_zero]

/-- `k` counts the descriptors that are not done. -/
theorem Holds.outstanding_eq (h : Holds n r k) : r.outstanding n = k := by
  have hhead := h.head_lt
  have hnodup : ((List.range n).map fun i => (r.head + i) % n).Nodup :=
    List.Nodup.map_on (fun i hi j hj heq =>
      offset_inj (List.mem_range.1 hi) (List.mem_range.1 hj) heq) List.nodup_range
  have hperm : ((List.range n).map fun i => (r.head + i) % n).Perm (List.range n) := by
    refine (List.perm_ext_iff_of_nodup hnodup List.nodup_range).2 fun i => ?_
    rw [List.mem_map, List.mem_range]
    constructor
    · rintro ⟨j, -, rfl⟩
      exact Nat.mod_lt _ (by omega)
    · intro hi
      obtain ⟨j, hj, heq⟩ := exists_offset hhead hi
      exact ⟨j, List.mem_range.2 hj, heq.symm⟩
  unfold Ring.outstanding
  rw [← hperm.countP_eq, List.countP_map, ← countP_range_lt h.le]
  refine List.countP_congr fun i hi => ?_
  have hdone := h.done_iff i (List.mem_range.1 hi)
  rw [Function.comp_apply, Bool.not_eq_true', decide_eq_true_iff,
    ← Bool.not_eq_true, hdone]
  omega

end DescRing
