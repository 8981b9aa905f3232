import Mathlib.Data.Nat.Digits.Lemmas

/-! # Numerals

Numbers written with the characters of some alphabet, in some base. `enc` gives the character
of a digit, and `dec` reads it.

* `read_write`: reading what was written gives the number back
* `write_head`: no numeral but that of zero begins with a zero
* `digitLoop_eq`: a loop that divides gives the digits, the last one first
-/

namespace Numeral

variable {C : Type*} (dec : C → Option Nat) (enc : Nat → C) (base : Nat)

/-- One more digit behind a number. -/
def shift (acc : Option Nat) (c : C) : Option Nat :=
  acc.bind fun n => (dec c).bind fun d => if d < base then some (n * base + d) else none

/-- The number that a numeral stands for, if all its characters are digits. -/
def read (cs : List C) : Option Nat := cs.foldl (shift dec base) (some 0)

/-- The digits of a number, the last one first; of zero there is one. -/
def lastFirst (n : Nat) : List C := if n = 0 then [enc 0] else (Nat.digits base n).map enc

/-- The numeral of a number. -/
def write (n : Nat) : List C := (lastFirst enc base n).reverse

/-- The loop that takes the last digit off until nothing is left. -/
def digitLoop : Nat → Nat → List C
  | 0, _ => []
  | fuel + 1, n => if n > 0 then enc (n % base) :: digitLoop fuel (n / base) else []

variable {dec enc base} {n : Nat}

theorem read_concat (cs : List C) (c : C) :
    read dec base (cs ++ [c]) = shift dec base (read dec base cs) c := by
  rw [read, List.foldl_append]
  rfl

/-- Digits that are read from the last to the first. -/
theorem read_reverse_map (henc : ∀ d < base, dec (enc d) = some d) {ds : List Nat}
    (hds : ∀ d ∈ ds, d < base) :
    read dec base (ds.map enc).reverse = some (Nat.ofDigits base ds) := by
  induction ds with
  | nil => rfl
  | cons d ds ih =>
      rcases List.forall_mem_cons.mp hds with ⟨hd, hrest⟩
      rw [List.map_cons, List.reverse_cons, read_concat, ih hrest, shift, Option.bind_some,
        henc d hd, Option.bind_some, if_pos hd, Nat.ofDigits_cons, Nat.mul_comm, Nat.add_comm]

theorem read_write (hbase : 1 < base) (henc : ∀ d < base, dec (enc d) = some d) (n : Nat) :
    read dec base (write enc base n) = some n := by
  unfold write lastFirst
  split
  case isTrue hzero =>
    have hread : read dec base ([0].map enc).reverse = some (Nat.ofDigits base [0]) :=
      read_reverse_map henc (List.forall_mem_singleton.mpr (by omega))
    rw [hzero]
    simpa using hread
  case isFalse =>
    rw [read_reverse_map henc fun d hd => Nat.digits_lt_base hbase hd, Nat.ofDigits_digits]

/-- Zeros in front do not count. -/
theorem read_zeros (hbase : 0 < base) {z : C} (hz : dec z = some 0) (k : Nat) (cs : List C) :
    read dec base (List.replicate k z ++ cs) = read dec base cs := by
  induction k with
  | zero => rfl
  | succ k ih =>
      rw [List.replicate_succ, List.cons_append]
      have hshift : shift dec base (some 0) z = some 0 := by
        rw [shift, Option.bind_some, hz, Option.bind_some, if_pos hbase, Nat.zero_mul]
      rw [read, List.foldl_cons, hshift]
      exact ih

theorem lastFirst_head (hbase : 1 < base) :
    (lastFirst enc base n).head? = some (enc (n % base)) := by
  unfold lastFirst
  split
  case isTrue hn => rw [hn, Nat.zero_mod, List.head?_cons]
  case isFalse hn =>
    rw [Nat.digits_def' hbase (Nat.pos_of_ne_zero hn), List.map_cons, List.head?_cons]

/-- The first digit of a number that is not zero. -/
theorem write_head (hbase : 1 < base) (hn : n ≠ 0) :
    ∃ d, 0 < d ∧ d < base ∧ (write enc base n).head? = some (enc d) := by
  have hne : Nat.digits base n ≠ [] := fun h => hn (Nat.digits_eq_nil_iff_eq_zero.mp h)
  refine ⟨(Nat.digits base n).getLast hne, ?_, ?_, ?_⟩
  · exact Nat.pos_of_ne_zero (Nat.getLast_digit_ne_zero base hn)
  · exact Nat.digits_lt_base hbase (List.getLast_mem hne)
  · rw [write, lastFirst, if_neg hn, List.head?_reverse, List.getLast?_map,
      List.getLast?_eq_getLast_of_ne_nil hne, Option.map_some]

/-- A number below a power of the base has no more digits than the exponent. -/
theorem length_lastFirst_le (hbase : 1 < base) {k : Nat} (hk : 0 < k) (hn : n < base ^ k) :
    (lastFirst enc base n).length ≤ k := by
  unfold lastFirst
  split
  · exact hk
  · rw [List.length_map]
    exact (Nat.digits_length_le_iff hbase n).mpr hn

theorem digitLoop_eq (hbase : 1 < base) {fuel : Nat} (hfuel : n < base ^ fuel) :
    digitLoop enc base fuel n = (Nat.digits base n).map enc := by
  induction fuel generalizing n with
  | zero =>
      rw [pow_zero, Nat.lt_one_iff] at hfuel
      rw [hfuel, Nat.digits_zero]
      rfl
  | succ fuel ih =>
      rw [digitLoop]
      split
      case isTrue hpos =>
        rw [Nat.digits_def' hbase hpos, List.map_cons, ih (Nat.div_lt_of_lt_mul ?_)]
        rwa [pow_succ'] at hfuel
      case isFalse hzero =>
        rw [Nat.eq_zero_of_not_pos hzero, Nat.digits_zero]
        rfl

/-- The same, with the digit of zero. -/
theorem lastFirst_eq_loop (hbase : 1 < base) {fuel : Nat} (hfuel : n < base ^ fuel) :
    lastFirst enc base n = if n = 0 then [enc 0] else digitLoop enc base fuel n := by
  rw [digitLoop_eq hbase hfuel, lastFirst]

end Numeral
