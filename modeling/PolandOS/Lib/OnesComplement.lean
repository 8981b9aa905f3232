import Mathlib.Algebra.BigOperators.Group.List.Basic
import Mathlib.Algebra.GroupWithZero.Nat
import Mathlib.Tactic.Common

/-! # One's complement sums of 16-bit words

The arithmetic behind the Internet checksum: addition with the carry added back in.
A sum is a natural number below 65536, and `norm` takes any number to the sum that
stands for it. What is used of it: carries may be added back at any time
(`norm_carry`), and a sum of byte-swapped words is the byte-swapped sum
(`swap_norm`).
-/

namespace OnesComplement

/-- Addition with an end-around carry. -/
def add (a b : Nat) : Nat := (a + b) % 65536 + (a + b) / 65536

/-- The one's complement sum of words. -/
def sum (ws : List Nat) : Nat := ws.foldl add 0

/-- The sum that stands for a number: only zero stands for zero. -/
def norm (n : Nat) : Nat := if n = 0 then 0 else (n - 1) % 65535 + 1

theorem norm_lt (n : Nat) : norm n < 65536 := by
  unfold norm
  split <;> omega

theorem norm_of_lt {n : Nat} (h : n < 65536) : norm n = n := by
  unfold norm
  split <;> omega

theorem norm_pos {n : Nat} (h : 0 < n) : 0 < norm n := by
  unfold norm
  split <;> omega

/-- Positive numbers have the same sum exactly when they are congruent. -/
theorem norm_eq_iff {a b : Nat} (ha : 0 < a) (hb : 0 < b) :
    norm a = norm b ↔ a % 65535 = b % 65535 := by
  unfold norm
  split <;> split <;> omega

/-- The carries of a number can be added back. -/
theorem norm_carry (n : Nat) : norm (n % 65536 + n / 65536) = norm n := by
  rcases Nat.eq_zero_or_pos n with rfl | hn
  · rfl
  · have hpos : 0 < n % 65536 + n / 65536 := by omega
    rw [norm_eq_iff hpos hn]
    omega

theorem norm_norm_add (a b : Nat) : norm (norm a + b) = norm (a + b) := by
  rcases Nat.eq_zero_or_pos a with rfl | ha
  · rfl
  · have hpos := norm_pos ha
    rw [norm_eq_iff (by omega) (by omega)]
    unfold norm
    split <;> omega

/-- A sum and its complement make up the other zero. -/
theorem norm_add_compl (n : Nat) : norm (n + (65535 - norm n)) = 65535 := by
  rcases Nat.eq_zero_or_pos n with rfl | hn
  · rfl
  · have hvalue : norm n = (n - 1) % 65535 + 1 := if_neg (by omega)
    have hsum : norm (n + (65535 - norm n)) = (n + (65535 - norm n) - 1) % 65535 + 1 :=
      if_neg (by omega)
    rw [hsum, hvalue]
    omega

theorem add_eq_norm {a b : Nat} (ha : a < 65536) (hb : b < 65536) : add a b = norm (a + b) := by
  unfold add norm
  split <;> omega

theorem foldl_add {ws : List Nat} (hws : ∀ w ∈ ws, w < 65536) (a : Nat) :
    ws.foldl add (norm a) = norm (a + ws.sum) := by
  induction ws generalizing a with
  | nil => rfl
  | cons w ws ih =>
      rcases List.forall_mem_cons.mp hws with ⟨hw, hws⟩
      rw [List.foldl_cons, add_eq_norm (norm_lt a) hw, norm_norm_add, ih hws, List.sum_cons,
        Nat.add_assoc]

/-- The one's complement sum stands for the sum. -/
theorem sum_eq_norm {ws : List Nat} (hws : ∀ w ∈ ws, w < 65536) : sum ws = norm ws.sum := by
  have h := foldl_add hws 0
  rwa [Nat.zero_add] at h

/-! ## The two byte orders -/

/-- A word with its bytes swapped. -/
def swap (n : Nat) : Nat := n % 256 * 256 + n / 256

theorem swap_lt {n : Nat} (h : n < 65536) : swap n < 65536 := by
  unfold swap
  omega

/-- The complement of a swapped word. -/
theorem swap_compl {n : Nat} (h : n < 65536) : swap (65535 - n) = 65535 - swap n := by
  unfold swap
  omega

/-- Swapping is a multiplication. -/
theorem swap_norm (n : Nat) : swap (norm n) = norm (256 * n) := by
  rcases Nat.eq_zero_or_pos n with rfl | hn
  · rfl
  · have hlt := norm_lt n
    have hpos := norm_pos hn
    have hswap : 0 < swap (norm n) := by
      unfold swap
      omega
    rw [← norm_of_lt (swap_lt hlt), norm_eq_iff hswap (by omega)]
    unfold swap norm
    split <;> omega

/-- The words of a byte string, the first byte of each the higher one. A last odd byte
is padded with a zero. -/
def bigWords : List UInt8 → List Nat
  | hi :: lo :: rest => (hi.toNat * 256 + lo.toNat) :: bigWords rest
  | [hi] => [hi.toNat * 256]
  | [] => []

/-- The words of a byte string, the first byte of each the lower one. -/
def littleWords : List UInt8 → List Nat
  | lo :: hi :: rest => (lo.toNat + hi.toNat * 256) :: littleWords rest
  | [lo] => [lo.toNat]
  | [] => []

theorem bigWords_lt (bs : List UInt8) : ∀ w ∈ bigWords bs, w < 65536 := by
  fun_induction bigWords bs with
  | case1 hi lo rest ih =>
      have hhi := hi.toNat_lt
      have hlo := lo.toNat_lt
      exact List.forall_mem_cons.mpr ⟨by omega, ih⟩
  | case2 hi =>
      have hhi := hi.toNat_lt
      exact List.forall_mem_singleton.mpr (by omega)
  | case3 => exact List.forall_mem_nil _

theorem littleWords_sum_le (bs : List UInt8) : (littleWords bs).sum * 2 ≤ 65535 * (bs.length + 1) := by
  fun_induction littleWords bs with
  | case1 lo hi rest ih =>
      have hhi := hi.toNat_lt
      have hlo := lo.toNat_lt
      simp only [List.sum_cons, List.length_cons]
      omega
  | case2 lo =>
      have hlo := lo.toNat_lt
      simp only [List.sum_cons, List.sum_nil, List.length_cons, List.length_nil]
      omega
  | case3 => simp

theorem bigWords_append {as bs : List UInt8} (h : as.length % 2 = 0) :
    bigWords (as ++ bs) = bigWords as ++ bigWords bs := by
  fun_induction bigWords as with
  | case1 hi lo rest ih =>
      have hrest : rest.length % 2 = 0 := by
        simp only [List.length_cons] at h
        omega
      rw [List.cons_append, List.cons_append, bigWords, ih hrest, List.cons_append]
  | case2 hi => cases h
  | case3 => rfl

/-- The sums of the two byte orders are each other's swap. -/
theorem littleWords_sum (bs : List UInt8) :
    (littleWords bs).sum % 65535 = 256 * (bigWords bs).sum % 65535 := by
  fun_induction littleWords bs with
  | case1 lo hi rest ih =>
      simp only [bigWords, List.sum_cons]
      omega
  | case2 lo =>
      simp only [bigWords, List.sum_cons, List.sum_nil]
      omega
  | case3 => rfl

/-- The sums are zero together, where all bytes are. -/
theorem littleWords_sum_eq_zero (bs : List UInt8) :
    (littleWords bs).sum = 0 ↔ (bigWords bs).sum = 0 := by
  fun_induction littleWords bs with
  | case1 lo hi rest ih =>
      simp only [bigWords, List.sum_cons]
      omega
  | case2 lo =>
      simp only [bigWords, List.sum_cons, List.sum_nil]
      omega
  | case3 => rfl

/-- One checksum serves both byte orders. -/
theorem swap_norm_littleWords (bs : List UInt8) :
    swap (norm (littleWords bs).sum) = norm (bigWords bs).sum := by
  have hmod := littleWords_sum bs
  have hzero := littleWords_sum_eq_zero bs
  rw [swap_norm]
  rcases Nat.eq_zero_or_pos (bigWords bs).sum with hbig | hbig
  · rw [hbig, hzero.mpr hbig]
  · have hlittle : 0 < (littleWords bs).sum := by
      rw [Nat.pos_iff_ne_zero, ne_eq, hzero]
      omega
    rw [norm_eq_iff (by omega) hbig]
    omega

/-- The checksum of a byte string: the complement of the one's complement sum of its
words. -/
def checksum (bs : List UInt8) : Nat := 65535 - sum (bigWords bs)

/-- A word as it goes over the wire. -/
def wire (n : Nat) : List UInt8 := [UInt8.ofNat (n / 256), UInt8.ofNat n]

theorem wire_inj {a b : Nat} (ha : a < 65536) (hb : b < 65536) : wire a = wire b ↔ a = b := by
  constructor
  · intro h
    have hhi := congrArg (fun l : List UInt8 => l.head!.toNat) h
    have hlo := congrArg (fun l : List UInt8 => l.tail.head!.toNat) h
    simp only [wire, List.head!_cons, List.tail_cons, UInt8.toNat_ofNat'] at hhi hlo
    omega
  · rintro rfl
    rfl

theorem bigWords_wire {n : Nat} (h : n < 65536) : bigWords (wire n) = [n] := by
  simp only [wire, bigWords, UInt8.toNat_ofNat', List.cons.injEq, and_true]
  omega

/-- A checksum in a field that was zero makes the sum of all words the other zero. -/
theorem sum_with_checksum {as bs : List UInt8} (h : as.length % 2 = 0) :
    sum (bigWords (as ++ wire (checksum (as ++ [0, 0] ++ bs)) ++ bs)) = 65535 := by
  have hlt : checksum (as ++ [0, 0] ++ bs) < 65536 := by
    unfold checksum
    omega
  have hwords : ∀ field : List UInt8, field.length = 2 →
      (bigWords (as ++ field ++ bs)).sum = (bigWords as).sum + (bigWords field).sum +
        (bigWords bs).sum := by
    intro field hfield
    have heven : (as ++ field).length % 2 = 0 := by
      rw [List.length_append, hfield]
      omega
    rw [bigWords_append heven, bigWords_append h, List.sum_append, List.sum_append]
  have hzero := hwords [0, 0] rfl
  have hfield := hwords (wire (checksum (as ++ [0, 0] ++ bs))) rfl
  have hempty : (bigWords [0, 0]).sum = 0 := rfl
  rw [bigWords_wire hlt, List.sum_singleton] at hfield
  have hcompl := norm_add_compl (bigWords (as ++ [0, 0] ++ bs)).sum
  rw [sum_eq_norm (bigWords_lt _), hfield]
  refine Eq.trans (congrArg norm ?_) hcompl
  rw [checksum, sum_eq_norm (bigWords_lt _), hzero, hempty]
  omega

end OnesComplement
