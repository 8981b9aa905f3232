import PolandOS.Lib.Crc
import Mathlib.Algebra.CharP.Two
import Mathlib.Algebra.Field.ZMod
import Mathlib.RingTheory.AdjoinRoot

/-! # The checksum as a division of polynomials

A CRC is the remainder of a polynomial over GF(2). The register is read reflected, low bit
first, and so is each byte of the message. The start value of the register stands in front
of the message, and thirty-two places are added behind it.
-/

namespace Crc

open Polynomial

/-! ## Words and messages as polynomials -/

/-- A bit as a coefficient. -/
def coefficient (b : Bool) : ZMod 2 := if b then 1 else 0

/-- The polynomial of a register: its low bit is the coefficient of `X ^ 31`. -/
noncomputable def reflected (c : UInt32) : (ZMod 2)[X] :=
  ∑ i ∈ Finset.range 32, C (coefficient (c.toNat.testBit i)) * X ^ (31 - i)

/-- The polynomial of degree 32 of which `g` has the lower coefficients, low bit last. -/
noncomputable def generator (g : UInt32) : (ZMod 2)[X] :=
  X ^ 32 + ∑ i ∈ Finset.range 32, C (coefficient (g.toNat.testBit i)) * X ^ i

/-- The polynomial of a byte: its low bit is the coefficient of `X ^ 7`. -/
noncomputable def reflectedByte (b : UInt8) : (ZMod 2)[X] :=
  ∑ i ∈ Finset.range 8, C (coefficient (b.toNat.testBit i)) * X ^ (7 - i)

/-- The polynomial of a message, whose first byte has the highest coefficients. -/
noncomputable def message : List UInt8 → (ZMod 2)[X]
  | [] => 0
  | b :: bytes => reflectedByte b * X ^ (8 * bytes.length) + message bytes

/-- What is divided: the message behind the start value of the register, and room for the
remainder behind it. -/
noncomputable def dividend (init : UInt32) (bytes : List UInt8) : (ZMod 2)[X] :=
  reflected init * X ^ (8 * bytes.length) + message bytes * X ^ 32

/-- The register of a polynomial of degree below 32. -/
noncomputable def toRegister (p : (ZMod 2)[X]) : UInt32 :=
  UInt32.ofNat (Nat.ofBits fun i : Fin 32 => decide (p.coeff (31 - i) ≠ 0))

/-- The CRC-32 of IEEE 802.3. -/
noncomputable def ieee (bytes : List UInt8) : UInt32 :=
  ~~~toRegister (dividend 0xFFFFFFFF bytes %ₘ generator 0x04C11DB7)

/-! ## Registers -/

@[simp] theorem coefficient_xor (a b : Bool) :
    coefficient (a ^^ b) = coefficient a + coefficient b := by
  cases a <;> cases b <;> decide

theorem reflected_xor (a b : UInt32) : reflected (a ^^^ b) = reflected a + reflected b := by
  simp only [reflected, UInt32.toNat_xor, Nat.testBit_xor, coefficient_xor, C_add, add_mul,
    Finset.sum_add_distrib]

theorem coeff_reflected (c : UInt32) {i : Nat} (hi : i < 32) :
    (reflected c).coeff (31 - i) = coefficient (c.toNat.testBit i) := by
  have hplace : ∀ j ∈ Finset.range 32, (C (coefficient (c.toNat.testBit j)) *
      X ^ (31 - j) : (ZMod 2)[X]).coeff (31 - i) =
      if j = i then coefficient (c.toNat.testBit i) else 0 := by
    intro j hj
    rw [coeff_C_mul_X_pow]
    have : j < 32 := Finset.mem_range.1 hj
    by_cases h : j = i
    · rw [if_pos h, if_pos (by omega), h]
    · rw [if_neg h, if_neg (by omega)]
  rw [reflected, finsetSum_coeff, Finset.sum_congr rfl hplace, Finset.sum_ite_eq',
    if_pos (Finset.mem_range.2 hi)]

theorem toRegister_reflected (c : UInt32) : toRegister (reflected c) = c := by
  have hbits : (fun i : Fin 32 => decide ((reflected c).coeff (31 - i) ≠ 0)) =
      fun i : Fin 32 => c.toNat.testBit i := by
    funext i
    rw [coeff_reflected c i.isLt]
    cases c.toNat.testBit i <;> decide
  rw [toRegister, hbits, Nat.ofBits_testBit, Nat.mod_eq_of_lt c.toNat_lt, UInt32.ofNat_toNat]

theorem degree_reflected_lt (c : UInt32) : (reflected c).degree < 32 := by
  refine (degree_sum_le _ _).trans_lt ?_
  rw [Finset.sup_lt_iff (by decide)]
  intro i _
  exact (degree_C_mul_X_pow_le _ _).trans_lt (by exact_mod_cast (by omega : 31 - i < 32))

/-! ## One bit, one byte, all bytes

`g` and `poly` are the same polynomial, once with the low bit last and once with it first.
Congruences are equations in the quotient by it.
-/

section

variable {g poly : UInt32}

theorem generator_eq (hpoly : ∀ i < 32, g.toNat.testBit i = poly.toNat.testBit (31 - i)) :
    generator g = X ^ 32 + reflected poly := by
  have hreflect := Finset.sum_range_reflect
    (fun i => (C (coefficient (g.toNat.testBit i)) * X ^ i : (ZMod 2)[X])) 32
  rw [generator, reflected, ← hreflect]
  refine congrArg (X ^ 32 + ·) (Finset.sum_congr rfl fun i hi => ?_)
  have hi : i < 32 := Finset.mem_range.1 hi
  rw [hpoly (32 - 1 - i) (by omega), show 31 - (32 - 1 - i) = i by omega]

/-- A shift to the right is a product with `X`, up to the bit that drops out. -/
theorem X_mul_reflected (c : UInt32) :
    X * reflected c = C (coefficient (c.toNat.testBit 0)) * X ^ 32 + reflected (c >>> 1) := by
  have hlast : (c >>> 1).toNat.testBit 31 = false := by
    refine Nat.testBit_lt_two_pow ?_
    have := c.toNat_lt
    rw [UInt32.toNat_shiftRight, Nat.shiftRight_eq_div_pow]
    exact Nat.div_lt_of_lt_mul this
  have hbit : ∀ i, (c >>> 1).toNat.testBit i = c.toNat.testBit (i + 1) := by
    intro i
    rw [UInt32.toNat_shiftRight, Nat.testBit_shiftRight]
    exact congrArg _ (Nat.add_comm 1 i)
  rw [reflected, reflected, Finset.sum_range_succ', Finset.sum_range_succ _ 31, hlast, mul_add,
    Finset.mul_sum]
  have hzero : (C (coefficient false) * X ^ (31 - 31) : (ZMod 2)[X]) = 0 := by simp [coefficient]
  have hrest : ∀ i ∈ Finset.range 31,
      (X * (C (coefficient (c.toNat.testBit (i + 1))) * X ^ (31 - (i + 1))) : (ZMod 2)[X]) =
        C (coefficient ((c >>> 1).toNat.testBit i)) * X ^ (31 - i) := by
    intro i hi
    have hi : i < 31 := Finset.mem_range.1 hi
    rw [hbit, show 31 - i = (31 - (i + 1)) + 1 by omega, pow_succ]
    ring
  rw [hzero, add_zero, Finset.sum_congr rfl hrest]
  ring

theorem and_one_ne_zero_iff (c : UInt32) : c &&& 1 ≠ 0 ↔ c.toNat.testBit 0 = true := by
  have : (c &&& 1).toNat = c.toNat % 2 := by
    rw [UInt32.toNat_and]
    exact Nat.and_one_is_mod _
  rw [Nat.testBit_zero, decide_eq_true_iff, Ne, ← UInt32.toNat_inj, this]
  change ¬ c.toNat % 2 = 0 ↔ _
  omega

/-- One bit of the division is a product with `X`. -/
theorem mk_shift (hpoly : generator g = X ^ 32 + reflected poly) (c : UInt32) :
    AdjoinRoot.mk (generator g) (reflected (shift poly c)) =
      AdjoinRoot.mk (generator g) (X * reflected c) := by
  rw [AdjoinRoot.mk_eq_mk, X_mul_reflected, hpoly, shift]
  split
  case isTrue h =>
    rw [reflected_xor, (and_one_ne_zero_iff c).1 h]
    refine ⟨1, ?_⟩
    simp only [coefficient, if_true, C_1, one_mul, mul_one]
    rw [CharTwo.sub_eq_add]
    linear_combination CharTwo.add_self_eq_zero (reflected (c >>> 1))
  case isFalse h =>
    have hbit : c.toNat.testBit 0 = false := by simpa using mt (and_one_ne_zero_iff c).2 h
    rw [hbit]
    simp [coefficient]

theorem mk_shift_iterate (hpoly : generator g = X ^ 32 + reflected poly) (n : Nat) (c : UInt32) :
    AdjoinRoot.mk (generator g) (reflected ((shift poly)^[n] c)) =
      AdjoinRoot.mk (generator g) (X ^ n * reflected c) := by
  induction n generalizing c with
  | zero => simp
  | succ n ih =>
      rw [Function.iterate_succ_apply, ih, map_mul, mk_shift hpoly, ← map_mul, pow_succ, mul_assoc]

theorem reflected_toUInt32 (b : UInt8) : reflected b.toUInt32 = X ^ 24 * reflectedByte b := by
  have hhigh : ∀ i ∈ Finset.range 24, (C (coefficient (b.toUInt32.toNat.testBit (8 + i))) *
      X ^ (31 - (8 + i)) : (ZMod 2)[X]) = 0 := by
    intro i _
    have hlt : b.toNat < 2 ^ (8 + i) :=
      b.toNat_lt.trans_le (Nat.pow_le_pow_right (by decide) (by omega))
    rw [UInt8.toNat_toUInt32, Nat.testBit_lt_two_pow hlt]
    simp [coefficient]
  rw [reflected, show (32 : Nat) = 8 + 24 from rfl, Finset.sum_range_add, Finset.sum_eq_zero hhigh,
    add_zero, reflectedByte, Finset.mul_sum]
  refine Finset.sum_congr rfl fun i hi => ?_
  have hi : i < 8 := Finset.mem_range.1 hi
  rw [UInt8.toNat_toUInt32, show 31 - i = 24 + (7 - i) by omega, pow_add]
  ring

theorem mk_feed (hpoly : generator g = X ^ 32 + reflected poly) (c : UInt32) (b : UInt8) :
    AdjoinRoot.mk (generator g) (reflected (feed poly c b)) =
      AdjoinRoot.mk (generator g) (X ^ 8 * reflected c + X ^ 32 * reflectedByte b) := by
  rw [feed, mk_shift_iterate hpoly, reflected_xor, reflected_toUInt32, mul_add, ← mul_assoc,
    ← pow_add]

/-- The register is the dividend, as far as the generator is concerned. -/
theorem mk_remainder (hpoly : generator g = X ^ 32 + reflected poly) (c : UInt32)
    (bytes : List UInt8) :
    AdjoinRoot.mk (generator g) (reflected (remainder poly c bytes)) =
      AdjoinRoot.mk (generator g) (dividend c bytes) := by
  induction bytes generalizing c with
  | nil => simp [remainder, dividend, message]
  | cons b bytes ih =>
      have hstep : AdjoinRoot.mk (generator g) (dividend (feed poly c b) bytes) =
          AdjoinRoot.mk (generator g) ((X ^ 8 * reflected c + X ^ 32 * reflectedByte b) *
            X ^ (8 * bytes.length) + message bytes * X ^ 32) := by
        rw [dividend, map_add, map_mul, mk_feed hpoly, ← map_mul, ← map_add]
      rw [remainder, List.foldl_cons]
      refine (ih (feed poly c b)).trans (hstep.trans (congrArg _ ?_))
      rw [dividend, message, List.length_cons]
      ring

/-- The register is the remainder of the dividend. -/
theorem reflected_remainder (hpoly : generator g = X ^ 32 + reflected poly) (c : UInt32)
    (bytes : List UInt8) :
    reflected (remainder poly c bytes) = dividend c bytes %ₘ generator g := by
  have hdegree : (reflected poly).degree < (32 : Nat) := degree_reflected_lt poly
  have hmonic : (generator g).Monic := hpoly ▸ monic_X_pow_add hdegree
  obtain ⟨q, hq⟩ := AdjoinRoot.mk_eq_mk.1 (mk_remainder hpoly c bytes).symm
  refine (div_modByMonic_unique q _ hmonic ⟨?_, ?_⟩).2.symm
  · linear_combination -hq
  · refine (degree_reflected_lt _).trans_eq ?_
    rw [hpoly, add_comm, degree_add_eq_right_of_degree_lt, degree_X_pow]
    · rfl
    · rwa [degree_X_pow]

end

/-- The reflected checksum with `0xEDB88320` is the CRC-32 of IEEE 802.3. -/
theorem checksum_eq_ieee (bytes : List UInt8) : checksum 0xEDB88320 bytes = ieee bytes := by
  have hpoly : generator 0x04C11DB7 = X ^ 32 + reflected 0xEDB88320 := generator_eq (by decide)
  rw [checksum, ieee, ← reflected_remainder hpoly, toRegister_reflected]

end Crc
