import Mathlib.Data.Nat.Bitwise

/-! # The machine the kernel runs on

The kernel's integers are `u64`, `u32`, `u16` and `u8`; here they are natural
numbers kept below the power of two of their width, and every operation that
can wrap says so. A call that does not return to its caller ends in `Halt`.
-/

namespace PolandOS

/-- How a kernel function can fail to return. -/
inductive Halt where
  /-- `kpanic(fmt, ..)`, which never returns. -/
  | panic (fmt : String)
  /-- A loop that is never left. -/
  | diverges
deriving DecidableEq, Repr

/-- The steps of a computation that returns. -/
theorem bind_eq_ok {ε α β : Type} {x : Except ε α} {f : α → Except ε β} {b : β}
    (h : (x >>= f) = .ok b) : ∃ a, x = .ok a ∧ f a = .ok b := by
  cases x with
  | error e => cases h
  | ok a => exact ⟨a, rfl, h⟩

/-- `u64` addition. -/
def add64 (a b : Nat) : Nat := (a + b) % 2 ^ 64

/-- `u64` subtraction. -/
def sub64 (a b : Nat) : Nat := (a + 2 ^ 64 - b) % 2 ^ 64

/-- `u64` multiplication. -/
def mul64 (a b : Nat) : Nat := (a * b) % 2 ^ 64

theorem add64_eq {a b : Nat} (h : a + b < 2 ^ 64) : add64 a b = a + b :=
  Nat.mod_eq_of_lt h

theorem sub64_eq {a b : Nat} (ha : a < 2 ^ 64) (h : b ≤ a) : sub64 a b = a - b := by
  unfold sub64
  omega

theorem add64_lt (a b : Nat) : add64 a b < 2 ^ 64 := Nat.mod_lt _ (by decide)

theorem sub64_lt (a b : Nat) : sub64 a b < 2 ^ 64 := Nat.mod_lt _ (by decide)

/-- A counter that is stepped through the multiples of `step` below `total * step`. -/
theorem add64_stride {k step total : Nat} (htotal : total * step < 2 ^ 64) (hk : k < total) :
    add64 (k * step) step = (k + 1) * step := by
  have hle : (k + 1) * step ≤ total * step := Nat.mul_le_mul_right step hk
  rw [Nat.succ_mul] at hle ⊢
  exact add64_eq (hle.trans_lt htotal)

/-- `x & ~(2 ^ k - 1)` on `u64` rounds down to a multiple of `2 ^ k`. -/
theorem and_mask {x k : Nat} (hx : x < 2 ^ 64) (hk : k ≤ 64) :
    x &&& (2 ^ 64 - 2 ^ k) = x / 2 ^ k * 2 ^ k := by
  apply Nat.eq_of_testBit_eq
  intro i
  have hpos := Nat.two_pow_pos k
  have hp : 2 ^ 64 - 2 ^ k = 2 ^ 64 - ((2 ^ k - 1) + 1) := by omega
  have hk' : 2 ^ k - 1 < 2 ^ 64 := by
    have := Nat.pow_le_pow_right (show 0 < 2 by decide) hk
    omega
  rw [Nat.testBit_and, hp, Nat.testBit_two_pow_sub_succ hk', Nat.testBit_two_pow_sub_one,
    Nat.testBit_mul_two_pow, Nat.testBit_div_two_pow]
  by_cases h1 : k ≤ i
  · by_cases h2 : i < 64
    · simp [h1, h2]
    · have hi : 2 ^ 64 ≤ 2 ^ i := Nat.pow_le_pow_right (by decide) (by omega)
      have : x.testBit i = false := Nat.testBit_lt_two_pow (lt_of_lt_of_le hx hi)
      simp [this, h1]
  · simp [h1]
    omega

end PolandOS
