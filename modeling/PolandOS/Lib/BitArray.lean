import PolandOS.Lib.ByteMem
import Mathlib.Data.Nat.Bitwise

/-! # Arrays of bits in byte memory

Bit `f` of the array at `a` is bit `f % 8` of the byte at `a + f / 8`. Setting
and clearing a bit changes that bit alone, as long as the byte offsets stay
below `2 ^ 64`, where two offsets cannot meet.
-/

namespace BitArray

open ByteMem

/-- `1 << (f % 8)`. -/
def bitMask (f : Nat) : UInt8 := 1 <<< UInt8.ofNat (f % 8)

/-- `a[f / 8] |= 1 << (f % 8)`. -/
def setBit (m : Mem) (a f : Nat) : Mem :=
  set m (byteAt a (f / 8)) (m (byteAt a (f / 8)) ||| bitMask f)

/-- `a[f / 8] &= ~(1 << (f % 8))`. -/
def clearBit (m : Mem) (a f : Nat) : Mem :=
  set m (byteAt a (f / 8)) (m (byteAt a (f / 8)) &&& ~~~bitMask f)

/-- `(a[f / 8] >> (f % 8)) & 1`, as a truth value. -/
def test (m : Mem) (a f : Nat) : Bool :=
  (m (byteAt a (f / 8)) >>> UInt8.ofNat (f % 8)) &&& 1 != 0

/-! ## One bit -/

theorem shiftRight_and_one (b : UInt8) {k : Nat} (hk : k < 8) :
    ((b >>> UInt8.ofNat k) &&& 1 != 0) = b.toNat.testBit k := by
  have hk' : (UInt8.ofNat k).toNat % 8 = k := by
    rw [UInt8.toNat_ofNat']
    omega
  have hval : ((b >>> UInt8.ofNat k) &&& 1).toNat = 1 &&& (b.toNat >>> k) := by
    rw [UInt8.toNat_and, UInt8.toNat_shiftRight, hk', Nat.and_comm]
    rfl
  rw [Nat.testBit, ← hval, Bool.eq_iff_iff, bne_iff_ne, bne_iff_ne, ne_eq, ne_eq,
    ← UInt8.toNat_inj]
  rfl

theorem test_eq (m : Mem) (a f : Nat) :
    test m a f = (m (byteAt a (f / 8))).toNat.testBit (f % 8) :=
  shiftRight_and_one _ (Nat.mod_lt _ (by decide))

theorem toNat_bitMask (f : Nat) : (bitMask f).toNat = 2 ^ (f % 8) := by
  have hf : f % 8 < 8 := Nat.mod_lt _ (by decide)
  have hlt : 2 ^ (f % 8) < 2 ^ 8 := Nat.pow_lt_pow_right (by decide) hf
  have hk : (UInt8.ofNat (f % 8)).toNat % 8 = f % 8 := by
    rw [UInt8.toNat_ofNat']
    omega
  rw [bitMask, UInt8.toNat_shiftLeft, hk, UInt8.toNat_one, Nat.shiftLeft_eq, Nat.one_mul,
    Nat.mod_eq_of_lt hlt]

theorem testBit_or_bitMask (b : UInt8) (f k : Nat) :
    (b ||| bitMask f).toNat.testBit k = (b.toNat.testBit k || decide (f % 8 = k)) := by
  rw [UInt8.toNat_or, Nat.testBit_or, toNat_bitMask, Nat.testBit_two_pow]

theorem testBit_and_not_bitMask (b : UInt8) (f : Nat) {k : Nat} (hk : k < 8) :
    (b &&& ~~~bitMask f).toNat.testBit k = (b.toNat.testBit k && !decide (f % 8 = k)) := by
  have hlt : 2 ^ (f % 8) < 2 ^ 8 := Nat.pow_lt_pow_right (by decide) (Nat.mod_lt _ (by decide))
  have hnot : (~~~bitMask f).toNat = 2 ^ 8 - (2 ^ (f % 8) + 1) := by
    rw [UInt8.toNat_not, toNat_bitMask]
    simp only [UInt8.size]
    omega
  rw [UInt8.toNat_and, Nat.testBit_and, hnot, Nat.testBit_two_pow_sub_succ hlt,
    Nat.testBit_two_pow]
  simp [hk]

/-! ## Bits of an array -/

section

variable {m : Mem} {a f g : Nat}

theorem test_setBit (hf : f < 2 ^ 64) (hg : g < 2 ^ 64) :
    test (setBit m a f) a g = (test m a g || decide (f = g)) := by
  rw [test_eq, test_eq, setBit]
  by_cases hbyte : f / 8 = g / 8
  · have hbit : f % 8 = g % 8 ↔ f = g := by omega
    rw [← hbyte, set_self, testBit_or_bitMask]
    simp only [hbit]
  · have hne : byteAt a (g / 8) ≠ byteAt a (f / 8) := fun h =>
      hbyte (byteAt_inj (by omega) (by omega) h).symm
    have hfg : f ≠ g := fun h => hbyte (by rw [h])
    rw [set_ne _ _ hne]
    simp [hfg]

theorem test_clearBit (hf : f < 2 ^ 64) (hg : g < 2 ^ 64) :
    test (clearBit m a f) a g = (test m a g && !decide (f = g)) := by
  rw [test_eq, test_eq, clearBit]
  by_cases hbyte : f / 8 = g / 8
  · have hbit : f % 8 = g % 8 ↔ f = g := by omega
    rw [← hbyte, set_self, testBit_and_not_bitMask _ _ (Nat.mod_lt _ (by decide))]
    simp only [hbit]
  · have hne : byteAt a (g / 8) ≠ byteAt a (f / 8) := fun h =>
      hbyte (byteAt_inj (by omega) (by omega) h).symm
    have hfg : f ≠ g := fun h => hbyte (by rw [h])
    rw [set_ne _ _ hne]
    simp [hfg]

theorem setBit_frame {x : Nat} (h : x ≠ byteAt a (f / 8)) : setBit m a f x = m x :=
  set_ne _ _ h

/-- The bits depend on the bytes of the array alone. -/
theorem test_congr {m' : Mem} (h : m' (byteAt a (f / 8)) = m (byteAt a (f / 8))) :
    test m' a f = test m a f := by
  simp only [test, h]

/-- Every bit of an array filled with `0xFF` is set. -/
theorem test_memset {n : Nat} (hf : f / 8 < n) : test (memset m a 0xFF n) a f = true := by
  rw [test_eq, memset_fill _ _ hf]
  have hk : f % 8 < 8 := Nat.mod_lt _ (by decide)
  change (2 ^ 8 - 1).testBit (f % 8) = true
  rw [Nat.testBit_two_pow_sub_one]
  exact decide_eq_true hk

end

end BitArray
