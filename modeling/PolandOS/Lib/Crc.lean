import Mathlib.Tactic.Common
import Mathlib.Logic.Function.Iterate

/-! # Cyclic redundancy checks

The reflected CRC of 32 bits with start value and final complement: a remainder that
takes one byte after the other. It does not matter how the bytes come in pieces.
-/

namespace Crc

/-- One bit of the division by the polynomial. -/
def shift (poly crc : UInt32) : UInt32 :=
  if crc &&& 1 ≠ 0 then (crc >>> 1) ^^^ poly else crc >>> 1

/-- One byte. -/
def feed (poly crc : UInt32) (b : UInt8) : UInt32 := (shift poly)^[8] (crc ^^^ b.toUInt32)

/-- The remainder behind some bytes. -/
def remainder (poly crc : UInt32) (bytes : List UInt8) : UInt32 := bytes.foldl (feed poly) crc

/-- The checksum of a list of bytes. -/
def checksum (poly : UInt32) (bytes : List UInt8) : UInt32 := ~~~remainder poly 0xFFFFFFFF bytes

theorem remainder_append (poly crc : UInt32) (a b : List UInt8) :
    remainder poly crc (a ++ b) = remainder poly (remainder poly crc a) b := List.foldl_append

-- the check value of CRC-32
example : checksum 0xEDB88320 [0x31, 0x32, 0x33, 0x34, 0x35, 0x36, 0x37, 0x38, 0x39] =
    0xCBF43926 := by decide +kernel

end Crc
