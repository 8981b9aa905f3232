import Mathlib.Tactic.Common

/-! # DHCP options

The options of a message as RFC 2132 lays them out: a code, a length and so many bytes.
A pad is one byte. The list is over at an end byte, at an option that is cut off, or where
the bytes are. `Decodes` reads it, and `encode` writes it.
-/

namespace Rfc2132

/-- An option: its code and its data. -/
abbrev Opt := UInt8 × List UInt8

/-- The bytes of an option. -/
def encode (o : Opt) : List UInt8 := o.1 :: o.2.length.toUInt8 :: o.2

/-- The code is neither that of a pad nor that of the end, and the length is a byte. -/
structure ValidOpt (o : Opt) : Prop where
  ne_pad : o.1 ≠ 0
  ne_end : o.1 ≠ 255
  length_lt : o.2.length < 256

/-- The bytes hold these options. -/
inductive Decodes : List UInt8 → List Opt → Prop
  | nil : Decodes [] []
  | pad {bytes : List UInt8} {os : List Opt} : Decodes bytes os → Decodes (0 :: bytes) os
  | ended (bytes : List UInt8) : Decodes (255 :: bytes) []
  | noLength {code : UInt8} : code ≠ 0 → code ≠ 255 → Decodes [code] []
  | cut {code len : UInt8} {bytes : List UInt8} : code ≠ 0 → code ≠ 255 →
      bytes.length < len.toNat → Decodes (code :: len :: bytes) []
  | option {o : Opt} {bytes : List UInt8} {os : List Opt} : ValidOpt o → Decodes bytes os →
      Decodes (encode o ++ bytes) (o :: os)

variable {bytes : List UInt8} {o : Opt} {os : List Opt}

theorem ValidOpt.toNat_length (h : ValidOpt o) : o.2.length.toUInt8.toNat = o.2.length :=
  UInt8.toNat_ofNat_of_lt' h.length_lt

/-- An option that is there whole is read. -/
theorem decodes_of_le {code len : UInt8} (hpad : code ≠ 0) (hend : code ≠ 255)
    (hlen : len.toNat ≤ bytes.length) (h : Decodes (bytes.drop len.toNat) os) :
    Decodes (code :: len :: bytes) ((code, bytes.take len.toNat) :: os) := by
  have hlength : (bytes.take len.toNat).length = len.toNat := List.length_take_of_le hlen
  have hvalid : ValidOpt (code, bytes.take len.toNat) :=
    ⟨hpad, hend, Nat.lt_of_le_of_lt (Nat.le_of_eq hlength) len.toNat_lt⟩
  have hbytes : encode (code, bytes.take len.toNat) ++ bytes.drop len.toNat =
      code :: len :: bytes := by
    rw [encode, hlength, List.cons_append, List.cons_append, List.take_append_drop]
    simp
  rw [← hbytes]
  exact .option hvalid h

/-- What is written and closed is read back. -/
theorem decodes_encode (hos : ∀ o ∈ os, ValidOpt o) (rest : List UInt8) :
    Decodes (os.flatMap encode ++ 255 :: rest) os := by
  induction os with
  | nil => exact .ended rest
  | cons o os ih =>
      rw [List.flatMap_cons, List.append_assoc]
      exact .option (hos o List.mem_cons_self) (ih fun o ho => hos o (List.mem_cons_of_mem _ ho))

end Rfc2132
