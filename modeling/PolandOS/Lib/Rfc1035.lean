import Mathlib.Tactic.Common

/-! # Domain names and messages

Names as sequences of labels, and the sections of a message, as RFC 1035 lays them out:
what is written for a name (`encodeName`), and what is read where a message has one
(`Name`), with a compression pointer at its end or without. A message is a function from
positions to bytes, and its length.
-/

namespace Rfc1035

/-! ## Names -/

/-- A label: how many bytes, and the bytes. -/
def encodeLabel (label : List UInt8) : List UInt8 := label.length.toUInt8 :: label

/-- A name: its labels, and the root's behind them. -/
def encodeName (labels : List (List UInt8)) : List UInt8 := labels.flatMap encodeLabel ++ [0]

/-- The limits of a name. -/
structure ValidName (labels : List (List UInt8)) : Prop where
  label : ∀ l ∈ labels, 1 ≤ l.length ∧ l.length ≤ 63
  total : (encodeName labels).length ≤ 255

@[simp] theorem encodeName_nil : encodeName [] = [0] := rfl

theorem encodeName_cons (label : List UInt8) (labels : List (List UInt8)) :
    encodeName (label :: labels) = encodeLabel label ++ encodeName labels := by
  rw [encodeName, encodeName, List.flatMap_cons, List.append_assoc]

/-! ## Messages -/

variable {m : Nat → UInt8} {len : Nat}

/-- A number of 16 bits. -/
def be16 (m : Nat → UInt8) (p : Nat) : Nat := (m p).toNat * 256 + (m (p + 1)).toNat

/-- A name from a position on, and where it ends: at the root's label, or at a pointer. -/
inductive Name (m : Nat → UInt8) (len : Nat) : Nat → Nat → Prop
  | root {p : Nat} : p < len → m p = 0 → Name m len p (p + 1)
  | pointer {p : Nat} : p + 2 ≤ len → 192 ≤ (m p).toNat → Name m len p (p + 2)
  | label {p e : Nat} : 0 < (m p).toNat → (m p).toNat < 64 → p + 1 + (m p).toNat ≤ len →
      Name m len (p + 1 + (m p).toNat) e → Name m len p e

/-- So many questions, each a name with a type and a class. -/
inductive Questions (m : Nat → UInt8) (len : Nat) : Nat → Nat → Nat → Prop
  | nil {p : Nat} : Questions m len 0 p p
  | cons {n p q e : Nat} : Name m len p q → q + 4 ≤ len → Questions m len n (q + 4) e →
      Questions m len (n + 1) p e

/-- The record whose name ends here is of type A and has four bytes of data. -/
def IsAddress (m : Nat → UInt8) (q : Nat) : Prop := be16 m q = 1 ∧ be16 m (q + 8) = 4

instance (m : Nat → UInt8) (q : Nat) : Decidable (IsAddress m q) :=
  inferInstanceAs (Decidable (_ ∧ _))

/-- Where the data of the first address among so many records is. -/
inductive FirstAddress (m : Nat → UInt8) (len : Nat) : Nat → Nat → Nat → Prop
  | here {n p q : Nat} : Name m len p q → q + 14 ≤ len → IsAddress m q →
      FirstAddress m len (n + 1) p (q + 10)
  | skip {n p q a : Nat} : Name m len p q → ¬IsAddress m q → q + 10 + be16 m (q + 8) ≤ len →
      FirstAddress m len n (q + 10 + be16 m (q + 8)) a → FirstAddress m len (n + 1) p a

/-- The sections of a message up to its first address, whose data is here. -/
def Resolves (m : Nat → UInt8) (len a : Nat) : Prop :=
  ∃ p, Questions m len (be16 m 4) 12 p ∧ FirstAddress m len (be16 m 6) p a

theorem Name.start {p e : Nat} (h : Name m len p e) : p < len := by
  cases h with
  | root hp => exact hp
  | pointer hp => omega
  | label _ _ hp => omega

theorem Name.ends {p e : Nat} (h : Name m len p e) : p < e ∧ e ≤ len := by
  induction h with
  | root hp => omega
  | pointer hp => omega
  | label _ _ _ _ ih => omega

/-- Behind a label comes the rest of the name. -/
theorem Name.of_label {p e : Nat} (h : Name m len p e) (hpos : 0 < (m p).toNat)
    (hlt : (m p).toNat < 64) :
    p + 1 + (m p).toNat ≤ len ∧ Name m len (p + 1 + (m p).toNat) e := by
  cases h with
  | root _ hzero =>
      rw [hzero] at hpos
      exact absurd hpos (by decide)
  | pointer _ hge => omega
  | label _ _ hp hrest => exact ⟨hp, hrest⟩

/-- A name ends in one place. -/
theorem Name.unique {p e e' : Nat} (h : Name m len p e) (h' : Name m len p e') : e = e' := by
  induction h with
  | @root p hp hzero =>
      cases h' with
      | root => rfl
      | pointer _ hge =>
          rw [hzero] at hge
          exact absurd hge (by decide)
      | label hpos =>
          rw [hzero] at hpos
          exact absurd hpos (by decide)
  | pointer _ hge =>
      cases h' with
      | root _ hzero =>
          rw [hzero] at hge
          exact absurd hge (by decide)
      | pointer => rfl
      | label _ hlt => omega
  | label hpos hlt _ _ ih => exact ih (h'.of_label hpos hlt).2

theorem Questions.unique {n p e e' : Nat} (h : Questions m len n p e)
    (h' : Questions m len n p e') : e = e' := by
  induction h with
  | nil =>
      cases h'
      rfl
  | cons hname _ _ ih =>
      cases h' with
      | cons hname' _ hrest' =>
          rw [hname'.unique hname] at hrest'
          exact ih hrest'

end Rfc1035
