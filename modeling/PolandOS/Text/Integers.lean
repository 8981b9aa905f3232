import PolandOS.Lib.Numerals
import PolandOS.Text.Formats

/-! # The text of an integer

What `fmt_int` writes for the conversions of integers: padding, a sign or prefix, zeros and
digits.

* `integer_text_iff`: the text says the value and is as long as it is asked to be
-/

namespace PolandOS.Printf

open Numeral

/-! ## Conversions of integers -/

/-- `%d`, `%u`, `%x` and `%X`, and `%o`. -/
inductive Specifier where
  | signed
  | unsigned
  | hex (upper : Bool)
  | octal

namespace Specifier

/-- The specifier of a character. -/
def ofChar (c : UInt8) : Option Specifier :=
  if c = chr 'd' ∨ c = chr 'i' then some .signed
  else if c = chr 'u' then some .unsigned
  else if c = chr 'x' ∨ c = chr 'X' then some (.hex (c = chr 'X'))
  else if c = chr 'o' then some .octal
  else none

def base : Specifier → Nat
  | signed | unsigned => 10
  | hex _ => 16
  | octal => 8

def upper : Specifier → Bool
  | hex upper => upper
  | _ => false

/-- `alt_form`, of the specifiers that heed it. -/
def alt (cv : Conversion) : Specifier → Bool
  | signed | unsigned => false
  | hex _ | octal => cv.altForm

/-- The argument, as a value of 64 bits. -/
def argument (cv : Conversion) (ap : VaList) : Specifier → UInt64
  | signed => (vaSigned cv ap).toUInt64
  | _ => vaUnsigned cv ap

/-- The call of `fmt_int` for a value. -/
def write (ctx : PrintCtx) (cv : Conversion) (v : UInt64) : Specifier → PrintCtx × Int32
  | signed => fmtSigned ctx cv v.toInt64
  | unsigned =>
    fmtInt ctx v false false 10 false cv.width cv.prec cv.leftAlign cv.zeroPad false
  | hex upper =>
    fmtInt ctx v false false 16 upper cv.width cv.prec cv.leftAlign cv.zeroPad cv.altForm
  | octal =>
    fmtInt ctx v false false 8 false cv.width cv.prec cv.leftAlign cv.zeroPad cv.altForm

/-- The value that is written. -/
def value (v : UInt64) : Specifier → Int
  | signed => v.toInt64.toInt
  | _ => v.toNat

/-- The conversions of the formatter. -/
theorem convert_eq_write (stringAt : UInt64 → CString) (ctx : PrintCtx) (cv : Conversion)
    (ap : VaList) {c : UInt8} {k : Specifier} (h : ofChar c = some k) :
    convert stringAt ctx cv ap c = (k.write ctx cv (k.argument cv ap), ap.next) := by
  unfold ofChar at h
  unfold convert
  split at h
  case isTrue hc =>
    cases h
    rw [if_pos hc, write, argument, Int64.toInt64_toUInt64]
  rw [if_neg ‹_›]
  split at h
  case isTrue hc =>
    cases h
    rw [if_pos hc]
    rfl
  rw [if_neg ‹_›]
  split at h
  case isTrue hc =>
    cases h
    rw [if_pos hc]
    rfl
  rw [if_neg ‹_›]
  split at h
  case isTrue hc =>
    cases h
    rw [if_pos hc]
    rfl
  cases h

end Specifier

/-! ## What a text should be -/

/-- The value of a digit. -/
def digitValue (c : UInt8) : Option Nat :=
  if isDigit c then some (c.toNat - (chr '0').toNat)
  else if chr 'a' ≤ c ∧ c ≤ chr 'f' then some (c.toNat - (chr 'a').toNat + 10)
  else if chr 'A' ≤ c ∧ c ≤ chr 'F' then some (c.toNat - (chr 'A').toNat + 10)
  else none

/-- A text in parts. -/
structure Parts where
  left : List UInt8
  sign : List UInt8
  zeros : List UInt8
  digits : List UInt8
  right : List UInt8

def Parts.text (p : Parts) : List UInt8 := p.left ++ p.sign ++ p.zeros ++ p.digits ++ p.right

/-- The number that sign and digits stand for. -/
def Parts.number (base : Nat) (p : Parts) : Option Int :=
  (read digitValue base (p.zeros ++ p.digits)).map fun (n : Nat) =>
    if p.sign = [chr '-'] then -(n : Int) else n

/-- The zeros that a precision puts in front of so many digits. -/
def leadingZeros (prec : Int32) (digits : Nat) : Nat := (prec.toInt - digits).toNat

/-- The sign or prefix that a value may have. -/
def Specifier.MaySign (cv : Conversion) (v : UInt64) (sign : List UInt8) : Specifier → Prop
  | .signed => sign = if v.toInt64 < 0 then [chr '-'] else []
  | .unsigned => sign = []
  | .hex upper =>
    sign = if cv.altForm then [chr '0', if upper then chr 'X' else chr 'x'] else []
  | .octal => sign = [] ∨ cv.altForm ∧ sign = [chr '0']

/-- The parts that the flags, the width and the precision ask for. -/
structure Layout (k : Specifier) (cv : Conversion) (v : UInt64) (p : Parts) : Prop where
  left : ∀ c ∈ p.left, c = chr ' '
  right : ∀ c ∈ p.right, c = chr ' '
  zeros : ∀ c ∈ p.zeros, c = chr '0'
  digits : p.digits = [chr '0'] ∨ ∃ c cs, p.digits = c :: cs ∧ c ≠ chr '0'
  sign : k.MaySign cv v p.sign
  value : p.number k.base = some (k.value v)
  length : (p.text.length : Int) =
    max cv.width.toInt (p.sign.length + max cv.prec.toInt p.digits.length)
  place :
    if cv.leftAlign then p.left = [] ∧ p.zeros.length = leadingZeros cv.prec p.digits.length
    else if cv.zeroPad ∧ cv.prec < 0 then p.left = [] ∧ p.right = []
    else p.right = [] ∧ p.zeros.length = leadingZeros cv.prec p.digits.length

/-- The text and the count of a conversion. -/
structure IntegerText (k : Specifier) (cv : Conversion) (v : UInt64) (text : List UInt8)
    (count : Int32) : Prop where
  layout : ∃ p : Parts, p.text = text ∧ Layout k cv v p
  octal : k = .octal → cv.altForm → (text.dropWhile (· = chr ' ')).head? = some (chr '0')
  count : count.toInt = text.length

/-! ## When it is so -/

namespace Specifier

/-- The number whose digits are written. -/
def magnitude (v : UInt64) (k : Specifier) : Nat := (k.value v).natAbs

/-- Its digits. -/
def digits (v : UInt64) (k : Specifier) : List UInt8 :=
  Numeral.write (fun d => (hexDigits k.upper).getD d 0) k.base (k.magnitude v)

/-- The length of the sign or prefix. -/
def signLength (cv : Conversion) (v : UInt64) : Specifier → Nat
  | signed => if v.toInt64 < 0 then 1 else 0
  | unsigned => 0
  | hex _ => if cv.altForm then 2 else 0
  | octal => if cv.altForm ∧ v.toNat % 8 ≠ 0 then 1 else 0

/-- What is written without padding is not too long for an `int`. -/
def Fits (cv : Conversion) (v : UInt64) (k : Specifier) : Prop :=
  k.signLength cv v + max cv.prec.toInt (k.digits v).length < 2 ^ 31

/-- An octal number that ends in a zero, with `#` and nothing else that puts a zero in front. -/
def LacksZero (cv : Conversion) (v : UInt64) (k : Specifier) : Prop :=
  k = .octal ∧ cv.altForm = true ∧ v ≠ 0 ∧ v.toNat % 8 = 0 ∧
    cv.prec.toInt ≤ (k.digits v).length ∧
    ¬(cv.leftAlign = false ∧ cv.zeroPad = true ∧ cv.prec < 0 ∧
      (k.digits v).length < cv.width.toInt)

/-! ## The digits -/

variable {cv : Conversion} {v : UInt64} {k : Specifier}

theorem base_mem : k.base = 10 ∨ k.base = 16 ∨ k.base = 8 := by cases k <;> simp [base]

/-- The alphabets are read as they are written. -/
theorem digitValue_hexDigits (upper : Bool) {d : Nat} (hd : d < 16) :
    digitValue ((hexDigits upper).getD d 0) = some d := by
  revert d upper
  decide

theorem digitValue_hexDigit {d : Nat} (hd : d < k.base) :
    digitValue ((hexDigits k.upper).getD d 0) = some d := by
  have hbase := k.base_mem
  exact digitValue_hexDigits _ (by omega)

theorem hexDigits_zero (upper : Bool) : (hexDigits upper).getD 0 0 = chr '0' := by
  cases upper <;> rfl

theorem digitValue_eq_zero {d : Nat} (hd : d < 16) (upper : Bool)
    (h : (hexDigits upper).getD d 0 = chr '0') : d = 0 := by
  have hvalue := digitValue_hexDigits upper hd
  rw [h] at hvalue
  exact (Option.some.inj hvalue).symm

/-- `tmp` holds the digits, the last one first. -/
theorem tmpOf_eq (upper : Bool) {base : Nat} (hbase : 8 ≤ base) (uval : UInt64) :
    tmpOf upper base uval =
      lastFirst (fun d => (hexDigits upper).getD d 0) base uval.toNat := by
  have hloop : ∀ fuel n, tmpDigits (hexDigits upper) base fuel n =
      digitLoop (fun d => (hexDigits upper).getD d 0) base fuel n := by
    intro fuel
    induction fuel with
    | zero => exact fun _ => rfl
    | succ fuel ih =>
        intro n
        rw [tmpDigits, digitLoop, ih]
  -- `tmp` has room for 66 digits, which is more than 64 bits have
  have hlt : uval.toNat < base ^ 66 := calc
    uval.toNat < 2 ^ 64 := uval.toNat_lt
    _ ≤ 8 ^ 66 := by decide
    _ ≤ base ^ 66 := Nat.pow_le_pow_left hbase 66
  rw [lastFirst_eq_loop (by omega) hlt, tmpOf, hloop, hexDigits_zero]
  refine if_congr ?_ rfl rfl
  rw [← UInt64.toNat_inj]
  rfl

theorem toNat_neg_toUInt64 {v : Int64} (h : v < 0) : (-v).toUInt64.toNat = v.toInt.natAbs := by
  have hneg := Int64.lt_iff_toInt_lt.mp h
  have hcond : v.toInt = _ := BitVec.toInt_eq_toNat_cond v.toBitVec
  have hbound := v.toBitVec.isLt
  change v.toInt < 0 at hneg
  change (-v.toBitVec).toNat = _
  rw [BitVec.toNat_neg]
  split at hcond <;> omega

theorem toNat_toUInt64_of_nonneg {v : Int64} (h : ¬v < 0) :
    v.toUInt64.toNat = v.toInt.natAbs := by
  have hneg : ¬v.toInt < 0 := fun hlt => h (Int64.lt_iff_toInt_lt.mpr hlt)
  have hcond : v.toInt = _ := BitVec.toInt_eq_toNat_cond v.toBitVec
  have hbound := v.toBitVec.isLt
  change v.toBitVec.toNat = _
  split at hcond <;> omega

/-- The prefix of a call, and the digits that it has written. -/
def pre (cv : Conversion) (v : UInt64) (k : Specifier) : List UInt8 :=
  prefixOf (k matches .signed) (k matches .signed && decide (k.value v < 0)) (k.alt cv) k.upper
    k.base (k.digits v).reverse

/-- A conversion puts the padded numeral of its magnitude. -/
theorem write_eq (ctx : PrintCtx) (cv : Conversion) (v : UInt64) (k : Specifier) :
    k.write ctx cv v = put (numberText (k.pre cv v) (k.digits v).reverse cv.width cv.prec
      cv.leftAlign cv.zeroPad) (ctx, 0) := by
  have htmp : ∀ (upper : Bool) {base : Nat}, 8 ≤ base → ∀ uval : UInt64, tmpOf upper base uval =
      (Numeral.write (fun d => (hexDigits upper).getD d 0) base uval.toNat).reverse := by
    intro upper base hbase uval
    rw [tmpOf_eq upper hbase, Numeral.write, List.reverse_reverse]
  cases k with
  | signed =>
      have hneg : decide (v.toInt64 < 0) = decide (Specifier.signed.value v < 0) :=
        decide_eq_decide.mpr Int64.lt_iff_toInt_lt
      have hmag : (if v.toInt64 < 0 then (-v.toInt64).toUInt64 else v.toInt64.toUInt64).toNat =
          Specifier.signed.magnitude v := by
        split
        case isTrue h => exact toNat_neg_toUInt64 h
        case isFalse h => exact toNat_toUInt64_of_nonneg h
      unfold write fmtSigned
      dsimp only
      rw [fmtInt_eq, htmp _ (by decide), hmag, hneg]
      rfl
  | unsigned =>
      rw [write, fmtInt_eq, htmp _ (by decide)]
      rfl
  | hex upper =>
      rw [write, fmtInt_eq, htmp _ (by decide)]
      rfl
  | octal =>
      rw [write, fmtInt_eq, htmp _ (by decide)]
      rfl

/-! ## Lengths -/

theorem length_digits_le : (k.digits v).length ≤ 66 := by
  have hmag : k.magnitude v < 2 ^ 64 := by
    have hsigned := v.toInt64.le_toInt
    have hsigned' := v.toInt64.toInt_lt
    have hunsigned := v.toNat_lt
    unfold magnitude value
    split <;> omega
  have hbase := k.base_mem
  have hlt : k.magnitude v < k.base ^ 66 := calc
    k.magnitude v < 2 ^ 64 := hmag
    _ ≤ 8 ^ 66 := by decide
    _ ≤ k.base ^ 66 := Nat.pow_le_pow_left (by omega) 66
  rw [digits, Numeral.write, List.length_reverse]
  exact length_lastFirst_le (by omega) (by decide) hlt

/-- The digit that `tmp` begins with. -/
theorem last_digit : (k.digits v).reverse.headD 0 =
    (hexDigits k.upper).getD (k.magnitude v % k.base) 0 := by
  have hbase := k.base_mem
  rw [digits, Numeral.write, List.reverse_reverse, List.headD_eq_head?_getD,
    lastFirst_head (by omega), Option.getD_some]

theorem pre_octal : pre cv v .octal =
    if cv.altForm ∧ v.toNat % 8 ≠ 0 then [chr '0'] else [] := by
  have hlast : (octal.digits v).reverse.headD 0 = chr '0' ↔ v.toNat % 8 = 0 := by
    rw [last_digit]
    constructor
    · exact digitValue_eq_zero (Nat.lt_trans (Nat.mod_lt _ (by decide)) (by decide)) _
    · intro h
      change (hexDigits false).getD (v.toNat % 8) 0 = _
      rw [h]
      rfl
  have hbne : ((octal.digits v).reverse.headD 0 != chr '0') = decide (v.toNat % 8 ≠ 0) := by
    rw [Bool.eq_iff_iff, bne_iff_ne, decide_eq_true_iff]
    exact not_congr hlast
  unfold pre prefixOf
  rw [hbne]
  cases halt : cv.altForm with
  | false => simp [alt, halt]
  | true => simp [alt, halt, base]

theorem pre_maySign : k.MaySign cv v (k.pre cv v) := by
  cases k with
  | signed =>
      have hneg : v.toInt64 < 0 ↔ signed.value v < 0 := Int64.lt_iff_toInt_lt
      simp [MaySign, pre, prefixOf, alt, hneg]
  | unsigned => simp [MaySign, pre, prefixOf, alt]
  | hex upper => cases upper <;> simp [MaySign, pre, prefixOf, alt, base, Specifier.upper]
  | octal =>
      rw [pre_octal, MaySign]
      split
      case isTrue h => exact .inr ⟨h.1, rfl⟩
      case isFalse => exact .inl rfl

theorem length_pre : (k.pre cv v).length = k.signLength cv v := by
  have hsign : k.MaySign cv v (k.pre cv v) := pre_maySign
  cases k with
  | signed =>
      rw [hsign, signLength]
      split <;> rfl
  | unsigned =>
      rw [hsign]
      rfl
  | hex upper =>
      rw [hsign, signLength]
      split <;> rfl
  | octal =>
      rw [pre_octal, signLength]
      split <;> rfl

end Specifier

section Lengths

variable {pre tmp : List UInt8} {width prec : Int32}

theorem length_times (n : Int32) (c : UInt8) : (times n c).length = n.toInt.toNat :=
  List.length_replicate

/-- The zeros for a precision. The subtraction does not overflow. -/
theorem toInt_extraZeros (htmp : tmp.length ≤ 66) :
    (extraZeros tmp prec).toInt = max 0 (prec.toInt - tmp.length) := by
  have hlen : (Int32.ofNat tmp.length).toInt = tmp.length := Int32.toInt_ofNat_of_lt (by omega)
  have hprec := prec.toInt_lt
  unfold extraZeros
  split
  case isTrue hlt =>
    have hlt' := Int32.lt_iff_toInt_lt.mp hlt
    rw [Int32.toInt_sub, hlen, Int.bmod_eq_of_le (by omega) (by omega)]
    omega
  case isFalse hge =>
    have hge' : ¬(Int32.ofNat tmp.length).toInt < prec.toInt :=
      fun h => hge (Int32.lt_iff_toInt_lt.mpr h)
    rw [Int32.toInt_zero]
    omega

/-- The padding, where what is to be padded fits into an `int`. -/
theorem toInt_padding (htmp : tmp.length ≤ 66)
    (hfits : pre.length + max prec.toInt tmp.length < 2 ^ 31) :
    (padding pre tmp width prec).toInt =
      max 0 (width.toInt - (pre.length + max prec.toInt tmp.length)) := by
  have hzeros : (extraZeros tmp prec).toInt = _ := toInt_extraZeros htmp
  have hpre : (Int32.ofNat pre.length).toInt = pre.length := Int32.toInt_ofNat_of_lt (by omega)
  have hlen : (Int32.ofNat tmp.length).toInt = tmp.length := Int32.toInt_ofNat_of_lt (by omega)
  -- the sum is an `int`, so it must not wrap around
  have hcontent : (Int32.ofNat pre.length + extraZeros tmp prec + Int32.ofNat tmp.length).toInt =
      pre.length + max prec.toInt tmp.length := by
    have hsum : (Int32.ofNat pre.length + extraZeros tmp prec).toInt =
        pre.length + max 0 (prec.toInt - tmp.length) := by
      rw [Int32.toInt_add, hpre, hzeros, Int.bmod_eq_of_le (by omega) (by omega)]
    rw [Int32.toInt_add, hsum, hlen, Int.bmod_eq_of_le (by omega) (by omega)]
    omega
  have hwidth := width.toInt_lt
  rw [padding]
  by_cases hlt : width > Int32.ofNat pre.length + extraZeros tmp prec + Int32.ofNat tmp.length
  · have hlt' := Int32.lt_iff_toInt_lt.mp hlt
    rw [if_pos hlt, Int32.toInt_sub, hcontent, Int.bmod_eq_of_le (by omega) (by omega)]
    omega
  · have hge : ¬(_ : Int) < width.toInt := fun h => hlt (Int32.lt_iff_toInt_lt.mpr h)
    rw [hcontent] at hge
    rw [if_neg hlt, Int32.toInt_zero]
    omega

/-- However wide it is, the text holds the prefix, the zeros and the digits. -/
theorem length_numberText_ge (htmp : tmp.length ≤ 66) (leftAlign zeroPad : Bool) :
    pre.length + max prec.toInt tmp.length ≤
      (numberText pre tmp width prec leftAlign zeroPad).length := by
  have hzeros : (extraZeros tmp prec).toInt = _ := toInt_extraZeros htmp
  unfold numberText
  dsimp only
  split
  · simp only [List.length_append, List.length_reverse, length_times]
    omega
  · split
    · simp only [List.length_append, List.length_reverse, length_times]
      omega
    · simp only [List.length_append, List.length_reverse, length_times]
      omega

end Lengths

/-- The parts of what is written. -/
def partsOf (cv : Conversion) (v : UInt64) (k : Specifier) : Parts :=
  let tmp := (k.digits v).reverse
  let pad := padding (k.pre cv v) tmp cv.width cv.prec
  let blanks := times pad (chr ' ')
  let extra := times (extraZeros tmp cv.prec) (chr '0')
  if cv.leftAlign then ⟨[], k.pre cv v, extra, k.digits v, blanks⟩
  else if cv.zeroPad && cv.prec < 0 then
    ⟨[], k.pre cv v, times pad (chr '0') ++ extra, k.digits v, []⟩
  else ⟨blanks, k.pre cv v, extra, k.digits v, []⟩

section Parts

variable {cv : Conversion} {v : UInt64} {k : Specifier}

theorem text_partsOf : (partsOf cv v k).text = numberText (k.pre cv v) (k.digits v).reverse cv.width
    cv.prec cv.leftAlign cv.zeroPad := by
  unfold partsOf numberText
  cases cv.leftAlign with
  | true => simp [Parts.text]
  | false =>
      cases cv.zeroPad && decide (cv.prec < 0) with
      | true => simp [Parts.text]
      | false => simp [Parts.text]

theorem sign_partsOf : (partsOf cv v k).sign = k.pre cv v := by
  unfold partsOf
  dsimp only
  split
  · rfl
  · split <;> rfl

theorem digits_partsOf : (partsOf cv v k).digits = k.digits v := by
  unfold partsOf
  dsimp only
  split
  · rfl
  · split <;> rfl

theorem mem_times {n : Int32} {c d : UInt8} (h : d ∈ times n c) : d = c :=
  List.eq_of_mem_replicate h

theorem zeros_partsOf (cv : Conversion) (v : UInt64) (k : Specifier) :
    ∃ n, (partsOf cv v k).zeros = List.replicate n (chr '0') := by
  unfold partsOf
  dsimp only
  split
  · exact ⟨_, rfl⟩
  · split
    · exact ⟨_, List.replicate_append_replicate⟩
    · exact ⟨_, rfl⟩

/-- A numeral begins with a zero only if it is that of zero. -/
theorem digits_head : k.digits v = [chr '0'] ∧ k.magnitude v = 0 ∨
    ∃ c cs, k.digits v = c :: cs ∧ c ≠ chr '0' ∧ c ≠ chr ' ' := by
  have hbase := k.base_mem
  by_cases hzero : k.magnitude v = 0
  · left
    rw [Specifier.digits, write, lastFirst, if_pos hzero, Specifier.hexDigits_zero]
    exact ⟨rfl, hzero⟩
  · right
    have hwrite : ∃ d, 0 < d ∧ d < k.base ∧
        (k.digits v).head? = some ((hexDigits k.upper).getD d 0) :=
      write_head (by omega : 1 < k.base) hzero
    rcases hwrite with ⟨d, hpos, hd, hhead⟩
    rcases List.head?_eq_some_iff.mp hhead with ⟨cs, hcs⟩
    refine ⟨_, cs, hcs, fun hc => ?_, fun hc => ?_⟩
    · have := Specifier.digitValue_eq_zero (by omega) _ hc
      omega
    · have hvalue := Specifier.digitValue_hexDigit hd
      rw [hc] at hvalue
      cases hvalue

/-- Sign and digits give the value back. -/
theorem number_partsOf : (partsOf cv v k).number k.base = some (k.value v) := by
  have hbase := k.base_mem
  have hzero : digitValue (chr '0') = some 0 := rfl
  rcases zeros_partsOf cv v k with ⟨n, hzeros⟩
  have hread : read digitValue k.base ((partsOf cv v k).zeros ++ (partsOf cv v k).digits) =
      some (k.magnitude v) := by
    rw [hzeros, digits_partsOf, read_zeros (by omega) hzero, Specifier.digits]
    exact read_write (by omega) (fun d hd => Specifier.digitValue_hexDigit hd) _
  rw [Parts.number, hread, sign_partsOf, Option.map_some, Specifier.magnitude]
  refine congrArg some ?_
  have hsign : k.MaySign cv v (k.pre cv v) := Specifier.pre_maySign
  -- only a signed number can have a minus sign; the other prefixes are no part of the number
  cases k with
  | signed =>
      have hneg : v.toInt64 < 0 ↔ Specifier.signed.value v < 0 := Int64.lt_iff_toInt_lt
      rw [hsign]
      by_cases h : v.toInt64 < 0
      · have hlt := hneg.mp h
        rw [if_pos h, if_pos rfl]
        omega
      · have hge := mt hneg.mpr h
        rw [if_neg h, if_neg (by decide)]
        omega
  | unsigned =>
      rw [hsign]
      rfl
  | hex upper =>
      rw [hsign]
      split <;> rfl
  | octal =>
      have hne : Specifier.octal.pre cv v ≠ [chr '-'] := by
        rcases hsign with h | ⟨-, h⟩ <;> rw [h] <;> decide
      rw [if_neg hne]
      rfl

theorem left_partsOf : ∀ c ∈ (partsOf cv v k).left, c = chr ' ' := by
  intro c
  unfold partsOf
  dsimp only
  split
  · exact fun h => nomatch h
  · split
    · exact fun h => nomatch h
    · exact mem_times

/-- The parts are those that are asked for, if they fit. -/
theorem layout_partsOf (hfits : k.Fits cv v) : Layout k cv v (partsOf cv v k) := by
  have hlen := Specifier.length_digits_le (v := v) (k := k)
  rw [Specifier.Fits, ← Specifier.length_pre] at hfits
  have hrev : (k.digits v).reverse.length = (k.digits v).length := List.length_reverse
  have hzeros : (extraZeros (k.digits v).reverse cv.prec).toInt = _ :=
    toInt_extraZeros (hrev.trans_le hlen)
  have hpad : (padding (k.pre cv v) (k.digits v).reverse cv.width cv.prec).toInt = _ :=
    toInt_padding (hrev.trans_le hlen) (by rwa [hrev])
  rw [hrev] at hzeros hpad
  -- no length wraps, so that the parts add up to the width
  refine ⟨left_partsOf, ?_, ?_, ?_, ?_, number_partsOf, ?_, ?_⟩
  · intro c
    unfold partsOf
    dsimp only
    split
    · exact mem_times
    · split <;> exact fun h => nomatch h
  · intro c hc
    rcases zeros_partsOf cv v k with ⟨n, hn⟩
    rw [hn] at hc
    exact List.eq_of_mem_replicate hc
  · rw [digits_partsOf]
    exact digits_head.imp And.left fun ⟨c, cs, hdigits, hc, _⟩ => ⟨c, cs, hdigits, hc⟩
  · rw [sign_partsOf]
    exact Specifier.pre_maySign
  · rw [text_partsOf, sign_partsOf, digits_partsOf]
    unfold numberText
    dsimp only
    split
    · simp only [List.length_append, List.length_reverse, length_times, hzeros, hpad]
      omega
    · split
      · simp only [List.length_append, List.length_reverse, length_times, hzeros, hpad]
        omega
      · simp only [List.length_append, List.length_reverse, length_times, hzeros, hpad]
        omega
  · have hextra : (times (extraZeros (k.digits v).reverse cv.prec) (chr '0')).length =
        leadingZeros cv.prec (k.digits v).length := by
      rw [length_times, hzeros, leadingZeros]
      omega
    rw [digits_partsOf]
    unfold partsOf
    dsimp only
    split
    case isTrue => exact ⟨rfl, hextra⟩
    case isFalse =>
      -- zero padding is in force only without a precision
      by_cases hzero : cv.zeroPad = true ∧ cv.prec < 0
      · have hpadded : (cv.zeroPad && decide (cv.prec < 0)) = true := by simpa using hzero
        rw [if_pos hzero, if_pos hpadded]
        exact ⟨rfl, rfl⟩
      · have hpadded : ¬(cv.zeroPad && decide (cv.prec < 0)) = true := by simpa using hzero
        rw [if_neg hzero, if_neg hpadded]
        exact ⟨rfl, hextra⟩

/-! ## Octal numbers -/

/-- Behind the blanks the text begins with what comes first of sign, zeros and digits. -/
theorem head_text {p : Parts} (hleft : ∀ c ∈ p.left, c = chr ' ') {c : UInt8} {cs : List UInt8}
    (hcore : p.sign ++ p.zeros ++ p.digits = c :: cs) (hc : c ≠ chr ' ') :
    (p.text.dropWhile (· = chr ' ')).head? = some c := by
  have htext : p.text = p.left ++ (c :: (cs ++ p.right)) := by
    rw [Parts.text, List.append_assoc p.left, List.append_assoc p.left, hcore, List.append_assoc]
    rfl
  have hblanks : ∀ d ∈ p.left, decide (d = chr ' ') = true := by simpa using hleft
  rw [htext, List.dropWhile_append_of_pos hblanks, List.dropWhile_cons_of_neg (by simpa using hc)]
  rfl

/-- How many zeros there are before the digits. -/
theorem Layout.length_zeros {p : Parts} (h : Layout k cv v p) : p.zeros.length =
    if cv.leftAlign = false ∧ cv.zeroPad = true ∧ cv.prec < 0 then
      (cv.width.toInt - (p.sign.length + p.digits.length)).toNat
    else leadingZeros cv.prec p.digits.length := by
  have hplace := h.place
  by_cases hleft : cv.leftAlign = true
  · rw [if_pos hleft] at hplace
    rw [if_neg fun hzero => absurd hleft (by simp [hzero.1])]
    exact hplace.2
  rw [if_neg hleft] at hplace
  by_cases hzero : cv.zeroPad = true ∧ cv.prec < 0
  · rw [if_pos hzero] at hplace
    rw [if_pos ⟨by simpa using hleft, hzero⟩]
    have hneg := Int32.lt_iff_toInt_lt.mp hzero.2
    rw [Int32.toInt_zero] at hneg
    have hlength := h.length
    simp only [Parts.text, hplace.1, hplace.2, List.length_append, List.length_nil] at hlength
    omega
  · rw [if_neg hzero] at hplace
    rw [if_neg fun hpad => hzero hpad.2]
    exact hplace.2

/-- The digits of an octal number begin with a zero. -/
theorem octal_starts_iff (hfits : Specifier.octal.Fits cv v) (halt : cv.altForm = true) :
    ((partsOf cv v .octal).text.dropWhile (· = chr ' ')).head? = some (chr '0') ↔
      ¬Specifier.octal.LacksZero cv v := by
  have hlayout := layout_partsOf hfits
  have hcount := hlayout.length_zeros
  rw [sign_partsOf, digits_partsOf, Specifier.pre_octal] at hcount
  have hstart : ∀ {c cs}, (if cv.altForm ∧ v.toNat % 8 ≠ 0 then [chr '0'] else []) ++
      (partsOf cv v .octal).zeros ++ Specifier.octal.digits v = c :: cs → c ≠ chr ' ' →
      ((partsOf cv v .octal).text.dropWhile (· = chr ' ')).head? = some c := by
    intro c cs hcore
    rw [← Specifier.pre_octal, ← sign_partsOf, ← digits_partsOf] at hcore
    exact head_text hlayout.left hcore
  have hblank : chr '0' ≠ chr ' ' := by decide
  -- the formatter looks at the last digit: if that is not 0, it writes a zero before the digits
  by_cases hlast : v.toNat % 8 = 0
  swap
  · rw [if_pos ⟨halt, hlast⟩] at hstart
    exact iff_of_true (hstart rfl hblank) fun h => hlast h.2.2.2.1
  have hpre : (if cv.altForm ∧ v.toNat % 8 ≠ 0 then [chr '0'] else []) = [] :=
    if_neg fun h => h.2 hlast
  -- it writes none here, and a zero may still come from the precision or the width
  rw [hpre] at hcount hstart
  rcases zeros_partsOf cv v .octal with ⟨n, hn⟩
  rw [hn] at hcount hstart
  rw [List.length_replicate, List.length_nil] at hcount
  cases n with
  | succ n =>
      refine iff_of_true (hstart rfl hblank) fun h => ?_
      rcases h with ⟨-, -, -, -, hprec, hpad⟩
      split at hcount
      case isTrue hzero => exact hpad ⟨hzero.1, hzero.2.1, hzero.2.2, by omega⟩
      case isFalse =>
        unfold leadingZeros at hcount
        omega
  | zero =>
      -- no zero comes from the precision or the width, so the first digit decides
      rcases digits_head (v := v) (k := .octal) with ⟨hdigits, hmag⟩ | ⟨c, cs, hdigits, hc, hc'⟩
      · rw [hdigits] at hstart
        refine iff_of_true (hstart rfl hblank) fun h => h.2.2.1 ?_
        exact UInt64.toNat_inj.mp (by simpa [Specifier.magnitude, Specifier.value] using hmag)
      · have hne : v ≠ 0 := by
          rintro rfl
          have hzero : Specifier.octal.digits 0 = [chr '0'] := by decide
          rw [hzero] at hdigits
          exact hc (List.cons.inj hdigits).1.symm
        refine iff_of_false ?_ (not_not.mpr ⟨rfl, halt, hne, hlast, ?_⟩)
        · rw [hdigits] at hstart
          rw [hstart rfl hc']
          exact fun h => hc (Option.some.inj h)
        · split at hcount
          case isTrue hzero =>
            have hneg := Int32.lt_iff_toInt_lt.mp hzero.2.2
            rw [Int32.toInt_zero] at hneg
            exact ⟨by omega, fun h => absurd h.2.2.2 (by omega)⟩
          case isFalse hzero =>
            unfold leadingZeros at hcount
            exact ⟨by omega, fun h => hzero ⟨h.1, h.2.1, h.2.2.1⟩⟩

end Parts

/-- The text of an integer says its value and is as long as the flags, the width and the
precision ask for, exactly if it fits into an `int` without its padding and does not lack the
zero of an octal number. -/
theorem integer_text_iff (k : Specifier) (cv : Conversion) (v : UInt64) :
    ∃ text count, (∀ ctx, k.write ctx cv v = (text.foldl ctxPutchar ctx, count)) ∧
      (IntegerText k cv v text count ↔ k.Fits cv v ∧ ¬k.LacksZero cv v) := by
  have hlen := Specifier.length_digits_le (v := v) (k := k)
  have hrev : (k.digits v).reverse.length = (k.digits v).length := List.length_reverse
  have htext : (partsOf cv v k).text = _ := text_partsOf
  refine ⟨(partsOf cv v k).text, Int32.ofNat (partsOf cv v k).text.length, fun ctx => ?_, ?_, ?_⟩
  · rw [Specifier.write_eq, put_eq, htext, Int32.zero_add]
  · intro h
    have hcount := h.count
    have hlt := (Int32.ofNat (partsOf cv v k).text.length).toInt_lt
    have hge : (k.pre cv v).length + max cv.prec.toInt (k.digits v).reverse.length ≤
        (numberText (k.pre cv v) (k.digits v).reverse cv.width cv.prec cv.leftAlign
          cv.zeroPad).length := length_numberText_ge (hrev.trans_le hlen) _ _
    rw [← htext, hrev, Specifier.length_pre] at hge
    have hfits : k.Fits cv v := by
      unfold Specifier.Fits
      omega
    refine ⟨hfits, fun hlacks => ?_⟩
    rcases hlacks with ⟨rfl, halt, hrest⟩
    exact (octal_starts_iff hfits halt).mp (h.octal rfl halt) ⟨rfl, halt, hrest⟩
  · rintro ⟨hfits, hlacks⟩
    have hlayout := layout_partsOf hfits
    refine ⟨⟨_, rfl, hlayout⟩, ?_, ?_⟩
    · rintro rfl halt
      exact (octal_starts_iff hfits halt).mpr hlacks
    · have hwidth := cv.width.toInt_lt
      have hlength := hlayout.length
      rw [sign_partsOf, digits_partsOf, Specifier.length_pre] at hlength
      rw [Specifier.Fits] at hfits
      exact Int32.toInt_ofNat_of_lt (by omega)

/-- Eight, with `#`. -/
theorem octal_lacks_zero :
    (Specifier.octal.write toDevices { altForm := true } 8).1.devices = "10".toList.map chr ∧
      ¬IntegerText .octal { altForm := true } 8 ("10".toList.map chr) 2 := by
  refine ⟨by decide, fun h => ?_⟩
  have hzero := h.octal rfl rfl
  revert hzero
  decide

end PolandOS.Printf
