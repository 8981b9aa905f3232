import PolandOS.Text.Integers

/-! # Decimal numbers

`utoa` and `itoa` of `kernel/lib/string.c` and `serial_write_dec` of
`kernel/drivers/serial.c`, beside `%lld`.

* `decimal_printers_agree`: they write the same numeral, and it can be read back
-/

namespace PolandOS.Printf

open Numeral ByteMem

/-! ## The printers -/

/-- The loop of `utoa`, with `digits_lower`. -/
def utoaDigits (base : Nat) : Nat → Nat → List UInt8
  | 0, _ => []
  | fuel + 1, val =>
    if val > 0 then (hexDigits false).getD (val % base) 0 :: utoaDigits base fuel (val / base)
    else []

/-- `utoa`: the string in `buf`. -/
def utoa (val : UInt64) (base : Nat) : List UInt8 :=
  if val = 0 then [chr '0'] else (utoaDigits base 65 val.toNat).reverse

/-- `itoa`. -/
def itoa (val : Int64) (base : Nat) : List UInt8 :=
  if base = 10 ∧ val < 0 then chr '-' :: utoa (-val).toUInt64 base else utoa val.toUInt64 base

/-- The loop of `serial_write_dec`. -/
def serialDigits : Nat → UInt64 → List UInt8
  | 0, _ => []
  | fuel + 1, v =>
    if v > 0 then (chr '0' + (v % 10).toUInt8) :: serialDigits fuel (v / 10) else []

/-- `serial_write_dec`: the characters that are sent. `-v` is taken modulo 2^64; C has no
negative value for it, and as compiled the loop takes it for the magnitude. -/
def serialWriteDec (v : Int64) : List UInt8 :=
  let sign := if v < 0 then [chr '-'] else []
  let magnitude := if v < 0 then (-v).toUInt64 else v.toUInt64
  let buf := if magnitude = 0 then [chr '0'] else serialDigits 32 magnitude
  sign ++ buf.reverse

/-- `"%lld"`. -/
def lldFormat : CString := ⟨"%lld".toList.map chr, by decide⟩

/-! ## The numeral -/

/-- The character of a decimal digit. -/
def decimalDigit (d : Nat) : UInt8 := chr '0' + d.toUInt8

/-- The canonical numeral of a number. -/
def decimal (v : Int) : List UInt8 :=
  (if v < 0 then [chr '-'] else []) ++ write decimalDigit 10 v.natAbs

/-- The number that a numeral stands for. -/
def readDecimal (cs : List UInt8) : Option Int :=
  if cs.head? = some (chr '-') then (read digitValue 10 cs.tail).map fun (n : Nat) => -(n : Int)
  else (read digitValue 10 cs).map fun (n : Nat) => (n : Int)

theorem digitValue_decimalDigit {d : Nat} (hd : d < 10) : digitValue (decimalDigit d) = some d := by
  revert d
  decide

theorem hexDigits_decimalDigit {d : Nat} (hd : d < 10) :
    (hexDigits false).getD d 0 = decimalDigit d := by
  revert d
  decide

/-- Two alphabets with the same digits write the same numerals. -/
theorem write_hexDigits (n : Nat) :
    write (fun d => (hexDigits false).getD d 0) 10 n = write decimalDigit 10 n := by
  unfold write lastFirst
  split
  · rfl
  · refine congrArg List.reverse (List.map_congr_left fun d hd => ?_)
    exact hexDigits_decimalDigit (Nat.digits_lt_base (by decide) hd)

/-- The first character of a numeral. -/
theorem write_decimal_head {n : Nat} (hn : n ≠ 0) :
    ∃ c cs, write decimalDigit 10 n = c :: cs ∧ c ≠ chr '0' ∧ c ≠ chr '-' := by
  rcases write_head (by decide : 1 < 10) hn with ⟨d, hpos, hd, hhead⟩
  rcases List.head?_eq_some_iff.mp hhead with ⟨cs, hcs⟩
  have hdigit : ∀ d < 10, 0 < d → decimalDigit d ≠ chr '0' ∧ decimalDigit d ≠ chr '-' := by decide
  exact ⟨_, cs, hcs, (hdigit d hd hpos).1, (hdigit d hd hpos).2⟩

/-- No numeral but `0` begins with a zero. -/
theorem decimal_canonical (v : Int) :
    ((decimal v).dropWhile (· = chr '-')).head? = some (chr '0') → decimal v = [chr '0'] := by
  by_cases hzero : v = 0
  · intro
    rw [hzero]
    rfl
  · intro hhead
    rcases write_decimal_head (Int.natAbs_ne_zero.mpr hzero) with ⟨c, cs, hcs, hc, hminus⟩
    have hdrop : (decimal v).dropWhile (· = chr '-') = c :: cs := by
      unfold decimal
      rw [hcs]
      split
      · rw [List.singleton_append, List.dropWhile_cons_of_pos (by simp),
          List.dropWhile_cons_of_neg (by simpa using hminus)]
      · rw [List.nil_append, List.dropWhile_cons_of_neg (by simpa using hminus)]
    rw [hdrop, List.head?_cons] at hhead
    exact absurd (Option.some.inj hhead) hc

theorem readDecimal_decimal (v : Int) : readDecimal (decimal v) = some v := by
  have hread := read_write (by decide : 1 < 10) (fun d hd => digitValue_decimalDigit hd) v.natAbs
  unfold decimal
  by_cases hv : v < 0
  · have habs : -(v.natAbs : Int) = v := by omega
    rw [if_pos hv, readDecimal, List.singleton_append, if_pos List.head?_cons, List.tail_cons,
      hread, Option.map_some, habs]
  · have habs : (v.natAbs : Int) = v := by omega
    have hminus : (write decimalDigit 10 v.natAbs).head? ≠ some (chr '-') := by
      by_cases hzero : v.natAbs = 0
      · rw [hzero]
        decide
      · rcases write_decimal_head hzero with ⟨c, cs, hcs, -, hc⟩
        rw [hcs, List.head?_cons]
        exact fun h => hc (Option.some.inj h)
    rw [if_neg hv, List.nil_append, readDecimal, if_neg hminus, hread, Option.map_some, habs]

/-! ## The loops -/

theorem utoa_eq (val : UInt64) : utoa val 10 = write decimalDigit 10 val.toNat := by
  have hloop : ∀ fuel n, utoaDigits 10 fuel n =
      digitLoop (fun d => (hexDigits false).getD d 0) 10 fuel n := by
    intro fuel
    induction fuel with
    | zero => exact fun _ => rfl
    | succ fuel ih =>
        intro n
        rw [utoaDigits, digitLoop, ih]
  have hlt : val.toNat < 10 ^ 65 := calc
    val.toNat < 2 ^ 64 := val.toNat_lt
    _ ≤ 10 ^ 65 := by decide
  -- 64 bits have fewer than 65 digits, so the fuel of the loop suffices
  rw [← write_hexDigits, write, lastFirst_eq_loop (by decide) hlt, utoa, hloop]
  have hzero : val = 0 ↔ val.toNat = 0 := by
    rw [← UInt64.toNat_inj]
    rfl
  by_cases h : val = 0
  · rw [if_pos h, if_pos (hzero.mp h)]
    rfl
  · rw [if_neg h, if_neg (mt hzero.mpr h)]

theorem itoa_eq (v : Int64) : itoa v 10 = decimal v.toInt := by
  have hneg : v < 0 ↔ v.toInt < 0 := Int64.lt_iff_toInt_lt
  unfold itoa decimal
  by_cases h : v < 0
  · rw [if_pos ⟨rfl, h⟩, if_pos (hneg.mp h), utoa_eq, Specifier.toNat_neg_toUInt64 h]
    rfl
  · rw [if_neg fun hmin => h hmin.2, if_neg (mt hneg.mpr h), utoa_eq,
      Specifier.toNat_toUInt64_of_nonneg h]
    rfl

theorem serialDigits_eq (fuel : Nat) (v : UInt64) :
    serialDigits fuel v = digitLoop decimalDigit 10 fuel v.toNat := by
  induction fuel generalizing v with
  | zero => rfl
  | succ fuel ih =>
      have hpos : v > 0 ↔ v.toNat > 0 := UInt64.lt_iff_toNat_lt
      have hdigit : (v % 10).toUInt8 = (v.toNat % 10).toUInt8 := by
        rw [← UInt8.toNat_inj, UInt64.toNat_toUInt8, UInt64.toNat_mod, Nat.toUInt8,
          UInt8.toNat_ofNat']
        rfl
      rw [serialDigits, digitLoop, ih, UInt64.toNat_div, hdigit]
      exact if_congr hpos rfl rfl

theorem serialWriteDec_eq (v : Int64) : serialWriteDec v = decimal v.toInt := by
  have hneg : v < 0 ↔ v.toInt < 0 := Int64.lt_iff_toInt_lt
  have hmag : (if v < 0 then (-v).toUInt64 else v.toUInt64).toNat = v.toInt.natAbs := by
    split
    case isTrue h => exact Specifier.toNat_neg_toUInt64 h
    case isFalse h => exact Specifier.toNat_toUInt64_of_nonneg h
  have hzero : (if v < 0 then (-v).toUInt64 else v.toUInt64) = 0 ↔ v.toInt.natAbs = 0 := by
    rw [← UInt64.toNat_inj, hmag]
    rfl
  -- 32 characters are room enough for the digits
  have hlt : v.toInt.natAbs < 10 ^ 32 := by
    have := v.le_toInt
    have := v.toInt_lt
    omega
  unfold serialWriteDec decimal
  dsimp only
  rw [serialDigits_eq, hmag, write, lastFirst_eq_loop (by decide) hlt]
  exact congrArg₂ _ (if_congr hneg rfl rfl) (congrArg List.reverse (if_congr hzero rfl rfl))

/-! ## The formatter -/

/-- Where no width and no precision are given, only prefix and digits are written. -/
theorem numberText_plain {pre tmp : List UInt8} (hpre : pre.length ≤ 1) (htmp : tmp.length ≤ 66) :
    numberText pre tmp 0 (-1) false false = pre ++ tmp.reverse := by
  -- without width and precision there is no padding of either kind
  have hprec : (-1 : Int32).toInt = -1 := rfl
  have hextra : (extraZeros tmp (-1)).toInt = max 0 ((-1 : Int32).toInt - tmp.length) :=
    toInt_extraZeros htmp
  have hpad : (padding pre tmp 0 (-1)).toInt =
      max 0 ((0 : Int32).toInt - (pre.length + max (-1 : Int32).toInt tmp.length)) :=
    toInt_padding htmp (by omega)
  have hnone : ∀ {n : Int32} {c : UInt8}, n.toInt = 0 → times n c = [] := fun {n c} hn =>
    List.length_eq_zero_iff.mp (by rw [length_times, hn, Int.toNat_zero])
  have hzero : (0 : Int32).toInt = 0 := rfl
  unfold numberText
  dsimp only
  rw [hnone (n := padding pre tmp 0 (-1)) (by omega), hnone (n := extraZeros tmp (-1)) (by omega)]
  rfl

/-- `%d` and `%lld` write the numeral. -/
theorem fmtSigned_plain (ctx : PrintCtx) (long : Bool) (v : Int64) :
    fmtSigned ctx { isLongLong := long } v = put (decimal v.toInt) (ctx, 0) := by
  let cv : Conversion := { isLongLong := long }
  have hneg : v < 0 ↔ v.toInt < 0 := Int64.lt_iff_toInt_lt
  have hpre : Specifier.signed.pre cv v.toUInt64 = if v.toInt < 0 then [chr '-'] else [] := by
    have hsign : Specifier.signed.MaySign cv v.toUInt64 _ := Specifier.pre_maySign
    rw [Specifier.MaySign, Int64.toInt64_toUInt64] at hsign
    exact hsign.trans (if_congr hneg rfl rfl)
  have hdigits : Specifier.signed.digits v.toUInt64 = write decimalDigit 10 v.toInt.natAbs := by
    have hmag : Specifier.signed.magnitude v.toUInt64 = v.toInt.natAbs := by
      rw [Specifier.magnitude, Specifier.value, Int64.toInt64_toUInt64]
    rw [Specifier.digits, hmag]
    exact write_hexDigits _
  have hlen := Specifier.length_digits_le (v := v.toUInt64) (k := .signed)
  have hwrite := Specifier.write_eq ctx cv v.toUInt64 .signed
  rw [Specifier.write, Int64.toInt64_toUInt64] at hwrite
  rw [hwrite, hpre, numberText_plain _ (by rwa [List.length_reverse]), List.reverse_reverse,
    hdigits]
  · rfl
  · split <;> decide

/-- `%lld` prints the decimal numeral. -/
theorem kprintf_lld (stringAt : UInt64 → CString) {fuel : Nat} (hfuel : 2 ≤ fuel) (mem : Mem)
    {ap : VaList} {v : Int64} (hap : ap 0 = v.toUInt64) :
    ∃ count, kvprintf stringAt fuel mem lldFormat ap = .ok (decimal v.toInt, count) := by
  rcases Nat.exists_eq_add_of_le' hfuel with ⟨fuel, rfl⟩
  have hloop : ∀ ctx, vfmtLoop stringAt (fuel + 2) ctx 0 ap lldFormat.chars =
      .ok (put (decimal v.toInt) (ctx, 0)) := by
    intro ctx
    have hparse : parseConversion ap ("lld".toList.map chr) =
        ({ isLongLong := true }, ap, [chr 'd']) := rfl
    have hconvert : convert stringAt ctx { isLongLong := true } ap (chr 'd') =
        (put (decimal v.toInt) (ctx, 0), ap.next) := by
      have harg : vaSigned { isLongLong := true } ap = v := by
        change (ap 0).toInt64 = v
        rw [hap, Int64.toInt64_toUInt64]
      rw [← fmtSigned_plain, ← harg]
      rfl
    change vfmtLoop stringAt (fuel + 2) ctx 0 ap (chr '%' :: "lld".toList.map chr) = _
    rw [vfmtLoop, if_neg (not_not.mpr rfl)]
    dsimp only
    rw [hparse]
    dsimp only
    rw [hconvert]
    dsimp only
    rw [Int32.zero_add]
    rfl
  exact ⟨_, kvprintf_text hloop mem⟩

/-- A round of the formatter on `%d`. -/
theorem vfmtLoop_d (stringAt : UInt64 → CString) (fuel : Nat) (r : PrintCtx × Int32) (ap : VaList)
    (fmt : List UInt8) : vfmtLoop stringAt (fuel + 1) r.1 r.2 ap (chr '%' :: chr 'd' :: fmt) =
      vfmtLoop stringAt fuel (put (decimal (vaInt ap).toInt) r).1
        (put (decimal (vaInt ap).toInt) r).2 ap.next fmt := by
  rcases r with ⟨ctx, total⟩
  have hparse : parseConversion ap (chr 'd' :: fmt) = ({}, ap, chr 'd' :: fmt) := rfl
  have hconvert : convert stringAt ctx {} ap (chr 'd') =
      (put (decimal (vaInt ap).toInt) (ctx, 0), ap.next) := by
    have harg : (vaInt ap).toInt64.toInt = (vaInt ap).toInt := Int32.toInt_toInt64 _
    rw [← harg, ← fmtSigned_plain ctx false]
    rfl
  rw [vfmtLoop, if_neg (not_not.mpr rfl)]
  dsimp only
  rw [hparse]
  dsimp only
  rw [hconvert]
  dsimp only
  exact congrArg (fun r => vfmtLoop stringAt fuel r.1 r.2 ap.next fmt) put_count.symm

/-- A round of the formatter on any other character. -/
theorem vfmtLoop_char (stringAt : UInt64 → CString) (fuel : Nat) (r : PrintCtx × Int32)
    (ap : VaList) {c : UInt8} (hc : c ≠ chr '%') (fmt : List UInt8) :
    vfmtLoop stringAt (fuel + 1) r.1 r.2 ap (c :: fmt) =
      vfmtLoop stringAt fuel (put [c] r).1 (put [c] r).2 ap fmt := by
  rw [vfmtLoop, if_pos hc]
  rfl

/-! ## The printers agree -/

/-- The three printers write the canonical numeral of a value. -/
structure PrintersAgree (v : Int64) : Prop where
  itoa : itoa v 10 = decimal v.toInt
  kprintf : ∀ stringAt fuel mem ap, 2 ≤ fuel → ap 0 = v.toUInt64 →
    ∃ count, kvprintf stringAt fuel mem lldFormat ap = .ok (decimal v.toInt, count)
  serial : serialWriteDec v = decimal v.toInt
  canonical : ((decimal v.toInt).dropWhile (· = chr '-')).head? = some (chr '0') →
    decimal v.toInt = [chr '0']
  read : readDecimal (decimal v.toInt) = some v.toInt

/-- The three printers write the same numeral for every number. -/
theorem decimal_printers_agree (v : Int64) : PrintersAgree v where
  itoa := itoa_eq v
  kprintf stringAt _ mem _ hfuel hap := kprintf_lld stringAt hfuel mem hap
  serial := serialWriteDec_eq v
  canonical := decimal_canonical _
  read := readDecimal_decimal _

/-- The least of all numbers, whose negation is itself. -/
theorem decimal_printers_agree_least :
    itoa Int64.minValue 10 = serialWriteDec Int64.minValue ∧
      ∃ count, kvprintf (fun _ => lldFormat) 2 (fun _ => 0) lldFormat
        (fun _ => Int64.minValue.toUInt64) = .ok (serialWriteDec Int64.minValue, count) := by
  have h := decimal_printers_agree Int64.minValue
  refine ⟨h.itoa.trans h.serial.symm, ?_⟩
  rw [h.serial]
  exact h.kprintf (fun _ => lldFormat) 2 (fun _ => 0) _ (by decide) rfl

end PolandOS.Printf
