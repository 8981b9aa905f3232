import Mathlib.Data.List.TakeWhile
import PolandOS.Lib.MemString
import PolandOS.Net.Bytes
import PolandOS.Text.Decimal

/-! # Addresses as text

`ip_to_str` and `str_to_ip` of `kernel/net/ethernet.c`. What is written is read back;
`addresses_iff`: but `str_to_ip` takes other strings for an address, too.
-/

namespace PolandOS.Net

open Numeral ByteMem Printf

/-! ## Printing -/

/-- `"%d.%d.%d.%d"`. -/
def quadFormat : CString := ⟨"%d.%d.%d.%d".toList.map chr, by decide⟩

/-- `b[0], b[1], b[2], b[3]`. -/
def octetArgs (ip : UInt32) : VaList := fun i => ((u32Bytes ip).getD i 0).toUInt64

/-- `ip_to_str`. -/
def ipToStr (stringAt : UInt64 → CString) (fuel : Nat) (mem : Mem) (buf : Nat) (ip : UInt32) :
    Except FmtStop (Mem × Int32) :=
  kvsnprintf stringAt fuel mem buf 16 quadFormat (octetArgs ip)

/-! ## Reading -/

/-- `while (*s >= '0' && *s <= '9')`: `octet`, and `s` behind the digits. -/
def readOctet (octet : UInt32) : List UInt8 → UInt32 × List UInt8
  | [] => (octet, [])
  | c :: s =>
    if isDigit c then readOctet (octet * 10 + (c - chr '0').toUInt32) s else (octet, c :: s)

/-- `if (*s == '.') s++;` -/
def skipDot (s : List UInt8) : List UInt8 := if s.headD 0 = chr '.' then s.tail else s

/-- The bytes that the loop of `str_to_ip` stores, in so many rounds. -/
def readOctets : Nat → List UInt8 → List UInt8
  | 0, _ => []
  | n + 1, s => (readOctet 0 s).1.toUInt8 :: readOctets n (skipDot (readOctet 0 s).2)

/-- `str_to_ip`. -/
def strToIp (s : List UInt8) : UInt32 :=
  let b := readOctets 4 s
  load32 (b.getD 0 0) (b.getD 1 0) (b.getD 2 0) (b.getD 3 0)

/-! ## Dotted quads -/

/-- A decimal number: digits, and at least one. -/
def IsNumber (w : List UInt8) (n : Nat) : Prop := w ≠ [] ∧ read digitValue 10 w = some n

/-- Four decimal numbers of at most 255, with single dots between them. -/
def DottedQuad (s octets : List UInt8) : Prop :=
  ∃ ws, ws.length = 4 ∧ s = [chr '.'].intercalate ws ∧
    List.Forall₂ (fun w (octet : UInt8) => IsNumber w octet.toNat) ws octets

/-- The runs of digits, each with a dot behind it that is skipped. -/
def fields : Nat → List UInt8 → List (List UInt8)
  | 0, _ => []
  | n + 1, s => s.takeWhile isDigit :: fields n (skipDot (s.dropWhile isDigit))

/-- The number that digits stand for; without digits it is 0. -/
def number (w : List UInt8) : Nat := (read digitValue 10 w).getD 0

/-! ## Digits -/

variable {s w rest octets : List UInt8} {c : UInt8} {n : Nat}

theorem digitValue_of_isDigit (hc : isDigit c) : digitValue c = some (c - chr '0').toNat ∧
    (c - chr '0').toNat < 10 := by
  have hrange : chr '0' ≤ c ∧ c ≤ chr '9' := by
    simpa only [isDigit, Bool.and_eq_true, decide_eq_true_eq] using hc
  have hlo : 48 ≤ c.toNat := hrange.1
  have hhi : c.toNat ≤ 57 := hrange.2
  have hsub : (c - chr '0').toNat = c.toNat - 48 := UInt8.toNat_sub_of_le _ _ hrange.1
  rw [digitValue, if_pos hc, hsub]
  exact ⟨rfl, by omega⟩

/-- What a digit does to the number. -/
theorem number_digits (hw : ∀ c ∈ w, isDigit c) (n : Nat) :
    w.foldl (Numeral.shift digitValue 10) (some n) =
      some (w.foldl (fun n c => n * 10 + (c - chr '0').toNat) n) := by
  induction w generalizing n with
  | nil => rfl
  | cons c w ih =>
      rcases List.forall_mem_cons.mp hw with ⟨hc, hw⟩
      rcases digitValue_of_isDigit hc with ⟨hval, hlt⟩
      have hstep : Numeral.shift digitValue 10 (some n) c =
          some (n * 10 + (c - chr '0').toNat) := by
        rw [Numeral.shift, Option.bind_some, hval, Option.bind_some, if_pos hlt]
      rw [List.foldl_cons, hstep, ih hw, List.foldl_cons]

/-- A character that is no digit has no value below 10. -/
theorem shift_of_not_isDigit (hc : ¬isDigit c) (acc : Option Nat) :
    Numeral.shift digitValue 10 acc c = none := by
  cases acc with
  | none => rfl
  | some n =>
      rw [Numeral.shift, Option.bind_some, digitValue, if_neg hc]
      split_ifs
      · rw [Option.bind_some, if_neg (by omega)]
      · rw [Option.bind_some, if_neg (by omega)]
      · rfl

/-- Only digits make a number. -/
theorem isDigit_of_read {n : Nat} (h : read digitValue 10 w = some n) : ∀ c ∈ w, isDigit c := by
  induction w using List.reverseRecOn generalizing n with
  | nil => exact fun _ hc => nomatch hc
  | append_singleton w c ih =>
      rw [read_concat] at h
      by_cases hc : isDigit c
      · rcases Option.bind_eq_some_iff.mp h with ⟨k, hk, -⟩
        intro d hd
        rcases List.mem_append.mp hd with hd | hd
        · exact ih hk d hd
        · rwa [List.mem_singleton.mp hd]
      · rw [shift_of_not_isDigit hc] at h
        cases h

theorem readOctet_eq (hw : ∀ c ∈ w, isDigit c) (hrest : isDigit (rest.headD 0) = false) (n : Nat) :
    readOctet (.ofNat n) (w ++ rest) =
      (.ofNat (w.foldl (fun n c => n * 10 + (c - chr '0').toNat) n), rest) := by
  induction w generalizing n with
  | nil =>
      cases rest with
      | nil => rfl
      | cons c rest =>
          have hc : ¬isDigit c := by simpa using hrest
          exact if_neg hc
  | cons c w ih =>
      rcases List.forall_mem_cons.mp hw with ⟨hc, hw⟩
      have hstep : UInt32.ofNat n * 10 + (c - chr '0').toUInt32 =
          .ofNat (n * 10 + (c - chr '0').toNat) := by
        apply UInt32.toNat_inj.mp
        simp only [UInt32.toNat_add, UInt32.toNat_mul, UInt32.toNat_ofNat', UInt8.toNat_toUInt32]
        change (n % 2 ^ 32 * 10 % 2 ^ 32 + _) % 2 ^ 32 = _
        omega
      rw [List.cons_append, readOctet, if_pos hc, hstep]
      exact ih hw _

/-- A field is read up to what is behind it. -/
theorem readOctet_field (s : List UInt8) : readOctet 0 s =
    (.ofNat (number (s.takeWhile isDigit)), s.dropWhile isDigit) := by
  have hw : ∀ c ∈ s.takeWhile isDigit, isDigit c := fun c hc => List.mem_takeWhile_imp hc
  -- what is behind the digits is no digit, or the NUL
  have hrest : isDigit ((s.dropWhile isDigit).headD 0) = false := by
    cases hs : s.dropWhile isDigit with
    | nil => rfl
    | cons c rest =>
        have hhead := List.head_dropWhile_not (p := isDigit) (l := s) (by simp [hs])
        simp only [hs, List.head_cons] at hhead
        exact hhead
  have hread := readOctet_eq hw hrest 0
  rw [List.takeWhile_append_dropWhile] at hread
  have hnumber : number (s.takeWhile isDigit) =
      (s.takeWhile isDigit).foldl (fun n c => n * 10 + (c - chr '0').toNat) 0 := by
    rw [number, Numeral.read, number_digits hw, Option.getD_some]
  rw [hnumber]
  exact hread

/-- The bytes that are stored are the numbers of the fields, without their multiples of 256. -/
theorem readOctets_eq (n : Nat) (s : List UInt8) :
    readOctets n s = (fields n s).map fun w => .ofNat (number w) := by
  induction n generalizing s with
  | zero => rfl
  | succ n ih =>
      have hbyte : ∀ k, (UInt32.ofNat k).toUInt8 = .ofNat k := by
        intro k
        apply UInt8.toNat_inj.mp
        rw [UInt32.toNat_toUInt8, UInt32.toNat_ofNat', UInt8.toNat_ofNat']
        omega
      rw [readOctets, readOctet_field, fields, List.map_cons, hbyte, ih]

/-- The four bytes of the result. -/
theorem u32Bytes_strToIp (s : List UInt8) : u32Bytes (strToIp s) = readOctets 4 s :=
  u32Bytes_load32 ..

/-! ## What is read strictly -/

/-- The fields of numbers with single dots between them are these numbers. -/
theorem fields_intercalate {ws : List (List UInt8)} (hws : ∀ w ∈ ws, ∀ c ∈ w, isDigit c) :
    fields ws.length ([chr '.'].intercalate ws) = ws := by
  induction ws with
  | nil => rfl
  | cons w ws ih =>
      rcases List.forall_mem_cons.mp hws with ⟨hw, hws⟩
      cases ws with
      | nil =>
          rw [List.intercalate_singleton, List.length_singleton, fields,
            List.takeWhile_eq_self_iff.mpr hw]
          rfl
      | cons w' ws =>
          -- the dot ends the first field and is skipped
          have hstop : isDigit (chr '.') = false := by decide
          rw [List.intercalate_cons_cons, List.length_cons, fields, List.append_assoc,
            List.takeWhile_append_of_pos hw, List.dropWhile_append_of_pos hw,
            List.singleton_append, List.takeWhile_cons_of_neg (by simp [hstop]),
            List.dropWhile_cons_of_neg (by simp [hstop]), List.append_nil]
          exact congrArg (w :: ·) (ih hws)

/-- The fields of a dotted quad are its numbers. -/
theorem DottedQuad.fields_eq (h : DottedQuad s octets) :
    List.Forall₂ (fun w (octet : UInt8) => IsNumber w octet.toNat) (fields 4 s) octets := by
  rcases h with ⟨ws, hlen, rfl, hws⟩
  have hdigits : ∀ w ∈ ws, ∀ c ∈ w, isDigit c := by
    intro w hw
    rcases List.forall₂_iff_get.mp hws with ⟨hsame, hall⟩
    rcases List.getElem_of_mem hw with ⟨i, hi, rfl⟩
    exact isDigit_of_read (hall i hi (hsame ▸ hi)).2
  rw [← hlen, fields_intercalate hdigits]
  exact hws

/-- A dotted quad is read as its octets. -/
theorem DottedQuad.bytes_eq (h : DottedQuad s octets) : u32Bytes (strToIp s) = octets := by
  rw [u32Bytes_strToIp, readOctets_eq, ← List.forall₂_eq_eq_eq, List.forall₂_map_left_iff]
  refine h.fields_eq.imp fun w octet hw => ?_
  rw [number, hw.2, Option.getD_some, UInt8.ofNat_toNat]

/-- The result is 0 where every field is a multiple of 256. -/
theorem strToIp_eq_zero_iff : strToIp s = 0 ↔ ∀ w ∈ fields 4 s, 256 ∣ number w := by
  have hbytes : strToIp s = 0 ↔ readOctets 4 s = List.replicate 4 0 := by
    rw [← u32Bytes_strToIp]
    constructor
    · intro hzero
      rw [hzero]
      rfl
    · intro hzero
      have hload := load32_u32Bytes (strToIp s)
      simp only [u32Bytes, List.replicate, List.cons.injEq, and_true] at hzero
      rw [hzero.1, hzero.2.1, hzero.2.2.1, hzero.2.2.2] at hload
      exact hload.symm
  rw [hbytes, readOctets_eq, List.eq_replicate_iff]
  have hlen : ((fields 4 s).map fun w => UInt8.ofNat (number w)).length = 4 := rfl
  have hbyte : ∀ k, UInt8.ofNat k = 0 ↔ 256 ∣ k := by
    intro k
    rw [← UInt8.toNat_inj, UInt8.toNat_ofNat', Nat.dvd_iff_mod_eq_zero]
    rfl
  simp only [hlen, true_and, List.forall_mem_map, hbyte]

/-- What is expected of `str_to_ip` for a string. -/
def ReadsQuads (s : List UInt8) : Prop :=
  strToIp s ≠ 0 → ∃ octets, DottedQuad s octets ∧ u32Bytes (strToIp s) = octets

theorem readsQuads_iff : ReadsQuads s ↔
    (∃ octets, DottedQuad s octets) ∨ ∀ w ∈ fields 4 s, 256 ∣ number w := by
  rw [← strToIp_eq_zero_iff]
  constructor
  · intro h
    -- a result of 0 is refused, so nothing is expected of it
    by_cases hzero : strToIp s = 0
    · exact .inr hzero
    · rcases h hzero with ⟨octets, hquad, -⟩
      exact .inl ⟨octets, hquad⟩
  · rintro (⟨octets, hquad⟩ | hzero) hne
    · exact ⟨octets, hquad, hquad.bytes_eq⟩
    · exact absurd hzero hne

/-! ## What is printed -/

/-- The text of an address. -/
def quadText (ip : UInt32) : List UInt8 :=
  [chr '.'].intercalate ((u32Bytes ip).map fun b => decimal b.toNat)

theorem decimal_natCast (n : Nat) : decimal n = write decimalDigit 10 n := by
  rw [decimal, if_neg (by omega), Int.natAbs_natCast]
  rfl

theorem isNumber_decimal (n : Nat) : IsNumber (decimal n) n := by
  rw [decimal_natCast]
  constructor
  · intro hnil
    have hhead : (lastFirst decimalDigit 10 n).head? = _ := lastFirst_head (by decide)
    rw [List.reverse_eq_nil_iff.mp hnil] at hhead
    cases hhead
  · exact read_write (by decide) (fun d hd => digitValue_decimalDigit hd) n

theorem dottedQuad_quadText (ip : UInt32) : DottedQuad (quadText ip) (u32Bytes ip) := by
  refine ⟨_, rfl, rfl, ?_⟩
  rw [List.forall₂_map_left_iff, List.forall₂_same]
  exact fun b _ => isNumber_decimal b.toNat

/-- The text is read back. -/
theorem strToIp_quadText (ip : UInt32) : strToIp (quadText ip) = ip := by
  have hbytes := (dottedQuad_quadText ip).bytes_eq
  simp only [u32Bytes, List.cons.injEq, and_true] at hbytes
  rw [← load32_u32Bytes (strToIp (quadText ip)), hbytes.1, hbytes.2.1, hbytes.2.2.1,
    hbytes.2.2.2, load32_u32Bytes]

theorem length_decimal_le (b : UInt8) : (decimal b.toNat).length ≤ 3 := by
  have hb := b.toNat_lt
  rw [decimal_natCast, write, List.length_reverse]
  exact length_lastFirst_le (by decide) (by decide) (by omega)

theorem quadText_eq (ip : UInt32) : quadText ip =
    decimal ip.toUInt8.toNat ++ ([chr '.'] ++ (decimal (ip >>> 8).toUInt8.toNat ++
      ([chr '.'] ++ (decimal (ip >>> 16).toUInt8.toNat ++
        ([chr '.'] ++ decimal (ip >>> 24).toUInt8.toNat))))) := by
  simp only [quadText, u32Bytes, List.map_cons, List.map_nil, List.intercalate_cons_cons,
    List.intercalate_singleton, List.append_assoc]

theorem length_quadText_le (ip : UInt32) : (quadText ip).length ≤ 15 := by
  have h₀ := length_decimal_le ip.toUInt8
  have h₁ := length_decimal_le (ip >>> 8).toUInt8
  have h₂ := length_decimal_le (ip >>> 16).toUInt8
  have h₃ := length_decimal_le (ip >>> 24).toUInt8
  rw [quadText_eq]
  simp only [List.length_append, List.length_singleton]
  omega

/-- No character of the text is the end of a string. -/
theorem quadText_ne_zero (ip : UInt32) : ∀ c ∈ quadText ip, c ≠ 0 := by
  have hdecimal : ∀ n : Nat, ∀ c ∈ decimal n, c ≠ 0 := by
    rintro n c hc rfl
    have hdigit := isDigit_of_read (isNumber_decimal n).2 _ hc
    exact absurd hdigit (by decide)
  have hdot : ∀ c ∈ [chr '.'], c ≠ 0 := List.forall_mem_singleton.mpr (by decide)
  intro c hc
  rw [quadText_eq] at hc
  simp only [List.mem_append] at hc
  rcases hc with hc | hc | hc | hc | hc | hc | hc
  all_goals first | exact hdecimal _ c hc | exact hdot c hc

theorem toInt_vaInt {ap : VaList} {b : UInt8} (h : ap 0 = b.toUInt64) :
    (vaInt ap).toInt = b.toNat := by
  have hb := b.toNat_lt
  have hnat : (ap 0).toUInt32.toNat = b.toNat := by
    rw [h, UInt64.toNat_toUInt32, UInt8.toNat_toUInt64]
    omega
  change (ap 0).toUInt32.toBitVec.toInt = b.toNat
  rw [BitVec.toInt_eq_toNat_of_lt]
  · exact congrArg Nat.cast hnat
  · change 2 * (ap 0).toUInt32.toNat < _
    omega

/-- The formatter writes the text. -/
theorem vfmtLoop_quad (stringAt : UInt64 → CString) (fuel : Nat) (ip : UInt32) (ctx : PrintCtx) :
    vfmtLoop stringAt (fuel + 8) ctx 0 (octetArgs ip) quadFormat.chars =
      .ok (put (quadText ip) (ctx, 0)) := by
  have hdot : chr '.' ≠ chr '%' := by decide
  let ap := octetArgs ip
  have h₀ : (vaInt ap).toInt = ip.toUInt8.toNat := toInt_vaInt rfl
  have h₁ : (vaInt ap.next).toInt = (ip >>> 8).toUInt8.toNat := toInt_vaInt rfl
  have h₂ : (vaInt ap.next.next).toInt = (ip >>> 16).toUInt8.toNat := toInt_vaInt rfl
  have h₃ : (vaInt ap.next.next.next).toInt = (ip >>> 24).toUInt8.toNat := toInt_vaInt rfl
  change vfmtLoop stringAt (fuel + 8) (ctx, (0 : Int32)).1 (ctx, (0 : Int32)).2 ap
    [chr '%', chr 'd', chr '.', chr '%', chr 'd', chr '.', chr '%', chr 'd', chr '.', chr '%',
      chr 'd'] = _
  rw [vfmtLoop_d, vfmtLoop_char _ _ _ _ hdot, vfmtLoop_d, vfmtLoop_char _ _ _ _ hdot, vfmtLoop_d,
    vfmtLoop_char _ _ _ _ hdot, vfmtLoop_d, h₀, h₁, h₂, h₃]
  rw [quadText_eq]
  simp only [put_append]
  rfl

/-- What is expected of `ip_to_str` for an address. -/
def PrintsAndReads (ip : UInt32) : Prop :=
  ∀ stringAt fuel mem buf, 8 ≤ fuel → ∃ mem' count text,
    ipToStr stringAt fuel mem buf ip = .ok (mem', count) ∧ StringAt mem' buf text ∧
      text.length < 16 ∧ (∀ x, (∀ i < 16, x ≠ byteAt buf i) → mem' x = mem x) ∧ strToIp text = ip

theorem printsAndReads (ip : UInt32) : PrintsAndReads ip := by
  intro stringAt fuel mem buf hfuel
  rcases Nat.exists_eq_add_of_le' hfuel with ⟨fuel, rfl⟩
  have hlen := length_quadText_le ip
  rcases kvsnprintf_text (vfmtLoop_quad stringAt fuel ip) mem buf (by decide : 16 < 2 ^ 64) with
    ⟨mem', hmem', htrunc⟩
  refine ⟨mem', _, quadText ip, hmem', ?_, Nat.lt_succ_of_le hlen, htrunc.frame,
    strToIp_quadText ip⟩
  refine stringAt_of_bytes (quadText_ne_zero ip) fun i hi => ?_
  rcases Nat.lt_or_eq_of_le hi with hlt | rfl
  -- the text is no longer than 15 characters, so that nothing is cut off
  · have hchar := htrunc.chars (by decide) i (by omega)
    rw [List.getD_eq_getElem?_getD, ← hchar, Option.getD_some]
  · have hnul := htrunc.nul (by decide)
    rw [Nat.min_eq_right hlen] at hnul
    rw [hnul, List.getD_eq_getElem?_getD, List.getElem?_eq_none (Nat.le_refl _), Option.getD_none]

/-- What is printed fits and is read back. What is read as an address other than 0 is a dotted
quad exactly for the strings that are dotted quads, and for those of which each of the first
four fields is a multiple of 256. -/
theorem addresses_iff (ip : UInt32) (s : List UInt8) : PrintsAndReads ip ∧
    (ReadsQuads s ↔ (∃ octets, DottedQuad s octets) ∨ ∀ w ∈ fields 4 s, 256 ∣ number w) :=
  ⟨printsAndReads ip, readsQuads_iff⟩

/-- `1` is read as an address. -/
theorem one_is_an_address : strToIp ("1".toList.map chr) = 1 ∧
    ¬ReadsQuads ("1".toList.map chr) := by
  refine ⟨by decide, fun h => ?_⟩
  rcases h (by decide) with ⟨octets, hquad, -⟩
  have hfields := hquad.fields_eq
  have hlist : fields 4 ("1".toList.map chr) = [[chr '1'], [], [], []] := by decide
  rw [hlist] at hfields
  rcases hfields with - | ⟨-, - | ⟨hempty, -⟩⟩
  exact hempty.1 rfl

end PolandOS.Net
