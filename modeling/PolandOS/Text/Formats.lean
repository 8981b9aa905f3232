import Mathlib.Data.List.Induction
import PolandOS.Text.Printf

/-! # Formats and the texts they produce

What the formatter writes does not depend on the writer: every conversion is a text, which is
put character by character. A buffer takes the beginning of the whole text.

* `stays_inside_iff`: the formatter stays inside the formats whose conversions are complete
* `ksnprintf_truncates`: the buffer holds the beginning of the text
-/

namespace PolandOS.Printf

open ByteMem

/-! ## Texts -/

variable {ctx : PrintCtx} {cs cs' : List UInt8} {r : PrintCtx × Int32} {count total : Int32}

theorem put_append : put (cs ++ cs') r = put cs' (put cs r) := List.foldl_append

theorem put_eq : put cs (ctx, count) =
    (cs.foldl ctxPutchar ctx, count + Int32.ofNat cs.length) := by
  induction cs generalizing ctx count with
  | nil =>
      have hzero : Int32.ofNat ([] : List UInt8).length = 0 := rfl
      rw [hzero, Int32.add_zero]
      rfl
  | cons c cs ih =>
      change put cs (ctxPutchar ctx c, count + 1) = _
      rw [ih, List.foldl_cons, List.length_cons, Nat.add_comm, Int32.ofNat_add, Int32.add_assoc]
      rfl

/-- A count that goes on is a count from zero that is added. -/
theorem put_count : put cs (ctx, total) = ((put cs (ctx, 0)).1, total + (put cs (ctx, 0)).2) := by
  rw [put_eq, put_eq, Int32.zero_add]

/-- What `ctx_write_str` writes. -/
def strText (s : Option (List UInt8)) (width prec : Int32) (leftAlign zeroPad : Bool) :
    List UInt8 :=
  let s := s.getD ("(null)".toList.map chr)
  let len := Int32.ofNat s.length
  let len := if prec ≥ 0 ∧ prec < len then prec else len
  let pad := if width > len then width - len else 0
  let padChar := if zeroPad && !leftAlign then chr '0' else chr ' '
  (if !leftAlign then times pad padChar else []) ++ s.take len.toNatClampNeg ++
    if leftAlign then times pad (chr ' ') else []

theorem ctxWriteStr_eq (ctx : PrintCtx) (s : Option (List UInt8)) (width prec : Int32)
    (leftAlign zeroPad : Bool) : ctxWriteStr ctx s width prec leftAlign zeroPad =
      put (strText s width prec leftAlign zeroPad) (ctx, 0) := by
  unfold ctxWriteStr strText
  cases leftAlign with
  | false => simp [put_append]
  | true => simp [put_append]

/-- The zeros that a precision asks for. -/
def extraZeros (tmp : List UInt8) (prec : Int32) : Int32 :=
  if prec > Int32.ofNat tmp.length then prec - Int32.ofNat tmp.length else 0

/-- The characters that are missing to a width. -/
def padding (pre tmp : List UInt8) (width prec : Int32) : Int32 :=
  let contentLen := Int32.ofNat pre.length + extraZeros tmp prec + Int32.ofNat tmp.length
  if width > contentLen then width - contentLen else 0

/-- What `fmt_int` writes of a prefix and digits. -/
def numberText (pre tmp : List UInt8) (width prec : Int32) (leftAlign zeroPad : Bool) :
    List UInt8 :=
  let pad := padding pre tmp width prec
  let number := times (extraZeros tmp prec) (chr '0') ++ tmp.reverse
  if leftAlign then pre ++ number ++ times pad (chr ' ')
  else if zeroPad && prec < 0 then pre ++ times pad (chr '0') ++ number
  else times pad (chr ' ') ++ pre ++ number

theorem fmtInt_eq (ctx : PrintCtx) (uval : UInt64) (isSigned neg : Bool) (base : Nat)
    (upper : Bool) (width prec : Int32) (leftAlign zeroPad altForm : Bool) :
    fmtInt ctx uval isSigned neg base upper width prec leftAlign zeroPad altForm =
      put (numberText (prefixOf isSigned neg altForm upper base (tmpOf upper base uval))
        (tmpOf upper base uval) width prec leftAlign zeroPad) (ctx, 0) := by
  unfold fmtInt numberText padding extraZeros
  cases leftAlign with
  | true => simp [put_append]
  | false =>
      -- where zeros are the padding they come behind the prefix
      cases hzero : zeroPad && decide (prec < 0) with
      | true => simp [put_append]
      | false => simp [put_append, hzero]

/-- A conversion writes a text that the arguments alone decide. -/
theorem convert_writes (stringAt : UInt64 → CString) (cv : Conversion) (ap : VaList)
    (spec : UInt8) :
    ∃ text ap', ∀ ctx, convert stringAt ctx cv ap spec = (put text (ctx, 0), ap') := by
  unfold convert fmtSigned
  dsimp only
  split
  · exact ⟨_, _, fun ctx => by rw [fmtInt_eq]⟩
  split
  · exact ⟨_, _, fun ctx => by rw [fmtInt_eq]⟩
  split
  · exact ⟨_, _, fun ctx => by rw [fmtInt_eq]⟩
  split
  · exact ⟨_, _, fun ctx => by rw [fmtInt_eq]⟩
  split
  -- `%p` writes `0x` itself and counts it apart from the number
  · have hpointer : ∀ (ctx : PrintCtx) (t : List UInt8),
        put ([chr '0', chr 'x'] ++ t) (ctx, 0) =
          ((put t (ctxPutchar (ctxPutchar ctx (chr '0')) (chr 'x'), 0)).1,
            2 + (put t (ctxPutchar (ctxPutchar ctx (chr '0')) (chr 'x'), 0)).2) :=
      fun ctx t => put_append.trans put_count
    refine ⟨[chr '0', chr 'x'] ++ numberText (prefixOf false false false false 16
      (tmpOf false 16 (ap 0))) (tmpOf false 16 (ap 0)) (if cv.width > 2 then cv.width - 2 else 0)
        cv.prec cv.leftAlign true, ap.next, fun ctx => ?_⟩
    rw [fmtInt_eq, hpointer]
  split
  · exact ⟨_, _, fun ctx => by rw [ctxWriteStr_eq]⟩
  split
  · exact ⟨_, _, fun ctx => by rw [ctxWriteStr_eq]⟩
  split
  · exact ⟨[chr '%'], _, fun ctx => rfl⟩
  · exact ⟨[chr '%', spec], _, fun ctx => rfl⟩

/-! ## Complete formats -/

/-- A character of the flags. -/
def isFlag (c : UInt8) : Bool := c ∈ ['-', '0', '#', ' ', '+'].map chr

/-- Behind a number or a `*`. -/
def skipNumber (fmt : List UInt8) : List UInt8 :=
  if fmt.head? = some (chr '*') then fmt.tail else fmt.dropWhile isDigit

/-- Behind a precision. -/
def skipPrecision (fmt : List UInt8) : List UInt8 :=
  if fmt.head? = some (chr '.') then skipNumber fmt.tail else fmt

/-- Behind a length modifier. -/
def skipLength : List UInt8 → List UInt8
  | [] => []
  | c :: fmt =>
    if (c = chr 'l' ∨ c = chr 'h') ∧ fmt.head? = some c then fmt.tail
    else if c ∈ ['l', 'h', 'z'].map chr then fmt
    else c :: fmt

/-- Behind all that may stand between the `%` and the specifier. -/
def conversionEnd (fmt : List UInt8) : List UInt8 :=
  skipLength (skipPrecision (skipNumber (fmt.dropWhile isFlag)))

/-- Every conversion of the format has a specifier. -/
inductive Complete : List UInt8 → Prop
  | nil : Complete []
  | text {c : UInt8} {fmt : List UInt8} : c ≠ chr '%' → Complete fmt → Complete (c :: fmt)
  | conversion {fmt rest : List UInt8} {spec : UInt8} : conversionEnd fmt = spec :: rest →
      Complete rest → Complete (chr '%' :: fmt)

theorem parseFlags_rest (cv : Conversion) (fmt : List UInt8) :
    (parseFlags cv fmt).2 = fmt.dropWhile isFlag := by
  induction fmt generalizing cv with
  | nil => rfl
  | cons c fmt ih =>
      rw [parseFlags, List.dropWhile_cons]
      by_cases hflag : isFlag c
      · rw [if_pos hflag]
        have hc : c = chr '-' ∨ c = chr '0' ∨ c = chr '#' ∨ c = chr ' ' ∨ c = chr '+' := by
          simpa [isFlag] using hflag
        rcases hc with rfl | rfl | rfl | rfl | rfl <;> exact ih _
      · rw [if_neg hflag]
        have hc : c ≠ chr '-' ∧ c ≠ chr '0' ∧ c ≠ chr '#' ∧ c ≠ chr ' ' ∧ c ≠ chr '+' := by
          simpa [isFlag] using hflag
        rw [if_neg hc.1, if_neg hc.2.1, if_neg hc.2.2.1, if_neg hc.2.2.2.1, if_neg hc.2.2.2.2]

theorem parseNumber_rest (n : Int32) (fmt : List UInt8) :
    (parseNumber n fmt).2 = fmt.dropWhile isDigit := by
  induction fmt generalizing n with
  | nil => rfl
  | cons c fmt ih =>
      rw [parseNumber, List.dropWhile_cons]
      split
      · exact ih _
      · rfl

theorem parseStar_rest (ap : VaList) (fmt : List UInt8) :
    (parseStar ap fmt).2.2 = skipNumber fmt := by
  cases fmt with
  | nil => rfl
  | cons c fmt =>
      rw [parseStar, skipNumber, List.head?_cons]
      by_cases hstar : c = chr '*'
      · rw [if_pos hstar, if_pos (congrArg some hstar)]
        rfl
      · rw [if_neg hstar, if_neg fun h => hstar (Option.some.inj h)]
        exact parseNumber_rest 0 _

theorem parsePrecision_rest (ap : VaList) (fmt : List UInt8) :
    (parsePrecision ap fmt).2.2 = skipPrecision fmt := by
  cases fmt with
  | nil => rfl
  | cons c fmt =>
      rw [parsePrecision, skipPrecision, List.head?_cons]
      by_cases hdot : c = chr '.'
      · rw [if_pos hdot, if_pos (congrArg some hdot)]
        exact parseStar_rest _ _
      · rw [if_neg hdot, if_neg fun h => hdot (Option.some.inj h)]

theorem head?_eq_iff {c : UInt8} (hc : c ≠ 0) (fmt : List UInt8) :
    fmt.headD 0 = c ↔ fmt.head? = some c := by
  cases fmt with
  | nil => simpa using hc.symm
  | cons d fmt => simp

/-- The length modifiers are skipped. -/
theorem parseLength_rest (cv : Conversion) (fmt : List UInt8) :
    (parseLength cv fmt).2 = skipLength fmt := by
  cases fmt with
  | nil => rfl
  | cons c fmt =>
      have hl0 : chr 'l' ≠ 0 := by decide
      have hh0 : chr 'h' ≠ 0 := by decide
      have hzl : chr 'z' ≠ chr 'l' := by decide
      have hzh : chr 'z' ≠ chr 'h' := by decide
      have hhl : chr 'h' ≠ chr 'l' := by decide
      have hhz : chr 'h' ≠ chr 'z' := by decide
      -- the second letter is looked at only behind `l` and `h`
      simp only [parseLength, skipLength, head?_eq_iff hl0, head?_eq_iff hh0]
      by_cases hl : c = chr 'l'
      · subst hl
        simp only [if_true, true_or, true_and, List.map_cons, List.mem_cons]
        split <;> rfl
      by_cases hz : c = chr 'z'
      · subst hz
        simp [hzl, hzh]
      by_cases hh : c = chr 'h'
      · subst hh
        simp only [hhl, hhz, if_true, if_false, or_true, true_and, List.map_cons, List.mem_cons]
        split
        · rfl
        · simp
      · simp [hl, hz, hh]

theorem parseConversion_rest (ap : VaList) (fmt : List UInt8) :
    (parseConversion ap fmt).2.2 = conversionEnd fmt := by
  unfold parseConversion conversionEnd
  dsimp only
  rw [parseLength_rest, parsePrecision_rest, parseStar_rest, parseFlags_rest]

/-- A conversion ends behind its `%`. -/
theorem length_conversionEnd_le (fmt : List UInt8) : (conversionEnd fmt).length ≤ fmt.length := by
  have hnumber : ∀ fmt, (skipNumber fmt).length ≤ fmt.length := by
    intro fmt
    unfold skipNumber
    split
    · simp
    · exact (List.dropWhile_suffix _).length_le
  have hprecision : ∀ fmt, (skipPrecision fmt).length ≤ fmt.length := by
    intro fmt
    unfold skipPrecision
    split
    · exact (hnumber _).trans (by simp)
    · exact le_rfl
  have hlength : ∀ fmt, (skipLength fmt).length ≤ fmt.length := by
    intro fmt
    cases fmt with
    | nil => exact le_rfl
    | cons c fmt =>
        rw [skipLength]
        split
        · rw [List.length_tail, List.length_cons]
          omega
        · split <;> simp
  calc (conversionEnd fmt).length
      ≤ (skipPrecision (skipNumber (fmt.dropWhile isFlag))).length := hlength _
    _ ≤ (skipNumber (fmt.dropWhile isFlag)).length := hprecision _
    _ ≤ (fmt.dropWhile isFlag).length := hnumber _
    _ ≤ fmt.length := (List.dropWhile_suffix _).length_le

/-! ## Runs of the formatter -/

variable {stringAt : UInt64 → CString} {fmt : List UInt8} {fuel : Nat} {ap : VaList}

/-- A complete format writes one text, whatever it is written to. -/
theorem vfmtLoop_complete (stringAt : UInt64 → CString) (h : Complete fmt)
    (hfuel : fmt.length < fuel) (ap : VaList) :
    ∃ text, ∀ ctx total, vfmtLoop stringAt fuel ctx total ap fmt = .ok (put text (ctx, total)) := by
  induction h generalizing fuel ap with
  | nil =>
      rcases Nat.exists_eq_succ_of_ne_zero (by omega : fuel ≠ 0) with ⟨fuel, rfl⟩
      exact ⟨[], fun ctx total => rfl⟩
  | @text c fmt hc hfmt ih =>
      rcases Nat.exists_eq_succ_of_ne_zero (by omega : fuel ≠ 0) with ⟨fuel, rfl⟩
      rcases ih (Nat.lt_of_succ_lt_succ hfuel) ap with ⟨text, htext⟩
      refine ⟨c :: text, fun ctx total => ?_⟩
      rw [vfmtLoop, if_pos hc, htext]
      rfl
  -- the arguments that the conversion takes do not depend on where it writes
  | @conversion fmt rest spec hend hrest ih =>
      rcases Nat.exists_eq_succ_of_ne_zero (by omega : fuel ≠ 0) with ⟨fuel, rfl⟩
      have hlen := length_conversionEnd_le fmt
      rw [hend, List.length_cons] at hlen
      rw [List.length_cons] at hfuel
      rcases convert_writes stringAt (parseConversion ap fmt).1 (parseConversion ap fmt).2.1 spec
        with ⟨text₁, ap', hconvert⟩
      rcases ih (by omega : rest.length < fuel) ap' with ⟨text₂, htext⟩
      refine ⟨text₁ ++ text₂, fun ctx total => ?_⟩
      rw [vfmtLoop, if_neg (not_not.mpr rfl)]
      dsimp only
      rw [parseConversion_rest, hend]
      dsimp only
      rw [hconvert, htext, put_append]
      exact congrArg (fun r => Except.ok (put text₂ r)) put_count.symm

/-- In every other format the terminator is taken for a specifier. -/
theorem vfmtLoop_incomplete (h : ¬Complete fmt) (hfuel : fmt.length < fuel) :
    vfmtLoop stringAt fuel ctx total ap fmt = .error .pastEnd := by
  induction fuel generalizing fmt ctx total ap with
  | zero => omega
  | succ fuel ih =>
      cases fmt with
      | nil => exact absurd .nil h
      | cons c fmt =>
          rw [List.length_cons] at hfuel
          rw [vfmtLoop]
          -- each round goes behind a character or a conversion, and what is left is as little
          -- complete; at the end stands a `%` without a specifier
          by_cases hc : c = chr '%'
          · subst hc
            rw [if_neg (not_not.mpr rfl)]
            dsimp only
            rw [parseConversion_rest]
            cases hend : conversionEnd fmt with
            | nil => rfl
            | cons spec rest =>
                have hlen := length_conversionEnd_le fmt
                rw [hend, List.length_cons] at hlen
                exact ih (fun hrest => h (.conversion hend hrest)) (by omega)
          · rw [if_pos hc]
            exact ih (fun hfmt => h (.text hc hfmt)) (by omega)

theorem vfmt_eq {r : PrintCtx × Int32} {s : CString}
    (h : vfmtLoop stringAt fuel ctx 0 ap s.chars = .ok r) : vfmt stringAt fuel ctx s ap =
      .ok (if r.1.isBuf && r.1.size > 0 then
        { r.1 with mem := set r.1.mem (byteAt r.1.buf r.1.pos) 0 } else r.1, r.2) := by
  rw [vfmt, h]
  cases hterm : r.1.isBuf && decide (r.1.size > 0) with
  | false => simp [bind, Except.bind, pure, Except.pure, hterm]
  | true => simp [bind, Except.bind, pure, Except.pure, hterm]

/-- The formatter never reads behind the terminating NUL, and returns, exactly if every
conversion of the format has a specifier. -/
theorem stays_inside_iff (stringAt : UInt64 → CString) (fuel : Nat) (ctx : PrintCtx)
    (fmt : CString) (ap : VaList) (hfuel : fmt.chars.length < fuel) :
    (vfmt stringAt fuel ctx fmt ap ≠ .error .pastEnd ∧ ∃ r, vfmt stringAt fuel ctx fmt ap = .ok r) ↔
      Complete fmt.chars := by
  constructor
  · rintro ⟨hinside, -⟩
    by_contra hincomplete
    refine hinside ?_
    rw [vfmt, vfmtLoop_incomplete hincomplete hfuel]
    rfl
  · intro hcomplete
    rcases vfmtLoop_complete stringAt hcomplete hfuel ap with ⟨text, htext⟩
    rw [vfmt_eq (htext ctx 0)]
    exact ⟨nofun, _, rfl⟩

/-- No strings. -/
def noStrings : UInt64 → CString := fun _ => ⟨[], noNul_nil⟩

/-- A writer to the devices. -/
def toDevices : PrintCtx := ⟨0, 0, 0, false, fun _ => 0, []⟩

theorem stays_inside_iff_long :
    (vfmt noStrings 5 toDevices ⟨"%lld".toList.map chr, by decide⟩ (fun _ => 7) ≠ .error .pastEnd ∧
      ∃ r, vfmt noStrings 5 toDevices ⟨"%lld".toList.map chr, by decide⟩ (fun _ => 7) = .ok r) ↔
      Complete ("%lld".toList.map chr) :=
  stays_inside_iff noStrings 5 toDevices ⟨"%lld".toList.map chr, by decide⟩ (fun _ => 7) (by decide)

/-- A lone percent sign. -/
theorem percent_past_end :
    vfmt noStrings 2 toDevices ⟨[chr '%'], by decide⟩ (fun _ => 0) = .error .pastEnd := rfl

/-! ## Truncation -/

/-- The buffer holds the beginning of what has been put, and nothing else is touched. -/
structure Buffered (mem : Mem) (b n : Nat) (cs : List UInt8) (ctx : PrintCtx) : Prop where
  isBuf : ctx.isBuf = true
  buf : ctx.buf = b
  size : ctx.size = n
  pos : ctx.pos = min (n - 1) cs.length
  chars : ∀ i < ctx.pos, some (ctx.mem (byteAt b i)) = cs[i]?
  frame : ∀ a, (∀ i < n - 1, a ≠ byteAt b i) → ctx.mem a = mem a

/-- A character goes to the buffer while there is room, and is counted in any case. -/
theorem Buffered.put {mem : Mem} {b n : Nat} {c : UInt8} (hn : n < 2 ^ 64)
    (h : Buffered mem b n cs ctx) : Buffered mem b n (cs ++ [c]) (ctxPutchar ctx c) := by
  have hpos := h.pos
  have hlength : (cs ++ [c]).length = cs.length + 1 := by simp
  have hnext : add64 ctx.pos 1 = ctx.pos + 1 := add64_eq (by omega)
  rw [ctxPutchar, if_pos h.isBuf, hnext, h.size, h.buf]
  split
  -- while there is room nothing has been cut off
  case isTrue hroom =>
    have hlast : ctx.pos = cs.length := by omega
    refine ⟨h.isBuf, rfl, rfl, ?_, ?_, ?_⟩
    · change ctx.pos + 1 = _
      omega
    · intro i hi
      change i < ctx.pos + 1 at hi
      change some (set ctx.mem (byteAt b ctx.pos) c (byteAt b i)) = _
      rcases Nat.lt_succ_iff_lt_or_eq.mp hi with hlt | rfl
      · have hne : byteAt b i ≠ byteAt b ctx.pos := by
          intro heq
          have := byteAt_inj (by omega) (by omega) heq
          omega
        rw [set_ne _ _ hne, h.chars i hlt, List.getElem?_append_left (by omega)]
      · rw [set_self, hlast, List.getElem?_concat_length]
    · intro a ha
      change set ctx.mem (byteAt b ctx.pos) c a = _
      rw [set_ne _ _ (ha ctx.pos (by omega)), h.frame a ha]
  case isFalse hfull =>
    refine ⟨h.isBuf, h.buf, h.size, by omega, ?_, h.frame⟩
    intro i hi
    rw [h.chars i hi, List.getElem?_append_left (by omega)]

theorem buffered_foldl (mem : Mem) (b : Nat) {n : Nat} (hn : n < 2 ^ 64) (cs : List UInt8) :
    Buffered mem b n cs (cs.foldl ctxPutchar ⟨b, n, 0, true, mem, []⟩) := by
  induction cs using List.reverseRecOn with
  | nil =>
      refine ⟨rfl, rfl, rfl, (Nat.min_zero _).symm, fun i hi => ?_, fun _ _ => rfl⟩
      exact absurd hi (Nat.not_lt_zero i)
  | append_singleton cs c ih =>
      rw [List.foldl_append]
      exact ih.put hn

/-- The devices get every character. -/
theorem foldl_devices (hdev : ctx.isBuf = false) (cs : List UInt8) :
    cs.foldl ctxPutchar ctx = { ctx with devices := ctx.devices ++ cs } := by
  induction cs using List.reverseRecOn with
  | nil => simp
  | append_singleton cs c ih =>
      rw [List.foldl_append, ih, List.foldl_cons, List.foldl_nil, ctxPutchar, if_neg (by simp [hdev]),
        List.append_assoc]

/-- What a text leaves in a buffer of some size. -/
structure Truncates (mem mem' : Mem) (b n : Nat) (text : List UInt8) : Prop where
  frame : ∀ a, (∀ i < n, a ≠ byteAt b i) → mem' a = mem a
  chars : 0 < n → ∀ i < min (n - 1) text.length, some (mem' (byteAt b i)) = text[i]?
  nul : 0 < n → mem' (byteAt b (min (n - 1) text.length)) = 0

section Text

variable {text : List UInt8} {s : CString}
  (htext : ∀ ctx, vfmtLoop stringAt fuel ctx 0 ap s.chars = .ok (put text (ctx, 0)))
include htext

theorem kvprintf_text (mem : Mem) :
    kvprintf stringAt fuel mem s ap = .ok (text, Int32.ofNat text.length) := by
  rw [kvprintf, vfmt_eq (htext _), put_eq, foldl_devices rfl, Int32.zero_add]
  rfl

/-- The buffer has the beginning of the text and a zero, and the count is that of the whole
text. -/
theorem kvsnprintf_text (mem : Mem) (b : Nat) {n : Nat} (hn : n < 2 ^ 64) :
    ∃ mem', kvsnprintf stringAt fuel mem b n s ap = .ok (mem', Int32.ofNat text.length) ∧
      Truncates mem mem' b n text := by
  have hbuf := buffered_foldl mem b hn text
  rw [kvsnprintf, vfmt_eq (htext _), put_eq, Int32.zero_add]
  dsimp only
  rw [hbuf.isBuf, hbuf.size, hbuf.buf, hbuf.pos, Bool.true_and]
  refine ⟨_, rfl, ?_, ?_, ?_⟩
  · intro a ha
    have hframe := hbuf.frame a fun i hi => ha i (by omega)
    -- the terminator goes behind the last character that fitted, inside the buffer
    by_cases hpos : n > 0
    · rw [if_pos (by simpa using hpos)]
      exact (set_ne _ _ (ha _ (by omega))).trans hframe
    · rw [if_neg (by simpa using hpos)]
      exact hframe
  · intro hpos i hi
    have hne : byteAt b i ≠ byteAt b (min (n - 1) text.length) := by
      intro heq
      have := byteAt_inj (by omega) (by omega) heq
      omega
    rw [if_pos (by simpa using hpos)]
    exact (congrArg some (set_ne _ _ hne)).trans (hbuf.chars i (by rwa [hbuf.pos]))
  · intro hpos
    rw [if_pos (by simpa using hpos)]
    exact set_self _ _ _

end Text

/-- `kvsnprintf` returns the length of the whole text, as an `int`, whatever the size of the
buffer is. It writes to the buffer only, and leaves there as much of the text as fits before
the NUL; where there is no buffer it writes nothing. -/
theorem ksnprintf_truncates (stringAt : UInt64 → CString) (fuel : Nat) (fmt : CString)
    (hfmt : Complete fmt.chars) (hfuel : fmt.chars.length < fuel) (ap : VaList) :
    ∃ text, (∀ mem, kvprintf stringAt fuel mem fmt ap = .ok (text, Int32.ofNat text.length)) ∧
      ∀ mem b n, n < 2 ^ 64 → ∃ mem',
        kvsnprintf stringAt fuel mem b n fmt ap = .ok (mem', Int32.ofNat text.length) ∧
          Truncates mem mem' b n text := by
  rcases vfmtLoop_complete stringAt hfmt hfuel ap with ⟨text, htext⟩
  refine ⟨text, fun mem => kvprintf_text (htext · 0) mem, fun mem b n hn => ?_⟩
  exact kvsnprintf_text (htext · 0) mem b hn

theorem ksnprintf_truncates_percent : ∃ text,
    (∀ mem, kvprintf noStrings 4 mem ⟨"a%%".toList.map chr, by decide⟩ (fun _ => 0) =
      .ok (text, Int32.ofNat text.length)) ∧
    ∀ mem b n, n < 2 ^ 64 → ∃ mem',
      kvsnprintf noStrings 4 mem b n ⟨"a%%".toList.map chr, by decide⟩ (fun _ => 0) =
        .ok (mem', Int32.ofNat text.length) ∧ Truncates mem mem' b n text :=
  ksnprintf_truncates noStrings 4 ⟨"a%%".toList.map chr, by decide⟩
    (.text (by decide) (.conversion rfl .nil)) (by decide) (fun _ => 0)

/-- A number as wide as an `int` can say, and a character. -/
def wideFormat : CString := ⟨"%2147483647dx".toList.map chr, by decide⟩

theorem numberText_wide : numberText [] [chr '0'] 2147483647 (-1) false false =
    List.replicate 2147483646 (chr ' ') ++ [chr '0'] := by
  have hpad : padding [] [chr '0'] 2147483647 (-1) = 2147483646 := by decide
  have hzeros : times (extraZeros [chr '0'] (-1)) (chr '0') = [] := by decide
  have hcount : (2147483646 : Int32).toNatClampNeg = 2147483646 := by decide
  change times (padding [] [chr '0'] 2147483647 (-1)) (chr ' ') ++ [] ++
    (times (extraZeros [chr '0'] (-1)) (chr '0') ++ [chr '0']) = _
  rw [hpad, hzeros, List.append_nil, List.nil_append, times, hcount]

/-- The conversion, and the character behind it. -/
theorem vfmtLoop_wide (ctx : PrintCtx) {number : List UInt8}
    (h : numberText [] [chr '0'] 2147483647 (-1) false false = number) :
    vfmtLoop noStrings 20 ctx 0 (fun _ => 0) wideFormat.chars =
      .ok (put (number ++ [chr 'x']) (ctx, 0)) := by
  have hparse : parseConversion (fun _ => 0) ("2147483647dx".toList.map chr) =
      ({ width := 2147483647 }, fun _ => 0, [chr 'd', chr 'x']) := rfl
  have hconvert : convert noStrings ctx { width := 2147483647 } (fun _ => 0) (chr 'd') =
      (put number (ctx, 0), fun _ => 0) := by
    rw [← h]
    exact congrArg (·, _) (fmtInt_eq ctx 0 true false 10 false 2147483647 (-1) false false false)
  change vfmtLoop noStrings 20 ctx 0 (fun _ => 0) (chr '%' :: "2147483647dx".toList.map chr) = _
  rw [vfmtLoop, if_neg (not_not.mpr rfl)]
  dsimp only
  rw [hparse]
  dsimp only
  rw [hconvert, Int32.zero_add, put_append]
  rfl

/-- Of 2147483648 characters it returns a negative count. -/
theorem count_wraps : ∃ text mem', kvprintf noStrings 20 (fun _ => 0) wideFormat (fun _ => 0) =
      .ok (text, Int32.minValue) ∧ text.length = 2 ^ 31 ∧
    kvsnprintf noStrings 20 (fun _ => 0) 0 0 wideFormat (fun _ => 0) =
      .ok (mem', Int32.minValue) := by
  have hlength : (List.replicate 2147483646 (chr ' ') ++ [chr '0'] ++ [chr 'x']).length = 2 ^ 31 := by
    rw [List.length_append, List.length_append, List.length_replicate]
    rfl
  have hcount : Int32.ofNat (2 ^ 31) = Int32.minValue := by decide
  have hloop := fun ctx => vfmtLoop_wide ctx numberText_wide
  have hdevices := kvprintf_text hloop fun _ => 0
  rcases kvsnprintf_text hloop (fun _ => 0) 0 (by decide : 0 < 2 ^ 64) with ⟨mem', hbuf, -⟩
  rw [hlength, hcount] at hdevices hbuf
  exact ⟨_, mem', hdevices, hlength, hbuf⟩

end PolandOS.Printf
