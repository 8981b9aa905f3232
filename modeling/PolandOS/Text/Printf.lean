import PolandOS.Lib.ByteMem
import PolandOS.Machine

/-! # Formatted output

`kernel/lib/printf.c`: the formatter with its two writers, the buffer of `kvsnprintf` and
the devices of `kvprintf`. An argument list is a stream of slots, the passed arguments
first. The strings that arguments point to lie outside the buffer.
-/

namespace PolandOS.Printf

open ByteMem

/-- A character constant. -/
abbrev chr (c : Char) : UInt8 := c.toUInt8

/-- The characters of a string before its NUL. -/
structure CString where
  chars : List UInt8
  noNul : 0 ∉ chars

theorem noNul_nil : (0 : UInt8) ∉ [] := List.not_mem_nil

/-- `va_list`. -/
abbrev VaList := Nat → UInt64

/-- The slots behind the first. -/
def VaList.next (ap : VaList) : VaList := fun i => ap (i + 1)

/-- `va_arg(ap, int)`. -/
def vaInt (ap : VaList) : Int32 := (ap 0).toUInt32.toInt32

/-! ## Writers -/

/-- `PrintCtx`, with the memory of the buffer and what has gone to the devices. -/
structure PrintCtx where
  buf : Nat
  size : Nat
  pos : Nat
  isBuf : Bool
  mem : Mem
  devices : List UInt8

/-- `ctx_putchar`. -/
def ctxPutchar (ctx : PrintCtx) (c : UInt8) : PrintCtx :=
  if ctx.isBuf then
    if add64 ctx.pos 1 < ctx.size then
      { ctx with mem := set ctx.mem (byteAt ctx.buf ctx.pos) c, pos := add64 ctx.pos 1 }
    else ctx
  else { ctx with devices := ctx.devices ++ [c] }

/-- Put characters in a row, and count each. -/
def put (cs : List UInt8) (r : PrintCtx × Int32) : PrintCtx × Int32 :=
  cs.foldl (fun r c => (ctxPutchar r.1 c, r.2 + 1)) r

/-- `for (int i = 0; i < n; i++)`, with the same character each time. -/
def times (n : Int32) (c : UInt8) : List UInt8 := List.replicate n.toNatClampNeg c

/-- `ctx_write_str`. -/
def ctxWriteStr (ctx : PrintCtx) (s : Option (List UInt8)) (width prec : Int32)
    (leftAlign zeroPad : Bool) : PrintCtx × Int32 :=
  let s := s.getD ("(null)".toList.map chr)
  let len := Int32.ofNat s.length
  let len := if prec ≥ 0 ∧ prec < len then prec else len
  let pad := if width > len then width - len else 0
  let padChar := if zeroPad && !leftAlign then chr '0' else chr ' '
  let r := (ctx, 0)
  let r := if !leftAlign then put (times pad padChar) r else r
  let r := put (s.take len.toNatClampNeg) r
  if leftAlign then put (times pad (chr ' ')) r else r

/-! ## Integers -/

/-- `hex`. -/
def hexDigits (upper : Bool) : List UInt8 :=
  (if upper then "0123456789ABCDEF" else "0123456789abcdef").toList.map chr

/-- The loop that fills `tmp`, the last digit first. -/
def tmpDigits (hex : List UInt8) (base : Nat) : Nat → Nat → List UInt8
  | 0, _ => []
  | fuel + 1, v => if v > 0 then hex.getD (v % base) 0 :: tmpDigits hex base fuel (v / base) else []

/-- `tmp`. -/
def tmpOf (upper : Bool) (base : Nat) (uval : UInt64) : List UInt8 :=
  if uval = 0 then [chr '0'] else tmpDigits (hexDigits upper) base 66 uval.toNat

/-- `prefix`. The octal one looks at the digit that `tmp` begins with. -/
def prefixOf (isSigned neg altForm upper : Bool) (base : Nat) (tmp : List UInt8) : List UInt8 :=
  if isSigned && neg then [chr '-']
  else if altForm && base == 16 then [chr '0', if upper then chr 'X' else chr 'x']
  else if altForm && base == 8 && tmp.headD 0 != chr '0' then [chr '0']
  else []

/-- `fmt_int`. -/
def fmtInt (ctx : PrintCtx) (uval : UInt64) (isSigned neg : Bool) (base : Nat) (upper : Bool)
    (width prec : Int32) (leftAlign zeroPad altForm : Bool) : PrintCtx × Int32 :=
  let tmp := tmpOf upper base uval
  let pre := prefixOf isSigned neg altForm upper base tmp
  let prefixLen := Int32.ofNat pre.length
  let digits := Int32.ofNat tmp.length
  let extraZeros := if prec > digits then prec - digits else 0
  let contentLen := prefixLen + extraZeros + digits
  let pad := if width > contentLen then width - contentLen else 0
  let padChar := if zeroPad && !leftAlign && prec < 0 then chr '0' else chr ' '
  let r := (ctx, 0)
  let r :=
    if !leftAlign then
      if zeroPad && prec < 0 then put (times pad (chr '0')) (put pre r)
      else put pre (put (times pad padChar) r)
    else put pre r
  let r := put (times extraZeros (chr '0')) r
  let r := put tmp.reverse r
  if leftAlign then put (times pad (chr ' ')) r else r

/-! ## The formatter -/

/-- The flags, the width, the precision and the length modifier of a conversion. -/
structure Conversion where
  leftAlign : Bool := false
  zeroPad : Bool := false
  altForm : Bool := false
  spaceSign : Bool := false
  plusSign : Bool := false
  width : Int32 := 0
  prec : Int32 := -1
  isLong : Bool := false
  isLongLong : Bool := false
  isSize : Bool := false

/-- The loop over the flags. -/
def parseFlags (cv : Conversion) : List UInt8 → Conversion × List UInt8
  | [] => (cv, [])
  | c :: fmt =>
    if c = chr '-' then parseFlags { cv with leftAlign := true } fmt
    else if c = chr '0' then parseFlags { cv with zeroPad := true } fmt
    else if c = chr '#' then parseFlags { cv with altForm := true } fmt
    else if c = chr ' ' then parseFlags { cv with spaceSign := true } fmt
    else if c = chr '+' then parseFlags { cv with plusSign := true } fmt
    else (cv, c :: fmt)

/-- `*fmt >= '0' && *fmt <= '9'`. -/
def isDigit (c : UInt8) : Bool := chr '0' ≤ c && c ≤ chr '9'

/-- The loop over the digits of a width or a precision. -/
def parseNumber (n : Int32) : List UInt8 → Int32 × List UInt8
  | [] => (n, [])
  | c :: fmt =>
    if isDigit c then parseNumber (n * 10 + (c - chr '0').toUInt32.toInt32) fmt else (n, c :: fmt)

/-- A number, or a `*` for an argument. -/
def parseStar (ap : VaList) : List UInt8 → Int32 × VaList × List UInt8
  | [] => (0, ap, [])
  | c :: fmt =>
    if c = chr '*' then (vaInt ap, ap.next, fmt)
    else
      let (n, rest) := parseNumber 0 (c :: fmt)
      (n, ap, rest)

/-- The precision, if there is one. -/
def parsePrecision (ap : VaList) : List UInt8 → Int32 × VaList × List UInt8
  | [] => (-1, ap, [])
  | c :: fmt => if c = chr '.' then parseStar ap fmt else (-1, ap, c :: fmt)

/-- The length modifier. -/
def parseLength (cv : Conversion) : List UInt8 → Conversion × List UInt8
  | [] => (cv, [])
  | c :: fmt =>
    if c = chr 'l' then
      if fmt.headD 0 = chr 'l' then ({ cv with isLongLong := true }, fmt.tail)
      else ({ cv with isLong := true }, fmt)
    else if c = chr 'z' then ({ cv with isSize := true }, fmt)
    else if c = chr 'h' then if fmt.headD 0 = chr 'h' then (cv, fmt.tail) else (cv, fmt)
    else (cv, c :: fmt)

/-- What stands between the `%` and the specifier. -/
def parseConversion (ap : VaList) (fmt : List UInt8) : Conversion × VaList × List UInt8 :=
  let (cv, fmt) := parseFlags {} fmt
  let (width, ap, fmt) := parseStar ap fmt
  let (prec, ap, fmt) := parsePrecision ap fmt
  let (cv, fmt) := parseLength { cv with width := width, prec := prec } fmt
  (cv, ap, fmt)

/-- The argument of `%d`, as wide as the length modifier says. -/
def vaSigned (cv : Conversion) (ap : VaList) : Int64 :=
  if cv.isLongLong || cv.isLong || cv.isSize then (ap 0).toInt64 else (vaInt ap).toInt64

/-- The argument of `%u`, `%x` and `%o`. -/
def vaUnsigned (cv : Conversion) (ap : VaList) : UInt64 :=
  if cv.isLongLong || cv.isLong || cv.isSize then ap 0 else (ap 0).toUInt32.toUInt64

/-- `%d`, of a value. -/
def fmtSigned (ctx : PrintCtx) (cv : Conversion) (v : Int64) : PrintCtx × Int32 :=
  let neg := v < 0
  let uv := if neg then (-v).toUInt64 else v.toUInt64
  fmtInt ctx uv true neg 10 false cv.width cv.prec cv.leftAlign cv.zeroPad false

variable (stringAt : UInt64 → CString)

/-- The `switch` on the specifier: what is written, how many characters, and the arguments
that are left. -/
def convert (ctx : PrintCtx) (cv : Conversion) (ap : VaList) (spec : UInt8) :
    (PrintCtx × Int32) × VaList :=
  if spec = chr 'd' ∨ spec = chr 'i' then (fmtSigned ctx cv (vaSigned cv ap), ap.next)
  else if spec = chr 'u' then
    (fmtInt ctx (vaUnsigned cv ap) false false 10 false cv.width cv.prec cv.leftAlign cv.zeroPad
      false, ap.next)
  else if spec = chr 'x' ∨ spec = chr 'X' then
    (fmtInt ctx (vaUnsigned cv ap) false false 16 (spec = chr 'X') cv.width cv.prec cv.leftAlign
      cv.zeroPad cv.altForm, ap.next)
  else if spec = chr 'o' then
    (fmtInt ctx (vaUnsigned cv ap) false false 8 false cv.width cv.prec cv.leftAlign cv.zeroPad
      cv.altForm, ap.next)
  else if spec = chr 'p' then
    let ctx := ctxPutchar (ctxPutchar ctx (chr '0')) (chr 'x')
    let width := if cv.width > 2 then cv.width - 2 else 0
    let (ctx, count) :=
      fmtInt ctx (ap 0) false false 16 false width cv.prec cv.leftAlign true false
    ((ctx, 2 + count), ap.next)
  else if spec = chr 's' then
    let s := if ap 0 = 0 then none else some (stringAt (ap 0)).chars
    (ctxWriteStr ctx s cv.width cv.prec cv.leftAlign false, ap.next)
  else if spec = chr 'c' then
    let c := (ap 0).toUInt8
    let s := if c = 0 then [] else [c]
    (ctxWriteStr ctx (some s) cv.width (-1) cv.leftAlign false, ap.next)
  else if spec = chr '%' then ((ctxPutchar ctx (chr '%'), 1), ap)
  else ((ctxPutchar (ctxPutchar ctx (chr '%')) spec, 2), ap)

/-- How a formatter fails to return. -/
inductive FmtStop where
  | outOfFuel
  /-- It reads behind the terminating NUL. -/
  | pastEnd
deriving DecidableEq, Repr

/-- The loop of `vfmt`. -/
def vfmtLoop : Nat → PrintCtx → Int32 → VaList → List UInt8 → Except FmtStop (PrintCtx × Int32)
  | 0, _, _, _, _ => .error .outOfFuel
  | _ + 1, ctx, total, _, [] => .ok (ctx, total)
  | fuel + 1, ctx, total, ap, c :: fmt =>
    if c ≠ chr '%' then vfmtLoop fuel (ctxPutchar ctx c) (total + 1) ap fmt
    else
      let (cv, ap, rest) := parseConversion ap fmt
      match rest with
      -- the NUL is taken for the specifier, and the loop goes on behind it
      | [] => .error .pastEnd
      | spec :: rest =>
        let ((ctx, count), ap) := convert stringAt ctx cv ap spec
        vfmtLoop fuel ctx (total + count) ap rest

/-- `vfmt`. -/
def vfmt (fuel : Nat) (ctx : PrintCtx) (fmt : CString) (ap : VaList) :
    Except FmtStop (PrintCtx × Int32) := do
  let (ctx, total) ← vfmtLoop stringAt fuel ctx 0 ap fmt.chars
  if ctx.isBuf && ctx.size > 0 then
    return ({ ctx with mem := set ctx.mem (byteAt ctx.buf ctx.pos) 0 }, total)
  else return (ctx, total)

/-- `kvprintf`: what goes to the devices, and the count. -/
def kvprintf (fuel : Nat) (mem : Mem) (fmt : CString) (ap : VaList) :
    Except FmtStop (List UInt8 × Int32) := do
  let (ctx, total) ← vfmt stringAt fuel ⟨0, 0, 0, false, mem, []⟩ fmt ap
  return (ctx.devices, total)

/-- `kvsnprintf`: the memory it leaves, and the count. -/
def kvsnprintf (fuel : Nat) (mem : Mem) (buf size : Nat) (fmt : CString) (ap : VaList) :
    Except FmtStop (Mem × Int32) := do
  let (ctx, total) ← vfmt stringAt fuel ⟨buf, size, 0, true, mem, []⟩ fmt ap
  return (ctx.mem, total)

end PolandOS.Printf
