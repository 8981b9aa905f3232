import PolandOS.Machine
import PolandOS.Lib.BitArray

/-! # The physical memory manager

`kernel/arch/x86_64/mm/pmm.c`: a bitmap with one bit for each 4 KiB frame, kept
in one of the usable regions of the memory map and reached, like every frame,
through the direct map at `hhdm_offset`. A set bit is a frame in use.
-/

namespace PolandOS.Pmm

open ByteMem BitArray

/-- `PAGE_SIZE`. -/
def pageSize : Nat := 4096

/-- `BITS_PER_BYTE`. -/
def bitsPerByte : Nat := 8

/-- `LIMINE_MEMMAP_USABLE`. -/
def memmapUsable : Nat := 0

/-- `struct limine_memmap_entry`. -/
structure MemmapEntry where
  base : Nat
  length : Nat
  type : Nat
deriving DecidableEq, Repr

/-- Memory and the statics of the manager. -/
structure PmmState where
  mem : Mem
  hhdmOffset : Nat
  bitmap : Nat
  bitmapFrames : Nat
  totalMem : Nat
  usedMem : Nat
  lastFree : Nat
  maxPhys : Nat

/-- The statics as the kernel is loaded. -/
def PmmState.boot (m : Mem) : PmmState := ⟨m, 0, 0, 0, 0, 0, 0, 0⟩

/-! ## Bitmap helpers -/

/-- `bitmap_set`. -/
def bitmapSet (s : PmmState) (frame : Nat) : PmmState :=
  { s with mem := setBit s.mem s.bitmap frame }

/-- `bitmap_clear`. -/
def bitmapClear (s : PmmState) (frame : Nat) : PmmState :=
  { s with mem := clearBit s.mem s.bitmap frame }

/-- `bitmap_test`. -/
def bitmapTest (s : PmmState) (frame : Nat) : Bool := test s.mem s.bitmap frame

/-- `bitmap_set(frame); used_mem += PAGE_SIZE`. -/
def markUsed (s : PmmState) (frame : Nat) : PmmState :=
  { bitmapSet s frame with usedMem := add64 s.usedMem pageSize }

/-! ## pmm_init -/

/-- The first pass: `highest_addr` and the new `max_phys`. -/
def scanEntries (maxPhys : Nat) (entries : List MemmapEntry) : Nat × Nat :=
  entries.foldl (fun (highest, maxPhys) e =>
    let fin := add64 e.base e.length
    (if e.type = memmapUsable ∧ highest < fin then fin else highest,
      if maxPhys < fin then fin else maxPhys)) (0, maxPhys)

/-- `bitmap_size`: one bit a frame, rounded up to whole pages. -/
def bitmapSize (frames : Nat) : Nat :=
  let bytes := sub64 (add64 frames bitsPerByte) 1 / bitsPerByte
  sub64 (add64 bytes pageSize) 1 &&& (2 ^ 64 - pageSize)

/-- The second pass: where the bitmap goes, 0 if no region can hold it. -/
def placeBitmap (entries : List MemmapEntry) (size hhdmOffset : Nat) : Nat :=
  match entries.find? fun e => e.type = memmapUsable ∧ size ≤ e.length with
  | some e => add64 e.base hhdmOffset
  | none => 0

/-- The inner loop of the third pass, over the frames of one region. -/
def clearFrames (s : PmmState) (f : Nat) : Nat → PmmState
  | 0 => s
  | n + 1 => clearFrames (if f < s.bitmapFrames then bitmapClear s f else s) (f + 1) n

/-- The third pass: usable memory is added up and its frames are cleared. -/
def clearUsable (s : PmmState) : List MemmapEntry → PmmState
  | [] => s
  | e :: entries =>
    if e.type = memmapUsable then
      let s := { s with totalMem := add64 s.totalMem e.length }
      clearUsable (clearFrames s (e.base / pageSize) (e.length / pageSize)) entries
    else clearUsable s entries

/-- The fourth pass: the bitmap's own pages are marked. -/
def markBitmapPages (s : PmmState) (frame : Nat) : Nat → PmmState
  | 0 => s
  | n + 1 => markBitmapPages (if bitmapTest s frame then s else markUsed s frame) (frame + 1) n

/-- The last pass: the clear bits among the first `n`. -/
def countFree (s : PmmState) : Nat → Nat
  | 0 => 0
  | n + 1 => countFree s n + if bitmapTest s n then 0 else 1

/-- `pmm_init`. -/
def pmmInit (s : PmmState) (entries : List MemmapEntry) (hhdmOff : Nat) :
    Except Halt PmmState :=
  let (highest, maxPhys) := scanEntries s.maxPhys entries
  let frames := sub64 (add64 highest pageSize) 1 / pageSize
  let size := bitmapSize frames
  let bitmap := placeBitmap entries size hhdmOff
  if bitmap = 0 then .error (.panic "PMM: Nie znaleziono miejsca na bitmap!\n")
  else
    let s := { s with
      hhdmOffset := hhdmOff, maxPhys := maxPhys, bitmapFrames := frames, bitmap := bitmap,
      mem := memset s.mem bitmap 0xFF size }
    let s := clearUsable s entries
    let s := markBitmapPages s (sub64 bitmap hhdmOff / pageSize) (size / pageSize)
    .ok { s with usedMem := sub64 s.totalMem (mul64 (countFree s frames) pageSize) }

/-! ## pmm_alloc -/

/-- The body of both search loops: frame `i` is taken and zeroed. -/
def takeFrame (s : PmmState) (i : Nat) : Nat × PmmState :=
  let phys := mul64 i pageSize
  let s := markUsed s i
  (phys, { s with
    lastFree := add64 i 1
    mem := memset s.mem (add64 phys s.hhdmOffset) 0 pageSize })

/-- One search loop, over `n` frames from `i` on. -/
def allocLoop (s : PmmState) (i : Nat) : Nat → Option (Nat × PmmState)
  | 0 => none
  | n + 1 => if bitmapTest s i then allocLoop s (i + 1) n else some (takeFrame s i)

/-- `pmm_alloc`: from the hint up, then from 0 up to the hint. -/
def pmmAlloc (s : PmmState) : Nat × PmmState :=
  match allocLoop s s.lastFree (s.bitmapFrames - s.lastFree) with
  | some r => r
  | none =>
    match allocLoop s 0 s.lastFree with
    | some r => r
    | none => (0, s)

/-! ## pmm_free -/

/-- `pmm_free`. -/
def pmmFree (s : PmmState) (phys : Nat) : PmmState :=
  let frame := phys / pageSize
  if s.bitmapFrames ≤ frame then s
  else if bitmapTest s frame then
    let s := bitmapClear s frame
    { s with
      usedMem := sub64 s.usedMem pageSize
      lastFree := if frame < s.lastFree then frame else s.lastFree }
  else s

/-! ## pmm_alloc_pages -/

/-- The first inner loop: `ok`. -/
def pagesClear (s : PmmState) (i : Nat) : Nat → Bool
  | 0 => true
  | n + 1 => if bitmapTest s i then false else pagesClear s (add64 i 1) n

/-- The second inner loop. -/
def markPages (s : PmmState) (i : Nat) : Nat → PmmState
  | 0 => s
  | n + 1 => markPages (markUsed s i) (add64 i 1) n

/-- The branch `if (ok)`: the frames are taken and zeroed. -/
def takePages (s : PmmState) (i count : Nat) : Nat × PmmState :=
  let phys := mul64 i pageSize
  let s := markPages s i count
  (phys, { s with mem := memset s.mem (add64 phys s.hhdmOffset) 0 (mul64 count pageSize) })

/-- The outer loop. A loop that has not ended after `2 ^ 64` rounds has brought
`i` back to its first value and never ends. -/
def allocPagesLoop (s : PmmState) (count : Nat) : Nat → Nat → Except Halt (Nat × PmmState)
  | 0, _ => .error .diverges
  | n + 1, i =>
    if add64 i count ≤ s.bitmapFrames then
      if pagesClear s i count then .ok (takePages s i count)
      else allocPagesLoop s count n (add64 i 1)
    else .ok (0, s)

/-- `pmm_alloc_pages`. -/
def pmmAllocPages (s : PmmState) (count : Nat) : Except Halt (Nat × PmmState) :=
  if count = 0 then .ok (0, s) else allocPagesLoop s count (2 ^ 64) 0

/-! ## Stats -/

/-- `pmm_total_bytes`. -/
def pmmTotalBytes (s : PmmState) : Nat := s.totalMem

/-- `pmm_used_bytes`. -/
def pmmUsedBytes (s : PmmState) : Nat := s.usedMem

/-- `pmm_free_bytes`. -/
def pmmFreeBytes (s : PmmState) : Nat :=
  if s.usedMem < s.totalMem then sub64 s.totalMem s.usedMem else 0

end PolandOS.Pmm
