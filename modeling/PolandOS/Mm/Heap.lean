import PolandOS.Machine
import PolandOS.Lib.ByteMem

/-! # The kernel heap allocator

`kernel/arch/x86_64/mm/heap.c`: a free list of headed blocks in address order,
threaded through the headers in memory. The functions below read and write the
header fields in the order the C code does.
-/

namespace PolandOS.Heap

open ByteMem

/-- `HEAP_MAGIC`. -/
def heapMagic : Nat := 0xDEADBEEF

/-- `ALIGN`. -/
def align : Nat := 16

/-- `ALIGN_MASK`. -/
def alignMask : Nat := align - 1

/-- `sizeof(BlockHeader)`. -/
def headerSize : Nat := 32

/-- `x & ~ALIGN_MASK` on `u64`. -/
def clearAlign (x : Nat) : Nat := x &&& (2 ^ 64 - align)

/-- `HEADER_ALIGNED`. -/
def headerAligned : Nat := clearAlign (headerSize + alignMask)

@[simp] theorem headerAligned_eq : headerAligned = 32 := by decide

/-! ## Header fields in memory -/

/-- `blk->magic`. -/
def magic (m : Mem) (blk : Nat) : Nat := readLE m blk 4

/-- `blk->used`. -/
def used (m : Mem) (blk : Nat) : Nat := readLE m (blk + 4) 4

/-- `blk->size`. -/
def size (m : Mem) (blk : Nat) : Nat := readLE m (blk + 8) 8

/-- `blk->prev`. -/
def prev (m : Mem) (blk : Nat) : Nat := readLE m (blk + 16) 8

/-- `blk->next`. -/
def next (m : Mem) (blk : Nat) : Nat := readLE m (blk + 24) 8

def setMagic (m : Mem) (blk v : Nat) : Mem := writeLE m blk 4 v
def setUsed (m : Mem) (blk v : Nat) : Mem := writeLE m (blk + 4) 4 v
def setSize (m : Mem) (blk v : Nat) : Mem := writeLE m (blk + 8) 8 v
def setPrev (m : Mem) (blk v : Nat) : Mem := writeLE m (blk + 16) 8 v
def setNext (m : Mem) (blk v : Nat) : Mem := writeLE m (blk + 24) 8 v

/-- Memory and the static `heap_head`. -/
structure HeapState where
  mem : Mem
  heapHead : Nat

/-! ## heap_init -/

/-- `heap_init`. -/
def heapInit (m : Mem) (heapStart heapSize : Nat) : Except Halt HeapState :=
  let alignedStart := clearAlign (add64 heapStart alignMask)
  let wasted := sub64 alignedStart heapStart
  if heapSize ≤ add64 wasted headerAligned then
    .error (.panic "heap_init: sterta zbyt mala!\n")
  else
    let m := setMagic m alignedStart heapMagic
    let m := setUsed m alignedStart 0
    let m := setSize m alignedStart (sub64 (sub64 heapSize wasted) headerAligned)
    let m := setPrev m alignedStart 0
    let m := setNext m alignedStart 0
    .ok ⟨m, alignedStart⟩

/-! ## kmalloc and kcalloc -/

/-- The writes of `maybe_split`: a free block is put at `new_off` and linked in. -/
def splitBlock (m : Mem) (blk sz : Nat) : Mem :=
  let newOff := add64 headerAligned sz
  let nextBlk := add64 blk newOff
  let m := setMagic m nextBlk heapMagic
  let m := setUsed m nextBlk 0
  let m := setSize m nextBlk (sub64 (size m blk) newOff)
  let m := setPrev m nextBlk blk
  let m := setNext m nextBlk (next m blk)
  let m := if next m blk ≠ 0 then setPrev m (next m blk) nextBlk else m
  let m := setNext m blk nextBlk
  setSize m blk sz

/-- `maybe_split`. -/
def maybeSplit (m : Mem) (blk sz : Nat) : Mem :=
  let minSplit := headerAligned + align
  if add64 sz minSplit ≤ size m blk then splitBlock m blk sz else m

/-- The `while (cur)` loop of `kmalloc`. The list is not changed while it is
walked, so a walk that has not ended after `2 ^ 64` blocks has met some address
twice and never ends. -/
def kmallocLoop (aligned : Nat) : Nat → Mem → Nat → Except Halt (Nat × Mem)
  | 0, _, _ => .error .diverges
  | n + 1, m, cur =>
    if cur = 0 then .ok (0, m)
    else if magic m cur ≠ heapMagic then
      .error (.panic "kmalloc: korupcja sterty! blok=%p magic=0x%x\n")
    else if used m cur = 0 ∧ aligned ≤ size m cur then
      .ok (add64 cur headerAligned, setUsed (maybeSplit m cur aligned) cur 1)
    else kmallocLoop aligned n m (next m cur)

/-- `kmalloc`. The result is the pointer returned and the state after the call. -/
def kmalloc (s : HeapState) (sz : Nat) : Except Halt (Nat × HeapState) :=
  if sz = 0 ∨ s.heapHead = 0 then .ok (0, s)
  else
    match kmallocLoop (clearAlign (add64 sz alignMask)) (2 ^ 64) s.mem s.heapHead with
    | .ok (p, m) => .ok (p, { s with mem := m })
    | .error e => .error e

/-- `kcalloc`. -/
def kcalloc (s : HeapState) (count sz : Nat) : Except Halt (Nat × HeapState) :=
  let total := mul64 count sz
  match kmalloc s total with
  | .ok (p, s) => .ok (p, if p ≠ 0 then { s with mem := memset s.mem p 0 total } else s)
  | .error e => .error e

/-! ## kfree -/

/-- The writes by which `kfree` makes `right` part of `left`, for either
neighbour. -/
def mergeBlocks (m : Mem) (left right : Nat) : Mem :=
  let m := setSize m left (add64 (size m left) (add64 headerAligned (size m right)))
  let m := setNext m left (next m right)
  let m := if next m right ≠ 0 then setPrev m (next m right) left else m
  setMagic m right 0

/-- "Coalesce with next block if it's free". -/
def coalesceNext (m : Mem) (blk : Nat) : Except Halt Mem :=
  let nxt := next m blk
  if nxt ≠ 0 ∧ used m nxt = 0 then
    if magic m nxt ≠ heapMagic then
      .error (.panic "kfree: korupcja nastepnego bloku! blok=%p\n")
    else .ok (mergeBlocks m blk nxt)
  else .ok m

/-- "Coalesce with previous block if it's free". -/
def coalescePrev (m : Mem) (blk : Nat) : Except Halt Mem :=
  let prv := prev m blk
  if prv ≠ 0 ∧ used m prv = 0 then
    if magic m prv ≠ heapMagic then
      .error (.panic "kfree: korupcja poprzedniego bloku! blok=%p\n")
    else .ok (mergeBlocks m prv blk)
  else .ok m

/-- `kfree`. -/
def kfree (s : HeapState) (ptr : Nat) : Except Halt HeapState :=
  if ptr = 0 then .ok s
  else
    let blk := sub64 ptr headerAligned
    if magic s.mem blk ≠ heapMagic then
      .error (.panic "kfree: korupcja sterty! ptr=%p\n")
    else if used s.mem blk = 0 then
      .error (.panic "kfree: podwojne zwolnienie! ptr=%p\n")
    else
      match coalesceNext (setUsed s.mem blk 0) blk with
      | .error e => .error e
      | .ok m =>
        match coalescePrev m blk with
        | .error e => .error e
        | .ok m => .ok { s with mem := m }

/-! ## krealloc -/

/-- `krealloc`. -/
def krealloc (s : HeapState) (ptr newSize : Nat) : Except Halt (Nat × HeapState) :=
  if ptr = 0 then kmalloc s newSize
  else if newSize = 0 then
    match kfree s ptr with
    | .ok s => .ok (0, s)
    | .error e => .error e
  else
    let blk := sub64 ptr headerAligned
    if magic s.mem blk ≠ heapMagic then
      .error (.panic "krealloc: korupcja sterty! ptr=%p\n")
    else
      let aligned := clearAlign (add64 newSize alignMask)
      if aligned ≤ size s.mem blk then .ok (ptr, { s with mem := maybeSplit s.mem blk aligned })
      else
        match kmalloc s newSize with
        | .error e => .error e
        | .ok (newPtr, s) =>
          if newPtr = 0 then .ok (0, s)
          else
            match kfree { s with mem := memcpy s.mem newPtr ptr (size s.mem blk) } ptr with
            | .ok s => .ok (newPtr, s)
            | .error e => .error e

end PolandOS.Heap
