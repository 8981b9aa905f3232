import PolandOS.Machine
import PolandOS.Lib.ByteMem

/-! # The virtual memory manager

`kernel/arch/x86_64/mm/vmm.c`: four-level page tables. A table is a page of 512
`u64` entries and is read and written through the direct map. Frames come from
`pmm_alloc`, here a parameter; `invlpg` and `write_cr3`, which move no data, are
left out.
-/

namespace PolandOS.Vmm

open ByteMem

/-- `PAGE_SIZE`. -/
def pageSize : Nat := 0x1000

/-- `PAGE_PRESENT`. -/
def pagePresent : Nat := 2 ^ 0

/-- `PAGE_WRITE`. -/
def pageWrite : Nat := 2 ^ 1

/-- `PAGE_HUGE`. -/
def pageHuge : Nat := 2 ^ 7

/-- `PAGE_GLOBAL`. -/
def pageGlobal : Nat := 2 ^ 8

/-- `PHYS_ADDR_MASK`. -/
def physAddrMask : Nat := 0x000FFFFFFFFFF000

/-- `PML4_IDX`. -/
def pml4Idx (v : Nat) : Nat := (v >>> 39) &&& 0x1FF

/-- `PDPT_IDX`. -/
def pdptIdx (v : Nat) : Nat := (v >>> 30) &&& 0x1FF

/-- `PD_IDX`. -/
def pdIdx (v : Nat) : Nat := (v >>> 21) &&& 0x1FF

/-- `PT_IDX`. -/
def ptIdx (v : Nat) : Nat := (v >>> 12) &&& 0x1FF

/-- The frame allocator: `pmm_alloc`, which may write memory, and
`pmm_get_max_phys`. -/
structure Allocator (σ : Type) where
  pmmAlloc : σ → Mem → Nat × σ × Mem
  pmmGetMaxPhys : σ → Nat

/-- Memory, the statics `hhdm_offset` and `kernel_pml4`, and the allocator. -/
structure VmmState (σ : Type) where
  mem : Mem
  hhdmOffset : Nat
  kernelPml4 : Nat
  pmm : σ

variable {σ : Type} (A : Allocator σ)

/-- `table[index]`. -/
def entry (m : Mem) (table index : Nat) : Nat := readLE m (add64 table (8 * index)) 8

/-- `table[index] = v`. -/
def setEntry (s : VmmState σ) (table index v : Nat) : VmmState σ :=
  { s with mem := writeLE s.mem (add64 table (8 * index)) 8 v }

/-- `e & PAGE_PRESENT`, as a truth value. -/
def present (e : Nat) : Bool := e &&& pagePresent != 0

/-- `e & PAGE_HUGE`, as a truth value. -/
def huge (e : Nat) : Bool := e &&& pageHuge != 0

/-- `phys_to_virt`. -/
def physToVirt (s : VmmState σ) (phys : Nat) : Nat := add64 phys s.hhdmOffset

/-- `get_or_create_table`. -/
def getOrCreateTable (s : VmmState σ) (table index flags : Nat) :
    Except Halt (Nat × VmmState σ) :=
  let e := entry s.mem table index
  if present e then .ok (physToVirt s (e &&& physAddrMask), s)
  else
    let (phys, pmm, mem) := A.pmmAlloc s.pmm s.mem
    if phys = 0 then .error (.panic "VMM: brak pamieci na tablice stron!\n")
    else
      let s := setEntry { s with pmm := pmm, mem := mem } table index
        (phys ||| flags ||| pagePresent)
      .ok (physToVirt s phys, s)

/-- `vmm_map`. -/
def vmmMap (s : VmmState σ) (virt phys flags : Nat) : Except Halt (VmmState σ) := do
  let (pdpt, s) ← getOrCreateTable A s s.kernelPml4 (pml4Idx virt) (pageWrite ||| pagePresent)
  let (pd, s) ← getOrCreateTable A s pdpt (pdptIdx virt) (pageWrite ||| pagePresent)
  let (pt, s) ← getOrCreateTable A s pd (pdIdx virt) (pageWrite ||| pagePresent)
  return setEntry s pt (ptIdx virt) ((phys &&& physAddrMask) ||| flags ||| pagePresent)

/-- `vmm_unmap`. -/
def vmmUnmap (s : VmmState σ) (virt : Nat) : VmmState σ :=
  if s.kernelPml4 = 0 then s
  else
    let pml4e := entry s.mem s.kernelPml4 (pml4Idx virt)
    if !present pml4e then s
    else
      let pdpte := entry s.mem (physToVirt s (pml4e &&& physAddrMask)) (pdptIdx virt)
      if !present pdpte then s
      else
        let pde := entry s.mem (physToVirt s (pdpte &&& physAddrMask)) (pdIdx virt)
        if !present pde then s
        else setEntry s (physToVirt s (pde &&& physAddrMask)) (ptIdx virt) 0

/-- `vmm_get_phys`. -/
def vmmGetPhys (s : VmmState σ) (virt : Nat) : Nat :=
  if s.kernelPml4 = 0 then 0
  else
    let pml4e := entry s.mem s.kernelPml4 (pml4Idx virt)
    if !present pml4e then 0
    else
      let pdpte := entry s.mem (physToVirt s (pml4e &&& physAddrMask)) (pdptIdx virt)
      if !present pdpte then 0
      else if huge pdpte then (pdpte &&& (2 ^ 64 - 2 ^ 30)) ||| (virt &&& 0x3FFFFFFF)
      else
        let pde := entry s.mem (physToVirt s (pdpte &&& physAddrMask)) (pdIdx virt)
        if !present pde then 0
        else if huge pde then (pde &&& (2 ^ 64 - 2 ^ 21)) ||| (virt &&& 0x1FFFFF)
        else
          let pte := entry s.mem (physToVirt s (pde &&& physAddrMask)) (ptIdx virt)
          if !present pte then 0 else (pte &&& physAddrMask) ||| (virt &&& 0xFFF)

/-! ## vmm_map_region -/

/-- `n` rounds of its loop, from `off` on. -/
def regionLoop (s : VmmState σ) (virt flags off : Nat) : Nat → Except Halt (VmmState σ)
  | 0 => .ok s
  | n + 1 =>
    let (phys, pmm, mem) := A.pmmAlloc s.pmm s.mem
    if phys = 0 then .error (.panic "vmm_map_region: brak pamieci fizycznej!\n")
    else do
      let s ← vmmMap A { s with pmm := pmm, mem := mem } (add64 virt off) phys flags
      regionLoop s virt flags (add64 off pageSize) n

/-- `aligned_size`. -/
def alignedSize (size : Nat) : Nat :=
  sub64 (add64 size pageSize) 1 &&& (2 ^ 64 - 1 - sub64 pageSize 1)

/-- `vmm_map_region`. -/
def vmmMapRegion (s : VmmState σ) (virt size flags : Nat) : Except Halt (VmmState σ) :=
  regionLoop A s virt flags 0 (alignedSize size / pageSize)

/-! ## vmm_init -/

/-- One round of the loop that maps physical memory with 2 MiB pages. -/
def mapHuge (s : VmmState σ) (phys : Nat) : Except Halt (VmmState σ) := do
  let virt := add64 phys s.hhdmOffset
  let (pdpt, s) ← getOrCreateTable A s s.kernelPml4 (pml4Idx virt) (pageWrite ||| pagePresent)
  let (pd, s) ← getOrCreateTable A s pdpt (pdptIdx virt) (pageWrite ||| pagePresent)
  return setEntry s pd (pdIdx virt)
    (phys ||| pagePresent ||| pageWrite ||| pageHuge ||| pageGlobal)

/-- `n` rounds of that loop, from `phys` on. -/
def hhdmLoop (s : VmmState σ) (phys : Nat) : Nat → Except Halt (VmmState σ)
  | 0 => .ok s
  | n + 1 => do
    let s ← mapHuge A s phys
    hhdmLoop s (add64 phys 0x200000) n

/-- `n` rounds of the loop that maps the kernel image with 4 KiB pages. -/
def kernelLoop (s : VmmState σ) (kernelVirt kernelPhys off : Nat) :
    Nat → Except Halt (VmmState σ)
  | 0 => .ok s
  | n + 1 => do
    let s ← vmmMap A s (add64 kernelVirt off) (add64 kernelPhys off)
      (pagePresent ||| pageWrite ||| pageGlobal)
    kernelLoop s kernelVirt kernelPhys (add64 off pageSize) n

/-- `hhdm_map_size`. -/
def hhdmMapSize (maxPhys : Nat) : Nat :=
  let maxPhys := if maxPhys < 4 * 1024 * 1024 * 1024 then 4 * 1024 * 1024 * 1024 else maxPhys
  add64 maxPhys 0x1FFFFF &&& (2 ^ 64 - 2 ^ 21)

/-- `ksize_aligned`. -/
def ksizeAligned (kernelSize : Nat) : Nat := add64 kernelSize 0xFFF &&& (2 ^ 64 - 2 ^ 12)

/-- `vmm_init`. -/
def vmmInit (s : VmmState σ) (kernelPhys kernelVirt kernelSize : Nat) :
    Except Halt (VmmState σ) :=
  let (pml4Phys, pmm, mem) := A.pmmAlloc s.pmm s.mem
  if pml4Phys = 0 then .error (.panic "VMM: nie mozna przydzielic PML4!\n")
  else do
    let s := { s with pmm := pmm, mem := mem, kernelPml4 := physToVirt s pml4Phys }
    let s ← hhdmLoop A s 0 (hhdmMapSize (A.pmmGetMaxPhys s.pmm) / 0x200000)
    kernelLoop A s kernelVirt kernelPhys 0 (ksizeAligned kernelSize / pageSize)

end PolandOS.Vmm
