import PolandOS.Drivers.Pci
import Mathlib.Tactic.IntervalCases

/-! # Configuration accesses and the scan for devices

`kernel/drivers/pci.c`: the two ways to the configuration space, the accesses to parts of a
register, and `pci_init`. `pci_scan_exact`: the devices found are the functions that answer, in
their order, whichever way they are reached. `busmaster_clears_errors`: what
`pci_enable_busmaster` does to a function, and that a scan does not see it.
-/

namespace PolandOS.Pci

/-! ## The host bridge -/

/-- The registers of all functions: bus, device, function and the number of the register. -/
abbrev Registers := Nat → Nat → Nat → Nat → UInt32

/-- `pci_mcfg_base` and `pci_hhdm`, and the configuration space behind the host bridge. -/
structure PciHost where
  mcfgBase : Nat
  hhdm : Nat
  registers : Registers
  mcfgBase_lt : mcfgBase < 2 ^ 64
  hhdm_lt : hhdm < 2 ^ 64

/-- A register as port 0xCFC shows it, behind a write to port 0xCF8. -/
def PciHost.portRead (h : PciHost) (addr : UInt32) : UInt32 :=
  let a := addr.toNat
  if a / 2 ^ 31 = 0 then 0xFFFFFFFF
  else h.registers (a / 2 ^ 16 % 256) (a / 2 ^ 11 % 32) (a / 2 ^ 8 % 8) (a / 4 % 64)

/-- A register at a virtual address of the memory that the host bridge maps. -/
def PciHost.mmioRead (h : PciHost) (va : Nat) : UInt32 :=
  let a := sub64 (sub64 va h.hhdm) h.mcfgBase
  h.registers (a / 2 ^ 20 % 256) (a / 2 ^ 15 % 32) (a / 2 ^ 12 % 8) (a / 4 % 1024)

/-- A register gets the value that the device makes of it. -/
def Registers.set (r : Registers) (bus slot func reg : Nat) (v : UInt32) : Registers :=
  fun b s f k => if b = bus ∧ s = slot ∧ f = func ∧ k = reg then v else r b s f k

/-- What a device stores where `val` is written over `old`. -/
abbrev OnWrite := UInt32 → UInt32 → UInt32

/-- A write to port 0xCFC. -/
def PciHost.portWrite (device : OnWrite) (h : PciHost) (addr val : UInt32) : PciHost :=
  let a := addr.toNat
  if a / 2 ^ 31 = 0 then h
  else
    let v := device (h.portRead addr) val
    { h with
      registers := h.registers.set (a / 2 ^ 16 % 256) (a / 2 ^ 11 % 32) (a / 2 ^ 8 % 8) (a / 4 % 64) v }

def PciHost.mmioWrite (device : OnWrite) (h : PciHost) (va : Nat) (val : UInt32) : PciHost :=
  let a := sub64 (sub64 va h.hhdm) h.mcfgBase
  let v := device (h.mmioRead va) val
  { h with
    registers :=
      h.registers.set (a / 2 ^ 20 % 256) (a / 2 ^ 15 % 32) (a / 2 ^ 12 % 8) (a / 4 % 1024) v }

/-! ## Accesses -/

/-- `ecam_ptr`. -/
def ecamPtr (h : PciHost) (bus slot func offset : UInt8) : Nat :=
  add64 (add64 (add64 (add64 (add64 h.mcfgBase h.hhdm) (bus.toNat <<< 20)) (slot.toNat <<< 15))
    (func.toNat <<< 12)) (offset.toNat &&& 0xFFC)

/-- The address for port 0xCF8. -/
def portAddr (bus slot func offset : UInt8) : UInt32 :=
  (0x80000000 : UInt32) ||| (bus.toUInt32 <<< 16) ||| (slot.toUInt32 <<< 11) |||
    (func.toUInt32 <<< 8) ||| (offset.toUInt32 &&& 0xFC)

/-- `pci_read32`. -/
def pciRead32 (h : PciHost) (bus slot func offset : UInt8) : UInt32 :=
  if h.mcfgBase ≠ 0 then h.mmioRead (ecamPtr h bus slot func offset)
  else h.portRead (portAddr bus slot func offset)

/-- `pci_read16`. -/
def pciRead16 (read : ConfigSpace) (bus slot func offset : UInt8) : UInt16 :=
  (read bus slot func (offset &&& 0xFC) >>> ((offset &&& 2) * 8).toUInt32).toUInt16

/-- `pci_read8`. -/
def pciRead8 (read : ConfigSpace) (bus slot func offset : UInt8) : UInt8 :=
  (read bus slot func (offset &&& 0xFC) >>> ((offset &&& 3) * 8).toUInt32).toUInt8

/-- `pci_write32`. -/
def pciWrite32 (device : OnWrite) (h : PciHost) (bus slot func offset : UInt8) (val : UInt32) :
    PciHost :=
  if h.mcfgBase ≠ 0 then h.mmioWrite device (ecamPtr h bus slot func offset) val
  else h.portWrite device (portAddr bus slot func offset) val

/-- `pci_write16`. -/
def pciWrite16 (device : OnWrite) (h : PciHost) (bus slot func offset : UInt8) (val : UInt16) :
    PciHost :=
  let cur := pciRead32 h bus slot func (offset &&& 0xFC)
  let shift := ((offset &&& 2) * 8).toUInt32
  let cur := cur &&& ~~~(0xFFFF <<< shift)
  let cur := cur ||| (val.toUInt32 <<< shift)
  pciWrite32 device h bus slot func (offset &&& 0xFC) cur

/-- `PCI_COMMAND`. -/
def pciCommand : UInt8 := 0x04

/-- `pci_enable_busmaster`. -/
def pciEnableBusmaster (device : OnWrite) (h : PciHost) (bus slot func : UInt8) : PciHost :=
  let cmd := pciRead16 (pciRead32 h) bus slot func pciCommand
  pciWrite16 device h bus slot func pciCommand (cmd ||| 0x7)

/-! ## The scan -/

/-- `PCI_MAX_DEVICES`. -/
def pciMaxDevices : Nat := 256

/-- The entry of `pci_devices` that `pci_probe_function` fills. Entries start zeroed, and only
a header of type 0 has BARs. -/
def newDevice (read : ConfigSpace) (bus slot func : UInt8) : PCIDevice where
  vendorId := pciRead16 read bus slot func 0x00
  deviceId := pciRead16 read bus slot func 0x02
  classCode := pciRead8 read bus slot func 0x0B
  subclass := pciRead8 read bus slot func 0x0A
  bus := bus
  slot := slot
  func := func
  bar b := if pciRead8 read bus slot func 0x0E &&& 0x7F = 0 ∧ b < 6 then
    read bus slot func (pciBar0 + UInt8.ofNat (b * 4)) else 0
  irqLine := pciRead8 read bus slot func 0x3C

/-- `pci_probe_function`. -/
def pciProbeFunction (read : ConfigSpace) (bus slot func : UInt8) (devices : List PCIDevice) :
    List PCIDevice :=
  if pciRead16 read bus slot func 0x00 = 0xFFFF then devices
  else if devices.length ≥ pciMaxDevices then devices
  else devices ++ [newDevice read bus slot func]

/-- The body of the loop over the slots. -/
def scanSlot (read : ConfigSpace) (bus slot : UInt8) (devices : List PCIDevice) : List PCIDevice :=
  if pciRead16 read bus slot 0 0x00 = 0xFFFF then devices
  else
    let devices := pciProbeFunction read bus slot 0 devices
    if pciRead8 read bus slot 0 0x0E &&& 0x80 ≠ 0 then
      (List.range' 1 7).foldl (fun ds func => pciProbeFunction read bus slot (UInt8.ofNat func) ds)
        devices
    else devices

/-- `pci_init`: `pci_devices` up to `pci_device_count`. -/
def pciInit (h : PciHost) : List PCIDevice :=
  (List.range 256).foldl (fun ds bus => (List.range 32).foldl (fun ds slot =>
    scanSlot (pciRead32 h) (UInt8.ofNat bus) (UInt8.ofNat slot) ds) ds) []

/-! ## Both ways lead to the same register -/

variable {h : PciHost} {bus slot func offset : UInt8}

theorem and_ffc : ∀ o : Fin 256, o.val &&& 0xFFC = o.val / 4 * 4 := by decide +kernel

theorem and_fc : ∀ o : Fin 256, o.val &&& 0xFC = o.val / 4 * 4 := by decide +kernel

theorem ecamPtr_offset (h : PciHost) (hslot : slot < 32) (hfunc : func < 8) :
    sub64 (sub64 (ecamPtr h bus slot func offset) h.hhdm) h.mcfgBase =
      bus.toNat * 2 ^ 20 + slot.toNat * 2 ^ 15 + func.toNat * 2 ^ 12 + offset.toNat / 4 * 4 := by
  have hoffset := and_ffc ⟨offset.toNat, offset.toNat_lt⟩
  have hslot : slot.toNat < 32 := hslot
  have hfunc : func.toNat < 8 := hfunc
  have hbus := bus.toNat_lt
  have hlt := offset.toNat_lt
  have hbase := h.mcfgBase_lt
  have hhhdm := h.hhdm_lt
  dsimp only at hoffset
  unfold ecamPtr add64 sub64
  rw [hoffset, Nat.shiftLeft_eq, Nat.shiftLeft_eq, Nat.shiftLeft_eq]
  omega

/-- The fields of the address do not overlap. -/
theorem portAddr_toNat (hslot : slot < 32) (hfunc : func < 8) :
    (portAddr bus slot func offset).toNat = 2 ^ 31 + bus.toNat * 2 ^ 16 + slot.toNat * 2 ^ 11 +
      func.toNat * 2 ^ 8 + offset.toNat / 4 * 4 := by
  have hoffset := and_fc ⟨offset.toNat, offset.toNat_lt⟩
  have hslot : slot.toNat < 32 := hslot
  have hfunc : func.toNat < 8 := hfunc
  have hbus := bus.toNat_lt
  have hlt := offset.toNat_lt
  have hbus' : (bus.toUInt32 <<< 16).toNat = bus.toNat * 2 ^ 16 := by
    rw [UInt32.toNat_shiftLeft, UInt8.toNat_toUInt32, Nat.shiftLeft_eq]
    exact Nat.mod_eq_of_lt (by change bus.toNat * 2 ^ 16 < 2 ^ 32; omega)
  have hslot' : (slot.toUInt32 <<< 11).toNat = slot.toNat * 2 ^ 11 := by
    rw [UInt32.toNat_shiftLeft, UInt8.toNat_toUInt32, Nat.shiftLeft_eq]
    exact Nat.mod_eq_of_lt (by change slot.toNat * 2 ^ 11 < 2 ^ 32; omega)
  have hfunc' : (func.toUInt32 <<< 8).toNat = func.toNat * 2 ^ 8 := by
    rw [UInt32.toNat_shiftLeft, UInt8.toNat_toUInt32, Nat.shiftLeft_eq]
    exact Nat.mod_eq_of_lt (by change func.toNat * 2 ^ 8 < 2 ^ 32; omega)
  have hoffset' : (offset.toUInt32 &&& 0xFC).toNat = offset.toNat / 4 * 4 := by
    rw [UInt32.toNat_and, UInt8.toNat_toUInt32]
    exact hoffset
  unfold portAddr
  rw [UInt32.toNat_or, UInt32.toNat_or, UInt32.toNat_or, UInt32.toNat_or, hbus', hslot', hfunc',
    hoffset']
  -- each field lies below the ones before it
  have h₁ := Nat.two_pow_add_eq_or_of_lt (i := 31) (b := bus.toNat * 2 ^ 16) (by omega) 1
  have h₂ := Nat.two_pow_add_eq_or_of_lt (i := 16) (b := slot.toNat * 2 ^ 11) (by omega)
    (2 ^ 15 + bus.toNat)
  have h₃ := Nat.two_pow_add_eq_or_of_lt (i := 11) (b := func.toNat * 2 ^ 8) (by omega)
    (2 ^ 20 + bus.toNat * 2 ^ 5 + slot.toNat)
  have h₄ := Nat.two_pow_add_eq_or_of_lt (i := 8) (b := offset.toNat / 4 * 4) (by omega)
    (2 ^ 23 + bus.toNat * 2 ^ 8 + slot.toNat * 2 ^ 3 + func.toNat)
  have hbit : UInt32.toNat 0x80000000 = 2 ^ 31 * 1 := rfl
  have e₁ : 2 ^ 31 * 1 + bus.toNat * 2 ^ 16 = 2 ^ 16 * (2 ^ 15 + bus.toNat) := by omega
  have e₂ : 2 ^ 16 * (2 ^ 15 + bus.toNat) + slot.toNat * 2 ^ 11 =
      2 ^ 11 * (2 ^ 20 + bus.toNat * 2 ^ 5 + slot.toNat) := by omega
  have e₃ : 2 ^ 11 * (2 ^ 20 + bus.toNat * 2 ^ 5 + slot.toNat) + func.toNat * 2 ^ 8 =
      2 ^ 8 * (2 ^ 23 + bus.toNat * 2 ^ 8 + slot.toNat * 2 ^ 3 + func.toNat) := by omega
  rw [hbit, ← h₁, e₁, ← h₂, e₂, ← h₃, e₃, ← h₄]
  omega

theorem pciRead32_eq (h : PciHost) (bus offset : UInt8) (hslot : slot < 32) (hfunc : func < 8) :
    pciRead32 h bus slot func offset =
      h.registers bus.toNat slot.toNat func.toNat (offset.toNat / 4) := by
  have hslot' : slot.toNat < 32 := hslot
  have hfunc' : func.toNat < 8 := hfunc
  have hbus := bus.toNat_lt
  have hlt := offset.toNat_lt
  unfold pciRead32
  split
  · unfold PciHost.mmioRead
    dsimp only
    rw [ecamPtr_offset h hslot hfunc]
    congr 1 <;> omega
  · unfold PciHost.portRead
    dsimp only
    rw [portAddr_toNat hslot hfunc, if_neg (by omega)]
    congr 1 <;> omega

/-! ## What the scan finds -/

/-- A byte and a word of the configuration space of a function. -/
def PciHost.byte (h : PciHost) (b s f k : Nat) : UInt8 :=
  (h.registers b s f (k / 4) >>> UInt32.ofNat (8 * (k % 4))).toUInt8

def PciHost.word (h : PciHost) (b s f k : Nat) : UInt16 :=
  (h.registers b s f (k / 4) >>> UInt32.ofNat (16 * (k / 2 % 2))).toUInt16

/-- A function answers, and so does function 0 of its device, which has others where the
highest bit of the header type is set. -/
def PciHost.Present (h : PciHost) (x : Nat × Nat × Nat) : Prop :=
  h.word x.1 x.2.1 0 0 ≠ 0xFFFF ∧ h.word x.1 x.2.1 x.2.2 0 ≠ 0xFFFF ∧
    (x.2.2 = 0 ∨ h.byte x.1 x.2.1 0 0x0E &&& 0x80 ≠ 0)

instance (h : PciHost) : DecidablePred h.Present := fun _ =>
  inferInstanceAs (Decidable (_ ∧ _ ∧ _))

/-- The entry for a function. -/
def PciHost.device (h : PciHost) (x : Nat × Nat × Nat) : PCIDevice where
  vendorId := h.word x.1 x.2.1 x.2.2 0
  deviceId := h.word x.1 x.2.1 x.2.2 2
  classCode := h.byte x.1 x.2.1 x.2.2 0x0B
  subclass := h.byte x.1 x.2.1 x.2.2 0x0A
  bus := UInt8.ofNat x.1
  slot := UInt8.ofNat x.2.1
  func := UInt8.ofNat x.2.2
  bar b := if h.byte x.1 x.2.1 x.2.2 0x0E &&& 0x7F = 0 ∧ b < 6 then
    h.registers x.1 x.2.1 x.2.2 (4 + b) else 0
  irqLine := h.byte x.1 x.2.1 x.2.2 0x3C

/-- The functions of a device, and of all devices on all buses. -/
def functions (b s : Nat) : List (Nat × Nat × Nat) := (List.range 8).map fun f => (b, s, f)

def allFunctions : List (Nat × Nat × Nat) :=
  (List.range 256).flatMap fun b => (List.range 32).flatMap fun s => functions b s

/-- A table with a bound is filled. -/
theorem foldl_take {α β : Type} (n : Nat) (step : List α → β → List α) (g : β → List α)
    {xs : List β} (hstep : ∀ x ∈ xs, ∀ l : List α, step (l.take n) x = (l ++ g x).take n)
    (l : List α) : xs.foldl step (l.take n) = (l ++ xs.flatMap g).take n := by
  induction xs generalizing l with
  | nil => rw [List.foldl_nil, List.flatMap_nil, List.append_nil]
  | cons x xs ih =>
      rw [List.foldl_cons, hstep x List.mem_cons_self, List.flatMap_cons, ← List.append_assoc]
      exact ih (fun y hy => hstep y (List.mem_cons_of_mem _ hy)) _

theorem take_push {α : Type} (n : Nat) (l : List α) (a : α) :
    (if (l.take n).length ≥ n then l.take n else l.take n ++ [a]) = (l ++ [a]).take n := by
  rw [List.length_take]
  by_cases hfull : n ≤ l.length
  · rw [if_pos (by omega), List.take_append_of_le_length hfull]
  · rw [if_neg (by omega), List.take_of_length_le (by omega), List.take_of_length_le]
    rw [List.length_append, List.length_singleton]
    omega

/-- A function below 8 in a slot below 32. -/
structure Reaches (bus slot func : UInt8) (x : Nat × Nat × Nat) : Prop where
  bus_eq : bus.toNat = x.1
  slot_eq : slot.toNat = x.2.1
  func_eq : func.toNat = x.2.2
  slot_lt : slot < 32
  func_lt : func < 8

theorem reaches_ofNat {b s f : Nat} (hb : b < 256) (hs : s < 32) (hf : f < 8) :
    Reaches (UInt8.ofNat b) (UInt8.ofNat s) (UInt8.ofNat f) (b, s, f) := by
  have hslot : (UInt8.ofNat s).toNat = s := Nat.mod_eq_of_lt (by omega)
  have hfunc : (UInt8.ofNat f).toNat = f := Nat.mod_eq_of_lt (by omega)
  refine ⟨Nat.mod_eq_of_lt hb, hslot, hfunc, ?_, ?_⟩
  · rw [UInt8.lt_iff_toNat_lt, hslot]
    exact hs
  · rw [UInt8.lt_iff_toNat_lt, hfunc]
    exact hf

variable {x : Nat × Nat × Nat}

theorem Reaches.read32 (hx : Reaches bus slot func x) (h : PciHost) (offset : UInt8) :
    pciRead32 h bus slot func offset = h.registers x.1 x.2.1 x.2.2 (offset.toNat / 4) := by
  rw [pciRead32_eq h bus offset hx.slot_lt hx.func_lt, hx.bus_eq, hx.slot_eq, hx.func_eq]

/-- The offset and the shift of an access to a part of a register. -/
theorem partOf : ∀ o : UInt8, (o &&& 0xFC).toNat / 4 = o.toNat / 4 ∧
    ((o &&& 3) * 8).toUInt32 = UInt32.ofNat (8 * (o.toNat % 4)) ∧
    ((o &&& 2) * 8).toUInt32 = UInt32.ofNat (16 * (o.toNat / 2 % 2)) := by
  intro o
  have hall : ∀ i : Fin 256, (UInt8.ofNat i &&& 0xFC).toNat / 4 = i / 4 ∧
      ((UInt8.ofNat i &&& 3) * 8).toUInt32 = UInt32.ofNat (8 * (i % 4)) ∧
      ((UInt8.ofNat i &&& 2) * 8).toUInt32 = UInt32.ofNat (16 * (i / 2 % 2)) := by decide +kernel
  have hat := hall ⟨o.toNat, o.toNat_lt⟩
  dsimp only at hat
  rwa [UInt8.ofNat_toNat] at hat

theorem Reaches.read8 (hx : Reaches bus slot func x) (h : PciHost) (offset : UInt8) :
    pciRead8 (pciRead32 h) bus slot func offset = h.byte x.1 x.2.1 x.2.2 offset.toNat := by
  obtain ⟨hreg, hshift, -⟩ := partOf offset
  unfold pciRead8 PciHost.byte
  rw [hx.read32, hreg, hshift]

theorem Reaches.read16 (hx : Reaches bus slot func x) (h : PciHost) (offset : UInt8) :
    pciRead16 (pciRead32 h) bus slot func offset = h.word x.1 x.2.1 x.2.2 offset.toNat := by
  obtain ⟨hreg, -, hshift⟩ := partOf offset
  unfold pciRead16 PciHost.word
  rw [hx.read32, hreg, hshift]

theorem Reaches.newDevice (hx : Reaches bus slot func x) (h : PciHost) :
    newDevice (pciRead32 h) bus slot func = h.device x := by
  have hbar : (fun b => if pciRead8 (pciRead32 h) bus slot func 0x0E &&& 0x7F = 0 ∧ b < 6 then
      pciRead32 h bus slot func (pciBar0 + UInt8.ofNat (b * 4)) else 0) = (h.device x).bar := by
    funext b
    rw [hx.read8]
    refine ite_congr rfl (fun hb => ?_) fun _ => rfl
    have hoffset : ∀ i : Fin 6, (pciBar0 + UInt8.ofNat (i * 4)).toNat / 4 = 4 + i := by decide
    have hreg := hoffset ⟨b, hb.2⟩
    dsimp only at hreg
    rw [hx.read32, hreg]
  have hbus : bus = UInt8.ofNat x.1 := by rw [← hx.bus_eq, UInt8.ofNat_toNat]
  have hslot : slot = UInt8.ofNat x.2.1 := by rw [← hx.slot_eq, UInt8.ofNat_toNat]
  have hfunc : func = UInt8.ofNat x.2.2 := by rw [← hx.func_eq, UInt8.ofNat_toNat]
  unfold Pci.newDevice
  rw [hbar, hx.read16, hx.read16, hx.read8, hx.read8, hx.read8]
  exact PCIDevice.mk.injEq .. ▸ ⟨rfl, rfl, rfl, rfl, hbus, hslot, hfunc, rfl, rfl⟩

/-- What one probe adds. -/
def probed (h : PciHost) (x : Nat × Nat × Nat) : List PCIDevice :=
  if h.word x.1 x.2.1 x.2.2 0 = 0xFFFF then [] else [h.device x]

theorem Reaches.probe (hx : Reaches bus slot func x) (h : PciHost) (l : List PCIDevice) :
    pciProbeFunction (pciRead32 h) bus slot func (l.take pciMaxDevices) =
      (l ++ probed h x).take pciMaxDevices := by
  unfold pciProbeFunction probed
  rw [hx.read16, hx.newDevice]
  change (if h.word x.1 x.2.1 x.2.2 0 = 0xFFFF then _ else _) = _
  split
  · rw [List.append_nil]
  · exact take_push ..

/-- The functions of a device that answer. -/
def slotFound (h : PciHost) (b s : Nat) : List PCIDevice :=
  ((functions b s).filter h.Present).map h.device

/-- Where function 0 answers and there are others, each is probed. -/
theorem others_found {b s : Nat} (hzero : h.word b s 0 0 ≠ 0xFFFF)
    (hmulti : h.byte b s 0 0x0E &&& 0x80 ≠ 0) (fs : List Nat) :
    ((fs.map fun f => (b, s, f)).filter h.Present).map h.device =
      fs.flatMap fun f => probed h (b, s, f) := by
  induction fs with
  | nil => rfl
  | cons f fs ih =>
      rw [List.map_cons, List.filter_cons, List.flatMap_cons, ← ih]
      unfold probed
      by_cases hf : h.word b s f 0 = 0xFFFF
      · have hout : ¬h.Present (b, s, f) := fun hp => hp.2.1 hf
        rw [if_neg (by simpa using hout), if_pos hf]
        rfl
      · have hin : h.Present (b, s, f) := ⟨hzero, hf, .inr hmulti⟩
        rw [if_pos (by simpa using hin), if_neg hf]
        rfl

/-- The functions of a slot that are probed. -/
theorem slotFound_eq (h : PciHost) (b s : Nat) : slotFound h b s =
    if h.word b s 0 0 = 0xFFFF then []
    else h.device (b, s, 0) :: if h.byte b s 0 0x0E &&& 0x80 ≠ 0 then
      (List.range' 1 7).flatMap fun f => probed h (b, s, f) else [] := by
  have hfunctions : functions b s = (b, s, 0) :: (List.range' 1 7).map fun f => (b, s, f) := rfl
  unfold slotFound
  by_cases hzero : h.word b s 0 0 = 0xFFFF
  · have hnone : ∀ x ∈ functions b s, ¬h.Present x := by
      intro x hx hp
      obtain ⟨f, -, rfl⟩ := List.mem_map.1 hx
      exact hp.1 hzero
    have hempty : (functions b s).filter h.Present = [] := by
      rw [List.filter_eq_nil_iff]
      intro x hx
      simpa using hnone x hx
    rw [if_pos hzero, hempty]
    rfl
  · have hin : h.Present (b, s, 0) := ⟨hzero, hzero, .inl rfl⟩
    rw [if_neg hzero, hfunctions, List.filter_cons, if_pos (by simpa using hin), List.map_cons]
    congr 1
    split
    · rename_i hmulti
      exact others_found hzero hmulti _
    · rename_i hmulti
      -- a function other than 0 is not looked at
      have hempty : ((List.range' 1 7).map fun f => (b, s, f)).filter h.Present = [] := by
        rw [List.filter_eq_nil_iff]
        intro x hx hp
        obtain ⟨f, hf, rfl⟩ := List.mem_map.1 hx
        have hone := (List.mem_range'_1.1 hf).1
        have hp : h.Present (b, s, f) := by simpa using hp
        obtain hf0 | hbit := hp.2.2
        · have hf0 : f = 0 := hf0
          omega
        · exact hmulti hbit
      rw [hempty]
      rfl

/-- A slot appends what it has, as far as there is room. -/
theorem scanSlot_take (h : PciHost) {b s : Nat} (hb : b < 256) (hs : s < 32)
    (l : List PCIDevice) :
    scanSlot (pciRead32 h) (UInt8.ofNat b) (UInt8.ofNat s) (l.take pciMaxDevices) =
      (l ++ slotFound h b s).take pciMaxDevices := by
  have hx : Reaches (UInt8.ofNat b) (UInt8.ofNat s) 0 (b, s, 0) := reaches_ofNat hb hs (by decide)
  have hword : pciRead16 (pciRead32 h) (UInt8.ofNat b) (UInt8.ofNat s) 0 0x00 = h.word b s 0 0 :=
    hx.read16 h 0
  have hheader : pciRead8 (pciRead32 h) (UInt8.ofNat b) (UInt8.ofNat s) 0 0x0E =
      h.byte b s 0 0x0E := hx.read8 h 0x0E
  unfold scanSlot
  rw [slotFound_eq, hword, hheader]
  by_cases hzero : h.word b s 0 0 = 0xFFFF
  · rw [if_pos hzero, if_pos hzero, List.append_nil]
  · have hfirst : probed h (b, s, 0) = [h.device (b, s, 0)] := if_neg hzero
    rw [if_neg hzero, if_neg hzero]
    dsimp only
    rw [hx.probe, hfirst]
    split
    · have hlt : ∀ f ∈ List.range' 1 7, f < 8 := fun f hf => (List.mem_range'_1.1 hf).2
      have hothers := foldl_take pciMaxDevices
        (fun ds func => pciProbeFunction (pciRead32 h) (UInt8.ofNat b) (UInt8.ofNat s)
          (UInt8.ofNat func) ds) (fun f => probed h (b, s, f))
        fun f hf l => (reaches_ofNat hb hs (hlt f hf)).probe h l
      rw [hothers, List.append_assoc]
      rfl
    · rfl

theorem pciInit_take (h : PciHost) :
    pciInit h = ((allFunctions.filter h.Present).map h.device).take pciMaxDevices := by
  have hslots : ∀ b ∈ List.range 256, ∀ l : List PCIDevice,
      (List.range 32).foldl (fun ds slot => scanSlot (pciRead32 h) (UInt8.ofNat b)
        (UInt8.ofNat slot) ds) (l.take pciMaxDevices) =
        (l ++ (List.range 32).flatMap (slotFound h b)).take pciMaxDevices := by
    intro b hb l
    exact foldl_take pciMaxDevices _ _ (fun s hs l =>
      scanSlot_take h (List.mem_range.1 hb) (List.mem_range.1 hs) l) l
  have hbuses := foldl_take pciMaxDevices (fun ds bus => (List.range 32).foldl (fun ds slot =>
    scanSlot (pciRead32 h) (UInt8.ofNat bus) (UInt8.ofNat slot) ds) ds) _ hslots []
  have hfound : (allFunctions.filter h.Present).map h.device =
      (List.range 256).flatMap fun b => (List.range 32).flatMap (slotFound h b) := by
    unfold allFunctions slotFound
    rw [List.filter_flatMap, List.map_flatMap]
    congr 1
    funext b
    rw [List.filter_flatMap, List.map_flatMap]
  rw [List.take_nil, List.nil_append] at hbuses
  rw [hfound]
  exact hbuses

/-- The devices that `pci_init` finds are the functions that are there, in the order of their
buses, slots and numbers, up to the 256th, whichever way they are reached; and
`pci_find_device` returns nothing only where none of these has the two numbers. -/
theorem pci_scan_exact (h : PciHost) :
    pciInit h = ((allFunctions.filter h.Present).map h.device).take pciMaxDevices ∧
      ∀ vendor device, pciFindDevice (pciInit h) vendor device = none ↔
        ∀ x ∈ (allFunctions.filter h.Present).take pciMaxDevices,
          ¬(h.word x.1 x.2.1 x.2.2 0 = vendor ∧ h.word x.1 x.2.1 x.2.2 2 = device) := by
  refine ⟨pciInit_take h, fun vendor device => ?_⟩
  rw [pciInit_take, pciFindDevice, List.find?_eq_none, ← List.map_take, List.forall_mem_map]
  refine forall₂_congr fun x _ => not_congr ?_
  rw [Bool.and_eq_true, beq_iff_eq, beq_iff_eq]
  rfl

/-! ## Bus mastering -/

/-- The register of command and status: the command is stored, and a status bit that an error
sets is cleared where a one is written. -/
def commandStatus : OnWrite := fun old val =>
  (val &&& 0xFFFF) ||| (old &&& 0xFFFF0000 &&& ~~~(val &&& 0xF9000000))

/-- The register behind `pci_enable_busmaster`. -/
def enabled (old : UInt32) : UInt32 :=
  commandStatus old ((old &&& ~~~0xFFFF) ||| (old.toUInt16 ||| 7).toUInt32)

theorem enabled_command (old : UInt32) : (enabled old).toUInt16 = old.toUInt16 ||| 7 := by
  rw [← UInt16.toBitVec_inj]
  refine BitVec.eq_of_getLsbD_eq fun i hi => ?_
  unfold enabled commandStatus
  interval_cases i <;> simp [-UInt32.toUInt32_toUInt16]

/-- The status is read and written back with the command. -/
theorem enabled_status (old : UInt32) :
    (enabled old >>> 16).toUInt16 = (old >>> 16).toUInt16 &&& ~~~0xF900 := by
  rw [← UInt16.toBitVec_inj]
  refine BitVec.eq_of_getLsbD_eq fun i hi => ?_
  unfold enabled commandStatus
  interval_cases i <;> simp [-UInt32.toUInt32_toUInt16]

/-- A write goes to the one register, whichever mechanism the host has. -/
theorem pciWrite32_eq (device : OnWrite) (h : PciHost) (bus offset : UInt8) (hslot : slot < 32)
    (hfunc : func < 8) (val : UInt32) :
    pciWrite32 device h bus slot func offset val = { h with
      registers := h.registers.set bus.toNat slot.toNat func.toNat (offset.toNat / 4)
        (device (h.registers bus.toNat slot.toNat func.toNat (offset.toNat / 4)) val) } := by
  have hread := pciRead32_eq h bus offset hslot hfunc
  have hslot' : slot.toNat < 32 := hslot
  have hfunc' : func.toNat < 8 := hfunc
  have hbus := bus.toNat_lt
  have hlt := offset.toNat_lt
  unfold pciRead32 at hread
  unfold pciWrite32
  split
  · rename_i hbase
    rw [if_pos hbase] at hread
    unfold PciHost.mmioWrite
    dsimp only
    rw [hread, ecamPtr_offset h hslot hfunc]
    congr 2 <;> omega
  · rename_i hbase
    rw [if_neg hbase] at hread
    unfold PciHost.portWrite
    dsimp only
    rw [hread, portAddr_toNat hslot hfunc, if_neg (by omega)]
    congr 2 <;> omega

/-- One register is written. -/
theorem busmaster_eq (h : PciHost) (bus : UInt8) (hslot : slot < 32) (hfunc : func < 8) :
    pciEnableBusmaster commandStatus h bus slot func = { h with
      registers := h.registers.set bus.toNat slot.toNat func.toNat 1
        (enabled (h.registers bus.toNat slot.toNat func.toNat 1)) } := by
  have hread : pciRead32 h bus slot func 4 = h.registers bus.toNat slot.toNat func.toNat 1 :=
    pciRead32_eq h bus 4 hslot hfunc
  have hoffset : pciCommand &&& 0xFC = 4 := rfl
  have hshift : ((pciCommand &&& 2) * 8).toUInt32 = 0 := rfl
  unfold pciEnableBusmaster pciRead16 pciWrite16
  rw [hoffset, hshift, hread, UInt32.shiftRight_zero]
  dsimp only
  rw [UInt32.shiftLeft_zero, UInt32.shiftLeft_zero]
  exact pciWrite32_eq commandStatus h bus 4 hslot hfunc _

/-- `pci_enable_busmaster` sets its three bits in the command, clears every error that the status
has kept, and changes no other register of any function; a scan finds the same devices. -/
theorem busmaster_clears_errors (h : PciHost) (bus slot func : UInt8) (hslot : slot < 32)
    (hfunc : func < 8) :
    let h' := pciEnableBusmaster commandStatus h bus slot func
    h'.word bus.toNat slot.toNat func.toNat 4 =
        h.word bus.toNat slot.toNat func.toNat 4 ||| 7 ∧
      h'.word bus.toNat slot.toNat func.toNat 6 =
        h.word bus.toNat slot.toNat func.toNat 6 &&& ~~~0xF900 ∧
      (∀ b s f k, ¬(b = bus.toNat ∧ s = slot.toNat ∧ f = func.toNat ∧ k = 1) →
        h'.registers b s f k = h.registers b s f k) ∧
      pciInit h' = pciInit h := by
  intro h'
  have heq : h' = _ := busmaster_eq h bus hslot hfunc
  have hother : ∀ b s f k, ¬(b = bus.toNat ∧ s = slot.toNat ∧ f = func.toNat ∧ k = 1) →
      h'.registers b s f k = h.registers b s f k := by
    intro b s f k hne
    rw [heq]
    exact if_neg hne
  have hself : h'.registers bus.toNat slot.toNat func.toNat 1 =
      enabled (h.registers bus.toNat slot.toNat func.toNat 1) := by
    rw [heq]
    exact if_pos ⟨rfl, rfl, rfl, rfl⟩
  refine ⟨?_, ?_, hother, ?_⟩
  · have hword := enabled_command (h.registers bus.toNat slot.toNat func.toNat 1)
    rw [← hself] at hword
    exact hword
  · have hword := enabled_status (h.registers bus.toNat slot.toNat func.toNat 1)
    rw [← hself] at hword
    exact hword
  · -- the scan does not read register 1
    have hreg : ∀ b s f k, k ≠ 1 → h'.registers b s f k = h.registers b s f k :=
      fun b s f k hk => hother b s f k fun hall => hk hall.2.2.2
    have hbyte : ∀ b s f k, k / 4 ≠ 1 → h'.byte b s f k = h.byte b s f k := by
      intro b s f k hk
      unfold PciHost.byte
      rw [hreg b s f _ hk]
    have hword : ∀ b s f k, k / 4 ≠ 1 → h'.word b s f k = h.word b s f k := by
      intro b s f k hk
      unfold PciHost.word
      rw [hreg b s f _ hk]
    have hpresent : h'.Present = h.Present := by
      funext x
      unfold PciHost.Present
      rw [hword _ _ _ 0 (by decide), hword _ _ _ 0 (by decide), hbyte _ _ _ 0x0E (by decide)]
    have hdevice : h'.device = h.device := by
      funext x
      unfold PciHost.device
      rw [hword _ _ _ 0 (by decide), hword _ _ _ 2 (by decide), hbyte _ _ _ 0x0B (by decide),
        hbyte _ _ _ 0x0A (by decide), hbyte _ _ _ 0x0E (by decide), hbyte _ _ _ 0x3C (by decide)]
      congr 1
      funext b
      rw [hreg _ _ _ (4 + b) (by omega)]
    rw [pciInit_take, pciInit_take]
    simp only [hpresent, hdevice]

/-- A host bridge without ECAM, where every function has a pending parity error. -/
def parityErrors : PciHost where
  mcfgBase := 0
  hhdm := 0
  registers _ _ _ k := if k = 1 then 0x81000100 else 0
  mcfgBase_lt := by decide
  hhdm_lt := by decide

theorem busmaster_clears_parity :
    (pciEnableBusmaster commandStatus parityErrors 0 3 0).word 0 3 0 4 = 0x107 ∧
      (pciEnableBusmaster commandStatus parityErrors 0 3 0).word 0 3 0 6 = 0 := by
  obtain ⟨hcommand, hstatus, -⟩ :=
    busmaster_clears_errors parityErrors 0 3 0 (by decide) (by decide)
  exact ⟨hcommand.trans (by decide), hstatus.trans (by decide)⟩

end PolandOS.Pci
