import PolandOS.Machine

/-! # PCI

The parts of `kernel/drivers/pci.c` that a driver asks for its device. The
configuration space is an input, read as `pci_read32` reads it. What is stored at
enumeration and not looked at later is left out, and so is `pci_enable_busmaster`, which
changes the configuration space only.
-/

namespace PolandOS.Pci

/-- `PCIDevice`. -/
structure PCIDevice where
  vendorId : UInt16
  deviceId : UInt16
  classCode : UInt8
  subclass : UInt8
  bus : UInt8
  slot : UInt8
  func : UInt8
  bar : Nat → UInt32
  irqLine : UInt8

/-- `pci_read32`: bus, slot, function and offset. -/
abbrev ConfigSpace := UInt8 → UInt8 → UInt8 → UInt8 → UInt32

/-- `pci_find_device`. -/
def pciFindDevice (pciDevices : List PCIDevice) (vendor device : UInt16) : Option PCIDevice :=
  pciDevices.find? fun d => d.vendorId == vendor && d.deviceId == device

/-- `pci_find_class`. -/
def pciFindClass (pciDevices : List PCIDevice) (classCode subclass : UInt8) : Option PCIDevice :=
  pciDevices.find? fun d => d.classCode == classCode && d.subclass == subclass

/-- `PCI_BAR0`. -/
def pciBar0 : UInt8 := 0x10

/-- `pci_get_bar_addr`. -/
def pciGetBarAddr (read : ConfigSpace) (bus slot func barIdx : UInt8) : Nat :=
  if barIdx > 5 then 0
  else
    let barOff := pciBar0 + barIdx * 4
    let barLo := read bus slot func barOff
    if barLo &&& 1 ≠ 0 then (barLo &&& 0xFFFFFFFC).toNat
    else if (barLo >>> 1) &&& 0x3 = 2 ∧ barIdx < 5 then
      let barHi := read bus slot func (barOff + 4)
      ((barHi.toNat <<< 32) ||| (barLo &&& 0xFFFFFFF0).toNat) &&& 0x000FFFFFFFFFFFF0
    else (barLo &&& 0xFFFFFFF0).toNat

end PolandOS.Pci
