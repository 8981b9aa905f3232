import Mathlib.Logic.Function.Basic
import PolandOS.Drivers.Pci
import PolandOS.Lib.ByteMem
import PolandOS.Lib.Staged

/-! # The e1000 driver

`e1000_init`, `e1000_send`, `e1000_recv` and `e1000_has_packet`, over the statics of
`kernel/drivers/e1000.c`. As for the NVMe driver, the PCI devices, the register reads
and the results of `pmm_alloc` are inputs. The delays and the interrupt set-up, which
touch none of the statics, are left out. The three functions that are called later also
say which descriptors they have dereferenced.
-/

namespace PolandOS.E1000

open Pci Staging Staged ByteMem

/-! ## Registers and descriptors -/

/-- The registers. -/
def e1000Ctrl : Nat := 0x0000
def e1000Eerd : Nat := 0x0014
def e1000Ims : Nat := 0x00D0
def e1000Imc : Nat := 0x00D8
def e1000Rctl : Nat := 0x0100
def e1000Tctl : Nat := 0x0400
def e1000Tipg : Nat := 0x0410
def e1000Rdbal : Nat := 0x2800
def e1000Rdbah : Nat := 0x2804
def e1000Rdlen : Nat := 0x2808
def e1000Rdh : Nat := 0x2810
def e1000Rdt : Nat := 0x2818
def e1000Tdbal : Nat := 0x3800
def e1000Tdbah : Nat := 0x3804
def e1000Tdlen : Nat := 0x3808
def e1000Tdh : Nat := 0x3810
def e1000Tdt : Nat := 0x3818
def e1000Mta : Nat := 0x5200
def e1000Ral0 : Nat := 0x5400
def e1000Rah0 : Nat := 0x5404

/-- `E1000_CTRL_RST`, bit 26. -/
def e1000CtrlRst : UInt32 := 0x04000000

/-- `E1000_CTRL_FD | E1000_CTRL_SLU | E1000_CTRL_SPEED_1G`. -/
def e1000CtrlUp : Nat := 1 ||| (1 <<< 6) ||| (2 <<< 8)

/-- `E1000_EERD_DONE`, bit 4. -/
def e1000EerdDone : UInt32 := 0x10

/-- `E1000_TXD_STAT_DD` and `E1000_RXD_STAT_DD`. -/
def e1000StatDd : UInt8 := 1

/-- `E1000_TXD_CMD_EOP | E1000_TXD_CMD_IFCS | E1000_TXD_CMD_RS`. -/
def e1000TxdCmd : Nat := 1 ||| (1 <<< 1) ||| (1 <<< 3)

/-- `E1000_TX_RING_SIZE`. -/
def txRingSize : Nat := 16

/-- `E1000_RX_RING_SIZE`. -/
def rxRingSize : Nat := 32

/-- `E1000_BUF_SIZE`. -/
def e1000BufSize : UInt16 := 2048

/-- `ETH_MAX_FRAME`. -/
def ethMaxFrame : Nat := 1518

/-- `sizeof(E1000TxDesc)` and `sizeof(E1000RxDesc)`. -/
def descSize : Nat := 16

/-- What the machine does. -/
structure E1000Machine where
  pciDevices : List PCIDevice
  config : ConfigSpace
  hhdmOffset : Nat
  register : Nat → UInt32
  frame : Nat → Nat
  mem : Mem

/-- The statics of the driver, the memory, and how far the machine has been asked. -/
structure E1000Statics where
  e1000Base : Nat
  e1000Mac : Nat → UInt8
  txRing : Nat
  txRingPhys : Nat
  txBufs : Nat → Nat
  txBufPhys : Nat → Nat
  txTail : Nat
  rxRing : Nat
  rxRingPhys : Nat
  rxBufs : Nat → Nat
  rxBufPhys : Nat → Nat
  rxTail : Nat
  rxHead : Nat
  mem : Mem
  registersRead : Nat
  framesTaken : Nat
  written : List (Nat × Nat)

/-- The statics at boot. -/
def E1000Statics.boot (m : E1000Machine) : E1000Statics where
  e1000Base := 0
  e1000Mac _ := 0
  txRing := 0
  txRingPhys := 0
  txBufs _ := 0
  txBufPhys _ := 0
  txTail := 0
  rxRing := 0
  rxRingPhys := 0
  rxBufs _ := 0
  rxBufPhys _ := 0
  rxTail := 0
  rxHead := 0
  mem := m.mem
  registersRead := 0
  framesTaken := 0
  written := []

/-- `&tx_ring[idx]` and `&rx_ring[idx]`. -/
def desc (ring idx : Nat) : Nat := add64 ring (descSize * idx)

/-- `desc->status`, at the same place in both kinds of descriptor. -/
def status (mem : Mem) (d : Nat) : UInt8 := mem (add64 d 12)

/-- `desc->buffer_addr = phys`. -/
def setBufferAddr (mem : Mem) (d phys : Nat) : Mem := writeLE mem d 8 phys

/-- `desc->length = len`. -/
def setLength (mem : Mem) (d len : Nat) : Mem := writeLE mem (add64 d 8) 2 len

/-- `desc->cmd = cmd`, in a descriptor to send. -/
def setCmd (mem : Mem) (d cmd : Nat) : Mem := writeLE mem (add64 d 11) 1 cmd

/-- `desc->status = v`. -/
def setStatus (mem : Mem) (d : Nat) (v : UInt8) : Mem := writeLE mem (add64 d 12) 1 v.toNat

/-! ## e1000_init -/

/-- The ways out of `e1000_init` with -1. -/
inductive E1000Exit where
  | noCard
  | ioBar
  | noBar
  | noTxRing
  | noTxBuffer
  | noRxRing
  | noRxBuffer
deriving DecidableEq, Repr

/-- A part of `e1000_init`. -/
abbrev E1000Stage := Staged E1000Exit E1000Statics

variable (m : E1000Machine)

/-- `e1000_read`. -/
def e1000Read (_reg : Nat) : E1000Stage UInt32 := fun s =>
  (.ok (m.register s.registersRead), { s with registersRead := s.registersRead + 1 })

/-- `e1000_write`. -/
def e1000Write (reg val : Nat) : E1000Stage Unit :=
  modify fun s => { s with written := s.written ++ [(reg, val)] }

/-- `pmm_alloc`. -/
def pmmAlloc : E1000Stage Nat := fun s =>
  (.ok (m.frame s.framesTaken), { s with framesTaken := s.framesTaken + 1 })

/-- The loop of `e1000_eeprom_read`. -/
def eepromLoop : Nat → E1000Stage UInt16
  | 0 => return 0
  | n + 1 => do
    let val ← e1000Read m e1000Eerd
    if n = 0 then return 0
    else if val &&& e1000EerdDone ≠ 0 then return (val >>> 16).toUInt16
    else eepromLoop n

/-- `e1000_eeprom_read`. -/
def e1000EepromRead (addr : Nat) : E1000Stage UInt16 := do
  e1000Write e1000Eerd (1 ||| (addr <<< 8))
  eepromLoop m 100000

/-- The bytes of the address, lowest first. -/
def macOf (bytes : List UInt8) : Nat → UInt8 := fun i => bytes.getD i 0

/-- `e1000_read_mac`. -/
def e1000ReadMac : E1000Stage Unit := do
  let ral ← e1000Read m e1000Ral0
  let rah ← e1000Read m e1000Rah0
  if rah &&& 0x80000000 ≠ 0 then
    let bytes := [ral.toUInt8, (ral >>> 8).toUInt8, (ral >>> 16).toUInt8, (ral >>> 24).toUInt8,
      rah.toUInt8, (rah >>> 8).toUInt8]
    modify fun s => { s with e1000Mac := macOf bytes }
  else do
    let w0 ← e1000EepromRead m 0
    let w1 ← e1000EepromRead m 1
    let w2 ← e1000EepromRead m 2
    let bytes := [w0.toUInt8, (w0 >>> 8).toUInt8, w1.toUInt8, (w1 >>> 8).toUInt8,
      w2.toUInt8, (w2 >>> 8).toUInt8]
    modify fun s => { s with e1000Mac := macOf bytes }

/-- The card: the first of three models that is there. -/
def findCard (pciDevices : List PCIDevice) : Option PCIDevice :=
  ((pciFindDevice pciDevices 0x8086 0x100E).or (pciFindDevice pciDevices 0x8086 0x100F)).or
    (pciFindDevice pciDevices 0x8086 0x1004)

/-- The card is found and its registers are. -/
def findRegisters : E1000Stage Unit := do
  let pdev ← ofOption .noCard (findCard m.pciDevices)
  if pdev.bar 0 &&& 1 ≠ 0 then leave .ioBar
  let bar0 := pciGetBarAddr m.config pdev.bus pdev.slot pdev.func 0
  if bar0 = 0 then leave .noBar
  modify fun s => { s with e1000Base := add64 bar0 m.hhdmOffset }

/-- The loop that waits for the reset bit to clear. -/
def waitReset : Nat → E1000Stage Unit
  | 0 => return ()
  | n + 1 => do
    let ctrl ← e1000Read m e1000Ctrl
    if ctrl &&& e1000CtrlRst ≠ 0 ∧ n ≠ 0 then waitReset n else return ()

/-- A register array is cleared. -/
def clearRegisters : List Nat → E1000Stage Unit
  | [] => return ()
  | reg :: regs => do
    e1000Write reg 0
    clearRegisters regs

/-- The card is reset and asked for its address. -/
def reset : E1000Stage Unit := do
  let ctrl ← e1000Read m e1000Ctrl
  e1000Write e1000Ctrl (ctrl ||| e1000CtrlRst).toNat
  waitReset m 1000000
  e1000Write e1000Imc 0xFFFFFFFF
  e1000Write e1000Ctrl e1000CtrlUp
  e1000ReadMac m
  clearRegisters ((List.range 128).map fun i => e1000Mta + i * 4)

/-- The buffers to send from. -/
def txBuffers : List Nat → E1000Stage Unit
  | [] => return ()
  | i :: is => do
    let phys ← pmmAlloc m
    modify fun s => { s with txBufPhys := Function.update s.txBufPhys i phys }
    if phys = 0 then leave .noTxBuffer
    modify fun s => { s with
      txBufs := Function.update s.txBufs i (add64 phys m.hhdmOffset)
      mem := setStatus (setBufferAddr s.mem (desc s.txRing i) phys) (desc s.txRing i) e1000StatDd }
    txBuffers is

/-- The ring to send from. -/
def initTx : E1000Stage Unit := do
  let phys ← pmmAlloc m
  modify fun s => { s with txRingPhys := phys }
  if phys = 0 then leave .noTxRing
  modify fun s => { s with
    txRing := add64 phys m.hhdmOffset
    mem := memset s.mem (add64 phys m.hhdmOffset) 0 4096 }
  txBuffers m (List.range txRingSize)
  e1000Write e1000Tdbal (phys % 2 ^ 32)
  e1000Write e1000Tdbah (phys / 2 ^ 32)
  e1000Write e1000Tdlen (txRingSize * descSize)
  e1000Write e1000Tdh 0
  e1000Write e1000Tdt 0
  modify fun s => { s with txTail := 0 }
  e1000Write e1000Tctl ((1 <<< 1) ||| (1 <<< 3) ||| (0x0F <<< 4) ||| (0x200 <<< 12))
  e1000Write e1000Tipg 0x00702008

/-- The buffers to receive into. -/
def rxBuffers : List Nat → E1000Stage Unit
  | [] => return ()
  | i :: is => do
    let phys ← pmmAlloc m
    modify fun s => { s with rxBufPhys := Function.update s.rxBufPhys i phys }
    if phys = 0 then leave .noRxBuffer
    modify fun s => { s with
      rxBufs := Function.update s.rxBufs i (add64 phys m.hhdmOffset)
      mem := setStatus (setBufferAddr s.mem (desc s.rxRing i) phys) (desc s.rxRing i) 0 }
    rxBuffers is

/-- The ring to receive into. -/
def initRx : E1000Stage Unit := do
  let phys ← pmmAlloc m
  modify fun s => { s with rxRingPhys := phys }
  if phys = 0 then leave .noRxRing
  modify fun s => { s with
    rxRing := add64 phys m.hhdmOffset
    mem := memset s.mem (add64 phys m.hhdmOffset) 0 4096 }
  rxBuffers m (List.range rxRingSize)
  e1000Write e1000Rdbal (phys % 2 ^ 32)
  e1000Write e1000Rdbah (phys / 2 ^ 32)
  e1000Write e1000Rdlen (rxRingSize * descSize)
  e1000Write e1000Rdh 0
  modify fun s => { s with rxHead := 0, rxTail := rxRingSize - 1 }
  e1000Write e1000Rdt (rxRingSize - 1)
  e1000Write e1000Rctl ((1 <<< 1) ||| (1 <<< 3) ||| (1 <<< 4) ||| (1 <<< 15) ||| (1 <<< 26))

/-- `e1000_init`: it returns 0 where it is not left, and -1 where it is. -/
def e1000Init : E1000Stage Unit := do
  findRegisters m
  reset m
  initTx m
  initRx m
  e1000Write e1000Ims ((1 <<< 7) ||| 1 ||| (1 <<< 2))

/-! ## Packets -/

/-- What a call returns, the descriptors that it has dereferenced, and the statics
behind it. -/
structure E1000Result where
  result : Int
  dereferenced : List Nat
  statics : E1000Statics

/-- `e1000_send`, of `len` bytes at `data`. -/
def e1000Send (data : Nat) (len : UInt16) (s : E1000Statics) : E1000Result :=
  if s.e1000Base = 0 then ⟨-1, [], s⟩
  else if len > e1000BufSize then ⟨-1, [], s⟩
  else
    let idx := s.txTail
    let d := desc s.txRing idx
    if status s.mem d &&& e1000StatDd = 0 then ⟨-1, [d], s⟩
    else
      let mem := memcpy s.mem (s.txBufs idx) data len.toNat
      let mem := setStatus (setCmd (setLength mem d len.toNat) d e1000TxdCmd) d 0
      let tail := (s.txTail + 1) % txRingSize
      ⟨0, [d], { s with mem := mem, txTail := tail, written := s.written ++ [(e1000Tdt, tail)] }⟩

/-- `e1000_has_packet`. -/
def e1000HasPacket (s : E1000Statics) : E1000Result :=
  if s.e1000Base = 0 then ⟨0, [], s⟩
  else
    let d := desc s.rxRing s.rxHead
    ⟨if status s.mem d &&& e1000StatDd ≠ 0 then 1 else 0, [d], s⟩

/-- `e1000_recv` into `buf`, and the length at `len`, where that is not null. -/
def e1000Recv (buf len : Nat) (s : E1000Statics) : E1000Result :=
  if s.e1000Base = 0 then ⟨0, [], s⟩
  else
    let d := desc s.rxRing s.rxHead
    if status s.mem d &&& e1000StatDd = 0 then ⟨0, [d], s⟩
    else
      let pktLen := min (readLE s.mem (add64 d 8) 2) ethMaxFrame
      let mem := memcpy s.mem buf (s.rxBufs s.rxHead) pktLen
      let mem := if len = 0 then mem else writeLE mem len 2 pktLen
      let mem := setStatus mem d 0
      ⟨1, [d], { s with
        mem := mem
        rxTail := s.rxHead
        rxHead := (s.rxHead + 1) % rxRingSize
        written := s.written ++ [(e1000Rdt, s.rxHead)] }⟩

end PolandOS.E1000
