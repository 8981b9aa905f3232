import PolandOS.Drivers.NvmeQueues
import PolandOS.Drivers.Pci
import PolandOS.Lib.ByteMem
import PolandOS.Lib.Staged

/-! # nvme_init

`nvme_init` publishes its statics one by one on the way to fifteen ways out. What it
asks of the machine is an input: the PCI devices, what each read of a register gives,
what each call of `pmm_alloc` returns, what the controller does during each admin
command, and what it puts into the identify buffer.
-/

namespace PolandOS.Nvme

open Pci Staging Staged ByteMem

/-- The registers. -/
def nvmeCap : Nat := 0x00
def nvmeCc : Nat := 0x14
def nvmeCsts : Nat := 0x1C
def nvmeAqa : Nat := 0x24
def nvmeAsq : Nat := 0x28
def nvmeAcq : Nat := 0x30

/-- `NVME_CC_EN`. -/
def nvmeCcEn : Nat := 1

/-- `NVME_CC_DEFAULT`. -/
def nvmeCcDefault : Nat := (6 <<< 16) ||| (4 <<< 20)

/-- `NVME_CSTS_RDY`. -/
def nvmeCstsRdy : UInt32 := 1

/-- `NVME_CSTS_CFS`. -/
def nvmeCstsCfs : UInt32 := 2

/-- The admin commands. -/
def nvmeAdminCreateSq : UInt32 := 0x01
def nvmeAdminCreateCq : UInt32 := 0x05
def nvmeAdminIdentify : UInt32 := 0x06

/-- `NVME_CNS_NS`. -/
def nvmeCnsNs : UInt32 := 0x00

/-- `NVME_CNS_CTRL`. -/
def nvmeCnsCtrl : UInt32 := 0x01

/-- What the machine does: `register n` is what the `n`-th read of a register gives,
`frame n` what the `n`-th `pmm_alloc` returns, and `schedule n` what the controller
does during the `n`-th admin command. It comes up as `controller`, and leaves
`namespaceData` in the buffer of the second identify command. -/
structure NvmeMachine where
  pciDevices : List PCIDevice
  config : ConfigSpace
  hhdmOffset : Nat
  register : Nat → UInt32
  frame : Nat → Nat
  controller : Controller
  schedule : Nat → Schedule
  namespaceData : Mem

/-- The statics of the driver, and how far the machine has been asked: the registers
read, the frames taken and given back, the registers written. -/
structure NvmeStatics where
  nvmeBase : Nat
  nvmeDstrd : UInt32
  asq : Nat
  acq : Nat
  asqPhys : Nat
  acqPhys : Nat
  admin : QueuePair
  iosq : Nat
  iocq : Nat
  iosqPhys : Nat
  iocqPhys : Nat
  nsBlockCount : Nat
  nsBlockSize : UInt32
  registersRead : Nat
  framesTaken : Nat
  framesFreed : List Nat
  commands : Nat
  written : List (Nat × Nat)

/-- The statics at boot. -/
def NvmeStatics.boot (m : NvmeMachine) : NvmeStatics where
  nvmeBase := 0
  nvmeDstrd := 0
  asq := 0
  acq := 0
  asqPhys := 0
  acqPhys := 0
  admin := ⟨0, 0, true, 0, m.controller, fun _ => .zero, fun _ => .zero⟩
  iosq := 0
  iocq := 0
  iosqPhys := 0
  iocqPhys := 0
  nsBlockCount := 0
  nsBlockSize := 512
  registersRead := 0
  framesTaken := 0
  framesFreed := []
  commands := 0
  written := []

/-- The ways out of `nvme_init` with -1. -/
inductive NvmeExit where
  | noController
  | ioBar
  | noBar
  | disableTimeout
  | noAdminQueues
  | controllerFailed
  | enableTimeout
  | noIdentifyBuffer
  | identifyController
  | noNamespaceBuffer
  | identifyNamespace
  | noIocq
  | createCq
  | noIosq
  | createSq
deriving DecidableEq, Repr

/-- A part of `nvme_init`. -/
abbrev NvmeStage := Staged NvmeExit NvmeStatics

variable (m : NvmeMachine)

/-- `nvme_readl`. -/
def nvmeReadl (_off : Nat) : NvmeStage UInt32 := fun s =>
  (.ok (m.register s.registersRead), { s with registersRead := s.registersRead + 1 })

/-- `nvme_readq`. -/
def nvmeReadq (off : Nat) : NvmeStage UInt64 := do
  let lo ← nvmeReadl m off
  let hi ← nvmeReadl m (off + 4)
  return (hi.toUInt64 <<< 32) ||| lo.toUInt64

/-- `nvme_writel`. -/
def nvmeWritel (off val : Nat) : NvmeStage Unit :=
  modify fun s => { s with written := s.written ++ [(off, val)] }

/-- `nvme_writeq`. -/
def nvmeWriteq (off val : Nat) : NvmeStage Unit := do
  nvmeWritel off (val % 2 ^ 32)
  nvmeWritel (off + 4) (val / 2 ^ 32)

/-- `pmm_alloc`. -/
def pmmAlloc : NvmeStage Nat := fun s =>
  (.ok (m.frame s.framesTaken), { s with framesTaken := s.framesTaken + 1 })

/-- `pmm_free`. -/
def pmmFree (phys : Nat) : NvmeStage Unit :=
  modify fun s => { s with framesFreed := s.framesFreed ++ [phys] }

/-- `nvme_admin_submit(&cmd, NULL)`. -/
def adminSubmit (cmd : NVMeSQE) : NvmeStage Int := fun s =>
  let submitted := nvmeAdminSubmit cmd false (m.schedule s.commands) s.admin
  (.ok submitted.1.result, { s with admin := submitted.2.2, commands := s.commands + 1 })

/-- The controller is found and its registers are. -/
def findController : NvmeStage Unit := do
  let pdev ← ofOption .noController (pciFindClass m.pciDevices 0x01 0x08)
  if pdev.bar 0 &&& 1 ≠ 0 then leave .ioBar
  let bar0 := pciGetBarAddr m.config pdev.bus pdev.slot pdev.func 0
  if bar0 = 0 then leave .noBar
  modify fun s => { s with nvmeBase := add64 bar0 m.hhdmOffset }

/-- The looks that a wait of so many half seconds takes: `timeout` is `units * 500000`, and
counts down to 0 before it is tested. -/
def looks (units : UInt64) : Nat :=
  let timeout := (units.toNat * 500000) % 2 ^ 32
  if timeout = 0 then 2 ^ 32 else timeout

/-- The loop that waits for `CSTS.RDY` to be 0. -/
def waitDisabled : Nat → NvmeStage Unit
  | 0 => leave .disableTimeout
  | n + 1 => do
    let csts ← nvmeReadl m nvmeCsts
    if csts &&& nvmeCstsRdy = 0 then return ()
    if n = 0 then leave .disableTimeout
    waitDisabled n

/-- The capabilities are read and the controller is disabled. What is returned is the
timeout. -/
def disable : NvmeStage UInt64 := do
  let cap ← nvmeReadq m nvmeCap
  modify fun s => { s with nvmeDstrd := ((cap >>> 32) &&& 0xF).toUInt32 }
  let units := (cap >>> 24) &&& 0xFF
  nvmeWritel nvmeCc 0
  waitDisabled m (looks units)
  return units

/-- The admin queues are set up. -/
def adminQueues : NvmeStage Unit := do
  let asqPhys ← pmmAlloc m
  modify fun s => { s with asqPhys := asqPhys }
  let acqPhys ← pmmAlloc m
  modify fun s => { s with acqPhys := acqPhys }
  if asqPhys = 0 ∨ acqPhys = 0 then leave .noAdminQueues
  modify fun s => { s with
    asq := add64 asqPhys m.hhdmOffset
    acq := add64 acqPhys m.hhdmOffset
    admin := { s.admin with sq := fun _ => .zero, cq := fun _ => .zero } }
  nvmeWritel nvmeAqa (((queueDepth - 1) <<< 16) ||| (queueDepth - 1))
  nvmeWriteq nvmeAsq asqPhys
  nvmeWriteq nvmeAcq acqPhys

/-- The loop that waits for `CSTS.RDY` to be 1. -/
def waitEnabled : Nat → NvmeStage Unit
  | 0 => leave .enableTimeout
  | n + 1 => do
    let csts ← nvmeReadl m nvmeCsts
    if csts &&& nvmeCstsRdy ≠ 0 then return ()
    let csts ← nvmeReadl m nvmeCsts
    if csts &&& nvmeCstsCfs ≠ 0 then leave .controllerFailed
    if n = 0 then leave .enableTimeout
    waitEnabled n

/-- The controller is enabled. -/
def enable (units : UInt64) : NvmeStage Unit := do
  nvmeWritel nvmeCc (nvmeCcDefault ||| nvmeCcEn)
  waitEnabled m (looks units)

/-- The controller is identified. What is returned is the buffer. -/
def identifyController : NvmeStage Nat := do
  let idPhys ← pmmAlloc m
  if idPhys = 0 then leave .noIdentifyBuffer
  let result ← adminSubmit m
    { NVMeSQE.zero with
      cdw0 := nvmeAdminIdentify
      prp1 := idPhys.toUInt64
      cdw10 := nvmeCnsCtrl }
  if result ≠ 0 then do
    pmmFree idPhys
    leave .identifyController
  return idPhys

/-- `NSZE` in the identify data. -/
def nsze (data : Mem) : Nat := readLE data 0 8

/-- `lbads` in the identify data. -/
def lbads (data : Mem) : Nat :=
  let lbafIdx := (data 26).toNat &&& 0x0F
  (readLE data (128 + lbafIdx * 4) 4 >>> 16) &&& 0x0F

/-- The namespace is identified. -/
def identifyNamespace (idPhys : Nat) : NvmeStage Unit := do
  let nsPhys ← pmmAlloc m
  if nsPhys = 0 then do
    pmmFree idPhys
    leave .noNamespaceBuffer
  let result ← adminSubmit m
    { NVMeSQE.zero with
      cdw0 := nvmeAdminIdentify
      nsid := 1
      prp1 := nsPhys.toUInt64
      cdw10 := nvmeCnsNs }
  if result ≠ 0 then do
    pmmFree nsPhys
    pmmFree idPhys
    leave .identifyNamespace
  modify fun s => { s with
    nsBlockCount := nsze m.namespaceData
    nsBlockSize := 1 <<< (lbads m.namespaceData).toUInt32 }
  pmmFree nsPhys
  pmmFree idPhys

/-- The I/O completion queue is created. -/
def createCq : NvmeStage Unit := do
  let iocqPhys ← pmmAlloc m
  modify fun s => { s with iocqPhys := iocqPhys }
  if iocqPhys = 0 then leave .noIocq
  modify fun s => { s with iocq := add64 iocqPhys m.hhdmOffset }
  let result ← adminSubmit m
    { NVMeSQE.zero with
      cdw0 := nvmeAdminCreateCq
      prp1 := iocqPhys.toUInt64
      cdw10 := ((queueDepth - 1) <<< 16 ||| 1).toUInt32
      cdw11 := 0x1 }
  if result ≠ 0 then leave .createCq

/-- The I/O submission queue is created. -/
def createSq : NvmeStage Unit := do
  let iosqPhys ← pmmAlloc m
  modify fun s => { s with iosqPhys := iosqPhys }
  if iosqPhys = 0 then leave .noIosq
  modify fun s => { s with iosq := add64 iosqPhys m.hhdmOffset }
  let result ← adminSubmit m
    { NVMeSQE.zero with
      cdw0 := nvmeAdminCreateSq
      prp1 := iosqPhys.toUInt64
      cdw10 := ((queueDepth - 1) <<< 16 ||| 1).toUInt32
      cdw11 := 0x10000 ||| 0x1 }
  if result ≠ 0 then leave .createSq

/-- `nvme_init`: it returns 0 where it is not left, and -1 where it is. -/
def nvmeInit : NvmeStage Unit := do
  findController m
  let units ← disable m
  adminQueues m
  enable m units
  let idPhys ← identifyController m
  identifyNamespace m idPhys
  createCq m
  createSq m

end PolandOS.Nvme
