import Mathlib.Logic.Function.Basic
import Mathlib.Tactic.Common
import PolandOS.Lib.Runs

/-! # The NVMe driver

The I/O half of `kernel/drivers/nvme.c`, next to a controller that answers it. The
two share a submission ring and a completion ring. What the controller does, and
when, is an input: a list of posts for each look that the driver takes at the
completion ring.
-/

namespace PolandOS.Nvme

/-- `NVMeSQE`, a command. -/
structure NVMeSQE where
  cdw0 : UInt32
  nsid : UInt32
  reserved : UInt64
  mptr : UInt64
  prp1 : UInt64
  prp2 : UInt64
  cdw10 : UInt32
  cdw11 : UInt32
  cdw12 : UInt32
  cdw13 : UInt32
  cdw14 : UInt32
  cdw15 : UInt32
deriving DecidableEq, Repr

/-- `NVMeCQE`, a completion. -/
structure NVMeCQE where
  dw0 : UInt32
  dw1 : UInt32
  sqHead : UInt16
  sqId : UInt16
  cid : UInt16
  status : UInt16
deriving DecidableEq, Repr

/-- `memset(&cmd, 0, sizeof(cmd))`. -/
def NVMeSQE.zero : NVMeSQE := ⟨0, 0, 0, 0, 0, 0, 0, 0, 0, 0, 0, 0⟩

/-- A cleared slot of the completion ring. -/
def NVMeCQE.zero : NVMeCQE := ⟨0, 0, 0, 0, 0, 0⟩

/-- The command identifier, in the upper half of `cdw0`. -/
def NVMeSQE.cid (cmd : NVMeSQE) : UInt16 := (cmd.cdw0 >>> 16).toUInt16

/-- `status & 1`. -/
def NVMeCQE.phase (cqe : NVMeCQE) : Bool := cqe.status &&& 1 == 1

/-- `(status >> 1) & 0x7FFF`. -/
def NVMeCQE.statusCode (cqe : NVMeCQE) : UInt16 := (cqe.status >>> 1) &&& 0x7FFF

/-- `QUEUE_DEPTH`. -/
def queueDepth : Nat := 64

/-- The start value of `timeout`. -/
def pollLimit : Nat := 10000000

/-- The state of the driver. `present` says that `nvme_base` and `iosq` are set, and
`iocq_phase` is the bit that it holds. -/
structure Driver where
  present : Bool
  hhdmOffset : UInt64
  nsBlockSize : UInt32
  iosqTail : Nat
  iocqHead : Nat
  iocqPhase : Bool
  ioCid : UInt16
deriving DecidableEq, Repr

/-- The state of the controller: how far it has read the submission ring, the
commands that it has not completed, its place in the completion ring, and how far the
driver has told it to have read there. -/
structure Controller where
  sqHead : Nat
  outstanding : List NVMeSQE
  cqTail : Nat
  cqPhase : Bool
  cqHead : Nat
deriving DecidableEq, Repr

/-- The driver, the controller, and the rings between them. -/
structure System where
  driver : Driver
  controller : Controller
  iosq : Nat → NVMeSQE
  iocq : Nat → NVMeCQE

/-! ## The controller -/

/-- The controller completes one of the outstanding commands. -/
structure Post where
  which : Nat
  dw0 : UInt32
  code : UInt16
deriving DecidableEq, Repr

/-- A place in a ring, and the phase there, behind another one. -/
def advance (index : Nat) (phase : Bool) : Nat × Bool :=
  if index + 1 ≥ queueDepth then (0, !phase) else (index + 1, phase)

/-- The completion of a command. -/
def Controller.completion (c : Controller) (p : Post) (cmd : NVMeSQE) : NVMeCQE where
  dw0 := p.dw0
  dw1 := 0
  sqHead := c.sqHead.toUInt16
  sqId := 1
  cid := cmd.cid
  status := (p.code <<< 1) ||| (if c.cqPhase then 1 else 0)

/-- A completion is posted, unless the ring is full or there is no such command. -/
def System.post (s : System) (p : Post) : System :=
  if (s.controller.cqTail + 1) % queueDepth = s.controller.cqHead then s
  else
    match s.controller.outstanding[p.which]? with
    | none => s
    | some cmd =>
      let place := advance s.controller.cqTail s.controller.cqPhase
      { s with
        iocq := Function.update s.iocq s.controller.cqTail (s.controller.completion p cmd)
        controller := { s.controller with
          outstanding := s.controller.outstanding.eraseIdx p.which
          cqTail := place.1
          cqPhase := place.2 } }

/-- `nvme_ring_sq(1, tail)`: the controller takes the commands up to `tail`. -/
def System.ringSq (s : System) (tail : Nat) : System :=
  let count := (tail + queueDepth - s.controller.sqHead) % queueDepth
  let cmds := (List.range count).map fun i => s.iosq ((s.controller.sqHead + i) % queueDepth)
  { s with controller := { s.controller with
      sqHead := tail
      outstanding := s.controller.outstanding ++ cmds } }

/-- `nvme_ring_cq(1, head)`. -/
def System.ringCq (s : System) (head : Nat) : System :=
  { s with controller := { s.controller with cqHead := head } }

/-! ## The driver -/

/-- What the controller does before each look at the completion ring. The looks are
numbered from `pollLimit - 1` down to 0, as `timeout` counts them. -/
abbrev Schedule := Nat → List Post

/-- One call of `nvme_io_submit`: the identifier it has given to its command, what it
returns, and the completion that it has consumed. -/
structure Attempt where
  cid : UInt16
  result : Int
  consumed : Option NVMeCQE
deriving DecidableEq, Repr

/-- The completion at the head of the ring is consumed. -/
def consume (s : System) : System :=
  let place := advance s.driver.iocqHead s.driver.iocqPhase
  { s with driver := { s.driver with iocqHead := place.1, iocqPhase := place.2 } }.ringCq place.1

/-- The loop of `nvme_io_submit`. -/
def pollCompletion (schedule : Schedule) : Nat → System → Int × Option NVMeCQE × System
  | 0, s => (-2, none, s)
  | timeout + 1, s =>
    let s := (schedule timeout).foldl System.post s
    let cqe := s.iocq s.driver.iocqHead
    if cqe.phase = s.driver.iocqPhase then
      (if cqe.statusCode ≠ 0 then -1 else 0, some cqe, consume s)
    else pollCompletion schedule timeout s

/-- `cmd->cdw0 = (cmd->cdw0 & 0xFFFF) | ((u32)cid << 16)`. -/
def NVMeSQE.withCid (cmd : NVMeSQE) (cid : UInt16) : NVMeSQE :=
  { cmd with cdw0 := (cmd.cdw0 &&& (0xFFFF : UInt32)) ||| (cid.toUInt32 <<< (16 : UInt32)) }

/-- The first lines of `nvme_io_submit`: the command is put on its way. -/
def enqueue (cmd : NVMeSQE) (s : System) : System :=
  let tail := (s.driver.iosqTail + 1) % queueDepth
  { s with
    iosq := Function.update s.iosq s.driver.iosqTail (cmd.withCid s.driver.ioCid)
    driver := { s.driver with ioCid := s.driver.ioCid + 1, iosqTail := tail } }.ringSq tail

/-- `nvme_io_submit`. -/
def nvmeIoSubmit (cmd : NVMeSQE) (schedule : Schedule) (s : System) : Attempt × System :=
  let polled := pollCompletion schedule pollLimit (enqueue cmd s)
  (⟨s.driver.ioCid, polled.1, polled.2.1⟩, polled.2.2)

/-- `NVME_CMD_WRITE`. -/
def nvmeCmdWrite : UInt32 := 0x01

/-- `NVME_CMD_READ`. -/
def nvmeCmdRead : UInt32 := 0x02

/-- The common body of `nvme_read_blocks` and `nvme_write_blocks`: where the checks
fail, -1 is returned and no command is submitted. -/
def blockCommand (opcode nsid : UInt32) (lba : UInt64) (count : UInt32) (buf : UInt64)
    (schedule : Schedule) (s : System) : Int × Option Attempt × System :=
  if !s.driver.present then (-1, none, s)
  else if count = 0 ∨ count > 4096 / s.driver.nsBlockSize then (-1, none, s)
  else
    let cmd : NVMeSQE :=
      { NVMeSQE.zero with
        cdw0 := opcode
        nsid := if nsid = 0 then 1 else nsid
        prp1 := buf - s.driver.hhdmOffset
        cdw10 := (lba &&& 0xFFFFFFFF).toUInt32
        cdw11 := (lba >>> 32).toUInt32
        cdw12 := count - 1 }
    let submitted := nvmeIoSubmit cmd schedule s
    (submitted.1.result, some submitted.1, submitted.2)

/-- `nvme_read_blocks`. -/
def nvmeReadBlocks (nsid : UInt32) (lba : UInt64) (count : UInt32) (buf : UInt64)
    (schedule : Schedule) (s : System) : Int × Option Attempt × System :=
  blockCommand nvmeCmdRead nsid lba count buf schedule s

/-- `nvme_write_blocks`. -/
def nvmeWriteBlocks (nsid : UInt32) (lba : UInt64) (count : UInt32) (buf : UInt64)
    (schedule : Schedule) (s : System) : Int × Option Attempt × System :=
  blockCommand nvmeCmdWrite nsid lba count buf schedule s

/-! ## Runs -/

/-- What happens: a call, or a post between two calls. -/
inductive Event where
  | read (nsid : UInt32) (lba : UInt64) (count : UInt32) (buf : UInt64) (schedule : Schedule)
  | write (nsid : UInt32) (lba : UInt64) (count : UInt32) (buf : UInt64) (schedule : Schedule)
  | post (p : Post)

/-- The state behind an event, and what `nvme_io_submit` has done in it. -/
def Event.run (s : System) : Event → Option Attempt × System
  | .read nsid lba count buf schedule => (nvmeReadBlocks nsid lba count buf schedule s).2
  | .write nsid lba count buf schedule => (nvmeWriteBlocks nsid lba count buf schedule s).2
  | .post p => (none, s.post p)

/-- The steps of the system, which keep the attempts. -/
def Step (s : System × List Attempt) (e : Event) (t : System × List Attempt) : Prop :=
  t = ((e.run s.1).2, s.2 ++ (e.run s.1).1.toList)

/-- The queues as `nvme_init` leaves them. -/
structure Initial (s : System) : Prop where
  iosqTail : s.driver.iosqTail = 0
  iocqHead : s.driver.iocqHead = 0
  iocqPhase : s.driver.iocqPhase = true
  ioCid : s.driver.ioCid = 0
  controller : s.controller = ⟨0, [], 0, true, 0⟩
  iocq : ∀ i < queueDepth, s.iocq i = NVMeCQE.zero

end PolandOS.Nvme
