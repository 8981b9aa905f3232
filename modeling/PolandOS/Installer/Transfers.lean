import PolandOS.Drivers.FailedInit
import PolandOS.Drivers.NvmePrp
import PolandOS.Installer.Calls

/-! # The transfers of the installer

The installer passes buffers of 512 bytes and asks for one block at a time; the driver accepts
as many blocks as fit into 4096 bytes. `transfers_fit_iff` says for which formats of the
namespace that goes together.
-/

namespace PolandOS.Nvme

open Staging ByteMem

variable {m : NvmeMachine}

theorem keeps_createSq :
    Keeps NvmeStatics.nsBlockSize (fun _ => True) (createSq m) := by
  refine keeps_bind (fun _ => rfl) fun phys => ?_
  refine keeps_bind (keeps_modify fun _ => rfl) fun _ => ?_
  refine keeps_check trivial ?_
  refine keeps_bind (keeps_modify fun _ => rfl) fun _ => ?_
  refine keeps_bind (fun _ => rfl) fun result => ?_
  exact keeps_ite (keeps_leave trivial) (keeps_pure _)

/-- The block size behind `nvme_init`. -/
theorem nvmeInit_blockSize (m : NvmeMachine) :
    Outcome (fun _ t => t.nsBlockSize = blockSize m.namespaceData) (fun _ _ => True)
      (nvmeInit m) (.boot m) := by
  refine outcome_bind (findController_outcome.mono (fun _ _ h => h) fun _ _ _ => trivial)
    fun _ s hs => ?_
  refine outcome_bind ((keeps_disable (E := fun _ => True) trivial).outcome hs fun _ _ _ _ => trivial)
    fun units s hs => ?_
  refine outcome_bind ((adminQueues_outcome hs).mono (fun _ _ h => h) fun _ _ _ => trivial)
    fun _ s hs => ?_
  refine outcome_bind ((keeps_enable (E := fun _ => True) trivial trivial units).outcome hs
    fun _ _ _ _ => trivial) fun _ s hs => ?_
  refine outcome_bind ((identifyController_outcome hs).mono (fun _ _ h => h) fun _ _ _ => trivial)
    fun idPhys s hs => ?_
  refine outcome_bind ((identifyNamespace_outcome hs idPhys).mono (fun _ _ h => h)
    fun _ _ _ => trivial) fun _ s hs => ?_
  refine outcome_bind ((createCq_outcome hs).mono (fun _ _ h => h) fun _ _ _ => trivial)
    fun _ s hs => ?_
  exact keeps_createSq.outcome (congrArg Published.nsBlockSize hs) fun _ _ _ _ => trivial

end PolandOS.Nvme

namespace PolandOS.Installer.Calls

open ByteMem Dialogue Nvme

/-- The call, with the address of its buffer. -/
def issue (buf : UInt64) (schedule : Schedule) (t : Nvme.System) :
    BlockCall → Int × Option Attempt × Nvme.System
  | .write lba count _ => nvmeWriteBlocks 1 (UInt64.ofNat lba) count buf schedule t
  | .read lba count => nvmeReadBlocks 1 (UInt64.ofNat lba) count buf schedule t

/-- The call does not transfer more than the 512 bytes of its buffer, if it is accepted. -/
def Fits (blkSize : UInt32) (q : BlockCall) : Prop :=
  ∀ buf schedule, ∀ t : Nvme.System, t.driver.nsBlockSize = blkSize →
    let run := issue buf schedule t q
    run.2.1 ≠ none → (run.2.2.iosq t.driver.iosqTail).transferLength blkSize ≤ 512

/-- The calls of all runs. -/
def TransfersFit (blkSize : UInt32) : Prop :=
  ∀ m tr p, Path (installerRun m blkSize).run tr p → ∀ e ∈ tr, Fits blkSize e.1

def count : BlockCall → UInt32
  | .write _ count _ => count
  | .read _ count => count

variable {m : InstallMachine} {blkSize : UInt32}

theorem exists_issue (q : BlockCall) : ∃ opcode lba, ∀ buf schedule t,
    issue buf schedule t q = blockCommand opcode 1 lba (count q) buf schedule t := by
  cases q with
  | write lba count buf => exact ⟨_, _, fun _ _ _ => rfl⟩
  | read lba count => exact ⟨_, _, fun _ _ _ => rfl⟩

/-- The command for one block. -/
theorem transferLength_one (blkSize : UInt32) {opcode : UInt32} {lba buf : UInt64}
    {schedule : Schedule} {t : Nvme.System}
    (h : (blockCommand opcode 1 lba 1 buf schedule t).2.1 ≠ none) :
    1 ≤ 4096 / t.driver.nsBlockSize ∧
      ((blockCommand opcode 1 lba 1 buf schedule t).2.2.iosq t.driver.iosqTail).transferLength
        blkSize = blkSize.toNat := by
  obtain ⟨-, hmax, -, -, hnlb⟩ := blockCommand_places opcode 1 lba 1 buf schedule t h
  refine ⟨hmax, ?_⟩
  rw [NVMeSQE.transferLength, hnlb]
  exact Nat.one_mul _

/-- A driver with blocks of a size. -/
def withBlocks (blkSize : UInt32) : Nvme.System :=
  { started with driver := { started.driver with nsBlockSize := blkSize } }

/-- A call for one block fits, or is refused. -/
theorem fits_iff {q : BlockCall} (hq : count q = 1) :
    Fits blkSize q ↔ blkSize.toNat ≤ 512 ∨ 4096 / blkSize = 0 := by
  obtain ⟨opcode, lba, hissue⟩ := exists_issue q
  rw [hq] at hissue
  constructor
  · intro hfits
    rw [or_iff_not_imp_right]
    intro hone
    have hcount : ¬((1 : UInt32) = 0 ∨ 1 > 4096 / blkSize) := by
      rintro (hzero | hlt)
      · exact absurd hzero (by decide)
      · have hlt : (4096 / blkSize).toNat < 1 := hlt
        exact hone (UInt32.toNat_inj.1 (Nat.lt_one_iff.1 hlt))
    have hsubmitted := blockCommand_submits (s := withBlocks blkSize) opcode 1 lba 0 prompt rfl hcount
    have hlength := hfits 0 prompt (withBlocks blkSize) rfl
    simp only [hissue] at hlength
    rw [(transferLength_one blkSize hsubmitted).2] at hlength
    exact hlength hsubmitted
  · intro hsize buf schedule t ht
    simp only [hissue]
    intro hsubmitted
    obtain ⟨hmax, hlength⟩ := transferLength_one blkSize hsubmitted
    rw [hlength]
    refine hsize.resolve_right fun hzero => ?_
    rw [ht, hzero] at hmax
    exact absurd hmax (by decide)

/-! ## All calls -/

/-- Every call is for one block. -/
def oneBlock : Monitor BlockCall Unit := ⟨fun _ _ => (), fun _ q => count q = 1⟩

theorem tableCall_one {q : BlockCall} (h : TableCall m q) : oneBlock.Stays () q := by
  cases h <;> exact ⟨rfl, rfl⟩

theorem systemCall_one {q : BlockCall} (h : SystemCall m q) : oneBlock.Stays () q := by
  cases h <;> exact ⟨rfl, rfl⟩

theorem obeys_oneBlock (m : InstallMachine) (blkSize : UInt32) :
    (installerRun m blkSize).run.Obeys oneBlock (Ends (fun _ _ => True) fun _ _ => True) () := by
  by_cases hconfirmed : Confirmed m blkSize
  · rw [installerRun_confirmed hconfirmed]
    refine obeys_try (obeys_writeTables (fun _ h => tableCall_one h) (fun crc => ⟨rfl, ?_, trivial⟩)
      (fun _ _ => trivial) fun _ => trivial)
    refine obeys_try (obeys_writeSystem (fun _ h => systemCall_one h) ?_ fun _ _ => trivial)
    exact obeys_verify (systemCall_one (m := m) .read) trivial fun _ _ => trivial
  · obtain ⟨message, -, hrun⟩ := installerRun_refused hconfirmed
    rw [hrun]
    trivial

theorem count_eq_one {tr : List (Sigma BlockCall.Answer)} {p : Prog BlockCall BlockCall.Answer _}
    (h : Path (installerRun m blkSize).run tr p) {e : Sigma BlockCall.Answer} (he : e ∈ tr) :
    count e.1 = 1 := by
  obtain ⟨tr₁, tr₂, rfl⟩ := List.append_of_mem he
  exact h.allowed (obeys_oneBlock m blkSize)

theorem transfersFit_iff (h : blkSize ≠ 0) :
    TransfersFit blkSize ↔ blkSize.toNat ≤ 512 ∨ 4096 / blkSize = 0 := by
  constructor
  · intro hfit
    have hconfirmed : Confirmed tinyDisk blkSize := ⟨by decide, h, .inl rfl⟩
    obtain ⟨p, hp⟩ := path_mbr hconfirmed
    exact (fits_iff rfl).1 (hfit _ _ _ hp _ List.mem_cons_self)
  · intro hsize m tr p hp e he
    exact (fits_iff (count_eq_one hp he)).2 hsize

theorem toNat_blockSize_le_iff (data : Mem) : (blockSize data).toNat ≤ 512 ↔ lbads data ≤ 9 := by
  have hall : ∀ k < 16, ((1 : UInt32) <<< Nat.toUInt32 k).toNat ≤ 512 ↔ k ≤ 9 := by decide
  exact hall _ (lbads_lt data)

theorem blockSize_ne_zero (data : Mem) : blockSize data ≠ 0 := by
  have hall : ∀ k < 16, (1 : UInt32) <<< Nat.toUInt32 k ≠ 0 := by decide
  exact hall _ (lbads_lt data)

/-- The transfers fit unless the blocks of the namespace have 1024, 2048 or 4096 bytes. -/
theorem transfers_fit_iff (data : Mem) :
    TransfersFit (blockSize data) ↔ lbads data ≤ 9 ∨ 12 < lbads data := by
  rw [transfersFit_iff (blockSize_ne_zero data), toNat_blockSize_le_iff, blockSize_large]

/-- Identify data of a namespace with blocks of 4096 bytes. -/
def largeBlocks : Mem := fun a => if a = 130 then 12 else 0

theorem large_transfer : ¬TransfersFit (blockSize largeBlocks) := by
  rw [transfersFit_iff (blockSize_ne_zero _)]
  decide

end PolandOS.Installer.Calls
