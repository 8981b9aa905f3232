import Mathlib.Algebra.Group.Nat.Defs
import PolandOS.Drivers.NvmeAttribution

/-! # The data pointers of block commands

A command names its buffer by two physical addresses: PRP1, from where the transfer goes
to the end of a page of 4096 bytes, and PRP2, where the rest of it is. The driver sets
PRP2 to 0. `prp_covers_iff` says for which buffers that is right.
-/

namespace PolandOS.Nvme

/-- The addresses that a data pointer describes, for a transfer of so many bytes. -/
def prpAddresses (prp1 prp2 : UInt64) (len : Nat) : List Nat :=
  let first := 4096 - prp1.toNat % 4096
  (List.range len).map fun i =>
    if i < first then prp1.toNat + i else prp2.toNat + (i - first)

/-- The number of bytes that a read or a write transfers. -/
def NVMeSQE.transferLength (cmd : NVMeSQE) (blockSize : UInt32) : Nat :=
  (cmd.cdw12.toNat % 2 ^ 16 + 1) * blockSize.toNat

/-- The command describes these `len` bytes. -/
def Covers (cmd : NVMeSQE) (blockSize : UInt32) (phys len : Nat) : Prop :=
  prpAddresses cmd.prp1 cmd.prp2 (cmd.transferLength blockSize) = (List.range len).map (phys + ·)

instance (cmd : NVMeSQE) (blockSize : UInt32) (phys len : Nat) :
    Decidable (Covers cmd blockSize phys len) := inferInstanceAs (Decidable (_ = _))

/-- A data pointer without a second page is right as long as it does not need one. -/
theorem prpAddresses_zero (prp1 : UInt64) (len : Nat) :
    prpAddresses prp1 0 len = (List.range len).map (prp1.toNat + ·) ↔
      prp1.toNat % 4096 + len ≤ 4096 := by
  have hpage : prp1.toNat % 4096 < 4096 := Nat.mod_lt _ (by decide)
  unfold prpAddresses
  rw [List.map_inj_left]
  constructor
  · intro h
    by_contra hlong
    -- the first byte of the second page is taken from address 0
    have hfirst := h (4096 - prp1.toNat % 4096) (List.mem_range.2 (by omega))
    rw [if_neg (Nat.lt_irrefl _), Nat.sub_self] at hfirst
    have hzero : (0 : UInt64).toNat = 0 := rfl
    omega
  · intro h i hi
    have hi : i < len := List.mem_range.1 hi
    exact if_pos (by omega)

/-! ## The command that is placed -/

variable {s : System}

theorem iosq_post (s : System) (p : Post) : (s.post p).iosq = s.iosq := by
  unfold System.post
  split
  · rfl
  · split <;> rfl

theorem iosq_posts (s : System) (ps : List Post) : (ps.foldl System.post s).iosq = s.iosq := by
  induction ps generalizing s with
  | nil => rfl
  | cons p ps ih => exact (ih (s.post p)).trans (iosq_post s p)

theorem iosq_pollCompletion (schedule : Schedule) (n : Nat) (s : System) :
    (pollCompletion schedule n s).2.2.iosq = s.iosq := by
  induction n generalizing s with
  | zero => rfl
  | succ n ih =>
      rw [pollCompletion]
      split
      · exact iosq_posts s _
      · exact (ih _).trans (iosq_posts s _)

/-- A submitted command stays in its slot. -/
theorem iosq_nvmeIoSubmit (cmd : NVMeSQE) (schedule : Schedule) (s : System) :
    (nvmeIoSubmit cmd schedule s).2.iosq s.driver.iosqTail = cmd.withCid s.driver.ioCid := by
  unfold nvmeIoSubmit
  dsimp only
  rw [iosq_pollCompletion]
  exact Function.update_self ..

/-- The command of a transfer that is accepted, as far as the data pointer goes. -/
theorem blockCommand_places (opcode nsid : UInt32) (lba : UInt64) (count : UInt32) (buf : UInt64)
    (schedule : Schedule) (s : System) :
    let run := blockCommand opcode nsid lba count buf schedule s
    let cmd := run.2.2.iosq s.driver.iosqTail
    run.2.1 ≠ none → count ≠ 0 ∧ count ≤ 4096 / s.driver.nsBlockSize ∧
      cmd.prp1 = buf - s.driver.hhdmOffset ∧ cmd.prp2 = 0 ∧ cmd.cdw12 = count - 1 := by
  intro run cmd hsubmitted
  have hpresent : s.driver.present = true := by
    by_contra h
    exact hsubmitted (by simp [run, blockCommand, h])
  have hcount : ¬(count = 0 ∨ count > 4096 / s.driver.nsBlockSize) := by
    intro h
    exact hsubmitted (by simp [run, blockCommand, hpresent, h])
  refine ⟨fun h => hcount (.inl h), UInt32.not_lt.1 fun h => hcount (.inr h), ?_⟩
  have hcmd : cmd = (NVMeSQE.withCid { NVMeSQE.zero with
      cdw0 := opcode
      nsid := if nsid = 0 then 1 else nsid
      prp1 := buf - s.driver.hhdmOffset
      cdw10 := (lba &&& 0xFFFFFFFF).toUInt32
      cdw11 := (lba >>> 32).toUInt32
      cdw12 := count - 1 } s.driver.ioCid) := by
    simp only [cmd, run, blockCommand, hpresent, Bool.not_true, Bool.false_eq_true, if_false,
      if_neg hcount]
    exact iosq_nvmeIoSubmit ..
  rw [hcmd]
  exact ⟨rfl, rfl, rfl⟩

theorem blockCommand_submits (opcode nsid : UInt32) (lba : UInt64) {count : UInt32} (buf : UInt64)
    (schedule : Schedule) (hpresent : s.driver.present = true)
    (hcount : ¬(count = 0 ∨ count > 4096 / s.driver.nsBlockSize)) :
    (blockCommand opcode nsid lba count buf schedule s).2.1 ≠ none := by
  simp [blockCommand, hpresent, if_neg hcount]

/-! ## Which transfers are described right -/

/-- The physical address of a buffer in the window of physical memory. -/
def System.physical (s : System) (buf : UInt64) : Nat := buf.toNat - s.driver.hhdmOffset.toNat

/-- The command that a call has placed describes the bytes of the buffer. -/
def DescribesBuffer (s : System) (count : UInt32) (buf : UInt64)
    (run : Int × Option Attempt × System) : Prop :=
  Covers (run.2.2.iosq s.driver.iosqTail) s.driver.nsBlockSize (s.physical buf)
    (count.toNat * s.driver.nsBlockSize.toNat)

/-- The transfer stays in one page of physical memory. -/
def InOnePage (s : System) (count : UInt32) (buf : UInt64) : Prop :=
  s.physical buf % 4096 + count.toNat * s.driver.nsBlockSize.toNat ≤ 4096

instance (s : System) (count : UInt32) (buf : UInt64) : Decidable (InOnePage s count buf) :=
  inferInstanceAs (Decidable (_ ≤ _))

theorem blockCommand_describes_iff (opcode nsid : UInt32) (lba : UInt64) (count : UInt32)
    (buf : UInt64) (schedule : Schedule) (hwindow : s.driver.hhdmOffset ≤ buf)
    (hsubmitted : (blockCommand opcode nsid lba count buf schedule s).2.1 ≠ none) :
    DescribesBuffer s count buf (blockCommand opcode nsid lba count buf schedule s) ↔
      InOnePage s count buf := by
  obtain ⟨hzero, hmax, hprp1, hprp2, hnlb⟩ :=
    blockCommand_places opcode nsid lba count buf schedule s hsubmitted
  have hphys : (buf - s.driver.hhdmOffset).toNat = s.physical buf := UInt64.toNat_sub_of_le _ _ hwindow
  have hpos : count.toNat ≠ 0 := fun h => hzero (UInt32.toNat_inj.1 h)
  have hsmall : count.toNat ≤ 4096 := by
    have hle : count.toNat ≤ (4096 / s.driver.nsBlockSize).toNat := hmax
    rw [UInt32.toNat_div] at hle
    exact Nat.le_trans hle (Nat.div_le_self ..)
  have hlen : (count - 1).toNat % 2 ^ 16 + 1 = count.toNat := by
    have hsub : (count - 1).toNat = count.toNat - 1 :=
      UInt32.toNat_sub_of_le _ _ (Nat.one_le_iff_ne_zero.2 hpos)
    rw [hsub]
    omega
  rw [DescribesBuffer, Covers, NVMeSQE.transferLength, hprp1, hprp2, hnlb, hlen, ← hphys,
    prpAddresses_zero, hphys]
  rfl

/-- A call that submits its command describes the buffer when it stays in one page. -/
theorem prp_covers_iff (s : System) (nsid : UInt32) (lba : UInt64) (count : UInt32) (buf : UInt64)
    (schedule : Schedule) (hwindow : s.driver.hhdmOffset ≤ buf) :
    ((nvmeReadBlocks nsid lba count buf schedule s).2.1 ≠ none →
      (DescribesBuffer s count buf (nvmeReadBlocks nsid lba count buf schedule s) ↔
        InOnePage s count buf)) ∧
    ((nvmeWriteBlocks nsid lba count buf schedule s).2.1 ≠ none →
      (DescribesBuffer s count buf (nvmeWriteBlocks nsid lba count buf schedule s) ↔
        InOnePage s count buf)) :=
  ⟨blockCommand_describes_iff nvmeCmdRead nsid lba count buf schedule hwindow,
    blockCommand_describes_iff nvmeCmdWrite nsid lba count buf schedule hwindow⟩

/-- A write from the start of a page. -/
theorem prp_covers_aligned :
    DescribesBuffer started 1 0x1000 (nvmeWriteBlocks 1 0 1 0x1000 prompt started) :=
  ((prp_covers_iff started 1 0 1 0x1000 prompt (by decide)).2
    (blockCommand_submits nvmeCmdWrite 1 0 0x1000 prompt rfl (by decide))).2 (by decide)

/-- A buffer of 512 bytes whose second half is in the next page: the command is submitted,
and the second half comes from address 0. -/
theorem prp_misses_second_page :
    started.driver.hhdmOffset ≤ 0x1F00 ∧
    (nvmeWriteBlocks 1 0 1 0x1F00 prompt started).2.1 ≠ none ∧
    ¬DescribesBuffer started 1 0x1F00 (nvmeWriteBlocks 1 0 1 0x1F00 prompt started) := by
  have hsubmitted : (blockCommand nvmeCmdWrite 1 0 1 0x1F00 prompt started).2.1 ≠ none :=
    blockCommand_submits nvmeCmdWrite 1 0 0x1F00 prompt rfl (by decide)
  refine ⟨by decide, hsubmitted, fun h => ?_⟩
  have hpage := (blockCommand_describes_iff nvmeCmdWrite 1 0 1 0x1F00 prompt (by decide)
    hsubmitted).1 h
  exact absurd hpage (by decide)

end PolandOS.Nvme
