import Mathlib.Data.List.Basic
import PolandOS.Installer.Install

/-! # What the installer's report is worth

`Installed` says what a disk holds behind an installation, block by block.
`installer_report`: behind a run that prints the success banner the disk is installed
exactly when the superblock could be read before its update.
-/

namespace PolandOS.Installer

open ByteMem Staging Staged

/-! ## Fields -/

variable {b : Block} {off width v : Nat}

/-- A field that has been set. -/
theorem field_setField (hv : v < 256 ^ width) (hw : width ≤ 8) :
    field (setField b off width v) off width = v := by
  unfold field setField
  rw [readLE_writeLE _ _ (by omega), Nat.mod_eq_of_lt hv]

/-- A field apart from the one that has been set. -/
theorem field_setField_ne {off' width' : Nat} (h : off' + width' ≤ off ∨ off + width ≤ off')
    (hoff : off + width ≤ 512) (hoff' : off' + width' ≤ 512) :
    field (setField b off width v) off' width' = field b off' width' := by
  unfold field setField
  apply readLE_writeLE_apart
  intro i hi j hj heq
  rw [byteAt_eq (by omega), byteAt_eq (by omega)] at heq
  omega

theorem field_lt (b : Block) (off width : Nat) : field b off width < 256 ^ width :=
  readLE_lt b off width

/-- A byte of a field that has been set does not depend on what was there. -/
theorem setField_congr {b' : Block} {i : Nat} (hi : off ≤ i ∧ i < off + width)
    (hoff : off + width ≤ 512) : setField b off width v i = setField b' off width v i := by
  unfold setField
  induction width generalizing b b' off v with
  | zero => omega
  | succ width ih =>
      rw [writeLE, writeLE]
      by_cases hfirst : i = off
      · have hframe : ∀ m : Block, writeLE (set m (off % 2 ^ 64) (UInt8.ofNat v)) (off + 1) width
            (v / 256) i = UInt8.ofNat v := by
          intro m
          have hslot : off % 2 ^ 64 = i := by omega
          rw [writeLE_frame, hslot, set_self]
          intro j hj
          rw [byteAt_eq (by omega)]
          omega
        rw [hframe, hframe]
      · exact ih (by omega) (by omega)

/-- A field that is set twice. -/
theorem setField_setField (b : Block) (hoff : off + width ≤ 512) (u v : Nat) :
    setField (setField b off width u) off width v = setField b off width v := by
  funext i
  by_cases hi : off ≤ i ∧ i < off + width
  · exact setField_congr hi hoff
  · have hframe : ∀ (m : Block) (w : Nat), setField m off width w i = m i := by
      intro m w
      apply writeLE_frame
      intro j hj
      rw [byteAt_eq (by omega)]
      omega
    rw [hframe, hframe, hframe]

/-! ## An installed disk -/

/-- The number of kernel sectors. -/
def sectors (kernel : List UInt8) : Nat := (kernel.length + 511) / 512

/-- The partition entries on a disk. -/
def entryBytes (disk : Disk) : List UInt8 :=
  (List.range 32).flatMap fun s => blockBytes (disk (2 + s)) 512

/-- A disk with a protective MBR, partition entries and a GPT header that check, a
superblock that tells the number of kernel sectors, and the kernel image behind it,
padded with zeros. -/
structure Installed (totalBlocks : UInt64) (kernel : List UInt8) (disk : Disk) : Prop where
  mbrSignature : field (disk 0) 510 2 = 0xAA55
  mbrType : field (disk 0) 450 1 = 0xEE
  mbrFirstLba : field (disk 0) 454 4 = 1
  mbrSectors : field (disk 0) 458 4 = min (totalBlocks.toNat - 1) 0xFFFFFFFF
  partCrc32 : field (disk 1) 88 4 = (Crc.checksum crcPoly (entryBytes disk)).toNat
  gptSignature : field (disk 1) 0 8 = gptSignature
  headerCrc32 : field (disk 1) 16 4 = (crc32 (setField (disk 1) 16 4 0) 92).toNat
  magic : field (disk 2048) 0 8 = polandosMagic
  kernelSectors : field (disk 2048) 16 4 = sectors kernel
  image : ∀ i < 512 * sectors kernel, disk (2048 + 8 + i / 512) (i % 512) = kernel.getD i 0

/-! ## What is written -/

variable {m : InstallMachine}

/-- The fields of the protective MBR. -/
theorem mbr_fields (h : m.totalBlocks ≠ 0) :
    field (mbr m) 510 2 = 0xAA55 ∧ field (mbr m) 450 1 = 0xEE ∧ field (mbr m) 454 4 = 1 ∧
      field (mbr m) 458 4 = min (m.totalBlocks.toNat - 1) 0xFFFFFFFF := by
  have hsectors : (if m.totalBlocks - 1 > 0xFFFFFFFF then 0xFFFFFFFF
      else (m.totalBlocks - 1).toNat) = min (m.totalBlocks.toNat - 1) 0xFFFFFFFF := by
    have hne : m.totalBlocks.toNat ≠ 0 := fun h0 => h (UInt64.toNat_inj.mp h0)
    have hsub : (m.totalBlocks - 1).toNat = m.totalBlocks.toNat - 1 :=
      UInt64.toNat_sub_of_le _ _ (UInt64.le_iff_toNat_le.mpr (Nat.pos_of_ne_zero hne))
    by_cases hlarge : m.totalBlocks - 1 > 0xFFFFFFFF
    · rw [if_pos hlarge]
      have hlt := UInt64.lt_iff_toNat_lt.mp hlarge
      rw [hsub] at hlt
      exact (Nat.min_eq_right (Nat.le_of_lt hlt)).symm
    · rw [if_neg hlarge, hsub]
      have hle := UInt64.le_iff_toNat_le.mp (UInt64.not_lt.mp hlarge)
      rw [hsub] at hle
      exact (Nat.min_eq_left hle).symm
  have hlt : min (m.totalBlocks.toNat - 1) 0xFFFFFFFF < 256 ^ 4 :=
    Nat.lt_of_le_of_lt (Nat.min_le_right _ _) (by decide)
  unfold mbr
  simp only [hsectors]
  refine ⟨?_, ?_, ?_, ?_⟩
  · exact field_setField (by decide) (by decide)
  · rw [field_setField_ne (by decide) (by decide) (by decide),
      field_setField_ne (by decide) (by decide) (by decide),
      field_setField_ne (by decide) (by decide) (by decide)]
    exact field_setField (by decide) (by decide)
  · rw [field_setField_ne (by decide) (by decide) (by decide),
      field_setField_ne (by decide) (by decide) (by decide)]
    exact field_setField (by decide) (by decide)
  · rw [field_setField_ne (by decide) (by decide) (by decide)]
    exact field_setField hlt (by decide)

theorem field_generateGuid {off' width' : Nat} (b : Block) (ticks ticks' : UInt64)
    (h : off' + width' ≤ off ∨ off + 16 ≤ off') (hoff : off + 16 ≤ 512)
    (hoff' : off' + width' ≤ 512) :
    field (generateGuid b off ticks ticks') off' width' = field b off' width' := by
  unfold generateGuid
  rw [field_setField_ne (by omega) (by omega) hoff', field_setField_ne (by omega) (by omega) hoff',
    field_setField_ne (by omega) (by omega) hoff', field_setField_ne (by omega) (by omega) hoff']

/-- The signature and both checksums of the header. -/
theorem gptHeader_fields (partCrc : UInt32) :
    field (gptHeader m partCrc) 0 8 = gptSignature ∧
      field (gptHeader m partCrc) 88 4 = partCrc.toNat ∧
      field (gptHeader m partCrc) 16 4 =
        (crc32 (setField (gptHeader m partCrc) 16 4 0) 92).toNat := by
  have hcrc : partCrc.toNat < 256 ^ 4 := partCrc.toNat_lt
  unfold gptHeader
  refine ⟨?_, ?_, ?_⟩
  · rw [field_setField_ne (by decide) (by decide) (by decide),
      field_setField_ne (by decide) (by decide) (by decide),
      field_setField_ne (by decide) (by decide) (by decide),
      field_setField_ne (by decide) (by decide) (by decide),
      field_setField_ne (by decide) (by decide) (by decide),
      field_setField_ne (by decide) (by decide) (by decide),
      field_generateGuid _ _ _ (by decide) (by decide) (by decide),
      field_setField_ne (by decide) (by decide) (by decide),
      field_setField_ne (by decide) (by decide) (by decide),
      field_setField_ne (by decide) (by decide) (by decide),
      field_setField_ne (by decide) (by decide) (by decide),
      field_setField_ne (by decide) (by decide) (by decide),
      field_setField_ne (by decide) (by decide) (by decide),
      field_setField_ne (by decide) (by decide) (by decide)]
    exact field_setField (by decide) (by decide)
  · rw [field_setField_ne (by decide) (by decide) (by decide),
      field_setField_ne (by decide) (by decide) (by decide)]
    exact field_setField hcrc (by decide)
  · rw [setField_setField _ (by decide), setField_setField _ (by decide)]
    exact field_setField (UInt32.toNat_lt _) (by decide)

theorem superblock_fields : field superblock 0 8 = polandosMagic ∧ field superblock 16 4 = 0 := by
  unfold superblock
  constructor
  · rw [field_setField_ne (by decide) (by decide) (by decide),
      field_setField_ne (by decide) (by decide) (by decide),
      field_setField_ne (by decide) (by decide) (by decide),
      field_setField_ne (by decide) (by decide) (by decide)]
    exact field_setField (by decide) (by decide)
  · rw [field_setField_ne (by decide) (by decide) (by decide)]
    exact field_setField (by decide) (by decide)

theorem kernelSectors_lt (kernel : List UInt8) : kernelSectors kernel < 256 ^ 4 :=
  Nat.mod_lt _ (by decide)

/-- Where the number of sectors fits into the superblock, it is the right one. -/
theorem kernelSectors_eq {kernel : List UInt8} (h : sectors kernel < 2 ^ 32) :
    kernelSectors kernel = sectors kernel := by
  unfold sectors at h ⊢
  unfold kernelSectors
  rw [add64_eq (by omega), Nat.mod_eq_of_lt h]

/-- The sectors of the kernel hold the image. -/
theorem kernelSector_image (kernel : List UInt8) (i : Nat) :
    kernelSector kernel (i / 512) (i % 512) = kernel.getD i 0 := by
  have hsplit : i / 512 * 512 + i % 512 = i := by omega
  have hmod : i % 512 < 512 := Nat.mod_lt _ (by decide)
  unfold kernelSector
  rw [hsplit]
  by_cases hin : i < kernel.length
  · refine if_pos ?_
    split <;> omega
  · have hout : kernel.getD i 0 = 0 := by
      rw [List.getD_eq_getElem?_getD, List.getElem?_eq_none (Nat.le_of_not_lt hin)]
      rfl
    rw [hout, ite_self]

/-! ## The block commands -/

/-- Nothing is said of a run that is left. -/
abbrev AnyExit : String → InstallState → Prop := fun _ _ => True

variable {s : InstallState}

theorem writeBlock_outcome (lba : Nat) (buf : Block) (message : String) :
    Outcome (fun _ t => t = ⟨Function.update s.disk lba buf, s.commands + 1⟩) AnyExit
      (writeBlock m lba buf message) s := by
  unfold Outcome writeBlock
  by_cases h : m.succeeds s.commands = true
  · rw [if_pos h]
  · rw [if_neg h]
    trivial

theorem readBlock_outcome (lba : Nat) :
    Outcome (fun buf t => buf = (if m.succeeds s.commands then some (s.disk lba) else none) ∧
      t = ⟨s.disk, s.commands + 1⟩) AnyExit (readBlock m lba) s :=
  ⟨rfl, rfl⟩

theorem readBlockOr_outcome (lba : Nat) (message : String) :
    Outcome (fun buf t => buf = s.disk lba ∧ t = ⟨s.disk, s.commands + 1⟩) AnyExit
      (readBlockOr m lba message) s := by
  refine outcome_bind (readBlock_outcome lba) ?_
  rintro buf t ⟨hbuf, ht⟩
  refine outcome_ofOption (fun a ha => ⟨?_, ht⟩) fun _ => trivial
  by_cases h : m.succeeds s.commands = true
  · rw [if_pos h, ha] at hbuf
    exact Option.some.inj hbuf
  · rw [if_neg h, ha] at hbuf
    cases hbuf

/-- What a loop of writes leaves: its blocks, and the others as they were. -/
structure Wrote (lba : Nat) (block : Nat → Block) (is : List Nat) (s t : InstallState) : Prop where
  blocks : ∀ i ∈ is, t.disk (lba + i) = block i
  others : ∀ x, (∀ i ∈ is, x ≠ lba + i) → t.disk x = s.disk x
  commands : t.commands = s.commands + is.length

/-- A loop of writes leaves these blocks on the disk and counts its commands. -/
theorem writeBlocks_outcome (lba : Nat) (block : Nat → Block) (message : String) (is : List Nat) :
    Outcome (fun _ t => Wrote lba block is s t) AnyExit (writeBlocks m lba block message is) s := by
  induction is generalizing s with
  | nil => exact outcome_pure ⟨fun i hi => (by cases hi), fun _ _ => rfl, rfl⟩
  | cons i is ih =>
      refine outcome_bind (writeBlock_outcome _ _ _) ?_
      rintro - t rfl
      refine ih.mono ?_ fun _ _ h => h
      rintro - u ⟨hblocks, hothers, hcommands⟩
      refine ⟨?_, ?_, ?_⟩
      · intro j hj
        by_cases hlater : j ∈ is
        · exact hblocks j hlater
        · -- the block of the first round, which no later one writes
          obtain rfl : j = i := (List.mem_cons.mp hj).resolve_right hlater
          rw [hothers _ fun k hk heq => hlater (by rwa [Nat.add_left_cancel heq])]
          exact Function.update_self _ _ _
      · intro x hx
        rw [hothers x fun k hk => hx k (List.mem_cons_of_mem _ hk)]
        exact Function.update_of_ne (hx i List.mem_cons_self) _ _
      · rw [hcommands, List.length_cons]
        dsimp only
        omega

theorem readEntries_outcome (is : List Nat) (crc : UInt32) :
    Outcome (fun r t => r = Crc.remainder crcPoly crc
        (is.flatMap fun i => blockBytes (s.disk (2 + i)) 512) ∧
      t.disk = s.disk ∧ t.commands = s.commands + is.length) AnyExit (readEntries m is crc) s := by
  induction is generalizing s crc with
  | nil => exact outcome_pure ⟨rfl, rfl, rfl⟩
  | cons i is ih =>
      refine outcome_bind (readBlockOr_outcome _ _) ?_
      rintro buf t ⟨rfl, rfl⟩
      refine (ih _).mono ?_ fun _ _ h => h
      rintro r u ⟨hr, hdisk, hcommands⟩
      refine ⟨?_, hdisk, ?_⟩
      · rw [hr, List.flatMap_cons, Crc.remainder_append]
      · rw [hcommands, List.length_cons]
        dsimp only
        omega

/-! ## The run -/

/-- The MBR, the partition entries and the GPT header are there. -/
structure Tables (m : InstallMachine) (disk : Disk) : Prop where
  mbr : disk 0 = mbr m
  header : disk 1 = gptHeader m (Crc.checksum crcPoly (entryBytes disk))

theorem entryBytes_congr {disk disk' : Disk} (h : ∀ i < 32, disk' (2 + i) = disk (2 + i)) :
    entryBytes disk' = entryBytes disk := by
  unfold entryBytes
  apply List.flatMap_congr
  intro i hi
  rw [h i (List.mem_range.mp hi)]

/-- What is written behind them leaves them. -/
theorem Tables.frame {disk disk' : Disk} (h : Tables m disk)
    (hframe : ∀ x < 2048, disk' x = disk x) : Tables m disk' := by
  have hentries : entryBytes disk' = entryBytes disk :=
    entryBytes_congr fun i hi => hframe _ (by omega)
  refine ⟨(hframe 0 (by decide)).trans h.mbr, ?_⟩
  rw [hentries]
  exact (hframe 1 (by decide)).trans h.header

/-- The tables are written first, with 66 commands. -/
theorem writeTables_outcome (h : s.commands = 0) :
    Outcome (fun _ t => Tables m t.disk ∧ t.commands = 66) AnyExit (writeTables m) s := by
  refine outcome_bind (writeBlock_outcome _ _ _) ?_
  rintro - t rfl
  refine outcome_ite (fun _ => outcome_leave (α := Unit) trivial) fun _ => ?_
  refine outcome_bind (writeBlocks_outcome _ _ _ _) ?_
  rintro - t ⟨-, hothers, hcommands⟩
  refine outcome_bind (readEntries_outcome _ _) ?_
  rintro crc u ⟨hcrc, hdisk, hcommands'⟩
  refine (writeBlock_outcome _ _ _).mono ?_ fun _ _ h => h
  rintro - w hw
  have hcrc' : ~~~crc = Crc.checksum crcPoly (entryBytes t.disk) := by
    rw [hcrc]
    rfl
  have hone : w.disk 1 = gptHeader m (~~~crc) := by
    rw [hw]
    exact Function.update_self 1 _ u.disk
  have hother : ∀ x ≠ 1, w.disk x = t.disk x := by
    intro x hx
    rw [hw]
    exact (Function.update_of_ne hx _ _).trans (congrFun hdisk x)
  refine ⟨⟨?_, ?_⟩, ?_⟩
  · rw [hother 0 (by decide), hothers 0 fun i _ => by omega]
    exact Function.update_self 0 (mbr m) s.disk
  · rw [hone, hcrc', entryBytes_congr fun i _ => hother _ (by omega)]
  · rw [hw]
    change u.commands + 1 = 66
    rw [hcommands', hcommands]
    simp [h]

/-- The superblock that an installation ends with: without the number of sectors where
the read before the update fails. -/
def lastSuperblock (m : InstallMachine) : Block :=
  if m.succeeds (67 + kernelSectors m.kernel) then
    setField superblock 16 4 (kernelSectors m.kernel)
  else superblock

/-- The tables are there, and behind them the superblock and the kernel. -/
structure System (m : InstallMachine) (disk : Disk) : Prop where
  tables : Tables m disk
  superblock : disk 2048 = lastSuperblock m
  kernel : ∀ i < kernelSectors m.kernel, disk (2056 + i) = kernelSector m.kernel i

/-- The superblock is written a second time, over what has been installed. -/
theorem updateSuperblock_outcome (htables : Tables m s.disk) (hsuper : s.disk 2048 = superblock)
    (hkernel : ∀ i < kernelSectors m.kernel, s.disk (2056 + i) = kernelSector m.kernel i)
    (hcommands : s.commands = 67 + kernelSectors m.kernel) :
    Outcome (fun _ t => System m t.disk) AnyExit (updateSuperblock m) s := by
  refine outcome_bind (readBlock_outcome _) ?_
  rintro buf t ⟨hbuf, ht⟩
  rw [hcommands] at hbuf
  by_cases hread : m.succeeds (67 + kernelSectors m.kernel) = true
  · rw [if_pos hread] at hbuf
    rw [hbuf]
    refine (writeBlock_outcome _ _ _).mono ?_ fun _ _ h => h
    rintro - u hu
    have hdisk : ∀ x ≠ 2048, u.disk x = s.disk x := by
      intro x hx
      rw [hu, ht]
      exact Function.update_of_ne hx _ _
    refine ⟨htables.frame fun x hx => hdisk x (by omega), ?_, fun i hi => ?_⟩
    · rw [lastSuperblock, if_pos hread, hu, ← hsuper]
      exact Function.update_self 2048 _ t.disk
    · rw [hdisk _ (by omega)]
      exact hkernel i hi
  · rw [if_neg hread] at hbuf
    rw [hbuf]
    refine outcome_pure ?_
    rw [ht]
    refine ⟨htables, ?_, hkernel⟩
    rw [lastSuperblock, if_neg hread]
    exact hsuper

/-- Behind the tables, the rest of the installation leaves a system, or stops with an error. -/
theorem writeSystem_outcome (htables : Tables m s.disk) (hcommands : s.commands = 66) :
    Outcome (fun _ t => System m t.disk) AnyExit (writeSystem m) s := by
  refine outcome_bind (writeBlock_outcome _ _ _) ?_
  rintro - t ht
  refine outcome_bind (writeBlocks_outcome _ _ _ _) ?_
  rintro - u ⟨hblocks, hothers, hcommands'⟩
  have hbefore : ∀ x < 2048, u.disk x = s.disk x := by
    intro x hx
    have hlba : (partStart + 8).toNat = 2056 := rfl
    rw [hothers x fun i _ => by omega, ht]
    have hne : x ≠ partStart.toNat := by
      have hstart : partStart.toNat = 2048 := rfl
      omega
    exact Function.update_of_ne hne _ _
  refine updateSuperblock_outcome (htables.frame hbefore) ?_ ?_ ?_
  · have hlba : (partStart + 8).toNat = 2056 := rfl
    rw [hothers 2048 fun i _ => by omega, ht]
    exact Function.update_self 2048 superblock s.disk
  · exact fun i hi => hblocks i (List.mem_range.mpr hi)
  · rw [hcommands', ht, List.length_range]
    dsimp only
    omega

theorem confirm_outcome :
    Outcome (fun _ t => m.totalBlocks ≠ 0 ∧ t = s) AnyExit (confirm m) s := by
  refine outcome_ite (fun _ => outcome_leave (α := Unit) trivial) fun hblocks => ?_
  refine outcome_ite (fun _ => outcome_leave trivial) fun _ => ?_
  exact outcome_pure ⟨hblocks, rfl⟩

/-- A read and a check of what was read leave the disk as it is. -/
theorem readCheck_outcome (lba : Nat) (message message' : String) (c : Block → Prop)
    [DecidablePred c] :
    Outcome (fun _ t => t.disk = s.disk) AnyExit
      (readBlockOr m lba message >>= fun buf => if c buf then leave message' else pure ()) s := by
  refine outcome_bind (readBlockOr_outcome _ _) ?_
  rintro buf t ⟨-, rfl⟩
  refine outcome_ite (fun _ => outcome_leave trivial) fun _ => ?_
  exact outcome_pure rfl

theorem verify_outcome : Outcome (fun _ t => t.disk = s.disk) AnyExit (verify m) s :=
  readCheck_outcome _ _ _ fun buf => field buf 0 8 ≠ polandosMagic

/-- The disk behind a run that prints the success banner. -/
theorem installerRun_outcome (h : s.commands = 0) :
    Outcome (fun _ t => m.totalBlocks ≠ 0 ∧ System m t.disk) AnyExit (installerRun m) s := by
  refine outcome_bind confirm_outcome ?_
  rintro - t ⟨hblocks, ht⟩
  have hcommands : t.commands = 0 := by rw [ht, h]
  refine outcome_bind (writeTables_outcome hcommands) ?_
  rintro - u ⟨htables, hcommands'⟩
  refine outcome_bind (writeSystem_outcome htables hcommands') ?_
  intro _ v hv
  refine verify_outcome.mono ?_ fun _ _ h => h
  intro _ w hw
  rw [hw]
  exact ⟨hblocks, hv⟩

/-! ## The report -/

/-- The condition: the number of kernel sectors fits into the superblock, and the read
before the update succeeds, unless there is no kernel. -/
def Truthful (m : InstallMachine) : Prop :=
  sectors m.kernel < 2 ^ 32 ∧ (m.succeeds (67 + sectors m.kernel) = true ∨ m.kernel = [])

theorem lastSuperblock_magic : field (lastSuperblock m) 0 8 = polandosMagic := by
  unfold lastSuperblock
  by_cases hread : m.succeeds (67 + kernelSectors m.kernel) = true
  · rw [if_pos hread, field_setField_ne (by decide) (by decide) (by decide)]
    exact superblock_fields.1
  · rw [if_neg hread]
    exact superblock_fields.1

/-- The number of sectors in the superblock. -/
theorem lastSuperblock_sectors :
    field (lastSuperblock m) 16 4 =
      if m.succeeds (67 + kernelSectors m.kernel) then kernelSectors m.kernel else 0 := by
  unfold lastSuperblock
  by_cases hread : m.succeeds (67 + kernelSectors m.kernel) = true
  · rw [if_pos hread, if_pos hread]
    exact field_setField (kernelSectors_lt _) (by decide)
  · rw [if_neg hread, if_neg hread]
    exact superblock_fields.2

theorem sectors_eq_zero {kernel : List UInt8} : sectors kernel = 0 ↔ kernel = [] := by
  unfold sectors
  rw [← List.length_eq_zero_iff]
  omega

/-- The superblock tells the number of sectors under the condition only. -/
theorem sectors_told_iff :
    field (lastSuperblock m) 16 4 = sectors m.kernel ↔ Truthful m := by
  unfold Truthful
  constructor
  · intro htold
    have hlt : sectors m.kernel < 2 ^ 32 := htold ▸ field_lt _ _ _
    refine ⟨hlt, ?_⟩
    rw [lastSuperblock_sectors, kernelSectors_eq hlt] at htold
    by_cases hread : m.succeeds (67 + sectors m.kernel) = true
    · exact .inl hread
    · rw [if_neg hread] at htold
      exact .inr (sectors_eq_zero.mp htold.symm)
  · rintro ⟨hlt, hread⟩
    rw [lastSuperblock_sectors, kernelSectors_eq hlt]
    rcases hread with hread | hempty
    · rw [if_pos hread]
    · rw [sectors_eq_zero.mpr hempty, ite_self]

/-- A system on the disk is an installation exactly if its superblock tells the number of the
kernel sectors. -/
theorem System.installed_iff {disk : Disk} (h : System m disk) (hblocks : m.totalBlocks ≠ 0) :
    Installed m.totalBlocks m.kernel disk ↔ Truthful m := by
  rw [← sectors_told_iff]
  constructor
  · intro hdisk
    rw [← h.superblock]
    exact hdisk.kernelSectors
  · intro htold
    have hlt : sectors m.kernel < 2 ^ 32 := htold ▸ field_lt _ _ _
    have hmbr := mbr_fields hblocks
    have hheader := gptHeader_fields (m := m) (Crc.checksum crcPoly (entryBytes disk))
    rw [← h.tables.mbr] at hmbr
    rw [← h.tables.header] at hheader
    exact {
      mbrSignature := hmbr.1
      mbrType := hmbr.2.1
      mbrFirstLba := hmbr.2.2.1
      mbrSectors := hmbr.2.2.2
      partCrc32 := hheader.2.1
      gptSignature := hheader.1
      headerCrc32 := hheader.2.2
      magic := by
        rw [h.superblock]
        exact lastSuperblock_magic
      kernelSectors := by
        rw [h.superblock]
        exact htold
      image := by
        intro i hi
        have hsector : i / 512 < kernelSectors m.kernel := by
          rw [kernelSectors_eq hlt]
          omega
        have hblock := h.kernel _ hsector
        exact (congrFun hblock _).trans (kernelSector_image _ _) }

/-- Behind a run that prints the success banner the disk is installed exactly when the
superblock could be read before its update. -/
theorem installer_report (m : InstallMachine) (disk : Disk) (t : InstallState)
    (h : installerRun m ⟨disk, 0⟩ = (.ok (), t)) :
    Installed m.totalBlocks m.kernel t.disk ↔ Truthful m := by
  rcases (installerRun_outcome rfl).of_ok h with ⟨hblocks, hsystem⟩
  exact hsystem.installed_iff hblocks

/-- A disk of 4 MiB, a kernel of three bytes, and block commands of which at most the
one at `failing` fails. -/
def smallMachine (failing : Option Nat) : InstallMachine where
  totalBlocks := 8192
  key := 0x74
  kernelTicks := fun _ => 0
  kernel := [1, 2, 3]
  succeeds := fun i => failing != some i
  torn := fun _ disk => disk

/-- The run does not stop, whether the superblock can be read or not. -/
theorem smallMachine_banner (failing : Option Nat) (h : failing = none ∨ failing = some 68) :
    ∃ t, installerRun (smallMachine failing) ⟨fun _ => zeroBlock, 0⟩ = (.ok (), t) := by
  rcases h with rfl | rfl
  · exact ⟨_, eq_of_exitOf_none (by decide +kernel)⟩
  · exact ⟨_, eq_of_exitOf_none (by decide +kernel)⟩

theorem installer_report_small :
    ∃ t, installerRun (smallMachine none) ⟨fun _ => zeroBlock, 0⟩ = (.ok (), t) ∧
      (Installed 8192 [1, 2, 3] t.disk ↔ Truthful (smallMachine none)) := by
  obtain ⟨t, ht⟩ := smallMachine_banner none (.inl rfl)
  exact ⟨t, ht, installer_report (smallMachine none) _ t ht⟩

/-- The banner is printed for a disk whose superblock tells of no kernel. -/
theorem banner_without_kernel :
    ∃ (m : InstallMachine) (disk : Disk) (t : InstallState),
      installerRun m ⟨disk, 0⟩ = (.ok (), t) ∧ ¬Installed m.totalBlocks m.kernel t.disk := by
  obtain ⟨t, ht⟩ := smallMachine_banner (some 68) (.inr rfl)
  refine ⟨smallMachine (some 68), _, t, ht, fun hinstalled => ?_⟩
  rcases (installerRun_outcome rfl).of_ok ht with ⟨hblocks, hsystem⟩
  have htrue := (hsystem.installed_iff hblocks).mp hinstalled
  revert htrue
  unfold Truthful
  decide

end PolandOS.Installer
