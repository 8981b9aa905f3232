import PolandOS.Installer.Calls
import PolandOS.Installer.Report

/-! # The geometry of an installed disk

Where the partition and the GPT structures lie, in exact arithmetic. `geometry_valid_iff` says
for which disks and kernels the installer keeps to that.
-/

namespace PolandOS.Installer.Calls

open ByteMem Dialogue

variable {m : InstallMachine}

/-- `part_end` without wrap-around. -/
def exactPartEnd (totalBlocks : Int) : Int :=
  if totalBlocks - 2048 ≤ 2048 then totalBlocks - 34 else totalBlocks - 2048

/-- The numbers that go into the partition entry and the GPT header are the exact ones, and in
order. -/
structure Geometry (m : InstallMachine) : Prop where
  exactEnd : ((partEnd m).toNat : Int) = exactPartEnd m.totalBlocks.toNat
  exactLast : ((m.totalBlocks - 34).toNat : Int) = m.totalBlocks.toNat - 34
  exactAlt : ((m.totalBlocks - 1).toNat : Int) = m.totalBlocks.toNat - 1
  first : 34 ≤ partStart.toNat
  start : partStart.toNat ≤ (partEnd m).toNat
  last : (partEnd m).toNat ≤ (m.totalBlocks - 34).toNat
  alt : (m.totalBlocks - 34).toNat < (m.totalBlocks - 1).toNat

/-- A write of the partition entries. -/
def IsEntry : BlockCall → Prop
  | .write lba _ _ => 2 ≤ lba ∧ lba < 34
  | .read .. => False

/-- The write of the GPT header. -/
def IsHeader : BlockCall → Prop
  | .write lba _ _ => lba = 1
  | .read .. => False

/-- A write goes to the partition. -/
def InPartition (m : InstallMachine) : BlockCall → Prop
  | .write lba _ _ => partStart.toNat ≤ lba ∧ lba ≤ (partEnd m).toNat
  | .read .. => True

/-- On a disk of so many blocks of 512 bytes: where partition entries are written, the geometry
is valid, and what is written behind the GPT header, the superblock and the kernel, goes to the
partition. -/
def GeometryValid (totalBlocks : UInt64) (kernel : List UInt8) : Prop :=
  ∀ m : InstallMachine, m.totalBlocks = totalBlocks → m.kernel = kernel →
    ∀ tr p, Path (installerRun m 512).run tr p → (∃ e ∈ tr, IsEntry e.1) →
      Geometry m ∧ ∀ tr₁ header tr₂, tr = tr₁ ++ header :: tr₂ → IsHeader header.1 →
        ∀ e ∈ tr₂, InPartition m e.1

/-! ## The numbers -/

/-- The numbers are exact and in order on disks of 2082 blocks or more, and on no others. -/
theorem geometry_iff (m : InstallMachine) : Geometry m ↔ 2082 ≤ m.totalBlocks.toNat := by
  have hlt := m.totalBlocks.toNat_lt
  have hlast : (m.totalBlocks - 34).toNat = (2 ^ 64 - 34 + m.totalBlocks.toNat) % 2 ^ 64 :=
    UInt64.toNat_sub _ _
  have halt : (m.totalBlocks - 1).toNat = (2 ^ 64 - 1 + m.totalBlocks.toNat) % 2 ^ 64 :=
    UInt64.toNat_sub _ _
  have hstart : partStart.toNat = 2048 := rfl
  have hend := toNat_partEnd m
  constructor
  · intro h
    have hexact := h.exactEnd
    have hle := h.start
    unfold exactPartEnd at hexact
    split at hend <;> split at hexact <;> omega
  · intro h
    refine ⟨?_, ?_, ?_, ?_, ?_, ?_, ?_⟩
    · unfold exactPartEnd
      split at hend <;> split <;> omega
    · omega
    · omega
    · decide
    · split at hend <;> omega
    · split at hend <;> omega
    · omega

/-- The last block of the partition, on a disk that is large enough. -/
theorem toNat_partEnd_large (h : 2083 ≤ m.totalBlocks.toNat) : (partEnd m).toNat =
    if m.totalBlocks.toNat ≤ 4096 then m.totalBlocks.toNat - 34 else m.totalBlocks.toNat - 2048 := by
  have hlt := m.totalBlocks.toNat_lt
  have hend := toNat_partEnd m
  split at hend <;> split <;> omega

/-- The GPT header tells the first and the last usable block and that of the other header. -/
theorem gptHeader_numbers (partCrc : UInt32) :
    field (gptHeader m partCrc) 40 8 = 34 ∧
      field (gptHeader m partCrc) 48 8 = (m.totalBlocks - 34).toNat ∧
      field (gptHeader m partCrc) 32 8 = (m.totalBlocks - 1).toNat := by
  have hlt : ∀ n : UInt64, n.toNat < 256 ^ 8 := UInt64.toNat_lt
  unfold gptHeader
  refine ⟨?_, ?_, ?_⟩
  · rw [field_setField_ne (by decide) (by decide) (by decide),
      field_setField_ne (by decide) (by decide) (by decide),
      field_setField_ne (by decide) (by decide) (by decide),
      field_setField_ne (by decide) (by decide) (by decide),
      field_setField_ne (by decide) (by decide) (by decide),
      field_setField_ne (by decide) (by decide) (by decide),
      field_generateGuid _ _ _ (by decide) (by decide) (by decide),
      field_setField_ne (by decide) (by decide) (by decide)]
    exact field_setField (by decide) (by decide)
  · rw [field_setField_ne (by decide) (by decide) (by decide),
      field_setField_ne (by decide) (by decide) (by decide),
      field_setField_ne (by decide) (by decide) (by decide),
      field_setField_ne (by decide) (by decide) (by decide),
      field_setField_ne (by decide) (by decide) (by decide),
      field_setField_ne (by decide) (by decide) (by decide),
      field_generateGuid _ _ _ (by decide) (by decide) (by decide)]
    exact field_setField (hlt _) (by decide)
  · rw [field_setField_ne (by decide) (by decide) (by decide),
      field_setField_ne (by decide) (by decide) (by decide),
      field_setField_ne (by decide) (by decide) (by decide),
      field_setField_ne (by decide) (by decide) (by decide),
      field_setField_ne (by decide) (by decide) (by decide),
      field_setField_ne (by decide) (by decide) (by decide),
      field_generateGuid _ _ _ (by decide) (by decide) (by decide),
      field_setField_ne (by decide) (by decide) (by decide),
      field_setField_ne (by decide) (by decide) (by decide)]
    exact field_setField (hlt _) (by decide)

theorem field_setPartName (b : Block) (i : Nat) (name : List Char) (n : Nat) {off width : Nat}
    (hn : 56 + 2 * (i + n) ≤ 512) (h : off + width ≤ 56) :
    field (setPartName b i name n) off width = field b off width := by
  induction name generalizing b i n with
  | nil => cases n <;> rfl
  | cons c name ih =>
      cases n with
      | zero => rfl
      | succ n =>
          rw [setPartName, ih _ _ _ (by omega)]
          exact field_setField_ne (by omega) (by omega) (by omega)

/-- The partition entry tells the first and the last block of the partition. -/
theorem entrySector_numbers :
    field (entrySector m 0) 32 8 = partStart.toNat ∧
      field (entrySector m 0) 40 8 = (partEnd m).toNat := by
  have hlt : ∀ n : UInt64, n.toNat < 256 ^ 8 := UInt64.toNat_lt
  unfold entrySector
  rw [if_pos rfl]
  constructor
  · rw [field_setPartName _ _ _ _ (by decide) (by decide),
      field_setField_ne (by decide) (by decide) (by decide),
      field_setField_ne (by decide) (by decide) (by decide)]
    exact field_setField (hlt _) (by decide)
  · rw [field_setPartName _ _ _ _ (by decide) (by decide),
      field_setField_ne (by decide) (by decide) (by decide)]
    exact field_setField (hlt _) (by decide)

/-! ## Where the installer keeps to it -/

/-- A monitor that knows whether the GPT header has been written. -/
def behindHeader (m : InstallMachine) : Monitor BlockCall Prop where
  next written q := written ∨ IsHeader q
  allows written q := written → InPartition m q

theorem after_behindHeader (tr : List (Sigma BlockCall.Answer)) (written : Prop)
    (h : written ∨ ∃ e ∈ tr, IsHeader e.1) : (behindHeader m).after tr written := by
  induction tr generalizing written with
  | nil => exact h.resolve_right fun ⟨e, he, _⟩ => List.not_mem_nil he
  | cons e tr ih =>
      refine ih _ ?_
      obtain hwritten | ⟨e', he', hheader⟩ := h
      · exact .inl (.inl hwritten)
      · obtain rfl | hlater := List.mem_cons.1 he'
        · exact .inl (.inr hheader)
        · exact .inr ⟨e', hlater, hheader⟩

/-- Before the header, anything may be written but the header. -/
theorem behindHeader_before {q : BlockCall} (h : ¬IsHeader q) : (behindHeader m).Stays False q :=
  ⟨False.elim, by simp [behindHeader, h]⟩

theorem behindHeader_behind {q : BlockCall} (h : InPartition m q) : (behindHeader m).Stays True q :=
  ⟨fun _ => h, by simp [behindHeader]⟩

theorem TableCall.not_header {q : BlockCall} (h : TableCall m q) : ¬IsHeader q := by
  cases h with
  | mbr => exact Nat.zero_ne_one
  | entry hs _ =>
      change ¬(2 + _ = 1)
      omega
  | read _ => exact not_false

/-- The kernel image fits into the partition. -/
def KernelFits (totalBlocks size : Nat) : Prop :=
  (size + 511) % 2 ^ 64 / 512 % 2 ^ 32 = 0 ∨
    2055 + (size + 511) % 2 ^ 64 / 512 % 2 ^ 32 ≤
      if totalBlocks ≤ 4096 then totalBlocks - 34 else totalBlocks - 2048

theorem kernelFits_iff (h : 2083 ≤ m.totalBlocks.toNat) :
    KernelFits m.totalBlocks.toNat m.kernel.length ↔
      ∀ s < kernelSectors m.kernel, 2056 + s ≤ (partEnd m).toNat := by
  have hsectors : kernelSectors m.kernel = (m.kernel.length + 511) % 2 ^ 64 / 512 % 2 ^ 32 := rfl
  rw [KernelFits, ← hsectors, ← toNat_partEnd_large h]
  constructor
  · intro hfits s hs
    omega
  · intro hall
    rw [or_iff_not_imp_left]
    intro hne
    have hlast := hall (kernelSectors m.kernel - 1) (by omega)
    omega

theorem SystemCall.inPartition {q : BlockCall} (h : SystemCall m q)
    (hlarge : 2083 ≤ m.totalBlocks.toNat) (hfits : KernelFits m.totalBlocks.toNat m.kernel.length) :
    InPartition m q := by
  have hstart : partStart.toNat = 2048 := rfl
  have hkernel : (partStart + 8).toNat = 2056 := rfl
  cases h with
  | superblock buf =>
      refine ⟨le_rfl, ?_⟩
      rw [toNat_partEnd_large hlarge, hstart]
      split <;> omega
  | kernel hs =>
      refine ⟨?_, ?_⟩
      · rw [hstart, hkernel]
        omega
      · rw [hkernel]
        exact (kernelFits_iff hlarge).1 hfits _ hs
  | read => trivial

theorem obeys_behindHeader (hlarge : 2083 ≤ m.totalBlocks.toNat)
    (hfits : KernelFits m.totalBlocks.toNat m.kernel.length) :
    (do writeTables m; writeSystem m; verify : InstallProg Unit).run.Obeys (behindHeader m)
      (Ends (fun _ _ => True) fun _ _ => True) False := by
  have hsystem : ∀ q, SystemCall m q → (behindHeader m).Stays True q :=
    fun q h => behindHeader_behind (h.inPartition hlarge hfits)
  refine obeys_try (obeys_writeTables (fun q h => behindHeader_before h.not_header)
    (fun crc => ⟨False.elim, ?_, trivial⟩) (fun _ _ => trivial) fun _ => trivial)
  have hnext : (behindHeader m).next False (.write 1 1 (gptHeader m crc)) = True :=
    propext (iff_true_intro (.inr rfl))
  rw [hnext]
  refine obeys_try (obeys_writeSystem hsystem ?_ fun _ _ => trivial)
  exact obeys_verify (hsystem _ .read) trivial fun _ _ => trivial

/-- A monitor without partition entries. -/
def noEntry : Monitor BlockCall Unit := ⟨fun _ _ => (), fun _ q => ¬IsEntry q⟩

/-- On a disk that is found to be too small. -/
theorem obeys_noEntry (hsmall : partEnd m ≤ partStart) :
    (do writeTables m; writeSystem m; verify : InstallProg Unit).run.Obeys noEntry
      (Ends (fun _ _ => True) fun _ _ => True) () := by
  have htable : ∀ q, TableCall m q → noEntry.Stays () q := by
    rintro q (_ | ⟨_, hlarge⟩ | _)
    · exact ⟨fun h => absurd h.1 (by decide), rfl⟩
    · exact absurd hsmall hlarge
    · exact ⟨not_false, rfl⟩
  have hsystem : ∀ q, SystemCall m q → noEntry.Stays () q := by
    have hkernel : (partStart + 8).toNat = 2056 := rfl
    rintro q (_ | @⟨s, _⟩ | _)
    · exact ⟨fun h => absurd h.2 (by decide), rfl⟩
    · refine ⟨fun h => ?_, rfl⟩
      have hlt : (partStart + 8).toNat + s < 34 := h.2
      omega
    · exact ⟨not_false, rfl⟩
  refine obeys_try (obeys_writeTables htable
    (fun crc => ⟨fun h => absurd h.1 (by decide), ?_, trivial⟩) (fun _ _ => trivial) fun _ => trivial)
  refine obeys_try (obeys_writeSystem hsystem ?_ fun _ _ => trivial)
  exact obeys_verify (hsystem _ .read) trivial fun _ _ => trivial

/-! ## A run -/

theorem returns_writeBlocks (lba : Nat) (block : Nat → Block) (message : String) (ss : List Nat) :
    Returns (writeBlocks lba block message ss).run
      (ss.map fun s => ⟨.write (lba + s) 1 (block s), true⟩) (.ok ()) := by
  induction ss with
  | nil => exact .refl
  | cons s ss ih => exact (returns_writeBlock _ _ _).try ih

theorem returns_readEntries (ss : List Nat) (crc : UInt32) :
    ∃ tr crc', Returns (readEntries ss crc).run tr (.ok crc') := by
  induction ss generalizing crc with
  | nil => exact ⟨[], crc, .refl⟩
  | cons s ss ih =>
      obtain ⟨tr, crc', htr⟩ := ih (Crc.remainder crcPoly crc (blockBytes zeroBlock 512))
      have hread : Returns (readBlockOr (2 + s) "Blad odczytu wpisow partycji!").run
          [⟨.read (2 + s) 1, some zeroBlock⟩] (.ok zeroBlock) := .ask .refl
      exact ⟨_, crc', hread.try htr⟩

/-- The partition entries are written, and the header last. -/
theorem returns_writeTables (hlarge : ¬partEnd m ≤ partStart) :
    ∃ tr header, (∃ e ∈ tr, IsEntry e.1) ∧ IsHeader header.1 ∧
      Returns (writeTables m).run (tr ++ [header]) (.ok ()) := by
  obtain ⟨reads, crc, hreads⟩ := returns_readEntries (List.range 32) 0xFFFFFFFF
  have hmbr := returns_writeBlock 0 (mbr m) "Blad zapisu MBR!"
  have hentries := returns_writeBlocks 2 (entrySector m) "Blad zapisu wpisow partycji GPT!"
    (List.range 32)
  have hheader := returns_writeBlock 1 (gptHeader m (~~~crc)) "Blad zapisu naglowka GPT!"
  have hrun : Returns (writeTables m).run ([⟨.write 0 1 (mbr m), true⟩] ++
      ((List.range 32).map (fun s => ⟨.write (2 + s) 1 (entrySector m s), true⟩) ++
        (reads ++ [⟨.write 1 1 (gptHeader m (~~~crc)), true⟩]))) (.ok ()) := by
    unfold writeTables
    refine hmbr.try ?_
    rw [if_neg hlarge]
    exact hentries.try (hreads.try hheader)
  rw [← List.append_assoc, ← List.append_assoc] at hrun
  refine ⟨_, ⟨.write 1 1 (gptHeader m (~~~crc)), true⟩,
    ⟨⟨.write (2 + 0) 1 (entrySector m 0), true⟩, ?_, by decide, by decide⟩, rfl, hrun⟩
  refine List.mem_append_left _ (List.mem_append_right _ ?_)
  exact List.mem_map_of_mem (f := fun s => (⟨.write (2 + s) 1 (entrySector m s), true⟩ :
    Sigma BlockCall.Answer)) (List.mem_range.2 (by decide))

/-- The superblock and the kernel are written. -/
def systemWrites (m : InstallMachine) : List (Sigma BlockCall.Answer) :=
  ⟨.write partStart.toNat 1 superblock, true⟩ :: (List.range (kernelSectors m.kernel)).map fun s =>
    ⟨.write ((partStart + 8).toNat + s) 1 (kernelSector m.kernel s), true⟩

theorem path_writeSystem (m : InstallMachine) :
    Path (writeSystem m).run (systemWrites m) (updateSuperblock m).run := by
  have hsuper := returns_writeBlock partStart.toNat superblock "Blad zapisu superbloku!"
  have hkernel := returns_writeBlocks (partStart + 8).toNat (kernelSector m.kernel)
    "Blad zapisu jadra na dysk!" (List.range (kernelSectors m.kernel))
  unfold writeSystem systemWrites
  refine hsuper.try ?_
  rw [← List.append_nil (List.map _ _)]
  exact hkernel.try .refl

/-- A run in which all calls succeed, up to the kernel. -/
theorem path_installerRun (hconfirmed : Confirmed m 512) (hlarge : ¬partEnd m ≤ partStart) :
    ∃ tr header p, (∃ e ∈ tr, IsEntry e.1) ∧ IsHeader header.1 ∧
      Path (installerRun m 512).run (tr ++ header :: systemWrites m) p := by
  obtain ⟨tr, header, hentry, hheader, htables⟩ := returns_writeTables hlarge
  have hpath := htables.try (g := fun _ => do writeSystem m; verify)
    (Path.bind (f := ExceptT.bindCont fun _ => verify) (path_writeSystem m))
  rw [← List.append_cons, ← installerRun_confirmed hconfirmed] at hpath
  exact ⟨tr, header, _, hentry, hheader, hpath⟩

theorem mem_systemWrites {s : Nat} (hs : s < kernelSectors m.kernel) :
    ⟨.write ((partStart + 8).toNat + s) 1 (kernelSector m.kernel s), true⟩ ∈ systemWrites m :=
  List.mem_cons_of_mem _ (List.mem_map.2 ⟨s, List.mem_range.2 hs, rfl⟩)

/-! ## All disks and kernels -/

/-- A machine where the user agrees. -/
def agreeing (totalBlocks : UInt64) (kernel : List UInt8) : InstallMachine where
  totalBlocks := totalBlocks
  key := 0x74
  kernelTicks _ := 0
  kernel := kernel
  succeeds _ := true
  torn _ disk := disk

/-- The geometry is valid on disks of 2083 blocks or more into whose partition the kernel fits,
and on those that are refused. -/
theorem geometry_valid_iff (totalBlocks : UInt64) (kernel : List UInt8) :
    GeometryValid totalBlocks kernel ↔
      totalBlocks = 0 ∨ (2048 ≤ totalBlocks.toNat ∧ totalBlocks.toNat ≤ 2082) ∨
        (2083 ≤ totalBlocks.toNat ∧ KernelFits totalBlocks.toNat kernel.length) := by
  constructor
  · intro hvalid
    rw [or_iff_not_imp_left, or_iff_not_imp_left]
    intro hblocks hsize
    have hconfirmed : Confirmed (agreeing totalBlocks kernel) 512 := ⟨hblocks, by decide, .inl rfl⟩
    have hlarge : ¬partEnd (agreeing totalBlocks kernel) ≤ partStart := by
      rwa [partEnd_le_iff]
    obtain ⟨tr, header, p, ⟨e, he, hentry⟩, hheader, hpath⟩ :=
      path_installerRun hconfirmed hlarge
    obtain ⟨hgeometry, hwrites⟩ := hvalid _ rfl rfl _ _ hpath ⟨e, List.mem_append_left _ he, hentry⟩
    have hmin : 2082 ≤ totalBlocks.toNat := (geometry_iff _).1 hgeometry
    have hmin : 2083 ≤ totalBlocks.toNat := by omega
    refine ⟨hmin, (kernelFits_iff (m := agreeing totalBlocks kernel) hmin).2 fun s hs => ?_⟩
    exact (hwrites _ _ _ rfl hheader _ (mem_systemWrites hs)).2
  · rintro hcond m rfl rfl tr p hpath ⟨e, he, hentry⟩
    have hconfirmed : Confirmed m 512 := by
      by_contra hnot
      obtain ⟨message, -, hrun⟩ := installerRun_refused hnot
      rw [hrun] at hpath
      cases hpath
      exact absurd he List.not_mem_nil
    rw [installerRun_confirmed hconfirmed] at hpath
    obtain hzero | hsmall | ⟨hlarge, hfits⟩ := hcond
    · exact absurd hzero hconfirmed.blocks
    · obtain ⟨tr₁, tr₂, rfl⟩ := List.append_of_mem he
      have hobeys := obeys_noEntry ((partEnd_le_iff m).2 hsmall)
      exact absurd hentry (hpath.allowed hobeys)
    · refine ⟨(geometry_iff m).2 (Nat.le_of_succ_le hlarge), ?_⟩
      rintro tr₁ header tr₂ rfl hheader e' he'
      obtain ⟨tr₃, tr₄, rfl⟩ := List.append_of_mem he'
      rw [← List.cons_append, ← List.append_assoc] at hpath
      refine hpath.allowed (obeys_behindHeader hlarge hfits) (after_behindHeader _ _ (.inr ?_))
      exact ⟨header, List.mem_append_right _ List.mem_cons_self, hheader⟩

/-- On a disk of 2047 blocks the end of the partition wraps around. -/
theorem geometry_wraps : ¬GeometryValid 2047 [] := by
  intro hvalid
  have hconfirmed : Confirmed (agreeing 2047 []) 512 := ⟨by decide, by decide, .inl rfl⟩
  have hlarge : ¬partEnd (agreeing 2047 []) ≤ partStart := by decide
  obtain ⟨tr, header, p, ⟨e, he, hentry⟩, -, hpath⟩ := path_installerRun hconfirmed hlarge
  have hgeometry := (hvalid _ rfl rfl _ _ hpath ⟨e, List.mem_append_left _ he, hentry⟩).1
  exact absurd ((geometry_iff _).1 hgeometry) (by decide)

end PolandOS.Installer.Calls
