import PolandOS.Lib.ByteMem
import PolandOS.Lib.Crc
import PolandOS.Lib.Staged
import PolandOS.Machine

/-! # The installer

`installer_run` of `kernel/installer/installer.c`, on a disk with blocks of 512 bytes.
Whether a block command succeeds is an input. One that does has its documented effect;
after a write that does not, the disk is whatever the input says.
-/

namespace PolandOS.Installer

open ByteMem Staging Staged

/-! ## Blocks -/

/-- A buffer of one block: the bytes at 0 to 511. -/
abbrev Block := Mem

/-- A disk: what each block holds. -/
abbrev Disk := Nat → Block

/-- `memset(buf, 0, 512)`. -/
def zeroBlock : Block := fun _ => 0

/-- A field of a packed structure in a block, at an offset and of a width in bytes. -/
def field (b : Block) (off width : Nat) : Nat := readLE b off width

/-- A field is set. -/
def setField (b : Block) (off width v : Nat) : Block := writeLE b off width v

/-- The first bytes of a block. -/
def blockBytes (b : Block) (len : Nat) : List UInt8 := (List.range len).map b

/-- The polynomial of `crc32`. -/
def crcPoly : UInt32 := 0xEDB88320

/-- `crc32`. -/
def crc32 (data : Block) (len : Nat) : UInt32 := Crc.checksum crcPoly (blockBytes data len)

/-- `GPT_SIGNATURE`. -/
def gptSignature : Nat := 0x5452415020494645

/-- `POLANDOS_MAGIC`. -/
def polandosMagic : Nat := 0x504F4C414E444F53

/-- `POLANDOS_VERSION`. -/
def polandosVersion : Nat := 1

/-- `part_start`. -/
def partStart : UInt64 := 2048

/-- `polandos_part_type`. -/
def polandosPartType : List UInt8 :=
  [0x41, 0x4C, 0x4F, 0x50, 0x44, 0x4E, 0x53, 0x4F, 0x53, 0x59, 0x53, 0x54, 0x45, 0x50, 0x41, 0x52]

/-! ## What is asked of the machine -/

/-- The number of blocks of the disk, the key that is pressed, what each read of
`kernel_ticks` gives, the kernel image, which block commands succeed, and what becomes
of the disk in a write that does not. -/
structure InstallMachine where
  totalBlocks : UInt64
  key : UInt8
  kernelTicks : Nat → UInt64
  kernel : List UInt8
  succeeds : Nat → Bool
  torn : Nat → Disk → Disk

/-- The disk, and the number of block commands so far. -/
structure InstallState where
  disk : Disk
  commands : Nat

/-- A part of `installer_run`. It is left with the message that it prints. -/
abbrev InstallStage := Staged String InstallState

variable (m : InstallMachine)

/-- `nvme_write_blocks(1, lba, 1, buf)`, where a failure ends the installation. -/
def writeBlock (lba : Nat) (buf : Block) (message : String) : InstallStage Unit := fun s =>
  if m.succeeds s.commands then
    (.ok (), { disk := Function.update s.disk lba buf, commands := s.commands + 1 })
  else (.error message, { disk := m.torn s.commands s.disk, commands := s.commands + 1 })

/-- `nvme_read_blocks(1, lba, 1, buf)`. What is in the buffer after a failure is not
looked at. -/
def readBlock (lba : Nat) : InstallStage (Option Block) := fun s =>
  (.ok (if m.succeeds s.commands then some (s.disk lba) else none),
    { s with commands := s.commands + 1 })

/-- The same, where a failure ends the installation. -/
def readBlockOr (lba : Nat) (message : String) : InstallStage Block := do
  let buf ← readBlock m lba
  ofOption message buf

/-- A loop that writes the blocks of a list of numbers, from `lba` on. -/
def writeBlocks (lba : Nat) (block : Nat → Block) (message : String) : List Nat → InstallStage Unit
  | [] => return ()
  | s :: rest => do
    writeBlock m (lba + s) (block s) message
    writeBlocks lba block message rest

/-! ## The blocks that are written -/

/-- `generate_guid`, which reads `kernel_ticks` twice. -/
def generateGuid (b : Block) (off : Nat) (ticks ticks' : UInt64) : Block :=
  let b := setField b off 8 ticks.toNat
  let b := setField b (off + 8) 8 (ticks' ^^^ 0xDEADBEEFCAFE1234).toNat
  let b := setField b (off + 6) 1 (((b (off + 6)) &&& 0x0F) ||| 0x40).toNat
  setField b (off + 8) 1 (((b (off + 8)) &&& 0x3F) ||| 0x80).toNat

/-- The MBR. -/
def mbr : Block :=
  let maxLba := m.totalBlocks - 1
  let b := setField zeroBlock 446 1 0x00
  let b := setField b 450 1 0xEE
  let b := setField b 454 4 1
  let b := setField b 458 4 (if maxLba > 0xFFFFFFFF then 0xFFFFFFFF else maxLba.toNat)
  setField b 510 2 0xAA55

/-- `part_end`. -/
def partEnd : UInt64 :=
  let partEnd := m.totalBlocks - 2048
  if partEnd ≤ partStart then m.totalBlocks - 34 else partEnd

/-- `set_part_name`: character `i` of the name goes to `entry->name[i]`, up to `max - 1`
of them. -/
def setPartName (b : Block) (i : Nat) : List Char → Nat → Block
  | [], _ => b
  | _, 0 => b
  | c :: cs, n + 1 => setPartName (setField b (56 + 2 * i) 2 c.toNat) (i + 1) cs n

/-- Bytes are copied into a block. -/
def copyBytes (b : Block) (off : Nat) : List UInt8 → Block
  | [] => b
  | x :: xs => copyBytes (setField b off 1 x.toNat) (off + 1) xs

/-- Sector `s` of the partition entries. -/
def entrySector (s : Nat) : Block :=
  if s = 0 then
    let b := copyBytes zeroBlock 0 polandosPartType
    let b := generateGuid b 16 (m.kernelTicks 0) (m.kernelTicks 1)
    let b := setField b 32 8 partStart.toNat
    let b := setField b 40 8 (partEnd m).toNat
    let b := setField b 48 8 0
    setPartName b 0 "PolandOS System".toList 35
  else zeroBlock

/-- The GPT header. -/
def gptHeader (partCrc : UInt32) : Block :=
  let b := setField zeroBlock 0 8 gptSignature
  let b := setField b 8 4 0x00010000
  let b := setField b 12 4 92
  let b := setField b 16 4 0
  let b := setField b 24 8 1
  let b := setField b 32 8 (m.totalBlocks - 1).toNat
  let b := setField b 40 8 34
  let b := setField b 48 8 (m.totalBlocks - 34).toNat
  let b := generateGuid b 56 (m.kernelTicks 2) (m.kernelTicks 3)
  let b := setField b 72 8 2
  let b := setField b 80 4 128
  let b := setField b 84 4 128
  let b := setField b 88 4 partCrc.toNat
  let b := setField b 16 4 0
  setField b 16 4 (crc32 b 92).toNat

/-- The superblock, before the kernel is written. -/
def superblock : Block :=
  let b := setField zeroBlock 0 8 polandosMagic
  let b := setField b 8 4 polandosVersion
  let b := setField b 12 4 8
  let b := setField b 16 4 0
  setField b 20 4 0

/-- `kernel_sectors`. -/
def kernelSectors (kernel : List UInt8) : Nat := add64 kernel.length 511 / 512 % 2 ^ 32

/-- What is written for sector `s` of the kernel. -/
def kernelSector (kernel : List UInt8) (s : Nat) : Block :=
  let offset := s * 512
  let remain := kernel.length - offset
  let chunk := if remain > 512 then 512 else remain
  fun i => if i < chunk then kernel.getD (offset + i) 0 else 0

/-! ## installer_run -/

/-- The loop that computes `part_crc`. -/
def readEntries : List Nat → UInt32 → InstallStage UInt32
  | [], crc => return crc
  | s :: rest, crc => do
    let buf ← readBlockOr m (2 + s) "Blad odczytu wpisow partycji!"
    readEntries rest (Crc.remainder crcPoly crc (blockBytes buf 512))

/-- The questions before the disk is touched. -/
def confirm : InstallStage Unit := do
  if m.totalBlocks = 0 then leave "Brak dysku NVMe — instalacja niemozliwa."
  if m.key ≠ 0x74 ∧ m.key ≠ 0x54 then leave "Instalacja anulowana."

/-- The protective MBR, the partition entries and the GPT header. -/
def writeTables : InstallStage Unit := do
  writeBlock m 0 (mbr m) "Blad zapisu MBR!"
  if partEnd m ≤ partStart then leave "Dysk jest zbyt maly na instalacje PolandOS!"
  writeBlocks m 2 (entrySector m) "Blad zapisu wpisow partycji GPT!" (List.range 32)
  let crc ← readEntries m (List.range 32) 0xFFFFFFFF
  writeBlock m 1 (gptHeader m (~~~crc)) "Blad zapisu naglowka GPT!"

/-- The superblock gets the number of kernel sectors, if it can be read. -/
def updateSuperblock : InstallStage Unit := do
  let buf ← readBlock m partStart.toNat
  match buf with
  | none => return ()
  | some buf =>
    writeBlock m partStart.toNat (setField buf 16 4 (kernelSectors m.kernel))
      "Blad aktualizacji superbloku!"

/-- The superblock and the kernel image. -/
def writeSystem : InstallStage Unit := do
  writeBlock m partStart.toNat superblock "Blad zapisu superbloku!"
  writeBlocks m (partStart + 8).toNat (kernelSector m.kernel) "Blad zapisu jadra na dysk!"
    (List.range (kernelSectors m.kernel))
  updateSuperblock m

/-- The superblock is read once more. -/
def verify : InstallStage Unit := do
  let buf ← readBlockOr m partStart.toNat "Blad odczytu weryfikacyjnego!"
  if field buf 0 8 ≠ polandosMagic then leave "Weryfikacja nieudana — zly magic!"

/-- `installer_run`: it prints the success banner where it is not left. -/
def installerRun : InstallStage Unit := do
  confirm m
  writeTables m
  writeSystem m
  verify m

end PolandOS.Installer
