import PolandOS.Installer.Install
import PolandOS.Lib.Monitor

/-! # The calls of the installer

`installer_run` once more, for every size of the blocks, with the calls that it makes of the
NVMe driver as questions. `realizes_installerRun`: where the blocks have 512 bytes, what it does
on a disk is what `Installer.installerRun` does. `refused_untouched_iff` says from which disks
an installation that is refused stays away.
-/

namespace PolandOS.Installer

open ByteMem Staging Dialogue

/-- `nvme_write_blocks(1, lba, count, buf)` and `nvme_read_blocks(1, lba, count, buf)`. -/
inductive BlockCall where
  | write (lba : Nat) (count : UInt32) (buf : Block)
  | read (lba : Nat) (count : UInt32)

/-- Whether a write succeeds, and what a read that does leaves in the buffer. -/
def BlockCall.Answer : BlockCall → Type
  | .write .. => Bool
  | .read .. => Option Block

/-- A part of `installer_run`. It is left with the message that it prints. -/
abbrev InstallProg := Quitting String BlockCall BlockCall.Answer

namespace Calls

variable (m : InstallMachine) (blkSize : UInt32)

/-- A write where a failure ends the installation. -/
def writeBlock (lba : Nat) (buf : Block) (message : String) : InstallProg Unit := do
  let written : Bool ← ask (BlockCall.write lba 1 buf)
  if written then return () else throw message

def readBlock (lba : Nat) : InstallProg (Option Block) := ask (BlockCall.read lba 1)

/-- A read where a failure ends the installation. -/
def readBlockOr (lba : Nat) (message : String) : InstallProg Block := do
  let buf ← readBlock lba
  match buf with
  | none => throw message
  | some buf => return buf

def writeBlocks (lba : Nat) (block : Nat → Block) (message : String) : List Nat → InstallProg Unit
  | [] => return ()
  | s :: rest => do
    writeBlock (lba + s) (block s) message
    writeBlocks lba block message rest

/-- The loop that computes `part_crc`. -/
def readEntries : List Nat → UInt32 → InstallProg UInt32
  | [], crc => return crc
  | s :: rest, crc => do
    let buf ← readBlockOr (2 + s) "Blad odczytu wpisow partycji!"
    readEntries rest (Crc.remainder crcPoly crc (blockBytes buf 512))

/-- The questions before the disk is touched. -/
def confirm : InstallProg Unit := do
  if m.totalBlocks = 0 ∨ blkSize = 0 then throw "Brak dysku NVMe — instalacja niemozliwa."
  if m.key ≠ 0x74 ∧ m.key ≠ 0x54 then throw "Instalacja anulowana."

/-- The protective MBR, the partition entries and the GPT header. -/
def writeTables : InstallProg Unit := do
  writeBlock 0 (mbr m) "Blad zapisu MBR!"
  if partEnd m ≤ partStart then throw "Dysk jest zbyt maly na instalacje PolandOS!"
  writeBlocks 2 (entrySector m) "Blad zapisu wpisow partycji GPT!" (List.range 32)
  let crc ← readEntries (List.range 32) 0xFFFFFFFF
  writeBlock 1 (gptHeader m (~~~crc)) "Blad zapisu naglowka GPT!"

/-- The superblock gets the number of kernel sectors, if it can be read. -/
def updateSuperblock : InstallProg Unit := do
  let buf ← readBlock partStart.toNat
  match buf with
  | none => return ()
  | some buf =>
    writeBlock partStart.toNat (setField buf 16 4 (kernelSectors m.kernel))
      "Blad aktualizacji superbloku!"

/-- The superblock and the kernel image. -/
def writeSystem : InstallProg Unit := do
  writeBlock partStart.toNat superblock "Blad zapisu superbloku!"
  writeBlocks (partStart + 8).toNat (kernelSector m.kernel) "Blad zapisu jadra na dysk!"
    (List.range (kernelSectors m.kernel))
  updateSuperblock m

/-- The superblock is read once more. -/
def verify : InstallProg Unit := do
  let buf ← readBlockOr partStart.toNat "Blad odczytu weryfikacyjnego!"
  if field buf 0 8 ≠ polandosMagic then throw "Weryfikacja nieudana — zly magic!"

/-- `installer_run`. -/
def installerRun : InstallProg Unit := do
  confirm m blkSize
  writeTables m
  writeSystem m
  verify

/-! ## Runs on a disk -/

/-- What the calls do. -/
def disk (s : InstallState) : (q : BlockCall) → q.Answer × InstallState
  | .write lba _ buf =>
    if m.succeeds s.commands then
      (true, { disk := Function.update s.disk lba buf, commands := s.commands + 1 })
    else (false, { disk := m.torn s.commands s.disk, commands := s.commands + 1 })
  | .read lba _ =>
    (if m.succeeds s.commands then some (s.disk lba) else none,
      { s with commands := s.commands + 1 })

variable {m} {blkSize}

theorem realizes_writeBlock (lba : Nat) (buf : Block) (message : String) :
    Realizes (disk m) (writeBlock lba buf message) (Installer.writeBlock m lba buf message) := by
  intro s
  change Prog.exec (disk m) ((fun written : Bool =>
    (if written then pure () else throw message : InstallProg Unit))
      (disk m s (.write lba 1 buf)).1).run (disk m s (.write lba 1 buf)).2 = _
  unfold Installer.writeBlock disk
  by_cases hsucceeds : m.succeeds s.commands = true
  · simp only [if_pos hsucceeds]
    rfl
  · simp only [if_neg hsucceeds]
    rfl

theorem realizes_readBlock (lba : Nat) :
    Realizes (disk m) (readBlock lba) (Installer.readBlock m lba) := realizes_ask fun _ => rfl

theorem realizes_readBlockOr (lba : Nat) (message : String) :
    Realizes (disk m) (readBlockOr lba message) (Installer.readBlockOr m lba message) := by
  refine realizes_bind (realizes_readBlock lba) fun buf => ?_
  cases buf with
  | none => exact realizes_throw _
  | some buf => exact realizes_pure _

theorem realizes_writeBlocks (lba : Nat) (block : Nat → Block) (message : String) (ss : List Nat) :
    Realizes (disk m) (writeBlocks lba block message ss)
      (Installer.writeBlocks m lba block message ss) := by
  induction ss with
  | nil => exact realizes_pure _
  | cons s ss ih => exact realizes_bind (realizes_writeBlock _ _ _) fun _ => ih

theorem realizes_readEntries (ss : List Nat) (crc : UInt32) :
    Realizes (disk m) (readEntries ss crc) (Installer.readEntries m ss crc) := by
  induction ss generalizing crc with
  | nil => exact realizes_pure _
  | cons s ss ih => exact realizes_bind (realizes_readBlockOr _ _) fun buf => ih _

theorem realizes_confirm (hsize : blkSize ≠ 0) :
    Realizes (disk m) (confirm m blkSize) (Installer.confirm m) := by
  unfold confirm Installer.confirm
  simp only [hsize, or_false]
  exact realizes_check (realizes_check (realizes_pure ()))

theorem realizes_writeTables : Realizes (disk m) (writeTables m) (Installer.writeTables m) := by
  refine realizes_bind (realizes_writeBlock _ _ _) fun _ => ?_
  refine realizes_check ?_
  refine realizes_bind (realizes_writeBlocks _ _ _ _) fun _ => ?_
  refine realizes_bind (realizes_readEntries _ _) fun crc => ?_
  exact realizes_writeBlock _ _ _

theorem realizes_writeSystem : Realizes (disk m) (writeSystem m) (Installer.writeSystem m) := by
  refine realizes_bind (realizes_writeBlock _ _ _) fun _ => ?_
  refine realizes_bind (realizes_writeBlocks _ _ _ _) fun _ => ?_
  refine realizes_bind (realizes_readBlock _) fun buf => ?_
  cases buf with
  | none => exact realizes_pure _
  | some buf => exact realizes_writeBlock _ _ _

theorem realizes_verify : Realizes (disk m) verify (Installer.verify m) := by
  refine realizes_bind (realizes_readBlockOr _ _) fun buf => ?_
  exact realizes_ite (realizes_throw _) (realizes_pure _)

/-- Where the blocks have 512 bytes, the calls do what the installer does. -/
theorem realizes_installerRun :
    Realizes (disk m) (installerRun m 512) (Installer.installerRun m) := by
  refine realizes_bind (realizes_confirm (by decide)) fun _ => ?_
  refine realizes_bind realizes_writeTables fun _ => ?_
  exact realizes_bind realizes_writeSystem fun _ => realizes_verify

/-! ## Under a monitor -/

/-- The messages with which the installation is refused. -/
def Refused (message : String) : Prop :=
  message = "Brak dysku NVMe — instalacja niemozliwa." ∨ message = "Instalacja anulowana." ∨
    message = "Dysk jest zbyt maly na instalacje PolandOS!"

/-- The calls before that of the GPT header. -/
inductive TableCall (m : InstallMachine) : BlockCall → Prop
  | mbr : TableCall m (.write 0 1 (mbr m))
  | entry {s : Nat} (hs : s < 32) (hlarge : ¬partEnd m ≤ partStart) :
      TableCall m (.write (2 + s) 1 (entrySector m s))
  | read {s : Nat} (hs : s < 32) : TableCall m (.read (2 + s) 1)

/-- The calls for the superblock and the kernel image. -/
inductive SystemCall (m : InstallMachine) : BlockCall → Prop
  | superblock (buf : Block) : SystemCall m (.write partStart.toNat 1 buf)
  | kernel {s : Nat} (hs : s < kernelSectors m.kernel) :
      SystemCall m (.write ((partStart + 8).toNat + s) 1 (kernelSector m.kernel s))
  | read : SystemCall m (.read partStart.toNat 1)

section

variable {τ : Type} {M : Monitor BlockCall τ} {t : τ} {exit : τ → String → Prop} {lba : Nat}
  {message : String}

theorem obeys_writeBlock {post : τ → Unit → Prop} {buf : Block}
    (h : M.allows t (.write lba 1 buf)) (hpost : post (M.next t (.write lba 1 buf)) ())
    (hexit : exit (M.next t (.write lba 1 buf)) message) :
    (writeBlock lba buf message).run.Obeys M (Ends post exit) t := by
  refine obeys_try (obeys_ask h fun (written : Bool) => ?_)
  cases written with
  | false => exact hexit
  | true => exact hpost

theorem obeys_writeBlock_stays {post : τ → Unit → Prop} {buf : Block}
    (h : M.Stays t (.write lba 1 buf)) (hpost : post t ()) (hexit : exit t message) :
    (writeBlock lba buf message).run.Obeys M (Ends post exit) t :=
  obeys_writeBlock h.allows (h.next.symm ▸ hpost) (h.next.symm ▸ hexit)

theorem obeys_readBlock {post : τ → Option Block → Prop} (h : M.Stays t (.read lba 1))
    (hpost : ∀ buf, post t buf) : (readBlock lba).run.Obeys M (Ends post exit) t :=
  obeys_ask_stays h hpost

theorem obeys_readBlockOr {post : τ → Block → Prop} (h : M.Stays t (.read lba 1))
    (hpost : ∀ buf, post t buf) (hexit : exit t message) :
    (readBlockOr lba message).run.Obeys M (Ends post exit) t := by
  refine obeys_try (obeys_readBlock h fun buf => ?_)
  cases buf with
  | none => exact hexit
  | some buf => exact hpost buf

theorem obeys_writeBlocks {post : τ → Unit → Prop} {block : Nat → Block} (ss : List Nat)
    (h : ∀ s ∈ ss, M.Stays t (.write (lba + s) 1 (block s))) (hpost : post t ())
    (hexit : exit t message) :
    (writeBlocks lba block message ss).run.Obeys M (Ends post exit) t := by
  induction ss with
  | nil => exact obeys_return hpost
  | cons s ss ih =>
      obtain ⟨hs, hss⟩ := List.forall_mem_cons.1 h
      exact obeys_try (obeys_writeBlock_stays hs (ih hss) hexit)

theorem obeys_readEntries {post : τ → UInt32 → Prop} (ss : List Nat) (crc : UInt32)
    (h : ∀ s ∈ ss, M.Stays t (.read (2 + s) 1)) (hpost : ∀ crc, post t crc)
    (hexit : exit t "Blad odczytu wpisow partycji!") :
    (readEntries ss crc).run.Obeys M (Ends post exit) t := by
  induction ss generalizing crc with
  | nil => exact obeys_return (hpost crc)
  | cons s ss ih =>
      obtain ⟨hs, hss⟩ := List.forall_mem_cons.1 h
      exact obeys_try (obeys_readBlockOr hs (fun buf => ih _ hss) hexit)

variable {post : τ → Unit → Prop}

/-- The monitor stays in its state at all calls before that of the header. -/
theorem obeys_writeTables (h : ∀ q, TableCall m q → M.Stays t q)
    (hheader : ∀ crc, M.allows t (.write 1 1 (gptHeader m crc)) ∧
      post (M.next t (.write 1 1 (gptHeader m crc))) () ∧
      exit (M.next t (.write 1 1 (gptHeader m crc))) "Blad zapisu naglowka GPT!")
    (hexit : ∀ message, ¬Refused message → exit t message)
    (hsmall : partEnd m ≤ partStart → exit t "Dysk jest zbyt maly na instalacje PolandOS!") :
    (writeTables m).run.Obeys M (Ends post exit) t := by
  refine obeys_try (obeys_writeBlock_stays (h _ .mbr) ?_ (hexit _ (by simp [Refused])))
  refine obeys_check hsmall fun hlarge => ?_
  refine obeys_try (obeys_writeBlocks _
    (fun s hs => h _ (.entry (List.mem_range.1 hs) hlarge)) ?_ (hexit _ (by simp [Refused])))
  refine obeys_try (obeys_readEntries _ _ (fun s hs => h _ (.read (List.mem_range.1 hs)))
    (fun crc => ?_) (hexit _ (by simp [Refused])))
  have hheader := hheader (~~~crc)
  exact obeys_writeBlock hheader.1 hheader.2.1 hheader.2.2

theorem obeys_updateSuperblock (h : ∀ q, SystemCall m q → M.Stays t q) (hpost : post t ())
    (hexit : ∀ message, ¬Refused message → exit t message) :
    (updateSuperblock m).run.Obeys M (Ends post exit) t := by
  unfold updateSuperblock
  refine obeys_try (obeys_readBlock (h _ .read) fun buf => ?_)
  cases buf with
  | none => exact obeys_return hpost
  | some buf => exact obeys_writeBlock_stays (h _ (.superblock _)) hpost (hexit _ (by simp [Refused]))

theorem obeys_writeSystem (h : ∀ q, SystemCall m q → M.Stays t q) (hpost : post t ())
    (hexit : ∀ message, ¬Refused message → exit t message) :
    (writeSystem m).run.Obeys M (Ends post exit) t := by
  unfold writeSystem
  refine obeys_try (obeys_writeBlock_stays (h _ (.superblock _)) ?_ (hexit _ (by simp [Refused])))
  refine obeys_try (obeys_writeBlocks _ (fun s hs => h _ (.kernel (List.mem_range.1 hs))) ?_
    (hexit _ (by simp [Refused])))
  exact obeys_updateSuperblock h hpost hexit

theorem obeys_verify (h : M.Stays t (.read partStart.toNat 1)) (hpost : post t ())
    (hexit : ∀ message, ¬Refused message → exit t message) :
    verify.run.Obeys M (Ends post exit) t := by
  unfold verify
  refine obeys_try (obeys_readBlockOr h (fun buf => ?_) (hexit _ (by simp [Refused])))
  -- the comparison must not be evaluated
  generalize field buf 0 8 = magic
  exact obeys_ite (fun _ => obeys_throw (hexit _ (by simp [Refused]))) fun _ => obeys_return hpost

end

/-! ## Refusals -/

def IsWrite : BlockCall → Prop
  | .write .. => True
  | .read .. => False

/-- An installation that is refused writes nothing. -/
def LeavesDisk (m : InstallMachine) (blkSize : UInt32) : Prop :=
  ∀ tr message, Returns (installerRun m blkSize).run tr (.error message) → Refused message →
    ∀ e ∈ tr, ¬IsWrite e.1

/-- There is a disk, and the user agrees. -/
structure Confirmed (m : InstallMachine) (blkSize : UInt32) : Prop where
  blocks : m.totalBlocks ≠ 0
  size : blkSize ≠ 0
  key : m.key = 0x74 ∨ m.key = 0x54

theorem confirm_cases (m : InstallMachine) (blkSize : UInt32) :
    (Confirmed m blkSize ∧ (confirm m blkSize).run = .done (.ok ())) ∨
      (¬Confirmed m blkSize ∧ ∃ message, Refused message ∧
        (confirm m blkSize).run = .done (.error message)) := by
  unfold confirm
  by_cases hdisk : m.totalBlocks = 0 ∨ blkSize = 0
  · rw [if_pos hdisk]
    exact .inr ⟨fun h => hdisk.elim h.blocks h.size, _, .inl rfl, rfl⟩
  rw [if_neg hdisk]
  rw [not_or] at hdisk
  by_cases hkey : m.key ≠ 0x74 ∧ m.key ≠ 0x54
  · rw [if_pos hkey]
    exact .inr ⟨fun h => h.key.elim hkey.1 hkey.2, _, .inr (.inl rfl), rfl⟩
  · rw [if_neg hkey]
    refine .inl ⟨⟨hdisk.1, hdisk.2, ?_⟩, rfl⟩
    rwa [← not_or, not_not] at hkey

theorem toNat_partEnd (m : InstallMachine) : (partEnd m).toNat =
    if (2 ^ 64 - 2048 + m.totalBlocks.toNat) % 2 ^ 64 ≤ 2048
    then (2 ^ 64 - 34 + m.totalBlocks.toNat) % 2 ^ 64
    else (2 ^ 64 - 2048 + m.totalBlocks.toNat) % 2 ^ 64 := by
  have hlarge : (m.totalBlocks - 2048).toNat = (2 ^ 64 - 2048 + m.totalBlocks.toNat) % 2 ^ 64 :=
    UInt64.toNat_sub _ _
  have hsmall : (m.totalBlocks - 34).toNat = (2 ^ 64 - 34 + m.totalBlocks.toNat) % 2 ^ 64 :=
    UInt64.toNat_sub _ _
  have hiff : m.totalBlocks - 2048 ≤ partStart ↔
      (2 ^ 64 - 2048 + m.totalBlocks.toNat) % 2 ^ 64 ≤ 2048 := by
    rw [UInt64.le_iff_toNat_le, hlarge]
    rfl
  unfold partEnd
  simp only [hiff]
  split
  · exact hsmall
  · exact hlarge

/-- The sizes that the test rejects. -/
theorem partEnd_le_iff (m : InstallMachine) :
    partEnd m ≤ partStart ↔ 2048 ≤ m.totalBlocks.toNat ∧ m.totalBlocks.toNat ≤ 2082 := by
  have hlt := m.totalBlocks.toNat_lt
  have hstart : partStart.toNat = 2048 := rfl
  rw [UInt64.le_iff_toNat_le, toNat_partEnd, hstart]
  split <;> omega

theorem installerRun_confirmed (h : Confirmed m blkSize) : (installerRun m blkSize).run =
    (do writeTables m; writeSystem m; verify : InstallProg Unit).run := by
  obtain ⟨-, hconfirm⟩ | ⟨hnot, -⟩ := confirm_cases m blkSize
  · change (confirm m blkSize).run >>= ExceptT.bindCont _ = _
    rw [hconfirm]
    rfl
  · exact absurd h hnot

theorem installerRun_refused (h : ¬Confirmed m blkSize) :
    ∃ message, Refused message ∧ (installerRun m blkSize).run = .done (.error message) := by
  obtain ⟨hconfirmed, -⟩ | ⟨-, message, hrefused, hconfirm⟩ := confirm_cases m blkSize
  · exact absurd hconfirmed h
  · refine ⟨message, hrefused, ?_⟩
    change (confirm m blkSize).run >>= ExceptT.bindCont _ = _
    rw [hconfirm]
    rfl

theorem returns_writeBlock (lba : Nat) (buf : Block) (message : String) :
    Returns (writeBlock lba buf message).run [⟨.write lba 1 buf, true⟩] (.ok ()) := .ask .refl

/-- The MBR is the first block that is written. -/
theorem path_mbr (h : Confirmed m blkSize) :
    ∃ p, Path (installerRun m blkSize).run [⟨.write 0 1 (mbr m), true⟩] p := by
  rw [installerRun_confirmed h, ← List.append_nil [_]]
  exact ⟨_, Path.bind (f := ExceptT.bindCont _) ((returns_writeBlock 0 _ _).try .refl)⟩

/-- On a disk of 2048 to 2082 blocks the MBR is written before the installation is refused. -/
theorem returns_small (h : Confirmed m blkSize) (hsmall : partEnd m ≤ partStart) :
    Returns (installerRun m blkSize).run [⟨.write 0 1 (mbr m), true⟩]
      (.error "Dysk jest zbyt maly na instalacje PolandOS!") := by
  rw [installerRun_confirmed h]
  refine Returns.left ?_
  unfold writeTables
  rw [← List.append_nil [_]]
  refine (returns_writeBlock _ _ _).try ?_
  rw [if_pos hsmall]
  exact .refl

/-- A monitor that allows everything. -/
def anyCall : Monitor BlockCall Unit := ⟨fun _ _ => (), fun _ _ => True⟩

/-- Behind the questions, on a disk that is large enough, nothing is refused. -/
theorem obeys_large (hlarge : ¬partEnd m ≤ partStart) :
    (do writeTables m; writeSystem m; verify : InstallProg Unit).run.Obeys anyCall
      (Ends (fun _ _ => True) fun _ message => ¬Refused message) () := by
  refine obeys_try (obeys_writeTables (fun _ _ => ⟨trivial, rfl⟩) (fun crc => ⟨trivial, ?_, ?_⟩)
    (fun _ h => h) fun hsmall => absurd hsmall hlarge)
  · refine obeys_try (obeys_writeSystem (fun _ _ => ⟨trivial, rfl⟩) ?_ fun _ h => h)
    exact obeys_verify ⟨trivial, rfl⟩ trivial fun _ h => h
  · simp [Refused]

/-- An installation that is refused writes nothing, unless the disk has 2048 to 2082 blocks and
the user has agreed. -/
theorem refused_untouched_iff (m : InstallMachine) (blkSize : UInt32) : LeavesDisk m blkSize ↔
    ¬(2048 ≤ m.totalBlocks.toNat ∧ m.totalBlocks.toNat ≤ 2082 ∧ blkSize ≠ 0 ∧
      (m.key = 0x74 ∨ m.key = 0x54)) := by
  constructor
  · rintro huntouched ⟨hmin, hmax, hsize, hkey⟩
    have hblocks : m.totalBlocks ≠ 0 := by
      rintro heq
      rw [heq] at hmin
      exact absurd hmin (by decide)
    have hreturns := returns_small ⟨hblocks, hsize, hkey⟩ ((partEnd_le_iff m).2 ⟨hmin, hmax⟩)
    exact huntouched _ _ hreturns (.inr (.inr rfl)) _ List.mem_cons_self trivial
  · intro hcond tr message hreturns hrefused
    by_cases hconfirmed : Confirmed m blkSize
    · rw [installerRun_confirmed hconfirmed] at hreturns
      have hlarge : ¬partEnd m ≤ partStart := by
        rw [partEnd_le_iff]
        exact fun hsmall => hcond ⟨hsmall.1, hsmall.2, hconfirmed.size, hconfirmed.key⟩
      exact absurd hrefused (hreturns.obeys (obeys_large hlarge))
    · obtain ⟨message', -, hrun⟩ := installerRun_refused hconfirmed
      rw [hrun] at hreturns
      cases hreturns
      exact fun e he => absurd he List.not_mem_nil

/-- A machine with a disk of 2060 blocks, where the user agrees. -/
def tinyDisk : InstallMachine where
  totalBlocks := 2060
  key := 0x74
  kernelTicks _ := 0
  kernel := []
  succeeds _ := true
  torn _ disk := disk

/-- The disk is found to be too small when the MBR is written. -/
theorem refused_behind_mbr : ¬LeavesDisk tinyDisk 512 := by
  intro huntouched
  have hsmall : partEnd tinyDisk ≤ partStart := by decide
  have hconfirmed : Confirmed tinyDisk 512 := ⟨by decide, by decide, .inl rfl⟩
  have hreturns := returns_small hconfirmed hsmall
  exact huntouched _ _ hreturns (.inr (.inr rfl)) _ List.mem_cons_self trivial

theorem foldl_disk (tr : List (Sigma BlockCall.Answer)) (s : InstallState)
    (h : ∀ e ∈ tr, ¬IsWrite e.1) :
    (tr.foldl (fun s e => (disk m s e.1).2) s).disk = s.disk := by
  induction tr generalizing s with
  | nil => rfl
  | cons e tr ih =>
      obtain ⟨he, hreads⟩ := List.forall_mem_cons.1 h
      rcases e with ⟨_ | _, r⟩
      · exact absurd trivial he
      · exact ih _ hreads

/-- Where nothing is written the disk is as it was. -/
theorem LeavesDisk.disk_eq (h : LeavesDisk m 512) {s s' : InstallState} {message : String}
    (hrun : Installer.installerRun m s = (.error message, s')) (hrefused : Refused message) :
    s'.disk = s.disk := by
  have hexec := realizes_installerRun (m := m) s
  rw [hrun] at hexec
  obtain ⟨tr, hreturns, hs'⟩ := exists_returns hexec
  have hreads := h tr message hreturns hrefused
  rw [hs']
  exact foldl_disk tr s hreads

end Calls

end PolandOS.Installer
