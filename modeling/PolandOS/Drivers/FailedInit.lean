import PolandOS.Drivers.NvmeInit
import PolandOS.Drivers.E1000

/-! # Drivers whose initialisation has failed

Both `nvme_init` and `e1000_init` return -1 with their statics as they are then, and
the calls that come later look at a few of these only. `failed_init`: after which of
the ways out a driver is disabled.
-/

namespace PolandOS.Nvme

open Pci Staging Staged ByteMem

/-! ## The way through nvme_init -/

/-- What the later calls look at, and the frames taken. -/
structure Published where
  nvmeBase : Nat
  iosq : Nat
  nsBlockCount : Nat
  nsBlockSize : UInt32
  framesTaken : Nat

def published (s : NvmeStatics) : Published :=
  ⟨s.nvmeBase, s.iosq, s.nsBlockCount, s.nsBlockSize, s.framesTaken⟩

variable {m : NvmeMachine} {E : NvmeExit → Prop}

theorem keeps_readl (off : Nat) : Keeps published E (nvmeReadl m off) := fun _ => rfl

theorem keeps_writel (off val : Nat) : Keeps published E (nvmeWritel off val) :=
  keeps_modify fun _ => rfl

theorem keeps_writeq (off val : Nat) : Keeps published E (nvmeWriteq off val) :=
  keeps_bind (keeps_writel _ _) fun _ => keeps_writel _ _

theorem keeps_free (phys : Nat) : Keeps published E (pmmFree phys) := keeps_modify fun _ => rfl

theorem keeps_submit (cmd : NVMeSQE) : Keeps published E (adminSubmit m cmd) := fun _ => rfl

theorem keeps_waitDisabled (h : E .disableTimeout) (n : Nat) :
    Keeps published E (waitDisabled m n) := by
  induction n with
  | zero => exact keeps_leave h
  | succ n ih =>
      refine keeps_bind (keeps_readl _) fun csts => ?_
      refine keeps_ite (keeps_pure _) ?_
      exact keeps_check h ih

theorem keeps_disable (h : E .disableTimeout) : Keeps published E (disable m) := by
  refine keeps_bind (keeps_bind (keeps_readl _) fun lo =>
    keeps_bind (keeps_readl _) fun hi => keeps_pure _) fun cap => ?_
  refine keeps_bind (keeps_modify fun _ => rfl) fun _ => ?_
  refine keeps_bind (keeps_writel _ _) fun _ => ?_
  exact keeps_bind (keeps_waitDisabled h _) fun _ => keeps_pure _

theorem keeps_waitEnabled (h : E .enableTimeout) (h' : E .controllerFailed) (n : Nat) :
    Keeps published E (waitEnabled m n) := by
  induction n with
  | zero => exact keeps_leave h
  | succ n ih =>
      refine keeps_bind (keeps_readl _) fun csts => ?_
      refine keeps_ite (keeps_pure _) ?_
      refine keeps_bind (keeps_readl _) fun csts => ?_
      exact keeps_check h' (keeps_check h ih)

theorem keeps_enable (h : E .enableTimeout) (h' : E .controllerFailed) (units : UInt64) :
    Keeps published E (enable m units) :=
  keeps_bind (keeps_writel _ _) fun _ => keeps_waitEnabled h h' _

/-! ## The ways out -/

/-- The ways out before the namespace data are taken over. -/
def NvmeExit.early : NvmeExit → Bool
  | .noIocq | .createCq | .noIosq | .createSq => false
  | _ => true

/-- The address that `nvme_base` gets. -/
def NvmeMachine.base (m : NvmeMachine) : Nat :=
  match pciFindClass m.pciDevices 0x01 0x08 with
  | none => 0
  | some pdev => add64 (pciGetBarAddr m.config pdev.bus pdev.slot pdev.func 0) m.hhdmOffset

/-- The address that `iosq` gets, of the sixth frame. -/
def NvmeMachine.iosq (m : NvmeMachine) : Nat := add64 (m.frame 5) m.hhdmOffset

/-- `ns_block_size` of the namespace. -/
def blockSize (data : Mem) : UInt32 := 1 <<< (lbads data).toUInt32

/-- What is published before the namespace data are taken over. -/
def before (m : NvmeMachine) (frames : Nat) : Published := ⟨m.base, 0, 0, 512, frames⟩

/-- What is published behind that point, while there is no submission queue. -/
def behind (m : NvmeMachine) (frames : Nat) : Published :=
  ⟨m.base, 0, nsze m.namespaceData, blockSize m.namespaceData, frames⟩

/-- What is published with the submission queue. -/
def complete (m : NvmeMachine) : Published :=
  ⟨m.base, m.iosq, nsze m.namespaceData, blockSize m.namespaceData, 6⟩

/-- The statics at a way out. -/
structure Left (m : NvmeMachine) (k : NvmeExit) (s : NvmeStatics) : Prop where
  early : k.early = true → s.iosq = 0 ∧ s.nsBlockCount = 0
  late : k.early = false → k ≠ .createSq → ∃ frames, published s = behind m frames
  createSq : k = .createSq → published s = complete m

variable {s : NvmeStatics} {k : NvmeExit} {frames : Nat}

theorem left_early (hk : k.early = true) (h : s.iosq = 0 ∧ s.nsBlockCount = 0) : Left m k s := by
  refine ⟨fun _ => h, fun hlate => ?_, ?_⟩
  · rw [hk] at hlate
    cases hlate
  · rintro rfl
    cases hk

theorem left_before (hk : k.early = true) (h : published s = before m frames) : Left m k s :=
  left_early hk ⟨congrArg Published.iosq h, congrArg Published.nsBlockCount h⟩

theorem left_behind (hk : k.early = false) (hne : k ≠ .createSq)
    (h : published s = behind m frames) : Left m k s := by
  refine ⟨fun hearly => ?_, fun _ _ => ⟨frames, h⟩, fun heq => absurd heq hne⟩
  rw [hk] at hearly
  cases hearly

/-- A part before the namespace data. -/
theorem before_step {α : Type} {x : NvmeStage α} (h : published s = before m frames)
    (hx : Keeps published (fun k => k.early = true) x) :
    Outcome (fun _ t => published t = before m frames) (Left m) x s :=
  hx.outcome h fun _ _ hk ht => left_before hk ht

/-- A part between the namespace data and the submission queue. -/
theorem behind_step {α : Type} {x : NvmeStage α} (h : published s = behind m frames)
    (hx : Keeps published (fun k => k.early = false ∧ k ≠ .createSq) x) :
    Outcome (fun _ t => published t = behind m frames) (Left m) x s :=
  hx.outcome h fun _ _ hk ht => left_behind hk.1 hk.2 ht

/-- A frame is taken. -/
theorem alloc_step {p : Published} {R : NvmeExit → NvmeStatics → Prop} (h : published s = p) :
    Outcome (fun phys t => phys = m.frame p.framesTaken ∧
      published t = { p with framesTaken := p.framesTaken + 1 }) R (pmmAlloc m) s := by
  rw [← h]
  exact ⟨rfl, rfl⟩

theorem findController_outcome :
    Outcome (fun _ t => published t = before m 0) (Left m) (findController m) (.boot m) := by
  refine outcome_bind (Q := fun pdev t => pciFindClass m.pciDevices 0x01 0x08 = some pdev ∧
    t = NvmeStatics.boot m) (outcome_ofOption ?_ ?_) ?_
  · exact fun pdev hpdev => ⟨hpdev, rfl⟩
  · exact fun _ => left_early rfl ⟨rfl, rfl⟩
  rintro pdev t ⟨hpdev, rfl⟩
  have hbase : m.base = add64 (pciGetBarAddr m.config pdev.bus pdev.slot pdev.func 0)
      m.hhdmOffset := by
    rw [NvmeMachine.base, hpdev]
  refine outcome_ite (fun _ => ?_) fun _ => ?_
  · exact outcome_leave (α := Unit) (left_early rfl ⟨rfl, rfl⟩)
  refine outcome_ite (fun _ => ?_) fun _ => ?_
  · exact outcome_leave (α := Unit) (left_early rfl ⟨rfl, rfl⟩)
  refine outcome_modify ?_
  rw [before, hbase]
  rfl

theorem adminQueues_outcome (h : published s = before m 0) :
    Outcome (fun _ t => published t = before m 2) (Left m) (adminQueues m) s := by
  refine outcome_bind (alloc_step h) ?_
  rintro asqPhys t ⟨-, ht⟩
  refine outcome_bind (before_step ht (keeps_modify fun _ => rfl)) fun _ t ht => ?_
  refine outcome_bind (alloc_step ht) ?_
  rintro acqPhys t ⟨-, ht⟩
  refine outcome_bind (before_step ht (keeps_modify fun _ => rfl)) fun _ t ht => ?_
  refine before_step ht (keeps_check rfl ?_)
  refine keeps_bind (keeps_modify fun _ => rfl) fun _ => ?_
  refine keeps_bind (keeps_writel _ _) fun _ => ?_
  exact keeps_bind (keeps_writeq _ _) fun _ => keeps_writeq _ _

theorem identifyController_outcome (h : published s = before m 2) :
    Outcome (fun _ t => published t = before m 3) (Left m) (identifyController m) s := by
  refine outcome_bind (alloc_step h) ?_
  rintro idPhys t ⟨-, ht⟩
  refine before_step ht (keeps_check rfl ?_)
  refine keeps_bind (keeps_submit _) fun result => ?_
  refine keeps_ite ?_ (keeps_pure _)
  exact keeps_bind (keeps_free _) fun _ => keeps_leave (α := Nat) rfl

/-- The namespace data are taken over. -/
theorem identifyNamespace_outcome (h : published s = before m 3) (idPhys : Nat) :
    Outcome (fun _ t => published t = behind m 4) (Left m) (identifyNamespace m idPhys) s := by
  refine outcome_bind (alloc_step h) ?_
  rintro nsPhys t ⟨-, ht⟩
  refine outcome_ite (fun _ => ?_) fun _ => ?_
  · refine outcome_bind (before_step ht (keeps_free _)) fun _ u hu => ?_
    exact outcome_leave (α := Unit) (left_before rfl hu)
  refine outcome_bind (before_step ht (keeps_submit _)) fun result u hu => ?_
  refine outcome_ite (fun _ => ?_) fun _ => ?_
  · refine outcome_bind (before_step hu (keeps_free _)) fun _ v hv => ?_
    refine outcome_bind (before_step hv (keeps_free _)) fun _ w hw => ?_
    exact outcome_leave (α := Unit) (left_before rfl hw)
  · refine outcome_bind (Q := fun _ v => published v = behind m 4) (outcome_modify ?_) fun _ v hv => ?_
    · have hbase := congrArg Published.nvmeBase hu
      have hiosq := congrArg Published.iosq hu
      have hframes := congrArg Published.framesTaken hu
      simp only [published, before] at hbase hiosq hframes
      simp only [published, behind, blockSize, hbase, hiosq, hframes]
    · exact behind_step hv (keeps_bind (keeps_free _) fun _ => keeps_free _)

theorem createCq_outcome (h : published s = behind m 4) :
    Outcome (fun _ t => published t = behind m 5) (Left m) (createCq m) s := by
  refine outcome_bind (alloc_step h) ?_
  rintro iocqPhys t ⟨-, ht⟩
  refine behind_step ht (keeps_bind (keeps_modify fun _ => rfl) fun _ => ?_)
  refine keeps_check ⟨rfl, by decide⟩ ?_
  refine keeps_bind (keeps_modify fun _ => rfl) fun _ => ?_
  refine keeps_bind (keeps_submit _) fun result => ?_
  exact keeps_ite (keeps_leave ⟨rfl, by decide⟩) (keeps_pure _)

/-- The last part publishes `iosq`, and is left behind that if the controller refuses. -/
theorem createSq_outcome (h : published s = behind m 5) :
    Outcome (fun _ _ => True) (Left m) (createSq m) s := by
  refine outcome_bind (alloc_step h) ?_
  rintro iosqPhys t ⟨hphys, ht⟩
  refine outcome_bind (behind_step ht (keeps_modify fun _ => rfl)) fun _ u hu => ?_
  refine outcome_ite (fun _ => ?_) fun _ => ?_
  · exact outcome_leave (α := Unit) (left_behind rfl (by decide) hu)
  -- from here on `iosq` is set
  refine outcome_bind (Q := fun _ v => published v = complete m) (outcome_modify ?_) fun _ v hv => ?_
  · have hbase := congrArg Published.nvmeBase hu
    have hcount := congrArg Published.nsBlockCount hu
    have hsize := congrArg Published.nsBlockSize hu
    have hframes := congrArg Published.framesTaken hu
    simp only [published, behind] at hbase hcount hsize hframes
    simp only [published, complete, hbase, hcount, hsize, hframes, hphys]
    rfl
  refine outcome_bind (Q := fun _ w => published w = complete m) hv fun result w hw => ?_
  refine outcome_ite (fun _ => outcome_leave ?_) fun _ => outcome_pure trivial
  exact ⟨fun hearly => (by cases hearly), fun _ hne => absurd rfl hne, fun _ => hw⟩

/-- The statics at each way out of `nvme_init`. -/
theorem nvmeInit_outcome (m : NvmeMachine) :
    Outcome (fun _ _ => True) (Left m) (nvmeInit m) (.boot m) := by
  refine outcome_bind findController_outcome fun _ s hs => ?_
  refine outcome_bind (before_step hs (keeps_disable rfl)) fun units s hs => ?_
  refine outcome_bind (adminQueues_outcome hs) fun _ s hs => ?_
  refine outcome_bind (before_step hs
    (keeps_enable (E := fun k => k.early = true) rfl rfl units)) fun _ s hs => ?_
  refine outcome_bind (identifyController_outcome hs) fun idPhys s hs => ?_
  refine outcome_bind (identifyNamespace_outcome hs idPhys) fun _ s hs => ?_
  exact outcome_bind (createCq_outcome hs) fun _ s hs => createSq_outcome hs

/-! ## When the driver is disabled -/

/-- `nvme_get_block_count`. -/
def nvmeGetBlockCount (s : NvmeStatics) : Nat := s.nsBlockCount

/-- The driver that the block commands run on, behind `nvme_init`. -/
structure Drives (s : NvmeStatics) (t : System) : Prop where
  present : t.driver.present = (s.nvmeBase != 0 && s.iosq != 0)
  nsBlockSize : t.driver.nsBlockSize = s.nsBlockSize

/-- The block commands return -1 with the queues as they were, and there are no
blocks. -/
def NvmeDisabled (s : NvmeStatics) : Prop :=
  (∀ t, Drives s t → ∀ nsid lba count buf schedule,
    nvmeReadBlocks nsid lba count buf schedule t = (-1, none, t) ∧
      nvmeWriteBlocks nsid lba count buf schedule t = (-1, none, t)) ∧
    nvmeGetBlockCount s = 0

/-- A block command is refused for every count when there is no driver, or when not
one block fits into the buffer. -/
theorem blockCommand_refused {t : System} (opcode : UInt32)
    (h : t.driver.present = false ∨ 4096 / t.driver.nsBlockSize = 0) (nsid : UInt32) (lba : UInt64)
    (count : UInt32) (buf : UInt64) (schedule : Schedule) :
    blockCommand opcode nsid lba count buf schedule t = (-1, none, t) := by
  unfold blockCommand
  by_cases hpresent : t.driver.present = true
  · rw [if_neg (by simp [hpresent])]
    have hsize := h.resolve_left (by simp [hpresent])
    rw [hsize, if_pos]
    by_cases hcount : count = 0
    · exact .inl hcount
    · refine .inr (UInt32.lt_iff_toNat_lt.mpr ?_)
      have hne : count.toNat ≠ 0 := fun h0 => hcount (UInt32.toNat_inj.mp h0)
      exact Nat.pos_of_ne_zero hne
  · rw [if_pos (by simpa using hpresent)]

/-- There are no blocks, and there is no base, no queue or no block that fits into a page. -/
theorem nvmeDisabled_iff (s : NvmeStatics) :
    NvmeDisabled s ↔ s.nsBlockCount = 0 ∧
      (s.nvmeBase = 0 ∨ s.iosq = 0 ∨ 4096 / s.nsBlockSize = 0) := by
  constructor
  · rintro ⟨hblocks, hcount⟩
    refine ⟨hcount, ?_⟩
    by_contra hnot
    rw [not_or, not_or] at hnot
    rcases hnot with ⟨hbase, hiosq, hsize⟩
    -- otherwise a read of one block would be sent to the controller
    let t : System := { started with driver := { started.driver with nsBlockSize := s.nsBlockSize } }
    have hdrives : Drives s t := by
      refine ⟨?_, rfl⟩
      have hpresent : (s.nvmeBase != 0 && s.iosq != 0) = true := by simp [hbase, hiosq]
      rw [hpresent]
      rfl
    have hread := (hblocks t hdrives 1 0 1 0 fun _ => []).1
    have hpass : ¬((1 : UInt32) = 0 ∨ (1 : UInt32) > 4096 / s.nsBlockSize) := by
      rintro (h | h)
      · exact absurd h (by decide)
      · apply hsize
        have hlt := UInt32.lt_iff_toNat_lt.mp h
        apply UInt32.toNat_inj.mp
        change (4096 / s.nsBlockSize).toNat = 0
        have hone : (1 : UInt32).toNat = 1 := rfl
        omega
    have hattempt := congrArg (fun r => r.2.1.isSome) hread
    unfold nvmeReadBlocks blockCommand at hattempt
    have hpresent : ¬(!t.driver.present) = true := by
      change ¬(!true) = true
      decide
    rw [if_neg hpresent, if_neg hpass] at hattempt
    cases hattempt
  · rintro ⟨hcount, h⟩
    refine ⟨fun t ht nsid lba count buf schedule => ?_, hcount⟩
    have hrefused : t.driver.present = false ∨ 4096 / t.driver.nsBlockSize = 0 := by
      rw [ht.present, ht.nsBlockSize]
      rcases h with h | h | h
      · exact .inl (by simp [h])
      · exact .inl (by simp [h])
      · exact .inr h
    exact ⟨blockCommand_refused _ hrefused nsid lba count buf schedule,
      blockCommand_refused _ hrefused nsid lba count buf schedule⟩

theorem lbads_lt (data : Mem) : lbads data < 16 := by
  unfold lbads
  exact Nat.lt_of_le_of_lt Nat.and_le_right (by decide)

/-- A block is larger than the buffer. -/
theorem blockSize_large (data : Mem) : 4096 / blockSize data = 0 ↔ 12 < lbads data := by
  have hall : ∀ k < 16, (4096 : UInt32) / (1 <<< Nat.toUInt32 k) = 0 ↔ 12 < k := by decide
  exact hall _ (lbads_lt data)

/-- After which ways out the driver is disabled. -/
def NvmeMeets (m : NvmeMachine) : NvmeExit → Prop
  | .noIocq | .createCq | .noIosq => nsze m.namespaceData = 0
  | .createSq => nsze m.namespaceData = 0 ∧
      (m.base = 0 ∨ m.iosq = 0 ∨ 12 < lbads m.namespaceData)
  | _ => True

/-- At each way out: the driver is disabled exactly if the way out or the namespace makes it
so. -/
theorem Left.disabled_iff {k : NvmeExit} (h : Left m k s) : NvmeDisabled s ↔ NvmeMeets m k := by
  rw [nvmeDisabled_iff]
  by_cases hearly : k.early = true
  · have hmeets : NvmeMeets m k := by
      cases k <;> trivial
    simp [h.early hearly, hmeets]
  have hlate : k.early = false := by simpa using hearly
  by_cases hsq : k = .createSq
  · have hcomplete := h.createSq hsq
    have hbase := congrArg Published.nvmeBase hcomplete
    have hiosq := congrArg Published.iosq hcomplete
    have hcount := congrArg Published.nsBlockCount hcomplete
    have hsize := congrArg Published.nsBlockSize hcomplete
    simp only [published, complete] at hbase hiosq hcount hsize
    rw [hbase, hiosq, hcount, hsize, blockSize_large, hsq]
    rfl
  · rcases h.late hlate hsq with ⟨frames, hbehind⟩
    have hiosq := congrArg Published.iosq hbehind
    have hcount := congrArg Published.nsBlockCount hbehind
    simp only [published, behind] at hiosq hcount
    have hmeets : NvmeMeets m k ↔ nsze m.namespaceData = 0 := by
      cases k <;> first | rfl | exact absurd rfl hearly | exact absurd rfl hsq
    simp [hiosq, hcount, hmeets]

end PolandOS.Nvme

namespace PolandOS.E1000

open Pci Staging Staged ByteMem

/-! ## The way through e1000_init -/

variable {m : E1000Machine} {E : E1000Exit → Prop} {ρ : Type} {view : E1000Statics → ρ}

/-- The view shows neither what registers were asked and told, nor the address of the card. -/
structure Unregistered (view : E1000Statics → ρ) : Prop where
  registersRead : ∀ s n, view { s with registersRead := n } = view s
  written : ∀ s w, view { s with written := w } = view s
  e1000Mac : ∀ s mac, view { s with e1000Mac := mac } = view s

theorem base_unregistered : Unregistered E1000Statics.e1000Base :=
  ⟨fun _ _ => rfl, fun _ _ => rfl, fun _ _ => rfl⟩

theorem keeps_read (hv : Unregistered view) (reg : Nat) : Keeps view E (e1000Read m reg) :=
  fun s => hv.registersRead s _

theorem keeps_write (hv : Unregistered view) (reg val : Nat) :
    Keeps view E (e1000Write reg val) := keeps_modify fun s => hv.written s _

theorem keeps_alloc : Keeps E1000Statics.e1000Base E (pmmAlloc m) := fun _ => rfl

theorem keeps_eepromLoop (hv : Unregistered view) (n : Nat) : Keeps view E (eepromLoop m n) := by
  induction n with
  | zero => exact keeps_pure _
  | succ n ih =>
      refine keeps_bind (keeps_read hv _) fun val => ?_
      exact keeps_ite (keeps_pure _) (keeps_ite (keeps_pure _) ih)

theorem keeps_eepromRead (hv : Unregistered view) (addr : Nat) :
    Keeps view E (e1000EepromRead m addr) :=
  keeps_bind (keeps_write hv _ _) fun _ => keeps_eepromLoop hv _

theorem keeps_readMac (hv : Unregistered view) : Keeps view E (e1000ReadMac m) := by
  refine keeps_bind (keeps_read hv _) fun ral => ?_
  refine keeps_bind (keeps_read hv _) fun rah => ?_
  refine keeps_ite (keeps_modify fun s => hv.e1000Mac s _) ?_
  refine keeps_bind (keeps_eepromRead hv _) fun w0 => ?_
  refine keeps_bind (keeps_eepromRead hv _) fun w1 => ?_
  exact keeps_bind (keeps_eepromRead hv _) fun w2 => keeps_modify fun s => hv.e1000Mac s _

theorem keeps_waitReset (hv : Unregistered view) (n : Nat) : Keeps view E (waitReset m n) := by
  induction n with
  | zero => exact keeps_pure _
  | succ n ih => exact keeps_bind (keeps_read hv _) fun ctrl => keeps_ite ih (keeps_pure _)

theorem keeps_clearRegisters (hv : Unregistered view) (regs : List Nat) :
    Keeps view E (clearRegisters regs) := by
  induction regs with
  | nil => exact keeps_pure _
  | cons reg regs ih => exact keeps_bind (keeps_write hv _ _) fun _ => ih

theorem keeps_reset (hv : Unregistered view) : Keeps view E (reset m) := by
  refine keeps_bind (keeps_read hv _) fun ctrl => ?_
  refine keeps_bind (keeps_write hv _ _) fun _ => ?_
  refine keeps_bind (keeps_waitReset hv _) fun _ => ?_
  refine keeps_bind (keeps_write hv _ _) fun _ => ?_
  refine keeps_bind (keeps_write hv _ _) fun _ => ?_
  exact keeps_bind (keeps_readMac hv) fun _ => keeps_clearRegisters hv _

theorem keeps_txBuffers (h : E .noTxBuffer) (is : List Nat) :
    Keeps E1000Statics.e1000Base E (txBuffers m is) := by
  induction is with
  | nil => exact keeps_pure _
  | cons i is ih =>
      refine keeps_bind keeps_alloc fun phys => ?_
      refine keeps_bind (keeps_modify fun _ => rfl) fun _ => ?_
      refine keeps_check h ?_
      exact keeps_bind (keeps_modify fun _ => rfl) fun _ => ih

theorem keeps_initTx (h : E .noTxRing) (h' : E .noTxBuffer) :
    Keeps E1000Statics.e1000Base E (initTx m) := by
  refine keeps_bind keeps_alloc fun phys => ?_
  refine keeps_bind (keeps_modify fun _ => rfl) fun _ => ?_
  refine keeps_check h ?_
  refine keeps_bind (keeps_modify fun _ => rfl) fun _ => ?_
  refine keeps_bind (keeps_txBuffers h' _) fun _ => ?_
  refine keeps_bind (keeps_write base_unregistered _ _) fun _ => ?_
  refine keeps_bind (keeps_write base_unregistered _ _) fun _ => ?_
  refine keeps_bind (keeps_write base_unregistered _ _) fun _ => ?_
  refine keeps_bind (keeps_write base_unregistered _ _) fun _ => ?_
  refine keeps_bind (keeps_write base_unregistered _ _) fun _ => ?_
  refine keeps_bind (keeps_modify fun _ => rfl) fun _ => ?_
  exact keeps_bind (keeps_write base_unregistered _ _) fun _ => keeps_write base_unregistered _ _

theorem keeps_rxBuffers (h : E .noRxBuffer) (is : List Nat) :
    Keeps E1000Statics.e1000Base E (rxBuffers m is) := by
  induction is with
  | nil => exact keeps_pure _
  | cons i is ih =>
      refine keeps_bind keeps_alloc fun phys => ?_
      refine keeps_bind (keeps_modify fun _ => rfl) fun _ => ?_
      refine keeps_check h ?_
      exact keeps_bind (keeps_modify fun _ => rfl) fun _ => ih

theorem keeps_initRx (h : E .noRxRing) (h' : E .noRxBuffer) :
    Keeps E1000Statics.e1000Base E (initRx m) := by
  refine keeps_bind keeps_alloc fun phys => ?_
  refine keeps_bind (keeps_modify fun _ => rfl) fun _ => ?_
  refine keeps_check h ?_
  refine keeps_bind (keeps_modify fun _ => rfl) fun _ => ?_
  refine keeps_bind (keeps_rxBuffers h' _) fun _ => ?_
  refine keeps_bind (keeps_write base_unregistered _ _) fun _ => ?_
  refine keeps_bind (keeps_write base_unregistered _ _) fun _ => ?_
  refine keeps_bind (keeps_write base_unregistered _ _) fun _ => ?_
  refine keeps_bind (keeps_write base_unregistered _ _) fun _ => ?_
  refine keeps_bind (keeps_modify fun _ => rfl) fun _ => ?_
  exact keeps_bind (keeps_write base_unregistered _ _) fun _ => keeps_write base_unregistered _ _

/-! ## The ways out -/

/-- The ways out before `e1000_base` is published. -/
def E1000Exit.early : E1000Exit → Bool
  | .noCard | .ioBar | .noBar => true
  | _ => false

/-- The address that `e1000_base` gets. -/
def E1000Machine.base (m : E1000Machine) : Nat :=
  match findCard m.pciDevices with
  | none => 0
  | some pdev => add64 (pciGetBarAddr m.config pdev.bus pdev.slot pdev.func 0) m.hhdmOffset

/-- The base at a way out. -/
def LeftBase (m : E1000Machine) (k : E1000Exit) (s : E1000Statics) : Prop :=
  s.e1000Base = if k.early then 0 else m.base

variable {s : E1000Statics}

theorem left_early {k : E1000Exit} (hk : k.early = true) (h : s.e1000Base = 0) :
    LeftBase m k s := by
  rw [LeftBase, hk, h]
  rfl

theorem findRegisters_outcome :
    Outcome (fun _ t => t.e1000Base = m.base) (LeftBase m) (findRegisters m) (.boot m) := by
  refine outcome_bind (Q := fun pdev t => findCard m.pciDevices = some pdev ∧
    t = E1000Statics.boot m) (outcome_ofOption ?_ ?_) ?_
  · exact fun pdev hpdev => ⟨hpdev, rfl⟩
  · exact fun _ => left_early rfl rfl
  rintro pdev t ⟨hpdev, rfl⟩
  refine outcome_ite (fun _ => ?_) fun _ => ?_
  · exact outcome_leave (α := Unit) (left_early rfl rfl)
  refine outcome_ite (fun _ => ?_) fun _ => ?_
  · exact outcome_leave (α := Unit) (left_early rfl rfl)
  refine outcome_modify ?_
  rw [E1000Machine.base, hpdev]

/-- A part behind the base. -/
theorem base_step {α : Type} {x : E1000Stage α} (h : s.e1000Base = m.base)
    (hx : Keeps E1000Statics.e1000Base (fun k => k.early = false) x) :
    Outcome (fun _ t => t.e1000Base = m.base) (LeftBase m) x s := by
  refine hx.outcome h fun k t hk ht => ?_
  rw [LeftBase, hk, ht]
  rfl

theorem e1000Init_outcome (m : E1000Machine) :
    Outcome (fun _ _ => True) (LeftBase m) (e1000Init m) (.boot m) := by
  refine outcome_bind findRegisters_outcome fun _ s hs => ?_
  refine outcome_bind (base_step hs (keeps_reset base_unregistered)) fun _ s hs => ?_
  refine outcome_bind (base_step hs
    (keeps_initTx (E := fun k => k.early = false) rfl rfl)) fun _ s hs => ?_
  refine outcome_bind (base_step hs
    (keeps_initRx (E := fun k => k.early = false) rfl rfl)) fun _ s hs => ?_
  exact outcome_modify trivial

/-! ## When the driver is disabled -/

/-- Nothing is sent and nothing received, and no descriptor is dereferenced. -/
def E1000Disabled (s : E1000Statics) : Prop :=
  (∀ data len, e1000Send data len s = ⟨-1, [], s⟩) ∧ e1000HasPacket s = ⟨0, [], s⟩ ∧
    ∀ buf len, e1000Recv buf len s = ⟨0, [], s⟩

theorem e1000Disabled_iff (s : E1000Statics) : E1000Disabled s ↔ s.e1000Base = 0 := by
  constructor
  · rintro ⟨-, hpacket, -⟩
    by_contra hbase
    have hderef := congrArg E1000Result.dereferenced hpacket
    rw [e1000HasPacket, if_neg hbase] at hderef
    cases hderef
  · intro hbase
    refine ⟨fun data len => ?_, ?_, fun buf len => ?_⟩
    · rw [e1000Send, if_pos hbase]
    · rw [e1000HasPacket, if_pos hbase]
    · rw [e1000Recv, if_pos hbase]

/-- After which ways out the driver is disabled. -/
def E1000Meets (m : E1000Machine) (k : E1000Exit) : Prop := k.early = true ∨ m.base = 0

theorem LeftBase.disabled_iff {k : E1000Exit} (h : LeftBase m k s) :
    E1000Disabled s ↔ E1000Meets m k := by
  rw [e1000Disabled_iff, h, E1000Meets]
  by_cases hearly : k.early = true
  · simp [hearly]
  · simp [hearly]

end PolandOS.E1000

namespace PolandOS

open Pci Nvme E1000 Staging

/-! ## Both drivers -/

/-- After which of the ways out of `nvme_init` and of `e1000_init` the driver is
disabled. -/
theorem failed_init (m : NvmeMachine) (k : NvmeExit) (s : NvmeStatics) (m' : E1000Machine)
    (k' : E1000Exit) (s' : E1000Statics) :
    (nvmeInit m (.boot m) = (.error k, s) → (NvmeDisabled s ↔ NvmeMeets m k)) ∧
      (e1000Init m' (.boot m') = (.error k', s') → (E1000Disabled s' ↔ E1000Meets m' k')) := by
  constructor
  · intro h
    exact ((nvmeInit_outcome m).of_error h).disabled_iff
  · intro h
    exact ((e1000Init_outcome m').of_error h).disabled_iff

/-- A machine with an NVMe controller that refuses the last command, Create I/O
Submission Queue. -/
def refusingNvme : NvmeMachine where
  pciDevices := [⟨0x1B36, 0x0010, 0x01, 0x08, 0, 4, 0, fun _ => 0xFEBF0000, 11⟩]
  config _ _ _ _ := 0xFEBF0000
  hhdmOffset := 0xFFFF800000000000
  register n := if n = 2 then 0 else 1
  frame n := 0x100000 + 0x1000 * n
  controller := ⟨0, [], 0, true, 0⟩
  schedule n _ := [⟨0, 0, if n = 3 then 1 else 0⟩]
  namespaceData a := if a = 1 then 16 else if a = 130 then 9 else 0

/-- A machine with a network card and no memory. -/
def fullE1000 : E1000Machine where
  pciDevices := [⟨0x8086, 0x100E, 0x02, 0x00, 0, 3, 0, fun _ => 0xFEBC0000, 11⟩]
  config _ _ _ _ := 0xFEBC0000
  hhdmOffset := 0xFFFF800000000000
  register _ := 0x80000000
  frame _ := 0
  mem _ := 0

theorem refusingNvme_left :
    ∃ s, nvmeInit refusingNvme (.boot refusingNvme) = (.error .createSq, s) := by
  have hexit : exitOf (nvmeInit refusingNvme (.boot refusingNvme)) = some .createSq := by
    decide +kernel
  exact ⟨_, eq_of_exitOf hexit⟩

theorem fullE1000_left : ∃ s, e1000Init fullE1000 (.boot fullE1000) = (.error .noTxRing, s) := by
  have hexit : exitOf (e1000Init fullE1000 (.boot fullE1000)) = some .noTxRing := by decide +kernel
  exact ⟨_, eq_of_exitOf hexit⟩

theorem failed_init_refused :
    ∃ s s', nvmeInit refusingNvme (.boot refusingNvme) = (.error .createSq, s) ∧
      (NvmeDisabled s ↔ NvmeMeets refusingNvme .createSq) ∧
      e1000Init fullE1000 (.boot fullE1000) = (.error .noTxRing, s') ∧
      (E1000Disabled s' ↔ E1000Meets fullE1000 .noTxRing) := by
  rcases refusingNvme_left with ⟨s, hs⟩
  rcases fullE1000_left with ⟨s', hs'⟩
  have hboth := failed_init refusingNvme .createSq s fullE1000 .noTxRing s'
  exact ⟨s, s', hs, hboth.1 hs, hs', hboth.2 hs'⟩

/-- Behind these failures there are blocks to read, and a packet is looked for in a ring
at address 0. -/
theorem enabled_after_failure :
    (∃ s, nvmeInit refusingNvme (.boot refusingNvme) = (.error .createSq, s) ∧
      ¬NvmeDisabled s) ∧
    ∃ s, e1000Init fullE1000 (.boot fullE1000) = (.error .noTxRing, s) ∧
      ¬E1000Disabled s := by
  constructor
  · rcases refusingNvme_left with ⟨s, hs⟩
    have hblocks : nsze refusingNvme.namespaceData ≠ 0 := by decide
    refine ⟨s, hs, fun hdisabled => ?_⟩
    have hmeets := ((nvmeInit_outcome _).of_error hs).disabled_iff.mp hdisabled
    exact hblocks hmeets.1
  · rcases fullE1000_left with ⟨s, hs⟩
    have hbase : fullE1000.base ≠ 0 := by decide
    refine ⟨s, hs, fun hdisabled => ?_⟩
    have hmeets := ((e1000Init_outcome _).of_error hs).disabled_iff.mp hdisabled
    unfold E1000Meets at hmeets
    exact hbase (hmeets.resolve_left (by decide))

end PolandOS
