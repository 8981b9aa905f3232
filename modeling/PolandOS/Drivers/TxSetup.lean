import PolandOS.Drivers.FailedInit
import PolandOS.Drivers.TxRing
import PolandOS.Mm.PmmOwnership

/-! # The transmit ring behind `e1000_init`

`e1000_init` sets up the transmit ring in frames of its own, with every descriptor done and
the head and the tail at 0; what it does to the receive ring then leaves that alone.
-/

namespace PolandOS.E1000

open ByteMem DescRing Staging Staged

/-- What `pmm_alloc` returns while nothing is freed: 0, or a frame that it has not returned
before. -/
structure PmmFrames (m : E1000Machine) : Prop where
  aligned : ∀ k, m.frame k % 4096 = 0
  lt : ∀ k, m.frame k < 2 ^ 64
  fresh : ∀ j k, m.frame j = m.frame k → m.frame j ≠ 0 → j = k

variable {m : E1000Machine} {s t : E1000Statics}

/-- The address of a frame. -/
def E1000Machine.page (m : E1000Machine) (k : Nat) : Nat := add64 (m.frame k) m.hhdmOffset

/-- Different frames share no byte. -/
theorem PmmFrames.apart (h : PmmFrames m) {j k : Nat} (hjk : j ≠ k) (hj : m.frame j ≠ 0)
    {a b : Nat} (ha : a ≤ 4096) (hb : b ≤ 4096) : Apart (m.page j) a (m.page k) b := by
  have hne : m.frame j ≠ m.frame k := fun heq => hjk (h.fresh j k heq hj)
  have hal := h.aligned j
  have hal' := h.aligned k
  have hlt := h.lt j
  have hlt' := h.lt k
  intro x hx y hy heq
  unfold E1000Machine.page byteAt add64 at heq
  omega

/-- The calls of `pmm_alloc` between which no frame is freed: the manager before each, and what
is held there. -/
structure Allocates (entries : List Pmm.MemmapEntry) (m : E1000Machine) (pmm : Nat → Pmm.PmmState)
    (held : Nat → List Nat) : Prop where
  inv : ∀ k, Pmm.Inv entries (pmm k) (held k)
  grows : ∀ k, held (k + 1) = Pmm.hold (Pmm.pmmAlloc (pmm k)).1 1 (held k)
  frame : ∀ k, m.frame k = (Pmm.pmmAlloc (pmm k)).1

section

variable {entries : List Pmm.MemmapEntry} {pmm : Nat → Pmm.PmmState} {held : Nat → List Nat}

/-- There is no frame left, or the one that is returned was not held. -/
theorem Allocates.fresh (h : Allocates entries m pmm held) (k : Nat) : m.frame k = 0 ∨
    ∃ f < 2 ^ 52, m.frame k = f * 4096 ∧ f ∉ held k ∧ held (k + 1) = f :: held k := by
  rw [h.frame k, h.grows k]
  obtain hnone | ⟨f, hphys, -, hinv⟩ := Pmm.pmmAlloc_spec (h.inv k)
  · rw [hnone]
    exact .inl rfl
  rw [hphys, Pmm.hold]
  by_cases hzero : f * Pmm.pageSize = 0
  · exact .inl hzero
  · have hdiv : f * Pmm.pageSize / Pmm.pageSize = f := Nat.mul_div_cancel f (by decide)
    have howned := hinv.owned f List.mem_cons_self
    refine .inr ⟨f, Nat.lt_trans howned.1 hinv.small, rfl, (List.nodup_cons.1 hinv.nodup).1, ?_⟩
    rw [if_neg hzero, hdiv]
    rfl

theorem Allocates.held_mono (h : Allocates entries m pmm held) {j k : Nat} (hjk : j ≤ k) :
    held j ⊆ held k := by
  induction k, hjk using Nat.le_induction with
  | base => exact List.Subset.refl _
  | succ k _ ih =>
      rw [h.grows k, Pmm.hold]
      split
      · exact ih
      · exact List.subset_append_of_subset_right _ ih

theorem Allocates.pmmFrames (h : Allocates entries m pmm held) : PmmFrames m := by
  have hheld : ∀ k, m.frame k ≠ 0 → m.frame k / 4096 ∉ held k ∧
      m.frame k / 4096 ∈ held (k + 1) := by
    intro k hne
    obtain hzero | ⟨f, -, hframe, hfresh, hgrows⟩ := h.fresh k
    · exact absurd hzero hne
    · rw [hframe, Nat.mul_div_cancel f (by decide), hgrows]
      exact ⟨hfresh, List.mem_cons_self⟩
  have hlater : ∀ j k, j < k → m.frame j = m.frame k → m.frame j = 0 := by
    intro j k hjk heq
    by_contra hne
    have hin := h.held_mono hjk (hheld j hne).2
    rw [heq] at hin hne
    exact (hheld k hne).1 hin
  refine ⟨fun k => ?_, fun k => ?_, fun j k heq hne => ?_⟩
  · obtain hzero | ⟨f, -, hframe, -⟩ := h.fresh k <;> omega
  · obtain hzero | ⟨f, hf, hframe, -⟩ := h.fresh k <;> omega
  · by_contra hjk
    obtain hlt | hlt := Nat.lt_or_gt_of_ne hjk
    · exact hne (hlater j k hlt heq)
    · exact hne (heq.trans (hlater k j hlt heq.symm))

end

/-! ## The way through e1000_init -/

/-- The part of the transmit ring that is set up: `a` buffers with their descriptors. -/
structure TxReady (m : E1000Machine) (a : Nat) (s : E1000Statics) : Prop where
  taken : a < s.framesTaken
  frames : ∀ i ≤ a, m.frame i ≠ 0
  ring : s.txRing = m.page 0
  bufs : ∀ i < a, s.txBufs i = m.page (i + 1)
  done : ∀ i < a, status s.mem (desc s.txRing i) = e1000StatDd

variable {a : Nat} {S : TxSystem} {len : UInt16} {R : E1000Exit → E1000Statics → Prop}

theorem TxReady.frame (h : TxReady m a s) (htaken : s.framesTaken ≤ t.framesTaken)
    (hring : t.txRing = s.txRing) (hbufs : t.txBufs = s.txBufs)
    (hmem : ∀ i < a, t.mem (byteAt s.txRing (16 * i + 12)) = s.mem (byteAt s.txRing (16 * i + 12))) :
    TxReady m a t := by
  refine ⟨Nat.lt_of_lt_of_le h.taken htaken, h.frames, hring.trans h.ring, fun i hi => ?_,
    fun i hi => ?_⟩
  · rw [hbufs]
    exact h.bufs i hi
  · rw [status_eq, hring, hmem i hi, ← status_eq s.mem s.txRing i]
    exact h.done i hi

/-- A descriptor is set up. -/
theorem initDesc_frame (mem : Mem) {ring i x : Nat} (phys : Nat) (v : UInt8)
    (h : ∀ o < 16, x ≠ byteAt ring (16 * i + o)) :
    setStatus (setBufferAddr mem (desc ring i) phys) (desc ring i) v x = mem x := by
  unfold setStatus setBufferAddr
  rw [writeLE_desc_frame _ (by decide) h]
  refine writeLE_frame _ _ fun j hj => ?_
  rw [byteAt_desc]
  exact h j (by omega)

theorem framesTaken_unregistered : Unregistered E1000Statics.framesTaken :=
  ⟨fun _ _ => rfl, fun _ _ => rfl, fun _ _ => rfl⟩

theorem keeps_findRegisters :
    Keeps E1000Statics.framesTaken (fun _ => True) (findRegisters m) := by
  refine keeps_bind (keeps_ofOption trivial _) fun pdev => ?_
  refine keeps_check trivial ?_
  exact keeps_check trivial (keeps_modify fun _ => rfl)

/-- The next frame is taken. -/
theorem pmmAlloc_outcome (h : s.framesTaken = a) :
    Outcome (fun phys t => phys = m.frame a ∧ t = { s with framesTaken := a + 1 }) R
      (pmmAlloc m) s := by
  rw [← h]
  exact ⟨rfl, rfl⟩

/-- One buffer after the other is taken, in frames that nothing else has. -/
theorem txBuffers_outcome (n a : Nat) (s : E1000Statics) (h : TxReady m a s)
    (hframes : s.framesTaken = a + 1) (hn : a + n ≤ 16) :
    Outcome (fun _ t => TxReady m (a + n) t) (fun _ _ => True)
      (txBuffers m (List.range' a n)) s := by
  -- descriptors `0` to `a` are ready, and the next one gets the next frame
  induction n generalizing a s with
  | zero => exact outcome_pure h
  | succ n ih =>
      rw [List.range'_succ]
      refine outcome_bind (pmmAlloc_outcome hframes) ?_
      rintro phys t ⟨hphys, rfl⟩
      refine outcome_bind (Q := fun _ t => t.framesTaken = a + 2 ∧ TxReady m a t)
        (outcome_modify ⟨rfl, h.frame (hframes ▸ Nat.le_succ _) rfl rfl fun _ _ => rfl⟩) ?_
      rintro - t ⟨htaken, ht⟩
      refine outcome_ite (fun _ => outcome_leave (α := Unit) trivial) fun hne => ?_
      rw [hphys] at hne
      refine outcome_bind (Q := fun _ t => t.framesTaken = a + 2 ∧ TxReady m (a + 1) t)
        (outcome_modify ⟨htaken, ?_⟩) ?_
      · refine ⟨htaken ▸ Nat.lt_succ_self _, fun i hi => ?_, ht.ring, fun i hi => ?_, fun i hi => ?_⟩
        · obtain rfl | hlt := Nat.eq_or_lt_of_le hi
          · exact hne
          · exact h.frames i (Nat.le_of_lt_succ hlt)
        · by_cases heq : i = a
          · subst heq
            change Function.update t.txBufs i (add64 phys m.hhdmOffset) i = m.page (i + 1)
            rw [Function.update_self, hphys]
            rfl
          · change Function.update t.txBufs a _ i = _
            rw [Function.update_of_ne heq]
            exact ht.bufs i (by omega)
        · by_cases heq : i = a
          · subst heq
            exact status_setStatus _ _ _ _
          · change status (setStatus (setBufferAddr t.mem _ phys) _ _) (desc t.txRing i) = _
            rw [status_eq, initDesc_frame t.mem phys _ fun o ho heq' => ?_,
              ← status_eq t.mem t.txRing i]
            · exact ht.done i (by omega)
            · have := byteAt_inj (by omega) (by omega) heq'
              omega
      · rintro - t ⟨htaken, ht⟩
        have := ih (a + 1) t ht htaken (by omega)
        rwa [Nat.add_right_comm a 1 n] at this

/-- The transmit ring as the card and the driver get it. -/
structure TxSet (m : E1000Machine) (s : E1000Statics) : Prop where
  ready : TxReady m 16 s
  tail : s.txTail = 0
  head : lastWritten e1000Tdh s.written = 0
  tdt : lastWritten e1000Tdt s.written = 0

theorem TxSet.frame (h : TxSet m s) (htaken : s.framesTaken ≤ t.framesTaken)
    (hring : t.txRing = s.txRing) (hbufs : t.txBufs = s.txBufs) (htail : t.txTail = s.txTail)
    (hwritten : t.written = s.written)
    (hmem : ∀ i < 16, t.mem (byteAt (m.page 0) (16 * i + 12)) =
      s.mem (byteAt (m.page 0) (16 * i + 12))) : TxSet m t := by
  rw [← h.ready.ring] at hmem
  exact ⟨h.ready.frame htaken hring hbufs hmem, htail.trans h.tail, hwritten.symm ▸ h.head,
    hwritten.symm ▸ h.tdt⟩

/-- Another register is written. -/
theorem TxSet.write (h : TxSet m s) {reg : Nat} (val : Nat) (hhead : reg ≠ e1000Tdh)
    (htdt : reg ≠ e1000Tdt) : TxSet m { s with written := s.written ++ [(reg, val)] } := by
  refine ⟨h.ready.frame le_rfl rfl rfl fun _ _ => rfl, h.tail, ?_, ?_⟩
  · exact (lastWritten_append ..).trans ((if_neg hhead).trans h.head)
  · exact (lastWritten_append ..).trans ((if_neg htdt).trans h.tdt)

theorem write_outcome {P : E1000Statics → Prop} (reg val : Nat)
    (hP : P { s with written := s.written ++ [(reg, val)] }) :
    Outcome (fun _ t => P t) R (e1000Write reg val) s := outcome_modify hP

/-- `init_tx` leaves descriptors that are done, each with a buffer of its own. -/
theorem initTx_outcome (hframes : s.framesTaken = 0) :
    Outcome (fun _ t => TxSet m t) (fun _ _ => True) (initTx m) s := by
  refine outcome_bind (pmmAlloc_outcome hframes) ?_
  rintro phys t ⟨rfl, rfl⟩
  refine outcome_bind (Q := fun _ t => t.framesTaken = 1) (outcome_modify rfl) ?_
  rintro - t htaken
  refine outcome_ite (fun _ => outcome_leave (α := Unit) trivial) fun hne => ?_
  refine outcome_bind (Q := fun _ t => t.framesTaken = 1 ∧ TxReady m 0 t)
    (outcome_modify ⟨htaken, ?_⟩) ?_
  · refine ⟨htaken ▸ Nat.one_pos, fun i hi => ?_, rfl, fun i hi => absurd hi (by omega),
      fun i hi => absurd hi (by omega)⟩
    rw [Nat.le_zero.1 hi]
    exact hne
  rintro - t ⟨htaken, hready⟩
  rw [List.range_eq_range']
  refine outcome_bind (txBuffers_outcome 16 0 t hready htaken (by omega)) fun _ t hready => ?_
  refine outcome_bind (write_outcome (P := TxReady m 16) _ _
    (hready.frame le_rfl rfl rfl fun _ _ => rfl)) fun _ t hready => ?_
  refine outcome_bind (write_outcome (P := TxReady m 16) _ _
    (hready.frame le_rfl rfl rfl fun _ _ => rfl)) fun _ t hready => ?_
  refine outcome_bind (write_outcome (P := TxReady m 16) _ _
    (hready.frame le_rfl rfl rfl fun _ _ => rfl)) fun _ t hready => ?_
  refine outcome_bind (write_outcome (P := fun t => TxReady m 16 t ∧
    lastWritten e1000Tdh t.written = 0) _ _ ⟨hready.frame le_rfl rfl rfl fun _ _ => rfl, ?_⟩) ?_
  · exact (lastWritten_append ..).trans (if_pos rfl)
  rintro - t ⟨hready, hhead⟩
  refine outcome_bind (write_outcome (P := fun t => TxReady m 16 t ∧
    lastWritten e1000Tdh t.written = 0 ∧ lastWritten e1000Tdt t.written = 0) _ _
      ⟨hready.frame le_rfl rfl rfl fun _ _ => rfl, ?_, ?_⟩) ?_
  · exact (lastWritten_append ..).trans ((if_neg (by decide)).trans hhead)
  · exact (lastWritten_append ..).trans (if_pos rfl)
  rintro - t ⟨hready, hhead, htdt⟩
  refine outcome_bind (Q := fun _ t => TxSet m t)
    (outcome_modify ⟨hready.frame le_rfl rfl rfl fun _ _ => rfl, rfl, hhead, htdt⟩) fun _ t h => ?_
  refine outcome_bind (write_outcome _ _ (h.write _ (by decide) (by decide))) fun _ t h => ?_
  exact write_outcome _ _ (h.write _ (by decide) (by decide))

/-- The ring to receive into is in a frame of its own. -/
structure RxSet (m : E1000Machine) (s : E1000Statics) : Prop where
  sent : TxSet m s
  ring : ∃ k, k ≠ 0 ∧ s.rxRing = m.page k

/-- The ring to send from is not where the other one is. -/
theorem TxSet.apart (h : TxSet m s) (hm : PmmFrames m) {k i : Nat} (hk : k ≠ 0) (hi : i < 16) :
    ∀ o < 4096, byteAt (m.page 0) (16 * i + 12) ≠ byteAt (m.page k) o :=
  hm.apart hk.symm (h.ready.frames 0 (by omega)) le_rfl le_rfl _ (by omega)

theorem rxBuffers_outcome (hm : PmmFrames m) (is : List Nat) (s : E1000Statics) (h : RxSet m s)
    (his : ∀ i ∈ is, i < rxRingSize) :
    Outcome (fun _ t => RxSet m t) (fun _ _ => True) (rxBuffers m is) s := by
  induction is generalizing s with
  | nil => exact outcome_pure h
  | cons i is ih =>
      obtain ⟨hi, his⟩ := List.forall_mem_cons.1 his
      have hi : i < 32 := hi
      refine outcome_bind (pmmAlloc_outcome rfl) ?_
      rintro phys t ⟨-, rfl⟩
      refine outcome_bind (Q := fun _ t => RxSet m t) (outcome_modify ⟨?_, h.ring⟩) fun _ t ht => ?_
      · exact h.sent.frame (Nat.le_succ _) rfl rfl rfl rfl fun _ _ => rfl
      refine outcome_ite (fun _ => outcome_leave (α := Unit) trivial) fun _ => ?_
      obtain ⟨k, hk, hring⟩ := ht.ring
      refine outcome_bind (Q := fun _ t => RxSet m t) (outcome_modify ⟨?_, ht.ring⟩)
        fun _ t ht => ih t ht his
      refine ht.sent.frame le_rfl rfl rfl rfl rfl fun j hj => ?_
      refine initDesc_frame _ _ _ fun o ho => ?_
      rw [hring]
      exact ht.sent.apart hm hk hj _ (by omega)

/-- `init_rx` takes other frames and leaves the transmit ring alone. -/
theorem initRx_outcome (hm : PmmFrames m) (h : TxSet m s) :
    Outcome (fun _ t => TxSet m t) (fun _ _ => True) (initRx m) s := by
  refine outcome_bind (pmmAlloc_outcome rfl) ?_
  rintro phys t ⟨rfl, rfl⟩
  have hk : s.framesTaken ≠ 0 := Nat.ne_of_gt (Nat.zero_lt_of_lt h.ready.taken)
  refine outcome_bind (Q := fun _ t => TxSet m t) (outcome_modify ?_) fun _ t ht => ?_
  · exact h.frame (Nat.le_succ _) rfl rfl rfl rfl fun _ _ => rfl
  refine outcome_ite (fun _ => outcome_leave (α := Unit) trivial) fun _ => ?_
  refine outcome_bind (Q := fun _ t => RxSet m t) (outcome_modify ⟨?_, _, hk, rfl⟩) fun _ t ht => ?_
  · refine ht.frame le_rfl rfl rfl rfl rfl fun i hi => ?_
    dsimp only
    exact memset_frame t.mem 0 (ht.apart hm hk hi)
  refine outcome_bind (rxBuffers_outcome hm _ t ht fun i hi => List.mem_range.1 hi) fun _ t h => ?_
  have h := h.sent
  refine outcome_bind (write_outcome _ _ (h.write _ (by decide) (by decide))) fun _ t h => ?_
  refine outcome_bind (write_outcome _ _ (h.write _ (by decide) (by decide))) fun _ t h => ?_
  refine outcome_bind (write_outcome _ _ (h.write _ (by decide) (by decide))) fun _ t h => ?_
  refine outcome_bind (write_outcome _ _ (h.write _ (by decide) (by decide))) fun _ t h => ?_
  refine outcome_bind (Q := fun _ t => TxSet m t)
    (outcome_modify (h.frame le_rfl rfl rfl rfl rfl fun _ _ => rfl)) fun _ t h => ?_
  refine outcome_bind (write_outcome _ _ (h.write _ (by decide) (by decide))) fun _ t h => ?_
  exact write_outcome _ _ (h.write _ (by decide) (by decide))

theorem e1000Init_txSet (hm : PmmFrames m) :
    Outcome (fun _ t => TxSet m t) (fun _ _ => True) (e1000Init m) (.boot m) := by
  refine outcome_bind (Q := fun _ t => t.framesTaken = 0)
    ((keeps_findRegisters (.boot m)).mono (fun _ _ h => h) fun _ _ _ => trivial) fun _ s hs => ?_
  refine outcome_bind (Q := fun _ t => t.framesTaken = 0)
    ((keeps_reset (E := fun _ => True) framesTaken_unregistered).outcome hs fun _ _ _ _ => trivial)
    fun _ s hs => ?_
  refine outcome_bind (initTx_outcome hs) fun _ s hs => ?_
  refine outcome_bind (initRx_outcome hm hs) fun _ s hs => ?_
  exact write_outcome _ _ (hs.write _ (by decide) (by decide))

/-! ## The ring in all runs -/

/-- With no descriptor outstanding the card and the driver start. -/
theorem TxSet.start (h : TxSet m s) (hm : PmmFrames m) : TxInv (.start s) 0 := by
  have hready := h.ready
  refine ⟨⟨fun i hi => ?_, fun i hi j hj hij => ?_⟩, ?_, ?_⟩
  · change Apart s.txRing 256 (s.txBufs i) 2048
    rw [hready.ring, hready.bufs i hi]
    exact hm.apart (by omega) (hready.frames 0 (by omega)) (by decide) (by decide)
  · change Apart (s.txBufs i) 2048 (s.txBufs j) 2048
    rw [hready.bufs i hi, hready.bufs j hj]
    exact hm.apart (by omega) (hready.frames (i + 1) hi) (by decide) (by decide)
  · exact h.tdt.trans h.tail.symm
  · have hhead : (TxSystem.start s).ring.head = 0 := h.head
    refine ⟨hhead ▸ by decide, Nat.zero_le _, ?_, fun i hi => ?_⟩
    · rw [hhead]
      exact h.tdt
    · rw [hhead, Nat.zero_add, Nat.mod_eq_of_lt hi]
      change s.txDone i = true ↔ 0 ≤ i
      have hbit : ¬e1000StatDd = 0 := by decide
      simp [E1000Statics.txDone, hi, hready.done i hi, hbit]

theorem txInv_start (hm : PmmFrames m) (hinit : e1000Init m (.boot m) = (.ok (), s)) :
    TxInv (.start s) 0 := ((e1000Init_txSet hm).of_ok hinit).start hm

/-- After `e1000_init` the ring is not overfilled in any state of a run unless a call takes the
last descriptor. -/
theorem tx_ring_never_overfilled_iff (m : E1000Machine) (s : E1000Statics) (hm : PmmFrames m)
    (hinit : e1000Init m (.boot m) = (.ok (), s)) (events : List TxEvent) :
    (∀ pre, pre <+: events → NotOverfilled ((TxSystem.start s).run pre)) ↔
      ∀ pre e, pre ++ [e] <+: events → ¬Fills ((TxSystem.start s).run pre) e :=
  (txInv_start hm hinit).run_iff (by decide) events

/-- A machine with a network card and memory. -/
def emulatedE1000 : E1000Machine where
  pciDevices := [⟨0x8086, 0x100E, 0x02, 0x00, 0, 3, 0, fun _ => 0xFEBC0000, 11⟩]
  config _ _ _ _ := 0xFEBC0000
  hhdmOffset := 0xFFFF800000000000
  register _ := 0x80000000
  frame n := if n < 64 then 0x100000 + 0x1000 * n else 0
  mem _ := 0

theorem emulatedE1000_frames : PmmFrames emulatedE1000 := by
  have hframe : ∀ k, emulatedE1000.frame k = if k < 64 then 0x100000 + 0x1000 * k else 0 :=
    fun _ => rfl
  refine ⟨fun k => ?_, fun k => ?_, fun j k heq hne => ?_⟩
  · rw [hframe]
    split <;> omega
  · rw [hframe]
    split <;> omega
  · rw [hframe] at hne
    rw [hframe, hframe] at heq
    have hj : j < 64 := by
      by_contra hj
      exact hne (if_neg hj)
    rw [if_pos hj] at heq
    split at heq <;> omega

theorem emulatedE1000_initialised :
    ∃ s, e1000Init emulatedE1000 (.boot emulatedE1000) = (.ok (), s) ∧ s.e1000Base ≠ 0 := by
  have hexit : exitOf (e1000Init emulatedE1000 (.boot emulatedE1000)) = none := by decide +kernel
  exact ⟨_, eq_of_exitOf_none hexit, by decide +kernel⟩

theorem tx_ring_one_frame : ∃ s, e1000Init emulatedE1000 (.boot emulatedE1000) = (.ok (), s) ∧
    ∀ pre, pre <+: [.send 0 60, .complete 0] → NotOverfilled ((TxSystem.start s).run pre) := by
  obtain ⟨s, hinit, -⟩ := emulatedE1000_initialised
  refine ⟨s, hinit, (tx_ring_never_overfilled_iff emulatedE1000 s emulatedE1000_frames hinit _).2 ?_⟩
  have hstart := txInv_start emulatedE1000_frames hinit
  rintro pre e ⟨rest, hrest⟩ ⟨hlast, -, data, len, rfl, -⟩
  rcases pre with - | ⟨first, - | ⟨second, pre⟩⟩
  · have hzero : (TxSystem.start s).outstanding = 15 := hlast
    rw [hstart.outstanding_eq] at hzero
    cases hzero
  · cases hrest
  · have hlength := congrArg List.length hrest
    simp at hlength

/-- A burst of sends that the card completes nothing of. -/
theorem TxInv.burst (h : TxInv S 0) (hbase : S.statics.e1000Base ≠ 0) (data : Nat)
    (hlen : len ≤ e1000BufSize) (n : Nat) (hn : n ≤ txRingSize) :
    TxInv (S.run (List.replicate n (.send data len))) n ∧
      (S.run (List.replicate n (.send data len))).statics.e1000Base ≠ 0 := by
  induction n with
  | zero => exact ⟨h, hbase⟩
  | succ n ih =>
      obtain ⟨hn', hbase'⟩ := ih (Nat.le_of_succ_le hn)
      rw [List.replicate_succ', run_snoc]
      have haccepts := hn'.accepts_iff.2 ⟨hbase', hlen, Nat.ne_of_lt hn⟩
      refine ⟨hn'.send data haccepts, ?_⟩
      obtain ⟨hrefused, -⟩ | ⟨-, hstatics⟩ := e1000Send_cases data len
        (S.run (List.replicate n (.send data len))).statics
      · exact absurd haccepts hrefused
      · rw [TxSystem.step, hstatics]
        exact hbase'

theorem TxInv.full (h : TxInv S txRingSize) :
    S.outstanding = 16 ∧ S.tdh = S.tdt ∧ ¬NotOverfilled S :=
  ⟨h.outstanding_eq, h.holds.head_eq_tail_iff.2 (.inr rfl), fun hsound =>
    h.notOverfilled_iff.1 hsound rfl⟩

/-- Sixteen sends in a row take all descriptors, and the tail comes round to the head of the
card. -/
theorem tx_ring_overfilled : PmmFrames emulatedE1000 ∧
    ∃ s, e1000Init emulatedE1000 (.boot emulatedE1000) = (.ok (), s) ∧
    let S := (TxSystem.start s).run (List.replicate 16 (.send 0 60))
    S.outstanding = 16 ∧ S.tdh = S.tdt ∧ ¬NotOverfilled S := by
  obtain ⟨s, hinit, hbase⟩ := emulatedE1000_initialised
  have hstart := txInv_start emulatedE1000_frames hinit
  have hlen : (60 : UInt16) ≤ e1000BufSize := by decide
  have hfull := hstart.burst hbase 0 hlen 16 le_rfl
  exact ⟨emulatedE1000_frames, s, hinit, hfull.1.full⟩

end PolandOS.E1000
