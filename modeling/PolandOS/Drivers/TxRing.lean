import Mathlib.Data.List.Induction
import PolandOS.Drivers.E1000
import PolandOS.Lib.DescRing

/-! # The transmit ring of the e1000

`e1000_send` next to a card that completes descriptors in order. The card reads the ring from
its head to the tail in TDT, so a ring whose tail has come round to the head is empty for it.
`tx_ring_never_overfilled_iff` says in which runs that does not happen.
-/

namespace PolandOS.E1000

open ByteMem DescRing

/-! ## The driver and the card -/

/-- The value that was written to a register last. -/
def lastWritten (reg : Nat) (written : List (Nat × Nat)) : Nat :=
  written.foldl (fun v w => if w.1 = reg then w.2 else v) 0

/-- The driver, and the head of the card. -/
structure TxSystem where
  statics : E1000Statics
  tdh : Nat

/-- The driver has set both up. -/
def TxSystem.start (s : E1000Statics) : TxSystem := ⟨s, lastWritten e1000Tdh s.written⟩

/-- What the card finds in TDT. -/
def TxSystem.tdt (s : TxSystem) : Nat := lastWritten e1000Tdt s.statics.written

/-- A call of `e1000_send`, or a completion with the status bits that the card reports. -/
inductive TxEvent where
  | send (data : Nat) (len : UInt16)
  | complete (bits : UInt8)

/-- The card completes the descriptor at its head: it sets DD and goes on. -/
def TxSystem.complete (bits : UInt8) (s : TxSystem) : TxSystem :=
  if s.tdh = s.tdt then s
  else
    { statics := { s.statics with
        mem := setStatus s.statics.mem (desc s.statics.txRing s.tdh) (bits ||| e1000StatDd) }
      tdh := (s.tdh + 1) % txRingSize }

def TxSystem.step (s : TxSystem) : TxEvent → TxSystem
  | .send data len => { s with statics := (e1000Send data len s.statics).statics }
  | .complete bits => s.complete bits

/-- A run. -/
def TxSystem.run (s : TxSystem) (events : List TxEvent) : TxSystem := events.foldl TxSystem.step s

/-- The DD bit of a descriptor to send. -/
def E1000Statics.txDone (s : E1000Statics) (i : Nat) : Bool :=
  decide (i < txRingSize) && decide (status s.mem (desc s.txRing i) &&& e1000StatDd ≠ 0)

/-- The ring: the DD bits, the head and the tail. -/
def TxSystem.ring (s : TxSystem) : Ring := ⟨s.statics.txDone, s.tdh, s.tdt⟩

/-- The number of descriptors that are not done. -/
def TxSystem.outstanding (s : TxSystem) : Nat := s.ring.outstanding txRingSize

/-! ## Memory -/

/-- The ring and the buffers share no byte. -/
structure TxLayout (s : E1000Statics) : Prop where
  ring : ∀ i < txRingSize, Apart s.txRing 256 (s.txBufs i) 2048
  bufs : ∀ i < txRingSize, ∀ j < txRingSize, i ≠ j → Apart (s.txBufs i) 2048 (s.txBufs j) 2048

theorem byteAt_desc (ring i o : Nat) : byteAt (desc ring i) o = byteAt ring (16 * i + o) :=
  byteAt_byteAt ring (16 * i) o

theorem byteAt_add64 (a i o : Nat) : byteAt (add64 a i) o = byteAt a (i + o) := byteAt_byteAt a i o

/-- A field of a descriptor is written. -/
theorem writeLE_desc_frame (mem : Mem) {ring i off width v x : Nat} (hoff : off + width ≤ 16)
    (h : ∀ o < 16, x ≠ byteAt ring (16 * i + o)) :
    writeLE mem (add64 (desc ring i) off) width v x = mem x := by
  refine writeLE_frame _ _ fun j hj => ?_
  rw [byteAt_add64, byteAt_desc]
  exact h (off + j) (by omega)

theorem status_eq (mem : Mem) (ring i : Nat) :
    status mem (desc ring i) = mem (byteAt ring (16 * i + 12)) := by
  rw [← byteAt_desc]
  rfl

theorem status_setStatus (mem : Mem) (ring i : Nat) (v : UInt8) :
    status (setStatus mem (desc ring i) v) (desc ring i) = v := by
  have hplace : add64 (desc ring i) 12 % 2 ^ 64 = add64 (desc ring i) 12 :=
    Nat.mod_eq_of_lt (add64_lt _ _)
  unfold status setStatus
  rw [writeLE, writeLE, hplace, set_self, UInt8.ofNat_toNat]

theorem status_setStatus_ne (mem : Mem) (ring : Nat) {i j : Nat} (v : UInt8) (hi : i < txRingSize)
    (hj : j < txRingSize) (hij : j ≠ i) :
    status (setStatus mem (desc ring i) v) (desc ring j) = status mem (desc ring j) := by
  have hi : i < 16 := hi
  have hj : j < 16 := hj
  rw [status_eq, status_eq]
  refine writeLE_desc_frame mem (by decide) fun o ho heq => ?_
  have := byteAt_inj (by omega) (by omega) heq
  omega

variable {s : E1000Statics} {data : Nat} {len : UInt16}

/-- The call goes through. -/
def Accepts (s : E1000Statics) (len : UInt16) : Prop :=
  s.e1000Base ≠ 0 ∧ len ≤ e1000BufSize ∧ status s.mem (desc s.txRing s.txTail) &&& e1000StatDd ≠ 0

/-- The memory behind a call that goes through. -/
def sendMem (data : Nat) (len : UInt16) (s : E1000Statics) : Mem :=
  let d := desc s.txRing s.txTail
  setStatus (setCmd (setLength (memcpy s.mem (s.txBufs s.txTail) data len.toNat) d len.toNat) d
    e1000TxdCmd) d 0

/-- What a call does. -/
theorem e1000Send_cases (data : Nat) (len : UInt16) (s : E1000Statics) :
    (¬Accepts s len ∧ (e1000Send data len s).statics = s) ∨
    (Accepts s len ∧ (e1000Send data len s).statics = { s with
      mem := sendMem data len s
      txTail := (s.txTail + 1) % txRingSize
      written := s.written ++ [(e1000Tdt, (s.txTail + 1) % txRingSize)] }) := by
  unfold e1000Send Accepts
  by_cases hbase : s.e1000Base = 0
  · exact .inl ⟨fun h => h.1 hbase, by rw [if_pos hbase]⟩
  by_cases hlen : len > e1000BufSize
  · exact .inl ⟨fun h => UInt16.not_le.2 hlen h.2.1, by rw [if_neg hbase, if_pos hlen]⟩
  rw [if_neg hbase, if_neg hlen]
  dsimp only
  by_cases hbusy : status s.mem (desc s.txRing s.txTail) &&& e1000StatDd = 0
  · exact .inl ⟨fun h => h.2.2 hbusy, by rw [if_pos hbusy]⟩
  · rw [if_neg hbusy]
    exact .inr ⟨⟨hbase, UInt16.not_lt.1 hlen, hbusy⟩, rfl⟩

/-- A call that goes through writes to one descriptor and its buffer. -/
theorem sendMem_frame {x : Nat} (hlen : len ≤ e1000BufSize)
    (hdesc : ∀ o < 16, x ≠ byteAt s.txRing (16 * s.txTail + o))
    (hbuf : ∀ o < 2048, x ≠ byteAt (s.txBufs s.txTail) o) : sendMem data len s x = s.mem x := by
  have hlen : len.toNat ≤ 2048 := hlen
  unfold sendMem setStatus setCmd setLength
  rw [writeLE_desc_frame _ (by decide) hdesc, writeLE_desc_frame _ (by decide) hdesc,
    writeLE_desc_frame _ (by decide) hdesc]
  exact memcpy_frame _ fun o ho => hbuf o (by omega)

/-- Behind a frame, only the descriptor at the old tail is not done any more. -/
theorem txDone_sendMem (hlayout : TxLayout s) (htail : s.txTail < txRingSize)
    (hlen : len ≤ e1000BufSize) {t : E1000Statics} (hmem : t.mem = sendMem data len s)
    (hring : t.txRing = s.txRing) : t.txDone = Function.update s.txDone s.txTail false := by
  have htail' : s.txTail < 16 := htail
  funext i
  unfold E1000Statics.txDone
  rw [hring, hmem]
  by_cases hi : i = s.txTail
  · have hzero : status (sendMem data len s) (desc s.txRing s.txTail) = 0 :=
      status_setStatus _ _ _ _
    rw [hi, Function.update_self, hzero]
    simp
  · rw [Function.update_of_ne hi]
    by_cases hlt : i < txRingSize
    · have hlt' : i < 16 := hlt
      have hsame : sendMem data len s (byteAt s.txRing (16 * i + 12)) =
          s.mem (byteAt s.txRing (16 * i + 12)) := by
        refine sendMem_frame hlen (fun o ho heq => ?_) fun o ho => ?_
        · have := byteAt_inj (by omega) (by omega) heq
          omega
        · exact hlayout.ring _ htail _ (by omega) _ ho
      rw [status_eq, status_eq, hsame]
    · simp [hlt]

/-! ## One step -/

/-- `k` descriptors are outstanding, and the driver and the card agree about the tail. -/
structure TxInv (s : TxSystem) (k : Nat) : Prop where
  layout : TxLayout s.statics
  tail : s.tdt = s.statics.txTail
  holds : Holds txRingSize s.ring k

variable {S : TxSystem} {k : Nat}

theorem TxInv.txTail_lt (h : TxInv S k) : S.statics.txTail < txRingSize := h.tail ▸ h.holds.tail_lt

theorem lastWritten_append (reg : Nat) (written : List (Nat × Nat)) (r v : Nat) :
    lastWritten reg (written ++ [(r, v)]) = if r = reg then v else lastWritten reg written := by
  rw [lastWritten, List.foldl_append]
  rfl

/-- A call goes through when it may and not all descriptors are outstanding. -/
theorem TxInv.accepts_iff (h : TxInv S k) : Accepts S.statics len ↔
    S.statics.e1000Base ≠ 0 ∧ len ≤ e1000BufSize ∧ k ≠ txRingSize := by
  have hdone := h.holds.done_tail_iff
  have htail : S.ring.tail = S.statics.txTail := h.tail
  have hbit : S.ring.done S.statics.txTail = true ↔
      status S.statics.mem (desc S.statics.txRing S.statics.txTail) &&& e1000StatDd ≠ 0 := by
    simp [TxSystem.ring, E1000Statics.txDone, h.txTail_lt]
  rw [htail, hbit] at hdone
  rw [Accepts, hdone]

/-- A frame that is accepted takes the descriptor at the tail. -/
theorem TxInv.send (h : TxInv S k) (data : Nat) (haccepts : Accepts S.statics len) :
    TxInv (S.step (.send data len)) (k + 1) := by
  have hk := (h.accepts_iff.1 haccepts).2.2
  obtain ⟨hrefused, -⟩ | ⟨-, hstatics⟩ := e1000Send_cases data len S.statics
  · exact absurd haccepts hrefused
  have htail := h.txTail_lt
  have htdt : (S.step (.send data len)).tdt = (S.statics.txTail + 1) % txRingSize := by
    simp only [TxSystem.tdt, TxSystem.step, hstatics]
    rw [lastWritten_append, if_pos rfl]
  have hring : (S.step (.send data len)).ring = S.ring.send txRingSize := by
    have htail' : S.ring.tail = S.statics.txTail := h.tail
    unfold Ring.send
    rw [if_pos (h.holds.done_tail_iff.2 hk), htail']
    refine Ring.mk.injEq .. ▸ ⟨?_, rfl, htdt⟩
    have hring : (e1000Send data len S.statics).statics.txRing = S.statics.txRing := by rw [hstatics]
    exact txDone_sendMem h.layout htail haccepts.2.1 (congrArg E1000Statics.mem hstatics) hring
  refine ⟨?_, ?_, ?_⟩
  · simp only [TxSystem.step, hstatics]
    exact ⟨h.layout.ring, h.layout.bufs⟩
  · rw [htdt]
    simp only [TxSystem.step, hstatics]
  · rw [hring]
    exact h.holds.send hk

theorem step_send_refused {data : Nat} (h : ¬Accepts S.statics len) :
    S.step (.send data len) = S := by
  obtain ⟨-, hstatics⟩ | ⟨haccepts, -⟩ := e1000Send_cases data len S.statics
  · rw [TxSystem.step, hstatics]
  · exact absurd haccepts h

/-- The card is done with the oldest descriptor, and the others are as they were. -/
theorem TxInv.complete (h : TxInv S k) (bits : UInt8) (hzero : k ≠ 0) (hk : k ≠ txRingSize) :
    TxInv (S.step (.complete bits)) (k - 1) := by
  have hne : ¬S.tdh = S.tdt := by
    have := h.holds.head_eq_tail_iff
    exact fun heq => (this.1 heq).elim hzero hk
  have hhead : S.tdh < txRingSize := h.holds.head_lt
  have hstep : S.step (.complete bits) =
      ⟨{ S.statics with
          mem := setStatus S.statics.mem (desc S.statics.txRing S.tdh) (bits ||| e1000StatDd) },
        (S.tdh + 1) % txRingSize⟩ := if_neg hne
  have hdd : (bits ||| e1000StatDd) &&& e1000StatDd ≠ 0 := by
    have hall : ∀ b : BitVec 8, (b ||| 1#8) &&& 1#8 ≠ 0#8 := by decide
    exact fun heq => hall bits.toBitVec (congrArg UInt8.toBitVec heq)
  have hring : (S.step (.complete bits)).ring = S.ring.complete txRingSize := by
    have hne' : ¬S.ring.head = S.ring.tail := hne
    unfold Ring.complete
    rw [if_neg hne', hstep]
    refine Ring.mk.injEq .. ▸ ⟨?_, rfl, rfl⟩
    funext i
    change E1000Statics.txDone _ i = Function.update S.statics.txDone S.tdh true i
    unfold E1000Statics.txDone
    by_cases hi : i = S.tdh
    · rw [hi, Function.update_self, status_setStatus]
      simp [hhead, hdd]
    · rw [Function.update_of_ne hi]
      by_cases hlt : i < txRingSize
      · rw [status_setStatus_ne _ _ _ hhead hlt hi]
      · simp [hlt]
  refine ⟨?_, ?_, ?_⟩
  · rw [hstep]
    exact ⟨h.layout.ring, h.layout.bufs⟩
  · rw [hstep]
    exact h.tail
  · rw [hring]
    exact h.holds.complete hzero hk

theorem TxInv.complete_idle (h : TxInv S k) (bits : UInt8) (hk : k = 0 ∨ k = txRingSize) :
    S.step (.complete bits) = S := if_pos (h.holds.head_eq_tail_iff.2 hk)

/-- A step keeps the account; only a call with one descriptor left fills the ring. -/
theorem TxInv.step (h : TxInv S k) (e : TxEvent) : ∃ k', TxInv (S.step e) k' ∧
    (k' = txRingSize → k = txRingSize ∨
      (k + 1 = txRingSize ∧ ∃ data len, e = .send data len ∧ Accepts S.statics len)) := by
  cases e with
  | send data len =>
      by_cases haccepts : Accepts S.statics len
      · exact ⟨k + 1, h.send data haccepts, fun hfull => .inr ⟨hfull, data, len, rfl, haccepts⟩⟩
      · exact ⟨k, (step_send_refused haccepts).symm ▸ h, .inl⟩
  | complete bits =>
      by_cases hidle : k = 0 ∨ k = txRingSize
      · exact ⟨k, (h.complete_idle bits hidle).symm ▸ h, .inl⟩
      · have hle := h.holds.le
        exact ⟨k - 1, h.complete bits (fun hk => hidle (.inl hk)) fun hk => hidle (.inr hk),
          by omega⟩

/-! ## Runs -/

/-- What the ring is for: a slot stays free, so the card does not take the ring for empty, and
no call touches a descriptor or a buffer that the card is not done with. -/
structure NotOverfilled (S : TxSystem) : Prop where
  room : S.outstanding ≤ 15
  empty : S.tdh = S.tdt → S.outstanding = 0
  untouched : ∀ data len, ∀ i < txRingSize, S.statics.txDone i = false →
    (∀ o < descSize, (S.step (.send data len)).statics.mem (byteAt (desc S.statics.txRing i) o) =
      S.statics.mem (byteAt (desc S.statics.txRing i) o)) ∧
    ∀ o < 2048, (S.step (.send data len)).statics.mem (byteAt (S.statics.txBufs i) o) =
      S.statics.mem (byteAt (S.statics.txBufs i) o)

/-- The call that takes the last descriptor. -/
def Fills (S : TxSystem) (e : TxEvent) : Prop :=
  S.outstanding = 15 ∧ S.statics.e1000Base ≠ 0 ∧
    ∃ data len, e = .send data len ∧ len ≤ e1000BufSize

/-- A descriptor that the card still owns is not written, and neither is its buffer. -/
theorem TxInv.untouched (h : TxInv S k) (data : Nat) (len : UInt16) {i : Nat} (hi : i < txRingSize)
    (hbusy : S.statics.txDone i = false) :
    (∀ o < descSize, (S.step (.send data len)).statics.mem (byteAt (desc S.statics.txRing i) o) =
      S.statics.mem (byteAt (desc S.statics.txRing i) o)) ∧
    ∀ o < 2048, (S.step (.send data len)).statics.mem (byteAt (S.statics.txBufs i) o) =
      S.statics.mem (byteAt (S.statics.txBufs i) o) := by
  obtain ⟨hrefused, -⟩ | ⟨haccepts, hstatics⟩ := e1000Send_cases data len S.statics
  · rw [step_send_refused hrefused]
    exact ⟨fun _ _ => rfl, fun _ _ => rfl⟩
  have htail := h.txTail_lt
  have hne : i ≠ S.statics.txTail := by
    -- the descriptor at the tail is done
    rintro rfl
    have hbit := haccepts.2.2
    unfold E1000Statics.txDone at hbusy
    rw [decide_eq_true htail, Bool.true_and, decide_eq_false_iff_not] at hbusy
    exact hbusy hbit
  have hi' : i < 16 := hi
  have htail' : S.statics.txTail < 16 := htail
  simp only [TxSystem.step, hstatics]
  refine ⟨fun o ho => ?_, fun o ho => ?_⟩
  · have ho : o < 16 := ho
    rw [byteAt_desc]
    refine sendMem_frame haccepts.2.1 (fun o' ho' heq => ?_) fun o' ho' => ?_
    · have := byteAt_inj (by omega) (by omega) heq
      omega
    · exact h.layout.ring _ htail _ (by omega) _ ho'
  · refine sendMem_frame haccepts.2.1 (fun o' ho' heq => ?_) fun o' ho' => ?_
    · exact h.layout.ring i hi _ (by omega) o ho heq.symm
    · exact h.layout.bufs i hi _ htail hne o ho o' ho'

theorem TxInv.outstanding_eq (h : TxInv S k) : S.outstanding = k := h.holds.outstanding_eq

theorem TxInv.notOverfilled_iff (h : TxInv S k) : NotOverfilled S ↔ k ≠ txRingSize := by
  have hle : k ≤ 16 := h.holds.le
  have hsize : txRingSize = 16 := rfl
  constructor
  · intro hsound
    have hroom := hsound.room
    rw [h.outstanding_eq] at hroom
    omega
  · intro hk
    refine ⟨?_, fun heq => ?_, fun data len i hi hbusy => h.untouched data len hi hbusy⟩
    · rw [h.outstanding_eq]
      omega
    · rw [h.outstanding_eq]
      exact (h.holds.head_eq_tail_iff.1 heq).resolve_right hk

theorem TxInv.run (h : TxInv S k) (events : List TxEvent) : ∃ k', TxInv (S.run events) k' := by
  induction events using List.reverseRecOn with
  | nil => exact ⟨k, h⟩
  | append_singleton events e ih =>
      obtain ⟨k', hk'⟩ := ih
      obtain ⟨k'', hk'', -⟩ := hk'.step e
      rw [TxSystem.run, List.foldl_append]
      exact ⟨k'', hk''⟩

theorem run_snoc (S : TxSystem) (events : List TxEvent) (e : TxEvent) :
    S.run (events ++ [e]) = (S.run events).step e := List.foldl_append

/-- In a run that starts with a ring that is not full, the ring is not full in any state unless
a call takes the last descriptor. -/
theorem TxInv.run_iff (h : TxInv S k) (hk : k ≠ txRingSize) (events : List TxEvent) :
    (∀ pre, pre <+: events → NotOverfilled (S.run pre)) ↔
      ∀ pre e, pre ++ [e] <+: events → ¬Fills (S.run pre) e := by
  have hsize : txRingSize = 16 := rfl
  constructor
  · rintro hsound pre e hpre ⟨hlast, hbase, data, len, rfl, hlen⟩
    obtain ⟨k', hk'⟩ := h.run pre
    rw [hk'.outstanding_eq] at hlast
    have haccepts := hk'.accepts_iff.2 ⟨hbase, hlen, by omega⟩
    have hfull := hsound _ hpre
    rw [run_snoc, (hk'.send data haccepts).notOverfilled_iff] at hfull
    omega
  · intro hfills
    have hrun : ∀ pre, pre <+: events → ∃ k', TxInv (S.run pre) k' ∧ k' ≠ txRingSize := by
      intro pre
      induction pre using List.reverseRecOn with
      | nil => exact fun _ => ⟨k, h, hk⟩
      | append_singleton pre e ih =>
          intro hpre
          obtain ⟨k', hk', hne⟩ := ih ((List.prefix_append pre [e]).trans hpre)
          obtain ⟨k'', hk'', hfull⟩ := hk'.step e
          refine ⟨k'', run_snoc S pre e ▸ hk'', fun heq => ?_⟩
          obtain hfull | ⟨hlast, data, len, rfl, haccepts⟩ := hfull heq
          · exact hne hfull
          · refine hfills pre _ hpre ⟨?_, haccepts.1, data, len, rfl, haccepts.2.1⟩
            rw [hk'.outstanding_eq]
            omega
    intro pre hpre
    obtain ⟨k', hk', hne⟩ := hrun pre hpre
    exact hk'.notOverfilled_iff.2 hne

end PolandOS.E1000
