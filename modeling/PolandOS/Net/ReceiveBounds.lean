import PolandOS.Net.Steps

/-! # The copies of the receive path

The only copy whose length is not checked against its destination is that of an IPv4
header: `ipv4_rx_handler` copies as many bytes as the header says into a temporary of 20.
All others stay inside, for the receive buffers because no socket ever holds more than
4096 bytes (`Bounded`).
-/

namespace PolandOS.Net

open Logging

/-- No socket holds more than its buffer. -/
def Bounded (T : Slots) : Prop := ∀ fd, (T.1 fd).recvLen ≤ 4096

/-- A header that is copied is 20 bytes long, that is, has no options. -/
def NetEvent.NoOptions : NetEvent → Prop
  | .ipv4 p len => HeaderPasses p len → ipv4HeaderLen p = 20
  | _ => True

theorem Bounded.setSlot {T : Slots} (h : Bounded T) {fd : Fin 4} {socket : TCPSocket}
    (hlen : socket.recvLen ≤ 4096) : Bounded (setSlot T fd socket) := by
  intro i
  by_cases hi : i = fd
  · subst hi
    rwa [setSlot_self]
  · rw [setSlot_ne T socket hi]
    exact h i

/-- What is appended fits behind what is there. -/
theorem recvLen_add_storeCount {socket : TCPSocket} (seg : Segment) (h : socket.recvLen ≤ 4096) :
    socket.recvLen.toNat + (storeCount socket seg).toNat ≤ 4096 := by
  have hle : (storeCount socket seg).toNat ≤ (4096 - socket.recvLen).toNat := by
    unfold storeCount
    split
    next hlt => exact Nat.le_of_lt (UInt32.lt_iff_toNat_lt.mp hlt)
    next => exact Nat.le_refl _
  have hsub : (4096 - socket.recvLen).toNat = 4096 - socket.recvLen.toNat :=
    UInt32.toNat_sub_of_le _ _ h
  have hnat : socket.recvLen.toNat ≤ 4096 := UInt32.le_iff_toNat_le.mp h
  omega

theorem store_recvLen {socket : TCPSocket} (seg : Segment) (h : socket.recvLen ≤ 4096) :
    (socket.store seg).recvLen ≤ 4096 := by
  have hfit := recvLen_add_storeCount seg h
  have hadd : (socket.store seg).recvLen.toNat ≤
      socket.recvLen.toNat + (storeCount socket seg).toNat := by
    simp only [TCPSocket.store, UInt32.toNat_add]
    exact Nat.mod_le _ _
  exact UInt32.le_iff_toNat_le.mpr (hadd.trans hfit)

/-- Taking data out keeps the bound. -/
theorem sub_le_bound {len count : UInt32} (hlen : len ≤ 4096) (h : count ≤ len) :
    len - count ≤ 4096 := by
  have hsub : (len - count).toNat = len.toNat - count.toNat := UInt32.toNat_sub_of_le _ _ h
  have hnat : len.toNat ≤ 4096 := UInt32.le_iff_toNat_le.mp hlen
  refine UInt32.le_iff_toNat_le.mpr ?_
  rw [hsub]
  exact (Nat.sub_le _ _).trans hnat

theorem RxStep.bounded {T T' : Slots} {es : List NetEvent} (h : RxStep T es T')
    (hT : Bounded T) : Bounded T' := by
  cases h with
  | quiet | badHeader | header | transmit => exact hT
  | establish | finReceived | finAcked | lastFin | timeWait | closed => exact hT.setSlot (hT _)
  | store => exact hT.setSlot (store_recvLen _ (hT _))

theorem TcpStep.bounded {T T' : Slots} {es : List NetEvent} (h : TcpStep T es T')
    (hT : Bounded T) : Bounded T' := by
  cases h with
  | rx h => exact h.bounded hT
  | connected | closing => exact hT
  | giveUp | close | finSent | advance => exact hT.setSlot (hT _)
  | opened | released => exact hT.setSlot (UInt32.le_iff_toNat_le.mpr (Nat.zero_le 4096))
  | returned hcount => exact hT.setSlot (sub_le_bound (hT _) hcount)

/-- The header's copy fits exactly if the header has no options. -/
theorem header_inBounds {p : View} {len : UInt16} (h : HeaderPasses p len) :
    0 + (ipv4HeaderLen p).toNat ≤ Buffer.size .headerTmp ↔ ipv4HeaderLen p = 20 := by
  have hge : 20 ≤ (ipv4HeaderLen p).toNat := by
    have hnot := fun hlt => h.2.2 (.inl hlt)
    exact UInt16.le_iff_toNat_le.mp (UInt16.not_lt.mp hnot)
  constructor
  · intro hle
    refine UInt16.toNat_inj.mp ?_
    simp only [Buffer.size] at hle
    simp only [UInt16.reduceToNat]
    omega
  · intro heq
    rw [heq]
    decide

theorem RxStep.inBounds {T T' : Slots} {es : List NetEvent} (h : RxStep T es T')
    (hT : Bounded T) : (∀ e ∈ es, e.InBounds) ↔ ∀ e ∈ es, e.NoOptions := by
  cases h with
  | quiet hquiet =>
      rename_i e
      cases e with
      | copy dst offset len => simp [NetEvent.InBounds, NetEvent.NoOptions, hquiet.2.2]
      | ipv4 => exact hquiet.elim
      | _ => simp [NetEvent.InBounds, NetEvent.NoOptions]
  | badHeader hbad => simp [NetEvent.InBounds, NetEvent.NoOptions, hbad]
  | header hpass =>
      have hfit := header_inBounds hpass
      simpa [NetEvent.InBounds, NetEvent.NoOptions, hpass] using hfit
  | store =>
      simp only [List.forall_mem_cons, NetEvent.InBounds, NetEvent.NoOptions]
      exact iff_of_true ⟨recvLen_add_storeCount _ (hT _), by simp⟩ (by simp)
  | transmit | establish | finReceived | finAcked | lastFin | timeWait | closed =>
      simp [stateEvent, NetEvent.InBounds, NetEvent.NoOptions]

theorem TcpStep.inBounds {T T' : Slots} {es : List NetEvent} (h : TcpStep T es T')
    (hT : Bounded T) : (∀ e ∈ es, e.InBounds) ↔ ∀ e ∈ es, e.NoOptions := by
  cases h with
  | rx h => exact h.inBounds hT
  | opened | connected | giveUp | closing | close | finSent | released | advance | returned =>
      simp [NetEvent.InBounds, NetEvent.NoOptions]

theorem star_inBounds {T T' : Slots} {es : List NetEvent} (h : Star TcpStep T es T')
    (hT : Bounded T) :
    Bounded T' ∧ ((∀ e ∈ es, e.InBounds) ↔ ∀ e ∈ es, e.NoOptions) := by
  induction h with
  | refl => exact ⟨hT, by simp⟩
  | tail _ hstep ih =>
      rcases ih with ⟨hbounded, hiff⟩
      refine ⟨hstep.bounded hbounded, ?_⟩
      rw [List.forall_mem_append, List.forall_mem_append, hiff, hstep.inBounds hbounded]

/-- In every session from boot, and whenever `eth_rx_handler` is called behind one with any
frame, the copies stay inside their destinations if and only if no IPv4 header that is
copied has options. -/
theorem receive_copies_in_bounds (d : Devices) (mac : Mac) {log : List NetEvent}
    {o : Option Host} (h : Session d (.boot mac) log o) :
    ((∀ e ∈ log, e.InBounds) ↔ ∀ e ∈ log, e.NoOptions) ∧
      ∀ s, o = some s → ∀ (fuel : Nat) (pkt : NetPacket),
        (∀ e ∈ (ethRxHandler d fuel pkt s).log, e.InBounds) ↔
          ∀ e ∈ (ethRxHandler d fuel pkt s).log, e.NoOptions := by
  rcases session_steps h with ⟨T, hT, hs⟩
  have hboot : Bounded (Host.boot mac).slots :=
    fun _ => UInt32.le_iff_toNat_le.mpr (Nat.zero_le 4096)
  rcases star_inBounds hT hboot with ⟨hbounded, hiff⟩
  refine ⟨hiff, ?_⟩
  intro s hsome fuel pkt
  rcases RxTraces.call (steady_ethRxHandler d fuel [] (by simp) pkt s) with ⟨x, hx, -⟩
  have hslots := star_slots (fun _ _ he => .rx (.quiet he)) hx
  rw [hs s hsome] at hslots
  exact (star_inBounds hslots hbounded).2

/-- A frame with an IPv4 header of 60 bytes. -/
def optionsFrame : NetPacket where
  data := fun i => if i = 12 then 0x08 else if i = 14 then 0x4F else 0
  len := 74

/-- The call behind boot, with no frame handled before. -/
theorem receive_copies_in_bounds_boot :
    (∀ e ∈ (ethRxHandler quietDevices 1 optionsFrame (.boot (Vector.replicate 6 0))).log,
        e.InBounds) ↔
      ∀ e ∈ (ethRxHandler quietDevices 1 optionsFrame (.boot (Vector.replicate 6 0))).log,
        e.NoOptions :=
  (receive_copies_in_bounds quietDevices _ .start).2 _ rfl 1 optionsFrame

/-- 60 bytes go into the 20 bytes of the temporary. -/
theorem options_overflow :
    ¬∀ (d : Devices) (mac : Mac) (log : List NetEvent) (s : Host),
      Session d (.boot mac) log (some s) → ∀ (fuel : Nat) (pkt : NetPacket), pkt.len ≤ 1518 →
        ∀ e ∈ (ethRxHandler d fuel pkt s).log, e.InBounds := by
  intro h
  have hcopy : (ethRxHandler quietDevices 1 optionsFrame (.boot (Vector.replicate 6 0))).log[2]? =
      some (.copy .headerTmp 0 60) := rfl
  have hbounds := h quietDevices _ _ _ .start 1 optionsFrame (by decide) _
    (List.mem_of_getElem? hcopy)
  exact absurd (show 0 + 60 ≤ 20 from hbounds) (by decide)

end PolandOS.Net
