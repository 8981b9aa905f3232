import PolandOS.Net.Streams

/-! # What is acknowledged

A segment is acknowledged up to its end, however much of it has been appended to the
receive buffer, and the window that goes out with it is always 4096.
`acknowledged_iff_fits`: as long as the segments of a connection come in order and fit,
what is acknowledged is what was appended, and for the next segment this is so exactly
when it fits; the window is right exactly when nothing is buffered.
-/

namespace PolandOS.Net

open Logging

/-- What has come in on the connection of a slot: how many bytes have been appended, and
whether every segment was in order and fitted. -/
structure Intake where
  appended : Nat
  whole : Bool

/-- Nothing yet. -/
def Intake.start : Intake := ⟨0, true⟩

/-- The data of the segment fits behind what is buffered: `data_len <= space`. -/
def Fits (socket : TCPSocket) (seg : Segment) : Prop :=
  seg.data.length.toUInt32 ≤ 4096 - socket.recvLen

instance (socket : TCPSocket) (seg : Segment) : Decidable (Fits socket seg) :=
  inferInstanceAs (Decidable (_ ≤ _))

def intakeUpdate (g : Fin 4 → Intake) : NetEvent → Fin 4 → Intake
  | .opened fd _ _ => Function.update g fd .start
  | .stored fd socket seg count => Function.update g fd
    ⟨(g fd).appended + count, (g fd).whole && decide (seg.seq = socket.ack ∧ Fits socket seg)⟩
  | _ => g

/-- So many bytes are acknowledged: the data starts behind the peer's SYN. -/
def AcksExactly (socket : TCPSocket) (appended : Nat) : Prop :=
  socket.ack - (socket.remoteSeq + 1) = appended.toUInt32

/-- The window that is advertised is not larger than the space that is left. -/
def WindowFits (socket : TCPSocket) : Prop :=
  socket.window.toNat ≤ 4096 - socket.recvLen.toNat

/-- Behind a segment that comes in order, what is acknowledged is what was appended, and
the window fits. -/
def AcksBuffered (g : Fin 4 → Intake) : NetEvent → Prop
  | .stored fd socket seg count => (g fd).whole = true → seg.seq = socket.ack →
    AcksExactly (socket.store seg) ((g fd).appended + count) ∧ WindowFits (socket.store seg)
  | _ => True

/-- When that is so. -/
def AcksWhenFits (g : Fin 4 → Intake) : NetEvent → Prop
  | .stored fd socket seg count => (g fd).whole = true → seg.seq = socket.ack →
    (AcksExactly (socket.store seg) ((g fd).appended + count) ↔ Fits socket seg) ∧
    (WindowFits (socket.store seg) ↔ socket.recvLen = 0 ∧ seg.data.length.toUInt32 = 0)
  | _ => True

/-! ## The invariant -/

/-- What is known of a socket. -/
structure Acked (socket : TCPSocket) (f : Intake) : Prop where
  room : socket.recvLen ≤ 4096
  opening : socket.state = .synSent → socket.window = 4096 ∧ f.appended = 0
  established : socket.state = .established → socket.window = 4096 ∧
    (f.whole = true → AcksExactly socket f.appended)

variable {socket : TCPSocket} {seg : Segment} {f : Intake} {T T' : Slots} {g : Fin 4 → Intake}
  {es : List NetEvent}

/-- A socket without data that no segment has been stored in. -/
theorem acked_of_closed (hlen : socket.recvLen = 0) (hstate : socket.state = .closed) :
    Acked socket f where
  room := hlen ▸ UInt32.le_iff_toNat_le.mpr (Nat.zero_le 4096)
  opening h := by cases hstate.symm.trans h
  established h := by cases hstate.symm.trans h

/-- Once the state is none of the two, only the buffer matters. -/
theorem acked_of_state (hroom : socket.recvLen ≤ 4096) (hopening : socket.state ≠ .synSent)
    (hestablished : socket.state ≠ .established) : Acked socket f where
  room := hroom
  opening h := absurd h hopening
  established h := absurd h hestablished

theorem storeCount_eq_iff : storeCount socket seg = seg.data.length.toUInt32 ↔ Fits socket seg := by
  unfold storeCount Fits
  split
  next hlt => exact iff_of_true rfl (UInt32.le_of_lt hlt)
  next hge =>
    constructor
    · intro heq
      rw [heq]
      exact UInt32.le_refl _
    · intro hle
      exact UInt32.le_antisymm (UInt32.not_lt.mp hge) hle

/-- A segment in order is acknowledged exactly when it fits. -/
theorem store_acks_iff {n : Nat} (h : AcksExactly socket n) (horder : seg.seq = socket.ack) :
    AcksExactly (socket.store seg) (n + (storeCount socket seg).toNat) ↔ Fits socket seg := by
  have hack : (socket.store seg).ack - ((socket.store seg).remoteSeq + 1) =
      n.toUInt32 + seg.data.length.toUInt32 := by
    rw [← h, TCPSocket.store, horder]
    grind
  have hcount : (n + (storeCount socket seg).toNat).toUInt32 =
      n.toUInt32 + storeCount socket seg := by
    simp
  rw [AcksExactly, hack, hcount, ← storeCount_eq_iff]
  constructor
  · intro heq
    grind
  · intro heq
    rw [heq]

/-- The window behind a segment is right exactly when there is nothing in the buffer. -/
theorem store_window_iff (hroom : socket.recvLen ≤ 4096) (hwindow : socket.window = 4096) :
    WindowFits (socket.store seg) ↔ socket.recvLen = 0 ∧ seg.data.length.toUInt32 = 0 := by
  have hle : socket.recvLen.toNat ≤ 4096 := UInt32.le_iff_toNat_le.mp hroom
  have hfit := recvLen_add_storeCount seg hroom
  have hlen : (socket.store seg).recvLen.toNat =
      socket.recvLen.toNat + (storeCount socket seg).toNat := by
    simp only [TCPSocket.store, UInt32.toNat_add]
    omega
  have hwin : (socket.store seg).window.toNat = 4096 := congrArg UInt16.toNat hwindow
  rw [WindowFits, hwin, hlen]
  constructor
  · intro hspace
    have hempty : socket.recvLen = 0 := UInt32.toNat_inj.mp (by
      change _ = 0
      omega)
    have hnone : storeCount socket seg = 0 := UInt32.toNat_inj.mp (by
      change _ = 0
      omega)
    refine ⟨hempty, ?_⟩
    -- with the whole buffer free, nothing is stored only if there is nothing to store
    rw [storeCount, hempty] at hnone
    split at hnone
    · exact hnone
    · exact absurd hnone (by decide)
  · rintro ⟨hempty, hdata⟩
    have hnone : storeCount socket seg = 0 := by
      rw [storeCount, hdata, hempty]
      rfl
    rw [hempty, hnone]
    decide

theorem Acked.store (h : Acked socket f) (hstate : socket.state = .established) :
    Acked (socket.store seg) ⟨f.appended + (storeCount socket seg).toNat,
      f.whole && decide (seg.seq = socket.ack ∧ Fits socket seg)⟩ where
  room := store_recvLen seg h.room
  opening hopening := by cases hstate.symm.trans hopening
  established _ := by
    rcases h.established hstate with ⟨hwindow, hacks⟩
    refine ⟨hwindow, ?_⟩
    intro hwhole
    rw [Bool.and_eq_true, decide_eq_true_iff] at hwhole
    rcases hwhole with ⟨hbefore, horder, hfits⟩
    exact (store_acks_iff (hacks hbefore) horder).mpr hfits

theorem acksWhenFits_quiet {e : NetEvent} (h : e.Quiet) (g : Fin 4 → Intake) :
    AcksWhenFits g e ∧ intakeUpdate g e = g := by
  cases e with
  | released | opened | stored | returned => exact h.elim
  | _ => exact ⟨trivial, rfl⟩

/-- One step of a segment keeps the acknowledgement and the window in step. -/
theorem RxStep.acked (h : RxStep T es T') (hT : Slotwise Acked T g) :
    Along intakeUpdate AcksWhenFits g es ∧ Slotwise Acked T' (es.foldl intakeUpdate g) := by
  cases h with
  | quiet hquiet =>
      rcases acksWhenFits_quiet hquiet g with ⟨hacks, hsame⟩
      refine ⟨⟨hacks, trivial⟩, ?_⟩
      rw [List.foldl_cons, hsame]
      exact hT
  | badHeader | header | transmit => exact ⟨by simp [AcksWhenFits], hT⟩
  | @establish fd seg _ hstate =>
      refine ⟨⟨trivial, trivial⟩, hT.same ⟨(hT fd).room, ?_, ?_⟩⟩
      · intro hopening
        cases hopening
      · rcases (hT fd).opening hstate with ⟨hwindow, hnone⟩
        refine fun _ => ⟨hwindow, fun _ => ?_⟩
        change seg.seq + 1 - (seg.seq + 1) = ((g fd).appended).toUInt32
        rw [hnone, UInt32.sub_self]
        rfl
  | @store fd seg _ hstate _ =>
      rcases (hT fd).established hstate with ⟨hwindow, hacks⟩
      refine ⟨⟨trivial, ?_, trivial⟩, ?_⟩
      · intro hwhole horder
        exact ⟨store_acks_iff (hacks hwhole) horder, store_window_iff (hT fd).room hwindow⟩
      · exact hT.set ((hT fd).store hstate)
  | finReceived | finAcked | timeWait | closed =>
      exact ⟨⟨trivial, trivial⟩, hT.same (acked_of_state (hT _).room (nofun) (nofun))⟩
  | lastFin hstate =>
      -- the socket is closing, so the acknowledgement is not looked at any more
      refine ⟨trivial, hT.same (acked_of_state (hT _).room ?_ ?_)⟩
      · rintro hopening
        rcases hstate with hstate | hstate <;> cases hstate.symm.trans hopening
      · rintro hestablished
        rcases hstate with hstate | hstate <;> cases hstate.symm.trans hestablished

theorem TcpStep.acked (h : TcpStep T es T') (hT : Slotwise Acked T g) :
    Along intakeUpdate AcksWhenFits g es ∧ Slotwise Acked T' (es.foldl intakeUpdate g) := by
  cases h with
  | rx h => exact h.acked hT
  | opened =>
      refine ⟨⟨trivial, trivial, trivial, trivial⟩, ?_⟩
      refine Slotwise.set (T := (T.1, T.2 + 1)) hT ⟨?_, fun _ => ⟨rfl, rfl⟩, nofun⟩
      exact UInt32.le_iff_toNat_le.mpr (Nat.zero_le 4096)
  | connected | closing => exact ⟨⟨trivial, trivial⟩, hT⟩
  | giveUp | close =>
      exact ⟨⟨trivial, trivial⟩, hT.same (acked_of_state (hT _).room (nofun) (nofun))⟩
  | released => exact ⟨⟨trivial, trivial, trivial⟩, hT.same (acked_of_closed rfl rfl)⟩
  | finSent | advance =>
      exact ⟨by simp [AcksWhenFits], hT.same ⟨(hT _).room, (hT _).opening, (hT _).established⟩⟩
  | @returned fd _ hcount =>
      refine ⟨⟨trivial, trivial⟩, hT.same ⟨sub_le_bound (hT fd).room hcount, ?_, ?_⟩⟩
      · exact (hT fd).opening
      · exact (hT fd).established

/-- In every session: as long as the segments of a connection come in order and fit, a
segment in order is acknowledged as far as it was appended exactly when it fits, and the
window behind it fits exactly when there is nothing in the buffer. -/
theorem acknowledged_iff_fits (d : Devices) (mac : Mac) {log : List NetEvent} {o : Option Host}
    (h : Session d (.boot mac) log o) :
    Along intakeUpdate AcksWhenFits (fun _ => .start) log := by
  rcases session_steps h with ⟨T, hT, -⟩
  have hboot : Slotwise Acked (Host.boot mac).slots fun _ => .start :=
    fun _ => acked_of_closed rfl rfl
  have htrue : Along intakeUpdate (fun _ _ => True) (fun _ => .start) log :=
    along_iff.mpr fun _ _ _ => trivial
  exact (hT.history (fun _ _ _ _ hacked hstep _ => hstep.acked hacked) hboot htrue).1

theorem acknowledged_iff_fits_parts :
    Along intakeUpdate AcksWhenFits (fun _ => .start)
      (play piecewisePeer partialReads (.boot (Vector.replicate 6 1))).log :=
  acknowledged_iff_fits piecewisePeer (Vector.replicate 6 1) (session_play _ _ partialReads)

/-! ## One byte -/

instance (socket : TCPSocket) (appended : Nat) : Decidable (AcksExactly socket appended) :=
  inferInstanceAs (Decidable (_ = _))

instance (socket : TCPSocket) : Decidable (WindowFits socket) :=
  inferInstanceAs (Decidable (_ ≤ _))

instance (g : Fin 4 → Intake) (e : NetEvent) : Decidable (AcksBuffered g e) :=
  match e with
  | .stored fd socket seg count =>
      inferInstanceAs (Decidable ((g fd).whole = true → seg.seq = socket.ack →
        AcksExactly (socket.store seg) ((g fd).appended + count) ∧ WindowFits (socket.store seg)))
  | .enter | .leave | .ipv4 .. | .wait _ | .copy .. | .frame _ | .datagram .. | .opened ..
  | .connected .. | .closing _ | .finSent .. | .released _ | .transmit .. | .returned ..
  | .state .. => .isTrue trivial

/-- The acknowledgement of a first byte advertises 4096 bytes of space where 4095 are left. -/
theorem window_exceeds_space :
    ¬∀ (d : Devices) (mac : Mac) (log : List NetEvent) (o : Option Host),
      Session d (.boot mac) log o → Along intakeUpdate AcksBuffered (fun _ => .start) log := by
  intro h
  have hacks := h (sendingPeer 1) (Vector.replicate 6 1) _ _ (session_play _ _ readCalls)
  revert hacks
  decide

end PolandOS.Net
