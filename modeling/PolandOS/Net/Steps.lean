import PolandOS.Lib.Traces
import PolandOS.Net.Sockets

/-! # What the stack does to its TCP sockets

The handlers may be interrupted by themselves wherever they send, so a property of the
TCP sockets has to survive in between. `RxStep` lists what happens at once while frames
are handled, `TcpStep` adds what the calls do; `session_steps` says that every session is
a run of these steps.
-/

namespace PolandOS.Net

open Logging

/-- The TCP sockets and the next ephemeral port. -/
abbrev Slots := (Fin 4 → TCPSocket) × UInt16

def Host.slots (s : Host) : Slots := (s.tcpSockets, s.tcpNextPort)

/-- The slots with another socket. -/
def setSlot (T : Slots) (fd : Fin 4) (socket : TCPSocket) : Slots :=
  (Function.update T.1 fd socket, T.2)

@[simp] theorem setSlot_self (T : Slots) (fd : Fin 4) (socket : TCPSocket) :
    (setSlot T fd socket).1 fd = socket := Function.update_self ..

theorem setSlot_ne (T : Slots) {fd i : Fin 4} (socket : TCPSocket) (h : i ≠ fd) :
    (setSlot T fd socket).1 i = T.1 i := Function.update_of_ne h ..

/-- The copy stays inside its destination. -/
def NetEvent.InBounds : NetEvent → Prop
  | .copy dst offset len => offset + len ≤ dst.size
  | _ => True

/-- The events that have nothing to do with TCP sockets and IPv4 headers. -/
def NetEvent.Quiet : NetEvent → Prop
  | .enter | .leave | .wait _ | .frame _ | .datagram .. => True
  | .copy dst offset len => dst ≠ .headerTmp ∧ dst ≠ .tcpRecv ∧ offset + len ≤ dst.size
  | _ => False

/-- The checks before `ipv4_rx_handler` copies the header. -/
def HeaderPasses (p : View) (len : UInt16) : Prop :=
  ¬len < 20 ∧ p 0 >>> 4 = 4 ∧ ¬(ipv4HeaderLen p < 20 ∨ ipv4HeaderLen p > len)

/-- The segment belongs to the socket. -/
structure Matches (socket : TCPSocket) (seg : Segment) : Prop where
  active : socket.active = true
  remoteIp : socket.remoteIp = seg.srcIp
  remotePort : socket.remotePort = seg.srcPort
  localPort : socket.localPort = seg.dstPort

/-- The event that a segment changes the state. -/
def stateEvent (fd : Fin 4) (arrival : TCPState) (seg : Segment) (old new : TCPState) : NetEvent :=
  .state fd (.segment arrival seg.flags seg.ack) old new

/-- So much of the segment is appended to the buffer. -/
def storeCount (socket : TCPSocket) (seg : Segment) : UInt32 :=
  if seg.data.length.toUInt32 < 4096 - socket.recvLen then seg.data.length.toUInt32
  else 4096 - socket.recvLen

/-- The socket behind that. -/
def TCPSocket.store (socket : TCPSocket) (seg : Segment) : TCPSocket :=
  { socket with
    recvBuf := socket.recvBuf.write socket.recvLen.toNat
      (seg.data.take (storeCount socket seg).toNat)
    recvLen := socket.recvLen + storeCount socket seg
    ack := seg.seq + seg.data.length.toUInt32 }

/-- What happens at once while frames are handled. -/
inductive RxStep : Slots → List NetEvent → Slots → Prop
  | quiet {T : Slots} {e : NetEvent} : e.Quiet → RxStep T [e] T
  | badHeader {T : Slots} {p : View} {len : UInt16} : ¬HeaderPasses p len → RxStep T [.ipv4 p len] T
  | header {T : Slots} {p : View} {len : UInt16} : HeaderPasses p len →
      RxStep T [.ipv4 p len, .copy .headerTmp 0 (ipv4HeaderLen p).toNat] T
  | transmit {T : Slots} {fd : Fin 4} {flags : UInt8} :
      RxStep T [.transmit fd (T.1 fd).remoteIp (T.1 fd).remotePort flags] T
  | establish {T : Slots} {fd : Fin 4} {seg : Segment} : Matches (T.1 fd) seg →
      (T.1 fd).state = .synSent → seg.flags &&& (tcpSyn ||| tcpAck) = tcpSyn ||| tcpAck →
      seg.ack = (T.1 fd).seq →
      RxStep T [stateEvent fd .synSent seg (T.1 fd).state .established]
        (setSlot T fd { T.1 fd with
          ack := seg.seq + 1, remoteSeq := seg.seq, state := .established })
  | store {T : Slots} {fd : Fin 4} {seg : Segment} : Matches (T.1 fd) seg →
      (T.1 fd).state = .established → has seg.flags tcpAck = true →
      RxStep T [.copy .tcpRecv (T.1 fd).recvLen.toNat (storeCount (T.1 fd) seg).toNat,
          .stored fd (T.1 fd) seg (storeCount (T.1 fd) seg).toNat]
        (setSlot T fd ((T.1 fd).store seg))
  /-- A FIN of the peer. Frames that were handled before may have changed the state. -/
  | finReceived {T : Slots} {fd : Fin 4} {seg : Segment} {ack : UInt32} :
      has seg.flags tcpRst = false → has seg.flags tcpFin = true →
      RxStep T [stateEvent fd .established seg (T.1 fd).state .closeWait]
        (setSlot T fd { T.1 fd with ack := ack, state := .closeWait })
  | finAcked {T : Slots} {fd : Fin 4} {seg : Segment} : (T.1 fd).state = .finWait1 →
      has seg.flags tcpRst = false → has seg.flags tcpAck = true →
      RxStep T [stateEvent fd .finWait1 seg (T.1 fd).state .finWait2]
        (setSlot T fd { T.1 fd with state := .finWait2 })
  | lastFin {T : Slots} {fd : Fin 4} {ack : UInt32} :
      (T.1 fd).state = .finWait1 ∨ (T.1 fd).state = .finWait2 →
      RxStep T [] (setSlot T fd { T.1 fd with ack := ack })
  | timeWait {T : Slots} {fd : Fin 4} {arrival : TCPState} {seg : Segment} :
      arrival = .finWait1 ∨ arrival = .finWait2 → has seg.flags tcpRst = false →
      has seg.flags tcpFin = true →
      ((T.1 fd).state = .finWait1 → has seg.flags tcpAck = false) →
      RxStep T [stateEvent fd arrival seg (T.1 fd).state .timeWait]
        (setSlot T fd { T.1 fd with state := .timeWait })
  | closed {T : Slots} {fd : Fin 4} {arrival : TCPState} {seg : Segment} :
      Matches (T.1 fd) seg → (T.1 fd).state = arrival →
      has seg.flags tcpRst = true ∨ arrival = .lastAck ∧ has seg.flags tcpAck = true ∨
        arrival = .timeWait →
      RxStep T [stateEvent fd arrival seg (T.1 fd).state .closed]
        (setSlot T fd { T.1 fd with state := .closed, active := false })

/-- What happens at once in a call. -/
inductive TcpStep : Slots → List NetEvent → Slots → Prop
  | rx {T T' : Slots} {es : List NetEvent} : RxStep T es T' → TcpStep T es T'
  | opened {T : Slots} {fd : Fin 4} {ip : UInt32} {port : UInt16} {localIp seq : UInt32} :
      (T.1 fd).active = false →
      TcpStep T [.state fd .clear (T.1 fd).state .closed, .opened fd ip port,
          .state fd .connect .closed .synSent]
        (Function.update T.1 fd { TCPSocket.zero with
          state := .synSent, active := true, localIp := localIp, localPort := T.2,
          remoteIp := ip, remotePort := port, seq := seq, window := 4096 }, T.2 + 1)
  | connected {T : Slots} {fd : Fin 4} : (T.1 fd).state = .established →
      TcpStep T [.connected fd (T.1 fd).remoteIp (T.1 fd).remotePort] T
  | giveUp {T : Slots} {fd : Fin 4} :
      TcpStep T [.state fd .giveUp (T.1 fd).state .closed]
        (setSlot T fd { T.1 fd with state := .closed, active := false })
  | closing {T : Slots} {fd : Fin 4} : TcpStep T [.closing fd] T
  | close {T : Slots} {fd : Fin 4} : (T.1 fd).active = true →
      (T.1 fd).state = .established ∨ (T.1 fd).state = .closeWait →
      TcpStep T [.state fd .close (T.1 fd).state .finWait1]
        (setSlot T fd { T.1 fd with state := .finWait1 })
  | finSent {T : Slots} {fd : Fin 4} :
      TcpStep T [.finSent fd (T.1 fd).seq] (setSlot T fd { T.1 fd with seq := (T.1 fd).seq + 1 })
  | released {T : Slots} {fd : Fin 4} {timedOut : Bool} :
      TcpStep T [.state fd (.release timedOut) (T.1 fd).state .closed, .released fd]
        (setSlot T fd .zero)
  | advance {T : Slots} {fd : Fin 4} {n : UInt32} :
      TcpStep T [] (setSlot T fd { T.1 fd with seq := (T.1 fd).seq + n })
  | returned {T : Slots} {fd : Fin 4} {count : UInt32} : count ≤ (T.1 fd).recvLen →
      TcpStep T [.returned fd ((T.1 fd).recvBuf.bytes 0 count.toNat)]
        (setSlot T fd { T.1 fd with
          recvBuf := (T.1 fd).recvBuf.write 0
            ((T.1 fd).recvBuf.bytes count.toNat ((T.1 fd).recvLen - count).toNat)
          recvLen := (T.1 fd).recvLen - count })

/-! ## Nesting -/

/-- What the stack is in the middle of. -/
inductive Level where
  /-- In `eth_rx_handler`. -/
  | handling
  /-- In the loop of `arp_resolve`. -/
  | waiting
deriving DecidableEq, Repr

/-- The events that do not tell where the stack is. -/
def NetEvent.plain : NetEvent → Bool
  | .enter | .leave | .wait _ => false
  | _ => true

/-- A step of the sockets, or one between the levels, of which the innermost comes first.
Frames are handled at the outside and inside a wait. -/
inductive RunStep (R : Slots → List NetEvent → Slots → Prop) :
    Slots × List Level → List NetEvent → Slots × List Level → Prop
  | step {T T' : Slots} {es : List NetEvent} {k : List Level} : R T es T' →
      es.all NetEvent.plain = true → RunStep R (T, k) es (T', k)
  | enter {T : Slots} {k : List Level} : k.head? ≠ some .handling →
      RunStep R (T, k) [.enter] (T, .handling :: k)
  | leave {T : Slots} {k : List Level} : RunStep R (T, .handling :: k) [.leave] (T, k)
  | wait {T : Slots} {k : List Level} {ip : UInt32} :
      RunStep R (T, k) [.wait ip] (T, .waiting :: k)
  | waited {T : Slots} {k : List Level} : RunStep R (T, .waiting :: k) [] (T, k)

theorem RunStep.mono {R R' : Slots → List NetEvent → Slots → Prop}
    (himp : ∀ T es T', R T es T' → R' T es T') {x y : Slots × List Level} {es : List NetEvent}
    (h : RunStep R x es y) : RunStep R' x es y := by
  cases h with
  | step h hplain => exact .step (himp _ _ _ h) hplain
  | enter h => exact .enter h
  | leave => exact .leave
  | wait => exact .wait
  | waited => exact .waited

/-- The steps of the sockets alone. -/
theorem star_slots {R : Slots → List NetEvent → Slots → Prop} {x y : Slots × List Level}
    {es : List NetEvent} (hquiet : ∀ (T : Slots) (e : NetEvent), e.Quiet → R T [e] T)
    (h : Star (RunStep R) x es y) : Star R x.1 es y.1 := by
  induction h with
  | refl => exact .refl
  | tail _ hstep ih =>
      cases hstep with
      | step hstep => exact ih.tail hstep
      | enter | leave | wait => exact ih.tail (hquiet _ _ trivial)
      | waited => rwa [List.append_nil]

/-! ## The handlers -/

/-- The computation is a run of the steps of frame handling, at this level. -/
abbrev RxTraces {α : Type} (k : List Level) (v : α → Host) (x : Rx α) (s : Host) : Prop :=
  Traces (RunStep RxStep) (fun a => ((v a).slots, k)) x (s.slots, k)

variable {d : Devices} {rx : Receiver} {fuel : Nat} {s : Host} {k : List Level}

/-- The receiver is a run of the steps of frame handling, where frames may be handled. -/
def Steady (rx : Receiver) : Prop :=
  ∀ k : List Level, k.head? ≠ some .handling → ∀ pkt s, RxTraces k id (rx pkt s) s

/-- A quiet event. -/
theorem traces_quiet {α : Type} {v : α → Host} {e : NetEvent} {y : Rx α} (he : e.Quiet)
    (hplain : e.plain = true) (hy : RxTraces k v y s) :
    RxTraces k v (Logged.emit e >>= fun _ => y) s :=
  traces_step_bind (.step (.quiet he) (by simp [hplain])) rfl hy

theorem traces_e1000Send (frame : List UInt8) (s : Host) :
    RxTraces k Prod.snd (e1000Send d frame s) s :=
  traces_quiet trivial rfl (traces_pure rfl)

theorem traces_ethSend (dst : Mac) (ethertype : UInt16) (payload : List UInt8) (s : Host) :
    RxTraces k Prod.snd (ethSend d dst ethertype payload s) s :=
  traces_ite (fun _ => traces_pure rfl) fun _ => traces_e1000Send _ _

theorem traces_netRxEnqueue (data : List UInt8) (s : Host) :
    RxTraces k id (netRxEnqueue data s) s := by
  refine traces_ite (fun _ => traces_pure rfl) fun _ => ?_
  refine traces_quiet ⟨by decide, by decide, ?_⟩ rfl (traces_pure rfl)
  rw [Nat.zero_add]
  exact List.length_take_le ..

theorem traces_drainQueue (hrx : Steady rx) (hk : k.head? ≠ some .handling) (fuel : Nat)
    (s : Host) : RxTraces k id (drainQueue rx fuel s) s := by
  induction fuel generalizing s with
  | zero => exact traces_stop _
  | succ fuel ih =>
      unfold drainQueue netRxDequeue
      split
      · exact traces_pure rfl
      next pkt t ht =>
        have hslots : t.slots = s.slots := by
          split at ht
          · cases ht
          · cases ht
            rfl
        rw [RxTraces, ← hslots]
        exact traces_bind (hrx k hk pkt t) fun t' _ => ih t'

theorem traces_arpSendRequest (ip : UInt32) (s : Host) : RxTraces k id (arpSendRequest d ip s) s :=
  traces_bind (traces_ethSend _ _ _ s) fun _ _ => traces_pure rfl

theorem traces_arpSendReply (ip : UInt32) (mac : Mac) (s : Host) :
    RxTraces k id (arpSendReply d ip mac s) s :=
  traces_bind (traces_ethSend _ _ _ s) fun _ _ => traces_pure rfl

theorem traces_arpWait (hrx : Steady rx) (hk : k.head? ≠ some .handling) (ip : UInt32)
    (deadline : UInt64) (fuel : Nat) (s : Host) :
    RxTraces k Prod.snd (arpWait d rx ip deadline fuel s) s := by
  induction fuel generalizing s with
  | zero => exact traces_stop _
  | succ fuel ih =>
      unfold arpWait
      refine traces_ite (fun _ => traces_pure rfl) fun _ => ?_
      refine traces_bind (v := fun t : Host => (t.slots, k)) ?_ fun t _ => ?_
      · split
        · refine traces_bind (traces_netRxEnqueue _ _) fun t _ => ?_
          exact traces_drainQueue hrx hk fuel t
        · exact traces_pure rfl
      · split
        · exact traces_pure rfl
        · exact ih t

theorem traces_arpResolve (hrx : Steady rx) (fuel : Nat) (ip : UInt32) (s : Host) :
    RxTraces k Prod.snd (arpResolve d rx fuel ip s) s := by
  unfold arpResolve
  split
  · exact traces_pure rfl
  · refine traces_step_bind .wait rfl ?_
    refine Traces.after (v := fun r => (r.2.slots, .waiting :: k)) ?_ fun _ => .waited
    refine traces_bind (traces_arpSendRequest ip s) fun t _ => ?_
    exact traces_arpWait hrx (by simp) ip _ fuel _

theorem traces_ipv4Send (hrx : Steady rx) (fuel : Nat) (dst : UInt32) (protocol : UInt8)
    (payload : List UInt8) (s : Host) :
    RxTraces k Prod.snd (ipv4Send d rx fuel dst protocol payload s) s := by
  refine traces_ite (fun _ => traces_pure rfl) fun _ => ?_
  refine traces_bind (traces_arpResolve hrx fuel _ s) ?_
  rintro ⟨resolved, t⟩ -
  cases resolved with
  | none => exact traces_pure rfl
  | some mac => exact traces_ethSend _ _ _ _

theorem traces_icmpRxHandler (hrx : Steady rx) (fuel : Nat) (srcIp : UInt32) (p : View)
    (len : UInt16) (s : Host) : RxTraces k id (icmpRxHandler d rx fuel srcIp p len s) s := by
  refine traces_ite (fun _ => traces_pure rfl) fun _ => ?_
  refine traces_ite (fun _ => ?_) fun _ => ?_
  · refine traces_ite (fun _ => traces_pure rfl) fun hlen => ?_
    refine traces_quiet ⟨by decide, by decide, ?_⟩ rfl ?_
    · have hle := UInt16.le_iff_toNat_le.mp (UInt16.not_lt.mp hlen)
      rw [Nat.zero_add]
      exact hle
    · exact traces_bind (traces_ipv4Send hrx fuel _ _ _ s) fun _ _ => traces_pure rfl
  · exact traces_ite (fun _ => traces_pure rfl) fun _ => traces_pure rfl

theorem traces_udpRxHandler (srcIp : UInt32) (p : View) (len : UInt16) (s : Host) :
    RxTraces k id (udpRxHandler srcIp p len s) s := by
  refine traces_ite (fun _ => traces_pure rfl) fun _ => ?_
  dsimp only
  split
  · exact traces_pure rfl
  · refine traces_quiet ⟨by decide, by decide, ?_⟩ rfl
      (traces_quiet trivial rfl (traces_pure rfl))
    rw [Nat.zero_add]
    split
    · exact Nat.le_refl _
    next hlen => exact UInt16.le_iff_toNat_le.mp (UInt16.not_lt.mp hlen)

theorem traces_arpCacheUpdate (ip : UInt32) (mac : Mac) (s : Host) :
    RxTraces k id (arpCacheUpdate ip mac s) s := by
  refine traces_quiet ⟨by decide, by decide, by decide⟩ rfl ?_
  split
  · exact traces_pure rfl
  · split <;> exact traces_pure rfl

theorem traces_arpRxHandler (p : View) (len : UInt16) (s : Host) :
    RxTraces k id (arpRxHandler d p len s) s := by
  refine traces_ite (fun _ => traces_pure rfl) fun _ => ?_
  refine traces_ite (fun _ => traces_pure rfl) fun _ => ?_
  refine traces_bind (traces_arpCacheUpdate _ _ s) fun t _ => ?_
  exact traces_ite (fun _ => traces_arpSendReply _ _ t) fun _ => traces_pure rfl

/-! ## The branches of `tcp_rx_handler` -/

theorem traces_tcpSendSegment (hrx : Steady rx) (fuel : Nat) (fd : Fin 4) (flags : UInt8)
    (data : List UInt8) (s : Host) :
    RxTraces k Prod.snd (tcpSendSegment d rx fuel fd flags data s) s := by
  refine traces_step_bind (.step .transmit rfl) rfl ?_
  exact traces_ipv4Send hrx fuel _ _ _ s

theorem traces_sendAck (hrx : Steady rx) (fuel : Nat) (fd : Fin 4) (s : Host) :
    RxTraces k id (sendAck d rx fuel fd s) s :=
  traces_bind (traces_tcpSendSegment hrx fuel fd _ _ s) fun _ _ => traces_pure rfl

variable {fd : Fin 4} {seg : Segment}

@[simp] theorem setTcp_self (s : Host) (fd : Fin 4) (socket : TCPSocket) :
    (s.setTcp fd socket).tcpSockets fd = socket := Function.update_self ..

@[simp] theorem setTcp_setTcp (s : Host) (fd : Fin 4) (socket socket' : TCPSocket) :
    (s.setTcp fd socket).setTcp fd socket' = s.setTcp fd socket' := by
  simp only [Host.setTcp, Function.update_idem]

/-- The state is assigned once other fields have been. -/
theorem traces_assignState {cause : Cause} {new : TCPState} (socket : TCPSocket)
    (h : RxStep s.slots [.state fd cause socket.state new]
      (setSlot s.slots fd { socket with state := new })) :
    RxTraces k id (assignState fd cause new (s.setTcp fd socket)) s := by
  refine traces_step (a := s.setTcp fd { socket with state := new }) (.step h rfl) ?_
  simp only [assignState, setTcp_self, setTcp_setTcp]
  rfl

theorem deactivate_eq (fd : Fin 4) (cause : Cause) (s : Host) :
    deactivate fd cause s = ⟨[.state fd cause (s.tcpSockets fd).state .closed],
      .ok (s.setTcp fd { s.tcpSockets fd with state := .closed, active := false })⟩ := by
  have hassign : assignState fd cause .closed s =
      ⟨[.state fd cause (s.tcpSockets fd).state .closed],
        .ok (s.setTcp fd { s.tcpSockets fd with state := .closed })⟩ := rfl
  unfold deactivate
  rw [hassign, Logged.bind_of_ok rfl, setTcp_self, setTcp_setTcp]
  rfl

theorem traces_tcpSynSent (hrx : Steady rx) (hmatch : Matches (s.tcpSockets fd) seg)
    (hstate : (s.tcpSockets fd).state = .synSent) :
    RxTraces k id (tcpSynSent d rx fuel fd seg s) s := by
  refine traces_ite (fun _ => traces_pure rfl) fun hflags => ?_
  refine traces_ite (fun _ => traces_pure rfl) fun hack => ?_
  refine traces_bind (v := fun t : Host => (t.slots, k)) (traces_assignState _ ?_) fun t _ =>
    traces_sendAck hrx fuel fd t
  exact .establish hmatch hstate (Decidable.of_not_not hflags) (Decidable.of_not_not hack)

theorem traces_storeData (hmatch : Matches (s.tcpSockets fd) seg)
    (hstate : (s.tcpSockets fd).state = .established) (hack : has seg.flags tcpAck = true) :
    RxTraces k id (storeData fd seg s) s :=
  traces_step (.step (.store hmatch hstate hack) rfl) rfl

theorem traces_tcpEstablished (hrx : Steady rx) (hmatch : Matches (s.tcpSockets fd) seg)
    (hrst : has seg.flags tcpRst = false)
    (hstate : (s.tcpSockets fd).state = .established) :
    RxTraces k id (tcpEstablished d rx fuel fd seg s) s := by
  unfold tcpEstablished
  refine traces_ite (fun _ => traces_pure rfl) fun hack => ?_
  refine traces_bind (v := fun t : Host => (t.slots, k)) ?_ fun t _ => ?_
  · refine traces_ite (fun _ => ?_) fun _ => traces_pure rfl
    refine traces_bind (traces_storeData hmatch hstate ?_) fun t _ => traces_sendAck hrx fuel fd t
    simpa using hack
  · refine traces_ite (fun hfin => ?_) fun _ => traces_pure rfl
    refine traces_bind (v := fun t : Host => (t.slots, k)) ?_ fun u _ => traces_sendAck hrx fuel fd u
    exact traces_assignState _ (.finReceived hrst hfin)

/-- No frame moves a socket to `TCP_FIN_WAIT1`. -/
theorem RxStep.finWait1 {T T' : Slots} {es : List NetEvent} (h : RxStep T es T') (fd : Fin 4)
    (hstate : (T'.1 fd).state = .finWait1) : (T.1 fd).state = .finWait1 := by
  have hset : ∀ (i : Fin 4) (socket : TCPSocket),
      ((setSlot T i socket).1 fd).state = .finWait1 →
      (socket.state = .finWait1 → (T.1 i).state = .finWait1) → (T.1 fd).state = .finWait1 := by
    intro i socket h himp
    by_cases hi : fd = i
    · subst hi
      rw [setSlot_self] at h
      exact himp h
    · rwa [setSlot_ne T socket hi] at h
  cases h with
  | quiet | badHeader | header | transmit => exact hstate
  | store | lastFin => exact hset _ _ hstate id
  | establish | finReceived | finAcked | timeWait | closed =>
      exact hset _ _ hstate fun h => TCPState.noConfusion h

theorem star_finWait1 {T T' : Slots} {es : List NetEvent} (h : Star RxStep T es T') (fd : Fin 4)
    (hstate : (T'.1 fd).state = .finWait1) : (T.1 fd).state = .finWait1 := by
  induction h with
  | refl => exact hstate
  | tail _ hstep ih => exact ih (hstep.finWait1 fd hstate)

theorem traces_tcpLastFin {arrival : TCPState} (hrx : Steady rx)
    (hrst : has seg.flags tcpRst = false) (hfin : has seg.flags tcpFin = true)
    (harrival : arrival = .finWait1 ∨ arrival = .finWait2)
    (hstate : (s.tcpSockets fd).state = .finWait1 ∧ has seg.flags tcpAck = false ∨
      (s.tcpSockets fd).state = .finWait2) :
    RxTraces k id (tcpLastFin d rx fuel fd arrival seg s) s := by
  refine traces_after (t := ((assignAck fd (seg.seq + 1) s).slots, k))
    (.step (.lastFin (hstate.imp_left And.left)) rfl) ?_
  have hack := traces_sendAck (d := d) (k := k) hrx fuel fd (assignAck fd (seg.seq + 1) s)
  refine traces_bind (v := fun t : Host => (t.slots, k)) hack fun t ht => ?_
  refine traces_step (.step (.timeWait harrival hrst hfin ?_) rfl) rfl
  -- the state can still be `TCP_FIN_WAIT1` only if it was when the segment arrived
  intro hwait
  have hstar := star_slots (fun _ _ => .quiet) (hack.star ht)
  have hbefore := star_finWait1 hstar fd hwait
  have hself : ((assignAck fd (seg.seq + 1) s).slots.1 fd).state = (s.tcpSockets fd).state := by
    change ((s.setTcp fd _).tcpSockets fd).state = _
    rw [setTcp_self]
  rw [hself] at hbefore
  rcases hstate with ⟨-, hnoack⟩ | hwait2
  · exact hnoack
  · cases hbefore.symm.trans hwait2

theorem traces_tcpFinWait1 (hrx : Steady rx) (hrst : has seg.flags tcpRst = false)
    (hstate : (s.tcpSockets fd).state = .finWait1) :
    RxTraces k id (tcpFinWait1 d rx fuel fd seg s) s := by
  have hrest : ∀ t : Host, (t.tcpSockets fd).state = .finWait1 ∧ has seg.flags tcpAck = false ∨
      (t.tcpSockets fd).state = .finWait2 →
      RxTraces k id
        (if has seg.flags tcpFin then tcpLastFin d rx fuel fd .finWait1 seg t else return t) t :=
    fun t ht => traces_ite (fun hfin => traces_tcpLastFin hrx hrst hfin (.inl rfl) ht)
      fun _ => traces_pure rfl
  unfold tcpFinWait1
  split
  next hack =>
    exact traces_step_bind (.step (.finAcked hstate hrst hack) rfl) rfl
      (hrest _ (.inr (by rw [setTcp_self])))
  next hack => exact hrest s (.inl ⟨hstate, by simpa using hack⟩)

theorem traces_tcpArrival (hrx : Steady rx) (hmatch : Matches (s.tcpSockets fd) seg) :
    RxTraces k id (tcpArrival d rx fuel fd seg s) s := by
  refine traces_ite (fun hrst => ?_) fun hrst => ?_
  · exact traces_step (.step (.closed hmatch rfl (.inl hrst)) rfl) (deactivate_eq ..)
  rw [Bool.not_eq_true] at hrst
  split
  next hstate => exact traces_tcpSynSent hrx hmatch hstate
  next hstate => exact traces_tcpEstablished hrx hmatch hrst hstate
  next hstate => exact traces_tcpFinWait1 hrx hrst hstate
  next hstate =>
    exact traces_ite (fun hfin => traces_tcpLastFin hrx hrst hfin (.inr rfl) (.inr hstate))
      fun _ => traces_pure rfl
  next => exact traces_pure rfl
  next hstate =>
    refine traces_ite (fun hack => ?_) fun _ => traces_pure rfl
    exact traces_step (.step (.closed hmatch hstate (.inr (.inl ⟨rfl, hack⟩))) rfl)
      (deactivate_eq ..)
  next hstate =>
    exact traces_step (.step (.closed hmatch hstate (.inr (.inr rfl))) rfl) (deactivate_eq ..)
  next => exact traces_pure rfl

/-! ## Receiving -/

/-- What the lookup finds. -/
theorem matches_of_tcpLookup (h : tcpLookup seg.srcIp seg.srcPort seg.dstPort s = some fd) :
    Matches (s.tcpSockets fd) seg := by
  have hfound := List.find?_some h
  simp only [Bool.and_eq_true, beq_iff_eq] at hfound
  rcases hfound with ⟨⟨⟨hactive, hip⟩, hport⟩, hlocal⟩
  exact ⟨hactive, hip, hport, hlocal⟩

theorem traces_tcpRxHandler (hrx : Steady rx) (srcIp dstIp : UInt32) (p : View) (len : UInt16)
    (s : Host) : RxTraces k id (tcpRxHandler d rx fuel srcIp dstIp p len s) s := by
  refine traces_ite (fun _ => traces_pure rfl) fun _ => ?_
  refine traces_ite (fun _ => traces_pure rfl) fun _ => ?_
  refine traces_ite (fun _ => traces_pure rfl) fun hlen => ?_
  refine traces_quiet ⟨by decide, by decide, ?_⟩ rfl ?_
  · have hle := UInt16.le_iff_toNat_le.mp (UInt16.not_lt.mp hlen)
    rw [Nat.zero_add]
    exact hle
  refine traces_ite (fun _ => traces_pure rfl) fun _ => ?_
  dsimp only
  split
  · exact traces_pure rfl
  next hfd => exact traces_tcpArrival hrx (matches_of_tcpLookup hfd)

theorem traces_ipv4RxHandler (hrx : Steady rx) (p : View) (len : UInt16) (s : Host) :
    RxTraces k id (ipv4RxHandler d rx fuel p len s) s := by
  unfold ipv4RxHandler
  split
  next h => exact traces_step (.step (.badHeader fun hpass => hpass.1 h) rfl) rfl
  split
  next h => exact traces_step (.step (.badHeader fun hpass => h hpass.2.1) rfl) rfl
  split
  next h => exact traces_step (.step (.badHeader fun hpass => hpass.2.2 h) rfl) rfl
  next hshort hversion hihl =>
    refine traces_emit_pair
      (.step (.header ⟨hshort, Decidable.of_not_not hversion, hihl⟩) rfl) ?_
    refine traces_ite (fun _ => traces_pure rfl) fun _ => ?_
    refine traces_ite (fun _ => traces_pure rfl) fun _ => ?_
    refine traces_ite (fun _ => traces_icmpRxHandler hrx fuel _ _ _ s) fun _ => ?_
    refine traces_ite (fun _ => traces_udpRxHandler _ _ _ s) fun _ => ?_
    exact traces_ite (fun _ => traces_tcpRxHandler hrx _ _ _ _ s) fun _ => traces_pure rfl

theorem traces_ethHandle (hrx : Steady rx) (pkt : NetPacket) (s : Host) :
    RxTraces k id (ethHandle d rx fuel pkt s) s := by
  refine traces_ite (fun _ => traces_pure rfl) fun _ => ?_
  refine traces_ite (fun _ => traces_arpRxHandler _ _ s) fun _ => ?_
  exact traces_ite (fun _ => traces_ipv4RxHandler hrx _ _ s) fun _ => traces_pure rfl

/-- By induction on the fuel, which bounds how deep the handlers are nested. -/
theorem steady_ethRxHandler (d : Devices) (fuel : Nat) : Steady (ethRxHandler d fuel) := by
  induction fuel with
  | zero => exact fun _ _ _ _ => traces_stop _
  | succ fuel ih =>
      intro k hk pkt s
      refine traces_step_bind (.enter hk) rfl ?_
      refine traces_bind (traces_ethHandle ih pkt s) fun t _ => ?_
      exact traces_step_bind .leave rfl (traces_pure rfl)

theorem traces_receiveAll (fuel : Nat) (s : Host) : RxTraces k id (receiveAll d fuel s) s := by
  induction fuel generalizing s with
  | zero => exact traces_stop _
  | succ fuel ih =>
      unfold receiveAll
      dsimp only [e1000Recv]
      split
      · exact traces_pure rfl
      · exact traces_bind (traces_netRxEnqueue _ _) fun t _ => ih t

theorem traces_netRxProcess (fuel : Nat) (s : Host) :
    RxTraces [] id (netRxProcess d fuel s) s :=
  traces_bind (traces_receiveAll fuel s) fun t _ =>
    traces_drainQueue (steady_ethRxHandler d fuel) (by simp) fuel t

/-! ## The calls -/

/-- The computation is a run of the steps of calls. -/
abbrev CallTraces {α : Type} (v : α → Host) (x : Rx α) (s : Host) : Prop :=
  Traces (RunStep TcpStep) (fun a => ((v a).slots, [])) x (s.slots, [])

theorem RxTraces.call {α : Type} {v : α → Host} {x : Rx α} (h : RxTraces [] v x s) :
    CallTraces v x s := Traces.mono (fun _ _ _ => RunStep.mono fun _ _ _ => .rx) h

/-- Handling frames does not change whom a socket is connected to. -/
theorem RxStep.remote {T T' : Slots} {es : List NetEvent} (h : RxStep T es T') (fd : Fin 4) :
    (T'.1 fd).remoteIp = (T.1 fd).remoteIp ∧ (T'.1 fd).remotePort = (T.1 fd).remotePort := by
  have hset : ∀ (i : Fin 4) (k : TCPSocket), k.remoteIp = (T.1 i).remoteIp →
      k.remotePort = (T.1 i).remotePort →
      ((setSlot T i k).1 fd).remoteIp = (T.1 fd).remoteIp ∧
        ((setSlot T i k).1 fd).remotePort = (T.1 fd).remotePort := by
    intro i k hip hport
    by_cases hi : fd = i
    · subst hi
      rw [setSlot_self]
      exact ⟨hip, hport⟩
    · rw [setSlot_ne T k hi]
      exact ⟨rfl, rfl⟩
  cases h with
  | quiet | badHeader | header | transmit => exact ⟨rfl, rfl⟩
  | establish | store | finReceived | finAcked | lastFin | timeWait | closed =>
      exact hset _ _ rfl rfl

theorem star_remote {T T' : Slots} {es : List NetEvent} (h : Star RxStep T es T') (fd : Fin 4) :
    (T'.1 fd).remoteIp = (T.1 fd).remoteIp ∧ (T'.1 fd).remotePort = (T.1 fd).remotePort := by
  induction h with
  | refl => exact ⟨rfl, rfl⟩
  | tail _ hstep ih => exact ⟨(hstep.remote fd).1.trans ih.1, (hstep.remote fd).2.trans ih.2⟩

theorem RxTraces.remote {α : Type} {v : α → Host} {x : Rx α} (h : RxTraces [] v x s) {a : α}
    (ha : x.result = .ok a) (fd : Fin 4) :
    ((v a).tcpSockets fd).remoteIp = (s.tcpSockets fd).remoteIp ∧
      ((v a).tcpSockets fd).remotePort = (s.tcpSockets fd).remotePort :=
  star_remote (star_slots (fun _ _ => .quiet) (h.star ha)) fd

theorem traces_connectWait (fd : Fin 4) (deadline : UInt64) (fuel : Nat) (s : Host) :
    RxTraces [] Prod.snd (connectWait d fd deadline fuel s) s := by
  induction fuel generalizing s with
  | zero => exact traces_stop _
  | succ fuel ih =>
      refine traces_ite (fun _ => traces_pure rfl) fun _ => ?_
      refine traces_bind (traces_netRxProcess fuel _) fun t _ => ?_
      refine traces_ite (fun _ => traces_pure rfl) fun _ => ?_
      exact traces_ite (fun _ => traces_pure rfl) fun _ => ih t

/-- Where the wait ends well, the connection is established. -/
theorem connectWait_established {deadline : UInt64} {t : Host}
    (h : (connectWait d fd deadline fuel s).result = .ok (true, t)) :
    (t.tcpSockets fd).state = .established := by
  induction fuel generalizing s with
  | zero => cases h
  | succ fuel ih =>
      unfold connectWait at h
      dsimp only [timerGetMs] at h
      split at h
      · cases h
      · rw [Logged.result_bind] at h
        rcases h with ⟨u, -, h⟩
        split at h
        next hstate =>
          cases h
          exact hstate
        · split at h
          · cases h
          · exact ih h

theorem traces_tcpOpen (hfree : (s.tcpSockets fd).active = false) (ip : UInt32) (port : UInt16) :
    CallTraces id (tcpOpen d fd ip port s) s :=
  traces_step (.step (.opened hfree) rfl) rfl

theorem tcpOpen_remote {ip : UInt32} {port : UInt16} {t : Host}
    (h : (tcpOpen d fd ip port s).result = .ok t) :
    (t.tcpSockets fd).remoteIp = ip ∧ (t.tcpSockets fd).remotePort = port := by
  cases h
  simp [freshSocket]

theorem advanceSeq_remote {n : UInt32} :
    ((advanceSeq fd n s).tcpSockets fd).remoteIp = (s.tcpSockets fd).remoteIp ∧
      ((advanceSeq fd n s).tcpSockets fd).remotePort = (s.tcpSockets fd).remotePort := by
  simp [advanceSeq]

/-- `tcp_connect` clears a slot, opens it and waits, or gives up. -/
theorem traces_tcpConnect (ip : UInt32) (port : UInt16) (s : Host) :
    CallTraces Prod.snd (tcpConnect d fuel ip port s) s := by
  unfold tcpConnect
  split
  · exact traces_pure rfl
  next fd hfree =>
    have hactive := List.find?_some hfree
    refine traces_bind (v := fun t : Host => (t.slots, [])) (traces_tcpOpen ?_ ip port) fun t ht => ?_
    · simpa using hactive
    refine traces_bind (traces_tcpSendSegment (steady_ethRxHandler d fuel) fuel fd _ _ t).call ?_
    rintro ⟨sent, t'⟩ ht'
    refine traces_after (t := ((advanceSeq fd 1 t').slots, [])) (.step .advance rfl) ?_
    refine traces_bind (traces_connectWait fd _ fuel _).call ?_
    rintro ⟨established, u⟩ hu
    refine traces_ite (fun hest => ?_) fun _ => ?_
    · subst hest
      have hopen := tcpOpen_remote ht
      have hsent := RxTraces.remote (traces_tcpSendSegment (steady_ethRxHandler d fuel) fuel fd _
        _ t) ht' fd
      have hwait := RxTraces.remote (traces_connectWait fd _ fuel _) hu fd
      have hip : (u.tcpSockets fd).remoteIp = ip :=
        hwait.1.trans (advanceSeq_remote.1.trans (hsent.1.trans hopen.1))
      have hport : (u.tcpSockets fd).remotePort = port :=
        hwait.2.trans (advanceSeq_remote.2.trans (hsent.2.trans hopen.2))
      have h : TcpStep u.slots [.connected fd (u.tcpSockets fd).remoteIp
        (u.tcpSockets fd).remotePort] u.slots := .connected (connectWait_established hu)
      rw [hip, hport] at h
      exact traces_step (.step h rfl) rfl
    · refine traces_bind (v := fun t : Host => (t.slots, [])) ?_ fun _ _ => traces_pure rfl
      exact traces_step (.step .giveUp rfl) (deactivate_eq ..)

theorem traces_closeWait (fd : Fin 4) (deadline : UInt64) (fuel : Nat) (s : Host) :
    RxTraces [] Prod.snd (closeWait d fd deadline fuel s) s := by
  induction fuel generalizing s with
  | zero => exact traces_stop _
  | succ fuel ih =>
      refine traces_ite (fun _ => traces_pure rfl) fun _ => ?_
      refine traces_bind (traces_netRxProcess fuel _) fun t _ => ?_
      exact traces_ite (fun _ => traces_pure rfl) fun _ => ih t

theorem traces_tcpShutdown (hactive : (s.tcpSockets fd).active = true)
    (hstate : (s.tcpSockets fd).state = .established ∨ (s.tcpSockets fd).state = .closeWait) :
    CallTraces Prod.snd (tcpShutdown d fuel fd s) s := by
  unfold tcpShutdown
  refine traces_bind (v := fun t : Host => (t.slots, [])) 
    (traces_step (.step (.close hactive hstate) rfl) rfl) fun t _ => ?_
  refine traces_bind (traces_tcpSendSegment (steady_ethRxHandler d fuel) fuel fd _ _ t).call ?_
  rintro ⟨sent, u⟩ -
  refine traces_step_bind (t := ((advanceSeq fd 1 u).slots, [])) (.step .finSent rfl) rfl ?_
  exact (traces_closeWait fd _ fuel _).call

theorem traces_tcpClose (fd : Int) (s : Host) : CallTraces id (tcpClose d fuel fd s) s := by
  unfold tcpClose
  split
  · exact traces_pure rfl
  next i _ =>
    refine traces_step_bind (t := (s.slots, [])) (.step .closing rfl) rfl ?_
    refine traces_ite (fun _ => traces_pure rfl) fun hactive => ?_
    refine traces_bind (v := fun r => (r.2.slots, [])) ?_ ?_
    · refine traces_ite (fun hstate => ?_) fun _ => traces_pure rfl
      exact traces_tcpShutdown (by simpa using hactive) hstate
    · rintro ⟨timedOut, t⟩ -
      exact traces_step (.step .released rfl) rfl

theorem traces_tcpSend (fd : Int) (data : List UInt8) (s : Host) :
    CallTraces Prod.snd (tcpSend d fuel fd data s) s := by
  unfold tcpSend
  split
  · exact traces_pure rfl
  next i _ =>
    refine traces_ite (fun _ => traces_pure rfl) fun _ => ?_
    refine traces_bind (traces_tcpSendSegment (steady_ethRxHandler d fuel) fuel i _ _ s).call ?_
    rintro ⟨sent, t⟩ -
    exact traces_after (.step .advance rfl) (traces_pure rfl)

theorem traces_recvWait (fd : Fin 4) (maxLen : UInt32) (deadline : UInt64) (fuel : Nat)
    (s : Host) : CallTraces (fun r => r.2.2) (recvWait d fd maxLen deadline fuel s) s := by
  induction fuel generalizing s with
  | zero => exact traces_stop _
  | succ fuel ih =>
      refine traces_ite (fun _ => traces_pure rfl) fun _ => ?_
      refine traces_bind (traces_netRxProcess fuel _).call fun t _ => ?_
      refine traces_ite (fun _ => ?_) fun _ => ?_
      · refine traces_bind (v := fun r => (r.2.slots, []))
          (traces_step (.step (.returned ?_) rfl) rfl) fun _ _ => traces_pure rfl
        split
        · exact UInt32.le_refl _
        next h => exact UInt32.not_lt.mp h
      · exact traces_ite (fun _ => traces_pure rfl) fun _ => ih t

theorem traces_tcpRecv (fd : Int) (maxLen timeoutMs : UInt32) (s : Host) :
    CallTraces (fun r => r.2.2) (tcpRecv d fuel fd maxLen timeoutMs s) s := by
  unfold tcpRecv
  split
  · exact traces_pure rfl
  · refine traces_ite (fun _ => traces_pure rfl) fun _ => ?_
    exact traces_recvWait _ _ _ _ _

theorem traces_udpSend (fd : Int) (ip : UInt32) (port : UInt16) (data : List UInt8) (s : Host) :
    RxTraces [] Prod.snd (udpSend d fuel fd ip port data s) s := by
  unfold udpSend
  split
  · exact traces_pure rfl
  · refine traces_ite (fun _ => traces_pure rfl) fun _ => ?_
    refine traces_ite (fun _ => traces_pure rfl) fun _ => ?_
    exact traces_ipv4Send (steady_ethRxHandler d fuel) fuel _ _ _ s

theorem traces_udpWait (fd : Fin 8) (deadline : UInt64) (fuel : Nat) (s : Host) :
    RxTraces [] Prod.snd (udpWait d fd deadline fuel s) s := by
  induction fuel generalizing s with
  | zero => exact traces_stop _
  | succ fuel ih =>
      refine traces_ite (fun _ => traces_pure rfl) fun _ => ?_
      refine traces_bind (traces_netRxProcess fuel _) fun t _ => ?_
      exact traces_ite (fun _ => traces_pure rfl) fun _ => ih t

theorem traces_udpRecv (fd : Int) (timeoutMs : UInt32) (s : Host) :
    RxTraces [] Prod.snd (udpRecv d fuel fd timeoutMs s) s := by
  unfold udpRecv
  split
  · exact traces_pure rfl
  · exact traces_ite (fun _ => traces_pure rfl) fun _ => traces_udpWait _ _ _ _

theorem traces_pingWait (start deadline : UInt64) (seq : UInt16) (fuel : Nat) (s : Host) :
    RxTraces [] Prod.snd (pingWait d start deadline seq fuel s) s := by
  induction fuel generalizing s with
  | zero => exact traces_stop _
  | succ fuel ih =>
      refine traces_ite (fun _ => traces_pure rfl) fun _ => ?_
      refine traces_bind (traces_netRxProcess fuel _) fun t _ => ?_
      exact traces_ite (fun _ => traces_pure rfl) fun _ => ih t

theorem traces_icmpPing (ip : UInt32) (seq : UInt16) (s : Host) :
    RxTraces [] Prod.snd (icmpPing d fuel ip seq s) s := by
  refine traces_bind (traces_ipv4Send (steady_ethRxHandler d fuel) fuel _ _ _ _) ?_
  rintro ⟨sent, t⟩ -
  exact traces_ite (fun _ => traces_pure rfl) fun _ => traces_pingWait _ _ _ _ _

/-- The host behind a call, with the result left out. -/
theorem CallTraces.map {α : Type} {v : α → Host} {x : Rx α} (h : CallTraces v x s) :
    CallTraces id (v <$> x) s :=
  traces_bind h fun _ _ => traces_pure rfl

theorem traces_call (c : Call) (s : Host) : CallTraces id (c.run d fuel s) s := by
  cases c with
  | tcpConnect ip port => exact (traces_tcpConnect ip port s).map
  | tcpClose fd => exact traces_tcpClose fd s
  | tcpSend fd data => exact (traces_tcpSend fd data s).map
  | tcpRecv fd maxLen timeoutMs => exact (traces_tcpRecv fd maxLen timeoutMs s).map
  | udpOpen port =>
      refine traces_pure ?_
      unfold udpOpen
      split <;> rfl
  | udpClose fd =>
      refine traces_pure ?_
      unfold udpClose
      split <;> rfl
  | udpSend fd ip port data => exact (traces_udpSend fd ip port data s).call.map
  | udpRecv fd timeoutMs => exact (traces_udpRecv fd timeoutMs s).call.map
  | icmpPing ip seq => exact (traces_icmpPing ip seq s).call.map
  | configure ip gateway subnet => exact traces_pure rfl

/-- A session is a run of the steps, and between the calls the stack is in the middle of
nothing. -/
theorem session_run {s₀ : Host} {log : List NetEvent} {o : Option Host}
    (h : Session d s₀ log o) :
    ∃ x, Star (RunStep TcpStep) (s₀.slots, []) log x ∧ ∀ s, o = some s → (s.slots, []) = x := by
  induction h with
  | start => exact ⟨_, .refl, fun s hs => by cases hs; rfl⟩
  | call _ fuel c ih =>
      rcases ih with ⟨x, hx, hs⟩
      rcases traces_call c _ with ⟨y, hy, hs'⟩
      rw [hs _ rfl] at hy
      refine ⟨y, hx.trans hy, ?_⟩
      intro t ht
      cases hres : (c.run d fuel _).result with
      | error k =>
          rw [hres] at ht
          cases ht
      | ok a =>
          rw [hres] at ht
          cases ht
          exact hs' _ hres

theorem session_steps {s₀ : Host} {log : List NetEvent} {o : Option Host}
    (h : Session d s₀ log o) :
    ∃ T, Star TcpStep s₀.slots log T ∧ ∀ s, o = some s → s.slots = T := by
  rcases session_run h with ⟨x, hx, hs⟩
  exact ⟨x.1, star_slots (fun _ _ he => .rx (.quiet he)) hx, fun s ho => congrArg Prod.fst (hs s ho)⟩

end PolandOS.Net
