import PolandOS.Net.Steps

/-! # What `tcp_send` reports

`tcp_send` advances its sequence number and returns the length whatever has become of the
segment. `send_reports_iff`: what it returns is right exactly when the segment fits one
packet, its next hop is resolved and the card takes the frame.
-/

namespace PolandOS.Net

open Logging

variable {d : Devices} {rx : Receiver} {fuel : Nat} {s : Host} {fd : Fin 4}

/-! ## Segments -/

/-- What `tcp_send_segment` hands to `ipv4_send`. -/
def TCPSocket.segment (socket : TCPSocket) (flags : UInt8) (data : List UInt8) : List UInt8 :=
  let header := tcpHeader socket.localPort socket.remotePort socket.seq socket.ack flags
    socket.window
  header (tcpChecksum socket.localIp socket.remoteIp (header 0 ++ data)) ++ data

theorem length_segment (socket : TCPSocket) (flags : UInt8) (data : List UInt8) :
    (socket.segment flags data).length = 20 + data.length := by
  rw [TCPSocket.segment, List.length_append]
  rfl

theorem tcpSendSegment_eq (flags : UInt8) (data : List UInt8) :
    tcpSendSegment d rx fuel fd flags data s = (do
      Logged.emit (.transmit fd (s.tcpSockets fd).remoteIp (s.tcpSockets fd).remotePort flags)
      ipv4Send d rx fuel (s.tcpSockets fd).remoteIp ipProtoTcp
        ((s.tcpSockets fd).segment flags (data.take 4096)) s) := rfl

/-- Handling frames does not change the sequence number of a socket. -/
theorem RxStep.seq {T T' : Slots} {es : List NetEvent} (h : RxStep T es T') (i : Fin 4) :
    (T'.1 i).seq = (T.1 i).seq := by
  have hset : ∀ (j : Fin 4) (k : TCPSocket), k.seq = (T.1 j).seq →
      ((setSlot T j k).1 i).seq = (T.1 i).seq := by
    intro j k hseq
    by_cases hij : i = j
    · subst hij
      rw [setSlot_self]
      exact hseq
    · rw [setSlot_ne T k hij]
  cases h with
  | quiet | badHeader | header | transmit => rfl
  | establish | store | finReceived | finAcked | lastFin | timeWait | closed => exact hset _ _ rfl

theorem star_seq {T T' : Slots} {es : List NetEvent} (h : Star RxStep T es T') (i : Fin 4) :
    (T'.1 i).seq = (T.1 i).seq := by
  induction h with
  | refl => rfl
  | tail _ hstep ih => exact (hstep.seq i).trans ih

theorem RxTraces.seq {α : Type} {v : α → Host} {x : Rx α} (h : RxTraces [] v x s) {a : α}
    (ha : x.result = .ok a) (i : Fin 4) :
    ((v a).tcpSockets i).seq = (s.tcpSockets i).seq :=
  star_seq (star_slots (fun _ _ => .quiet) (h.star ha)) i

/-! ## `ipv4_send` -/

/-- Where `ipv4_send` sends a packet to. -/
def nextHop (s : Host) (dst : UInt32) : UInt32 :=
  if dst &&& s.subnet = s.ip &&& s.subnet then dst else s.gateway

/-- The next hop is resolved, and the card takes the frame that is sent then. -/
def Reachable (d : Devices) (rx : Receiver) (fuel : Nat) (s : Host) (dst : UInt32) : Prop :=
  ∃ mac t, (arpResolve d rx fuel (nextHop s dst) s).result = .ok (some mac, t) ∧
    d.outcome t.sends = 0

theorem length_ipv4Header (totalLen id : UInt16) (protocol : UInt8) (checksum : UInt16)
    (src dst : UInt32) : (ipv4Header totalLen id protocol checksum src dst).length = 20 := rfl

/-- `ipv4_send` returns 0 exactly for what fits one packet and is taken by the card. -/
theorem ipv4Send_accepts_iff {dst : UInt32} {protocol : UInt8} {payload : List UInt8} {r : Int}
    {t : Host} (h : (ipv4Send d rx fuel dst protocol payload s).result = .ok (r, t)) :
    r = 0 ↔ payload.length ≤ 1480 ∧ Reachable d rx fuel s dst := by
  unfold ipv4Send at h
  split at h
  next hlong =>
    cases h
    constructor
    · intro hr
      cases hr
    · rintro ⟨hfits, -⟩
      omega
  next hfits =>
    rcases Logged.result_bind.mp h with ⟨⟨resolved, u⟩, hresolve, hsend⟩
    change (arpResolve d rx fuel (nextHop s dst) s).result = _ at hresolve
    cases resolved with
    | none =>
        cases hsend
        constructor
        · intro hr
          cases hr
        · rintro ⟨-, mac, w, hmac, -⟩
          cases hresolve.symm.trans hmac
    | some mac =>
        -- the packet fits the frame, so all depends on the card
        have hframe : ¬1500 < 20 + payload.length := by omega
        simp only [ethSend, List.length_append, length_ipv4Header, gt_iff_lt, hframe,
          if_false] at hsend
        cases hsend
        constructor
        · intro hr
          exact ⟨Nat.le_of_not_lt hfits, mac, u, hresolve, hr⟩
        · rintro ⟨-, mac', w, hmac, hcard⟩
          cases hresolve.symm.trans hmac
          exact hcard

/-! ## `tcp_send` -/

/-- The attempt of `tcp_send` to get data out. -/
def tcpSendAttempt (d : Devices) (fuel : Nat) (fd : Fin 4) (data : List UInt8) (s : Host) :
    Rx (Int × Host) :=
  ipv4Send d (ethRxHandler d fuel) fuel (s.tcpSockets fd).remoteIp ipProtoTcp
    ((s.tcpSockets fd).segment (tcpPsh ||| tcpAck) data) s

/-- The call `x`, which has left `s'`, has handed a segment with these bytes to `ipv4_send`,
which has returned `r`: what the call has logged and left is that attempt's, up to the
sequence number of the socket. -/
structure Attempted (d : Devices) (fuel : Nat) (fd : Fin 4) (bytes : List UInt8) (s : Host)
    (x : Rx (Int × Host)) (r : Int) (s' : Host) : Prop where
  log : x.log = .transmit fd (s.tcpSockets fd).remoteIp (s.tcpSockets fd).remotePort
    (tcpPsh ||| tcpAck) :: (tcpSendAttempt d fuel fd bytes s).log
  result : ∃ t seq, (tcpSendAttempt d fuel fd bytes s).result = .ok (r, t) ∧
    s' = t.setTcp fd { t.tcpSockets fd with seq := seq }

/-- The call `x` of `tcp_send` has returned `n` with `s'` behind it, and that is what has
happened in it. -/
structure Reports (d : Devices) (fuel : Nat) (fd : Fin 4) (data : List UInt8) (s : Host)
    (x : Rx (Int × Host)) (n : Int) (s' : Host) : Prop where
  /-- A count says that so many bytes were accepted. -/
  sent : 0 ≤ n → n ≤ data.length ∧ Attempted d fuel fd (data.take n.toNat) s x 0 s' ∧
    (s'.tcpSockets fd).seq = (s.tcpSockets fd).seq + n.toNat.toUInt32
  /-- Where nothing was accepted, the call has failed and the sequence number is kept. -/
  refused : (∀ bytes, ¬Attempted d fuel fd bytes s x 0 s') →
    n = -1 ∧ (s'.tcpSockets fd).seq = (s.tcpSockets fd).seq

/-- What `tcp_send` does on an established socket. -/
theorem tcpSend_result {i : Int} {data : List UInt8} {n : Int} {s' : Host}
    (hslot : tcpSlot i = some fd) (hactive : (s.tcpSockets fd).active = true)
    (hstate : (s.tcpSockets fd).state = .established)
    (h : (tcpSend d fuel i data s).result = .ok (n, s')) :
    n = (data.take 4096).length ∧ ∃ r t,
      (tcpSendAttempt d fuel fd (data.take 4096) s).result = .ok (r, t) ∧
        s' = advanceSeq fd (data.take 4096).length.toUInt32 t ∧
        Attempted d fuel fd (data.take 4096) s (tcpSend d fuel i data s) r s' := by
  have hcall : tcpSend d fuel i data s =
      tcpSendSegment d (ethRxHandler d fuel) fuel fd (tcpPsh ||| tcpAck) (data.take 4096) s >>=
        fun q => pure (((data.take 4096).length : Int),
          advanceSeq fd (data.take 4096).length.toUInt32 q.2) := by
    simp only [tcpSend, hslot, hactive, hstate]
    rfl
  have hsegment : tcpSendSegment d (ethRxHandler d fuel) fuel fd (tcpPsh ||| tcpAck)
      (data.take 4096) s = Logged.emit (.transmit fd (s.tcpSockets fd).remoteIp
        (s.tcpSockets fd).remotePort (tcpPsh ||| tcpAck)) >>= fun _ =>
          tcpSendAttempt d fuel fd (data.take 4096) s := by
    rw [tcpSendSegment_eq, List.take_take, Nat.min_self]
    rfl
  rw [hcall] at h ⊢
  rcases Logged.result_bind.mp h with ⟨⟨r, t⟩, hsend, hret⟩
  cases hret
  have hattempt : (tcpSendAttempt d fuel fd (data.take 4096) s).result = .ok (r, t) := by
    rw [hsegment] at hsend
    exact hsend
  refine ⟨rfl, r, t, hattempt, rfl, ?_, t, _, hattempt, rfl⟩
  rw [Logged.bind_of_ok hsend, hsegment, Logged.bind_of_ok (a := ()) rfl, Logged.log_pure,
    List.append_nil]
  rfl

/-- The report of `tcp_send` is right exactly when the data fits one packet, the next hop
is resolved and the card takes the frame. -/
theorem send_reports_iff (d : Devices) (fuel : Nat) (i : Int) (fd : Fin 4) (data : List UInt8)
    (n : Int) (s s' : Host) (hslot : tcpSlot i = some fd)
    (hactive : (s.tcpSockets fd).active = true)
    (hstate : (s.tcpSockets fd).state = .established)
    (h : (tcpSend d fuel i data s).result = .ok (n, s')) :
    Reports d fuel fd data s (tcpSend d fuel i data s) n s' ↔ data.length ≤ 1460 ∧
      Reachable d (ethRxHandler d fuel) fuel s (s.tcpSockets fd).remoteIp := by
  rcases tcpSend_result hslot hactive hstate h with ⟨rfl, r, t, hsend, hleft, hattempted⟩
  have haccepts := ipv4Send_accepts_iff hsend
  have hseq : (t.tcpSockets fd).seq = (s.tcpSockets fd).seq :=
    RxTraces.seq (traces_ipv4Send (steady_ethRxHandler d fuel) fuel _ _ _ s) hsend fd
  rw [length_segment, List.length_take] at haccepts
  have htake : data.take (min 4096 data.length) = data.take 4096 := List.take_eq_take_min.symm
  constructor
  · intro hreports
    rcases (hreports.sent (Int.natCast_nonneg _)).2.1.result with ⟨u, seq, hu, -⟩
    rw [Int.toNat_natCast, List.length_take, htake] at hu
    cases hsend.symm.trans hu
    rcases haccepts.mp rfl with ⟨hfits, hreach⟩
    exact ⟨by omega, hreach⟩
  · rintro ⟨hfits, hreach⟩
    have hr : r = 0 := haccepts.mpr ⟨by omega, hreach⟩
    subst hr
    constructor
    · intro _
      rw [Int.toNat_natCast, List.length_take, htake]
      refine ⟨by omega, hattempted, ?_⟩
      rw [hleft, advanceSeq, setTcp_self, hseq, List.length_take]
    · -- the segment was accepted
      intro hnone
      exact absurd hattempted (hnone _)

/-- An established socket whose peer is in the ARP cache. -/
def connectedHost : Host :=
  { Host.boot (Vector.replicate 6 1) with
    ip := localIp
    subnet := 0x00FFFFFF
    arpCache := fun _ => ⟨peerIp, Vector.replicate 6 2, true⟩
    tcpSockets := fun _ => { TCPSocket.zero with
      active := true, state := .established, localIp := localIp, localPort := 49152,
      remoteIp := peerIp, remotePort := 80, seq := 5 } }

/-- The card as it is when it takes nothing. -/
def Devices.failing (d : Devices) : Devices := { d with outcome := fun _ => -1 }

theorem send_reports_iff_one : ∃ s',
    (tcpSend quietDevices 0 0 [1] connectedHost).result = .ok (1, s') ∧
      Reports quietDevices 0 0 [1] connectedHost (tcpSend quietDevices 0 0 [1] connectedHost) 1
        s' := by
  have hsend : (tcpSend quietDevices 0 0 [1] connectedHost).result.toOption.map Prod.fst =
      some 1 := by decide
  rcases Logged.exists_of_toOption hsend with ⟨s', h⟩
  refine ⟨s', h, ?_⟩
  exact (send_reports_iff quietDevices 0 0 0 [1] 1 connectedHost s' rfl rfl rfl h).mpr
    ⟨by decide, Vector.replicate 6 2, connectedHost, rfl, rfl⟩

/-- The card refuses the segment, and `tcp_send` reports the byte as sent. -/
theorem refused_segment_reported : ∃ s',
    (tcpSend quietDevices.failing 0 0 [1] connectedHost).result = .ok (1, s') ∧
      ¬Reports quietDevices.failing 0 0 [1] connectedHost
        (tcpSend quietDevices.failing 0 0 [1] connectedHost) 1 s' := by
  have hsend : (tcpSend quietDevices.failing 0 0 [1] connectedHost).result.toOption.map Prod.fst =
      some 1 := by decide
  have hattempt : (tcpSendAttempt quietDevices.failing 0 0 [1] connectedHost).result.toOption.map
      Prod.fst = some (-1) := by decide
  rcases Logged.exists_of_toOption hsend with ⟨s', h⟩
  rcases Logged.exists_of_toOption hattempt with ⟨t, ht⟩
  refine ⟨s', h, fun hreports => ?_⟩
  rcases (hreports.sent (by decide)).2.1.result with ⟨u, seq, hu, -⟩
  cases hu.symm.trans ht

end PolandOS.Net
