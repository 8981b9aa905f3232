import PolandOS.Net.Replies
import PolandOS.Net.RxQueue
import PolandOS.Net.SendReports

/-! # Datagrams on the wire

What `udp_send` hands to the card, and what the handlers of the host at the other end read
in it: `ipv4Upper_packet` takes a packet of `ipv4_send` apart again, for every protocol and
with any padding behind it, and `ethHandle_udpFrame` a frame of `udp_send`.
-/

namespace PolandOS.Net

open Logging

/-! ## What memory starts with -/

/-- The memory at `p` starts with these bytes. -/
def View.Starts (p : View) (bs : List UInt8) : Prop := p.bytes 0 bs.length = bs

theorem bytes_skip (p : View) (k offset n : Nat) :
    (p.skip k).bytes offset n = p.bytes (k + offset) n := by
  simp only [View.bytes, View.skip, Nat.add_assoc]

variable {p : View} {bs bs' : List UInt8}

theorem starts_append :
    p.Starts (bs ++ bs') ↔ p.Starts bs ∧ (p.skip bs.length).Starts bs' := by
  unfold View.Starts
  rw [List.length_append, bytes_append, bytes_skip, Nat.zero_add, Nat.add_zero]
  constructor
  · intro h
    exact List.append_inj h (length_bytes ..)
  · rintro ⟨h, h'⟩
    rw [h, h']

theorem View.Starts.apply (h : p.Starts bs) {i : Nat} (hi : i < bs.length) : p i = bs[i] := by
  have hget := List.getElem_of_eq h.symm hi
  rw [hget]
  simp [View.bytes]

/-- A word of a packet, from its bytes. -/
theorem View.Starts.u16 (h : p.Starts bs) {i : Nat} {v : UInt16} (hi : i + 1 < bs.length)
    (hlow : bs[i] = v.toUInt8) (hhigh : bs[i + 1] = (v >>> 8).toUInt8) : p.u16 i = v := by
  rw [View.u16, h.apply (Nat.lt_of_succ_lt hi), h.apply hi, hlow, hhigh, load16_u16Bytes]

theorem View.Starts.u32 (h : p.Starts bs) {i : Nat} {v : UInt32} (hi : i + 3 < bs.length)
    (hbytes : bs[i] = v.toUInt8 ∧ bs[i + 1] = (v >>> 8).toUInt8 ∧
      bs[i + 2] = (v >>> 16).toUInt8 ∧ bs[i + 3] = (v >>> 24).toUInt8) : p.u32 i = v := by
  rw [View.u32, h.apply (by omega), h.apply (by omega), h.apply (by omega), h.apply hi, hbytes.1,
    hbytes.2.1, hbytes.2.2.1, hbytes.2.2.2, load32_u32Bytes]

/-! ## Packets -/

/-- The packet that `ipv4_send` builds. -/
def ipv4Packet (id : UInt16) (protocol : UInt8) (src dst : UInt32) (payload : List UInt8) :
    List UInt8 :=
  let header := ipv4Header (20 + payload.length).toUInt16 id protocol
  header (ipChecksum (header 0 src dst)) src dst ++ payload

variable {id : UInt16} {protocol : UInt8} {src dst : UInt32} {payload : List UInt8}

theorem length_ipv4Packet :
    (ipv4Packet id protocol src dst payload).length = 20 + payload.length := by
  rw [ipv4Packet, List.length_append, length_ipv4Header]

/-- What `ipv4_rx_handler` reads of a header. -/
structure HeaderAt (p : View) (totalLen : UInt16) (protocol : UInt8) (cksum : UInt16)
    (src dst : UInt32) : Prop where
  version : p 0 = 0x45
  total : ntohs (p.u16 2) = totalLen
  protocol : p 9 = protocol
  checksum : p.u16 10 = cksum
  src : p.u32 12 = src
  dst : p.u32 16 = dst

theorem headerAt {totalLen cksum : UInt16}
    (h : p.Starts (ipv4Header totalLen id protocol cksum src dst)) :
    HeaderAt p totalLen protocol cksum src dst where
  version := h.apply (show 0 < 20 by decide)
  total := by
    have hword : p.u16 2 = htons totalLen := h.u16 (show 3 < 20 by decide) rfl rfl
    rw [hword, ntohs_htons]
  protocol := h.apply (show 9 < 20 by decide)
  checksum := h.u16 (show 11 < 20 by decide) rfl rfl
  src := h.u32 (show 15 < 20 by decide) ⟨rfl, rfl, rfl, rfl⟩
  dst := h.u32 (show 19 < 20 by decide) ⟨rfl, rfl, rfl, rfl⟩

/-- `ipv4_rx_handler` finds in a packet what `ipv4_send` has put into it, whatever is behind
the packet. -/
theorem ipv4Upper_packet {len : UInt16} (hp : p.Starts (ipv4Packet id protocol src dst payload))
    (hpayload : payload.length ≤ 1480) (hlen : 20 + payload.length ≤ len.toNat) :
    ipv4Upper p len = some ⟨protocol, src, dst, 20, payload.length.toUInt16⟩ ∧
      (p.skip 20).Starts payload := by
  have htotal : (20 + payload.length).toUInt16.toNat = 20 + payload.length :=
    Nat.mod_eq_of_lt (by omega)
  obtain ⟨hheader, hskip⟩ := starts_append.1 hp
  refine ⟨?_, hskip⟩
  have hat := headerAt hheader
  have hihl : ipv4HeaderLen p = 20 := by
    rw [ipv4HeaderLen, hat.version]
    rfl
  have hbytes : p.bytes 0 20 = ipv4Header _ id protocol _ src dst := hheader
  -- the checksum is computed over what it was computed over before
  have hcleared : ((p.bytes 0 20).set 10 0).set 11 0 =
      ipv4Header (20 + payload.length).toUInt16 id protocol 0 src dst := by
    rw [hbytes]
    rfl
  have hshort : ¬len < 20 := by
    rw [UInt16.lt_iff_toNat_lt]
    change ¬len.toNat < 20
    omega
  have hfits : ¬(20 + payload.length).toUInt16 > len := by
    rw [gt_iff_lt, UInt16.lt_iff_toNat_lt, htotal]
    omega
  have hsub : (20 + payload.length).toUInt16 - 20 = payload.length.toUInt16 := by
    apply UInt16.toNat_inj.1
    have hpayload16 : payload.length.toUInt16.toNat = payload.length := Nat.mod_eq_of_lt (by omega)
    have hle : (20 : UInt16) ≤ (20 + payload.length).toUInt16 := by
      rw [UInt16.le_iff_toNat_le, htotal]
      exact Nat.le_add_right ..
    rw [UInt16.toNat_sub_of_le _ _ hle, htotal, hpayload16]
    exact Nat.add_sub_cancel_left ..
  unfold ipv4Upper
  rw [hihl, hat.version, hat.total, hat.protocol, hat.checksum, hat.src, hat.dst, if_neg hshort,
    if_neg (by decide), if_neg (by simp [hshort]), if_neg, if_neg hfits, hsub]
  exact not_not.2 (congrArg ipChecksum hcleared)

/-! ## Datagrams -/

/-- The socket that `udp_rx_handler` finds for a port. -/
def boundTo (s : Host) (port : UInt16) : Option (Fin 8) :=
  (List.finRange 8).find? fun i => (s.udpSockets i).active && (s.udpSockets i).localPort == port

variable {srcPort dstPort cksum : UInt16} {data : List UInt8} {s : Host}

/-- `udp_rx_handler` leaves in the socket what `udp_send` has put into the datagram. -/
theorem udpRxHandler_datagram {len : UInt16} (hlen : len.toNat = 8 + data.length)
    (hp : p.Starts (udpHeader srcPort dstPort len cksum ++ data)) (hdata : data.length ≤ 1500)
    {i : Fin 8} (hi : boundTo s dstPort = some i) :
    udpRxHandler src p len s =
      ⟨[.copy .udpRecv 0 data.length, .datagram i src srcPort data],
        .ok (s.setUdp i ((s.udpSockets i).deliver src srcPort data))⟩ := by
  obtain ⟨hheader, hskip⟩ := starts_append.1 hp
  have hsrc : ntohs (p.u16 0) = srcPort := by
    have hword : p.u16 0 = htons srcPort := hheader.u16 (show 1 < 8 by decide) rfl rfl
    rw [hword, ntohs_htons]
  have hdst : ntohs (p.u16 2) = dstPort := by
    have hword : p.u16 2 = htons dstPort := hheader.u16 (show 3 < 8 by decide) rfl rfl
    rw [hword, ntohs_htons]
  have hbytes : p.bytes 8 data.length = data := by
    have h := hskip
    unfold View.Starts at h
    rwa [bytes_skip] at h
  have hlong : ¬len < 8 := by
    rw [UInt16.lt_iff_toNat_lt, hlen]
    exact Nat.not_lt.2 (Nat.le_add_right ..)
  have hsub : (len - 8).toNat = data.length := by
    rw [UInt16.toNat_sub_of_le _ _ (UInt16.not_lt.1 hlong), hlen]
    exact Nat.add_sub_cancel_left ..
  have hwhole : ¬len - 8 > 1500 := by
    rw [gt_iff_lt, UInt16.lt_iff_toNat_lt, hsub]
    exact Nat.not_lt.2 hdata
  have hcount : len - 8 = data.length.toUInt16 := by
    rw [← hsub, Nat.toUInt16_eq, UInt16.ofNat_toNat]
  unfold boundTo at hi
  unfold udpRxHandler
  rw [if_neg hlong, if_neg hwhole]
  dsimp only
  rw [hdst, hi, hsrc, hsub, hbytes, hcount]
  rfl

/-! ## Frames -/

/-- The frame of a datagram. -/
def udpFrame (dstMac srcMac : Mac) (id : UInt16) (src dst : UInt32) (srcPort dstPort : UInt16)
    (data : List UInt8) : List UInt8 :=
  let header := udpHeader srcPort dstPort (8 + data.length).toUInt16
  let cksum := udpChecksum src dst (header 0 ++ data)
  dstMac.toList ++ srcMac.toList ++ u16Bytes (htons ethTypeIpv4) ++
    ipv4Packet id ipProtoUdp src dst (header cksum ++ data)

variable {dstMac srcMac : Mac} {d : Devices} {rx : Receiver} {fuel : Nat}

theorem ipv4Log_result (p : View) (len : UInt16) : (ipv4Log p len).result = .ok () := by
  unfold ipv4Log
  split <;> rfl

theorem starts_of_contents {pkt : NetPacket} (h : pkt.contents = bs ++ bs') :
    pkt.data.Starts bs ∧ bs.length ≤ pkt.len.toNat := by
  have hlen : pkt.len.toNat = bs.length + bs'.length := by
    rw [← List.length_append, ← h, NetPacket.contents, length_bytes]
  have hstarts : pkt.data.Starts (bs ++ bs') := by
    unfold View.Starts
    rw [List.length_append, ← hlen]
    exact h
  exact ⟨(starts_append.1 hstarts).1, by omega⟩

/-- `eth_rx_handler` cuts the padding and leaves the datagram in the socket that is bound to
its port. -/
theorem ethHandle_udpFrame {pkt : NetPacket} {padding : List UInt8}
    (h : pkt.contents = udpFrame dstMac srcMac id src dst srcPort dstPort data ++ padding)
    (hdata : data.length ≤ 1472) {i : Fin 8} (hi : boundTo s dstPort = some i) :
    ∃ log, ethHandle d rx fuel pkt s = ⟨log ++ [.datagram i src srcPort data],
      .ok (s.setUdp i ((s.udpSockets i).deliver src srcPort data))⟩ := by
  obtain ⟨hframe, hlen⟩ := starts_of_contents h
  unfold udpFrame at hframe hlen
  dsimp only at hframe hlen
  generalize hpayload : udpHeader srcPort dstPort (8 + data.length).toUInt16 _ ++ data = payload
    at hframe hlen
  have hcount : payload.length = 8 + data.length := by
    rw [← hpayload, List.length_append]
    rfl
  have hmacs : (dstMac.toList ++ srcMac.toList).length = 12 := by simp
  obtain ⟨hstart, hpacket⟩ := starts_append.1 hframe
  rw [List.length_append, hmacs] at hpacket
  change (pkt.data.skip 14).Starts _ at hpacket
  -- the type field behind both addresses
  have htype : ntohs (pkt.data.u16 12) = ethTypeIpv4 := by
    have hword := (starts_append.1 hstart).2
    rw [hmacs] at hword
    have hread : (pkt.data.skip 12).u16 0 = htons ethTypeIpv4 :=
      hword.u16 (show 1 < 2 by decide) rfl rfl
    change pkt.data.u16 12 = _ at hread
    rw [hread, ntohs_htons]
  rw [List.length_append, List.length_append, hmacs, length_ipv4Packet] at hlen
  change 12 + 2 + (20 + payload.length) ≤ _ at hlen
  have hlong : ¬pkt.len < 14 := by
    rw [UInt16.lt_iff_toNat_lt]
    change ¬pkt.len.toNat < 14
    omega
  have hsub : (pkt.len - 14).toNat = pkt.len.toNat - 14 :=
    UInt16.toNat_sub_of_le _ _ (UInt16.not_lt.1 hlong)
  obtain ⟨hupper, hdatagram⟩ : ipv4Upper (pkt.data.skip 14) (pkt.len - 14) = some _ ∧ _ :=
    ipv4Upper_packet hpacket (by omega) (by omega)
  have hnat : (8 + data.length).toUInt16.toNat = 8 + data.length := Nat.mod_eq_of_lt (by omega)
  rw [← hpayload] at hdatagram
  -- the padding of the frame is behind the total length, and is not seen
  have hdispatch : Upper.dispatch d rx fuel ⟨ipProtoUdp, src, dst, 20, payload.length.toUInt16⟩
      (pkt.data.skip 14) s = ⟨[.copy .udpRecv 0 data.length, .datagram i src srcPort data],
        .ok (s.setUdp i ((s.udpSockets i).deliver src srcPort data))⟩ := by
    rw [Upper.dispatch, if_neg (show ¬ipProtoUdp = ipProtoIcmp by decide), if_pos rfl, hcount]
    exact udpRxHandler_datagram hnat hdatagram (by omega) hi
  refine ⟨(ipv4Log (pkt.data.skip 14) (pkt.len - 14)).log ++ [.copy .udpRecv 0 data.length], ?_⟩
  unfold ethHandle
  rw [if_neg hlong]
  dsimp only
  rw [htype, if_neg (by decide), if_pos rfl, ipv4RxHandler_eq, hupper,
    Logged.bind_of_ok (ipv4Log_result ..), List.append_assoc]
  dsimp only
  rw [hdispatch]
  rfl

/-! ## What is sent -/

/-- The frame carries a datagram. -/
def CarriesUdp (frame : List UInt8) : Prop :=
  frame[12]? = some 0x08 ∧ frame[13]? = some 0x00 ∧ frame[23]? = some ipProtoUdp

instance (frame : List UInt8) : Decidable (CarriesUdp frame) :=
  inferInstanceAs (Decidable (_ ∧ _))

/-- No datagram is handed to the card. -/
def NetEvent.NoDatagram : NetEvent → Prop
  | .frame bytes => ¬CarriesUdp bytes
  | _ => True

/-- What stands behind the two addresses. -/
theorem getElem?_behind_macs (dst src : Mac) (bs : List UInt8) (i : Nat) :
    (dst.toList ++ src.toList ++ bs)[12 + i]? = bs[i]? := by
  rw [List.getElem?_append_right (by simp)]
  simp

theorem noDatagram_arp (dst : Mac) (payload : List UInt8) (s : Host) :
    (ethSend d dst ethTypeArp payload s).All NetEvent.NoDatagram := by
  unfold ethSend
  split
  · exact Logged.all_pure _
  · refine Logged.all_bind.2 ⟨Logged.all_emit.2 ?_, fun _ _ => Logged.all_pure _⟩
    rintro ⟨-, hlow, -⟩
    rw [List.append_assoc] at hlow
    have hbyte := getElem?_behind_macs dst s.mac (u16Bytes (htons ethTypeArp) ++ payload) 1
    rw [hbyte] at hlow
    cases hlow

/-- The protocol of a packet is not UDP. -/
theorem noDatagram_ipv4 (dst : Mac) {protocol : UInt8} (hprotocol : protocol ≠ ipProtoUdp)
    (totalLen id cksum : UInt16) (srcIp dstIp : UInt32) (payload : List UInt8) (s : Host) :
    (ethSend d dst ethTypeIpv4
      (ipv4Header totalLen id protocol cksum srcIp dstIp ++ payload) s).All
      NetEvent.NoDatagram := by
  unfold ethSend
  split
  · exact Logged.all_pure _
  · refine Logged.all_bind.2 ⟨Logged.all_emit.2 ?_, fun _ _ => Logged.all_pure _⟩
    rintro ⟨-, -, hudp⟩
    rw [List.append_assoc] at hudp
    have hbyte := getElem?_behind_macs dst s.mac (u16Bytes (htons ethTypeIpv4) ++
      (ipv4Header totalLen id protocol cksum srcIp dstIp ++ payload)) 11
    rw [hbyte] at hudp
    exact hprotocol (Option.some.inj hudp)

/-- The computation hands no datagram to the card. -/
abbrev SendsNone {α : Type} (x : Rx α) : Prop := x.All NetEvent.NoDatagram

theorem sendsNone_ite {α : Type} {c : Prop} [Decidable c] {x y : Rx α} (hx : c → SendsNone x)
    (hy : ¬c → SendsNone y) : SendsNone (if c then x else y) := by
  split
  case isTrue h => exact hx h
  case isFalse h => exact hy h

theorem sendsNone_bind {α β : Type} {x : Rx α} {f : α → Rx β} (hx : SendsNone x)
    (hf : ∀ a, SendsNone (f a)) : SendsNone (x >>= f) :=
  Logged.all_bind.2 ⟨hx, fun a _ => hf a⟩

theorem sendsNone_emit {α : Type} {e : NetEvent} {y : Rx α} (he : e.NoDatagram)
    (hy : SendsNone y) : SendsNone (Logged.emit e >>= fun _ => y) :=
  sendsNone_bind (Logged.all_emit.2 he) fun _ => hy

theorem sendsNone_netRxEnqueue (data : List UInt8) (s : Host) :
    SendsNone (netRxEnqueue data s) :=
  sendsNone_ite (fun _ => Logged.all_pure _) fun _ => sendsNone_emit trivial (Logged.all_pure _)

/-- The receiver hands no datagram to the card. -/
def Silent (rx : Receiver) : Prop := ∀ pkt s, SendsNone (rx pkt s)

theorem sendsNone_drainQueue (hrx : Silent rx) (fuel : Nat) (s : Host) :
    SendsNone (drainQueue rx fuel s) := by
  induction fuel generalizing s with
  | zero => exact Logged.all_stop _
  | succ fuel ih =>
      unfold drainQueue
      split
      · exact Logged.all_pure _
      · exact sendsNone_bind (hrx _ _) ih

theorem sendsNone_arpWait (hrx : Silent rx) (ip : UInt32) (deadline : UInt64) (fuel : Nat)
    (s : Host) : SendsNone (arpWait d rx ip deadline fuel s) := by
  induction fuel generalizing s with
  | zero => exact Logged.all_stop _
  | succ fuel ih =>
      unfold arpWait
      refine sendsNone_ite (fun _ => Logged.all_pure _) fun _ => ?_
      refine sendsNone_bind ?_ fun t => ?_
      · split
        · exact sendsNone_bind (sendsNone_netRxEnqueue _ _) (sendsNone_drainQueue hrx fuel)
        · exact Logged.all_pure _
      · split
        · exact Logged.all_pure _
        · exact ih t

theorem sendsNone_arpResolve (hrx : Silent rx) (fuel : Nat) (ip : UInt32) (s : Host) :
    SendsNone (arpResolve d rx fuel ip s) := by
  unfold arpResolve
  split
  · exact Logged.all_pure _
  · refine sendsNone_emit trivial (sendsNone_bind ?_ fun t => sendsNone_arpWait hrx ip _ fuel _)
    exact sendsNone_bind (noDatagram_arp _ _ _) fun _ => Logged.all_pure _

theorem sendsNone_ipv4Send (hrx : Silent rx) {protocol : UInt8}
    (hprotocol : protocol ≠ ipProtoUdp) (fuel : Nat) (dst : UInt32) (payload : List UInt8)
    (s : Host) : SendsNone (ipv4Send d rx fuel dst protocol payload s) := by
  refine sendsNone_ite (fun _ => Logged.all_pure _) fun _ => ?_
  refine sendsNone_bind (sendsNone_arpResolve hrx fuel _ s) ?_
  rintro ⟨resolved, t⟩
  cases resolved with
  | none => exact Logged.all_pure _
  | some mac => exact noDatagram_ipv4 mac hprotocol _ _ _ _ _ _ _

/-! ### The handlers -/

theorem sendsNone_sendAck (hrx : Silent rx) (fuel : Nat) (fd : Fin 4) (s : Host) :
    SendsNone (sendAck d rx fuel fd s) :=
  sendsNone_bind (sendsNone_emit trivial (sendsNone_ipv4Send hrx (by decide) fuel _ _ s))
    fun _ => Logged.all_pure _

theorem sendsNone_assignState (fd : Fin 4) (cause : Cause) (new : TCPState) (s : Host) :
    SendsNone (assignState fd cause new s) := sendsNone_emit trivial (Logged.all_pure _)

theorem sendsNone_deactivate (fd : Fin 4) (cause : Cause) (s : Host) :
    SendsNone (deactivate fd cause s) :=
  sendsNone_bind (sendsNone_assignState fd cause .closed s) fun _ => Logged.all_pure _

theorem sendsNone_tcpLastFin (hrx : Silent rx) (fd : Fin 4) (arrival : TCPState) (seg : Segment)
    (s : Host) : SendsNone (tcpLastFin d rx fuel fd arrival seg s) :=
  sendsNone_bind (sendsNone_sendAck hrx fuel fd _) fun t => sendsNone_assignState fd _ _ t

theorem sendsNone_tcpEstablished (hrx : Silent rx) (fd : Fin 4) (seg : Segment) (s : Host) :
    SendsNone (tcpEstablished d rx fuel fd seg s) := by
  unfold tcpEstablished
  refine sendsNone_ite (fun _ => Logged.all_pure _) fun _ => ?_
  refine sendsNone_bind ?_ fun t => ?_
  · refine sendsNone_ite (fun _ => ?_) fun _ => Logged.all_pure _
    exact sendsNone_bind
      (sendsNone_emit trivial (sendsNone_emit trivial (Logged.all_pure _)))
      (sendsNone_sendAck hrx fuel fd)
  · refine sendsNone_ite (fun _ => ?_) fun _ => Logged.all_pure _
    exact sendsNone_bind (sendsNone_assignState fd _ _ _) (sendsNone_sendAck hrx fuel fd)

theorem sendsNone_tcpArrival (hrx : Silent rx) (fd : Fin 4) (seg : Segment) (s : Host) :
    SendsNone (tcpArrival d rx fuel fd seg s) := by
  refine sendsNone_ite (fun _ => sendsNone_deactivate fd _ s) fun _ => ?_
  split
  · refine sendsNone_ite (fun _ => Logged.all_pure _) fun _ => ?_
    refine sendsNone_ite (fun _ => Logged.all_pure _) fun _ => ?_
    exact sendsNone_bind (sendsNone_assignState fd _ _ _) (sendsNone_sendAck hrx fuel fd)
  · exact sendsNone_tcpEstablished hrx fd seg s
  · refine sendsNone_bind ?_ fun t => ?_
    · exact sendsNone_ite (fun _ => sendsNone_assignState fd _ _ s) fun _ => Logged.all_pure _
    · exact sendsNone_ite (fun _ => sendsNone_tcpLastFin hrx fd _ seg t) fun _ => Logged.all_pure _
  · exact sendsNone_ite (fun _ => sendsNone_tcpLastFin hrx fd _ seg s) fun _ => Logged.all_pure _
  · exact Logged.all_pure _
  · exact sendsNone_ite (fun _ => sendsNone_deactivate fd _ s) fun _ => Logged.all_pure _
  · exact sendsNone_deactivate fd _ s
  · exact Logged.all_pure _

theorem sendsNone_tcpRxHandler (hrx : Silent rx) (srcIp dstIp : UInt32) (p : View) (len : UInt16)
    (s : Host) : SendsNone (tcpRxHandler d rx fuel srcIp dstIp p len s) := by
  refine sendsNone_ite (fun _ => Logged.all_pure _) fun _ => ?_
  refine sendsNone_ite (fun _ => Logged.all_pure _) fun _ => ?_
  refine sendsNone_ite (fun _ => Logged.all_pure _) fun _ => ?_
  refine sendsNone_emit trivial (sendsNone_ite (fun _ => Logged.all_pure _) fun _ => ?_)
  dsimp only
  split
  · exact Logged.all_pure _
  · exact sendsNone_tcpArrival hrx _ _ s

theorem sendsNone_icmpRxHandler (hrx : Silent rx) (srcIp : UInt32) (p : View) (len : UInt16)
    (s : Host) : SendsNone (icmpRxHandler d rx fuel srcIp p len s) := by
  refine sendsNone_ite (fun _ => Logged.all_pure _) fun _ => ?_
  refine sendsNone_ite (fun _ => ?_) fun _ => ?_
  · refine sendsNone_ite (fun _ => Logged.all_pure _) fun _ => sendsNone_emit trivial ?_
    exact sendsNone_bind (sendsNone_ipv4Send hrx (by decide) fuel _ _ s) fun _ => Logged.all_pure _
  · exact sendsNone_ite (fun _ => Logged.all_pure _) fun _ => Logged.all_pure _

theorem sendsNone_arpRxHandler (p : View) (len : UInt16) (s : Host) :
    SendsNone (arpRxHandler d p len s) := by
  refine sendsNone_ite (fun _ => Logged.all_pure _) fun _ => ?_
  refine sendsNone_ite (fun _ => Logged.all_pure _) fun _ => ?_
  refine sendsNone_bind (sendsNone_emit trivial ?_) fun t => ?_
  · split
    · exact Logged.all_pure _
    · split <;> exact Logged.all_pure _
  · refine sendsNone_ite (fun _ => ?_) fun _ => Logged.all_pure _
    exact sendsNone_bind (noDatagram_arp _ _ t) fun _ => Logged.all_pure _

theorem sendsNone_udpRxHandler (srcIp : UInt32) (p : View) (len : UInt16) (s : Host) :
    SendsNone (udpRxHandler srcIp p len s) := by
  refine sendsNone_ite (fun _ => Logged.all_pure _) fun _ => ?_
  dsimp only
  split
  · exact Logged.all_pure _
  · exact sendsNone_emit trivial (sendsNone_emit trivial (Logged.all_pure _))

theorem sendsNone_ipv4RxHandler (hrx : Silent rx) (p : View) (len : UInt16) (s : Host) :
    SendsNone (ipv4RxHandler d rx fuel p len s) := by
  rw [ipv4RxHandler_eq]
  refine sendsNone_bind (sendsNone_emit trivial ?_) fun _ => ?_
  · split
    · exact Logged.all_emit.2 trivial
    · exact Logged.all_pure _
  · split
    · exact Logged.all_pure _
    · refine sendsNone_ite (fun _ => sendsNone_icmpRxHandler hrx _ _ _ s) fun _ => ?_
      refine sendsNone_ite (fun _ => sendsNone_udpRxHandler _ _ _ s) fun _ => ?_
      exact sendsNone_ite (fun _ => sendsNone_tcpRxHandler hrx _ _ _ _ s)
        fun _ => Logged.all_pure _

theorem sendsNone_ethHandle (hrx : Silent rx) (pkt : NetPacket) (s : Host) :
    SendsNone (ethHandle d rx fuel pkt s) := by
  refine sendsNone_ite (fun _ => Logged.all_pure _) fun _ => ?_
  refine sendsNone_ite (fun _ => sendsNone_arpRxHandler _ _ s) fun _ => ?_
  exact sendsNone_ite (fun _ => sendsNone_ipv4RxHandler hrx _ _ s) fun _ => Logged.all_pure _

/-- Handling a frame never sends a datagram. -/
theorem silent_ethRxHandler (d : Devices) (fuel : Nat) : Silent (ethRxHandler d fuel) := by
  induction fuel with
  | zero => exact fun _ _ => Logged.all_stop _
  | succ fuel ih =>
      intro pkt s
      refine sendsNone_emit trivial (sendsNone_bind (sendsNone_ethHandle ih pkt s) fun t => ?_)
      exact sendsNone_emit trivial (Logged.all_pure _)

/-! ### `udp_send` -/

theorem MailStep.ip {M M' : Mail} {es : List NetEvent} (h : MailStep M es M') : M'.ip = M.ip := by
  cases h <;> rfl

/-- Handling frames does not change the address of the host. -/
theorem MailTraces.ip {α : Type} {v : α → Host} {x : Rx α} (h : MailTraces v x s) {a : α}
    (ha : x.result = .ok a) : (v a).ip = s.ip :=
  (h.star ha).invariant (I := fun M => M.ip = s.ip) (fun _ _ _ hM hstep => hstep.ip.trans hM) rfl

/-- A datagram that `udp_send` hands to the card is its own, and says where it comes from. -/
theorem udpSend_frame {i : Int} {fd : Fin 8} (hslot : udpSlot i = some fd) {port : UInt16}
    {frame : List UInt8} (h : .frame frame ∈ (udpSend d fuel i dst port data s).log)
    (hudp : CarriesUdp frame) : data.length ≤ 1472 ∧ ∃ dstMac srcMac id,
      frame = udpFrame dstMac srcMac id s.ip dst (s.udpSockets fd).localPort port data := by
  unfold udpSend at h
  rw [hslot] at h
  dsimp only at h
  split at h
  · cases h
  split at h
  · cases h
  next hdata =>
    refine ⟨Nat.le_of_not_lt hdata, ?_⟩
    unfold ipv4Send at h
    split at h
    · cases h
    rcases Logged.mem_log_bind.1 h with hwait | ⟨⟨resolved, t⟩, hres, hsend⟩
    · -- what is sent to find the next hop is no datagram
      exact absurd hudp
        (sendsNone_arpResolve (silent_ethRxHandler d fuel) fuel _ s _ hwait)
    · have hip : t.ip = s.ip :=
        (mail_arpResolve (delivers_ethRxHandler d fuel) fuel _ s).ip hres
      cases resolved with
      | none => cases hsend
      | some mac =>
          dsimp only at hsend
          unfold ethSend at hsend
          split at hsend
          · cases hsend
          · refine ⟨mac, t.mac, t.ipIdCounter, ?_⟩
            have hframe := List.mem_singleton.1 hsend
            cases hframe
            rw [← hip]
            rfl

end PolandOS.Net
