import PolandOS.Net.Sockets

/-! # What the upper layers are given

`ipv4_rx_handler` compares the header length with the frame and the total length with
the frame, but not with each other before it subtracts them. `upper_payload_iff` says
when the handlers above get the payload of the datagram.
-/

namespace PolandOS.Net

open Logging

/-! ## The slice that is handed on -/

/-- A datagram on its way to `icmp_rx_handler`, `udp_rx_handler` or `tcp_rx_handler`: where
its payload starts, and its length. -/
structure Upper where
  protocol : UInt8
  srcIp : UInt32
  dstIp : UInt32
  ihl : UInt16
  len : UInt16
deriving DecidableEq

/-- The checks of `ipv4_rx_handler`, and what it hands on behind them. -/
def ipv4Upper (p : View) (len : UInt16) : Option Upper :=
  if len < 20 then none
  else if p 0 >>> 4 ≠ 4 then none
  else if ipv4HeaderLen p < 20 ∨ ipv4HeaderLen p > len then none
  else if ipChecksum (((p.bytes 0 (ipv4HeaderLen p).toNat).set 10 0).set 11 0) ≠ p.u16 10 then none
  else if ntohs (p.u16 2) > len then none
  else some ⟨p 9, p.u32 12, p.u32 16, ipv4HeaderLen p, ntohs (p.u16 2) - ipv4HeaderLen p⟩

/-- The `switch` at the end of `ipv4_rx_handler`. -/
def Upper.dispatch (d : Devices) (rx : Receiver) (fuel : Nat) (u : Upper) (p : View) (s : Host) :
    Rx Host :=
  if u.protocol = ipProtoIcmp then icmpRxHandler d rx fuel u.srcIp (p.skip u.ihl.toNat) u.len s
  else if u.protocol = ipProtoUdp then udpRxHandler u.srcIp (p.skip u.ihl.toNat) u.len s
  else if u.protocol = ipProtoTcp then
    tcpRxHandler d rx fuel u.srcIp u.dstIp (p.skip u.ihl.toNat) u.len s
  else return s

/-- What `ipv4_rx_handler` logs before the `switch`. -/
def ipv4Log (p : View) (len : UInt16) : Rx Unit := do
  Logged.emit (.ipv4 p len)
  if ¬len < 20 ∧ p 0 >>> 4 = 4 ∧ ¬(ipv4HeaderLen p < 20 ∨ ipv4HeaderLen p > len) then
    Logged.emit (.copy .headerTmp 0 (ipv4HeaderLen p).toNat)
  else return ()

/-- `ipv4_rx_handler` hands on that slice, or drops the datagram. -/
theorem ipv4RxHandler_eq (d : Devices) (rx : Receiver) (fuel : Nat) (p : View) (len : UInt16)
    (s : Host) : ipv4RxHandler d rx fuel p len s = (do
      ipv4Log p len
      match ipv4Upper p len with
      | none => return s
      | some u => u.dispatch d rx fuel p s) := by
  unfold ipv4RxHandler ipv4Log ipv4Upper
  by_cases hlen : len < 20
  · simp [hlen]
    rfl
  by_cases hversion : p 0 >>> 4 = 4
  swap
  · simp [hlen, hversion]
    rfl
  by_cases hihl : ipv4HeaderLen p < 20 ∨ ipv4HeaderLen p > len
  · simp [hlen, hversion, hihl]
    rfl
  by_cases hcksum : ipChecksum (((p.bytes 0 (ipv4HeaderLen p).toNat).set 10 0).set 11 0) = p.u16 10
  swap
  · simp [hlen, hversion, hihl, hcksum]
    rfl
  by_cases htotal : ntohs (p.u16 2) > len
  · simp [hlen, hversion, hihl, hcksum, htotal]
    rfl
  · simp [hlen, hversion, hihl, hcksum, htotal]
    rfl

/-! ## What the handlers read -/

variable {d : Devices} {rx : Receiver} {fuel : Nat} {p q : View} {n : Nat}

theorem bytes_congr {offset len : Nat} (h : ∀ i < n, q i = p i) (hle : offset + len ≤ n) :
    q.bytes offset len = p.bytes offset len := by
  unfold View.bytes
  refine List.map_congr_left fun i hi => h _ ?_
  have := List.mem_range.mp hi
  omega

theorem u16_congr {offset : Nat} (h : ∀ i < n, q i = p i) (hle : offset + 2 ≤ n) :
    q.u16 offset = p.u16 offset := by
  rw [View.u16, View.u16, h offset (by omega), h (offset + 1) (by omega)]

theorem u32_congr {offset : Nat} (h : ∀ i < n, q i = p i) (hle : offset + 4 ≤ n) :
    q.u32 offset = p.u32 offset := by
  rw [View.u32, View.u32, h offset (by omega), h (offset + 1) (by omega), h (offset + 2) (by omega),
    h (offset + 3) (by omega)]

/-- `icmp_rx_handler` reads nothing behind the `len` bytes that it is given. -/
theorem icmpRxHandler_congr {len : UInt16} (h : ∀ i < len.toNat, q i = p i) (srcIp : UInt32)
    (s : Host) : icmpRxHandler d rx fuel srcIp q len s = icmpRxHandler d rx fuel srcIp p len s := by
  unfold icmpRxHandler
  by_cases hlen : len < 8
  · rw [if_pos hlen, if_pos hlen]
  · have hle := UInt16.le_iff_toNat_le.mp (UInt16.not_lt.mp hlen)
    change 8 ≤ len.toNat at hle
    rw [if_neg hlen, if_neg hlen, h 0 (by omega), bytes_congr h (by omega), u16_congr h (by omega)]

theorem udpRxHandler_congr {len : UInt16} (h : ∀ i < len.toNat, q i = p i) (srcIp : UInt32)
    (s : Host) : udpRxHandler srcIp q len s = udpRxHandler srcIp p len s := by
  unfold udpRxHandler
  by_cases hlen : len < 8
  · rw [if_pos hlen, if_pos hlen]
  · have hle := UInt16.le_iff_toNat_le.mp (UInt16.not_lt.mp hlen)
    change 8 ≤ len.toNat at hle
    have hsub : (len - 8).toNat = len.toNat - 8 :=
      UInt16.toNat_sub_of_le _ _ (UInt16.not_lt.mp hlen)
    -- the data is cut, never extended
    have hdata : (if len - 8 > 1500 then 1500 else len - 8).toNat ≤ len.toNat - 8 := by
      split
      next hgt =>
        have := UInt16.lt_iff_toNat_lt.mp hgt
        change 1500 < _ at this
        change 1500 ≤ _
        omega
      next => exact hsub.le
    rw [if_neg hlen, if_neg hlen]
    dsimp only
    rw [u16_congr h (by omega), u16_congr h (by omega), bytes_congr h (by omega)]

theorem tcpRxHandler_congr {len : UInt16} (h : ∀ i < len.toNat, q i = p i) (srcIp dstIp : UInt32)
    (s : Host) :
    tcpRxHandler d rx fuel srcIp dstIp q len s = tcpRxHandler d rx fuel srcIp dstIp p len s := by
  unfold tcpRxHandler
  by_cases hlen : len < 20
  · rw [if_pos hlen, if_pos hlen]
  · have hle := UInt16.le_iff_toNat_le.mp (UInt16.not_lt.mp hlen)
    change 20 ≤ len.toNat at hle
    have hheader : tcpHeaderLen q = tcpHeaderLen p := by
      rw [tcpHeaderLen, tcpHeaderLen, h 12 (by omega)]
    rw [if_neg hlen, if_neg hlen, hheader]
    by_cases hoffset : tcpHeaderLen p < 20 ∨ (tcpHeaderLen p).toNat > len.toNat
    · rw [if_pos hoffset, if_pos hoffset]
    · have hsegment : segmentAt srcIp q len = segmentAt srcIp p len := by
        rw [segmentAt, segmentAt, hheader, u16_congr h (by omega), u16_congr h (by omega),
          u32_congr h (by omega), u32_congr h (by omega), h 13 (by omega),
          bytes_congr h (by omega)]
      rw [if_neg hoffset, if_neg hoffset, bytes_congr h (by omega), u16_congr h (by omega), hsegment]

/-- No handler reads behind the slice that it is given. -/
theorem Upper.dispatch_congr {u : Upper} (h : ∀ i < u.len.toNat, q (u.ihl.toNat + i) =
    p (u.ihl.toNat + i)) (s : Host) : u.dispatch d rx fuel q s = u.dispatch d rx fuel p s := by
  have hskip : ∀ i < u.len.toNat, q.skip u.ihl.toNat i = p.skip u.ihl.toNat i := h
  unfold Upper.dispatch
  rw [icmpRxHandler_congr hskip, udpRxHandler_congr hskip, tcpRxHandler_congr hskip]

/-! ## The payload -/

/-- The total length that the datagram at `p` claims. -/
def ipv4TotalLen (p : View) : UInt16 := ntohs (p.u16 2)

/-- What is handed on is the payload of the datagram, and nothing else is read. -/
structure ExactSlice (p : View) (len : UInt16) (u : Upper) : Prop where
  header : 20 ≤ u.ihl
  total : u.ihl ≤ ipv4TotalLen p
  frame : ipv4TotalLen p ≤ len
  length : u.len.toNat = (ipv4TotalLen p).toNat - u.ihl.toNat
  bytes : (p.skip u.ihl.toNat).bytes 0 u.len.toNat =
    p.bytes u.ihl.toNat ((ipv4TotalLen p).toNat - u.ihl.toNat)
  reads : ∀ (d : Devices) (rx : Receiver) (fuel : Nat) (q : View) (s : Host),
    (∀ i, u.ihl.toNat ≤ i → i < (ipv4TotalLen p).toNat → q i = p i) →
    u.dispatch d rx fuel q s = u.dispatch d rx fuel p s

/-- What is known of a datagram that is handed on. -/
theorem ipv4Upper_spec {len : UInt16} {u : Upper} (h : ipv4Upper p len = some u) :
    20 ≤ u.ihl ∧ u.ihl ≤ len ∧ ipv4TotalLen p ≤ len ∧ u.len = ipv4TotalLen p - u.ihl := by
  unfold ipv4Upper at h
  split at h
  · cases h
  split at h
  · cases h
  split at h
  · cases h
  next hihl =>
    split at h
    · cases h
    split at h
    · cases h
    next htotal =>
      cases h
      rw [not_or] at hihl
      exact ⟨UInt16.not_lt.mp hihl.1, UInt16.not_lt.mp hihl.2, UInt16.not_lt.mp htotal, rfl⟩

/-- Where the total length does not cover the header, the slice goes past the end of the
frame. -/
theorem slice_overruns {len : UInt16} {u : Upper} (h : ipv4Upper p len = some u)
    (hshort : ipv4TotalLen p < u.ihl) : len.toNat < u.ihl.toNat + u.len.toNat := by
  rcases ipv4Upper_spec h with ⟨-, -, -, hlen⟩
  have hlt := UInt16.lt_iff_toNat_lt.mp hshort
  have hwraps : u.len.toNat = (65536 - u.ihl.toNat + (ipv4TotalLen p).toNat) % 65536 := by
    rw [hlen]
    exact UInt16.toNat_sub ..
  have := u.ihl.toNat_lt
  have := len.toNat_lt
  omega

/-- The handlers get exactly the payload when the total length covers the header; nothing
in `ipv4_rx_handler` sees to that. -/
theorem upper_payload_iff (d : Devices) (rx : Receiver) (fuel : Nat) (p : View) (len : UInt16)
    (s : Host) (u : Upper) (h : ipv4Upper p len = some u) :
    ipv4RxHandler d rx fuel p len s = (ipv4Log p len >>= fun _ => u.dispatch d rx fuel p s) ∧
      (ExactSlice p len u ↔ u.ihl ≤ ipv4TotalLen p) := by
  refine ⟨?_, fun hexact => hexact.total, fun hle => ?_⟩
  · rw [ipv4RxHandler_eq, h]
  · rcases ipv4Upper_spec h with ⟨hheader, -, hframe, hlen⟩
    have hlength : u.len.toNat = (ipv4TotalLen p).toNat - u.ihl.toNat := by
      rw [hlen]
      exact UInt16.toNat_sub_of_le _ _ hle
    refine ⟨hheader, hle, hframe, hlength, ?_, ?_⟩
    · rw [hlength]
      simp only [View.bytes, View.skip, Nat.zero_add]
    · intro d rx fuel q s hagree
      refine Upper.dispatch_congr (fun i hi => hagree _ (Nat.le_add_right ..) ?_) s
      omega

/-- A datagram with this total length and no payload. -/
def emptyDatagram (totalLen : UInt16) : View := fun i =>
  let header := ipv4Header totalLen 0 ipProtoUdp
  (header (ipChecksum (header 0 peerIp localIp)) peerIp localIp)[i]?.getD 0

/-- A datagram of 12 bytes, in a frame that is padded to the shortest length. -/
def paddedDatagram : View := fun i => if i < 20 then emptyDatagram 32 i else UInt8.ofNat i

theorem upper_payload_iff_padded :
    ipv4Upper paddedDatagram 46 = some ⟨ipProtoUdp, peerIp, localIp, 20, 12⟩ ∧
      ExactSlice paddedDatagram 46 ⟨ipProtoUdp, peerIp, localIp, 20, 12⟩ := by
  have h : ipv4Upper paddedDatagram 46 = some ⟨ipProtoUdp, peerIp, localIp, 20, 12⟩ := by
    decide
  refine ⟨h, (upper_payload_iff quietDevices (fun _ s => return s) 0 _ _
    (Host.boot (Vector.replicate 6 0)) _ h).2.mpr ?_⟩
  decide

/-- A total length of 10 is 65526 bytes of payload. -/
theorem short_total_wraps :
    ipv4Upper (emptyDatagram 10) 20 = some ⟨ipProtoUdp, peerIp, localIp, 20, 65526⟩ ∧
      ¬ExactSlice (emptyDatagram 10) 20 ⟨ipProtoUdp, peerIp, localIp, 20, 65526⟩ := by
  refine ⟨by decide, fun h => absurd h.total ?_⟩
  decide

end PolandOS.Net
