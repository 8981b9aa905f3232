import Mathlib.Logic.Function.Basic
import PolandOS.Lib.Logged
import PolandOS.Net.Checksum

/-! # The state of the network stack

The data of `kernel/net`, the card and the clock that it polls, and the functions that
call nobody back: the receive queue, the ARP cache and the sending of frames. What the
card delivers and what the clock shows are parameters, call by call.
-/

namespace PolandOS.Net

open Logging

/-! ## Views -/

/-- What memory holds from an address on. -/
abbrev View := Nat → UInt8

/-- `p + n`. -/
def View.skip (p : View) (n : Nat) : View := fun i => p (n + i)

/-- `len` bytes from an offset on. -/
def View.bytes (p : View) (offset len : Nat) : List UInt8 :=
  (List.range len).map fun i => p (offset + i)

/-- The `u16` at an offset. -/
def View.u16 (p : View) (offset : Nat) : UInt16 := load16 (p offset) (p (offset + 1))

/-- The `u32` at an offset. -/
def View.u32 (p : View) (offset : Nat) : UInt32 :=
  load32 (p offset) (p (offset + 1)) (p (offset + 2)) (p (offset + 3))

/-- `memcpy` of bytes to an offset. -/
def View.write (p : View) (offset : Nat) (bs : List UInt8) : View := fun i =>
  if offset ≤ i then (bs[i - offset]?).getD (p i) else p i

/-- A MAC address. -/
abbrev Mac := Vector UInt8 6

/-- The MAC address at an offset. -/
def View.mac (p : View) (offset : Nat) : Mac := Vector.ofFn fun i => p (offset + i)

/-! ## Data -/

/-- `NetPacket`, with the memory behind its 1518 bytes. -/
structure NetPacket where
  data : View
  len : UInt16

/-- `ARPEntry`. -/
structure ARPEntry where
  ip : UInt32
  mac : Mac
  valid : Bool

/-- `UDPSocket`. -/
structure UDPSocket where
  localPort : UInt16
  active : Bool
  recvBuf : View
  recvLen : UInt16
  recvSrcIp : UInt32
  recvSrcPort : UInt16
  hasData : Bool

/-- `TCPState`. -/
inductive TCPState where
  | closed | synSent | synReceived | established | finWait1 | finWait2 | closeWait | closing
  | lastAck | timeWait
deriving DecidableEq, Repr

/-- `TCPSocket`. -/
structure TCPSocket where
  state : TCPState
  localIp : UInt32
  localPort : UInt16
  remoteIp : UInt32
  remotePort : UInt16
  seq : UInt32
  ack : UInt32
  remoteSeq : UInt32
  window : UInt16
  recvBuf : View
  recvLen : UInt32
  active : Bool

/-- `memset(s, 0, sizeof(TCPSocket))`. -/
def TCPSocket.zero : TCPSocket where
  state := .closed
  localIp := 0
  localPort := 0
  remoteIp := 0
  remotePort := 0
  seq := 0
  ack := 0
  remoteSeq := 0
  window := 0
  recvBuf := fun _ => 0
  recvLen := 0
  active := false

/-- The variables of `kernel/net`, and how often the clock has been read, the card
polled and a frame sent. -/
structure Host where
  mac : Mac
  ip : UInt32
  gateway : UInt32
  subnet : UInt32
  arpCache : Fin 32 → ARPEntry
  rxQueue : Fin 32 → NetPacket
  rxHead : Fin 32
  rxTail : Fin 32
  ipIdCounter : UInt16
  udpSockets : Fin 8 → UDPSocket
  tcpSockets : Fin 4 → TCPSocket
  tcpNextPort : UInt16
  pingReplyReceived : Bool
  pingReplySeq : UInt16
  readings : Nat
  polls : Nat
  sends : Nat

/-- The clock, the card's receive side and its send side, call by call. -/
structure Devices where
  clock : Nat → UInt64
  incoming : Nat → Option (List UInt8)
  outcome : Nat → Int

/-! ## Events -/

/-- The destinations of the copies that are made of what is received. -/
inductive Buffer where
  /-- `rx_queue[i].data`. -/
  | rxSlot
  /-- `arp_cache[i].mac`. -/
  | arpMac
  /-- `tmp` of `ipv4_rx_handler`. -/
  | headerTmp
  /-- `reply` of `icmp_rx_handler`. -/
  | icmpReply
  /-- `udp_sockets[i].recv_buf`. -/
  | udpRecv
  /-- `tmp` of `tcp_rx_handler`. -/
  | tcpTmp
  /-- `tcp_sockets[i].recv_buf`. -/
  | tcpRecv
deriving DecidableEq, Repr

/-- Their sizes. -/
def Buffer.size : Buffer → Nat
  | .rxSlot => 1518
  | .arpMac => 6
  | .headerTmp => 20
  | .icmpReply => 1480
  | .udpRecv => 1500
  | .tcpTmp => 1500
  | .tcpRecv => 4096

/-- A TCP segment, as `tcp_rx_handler` reads it. -/
structure Segment where
  srcIp : UInt32
  srcPort : UInt16
  dstPort : UInt16
  seq : UInt32
  ack : UInt32
  flags : UInt8
  data : List UInt8

/-- Why the state of a TCP socket is assigned. -/
inductive Cause where
  /-- `tcp_connect` clears the slot. -/
  | clear
  /-- `tcp_connect` opens the connection. -/
  | connect
  /-- `tcp_connect` gives up. -/
  | giveUp
  /-- `tcp_close` closes the connection. -/
  | close
  /-- `tcp_close` clears the slot; whether its wait has timed out. -/
  | release (timedOut : Bool)
  /-- A segment that has found the socket in this state, with these flags and this
  acknowledgement. -/
  | segment (arrival : TCPState) (flags : UInt8) (ack : UInt32)
deriving DecidableEq, Repr

/-- The steps of a run that are logged. -/
inductive NetEvent where
  /-- `eth_rx_handler` is entered, and left. -/
  | enter
  | leave
  /-- `ipv4_rx_handler` is called. -/
  | ipv4 (p : View) (len : UInt16)
  /-- `arp_resolve` finds nothing in the cache and starts to wait. -/
  | wait (ip : UInt32)
  /-- What is received is copied. -/
  | copy (dst : Buffer) (offset len : Nat)
  /-- A frame is handed to the card. -/
  | frame (bytes : List UInt8)
  /-- A datagram goes into a UDP socket. -/
  | datagram (fd : Fin 8) (srcIp : UInt32) (srcPort : UInt16) (data : List UInt8)
  /-- `tcp_connect` takes a slot; returns it. -/
  | opened (fd : Fin 4) (ip : UInt32) (port : UInt16)
  | connected (fd : Fin 4) (ip : UInt32) (port : UInt16)
  /-- `tcp_close` is called; its FIN is out, with this sequence number; the slot is
  cleared. -/
  | closing (fd : Fin 4)
  | finSent (fd : Fin 4) (seq : UInt32)
  | released (fd : Fin 4)
  /-- A segment of a socket is sent to this address and port. -/
  | transmit (fd : Fin 4) (ip : UInt32) (port : UInt16) (flags : UInt8)
  /-- So many bytes of a segment are appended to the buffer of a socket, which was in
  this state before; data is returned by `tcp_recv`. -/
  | stored (fd : Fin 4) (socket : TCPSocket) (seg : Segment) (count : Nat)
  | returned (fd : Fin 4) (data : List UInt8)
  /-- The state of a socket is assigned. -/
  | state (fd : Fin 4) (cause : Cause) (old new : TCPState)

/-- The stack is not done yet. -/
inductive NetStop where
  | outOfFuel
deriving DecidableEq, Repr

/-- A run of the stack. -/
abbrev Rx := Logged NetEvent NetStop

/-! ## Devices -/

variable (d : Devices)

/-- `timer_get_ms`. -/
def timerGetMs (s : Host) : UInt64 × Host :=
  (d.clock s.readings, { s with readings := s.readings + 1 })

/-- `e1000_recv`, which cuts a frame to `ETH_MAX_FRAME` bytes. -/
def e1000Recv (s : Host) : Option (List UInt8) × Host :=
  ((d.incoming s.polls).map (·.take 1518), { s with polls := s.polls + 1 })

/-- `e1000_send`. -/
def e1000Send (frame : List UInt8) (s : Host) : Rx (Int × Host) := do
  Logged.emit (.frame frame)
  return (d.outcome s.sends, { s with sends := s.sends + 1 })

/-! ## The receive queue -/

/-- `net_rx_enqueue`. -/
def netRxEnqueue (data : List UInt8) (s : Host) : Rx Host :=
  if s.rxHead + 1 = s.rxTail then return s
  else do
    let data := data.take 1518
    Logged.emit (.copy .rxSlot 0 data.length)
    let pkt : NetPacket := ⟨(s.rxQueue s.rxHead).data.write 0 data, data.length.toUInt16⟩
    return { s with
      rxQueue := Function.update s.rxQueue s.rxHead pkt
      rxHead := s.rxHead + 1 }

/-- `net_rx_dequeue`. -/
def netRxDequeue (s : Host) : Option (NetPacket × Host) :=
  if s.rxTail = s.rxHead then none
  else some (s.rxQueue s.rxTail, { s with rxTail := s.rxTail + 1 })

/-! ## Ethernet -/

/-- `ETH_TYPE_ARP`. -/
def ethTypeArp : UInt16 := 0x0806

/-- `ETH_TYPE_IPV4`. -/
def ethTypeIpv4 : UInt16 := 0x0800

/-- `eth_send`. -/
def ethSend (dst : Mac) (ethertype : UInt16) (payload : List UInt8) (s : Host) : Rx (Int × Host) :=
  if payload.length > 1500 then return (-1, s)
  else e1000Send d (dst.toList ++ s.mac.toList ++ u16Bytes (htons ethertype) ++ payload) s

/-! ## ARP -/

/-- `arp_cache_lookup`. -/
def arpCacheLookup (ip : UInt32) (s : Host) : Option ARPEntry :=
  ((List.finRange 32).find? fun i => (s.arpCache i).valid && (s.arpCache i).ip == ip).map s.arpCache

/-- `arp_cache_update`. -/
def arpCacheUpdate (ip : UInt32) (mac : Mac) (s : Host) : Rx Host := do
  Logged.emit (.copy .arpMac 0 6)
  match (List.finRange 32).find? fun i => (s.arpCache i).valid && (s.arpCache i).ip == ip with
  | some i =>
    return { s with arpCache := Function.update s.arpCache i { s.arpCache i with mac := mac } }
  | none =>
    match (List.finRange 32).find? fun i => !(s.arpCache i).valid with
    | some i => return { s with arpCache := Function.update s.arpCache i ⟨ip, mac, true⟩ }
    | none => return { s with arpCache := Function.update s.arpCache 0 ⟨ip, mac, true⟩ }

/-- The bytes of `ARPPacket`. -/
def arpPacket (oper : UInt16) (sha : Mac) (spa : UInt32) (tha : Mac) (tpa : UInt32) : List UInt8 :=
  u16Bytes (htons 1) ++ u16Bytes (htons 0x0800) ++ [6, 4] ++ u16Bytes (htons oper) ++
    sha.toList ++ u32Bytes spa ++ tha.toList ++ u32Bytes tpa

/-- `arp_send_request`. -/
def arpSendRequest (target : UInt32) (s : Host) : Rx Host := do
  let (_, s) ← ethSend d (Vector.replicate 6 0xFF) ethTypeArp
    (arpPacket 1 s.mac s.ip (Vector.replicate 6 0) target) s
  return s

/-- `arp_send_reply`. -/
def arpSendReply (dstIp : UInt32) (dst : Mac) (s : Host) : Rx Host := do
  let (_, s) ← ethSend d dst ethTypeArp (arpPacket 2 s.mac s.ip dst dstIp) s
  return s

/-- `arp_rx_handler`. -/
def arpRxHandler (p : View) (len : UInt16) (s : Host) : Rx Host :=
  if len < 28 then return s
  else if ntohs (p.u16 0) ≠ 1 ∨ ntohs (p.u16 2) ≠ 0x0800 ∨ p 4 ≠ 6 ∨ p 5 ≠ 4 then return s
  else do
    let oper := ntohs (p.u16 6)
    let s ← arpCacheUpdate (p.u32 14) (p.mac 8) s
    if oper = 1 ∧ p.u32 24 = s.ip ∧ s.ip ≠ 0 then arpSendReply d (p.u32 14) (p.mac 8) s
    else return s

/-! ## UDP -/

/-- `udp_rx_handler`. -/
def udpRxHandler (srcIp : UInt32) (p : View) (len : UInt16) (s : Host) : Rx Host :=
  if len < 8 then return s
  else
    let dstPort := ntohs (p.u16 2)
    let dataLen := if len - 8 > 1500 then 1500 else len - 8
    match (List.finRange 8).find? fun i =>
        (s.udpSockets i).active && (s.udpSockets i).localPort == dstPort with
    | none => return s
    | some i => do
      let data := p.bytes 8 dataLen.toNat
      Logged.emit (.copy .udpRecv 0 dataLen.toNat)
      Logged.emit (.datagram i srcIp (ntohs (p.u16 0)) data)
      let socket : UDPSocket := { s.udpSockets i with
        recvBuf := (s.udpSockets i).recvBuf.write 0 data
        recvLen := dataLen
        recvSrcIp := srcIp
        recvSrcPort := ntohs (p.u16 0)
        hasData := true }
      return { s with udpSockets := Function.update s.udpSockets i socket }

end PolandOS.Net
