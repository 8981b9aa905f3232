import PolandOS.Net.State

/-! # The handlers of the network stack

`eth_rx_handler` and what it calls. Answering a frame can end up in `arp_resolve`, which
waits for a reply and handles other frames meanwhile; so the handlers take
`eth_rx_handler` as an argument, and fuel ties the knot.
-/

namespace PolandOS.Net

open Logging

variable (d : Devices)

/-- `eth_rx_handler`, as those see it that are called by it. -/
abbrev Receiver := NetPacket → Host → Rx Host

variable (rx : Receiver)

/-- `while (net_rx_dequeue(&pkt)) eth_rx_handler(pkt.data, pkt.len)`. -/
def drainQueue : Nat → Host → Rx Host
  | 0, _ => Logged.stop .outOfFuel
  | fuel + 1, s =>
    match netRxDequeue s with
    | none => return s
    | some (pkt, s) => do
      let s ← rx pkt s
      drainQueue fuel s

/-! ## Sending -/

/-- The loop of `arp_resolve`. -/
def arpWait (ip : UInt32) (deadline : UInt64) : Nat → Host → Rx (Option Mac × Host)
  | 0, _ => Logged.stop .outOfFuel
  | fuel + 1, s => do
    let (now, s) := timerGetMs d s
    if ¬now < deadline then return (none, s)
    else do
      let (frame, s) := e1000Recv d s
      let s ←
        (match frame with
        | some data => do
          let s ← netRxEnqueue data s
          drainQueue rx fuel s
        | none => return s)
      match arpCacheLookup ip s with
      | some entry => return (some entry.mac, s)
      | none => arpWait ip deadline fuel s

/-- `arp_resolve`. -/
def arpResolve (fuel : Nat) (ip : UInt32) (s : Host) : Rx (Option Mac × Host) :=
  match arpCacheLookup ip s with
  | some entry => return (some entry.mac, s)
  | none => do
    Logged.emit (.wait ip)
    let s ← arpSendRequest d ip s
    let (now, s) := timerGetMs d s
    arpWait d rx ip (now + 3000) fuel s

/-- The bytes of `IPv4Header`, the checksum as given. -/
def ipv4Header (totalLen id : UInt16) (protocol : UInt8) (checksum : UInt16) (src dst : UInt32) :
    List UInt8 :=
  [0x45, 0] ++ u16Bytes (htons totalLen) ++ u16Bytes (htons id) ++ u16Bytes 0 ++
    [64, protocol] ++ u16Bytes checksum ++ u32Bytes src ++ u32Bytes dst

/-- `ipv4_send`. -/
def ipv4Send (fuel : Nat) (dst : UInt32) (protocol : UInt8) (payload : List UInt8) (s : Host) :
    Rx (Int × Host) :=
  if payload.length > 1480 then return (-1, s)
  else do
    let nextHop := if dst &&& s.subnet = s.ip &&& s.subnet then dst else s.gateway
    let (resolved, s) ← arpResolve d rx fuel nextHop s
    match resolved with
    | none => return (-1, s)
    | some mac => do
      let totalLen := (20 + payload.length).toUInt16
      let cksum := ipChecksum (ipv4Header totalLen s.ipIdCounter protocol 0 s.ip dst)
      let header := ipv4Header totalLen s.ipIdCounter protocol cksum s.ip dst
      ethSend d mac ethTypeIpv4 (header ++ payload) { s with ipIdCounter := s.ipIdCounter + 1 }

/-! ## ICMP -/

/-- `icmp_rx_handler`. -/
def icmpRxHandler (fuel : Nat) (srcIp : UInt32) (p : View) (len : UInt16) (s : Host) : Rx Host :=
  if len < 8 then return s
  else if p 0 = 8 then
    if len > 1480 then return s
    else do
      Logged.emit (.copy .icmpReply 0 len.toNat)
      let reply := (((p.bytes 0 len.toNat).set 0 0).set 2 0).set 3 0
      let cksum := u16Bytes (ipChecksum reply)
      let reply := reply.take 2 ++ cksum ++ reply.drop 4
      let (_, s) ← ipv4Send d rx fuel srcIp ipProtoIcmp reply s
      return s
  else if p 0 = 0 then
    return { s with pingReplySeq := ntohs (p.u16 6), pingReplyReceived := true }
  else return s

/-! ## TCP -/

/-- `TCP_FIN` and the other flags. -/
def tcpFin : UInt8 := 0x01

def tcpSyn : UInt8 := 0x02

def tcpRst : UInt8 := 0x04

def tcpPsh : UInt8 := 0x08

def tcpAck : UInt8 := 0x10

/-- `flags & f`. -/
def has (flags f : UInt8) : Bool := flags &&& f != 0

/-- A socket with changed fields. -/
def Host.setTcp (s : Host) (fd : Fin 4) (socket : TCPSocket) : Host :=
  { s with tcpSockets := Function.update s.tcpSockets fd socket }

/-- The bytes of `TCPHeader`, the checksum as given. -/
def tcpHeader (srcPort dstPort : UInt16) (seq ack : UInt32) (flags : UInt8)
    (window checksum : UInt16) : List UInt8 :=
  u16Bytes (htons srcPort) ++ u16Bytes (htons dstPort) ++ u32Bytes (htonl seq) ++
    u32Bytes (htonl ack) ++ [0x50, flags] ++ u16Bytes (htons window) ++ u16Bytes checksum ++
    u16Bytes 0

/-- `tcp_send_segment`. -/
def tcpSendSegment (fuel : Nat) (fd : Fin 4) (flags : UInt8) (data : List UInt8) (s : Host) :
    Rx (Int × Host) := do
  let socket := s.tcpSockets fd
  Logged.emit (.transmit fd socket.remoteIp socket.remotePort flags)
  let data := data.take 4096
  let header := tcpHeader socket.localPort socket.remotePort socket.seq socket.ack flags
    socket.window
  let cksum := tcpChecksum socket.localIp socket.remoteIp (header 0 ++ data)
  ipv4Send d rx fuel socket.remoteIp ipProtoTcp (header cksum ++ data) s

/-- `s->state = new`. -/
def assignState (fd : Fin 4) (cause : Cause) (new : TCPState) (s : Host) : Rx Host := do
  let socket := s.tcpSockets fd
  Logged.emit (.state fd cause socket.state new)
  return s.setTcp fd { socket with state := new }

/-- `s->state = TCP_CLOSED; s->active = false`. -/
def deactivate (fd : Fin 4) (cause : Cause) (s : Host) : Rx Host := do
  let s ← assignState fd cause .closed s
  return s.setTcp fd { s.tcpSockets fd with active := false }

/-- `s->ack = ack`. -/
def assignAck (fd : Fin 4) (ack : UInt32) (s : Host) : Host :=
  s.setTcp fd { s.tcpSockets fd with ack := ack }

/-- `tcp_send_segment(s, TCP_ACK, NULL, 0)`, its result ignored. -/
def sendAck (fuel : Nat) (fd : Fin 4) (s : Host) : Rx Host := do
  let (_, s) ← tcpSendSegment d rx fuel fd tcpAck [] s
  return s

/-- The branch for `TCP_SYN_SENT`. -/
def tcpSynSent (fuel : Nat) (fd : Fin 4) (seg : Segment) (s : Host) : Rx Host :=
  if seg.flags &&& (tcpSyn ||| tcpAck) ≠ tcpSyn ||| tcpAck then return s
  else if seg.ack ≠ (s.tcpSockets fd).seq then return s
  else do
    let s := s.setTcp fd { s.tcpSockets fd with ack := seg.seq + 1, remoteSeq := seg.seq }
    let s ← assignState fd (.segment .synSent seg.flags seg.ack) .established s
    sendAck d rx fuel fd s

/-- The data of a segment is appended, as far as there is room. -/
def storeData (fd : Fin 4) (seg : Segment) (s : Host) : Rx Host := do
  let socket := s.tcpSockets fd
  let space := 4096 - socket.recvLen
  let dataLen := seg.data.length.toUInt32
  let copy := if dataLen < space then dataLen else space
  Logged.emit (.copy .tcpRecv socket.recvLen.toNat copy.toNat)
  Logged.emit (.stored fd socket seg copy.toNat)
  return s.setTcp fd { socket with
    recvBuf := socket.recvBuf.write socket.recvLen.toNat (seg.data.take copy.toNat)
    recvLen := socket.recvLen + copy
    ack := seg.seq + dataLen }

/-- The branch for `TCP_ESTABLISHED`. -/
def tcpEstablished (fuel : Nat) (fd : Fin 4) (seg : Segment) (s : Host) : Rx Host :=
  if !has seg.flags tcpAck then return s
  else do
    let s ←
      (if seg.data.length > 0 then do
        let s ← storeData fd seg s
        sendAck d rx fuel fd s
      else return s)
    if has seg.flags tcpFin then do
      let s := assignAck fd (seg.seq + seg.data.length.toUInt32 + 1) s
      let s ← assignState fd (.segment .established seg.flags seg.ack) .closeWait s
      sendAck d rx fuel fd s
    else return s

/-- A FIN while the connection is being closed: it is acknowledged first. -/
def tcpLastFin (fuel : Nat) (fd : Fin 4) (arrival : TCPState) (seg : Segment) (s : Host) :
    Rx Host := do
  let s := assignAck fd (seg.seq + 1) s
  let s ← sendAck d rx fuel fd s
  assignState fd (.segment arrival seg.flags seg.ack) .timeWait s

/-- The branch for `TCP_FIN_WAIT1`. -/
def tcpFinWait1 (fuel : Nat) (fd : Fin 4) (seg : Segment) (s : Host) : Rx Host := do
  let s ←
    (if has seg.flags tcpAck then
      assignState fd (.segment .finWait1 seg.flags seg.ack) .finWait2 s
    else return s)
  if has seg.flags tcpFin then tcpLastFin d rx fuel fd .finWait1 seg s else return s

/-- The branch for `TCP_FIN_WAIT2`. -/
def tcpFinWait2 (fuel : Nat) (fd : Fin 4) (seg : Segment) (s : Host) : Rx Host :=
  if has seg.flags tcpFin then tcpLastFin d rx fuel fd .finWait2 seg s else return s

/-- The branch for `TCP_LAST_ACK`. -/
def tcpLastAck (fd : Fin 4) (seg : Segment) (s : Host) : Rx Host :=
  if has seg.flags tcpAck then deactivate fd (.segment .lastAck seg.flags seg.ack) s
  else return s

/-- The rest of `tcp_rx_handler`, once the socket is found. -/
def tcpArrival (fuel : Nat) (fd : Fin 4) (seg : Segment) (s : Host) : Rx Host :=
  if has seg.flags tcpRst then
    deactivate fd (.segment (s.tcpSockets fd).state seg.flags seg.ack) s
  else
    match (s.tcpSockets fd).state with
    | .synSent => tcpSynSent d rx fuel fd seg s
    | .established => tcpEstablished d rx fuel fd seg s
    | .finWait1 => tcpFinWait1 d rx fuel fd seg s
    | .finWait2 => tcpFinWait2 d rx fuel fd seg s
    | .closeWait => return s
    | .lastAck => tcpLastAck fd seg s
    | .timeWait => deactivate fd (.segment .timeWait seg.flags seg.ack) s
    | _ => return s

/-- The socket that a segment belongs to. -/
def tcpLookup (srcIp : UInt32) (srcPort dstPort : UInt16) (s : Host) : Option (Fin 4) :=
  (List.finRange 4).find? fun i => (s.tcpSockets i).active &&
    (s.tcpSockets i).remoteIp == srcIp && (s.tcpSockets i).remotePort == srcPort &&
    (s.tcpSockets i).localPort == dstPort

/-- `(u8)((hdr->data_offset >> 4) * 4)`. -/
def tcpHeaderLen (p : View) : UInt8 := (p 12 >>> 4) * 4

/-- The segment at `p`. -/
def segmentAt (srcIp : UInt32) (p : View) (len : UInt16) : Segment where
  srcIp := srcIp
  srcPort := ntohs (p.u16 0)
  dstPort := ntohs (p.u16 2)
  seq := ntohl (p.u32 4)
  ack := ntohl (p.u32 8)
  flags := p 13
  data := p.bytes (tcpHeaderLen p).toNat (len.toNat - (tcpHeaderLen p).toNat)

/-- `tcp_rx_handler`. -/
def tcpRxHandler (fuel : Nat) (srcIp dstIp : UInt32) (p : View) (len : UInt16) (s : Host) :
    Rx Host :=
  if len < 20 then return s
  else if tcpHeaderLen p < 20 ∨ (tcpHeaderLen p).toNat > len.toNat then return s
  else if len > 1500 then return s
  else do
    Logged.emit (.copy .tcpTmp 0 len.toNat)
    let tmp := ((p.bytes 0 len.toNat).set 16 0).set 17 0
    if tcpChecksum srcIp dstIp tmp ≠ p.u16 16 then return s
    else
      let seg := segmentAt srcIp p len
      match tcpLookup srcIp seg.srcPort seg.dstPort s with
      | none => return s
      | some fd => tcpArrival d rx fuel fd seg s

/-! ## IPv4 and Ethernet -/

/-- `(hdr->version_ihl & 0x0F) * 4`. -/
def ipv4HeaderLen (p : View) : UInt16 := (p 0 &&& 0x0F).toUInt16 * 4

/-- `ipv4_rx_handler`. -/
def ipv4RxHandler (fuel : Nat) (p : View) (len : UInt16) (s : Host) : Rx Host := do
  Logged.emit (.ipv4 p len)
  if len < 20 then return s
  else if p 0 >>> 4 ≠ 4 then return s
  else if ipv4HeaderLen p < 20 ∨ ipv4HeaderLen p > len then return s
  else do
    let ihl := ipv4HeaderLen p
    Logged.emit (.copy .headerTmp 0 ihl.toNat)
    let tmp := ((p.bytes 0 ihl.toNat).set 10 0).set 11 0
    if ipChecksum tmp ≠ p.u16 10 then return s
    else
      let totalLen := ntohs (p.u16 2)
      if totalLen > len then return s
      else
        let srcIp := p.u32 12
        let dstIp := p.u32 16
        let upper := p.skip ihl.toNat
        let upperLen := totalLen - ihl
        if p 9 = ipProtoIcmp then icmpRxHandler d rx fuel srcIp upper upperLen s
        else if p 9 = ipProtoUdp then udpRxHandler srcIp upper upperLen s
        else if p 9 = ipProtoTcp then tcpRxHandler d rx fuel srcIp dstIp upper upperLen s
        else return s

/-- The body of `eth_rx_handler`. -/
def ethHandle (fuel : Nat) (pkt : NetPacket) (s : Host) : Rx Host :=
  if pkt.len < 14 then return s
  else
    let etype := ntohs (pkt.data.u16 12)
    if etype = ethTypeArp then arpRxHandler d (pkt.data.skip 14) (pkt.len - 14) s
    else if etype = ethTypeIpv4 then ipv4RxHandler d rx fuel (pkt.data.skip 14) (pkt.len - 14) s
    else return s

/-- `eth_rx_handler`. -/
def ethRxHandler : Nat → Receiver
  | 0, _, _ => Logged.stop .outOfFuel
  | fuel + 1, pkt, s => do
    Logged.emit .enter
    let s ← ethHandle d (ethRxHandler fuel) fuel pkt s
    Logged.emit .leave
    return s

/-- The first loop of `net_rx_process`. -/
def receiveAll : Nat → Host → Rx Host
  | 0, _ => Logged.stop .outOfFuel
  | fuel + 1, s => do
    let (frame, s) := e1000Recv d s
    match frame with
    | none => return s
    | some data => do
      let s ← netRxEnqueue data s
      receiveAll fuel s

/-- `net_rx_process`. -/
def netRxProcess (fuel : Nat) (s : Host) : Rx Host := do
  let s ← receiveAll d fuel s
  drainQueue (ethRxHandler d fuel) fuel s

end PolandOS.Net
