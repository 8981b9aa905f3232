import PolandOS.Net.Stack

/-! # The calls of the network stack

What the kernel's applications call: the UDP and TCP sockets and the ping. Each is run
with fuel for its loops and for the handlers that it polls. `Session` is a sequence of
such calls.
-/

namespace PolandOS.Net

open Logging

variable (d : Devices)

/-! ## TCP -/

/-- `fd < 0 || fd >= TCP_MAX_SOCKETS`, the other way round. -/
def tcpSlot (fd : Int) : Option (Fin 4) :=
  if h : 0 ≤ fd ∧ fd < 4 then some ⟨fd.toNat, by omega⟩ else none

/-- The slot that `tcp_connect` takes. -/
def freeSlot (s : Host) : Option (Fin 4) :=
  (List.finRange 4).find? fun i => !(s.tcpSockets i).active

/-- The waiting loop of `tcp_connect`. -/
def connectWait (fd : Fin 4) (deadline : UInt64) : Nat → Host → Rx (Bool × Host)
  | 0, _ => Logged.stop .outOfFuel
  | fuel + 1, s => do
    let (now, s) := timerGetMs d s
    if ¬now < deadline then return (false, s)
    else do
      let s ← netRxProcess d fuel s
      if (s.tcpSockets fd).state = .established then return (true, s)
      else if (s.tcpSockets fd).state = .closed then return (false, s)
      else connectWait fd deadline fuel s

/-- The sequence number that a connection opened at this time starts with. -/
def initialSeq (now : UInt64) : UInt32 := (now * 6364136223846793005 + 1442695040888963407).toUInt32

/-- The slot as `tcp_connect` fills it in. -/
def freshSocket (s : Host) (dstIp : UInt32) (dstPort : UInt16) (now : UInt64) : TCPSocket :=
  { TCPSocket.zero with
    active := true
    localIp := s.ip
    localPort := s.tcpNextPort
    remoteIp := dstIp
    remotePort := dstPort
    seq := initialSeq now
    window := 4096 }

/-- The first half of `tcp_connect`: the slot is cleared and filled in. -/
def tcpOpen (fd : Fin 4) (dstIp : UInt32) (dstPort : UInt16) (s : Host) : Rx Host := do
  Logged.emit (.state fd .clear (s.tcpSockets fd).state .closed)
  let (now, s) := timerGetMs d s
  let socket := freshSocket s dstIp dstPort now
  Logged.emit (.opened fd dstIp dstPort)
  Logged.emit (.state fd .connect .closed .synSent)
  let s := s.setTcp fd { socket with state := .synSent }
  return { s with tcpNextPort := s.tcpNextPort + 1 }

/-- `s->seq += n`. -/
def advanceSeq (fd : Fin 4) (n : UInt32) (s : Host) : Host :=
  s.setTcp fd { s.tcpSockets fd with seq := (s.tcpSockets fd).seq + n }

/-- `tcp_connect`. -/
def tcpConnect (fuel : Nat) (dstIp : UInt32) (dstPort : UInt16) (s : Host) : Rx (Int × Host) :=
  match freeSlot s with
  | none => return (-1, s)
  | some fd => do
    let s ← tcpOpen d fd dstIp dstPort s
    let (_, s) ← tcpSendSegment d (ethRxHandler d fuel) fuel fd tcpSyn [] s
    let s := advanceSeq fd 1 s
    let (now, s) := timerGetMs d s
    let (established, s) ← connectWait d fd (now + 5000) fuel s
    if established then do
      Logged.emit (.connected fd dstIp dstPort)
      return ((fd : Nat), s)
    else do
      let s ← deactivate fd .giveUp s
      return (-1, s)

/-- The waiting loop of `tcp_close`: whether it has timed out. -/
def closeWait (fd : Fin 4) (deadline : UInt64) : Nat → Host → Rx (Bool × Host)
  | 0, _ => Logged.stop .outOfFuel
  | fuel + 1, s => do
    let (now, s) := timerGetMs d s
    if ¬now < deadline then return (true, s)
    else do
      let s ← netRxProcess d fuel s
      if (s.tcpSockets fd).state = .timeWait ∨ (s.tcpSockets fd).state = .closed then
        return (false, s)
      else closeWait fd deadline fuel s

/-- The part of `tcp_close` for a connection: whether its wait has timed out. -/
def tcpShutdown (fuel : Nat) (fd : Fin 4) (s : Host) : Rx (Bool × Host) := do
  let s ← assignState fd .close .finWait1 s
  let (_, s) ← tcpSendSegment d (ethRxHandler d fuel) fuel fd (tcpFin ||| tcpAck) [] s
  Logged.emit (.finSent fd (s.tcpSockets fd).seq)
  let s := advanceSeq fd 1 s
  let (now, s) := timerGetMs d s
  closeWait d fd (now + 3000) fuel s

/-- `memset(s, 0, sizeof(TCPSocket))`, at the end of `tcp_close`. -/
def releaseSlot (fd : Fin 4) (timedOut : Bool) (s : Host) : Rx Host := do
  Logged.emit (.state fd (.release timedOut) (s.tcpSockets fd).state .closed)
  Logged.emit (.released fd)
  return s.setTcp fd .zero

/-- `tcp_close`. -/
def tcpClose (fuel : Nat) (fd : Int) (s : Host) : Rx Host :=
  match tcpSlot fd with
  | none => return s
  | some i => do
    Logged.emit (.closing i)
    if !(s.tcpSockets i).active then return s
    else do
      let (timedOut, s) ←
        (if (s.tcpSockets i).state = .established ∨ (s.tcpSockets i).state = .closeWait then
          tcpShutdown d fuel i s
        else return (false, s))
      releaseSlot i timedOut s

/-- `tcp_send`. -/
def tcpSend (fuel : Nat) (fd : Int) (data : List UInt8) (s : Host) : Rx (Int × Host) :=
  match tcpSlot fd with
  | none => return (-1, s)
  | some i =>
    if !(s.tcpSockets i).active ∨ (s.tcpSockets i).state ≠ .established then return (-1, s)
    else do
      let data := data.take 4096
      let (_, s) ← tcpSendSegment d (ethRxHandler d fuel) fuel i (tcpPsh ||| tcpAck) data s
      return (data.length, advanceSeq i data.length.toUInt32 s)

/-- `count` bytes are taken out of the receive buffer. -/
def takeData (fd : Fin 4) (count : UInt32) (s : Host) : Rx (List UInt8 × Host) := do
  let socket := s.tcpSockets fd
  let data := socket.recvBuf.bytes 0 count.toNat
  Logged.emit (.returned fd data)
  let rest := socket.recvBuf.bytes count.toNat (socket.recvLen - count).toNat
  return (data, s.setTcp fd { socket with
    recvBuf := socket.recvBuf.write 0 rest
    recvLen := socket.recvLen - count })

/-- The loop of `tcp_recv`. -/
def recvWait (fd : Fin 4) (maxLen : UInt32) (deadline : UInt64) :
    Nat → Host → Rx (Int × List UInt8 × Host)
  | 0, _ => Logged.stop .outOfFuel
  | fuel + 1, s => do
    let (now, s) := timerGetMs d s
    if ¬now < deadline then return (-1, [], s)
    else do
      let s ← netRxProcess d fuel s
      let recvLen := (s.tcpSockets fd).recvLen
      if recvLen > 0 then do
        let count := if recvLen < maxLen then recvLen else maxLen
        let (data, s) ← takeData fd count s
        return (count.toNat, data, s)
      else if (s.tcpSockets fd).state = .closeWait ∨ (s.tcpSockets fd).state = .closed then
        return (0, [], s)
      else recvWait fd maxLen deadline fuel s

/-- `tcp_recv`: its result, and what it has written to `buf`. -/
def tcpRecv (fuel : Nat) (fd : Int) (maxLen timeoutMs : UInt32) (s : Host) :
    Rx (Int × List UInt8 × Host) :=
  match tcpSlot fd with
  | none => return (-1, [], s)
  | some i =>
    if !(s.tcpSockets i).active then return (-1, [], s)
    else do
      let (now, s) := timerGetMs d s
      recvWait d i maxLen (now + timeoutMs.toUInt64) fuel s

/-! ## UDP -/

/-- `fd < 0 || fd >= UDP_MAX_SOCKETS`, the other way round. -/
def udpSlot (fd : Int) : Option (Fin 8) :=
  if h : 0 ≤ fd ∧ fd < 8 then some ⟨fd.toNat, by omega⟩ else none

/-- A UDP socket with changed fields. -/
def Host.setUdp (s : Host) (fd : Fin 8) (socket : UDPSocket) : Host :=
  { s with udpSockets := Function.update s.udpSockets fd socket }

/-- `udp_open`. -/
def udpOpen (localPort : UInt16) (s : Host) : Int × Host :=
  match (List.finRange 8).find? fun i => !(s.udpSockets i).active with
  | none => (-1, s)
  | some i =>
    ((i : Nat), s.setUdp i { s.udpSockets i with
      active := true, localPort := localPort, hasData := false, recvLen := 0 })

/-- `udp_close`. -/
def udpClose (fd : Int) (s : Host) : Host :=
  match udpSlot fd with
  | none => s
  | some i => s.setUdp i ⟨0, false, fun _ => 0, 0, 0, 0, false⟩

/-- The bytes of `UDPHeader`, the checksum as given. -/
def udpHeader (srcPort dstPort length checksum : UInt16) : List UInt8 :=
  u16Bytes (htons srcPort) ++ u16Bytes (htons dstPort) ++ u16Bytes (htons length) ++
    u16Bytes checksum

/-- `udp_send`. -/
def udpSend (fuel : Nat) (fd : Int) (dstIp : UInt32) (dstPort : UInt16) (data : List UInt8)
    (s : Host) : Rx (Int × Host) :=
  match udpSlot fd with
  | none => return (-1, s)
  | some i =>
    if !(s.udpSockets i).active then return (-1, s)
    else if data.length > 1472 then return (-1, s)
    else
      let header := udpHeader (s.udpSockets i).localPort dstPort (8 + data.length).toUInt16
      let cksum := udpChecksum s.ip dstIp (header 0 ++ data)
      ipv4Send d (ethRxHandler d fuel) fuel dstIp ipProtoUdp (header cksum ++ data) s

/-- What `udp_recv` hands over. -/
structure Received where
  data : List UInt8
  srcIp : UInt32
  srcPort : UInt16
deriving DecidableEq, Repr

/-- The loop of `udp_recv`. -/
def udpWait (fd : Fin 8) (deadline : UInt64) : Nat → Host → Rx (Option Received × Host)
  | 0, _ => Logged.stop .outOfFuel
  | fuel + 1, s => do
    let (now, s) := timerGetMs d s
    if ¬now < deadline then return (none, s)
    else do
      let s ← netRxProcess d fuel s
      let socket := s.udpSockets fd
      if socket.hasData then
        return (some ⟨socket.recvBuf.bytes 0 socket.recvLen.toNat, socket.recvSrcIp,
          socket.recvSrcPort⟩, s.setUdp fd { socket with hasData := false })
      else udpWait fd deadline fuel s

/-- `udp_recv`: what it hands over where it returns 0, and nothing where it returns -1. -/
def udpRecv (fuel : Nat) (fd : Int) (timeoutMs : UInt32) (s : Host) :
    Rx (Option Received × Host) :=
  match udpSlot fd with
  | none => return (none, s)
  | some i =>
    if !(s.udpSockets i).active then return (none, s)
    else do
      let (now, s) := timerGetMs d s
      udpWait d i (now + timeoutMs.toUInt64) fuel s

/-! ## Ping -/

/-- The loop of `icmp_ping`. -/
def pingWait (start deadline : UInt64) (seq : UInt16) : Nat → Host → Rx (Int × Host)
  | 0, _ => Logged.stop .outOfFuel
  | fuel + 1, s => do
    let (now, s) := timerGetMs d s
    if ¬now < deadline then return (-1, s)
    else do
      let s ← netRxProcess d fuel s
      if s.pingReplyReceived && s.pingReplySeq == seq then
        let (now, s) := timerGetMs d { s with pingReplyReceived := false }
        return ((now - start).toUInt32.toInt32.toInt, s)
      else pingWait start deadline seq fuel s

/-- The bytes that `icmp_ping` sends, the checksum as given. -/
def echoRequest (seq checksum : UInt16) : List UInt8 :=
  [8, 0] ++ u16Bytes checksum ++ u16Bytes (htons 0x504F) ++ u16Bytes (htons seq) ++
    (List.range 32).map UInt8.ofNat

/-- `icmp_ping`. -/
def icmpPing (fuel : Nat) (dstIp : UInt32) (seq : UInt16) (s : Host) : Rx (Int × Host) := do
  let pkt := echoRequest seq (ipChecksum (echoRequest seq 0))
  let (start, s) := timerGetMs d { s with pingReplyReceived := false }
  let (sent, s) ← ipv4Send d (ethRxHandler d fuel) fuel dstIp ipProtoIcmp pkt s
  if sent ≠ 0 then return (-1, s)
  else pingWait d start (start + 5000) seq fuel s

/-! ## Sessions -/

theorem rxSlots_ne_zero : NeZero 32 := ⟨by decide⟩

attribute [local instance] rxSlots_ne_zero in
/-- The variables at boot, behind `net_init`. -/
def Host.boot (mac : Mac) : Host where
  mac := mac
  ip := 0
  gateway := 0
  subnet := 0
  arpCache := fun _ => ⟨0, Vector.replicate 6 0, false⟩
  rxQueue := fun _ => ⟨fun _ => 0, 0⟩
  rxHead := 0
  rxTail := 0
  ipIdCounter := 1
  udpSockets := fun _ => ⟨0, false, fun _ => 0, 0, 0, 0, false⟩
  tcpSockets := fun _ => .zero
  tcpNextPort := 49152
  pingReplyReceived := false
  pingReplySeq := 0
  readings := 0
  polls := 0
  sends := 0

/-- The calls of the applications. -/
inductive Call where
  | tcpConnect (dstIp : UInt32) (dstPort : UInt16)
  | tcpClose (fd : Int)
  | tcpSend (fd : Int) (data : List UInt8)
  | tcpRecv (fd : Int) (maxLen timeoutMs : UInt32)
  | udpOpen (localPort : UInt16)
  | udpClose (fd : Int)
  | udpSend (fd : Int) (dstIp : UInt32) (dstPort : UInt16) (data : List UInt8)
  | udpRecv (fd : Int) (timeoutMs : UInt32)
  | icmpPing (dstIp : UInt32) (seq : UInt16)
  /-- What `dhcp_discover` does to the addresses. -/
  | configure (ip gateway subnet : UInt32)

/-- The host behind a call. -/
def Call.run (fuel : Nat) (s : Host) : Call → Rx Host
  | .tcpConnect ip port => Prod.snd <$> Net.tcpConnect d fuel ip port s
  | .tcpClose fd => Net.tcpClose d fuel fd s
  | .tcpSend fd data => Prod.snd <$> Net.tcpSend d fuel fd data s
  | .tcpRecv fd maxLen timeoutMs => (fun r => r.2.2) <$> Net.tcpRecv d fuel fd maxLen timeoutMs s
  | .udpOpen port => return (Net.udpOpen port s).2
  | .udpClose fd => return Net.udpClose fd s
  | .udpSend fd ip port data => Prod.snd <$> Net.udpSend d fuel fd ip port data s
  | .udpRecv fd timeoutMs => Prod.snd <$> Net.udpRecv d fuel fd timeoutMs s
  | .icmpPing ip seq => Prod.snd <$> Net.icmpPing d fuel ip seq s
  | .configure ip gateway subnet => return { s with ip := ip, gateway := gateway, subnet := subnet }

/-- Devices that deliver nothing. -/
def quietDevices : Devices where
  clock := fun _ => 0
  incoming := fun _ => none
  outcome := fun _ => 0

/-- A session: calls one after the other, with their log. A last call may not have
returned yet; then there is no host behind it. -/
inductive Session (s₀ : Host) : List NetEvent → Option Host → Prop
  | start : Session s₀ [] (some s₀)
  | call {log : List NetEvent} {s : Host} (h : Session s₀ log (some s)) (fuel : Nat) (c : Call) :
      Session s₀ (log ++ (c.run d fuel s).log) (c.run d fuel s).result.toOption

/-- Calls one after the other, each with its fuel. -/
def play : List (Nat × Call) → Host → Rx Host
  | [], s => return s
  | (fuel, c) :: calls, s => do
    let s ← c.run d fuel s
    play calls s

theorem Session.play {s₀ s : Host} {log : List NetEvent} (h : Session d s₀ log (some s))
    (calls : List (Nat × Call)) :
    Session d s₀ (log ++ (play d calls s).log) (play d calls s).result.toOption := by
  induction calls generalizing log s with
  | nil =>
      rw [Net.play, Logged.log_pure, List.append_nil]
      exact h
  | cons call calls ih =>
      rcases call with ⟨fuel, c⟩
      have hcall := h.call fuel c
      unfold Net.play
      cases hres : (c.run d fuel s).result with
      | error k =>
          rw [Logged.bind_of_error hres]
          rwa [hres] at hcall
      | ok t =>
          rw [Logged.bind_of_ok hres, ← List.append_assoc]
          rw [hres] at hcall
          exact ih hcall

theorem session_play (s₀ : Host) (calls : List (Nat × Call)) :
    Session d s₀ (play d calls s₀).log (play d calls s₀).result.toOption := by
  have h := (Session.start : Session d s₀ _ _).play d calls
  rwa [List.nil_append] at h

/-! ## A network -/

/-- Devices that deliver these frames, one at a poll, at once. -/
def Devices.script (frames : List (Option (List UInt8))) : Devices where
  clock := fun _ => 0
  incoming := fun i => frames[i]?.join
  outcome := fun _ => 0

/-- The host at 10.0.0.1. -/
def localIp : UInt32 := 0x0100000A

/-- A peer at 10.0.0.2. -/
def peerIp : UInt32 := 0x0200000A

/-- The peer's answer to an ARP request. -/
def peerArp : List UInt8 :=
  List.replicate 12 0 ++ u16Bytes (htons ethTypeArp) ++
    arpPacket 2 (Vector.replicate 6 2) peerIp (Vector.replicate 6 0) localIp

/-- A segment of the peer, in a frame. -/
def peerSegment (srcPort dstPort : UInt16) (seq ack : UInt32) (flags : UInt8)
    (data : List UInt8) : List UInt8 :=
  let header := tcpHeader srcPort dstPort seq ack flags 4096
  let cksum := tcpChecksum peerIp localIp (header 0 ++ data)
  let totalLen := (40 + data.length).toUInt16
  let ip := ipv4Header totalLen 0 ipProtoTcp
  List.replicate 12 0 ++ u16Bytes (htons ethTypeIpv4) ++
    ip (ipChecksum (ip 0 peerIp localIp)) peerIp localIp ++ header cksum ++ data

/-- The address is set, and a connection to port 80 of the peer is opened. -/
def connectCalls : List (Nat × Call) :=
  [(0, .configure localIp 0 0x00FFFFFF), (8, .tcpConnect peerIp 80)]

/-- The number that the SYN is acknowledged with when the clock shows 0. -/
def synAcked : UInt32 := initialSeq 0 + 1

/-- What the peer answers to it. -/
def connectFrames : List (Option (List UInt8)) :=
  [some peerArp, some (peerSegment 80 49152 1000 synAcked (tcpSyn ||| tcpAck) []), none]

end PolandOS.Net
