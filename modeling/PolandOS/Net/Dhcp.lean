import PolandOS.Lib.Dialogue
import PolandOS.Net.Sockets

/-! # The DHCP client

`kernel/net/dhcp.c`. `dhcp_discover` polls the card and the clock itself, so it is a program
in dialogue with them; its two waits are one loop with a handler each.
-/

namespace PolandOS.Net.Dhcp

open Dialogue

/-! ## Options -/

/-- `DHCP_MAGIC`. -/
def dhcpMagic : UInt32 := 0x63825363

/-- `DHCPDISCOVER`. -/
def dhcpDiscoverType : UInt8 := 1

/-- `DHCPOFFER`. -/
def dhcpOffer : UInt8 := 2

/-- `DHCPREQUEST`. -/
def dhcpRequest : UInt8 := 3

/-- `DHCPACK`. -/
def dhcpAck : UInt8 := 5

/-- `DHCP_OPT_MSGTYPE`. -/
def dhcpOptMsgtype : UInt8 := 53

/-- `DHCP_OPT_SUBNET`. -/
def dhcpOptSubnet : UInt8 := 1

/-- `DHCP_OPT_ROUTER`. -/
def dhcpOptRouter : UInt8 := 3

/-- `DHCP_OPT_DNS`. -/
def dhcpOptDns : UInt8 := 6

/-- `DHCP_OPT_LEASE`. -/
def dhcpOptLease : UInt8 := 51

/-- `DHCP_OPT_SERVERID`. -/
def dhcpOptServerid : UInt8 := 54

/-- `DHCP_OPT_REQIP`. -/
def dhcpOptReqip : UInt8 := 50

/-- `DHCP_OPT_CLIENTID`. -/
def dhcpOptClientid : UInt8 := 61

/-- `DHCP_OPT_PARAMREQ`. -/
def dhcpOptParamreq : UInt8 := 55

/-- `DHCP_OPT_END`. -/
def dhcpOptEnd : UInt8 := 255

/-- `DHCP_OPT_PAD`. -/
def dhcpOptPad : UInt8 := 0

/-- `DHCP_CLIENT_PORT`. -/
def dhcpClientPort : UInt16 := 68

/-- `DHCP_SERVER_PORT`. -/
def dhcpServerPort : UInt16 := 67

/-- The fixed `xid` of `dhcp_discover`. -/
def dhcpXid : UInt32 := 0xDEAD0001

/-- `add_option`. -/
def addOption (type : UInt8) (data : List UInt8) : List UInt8 :=
  type :: data.length.toUInt8 :: data

/-- `build_dhcp`: the bytes of the packet that are sent. -/
def buildDhcp (mac : Mac) (msgType : UInt8) (xid offeredIp serverId : UInt32) : List UInt8 :=
  [1, 1, 6, 0] ++ u32Bytes xid ++ u16Bytes 0 ++ u16Bytes (htons 0x8000) ++ u32Bytes 0 ++
    u32Bytes 0 ++ u32Bytes 0 ++ u32Bytes 0 ++ (mac.toList ++ List.replicate 10 0) ++
    List.replicate 64 0 ++ List.replicate 128 0 ++ u32Bytes (htonl dhcpMagic) ++
    addOption dhcpOptMsgtype [msgType] ++ addOption dhcpOptClientid (1 :: mac.toList) ++
    (if msgType = dhcpRequest then
      addOption dhcpOptReqip (u32Bytes offeredIp) ++ addOption dhcpOptServerid (u32Bytes serverId)
    else []) ++
    addOption dhcpOptParamreq [dhcpOptSubnet, dhcpOptRouter, dhcpOptDns, dhcpOptLease] ++
    [dhcpOptEnd]

/-- The out-parameters of `parse_options`. -/
structure Parsed where
  msgType : UInt8
  subnet : UInt32
  router : UInt32
  dns : UInt32
  serverId : UInt32
deriving DecidableEq, Repr

/-- The variables at their declarations. -/
def Parsed.zero : Parsed := ⟨0, 0, 0, 0, 0⟩

/-- The four bytes that `memcpy` takes from a value, if it has them. -/
def word : List UInt8 → Option UInt32
  | b₀ :: b₁ :: b₂ :: b₃ :: _ => some (load32 b₀ b₁ b₂ b₃)
  | _ => none

/-- The `switch` of `parse_options`. -/
def Parsed.store (out : Parsed) (opt : UInt8 × List UInt8) : Parsed :=
  if opt.1 = dhcpOptMsgtype then { out with msgType := opt.2.head?.getD out.msgType }
  else if opt.1 = dhcpOptSubnet then { out with subnet := (word opt.2).getD out.subnet }
  else if opt.1 = dhcpOptRouter then { out with router := (word opt.2).getD out.router }
  else if opt.1 = dhcpOptDns then { out with dns := (word opt.2).getD out.dns }
  else if opt.1 = dhcpOptServerid then { out with serverId := (word opt.2).getD out.serverId }
  else out

/-- The loop of `parse_options`, over the bytes that are left of `opts`. -/
def parseFrom : Nat → List UInt8 → Parsed → Parsed
  | 0, _, out => out
  | _ + 1, [], out => out
  | n + 1, code :: rest, out =>
    if code = dhcpOptPad then parseFrom n rest out
    else if code = dhcpOptEnd then out
    else match rest with
      | [] => out
      | len :: rest =>
        if rest.length < len.toNat then out
        else parseFrom n (rest.drop len.toNat) (out.store (code, rest.take len.toNat))

/-- `parse_options`. -/
def parseOptions (opts : List UInt8) (out : Parsed) : Parsed := parseFrom opts.length opts out

/-! ## The dialogue -/

/-- What `dhcp_discover` asks: the time, for a frame, and that a frame is sent. -/
inductive Query where
  | now
  | recv
  | send (frame : List UInt8)
deriving DecidableEq

/-- The answers. -/
abbrev Query.Answer : Query → Type
  | .now => UInt64
  | .recv => Option (List UInt8)
  | .send _ => Int

/-- A program of the client. -/
abbrev Client := Prog Query Query.Answer

/-- What has been asked and answered. -/
abbrev Exchange := Sigma Query.Answer

/-- The network stack, and the two variables of `ethernet.c` that only the client assigns. -/
structure Interface where
  host : Host
  dns : UInt32
  configured : Bool

/-- `timer_get_ms`. -/
def timerGetMs : Client UInt64 := query Query.now

/-- `e1000_recv`, which cuts a frame to `ETH_MAX_FRAME` bytes. -/
def e1000Recv : Client (Option (List UInt8)) :=
  (fun r : Option (List UInt8) => r.map (·.take 1518)) <$> query Query.recv

/-- `eth_send`. -/
def ethSend (dst src : Mac) (ethertype : UInt16) (payload : List UInt8) : Client Int :=
  if payload.length > 1500 then return -1
  else query (Query.send (dst.toList ++ src.toList ++ u16Bytes (htons ethertype) ++ payload))

/-- The IPv4 packet that `dhcp_discover` builds around a message by hand. -/
def dhcpDatagram (id : UInt16) (pkt : List UInt8) : List UInt8 :=
  let udpLen := (8 + pkt.length).toUInt16
  let header := ipv4Header (20 + udpLen) id ipProtoUdp
  header (ipChecksum (header 0 0 0xFFFFFFFF)) 0 0xFFFFFFFF ++
    udpHeader dhcpClientPort dhcpServerPort udpLen 0 ++ pkt

/-- The message is broadcast. -/
def broadcast (mac : Mac) (id : UInt16) (pkt : List UInt8) : Client Int :=
  ethSend (Vector.replicate 6 0xFF) mac ethTypeIpv4 (dhcpDatagram id pkt)

/-- A byte of a frame. -/
def byte (frame : List UInt8) : View := fun i => frame.getD i 0

/-- The checks in front of `parse_options`. -/
def isReply (frame : List UInt8) : Bool :=
  !(frame.length < 14 + 20 + 8 + 240) &&
    ((byte frame 36).toUInt16 <<< 8 ||| (byte frame 37).toUInt16) == dhcpClientPort &&
    ntohl ((byte frame).u32 278) == dhcpMagic && (byte frame).u32 46 == dhcpXid

/-- `yiaddr` of the message in a frame. -/
def yiaddr (frame : List UInt8) : UInt32 := (byte frame).u32 58

/-- `options` of the message in a frame. -/
def optionBytes (frame : List UInt8) : List UInt8 := frame.drop 282

/-- What the wait for the OFFER makes of a reply. -/
def offerReply (out : Parsed) (frame : List UInt8) : Option UInt32 × Parsed :=
  let out := parseOptions (optionBytes frame) { out with msgType := 0 }
  if out.msgType = dhcpOffer then (some (yiaddr frame), out) else (none, out)

/-- `if (v) field = v`. -/
def orKeep (v old : UInt32) : UInt32 := if v ≠ 0 then v else old

/-- What the wait for the ACK makes of a reply. -/
def ackReply (out : Parsed) (frame : List UInt8) : Option Unit × Parsed :=
  let ack := parseOptions (optionBytes frame) .zero
  if ack.msgType = dhcpAck then
    (some (), { out with
      subnet := orKeep ack.subnet out.subnet
      router := orKeep ack.router out.router
      dns := orKeep ack.dns out.dns })
  else (none, out)

variable {β : Type} (handle : Parsed → List UInt8 → Option β × Parsed)

/-- The inner loop of a wait: the card is polled until it has nothing or the handler is
content. -/
def recvReply : Nat → Parsed → Client (Option β × Parsed)
  | 0, _ => .stop
  | fuel + 1, out => do
    match ← e1000Recv with
    | none => return (none, out)
    | some frame =>
      if !isReply frame then recvReply fuel out
      else match handle out frame with
        | (some b, out) => return (some b, out)
        | (none, out) => recvReply fuel out

/-- The outer loop of a wait. -/
def waitReply (deadline : UInt64) : Nat → Option β → Parsed → Client (Option β × Parsed)
  | 0, _, _ => .stop
  | fuel + 1, got, out => do
    let now ← timerGetMs
    if now < deadline ∧ got.isNone then do
      let (got, out) ← recvReply handle fuel out
      waitReply deadline fuel got out
    else return (got, out)

/-- `dhcp_discover`. -/
def dhcpDiscover (fuel : Nat) (s : Interface) : Client (Int × Interface) :=
  let (fd, host) := udpOpen dhcpClientPort s.host
  if fd < 0 then return (-1, { s with host })
  else do
    let savedIp := host.ip
    let host := { host with ip := 0 }
    let _ ← broadcast host.mac 1 (buildDhcp host.mac dhcpDiscoverType dhcpXid 0 0)
    let now ← timerGetMs
    let (offer, out) ← waitReply offerReply (now + 5000) fuel none .zero
    match offer with
    | none => return (-1, { s with host := { udpClose fd host with ip := savedIp } })
    | some offeredIp => do
      let _ ← broadcast host.mac 2 (buildDhcp host.mac dhcpRequest dhcpXid offeredIp out.serverId)
      let now ← timerGetMs
      let (ack, out) ← waitReply ackReply (now + 5000) fuel none out
      let host := udpClose fd host
      if ack.isNone then return (-1, { s with host := { host with ip := savedIp } })
      else
        let host := { host with ip := offeredIp, gateway := out.router, subnet := out.subnet }
        return (0, ⟨host, out.dns, true⟩)

end PolandOS.Net.Dhcp
