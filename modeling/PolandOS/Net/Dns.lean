import PolandOS.Net.Sockets

/-! # The DNS resolver

`kernel/net/dns.c`: the query is built and sent, and one datagram is waited for and
scanned. Of the scan every move of its cursor is logged.
-/

namespace PolandOS.Net

open Logging

/-! ## The query -/

/-- `'.'`. -/
def dot : UInt8 := 0x2E

/-- The loop of `dns_encode_name`: from `start` on, for at most so many labels. -/
def encodeLabels : Nat → List UInt8 → List UInt8
  | 0, _ => []
  | _ + 1, [] => []
  | fuel + 1, start =>
    let label := start.takeWhile (· ≠ dot)
    let labelLen := label.length.toUInt8
    labelLen :: start.take labelLen.toNat ++ encodeLabels fuel ((start.drop label.length).drop 1)

/-- `dns_encode_name`: what it writes. Every label takes a character of the name. -/
def dnsEncodeName (hostname : List UInt8) : List UInt8 :=
  encodeLabels hostname.length hostname ++ [0]

/-- The bytes of `DNSHeader`. -/
def dnsHeader (id flags qdcount ancount nscount arcount : UInt16) : List UInt8 :=
  u16Bytes (htons id) ++ u16Bytes (htons flags) ++ u16Bytes (htons qdcount) ++
    u16Bytes (htons ancount) ++ u16Bytes (htons nscount) ++ u16Bytes (htons arcount)

/-- `query`. -/
def dnsQuery (txid : UInt16) (hostname : List UInt8) : List UInt8 :=
  dnsHeader txid 0x0100 1 0 0 0 ++ dnsEncodeName hostname ++ [0, 1] ++ [0, 1]

/-! ## The answer -/

/-- The scan is not done yet. -/
inductive DnsStop where
  | outOfFuel
deriving DecidableEq, Repr

/-- A scan of a message: its cursor goes from there to there. -/
abbrev Scan := Logged (UInt16 × UInt16) DnsStop

/-- `rpos += n`. -/
def advance (rpos n : UInt16) : Scan UInt16 := do
  Logged.emit (rpos, rpos + n)
  return rpos + n

/-- The loop over the labels of a name; whether it knows pointers. -/
def skipLabels (pointers : Bool) (resp : View) (len : UInt16) : Nat → UInt16 → Scan UInt16
  | 0, _ => Logged.stop .outOfFuel
  | fuel + 1, rpos =>
    if rpos < len then
      let llen := resp rpos.toNat
      if llen = 0 then advance rpos 1
      else if pointers ∧ llen &&& 0xC0 = 0xC0 then advance rpos 2
      else do
        let rpos ← advance rpos (1 + llen.toUInt16)
        skipLabels pointers resp len fuel rpos
    else return rpos

/-- The name of a question. -/
def skipQname : View → UInt16 → Nat → UInt16 → Scan UInt16 := skipLabels true

/-- The name of an answer, which may be compressed. -/
def skipAnswerName (resp : View) (len : UInt16) (fuel : Nat) (rpos : UInt16) : Scan UInt16 :=
  if resp rpos.toNat &&& 0xC0 = 0xC0 then advance rpos 2
  else skipLabels false resp len fuel rpos

/-- The loop over the questions, with so many to go. -/
def skipQuestions (resp : View) (len : UInt16) (fuel : Nat) : Nat → UInt16 → Scan UInt16
  | 0, rpos => return rpos
  | n + 1, rpos =>
    if rpos < len then do
      let rpos ← skipQname resp len fuel rpos
      let rpos ← advance rpos 4
      skipQuestions resp len fuel n rpos
    else return rpos

/-- `(u16)((resp[rpos] << 8) | resp[rpos + 1])`. -/
def respU16 (resp : View) (rpos : Nat) : UInt16 :=
  (resp rpos).toUInt16 <<< 8 ||| (resp (rpos + 1)).toUInt16

/-- The loop over the answers, with so many to go. -/
def readAnswers (resp : View) (len : UInt16) (fuel : Nat) : Nat → UInt16 → Scan (Option UInt32)
  | 0, _ => return none
  | n + 1, rpos =>
    if rpos < len then do
      let rpos ← skipAnswerName resp len fuel rpos
      if rpos.toNat + 10 > len.toNat then return none
      else do
        let rtype := respU16 resp rpos.toNat
        let rdlen := respU16 resp (rpos.toNat + 8)
        let rpos ← advance rpos 10
        if rtype = 1 ∧ rdlen = 4 ∧ rpos.toNat + 4 ≤ len.toNat then
          return some (resp.u32 rpos.toNat)
        else do
          let rpos ← advance rpos rdlen
          readAnswers resp len fuel n rpos
    else return none

/-- What `dns_resolve` makes of a response to the query with this number: the address that
it returns 0 with, or nothing where it returns -1. -/
def dnsScan (txid : UInt16) (resp : View) (len : UInt16) (fuel : Nat) : Scan (Option UInt32) :=
  if len < 12 then return none
  else if ntohs (resp.u16 0) ≠ txid then return none
  else
    let ancount := ntohs (resp.u16 6)
    if ancount = 0 then return none
    else do
      let rpos ← skipQuestions resp len fuel (ntohs (resp.u16 4)).toNat 12
      readAnswers resp len fuel ancount.toNat rpos

/-! ## `dns_resolve` -/

/-- `DNS_PORT`. -/
def dnsPort : UInt16 := 53

/-- The variables that the resolver uses. -/
structure Resolver where
  host : Host
  /-- `net_dns` and `net_configured`. -/
  dns : UInt32
  configured : Bool
  /-- `dns_txid`. -/
  txid : UInt16

/-- `dns_resolve` up to the datagram that it is handed, if it is. -/
def dnsExchange (d : Devices) (fuel : Nat) (hostname : List UInt8) (r : Resolver) :
    Rx (Option Received × Resolver) :=
  if !r.configured then return (none, r)
  else
    let (fd, s) := udpOpen 53001 r.host
    if fd < 0 then return (none, { r with host := s })
    else do
      let query := dnsQuery r.txid hostname
      let r := { r with txid := r.txid + 1 }
      let (sent, s) ← udpSend d fuel fd r.dns dnsPort query s
      if sent ≠ 0 then return (none, { r with host := udpClose fd s })
      else do
        let (reply, s) ← udpRecv d fuel fd 5000 s
        return (reply, { r with host := udpClose fd s })

/-- `resp`, with these bytes at its start. -/
def respView (data : List UInt8) : View := fun i => data[i]?.getD 0

/-- The scan of what `udp_recv` has written to `resp`. Every turn of a loop over labels gets
the cursor on, so the length bounds them. -/
def scanReply (txid : UInt16) (data : List UInt8) : Scan (Option UInt32) :=
  let len := data.length.toUInt16
  dnsScan txid (respView data) len (len.toNat + 1)

/-- `dns_resolve`: the address that it returns 0 with, or nothing where it returns -1. -/
def dnsResolve (d : Devices) (fuel : Nat) (hostname : List UInt8) (r : Resolver) :
    Rx (Option UInt32 × Resolver) := do
  let (reply, r') ← dnsExchange d fuel hostname r
  match reply with
  | none => return (none, r')
  | some rcv =>
    match (scanReply r.txid rcv.data).result with
    | .error _ => Logged.stop .outOfFuel
    | .ok ip => return (ip, r')

/-! ## A name server -/

/-- A datagram of the peer, in a frame. -/
def peerDatagram (srcPort dstPort : UInt16) (data : List UInt8) : List UInt8 :=
  let totalLen := (28 + data.length).toUInt16
  let ip := ipv4Header totalLen 0 ipProtoUdp
  List.replicate 12 0 ++ u16Bytes (htons ethTypeIpv4) ++
    ip (ipChecksum (ip 0 peerIp localIp)) peerIp localIp ++
    udpHeader srcPort dstPort (8 + data.length).toUInt16 0 ++ data

/-- A resolver that asks the peer, which is in the ARP cache. -/
def peerResolver : Resolver where
  host := { Host.boot (Vector.replicate 6 1) with
    ip := localIp
    subnet := 0x00FFFFFF
    arpCache := fun _ => ⟨peerIp, Vector.replicate 6 2, true⟩ }
  dns := peerIp
  configured := true
  txid := 0x4F53

/-- The peer responds with this message. -/
def respondingPeer (message : List UInt8) : Devices :=
  .script [some (peerDatagram 53 53001 message)]

end PolandOS.Net
