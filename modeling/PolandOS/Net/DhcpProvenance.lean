import PolandOS.Net.DhcpWaits

/-! # Where the DHCP configuration comes from

The wait for the OFFER hands its variables to `parse_options` before it knows what kind of
message it has. `provenance_iff` says when the configuration is that of one OFFER and one
ACK all the same.
-/

namespace PolandOS.Net.Dhcp

open Dialogue Logging

/-- What the ACK says of a setting, else the OFFER, else 0. -/
def agreed (x : Setting) (offer ack : List UInt8) : UInt32 :=
  if settingOf x ack ≠ 0 then settingOf x ack else settingOf x offer

/-- The REQUEST and the configuration are those of an OFFER and an ACK. -/
structure Provenance (mac : Mac) (tr : List Exchange) (s' : Interface) (offer ack : List UInt8) :
    Prop where
  request : tr.filterMap sent =
    [discoverFrame mac, requestFrame mac (yiaddr offer) (settingOf .serverId offer)]
  ip : s'.host.ip = yiaddr offer
  subnet : s'.host.subnet = agreed .subnet offer ack
  gateway : s'.host.gateway = agreed .router offer ack
  dns : s'.dns = agreed .dns offer ack

/-- The OFFER carries a setting itself, or the replies before it have left none behind. -/
def Own (x : Setting) (before : List (List UInt8)) (offer : List UInt8) : Prop :=
  (carried x offer).isSome = true ∨ (latest (carried x) before).getD 0 = 0

instance (x : Setting) (before : List (List UInt8)) (offer : List UInt8) :
    Decidable (Own x before offer) := inferInstanceAs (Decidable (_ ∨ _))

/-- The first OFFER among the replies, and the first ACK behind it. -/
structure Accepted (replies before : List (List UInt8)) (offer : List UInt8)
    (middle : List (List UInt8)) (ack : List UInt8) : Prop where
  replies : replies = before ++ offer :: (middle ++ [ack])
  before : ∀ m ∈ before, messageType m ≠ dhcpOffer
  offer : messageType offer = dhcpOffer
  middle : ∀ m ∈ middle, messageType m ≠ dhcpAck
  ack : messageType ack = dhcpAck

/-! ## The REQUEST -/

theorem u32Bytes_inj {v w : UInt32} (h : u32Bytes v = u32Bytes w) : v = w := by
  simp only [u32Bytes, List.cons.injEq, and_true] at h
  rw [← load32_u32Bytes v, h.1, h.2.1, h.2.2.1, h.2.2.2, load32_u32Bytes]

theorem dhcpFrame_inj {mac : Mac} {id : UInt16} {pkt pkt' : List UInt8}
    (hlen : pkt.length = pkt'.length) (h : dhcpFrame mac id pkt = dhcpFrame mac id pkt') :
    pkt = pkt' := by
  have hdatagram := List.append_cancel_left h
  unfold dhcpDatagram at hdatagram
  rw [hlen] at hdatagram
  exact List.append_cancel_left hdatagram

/-- It tells which server it is for. -/
theorem requestFrame_inj {mac : Mac} {ip v w : UInt32} :
    requestFrame mac ip v = requestFrame mac ip w ↔ v = w := by
  refine ⟨fun h => ?_, fun h => by rw [h]⟩
  have hlen (v : UInt32) : (u32Bytes v).length = 4 := rfl
  have hpkt := dhcpFrame_inj (by simp only [buildDhcp, addOption, List.length_append,
    List.length_cons, if_pos, hlen]) h
  unfold buildDhcp at hpkt
  rw [if_pos rfl] at hpkt
  have hoptions := List.append_cancel_right (List.append_cancel_right hpkt)
  have hserver := List.append_cancel_left (List.append_cancel_left hoptions)
  exact u32Bytes_inj (List.cons_eq_cons.mp (List.cons_eq_cons.mp hserver).2).2

/-! ## Provenance -/

theorem orKeep_eq_agreed_iff {x : Setting} {before : List (List UInt8)} {offer ack : List UInt8} :
    orKeep (settingOf x ack) ((carried x offer).getD ((latest (carried x) before).getD 0)) =
      agreed x offer ack ↔ settingOf x ack ≠ 0 ∨ Own x before offer := by
  unfold orKeep agreed Own
  by_cases hack : settingOf x ack = 0
  · rw [if_neg (not_not.mpr hack), if_neg (not_not.mpr hack)]
    unfold settingOf at *
    cases carried x offer with
    | none => simp [hack]
    | some v => simp
  · simp [hack]

variable {fuel : Nat} {tr : List Exchange} {s s' : Interface}

/-- Where `dhcp_discover` returns 0, the REQUEST and the configuration come from the OFFER and
the ACK that it has accepted exactly when no reply in front of the OFFER has left a server
identifier that the OFFER does not carry itself, nor a setting that neither carries. -/
theorem provenance_iff (h : Returns (dhcpDiscover fuel s) tr (0, s')) :
    ∃ before offer middle ack, Accepted (tr.filterMap reply) before offer middle ack ∧
      (Provenance s.host.mac tr s' offer ack ↔ Own .serverId before offer ∧
        ∀ x, x ≠ .serverId → settingOf x ack ≠ 0 ∨ Own x before offer) := by
  rcases returns_dhcpDiscover h with
    ⟨tr₁, tr₂, n, ip, out₁, out₂, rfl, hsent₁, hsent₂, hoffers, hacks, hip, hsubnet, hgateway, hdns⟩
  rcases hoffers.offer with ⟨before, offer, hframes, hbefore, hoffer, rfl, hget₁⟩
  rcases hacks.ack with ⟨middle, ack, hframes', hmiddle, hack, hget₂⟩
  have hreplies : (tr₁ ++ ⟨.send (requestFrame s.host.mac (yiaddr offer) out₁.serverId), n⟩ ::
      tr₂).filterMap reply = before ++ offer :: (middle ++ [ack]) := by
    rw [List.filterMap_append, List.filterMap_cons_none (by rfl), hframes, hframes']
    simp
  have hsent : (tr₁ ++ ⟨.send (requestFrame s.host.mac (yiaddr offer) out₁.serverId), n⟩ ::
      tr₂).filterMap sent =
        [discoverFrame s.host.mac, requestFrame s.host.mac (yiaddr offer) out₁.serverId] := by
    rw [List.filterMap_append, List.filterMap_cons_some (by rfl), hsent₁, hsent₂]
    rfl
  -- the last values of a setting, through both waits
  have hfinal (x : Setting) (hx : x ≠ .serverId) : out₂.get x = orKeep (settingOf x ack)
      ((carried x offer).getD ((latest (carried x) before).getD 0)) := by
    rw [hget₂ x hx, hget₁ x]
    cases x <;> rfl
  have hserver : out₁.serverId = settingOf .serverId offer ↔ Own .serverId before offer := by
    have hget : out₁.serverId = _ := hget₁ .serverId
    rw [hget]
    unfold settingOf Own
    cases carried .serverId offer with
    | none => simp [Parsed.get, Parsed.zero]
    | some v => simp
  refine ⟨before, offer, middle, ack, ⟨hreplies, hbefore, hoffer, hmiddle, hack⟩, ?_⟩
  constructor
  · intro hprov
    have hrequest := hprov.request
    rw [hsent, List.cons_eq_cons, List.cons_eq_cons, requestFrame_inj] at hrequest
    refine ⟨hserver.mp hrequest.2.1, fun x hx => orKeep_eq_agreed_iff.mp ?_⟩
    rw [← hfinal x hx]
    cases x with
    | serverId => exact absurd rfl hx
    | subnet => exact hsubnet.symm.trans hprov.subnet
    | router => exact hgateway.symm.trans hprov.gateway
    | dns => exact hdns.symm.trans hprov.dns
  · rintro ⟨hown, hsettings⟩
    have hagreed (x : Setting) (hx : x ≠ .serverId) : out₂.get x = agreed x offer ack := by
      rw [hfinal x hx]
      exact orKeep_eq_agreed_iff.mpr (hsettings x hx)
    exact {
      request := by rw [hsent, hserver.mpr hown]
      ip := hip
      subnet := hsubnet.trans (hagreed .subnet (by decide))
      gateway := hgateway.trans (hagreed .router (by decide))
      dns := hdns.trans (hagreed .dns (by decide)) }

/-! ## A server on the segment -/

/-- A message of a server. -/
def serverMessage (mac : Mac) (msgType : UInt8) (address : UInt32)
    (opts : List (UInt8 × List UInt8)) : List UInt8 :=
  [2, 1, 6, 0] ++ u32Bytes dhcpXid ++ u16Bytes 0 ++ u16Bytes (htons 0x8000) ++ u32Bytes 0 ++
    u32Bytes address ++ u32Bytes 0 ++ u32Bytes 0 ++ (mac.toList ++ List.replicate 10 0) ++
    List.replicate 64 0 ++ List.replicate 128 0 ++ u32Bytes (htonl dhcpMagic) ++
    addOption dhcpOptMsgtype [msgType] ++ (opts.flatMap fun opt => addOption opt.1 opt.2) ++
    [dhcpOptEnd]

/-- The frame that it is broadcast in. -/
def serverFrame (server : UInt32) (pkt : List UInt8) : List UInt8 :=
  let udpLen := (8 + pkt.length).toUInt16
  let header := ipv4Header (20 + udpLen) 1 ipProtoUdp
  List.replicate 6 0xFF ++ List.replicate 6 2 ++ u16Bytes (htons ethTypeIpv4) ++
    header (ipChecksum (header 0 server 0xFFFFFFFF)) server 0xFFFFFFFF ++
    udpHeader dhcpServerPort dhcpClientPort udpLen 0 ++ pkt

/-- A client that has just booted. -/
def freshInterface (mac : Mac) : Interface := ⟨Host.boot mac, 0, false⟩

/-- The card delivers these frames and then none, and the clock stands still. -/
def scripted (frames : List (List UInt8)) : (q : Query) → q.Answer × List (List UInt8)
  | .now => (0, frames)
  | .recv => (frames.head?, frames.tail)
  | .send _ => (0, frames)

/-- The client on a segment with these frames. -/
def played (mac : Mac) (frames : List (List UInt8)) : List Exchange × Option (Int × Interface) :=
  (dhcpDiscover 8 (freshInterface mac)).serve scripted frames

/-- An OFFER of an address, with the server. -/
def offerTo (mac : Mac) (address : UInt32) : List UInt8 :=
  serverFrame peerIp (serverMessage mac dhcpOffer address [(dhcpOptServerid, u32Bytes peerIp)])

/-- An ACK of an address. -/
def ackTo (mac : Mac) (address : UInt32) : List UInt8 :=
  serverFrame peerIp (serverMessage mac dhcpAck address [(dhcpOptServerid, u32Bytes peerIp)])

/-- The hardware addresses of two clients. -/
def firstMac : Mac := Vector.replicate 6 1

def secondMac : Mac := Vector.replicate 6 3

/-- A NAK to the second client, with a name server. -/
def strayNak : List UInt8 :=
  serverFrame peerIp (serverMessage secondMac 6 0 [(dhcpOptDns, u32Bytes peerIp)])

theorem played_returns (mac : Mac) (frames : List (List UInt8))
    (h : (played mac frames).2.map Prod.fst = some 0) :
    ∃ s', (played mac frames).2 = some (0, s') ∧
      Returns (dhcpDiscover 8 (freshInterface mac)) (played mac frames).1 (0, s') := by
  rcases Option.map_eq_some_iff.mp h with ⟨⟨n, s'⟩, hplayed, rfl⟩
  exact ⟨s', hplayed, returns_serve hplayed⟩

/-- What the first client is given: an OFFER and an ACK. -/
def plainReplies : List (List UInt8) := [offerTo firstMac localIp, ackTo firstMac localIp]

theorem provenance_iff_plain : ∃ s' before offer middle ack,
    Accepted ((played firstMac plainReplies).1.filterMap reply) before offer middle ack ∧
      (Provenance firstMac (played firstMac plainReplies).1 s' offer ack ↔
        Own .serverId before offer ∧
          ∀ x, x ≠ .serverId → settingOf x ack ≠ 0 ∨ Own x before offer) := by
  rcases played_returns firstMac plainReplies (by decide +kernel) with ⟨s', -, hrun⟩
  exact ⟨s', provenance_iff hrun⟩

/-- The name server of the configuration can come from a NAK to another client. -/
theorem stray_reply_contributes :
    ¬∀ (fuel : Nat) (s s' : Interface) (tr : List Exchange),
      Returns (dhcpDiscover fuel s) tr (0, s') → ∃ before offer middle ack,
        Accepted (tr.filterMap reply) before offer middle ack ∧
          Provenance s.host.mac tr s' offer ack := by
  intro h
  rcases played_returns firstMac (strayNak :: plainReplies) (by decide +kernel) with
    ⟨s', hplayed, hrun⟩
  rcases h 8 _ s' _ hrun with ⟨before, offer, middle, ack, haccepted, hprov⟩
  have hreplies : (played firstMac (strayNak :: plainReplies)).1.filterMap reply =
      strayNak :: plainReplies := by decide +kernel
  have hmem := haccepted.replies
  rw [hreplies] at hmem
  have hoffer : offer ∈ strayNak :: plainReplies := by
    rw [hmem]
    simp
  have hack : ack ∈ strayNak :: plainReplies := by
    rw [hmem]
    simp
  -- nobody but the NAK carries a name server
  have hoffers : ∀ m ∈ strayNak :: plainReplies, messageType m = dhcpOffer →
      settingOf .dns m = 0 := by decide
  have hacks : ∀ m ∈ strayNak :: plainReplies, messageType m = dhcpAck →
      settingOf .dns m = 0 := by decide
  have hdns : (played firstMac (strayNak :: plainReplies)).2.map (fun r => r.2.dns) =
      some peerIp := by decide +kernel
  rw [hplayed] at hdns
  have hagreed := hprov.dns
  unfold agreed at hagreed
  rw [hacks ack hack haccepted.ack, hoffers offer hoffer haccepted.offer, ite_self] at hagreed
  rw [Option.map_some, hagreed] at hdns
  exact absurd hdns (by decide)

end PolandOS.Net.Dhcp
