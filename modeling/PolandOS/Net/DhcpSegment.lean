import PolandOS.Lib.Runs
import PolandOS.Net.DhcpProvenance

/-! # Two DHCP clients on one segment

Every client uses the same `xid` and nobody looks at `chaddr`, so that the frames of one
exchange pass the checks of the other. `leases_agree` says for which orders of the frames
both clients get the addresses that are theirs.
-/

namespace PolandOS.Net.Dhcp

open Dialogue Logging Runs

/-- The two clients. -/
inductive Station where
  | first
  | second
deriving DecidableEq, Repr

/-- `chaddr` of the message in a frame. -/
def chaddr (frame : List UInt8) : Mac := (byte frame).mac 70

/-- The frames that have been on the segment, what is left of the two programs, and what they
have asked and been answered. -/
structure Segment where
  wire : List (List UInt8)
  prog : Station → Client (Int × Interface)
  trace : Station → List Exchange

/-- The segment where both clients call `dhcp_discover`. -/
def Segment.start (fuel : Nat) (init : Station → Interface) : Segment :=
  ⟨[], fun c => dhcpDiscover fuel (init c), fun _ => []⟩

/-- What a server that keeps this address for each hardware address may broadcast: an OFFER
where there is a DISCOVER, an ACK where there is a REQUEST for the address, and other
messages. -/
inductive Answers (lease : Mac → UInt32) (wire : List (List UInt8)) (frame : List UInt8) : Prop
  | offer : discoverFrame (chaddr frame) ∈ wire → messageType frame = dhcpOffer →
      yiaddr frame = lease (chaddr frame) → Answers lease wire frame
  | ack (serverId : UInt32) :
      requestFrame (chaddr frame) (lease (chaddr frame)) serverId ∈ wire →
      messageType frame = dhcpAck → yiaddr frame = lease (chaddr frame) → Answers lease wire frame
  | other : messageType frame ≠ dhcpOffer → messageType frame ≠ dhcpAck → Answers lease wire frame

/-- What a client can be answered: any frame of the segment comes from its card, in any
order. -/
def Possible (wire : List (List UInt8)) : Exchange → Prop
  | ⟨.recv, some frame⟩ => frame ∈ wire
  | _ => True

instance (wire : List (List UInt8)) : DecidablePred (Possible wire)
  | ⟨.recv, some frame⟩ => inferInstanceAs (Decidable (frame ∈ wire))
  | ⟨.recv, none⟩ => .isTrue trivial
  | ⟨.now, _⟩ => .isTrue trivial
  | ⟨.send _, _⟩ => .isTrue trivial

/-- The steps of the segment. -/
inductive SegmentEvent where
  | client (c : Station) (e : Exchange)
  | server (frame : List UInt8)

/-- A client goes on by an exchange, or the server broadcasts a frame. -/
inductive SegmentStep (lease : Mac → UInt32) : Segment → SegmentEvent → Segment → Prop
  | client {S : Segment} {c : Station} {q : Query} {k : q.Answer → Client (Int × Interface)}
      {r : q.Answer} : S.prog c = .ask q k → Possible S.wire ⟨q, r⟩ →
      SegmentStep lease S (.client c ⟨q, r⟩) {
        wire := S.wire ++ (sent ⟨q, r⟩).toList
        prog := Function.update S.prog c (k r)
        trace := Function.update S.trace c (S.trace c ++ [⟨q, r⟩]) }
  | server {S : Segment} {frame : List UInt8} : Answers lease S.wire frame →
      frame.length ≤ 1518 → SegmentStep lease S (.server frame) { S with wire := S.wire ++ [frame] }

/-- A client that waits for an OFFER, or for an ACK behind its REQUEST, is not given the one of
another client. -/
def Addressed (mac : Mac) (before : List Exchange) (e : Exchange) : Prop :=
  ∀ frame ∈ reply e, (if (before.filterMap sent).length < 2 then messageType frame = dhcpOffer
    else messageType frame = dhcpAck) → chaddr frame = mac

instance (mac : Mac) (before : List Exchange) (e : Exchange) : Decidable (Addressed mac before e) :=
  inferInstanceAs (Decidable (∀ frame ∈ reply e, _))

/-- The steps where that is so. -/
def KeptApart (init : Station → Interface) (S : Segment) : SegmentEvent → Prop
  | .client c e => Addressed (init c).host.mac (S.trace c) e
  | .server _ => True

/-- Each of the clients that have returned 0 has the address that the server has acknowledged
for it, and no two have the same one. -/
def Agreement (init : Station → Interface) (lease : Mac → UInt32) (S : Segment) : Prop :=
  (∀ c s', S.prog c = .done (0, s') → ∃ ack ∈ S.wire, isReply ack = true ∧
    messageType ack = dhcpAck ∧ chaddr ack = (init c).host.mac ∧
      yiaddr ack = lease (init c).host.mac ∧ s'.host.ip = yiaddr ack) ∧
    ∀ s₁ s₂, S.prog .first = .done (0, s₁) → S.prog .second = .done (0, s₂) →
      s₁.host.ip ≠ s₂.host.ip

/-! ## Frames -/

theorem byte_append (l₁ l₂ : List UInt8) (i : Nat) :
    byte (l₁ ++ l₂) (l₁.length + i) = byte l₂ i := by
  unfold byte
  rw [List.getD_eq_getElem?_getD, List.getD_eq_getElem?_getD,
    List.getElem?_append_right (Nat.le_add_right _ _), Nat.add_sub_cancel_left]

/-- What the clients send is not for their port. -/
theorem isReply_dhcpFrame (mac : Mac) (id : UInt16) (pkt : List UInt8) :
    isReply (dhcpFrame mac id pkt) = false := by
  have hsplit : ∃ l₁ l₂ : List UInt8, l₁.length = 36 ∧ dhcpFrame mac id pkt =
      l₁ ++ (u16Bytes (htons dhcpServerPort) ++ l₂) := by
    let header := ipv4Header (20 + (8 + pkt.length).toUInt16) id ipProtoUdp
    refine ⟨(Vector.replicate 6 (0xFF : UInt8)).toList ++ mac.toList ++
        u16Bytes (htons ethTypeIpv4) ++ header (ipChecksum (header 0 0 0xFFFFFFFF)) 0 0xFFFFFFFF ++
        u16Bytes (htons dhcpClientPort),
      u16Bytes (htons (8 + pkt.length).toUInt16) ++ u16Bytes 0 ++ pkt, ?_, ?_⟩
    · simp only [header, ipv4Header, u16Bytes, u32Bytes, List.length_append, List.length_cons,
        List.length_nil, Vector.length_toList]
    · simp only [dhcpFrame, dhcpDatagram, udpHeader, header, List.append_assoc]
  rcases hsplit with ⟨l₁, l₂, hlen, heq⟩
  have hport₀ := byte_append l₁ (u16Bytes (htons dhcpServerPort) ++ l₂) 0
  have hport₁ := byte_append l₁ (u16Bytes (htons dhcpServerPort) ++ l₂) 1
  rw [← heq, hlen] at hport₀ hport₁
  unfold isReply
  rw [hport₀, hport₁]
  have hserver : u16Bytes (htons dhcpServerPort) = [0, 67] := by decide
  rw [hserver]
  simp [byte, dhcpClientPort]

theorem length_dhcpFrame (mac : Mac) (id : UInt16) (msgType : UInt8)
    (xid offeredIp serverId : UInt32) :
    (dhcpFrame mac id (buildDhcp mac msgType xid offeredIp serverId)).length ≤ 1518 := by
  have hlen := length_buildDhcp mac msgType xid offeredIp serverId
  simp only [dhcpFrame, dhcpDatagram, ipv4Header, udpHeader, u16Bytes, u32Bytes,
    List.length_append, List.length_cons, List.length_nil, Vector.length_toList]
  omega

/-- The questions of a client: what it sends are its own messages. -/
def SendsOwn (mac : Mac) : Query → Prop
  | .send frame => ∃ id msgType offeredIp serverId,
      frame = dhcpFrame mac id (buildDhcp mac msgType dhcpXid offeredIp serverId)
  | _ => True

section

variable {β : Type} {handle : Parsed → List UInt8 → Option β × Parsed} {mac : Mac}

theorem asks_recvReply (fuel : Nat) (out : Parsed) :
    (recvReply handle fuel out).Asks (SendsOwn mac) := by
  induction fuel generalizing out with
  | zero => trivial
  | succ fuel ih =>
      rw [recvReply]
      refine asks_bind (asks_map (asks_query trivial)) fun got => ?_
      cases got with
      | none => trivial
      | some frame =>
          dsimp only
          split
          · exact ih out
          · split
            · trivial
            · exact ih _

theorem asks_waitReply (deadline : UInt64) (fuel : Nat) (got : Option β) (out : Parsed) :
    (waitReply handle deadline fuel got out).Asks (SendsOwn mac) := by
  induction fuel generalizing got out with
  | zero => trivial
  | succ fuel ih =>
      rw [waitReply]
      refine asks_bind (asks_query trivial) fun now => ?_
      split
      · exact asks_bind (asks_recvReply fuel out) fun r => ih r.1 r.2
      · trivial

end

/-- The client sends its own messages only. -/
theorem asks_dhcpDiscover (fuel : Nat) (s : Interface) :
    (dhcpDiscover fuel s).Asks (SendsOwn s.host.mac) := by
  unfold dhcpDiscover
  rcases hopen : udpOpen dhcpClientPort s.host with ⟨fd, host⟩
  have hmac : host.mac = s.host.mac := by
    unfold udpOpen at hopen
    split at hopen <;> cases hopen <;> rfl
  dsimp only
  rw [broadcast_eq, hmac]
  split
  · trivial
  refine asks_bind (asks_query ⟨_, _, _, _, rfl⟩) fun _ => asks_bind (asks_query trivial) fun _ =>
    asks_bind (asks_waitReply ..) fun r => ?_
  rcases r with ⟨offer | ip, out⟩
  · trivial
  dsimp only
  rw [broadcast_eq]
  refine asks_bind (asks_query ⟨_, _, _, _, rfl⟩) fun _ => asks_bind (asks_query trivial) fun _ =>
    asks_bind (asks_waitReply ..) fun r => ?_
  rcases r with ⟨ack | u, out⟩
  · trivial
  · trivial

/-! ## Runs of the segment -/

variable {lease : Mac → UInt32} {init : Station → Interface} {fuel : Nat} {S S' : Segment}
  {ev : SegmentEvent}

/-- The clients have run as `dhcp_discover` runs; what they have been given is on the wire; and
what is on the wire is not a reply, or a reply of the server. -/
structure Sound (lease : Mac → UInt32) (init : Station → Interface) (fuel : Nat) (S : Segment) :
    Prop where
  path : ∀ c, Path (dhcpDiscover fuel (init c)) (S.trace c) (S.prog c)
  taken : ∀ c, ∀ frame ∈ (S.trace c).filterMap reply, frame ∈ S.wire ∧ isReply frame = true
  honest : ∀ frame ∈ S.wire, frame.length ≤ 1518 ∧ (isReply frame = true →
    messageType frame = dhcpOffer ∨ messageType frame = dhcpAck →
      yiaddr frame = lease (chaddr frame))

theorem Answers.honest {wire : List (List UInt8)} {frame : List UInt8}
    (h : Answers lease wire frame) (htype : messageType frame = dhcpOffer ∨
      messageType frame = dhcpAck) : yiaddr frame = lease (chaddr frame) := by
  cases h with
  | offer _ _ haddr => exact haddr
  | ack _ _ _ haddr => exact haddr
  | other hoffer hack => exact absurd htype (not_or.mpr ⟨hoffer, hack⟩)

/-- What is taken from the card as a reply is a frame of the segment. -/
theorem reply_of_possible {wire : List (List UInt8)} {e : Exchange} {frame : List UInt8}
    (hwire : ∀ frame ∈ wire, frame.length ≤ 1518) (h : Possible wire e)
    (hreply : reply e = some frame) : frame ∈ wire ∧ isReply frame = true := by
  rcases e with ⟨q, r⟩
  cases q with
  | now => cases hreply
  | send => cases hreply
  | recv =>
      cases r with
      | none => cases hreply
      | some whole =>
          have hmem : whole ∈ wire := h
          have htake : whole.take 1518 = whole := List.take_of_length_le (hwire whole hmem)
          simp only [reply, htake] at hreply
          split at hreply
          next hcheck =>
            cases hreply
            exact ⟨hmem, hcheck⟩
          next => cases hreply

/-- A step keeps what every client knows of the messages on the wire. -/
theorem Sound.step (hS : Sound lease init fuel S) (h : SegmentStep lease S ev S') :
    Sound lease init fuel S' := by
  -- a client goes on with its program, or the server answers one of the frames
  cases h with
  | @client c q k r hprog hpossible =>
      have hpath := hS.path c
      rw [hprog] at hpath
      have hown : SendsOwn (init c).host.mac q :=
        (hpath.asks (asks_dhcpDiscover fuel (init c))).1
      refine ⟨fun c' => ?_, fun c' frame hframe => ?_, fun frame hframe => ?_⟩
      · by_cases hc : c' = c
        · subst hc
          simp only [Function.update_self]
          exact hpath.answer r
        · simp only [Function.update_of_ne hc]
          exact hS.path c'
      · by_cases hc : c' = c
        · subst hc
          simp only [Function.update_self, List.filterMap_append, List.mem_append] at hframe
          rcases hframe with hold | hnew
          · exact ⟨List.mem_append_left _ (hS.taken c' frame hold).1, (hS.taken c' frame hold).2⟩
          · rcases List.mem_filterMap.mp hnew with ⟨e, he, hreply⟩
            cases List.mem_singleton.mp he
            have htaken := reply_of_possible (fun f hf => (hS.honest f hf).1) hpossible hreply
            exact ⟨List.mem_append_left _ htaken.1, htaken.2⟩
        · simp only [Function.update_of_ne hc] at hframe
          exact ⟨List.mem_append_left _ (hS.taken c' frame hframe).1, (hS.taken c' frame hframe).2⟩
      · rcases List.mem_append.mp hframe with hold | hnew
        · exact hS.honest frame hold
        · -- a message of a client is not a reply
          cases q with
          | now => cases hnew
          | recv => cases r <;> cases hnew
          | send own =>
              cases List.mem_singleton.mp hnew
              rcases hown with ⟨id, msgType, offeredIp, serverId, rfl⟩
              refine ⟨length_dhcpFrame .., fun hreply => ?_⟩
              rw [isReply_dhcpFrame] at hreply
              cases hreply
  | server hanswers hlen =>
      refine ⟨hS.path, fun c frame hframe => ?_, fun frame hframe => ?_⟩
      · exact ⟨List.mem_append_left _ (hS.taken c frame hframe).1, (hS.taken c frame hframe).2⟩
      · rcases List.mem_append.mp hframe with hold | hnew
        · exact hS.honest frame hold
        · cases List.mem_singleton.mp hnew
          exact ⟨hlen, fun _ htype => hanswers.honest htype⟩

theorem sound_start : Sound lease init fuel (.start fuel init) :=
  ⟨fun _ => .refl, nofun, nofun⟩

/-- No client has been given an OFFER or an ACK of the other one. -/
def Kept (init : Station → Interface) (S : Segment) : Prop :=
  ∀ c before e, before ++ [e] <+: S.trace c → Addressed (init c).host.mac before e

theorem Kept.step (hS : Kept init S) (h : Guarded (SegmentStep lease) (KeptApart init) S ev S') :
    Kept init S' := by
  rcases h with ⟨hapart, hstep⟩
  cases hstep with
  | @client c q k r hprog hpossible =>
      intro c' before e hbegins
      by_cases hc : c' = c
      · subst hc
        simp only [Function.update_self] at hbegins
        rcases List.prefix_concat_iff.mp hbegins with heq | hbegins
        · rcases List.append_inj' heq rfl with ⟨rfl, he⟩
          cases he
          exact hapart
        · exact hS c' before e hbegins
      · simp only [Function.update_of_ne hc] at hbegins
        exact hS c' before e hbegins
  | server => exact hS

/-- A reply of its trace is for the client, if it is the one that it waits for. -/
theorem Kept.chaddr_eq {c : Station} {pre mid post : List Exchange} {frame : List UInt8}
    (hS : Kept init S) (htrace : S.trace c = pre ++ (mid ++ post))
    (hmem : frame ∈ mid.filterMap reply)
    (hwaits : ∀ before, before <+: mid → if ((pre ++ before).filterMap sent).length < 2 then
      messageType frame = dhcpOffer else messageType frame = dhcpAck) :
    chaddr frame = (init c).host.mac := by
  rcases List.mem_filterMap.mp hmem with ⟨e, he, hreply⟩
  rcases List.append_of_mem he with ⟨before, after, rfl⟩
  have hbegins : (pre ++ before) ++ [e] <+: S.trace c := by
    rw [htrace]
    exact ⟨after ++ post, by simp⟩
  exact hS c _ e hbegins frame hreply (hwaits before (List.prefix_append _ _))

/-- A client that has returned 0 has been given its own address, and an ACK for it. -/
theorem own_address {c : Station} {s' : Interface} (hS : Sound lease init fuel S)
    (hkept : Kept init S) (hdone : S.prog c = .done (0, s')) :
    s'.host.ip = lease (init c).host.mac ∧ ∃ ack ∈ S.wire, isReply ack = true ∧
      messageType ack = dhcpAck ∧ chaddr ack = (init c).host.mac ∧
        yiaddr ack = lease (init c).host.mac := by
  have hreturns := hS.path c
  rw [hdone] at hreturns
  rcases returns_dhcpDiscover hreturns with
    ⟨tr₁, tr₂, n, ip, out₁, out₂, htrace, hsent₁, -, hoffers, hacks, hip, -⟩
  rcases hoffers.offer with ⟨before, offer, hframes, -, hoffer, hyiaddr, -⟩
  rcases hacks.ack with ⟨middle, ack, hframes', -, hack, -⟩
  have hofferMem : offer ∈ tr₁.filterMap reply := by
    rw [hframes]
    exact List.mem_append_right _ (List.mem_singleton.mpr rfl)
  have hackMem : ack ∈ tr₂.filterMap reply := by
    rw [hframes']
    exact List.mem_append_right _ (List.mem_singleton.mpr rfl)
  have htaken : ∀ frame, frame ∈ tr₁.filterMap reply ∨ frame ∈ tr₂.filterMap reply →
      frame ∈ S.wire ∧ isReply frame = true := by
    intro frame hframe
    refine hS.taken c frame ?_
    rw [htrace, List.filterMap_append, List.filterMap_cons_none (by rfl)]
    exact List.mem_append.mpr hframe
  rcases htaken offer (.inl hofferMem) with ⟨hofferWire, hofferReply⟩
  rcases htaken ack (.inr hackMem) with ⟨hackWire, hackReply⟩
  -- up to the REQUEST only the DISCOVER has been sent
  have hofferMac : chaddr offer = (init c).host.mac := by
    have htrace' : S.trace c = [] ++ (tr₁ ++
        ⟨.send (requestFrame (init c).host.mac ip out₁.serverId), n⟩ :: tr₂) := htrace
    refine hkept.chaddr_eq htrace' hofferMem fun before hbefore => ?_
    have hlt : (before.filterMap sent).length < 2 := by
      have hle := (hbefore.filterMap sent).length_le
      rw [hsent₁] at hle
      exact Nat.lt_succ_of_le hle
    rw [List.nil_append, if_pos hlt]
    exact hoffer
  have hackMac : chaddr ack = (init c).host.mac := by
    have htrace' : S.trace c =
        (tr₁ ++ [⟨.send (requestFrame (init c).host.mac ip out₁.serverId), n⟩]) ++ (tr₂ ++ []) := by
      rw [htrace]
      simp
    refine hkept.chaddr_eq htrace' hackMem fun before _ => ?_
    rw [List.filterMap_append, List.filterMap_append, hsent₁, if_neg (by simp [sent])]
    exact hack
  have hofferAddr := (hS.honest offer hofferWire).2 hofferReply (.inl hoffer)
  have hackAddr := (hS.honest ack hackWire).2 hackReply (.inr hack)
  rw [hofferMac] at hofferAddr
  rw [hackMac] at hackAddr
  exact ⟨by rw [hip, hyiaddr, hofferAddr], ack, hackWire, hackReply, hack, hackMac, hackAddr⟩

/-- In every run where no client, while it waits for an OFFER or an ACK, is given that of the
other one, the clients that have returned 0 have the addresses that the server has
acknowledged for them. -/
theorem leases_agree (hmac : (init .first).host.mac ≠ (init .second).host.mac)
    (hlease : ∀ c c', (init c).host.mac ≠ (init c').host.mac →
      lease (init c).host.mac ≠ lease (init c').host.mac)
    (h : Run (Guarded (SegmentStep lease) (KeptApart init)) (.start fuel init) S) :
    Agreement init lease S := by
  have hboth : Sound lease init fuel S ∧ Kept init S :=
    h.invariant (I := fun S => Sound lease init fuel S ∧ Kept init S)
      ⟨sound_start, fun _ _ _ hbegins => absurd hbegins (by simp [Segment.start])⟩
      fun _ _ _ hI hstep => ⟨hI.1.step hstep.2, hI.2.step hstep⟩
  rcases hboth with ⟨hS, hkept⟩
  constructor
  · intro c s' hdone
    rcases own_address hS hkept hdone with ⟨hip, ack, hwire, hreply, htype, hchaddr, hyiaddr⟩
    exact ⟨ack, hwire, hreply, htype, hchaddr, hyiaddr, hip.trans hyiaddr.symm⟩
  · intro s₁ s₂ h₁ h₂ heq
    rw [(own_address hS hkept h₁).1, (own_address hS hkept h₂).1] at heq
    exact hlease .first .second hmac heq

/-! ## Runs that are put together -/

theorem Possible.mono {wire wire' : List (List UInt8)} {e : Exchange} (h : Possible wire e)
    (hsub : wire ⊆ wire') : Possible wire' e := by
  rcases e with ⟨q, r⟩
  cases q with
  | now => trivial
  | send => trivial
  | recv =>
      cases r with
      | none => trivial
      | some frame => exact hsub h

theorem Answers.mono {wire wire' : List (List UInt8)} {frame : List UInt8}
    (h : Answers lease wire frame) (hsub : wire ⊆ wire') : Answers lease wire' frame := by
  cases h with
  | offer hasked htype haddr => exact .offer (hsub hasked) htype haddr
  | ack serverId hasked htype haddr => exact .ack serverId (hsub hasked) htype haddr
  | other hoffer hack => exact .other hoffer hack

/-- The segment behind exchanges of a client that leave this of its program. -/
def Segment.after (S : Segment) (c : Station) (tr : List Exchange)
    (p : Client (Int × Interface)) : Segment :=
  ⟨S.wire ++ tr.filterMap sent, Function.update S.prog c p, Function.update S.trace c (S.trace c ++ tr)⟩

variable {ok : Segment → SegmentEvent → Prop} {S₀ : Segment}

/-- The steps of one client are a run of the segment. -/
theorem run_client {c : Station} {tr : List Exchange} {p : Client (Int × Interface)}
    (hrun : Run (Guarded (SegmentStep lease) ok) S₀ S) (hpath : Path (S.prog c) tr p)
    (hpossible : ∀ e ∈ tr, Possible S.wire e)
    (hok : ∀ (T : Segment) (before : List Exchange) (e : Exchange), before ++ [e] <+: tr →
      T.trace c = S.trace c ++ before → ok T (.client c e)) :
    Run (Guarded (SegmentStep lease) ok) S₀ (S.after c tr p) := by
  induction tr generalizing S with
  | nil =>
      generalize hp : S.prog c = p₀ at hpath
      cases hpath
      have hsame : S.after c [] p = S := by
        rw [← hp]
        simp [Segment.after]
      rwa [hsame]
  | cons e tr ih =>
      generalize hp : S.prog c = p₀ at hpath
      cases hpath with
      | @ask q k r _ _ hrest =>
          have hnow : ok S (.client c ⟨q, r⟩) :=
            hok S [] _ ⟨tr, rfl⟩ (List.append_nil _).symm
          have hstep := hrun.tail ⟨hnow, .client hp (hpossible _ (List.mem_cons_self ..))⟩
          have hall := ih hstep (by simpa using hrest)
            (fun e he => (hpossible e (List.mem_cons_of_mem _ he)).mono (by simp))
            (fun T before e hbegins htrace => hok T (⟨q, r⟩ :: before) e
              (List.cons_prefix_cons.mpr ⟨rfl, hbegins⟩) (by simpa using htrace))
          have hsame : S.after c (⟨q, r⟩ :: tr) p = Segment.after {
              wire := S.wire ++ (sent ⟨q, r⟩).toList
              prog := Function.update S.prog c (k r)
              trace := Function.update S.trace c (S.trace c ++ [⟨q, r⟩]) } c tr p := by
            cases hsent : sent ⟨q, r⟩ <;> simp [Segment.after, hsent]
          rwa [hsame]

/-- Both clients go on. -/
theorem run_both {tr : Station → List Exchange} {p : Station → Client (Int × Interface)}
    (hrun : Run (Guarded (SegmentStep lease) ok) S₀ S) (hpath : ∀ c, Path (S.prog c) (tr c) (p c))
    (hpossible : ∀ c, ∀ e ∈ tr c, Possible S.wire e)
    (hok : ∀ (T : Segment) (c : Station) (before : List Exchange) (e : Exchange),
      before ++ [e] <+: tr c → T.trace c = S.trace c ++ before → ok T (.client c e)) :
    ∃ S', Run (Guarded (SegmentStep lease) ok) S₀ S' ∧
      S'.wire = S.wire ++ ((tr .first).filterMap sent ++ (tr .second).filterMap sent) ∧
      (∀ c, S'.prog c = p c) ∧ ∀ c, S'.trace c = S.trace c ++ tr c := by
  have hfirst := run_client hrun (hpath .first) (hpossible .first) fun T => hok T .first
  have hsecond : Path ((S.after .first (tr .first) (p .first)).prog .second) (tr .second)
      (p .second) := by simpa [Segment.after] using hpath .second
  have hboth := run_client hfirst hsecond
    (fun e he => (hpossible .second e he).mono (by simp [Segment.after]))
    (fun T before e hbegins htrace => hok T .second before e hbegins
      (by simpa [Segment.after] using htrace))
  refine ⟨_, hboth, by simp [Segment.after], fun c => ?_, fun c => ?_⟩
  · cases c <;> simp [Segment.after]
  · cases c <;> simp [Segment.after]

theorem run_server {frames : List (List UInt8)}
    (hrun : Run (Guarded (SegmentStep lease) ok) S₀ S)
    (hanswers : ∀ frame ∈ frames, Answers lease S.wire frame ∧ frame.length ≤ 1518)
    (hok : ∀ T frame, ok T (.server frame)) :
    Run (Guarded (SegmentStep lease) ok) S₀ { S with wire := S.wire ++ frames } := by
  induction frames generalizing S with
  | nil =>
      rw [List.append_nil]
      exact hrun
  | cons frame frames ih =>
      rcases hanswers frame (List.mem_cons_self ..) with ⟨hfirst, hlen⟩
      have hall := ih (hrun.tail ⟨hok S frame, .server hfirst hlen⟩) fun f hf =>
        ⟨(hanswers f (List.mem_cons_of_mem _ hf)).1.mono (by simp),
          (hanswers f (List.mem_cons_of_mem _ hf)).2⟩
      simpa using hall

/-- Both clients send their DISCOVER, the server broadcasts OFFERs, both go on to their
REQUEST, the server broadcasts ACKs, and both return. -/
theorem run_scene (lease : Mac → UInt32) (ok : Segment → SegmentEvent → Prop)
    (offers acks : List (List UInt8)) {discover request finish : Station → List Exchange}
    {r : Station → Int × Interface}
    (hpath : ∀ c, Returns (dhcpDiscover fuel (init c)) (discover c ++ (request c ++ finish c)) (r c))
    (hoffers : ∀ frame ∈ offers, Answers lease
      ((discover .first).filterMap sent ++ (discover .second).filterMap sent) frame ∧
        frame.length ≤ 1518)
    (hacks : ∀ frame ∈ acks, Answers lease
      ((request .first).filterMap sent ++ (request .second).filterMap sent) frame ∧
        frame.length ≤ 1518)
    (hdiscover : ∀ c, ∀ e ∈ discover c, Possible [] e)
    (hrequest : ∀ c, ∀ e ∈ request c, Possible offers e)
    (hfinish : ∀ c, ∀ e ∈ finish c, Possible acks e)
    (hclient : ∀ T c before e, before ++ [e] <+: discover c ++ (request c ++ finish c) →
      T.trace c = before → ok T (.client c e))
    (hserver : ∀ T frame, ok T (.server frame)) :
    ∃ S, Run (Guarded (SegmentStep lease) ok) (.start fuel init) S ∧
      ∀ c, S.prog c = .done (r c) := by
  choose p₁ hpath₁ hrest using fun c => (hpath c).split
  choose p₂ hpath₂ hpath₃ using fun c => (hrest c).split
  -- the DISCOVERs and the OFFERs
  obtain ⟨S₁, hrun₁, hwire₁, hprog₁, htrace₁⟩ := run_both (S := .start fuel init) .refl hpath₁
    hdiscover fun T c before e hbegins htrace =>
      hclient T c before e (hbegins.trans (List.prefix_append _ _)) htrace
  have hrun₂ := run_server hrun₁ (by rw [hwire₁]; exact hoffers) hserver
  -- the REQUESTs and the ACKs
  obtain ⟨S₃, hrun₃, hwire₃, hprog₃, htrace₃⟩ := run_both hrun₂
    (fun c => by rw [hprog₁]; exact hpath₂ c)
    (fun c e he => (hrequest c e he).mono (List.subset_append_right _ _))
    fun T c before e hbegins htrace => by
      refine hclient T c (discover c ++ before) e ?_ ?_
      · rw [List.append_assoc]
        exact (List.prefix_append_right_inj _).mpr (hbegins.trans (List.prefix_append _ _))
      · rw [htrace, htrace₁]
        rfl
  have hrun₄ := run_server hrun₃ (fun frame hframe =>
    ⟨(hacks frame hframe).1.mono (by rw [hwire₃]; exact List.subset_append_right _ _),
      (hacks frame hframe).2⟩) hserver
  obtain ⟨S₅, hrun₅, -, hprog₅, -⟩ := run_both hrun₄
    (fun c => by rw [hprog₃]; exact hpath₃ c)
    (fun c e he => (hfinish c e he).mono (List.subset_append_right _ _))
    fun T c before e hbegins htrace => by
      refine hclient T c (discover c ++ (request c ++ before)) e ?_ ?_
      · simp only [List.append_assoc]
        exact (List.prefix_append_right_inj _).mpr ((List.prefix_append_right_inj _).mpr hbegins)
      · rw [htrace, htrace₃, htrace₁]
        simp [Segment.start]
  exact ⟨S₅, hrun₅, hprog₅⟩

/-! ## Two clients that boot together -/

/-- The hardware address of a station. -/
def macOf : Station → Mac
  | .first => firstMac
  | .second => secondMac

/-- The third address of the network. -/
def thirdIp : UInt32 := 0x0300000A

/-- The addresses that the server keeps for the two. -/
def leases (mac : Mac) : UInt32 := if mac = firstMac then localIp else thirdIp

theorem leases_apart (c c' : Station) (h : macOf c ≠ macOf c') :
    leases (macOf c) ≠ leases (macOf c') := by
  cases c with
  | first =>
      cases c' with
      | first => exact absurd rfl h
      | second => decide
  | second =>
      cases c' with
      | first => decide
      | second => exact absurd rfl h

/-- The exchanges of a client that is given these replies: up to its DISCOVER, up to its
REQUEST, and the rest. -/
def discovering (mac : Mac) (frames : List (List UInt8)) : List Exchange :=
  (played mac frames).1.take 1

def requesting (mac : Mac) (frames : List (List UInt8)) : List Exchange :=
  ((played mac frames).1.drop 1).take 5

def finishing (mac : Mac) (frames : List (List UInt8)) : List Exchange :=
  ((played mac frames).1.drop 1).drop 5

theorem played_split (mac : Mac) (frames : List (List UInt8)) : (played mac frames).1 =
    discovering mac frames ++ (requesting mac frames ++ finishing mac frames) := by
  unfold discovering requesting finishing
  rw [List.take_append_drop, List.take_append_drop]

/-- The address that a client of these replies is given. -/
theorem ip_of_played {mac : Mac} {frames : List (List UInt8)} {ip : UInt32} {s' : Interface}
    (hip : (played mac frames).2.map (fun r => r.2.host.ip) = some ip)
    (h : (played mac frames).2 = some (0, s')) : s'.host.ip = ip := by
  rw [h] at hip
  exact Option.some.inj hip

/-- The history that keeps everything. -/
theorem foldl_concat (es : List Exchange) : es.foldl (fun before e => before ++ [e]) [] = es := by
  rw [List.foldl_append_eq_append, List.nil_append, ← List.flatMap_def, List.flatMap_singleton']

/-- The OFFER and the ACK of a station. -/
def ownReplies (c : Station) : List (List UInt8) :=
  [offerTo (macOf c) (leases (macOf c)), ackTo (macOf c) (leases (macOf c))]

theorem addressed_of_along {mac : Mac} {tr : List Exchange}
    (h : Along (fun before e => before ++ [e]) (Addressed mac) [] tr) (before : List Exchange)
    (e : Exchange) (hbegins : before ++ [e] <+: tr) : Addressed mac before e := by
  have hcheck := along_iff.mp h before e hbegins
  rwa [foldl_concat] at hcheck

/-- A client of these replies returns, and each of its frames is on the wire in time. -/
def Playable (mac : Mac) (frames offers acks : List (List UInt8)) : Prop :=
  (played mac frames).2.map Prod.fst = some 0 ∧
    (∀ e ∈ discovering mac frames, Possible [] e) ∧
    (∀ e ∈ requesting mac frames, Possible offers e) ∧
    ∀ e ∈ finishing mac frames, Possible acks e

instance (mac : Mac) (frames offers acks : List (List UInt8)) :
    Decidable (Playable mac frames offers acks) := inferInstanceAs (Decidable (_ ∧ _))

/-- Each client is given its own replies. -/
theorem addressed_ownReplies (c : Station) (before : List Exchange) (e : Exchange) :
    before ++ [e] <+: (played (macOf c) (ownReplies c)).1 → Addressed (macOf c) before e :=
  addressed_of_along (by cases c <;> decide +kernel) before e

theorem answers_offer {wire : List (List UInt8)} {frame : List UInt8}
    (h : discoverFrame (chaddr frame) ∈ wire ∧ messageType frame = dhcpOffer ∧
      yiaddr frame = leases (chaddr frame) ∧ frame.length ≤ 1518) :
    Answers leases wire frame ∧ frame.length ≤ 1518 := by
  rcases h with ⟨hwire, htype, hyiaddr, hlength⟩
  exact ⟨.offer hwire htype hyiaddr, hlength⟩

theorem answers_ack {wire : List (List UInt8)} {frame : List UInt8}
    (h : requestFrame (chaddr frame) (leases (chaddr frame)) peerIp ∈ wire ∧
      messageType frame = dhcpAck ∧ yiaddr frame = leases (chaddr frame) ∧ frame.length ≤ 1518) :
    Answers leases wire frame ∧ frame.length ≤ 1518 := by
  rcases h with ⟨hwire, htype, hyiaddr, hlength⟩
  exact ⟨.ack peerIp hwire htype hyiaddr, hlength⟩

theorem keptApart_ownReplies {T : Segment} {c : Station} {before : List Exchange} {e : Exchange}
    (hbegins : before ++ [e] <+: (played (macOf c) (ownReplies c)).1) (htrace : T.trace c = before) :
    KeptApart (fun c => freshInterface (macOf c)) T (.client c e) := by
  have hcheck := addressed_ownReplies c before e hbegins
  rw [← htrace] at hcheck
  exact hcheck

/-- Both clients are answered, and return. -/
theorem run_apart : ∃ S, Run (Guarded (SegmentStep leases)
    (KeptApart fun c => freshInterface (macOf c))) (.start 8 fun c => freshInterface (macOf c)) S ∧
      ∀ c, ∃ s', S.prog c = .done (0, s') := by
  have hplayable (c : Station) : Playable (macOf c) (ownReplies c)
      [offerTo firstMac localIp, offerTo secondMac thirdIp]
      [ackTo firstMac localIp, ackTo secondMac thirdIp] := by
    cases c <;> decide +kernel
  choose s' hplayed hreturns using fun c : Station =>
    played_returns (macOf c) (ownReplies c) (hplayable c).1
  have hpath (c : Station) := played_split (macOf c) (ownReplies c) ▸ hreturns c
  obtain ⟨S, hrun, hdone⟩ := run_scene leases (KeptApart fun c => freshInterface (macOf c))
    [offerTo firstMac localIp, offerTo secondMac thirdIp]
    [ackTo firstMac localIp, ackTo secondMac thirdIp] hpath
    (by
      intro frame hframe
      apply answers_offer
      revert frame
      decide +kernel)
    (by
      intro frame hframe
      apply answers_ack
      revert frame
      decide +kernel)
    (fun c => (hplayable c).2.1) (fun c => (hplayable c).2.2.1) (fun c => (hplayable c).2.2.2)
    (fun T c before e hbegins htrace =>
      keptApart_ownReplies (by rw [played_split]; exact hbegins) htrace)
    fun _ _ => trivial
  exact ⟨S, hrun, fun c => ⟨s' c, hdone c⟩⟩

theorem leases_agree_apart : ∃ S : Segment, (∀ c, ∃ s', S.prog c = .done (0, s')) ∧
    Agreement (fun c => freshInterface (macOf c)) leases S := by
  obtain ⟨S, hrun, hdone⟩ := run_apart
  exact ⟨S, hdone, leases_agree (by decide) leases_apart hrun⟩

/-- Both clients are given the replies for the first one, each step of it. -/
theorem run_shared : ∃ (S : Segment) (s₁ s₂ : Interface),
    Run (SegmentStep leases) (.start 8 fun c => freshInterface (macOf c)) S ∧
      S.prog .first = .done (0, s₁) ∧ S.prog .second = .done (0, s₂) ∧
        s₁.host.ip = s₂.host.ip := by
  have hplayable (c : Station) :
      Playable (macOf c) plainReplies [offerTo firstMac localIp] [ackTo firstMac localIp] ∧
        (played (macOf c) plainReplies).2.map (fun r => r.2.host.ip) = some localIp := by
    cases c <;> decide +kernel
  choose s' hplayed hreturns using fun c : Station =>
    played_returns (macOf c) plainReplies (hplayable c).1.1
  have hpath (c : Station) := played_split (macOf c) plainReplies ▸ hreturns c
  obtain ⟨S, hrun, hdone⟩ := run_scene leases (fun _ _ => True) [offerTo firstMac localIp]
    [ackTo firstMac localIp] hpath
    (by
      intro frame hframe
      cases List.mem_singleton.mp hframe
      apply answers_offer
      decide +kernel)
    (by
      intro frame hframe
      cases List.mem_singleton.mp hframe
      apply answers_ack
      decide +kernel)
    (fun c => (hplayable c).1.2.1) (fun c => (hplayable c).1.2.2.1)
    (fun c => (hplayable c).1.2.2.2) (fun _ _ _ _ _ _ => trivial) (fun _ _ => trivial)
  refine ⟨S, s' .first, s' .second, hrun.mono fun _ _ _ hstep => hstep.2, hdone .first,
    hdone .second, ?_⟩
  have hip (c : Station) : (s' c).host.ip = localIp :=
    ip_of_played (hplayable c).2 (hplayed c)
  rw [hip, hip]

/-- Two clients can both get the address that is meant for the first one. -/
theorem same_address_twice :
    ¬∀ (lease : Mac → UInt32) (fuel : Nat) (init : Station → Interface) (S : Segment),
      (init .first).host.mac ≠ (init .second).host.mac →
      (∀ c c', (init c).host.mac ≠ (init c').host.mac →
        lease (init c).host.mac ≠ lease (init c').host.mac) →
      Run (SegmentStep lease) (.start fuel init) S →
      ∀ s₁ s₂, S.prog .first = .done (0, s₁) → S.prog .second = .done (0, s₂) →
        s₁.host.ip ≠ s₂.host.ip := by
  intro h
  obtain ⟨S, s₁, s₂, hrun, hfirst, hsecond, heq⟩ := run_shared
  exact h leases 8 _ S (by decide) leases_apart hrun s₁ s₂ hfirst hsecond heq

end PolandOS.Net.Dhcp
