import Mathlib.Tactic.Ring
import PolandOS.Lib.Budget
import PolandOS.Net.UdpFrames

/-! # Traffic dies out

Two hosts that only poll their cards cannot keep each other busy. Every frame has a weight,
by what it can still bring about: a frame that the stack never answers weighs 1, an ARP
packet that may be a request 3, and anything else 13, since the handlers answer it with two
acknowledgements at most, each behind an ARP request. A host pays for the frames that it
handles and sends out of the weight of those that it receives (`handles_within`), so on the
whole the weight only shrinks.
-/

namespace PolandOS.Net

open Logging RingQueue

/-! ## Weights -/

/-- Bytes that a frame has at certain places. -/
abbrev Pattern := List (Nat × UInt8)

/-- The frame has these bytes. -/
def Shows (frame : List UInt8) (pattern : Pattern) : Prop :=
  ∀ b ∈ pattern, frame[b.1]? = some b.2

instance (frame : List UInt8) (pattern : Pattern) : Decidable (Shows frame pattern) :=
  inferInstanceAs (Decidable (∀ b ∈ pattern, _))

/-- An ARP packet. -/
def arpPattern : Pattern := [(12, 0x08), (13, 0x06)]

/-- An IPv4 packet without options. -/
def ipv4Pattern (protocol : UInt8) : Pattern := [(12, 0x08), (13, 0x00), (14, 0x45), (23, protocol)]

/-- What the stack never answers: ARP replies, datagrams, echo replies and acknowledgements
without data. -/
def unanswered : List Pattern :=
  [arpPattern ++ [(20, 0), (21, 2)],
    ipv4Pattern ipProtoUdp,
    ipv4Pattern ipProtoIcmp ++ [(34, 0)],
    ipv4Pattern ipProtoTcp ++ [(16, 0), (17, 40), (46, 0x50), (47, tcpAck)]]

/-- How many frames are handled and sent because of this one, at most, itself included. -/
def weight (frame : List UInt8) : Nat :=
  if ∃ p ∈ unanswered, Shows frame p then 1 else if Shows frame arpPattern then 3 else 13

variable {frame padding : List UInt8} {pattern : Pattern}

theorem shows_append {pattern' : Pattern} :
    Shows frame (pattern ++ pattern') ↔ Shows frame pattern ∧ Shows frame pattern' :=
  List.forall_mem_append

theorem Shows.pad (h : Shows frame pattern) : Shows (frame ++ padding) pattern := by
  intro b hb
  have hbyte := h b hb
  rw [List.getElem?_append_left (List.getElem?_eq_some_iff.1 hbyte).1, hbyte]

theorem shows_take {n : Nat} (hn : ∀ b ∈ pattern, b.1 < n) :
    Shows (frame.take n) pattern ↔ Shows frame pattern := by
  refine forall_congr' fun b => forall_congr' fun hb => ?_
  rw [List.getElem?_take_of_lt (hn b hb)]

theorem one_le_weight (frame : List UInt8) : 1 ≤ weight frame := by
  unfold weight
  split
  · exact le_rfl
  · split <;> decide

theorem weight_of_unanswered (pattern : Pattern) (hp : pattern ∈ unanswered)
    (h : Shows frame pattern) : weight frame = 1 := if_pos ⟨pattern, hp, h⟩

theorem weight_arp_le (h : Shows frame arpPattern) : weight frame ≤ 3 := by
  unfold weight
  rw [if_pos h]
  split <;> decide

/-- The weight of a frame, and what it shows. -/
theorem weight_cases (frame : List UInt8) :
    (weight frame = 1 ∧ ∃ p ∈ unanswered, Shows frame p) ∨
      (weight frame = 3 ∧ Shows frame arpPattern) ∨ weight frame = 13 := by
  unfold weight
  split
  case isTrue h => exact .inl ⟨rfl, h⟩
  case isFalse =>
    split
    case isTrue h => exact .inr (.inl ⟨rfl, h⟩)
    case isFalse => exact .inr (.inr rfl)

/-- Padding behind a frame does not make it heavier. -/
theorem weight_pad_le (frame padding : List UInt8) : weight (frame ++ padding) ≤ weight frame := by
  rcases weight_cases frame with ⟨hw, p, hp, hshows⟩ | ⟨hw, hshows⟩ | hw
  · rw [hw, weight_of_unanswered _ hp hshows.pad]
  · rw [hw]
    exact weight_arp_le hshows.pad
  · rw [hw]
    rcases weight_cases (frame ++ padding) with ⟨h, -⟩ | ⟨h, -⟩ | h <;> rw [h] <;> decide

/-- The card cuts a frame behind the bytes that matter. -/
theorem weight_take (frame : List UInt8) : weight (frame.take 1518) = weight frame := by
  have hall : ∀ p ∈ unanswered, ∀ b ∈ p, b.1 < 1518 := by decide
  have harp : ∀ b ∈ arpPattern, b.1 < 1518 := by decide
  have hiff : (∃ p ∈ unanswered, Shows (frame.take 1518) p) ↔
      ∃ p ∈ unanswered, Shows frame p :=
    exists_congr fun p => and_congr_right fun hp => shows_take (hall p hp)
  simp only [weight, hiff, shows_take harp]

/-! ## The potential -/

/-- The receive queue, as a ring of frames. -/
def Host.ring (s : Host) : RingBuf (List UInt8) :=
  ⟨fun i => (s.rxQueue ⟨i % 32, Nat.mod_lt i (by decide)⟩).contents, s.rxHead, s.rxTail⟩

/-- The frames in the receive queue. -/
def Host.queued (s : Host) : List (List UInt8) := s.ring.contents 32

theorem holds_queued (s : Host) : Holds 32 s.ring s.queued :=
  holds_contents s.rxTail.isLt s.rxHead.isLt

/-- The weight of some frames. -/
def totalWeight (frames : List (List UInt8)) : Nat := (frames.map weight).sum

@[simp] theorem totalWeight_append (frames frames' : List (List UInt8)) :
    totalWeight (frames ++ frames') = totalWeight frames + totalWeight frames' := by
  simp [totalWeight]

@[simp] theorem totalWeight_cons (frame : List UInt8) (frames : List (List UInt8)) :
    totalWeight (frame :: frames) = weight frame + totalWeight frames := by
  simp [totalWeight]

/-- What the card has delivered by the `n`-th poll, frame by frame. -/
def arrived (d : Devices) (n : Nat) : List (List UInt8) := (List.range n).filterMap d.incoming

/-- What is queued, less what has arrived. -/
def potential (d : Devices) (s : Host) : ℤ := totalWeight s.queued - totalWeight (arrived d s.polls)

/-- A frame is paid for when it is handled, and when it is sent, then with its weight. -/
def NetEvent.price : NetEvent → ℤ
  | .enter => 1
  | .frame bytes => 1 + weight bytes
  | _ => 0

/-- The computation pays for its frames out of what it receives and `credit`. -/
abbrev Pays {α : Type} (d : Devices) (credit : ℤ) (v : α → Host) (x : Rx α) (s : Host) : Prop :=
  Within NetEvent.price (potential d s + credit) (fun a => potential d (v a)) x

variable {d : Devices} {rx : Receiver} {fuel : Nat} {s t : Host} {credit : ℤ}

/-- Only the queue and the number of polls matter. -/
theorem potential_congr (hring : t.ring = s.ring) (hpolls : t.polls = s.polls) :
    potential d t = potential d s := by
  rw [potential, potential, Host.queued, Host.queued, hring, hpolls]

/-- A packet goes behind those that are queued. -/
theorem queued_enqueue (hroom : s.rxHead + 1 ≠ s.rxTail) (pkt : NetPacket) :
    ({ s with rxQueue := Function.update s.rxQueue s.rxHead pkt
              rxHead := s.rxHead + 1 } : Host).queued = s.queued ++ [pkt.contents] := by
  have hq := holds_queued s
  have hnext : ((s.rxHead + 1 : Fin 32) : Nat) = ((s.rxHead : Nat) + 1) % 32 := Fin.val_add ..
  have hne : ((s.rxHead : Nat) + 1) % 32 ≠ s.rxTail := by
    rw [← hnext]
    exact fun h => hroom (Fin.ext h)
  have hspace : s.queued.length + 1 < 32 := by
    have hhead : (s.rxHead : Nat) = (s.rxTail + s.queued.length) % 32 := hq.head_eq
    have hlt := hq.room
    have htail := s.rxTail.isLt
    omega
  refine Holds.contents_eq (Holds.congr (hq.push hspace pkt.contents) ?_ ?_ fun i hi => ?_)
  all_goals unfold RingBuf.push
  all_goals rw [if_pos (show (s.ring.head + 1) % 32 ≠ s.ring.tail from hne)]
  · exact hnext
  · rfl
  · change (Function.update s.rxQueue s.rxHead pkt ⟨i % 32, Nat.mod_lt i (by decide)⟩).contents =
      Function.update s.ring.slots s.rxHead pkt.contents i
    by_cases hhead : i = s.rxHead
    · have hslot : (⟨i % 32, Nat.mod_lt i (by decide)⟩ : Fin 32) = s.rxHead :=
        Fin.ext ((Nat.mod_eq_of_lt hi).trans hhead)
      rw [hslot, hhead, Function.update_self, Function.update_self]
    · have hslot : (⟨i % 32, Nat.mod_lt i (by decide)⟩ : Fin 32) ≠ s.rxHead := by
        intro h
        have hval := congrArg Fin.val h
        exact hhead ((Nat.mod_eq_of_lt hi).symm.trans hval)
      rw [Function.update_of_ne hslot, Function.update_of_ne hhead]
      rfl

/-- The first packet comes out. -/
theorem queued_dequeue {pkt : NetPacket} (h : netRxDequeue s = some (pkt, t)) :
    s.queued = pkt.contents :: t.queued ∧ t.polls = s.polls := by
  unfold netRxDequeue at h
  split at h
  · cases h
  next hne =>
    cases h
    refine ⟨?_, rfl⟩
    have hq := holds_queued s
    cases hqueued : s.queued with
    | nil =>
        rw [hqueued] at hq
        have hhead : (s.rxHead : Nat) = (s.rxTail + 0) % 32 := hq.head_eq
        rw [Nat.add_zero, Nat.mod_eq_of_lt s.rxTail.isLt] at hhead
        exact absurd (Fin.ext hhead.symm) hne
    | cons frame frames =>
        rw [hqueued] at hq
        have hfirst := hq.entry 0 frame rfl
        rw [Nat.add_zero, Nat.mod_eq_of_lt hq.tail_lt] at hfirst
        have hrest := hq.next
        have htail : ((s.rxTail + 1 : Fin 32) : Nat) = ((s.rxTail : Nat) + 1) % 32 := Fin.val_add ..
        have hslot : (⟨s.rxTail % 32, Nat.mod_lt _ (by decide)⟩ : Fin 32) = s.rxTail :=
          Fin.ext (Nat.mod_eq_of_lt s.rxTail.isLt)
        rw [← hfirst]
        refine congrArg₂ _ (congrArg (fun i => (s.rxQueue i).contents) hslot) ?_
        refine (Holds.contents_eq (Holds.congr hrest rfl ?_ fun _ _ => rfl)).symm
        exact htail

theorem arrived_succ (n : Nat) : arrived d (n + 1) = arrived d n ++ (d.incoming n).toList := by
  rw [arrived, arrived, List.range_succ, List.filterMap_append]
  cases h : d.incoming n <;> simp [h]

/-- What the card delivers is received. -/
theorem potential_poll (hring : t.ring = s.ring) (hpolls : t.polls = s.polls + 1) :
    potential d t = potential d s - totalWeight (d.incoming s.polls).toList := by
  rw [potential, potential, Host.queued, Host.queued, hring, hpolls, arrived_succ,
    totalWeight_append]
  push_cast
  ring

/-! ## Sending -/

/-- The payload of an answer: an echo reply, or a segment that only acknowledges. -/
def IsAnswer (protocol : UInt8) (payload : List UInt8) : Prop :=
  protocol = ipProtoIcmp ∧ payload[0]? = some 0 ∨
    protocol = ipProtoTcp ∧ payload.length = 20 ∧ payload[12]? = some 0x50 ∧
      payload[13]? = some tcpAck

variable {α : Type} {v : α → Host}

/-- An event that costs nothing. -/
theorem pays_free {e : NetEvent} {y : Rx α} (he : e.price = 0) (hy : Pays d credit v y s) :
    Pays d credit v (Logged.emit e >>= fun _ => y) s := by
  refine within_emit_bind ?_
  rwa [he, sub_zero]

theorem pays_ethSend {w : Nat} (dst : Mac) (ethertype : UInt16) (payload : List UInt8)
    (hw : weight (dst.toList ++ s.mac.toList ++ u16Bytes (htons ethertype) ++ payload) ≤ w) :
    Pays d (1 + w) Prod.snd (ethSend d dst ethertype payload s) s := by
  refine within_ite (fun _ => within_pure ?_) fun _ => within_emit_bind (within_pure ?_)
  · change potential d s ≤ _
    linarith [Int.natCast_nonneg w]
  · change potential d s ≤ potential d s + (1 + (w : ℤ)) - (1 + weight _)
    have hle : (weight (dst.toList ++ s.mac.toList ++ u16Bytes (htons ethertype) ++ payload) : ℤ) ≤
      w := Int.ofNat_le.2 hw
    linarith

/-- What an ARP frame shows. -/
theorem shows_arpFrame (dst src : Mac) (oper : UInt16) (sha tha : Mac) (spa tpa : UInt32) :
    Shows (dst.toList ++ src.toList ++ u16Bytes (htons ethTypeArp) ++
      arpPacket oper sha spa tha tpa)
      (arpPattern ++ [(20, (htons oper).toUInt8), (21, (htons oper >>> 8).toUInt8)]) := by
  intro b hb
  rw [List.append_assoc]
  simp only [arpPattern, List.cons_append, List.nil_append, List.mem_cons, List.not_mem_nil,
    or_false] at hb
  rcases hb with rfl | rfl | rfl | rfl
  · exact getElem?_behind_macs dst src _ 0
  · exact getElem?_behind_macs dst src _ 1
  · exact getElem?_behind_macs dst src _ 8
  · exact getElem?_behind_macs dst src _ 9

theorem pays_arpSendRequest (ip : UInt32) (s : Host) :
    Pays d 4 id (arpSendRequest d ip s) s := by
  refine within_bind (pays_ethSend (w := 3) _ _ _ ?_) fun _ _ => within_pure le_rfl
  exact weight_arp_le (shows_append.1 (shows_arpFrame _ _ _ _ _ _ _)).1

theorem pays_arpSendReply (ip : UInt32) (mac : Mac) (s : Host) :
    Pays d 2 id (arpSendReply d ip mac s) s := by
  refine within_bind (pays_ethSend (w := 1) _ _ _ ?_) fun _ _ => within_pure le_rfl
  exact le_of_eq (weight_of_unanswered (arpPattern ++ [(20, 0), (21, 2)])
    (by simp [unanswered]) (shows_arpFrame _ _ 2 _ _ _ _))

/-- An answer is never answered. -/
theorem weight_answer (dst src : Mac) (id cksum : UInt16) (srcIp dstIp : UInt32)
    {protocol : UInt8} {payload : List UInt8} (h : IsAnswer protocol payload) :
    weight (dst.toList ++ src.toList ++ u16Bytes (htons ethTypeIpv4) ++
      (ipv4Header (20 + payload.length).toUInt16 id protocol cksum srcIp dstIp ++ payload)) = 1 := by
  set header := ipv4Header (20 + payload.length).toUInt16 id protocol cksum srcIp dstIp
  -- the bytes of the frame that the patterns look at
  have hbyte : ∀ i, (dst.toList ++ src.toList ++ u16Bytes (htons ethTypeIpv4) ++
      (header ++ payload))[12 + i]? = (u16Bytes (htons ethTypeIpv4) ++ (header ++ payload))[i]? := by
    intro i
    rw [List.append_assoc]
    exact getElem?_behind_macs dst src _ i
  have hupper : ∀ i, (dst.toList ++ src.toList ++ u16Bytes (htons ethTypeIpv4) ++
      (header ++ payload))[34 + i]? = payload[i]? := by
    intro i
    have hskip := hbyte (22 + i)
    rw [← Nat.add_assoc] at hskip
    rw [hskip, ← List.append_assoc, List.getElem?_append_right (Nat.le_add_right 22 i)]
    exact congrArg (payload[·]?) (Nat.add_sub_cancel_left ..)
  have hipv4 : Shows (dst.toList ++ src.toList ++ u16Bytes (htons ethTypeIpv4) ++
      (header ++ payload)) (ipv4Pattern protocol) := by
    intro b hb
    simp only [ipv4Pattern, List.mem_cons, List.not_mem_nil, or_false] at hb
    rcases hb with rfl | rfl | rfl | rfl
    · exact hbyte 0
    · exact hbyte 1
    · exact hbyte 2
    · exact hbyte 11
  rcases h with ⟨rfl, hreply⟩ | ⟨rfl, hlen, hoffset, hflags⟩
  · refine weight_of_unanswered (ipv4Pattern ipProtoIcmp ++ [(34, 0)])
      (by simp [unanswered]) (shows_append.2 ⟨hipv4, ?_⟩)
    intro b hb
    rw [List.mem_singleton.1 hb]
    exact (hupper 0).trans hreply
  · have htotal : header = ipv4Header 40 id ipProtoTcp cksum srcIp dstIp := by
      simp only [header, hlen]
      rfl
    refine weight_of_unanswered (ipv4Pattern ipProtoTcp ++ [(16, 0), (17, 40),
      (46, 0x50), (47, tcpAck)]) (by simp [unanswered]) (shows_append.2 ⟨hipv4, ?_⟩)
    intro b hb
    simp only [List.mem_cons, List.not_mem_nil, or_false] at hb
    rcases hb with rfl | rfl | rfl | rfl
    · refine (hbyte 4).trans ?_
      rw [htotal]
      rfl
    · refine (hbyte 5).trans ?_
      rw [htotal]
      rfl
    · exact (hupper 12).trans hoffset
    · exact (hupper 13).trans hflags

/-! ## Waiting -/

/-- The receiver pays for a packet out of its weight. -/
def Thrifty (d : Devices) (rx : Receiver) : Prop :=
  ∀ pkt s, Pays d (weight pkt.contents) id (rx pkt s) s

theorem pays_netRxEnqueue (data : List UInt8) (s : Host) :
    Pays d (weight data) id (netRxEnqueue data s) s := by
  refine within_ite (fun _ => within_pure ?_) fun hroom => within_emit_bind (within_pure ?_)
  · change potential d s ≤ potential d s + (weight data : ℤ)
    linarith [Int.natCast_nonneg (weight data)]
  · have hcount : (data.take 1518).length = (data.take 1518).length.toUInt16.toNat := by
      have hle : (data.take 1518).length ≤ 1518 := List.length_take_le ..
      exact (Nat.mod_eq_of_lt (by omega)).symm
    have hcontents := contents_write (s.rxQueue s.rxHead).data hcount
    simp only [id, potential, queued_enqueue hroom, hcontents, totalWeight_append,
      totalWeight_cons, weight_take, NetEvent.price]
    simp [totalWeight]
    linarith

/-- What a poll delivers is paid back to the potential. -/
theorem within_polled {frame : List UInt8} (hring : t.ring = s.ring) (hpolls : t.polls = s.polls + 1)
    (hin : d.incoming s.polls = some frame) :
    Within NetEvent.price (potential d s) (fun u => potential d u)
      (netRxEnqueue (frame.take 1518) t) := by
  have hpoll := potential_poll (d := d) hring hpolls
  have hstored := pays_netRxEnqueue (d := d) (frame.take 1518) t
  rw [hin] at hpoll
  rw [Pays, hpoll, weight_take] at hstored
  exact hstored.mono (by simp [totalWeight])

theorem potential_idle (hring : t.ring = s.ring) (hpolls : t.polls = s.polls + 1)
    (hin : d.incoming s.polls = none) : potential d t = potential d s := by
  rw [potential_poll hring hpolls, hin]
  simp [totalWeight]

theorem pays_drainQueue (hrx : Thrifty d rx) (fuel : Nat) (s : Host) :
    Pays d 0 id (drainQueue rx fuel s) s := by
  induction fuel generalizing s with
  | zero => exact within_stop _
  | succ fuel ih =>
      unfold drainQueue
      split
      · exact within_pure (by simp)
      next pkt t hdequeue =>
        obtain ⟨hqueued, hpolls⟩ := queued_dequeue hdequeue
        have hpotential : potential d s = potential d t + weight pkt.contents := by
          rw [potential, potential, hqueued, hpolls, totalWeight_cons]
          push_cast
          ring
        rw [Pays, add_zero, hpotential]
        refine within_bind (hrx pkt t) fun u _ => ?_
        have hrest := ih u
        rwa [Pays, add_zero] at hrest

/-- A wait for an address handles frames, and each of them pays for itself. -/
theorem pays_arpWait (hrx : Thrifty d rx) (ip : UInt32) (deadline : UInt64) (fuel : Nat)
    (s : Host) : Pays d 0 Prod.snd (arpWait d rx ip deadline fuel s) s := by
  induction fuel generalizing s with
  | zero => exact within_stop _
  | succ fuel ih =>
      unfold arpWait
      refine within_ite (fun _ => within_pure ?_) fun _ => ?_
      · exact le_of_eq (add_zero _).symm
      dsimp only [timerGetMs, e1000Recv]
      rw [add_zero]
      refine within_bind (show Within NetEvent.price (potential d s) (potential d) _ from ?_)
        fun t _ => ?_
      · cases hin : d.incoming s.polls with
        | none => exact within_pure (le_of_eq (potential_idle rfl rfl hin))
        | some frame =>
            refine within_bind (within_polled rfl rfl hin) fun u _ => ?_
            have hdrained := pays_drainQueue hrx fuel u
            rwa [Pays, add_zero] at hdrained
      · split
        · exact within_pure le_rfl
        · have hrest := ih t
          rwa [Pays, add_zero] at hrest

theorem pays_arpResolve (hrx : Thrifty d rx) (fuel : Nat) (ip : UInt32) (s : Host) :
    Pays d 4 Prod.snd (arpResolve d rx fuel ip s) s := by
  unfold arpResolve
  split
  · exact within_pure (by simp)
  · refine pays_free rfl ?_
    refine within_bind (pays_arpSendRequest ip s) fun t _ => ?_
    have hwait := pays_arpWait hrx ip (d.clock t.readings + 3000) fuel
      { t with readings := t.readings + 1 }
    rw [Pays, add_zero] at hwait
    exact hwait.mono (le_of_eq (potential_congr rfl rfl))

theorem pays_ipv4Send (hrx : Thrifty d rx) (fuel : Nat) (dst : UInt32) {protocol : UInt8}
    {payload : List UInt8} (h : IsAnswer protocol payload) (s : Host) :
    Pays d 6 Prod.snd (ipv4Send d rx fuel dst protocol payload s) s := by
  refine within_ite (fun _ => within_pure (by simp)) fun _ => ?_
  -- four of the credit for the ARP request, two for the packet
  have hbudget : potential d s + 6 = potential d s + 4 + 2 := by ring
  rw [hbudget]
  refine within_bind ((pays_arpResolve hrx fuel _ s).frame 2) ?_
  rintro ⟨resolved, t⟩ -
  cases resolved with
  | none => exact within_pure (by simp)
  | some mac =>
      have hsame : potential d { t with ipIdCounter := t.ipIdCounter + 1 } = potential d t :=
        potential_congr rfl rfl
      refine Within.mono (pays_ethSend (w := 1) mac ethTypeIpv4 _ ?_) ?_
      · exact le_of_eq (weight_answer mac t.mac t.ipIdCounter _ t.ip dst h)
      · rw [hsame]
        simp

/-! ## The handlers -/

theorem pays_return {a : Host} (hring : a.ring = s.ring) (hpolls : a.polls = s.polls)
    (hcredit : 0 ≤ credit) : Pays d credit id (pure a) s := by
  refine within_pure ?_
  rw [id, potential_congr hring hpolls]
  linarith

/-- The first part pays out of its own credit. -/
theorem pays_bind {β : Type} {v' : β → Host} {x : Rx α} {f : α → Rx β} {k l : ℤ}
    (hx : Pays d k v x s) (hf : ∀ a, Pays d l v' (f a) (v a)) :
    Pays d (k + l) v' (x >>= f) s := by
  have hbudget : potential d s + (k + l) = potential d s + k + l := by ring
  rw [Pays, hbudget]
  exact within_bind (hx.frame l) fun a _ => hf a

theorem Pays.le {x : Rx α} {k : ℤ} (h : Pays d k v x s) (hle : k ≤ credit) :
    Pays d credit v x s := Within.mono h (by linarith)

theorem pays_arpRxHandler (p : View) (len : UInt16) (s : Host) (hcredit : 0 ≤ credit)
    (hrequest : ntohs (p.u16 6) = 1 → 2 ≤ credit) :
    Pays d credit id (arpRxHandler d p len s) s := by
  refine within_ite (fun _ => pays_return rfl rfl hcredit) fun _ => ?_
  refine within_ite (fun _ => pays_return rfl rfl hcredit) fun _ => ?_
  refine (pays_bind (k := 0) (v := id) ?_ fun t => ?_).le (zero_add credit).le
  · refine pays_free (e := .copy .arpMac 0 6) rfl ?_
    split
    · exact pays_return rfl rfl le_rfl
    · split <;> exact pays_return rfl rfl le_rfl
  · refine within_ite (fun h => ?_) fun _ => pays_return rfl rfl hcredit
    exact (pays_arpSendReply _ _ t).le (hrequest h.1)

theorem pays_udpRxHandler (srcIp : UInt32) (p : View) (len : UInt16) (s : Host)
    (hcredit : 0 ≤ credit) : Pays d credit id (udpRxHandler srcIp p len s) s := by
  refine within_ite (fun _ => pays_return rfl rfl hcredit) fun _ => ?_
  dsimp only
  split
  · exact pays_return rfl rfl hcredit
  · exact pays_free rfl (pays_free rfl (pays_return rfl rfl hcredit))

/-- The reply to an echo request is an echo reply. -/
theorem pays_icmpRxHandler (hrx : Thrifty d rx) (srcIp : UInt32) (p : View) (len : UInt16)
    (s : Host) (hcredit : 0 ≤ credit) (hrequest : p 0 = 8 → 6 ≤ credit) :
    Pays d credit id (icmpRxHandler d rx fuel srcIp p len s) s := by
  refine within_ite (fun _ => pays_return rfl rfl hcredit) fun hlen => ?_
  refine within_ite (fun h => ?_) fun _ => ?_
  · refine within_ite (fun _ => pays_return rfl rfl hcredit) fun _ => pays_free rfl ?_
    have hbytes : 8 ≤ len.toNat := UInt16.le_iff_toNat_le.1 (UInt16.not_lt.1 hlen)
    have hanswer : IsAnswer ipProtoIcmp
        ((((((p.bytes 0 len.toNat).set 0 0).set 2 0).set 3 0).take 2) ++
          u16Bytes (ipChecksum ((((p.bytes 0 len.toNat).set 0 0).set 2 0).set 3 0)) ++
          ((((p.bytes 0 len.toNat).set 0 0).set 2 0).set 3 0).drop 4) := by
      refine .inl ⟨rfl, ?_⟩
      rw [List.append_assoc, List.getElem?_append_left (by simp [length_bytes]; omega),
        List.getElem?_take_of_lt (by decide), List.getElem?_set_ne (by decide),
        List.getElem?_set_ne (by decide), List.getElem?_set_self (by rw [length_bytes]; omega)]
    refine (pays_bind (l := 0) (pays_ipv4Send hrx fuel srcIp hanswer s) ?_).le (hrequest h)
    exact fun r => pays_return rfl rfl le_rfl
  · exact within_ite (fun _ => pays_return rfl rfl hcredit) fun _ => pays_return rfl rfl hcredit

theorem pays_sendAck (hrx : Thrifty d rx) (fuel : Nat) (fd : Fin 4) (s : Host) :
    Pays d 6 id (sendAck d rx fuel fd s) s := by
  have hanswer : ∀ cksum, IsAnswer ipProtoTcp (tcpHeader (s.tcpSockets fd).localPort
      (s.tcpSockets fd).remotePort (s.tcpSockets fd).seq (s.tcpSockets fd).ack tcpAck
      (s.tcpSockets fd).window cksum ++ []) := fun cksum => .inr ⟨rfl, rfl, rfl, rfl⟩
  refine pays_bind (k := 6) (l := 0) (pays_free rfl ?_) fun r => pays_return rfl rfl le_rfl
  exact pays_ipv4Send hrx fuel _ (hanswer _) s

/-! ### TCP -/

theorem pays_assignState (fd : Fin 4) (cause : Cause) (new : TCPState) (s : Host) :
    Pays d 0 id (assignState fd cause new s) s :=
  pays_free rfl (pays_return rfl rfl le_rfl)

theorem pays_deactivate (fd : Fin 4) (cause : Cause) (s : Host) :
    Pays d 0 id (deactivate fd cause s) s :=
  pays_bind (k := 0) (l := 0) (pays_assignState fd cause .closed s) fun _ =>
    pays_return rfl rfl le_rfl

theorem pays_tcpLastFin (hrx : Thrifty d rx) (fd : Fin 4) (arrival : TCPState) (seg : Segment)
    (s : Host) : Pays d 6 id (tcpLastFin d rx fuel fd arrival seg s) s := by
  have hacked : potential d (assignAck fd (seg.seq + 1) s) = potential d s :=
    potential_congr rfl rfl
  rw [Pays, ← hacked]
  exact pays_bind (k := 6) (l := 0) (pays_sendAck hrx fuel fd _) fun t =>
    pays_assignState fd _ _ t

/-- Data is acknowledged, and then a FIN once more. -/
theorem pays_tcpEstablished (hrx : Thrifty d rx) (fd : Fin 4) (seg : Segment) (s : Host)
    (hcredit : 0 ≤ credit) (hmore : seg.data.length > 0 ∨ has seg.flags tcpFin = true →
      12 ≤ credit) : Pays d credit id (tcpEstablished d rx fuel fd seg s) s := by
  unfold tcpEstablished
  refine within_ite (fun _ => pays_return rfl rfl hcredit) fun _ => ?_
  by_cases hanswered : seg.data.length > 0 ∨ has seg.flags tcpFin = true
  · refine (pays_bind (k := 6) (l := 6) (v := id) ?_ fun t => ?_).le (hmore hanswered)
    · refine within_ite (fun _ => ?_) fun _ => pays_return rfl rfl (by decide)
      refine pays_bind (k := 0) (l := 6) (v := id) ?_ (pays_sendAck hrx fuel fd)
      exact pays_free rfl (pays_free rfl (pays_return rfl rfl le_rfl))
    · refine within_ite (fun _ => ?_) fun _ => pays_return rfl rfl (by decide)
      have hacked : potential d (assignAck fd (seg.seq + seg.data.length.toUInt32 + 1) t) =
        potential d t := potential_congr rfl rfl
      rw [id, ← hacked]
      exact pays_bind (k := 0) (l := 6) (pays_assignState fd _ _ _) (pays_sendAck hrx fuel fd)
  · rw [not_or] at hanswered
    rw [if_neg hanswered.1]
    have hkept : Within NetEvent.price (potential d s + credit) (fun t => potential d t + credit)
        (pure s : Rx Host) := within_pure le_rfl
    refine within_bind hkept fun t _ => ?_
    exact within_ite (fun hfin => absurd hfin hanswered.2) fun _ => pays_return rfl rfl hcredit

/-- The segment carries nothing but an acknowledgement. -/
def Segment.Bare (seg : Segment) : Prop := seg.flags = tcpAck ∧ seg.data = []

/-- A segment that is not bare pays for the answers that it causes. -/
theorem pays_tcpArrival (hrx : Thrifty d rx) (fd : Fin 4) (seg : Segment) (s : Host)
    (hcredit : 0 ≤ credit) (hmore : ¬seg.Bare → 12 ≤ credit) :
    Pays d credit id (tcpArrival d rx fuel fd seg s) s := by
  have hfin : has seg.flags tcpFin = true → 12 ≤ credit := by
    intro h
    refine hmore fun hbare => ?_
    rw [hbare.1] at h
    exact absurd h (by decide)
  refine within_ite (fun _ => (pays_deactivate fd _ s).le hcredit) fun _ => ?_
  split
  · -- a SYN is needed to go on
    refine within_ite (fun _ => pays_return rfl rfl hcredit) fun hsyn => ?_
    refine within_ite (fun _ => pays_return rfl rfl hcredit) fun _ => ?_
    have hmany : 12 ≤ credit := by
      refine hmore fun hbare => hsyn ?_
      rw [hbare.1]
      decide
    refine Pays.le (k := 0 + 6) ?_ (by linarith)
    refine pays_bind (v := id) ?_ (pays_sendAck hrx fuel fd)
    exact (pays_assignState fd _ _ _).mono (le_of_eq (congrArg (· + 0) (potential_congr rfl rfl)))
  · refine pays_tcpEstablished hrx fd seg s hcredit ?_
    rintro (hdata | h)
    · refine hmore fun hbare => ?_
      rw [hbare.2] at hdata
      exact absurd hdata (lt_irrefl 0)
    · exact hfin h
  · refine (pays_bind (k := 0) (l := credit) (v := id) ?_ fun t => ?_).le (zero_add credit).le
    · exact within_ite (fun _ => pays_assignState fd _ _ s) fun _ => pays_return rfl rfl le_rfl
    · refine within_ite (fun h => ?_) fun _ => pays_return rfl rfl hcredit
      exact (pays_tcpLastFin hrx fd _ seg t).le (by linarith [hfin h])
  · refine within_ite (fun h => ?_) fun _ => pays_return rfl rfl hcredit
    exact (pays_tcpLastFin hrx fd _ seg s).le (by linarith [hfin h])
  · exact pays_return rfl rfl hcredit
  · refine within_ite (fun _ => ?_) fun _ => pays_return rfl rfl hcredit
    exact (pays_deactivate fd _ s).le hcredit
  · exact (pays_deactivate fd _ s).le hcredit
  · exact pays_return rfl rfl hcredit

theorem pays_tcpRxHandler (hrx : Thrifty d rx) (srcIp dstIp : UInt32) (p : View) (len : UInt16)
    (s : Host) (hcredit : 0 ≤ credit) (hmore : ¬(segmentAt srcIp p len).Bare → 12 ≤ credit) :
    Pays d credit id (tcpRxHandler d rx fuel srcIp dstIp p len s) s := by
  refine within_ite (fun _ => pays_return rfl rfl hcredit) fun _ => ?_
  refine within_ite (fun _ => pays_return rfl rfl hcredit) fun _ => ?_
  refine within_ite (fun _ => pays_return rfl rfl hcredit) fun _ => pays_free rfl ?_
  refine within_ite (fun _ => pays_return rfl rfl hcredit) fun _ => ?_
  dsimp only
  split
  · exact pays_return rfl rfl hcredit
  · exact pays_tcpArrival hrx _ _ s hcredit hmore

/-! ### IPv4 and Ethernet -/

/-- The payload may call for an answer. -/
def Upper.Provokes (u : Upper) (p : View) : Prop :=
  u.protocol = ipProtoIcmp ∧ p.skip u.ihl.toNat 0 = 8 ∨
    u.protocol = ipProtoTcp ∧ ¬(segmentAt u.srcIp (p.skip u.ihl.toNat) u.len).Bare

theorem pays_ipv4RxHandler (hrx : Thrifty d rx) (p : View) (len : UInt16) (s : Host)
    (hcredit : 0 ≤ credit) (hmore : ∀ u, ipv4Upper p len = some u → u.Provokes p → 12 ≤ credit) :
    Pays d credit id (ipv4RxHandler d rx fuel p len s) s := by
  rw [ipv4RxHandler_eq]
  refine (pays_bind (k := 0) (l := credit) (v := fun _ => s) ?_ fun _ => ?_).le
    (zero_add credit).le
  · refine pays_free (e := .ipv4 p len) rfl (within_ite (fun _ => ?_) fun _ => ?_)
    · exact within_emit (by simp [NetEvent.price])
    · exact within_pure (by simp)
  · split
    · exact pays_return rfl rfl hcredit
    next u hu =>
      refine within_ite (fun h => ?_) fun _ => within_ite (fun _ => ?_) fun _ =>
        within_ite (fun h => ?_) fun _ => pays_return rfl rfl hcredit
      · refine pays_icmpRxHandler hrx _ _ _ s hcredit fun hrequest => ?_
        linarith [hmore u hu (.inl ⟨h, hrequest⟩)]
      · exact pays_udpRxHandler _ _ _ s hcredit
      · exact pays_tcpRxHandler hrx _ _ _ _ s hcredit fun hbare => hmore u hu (.inr ⟨h, hbare⟩)

variable {pkt : NetPacket}

/-- A byte of a packet, from its contents. -/
theorem data_of_contents {i : Nat} {b : UInt8} (h : pkt.contents[i]? = some b) :
    pkt.data i = b := by
  obtain ⟨hi, hget⟩ := List.getElem?_eq_some_iff.1 h
  rw [← hget]
  simp [NetPacket.contents, View.bytes]

theorem Shows.data (h : Shows pkt.contents pattern) : ∀ b ∈ pattern, pkt.data b.1 = b.2 :=
  fun b hb => data_of_contents (h b hb)

/-- The payload of an IPv4 packet without options. -/
theorem upper_of_ipv4 {protocol : UInt8} (h : Shows pkt.contents (ipv4Pattern protocol)) :
    ntohs (pkt.data.u16 12) = ethTypeIpv4 ∧ ∀ u, ipv4Upper (pkt.data.skip 14) (pkt.len - 14) =
      some u → u.protocol = protocol ∧ u.ihl = 20 ∧ u.len = ntohs (pkt.data.u16 16) - 20 := by
  have hhigh : pkt.data 12 = 0x08 := h.data (12, 0x08) (by simp [ipv4Pattern])
  have hlow : pkt.data 13 = 0x00 := h.data (13, 0x00) (by simp [ipv4Pattern])
  have hversion : pkt.data.skip 14 0 = 0x45 := h.data (14, 0x45) (by simp [ipv4Pattern])
  have hprotocol : pkt.data.skip 14 9 = protocol := h.data (23, protocol) (by simp [ipv4Pattern])
  refine ⟨?_, fun u hu => ?_⟩
  · rw [View.u16, hhigh, hlow]
    rfl
  · have hihl : ipv4HeaderLen (pkt.data.skip 14) = 20 := by
      rw [ipv4HeaderLen, hversion]
      rfl
    unfold ipv4Upper at hu
    repeat
      split at hu
      · cases hu
    cases hu
    refine ⟨hprotocol, hihl, ?_⟩
    dsimp only
    rw [hihl]
    rfl

/-- A packet that shows one of these patterns calls for no answer. -/
theorem quiet_of_unanswered (hp : pattern ∈ unanswered) (h : Shows pkt.contents pattern) :
    ntohs (pkt.data.u16 12) = ethTypeArp ∧ ntohs ((pkt.data.skip 14).u16 6) = 2 ∨
      ntohs (pkt.data.u16 12) = ethTypeIpv4 ∧ ∀ u, ipv4Upper (pkt.data.skip 14) (pkt.len - 14) =
        some u → ¬u.Provokes (pkt.data.skip 14) := by
  simp only [unanswered, List.mem_cons, List.not_mem_nil, or_false] at hp
  rcases hp with rfl | rfl | rfl | rfl
  · left
    -- an ARP reply
    have hbytes := h.data
    simp only [arpPattern, List.cons_append, List.nil_append, List.forall_mem_cons] at hbytes
    obtain ⟨htypeHigh, htypeLow, hoperHigh, hoperLow, -⟩ := hbytes
    constructor
    · rw [View.u16, htypeHigh, htypeLow]
      rfl
    · change ntohs (load16 (pkt.data 20) (pkt.data 21)) = 2
      rw [hoperHigh, hoperLow]
      rfl
  · -- a datagram
    right
    obtain ⟨htype, hupper⟩ := upper_of_ipv4 h
    refine ⟨htype, fun u hu => ?_⟩
    obtain ⟨hprotocol, -, -⟩ := hupper u hu
    rintro (⟨hicmp, -⟩ | ⟨htcp, -⟩)
    · exact absurd (hprotocol.symm.trans hicmp) (by decide)
    · exact absurd (hprotocol.symm.trans htcp) (by decide)
  · -- an echo reply
    right
    obtain ⟨hipv4, hreply⟩ := shows_append.1 h
    obtain ⟨htype, hupper⟩ := upper_of_ipv4 hipv4
    refine ⟨htype, fun u hu => ?_⟩
    obtain ⟨hprotocol, hihl, -⟩ := hupper u hu
    rintro (⟨-, hrequest⟩ | ⟨htcp, -⟩)
    · rw [hihl] at hrequest
      have hzero : pkt.data 34 = 0 := hreply.data (34, 0) (List.mem_singleton_self _)
      exact absurd (hrequest.symm.trans hzero) (by decide)
    · exact absurd (hprotocol.symm.trans htcp) (by decide)
  · -- an acknowledgement
    right
    obtain ⟨hipv4, hack⟩ := shows_append.1 h
    obtain ⟨htype, hupper⟩ := upper_of_ipv4 hipv4
    refine ⟨htype, fun u hu => ?_⟩
    obtain ⟨hprotocol, hihl, hlen⟩ := hupper u hu
    have hbytes := hack.data
    simp only [List.forall_mem_cons] at hbytes
    obtain ⟨htotalHigh, htotalLow, hoffset, hflags, -⟩ := hbytes
    have htotal : u.len = 20 := by
      rw [hlen, View.u16, htotalHigh, htotalLow]
      rfl
    rintro (⟨hicmp, -⟩ | ⟨-, hbare⟩)
    · exact absurd (hprotocol.symm.trans hicmp) (by decide)
    · refine hbare ⟨?_, ?_⟩
      · rw [hihl]
        exact hflags
      · have hheader : tcpHeaderLen ((pkt.data.skip 14).skip (20 : UInt16).toNat) = 20 := by
          change (pkt.data 46 >>> 4) * 4 = 20
          rw [hoffset]
          rfl
        rw [segmentAt, hihl, htotal, hheader]
        rfl

/-- A frame pays with its weight for all that is sent while it is handled. -/
theorem pays_ethHandle (hrx : Thrifty d rx) (pkt : NetPacket) (s : Host) :
    Pays d (weight pkt.contents - 1) id (ethHandle d rx fuel pkt s) s := by
  have hcredit : (0 : ℤ) ≤ weight pkt.contents - 1 := by
    have hone := one_le_weight pkt.contents
    omega
  refine within_ite (fun _ => pays_return rfl rfl hcredit) fun _ => ?_
  dsimp only
  refine within_ite (fun harp => ?_) fun _ => within_ite (fun hipv4 => ?_) fun _ =>
    pays_return rfl rfl hcredit
  · refine pays_arpRxHandler _ _ s hcredit fun hrequest => ?_
    rcases weight_cases pkt.contents with ⟨-, p, hp, hshows⟩ | ⟨hw, -⟩ | hw
    · rcases quiet_of_unanswered hp hshows with ⟨-, hoper⟩ | ⟨htype, -⟩
      · exact absurd (hoper.symm.trans hrequest) (by decide)
      · exact absurd (harp.symm.trans htype) (by decide)
    · omega
    · omega
  · refine pays_ipv4RxHandler hrx _ _ s hcredit fun u hu hprovokes => ?_
    rcases weight_cases pkt.contents with ⟨-, p, hp, hshows⟩ | ⟨-, hshows⟩ | hw
    · rcases quiet_of_unanswered hp hshows with ⟨htype, -⟩ | ⟨-, hquiet⟩
      · exact absurd (hipv4.symm.trans htype) (by decide)
      · exact absurd hprovokes (hquiet u hu)
    · -- an ARP packet does not get here
      have hlow : pkt.data 13 = 0x06 := hshows.data (13, 0x06) (by simp [arpPattern])
      have hhigh : pkt.data 12 = 0x08 := hshows.data (12, 0x08) (by simp [arpPattern])
      rw [View.u16, hlow, hhigh] at hipv4
      exact absurd hipv4 (by decide)
    · omega

/-- By induction on the fuel, which bounds how deep the handlers are nested. -/
theorem thrifty_ethRxHandler (d : Devices) (fuel : Nat) : Thrifty d (ethRxHandler d fuel) := by
  induction fuel with
  | zero => exact fun _ _ => within_stop _
  | succ fuel ih =>
      intro pkt s
      refine within_emit_bind ?_
      have hbudget : potential d s + weight pkt.contents - NetEvent.enter.price =
          potential d s + (weight pkt.contents - 1) := by
        rw [NetEvent.price]
        ring
      rw [hbudget]
      refine within_bind (pays_ethHandle ih pkt s) fun t _ => ?_
      have hleave : Pays d 0 id (do Logged.emit .leave; return t : Rx Host) t :=
        pays_free rfl (pays_return rfl rfl le_rfl)
      rwa [Pays, add_zero] at hleave

theorem pays_receiveAll (fuel : Nat) (s : Host) : Pays d 0 id (receiveAll d fuel s) s := by
  induction fuel generalizing s with
  | zero => exact within_stop _
  | succ fuel ih =>
      unfold receiveAll
      dsimp only [e1000Recv]
      rw [Pays, add_zero]
      cases hin : d.incoming s.polls with
      | none => exact within_pure (le_of_eq (potential_idle rfl rfl hin))
      | some frame =>
          refine within_bind (within_polled rfl rfl hin) fun t _ => ?_
          have hrest := ih t
          rwa [Pays, add_zero] at hrest

/-- A host that polls its card pays for all that it does out of what it receives. -/
theorem pays_netRxProcess (fuel : Nat) (s : Host) : Pays d 0 id (netRxProcess d fuel s) s :=
  pays_bind (k := 0) (l := 0) (pays_receiveAll fuel s) fun t =>
    pays_drainQueue (thrifty_ethRxHandler d fuel) fuel t

/-! ## Two hosts -/

/-- A host calls `net_rx_process` so and so often. -/
inductive Polls (d : Devices) (s₀ : Host) : List NetEvent → Host → Prop
  | start : Polls d s₀ [] s₀
  | poll {log : List NetEvent} {s t : Host} (fuel : Nat) : Polls d s₀ log s →
      (netRxProcess d fuel s).result = .ok t → Polls d s₀ (log ++ (netRxProcess d fuel s).log) t

/-- The frames that are handed to the card. -/
def sent (log : List NetEvent) : List (List UInt8) :=
  log.filterMap fun
    | .frame bytes => some bytes
    | _ => none

/-- How often `eth_rx_handler` is called. -/
def handled (log : List NetEvent) : Nat :=
  log.countP fun
    | .enter => true
    | _ => false

/-- What the card has delivered in between. -/
def received (d : Devices) (s t : Host) : List (List UInt8) :=
  (List.range' s.polls (t.polls - s.polls)).filterMap d.incoming

/-- The frames received are some from elsewhere and some of those sent by the peer: no frame
twice, in any order, with any padding, and perhaps not all. -/
def Comes (received foreign sent : List (List UInt8)) : Prop :=
  ∃ own padded, received.Perm (foreign ++ padded) ∧
    List.Forall₂ (fun r f => ∃ padding, r = f ++ padding) padded own ∧ own.Subperm sent

variable {log : List NetEvent}

theorem spent_price (log : List NetEvent) : spent NetEvent.price log =
    handled log + ((sent log).length + totalWeight (sent log) : Nat) := by
  induction log with
  | nil => rfl
  | cons e log ih =>
      rw [spent_cons, ih]
      cases e with
      | enter =>
          have hcount : handled (.enter :: log) = handled log + 1 := List.countP_cons_of_pos rfl
          have hsent : sent (.enter :: log) = sent log := rfl
          rw [hcount, hsent, NetEvent.price]
          push_cast
          ring
      | frame bytes =>
          have hcount : handled (.frame bytes :: log) = handled log :=
            List.countP_cons_of_neg nofun
          have hsent : sent (.frame bytes :: log) = bytes :: sent log := rfl
          rw [hcount, hsent, NetEvent.price, totalWeight_cons, List.length_cons]
          push_cast
          ring
      | _ => exact zero_add _

/-- What a host has done is paid for. -/
theorem Polls.paid (h : Polls d s log t) :
    spent NetEvent.price log + potential d t ≤ potential d s := by
  induction h with
  | start => simp
  | @poll log s t fuel _ hres ih =>
      have hcall : _ + potential d t ≤ potential d s + 0 := pays_netRxProcess fuel s t hres
      rw [spent_append]
      linarith

theorem arrived_split (d : Devices) {m n : Nat} (h : m ≤ n) :
    arrived d n = arrived d m ++ (List.range' m (n - m)).filterMap d.incoming := by
  have hrange : List.range n = List.range m ++ List.range' m (n - m) := by
    have happend := List.range'_append_1 (s := 0) (m := m) (n := n - m)
    rw [zero_add, Nat.add_sub_cancel' h] at happend
    rw [List.range_eq_range', List.range_eq_range', happend]
  rw [arrived, hrange, List.filterMap_append]
  rfl

theorem totalWeight_arrived_le (d : Devices) (s t : Host) :
    totalWeight (arrived d t.polls) ≤
      totalWeight (arrived d s.polls) + totalWeight (received d s t) := by
  rcases Nat.le_total s.polls t.polls with h | h
  · rw [arrived_split d h, totalWeight_append]
    exact le_rfl
  · rw [arrived_split d h, totalWeight_append]
    omega

theorem totalWeight_perm {frames frames' : List (List UInt8)} (h : frames.Perm frames') :
    totalWeight frames = totalWeight frames' := (h.map weight).sum_eq

theorem totalWeight_padded {padded own : List (List UInt8)}
    (h : List.Forall₂ (fun r f => ∃ padding, r = f ++ padding) padded own) :
    totalWeight padded ≤ totalWeight own := by
  induction h with
  | nil => exact le_rfl
  | cons hpad _ ih =>
      obtain ⟨padding, rfl⟩ := hpad
      rw [totalWeight_cons, totalWeight_cons]
      exact Nat.add_le_add (weight_pad_le ..) ih

theorem Comes.totalWeight_le {got foreign out : List (List UInt8)} (h : Comes got foreign out) :
    totalWeight got ≤ totalWeight foreign + totalWeight out := by
  obtain ⟨own, padded, hperm, hpadded, frames, hown, hsub⟩ := h
  have hrest : totalWeight own ≤ totalWeight out := by
    rw [← totalWeight_perm hown]
    exact (hsub.map weight).sum_le_sum fun _ _ => Nat.zero_le _
  rw [totalWeight_perm hperm, totalWeight_append]
  exact Nat.add_le_add_left ((totalWeight_padded hpadded).trans hrest) _

/-- However two hosts poll and whatever becomes of the frames on the way, the frames that they
handle and send are paid for by those that were queued and those that come from elsewhere. -/
theorem traffic_dies_out {da db : Devices} {a a' b b' : Host} {la lb : List NetEvent}
    {foreignA foreignB : List (List UInt8)} (ha : Polls da a la a') (hb : Polls db b lb b')
    (hfromB : Comes (received da a a') foreignA (sent lb))
    (hfromA : Comes (received db b b') foreignB (sent la)) :
    handled la + (sent la).length + (handled lb + (sent lb).length) ≤
      totalWeight a.queued + totalWeight b.queued + totalWeight foreignA +
        totalWeight foreignB := by
  have hpaidA := ha.paid
  have hpaidB := hb.paid
  rw [spent_price, potential, potential] at hpaidA hpaidB
  have harrivedA := totalWeight_arrived_le da a a'
  have harrivedB := totalWeight_arrived_le db b b'
  have hcomesA := hfromB.totalWeight_le
  have hcomesB := hfromA.totalWeight_le
  omega

/-! ### A question and its answer -/

/-- A host that knows nobody. -/
def lonelyHost (ip : UInt32) (mac : UInt8) : Host :=
  { Host.boot (Vector.replicate 6 mac) with ip := ip }

/-- 10.0.0.2 asks for the address of 10.0.0.1. -/
def whoHas : List UInt8 :=
  List.replicate 6 0xFF ++ List.replicate 6 2 ++ u16Bytes (htons ethTypeArp) ++
    arpPacket 1 (Vector.replicate 6 2) peerIp (Vector.replicate 6 0) localIp

/-- The answer of 10.0.0.1. -/
def isAt : List UInt8 :=
  List.replicate 6 2 ++ List.replicate 6 1 ++ u16Bytes (htons ethTypeArp) ++
    arpPacket 2 (Vector.replicate 6 1) localIp (Vector.replicate 6 2) peerIp

/-- The card delivers one frame. -/
def deliversOnce (frame : List UInt8) : Devices :=
  { quietDevices with incoming := fun n => if n = 0 then some frame else none }

/-- 10.0.0.1 receives the question. -/
def asked : Rx Host := netRxProcess (deliversOnce whoHas) 3 (lonelyHost localIp 1)

/-- 10.0.0.2 receives the answer. -/
def answered : Rx Host :=
  netRxProcess (deliversOnce (isAt ++ List.replicate 18 0)) 3 (lonelyHost peerIp 2)

/-- A request and its answer are three frames at most. -/
theorem traffic_dies_out_arp : sent asked.log = [isAt] ∧
    handled asked.log + (sent asked.log).length +
      (handled answered.log + (sent answered.log).length) ≤ 3 := by
  have hsent : sent asked.log = [isAt] := by decide
  have hpollsA : asked.result.toOption.map Host.polls = some 2 := by decide
  have hpollsB : answered.result.toOption.map Host.polls = some 2 := by decide
  cases hresA : asked.result with
  | error k =>
      rw [hresA] at hpollsA
      cases hpollsA
  | ok a' =>
    cases hresB : answered.result with
    | error k =>
        rw [hresB] at hpollsB
        cases hpollsB
    | ok b' =>
        rw [hresA] at hpollsA
        rw [hresB] at hpollsB
        have hreceivedA : received (deliversOnce whoHas) (lonelyHost localIp 1) a' = [whoHas] := by
          rw [received, Option.some.inj hpollsA]
          decide
        have hreceivedB : received (deliversOnce (isAt ++ List.replicate 18 0))
            (lonelyHost peerIp 2) b' = [isAt ++ List.replicate 18 0] := by
          rw [received, Option.some.inj hpollsB]
          decide
        have hfromB : Comes (received (deliversOnce whoHas) (lonelyHost localIp 1) a') [whoHas]
            (sent ([] ++ answered.log)) :=
          ⟨[], [], by rw [hreceivedA, List.append_nil], .nil, List.nil_subperm⟩
        have hfromA : Comes (received (deliversOnce (isAt ++ List.replicate 18 0))
            (lonelyHost peerIp 2) b') [] (sent ([] ++ asked.log)) := by
          refine ⟨[isAt], _, by rw [hreceivedB, List.nil_append], .cons ⟨_, rfl⟩ .nil, ?_⟩
          rw [List.nil_append, hsent]
        exact ⟨hsent, traffic_dies_out (.poll 3 .start hresA) (.poll 3 .start hresB) hfromB hfromA⟩

end PolandOS.Net
