import PolandOS.Lib.Traces
import PolandOS.Net.Dhcp

/-! # What the waits of the DHCP client do

`parse_options` by the options that a message holds, and `dhcp_discover` by the replies that
it has taken from the card: `returns_dhcpDiscover`.
-/

namespace PolandOS.Net.Dhcp

open Dialogue Logging

/-! ## What a message holds -/

/-- The options in so many bytes. -/
def optionsFrom : Nat → List UInt8 → List (UInt8 × List UInt8)
  | 0, _ => []
  | _ + 1, [] => []
  | n + 1, code :: rest =>
    if code = dhcpOptPad then optionsFrom n rest
    else if code = dhcpOptEnd then []
    else match rest with
      | [] => []
      | len :: rest =>
        if rest.length < len.toNat then []
        else (code, rest.take len.toNat) :: optionsFrom n (rest.drop len.toNat)

/-- The options of the message in a frame. -/
def options (frame : List UInt8) : List (UInt8 × List UInt8) :=
  optionsFrom (optionBytes frame).length (optionBytes frame)

theorem parseFrom_eq (n : Nat) (opts : List UInt8) (out : Parsed) :
    parseFrom n opts out = (optionsFrom n opts).foldl Parsed.store out := by
  induction n generalizing opts out with
  | zero => rfl
  | succ n ih =>
      rcases opts with - | ⟨code, rest⟩
      · rfl
      · rw [parseFrom.eq_def, optionsFrom.eq_def]
        dsimp only
        by_cases hpad : code = dhcpOptPad
        · rw [if_pos hpad, if_pos hpad, ih]
        · rw [if_neg hpad, if_neg hpad]
          by_cases hend : code = dhcpOptEnd
          · rw [if_pos hend, if_pos hend, List.foldl_nil]
          · rw [if_neg hend, if_neg hend]
            rcases rest with - | ⟨len, rest⟩
            · rfl
            · dsimp only
              split
              · rfl
              · rw [ih, List.foldl_cons]

/-- The settings that options carry. -/
inductive Setting where
  | subnet
  | router
  | dns
  | serverId
deriving DecidableEq

/-- The option of a setting. -/
def Setting.code : Setting → UInt8
  | .subnet => dhcpOptSubnet
  | .router => dhcpOptRouter
  | .dns => dhcpOptDns
  | .serverId => dhcpOptServerid

/-- The out-parameter of a setting. -/
def Parsed.get (out : Parsed) : Setting → UInt32
  | .subnet => out.subnet
  | .router => out.router
  | .dns => out.dns
  | .serverId => out.serverId

/-- The value of a setting in an option. -/
def Setting.value (x : Setting) (opt : UInt8 × List UInt8) : Option UInt32 :=
  if opt.1 = x.code then word opt.2 else none

/-- The value that a message carries for a setting: that of the last option. -/
def carried (x : Setting) (frame : List UInt8) : Option UInt32 := latest x.value (options frame)

/-- The type of the message in an option. -/
def typeOf (opt : UInt8 × List UInt8) : Option UInt8 :=
  if opt.1 = dhcpOptMsgtype then opt.2.head? else none

/-- The type of a message, 0 if it says none. -/
def messageType (frame : List UInt8) : UInt8 := (latest typeOf (options frame)).getD 0

/-- An option is stored in its own field. -/
theorem get_store (x : Setting) (out : Parsed) (opt : UInt8 × List UInt8) :
    (out.store opt).get x = (x.value opt).getD (out.get x) := by
  rcases opt with ⟨code, value⟩
  unfold Parsed.store Setting.value
  by_cases htype : code = dhcpOptMsgtype
  · subst htype
    cases x <;> rfl
  by_cases hsubnet : code = dhcpOptSubnet
  · subst hsubnet
    cases x <;> rfl
  by_cases hrouter : code = dhcpOptRouter
  · subst hrouter
    cases x <;> rfl
  by_cases hdns : code = dhcpOptDns
  · subst hdns
    cases x <;> rfl
  by_cases hserver : code = dhcpOptServerid
  · subst hserver
    cases x <;> rfl
  -- an option of another kind
  have hcode : code ≠ x.code := by
    cases x
    · exact hsubnet
    · exact hrouter
    · exact hdns
    · exact hserver
  simp only [htype, hsubnet, hrouter, hdns, hserver, hcode, if_false, Option.getD_none]

theorem msgType_store (out : Parsed) (opt : UInt8 × List UInt8) :
    (out.store opt).msgType = (typeOf opt).getD out.msgType := by
  unfold Parsed.store typeOf
  split
  · rfl
  · repeat' split
    all_goals rfl

/-- `parse_options` leaves what the message does not carry as it was. -/
theorem get_parseOptions (x : Setting) (frame : List UInt8) (out : Parsed) :
    (parseOptions (optionBytes frame) out).get x = (carried x frame).getD (out.get x) := by
  rw [parseOptions, parseFrom_eq]
  exact foldl_latest (v := fun out : Parsed => out.get x) (get_store x) out (options frame)

theorem msgType_parseOptions (frame : List UInt8) (out : Parsed) :
    (parseOptions (optionBytes frame) out).msgType =
      (latest typeOf (options frame)).getD out.msgType := by
  rw [parseOptions, parseFrom_eq]
  exact foldl_latest (v := Parsed.msgType) msgType_store out (options frame)

/-! ## The handlers -/

variable {out out' : Parsed} {frame : List UInt8}

/-- An OFFER is accepted, and nothing else. -/
theorem offerReply_fst (out : Parsed) (frame : List UInt8) : (offerReply out frame).1 =
    if messageType frame = dhcpOffer then some (yiaddr frame) else none := by
  have htype : (parseOptions (optionBytes frame) { out with msgType := 0 }).msgType =
      messageType frame := msgType_parseOptions _ _
  unfold offerReply
  dsimp only
  rw [htype]
  split <;> rfl

theorem offerReply_some {ip : UInt32} (h : offerReply out frame = (some ip, out')) :
    messageType frame = dhcpOffer ∧ ip = yiaddr frame := by
  have hfst := offerReply_fst out frame
  rw [h] at hfst
  split at hfst
  next htype => exact ⟨htype, Option.some.inj hfst⟩
  next => cases hfst

theorem offerReply_none (h : offerReply out frame = (none, out')) :
    messageType frame ≠ dhcpOffer := by
  intro htype
  have hfst := offerReply_fst out frame
  rw [h, if_pos htype] at hfst
  cases hfst

theorem get_offerReply {got : Option UInt32} (h : offerReply out frame = (got, out')) (x : Setting) :
    out'.get x = (carried x frame).getD (out.get x) := by
  have hget : (parseOptions (optionBytes frame) { out with msgType := 0 }).get x =
      (carried x frame).getD (out.get x) := by
    rw [get_parseOptions]
    cases x <;> rfl
  unfold offerReply at h
  dsimp only at h
  split at h
  · cases h
    exact hget
  · cases h
    exact hget

/-- The value that a message carries for a setting, 0 if it carries none. -/
def settingOf (x : Setting) (frame : List UInt8) : UInt32 := (carried x frame).getD 0

theorem ackReply_none (h : ackReply out frame = (none, out')) :
    messageType frame ≠ dhcpAck ∧ out' = out := by
  have htype : (parseOptions (optionBytes frame) .zero).msgType = messageType frame :=
    msgType_parseOptions _ _
  unfold ackReply at h
  dsimp only at h
  rw [htype] at h
  split at h
  next => cases h
  next hne =>
    cases h
    exact ⟨hne, rfl⟩

/-- An ACK overrides the settings that it has a value for. -/
theorem ackReply_some (h : ackReply out frame = (some (), out')) :
    messageType frame = dhcpAck ∧
      ∀ x, x ≠ .serverId → out'.get x = orKeep (settingOf x frame) (out.get x) := by
  have htype : (parseOptions (optionBytes frame) .zero).msgType = messageType frame :=
    msgType_parseOptions _ _
  have hget (x : Setting) : (parseOptions (optionBytes frame) .zero).get x = settingOf x frame := by
    rw [get_parseOptions]
    cases x <;> rfl
  unfold ackReply at h
  dsimp only at h
  rw [htype] at h
  split at h
  next heq =>
    cases h
    refine ⟨heq, fun x hx => ?_⟩
    rw [← hget x]
    cases x with
    | serverId => exact absurd rfl hx
    | subnet => rfl
    | router => rfl
    | dns => rfl
  next => cases h

/-! ## The waits -/

/-- The reply that has been taken from the card in an exchange. -/
def reply : Exchange → Option (List UInt8)
  | ⟨.recv, some frame⟩ => if isReply (frame.take 1518) then some (frame.take 1518) else none
  | _ => none

/-- The frame that has been sent in an exchange. -/
def sent : Exchange → Option (List UInt8)
  | ⟨.send frame, _⟩ => some frame
  | _ => none

/-- Replies are given to the handler until it is content. -/
inductive Waited {β : Type} (handle : Parsed → List UInt8 → Option β × Parsed) :
    Parsed → List (List UInt8) → Option β × Parsed → Prop
  | empty {out : Parsed} : Waited handle out [] (none, out)
  | take {out out' : Parsed} {frame : List UInt8} {b : β} :
      handle out frame = (some b, out') → Waited handle out [frame] (some b, out')
  | skip {out out' : Parsed} {frame : List UInt8} {frames : List (List UInt8)}
      {r : Option β × Parsed} : handle out frame = (none, out') → Waited handle out' frames r →
      Waited handle out (frame :: frames) r

variable {β : Type} {handle : Parsed → List UInt8 → Option β × Parsed} {fuel : Nat}
  {tr : List Exchange} {r : Option β × Parsed} {frames frames' : List (List UInt8)}

theorem Waited.append (h : Waited handle out frames (none, out'))
    (h' : Waited handle out' frames' r) : Waited handle out (frames ++ frames') r := by
  generalize hr : ((none, out') : Option β × Parsed) = r' at h
  induction h with
  | empty =>
      cases hr
      exact h'
  | take => cases hr
  | skip hskip _ ih => exact .skip hskip (ih hr)

theorem returns_timerGetMs {now : UInt64} (h : Returns timerGetMs tr now) :
    tr.filterMap reply = [] ∧ tr.filterMap sent = [] := by
  rw [returns_query.mp h]
  exact ⟨rfl, rfl⟩

theorem returns_e1000Recv {got : Option (List UInt8)} (h : Returns e1000Recv tr got) :
    tr.filterMap reply = (got.filter isReply).toList ∧ tr.filterMap sent = [] := by
  rcases returns_map.mp h with ⟨answer, hquery, rfl⟩
  rw [returns_query.mp hquery]
  cases answer with
  | none => exact ⟨rfl, rfl⟩
  | some frame =>
      refine ⟨?_, rfl⟩
      rw [Option.map_some, Option.filter_some]
      by_cases hreply : isReply (frame.take 1518) = true
      · simp [reply, hreply]
      · simp [reply, hreply]

/-- The inner loop has gone through replies that the handler did not take, and sends nothing. -/
theorem returns_recvReply (h : Returns (recvReply handle fuel out) tr r) :
    Waited handle out (tr.filterMap reply) r ∧ tr.filterMap sent = [] := by
  induction fuel generalizing out tr with
  | zero => exact absurd h not_returns_stop
  | succ fuel ih =>
      rw [recvReply] at h
      rcases returns_bind.mp h with ⟨tr₁, got, tr₂, rfl, hrecv, hrest⟩
      rcases returns_e1000Recv hrecv with ⟨hreply, hsent⟩
      rw [List.filterMap_append, List.filterMap_append, hreply, hsent, List.nil_append]
      cases got with
      | none =>
          rcases returns_pure.mp hrest with ⟨rfl, rfl⟩
          exact ⟨.empty, rfl⟩
      | some frame =>
          dsimp only at hrest
          rw [Option.filter_some]
          cases hcheck : isReply frame with
          | false =>
              rw [hcheck, if_pos (by rfl)] at hrest
              exact ih hrest
          | true =>
              rw [hcheck, if_neg (by decide)] at hrest
              rcases hhandle : handle out frame with ⟨b | b, out'⟩
              · rw [hhandle] at hrest
                rcases ih hrest with ⟨hwaited, hsent'⟩
                exact ⟨.skip hhandle hwaited, hsent'⟩
              · rw [hhandle] at hrest
                rcases returns_pure.mp hrest with ⟨rfl, rfl⟩
                exact ⟨.take hhandle, rfl⟩

/-- Behind an accepted reply the outer loop only looks at the clock once more. -/
theorem returns_waitReply_some {deadline : UInt64} {b : β}
    (h : Returns (waitReply handle deadline fuel (some b) out) tr r) :
    tr.filterMap reply = [] ∧ tr.filterMap sent = [] ∧ r = (some b, out) := by
  cases fuel with
  | zero => exact absurd h not_returns_stop
  | succ fuel =>
      rw [waitReply] at h
      rcases returns_bind.mp h with ⟨tr₁, now, tr₂, rfl, hnow, hrest⟩
      rcases returns_timerGetMs hnow with ⟨hreply, hsent⟩
      rw [if_neg (by simp)] at hrest
      rcases returns_pure.mp hrest with ⟨rfl, rfl⟩
      rw [List.append_nil]
      exact ⟨hreply, hsent, rfl⟩

/-- So has the outer loop. -/
theorem returns_waitReply {deadline : UInt64}
    (h : Returns (waitReply handle deadline fuel none out) tr r) :
    Waited handle out (tr.filterMap reply) r ∧ tr.filterMap sent = [] := by
  induction fuel generalizing out tr with
  | zero => exact absurd h not_returns_stop
  | succ fuel ih =>
      rw [waitReply] at h
      rcases returns_bind.mp h with ⟨tr₁, now, tr₂, rfl, hnow, hrest⟩
      rcases returns_timerGetMs hnow with ⟨hreply, hsent⟩
      rw [List.filterMap_append, List.filterMap_append, hreply, hsent, List.nil_append,
        List.nil_append]
      split at hrest
      · rcases returns_bind.mp hrest with ⟨tr₃, ⟨got, out'⟩, tr₄, rfl, hrecv, hmore⟩
        rcases returns_recvReply hrecv with ⟨hwaited, hsent₃⟩
        rw [List.filterMap_append, List.filterMap_append, hsent₃, List.nil_append]
        cases got with
        | none =>
            rcases ih hmore with ⟨hwaited', hsent₄⟩
            exact ⟨hwaited.append hwaited', hsent₄⟩
        | some b =>
            rcases returns_waitReply_some hmore with ⟨hreply₄, hsent₄, rfl⟩
            rw [hreply₄, List.append_nil]
            exact ⟨hwaited, hsent₄⟩
      · rcases returns_pure.mp hrest with ⟨rfl, rfl⟩
        exact ⟨.empty, rfl⟩

/-- The last reply is the one that the handler is content with. -/
theorem Waited.last {b : β} (h : Waited handle out frames (some b, out')) :
    ∃ before frame out₁, frames = before ++ [frame] ∧ Waited handle out before (none, out₁) ∧
      handle out₁ frame = (some b, out') := by
  generalize hr : ((some b, out') : Option β × Parsed) = r at h
  induction h with
  | empty => cases hr
  | take htake =>
      cases hr
      exact ⟨[], _, _, rfl, .empty, htake⟩
  | skip hskip _ ih =>
      rcases ih hr with ⟨before, frame, out₁, rfl, hbefore, hframe⟩
      exact ⟨_ :: before, frame, out₁, rfl, .skip hskip hbefore, hframe⟩

theorem Waited.noOffer (h : Waited offerReply out frames (none, out')) :
    (∀ m ∈ frames, messageType m ≠ dhcpOffer) ∧
      ∀ x, out'.get x = (latest (carried x) frames).getD (out.get x) := by
  generalize hr : ((none, out') : Option UInt32 × Parsed) = r at h
  induction h with
  | empty =>
      cases hr
      exact ⟨by simp, fun x => rfl⟩
  | take => cases hr
  | @skip out out₁ frame frames r hskip _ ih =>
      rcases ih hr with ⟨htypes, hget⟩
      refine ⟨List.forall_mem_cons.mpr ⟨offerReply_none hskip, htypes⟩, fun x => ?_⟩
      rw [hget x, get_offerReply hskip x, latest_cons]
      cases latest (carried x) frames <;> rfl

theorem Waited.noAck (h : Waited ackReply out frames (none, out')) :
    (∀ m ∈ frames, messageType m ≠ dhcpAck) ∧ out' = out := by
  generalize hr : ((none, out') : Option Unit × Parsed) = r at h
  induction h with
  | empty =>
      cases hr
      exact ⟨by simp, rfl⟩
  | take => cases hr
  | skip hskip _ ih =>
      rcases ih hr with ⟨htypes, rfl⟩
      rcases ackReply_none hskip with ⟨htype, hout⟩
      exact ⟨List.forall_mem_cons.mpr ⟨htype, htypes⟩, hout⟩

/-- The wait for the OFFER ends with the first one, and keeps what the replies before it
carried. -/
theorem Waited.offer {ip : UInt32} (h : Waited offerReply out frames (some ip, out')) :
    ∃ before offer, frames = before ++ [offer] ∧ (∀ m ∈ before, messageType m ≠ dhcpOffer) ∧
      messageType offer = dhcpOffer ∧ ip = yiaddr offer ∧
      ∀ x, out'.get x = (carried x offer).getD ((latest (carried x) before).getD (out.get x)) := by
  rcases h.last with ⟨before, offer, out₁, rfl, hbefore, hoffer⟩
  rcases hbefore.noOffer with ⟨htypes, hget⟩
  rcases offerReply_some hoffer with ⟨htype, hip⟩
  exact ⟨before, offer, rfl, htypes, htype, hip, fun x => by rw [get_offerReply hoffer x, hget x]⟩

/-- So does the wait for the ACK, which overrides what the OFFER has left. -/
theorem Waited.ack (h : Waited ackReply out frames (some (), out')) :
    ∃ before ack, frames = before ++ [ack] ∧ (∀ m ∈ before, messageType m ≠ dhcpAck) ∧
      messageType ack = dhcpAck ∧
      ∀ x, x ≠ .serverId → out'.get x = orKeep (settingOf x ack) (out.get x) := by
  rcases h.last with ⟨before, ack, out₁, rfl, hbefore, hack⟩
  rcases hbefore.noAck with ⟨htypes, rfl⟩
  rcases ackReply_some hack with ⟨htype, hget⟩
  exact ⟨before, ack, rfl, htypes, htype, hget⟩

/-! ## Both exchanges -/

/-- The frame of a message that is broadcast. -/
def dhcpFrame (mac : Mac) (id : UInt16) (pkt : List UInt8) : List UInt8 :=
  (Vector.replicate 6 (0xFF : UInt8)).toList ++ mac.toList ++ u16Bytes (htons ethTypeIpv4) ++
    dhcpDatagram id pkt

/-- The DISCOVER. -/
def discoverFrame (mac : Mac) : List UInt8 :=
  dhcpFrame mac 1 (buildDhcp mac dhcpDiscoverType dhcpXid 0 0)

/-- The REQUEST. -/
def requestFrame (mac : Mac) (offeredIp serverId : UInt32) : List UInt8 :=
  dhcpFrame mac 2 (buildDhcp mac dhcpRequest dhcpXid offeredIp serverId)

theorem length_buildDhcp (mac : Mac) (msgType : UInt8) (xid offeredIp serverId : UInt32) :
    (buildDhcp mac msgType xid offeredIp serverId).length ≤ 271 := by
  unfold buildDhcp addOption u32Bytes u16Bytes
  split <;>
    simp only [List.length_append, List.length_cons, List.length_nil, List.length_replicate,
      Vector.length_toList] <;> decide

theorem broadcast_eq (mac : Mac) (id : UInt16) (msgType : UInt8) (xid offeredIp serverId : UInt32) :
    broadcast mac id (buildDhcp mac msgType xid offeredIp serverId) =
      query (Query.send (dhcpFrame mac id (buildDhcp mac msgType xid offeredIp serverId))) := by
  have hlen := length_buildDhcp mac msgType xid offeredIp serverId
  have hdatagram : (dhcpDatagram id (buildDhcp mac msgType xid offeredIp serverId)).length ≤ 1500 := by
    simp only [dhcpDatagram, ipv4Header, udpHeader, u16Bytes, u32Bytes, List.length_append,
      List.length_cons, List.length_nil]
    omega
  unfold broadcast ethSend
  rw [if_neg (Nat.not_lt.mpr hdatagram)]
  rfl

/-- Where `dhcp_discover` returns 0: what has been sent and taken from the card, and what the
interface is like behind it. -/
theorem returns_dhcpDiscover {s s' : Interface} (h : Returns (dhcpDiscover fuel s) tr (0, s')) :
    ∃ tr₁ tr₂ n ip out₁ out₂,
      tr = tr₁ ++ ⟨.send (requestFrame s.host.mac ip out₁.serverId), n⟩ :: tr₂ ∧
      tr₁.filterMap sent = [discoverFrame s.host.mac] ∧ tr₂.filterMap sent = [] ∧
      Waited offerReply .zero (tr₁.filterMap reply) (some ip, out₁) ∧
      Waited ackReply out₁ (tr₂.filterMap reply) (some (), out₂) ∧
      s'.host.ip = ip ∧ s'.host.subnet = out₂.subnet ∧ s'.host.gateway = out₂.router ∧
      s'.dns = out₂.dns := by
  unfold dhcpDiscover at h
  rcases hopen : udpOpen dhcpClientPort s.host with ⟨fd, host⟩
  have hmac : host.mac = s.host.mac := by
    unfold udpOpen at hopen
    split at hopen <;> cases hopen <;> rfl
  rw [hopen] at h
  dsimp only at h
  rw [broadcast_eq, hmac] at h
  split at h
  · -- there is no socket
    rcases returns_pure.mp h with ⟨-, hret⟩
    cases hret
  rcases returns_bind.mp h with ⟨tr₁, n₁, tr', rfl, hsend, h⟩
  rcases returns_bind.mp h with ⟨tr₂, now, tr', rfl, hnow, h⟩
  rcases returns_bind.mp h with ⟨tr₃, ⟨offer, out₁⟩, tr', rfl, hwait, h⟩
  -- the first phase: the DISCOVER, the clock, the wait for an OFFER
  rw [returns_query.mp hsend]
  rcases returns_timerGetMs hnow with ⟨hreply₂, hsent₂⟩
  rcases returns_waitReply hwait with ⟨hwaited, hsent₃⟩
  cases offer with
  | none =>
      rcases returns_pure.mp h with ⟨-, hret⟩
      cases hret
  | some ip =>
      dsimp only at h
      rw [broadcast_eq] at h
      -- the second phase, with the address and the server of the OFFER
      rcases returns_bind.mp h with ⟨tr₄, n, tr', rfl, hsend', h⟩
      rcases returns_bind.mp h with ⟨tr₅, now', tr', rfl, hnow', h⟩
      rcases returns_bind.mp h with ⟨tr₆, ⟨ack, out₂⟩, tr', rfl, hwait', h⟩
      rw [returns_query.mp hsend']
      rcases returns_timerGetMs hnow' with ⟨hreply₅, hsent₅⟩
      rcases returns_waitReply hwait' with ⟨hwaited', hsent₆⟩
      cases ack with
      | none =>
          rcases returns_pure.mp h with ⟨-, hret⟩
          cases hret
      | some u =>
          rcases returns_pure.mp h with ⟨rfl, hret⟩
          cases hret
          refine ⟨⟨.send (discoverFrame s.host.mac), n₁⟩ :: (tr₂ ++ tr₃), tr₅ ++ tr₆, n, ip, out₁,
            out₂, ?_, ?_, ?_, ?_, ?_, rfl, rfl, rfl, rfl⟩
          · simp [discoverFrame, requestFrame]
          · rw [List.filterMap_cons_some (by rfl), List.filterMap_append, hsent₂, hsent₃]
            rfl
          · rw [List.filterMap_append, hsent₅, hsent₆]
            rfl
          · rw [List.filterMap_cons_none (by rfl), List.filterMap_append, hreply₂]
            exact hwaited
          · rw [List.filterMap_append, hreply₅]
            exact hwaited'

end PolandOS.Net.Dhcp
