import PolandOS.Net.Payload
import PolandOS.Net.ReceiveBuffer

/-! # What frames deliver to those who wait

Datagrams are left in the UDP sockets and echo replies in two variables, one after the other
and whoever sent them. `MailStep` lists what frame handling does to them, and
`mail_netRxProcess` says that nothing else happens to them while frames are handled.
-/

namespace PolandOS.Net

open Logging

/-- An echo reply. -/
structure Echo where
  srcIp : UInt32
  ident : UInt16
  seq : UInt16
deriving DecidableEq

/-- The echo reply in a packet, if `icmp_rx_handler` gets to see one. -/
def echoOf (p : View) (len : UInt16) : Option Echo :=
  match ipv4Upper p len with
  | none => none
  | some u =>
    let q := p.skip u.ihl.toNat
    if u.protocol = ipProtoIcmp ∧ ¬u.len < 8 ∧ q 0 = 0 then
      some ⟨u.srcIp, ntohs (q.u16 4), ntohs (q.u16 6)⟩
    else none

/-- The UDP sockets, what is known of the last echo reply, and the address of the host. -/
structure Mail where
  sockets : Fin 8 → UDPSocket
  received : Bool
  seq : UInt16
  ip : UInt32

def Host.mail (s : Host) : Mail := ⟨s.udpSockets, s.pingReplyReceived, s.pingReplySeq, s.ip⟩

/-- A datagram is left in a socket. -/
def UDPSocket.deliver (socket : UDPSocket) (srcIp : UInt32) (srcPort : UInt16)
    (data : List UInt8) : UDPSocket :=
  { socket with
    recvBuf := socket.recvBuf.write 0 data
    recvLen := data.length.toUInt16
    recvSrcIp := srcIp
    recvSrcPort := srcPort
    hasData := true }

/-- The event brings neither a datagram nor an echo reply. -/
def NetEvent.Mute : NetEvent → Prop
  | .ipv4 p len => echoOf p len = none
  | .datagram .. => False
  | _ => True

/-- What happens at once while frames are handled. -/
inductive MailStep : Mail → List NetEvent → Mail → Prop
  | mute {M : Mail} {e : NetEvent} : e.Mute → MailStep M [e] M
  | echo {M : Mail} {p : View} {len : UInt16} {e : Echo} : echoOf p len = some e →
      MailStep M [.ipv4 p len, .copy .headerTmp 0 (ipv4HeaderLen p).toNat]
        { M with received := true, seq := e.seq }
  | datagram {M : Mail} {i : Fin 8} {srcIp : UInt32} {srcPort : UInt16} {data : List UInt8} :
      (M.sockets i).active = true → data.length ≤ 1500 →
      MailStep M [.copy .udpRecv 0 data.length, .datagram i srcIp srcPort data]
        { M with sockets :=
            Function.update M.sockets i ((M.sockets i).deliver srcIp srcPort data) }

/-- The computation is a run of these steps. -/
abbrev MailTraces {α : Type} (v : α → Host) (x : Rx α) (s : Host) : Prop :=
  Traces MailStep (fun a => (v a).mail) x s.mail

/-- The receiver is a run of these steps. -/
def Delivers (rx : Receiver) : Prop := ∀ pkt s, MailTraces id (rx pkt s) s

variable {d : Devices} {rx : Receiver} {fuel : Nat} {s : Host}

/-! ## Sending -/

theorem mail_mute {α : Type} {v : α → Host} {e : NetEvent} {y : Rx α} (he : e.Mute)
    (hy : MailTraces v y s) : MailTraces v (Logged.emit e >>= fun _ => y) s :=
  traces_step_bind (.mute he) rfl hy

theorem mail_ethSend (dst : Mac) (ethertype : UInt16) (payload : List UInt8) (s : Host) :
    MailTraces Prod.snd (ethSend d dst ethertype payload s) s :=
  traces_ite (fun _ => traces_pure rfl) fun _ => mail_mute trivial (traces_pure rfl)

theorem mail_netRxEnqueue (data : List UInt8) (s : Host) :
    MailTraces id (netRxEnqueue data s) s :=
  traces_ite (fun _ => traces_pure rfl) fun _ => mail_mute trivial (traces_pure rfl)

theorem mail_drainQueue (hrx : Delivers rx) (fuel : Nat) (s : Host) :
    MailTraces id (drainQueue rx fuel s) s := by
  induction fuel generalizing s with
  | zero => exact traces_stop _
  | succ fuel ih =>
      unfold drainQueue netRxDequeue
      split
      · exact traces_pure rfl
      next pkt t ht =>
        have hmail : t.mail = s.mail := by
          split at ht
          · cases ht
          · cases ht
            rfl
        rw [MailTraces, ← hmail]
        exact traces_bind (hrx pkt t) fun t' _ => ih t'

theorem mail_arpWait (hrx : Delivers rx) (ip : UInt32) (deadline : UInt64) (fuel : Nat)
    (s : Host) : MailTraces Prod.snd (arpWait d rx ip deadline fuel s) s := by
  induction fuel generalizing s with
  | zero => exact traces_stop _
  | succ fuel ih =>
      unfold arpWait
      refine traces_ite (fun _ => traces_pure rfl) fun _ => ?_
      refine traces_bind (v := fun t : Host => t.mail) ?_ fun t _ => ?_
      · split
        · exact traces_bind (mail_netRxEnqueue _ _) fun t _ => mail_drainQueue hrx fuel t
        · exact traces_pure rfl
      · split
        · exact traces_pure rfl
        · exact ih t

theorem mail_arpResolve (hrx : Delivers rx) (fuel : Nat) (ip : UInt32) (s : Host) :
    MailTraces Prod.snd (arpResolve d rx fuel ip s) s := by
  unfold arpResolve
  split
  · exact traces_pure rfl
  · refine mail_mute trivial ?_
    refine traces_bind (v := fun t : Host => t.mail)
      (traces_bind (mail_ethSend _ _ _ s) fun _ _ => traces_pure rfl) fun t _ => ?_
    exact mail_arpWait hrx ip _ fuel _

theorem mail_ipv4Send (hrx : Delivers rx) (fuel : Nat) (dst : UInt32) (protocol : UInt8)
    (payload : List UInt8) (s : Host) :
    MailTraces Prod.snd (ipv4Send d rx fuel dst protocol payload s) s := by
  refine traces_ite (fun _ => traces_pure rfl) fun _ => ?_
  refine traces_bind (mail_arpResolve hrx fuel _ s) ?_
  rintro ⟨resolved, t⟩ -
  cases resolved with
  | none => exact traces_pure rfl
  | some mac => exact mail_ethSend _ _ _ _

/-! ## TCP -/

theorem mail_sendAck (hrx : Delivers rx) (fuel : Nat) (fd : Fin 4) (s : Host) :
    MailTraces id (sendAck d rx fuel fd s) s :=
  traces_bind (mail_mute trivial (mail_ipv4Send hrx fuel _ _ _ s)) fun _ _ => traces_pure rfl

theorem mail_assignState (fd : Fin 4) (cause : Cause) (new : TCPState) (s : Host) :
    MailTraces id (assignState fd cause new s) s := mail_mute trivial (traces_pure rfl)

theorem mail_deactivate (fd : Fin 4) (cause : Cause) (s : Host) :
    MailTraces id (deactivate fd cause s) s :=
  traces_bind (mail_assignState fd cause .closed s) fun _ _ => traces_pure rfl

variable {fd : Fin 4} {seg : Segment}

theorem mail_tcpEstablished (hrx : Delivers rx) :
    MailTraces id (tcpEstablished d rx fuel fd seg s) s := by
  unfold tcpEstablished
  refine traces_ite (fun _ => traces_pure rfl) fun _ => ?_
  refine traces_bind (v := fun t : Host => t.mail) ?_ fun t _ => ?_
  · refine traces_ite (fun _ => ?_) fun _ => traces_pure rfl
    refine traces_bind (v := fun t : Host => t.mail)
      (mail_mute trivial (mail_mute trivial (traces_pure rfl))) fun t _ => ?_
    exact mail_sendAck hrx fuel fd t
  · refine traces_ite (fun _ => ?_) fun _ => traces_pure rfl
    exact traces_bind (mail_assignState fd _ _ _) fun u _ => mail_sendAck hrx fuel fd u

theorem mail_tcpLastFin (hrx : Delivers rx) (arrival : TCPState) (s : Host) :
    MailTraces id (tcpLastFin d rx fuel fd arrival seg s) s :=
  traces_bind (mail_sendAck hrx fuel fd _) fun t _ => mail_assignState fd _ _ t

theorem mail_tcpArrival (hrx : Delivers rx) : MailTraces id (tcpArrival d rx fuel fd seg s) s := by
  refine traces_ite (fun _ => mail_deactivate fd _ s) fun _ => ?_
  split
  · refine traces_ite (fun _ => traces_pure rfl) fun _ => ?_
    refine traces_ite (fun _ => traces_pure rfl) fun _ => ?_
    exact traces_bind (mail_assignState fd _ _ _) fun t _ => mail_sendAck hrx fuel fd t
  · exact mail_tcpEstablished hrx
  · refine traces_bind (v := fun t : Host => t.mail) ?_ fun t _ => ?_
    · exact traces_ite (fun _ => mail_assignState fd _ _ s) fun _ => traces_pure rfl
    · exact traces_ite (fun _ => mail_tcpLastFin hrx _ t) fun _ => traces_pure rfl
  · exact traces_ite (fun _ => mail_tcpLastFin hrx _ s) fun _ => traces_pure rfl
  · exact traces_pure rfl
  · exact traces_ite (fun _ => mail_deactivate fd _ s) fun _ => traces_pure rfl
  · exact mail_deactivate fd _ s
  · exact traces_pure rfl

theorem mail_tcpRxHandler (hrx : Delivers rx) (srcIp dstIp : UInt32) (p : View) (len : UInt16)
    (s : Host) : MailTraces id (tcpRxHandler d rx fuel srcIp dstIp p len s) s := by
  refine traces_ite (fun _ => traces_pure rfl) fun _ => ?_
  refine traces_ite (fun _ => traces_pure rfl) fun _ => ?_
  refine traces_ite (fun _ => traces_pure rfl) fun _ => ?_
  refine mail_mute trivial (traces_ite (fun _ => traces_pure rfl) fun _ => ?_)
  dsimp only
  split
  · exact traces_pure rfl
  · exact mail_tcpArrival hrx

/-! ## The other handlers -/

theorem mail_arpCacheUpdate (ip : UInt32) (mac : Mac) (s : Host) :
    MailTraces id (arpCacheUpdate ip mac s) s := by
  refine mail_mute trivial ?_
  split
  · exact traces_pure rfl
  · split
    · exact traces_pure rfl
    · exact traces_pure rfl

theorem mail_arpRxHandler (p : View) (len : UInt16) (s : Host) :
    MailTraces id (arpRxHandler d p len s) s := by
  refine traces_ite (fun _ => traces_pure rfl) fun _ => ?_
  refine traces_ite (fun _ => traces_pure rfl) fun _ => ?_
  refine traces_bind (mail_arpCacheUpdate _ _ s) fun t _ => ?_
  refine traces_ite (fun _ => ?_) fun _ => traces_pure rfl
  exact traces_bind (mail_ethSend _ _ _ t) fun _ _ => traces_pure rfl

/-- A datagram goes into the first socket that is bound to its port. -/
theorem mail_udpRxHandler (srcIp : UInt32) (p : View) (len : UInt16) (s : Host) :
    MailTraces id (udpRxHandler srcIp p len s) s := by
  refine traces_ite (fun _ => traces_pure rfl) fun _ => ?_
  dsimp only
  split
  · exact traces_pure rfl
  next i hfind =>
    have hfound := List.find?_some hfind
    have hactive : (s.udpSockets i).active = true := (Bool.and_eq_true_iff.mp hfound).1
    have hcut : (if len - 8 > 1500 then 1500 else len - 8).toNat ≤ 1500 := by
      split
      · exact Nat.le_refl _
      next hlen => exact UInt16.le_iff_toNat_le.mp (UInt16.not_lt.mp hlen)
    have hstep := @MailStep.datagram s.mail i srcIp (ntohs (p.u16 0)) _ hactive
      ((length_bytes p 8 _).trans_le hcut)
    rw [length_bytes] at hstep
    refine traces_emit_pair hstep (traces_pure ?_)
    rw [UDPSocket.deliver, length_bytes, Nat.toUInt16_eq, UInt16.ofNat_toNat]
    rfl

/-- A packet without an echo reply in it changes nothing. -/
theorem mail_icmpRxHandler (hrx : Delivers rx) {srcIp : UInt32} {p : View} {len : UInt16}
    (h : ¬(¬len < 8 ∧ p 0 = 0)) : MailTraces id (icmpRxHandler d rx fuel srcIp p len s) s := by
  refine traces_ite (fun _ => traces_pure rfl) fun hlen => ?_
  refine traces_ite (fun _ => ?_) fun _ => ?_
  · refine traces_ite (fun _ => traces_pure rfl) fun _ => mail_mute trivial ?_
    exact traces_bind (mail_ipv4Send hrx fuel _ _ _ s) fun _ _ => traces_pure rfl
  · refine traces_ite (fun hreply => ?_) fun _ => traces_pure rfl
    exact absurd ⟨hlen, hreply⟩ h

theorem mail_ipv4Log {p : View} {len : UInt16} (h : echoOf p len = none) :
    MailTraces (fun _ => s) (ipv4Log p len) s := by
  refine mail_mute h (traces_ite (fun _ => ?_) fun _ => traces_pure rfl)
  have hcopy : (NetEvent.copy .headerTmp 0 (ipv4HeaderLen p).toNat).Mute := trivial
  exact traces_step (.mute hcopy) rfl

/-- The header is copied before a packet is handed on. -/
theorem ipv4Log_of_upper {p : View} {len : UInt16} {u : Upper} (h : ipv4Upper p len = some u) :
    ipv4Log p len = (Logged.emit (.ipv4 p len) >>= fun _ =>
      Logged.emit (.copy .headerTmp 0 (ipv4HeaderLen p).toNat)) := by
  unfold ipv4Upper at h
  unfold ipv4Log
  split at h
  · cases h
  next hlen =>
    split at h
    · cases h
    next hversion =>
      split at h
      · cases h
      next hihl => rw [if_pos ⟨hlen, Decidable.of_not_not hversion, hihl⟩]

/-- A packet puts a datagram into a socket at most. -/
theorem mail_ipv4RxHandler (hrx : Delivers rx) (p : View) (len : UInt16) (s : Host) :
    MailTraces id (ipv4RxHandler d rx fuel p len s) s := by
  rw [ipv4RxHandler_eq]
  -- the packet is dropped, or goes to the handler of its protocol
  cases hu : ipv4Upper p len with
  | none =>
      have hmute : echoOf p len = none := by rw [echoOf, hu]
      exact traces_bind (mail_ipv4Log hmute) fun _ _ => traces_pure rfl
  | some u =>
      dsimp only
      cases he : echoOf p len with
      | none =>
          refine traces_bind (mail_ipv4Log he) fun _ _ => ?_
          rw [echoOf, hu] at he
          dsimp only at he
          refine traces_ite (fun hicmp => ?_) fun _ => ?_
          · refine mail_icmpRxHandler hrx fun hreply => ?_
            rw [if_pos ⟨hicmp, hreply⟩] at he
            cases he
          refine traces_ite (fun _ => mail_udpRxHandler _ _ _ s) fun _ => ?_
          exact traces_ite (fun _ => mail_tcpRxHandler hrx _ _ _ _ s) fun _ => traces_pure rfl
      | some e =>
          rw [ipv4Log_of_upper hu]
          have hecho := he
          rw [echoOf, hu] at hecho
          dsimp only at hecho
          split at hecho
          next hreply =>
            rcases hreply with ⟨hicmp, hlen, htype⟩
            cases hecho
            change MailTraces id (Logged.emit _ >>= fun _ => Logged.emit _ >>= fun _ =>
              Upper.dispatch d rx fuel u p s) s
            refine traces_emit_pair (MailStep.echo he) ?_
            have hnot : ¬p.skip u.ihl.toNat 0 = 8 := by
              rw [htype]
              decide
            rw [Upper.dispatch, if_pos hicmp, icmpRxHandler, if_neg hlen, if_neg hnot,
              if_pos htype]
            exact traces_pure rfl
          · cases hecho

theorem mail_ethHandle (hrx : Delivers rx) (pkt : NetPacket) (s : Host) :
    MailTraces id (ethHandle d rx fuel pkt s) s := by
  refine traces_ite (fun _ => traces_pure rfl) fun _ => ?_
  refine traces_ite (fun _ => mail_arpRxHandler _ _ s) fun _ => ?_
  exact traces_ite (fun _ => mail_ipv4RxHandler hrx _ _ s) fun _ => traces_pure rfl

theorem delivers_ethRxHandler (d : Devices) (fuel : Nat) : Delivers (ethRxHandler d fuel) := by
  induction fuel with
  | zero => exact fun _ _ => traces_stop _
  | succ fuel ih =>
      intro pkt s
      refine mail_mute trivial (traces_bind (mail_ethHandle ih pkt s) fun t _ => ?_)
      exact mail_mute trivial (traces_pure rfl)

theorem mail_receiveAll (fuel : Nat) (s : Host) : MailTraces id (receiveAll d fuel s) s := by
  induction fuel generalizing s with
  | zero => exact traces_stop _
  | succ fuel ih =>
      unfold receiveAll
      dsimp only [e1000Recv]
      split
      · exact traces_pure rfl
      · exact traces_bind (mail_netRxEnqueue _ _) fun t _ => ih t

theorem mail_netRxProcess (fuel : Nat) (s : Host) : MailTraces id (netRxProcess d fuel s) s :=
  traces_bind (mail_receiveAll fuel s) fun t _ =>
    mail_drainQueue (delivers_ethRxHandler d fuel) fuel t

theorem mail_udpSend (fd : Int) (ip : UInt32) (port : UInt16) (data : List UInt8) (s : Host) :
    MailTraces Prod.snd (udpSend d fuel fd ip port data s) s := by
  unfold udpSend
  split
  · exact traces_pure rfl
  · refine traces_ite (fun _ => traces_pure rfl) fun _ => ?_
    refine traces_ite (fun _ => traces_pure rfl) fun _ => ?_
    exact mail_ipv4Send (delivers_ethRxHandler d fuel) fuel _ _ _ s

end PolandOS.Net
