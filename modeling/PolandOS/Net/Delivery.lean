import PolandOS.Net.UdpFrames

/-! # Datagrams from end to end

A datagram that `udp_rx_handler` has left in a socket stays there until the application
fetches it, as long as no other comes for the socket. `udp_delivered` follows the payload
from `udp_send` on one host to `udp_recv` on another.
-/

namespace PolandOS.Net

open Logging

/-! ## Waiting to be fetched -/

/-- No datagram comes for this socket. -/
def NoLetter (fd : Fin 8) (log : List NetEvent) : Prop := ∀ e ∈ log, e.letter fd = none

instance (fd : Fin 8) (log : List NetEvent) : Decidable (NoLetter fd log) :=
  inferInstanceAs (Decidable (∀ e ∈ log, _))

theorem noLetter_nil (fd : Fin 8) : NoLetter fd [] := by
  intro e he
  cases he

/-- Where no datagram comes for the socket, the computation leaves it as it was. -/
def Spares {α : Type} (fd : Fin 8) (v : α → Host) (x : Rx α) (s : Host) : Prop :=
  NoLetter fd x.log → ∀ a, x.result = .ok a → (v a).udpSockets fd = s.udpSockets fd

variable {α β : Type} {v : α → Host} {v' : β → Host} {x : Rx α} {f : α → Rx β}
  {fd : Fin 8} {s : Host} {d : Devices} {fuel : Nat}

theorem spares_pure {a : α} (h : (v a).udpSockets fd = s.udpSockets fd) :
    Spares fd v (pure a : Rx α) s := by
  intro _ b hb
  cases hb
  exact h

theorem spares_stop (k : NetStop) : Spares fd v (Logged.stop k : Rx α) s :=
  fun _ _ h => nomatch h

theorem spares_bind (hx : Spares fd v x s)
    (hf : ∀ a, (v a).udpSockets fd = s.udpSockets fd → Spares fd v' (f a) (v a)) :
    Spares fd v' (x >>= f) s := by
  intro hlog b hb
  obtain ⟨a, ha, hfa⟩ := Logged.result_bind.1 hb
  obtain ⟨hlogx, hlogf⟩ := (Logged.all_bind_of_ok ha).1 hlog
  have hsame := hx hlogx a ha
  exact (hf a hsame hlogf b hfa).trans hsame

theorem spares_ite {c : Prop} [Decidable c] {x y : Rx α} (hx : c → Spares fd v x s)
    (hy : ¬c → Spares fd v y s) : Spares fd v (if c then x else y) s := by
  split
  case isTrue h => exact hx h
  case isFalse h => exact hy h

theorem spares_emit {e : NetEvent} {y : Rx α} (hy : Spares fd v y s) :
    Spares fd v (Logged.emit e >>= fun _ => y) s := by
  intro hlog a ha
  exact hy ((Logged.all_bind_of_ok (a := ()) rfl).1 hlog).2 a ha

theorem Spares.of_same {t : Host} (h : Spares fd v x t)
    (hsame : t.udpSockets fd = s.udpSockets fd) : Spares fd v x s :=
  fun hlog a ha => (h hlog a ha).trans hsame

/-- Only datagrams change the UDP sockets while frames are handled. -/
theorem MailStep.spares {M M' : Mail} {es : List NetEvent} (h : MailStep M es M')
    (hes : NoLetter fd es) : M'.sockets fd = M.sockets fd := by
  cases h with
  | mute => rfl
  | echo => rfl
  | @datagram i srcIp srcPort data _ _ =>
      have hne : i ≠ fd := by
        intro heq
        have hletter := hes (.datagram i srcIp srcPort data) (by simp)
        rw [NetEvent.letter, if_pos heq] at hletter
        cases hletter
      exact Function.update_of_ne (Ne.symm hne) ..

theorem star_spares {M M' : Mail} {es : List NetEvent} (h : Star MailStep M es M')
    (hes : NoLetter fd es) : M'.sockets fd = M.sockets fd := by
  have hrun : Along (fun (_ : Unit) _ => ()) (fun _ _ => True) () es ∧
      M'.sockets fd = M.sockets fd :=
    h.history (P := fun _ e => e.letter fd = none) (I := fun N _ => N.sockets fd = M.sockets fd)
      (fun N _ es N' hN hstep hes => ⟨along_true, (hstep.spares (along_unit.1 hes)).trans hN⟩)
      rfl (along_unit.2 hes)
  exact hrun.2

theorem MailTraces.spares (h : MailTraces v x s) : Spares fd v x s :=
  fun hlog _ ha => star_spares (h.star ha) hlog

/-! ### The calls of an application -/

theorem spares_netRxProcess (fuel : Nat) (s : Host) : Spares fd id (netRxProcess d fuel s) s :=
  (mail_netRxProcess fuel s).spares

theorem spares_tcpSendSegment (tcp : Fin 4) (flags : UInt8) (data : List UInt8) (s : Host) :
    Spares fd Prod.snd (tcpSendSegment d (ethRxHandler d fuel) fuel tcp flags data s) s :=
  spares_emit (mail_ipv4Send (delivers_ethRxHandler d fuel) fuel _ _ _ s).spares

theorem spares_assignState (tcp : Fin 4) (cause : Cause) (new : TCPState) (s : Host) :
    Spares fd id (assignState tcp cause new s) s := (mail_assignState tcp cause new s).spares

theorem spares_connectWait (tcp : Fin 4) (deadline : UInt64) (s : Host) :
    Spares fd Prod.snd (connectWait d tcp deadline fuel s) s := by
  induction fuel generalizing s with
  | zero => exact spares_stop _
  | succ fuel ih =>
      refine spares_ite (fun _ => spares_pure rfl) fun _ => ?_
      refine spares_bind (v := id) (spares_netRxProcess fuel (timerGetMs d s).2) fun t _ => ?_
      refine spares_ite (fun _ => spares_pure rfl) fun _ => ?_
      exact spares_ite (fun _ => spares_pure rfl) fun _ => ih t

theorem spares_tcpConnect (ip : UInt32) (port : UInt16) (s : Host) :
    Spares fd Prod.snd (tcpConnect d fuel ip port s) s := by
  unfold tcpConnect
  split
  · exact spares_pure rfl
  next tcp _ =>
    have hopen : Spares fd id (tcpOpen d tcp ip port s) s :=
      spares_emit (spares_emit (spares_emit (spares_pure rfl)))
    refine spares_bind hopen fun t _ => ?_
    refine spares_bind (spares_tcpSendSegment tcp _ _ t) fun r _ => ?_
    refine spares_bind (v := Prod.snd) ((spares_connectWait tcp _ _).of_same rfl) fun r' _ => ?_
    refine spares_ite (fun _ => spares_emit (spares_pure rfl)) fun _ => ?_
    exact spares_bind (v := id) (mail_deactivate tcp _ _).spares fun _ _ => spares_pure rfl

theorem spares_closeWait (tcp : Fin 4) (deadline : UInt64) (s : Host) :
    Spares fd Prod.snd (closeWait d tcp deadline fuel s) s := by
  induction fuel generalizing s with
  | zero => exact spares_stop _
  | succ fuel ih =>
      refine spares_ite (fun _ => spares_pure rfl) fun _ => ?_
      refine spares_bind (v := id) (spares_netRxProcess fuel (timerGetMs d s).2) fun t _ => ?_
      exact spares_ite (fun _ => spares_pure rfl) fun _ => ih t

theorem spares_tcpShutdown (tcp : Fin 4) (s : Host) :
    Spares fd Prod.snd (tcpShutdown d fuel tcp s) s := by
  refine spares_bind (spares_assignState tcp .close .finWait1 s) fun t _ => ?_
  refine spares_bind (spares_tcpSendSegment tcp _ _ t) fun r _ => ?_
  exact spares_emit ((spares_closeWait tcp _ _).of_same rfl)

theorem spares_tcpClose (i : Int) (s : Host) : Spares fd id (tcpClose d fuel i s) s := by
  unfold tcpClose
  split
  · exact spares_pure rfl
  next tcp _ =>
    refine spares_emit (spares_ite (fun _ => spares_pure rfl) fun _ => ?_)
    refine spares_bind (v := Prod.snd) ?_ fun r _ => ?_
    · exact spares_ite (fun _ => spares_tcpShutdown tcp s) fun _ => spares_pure rfl
    · exact spares_emit (spares_emit (spares_pure rfl))

theorem spares_tcpSend (i : Int) (data : List UInt8) (s : Host) :
    Spares fd Prod.snd (tcpSend d fuel i data s) s := by
  unfold tcpSend
  split
  · exact spares_pure rfl
  next tcp _ =>
    refine spares_ite (fun _ => spares_pure rfl) fun _ => ?_
    exact spares_bind (spares_tcpSendSegment tcp _ _ s) fun r _ => spares_pure rfl

theorem spares_recvWait (tcp : Fin 4) (maxLen : UInt32) (deadline : UInt64) (s : Host) :
    Spares fd (fun r => r.2.2) (recvWait d tcp maxLen deadline fuel s) s := by
  induction fuel generalizing s with
  | zero => exact spares_stop _
  | succ fuel ih =>
      refine spares_ite (fun _ => spares_pure rfl) fun _ => ?_
      refine spares_bind (v := id) (spares_netRxProcess fuel (timerGetMs d s).2) fun t _ => ?_
      refine spares_ite (fun _ => ?_) fun _ => ?_
      · exact spares_bind (v := Prod.snd) (spares_emit (spares_pure rfl))
          fun _ _ => spares_pure rfl
      · exact spares_ite (fun _ => spares_pure rfl) fun _ => ih t

theorem spares_tcpRecv (i : Int) (maxLen timeoutMs : UInt32) (s : Host) :
    Spares fd (fun r => r.2.2) (tcpRecv d fuel i maxLen timeoutMs s) s := by
  unfold tcpRecv
  split
  · exact spares_pure rfl
  · exact spares_ite (fun _ => spares_pure rfl) fun _ => (spares_recvWait _ _ _ _).of_same rfl

theorem spares_pingWait (start deadline : UInt64) (seq : UInt16) (s : Host) :
    Spares fd Prod.snd (pingWait d start deadline seq fuel s) s := by
  induction fuel generalizing s with
  | zero => exact spares_stop _
  | succ fuel ih =>
      refine spares_ite (fun _ => spares_pure rfl) fun _ => ?_
      refine spares_bind (v := id) (spares_netRxProcess fuel (timerGetMs d s).2) fun t _ => ?_
      exact spares_ite (fun _ => spares_pure rfl) fun _ => ih t

theorem spares_icmpPing (ip : UInt32) (seq : UInt16) (s : Host) :
    Spares fd Prod.snd (icmpPing d fuel ip seq s) s := by
  refine spares_bind (v := Prod.snd)
    ((mail_ipv4Send (delivers_ethRxHandler d fuel) fuel _ _ _ _).spares.of_same rfl) fun r _ => ?_
  exact spares_ite (fun _ => spares_pure rfl) fun _ => spares_pingWait _ _ _ r.2

theorem setUdp_of_ne {i : Fin 8} (h : i ≠ fd) (s : Host) (socket : UDPSocket) :
    (s.setUdp i socket).udpSockets fd = s.udpSockets fd := Function.update_of_ne (Ne.symm h) ..

theorem spares_udpWait {i : Fin 8} (h : i ≠ fd) (deadline : UInt64) (s : Host) :
    Spares fd Prod.snd (udpWait d i deadline fuel s) s := by
  induction fuel generalizing s with
  | zero => exact spares_stop _
  | succ fuel ih =>
      refine spares_ite (fun _ => spares_pure rfl) fun _ => ?_
      refine spares_bind (v := id) (spares_netRxProcess fuel (timerGetMs d s).2) fun t _ => ?_
      exact spares_ite (fun _ => spares_pure (setUdp_of_ne h t _)) fun _ => ih t

theorem spares_udpRecv {i : Int} (h : udpSlot i ≠ some fd) (timeoutMs : UInt32) (s : Host) :
    Spares fd Prod.snd (udpRecv d fuel i timeoutMs s) s := by
  unfold udpRecv
  split
  · exact spares_pure rfl
  next j hslot =>
    have hne : j ≠ fd := by
      rintro rfl
      exact h hslot
    exact spares_ite (fun _ => spares_pure rfl) fun _ => (spares_udpWait hne _ _).of_same rfl

/-- The call neither closes the socket nor takes its datagram. -/
def Call.Spares (fd : Fin 8) : Call → Prop
  | .udpClose i | .udpRecv i _ => udpSlot i ≠ some fd
  | _ => True

theorem udpOpen_of_active (h : (s.udpSockets fd).active = true) (port : UInt16) :
    (udpOpen port s).2.udpSockets fd = s.udpSockets fd := by
  unfold udpOpen
  split
  · rfl
  next i hfree =>
    have hinactive : (s.udpSockets i).active = false := by simpa using List.find?_some hfree
    refine setUdp_of_ne (fun heq => ?_) s _
    rw [heq, h] at hinactive
    cases hinactive

theorem udpClose_of_ne {i : Int} (h : udpSlot i ≠ some fd) (s : Host) :
    (udpClose i s).udpSockets fd = s.udpSockets fd := by
  unfold udpClose
  split
  · rfl
  next j hslot =>
    refine setUdp_of_ne ?_ s _
    rintro rfl
    exact h hslot

theorem spares_map {g : α → β} (h : Spares fd v x s) (hg : ∀ a, v' (g a) = v a) :
    Spares fd v' (g <$> x) s :=
  spares_bind h fun a _ => spares_pure (congrArg (·.udpSockets fd) (hg a))

theorem spares_run {c : Call} (hc : c.Spares fd) (hactive : (s.udpSockets fd).active = true) :
    Spares fd id (c.run d fuel s) s := by
  cases c with
  | tcpConnect ip port => exact spares_map (spares_tcpConnect ip port s) fun _ => rfl
  | tcpClose i => exact spares_tcpClose i s
  | tcpSend i data => exact spares_map (spares_tcpSend i data s) fun _ => rfl
  | tcpRecv i maxLen timeoutMs =>
      exact spares_map (spares_tcpRecv i maxLen timeoutMs s) fun _ => rfl
  | udpOpen port => exact spares_pure (udpOpen_of_active hactive port)
  | udpClose i => exact spares_pure (udpClose_of_ne hc s)
  | udpSend i ip port data => exact spares_map (mail_udpSend i ip port data s).spares fun _ => rfl
  | udpRecv i timeoutMs => exact spares_map (spares_udpRecv hc timeoutMs s) fun _ => rfl
  | icmpPing ip seq => exact spares_map (spares_icmpPing ip seq s) fun _ => rfl
  | configure ip gateway subnet => exact spares_pure rfl

/-- The socket stays as it is over calls that spare it. -/
theorem spares_play {calls : List (Nat × Call)} (hcalls : ∀ c ∈ calls, c.2.Spares fd)
    (hactive : (s.udpSockets fd).active = true) : Spares fd id (play d calls s) s := by
  induction calls generalizing s with
  | nil => exact spares_pure rfl
  | cons c calls ih =>
      obtain ⟨hc, hrest⟩ := List.forall_mem_cons.1 hcalls
      refine spares_bind (spares_run hc hactive) fun t hsame => ih hrest ?_
      exact (congrArg UDPSocket.active hsame).trans hactive

/-! ## Fetching -/

/-- `udp_recv` looks for frames at all: its second look at the timer is before the deadline
that the first has set. -/
def InTime (d : Devices) (s : Host) (timeoutMs : UInt32) : Prop :=
  d.clock (s.readings + 1) < d.clock s.readings + timeoutMs.toUInt64

/-- The host behind the two looks at the timer. -/
def Host.polling (s : Host) : Host := { s with readings := s.readings + 2 }

/-- `udp_recv` returns 0 with this datagram and its length, and changes no other socket but
by datagrams. -/
structure Fetches (d : Devices) (fuel : Nat) (fd : Fin 8) (timeoutMs : UInt32) (s : Host)
    (rcv : Received) (t : Host) : Prop where
  returns : (udpRecv d fuel (fd : Nat) timeoutMs s).result = .ok (some rcv, t)
  length : (t.udpSockets fd).recvLen.toNat = rcv.data.length
  others : ∀ k ≠ fd, NoLetter k (udpRecv d fuel (fd : Nat) timeoutMs s).log →
    t.udpSockets k = s.udpSockets k

theorem udpSlot_val (fd : Fin 8) : udpSlot ((fd : Nat) : Int) = some fd := dif_pos (by omega)

theorem udpRecv_of_inTime {timeoutMs : UInt32} (hactive : (s.udpSockets fd).active = true)
    (h : InTime d s timeoutMs) : udpRecv d (fuel + 1) (fd : Nat) timeoutMs s = (do
      let t ← netRxProcess d fuel s.polling
      if (t.udpSockets fd).hasData then
        return (some (t.udpSockets fd).letter,
          t.setUdp fd { t.udpSockets fd with hasData := false })
      else udpWait d fd (d.clock s.readings + timeoutMs.toUInt64) fuel t) := by
  unfold udpRecv
  rw [udpSlot_val]
  dsimp only
  rw [if_neg (by simp [hactive])]
  exact if_neg (not_not.2 h)

/-- Without time `udp_recv` returns -1, whatever waits in the socket. -/
theorem udpRecv_of_late {timeoutMs : UInt32} (h : ¬InTime d s timeoutMs) :
    ∃ t, udpRecv d (fuel + 1) (fd : Nat) timeoutMs s = pure (none, t) := by
  unfold udpRecv
  rw [udpSlot_val]
  dsimp only
  split
  · exact ⟨s, rfl⟩
  · exact ⟨_, if_pos h⟩

/-- `udp_recv` with data in its socket hands it over, once the frames are handled that the
card still has. -/
theorem fetches_of_hasData {timeoutMs : UInt32} (hactive : (s.udpSockets fd).active = true)
    (hdata : (s.udpSockets fd).hasData = true) (htime : InTime d s timeoutMs) {t : Host}
    (ht : (netRxProcess d fuel s.polling).result = .ok t)
    (hlog : NoLetter fd (netRxProcess d fuel s.polling).log) :
    ∃ t', Fetches d (fuel + 1) fd timeoutMs s (s.udpSockets fd).letter t' := by
  have hsame : t.udpSockets fd = s.udpSockets fd := spares_netRxProcess fuel s.polling hlog t ht
  have hreturns : (udpRecv d (fuel + 1) (fd : Nat) timeoutMs s).result =
      .ok (some (s.udpSockets fd).letter,
        t.setUdp fd { t.udpSockets fd with hasData := false }) := by
    rw [udpRecv_of_inTime hactive htime, Logged.result_bind_of_ok ht, hsame, if_pos hdata]
    rfl
  refine ⟨_, hreturns, ?_, fun k hk hlogk => ?_⟩
  · simp [Host.setUdp, hsame, UDPSocket.letter]
  · have hslot : udpSlot ((fd : Nat) : Int) ≠ some k := by
      rw [udpSlot_val]
      exact fun heq => hk (Option.some.inj heq).symm
    exact spares_udpRecv hslot timeoutMs s hlogk _ hreturns

/-! ### While `udp_recv` is running -/

/-- A datagram that has come is in the socket, and no other has come after it. -/
def Got (fd : Fin 8) (M : Mail) (g : Option Received) : Prop :=
  ∀ rcv, g = some rcv → (M.sockets fd).hasData = true ∧ (M.sockets fd).letter = rcv

theorem got_step {M M' : Mail} {es : List NetEvent} {g : Option Received} (hM : Got fd M g)
    (h : MailStep M es M') : Got fd M' (es.foldl (keepLatest (NetEvent.letter fd)) g) := by
  cases h with
  | mute hmute =>
      rw [List.foldl_cons, keepLatest, letter_of_mute hmute]
      exact hM
  | echo => exact hM
  | @datagram i srcIp srcPort data _ hlen =>
      change Got fd _ (keepLatest (NetEvent.letter fd) g (.datagram i srcIp srcPort data))
      by_cases hi : i = fd
      · subst hi
        rw [keepLatest, NetEvent.letter, if_pos rfl, Option.some_or]
        rintro rcv ⟨⟩
        simp only [Function.update_self]
        exact ⟨rfl, letter_deliver _ _ _ hlen⟩
      · rw [keepLatest, NetEvent.letter, if_neg hi, Option.none_or]
        unfold Got
        simp only [Function.update_of_ne (Ne.symm hi)]
        exact hM

theorem leaves_udpWait_got (deadline : UInt64) (s : Host) :
    Leaves (keepLatest (NetEvent.letter fd)) none (udpWait d fd deadline fuel s) fun r g' =>
      ∀ rcv, g' = some rcv → r.1 = some rcv := by
  induction fuel generalizing s with
  | zero => exact follows_stop _
  | succ fuel ih =>
      refine follows_ite (fun _ => follows_pure nofun) fun _ => ?_
      have hprocess : Leaves (keepLatest (NetEvent.letter fd)) none
          (netRxProcess d fuel (timerGetMs d s).2) fun t g' => Got fd t.mail g' :=
        (mail_netRxProcess fuel _).leaves (fun _ _ _ _ hM h => got_step hM h) nofun
      refine follows_bind hprocess fun t g' ht => ?_
      refine follows_ite (fun _ => follows_pure fun rcv hrcv => ?_) fun hdata => ?_
      · exact congrArg some (ht rcv hrcv).2
      · -- without data nothing has come
        cases g' with
        | none => exact ih t
        | some rcv => exact absurd (ht rcv rfl).1 hdata

/-- A datagram that comes while `udp_recv` waits for it is handed over, unless another one
comes after it. -/
theorem udpRecv_polled {timeoutMs : UInt32} {reply : Option Received} {t : Host} {rcv : Received}
    (h : (udpRecv d fuel (fd : Nat) timeoutMs s).result = .ok (reply, t))
    (hlast : latest (NetEvent.letter fd) (udpRecv d fuel (fd : Nat) timeoutMs s).log = some rcv) :
    reply = some rcv := by
  have hleaves : Leaves (keepLatest (NetEvent.letter fd)) none
      (udpRecv d fuel (fd : Nat) timeoutMs s) fun r g' =>
        ∀ rcv, g' = some rcv → r.1 = some rcv := by
    unfold udpRecv
    rw [udpSlot_val]
    exact follows_ite (fun _ => follows_pure nofun) fun _ => leaves_udpWait_got _ _
  refine hleaves.returned h rcv ?_
  rw [foldl_keepLatest, Option.or_none, hlast]

/-! ## From end to end -/

/-- What the socket holds behind `eth_rx_handler` has come from the other host. -/
theorem ethRxHandler_udpFrame (d : Devices) (fuel : Nat) {dstMac srcMac : Mac}
    {id srcPort dstPort : UInt16} {src dst : UInt32} {data padding : List UInt8} {pkt : NetPacket}
    {i : Fin 8}
    (h : pkt.contents = udpFrame dstMac srcMac id src dst srcPort dstPort data ++ padding)
    (hdata : data.length ≤ 1472) (hi : boundTo s dstPort = some i) :
    (ethRxHandler d (fuel + 1) pkt s).result =
        .ok (s.setUdp i ((s.udpSockets i).deliver src srcPort data)) ∧
      latest (NetEvent.letter i) (ethRxHandler d (fuel + 1) pkt s).log =
        some ⟨data, src, srcPort⟩ := by
  obtain ⟨log, hhandle⟩ : ∃ log, ethHandle d (ethRxHandler d fuel) fuel pkt s =
      ⟨log ++ [.datagram i src srcPort data], _⟩ := ethHandle_udpFrame h hdata hi
  have hrx : ethRxHandler d (fuel + 1) pkt s =
      ⟨.enter :: (log ++ [.datagram i src srcPort data]) ++ [.leave],
        .ok (s.setUdp i ((s.udpSockets i).deliver src srcPort data))⟩ := by
    change (Logged.emit NetEvent.enter >>= fun _ => ethHandle d (ethRxHandler d fuel) fuel pkt s >>=
      fun t => Logged.emit NetEvent.leave >>= fun _ => pure t) = _
    rw [hhandle]
    rfl
  rw [hrx]
  refine ⟨rfl, ?_⟩
  simp [latest, List.findSome?_cons, NetEvent.letter]

/-- The datagram that `udp_send` on this socket makes of the data. -/
def sentFrom (s : Host) (fd : Fin 8) (data : List UInt8) : Received :=
  ⟨data, s.ip, (s.udpSockets fd).localPort⟩

/-- What `udp_send` hands to the card of one host and `eth_rx_handler` gets to see on another,
padded or not, is left in the first socket bound to its port, and in no other. There it
stays whatever frames are handled and whatever is called, as long as no datagram comes for the
socket and nobody else takes it, and the next `udp_recv` that is in time returns it; as does
one that is already waiting. -/
theorem udp_delivered (da db : Devices) (fuelA fuelB : Nat) (a b : Host) (j : Int) (fd i : Fin 8)
    (dst : UInt32) (port : UInt16) (data frame padding : List UInt8) (pkt : NetPacket)
    (hslot : udpSlot j = some fd)
    (hsent : .frame frame ∈ (udpSend da fuelA j dst port data a).log)
    (hudp : CarriesUdp frame) (hpkt : pkt.contents = frame ++ padding)
    (hi : boundTo b port = some i) :
    ∃ b', (ethRxHandler db (fuelB + 1) pkt b).result = .ok b' ∧
      (∀ k ≠ i, b'.udpSockets k = b.udpSockets k) ∧
      (∀ (log : List NetEvent) (c s : Host) (calls : List (Nat × Call)),
        Star MailStep b'.mail log c.mail → NoLetter i log →
        (∀ call ∈ calls, call.2.Spares i) → (play db calls c).result = .ok s →
        NoLetter i (play db calls c).log →
        ∀ (fuel : Nat) (timeoutMs : UInt32) (t : Host), InTime db s timeoutMs →
          (netRxProcess db fuel s.polling).result = .ok t →
          NoLetter i (netRxProcess db fuel s.polling).log →
          ∃ t', Fetches db (fuel + 1) i timeoutMs s (sentFrom a fd data) t') ∧
      latest (NetEvent.letter i) (ethRxHandler db (fuelB + 1) pkt b).log =
        some (sentFrom a fd data) ∧
      ∀ (fuel : Nat) (timeoutMs : UInt32) (s t : Host) (reply : Option Received),
        (udpRecv db fuel (i : Nat) timeoutMs s).result = .ok (reply, t) →
        latest (NetEvent.letter i) (udpRecv db fuel (i : Nat) timeoutMs s).log =
          some (sentFrom a fd data) →
        reply = some (sentFrom a fd data) := by
  -- the frame that was sent is one datagram, and the handler delivers it
  obtain ⟨hdata, dstMac, srcMac, id, rfl⟩ := udpSend_frame hslot hsent hudp
  obtain ⟨hrx, hlast⟩ := ethRxHandler_udpFrame db fuelB hpkt hdata hi
  have hactive : (b.udpSockets i).active = true := by
    unfold boundTo at hi
    have hfound := List.find?_some hi
    exact (Bool.and_eq_true_iff.1 hfound).1
  refine ⟨_, hrx, fun k hk => setUdp_of_ne (Ne.symm hk) b _, ?_, hlast,
    fun _ _ _ _ _ h hcame => udpRecv_polled h hcame⟩
  intro log c s calls hframes hlog hcalls hs hlogs fuel timeoutMs t htime ht hlogt
  generalize hb' : b.setUdp i _ = b' at hframes
  have hleft : b'.udpSockets i =
      (b.udpSockets i).deliver a.ip (a.udpSockets fd).localPort data := by
    rw [← hb']
    exact Function.update_self ..
  have hc : c.udpSockets i = b'.udpSockets i := star_spares hframes hlog
  have hcactive : (c.udpSockets i).active = true := by
    rw [hc, hleft]
    exact hactive
  -- nothing that happens in between touches the socket
  have hkept : s.udpSockets i = b'.udpSockets i :=
    (spares_play hcalls hcactive hlogs s hs).trans hc
  have hletter : (s.udpSockets i).letter = sentFrom a fd data := by
    rw [hkept, hleft]
    exact letter_deliver _ _ _ (by omega)
  rw [← hletter]
  refine fetches_of_hasData ?_ ?_ htime ht hlogt
  · rw [hkept, hleft]
    exact hactive
  · rw [hkept, hleft]
    rfl

/-- `net_rx_process` returns when there is nothing to handle. -/
theorem netRxProcess_idle (hcard : d.incoming s.polls = none) (hqueue : s.rxTail = s.rxHead) :
    netRxProcess d (fuel + 1) s = pure { s with polls := s.polls + 1 } := by
  unfold netRxProcess receiveAll e1000Recv
  rw [hcard]
  change drainQueue _ (fuel + 1) { s with polls := s.polls + 1 } = _
  unfold drainQueue netRxDequeue
  rw [if_pos hqueue]

/-! ### A letter -/

/-- A host that knows the address of another one, with a socket on this port. -/
def talkingHost (ip other : UInt32) (port : UInt16) : Host :=
  (udpOpen port { Host.boot (Vector.replicate 6 0) with
    ip := ip, arpCache := fun _ => ⟨other, Vector.replicate 6 2, true⟩ }).2

/-- An `a` on its way from 10.0.0.1 to 10.0.0.2. -/
def letterFrame : List UInt8 :=
  udpFrame (Vector.replicate 6 2) (Vector.replicate 6 0) 1 localIp peerIp 4000 7 [0x61]

/-- It arrives with two bytes of padding. -/
def letterPacket : NetPacket := ⟨fun i => (letterFrame ++ [0, 0])[i]?.getD 0, 45⟩

/-- A card that delivers nothing more, and a clock. -/
def tickingDevices : Devices := { quietDevices with clock := fun n => n.toUInt64 }

theorem letter_sent : .frame letterFrame ∈
    (udpSend quietDevices 0 0 peerIp 7 [0x61] (talkingHost localIp peerIp 4000)).log := by
  have hlog : (udpSend quietDevices 0 0 peerIp 7 [0x61] (talkingHost localIp peerIp 4000)).log =
      [.frame letterFrame] := rfl
  rw [hlog]
  exact List.mem_singleton_self _

theorem letter_contents : letterPacket.contents = letterFrame ++ [0, 0] := by decide

/-- A datagram of one byte is delivered and fetched. -/
theorem udp_delivered_letter : ∃ b', (ethRxHandler tickingDevices 1 letterPacket
    (talkingHost peerIp localIp 7)).result = .ok b' ∧
      ∃ t, Fetches tickingDevices 2 0 1000 b' ⟨[0x61], localIp, 4000⟩ t := by
  rcases udp_delivered quietDevices tickingDevices 0 0 (talkingHost localIp peerIp 4000)
    (talkingHost peerIp localIp 7) 0 0 0 peerIp 7 [0x61] letterFrame [0, 0] letterPacket rfl
    letter_sent (by decide) letter_contents (by decide) with ⟨b', hrx, -, hfetch, -⟩
  have hidle : (ethRxHandler tickingDevices 1 letterPacket
      (talkingHost peerIp localIp 7)).result.toOption.map
        (fun s => (s.rxTail, s.rxHead, s.readings)) = some (0, 0, 0) := by
    decide
  rw [hrx] at hidle
  obtain ⟨htail, hhead, hreadings⟩ : b'.rxTail = 0 ∧ b'.rxHead = 0 ∧ b'.readings = 0 := by
    simpa [Except.toOption] using hidle
  have hprocess : netRxProcess tickingDevices 1 b'.polling =
      pure { b'.polling with polls := b'.polling.polls + 1 } :=
    netRxProcess_idle rfl (htail.trans hhead.symm)
  refine ⟨b', hrx, hfetch [] b' b' [] .refl (noLetter_nil 0) nofun rfl (noLetter_nil 0) 1 1000 _ ?_
    (congrArg Logged.result hprocess) ?_⟩
  · rw [InTime, hreadings]
    decide
  · rw [hprocess]
    exact noLetter_nil 0

/-- With no time to wait, what has come is not fetched. -/
theorem udp_recv_without_time :
    ¬∀ (da db : Devices) (fuelA fuelB : Nat) (a b : Host) (j : Int) (fd i : Fin 8) (dst : UInt32)
      (port : UInt16) (data frame padding : List UInt8) (pkt : NetPacket),
      udpSlot j = some fd → .frame frame ∈ (udpSend da fuelA j dst port data a).log →
      CarriesUdp frame → pkt.contents = frame ++ padding → boundTo b port = some i →
      ∃ b', (ethRxHandler db (fuelB + 1) pkt b).result = .ok b' ∧
        ∀ (fuel : Nat) (timeoutMs : UInt32) (reply : Option Received) (t : Host),
          (udpRecv db fuel (i : Nat) timeoutMs b').result = .ok (reply, t) →
          NoLetter i (udpRecv db fuel (i : Nat) timeoutMs b').log →
          reply = some (sentFrom a fd data) := by
  intro h
  rcases h quietDevices quietDevices 0 0 (talkingHost localIp peerIp 4000)
    (talkingHost peerIp localIp 7) 0 0 0 peerIp 7 [0x61] letterFrame [0, 0] letterPacket rfl
    letter_sent (by decide) letter_contents (by decide) with ⟨b', -, hfetch⟩
  obtain ⟨t, ht⟩ : ∃ t, udpRecv quietDevices 1 ((0 : Fin 8) : Nat) 0 b' = pure (none, t) :=
    udpRecv_of_late (show ¬(0 : UInt64) < 0 + 0 by decide)
  have hreturns : (udpRecv quietDevices 1 ((0 : Fin 8) : Nat) 0 b').result = .ok (none, t) :=
    congrArg Logged.result ht
  refine absurd (hfetch 1 0 none t hreturns ?_) nofun
  rw [ht]
  exact noLetter_nil 0

end PolandOS.Net
