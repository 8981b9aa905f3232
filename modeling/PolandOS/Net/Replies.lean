import PolandOS.Net.Mail
import PolandOS.Net.DnsAnswers

/-! # Who has answered

`icmp_ping` and `dns_resolve` wait for something to be left for them and ask neither where
it comes from nor how long it is. `dns_reply_fits_iff` says which datagrams fit the buffer
that `dns_resolve` has for them, and `replies_attributed` when an answer is one of the host
that was asked.
-/

namespace PolandOS.Net

open Logging

/-! ## The last that came -/

/-- The echo reply that an event brings. -/
def NetEvent.echo : NetEvent → Option Echo
  | .ipv4 p len => echoOf p len
  | _ => none

/-- The datagram that an event brings to this socket. -/
def NetEvent.letter (fd : Fin 8) : NetEvent → Option Received
  | .datagram i srcIp srcPort data => if i = fd then some ⟨data, srcIp, srcPort⟩ else none
  | _ => none

theorem echo_of_mute {e : NetEvent} (h : e.Mute) : e.echo = none := by
  cases e with
  | ipv4 p len => exact h
  | _ => rfl

theorem letter_of_mute {fd : Fin 8} {e : NetEvent} (h : e.Mute) : e.letter fd = none := by
  cases e with
  | datagram => exact h.elim
  | _ => rfl

/-- What `udp_recv` finds in a socket. -/
def UDPSocket.letter (socket : UDPSocket) : Received :=
  ⟨socket.recvBuf.bytes 0 socket.recvLen.toNat, socket.recvSrcIp, socket.recvSrcPort⟩

theorem letter_deliver (socket : UDPSocket) (srcIp : UInt32) (srcPort : UInt16)
    {data : List UInt8} (hlen : data.length ≤ 1500) :
    (socket.deliver srcIp srcPort data).letter = ⟨data, srcIp, srcPort⟩ := by
  have hnat : data.length.toUInt16.toNat = data.length := Nat.mod_eq_of_lt (by omega)
  unfold UDPSocket.letter UDPSocket.deliver
  rw [hnat, bytes_write_self]

/-- An echo reply that has been received is the last that came. -/
def Heard (M : Mail) (g : Option Echo) : Prop :=
  M.received = true → ∃ e, g = some e ∧ e.seq = M.seq

/-- The data of the socket is the last datagram that came for it. -/
def Held (fd : Fin 8) (M : Mail) (g : Option Received) : Prop :=
  (M.sockets fd).hasData = true → g = some (M.sockets fd).letter

variable {M M' : Mail} {es : List NetEvent} {fd : Fin 8}

theorem heard_step {g : Option Echo} (hM : Heard M g) (h : MailStep M es M') :
    Heard M' (es.foldl (keepLatest NetEvent.echo) g) := by
  cases h with
  | mute hmute =>
      rw [List.foldl_cons, keepLatest, echo_of_mute hmute]
      exact hM
  | @echo p len e hecho =>
      have hlast : keepLatest NetEvent.echo g (.ipv4 p len) = some e := by
        rw [keepLatest, NetEvent.echo, hecho, Option.some_or]
      rw [List.foldl_cons, hlast]
      exact fun _ => ⟨e, rfl, rfl⟩
  | datagram => exact hM

/-- The letter in the socket is the last one that came. -/
theorem held_step {g : Option Received} (hM : Held fd M g) (h : MailStep M es M') :
    Held fd M' (es.foldl (keepLatest (NetEvent.letter fd)) g) := by
  cases h with
  | mute hmute =>
      rw [List.foldl_cons, keepLatest, letter_of_mute hmute]
      exact hM
  | echo => exact hM
  | @datagram i srcIp srcPort data hactive hlen =>
      have hnew (hi : i = fd) : keepLatest (NetEvent.letter fd) g (.datagram i srcIp srcPort data) =
          some ⟨data, srcIp, srcPort⟩ := by
        rw [keepLatest, NetEvent.letter, if_pos hi, Option.some_or]
      have hold (hi : i ≠ fd) :
          keepLatest (NetEvent.letter fd) g (.datagram i srcIp srcPort data) = g := by
        rw [keepLatest, NetEvent.letter, if_neg hi, Option.none_or]
      change Held fd _ (keepLatest (NetEvent.letter fd) g (.datagram i srcIp srcPort data))
      by_cases hi : i = fd
      · rw [hnew hi]
        subst hi
        intro _
        simp only [Function.update_self]
        rw [letter_deliver _ _ _ hlen]
      · rw [hold hi]
        unfold Held
        simp only [Function.update_of_ne (Ne.symm hi)]
        exact hM

/-! ## Waiting -/

variable {d : Devices} {fuel : Nat} {s : Host}

/-- `udp_recv` hands over the last datagram that came, and so many bytes as it says. -/
theorem leaves_udpWait (deadline : UInt64) {g : Option Received} (hs : Held fd s.mail g) :
    Leaves (keepLatest (NetEvent.letter fd)) g (udpWait d fd deadline fuel s) fun r g' =>
      ∀ rcv, r.1 = some rcv →
        g' = some rcv ∧ (r.2.udpSockets fd).recvLen.toNat = rcv.data.length := by
  induction fuel generalizing s g with
  | zero => exact follows_stop _
  | succ fuel ih =>
      refine follows_ite (fun _ => follows_pure nofun) fun _ => ?_
      have hprocess := (mail_netRxProcess (d := d) fuel (timerGetMs d s).2).leaves
        (fun _ _ _ _ hM h => held_step hM h) hs
      refine follows_bind hprocess fun t g' ht => ?_
      refine follows_ite (fun hdata => follows_pure ?_) fun _ => ih ht
      rintro rcv ⟨⟩
      refine ⟨ht hdata, ?_⟩
      simp [Host.setUdp]

theorem leaves_udpRecv (timeoutMs : UInt32) {g : Option Received} (hs : Held fd s.mail g) :
    Leaves (keepLatest (NetEvent.letter fd)) g (udpRecv d fuel (fd : Nat) timeoutMs s) fun r g' =>
      ∀ rcv, r.1 = some rcv →
        g' = some rcv ∧ (r.2.udpSockets fd).recvLen.toNat = rcv.data.length := by
  have hslot : udpSlot ((fd : Nat) : Int) = some fd := dif_pos (by omega)
  unfold udpRecv
  rw [hslot]
  exact follows_ite (fun _ => follows_pure nofun) fun _ => leaves_udpWait _ hs

/-- A ping that ends well has seen an echo reply with its number, and none after it. -/
theorem leaves_pingWait (start deadline : UInt64) (seq : UInt16) {g : Option Echo}
    (hs : Heard s.mail g) :
    Leaves (keepLatest NetEvent.echo) g (pingWait d start deadline seq fuel s) fun r g' =>
      r.1 ≠ -1 → ∃ e, g' = some e ∧ e.seq = seq := by
  induction fuel generalizing s g with
  | zero => exact follows_stop _
  | succ fuel ih =>
      refine follows_ite (fun _ => follows_pure fun h => absurd rfl h) fun _ => ?_
      have hprocess := (mail_netRxProcess (d := d) fuel (timerGetMs d s).2).leaves
        (fun _ _ _ _ hM h => heard_step hM h) hs
      refine follows_bind hprocess fun t g' ht => ?_
      refine follows_ite (fun hreply => follows_pure fun _ => ?_) fun _ => ih ht
      rcases Bool.and_eq_true_iff.mp hreply with ⟨hreceived, hseq⟩
      rcases ht hreceived with ⟨e, he, hsame⟩
      exact ⟨e, he, hsame.trans (eq_of_beq hseq)⟩

/-! ## A ping -/

theorem icmpPing_answered (dst : UInt32) (seq : UInt16) (s : Host) {n : Int} {t : Host}
    (h : (icmpPing d fuel dst seq s).result = .ok (n, t)) (hn : n ≠ -1) :
    ∃ e, latest NetEvent.echo (icmpPing d fuel dst seq s).log = some e ∧ e.seq = seq := by
  have hleaves : Leaves (keepLatest NetEvent.echo) none (icmpPing d fuel dst seq s) fun r g' =>
      r.1 ≠ -1 → ∃ e, g' = some e ∧ e.seq = seq := by
    have hsend := (mail_ipv4Send (d := d) (delivers_ethRxHandler d fuel) fuel dst ipProtoIcmp
      (echoRequest seq (ipChecksum (echoRequest seq 0)))
      (timerGetMs d { s with pingReplyReceived := false }).2).leaves (g := none)
      (fun _ _ _ _ hM h => heard_step hM h) nofun
    refine follows_bind hsend fun r g' hr => ?_
    exact follows_ite (fun _ => follows_pure fun h => absurd rfl h) fun _ =>
      leaves_pingWait _ _ _ hr
  have hlast := hleaves.returned h hn
  rwa [foldl_keepLatest, Option.or_none] at hlast

/-! ## A resolver -/

/-- `dns_resolve` has sent its query from this socket, and starts to wait in this state. -/
def DnsWaits (d : Devices) (fuel : Nat) (hostname : List UInt8) (r : Resolver) (fd : Fin 8)
    (s : Host) : Prop :=
  r.configured = true ∧ (udpOpen 53001 r.host).1 = (fd : Nat) ∧
    (udpSend d fuel (fd : Nat) r.dns dnsPort (dnsQuery r.txid hostname)
      (udpOpen 53001 r.host).2).result = .ok (0, s)

/-- A socket that is opened has no data yet. -/
theorem udpOpen_cases (port : UInt16) (s : Host) :
    (udpOpen port s).1 = -1 ∨
      ∃ fd : Fin 8, (udpOpen port s).1 = (fd : Nat) ∧ Held fd (udpOpen port s).2.mail none := by
  unfold udpOpen
  split
  · exact .inl rfl
  next i _ =>
    refine .inr ⟨i, rfl, fun hdata => ?_⟩
    simp [Host.mail, Host.setUdp] at hdata

/-- `dns_resolve` with its socket open. -/
theorem dnsExchange_of_open {hostname : List UInt8} {r : Resolver} (hconf : r.configured = true)
    (hopen : (udpOpen 53001 r.host).1 = (fd : Nat)) :
    dnsExchange d fuel hostname r = (do
      let (sent, s) ← udpSend d fuel (fd : Nat) r.dns dnsPort (dnsQuery r.txid hostname)
        (udpOpen 53001 r.host).2
      if sent ≠ 0 then
        return (none, { r with txid := r.txid + 1, host := udpClose (fd : Nat) s })
      else do
        let (reply, s) ← udpRecv d fuel (fd : Nat) 5000 s
        return (reply, { r with txid := r.txid + 1, host := udpClose (fd : Nat) s })) := by
  unfold dnsExchange
  rw [hconf, if_neg (by decide)]
  dsimp only
  rw [hopen, if_neg (by omega)]

/-- Where `dns_resolve` is handed a datagram, it has waited for it, and it is the last that
came for its socket. -/
theorem dnsExchange_reply {hostname : List UInt8} {r r' : Resolver} {rcv : Received}
    (h : (dnsExchange d fuel hostname r).result = .ok (some rcv, r')) :
    ∃ fd s t, DnsWaits d fuel hostname r fd s ∧
      (udpRecv d fuel (fd : Nat) 5000 s).result = .ok (some rcv, t) ∧
      latest (NetEvent.letter fd) (dnsExchange d fuel hostname r).log = some rcv ∧
      (t.udpSockets fd).recvLen.toNat = rcv.data.length := by
  have hconf : r.configured = true := by
    cases hc : r.configured with
    | true => rfl
    | false =>
        unfold dnsExchange at h
        rw [hc] at h
        cases h
  rcases udpOpen_cases 53001 r.host with hnone | ⟨fd, hopen, hheld⟩
  · unfold dnsExchange at h
    dsimp only at h
    rw [hconf, hnone] at h
    cases h
  rw [dnsExchange_of_open hconf hopen] at h ⊢
  rcases Logged.result_bind.mp h with ⟨⟨sent, s⟩, hsend, hrest⟩
  dsimp only at hrest
  split at hrest
  · cases hrest
  next hsent =>
    have hs := ((mail_udpSend (fd : Nat) r.dns dnsPort (dnsQuery r.txid hostname)
      (udpOpen 53001 r.host).2).leaves (fun _ _ _ _ hM h => held_step hM h) hheld).returned hsend
    rcases Logged.result_bind.mp hrest with ⟨⟨reply, t⟩, hrecv, hreturn⟩
    cases hreturn
    rcases (leaves_udpRecv 5000 hs).returned hrecv rcv rfl with ⟨hlast, hlen⟩
    refine ⟨fd, s, t, ⟨hconf, hopen, ?_⟩, hrecv, ?_, hlen⟩
    · rwa [Decidable.not_not.mp hsent] at hsend
    · rw [Logged.bind_of_ok hsend]
      dsimp only
      rw [if_neg hsent, Logged.bind_of_ok hrecv, Logged.log_pure, List.append_nil]
      rw [← List.foldl_append, foldl_keepLatest, Option.or_none] at hlast
      exact hlast

/-- What `udp_recv` writes stays inside a buffer of this size, and the length that it
reports is the number of bytes written. -/
structure FitsBuffer (size : Nat) (len : UInt16) (written : List UInt8) : Prop where
  inside : ∀ offset < written.length, offset < size
  length : len.toNat = written.length

/-- `resp` has 512 bytes, and a datagram fits as long as its payload has no more: nobody
compares the two. -/
theorem dns_reply_fits_iff (d : Devices) (fuel : Nat) (hostname : List UInt8) (r r' : Resolver)
    (rcv : Received) (h : (dnsExchange d fuel hostname r).result = .ok (some rcv, r')) :
    ∃ fd s t letter, DnsWaits d fuel hostname r fd s ∧
      (udpRecv d fuel (fd : Nat) 5000 s).result = .ok (some rcv, t) ∧
      latest (NetEvent.letter fd) (dnsExchange d fuel hostname r).log = some letter ∧
      (FitsBuffer 512 (t.udpSockets fd).recvLen rcv.data ↔ letter.data.length ≤ 512) := by
  rcases dnsExchange_reply h with ⟨fd, s, t, hwaits, hrecv, hlast, hlen⟩
  refine ⟨fd, s, t, rcv, hwaits, hrecv, hlast, ?_⟩
  constructor
  · intro hfits
    by_contra hlong
    exact absurd (hfits.inside 512 (by omega)) (Nat.lt_irrefl _)
  · intro hshort
    exact ⟨fun offset hoffset => by omega, hlen⟩

/-- The peer's response has so many bytes. -/
def longResponse (n : Nat) : Devices := respondingPeer (List.replicate n 0)

/-- What is known of a datagram that is handed over. -/
theorem exists_of_length {x : Rx (Option Received × Resolver)} {n : Nat}
    (h : x.result.toOption.map (fun a => a.1.map fun rcv => rcv.data.length) = some (some n)) :
    ∃ rcv r', x.result = .ok (some rcv, r') ∧ rcv.data.length = n := by
  cases hres : x.result with
  | error k =>
      rw [hres] at h
      cases h
  | ok a =>
      rcases a with ⟨reply, r'⟩
      rw [hres] at h
      cases reply with
      | none => cases h
      | some rcv =>
          cases h
          exact ⟨rcv, r', rfl, rfl⟩

/-- A reply of 512 bytes fits. -/
theorem dns_reply_fits_iff_short : ∃ fd s t rcv,
    DnsWaits (longResponse 512) 8 [0x61] peerResolver fd s ∧
      (udpRecv (longResponse 512) 8 (fd : Nat) 5000 s).result = .ok (some rcv, t) ∧
      FitsBuffer 512 (t.udpSockets fd).recvLen rcv.data := by
  have hexchange : (dnsExchange (longResponse 512) 8 [0x61] peerResolver).result.toOption.map
      (fun a => a.1.map fun rcv => rcv.data.length) = some (some 512) := by
    decide +kernel
  have hletter : (latest (NetEvent.letter 0)
      (dnsExchange (longResponse 512) 8 [0x61] peerResolver).log).map (fun rcv => rcv.data.length) =
        some 512 := by
    decide +kernel
  rcases exists_of_length hexchange with ⟨rcv, r', hrun, -⟩
  rcases dns_reply_fits_iff _ 8 [0x61] peerResolver r' rcv hrun with
    ⟨fd, s, t, letter, hwaits, hrecv, hlast, hiff⟩
  have hfd : fd = 0 := by
    have hopen : (udpOpen 53001 peerResolver.host).1 = 0 := by decide
    have hsame := hwaits.2.1
    rw [hopen] at hsame
    omega
  subst hfd
  rw [hlast] at hletter
  refine ⟨0, s, t, rcv, hwaits, hrecv, hiff.mpr ?_⟩
  exact Nat.le_of_eq (Option.some.inj hletter)

/-- A response of 513 bytes overruns the buffer. -/
theorem long_response_overruns :
    ¬∀ (d : Devices) (fuel : Nat) (hostname : List UInt8) (r r' : Resolver) (rcv : Received)
      (fd : Fin 8) (s t : Host),
      (dnsExchange d fuel hostname r).result = .ok (some rcv, r') →
      DnsWaits d fuel hostname r fd s →
      (udpRecv d fuel (fd : Nat) 5000 s).result = .ok (some rcv, t) →
      FitsBuffer 512 (t.udpSockets fd).recvLen rcv.data := by
  intro h
  have hexchange : (dnsExchange (longResponse 513) 8 [0x61] peerResolver).result.toOption.map
      (fun a => a.1.map fun rcv => rcv.data.length) = some (some 513) := by
    decide +kernel
  rcases exists_of_length hexchange with ⟨rcv, r', hrun, hlong⟩
  rcases dnsExchange_reply hrun with ⟨fd, s, t, hwaits, hrecv, -, -⟩
  have hfits := h _ 8 [0x61] peerResolver r' rcv fd s t hrun hwaits hrecv
  exact absurd (hfits.inside 512 (by omega)) (Nat.lt_irrefl _)

/-! ## Whose answer it is -/

/-- The echo replies with this number all come from this host, in answer to its request. -/
def EchoesFrom (dst : UInt32) (seq : UInt16) (log : List NetEvent) : Prop :=
  ∀ ev ∈ log, ∀ e ∈ ev.echo, e.seq = seq → e = ⟨dst, 0x504F, seq⟩

instance (dst : UInt32) (seq : UInt16) (log : List NetEvent) :
    Decidable (EchoesFrom dst seq log) :=
  inferInstanceAs (Decidable (∀ ev ∈ log, ∀ e ∈ ev.echo, e.seq = seq → e = ⟨dst, 0x504F, seq⟩))

/-- The datagrams for this socket all come from this host, from the port of a name server. -/
def LettersFrom (dns : UInt32) (fd : Fin 8) (log : List NetEvent) : Prop :=
  ∀ ev ∈ log, ∀ rcv ∈ ev.letter fd, rcv.srcIp = dns ∧ rcv.srcPort = dnsPort

instance (dns : UInt32) (fd : Fin 8) (log : List NetEvent) : Decidable (LettersFrom dns fd log) :=
  inferInstanceAs
    (Decidable (∀ ev ∈ log, ∀ rcv ∈ ev.letter fd, rcv.srcIp = dns ∧ rcv.srcPort = dnsPort))

/-- Behind `dns_resolve`, there is an exchange with the same log. -/
theorem dnsResolve_exchange {hostname : List UInt8} {r r' : Resolver} {ip : UInt32}
    (h : (dnsResolve d fuel hostname r).result = .ok (some ip, r')) :
    ∃ rcv, (dnsExchange d fuel hostname r).result = .ok (some rcv, r') ∧
      (dnsResolve d fuel hostname r).log = (dnsExchange d fuel hostname r).log := by
  unfold dnsResolve at h ⊢
  rcases Logged.result_bind.mp h with ⟨⟨reply, t⟩, hexchange, hrest⟩
  cases reply with
  | none => cases hrest
  | some rcv =>
      dsimp only at hrest
      cases hscan : (scanReply r.txid rcv.data).result with
      | error k =>
          rw [hscan] at hrest
          cases hrest
      | ok x =>
          rw [hscan] at hrest
          cases hrest
          refine ⟨rcv, hexchange, ?_⟩
          rw [Logged.bind_of_ok hexchange]
          dsimp only
          rw [hscan, Logged.log_pure, List.append_nil]

/-- What ends the wait is the last echo reply with the number of the request, and the last
datagram for the socket: those of the host that was asked, where no other host sends any. -/
theorem replies_attributed (d : Devices) (fuel : Nat) :
    (∀ (dst : UInt32) (seq : UInt16) (s t : Host) (n : Int),
      (icmpPing d fuel dst seq s).result = .ok (n, t) → n ≠ -1 →
      EchoesFrom dst seq (icmpPing d fuel dst seq s).log →
      latest NetEvent.echo (icmpPing d fuel dst seq s).log = some ⟨dst, 0x504F, seq⟩) ∧
    ∀ (hostname : List UInt8) (r r' : Resolver) (ip : UInt32),
      (dnsResolve d fuel hostname r).result = .ok (some ip, r') →
      ∃ fd : Fin 8, (udpOpen 53001 r.host).1 = (fd : Nat) ∧
        (LettersFrom r.dns fd (dnsResolve d fuel hostname r).log →
          ∃ letter, latest (NetEvent.letter fd) (dnsResolve d fuel hostname r).log = some letter ∧
            letter.srcIp = r.dns ∧ letter.srcPort = dnsPort) := by
  constructor
  · intro dst seq s t n h hn hfrom
    rcases icmpPing_answered dst seq s h hn with ⟨e, he, hseq⟩
    rcases mem_of_latest he with ⟨ev, hev, hecho⟩
    rw [he, hfrom ev hev e hecho hseq]
  · intro hostname r r' ip h
    rcases dnsResolve_exchange h with ⟨rcv, hexchange, hlog⟩
    rcases dnsExchange_reply hexchange with ⟨fd, s, t, hwaits, -, hlast, -⟩
    refine ⟨fd, hwaits.2.1, fun hfrom => ⟨rcv, by rw [hlog, hlast], ?_⟩⟩
    rcases mem_of_latest hlast with ⟨ev, hev, hletter⟩
    exact hfrom ev (hlog ▸ hev) rcv hletter

/-! ### A stranger -/

/-- A packet of this host, in a frame. -/
def packetFrom (src : UInt32) (protocol : UInt8) (payload : List UInt8) : List UInt8 :=
  let ip := ipv4Header (20 + payload.length).toUInt16 0 protocol
  List.replicate 12 0 ++ u16Bytes (htons ethTypeIpv4) ++
    ip (ipChecksum (ip 0 src localIp)) src localIp ++ payload

/-- An echo reply of this host. -/
def echoFrom (src : UInt32) (ident seq : UInt16) : Devices :=
  .script [some (packetFrom src ipProtoIcmp
    ([0, 0] ++ u16Bytes 0 ++ u16Bytes (htons ident) ++ u16Bytes (htons seq)))]

/-- An answer of this host, as if it were the name server. -/
def answerFrom (src : UInt32) : Devices :=
  let message := oneAnswer [0xC0, 0x0C]
  .script [some (packetFrom src ipProtoUdp
    (udpHeader 53 53001 (8 + message.length).toUInt16 0 ++ message))]

/-- A host at 10.0.0.3. -/
def strangerIp : UInt32 := 0x0300000A

/-- An echo and a DNS reply of the peer are attributed to it. -/
theorem replies_attributed_peer :
    latest NetEvent.echo (icmpPing (echoFrom peerIp 0x504F 1) 8 peerIp 1 peerResolver.host).log =
        some ⟨peerIp, 0x504F, 1⟩ ∧
      ∃ letter, latest (NetEvent.letter 0)
          (dnsResolve (answerFrom peerIp) 8 [0x61] peerResolver).log = some letter ∧
        letter.srcIp = peerIp ∧ letter.srcPort = dnsPort := by
  have hping : (icmpPing (echoFrom peerIp 0x504F 1) 8 peerIp 1
      peerResolver.host).result.toOption.map Prod.fst = some 0 := by
    decide
  have hresolve : (dnsResolve (answerFrom peerIp) 8 [0x61]
      peerResolver).result.toOption.map Prod.fst = some (some 0x04030201) := by
    decide
  rcases Logged.exists_of_toOption hping with ⟨t, hping⟩
  rcases Logged.exists_of_toOption hresolve with ⟨r', hresolve⟩
  constructor
  · exact (replies_attributed _ 8).1 peerIp 1 _ t 0 hping (by decide) (by decide)
  · rcases (replies_attributed _ 8).2 [0x61] peerResolver r' _ hresolve with ⟨fd, hopen, hfrom⟩
    have hfd : fd = 0 := by
      have hzero : (udpOpen 53001 peerResolver.host).1 = 0 := by decide
      rw [hzero] at hopen
      omega
    subst hfd
    exact hfrom (by decide)

/-- Anybody can answer. -/
theorem stranger_answers :
    (¬∀ (d : Devices) (fuel : Nat) (dst : UInt32) (seq : UInt16) (s t : Host) (n : Int),
      (icmpPing d fuel dst seq s).result = .ok (n, t) → n ≠ -1 →
      latest NetEvent.echo (icmpPing d fuel dst seq s).log = some ⟨dst, 0x504F, seq⟩) ∧
    ¬∀ (d : Devices) (fuel : Nat) (hostname : List UInt8) (r r' : Resolver) (ip : UInt32)
      (fd : Fin 8),
      (dnsResolve d fuel hostname r).result = .ok (some ip, r') →
      (udpOpen 53001 r.host).1 = (fd : Nat) →
      ∃ letter, latest (NetEvent.letter fd) (dnsResolve d fuel hostname r).log = some letter ∧
        letter.srcIp = r.dns ∧ letter.srcPort = dnsPort := by
  constructor
  · intro h
    have hping : (icmpPing (echoFrom strangerIp 0 1) 8 peerIp 1
        peerResolver.host).result.toOption.map Prod.fst = some 0 := by
      decide
    rcases Logged.exists_of_toOption hping with ⟨t, hping⟩
    exact absurd (h _ 8 peerIp 1 _ t 0 hping (by decide)) (by decide)
  · intro h
    have hresolve : (dnsResolve (answerFrom strangerIp) 8 [0x61]
        peerResolver).result.toOption.map Prod.fst = some (some 0x04030201) := by
      decide
    have hsource : (latest (NetEvent.letter 0)
        (dnsResolve (answerFrom strangerIp) 8 [0x61] peerResolver).log).map
          (fun rcv => rcv.srcIp) = some strangerIp := by
      decide
    rcases Logged.exists_of_toOption hresolve with ⟨r', hresolve⟩
    rcases h _ 8 [0x61] peerResolver r' _ 0 hresolve (by decide) with
      ⟨letter, hletter, hip, -⟩
    rw [hletter] at hsource
    cases hsource.symm.trans (congrArg some hip)

end PolandOS.Net
