import PolandOS.Net.DhcpWaits
import PolandOS.Net.Dns
import PolandOS.Net.Mail

/-! # What failed calls leave behind

`dhcp_discover` and `dns_resolve` open a UDP socket, wait for replies while other frames come
in, and give up in many places. `failed_calls_restore` says that they close their socket on
every way out, and what else is as it was.
-/

namespace PolandOS.Net

open Dialogue Dhcp Logging

/-- Which UDP sockets are active. -/
def Host.activeUdp (s : Host) : Fin 8 → Bool := fun i => (s.udpSockets i).active

variable {d : Devices} {fuel : Nat} {s t u : Host}

/-! ## Sockets -/

/-- Frames that are handled neither open nor close a socket. -/
theorem MailStep.active {M M' : Mail} {es : List NetEvent} (h : MailStep M es M') (i : Fin 8) :
    (M'.sockets i).active = (M.sockets i).active := by
  cases h with
  | mute => rfl
  | echo => rfl
  | @datagram j srcIp srcPort data _ _ =>
      by_cases hij : i = j
      · subst hij
        simp [UDPSocket.deliver]
      · simp [Function.update_of_ne hij]

theorem MailTraces.activeUdp {α : Type} {v : α → Host} {x : Rx α} (h : MailTraces v x s) {a : α}
    (ha : x.result = .ok a) : (v a).activeUdp = s.activeUdp := by
  refine (h.star ha).invariant (I := fun M => (fun i => (M.sockets i).active) = s.activeUdp)
    (fun M es M' hM hstep => ?_) rfl
  rw [← hM]
  exact funext hstep.active

/-- A socket that is opened and closed again, while the others stay as they are. -/
theorem activeUdp_close {port : UInt16} {fd : Int} (hopen : udpOpen port s = (fd, t))
    (hfd : ¬fd < 0) (hu : u.activeUdp = t.activeUdp) : (udpClose fd u).activeUdp = s.activeUdp := by
  unfold udpOpen at hopen
  split at hopen
  next => cases hopen; omega
  next i hfree =>
    cases hopen
    have hslot : udpSlot ((i : Nat) : Int) = some i := dif_pos (by omega)
    have hinactive : (s.udpSockets i).active = false := by
      simpa using List.find?_some hfree
    unfold udpClose
    rw [hslot]
    funext j
    by_cases hj : j = i
    · subst hj
      simp [Host.activeUdp, Host.setUdp, hinactive]
    · have hother := congrFun hu j
      simp only [Host.activeUdp, Host.setUdp, Function.update_of_ne hj] at hother ⊢
      exact hother

theorem activeUdp_setUdp (fd : Fin 8) (socket : UDPSocket)
    (h : socket.active = (s.udpSockets fd).active) : (s.setUdp fd socket).activeUdp = s.activeUdp := by
  funext i
  by_cases hi : i = fd
  · subst hi
    simp [Host.activeUdp, Host.setUdp, h]
  · simp [Host.activeUdp, Host.setUdp, Function.update_of_ne hi]

theorem activeUdp_udpWait {fd : Fin 8} {deadline : UInt64} {r : Option Received × Host}
    (h : (udpWait d fd deadline fuel s).result = .ok r) : r.2.activeUdp = s.activeUdp := by
  induction fuel generalizing s with
  | zero => cases h
  | succ fuel ih =>
      rw [udpWait] at h
      dsimp only at h
      split at h
      · cases h
        rfl
      · obtain ⟨t, ht, h⟩ := Logged.result_bind.1 h
        have hprocess : t.activeUdp = s.activeUdp :=
          (mail_netRxProcess (d := d) fuel (timerGetMs d s).2).activeUdp ht
        split at h
        · cases h
          exact (activeUdp_setUdp fd { t.udpSockets fd with hasData := false } rfl).trans hprocess
        · exact (ih h).trans hprocess

theorem activeUdp_udpRecv {fd : Int} {timeoutMs : UInt32} {r : Option Received × Host}
    (h : (udpRecv d fuel fd timeoutMs s).result = .ok r) : r.2.activeUdp = s.activeUdp := by
  unfold udpRecv at h
  split at h
  · cases h
    rfl
  · split at h
    · cases h
      rfl
    · exact activeUdp_udpWait (s := (timerGetMs d s).2) h

/-! ## `dhcp_discover` -/

/-- The variables that `dhcp_discover` configures, and the active sockets. -/
structure Restored (s s' : Interface) : Prop where
  ip : s'.host.ip = s.host.ip
  gateway : s'.host.gateway = s.host.gateway
  subnet : s'.host.subnet = s.host.subnet
  dns : s'.dns = s.dns
  configured : s'.configured = s.configured
  active : s'.host.activeUdp = s.host.activeUdp

theorem udpOpen_addresses {port : UInt16} {fd : Int} (hopen : udpOpen port s = (fd, t)) :
    t.ip = s.ip ∧ t.gateway = s.gateway ∧ t.subnet = s.subnet := by
  unfold udpOpen at hopen
  split at hopen <;> cases hopen <;> exact ⟨rfl, rfl, rfl⟩

theorem udpClose_addresses (fd : Int) (s : Host) :
    (udpClose fd s).gateway = s.gateway ∧ (udpClose fd s).subnet = s.subnet := by
  unfold udpClose
  split <;> exact ⟨rfl, rfl⟩

/-- Without a lease, the socket is closed and the address is put back. -/
theorem restored_close {s : Interface} {port : UInt16} {fd : Int} {host : Host}
    (hopen : udpOpen port s.host = (fd, host)) (hfd : ¬fd < 0) :
    Restored s { s with host := { udpClose fd { host with ip := 0 } with ip := host.ip } } := by
  obtain ⟨hip, hgateway, hsubnet⟩ := udpOpen_addresses hopen
  obtain ⟨hgateway', hsubnet'⟩ := udpClose_addresses fd { host with ip := 0 }
  exact {
    ip := hip
    gateway := hgateway'.trans hgateway
    subnet := hsubnet'.trans hsubnet
    dns := rfl
    configured := rfl
    active := activeUdp_close hopen hfd rfl }

/-- A discovery that fails has closed its socket and put the address back. -/
theorem returns_dhcpDiscover_failed {s s' : Interface} {tr : List Exchange}
    (h : Returns (dhcpDiscover fuel s) tr (-1, s')) : Restored s s' := by
  unfold dhcpDiscover at h
  rcases hopen : udpOpen dhcpClientPort s.host with ⟨fd, host⟩
  rw [hopen] at h
  dsimp only at h
  split at h
  next hfd =>
    -- every socket is in use
    rcases returns_pure.mp h with ⟨-, hret⟩
    cases hret
    have hsame : host = s.host := by
      unfold udpOpen at hopen
      split at hopen <;> cases hopen
      · rfl
      · omega
    subst hsame
    exact ⟨rfl, rfl, rfl, rfl, rfl, rfl⟩
  next hfd =>
    rcases returns_bind.mp h with ⟨_, _, _, _, _, h⟩
    rcases returns_bind.mp h with ⟨_, now, _, _, _, h⟩
    rcases returns_bind.mp h with ⟨_, ⟨offer, out⟩, _, _, _, h⟩
    cases offer with
    | none =>
        rcases returns_pure.mp h with ⟨-, hret⟩
        cases hret
        exact restored_close hopen hfd
    | some ip =>
        rcases returns_bind.mp h with ⟨_, _, _, _, _, h⟩
        rcases returns_bind.mp h with ⟨_, now', _, _, _, h⟩
        rcases returns_bind.mp h with ⟨_, ⟨ack, out'⟩, _, _, _, h⟩
        cases ack with
        | none =>
            rcases returns_pure.mp h with ⟨-, hret⟩
            cases hret
            exact restored_close hopen hfd
        | some u =>
            rcases returns_pure.mp h with ⟨-, hret⟩
            cases hret

/-! ## `dns_resolve` -/

/-- The loop over the answers, with `*ip_out`: what `dns_resolve` returns, and what is there
then. -/
def readAnswersTo (resp : View) (len : UInt16) (fuel : Nat) :
    Nat → UInt16 → UInt32 → Scan (Int × UInt32)
  | 0, _, ipOut => return (-1, ipOut)
  | n + 1, rpos, ipOut =>
    if rpos < len then do
      let rpos ← skipAnswerName resp len fuel rpos
      if rpos.toNat + 10 > len.toNat then return (-1, ipOut)
      else do
        let rtype := respU16 resp rpos.toNat
        let rdlen := respU16 resp (rpos.toNat + 8)
        let rpos ← advance rpos 10
        if rtype = 1 ∧ rdlen = 4 ∧ rpos.toNat + 4 ≤ len.toNat then
          let ipOut := resp.u32 rpos.toNat
          return (0, ipOut)
        else do
          let rpos ← advance rpos rdlen
          readAnswersTo resp len fuel n rpos ipOut
    else return (-1, ipOut)

/-- `dns_resolve` from the response on. -/
def dnsScanTo (txid : UInt16) (resp : View) (len : UInt16) (fuel : Nat) (ipOut : UInt32) :
    Scan (Int × UInt32) :=
  if len < 12 then return (-1, ipOut)
  else if ntohs (resp.u16 0) ≠ txid then return (-1, ipOut)
  else
    let ancount := ntohs (resp.u16 6)
    if ancount = 0 then return (-1, ipOut)
    else do
      let rpos ← skipQuestions resp len fuel (ntohs (resp.u16 4)).toNat 12
      readAnswersTo resp len fuel ancount.toNat rpos ipOut

/-- `dns_resolve` with `*ip_out`. -/
def dnsResolveTo (d : Devices) (fuel : Nat) (hostname : List UInt8) (r : Resolver)
    (ipOut : UInt32) : Rx (Int × UInt32 × Resolver) :=
  if !r.configured then return (-1, ipOut, r)
  else
    let (fd, s) := udpOpen 53001 r.host
    if fd < 0 then return (-1, ipOut, { r with host := s })
    else do
      let query := dnsQuery r.txid hostname
      let txid := r.txid
      let r := { r with txid := r.txid + 1 }
      let (sent, s) ← udpSend d fuel fd r.dns dnsPort query s
      if sent ≠ 0 then return (-1, ipOut, { r with host := udpClose fd s })
      else do
        let (reply, s) ← udpRecv d fuel fd 5000 s
        match reply with
        | none => return (-1, ipOut, { r with host := udpClose fd s })
        | some rcv => do
          let r := { r with host := udpClose fd s }
          let respLen := rcv.data.length.toUInt16
          match (dnsScanTo txid (respView rcv.data) respLen (respLen.toNat + 1) ipOut).result with
          | .error _ => Logged.stop .outOfFuel
          | .ok (code, ipOut) => return (code, ipOut, r)

/-- The return value, and what `*ip_out` is then. -/
def written (ipOut : UInt32) : Option UInt32 → Int × UInt32
  | none => (-1, ipOut)
  | some ip => (0, ip)

/-- The walk that writes to the caller returns what the other one does. -/
theorem readAnswersTo_result (resp : View) (len : UInt16) (fuel n : Nat) (rpos : UInt16)
    (ipOut : UInt32) : (readAnswersTo resp len fuel n rpos ipOut).result =
      (readAnswers resp len fuel n rpos).result.map (written ipOut) := by
  induction n generalizing rpos with
  | zero => rfl
  | succ n ih =>
      unfold readAnswersTo readAnswers
      split
      · rw [Logged.result_bind_eq, Logged.result_bind_eq]
        cases (skipAnswerName resp len fuel rpos).result with
        | error k => rfl
        | ok rpos =>
            change Logged.result _ = Except.map _ (Logged.result _)
            dsimp only
            split
            · rfl
            · rw [Logged.result_bind_eq, Logged.result_bind_eq]
              change Logged.result _ = Except.map _ (Logged.result _)
              split
              · rfl
              · rw [Logged.result_bind_eq, Logged.result_bind_eq]
                exact ih _
      · rfl

theorem dnsScanTo_result (txid : UInt16) (resp : View) (len : UInt16) (fuel : Nat)
    (ipOut : UInt32) : (dnsScanTo txid resp len fuel ipOut).result =
      (dnsScan txid resp len fuel).result.map (written ipOut) := by
  unfold dnsScanTo dnsScan
  split
  · rfl
  split
  · rfl
  dsimp only
  split
  · rfl
  rw [Logged.result_bind_eq, Logged.result_bind_eq]
  cases (skipQuestions resp len fuel (ntohs (resp.u16 4)).toNat 12).result with
  | error k => rfl
  | ok rpos => exact readAnswersTo_result ..

/-- This is `dnsResolve`. -/
theorem dnsResolveTo_result (hostname : List UInt8) (r : Resolver) (ipOut : UInt32) :
    (dnsResolveTo d fuel hostname r ipOut).result =
      (dnsResolve d fuel hostname r).result.map fun p =>
        ((written ipOut p.1).1, (written ipOut p.1).2, p.2) := by
  unfold dnsResolveTo dnsResolve dnsExchange
  split
  · rfl
  dsimp only
  split
  · rfl
  rw [Logged.result_bind_eq, Logged.result_bind_eq, Logged.result_bind_eq]
  cases (udpSend d fuel (udpOpen 53001 r.host).1 r.dns dnsPort (dnsQuery r.txid hostname)
      (udpOpen 53001 r.host).2).result with
  | error k => rfl
  | ok sent =>
      obtain ⟨code, s⟩ := sent
      change Logged.result _ = Except.map _ (Except.bind (Logged.result _) _)
      dsimp only
      split
      · rfl
      rw [Logged.result_bind_eq, Logged.result_bind_eq]
      cases (udpRecv d fuel (udpOpen 53001 r.host).1 5000 s).result with
      | error k => rfl
      | ok received =>
          obtain ⟨reply, s⟩ := received
          cases reply with
          | none => rfl
          | some rcv =>
              dsimp only [Except.bind, pure, Logged.pure]
              rw [dnsScanTo_result, scanReply]
              cases (dnsScan r.txid (respView rcv.data) rcv.data.length.toUInt16
                  (rcv.data.length.toUInt16.toNat + 1)).result <;> rfl

/-- The socket of the query is closed on every way out. -/
theorem activeUdp_dnsExchange {hostname : List UInt8} {r : Resolver}
    {e : Option Received × Resolver} (h : (dnsExchange d fuel hostname r).result = .ok e) :
    e.2.host.activeUdp = r.host.activeUdp := by
  unfold dnsExchange at h
  split at h
  · cases h
    rfl
  rcases hopen : udpOpen 53001 r.host with ⟨fd, s⟩
  rw [hopen] at h
  dsimp only at h
  split at h
  next hfd =>
    cases h
    unfold udpOpen at hopen
    split at hopen <;> cases hopen
    · rfl
    · omega
  next hfd =>
    obtain ⟨⟨sent, t⟩, hsend, h⟩ := Logged.result_bind.1 h
    have hsent : t.activeUdp = s.activeUdp := (mail_udpSend fd r.dns dnsPort _ s).activeUdp hsend
    dsimp only at h
    split at h
    · cases h
      exact activeUdp_close hopen hfd hsent
    · obtain ⟨⟨reply, u⟩, hrecv, h⟩ := Logged.result_bind.1 h
      cases h
      exact activeUdp_close hopen hfd ((activeUdp_udpRecv hrecv).trans hsent)

theorem activeUdp_dnsResolve {hostname : List UInt8} {r : Resolver} {e : Option UInt32 × Resolver}
    (h : (dnsResolve d fuel hostname r).result = .ok e) :
    e.2.host.activeUdp = r.host.activeUdp := by
  unfold dnsResolve at h
  obtain ⟨⟨reply, r'⟩, hexchange, h⟩ := Logged.result_bind.1 h
  have hactive := activeUdp_dnsExchange hexchange
  cases reply with
  | none =>
      cases h
      exact hactive
  | some rcv =>
      dsimp only at h
      split at h
      · cases h
      · cases h
        exact hactive

/-- Whatever comes in and when: a `dhcp_discover` that returns -1 leaves the configuration
and the active UDP sockets as they were, and so does every `dns_resolve` with the sockets;
it writes `*ip_out` only if it returns 0. -/
theorem failed_calls_restore :
    (∀ (fuel : Nat) (s s' : Interface) (tr : List Exchange),
      Returns (dhcpDiscover fuel s) tr (-1, s') → Restored s s') ∧
    ∀ (d : Devices) (fuel : Nat) (hostname : List UInt8) (r r' : Resolver) (ipOut ipOut' : UInt32)
      (code : Int), (dnsResolveTo d fuel hostname r ipOut).result = .ok (code, ipOut', r') →
      r'.host.activeUdp = r.host.activeUdp ∧ (code ≠ 0 → ipOut' = ipOut) := by
  refine ⟨fun fuel s s' tr => returns_dhcpDiscover_failed, ?_⟩
  intro d fuel hostname r r' ipOut ipOut' code h
  rw [dnsResolveTo_result] at h
  cases hres : (dnsResolve d fuel hostname r).result with
  | error k =>
      rw [hres] at h
      cases h
  | ok e =>
      rw [hres] at h
      cases h
      refine ⟨activeUdp_dnsResolve hres, fun hcode => ?_⟩
      cases he : e.1 with
      | none => rfl
      | some ip =>
          rw [he] at hcode
          exact absurd rfl hcode

/-- Nothing comes in, and four seconds pass between two looks at the clock. -/
def silence (now : UInt64) : (q : Query) → q.Answer × UInt64
  | .now => (now, now + 4000)
  | .recv => (none, now)
  | .send _ => (0, now)

/-- The same, of the devices of the stack. -/
def silentDevices : Devices where
  clock := fun i => 4000 * i.toUInt64
  incoming := fun _ => none
  outcome := fun _ => 0

/-- The discovery of a host that has an address is given up, and so is a query. -/
theorem failed_calls_restore_silence :
    (∃ s', Returns (dhcpDiscover 8 ⟨peerResolver.host, peerIp, true⟩)
        ((dhcpDiscover 8 ⟨peerResolver.host, peerIp, true⟩).serve silence 0).1 (-1, s') ∧
      Restored ⟨peerResolver.host, peerIp, true⟩ s') ∧
    ∃ r', (dnsResolveTo silentDevices 8 [0x61] peerResolver 5).result = .ok (-1, 5, r') ∧
      r'.host.activeUdp = peerResolver.host.activeUdp := by
  constructor
  · have hfails : ((dhcpDiscover 8 ⟨peerResolver.host, peerIp, true⟩).serve silence 0).2.map
        Prod.fst = some (-1) := by decide +kernel
    rcases Option.map_eq_some_iff.mp hfails with ⟨⟨n, s'⟩, hserve, rfl⟩
    exact ⟨s', returns_serve hserve, failed_calls_restore.1 _ _ _ _ (returns_serve hserve)⟩
  · have hfails : (dnsResolveTo silentDevices 8 [0x61] peerResolver 5).result.toOption.map
        Prod.fst = some (-1) := by decide
    rcases Logged.exists_of_toOption hfails with ⟨⟨ip, r'⟩, hres⟩
    rcases failed_calls_restore.2 _ _ _ _ _ _ _ _ hres with ⟨hactive, hip⟩
    obtain rfl := hip (by decide)
    exact ⟨r', hres, hactive⟩

end PolandOS.Net
