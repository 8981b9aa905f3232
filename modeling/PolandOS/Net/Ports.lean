import PolandOS.Net.SendReports

/-! # The ports of TCP sockets

`tcp_connect` takes its local port from a counter of 16 bits that starts at 49152 and is
incremented without a look at the sockets. `sockets_distinguishable_iff`: the ports of a
session are ephemeral and its sockets distinguishable exactly as long as at most 16384
slots have been taken.
-/

namespace PolandOS.Net

open Logging

/-- Active sockets differ in their local port or in their peer. -/
def Distinguishable (T : Slots) : Prop :=
  ∀ i j, (T.1 i).active = true → (T.1 j).active = true →
    (T.1 i).localPort = (T.1 j).localPort → (T.1 i).remoteIp = (T.1 j).remoteIp →
    (T.1 i).remotePort = (T.1 j).remotePort → i = j

/-- The port that a slot is opened with is ephemeral, and the sockets behind the step are
distinguishable. -/
def PortsFine (es : List NetEvent) (T' : Slots) : Prop :=
  Distinguishable T' ∧ ∀ fd ip port, .opened fd ip port ∈ es → 49152 ≤ (T'.1 fd).localPort

/-- A slot is taken. -/
def NetEvent.isOpened : NetEvent → Bool
  | .opened .. => true
  | _ => false

/-- So many slots have been taken. -/
def slotsTaken (log : List NetEvent) : Nat := log.countP NetEvent.isOpened

@[simp] theorem slotsTaken_append (log log' : List NetEvent) :
    slotsTaken (log ++ log') = slotsTaken log + slotsTaken log' := List.countP_append ..

/-! ## What a step does to the ports -/

variable {T T' : Slots} {es : List NetEvent}

/-- The step takes no slot: no socket gets active, and none another port. -/
structure KeepsPorts (T : Slots) (es : List NetEvent) (T' : Slots) : Prop where
  none_taken : slotsTaken es = 0
  next : T'.2 = T.2
  sockets : ∀ i, (T'.1 i).active = true →
    (T.1 i).active = true ∧ (T'.1 i).localPort = (T.1 i).localPort

theorem keepsPorts_refl (h : slotsTaken es = 0) : KeepsPorts T es T :=
  ⟨h, rfl, fun _ hactive => ⟨hactive, rfl⟩⟩

theorem keepsPorts_set {fd : Fin 4} {socket : TCPSocket} (h : slotsTaken es = 0)
    (hsocket : socket.active = true →
      (T.1 fd).active = true ∧ socket.localPort = (T.1 fd).localPort) :
    KeepsPorts T es (setSlot T fd socket) := by
  refine ⟨h, rfl, fun i hactive => ?_⟩
  by_cases hi : i = fd
  · subst hi
    rw [setSlot_self] at hactive ⊢
    exact hsocket hactive
  · rw [setSlot_ne T socket hi] at hactive ⊢
    exact ⟨hactive, rfl⟩

theorem RxStep.keepsPorts (h : RxStep T es T') : KeepsPorts T es T' := by
  cases h with
  | @quiet e hquiet =>
      refine keepsPorts_refl ?_
      cases e with
      | opened => exact hquiet.elim
      | _ => rfl
  | badHeader | header | transmit => exact keepsPorts_refl rfl
  | establish | store | finReceived | finAcked | lastFin | timeWait =>
      exact keepsPorts_set rfl fun hactive => ⟨hactive, rfl⟩
  | closed => exact keepsPorts_set rfl nofun

/-- Every step keeps the ports, or takes one slot with the next port. -/
theorem TcpStep.ports_cases (h : TcpStep T es T') :
    KeepsPorts T es T' ∨ slotsTaken es = 1 ∧ ∃ fd ip port socket, .opened fd ip port ∈ es ∧
      (∀ i ip' port', .opened i ip' port' ∈ es → i = fd) ∧
      socket.localPort = T.2 ∧ T' = (Function.update T.1 fd socket, T.2 + 1) := by
  cases h with
  | rx h => exact .inl h.keepsPorts
  | @opened fd ip port => exact .inr ⟨rfl, fd, ip, port, _, by simp, by simp +contextual, rfl, rfl⟩
  | connected | closing => exact .inl (keepsPorts_refl rfl)
  | close | finSent | advance | returned =>
      exact .inl (keepsPorts_set rfl fun hactive => ⟨hactive, rfl⟩)
  | giveUp | released => exact .inl (keepsPorts_set rfl nofun)

/-! ## As long as the counter does not wrap -/

/-- Behind `n` slots taken: where the counter is, and that the ports of the active sockets
were taken from it, each once. -/
structure Numbered (T : Slots) (n : Nat) : Prop where
  next : T.2 = (49152 + n).toUInt16
  low : ∀ i, (T.1 i).active = true → 49152 ≤ (T.1 i).localPort.toNat
  below : ∀ i, (T.1 i).active = true → (T.1 i).localPort.toNat < 49152 + n
  apart : ∀ i j, (T.1 i).active = true → (T.1 j).active = true →
    (T.1 i).localPort = (T.1 j).localPort → i = j

theorem Numbered.distinguishable {n : Nat} (h : Numbered T n) : Distinguishable T :=
  fun i j hi hj hport _ _ => h.apart i j hi hj hport

theorem Numbered.keep {n : Nat} (h : Numbered T n) (hkeeps : KeepsPorts T es T') :
    Numbered T' n where
  next := hkeeps.next.trans h.next
  low i hi := by
    rcases hkeeps.sockets i hi with ⟨hactive, hport⟩
    rw [hport]
    exact h.low i hactive
  below i hi := by
    rcases hkeeps.sockets i hi with ⟨hactive, hport⟩
    rw [hport]
    exact h.below i hactive
  apart i j hi hj hport := by
    rcases hkeeps.sockets i hi with ⟨hactive, hporti⟩
    rcases hkeeps.sockets j hj with ⟨hactive', hportj⟩
    exact h.apart i j hactive hactive' (hporti.symm.trans (hport.trans hportj))

/-- A slot is taken while the counter is in the ephemeral range. -/
theorem Numbered.take {n : Nat} (h : Numbered T n) (hn : n < 16384) {fd : Fin 4}
    {socket : TCPSocket} (hport : socket.localPort = T.2) :
    Numbered (Function.update T.1 fd socket, T.2 + 1) (n + 1) ∧ 49152 ≤ socket.localPort := by
  have hnat : socket.localPort.toNat = 49152 + n := by
    rw [hport, h.next]
    exact Nat.mod_eq_of_lt (by omega)
  -- every port that is in use is smaller than the new one
  have hother : ∀ i, i ≠ fd → (T.1 i).active = true → (T.1 i).localPort ≠ socket.localPort := by
    intro i _ hactive hsame
    have := h.below i hactive
    rw [hsame] at this
    omega
  refine ⟨⟨?_, ?_, ?_, ?_⟩, UInt16.le_iff_toNat_le.mpr ?_⟩
  · change T.2 + 1 = _
    rw [h.next, ← Nat.add_assoc]
    simp
  · intro i hi
    change 49152 ≤ (Function.update T.1 fd socket i).localPort.toNat
    change (Function.update T.1 fd socket i).active = true at hi
    by_cases hfd : i = fd
    · subst hfd
      rw [Function.update_self]
      omega
    · rw [Function.update_of_ne hfd] at hi ⊢
      exact h.low i hi
  · intro i hi
    change (Function.update T.1 fd socket i).localPort.toNat < _
    change (Function.update T.1 fd socket i).active = true at hi
    by_cases hfd : i = fd
    · subst hfd
      rw [Function.update_self]
      omega
    · rw [Function.update_of_ne hfd] at hi ⊢
      have := h.below i hi
      omega
  · intro i j hi hj hsame
    change (Function.update T.1 fd socket i).active = true at hi
    change (Function.update T.1 fd socket j).active = true at hj
    change (Function.update T.1 fd socket i).localPort =
      (Function.update T.1 fd socket j).localPort at hsame
    by_cases hifd : i = fd
    · by_cases hjfd : j = fd
      · exact hifd.trans hjfd.symm
      · rw [Function.update_of_ne hjfd] at hj hsame
        rw [hifd, Function.update_self] at hsame
        exact absurd hsame.symm (hother j hjfd hj)
    · rw [Function.update_of_ne hifd] at hi hsame
      by_cases hjfd : j = fd
      · rw [hjfd, Function.update_self] at hsame
        exact absurd hsame (hother i hifd hi)
      · rw [Function.update_of_ne hjfd] at hj hsame
        exact h.apart i j hi hj hsame
  · rw [hnat]
    exact Nat.le_add_right ..

theorem Numbered.step {n : Nat} (h : Numbered T n) (hstep : TcpStep T es T')
    (hn : n + slotsTaken es ≤ 16384) : Numbered T' (n + slotsTaken es) ∧ PortsFine es T' := by
  rcases hstep.ports_cases with hkeeps | ⟨hone, fd, _, _, socket, -, honly, hport, rfl⟩
  · rw [hkeeps.none_taken]
    have hkept := h.keep hkeeps
    refine ⟨hkept, hkept.distinguishable, ?_⟩
    intro fd ip port hmem
    exact absurd rfl (List.countP_eq_zero.mp hkeeps.none_taken _ hmem)
  · rw [hone] at hn ⊢
    have htake := @Numbered.take _ _ h hn fd _ hport
    rcases htake with ⟨htaken, hlow⟩
    refine ⟨htaken, htaken.distinguishable, ?_⟩
    intro i ip port hmem
    rw [honly i ip port hmem]
    change 49152 ≤ (Function.update T.1 fd socket fd).localPort
    rwa [Function.update_self]

/-- The steps behind which the ports are fine. -/
def FineStep (T : Slots) (es : List NetEvent) (T' : Slots) : Prop :=
  TcpStep T es T' ∧ PortsFine es T'

theorem Numbered.run (h : Numbered T 0) (hrun : Star TcpStep T es T')
    (hn : slotsTaken es ≤ 16384) : Star FineStep T es T' ∧ Numbered T' (slotsTaken es) := by
  induction hrun with
  | refl => exact ⟨.refl, h⟩
  | tail _ hstep ih =>
      rw [slotsTaken_append] at hn ⊢
      rcases ih (by omega) with ⟨hfine, hnumbered⟩
      rcases hnumbered.step hstep hn with ⟨hnumbered', hports⟩
      exact ⟨hfine.tail ⟨hstep, hports⟩, hnumbered'⟩

/-! ## When it wraps -/

/-- A run whose ports are fine takes no slot with the counter at 0. -/
theorem fine_run_bounded (h : T.2 = 49152) (hrun : Star FineStep T es T') :
    slotsTaken es ≤ 16384 ∧ T'.2 = (49152 + slotsTaken es).toUInt16 := by
  induction hrun with
  | refl => exact ⟨Nat.zero_le _, h⟩
  | @tail es es' U U' _ hstep ih =>
      rcases ih with ⟨hle, hnext⟩
      rw [slotsTaken_append]
      rcases hstep.1.ports_cases with hkeeps | ⟨hone, fd, ip, port, socket, hmem, -, hport, rfl⟩
      · rw [hkeeps.none_taken]
        exact ⟨hle, hkeeps.next.trans hnext⟩
      · have hlow := hstep.2.2 fd ip port hmem
        change 49152 ≤ (Function.update U.1 fd socket fd).localPort at hlow
        rw [Function.update_self, hport, hnext] at hlow
        have hnat : 49152 ≤ (49152 + slotsTaken es) % 65536 := UInt16.le_iff_toNat_le.mp hlow
        rw [hone]
        refine ⟨by omega, ?_⟩
        change U.2 + 1 = _
        rw [hnext, ← Nat.add_assoc]
        simp

/-- In a session all ports that are taken are ephemeral, and the sockets distinguishable
behind every step, exactly if at most 16384 slots are taken. -/
theorem sockets_distinguishable_iff (d : Devices) (mac : Mac) {log : List NetEvent}
    {o : Option Host} (h : Session d (.boot mac) log o) :
    (∃ T, Star FineStep (Host.boot mac).slots log T ∧ ∀ s, o = some s → s.slots = T) ↔
      slotsTaken log ≤ 16384 := by
  constructor
  · rintro ⟨T, hT, -⟩
    exact (fine_run_bounded rfl hT).1
  · intro hn
    rcases session_steps h with ⟨T, hT, hs⟩
    have hboot : Numbered (Host.boot mac).slots 0 := ⟨rfl, nofun, nofun, nofun⟩
    exact ⟨T, (hboot.run hT hn).1, hs⟩

theorem sockets_distinguishable_iff_one :
    ∃ T, Star FineStep (Host.boot (Vector.replicate 6 1)).slots
        (play (.script connectFrames) connectCalls (.boot (Vector.replicate 6 1))).log T ∧
      ∀ s, (play (.script connectFrames) connectCalls
        (.boot (Vector.replicate 6 1))).result.toOption = some s → s.slots = T :=
  (sockets_distinguishable_iff (.script connectFrames) (Vector.replicate 6 1)
    (session_play _ _ connectCalls)).mpr (by decide)

/-! ## A peer that never answers -/

/-- Nothing arrives, and ten seconds pass between two looks at the clock. -/
def slowDevices : Devices where
  clock := fun i => (i * 10000).toUInt64
  incoming := fun _ => none
  outcome := fun _ => 0

/-- Nobody is known, and the clock has been read so often. -/
structure Cold (r : Nat) (s : Host) : Prop where
  cache : ∀ i, (s.arpCache i).valid = false
  readings : s.readings = r

/-- Two looks at the clock are enough for every timeout. -/
theorem slow_timeout {i : Nat} (timeout : UInt64) (hi : i < 100000) (ht : timeout ≤ 5000) :
    ¬slowDevices.clock (i + 1) < slowDevices.clock i + timeout := by
  have hnat : timeout.toNat ≤ 5000 := UInt64.le_iff_toNat_le.mp ht
  have hnow : (slowDevices.clock i).toNat = i * 10000 := Nat.mod_eq_of_lt (by omega)
  have hthen : (slowDevices.clock (i + 1)).toNat = (i + 1) * 10000 := Nat.mod_eq_of_lt (by omega)
  rw [UInt64.lt_iff_toNat_lt, UInt64.toNat_add, hnow, hthen]
  omega

variable {rx : Receiver} {s : Host}

theorem arpCacheLookup_cold {r : Nat} (h : Cold r s) (ip : UInt32) : arpCacheLookup ip s = none := by
  have hnone : (List.finRange 32).find? (fun i => (s.arpCache i).valid && (s.arpCache i).ip == ip) =
      none := List.find?_eq_none.mpr fun i _ => by simp [h.cache i]
  rw [arpCacheLookup, hnone]
  rfl

theorem arpSendRequest_slow (ip : UInt32) : (arpSendRequest slowDevices ip s).result =
    .ok { s with sends := s.sends + 1 } := by
  have hlen : ¬(arpPacket 1 s.mac s.ip (Vector.replicate 6 0) ip).length > 1500 := by
    simp [arpPacket, u16Bytes, u32Bytes]
  unfold arpSendRequest ethSend
  rw [if_neg hlen]
  rfl

theorem arpResolve_slow {r : Nat} (h : Cold r s) (hr : r < 100000) (ip : UInt32) :
    ∃ t, (arpResolve slowDevices rx 1 ip s).result = .ok (none, t) ∧ Cold (r + 2) t := by
  rcases h.readings with rfl
  refine ⟨{ s with readings := s.readings + 2, sends := s.sends + 1 }, ?_, h.cache, rfl⟩
  unfold arpResolve
  rw [arpCacheLookup_cold h]
  dsimp only
  rw [Logged.result_bind_of_ok (a := ()) rfl, Logged.result_bind_of_ok (arpSendRequest_slow ip)]
  dsimp only [timerGetMs]
  unfold arpWait
  exact congrArg Logged.result (if_pos (slow_timeout 3000 hr (by decide)))

/-- A segment to a peer that is not in the cache. -/
theorem tcpSendSegment_slow {r : Nat} (h : Cold r s) (hr : r < 100000) (fd : Fin 4) (flags : UInt8) :
    ∃ t, (tcpSendSegment slowDevices rx 1 fd flags [] s).result = .ok (-1, t) ∧ Cold (r + 2) t := by
  rcases arpResolve_slow h hr (nextHop s (s.tcpSockets fd).remoteIp) with ⟨t, hresolve, ht⟩
  refine ⟨t, ?_, ht⟩
  rw [tcpSendSegment_eq, Logged.result_bind_of_ok (a := ()) rfl]
  unfold ipv4Send
  rw [if_neg (by simp [length_segment])]
  exact (Logged.result_bind_of_ok hresolve).trans rfl

/-- Reading the clock for the deadline, and once more. -/
theorem connectWait_slow {r : Nat} (h : Cold r s) (hr : r < 100000) (fd : Fin 4) : ∃ t,
    (connectWait slowDevices fd (slowDevices.clock s.readings + 5000) 1
      { s with readings := s.readings + 1 }).result = .ok (false, t) ∧ Cold (r + 2) t := by
  rcases h.readings with rfl
  refine ⟨{ s with readings := s.readings + 2 }, ?_, h.cache, rfl⟩
  unfold connectWait
  exact congrArg Logged.result (if_pos (slow_timeout 5000 hr (by decide)))

theorem star_none_taken (h : Star RxStep T es T') : slotsTaken es = 0 := by
  induction h with
  | refl => rfl
  | tail _ hstep ih => rw [slotsTaken_append, ih, hstep.keepsPorts.none_taken]

theorem RxTraces.none_taken {α : Type} {v : α → Host} {x : Rx α} (h : RxTraces [] v x s) :
    slotsTaken x.log = 0 := by
  rcases h with ⟨y, hy, -⟩
  exact star_none_taken (star_slots (fun _ _ => .quiet) hy)

/-- A connection that is given up: its slot is free again, and its port gone. -/
theorem tcpConnect_slow {r : Nat} (h : Cold r s) (hr : r < 99000)
    (hfree : (s.tcpSockets 0).active = false) (ip : UInt32) (port : UInt16) :
    slotsTaken (tcpConnect slowDevices 1 ip port s).log = 1 ∧
      ∃ t, (tcpConnect slowDevices 1 ip port s).result = .ok (-1, t) ∧ Cold (r + 5) t ∧
        (t.tcpSockets 0).active = false := by
  have hslot : freeSlot s = some 0 := by
    have hfin : List.finRange 4 = 0 :: [1, 2, 3] := rfl
    rw [freeSlot, hfin]
    exact List.find?_cons_of_pos (by simp [hfree])
  -- the slot is taken, the SYN is not resolved, and the wait is over at once
  obtain ⟨t₁, hopen, hcount, hcold₁⟩ : ∃ t, (tcpOpen slowDevices 0 ip port s).result = .ok t ∧
      slotsTaken (tcpOpen slowDevices 0 ip port s).log = 1 ∧ Cold (r + 1) t :=
    ⟨_, rfl, rfl, h.cache, congrArg (· + 1) h.readings⟩
  rcases tcpSendSegment_slow hcold₁ (by omega) 0 tcpSyn with ⟨t₂, hsyn, hcold₂⟩
  have hcold₃ : Cold (r + 3) (advanceSeq 0 1 t₂) := ⟨hcold₂.cache, hcold₂.readings⟩
  rcases connectWait_slow hcold₃ (by omega) 0 with ⟨t₃, hwait, hcold₄⟩
  have hnone := (traces_tcpSendSegment (d := slowDevices) (steady_ethRxHandler slowDevices 1) 1 0
    tcpSyn [] t₁).none_taken
  have hnone' := (traces_connectWait (d := slowDevices) 0 (slowDevices.clock
    (advanceSeq 0 1 t₂).readings + 5000) 1 { advanceSeq 0 1 t₂ with
      readings := (advanceSeq 0 1 t₂).readings + 1 }).none_taken
  unfold tcpConnect
  rw [hslot]
  dsimp only [timerGetMs]
  rw [Logged.bind_of_ok hopen, Logged.bind_of_ok hsyn]
  dsimp only
  rw [Logged.bind_of_ok hwait, deactivate_eq]
  refine ⟨?_, _, rfl, ⟨hcold₄.cache, hcold₄.readings⟩, by simp⟩
  change slotsTaken (_ ++ (_ ++ (_ ++ [_]))) = 1
  rw [slotsTaken_append, slotsTaken_append, slotsTaken_append, hcount, hnone, hnone']
  rfl

/-- So many calls of `tcp_connect`. -/
def connects (n : Nat) : List (Nat × Call) := List.replicate n (1, .tcpConnect peerIp 80)

theorem connects_take {n r : Nat} (h : Cold r s) (hn : r + 5 * n < 99000)
    (hfree : (s.tcpSockets 0).active = false) :
    slotsTaken (play slowDevices (connects n) s).log = n := by
  induction n generalizing r s with
  | zero => rfl
  | succ n ih =>
      rcases tcpConnect_slow h (by omega) hfree peerIp 80 with ⟨hone, t, hcall, hcold, hfree'⟩
      have hrun : (Call.run slowDevices 1 s (.tcpConnect peerIp 80)).result = .ok t :=
        Logged.result_bind.mpr ⟨(-1, t), hcall, rfl⟩
      have hlog : (Call.run slowDevices 1 s (.tcpConnect peerIp 80)).log =
          (tcpConnect slowDevices 1 peerIp 80 s).log := by
        change Logged.log (Logged.bind _ _) = _
        rw [Logged.bind, hcall]
        exact List.append_nil _
      rw [connects, List.replicate_succ, play, Logged.bind_of_ok hrun, slotsTaken_append, hlog, hone]
      have hrest := ih hcold (by omega) hfree'
      rw [connects] at hrest
      rw [hrest, Nat.add_comm]

/-- The 16385th connection gets port 0. -/
theorem port_counter_wraps :
    ¬∀ (d : Devices) (mac : Mac) (log : List NetEvent) (o : Option Host),
      Session d (.boot mac) log o → ∃ T, Star FineStep (Host.boot mac).slots log T := by
  intro h
  rcases h slowDevices (Vector.replicate 6 1) _ _ (session_play _ _ (connects 16385)) with ⟨T, hT⟩
  have hbound := (fine_run_bounded rfl hT).1
  rw [connects_take (r := 0) ⟨fun _ => rfl, rfl⟩ (by omega) rfl] at hbound
  omega

end PolandOS.Net
