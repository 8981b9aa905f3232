import PolandOS.Net.Steps

/-! # How deep the receive handler is nested

Answering a frame calls `arp_resolve`, which handles other frames while it waits. Where the
next hop of every answer is in the ARP cache, handlers are not nested at all
(`nesting_bounded`); but a flood of echo requests from an address that nobody answers for
nests them without bound (`nesting_unbounded`).
-/

namespace PolandOS.Net

open Logging

/-- The number of active invocations of `eth_rx_handler` behind an event. -/
def NetEvent.depth (g : Nat) : NetEvent → Nat
  | .enter => g + 1
  | .leave => g - 1
  | _ => g

/-- The number of active invocations of `eth_rx_handler` behind a log. -/
def nesting (log : List NetEvent) : Nat := log.foldl NetEvent.depth 0

/-- Never more than `n` invocations are active. -/
def Nested (n : Nat) (log : List NetEvent) : Prop := ∀ pre, pre <+: log → nesting pre ≤ n

/-- Every wait of `arp_resolve` starts inside less than `n` invocations. -/
def WaitsBelow (n : Nat) (log : List NetEvent) : Prop :=
  ∀ pre ip, pre ++ [.wait ip] <+: log → nesting pre < n

/-- Every next hop that is looked for inside `eth_rx_handler` is in the ARP cache: where it is
not, `arp_resolve` starts to wait (`arpResolve_waits_iff`), and that happens outside only. -/
def AnswersResolved (log : List NetEvent) : Prop :=
  ∀ pre ip, pre ++ [.wait ip] <+: log → nesting pre = 0

/-- `arp_resolve` starts to wait exactly where the next hop is not in the cache. -/
theorem arpResolve_waits_iff (d : Devices) (rx : Receiver) (fuel : Nat) (ip : UInt32) (s : Host) :
    [.wait ip] <+: (arpResolve d rx fuel ip s).log ↔ arpCacheLookup ip s = none := by
  unfold arpResolve
  cases hcache : arpCacheLookup ip s with
  | none =>
      refine iff_of_true ?_ rfl
      rw [Logged.bind_of_ok (a := ()) rfl]
      exact List.prefix_append ..
  | some entry => exact iff_of_false (fun h => nomatch List.prefix_nil.mp h) nofun

/-! ## The bound -/

/-- Handlers are active at these levels. -/
def handlers (k : List Level) : Nat := k.count .handling

/-- Between two handlers there is a wait, and every wait has started inside less than `n`
handlers. -/
def Layered (n : Nat) : List Level → Prop
  | [] => True
  | .handling :: k => k.head? ≠ some .handling ∧ Layered n k
  | .waiting :: k => handlers k < n ∧ Layered n k

theorem handlers_le {n : Nat} (hn : 0 < n) {k : List Level} (h : Layered n k) :
    handlers k ≤ n := by
  match k with
  | [] => exact Nat.zero_le n
  | .waiting :: k =>
      have heq : handlers (.waiting :: k) = handlers k := by simp [handlers]
      exact heq ▸ Nat.le_of_lt h.1
  | [.handling] => exact hn
  | .handling :: .handling :: k => exact absurd rfl h.1
  | .handling :: .waiting :: k =>
      -- the wait below has started inside less than `n`, and only this handler is above it
      have heq : handlers (.handling :: .waiting :: k) = handlers k + 1 := by simp [handlers]
      exact heq ▸ h.2.1

theorem depth_plain {e : NetEvent} (h : e.plain = true) (g : Nat) : e.depth g = g := by
  cases e with
  | enter | leave | wait => cases h
  | _ => rfl

/-- Plain events change no nesting. -/
theorem along_plain {n g : Nat} (hg : g ≤ n) {es : List NetEvent}
    (h : es.all NetEvent.plain = true) :
    Along NetEvent.depth (fun g e => e.depth g ≤ n) g es ∧ es.foldl NetEvent.depth g = g := by
  induction es with
  | nil => exact ⟨trivial, rfl⟩
  | cons e es ih =>
      rw [List.all_cons, Bool.and_eq_true] at h
      have hdepth := depth_plain h.1 g
      rw [along_cons, List.foldl_cons, hdepth]
      exact ⟨⟨hg, (ih h.2).1⟩, (ih h.2).2⟩

/-- One step keeps the levels, as long as its waits start low enough. -/
theorem layered_step {R : Slots → List NetEvent → Slots → Prop} {n : Nat} (hn : 0 < n)
    {x y : Slots × List Level} {es : List NetEvent} (h : RunStep R x es y) (hx : Layered n x.2)
    (hwait : Along NetEvent.depth (fun g e => ∀ ip, e = .wait ip → g < n) (handlers x.2) es) :
    Along NetEvent.depth (fun g e => e.depth g ≤ n) (handlers x.2) es ∧
      es.foldl NetEvent.depth (handlers x.2) = handlers y.2 ∧ Layered n y.2 := by
  cases h with
  | step _ hplain =>
      rcases along_plain (handlers_le hn hx) hplain with ⟨halong, hsame⟩
      exact ⟨halong, hsame, hx⟩
  | enter hk =>
      have hle : handlers (.handling :: _) ≤ n := handlers_le hn ⟨hk, hx⟩
      have heq : ∀ k, handlers (.handling :: k) = handlers k + 1 := by simp [handlers]
      rw [heq] at hle
      exact ⟨⟨hle, trivial⟩, (heq _).symm, hk, hx⟩
  | leave =>
      have heq : ∀ k, handlers (.handling :: k) = handlers k + 1 := by simp [handlers]
      have hle := handlers_le hn hx.2
      rw [heq]
      exact ⟨⟨hle, trivial⟩, rfl, hx.2⟩
  | wait =>
      have heq : ∀ k, handlers (.waiting :: k) = handlers k := by simp [handlers]
      exact ⟨⟨handlers_le hn hx, trivial⟩, (heq _).symm, hwait.1 _ rfl, hx⟩
  | waited =>
      have heq : ∀ k, handlers (.waiting :: k) = handlers k := by simp [handlers]
      exact ⟨trivial, heq _, hx.2⟩

theorem waitsBelow_iff {n : Nat} {log : List NetEvent} :
    WaitsBelow n log ↔ Along NetEvent.depth (fun g e => ∀ ip, e = .wait ip → g < n) 0 log := by
  rw [along_iff]
  constructor
  · rintro h pre e hpre ip rfl
    exact h pre ip hpre
  · intro h pre ip hpre
    exact h pre _ hpre ip rfl

/-- In every session whose waits start inside less than `n` handlers, at most `n` handlers
are ever active. -/
theorem nested_of_waitsBelow (d : Devices) (s₀ : Host) {log : List NetEvent} {o : Option Host}
    (h : Session d s₀ log o) {n : Nat} (hn : 0 < n) (hwait : WaitsBelow n log) :
    Nested n log := by
  rcases session_run h with ⟨x, hx, -⟩
  have hstep : ∀ (x : Slots × List Level) (g : Nat) (es : List NetEvent)
      (y : Slots × List Level), (g = handlers x.2 ∧ Layered n x.2) → RunStep TcpStep x es y →
      Along NetEvent.depth (fun g e => ∀ ip, e = .wait ip → g < n) g es →
      Along NetEvent.depth (fun g e => e.depth g ≤ n) g es ∧
        es.foldl NetEvent.depth g = handlers y.2 ∧ Layered n y.2 := by
    rintro x g es y ⟨rfl, hlayered⟩ hstep hes
    exact layered_step hn hstep hlayered hes
  rcases hx.history hstep ⟨rfl, trivial⟩ (waitsBelow_iff.mp hwait) with ⟨hQ, -⟩
  intro pre hpre
  rcases List.eq_nil_or_concat pre with rfl | ⟨pre, e, rfl⟩
  · exact Nat.zero_le n
  · rw [List.concat_eq_append] at hpre ⊢
    have hdepth := along_iff.mp hQ pre e hpre
    rw [nesting, List.foldl_append]
    exact hdepth

/-- In every session in which each next hop that an answer needs is in the ARP cache, handlers
are not nested at all. -/
theorem nesting_bounded (d : Devices) (s₀ : Host) {log : List NetEvent} {o : Option Host}
    (h : Session d s₀ log o) (hresolved : AnswersResolved log) : Nested 1 log := by
  refine nested_of_waitsBelow d s₀ h Nat.one_pos fun pre ip hpre => ?_
  rw [hresolved pre ip hpre]
  exact Nat.one_pos

/-! ## A flood of echo requests -/

/-- An echo request from 10.0.0.2. -/
def echoFrame : List UInt8 :=
  [0, 0, 0, 0, 0, 0, 0, 0, 0, 0, 0, 0, 0x08, 0x00] ++
    [0x45, 0, 0, 28, 0, 0, 0, 0, 64, 1, 0x66, 0xDF, 10, 0, 0, 2, 10, 0, 0, 1] ++
    [8, 0, 0xF7, 0xFF, 0, 0, 0, 0]

/-- A host that knows the sender. -/
def knowingHost : Host :=
  { Host.boot (Vector.replicate 6 1) with
    ip := localIp
    subnet := 0x00FFFFFF
    arpCache := fun _ => ⟨peerIp, Vector.replicate 6 2, true⟩ }

/-- Nothing is waited for. -/
theorem answersResolved_of_all {log : List NetEvent}
    (h : log.all (fun e => match e with
      | .wait _ => false
      | _ => true) = true) : AnswersResolved log := by
  intro pre ip hpre
  have hmem : NetEvent.wait ip ∈ log := hpre.subset (by simp)
  cases List.all_eq_true.mp h _ hmem

/-- During a ping two requests are answered, one after the other. -/
theorem nesting_bounded_echo :
    Nested 1 (Call.run (.script [some echoFrame, some echoFrame]) 6 knowingHost
      (.icmpPing peerIp 1)).log :=
  nesting_bounded (.script [some echoFrame, some echoFrame]) knowingHost
    (.call .start 6 (.icmpPing peerIp 1)) (answersResolved_of_all (by decide))

/-- The packet behind it in a slot of the queue that was empty before. -/
def echoPacket : NetPacket := ⟨View.write (fun _ => 0) 0 echoFrame, 42⟩

/-- The card delivers it over and over, faster than the clock ticks. -/
def floodDevices : Devices where
  clock := fun _ => 0
  incoming := fun _ => some echoFrame
  outcome := fun _ => 0

/-- Nobody has answered yet, and the queue is empty; its slots hold nothing but requests. -/
structure Flooded (s : Host) : Prop where
  cache : ∀ i, (s.arpCache i).valid = false
  queue : s.rxTail = s.rxHead
  slots : ∀ i, (s.rxQueue i).data = (fun _ => 0) ∨ (s.rxQueue i).data = echoPacket.data

/-- The computation gets `n` invocations deeper at some time. -/
def Climbs {α : Type} (n : Nat) (x : Rx α) : Prop :=
  ∃ pre, pre <+: x.log ∧ ∀ g, pre.foldl NetEvent.depth g = g + n

theorem climbs_zero {α : Type} (x : Rx α) : Climbs 0 x := ⟨[], List.nil_prefix, fun _ => rfl⟩

theorem Climbs.bind {α β : Type} {n : Nat} {x : Rx α} {f : α → Rx β} (h : Climbs n x) :
    Climbs n (x >>= f) := by
  rcases h with ⟨pre, hpre, hdepth⟩
  refine ⟨pre, ?_, hdepth⟩
  cases hres : x.result with
  | error k => rwa [Logged.bind_of_error hres]
  | ok a =>
      rw [Logged.bind_of_ok hres]
      exact hpre.trans (List.prefix_append ..)

theorem climbs_bind {α β : Type} {n : Nat} {x : Rx α} {f : α → Rx β} {a : α}
    (hx : x.result = .ok a) (hplain : ∀ g, x.log.foldl NetEvent.depth g = g)
    (hf : Climbs n (f a)) : Climbs n (x >>= f) := by
  rcases hf with ⟨pre, hpre, hdepth⟩
  rw [Logged.bind_of_ok hx]
  refine ⟨x.log ++ pre, (List.prefix_append_right_inj _).mpr hpre, ?_⟩
  intro g
  rw [List.foldl_append, hplain, hdepth]

theorem climbs_emit {α : Type} {n : Nat} {e : NetEvent} {y : Rx α}
    (hplain : ∀ g, e.depth g = g) (hy : Climbs n y) :
    Climbs n (Logged.emit e >>= fun _ => y) :=
  climbs_bind rfl hplain hy

theorem climbs_enter {α : Type} {n : Nat} {y : Rx α} (hy : Climbs n y) :
    Climbs (n + 1) (Logged.emit .enter >>= fun _ => y) := by
  rcases hy with ⟨pre, hpre, hdepth⟩
  refine ⟨.enter :: pre, List.cons_prefix_cons.mpr ⟨rfl, hpre⟩, ?_⟩
  intro g
  have hinner := hdepth (g + 1)
  rw [List.foldl_cons, NetEvent.depth, hinner]
  omega

theorem write_write (v : View) (bs : List UInt8) : (v.write 0 bs).write 0 bs = v.write 0 bs := by
  funext i
  simp only [View.write, Nat.zero_le, if_true, Nat.sub_zero]
  cases bs[i]? <;> rfl

variable {s : Host} {n : Nat} {rx : Receiver}

/-- A delivered request is the next one that is handled. -/
theorem enqueue_echo (h : Flooded s) :
    ∃ t u, netRxEnqueue echoFrame s = ⟨[.copy .rxSlot 0 42], .ok t⟩ ∧
      netRxDequeue t = some (echoPacket, u) ∧ Flooded u := by
  have hfull : s.rxHead + 1 ≠ s.rxTail := by
    rw [h.queue]
    omega
  have hpkt : (⟨(s.rxQueue s.rxHead).data.write 0 echoFrame, 42⟩ : NetPacket) = echoPacket := by
    rcases h.slots s.rxHead with hdata | hdata
    · rw [hdata]
      rfl
    · rw [hdata]
      exact congrArg (NetPacket.mk · 42) (write_write _ _)
  let t : Host := { s with
    rxQueue := Function.update s.rxQueue s.rxHead echoPacket
    rxHead := s.rxHead + 1 }
  refine ⟨t, { t with rxTail := t.rxTail + 1 }, ?_, ?_, ?_⟩
  · rw [netRxEnqueue, if_neg hfull]
    change (⟨_, .ok { s with
      rxQueue := Function.update s.rxQueue s.rxHead ⟨(s.rxQueue s.rxHead).data.write 0 echoFrame, 42⟩
      rxHead := s.rxHead + 1 }⟩ : Rx Host) = _
    rw [hpkt]
    rfl
  · have hne : t.rxTail ≠ t.rxHead := fun heq => hfull heq.symm
    rw [netRxDequeue, if_neg hne]
    have hslot : t.rxQueue t.rxTail = echoPacket := by
      change Function.update _ _ _ s.rxTail = _
      rw [h.queue, Function.update_self]
    rw [hslot]
  · refine ⟨h.cache, congrArg (· + 1) h.queue, ?_⟩
    intro i
    by_cases hi : i = s.rxHead
    · subst hi
      exact .inr (congrArg NetPacket.data (Function.update_self ..))
    · have hslot : t.rxQueue i = s.rxQueue i := Function.update_of_ne hi ..
      change (t.rxQueue i).data = _ ∨ (t.rxQueue i).data = _
      rw [hslot]
      exact h.slots i

/-- The receiver gets `n` invocations deeper with a request, whatever has happened before. -/
def Floods (n : Nat) (rx : Receiver) : Prop := ∀ s, Flooded s → Climbs n (rx echoPacket s)

theorem climbs_drainQueue (hrx : Floods n rx) {t u : Host}
    (hdeq : netRxDequeue t = some (echoPacket, u)) (hu : Flooded u) (fuel : Nat) :
    Climbs n (drainQueue rx (fuel + 1) t) := by
  unfold drainQueue
  rw [hdeq]
  exact (hrx u hu).bind

theorem climbs_arpWait (hrx : Floods n rx) (hs : Flooded s) (ip : UInt32) (deadline : UInt64)
    (hdeadline : 0 < deadline) (fuel : Nat) :
    Climbs n (arpWait floodDevices rx ip deadline (fuel + 2) s) := by
  -- the first poll delivers a request, which is handled before the cache is looked at
  have hpolled : Flooded { s with readings := s.readings + 1, polls := s.polls + 1 } :=
    ⟨hs.cache, hs.queue, hs.slots⟩
  rcases enqueue_echo hpolled with ⟨t, u, henq, hdeq, hu⟩
  unfold arpWait
  change Climbs n (if ¬(0 : UInt64) < deadline then _ else _)
  rw [if_neg (not_not.mpr hdeadline)]
  refine Climbs.bind ?_
  change Climbs n (netRxEnqueue echoFrame _ >>= fun s => drainQueue rx (fuel + 1) s)
  refine climbs_bind (a := t) (by rw [henq]) (fun g => by rw [henq]; rfl) ?_
  exact climbs_drainQueue hrx hdeq hu fuel

theorem length_arpPacket (oper : UInt16) (sha tha : Mac) (spa tpa : UInt32) :
    (arpPacket oper sha spa tha tpa).length = 28 := by
  simp [arpPacket, u16Bytes, u32Bytes]

theorem arpSendRequest_spec (d : Devices) (ip : UInt32) (s : Host) :
    (arpSendRequest d ip s).result = .ok { s with sends := s.sends + 1 } ∧
      ∀ g, (arpSendRequest d ip s).log.foldl NetEvent.depth g = g := by
  unfold arpSendRequest ethSend
  rw [if_neg (by rw [length_arpPacket]; decide)]
  exact ⟨rfl, fun _ => rfl⟩

theorem climbs_arpResolve (hrx : Floods n rx) (hs : Flooded s) (ip : UInt32) (fuel : Nat) :
    Climbs n (arpResolve floodDevices rx (fuel + 2) ip s) := by
  have hmiss : arpCacheLookup ip s = none := by
    simp [arpCacheLookup, hs.cache]
  unfold arpResolve
  rw [hmiss]
  refine climbs_emit (fun _ => rfl) ?_
  rcases arpSendRequest_spec floodDevices ip s with ⟨hresult, hplain⟩
  refine climbs_bind hresult hplain ?_
  have hsent : Flooded { s with sends := s.sends + 1, readings := s.readings + 1 } :=
    ⟨hs.cache, hs.queue, hs.slots⟩
  exact climbs_arpWait hrx hsent ip (0 + 3000) (by decide) fuel

theorem climbs_ipv4Send (hrx : Floods n rx) (hs : Flooded s) (dst : UInt32) (protocol : UInt8)
    {payload : List UInt8} (hlen : payload.length ≤ 1480) (fuel : Nat) :
    Climbs n (ipv4Send floodDevices rx (fuel + 2) dst protocol payload s) := by
  unfold ipv4Send
  rw [if_neg (Nat.not_lt.mpr hlen)]
  exact (climbs_arpResolve hrx hs _ fuel).bind

/-- What `eth_rx_handler` does with a request. -/
theorem ethHandle_echo (d : Devices) (rx : Receiver) (fuel : Nat) (s : Host) :
    ∃ es reply, (∀ g, es.foldl NetEvent.depth g = g) ∧ reply.length ≤ 1480 ∧
      ethHandle d rx fuel echoPacket s =
        (⟨es, .ok ()⟩ >>= fun _ => ipv4Send d rx fuel 0x0200000A ipProtoIcmp reply s >>=
          fun r => pure r.2) := by
  refine ⟨[.ipv4 (echoPacket.data.skip 14) 28, .copy .headerTmp 0 20, .copy .icmpReply 0 8],
    [0, 0, 0xFF, 0xFF, 0, 0, 0, 0], fun _ => rfl, by decide, ?_⟩
  rfl

/-- The answer to a request needs a next hop that is not known. -/
theorem climbs_ethHandle (hrx : Floods n rx) (hs : Flooded s) (fuel : Nat) :
    Climbs n (ethHandle floodDevices rx (fuel + 2) echoPacket s) := by
  rcases ethHandle_echo floodDevices rx (fuel + 2) s with ⟨es, reply, hplain, hlen, heq⟩
  rw [heq]
  exact climbs_bind (a := ()) rfl hplain (climbs_ipv4Send hrx hs _ _ hlen fuel).bind

/-- Every unit of fuel lets the handlers nest once more. -/
theorem floods_ethRxHandler (n : Nat) : Floods n (ethRxHandler floodDevices (n + 2)) := by
  induction n with
  | zero => exact fun s _ => climbs_zero _
  | succ n ih => exact fun s hs => climbs_enter (climbs_ethHandle ih hs n).bind

/-- A ping under the flood. -/
theorem climbs_ping (mac : Mac) (n : Nat) :
    Climbs n (Call.run floodDevices (n + 2) (.boot mac) (.icmpPing 0x0300000A 1)) := by
  have hboot : Flooded { Host.boot mac with readings := 1 } :=
    ⟨fun _ => rfl, rfl, fun _ => .inl rfl⟩
  have hlen : (echoRequest 1 (ipChecksum (echoRequest 1 0))).length ≤ 1480 := by decide
  exact ((climbs_ipv4Send (floods_ethRxHandler n) hboot _ _ hlen n).bind).bind

/-- No number bounds the nesting. -/
theorem nesting_unbounded :
    ¬∃ n, ∀ (d : Devices) (mac : Mac) (log : List NetEvent) (o : Option Host),
      Session d (.boot mac) log o → Nested n log := by
  rintro ⟨n, h⟩
  rcases climbs_ping (Vector.replicate 6 0) (n + 1) with ⟨pre, hpre, hdepth⟩
  have hsession := Session.call (.start : Session floodDevices (.boot (Vector.replicate 6 0)) _ _)
    (n + 1 + 2) (.icmpPing 0x0300000A 1)
  have hle := h _ _ _ _ hsession pre hpre
  rw [nesting, hdepth 0] at hle
  omega

end PolandOS.Net
