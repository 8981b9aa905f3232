import PolandOS.Net.ReceiveBuffer

/-! # What a TCP handle stands for

A handle is the number of a slot, and a slot that a segment has freed is taken again by the
next `tcp_connect`, whether the handle has been closed or not. `handle_denotes_connection`:
as long as `tcp_connect` takes no slot whose handle is still open, everything that is sent
and received through a handle goes to and comes from the address it was connected to.
-/

namespace PolandOS.Net

open Logging

/-- An address and a port. -/
abbrev Endpoint := UInt32 × UInt16

def TCPSocket.remote (socket : TCPSocket) : Endpoint := (socket.remoteIp, socket.remotePort)

/-- What the application and the network know: for every slot the endpoints that
`tcp_connect` has returned its number for and that have not been closed, and the bytes in
its buffer with where they came from. -/
structure Desk where
  handles : Fin 4 → List Endpoint
  held : Fin 4 → List (UInt8 × Endpoint)

/-- At boot. -/
def Desk.empty : Desk := ⟨fun _ => [], fun _ => []⟩

/-- `tcp_close` closes all handles with its number, on its way in and on its way out. -/
def Desk.update (g : Desk) : NetEvent → Desk
  | .connected fd ip port =>
    { g with handles := Function.update g.handles fd ((ip, port) :: g.handles fd) }
  | .closing fd => { g with handles := Function.update g.handles fd [] }
  | .released fd => ⟨Function.update g.handles fd [], Function.update g.held fd []⟩
  | .opened fd _ _ => { g with held := Function.update g.held fd [] }
  | .stored fd _ seg count =>
    let stored := (seg.data.take count).map fun b => (b, seg.srcIp, seg.srcPort)
    { g with held := Function.update g.held fd (g.held fd ++ stored) }
  | .returned fd data =>
    { g with held := Function.update g.held fd ((g.held fd).drop data.length) }
  | _ => g

/-- `tcp_connect` takes no slot with an open handle. -/
def SlotUnused (g : Desk) : NetEvent → Prop
  | .opened fd _ _ => g.handles fd = []
  | _ => True

instance (g : Desk) (e : NetEvent) : Decidable (SlotUnused g e) :=
  match e with
  | .opened fd _ _ => inferInstanceAs (Decidable (g.handles fd = []))
  | .enter | .leave | .ipv4 .. | .wait _ | .copy .. | .frame _ | .datagram .. | .connected .. |
    .closing _ | .finSent .. | .released _ | .transmit .. | .stored .. | .returned .. |
    .state .. => .isTrue trivial

/-- Segments of a slot go where its open handles are connected to, and what `tcp_recv`
returns has come from there. -/
def Faithful (g : Desk) : NetEvent → Prop
  | .transmit fd ip port _ => ∀ h ∈ g.handles fd, h = (ip, port)
  | .returned fd data => ((g.held fd).take data.length).map Prod.fst = data ∧
      ∀ b ∈ (g.held fd).take data.length, ∀ h ∈ g.handles fd, b.2 = h
  | _ => True

/-! ## The invariant -/

/-- A socket agrees with what is known about its slot. -/
structure Agrees (socket : TCPSocket) (handles : List Endpoint) (held : List (UInt8 × Endpoint)) :
    Prop where
  room : socket.recvLen ≤ 4096
  handles : ∀ h ∈ handles, h = socket.remote
  contents : held.map Prod.fst = socket.contents
  origins : ∀ b ∈ held, b.2 = socket.remote

/-- All sockets do. -/
def Kept (T : Slots) (g : Desk) : Prop := ∀ fd, Agrees (T.1 fd) (g.handles fd) (g.held fd)

/-- Only one slot is changed. -/
theorem Kept.set {T : Slots} {g g' : Desk} (h : Kept T g) {fd : Fin 4} {socket : TCPSocket}
    (hfd : Agrees socket (g'.handles fd) (g'.held fd))
    (hother : ∀ i, i ≠ fd → g'.handles i = g.handles i ∧ g'.held i = g.held i) :
    Kept (setSlot T fd socket) g' := by
  intro i
  by_cases hi : i = fd
  · subst hi
    rwa [setSlot_self]
  · rw [setSlot_ne T socket hi, (hother i hi).1, (hother i hi).2]
    exact h i

/-- A change of other fields of a socket. -/
theorem Kept.same {T : Slots} {g : Desk} (h : Kept T g) {fd : Fin 4} {socket : TCPSocket}
    (hfd : Agrees socket (g.handles fd) (g.held fd)) : Kept (setSlot T fd socket) g :=
  h.set hfd fun _ _ => ⟨rfl, rfl⟩

/-- Only what is known about one slot is changed. -/
theorem Kept.know {T : Slots} {g g' : Desk} (h : Kept T g) (fd : Fin 4)
    (hfd : Agrees (T.1 fd) (g'.handles fd) (g'.held fd))
    (hother : ∀ i, i ≠ fd → g'.handles i = g.handles i ∧ g'.held i = g.held i) : Kept T g' := by
  intro i
  by_cases hi : i = fd
  · subst hi
    exact hfd
  · rw [(hother i hi).1, (hother i hi).2]
    exact h i

theorem faithful_quiet {e : NetEvent} (h : e.Quiet) (g : Desk) :
    Faithful g e ∧ g.update e = g := by
  cases e with
  | transmit | connected | closing | released | opened | stored | returned => exact h.elim
  | _ => exact ⟨trivial, rfl⟩

/-- A segment is stored. -/
theorem Agrees.store {socket : TCPSocket} {handles : List Endpoint}
    {held : List (UInt8 × Endpoint)} (h : Agrees socket handles held) {seg : Segment}
    (hmatch : Matches socket seg) :
    Agrees (socket.store seg) handles
      (held ++ (seg.data.take (storeCount socket seg).toNat).map
        fun b => (b, seg.srcIp, seg.srcPort)) where
  room := store_recvLen seg h.room
  handles := h.handles
  contents := by
    have hid : Prod.fst ∘ (fun b : UInt8 => (b, seg.srcIp, seg.srcPort)) = id := rfl
    have hcontents := contents_store seg h.room
    rw [List.map_append, h.contents, List.map_map, hid, List.map_id]
    exact hcontents.symm
  origins := by
    intro b hb
    rcases List.mem_append.mp hb with hb | hb
    · exact h.origins b hb
    · rcases List.mem_map.mp hb with ⟨c, -, rfl⟩
      exact (congrArg₂ Prod.mk hmatch.remoteIp hmatch.remotePort).symm

theorem RxStep.faithful {T T' : Slots} {g : Desk} {es : List NetEvent} (h : RxStep T es T')
    (hT : Kept T g) :
    Along Desk.update Faithful g es ∧ Kept T' (es.foldl Desk.update g) := by
  cases h with
  | quiet hquiet =>
      rcases faithful_quiet hquiet g with ⟨hfaithful, hsame⟩
      refine ⟨⟨hfaithful, trivial⟩, ?_⟩
      rw [List.foldl_cons, hsame]
      exact hT
  | badHeader | header => exact ⟨by simp [Faithful], hT⟩
  | transmit => exact ⟨⟨(hT _).handles, trivial⟩, hT⟩
  | establish | finReceived | finAcked | lastFin | timeWait | closed =>
      refine ⟨by simp [stateEvent, Faithful], hT.same ?_⟩
      exact ⟨(hT _).room, (hT _).handles, (hT _).contents, (hT _).origins⟩
  | store hmatch =>
      refine ⟨⟨trivial, trivial, trivial⟩, hT.set ?_ ?_⟩
      · have hself := (hT _).store hmatch
        simpa [Desk.update] using hself
      · intro i hi
        exact ⟨rfl, Function.update_of_ne hi ..⟩

/-- `tcp_recv` takes from the front. -/
theorem Agrees.take {socket : TCPSocket} {handles : List Endpoint}
    {held : List (UInt8 × Endpoint)} (h : Agrees socket handles held) {count : UInt32}
    (hcount : count ≤ socket.recvLen) :
    (held.take count.toNat).map Prod.fst = socket.recvBuf.bytes 0 count.toNat ∧
      Agrees (socket.take count) handles (held.drop count.toNat) := by
  have hsplit := contents_take hcount
  have hlen := length_bytes socket.recvBuf 0 count.toNat
  refine ⟨?_, sub_le_bound h.room hcount, h.handles, ?_, ?_⟩
  · rw [List.map_take, h.contents, hsplit]
    exact List.take_left' hlen
  · rw [List.map_drop, h.contents, hsplit]
    exact List.drop_left' hlen
  · intro b hb
    exact h.origins b (List.mem_of_mem_drop hb)

/-- A step goes where the open handles of its slot are connected to, as long as no slot with an
open handle is taken. -/
theorem TcpStep.faithful {T T' : Slots} {g : Desk} {es : List NetEvent} (h : TcpStep T es T')
    (hT : Kept T g) (hunused : Along Desk.update SlotUnused g es) :
    Along Desk.update Faithful g es ∧ Kept T' (es.foldl Desk.update g) := by
  cases h with
  | rx h => exact h.faithful hT
  | @opened fd ip port =>
      -- the slot that is taken has no open handle: that is the condition on the step
      have hnone : g.handles fd = [] := hunused.2.1
      refine ⟨⟨trivial, trivial, trivial, trivial⟩, ?_⟩
      refine Kept.set (T := (T.1, T.2 + 1)) (g := g) hT ⟨?_, ?_, ?_, ?_⟩ ?_
      · exact UInt32.le_iff_toNat_le.mpr (Nat.zero_le 4096)
      · change ∀ h ∈ g.handles fd, _
        simp [hnone]
      · simp [Desk.update, TCPSocket.contents, TCPSocket.zero, View.bytes]
      · simp [Desk.update]
      · intro i hi
        exact ⟨rfl, Function.update_of_ne hi ..⟩
  | @connected fd =>
      refine ⟨⟨trivial, trivial⟩, hT.know fd ⟨(hT fd).room, ?_, (hT fd).contents,
        (hT fd).origins⟩ ?_⟩
      · simp only [List.foldl_cons, List.foldl_nil, Desk.update, Function.update_self]
        exact List.forall_mem_cons.mpr ⟨rfl, (hT fd).handles⟩
      · intro i hi
        exact ⟨Function.update_of_ne hi .., rfl⟩
  | @closing fd =>
      refine ⟨⟨trivial, trivial⟩, hT.know fd ⟨(hT fd).room, ?_, (hT fd).contents,
        (hT fd).origins⟩ ?_⟩
      · simp [Desk.update]
      · intro i hi
        exact ⟨Function.update_of_ne hi .., rfl⟩
  | giveUp | close | advance | finSent =>
      refine ⟨by simp [Faithful], hT.same ?_⟩
      exact ⟨(hT _).room, (hT _).handles, (hT _).contents, (hT _).origins⟩
  | released =>
      refine ⟨by simp [Faithful], hT.set ⟨?_, ?_, ?_, ?_⟩ ?_⟩
      · exact UInt32.le_iff_toNat_le.mpr (Nat.zero_le 4096)
      · simp [Desk.update]
      · simp [Desk.update, TCPSocket.contents, TCPSocket.zero, View.bytes]
      · simp [Desk.update]
      · intro i hi
        exact ⟨Function.update_of_ne hi .., Function.update_of_ne hi ..⟩
  | @returned fd count hcount =>
      -- what is returned came from the peer of the slot, and so did its handles
      rcases (hT fd).take hcount with ⟨htake, hrest⟩
      have hlen : ((T.1 fd).recvBuf.bytes 0 count.toNat).length = count.toNat := length_bytes ..
      refine ⟨⟨⟨?_, ?_⟩, trivial⟩, hT.set ?_ ?_⟩
      · rwa [hlen]
      · intro b hb h hh
        rw [(hT fd).origins b (List.mem_of_mem_take hb), (hT fd).handles h hh]
      · simp only [List.foldl_cons, List.foldl_nil, Desk.update, Function.update_self, hlen]
        exact hrest
      · intro i hi
        exact ⟨rfl, Function.update_of_ne hi ..⟩

/-- In every session in which `tcp_connect` takes no slot whose handle is still open, what is
sent through an open handle goes to where it was connected to, and what is received through
it has come from there. -/
theorem handle_denotes_connection (d : Devices) (mac : Mac) {log : List NetEvent}
    {o : Option Host} (h : Session d (.boot mac) log o)
    (hunused : Along Desk.update SlotUnused .empty log) :
    Along Desk.update Faithful .empty log := by
  rcases session_steps h with ⟨T, hT, -⟩
  have hboot : Kept (Host.boot mac).slots .empty := by
    intro fd
    exact ⟨UInt32.le_iff_toNat_le.mpr (Nat.zero_le 4096), by simp [Desk.empty], rfl,
      by simp [Desk.empty]⟩
  exact (hT.history (fun _ _ _ _ hkept hstep hes => hstep.faithful hkept hes) hboot hunused).1

/-! ## A reset -/

/-- A peer that accepts a connection to port 80, resets it, and accepts one to port 81. -/
def resettingPeer : Devices := .script (connectFrames ++
  [some (peerSegment 80 49152 1001 synAcked tcpRst []), none,
    some (peerSegment 81 49153 1000 synAcked (tcpSyn ||| tcpAck) []), none])

/-- The first connection is used, and one to port 81 is opened and used. -/
def resetRun : Rx Host :=
  play resettingPeer
    (connectCalls ++ [(8, .tcpRecv 0 100 1000), (8, .tcpConnect peerIp 81), (8, .tcpSend 0 [1])])
    (.boot (Vector.replicate 6 1))

/-- A session with one connection that is opened and used. -/
theorem handle_denotes_connection_one :
    Along Desk.update Faithful .empty (play resettingPeer
      (connectCalls ++ [(8, .tcpSend 0 [1])]) (.boot (Vector.replicate 6 1))).log := by
  refine handle_denotes_connection resettingPeer (Vector.replicate 6 1) (session_play _ _ _) ?_
  decide

/-- Behind a reset, `tcp_send` on the handle for port 80 sends to port 81. -/
theorem handle_reused :
    ¬∀ (d : Devices) (mac : Mac) (log : List NetEvent) (o : Option Host),
      Session d (.boot mac) log o → Along Desk.update Faithful .empty log := by
  intro h
  have halong := h resettingPeer _ _ _ (session_play _ (.boot (Vector.replicate 6 1))
    (connectCalls ++ [(8, .tcpRecv 0 100 1000), (8, .tcpConnect peerIp 81), (8, .tcpSend 0 [1])]))
  change Along Desk.update Faithful .empty resetRun.log at halong
  have hsent : resetRun.log[43]? = some (.transmit 0 peerIp 81 24) := by
    rfl
  have hpre : resetRun.log.take 43 ++ [.transmit 0 peerIp 81 24] <+: resetRun.log := by
    have htake := List.take_prefix 44 resetRun.log
    rwa [List.take_add_one, hsent] at htake
  have hhandle : (peerIp, 80) ∈
      ((resetRun.log.take 43).foldl Desk.update .empty).handles 0 := by
    decide
  have hfaithful := along_iff.mp halong _ _ hpre (peerIp, 80) hhandle
  exact absurd hfaithful (by decide)

end PolandOS.Net
