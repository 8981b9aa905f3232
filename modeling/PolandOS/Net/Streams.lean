import PolandOS.Net.ReceiveBuffer

/-! # What a TCP connection receives

The branch for `TCP_ESTABLISHED` never looks at the sequence number of a segment.
`received_is_prefix`: what `tcp_recv` returns is a prefix of what the peer sends as long as
every segment that is stored starts behind the bytes that have been stored before.
-/

namespace PolandOS.Net

open Logging

/-- What has happened to the connection of every slot: its number, how many bytes have been
stored, and which have been returned. -/
structure Ledger where
  opened : Nat
  number : Fin 4 → Nat
  stored : Fin 4 → Nat
  returned : Fin 4 → List UInt8

/-- At boot. -/
def Ledger.empty : Ledger := ⟨0, fun _ => 0, fun _ => 0, fun _ => []⟩

def Ledger.update (g : Ledger) : NetEvent → Ledger
  | .opened fd _ _ =>
    ⟨g.opened + 1, Function.update g.number fd g.opened, Function.update g.stored fd 0,
      Function.update g.returned fd []⟩
  | .released fd =>
    { g with
      stored := Function.update g.stored fd 0
      returned := Function.update g.returned fd [] }
  | .stored fd _ _ count => { g with stored := Function.update g.stored fd (g.stored fd + count) }
  | .returned fd data =>
    { g with returned := Function.update g.returned fd (g.returned fd ++ data) }
  | _ => g

/-- The segment carries the bytes of the stream from an offset on, under their number: the
first byte comes behind the peer's SYN. -/
def IsPiece (stream : List UInt8) (offset : Nat) (socket : TCPSocket) (seg : Segment) : Prop :=
  seg.seq = socket.remoteSeq + 1 + offset.toUInt32 ∧
    seg.data = (stream.drop offset).take seg.data.length

instance (stream : List UInt8) (offset : Nat) (socket : TCPSocket) (seg : Segment) :
    Decidable (IsPiece stream offset socket seg) :=
  inferInstanceAs (Decidable (_ ∧ _))

/-- The peer of connection `n` sends `stream n`, in segments that are cut out of it. -/
def Consistent (stream : Nat → List UInt8) (g : Ledger) : NetEvent → Prop
  | .stored fd socket seg _ => ∃ offset, IsPiece (stream (g.number fd)) offset socket seg
  | _ => True

/-- What is stored starts behind what has been stored before. -/
def InOrder (stream : Nat → List UInt8) (g : Ledger) : NetEvent → Prop
  | .stored fd socket seg count =>
    count = 0 ∨ IsPiece (stream (g.number fd)) (g.stored fd) socket seg
  | _ => True

instance (stream : Nat → List UInt8) (g : Ledger) (e : NetEvent) :
    Decidable (InOrder stream g e) := by
  cases e
  case stored fd socket seg count =>
    exact inferInstanceAs
      (Decidable (count = 0 ∨ IsPiece (stream (g.number fd)) (g.stored fd) socket seg))
  all_goals exact .isTrue trivial

/-- What has been returned is a prefix of the stream. -/
def Intact (stream : Nat → List UInt8) (g : Ledger) : NetEvent → Prop
  | .returned fd data => g.returned fd ++ data <+: stream (g.number fd)
  | _ => True

/-! ## The invariant -/

/-- What was returned and what is still held is what has been stored of the stream. -/
structure Accounted (stream : List UInt8) (socket : TCPSocket) (stored : Nat)
    (returned : List UInt8) : Prop where
  room : socket.recvLen ≤ 4096
  bytes : returned ++ socket.contents = stream.take stored

/-- All slots are accounted for. -/
def Balanced (stream : Nat → List UInt8) (T : Slots) (g : Ledger) : Prop :=
  ∀ fd, Accounted (stream (g.number fd)) (T.1 fd) (g.stored fd) (g.returned fd)

variable {stream : Nat → List UInt8} {T T' : Slots} {g g' : Ledger} {es : List NetEvent}

/-- Only one slot is changed. -/
theorem Balanced.set (h : Balanced stream T g) {fd : Fin 4} {socket : TCPSocket}
    (hfd : Accounted (stream (g'.number fd)) socket (g'.stored fd) (g'.returned fd))
    (hother : ∀ i, i ≠ fd → g'.number i = g.number i ∧ g'.stored i = g.stored i ∧
      g'.returned i = g.returned i) : Balanced stream (setSlot T fd socket) g' := by
  intro i
  by_cases hi : i = fd
  · subst hi
    rwa [setSlot_self]
  · rcases hother i hi with ⟨hnumber, hstored, hreturned⟩
    rw [setSlot_ne T socket hi, hnumber, hstored, hreturned]
    exact h i

/-- A change of other fields of a socket. -/
theorem Balanced.same (h : Balanced stream T g) {fd : Fin 4} {socket : TCPSocket}
    (hfd : Accounted (stream (g.number fd)) socket (g.stored fd) (g.returned fd)) :
    Balanced stream (setSlot T fd socket) g := h.set hfd fun _ _ => ⟨rfl, rfl, rfl⟩

/-- A slot without a connection. -/
theorem accounted_empty (stream : List UInt8) {socket : TCPSocket} (h : socket.recvLen = 0) :
    Accounted stream socket 0 [] where
  room := h ▸ UInt32.le_iff_toNat_le.mpr (Nat.zero_le 4096)
  bytes := by
    rw [TCPSocket.contents, h]
    rfl

theorem intact_quiet {e : NetEvent} (h : e.Quiet) (g : Ledger) :
    Intact stream g e ∧ g.update e = g := by
  cases e with
  | released | opened | stored | returned => exact h.elim
  | _ => exact ⟨trivial, rfl⟩

/-- A segment that is stored in order. -/
theorem Accounted.store {stream : List UInt8} {socket : TCPSocket} {stored : Nat}
    {returned : List UInt8} (h : Accounted stream socket stored returned) {seg : Segment}
    (hpiece : (storeCount socket seg).toNat = 0 ∨ IsPiece stream stored socket seg) :
    Accounted stream (socket.store seg) (stored + (storeCount socket seg).toNat) returned where
  room := store_recvLen seg h.room
  bytes := by
    rw [contents_store seg h.room, ← List.append_assoc, h.bytes]
    rcases hpiece with hzero | ⟨-, hdata⟩
    · rw [hzero, List.take_zero, List.append_nil, Nat.add_zero]
    · rw [hdata, List.take_take, Nat.min_eq_left (storeCount_le_length socket seg), List.take_add]

/-- What `tcp_recv` takes. -/
theorem Accounted.take {stream : List UInt8} {socket : TCPSocket} {stored : Nat}
    {returned : List UInt8} (h : Accounted stream socket stored returned) {count : UInt32}
    (hcount : count ≤ socket.recvLen) :
    Accounted stream (socket.take count) stored
      (returned ++ socket.recvBuf.bytes 0 count.toNat) where
  room := sub_le_bound h.room hcount
  bytes := by rw [List.append_assoc, ← contents_take hcount, h.bytes]

theorem RxStep.intact (h : RxStep T es T') (hT : Balanced stream T g)
    (horder : Along Ledger.update (InOrder stream) g es) :
    Along Ledger.update (Intact stream) g es ∧
      Balanced stream T' (es.foldl Ledger.update g) := by
  cases h with
  | quiet hquiet =>
      rcases intact_quiet hquiet g with ⟨hintact, hsame⟩
      refine ⟨⟨hintact, trivial⟩, ?_⟩
      rw [List.foldl_cons, hsame]
      exact hT
  | badHeader | header | transmit => exact ⟨by simp [Intact], hT⟩
  | establish | finReceived | finAcked | lastFin | timeWait | closed =>
      exact ⟨by simp [stateEvent, Intact], hT.same ⟨(hT _).room, (hT _).bytes⟩⟩
  | store =>
      refine ⟨⟨trivial, trivial, trivial⟩, hT.set ?_ ?_⟩
      · have hself := (hT _).store horder.2.1
        simpa [Ledger.update] using hself
      · intro i hi
        exact ⟨rfl, Function.update_of_ne hi .., rfl⟩

/-- A step keeps what has been returned a prefix of the stream, as long as segments are stored
in order. -/
theorem TcpStep.intact (h : TcpStep T es T') (hT : Balanced stream T g)
    (horder : Along Ledger.update (InOrder stream) g es) :
    Along Ledger.update (Intact stream) g es ∧
      Balanced stream T' (es.foldl Ledger.update g) := by
  cases h with
  | rx h => exact h.intact hT horder
  | opened =>
      refine ⟨⟨trivial, trivial, trivial, trivial⟩, ?_⟩
      refine Balanced.set (T := (T.1, T.2 + 1)) (g := g) hT ?_ ?_
      · simp only [List.foldl_cons, List.foldl_nil, Ledger.update, Function.update_self]
        exact accounted_empty _ rfl
      · intro i hi
        exact ⟨Function.update_of_ne hi .., Function.update_of_ne hi ..,
          Function.update_of_ne hi ..⟩
  | connected | closing => exact ⟨by simp [Intact], hT⟩
  | giveUp | close | advance | finSent =>
      exact ⟨by simp [Intact], hT.same ⟨(hT _).room, (hT _).bytes⟩⟩
  | released =>
      refine ⟨by simp [Intact], hT.set ?_ ?_⟩
      · simp only [List.foldl_cons, List.foldl_nil, Ledger.update, Function.update_self]
        exact accounted_empty _ rfl
      · intro i hi
        exact ⟨rfl, Function.update_of_ne hi .., Function.update_of_ne hi ..⟩
  | @returned fd count hcount =>
      have htake := (hT fd).take hcount
      refine ⟨⟨?_, trivial⟩, hT.set ?_ ?_⟩
      · -- what was returned and what is left make up a prefix of the stream
        have hprefix := List.prefix_append (g.returned fd ++ (T.1 fd).recvBuf.bytes 0 count.toNat)
          ((T.1 fd).take count).contents
        rw [htake.bytes] at hprefix
        exact hprefix.trans (List.take_prefix ..)
      · simp only [List.foldl_cons, List.foldl_nil, Ledger.update, Function.update_self]
        exact htake
      · intro i hi
        exact ⟨rfl, rfl, Function.update_of_ne hi ..⟩

/-- In every session in which segments are stored in order, what `tcp_recv` returns of a
connection is a prefix of what its peer sends. -/
theorem received_is_prefix (d : Devices) (mac : Mac) (stream : Nat → List UInt8)
    {log : List NetEvent} {o : Option Host} (h : Session d (.boot mac) log o)
    (horder : Along Ledger.update (InOrder stream) .empty log) :
    Along Ledger.update (Intact stream) .empty log := by
  rcases session_steps h with ⟨T, hT, -⟩
  have hboot : Balanced stream (Host.boot mac).slots .empty := fun _ => accounted_empty _ rfl
  exact (hT.history (fun _ _ _ _ hbalanced hstep hes => hstep.intact hbalanced hes) hboot
    horder).1

/-! ## Two segments -/

/-- The peer sends five bytes in two segments. -/
def piecewisePeer : Devices := .script (connectFrames ++
  [some (peerSegment 80 49152 1001 synAcked (tcpPsh ||| tcpAck) [1, 2, 3]),
    some (peerSegment 80 49152 1004 synAcked (tcpPsh ||| tcpAck) [4, 5]), none])

/-- The connection is opened and read in three parts. -/
def partialReads : List (Nat × Call) := connectCalls ++
  [(8, .tcpRecv 0 2 1000), (8, .tcpRecv 0 1 1000), (8, .tcpRecv 0 100 1000)]

theorem received_is_prefix_parts :
    Along Ledger.update (Intact fun _ => [1, 2, 3, 4, 5]) .empty
      (play piecewisePeer partialReads (.boot (Vector.replicate 6 1))).log := by
  refine received_is_prefix piecewisePeer (Vector.replicate 6 1) _ (session_play _ _ _) ?_
  decide

/-! ## A retransmission -/

/-- The peer sends one byte, so many times. -/
def sendingPeer (copies : Nat) : Devices := .script (connectFrames ++
  List.replicate copies (some (peerSegment 80 49152 1001 synAcked (tcpPsh ||| tcpAck) [7])) ++
    [none])

/-- The connection is opened and read. -/
def readCalls : List (Nat × Call) := connectCalls ++ [(8, .tcpRecv 0 100 1000)]

/-- The segments of the peer all carry its only byte. -/
def OnlyByte (_ : Ledger) : NetEvent → Prop
  | .stored _ socket seg _ => IsPiece [7] 0 socket seg
  | _ => True

instance (g : Ledger) (e : NetEvent) : Decidable (OnlyByte g e) := by
  cases e
  case stored socket seg count => exact inferInstanceAs (Decidable (IsPiece [7] 0 socket seg))
  all_goals exact .isTrue trivial

theorem consistent_of_onlyByte (g : Ledger) (e : NetEvent) (h : OnlyByte g e) :
    Consistent (fun _ => [7]) g e := by
  cases e with
  | stored => exact ⟨0, h⟩
  | _ => trivial

/-- A byte that is retransmitted is received twice. -/
theorem received_twice :
    ¬∀ (d : Devices) (mac : Mac) (stream : Nat → List UInt8) (log : List NetEvent)
      (o : Option Host), Session d (.boot mac) log o →
      Along Ledger.update (Consistent stream) .empty log →
      Along Ledger.update (Intact stream) .empty log := by
  intro h
  let run : Rx Host := play (sendingPeer 2) readCalls (.boot (Vector.replicate 6 1))
  have hconsistent : Along Ledger.update OnlyByte .empty run.log := by
    decide
  have hintact := h (sendingPeer 2) _ (fun _ => [7]) run.log _ (session_play _ _ _)
    (hconsistent.mono consistent_of_onlyByte)
  have hread : run.log[41]? = some (.returned 0 [7, 7]) := by
    rfl
  have hpre : run.log.take 41 ++ [.returned 0 [7, 7]] <+: run.log := by
    have htake := List.take_prefix 42 run.log
    rwa [List.take_add_one, hread] at htake
  have hprefix := (along_iff.mp hintact _ _ hpre).length_le
  rw [List.length_append] at hprefix
  exact absurd (Nat.le_trans (Nat.le_add_left ..) hprefix) (by decide)

end PolandOS.Net
