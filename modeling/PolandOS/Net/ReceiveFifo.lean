import PolandOS.Net.Streams

/-! # The receive buffer over a whole session

`receive_buffer_fifo`: at every step of every session the bytes that `tcp_recv` has
returned of a connection, followed by what the buffer holds, are the bytes that have been
appended; and what is appended stays inside the buffer. `tcpRecv_logged` ties the log to
what `tcp_recv` returns, and `take_eq_memmove` the model of the shift to the loops of
`memmove`.
-/

namespace PolandOS.Net

open Logging

/-! ## `memmove` -/

/-- The loop of `memmove` that goes up. -/
def copyUp (v : View) (dst src : Nat) : Nat → View
  | 0 => v
  | n + 1 => copyUp (Function.update v dst (v src)) (dst + 1) (src + 1) n

/-- The loop that goes down. -/
def copyDown (v : View) (dst src : Nat) : Nat → View
  | 0 => v
  | n + 1 => copyDown (Function.update v (dst + n) (v (src + n))) dst src n

/-- `memmove`. -/
def memmove (v : View) (dst src n : Nat) : View :=
  if dst < src then copyUp v dst src n
  else if src < dst then copyDown v dst src n
  else v

/-- The bytes are read before they are overwritten. -/
theorem copyUp_apply (v : View) {dst src : Nat} (h : dst < src) (n i : Nat) :
    copyUp v dst src n i = if dst ≤ i ∧ i < dst + n then v (src + (i - dst)) else v i := by
  induction n generalizing v dst src with
  | zero => rw [copyUp, if_neg (by omega)]
  | succ n ih =>
      rw [copyUp, ih _ (by omega)]
      by_cases hi : i = dst
      · subst hi
        rw [if_neg (by omega), if_pos (by omega), Function.update_self, Nat.sub_self, Nat.add_zero]
      · by_cases hin : dst + 1 ≤ i ∧ i < dst + 1 + n
        · rw [if_pos hin, if_pos (by omega), Function.update_of_ne (by omega)]
          congr 1
          omega
        · rw [if_neg hin, if_neg (by omega), Function.update_of_ne hi]

theorem copyDown_apply (v : View) {dst src : Nat} (h : src < dst) (n i : Nat) :
    copyDown v dst src n i = if dst ≤ i ∧ i < dst + n then v (src + (i - dst)) else v i := by
  induction n generalizing v with
  | zero => rw [copyDown, if_neg (by omega)]
  | succ n ih =>
      rw [copyDown, ih]
      by_cases hi : i = dst + n
      · subst hi
        rw [if_neg (by omega), if_pos (by omega), Function.update_self]
        congr 1
        omega
      · by_cases hin : dst ≤ i ∧ i < dst + n
        · rw [if_pos hin, if_pos (by omega), Function.update_of_ne (by omega)]
        · rw [if_neg hin, if_neg (by omega), Function.update_of_ne hi]

/-- The bytes arrive as they were before, however the two ranges overlap. -/
theorem memmove_eq_write (v : View) (dst src n : Nat) :
    memmove v dst src n = v.write dst (v.bytes src n) := by
  funext i
  have hwrite : v.write dst (v.bytes src n) i =
      if dst ≤ i ∧ i < dst + n then v (src + (i - dst)) else v i := by
    by_cases hle : dst ≤ i
    · by_cases hlt : i < dst + n
      · have hin : i - dst < n := by omega
        simp [View.write, View.bytes, hle, hlt, hin]
      · have hout : ¬i - dst < n := by omega
        simp [View.write, View.bytes, hle, hlt, hout]
    · simp [View.write, hle]
  rw [hwrite]
  unfold memmove
  split
  next h => exact copyUp_apply v h n i
  next h =>
    split
    next h' => exact copyDown_apply v h' n i
    next h' =>
      have heq : src = dst := by omega
      subst heq
      split
      next hin => rw [Nat.add_sub_cancel' hin.1]
      next => rfl

/-- `tcp_recv` shifts what it leaves in the buffer to its start. -/
theorem take_eq_memmove (socket : TCPSocket) {count : UInt32} (h : count ≤ socket.recvLen) :
    (socket.take count).recvBuf =
      if count < socket.recvLen then
        memmove socket.recvBuf 0 count.toNat (socket.recvLen - count).toNat
      else socket.recvBuf := by
  split
  · rw [memmove_eq_write]
    rfl
  next hall =>
    have heq : count = socket.recvLen := UInt32.le_antisymm h (UInt32.not_lt.mp hall)
    funext i
    rw [TCPSocket.take, heq, UInt32.sub_self]
    simp [View.write, View.bytes]

/-! ## Appended and returned -/

/-- What has gone into the buffer of a slot, and what `tcp_recv` has returned of it. -/
structure Flow where
  appended : List UInt8
  returned : List UInt8

/-- A connection that has just been opened, or a slot without one. -/
def Flow.empty : Flow := ⟨[], []⟩

def flowUpdate (g : Fin 4 → Flow) : NetEvent → Fin 4 → Flow
  | .opened fd _ _ | .released fd => Function.update g fd .empty
  | .stored fd _ seg count =>
    Function.update g fd { g fd with appended := (g fd).appended ++ seg.data.take count }
  | .returned fd data => Function.update g fd { g fd with returned := (g fd).returned ++ data }
  | _ => g

/-- The buffer holds what was appended and has not been returned. -/
structure Queued (socket : TCPSocket) (f : Flow) : Prop where
  room : socket.recvLen ≤ 4096
  bytes : f.returned ++ socket.contents = f.appended

/-- What a step does to the buffer is right: what it appends fits behind what is there, and
what it returns comes next. -/
def Fifo (g : Fin 4 → Flow) : NetEvent → Prop
  | .copy dst offset len => dst = .tcpRecv → offset + len ≤ 4096
  | .stored fd socket seg count => Queued socket (g fd) ∧
    socket.recvLen.toNat + count ≤ 4096 ∧ count ≤ seg.data.length
  | .returned fd data => (g fd).returned ++ data <+: (g fd).appended
  | _ => True

variable {T T' : Slots} {g : Fin 4 → Flow} {es : List NetEvent}

theorem queued_empty {socket : TCPSocket} (h : socket.recvLen = 0) : Queued socket .empty where
  room := h ▸ UInt32.le_iff_toNat_le.mpr (Nat.zero_le 4096)
  bytes := by
    rw [TCPSocket.contents, h]
    rfl

theorem Queued.store {socket : TCPSocket} {f : Flow} (h : Queued socket f) (seg : Segment) :
    Queued (socket.store seg)
      { f with appended := f.appended ++ seg.data.take (storeCount socket seg).toNat } where
  room := store_recvLen seg h.room
  bytes := by rw [contents_store seg h.room, ← List.append_assoc, h.bytes]

theorem Queued.take {socket : TCPSocket} {f : Flow} (h : Queued socket f) {count : UInt32}
    (hcount : count ≤ socket.recvLen) :
    Queued (socket.take count)
      { f with returned := f.returned ++ socket.recvBuf.bytes 0 count.toNat } where
  room := sub_le_bound h.room hcount
  bytes := by rw [List.append_assoc, ← contents_take hcount, h.bytes]

theorem fifo_quiet {e : NetEvent} (h : e.Quiet) (g : Fin 4 → Flow) :
    Fifo g e ∧ flowUpdate g e = g := by
  cases e with
  | copy => exact ⟨fun hdst => absurd hdst h.2.1, rfl⟩
  | released | opened | stored | returned => exact h.elim
  | _ => exact ⟨trivial, rfl⟩

theorem RxStep.fifo (h : RxStep T es T') (hT : Slotwise Queued T g) :
    Along flowUpdate Fifo g es ∧ Slotwise Queued T' (es.foldl flowUpdate g) := by
  cases h with
  | quiet hquiet =>
      rcases fifo_quiet hquiet g with ⟨hfifo, hsame⟩
      refine ⟨⟨hfifo, trivial⟩, ?_⟩
      rw [List.foldl_cons, hsame]
      exact hT
  | badHeader | transmit => exact ⟨⟨trivial, trivial⟩, hT⟩
  | header => exact ⟨⟨trivial, nofun, trivial⟩, hT⟩
  | establish | finReceived | finAcked | lastFin | timeWait | closed =>
      exact ⟨by simp [stateEvent, Fifo], hT.same ⟨(hT _).room, (hT _).bytes⟩⟩
  | @store fd seg _ _ _ =>
      have hfit := recvLen_add_storeCount seg (hT fd).room
      refine ⟨⟨fun _ => hfit, ⟨hT fd, hfit, storeCount_le_length _ _⟩, trivial⟩, ?_⟩
      exact hT.set ((hT fd).store seg)

theorem TcpStep.fifo (h : TcpStep T es T') (hT : Slotwise Queued T g) :
    Along flowUpdate Fifo g es ∧ Slotwise Queued T' (es.foldl flowUpdate g) := by
  cases h with
  | rx h => exact h.fifo hT
  | opened =>
      refine ⟨⟨trivial, trivial, trivial, trivial⟩, ?_⟩
      exact Slotwise.set (T := (T.1, T.2 + 1)) hT (queued_empty rfl)
  | connected | closing => exact ⟨⟨trivial, trivial⟩, hT⟩
  | giveUp | close | advance | finSent =>
      exact ⟨by simp [Fifo], hT.same ⟨(hT _).room, (hT _).bytes⟩⟩
  | released => exact ⟨⟨trivial, trivial, trivial⟩, hT.set (queued_empty rfl)⟩
  | @returned fd count hcount =>
      have htake := (hT fd).take hcount
      refine ⟨⟨?_, trivial⟩, hT.set htake⟩
      -- what is left in the buffer comes behind what is returned
      exact ⟨((T.1 fd).take count).contents, htake.bytes⟩

/-! ## What `tcp_recv` returns -/

/-- What an event returns of a slot. -/
def NetEvent.returnedOf (fd : Fin 4) : NetEvent → List UInt8
  | .returned i data => if i = fd then data else []
  | _ => []

theorem RxStep.returns_nothing (h : RxStep T es T') (fd : Fin 4) :
    es.flatMap (NetEvent.returnedOf fd) = [] := by
  cases h with
  | @quiet e hquiet =>
      cases e with
      | returned => exact hquiet.elim
      | _ => rfl
  | badHeader | header | transmit | establish | store | finReceived | finAcked | lastFin |
    timeWait | closed => rfl

theorem star_returns_nothing (h : Star RxStep T es T') (fd : Fin 4) :
    es.flatMap (NetEvent.returnedOf fd) = [] := by
  induction h with
  | refl => rfl
  | tail _ hstep ih => rw [List.flatMap_append, ih, hstep.returns_nothing fd, List.append_nil]

theorem RxTraces.returns_nothing {α : Type} {v : α → Host} {x : Rx α} {s : Host}
    (h : RxTraces [] v x s) (fd : Fin 4) : x.log.flatMap (NetEvent.returnedOf fd) = [] := by
  rcases h with ⟨y, hy, -⟩
  exact star_returns_nothing (star_slots (fun _ _ => .quiet) hy) fd

variable {d : Devices} {fuel : Nat} {fd : Fin 4}

/-- The wait of `tcp_recv` logs what it returns. -/
theorem recvWait_logged {maxLen : UInt32} {deadline : UInt64} {s t : Host} {n : Int}
    {data : List UInt8} (h : (recvWait d fd maxLen deadline fuel s).result = .ok (n, data, t)) :
    (recvWait d fd maxLen deadline fuel s).log.flatMap (NetEvent.returnedOf fd) = data ∧
      (n = data.length ∨ n = -1) := by
  induction fuel generalizing s with
  | zero => cases h
  | succ fuel ih =>
      unfold recvWait at h ⊢
      dsimp only [timerGetMs] at h ⊢
      split at h
      next htime =>
        rw [if_pos htime]
        cases h
        exact ⟨rfl, .inr rfl⟩
      next htime =>
        rw [if_neg htime]
        rcases Logged.result_bind.mp h with ⟨u, hu, h⟩
        have hnothing := (traces_netRxProcess (d := d) fuel
          { s with readings := s.readings + 1 }).returns_nothing fd
        rw [Logged.bind_of_ok hu, List.flatMap_append, hnothing, List.nil_append]
        split at h
        next hdata =>
          -- the data is taken and handed over
          rw [if_pos hdata]
          cases h
          refine ⟨?_, .inl ?_⟩
          · simp [takeData, NetEvent.returnedOf, Logged.bind_of_ok]
          · simp [View.bytes]
        next hdata =>
          rw [if_neg hdata]
          split at h
          next hclosed =>
            rw [if_pos hclosed]
            cases h
            exact ⟨rfl, .inl rfl⟩
          next hclosed =>
            rw [if_neg hclosed]
            exact ih h

/-- What `tcp_recv` writes to the buffer of its caller is what the log says is returned,
and as long as it says; or it fails. -/
theorem tcpRecv_logged {i : Int} (hslot : tcpSlot i = some fd) {maxLen timeoutMs : UInt32}
    {s t : Host} {n : Int} {data : List UInt8}
    (h : (tcpRecv d fuel i maxLen timeoutMs s).result = .ok (n, data, t)) :
    (tcpRecv d fuel i maxLen timeoutMs s).log.flatMap (NetEvent.returnedOf fd) = data ∧
      (n = data.length ∨ n = -1) := by
  unfold tcpRecv at h ⊢
  rw [hslot] at h ⊢
  dsimp only at h ⊢
  split at h
  next hinactive =>
    rw [if_pos hinactive]
    cases h
    exact ⟨rfl, .inr rfl⟩
  next hactive =>
    rw [if_neg hactive]
    exact recvWait_logged h

/-! ## Sessions -/

/-- In every session the receive buffers are bounded queues: every append fits, what
`tcp_recv` has returned of a connection and what the buffer holds is what was appended, and
so it is for every host that a call leaves behind. -/
theorem receive_buffer_fifo (d : Devices) (mac : Mac) {log : List NetEvent} {o : Option Host}
    (h : Session d (.boot mac) log o) :
    Along flowUpdate Fifo (fun _ => .empty) log ∧
      ∀ s, o = some s → ∀ fd,
        Queued (s.tcpSockets fd) (log.foldl flowUpdate (fun _ => .empty) fd) := by
  rcases session_steps h with ⟨T, hT, hs⟩
  have hboot : Slotwise Queued (Host.boot mac).slots fun _ => .empty := fun _ => queued_empty rfl
  have htrue : Along flowUpdate (fun _ _ => True) (fun _ => .empty) log :=
    along_iff.mpr fun _ _ _ => trivial
  rcases hT.history (fun _ _ _ _ hqueued hstep _ => hstep.fifo hqueued) hboot htrue with
    ⟨hfifo, hqueued⟩
  refine ⟨hfifo, ?_⟩
  intro s hsome fd
  have hfd := hqueued fd
  rwa [← hs s hsome] at hfd

theorem receive_buffer_fifo_parts :
    Along flowUpdate Fifo (fun _ => .empty)
      (play piecewisePeer partialReads (.boot (Vector.replicate 6 1))).log :=
  (receive_buffer_fifo piecewisePeer (Vector.replicate 6 1) (session_play _ _ partialReads)).1

end PolandOS.Net
