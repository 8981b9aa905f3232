import PolandOS.Lib.Rfc793
import PolandOS.Net.Steps

/-! # The state of a TCP socket against RFC 793

Every assignment to the state of a socket is compared with the diagram: it has to leave the
state alone, give up after a timeout, or follow an edge whose event is what happens there.
`state_changes_refine` says for every assignment of every session exactly when it does.
-/

namespace PolandOS.Net

open Logging

/-- The states of the diagram behind those of the code. -/
def TCPState.toRfc : TCPState → Rfc793.State
  | .closed => .closed
  | .synSent => .synSent
  | .synReceived => .synReceived
  | .established => .established
  | .finWait1 => .finWait1
  | .finWait2 => .finWait2
  | .closeWait => .closeWait
  | .closing => .closing
  | .lastAck => .lastAck
  | .timeWait => .timeWait

/-! ## What the diagram asks for -/

/-- The numbers of the FINs that are out. -/
abbrev Fins := Fin 4 → Option UInt32

def Fins.update (g : Fins) : NetEvent → Fins
  | .finSent fd seq => Function.update g fd (some seq)
  | .opened fd _ _ | .released fd => Function.update g fd none
  | _ => g

/-- The FINs that are out behind a log from boot. -/
def finsOf (log : List NetEvent) : Fins := log.foldl Fins.update fun _ => none

/-- A segment acknowledges the FIN. -/
def AcksFin (fin : Option UInt32) (flags : UInt8) (ack : UInt32) : Prop :=
  has flags tcpAck = true ∧ ∃ seq, fin = some seq ∧ ack = seq + 1

/-- The events of the diagram that happen where the state is assigned for a cause. -/
inductive Occurs (fin : Option UInt32) : Cause → Rfc793.Event → Prop
  | activeOpen : Occurs fin .connect .activeOpen
  | close : Occurs fin .close .close
  | abort {timedOut : Bool} : Occurs fin (.release timedOut) .close
  | rcvSyn {arrival : TCPState} {flags : UInt8} {ack : UInt32} : has flags tcpSyn = true →
      has flags tcpAck = false → Occurs fin (.segment arrival flags ack) .rcvSyn
  | rcvSynAck {arrival : TCPState} {flags : UInt8} {ack : UInt32} :
      flags &&& (tcpSyn ||| tcpAck) = tcpSyn ||| tcpAck →
      Occurs fin (.segment arrival flags ack) .rcvSynAck
  | rcvFin {arrival : TCPState} {flags : UInt8} {ack : UInt32} : has flags tcpFin = true →
      Occurs fin (.segment arrival flags ack) .rcvFin
  | rcvAckOfFin {arrival : TCPState} {flags : UInt8} {ack : UInt32} : AcksFin fin flags ack →
      Occurs fin (.segment arrival flags ack) .rcvAckOfFin
  | rcvRst {arrival : TCPState} {flags : UInt8} {ack : UInt32} : has flags tcpRst = true →
      Occurs fin (.segment arrival flags ack) .rcvRst

/-- The slot is reset after a timeout. -/
def Cause.GivesUp : Cause → Prop
  | .giveUp => True
  | .release timedOut => timedOut = true
  | _ => False

/-- An assignment of the state keeps to the diagram. -/
def KeepsTo (g : Fins) : NetEvent → Prop
  | .state fd cause old new => old = new ∨ cause.GivesUp ∨
      ∃ ev, Occurs (g fd) cause ev ∧ Rfc793.Edge old.toRfc ev new.toRfc
  | _ => True

/-! ## When it is kept to -/

/-- The assignments that keep to the diagram, by their cause and the state before. -/
def Regular (g : Fins) : NetEvent → Prop
  | .state fd cause old _ =>
    match cause with
    | .clear => old = .closed
    | .connect | .giveUp => True
    | .close => old = .established
    | .release timedOut => timedOut = true ∨ old = .closed ∨ old = .synSent
    | .segment arrival flags ack => has flags tcpRst = true ∨
        match arrival with
        | .established => old = .established ∨ old = .closeWait
        | .finWait1 | .finWait2 => old = .finWait2 ∨ old = .timeWait ∨
            (old = .finWait1 ∨ old = .closing) ∧ AcksFin (g fd) flags ack
        | .lastAck => AcksFin (g fd) flags ack
        | .timeWait => False
        | _ => True
  | _ => True

section Unfold

variable {g : Fins} {fd : Fin 4} {cause : Cause} {old new : TCPState} {flags : UInt8} {ack : UInt32}

theorem keepsTo_state : KeepsTo g (.state fd cause old new) ↔ old = new ∨ cause.GivesUp ∨
    ∃ ev, Occurs (g fd) cause ev ∧ Rfc793.Edge old.toRfc ev new.toRfc := Iff.rfl

theorem givesUp_segment {arrival : TCPState} : (Cause.segment arrival flags ack).GivesUp ↔ False :=
  Iff.rfl

theorem regular_established : Regular g (.state fd (.segment .established flags ack) old new) ↔
    has flags tcpRst = true ∨ old = .established ∨ old = .closeWait := Iff.rfl

theorem regular_finWait1 : Regular g (.state fd (.segment .finWait1 flags ack) old new) ↔
    has flags tcpRst = true ∨ old = .finWait2 ∨ old = .timeWait ∨
      (old = .finWait1 ∨ old = .closing) ∧ AcksFin (g fd) flags ack := Iff.rfl

theorem regular_finWait2 : Regular g (.state fd (.segment .finWait2 flags ack) old new) ↔
    has flags tcpRst = true ∨ old = .finWait2 ∨ old = .timeWait ∨
      (old = .finWait1 ∨ old = .closing) ∧ AcksFin (g fd) flags ack := Iff.rfl

theorem regular_lastAck : Regular g (.state fd (.segment .lastAck flags ack) old new) ↔
    has flags tcpRst = true ∨ AcksFin (g fd) flags ack := Iff.rfl

theorem regular_timeWait : Regular g (.state fd (.segment .timeWait flags ack) old new) ↔
    has flags tcpRst = true ∨ False := Iff.rfl

end Unfold

/-! ## The edges into a state -/

variable {old : TCPState} {ev : Rfc793.Event} {fin : Option UInt32} {g : Fins}

theorem edge_closeWait :
    Rfc793.Edge old.toRfc ev TCPState.closeWait.toRfc ↔ old = .established ∧ ev = .rcvFin := by
  constructor
  · intro h
    cases old <;> cases h
    exact ⟨rfl, rfl⟩
  · rintro ⟨rfl, rfl⟩
    exact .peerClose

theorem edge_finWait2 :
    Rfc793.Edge old.toRfc ev TCPState.finWait2.toRfc ↔ old = .finWait1 ∧ ev = .rcvAckOfFin := by
  constructor
  · intro h
    cases old <;> cases h
    exact ⟨rfl, rfl⟩
  · rintro ⟨rfl, rfl⟩
    exact .finAcked

theorem edge_timeWait : Rfc793.Edge old.toRfc ev TCPState.timeWait.toRfc ↔
    old = .finWait2 ∧ ev = .rcvFin ∨ old = .closing ∧ ev = .rcvAckOfFin := by
  constructor
  · intro h
    cases old <;> cases h
    · exact .inl ⟨rfl, rfl⟩
    · exact .inr ⟨rfl, rfl⟩
  · rintro (⟨rfl, rfl⟩ | ⟨rfl, rfl⟩)
    · exact .lastFin
    · exact .bothAcked

theorem edge_finWait1 : Rfc793.Edge old.toRfc ev TCPState.finWait1.toRfc ↔
    (old = .synReceived ∨ old = .established) ∧ ev = .close := by
  constructor
  · intro h
    cases old <;> cases h
    · exact ⟨.inl rfl, rfl⟩
    · exact ⟨.inr rfl, rfl⟩
  · rintro ⟨rfl | rfl, rfl⟩
    · exact .synReceivedClose
    · exact .activeClose

theorem edge_closed : Rfc793.Edge old.toRfc ev TCPState.closed.toRfc ↔
    old = .synSent ∧ ev = .close ∨ old = .lastAck ∧ ev = .rcvAckOfFin ∨
      old = .timeWait ∧ ev = .timeout ∨ ev = .rcvRst := by
  constructor
  · intro h
    cases old <;> cases h <;> simp
  · rintro (⟨rfl, rfl⟩ | ⟨rfl, rfl⟩ | ⟨rfl, rfl⟩ | rfl)
    · exact .synSentClose
    · exact .lastAck
    · exact .timedOut
    · exact .reset _

/-! ## The events of a segment -/

variable {arrival : TCPState} {flags : UInt8} {ack : UInt32}

theorem occurs_rcvAckOfFin : Occurs fin (.segment arrival flags ack) .rcvAckOfFin ↔
    AcksFin fin flags ack := by
  constructor
  · rintro ⟨⟩
    assumption
  · exact .rcvAckOfFin

theorem occurs_rcvRst : Occurs fin (.segment arrival flags ack) .rcvRst ↔
    has flags tcpRst = true := by
  constructor
  · rintro ⟨⟩
    assumption
  · exact .rcvRst

/-! ## The assignments -/

variable {fd : Fin 4} {seg : Segment}

theorem keepsTo_finReceived (hrst : has seg.flags tcpRst = false)
    (hfin : has seg.flags tcpFin = true) :
    KeepsTo g (stateEvent fd .established seg old .closeWait) ↔
      Regular g (stateEvent fd .established seg old .closeWait) := by
  rw [stateEvent, keepsTo_state, regular_established, hrst]
  simp only [edge_closeWait]
  constructor
  · rintro (rfl | h | ⟨ev, -, rfl, -⟩)
    · exact .inr (.inr rfl)
    · exact h.elim
    · exact .inr (.inl rfl)
  · rintro (h | rfl | rfl)
    · cases h
    · exact .inr (.inr ⟨.rcvFin, .rcvFin hfin, rfl, rfl⟩)
    · exact .inl rfl

theorem keepsTo_finAcked (hrst : has seg.flags tcpRst = false) :
    KeepsTo g (stateEvent fd .finWait1 seg .finWait1 .finWait2) ↔
      Regular g (stateEvent fd .finWait1 seg .finWait1 .finWait2) := by
  rw [stateEvent, keepsTo_state, regular_finWait1, hrst]
  simp [givesUp_segment, edge_finWait2, occurs_rcvAckOfFin]

/-- A FIN takes a connection that has sent its own to `TCP_TIME_WAIT`. -/
theorem keepsTo_timeWait (harrival : arrival = .finWait1 ∨ arrival = .finWait2)
    (hrst : has seg.flags tcpRst = false) (hfin : has seg.flags tcpFin = true)
    (hack : old = .finWait1 → has seg.flags tcpAck = false) :
    KeepsTo g (stateEvent fd arrival seg old .timeWait) ↔
      Regular g (stateEvent fd arrival seg old .timeWait) := by
  have hregular : Regular g (stateEvent fd arrival seg old .timeWait) ↔
      old = .finWait2 ∨ old = .timeWait ∨
        (old = .finWait1 ∨ old = .closing) ∧ AcksFin (g fd) seg.flags seg.ack := by
    rcases harrival with rfl | rfl
    · rw [stateEvent, regular_finWait1, hrst]
      exact or_iff_right Bool.false_ne_true
    · rw [stateEvent, regular_finWait2, hrst]
      exact or_iff_right Bool.false_ne_true
  rw [hregular, stateEvent, keepsTo_state]
  simp only [edge_timeWait]
  constructor
  · rintro (rfl | h | ⟨ev, hoccurs, ⟨rfl, -⟩ | ⟨rfl, rfl⟩⟩)
    · exact .inr (.inl rfl)
    · exact h.elim
    · exact .inl rfl
    · exact .inr (.inr ⟨.inr rfl, occurs_rcvAckOfFin.mp hoccurs⟩)
  · rintro (rfl | rfl | ⟨rfl | rfl, hacks⟩)
    · exact .inr (.inr ⟨.rcvFin, .rcvFin hfin, .inl ⟨rfl, rfl⟩⟩)
    · exact .inl rfl
    · -- a FIN without an acknowledgement
      exact absurd hacks.1 (by simp [hack rfl])
    · exact .inr (.inr ⟨.rcvAckOfFin, .rcvAckOfFin hacks, .inr ⟨rfl, rfl⟩⟩)

/-- A segment closes a connection by its RST, in the last state, or in `TCP_TIME_WAIT`. -/
theorem keepsTo_closed (h : has seg.flags tcpRst = true ∨
      old = .lastAck ∧ has seg.flags tcpAck = true ∨ old = .timeWait) :
    KeepsTo g (stateEvent fd old seg old .closed) ↔
      Regular g (stateEvent fd old seg old .closed) := by
  by_cases hrst : has seg.flags tcpRst = true
  · refine iff_of_true (.inr (.inr ⟨.rcvRst, .rcvRst hrst, .reset _⟩)) (.inl hrst)
  rw [stateEvent, keepsTo_state]
  simp only [edge_closed]
  rcases h with h | ⟨rfl, -⟩ | rfl
  · exact absurd h hrst
  · rw [regular_lastAck]
    simp [givesUp_segment, hrst, and_or_left, exists_or, occurs_rcvAckOfFin, occurs_rcvRst]
  · rw [regular_timeWait]
    constructor
    · rintro (h | h | ⟨ev, hoccurs, h⟩)
      · cases h
      · exact h.elim
      · rcases h with ⟨h, -⟩ | ⟨h, -⟩ | ⟨-, rfl⟩ | rfl
        · cases h
        · cases h
        · cases hoccurs
        · exact absurd (occurs_rcvRst.mp hoccurs) hrst
    · rintro (h | h)
      · exact absurd h hrst
      · exact h.elim

theorem keepsTo_close (h : old = .established ∨ old = .closeWait) :
    KeepsTo g (.state fd .close old .finWait1) ↔ Regular g (.state fd .close old .finWait1) := by
  rw [keepsTo_state]
  simp only [edge_finWait1]
  rcases h with rfl | rfl
  · exact iff_of_true (.inr (.inr ⟨.close, .close, .inr rfl, rfl⟩)) rfl
  · refine iff_of_false ?_ nofun
    rintro (h | h | ⟨ev, -, h | h, -⟩)
    · cases h
    · exact h.elim
    · cases h
    · cases h

theorem keepsTo_release {timedOut : Bool} :
    KeepsTo g (.state fd (.release timedOut) old .closed) ↔
      Regular g (.state fd (.release timedOut) old .closed) := by
  rw [keepsTo_state]
  simp only [edge_closed]
  constructor
  · rintro (h | h | ⟨ev, hoccurs, h⟩)
    · exact .inr (.inl h)
    · exact .inl h
    · cases hoccurs
      rcases h with ⟨h, -⟩ | ⟨-, h⟩ | ⟨-, h⟩ | h
      · exact .inr (.inr h)
      · cases h
      · cases h
      · cases h
  · rintro (h | h | h)
    · exact .inr (.inl h)
    · exact .inl h
    · exact .inr (.inr ⟨.close, .abort, .inl ⟨h, rfl⟩⟩)

theorem keepsTo_clear :
    KeepsTo g (.state fd .clear old .closed) ↔ Regular g (.state fd .clear old .closed) := by
  constructor
  · rintro (h | h | ⟨ev, hoccurs, -⟩)
    · exact h
    · exact h.elim
    · cases hoccurs
  · exact .inl

/-- By the steps of a segment: an assignment keeps to the diagram exactly if it is regular. -/
theorem RxStep.keepsTo_iff {T T' : Slots} {es : List NetEvent} (h : RxStep T es T') (g : Fins) :
    ∀ e ∈ es, KeepsTo g e ↔ Regular g e := by
  cases h with
  | quiet hquiet =>
      rename_i e
      cases e with
      | state => exact hquiet.elim
      | _ => simp [KeepsTo, Regular]
  | badHeader | header | transmit | store | lastFin => simp [KeepsTo, Regular]
  | establish _ hstate hflags =>
      simp only [List.forall_mem_singleton, hstate]
      exact iff_of_true (.inr (.inr ⟨.rcvSynAck, .rcvSynAck hflags, .synAck⟩)) (.inr trivial)
  | finReceived hrst hfin =>
      exact List.forall_mem_singleton.mpr (keepsTo_finReceived hrst hfin)
  | finAcked hstate hrst =>
      rw [hstate]
      exact List.forall_mem_singleton.mpr (keepsTo_finAcked hrst)
  | timeWait harrival hrst hfin hack =>
      exact List.forall_mem_singleton.mpr (keepsTo_timeWait harrival hrst hfin hack)
  | closed _ hstate hcause =>
      rw [← hstate] at hcause ⊢
      exact List.forall_mem_singleton.mpr (keepsTo_closed hcause)

theorem TcpStep.keepsTo_iff {T T' : Slots} {es : List NetEvent} (h : TcpStep T es T')
    (g : Fins) : ∀ e ∈ es, KeepsTo g e ↔ Regular g e := by
  cases h with
  | rx h => exact h.keepsTo_iff g
  | opened =>
      simp only [List.forall_mem_cons]
      refine ⟨keepsTo_clear, Iff.rfl, ?_, by simp⟩
      exact iff_of_true (.inr (.inr ⟨.activeOpen, .activeOpen, .activeOpen⟩)) trivial
  | connected | closing | finSent | advance | returned => simp [KeepsTo, Regular]
  | giveUp => exact List.forall_mem_singleton.mpr (iff_of_true (.inr (.inl trivial)) trivial)
  | close _ hstate => exact List.forall_mem_singleton.mpr (keepsTo_close hstate)
  | released =>
      simp only [List.forall_mem_cons]
      exact ⟨keepsTo_release, Iff.rfl, by simp⟩

/-- In every session, an assignment of the state keeps to the diagram if and only if it is
regular. -/
theorem state_changes_refine (d : Devices) (mac : Mac) {log : List NetEvent} {o : Option Host}
    (h : Session d (.boot mac) log o) {pre : List NetEvent} {e : NetEvent}
    (hpre : pre ++ [e] <+: log) : KeepsTo (finsOf pre) e ↔ Regular (finsOf pre) e := by
  rcases session_steps h with ⟨T, hT, -⟩
  have hall : ∀ e ∈ log, KeepsTo (finsOf pre) e ↔ Regular (finsOf pre) e := by
    clear hpre h
    induction hT with
    | refl => simp
    | tail _ hstep ih =>
        intro e he
        rcases List.mem_append.mp he with he | he
        · exact ih e he
        · exact hstep.keepsTo_iff _ e he
  exact hall e (hpre.subset (by simp))

/-! ## The peer closes first -/

/-- A peer that accepts the connection and closes it. -/
def closingPeer : Devices := .script (connectFrames ++
  [some (peerSegment 80 49152 1001 synAcked (tcpFin ||| tcpAck) []), none])

/-- `tcp_recv` sees its FIN, and `tcp_close` is called. -/
def peerCloses : Rx Host :=
  play closingPeer (connectCalls ++ [(8, .tcpRecv 0 100 1000), (8, .tcpClose 0)])
    (.boot (Vector.replicate 6 1))

/-- The FIN of the peer moves the connection on. -/
def peerFin : NetEvent :=
  .state 0 (.segment .established (tcpFin ||| tcpAck) synAcked) .established .closeWait

theorem state_changes_refine_fin :
    KeepsTo (finsOf (peerCloses.log.take 26)) peerFin ↔
      Regular (finsOf (peerCloses.log.take 26)) peerFin := by
  have hpre : peerCloses.log.take 26 ++ [peerFin] <+: peerCloses.log := by
    have htake := List.take_prefix 27 peerCloses.log
    have hfin : peerCloses.log[26]? = some peerFin := by rfl
    rwa [List.take_add_one, hfin] at htake
  exact state_changes_refine closingPeer (Vector.replicate 6 1)
    (session_play _ _ _ : Session _ _ peerCloses.log _) hpre

/-- A connection that the peer has closed goes to `TCP_FIN_WAIT1`. -/
theorem close_in_close_wait :
    ¬∀ (d : Devices) (mac : Mac) (log : List NetEvent) (o : Option Host),
      Session d (.boot mac) log o → ∀ pre e, pre ++ [e] <+: log → KeepsTo (finsOf pre) e := by
  intro h
  have hany : (peerCloses.log.any fun e =>
      match e with
      | .state 0 .close .closeWait .finWait1 => true
      | _ => false) = true := by
    decide
  rcases List.any_eq_true.mp hany with ⟨e, he, hmatch⟩
  rcases List.append_of_mem he with ⟨pre, post, hlog⟩
  have hkeeps := h closingPeer _ _ _ (session_play _ _ _) pre e ⟨post, by
    rw [List.append_assoc]
    exact hlog.symm⟩
  split at hmatch
  · exact absurd ((keepsTo_close (.inr rfl)).mp hkeeps) (fun h => TCPState.noConfusion h)
  · cases hmatch

end PolandOS.Net
