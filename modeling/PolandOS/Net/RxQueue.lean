import Mathlib.Data.List.Induction
import PolandOS.Lib.RingQueue
import PolandOS.Net.State

/-! # The receive queue as a ring

`rx_queue` of `kernel/net/ethernet.c` with its two indices, which the source computes
modulo the size of the ring. `netRxEnqueue_ring` and `netRxDequeue_ring` connect it with
the queue of the stack.
-/

namespace PolandOS.Net

open Logging RingQueue

/-- `rx_queue`, `rx_head` and `rx_tail`. -/
structure RxRing where
  rxQueue : Nat → NetPacket
  rxHead : UInt32
  rxTail : UInt32

/-- What `net_init` does to the queue. -/
def RxRing.init (r : RxRing) : RxRing := { r with rxHead := 0, rxTail := 0 }

/-- `net_rx_enqueue`. -/
def RxRing.enqueue (data : View) (len : UInt16) (r : RxRing) : RxRing :=
  let next := (r.rxHead + 1) % 32
  if next = r.rxTail then r
  else
    let len := if len > 1518 then 1518 else len
    let slot := r.rxQueue r.rxHead.toNat
    { r with
      rxQueue := Function.update r.rxQueue r.rxHead.toNat
        ⟨slot.data.write 0 (data.bytes 0 len.toNat), len⟩
      rxHead := next }

/-- `net_rx_dequeue`. -/
def RxRing.dequeue (r : RxRing) : Option (NetPacket × RxRing) :=
  if r.rxTail = r.rxHead then none
  else some (r.rxQueue r.rxTail.toNat, { r with rxTail := (r.rxTail + 1) % 32 })

/-- The `len` bytes of a packet. -/
def NetPacket.contents (pkt : NetPacket) : List UInt8 := pkt.data.bytes 0 pkt.len.toNat

/-! ## Histories -/

/-- A call of `net_rx_enqueue` or of `net_rx_dequeue`. -/
inductive RxCall where
  | enqueue (data : View) (len : UInt16)
  | dequeue

/-- The queue, the frames that were accepted, and the packets that were returned. A frame
is accepted where `rx_head` moves. -/
structure RxHistory where
  ring : RxRing
  accepted : List (List UInt8)
  returned : List NetPacket

def RxHistory.step (h : RxHistory) : RxCall → RxHistory
  | .enqueue data len =>
    let ring := h.ring.enqueue data len
    { h with
      ring := ring
      accepted :=
        if ring.rxHead = h.ring.rxHead then h.accepted
        else h.accepted ++ [data.bytes 0 len.toNat] }
  | .dequeue =>
    match h.ring.dequeue with
    | none => h
    | some (pkt, ring) => { h with ring := ring, returned := h.returned ++ [pkt] }

/-- The history of some calls after `net_init`. -/
def rxHistory (r : RxRing) (calls : List RxCall) : RxHistory :=
  calls.foldl RxHistory.step ⟨r.init, [], []⟩

/-! ## The queue of contents -/

/-- The ring with the contents of its packets. -/
def RxRing.contents (r : RxRing) : RingBuf (List UInt8) :=
  ⟨fun i => (r.rxQueue i).contents, r.rxHead.toNat, r.rxTail.toNat⟩

theorem contents_write (p : View) {bs : List UInt8} {len : UInt16} (h : bs.length = len.toNat) :
    NetPacket.contents ⟨p.write 0 bs, len⟩ = bs := by
  unfold NetPacket.contents View.bytes View.write
  refine List.ext_getElem (by simp [h]) fun i hi hi' => ?_
  simp [hi']

theorem toNat_next (i : UInt32) : ((i + 1) % 32).toNat = (i.toNat + 1) % 32 := by
  rw [UInt32.toNat_mod, UInt32.toNat_add]
  exact Nat.mod_mod_of_dvd _ (by decide)

theorem bytes_cut (data : View) (len : UInt16) :
    data.bytes 0 (if len > 1518 then 1518 else len).toNat =
      (data.bytes 0 len.toNat).take 1518 := by
  have hmin : (if len > 1518 then 1518 else len).toNat = min 1518 len.toNat := by
    by_cases hlen : len > 1518
    · have hlt : 1518 < len.toNat := hlen
      rw [if_pos hlen, Nat.min_eq_left (Nat.le_of_lt hlt)]
      rfl
    · have hle : ¬1518 < len.toNat := hlen
      rw [if_neg hlen, Nat.min_eq_right (Nat.le_of_not_lt hle)]
  rw [hmin, View.bytes, View.bytes, ← List.map_take, List.take_range]

variable {r : RxRing}

theorem contents_enqueue (data : View) (len : UInt16) :
    (r.enqueue data len).contents = r.contents.push 32 ((data.bytes 0 len.toNat).take 1518) := by
  have hnext : (r.rxHead + 1) % 32 = r.rxTail ↔ (r.contents.head + 1) % 32 = r.contents.tail := by
    rw [← UInt32.toNat_inj, toNat_next]
    rfl
  unfold RxRing.enqueue RingBuf.push
  by_cases hfull : (r.rxHead + 1) % 32 = r.rxTail
  · rw [if_pos hfull, if_neg (not_not.2 (hnext.1 hfull))]
  · rw [if_neg hfull, if_pos (mt hnext.2 hfull)]
    simp only [RxRing.contents, toNat_next, RingBuf.mk.injEq, and_true]
    funext i
    by_cases hi : i = r.rxHead.toNat
    · rw [hi, Function.update_self, Function.update_self, ← bytes_cut]
      exact contents_write _ (by simp [View.bytes])
    · rw [Function.update_of_ne hi, Function.update_of_ne hi]

theorem contents_dequeue :
    r.dequeue.map (fun e => (e.1.contents, e.2.contents)) = r.contents.pop 32 := by
  have hempty : r.rxTail = r.rxHead ↔ r.contents.tail = r.contents.head := UInt32.toNat_inj.symm
  unfold RxRing.dequeue RingBuf.pop
  by_cases h : r.rxTail = r.rxHead
  · rw [if_pos h, if_pos (hempty.1 h)]
    rfl
  · rw [if_neg h, if_neg (mt hempty.2 h)]
    simp only [Option.map_some, RxRing.contents, toNat_next]

/-! ## The invariant -/

/-- What was accepted is what was returned and what is on its way. -/
structure RxInv (h : RxHistory) (waiting : List (List UInt8)) : Prop where
  holds : Holds 32 h.ring.contents waiting
  accounts : h.accepted.map (·.take 1518) = h.returned.map NetPacket.contents ++ waiting

variable {h : RxHistory} {waiting : List (List UInt8)}

theorem RxInv.lengths (hinv : RxInv h waiting) :
    h.accepted.length = h.returned.length + waiting.length := by
  have := congrArg List.length hinv.accounts
  simpa using this

theorem RxInv.head_lt (hinv : RxInv h waiting) : h.ring.rxHead.toNat < 32 := by
  have hhead : h.ring.rxHead.toNat = _ := hinv.holds.head_eq
  rw [hhead]
  exact Nat.mod_lt _ (by decide)

/-- A frame is dropped when 31 packets wait. -/
theorem RxInv.full_iff (hinv : RxInv h waiting) :
    (h.ring.rxHead + 1) % 32 = h.ring.rxTail ↔ waiting.length = 31 := by
  have htail : h.ring.rxTail.toNat < 32 := hinv.holds.tail_lt
  have hhead : h.ring.rxHead.toNat = (h.ring.rxTail.toNat + waiting.length) % 32 :=
    hinv.holds.head_eq
  have hroom := hinv.holds.room
  rw [← UInt32.toNat_inj, toNat_next, hhead]
  omega

theorem enqueue_eq_self_iff (data : View) (len : UInt16) :
    ((r.enqueue data len).rxHead = r.rxHead ↔ (r.rxHead + 1) % 32 = r.rxTail) ∧
    (r.enqueue data len = r ↔ (r.rxHead + 1) % 32 = r.rxTail) := by
  by_cases hfull : (r.rxHead + 1) % 32 = r.rxTail
  · have hsame : r.enqueue data len = r := by
      unfold RxRing.enqueue
      rw [if_pos hfull]
    simp [hsame, hfull]
  · have hmoved : (r.enqueue data len).rxHead = (r.rxHead + 1) % 32 := by
      unfold RxRing.enqueue
      rw [if_neg hfull]
    have hne : (r.rxHead + 1) % 32 ≠ r.rxHead := by
      intro heq
      have := congrArg UInt32.toNat heq
      rw [toNat_next] at this
      omega
    refine ⟨iff_of_false (hmoved ▸ hne) hfull, iff_of_false (fun hsame => ?_) hfull⟩
    exact hne (hmoved.symm.trans (congrArg RxRing.rxHead hsame))

/-- One call keeps the account. -/
theorem RxInv.step (hinv : RxInv h waiting) (call : RxCall) : ∃ w, RxInv (h.step call) w := by
  cases call with
  | enqueue data len =>
      have hsame := enqueue_eq_self_iff (r := h.ring) data len
      by_cases hfull : (h.ring.rxHead + 1) % 32 = h.ring.rxTail
      · -- the frame is dropped
        have hring : h.ring.enqueue data len = h.ring := hsame.2.2 hfull
        refine ⟨waiting, ?_, ?_⟩
        · simpa only [RxHistory.step, hring] using hinv.holds
        · simpa only [RxHistory.step, hring, if_true] using hinv.accounts
      · have hmoved := mt hsame.1.1 hfull
        have hwaiting := mt hinv.full_iff.2 hfull
        have hroom := hinv.holds.room
        refine ⟨waiting ++ [(data.bytes 0 len.toNat).take 1518], ?_, ?_⟩
        · simp only [RxHistory.step, contents_enqueue]
          exact hinv.holds.push (by omega) _
        · simp only [RxHistory.step, if_neg hmoved, List.map_append, hinv.accounts]
          simp
  | dequeue =>
      have hpop := contents_dequeue (r := h.ring)
      cases waiting with
      | nil =>
          rw [hinv.holds.pop_nil, Option.map_eq_none_iff] at hpop
          refine ⟨[], ?_⟩
          simpa only [RxHistory.step, hpop] using hinv
      | cons first rest =>
          obtain ⟨r', hr', hholds⟩ := hinv.holds.pop_cons
          rw [hr', Option.map_eq_some_iff] at hpop
          obtain ⟨⟨pkt, ring⟩, hdequeue, heq⟩ := hpop
          obtain ⟨hpkt, hring⟩ := Prod.mk.injEq .. ▸ heq
          dsimp only at hpkt hring
          refine ⟨rest, ?_, ?_⟩
          · simpa only [RxHistory.step, hdequeue, hring] using hholds
          · simp only [RxHistory.step, hdequeue, hinv.accounts, List.map_append, ← hpkt]
            simp

theorem rxHistory_inv (r : RxRing) (calls : List RxCall) : ∃ w, RxInv (rxHistory r calls) w := by
  induction calls using List.reverseRecOn with
  | nil =>
      refine ⟨[], ⟨Nat.zero_lt_succ 31, Nat.zero_lt_succ 31, rfl, ?_⟩, rfl⟩
      simp
  | append_singleton calls call ih =>
      obtain ⟨w, hw⟩ := ih
      rw [rxHistory, List.foldl_append]
      exact hw.step call

/-- After any calls, the packets returned are the first of the frames accepted, cut to 1518
bytes, and a frame is dropped when 31 packets wait. -/
theorem rx_queue_fifo (r : RxRing) (calls : List RxCall) :
    (rxHistory r calls).returned.map NetPacket.contents <+:
      (rxHistory r calls).accepted.map (·.take 1518) ∧
    (∀ data len, (rxHistory r calls).ring.enqueue data len = (rxHistory r calls).ring ↔
      (rxHistory r calls).accepted.length = (rxHistory r calls).returned.length + 31) ∧
    ((rxHistory r calls).ring.dequeue = none ↔
      (rxHistory r calls).accepted.length = (rxHistory r calls).returned.length) ∧
    (rxHistory r calls).ring.rxHead < 32 ∧ (rxHistory r calls).ring.rxTail < 32 := by
  obtain ⟨waiting, hinv⟩ := rxHistory_inv r calls
  have hlengths := hinv.lengths
  refine ⟨⟨waiting, hinv.accounts.symm⟩, fun data len => ?_, ?_, ?_, ?_⟩
  · rw [(enqueue_eq_self_iff data len).2, hinv.full_iff]
    omega
  · have hpop := contents_dequeue (r := (rxHistory r calls).ring)
    cases waiting with
    | nil =>
        rw [hinv.holds.pop_nil, Option.map_eq_none_iff] at hpop
        exact iff_of_true hpop (by simpa using hlengths)
    | cons first rest =>
        obtain ⟨r', hr', -⟩ := hinv.holds.pop_cons
        rw [hr'] at hpop
        refine iff_of_false (fun hnone => ?_) (by simp [hlengths])
        simp [hnone] at hpop
  · exact hinv.head_lt
  · exact hinv.holds.tail_lt

/-! ## The queue of the stack -/

/-- The queue of a host is this ring. -/
structure RingOf (s : Host) (r : RxRing) : Prop where
  slots : ∀ i : Fin 32, r.rxQueue i = s.rxQueue i
  head : r.rxHead = UInt32.ofNat s.rxHead
  tail : r.rxTail = UInt32.ofNat s.rxTail

theorem toNat_ofNat_fin (i : Fin 32) : (UInt32.ofNat i).toNat = i :=
  UInt32.toNat_ofNat_of_lt' (i.isLt.trans (by decide))

theorem ofNat_fin_inj {i j : Fin 32} : UInt32.ofNat i = UInt32.ofNat j ↔ i = j := by
  rw [← UInt32.toNat_inj, toNat_ofNat_fin, toNat_ofNat_fin, Fin.val_inj]

theorem ofNat_fin_succ (i : Fin 32) :
    (UInt32.ofNat i + 1) % 32 = UInt32.ofNat (i + 1 : Fin 32) := by
  rw [← UInt32.toNat_inj, toNat_ofNat_fin, toNat_next, toNat_ofNat_fin, Fin.val_add]
  rfl

variable {s : Host}

theorem netRxEnqueue_ring (h : RingOf s r) (data : View) (len : UInt16) :
    ∃ t, (netRxEnqueue (data.bytes 0 len.toNat) s).result = .ok t ∧
      RingOf t (r.enqueue data len) := by
  have hnext : (r.rxHead + 1) % 32 = r.rxTail ↔ s.rxHead + 1 = s.rxTail := by
    rw [h.head, h.tail, ofNat_fin_succ, ofNat_fin_inj]
  unfold netRxEnqueue RxRing.enqueue
  by_cases hfull : s.rxHead + 1 = s.rxTail
  · rw [if_pos hfull, if_pos (hnext.2 hfull)]
    exact ⟨s, rfl, h⟩
  · rw [if_neg hfull, if_neg (mt hnext.1 hfull)]
    refine ⟨_, rfl, ⟨fun i => ?_, ?_, h.tail⟩⟩
    · dsimp only
      have hhead : r.rxHead.toNat = s.rxHead := by rw [h.head, toNat_ofNat_fin]
      rw [hhead]
      by_cases hi : i = s.rxHead
      · rw [hi, Function.update_self, Function.update_self, h.slots, ← bytes_cut]
        simp [View.bytes]
      · rw [Function.update_of_ne hi, Function.update_of_ne (mt Fin.ext hi), h.slots]
    · dsimp only
      rw [h.head, ofNat_fin_succ]

theorem netRxDequeue_ring (h : RingOf s r) :
    (netRxDequeue s = none ∧ r.dequeue = none) ∨ ∃ pkt t r', netRxDequeue s = some (pkt, t) ∧
      r.dequeue = some (pkt, r') ∧ RingOf t r' := by
  have hempty : r.rxTail = r.rxHead ↔ s.rxTail = s.rxHead := by
    rw [h.head, h.tail, ofNat_fin_inj]
  unfold netRxDequeue RxRing.dequeue
  by_cases hnone : s.rxTail = s.rxHead
  · exact .inl ⟨if_pos hnone, if_pos (hempty.2 hnone)⟩
  · rw [if_neg hnone, if_neg (mt hempty.1 hnone)]
    refine .inr ⟨_, _, { r with rxTail := (r.rxTail + 1) % 32 }, rfl, ?_, ⟨h.slots, h.head, ?_⟩⟩
    · rw [h.tail, toNat_ofNat_fin, h.slots]
    · dsimp only
      rw [h.tail, ofNat_fin_succ]

end PolandOS.Net
