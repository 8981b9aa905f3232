import PolandOS.Drivers.TxSetup
import PolandOS.Lib.RingQueue

/-! # The receive ring of the e1000

`e1000_recv` next to a card that stores frames in order, at the addresses that the driver
has written to its registers and descriptors. The driver finds a frame by the DD bit of
its descriptor; the card has room as long as its head is not at the tail in RDT.
`rx_ring_refines`: behind `e1000_init` the two are a bounded queue of frames, whatever the
rest of the kernel does to its own memory.
-/

namespace PolandOS.E1000

open ByteMem RingQueue Staging Staged

/-! ## The driver and the card -/

/-- Bytes that a device stores. -/
def dma (mem : Mem) (a : Nat) (bs : List UInt8) : Mem :=
  store mem (bs.mapIdx fun i b => (byteAt a i, b))

/-- Some bytes of the memory. -/
def bytesAt (mem : Mem) (a n : Nat) : List UInt8 := (List.range n).map fun i => mem (byteAt a i)

/-- The driver, and the head of the card. -/
structure RxSystem where
  statics : E1000Statics
  rdh : Nat

/-- The driver has set both up. -/
def RxSystem.start (s : E1000Statics) : RxSystem := ⟨s, lastWritten e1000Rdh s.written⟩

/-- What the card finds in RDT. -/
def RxSystem.rdt (s : RxSystem) : Nat := lastWritten e1000Rdt s.statics.written

/-- The number of descriptors, from RDLEN. -/
def RxSystem.slots (s : RxSystem) : Nat := lastWritten e1000Rdlen s.statics.written / descSize

/-- The ring of the card, from RDBAL and RDBAH. The card uses physical addresses, which the
kernel sees at `hhdm`. -/
def RxSystem.cardRing (hhdm : Nat) (s : RxSystem) : Nat :=
  add64 (lastWritten e1000Rdbal s.statics.written +
    2 ^ 32 * lastWritten e1000Rdbah s.statics.written) hhdm

/-- A frame arrives. The card stores it in the buffer of the descriptor at its head, and
reports its length and some status bits with DD; without a descriptor it drops it, and so
it does with a frame that is longer than a buffer. -/
def RxSystem.arrive (hhdm : Nat) (bits : UInt8) (frame : List UInt8) (s : RxSystem) : RxSystem :=
  if frame.length > e1000BufSize.toNat ∨ s.rdh = s.rdt then s
  else
    let d := desc (s.cardRing hhdm) s.rdh
    let mem := dma s.statics.mem (add64 (readLE s.statics.mem d 8) hhdm) frame
    { statics := { s.statics with
        mem := setStatus (setLength mem d frame.length) d (bits ||| e1000StatDd) }
      rdh := (s.rdh + 1) % s.slots }

/-- A frame arrives, `e1000_recv` or `e1000_send` is called, or something else changes the
memory. -/
inductive RxEvent where
  | arrive (bits : UInt8) (frame : List UInt8)
  | recv (buf len : Nat)
  | send (data : Nat) (len : UInt16)
  | elsewhere (mem : Mem)

def RxSystem.step (hhdm : Nat) (s : RxSystem) : RxEvent → RxSystem
  | .arrive bits frame => s.arrive hhdm bits frame
  | .recv buf len => { s with statics := (e1000Recv buf len s.statics).statics }
  | .send data len => { s with statics := (e1000Send data len s.statics).statics }
  | .elsewhere mem => { s with statics := { s.statics with mem := mem } }

/-- A run. -/
def RxSystem.run (hhdm : Nat) (s : RxSystem) (events : List RxEvent) : RxSystem :=
  events.foldl (RxSystem.step hhdm) s

/-- The memory is neither in the ring nor in a buffer. -/
structure Foreign (s : E1000Statics) (a n : Nat) : Prop where
  ring : Apart a n s.rxRing 512
  bufs : ∀ i < rxRingSize, Apart a n (s.rxBufs i) 2048

/-- Descriptor `i` and its buffer hold the same bytes in both memories. -/
structure SameSlot (s : E1000Statics) (mem mem' : Mem) (i : Nat) : Prop where
  desc : ∀ o < 16, mem' (byteAt s.rxRing (16 * i + o)) = mem (byteAt s.rxRing (16 * i + o))
  buf : ∀ o < 2048, mem' (byteAt (s.rxBufs i) o) = mem (byteAt (s.rxBufs i) o)

/-- What the rest of the kernel promises: it passes memory of its own to `e1000_recv`, and
keeps off the ring and the buffers. -/
def Admissible (s : E1000Statics) : RxEvent → Prop
  | .arrive _ _ => True
  | .recv buf len => Foreign s buf ethMaxFrame ∧
      (len ≠ 0 → Foreign s len 2 ∧ Apart len 2 buf ethMaxFrame)
  | .send _ _ => True
  | .elsewhere mem => ∀ i < rxRingSize, SameSlot s s.mem mem i

/-- Every event of the run is admissible. -/
def AdmissibleRun (hhdm : Nat) (s : RxSystem) (events : List RxEvent) : Prop :=
  ∀ pre e, pre ++ [e] <+: events → Admissible (s.run hhdm pre).statics e

/-! ## The queue -/

/-- What an event does to the frames that wait. -/
def queueStep (q : List (List UInt8)) : RxEvent → List (List UInt8)
  | .arrive _ frame => if frame.length ≤ 2048 ∧ q.length < 31 then q ++ [frame] else q
  | .recv _ _ => q.tail
  | .send _ _ => q
  | .elsewhere _ => q

/-- The frames that wait after some events. -/
def queueAfter (events : List RxEvent) : List (List UInt8) := events.foldl queueStep []

/-! ## Memory -/

variable {mem mem' : Mem} {a n : Nat} {bs : List UInt8}

theorem dma_frame {x : Nat} (h : ∀ i < bs.length, x ≠ byteAt a i) : dma mem a bs x = mem x := by
  refine store_frame mem fun w hw => ?_
  obtain ⟨i, hi, rfl⟩ := List.mem_mapIdx.1 hw
  exact h i hi

/-- What the device has stored is there. -/
theorem bytesAt_dma (hn : bs.length ≤ 2 ^ 64) : bytesAt (dma mem a bs) a bs.length = bs := by
  refine List.ext_getElem (by simp [bytesAt]) fun i hi hi' => ?_
  simp only [bytesAt, List.getElem_map, List.getElem_range]
  refine store_mem mem (List.mem_mapIdx.2 ⟨i, hi', rfl⟩) fun w hw heq => ?_
  obtain ⟨j, hj, rfl⟩ := List.mem_mapIdx.1 hw
  have hij := byteAt_inj (by omega) (by omega) heq
  subst hij
  rfl

theorem bytesAt_congr (h : ∀ i < n, mem' (byteAt a i) = mem (byteAt a i)) :
    bytesAt mem' a n = bytesAt mem a n :=
  List.map_congr_left fun i hi => h i (List.mem_range.1 hi)

theorem take_bytesAt (mem : Mem) (a n k : Nat) :
    (bytesAt mem a n).take k = bytesAt mem a (min k n) := by
  rw [bytesAt, ← List.map_take, List.take_range]
  rfl

theorem length_bytesAt (mem : Mem) (a n : Nat) : (bytesAt mem a n).length = n := by
  simp [bytesAt]

/-- A copy into other memory. -/
theorem bytesAt_memcpy {src : Nat} (hap : Apart a n src n) (hn : n ≤ 2 ^ 64) :
    bytesAt (memcpy mem a src n) a n = bytesAt mem src n :=
  List.map_congr_left fun _ hi => memcpy_copy mem hap hn (List.mem_range.1 hi)

theorem Apart.shorter {b k n' k' : Nat} (h : Apart a n b k) (hn : n' ≤ n) (hk : k' ≤ k) :
    Apart a n' b k' := fun i hi j hj => h i (by omega) j (by omega)

variable {s : E1000Statics}

/-- The length that a descriptor reports, and the frame in its buffer. -/
def lengthAt (s : E1000Statics) (i : Nat) : Nat := readLE s.mem (add64 (desc s.rxRing i) 8) 2

def frameAt (s : E1000Statics) (i : Nat) : List UInt8 :=
  bytesAt s.mem (s.rxBufs i) (min (lengthAt s i) 2048)

theorem frameAt_congr {t : E1000Statics} {i : Nat} (hmem : t.mem = s.mem)
    (hring : t.rxRing = s.rxRing) (hbufs : t.rxBufs = s.rxBufs) : frameAt t i = frameAt s i := by
  unfold frameAt lengthAt
  rw [hmem, hring, hbufs]

/-- A field of a descriptor. -/
theorem readLE_desc_congr {ring i off width : Nat} (hoff : off + width ≤ 16)
    (h : ∀ o < 16, mem' (byteAt ring (16 * i + o)) = mem (byteAt ring (16 * i + o))) :
    readLE mem' (add64 (desc ring i) off) width = readLE mem (add64 (desc ring i) off) width := by
  refine readLE_congr fun j hj => ?_
  rw [byteAt_add64, byteAt_desc]
  exact h (off + j) (by omega)

theorem SameSlot.status {i : Nat} (h : SameSlot s mem mem' i) :
    status mem' (E1000.desc s.rxRing i) = status mem (E1000.desc s.rxRing i) := by
  rw [status_eq, status_eq]
  exact h.desc 12 (by omega)

theorem SameSlot.bufferAddr {i : Nat} (h : SameSlot s mem mem' i) :
    readLE mem' (E1000.desc s.rxRing i) 8 = readLE mem (E1000.desc s.rxRing i) 8 := by
  refine readLE_congr fun j hj => ?_
  rw [byteAt_desc]
  exact h.desc j (by omega)

theorem SameSlot.frameAt {i : Nat} (h : SameSlot s s.mem mem' i) :
    frameAt { s with mem := mem' } i = E1000.frameAt s i := by
  have hlength : lengthAt { s with mem := mem' } i = lengthAt s i :=
    readLE_desc_congr (by decide) h.desc
  rw [E1000.frameAt, E1000.frameAt, hlength]
  exact bytesAt_congr fun o ho => h.buf o (by omega)

theorem SameSlot.trans {mem'' : Mem} {i : Nat} (h : SameSlot s mem mem' i)
    (h' : SameSlot s mem' mem'' i) : SameSlot s mem mem'' i :=
  ⟨fun o ho => (h'.desc o ho).trans (h.desc o ho), fun o ho => (h'.buf o ho).trans (h.buf o ho)⟩

/-- The ring and the buffers share no byte. -/
structure RxLayout (s : E1000Statics) : Prop where
  ring : ∀ i < rxRingSize, Apart s.rxRing 512 (s.rxBufs i) 2048
  bufs : ∀ i < rxRingSize, ∀ j < rxRingSize, i ≠ j → Apart (s.rxBufs i) 2048 (s.rxBufs j) 2048

/-- A write to memory that is elsewhere. -/
theorem Foreign.sameSlot {i : Nat} (h : Foreign s a n) (hi : i < rxRingSize)
    (hmem : ∀ x, (∀ o < n, x ≠ byteAt a o) → mem' x = mem x) : SameSlot s mem mem' i := by
  have hi' : i < 32 := hi
  refine ⟨fun o ho => hmem _ fun o' ho' heq => ?_, fun o ho => hmem _ fun o' ho' heq => ?_⟩
  · exact h.ring o' ho' (16 * i + o) (by omega) heq.symm
  · exact h.bufs i hi o' ho' o ho heq.symm

/-! ## The invariant -/

/-- A frame waits in the descriptor, says the driver. -/
def rxDone (s : E1000Statics) (i : Nat) : Prop :=
  status s.mem (desc s.rxRing i) &&& e1000StatDd ≠ 0

/-- The ring: the frames in the buffers, the head of the card, and where the driver is. -/
def RxSystem.ring (s : RxSystem) : RingBuf (List UInt8) :=
  ⟨frameAt s.statics, s.rdh, s.statics.rxHead⟩

/-- What `e1000_send` writes to is not of the receive ring. -/
structure SendsApart (s : E1000Statics) : Prop where
  ring : Foreign s s.txRing 256
  bufs : ∀ i < txRingSize, Foreign s (s.txBufs i) 2048
  tail : s.txTail < txRingSize

/-- The frames `q` wait, and the driver and the card agree about all they share. -/
structure RxInv (hhdm : Nat) (s : RxSystem) (q : List (List UInt8)) : Prop where
  layout : RxLayout s.statics
  sends : SendsApart s.statics
  base : s.statics.e1000Base ≠ 0
  cardRing : s.cardRing hhdm = s.statics.rxRing
  slots : s.slots = rxRingSize
  addr : ∀ i < rxRingSize,
    add64 (readLE s.statics.mem (desc s.statics.rxRing i) 8) hhdm = s.statics.rxBufs i
  tail : s.rdt = (s.statics.rxHead + 31) % rxRingSize
  holds : Holds rxRingSize s.ring q
  done : ∀ i < rxRingSize, rxDone s.statics ((s.statics.rxHead + i) % rxRingSize) ↔ i < q.length
  short : ∀ f ∈ q, f.length ≤ 2048

variable {hhdm : Nat} {S : RxSystem} {q : List (List UInt8)}

theorem RxInv.head_lt (h : RxInv hhdm S q) : S.statics.rxHead < rxRingSize := h.holds.tail_lt

theorem RxInv.rdh_eq (h : RxInv hhdm S q) :
    S.rdh = (S.statics.rxHead + q.length) % rxRingSize := h.holds.head_eq

/-- The card has no descriptor left when 31 frames wait. -/
theorem RxInv.full_iff (h : RxInv hhdm S q) : S.rdh = S.rdt ↔ q.length = 31 := by
  have hhead : S.statics.rxHead < 32 := h.head_lt
  have hroom : q.length < 32 := h.holds.room
  have hrdh : S.rdh = (S.statics.rxHead + q.length) % 32 := h.rdh_eq
  have htail : S.rdt = (S.statics.rxHead + 31) % 32 := h.tail
  rw [hrdh, htail]
  omega

/-- The driver finds a frame when one waits. -/
theorem RxInv.found_iff (h : RxInv hhdm S q) :
    rxDone S.statics S.statics.rxHead ↔ q ≠ [] := by
  have hfirst := h.done 0 (by decide)
  rw [Nat.add_zero, Nat.mod_eq_of_lt h.head_lt] at hfirst
  rw [hfirst, List.length_pos_iff]

/-- The registers that the card looks at. -/
def rxRegisters : List Nat := [e1000Rdbal, e1000Rdbah, e1000Rdlen, e1000Rdt]

/-- All that has to do with the receive ring is the same. -/
structure SameRing (s t : E1000Statics) : Prop where
  base : t.e1000Base = s.e1000Base
  ring : t.rxRing = s.rxRing
  bufs : t.rxBufs = s.rxBufs
  head : t.rxHead = s.rxHead
  registers : ∀ reg ∈ rxRegisters, lastWritten reg t.written = lastWritten reg s.written
  slots : ∀ i < rxRingSize, SameSlot s s.mem t.mem i
  sends : SendsApart t

/-- The queue is the same while all that has to do with the ring is the same. -/
theorem RxInv.sameRing {t : E1000Statics} (h : RxInv hhdm S q) (ht : SameRing S.statics t) :
    RxInv hhdm { S with statics := t } q := by
  have hlayout : RxLayout t := by
    constructor
    · rw [ht.ring, ht.bufs]
      exact h.layout.ring
    · rw [ht.bufs]
      exact h.layout.bufs
  refine ⟨hlayout, ht.sends, ht.base ▸ h.base, ?_, ?_, fun i hi => ?_, ?_, ?_, fun i hi => ?_,
    h.short⟩
  · rw [ht.ring, ← h.cardRing]
    unfold RxSystem.cardRing
    dsimp only
    rw [ht.registers _ (by decide), ht.registers _ (by decide)]
  · rw [← h.slots]
    unfold RxSystem.slots
    dsimp only
    rw [ht.registers _ (by decide)]
  · dsimp only
    rw [ht.ring, ht.bufs, (ht.slots i hi).bufferAddr]
    exact h.addr i hi
  · have hrdt : lastWritten e1000Rdt t.written = S.rdt := ht.registers _ (by decide)
    change lastWritten e1000Rdt t.written = (t.rxHead + 31) % rxRingSize
    rw [hrdt, ht.head]
    exact h.tail
  · refine h.holds.congr rfl ht.head fun i hi => ?_
    have hframe : frameAt t i = frameAt { S.statics with mem := t.mem } i :=
      frameAt_congr rfl ht.ring ht.bufs
    exact hframe.trans (ht.slots i hi).frameAt
  · have hlt : (S.statics.rxHead + i) % rxRingSize < rxRingSize := Nat.mod_lt _ (by decide)
    have hstatus := (ht.slots _ hlt).status
    rw [← h.done i hi]
    unfold rxDone
    dsimp only
    rw [ht.ring, ht.head, hstatus]

theorem SendsApart.congr {t : E1000Statics} (h : SendsApart s) (hrx : t.rxRing = s.rxRing)
    (hrxBufs : t.rxBufs = s.rxBufs) (htx : t.txRing = s.txRing) (htxBufs : t.txBufs = s.txBufs)
    (htail : t.txTail < txRingSize) : SendsApart t := by
  have hforeign : ∀ {a n : Nat}, Foreign s a n → Foreign t a n := by
    intro a n hf
    constructor
    · rw [hrx]
      exact hf.ring
    · rw [hrxBufs]
      exact hf.bufs
  refine ⟨?_, fun i hi => ?_, htail⟩
  · rw [htx]
    exact hforeign h.ring
  · rw [htxBufs]
    exact hforeign (h.bufs i hi)

/-- The memory changes, and every descriptor and every buffer stays as it is. -/
theorem RxInv.sameSlots (h : RxInv hhdm S q)
    (hmem : ∀ i < rxRingSize, SameSlot S.statics S.statics.mem mem' i) :
    RxInv hhdm { S with statics := { S.statics with mem := mem' } } q :=
  h.sameRing ⟨rfl, rfl, rfl, rfl, fun _ _ => rfl, hmem, h.sends.congr rfl rfl rfl rfl h.sends.tail⟩

/-- What is sent does not go through the receive ring. -/
theorem RxInv.send (h : RxInv hhdm S q) (data : Nat) (len : UInt16) :
    RxInv hhdm (S.step hhdm (.send data len)) q := by
  rw [RxSystem.step]
  obtain ⟨-, hidle⟩ | ⟨haccepts, hsent⟩ := e1000Send_cases data len S.statics
  · rw [hidle]
    exact h
  have htail : S.statics.txTail < 16 := h.sends.tail
  rw [hsent]
  refine h.sameRing ⟨rfl, rfl, rfl, rfl, fun reg hreg => ?_, fun i hi => ?_,
    h.sends.congr rfl rfl rfl rfl (Nat.mod_lt _ (by decide))⟩
  · have hne : e1000Tdt ≠ reg := by
      rintro rfl
      exact absurd hreg (by decide)
    exact (lastWritten_append ..).trans (if_neg hne)
  · have hring := h.sends.ring
    have hbufs := h.sends.bufs _ htail
    have hi' : i < 32 := hi
    refine ⟨fun o ho => sendMem_frame haccepts.2.1 (fun o' ho' heq => ?_) fun o' ho' heq => ?_,
      fun o ho => sendMem_frame haccepts.2.1 (fun o' ho' heq => ?_) fun o' ho' heq => ?_⟩
    · exact hring.ring (16 * S.statics.txTail + o') (by omega) (16 * i + o) (by omega) heq.symm
    · exact hbufs.ring o' ho' (16 * i + o) (by omega) heq.symm
    · exact hring.bufs i hi (16 * S.statics.txTail + o') (by omega) o ho heq.symm
    · exact hbufs.bufs i hi o' ho' o ho heq.symm

/-! ## A frame arrives -/

/-- The memory behind a frame that the card stores. -/
def arriveMem (bits : UInt8) (frame : List UInt8) (s : E1000Statics) (i : Nat) : Mem :=
  setStatus (setLength (dma s.mem (s.rxBufs i) frame) (desc s.rxRing i) frame.length)
    (desc s.rxRing i) (bits ||| e1000StatDd)

variable {bits : UInt8} {frame : List UInt8} {i : Nat}

theorem arriveMem_frame {x : Nat} (hlen : frame.length ≤ 2048)
    (hdesc : ∀ o < 16, x ≠ byteAt s.rxRing (16 * i + o))
    (hbuf : ∀ o < 2048, x ≠ byteAt (s.rxBufs i) o) :
    arriveMem bits frame s i x = s.mem x := by
  unfold arriveMem setStatus setLength
  rw [writeLE_desc_frame _ (by decide) hdesc, writeLE_desc_frame _ (by decide) hdesc]
  exact dma_frame fun o ho => hbuf o (by omega)

theorem arriveMem_sameSlot {j : Nat} (h : RxLayout s) (hlen : frame.length ≤ 2048)
    (hi : i < rxRingSize) (hj : j < rxRingSize) (hij : j ≠ i) :
    SameSlot s s.mem (arriveMem bits frame s i) j := by
  have hi' : i < 32 := hi
  have hj' : j < 32 := hj
  refine ⟨fun o ho => arriveMem_frame hlen (fun o' ho' heq => ?_) fun o' ho' heq => ?_,
    fun o ho => arriveMem_frame hlen (fun o' ho' heq => ?_) fun o' ho' heq => ?_⟩
  · have := byteAt_inj (by omega) (by omega) heq
    omega
  · exact h.ring i hi (16 * j + o) (by omega) o' ho' heq
  · exact h.ring j hj (16 * i + o') (by omega) o ho heq.symm
  · exact h.bufs j hj i hi hij o ho o' ho' heq

theorem status_arriveMem :
    status (arriveMem bits frame s i) (desc s.rxRing i) = bits ||| e1000StatDd :=
  status_setStatus _ _ _ _

/-- The address of the buffer is not written. -/
theorem bufferAddr_arriveMem (h : RxLayout s) (hlen : frame.length ≤ 2048)
    (hi : i < rxRingSize) : readLE (arriveMem bits frame s i) (desc s.rxRing i) 8 =
      readLE s.mem (desc s.rxRing i) 8 := by
  have hi' : i < 32 := hi
  unfold arriveMem setStatus setLength
  refine readLE_congr fun j hj => ?_
  rw [byteAt_desc]
  rw [writeLE_frame, writeLE_frame, dma_frame]
  · exact fun o ho heq => h.ring i hi (16 * i + j) (by omega) o (by omega) heq
  · intro o ho heq
    rw [byteAt_add64, byteAt_desc] at heq
    have := byteAt_inj (by omega) (by omega) heq
    omega
  · intro o ho heq
    rw [byteAt_add64, byteAt_desc] at heq
    have := byteAt_inj (by omega) (by omega) heq
    omega

/-- The frame is in the buffer, with its length in the descriptor. -/
theorem frameAt_arriveMem (h : RxLayout s) (hlen : frame.length ≤ 2048) (hi : i < rxRingSize) :
    frameAt { s with mem := arriveMem bits frame s i } i = frame := by
  have hi' : i < 32 := hi
  have hlength : lengthAt { s with mem := arriveMem bits frame s i } i = frame.length := by
    have hback := readLE_writeLE (dma s.mem (s.rxBufs i) frame)
      (a := add64 (desc s.rxRing i) 8) (n := 2) frame.length (by decide)
    unfold lengthAt arriveMem setStatus setLength
    dsimp only
    rw [readLE_writeLE_apart, hback]
    · exact Nat.mod_eq_of_lt (by omega)
    · intro o ho o' ho' heq
      rw [byteAt_add64, byteAt_desc, byteAt_add64, byteAt_desc] at heq
      have := byteAt_inj (by omega) (by omega) heq
      omega
  unfold frameAt
  rw [hlength, Nat.min_eq_left hlen]
  calc bytesAt (arriveMem bits frame s i) (s.rxBufs i) frame.length
      = bytesAt (dma s.mem (s.rxBufs i) frame) (s.rxBufs i) frame.length := by
        refine bytesAt_congr fun o ho => ?_
        unfold arriveMem setStatus setLength
        rw [writeLE_desc_frame _ (by decide), writeLE_desc_frame _ (by decide)]
        · exact fun o' ho' heq => h.ring i hi (16 * i + o') (by omega) o (by omega) heq.symm
        · exact fun o' ho' heq => h.ring i hi (16 * i + o') (by omega) o (by omega) heq.symm
    _ = frame := bytesAt_dma (by omega)

/-- The card stores a frame in the descriptor that the driver comes to behind the others. -/
theorem RxInv.arrive (h : RxInv hhdm S q) (bits : UInt8) (hlen : frame.length ≤ 2048)
    (hroom : q.length < 31) : RxInv hhdm (S.arrive hhdm bits frame) (q ++ [frame]) := by
  have hfull := h.full_iff
  have hlen' : ¬frame.length > e1000BufSize.toNat := Nat.not_lt.2 hlen
  have hrdh : S.rdh < rxRingSize := by
    rw [h.rdh_eq]
    exact Nat.mod_lt _ (by decide)
  -- there is room: the card fills the descriptor at RDH and moves on
  have hstep : S.arrive hhdm bits frame =
      ⟨{ S.statics with mem := arriveMem bits frame S.statics S.rdh },
        (S.rdh + 1) % rxRingSize⟩ := by
    unfold RxSystem.arrive
    rw [if_neg (by omega), h.cardRing, h.slots]
    dsimp only
    rw [h.addr S.rdh hrdh]
    rfl
  have hsame : ∀ j < rxRingSize, j ≠ S.rdh → SameSlot S.statics S.statics.mem
      (arriveMem bits frame S.statics S.rdh) j := fun j hj hne =>
    arriveMem_sameSlot h.layout hlen hrdh hj hne
  rw [hstep]
  refine ⟨⟨h.layout.ring, h.layout.bufs⟩, h.sends.congr rfl rfl rfl rfl h.sends.tail, h.base,
    h.cardRing, h.slots, fun j hj => ?_, h.tail, ?_, fun j hj => ?_, fun f hf => ?_⟩
  · change add64 (readLE (arriveMem bits frame S.statics S.rdh) _ 8) hhdm = _
    by_cases hij : j = S.rdh
    · rw [hij, bufferAddr_arriveMem h.layout hlen hrdh]
      exact h.addr _ hrdh
    · rw [(hsame j hj hij).bufferAddr]
      exact h.addr j hj
  · have hsize : rxRingSize = 32 := rfl
    -- the frame is behind the last one of the queue
    have hpush := h.holds.push (a := frame) (by omega)
    have hnext : (S.ring.head + 1) % rxRingSize ≠ S.ring.tail := by
      have hhead : S.statics.rxHead < 32 := h.head_lt
      have heq : S.rdh = (S.statics.rxHead + q.length) % 32 := h.rdh_eq
      change (S.rdh + 1) % 32 ≠ S.statics.rxHead
      omega
    unfold RingBuf.push at hpush
    rw [if_pos hnext] at hpush
    refine hpush.congr rfl rfl fun j hj => ?_
    change frameAt { S.statics with mem := _ } j = Function.update (frameAt S.statics) S.rdh frame j
    by_cases hij : j = S.rdh
    · rw [hij, Function.update_self]
      exact frameAt_arriveMem h.layout hlen hrdh
    · rw [Function.update_of_ne hij]
      exact (hsame j hj hij).frameAt
  · have hlast : q.length < rxRingSize := h.holds.room
    rw [List.length_append, List.length_singleton]
    change status (arriveMem bits frame S.statics S.rdh) _ &&& e1000StatDd ≠ 0 ↔ _
    by_cases hij : (S.statics.rxHead + j) % rxRingSize = S.rdh
    · -- the descriptor that was filled
      have hjq : j = q.length := by
        by_contra hne
        exact slot_ne hj hlast hne (hij.trans h.rdh_eq)
      have hdd : (bits ||| e1000StatDd) &&& e1000StatDd ≠ 0 := by
        have hall : ∀ b : BitVec 8, (b ||| 1#8) &&& 1#8 ≠ 0#8 := by decide
        exact fun heq => hall bits.toBitVec (congrArg UInt8.toBitVec heq)
      rw [hij, status_arriveMem]
      exact iff_of_true hdd (by omega)
    · have hjq : j ≠ q.length := by
        rintro rfl
        exact hij h.rdh_eq.symm
      rw [(hsame _ (Nat.mod_lt _ (by decide)) hij).status]
      have hdone := h.done j hj
      unfold rxDone at hdone
      rw [hdone]
      omega
  · rcases List.mem_append.1 hf with hf | hf
    · exact h.short f hf
    · rw [List.mem_singleton.1 hf]
      exact hlen

theorem RxInv.arrive_dropped (h : RxInv hhdm S q) (bits : UInt8)
    (hno : ¬(frame.length ≤ 2048 ∧ q.length < 31)) : S.arrive hhdm bits frame = S := by
  have hroom : q.length < 32 := h.holds.room
  have hfull := h.full_iff
  have hsize : e1000BufSize.toNat = 2048 := rfl
  refine if_pos ?_
  omega

/-! ## A frame is taken -/

/-- The frame is at `buf`, and its length at `len`. -/
structure Delivered (mem : Mem) (buf len : Nat) (frame : List UInt8) : Prop where
  bytes : bytesAt mem buf frame.length = frame
  length : len ≠ 0 → readLE mem len 2 = frame.length

/-- The memory behind the copy. -/
def copyMem (buf len : Nat) (s : E1000Statics) : Mem :=
  let pktLen := min (lengthAt s s.rxHead) ethMaxFrame
  let mem := memcpy s.mem buf (s.rxBufs s.rxHead) pktLen
  if len = 0 then mem else writeLE mem len 2 pktLen

variable {buf len : Nat}

/-- What a call does. -/
theorem e1000Recv_cases (buf len : Nat) (hbase : s.e1000Base ≠ 0) :
    (¬rxDone s s.rxHead ∧ (e1000Recv buf len s).result = 0 ∧
      (e1000Recv buf len s).statics = s) ∨
    (rxDone s s.rxHead ∧ (e1000Recv buf len s).result = 1 ∧
      (e1000Recv buf len s).statics = { s with
        mem := setStatus (copyMem buf len s) (desc s.rxRing s.rxHead) 0
        rxTail := s.rxHead
        rxHead := (s.rxHead + 1) % rxRingSize
        written := s.written ++ [(e1000Rdt, s.rxHead)] }) := by
  unfold e1000Recv
  rw [if_neg hbase]
  dsimp only
  by_cases hnone : status s.mem (desc s.rxRing s.rxHead) &&& e1000StatDd = 0
  · rw [if_pos hnone]
    exact .inl ⟨not_not.2 hnone, rfl, rfl⟩
  · rw [if_neg hnone]
    exact .inr ⟨hnone, rfl, rfl⟩

/-- The copy goes to memory of the caller. -/
theorem copyMem_sameSlot (hadm : Admissible s (.recv buf len)) (hi : i < rxRingSize) :
    SameSlot s s.mem (copyMem buf len s) i := by
  have hcopy : SameSlot s s.mem
      (memcpy s.mem buf (s.rxBufs s.rxHead) (min (lengthAt s s.rxHead) ethMaxFrame)) i :=
    hadm.1.sameSlot hi fun x hx => memcpy_frame _ fun o ho => hx o (by omega)
  unfold copyMem
  dsimp only
  split
  · exact hcopy
  · rename_i hlen
    exact hcopy.trans ((hadm.2 hlen).1.sameSlot hi fun x hx => writeLE_frame _ _ hx)

theorem bufferAddr_setStatus (mem : Mem) (ring : Nat) {j : Nat} (v : UInt8) (hi : i < rxRingSize)
    (hj : j < rxRingSize) : readLE (setStatus mem (desc ring j) v) (desc ring i) 8 =
      readLE mem (desc ring i) 8 := by
  have hi' : i < 32 := hi
  have hj' : j < 32 := hj
  refine readLE_writeLE_apart _ _ fun o ho o' ho' heq => ?_
  rw [byteAt_desc, byteAt_add64, byteAt_desc] at heq
  have := byteAt_inj (by omega) (by omega) heq
  omega

theorem frameAt_setStatus {j : Nat} (h : RxLayout s) (v : UInt8) (hi : i < rxRingSize)
    (hj : j < rxRingSize) :
    frameAt { s with mem := setStatus s.mem (desc s.rxRing j) v } i = frameAt s i := by
  have hi' : i < 32 := hi
  have hj' : j < 32 := hj
  have hlength : lengthAt { s with mem := setStatus s.mem (desc s.rxRing j) v } i =
      lengthAt s i := by
    refine readLE_writeLE_apart _ _ fun o ho o' ho' heq => ?_
    rw [byteAt_add64, byteAt_desc, byteAt_add64, byteAt_desc] at heq
    have := byteAt_inj (by omega) (by omega) heq
    omega
  unfold frameAt
  rw [hlength]
  refine bytesAt_congr fun o ho => writeLE_desc_frame _ (by decide) fun o' ho' heq => ?_
  exact h.ring i hi (16 * j + o') (by omega) o (by omega) heq.symm

theorem status_setStatus_other (mem : Mem) (ring : Nat) {j : Nat} (v : UInt8)
    (hi : i < rxRingSize) (hj : j < rxRingSize) (hij : i ≠ j) :
    status (setStatus mem (desc ring j) v) (desc ring i) = status mem (desc ring i) := by
  have hi' : i < 32 := hi
  have hj' : j < 32 := hj
  rw [status_eq, status_eq]
  refine writeLE_desc_frame mem (by decide) fun o ho heq => ?_
  have := byteAt_inj (by omega) (by omega) heq
  omega

/-- What the caller finds. -/
theorem RxInv.delivered (h : RxInv hhdm S (frame :: q))
    (hadm : Admissible S.statics (.recv buf len)) :
    Delivered (setStatus (copyMem buf len S.statics)
      (desc S.statics.rxRing S.statics.rxHead) 0) buf len (frame.take ethMaxFrame) := by
  have hhead := h.head_lt
  have hhead' : S.statics.rxHead < 32 := hhead
  have hframe : frameAt S.statics S.statics.rxHead = frame := by
    have hentry := h.holds.entry 0 frame rfl
    rwa [Nat.add_zero, Nat.mod_eq_of_lt h.holds.tail_lt] at hentry
  have hmax : ethMaxFrame = 1518 := rfl
  have hlen : (frame.take ethMaxFrame).length =
      min (lengthAt S.statics S.statics.rxHead) ethMaxFrame := by
    rw [← hframe, frameAt, take_bytesAt, length_bytesAt]
    omega
  -- the status byte is in the ring, and the caller's buffer is not
  have hbuf : ∀ {k : Nat}, k ≤ ethMaxFrame → ∀ i < k,
      setStatus (copyMem buf len S.statics) (desc S.statics.rxRing S.statics.rxHead) 0
        (byteAt buf i) = copyMem buf len S.statics (byteAt buf i) := by
    intro k hk i hi
    refine writeLE_desc_frame _ (by decide) fun o ho heq => ?_
    exact hadm.1.ring i (by omega) (16 * S.statics.rxHead + o) (by omega) heq
  constructor
  · rw [hlen, bytesAt_congr (hbuf (Nat.min_le_right _ _))]
    have hcopied : bytesAt (copyMem buf len S.statics) buf
        (min (lengthAt S.statics S.statics.rxHead) ethMaxFrame) =
          bytesAt S.statics.mem (S.statics.rxBufs S.statics.rxHead)
            (min (lengthAt S.statics S.statics.rxHead) ethMaxFrame) := by
      rw [← bytesAt_memcpy (Apart.shorter (hadm.1.bufs _ hhead) (Nat.min_le_right _ _) (by omega))
        (by omega)]
      refine bytesAt_congr fun i hi => ?_
      unfold copyMem
      split
      · rfl
      · rename_i hne
        refine writeLE_frame _ _ fun o ho heq => ?_
        exact (hadm.2 hne).2 o ho i (by omega) heq.symm
    rw [hcopied, ← hframe, frameAt, take_bytesAt]
    congr 1
    omega
  · intro hne
    rw [hlen]
    have hback : readLE (copyMem buf len S.statics) len 2 =
        min (lengthAt S.statics S.statics.rxHead) ethMaxFrame := by
      unfold copyMem
      rw [if_neg hne, readLE_writeLE _ _ (by decide)]
      exact Nat.mod_eq_of_lt (by omega)
    rw [← hback]
    refine readLE_congr fun i hi => writeLE_desc_frame _ (by decide) fun o ho heq => ?_
    exact (hadm.2 hne).1.ring i hi (16 * S.statics.rxHead + o) (by omega) heq

/-- The frame that waits longest is taken, and its descriptor goes back to the card. -/
theorem RxInv.recv (h : RxInv hhdm S (frame :: q)) (hadm : Admissible S.statics (.recv buf len)) :
    RxInv hhdm (S.step hhdm (.recv buf len)) q := by
  have hhead := h.head_lt
  have hhead' : S.statics.rxHead < 32 := hhead
  have hroom : q.length + 1 < 32 := h.holds.room
  obtain ⟨hnone, -⟩ | ⟨-, -, hstatics⟩ := e1000Recv_cases buf len h.base
  · exact absurd (h.found_iff.2 (List.cons_ne_nil _ _)) hnone
  -- the caller's buffers are apart from the ring, and RDT is the descriptor that was taken
  have hsame := h.sameSlots fun i hi => copyMem_sameSlot hadm hi
  have hlast : ∀ reg, reg ≠ e1000Rdt →
      lastWritten reg (S.statics.written ++ [(e1000Rdt, S.statics.rxHead)]) =
        lastWritten reg S.statics.written := fun reg hreg =>
    (lastWritten_append ..).trans (if_neg hreg.symm)
  rw [RxSystem.step, hstatics]
  refine ⟨⟨h.layout.ring, h.layout.bufs⟩, h.sends.congr rfl rfl rfl rfl h.sends.tail, h.base, ?_, ?_,
    fun i hi => ?_, ?_, ?_, fun i hi => ?_, fun f hf => h.short f (List.mem_cons_of_mem _ hf)⟩
  · rw [← h.cardRing]
    unfold RxSystem.cardRing
    dsimp only
    rw [hlast _ (by decide), hlast _ (by decide)]
  · rw [← h.slots]
    unfold RxSystem.slots
    dsimp only
    rw [hlast _ (by decide)]
  · change add64 (readLE (setStatus _ _ 0) _ 8) hhdm = _
    rw [bufferAddr_setStatus _ _ _ hi hhead]
    exact hsame.addr i hi
  · have hrdt : lastWritten e1000Rdt (S.statics.written ++ [(e1000Rdt, S.statics.rxHead)]) =
        S.statics.rxHead := (lastWritten_append ..).trans (if_pos rfl)
    refine hrdt.trans ?_
    change S.statics.rxHead = ((S.statics.rxHead + 1) % 32 + 31) % 32
    omega
  · have hframes : ∀ i < rxRingSize, frameAt { S.statics with
        mem := setStatus (copyMem buf len S.statics) (desc S.statics.rxRing S.statics.rxHead) 0 } i =
          frameAt { S.statics with mem := copyMem buf len S.statics } i := fun i hi =>
      frameAt_setStatus (s := { S.statics with mem := copyMem buf len S.statics })
        hsame.layout 0 hi hhead
    refine hsame.holds.next.congr rfl rfl fun i hi => ?_
    exact (frameAt_congr rfl rfl rfl).trans (hframes i hi)
  · change status (setStatus (copyMem buf len S.statics) _ 0)
      (desc S.statics.rxRing (((S.statics.rxHead + 1) % rxRingSize + i) % rxRingSize)) &&&
        e1000StatDd ≠ 0 ↔ _
    have hsize : rxRingSize = 32 := rfl
    have hslot : ((S.statics.rxHead + 1) % rxRingSize + i) % rxRingSize =
        (S.statics.rxHead + (i + 1)) % rxRingSize := by
      rw [Nat.mod_add_mod, Nat.add_assoc, Nat.add_comm 1 i]
    rw [hslot]
    by_cases hwrap : i + 1 = rxRingSize
    · -- the descriptor that was taken is the last one now
      rw [hwrap, Nat.add_mod_right, Nat.mod_eq_of_lt hhead, status_setStatus]
      exact iff_of_false (by decide) (by omega)
    · have hdone := hsame.done (i + 1) (by omega)
      have hother : (S.statics.rxHead + (i + 1)) % rxRingSize ≠ S.statics.rxHead := by
        change (S.statics.rxHead + (i + 1)) % 32 ≠ S.statics.rxHead
        omega
      rw [status_setStatus_other _ _ _ (Nat.mod_lt _ (by decide)) hhead hother]
      unfold rxDone at hdone
      exact hdone.trans (by rw [List.length_cons]; omega)

theorem recv_idle (h : RxInv hhdm S []) (buf len : Nat) :
    (e1000Recv buf len S.statics).result = 0 ∧ S.step hhdm (.recv buf len) = S := by
  obtain ⟨-, hresult, hstatics⟩ | ⟨hfound, -⟩ := e1000Recv_cases buf len h.base
  · refine ⟨hresult, ?_⟩
    rw [RxSystem.step, hstatics]
  · exact absurd rfl (h.found_iff.1 hfound)

/-! ## Runs -/

/-- One event, on both sides. -/
theorem RxInv.step (h : RxInv hhdm S q) {e : RxEvent} (hadm : Admissible S.statics e) :
    RxInv hhdm (S.step hhdm e) (queueStep q e) := by
  cases e with
  | arrive bits frame =>
      by_cases hroom : frame.length ≤ 2048 ∧ q.length < 31
      · rw [queueStep, if_pos hroom]
        exact h.arrive bits hroom.1 hroom.2
      · rw [queueStep, if_neg hroom, RxSystem.step, h.arrive_dropped bits hroom]
        exact h
  | recv buf len =>
      cases q with
      | nil =>
          rw [(recv_idle h buf len).2]
          exact h
      | cons frame q => exact h.recv hadm
  | send data len => exact h.send data len
  | elsewhere mem => exact h.sameSlots hadm

theorem RxInv.run (h : RxInv hhdm S []) (events : List RxEvent)
    (hadm : AdmissibleRun hhdm S events) : RxInv hhdm (S.run hhdm events) (queueAfter events) := by
  induction events using List.reverseRecOn with
  | nil => exact h
  | append_singleton events e ih =>
      have hbefore := ih fun pre e' hpre => hadm pre e' (hpre.trans (List.prefix_append _ _))
      rw [RxSystem.run, queueAfter, List.foldl_append, List.foldl_append]
      exact hbefore.step (hadm events e (List.prefix_refl _))

/-! ## The ring behind `e1000_init` -/

section

variable {m : E1000Machine} {t : E1000Statics} {K k : Nat} {R : E1000Exit → E1000Statics → Prop}

/-- The part of the receive ring that is set up: frame `K` with `k` descriptors, and their
buffers in the frames behind it. -/
structure RxReady (m : E1000Machine) (K k : Nat) (s : E1000Statics) : Prop where
  taken : s.framesTaken = K + 1 + k
  frames : ∀ i ≤ k, m.frame (K + i) ≠ 0
  ring : s.rxRing = m.page K
  bufs : ∀ i < k, s.rxBufs i = m.page (K + 1 + i)
  addr : ∀ i < k, readLE s.mem (desc s.rxRing i) 8 = m.frame (K + 1 + i)
  idle : ∀ i < k, status s.mem (desc s.rxRing i) = 0

theorem RxReady.write (h : RxReady m K k s) (entry : Nat × Nat) :
    RxReady m K k { s with written := s.written ++ [entry] } :=
  ⟨h.taken, h.frames, h.ring, h.bufs, h.addr, h.idle⟩

theorem bufferAddr_initDesc (mem : Mem) (ring phys : Nat) {i : Nat} (v : UInt8)
    (hi : i < rxRingSize) (hphys : phys < 2 ^ 64) :
    readLE (setStatus (setBufferAddr mem (desc ring i) phys) (desc ring i) v) (desc ring i) 8 =
      phys := by
  have hi' : i < 32 := hi
  unfold setStatus setBufferAddr
  rw [readLE_writeLE_apart, readLE_writeLE _ _ (by decide)]
  · exact Nat.mod_eq_of_lt hphys
  · intro o ho o' ho' heq
    rw [byteAt_desc, byteAt_add64, byteAt_desc] at heq
    have := byteAt_inj (by omega) (by omega) heq
    omega

/-- The next buffer is in place. -/
theorem RxReady.next (h : RxReady m K k s) (hm : PmmFrames m) (hk : k < rxRingSize)
    (hne : m.frame (K + 1 + k) ≠ 0) (hring : t.rxRing = s.rxRing)
    (hbufs : t.rxBufs = Function.update s.rxBufs k (m.page (K + 1 + k)))
    (hmem : t.mem = setStatus (setBufferAddr s.mem (desc s.rxRing k) (m.frame (K + 1 + k)))
      (desc s.rxRing k) 0)
    (htaken : t.framesTaken = K + 1 + (k + 1)) : RxReady m K (k + 1) t := by
  have hk' : k < 32 := hk
  have hsame : ∀ i < k, ∀ o < 16, t.mem (byteAt s.rxRing (16 * i + o)) =
      s.mem (byteAt s.rxRing (16 * i + o)) := by
    intro i hi o ho
    rw [hmem]
    refine initDesc_frame _ _ _ fun o' ho' heq => ?_
    have := byteAt_inj (by omega) (by omega) heq
    omega
  refine ⟨htaken, fun i hi => ?_, hring.trans h.ring, fun i hi => ?_, fun i hi => ?_,
    fun i hi => ?_⟩
  · obtain rfl | hlt := Nat.eq_or_lt_of_le hi
    · rwa [Nat.add_assoc, Nat.add_comm 1 k] at hne
    · exact h.frames i (Nat.le_of_lt_succ hlt)
  · rw [hbufs]
    by_cases heq : i = k
    · rw [heq, Function.update_self]
    · rw [Function.update_of_ne heq]
      exact h.bufs i (by omega)
  · rw [hring]
    by_cases heq : i = k
    · rw [heq, hmem]
      exact bufferAddr_initDesc _ _ _ _ hk (hm.lt _)
    · rw [← h.addr i (by omega)]
      refine readLE_congr fun o ho => ?_
      rw [byteAt_desc]
      exact hsame i (by omega) o (by omega)
  · rw [hring]
    by_cases heq : i = k
    · rw [heq, hmem]
      exact status_setStatus _ _ _ _
    · rw [status_eq, hsame i (by omega) 12 (by omega), ← status_eq s.mem s.rxRing i]
      exact h.idle i (by omega)

/-- One buffer after the other is taken, each for its own descriptor. -/
theorem rxBuffers_ready (hm : PmmFrames m) (n k : Nat) (s : E1000Statics) (h : RxReady m K k s)
    (hn : k + n ≤ rxRingSize) :
    Outcome (fun _ t => RxReady m K (k + n) t) (fun _ _ => True)
      (rxBuffers m (List.range' k n)) s := by
  induction n generalizing k s with
  | zero => exact outcome_pure h
  | succ n ih =>
      have hk : k < rxRingSize := by omega
      rw [List.range'_succ]
      refine outcome_bind (pmmAlloc_outcome h.taken) ?_
      rintro phys t ⟨hphys, rfl⟩
      -- the physical address is noted, and nothing else changes
      refine outcome_bind (Q := fun _ t => t.framesTaken = K + 1 + (k + 1) ∧ t.mem = s.mem ∧
        t.rxRing = s.rxRing ∧ t.rxBufs = s.rxBufs) (outcome_modify ⟨rfl, rfl, rfl, rfl⟩) ?_
      rintro - t ⟨htaken, hmem, hring, hbufs⟩
      refine outcome_ite (fun _ => outcome_leave (α := Unit) trivial) fun hne => ?_
      rw [hphys] at hne
      refine outcome_bind (Q := fun _ t => RxReady m K (k + 1) t) (outcome_modify ?_) ?_
      · refine h.next hm hk hne hring ?_ ?_ htaken
        · dsimp only
          rw [hbufs, hphys]
          rfl
        · dsimp only
          rw [hmem, hring, hphys]
      · intro _ t ht
        have := ih (k + 1) t ht (by omega)
        rwa [Nat.add_right_comm k 1 n] at this

/-- The receive ring as the card and the driver get it. -/
structure RxStart (m : E1000Machine) (K : Nat) (s : E1000Statics) : Prop where
  ready : RxReady m K rxRingSize s
  head : s.rxHead = 0
  low : lastWritten e1000Rdbal s.written = m.frame K % 2 ^ 32
  high : lastWritten e1000Rdbah s.written = m.frame K / 2 ^ 32
  size : lastWritten e1000Rdlen s.written = rxRingSize * descSize
  rdh : lastWritten e1000Rdh s.written = 0
  rdt : lastWritten e1000Rdt s.written = rxRingSize - 1

/-- Another register is written. -/
theorem RxStart.write (h : RxStart m K s) {reg : Nat} (val : Nat)
    (hreg : reg ∉ e1000Rdh :: rxRegisters) :
    RxStart m K { s with written := s.written ++ [(reg, val)] } := by
  have hother : ∀ reg' ∈ e1000Rdh :: rxRegisters,
      lastWritten reg' (s.written ++ [(reg, val)]) = lastWritten reg' s.written := by
    intro reg' hmem
    refine (lastWritten_append ..).trans (if_neg ?_)
    rintro rfl
    exact hreg hmem
  refine ⟨h.ready.write _, h.head, ?_, ?_, ?_, ?_, ?_⟩
  · exact (hother _ (by decide)).trans h.low
  · exact (hother _ (by decide)).trans h.high
  · exact (hother _ (by decide)).trans h.size
  · exact (hother _ (by decide)).trans h.rdh
  · exact (hother _ (by decide)).trans h.rdt

/-- A register has its value, and those that were written before keep theirs. -/
theorem lastWritten_keep {reg reg' val v : Nat} {written : List (Nat × Nat)} (hne : reg' ≠ reg)
    (h : lastWritten reg written = v) : lastWritten reg (written ++ [(reg', val)]) = v :=
  (lastWritten_append ..).trans ((if_neg hne).trans h)

theorem lastWritten_last (reg val : Nat) (written : List (Nat × Nat)) :
    lastWritten reg (written ++ [(reg, val)]) = val := (lastWritten_append ..).trans (if_pos rfl)

/-- `init_rx` leaves an empty ring of descriptors and buffers that are apart. -/
theorem initRx_start (hm : PmmFrames m) (htaken : s.framesTaken = K) :
    Outcome (fun _ t => RxStart m K t) (fun _ _ => True) (initRx m) s := by
  refine outcome_bind (pmmAlloc_outcome htaken) ?_
  rintro phys t ⟨rfl, rfl⟩
  refine outcome_bind (Q := fun _ t => t.framesTaken = K + 1) (outcome_modify rfl) ?_
  rintro - t htaken
  refine outcome_ite (fun _ => outcome_leave (α := Unit) trivial) fun hne => ?_
  refine outcome_bind (Q := fun _ t => RxReady m K 0 t) (outcome_modify ?_) fun _ t hready => ?_
  · refine ⟨htaken, fun i hi => ?_, rfl, fun i hi => absurd hi (by omega),
      fun i hi => absurd hi (by omega), fun i hi => absurd hi (by omega)⟩
    rw [Nat.le_zero.1 hi]
    exact hne
  -- the buffers, one for each descriptor
  rw [List.range_eq_range']
  refine outcome_bind (rxBuffers_ready hm rxRingSize 0 t hready (by omega)) fun _ t hready => ?_
  rw [Nat.zero_add] at hready
  -- the registers, in the order in which they are written; each write keeps the ones before
  refine outcome_bind (Q := fun _ t => RxReady m K rxRingSize t ∧
    lastWritten e1000Rdbal t.written = m.frame K % 2 ^ 32)
    (outcome_modify ⟨hready.write _, lastWritten_last ..⟩) ?_
  rintro - t ⟨hready, hlow⟩
  refine outcome_bind (Q := fun _ t => RxReady m K rxRingSize t ∧
    lastWritten e1000Rdbal t.written = m.frame K % 2 ^ 32 ∧
    lastWritten e1000Rdbah t.written = m.frame K / 2 ^ 32)
    (outcome_modify ⟨hready.write _, lastWritten_keep (by decide) hlow, lastWritten_last ..⟩) ?_
  rintro - t ⟨hready, hlow, hhigh⟩
  refine outcome_bind (Q := fun _ t => RxReady m K rxRingSize t ∧
    lastWritten e1000Rdbal t.written = m.frame K % 2 ^ 32 ∧
    lastWritten e1000Rdbah t.written = m.frame K / 2 ^ 32 ∧
    lastWritten e1000Rdlen t.written = rxRingSize * descSize)
    (outcome_modify ⟨hready.write _, lastWritten_keep (by decide) hlow,
      lastWritten_keep (by decide) hhigh, lastWritten_last ..⟩) ?_
  rintro - t ⟨hready, hlow, hhigh, hsize⟩
  refine outcome_bind (Q := fun _ t => RxReady m K rxRingSize t ∧
    lastWritten e1000Rdbal t.written = m.frame K % 2 ^ 32 ∧
    lastWritten e1000Rdbah t.written = m.frame K / 2 ^ 32 ∧
    lastWritten e1000Rdlen t.written = rxRingSize * descSize ∧
    lastWritten e1000Rdh t.written = 0)
    (outcome_modify ⟨hready.write _, lastWritten_keep (by decide) hlow,
      lastWritten_keep (by decide) hhigh, lastWritten_keep (by decide) hsize,
      lastWritten_last ..⟩) ?_
  rintro - t ⟨hready, hlow, hhigh, hsize, hrdh⟩
  refine outcome_bind (Q := fun _ t => t.rxHead = 0 ∧ RxReady m K rxRingSize t ∧
    lastWritten e1000Rdbal t.written = m.frame K % 2 ^ 32 ∧
    lastWritten e1000Rdbah t.written = m.frame K / 2 ^ 32 ∧
    lastWritten e1000Rdlen t.written = rxRingSize * descSize ∧
    lastWritten e1000Rdh t.written = 0) (outcome_modify ⟨rfl, ?_, hlow, hhigh, hsize, hrdh⟩) ?_
  · exact ⟨hready.taken, hready.frames, hready.ring, hready.bufs, hready.addr, hready.idle⟩
  rintro - t ⟨hhead, hready, hlow, hhigh, hsize, hrdh⟩
  refine outcome_bind (Q := fun _ t => RxStart m K t) (outcome_modify ⟨hready.write _, hhead, ?_, ?_,
    ?_, ?_, lastWritten_last ..⟩) fun _ t hstart => ?_
  · exact lastWritten_keep (by decide) hlow
  · exact lastWritten_keep (by decide) hhigh
  · exact lastWritten_keep (by decide) hsize
  · exact lastWritten_keep (by decide) hrdh
  exact write_outcome _ _ (hstart.write _ (by decide))

theorem e1000Init_rxStart (hm : PmmFrames m) :
    Outcome (fun _ t => ∃ K > 16, RxStart m K t) (fun _ _ => True) (e1000Init m) (.boot m) := by
  refine outcome_bind (Q := fun _ t => t.framesTaken = 0)
    ((keeps_findRegisters (.boot m)).mono (fun _ _ h => h) fun _ _ _ => trivial) fun _ s hs => ?_
  refine outcome_bind (Q := fun _ t => t.framesTaken = 0)
    ((keeps_reset (E := fun _ => True) framesTaken_unregistered).outcome hs fun _ _ _ _ => trivial)
    fun _ s hs => ?_
  refine outcome_bind (initTx_outcome hs) fun _ s hs => ?_
  refine outcome_bind (initRx_start hm rfl) fun _ t ht => ?_
  exact write_outcome _ _ ⟨_, hs.ready.taken, ht.write _ (by decide)⟩

/-- With no frame received the card and the driver start. -/
theorem RxStart.start (h : RxStart m K s) (hm : PmmFrames m) (htx : TxSet m s) (hK : 16 < K)
    (hbase : s.e1000Base ≠ 0) : RxInv m.hhdmOffset (.start s) [] := by
  have hready := h.ready
  have hpage : ∀ i < rxRingSize, s.rxBufs i = m.page (K + 1 + i) := hready.bufs
  have hring : s.rxRing = m.page K := hready.ring
  have hframe : ∀ i < rxRingSize, m.frame (K + 1 + i) ≠ 0 := by
    intro i hi
    rw [Nat.add_assoc, Nat.add_comm 1 i]
    exact hready.frames (i + 1) hi
  have hrx0 : m.frame K ≠ 0 := hready.frames 0 (Nat.zero_le _)
  -- a frame that was taken for the transmit ring
  have hforeign : ∀ i ≤ 16, ∀ n ≤ 4096, Foreign s (m.page i) n := by
    intro i hi n hn
    constructor
    · rw [hring]
      exact hm.apart (by omega) (htx.ready.frames i hi) hn (by decide)
    · intro j hj
      rw [hpage j hj]
      exact hm.apart (by omega) (htx.ready.frames i hi) hn (by decide)
  refine ⟨⟨fun i hi => ?_, fun i hi j hj hij => ?_⟩, ⟨?_, fun i hi => ?_, ?_⟩, hbase, ?_, ?_,
    fun i hi => ?_, ?_, ?_, fun i hi => ?_, fun f hf => absurd hf List.not_mem_nil⟩
  · change Apart s.rxRing 512 (s.rxBufs i) 2048
    rw [hring, hpage i hi]
    exact hm.apart (by omega) hrx0 (by decide) (by decide)
  · change Apart (s.rxBufs i) 2048 (s.rxBufs j) 2048
    rw [hpage i hi, hpage j hj]
    exact hm.apart (by omega) (hframe i hi) (by decide) (by decide)
  · change Foreign s s.txRing 256
    rw [htx.ready.ring]
    exact hforeign 0 (by omega) _ (by decide)
  · change Foreign s (s.txBufs i) 2048
    rw [htx.ready.bufs i hi]
    exact hforeign (i + 1) hi _ (by decide)
  · change s.txTail < txRingSize
    rw [htx.tail]
    decide
  · unfold RxSystem.cardRing
    rw [RxSystem.start, h.low, h.high, Nat.mod_add_div, hring]
    rfl
  · unfold RxSystem.slots
    rw [RxSystem.start, h.size]
    rfl
  · change add64 (readLE s.mem (desc s.rxRing i) 8) m.hhdmOffset = s.rxBufs i
    rw [hready.addr i hi, hpage i hi]
    rfl
  · change lastWritten e1000Rdt s.written = (s.rxHead + 31) % rxRingSize
    rw [h.rdt, h.head]
    rfl
  · have hhead : (RxSystem.start s).ring.tail = 0 := h.head
    have hrdh : (RxSystem.start s).ring.head = 0 := h.rdh
    refine ⟨hhead ▸ by decide, by decide, ?_, fun i a hi => by cases hi⟩
    rw [hhead, hrdh]
    rfl
  · change status s.mem (desc s.rxRing ((s.rxHead + i) % rxRingSize)) &&& e1000StatDd ≠ 0 ↔ _
    rw [h.head, Nat.zero_add, Nat.mod_eq_of_lt hi, hready.idle i hi]
    exact iff_of_false (by decide) (Nat.not_lt_zero i)

theorem rxInv_start (hm : PmmFrames m) (hinit : e1000Init m (.boot m) = (.ok (), s))
    (hbase : s.e1000Base ≠ 0) : RxInv m.hhdmOffset (.start s) [] := by
  obtain ⟨K, hK, hstart⟩ := (e1000Init_rxStart hm).of_ok hinit
  exact hstart.start hm ((e1000Init_txSet hm).of_ok hinit) hK hbase

end

/-- What the driver says of the frames `q` that wait: whether there is one, and what
`e1000_recv` does with the first. -/
def Received (s : E1000Statics) : List (List UInt8) → Prop
  | [] => (e1000HasPacket s).result = 0 ∧
      ∀ buf len, (e1000Recv buf len s).result = 0 ∧ (e1000Recv buf len s).statics = s
  | frame :: _ => (e1000HasPacket s).result = 1 ∧
      ∀ buf len, Admissible s (.recv buf len) → (e1000Recv buf len s).result = 1 ∧
        Delivered (e1000Recv buf len s).statics.mem buf len (frame.take ethMaxFrame)

/-- `e1000_has_packet` and `e1000_recv` say what the queue says. -/
theorem RxInv.received (h : RxInv hhdm S q) : Received S.statics q := by
  have hfound := h.found_iff
  have hhas : (e1000HasPacket S.statics).result =
      if status S.statics.mem (desc S.statics.rxRing S.statics.rxHead) &&& e1000StatDd ≠ 0
        then 1 else 0 := by
    unfold e1000HasPacket
    rw [if_neg h.base]
  cases q with
  | nil =>
      have hnone : ¬rxDone S.statics S.statics.rxHead := fun hdone => hfound.1 hdone rfl
      refine ⟨hhas.trans (if_neg hnone), fun buf len => ?_⟩
      obtain ⟨-, hidle⟩ | ⟨hdone, -⟩ := e1000Recv_cases buf len h.base
      · exact hidle
      · exact absurd hdone hnone
  | cons frame q =>
      have hdone : rxDone S.statics S.statics.rxHead := hfound.2 (List.cons_ne_nil _ _)
      refine ⟨hhas.trans (if_pos hdone), fun buf len hadm => ?_⟩
      obtain ⟨hnone, -⟩ | ⟨-, hresult, hstatics⟩ := e1000Recv_cases buf len h.base
      · exact absurd hdone hnone
      · refine ⟨hresult, ?_⟩
        rw [hstatics]
        exact h.delivered hadm

/-- Behind `e1000_init` the frames that the card has room for come out of `e1000_recv` in
order, each once and cut to 1518 bytes, in all runs. The card has room for 31. -/
theorem rx_ring_refines (m : E1000Machine) (s : E1000Statics) (hm : PmmFrames m)
    (hinit : e1000Init m (.boot m) = (.ok (), s)) (hbase : s.e1000Base ≠ 0)
    (events : List RxEvent) (hadm : AdmissibleRun m.hhdmOffset (.start s) events) :
    (queueAfter events).length ≤ 31 ∧
      Received ((RxSystem.start s).run m.hhdmOffset events).statics (queueAfter events) := by
  have hinv := (rxInv_start hm hinit hbase).run events hadm
  have hroom : (queueAfter events).length < 32 := hinv.holds.room
  exact ⟨by omega, hinv.received⟩

theorem rx_ring_two_frames : ∃ s, e1000Init emulatedE1000 (.boot emulatedE1000) = (.ok (), s) ∧
    Received ((RxSystem.start s).run emulatedE1000.hhdmOffset
      [.arrive 0 [1, 2], .send 0 60, .arrive 2 [3]]).statics [[1, 2], [3]] := by
  obtain ⟨s, hinit, hbase⟩ := emulatedE1000_initialised
  refine ⟨s, hinit, ?_⟩
  refine (rx_ring_refines emulatedE1000 s emulatedE1000_frames hinit hbase
    [.arrive 0 [1, 2], .send 0 60, .arrive 2 [3]] fun pre e hpre => ?_).2
  have hmem := hpre.subset (List.mem_append_right pre (List.mem_singleton_self e))
  simp only [List.mem_cons, List.not_mem_nil, or_false] at hmem
  obtain rfl | rfl | rfl := hmem
  · trivial
  · trivial
  · trivial

end PolandOS.E1000
