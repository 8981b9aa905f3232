import Mathlib.Algebra.Group.Int.Defs
import Mathlib.Algebra.Group.Nat.Defs
import Mathlib.Data.List.Infix
import PolandOS.Lib.Traces

/-! # The mouse

`mouse_irq_handler` of `kernel/drivers/mouse.c` and what it makes of the bytes of a mouse.
`follows_iff`: the pointer goes as the packets say as long as no packet moves by 128 or more
to the right or upwards, and the sums stay in the range of `i32`.
-/

namespace PolandOS.Mouse

open Logging

/-! ## The driver -/

/-- `MouseState`. -/
structure MouseState where
  x : Int32
  y : Int32
  left : Bool
  right : Bool
  middle : Bool
  deriving DecidableEq, Repr

/-- The variables of the driver. -/
structure Driver where
  mouseX : Int32
  mouseY : Int32
  mouseLeft : Bool
  mouseRight : Bool
  mouseMid : Bool
  mouseEventPending : Bool
  mouseLastEvent : MouseState
  mouseCycle : UInt8
  mouseBytes : UInt8 → Int8
  screenW : Int32
  screenH : Int32

/-- `mouse_init`, as far as the variables go, with the size of the framebuffer. -/
def mouseInit (width height : Int32) : Driver where
  mouseX := width / 2
  mouseY := height / 2
  mouseLeft := false
  mouseRight := false
  mouseMid := false
  mouseEventPending := false
  mouseLastEvent := ⟨0, 0, false, false, false⟩
  mouseCycle := 0
  mouseBytes := fun _ => 0
  screenW := width
  screenH := height

/-- `dx` or `dy`, with its sign bit of the flags. -/
def extend (sign : Bool) (byte : Int8) : Int32 :=
  if sign then byte.toInt32 ||| (0xFFFFFF00 : UInt32).toInt32 else byte.toInt32

/-- The bounds of the screen in one direction. -/
def clamp (screen v : Int32) : Int32 :=
  let v := if v < 0 then 0 else v
  if screen > 0 ∧ v ≥ screen then screen - 1 else v

/-- The third case of the switch: a packet is complete. -/
def completePacket (s : Driver) : Driver :=
  let s := { s with mouseCycle := 0 }
  let flags := (s.mouseBytes 0).toUInt8
  let dx := extend (flags &&& 0x10 != 0) (s.mouseBytes 1)
  let dy := extend (flags &&& 0x20 != 0) (s.mouseBytes 2)
  if flags &&& 0xC0 ≠ 0 then s
  else
    let x := clamp s.screenW (s.mouseX + dx)
    let y := clamp s.screenH (s.mouseY - dy)
    let left := flags &&& 0x01 != 0
    let right := flags &&& 0x02 != 0
    let mid := flags &&& 0x04 != 0
    { s with
      mouseX := x
      mouseY := y
      mouseLeft := left
      mouseRight := right
      mouseMid := mid
      mouseLastEvent := ⟨x, y, left, right, mid⟩
      mouseEventPending := true }

/-- `mouse_irq_handler`, with what the status port and the data port give. -/
def mouseIrqHandler (s : Driver) (status port : UInt8) : Driver :=
  if status &&& 0x20 = 0 then s
  else
    let data := port.toInt8
    let s := { s with mouseBytes := Function.update s.mouseBytes s.mouseCycle data }
    if s.mouseCycle = 0 then
      if data &&& 0x08 = 0 then { s with mouseCycle := 0 } else { s with mouseCycle := 1 }
    else if s.mouseCycle = 1 then { s with mouseCycle := 2 }
    else if s.mouseCycle = 2 then completePacket s
    else s

/-- `mouse_get_state`. -/
def mouseGetState (s : Driver) : MouseState :=
  ⟨s.mouseX, s.mouseY, s.mouseLeft, s.mouseRight, s.mouseMid⟩

/-- `mouse_poll_event`. -/
def mousePollEvent (s : Driver) : Option MouseState × Driver :=
  if !s.mouseEventPending then (none, s)
  else (some s.mouseLastEvent, { s with mouseEventPending := false })

/-! ## Packets -/

/-- Three bytes of a mouse. -/
structure Packet where
  flags : UInt8
  xByte : UInt8
  yByte : UInt8
  deriving DecidableEq, Repr

/-- The packets among the bytes. -/
def packets : List UInt8 → List Packet
  | [] => []
  | b₀ :: bytes =>
    if b₀ &&& 0x08 = 0 then packets bytes
    else match bytes with
      | b₁ :: b₂ :: rest => ⟨b₀, b₁, b₂⟩ :: packets rest
      | _ => []

/-- A number of nine bits in two's complement. -/
def signed (sign : Bool) (byte : UInt8) : Int := byte.toNat - if sign then 256 else 0

namespace Packet

variable (k : Packet)

/-- A bit of overflow is set. -/
def Overflows : Prop := k.flags &&& 0xC0 ≠ 0

instance : Decidable k.Overflows := inferInstanceAs (Decidable (_ ≠ _))

/-- The signs. -/
def xSign : Bool := k.flags &&& 0x10 != 0

def ySign : Bool := k.flags &&& 0x20 != 0

/-- How far to the right. -/
def dx : Int := signed k.xSign k.xByte

/-- How far upwards. -/
def dy : Int := signed k.ySign k.yByte

end Packet

/-- The nearest place on a side of the screen. -/
def nearest (size v : Int) : Int := max 0 (min v (size - 1))

/-- Where the pointer is to go. -/
def move (w h : Int32) (p : Int × Int) (k : Packet) : Int × Int :=
  if k.Overflows then p
  else (nearest w.toInt (p.1 + k.dx), nearest h.toInt (p.2 - k.dy))

/-- Where it is. -/
def Driver.pointer (s : Driver) : Int × Int := (s.mouseX.toInt, s.mouseY.toInt)

/-- A place on the screen. -/
def OnScreen (w h : Int32) (p : Int × Int) : Prop :=
  (0 ≤ p.1 ∧ p.1 < w.toInt) ∧ 0 ≤ p.2 ∧ p.2 < h.toInt

instance (w h : Int32) (p : Int × Int) : Decidable (OnScreen w h p) :=
  inferInstanceAs (Decidable (_ ∧ _))

/-- A byte that is delivered with the bit of the mouse in the status port. -/
structure MouseByte where
  status : UInt8
  data : UInt8
  fromMouse : status &&& 0x20 ≠ 0

/-- The interrupts of some bytes. -/
def deliver (s : Driver) (bytes : List MouseByte) : Driver :=
  bytes.foldl (fun s b => mouseIrqHandler s b.status b.data) s

/-- The pointer of the driver, from this state on, is on the screen and where the packets lead
from `p`. -/
def FollowsFrom (w h : Int32) (s : Driver) (p : Int × Int) (bytes : List MouseByte) : Prop :=
  (deliver s bytes).pointer = (packets (bytes.map MouseByte.data)).foldl (move w h) p ∧
    OnScreen w h (deliver s bytes).pointer

/-- The same from the beginning on. -/
def Follows (w h : Int32) (bytes : List MouseByte) : Prop :=
  FollowsFrom w h (mouseInit w h) (mouseInit w h).pointer bytes

instance (w h : Int32) (s : Driver) (p : Int × Int) (bytes : List MouseByte) :
    Decidable (FollowsFrom w h s p bytes) := inferInstanceAs (Decidable (_ ∧ _))

instance (w h : Int32) (bytes : List MouseByte) : Decidable (Follows w h bytes) :=
  inferInstanceAs (Decidable (FollowsFrom _ _ _ _ _))

/-- The sign bit does not disagree with the highest bit of the byte. -/
def Extends (sign : Bool) (byte : UInt8) : Prop := sign = true ∨ byte.toNat < 128

instance (sign : Bool) (byte : UInt8) : Decidable (Extends sign byte) :=
  inferInstanceAs (Decidable (_ ∨ _))

/-- A packet that is understood at a place: on a screen that is wider than one pixel, a move
to the right is below 128 and does not leave the range of `i32`; and in the same way a move
upwards or downwards. -/
def Understood (w h : Int32) (p : Int × Int) (k : Packet) : Prop :=
  k.Overflows ∨
    (w.toInt = 1 ∨ Extends k.xSign k.xByte ∧ p.1 + k.dx < 2 ^ 31) ∧
      (h.toInt = 1 ∨ Extends k.ySign k.yByte ∧ p.2 - k.dy < 2 ^ 31)

instance (w h : Int32) (p : Int × Int) (k : Packet) : Decidable (Understood w h p k) :=
  inferInstanceAs (Decidable (_ ∨ _ ∧ _))

/-! ## One packet -/

variable {w h : Int32} {s : Driver} {k : Packet}

theorem toInt_range (a : Int32) : -2 ^ 31 ≤ a.toInt ∧ a.toInt < 2 ^ 31 := ⟨a.le_toInt, a.toInt_lt⟩

/-- A byte whose highest bit is set is negative for the driver. -/
theorem toInt_extend (sign : Bool) (byte : UInt8) :
    (extend sign byte.toInt8).toInt = signed sign byte - if Extends sign byte then 0 else 256 := by
  have hall : ∀ sign, ∀ n < 256, (extend sign (UInt8.ofNat n).toInt8).toInt =
      signed sign (UInt8.ofNat n) - if Extends sign (UInt8.ofNat n) then 0 else 256 := by
    decide +kernel
  have hbyte := hall sign byte.toNat byte.toNat_lt
  rwa [UInt8.ofNat_toNat] at hbyte

theorem signed_range (sign : Bool) (byte : UInt8) :
    -256 ≤ signed sign byte ∧ signed sign byte < 256 ∧
      (¬Extends sign byte → 128 ≤ signed sign byte) := by
  have hlt := byte.toNat_lt
  unfold signed Extends
  cases sign with
  | true =>
      simp only [if_true]
      exact ⟨by omega, by omega, fun h => absurd (.inl trivial) h⟩
  | false =>
      simp only [Bool.false_eq_true, if_false, false_or]
      exact ⟨by omega, by omega, fun h => by omega⟩

theorem toInt_clamp {size v : Int32} (hsize : 0 < size.toInt) :
    (clamp size v).toInt = nearest size.toInt v.toInt := by
  have hrange := toInt_range size
  have hzero : (0 : Int32).toInt = 0 := rfl
  have hone : (1 : Int32).toInt = 1 := rfl
  have hsub : (size - 1).toInt = size.toInt - 1 := by
    rw [Int32.toInt_sub, hone, Int.bmod_eq_of_le (by omega) (by omega)]
  unfold clamp nearest
  simp only [gt_iff_lt, ge_iff_le, Int32.lt_iff_toInt_lt, Int32.le_iff_toInt_le, hzero]
  by_cases hneg : v.toInt < 0
  · rw [if_pos hneg, if_neg (by omega), hzero]
    omega
  · rw [if_neg hneg]
    split
    · rw [hsub]
      omega
    · omega

/-- A side of the screen: the pointer goes by `e` where it should go by `d`. -/
theorem nearest_bmod_iff {size p d e : Int} (hp : 0 ≤ p) (hlt : p < size) (hsize : size < 2 ^ 31)
    (he : e = d ∧ -256 ≤ d ∧ d ≤ 256 ∨ 128 ≤ d ∧ d < 256 ∧ e = d - 256 ∨
      d ≤ -128 ∧ -256 < d ∧ e = d + 256) :
    nearest size ((p + e).bmod (2 ^ 32)) = nearest size (p + d) ↔
      size = 1 ∨ e = d ∧ p + d < 2 ^ 31 := by
  unfold nearest
  -- a sum beyond the range of `i32` is negative
  by_cases hover : p + e < 2 ^ 31
  · rw [Int.bmod_eq_of_le (by omega) (by omega)]
    omega
  · have hbmod : (p + e).bmod (2 ^ 32) = p + e - 2 ^ 32 := by
      rw [Int.bmod_def]
      omega
    rw [hbmod]
    omega

theorem xAxis_iff {pos : Int32} (sign : Bool) (byte : UInt8) (hpos : 0 ≤ pos.toInt)
    (hlt : pos.toInt < w.toInt) :
    (clamp w (pos + extend sign byte.toInt8)).toInt =
        nearest w.toInt (pos.toInt + signed sign byte) ↔
      w.toInt = 1 ∨ Extends sign byte ∧ pos.toInt + signed sign byte < 2 ^ 31 := by
  have hw := toInt_range w
  rcases signed_range sign byte with ⟨hlow, hhigh, hbig⟩
  rw [toInt_clamp (by omega), Int32.toInt_add, toInt_extend]
  by_cases hext : Extends sign byte
  · rw [if_pos hext, nearest_bmod_iff hpos hlt hw.2 (by omega)]
    simp only [hext, Int.sub_zero, true_and]
  · have hge := hbig hext
    rw [if_neg hext, nearest_bmod_iff hpos hlt hw.2 (by omega)]
    simp only [hext, false_and, or_false]
    omega

theorem yAxis_iff {pos : Int32} (sign : Bool) (byte : UInt8) (hpos : 0 ≤ pos.toInt)
    (hlt : pos.toInt < h.toInt) :
    (clamp h (pos - extend sign byte.toInt8)).toInt =
        nearest h.toInt (pos.toInt - signed sign byte) ↔
      h.toInt = 1 ∨ Extends sign byte ∧ pos.toInt - signed sign byte < 2 ^ 31 := by
  have hh := toInt_range h
  rcases signed_range sign byte with ⟨hlow, hhigh, hbig⟩
  have hneg : ∀ a b : Int, a - b = a + -b := fun a b => Int.sub_eq_add_neg
  rw [toInt_clamp (by omega), Int32.toInt_sub, toInt_extend, hneg, hneg pos.toInt]
  by_cases hext : Extends sign byte
  · rw [if_pos hext, nearest_bmod_iff hpos hlt hh.2 (by omega)]
    simp only [hext, Int.sub_zero, true_and]
  · have hge := hbig hext
    rw [if_neg hext, nearest_bmod_iff hpos hlt hh.2 (by omega)]
    simp only [hext, false_and, or_false]
    omega

/-- The driver on the screen, where a packet is to begin. -/
structure Ready (w h : Int32) (s : Driver) : Prop where
  cycle : s.mouseCycle = 0
  width : s.screenW = w
  height : s.screenH = h
  onScreen : OnScreen w h s.pointer

theorem toInt8_and_eight (b : UInt8) : b.toInt8 &&& 0x08 = 0 ↔ b &&& 0x08 = 0 := by
  have hall : ∀ n < 256, (UInt8.ofNat n).toInt8 &&& 0x08 = 0 ↔ UInt8.ofNat n &&& 0x08 = 0 := by
    decide +kernel
  have hb := hall b.toNat b.toNat_lt
  rwa [UInt8.ofNat_toNat] at hb

theorem irq_first (hs : s.mouseCycle = 0) (b : MouseByte) :
    mouseIrqHandler s b.status b.data =
      { s with
        mouseBytes := Function.update s.mouseBytes 0 b.data.toInt8
        mouseCycle := if b.data &&& 0x08 = 0 then 0 else 1 } := by
  unfold mouseIrqHandler
  simp only [b.fromMouse, hs, if_false, if_true, toInt8_and_eight]
  split <;> rfl

theorem irq_second (hs : s.mouseCycle = 1) (b : MouseByte) :
    mouseIrqHandler s b.status b.data =
      { s with
        mouseBytes := Function.update s.mouseBytes 1 b.data.toInt8
        mouseCycle := 2 } := by
  have hne : (1 : UInt8) ≠ 0 := by decide
  unfold mouseIrqHandler
  simp only [b.fromMouse, hs, hne, if_false, if_true]

theorem irq_third (hs : s.mouseCycle = 2) (b : MouseByte) :
    mouseIrqHandler s b.status b.data =
      completePacket { s with mouseBytes := Function.update s.mouseBytes 2 b.data.toInt8 } := by
  have hzero : (2 : UInt8) ≠ 0 := by decide
  have hone : (2 : UInt8) ≠ 1 := by decide
  unfold mouseIrqHandler
  simp only [b.fromMouse, hs, hzero, hone, if_false, if_true]

theorem completePacket_frame (s : Driver) :
    (completePacket s).mouseCycle = 0 ∧ (completePacket s).screenW = s.screenW ∧
      (completePacket s).screenH = s.screenH := by
  unfold completePacket
  dsimp only
  split <;> exact ⟨rfl, rfl, rfl⟩

theorem completePacket_pointer (hflags : s.mouseBytes 0 = k.flags.toInt8)
    (hx : s.mouseBytes 1 = k.xByte.toInt8) (hy : s.mouseBytes 2 = k.yByte.toInt8) :
    (completePacket s).pointer =
      if k.Overflows then s.pointer
      else ((clamp s.screenW (s.mouseX + extend k.xSign k.xByte.toInt8)).toInt,
        (clamp s.screenH (s.mouseY - extend k.ySign k.yByte.toInt8)).toInt) := by
  unfold completePacket
  simp only [hflags, hx, hy, UInt8.toUInt8_toInt8]
  by_cases hover : k.Overflows
  · have hbits : k.flags &&& 0xC0 ≠ 0 := hover
    rw [if_pos hbits, if_pos hover]
    rfl
  · have hbits : ¬k.flags &&& 0xC0 ≠ 0 := hover
    rw [if_neg hbits, if_neg hover]
    rfl

/-- A packet takes the pointer along exactly if it is understood. -/
theorem Ready.packet (hs : Ready w h s) {b₀ : MouseByte} (b₁ b₂ : MouseByte)
    (hfirst : b₀.data &&& 0x08 ≠ 0) :
    (deliver s [b₀, b₁, b₂]).mouseCycle = 0 ∧ (deliver s [b₀, b₁, b₂]).screenW = w ∧
      (deliver s [b₀, b₁, b₂]).screenH = h ∧
      ((deliver s [b₀, b₁, b₂]).pointer = move w h s.pointer ⟨b₀.data, b₁.data, b₂.data⟩ ↔
        Understood w h s.pointer ⟨b₀.data, b₁.data, b₂.data⟩) := by
  rcases hs with ⟨hcycle, rfl, rfl, hon⟩
  have hdeliver : deliver s [b₀, b₁, b₂] = completePacket
      { s with
        mouseBytes := Function.update (Function.update (Function.update s.mouseBytes
          0 b₀.data.toInt8) 1 b₁.data.toInt8) 2 b₂.data.toInt8
        mouseCycle := 2 } := by
    unfold deliver
    rw [List.foldl_cons, irq_first hcycle, if_neg hfirst, List.foldl_cons, irq_second rfl,
      List.foldl_cons, irq_third rfl, List.foldl_nil]
  rw [hdeliver]
  refine ⟨(completePacket_frame _).1, (completePacket_frame _).2.1, (completePacket_frame _).2.2,
    ?_⟩
  rw [completePacket_pointer (k := ⟨b₀.data, b₁.data, b₂.data⟩) rfl rfl rfl]
  unfold move Understood
  by_cases hover : Packet.Overflows ⟨b₀.data, b₁.data, b₂.data⟩
  · rw [if_pos hover, if_pos hover]
    exact ⟨fun _ => .inl hover, fun _ => rfl⟩
  · rw [if_neg hover, if_neg hover, Prod.mk.injEq]
    have hx := xAxis_iff (Packet.xSign ⟨b₀.data, b₁.data, b₂.data⟩) b₁.data hon.1.1 hon.1.2
    have hy := yAxis_iff (Packet.ySign ⟨b₀.data, b₁.data, b₂.data⟩) b₂.data hon.2.1 hon.2.2
    simp only [hover, false_or]
    exact and_congr hx hy

theorem nearest_mem {size v : Int} (hsize : 0 < size) :
    0 ≤ nearest size v ∧ nearest size v < size := by
  unfold nearest
  omega

theorem onScreen_move {p : Int × Int} (hp : OnScreen w h p) : OnScreen w h (move w h p k) := by
  have hw : 0 < w.toInt := Int.lt_of_le_of_lt hp.1.1 hp.1.2
  have hh : 0 < h.toInt := Int.lt_of_le_of_lt hp.2.1 hp.2.2
  unfold move
  split
  · exact hp
  · exact ⟨nearest_mem hw, nearest_mem hh⟩

/-- An event that waits is the state of the mouse. -/
def EventCurrent (s : Driver) : Prop :=
  s.mouseEventPending = true → s.mouseLastEvent = mouseGetState s

theorem EventCurrent.irq (hs : EventCurrent s) (status port : UInt8) :
    EventCurrent (mouseIrqHandler s status port) := by
  unfold mouseIrqHandler
  dsimp only
  split_ifs
  · exact hs
  · exact hs
  · exact hs
  · exact hs
  · -- only a packet without overflow brings a new event, with the new state
    unfold completePacket
    dsimp only
    split
    · exact hs
    · exact fun _ => rfl
  · exact hs

theorem EventCurrent.poll (hs : EventCurrent s) :
    EventCurrent (mousePollEvent s).2 ∧
      ∀ e, (mousePollEvent s).1 = some e → e = mouseGetState (mousePollEvent s).2 := by
  unfold mousePollEvent
  cases hpending : s.mouseEventPending with
  | false => exact ⟨hs, fun e he => nomatch he⟩
  | true =>
      refine ⟨fun h => (nomatch h), fun e he => ?_⟩
      rw [← Option.some.inj he]
      exact hs hpending

/-! ## All of them -/

variable {b₀ b₁ b₂ : MouseByte} {bytes : List MouseByte}

theorem packets_skip (hfirst : b₀.data &&& 0x08 = 0) :
    packets ((b₀ :: bytes).map MouseByte.data) = packets (bytes.map MouseByte.data) := by
  rw [List.map_cons]
  conv_lhs => unfold packets
  exact if_pos hfirst

theorem packets_short (hfirst : b₀.data &&& 0x08 ≠ 0) (hlen : bytes.length < 2) :
    packets ((b₀ :: bytes).map MouseByte.data) = [] := by
  rw [List.map_cons]
  unfold packets
  rw [if_neg hfirst]
  match bytes, hlen with
  | [], _ => rfl
  | [_], _ => rfl

theorem packets_full (hfirst : b₀.data &&& 0x08 ≠ 0) :
    packets ((b₀ :: b₁ :: b₂ :: bytes).map MouseByte.data) =
      ⟨b₀.data, b₁.data, b₂.data⟩ :: packets (bytes.map MouseByte.data) := by
  rw [List.map_cons]
  conv_lhs => unfold packets
  exact if_neg hfirst

theorem Ready.followsFrom_nil (hs : Ready w h s) : FollowsFrom w h s s.pointer [] :=
  ⟨rfl, hs.onScreen⟩

/-- A byte that is no first one leaves the pointer alone. -/
theorem Ready.skip (hs : Ready w h s) (hfirst : b₀.data &&& 0x08 = 0) :
    Ready w h (mouseIrqHandler s b₀.status b₀.data) ∧
      (mouseIrqHandler s b₀.status b₀.data).pointer = s.pointer := by
  have hskip := irq_first hs.cycle b₀
  rw [if_pos hfirst] at hskip
  rw [hskip]
  exact ⟨⟨rfl, hs.width, hs.height, hs.onScreen⟩, rfl⟩

/-- So do the first two bytes of a packet. -/
theorem Ready.begun (hs : Ready w h s) (hfirst : b₀.data &&& 0x08 ≠ 0)
    (hlen : bytes.length < 2) : FollowsFrom w h s s.pointer (b₀ :: bytes) := by
  have hone := irq_first hs.cycle b₀
  rw [if_neg hfirst] at hone
  have hpointer : (deliver s (b₀ :: bytes)).pointer = s.pointer := by
    unfold deliver
    rw [List.foldl_cons, hone]
    match bytes, hlen with
    | [], _ => rfl
    | [b₁], _ =>
        rw [List.foldl_cons, irq_second rfl]
        rfl
  unfold FollowsFrom
  rw [packets_short hfirst hlen, hpointer]
  exact ⟨rfl, hs.onScreen⟩

/-- Between packets: the pointer follows the bytes exactly if every packet, one after the
other, is understood. -/
theorem Ready.followsFrom_iff (hs : Ready w h s) (bytes : List MouseByte) :
    (∀ p, p <+: bytes → FollowsFrom w h s s.pointer p) ↔
      Along (move w h) (Understood w h) s.pointer (packets (bytes.map MouseByte.data)) := by
  induction hn : bytes.length using Nat.strong_induction_on generalizing bytes s with
  | _ n ih =>
  match bytes with
  | [] =>
      refine ⟨fun _ => trivial, fun _ p hp => ?_⟩
      rw [List.prefix_nil.mp hp]
      exact hs.followsFrom_nil
  | b₀ :: bytes =>
      rw [List.length_cons] at hn
      rw [forall_prefix_cons]
      by_cases hfirst : b₀.data &&& 0x08 = 0
      · rcases hs.skip hfirst with ⟨hready, hpointer⟩
        have hrest := ih bytes.length (by omega) hready bytes rfl
        have hfollows : ∀ p, FollowsFrom w h s s.pointer (b₀ :: p) ↔
            FollowsFrom w h (mouseIrqHandler s b₀.status b₀.data) s.pointer p := fun p => by
          unfold FollowsFrom
          rw [packets_skip hfirst]
          rfl
        rw [hpointer] at hrest
        simp only [hfollows, hs.followsFrom_nil, true_and, packets_skip hfirst]
        exact hrest
      by_cases hlen : bytes.length < 2
      · rw [packets_short hfirst hlen]
        refine ⟨fun _ => trivial, fun _ => ⟨hs.followsFrom_nil, fun p hp => ?_⟩⟩
        exact hs.begun hfirst (Nat.lt_of_le_of_lt hp.length_le hlen)
      · match bytes with
        | [] => exact absurd Nat.zero_lt_two hlen
        | [_] => exact absurd Nat.one_lt_two hlen
        | b₁ :: b₂ :: rest =>
            rcases hs.packet b₁ b₂ hfirst with ⟨hcycle, hw, hh, hmove⟩
            have hfollows : ∀ p, FollowsFrom w h s s.pointer (b₀ :: b₁ :: b₂ :: p) ↔
                FollowsFrom w h (deliver s [b₀, b₁, b₂])
                  (move w h s.pointer ⟨b₀.data, b₁.data, b₂.data⟩) p := fun p => by
              unfold FollowsFrom
              rw [packets_full hfirst]
              rfl
            have hone : FollowsFrom w h s s.pointer [b₀] := hs.begun hfirst Nat.zero_lt_two
            have htwo : FollowsFrom w h s s.pointer [b₀, b₁] := hs.begun hfirst Nat.one_lt_two
            rw [forall_prefix_cons, forall_prefix_cons, packets_full hfirst, along_cons, ← hmove]
            simp only [hfollows, hs.followsFrom_nil, hone, htwo, true_and]
            -- the packet has to be understood for the empty prefix of the rest
            have hready : (deliver s [b₀, b₁, b₂]).pointer =
                move w h s.pointer ⟨b₀.data, b₁.data, b₂.data⟩ →
                  Ready w h (deliver s [b₀, b₁, b₂]) := fun heq =>
              ⟨hcycle, hw, hh, by rw [heq]; exact onScreen_move hs.onScreen⟩
            have hlt : rest.length < n := by
              rw [List.length_cons, List.length_cons] at hn
              omega
            constructor
            · intro hall
              have heq := (hall [] List.nil_prefix).1
              have hrest := ih rest.length hlt (hready heq) rest rfl
              refine ⟨heq, ?_⟩
              change (deliver s [b₀, b₁, b₂]).pointer = _ at heq
              rw [heq] at hrest
              exact hrest.mp hall
            · rintro ⟨heq, hall⟩
              have hrest := ih rest.length hlt (hready heq) rest rfl
              rw [heq] at hrest
              exact hrest.mpr hall

theorem ready_mouseInit (hw : 0 < w.toInt) (hh : 0 < h.toInt) : Ready w h (mouseInit w h) := by
  have half : ∀ a : Int32, 0 < a.toInt → 0 ≤ (a / 2).toInt ∧ (a / 2).toInt < a.toInt := by
    intro a ha
    have hrange := toInt_range a
    have htwo : (2 : Int32).toInt = 2 := rfl
    rw [Int32.toInt_div, htwo, Int.tdiv_eq_ediv_of_nonneg (by omega),
      Int.bmod_eq_of_le (by omega) (by omega)]
    omega
  exact ⟨rfl, rfl, rfl, half w hw, half h hh⟩

/-- For every size of the screen and all bytes, the pointer is where the packets say, and on
the screen, exactly if there is a screen and the packets are understood. -/
theorem follows_iff (w h : Int32) (bytes : List MouseByte) :
    (∀ p, p <+: bytes → Follows w h p) ↔
      0 < w.toInt ∧ 0 < h.toInt ∧
        Along (move w h) (Understood w h) (mouseInit w h).pointer
          (packets (bytes.map MouseByte.data)) := by
  constructor
  · intro hall
    have hon := (hall [] List.nil_prefix).2
    have hw : 0 < w.toInt := Int.lt_of_le_of_lt hon.1.1 hon.1.2
    have hh : 0 < h.toInt := Int.lt_of_le_of_lt hon.2.1 hon.2.2
    exact ⟨hw, hh, ((ready_mouseInit hw hh).followsFrom_iff bytes).mp hall⟩
  · rintro ⟨hw, hh, halong⟩
    exact ((ready_mouseInit hw hh).followsFrom_iff bytes).mpr halong

/-- A byte with nothing but the bit of the mouse in the status port. -/
def mouseByte (data : UInt8) : MouseByte := ⟨0x20, data, by decide⟩

/-- On a screen of 1024 by 768 pixels the mouse is moved to the right by 200, and the pointer
goes to the left. -/
theorem moved_right_goes_left :
    ¬Follows 1024 768 [mouseByte 0x08, mouseByte 200, mouseByte 0] ∧
      (deliver (mouseInit 1024 768) [mouseByte 0x08, mouseByte 200, mouseByte 0]).pointer =
        (456, 384) ∧
      move 1024 768 (512, 384) ⟨0x08, 200, 0⟩ = (712, 384) := by
  decide

end PolandOS.Mouse
