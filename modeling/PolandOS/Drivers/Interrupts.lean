import PolandOS.Drivers.KeyUnits
import PolandOS.Drivers.Mouse
import PolandOS.Lib.Staged

/-! # Interrupts

`isr_common_handler` of `kernel/arch/x86_64/cpu/idt.c` and the handlers that the kernel
registers. `acknowledged_iff`: every interrupt of a device is acknowledged once, and nothing
else is, as long as neither the HPET nor the network card is served and no spurious interrupt
comes.
-/

namespace PolandOS.Interrupts

open Keyboard Mouse Staging Staged Logging

/-! ## The handlers -/

/-- The handlers that are registered. -/
inductive Isr
  | hpet
  | keyboard
  | mouse
  | e1000
  | generalProtection
  | pageFault
  deriving DecidableEq, Repr

/-- `HPET_VECTOR`, `KB_IRQ_VECTOR`, `MOUSE_IRQ_VECTOR`, `E1000_IRQ_VECTOR` and the vectors of
`kmain`. -/
def Isr.vector : Isr → UInt8
  | hpet => 0x22
  | keyboard => 33
  | mouse => 44
  | e1000 => 0x2B
  | generalProtection => 13
  | pageFault => 14

/-- An interrupt: its vector, and what the devices answer when they are asked. -/
structure Interrupt where
  vec : UInt8
  scancode : UInt8
  mouseStatus : UInt8
  mouseData : UInt8
  e1000Icr : UInt32
  e1000Status : UInt32
  deriving DecidableEq, Repr

/-- The calls of `kpanic`, from which nothing returns. -/
inductive Panic
  | exception (vec : UInt8)
  | generalProtection
  | pageFault
  deriving DecidableEq, Repr

/-- `handlers` of `idt.c`, what the drivers keep, and what is written to the HPET and to the
LAPIC: register and value. -/
structure Machine where
  handlers : UInt8 → Option Isr
  kernelTicks : UInt64
  kb : KbState
  mouse : Mouse.Driver
  printed : List String
  hpet : List (UInt32 × UInt64)
  lapic : List (UInt32 × UInt32)

/-- `LAPIC_EOI`. -/
def lapicEoi : UInt32 := 0x0B0

/-- `HPET_GIST`. -/
def hpetGist : UInt32 := 0x020

/-- `E1000_ICR_LSC`, bit 2. -/
def e1000IcrLsc : UInt32 := 0x04

/-- `lapic_write`. -/
def lapicWrite (reg val : UInt32) : Staged Panic Machine Unit :=
  modify fun s => { s with lapic := s.lapic ++ [(reg, val)] }

/-- `apic_send_eoi`. -/
def apicSendEoi : Staged Panic Machine Unit := lapicWrite lapicEoi 0

/-- `hpet_irq_handler`. -/
def hpetIrqHandler : Staged Panic Machine Unit := do
  modify fun s => { s with kernelTicks := s.kernelTicks + 1 }
  modify fun s => { s with hpet := s.hpet ++ [(hpetGist, 1)] }
  apicSendEoi

/-- `e1000_irq_handler`. -/
def e1000IrqHandler (x : Interrupt) : Staged Panic Machine Unit := do
  if x.e1000Icr &&& e1000IcrLsc ≠ 0 then
    let link := if x.e1000Status &&& 2 ≠ 0 then "UP" else "DOWN"
    modify fun s => { s with printed := s.printed ++ ["[e1000] Link " ++ link ++ "\n"] }
  apicSendEoi

/-- What a handler does. -/
def Isr.handle (x : Interrupt) : Isr → Staged Panic Machine Unit
  | hpet => hpetIrqHandler
  | keyboard => modify fun s => { s with kb := kbIrqHandler s.kb x.scancode }
  | mouse => modify fun s => { s with mouse := mouseIrqHandler s.mouse x.mouseStatus x.mouseData }
  | e1000 => e1000IrqHandler x
  | generalProtection => leave .generalProtection
  | pageFault => leave .pageFault

/-- `isr_common_handler`. -/
def isrCommonHandler (x : Interrupt) : Staged Panic Machine Unit := do
  let s ← get
  if x.vec < 32 then
    match s.handlers x.vec with
    | some h => h.handle x
    | none => leave (.exception x.vec)
  else
    match s.handlers x.vec with
    | some h => h.handle x
    | none => pure ()
    apicSendEoi

/-- `idt_register_handler`. -/
def idtRegisterHandler (s : Machine) (vector : UInt8) (h : Isr) : Machine :=
  { s with handlers := Function.update s.handlers vector (some h) }

/-- Behind `idt_init`. -/
def idtInit (kb : KbState) (mouse : Mouse.Driver) : Machine :=
  ⟨fun _ => none, 0, kb, mouse, [], [], []⟩

/-! ## Runs -/

/-- A driver registers its handler, or an interrupt comes. -/
inductive Event
  | register (h : Isr)
  | interrupt (x : Interrupt)
  deriving DecidableEq, Repr

/-- The machine, with the panic that has stopped it, and the number of the interrupts of
devices that have been taken. -/
structure Kernel where
  machine : Machine
  panic : Option Panic
  devices : Nat

/-- The vectors of devices. `0xFF` is the one of the spurious interrupt. -/
def FromDevice (vec : UInt8) : Prop := 32 ≤ vec ∧ vec ≠ 0xFF

instance (vec : UInt8) : Decidable (FromDevice vec) := inferInstanceAs (Decidable (_ ∧ _))

/-- The panic of a computation that has been left. -/
def panicOf : Except Panic Unit → Option Panic
  | .ok () => none
  | .error k => some k

namespace Kernel

/-- One event. Nothing happens behind a panic. -/
def step (s : Kernel) : Event → Kernel
  | .register h => { s with machine := idtRegisterHandler s.machine h.vector h }
  | .interrupt x =>
    if s.panic.isSome then s
    else
      let (r, machine) := isrCommonHandler x s.machine
      ⟨machine, panicOf r, s.devices + if FromDevice x.vec then 1 else 0⟩

/-- The writes to the EOI register. -/
def eois (s : Kernel) : Nat := s.machine.lapic.countP fun w => w.1 = lapicEoi

/-- An interrupt of a device causes exactly one write to the EOI register, and every other
event none. -/
def OneEoi (s : Kernel) : Event → Prop
  | .register h => (s.step (.register h)).eois = s.eois
  | .interrupt x => s.panic = none →
      (s.step (.interrupt x)).eois = s.eois + if FromDevice x.vec then 1 else 0

/-- The interrupt is not spurious, and its handler leaves the acknowledgement to the common
one. -/
def LeftToCommon (s : Kernel) : Event → Prop
  | .register _ => True
  | .interrupt x => s.panic = none → x.vec ≠ 0xFF ∧ s.machine.handlers x.vec ≠ some .hpet ∧
      s.machine.handlers x.vec ≠ some .e1000

instance (s : Kernel) : ∀ e, Decidable (s.OneEoi e)
  | .register _ => inferInstanceAs (Decidable (_ = _))
  | .interrupt _ => inferInstanceAs (Decidable (_ → _))

instance (s : Kernel) : ∀ e, Decidable (s.LeftToCommon e)
  | .register _ => inferInstanceAs (Decidable True)
  | .interrupt _ => inferInstanceAs (Decidable (_ → _))

end Kernel

/-- The first state of the system. -/
def boot (kb : KbState) (mouse : Mouse.Driver) : Kernel := ⟨idtInit kb mouse, none, 0⟩

/-! ## The writes of a dispatch -/

variable {x : Interrupt} {m : Machine}

/-- Each handler is where it has been registered. -/
def Registered (m : Machine) : Prop := ∀ vec h, m.handlers vec = some h → vec = h.vector

theorem Registered.register (hm : Registered m) (h : Isr) :
    Registered (idtRegisterHandler m h.vector h) := by
  intro vec h' hsome
  change Function.update m.handlers h.vector (some h) vec = some h' at hsome
  by_cases hvec : vec = h.vector
  · subst hvec
    rw [Function.update_self] at hsome
    cases hsome
    rfl
  · rw [Function.update_of_ne hvec] at hsome
    exact hm vec h' hsome

/-- The writes to the EOI register that a handler makes itself. -/
def Isr.ownEoi : Isr → List (UInt32 × UInt32)
  | hpet => [(lapicEoi, 0)]
  | e1000 => [(lapicEoi, 0)]
  | _ => []

/-- What a dispatch writes to the LAPIC. -/
def dispatchWrites (m : Machine) (x : Interrupt) : List (UInt32 × UInt32) :=
  ((m.handlers x.vec).map Isr.ownEoi).getD [] ++ if x.vec < 32 then [] else [(lapicEoi, 0)]

/-- What a computation writes, whether it returns or not, and that it keeps the handlers. -/
def Writes (y : Staged Panic Machine Unit) (m : Machine) (ws : List (UInt32 × UInt32)) : Prop :=
  (y m).2.lapic = m.lapic ++ ws ∧ (y m).2.handlers = m.handlers

theorem writes_handle (h : Isr) (x : Interrupt) (m : Machine) :
    Writes (h.handle x) m h.ownEoi := by
  cases h with
  | hpet => exact ⟨rfl, rfl⟩
  | e1000 =>
      unfold Isr.handle e1000IrqHandler
      by_cases hlink : x.e1000Icr &&& e1000IcrLsc ≠ 0
      · rw [if_pos hlink]
        exact ⟨rfl, rfl⟩
      · rw [if_neg hlink]
        exact ⟨rfl, rfl⟩
  | keyboard => exact ⟨(List.append_nil _).symm, rfl⟩
  | mouse => exact ⟨(List.append_nil _).symm, rfl⟩
  | generalProtection => exact ⟨(List.append_nil _).symm, rfl⟩
  | pageFault => exact ⟨(List.append_nil _).symm, rfl⟩

/-- The handlers of the devices return. -/
theorem handle_returns {h : Isr} (hh : ¬h.vector < 32) (x : Interrupt) (m : Machine) :
    (h.handle x m).1 = .ok () := by
  cases h with
  | hpet => rfl
  | e1000 =>
      unfold Isr.handle e1000IrqHandler
      split <;> rfl
  | keyboard => rfl
  | mouse => rfl
  | generalProtection => exact absurd (by decide) hh
  | pageFault => exact absurd (by decide) hh

/-- The common handler writes what the vector and the registered handler ask for. -/
theorem writes_isrCommonHandler (hm : Registered m) (x : Interrupt) :
    Writes (isrCommonHandler x) m (dispatchWrites m x) := by
  have hcommon : isrCommonHandler x m =
      (if x.vec < 32 then
        match m.handlers x.vec with
        | some h => h.handle x
        | none => leave (.exception x.vec)
      else do
        match m.handlers x.vec with
        | some h => h.handle x
        | none => pure ()
        apicSendEoi) m := rfl
  unfold Writes
  rw [hcommon]
  unfold dispatchWrites
  by_cases hexc : x.vec < 32
  · rw [if_pos hexc, if_pos hexc, List.append_nil]
    cases hsome : m.handlers x.vec with
    | none => exact ⟨(List.append_nil _).symm, rfl⟩
    | some h => exact writes_handle h x m
  · rw [if_neg hexc, if_neg hexc]
    cases hsome : m.handlers x.vec with
    | none => exact ⟨rfl, rfl⟩
    | some h =>
        have hreturns := handle_returns (by rwa [← hm _ _ hsome]) x m
        have hwrites := writes_handle h x m
        unfold Writes at hwrites
        change (Staged.bind (h.handle x) (fun _ => apicSendEoi) m).2.lapic = _ ∧
          (Staged.bind (h.handle x) (fun _ => apicSendEoi) m).2.handlers = _
        unfold Staged.bind
        rcases hrun : h.handle x m with ⟨r, m'⟩
        rw [hrun] at hreturns hwrites
        dsimp only at hreturns hwrites ⊢
        rw [hreturns]
        dsimp only
        refine ⟨?_, hwrites.2⟩
        change m'.lapic ++ [(lapicEoi, 0)] = _
        rw [hwrites.1, List.append_assoc]
        rfl

/-! ## Acknowledgements -/

namespace Kernel

variable {s : Kernel}

theorem step_interrupt (hpanic : s.panic = none) (x : Interrupt) :
    (s.step (.interrupt x)).machine = (isrCommonHandler x s.machine).2 ∧
      (s.step (.interrupt x)).devices = s.devices + if FromDevice x.vec then 1 else 0 := by
  unfold step
  dsimp only
  rw [hpanic]
  exact ⟨rfl, rfl⟩

theorem step_interrupt_panic {k : Panic} (hpanic : s.panic = some k) (x : Interrupt) :
    s.step (.interrupt x) = s := by
  unfold step
  dsimp only
  rw [hpanic]
  rfl

theorem eois_step (hm : Registered s.machine) (hpanic : s.panic = none) (x : Interrupt) :
    (s.step (.interrupt x)).eois = s.eois + (dispatchWrites s.machine x).length := by
  have hall : ∀ w ∈ dispatchWrites s.machine x, w.1 = lapicEoi := by
    intro w hw
    unfold dispatchWrites at hw
    rcases List.mem_append.mp hw with hown | hcommon
    · cases hsome : s.machine.handlers x.vec with
      | none =>
          rw [hsome] at hown
          cases hown
      | some h =>
          rw [hsome] at hown
          change w ∈ h.ownEoi at hown
          cases h <;> simp [Isr.ownEoi] at hown <;> rw [hown]
    · split at hcommon
      · cases hcommon
      · rw [List.mem_singleton.mp hcommon]
  unfold eois
  rw [(step_interrupt hpanic x).1, (writes_isrCommonHandler hm x).1, List.countP_append,
    List.countP_eq_length.mpr fun w hw => decide_eq_true (hall w hw)]

/-- How often an interrupt is acknowledged. -/
theorem dispatchWrites_length_iff (hm : Registered s.machine) (x : Interrupt) :
    (dispatchWrites s.machine x).length = (if FromDevice x.vec then 1 else 0) ↔
      x.vec ≠ 0xFF ∧ s.machine.handlers x.vec ≠ some .hpet ∧
        s.machine.handlers x.vec ≠ some .e1000 := by
  unfold dispatchWrites
  cases hsome : s.machine.handlers x.vec with
  | none =>
      have hle : 32 ≤ x.vec ↔ ¬x.vec < 32 := UInt8.not_lt.symm
      simp only [Option.map_none, Option.getD_none, List.nil_append, ne_eq, reduceCtorEq,
        not_false_eq_true, and_true, FromDevice, hle]
      by_cases hexc : x.vec < 32
      · have hne : x.vec ≠ 0xFF := by
          rintro heq
          rw [heq] at hexc
          exact absurd hexc (by decide)
        simp [hexc, hne]
      · by_cases hspurious : x.vec = 0xFF
        · simp [hspurious]
        · simp [hexc, hspurious]
  | some h =>
      rw [hm _ _ hsome]
      cases h <;> decide

theorem oneEoi_iff (hm : Registered s.machine) (e : Event) : s.OneEoi e ↔ s.LeftToCommon e := by
  cases e with
  | register h => exact ⟨fun _ => trivial, fun _ => rfl⟩
  | interrupt x =>
      refine forall_congr' fun hpanic => ?_
      rw [eois_step hm hpanic, ← dispatchWrites_length_iff hm x, Nat.add_left_cancel_iff]

theorem registered_step (hm : Registered s.machine) (e : Event) : Registered (s.step e).machine := by
  cases e with
  | register h => exact hm.register h
  | interrupt x =>
      cases hpanic : s.panic with
      | none =>
          intro vec h hsome
          rw [(step_interrupt hpanic x).1, (writes_isrCommonHandler hm x).2] at hsome
          exact hm vec h hsome
      | some k => rwa [step_interrupt_panic hpanic]

/-- An event keeps the two numbers equal exactly if it is acknowledged as it should be. -/
theorem eois_eq_devices_step (h : s.eois = s.devices) (e : Event) :
    (s.step e).eois = (s.step e).devices ↔ s.OneEoi e := by
  cases e with
  | register i =>
      change s.eois = s.devices ↔ s.eois = s.eois
      exact ⟨fun _ => rfl, fun _ => h⟩
  | interrupt x =>
      unfold OneEoi
      cases hpanic : s.panic with
      | none =>
          rw [(step_interrupt hpanic x).2, ← h]
          exact ⟨fun h _ => h, fun h => h rfl⟩
      | some k =>
          rw [step_interrupt_panic hpanic]
          exact ⟨fun _ hnone => (nomatch hnone), fun _ => h⟩

end Kernel

open Kernel

/-- For every sequence of registrations and interrupts: each interrupt of a device causes
exactly one write to the EOI register, and exceptions and spurious interrupts cause none, and
there are never more writes than interrupts of devices, exactly if no interrupt is spurious or
of a device whose handler acknowledges it itself. -/
theorem acknowledged_iff (kb : KbState) (mouse : Mouse.Driver) (es : List Event) :
    (Along step OneEoi (boot kb mouse) es ∧
      ∀ p, p <+: es → (p.foldl step (boot kb mouse)).eois ≤ (p.foldl step (boot kb mouse)).devices) ↔
        Along step LeftToCommon (boot kb mouse) es := by
  have hboot : Registered (boot kb mouse).machine := fun _ _ h => nomatch h
  have hone : Along step OneEoi (boot kb mouse) es ↔ Along step LeftToCommon (boot kb mouse) es :=
    along_congr (I := fun s => Registered s.machine) (fun s e hm => registered_step hm e)
      (fun s e hm => oneEoi_iff hm e) hboot
  have hequal : (∀ p, p <+: es → (p.foldl step (boot kb mouse)).eois =
      (p.foldl step (boot kb mouse)).devices) ↔ Along step OneEoi (boot kb mouse) es :=
    forall_prefix_iff_along (I := fun _ => True) (A := fun s : Kernel => s.eois = s.devices)
      (fun _ _ _ => trivial) (fun s e _ h => eois_eq_devices_step h e) trivial rfl
  rw [← hone]
  exact ⟨fun h => h.1, fun h => ⟨h, fun p hp => Nat.le_of_eq (hequal.mpr h p hp)⟩⟩

/-- The clock ticks once. -/
def oneTick : List Event := [.register .hpet, .interrupt ⟨0x22, 0, 0, 0, 0, 0⟩]

/-- The one interrupt of the HPET is acknowledged twice. -/
theorem tick_acknowledged_twice :
    (oneTick.foldl step (boot bootKb (mouseInit 1024 768))).eois = 2 ∧
      (oneTick.foldl step (boot bootKb (mouseInit 1024 768))).devices = 1 ∧
      ¬Along step OneEoi (boot bootKb (mouseInit 1024 768)) oneTick := by
  decide

end PolandOS.Interrupts
