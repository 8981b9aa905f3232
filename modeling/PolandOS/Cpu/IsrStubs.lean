import PolandOS.Lib.Amd64
import PolandOS.Machine

/-! # Interrupt stubs

`idt_init` of `kernel/arch/x86_64/cpu/idt.c` and the stubs of `isr_stubs.asm`. The processor
runs what is in memory at the address that the gate of a vector holds.
`interrupt_returns`: whatever the vector is, the interrupted code goes on with all of its
registers, as long as the handler leaves the frame that it gets alone. Not so for vectors 21 and
29 (`Delivered`).
`interrupts_invisible`: so a program cannot tell at which points it was interrupted, or how
often, by anything but the memory that the handlers write.
-/

namespace PolandOS.Idt

open ByteMem Amd64

/-! ## The gates -/

/-- `IDTGate`. -/
structure IDTGate where
  offsetLo : UInt16
  selector : UInt16
  ist : UInt8
  typeAttr : UInt8
  offsetMid : UInt16
  offsetHi : UInt32
  zero : UInt32
  deriving DecidableEq, Repr

/-- The two quadwords of the packed structure. -/
def IDTGate.low (g : IDTGate) : Nat :=
  g.offsetLo.toNat + 2 ^ 16 * (g.selector.toNat + 2 ^ 16 * (g.ist.toNat + 2 ^ 8 *
    (g.typeAttr.toNat + 2 ^ 8 * g.offsetMid.toNat)))

def IDTGate.high (g : IDTGate) : Nat := g.offsetHi.toNat + 2 ^ 32 * g.zero.toNat

/-- `idt_entries`. -/
abbrev Entries := UInt8 → IDTGate

/-- What `idt_set_gate` writes. -/
def newGate (handler : UInt64) (ist typeAttr : UInt8) : IDTGate where
  offsetLo := (handler &&& 0xFFFF).toUInt16
  selector := 0x08
  ist := ist &&& 0x07
  typeAttr := typeAttr
  offsetMid := ((handler >>> 16) &&& 0xFFFF).toUInt16
  offsetHi := ((handler >>> 32) &&& 0xFFFFFFFF).toUInt32
  zero := 0

/-- `idt_set_gate`. -/
def idtSetGate (entries : Entries) (vector : UInt8) (handler : UInt64) (ist typeAttr : UInt8) :
    Entries :=
  Function.update entries vector (newGate handler ist typeAttr)

/-- `idt_set_ist`. -/
def idtSetIst (entries : Entries) (vector ist : UInt8) : Entries :=
  Function.update entries vector { entries vector with ist := ist &&& 0x07 }

/-- `idt_init`, with the addresses of the stubs. -/
def idtInit (isrStubTable : UInt8 → UInt64) (entries : Entries) : Entries :=
  idtSetIst ((List.range 256).foldl (fun entries i =>
    idtSetGate entries (UInt8.ofNat i) (isrStubTable (UInt8.ofNat i)) 0 0x8E) entries) 8 1

/-! ## The stubs -/

/-- The vectors of `ISR_ERRCODE`. -/
def errorCodes : List UInt8 := [8, 10, 11, 12, 13, 14, 17, 30]

/-- The registers that `isr_common_stub` saves, in the order of its `push`. -/
def savedRegs : List Reg :=
  [.rax, .rbx, .rcx, .rdx, .rbp, .rsi, .rdi, .r8, .r9, .r10, .r11, .r12, .r13, .r14, .r15]

/-- `isr_common_stub` up to its call. -/
def isrCommonEntry : List Instr :=
  [.push .rax, .push .rbx, .push .rcx, .push .rdx, .push .rbp, .push .rsi, .push .rdi,
    .push .r8, .push .r9, .push .r10, .push .r11, .push .r12, .push .r13, .push .r14, .push .r15,
    .mov .rdi .rsp, .mov .rbp .rsp, .andImm .rsp 0xFFFFFFFFFFFFFFF0]

/-- The rest of `isr_common_stub`. -/
def isrCommonExit : List Instr :=
  [.mov .rsp .rbp, .pop .r15, .pop .r14, .pop .r13, .pop .r12, .pop .r11, .pop .r10, .pop .r9,
    .pop .r8, .pop .rdi, .pop .rsi, .pop .rbp, .pop .rdx, .pop .rcx, .pop .rbx, .pop .rax,
    .addImm .rsp 16, .iretq]

/-- `isr0` to `isr255`: `ISR_ERRCODE` or `ISR_NOERRCODE`. -/
def isrEntry (v : UInt8) : List Instr :=
  if v ∈ errorCodes then [.pushImm v.toUInt64] else [.pushImm 0, .pushImm v.toUInt64]

def isrStub (v : UInt8) : List Instr :=
  isrEntry v ++ isrCommonEntry ++ .call :: isrCommonExit

/-- `InterruptFrame`. -/
structure InterruptFrame where
  r15 : UInt64
  r14 : UInt64
  r13 : UInt64
  r12 : UInt64
  r11 : UInt64
  r10 : UInt64
  r9 : UInt64
  r8 : UInt64
  rdi : UInt64
  rsi : UInt64
  rbp : UInt64
  rdx : UInt64
  rcx : UInt64
  rbx : UInt64
  rax : UInt64
  intNo : UInt64
  errCode : UInt64
  rip : UInt64
  cs : UInt64
  rflags : UInt64
  rsp : UInt64
  ss : UInt64
  deriving DecidableEq, Repr

/-- The quadwords of the packed structure. -/
def InterruptFrame.words (f : InterruptFrame) : List UInt64 :=
  [f.r15, f.r14, f.r13, f.r12, f.r11, f.r10, f.r9, f.r8, f.rdi, f.rsi, f.rbp, f.rdx, f.rcx,
    f.rbx, f.rax, f.intNo, f.errCode, f.rip, f.cs, f.rflags, f.rsp, f.ss]

/-- What `isr_common_handler` is to find. -/
def frameOf (v : UInt8) (err : Option UInt64) (c : Cpu) : InterruptFrame where
  r15 := c.regs .r15
  r14 := c.regs .r14
  r13 := c.regs .r13
  r12 := c.regs .r12
  r11 := c.regs .r11
  r10 := c.regs .r10
  r9 := c.regs .r9
  r8 := c.regs .r8
  rdi := c.regs .rdi
  rsi := c.regs .rsi
  rbp := c.regs .rbp
  rdx := c.regs .rdx
  rcx := c.regs .rcx
  rbx := c.regs .rbx
  rax := c.regs .rax
  intNo := v.toUInt64
  errCode := err.getD 0
  rip := c.rip
  cs := c.cs.toUInt64
  rflags := c.rflags
  rsp := c.regs .rsp
  ss := c.ss.toUInt64

/-- The processor with the table of `idt_init`. `ist` is the table of stacks in the TSS. -/
structure Platform where
  isrStubTable : UInt8 → UInt64
  ist : Nat → UInt64
  entries : Entries
  /-- The code in memory, by the address of its first instruction. -/
  code : UInt64 → List Instr
  /-- `isr_stub_table` holds the addresses of `isr0` to `isr255`. -/
  linked : ∀ v, code (isrStubTable v) = isrStub v

/-- The gate of a vector, as the processor reads it. -/
def Platform.gate (p : Platform) (v : UInt8) : Option Gate :=
  let g := idtInit p.isrStubTable p.entries v
  decodeGate g.low g.high

/-- The processor where `isr_common_handler` is called. -/
def Platform.atCall (p : Platform) (v : UInt8) (err : Option UInt64) (c : Cpu) : Option Cpu :=
  (p.gate v).map fun g =>
    exec id (beforeCall (p.code g.offset)) (deliver g p.ist err c)

/-- An interrupt from its delivery to the `iretq` of its stub, where `f` is what the call of
`isr_common_handler` does. -/
def Platform.interrupt (p : Platform) (f : Cpu → Cpu) (v : UInt8) (err : Option UInt64) (c : Cpu) :
    Option Cpu :=
  (p.gate v).map fun g => exec f (p.code g.offset) (deliver g p.ist err c)

/-! ## What the processor reads -/

/-- The loop of `idt_init`. -/
theorem gates_apply (table : UInt8 → UInt64) (entries : Entries) (n : Nat) (hn : n ≤ 256)
    {v : UInt8} (hv : v.toNat < n) :
    (List.range n).foldl (fun entries i => idtSetGate entries (UInt8.ofNat i)
      (table (UInt8.ofNat i)) 0 0x8E) entries v = newGate (table v) 0 0x8E := by
  induction n with
  | zero => exact absurd hv (Nat.not_lt_zero _)
  | succ n ih =>
      rw [List.range_succ, List.foldl_append, List.foldl_cons, List.foldl_nil, idtSetGate]
      by_cases heq : v = UInt8.ofNat n
      · rw [heq, Function.update_self]
      · have hne : v.toNat ≠ n := by
          rintro rfl
          exact heq UInt8.ofNat_toNat.symm
        rw [Function.update_of_ne heq]
        exact ih (by omega) (by omega)

theorem idtInit_apply (table : UInt8 → UInt64) (entries : Entries) (v : UInt8) :
    idtInit table entries v = newGate (table v) (if v = 8 then 1 else 0) 0x8E := by
  have hloop := fun w : UInt8 => gates_apply table entries 256 le_rfl w.toNat_lt
  unfold idtInit idtSetIst
  by_cases heq : v = 8
  · subst heq
    rw [Function.update_self, hloop, if_pos rfl]
    rfl
  · rw [Function.update_of_ne heq, hloop, if_neg heq]

/-- The address of the handler is in three pieces. -/
theorem newGate_offset (handler : UInt64) (ist typeAttr : UInt8) :
    (newGate handler ist typeAttr).offsetLo.toNat +
      (newGate handler ist typeAttr).offsetMid.toNat * 2 ^ 16 +
      (newGate handler ist typeAttr).offsetHi.toNat * 2 ^ 32 = handler.toNat := by
  have hlo : (newGate handler ist typeAttr).offsetLo.toNat = handler.toNat % 2 ^ 16 := by
    simp [newGate, Nat.and_two_pow_sub_one_eq_mod _ 16]
  have hmid : (newGate handler ist typeAttr).offsetMid.toNat = handler.toNat / 2 ^ 16 % 2 ^ 16 := by
    simp [newGate, Nat.and_two_pow_sub_one_eq_mod _ 16, Nat.shiftRight_eq_div_pow]
  have hhi : (newGate handler ist typeAttr).offsetHi.toNat = handler.toNat / 2 ^ 32 % 2 ^ 32 := by
    simp [newGate, Nat.and_two_pow_sub_one_eq_mod _ 32, Nat.shiftRight_eq_div_pow]
  have hlt := handler.toNat_lt
  rw [hlo, hmid, hhi]
  omega

/-- A present interrupt gate. -/
theorem decodeGate_eq (g : IDTGate) (htype : g.typeAttr = 0x8E) : decodeGate g.low g.high =
    some ⟨UInt64.ofNat (g.offsetLo.toNat + g.offsetMid.toNat * 2 ^ 16 + g.offsetHi.toNat * 2 ^ 32),
      g.selector, g.ist.toNat % 8, true⟩ := by
  have hattr : g.typeAttr.toNat = 0x8E := congrArg UInt8.toNat htype
  have hlo := g.offsetLo.toNat_lt
  have hselector := g.selector.toNat_lt
  have hist := g.ist.toNat_lt
  have hmid := g.offsetMid.toNat_lt
  have hhi := g.offsetHi.toNat_lt
  have hlow : g.low = g.offsetLo.toNat + 2 ^ 16 * (g.selector.toNat + 2 ^ 16 * (g.ist.toNat + 2 ^ 8 *
    (0x8E + 2 ^ 8 * g.offsetMid.toNat))) := by rw [← hattr]; rfl
  have hkind : g.low / 2 ^ 40 % 32 = 14 := by omega
  have hpresent : g.low / 2 ^ 47 % 2 = 1 := by omega
  have hfirst : g.low % 2 ^ 16 = g.offsetLo.toNat := by omega
  have hsecond : g.low / 2 ^ 48 % 2 ^ 16 = g.offsetMid.toNat := by omega
  have hthird : g.high % 2 ^ 32 = g.offsetHi.toNat := by
    unfold IDTGate.high
    omega
  have hcs : g.low / 2 ^ 16 % 2 ^ 16 = g.selector.toNat := by omega
  have hstack : g.low / 2 ^ 32 % 8 = g.ist.toNat % 8 := by omega
  unfold decodeGate
  rw [hkind, hpresent, hfirst, hsecond, hthird, hcs, hstack, UInt16.ofNat_toNat]
  rfl

variable {p : Platform} {f : Cpu → Cpu} {v : UInt8} {err : Option UInt64} {c : Cpu}

/-- The gate of a vector leads to its stub, and that of vector 8 to a stack of its own. -/
def Platform.stubGate (p : Platform) (v : UInt8) : Gate :=
  ⟨p.isrStubTable v, 0x08, if v = 8 then 1 else 0, true⟩

theorem gate_eq (p : Platform) (v : UInt8) : p.gate v = some (p.stubGate v) := by
  have hist : (newGate (p.isrStubTable v) (if v = 8 then 1 else 0) 0x8E).ist.toNat % 8 =
      if v = 8 then 1 else 0 := by
    by_cases h8 : v = 8
    · rw [if_pos h8, if_pos h8]
      rfl
    · rw [if_neg h8, if_neg h8]
      rfl
  unfold Platform.gate
  rw [idtInit_apply, decodeGate_eq _ rfl, newGate_offset, hist, UInt64.ofNat_toNat]
  rfl

/-! ## The frame -/

/-- The processor pushes an error code where its table says so. Vectors 21 and 29 are not
delivered: `exception_names` has them as reserved, and `isr21` and `isr29` push a zero of their
own over the code of `#CP` and `#VC`. -/
structure Delivered (v : UInt8) (err : Option UInt64) : Prop where
  code : err.isSome ↔ v ∈ errorCodeVectors
  unreserved : v ≠ 21 ∧ v ≠ 29

/-- The processor pushes an error code where the stub counts on one. -/
def Expected (v : UInt8) (err : Option UInt64) : Prop := err.isSome ↔ v ∈ errorCodes

theorem Delivered.expected {v : UInt8} {err : Option UInt64} (h : Delivered v err) :
    Expected v err := by
  refine h.code.trans ?_
  simp only [errorCodeVectors, errorCodes, List.mem_cons, h.unreserved.1, h.unreserved.2, false_or]

theorem frame_words (v : UInt8) (err : Option UInt64) (c : Cpu) : (frameOf v err c).words =
    savedRegs.reverse.map c.regs ++ (v.toUInt64 :: err.getD 0 :: c.context) := rfl

/-- The state with the frame on the stack. -/
def Platform.framed (p : Platform) (v : UInt8) (err : Option UInt64) (c : Cpu) : Cpu :=
  ((p.stubGate v).enter p.ist c).pushes (frameOf v err c).words.reverse

/-- The stub brings the number of the vector and a missing error code on the stack. -/
theorem exec_isrEntry (herr : Expected v err) (d : Cpu) :
    exec f (isrEntry v) (d.pushes (c.context.reverse ++ err.toList)) =
      d.pushes (c.context.reverse ++ [err.getD 0, v.toUInt64]) := by
  unfold isrEntry
  by_cases hv : v ∈ errorCodes
  · obtain ⟨e, rfl⟩ := Option.isSome_iff_exists.1 (herr.2 hv)
    rw [if_pos hv]
    change (d.pushes _).pushes [v.toUInt64] = _
    rw [pushes_append, List.append_assoc]
    rfl
  · have hnone : err = none := by
      rw [← Option.not_isSome_iff_eq_none]
      exact fun hsome => hv (herr.1 hsome)
    rw [if_neg hv, hnone]
    change (d.pushes _).pushes [0, v.toUInt64] = _
    rw [pushes_append, List.append_assoc]
    rfl

/-- The frame is complete, and `rdi` and `rbp` point to it. -/
theorem exec_isrCommonEntry (herr : Expected v err) :
    exec f (isrEntry v ++ isrCommonEntry) (deliver (p.stubGate v) p.ist err c) =
      exec f [.mov .rdi .rsp, .mov .rbp .rsp, .andImm .rsp 0xFFFFFFFFFFFFFFF0]
        (p.framed v err c) := by
  have hentry : isrCommonEntry = savedRegs.map .push ++
      [.mov .rdi .rsp, .mov .rbp .rsp, .andImm .rsp 0xFFFFFFFFFFFFFFF0] := rfl
  have hregs : savedRegs.map ((((p.stubGate v).enter p.ist c).pushes
      (c.context.reverse ++ [err.getD 0, v.toUInt64])).regs) = savedRegs.map c.regs := by
    refine List.map_congr_left fun r hr => ?_
    have hne : r ≠ .rsp := by
      rintro rfl
      exact absurd hr (by decide)
    rw [pushes_eq]
    exact (Function.update_of_ne hne ..).trans (regs_set_ne hne ..)
  rw [exec_append, deliver, exec_isrEntry herr, hentry, exec_append, exec_push f (by decide), hregs,
    pushes_append]
  have hframe : c.context.reverse ++ [err.getD 0, v.toUInt64] ++ savedRegs.map c.regs =
      (frameOf v err c).words.reverse := by
    rw [frame_words, List.reverse_append, List.reverse_cons, List.reverse_cons, ← List.map_reverse,
      List.reverse_reverse, List.append_assoc]
    rfl
  rw [hframe]
  rfl

theorem length_words (v : UInt8) (err : Option UInt64) (c : Cpu) :
    (frameOf v err c).words.length = 22 := rfl

theorem framed_stacked (p : Platform) (v : UInt8) (err : Option UInt64) (c : Cpu) :
    Stacked (p.framed v err c).mem ((p.framed v err c).regs .rsp) (frameOf v err c).words := by
  have hnone : Stacked ((p.stubGate v).enter p.ist c).mem
      (((p.stubGate v).enter p.ist c).regs .rsp) [] := fun i w hw => by cases hw
  have hframe := hnone.pushes (frameOf v err c).words.reverse (by
    rw [List.length_reverse, length_words]
    decide)
  rwa [List.reverse_reverse, List.append_nil] at hframe

/-- The mask rounds down to a multiple of 16. -/
theorem toNat_mask (a : UInt64) : (a &&& 0xFFFFFFFFFFFFFFF0).toNat = a.toNat / 16 * 16 := by
  rw [UInt64.toNat_and]
  exact and_mask (k := 4) a.toNat_lt (by decide)

theorem mask_eq {a : UInt64} (h : a.toNat % 16 = 0) : a &&& 0xFFFFFFFFFFFFFFF0 = a := by
  rw [← UInt64.toNat_inj, toNat_mask]
  omega

theorem framed_aligned (p : Platform) (v : UInt8) (err : Option UInt64) (c : Cpu) :
    ((p.framed v err c).regs .rsp).toNat % 16 = 0 := by
  have hstack : ((p.stubGate v).stack p.ist c).toNat % 16 = 0 := by
    unfold Gate.stack
    rw [toNat_mask]
    omega
  have hrsp : (p.framed v err c).regs .rsp = (p.stubGate v).stack p.ist c - 176 := by
    unfold Platform.framed
    rw [pushes_rsp, List.length_reverse, length_words]
    have hbase : ((p.stubGate v).enter p.ist c).regs .rsp = (p.stubGate v).stack p.ist c :=
      regs_set_self c .rsp _
    rw [hbase]
    rfl
  have hlt := ((p.stubGate v).stack p.ist c).toNat_lt
  rw [hrsp, UInt64.toNat_sub]
  change (2 ^ 64 - 176 + ((p.stubGate v).stack p.ist c).toNat) % 2 ^ 64 % 16 = 0
  omega

/-- The frame is all that is written. -/
theorem framed_frame {x : Nat}
    (hx : ∀ i < 176, x ≠ byteAt ((p.framed v err c).regs .rsp).toNat i) :
    (p.framed v err c).mem x = c.mem x := by
  refine pushes_frame ?_ fun i hi => hx i ?_
  · rw [List.length_reverse, length_words]
    decide
  · rw [List.length_reverse, length_words] at hi
    exact hi

/-- The call gets the frame in `rdi`. -/
def callState (d : Cpu) : Cpu :=
  ((d.set .rdi (d.regs .rsp)).set .rbp (d.regs .rsp)).set .rsp (d.regs .rsp)

theorem callState_rdi (d : Cpu) : (callState d).regs .rdi = d.regs .rsp := by
  unfold callState
  rw [regs_set_ne (by decide), regs_set_ne (by decide), regs_set_self]

theorem callState_rbp (d : Cpu) : (callState d).regs .rbp = d.regs .rsp := by
  unfold callState
  rw [regs_set_ne (by decide), regs_set_self]

theorem callState_mem (d : Cpu) : (callState d).mem = d.mem := rfl

theorem callState_rflags (d : Cpu) : (callState d).rflags = d.rflags := rfl

theorem exec_callState (f : Cpu → Cpu) {d : Cpu} (hd : (d.regs .rsp).toNat % 16 = 0) :
    exec f [.mov .rdi .rsp, .mov .rbp .rsp, .andImm .rsp 0xFFFFFFFFFFFFFFF0] d = callState d := by
  have hfirst : (d.set .rdi (d.regs .rsp)).regs .rsp = d.regs .rsp := regs_set_ne (by decide) ..
  have hsecond : ((d.set .rdi (d.regs .rsp)).set .rbp (d.regs .rsp)).regs .rsp = d.regs .rsp :=
    (regs_set_ne (by decide) ..).trans hfirst
  change (((d.set .rdi _).set .rbp ((d.set .rdi (d.regs .rsp)).regs .rsp)).set .rsp
    (((d.set .rdi _).set .rbp ((d.set .rdi (d.regs .rsp)).regs .rsp)).regs .rsp &&& _)) = _
  rw [hfirst, hsecond, mask_eq hd]
  rfl

/-- What `isr_common_handler` finds. -/
structure Entered (v : UInt8) (err : Option UInt64) (c d : Cpu) : Prop where
  frame : Stacked d.mem (d.regs .rdi) (frameOf v err c).words
  aligned : (d.regs .rsp).toNat % 16 = 0
  memory : ∀ x, (∀ i < 176, x ≠ byteAt (d.regs .rdi).toNat i) → d.mem x = c.mem x
  masked : d.rflags &&& 0x200 = 0

/-- What the stub counts on: the call brings back `rbp`, as the calling convention says, and no
handler writes to the frame. -/
structure KeepsFrame (f : Cpu → Cpu) (d : Cpu) : Prop where
  rbp : (f d).regs .rbp = d.regs .rbp
  frame : ∀ i < 176, (f d).mem (byteAt (d.regs .rdi).toNat i) = d.mem (byteAt (d.regs .rdi).toNat i)

/-- The gate leads to the stub. -/
theorem stubGate_code (p : Platform) (v : UInt8) : p.code (p.stubGate v).offset = isrStub v :=
  p.linked v

theorem beforeCall_isrStub (v : UInt8) : beforeCall (isrStub v) = isrEntry v ++ isrCommonEntry := by
  refine beforeCall_append ?_ isrCommonExit
  unfold isrEntry
  split <;> simp [isrCommonEntry]

theorem atCall_eq (p : Platform) (herr : Expected v err) (c : Cpu) :
    p.atCall v err c = some (callState (p.framed v err c)) := by
  unfold Platform.atCall
  rw [gate_eq, Option.map_some, stubGate_code, beforeCall_isrStub, exec_isrCommonEntry herr,
    exec_callState _ (framed_aligned ..)]

theorem entered_callState (p : Platform) (v : UInt8) (err : Option UInt64) (c : Cpu) :
    Entered v err c (callState (p.framed v err c)) := by
  have hrdi := callState_rdi (p.framed v err c)
  have hrsp : (callState (p.framed v err c)).regs .rsp = (p.framed v err c).regs .rsp :=
    regs_set_self ..
  refine ⟨?_, ?_, fun x hx => ?_, ?_⟩
  · rw [hrdi, callState_mem]
    exact framed_stacked p v err c
  · rw [hrsp]
    exact framed_aligned p v err c
  · rw [hrdi] at hx
    rw [callState_mem]
    exact framed_frame hx
  · have hflags : (p.framed v err c).rflags = c.rflags &&& ~~~0x14300 := by
      unfold Platform.framed
      rw [pushes_eq]
      rfl
    have hif : (~~~0x14300 : UInt64) &&& 0x200 = 0 := by decide
    rw [callState_rflags, hflags, UInt64.and_assoc, hif, UInt64.and_zero]

/-- The interrupted code goes on with its registers. -/
theorem iretq_back {e : Cpu} (hstack : Stacked e.mem (e.regs .rsp + 16) c.context)
    (hregs : ∀ r ∈ savedRegs, e.regs r = c.regs r) :
    (e.set .rsp (e.regs .rsp + 16)).iretq = { c with mem := e.mem } := by
  have hrsp : (e.set .rsp (e.regs .rsp + 16)).regs .rsp = e.regs .rsp + 16 := regs_set_self ..
  have hall : ∀ r, r ≠ .rsp → r ∈ savedRegs := by
    intro r hr
    cases r <;> first | exact absurd rfl hr | decide
  have hback : Function.update (e.set .rsp (e.regs .rsp + 16)).regs .rsp (c.regs .rsp) = c.regs := by
    funext r
    by_cases hr : r = .rsp
    · rw [hr, Function.update_self]
    · rw [Function.update_of_ne hr, regs_set_ne hr]
      exact hregs r (hall r hr)
  rw [← hrsp] at hstack
  have hiretq := iretq_eq (c := c) (d := e.set .rsp (e.regs .rsp + 16)) hstack
  rw [hiretq, hback]
  rfl

/-- The way back: behind the call all registers are those of the frame. -/
theorem exec_isrCommonExit {a : UInt64} {h : Cpu} (hrbp : h.regs .rbp = a)
    (hframe : Stacked h.mem a (frameOf v err c).words) :
    exec f isrCommonExit h = { c with mem := h.mem } := by
  have hexit : isrCommonExit = .mov .rsp .rbp :: savedRegs.reverse.map .pop ++
      [.addImm .rsp 16, .iretq] := rfl
  have hrsp : (h.set .rsp (h.regs .rbp)).regs .rsp = a := by rw [regs_set_self, hrbp]
  rw [frame_words] at hframe
  have hback : Stacked (h.set .rsp (h.regs .rbp)).mem ((h.set .rsp (h.regs .rbp)).regs .rsp)
      (savedRegs.reverse.map c.regs ++ (v.toUInt64 :: err.getD 0 :: c.context)) := by
    rw [hrsp]
    exact hframe
  have hpop := popAll_eq (by decide) hback
  rw [hrsp] at hpop
  -- behind the last pop
  generalize he : popAll savedRegs.reverse (h.set .rsp (h.regs .rbp)) = e at hpop
  have hmem : e.mem = h.mem := by rw [hpop]; rfl
  have hregs : ∀ r ∈ savedRegs, e.regs r = c.regs r := by
    intro r hr
    rw [hpop]
    exact if_pos (List.mem_reverse.2 hr)
  have hsp : e.regs .rsp + 16 = a + 136 := by
    have hrest : (.rsp : Reg) ∉ savedRegs.reverse := by decide
    rw [hpop]
    dsimp only
    rw [if_neg hrest, if_pos rfl, UInt64.add_assoc]
    rfl
  have hcontext : Stacked e.mem (e.regs .rsp + 16) c.context := by
    rw [hmem, hsp]
    exact hframe.drop 17
  have hlast : exec f [.addImm .rsp 16, .iretq] e = (e.set .rsp (e.regs .rsp + 16)).iretq := rfl
  have hmov : Instr.exec f (.mov .rsp .rbp) h = h.set .rsp (h.regs .rbp) := rfl
  rw [hexit, List.cons_append, exec_cons, hmov, exec_append, exec_pop, he, hlast,
    iretq_back hcontext hregs, hmem]

/-- An interrupt of any vector reaches `isr_common_handler` with its frame, on an aligned stack
and with interrupts off; and behind the stub the interrupted code goes on with all of its
registers, and with the memory that the handler has left. -/
theorem interrupt_returns (p : Platform) (v : UInt8) (err : Option UInt64) (c : Cpu)
    (h : Delivered v err) : ∃ d, p.atCall v err c = some d ∧ Entered v err c d ∧
      ∀ f, KeepsFrame f d → p.interrupt f v err c = some { c with mem := (f d).mem } := by
  have herr := h.expected
  refine ⟨_, atCall_eq p herr c, entered_callState p v err c, fun f hf => ?_⟩
  have hframe := entered_callState p v err c
  have hcall : ∀ d, Instr.exec f .call d = f d := fun _ => rfl
  have hstub : p.interrupt f v err c = some (exec f isrCommonExit
      (f (callState (p.framed v err c)))) := by
    unfold Platform.interrupt
    rw [gate_eq, Option.map_some, stubGate_code, isrStub, exec_append, exec_isrCommonEntry herr,
      exec_callState _ (framed_aligned ..), exec_cons, hcall]
  have hstacked : Stacked (f (callState (p.framed v err c))).mem
      ((callState (p.framed v err c)).regs .rdi) (frameOf v err c).words :=
    hframe.frame.congr hf.frame
  rw [callState_rdi] at hstacked
  rw [hstub, exec_isrCommonExit (hf.rbp.trans (callState_rbp _)) hstacked]

/-- A machine with a stub every 16 bytes. -/
def spacedStubs : Platform where
  isrStubTable v := 16 * v.toUInt64 + 0x1000
  ist _ := 0
  entries _ := newGate 0 0 0
  code a := isrStub ((a - 0x1000) / 16).toUInt8
  linked v := by
    have hlt := v.toNat_lt
    have hback : ((16 * v.toUInt64 + 0x1000 - 0x1000) / 16).toUInt8 = v := by
      rw [UInt64.add_sub_cancel, ← UInt8.toNat_inj]
      simp only [UInt64.toNat_toUInt8, UInt64.toNat_div, UInt64.toNat_mul, UInt64.reduceToNat,
        UInt8.toNat_toUInt64, Nat.reducePow]
      omega
    rw [hback]

/-- A processor in kernel code. -/
def inKernel : Cpu := ⟨fun _ => 0x9008, 0x7000, 0x08, 0x202, 0x10, fun _ => 0⟩

theorem interrupt_returns_pageFault :
    ∃ d, spacedStubs.atCall 14 (some 2) inKernel = some d ∧ Entered 14 (some 2) inKernel d ∧
      spacedStubs.interrupt id 14 (some 2) inKernel = some { inKernel with mem := d.mem } := by
  obtain ⟨d, hcall, hentered, hreturns⟩ :=
    interrupt_returns spacedStubs 14 (some 2) inKernel ⟨by decide, by decide⟩
  exact ⟨d, hcall, hentered, hreturns id ⟨rfl, fun _ _ => rfl⟩⟩

/-! ## Programs that are interrupted -/

/-- An interrupt that the processor delivers. -/
structure Request where
  vec : UInt8
  err : Option UInt64
  delivered : Delivered vec err

/-- The interrupt is served. -/
def Platform.serve (p : Platform) (f : Cpu → Cpu) (i : Request) (c : Cpu) : Cpu :=
  (p.interrupt f i.vec i.err c).getD c

/-- A program does not tell some states apart: its steps lead from such states to such states,
and it does not look at memory that it does not use. -/
structure Blind (step : Cpu → Cpu) (Same : Cpu → Cpu → Prop) (Used : Cpu → Nat → Prop) :
    Prop where
  step : ∀ c d, Same c d → Same (step c) (step d)
  memory : ∀ c d mem, Same c d → (∀ x, Used d x → mem x = d.mem x) → Same c { d with mem := mem }

/-- The interrupts of a program: a handler keeps its frame and what the program uses, and the
program uses nothing of the stack where the frame goes. -/
structure Discreet (p : Platform) (f : Cpu → Cpu) (Same : Cpu → Cpu → Prop)
    (Used : Cpu → Nat → Prop) : Prop where
  frame : ∀ c d, Same c d → ∀ (i : Request) e, p.atCall i.vec i.err d = some e → KeepsFrame f e
  memory : ∀ c d, Same c d → ∀ (i : Request) e, p.atCall i.vec i.err d = some e →
    ∀ x, Used d x → (f e).mem x = e.mem x
  stack : ∀ c d, Same c d → ∀ (i : Request) e, p.atCall i.vec i.err d = some e →
    ∀ x, Used d x → ∀ o < 176, x ≠ byteAt (e.regs .rdi).toNat o

variable {step : Cpu → Cpu} {Same : Cpu → Cpu → Prop} {Used : Cpu → Nat → Prop}

theorem serve_same (hprog : Blind step Same Used) (hf : Discreet p f Same Used) {d : Cpu}
    (i : Request) (h : Same c d) : Same c (p.serve f i d) := by
  obtain ⟨e, hcall, hentered, hreturns⟩ := interrupt_returns p i.vec i.err d i.delivered
  have hserve : p.serve f i d = { d with mem := (f e).mem } := by
    unfold Platform.serve
    rw [hreturns f (hf.frame c d h i e hcall)]
    rfl
  rw [hserve]
  refine hprog.memory c d _ h fun x hx => ?_
  calc (f e).mem x = e.mem x := hf.memory c d h i e hcall x hx
    _ = d.mem x := hentered.memory x (hf.stack c d h i e hcall x hx)

/-- A program that is interrupted at any points, any number of times, goes through states that
it cannot tell from those of a run without interrupts. -/
theorem interrupts_invisible (p : Platform) (f step : Cpu → Cpu) (Same : Cpu → Cpu → Prop)
    (Used : Cpu → Nat → Prop) (hprog : Blind step Same Used) (hf : Discreet p f Same Used)
    (events : List (Option Request)) (c : Cpu) (hc : Same c c) :
    Same (step^[events.countP Option.isNone] c) (interrupted step (p.serve f) events c) :=
  interrupted_same hprog.step (fun _ _ i h => serve_same hprog hf i h) events hc

theorem interrupts_invisible_counter :
    (interrupted (fun c => c.set .rax (c.regs .rax + 1)) (spacedStubs.serve id)
      [none, some ⟨14, some 2, ⟨by decide, by decide⟩⟩, none, some ⟨33, none, ⟨by decide, by decide⟩⟩]
        inKernel).regs .rax = 0x900A := by
  have hprog : Blind (fun c => c.set .rax (c.regs .rax + 1))
      (fun c d => d.regs .rax = c.regs .rax) fun _ _ => False := by
    refine ⟨fun c d h => ?_, fun _ _ _ h _ => h⟩
    rw [regs_set_self, regs_set_self, h]
  have hf : Discreet spacedStubs id (fun c d => d.regs .rax = c.regs .rax) fun _ _ => False :=
    ⟨fun _ _ _ _ _ _ => ⟨rfl, fun _ _ => rfl⟩, fun _ _ _ _ _ _ _ hx => hx.elim,
      fun _ _ _ _ _ _ _ hx => hx.elim⟩
  exact interrupts_invisible spacedStubs id _ _ _ hprog hf
    [none, some ⟨14, some 2, ⟨by decide, by decide⟩⟩, none, some ⟨33, none, ⟨by decide, by decide⟩⟩]
    inKernel rfl

end PolandOS.Idt
