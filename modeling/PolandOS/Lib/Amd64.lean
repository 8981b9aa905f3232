import PolandOS.Lib.ByteMem
import Mathlib.Logic.Function.Iterate

/-! # A fragment of amd64

Registers, a stack in byte-addressed memory, and what an interrupt does to them. The
instruction pointer is only that of the code that is interrupted: code that is run here is
a list of instructions. `Stacked` says what is on the stack; pushing a list of registers and
popping it again brings them back (`popAll_spec`), whatever else happens in between.
-/

namespace Amd64

open ByteMem

inductive Reg
  | rax | rbx | rcx | rdx | rbp | rsi | rdi | rsp
  | r8 | r9 | r10 | r11 | r12 | r13 | r14 | r15
  deriving DecidableEq, Repr

structure Cpu where
  regs : Reg → UInt64
  rip : UInt64
  cs : UInt16
  rflags : UInt64
  ss : UInt16
  mem : Mem

/-- The quadword at an address. -/
def load (mem : Mem) (a : UInt64) : UInt64 := UInt64.ofNat (readLE mem a.toNat 8)

def save (mem : Mem) (a v : UInt64) : Mem := writeLE mem a.toNat 8 v.toNat

/-- A register gets a value. -/
def Cpu.set (c : Cpu) (r : Reg) (v : UInt64) : Cpu :=
  { c with regs := Function.update c.regs r v }

/-- A value goes on the stack. -/
def Cpu.push (c : Cpu) (v : UInt64) : Cpu :=
  { c with
    regs := Function.update c.regs .rsp (c.regs .rsp - 8)
    mem := save c.mem (c.regs .rsp - 8) v }

/-- `pop r`. -/
def Cpu.pop (c : Cpu) (r : Reg) : Cpu :=
  (c.set .rsp (c.regs .rsp + 8)).set r (load c.mem (c.regs .rsp))

/-- `iretq`. -/
def Cpu.iretq (c : Cpu) : Cpu :=
  let rsp := c.regs .rsp
  { c with
    rip := load c.mem rsp
    cs := (load c.mem (rsp + 8)).toUInt16
    rflags := load c.mem (rsp + 16)
    regs := Function.update c.regs .rsp (load c.mem (rsp + 24))
    ss := (load c.mem (rsp + 32)).toUInt16 }

inductive Instr
  | push (r : Reg)
  | pushImm (v : UInt64)
  | pop (r : Reg)
  | mov (dst src : Reg)
  | andImm (r : Reg) (v : UInt64)
  | addImm (r : Reg) (v : UInt64)
  | call
  | iretq
  deriving DecidableEq, Repr

/-- One instruction. `f` is what a call does until it has returned. -/
def Instr.exec (f : Cpu → Cpu) : Instr → Cpu → Cpu
  | push r, c => c.push (c.regs r)
  | pushImm v, c => c.push v
  | pop r, c => c.pop r
  | mov dst src, c => c.set dst (c.regs src)
  | andImm r v, c => c.set r (c.regs r &&& v)
  | addImm r v, c => c.set r (c.regs r + v)
  | call, c => f c
  | iretq, c => c.iretq

/-- Instructions one after the other. -/
def exec (f : Cpu → Cpu) (code : List Instr) (c : Cpu) : Cpu :=
  code.foldl (fun c i => i.exec f c) c

theorem exec_cons (f : Cpu → Cpu) (i : Instr) (code : List Instr) (c : Cpu) :
    exec f (i :: code) c = exec f code (i.exec f c) := rfl

theorem exec_append (f : Cpu → Cpu) (code code' : List Instr) (c : Cpu) :
    exec f (code ++ code') c = exec f code' (exec f code c) := List.foldl_append ..

/-- The instructions in front of the first call. -/
def beforeCall (code : List Instr) : List Instr := code.takeWhile fun i => i ≠ .call

theorem beforeCall_append {code : List Instr} (hcode : .call ∉ code) (rest : List Instr) :
    beforeCall (code ++ .call :: rest) = code := by
  have hall : ∀ i ∈ code, decide (i ≠ Instr.call) = true := by
    intro i hi
    have hne : i ≠ .call := fun heq => hcode (heq ▸ hi)
    exact decide_eq_true hne
  unfold beforeCall
  rw [List.takeWhile_append_of_pos hall, List.takeWhile_cons_of_neg (by decide), List.append_nil]

/-! ## Interrupts -/

/-- What the processor reads from a gate of the IDT. -/
structure Gate where
  offset : UInt64
  selector : UInt16
  ist : Nat
  clearsIf : Bool
  deriving DecidableEq, Repr

/-- A gate from its two quadwords, where it is present and an interrupt or a trap gate. -/
def decodeGate (low high : Nat) : Option Gate :=
  let kind := low / 2 ^ 40 % 32
  if low / 2 ^ 47 % 2 = 0 ∨ kind ≠ 14 ∧ kind ≠ 15 then none
  else some {
    offset := UInt64.ofNat
      (low % 2 ^ 16 + low / 2 ^ 48 % 2 ^ 16 * 2 ^ 16 + high % 2 ^ 32 * 2 ^ 32)
    selector := UInt16.ofNat (low / 2 ^ 16 % 2 ^ 16)
    ist := low / 2 ^ 32 % 8
    clearsIf := kind = 14 }

/-- The flags TF, IF, NT and RF, with IF only for an interrupt gate. -/
def Gate.clears (g : Gate) : UInt64 := if g.clearsIf then 0x14300 else 0x14100

/-- Some values go on the stack, one after the other. -/
def Cpu.pushes (c : Cpu) (vs : List UInt64) : Cpu := vs.foldl Cpu.push c

/-- The stack that an interrupt is served on, aligned. -/
def Gate.stack (g : Gate) (ist : Nat → UInt64) (c : Cpu) : UInt64 :=
  (if g.ist = 0 then c.regs .rsp else ist g.ist) &&& 0xFFFFFFFFFFFFFFF0

/-- The handler of a gate is entered. The privilege does not change. -/
def Gate.enter (g : Gate) (ist : Nat → UInt64) (c : Cpu) : Cpu :=
  { c.set .rsp (g.stack ist c) with
    rip := g.offset
    cs := g.selector
    rflags := c.rflags &&& ~~~g.clears }

/-- What is interrupted, in the order in which `iretq` takes it back. -/
def Cpu.context (c : Cpu) : List UInt64 :=
  [c.rip, c.cs.toUInt64, c.rflags, c.regs .rsp, c.ss.toUInt64]

/-- The exceptions that push an error code: `#DF`, `#TS`, `#NP`, `#SS`, `#GP`, `#PF`, `#AC`, `#CP`,
`#VC` and `#SX`. -/
def errorCodeVectors : List UInt8 := [8, 10, 11, 12, 13, 14, 17, 21, 29, 30]

/-- An interrupt, with an error code where there is one. -/
def deliver (g : Gate) (ist : Nat → UInt64) (err : Option UInt64) (c : Cpu) : Cpu :=
  (g.enter ist c).pushes (c.context.reverse ++ err.toList)

/-- A program that is interrupted now and then: a step of its own, or an interrupt. -/
def interrupted {σ ι : Type} (step : σ → σ) (serve : ι → σ → σ) (events : List (Option ι))
    (s : σ) : σ :=
  events.foldl (fun s e => e.elim (step s) fun i => serve i s) s

/-- What cannot be told from one interrupt is not told from many. -/
theorem interrupted_same {σ ι : Type} {step : σ → σ} {serve : ι → σ → σ} {Same : σ → σ → Prop}
    (hstep : ∀ s t, Same s t → Same (step s) (step t))
    (hserve : ∀ s t i, Same s t → Same s (serve i t)) (events : List (Option ι)) {s t : σ}
    (h : Same s t) : Same (step^[events.countP Option.isNone] s) (interrupted step serve events t) := by
  induction events generalizing s t with
  | nil => exact h
  | cons e events ih =>
      cases e with
      | none =>
          rw [List.countP_cons_of_pos rfl, Function.iterate_succ_apply]
          exact ih (hstep s t h)
      | some i =>
          rw [List.countP_cons_of_neg Bool.false_ne_true]
          exact ih (hserve s t i h)

/-! ## The stack -/

/-- The quadwords on the stack, from `a` on. -/
def Stacked (mem : Mem) (a : UInt64) (vs : List UInt64) : Prop :=
  ∀ i v, vs[i]? = some v → readLE mem (byteAt a.toNat (8 * i)) 8 = v.toNat

variable {mem mem' : Mem} {a v : UInt64} {vs : List UInt64} {c : Cpu} {r : Reg} {rs : List Reg}

theorem byteAt_sub (a : UInt64) (i : Nat) : byteAt (a - 8).toNat (i + 8) = byteAt a.toNat i := by
  have hlt := a.toNat_lt
  rw [UInt64.toNat_sub]
  change ((2 ^ 64 - 8 + a.toNat) % 2 ^ 64 + (i + 8)) % 2 ^ 64 = (a.toNat + i) % 2 ^ 64
  omega

theorem byteAt_sub_ofNat (a : UInt64) (n i : Nat) (hn : n < 2 ^ 64) :
    byteAt (a - UInt64.ofNat n).toNat (n + i) = byteAt a.toNat i := by
  have hlt := a.toNat_lt
  have hsmall : (UInt64.ofNat n).toNat = n := Nat.mod_eq_of_lt hn
  rw [UInt64.toNat_sub, hsmall]
  unfold byteAt
  omega

theorem byteAt_add' (a : UInt64) (i : Nat) : byteAt (a + 8).toNat i = byteAt a.toNat (i + 8) := by
  rw [UInt64.toNat_add]
  change ((a.toNat + 8) % 2 ^ 64 + i) % 2 ^ 64 = (a.toNat + (i + 8)) % 2 ^ 64
  omega

/-- Bytes that are elsewhere. -/
theorem save_frame {x : Nat} (h : ∀ i < 8, x ≠ byteAt a.toNat i) : save mem a v x = mem x :=
  writeLE_frame mem _ h

theorem Stacked.congr (h : Stacked mem a vs)
    (hmem : ∀ i < 8 * vs.length, mem' (byteAt a.toNat i) = mem (byteAt a.toNat i)) :
    Stacked mem' a vs := by
  intro i v hv
  have hi := (List.getElem?_eq_some_iff.1 hv).1
  rw [← h i v hv]
  refine readLE_congr fun j hj => ?_
  rw [byteAt_byteAt]
  exact hmem _ (by omega)

theorem Stacked.save (h : Stacked mem a vs) (v : UInt64) (hlen : 8 * vs.length + 8 ≤ 2 ^ 64) :
    Stacked (save mem (a - 8) v) (a - 8) (v :: vs) := by
  intro i w hw
  cases i with
  | zero =>
      cases hw
      have hback := readLE_writeLE mem (a := (a - 8).toNat) (n := 8) v.toNat (by decide)
      have hfirst : byteAt (a - 8).toNat (8 * 0) = (a - 8).toNat :=
        Nat.mod_eq_of_lt (a - 8).toNat_lt
      rw [hfirst]
      exact hback.trans (Nat.mod_eq_of_lt v.toNat_lt)
  | succ i =>
      have hi := (List.getElem?_eq_some_iff.1 hw).1
      rw [List.length_cons] at hi
      rw [← h i w hw, Nat.mul_succ, byteAt_sub]
      refine readLE_congr fun j hj => save_frame fun o ho heq => ?_
      rw [byteAt_byteAt, ← byteAt_sub] at heq
      have := byteAt_inj (by omega) (by omega) heq
      omega

theorem Stacked.head (h : Stacked mem a (v :: vs)) : load mem a = v := by
  have hfirst := h 0 v rfl
  have hbyte : byteAt a.toNat (8 * 0) = a.toNat := Nat.mod_eq_of_lt a.toNat_lt
  rw [hbyte] at hfirst
  rw [load, hfirst]
  exact UInt64.ofNat_toNat

theorem Stacked.tail (h : Stacked mem a (v :: vs)) : Stacked mem (a + 8) vs := by
  intro i w hw
  rw [byteAt_add']
  exact h (i + 1) w hw

theorem Stacked.drop (h : Stacked mem a vs) (k : Nat) :
    Stacked mem (a + UInt64.ofNat (8 * k)) (vs.drop k) := by
  induction k generalizing a vs with
  | zero =>
      have hzero : a + UInt64.ofNat (8 * 0) = a := UInt64.add_zero a
      rw [hzero]
      exact h
  | succ k ih =>
      have hnext : a + UInt64.ofNat (8 * (k + 1)) = a + 8 + UInt64.ofNat (8 * k) := by
        rw [Nat.mul_succ, UInt64.ofNat_add, UInt64.add_assoc, UInt64.add_comm (UInt64.ofNat _)]
        rfl
      rw [hnext]
      cases vs with
      | nil =>
          intro i v hv
          cases hv
      | cons v vs => exact ih h.tail

theorem Stacked.load (h : Stacked mem a vs) {k : Nat} (hv : vs[k]? = some v) :
    load mem (a + UInt64.ofNat (8 * k)) = v := by
  have hdrop : vs.drop k = v :: vs.drop (k + 1) := by
    obtain ⟨hk, hget⟩ := List.getElem?_eq_some_iff.1 hv
    rw [← hget]
    exact List.drop_eq_getElem_cons hk
  have hrest := h.drop k
  rw [hdrop] at hrest
  exact hrest.head

/-! ## Pushing -/

@[simp] theorem push_rsp (c : Cpu) (v : UInt64) : (c.push v).regs .rsp = c.regs .rsp - 8 := by
  simp [Cpu.push]

@[simp] theorem regs_set_self (c : Cpu) (r : Reg) (v : UInt64) : (c.set r v).regs r = v := by
  simp [Cpu.set]

theorem regs_set_ne {r r' : Reg} (h : r' ≠ r) (c : Cpu) (v : UInt64) :
    (c.set r v).regs r' = c.regs r' := Function.update_of_ne h ..

theorem rsp_sub (a : UInt64) (n : Nat) :
    a - 8 - UInt64.ofNat (8 * n) = a - UInt64.ofNat (8 * (n + 1)) := by
  have hnext : UInt64.ofNat (8 * (n + 1)) = UInt64.ofNat (8 * n) + 8 := by
    rw [Nat.mul_succ, UInt64.ofNat_add]
    rfl
  rw [hnext]
  grind

theorem rsp_add (a : UInt64) (n : Nat) :
    a + 8 + UInt64.ofNat (8 * n) = a + UInt64.ofNat (8 * (n + 1)) := by
  rw [Nat.mul_succ, UInt64.ofNat_add, UInt64.add_assoc, UInt64.add_comm 8]
  rfl

/-- Only the stack changes. -/
theorem pushes_eq (c : Cpu) (vs : List UInt64) : c.pushes vs = { c with
    regs := Function.update c.regs .rsp (c.regs .rsp - UInt64.ofNat (8 * vs.length))
    mem := (c.pushes vs).mem } := by
  induction vs generalizing c with
  | nil =>
      have hzero : c.regs .rsp - UInt64.ofNat (8 * 0) = c.regs .rsp := UInt64.sub_zero _
      rw [List.length_nil, hzero, Function.update_eq_self]
      rfl
  | cons v vs ih =>
      have hstep : c.pushes (v :: vs) = (c.push v).pushes vs := rfl
      rw [hstep, ih (c.push v), push_rsp, rsp_sub, List.length_cons]
      have hregs : (c.push v).regs = Function.update c.regs .rsp (c.regs .rsp - 8) := rfl
      rw [hregs, Function.update_idem]
      rfl

theorem pushes_rsp (c : Cpu) (vs : List UInt64) :
    (c.pushes vs).regs .rsp = c.regs .rsp - UInt64.ofNat (8 * vs.length) := by
  rw [pushes_eq]
  simp only [Function.update_self]

theorem pushes_append (c : Cpu) (vs ws : List UInt64) :
    (c.pushes vs).pushes ws = c.pushes (vs ++ ws) := List.foldl_append.symm

/-- What is pushed is on the stack. -/
theorem Stacked.pushes (h : Stacked c.mem (c.regs .rsp) vs) (ws : List UInt64)
    (hlen : 8 * (ws.length + vs.length) ≤ 2 ^ 64) :
    Stacked (c.pushes ws).mem ((c.pushes ws).regs .rsp) (ws.reverse ++ vs) := by
  induction ws generalizing c vs with
  | nil => exact h
  | cons w ws ih =>
      rw [List.length_cons] at hlen
      have hpush : Stacked (c.push w).mem ((c.push w).regs .rsp) (w :: vs) := by
        rw [push_rsp]
        exact h.save w (by omega)
      have hrest := ih hpush (by rw [List.length_cons]; omega)
      rw [List.reverse_cons, List.append_assoc]
      exact hrest

/-- Bytes above the stack stay as they are. -/
theorem pushes_frame {x : Nat} (hlen : 8 * vs.length ≤ 2 ^ 64)
    (h : ∀ i < 8 * vs.length, x ≠ byteAt ((c.pushes vs).regs .rsp).toNat i) :
    (c.pushes vs).mem x = c.mem x := by
  induction vs generalizing c with
  | nil => rfl
  | cons v vs ih =>
      rw [List.length_cons] at hlen h
      have hrest := ih (c := c.push v) (by omega) fun i hi => h i (by omega)
      refine hrest.trans (save_frame fun i hi heq => ?_)
      refine h (8 * vs.length + i) (by omega) (heq.trans ?_)
      have hlow : (c.pushes (v :: vs)).regs .rsp =
          (c.regs .rsp - 8) - UInt64.ofNat (8 * vs.length) := by
        rw [← push_rsp c v]
        exact pushes_rsp (c.push v) vs
      rw [hlow]
      exact (byteAt_sub_ofNat _ _ i (by omega)).symm

/-! ## Saving registers -/

def popAll (rs : List Reg) (c : Cpu) : Cpu := rs.foldl Cpu.pop c

theorem exec_pop (f : Cpu → Cpu) (rs : List Reg) (c : Cpu) :
    exec f (rs.map .pop) c = popAll rs c := List.foldl_map ..

/-- The registers are pushed one after the other. -/
theorem exec_push (f : Cpu → Cpu) (hrs : .rsp ∉ rs) (c : Cpu) :
    exec f (rs.map .push) c = c.pushes (rs.map c.regs) := by
  induction rs generalizing c with
  | nil => rfl
  | cons r rs ih =>
      rw [List.mem_cons, not_or] at hrs
      obtain ⟨hr, hrs⟩ := hrs
      have hkept : rs.map (c.push (c.regs r)).regs = rs.map c.regs := by
        refine List.map_congr_left fun r' hr' => Function.update_of_ne ?_ _ _
        rintro rfl
        exact hrs hr'
      change exec f (rs.map .push) (c.push (c.regs r)) = _
      rw [ih hrs, hkept]
      rfl

/-- The registers get back what is on the stack for them. -/
theorem popAll_eq {g : Reg → UInt64} (hrs : .rsp ∉ rs)
    (h : Stacked c.mem (c.regs .rsp) (rs.map g ++ vs)) :
    popAll rs c = { c with regs := fun r => if r ∈ rs then g r
      else if r = .rsp then c.regs .rsp + UInt64.ofNat (8 * rs.length) else c.regs r } := by
  -- the first pop takes the top of the stack, and the others find what is below
  induction rs generalizing c with
  | nil =>
      have hregs : (fun r => if r ∈ ([] : List Reg) then g r
          else if r = .rsp then c.regs .rsp + UInt64.ofNat (8 * 0) else c.regs r) = c.regs := by
        funext r
        rw [if_neg List.not_mem_nil]
        split
        · rename_i hr
          rw [hr]
          exact UInt64.add_zero _
        · rfl
      rw [List.length_nil, hregs]
      rfl
  | cons r rs ih =>
      have hr : .rsp ≠ r := fun heq => hrs (heq ▸ List.mem_cons_self)
      have hrs : .rsp ∉ rs := fun hmem => hrs (List.mem_cons_of_mem _ hmem)
      rw [List.map_cons, List.cons_append] at h
      have hrsp : (c.pop r).regs .rsp = c.regs .rsp + 8 :=
        (regs_set_ne hr ..).trans (regs_set_self ..)
      have htail : Stacked (c.pop r).mem ((c.pop r).regs .rsp) (rs.map g ++ vs) := by
        rw [hrsp]
        exact h.tail
      change popAll rs (c.pop r) = _
      rw [ih hrs htail, hrsp, rsp_add, List.length_cons]
      refine congrArg (fun regs => { c with regs := regs }) (funext fun r' => ?_)
      by_cases hmem : r' ∈ rs
      · rw [if_pos hmem, if_pos (List.mem_cons_of_mem _ hmem)]
      · rw [if_neg hmem]
        by_cases heq : r' = r
        · subst heq
          rw [if_pos List.mem_cons_self, if_neg (Ne.symm hr)]
          exact (Function.update_self ..).trans h.head
        · have hnot : r' ∉ r :: rs := fun hin => (List.mem_cons.1 hin).elim heq hmem
          rw [if_neg hnot]
          split
          · rfl
          · rename_i hne
            exact (regs_set_ne heq ..).trans (regs_set_ne hne ..)

/-- The interrupted code goes on. -/
theorem iretq_eq {d : Cpu} (h : Stacked d.mem (d.regs .rsp) c.context) : d.iretq = { d with
    rip := c.rip
    cs := c.cs
    rflags := c.rflags
    regs := Function.update d.regs .rsp (c.regs .rsp)
    ss := c.ss } := by
  have hrip : load d.mem (d.regs .rsp) = c.rip := h.head
  have hcs : load d.mem (d.regs .rsp + 8) = c.cs.toUInt64 := h.load (k := 1) rfl
  have hrflags : load d.mem (d.regs .rsp + 16) = c.rflags := h.load (k := 2) rfl
  have hrsp : load d.mem (d.regs .rsp + 24) = c.regs .rsp := h.load (k := 3) rfl
  have hss : load d.mem (d.regs .rsp + 32) = c.ss.toUInt64 := h.load (k := 4) rfl
  unfold Cpu.iretq
  dsimp only
  rw [hrip, hcs, hrflags, hrsp, hss, UInt16.toUInt16_toUInt64, UInt16.toUInt16_toUInt64]

end Amd64
