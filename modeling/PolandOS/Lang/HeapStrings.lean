import Mathlib.Data.Finset.Erase
import Mathlib.Data.Finset.Insert
import PolandOS.Lang.Interp
import PolandOS.Mm.HeapRuns

/-! # Strings on the kernel heap

What the interpreter relies on when it creates and frees strings, and the memory of the
kernel, where `value_create_string` calls `kmalloc` and `strcpy`.

* `lawful_kernelMemory`: the kernel's heap keeps what the interpreter relies on.
-/

namespace PolandOS.PolskiScript

open ByteMem Tiling Heap

/-- What the interpreter relies on: a pointer from `kmalloc` that is not NULL belongs to no
string that is there, and the string of a pointer from `kmalloc` can be freed once. `I mem live`
says that the strings at `live` are there. -/
structure Lawful {σ : Type} (m : Memory σ) (I : σ → Finset Int64 → Prop) : Prop where
  store : ∀ str mem live, I mem live → (m.store str mem).1 ≠ 0 →
    (m.store str mem).1 ∉ live ∧ I (m.store str mem).2 (insert (m.store str mem).1 live)
  kfree : ∀ p mem live, I mem live → p ∈ live →
    ∃ mem', m.kfree p mem = some mem' ∧ I mem' (live.erase p)
  uninitialised : ∀ mem live, I mem live → I (m.uninitialised mem).2 live

/-! ## The memory of the kernel -/

/-- `strcpy`, of a string that lies elsewhere. -/
def strcpy (m : Mem) (dst : Nat) : List Char → Mem
  | [] => set m (dst % 2 ^ 64) 0
  | c :: str => strcpy (set m (dst % 2 ^ 64) (UInt8.ofNat c.toNat)) (dst + 1) str

/-- The characters from an address on, up to the terminator. -/
def readString (m : Mem) : Nat → Nat → List Char
  | 0, _ => []
  | n + 1, a =>
    if m (a % 2 ^ 64) = 0 then []
    else Char.ofNat (m (a % 2 ^ 64)).toNat :: readString m n (a + 1)

/-- A pointer as the heap sees it. -/
def address (p : Int64) : Nat := p.toUInt64.toNat

/-- The kernel's memory. A string takes up memory itself, so that its length and what
`kmalloc` adds to it are a `u64`. What is uninitialised reads as `bytes` has it. -/
def kernelMemory (bytes : HeapState → Int64) : Memory HeapState where
  store str s :=
    -- a longer string does not fit into memory, and neither does its block
    if str.length + align < 2 ^ 64 then
      match kmalloc s (str.length + 1) with
      | .ok (p, s) => (Int64.ofNat p, if p = 0 then s else { s with mem := strcpy s.mem p str })
      | .error _ => (0, s)
    else (0, s)
  kfree p s := (Heap.kfree s (address p)).toOption
  stringAt p s := readString s.mem (2 ^ 64) (address p)
  uninitialised s := (bytes s, s)

variable {bytes : HeapState → Int64}

/-- The heap is in order, and its clients hold the strings `live` among others. -/
def Serves (s : HeapState) (live : Finset Int64) : Prop :=
  ∃ lo total ptrs cells, Inv lo total ⟨s, ptrs⟩ cells ∧ ∀ p ∈ live, address p ∈ ptrs

theorem address_ofNat {p : Nat} (h : p < 2 ^ 64) : address (Int64.ofNat p) = p := by
  unfold address
  rw [Int64.toUInt64_ofNat', UInt64.toNat_ofNat']
  omega

theorem address_injective : Function.Injective address := by
  intro p q h
  have hbits : p.toUInt64 = q.toUInt64 := UInt64.toNat_inj.mp h
  rw [← Int64.toInt64_toUInt64 p, hbits, Int64.toInt64_toUInt64]

/-- `strcpy` writes the characters and the terminator. -/
theorem strcpy_frame (m : Mem) {dst x : Nat} {str : List Char}
    (h : ∀ i ≤ str.length, x ≠ byteAt dst i) : strcpy m dst str x = m x := by
  induction str generalizing m dst with
  | nil => exact set_ne m _ (by simpa [byteAt] using h 0 (by simp))
  | cons c str ih =>
      have h0 : x ≠ dst % 2 ^ 64 := by simpa [byteAt] using h 0 (by simp)
      rw [strcpy, ih _ fun i hi => by simpa [byteAt_succ] using h (i + 1) (by simpa using hi)]
      exact set_ne m _ h0

/-- A string that is stored takes a block of its own. -/
theorem serves_store {s : HeapState} {live : Finset Int64} (h : Serves s live) (str : List Char)
    (hp : ((kernelMemory bytes).store str s).1 ≠ 0) :
    ((kernelMemory bytes).store str s).1 ∉ live ∧
      Serves ((kernelMemory bytes).store str s).2
        (insert ((kernelMemory bytes).store str s).1 live) := by
  rcases h with ⟨lo, total, ptrs, cells, hinv, hlive⟩
  unfold kernelMemory at hp ⊢
  dsimp only at hp ⊢
  by_cases hlen : str.length + align < 2 ^ 64
  swap
  · rw [if_neg hlen] at hp
    exact absurd rfl hp
  rw [if_pos hlen] at hp ⊢
  rcases kmalloc_edit hinv.rep (str.length + 1) with ⟨p, s', cells', hk, hed, hcase⟩
  dsimp only at hk
  rw [hk] at hp ⊢
  dsimp only at hp ⊢
  rcases hcase with ⟨rfl, -, -⟩ | ⟨hp0, k, hround, hperm, -⟩
  · exact absurd rfl hp
  rw [if_neg hp0]
  -- the block is a new one, and it has room for the string and its terminator
  have hinv' := hinv.hold hed hp0 hperm
  rw [Heap.hold, if_neg hp0] at hinv'
  have hmem : (p, k) ∈ Tiling.live 32 lo cells' := hperm.symm.subset List.mem_cons_self
  have hend : p + k < 2 ^ 64 := (hed.rep.block_header hmem).2.2.2
  have haddr : address (Int64.ofNat p) = p := address_ofNat (by omega)
  have hfresh : p ∉ ptrs := by
    have hnodup := hinv'.owns.nodup_iff.mpr (live_nodup 32 (by decide) _ _)
    exact (List.nodup_cons.mp hnodup).1
  have hroom : str.length + 1 ≤ k := by
    have hle : str.length + 1 ≤ rounded (str.length + 1) :=
      le_rounded (by simp only [align] at hlen; omega)
    omega
  refine ⟨fun hin => hfresh (haddr ▸ hlive _ hin), lo, total, p :: ptrs, cells', ?_, ?_⟩
  · refine ⟨hed.rep.payload_write hmem ?_, hinv'.total, hinv'.owns⟩
    intro x hx
    apply strcpy_frame
    intro i hi
    rw [byteAt_eq (by omega)]
    omega
  · intro q hq
    rcases Finset.mem_insert.mp hq with rfl | hq
    · rw [haddr]
      exact List.mem_cons_self
    · exact List.mem_cons_of_mem _ (hlive q hq)

/-- A string that is there is freed, and the others stay. -/
theorem serves_kfree {s : HeapState} {live : Finset Int64} (h : Serves s live) {p : Int64}
    (hp : p ∈ live) :
    ∃ s', (kernelMemory bytes).kfree p s = some s' ∧ Serves s' (live.erase p) := by
  rcases h with ⟨lo, total, ptrs, cells, hinv, hlive⟩
  rcases kfree_inv hinv (.inr (hlive p hp)) with ⟨s', cells', hk, hinv', -⟩
  refine ⟨s', ?_, lo, total, _, cells', hinv', ?_⟩
  · change (Heap.kfree s (address p)).toOption = some s'
    rw [hk]
    rfl
  · intro q hq
    rcases Finset.mem_erase.mp hq with ⟨hne, hq⟩
    exact (List.mem_erase_of_ne fun heq => hne (address_injective heq)).mpr (hlive q hq)

/-- The kernel's heap keeps what the interpreter relies on. -/
theorem lawful_kernelMemory (bytes : HeapState → Int64) : Lawful (kernelMemory bytes) Serves where
  store str _ _ h hp := serves_store h str hp
  kfree _ _ _ h hp := serves_kfree h hp
  uninitialised _ _ h := h

/-- A heap that `heap_init` has made holds no strings. -/
theorem serves_heapInit {m : Mem} {heapStart heapSize : Nat} {s : HeapState}
    (hr : RegionOk heapStart heapSize) (hi : heapInit m heapStart heapSize = .ok s) :
    Serves s ∅ :=
  ⟨_, _, [], _, inv_heapInit hr hi, fun _ h => absurd h (Finset.notMem_empty _)⟩

/-- Another client of the heap takes a block. -/
theorem serves_kmalloc {s s' : HeapState} {live : Finset Int64} (h : Serves s live) {n p : Nat}
    (hk : kmalloc s n = .ok (p, s')) (hp : p ≠ 0) : Serves s' live := by
  rcases h with ⟨lo, total, ptrs, cells, hinv, hlive⟩
  rcases kmalloc_edit hinv.rep n with ⟨q, t, cells', hq, hed, hcase⟩
  rw [hk] at hq
  cases hq
  rcases hcase with ⟨rfl, -, -⟩ | ⟨-, k, -, hperm, -⟩
  · exact absurd rfl hp
  have hinv' := hinv.hold hed hp hperm
  rw [Heap.hold, if_neg hp] at hinv'
  exact ⟨lo, total, p :: ptrs, cells', hinv', fun q hq => List.mem_cons_of_mem _ (hlive q hq)⟩

/-- A heap of 1 MiB. -/
def freshHeap : HeapState :=
  (heapInit (fun _ => 0) 0x100000 0x100000).toOption.getD ⟨fun _ => 0, 0⟩

theorem serves_freshHeap : Serves freshHeap ∅ := by
  have hr : RegionOk 0x100000 0x100000 := ⟨by decide, by decide⟩
  exact serves_heapInit hr (rfl : heapInit (fun _ => 0) _ _ = .ok freshHeap)

/-- `sizeof(Environment)`. -/
def environmentSize : Nat := 10256

/-- The heap behind `env_create` in `interpreter_init`. -/
def readyHeap : HeapState := ((kmalloc freshHeap environmentSize).toOption.getD (0, freshHeap)).2

theorem kmalloc_environment : kmalloc freshHeap environmentSize = .ok (0x100020, readyHeap) := rfl

theorem serves_readyHeap : Serves readyHeap ∅ :=
  serves_kmalloc serves_freshHeap kmalloc_environment (by decide)

end PolandOS.PolskiScript
