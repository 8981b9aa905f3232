import PolandOS.Mm.HeapOps
import PolandOS.Lib.Runs

/-! # Whole runs of the heap allocator

The clients of the heap: they call `kmalloc`, `kcalloc`, `kfree` and `krealloc`,
release only NULL or a live pointer, and store bytes only inside payloads of live
blocks. `World` is the allocator's state together with the pointers the clients
hold.

* `heap_tiling`: in every state of every run the list from `heap_head` is an
  exact tiling of the heap, and no call ends in `kpanic`.
* `heap_coalesced`: no two neighbouring blocks are both free, and once every
  pointer is released the heap is the one free block `heap_init` made.

Both need that the size handed to `kcalloc` does not wrap when it is rounded up
(unless no block is free); the second needs that `krealloc` does not split a block in front of
a free one.
-/

namespace PolandOS.Heap

open ByteMem Tiling Runs

/-! ## Clients -/

/-- The allocator and the pointers that clients hold. -/
structure World where
  heap : HeapState
  live : List Nat

inductive Call where
  | kmalloc (size : Nat)
  | kcalloc (count size : Nat)
  | kfree (ptr : Nat)
  | krealloc (ptr newSize : Nat)
  /-- A client stores a byte. -/
  | store (addr : Nat) (byte : UInt8)
deriving DecidableEq

/-- A pointer returned by an allocating call is live unless it is NULL. -/
def hold (p : Nat) (live : List Nat) : List Nat := if p = 0 then live else p :: live

/-- One call and what its caller holds afterwards. -/
def exec (w : World) : Call → Except Halt World
  | .kmalloc n => (kmalloc w.heap n).map fun r => ⟨r.2, hold r.1 w.live⟩
  | .kcalloc c n => (kcalloc w.heap c n).map fun r => ⟨r.2, hold r.1 w.live⟩
  | .kfree p => (kfree w.heap p).map fun s => ⟨s, w.live.erase p⟩
  | .krealloc p n =>
    (krealloc w.heap p n).map fun r =>
      ⟨r.2, if r.1 = 0 ∧ n ≠ 0 then w.live else hold r.1 (w.live.erase p)⟩
  | .store a v => .ok { w with heap := { w.heap with mem := set w.heap.mem a v } }

/-- What clients keep to. -/
def Admissible (w : World) : Call → Prop
  | .kfree p => p = 0 ∨ p ∈ w.live
  | .krealloc p _ => p = 0 ∨ p ∈ w.live
  | .store a _ => ∃ p ∈ w.live, p ≤ a ∧ a < p + size w.heap.mem (sub64 p headerAligned)
  | _ => True

instance (w : World) (c : Call) : Decidable (Admissible w c) := by
  cases c <;> unfold Admissible <;> infer_instance

/-- A call by a client that keeps to the rules returns. -/
def Step (w : World) (c : Call) (w' : World) : Prop := Admissible w c ∧ exec w c = .ok w'

/-! ## The list in memory -/

/-- Following `next` from a pointer meets exactly these blocks and then NULL. -/
inductive Reaches (m : Mem) : Nat → List Nat → Prop
  | nil : Reaches m 0 []
  | cons {b : Nat} {bs : List Nat} : b ≠ 0 → Reaches m (next m b) bs → Reaches m b (b :: bs)

/-! ## Side conditions -/

/-- The size given to `kcalloc` does not wrap when it is rounded up, or no block
is free. -/
def SizeOk (w : World) : Call → Prop
  | .kcalloc count size => mul64 count size + 15 < 2 ^ 64 ∨
      ∀ bs, Reaches w.heap.mem w.heap.heapHead bs → ∀ b ∈ bs, used w.heap.mem b ≠ 0
  | _ => True

/-- `krealloc` does not split a block whose right neighbour is free. -/
def ShrinkOk (w : World) : Call → Prop
  | .krealloc p n =>
    let blk := sub64 p headerAligned
    p ≠ 0 → n ≠ 0 → rounded n + 48 ≤ size w.heap.mem blk →
      next w.heap.mem blk = 0 ∨ used w.heap.mem (next w.heap.mem blk) ≠ 0
  | _ => True

/-! ## Exact tilings -/

/-- The list of blocks `bs` is an exact tiling of the `total` bytes from `lo`. -/
structure ExactTiling (s : HeapState) (lo total : Nat) (bs : List Nat) : Prop where
  reached : Reaches s.mem s.heapHead bs
  head : bs.head? = some lo
  magic : ∀ b ∈ bs, magic s.mem b = heapMagic
  next : ∀ xs b ys, bs = xs ++ b :: ys →
    next s.mem b = if ys = [] then 0 else b + 32 + size s.mem b
  prev : ∀ xs b ys, bs = xs ++ b :: ys → prev s.mem b = xs.getLast?.getD 0
  aligned : ∀ b ∈ bs, 16 ∣ b
  sum : (bs.map fun b => 32 + size s.mem b).sum = total
  apart : bs.Pairwise fun b c => b + 32 + size s.mem b ≤ c

/-- No two neighbours of the list are both free. -/
def NoFreeNeighbours (s : HeapState) : Prop :=
  ∀ bs, Reaches s.mem s.heapHead bs → ∀ xs b c ys, bs = xs ++ b :: c :: ys →
    used s.mem b ≠ 0 ∨ used s.mem c ≠ 0

theorem Reaches.unique {m : Mem} {a : Nat} {bs cs : List Nat} (h : Reaches m a bs)
    (h' : Reaches m a cs) : bs = cs := by
  induction h generalizing cs with
  | nil =>
      cases h' with
      | nil => rfl
      | cons h0 _ => exact absurd rfl h0
  | cons h0 _ ih =>
      cases h' with
      | nil => exact absurd rfl h0
      | cons _ h' => rw [ih h']

theorem reaches_of_linked {m : Mem} {p a : Nat} {cs : List Cell} (ha : 0 < a)
    (hl : Linked m p a cs 0) : Reaches m (firstPtr 0 a cs) (addrs 32 a cs) := by
  induction cs generalizing p a with
  | nil => exact .nil
  | cons c cs ih =>
      obtain ⟨hh, ht⟩ := hl
      have hnext : next m a = firstPtr 0 (a + (32 + c.size)) cs := next_of_header hh
      refine .cons (by rw [firstPtr]; omega) ?_
      rw [firstPtr, hnext]
      exact ih (by omega) ht

/-- The cells around a block of the list. -/
theorem addrs_split {a : Nat} {cs : List Cell} {xs ys : List Nat} {b : Nat}
    (h : addrs 32 a cs = xs ++ b :: ys) :
    ∃ us c vs, cs = us ++ c :: vs ∧ xs = addrs 32 a us ∧ b = a + extent 32 us ∧
      ys = addrs 32 (b + (32 + c.size)) vs := by
  induction cs generalizing a xs with
  | nil => simp at h
  | cons d cs ih =>
      rw [addrs_cons] at h
      cases xs with
      | nil =>
          obtain ⟨rfl, rfl⟩ := List.cons.inj h
          exact ⟨[], d, cs, rfl, rfl, by simp, rfl⟩
      | cons x xs =>
          obtain ⟨rfl, htail⟩ := List.cons.inj h
          obtain ⟨us, c, vs, rfl, rfl, rfl, rfl⟩ := ih htail
          exact ⟨d :: us, c, vs, rfl, rfl, by simp [Nat.add_assoc], rfl⟩

section

variable {s : HeapState} {lo : Nat} {cells : List Cell}

theorem Represents.header_at (hr : Represents s lo cells) {us vs : List Cell} {c : Cell}
    (h : cells = us ++ c :: vs) :
    header s.mem (lo + extent 32 us) = ⟨heapMagic, if c.used then 1 else 0, c.size,
      lastPtr 0 lo us, firstPtr 0 (lo + extent 32 us + (32 + c.size)) vs⟩ := by
  subst h
  exact hr.linked.header_eq

theorem Represents.reached (hr : Represents s lo cells) :
    Reaches s.mem s.heapHead (addrs 32 lo cells) := by
  have h := reaches_of_linked hr.pos hr.linked
  obtain ⟨c, cs, rfl⟩ := List.exists_cons_of_ne_nil hr.nonempty
  rw [hr.head]
  exact h

theorem lastPtr_eq_getLast? (p a : Nat) (us : List Cell) :
    lastPtr p a us = (addrs 32 a us).getLast?.getD p := by
  rcases List.eq_nil_or_concat us with rfl | ⟨us, c, rfl⟩
  · rfl
  · rw [List.concat_eq_append, lastPtr_concat, addrs_append]
    simp

/-- The sizes stored in memory add up to the extent. -/
theorem sum_sizes {m : Mem} {p a : Nat} {cs : List Cell} {nxt : Nat} (hl : Linked m p a cs nxt) :
    ((addrs 32 a cs).map fun b => 32 + size m b).sum = extent 32 cs := by
  induction cs generalizing p a with
  | nil => rfl
  | cons c cs ih =>
      obtain ⟨hh, ht⟩ := hl
      have hsize : size m a = c.size := size_of_header hh
      rw [addrs_cons, List.map_cons, List.sum_cons, ih ht, hsize, extent_cons]

theorem apart_of_linked {m : Mem} {p a : Nat} {cs : List Cell} {nxt : Nat}
    (hl : Linked m p a cs nxt) :
    (addrs 32 a cs).Pairwise fun b c => b + 32 + size m b ≤ c := by
  induction cs generalizing p a with
  | nil => exact List.Pairwise.nil
  | cons c cs ih =>
      obtain ⟨hh, ht⟩ := hl
      have hsize : size m a = c.size := size_of_header hh
      rw [addrs_cons, List.pairwise_cons]
      refine ⟨fun b hb => ?_, ih ht⟩
      have := mem_addrs_bounds 32 hb
      omega

/-- A state that represents a tiling has an exact tiling in memory. -/
theorem Represents.exactTiling (hr : Represents s lo cells) :
    ExactTiling s lo (extent 32 cells) (addrs 32 lo cells) := by
  refine ⟨hr.reached, ?_, ?_, ?_, ?_, ?_, sum_sizes hr.linked, apart_of_linked hr.linked⟩
  · obtain ⟨c, cs, rfl⟩ := List.exists_cons_of_ne_nil hr.nonempty
    rfl
  · intro b hb
    obtain ⟨us, c, vs, h, rfl⟩ := (mem_addrs_iff 32).mp hb
    exact magic_of_header (hr.header_at h)
  · intro xs b ys h
    obtain ⟨us, c, vs, hcells, -, rfl, rfl⟩ := addrs_split h
    have hh := hr.header_at hcells
    have hnext : next s.mem (lo + extent 32 us) =
        firstPtr 0 (lo + extent 32 us + (32 + c.size)) vs := next_of_header hh
    have hsize : size s.mem (lo + extent 32 us) = c.size := size_of_header hh
    rw [hnext, hsize]
    cases vs with
    | nil => simp [firstPtr]
    | cons d vs => simp [firstPtr, Nat.add_assoc]
  · intro xs b ys h
    obtain ⟨us, c, vs, hcells, rfl, rfl, -⟩ := addrs_split h
    rw [← lastPtr_eq_getLast?]
    exact prev_of_header (hr.header_at hcells)
  · intro b hb
    obtain ⟨us, c, vs, rfl, rfl⟩ := (mem_addrs_iff 32).mp hb
    have hus := ((sizesAligned_append_iff (by simp)).mp hr.sizes).1
    exact Nat.dvd_add hr.aligned (dvd_extent hus)

theorem Represents.used_of_full (hr : Represents s lo cells)
    (hfull : ∀ bs, Reaches s.mem s.heapHead bs → ∀ b ∈ bs, used s.mem b ≠ 0) :
    ∀ c ∈ cells, c.used = true := by
  intro c hc
  obtain ⟨us, vs, rfl⟩ := List.append_of_mem hc
  have hused : used s.mem (lo + extent 32 us) = if c.used then 1 else 0 :=
    used_of_header (hr.header_at rfl)
  have hne := hfull _ hr.reached _ ((mem_addrs_iff 32).mpr ⟨us, c, vs, rfl, rfl⟩)
  rw [hused] at hne
  cases hcu : c.used with
  | true => rfl
  | false => simp [hcu] at hne

theorem Represents.noFreeNeighbours (hr : Represents s lo cells) (hc : Coalesced cells) :
    NoFreeNeighbours s := by
  intro bs hbs xs b c ys h
  obtain rfl := hbs.unique hr.reached
  obtain ⟨us, d, vs, hcells, -, rfl, hvs⟩ := addrs_split h
  obtain ⟨e, vs', rfl⟩ : ∃ e vs', vs = e :: vs' := by
    cases vs with
    | nil => simp at hvs
    | cons e vs' => exact ⟨e, vs', rfl⟩
  obtain rfl : c = lo + extent 32 us + (32 + d.size) := (List.cons.inj hvs).1
  have hd : used s.mem (lo + extent 32 us) = if d.used then 1 else 0 :=
    used_of_header (hr.header_at hcells)
  have he : used s.mem (lo + extent 32 us + (32 + d.size)) = if e.used then 1 else 0 := by
    have he := hr.header_at (show cells = (us ++ [d]) ++ e :: vs' by simpa using hcells)
    simp only [extent_append, extent_cons, extent_nil, Nat.add_zero, ← Nat.add_assoc] at he ⊢
    exact used_of_header he
  rw [hcells, coalesced_append_iff] at hc
  rw [hd, he]
  rcases hc.2.1.1 with h1 | h1
  · exact Or.inl (by simp [h1])
  · exact Or.inr (by simp [h1])

end

/-! ## One call -/

/-- The invariant of runs: the memory spells out a tiling of the region, and the
clients hold exactly the payload addresses of its cells in use. -/
structure Inv (lo total : Nat) (w : World) (cells : List Cell) : Prop where
  rep : Represents w.heap lo cells
  total : extent 32 cells = total
  owns : w.live.Perm ((live 32 lo cells).map Prod.fst)

section

variable {w : World} {lo total : Nat} {cells : List Cell}

theorem Inv.mem_live (hi : Inv lo total w cells) {p : Nat} (hp : p ∈ w.live) :
    ∃ n, (p, n) ∈ live 32 lo cells := by
  obtain ⟨⟨q, n⟩, hq, rfl⟩ := List.mem_map.mp (hi.owns.subset hp)
  exact ⟨n, hq⟩

theorem Inv.zero_notMem (hi : Inv lo total w cells) : 0 ∉ w.live := by
  intro h0
  obtain ⟨n, hn⟩ := hi.mem_live h0
  have := mem_live_bounds 32 hn
  omega

/-- A call that hands out one more block. -/
theorem Inv.hold (hi : Inv lo total w cells) {s' : HeapState} {cells' : List Cell} {p k : Nat}
    (hed : Edited s' lo cells cells') (hp : p ≠ 0)
    (hperm : (live 32 lo cells').Perm ((p, k) :: live 32 lo cells)) :
    Inv lo total ⟨s', hold p w.live⟩ cells' := by
  refine ⟨hed.rep, hed.extent_eq.trans hi.total, ?_⟩
  rw [Heap.hold, if_neg hp]
  exact (hi.owns.cons p).trans (hperm.map Prod.fst).symm

/-- A call that takes one block back. -/
theorem Inv.erase (hi : Inv lo total w cells) {s' : HeapState} {cells' : List Cell} {p n : Nat}
    (hed : Edited s' lo cells cells')
    (hperm : (live 32 lo cells).Perm ((p, n) :: live 32 lo cells')) :
    Inv lo total ⟨s', w.live.erase p⟩ cells' := by
  refine ⟨hed.rep, hed.extent_eq.trans hi.total, ?_⟩
  have h := (hi.owns.trans (hperm.map Prod.fst)).erase p
  rwa [List.map_cons, List.erase_cons_head] at h

theorem exec_kmalloc {n p : Nat} {s' : HeapState} (h : kmalloc w.heap n = .ok (p, s')) :
    exec w (.kmalloc n) = .ok ⟨s', hold p w.live⟩ := by
  simp only [exec, h]
  rfl

theorem exec_kcalloc {count n p : Nat} {s' : HeapState} (h : kcalloc w.heap count n = .ok (p, s')) :
    exec w (.kcalloc count n) = .ok ⟨s', hold p w.live⟩ := by
  simp only [exec, h]
  rfl

theorem exec_kfree {p : Nat} {s' : HeapState} (h : kfree w.heap p = .ok s') :
    exec w (.kfree p) = .ok ⟨s', w.live.erase p⟩ := by
  simp only [exec, h]
  rfl

theorem exec_krealloc {p n q : Nat} {s' : HeapState} (h : krealloc w.heap p n = .ok (q, s')) :
    exec w (.krealloc p n) =
      .ok ⟨s', if q = 0 ∧ n ≠ 0 then w.live else hold q (w.live.erase p)⟩ := by
  simp only [exec, h]
  rfl

theorem kmalloc_inv (hi : Inv lo total w cells) (n : Nat) :
    ∃ p s' cells', kmalloc w.heap n = .ok (p, s') ∧ Inv lo total ⟨s', hold p w.live⟩ cells' ∧
      (Coalesced cells → Coalesced cells') := by
  obtain ⟨p, s', cells', hk, hed, ⟨rfl, rfl, rfl⟩ | ⟨hp, k, -, hperm, -⟩⟩ := kmalloc_edit hi.rep n
  · exact ⟨0, _, cells', hk, hi, id⟩
  · exact ⟨p, s', cells', hk, hi.hold hed hp hperm, hed.coalesced⟩

theorem kfree_inv (hi : Inv lo total w cells) {p : Nat} (hadm : p = 0 ∨ p ∈ w.live) :
    ∃ s' cells', kfree w.heap p = .ok s' ∧ Inv lo total ⟨s', w.live.erase p⟩ cells' ∧
      (Coalesced cells → Coalesced cells') := by
  rcases hadm with rfl | hp
  · refine ⟨w.heap, cells, rfl, ?_, id⟩
    rw [List.erase_of_not_mem hi.zero_notMem]
    exact hi
  · obtain ⟨n, hn⟩ := hi.mem_live hp
    obtain ⟨s', cells', hk, hed, hperm, -⟩ := kfree_edit hi.rep hn
    exact ⟨s', cells', hk, hi.erase hed hperm, hed.coalesced⟩

/-- `krealloc` of NULL, of a pointer to size 0, in place, and with a move. -/
theorem krealloc_inv (hi : Inv lo total w cells) {p n : Nat} (hadm : p = 0 ∨ p ∈ w.live) :
    ∃ w' cells', exec w (.krealloc p n) = .ok w' ∧ Inv lo total w' cells' ∧
      (Coalesced cells → ShrinkOk w (.krealloc p n) → Coalesced cells') := by
  by_cases hp0 : p = 0
  · subst hp0
    obtain ⟨q, s', cells', hk, hi', hc⟩ := kmalloc_inv hi n
    have hcode : krealloc w.heap 0 n = .ok (q, s') := by simpa [krealloc] using hk
    refine ⟨_, cells', exec_krealloc hcode, ?_, fun h _ => hc h⟩
    rw [List.erase_of_not_mem hi.zero_notMem]
    split
    · rename_i h0
      simpa [hold, h0.1] using hi'
    · exact hi'
  have hp : p ∈ w.live := hadm.resolve_left hp0
  obtain ⟨k, hk⟩ := hi.mem_live hp
  by_cases hn : n = 0
  · subst hn
    obtain ⟨s', cells', hf, hi', hc⟩ := kfree_inv hi hadm
    have hcode : krealloc w.heap p 0 = .ok (0, s') := by
      simp only [krealloc, hf]
      rw [if_neg hp0, if_pos trivial]
    exact ⟨_, cells', exec_krealloc hcode, by simpa [hold] using hi', fun h _ => hc h⟩
  by_cases hfit : rounded n ≤ k
  · obtain ⟨s', cells', hcode, hrep, hext, hlive, -, -, hc⟩ := krealloc_fits hi.rep hn hk hfit
    refine ⟨_, cells', exec_krealloc hcode, ⟨hrep, hext.trans hi.total, ?_⟩, fun h hshrink => ?_⟩
    · rw [hlive, if_neg (fun h => hp0 h.1), hold, if_neg hp0]
      exact (List.perm_cons_erase hp).symm.trans hi.owns
    · refine hc h fun hsp => hshrink hp0 hn ?_
      rw [(hi.rep.block_header hk).2.1]
      exact hsp
  · obtain ⟨q, s', cells', hcode, hed, ⟨rfl, -, rfl⟩ | ⟨hq, j, mid, midCells, -, hmove⟩⟩ :=
      krealloc_move hi.rep hn hk (by omega)
    · refine ⟨_, cells', exec_krealloc hcode, ?_, fun h _ => h⟩
      rw [if_pos ⟨rfl, hn⟩]
      exact ⟨hed.rep, hi.total, hi.owns⟩
    · refine ⟨_, cells', exec_krealloc hcode, ⟨hed.rep, hed.extent_eq.trans hi.total, ?_⟩,
        fun h _ => hed.coalesced h⟩
      rw [if_neg (fun h => hq h.1), hold, if_neg hq]
      -- the old pointer goes and the new one comes
      have hperm := hmove.released.symm.trans hmove.perm
      have hmap : (p :: (live 32 lo cells').map Prod.fst).Perm (p :: q :: w.live.erase p) :=
        calc (p :: (live 32 lo cells').map Prod.fst).Perm (q :: (live 32 lo cells).map Prod.fst) :=
              hperm.map Prod.fst
          _ |>.Perm (q :: w.live) := hi.owns.symm.cons q
          _ |>.Perm (q :: p :: w.live.erase p) := (List.perm_cons_erase hp).cons q
          _ |>.Perm (p :: q :: w.live.erase p) := List.Perm.swap p q _
      exact hmap.cons_inv.symm

/-- Every admissible call from a state of the invariant returns and keeps it. -/
theorem exec_spec (hi : Inv lo total w cells) {c : Call} (hadm : Admissible w c) (hok : SizeOk w c) :
    ∃ w' cells', exec w c = .ok w' ∧ Inv lo total w' cells' ∧
      (Coalesced cells → ShrinkOk w c → Coalesced cells') := by
  cases c with
  | kmalloc n =>
      obtain ⟨p, s', cells', hk, hi', hc⟩ := kmalloc_inv hi n
      exact ⟨_, cells', exec_kmalloc hk, hi', fun h _ => hc h⟩
  | kcalloc count n =>
      rcases hok with hok | hfull
      swap
      · have hk := kcalloc_full hi.rep (hi.rep.used_of_full hfull) count n
        exact ⟨_, cells, exec_kcalloc hk, hi, fun h _ => h⟩
      obtain ⟨p, s', cells', hk, hed, ⟨rfl, -, rfl⟩ | ⟨hp, k, -, -, hperm, -⟩⟩ :=
        kcalloc_edit hi.rep hok
      · exact ⟨_, cells', exec_kcalloc hk, ⟨hed.rep, hi.total, hi.owns⟩, fun h _ => h⟩
      · exact ⟨_, cells', exec_kcalloc hk, hi.hold hed hp hperm, fun h _ => hed.coalesced h⟩
  | kfree p =>
      obtain ⟨s', cells', hk, hi', hc⟩ := kfree_inv hi hadm
      exact ⟨_, cells', exec_kfree hk, hi', fun h _ => hc h⟩
  | krealloc p n => exact krealloc_inv hi hadm
  | store a v =>
      obtain ⟨p, hp, hpa, hap⟩ := hadm
      obtain ⟨n, hn⟩ := hi.mem_live hp
      rw [(hi.rep.block_header hn).2.1] at hap
      refine ⟨_, cells, rfl, ⟨hi.rep.payload_write hn ?_, hi.total, hi.owns⟩, fun h _ => h⟩
      intro x hx
      exact set_ne _ _ (by omega)

end

/-! ## Every run -/

section

variable {m : Mem} {heapStart heapSize : Nat} {s₀ : HeapState} {w : World}

theorem inv_heapInit (hr : RegionOk heapStart heapSize)
    (hi : heapInit m heapStart heapSize = .ok s₀) :
    Inv (heapStart + waste heapStart) (heapSize - waste heapStart) ⟨s₀, []⟩
      [⟨heapSize - waste heapStart - 32, false⟩] := by
  obtain ⟨hbig, hrep⟩ := heapInit_spec hr hi
  refine ⟨hrep, ?_, by simp [live_cons]⟩
  simp only [extent_cons, extent_nil]
  omega

theorem step_inv {lo total : Nat} {c : Call} {w' : World}
    (hi : ∃ cells, Inv lo total w cells) (hs : Guarded Step SizeOk w c w') :
    ∃ cells, Inv lo total w' cells := by
  obtain ⟨cells, hi⟩ := hi
  obtain ⟨hok, hadm, hexec⟩ := hs
  obtain ⟨w'', cells', hexec', hi', -⟩ := exec_spec hi hadm hok
  obtain rfl := Except.ok.inj (hexec.symm.trans hexec')
  exact ⟨cells', hi'⟩

theorem run_inv (hr : RegionOk heapStart heapSize) (hi : heapInit m heapStart heapSize = .ok s₀)
    (hrun : Run (Guarded Step SizeOk) ⟨s₀, []⟩ w) :
    ∃ cells, Inv (heapStart + waste heapStart) (heapSize - waste heapStart) w cells :=
  hrun.invariant (I := fun w => ∃ cells,
    Inv (heapStart + waste heapStart) (heapSize - waste heapStart) w cells)
    ⟨_, inv_heapInit hr hi⟩ fun _ _ _ h hs => step_inv h hs

theorem run_coalesced (hr : RegionOk heapStart heapSize)
    (hi : heapInit m heapStart heapSize = .ok s₀)
    (hrun : Run (Guarded Step fun w c => SizeOk w c ∧ ShrinkOk w c) ⟨s₀, []⟩ w) :
    ∃ cells, Inv (heapStart + waste heapStart) (heapSize - waste heapStart) w cells ∧
      Coalesced cells := by
  refine hrun.invariant (I := fun w => ∃ cells,
    Inv (heapStart + waste heapStart) (heapSize - waste heapStart) w cells ∧ Coalesced cells)
    ⟨_, inv_heapInit hr hi, trivial⟩ ?_
  rintro w c w' ⟨cells, hinv, hco⟩ ⟨⟨hok, hshrink⟩, hadm, hexec⟩
  obtain ⟨w'', cells', hexec', hinv', hc⟩ := exec_spec hinv hadm hok
  obtain rfl := Except.ok.inj (hexec.symm.trans hexec')
  exact ⟨cells', hinv', hc hco hshrink⟩

/-- In every state of every run the list from `heap_head` tiles the region
exactly, every live pointer is the payload of one of its blocks, and every call
returns: no `kpanic` branch is taken. -/
theorem heap_tiling (hr : RegionOk heapStart heapSize)
    (hi : heapInit m heapStart heapSize = .ok s₀)
    (hrun : Run (Guarded Step SizeOk) ⟨s₀, []⟩ w) :
    (∃ bs, ExactTiling w.heap (heapStart + waste heapStart) (heapSize - waste heapStart) bs ∧
      ∀ p ∈ w.live, ∃ b ∈ bs, p = b + 32 ∧ used w.heap.mem b = 1) ∧
    w.live.Nodup ∧
    ∀ c, Admissible w c → SizeOk w c → ∃ w', exec w c = .ok w' := by
  obtain ⟨cells, hinv⟩ := run_inv hr hi hrun
  refine ⟨⟨addrs 32 (heapStart + waste heapStart) cells, ?_, ?_⟩, ?_, ?_⟩
  · rw [← hinv.total]
    exact hinv.rep.exactTiling
  · intro p hp
    obtain ⟨n, hn⟩ := hinv.mem_live hp
    obtain ⟨xs, ys, hcells, rfl⟩ := (mem_live_iff 32).mp hn
    refine ⟨_, (mem_addrs_iff 32).mpr ⟨xs, _, ys, hcells, rfl⟩, rfl, ?_⟩
    exact used_of_header (hinv.rep.header_at hcells)
  · exact (hinv.owns.nodup_iff).mpr (live_nodup 32 (by decide) _ _)
  · intro c hadm hok
    obtain ⟨w', -, hexec, -⟩ := exec_spec hinv hadm hok
    exact ⟨w', hexec⟩

/-- `heap_tiling` after one block has been taken from a fresh heap. -/
theorem heap_tiling_one : ∃ s₀ w, heapInit (fun _ => 0) 0x100008 0x1000 = .ok s₀ ∧
    exec ⟨s₀, []⟩ (.kmalloc 100) = .ok w ∧
    (∃ bs, ExactTiling w.heap 0x100010 0xFF8 bs ∧
      ∀ p ∈ w.live, ∃ b ∈ bs, p = b + 32 ∧ used w.heap.mem b = 1) ∧
    w.live.Nodup ∧
    ∀ c, Admissible w c → SizeOk w c → ∃ w', exec w c = .ok w' := by
  have hr : RegionOk 0x100008 0x1000 := ⟨by decide, by decide⟩
  obtain ⟨s₀, hs⟩ : ∃ s₀, heapInit (fun _ => 0) 0x100008 0x1000 = .ok s₀ := ⟨_, rfl⟩
  obtain ⟨w, hw⟩ := (heap_tiling hr hs .refl).2.2 (.kmalloc 100) trivial trivial
  have hrun : Run (Guarded Step SizeOk) ⟨s₀, []⟩ w :=
    .tail (e := .kmalloc 100) .refl ⟨trivial, trivial, hw⟩
  exact ⟨s₀, w, hs, hw, heap_tiling hr hs hrun⟩

/-- `kcalloc(1, SIZE_MAX)` rounds its size to 0, is given a block of 0 bytes and
then clears `SIZE_MAX` bytes: the heap's own header is among them. -/
theorem heap_tiling_kcalloc_wrap : ∃ s₀ w, heapInit (fun _ => 0) 0x100000 0x1000 = .ok s₀ ∧
    Step ⟨s₀, []⟩ (.kcalloc 1 (2 ^ 64 - 1)) w ∧
    ¬∃ bs, ExactTiling w.heap 0x100000 0x1000 bs := by
  have hr : RegionOk 0x100000 0x1000 := ⟨by decide, by decide⟩
  obtain ⟨s₀, hs⟩ : ∃ s₀, heapInit (fun _ => 0) 0x100000 0x1000 = .ok s₀ := ⟨_, rfl⟩
  obtain ⟨-, hrep⟩ := heapInit_spec hr hs
  obtain ⟨s', hk, -⟩ := kmalloc_spec hrep (show 2 ^ 64 - 1 ≠ 0 by decide)
  obtain ⟨mem', hc, hfill⟩ : ∃ mem', kcalloc s₀ 1 (2 ^ 64 - 1) =
      .ok (0x100020, { s' with mem := mem' }) ∧
      ∀ i < 2 ^ 64 - 1, mem' (byteAt 0x100020 i) = 0 := by
    refine ⟨memset s'.mem 0x100020 0 (2 ^ 64 - 1), ?_, fun i hi => memset_fill _ _ hi⟩
    have htotal : mul64 1 (2 ^ 64 - 1) = 2 ^ 64 - 1 := rfl
    simp only [kcalloc, htotal, hk]
    rfl
  refine ⟨s₀, _, hs, ⟨trivial, exec_kcalloc (w := ⟨s₀, []⟩) hc⟩, ?_⟩
  rintro ⟨bs, ht⟩
  have hmagic : magic mem' 0x100000 = heapMagic := ht.magic _ (List.mem_of_head? ht.head)
  have hzero : magic mem' 0x100000 = magic (fun _ => 0) 0x100000 := by
    apply readLE_congr
    intro i hi
    have hat : byteAt 0x100000 i = byteAt 0x100020 (2 ^ 64 - 32 + i) := by
      unfold byteAt
      omega
    rw [hat]
    exact hfill _ (by omega)
  exact absurd (hzero.symm.trans hmagic) (by decide)

/-- Once all is released, the heap is the block of `heap_init` again. -/
theorem single_of_released (hr : RegionOk heapStart heapSize)
    (hi : heapInit m heapStart heapSize = .ok s₀) {cells : List Cell}
    (hinv : Inv (heapStart + waste heapStart) (heapSize - waste heapStart) w cells)
    (hco : Coalesced cells) (hlive : w.live = []) :
    cells = [⟨heapSize - waste heapStart - 32, false⟩] := by
  have hnil : live 32 (heapStart + waste heapStart) cells = [] := by
    have hperm := hinv.owns
    rw [hlive] at hperm
    exact List.map_eq_nil_iff.mp hperm.nil_eq.symm
  obtain ⟨n, rfl⟩ := single_of_no_used hco hinv.rep.nonempty (used_false_of_live_nil 32 hnil)
  have htotal := hinv.total
  have hbig := (heapInit_spec hr hi).1
  simp only [extent_cons, extent_nil] at htotal
  obtain rfl : n = heapSize - waste heapStart - 32 := by omega
  rfl

/-- Asking a heap that is one free block for all its bytes. -/
theorem kmalloc_whole {s : HeapState} {lo n : Nat} (hr : Represents s lo [⟨n, false⟩])
    (hn : n ≠ 0) : ∃ p s', kmalloc s n = .ok (p, s') ∧ (p ≠ 0 ↔ 16 ∣ n) := by
  have hfits := hr.fits
  have hpos := hr.pos
  have haligned := hr.aligned
  simp only [extent_cons, extent_nil] at hfits
  have hround : rounded n ≤ n ↔ 16 ∣ n := by
    constructor
    · intro h
      have hle := le_rounded (show n + 15 < 2 ^ 64 by omega)
      rw [← Nat.le_antisymm h hle]
      exact dvd_rounded n
    · intro h
      rw [rounded, clearAlign_eq (add64_lt _ _), add64_eq (by simp only [alignMask, align]; omega)]
      simp only [alignMask, align]
      omega
  have hspec := kmalloc_spec hr hn
  by_cases hdvd : 16 ∣ n
  · rw [firstFit, if_pos ⟨rfl, hround.mpr hdvd⟩] at hspec
    obtain ⟨s', hk, -⟩ := hspec
    exact ⟨_, s', hk, by simp [hdvd]⟩
  · rw [firstFit, if_neg (fun h => hdvd (hround.mp h.2))] at hspec
    exact ⟨0, s, hspec, by simp [hdvd]⟩

/-- In every state of every run in which `krealloc` splits no block in front of
a free one, no two neighbours are free. When nothing is live the heap is the one
block `heap_init` made, and `kmalloc` of its whole size succeeds exactly when
that size is a multiple of the alignment. -/
theorem heap_coalesced (hr : RegionOk heapStart heapSize)
    (hi : heapInit m heapStart heapSize = .ok s₀)
    (hrun : Run (Guarded Step fun w c => SizeOk w c ∧ ShrinkOk w c) ⟨s₀, []⟩ w) :
    NoFreeNeighbours w.heap ∧
    (w.live = [] →
      w.heap.heapHead = s₀.heapHead ∧ Reaches w.heap.mem w.heap.heapHead [s₀.heapHead] ∧
      header w.heap.mem s₀.heapHead = header s₀.mem s₀.heapHead ∧
      ∃ p s', kmalloc w.heap (size s₀.mem s₀.heapHead) = .ok (p, s') ∧
        (p ≠ 0 ↔ 16 ∣ size s₀.mem s₀.heapHead)) := by
  obtain ⟨cells, hinv, hco⟩ := run_coalesced hr hi hrun
  refine ⟨hinv.rep.noFreeNeighbours hco, fun hlive => ?_⟩
  obtain rfl := single_of_released hr hi hinv hco hlive
  obtain ⟨hbig, hrep₀⟩ := heapInit_spec hr hi
  have hhead : w.heap.heapHead = s₀.heapHead := hinv.rep.head.trans hrep₀.head.symm
  have hheader₀ := hrep₀.linked.1
  have hheader := hinv.rep.linked.1
  have hsize : size s₀.mem s₀.heapHead = heapSize - waste heapStart - 32 := by
    rw [hrep₀.head]
    exact size_of_header hheader₀
  refine ⟨hhead, ?_, ?_, ?_⟩
  · rw [hrep₀.head]
    exact hinv.rep.reached
  · rw [hrep₀.head]
    exact hheader.trans hheader₀.symm
  · rw [hsize]
    exact kmalloc_whole hinv.rep (by omega)

/-- `heap_coalesced` after a block has been taken and given back. -/
theorem heap_coalesced_round_trip : ∃ s₀ w w', heapInit (fun _ => 0) 0x100000 0x1000 = .ok s₀ ∧
    exec ⟨s₀, []⟩ (.kmalloc 64) = .ok w ∧ exec w (.kfree 0x100020) = .ok w' ∧
    NoFreeNeighbours w'.heap ∧
    (w'.live = [] →
      w'.heap.heapHead = s₀.heapHead ∧ Reaches w'.heap.mem w'.heap.heapHead [s₀.heapHead] ∧
      header w'.heap.mem s₀.heapHead = header s₀.mem s₀.heapHead ∧
      ∃ p s', kmalloc w'.heap (size s₀.mem s₀.heapHead) = .ok (p, s') ∧
        (p ≠ 0 ↔ 16 ∣ size s₀.mem s₀.heapHead)) := by
  have hr : RegionOk 0x100000 0x1000 := ⟨by decide, by decide⟩
  refine ⟨_, _, _, rfl, rfl, rfl, ?_⟩
  exact heap_coalesced hr rfl
    (.tail (e := .kfree 0x100020)
      (.tail (e := .kmalloc 64) .refl ⟨⟨trivial, trivial⟩, trivial, rfl⟩)
      ⟨⟨trivial, trivial⟩, .inr (by decide), rfl⟩)

/-- Shrinking 64 bytes to 16 in front of the free rest of the heap leaves two
free neighbours. -/
theorem heap_coalesced_shrink : ∃ s₀ w w', heapInit (fun _ => 0) 0x100000 0x1000 = .ok s₀ ∧
    Step ⟨s₀, []⟩ (.kmalloc 64) w ∧ Step w (.krealloc 0x100020 16) w' ∧
    ¬NoFreeNeighbours w'.heap := by
  refine ⟨_, _, _, rfl, ⟨trivial, rfl⟩, ⟨.inr (by decide), rfl⟩, ?_⟩
  intro h
  have hused := h [0x100000, 0x100030, 0x100060]
    (.cons (by decide) (.cons (by decide) (.cons (by decide) .nil))) [0x100000] 0x100030 0x100060
    [] rfl
  revert hused
  decide

end

end PolandOS.Heap
