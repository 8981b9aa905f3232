import PolandOS.Mm.HeapReach

/-! # How much memory an allocation is

What a client may ask for and what it is given. `kmalloc`, `kcalloc` and `krealloc` round the
request up in wrapping arithmetic, and `kcalloc` multiplies in it, before they look for a block.

* `allocation_large_enough`: a block that is handed out is as large as the request exactly when
  the request, computed without wrap-around, is at most `2 ^ 64 - 16` bytes.
-/

namespace PolandOS.Heap

open ByteMem Tiling Runs

/-- The bytes that an allocating call asks for. -/
def request : Call → Nat
  | .kmalloc n => n
  | .kcalloc count n => count * n
  | .krealloc _ n => n
  | _ => 0

/-- The call returns this pointer, and leaves this world. -/
def Returns (w : World) (c : Call) (p : Nat) (w' : World) : Prop :=
  Step w c w' ∧
    match c with
    | .kmalloc n => kmalloc w.heap n = .ok (p, w'.heap)
    | .kcalloc count n => kcalloc w.heap count n = .ok (p, w'.heap)
    | .krealloc q n => krealloc w.heap q n = .ok (p, w'.heap)
    | _ => False

/-- `p` is held by a client and points to the payload of a block in use with at least `n`
usable bytes. -/
structure LiveBlock (w : World) (p n : Nat) : Prop where
  held : p ∈ w.live
  listed : ∃ bs, Reaches w.heap.mem w.heap.heapHead bs ∧ sub64 p headerAligned ∈ bs
  magic : magic w.heap.mem (sub64 p headerAligned) = heapMagic
  used : used w.heap.mem (sub64 p headerAligned) ≠ 0
  large : n ≤ size w.heap.mem (sub64 p headerAligned)

section

variable {w w' : World} {lo total : Nat} {cells : List Cell}

/-- A cell in use that the clients know of. -/
theorem Represents.liveBlock (hr : Represents w.heap lo cells) {p k n : Nat} (hheld : p ∈ w.live)
    (hp : (p, k) ∈ live 32 lo cells) (hle : n ≤ k) : LiveBlock w p n := by
  obtain ⟨hmagic, hsize, -⟩ := hr.block_header hp
  obtain ⟨xs, ys, rfl, rfl⟩ := (mem_live_iff 32).mp hp
  have hfits := hr.fits
  simp only [extent_append, extent_cons] at hfits
  have hblk : sub64 (lo + extent 32 xs + 32) headerAligned = lo + extent 32 xs :=
    sub64_payload (by omega)
  have hused : Heap.used w.heap.mem (lo + extent 32 xs) = 1 :=
    used_of_header hr.linked.header_eq
  refine ⟨hheld, ⟨_, hr.reached, ?_⟩, hmagic, ?_, hsize.symm ▸ hle⟩
  · rw [hblk]
    exact (mem_addrs_iff 32).mpr ⟨xs, _, ys, rfl, rfl⟩
  · rw [hblk, hused]
    exact one_ne_zero

/-- No block is as large as the address space. -/
theorem live_size_lt (hw : (∃ cells, Inv lo total w cells) ∨ Dead w) {p : Nat} (hp : p ∈ w.live) :
    size w.heap.mem (sub64 p headerAligned) + 15 < 2 ^ 64 := by
  rcases hw with ⟨cells, hi⟩ | hdead
  · obtain ⟨k, hk⟩ := hi.mem_live hp
    rw [(hi.rep.block_header hk).2.1]
    have hbounds := mem_live_bounds 32 hk
    have hpos := hi.rep.pos
    have hfits := hi.rep.fits
    omega
  · rw [(hdead.live p hp).2.2.2]
    exact Nat.lt_of_sub_ne_zero (by decide)

/-- The world after `kmalloc` has returned a block. -/
theorem Inv.kmalloc_large (hi : Inv lo total w cells) {n p : Nat} {s' : HeapState}
    (hk : kmalloc w.heap n = .ok (p, s')) (hp : p ≠ 0) {live' : List Nat} (hheld : p ∈ live') :
    LiveBlock ⟨s', live'⟩ p (rounded n) := by
  obtain ⟨q, s1, cells1, hk1, hed, hres⟩ := kmalloc_edit hi.rep n
  obtain ⟨rfl, rfl⟩ := Prod.mk.inj (Except.ok.inj (hk1.symm.trans hk))
  obtain ⟨-, k, hle, hperm, -⟩ := hres.resolve_left fun h => hp h.1
  exact hed.rep.liveBlock (w := ⟨s1, live'⟩) hheld (hperm.symm.subset (by simp)) hle

/-- The world after `kcalloc` has returned a block. -/
theorem Inv.kcalloc_large (hi : Inv lo total w cells) {count n p : Nat} {s' : HeapState}
    (hroom : mul64 count n + 15 < 2 ^ 64) (hk : kcalloc w.heap count n = .ok (p, s')) (hp : p ≠ 0)
    {live' : List Nat} (hheld : p ∈ live') :
    LiveBlock ⟨s', live'⟩ p (rounded (mul64 count n)) := by
  obtain ⟨q, s1, cells1, hk1, hed, hres⟩ := kcalloc_edit hi.rep hroom
  obtain ⟨rfl, rfl⟩ := Prod.mk.inj (Except.ok.inj (hk1.symm.trans hk))
  obtain ⟨-, k, -, hle, hperm, -⟩ := hres.resolve_left fun h => hp h.1
  exact hed.rep.liveBlock (w := ⟨s1, live'⟩) hheld (hperm.symm.subset (by simp)) hle

/-- The world after `krealloc` has returned a block, moved or not. -/
theorem Inv.krealloc_large (hi : Inv lo total w cells) {p n q : Nat} {s' : HeapState}
    (hadm : p = 0 ∨ p ∈ w.live) (hk : krealloc w.heap p n = .ok (q, s')) (hq : q ≠ 0)
    {live' : List Nat} (hheld : q ∈ live') : LiveBlock ⟨s', live'⟩ q (rounded n) := by
  by_cases hp0 : p = 0
  · subst hp0
    have hcode : krealloc w.heap 0 n = kmalloc w.heap n := if_pos rfl
    exact hi.kmalloc_large (hcode.symm.trans hk) hq hheld
  obtain ⟨j, hj⟩ := hi.mem_live (hadm.resolve_left hp0)
  by_cases hn : n = 0
  · -- a pointer given back: NULL is returned
    exfalso
    subst hn
    obtain ⟨s1, cells1, hf, -⟩ := kfree_edit hi.rep hj
    have hcode : krealloc w.heap p 0 = .ok (0, s1) := by
      simp only [krealloc, hf]
      rw [if_neg hp0, if_pos trivial]
    exact hq (congrArg Prod.fst (Except.ok.inj (hcode.symm.trans hk))).symm
  by_cases hfit : rounded n ≤ j
  · obtain ⟨s1, cells1, hk1, hrep, -, -, ⟨k, others, hle, -, hperm⟩, -⟩ :=
      krealloc_fits hi.rep hn hj hfit
    obtain ⟨rfl, rfl⟩ := Prod.mk.inj (Except.ok.inj (hk1.symm.trans hk))
    exact hrep.liveBlock (w := ⟨s1, live'⟩) hheld (hperm.symm.subset (by simp)) hle
  · obtain ⟨r, s1, cells1, hk1, hed, hres⟩ := krealloc_move hi.rep hn hj (by omega)
    obtain ⟨rfl, rfl⟩ := Prod.mk.inj (Except.ok.inj (hk1.symm.trans hk))
    obtain ⟨-, k, mid, midCells, hle, hmove⟩ := hres.resolve_left fun h => hq h.1
    have hperm := hmove.released.symm.trans hmove.perm
    -- the block that was moved from is another one
    have hmem : (r, k) ∈ (p, j) :: live 32 lo cells1 := hperm.symm.subset (by simp)
    rcases List.mem_cons.mp hmem with heq | hmem
    · have hsize : k = j := congrArg Prod.snd heq
      omega
    · exact hed.rep.liveBlock (w := ⟨s1, live'⟩) hheld hmem hle

/-- Rounding up does not make a request smaller, and multiplying does not if it does not wrap. -/
theorem request_le {c : Call} (hroom : request c + 15 < 2 ^ 64) :
    (∀ n, c = .kmalloc n → request c ≤ rounded n) ∧
      (∀ count n, c = .kcalloc count n →
        mul64 count n + 15 < 2 ^ 64 ∧ request c ≤ rounded (mul64 count n)) ∧
      ∀ p n, c = .krealloc p n → request c ≤ rounded n := by
  refine ⟨?_, ?_, ?_⟩
  · rintro n rfl
    exact le_rounded hroom
  · rintro count n rfl
    have hmul : mul64 count n = count * n := by
      change count * n + 15 < 2 ^ 64 at hroom
      exact Nat.mod_eq_of_lt (by omega)
    rw [hmul]
    exact ⟨hroom, le_rounded hroom⟩
  · rintro p n rfl
    exact le_rounded hroom

theorem LiveBlock.mono {p n k : Nat} (h : LiveBlock w p n) (hle : k ≤ n) : LiveBlock w p k :=
  { h with large := hle.trans h.large }

/-- A returned pointer is held by its caller. -/
theorem Returns.held {c : Call} {p : Nat} (hret : Returns w c p w') (hp : p ≠ 0) :
    p ∈ w'.live := by
  obtain ⟨⟨-, hexec⟩, hres⟩ := hret
  cases c with
  | kmalloc n =>
      rw [exec_kmalloc hres] at hexec
      rw [← Except.ok.inj hexec, hold, if_neg hp]
      exact List.mem_cons_self
  | kcalloc count n =>
      rw [exec_kcalloc hres] at hexec
      rw [← Except.ok.inj hexec, hold, if_neg hp]
      exact List.mem_cons_self
  | krealloc q n =>
      rw [exec_krealloc hres] at hexec
      rw [← Except.ok.inj hexec, if_neg (fun h => hp h.1), hold, if_neg hp]
      exact List.mem_cons_self
  | kfree q => exact hres.elim
  | store a v => exact hres.elim

/-- The calls that return a block leave one of the size they rounded the request to. -/
theorem Inv.returns_large (hi : Inv lo total w cells) {c : Call} {p : Nat}
    (hret : Returns w c p w') (hp : p ≠ 0) (hroom : request c + 15 < 2 ^ 64) :
    LiveBlock w' p (request c) := by
  have hheld := hret.held hp
  obtain ⟨⟨hadm, -⟩, hres⟩ := hret
  obtain ⟨hkm, hkc, hkr⟩ := request_le hroom
  cases c with
  | kmalloc n => exact (hi.kmalloc_large hres hp hheld).mono (hkm n rfl)
  | kcalloc count n =>
      obtain ⟨hwrap, hle⟩ := hkc count n rfl
      exact (hi.kcalloc_large hwrap hres hp hheld).mono hle
  | krealloc q n => exact (hi.krealloc_large hadm hres hp hheld).mono (hkr q n rfl)
  | kfree q => exact hres.elim
  | store a v => exact hres.elim

/-- No allocating call returns a block from a dead heap. -/
theorem Dead.returns_null (hd : Dead w) {c : Call} {p : Nat} (hret : Returns w c p w') : p = 0 := by
  obtain ⟨⟨hadm, -⟩, hres⟩ := hret
  have hkmalloc : ∀ n s', Heap.kmalloc w.heap n = .ok (p, s') → p = 0 := by
    intro n s' hk
    by_cases hn : n = 0
    · have hnull : Heap.kmalloc w.heap n = .ok (0, w.heap) := if_pos (.inl hn)
      exact congrArg Prod.fst (Except.ok.inj (hk.symm.trans hnull))
    · rw [hd.kmalloc hn] at hk
      cases hk
  cases c with
  | kmalloc n => exact hkmalloc n _ hres
  | kcalloc count n =>
      unfold kcalloc at hres
      dsimp only at hres
      split at hres
      · rename_i q s1 hk
        obtain ⟨rfl, -⟩ := Prod.mk.inj (Except.ok.inj hres)
        exact hkmalloc _ _ hk
      · cases hres
  | krealloc q n =>
      by_cases hq : q = 0
      · subst hq
        have hcode : krealloc w.heap 0 n = Heap.kmalloc w.heap n := if_pos rfl
        exact hkmalloc n _ (hcode.symm.trans hres)
      · obtain ⟨hdvd, -⟩ := hd.live q (hadm.resolve_left hq)
        dsimp only at hres
        by_cases hn : n = 0
        · rw [hn, hd.krealloc_zero hdvd hq] at hres
          cases hres
        · rw [(hd.caught hdvd hq).2 n hn] at hres
          cases hres
  | kfree q => exact hres.elim
  | store a v => exact hres.elim

variable {m : Mem} {heapStart heapSize : Nat} {s₀ : HeapState}

/-- In every reachable heap, for every size and every count: a block that `kmalloc`, `kcalloc` or
`krealloc` returns is live and as large as what was asked for if and only if the request leaves
room for rounding it up. -/
theorem allocation_large_enough (hr : RegionOk heapStart heapSize)
    (hi : heapInit m heapStart heapSize = .ok s₀) (hrun : Run Step ⟨s₀, []⟩ w) {c : Call}
    {p : Nat} (hret : Returns w c p w') (hp : p ≠ 0) :
    LiveBlock w' p (request c) ↔ request c + 15 < 2 ^ 64 := by
  constructor
  · intro h
    have hlt := live_size_lt (run_reach hr hi (hrun.tail hret.1)) h.held
    have hle := h.large
    omega
  · intro hroom
    rcases run_reach hr hi hrun with ⟨cells, hinv⟩ | hdead
    · exact hinv.returns_large hret hp hroom
    · exact absurd (hdead.returns_null hret) hp

/-- `allocation_large_enough` for the first block of a heap. -/
theorem allocation_large_enough_first : ∃ s₀ w, heapInit (fun _ => 0) 0x100000 0x1000 = .ok s₀ ∧
    Returns ⟨s₀, []⟩ (.kmalloc 50) 0x100020 w ∧ (LiveBlock w 0x100020 50 ↔ 50 + 15 < 2 ^ 64) := by
  have hr : RegionOk 0x100000 0x1000 := ⟨by decide, by decide⟩
  obtain ⟨s₀, w, hinit, hret⟩ : ∃ s₀ w, heapInit (fun _ => 0) 0x100000 0x1000 = .ok s₀ ∧
      Returns ⟨s₀, []⟩ (.kmalloc 50) 0x100020 w :=
    ⟨_, ⟨_, [0x100020]⟩, rfl, ⟨⟨trivial, rfl⟩, rfl⟩⟩
  exact ⟨s₀, w, hinit, hret, allocation_large_enough hr hinit .refl hret (by decide)⟩

/-- `kmalloc` of the largest size hands out a block of no bytes at all. -/
theorem kmalloc_of_everything : ∃ s₀ w, heapInit (fun _ => 0) 0x100000 0x1000 = .ok s₀ ∧
    Returns ⟨s₀, []⟩ (.kmalloc (2 ^ 64 - 1)) 0x100020 w ∧
    size w.heap.mem (sub64 0x100020 headerAligned) = 0 ∧ ¬LiveBlock w 0x100020 (2 ^ 64 - 1) := by
  refine ⟨_, ⟨_, [0x100020]⟩, rfl, ⟨⟨trivial, rfl⟩, rfl⟩, ?_, ?_⟩
  · rfl
  · intro h
    have hlarge := h.large
    revert hlarge
    decide

end

end PolandOS.Heap
