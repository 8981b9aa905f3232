import PolandOS.Mm.HeapRuns

/-! # Every reachable heap

`kcalloc` of a size that wraps when it is rounded up clears the whole memory, and with it
the headers. Behind it no call gets past its first check: the heap is `Dead`. So the
reachable heaps are those of the invariant, and dead ones.
-/

namespace PolandOS.Heap

open ByteMem Tiling Runs

/-- Every aligned word has lost its first byte, so that no header has a magic number. -/
structure Dead (w : World) : Prop where
  head_dvd : 16 ∣ w.heap.heapHead
  head_pos : 0 < w.heap.heapHead
  head_lt : w.heap.heapHead < 2 ^ 64
  first : ∀ x < 2 ^ 64, 16 ∣ x → w.heap.mem x = 0
  live : ∀ p ∈ w.live, 16 ∣ p ∧ 32 < p ∧ p < 2 ^ 64 ∧ size w.heap.mem (sub64 p headerAligned) = 0

/-- The magic number has no zero byte. -/
theorem magic_ne_of_zero {m : Mem} {x i : Nat} (hi : i < 4) (h : m (byteAt x i) = 0) :
    magic m x ≠ heapMagic := by
  have hread : readLE m x (i + (1 + (3 - i))) = readLE m x i +
      256 ^ i * (readLE m (x + i) 1 + 256 ^ 1 * readLE m (x + i + 1) (3 - i)) := by
    rw [readLE_add, readLE_add]
  have hbyte : readLE m (x + i) 1 = 0 := by
    have hat : m ((x + i) % 2 ^ 64) = 0 := h
    rw [readLE, hat]
    rfl
  have hlow := readLE_lt m x i
  have hsplit : magic m x = readLE m x (i + (1 + (3 - i))) := by
    unfold magic
    congr 1
    omega
  rw [hsplit, hread, hbyte]
  unfold heapMagic
  have hcases : i = 0 ∨ i = 1 ∨ i = 2 ∨ i = 3 := by omega
  rcases hcases with rfl | rfl | rfl | rfl
  · omega
  · omega
  · omega
  · omega

section

variable {w w' : World} {lo total : Nat} {cells : List Cell}

theorem sub64_header_dvd {p : Nat} (hp : 16 ∣ p) : 16 ∣ sub64 p headerAligned := by
  unfold sub64
  rw [headerAligned_eq]
  omega

theorem Dead.magic_ne (h : Dead w) {x : Nat} (hx : 16 ∣ x) (hlt : x < 2 ^ 64) :
    magic w.heap.mem x ≠ heapMagic := by
  refine magic_ne_of_zero (i := 0) (by decide) ?_
  rw [byteAt_eq (by omega)]
  exact h.first x hlt hx

/-- A pointer on an aligned address is caught by both calls that take one. -/
theorem Dead.caught (h : Dead w) {p : Nat} (hp : 16 ∣ p) (hp0 : p ≠ 0) :
    kfree w.heap p = .error (.panic "kfree: korupcja sterty! ptr=%p\n") ∧
      ∀ n ≠ 0, krealloc w.heap p n = .error (.panic "krealloc: korupcja sterty! ptr=%p\n") := by
  have hmagic := h.magic_ne (sub64_header_dvd hp) (sub64_lt _ _)
  constructor
  · unfold kfree
    rw [if_neg hp0]
    exact if_pos hmagic
  · intro n hn
    unfold krealloc
    rw [if_neg hp0, if_neg hn]
    exact if_pos hmagic

/-- So is one that is given back by `krealloc`. -/
theorem Dead.krealloc_zero (h : Dead w) {p : Nat} (hp : 16 ∣ p) (hp0 : p ≠ 0) :
    krealloc w.heap p 0 = .error (.panic "kfree: korupcja sterty! ptr=%p\n") := by
  unfold krealloc
  rw [if_neg hp0, if_pos rfl, (h.caught hp hp0).1]

theorem Dead.kmalloc (h : Dead w) {n : Nat} (hn : n ≠ 0) :
    kmalloc w.heap n =
      .error (.panic "kmalloc: korupcja sterty! blok=%p magic=0x%x\n") := by
  have hmagic := h.magic_ne h.head_dvd h.head_lt
  have hpos := h.head_pos
  have hloop : ∀ aligned fuel, 0 < fuel → kmallocLoop aligned fuel w.heap.mem w.heap.heapHead =
      .error (.panic "kmalloc: korupcja sterty! blok=%p magic=0x%x\n") := by
    intro aligned fuel hfuel
    cases fuel with
    | zero => omega
    | succ fuel => rw [kmallocLoop, if_neg (by omega), if_pos hmagic]
  unfold Heap.kmalloc
  rw [if_neg (by omega), hloop _ _ (Nat.two_pow_pos 64)]

theorem Dead.zero_notMem (h : Dead w) : 0 ∉ w.live := fun h0 =>
  absurd (h.live 0 h0).2.1 (by decide)

/-- The calls that return from a dead heap do nothing. -/
theorem Dead.step (h : Dead w) {c : Call} (hs : Step w c w') : w' = w := by
  obtain ⟨hadm, hexec⟩ := hs
  -- no header has the magic number any more: a call panics, or does nothing
  cases c with
  | kmalloc n =>
      by_cases hn : n = 0
      · rw [hn] at hexec
        exact (Except.ok.inj hexec).symm
      · simp only [exec, h.kmalloc hn] at hexec
        cases hexec
  | kcalloc count n =>
      by_cases hn : mul64 count n = 0
      · have hcode : kcalloc w.heap count n = .ok (0, w.heap) := by
          simp [kcalloc, hn, Heap.kmalloc]
        rw [exec_kcalloc hcode] at hexec
        exact (Except.ok.inj hexec).symm
      · simp only [exec, kcalloc, h.kmalloc hn] at hexec
        cases hexec
  | kfree p =>
      rcases hadm with rfl | hp
      · have hcode : Heap.kfree w.heap 0 = .ok w.heap := rfl
        rw [exec_kfree hcode, List.erase_of_not_mem h.zero_notMem] at hexec
        exact (Except.ok.inj hexec).symm
      · obtain ⟨hdvd, hpos, -⟩ := h.live p hp
        simp only [exec, (h.caught hdvd (by omega)).1] at hexec
        cases hexec
  | krealloc p n =>
      rcases hadm with rfl | hp
      · by_cases hn : n = 0
        · have hcode : krealloc w.heap 0 n = .ok (0, w.heap) := by simp [krealloc, Heap.kmalloc, hn]
          rw [exec_krealloc hcode, if_neg (fun h => h.2 hn), hold, if_pos rfl,
            List.erase_of_not_mem h.zero_notMem] at hexec
          exact (Except.ok.inj hexec).symm
        · have hcode : krealloc w.heap 0 n = Heap.kmalloc w.heap n := if_pos rfl
          simp only [exec, hcode, h.kmalloc hn] at hexec
          cases hexec
      · obtain ⟨hdvd, hpos, -⟩ := h.live p hp
        have hcaught := h.caught hdvd (show p ≠ 0 by omega)
        by_cases hn : n = 0
        · simp only [exec, hn, h.krealloc_zero hdvd (show p ≠ 0 by omega)] at hexec
          cases hexec
        · simp only [exec, hcaught.2 n hn] at hexec
          cases hexec
  | store a v =>
      obtain ⟨p, hp, hpa, hap⟩ := hadm
      rw [(h.live p hp).2.2.2] at hap
      omega

/-- The payload addresses of the heap are aligned. -/
theorem Inv.live_dvd (hi : Inv lo total w cells) {p : Nat} (hp : p ∈ w.live) :
    16 ∣ p ∧ 32 < p ∧ p < 2 ^ 64 ∧ p - 32 ∈ addrs 32 lo cells := by
  obtain ⟨n, hn⟩ := hi.mem_live hp
  have hpos := hi.rep.pos
  have hbound := (hi.rep.block_header hn).2.2.2
  obtain ⟨xs, ys, hcells, rfl⟩ := (mem_live_iff 32).mp hn
  have hdvd : 16 ∣ lo + extent 32 xs := by
    have hrep := hi.rep
    rw [hcells] at hrep
    exact hrep.dvd_addr
  refine ⟨by omega, by omega, by omega, (mem_addrs_iff 32).mpr ⟨xs, _, ys, hcells, by omega⟩⟩

/-- `memset` with a length that is 15 bytes short of the whole memory. -/
theorem memset_most {m : Mem} {p len y : Nat} (hp : p < 2 ^ 64) (hlow : 15 < p)
    (hlen : 2 ^ 64 ≤ len + 15) (hy : y < 2 ^ 64) (hout : y + 15 < p ∨ p ≤ y) :
    memset m p 0 len y = 0 := by
  -- the distance from `p` forward to `y`, around the end of the memory if `y` is below `p`
  have hoff : ∃ i < len, (p + i) % 2 ^ 64 = y := by
    rcases hout with hbelow | habove
    · exact ⟨y + 2 ^ 64 - p, by omega, by omega⟩
    · exact ⟨y - p, by omega, by omega⟩
  obtain ⟨i, hi, hat⟩ := hoff
  have hfill : memset m p 0 len (byteAt p i) = 0 := memset_fill m 0 hi
  unfold byteAt at hfill
  rwa [hat] at hfill

/-- `kcalloc` of a size that wraps when it is rounded up leaves a dead heap. -/
theorem kcalloc_wraps (hi : Inv lo total w cells) {count n p : Nat} {s' : HeapState}
    (hwrap : 2 ^ 64 ≤ mul64 count n + 15) (hk : kcalloc w.heap count n = .ok (p, s')) (hp : p ≠ 0) :
    Dead ⟨s', hold p w.live⟩ := by
  obtain ⟨q, s1, cells1, hk1, hed, hres⟩ := kmalloc_edit hi.rep (mul64 count n)
  have hcode : kcalloc w.heap count n =
      .ok (q, if q ≠ 0 then { s1 with mem := memset s1.mem q 0 (mul64 count n) } else s1) := by
    simp only [kcalloc, hk1]
  obtain ⟨rfl, rfl⟩ := Prod.mk.inj (Except.ok.inj (hcode.symm.trans hk))
  obtain ⟨-, k, -, hperm, -⟩ := hres.resolve_left fun h => hp h.1
  have hi1 := hi.hold hed hp hperm
  have hmem : q ∈ hold q w.live := by
    rw [hold, if_neg hp]
    exact List.mem_cons_self
  obtain ⟨hdvd, hpos, hlt, hblk⟩ := hi1.live_dvd hmem
  rw [if_pos hp]
  have hzero : ∀ y < 2 ^ 64, y + 15 < q ∨ q ≤ y → memset s1.mem q 0 (mul64 count n) y = 0 :=
    fun y hy hout => memset_most hlt (by omega) hwrap hy hout
  have hhead : s1.heapHead = lo := hed.rep.head
  have hfits := hed.rep.fits
  refine ⟨?_, ?_, ?_, ?_, ?_⟩
  · exact hhead ▸ hed.rep.aligned
  · exact hhead ▸ hed.rep.pos
  · change s1.heapHead < 2 ^ 64
    omega
  · intro x hx hxdvd
    exact hzero x hx (by omega)
  · intro r hr
    obtain ⟨hrdvd, hrpos, hrlt, hrblk⟩ := hi1.live_dvd hr
    refine ⟨hrdvd, hrpos, hrlt, ?_⟩
    have hsub : sub64 r headerAligned = r - 32 := by
      rw [headerAligned_eq, sub64_eq hrlt (by omega)]
    rw [hsub]
    apply readLE_zero
    intro i hi
    rw [byteAt_eq (by omega)]
    -- the size field of another block is 32 bytes or more away
    have hapart : r = q ∨ r + 32 ≤ q ∨ q + 32 ≤ r := by
      by_cases heq : r = q
      · exact .inl heq
      · rcases addrs_apart 32 hrblk hblk (by omega) with h | h <;> omega
    exact hzero _ (by omega) (by omega)

/-- One step from a reachable heap. -/
theorem step_reach (hw : (∃ cells, Inv lo total w cells) ∨ Dead w) {c : Call}
    (hs : Step w c w') : (∃ cells, Inv lo total w' cells) ∨ Dead w' := by
  rcases hw with hinv | hdead
  · by_cases hok : SizeOk w c
    · exact .inl (step_inv hinv ⟨hok, hs⟩)
    · obtain ⟨cells, hi⟩ := hinv
      cases c with
      | kcalloc count n =>
          have hwrap : ¬mul64 count n + 15 < 2 ^ 64 := fun h => hok (.inl h)
          cases hk : kcalloc w.heap count n with
          | error e =>
              have hexec := hs.2
              simp only [exec, hk] at hexec
              cases hexec
          | ok r =>
              obtain ⟨p, s'⟩ := r
              obtain rfl := Except.ok.inj ((exec_kcalloc hk).symm.trans hs.2)
              by_cases hp : p = 0
              · left
                obtain ⟨q, s1, cells1, hk1, hed, hres⟩ := kmalloc_edit hi.rep (mul64 count n)
                have hcode : kcalloc w.heap count n = .ok (q, if q ≠ 0 then
                    { s1 with mem := memset s1.mem q 0 (mul64 count n) } else s1) := by
                  simp only [kcalloc, hk1]
                obtain ⟨rfl, rfl⟩ := Prod.mk.inj (Except.ok.inj (hcode.symm.trans hk))
                rcases hres with ⟨-, rfl, rfl⟩ | ⟨hne, -⟩
                · refine ⟨cells1, ?_⟩
                  rw [hp, if_neg (fun h => h rfl), hold, if_pos rfl]
                  exact hi
                · exact absurd hp hne
              · exact .inr (kcalloc_wraps hi (Nat.le_of_not_lt hwrap) hk hp)
      | kmalloc n => exact absurd trivial hok
      | kfree p => exact absurd trivial hok
      | krealloc p n => exact absurd trivial hok
      | store a v => exact absurd trivial hok
  · rw [hdead.step hs]
    exact .inr hdead

/-- A heap is reachable only if it satisfies the invariant or is dead. -/
theorem run_reach {m : Mem} {heapStart heapSize : Nat} {s₀ : HeapState}
    (hr : RegionOk heapStart heapSize) (hi : heapInit m heapStart heapSize = .ok s₀)
    (hrun : Run Step ⟨s₀, []⟩ w) :
    (∃ cells, Inv (heapStart + waste heapStart) (heapSize - waste heapStart) w cells) ∨ Dead w :=
  hrun.invariant (I := fun w => (∃ cells,
    Inv (heapStart + waste heapStart) (heapSize - waste heapStart) w cells) ∨ Dead w)
    (.inl ⟨_, inv_heapInit hr hi⟩) fun _ _ _ h hs => step_reach h hs

end

end PolandOS.Heap
