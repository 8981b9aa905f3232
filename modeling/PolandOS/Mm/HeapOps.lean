import PolandOS.Mm.HeapLayout

/-! # The allocator's calls as edits of a tiling

`Represents s lo cells` says that the state spells out the tiling `cells` from
`lo` on. From such a state every call returns (no `kpanic` branch is taken and
the walk of the list ends), and the state it leaves represents an edited tiling:

* `kmalloc` takes the first fit and splits it;
* `kfree` releases a cell;
* `krealloc` splits a cell in place, or moves it.
-/

namespace PolandOS.Heap

open ByteMem Tiling

/-- The state spells out `cells`, laid out from `lo` on inside the address space. -/
structure Represents (s : HeapState) (lo : Nat) (cells : List Cell) : Prop where
  head : s.heapHead = lo
  pos : 0 < lo
  aligned : 16 ∣ lo
  nonempty : cells ≠ []
  fits : lo + extent 32 cells < 2 ^ 64
  sizes : SizesAligned 16 cells
  linked : Linked s.mem 0 lo cells 0

/-! ## Rounding -/

/-- The size `kmalloc` and `krealloc` round a request to. -/
def rounded (sz : Nat) : Nat := clearAlign (add64 sz alignMask)

theorem clearAlign_eq {x : Nat} (hx : x < 2 ^ 64) : clearAlign x = x / 16 * 16 :=
  and_mask (k := 4) hx (by decide)

theorem dvd_rounded (sz : Nat) : 16 ∣ rounded sz := by
  rw [rounded, clearAlign_eq (add64_lt _ _)]
  exact Nat.dvd_mul_left 16 _

/-- Unless the sum wraps, a request is rounded up. -/
theorem le_rounded {sz : Nat} (h : sz + 15 < 2 ^ 64) : sz ≤ rounded sz := by
  rw [rounded, clearAlign_eq (add64_lt _ _), add64_eq (by simpa [alignMask, align] using h)]
  simp only [alignMask, align]
  omega

/-! ## heap_init -/

/-- The bytes `heap_init` gives up to align the start. -/
def waste (heapStart : Nat) : Nat := (16 - heapStart % 16) % 16

theorem alignedStart_eq {heapStart : Nat} (h : heapStart + 15 < 2 ^ 64) :
    clearAlign (add64 heapStart alignMask) = heapStart + waste heapStart := by
  rw [clearAlign_eq (add64_lt _ _), add64_eq (by simpa [alignMask, align] using h)]
  simp only [alignMask, align, waste]
  omega

/-- The region given to `heap_init` lies above address 0 and its end is a `u64`. -/
structure RegionOk (heapStart heapSize : Nat) : Prop where
  pos : 0 < heapStart
  fits : heapStart + heapSize < 2 ^ 64

/-- The new heap is one free block. -/
theorem heapInit_spec {m : Mem} {heapStart heapSize : Nat} {s : HeapState}
    (hr : RegionOk heapStart heapSize) (hi : heapInit m heapStart heapSize = .ok s) :
    waste heapStart + 32 < heapSize ∧
      Represents s (heapStart + waste heapStart) [⟨heapSize - waste heapStart - 32, false⟩] := by
  have hfits := hr.fits
  have hpos := hr.pos
  have hw : waste heapStart < 16 := Nat.mod_lt _ (by decide)
  have hdvd : 16 ∣ heapStart + waste heapStart := by
    unfold waste
    omega
  by_cases htop : heapStart + 15 < 2 ^ 64
  swap
  · -- a start in the last 15 bytes leaves no room for a header
    exfalso
    have hsmall : heapSize ≤ 15 := by omega
    have hws : sub64 (clearAlign (add64 heapStart alignMask)) heapStart ≤ 15 := by
      have hwrap : add64 heapStart alignMask = heapStart + 15 - 2 ^ 64 := by
        simp only [add64, alignMask, align]
        omega
      rw [hwrap, clearAlign_eq (by omega)]
      unfold sub64
      omega
    simp only [heapInit, headerAligned_eq] at hi
    have hadd : add64 (sub64 (clearAlign (add64 heapStart alignMask)) heapStart) 32 =
        sub64 (clearAlign (add64 heapStart alignMask)) heapStart + 32 := add64_eq (by omega)
    rw [hadd, if_pos (by omega)] at hi
    cases hi
  set lo := heapStart + waste heapStart with hlo
  have hws : sub64 lo heapStart = waste heapStart := by
    rw [sub64_eq (by omega) (by omega)]
    omega
  -- the first header is at the aligned start, and takes all that is left
  simp only [heapInit, alignedStart_eq htop, headerAligned_eq, ← hlo, hws,
    add64_eq (show waste heapStart + 32 < 2 ^ 64 by omega)] at hi
  split at hi
  · cases hi
  rename_i hbig
  have hsz : sub64 (sub64 heapSize (waste heapStart)) 32 = heapSize - waste heapStart - 32 := by
    rw [sub64_eq (show heapSize < 2 ^ 64 by omega) (by omega), sub64_eq (by omega) (by omega)]
  simp only [hsz, Except.ok.injEq] at hi
  have hb : lo + 32 ≤ 2 ^ 64 := by omega
  refine ⟨by omega, ?_⟩
  subst hi
  refine ⟨rfl, by omega, hdvd, by simp, ?_, by simp [SizesAligned], ?_, trivial⟩
  · simp only [extent_cons, extent_nil]
    omega
  · simp only [header_setNext _ _ hb (show 0 < 2 ^ 64 by decide),
      header_setPrev _ _ hb (show 0 < 2 ^ 64 by decide),
      header_setSize _ _ hb (show heapSize - waste heapStart - 32 < 2 ^ 64 by omega),
      header_setUsed _ _ hb (show 0 < 2 ^ 32 by decide),
      header_setMagic _ _ hb (show heapMagic < 2 ^ 32 by decide)]
    rfl

/-! ## kmalloc -/

section Calls

variable {s : HeapState} {lo : Nat} {cells : List Cell}

theorem Represents.cell_room {xs ys : List Cell} {c : Cell}
    (hr : Represents s lo (xs ++ c :: ys)) : c.size + 48 < 2 ^ 64 := by
  obtain ⟨hpos, haligned, hfits⟩ := And.intro hr.pos (And.intro hr.aligned hr.fits)
  simp only [extent_append, extent_cons] at hfits
  omega

theorem Represents.length_lt (hr : Represents s lo cells) : cells.length < 2 ^ 64 := by
  have hlen : ∀ cs : List Cell, 32 * cs.length ≤ extent 32 cs := by
    intro cs
    induction cs with
    | nil => simp
    | cons c cs ih =>
        rw [extent_cons, List.length_cons]
        omega
  have := hlen cells
  have := hr.fits
  omega

/-- The walk finds the first fit: `m'` is the memory after the split and after
the block is marked used. -/
theorem kmallocLoop_spec {m : Mem} {n : Nat} (xs : List Cell) {ys : List Cell} (fuel : Nat)
    (hlo : 0 < lo) (hl : Linked m 0 lo (xs ++ ys) 0) (hf : ys.length < fuel)
    (hb : lo + extent 32 (xs ++ ys) < 2 ^ 64) :
    kmallocLoop n fuel m (firstPtr 0 (lo + extent 32 xs) ys) =
      match firstFit n ys with
      | none => .ok (0, m)
      | some (zs, _, _) =>
        .ok (lo + extent 32 (xs ++ zs) + 32,
          setUsed (maybeSplit m (lo + extent 32 (xs ++ zs)) n) (lo + extent 32 (xs ++ zs)) 1) := by
  -- the blocks `xs` have been passed, and the loop stands in front of `ys`
  induction ys generalizing xs fuel with
  | nil =>
      cases fuel with
      | zero => simp at hf
      | succ fuel => simp [kmallocLoop, firstPtr, firstFit]
  | cons c ys ih =>
      cases fuel with
      | zero => simp at hf
      | succ fuel =>
          have hc := hl.header_eq
          simp only [extent_append, extent_cons] at hb
          have hmagic : magic m (lo + extent 32 xs) = heapMagic := magic_of_header hc
          have hused : used m (lo + extent 32 xs) = if c.used then 1 else 0 :=
            used_of_header hc
          have hsize : size m (lo + extent 32 xs) = c.size := size_of_header hc
          have hnext : next m (lo + extent 32 xs) =
              firstPtr 0 (lo + extent 32 (xs ++ [c])) ys := by
            rw [extent_append, extent_cons, extent_nil, ← Nat.add_assoc]
            exact next_of_header hc
          have hz : (used m (lo + extent 32 xs) = 0 ∧ n ≤ size m (lo + extent 32 xs)) ↔
              (c.used = false ∧ n ≤ c.size) := by
            rw [hused, hsize]
            cases c.used <;> simp
          rw [firstPtr, kmallocLoop, if_neg (by omega), if_neg (by simp [hmagic]), firstFit]
          simp only [hz]
          by_cases hfit : c.used = false ∧ n ≤ c.size
          · simp only [if_pos hfit, List.append_nil, headerAligned_eq]
            rw [add64_eq]
            omega
          · simp only [if_neg hfit]
            rw [hnext]
            have hrec := ih (xs ++ [c]) fuel (by simpa using hl) (by simpa using hf)
              (by simp only [extent_append, extent_cons, extent_nil]; omega)
            rw [hrec]
            cases firstFit n ys <;> simp

/-- Marking the first part of a split cell. -/
theorem linked_take {m : Mem} {n : Nat} {xs ys : List Cell} {c : Cell}
    (hb : lo + extent 32 (xs ++ c :: ys) ≤ 2 ^ 64) (hn : n ≤ c.size) (hroom : c.size + 48 < 2 ^ 64)
    (hl : Linked m 0 lo (xs ++ c :: ys) 0) :
    Linked (setUsed (maybeSplit m (lo + extent 32 xs) n) (lo + extent 32 xs) 1) 0 lo
      (xs ++ (split 32 16 ⟨c.size, true⟩ n ++ ys)) 0 := by
  have hs := linked_maybeSplit rfl hb hn hroom hl
  simp only [extent_append, extent_cons] at hb
  by_cases hfit : n + (32 + 16) ≤ c.size
  · rw [split, if_pos hfit, List.cons_append, List.singleton_append] at hs
    rw [split, if_pos hfit]
    refine linked_setUsed rfl ?_ hs true
    simp only [extent_append, extent_cons]
    omega
  · rw [split, if_neg hfit, List.singleton_append] at hs
    rw [split, if_neg hfit]
    refine linked_setUsed rfl ?_ hs true
    simp only [extent_append, extent_cons]
    omega

/-- `kmalloc` takes the first block that is large enough, and splits it where the rest has room
for a header. -/
theorem kmalloc_eq (hr : Represents s lo cells) {sz : Nat} (hsz : sz ≠ 0) :
    kmalloc s sz =
      match firstFit (rounded sz) cells with
      | none => .ok (0, s)
      | some (xs, _, _) => .ok (lo + extent 32 xs + 32, { s with
          mem := setUsed (maybeSplit s.mem (lo + extent 32 xs) (rounded sz))
            (lo + extent 32 xs) 1 }) := by
  have hloop := kmallocLoop_spec (n := rounded sz) [] (2 ^ 64) hr.pos hr.linked
    hr.length_lt hr.fits
  have hptr : firstPtr 0 (lo + extent 32 []) cells = s.heapHead := by
    rw [hr.head]
    obtain ⟨c, cs, rfl⟩ := List.exists_cons_of_ne_nil hr.nonempty
    rfl
  rw [hptr] at hloop
  have hcond : ¬(sz = 0 ∨ s.heapHead = 0) := by
    have := hr.head
    have := hr.pos
    omega
  unfold kmalloc
  rw [if_neg hcond]
  change kmallocLoop (clearAlign (add64 sz alignMask)) (2 ^ 64) s.mem s.heapHead = _ at hloop
  rw [hloop]
  cases firstFit (rounded sz) cells with
  | none => rfl
  | some r => rfl

theorem kmalloc_spec (hr : Represents s lo cells) {sz : Nat} (hsz : sz ≠ 0) :
    match firstFit (rounded sz) cells with
    | none => kmalloc s sz = .ok (0, s)
    | some (xs, c, ys) => ∃ s', kmalloc s sz = .ok (lo + extent 32 xs + 32, s') ∧
        Represents s' lo (xs ++ (split 32 16 ⟨c.size, true⟩ (rounded sz) ++ ys)) := by
  have hcode := kmalloc_eq hr hsz
  cases hff : firstFit (rounded sz) cells with
  | none => rwa [hff] at hcode
  | some r =>
      obtain ⟨xs, c, ys⟩ := r
      rw [hff] at hcode
      obtain ⟨rfl, -, hn⟩ := firstFit_some hff
      have hfits := hr.fits
      refine ⟨_, hcode, hr.head, hr.pos, hr.aligned, ?_, ?_, ?_, ?_⟩
      · simp [split_ne_nil]
      · simpa only [extent_append, extent_split, extent_cons] using hfits
      · exact sizesAligned_split (by decide) (dvd_rounded sz) true hr.sizes
      · exact linked_take hfits.le hn hr.cell_room hr.linked

/-! ## kfree -/

theorem sub64_payload {a : Nat} (ha : a + 32 < 2 ^ 64) : sub64 (a + 32) headerAligned = a := by
  rw [headerAligned_eq, sub64_eq ha (by omega)]
  omega

/-- Merging with the right neighbour. -/
theorem coalesceNext_spec {m : Mem} {xs ys : List Cell} {c : Cell} (hlo : 0 < lo)
    (hal : 16 ∣ lo + extent 32 xs) (hb : lo + extent 32 (xs ++ c :: ys) < 2 ^ 64)
    (hl : Linked m 0 lo (xs ++ c :: ys) 0) :
    ∃ m', coalesceNext m (lo + extent 32 xs) = .ok m' ∧
      Linked m' 0 lo (xs ++ absorb 32 c ys) 0 ∧
      Retires (addrs 32 lo (xs ++ c :: ys)) (addrs 32 lo (xs ++ absorb 32 c ys)) m m' := by
  have hnext : next m (lo + extent 32 xs) = firstPtr 0 (lo + extent 32 xs + (32 + c.size)) ys :=
    next_of_header hl.header_eq
  cases ys with
  | nil =>
      refine ⟨m, ?_, hl, .refl _ _⟩
      rw [firstPtr] at hnext
      unfold coalesceNext
      exact if_neg fun h => h.1 hnext
  | cons d ys =>
      have hd := (linked_append.mp hl).2.2.1
      rw [firstPtr] at hnext
      have hused : used m (lo + extent 32 xs + (32 + c.size)) = if d.used then 1 else 0 :=
        used_of_header hd
      have hmagic : magic m (lo + extent 32 xs + (32 + c.size)) = heapMagic :=
        magic_of_header hd
      obtain ⟨s, u⟩ := d
      unfold coalesceNext
      rw [hnext]
      cases u with
      | true =>
          refine ⟨m, if_neg fun h => ?_, hl, .refl _ _⟩
          rw [hused] at h
          exact Nat.one_ne_zero h.2
      | false =>
          refine ⟨_, ?_, linked_mergeBlocks rfl hb.le hl, retires_mergeBlocks rfl hal hb.le hl⟩
          rw [if_pos ⟨by omega, hused⟩, if_neg (not_not.mpr hmagic)]

/-- Merging with a free left neighbour. -/
theorem coalescePrev_free {m : Mem} {xs ys : List Cell} {t : Nat} {c : Cell} (hlo : 0 < lo)
    (hal : 16 ∣ lo + extent 32 xs) (hb : lo + extent 32 (xs ++ ⟨t, false⟩ :: c :: ys) < 2 ^ 64)
    (hl : Linked m 0 lo (xs ++ ⟨t, false⟩ :: c :: ys) 0) :
    ∃ m', coalescePrev m (lo + extent 32 xs + (32 + t)) = .ok m' ∧
      Linked m' 0 lo (xs ++ ⟨t + (32 + c.size), false⟩ :: ys) 0 ∧
      Retires (addrs 32 lo (xs ++ ⟨t, false⟩ :: c :: ys))
        (addrs 32 lo (xs ++ ⟨t + (32 + c.size), false⟩ :: ys)) m m' := by
  have ht := hl.header_eq
  have hc := (linked_append.mp hl).2.2.1
  have hprev : prev m (lo + extent 32 xs + (32 + t)) = lo + extent 32 xs := prev_of_header hc
  have hused : used m (lo + extent 32 xs) = 0 := used_of_header ht
  have hmagic : magic m (lo + extent 32 xs) = heapMagic := magic_of_header ht
  refine ⟨_, ?_, linked_mergeBlocks rfl hb.le hl, retires_mergeBlocks rfl hal hb.le hl⟩
  unfold coalescePrev
  rw [hprev, if_pos ⟨by omega, hused⟩, if_neg (not_not.mpr hmagic)]

/-- Without a free left neighbour nothing is merged. -/
theorem coalescePrev_used {m : Mem} {xs ys : List Cell} {c : Cell}
    (hx : ∀ t, xs.getLast? ≠ some ⟨t, false⟩) (hl : Linked m 0 lo (xs ++ c :: ys) 0) :
    coalescePrev m (lo + extent 32 xs) = .ok m := by
  have hprev : prev m (lo + extent 32 xs) = lastPtr 0 lo xs := prev_of_header hl.header_eq
  unfold coalescePrev
  refine if_neg fun h => ?_
  rw [hprev] at h
  rcases List.eq_nil_or_concat xs with rfl | ⟨xs, ⟨t, u⟩, rfl⟩
  · exact h.1 rfl
  · cases u with
    | false => exact hx t (by simp)
    | true =>
        rw [List.concat_eq_append] at h hl
        rw [lastPtr_concat] at h
        rw [List.append_assoc, List.singleton_append] at hl
        have hused : used m (lo + extent 32 xs) = 1 := used_of_header hl.header_eq
        omega

theorem dvd_extent {us : List Cell} (h : ∀ c ∈ us, 16 ∣ c.size) : 16 ∣ extent 32 us := by
  induction us with
  | nil => simp
  | cons c us ih =>
      have hc : 16 ∣ c.size := h c (by simp)
      have hus := ih fun d hd => h d (by simp [hd])
      rw [extent_cons]
      omega

/-- Every block starts on a multiple of the alignment. -/
theorem Represents.dvd_addr {xs ys : List Cell} {c : Cell}
    (hr : Represents s lo (xs ++ c :: ys)) : 16 ∣ lo + extent 32 xs :=
  Nat.dvd_add hr.aligned (dvd_extent ((sizesAligned_append_iff (by simp)).mp hr.sizes).1)

theorem Represents.addr_lt (hr : Represents s lo cells) : ∀ b ∈ addrs 32 lo cells,
    b + 32 ≤ 2 ^ 64 := by
  intro b hb
  have hbounds := mem_addrs_bounds 32 hb
  have hfits := hr.fits
  omega

/-- `kfree` releases the cell. Headers change, and a block that leaves the list loses its
magic number. -/
theorem kfree_spec {xs ys : List Cell} {n : Nat} (hr : Represents s lo (xs ++ ⟨n, true⟩ :: ys)) :
    ∃ s', kfree s (lo + extent 32 xs + 32) = .ok s' ∧
      Represents s' lo (release 32 xs ⟨n, true⟩ ys) ∧
      Retires (addrs 32 lo (xs ++ ⟨n, true⟩ :: ys)) (addrs 32 lo (release 32 xs ⟨n, true⟩ ys))
        s.mem s'.mem := by
  have hfits := hr.fits
  have hc := hr.linked.header_eq
  have hmagic : magic s.mem (lo + extent 32 xs) = heapMagic := magic_of_header hc
  have hused : used s.mem (lo + extent 32 xs) = 1 := used_of_header hc
  have hl1 := linked_setUsed rfl hfits.le hr.linked false
  have hlo := hr.pos
  have hal := hr.dvd_addr
  have hext : lo + extent 32 (xs ++ ⟨n, false⟩ :: ys) < 2 ^ 64 := by
    simpa only [extent_append, extent_cons] using hfits
  obtain ⟨m1, hm1, hl1, hret1⟩ := coalesceNext_spec hlo hal hext hl1
  simp only [Bool.false_eq_true, if_false] at hm1 hret1
  have hext1 : lo + extent 32 (xs ++ absorb 32 ⟨n, false⟩ ys) < 2 ^ 64 := by
    simpa only [extent_append, extent_absorb, extent_cons] using hfits
  have hdone : ∀ m2, coalescePrev m1 (lo + extent 32 xs) = .ok m2 →
      kfree s (lo + extent 32 xs + 32) = .ok { s with mem := m2 } := by
    intro m2 hm2
    simp only [extent_append, extent_cons] at hfits
    simp only [kfree, sub64_payload (show lo + extent 32 xs + 32 < 2 ^ 64 by omega), hmagic, hused,
      hm1, hm2]
    rw [if_neg (by omega), if_neg (by simp), if_neg (by simp)]
  have hrep : ∀ m2, Linked m2 0 lo (release 32 xs ⟨n, true⟩ ys) 0 →
      Represents { s with mem := m2 } lo (release 32 xs ⟨n, true⟩ ys) := by
    intro m2 hm2
    refine ⟨hr.head, hlo, hr.aligned, ?_, ?_, sizesAligned_release (by decide) hr.sizes, hm2⟩
    · intro hnil
      have := extent_release 32 xs ⟨n, true⟩ ys
      rw [hnil, extent_append, extent_cons, extent_nil] at this
      omega
    · rw [extent_release]
      exact hfits
  -- marking the block free retires nothing
  have hret0 : Retires (addrs 32 lo (xs ++ ⟨n, true⟩ :: ys)) (addrs 32 lo (xs ++ ⟨n, false⟩ :: ys))
      s.mem (setUsed s.mem (lo + extent 32 xs) 0) := by
    have hsame : addrs 32 lo (xs ++ ⟨n, false⟩ :: ys) = addrs 32 lo (xs ++ ⟨n, true⟩ :: ys) := by
      simp only [addrs_append, addrs_cons]
    rw [hsame]
    have hmem : lo + extent 32 xs ∈ addrs 32 lo (xs ++ ⟨n, true⟩ :: ys) :=
      (mem_addrs_iff 32).mpr ⟨xs, _, ys, rfl, rfl⟩
    exact ⟨fun _ hb => hb, headersOnly_setUsed hmem (hr.addr_lt _ hmem) _ _,
      fun b hb hb' => absurd hb hb'⟩
  have hretires : ∀ m2, Retires (addrs 32 lo (xs ++ absorb 32 ⟨n, false⟩ ys))
      (addrs 32 lo (release 32 xs ⟨n, true⟩ ys)) m1 m2 →
      Retires (addrs 32 lo (xs ++ ⟨n, true⟩ :: ys)) (addrs 32 lo (release 32 xs ⟨n, true⟩ ys))
        s.mem m2 := by
    intro m2 hm2
    have hap : ∀ b ∈ addrs 32 lo (xs ++ ⟨n, true⟩ :: ys),
        ∀ b' ∈ addrs 32 lo (xs ++ ⟨n, true⟩ :: ys), b ≠ b' → b + 32 ≤ b' ∨ b' + 32 ≤ b :=
      fun b hb b' hb' hne => addrs_apart 32 hb hb' hne
    exact (hret0.trans hr.addr_lt hap hret1).trans hr.addr_lt hap hm2
  obtain ⟨k, zs, hk⟩ := absorb_free 32 n ys
  rw [hk] at hl1 hext1 hretires
  rcases left_cases xs with ⟨xs, t, rfl⟩ | hx
  · rw [List.append_assoc, List.singleton_append] at hext1 hl1 hretires
    have halt : 16 ∣ lo + extent 32 xs := by
      have hr' := hr
      rw [List.append_assoc, List.singleton_append] at hr'
      exact hr'.dvd_addr
    obtain ⟨m2, hm2, hl2, hret2⟩ := coalescePrev_free hlo halt hext1 hl1
    have haddr : lo + extent 32 (xs ++ [⟨t, false⟩]) = lo + extent 32 xs + (32 + t) := by
      simp only [extent_append, extent_cons, extent_nil]
      omega
    have hcells : release 32 (xs ++ [⟨t, false⟩]) ⟨n, true⟩ ys =
        xs ++ absorb 32 ⟨t, false⟩ (⟨k, false⟩ :: zs) := by
      rw [release_free_left, hk]
    rw [hcells] at hrep hretires ⊢
    exact ⟨_, hdone m2 (by rw [haddr]; exact hm2), hrep m2 hl2, hretires m2 hret2⟩
  · have hcells : release 32 xs ⟨n, true⟩ ys = xs ++ ⟨k, false⟩ :: zs := by
      rw [release_used_left 32 hx, hk]
    rw [hcells] at hrep hretires ⊢
    exact ⟨_, hdone m1 (coalescePrev_used hx hl1), hrep m1 hl1, hretires m1 (.refl _ _)⟩

/-! ## The calls as edits -/

/-- A tiling of the same region in which no free neighbours have appeared. -/
structure Edited (s' : HeapState) (lo : Nat) (cells cells' : List Cell) : Prop where
  rep : Represents s' lo cells'
  extent_eq : extent 32 cells' = extent 32 cells
  coalesced : Coalesced cells → Coalesced cells'

theorem Represents.edited_refl (hr : Represents s lo cells) : Edited s lo cells cells :=
  ⟨hr, rfl, id⟩

theorem Edited.trans {s' : HeapState} {cells' cells'' : List Cell} {t : HeapState}
    (h : Edited s' lo cells cells') (h' : Edited t lo cells' cells'') : Edited t lo cells cells'' :=
  ⟨h'.rep, h'.extent_eq.trans h.extent_eq, fun hc => h'.coalesced (h.coalesced hc)⟩

/-- Taking the first part of a cell writes headers only. -/
theorem grows_take {xs ys : List Cell} {c : Cell} (hr : Represents s lo (xs ++ c :: ys)) {n : Nat}
    (hn : n ≤ c.size) :
    Grows (addrs 32 lo (xs ++ c :: ys))
      (addrs 32 lo (xs ++ (split 32 16 ⟨c.size, true⟩ n ++ ys))) s.mem
      (setUsed (maybeSplit s.mem (lo + extent 32 xs) n) (lo + extent 32 xs) 1) := by
  have hsub := addrs_split_sub lo xs ys c true n
  have hmem : lo + extent 32 xs ∈ addrs 32 lo (xs ++ c :: ys) :=
    (mem_addrs_iff 32).mpr ⟨xs, _, ys, rfl, rfl⟩
  have hsplit := headersOnly_maybeSplit rfl hr.fits.le hr.cell_room hn hr.linked
  have hsame : addrs 32 lo (xs ++ (split 32 16 c n ++ ys)) =
      addrs 32 lo (xs ++ (split 32 16 ⟨c.size, true⟩ n ++ ys)) := by
    simp only [addrs_append, split]
    split
    · simp only [addrs_cons, addrs_nil, extent_cons, extent_nil]
    · simp only [addrs_cons, addrs_nil, extent_cons, extent_nil]
  rw [hsame] at hsplit
  exact ⟨hsub, hsplit.trans (headersOnly_setUsed (hsub hmem) (hr.addr_lt _ hmem) _ _)⟩

/-- `kmalloc` returns NULL and changes nothing, or adds one live block. -/
theorem kmalloc_edit (hr : Represents s lo cells) (sz : Nat) :
    ∃ p s' cells', kmalloc s sz = .ok (p, s') ∧ Edited s' lo cells cells' ∧
      ((p = 0 ∧ s' = s ∧ cells' = cells) ∨
        (p ≠ 0 ∧ ∃ k, rounded sz ≤ k ∧ (live 32 lo cells').Perm ((p, k) :: live 32 lo cells) ∧
          Grows (addrs 32 lo cells) (addrs 32 lo cells') s.mem s'.mem)) := by
  by_cases hsz : sz = 0
  · exact ⟨0, s, cells, by simp [kmalloc, hsz], hr.edited_refl, Or.inl ⟨rfl, rfl, rfl⟩⟩
  have hspec := kmalloc_spec hr hsz
  have hcode := kmalloc_eq hr hsz
  cases hff : firstFit (rounded sz) cells with
  | none =>
      rw [hff] at hspec
      exact ⟨0, s, cells, hspec, hr.edited_refl, Or.inl ⟨rfl, rfl, rfl⟩⟩
  | some r =>
      obtain ⟨xs, c, ys⟩ := r
      rw [hff] at hspec hcode
      obtain ⟨s', hk, hr'⟩ := hspec
      obtain ⟨k, hk', hperm⟩ := live_firstFit 32 (q := 16) (a := lo) hff
      obtain ⟨rfl, hu, hn⟩ := firstFit_some hff
      have hmem : s'.mem = setUsed (maybeSplit s.mem (lo + extent 32 xs) (rounded sz))
          (lo + extent 32 xs) 1 :=
        congrArg HeapState.mem (Prod.mk.inj (Except.ok.inj (hk.symm.trans hcode))).2
      have hgrows := grows_take hr hn
      rw [← hmem] at hgrows
      refine ⟨_, s', _, hk, ⟨hr', ?_, ?_⟩, Or.inr ⟨by omega, k, hk', hperm, hgrows⟩⟩
      · simp only [extent_append, extent_split, extent_cons]
      · intro hc
        refine coalesced_split 32 hc fun _ => ?_
        -- the cell taken was free, so its right neighbour is not
        rw [coalesced_append_iff, coalesced_cons_iff] at hc
        simpa [hu] using hc.2.1.1

/-- `kcalloc` when every block is in use. -/
theorem kcalloc_full (hr : Represents s lo cells) (hu : ∀ c ∈ cells, c.used = true)
    (count sz : Nat) : kcalloc s count sz = .ok (0, s) := by
  have hk : kmalloc s (mul64 count sz) = .ok (0, s) := by
    by_cases hsz : mul64 count sz = 0
    · simp [kmalloc, hsz]
    · have hspec := kmalloc_spec hr hsz
      rwa [firstFit_of_used hu] at hspec
  simp [kcalloc, hk]

/-- `kfree` of a live block takes that block away. -/
theorem kfree_edit (hr : Represents s lo cells) {p n : Nat} (hp : (p, n) ∈ live 32 lo cells) :
    ∃ s' cells', kfree s p = .ok s' ∧ Edited s' lo cells cells' ∧
      (live 32 lo cells).Perm ((p, n) :: live 32 lo cells') ∧
      Retires (addrs 32 lo cells) (addrs 32 lo cells') s.mem s'.mem := by
  obtain ⟨xs, ys, rfl, rfl⟩ := (mem_live_iff 32).mp hp
  obtain ⟨s', hk, hr', hretires⟩ := kfree_spec hr
  refine ⟨s', _, hk, ⟨hr', extent_release 32 _ _ _, coalesced_release 32⟩, ?_, hretires⟩
  rw [live_release]
  simp [live_append, live_cons]

/-- The block of a live pointer. -/
theorem Represents.block_header (hr : Represents s lo cells) {p n : Nat}
    (hp : (p, n) ∈ live 32 lo cells) :
    magic s.mem (sub64 p headerAligned) = heapMagic ∧ size s.mem (sub64 p headerAligned) = n ∧
      p ≠ 0 ∧ p + n < 2 ^ 64 := by
  have hb := mem_live_bounds 32 hp
  have hfits := hr.fits
  obtain ⟨xs, ys, rfl, rfl⟩ := (mem_live_iff 32).mp hp
  rw [sub64_payload (by omega)]
  exact ⟨magic_of_header hr.linked.header_eq, size_of_header hr.linked.header_eq,
    by omega, by omega⟩

/-- Writes inside the payload of a live block leave the tiling alone. -/
theorem Represents.payload_write (hr : Represents s lo cells) {p n : Nat}
    (hp : (p, n) ∈ live 32 lo cells) {m : Mem}
    (hm : ∀ x, x < p ∨ p + n ≤ x → m x = s.mem x) : Represents { s with mem := m } lo cells := by
  refine ⟨hr.head, hr.pos, hr.aligned, hr.nonempty, hr.fits, hr.sizes, linked_frame ?_ hr.linked⟩
  have hfits := hr.fits
  obtain ⟨xs, ys, rfl, rfl⟩ := (mem_live_iff 32).mp hp
  intro b hb
  rw [addrs_append, addrs_cons, List.mem_append, List.mem_cons] at hb
  dsimp only at hb
  simp only [extent_append, extent_cons] at hfits
  have hout : b + 32 ≤ lo + extent 32 xs + 32 ∨ lo + extent 32 xs + 32 + n ≤ b := by
    rcases hb with hb | rfl | hb
    · have := mem_addrs_bounds 32 hb
      omega
    · omega
    · have := mem_addrs_bounds 32 hb
      omega
  have hin : b + 32 < 2 ^ 64 := by
    rcases hb with hb | rfl | hb
    · have := mem_addrs_bounds 32 hb
      omega
    · omega
    · have := mem_addrs_bounds 32 hb
      omega
  apply header_congr
  intro i hi
  rw [byteAt_eq (by omega)]
  exact hm _ (by omega)

/-- `kcalloc`, where the product rounded up to the alignment does not wrap. -/
theorem kcalloc_edit (hr : Represents s lo cells) {count sz : Nat}
    (hroom : mul64 count sz + 15 < 2 ^ 64) :
    ∃ p s' cells', kcalloc s count sz = .ok (p, s') ∧ Edited s' lo cells cells' ∧
      ((p = 0 ∧ s' = s ∧ cells' = cells) ∨
        (p ≠ 0 ∧ ∃ k mid, rounded (mul64 count sz) ≤ k ∧
          (live 32 lo cells').Perm ((p, k) :: live 32 lo cells) ∧
          kmalloc s (mul64 count sz) = .ok (p, mid) ∧ Represents mid lo cells' ∧
          s'.mem = memset mid.mem p 0 (mul64 count sz))) := by
  obtain ⟨p, s', cells', hk, hed, hres⟩ := kmalloc_edit hr (mul64 count sz)
  have hcode : kcalloc s count sz =
      .ok (p, if p ≠ 0 then { s' with mem := memset s'.mem p 0 (mul64 count sz) } else s') := by
    simp only [kcalloc, hk]
  rcases hres with ⟨rfl, hs, rfl⟩ | ⟨hp0, k, hkn, hperm, -⟩
  · exact ⟨0, s', cells', by simpa using hcode, hed, Or.inl ⟨rfl, hs, rfl⟩⟩
  · rw [if_pos hp0] at hcode
    refine ⟨p, _, cells', hcode, ⟨?_, hed.extent_eq, hed.coalesced⟩,
      Or.inr ⟨hp0, k, s', hkn, hperm, hk, hed.rep, rfl⟩⟩
    have hp : (p, k) ∈ live 32 lo cells' := hperm.symm.subset (by simp)
    have hbound := (hed.rep.block_header hp).2.2.2
    have hle := le_rounded hroom
    apply hed.rep.payload_write hp
    intro x hx
    apply memset_frame
    intro i hi
    rw [byteAt_eq (by omega)]
    omega

theorem krealloc_fits_eq (hr : Represents s lo cells) {p n newSize : Nat} (hsz : newSize ≠ 0)
    (hp : (p, n) ∈ live 32 lo cells) (hfit : rounded newSize ≤ n) :
    krealloc s p newSize =
      .ok (p, { s with mem := maybeSplit s.mem (sub64 p headerAligned) (rounded newSize) }) := by
  obtain ⟨hmagic, hsize, hp0, -⟩ := hr.block_header hp
  unfold krealloc
  rw [if_neg hp0, if_neg hsz]
  simp only [hmagic, hsize, ne_eq, not_true_eq_false, if_false]
  change (if rounded newSize ≤ n then _ else _) = _
  rw [if_pos hfit]
  rfl

/-- `krealloc` of a live block that fits in place. -/
theorem krealloc_fits (hr : Represents s lo cells) {p n newSize : Nat} (hsz : newSize ≠ 0)
    (hp : (p, n) ∈ live 32 lo cells) (hfit : rounded newSize ≤ n) :
    ∃ s' cells', krealloc s p newSize = .ok (p, s') ∧ Represents s' lo cells' ∧
      extent 32 cells' = extent 32 cells ∧
      (live 32 lo cells').map Prod.fst = (live 32 lo cells).map Prod.fst ∧
      (∃ k others, rounded newSize ≤ k ∧ (live 32 lo cells).Perm ((p, n) :: others) ∧
        (live 32 lo cells').Perm ((p, k) :: others)) ∧
      Grows (addrs 32 lo cells) (addrs 32 lo cells') s.mem s'.mem ∧
      (Coalesced cells →
        (rounded newSize + 48 ≤ n → next s.mem (sub64 p headerAligned) = 0 ∨
          used s.mem (next s.mem (sub64 p headerAligned)) ≠ 0) → Coalesced cells') := by
  have hcode := krealloc_fits_eq hr hsz hp hfit
  have hfits := hr.fits
  obtain ⟨xs, ys, rfl, rfl⟩ := (mem_live_iff 32).mp hp
  have hblk : sub64 (lo + extent 32 xs + 32) headerAligned = lo + extent 32 xs := by
    simp only [extent_append, extent_cons] at hfits
    exact sub64_payload (by omega)
  rw [hblk] at hcode
  have hl := linked_maybeSplit rfl hfits.le hfit hr.cell_room hr.linked
  have hwrites := headersOnly_maybeSplit rfl hfits.le hr.cell_room hfit hr.linked
  obtain ⟨k, hk, hle⟩ := live_split 32 16 (lo + extent 32 xs) n (rounded newSize)
  refine ⟨_, _, hcode, ⟨hr.head, hr.pos, hr.aligned, by simp [split_ne_nil], ?_, ?_, hl⟩, ?_, ?_,
    ⟨k, live 32 lo xs ++ live 32 (lo + extent 32 xs + (32 + n)) ys, hle hfit, ?_, ?_⟩,
    ⟨addrs_split_sub lo xs ys _ true _, hwrites⟩, ?_⟩
  · simpa only [extent_append, extent_split, extent_cons] using hfits
  · exact sizesAligned_split (by decide) (dvd_rounded _) true hr.sizes
  · simp only [extent_append, extent_split, extent_cons]
  · simp [live_append, live_cons, hk, extent_split]
  · simp [live_append, live_cons]
  · simp [live_append, hk, extent_split]
  · intro hc hshrink
    refine coalesced_split 32 hc fun hsp => ?_
    -- the code reads the right neighbour's `used` field
    have hnext : next s.mem (lo + extent 32 xs) = firstPtr 0 (lo + extent 32 xs + (32 + n)) ys :=
      next_of_header hr.linked.header_eq
    rw [hblk, hnext] at hshrink
    cases ys with
    | nil => simp [HeadUsed]
    | cons d ys =>
        have hd := (linked_append.mp hr.linked).2.2.1
        have hused : used s.mem (lo + extent 32 xs + (32 + n)) = if d.used then 1 else 0 :=
          used_of_header hd
        have hlo := hr.pos
        rw [firstPtr, hused] at hshrink
        intro t ht
        obtain rfl : d = ⟨t, false⟩ := by simpa using ht
        rcases hshrink hsp with h0 | h1
        · omega
        · simp at h1

theorem krealloc_move_eq (hr : Represents s lo cells) {p n newSize q : Nat} {s1 : HeapState}
    (hsz : newSize ≠ 0) (hp : (p, n) ∈ live 32 lo cells) (hbig : n < rounded newSize)
    (hk : kmalloc s newSize = .ok (q, s1)) :
    krealloc s p newSize =
      if q = 0 then .ok (0, s1)
      else
        match kfree { s1 with mem := memcpy s1.mem q p (size s1.mem (sub64 p headerAligned)) } p with
        | .ok s => .ok (q, s)
        | .error e => .error e := by
  obtain ⟨hmagic, hsize, hp0, -⟩ := hr.block_header hp
  unfold krealloc
  rw [if_neg hp0, if_neg hsz]
  simp only [hmagic, hsize, ne_eq, not_true_eq_false, if_false]
  refine (if_neg (Nat.not_le.mpr hbig)).trans ?_
  exact hk ▸ rfl

/-- What a move does to a block of `n` bytes at `p`: one of `k` bytes is taken at `q`, the bytes
are copied and the old block is given back. -/
structure Moves (s s' : HeapState) (lo : Nat) (cells cells' : List Cell) (newSize p n q k : Nat)
    (mid : HeapState) (midCells : List Cell) : Prop where
  taken : kmalloc s newSize = .ok (q, mid)
  rep : Represents mid lo midCells
  perm : (live 32 lo midCells).Perm ((q, k) :: live 32 lo cells)
  grows : Grows (addrs 32 lo cells) (addrs 32 lo midCells) s.mem mid.mem
  released : (live 32 lo midCells).Perm ((p, n) :: live 32 lo cells')
  retires : Retires (addrs 32 lo midCells) (addrs 32 lo cells') (memcpy mid.mem q p n) s'.mem

/-- `krealloc` of a live block that does not fit: it stays where it is when no
block is found, else it moves. -/
theorem krealloc_move (hr : Represents s lo cells) {p n newSize : Nat} (hsz : newSize ≠ 0)
    (hp : (p, n) ∈ live 32 lo cells) (hbig : n < rounded newSize) :
    ∃ q s' cells', krealloc s p newSize = .ok (q, s') ∧ Edited s' lo cells cells' ∧
      ((q = 0 ∧ s' = s ∧ cells' = cells) ∨
        (q ≠ 0 ∧ ∃ k mid midCells, rounded newSize ≤ k ∧
          Moves s s' lo cells cells' newSize p n q k mid midCells)) := by
  obtain ⟨q, s1, cells1, hk, hed, hres⟩ := kmalloc_edit hr newSize
  have hcode := krealloc_move_eq hr hsz hp hbig hk
  rcases hres with ⟨rfl, hs1, rfl⟩ | ⟨hq0, k, hkn, hperm, hgrows⟩
  · exact ⟨0, s1, cells1, by simpa using hcode, hed, Or.inl ⟨rfl, hs1, rfl⟩⟩
  have hp1 : (p, n) ∈ live 32 lo cells1 := hperm.symm.subset (by simp [hp])
  have hq1 : (q, k) ∈ live 32 lo cells1 := hperm.symm.subset (by simp)
  have hcopy : Represents { s1 with mem := memcpy s1.mem q p n } lo cells1 := by
    have hbound := (hed.rep.block_header hq1).2.2.2
    apply hed.rep.payload_write hq1
    intro x hx
    apply memcpy_frame
    intro i hi
    rw [byteAt_eq (by omega)]
    omega
  obtain ⟨s2, cells2, hf, hed2, hperm2, hretires⟩ := kfree_edit hcopy hp1
  rw [if_neg hq0, (hed.rep.block_header hp1).2.1, hf] at hcode
  refine ⟨q, s2, cells2, hcode, ⟨hed2.rep, hed2.extent_eq.trans hed.extent_eq,
    fun hc => hed2.coalesced (hed.coalesced hc)⟩, Or.inr ⟨hq0, k, s1, cells1, hkn, ?_⟩⟩
  exact ⟨hk, hed.rep, hperm, hgrows, hperm2, hretires⟩

end Calls

end PolandOS.Heap
