import PolandOS.Mm.HeapReach

/-! # Pointers that were released

A pointer that was returned, released and not returned again is stale. The header in front of it
may have been merged into a neighbour, may head a free block again, or may lie inside the payload
of another allocation.

* `stale_caught`: `kfree` catches every stale pointer at its first two checks. `krealloc` makes
  only the first of them, so it catches a stale pointer exactly when no free block of the list
  starts at its former header.

Assumed of the clients: the word `HEAP_MAGIC` is not brought to the former header of the pointer,
by a store or by data that `krealloc` moves.
-/

namespace PolandOS.Heap

open ByteMem Tiling Runs

/-- The heap with its clients, and every pointer that was ever returned to them. -/
structure History where
  world : World
  issued : List Nat

/-- A call, with the pointers that are live after it entered in the record. -/
def Track (h : History) (c : Call) (h' : History) : Prop :=
  Step h.world c h'.world ∧ h'.issued = h'.world.live ++ h.issued

/-- Returned at some time, released, and not returned again. -/
def Stale (h : History) (p : Nat) : Prop := p ∈ h.issued ∧ p ∉ h.world.live

instance (h : History) (p : Nat) : Decidable (Stale h p) := by
  unfold Stale
  infer_instance

/-- The word `HEAP_MAGIC` has got to the former header of `p`. -/
def Forged (m m' : Mem) (p : Nat) : Prop :=
  magic m (sub64 p headerAligned) ≠ heapMagic ∧ magic m' (sub64 p headerAligned) = heapMagic

/-- Neither a store of a client nor the copy of a moving `krealloc` brings `HEAP_MAGIC` to the
former header of `p`. -/
def NoForge (p : Nat) (h : History) : Call → Prop
  | .store a v => Stale h p → ¬Forged h.world.heap.mem (set h.world.heap.mem a v) p
  | .krealloc r n =>
    let blk := sub64 r headerAligned
    Stale h p → r ≠ 0 → n ≠ 0 → size h.world.heap.mem blk < rounded n →
      ∀ q mid, kmalloc h.world.heap n = .ok (q, mid) → q ≠ 0 →
        ¬Forged mid.mem (memcpy mid.mem q r (size mid.mem blk)) p
  | _ => True

/-- The former header of `p` is that of a free block of the list. -/
def HeadsFreeBlock (s : HeapState) (p : Nat) : Prop :=
  let blk := sub64 p headerAligned
  magic s.mem blk = heapMagic ∧ used s.mem blk = 0 ∧ ∃ bs, Reaches s.mem s.heapHead bs ∧ blk ∈ bs

/-- `kfree` stops at one of its first two checks. -/
def ReleaseCaught (s : HeapState) (p : Nat) : Prop :=
  kfree s p = .error (.panic "kfree: korupcja sterty! ptr=%p\n") ∨
    kfree s p = .error (.panic "kfree: podwojne zwolnienie! ptr=%p\n")

/-- `krealloc` stops at its check of the header. -/
def ResizeCaught (s : HeapState) (p n : Nat) : Prop :=
  krealloc s p n = .error (.panic "krealloc: korupcja sterty! ptr=%p\n")

/-! ## Stale headers -/

/-- A block with the magic number is in the list. -/
def Listed (s : HeapState) (b : Nat) : Prop :=
  magic s.mem b = heapMagic → ∃ bs, Reaches s.mem s.heapHead bs ∧ b ∈ bs

section

variable {s s' : HeapState} {lo : Nat} {cells cells' : List Cell}

theorem Represents.listed_iff (hr : Represents s lo cells) {b : Nat} :
    Listed s b ↔ (magic s.mem b = heapMagic → b ∈ addrs 32 lo cells) := by
  constructor
  · intro h hm
    obtain ⟨bs, hbs, hb⟩ := h hm
    rwa [hbs.unique hr.reached] at hb
  · intro h hm
    exact ⟨_, hr.reached, h hm⟩

/-- The blocks of the list and their predecessors are aligned. -/
theorem Represents.block_dvd (hr : Represents s lo cells) {b : Nat} (hb : b ∈ addrs 32 lo cells) :
    16 ∣ b ∧ 16 ∣ prev s.mem b := by
  have htiling := hr.exactTiling
  refine ⟨htiling.aligned b hb, ?_⟩
  obtain ⟨xs, ys, hsplit⟩ := List.append_of_mem hb
  rw [htiling.prev xs b ys hsplit]
  cases hlast : xs.getLast? with
  | none => exact dvd_zero 16
  | some c =>
      refine htiling.aligned c ?_
      rw [hsplit]
      exact List.mem_append_left _ (List.mem_of_getLast? hlast)

/-- The word 16 bytes into a header is the low half of `prev`. -/
theorem magic_prev (m : Mem) (b : Nat) : magic m (b + 16) = prev m b % 2 ^ 32 := by
  have hsplit : prev m b = readLE m (b + 16) 4 + 256 ^ 4 * readLE m (b + 16 + 4) 4 :=
    readLE_add m (b + 16) 4 4
  have hlt := readLE_lt m (b + 16) 4
  unfold magic
  omega

/-- Writes to headers do not make a magic number outside them: it would have to be the lower half
of an aligned `prev`. -/
theorem magic_of_headersOnly {bs : List Nat} {m m' : Mem} {b : Nat} (hdvd : 16 ∣ b)
    (hb64 : b + 32 ≤ 2 ^ 64) (hbs : ∀ d ∈ bs, 16 ∣ d ∧ 16 ∣ prev m' d) (hw : HeadersOnly bs m m')
    (hb : b ∉ bs) (hm : magic m' b = heapMagic) : magic m b = heapMagic := by
  by_cases hover : ∃ d ∈ bs, b = d + 16
  · exfalso
    obtain ⟨d, hd, rfl⟩ := hover
    have hprev := (hbs d hd).2
    rw [magic_prev] at hm
    unfold heapMagic at hm
    omega
  · have hsame : magic m' b = magic m b := by
      apply readLE_congr
      intro i hi
      rw [byteAt_eq (by omega)]
      apply hw
      rintro ⟨d, hd, hle, hlt⟩
      have hdd := (hbs d hd).1
      have hcases : b = d ∨ b = d + 16 := by omega
      rcases hcases with rfl | heq
      · exact hb hd
      · exact hover ⟨d, hd, heq⟩
    exact hsame.symm.trans hm

theorem listed_grows {b : Nat} (hr : Represents s lo cells) (hr' : Represents s' lo cells')
    {m' : Mem} (hs' : s'.mem = m') (hdvd : 16 ∣ b) (hb64 : b + 32 ≤ 2 ^ 64)
    (hg : Grows (addrs 32 lo cells) (addrs 32 lo cells') s.mem m') (h : Listed s b) :
    Listed s' b := by
  rw [hr.listed_iff] at h
  rw [hr'.listed_iff]
  subst hs'
  intro hm
  by_contra hb
  exact hb (hg.sub (h (magic_of_headersOnly hdvd hb64 (fun d hd => hr'.block_dvd hd) hg.frame hb hm)))

/-- The block that has left the list has lost its magic number. -/
theorem listed_retires {b : Nat} {m : Mem} (hr' : Represents s' lo cells') (hdvd : 16 ∣ b)
    (hb64 : b + 32 ≤ 2 ^ 64) (hal : ∀ d ∈ addrs 32 lo cells, 16 ∣ d)
    (hret : Retires (addrs 32 lo cells) (addrs 32 lo cells') m s'.mem)
    (h : magic m b = heapMagic → b ∈ addrs 32 lo cells) : Listed s' b := by
  rw [hr'.listed_iff]
  intro hm
  by_contra hb'
  have hbs : ∀ d ∈ addrs 32 lo cells, 16 ∣ d ∧ 16 ∣ prev s'.mem d := by
    intro d hd
    refine ⟨hal d hd, ?_⟩
    by_cases hd' : d ∈ addrs 32 lo cells'
    · exact (hr'.block_dvd hd').2
    · exact (hret.retired d hd hd').2
  by_cases hb : b ∈ addrs 32 lo cells
  · have hzero := (hret.retired b hb hb').1
    rw [hzero] at hm
    exact absurd hm (by decide)
  · exact hb (h (magic_of_headersOnly hdvd hb64 hbs hret.frame hb hm))

/-- Clearing memory makes no magic number. -/
theorem magic_of_memset {m : Mem} {p n b : Nat} (hm : magic (memset m p 0 n) b = heapMagic) :
    magic m b = heapMagic := by
  have hsame : magic (memset m p 0 n) b = magic m b := by
    apply readLE_congr
    intro i hi
    apply memset_frame
    intro j hj heq
    refine magic_ne_of_zero hi ?_ hm
    rw [heq]
    exact memset_fill m 0 hj
  exact hsame.symm.trans hm

end

/-! ## One call -/

section

variable {w w' : World} {lo total : Nat} {cells : List Cell} {p : Nat}

theorem kmalloc_listed (hi : Inv lo total w cells) {b n q : Nat} {s' : HeapState} (hdvd : 16 ∣ b)
    (hb64 : b + 32 ≤ 2 ^ 64) (hk : kmalloc w.heap n = .ok (q, s')) (h : Listed w.heap b) :
    Listed s' b := by
  obtain ⟨q1, s1, cells1, hk1, hed, hres⟩ := kmalloc_edit hi.rep n
  obtain ⟨rfl, rfl⟩ := Prod.mk.inj (Except.ok.inj (hk1.symm.trans hk))
  rcases hres with ⟨-, rfl, -⟩ | ⟨-, k, -, -, hgrows⟩
  · exact h
  · exact listed_grows hi.rep hed.rep rfl hdvd hb64 hgrows h

/-- Behind `kcalloc` a header is still in the list, or the clearing has wiped every header out. -/
theorem kcalloc_listed (hi : Inv lo total w cells) {b count n q : Nat} {s' : HeapState}
    (hdvd : 16 ∣ b) (hb64 : b + 32 ≤ 2 ^ 64) (hk : kcalloc w.heap count n = .ok (q, s'))
    (h : Listed w.heap b) : Listed s' b ∨ Dead ⟨s', hold q w.live⟩ := by
  by_cases hroom : mul64 count n + 15 < 2 ^ 64
  · left
    obtain ⟨q1, s1, cells1, hk1, hed, hres⟩ := kcalloc_edit hi.rep hroom
    obtain ⟨rfl, rfl⟩ := Prod.mk.inj (Except.ok.inj (hk1.symm.trans hk))
    rcases hres with ⟨-, rfl, -⟩ | ⟨-, k, mid, -, -, htaken, hmid, hmem⟩
    · exact h
    · -- the list grows, then the new payload is cleared
      have hgrown := hmid.listed_iff.mp (kmalloc_listed hi hdvd hb64 htaken h)
      refine hed.rep.listed_iff.mpr fun hm => ?_
      rw [hmem] at hm
      exact hgrown (magic_of_memset hm)
  · by_cases hq : q = 0
    · left
      obtain ⟨q1, s1, cells1, hk1, hed, hres⟩ := kmalloc_edit hi.rep (mul64 count n)
      have hcode : kcalloc w.heap count n = .ok (q1,
          if q1 ≠ 0 then { s1 with mem := memset s1.mem q1 0 (mul64 count n) } else s1) := by
        simp only [kcalloc, hk1]
      obtain ⟨rfl, rfl⟩ := Prod.mk.inj (Except.ok.inj (hcode.symm.trans hk))
      rw [if_neg (fun hne => hne hq)]
      exact kmalloc_listed hi hdvd hb64 hk1 h
    · exact .inr (kcalloc_wraps hi (Nat.le_of_not_lt hroom) hk hq)

theorem kfree_listed (hi : Inv lo total w cells) {b q : Nat} {s' : HeapState} (hdvd : 16 ∣ b)
    (hb64 : b + 32 ≤ 2 ^ 64) (hq : q = 0 ∨ q ∈ w.live) (hk : kfree w.heap q = .ok s')
    (h : Listed w.heap b) : Listed s' b := by
  rcases hq with rfl | hq
  · obtain rfl : w.heap = s' := Except.ok.inj hk
    exact h
  · obtain ⟨k, hlive⟩ := hi.mem_live hq
    obtain ⟨s1, cells1, hk1, hed, -, hret⟩ := kfree_edit hi.rep hlive
    obtain rfl := Except.ok.inj (hk1.symm.trans hk)
    exact listed_retires hed.rep hdvd hb64 (fun d hd => (hi.rep.block_dvd hd).1) hret
      (hi.rep.listed_iff.mp h)

/-- Behind `krealloc` too, unless the copy forges the magic number. -/
theorem krealloc_listed {issued : List Nat} (hi : Inv lo total w cells) (hp : p ∈ issued)
    (hdvd : 16 ∣ p) (hpos : 32 < p) (hlt : p < 2 ^ 64) {r n q : Nat} {s' : HeapState}
    (hr : r = 0 ∨ r ∈ w.live) (hk : krealloc w.heap r n = .ok (q, s'))
    (hforge : NoForge p ⟨w, issued⟩ (.krealloc r n)) (h : Listed w.heap (p - 32)) :
    Listed s' (p - 32) := by
  have hb : 16 ∣ p - 32 := by omega
  have hb64 : p - 32 + 32 ≤ 2 ^ 64 := by omega
  have hblk : sub64 p headerAligned = p - 32 := by rw [headerAligned_eq, sub64_eq hlt (by omega)]
  by_cases hr0 : r = 0
  · have hcode : krealloc w.heap r n = kmalloc w.heap n := if_pos hr0
    exact kmalloc_listed hi hb hb64 (hcode.symm.trans hk) h
  have hrlive := hr.resolve_left hr0
  obtain ⟨k, hrk⟩ := hi.mem_live hrlive
  by_cases hn : n = 0
  · obtain ⟨s1, cells1, hf, -⟩ := kfree_edit hi.rep hrk
    have hcode : krealloc w.heap r n = .ok (0, s1) := by
      simp only [krealloc, hf]
      rw [if_neg hr0, if_pos hn]
    obtain ⟨-, rfl⟩ := Prod.mk.inj (Except.ok.inj (hcode.symm.trans hk))
    exact kfree_listed hi hb hb64 hr hf h
  by_cases hfit : rounded n ≤ k
  · obtain ⟨s1, cells1, hcode, hrep, -, -, -, hgrows, -⟩ := krealloc_fits hi.rep hn hrk hfit
    obtain ⟨-, rfl⟩ := Prod.mk.inj (Except.ok.inj (hcode.symm.trans hk))
    exact listed_grows hi.rep hrep rfl hb hb64 hgrows h
  · obtain ⟨q1, s1, cells1, hcode, hed, hres⟩ := krealloc_move hi.rep hn hrk (by omega)
    obtain ⟨rfl, rfl⟩ := Prod.mk.inj (Except.ok.inj (hcode.symm.trans hk))
    rcases hres with ⟨-, rfl, -⟩ | ⟨hq, j, mid, midCells, -, hmove⟩
    · exact h
    · have hmid := hmove.rep.listed_iff.mp (kmalloc_listed hi hb hb64 hmove.taken h)
      have hrmid : (r, k) ∈ live 32 lo midCells := hmove.perm.symm.subset (by simp [hrk])
      refine listed_retires hed.rep hb hb64 (fun d hd => (hmove.rep.block_dvd hd).1)
        hmove.retires fun hm => ?_
      by_cases hplive : p ∈ w.live
      · exact hmove.grows.sub (hi.live_dvd hplive).2.2.2
      · -- the copy writes the caller's bytes where the stale header was
        have hclean := hforge ⟨hp, hplive⟩ hr0 hn
          (by rw [(hi.rep.block_header hrk).2.1]; omega) q1 mid hmove.taken hq
        unfold Forged at hclean
        rw [hblk, (hmove.rep.block_header hrmid).2.1] at hclean
        by_contra hnot
        exact hclean ⟨fun hmagic => hnot (hmid hmagic), hm⟩

theorem store_listed {issued : List Nat} (hi : Inv lo total w cells) (hp : p ∈ issued)
    (hpos : 32 < p) (hlt : p < 2 ^ 64) {a : Nat} {v : UInt8}
    (hadm : Admissible w (.store a v)) (hforge : NoForge p ⟨w, issued⟩ (.store a v))
    (h : Listed w.heap (p - 32)) :
    Listed { w.heap with mem := set w.heap.mem a v } (p - 32) := by
  have hblk : sub64 p headerAligned = p - 32 := by rw [headerAligned_eq, sub64_eq hlt (by omega)]
  obtain ⟨r, hr, hra, har⟩ := hadm
  obtain ⟨k, hrk⟩ := hi.mem_live hr
  rw [(hi.rep.block_header hrk).2.1] at har
  have hrep : Represents { w.heap with mem := set w.heap.mem a v } lo cells :=
    hi.rep.payload_write hrk fun x hx => set_ne _ _ (by omega)
  refine hrep.listed_iff.mpr fun hm => ?_
  by_cases hplive : p ∈ w.live
  · exact (hi.live_dvd hplive).2.2.2
  · have hclean := hforge ⟨hp, hplive⟩
    unfold Forged at hclean
    rw [hblk] at hclean
    by_contra hnot
    exact hclean ⟨fun hmagic => hnot (hi.rep.listed_iff.mp h hmagic), hm⟩

/-- No call brings a magic number to the former header of `p`. -/
theorem step_listed {h h' : History} {c : Call} (hi : Inv lo total h.world cells)
    (hp : p ∈ h.issued) (hdvd : 16 ∣ p) (hpos : 32 < p) (hlt : p < 2 ^ 64)
    (hs : Guarded Track (NoForge p) h c h') (hl : Listed h.world.heap (p - 32)) :
    Listed h'.world.heap (p - 32) ∨ Dead h'.world := by
  obtain ⟨w, issued⟩ := h
  obtain ⟨w', issued'⟩ := h'
  obtain ⟨hforge, ⟨hadm, hexec⟩, -⟩ := hs
  have hb : 16 ∣ p - 32 := by omega
  have hb64 : p - 32 + 32 ≤ 2 ^ 64 := by omega
  dsimp only at *
  -- one lemma for each function; only `kcalloc` can wipe the headers out
  cases c with
  | kmalloc n =>
      left
      obtain ⟨q, s1, cells1, hk, -⟩ := kmalloc_edit hi.rep n
      obtain rfl := Except.ok.inj ((exec_kmalloc hk).symm.trans hexec)
      exact kmalloc_listed hi hb hb64 hk hl
  | kcalloc count n =>
      cases hk : kcalloc w.heap count n with
      | error e =>
          simp only [exec, hk] at hexec
          cases hexec
      | ok r =>
          obtain rfl := Except.ok.inj ((exec_kcalloc hk).symm.trans hexec)
          exact kcalloc_listed hi hb hb64 hk hl
  | kfree q =>
      left
      cases hk : kfree w.heap q with
      | error e =>
          simp only [exec, hk] at hexec
          cases hexec
      | ok s1 =>
          obtain rfl := Except.ok.inj ((exec_kfree hk).symm.trans hexec)
          exact kfree_listed hi hb hb64 hadm hk hl
  | krealloc r n =>
      left
      cases hk : krealloc w.heap r n with
      | error e =>
          simp only [exec, hk] at hexec
          cases hexec
      | ok res =>
          obtain rfl := Except.ok.inj ((exec_krealloc hk).symm.trans hexec)
          exact krealloc_listed hi hp hdvd hpos hlt hadm hk hforge hl
  | store a v =>
      left
      obtain rfl := Except.ok.inj hexec
      exact store_listed hi hp hpos hlt hadm hforge hl

end

/-! ## Whole runs -/

/-- What is known of `p` in a reachable heap: it is aligned, and if its former header has a magic
number then this is a block of the list; or the heap is dead. -/
structure Traced (lo total p : Nat) (h : History) : Prop where
  addr : p ∈ h.issued → 16 ∣ p ∧ 32 < p ∧ p < 2 ^ 64
  heap : (∃ cells, Inv lo total h.world cells) ∧
    (p ∈ h.issued → Listed h.world.heap (p - 32)) ∨ Dead h.world

section

variable {w w' : World} {lo total : Nat} {cells : List Cell} {p : Nat}

/-- One call keeps what is known of `p`. -/
theorem step_traced {h h' : History} {c : Call} (ht : Traced lo total p h)
    (hs : Guarded Track (NoForge p) h c h') : Traced lo total p h' := by
  have hstep := hs.2.1
  have hissued := hs.2.2
  have hreach := step_reach (ht.heap.imp And.left id) hstep
  have haddr : p ∈ h'.issued → 16 ∣ p ∧ 32 < p ∧ p < 2 ^ 64 := by
    intro hp
    rw [hissued] at hp
    rcases List.mem_append.mp hp with hlive | hold
    · rcases hreach with ⟨cells', hi'⟩ | hdead
      · obtain ⟨hdvd, hpos, hlt, -⟩ := hi'.live_dvd hlive
        exact ⟨hdvd, hpos, hlt⟩
      · obtain ⟨hdvd, hpos, hlt, -⟩ := hdead.live p hlive
        exact ⟨hdvd, hpos, hlt⟩
    · exact ht.addr hold
  refine ⟨haddr, ?_⟩
  rcases ht.heap with ⟨⟨cells, hi⟩, hl⟩ | hdead
  · rcases hreach with ⟨cells', hi'⟩ | hdead'
    · by_cases hold : p ∈ h.issued
      · obtain ⟨hdvd, hpos, hlt⟩ := ht.addr hold
        rcases step_listed hi hold hdvd hpos hlt hs (hl hold) with hl' | hdead'
        · exact .inl ⟨⟨cells', hi'⟩, fun _ => hl'⟩
        · exact .inr hdead'
      · -- a pointer returned for the first time is live
        refine .inl ⟨⟨cells', hi'⟩, fun hp => ?_⟩
        rw [hissued] at hp
        have hlive := (List.mem_append.mp hp).resolve_right hold
        exact fun _ => ⟨_, hi'.rep.reached, (hi'.live_dvd hlive).2.2.2⟩
    · exact .inr hdead'
  · rw [hdead.step hstep]
    exact .inr hdead

variable {m : Mem} {heapStart heapSize : Nat} {s₀ : HeapState}

/-- The panics of `kmalloc` have another text. -/
theorem kmallocLoop_error {n fuel cur : Nat} {m : Mem} :
    kmallocLoop n fuel m cur ≠ .error (.panic "krealloc: korupcja sterty! ptr=%p\n") := by
  induction fuel generalizing cur with
  | zero =>
      rw [kmallocLoop]
      intro h
      cases h
  | succ fuel ih =>
      rw [kmallocLoop]
      split
      · intro h
        cases h
      · split
        · simp
        · split
          · intro h
            cases h
          · exact ih

theorem kmalloc_error {s : HeapState} {n : Nat} :
    kmalloc s n ≠ .error (.panic "krealloc: korupcja sterty! ptr=%p\n") := by
  unfold kmalloc
  split
  · exact fun h => nomatch h
  · split
    · exact fun h => nomatch h
    · rename_i e he
      intro h
      rw [Except.error.inj h] at he
      exact kmallocLoop_error he

/-- So have those of `kfree`. -/
theorem kfree_error {s : HeapState} {q : Nat} :
    kfree s q ≠ .error (.panic "krealloc: korupcja sterty! ptr=%p\n") := by
  have hnext : ∀ m b, coalesceNext m b ≠ .error (.panic "krealloc: korupcja sterty! ptr=%p\n") := by
    intro m b
    unfold coalesceNext
    dsimp only
    split
    · split <;> simp
    · exact fun h => nomatch h
  have hprev : ∀ m b, coalescePrev m b ≠ .error (.panic "krealloc: korupcja sterty! ptr=%p\n") := by
    intro m b
    unfold coalescePrev
    dsimp only
    split
    · split <;> simp
    · exact fun h => nomatch h
  unfold kfree
  dsimp only
  split
  · exact fun h => nomatch h
  · split
    · simp
    · split
      · simp
      · split
        · rename_i e he
          intro h
          rw [Except.error.inj h] at he
          exact hnext _ _ he
        · split
          · rename_i e he
            intro h
            rw [Except.error.inj h] at he
            exact hprev _ _ he
          · exact fun h => nomatch h

/-- `krealloc` looks at the magic number only. -/
theorem resizeCaught_iff {s : HeapState} {n : Nat} (hp : p ≠ 0) (hn : n ≠ 0) :
    ResizeCaught s p n ↔ magic s.mem (sub64 p headerAligned) ≠ heapMagic := by
  unfold ResizeCaught krealloc
  rw [if_neg hp, if_neg hn]
  dsimp only
  by_cases hmagic : magic s.mem (sub64 p headerAligned) = heapMagic
  · rw [if_neg (fun hne => hne hmagic)]
    refine iff_of_false ?_ fun hne => hne hmagic
    split
    · exact fun h => nomatch h
    · split
      · rename_i e he
        intro h
        rw [Except.error.inj h] at he
        exact kmalloc_error he
      · split
        · exact fun h => nomatch h
        · split
          · exact fun h => nomatch h
          · rename_i e he
            intro h
            rw [Except.error.inj h] at he
            exact kfree_error he
  · exact iff_of_true (if_pos hmagic) hmagic

theorem releaseCaught_of {s : HeapState} (hp : p ≠ 0)
    (h : magic s.mem (sub64 p headerAligned) = heapMagic →
      used s.mem (sub64 p headerAligned) = 0) : ReleaseCaught s p := by
  unfold ReleaseCaught kfree
  rw [if_neg hp]
  by_cases hmagic : magic s.mem (sub64 p headerAligned) = heapMagic
  · right
    dsimp only
    rw [if_neg (fun hne => hne hmagic), if_pos (h hmagic)]
  · exact .inl (if_pos hmagic)

/-- In every run in which `HEAP_MAGIC` is not brought to the former header of a released pointer:
`kfree` catches the pointer, and `krealloc` to any size catches it if and only if its former
header is not that of a free block. -/
theorem stale_caught (hr : RegionOk heapStart heapSize)
    (hi : heapInit m heapStart heapSize = .ok s₀) {h : History}
    (hrun : Run (Guarded Track (NoForge p)) ⟨⟨s₀, []⟩, []⟩ h) (hp : Stale h p) :
    ReleaseCaught h.world.heap p ∧
      ∀ n, 0 < n → (ResizeCaught h.world.heap p n ↔ ¬HeadsFreeBlock h.world.heap p) := by
  have htraced : Traced (heapStart + waste heapStart) (heapSize - waste heapStart) p h :=
    hrun.invariant (I := Traced (heapStart + waste heapStart) (heapSize - waste heapStart) p)
      { addr := fun h0 => absurd h0 List.not_mem_nil
        heap := .inl ⟨⟨_, inv_heapInit hr hi⟩, fun h0 => absurd h0 List.not_mem_nil⟩ }
      fun _ _ _ ht hs => step_traced ht hs
  obtain ⟨hdvd, hpos, hlt⟩ := htraced.addr hp.1
  have hp0 : p ≠ 0 := by omega
  have hblk : sub64 p headerAligned = p - 32 := by rw [headerAligned_eq, sub64_eq hlt (by omega)]
  -- a block of the list that no client holds is free
  have hfree : magic h.world.heap.mem (sub64 p headerAligned) = heapMagic →
      HeadsFreeBlock h.world.heap p := by
    intro hmagic
    rcases htraced.heap with ⟨⟨cells, hinv⟩, hl⟩ | hdead
    · obtain ⟨bs, hbs, hb⟩ := hl hp.1 (hblk ▸ hmagic)
      refine ⟨hmagic, ?_, bs, hbs, hblk.symm ▸ hb⟩
      rw [hbs.unique hinv.rep.reached] at hb
      obtain ⟨xs, c, ys, rfl, haddr⟩ := (mem_addrs_iff 32).mp hb
      have hused : used h.world.heap.mem (p - 32) = if c.used then 1 else 0 := by
        rw [haddr]
        exact used_of_header hinv.rep.linked.header_eq
      rw [hblk, hused]
      cases hcu : c.used with
      | false => rfl
      | true =>
          exfalso
          have hlive : (p, c.size) ∈ live 32 (heapStart + waste heapStart) (xs ++ c :: ys) := by
            rw [live_append, live_cons, hcu]
            have hpay : p = heapStart + waste heapStart + extent 32 xs + 32 := by omega
            simp [hpay]
          exact hp.2 (hinv.owns.symm.subset (List.mem_map_of_mem (f := Prod.fst) hlive))
    · exact absurd hmagic (hdead.magic_ne (sub64_header_dvd hdvd) (sub64_lt _ _))
  constructor
  · exact releaseCaught_of hp0 fun hmagic => (hfree hmagic).2.1
  · intro n hn
    rw [resizeCaught_iff hp0 (by omega)]
    exact ⟨fun hne hfree => hne hfree.1, fun hnot hmagic => hnot (hfree hmagic)⟩

/-- The calls that move no client data. -/
def TakesOrFrees : Call → Bool
  | .kmalloc _ => true
  | .kfree _ => true
  | _ => false

/-- Clients that take and give back blocks, and store nothing. -/
def replay (h : History) : List Call → Option History
  | [] => some h
  | c :: cs =>
    if Admissible h.world c ∧ TakesOrFrees c then
      match exec h.world c with
      | .ok w => replay ⟨w, w.live ++ h.issued⟩ cs
      | .error _ => none
    else none

/-- Calls that are replayed make a run. -/
theorem run_of_replay {h₀ h h' : History} {cs : List Call}
    (hrun : Run (Guarded Track (NoForge p)) h₀ h) (hcs : replay h cs = some h') :
    Run (Guarded Track (NoForge p)) h₀ h' := by
  induction cs generalizing h with
  | nil =>
      obtain rfl := Option.some.inj hcs
      exact hrun
  | cons c cs ih =>
      rw [replay] at hcs
      by_cases hc : Admissible h.world c ∧ TakesOrFrees c
      · have hguard : NoForge p h c := by
          cases c with
          | kmalloc n => trivial
          | kfree q => trivial
          | kcalloc count n => cases hc.2
          | krealloc q n => cases hc.2
          | store a v => cases hc.2
        rw [if_pos hc] at hcs
        cases hw : exec h.world c with
        | error e =>
            rw [hw] at hcs
            cases hcs
        | ok w =>
            rw [hw] at hcs
            exact ih (hrun.tail (e := c) ⟨hguard, ⟨hc.1, hw⟩, rfl⟩) hcs
      · rw [if_neg hc] at hcs
        cases hcs

/-- `stale_caught` for the second of two blocks, merged into the first when both are given back. -/
theorem stale_caught_merged : ∃ s₀ h, heapInit (fun _ => 0) 0x100000 0x1000 = .ok s₀ ∧
    replay ⟨⟨s₀, []⟩, []⟩ [.kmalloc 64, .kmalloc 64, .kfree 0x100020, .kfree 0x100080] = some h ∧
    ReleaseCaught h.world.heap 0x100080 ∧
      ∀ n, 0 < n → (ResizeCaught h.world.heap 0x100080 n ↔ ¬HeadsFreeBlock h.world.heap 0x100080) := by
  have hr : RegionOk 0x100000 0x1000 := ⟨by decide, by decide⟩
  obtain ⟨s₀, h0, hany⟩ : ∃ s₀, heapInit (fun _ => 0) 0x100000 0x1000 = .ok s₀ ∧
      (replay ⟨⟨s₀, []⟩, []⟩ [.kmalloc 64, .kmalloc 64, .kfree 0x100020, .kfree 0x100080]).any
        (fun h => decide (Stale h 0x100080)) = true :=
    ⟨_, rfl, by decide +kernel⟩
  obtain ⟨h, hreplay, hstale⟩ := (Option.any_eq_true _ _).mp hany
  exact ⟨s₀, h, h0, hreplay,
    stale_caught hr h0 (run_of_replay .refl hreplay) (of_decide_eq_true hstale)⟩

/-- A pointer whose block is free is handed out again by `krealloc`. -/
theorem stale_handed_out : ∃ s₀ h s', heapInit (fun _ => 0) 0x100000 0x1000 = .ok s₀ ∧
    Run (Guarded Track (NoForge 0x100020)) ⟨⟨s₀, []⟩, []⟩ h ∧ Stale h 0x100020 ∧
    krealloc h.world.heap 0x100020 16 = .ok (0x100020, s') := by
  obtain ⟨s₀, h0, hany⟩ : ∃ s₀, heapInit (fun _ => 0) 0x100000 0x1000 = .ok s₀ ∧
      (replay ⟨⟨s₀, []⟩, []⟩ [.kmalloc 64, .kmalloc 64, .kfree 0x100020]).any
        (fun h => decide (Stale h 0x100020) &&
          match krealloc h.world.heap 0x100020 16 with
          | .ok r => r.1 == 0x100020
          | .error _ => false) = true :=
    ⟨_, rfl, by decide +kernel⟩
  obtain ⟨h, hreplay, hh⟩ := (Option.any_eq_true _ _).mp hany
  obtain ⟨hstale, hcode⟩ := Bool.and_eq_true_iff.mp hh
  split at hcode
  · rename_i r hr
    obtain ⟨q, s'⟩ := r
    obtain rfl : q = 0x100020 := eq_of_beq hcode
    exact ⟨s₀, h, s', h0, run_of_replay .refl hreplay, of_decide_eq_true hstale, hr⟩
  · cases hcode

end

end PolandOS.Heap
