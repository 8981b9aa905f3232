import Mathlib.Data.Finset.Card
import Mathlib.Order.Interval.Finset.Nat
import PolandOS.Mm.PmmFirstFit

/-! # The accounts of the physical memory manager

`used_mem` is kept up to date by every call, and computed from the bitmap once, by `pmm_init`.

* `pmm_accounting`: after every call it is what the bitmap says, modulo `2 ^ 64`; and while only
  held frames are freed nothing wraps, so that the used and the free bytes add up to the total.

Both need that the pages of the bitmap itself are not freed.
-/

namespace PolandOS.Pmm

open ByteMem BitArray Runs

/-- `pmm_free` is not given a page of the bitmap. -/
def SparesBitmap (s : PmmState) : Call → Prop
  | .free p => ¬BitmapFrame s (p / pageSize)
  | _ => True

/-- `used_mem` is the total less the bytes of the clear frames. -/
def Balanced (s : PmmState) : Prop :=
  s.usedMem = sub64 s.totalMem (mul64 (countFree s s.bitmapFrames) pageSize)

instance (s : PmmState) : Decidable (Balanced s) := by
  unfold Balanced
  infer_instance

/-- The bytes of the usable regions. -/
def usableBytes : List MemmapEntry → Nat
  | [] => 0
  | e :: entries => (if e.type = memmapUsable then e.length else 0) + usableBytes entries

/-! ## Clear frames -/

variable {s s' : PmmState} {m : Mem} {f i n : Nat} {entries : List MemmapEntry}

/-- The clear frames among the first `n`. -/
def clearSet (s : PmmState) (n : Nat) : Finset Nat :=
  (Finset.range n).filter fun f => bitmapTest s f = false

theorem mem_clearSet : f ∈ clearSet s n ↔ f < n ∧ bitmapTest s f = false := by
  simp [clearSet]

theorem countFree_eq_card (s : PmmState) (n : Nat) : countFree s n = (clearSet s n).card := by
  induction n with
  | zero => rfl
  | succ n ih =>
      rw [countFree, ih]
      unfold clearSet
      rw [Finset.range_add_one, Finset.filter_insert]
      cases hbit : bitmapTest s n with
      | true => simp
      | false => simp

/-- Clear frames that are taken are counted no more. -/
theorem countFree_take {k : Nat} (hin : i + n ≤ k)
    (hclear : ∀ g, i ≤ g → g < i + n → bitmapTest s g = false)
    (htest : ∀ g < k, bitmapTest s' g = (bitmapTest s g || decide (i ≤ g ∧ g < i + n))) :
    countFree s' k + n = countFree s k := by
  have hsub : Finset.Ico i (i + n) ⊆ clearSet s k := by
    intro g hg
    rw [Finset.mem_Ico] at hg
    exact mem_clearSet.mpr ⟨by omega, hclear g hg.1 hg.2⟩
  have hset : clearSet s' k = clearSet s k \ Finset.Ico i (i + n) := by
    ext g
    rw [Finset.mem_sdiff, mem_clearSet, mem_clearSet, Finset.mem_Ico]
    constructor
    · rintro ⟨hg, h⟩
      rw [htest g hg, Bool.or_eq_false_iff, decide_eq_false_iff_not] at h
      exact ⟨⟨hg, h.1⟩, h.2⟩
    · rintro ⟨⟨hg, h⟩, hout⟩
      rw [htest g hg, h, decide_eq_false hout]
      exact ⟨hg, rfl⟩
  have hcard := Finset.card_sdiff_add_card_eq_card hsub
  rw [Nat.card_Ico, ← hset, Nat.add_sub_cancel_left] at hcard
  rw [countFree_eq_card, countFree_eq_card]
  exact hcard

/-- A frame that is freed is counted again. -/
theorem countFree_free {k : Nat} (hf : f < k) (hset : bitmapTest s f = true)
    (htest : ∀ g < k, bitmapTest s' g = (bitmapTest s g && !decide (f = g))) :
    countFree s' k = countFree s k + 1 := by
  have hins : clearSet s' k = insert f (clearSet s k) := by
    ext g
    rw [Finset.mem_insert, mem_clearSet, mem_clearSet]
    constructor
    · rintro ⟨hg, h⟩
      rw [htest g hg] at h
      by_cases heq : f = g
      · exact .inl heq.symm
      · rw [decide_eq_false heq, Bool.not_false, Bool.and_true] at h
        exact .inr ⟨hg, h⟩
    · rintro (rfl | ⟨hg, h⟩)
      · rw [htest g hf, decide_eq_true rfl, Bool.not_true, Bool.and_false]
        exact ⟨hf, rfl⟩
      · rw [htest g hg, h]
        exact ⟨hg, rfl⟩
  have hnot : f ∉ clearSet s k := by
    rw [mem_clearSet, hset]
    exact fun h => nomatch h.2
  rw [countFree_eq_card, countFree_eq_card, hins, Finset.card_insert_of_notMem hnot]

theorem countFree_congr {k : Nat} (htest : ∀ g < k, bitmapTest s' g = bitmapTest s g) :
    countFree s' k = countFree s k := by
  have hset : clearSet s' k = clearSet s k := by
    ext g
    rw [mem_clearSet, mem_clearSet]
    exact and_congr_right fun hg => by rw [htest g hg]
  rw [countFree_eq_card, countFree_eq_card, hset]

/-! ## The invariant -/

/-- The books balance, and no frame of the bitmap is clear. -/
structure Audited (total : Nat) (s : PmmState) : Prop where
  placed : Placed s
  hint : s.lastFree ≤ s.bitmapFrames
  clear : ∀ f < s.bitmapFrames, bitmapTest s f = false → ¬BitmapFrame s f
  used_lt : s.usedMem < 2 ^ 64
  balance : (s.usedMem + countFree s s.bitmapFrames * pageSize) % 2 ^ 64 = s.totalMem
  total : s.totalMem = total

variable {total : Nat}

theorem Audited.balanced (ha : Audited total s) : Balanced s := by
  have hused := ha.used_lt
  have hbalance := ha.balance
  unfold Balanced sub64 mul64
  omega

/-- Clear frames are taken and paid for. -/
theorem Audited.takes (ha : Audited total s) (hn : 0 < n) (h : Takes s i n s' m)
    (hclear : ∀ f, i ≤ f → f < i + n → bitmapTest s f = false)
    (hhint : s'.lastFree ≤ s.bitmapFrames) (htotal : s'.totalMem = s.totalMem)
    (hused : s'.usedMem = (s.usedMem + n * pageSize) % 2 ^ 64) : Audited total s' := by
  have hin := h.inside
  have hapart := ha.placed.apart hn hin fun f h1 h2 => by
    have hbitmap := ha.clear f (by omega) (hclear f h1 h2)
    unfold BitmapFrame at hbitmap
    omega
  have htest : ∀ f < s.bitmapFrames,
      bitmapTest s' f = (bitmapTest s f || decide (i ≤ f ∧ f < i + n)) :=
    fun f => h.test ha.placed hapart
  have hcount := countFree_take hin hclear htest
  have hbalance := ha.balance
  rcases ha.placed.congr h.layout with ⟨hplaced, hframe⟩
  refine ⟨hplaced, ?_, ?_, ?_, ?_, htotal.trans ha.total⟩
  · rw [h.layout.2.2]
    exact hhint
  · intro f hf hfree
    rw [h.layout.2.2] at hf
    rw [htest f hf, Bool.or_eq_false_iff] at hfree
    rw [hframe]
    exact ha.clear f hf hfree.1
  · rw [hused]
    exact Nat.mod_lt _ (by decide)
  · rw [h.layout.2.2, htotal, hused]
    unfold pageSize at *
    omega

theorem takeFrame_usedMem (s : PmmState) (f : Nat) :
    (takeFrame s f).2.totalMem = s.totalMem ∧
      (takeFrame s f).2.usedMem = (s.usedMem + 1 * pageSize) % 2 ^ 64 := by
  simp only [takeFrame, markUsed, bitmapSet, add64, Nat.one_mul, and_self]

theorem Audited.takeFrame (ha : Audited total s) (hf : f < s.bitmapFrames)
    (hclear : bitmapTest s f = false) : Audited total (takeFrame s f).2 := by
  have hhint := takeFrame_hint ha.placed hf
  obtain ⟨htotal, hused⟩ := takeFrame_usedMem s f
  refine ha.takes Nat.one_pos (takes_takeFrame ha.placed hf) ?_ ?_ htotal hused
  · exact (mem_runStarts_one.mpr ⟨hf, hclear⟩).2
  · rw [hhint]
    exact hf

theorem pmmAlloc_audited (ha : Audited total s) : Audited total (pmmAlloc s).2 := by
  have hhint := ha.hint
  unfold pmmAlloc
  split
  next r hr =>
    obtain ⟨f, h1, h2, hclear, rfl, -⟩ := allocLoop_spec hr
    exact ha.takeFrame (by omega) hclear
  next =>
    split
    next r hr =>
      obtain ⟨f, h1, h2, hclear, rfl, -⟩ := allocLoop_spec hr
      exact ha.takeFrame (by omega) hclear
    next => exact ha

theorem markPages_usedMem (s : PmmState) (i n : Nat) (hused : s.usedMem < 2 ^ 64) :
    (markPages s i n).usedMem = (s.usedMem + n * pageSize) % 2 ^ 64 ∧
      (markPages s i n).totalMem = s.totalMem := by
  induction n generalizing s i with
  | zero =>
      rw [Nat.zero_mul, Nat.add_zero, Nat.mod_eq_of_lt hused]
      exact ⟨rfl, rfl⟩
  | succ n ih =>
      obtain ⟨hmem, htotal⟩ := ih (markUsed s i) (add64 i 1) (add64_lt _ _)
      have hone : (markUsed s i).usedMem = (s.usedMem + pageSize) % 2 ^ 64 := rfl
      rw [markPages, hmem, hone]
      refine ⟨?_, htotal⟩
      rw [Nat.mod_add_mod, Nat.succ_mul, Nat.add_assoc, Nat.add_comm pageSize]

theorem takePages_usedMem (s : PmmState) (i n : Nat) (hused : s.usedMem < 2 ^ 64) :
    (takePages s i n).2.usedMem = (s.usedMem + n * pageSize) % 2 ^ 64 ∧
      (takePages s i n).2.totalMem = s.totalMem := by
  simp only [takePages]
  exact markPages_usedMem s i n hused

theorem pmmAllocPages_audited (ha : Audited total s) {count p : Nat} (hc : count < 2 ^ 64)
    (h : pmmAllocPages s count = .ok (p, s')) : Audited total s' := by
  have hsmall := ha.placed.small
  have hfuel : s.bitmapFrames < 0 + 2 ^ 64 := by omega
  unfold pmmAllocPages at h
  split at h
  · cases h
    exact ha
  next hne =>
    have hcount : 0 < count := Nat.pos_of_ne_zero hne
    rcases allocPagesLoop_first hsmall hcount hc (Nat.zero_le _) hfuel (.inl rfl) with
      ⟨hloop, -⟩ | ⟨f, -, ⟨hin, hclear⟩, -, hloop⟩
    · cases hloop.symm.trans h
      exact ha
    · have hs' : (takePages s f count).2 = s' :=
        congrArg Prod.snd (Except.ok.inj (hloop.symm.trans h))
      obtain ⟨hused, htotal⟩ := takePages_usedMem s f count ha.used_lt
      rw [← hs']
      exact ha.takes hcount (takes_takePages ha.placed hcount hin) hclear
        ((markPages_layout s f count).lastFree.le.trans ha.hint) htotal hused

/-- A frame in use is freed and paid back. -/
theorem Audited.free (ha : Audited total s) (hf : f < s.bitmapFrames) (hset : bitmapTest s f = true)
    (hbitmap : ¬BitmapFrame s f) (hmem : s'.mem = (bitmapClear s f).mem)
    (hlay : s'.bitmap = s.bitmap ∧ s'.hhdmOffset = s.hhdmOffset ∧
      s'.bitmapFrames = s.bitmapFrames) (hhint : s'.lastFree ≤ s.bitmapFrames)
    (htotal : s'.totalMem = s.totalMem) (hused : s'.usedMem = sub64 s.usedMem pageSize) :
    Audited total s' := by
  have hsmall := ha.placed.small
  have htest : ∀ g < s.bitmapFrames, bitmapTest s' g = (bitmapTest s g && !decide (f = g)) := by
    intro g hg
    rw [bitmapTest, hmem, hlay.1]
    exact bitmapTest_bitmapClear (by omega) (by omega)
  have hcount := countFree_free hf hset htest
  have hlt := ha.used_lt
  have hbalance := ha.balance
  rcases ha.placed.congr hlay with ⟨hplaced, hframe⟩
  refine ⟨hplaced, ?_, ?_, ?_, ?_, htotal.trans ha.total⟩
  · rw [hlay.2.2]
    exact hhint
  · intro g hg hfree
    rw [hlay.2.2] at hg
    rw [htest g hg] at hfree
    rw [hframe]
    rcases Bool.and_eq_false_iff.mp hfree with hold | hnew
    · exact ha.clear g hg hold
    · obtain rfl : f = g := by simpa using hnew
      exact hbitmap
  · rw [hused]
    exact sub64_lt _ _
  · rw [hlay.2.2, htotal, hused, hcount]
    unfold sub64 pageSize at *
    omega

theorem pmmFree_audited (ha : Audited total s) {p : Nat} (hspares : SparesBitmap s (.free p)) :
    Audited total (pmmFree s p) := by
  have hhint := ha.hint
  unfold pmmFree
  dsimp only
  split
  · exact ha
  next hin =>
    split
    next hset =>
      have hf : p / pageSize < s.bitmapFrames := Nat.lt_of_not_le hin
      have hlow : (if p / pageSize < s.lastFree then p / pageSize else s.lastFree) ≤
          s.bitmapFrames := by
        split
        · exact hf.le
        · exact hhint
      exact ha.free hf hset hspares rfl ⟨rfl, rfl, rfl⟩ hlow rfl rfl
    next => exact ha

/-- A client writes into a frame that is not one of the bitmap. -/
theorem store_audited (ha : Audited total s) {p : Nat} {b : UInt8} (hf : p / pageSize < s.bitmapFrames)
    (hspares : ¬BitmapFrame s (p / pageSize)) :
    Audited total { s with mem := set s.mem (byteAt s.hhdmOffset p) b } := by
  have hsmall := ha.placed.small
  have halign := ha.placed.aligned
  have hsize := bitmapSize_eq hsmall
  unfold BitmapFrame at hspares
  have htest : ∀ g < s.bitmapFrames,
      bitmapTest { s with mem := set s.mem (byteAt s.hhdmOffset p) b } g = bitmapTest s g := by
    intro g hg
    refine ha.placed.test_frame (a := p) (k := 1) (fun x hx => set_ne _ _ ?_) ?_ ?_ hg
    · simpa using hx 0 (by decide)
    · unfold pageSize at *
      omega
    · unfold pageSize at *
      omega
  have hlayout : ({ s with mem := set s.mem (byteAt s.hhdmOffset p) b } : PmmState).bitmap =
      s.bitmap ∧ s.hhdmOffset = s.hhdmOffset ∧ s.bitmapFrames = s.bitmapFrames := ⟨rfl, rfl, rfl⟩
  obtain ⟨hplaced, -⟩ := ha.placed.congr hlayout
  refine ⟨hplaced, ha.hint, ?_, ha.used_lt, ?_, ha.total⟩
  · intro g hg hfree
    exact ha.clear g hg ((htest g hg).symm.trans hfree)
  · rw [← ha.balance]
    congr 3
    exact countFree_congr htest

/-! ## pmm_init -/

theorem clearFrames_total (s : PmmState) (f n : Nat) :
    (clearFrames s f n).totalMem = s.totalMem := by
  induction n generalizing s f with
  | zero => rfl
  | succ n ih =>
      rw [clearFrames, ih]
      split
      · rfl
      · rfl

theorem clearUsable_total (s : PmmState) (entries : List MemmapEntry) (hlt : s.totalMem < 2 ^ 64) :
    (clearUsable s entries).totalMem = (s.totalMem + usableBytes entries) % 2 ^ 64 := by
  induction entries generalizing s with
  | nil => exact (Nat.mod_eq_of_lt hlt).symm
  | cons e entries ih =>
      rw [clearUsable, usableBytes]
      by_cases hu : e.type = memmapUsable
      · rw [if_pos hu, if_pos hu]
        have htotal := clearFrames_total { s with totalMem := add64 s.totalMem e.length }
          (e.base / pageSize) (e.length / pageSize)
        rw [ih _ (htotal ▸ add64_lt _ _), htotal]
        change ((s.totalMem + e.length) % 2 ^ 64 + usableBytes entries) % 2 ^ 64 = _
        rw [Nat.mod_add_mod, Nat.add_assoc]
      · rw [if_neg hu, if_neg hu, Nat.zero_add]
        exact ih s hlt

theorem markBitmapPages_total (s : PmmState) (f n : Nat) :
    (markBitmapPages s f n).totalMem = s.totalMem := by
  induction n generalizing s f with
  | zero => rfl
  | succ n ih =>
      rw [markBitmapPages, ih]
      split
      · rfl
      · rfl

/-- The recount that `pmm_init` ends with. -/
theorem balanced_recount {frames : Nat} (hmem : s'.mem = s.mem) (hbitmap : s'.bitmap = s.bitmap)
    (hframes : s'.bitmapFrames = frames) (htotal : s'.totalMem = s.totalMem)
    (hused : s'.usedMem = sub64 s.totalMem (mul64 (countFree s frames) pageSize)) :
    Balanced s' := by
  have hbits : countFree s' frames = countFree s frames :=
    countFree_congr fun g _ => by rw [bitmapTest, bitmapTest, hmem, hbitmap]
  unfold Balanced
  rw [hframes, htotal, hbits]
  exact hused

/-- What the passes over the bitmap leave. -/
theorem passes_books {t : PmmState} {frames used : Nat}
    (ht : markBitmapPages (clearUsable s entries) f n = t) (hzero : s.totalMem = 0)
    (hframes : s.bitmapFrames = frames)
    (hused : sub64 t.totalMem (mul64 (countFree t frames) pageSize) = used) :
    Balanced { t with usedMem := used } ∧
      { t with usedMem := used }.totalMem = usableBytes entries % 2 ^ 64 := by
  have hlay := (clearUsable_layout s entries).trans (markBitmapPages_layout _ f n)
  rw [ht] at hlay
  refine ⟨balanced_recount (s := t) rfl rfl (hlay.bitmapFrames.trans hframes) rfl hused.symm, ?_⟩
  have hlt : s.totalMem < 2 ^ 64 := by
    rw [hzero]
    exact Nat.two_pow_pos 64
  dsimp only
  rw [← ht, markBitmapPages_total, clearUsable_total s entries hlt, hzero, Nat.zero_add]

/-- `pmm_init` opens the books, and adds the usable regions up. -/
theorem pmmInit_books {hhdmOff : Nat} {s₀ : PmmState}
    (h : pmmInit (.boot m) entries hhdmOff = .ok s₀) :
    Balanced s₀ ∧ s₀.totalMem = usableBytes entries % 2 ^ 64 := by
  obtain ⟨⟨highest, maxPhys⟩, hscan⟩ : ∃ r, scanEntries (PmmState.boot m).maxPhys entries = r :=
    ⟨_, rfl⟩
  simp only [pmmInit, hscan] at h
  split at h
  · cases h
  generalize ht : markBitmapPages _ _ _ = t at h
  generalize hused : sub64 t.totalMem _ = used at h
  obtain rfl := Except.ok.inj h
  exact passes_books ht rfl rfl hused

variable {hhdmOff : Nat} {s₀ : PmmState}

theorem pmmInit_audited (hmap : MemmapOk entries) (hh : hhdmOff < 2 ^ 64)
    (h : pmmInit (.boot m) entries hhdmOff = .ok s₀) :
    Audited (usableBytes entries % 2 ^ 64) s₀ := by
  have hi := pmmInit_inv hmap hh h
  obtain ⟨hbalanced, htotal⟩ := pmmInit_books h
  refine ⟨hi.placed, hi.hint, ?_, ?_, ?_, htotal⟩
  · intro f hf hclear
    obtain ⟨⟨-, hapart⟩, -⟩ := hi.clear f hf hclear
    unfold BitmapFrame
    omega
  · rw [hbalanced]
    exact sub64_lt _ _
  · have hlt : s₀.totalMem < 2 ^ 64 := by
      rw [htotal]
      exact Nat.mod_lt _ (by decide)
    unfold Balanced sub64 mul64 at hbalanced
    omega

/-! ## Every run -/

theorem SearchStep.audited {c : Call} (h : Guarded SearchStep SparesBitmap s c s')
    (ha : Audited total s) : Audited total s' := by
  rcases h with ⟨hspares, hstep⟩
  cases hstep with
  | alloc => exact pmmAlloc_audited ha
  | allocPages hn hok => exact pmmAllocPages_audited ha hn hok
  | free => exact pmmFree_audited ha hspares

/-- A frame of a usable region that a client may hold is none of the bitmap. -/
theorem Inv.spares {held : List Nat} (hi : Inv entries s held) (hf : f ∈ held) :
    f < s.bitmapFrames ∧ ¬BitmapFrame s f := by
  obtain ⟨hlt, -, hapart⟩ := hi.owned f hf
  refine ⟨hlt, ?_⟩
  unfold BitmapFrame
  omega

/-- Each call moves frames between the free ones and the used ones. -/
theorem Step.audited {w w' : World} {c : Call} (h : Step w c w')
    (hi : Inv entries w.pmm w.held) (ha : Audited total w.pmm) : Audited total w'.pmm := by
  rcases h with ⟨hadm, p, hexec⟩
  cases c with
  | alloc =>
      obtain ⟨-, rfl⟩ := Prod.mk.inj (Except.ok.inj hexec)
      exact pmmAlloc_audited ha
  | allocPages n =>
      cases hk : pmmAllocPages w.pmm n with
      | error e =>
          simp only [exec, hk] at hexec
          cases hexec
      | ok r =>
          simp only [exec, hk] at hexec
          obtain ⟨-, rfl⟩ := Prod.mk.inj (Except.ok.inj hexec)
          exact pmmAllocPages_audited ha hadm hk
  | free q =>
      obtain ⟨-, rfl⟩ := Prod.mk.inj (Except.ok.inj hexec)
      exact pmmFree_audited ha (hi.spares hadm).2
  | store q b =>
      obtain ⟨-, rfl⟩ := Prod.mk.inj (Except.ok.inj hexec)
      obtain ⟨hlt, hspares⟩ := hi.spares hadm
      exact store_audited ha hlt hspares

/-- Whole frames of usable regions take up no more bytes than the regions have. -/
theorem card_usable_le (F : Finset Nat) (hF : ∀ f ∈ F, UsableFrame entries f) :
    F.card * pageSize ≤ usableBytes entries := by
  induction entries generalizing F with
  | nil =>
      have hempty : F = ∅ := by
        refine Finset.eq_empty_of_forall_notMem fun f hf => ?_
        obtain ⟨e, he, -⟩ := hF f hf
        cases he
      simp [hempty]
  | cons e entries ih =>
      -- the frames of the first region, and the others
      let inFirst : Nat → Prop := fun f => e.type = memmapUsable ∧ e.base ≤ f * pageSize ∧
        f * pageSize + pageSize ≤ e.base + e.length
      have hrest : (F.filter fun f => ¬inFirst f).card * pageSize ≤ usableBytes entries := by
        refine ih _ fun f hf => ?_
        rw [Finset.mem_filter] at hf
        obtain ⟨d, hd, husable⟩ := hF f hf.1
        rcases List.mem_cons.mp hd with rfl | hd
        · exact absurd husable hf.2
        · exact ⟨d, hd, husable⟩
      have hfirst : (F.filter fun f => inFirst f).card * pageSize ≤
          if e.type = memmapUsable then e.length else 0 := by
        by_cases hu : e.type = memmapUsable
        · have hsub : (F.filter fun f => inFirst f) ⊆
              Finset.Ico ((e.base + 4095) / 4096) ((e.base + e.length) / 4096) := by
            intro f hf
            obtain ⟨-, -, hlow, hhigh⟩ := Finset.mem_filter.mp hf
            rw [Finset.mem_Ico]
            unfold pageSize at hlow hhigh
            omega
          have hcard := (Finset.card_le_card hsub).trans_eq (Nat.card_Ico _ _)
          rw [if_pos hu]
          refine (Nat.mul_le_mul_right pageSize hcard).trans ?_
          unfold pageSize
          omega
        · have hnone : (F.filter fun f => inFirst f) = ∅ :=
            Finset.filter_eq_empty_iff.mpr fun f _ h => hu h.1
          simp [hnone]
      have hsplit := Finset.card_filter_add_card_filter_not (s := F) inFirst
      rw [usableBytes, ← hsplit, Nat.add_mul]
      exact Nat.add_le_add hfirst hrest

/-- After every call of every run from `pmm_init` in which no page of the bitmap is freed,
`used_mem` is the total less the clear frames. In the runs in which only held frames are freed it
is at most the total, and the used and the free bytes add up to the total. -/
theorem pmm_accounting (hmap : MemmapOk entries) (hh : hhdmOff < 2 ^ 64)
    (hinit : pmmInit (.boot m) entries hhdmOff = .ok s₀) :
    (∀ s, Run (Guarded SearchStep SparesBitmap) s₀ s → Balanced s) ∧
      (usableBytes entries < 2 ^ 64 → ∀ w, Run Step ⟨s₀, []⟩ w →
        w.pmm.usedMem ≤ w.pmm.totalMem ∧
        w.pmm.usedMem + countFree w.pmm w.pmm.bitmapFrames * pageSize = w.pmm.totalMem ∧
        pmmUsedBytes w.pmm + pmmFreeBytes w.pmm = pmmTotalBytes w.pmm) := by
  have ha₀ := pmmInit_audited hmap hh hinit
  constructor
  · intro s hrun
    have ha : Audited (usableBytes entries % 2 ^ 64) s :=
      hrun.invariant ha₀ fun _ _ _ ha hstep => SearchStep.audited hstep ha
    exact ha.balanced
  · intro hfits w hrun
    have hboth : Inv entries w.pmm w.held ∧ Audited (usableBytes entries % 2 ^ 64) w.pmm :=
      hrun.invariant (I := fun w => Inv entries w.pmm w.held ∧
        Audited (usableBytes entries % 2 ^ 64) w.pmm) ⟨pmmInit_inv hmap hh hinit, ha₀⟩
        fun _ _ _ h hstep => ⟨hstep.inv h.1, hstep.audited h.1 h.2⟩
    obtain ⟨hinv, ha⟩ := hboth
    have htotal := ha.total
    rw [Nat.mod_eq_of_lt hfits] at htotal
    -- the clear frames are usable ones, and these fit in the total
    have hclear : countFree w.pmm w.pmm.bitmapFrames * pageSize ≤ w.pmm.totalMem := by
      rw [countFree_eq_card, htotal]
      refine card_usable_le _ fun f hf => ?_
      obtain ⟨hlt, hfree⟩ := mem_clearSet.mp hf
      exact (hinv.clear f hlt hfree).1.1
    have hused := ha.used_lt
    have hbalance := ha.balance
    generalize countFree w.pmm w.pmm.bitmapFrames * pageSize = free at hclear hbalance ⊢
    have hexact : w.pmm.usedMem + free = w.pmm.totalMem := by omega
    refine ⟨by omega, hexact, ?_⟩
    unfold pmmUsedBytes pmmFreeBytes pmmTotalBytes
    split
    · rw [sub64_eq (by omega) (by omega)]
      omega
    · omega

/-- Three of the four pages are free at first. -/
theorem pmm_accounting_small :
    ∃ s₀, pmmInit (.boot fun _ => 0) fourPages 0xFFFF800000000000 = .ok s₀ ∧
      (∀ s, Run (Guarded SearchStep SparesBitmap) s₀ s → Balanced s) ∧
      ∀ w, Run Step ⟨s₀, []⟩ w → w.pmm.usedMem ≤ w.pmm.totalMem ∧
        w.pmm.usedMem + countFree w.pmm w.pmm.bitmapFrames * pageSize = w.pmm.totalMem ∧
        pmmUsedBytes w.pmm + pmmFreeBytes w.pmm = pmmTotalBytes w.pmm := by
  obtain ⟨s₀, hs⟩ : ∃ s₀, pmmInit (.boot fun _ => 0) fourPages 0xFFFF800000000000 = .ok s₀ :=
    ⟨_, rfl⟩
  obtain ⟨hall, hheld⟩ := pmm_accounting fourPages_ok.1 (by decide) hs
  exact ⟨s₀, hs, hall, hheld (by decide)⟩

/-- A page of the bitmap that is freed is handed out and cleared, and with it the bits of frames
that were not freed. -/
theorem books_out_of_balance :
    ¬∀ (entries : List MemmapEntry) (m : Mem) (hhdmOff : Nat) (s₀ s : PmmState),
      MemmapOk entries → hhdmOff < 2 ^ 64 → pmmInit (.boot m) entries hhdmOff = .ok s₀ →
      Run SearchStep s₀ s → Balanced s := by
  intro h
  obtain ⟨s₀, hs⟩ : ∃ s₀, pmmInit (.boot fun _ => 0) fourPages 0xFFFF800000000000 = .ok s₀ :=
    ⟨_, rfl⟩
  have hbooks : ((pmmInit (.boot fun _ => 0) fourPages 0xFFFF800000000000).map fun s =>
      decide (Balanced (pmmAlloc (pmmFree s 0x1000)).2)) = .ok false := by decide +kernel
  rw [hs] at hbooks
  have hfreed : Run SearchStep s₀ (pmmFree s₀ 0x1000) := Run.refl.tail (e := .free 0x1000) .free
  have hrun : Run SearchStep s₀ (pmmAlloc (pmmFree s₀ 0x1000)).2 := hfreed.tail (e := .alloc) .alloc
  exact of_decide_eq_false (Except.ok.inj hbooks) (h _ _ _ _ _ fourPages_ok.1 (by decide) hs hrun)

end PolandOS.Pmm
