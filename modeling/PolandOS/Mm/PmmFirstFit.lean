import Mathlib.Order.Bounds.Basic
import PolandOS.Mm.PmmOwnership

/-! # First fit

`pmm_alloc` starts its search at a hint. Every frame below the hint is in use
(`Hinted`), so it finds what a search from 0 would; `pmm_alloc_pages` searches from 0.
`pmm_first_fit` says so for every run in which the bitmap's own pages are not freed.
-/

namespace PolandOS.Pmm

open ByteMem BitArray Runs

/-- A page of the bitmap lies in frame `f`. -/
def BitmapFrame (s : PmmState) (f : Nat) : Prop :=
  bitmapPhys s < f * pageSize + pageSize ∧
    f * pageSize < bitmapPhys s + bitmapSize s.bitmapFrames

/-- One call, with any arguments. -/
inductive SearchStep (s : PmmState) : Call → PmmState → Prop
  | alloc : SearchStep s .alloc (pmmAlloc s).2
  | allocPages {n p : Nat} {s' : PmmState} : n < 2 ^ 64 → pmmAllocPages s n = .ok (p, s') →
      SearchStep s (.allocPages n) s'
  | free {p : Nat} : SearchStep s (.free p) (pmmFree s p)

/-- Frame 0 is not freed. -/
def KeepsZero (_ : PmmState) : Call → Prop
  | .free p => p / pageSize ≠ 0
  | _ => True

/-- Nor are the pages of the bitmap. -/
def KeepsBitmap (s : PmmState) : Call → Prop
  | .free p => p / pageSize ≠ 0 ∧ ¬BitmapFrame s (p / pageSize)
  | _ => True

instance (s : PmmState) (f : Nat) : Decidable (BitmapFrame s f) :=
  inferInstanceAs (Decidable (_ ∧ _))

instance (s : PmmState) (c : Call) : Decidable (KeepsBitmap s c) :=
  match c with
  | .free p => inferInstanceAs (Decidable (p / pageSize ≠ 0 ∧ ¬BitmapFrame s (p / pageSize)))
  | .alloc | .allocPages _ | .store .. => .isTrue trivial

/-- The address of the first run of `count` clear frames, or 0 if there is none. -/
structure FirstFit (s : PmmState) (count p : Nat) : Prop where
  zero : p = 0 ↔ RunStarts s count = ∅
  least : ∀ f, IsLeast (RunStarts s count) f → p = f * pageSize

/-! ## The invariant -/

/-- The frames below the hint are in use, and so are frame 0 and those of the bitmap. -/
structure Hinted (s : PmmState) : Prop where
  placed : Placed s
  hint : s.lastFree ≤ s.bitmapFrames
  below : ∀ f < s.lastFree, bitmapTest s f = true
  clear : ∀ f < s.bitmapFrames, bitmapTest s f = false → f ≠ 0 ∧ ¬BitmapFrame s f

variable {s s' : PmmState} {m : Mem} {f i n : Nat}

theorem Placed.congr (hi : Placed s) (hlay : s'.bitmap = s.bitmap ∧
    s'.hhdmOffset = s.hhdmOffset ∧ s'.bitmapFrames = s.bitmapFrames) :
    Placed s' ∧ ∀ f, BitmapFrame s' f ↔ BitmapFrame s f := by
  rcases hlay with ⟨hbitmap, hoffset, hframes⟩
  have hphys : bitmapPhys s' = bitmapPhys s := by simp only [bitmapPhys, hbitmap, hoffset]
  refine ⟨⟨?_, ?_, ?_, ?_⟩, ?_⟩
  · rw [hbitmap, hoffset, hphys]
    exact hi.place
  · rw [hphys]
    exact hi.aligned
  · rw [hphys, hframes]
    exact hi.room
  · rw [hframes]
    exact hi.small
  · intro f
    simp only [BitmapFrame, hphys, hframes]

/-- Clear frames are taken. -/
theorem Hinted.takes (hi : Hinted s) (hn : 0 < n) (h : Takes s i n s' m)
    (hclear : ∀ f, i ≤ f → f < i + n → bitmapTest s f = false)
    (hhint : s'.lastFree ≤ s.bitmapFrames)
    (hbelow : ∀ f < s'.lastFree, bitmapTest s f = true ∨ i ≤ f ∧ f < i + n) : Hinted s' := by
  have hin := h.inside
  have hapart := hi.placed.apart hn hin fun f h1 h2 => by
    have hbitmap := (hi.clear f (by omega) (hclear f h1 h2)).2
    unfold BitmapFrame at hbitmap
    omega
  have htest : ∀ f < s.bitmapFrames,
      bitmapTest s' f = (bitmapTest s f || decide (i ≤ f ∧ f < i + n)) :=
    fun f => h.test hi.placed hapart
  rcases hi.placed.congr h.layout with ⟨hplaced, hframe⟩
  refine ⟨hplaced, ?_, ?_, ?_⟩
  · rw [h.layout.2.2]
    exact hhint
  · intro f hf
    rw [htest f (by omega)]
    rcases hbelow f hf with hset | hnew
    · rw [hset, Bool.true_or]
    · rw [decide_eq_true hnew, Bool.or_true]
  · intro f hf hfree
    rw [h.layout.2.2] at hf
    rw [htest f hf, Bool.or_eq_false_iff] at hfree
    rw [hframe]
    exact hi.clear f hf hfree.1

/-! ## The calls -/

theorem mem_runStarts_one : f ∈ RunStarts s 1 ↔ f < s.bitmapFrames ∧ bitmapTest s f = false := by
  constructor
  · rintro ⟨hin, hclear⟩
    exact ⟨hin, hclear f le_rfl (Nat.lt_succ_self f)⟩
  · rintro ⟨hf, hclear⟩
    refine ⟨hf, fun g h1 h2 => ?_⟩
    obtain rfl : g = f := Nat.le_antisymm (Nat.le_of_lt_succ h2) h1
    exact hclear

/-- A run that was found is the answer if none starts before it. -/
theorem firstFit_of_least {count : Nat} (hmem : f ∈ RunStarts s count) (hzero : f ≠ 0)
    (hfirst : ∀ g < f, g ∉ RunStarts s count) : FirstFit s count (f * pageSize) where
  zero := by
    refine iff_of_false ?_ (Set.nonempty_iff_ne_empty.mp ⟨f, hmem⟩)
    exact Nat.mul_ne_zero hzero (by decide)
  least := by
    intro g hg
    have hle : f ≤ g := Nat.le_of_not_lt fun hlt => hfirst g hlt hg.1
    rw [Nat.le_antisymm hle (hg.2 hmem)]

/-- 0 is the answer if there is no run. -/
theorem firstFit_none {count : Nat} (hnone : ∀ f, f ∉ RunStarts s count) : FirstFit s count 0 where
  zero := iff_of_true rfl (Set.eq_empty_iff_forall_notMem.mpr hnone)
  least := fun f hf => absurd hf.1 (hnone f)

/-- The first clear frame is taken. -/
theorem Hinted.takeFrame (hi : Hinted s) (hf : f < s.bitmapFrames)
    (hclear : bitmapTest s f = false) (hfirst : ∀ g < f, bitmapTest s g = true) :
    FirstFit s 1 (takeFrame s f).1 ∧ Hinted (takeFrame s f).2 := by
  have hhint := takeFrame_hint hi.placed hf
  constructor
  · have hphys : (Pmm.takeFrame s f).1 = f * pageSize := phys_eq hi.placed hf
    rw [hphys]
    refine firstFit_of_least (mem_runStarts_one.mpr ⟨hf, hclear⟩) (hi.clear f hf hclear).1 ?_
    intro g hg hmem
    have hset := hfirst g hg
    rw [(mem_runStarts_one.mp hmem).2] at hset
    cases hset
  · refine hi.takes Nat.one_pos (takes_takeFrame hi.placed hf) ?_ ?_ ?_
    · exact (mem_runStarts_one.mpr ⟨hf, hclear⟩).2
    · rw [hhint]
      exact hf
    · intro g hg
      rw [hhint] at hg
      rcases Nat.lt_or_eq_of_le (Nat.le_of_lt_succ hg) with hlt | rfl
      · exact .inl (hfirst g hlt)
      · exact .inr ⟨le_rfl, Nat.lt_succ_self g⟩

/-- The search from the hint finds the first clear frame, and the new hint is behind it. -/
theorem pmmAlloc_first (hi : Hinted s) :
    FirstFit s 1 (pmmAlloc s).1 ∧ Hinted (pmmAlloc s).2 := by
  have hhint := hi.hint
  unfold pmmAlloc
  split
  next r hr =>
    obtain ⟨f, h1, h2, hclear, rfl, hfirst⟩ := allocLoop_spec hr
    refine hi.takeFrame (by omega) hclear fun g hg => ?_
    rcases Nat.lt_or_ge g s.lastFree with hlow | hlow
    · exact hi.below g hlow
    · exact hfirst g hlow hg
  next hupper =>
    split
    next r hr =>
      -- nothing below the hint is clear
      obtain ⟨f, -, h2, hclear, -, -⟩ := allocLoop_spec hr
      have hset := hi.below f (by omega)
      rw [hclear] at hset
      cases hset
    next =>
      refine ⟨firstFit_none fun f hmem => ?_, hi⟩
      rcases mem_runStarts_one.mp hmem with ⟨hf, hclear⟩
      have hset : bitmapTest s f = true := by
        rcases Nat.lt_or_ge f s.lastFree with hlow | hlow
        · exact hi.below f hlow
        · exact allocLoop_none hupper hlow (by omega)
      rw [hclear] at hset
      cases hset

theorem pmmAllocPages_first (hi : Hinted s) {count : Nat} (hcount : 0 < count)
    (hc : count < 2 ^ 64) :
    ∃ p s', pmmAllocPages s count = .ok (p, s') ∧ FirstFit s count p ∧ Hinted s' := by
  have hsmall := hi.placed.small
  have hfuel : s.bitmapFrames < 0 + 2 ^ 64 := by omega
  unfold pmmAllocPages
  rw [if_neg (by omega)]
  rcases allocPagesLoop_first hsmall hcount hc (Nat.zero_le _) hfuel (.inl rfl) with
    ⟨hloop, hnone⟩ | ⟨f, -, hmem, hfirst, hloop⟩
  · exact ⟨0, s, hloop, firstFit_none fun f => hnone f (Nat.zero_le f), hi⟩
  · have hin := hmem.1
    have hphys : mul64 f pageSize = f * pageSize := phys_eq hi.placed (by omega)
    refine ⟨_, _, hloop, ?_, ?_⟩
    · rw [hphys]
      refine firstFit_of_least hmem ?_ fun g hg => hfirst g (Nat.zero_le g) hg
      exact (hi.clear f (by omega) (hmem.2 f le_rfl (by omega))).1
    · have hlay := markPages_layout s f count
      refine hi.takes hcount (takes_takePages hi.placed hcount hin) hmem.2
        (hlay.lastFree.le.trans hi.hint) fun g hg => .inl (hi.below g ?_)
      exact hlay.lastFree ▸ hg

/-- The bit of a frame is cleared, and the hint is lowered to it. -/
theorem Hinted.free (hi : Hinted s) (hf : f < s.bitmapFrames) (hzero : f ≠ 0)
    (hbitmap : ¬BitmapFrame s f) (hmem : s'.mem = (bitmapClear s f).mem)
    (hlay : s'.bitmap = s.bitmap ∧ s'.hhdmOffset = s.hhdmOffset ∧
      s'.bitmapFrames = s.bitmapFrames)
    (hhint : s'.lastFree = if f < s.lastFree then f else s.lastFree) : Hinted s' := by
  have hsmall := hi.placed.small
  have hle := hi.hint
  have htest : ∀ g < s.bitmapFrames, bitmapTest s' g = (bitmapTest s g && !decide (f = g)) := by
    intro g hg
    rw [bitmapTest, hmem, hlay.1]
    exact bitmapTest_bitmapClear (by omega) (by omega)
  have hlow : ∀ g < s'.lastFree, g < s.lastFree ∧ f ≠ g := by
    rw [hhint]
    split
    · omega
    · omega
  rcases hi.placed.congr hlay with ⟨hplaced, hframe⟩
  refine ⟨hplaced, ?_, ?_, ?_⟩
  · rw [hlay.2.2, hhint]
    split
    · exact hf.le
    · exact hle
  · intro g hg
    rcases hlow g hg with ⟨hg, hne⟩
    rw [htest g (by omega), hi.below g hg, decide_eq_false hne]
    rfl
  · intro g hg hclear
    rw [hlay.2.2] at hg
    rw [htest g hg] at hclear
    rw [hframe]
    rcases Bool.and_eq_false_iff.mp hclear with hold | hnew
    · exact hi.clear g hg hold
    · obtain rfl : f = g := by simpa using hnew
      exact ⟨hzero, hbitmap⟩

theorem pmmFree_hinted (hi : Hinted s) {p : Nat} (hkeeps : KeepsBitmap s (.free p)) :
    Hinted (pmmFree s p) := by
  unfold pmmFree
  dsimp only
  split
  · exact hi
  next hin =>
    split
    · exact hi.free (Nat.lt_of_not_le hin) hkeeps.1 hkeeps.2 rfl ⟨rfl, rfl, rfl⟩ rfl
    · exact hi

/-! ## Every run -/

variable {entries : List MemmapEntry} {hhdmOff : Nat} {s₀ : PmmState}

theorem passes_lastFree (s : PmmState) (entries : List MemmapEntry) (f n u : Nat) :
    { markBitmapPages (clearUsable s entries) f n with usedMem := u }.lastFree = s.lastFree :=
  (markBitmapPages_layout _ f n).lastFree.trans (clearUsable_layout s entries).lastFree

theorem pmmInit_lastFree (h : pmmInit (.boot m) entries hhdmOff = .ok s₀) : s₀.lastFree = 0 := by
  obtain ⟨⟨highest, maxPhys⟩, hscan⟩ : ∃ r, scanEntries (PmmState.boot m).maxPhys entries = r :=
    ⟨_, rfl⟩
  simp only [pmmInit, hscan] at h
  split at h
  · cases h
  obtain rfl := Except.ok.inj h
  exact passes_lastFree ⟨_, hhdmOff, _, _, 0, 0, 0, maxPhys⟩ _ _ _ _
theorem pmmInit_hinted (hmap : MemmapOk entries) (hh : hhdmOff < 2 ^ 64)
    (hzero : ¬UsableFrame entries 0) (h : pmmInit (.boot m) entries hhdmOff = .ok s₀) :
    Hinted s₀ := by
  have hi := pmmInit_inv hmap hh h
  refine ⟨hi.placed, hi.hint, ?_, ?_⟩
  · intro f hf
    rw [pmmInit_lastFree h] at hf
    exact absurd hf (Nat.not_lt_zero f)
  · intro f hf hclear
    obtain ⟨⟨husable, hapart⟩, -⟩ := hi.clear f hf hclear
    constructor
    · rintro rfl
      exact hzero husable
    · unfold BitmapFrame
      omega

theorem SearchStep.hinted {c : Call} (h : Guarded SearchStep KeepsBitmap s c s')
    (hi : Hinted s) : Hinted s' := by
  rcases h with ⟨hkeeps, hstep⟩
  cases hstep with
  | alloc => exact (pmmAlloc_first hi).2
  | @allocPages n p _ hn hok =>
      rcases Nat.eq_zero_or_pos n with rfl | hpos
      · cases hok
        exact hi
      · obtain ⟨q, t, hok', -, ht⟩ := pmmAllocPages_first hi hpos hn
        obtain ⟨rfl, rfl⟩ := Prod.mk.inj (Except.ok.inj (hok.symm.trans hok'))
        exact ht
  | free => exact pmmFree_hinted hi hkeeps

/-- In every run from `pmm_init` that frees neither frame 0 nor a page of the bitmap, every
frame below the hint is in use, and both searches find the first fit. -/
theorem pmm_first_fit (hmap : MemmapOk entries) (hh : hhdmOff < 2 ^ 64)
    (hzero : ¬UsableFrame entries 0) (hinit : pmmInit (.boot m) entries hhdmOff = .ok s₀)
    (hrun : Run (Guarded SearchStep KeepsBitmap) s₀ s) :
    (∀ f < s.lastFree, bitmapTest s f = true) ∧ FirstFit s 1 (pmmAlloc s).1 ∧
      ∀ count, 0 < count → count < 2 ^ 64 →
        ∃ p s', pmmAllocPages s count = .ok (p, s') ∧ FirstFit s count p := by
  have hi : Hinted s := hrun.invariant (pmmInit_hinted hmap hh hzero hinit)
    fun _ _ _ hi hstep => SearchStep.hinted hstep hi
  refine ⟨hi.below, (pmmAlloc_first hi).1, ?_⟩
  intro count hcount hc
  obtain ⟨p, s', hok, hfit, -⟩ := pmmAllocPages_first hi hcount hc
  exact ⟨p, s', hok, hfit⟩

theorem fourPages_ok : MemmapOk fourPages ∧ ¬UsableFrame fourPages 0 := by
  refine ⟨⟨by decide, by decide⟩, ?_⟩
  rintro ⟨e, he, -, hbase, -⟩
  obtain rfl : e = ⟨0x1000, 0x4000, 0⟩ := by simpa [fourPages] using he
  exact absurd hbase (by decide)

/-- Both pages behind the bitmap are taken, and the first one is given back. -/
def givenBack (s : PmmState) : PmmState := pmmFree (pmmAlloc (pmmAlloc s).2).2 0x2000

/-- It is the first fit again. -/
theorem pmm_first_fit_again : ∃ s₀,
    pmmInit (.boot fun _ => 0) fourPages 0xFFFF800000000000 = .ok s₀ ∧
    bitmapTest (givenBack s₀) 3 = true ∧ FirstFit (givenBack s₀) 1 0x2000 := by
  obtain ⟨s₀, hs⟩ : ∃ s₀, pmmInit (.boot fun _ => 0) fourPages 0xFFFF800000000000 = .ok s₀ :=
    ⟨_, rfl⟩
  have hstate : (pmmInit (.boot fun _ => 0) fourPages 0xFFFF800000000000).map (fun s =>
      (decide (KeepsBitmap (pmmAlloc (pmmAlloc s).2).2 (.free 0x2000)),
        bitmapTest (givenBack s) 3, (pmmAlloc (givenBack s)).1)) = .ok (true, true, 0x2000) := by
    decide +kernel
  rw [hs] at hstate
  obtain ⟨hkeeps, hrest⟩ := Prod.mk.inj (Except.ok.inj hstate)
  obtain ⟨htaken, hphys⟩ := Prod.mk.inj hrest
  have hboth : Run (Guarded SearchStep KeepsBitmap) s₀ (pmmAlloc (pmmAlloc s₀).2).2 :=
    (Run.refl.tail (e := .alloc) ⟨trivial, .alloc⟩).tail (e := .alloc) ⟨trivial, .alloc⟩
  have hfit := (pmm_first_fit fourPages_ok.1 (by decide) fourPages_ok.2 hs
    (hboth.tail ⟨of_decide_eq_true hkeeps, .free⟩)).2.1
  change FirstFit (givenBack s₀) 1 (pmmAlloc (givenBack s₀)).1 at hfit
  rw [hphys] at hfit
  exact ⟨s₀, hs, htaken, hfit⟩

/-- A page of the bitmap that is freed is handed out and cleared: the frames below the hint
are clear then. -/
theorem bitmap_handed_out :
    ¬∀ (entries : List MemmapEntry) (m : Mem) (hhdmOff : Nat) (s₀ s : PmmState),
      MemmapOk entries → hhdmOff < 2 ^ 64 → ¬UsableFrame entries 0 →
      pmmInit (.boot m) entries hhdmOff = .ok s₀ → Run (Guarded SearchStep KeepsZero) s₀ s →
      (∀ f < s.lastFree, bitmapTest s f = true) ∧ FirstFit s 1 (pmmAlloc s).1 := by
  intro h
  obtain ⟨s₀, hs⟩ : ∃ s₀, pmmInit (.boot fun _ => 0) fourPages 0xFFFF800000000000 = .ok s₀ :=
    ⟨_, rfl⟩
  have hclear : ((pmmInit (.boot fun _ => 0) fourPages 0xFFFF800000000000).map fun s =>
      ((pmmAlloc (pmmFree s 0x1000)).2.lastFree,
        bitmapTest (pmmAlloc (pmmFree s 0x1000)).2 0)) = .ok (2, false) := by decide +kernel
  rw [hs] at hclear
  have hpair : ((pmmAlloc (pmmFree s₀ 0x1000)).2.lastFree,
      bitmapTest (pmmAlloc (pmmFree s₀ 0x1000)).2 0) = (2, false) := Except.ok.inj hclear
  have hzero : KeepsZero s₀ (.free 0x1000) := by
    change 0x1000 / pageSize ≠ 0
    decide
  have hfreed : Run (Guarded SearchStep KeepsZero) s₀ (pmmFree s₀ 0x1000) :=
    Run.refl.tail ⟨hzero, .free⟩
  have hrun : Run (Guarded SearchStep KeepsZero) s₀ (pmmAlloc (pmmFree s₀ 0x1000)).2 :=
    hfreed.tail (e := .alloc) ⟨trivial, .alloc⟩
  have hbits := (h _ _ _ _ _ fourPages_ok.1 (by decide) fourPages_ok.2 hs hrun).1
  generalize (pmmAlloc (pmmFree s₀ 0x1000)).2 = s at hpair hbits
  obtain ⟨hhint, hfree⟩ := Prod.mk.inj hpair
  have hset := hbits 0 (by rw [hhint]; decide)
  rw [hfree] at hset
  cases hset

end PolandOS.Pmm
