import PolandOS.Lib.Ghost
import PolandOS.Mm.MapRegion
import PolandOS.Mm.PmmOwnership

/-! # Page tables over the frame manager

The page-table code asks `pmm_alloc` for frames and then writes them through the direct map,
where the bitmap of `pmm_alloc` lies too. The two rely on each other: a table is not handed
out again while its bit is set, and a bit stays set while only tables are written. The
ledger of all frames handed out makes this an invariant: with the ledger as ghost state,
`pmm_alloc` is a lawful allocator, as long as its books are right, and every function of
`vmm.c` keeps them right (`vmmMap_erases` and the other theorems of this name).
-/

namespace PolandOS.Mm

open ByteMem Ghost Vmm

/-! ## The allocator -/

/-- `pmm_alloc` and `pmm_get_max_phys`, on memory that others write, too. -/
def frames : Allocator Pmm.PmmState where
  pmmAlloc p m :=
    let r := Pmm.pmmAlloc { p with mem := m }
    (r.1, r.2, r.2.mem)
  pmmGetMaxPhys p := p.maxPhys

/-- The state of the page-table code over the frame manager. -/
abbrev State := VmmState Pmm.PmmState

/-- The state with the ledger: the numbers of all frames handed out. -/
abbrev Ledgered := VmmState Pmm.World

/-- The state without the ledger. -/
def erase (s : Ledgered) : State := ⟨s.mem, s.hhdmOffset, s.kernelPml4, s.pmm.pmm⟩

/-- Usable memory has physical addresses and is covered by the direct map. -/
def DirectMapped (entries : List Pmm.MemmapEntry) (h : Nat) : Prop :=
  ∀ e ∈ entries, e.type = Pmm.memmapUsable →
    e.base + e.length ≤ 2 ^ 52 ∧ e.base + e.length + h ≤ 2 ^ 64

/-- The frame manager's bitmap agrees with the ledger. -/
structure Books (entries : List Pmm.MemmapEntry) (h : Nat) (w : Pmm.World) (m : Mem) : Prop where
  inv : Pmm.Inv entries { w.pmm with mem := m } w.held
  hhdm : w.pmm.hhdmOffset = h

theorem mul_div_pageSize (f : Nat) : f * pageSize / pageSize = f :=
  Nat.mul_div_cancel _ (by decide)

/-- A frame of the ledger. -/
def Held (w : Pmm.World) (f : Nat) : Prop := pageSize ∣ f ∧ f / pageSize ∈ w.held

open Classical in
/-- `pmm_alloc` with a ledger. It serves only while the books are right. -/
noncomputable def ledger (entries : List Pmm.MemmapEntry) (h : Nat) : Allocator Pmm.World where
  pmmAlloc w m :=
    if Books entries h w m then
      let r := frames.pmmAlloc w.pmm m
      (r.1, ⟨r.2.1, Pmm.hold r.1 1 w.held⟩, r.2.2)
    else (0, w, m)
  pmmGetMaxPhys w := w.pmm.maxPhys

variable {entries : List Pmm.MemmapEntry} {h : Nat} {w : Pmm.World} {m : Mem}

/-- A frame of the ledger is one of usable memory, apart from the bitmap. -/
theorem Books.held (hb : Books entries h w m) {f : Nat} (hf : Held w f) :
    Pmm.Ownable entries { w.pmm with mem := m } (f / pageSize) :=
  (hb.inv.owned _ hf.2).2

/-- What `pmm_alloc` grants, in the ledger. -/
structure Allotted (entries : List Pmm.MemmapEntry) (h : Nat) (w : Pmm.World) (m : Mem)
    (phys : Nat) (w' : Pmm.World) (m' : Mem) : Prop where
  books : Books entries h w' m'
  held : w'.held = phys / pageSize :: w.held
  granted : Pmm.Granted entries { w.pmm with mem := m } w.held phys 1 { w'.pmm with mem := m' }

/-- The direct map, the number of frames and the end of memory are as they were. -/
structure Steady (p p' : Pmm.PmmState) : Prop where
  hhdmOffset : p'.hhdmOffset = p.hhdmOffset
  bitmapFrames : p'.bitmapFrames = p.bitmapFrames
  maxPhys : p'.maxPhys = p.maxPhys

theorem Steady.refl (p : Pmm.PmmState) : Steady p p := ⟨rfl, rfl, rfl⟩

theorem Steady.trans {p q r : Pmm.PmmState} (h : Steady p q) (h' : Steady q r) : Steady p r :=
  ⟨h'.hhdmOffset.trans h.hhdmOffset, h'.bitmapFrames.trans h.bitmapFrames,
    h'.maxPhys.trans h.maxPhys⟩

theorem takeFrame_steady (p : Pmm.PmmState) (f : Nat) : Steady p (Pmm.takeFrame p f).2 := by
  have hfields : ∀ (m : Mem) (used last : Nat),
      Steady p { p with mem := m, usedMem := used, lastFree := last } := fun m used last =>
    ⟨rfl, rfl, rfl⟩
  exact hfields _ _ _

theorem pmmAlloc_steady (p : Pmm.PmmState) : Steady p (Pmm.pmmAlloc p).2 := by
  unfold Pmm.pmmAlloc
  split
  next r hr =>
    obtain ⟨f, -, -, -, rfl, -⟩ := Pmm.allocLoop_spec hr
    exact takeFrame_steady p f
  · split
    next r hr =>
      obtain ⟨f, -, -, -, rfl, -⟩ := Pmm.allocLoop_spec hr
      exact takeFrame_steady p f
    · exact .refl p

/-- With right books the ledger only watches. -/
theorem Books.served (hb : Books entries h w m) :
    (ledger entries h).pmmAlloc w m =
      ((Pmm.pmmAlloc { w.pmm with mem := m }).1,
        ⟨(Pmm.pmmAlloc { w.pmm with mem := m }).2,
          Pmm.hold (Pmm.pmmAlloc { w.pmm with mem := m }).1 1 w.held⟩,
        (Pmm.pmmAlloc { w.pmm with mem := m }).2.mem) := if_pos hb

/-- What the ledger hands out is zeroed, usable and new to its books. -/
theorem ledger_alloc {phys : Nat} {w' : Pmm.World} {m' : Mem}
    (halloc : (ledger entries h).pmmAlloc w m = (phys, w', m')) (hne : phys ≠ 0) :
    Books entries h w m ∧ Allotted entries h w m phys w' m' := by
  by_cases hb : Books entries h w m
  · refine ⟨hb, ?_⟩
    rw [hb.served] at halloc
    obtain ⟨rfl, rfl, rfl⟩ : _ ∧ _ ∧ _ := by simpa only [Prod.mk.injEq] using halloc
    rcases Pmm.pmmAlloc_spec hb.inv with hnone | ⟨f, hf, hgranted, hinv⟩
    · -- there was no frame
      rw [hnone] at hne
      exact absurd rfl hne
    · have hquot : f * Pmm.pageSize / Pmm.pageSize = f := Nat.mul_div_cancel _ (by decide)
      have hheld : Pmm.hold (f * Pmm.pageSize) 1 w.held = List.range' f 1 ++ w.held := by
        rw [← hf, Pmm.hold, if_neg hne, hf, hquot]
      rw [hf, hheld]
      constructor
      · constructor
        · exact hinv
        · exact (pmmAlloc_steady _).hhdmOffset.trans hb.hhdm
      · change f :: w.held = f * pageSize / pageSize :: w.held
        have hquot : f * pageSize / pageSize = f := hquot
        rw [hquot]
      · exact hgranted
  · have hcase : (ledger entries h).pmmAlloc w m = (0, w, m) := if_neg hb
    rw [hcase] at halloc
    exact absurd (congrArg Prod.fst halloc).symm hne

/-- A frame of usable memory is a page of the direct map. -/
theorem DirectMapped.frame (hd : DirectMapped entries h) {p : Pmm.PmmState} {f : Nat}
    (hf : Pmm.Ownable entries p f) : Frame (f * pageSize) ∧ f * pageSize + h < 2 ^ 64 := by
  obtain ⟨⟨e, he, hu, -, hend⟩, -⟩ := hf
  obtain ⟨hwidth, hroom⟩ := hd e he hu
  have hend : f * pageSize + pageSize ≤ e.base + e.length := hend
  have hpage : 0 < pageSize := by decide
  constructor
  · constructor
    · exact Nat.dvd_mul_left _ _
    · omega
  · omega

/-- Bytes of two frames, or of a frame and the bitmap, are different bytes. -/
theorem byteAt_ne {a b i j : Nat} (ha : a + i < 2 ^ 64) (hb : b + j < 2 ^ 64)
    (hne : a + i ≠ b + j) : byteAt h (a + i) ≠ byteAt h (b + j) := by
  intro heq
  exact hne (byteAt_inj ha hb heq)

/-- The bytes of a frame of the ledger are not those of the bitmap. -/
theorem Books.byteAt_ne_bitmap (hb : Books entries h w m) (hd : DirectMapped entries h)
    {f k i : Nat} (hf : Held w f) (hk : k < pageSize)
    (hi : i < Pmm.bitmapSize w.pmm.bitmapFrames) : byteAt h (f + k) ≠ byteAt w.pmm.bitmap i := by
  have hown := hb.held hf
  have hlt := (hd.frame hown).1.lt
  have hphys : f / pageSize * pageSize = f := Nat.div_mul_cancel hf.1
  rw [hphys] at hlt
  have hroom := hb.inv.room
  have hplace : w.pmm.bitmap = byteAt h (Pmm.bitmapPhys w.pmm) := by
    rw [← hb.hhdm]
    exact hb.inv.place
  have hroom : Pmm.bitmapPhys w.pmm + Pmm.bitmapSize w.pmm.bitmapFrames ≤ 2 ^ 64 := hroom
  have hapart : f / pageSize * pageSize + pageSize ≤ Pmm.bitmapPhys w.pmm ∨
    Pmm.bitmapPhys w.pmm + Pmm.bitmapSize w.pmm.bitmapFrames ≤ f / pageSize * pageSize := hown.2
  rw [hphys] at hapart
  rw [hplace, byteAt_byteAt]
  refine byteAt_ne ?_ ?_ ?_
  · unfold pageSize at hk
    have hwidth := (hd.frame hown).1.2
    omega
  · omega
  · omega

/-- The bytes of a frame of the ledger are not those of frames that are granted. -/
theorem Books.granted_others (hb : Books entries h w m) (hd : DirectMapped entries h)
    {phys n : Nat} {p' : Pmm.PmmState}
    (hg : Pmm.Granted entries { w.pmm with mem := m } w.held phys n p') {f : Nat}
    (hf : Held w f) {k : Nat} (hk : k < pageSize) :
    p'.mem (byteAt h (f + k)) = m (byteAt h (f + k)) := by
  have hphys : f / pageSize * pageSize = f := Nat.div_mul_cancel hf.1
  have hwidth := (hd.frame (hb.held hf)).1.2
  have hapart := hg.held _ hf.2
  have hoff : w.pmm.hhdmOffset = h := hb.hhdm
  unfold pageSize at hk hphys hapart hwidth
  unfold Pmm.pageSize at hapart
  refine hg.frame _ (fun i hi => ?_) fun i hi => hb.byteAt_ne_bitmap hd hf hk hi
  rw [hoff]
  -- the last byte of the range is usable memory, so the range does not wrap
  obtain ⟨e, he, hu, -, hend⟩ := hg.usable (phys + i) (Nat.le_add_right _ _) (by omega)
  have hfits := (hd e he hu).1
  unfold Pmm.pageSize at hi
  refine byteAt_ne ?_ ?_ ?_
  · omega
  · omega
  · omega

/-- With right books `pmm_alloc` hands out frames that are new to the ledger. -/
theorem ledger_lawful (hd : DirectMapped entries h) : Lawful (ledger entries h) Held h := by
  intro w m phys w' m' halloc hne
  obtain ⟨hb, ha⟩ := ledger_alloc halloc hne
  have hphys : phys / pageSize * pageSize = phys := Nat.div_mul_cancel ha.granted.aligned
  have hmem : phys / pageSize ∈ w'.held := by
    rw [ha.held]
    exact List.mem_cons_self
  obtain ⟨hframe, hmapped⟩ := hd.frame (ha.books.inv.owned _ hmem).2
  rw [hphys] at hframe hmapped
  have hoff : w.pmm.hhdmOffset = h := hb.hhdm
  constructor
  · exact hframe
  · exact hmapped
  · -- the frames of the ledger lie apart from the granted one
    intro hheld
    have hapart := ha.granted.held _ hheld.2
    unfold Pmm.pageSize at hapart
    unfold pageSize at hphys hapart
    omega
  · exact ⟨ha.granted.aligned, hmem⟩
  · intro f hf
    refine ⟨hf.1, ?_⟩
    rw [ha.held]
    exact List.mem_cons_of_mem _ hf.2
  · intro k hk
    have hzero := ha.granted.zeroed k (by rwa [Nat.one_mul])
    rwa [← hoff]
  · intro f hf k hk
    exact hb.granted_others hd ha.granted hf hk

/-! ## Writes into frames of the ledger -/

/-- Memory has changed in frame `f` only. -/
def InFrame (h f : Nat) (m m' : Mem) : Prop :=
  ∀ x, (∀ k < pageSize, x ≠ byteAt h (f + k)) → m' x = m x

/-- The bitmap is not written when a frame of the ledger is. -/
theorem Books.write_test (hb : Books entries h w m) {f g : Nat} {m' : Mem} (hf : Held w f)
    (hm : InFrame h f m m') (hg : g < w.pmm.bitmapFrames) :
    Pmm.bitmapTest { w.pmm with mem := m' } g = Pmm.bitmapTest { w.pmm with mem := m } g := by
  have hinv := hb.inv
  have hphys : f / Pmm.pageSize * Pmm.pageSize = f := Nat.div_mul_cancel hf.1
  obtain ⟨hlt, -, hapart⟩ := hinv.owned _ hf.2
  change f / Pmm.pageSize < w.pmm.bitmapFrames at hlt
  have hsmall : w.pmm.bitmapFrames < 2 ^ 52 := hinv.small
  have hwidth : f + Pmm.pageSize ≤ 2 ^ 64 := by
    unfold Pmm.pageSize at hlt hphys ⊢
    omega
  refine hinv.placed.test_frame (m := m) (a := f) (k := Pmm.pageSize)
    (fun x hx => hm x ?_) hwidth ?_ hg
  · rw [← hb.hhdm]
    exact hx
  · rw [← hphys]
    exact hapart

theorem Books.write (hb : Books entries h w m) {f : Nat} {m' : Mem} (hf : Held w f)
    (hm : InFrame h f m m') : Books entries h w m' := by
  have hinv := hb.inv
  constructor
  · refine hinv.update ⟨rfl, rfl, rfl⟩ hinv.hint ?_ hinv.owned hinv.nodup
    intro g hg hclear
    refine hinv.clear g hg ?_
    rw [← hb.write_test hf hm hg]
    exact hclear
  · exact hb.hhdm

theorem setEntry_inFrame {σ : Type} {s : VmmState σ} {f : Nat} (i : Fin 512) (v : Nat) :
    InFrame s.hhdmOffset f s.mem (setEntry s (add64 f s.hhdmOffset) i v).mem := by
  intro x hx
  refine writeLE_frame _ _ fun k hk => ?_
  rw [entry_byte, Nat.add_assoc]
  refine hx _ ?_
  have hi := i.isLt
  unfold pageSize
  omega

/-- Different frames have different bytes. -/
theorem InFrame.other {m m' : Mem} {f g : Nat} (hm : InFrame h f m m') (hf : Frame f)
    (hg : Frame g) (hne : g ≠ f) {k : Nat} (hk : k < pageSize) :
    m' (byteAt h (g + k)) = m (byteAt h (g + k)) := by
  refine hm _ fun i hi => ?_
  obtain ⟨hfd, hfw⟩ := hf
  obtain ⟨hgd, hgw⟩ := hg
  unfold pageSize at hk hi hfd hgd
  refine byteAt_ne ?_ ?_ ?_
  · omega
  · omega
  · omega

/-! ## What the page-table code does to other frames -/

variable {s s' t : Ledgered} {root : Nat}

/-- A frame of the ledger that is no table. -/
def Data (s : Ledgered) (root f : Nat) : Prop :=
  Held s.pmm f ∧ ∀ q, tableAt s root q ≠ some f

/-- The frames that are no tables keep their bytes. -/
structure Spares (s s' : Ledgered) (root : Nat) : Prop where
  hhdm : s'.hhdmOffset = s.hhdmOffset
  drawn : Drawn Held s s' root
  bytes : ∀ f, Data s root f → ∀ k < pageSize,
    s'.mem (byteAt s.hhdmOffset (f + k)) = s.mem (byteAt s.hhdmOffset (f + k))

theorem Spares.refl (s : Ledgered) (root : Nat) : Spares s s root :=
  ⟨rfl, .refl Held s root, fun _ _ _ _ => rfl⟩

/-- Data is no table later on. -/
theorem Spares.data (hs : Spares s s' root) {f : Nat} (hf : Data s root f) : Data s' root f := by
  constructor
  · exact hs.drawn.keeps f hf.1
  · intro q hq
    rcases hs.drawn.tables q f hq with hold | hfree
    · exact hf.2 q hold
    · exact hfree hf.1

theorem Spares.trans (h₁ : Spares s t root) (h₂ : Spares t s' root) : Spares s s' root := by
  constructor
  · exact h₂.hhdm.trans h₁.hhdm
  · exact h₁.drawn.trans h₂.drawn
  · intro f hf k hk
    have hlater := h₂.bytes f (h₁.data hf) k hk
    rw [h₁.hhdm] at hlater
    exact hlater.trans (h₁.bytes f hf k hk)

/-- The books are right and the tables form a tree in frames of the ledger. -/
structure Sound (entries : List Pmm.MemmapEntry) (h : Nat) (s : Ledgered) (root : Nat) : Prop where
  hhdm : s.hhdmOffset = h
  books : Books entries h s.pmm s.mem
  inv : Vmm.Inv Held s root

/-! ## The functions of vmm.c -/

theorem Books.frames_eq (hb : Books entries h w m) {phys : Nat} {w' : Pmm.World} {m' : Mem}
    (halloc : (ledger entries h).pmmAlloc w m = (phys, w', m')) :
    frames.pmmAlloc w.pmm m = (phys, w'.pmm, m') := by
  rw [hb.served] at halloc
  obtain ⟨rfl, rfl, rfl⟩ : _ ∧ _ ∧ _ := by simpa only [Prod.mk.injEq] using halloc
  rfl

theorem Books.frame (hb : Books entries h w m) (hd : DirectMapped entries h) {f : Nat}
    (hf : Held w f) : Frame f := by
  have hframe := (hd.frame (hb.held hf)).1
  rwa [Nat.div_mul_cancel hf.1] at hframe

/-- A table is written and no other frame. -/
theorem Books.setEntry (hb : Books entries s.hhdmOffset s.pmm s.mem)
    (hd : DirectMapped entries s.hhdmOffset) {n : Nat} (hn : Held s.pmm n) (i : Fin 512) (v : Nat) :
    Books entries s.hhdmOffset s.pmm (setEntry s (add64 n s.hhdmOffset) i v).mem ∧
      ∀ f, Held s.pmm f → f ≠ n → ∀ k < pageSize,
        (Vmm.setEntry s (add64 n s.hhdmOffset) i v).mem (byteAt s.hhdmOffset (f + k)) =
          s.mem (byteAt s.hhdmOffset (f + k)) := by
  have hframe := setEntry_inFrame (s := s) (f := n) i v
  constructor
  · exact hb.write hn hframe
  · intro f hf hne k hk
    exact hframe.other (hb.frame hd hn) (hb.frame hd hf) hne hk

/-- Writing a leaf. -/
theorem Sound.write_leaf (hs : Sound entries h s root) (hd : DirectMapped entries h)
    {p : List (Fin 512)} {n v : Nat} (i : Fin 512) (hp : tableAt s root p = some n)
    (hv : v < 2 ^ 64) (hleaf : child p.length v = none) (hdeep : 2 ≤ p.length) :
    Sound entries h (setEntry s (add64 n s.hhdmOffset) i v) root ∧
      Spares s (setEntry s (add64 n s.hhdmOffset) i v) root := by
  obtain ⟨rfl, hb, hi⟩ := hs
  obtain ⟨hbooks, hbytes⟩ := hb.setEntry hd (hi.frames p n hp).2 i v
  constructor
  · exact ⟨rfl, hbooks, hi.write_leaf hp hv hleaf hdeep⟩
  · constructor
    · rfl
    · refine ⟨fun _ hf => hf, fun q f hq => ?_⟩
      exact .inl (hi.of_write_leaf hp hv hleaf hq)
    · intro f hf k hk
      refine hbytes f hf.1 ?_ k hk
      rintro rfl
      exact hf.2 p hp

/-- A table below the entry, and what the call leaves. -/
structure Below (entries : List Pmm.MemmapEntry) (h : Nat) (s : Ledgered) (root : Nat)
    (q : List (Fin 512)) (r : Nat × Ledgered) : Prop where
  table : ∃ c, r.1 = add64 c r.2.hhdmOffset ∧ tableAt r.2 root q = some c
  sound : Sound entries h r.2 root
  grown : Grown s r.2 root
  spares : Spares s r.2 root

/-- With the allocator or with its ledger, the same table is found or made. -/
theorem getOrCreateTable_erases (hd : DirectMapped entries h) (hs : Sound entries h s root)
    {p : List (Fin 512)} {n : Nat} {i : Fin 512} (hp : tableAt s root p = some n)
    (hlen : p.length ≤ 2) (hsmall : present (ent s.mem s.hhdmOffset n i) = true →
      p.length = 0 ∨ huge (ent s.mem s.hhdmOffset n i) = false) :
    Erases (fun r => (r.1, erase r.2)) (Below entries h s root (p ++ [i]))
      (getOrCreateTable (ledger entries h) s (add64 n s.hhdmOffset) i
        (pageWrite ||| pagePresent))
      (getOrCreateTable frames (erase s) (add64 n s.hhdmOffset) i (pageWrite ||| pagePresent)) := by
  obtain ⟨rfl, hb, hi⟩ := hs
  -- what is below the table is the specification; the rest is that both go the same way
  have hspec : ∀ r, getOrCreateTable (ledger entries s.hhdmOffset) s (add64 n s.hhdmOffset) i
      (pageWrite ||| pagePresent) = .ok r →
      Books entries s.hhdmOffset r.2.pmm r.2.mem ∧ (∀ f, Data s root f → ∀ k < pageSize,
        r.2.mem (byteAt s.hhdmOffset (f + k)) = s.mem (byteAt s.hhdmOffset (f + k))) →
      Below entries s.hhdmOffset s root (p ++ [i]) r := by
    intro r hr hkept
    obtain ⟨c, ht, hc, hi', hg, hdrawn⟩ :=
      getOrCreateTable_spec (ledger_lawful hd) hi hp hlen hsmall hr
    exact ⟨⟨c, ht, hc⟩, ⟨hg.hhdm, hkept.1, hi'⟩, hg, hg.hhdm, hdrawn, hkept.2⟩
  refine Erases.mono ?_ hspec
  by_cases hpres : present (entry s.mem (add64 n s.hhdmOffset) i) = true
  · -- the table is there
    have hx : getOrCreateTable (ledger entries s.hhdmOffset) s (add64 n s.hhdmOffset) i
        (pageWrite ||| pagePresent) =
        .ok (physToVirt s (entry s.mem (add64 n s.hhdmOffset) i &&& physAddrMask), s) :=
      if_pos hpres
    have hy : getOrCreateTable frames (erase s) (add64 n s.hhdmOffset) i
        (pageWrite ||| pagePresent) =
        .ok (physToVirt s (entry s.mem (add64 n s.hhdmOffset) i &&& physAddrMask), erase s) :=
      if_pos hpres
    rw [hx, hy]
    exact .ok ⟨hb, fun _ _ _ _ => rfl⟩
  · obtain ⟨⟨phys, w', m'⟩, halloc⟩ :
        ∃ r, (ledger entries s.hhdmOffset).pmmAlloc s.pmm s.mem = r := ⟨_, rfl⟩
    have hframes : frames.pmmAlloc (erase s).pmm (erase s).mem = (phys, w'.pmm, m') :=
      hb.frames_eq halloc
    have habsent : ¬present (entry (erase s).mem (add64 n s.hhdmOffset) i) = true := hpres
    rw [getOrCreateTable, getOrCreateTable, halloc, hframes]
    dsimp only
    rw [if_neg hpres, if_neg habsent]
    by_cases hne : phys = 0
    · rw [if_pos hne, if_pos hne]
      exact .error _
    · -- a frame is taken and the entry that points to it is written
      rw [if_neg hne, if_neg hne]
      obtain ⟨-, ha⟩ := ledger_alloc halloc hne
      have hfresh := ledger_lawful hd _ _ _ _ _ halloc hne
      have hn := hfresh.keeps n (hi.frames p n hp).2
      obtain ⟨hbooks, hbytes⟩ :=
        Books.setEntry (s := { s with pmm := w', mem := m' }) ha.books hd hn i
          (phys ||| (pageWrite ||| pagePresent) ||| pagePresent)
      refine Erases.ok (a := (_, _)) ⟨hbooks, fun f hf k hk => ?_⟩
      have hne : f ≠ n := by
        rintro rfl
        exact hf.2 p hp
      exact (hbytes f (hfresh.keeps f hf.1) hne k hk).trans (hfresh.others f hf.1 k hk)

/-- The first two calls of `get_or_create_table`, before a computation that goes on with the
page directory. -/
theorem upperLevels_erases {α β : Type} {π : α → β} {P : α → Prop} {v : Nat}
    {f : Nat → Ledgered → Except Halt α} {g : Nat → State → Except Halt β}
    (hd : DirectMapped entries h) (hs : Sound entries h s root)
    (hf : ∀ c s₁, tableAt s₁ root [pos (pml4Idx v), pos (pdptIdx v)] = some c →
      Sound entries h s₁ root → Grown s s₁ root → Spares s s₁ root →
      Erases π P (f (add64 c s₁.hhdmOffset) s₁) (g (add64 c s₁.hhdmOffset) (erase s₁))) :
    Erases π P
      (do let (pdpt, s) ← getOrCreateTable (ledger entries h) s s.kernelPml4 (pml4Idx v)
            (pageWrite ||| pagePresent)
          let (pd, s) ← getOrCreateTable (ledger entries h) s pdpt (pdptIdx v)
            (pageWrite ||| pagePresent)
          f pd s)
      (do let (pdpt, s) ← getOrCreateTable frames (erase s) (erase s).kernelPml4 (pml4Idx v)
            (pageWrite ||| pagePresent)
          let (pd, s) ← getOrCreateTable frames s pdpt (pdptIdx v) (pageWrite ||| pagePresent)
          g pd s) := by
  have hpml4 : (erase s).kernelPml4 = add64 root s.hhdmOffset := hs.inv.pml4
  rw [hs.inv.pml4, hpml4, ← pos_pml4Idx v]
  refine Erases.bind (getOrCreateTable_erases (p := []) hd hs rfl (Nat.zero_le _)
    fun _ => .inl rfl) ?_
  rintro ⟨t₁, s₁⟩ - ⟨⟨c₁, ht₁, hc₁⟩, hs₁, hg₁, hsp₁⟩
  obtain rfl : t₁ = add64 c₁ s₁.hhdmOffset := ht₁
  dsimp only
  rw [← pos_pdptIdx v]
  refine Erases.bind (getOrCreateTable_erases (p := [pos (pml4Idx v)]) hd hs₁ hc₁ (by simp)
    fun hpres => .inr (hs₁.inv.upper _ _ _ rfl hc₁ hpres)) ?_
  rintro ⟨t₂, s₂⟩ - ⟨⟨c₂, ht₂, hc₂⟩, hs₂, hg₂, hsp₂⟩
  obtain rfl : t₂ = add64 c₂ s₂.hhdmOffset := ht₂
  exact hf c₂ s₂ hc₂ hs₂ (hg₁.trans hg₂) (hsp₁.trans hsp₂)

/-- What a function of `vmm.c` leaves. -/
def Kept (entries : List Pmm.MemmapEntry) (h : Nat) (s : Ledgered) (root : Nat) (s' : Ledgered) :
    Prop :=
  Sound entries h s' root ∧ Spares s s' root

/-- `vmm_map` is the same with the ledger. -/
theorem vmmMap_erases {v phys flags : Nat} (hd : DirectMapped entries h)
    (hs : Sound entries h s root) (hv : NoHuge s v) (hphys : phys < 2 ^ 64)
    (hflags : flags < 2 ^ 64) :
    Erases erase (Kept entries h s root) (vmmMap (ledger entries h) s v phys flags)
      (vmmMap frames (erase s) v phys flags) := by
  refine upperLevels_erases (v := v)
    (f := fun pd s => do
      let (pt, s) ← getOrCreateTable (ledger entries h) s pd (pdIdx v) (pageWrite ||| pagePresent)
      return setEntry s pt (ptIdx v) ((phys &&& physAddrMask) ||| flags ||| pagePresent))
    (g := fun pd s => do
      let (pt, s) ← getOrCreateTable frames s pd (pdIdx v) (pageWrite ||| pagePresent)
      return setEntry s pt (ptIdx v) ((phys &&& physAddrMask) ||| flags ||| pagePresent)) hd hs ?_
  intro c₂ s₂ hc₂ hs₂ hg₂ hsp₂
  have hv₂ := hg₂.noHuge hs.inv hs₂.inv hv
  rw [← pos_pdIdx v]
  refine Erases.bind (getOrCreateTable_erases hd hs₂ hc₂ (by simp)
    fun hpres => .inr (pde_small hs₂.inv hv₂ hc₂ hpres)) ?_
  rintro ⟨t₃, s₃⟩ - ⟨⟨c₃, ht₃, hc₃⟩, hs₃, hg₃, hsp₃⟩
  obtain rfl : t₃ = add64 c₃ s₃.hhdmOffset := ht₃
  dsimp only
  rw [← pos_ptIdx v]
  obtain ⟨hs', hsp'⟩ := hs₃.write_leaf hd (pos (ptIdx v)) hc₃ (pte_lt hphys hflags)
    (if_neg fun hc => by simp at hc) (by simp)
  exact Erases.ok ⟨hs', (hsp₂.trans hsp₃).trans hsp'⟩

theorem vmmUnmap_erase (s : Ledgered) (v : Nat) :
    vmmUnmap (erase s) v = erase (vmmUnmap s v) := by
  unfold vmmUnmap
  simp only [apply_ite erase]
  rfl

theorem vmmUnmap_kept {v : Nat} (hd : DirectMapped entries h) (hs : Sound entries h s root)
    (hv : NoHuge s v) : Kept entries h s root (vmmUnmap s v) := by
  rcases vmmUnmap_spec hs.inv hv with ⟨hsame, -⟩ | ⟨c, hc, hwrite⟩
  · rw [hsame]
    exact ⟨hs, .refl s root⟩
  · rw [hwrite]
    exact hs.write_leaf hd (pos (ptIdx v)) hc (by decide) (child_of_not_present present_zero)
      (by simp)

theorem mapHuge_erases {phys : Nat} (hd : DirectMapped entries h) (hs : Sound entries h s root)
    (hphys : phys < 2 ^ 64) :
    Erases erase (Kept entries h s root) (mapHuge (ledger entries h) s phys)
      (mapHuge frames (erase s) phys) := by
  set u := add64 phys s.hhdmOffset
  refine upperLevels_erases (v := u)
    (f := fun pd t => .ok (setEntry t pd (pdIdx u) (directEntry phys)))
    (g := fun pd t => .ok (setEntry t pd (pdIdx u) (directEntry phys))) hd hs ?_
  intro c t hc ht hg hsp
  rw [← pos_pdIdx u]
  obtain ⟨hs', hsp'⟩ := ht.write_leaf hd (pos (pdIdx u)) hc (directEntry_lt hphys)
    (child_of_huge (by simp) (huge_directEntry phys)) (by simp)
  exact Erases.ok ⟨hs', hsp.trans hsp'⟩

/-- What a second call leaves on top of what a first one has left. -/
theorem Kept.trans (h₁ : Kept entries h s root t) (h₂ : Kept entries h t root s') :
    Kept entries h s root s' := ⟨h₂.1, h₁.2.trans h₂.2⟩

theorem hhdmLoop_erases {phys n : Nat} (hd : DirectMapped entries h)
    (hs : Sound entries h s root) (hphys : phys < 2 ^ 64) :
    Erases erase (Kept entries h s root) (hhdmLoop (ledger entries h) s phys n)
      (hhdmLoop frames (erase s) phys n) := by
  induction n generalizing s phys with
  | zero => exact .ok ⟨hs, .refl s root⟩
  | succ n ih =>
      refine Erases.bind (mapHuge_erases hd hs hphys) ?_
      intro t _ hkept
      refine Erases.mono (ih hkept.1 (add64_lt _ _)) ?_
      intro s' _ hrest
      exact hkept.trans hrest

theorem kernelLoop_erases {S : List (Fin 512) → Prop} {kernelVirt kernelPhys k n total : Nat}
    (hd : DirectMapped entries h) (hs : Sound entries h s root) (hslots : HugeSlots S s root)
    (htotal : total * pageSize < 2 ^ 64) (hk : k + n = total)
    (hout : ∀ j < total, ¬S (slot (add64 kernelVirt (j * pageSize)))) :
    Erases erase (Kept entries h s root)
      (kernelLoop (ledger entries h) s kernelVirt kernelPhys (k * pageSize) n)
      (kernelLoop frames (erase s) kernelVirt kernelPhys (k * pageSize) n) := by
  induction n generalizing s k with
  | zero => exact .ok ⟨hs, .refl s root⟩
  | succ n ih =>
      have hv := noHuge_of_slots hs.inv hslots (hout k (by omega))
      refine Erases.bind (vmmMap_erases hd hs hv (add64_lt _ _) (by decide)) ?_
      intro t hmap hkept
      have hA : Lawful (ledger entries h) Held s.hhdmOffset := by
        rw [hs.hhdm]
        exact ledger_lawful hd
      obtain ⟨-, hslots', -⟩ := vmmMap_inv hA hs.inv hslots hv (add64_lt _ _) (by decide) hmap
      rw [add64_stride htotal (by omega)]
      refine Erases.mono (ih hkept.1 hslots' (by omega)) ?_
      intro s' _ hrest
      exact hkept.trans hrest

/-! ## Regions -/

/-- What is provided for the pages of a region: zeroed frames of its own. -/
structure Provided (entries : List Pmm.MemmapEntry) (h : Nat) (s : Ledgered) (root virt flags k : Nat)
    (frames : List Nat) (s' : Ledgered) : Prop where
  kept : Kept entries h s root s'
  region : Region Held s s' root virt flags k frames
  data : ∀ f ∈ frames, Data s' root f
  zeroed : ∀ f ∈ frames, ∀ j < pageSize, s'.mem (byteAt h (f + j)) = 0

/-- `pmm_alloc` leaves the tables and all data alone. -/
theorem Sound.alloc (hs : Sound entries h s root) (hd : DirectMapped entries h) {phys : Nat}
    {w' : Pmm.World} {m' : Mem}
    (halloc : (ledger entries h).pmmAlloc s.pmm s.mem = (phys, w', m')) (hne : phys ≠ 0) :
    Kept entries h s root { s with pmm := w', mem := m' } ∧
      Data { s with pmm := w', mem := m' } root phys := by
  obtain ⟨rfl, hb, hi⟩ := hs
  obtain ⟨-, ha⟩ := ledger_alloc halloc hne
  have hfresh := ledger_lawful hd _ _ _ _ _ halloc hne
  have htables := hfresh.tablesKept hi
  refine ⟨⟨⟨rfl, ha.books, htables.inv hi⟩, rfl, ⟨hfresh.keeps, fun q f hq => ?_⟩,
    fun f hf => hfresh.others f hf.1⟩, hfresh.taken, fun q hq => ?_⟩
  · rw [htables.tableAt] at hq
    exact .inl hq
  · -- tables were in the ledger before the call
    rw [htables.tableAt] at hq
    exact hfresh.fresh (hi.frames q phys hq).2

/-- A page of the region that was not mapped by a large page still is not. -/
theorem Mapped.noHuge {virt phys flags v : Nat} (hm : Mapped Held s t root virt phys flags)
    (hi : Vmm.Inv Held s root) (hv : NoHuge s v) : NoHuge t v := by
  rw [noHuge_place hm.inv, hm.place]
  by_cases hpage : SamePage v virt
  · rw [if_pos hpage]
    intro r hr
    rw [← Option.some.inj hr]
  · rw [if_neg hpage, ← noHuge_place hi]
    exact hv

/-- The loop of `vmm_map_region` is the same with the ledger, which also knows its frames. -/
theorem regionLoop_erases {virt flags k n total : Nat} (hd : DirectMapped entries h)
    (hs : Sound entries h s root) (hflags : flags < 2 ^ 64) (htotal : total * pageSize < 2 ^ 64)
    (hk : k + n = total) (hsmall : ∀ j < total, NoHuge s (add64 virt (j * pageSize))) :
    Erases erase (fun s' => ∃ frames, frames.length = n ∧
        Provided entries h s root virt flags k frames s')
      (regionLoop (ledger entries h) s virt flags (k * pageSize) n)
      (regionLoop frames (erase s) virt flags (k * pageSize) n) := by
  have hA : Lawful (ledger entries h) Held s.hhdmOffset := by
    rw [hs.hhdm]
    exact ledger_lawful hd
  induction n generalizing s k with
  | zero =>
      refine .ok ⟨[], rfl, ⟨hs, .refl s root⟩, ⟨hs.inv, rfl, .refl Held s root, List.nodup_nil,
        ?_, ?_, ?_, rfl⟩, ?_, ?_⟩
      all_goals
        intro f hf
        cases hf
  | succ n ih =>
      obtain ⟨⟨phys, w', m'⟩, halloc⟩ : ∃ r, (ledger entries h).pmmAlloc s.pmm s.mem = r :=
        ⟨_, rfl⟩
      have hframes : Mm.frames.pmmAlloc (erase s).pmm (erase s).mem = (phys, w'.pmm, m') :=
        hs.books.frames_eq halloc
      rw [regionLoop, regionLoop, halloc, hframes]
      dsimp only
      by_cases hne : phys = 0
      · rw [if_pos hne, if_pos hne]
        exact .error _
      rw [if_neg hne, if_neg hne]
      obtain ⟨hkept, hdata⟩ := hs.alloc hd halloc hne
      have hfresh := hA _ _ _ _ _ halloc hne
      have hv := hsmall k (by omega)
      have hvt : NoHuge { s with pmm := w', mem := m' } (add64 virt (k * pageSize)) := by
        rw [noHuge_place hkept.1.inv, funext (hfresh.tablesKept hs.inv).place,
          ← noHuge_place hs.inv]
        exact hv
      refine Erases.bind (vmmMap_erases hd hkept.1 hvt hfresh.frame.lt hflags) ?_
      intro t hmap hmapped
      have hround := region_round hA hs.inv hv hflags halloc hne hmap
      have hA' : Lawful (ledger entries h) Held t.hhdmOffset := by
        rw [hround.hhdm]
        exact hA
      rw [add64_stride htotal (by omega)]
      refine Erases.mono (ih hmapped.1 (by omega)
        (fun j hj => Mapped.noHuge hround hs.inv (hsmall j hj)) hA') ?_
      rintro s' - ⟨frames, hlen, hrest⟩
      -- the frame of this round is data for the rounds behind it
      have hphys := hmapped.2.data hdata
      refine ⟨phys :: frames, by rw [List.length_cons, hlen],
        (hkept.trans hmapped).trans hrest.kept, hround.region hrest.region, ?_, ?_⟩
      · intro f hf
        rcases List.mem_cons.1 hf with rfl | hf
        · exact hrest.kept.2.data hphys
        · exact hrest.data f hf
      · intro f hf j hj
        rcases List.mem_cons.1 hf with rfl | hf
        · have hlast := hrest.kept.2.bytes f hphys j hj
          rw [hmapped.1.hhdm] at hlast
          have hmiddle := hmapped.2.bytes f hdata j hj
          have hfirst := hfresh.zeroed j hj
          rw [hs.hhdm] at hfirst
          change t.mem (byteAt s.hhdmOffset (f + j)) = m' (byteAt s.hhdmOffset (f + j)) at hmiddle
          rw [hs.hhdm] at hmiddle
          rw [hlast, hmiddle, hfirst]
        · exact hrest.zeroed f hf j hj

theorem vmmMapRegion_erases {virt size flags : Nat} (hd : DirectMapped entries h)
    (hs : Sound entries h s root) (hflags : flags < 2 ^ 64) (hsize : size + 4095 < 2 ^ 64)
    (hsmall : RegionSmall s virt size) :
    Erases erase (fun s' => ∃ frames, frames.length = regionPages size ∧
        Provided entries h s root virt flags 0 frames s')
      (vmmMapRegion (ledger entries h) s virt size flags)
      (vmmMapRegion frames (erase s) virt size flags) := by
  have htotal : regionPages size * pageSize < 2 ^ 64 := by
    unfold regionPages pageSize
    omega
  have hzero : 0 = 0 * pageSize := rfl
  rw [vmmMapRegion, vmmMapRegion, alignedSize_pages hsize, hzero]
  exact regionLoop_erases hd hs hflags htotal (Nat.zero_add _) hsmall

/-! ## vmm_init -/

/-- What `vmm_init` leaves of the frames handed out before it. -/
structure Initialised (entries : List Pmm.MemmapEntry) (h : Nat) (s s' : Ledgered) : Prop where
  sound : ∃ root, Sound entries h s' root ∧ ∀ f, Held s.pmm f → Data s' root f
  bytes : ∀ f, Held s.pmm f → ∀ k < pageSize,
    s'.mem (byteAt h (f + k)) = s.mem (byteAt h (f + k))

/-- The empty PML4 that `vmm_init` starts with. -/
structure Started (entries : List Pmm.MemmapEntry) (h : Nat) (s t : Ledgered) (root : Nat) :
    Prop where
  sound : Sound entries h t root
  empty : ∀ i, ent t.mem t.hhdmOffset root i = 0
  data : ∀ f, Held s.pmm f → Data t root f
  bytes : ∀ f, Held s.pmm f → ∀ k < pageSize,
    t.mem (byteAt h (f + k)) = s.mem (byteAt h (f + k))

/-- A frame that is allocated is an empty root. -/
theorem started_of_alloc (hd : DirectMapped entries h) (hoff : s.hhdmOffset = h) {phys : Nat}
    {w' : Pmm.World} {m' : Mem}
    (halloc : (ledger entries h).pmmAlloc s.pmm s.mem = (phys, w', m')) (hne : phys ≠ 0) :
    Started entries h s ⟨m', s.hhdmOffset, physToVirt s phys, w'⟩ phys := by
  subst hoff
  obtain ⟨-, ha⟩ := ledger_alloc halloc hne
  obtain ⟨hframe, hmapped, hfree, htaken, hkeeps, hzeroed, hothers⟩ :=
    ledger_lawful hd _ _ _ _ _ halloc hne
  have hzero : ∀ i, ent m' s.hhdmOffset phys i = 0 := fun i => ent_zero i hzeroed
  have hnull : add64 phys s.hhdmOffset ≠ 0 := by
    rw [add64_eq hmapped]
    omega
  constructor
  · exact ⟨rfl, ha.books, inv_fresh rfl hnull hframe htaken hzero⟩
  · exact hzero
  · intro f hf
    refine ⟨hkeeps f hf, fun q hq => ?_⟩
    have hroot : f = phys :=
      (tableAt_fresh (s := ⟨m', s.hhdmOffset, physToVirt s phys, w'⟩) hzero hq).2
    rw [hroot] at hf
    exact hfree hf
  · exact hothers

/-- The loop over the direct map makes large pages there only. -/
theorem Started.slots {maxPhys : Nat} {u : Ledgered} (hst : Started entries h s t root)
    (hd : DirectMapped entries h)
    (hloop : hhdmLoop (ledger entries h) t 0 (hhdmMapSize maxPhys / 0x200000) = .ok u) :
    HugeSlots (directSlots h maxPhys) u root := by
  have hoff : t.hhdmOffset = h := hst.sound.hhdm
  have hA : Lawful (ledger entries h) Held t.hhdmOffset := by
    rw [hoff]
    exact ledger_lawful hd
  have hzeroth : 0 = 0 * 0x200000 := rfl
  rw [hzeroth] at hloop
  have hslots : HugeSlots (directSlots h maxPhys) t root := hugeSlots_fresh hst.empty
  exact (hhdmLoop_spec hA hst.sound.inv hslots
    ((Nat.div_mul_le_self _ _).trans_lt (and_right_lt _ (by decide))) (Nat.zero_add _)
    (fun j hj => ⟨j, hj, by rw [hoff]⟩) hloop).2.1

theorem imagePages_lt (kernelSize : Nat) :
    ksizeAligned kernelSize / pageSize * pageSize < 2 ^ 64 :=
  (Nat.div_mul_le_self _ _).trans_lt (and_right_lt _ (by decide))

/-- `vmm_init` is the same with the ledger. -/
theorem vmmInit_erases {kernelPhys kernelVirt kernelSize : Nat} (hd : DirectMapped entries h)
    (hb : Books entries h s.pmm s.mem) (hoff : s.hhdmOffset = h)
    (hout : KernelOutside h (maxPhysAtInit (ledger entries h) s) kernelVirt kernelSize) :
    Erases erase (Initialised entries h s)
      (vmmInit (ledger entries h) s kernelPhys kernelVirt kernelSize)
      (vmmInit frames (erase s) kernelPhys kernelVirt kernelSize) := by
  obtain ⟨⟨phys, w', m'⟩, halloc⟩ : ∃ r, (ledger entries h).pmmAlloc s.pmm s.mem = r := ⟨_, rfl⟩
  have hframes : Mm.frames.pmmAlloc (erase s).pmm (erase s).mem = (phys, w'.pmm, m') :=
    hb.frames_eq halloc
  rw [maxPhysAtInit, halloc] at hout
  rw [vmmInit, vmmInit, halloc, hframes]
  dsimp only at hout ⊢
  by_cases hne : phys = 0
  · rw [if_pos hne, if_pos hne]
    exact .error _
  rw [if_neg hne, if_neg hne]
  have hst := started_of_alloc hd hoff halloc hne
  refine Erases.bind (hhdmLoop_erases hd hst.sound (by decide)) ?_
  intro u hloop hkept
  have hslots := hst.slots hd hloop
  have hfirst : 0 = 0 * pageSize := rfl
  rw [hfirst]
  refine Erases.mono (kernelLoop_erases hd hkept.1 hslots (imagePages_lt kernelSize)
    (Nat.zero_add _) fun j hj hin => hout j hj (directSlots_slot_iff.mp hin)) ?_
  intro s' _ hrest
  have hall := hkept.trans hrest
  constructor
  · exact ⟨phys, hall.1, fun f hf => hall.2.data (hst.data f hf)⟩
  · intro f hf k hk
    have hbytes := hall.2.bytes f (hst.data f hf) k hk
    rw [hst.sound.hhdm] at hbytes
    exact hbytes.trans (hst.bytes f hf k hk)

end PolandOS.Mm
