import PolandOS.Mm.InitialMap
import Mathlib.Data.List.Nodup

/-! # Regions

`vmm_map_region` draws data frames and page-table frames from the same allocator, turn
about. What keeps them apart is that a frame in use is not handed out: the data frames
of earlier rounds are in use, and so are the tables.

* `map_region_fresh`: the pages of a region get frames of their own
-/

namespace PolandOS.Vmm

open ByteMem Radix Runs Overlay

/-! ## Changes outside the tables -/

section

variable {σ : Type} {s s' : VmmState σ} {root : Nat} {inUse : σ → Nat → Prop}

/-- The tables stay where they are, in frames in use, and keep their contents. -/
structure TablesKept (inUse : σ → Nat → Prop) (s s' : VmmState σ) (root : Nat) : Prop where
  hhdm : s'.hhdmOffset = s.hhdmOffset
  pml4 : s'.kernelPml4 = s.kernelPml4
  tables : ∀ q f, tableAt s root q = some f → inUse s'.pmm f ∧
    ∀ k < pageSize, s'.mem (byteAt s.hhdmOffset (f + k)) = s.mem (byteAt s.hhdmOffset (f + k))

theorem TablesKept.ent (hk : TablesKept inUse s s' root) {q : List (Fin 512)} {f : Nat}
    (hq : tableAt s root q = some f) (i : Fin 512) :
    ent s'.mem s'.hhdmOffset f i = ent s.mem s.hhdmOffset f i := by
  rw [hk.hhdm]
  exact ent_congr i (hk.tables q f hq).2

theorem TablesKept.tableAt (hk : TablesKept inUse s s' root) (q : List (Fin 512)) :
    tableAt s' root q = Vmm.tableAt s root q := by
  apply walk_congr
  intro r j t _ c hc
  exact hk.ent hc j

theorem TablesKept.inv (hk : TablesKept inUse s s' root) (hi : Inv inUse s root) :
    Inv inUse s' root := by
  constructor
  · rw [hk.pml4, hk.hhdm]
    exact hi.pml4
  · rw [hk.pml4]
    exact hi.notNull
  · intro p q f hp hq
    have hp := (hk.tableAt p).symm.trans hp
    have hq := (hk.tableAt q).symm.trans hq
    exact hi.tree p q f hp hq
  · intro q f hq
    rw [hk.tableAt] at hq
    exact ⟨(hi.frames q f hq).1, (hk.tables q f hq).1⟩
  · intro q f i hlen hq
    rw [hk.tableAt] at hq
    rw [hk.ent hq]
    exact hi.upper q f i hlen hq

theorem TablesKept.place (hk : TablesKept inUse s s' root) (v : Nat) :
    place s' root v = Vmm.place s root v := by
  have hlookup : lookup s'.mem s'.hhdmOffset root v = lookup s.mem s.hhdmOffset root v := by
    apply stop_congr
    intro r j t _ c hc
    exact hk.ent hc j
  unfold Vmm.place
  rw [hlookup]

/-! ## One round -/

variable {A : Allocator σ} {phys : Nat} {pmm' : σ} {mem' : Mem}

/-- `pmm_alloc` leaves the tables alone. -/
theorem FreshFrame.tablesKept (hf : FreshFrame inUse s.hhdmOffset s.pmm s.mem phys pmm' mem')
    (hi : Inv inUse s root) :
    TablesKept inUse s { s with pmm := pmm', mem := mem' } root := by
  refine ⟨rfl, rfl, fun q f hq => ?_⟩
  have huse := (hi.frames q f hq).2
  exact ⟨hf.keeps f huse, hf.others f huse⟩

/-- What one round of the loop does: a frame that was free is mapped and is no table. -/
structure Mapped (inUse : σ → Nat → Prop) (s s' : VmmState σ) (root virt phys flags : Nat) :
    Prop where
  inv : Inv inUse s' root
  hhdm : s'.hhdmOffset = s.hhdmOffset
  drawn : Drawn inUse s s' root
  frame : Frame phys
  fresh : ¬inUse s.pmm phys
  taken : inUse s'.pmm phys
  noTable : ∀ q, tableAt s' root q ≠ some phys
  place : ∀ v, place s' root v = if SamePage v virt then some (3, smallEntry phys flags)
    else Vmm.place s root v

theorem vmmMap_drawn {virt flags : Nat} (hA : Lawful A inUse s.hhdmOffset)
    (hi : Inv inUse s root) (hvirt : NoHuge s virt) (hphys : phys < 2 ^ 64)
    (hflags : flags < 2 ^ 64) (h : vmmMap A s virt phys flags = .ok s') :
    Drawn inUse s s' root := by
  obtain ⟨s₁, c, -, hd, hi₁, hc, rfl⟩ := vmmMap_spec hA hi hvirt h
  refine ⟨hd.keeps, fun q f hq => ?_⟩
  have hold := hi₁.of_write_leaf hc (pte_lt hphys hflags) (if_neg fun hc => by simp at hc) hq
  exact hd.tables q f hold

/-- One round of `vmm_map_region`: the frame is taken and the page is mapped to it. -/
theorem region_round {virt flags : Nat} (hA : Lawful A inUse s.hhdmOffset)
    (hi : Inv inUse s root) (hvirt : NoHuge s virt) (hflags : flags < 2 ^ 64)
    (halloc : A.pmmAlloc s.pmm s.mem = (phys, pmm', mem')) (hne : phys ≠ 0)
    (h : vmmMap A { s with pmm := pmm', mem := mem' } virt phys flags = .ok s') :
    Mapped inUse s s' root virt phys flags := by
  have hfresh := hA _ _ _ _ _ halloc hne
  have hkept := hfresh.tablesKept hi
  have htaken : inUse ({ s with pmm := pmm', mem := mem' } : VmmState σ).pmm phys := hfresh.taken
  have hkeeps : ∀ f, inUse s.pmm f →
      inUse ({ s with pmm := pmm', mem := mem' } : VmmState σ).pmm f := hfresh.keeps
  generalize ({ s with pmm := pmm', mem := mem' } : VmmState σ) = t at h hkept htaken hkeeps
  have hA' : Lawful A inUse t.hhdmOffset := by
    rw [hkept.hhdm]
    exact hA
  have hi₁ := hkept.inv hi
  have hvirt₁ : NoHuge t virt := by
    rw [noHuge_place hi₁, funext hkept.place, ← noHuge_place hi]
    exact hvirt
  have hphys := hfresh.frame.lt
  have hdrawn := vmmMap_drawn hA' hi₁ hvirt₁ hphys hflags h
  obtain ⟨hi', -, hoff⟩ := vmmMap_inv (S := fun _ => True) hA' hi₁ (fun _ _ _ _ _ _ => trivial)
    hvirt₁ hphys hflags h
  constructor
  · exact hi'
  · exact hoff.trans hkept.hhdm
  · constructor
    · intro f hf
      exact hdrawn.keeps f (hkeeps f hf)
    · intro q f hq
      rcases hdrawn.tables q f hq with hq | hfree
      · exact .inl ((hkept.tableAt q).symm.trans hq)
      · exact .inr fun hf => hfree (hkeeps f hf)
  · exact hfresh.frame
  · exact hfresh.fresh
  · exact hdrawn.keeps _ htaken
  · intro q hq
    -- a table there was before the call was in use, and a new one is not the data frame
    rcases hdrawn.tables q phys hq with hq | hfree
    · rw [hkept.tableAt] at hq
      exact hfresh.fresh (hi.frames q phys hq).2
    · exact hfree htaken
  · intro v
    rw [vmmMap_place hA' hi₁ hvirt₁ hphys hflags h, hkept.place]

/-! ## The loop -/

/-- The data frames that a run of the loop has mapped. -/
structure Region (inUse : σ → Nat → Prop) (s s' : VmmState σ) (root virt flags k : Nat)
    (frames : List Nat) : Prop where
  inv : Inv inUse s' root
  hhdm : s'.hhdmOffset = s.hhdmOffset
  drawn : Drawn inUse s s' root
  nodup : frames.Nodup
  frame : ∀ f ∈ frames, Frame f
  fresh : ∀ f ∈ frames, ¬inUse s.pmm f
  noTable : ∀ f ∈ frames, ∀ q, tableAt s' root q ≠ some f
  place : place s' root = paint
    (fun (x : Nat × Nat) v => SamePage v (add64 virt (x.1 * pageSize)))
    (fun x => some (3, smallEntry x.2 flags)) ((List.range' k frames.length).zip frames)
    (Vmm.place s root)

/-- One round, then the rest of the loop. -/
theorem Mapped.region {s₁ : VmmState σ} {virt flags k : Nat} {frames : List Nat}
    (hm : Mapped inUse s s₁ root (add64 virt (k * pageSize)) phys flags)
    (hr : Region inUse s₁ s' root virt flags (k + 1) frames) :
    Region inUse s s' root virt flags k (phys :: frames) := by
  constructor
  · exact hr.inv
  · exact hr.hhdm.trans hm.hhdm
  · exact hm.drawn.trans hr.drawn
  · rw [List.nodup_cons]
    exact ⟨fun hmem => hr.fresh phys hmem hm.taken, hr.nodup⟩
  · intro f hf
    rcases List.mem_cons.mp hf with rfl | hf
    · exact hm.frame
    · exact hr.frame f hf
  · intro f hf
    rcases List.mem_cons.mp hf with rfl | hf
    · exact hm.fresh
    · exact fun huse => hr.fresh f hf (hm.drawn.keeps f huse)
  · intro f hf q hq
    rcases List.mem_cons.mp hf with rfl | hf
    · rcases hr.drawn.tables q f hq with hq | hfree
      · exact hm.noTable q hq
      · exact hfree hm.taken
    · exact hr.noTable f hf q hq
  · rw [hr.place, List.length_cons, List.range'_succ, List.zip_cons_cons, paint, funext hm.place]

/-- The loop gives each page a frame of its own. -/
theorem regionLoop_spec {virt flags k n total : Nat} (hA : Lawful A inUse s.hhdmOffset)
    (hi : Inv inUse s root) (hflags : flags < 2 ^ 64) (htotal : total * pageSize < 2 ^ 64)
    (hk : k + n = total) (hsmall : ∀ j < total, NoHuge s (add64 virt (j * pageSize)))
    (h : regionLoop A s virt flags (k * pageSize) n = .ok s') :
    ∃ frames, frames.length = n ∧ Region inUse s s' root virt flags k frames := by
  induction n generalizing s k with
  | zero =>
      obtain rfl := Except.ok.inj h
      refine ⟨[], rfl, hi, rfl, .refl inUse s root, List.nodup_nil, ?_, ?_, ?_, rfl⟩
      · intro f hf
        cases hf
      · intro f hf
        cases hf
      · intro f hf
        cases hf
  | succ n ih =>
      obtain ⟨⟨phys, pmm', mem'⟩, halloc⟩ : ∃ r, A.pmmAlloc s.pmm s.mem = r := ⟨_, rfl⟩
      rw [regionLoop, halloc] at h
      dsimp only at h
      by_cases hne : phys = 0
      · rw [if_pos hne] at h
        cases h
      rw [if_neg hne] at h
      obtain ⟨s₁, h₁, h⟩ := bind_eq_ok h
      have hm := region_round hA hi (hsmall k (by omega)) hflags halloc hne h₁
      -- the page that was mapped is small, and the others are as before
      have hsmall₁ : ∀ j < total, NoHuge s₁ (add64 virt (j * pageSize)) := by
        intro j hj
        rw [noHuge_place hm.inv, hm.place]
        by_cases hpage : SamePage (add64 virt (j * pageSize)) (add64 virt (k * pageSize))
        · rw [if_pos hpage]
          intro r hr
          rw [← Option.some.inj hr]
        · rw [if_neg hpage, ← noHuge_place hi]
          exact hsmall j hj
      rw [add64_stride htotal (by omega)] at h
      have hA₁ : Lawful A inUse s₁.hhdmOffset := by
        rw [hm.hhdm]
        exact hA
      obtain ⟨frames, hlen, hr⟩ := ih hA₁ hm.inv (by omega) hsmall₁ h
      exact ⟨phys :: frames, by rw [List.length_cons, hlen], hm.region hr⟩

end

/-! ## Every run -/

/-- What can happen after `vmm_init`: a call on the page tables, or anything else. -/
inductive Op where
  | call (c : Call)
  | region (virt size flags : Nat)
  | rest

/-- The pages of a region. -/
def regionPages (size : Nat) : Nat := (size + 4095) / pageSize

/-- No page of the region lies in a large page. -/
def RegionSmall {σ : Type} (s : VmmState σ) (virt size : Nat) : Prop :=
  ∀ j < regionPages size, NoHuge s (add64 virt (j * pageSize))

section

variable {σ : Type} (A : Allocator σ) (inUse : σ → Nat → Prop)

/-- The rest of the kernel takes and frees frames and writes memory, but the frames of
the tables are not freed or written. -/
def OpStep (s : VmmState σ) : Op → VmmState σ → Prop
  | .call c, s' => Step A s c s'
  | .region virt size flags, s' => vmmMapRegion A s virt size flags = .ok s'
  | .rest, s' => TablesKept inUse s s' (pml4Frame s)

/-- The calls that meet no large page, on sizes that can be rounded up. -/
def OpOk (s : VmmState σ) : Op → Prop
  | .call c => CallOk s c
  | .region virt size flags => flags < 2 ^ 64 ∧ size + 4095 < 2 ^ 64 ∧ RegionSmall s virt size
  | .rest => True

end

section

variable {σ : Type} {A : Allocator σ} {s s' : VmmState σ} {root : Nat}
  {inUse : σ → Nat → Prop}

/-- The loop runs once for each page. -/
theorem alignedSize_pages {size : Nat} (h : size + 4095 < 2 ^ 64) :
    alignedSize size / pageSize = regionPages size := by
  have hsum : sub64 (add64 size pageSize) 1 = size + 4095 := by
    unfold sub64 add64 pageSize
    omega
  have hmask : 2 ^ 64 - 1 - sub64 pageSize 1 = 2 ^ 64 - 2 ^ 12 := by decide
  rw [alignedSize, hsum, hmask, and_mask h (by decide), regionPages, pageSize]
  omega

theorem vmmMapRegion_spec {virt size flags : Nat} (hA : Lawful A inUse s.hhdmOffset)
    (hi : Inv inUse s root) (hflags : flags < 2 ^ 64) (hsize : size + 4095 < 2 ^ 64)
    (hsmall : RegionSmall s virt size) (h : vmmMapRegion A s virt size flags = .ok s') :
    ∃ frames, frames.length = regionPages size ∧ Region inUse s s' root virt flags 0 frames := by
  rw [vmmMapRegion, alignedSize_pages hsize] at h
  have htotal : regionPages size * pageSize < 2 ^ 64 := by
    unfold regionPages pageSize
    omega
  have hzero : 0 = 0 * pageSize := rfl
  rw [hzero] at h
  exact regionLoop_spec hA hi hflags htotal (Nat.zero_add _) hsmall h

/-- The tree of tables, and a large page at the start of the direct map. -/
structure Reached (inUse : σ → Nat → Prop) (s₀ s : VmmState σ) (root : Nat) : Prop where
  inv : Inv inUse s root
  hhdm : s.hhdmOffset = s₀.hhdmOffset
  large : ∃ e, place s root s₀.hhdmOffset = some (2, e)

/-- A small page is not the one at the start of the direct map. -/
theorem Reached.apart {s₀ : VmmState σ} (hr : Reached inUse s₀ s root) {v : Nat}
    (hv : NoHuge s v) : ¬SamePage s₀.hhdmOffset v := by
  intro hpage
  obtain ⟨e, he⟩ := hr.large
  rw [place_congr hpage] at he
  have hdepth : 2 = 3 := (noHuge_place hr.inv v).mp hv _ he
  omega

/-- Every call leaves a tree that is reached. -/
theorem Reached.step {s₀ : VmmState σ} (hA : Lawful A inUse s₀.hhdmOffset)
    (hr : Reached inUse s₀ s root) {op : Op} (h : Guarded (OpStep A inUse) OpOk s op s') :
    Reached inUse s₀ s' root := by
  obtain ⟨hok, hstep⟩ := h
  have hA' : Lawful A inUse s.hhdmOffset := by
    rw [hr.hhdm]
    exact hA
  have hslots : HugeSlots (fun _ => True) s root := fun _ _ _ _ _ _ => trivial
  obtain ⟨e, he⟩ := hr.large
  cases op with
  | call c =>
      obtain ⟨hi', -, hoff⟩ := step_inv hA' hr.inv hslots ⟨hok, hstep⟩
      refine ⟨hi', hoff.trans hr.hhdm, e, ?_⟩
      cases c with
      | map virt phys flags =>
          rw [vmmMap_place hA' hr.inv hok.1 hok.2.1 hok.2.2 hstep, if_neg (hr.apart hok.1), he]
      | unmap virt =>
          obtain rfl := Except.ok.inj hstep
          rw [vmmUnmap_place hr.inv hok, if_neg (hr.apart hok), he]
  | region virt size flags =>
      obtain ⟨hflags, hsize, hsmall⟩ := hok
      obtain ⟨frames, hlen, hregion⟩ := vmmMapRegion_spec hA' hr.inv hflags hsize hsmall hstep
      refine ⟨hregion.inv, hregion.hhdm.trans hr.hhdm, e, ?_⟩
      rw [hregion.place, paint_outside, he]
      intro x hx hpage
      have hpos := (List.of_mem_zip hx).1
      rw [List.mem_range'_1, hlen] at hpos
      exact hr.apart (hsmall x.1 (by omega)) hpage
  | rest =>
      have hkept : TablesKept inUse s s' (pml4Frame s) := hstep
      rw [hr.inv.pml4Frame] at hkept
      exact ⟨hkept.inv hr.inv, hkept.hhdm.trans hr.hhdm, e, by rw [hkept.place, he]⟩

/-- `vmm_init` puts a large page at the start of the direct map. -/
theorem vmmInit_reached {kernelPhys kernelVirt kernelSize : Nat} {s₀ s₁ : VmmState σ}
    (hA : Lawful A inUse s₀.hhdmOffset) (hmax : maxPhysAtInit A s₀ ≤ 2 ^ 52)
    (hout : KernelOutside s₀.hhdmOffset (maxPhysAtInit A s₀) kernelVirt kernelSize)
    (hinit : vmmInit A s₀ kernelPhys kernelVirt kernelSize = .ok s₁) :
    ∃ root, Reached inUse s₀ s₁ root := by
  obtain ⟨root, hi, hplace⟩ := vmmInit_place hA hout hinit
  obtain ⟨root', hi', -, hoff⟩ := vmmInit_inv hA hout hinit
  refine ⟨root, hi, hoff, ?_⟩
  -- the direct map has at least 4 GiB, and so the address of its start is mapped
  have hrounds : 0 < hhdmMapSize (maxPhysAtInit A s₀) / 0x200000 := by
    have hsize : 2 ^ 32 ≤ hhdmMapSize (maxPhysAtInit A s₀) := by
      unfold hhdmMapSize
      generalize hm : (if maxPhysAtInit A s₀ < 4 * 1024 * 1024 * 1024 then 4 * 1024 * 1024 * 1024
        else maxPhysAtInit A s₀) = m
      have hlo : 2 ^ 32 ≤ m := by
        rw [← hm]
        split
        · omega
        · omega
      have hhi : m ≤ 2 ^ 52 := by
        rw [← hm]
        split
        · omega
        · exact hmax
      have hrounded : m ≤ add64 m 0x1FFFFF &&& (2 ^ 64 - 2 ^ 21) := by
        rw [add64_eq (by omega), and_mask (by omega) (by decide)]
        omega
      exact hlo.trans hrounded
    omega
  have hslot : SameSlot s₀.hhdmOffset (add64 (0 * 0x200000) s₀.hhdmOffset) := by
    rw [sameSlot_iff]
    unfold add64
    omega
  rw [hplace, initialPages, paint_outside]
  · -- the address is covered by the first large page, and possibly by later ones
    rw [directPages, paint_eq]
    cases htop : topmost (fun j v => SameSlot v (add64 (j * 0x200000) s₀.hhdmOffset))
        (List.range' 0 (hhdmMapSize (maxPhysAtInit A s₀) / 0x200000)) s₀.hhdmOffset with
    | none => exact absurd hslot (topmost_eq_none.mp htop 0 (by simpa using hrounds))
    | some j => exact ⟨_, rfl⟩
  · intro j hj hpage
    exact hout j (by simpa using hj) ⟨0, hrounds, hpage.sameSlot.symm.trans hslot⟩

/-- Pages of a region that misses the direct map are different pages. -/
theorem Reached.region_pages {s₀ : VmmState σ} (hr : Reached inUse s₀ s root) {virt size : Nat}
    (hsmall : RegionSmall s virt size) {i j : Nat} (hi : i < regionPages size)
    (hj : j < regionPages size)
    (hpage : SamePage (add64 virt (i * pageSize)) (add64 virt (j * pageSize))) : i = j := by
  -- a region of 2^36 pages would contain the start of the direct map
  have hfew : regionPages size ≤ 2 ^ 36 := by
    by_contra hmany
    have hmiss := hr.apart (hsmall ((s₀.hhdmOffset / 2 ^ 12 + 2 ^ 36 - virt / 2 ^ 12 % 2 ^ 36) % 2 ^ 36)
      (by omega))
    apply hmiss
    rw [samePage_iff]
    unfold add64 pageSize
    omega
  rw [samePage_iff] at hpage
  unfold add64 pageSize at hpage
  omega

/-- The page of an address of the region. -/
theorem Region.place_page {virt flags : Nat} {frames : List Nat}
    (hr : Region inUse s s' root virt flags 0 frames)
    (hpages : ∀ i < frames.length, ∀ j < frames.length,
      SamePage (add64 virt (i * pageSize)) (add64 virt (j * pageSize)) → i = j)
    {v i : Nat} (hi : i < frames.length) (hv : SamePage v (add64 virt (i * pageSize))) :
    Vmm.place s' root v = some (3, smallEntry (frames.getD i 0) flags) := by
  have hzip : (List.range' 0 frames.length).zip frames =
      (List.range frames.length).map fun j => (j, frames.getD j 0) := by
    apply List.ext_getElem
    · simp
    · intro j h₁ h₂
      have hj : j < frames.length := by simpa using h₂
      simp [List.getElem?_eq_getElem hj]
  rw [hr.place, hzip]
  refine paint_of_unique (i := (i, frames.getD i 0)) ?_ hv ?_
  · exact List.mem_map.mpr ⟨i, List.mem_range.mpr hi, rfl⟩
  · intro x hx hcovers
    obtain ⟨j, hj, rfl⟩ := List.mem_map.mp hx
    rw [hpages j (List.mem_range.mp hj) i hi (hcovers.symm.trans hv)]

/-- Outside the region the page map is as it was. -/
theorem Region.place_outside {virt flags : Nat} {frames : List Nat}
    (hr : Region inUse s s' root virt flags 0 frames) {v : Nat}
    (hv : ∀ i < frames.length, ¬SamePage v (add64 virt (i * pageSize))) :
    Vmm.place s' root v = Vmm.place s root v := by
  rw [hr.place, paint_outside]
  intro x hx
  have hpos := (List.of_mem_zip hx).1
  rw [List.mem_range'_1] at hpos
  exact hv x.1 (by omega)

/-- In every state reached from `vmm_init`: when `vmm_map_region` returns, there is a
frame for each page of the region, to which its addresses translate; the frames are
different, none was in use before and none is a table; and no address that differs in
bits 12 to 47 from those of the region has another translation than before. -/
theorem map_region_fresh {s₀ s₁ : VmmState σ} {kernelPhys kernelVirt kernelSize : Nat}
    (hA : Lawful A inUse s₀.hhdmOffset) (hmax : maxPhysAtInit A s₀ ≤ 2 ^ 52)
    (hout : KernelOutside s₀.hhdmOffset (maxPhysAtInit A s₀) kernelVirt kernelSize)
    (hinit : vmmInit A s₀ kernelPhys kernelVirt kernelSize = .ok s₁)
    (hrun : Run (Guarded (OpStep A inUse) OpOk) s₁ s) {virt size flags : Nat}
    (hvirt : pageSize ∣ virt) (hsize : size + 4095 < 2 ^ 64) (hsmall : RegionSmall s virt size)
    (hflags : flags < 2 ^ 64) (hmask : flags &&& physAddrMask = 0)
    (h : vmmMapRegion A s virt size flags = .ok s') :
    ∃ frame : Nat → Nat,
      (∀ o < regionPages size * pageSize, Translated s' (add64 virt o) ∧
        vmmGetPhys s' (add64 virt o) = frame (o / pageSize) + o % pageSize) ∧
      (∀ i < regionPages size, ∀ j < regionPages size, frame i = frame j → i = j) ∧
      (∀ i < regionPages size, Frame (frame i) ∧ ¬inUse s.pmm (frame i) ∧
        ∀ q, tableAt s' (pml4Frame s') q ≠ some (frame i)) ∧
      ∀ v, (∀ i < regionPages size, ¬SamePage v (add64 virt (i * pageSize))) →
        (Translated s' v ↔ Translated s v) ∧ vmmGetPhys s' v = vmmGetPhys s v := by
  obtain ⟨root, hr₁⟩ := vmmInit_reached hA hmax hout hinit
  have hr : Reached inUse s₀ s root :=
    hrun.invariant (I := fun s => Reached inUse s₀ s root) hr₁ fun _ _ _ hr hstep =>
      hr.step hA hstep
  have hA' : Lawful A inUse s.hhdmOffset := by
    rw [hr.hhdm]
    exact hA
  -- the frames in the order in which the loop has taken them
  obtain ⟨frames, hlen, hregion⟩ := vmmMapRegion_spec hA' hr.inv hflags hsize hsmall h
  unfold Translated
  rw [hregion.inv.pml4Frame, hr.inv.pml4Frame, ← hlen]
  have hpages : ∀ i < frames.length, ∀ j < frames.length,
      SamePage (add64 virt (i * pageSize)) (add64 virt (j * pageSize)) → i = j := by
    rw [hlen]
    exact fun i hi j hj hpage => hr.region_pages hsmall hi hj hpage
  have hmem : ∀ i < frames.length, frames.getD i 0 ∈ frames := by
    intro i hi
    rw [List.getD_eq_getElem _ _ hi]
    exact List.getElem_mem hi
  refine ⟨fun i => frames.getD i 0, fun o ho => ?_, fun i hi j hj heq => ?_, fun i hi => ?_,
    fun v hv => ?_⟩
  · have hi : o / pageSize < frames.length := Nat.div_lt_of_lt_mul (by rwa [Nat.mul_comm])
    -- `virt` is a page boundary, so that the offset stays inside its page
    have hpage : SamePage (add64 virt o) (add64 virt (o / pageSize * pageSize)) := by
      rw [samePage_iff]
      unfold pageSize at hvirt ⊢
      unfold add64
      omega
    have hplace := hregion.place_page hpages hi hpage
    constructor
    · rw [hplace]
      exact Option.some_ne_none _
    · rw [vmmGetPhys_place hregion.inv, hplace, Option.elim_some,
        translate_smallEntry (hregion.frame _ (hmem _ hi)) hmask]
      have hoff : add64 virt o % pageSize = o % pageSize := by
        unfold pageSize at hvirt ⊢
        unfold add64
        omega
      rw [hoff]
  · dsimp only at heq
    rw [List.getD_eq_getElem _ _ hi, List.getD_eq_getElem _ _ hj] at heq
    exact (List.Nodup.getElem_inj_iff hregion.nodup).mp heq
  · exact ⟨hregion.frame _ (hmem i hi), hregion.fresh _ (hmem i hi), hregion.noTable _ (hmem i hi)⟩
  · have hplace := hregion.place_outside hv
    constructor
    · rw [hplace]
    · rw [vmmGetPhys_place hregion.inv, vmmGetPhys_place hr.inv, hplace]

end

/-! ## A region of two pages -/

section

variable {A : Allocator Nat} {s : VmmState Nat}

theorem Counts.regionLoop (hA : Counts A) {n : Nat} (hn : s.pmm + 4 * n < 2 ^ 18)
    (virt flags off : Nat) : ∃ s', regionLoop A s virt flags off n = .ok s' := by
  induction n generalizing s off with
  | zero => exact ⟨s, rfl⟩
  | succ n ih =>
      obtain ⟨phys, m, halloc, hne⟩ := hA s.pmm s.mem (by omega)
      obtain ⟨s₁, h₁, hp₁⟩ := hA.vmmMap (s := { s with pmm := s.pmm + 1, mem := m })
        (show s.pmm + 1 + 3 < 2 ^ 18 by omega) (add64 virt off) phys flags
      dsimp only at hp₁
      obtain ⟨s₂, h₂⟩ := ih (s := s₁) (by omega) (add64 off pageSize)
      refine ⟨s₂, ?_⟩
      rw [Vmm.regionLoop, halloc]
      simp only [if_neg hne, h₁, bind, Except.bind]
      exact h₂

/-- The heap of a machine with 4 GiB. -/
theorem map_region_fresh_heap : ∃ s₁ s',
    vmmInit frames machine 0x200000 0xFFFFFFFF80000000 0x1000 = .ok s₁ ∧
    vmmMapRegion frames s₁ 0xFFFFC00000000000 0x1800 3 = .ok s' ∧
    Translated s' 0xFFFFC00000001FFF ∧
    vmmGetPhys s' 0xFFFFC00000000000 ≠ vmmGetPhys s' 0xFFFFC00000001000 := by
  have hcounts : Counts frames := bump_counts
  obtain ⟨s₁, hinit, hp⟩ := hcounts.vmmInit (h := 0xFFFF800000000000) rfl hhdmMapSize_small
    (by decide) (fun _ => 0) 0x200000 0xFFFFFFFF80000000
  have hmax : maxPhysAtInit frames machine = 2 ^ 30 := maxPhysAtInit_eq fun _ => rfl
  have hloop : alignedSize 0x1800 / pageSize = 2 := by decide
  obtain ⟨s', hmap⟩ := hcounts.regionLoop (s := s₁) (n := 2) (by omega) 0xFFFFC00000000000 3 0
  have hregion : vmmMapRegion frames s₁ 0xFFFFC00000000000 0x1800 3 = .ok s' := by
    rw [vmmMapRegion, hloop]
    exact hmap
  have hpages : regionPages 0x1800 = 2 := by decide
  have hsmall : RegionSmall s₁ 0xFFFFC00000000000 0x1800 := by
    intro j hj
    rw [hpages] at hj
    refine noHuge_outside frames_lawful machine_outside hinit .refl ?_
    rw [hmax]
    unfold add64 pageSize
    exact outside_bump (by omega) (by omega)
  obtain ⟨frame, hin, hdiff, -, -⟩ := map_region_fresh frames_lawful (by rw [hmax]; decide)
    machine_outside hinit .refl (by decide) (by decide) hsmall (by decide) (by decide) hregion
  rw [hpages] at hin hdiff
  refine ⟨s₁, s', hinit, hregion, (hin 0x1FFF (by decide)).1, ?_⟩
  intro heq
  have hfirst := (hin 0 (by decide)).2
  have hsecond := (hin 0x1000 (by decide)).2
  have hsame : frame 0 = frame 1 := hfirst.symm.trans (heq.trans hsecond)
  have h01 := hdiff 0 (by decide) 1 (by decide) hsame
  omega

end

end PolandOS.Vmm
