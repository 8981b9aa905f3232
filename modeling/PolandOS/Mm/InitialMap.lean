import PolandOS.Mm.LargePages

/-! # The first page map

`vmm_init` leaves a page map of two pieces: the direct map of physical memory at
`hhdm_offset`, in 2 MiB pages, and the kernel image, in 4 KiB pages.

* `initial_map`: what every canonical address translates to when `vmm_init` returns
-/

namespace PolandOS.Vmm

open ByteMem Radix Overlay

/-! ## The arguments -/

/-- Bits 47 to 63 agree. -/
def Canonical (v : Nat) : Prop := v < 2 ^ 47 ∨ (2 ^ 64 - 2 ^ 47 ≤ v ∧ v < 2 ^ 64)

/-- The larger of 4 GiB and `max_phys`, rounded up to 2 MiB. -/
def directSize (maxPhys : Nat) : Nat := (max (2 ^ 32) maxPhys + 0x1FFFFF) / 0x200000 * 0x200000

/-- `kernel_size`, rounded up to a page. -/
def imageSize (kernelSize : Nat) : Nat := (kernelSize + 0xFFF) / pageSize * pageSize

/-- Aligned arguments: the direct map and the kernel image are canonical and apart, and
the image lies in physical memory. -/
structure InitArgs (hhdmOffset maxPhys kernelPhys kernelVirt kernelSize : Nat) : Prop where
  hhdmAligned : 0x200000 ∣ hhdmOffset
  physAligned : pageSize ∣ kernelPhys
  virtAligned : pageSize ∣ kernelVirt
  direct : ∀ p < directSize maxPhys, Canonical (add64 hhdmOffset p)
  image : ∀ o < imageSize kernelSize, Canonical (add64 kernelVirt o)
  phys : kernelPhys + imageSize kernelSize ≤ 2 ^ 52
  apart : ∀ p < directSize maxPhys, ∀ o < imageSize kernelSize,
    add64 hhdmOffset p ≠ add64 kernelVirt o

/-- The tables map the address. -/
def Translated {σ : Type} (s : VmmState σ) (v : Nat) : Prop := place s (pml4Frame s) v ≠ none

section

variable {u v a n : Nat}

theorem Canonical.eq (hu : Canonical u) (hv : Canonical v) (h : u % 2 ^ 48 = v % 2 ^ 48) :
    u = v := by
  unfold Canonical at hu hv
  omega

/-- A window that wraps around the address space is not canonical throughout. -/
theorem canonical_window (h : ∀ p < n, Canonical (add64 a p)) : n ≤ 2 ^ 48 := by
  by_contra hbig
  have hstart := h 0 (by omega)
  unfold Canonical add64 at hstart
  by_cases hlow : a % 2 ^ 64 < 2 ^ 47
  · have hmid := h (2 ^ 47 - a % 2 ^ 64) (by omega)
    unfold Canonical add64 at hmid
    omega
  · have hmid := h (2 ^ 64 + 2 ^ 47 - a % 2 ^ 64) (by omega)
    unfold Canonical add64 at hmid
    omega

theorem sameSlot_iff : SameSlot u v ↔ u / 2 ^ 21 % 2 ^ 27 = v / 2 ^ 21 % 2 ^ 27 := by
  simp only [SameSlot, Nat.shiftRight_eq_div_pow, Nat.and_two_pow_sub_one_eq_mod]

theorem samePage_iff : SamePage u v ↔ u / 2 ^ 12 % 2 ^ 36 = v / 2 ^ 12 % 2 ^ 36 := by
  simp only [SamePage, Nat.shiftRight_eq_div_pow, Nat.and_two_pow_sub_one_eq_mod]

variable {hhdmOffset maxPhys kernelPhys kernelVirt kernelSize : Nat}

/-- The direct map loop covers the direct map. -/
theorem InitArgs.hhdmMapSize_eq
    (h : InitArgs hhdmOffset maxPhys kernelPhys kernelVirt kernelSize) :
    hhdmMapSize maxPhys = directSize maxPhys ∧ directSize maxPhys ≤ 2 ^ 48 := by
  have hsize := canonical_window h.direct
  refine ⟨?_, hsize⟩
  have hmax : (if maxPhys < 4 * 1024 * 1024 * 1024 then 4 * 1024 * 1024 * 1024 else maxPhys) =
      max (2 ^ 32) maxPhys := by
    split
    · omega
    · omega
  unfold directSize at hsize
  unfold hhdmMapSize directSize
  rw [hmax]
  change add64 (max (2 ^ 32) maxPhys) 0x1FFFFF &&& (2 ^ 64 - 2 ^ 21) = _
  rw [add64_eq (by omega)]
  exact and_mask (by omega) (by decide)

/-- The loop over the kernel image covers it. -/
theorem InitArgs.ksizeAligned_eq
    (h : InitArgs hhdmOffset maxPhys kernelPhys kernelVirt kernelSize) :
    ksizeAligned kernelSize = imageSize kernelSize ∧ imageSize kernelSize ≤ 2 ^ 48 := by
  have hsize := canonical_window h.image
  refine ⟨?_, hsize⟩
  unfold imageSize pageSize at hsize
  unfold ksizeAligned imageSize pageSize
  rw [add64_eq (by omega)]
  exact and_mask (by omega) (by decide)

/-- A canonical address in a 2 MiB slot of the direct map is in the direct map. -/
theorem InitArgs.mem_direct (h : InitArgs hhdmOffset maxPhys kernelPhys kernelVirt kernelSize)
    (hv : Canonical v) {k : Nat} (hk : k < directSize maxPhys / 0x200000)
    (hslot : SameSlot v (add64 (k * 0x200000) hhdmOffset)) :
    k * 0x200000 + v % 0x200000 < directSize maxPhys ∧
      v = add64 hhdmOffset (k * 0x200000 + v % 0x200000) := by
  have haligned := h.hhdmAligned
  have hlt : k * 0x200000 + v % 0x200000 < directSize maxPhys := by
    unfold directSize at hk ⊢
    omega
  refine ⟨hlt, hv.eq (h.direct _ hlt) ?_⟩
  rw [sameSlot_iff] at hslot
  unfold add64 at hslot ⊢
  omega

/-- A canonical address in a page of the kernel image is in the image. -/
theorem InitArgs.mem_image (h : InitArgs hhdmOffset maxPhys kernelPhys kernelVirt kernelSize)
    (hv : Canonical v) {k : Nat} (hk : k < imageSize kernelSize / pageSize)
    (hpage : SamePage v (add64 kernelVirt (k * pageSize))) :
    k * pageSize + v % pageSize < imageSize kernelSize ∧
      v = add64 kernelVirt (k * pageSize + v % pageSize) := by
  have haligned := h.virtAligned
  have hlt : k * pageSize + v % pageSize < imageSize kernelSize := by
    unfold imageSize pageSize at hk ⊢
    omega
  refine ⟨hlt, hv.eq (h.image _ hlt) ?_⟩
  rw [samePage_iff] at hpage
  unfold pageSize at haligned hpage ⊢
  unfold add64 at hpage ⊢
  omega

theorem InitArgs.outside (h : InitArgs hhdmOffset maxPhys kernelPhys kernelVirt kernelSize) :
    KernelOutside hhdmOffset maxPhys kernelVirt kernelSize := by
  intro j hj
  rintro ⟨k, hk, hslot⟩
  rw [h.hhdmMapSize_eq.1] at hk
  rw [h.ksizeAligned_eq.1] at hj
  have hoff : j * pageSize < imageSize kernelSize := by
    unfold imageSize pageSize at hj ⊢
    omega
  obtain ⟨hlt, heq⟩ := h.mem_direct (h.image _ hoff) hk hslot
  exact h.apart _ hlt _ hoff heq.symm

/-! ## Translations -/

theorem or_low {x y k : Nat} (hx : 2 ^ k ∣ x) (hy : y < 2 ^ k) : x ||| y = x + y := by
  obtain ⟨c, rfl⟩ := hx
  exact (Nat.two_pow_add_eq_or_of_lt hy c).symm

theorem translate_directEntry {phys : Nat} (hphys : phys < 2 ^ 64) (haligned : 2 ^ 21 ∣ phys)
    (v : Nat) : translate v (2, directEntry phys) = phys + v % 2 ^ 21 := by
  have hflags : ∀ f, f < 2 ^ 21 → f &&& (2 ^ 64 - 2 ^ 21) = 0 := by
    intro f hf
    rw [and_mask (by omega) (by decide)]
    omega
  have hbase : directEntry phys &&& (2 ^ 64 - 2 ^ 21) = phys := by
    simp only [directEntry, Nat.and_or_distrib_right]
    rw [hflags pagePresent (by decide), hflags pageWrite (by decide), hflags pageHuge (by decide),
      hflags pageGlobal (by decide), and_mask hphys (by decide)]
    simp only [Nat.or_zero]
    omega
  have hlow : v &&& 0x1FFFFF = v % 2 ^ 21 := Nat.and_two_pow_sub_one_eq_mod v 21
  simp only [translate, present_directEntry, hbase, hlow]
  exact or_low haligned (Nat.mod_lt _ (by decide))

theorem translate_smallEntry {phys flags : Nat} (hphys : Frame phys)
    (hflags : flags &&& physAddrMask = 0) (v : Nat) :
    translate v (3, smallEntry phys flags) = phys + v % pageSize := by
  have hlow : v &&& 0xFFF = v % pageSize := Nat.and_two_pow_sub_one_eq_mod v 12
  rw [smallEntry, translate_pte hflags, hphys.and_mask, hlow]
  exact or_low (k := 12) hphys.1 (Nat.mod_lt _ (by decide))

end

/-! ## The page map that vmm_init leaves -/

section

variable {hhdmOffset maxPhys kernelPhys kernelVirt kernelSize : Nat}

/-- An address of the direct map lies in its 2 MiB page. -/
theorem InitArgs.pages_direct (h : InitArgs hhdmOffset maxPhys kernelPhys kernelVirt kernelSize)
    {p : Nat} (hp : p < directSize maxPhys) :
    initialPages hhdmOffset maxPhys kernelPhys kernelVirt kernelSize (add64 hhdmOffset p) =
      some (2, directEntry (p / 0x200000 * 0x200000)) := by
  obtain ⟨hsize, hbound⟩ := h.hhdmMapSize_eq
  have haligned := h.hhdmAligned
  have hdvd : 0x200000 ∣ directSize maxPhys := Nat.dvd_mul_left _ _
  have hj : p / 0x200000 < directSize maxPhys / 0x200000 := by omega
  have hslot : SameSlot (add64 hhdmOffset p) (add64 (p / 0x200000 * 0x200000) hhdmOffset) := by
    rw [sameSlot_iff]
    unfold add64
    omega
  refine (paint_outside fun i hi hpage => ?_).trans
    (paint_of_unique (i := p / 0x200000) ?_ hslot ?_)
  · -- a page of the image would lie in the direct map
    refine h.outside i (by simpa using hi) ⟨p / 0x200000, by rwa [hsize], ?_⟩
    exact hpage.sameSlot.symm.trans hslot
  · simpa [hsize] using hj
  · intro i hi hcovers
    have hi : i < directSize maxPhys / 0x200000 := by simpa [hsize] using hi
    rw [sameSlot_iff] at hcovers
    unfold add64 at hcovers
    omega

/-- An address of the kernel image lies in its 4 KiB page. -/
theorem InitArgs.pages_image (h : InitArgs hhdmOffset maxPhys kernelPhys kernelVirt kernelSize)
    {o : Nat} (ho : o < imageSize kernelSize) :
    initialPages hhdmOffset maxPhys kernelPhys kernelVirt kernelSize (add64 kernelVirt o) =
      some (3, smallEntry (kernelPhys + o / pageSize * pageSize)
        (pagePresent ||| pageWrite ||| pageGlobal)) := by
  obtain ⟨hsize, hbound⟩ := h.ksizeAligned_eq
  have haligned := h.virtAligned
  have hphys := h.phys
  have hdvd : pageSize ∣ imageSize kernelSize := Nat.dvd_mul_left _ _
  unfold pageSize at haligned hdvd
  have hj : o / pageSize < imageSize kernelSize / pageSize := by
    unfold pageSize
    omega
  have hpage : SamePage (add64 kernelVirt o) (add64 kernelVirt (o / pageSize * pageSize)) := by
    rw [samePage_iff]
    unfold add64 pageSize
    omega
  have hsum : add64 kernelPhys (o / pageSize * pageSize) =
      kernelPhys + o / pageSize * pageSize := by
    apply add64_eq
    unfold pageSize
    omega
  rw [← hsum]
  refine paint_of_unique (i := o / pageSize) ?_ hpage ?_
  · simpa [hsize] using hj
  · intro i hi hcovers
    have hi : i < imageSize kernelSize / pageSize := by simpa [hsize] using hi
    rw [samePage_iff] at hcovers
    unfold pageSize at hi hcovers ⊢
    unfold add64 at hcovers
    omega

/-- Any other canonical address lies in no page. -/
theorem InitArgs.pages_elsewhere
    (h : InitArgs hhdmOffset maxPhys kernelPhys kernelVirt kernelSize) {v : Nat}
    (hv : Canonical v) (hdirect : ∀ p < directSize maxPhys, v ≠ add64 hhdmOffset p)
    (himage : ∀ o < imageSize kernelSize, v ≠ add64 kernelVirt o) :
    initialPages hhdmOffset maxPhys kernelPhys kernelVirt kernelSize v = none := by
  refine (paint_outside fun i hi hpage => ?_).trans (paint_outside fun i hi hslot => ?_)
  · have hi : i < imageSize kernelSize / pageSize := by simpa [h.ksizeAligned_eq.1] using hi
    obtain ⟨hlt, heq⟩ := h.mem_image hv hi hpage
    exact himage _ hlt heq
  · have hi : i < directSize maxPhys / 0x200000 := by simpa [h.hhdmMapSize_eq.1] using hi
    obtain ⟨hlt, heq⟩ := h.mem_direct hv hi hslot
    exact hdirect _ hlt heq

variable {σ : Type} {A : Allocator σ} {s s' : VmmState σ} {inUse : σ → Nat → Prop}

/-- When `vmm_init` returns, the direct map translates every address to its offset from
`hhdm_offset`, the kernel image to its place in physical memory, and no other canonical
address is translated. -/
theorem initial_map (hA : Lawful A inUse s.hhdmOffset)
    (hargs : InitArgs s.hhdmOffset (maxPhysAtInit A s) kernelPhys kernelVirt kernelSize)
    (h : vmmInit A s kernelPhys kernelVirt kernelSize = .ok s') :
    (∀ p < directSize (maxPhysAtInit A s), Translated s' (add64 s.hhdmOffset p) ∧
      vmmGetPhys s' (add64 s.hhdmOffset p) = p) ∧
    (∀ o < imageSize kernelSize, Translated s' (add64 kernelVirt o) ∧
      vmmGetPhys s' (add64 kernelVirt o) = kernelPhys + o) ∧
    ∀ v, Canonical v → (∀ p < directSize (maxPhysAtInit A s), v ≠ add64 s.hhdmOffset p) →
      (∀ o < imageSize kernelSize, v ≠ add64 kernelVirt o) →
      ¬Translated s' v ∧ vmmGetPhys s' v = 0 := by
  obtain ⟨root, hi, hplace⟩ := vmmInit_place hA hargs.outside h
  unfold Translated
  rw [hi.pml4Frame, hplace]
  refine ⟨fun p hp => ?_, fun o ho => ?_, fun v hv hdirect himage => ?_⟩
  · -- the direct map, in pages of 2 MiB
    have hpage := hargs.pages_direct hp
    have hbound := hargs.hhdmMapSize_eq.2
    have haligned := hargs.hhdmAligned
    have hphys : p / 0x200000 * 0x200000 < 2 ^ 64 := by omega
    constructor
    · rw [hpage]
      exact Option.some_ne_none _
    · rw [vmmGetPhys_place hi, hplace, hpage, Option.elim_some,
        translate_directEntry hphys (by omega)]
      unfold add64
      omega
  · -- the kernel, in pages of 4 KiB
    have hpage := hargs.pages_image ho
    have hphys := hargs.phys
    have haligned := hargs.virtAligned
    have hframe : Frame (kernelPhys + o / pageSize * pageSize) := by
      refine ⟨Nat.dvd_add hargs.physAligned (Nat.dvd_mul_left _ _), ?_⟩
      have hle := Nat.div_mul_le_self o pageSize
      omega
    constructor
    · rw [hpage]
      exact Option.some_ne_none _
    · rw [vmmGetPhys_place hi, hplace, hpage, Option.elim_some,
        translate_smallEntry hframe (by decide)]
      unfold pageSize at haligned ⊢
      unfold add64
      omega
  · -- no page of either covers the address
    have hpage := hargs.pages_elsewhere hv hdirect himage
    constructor
    · rw [hpage]
      exact fun hne => hne rfl
    · rw [vmmGetPhys_place hi, hplace, hpage]
      rfl

/-- A machine with 4 GiB and a kernel of one page. -/
theorem initial_map_small : ∃ s₁,
    vmmInit frames machine 0x200000 0xFFFFFFFF80000000 0x1000 = .ok s₁ ∧
    vmmGetPhys s₁ 0xFFFF8000FFFFFFFF = 0xFFFFFFFF ∧
    vmmGetPhys s₁ 0xFFFFFFFF80000FFF = 0x200FFF ∧ ¬Translated s₁ 0xFFFFFFFF80001000 := by
  have hcounts : Counts frames := bump_counts
  obtain ⟨s₁, hinit, -⟩ := hcounts.vmmInit (h := 0xFFFF800000000000) rfl hhdmMapSize_small
    (by decide) (fun _ => 0) 0x200000 0xFFFFFFFF80000000
  have hmax : maxPhysAtInit frames machine = 2 ^ 30 := maxPhysAtInit_eq fun _ => rfl
  have hdirect : directSize (2 ^ 30) = 2 ^ 32 := by decide
  have himage : imageSize 0x1000 = 0x1000 := by decide
  have hargs : InitArgs machine.hhdmOffset (maxPhysAtInit frames machine) 0x200000
      0xFFFFFFFF80000000 0x1000 := by
    rw [hmax]
    constructor
    · decide
    · decide
    · decide
    · intro p hp
      rw [hdirect] at hp
      unfold Canonical machine add64
      dsimp only
      omega
    · intro o ho
      rw [himage] at ho
      unfold Canonical add64
      omega
    · decide
    · intro p hp o ho
      rw [hdirect] at hp
      rw [himage] at ho
      unfold machine add64
      dsimp only
      omega
  obtain ⟨hd, hk, hno⟩ := initial_map frames_lawful hargs hinit
  rw [hmax, hdirect, himage] at *
  refine ⟨s₁, hinit, (hd 0xFFFFFFFF (by decide)).2, (hk 0xFFF (by decide)).2, (hno _ ?_ ?_ ?_).1⟩
  · unfold Canonical
    omega
  · intro p hp
    unfold machine add64
    dsimp only
    omega
  · intro o ho
    unfold add64
    omega

end

end PolandOS.Vmm
