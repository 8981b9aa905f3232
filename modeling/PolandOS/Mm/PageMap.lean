import PolandOS.Mm.VmmLaws
import PolandOS.Lib.Overlay

/-! # The page map

What the tables say, as a function of the address: the page it lies in, which is the
depth and the entry at which its walk ends, or none. Filling in levels leaves this
map alone, and each round of a loop of `vmm_init` paints one page over it.

* `hhdmLoop_place`, `kernelLoop_place`: the page map behind the two loops
-/

namespace PolandOS.Vmm

open ByteMem Radix Overlay

/-! ## Pages -/

section

variable {σ : Type} {s s' : VmmState σ} {root v w n i : Nat} {inUse : σ → Nat → Prop}

/-- The page an address lies in. -/
def place (s : VmmState σ) (root v : Nat) : Option (Nat × Nat) :=
  let r := lookup s.mem s.hhdmOffset root v
  if present r.2 then some r else none

instance (v w : Nat) : Decidable (SamePage v w) := inferInstanceAs (Decidable (_ = _))

instance (v w : Nat) : Decidable (SameSlot v w) := inferInstanceAs (Decidable (_ = _))

theorem place_of_present (h : present (lookup s.mem s.hhdmOffset root v).2 = true) :
    place s root v = some (lookup s.mem s.hhdmOffset root v) := if_pos h

theorem place_eq_some {r : Nat × Nat} : place s root v = some r ↔
    lookup s.mem s.hhdmOffset root v = r ∧ present r.2 = true := by
  unfold place
  by_cases h : present (lookup s.mem s.hhdmOffset root v).2 = true
  · rw [if_pos h, Option.some_inj]
    constructor
    · rintro rfl
      exact ⟨rfl, h⟩
    · exact fun hr => hr.1
  · rw [if_neg h]
    constructor
    · intro hr
      cases hr
    · rintro ⟨rfl, hr⟩
      exact absurd hr h

theorem place_eq_none : place s root v = none ↔
    present (lookup s.mem s.hhdmOffset root v).2 = false := by
  unfold place
  by_cases h : present (lookup s.mem s.hhdmOffset root v).2 = true
  · rw [if_pos h]
    simp [h]
  · rw [if_neg h]
    simpa using h

/-- `vmm_get_phys` of an address in no page is 0. -/
theorem vmmGetPhys_place (hi : Inv inUse s root) (v : Nat) :
    vmmGetPhys s v = (place s root v).elim 0 (translate v) := by
  rw [vmmGetPhys_eq hi.pml4 hi.notNull]
  cases h : present (lookup s.mem s.hhdmOffset root v).2 with
  | false =>
      rw [place_eq_none.mpr h, translate_of_not_present h]
      rfl
  | true =>
      rw [place_of_present h]
      rfl

theorem place_congr (h : SamePage v w) : place s root v = place s root w := by
  unfold place
  rw [lookup_congr ((path_eq_iff v w).mpr h)]

/-- The walk meets no large page when the page is a small one. -/
theorem noHuge_place (hi : Inv inUse s root) (v : Nat) :
    NoHuge s v ↔ ∀ r, place s root v = some r → r.1 = 3 := by
  rw [noHuge_iff hi.pml4]
  constructor
  · intro h r hr
    obtain ⟨rfl, hpresent⟩ := place_eq_some.mp hr
    exact h hpresent
  · intro h hpresent
    exact h _ (place_of_present hpresent)

/-- Filling in levels leaves the page map alone. -/
theorem Grown.place (hg : Grown s s' root) (v : Nat) :
    Vmm.place s' root v = Vmm.place s root v := by
  rcases hg.lookup v with h | ⟨h, h'⟩
  · unfold Vmm.place
    rw [h]
  · rw [place_eq_none.mpr h, place_eq_none.mpr h']

end

/-! ## Writing a page -/

section

variable {σ : Type} {A : Allocator σ} {s s' : VmmState σ} {root v : Nat}
  {inUse : σ → Nat → Prop}

/-- A leaf that is written ends the walks that pass through it, and no others. -/
theorem Inv.place_leaf {p : List (Fin 512)} {n w : Nat} {i : Fin 512} (hi : Inv inUse s root)
    (hp : tableAt s root p = some n) (hw : w < 2 ^ 64) (hleaf : child p.length w = none)
    (v : Nat) :
    place (setEntry s (add64 n s.hhdmOffset) i w) root v =
      if p ++ [i] <+: path v then if present w then some (p.length, w) else none
      else place s root v := by
  have hwrite := hi.write (i := i) hp hw
  by_cases hpath : p ++ [i] <+: path v
  · rw [if_pos hpath]
    obtain ⟨r, hr⟩ := hpath
    have hr : path v = p ++ i :: r := by
      rw [← hr, List.append_assoc]
      rfl
    have hthrough : lookup (setEntry s (add64 n s.hhdmOffset) i w).mem s.hhdmOffset root v =
        (p.length, w) := by
      refine (stop_through (walk_write_node hi.tree hp hwrite) hr).trans
        ((stop_of_none ?_).trans ?_)
      · rw [hwrite.self, Nat.zero_add]
        exact hleaf
      · rw [hwrite.self, Nat.zero_add]
    unfold place
    exact congrArg (fun r => if present r.2 then some r else none) hthrough
  · rw [if_neg hpath]
    have hsame : lookup (setEntry s (add64 n s.hhdmOffset) i w).mem s.hhdmOffset root v =
        lookup s.mem s.hhdmOffset root v := by
      apply stop_write hi.tree hp hwrite
      intro r hr
      apply hpath
      exact ⟨r, by rw [List.append_assoc]; exact hr.symm⟩
    unfold place
    exact congrArg (fun r => if present r.2 then some r else none) hsame

/-- The entry of a 2 MiB page of the direct map. -/
def directEntry (phys : Nat) : Nat :=
  phys ||| pagePresent ||| pageWrite ||| pageHuge ||| pageGlobal

theorem present_directEntry (phys : Nat) : present (directEntry phys) = true := by
  rw [present_eq_testBit]
  simp [directEntry, pagePresent]

theorem huge_directEntry (phys : Nat) : huge (directEntry phys) = true := by
  rw [huge_eq_testBit, directEntry, Nat.testBit_or, Nat.testBit_or, pageHuge,
    Nat.testBit_two_pow_self, Bool.or_true, Bool.true_or]

theorem directEntry_lt {phys : Nat} (h : phys < 2 ^ 64) : directEntry phys < 2 ^ 64 :=
  or_lt (or_lt (or_lt (or_lt h (by decide)) (by decide)) (by decide)) (by decide)

/-- One round of the direct map loop paints one large page. -/
theorem mapHuge_place (hA : Lawful A inUse s.hhdmOffset) (hi : Inv inUse s root) {phys : Nat}
    (hphys : phys < 2 ^ 64) (h : mapHuge A s phys = .ok s') (v : Nat) :
    place s' root v = if SameSlot v (add64 phys s.hhdmOffset) then some (2, directEntry phys)
      else place s root v := by
  obtain ⟨⟨t₁, s₁⟩, h₁, h⟩ := bind_eq_ok h
  obtain ⟨⟨t₂, s₂⟩, h₂, h⟩ := bind_eq_ok h
  obtain ⟨c, rfl, hc, hi₂, hg, -⟩ := upperLevels_spec hA hi h₁ h₂
  set u := add64 phys s.hhdmOffset with hu
  have hs' : s' = setEntry s₂ (add64 c s₂.hhdmOffset) (pos (pdIdx u)) (directEntry phys) := by
    rw [pos_pdIdx]
    exact (Except.ok.inj h).symm
  have hslot : [pos (pml4Idx u), pos (pdptIdx u)] ++ [pos (pdIdx u)] <+: path v ↔
      SameSlot v u := by
    rw [List.prefix_iff_eq_take, ← slot_eq_iff, eq_comm]
    rfl
  rw [hs', hi₂.place_leaf hc (directEntry_lt hphys)
    (child_of_huge (by simp) (huge_directEntry phys)), if_pos (present_directEntry phys), hg.place]
  simp only [hslot, List.length_cons, List.length_nil]

theorem prefix_path (v w : Nat) :
    [pos (pml4Idx w), pos (pdptIdx w), pos (pdIdx w)] ++ [pos (ptIdx w)] <+: path v ↔
      SamePage v w := by
  rw [List.prefix_iff_eq_take, ← path_eq_iff, eq_comm]
  rfl

/-- What `vmm_map` writes to a page table. -/
def smallEntry (phys flags : Nat) : Nat := (phys &&& physAddrMask) ||| flags ||| pagePresent

/-- `vmm_map` paints one small page. -/
theorem vmmMap_place (hA : Lawful A inUse s.hhdmOffset) (hi : Inv inUse s root) {virt : Nat}
    (hvirt : NoHuge s virt) {phys flags : Nat} (hphys : phys < 2 ^ 64) (hflags : flags < 2 ^ 64)
    (h : vmmMap A s virt phys flags = .ok s') (v : Nat) :
    place s' root v = if SamePage v virt then some (3, smallEntry phys flags)
      else place s root v := by
  obtain ⟨s₁, c, hg, -, hi₁, hc, rfl⟩ := vmmMap_spec hA hi hvirt h
  rw [hi₁.place_leaf hc (pte_lt hphys hflags) (if_neg fun hc => by simp at hc),
    if_pos (present_or _), hg.place]
  simp only [prefix_path, List.length_cons, List.length_nil]
  rfl

/-- `vmm_unmap` takes one small page away. -/
theorem vmmUnmap_place (hi : Inv inUse s root) {virt : Nat} (hvirt : NoHuge s virt) (v : Nat) :
    place (vmmUnmap s virt) root v = if SamePage v virt then none else place s root v := by
  rcases vmmUnmap_spec hi hvirt with ⟨h, habs⟩ | ⟨c, hc, h⟩
  · rw [h]
    by_cases hpage : SamePage v virt
    · rw [if_pos hpage, place_congr hpage, place_eq_none]
      exact habs
    · rw [if_neg hpage]
  · rw [h, hi.place_leaf hc (by decide) (if_neg fun hc => by simp at hc)]
    simp only [prefix_path, present_zero, Bool.false_eq_true, if_false]

/-! ## The loops of vmm_init -/

/-- The page map behind the direct map loop. -/
theorem hhdmLoop_place {k n total : Nat} (hA : Lawful A inUse s.hhdmOffset)
    (hi : Inv inUse s root) (htotal : total * 0x200000 < 2 ^ 64) (hk : k + n = total)
    (h : hhdmLoop A s (k * 0x200000) n = .ok s') :
    place s' root = paint (fun j v => SameSlot v (add64 (j * 0x200000) s.hhdmOffset))
      (fun j => some (2, directEntry (j * 0x200000))) (List.range' k n) (place s root) := by
  induction n generalizing s k with
  | zero =>
      obtain rfl := Except.ok.inj h
      rfl
  | succ n ih =>
      obtain ⟨s₁, h₁, h⟩ := bind_eq_ok h
      have hphys : k * 0x200000 < 2 ^ 64 :=
        (Nat.mul_le_mul_right _ (show k ≤ total by omega)).trans_lt htotal
      obtain ⟨hi₁, -, hoff⟩ := mapHuge_spec (S := fun _ => True) hA hi
        (fun _ _ _ _ _ _ => trivial) hphys trivial h₁
      rw [add64_stride htotal (by omega)] at h
      have hrest := ih (by rwa [hoff]) hi₁ (by omega) h
      rw [hrest, List.range'_succ, paint, hoff, funext (mapHuge_place hA hi hphys h₁)]

/-- The page map behind the loop over the kernel image. -/
theorem kernelLoop_place {S : List (Fin 512) → Prop} {kernelVirt kernelPhys k n total : Nat}
    (hA : Lawful A inUse s.hhdmOffset) (hi : Inv inUse s root) (hs : HugeSlots S s root)
    (htotal : total * pageSize < 2 ^ 64) (hk : k + n = total)
    (hout : ∀ j < total, ¬S (slot (add64 kernelVirt (j * pageSize))))
    (h : kernelLoop A s kernelVirt kernelPhys (k * pageSize) n = .ok s') :
    place s' root = paint (fun j v => SamePage v (add64 kernelVirt (j * pageSize)))
      (fun j => some (3, smallEntry (add64 kernelPhys (j * pageSize))
        (pagePresent ||| pageWrite ||| pageGlobal))) (List.range' k n) (place s root) := by
  induction n generalizing s k with
  | zero =>
      obtain rfl := Except.ok.inj h
      rfl
  | succ n ih =>
      obtain ⟨s₁, h₁, h⟩ := bind_eq_ok h
      have hvirt := noHuge_of_slots hi hs (hout k (by omega))
      obtain ⟨hi₁, hs₁, hoff⟩ := vmmMap_inv hA hi hs hvirt (add64_lt _ _) (by decide) h₁
      rw [add64_stride htotal (by omega)] at h
      have hrest := ih (by rwa [hoff]) hi₁ hs₁ (by omega) h
      rw [hrest, List.range'_succ, paint,
        funext (vmmMap_place hA hi hvirt (add64_lt _ _) (by decide) h₁)]

/-! ## vmm_init -/

/-- Small pages of one large page. -/
theorem SamePage.sameSlot {w : Nat} (h : SamePage v w) : SameSlot v w := by
  rw [← path_eq_iff] at h
  rw [← slot_eq_iff]
  exact congrArg (List.take 3) h

/-- The pages of the direct map over an empty page map. -/
def directPages (hhdmOffset maxPhys : Nat) : Nat → Option (Nat × Nat) :=
  paint (fun j v => SameSlot v (add64 (j * 0x200000) hhdmOffset))
    (fun j => some (2, directEntry (j * 0x200000)))
    (List.range' 0 (hhdmMapSize maxPhys / 0x200000)) fun _ => none

/-- The pages of the kernel image over those. -/
def initialPages (hhdmOffset maxPhys kernelPhys kernelVirt kernelSize : Nat) :
    Nat → Option (Nat × Nat) :=
  paint (fun j v => SamePage v (add64 kernelVirt (j * pageSize)))
    (fun j => some (3, smallEntry (add64 kernelPhys (j * pageSize))
      (pagePresent ||| pageWrite ||| pageGlobal)))
    (List.range' 0 (ksizeAligned kernelSize / pageSize)) (directPages hhdmOffset maxPhys)

/-- An empty PML4 maps nothing. -/
theorem place_fresh (hzero : ∀ i, ent s.mem s.hhdmOffset root i = 0) (v : Nat) :
    place s root v = none := by
  have hnone : child 0 (ent s.mem s.hhdmOffset root (pos (pml4Idx v))) = none := by
    rw [hzero]
    exact child_of_not_present present_zero
  rw [place_eq_none, lookup, stop_of_none hnone, hzero]
  exact present_zero

/-- The page map behind `vmm_init`. -/
theorem vmmInit_place {kernelPhys kernelVirt kernelSize : Nat} (hA : Lawful A inUse s.hhdmOffset)
    (hout : KernelOutside s.hhdmOffset (maxPhysAtInit A s) kernelVirt kernelSize)
    (h : vmmInit A s kernelPhys kernelVirt kernelSize = .ok s') :
    ∃ root, Inv inUse s' root ∧ place s' root =
      initialPages s.hhdmOffset (maxPhysAtInit A s) kernelPhys kernelVirt kernelSize := by
  obtain ⟨s₀, s₁, root, hoff₀, hi₀, hzero, h₁, h₂⟩ := vmmInit_cases hA h
  have htotal : hhdmMapSize (maxPhysAtInit A s) / 0x200000 * 0x200000 < 2 ^ 64 :=
    (Nat.div_mul_le_self _ _).trans_lt (and_right_lt _ (by decide))
  have hkernel : ksizeAligned kernelSize / pageSize * pageSize < 2 ^ 64 :=
    (Nat.div_mul_le_self _ _).trans_lt (and_right_lt _ (by decide))
  have hout' : ∀ i < ksizeAligned kernelSize / pageSize,
      ¬directSlots s.hhdmOffset (maxPhysAtInit A s) (slot (add64 kernelVirt (i * pageSize))) :=
    fun i hi hin => hout i hi (directSlots_slot_iff.mp hin)
  rw [← hoff₀] at hA
  obtain ⟨hi₁, hs₁, hoff₁⟩ := hhdmLoop_spec
    (S := directSlots s.hhdmOffset (maxPhysAtInit A s)) hA hi₀
    (hugeSlots_fresh hzero) htotal (Nat.zero_add _) (fun j hj => ⟨j, hj, by rw [hoff₀]⟩) h₁
  have hdirect := hhdmLoop_place hA hi₀ htotal (Nat.zero_add _) h₁
  rw [funext (place_fresh hzero), hoff₀] at hdirect
  rw [← hoff₁] at hA
  obtain ⟨hi₂, -, -⟩ := kernelLoop_spec hA hi₁ hs₁ hkernel (Nat.zero_add _) hout' h₂
  refine ⟨root, hi₂, ?_⟩
  rw [kernelLoop_place hA hi₁ hs₁ hkernel (Nat.zero_add _) hout' h₂, hdirect]
  rfl

/-- After `vmm_init` an address of the direct map lies in the large page of its slot. -/
theorem vmmInit_large {kernelPhys kernelVirt kernelSize j : Nat}
    (hA : Lawful A inUse s.hhdmOffset)
    (hout : KernelOutside s.hhdmOffset (maxPhysAtInit A s) kernelVirt kernelSize)
    (hj : j < hhdmMapSize (maxPhysAtInit A s) / 0x200000)
    (hslot : SameSlot v (add64 (j * 0x200000) s.hhdmOffset))
    (huniq : ∀ i < hhdmMapSize (maxPhysAtInit A s) / 0x200000,
      SameSlot v (add64 (i * 0x200000) s.hhdmOffset) → i = j)
    (h : vmmInit A s kernelPhys kernelVirt kernelSize = .ok s') :
    ∃ root, Inv inUse s' root ∧
      lookup s'.mem s'.hhdmOffset root v = (2, directEntry (j * 0x200000)) := by
  obtain ⟨root, hi, hplace⟩ := vmmInit_place hA hout h
  refine ⟨root, hi, (place_eq_some.mp ?_).1⟩
  rw [hplace]
  refine (paint_outside fun i hi hpage => ?_).trans (paint_of_unique (i := j) ?_ hslot ?_)
  · -- a page of the image would lie in the direct map
    have hlt : i < ksizeAligned kernelSize / pageSize := by simpa using hi
    refine hout i hlt ⟨j, hj, ?_⟩
    exact hpage.sameSlot.symm.trans hslot
  · simpa using hj
  · intro i hi hcovers
    exact huniq i (by simpa using hi) hcovers

end

end PolandOS.Vmm
