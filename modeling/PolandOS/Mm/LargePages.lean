import PolandOS.Mm.PageMap

/-! # Calls on large pages

`vmm_get_phys` ends its walk at a `PAGE_HUGE` entry. `vmm_map` and `vmm_unmap` do not
look at that bit: to them the page is a page table, and they store into its base
frame.

* `large_page_calls`: when such a call does what it does on a small page
-/

namespace PolandOS.Vmm

open ByteMem Radix Runs

/-! ## What the calls store to -/

section

variable {σ : Type} (A : Allocator σ)

/-- The entry that `get_or_create_table` stores to, where it does: a table and an index. -/
def getOrCreateStores (s : VmmState σ) (table index : Nat) : List (Nat × Nat) :=
  if present (entry s.mem table index) then [] else [(table, index)]

/-- The entries that `vmm_map` stores to. -/
def vmmMapStores (s : VmmState σ) (virt : Nat) : Except Halt (List (Nat × Nat)) := do
  let (pdpt, s₁) ← getOrCreateTable A s s.kernelPml4 (pml4Idx virt) (pageWrite ||| pagePresent)
  let (pd, s₂) ← getOrCreateTable A s₁ pdpt (pdptIdx virt) (pageWrite ||| pagePresent)
  let (pt, _) ← getOrCreateTable A s₂ pd (pdIdx virt) (pageWrite ||| pagePresent)
  return getOrCreateStores s s.kernelPml4 (pml4Idx virt) ++
    getOrCreateStores s₁ pdpt (pdptIdx virt) ++ getOrCreateStores s₂ pd (pdIdx virt) ++
    [(pt, ptIdx virt)]

/-- The entry that `vmm_unmap` stores to. -/
def vmmUnmapStores (s : VmmState σ) (virt : Nat) : List (Nat × Nat) :=
  if s.kernelPml4 = 0 then []
  else
    let pml4e := entry s.mem s.kernelPml4 (pml4Idx virt)
    if !present pml4e then []
    else
      let pdpte := entry s.mem (physToVirt s (pml4e &&& physAddrMask)) (pdptIdx virt)
      if !present pdpte then []
      else
        let pde := entry s.mem (physToVirt s (pdpte &&& physAddrMask)) (pdIdx virt)
        if !present pde then [] else [(physToVirt s (pde &&& physAddrMask), ptIdx virt)]

/-- `vmm_unmap` clears that entry. -/
theorem vmmUnmap_eq_stores (s : VmmState σ) (virt : Nat) :
    vmmUnmap s virt = (vmmUnmapStores s virt).foldl (fun s x => setEntry s x.1 x.2 0) s := by
  unfold vmmUnmap vmmUnmapStores
  dsimp only
  split_ifs <;> rfl

/-- The page-directory-pointer table on the walk of `virt`. -/
def pdptOf (s : VmmState σ) (virt : Nat) : Nat :=
  physToVirt s (entry s.mem s.kernelPml4 (pml4Idx virt) &&& physAddrMask)

/-- The page directory on the walk of `virt`. -/
def pdOf (s : VmmState σ) (virt : Nat) : Nat :=
  physToVirt s (entry s.mem (pdptOf s virt) (pdptIdx virt) &&& physAddrMask)

/-- The entry of the page directory. -/
def pdeOf (s : VmmState σ) (virt : Nat) : Nat := entry s.mem (pdOf s virt) (pdIdx virt)

/-- What `vmm_map` and `vmm_unmap` take for the page table. -/
def ptOf (s : VmmState σ) (virt : Nat) : Nat := physToVirt s (pdeOf s virt &&& physAddrMask)

/-- The frame of the PML4. -/
def pml4Frame (s : VmmState σ) : Nat := sub64 s.kernelPml4 (s.hhdmOffset % 2 ^ 64)

/-- Every store goes to a table of the tree. -/
def Contained (s : VmmState σ) (stores : List (Nat × Nat)) : Prop :=
  ∀ x ∈ stores, ∃ q f, tableAt s (pml4Frame s) q = some f ∧ x.1 = physToVirt s f

/-- The base frame of the large page is a table of the tree. -/
def OverTable (s : VmmState σ) (virt : Nat) : Prop :=
  ∃ q, tableAt s (pml4Frame s) q = some (pdeOf s virt &&& physAddrMask)

/-- The entry that is stored to is one that the walk of `virt` reads. -/
def OnWalk (s : VmmState σ) (virt : Nat) : Prop :=
  (ptOf s virt, ptIdx virt) ∈
    [(s.kernelPml4, pml4Idx virt), (pdptOf s virt, pdptIdx virt), (pdOf s virt, pdIdx virt)]

/-- What they store there. -/
def storeUnder (s : VmmState σ) (virt w : Nat) : VmmState σ :=
  setEntry s (ptOf s virt) (ptIdx virt) w

/-- The walk of `virt` ends at a 2 MiB page. -/
structure Large (s : VmmState σ) (virt : Nat) : Prop where
  pml4e : present (entry s.mem s.kernelPml4 (pml4Idx virt)) = true
  pdpte : present (entry s.mem (pdptOf s virt) (pdptIdx virt)) = true
  small : huge (entry s.mem (pdptOf s virt) (pdptIdx virt)) = false
  pde : present (pdeOf s virt) = true
  large : huge (pdeOf s virt) = true

end

/-! ## What the calls do there -/

section

variable {σ : Type} {A : Allocator σ} {s s' : VmmState σ} {root v : Nat}
  {inUse : σ → Nat → Prop}

theorem Inv.pml4Frame (hi : Inv inUse s root) : pml4Frame s = root := by
  have hlt := (hi.frames [] root rfl).1.2
  unfold Vmm.pml4Frame sub64
  rw [hi.pml4]
  unfold add64
  omega

/-- Where the tree has no 1 GiB page, the large page is one of 2 MiB. -/
theorem Inv.large (hi : Inv inUse s root) (hv : ¬NoHuge s v) : Large s v := by
  have h : present (entry s.mem s.kernelPml4 (pml4Idx v)) = true ∧
      present (entry s.mem (pdptOf s v) (pdptIdx v)) = true ∧
      ¬(huge (entry s.mem (pdptOf s v) (pdptIdx v)) = false ∧
        (present (pdeOf s v) = true → huge (pdeOf s v) = false)) := by
    simpa only [NoHuge, pdptOf, pdOf, pdeOf, Classical.not_imp] using hv
  rcases h with ⟨h0, h1, h2⟩
  have hpdpt : tableAt s root [pos (pml4Idx v)] =
      some (entry s.mem s.kernelPml4 (pml4Idx v) &&& physAddrMask) := by
    rw [hi.pml4, entry_eq_ent _ _ _ _ (pml4Idx_lt v)] at h0 ⊢
    simp [tableAt, walk, child_eq (show 0 ≤ 2 by decide) h0 (Or.inl rfl)]
  have hsmall : huge (entry s.mem (pdptOf s v) (pdptIdx v)) = false := by
    rw [pdptOf, physToVirt, entry_eq_ent _ _ _ _ (pdptIdx_lt v)] at h1 ⊢
    exact hi.upper _ _ _ rfl hpdpt h1
  have h3 : ¬(present (pdeOf s v) = true → huge (pdeOf s v) = false) := fun h => h2 ⟨hsmall, h⟩
  rw [Classical.not_imp] at h3
  exact ⟨h0, h1, hsmall, h3.1, by simpa using h3.2⟩

theorem Large.unmapStores (h : Large s v) (hnull : s.kernelPml4 ≠ 0) :
    vmmUnmapStores s v = [(ptOf s v, ptIdx v)] := by
  have h1 := h.pdpte
  have h2 := h.pde
  unfold pdptOf at h1
  unfold pdeOf pdOf pdptOf at h2
  simp only [vmmUnmapStores, if_neg hnull, h.pml4e, h1, h2, Bool.not_true, Bool.false_eq_true,
    if_false]
  rfl

theorem Large.unmap (h : Large s v) (hnull : s.kernelPml4 ≠ 0) :
    vmmUnmap s v = storeUnder s v 0 := by
  rw [vmmUnmap_eq_stores, h.unmapStores hnull]
  rfl

/-- A present entry is followed. -/
theorem getOrCreateTable_present {t i flags : Nat} (h : present (entry s.mem t i) = true) :
    getOrCreateTable A s t i flags = .ok (physToVirt s (entry s.mem t i &&& physAddrMask), s) := by
  unfold getOrCreateTable
  rw [if_pos h]

theorem Large.mapStores (h : Large s v) : vmmMapStores A s v = .ok [(ptOf s v, ptIdx v)] := by
  have h1 := h.pdpte
  have h2 := h.pde
  unfold pdptOf at h1
  unfold pdeOf pdOf pdptOf at h2
  simp only [vmmMapStores, getOrCreateTable_present h.pml4e, getOrCreateTable_present h1,
    getOrCreateTable_present h2, bind, Except.bind, getOrCreateStores, h.pml4e, h1, h2, if_true]
  rfl

theorem Large.map (h : Large s v) (phys flags : Nat) :
    vmmMap A s v phys flags =
      .ok (storeUnder s v ((phys &&& physAddrMask) ||| flags ||| pagePresent)) := by
  have h1 := h.pdpte
  have h2 := h.pde
  unfold pdptOf at h1
  unfold pdeOf pdOf pdptOf at h2
  simp only [vmmMap, getOrCreateTable_present h.pml4e, getOrCreateTable_present h1,
    getOrCreateTable_present h2, bind, Except.bind]
  rfl

/-! ## What is read behind the store -/

/-- An entry behind a store. -/
theorem entry_setEntry {f g i j w : Nat} (hf : Frame f) (hg : Frame g) (hi : i < 512)
    (hj : j < 512) (hw : w < 2 ^ 64) :
    entry (setEntry s (physToVirt s f) i w).mem (physToVirt s g) j =
      if (physToVirt s f, i) = (physToVirt s g, j) then w else entry s.mem (physToVirt s g) j := by
  have hflt := hf.2
  have hglt := hg.2
  by_cases hsame : (physToVirt s f, i) = (physToVirt s g, j)
  · rw [if_pos hsame]
    rcases Prod.mk.inj hsame with ⟨ht, rfl⟩
    rw [← ht]
    change ent (writeLE s.mem (add64 (add64 f s.hhdmOffset) (8 * (⟨i, hi⟩ : Fin 512))) 8 w)
      s.hhdmOffset f ⟨i, hi⟩ = w
    exact ent_write_self _ hw
  · rw [if_neg hsame]
    have hne : g ≠ f ∨ (⟨j, hj⟩ : Fin 512) ≠ ⟨i, hi⟩ := by
      by_cases hfg : g = f
      · refine .inr fun hji => hsame ?_
        rw [hfg, ← Fin.mk.inj hji]
      · exact .inl hfg
    change ent (writeLE s.mem (add64 (add64 f s.hhdmOffset) (8 * (⟨i, hi⟩ : Fin 512))) 8 w)
      s.hhdmOffset g ⟨j, hj⟩ = ent s.mem s.hhdmOffset g ⟨j, hj⟩
    exact ent_write_ne w hf hg hne

/-- An entry that the walk reads, behind the store under a large page. -/
theorem entry_storeUnder {g j w : Nat} (hg : Frame g) (hj : j < 512) (hw : w < 2 ^ 64) :
    entry (storeUnder s v w).mem (physToVirt s g) j =
      if (ptOf s v, ptIdx v) = (physToVirt s g, j) then w else entry s.mem (physToVirt s g) j :=
  entry_setEntry (frame_and_mask _) hg (ptIdx_lt v) hj hw

theorem Inv.pml4e_storeUnder (hi : Inv inUse s root) {w : Nat} (hw : w < 2 ^ 64) :
    entry (storeUnder s v w).mem s.kernelPml4 (pml4Idx v) =
      if (ptOf s v, ptIdx v) = (s.kernelPml4, pml4Idx v) then w
      else entry s.mem s.kernelPml4 (pml4Idx v) := by
  rw [hi.pml4]
  exact entry_storeUnder (hi.frames [] root rfl).1 (pml4Idx_lt v) hw

theorem pdpte_storeUnder {w : Nat} (hw : w < 2 ^ 64)
    (hpdpt : pdptOf (storeUnder s v w) v = pdptOf s v) :
    entry (storeUnder s v w).mem (pdptOf (storeUnder s v w) v) (pdptIdx v) =
      if (ptOf s v, ptIdx v) = (pdptOf s v, pdptIdx v) then w
      else entry s.mem (pdptOf s v) (pdptIdx v) := by
  rw [hpdpt]
  exact entry_storeUnder (frame_and_mask _) (pdptIdx_lt v) hw

theorem pde_storeUnder {w : Nat} (hw : w < 2 ^ 64) (hpd : pdOf (storeUnder s v w) v = pdOf s v) :
    pdeOf (storeUnder s v w) v =
      if (ptOf s v, ptIdx v) = (pdOf s v, pdIdx v) then w else pdeOf s v := by
  rw [pdeOf, hpd]
  exact entry_storeUnder (frame_and_mask _) (pdIdx_lt v) hw

/-- What a walk comes to depends on the entries only. -/
theorem pdptOf_congr {t : VmmState σ} (hoff : t.hhdmOffset = s.hhdmOffset)
    (h : entry t.mem t.kernelPml4 (pml4Idx v) = entry s.mem s.kernelPml4 (pml4Idx v)) :
    pdptOf t v = pdptOf s v := by
  rw [pdptOf, pdptOf, physToVirt, physToVirt, h, hoff]

theorem pdOf_congr {t : VmmState σ} (hoff : t.hhdmOffset = s.hhdmOffset)
    (h : entry t.mem (pdptOf t v) (pdptIdx v) = entry s.mem (pdptOf s v) (pdptIdx v)) :
    pdOf t v = pdOf s v := by
  rw [pdOf, pdOf, physToVirt, physToVirt, h, hoff]

/-- `vmm_get_phys`, in terms of the walk. -/
theorem vmmGetPhys_walk (s : VmmState σ) (v : Nat) :
    vmmGetPhys s v =
      if s.kernelPml4 = 0 then 0
      else if !present (entry s.mem s.kernelPml4 (pml4Idx v)) then 0
      else if !present (entry s.mem (pdptOf s v) (pdptIdx v)) then 0
      else if huge (entry s.mem (pdptOf s v) (pdptIdx v)) then
        (entry s.mem (pdptOf s v) (pdptIdx v) &&& (2 ^ 64 - 2 ^ 30)) ||| (v &&& 0x3FFFFFFF)
      else if !present (pdeOf s v) then 0
      else if huge (pdeOf s v) then (pdeOf s v &&& (2 ^ 64 - 2 ^ 21)) ||| (v &&& 0x1FFFFF)
      else if !present (entry s.mem (ptOf s v) (ptIdx v)) then 0
      else (entry s.mem (ptOf s v) (ptIdx v) &&& physAddrMask) ||| (v &&& 0xFFF) := rfl

/-- The translation of an address in a 2 MiB page. -/
theorem Large.getPhys (h : Large s v) (hnull : s.kernelPml4 ≠ 0) :
    vmmGetPhys s v = (pdeOf s v &&& (2 ^ 64 - 2 ^ 21)) ||| (v &&& 0x1FFFFF) := by
  rw [vmmGetPhys_walk, if_neg hnull]
  simp [h.pml4e, h.pdpte, h.small, h.pde, h.large]

/-- Off the walk, the store is not seen. -/
theorem Inv.getPhys_offWalk (hi : Inv inUse s root) (hl : Large s v) (hoff : ¬OnWalk s v) {w : Nat}
    (hw : w < 2 ^ 64) : vmmGetPhys (storeUnder s v w) v = vmmGetPhys s v := by
  unfold OnWalk at hoff
  simp only [List.mem_cons, List.not_mem_nil, or_false, not_or] at hoff
  rcases hoff with ⟨h0, h1, h2⟩
  have e0 := (hi.pml4e_storeUnder hw).trans (if_neg h0)
  have hpdpt : pdptOf (storeUnder s v w) v = pdptOf s v := pdptOf_congr rfl e0
  have e1 := (pdpte_storeUnder hw hpdpt).trans (if_neg h1)
  have hpd : pdOf (storeUnder s v w) v = pdOf s v := pdOf_congr rfl e1
  have e2 := (pde_storeUnder hw hpd).trans (if_neg h2)
  have hl' : Large (storeUnder s v w) v := by
    constructor
    · exact (congrArg present e0).trans hl.pml4e
    · exact (congrArg present e1).trans hl.pdpte
    · exact (congrArg huge e1).trans hl.small
    · exact (congrArg present e2).trans hl.pde
    · exact (congrArg huge e2).trans hl.large
  rw [hl.getPhys hi.notNull, hl'.getPhys hi.notNull, e2]

/-- On the walk, a cleared entry ends it. -/
theorem Inv.getPhys_onWalk (hi : Inv inUse s root) (hl : Large s v) (hon : OnWalk s v) :
    vmmGetPhys (storeUnder s v 0) v = 0 := by
  have hw : 0 < 2 ^ 64 := by decide
  have hnull : ¬(storeUnder s v 0).kernelPml4 = 0 := hi.notNull
  rw [vmmGetPhys_walk, if_neg hnull]
  -- the first of the entries that is the cleared one
  by_cases h0 : (ptOf s v, ptIdx v) = (s.kernelPml4, pml4Idx v)
  · have e0 : entry (storeUnder s v 0).mem (storeUnder s v 0).kernelPml4 (pml4Idx v) = 0 :=
      (hi.pml4e_storeUnder hw).trans (if_pos h0)
    simp [e0, present_zero]
  have e0 := (hi.pml4e_storeUnder hw).trans (if_neg h0)
  have hpdpt : pdptOf (storeUnder s v 0) v = pdptOf s v := pdptOf_congr rfl e0
  by_cases h1 : (ptOf s v, ptIdx v) = (pdptOf s v, pdptIdx v)
  · have e1 := (pdpte_storeUnder hw hpdpt).trans (if_pos h1)
    simp [e1, present_zero]
  have e1 := (pdpte_storeUnder hw hpdpt).trans (if_neg h1)
  have hpd : pdOf (storeUnder s v 0) v = pdOf s v := pdOf_congr rfl e1
  have h2 : (ptOf s v, ptIdx v) = (pdOf s v, pdIdx v) := by
    unfold OnWalk at hon
    simpa only [List.mem_cons, List.not_mem_nil, or_false, h0, h1, false_or] using hon
  have e2 := (pde_storeUnder hw hpd).trans (if_pos h2)
  simp [e1, hl.small, e2, present_zero]

/-! ## When the calls do what they do on a small page -/

theorem physToVirt_inj {f g : Nat} (hf : Frame f) (hg : Frame g)
    (h : physToVirt s f = physToVirt s g) : f = g := by
  have hflt := hf.2
  have hglt := hg.2
  unfold physToVirt add64 at h
  omega

/-- The store goes to a table when the base frame is one. -/
theorem Inv.contained_iff (hi : Inv inUse s root) (i : Nat) :
    Contained s [(ptOf s v, i)] ↔ OverTable s v := by
  unfold Contained OverTable
  rw [hi.pml4Frame]
  constructor
  · intro h
    rcases h _ (List.mem_singleton.mpr rfl) with ⟨q, f, hq, hf⟩
    rw [physToVirt_inj (frame_and_mask _) (hi.frames q f hq).1 hf]
    exact ⟨q, hq⟩
  · rintro ⟨q, hq⟩ x hx
    rw [List.mem_singleton.mp hx]
    exact ⟨q, _, hq, rfl⟩

/-- The condition for `vmm_unmap`. -/
def UnmapMeets (s : VmmState σ) (virt : Nat) : Prop :=
  OverTable s virt ∧ (OnWalk s virt ∨ vmmGetPhys s virt = 0)

theorem Inv.unmap_iff (hi : Inv inUse s root) (hv : ¬NoHuge s v) :
    Contained s (vmmUnmapStores s v) ∧ vmmGetPhys (vmmUnmap s v) v = 0 ↔ UnmapMeets s v := by
  have hl := hi.large hv
  rw [hl.unmapStores hi.notNull, hl.unmap hi.notNull, hi.contained_iff]
  unfold UnmapMeets
  by_cases hon : OnWalk s v
  · simp [hon, hi.getPhys_onWalk hl hon]
  · simp [hon, hi.getPhys_offWalk hl hon (show 0 < 2 ^ 64 by decide)]

/-- An address that `vmm_map` has mapped to `phys` has this translation. -/
def mappedTo (phys virt : Nat) : Nat := (phys &&& physAddrMask) ||| (virt &&& 0xFFF)

theorem Inv.map_iff (hi : Inv inUse s root) (hv : ¬NoHuge s v) (hoff : ¬OnWalk s v)
    {phys flags : Nat} (hphys : phys < 2 ^ 64) (hflags : flags < 2 ^ 64) :
    ∃ stores s', vmmMapStores A s v = .ok stores ∧ vmmMap A s v phys flags = .ok s' ∧
      (Contained s stores ∧ vmmGetPhys s' v = mappedTo phys v ↔
        OverTable s v ∧ vmmGetPhys s v = mappedTo phys v) := by
  have hl := hi.large hv
  refine ⟨_, _, hl.mapStores, hl.map phys flags, ?_⟩
  rw [hi.contained_iff, hi.getPhys_offWalk hl hoff (pte_lt hphys hflags)]

end

/-! ## A large page of data -/

section

variable {σ : Type} {s : VmmState σ} {root v : Nat} {inUse : σ → Nat → Prop}

/-- The tables on the walk to a large page. -/
theorem Inv.walk_large (hi : Inv inUse s root) (hl : Large s v) :
    tableAt s root [pos (pml4Idx v)] =
        some (entry s.mem s.kernelPml4 (pml4Idx v) &&& physAddrMask) ∧
      tableAt s root [pos (pml4Idx v), pos (pdptIdx v)] =
        some (entry s.mem (pdptOf s v) (pdptIdx v) &&& physAddrMask) ∧
      lookup s.mem s.hhdmOffset root v = (2, pdeOf s v) := by
  have e0 : entry s.mem s.kernelPml4 (pml4Idx v) = ent s.mem s.hhdmOffset root (pos (pml4Idx v)) := by
    rw [hi.pml4]
    exact entry_eq_ent _ _ _ _ (pml4Idx_lt v)
  have e1 : entry s.mem (pdptOf s v) (pdptIdx v) = _ := entry_eq_ent _ _ _ _ (pdptIdx_lt v)
  have e2 : pdeOf s v = _ := entry_eq_ent _ _ _ _ (pdIdx_lt v)
  have h0 := child_eq (show 0 ≤ 2 by decide) hl.pml4e (Or.inl rfl)
  have h1 := child_eq (show 1 ≤ 2 by decide) hl.pdpte (Or.inr hl.small)
  have h2 := child_of_huge (show 2 ≠ 0 by decide) hl.large
  rw [e0] at h0
  rw [e1] at h1
  rw [e2] at h2
  refine ⟨?_, ?_, ?_⟩
  · simp only [tableAt, walk, h0, e0]
  · simp only [tableAt, walk, h0, e1]
    rw [e0] at h1 ⊢
    simp only [h1]
  · simp only [lookup, stop, h0]
    rw [e0] at h1
    simp only [h1]
    rw [e1, e0] at h2
    simp only [h2]
    rw [e2, e1, e0]

/-- Where the stored entry is on the walk, the base frame is a table. -/
theorem Inv.overTable_of_onWalk (hi : Inv inUse s root) (hl : Large s v) (h : OnWalk s v) :
    OverTable s v := by
  rcases hi.walk_large hl with ⟨h0, h1, -⟩
  unfold OverTable
  rw [hi.pml4Frame]
  have hpt : ∀ f, Frame f → ptOf s v = physToVirt s f → pdeOf s v &&& physAddrMask = f :=
    fun f hf heq => physToVirt_inj (frame_and_mask _) hf heq
  unfold OnWalk at h
  simp only [List.mem_cons, List.not_mem_nil, or_false, Prod.mk.injEq] at h
  rcases h with ⟨h, -⟩ | ⟨h, -⟩ | ⟨h, -⟩
  · rw [hi.pml4] at h
    exact ⟨[], congrArg some (hpt root (hi.frames [] root rfl).1 h).symm⟩
  · exact ⟨_, h0.trans (congrArg some (hpt _ (frame_and_mask _) h).symm)⟩
  · exact ⟨_, h1.trans (congrArg some (hpt _ (frame_and_mask _) h).symm)⟩

/-- The machine of the runs below, before `vmm_init`. -/
def machine : VmmState Nat := ⟨fun _ => 0, 0xFFFF800000000000, 0, 0⟩

/-- Its allocator. -/
def frames : Allocator Nat := bump 0xFFFF800000000000

/-- An address in the direct map, in the 2 MiB page at 1 GiB. -/
def dataAddr : Nat := 0xFFFF800040001000

theorem frames_lawful : Lawful frames (fun n f => f ≤ n * pageSize) machine.hhdmOffset :=
  bump_lawful (by decide)

theorem machine_outside :
    KernelOutside machine.hhdmOffset (maxPhysAtInit frames machine) 0xFFFFFFFF80000000 0x1000 := by
  have hmax : maxPhysAtInit frames machine = 2 ^ 30 := maxPhysAtInit_eq fun _ => rfl
  rw [hmax]
  intro j hj
  rw [ksizeAligned_page] at hj
  obtain rfl : j = 0 := by omega
  exact outside_bump (by decide) (by decide)

/-- After `vmm_init` the address translates through a large page of data. -/
theorem machine_large : ∃ s₁ root,
    vmmInit frames machine 0x200000 0xFFFFFFFF80000000 0x1000 = .ok s₁ ∧
    Inv (fun n f => f ≤ n * pageSize) s₁ root ∧ ¬NoHuge s₁ dataAddr ∧ ¬OverTable s₁ dataAddr ∧
    vmmGetPhys s₁ dataAddr = 0x40001000 := by
  have hcounts : Counts frames := bump_counts
  obtain ⟨s₁, hinit, hp⟩ := hcounts.vmmInit (h := 0xFFFF800000000000) rfl hhdmMapSize_small
    (by decide) (fun _ => 0) 0x200000 0xFFFFFFFF80000000
  have hmax : maxPhysAtInit frames machine = 2 ^ 30 := maxPhysAtInit_eq fun _ => rfl
  obtain ⟨root, hi, hv⟩ := vmmInit_large (v := dataAddr) (j := 512) frames_lawful machine_outside
    (by rw [hmax, hhdmMapSize_small]; decide) (by unfold SameSlot; decide)
    (by
      intro i hi hsame
      rw [hmax, hhdmMapSize_small] at hi
      simp only [SameSlot, Nat.shiftRight_eq_div_pow, Nat.and_two_pow_sub_one_eq_mod] at hsame
      unfold add64 machine dataAddr at hsame
      dsimp only at hsame
      omega) hinit
  have hlarge : ¬NoHuge s₁ dataAddr := by
    rw [noHuge_iff hi.pml4, hv]
    intro h
    have h23 : 2 = 3 := h (present_directEntry _)
    omega
  have hpde : pdeOf s₁ dataAddr = directEntry (512 * 0x200000) := by
    rw [(hi.walk_large (hi.large hlarge)).2.2] at hv
    exact (Prod.mk.inj hv).2
  refine ⟨s₁, root, hinit, hi, hlarge, ?_, ?_⟩
  · rintro ⟨q, hq⟩
    rw [hi.pml4Frame, hpde] at hq
    have huse := (hi.frames q _ hq).2
    have hbase : directEntry (512 * 0x200000) &&& physAddrMask = 0x40000000 := by decide
    rw [hbase] at huse
    unfold pageSize at huse
    omega
  · rw [vmmGetPhys_eq hi.pml4 hi.notNull, hv]
    decide

end

/-! ## Every run -/

section

variable {σ : Type} {A : Allocator σ} {s s' : VmmState σ} {root : Nat}
  {inUse : σ → Nat → Prop}

/-- Clearing an entry of a table keeps the tree. -/
theorem Inv.clear {q : List (Fin 512)} {f : Nat} (hi : Inv inUse s root)
    (hq : tableAt s root q = some f) (i : Fin 512) :
    Inv inUse (setEntry s (physToVirt s f) i 0) root := by
  have hleaf : child q.length 0 = none := child_of_not_present present_zero
  have hw := hi.write (i := i) hq (show 0 < 2 ^ 64 by decide)
  refine ⟨hi.pml4, hi.notNull, hi.tree.write_leaf hq hw hleaf,
    fun p g h => hi.frames p g (hi.of_write_leaf hq (by decide) hleaf h), ?_⟩
  intro p g j hlen h hpresent
  have hold := hi.of_write_leaf hq (by decide) hleaf h
  have hne : g ≠ f ∨ j ≠ i := by
    by_contra hsame
    rw [not_or, not_not, not_not] at hsame
    rcases hsame with ⟨rfl, rfl⟩
    have hself : present (ent (setEntry s (physToVirt s g) j 0).mem s.hhdmOffset g j) = false :=
      (congrArg present hw.self).trans present_zero
    exact absurd (hself.symm.trans hpresent) (by decide)
  have hsame : ent (setEntry s (physToVirt s f) i 0).mem s.hhdmOffset g j =
      ent s.mem s.hhdmOffset g j := hw.other p g j hold hne
  have hold' := (congrArg present hsame).symm.trans hpresent
  exact (congrArg huge hsame).trans (hi.upper p g j hlen hold hold')

/-- The calls that meet no large page, and those of `vmm_unmap` that do and meet the
condition. -/
def CallMeets (s : VmmState σ) : Call → Prop
  | .map virt phys flags => CallOk s (.map virt phys flags)
  | .unmap virt => NoHuge s virt ∨ UnmapMeets s virt

theorem step_meets_inv (hA : Lawful A inUse s.hhdmOffset) (hi : Inv inUse s root) {c : Call}
    (h : Guarded (Step A) CallMeets s c s') :
    Inv inUse s' root ∧ s'.hhdmOffset = s.hhdmOffset := by
  rcases h with ⟨hok, hstep⟩
  have hslots : HugeSlots (fun _ => True) s root := fun _ _ _ _ _ _ => trivial
  have hsmall : CallOk s c → Inv inUse s' root ∧ s'.hhdmOffset = s.hhdmOffset := fun hok =>
    have hinv := step_inv hA hi hslots ⟨hok, hstep⟩
    ⟨hinv.1, hinv.2.2⟩
  cases c with
  | map virt phys flags => exact hsmall hok
  | unmap virt =>
      by_cases hv : NoHuge s virt
      · exact hsmall hv
      · rcases (hok.resolve_left hv).1 with ⟨q, hq⟩
        rw [hi.pml4Frame] at hq
        have hl := hi.large hv
        obtain rfl := Except.ok.inj hstep
        rw [hl.unmap hi.notNull]
        exact ⟨hi.clear hq ⟨ptIdx virt, ptIdx_lt virt⟩, rfl⟩

theorem run_meets_inv {s₀ s₁ : VmmState σ} {kernelPhys kernelVirt kernelSize : Nat}
    (hA : Lawful A inUse s₀.hhdmOffset)
    (hout : KernelOutside s₀.hhdmOffset (maxPhysAtInit A s₀) kernelVirt kernelSize)
    (hinit : vmmInit A s₀ kernelPhys kernelVirt kernelSize = .ok s₁)
    (hrun : Run (Guarded (Step A) CallMeets) s₁ s) : ∃ root, Inv inUse s root := by
  rcases vmmInit_inv hA hout hinit with ⟨root, hi₁, -, hoff₁⟩
  have hinv := hrun.invariant
    (I := fun s => Inv inUse s root ∧ s.hhdmOffset = s₀.hhdmOffset) ⟨hi₁, hoff₁⟩ ?_
  · exact ⟨root, hinv.1⟩
  rintro t c t' ⟨hi, hoff⟩ hstep
  rcases step_meets_inv (by rwa [hoff]) hi hstep with ⟨hi', hoff'⟩
  exact ⟨hi', hoff'.trans hoff⟩

/-- In every state reached from `vmm_init` by calls that meet the condition: on a large
page `vmm_unmap` stores to a table only and leaves no translation exactly when the
base frame is a table, and either the stored entry is on the walk or the address has
no translation; off the walk, `vmm_map` does its part exactly when the base frame is a
table and the address has the new translation already. -/
theorem large_page_calls {s₀ s₁ : VmmState σ} {kernelPhys kernelVirt kernelSize : Nat}
    (hA : Lawful A inUse s₀.hhdmOffset)
    (hout : KernelOutside s₀.hhdmOffset (maxPhysAtInit A s₀) kernelVirt kernelSize)
    (hinit : vmmInit A s₀ kernelPhys kernelVirt kernelSize = .ok s₁)
    (hrun : Run (Guarded (Step A) CallMeets) s₁ s) {virt : Nat} (hv : ¬NoHuge s virt) :
    (Contained s (vmmUnmapStores s virt) ∧ vmmGetPhys (vmmUnmap s virt) virt = 0 ↔
      UnmapMeets s virt) ∧
    ∀ phys flags, phys < 2 ^ 64 → flags < 2 ^ 64 → ¬OnWalk s virt →
      ∃ stores s', vmmMapStores A s virt = .ok stores ∧ vmmMap A s virt phys flags = .ok s' ∧
        (Contained s stores ∧ vmmGetPhys s' virt = mappedTo phys virt ↔
          OverTable s virt ∧ vmmGetPhys s virt = mappedTo phys virt) := by
  rcases run_meets_inv hA hout hinit hrun with ⟨root, hi⟩
  exact ⟨hi.unmap_iff hv, fun phys flags hphys hflags hoff => hi.map_iff hv hoff hphys hflags⟩

/-- Unmapping a page of the direct map writes into the data there and leaves its
translation, and so does mapping it to another frame. -/
theorem large_page_corrupted : ∃ s₁ s',
    vmmInit frames machine 0x200000 0xFFFFFFFF80000000 0x1000 = .ok s₁ ∧ ¬NoHuge s₁ dataAddr ∧
    ¬Contained s₁ (vmmUnmapStores s₁ dataAddr) ∧
    vmmGetPhys (vmmUnmap s₁ dataAddr) dataAddr = 0x40001000 ∧
    vmmMap frames s₁ dataAddr 0x80000000 3 = .ok s' ∧
    (∃ stores, vmmMapStores frames s₁ dataAddr = .ok stores ∧ ¬Contained s₁ stores) ∧
    vmmGetPhys s' dataAddr = 0x40001000 := by
  rcases machine_large with ⟨s₁, root, hinit, hi, hlarge, hnot, hphys⟩
  have hl := hi.large hlarge
  have hoff : ¬OnWalk s₁ dataAddr := fun hon => hnot (hi.overTable_of_onWalk hl hon)
  refine ⟨s₁, _, hinit, hlarge, ?_, ?_, hl.map _ _, ⟨_, hl.mapStores, ?_⟩, ?_⟩
  · rw [hl.unmapStores hi.notNull, hi.contained_iff]
    exact hnot
  · rw [hl.unmap hi.notNull, hi.getPhys_offWalk hl hoff (by decide), hphys]
  · rw [hi.contained_iff]
    exact hnot
  · rw [hi.getPhys_offWalk hl hoff (by decide), hphys]

theorem large_page_calls_data : ∃ s₁,
    vmmInit frames machine 0x200000 0xFFFFFFFF80000000 0x1000 = .ok s₁ ∧ ¬NoHuge s₁ dataAddr ∧
    (Contained s₁ (vmmUnmapStores s₁ dataAddr) ∧ vmmGetPhys (vmmUnmap s₁ dataAddr) dataAddr = 0 ↔
      UnmapMeets s₁ dataAddr) := by
  rcases machine_large with ⟨s₁, root, hinit, -, hlarge, -⟩
  exact ⟨s₁, hinit, hlarge, (large_page_calls frames_lawful machine_outside hinit .refl hlarge).1⟩

end

end PolandOS.Vmm
