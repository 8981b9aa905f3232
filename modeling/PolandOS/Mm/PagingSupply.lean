import PolandOS.Lib.Supply
import PolandOS.Mm.PmmFrames
import PolandOS.Mm.PmmAccounting

/-! # How many frames the page tables need

The page-table code panics when `pmm_alloc` has no frame left. A call needs one frame for each
table on the way to its pages that is not there yet, and `vmm_map_region` one for each page on
top; with that many clear bits in the bitmap it returns, and with fewer it does not.
-/

namespace PolandOS.Mm

open ByteMem Radix Ghost Vmm Runs Supply

/-! ## Frames that are left -/

variable {entries : List Pmm.MemmapEntry} {h : Nat} {w : Pmm.World} {m : Mem}
  {s s' t : Ledgered} {root : Nat}

/-- The clear bits of the bitmap. -/
def freeFrames (s : State) : Nat :=
  Pmm.countFree { s.pmm with mem := s.mem } s.pmm.bitmapFrames

/-- A search takes a frame if one is clear. -/
theorem pmmAlloc_takes {p : Pmm.PmmState} {held : List Nat} (hi : Pmm.Inv entries p held)
    {f : Nat} (hf : f < p.bitmapFrames) (hclear : Pmm.bitmapTest p f = false) :
    ∃ g < p.bitmapFrames, Pmm.bitmapTest p g = false ∧ Pmm.pmmAlloc p = Pmm.takeFrame p g := by
  have hhint := hi.hint
  unfold Pmm.pmmAlloc
  split
  next r hr =>
    obtain ⟨g, hlo, hhi, hg, rfl, -⟩ := Pmm.allocLoop_spec hr
    exact ⟨g, by omega, hg, rfl⟩
  next hupper =>
    split
    next r hr =>
      obtain ⟨g, hlo, hhi, hg, rfl, -⟩ := Pmm.allocLoop_spec hr
      exact ⟨g, by omega, hg, rfl⟩
    next hlower =>
      -- both loops have passed over the frame
      have hset : Pmm.bitmapTest p f = true := by
        rcases Nat.lt_or_ge f p.lastFree with hlt | hge
        · exact Pmm.allocLoop_none hlower (Nat.zero_le f) (by omega)
        · exact Pmm.allocLoop_none hupper hge (by omega)
      rw [hclear] at hset
      cases hset

/-- It takes none if none is clear. -/
theorem pmmAlloc_none {p : Pmm.PmmState} (hhint : p.lastFree ≤ p.bitmapFrames)
    (hset : ∀ f < p.bitmapFrames, Pmm.bitmapTest p f = true) : Pmm.pmmAlloc p = (0, p) := by
  unfold Pmm.pmmAlloc
  split
  next r hr =>
    obtain ⟨g, hlo, hhi, hg, -, -⟩ := Pmm.allocLoop_spec hr
    rw [hset g (by omega)] at hg
    cases hg
  · split
    next r hr =>
      obtain ⟨g, hlo, hhi, hg, -, -⟩ := Pmm.allocLoop_spec hr
      rw [hset g (by omega)] at hg
      cases hg
    · rfl

theorem countFree_pos {p : Pmm.PmmState} :
    0 < Pmm.countFree p p.bitmapFrames ↔
      ∃ f < p.bitmapFrames, Pmm.bitmapTest p f = false := by
  rw [Pmm.countFree_eq_card, Finset.card_pos]
  constructor
  · rintro ⟨f, hf⟩
    exact ⟨f, Pmm.mem_clearSet.1 hf⟩
  · rintro ⟨f, hf⟩
    exact ⟨f, Pmm.mem_clearSet.2 hf⟩

/-- `pmm_alloc` returns a frame if and only if one is clear, and then one less is. -/
theorem pmmAlloc_needs {p : Pmm.PmmState} {held : List Nat} (hi : Pmm.Inv entries p held)
    (hzero : ¬Pmm.UsableFrame entries 0) :
    ((Pmm.pmmAlloc p).1 ≠ 0 ↔ 0 < Pmm.countFree p p.bitmapFrames) ∧
      ((Pmm.pmmAlloc p).1 ≠ 0 → Pmm.countFree (Pmm.pmmAlloc p).2 p.bitmapFrames + 1 =
        Pmm.countFree p p.bitmapFrames) := by
  by_cases hfree : 0 < Pmm.countFree p p.bitmapFrames
  · obtain ⟨f, hf, hclear⟩ := countFree_pos.1 hfree
    obtain ⟨g, hg, hgclear, htake⟩ := pmmAlloc_takes hi hf hclear
    obtain ⟨hphys, hgranted, -⟩ := Pmm.takeFrame_spec hi hg hgclear
    rw [htake]
    have hne : (Pmm.takeFrame p g).1 ≠ 0 := by
      rw [hphys]
      intro h0
      -- only frame 0 has that address
      have hg0 : g = 0 := by
        rcases Nat.mul_eq_zero.1 h0 with h0 | h0
        · exact h0
        · cases h0
      rw [hg0] at hg hgclear
      exact hzero (hi.clear 0 hg hgclear).1.1
    refine ⟨iff_of_true hne hfree, fun _ => ?_⟩
    refine Pmm.countFree_take (i := g) (n := 1) hg ?_ ?_
    · intro k hlo hhi
      obtain rfl : k = g := by omega
      exact hgclear
    · intro k hk
      have hquot : g * Pmm.pageSize / Pmm.pageSize = g := mul_div_pageSize g
      have hbits := hgranted.bits k hk
      rwa [hquot] at hbits
  · have hnone := pmmAlloc_none hi.hint fun f hf => by
      by_contra hset
      exact hfree (countFree_pos.2 ⟨f, hf, by simpa using hset⟩)
    rw [hnone]
    refine ⟨iff_of_false (fun h0 => h0 rfl) hfree, fun h0 => absurd rfl h0⟩

/-- Bits are kept when a frame of the ledger is written. -/
theorem Books.write_bits (hb : Books entries h w m) {f : Nat} {m' : Mem} (hf : Held w f)
    (hm : InFrame h f m m') :
    Pmm.countFree { w.pmm with mem := m' } w.pmm.bitmapFrames =
      Pmm.countFree { w.pmm with mem := m } w.pmm.bitmapFrames :=
  Pmm.countFree_congr fun _ hg => hb.write_test hf hm hg

/-! ## Tables that are missing -/

/-- The frames that are left. -/
def left (s : Ledgered) : Nat := freeFrames (erase s)

/-- How many of the tables are not there. -/
def missing {σ : Type} (s : VmmState σ) (root : Nat) (Q : Finset (List (Fin 512))) : Nat :=
  (Q.filter fun q => tableAt s root q = none).card

/-- The tables are made, and no others. -/
def Fills (s s' : Ledgered) (root : Nat) (Q : Finset (List (Fin 512))) : Prop :=
  ∀ q, tableAt s' root q = none ↔ tableAt s root q = none ∧ q ∉ Q

variable {P Q : Finset (List (Fin 512))}

theorem Fills.refl (s : Ledgered) (root : Nat) : Fills s s root ∅ := by
  intro q
  simp

theorem Fills.trans (h₁ : Fills s t root P) (h₂ : Fills t s' root Q) :
    Fills s s' root (P ∪ Q) := by
  intro q
  rw [h₂ q, h₁ q, Finset.mem_union, not_or, and_assoc]

/-- A table is made once. -/
theorem Fills.missing_add (hf : Fills s t root P) (Q : Finset (List (Fin 512))) :
    missing s root P + missing t root Q = missing s root (P ∪ Q) := by
  have hdisjoint : Disjoint (P.filter fun q => tableAt s root q = none)
      (Q.filter fun q => tableAt t root q = none) := by
    rw [Finset.disjoint_left]
    intro q hq hq'
    rw [Finset.mem_filter] at hq hq'
    exact ((hf q).1 hq'.2).2 hq.1
  have hunion : ((P ∪ Q).filter fun q => tableAt s root q = none) =
      (P.filter fun q => tableAt s root q = none) ∪
        (Q.filter fun q => tableAt t root q = none) := by
    ext q
    rw [Finset.mem_union, Finset.mem_filter, Finset.mem_filter, Finset.mem_filter,
      Finset.mem_union, hf q]
    tauto
  rw [missing, missing, missing, hunion, Finset.card_union_of_disjoint hdisjoint]

theorem missing_le_union : missing s root P ≤ missing s root (P ∪ Q) :=
  Finset.card_le_card (Finset.filter_subset_filter _ Finset.subset_union_left)

/-- One table is missing, or none. -/
theorem missing_singleton (q : List (Fin 512)) :
    missing s root {q} = if tableAt s root q = none then 1 else 0 := by
  unfold missing
  rw [Finset.filter_singleton]
  split
  · rfl
  · rfl

/-! ## The functions of vmm.c -/

/-- A call that makes the tables and needs a frame for each. -/
structure Makes {α : Type} (s : Ledgered) (root : Nat) (Q : Finset (List (Fin 512)))
    (x : Except Halt α) (view : α → Ledgered) : Prop where
  needs : Needs (left s) (missing s root Q) x fun a => left (view a)
  fills : ∀ a, x = .ok a → Fills s (view a) root Q

/-- `pmm_alloc` with the ledger. -/
theorem Books.alloc_needs (hb : Books entries h s.pmm s.mem) (hzero : ¬Pmm.UsableFrame entries 0)
    {phys : Nat} {w' : Pmm.World} {m' : Mem}
    (halloc : (ledger entries h).pmmAlloc s.pmm s.mem = (phys, w', m')) :
    (phys ≠ 0 ↔ 0 < left s) ∧
      (phys ≠ 0 → ∀ pml4, left ⟨m', s.hhdmOffset, pml4, w'⟩ + 1 = left s) := by
  rw [hb.served] at halloc
  obtain ⟨rfl, rfl, rfl⟩ : _ ∧ _ ∧ _ := by simpa only [Prod.mk.injEq] using halloc
  obtain ⟨hiff, huses⟩ := pmmAlloc_needs hb.inv hzero
  have hsteady := pmmAlloc_steady { s.pmm.pmm with mem := s.mem }
  refine ⟨hiff, fun hne pml4 => ?_⟩
  change Pmm.countFree (Pmm.pmmAlloc { s.pmm.pmm with mem := s.mem }).2
    (Pmm.pmmAlloc { s.pmm.pmm with mem := s.mem }).2.bitmapFrames + 1 = left s
  rw [hsteady.bitmapFrames]
  exact huses hne

/-- Writing a table of the tree uses no frame. -/
theorem Sound.left_setEntry (hs : Sound entries h s root) {p : List (Fin 512)} {n : Nat}
    (hp : tableAt s root p = some n) (i : Fin 512) (v : Nat) :
    left (setEntry s (add64 n s.hhdmOffset) i v) = left s := by
  have hframe := setEntry_inFrame (s := s) (f := n) i v
  rw [hs.hhdm] at hframe
  have hbits := hs.books.write_bits (hs.inv.frames p n hp).2 hframe
  rw [← hs.hhdm] at hbits
  exact hbits

/-- There is no table below an entry that is absent. -/
theorem tableAt_through {p : List (Fin 512)} {n : Nat} {i : Fin 512}
    (hp : tableAt s root p = some n) (habsent : present (ent s.mem s.hhdmOffset n i) = false)
    (r : List (Fin 512)) : tableAt s root (p ++ i :: r) = none := by
  have hwalk : walk child (ent s.mem s.hhdmOffset) 0 root p = some n := hp
  rw [tableAt, walk_append, hwalk, Option.bind_some, walk, child_of_not_present habsent]

/-- The new table is the only one. -/
theorem Created.fills {p : List (Fin 512)} {n b : Nat} {i : Fin 512}
    (hc : Created Held s s' root p n i b) (hi : Vmm.Inv Held s root) :
    Fills s s' root {p ++ [i]} := by
  intro q
  rw [Finset.mem_singleton]
  constructor
  · intro hq
    constructor
    · by_contra hold
      -- a walk that passes through the new pointer used to end there
      have hapart : ∀ r, q ≠ p ++ i :: r := by
        rintro r rfl
        exact hold (tableAt_through hc.parent hc.absent r)
      have hsame : tableAt s' root q = tableAt s root q :=
        walk_write hi.tree hc.parent hc.write hapart
      exact hold (hsame.symm.trans hq)
    · rintro rfl
      rw [hc.reach hi] at hq
      cases hq
  · rintro ⟨hq, hne⟩
    by_contra hnew
    obtain ⟨f, hf⟩ := Option.ne_none_iff_exists'.1 hnew
    rcases hc.of_table hi hf with hold | ⟨rfl, -⟩
    · rw [hq] at hold
      cases hold
    · exact hne rfl

/-- The table is made if it is missing, and that needs one frame. -/
theorem getOrCreateTable_makes (hd : DirectMapped entries h) (hzero : ¬Pmm.UsableFrame entries 0)
    (hs : Sound entries h s root) {p : List (Fin 512)} {n k : Nat} {i : Fin 512} (hk : i = k)
    (hp : tableAt s root p = some n) (hlen : p.length ≤ 2)
    (hsmall : present (ent s.mem s.hhdmOffset n i) = true →
      p.length = 0 ∨ huge (ent s.mem s.hhdmOffset n i) = false) :
    Makes s root {p ++ [i]} (getOrCreateTable (ledger entries h) s (add64 n s.hhdmOffset) k
      (pageWrite ||| pagePresent)) Prod.snd := by
  subst hk
  have herases := getOrCreateTable_erases hd hs hp hlen hsmall
  by_cases hpres : present (entry s.mem (add64 n s.hhdmOffset) i) = true
  · -- the table is there
    have hcall : getOrCreateTable (ledger entries h) s (add64 n s.hhdmOffset) i
        (pageWrite ||| pagePresent) =
        .ok (physToVirt s (entry s.mem (add64 n s.hhdmOffset) i &&& physAddrMask), s) :=
      if_pos hpres
    obtain ⟨c, -, hc⟩ := (herases.post _ hcall).table
    have hthere : tableAt s root (p ++ [i]) ≠ none := by
      rw [hc]
      exact Option.some_ne_none c
    rw [hcall]
    constructor
    · rw [missing_singleton, if_neg hthere]
      exact .ok rfl
    · intro r hr q
      rw [← Except.ok.inj hr, Finset.mem_singleton]
      constructor
      · intro hq
        refine ⟨hq, ?_⟩
        rintro rfl
        exact hthere hq
      · exact And.left
  · have habsent : present (ent s.mem s.hhdmOffset n i) = false := Bool.eq_false_of_not_eq_true hpres
    -- a frame is asked for, of which one more is missing
    obtain ⟨⟨phys, w', m'⟩, halloc⟩ : ∃ r, (ledger entries h).pmmAlloc s.pmm s.mem = r := ⟨_, rfl⟩
    obtain ⟨hiff, huses⟩ := hs.books.alloc_needs hzero halloc
    have hmissing : missing s root {p ++ [i]} = 1 := by
      rw [missing_singleton, if_pos (tableAt_through hp habsent [])]
    rw [getOrCreateTable, halloc]
    dsimp only
    rw [if_neg hpres]
    by_cases hne : phys = 0
    · -- no frame is left for it
      rw [if_pos hne]
      constructor
      · rw [hmissing]
        refine .error ?_
        have hnone : ¬0 < left s := fun hpos => hiff.2 hpos hne
        omega
      · intro r hr
        cases hr
    · rw [if_neg hne]
      obtain ⟨⟨ht, -⟩, -⟩ := hs.alloc hd halloc hne
      have hA : Lawful (ledger entries h) Held s.hhdmOffset := by
        rw [hs.hhdm]
        exact ledger_lawful hd
      have hfresh := hA _ _ _ _ _ halloc hne
      have hp' : tableAt { s with pmm := w', mem := m' } root p = some n := by
        rw [(hfresh.tablesKept hs.inv).tableAt]
        exact hp
      constructor
      · rw [hmissing]
        refine .ok ?_
        -- the entry is written into a table, so that no bit of the bitmap moves
        have hwrite := ht.left_setEntry hp' i (phys ||| (pageWrite ||| pagePresent) ||| pagePresent)
        have hless := huses hne s.kernelPml4
        rw [← hwrite] at hless
        exact hless
      · intro r hr
        rw [← Except.ok.inj hr]
        exact Created.fills (created_of_alloc hA hs.inv hp hlen habsent halloc hne) hs.inv

theorem Makes.bind {α β : Type} {x : Except Halt α} {g : α → Ledgered}
    {f : α → Except Halt β} {g' : β → Ledgered} (hx : Makes s root P x g)
    (hf : ∀ a, x = .ok a → Makes (g a) root Q (f a) g') :
    Makes s root (P ∪ Q) (x >>= f) g' := by
  constructor
  · refine hx.needs.bind missing_le_union fun a ha => ?_
    exact ⟨missing (g a) root Q, (hx.fills a ha).missing_add Q, (hf a ha).needs⟩
  · intro b hb
    obtain ⟨a, ha, hb⟩ := bind_eq_ok hb
    exact (hx.fills a ha).trans ((hf a ha).fills b hb)

/-- Writing a leaf makes no table, if it does not replace one. -/
theorem Sound.makes_leaf (hs : Sound entries h s root) {p : List (Fin 512)} {n v : Nat}
    {i : Fin 512} (hp : tableAt s root p = some n) (hv : v < 2 ^ 64)
    (hleaf : child p.length v = none) (hnone : ∀ r, tableAt s root (p ++ i :: r) = none) :
    Makes s root ∅ (.ok (setEntry s (add64 n s.hhdmOffset) i v)) id := by
  constructor
  · exact .ok (hs.left_setEntry hp i v)
  · intro t ht q
    obtain rfl := Except.ok.inj ht
    have hw := hs.inv.write (i := i) hp hv
    have hsame : tableAt (setEntry s (add64 n s.hhdmOffset) i v) root q = tableAt s root q := by
      by_cases hq : ∃ r, q = p ++ i :: r
      · obtain ⟨r, rfl⟩ := hq
        have hthrough := walk_write_through (s := r) hs.inv.tree hp hw
        rw [hleaf] at hthrough
        exact hthrough.trans (hnone r).symm
      · exact walk_write hs.inv.tree hp hw fun r hr => hq ⟨r, hr⟩
    rw [id, hsame]
    simp

/-- The tables on the way to a large page. -/
def upperTables (v : Nat) : Finset (List (Fin 512)) :=
  {[pos (pml4Idx v)]} ∪ {[pos (pml4Idx v), pos (pdptIdx v)]}

/-- The tables on the way to a page. -/
def pageTables (v : Nat) : Finset (List (Fin 512)) :=
  upperTables v ∪ {slot v}

/-- The first two calls of `get_or_create_table`. -/
theorem upperLevels_makes {α : Type} {view : α → Ledgered} {v : Nat}
    {f : Nat → Ledgered → Except Halt α} (hd : DirectMapped entries h)
    (hzero : ¬Pmm.UsableFrame entries 0) (hs : Sound entries h s root)
    (hf : ∀ c t, tableAt t root [pos (pml4Idx v), pos (pdptIdx v)] = some c →
      Sound entries h t root → Grown s t root → Fills s t root (upperTables v) →
      Makes t root Q (f (add64 c t.hhdmOffset) t) view) :
    Makes s root (upperTables v ∪ Q)
      (do let (pdpt, s) ← getOrCreateTable (ledger entries h) s s.kernelPml4 (pml4Idx v)
            (pageWrite ||| pagePresent)
          let (pd, s) ← getOrCreateTable (ledger entries h) s pdpt (pdptIdx v)
            (pageWrite ||| pagePresent)
          f pd s) view := by
  rw [upperTables, Finset.union_assoc, hs.inv.pml4]
  have hempty : tableAt s root [] = some root := rfl
  -- an entry of the root is never a large page
  have hsmall : present (ent s.mem s.hhdmOffset root (pos (pml4Idx v))) = true →
      ([] : List (Fin 512)).length = 0 ∨
        huge (ent s.mem s.hhdmOffset root (pos (pml4Idx v))) = false := fun _ => .inl rfl
  have hmakes := getOrCreateTable_makes hd hzero hs (pos_pml4Idx v) hempty (Nat.zero_le 2) hsmall
  refine Makes.bind hmakes ?_
  rintro ⟨t₁, s₁⟩ h₁
  have hf₁ := hmakes.fills _ h₁
  rw [← pos_pml4Idx v] at h₁
  obtain ⟨⟨c₁, ht₁, hc₁⟩, hs₁, hg₁, -⟩ :=
    (getOrCreateTable_erases hd hs hempty (Nat.zero_le 2) hsmall).post _ h₁
  obtain rfl : t₁ = add64 c₁ s₁.hhdmOffset := ht₁
  dsimp only at hc₁ hs₁ hg₁ hf₁ ⊢
  -- nor is one of the second level, in a tree that this code has made
  have hsmall₁ : present (ent s₁.mem s₁.hhdmOffset c₁ (pos (pdptIdx v))) = true →
      [pos (pml4Idx v)].length = 0 ∨
        huge (ent s₁.mem s₁.hhdmOffset c₁ (pos (pdptIdx v))) = false :=
    fun hpres => .inr (hs₁.inv.upper _ _ _ rfl hc₁ hpres)
  have hmakes₁ := getOrCreateTable_makes hd hzero hs₁ (pos_pdptIdx v) hc₁ (by simp) hsmall₁
  refine Makes.bind hmakes₁ ?_
  rintro ⟨t₂, s₂⟩ h₂
  have hf₂ := hmakes₁.fills _ h₂
  rw [← pos_pdptIdx v] at h₂
  obtain ⟨⟨c₂, ht₂, hc₂⟩, hs₂, hg₂, -⟩ :=
    (getOrCreateTable_erases hd hs₁ hc₁ (by simp) hsmall₁).post _ h₂
  obtain rfl : t₂ = add64 c₂ s₂.hhdmOffset := ht₂
  exact hf c₂ s₂ hc₂ hs₂ (hg₁.trans hg₂) (hf₁.trans hf₂)

/-- There is nothing below a page table. -/
theorem tableAt_deep {p : List (Fin 512)} {n : Nat} {i : Fin 512} (hlen : p.length = 3)
    (hp : tableAt s root p = some n) (r : List (Fin 512)) :
    tableAt s root (p ++ i :: r) = none := by
  have hwalk : walk child (ent s.mem s.hhdmOffset) 0 root p = some n := hp
  have hnone : child (0 + p.length) (ent s.mem s.hhdmOffset n i) = none := by
    rw [hlen]
    exact if_neg fun hc => absurd hc.1 (by decide)
  rw [tableAt, walk_append, hwalk, Option.bind_some, walk, hnone]

/-- `vmm_map` makes the tables on the way to the page, and needs a frame for each that is
missing. -/
theorem vmmMap_makes {v phys flags : Nat} (hd : DirectMapped entries h)
    (hzero : ¬Pmm.UsableFrame entries 0) (hs : Sound entries h s root) (hv : NoHuge s v)
    (hphys : phys < 2 ^ 64) (hflags : flags < 2 ^ 64) :
    Makes s root (pageTables v) (vmmMap (ledger entries h) s v phys flags) id := by
  refine upperLevels_makes (v := v)
    (f := fun pd s => do
      let (pt, s) ← getOrCreateTable (ledger entries h) s pd (pdIdx v) (pageWrite ||| pagePresent)
      return setEntry s pt (ptIdx v) ((phys &&& physAddrMask) ||| flags ||| pagePresent))
    hd hzero hs ?_
  intro c t hc ht hg _
  have hvt := hg.noHuge hs.inv ht.inv hv
  have hsmall : present (ent t.mem t.hhdmOffset c (pos (pdIdx v))) = true →
      [pos (pml4Idx v), pos (pdptIdx v)].length = 0 ∨
        huge (ent t.mem t.hhdmOffset c (pos (pdIdx v))) = false :=
    fun hpres => .inr (pde_small ht.inv hvt hc hpres)
  have hmakes := getOrCreateTable_makes hd hzero ht (pos_pdIdx v) hc (by simp) hsmall
  rw [← Finset.union_empty {slot v}]
  refine Makes.bind hmakes ?_
  rintro ⟨t₃, s₃⟩ h₃
  rw [← pos_pdIdx v] at h₃
  obtain ⟨⟨c₃, ht₃, hc₃⟩, hs₃, -, -⟩ := (getOrCreateTable_erases hd ht hc (by simp) hsmall).post _ h₃
  obtain rfl : t₃ = add64 c₃ s₃.hhdmOffset := ht₃
  dsimp only at hc₃ hs₃ ⊢
  rw [← pos_ptIdx v]
  exact hs₃.makes_leaf hc₃ (pte_lt hphys hflags) (if_neg fun hc => by simp at hc)
    (tableAt_deep rfl hc₃)

/-- There are no page tables. -/
def Shallow (s : Ledgered) (root : Nat) : Prop :=
  ∀ q, 3 ≤ q.length → tableAt s root q = none

theorem length_upperTables {v : Nat} {q : List (Fin 512)} (hq : q ∈ upperTables v) :
    q.length ≤ 2 := by
  rw [upperTables, Finset.mem_union, Finset.mem_singleton, Finset.mem_singleton] at hq
  rcases hq with rfl | rfl
  · simp
  · simp

theorem Fills.shallow (hf : Fills s t root Q) (hs : Shallow s root)
    (hQ : ∀ q ∈ Q, q.length ≤ 2) : Shallow t root := by
  intro q hq
  refine (hf q).2 ⟨hs q hq, fun hmem => ?_⟩
  have hlen := hQ q hmem
  omega

theorem mapHuge_makes {phys : Nat} (hd : DirectMapped entries h)
    (hzero : ¬Pmm.UsableFrame entries 0) (hs : Sound entries h s root) (hshallow : Shallow s root)
    (hphys : phys < 2 ^ 64) :
    Makes s root (upperTables (add64 phys h)) (mapHuge (ledger entries h) s phys) id := by
  have hoff := hs.hhdm
  subst hoff
  set u := add64 phys s.hhdmOffset
  rw [← Finset.union_empty (upperTables u)]
  refine upperLevels_makes (v := u)
    (f := fun pd t => .ok (setEntry t pd (pdIdx u) (directEntry phys))) hd hzero hs ?_
  intro c t hc ht _ hf
  rw [← pos_pdIdx u]
  refine ht.makes_leaf hc (directEntry_lt hphys) (child_of_huge (by simp) (huge_directEntry phys)) ?_
  intro r
  refine hf.shallow hshallow (fun q => length_upperTables) _ ?_
  simp only [List.length_append, List.length_cons, List.length_nil]
  omega

/-- The tables of the direct map. -/
def directTables (h maxPhys : Nat) : Finset (List (Fin 512)) :=
  (Finset.range (hhdmMapSize maxPhys / 0x200000)).biUnion fun k =>
    upperTables (add64 (k * 0x200000) h)

/-- The tables of a range of pages. -/
def rangeTables (virt pages : Nat) : Finset (List (Fin 512)) :=
  (Finset.range pages).biUnion fun j => pageTables (add64 virt (j * pageSize))

/-- What is left of a range behind its first page. -/
theorem biUnion_Ico {k n total : Nat} (hk : k + (n + 1) = total)
    (T : Nat → Finset (List (Fin 512))) :
    (Finset.Ico k total).biUnion T = T k ∪ (Finset.Ico (k + 1) total).biUnion T := by
  have hset : Finset.Ico k total = insert k (Finset.Ico (k + 1) total) := by
    ext j
    rw [Finset.mem_insert, Finset.mem_Ico, Finset.mem_Ico]
    omega
  rw [hset, Finset.biUnion_insert]

/-- The loop over the direct map makes the upper tables of its large pages, each of them once. -/
theorem hhdmLoop_makes {k n total : Nat} (hd : DirectMapped entries h)
    (hzero : ¬Pmm.UsableFrame entries 0) (hs : Sound entries h s root) (hshallow : Shallow s root)
    (htotal : total * 0x200000 < 2 ^ 64) (hk : k + n = total) :
    Makes s root ((Finset.Ico k total).biUnion fun j => upperTables (add64 (j * 0x200000) h))
      (hhdmLoop (ledger entries h) s (k * 0x200000) n) id := by
  induction n generalizing s k with
  | zero =>
      obtain rfl : k = total := hk
      rw [Finset.Ico_self, Finset.biUnion_empty]
      exact ⟨.ok rfl, fun t ht => by
        rw [← Except.ok.inj ht]
        exact .refl s root⟩
  | succ n ih =>
      have hphys : k * 0x200000 < 2 ^ 64 :=
        (Nat.mul_le_mul_right _ (show k ≤ total by omega)).trans_lt htotal
      have hmakes := mapHuge_makes hd hzero hs hshallow hphys
      rw [biUnion_Ico hk]
      refine Makes.bind hmakes ?_
      intro t ht
      have hkept := (mapHuge_erases hd hs hphys).post t ht
      have hshallow' := (hmakes.fills t ht).shallow hshallow fun q => length_upperTables
      rw [add64_stride htotal (by omega)]
      exact ih hkept.1 hshallow' (by omega)

/-- The loop over the pages of the kernel makes all tables on the way to them. -/
theorem kernelLoop_makes {S : List (Fin 512) → Prop} {kernelVirt kernelPhys k n total : Nat}
    (hd : DirectMapped entries h) (hzero : ¬Pmm.UsableFrame entries 0)
    (hs : Sound entries h s root) (hslots : HugeSlots S s root)
    (htotal : total * pageSize < 2 ^ 64) (hk : k + n = total)
    (hout : ∀ j < total, ¬S (slot (add64 kernelVirt (j * pageSize)))) :
    Makes s root ((Finset.Ico k total).biUnion fun j => pageTables (add64 kernelVirt (j * pageSize)))
      (kernelLoop (ledger entries h) s kernelVirt kernelPhys (k * pageSize) n) id := by
  induction n generalizing s k with
  | zero =>
      obtain rfl : k = total := hk
      rw [Finset.Ico_self, Finset.biUnion_empty]
      exact ⟨.ok rfl, fun t ht => by
        rw [← Except.ok.inj ht]
        exact .refl s root⟩
  | succ n ih =>
      have hv := noHuge_of_slots hs.inv hslots (hout k (by omega))
      have hA : Lawful (ledger entries h) Held s.hhdmOffset := by
        rw [hs.hhdm]
        exact ledger_lawful hd
      rw [biUnion_Ico hk]
      refine Makes.bind (vmmMap_makes hd hzero hs hv (add64_lt _ _) (by decide)) ?_
      intro t ht
      have hkept := (vmmMap_erases hd hs hv (add64_lt _ _) (by decide)).post t ht
      obtain ⟨-, hslots', -⟩ := vmmMap_inv hA hs.inv hslots hv (add64_lt _ _) (by decide) ht
      rw [add64_stride htotal (by omega)]
      exact ih hkept.1 hslots' (by omega)

/-- The loop of `vmm_map_region` needs a frame for each page and one for every missing table. -/
theorem regionLoop_needs {virt flags k n total : Nat} (hd : DirectMapped entries h)
    (hzero : ¬Pmm.UsableFrame entries 0) (hs : Sound entries h s root) (hflags : flags < 2 ^ 64)
    (htotal : total * pageSize < 2 ^ 64) (hk : k + n = total)
    (hsmall : ∀ j < total, NoHuge s (add64 virt (j * pageSize))) :
    Needs (left s) (n + missing s root
        ((Finset.Ico k total).biUnion fun j => pageTables (add64 virt (j * pageSize))))
      (regionLoop (ledger entries h) s virt flags (k * pageSize) n) left := by
  have hA : Lawful (ledger entries h) Held s.hhdmOffset := by
    rw [hs.hhdm]
    exact ledger_lawful hd
  induction n generalizing s k with
  | zero =>
      obtain rfl : k = total := hk
      rw [Finset.Ico_self, Finset.biUnion_empty]
      exact .ok rfl
  | succ n ih =>
      rw [biUnion_Ico hk]
      obtain ⟨⟨phys, w', m'⟩, halloc⟩ : ∃ r, (ledger entries h).pmmAlloc s.pmm s.mem = r :=
        ⟨_, rfl⟩
      obtain ⟨hiff, huses⟩ := hs.books.alloc_needs hzero halloc
      rw [regionLoop, halloc]
      dsimp only
      by_cases hne : phys = 0
      · -- no frame is left for the page
        rw [if_pos hne]
        have hnone : ¬0 < left s := fun hpos => hiff.2 hpos hne
        exact .error (by omega)
      rw [if_neg hne]
      obtain ⟨hkept, -⟩ := hs.alloc hd halloc hne
      have hfresh := hA _ _ _ _ _ halloc hne
      have hless := huses hne s.kernelPml4
      have hv := hsmall k (by omega)
      have htables := (hfresh.tablesKept hs.inv).tableAt
      obtain ⟨t, ht⟩ : ∃ t : Ledgered, t = { s with pmm := w', mem := m' } := ⟨_, rfl⟩
      rw [← ht] at hkept hless htables ⊢
      -- the frame of the page changes no table, so that as many tables are missing as before
      have hvt : NoHuge t (add64 virt (k * pageSize)) := by
        rw [noHuge_place hkept.1.inv, ht, funext (hfresh.tablesKept hs.inv).place,
          ← noHuge_place hs.inv]
        exact hv
      have hmissing : ∀ Q, missing s root Q = missing t root Q := by
        intro Q
        unfold missing
        simp only [htables]
      have hmakes := vmmMap_makes hd hzero hkept.1 hvt hfresh.frame.lt hflags
      rw [hmissing, ← hless, Nat.add_right_comm]
      refine Needs.add (Needs.bind hmakes.needs (missing_le_union.trans (Nat.le_add_left _ n)) ?_) 1
      intro u hu
      have hmapped := (vmmMap_erases hd hkept.1 hvt hfresh.frame.lt hflags).post u hu
      set Q := (Finset.Ico (k + 1) total).biUnion fun j => pageTables (add64 virt (j * pageSize))
      -- the tables of this page are there for the others as well
      have hadd : missing t root (pageTables (add64 virt (k * pageSize))) + missing u root Q =
        missing t root (pageTables (add64 virt (k * pageSize)) ∪ Q) :=
          (hmakes.fills u hu).missing_add Q
      rw [add64_stride htotal (by omega)]
      refine ⟨n + missing u root Q, by omega, ih hmapped.1 (by omega) ?_ ?_⟩
      · intro j hj
        have hround : Mapped Held s u root (add64 virt (k * pageSize)) phys flags := by
          rw [ht] at hu
          exact region_round hA hs.inv hv hflags halloc hne hu
        exact Mapped.noHuge hround hs.inv (hsmall j hj)
      · have hoff : u.hhdmOffset = h := hmapped.1.hhdm
        change Lawful (ledger entries h) Held u.hhdmOffset
        rw [hoff]
        exact ledger_lawful hd

theorem vmmMapRegion_needs {virt size flags : Nat} (hd : DirectMapped entries h)
    (hzero : ¬Pmm.UsableFrame entries 0) (hs : Sound entries h s root) (hflags : flags < 2 ^ 64)
    (hsize : size + 4095 < 2 ^ 64) (hsmall : RegionSmall s virt size) :
    Needs (left s) (regionPages size + missing s root (rangeTables virt (regionPages size)))
      (vmmMapRegion (ledger entries h) s virt size flags) left := by
  have htotal : regionPages size * pageSize < 2 ^ 64 := by
    unfold regionPages pageSize
    omega
  rw [vmmMapRegion, alignedSize_pages hsize, rangeTables, Finset.range_eq_Ico]
  exact regionLoop_needs (k := 0) hd hzero hs hflags htotal (Nat.zero_add _) hsmall

/-- Below an empty PML4 every table is missing. -/
theorem Started.missing (hst : Started entries h s t root) (hQ : [] ∉ Q) :
    missing t root Q = Q.card := by
  unfold Mm.missing
  rw [Finset.filter_true_of_mem]
  intro q hq
  by_contra hthere
  obtain ⟨f, hf⟩ := Option.ne_none_iff_exists'.1 hthere
  rw [(tableAt_fresh hst.empty hf).1] at hq
  exact hQ hq

theorem nil_notMem_upperTables (v : Nat) : [] ∉ upperTables v := by
  simp [upperTables]

theorem nil_notMem_tables {h' maxPhys virt pages : Nat} :
    [] ∉ directTables h' maxPhys ∪ rangeTables virt pages := by
  rw [Finset.mem_union, not_or]
  constructor
  · intro hmem
    obtain ⟨k, -, hk⟩ := Finset.mem_biUnion.1 hmem
    exact nil_notMem_upperTables _ hk
  · intro hmem
    obtain ⟨j, -, hj⟩ := Finset.mem_biUnion.1 hmem
    rw [pageTables, Finset.mem_union, Finset.mem_singleton] at hj
    rcases hj with hj | hj
    · exact nil_notMem_upperTables _ hj
    · cases hj

/-- `vmm_init` needs the root and the tables of both ranges, of which each is counted once. -/
theorem vmmInit_needs {kernelPhys kernelVirt kernelSize maxPhys : Nat}
    (hd : DirectMapped entries h) (hzero : ¬Pmm.UsableFrame entries 0)
    (hb : Books entries h s.pmm s.mem) (hoff : s.hhdmOffset = h)
    (hmax : maxPhysAtInit (ledger entries h) s = maxPhys)
    (hout : KernelOutside h maxPhys kernelVirt kernelSize) :
    Needs (left s) ((directTables h maxPhys ∪
        rangeTables kernelVirt (ksizeAligned kernelSize / pageSize)).card + 1)
      (vmmInit (ledger entries h) s kernelPhys kernelVirt kernelSize) left := by
  obtain ⟨⟨phys, w', m'⟩, halloc⟩ : ∃ r, (ledger entries h).pmmAlloc s.pmm s.mem = r := ⟨_, rfl⟩
  obtain ⟨hiff, huses⟩ := hb.alloc_needs hzero halloc
  rw [maxPhysAtInit, halloc] at hmax
  rw [vmmInit, halloc]
  dsimp only at hmax ⊢
  rw [hmax]
  by_cases hne : phys = 0
  · -- no frame is left for the PML4
    rw [if_pos hne]
    have hnone : ¬0 < left s := fun hpos => hiff.2 hpos hne
    exact .error (by omega)
  rw [if_neg hne]
  have hst := started_of_alloc hd hoff halloc hne
  have hless := huses hne (physToVirt s phys)
  obtain ⟨t, ht⟩ : ∃ t : Ledgered, t = ⟨m', s.hhdmOffset, physToVirt s phys, w'⟩ := ⟨_, rfl⟩
  rw [← ht] at hst hless ⊢
  rw [← hless, ← hst.missing nil_notMem_tables]
  -- the new root is empty, so that the loops make each table once
  have hshallow : Shallow t phys := by
    intro q hq
    by_contra hthere
    obtain ⟨f, hf⟩ := Option.ne_none_iff_exists'.1 hthere
    rw [(tableAt_fresh hst.empty hf).1] at hq
    cases hq
  have htotal : hhdmMapSize maxPhys / 0x200000 * 0x200000 < 2 ^ 64 :=
    (Nat.div_mul_le_self _ _).trans_lt (and_right_lt _ (by decide))
  have hdirect := hhdmLoop_makes (k := 0) hd hzero hst.sound hshallow htotal (Nat.zero_add _)
  refine Needs.add (Makes.bind (P := directTables h maxPhys) (g := id) ?_ ?_).needs 1
  · rw [directTables, Finset.range_eq_Ico]
    exact hdirect
  · intro u hloop
    have hslots := hst.slots hd hloop
    have hkept := (hhdmLoop_erases hd hst.sound (by decide)).post u hloop
    rw [rangeTables, Finset.range_eq_Ico]
    exact kernelLoop_makes (k := 0) hd hzero hkept.1 hslots (imagePages_lt kernelSize)
      (Nat.zero_add _) fun j hj hin => hout j hj (directSlots_slot_iff.mp hin)

end PolandOS.Mm
