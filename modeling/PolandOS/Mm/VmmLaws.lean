import PolandOS.Mm.Vmm
import PolandOS.Lib.Radix
import PolandOS.Lib.Runs
import Mathlib.Data.List.Basic

/-! # Page-table map laws

The tables in memory are a radix tree of depth four over frames: the entry at
depth `d` of a frame either points to the frame of the next table or ends the
walk. The invariant of runs is that the tree shares no table frame between two
parents; it holds after `vmm_init` and each call that meets no large page keeps
it.

* `page_map_laws`: after `vmm_map` a page translates to the frame it was mapped
  to, after `vmm_unmap` to 0, and no other page is affected.
-/

namespace PolandOS.Vmm

open ByteMem Radix Runs

/-! ## Frames and entries -/

/-- A page-aligned physical address of at most 52 bits. -/
def Frame (f : Nat) : Prop := pageSize ∣ f ∧ f < 2 ^ 52

theorem and_physAddrMask (x : Nat) : x &&& physAddrMask = x / 2 ^ 12 % 2 ^ 40 * 2 ^ 12 := by
  have hmask : physAddrMask = (2 ^ 40 - 1) * 2 ^ 12 := by decide
  apply Nat.eq_of_testBit_eq
  intro i
  rw [hmask, Nat.testBit_and, Nat.testBit_mul_two_pow, Nat.testBit_mul_two_pow,
    Nat.testBit_two_pow_sub_one, Nat.testBit_mod_two_pow, Nat.testBit_div_two_pow]
  by_cases hi : 12 ≤ i
  · have hsub : i - 12 + 12 = i := by omega
    rw [hsub]
    simp [hi, Bool.and_comm]
  · simp [hi]

theorem frame_and_mask (x : Nat) : Frame (x &&& physAddrMask) := by
  rw [and_physAddrMask]
  refine ⟨Nat.dvd_mul_left _ _, ?_⟩
  have := Nat.mod_lt (x / 2 ^ 12) (show 2 ^ 40 > 0 by decide)
  omega

theorem Frame.and_mask {f : Nat} (h : Frame f) : f &&& physAddrMask = f := by
  obtain ⟨hd, hlt⟩ := h
  rw [and_physAddrMask]
  unfold pageSize at hd
  omega

/-- Entry `i` of the table in frame `f`, seen through the direct map at `h`. -/
def ent (m : Mem) (h f : Nat) (i : Fin 512) : Nat := entry m (add64 f h) i

/-- Byte `k` of an entry. -/
theorem entry_byte (f h i k : Nat) :
    byteAt (add64 (add64 f h) (8 * i)) k = byteAt h (f + 8 * i + k) := by
  unfold byteAt add64
  omega

theorem ent_congr {m m' : Mem} {f h : Nat} (i : Fin 512)
    (hm : ∀ k < pageSize, m' (byteAt h (f + k)) = m (byteAt h (f + k))) :
    ent m' h f i = ent m h f i := by
  apply readLE_congr
  intro k hk
  rw [entry_byte, Nat.add_assoc]
  refine hm _ ?_
  have := i.isLt
  unfold pageSize
  omega

theorem ent_zero {m : Mem} {f h : Nat} (i : Fin 512)
    (hm : ∀ k < pageSize, m (byteAt h (f + k)) = 0) : ent m h f i = 0 := by
  apply readLE_zero
  intro k hk
  rw [entry_byte, Nat.add_assoc]
  refine hm _ ?_
  have := i.isLt
  unfold pageSize
  omega

theorem ent_write_self {m : Mem} {f h v : Nat} (i : Fin 512) (hv : v < 2 ^ 64) :
    ent (writeLE m (add64 (add64 f h) (8 * i)) 8 v) h f i = v := by
  unfold ent entry
  rw [readLE_writeLE _ _ (by decide)]
  exact Nat.mod_eq_of_lt hv

theorem ent_write_ne {m : Mem} {f g h : Nat} (v : Nat) {i j : Fin 512} (hf : Frame f)
    (hg : Frame g) (hne : g ≠ f ∨ j ≠ i) :
    ent (writeLE m (add64 (add64 f h) (8 * i)) 8 v) h g j = ent m h g j := by
  apply readLE_writeLE_apart
  intro k hk l hl heq
  rw [entry_byte, entry_byte] at heq
  have hi := i.isLt
  have hj := j.isLt
  obtain ⟨hfd, hflt⟩ := hf
  obtain ⟨hgd, hglt⟩ := hg
  unfold pageSize at hfd hgd
  have hoff := byteAt_inj (by omega) (by omega) heq
  have hfg : g = f := by omega
  have hij : (j : Nat) = i := by omega
  rcases hne with hne | hne
  · exact hne hfg
  · exact hne (Fin.ext hij)

/-! ## The tree of tables -/

/-- The table an entry at depth `d` points to: the PML4 is at depth 0, a page
table at depth 3. -/
def child (d e : Nat) : Option Nat :=
  if d ≤ 2 ∧ present e = true ∧ (d = 0 ∨ huge e = false) then some (e &&& physAddrMask) else none

/-- An index as a position in a table. -/
def pos (n : Nat) : Fin 512 := ⟨n % 512, Nat.mod_lt _ (by decide)⟩

/-- The four indices of an address. -/
def path (v : Nat) : List (Fin 512) :=
  [pos (pml4Idx v), pos (pdptIdx v), pos (pdIdx v), pos (ptIdx v)]

/-- Where the walk of an address stops. -/
def lookup (m : Mem) (h root v : Nat) : Nat × Nat :=
  stop child (ent m h) 0 root (pos (pml4Idx v)) [pos (pdptIdx v), pos (pdIdx v), pos (ptIdx v)]

/-- What `vmm_get_phys` returns for an address whose walk stops there. -/
def translate (v : Nat) (r : Nat × Nat) : Nat :=
  if !present r.2 then 0
  else if r.1 = 1 then (r.2 &&& (2 ^ 64 - 2 ^ 30)) ||| (v &&& 0x3FFFFFFF)
  else if r.1 = 2 then (r.2 &&& (2 ^ 64 - 2 ^ 21)) ||| (v &&& 0x1FFFFF)
  else (r.2 &&& physAddrMask) ||| (v &&& 0xFFF)

/-- The walk of `virt` meets no `PAGE_HUGE` entry. -/
def NoHuge {σ : Type} (s : VmmState σ) (virt : Nat) : Prop :=
  let pml4e := entry s.mem s.kernelPml4 (pml4Idx virt)
  let pdpte := entry s.mem (physToVirt s (pml4e &&& physAddrMask)) (pdptIdx virt)
  let pde := entry s.mem (physToVirt s (pdpte &&& physAddrMask)) (pdIdx virt)
  present pml4e → present pdpte → huge pdpte = false ∧ (present pde → huge pde = false)

/-- Two addresses agree in bits 12 to 47. -/
def SamePage (v w : Nat) : Prop := (v >>> 12) &&& (2 ^ 36 - 1) = (w >>> 12) &&& (2 ^ 36 - 1)

theorem idx_eq (v k : Nat) : (v >>> k) &&& 0x1FF = v / 2 ^ k % 512 := by
  rw [Nat.shiftRight_eq_div_pow]
  exact Nat.and_two_pow_sub_one_eq_mod _ 9

@[simp] theorem pos_pml4Idx (v : Nat) : (pos (pml4Idx v) : Nat) = pml4Idx v := by
  simp [pos, pml4Idx, idx_eq]

@[simp] theorem pos_pdptIdx (v : Nat) : (pos (pdptIdx v) : Nat) = pdptIdx v := by
  simp [pos, pdptIdx, idx_eq]

@[simp] theorem pos_pdIdx (v : Nat) : (pos (pdIdx v) : Nat) = pdIdx v := by
  simp [pos, pdIdx, idx_eq]

@[simp] theorem pos_ptIdx (v : Nat) : (pos (ptIdx v) : Nat) = ptIdx v := by
  simp [pos, ptIdx, idx_eq]

theorem pos_eq_iff (a b : Nat) : pos a = pos b ↔ a % 512 = b % 512 := by
  simp [pos, Fin.ext_iff]

/-- The indices are bits 12 to 47 cut into four. -/
theorem path_eq_iff (v w : Nat) : path v = path w ↔ SamePage v w := by
  have hbits : ∀ x, (x >>> 12) &&& (2 ^ 36 - 1) = x / 2 ^ 12 % 2 ^ 36 := fun x => by
    rw [Nat.shiftRight_eq_div_pow, Nat.and_two_pow_sub_one_eq_mod]
  simp only [path, List.cons.injEq, pos_eq_iff, pml4Idx, pdptIdx, pdIdx, ptIdx, idx_eq, SamePage,
    hbits, and_true]
  omega

section

variable {σ : Type} {s : VmmState σ} {root : Nat}

theorem entry_eq_ent (m : Mem) (h f n : Nat) (hn : n < 512) :
    entry m (add64 f h) n = ent m h f (pos n) := by
  simp only [ent, pos, Nat.mod_eq_of_lt hn]

theorem pml4Idx_lt (v : Nat) : pml4Idx v < 512 := by
  rw [pml4Idx, idx_eq]
  exact Nat.mod_lt _ (by decide)

theorem pdptIdx_lt (v : Nat) : pdptIdx v < 512 := by
  rw [pdptIdx, idx_eq]
  exact Nat.mod_lt _ (by decide)

theorem pdIdx_lt (v : Nat) : pdIdx v < 512 := by
  rw [pdIdx, idx_eq]
  exact Nat.mod_lt _ (by decide)

theorem ptIdx_lt (v : Nat) : ptIdx v < 512 := by
  rw [ptIdx, idx_eq]
  exact Nat.mod_lt _ (by decide)

theorem child_of_not_present {d e : Nat} (h : present e = false) : child d e = none :=
  if_neg fun hc => by simp [h] at hc

theorem child_of_huge {d e : Nat} (hd : d ≠ 0) (h : huge e = true) : child d e = none :=
  if_neg fun hc => by simp [h, hd] at hc

theorem child_eq {d e : Nat} (hd : d ≤ 2) (hp : present e = true) (hh : d = 0 ∨ huge e = false) :
    child d e = some (e &&& physAddrMask) :=
  if_pos ⟨hd, hp, hh⟩

theorem huge_of_child_none {d e : Nat} (hd : d ≤ 2) (hp : present e = true)
    (h : child d e = none) : d ≠ 0 ∧ huge e = true := by
  constructor
  · rintro rfl
    rw [child_eq hd hp (Or.inl rfl)] at h
    cases h
  · by_contra hsmall
    rw [child_eq hd hp (Or.inr (by simpa using hsmall))] at h
    cases h

/-- `vmm_get_phys` is the lookup in the tree of tables. -/
theorem vmmGetPhys_eq (hroot : s.kernelPml4 = add64 root s.hhdmOffset) (hnull : s.kernelPml4 ≠ 0)
    (v : Nat) : vmmGetPhys s v = translate v (lookup s.mem s.hhdmOffset root v) := by
  unfold vmmGetPhys
  rw [if_neg hnull]
  simp only [hroot, physToVirt, entry_eq_ent _ _ _ _ (pml4Idx_lt v),
    entry_eq_ent _ _ _ _ (pdptIdx_lt v), entry_eq_ent _ _ _ _ (pdIdx_lt v),
    entry_eq_ent _ _ _ _ (ptIdx_lt v), lookup, stop]
  generalize ent s.mem s.hhdmOffset root (pos (pml4Idx v)) = e0
  cases h0 : present e0 with
  | false => simp [child_of_not_present h0, translate, h0]
  | true =>
      simp only [child_eq (show 0 ≤ 2 by decide) h0 (Or.inl rfl)]
      generalize ent s.mem s.hhdmOffset (e0 &&& physAddrMask) (pos (pdptIdx v)) = e1
      cases h1 : present e1 with
      | false => simp [child_of_not_present h1, translate, h1]
      | true =>
          cases g1 : huge e1 with
          | true => simp [child_of_huge (show 1 ≠ 0 by decide) g1, translate, h1]
          | false =>
              simp only [child_eq (show 1 ≤ 2 by decide) h1 (Or.inr g1)]
              generalize ent s.mem s.hhdmOffset (e1 &&& physAddrMask) (pos (pdIdx v)) = e2
              cases h2 : present e2 with
              | false => simp [child_of_not_present h2, translate, h2]
              | true =>
                  cases g2 : huge e2 with
                  | true => simp [child_of_huge (show 2 ≠ 0 by decide) g2, translate, h2]
                  | false =>
                      simp only [child_eq (show 2 ≤ 2 by decide) h2 (Or.inr g2)]
                      simp [translate]

/-- No large page is on the way exactly if a walk that arrives has gone down to the last level. -/
theorem noHuge_iff (hroot : s.kernelPml4 = add64 root s.hhdmOffset) (v : Nat) :
    NoHuge s v ↔ (present (lookup s.mem s.hhdmOffset root v).2 = true →
      (lookup s.mem s.hhdmOffset root v).1 = 3) := by
  unfold NoHuge
  simp only [hroot, physToVirt, entry_eq_ent _ _ _ _ (pml4Idx_lt v),
    entry_eq_ent _ _ _ _ (pdptIdx_lt v), entry_eq_ent _ _ _ _ (pdIdx_lt v), lookup, stop]
  generalize ent s.mem s.hhdmOffset root (pos (pml4Idx v)) = e0
  cases h0 : present e0 with
  | false => simp [child_of_not_present h0, h0]
  | true =>
      simp only [child_eq (show 0 ≤ 2 by decide) h0 (Or.inl rfl)]
      generalize ent s.mem s.hhdmOffset (e0 &&& physAddrMask) (pos (pdptIdx v)) = e1
      cases h1 : present e1 with
      | false => simp [child_of_not_present h1, h1]
      | true =>
          cases g1 : huge e1 with
          | true => simp [child_of_huge (show 1 ≠ 0 by decide) g1, h1]
          | false =>
              simp only [child_eq (show 1 ≤ 2 by decide) h1 (Or.inr g1)]
              generalize ent s.mem s.hhdmOffset (e1 &&& physAddrMask) (pos (pdIdx v)) = e2
              cases h2 : present e2 with
              | false => simp [child_of_not_present h2, h2]
              | true =>
                  cases g2 : huge e2 with
                  | true => simp [child_of_huge (show 2 ≠ 0 by decide) g2, h2]
                  | false =>
                      simp only [child_eq (show 2 ≤ 2 by decide) h2 (Or.inr g2)]
                      simp

/-! ## The invariant -/

/-- The table reached along a path of indices. -/
def tableAt (s : VmmState σ) (root : Nat) (q : List (Fin 512)) : Option Nat :=
  walk child (ent s.mem s.hhdmOffset) 0 root q

/-- The tables form a tree of frames in use, and no PDPT maps a large page. -/
structure Inv (inUse : σ → Nat → Prop) (s : VmmState σ) (root : Nat) : Prop where
  pml4 : s.kernelPml4 = add64 root s.hhdmOffset
  notNull : s.kernelPml4 ≠ 0
  tree : Tree child (ent s.mem s.hhdmOffset) root
  frames : ∀ q f, tableAt s root q = some f → Frame f ∧ inUse s.pmm f
  upper : ∀ q f i, q.length = 1 → tableAt s root q = some f →
    present (ent s.mem s.hhdmOffset f i) = true → huge (ent s.mem s.hhdmOffset f i) = false

/-- What filling in missing levels does: walks are at most continued, into empty
tables, and no large page appears. -/
structure Grown (s s' : VmmState σ) (root : Nat) : Prop where
  hhdm : s'.hhdmOffset = s.hhdmOffset
  lookup : ∀ v, lookup s'.mem s'.hhdmOffset root v = lookup s.mem s.hhdmOffset root v ∨
    (present (lookup s.mem s.hhdmOffset root v).2 = false ∧
      present (lookup s'.mem s'.hhdmOffset root v).2 = false)
  huge : ∀ q f j, tableAt s' root q = some f → huge (ent s'.mem s'.hhdmOffset f j) = true →
    tableAt s root q = some f ∧ huge (ent s.mem s.hhdmOffset f j) = true

theorem Grown.refl (s : VmmState σ) (root : Nat) : Grown s s root :=
  ⟨rfl, fun _ => Or.inl rfl, fun _ _ _ h h' => ⟨h, h'⟩⟩

theorem Grown.trans {s₁ s₂ : VmmState σ} (h : Grown s s₁ root) (h' : Grown s₁ s₂ root) :
    Grown s s₂ root := by
  refine ⟨h'.hhdm.trans h.hhdm, fun v => ?_, fun q f j hq hg => ?_⟩
  · rcases h.lookup v with h1 | h1
    · rcases h'.lookup v with h2 | h2
      · exact Or.inl (h2.trans h1)
      · rw [h1] at h2
        exact Or.inr h2
    · rcases h'.lookup v with h2 | h2
      · rw [← h2] at h1
        exact Or.inr h1
      · exact Or.inr ⟨h1.1, h2.2⟩
  · obtain ⟨hq, hg⟩ := h'.huge q f j hq hg
    exact h.huge q f j hq hg

/-- Frames in use stay in use, and new tables lie in frames that were not. -/
structure Drawn (inUse : σ → Nat → Prop) (s s' : VmmState σ) (root : Nat) : Prop where
  keeps : ∀ f, inUse s.pmm f → inUse s'.pmm f
  tables : ∀ q f, tableAt s' root q = some f → tableAt s root q = some f ∨ ¬inUse s.pmm f

theorem Drawn.refl (inUse : σ → Nat → Prop) (s : VmmState σ) (root : Nat) :
    Drawn inUse s s root :=
  ⟨fun _ h => h, fun _ _ h => Or.inl h⟩

theorem Drawn.trans {inUse : σ → Nat → Prop} {s₁ s₂ : VmmState σ} (h : Drawn inUse s s₁ root)
    (h' : Drawn inUse s₁ s₂ root) : Drawn inUse s s₂ root := by
  refine ⟨fun f hf => h'.keeps f (h.keeps f hf), fun q f hq => ?_⟩
  rcases h'.tables q f hq with hq | hfree
  · exact h.tables q f hq
  · exact Or.inr fun hf => hfree (h.keeps f hf)

theorem translate_of_not_present {v : Nat} {r : Nat × Nat} (h : present r.2 = false) :
    translate v r = 0 := by
  simp [translate, h]

variable {inUse : σ → Nat → Prop}

/-- Filling in levels changes no translation. -/
theorem Grown.getPhys {s' : VmmState σ} (hg : Grown s s' root) (hi : Inv inUse s root)
    (hi' : Inv inUse s' root) (v : Nat) : vmmGetPhys s' v = vmmGetPhys s v := by
  rw [vmmGetPhys_eq hi.pml4 hi.notNull, vmmGetPhys_eq hi'.pml4 hi'.notNull]
  rcases hg.lookup v with h | ⟨h, h'⟩
  · rw [h]
  · rw [translate_of_not_present h, translate_of_not_present h']

theorem Grown.noHuge {s' : VmmState σ} (hg : Grown s s' root) (hi : Inv inUse s root)
    (hi' : Inv inUse s' root) {v : Nat} (h : NoHuge s v) : NoHuge s' v := by
  rw [noHuge_iff hi.pml4] at h
  rw [noHuge_iff hi'.pml4]
  rcases hg.lookup v with h1 | ⟨-, h1⟩
  · rwa [h1]
  · intro h2
    rw [h1] at h2
    cases h2

/-! ## Writing a leaf -/

section

variable {p : List (Fin 512)} {n v : Nat} {i : Fin 512}

theorem Inv.write (hi : Inv inUse s root) (hp : tableAt s root p = some n) (hv : v < 2 ^ 64) :
    Write child (ent s.mem s.hhdmOffset)
      (ent (setEntry s (add64 n s.hhdmOffset) i v).mem s.hhdmOffset) root n i v :=
  ⟨ent_write_self i hv, fun q c _ hq hne =>
    ent_write_ne v (hi.frames p n hp).1 (hi.frames q c hq).1 hne⟩

/-- Every table there is after a leaf was written was there before, and every
entry but the one written is as it was. -/
theorem Inv.of_write_leaf (hi : Inv inUse s root) (hp : tableAt s root p = some n)
    (hv : v < 2 ^ 64) (hleaf : child p.length v = none) {q : List (Fin 512)} {f : Nat}
    (h : tableAt (setEntry s (add64 n s.hhdmOffset) i v) root q = some f) :
    tableAt s root q = some f := by
  have hw := hi.write (i := i) hp hv
  by_cases hq : ∃ r, q = p ++ i :: r
  · obtain ⟨r, rfl⟩ := hq
    have hthrough := walk_write_through (s := r) hi.tree hp hw
    rw [hleaf] at hthrough
    exact absurd (h.symm.trans hthrough) (by simp)
  · exact (walk_write hi.tree hp hw fun r hr => hq ⟨r, hr⟩).symm.trans h

theorem Inv.write_leaf (hi : Inv inUse s root) (hp : tableAt s root p = some n)
    (hv : v < 2 ^ 64) (hleaf : child p.length v = none) (hdeep : 2 ≤ p.length) :
    Inv inUse (setEntry s (add64 n s.hhdmOffset) i v) root := by
  have hw := hi.write (i := i) hp hv
  refine ⟨hi.pml4, hi.notNull, hi.tree.write_leaf hp hw hleaf,
    fun q f h => hi.frames q f (hi.of_write_leaf hp hv hleaf h), ?_⟩
  intro q f j hlen h
  have hold := hi.of_write_leaf hp hv hleaf h
  have hne : f ≠ n := by
    rintro rfl
    have hqp := congrArg List.length (hi.tree q p f hold hp)
    omega
  have hsame : ent (setEntry s (add64 n s.hhdmOffset) i v).mem s.hhdmOffset f j =
      ent s.mem s.hhdmOffset f j := hw.other q f j hold (Or.inl hne)
  change present (ent (setEntry s (add64 n s.hhdmOffset) i v).mem s.hhdmOffset f j) = true →
    huge (ent (setEntry s (add64 n s.hhdmOffset) i v).mem s.hhdmOffset f j) = false
  rw [hsame]
  exact hi.upper q f j hlen hold

end

/-! ## get_or_create_table -/

/-- What is relied on of a frame from `pmm_alloc`: it is a page of the direct
map, not in use before and in use from then on, its bytes are zero and those of
the frames already in use are unchanged. -/
structure FreshFrame (inUse : σ → Nat → Prop) (h : Nat) (pmm : σ) (m : Mem) (phys : Nat)
    (pmm' : σ) (m' : Mem) : Prop where
  frame : Frame phys
  mapped : phys + h < 2 ^ 64
  fresh : ¬inUse pmm phys
  taken : inUse pmm' phys
  keeps : ∀ f, inUse pmm f → inUse pmm' f
  zeroed : ∀ k < pageSize, m' (byteAt h (phys + k)) = 0
  others : ∀ f, inUse pmm f → ∀ k < pageSize, m' (byteAt h (f + k)) = m (byteAt h (f + k))

/-- `pmm_alloc` fails or returns a zeroed frame that is not in use. -/
def Lawful (A : Allocator σ) (inUse : σ → Nat → Prop) (h : Nat) : Prop :=
  ∀ pmm m phys pmm' m', A.pmmAlloc pmm m = (phys, pmm', m') → phys ≠ 0 →
    FreshFrame inUse h pmm m phys pmm' m'

/-- The entry by which a table points to a new one. -/
def tableEntry (phys : Nat) : Nat := phys ||| (pageWrite ||| pagePresent) ||| pagePresent

theorem present_eq_testBit (e : Nat) : present e = e.testBit 0 := by
  rw [present, pagePresent, Nat.and_two_pow]
  cases e.testBit 0 <;> rfl

theorem huge_eq_testBit (e : Nat) : huge e = e.testBit 7 := by
  rw [huge, pageHuge, Nat.and_two_pow]
  cases e.testBit 7 <;> rfl

theorem present_or (x : Nat) : present (x ||| pagePresent) = true := by
  simp [present_eq_testBit, pagePresent]

theorem or_lt {a b : Nat} (ha : a < 2 ^ 64) (hb : b < 2 ^ 64) : a ||| b < 2 ^ 64 :=
  Nat.or_lt_two_pow ha hb

theorem Frame.lt {f : Nat} (h : Frame f) : f < 2 ^ 64 := by
  have := h.2
  omega

theorem tableEntry_lt {f : Nat} (h : Frame f) : tableEntry f < 2 ^ 64 :=
  or_lt (or_lt h.lt (by decide)) (by decide)

theorem tableEntry_and_mask {f : Nat} (h : Frame f) : tableEntry f &&& physAddrMask = f := by
  rw [tableEntry, Nat.or_assoc, Nat.and_or_distrib_right, h.and_mask]
  exact Nat.or_zero f

theorem huge_tableEntry {f : Nat} (h : Frame f) : huge (tableEntry f) = false := by
  have hf : f &&& pageHuge = 0 := by
    rw [← h.and_mask, Nat.and_assoc]
    exact Nat.and_zero _
  have hval : tableEntry f &&& pageHuge = 0 := by
    rw [tableEntry, Nat.or_assoc, Nat.and_or_distrib_right, hf]
    rfl
  simp [huge, hval]

theorem child_tableEntry {d f : Nat} (hd : d ≤ 2) (h : Frame f) :
    child d (tableEntry f) = some f := by
  have hp : present (tableEntry f) = true := present_or _
  rw [child_eq hd hp (Or.inr (huge_tableEntry h)), tableEntry_and_mask h]

theorem present_zero : present 0 = false := by decide

variable {A : Allocator σ} {p : List (Fin 512)} {n : Nat} {i : Fin 512}

/-- Entry `i` of the table `n` was absent and now points to the new, empty table `b`. -/
structure Created (inUse : σ → Nat → Prop) (s s' : VmmState σ) (root : Nat)
    (p : List (Fin 512)) (n : Nat) (i : Fin 512) (b : Nat) : Prop where
  hhdm : s'.hhdmOffset = s.hhdmOffset
  pml4 : s'.kernelPml4 = s.kernelPml4
  parent : tableAt s root p = some n
  depth : p.length ≤ 2
  absent : present (ent s.mem s.hhdmOffset n i) = false
  write : Write child (ent s.mem s.hhdmOffset) (ent s'.mem s'.hhdmOffset) root n i (tableEntry b)
  frame : Frame b
  fresh : ∀ q, tableAt s root q ≠ some b
  empty : ∀ j, ent s'.mem s'.hhdmOffset b j = 0
  taken : inUse s'.pmm b
  keeps : ∀ f, inUse s.pmm f → inUse s'.pmm f

/-- The branch of `get_or_create_table` that allocates. -/
theorem created_of_alloc (hA : Lawful A inUse s.hhdmOffset) (hi : Inv inUse s root)
    (hp : tableAt s root p = some n) (hlen : p.length ≤ 2)
    (habs : present (ent s.mem s.hhdmOffset n i) = false) {b : Nat} {pmm' : σ} {m' : Mem}
    (halloc : A.pmmAlloc s.pmm s.mem = (b, pmm', m')) (hb : b ≠ 0) :
    Created inUse s (setEntry { s with pmm := pmm', mem := m' } (add64 n s.hhdmOffset) i
      (tableEntry b)) root p n i b := by
  obtain ⟨hframe, -, hfresh, htaken, hkeeps, hzeroed, hothers⟩ := hA _ _ _ _ _ halloc hb
  have hnotIn : ∀ q, tableAt s root q ≠ some b := fun q hq => hfresh (hi.frames q b hq).2
  have hnf := (hi.frames p n hp).1
  refine ⟨rfl, rfl, hp, hlen, habs, ⟨ent_write_self i (tableEntry_lt hframe), ?_⟩, hframe, hnotIn,
    ?_, htaken, hkeeps⟩
  · intro q c j hq hne
    refine (ent_write_ne _ hnf (hi.frames q c hq).1 hne).trans ?_
    exact ent_congr j (hothers c (hi.frames q c hq).2)
  · intro j
    have hne : b ≠ n := fun h => hnotIn p (h ▸ hp)
    refine (ent_write_ne _ hnf hframe (Or.inl hne)).trans ?_
    exact ent_zero j hzeroed

section

variable {s' : VmmState σ} {b : Nat} {q : List (Fin 512)} {f : Nat} {j : Fin 512}

theorem Created.child_eq (hc : Created inUse s s' root p n i b) :
    child p.length (tableEntry b) = some b :=
  child_tableEntry hc.depth hc.frame

theorem Created.child_none (hc : Created inUse s s' root p n i b) (j : Fin 512) :
    child (p.length + 1) (ent s'.mem s'.hhdmOffset b j) = none := by
  rw [hc.empty]
  exact child_of_not_present present_zero

theorem Created.reach (hc : Created inUse s s' root p n i b) (hi : Inv inUse s root) :
    tableAt s' root (p ++ [i]) = some b := by
  have hthrough := walk_write_through (s := []) hi.tree hc.parent hc.write
  rw [hc.child_eq] at hthrough
  exact hthrough

theorem Created.of_table (hc : Created inUse s s' root p n i b) (hi : Inv inUse s root)
    (h : tableAt s' root q = some f) : tableAt s root q = some f ∨ (q = p ++ [i] ∧ f = b) :=
  walk_write_fresh hi.tree hc.parent hc.write hc.child_eq hc.child_none h

/-- An entry of a table there is now is an old one, absent, or the new pointer. -/
theorem Created.of_entry (hc : Created inUse s s' root p n i b) (hi : Inv inUse s root)
    (h : tableAt s' root q = some f) :
    (tableAt s root q = some f ∧ ent s'.mem s'.hhdmOffset f j = ent s.mem s.hhdmOffset f j) ∨
      ent s'.mem s'.hhdmOffset f j = 0 ∨ ent s'.mem s'.hhdmOffset f j = tableEntry b := by
  rcases hc.of_table hi h with hq | ⟨-, rfl⟩
  · by_cases hne : f ≠ n ∨ j ≠ i
    · exact Or.inl ⟨hq, hc.write.other q f j hq hne⟩
    · obtain ⟨rfl, rfl⟩ : f = n ∧ j = i := by
        rw [not_or, not_not, not_not] at hne
        exact hne
      exact Or.inr (Or.inr hc.write.self)
  · exact Or.inr (Or.inl (hc.empty j))

theorem Created.inv (hc : Created inUse s s' root p n i b) (hi : Inv inUse s root) :
    Inv inUse s' root := by
  refine ⟨?_, ?_, hi.tree.write_fresh hc.parent hc.write hc.child_eq hc.child_none hc.fresh,
    ?_, ?_⟩
  · rw [hc.pml4, hc.hhdm]
    exact hi.pml4
  · rw [hc.pml4]
    exact hi.notNull
  · intro q f h
    rcases hc.of_table hi h with hq | ⟨-, rfl⟩
    · exact ⟨(hi.frames q f hq).1, hc.keeps f (hi.frames q f hq).2⟩
    · exact ⟨hc.frame, hc.taken⟩
  · intro q f j hlen h hpres
    rcases hc.of_entry hi h with ⟨hq, he⟩ | he | he
    · rw [he] at hpres ⊢
      exact hi.upper q f j hlen hq hpres
    · rw [he] at hpres
      cases hpres
    · rw [he]
      exact huge_tableEntry hc.frame

/-- The old walk stopped at the absent entry, the new one in the empty table. -/
theorem Created.lookup_through (hc : Created inUse s s' root p n i b) (hi : Inv inUse s root)
    {v : Nat} {r : List (Fin 512)} (hv : path v = p ++ i :: r) :
    present (lookup s.mem s.hhdmOffset root v).2 = false ∧
      present (lookup s'.mem s'.hhdmOffset root v).2 = false := by
  obtain ⟨j, r, rfl⟩ : ∃ j r', r = j :: r' := by
    cases r with
    | nil =>
        have hlen := congrArg List.length hv
        have hdepth := hc.depth
        simp only [path, List.length_cons, List.length_nil, List.length_append] at hlen
        omega
    | cons j r' => exact ⟨j, r', rfl⟩
  constructor
  · have hbefore := stop_through hc.parent hv
    rw [stop_of_none (child_of_not_present hc.absent)] at hbefore
    rw [lookup, hbefore]
    exact hc.absent
  · have hafter : lookup s'.mem s'.hhdmOffset root v = (p.length + 1, 0) := by
      refine (stop_through (walk_write_node hi.tree hc.parent hc.write) hv).trans ?_
      rw [Nat.zero_add, stop, hc.write.self, hc.child_eq]
      simp only [stop_of_none (hc.child_none j), hc.empty]
    rw [hafter]
    exact present_zero

theorem Created.grown (hc : Created inUse s s' root p n i b) (hi : Inv inUse s root) :
    Grown s s' root := by
  refine ⟨hc.hhdm, fun v => ?_, fun q f j h hhuge => ?_⟩
  · by_cases hv : ∃ r, path v = p ++ i :: r
    · obtain ⟨r, hr⟩ := hv
      exact Or.inr (hc.lookup_through hi hr)
    · exact Or.inl (stop_write hi.tree hc.parent hc.write fun r hr => hv ⟨r, hr⟩)
  · rcases hc.of_entry hi h with ⟨hq, he⟩ | he | he
    · rw [he] at hhuge
      exact ⟨hq, hhuge⟩
    · rw [he] at hhuge
      cases hhuge
    · rw [he, huge_tableEntry hc.frame] at hhuge
      cases hhuge

/-- The new table lies in the frame that was taken for it. -/
theorem Created.drawn (hc : Created inUse s s' root p n i b) (hi : Inv inUse s root)
    (hfresh : ¬inUse s.pmm b) : Drawn inUse s s' root := by
  refine ⟨hc.keeps, fun q f hq => ?_⟩
  rcases hc.of_table hi hq with hq | ⟨-, rfl⟩
  · exact Or.inl hq
  · exact Or.inr hfresh

/-- `get_or_create_table` on an entry that is not a large page returns the table
below it. -/
theorem getOrCreateTable_spec (hA : Lawful A inUse s.hhdmOffset) (hi : Inv inUse s root)
    (hp : tableAt s root p = some n) (hlen : p.length ≤ 2)
    (hsmall : present (ent s.mem s.hhdmOffset n i) = true →
      p.length = 0 ∨ huge (ent s.mem s.hhdmOffset n i) = false) {t : Nat}
    (h : getOrCreateTable A s (add64 n s.hhdmOffset) i (pageWrite ||| pagePresent) = .ok (t, s')) :
    ∃ c, t = add64 c s'.hhdmOffset ∧ tableAt s' root (p ++ [i]) = some c ∧ Inv inUse s' root ∧
      Grown s s' root ∧ Drawn inUse s s' root := by
  rw [getOrCreateTable] at h
  change (if present (ent s.mem s.hhdmOffset n i) then
    Except.ok (physToVirt s (ent s.mem s.hhdmOffset n i &&& physAddrMask), s) else _) = _ at h
  cases hpres : present (ent s.mem s.hhdmOffset n i) with
  | true =>
      rw [if_pos hpres] at h
      obtain ⟨rfl, rfl⟩ := Prod.mk.inj (Except.ok.inj h)
      refine ⟨_, rfl, ?_, hi, .refl s root, .refl inUse s root⟩
      have hwalk : walk child (ent s.mem s.hhdmOffset) 0 root p = some n := hp
      rw [tableAt, walk_append, hwalk, Option.bind_some, walk, Nat.zero_add,
        PolandOS.Vmm.child_eq hlen hpres (hsmall hpres)]
      rfl
  | false =>
      rw [if_neg (by simp [hpres])] at h
      obtain ⟨⟨b, pmm', m'⟩, halloc⟩ : ∃ r, A.pmmAlloc s.pmm s.mem = r := ⟨_, rfl⟩
      simp only [halloc] at h
      by_cases hb : b = 0
      · rw [if_pos hb] at h
        cases h
      · rw [if_neg hb] at h
        obtain ⟨rfl, rfl⟩ := Prod.mk.inj (Except.ok.inj h)
        have hc := created_of_alloc hA hi hp hlen hpres halloc hb
        have hfresh := (hA _ _ _ _ _ halloc hb).fresh
        exact ⟨b, rfl, hc.reach hi, hc.inv hi, hc.grown hi, hc.drawn hi hfresh⟩

end

/-! ## vmm_map and vmm_unmap -/

section

variable {s₁ s₂ s' : VmmState σ} {v : Nat}

theorem Grown.lawful {inUse : σ → Nat → Prop} (hg : Grown s s' root)
    (hA : Lawful A inUse s.hhdmOffset) : Lawful A inUse s'.hhdmOffset := by
  rw [hg.hhdm]
  exact hA

/-- The first two calls of `get_or_create_table`. -/
theorem upperLevels_spec (hA : Lawful A inUse s.hhdmOffset) (hi : Inv inUse s root) {t₁ t₂ : Nat}
    (h₁ : getOrCreateTable A s s.kernelPml4 (pml4Idx v) (pageWrite ||| pagePresent) =
      .ok (t₁, s₁))
    (h₂ : getOrCreateTable A s₁ t₁ (pdptIdx v) (pageWrite ||| pagePresent) = .ok (t₂, s₂)) :
    ∃ c, t₂ = add64 c s₂.hhdmOffset ∧
      tableAt s₂ root [pos (pml4Idx v), pos (pdptIdx v)] = some c ∧ Inv inUse s₂ root ∧
      Grown s s₂ root ∧ Drawn inUse s s₂ root := by
  rw [hi.pml4, ← pos_pml4Idx v] at h₁
  obtain ⟨c₁, rfl, hc₁, hi₁, hg₁, hd₁⟩ :=
    getOrCreateTable_spec (p := []) hA hi rfl (by decide) (fun _ => Or.inl rfl) h₁
  rw [← pos_pdptIdx v] at h₂
  obtain ⟨c₂, rfl, hc₂, hi₂, hg₂, hd₂⟩ := getOrCreateTable_spec (p := [pos (pml4Idx v)])
    (hg₁.lawful hA) hi₁ hc₁ (by simp) (fun hpres => Or.inr (hi₁.upper _ _ _ rfl hc₁ hpres)) h₂
  exact ⟨c₂, rfl, hc₂, hi₂, hg₁.trans hg₂, hd₁.trans hd₂⟩

/-- The PDE of an address whose walk meets no large page is not one. -/
theorem pde_small (hi : Inv inUse s root) (hv : NoHuge s v)
    (hp : tableAt s root [pos (pml4Idx v), pos (pdptIdx v)] = some n)
    (hpres : present (ent s.mem s.hhdmOffset n (pos (pdIdx v))) = true) :
    huge (ent s.mem s.hhdmOffset n (pos (pdIdx v))) = false := by
  by_contra hhuge
  have hhuge : huge (ent s.mem s.hhdmOffset n (pos (pdIdx v))) = true := by simpa using hhuge
  have hstop : lookup s.mem s.hhdmOffset root v = (2, ent s.mem s.hhdmOffset n (pos (pdIdx v))) :=
    (stop_through hp rfl).trans (stop_of_none (child_of_huge (by simp) hhuge))
  rw [noHuge_iff hi.pml4, hstop] at hv
  have h23 : 2 = 3 := hv hpres
  omega

/-- `vmm_map` fills in missing levels and writes the page-table entry. -/
theorem vmmMap_spec (hA : Lawful A inUse s.hhdmOffset) (hi : Inv inUse s root)
    (hv : NoHuge s v) {phys flags : Nat} (h : vmmMap A s v phys flags = .ok s') :
    ∃ s₁ c, Grown s s₁ root ∧ Drawn inUse s s₁ root ∧ Inv inUse s₁ root ∧
      tableAt s₁ root [pos (pml4Idx v), pos (pdptIdx v), pos (pdIdx v)] = some c ∧
      s' = setEntry s₁ (add64 c s₁.hhdmOffset) (pos (ptIdx v))
        ((phys &&& physAddrMask) ||| flags ||| pagePresent) := by
  obtain ⟨⟨t₁, s₁⟩, h₁, h⟩ := bind_eq_ok h
  obtain ⟨⟨t₂, s₂⟩, h₂, h⟩ := bind_eq_ok h
  obtain ⟨⟨t₃, s₃⟩, h₃, h⟩ := bind_eq_ok h
  obtain ⟨c₂, rfl, hc₂, hi₂, hg₂, hd₂⟩ := upperLevels_spec hA hi h₁ h₂
  have hv₂ := hg₂.noHuge hi hi₂ hv
  have h₃' : getOrCreateTable A s₂ (add64 c₂ s₂.hhdmOffset) (pos (pdIdx v))
      (pageWrite ||| pagePresent) = .ok (t₃, s₃) := by
    rw [pos_pdIdx]
    exact h₃
  obtain ⟨c₃, rfl, hc₃, hi₃, hg₃, hd₃⟩ := getOrCreateTable_spec (hg₂.lawful hA) hi₂ hc₂
    (by simp) (fun hpres => Or.inr (pde_small hi₂ hv₂ hc₂ hpres)) h₃'
  refine ⟨s₃, c₃, hg₂.trans hg₃, hd₂.trans hd₃, hi₃, hc₃, ?_⟩
  rw [pos_ptIdx]
  exact (Except.ok.inj h).symm

theorem lookup_congr {m : Mem} {h u : Nat} (huv : path u = path v) :
    lookup m h root u = lookup m h root v := by
  simp only [path, List.cons.injEq, and_true] at huv
  obtain ⟨h4, h3, h2, h1⟩ := huv
  simp only [lookup, h4, h3, h2, h1]

/-- Writing a page-table entry changes the one page it is for. -/
theorem pte_write {c w : Nat} (hi : Inv inUse s root)
    (hp : tableAt s root [pos (pml4Idx v), pos (pdptIdx v), pos (pdIdx v)] = some c)
    (hw : w < 2 ^ 64) (hs' : s' = setEntry s (add64 c s.hhdmOffset) (pos (ptIdx v)) w) :
    Inv inUse s' root ∧ (∀ u, SamePage u v → vmmGetPhys s' u = translate u (3, w)) ∧
      ∀ u, ¬SamePage u v → vmmGetPhys s' u = vmmGetPhys s u := by
  have hoff : s'.hhdmOffset = s.hhdmOffset := by
    rw [hs']
    rfl
  have hwr : Write child (ent s.mem s.hhdmOffset) (ent s'.mem s'.hhdmOffset) root c
      (pos (ptIdx v)) w := by
    rw [hoff, hs']
    exact hi.write hp hw
  have hi' : Inv inUse s' root := by
    rw [hs']
    exact hi.write_leaf hp hw (if_neg fun hc => by simp at hc) (by simp)
  have hself : lookup s'.mem s'.hhdmOffset root v = (3, w) := by
    have hpath : path v = [pos (pml4Idx v), pos (pdptIdx v), pos (pdIdx v)] ++
        pos (ptIdx v) :: [] := rfl
    have hthrough := stop_through (walk_write_node hi.tree hp hwr) hpath
    rw [stop, hwr.self] at hthrough
    exact hthrough
  refine ⟨hi', fun u hu => ?_, fun u hu => ?_⟩
  · rw [vmmGetPhys_eq hi'.pml4 hi'.notNull, lookup_congr ((path_eq_iff u v).mpr hu), hself]
  · have hsame : lookup s'.mem s'.hhdmOffset root u = lookup s.mem s.hhdmOffset root u := by
      apply stop_write hi.tree hp hwr
      intro r hr
      apply hu
      have hlen := congrArg List.length hr
      simp only [List.length_cons, List.length_nil, List.length_append] at hlen
      have hnil : r = [] := List.length_eq_zero_iff.mp (by omega)
      rw [hnil] at hr
      exact (path_eq_iff u v).mp hr
    rw [vmmGetPhys_eq hi'.pml4 hi'.notNull, vmmGetPhys_eq hi.pml4 hi.notNull, hsame]

/-- `vmm_unmap` finds no page table, or clears the entry. -/
theorem vmmUnmap_spec (hi : Inv inUse s root) (hv : NoHuge s v) :
    (vmmUnmap s v = s ∧ present (lookup s.mem s.hhdmOffset root v).2 = false) ∨
      ∃ c, tableAt s root [pos (pml4Idx v), pos (pdptIdx v), pos (pdIdx v)] = some c ∧
        vmmUnmap s v = setEntry s (add64 c s.hhdmOffset) (pos (ptIdx v)) 0 := by
  rw [noHuge_iff hi.pml4] at hv
  unfold vmmUnmap
  rw [if_neg hi.notNull]
  simp only [hi.pml4, physToVirt, entry_eq_ent _ _ _ _ (pml4Idx_lt v),
    entry_eq_ent _ _ _ _ (pdptIdx_lt v), entry_eq_ent _ _ _ _ (pdIdx_lt v), lookup, stop,
    tableAt, walk, pos_ptIdx] at hv ⊢
  generalize ent s.mem s.hhdmOffset root (pos (pml4Idx v)) = e0 at hv ⊢
  cases h0 : present e0 with
  | false => simp [child_of_not_present h0, h0]
  | true =>
      simp only [child_eq (show 0 ≤ 2 by decide) h0 (Or.inl rfl)] at hv ⊢
      generalize ent s.mem s.hhdmOffset (e0 &&& physAddrMask) (pos (pdptIdx v)) = e1 at hv ⊢
      cases h1 : present e1 with
      | false => simp [child_of_not_present h1, h1]
      | true =>
          cases g1 : huge e1 with
          | true => simp [child_of_huge (show 1 ≠ 0 by decide) g1, h1] at hv
          | false =>
              simp only [child_eq (show 1 ≤ 2 by decide) h1 (Or.inr g1)] at hv ⊢
              generalize ent s.mem s.hhdmOffset (e1 &&& physAddrMask) (pos (pdIdx v)) = e2
                at hv ⊢
              cases h2 : present e2 with
              | false => simp [child_of_not_present h2, h2]
              | true =>
                  cases g2 : huge e2 with
                  | true => simp [child_of_huge (show 2 ≠ 0 by decide) g2, h2] at hv
                  | false => simp [child_eq (show 2 ≤ 2 by decide) h2 (Or.inr g2)]

end

/-! ## vmm_init -/

/-- The indices of the 2 MiB page of an address. -/
def slot (v : Nat) : List (Fin 512) := [pos (pml4Idx v), pos (pdptIdx v), pos (pdIdx v)]

/-- Two addresses agree in bits 21 to 47. -/
def SameSlot (v w : Nat) : Prop := (v >>> 21) &&& (2 ^ 27 - 1) = (w >>> 21) &&& (2 ^ 27 - 1)

theorem slot_eq_iff (v w : Nat) : slot v = slot w ↔ SameSlot v w := by
  have hbits : ∀ x, (x >>> 21) &&& (2 ^ 27 - 1) = x / 2 ^ 21 % 2 ^ 27 := fun x => by
    rw [Nat.shiftRight_eq_div_pow, Nat.and_two_pow_sub_one_eq_mod]
  simp only [slot, List.cons.injEq, pos_eq_iff, pml4Idx, pdptIdx, pdIdx, idx_eq, SameSlot,
    hbits, and_true]
  omega

/-- Page directories map large pages in the given slots only. -/
def HugeSlots (S : List (Fin 512) → Prop) (s : VmmState σ) (root : Nat) : Prop :=
  ∀ q f i, q.length = 2 → tableAt s root q = some f →
    huge (ent s.mem s.hhdmOffset f i) = true → S (q ++ [i])

section

variable {S : List (Fin 512) → Prop} {s' : VmmState σ} {v : Nat}

theorem Grown.hugeSlots (hg : Grown s s' root) (hs : HugeSlots S s root) :
    HugeSlots S s' root := by
  intro q f i hlen hq hhuge
  obtain ⟨hq, hhuge⟩ := hg.huge q f i hq hhuge
  exact hs q f i hlen hq hhuge

/-- Writing a leaf adds at most the slot written. -/
theorem HugeSlots.write_leaf {w : Nat} (hs : HugeSlots S s root) (hi : Inv inUse s root)
    (hp : tableAt s root p = some n) (hw : w < 2 ^ 64) (hleaf : child p.length w = none)
    (hnew : p.length = 2 → S (p ++ [i])) :
    HugeSlots S (setEntry s (add64 n s.hhdmOffset) i w) root := by
  intro q f j hlen hq hhuge
  have hold := hi.of_write_leaf hp hw hleaf hq
  by_cases hne : f ≠ n ∨ j ≠ i
  · have hsame : ent (setEntry s (add64 n s.hhdmOffset) i w).mem s.hhdmOffset f j =
        ent s.mem s.hhdmOffset f j := (hi.write hp hw).other q f j hold hne
    refine hs q f j hlen hold ?_
    rw [← hsame]
    exact hhuge
  · obtain ⟨rfl, rfl⟩ : f = n ∧ j = i := by
      rw [not_or, not_not, not_not] at hne
      exact hne
    obtain rfl := hi.tree q p f hold hp
    exact hnew hlen

/-- A walk outside the slots of large pages meets none. -/
theorem noHuge_of_slots (hi : Inv inUse s root) (hs : HugeSlots S s root) (hv : ¬S (slot v)) :
    NoHuge s v := by
  rw [noHuge_iff hi.pml4]
  intro hpres
  obtain ⟨r, j, t, c, hpath, hr, hstop, hlast⟩ := @stop_spec _ _ _ child
    (ent s.mem s.hhdmOffset) 0 root (pos (pml4Idx v)) [pos (pdptIdx v), pos (pdIdx v), pos (ptIdx v)]
  rw [lookup, hstop] at hpres ⊢
  dsimp only at hpres ⊢
  have hlen := congrArg List.length hpath
  simp only [List.length_cons, List.length_nil, List.length_append] at hlen
  by_contra hshort
  have hnone := hlast fun ht => by
    rw [ht, List.length_nil] at hlen
    omega
  -- the walk has stopped early at a present entry, so the entry is a large page
  obtain ⟨hdeep, hhuge⟩ := huge_of_child_none (by omega) hpres hnone
  rcases (show r.length = 1 ∨ r.length = 2 by omega) with h1 | h2
  · rw [hi.upper r c j h1 hr hpres] at hhuge
    cases hhuge
  · apply hv
    obtain ⟨a, b, rfl⟩ := List.length_eq_two.mp h2
    have hslot : slot v = [a, b] ++ [j] := by
      simp only [List.cons_append, List.nil_append, List.cons.injEq] at hpath
      obtain ⟨rfl, rfl, rfl, -⟩ := hpath
      rfl
    rw [hslot]
    exact hs _ c j h2 hr hhuge

/-- One round of the direct map loop. -/
theorem mapHuge_spec (hA : Lawful A inUse s.hhdmOffset) (hi : Inv inUse s root)
    (hs : HugeSlots S s root) {phys : Nat} (hphys : phys < 2 ^ 64)
    (hnew : S (slot (add64 phys s.hhdmOffset))) (h : mapHuge A s phys = .ok s') :
    Inv inUse s' root ∧ HugeSlots S s' root ∧ s'.hhdmOffset = s.hhdmOffset := by
  obtain ⟨⟨t₁, s₁⟩, h₁, h⟩ := bind_eq_ok h
  obtain ⟨⟨t₂, s₂⟩, h₂, h⟩ := bind_eq_ok h
  obtain ⟨c, rfl, hc, hi₂, hg, -⟩ := upperLevels_spec hA hi h₁ h₂
  set w := phys ||| pagePresent ||| pageWrite ||| pageHuge ||| pageGlobal with hw
  have hlt : w < 2 ^ 64 :=
    or_lt (or_lt (or_lt (or_lt hphys (by decide)) (by decide)) (by decide)) (by decide)
  have hhuge : huge w = true := by
    rw [huge_eq_testBit, hw, Nat.testBit_or, Nat.testBit_or, pageHuge, Nat.testBit_two_pow_self,
      Bool.or_true, Bool.true_or]
  have hleaf : child [pos (pml4Idx (add64 phys s.hhdmOffset)),
      pos (pdptIdx (add64 phys s.hhdmOffset))].length w = none :=
    child_of_huge (by simp) hhuge
  have hs' : s' = setEntry s₂ (add64 c s₂.hhdmOffset) (pos (pdIdx (add64 phys s.hhdmOffset))) w := by
    rw [pos_pdIdx]
    exact (Except.ok.inj h).symm
  rw [hs']
  exact ⟨hi₂.write_leaf hc hlt hleaf (by simp),
    (hg.hugeSlots hs).write_leaf hi₂ hc hlt hleaf fun _ => hnew, hg.hhdm⟩

theorem hhdmLoop_spec {k total : Nat} (hA : Lawful A inUse s.hhdmOffset) (hi : Inv inUse s root)
    (hs : HugeSlots S s root) (htotal : total * 0x200000 < 2 ^ 64) (hk : k + n = total)
    (hnew : ∀ j < total, S (slot (add64 (j * 0x200000) s.hhdmOffset)))
    (h : hhdmLoop A s (k * 0x200000) n = .ok s') :
    Inv inUse s' root ∧ HugeSlots S s' root ∧ s'.hhdmOffset = s.hhdmOffset := by
  induction n generalizing s k with
  | zero =>
      obtain rfl := Except.ok.inj h
      exact ⟨hi, hs, rfl⟩
  | succ n ih =>
      obtain ⟨s₁, h₁, h⟩ := bind_eq_ok h
      have hphys : k * 0x200000 < 2 ^ 64 :=
        (Nat.mul_le_mul_right _ (show k ≤ total by omega)).trans_lt htotal
      obtain ⟨hi₁, hs₁, hoff⟩ := mapHuge_spec hA hi hs hphys (hnew k (by omega)) h₁
      rw [add64_stride htotal (by omega)] at h
      obtain ⟨hi', hs', hoff'⟩ :=
        ih (by rwa [hoff]) hi₁ hs₁ (by omega) (by rwa [hoff]) h
      exact ⟨hi', hs', hoff'.trans hoff⟩

theorem pte_lt {phys flags : Nat} (hphys : phys < 2 ^ 64) (hflags : flags < 2 ^ 64) :
    (phys &&& physAddrMask) ||| flags ||| pagePresent < 2 ^ 64 :=
  or_lt (or_lt (Nat.and_le_left.trans_lt hphys) hflags) (by decide)

/-- `vmm_map` keeps the tree and adds no large page. -/
theorem vmmMap_inv (hA : Lawful A inUse s.hhdmOffset) (hi : Inv inUse s root)
    (hs : HugeSlots S s root) (hv : NoHuge s v) {phys flags : Nat} (hphys : phys < 2 ^ 64)
    (hflags : flags < 2 ^ 64) (h : vmmMap A s v phys flags = .ok s') :
    Inv inUse s' root ∧ HugeSlots S s' root ∧ s'.hhdmOffset = s.hhdmOffset := by
  obtain ⟨s₁, c, hg, -, hi₁, hc, rfl⟩ := vmmMap_spec hA hi hv h
  have hw := pte_lt hphys hflags
  have hleaf : child (slot v).length ((phys &&& physAddrMask) ||| flags ||| pagePresent) = none :=
    if_neg fun hc => by simp [slot] at hc
  exact ⟨hi₁.write_leaf hc hw hleaf (by simp),
    (hg.hugeSlots hs).write_leaf hi₁ hc hw hleaf fun hlen => by simp at hlen, hg.hhdm⟩

/-- `vmm_unmap` keeps the tree and adds no large page. -/
theorem vmmUnmap_inv (hi : Inv inUse s root) (hs : HugeSlots S s root) (hv : NoHuge s v) :
    Inv inUse (vmmUnmap s v) root ∧ HugeSlots S (vmmUnmap s v) root ∧
      (vmmUnmap s v).hhdmOffset = s.hhdmOffset := by
  rcases vmmUnmap_spec hi hv with ⟨h, -⟩ | ⟨c, hc, h⟩
  · rw [h]
    exact ⟨hi, hs, rfl⟩
  · rw [h]
    have hleaf : child (slot v).length 0 = none := child_of_not_present present_zero
    exact ⟨hi.write_leaf hc (by decide) hleaf (by simp),
      hs.write_leaf hi hc (by decide) hleaf fun hlen => by simp at hlen, rfl⟩

theorem kernelLoop_spec {kernelVirt kernelPhys k total : Nat}
    (hA : Lawful A inUse s.hhdmOffset) (hi : Inv inUse s root) (hs : HugeSlots S s root)
    (htotal : total * pageSize < 2 ^ 64) (hk : k + n = total)
    (hout : ∀ j < total, ¬S (slot (add64 kernelVirt (j * pageSize))))
    (h : kernelLoop A s kernelVirt kernelPhys (k * pageSize) n = .ok s') :
    Inv inUse s' root ∧ HugeSlots S s' root ∧ s'.hhdmOffset = s.hhdmOffset := by
  induction n generalizing s k with
  | zero =>
      obtain rfl := Except.ok.inj h
      exact ⟨hi, hs, rfl⟩
  | succ n ih =>
      obtain ⟨s₁, h₁, h⟩ := bind_eq_ok h
      have hv := noHuge_of_slots hi hs (hout k (by omega))
      obtain ⟨hi₁, hs₁, hoff⟩ := vmmMap_inv hA hi hs hv (add64_lt _ _) (by decide) h₁
      rw [add64_stride htotal (by omega)] at h
      obtain ⟨hi', hs', hoff'⟩ := ih (by rwa [hoff]) hi₁ hs₁ (by omega) h
      exact ⟨hi', hs', hoff'.trans hoff⟩

/-- The address shares its 2 MiB slot with a page of the direct map. -/
def InDirectMap (hhdmOffset maxPhys v : Nat) : Prop :=
  ∃ k < hhdmMapSize maxPhys / 0x200000, SameSlot v (add64 (k * 0x200000) hhdmOffset)

/-- The slots of the direct map. -/
def directSlots (hhdmOffset maxPhys : Nat) (l : List (Fin 512)) : Prop :=
  ∃ k < hhdmMapSize maxPhys / 0x200000, l = slot (add64 (k * 0x200000) hhdmOffset)

theorem directSlots_slot_iff {h maxPhys : Nat} :
    directSlots h maxPhys (slot v) ↔ InDirectMap h maxPhys v := by
  simp only [directSlots, InDirectMap, slot_eq_iff]

/-- No page of the kernel image lies in the direct map. -/
def KernelOutside (hhdmOffset maxPhys kernelVirt kernelSize : Nat) : Prop :=
  ∀ j < ksizeAligned kernelSize / pageSize,
    ¬InDirectMap hhdmOffset maxPhys (add64 kernelVirt (j * pageSize))

/-- The maximum physical address that `vmm_init` reads, after it has taken a
frame for the PML4. -/
def maxPhysAtInit (A : Allocator σ) (s : VmmState σ) : Nat :=
  A.pmmGetMaxPhys (A.pmmAlloc s.pmm s.mem).2.1

/-- A fresh PML4 has no table below it. -/
theorem tableAt_fresh (hzero : ∀ i, ent s.mem s.hhdmOffset root i = 0) {q : List (Fin 512)}
    {f : Nat} (hq : tableAt s root q = some f) : q = [] ∧ f = root := by
  cases q with
  | nil => exact ⟨rfl, (Option.some.inj hq).symm⟩
  | cons i q =>
      have hnone : child 0 (ent s.mem s.hhdmOffset root i) = none := by
        rw [hzero]
        exact child_of_not_present present_zero
      rw [tableAt, walk, hnone] at hq
      cases hq

theorem inv_fresh (hpml4 : s.kernelPml4 = add64 root s.hhdmOffset) (hnull : s.kernelPml4 ≠ 0)
    (hframe : Frame root) (huse : inUse s.pmm root)
    (hzero : ∀ i, ent s.mem s.hhdmOffset root i = 0) : Inv inUse s root := by
  refine ⟨hpml4, hnull, ?_, ?_, ?_⟩
  · intro p q f hp hq
    rw [(tableAt_fresh hzero hp).1, (tableAt_fresh hzero hq).1]
  · intro q f hq
    rw [(tableAt_fresh hzero hq).2]
    exact ⟨hframe, huse⟩
  · intro q f i hlen hq
    rw [(tableAt_fresh hzero hq).1] at hlen
    cases hlen

theorem hugeSlots_fresh (hzero : ∀ i, ent s.mem s.hhdmOffset root i = 0) :
    HugeSlots S s root := by
  intro q f i hlen hq
  rw [(tableAt_fresh hzero hq).1] at hlen
  cases hlen

theorem and_right_lt (x : Nat) {m : Nat} (hm : m < 2 ^ 64) : x &&& m < 2 ^ 64 :=
  Nat.and_le_right.trans_lt hm

/-- `vmm_init` takes an empty PML4 and runs its two loops. -/
theorem vmmInit_cases (hA : Lawful A inUse s.hhdmOffset) {kernelPhys kernelVirt kernelSize : Nat}
    (h : vmmInit A s kernelPhys kernelVirt kernelSize = .ok s') :
    ∃ s₀ s₁ root, s₀.hhdmOffset = s.hhdmOffset ∧ Inv inUse s₀ root ∧
      (∀ i, ent s₀.mem s₀.hhdmOffset root i = 0) ∧
      hhdmLoop A s₀ (0 * 0x200000) (hhdmMapSize (maxPhysAtInit A s) / 0x200000) = .ok s₁ ∧
      kernelLoop A s₁ kernelVirt kernelPhys (0 * pageSize) (ksizeAligned kernelSize / pageSize) =
        .ok s' := by
  obtain ⟨⟨b, pmm', m'⟩, halloc⟩ : ∃ r, A.pmmAlloc s.pmm s.mem = r := ⟨_, rfl⟩
  simp only [vmmInit, halloc] at h
  simp only [maxPhysAtInit, halloc, Nat.zero_mul]
  by_cases hb : b = 0
  · rw [if_pos hb] at h
    cases h
  rw [if_neg hb] at h
  obtain ⟨hframe, hmapped, -, htaken, -, hzeroed, -⟩ := hA _ _ _ _ _ halloc hb
  obtain ⟨s₁, h₁, h⟩ := bind_eq_ok h
  have hzero : ∀ i, ent m' s.hhdmOffset b i = 0 := fun i => ent_zero i hzeroed
  refine ⟨⟨m', s.hhdmOffset, physToVirt s b, pmm'⟩, s₁, b, rfl, ?_, hzero, h₁, h⟩
  refine inv_fresh rfl ?_ hframe htaken hzero
  change add64 b s.hhdmOffset ≠ 0
  rw [add64_eq hmapped]
  omega

/-- `vmm_init` builds a tree of tables, with large pages in the direct map only. -/
theorem vmmInit_inv (hA : Lawful A inUse s.hhdmOffset) {kernelPhys kernelVirt kernelSize : Nat}
    (hout : KernelOutside s.hhdmOffset (maxPhysAtInit A s) kernelVirt kernelSize)
    (h : vmmInit A s kernelPhys kernelVirt kernelSize = .ok s') :
    ∃ root, Inv inUse s' root ∧
      HugeSlots (directSlots s.hhdmOffset (maxPhysAtInit A s)) s' root ∧
      s'.hhdmOffset = s.hhdmOffset := by
  obtain ⟨s₀, s₁, root, hoff₀, hi₀, hzero, h₁, h₂⟩ := vmmInit_cases hA h
  obtain ⟨hi₁, hs₁, hoff₁⟩ := hhdmLoop_spec
    (S := directSlots s.hhdmOffset (maxPhysAtInit A s)) (by rwa [hoff₀]) hi₀
    (hugeSlots_fresh hzero) ((Nat.div_mul_le_self _ _).trans_lt (and_right_lt _ (by decide)))
    (Nat.zero_add _) (fun j hj => ⟨j, hj, by rw [hoff₀]⟩) h₁
  obtain ⟨hi₂, hs₂, hoff₂⟩ := kernelLoop_spec (by rwa [hoff₁, hoff₀]) hi₁ hs₁
    ((Nat.div_mul_le_self _ _).trans_lt (and_right_lt _ (by decide))) (Nat.zero_add _)
    (fun j hj hin => hout j hj (directSlots_slot_iff.mp hin)) h₂
  exact ⟨root, hi₂, hs₂, hoff₂.trans (hoff₁.trans hoff₀)⟩

end

/-! ## Every run -/

/-- The calls made on the page tables after `vmm_init`. -/
inductive Call where
  | map (virt phys flags : Nat)
  | unmap (virt : Nat)

def exec (A : Allocator σ) (s : VmmState σ) : Call → Except Halt (VmmState σ)
  | .map virt phys flags => vmmMap A s virt phys flags
  | .unmap virt => .ok (vmmUnmap s virt)

def Step (A : Allocator σ) (s : VmmState σ) (c : Call) (s' : VmmState σ) : Prop :=
  exec A s c = .ok s'

/-- The arguments are `u64` values and the walk of the address meets no large
page. -/
def CallOk (s : VmmState σ) : Call → Prop
  | .map virt phys flags => NoHuge s virt ∧ phys < 2 ^ 64 ∧ flags < 2 ^ 64
  | .unmap virt => NoHuge s virt

section

variable {s' : VmmState σ} {v : Nat}

/-- One call keeps the tree and the places of the large pages. -/
theorem step_inv {S : List (Fin 512) → Prop} (hA : Lawful A inUse s.hhdmOffset)
    (hi : Inv inUse s root) (hs : HugeSlots S s root) {c : Call}
    (h : Guarded (Step A) CallOk s c s') :
    Inv inUse s' root ∧ HugeSlots S s' root ∧ s'.hhdmOffset = s.hhdmOffset := by
  obtain ⟨hok, hstep⟩ := h
  cases c with
  | map virt phys flags => exact vmmMap_inv hA hi hs hok.1 hok.2.1 hok.2.2 hstep
  | unmap virt =>
      obtain rfl := Except.ok.inj hstep
      exact vmmUnmap_inv hi hs hok

theorem run_inv {s₀ s₁ : VmmState σ} {kernelPhys kernelVirt kernelSize : Nat}
    (hA : Lawful A inUse s₀.hhdmOffset)
    (hout : KernelOutside s₀.hhdmOffset (maxPhysAtInit A s₀) kernelVirt kernelSize)
    (hinit : vmmInit A s₀ kernelPhys kernelVirt kernelSize = .ok s₁)
    (hrun : Run (Guarded (Step A) CallOk) s₁ s) :
    ∃ root, Inv inUse s root ∧
      HugeSlots (directSlots s₀.hhdmOffset (maxPhysAtInit A s₀)) s root ∧
      s.hhdmOffset = s₀.hhdmOffset := by
  obtain ⟨root, hinv⟩ := vmmInit_inv hA hout hinit
  refine ⟨root, hrun.invariant (I := fun s => Inv inUse s root ∧
    HugeSlots (directSlots s₀.hhdmOffset (maxPhysAtInit A s₀)) s root ∧
    s.hhdmOffset = s₀.hhdmOffset) hinv ?_⟩
  rintro t c t' ⟨hi, hs, hoff⟩ hstep
  obtain ⟨hi', hs', hoff'⟩ := step_inv (by rwa [hoff]) hi hs hstep
  exact ⟨hi', hs', hoff'.trans hoff⟩

/-- The walk of an address outside the direct map meets no large page. -/
theorem noHuge_outside {s₀ s₁ : VmmState σ} {kernelPhys kernelVirt kernelSize : Nat}
    (hA : Lawful A inUse s₀.hhdmOffset)
    (hout : KernelOutside s₀.hhdmOffset (maxPhysAtInit A s₀) kernelVirt kernelSize)
    (hinit : vmmInit A s₀ kernelPhys kernelVirt kernelSize = .ok s₁)
    (hrun : Run (Guarded (Step A) CallOk) s₁ s)
    (hv : ¬InDirectMap s₀.hhdmOffset (maxPhysAtInit A s₀) v) : NoHuge s v := by
  obtain ⟨root, hi, hs, -⟩ := run_inv hA hout hinit hrun
  exact noHuge_of_slots hi hs (mt directSlots_slot_iff.mp hv)

/-- What `vmm_map` writes translates to the page it was given. -/
theorem translate_pte {phys flags : Nat} (hflags : flags &&& physAddrMask = 0) (u : Nat) :
    translate u (3, (phys &&& physAddrMask) ||| flags ||| pagePresent) =
      (phys &&& physAddrMask) ||| (u &&& 0xFFF) := by
  have hpte : ((phys &&& physAddrMask) ||| flags ||| pagePresent) &&& physAddrMask =
      phys &&& physAddrMask := by
    have hpresent : pagePresent &&& physAddrMask = 0 := by decide
    rw [Nat.and_or_distrib_right, Nat.and_or_distrib_right, hflags, Nat.and_assoc, Nat.and_self,
      hpresent, Nat.or_zero, Nat.or_zero]
  simp [translate, present_or, hpte]

/-- In every state reached from `vmm_init` by calls that meet no large page:
`vmm_map` makes its page translate to the frame, `vmm_unmap` to 0, and neither
changes the translation of an address that differs in bits 12 to 47. -/
theorem page_map_laws {s₀ s₁ : VmmState σ} {kernelPhys kernelVirt kernelSize : Nat}
    (hA : Lawful A inUse s₀.hhdmOffset)
    (hout : KernelOutside s₀.hhdmOffset (maxPhysAtInit A s₀) kernelVirt kernelSize)
    (hinit : vmmInit A s₀ kernelPhys kernelVirt kernelSize = .ok s₁)
    (hrun : Run (Guarded (Step A) CallOk) s₁ s) {virt : Nat} (hv : NoHuge s virt) :
    (∀ phys flags s', phys < 2 ^ 64 → flags < 2 ^ 64 → flags &&& physAddrMask = 0 →
      vmmMap A s virt phys flags = .ok s' →
      (∀ v, SamePage v virt → vmmGetPhys s' v = (phys &&& physAddrMask) ||| (v &&& 0xFFF)) ∧
        ∀ v, ¬SamePage v virt → vmmGetPhys s' v = vmmGetPhys s v) ∧
    (∀ v, SamePage v virt → vmmGetPhys (vmmUnmap s virt) v = 0) ∧
    ∀ v, ¬SamePage v virt → vmmGetPhys (vmmUnmap s virt) v = vmmGetPhys s v := by
  obtain ⟨root, hi, -, hoff⟩ := run_inv hA hout hinit hrun
  refine ⟨?_, ?_⟩
  · intro phys flags s' hphys hflags hmask h
    obtain ⟨t, c, hg, -, hi', hc, hs'⟩ := vmmMap_spec (by rwa [hoff]) hi hv h
    obtain ⟨-, hin, hother⟩ := pte_write hi' hc (pte_lt hphys hflags) hs'
    refine ⟨fun v hsame => (hin v hsame).trans (translate_pte hmask v), fun v hdiff => ?_⟩
    rw [hother v hdiff, hg.getPhys hi hi']
  · rcases vmmUnmap_spec hi hv with ⟨h, habs⟩ | ⟨c, hc, h⟩
    · rw [h]
      refine ⟨fun v hsame => ?_, fun v _ => rfl⟩
      rw [vmmGetPhys_eq hi.pml4 hi.notNull, lookup_congr ((path_eq_iff v virt).mpr hsame)]
      exact translate_of_not_present habs
    · obtain ⟨-, hin, hother⟩ := pte_write hi hc (by decide) h
      exact ⟨fun v hsame => (hin v hsame).trans (translate_of_not_present present_zero), hother⟩

end

/-! ## A run on a small machine -/

section

variable {h : Nat}

/-- Memory with the page at `a` zeroed. -/
def zeroPage (m : Mem) (a : Nat) : Mem := fun x =>
  if (x + 2 ^ 64 - a) % 2 ^ 64 < pageSize then 0 else m x

/-- An allocator that hands out the first gigabyte, lowest frame first. -/
def bump (h : Nat) : Allocator Nat where
  pmmAlloc n m :=
    if n + 1 < 2 ^ 18 then
      ((n + 1) * pageSize, n + 1, zeroPage m (add64 ((n + 1) * pageSize) h))
    else (0, n, m)
  pmmGetMaxPhys _ := 2 ^ 30

/-- An allocator that hands out one frame after the other. -/
theorem bump_lawful (hh : h + 2 ^ 30 ≤ 2 ^ 64) :
    Lawful (bump h) (fun n f => f ≤ n * pageSize) h := by
  intro n m phys n' m' halloc hne
  simp only [bump] at halloc
  split at halloc
  swap
  · exact absurd (Prod.mk.inj halloc).1.symm hne
  rename_i hn
  obtain ⟨rfl, rfl, rfl⟩ : (n + 1) * pageSize = phys ∧ n + 1 = n' ∧
      zeroPage m (add64 ((n + 1) * pageSize) h) = m' := by
    simpa only [Prod.mk.injEq] using halloc
  have hpage : pageSize = 4096 := rfl
  have hfree : n * pageSize = n * 4096 := rfl
  have hframe : (n + 1) * pageSize = (n + 1) * 4096 := rfl
  have hbase : add64 ((n + 1) * pageSize) h = (n + 1) * pageSize + h :=
    Nat.mod_eq_of_lt (by omega)
  refine ⟨⟨Nat.dvd_mul_left _ _, by omega⟩, by omega, by omega, le_rfl, fun f hf => by omega,
    fun k hk => ?_, fun f hf k hk => ?_⟩
  · rw [hbase, byteAt_eq (by omega)]
    exact if_pos (by omega)
  · rw [hbase, byteAt_eq (by omega)]
    exact if_neg (by omega)

/-- The allocator counts what it hands out, and has `2 ^ 18 - 1` frames. -/
def Counts (A : Allocator Nat) : Prop :=
  ∀ n m, n + 1 < 2 ^ 18 → ∃ phys m', A.pmmAlloc n m = (phys, n + 1, m') ∧ phys ≠ 0

theorem bump_counts : Counts (bump h) := fun n m hn =>
  ⟨_, _, if_pos hn, Nat.mul_ne_zero (Nat.succ_ne_zero n) (by decide)⟩

-- what follows is about any such allocator: with `bump` unfolded the kernel
-- would count its frames out one by one
variable {A : Allocator Nat} {s : VmmState Nat} {n : Nat}

theorem Counts.getOrCreateTable (hA : Counts A) (hn : s.pmm + 1 < 2 ^ 18) (t i flags : Nat) :
    ∃ r, getOrCreateTable A s t i flags = .ok r ∧ r.2.pmm ≤ s.pmm + 1 := by
  cases hp : present (entry s.mem t i) with
  | true =>
      simp only [Vmm.getOrCreateTable, hp, if_true]
      exact ⟨_, rfl, Nat.le_succ _⟩
  | false =>
      obtain ⟨phys, m, halloc, hne⟩ := hA s.pmm s.mem hn
      simp only [Vmm.getOrCreateTable, hp, halloc, if_neg hne, Bool.false_eq_true, if_false]
      exact ⟨_, rfl, le_rfl⟩

theorem Counts.mapHuge (hA : Counts A) (hn : s.pmm + 2 < 2 ^ 18) (phys : Nat) :
    ∃ s', mapHuge A s phys = .ok s' ∧ s'.pmm ≤ s.pmm + 2 := by
  unfold Vmm.mapHuge
  obtain ⟨⟨t₁, s₁⟩, h₁, hp₁⟩ := hA.getOrCreateTable (s := s) (by omega) s.kernelPml4
    (pml4Idx (add64 phys s.hhdmOffset)) (pageWrite ||| pagePresent)
  dsimp only at hp₁
  obtain ⟨⟨t₂, s₂⟩, h₂, hp₂⟩ := hA.getOrCreateTable (s := s₁) (by omega) t₁
    (pdptIdx (add64 phys s.hhdmOffset)) (pageWrite ||| pagePresent)
  dsimp only at hp₂
  refine ⟨_, by simp only [h₁, h₂, bind, Except.bind]; rfl, ?_⟩
  change s₂.pmm ≤ s.pmm + 2
  omega

theorem Counts.hhdmLoop (hA : Counts A) (hn : s.pmm + 2 * n < 2 ^ 18) (phys : Nat) :
    ∃ s', hhdmLoop A s phys n = .ok s' ∧ s'.pmm ≤ s.pmm + 2 * n := by
  induction n generalizing s phys with
  | zero => exact ⟨s, rfl, le_rfl⟩
  | succ n ih =>
      obtain ⟨s₁, h₁, hp₁⟩ := hA.mapHuge (s := s) (by omega) phys
      obtain ⟨s₂, h₂, hp₂⟩ := ih (s := s₁) (by omega) (add64 phys 0x200000)
      exact ⟨s₂, by simp only [Vmm.hhdmLoop, h₁, h₂, bind, Except.bind], by omega⟩

theorem Counts.vmmMap (hA : Counts A) (hn : s.pmm + 3 < 2 ^ 18) (virt phys flags : Nat) :
    ∃ s', vmmMap A s virt phys flags = .ok s' ∧ s'.pmm ≤ s.pmm + 3 := by
  unfold Vmm.vmmMap
  obtain ⟨⟨t₁, s₁⟩, h₁, hp₁⟩ := hA.getOrCreateTable (s := s) (by omega) s.kernelPml4
    (pml4Idx virt) (pageWrite ||| pagePresent)
  dsimp only at hp₁
  obtain ⟨⟨t₂, s₂⟩, h₂, hp₂⟩ := hA.getOrCreateTable (s := s₁) (by omega) t₁
    (pdptIdx virt) (pageWrite ||| pagePresent)
  dsimp only at hp₂
  obtain ⟨⟨t₃, s₃⟩, h₃, hp₃⟩ := hA.getOrCreateTable (s := s₂) (by omega) t₂
    (pdIdx virt) (pageWrite ||| pagePresent)
  dsimp only at hp₃
  refine ⟨_, by simp only [h₁, h₂, h₃, bind, Except.bind]; rfl, ?_⟩
  change s₃.pmm ≤ s.pmm + 3
  omega

theorem hhdmMapSize_small : hhdmMapSize (2 ^ 30) / 0x200000 = 2048 := by decide

theorem ksizeAligned_page : ksizeAligned 0x1000 / pageSize = 1 := by decide

/-- `vmm_init` of a kernel of one page, on a machine whose direct map takes `n`
rounds. -/
theorem Counts.vmmInit (hA : Counts A) {maxPhys : Nat} (hmax : A.pmmGetMaxPhys 1 = maxPhys)
    (hsize : hhdmMapSize maxPhys / 0x200000 = n) (hn : 2 * n + 4 < 2 ^ 18) (m : Mem)
    (kernelPhys kernelVirt : Nat) :
    ∃ s', vmmInit A ⟨m, h, 0, 0⟩ kernelPhys kernelVirt 0x1000 = .ok s' ∧ s'.pmm ≤ 2 * n + 4 := by
  obtain ⟨phys, m', halloc, hne⟩ := hA 0 m (by decide)
  obtain ⟨s₁, h₁, hp₁⟩ := hA.hhdmLoop (n := n) (s := ⟨m', h, add64 phys h, 1⟩)
    (show 1 + 2 * n < 2 ^ 18 by omega) 0
  dsimp only at hp₁
  obtain ⟨s₂, h₂, hp₂⟩ := hA.vmmMap (s := s₁) (by omega)
    (add64 kernelVirt 0) (add64 kernelPhys 0) (pagePresent ||| pageWrite ||| pageGlobal)
  refine ⟨s₂, ?_, by omega⟩
  have hk : kernelLoop A s₁ kernelVirt kernelPhys 0 1 = .ok s₂ := by rw [kernelLoop, h₂]; rfl
  unfold Vmm.vmmInit
  simp only [halloc]
  rw [if_neg hne, hmax, hsize, ksizeAligned_page, physToVirt]
  simp only [h₁, hk, bind, Except.bind]

theorem maxPhysAtInit_eq {maxPhys : Nat} (hmax : ∀ n, A.pmmGetMaxPhys n = maxPhys) :
    maxPhysAtInit A s = maxPhys := hmax _

/-- Addresses from `0xFFFFC00000000000` up lie outside the direct map of the
first 4 GiB at `0xFFFF800000000000`. -/
theorem outside_bump {v : Nat} (hlo : 0xFFFFC00000000000 ≤ v) (hv : v < 2 ^ 64) :
    ¬InDirectMap 0xFFFF800000000000 (2 ^ 30) v := by
  rintro ⟨k, hk, hsame⟩
  rw [hhdmMapSize_small] at hk
  simp only [SameSlot, Nat.shiftRight_eq_div_pow, Nat.and_two_pow_sub_one_eq_mod] at hsame
  unfold add64 at hsame
  omega

/-- A heap page mapped after `vmm_init` on a machine with 4 GiB. -/
theorem page_map_laws_heap : ∃ s₁ s', vmmInit (bump 0xFFFF800000000000)
      ⟨fun _ => 0, 0xFFFF800000000000, 0, 0⟩ 0x200000 0xFFFFFFFF80000000 0x1000 = .ok s₁ ∧
    vmmMap (bump 0xFFFF800000000000) s₁ 0xFFFFC00000000000 0x40000000 3 = .ok s' ∧
    vmmGetPhys s' 0xFFFFC00000000123 = 0x40000123 ∧
    vmmGetPhys (vmmUnmap s₁ 0xFFFFC00000000000) 0xFFFFC00000000123 = 0 := by
  have hA := bump_lawful (h := 0xFFFF800000000000) (by decide)
  have hout : KernelOutside 0xFFFF800000000000 (2 ^ 30) 0xFFFFFFFF80000000 0x1000 := by
    intro j hj
    rw [ksizeAligned_page] at hj
    obtain rfl : j = 0 := by omega
    exact outside_bump (by decide) (by decide)
  have hcounts : Counts (bump 0xFFFF800000000000) := bump_counts
  obtain ⟨s₁, hinit, hp⟩ := hcounts.vmmInit (h := 0xFFFF800000000000) rfl hhdmMapSize_small
    (by decide) (fun _ => 0) 0x200000 0xFFFFFFFF80000000
  obtain ⟨s', hmap, -⟩ := hcounts.vmmMap (s := s₁) (by omega) 0xFFFFC00000000000 0x40000000 3
  have hmax : maxPhysAtInit (bump 0xFFFF800000000000) ⟨fun _ => 0, 0xFFFF800000000000, 0, 0⟩ =
      2 ^ 30 := maxPhysAtInit_eq fun _ => rfl
  rw [← hmax] at hout
  have hfar : ¬InDirectMap 0xFFFF800000000000 (2 ^ 30) 0xFFFFC00000000000 :=
    outside_bump (by decide) (by decide)
  rw [← hmax] at hfar
  have hv : NoHuge s₁ 0xFFFFC00000000000 := noHuge_outside hA hout hinit .refl hfar
  obtain ⟨hmapped, hunmapped, -⟩ := page_map_laws hA hout hinit .refl hv
  have hpage : SamePage 0xFFFFC00000000123 0xFFFFC00000000000 := by unfold SamePage; decide
  refine ⟨s₁, s', hinit, hmap, ?_, hunmapped _ hpage⟩
  exact (hmapped _ _ s' (by decide) (by decide) (by decide) hmap).1 _ hpage

end

end

end PolandOS.Vmm
