import Mathlib.Tactic.Linarith
import Mathlib.Data.List.Perm.Basic

/-! # Tilings of a region by headed blocks

A region is cut into consecutive blocks, each a header of `h` bytes and a
payload. A tiling is the list of its cells in address order; where a cell lies
follows from the cells before it, so gaps and overlaps cannot be written down.
The three edits of a free-list allocator are functions on lists of cells:

* `split`: a cell is cut in two, the second part free;
* `absorb`: a cell takes in a free right neighbour;
* `release`: a cell becomes free and merges with both neighbours.

Each keeps the extent of the region. `Coalesced` (no two neighbours are both
free) survives `release`, and survives `split` where the right neighbour of the
cell is not free.
-/

namespace Tiling

/-- A block: its payload size and whether it is in use. -/
structure Cell where
  size : Nat
  used : Bool
deriving DecidableEq, Repr

variable (h : Nat)

/-- Bytes a list of cells occupies, headers included. -/
def extent : List Cell → Nat
  | [] => 0
  | c :: cs => h + c.size + extent cs

@[simp] theorem extent_nil : extent h [] = 0 := rfl

@[simp] theorem extent_cons (c : Cell) (cs : List Cell) :
    extent h (c :: cs) = h + c.size + extent h cs := rfl

@[simp] theorem extent_append (xs ys : List Cell) :
    extent h (xs ++ ys) = extent h xs + extent h ys := by
  induction xs with
  | nil => simp
  | cons c cs ih => simp [ih, Nat.add_assoc]

/-- Block addresses of the cells laid out from `a` on. -/
def addrs (a : Nat) : List Cell → List Nat
  | [] => []
  | c :: cs => a :: addrs (a + (h + c.size)) cs

@[simp] theorem addrs_nil (a : Nat) : addrs h a [] = [] := rfl

@[simp] theorem addrs_cons (a : Nat) (c : Cell) (cs : List Cell) :
    addrs h a (c :: cs) = a :: addrs h (a + (h + c.size)) cs := rfl

theorem addrs_append (a : Nat) (xs ys : List Cell) :
    addrs h a (xs ++ ys) = addrs h a xs ++ addrs h (a + extent h xs) ys := by
  induction xs generalizing a with
  | nil => simp
  | cons c cs ih => simp [ih, Nat.add_assoc]

/-- Every block lies inside the extent, header included. -/
theorem mem_addrs_bounds {a b : Nat} {cs : List Cell} (hb : b ∈ addrs h a cs) :
    a ≤ b ∧ b + h ≤ a + extent h cs := by
  induction cs generalizing a with
  | nil => simp at hb
  | cons c cs ih =>
      simp only [addrs_cons, List.mem_cons] at hb
      rw [extent_cons]
      rcases hb with rfl | hb
      · omega
      · have := ih hb
        omega

/-- The headers of two blocks do not overlap. -/
theorem addrs_apart {a b b' : Nat} {cs : List Cell} (hb : b ∈ addrs h a cs)
    (hb' : b' ∈ addrs h a cs) (hne : b ≠ b') : b + h ≤ b' ∨ b' + h ≤ b := by
  induction cs generalizing a with
  | nil => simp at hb
  | cons c cs ih =>
      rw [addrs_cons, List.mem_cons] at hb hb'
      rcases hb with rfl | hb
      · have hbound := mem_addrs_bounds h (hb'.resolve_left (Ne.symm hne))
        omega
      · rcases hb' with rfl | hb'
        · have hbound := mem_addrs_bounds h hb
          omega
        · exact ih hb hb'

/-- A cell of the list, with the cells around it. -/
theorem mem_addrs_iff {a b : Nat} {cs : List Cell} :
    b ∈ addrs h a cs ↔ ∃ xs c ys, cs = xs ++ c :: ys ∧ b = a + extent h xs := by
  induction cs generalizing a with
  | nil => simp
  | cons d cs ih =>
      simp only [addrs_cons, List.mem_cons, ih]
      constructor
      · rintro (rfl | ⟨xs, c, ys, rfl, rfl⟩)
        · exact ⟨[], d, cs, rfl, by simp⟩
        · exact ⟨d :: xs, c, ys, rfl, by simp [Nat.add_assoc]⟩
      · rintro ⟨xs, c, ys, hcs, rfl⟩
        cases xs with
        | nil => exact Or.inl (by simp)
        | cons x xs =>
            obtain ⟨rfl, rfl⟩ := List.cons.inj hcs
            exact Or.inr ⟨xs, c, ys, rfl, by simp [Nat.add_assoc]⟩

/-- Payload address and size of each cell in use. -/
def live (a : Nat) : List Cell → List (Nat × Nat)
  | [] => []
  | c :: cs => (if c.used then [(a + h, c.size)] else []) ++ live (a + (h + c.size)) cs

@[simp] theorem live_nil (a : Nat) : live h a [] = [] := rfl

theorem live_cons (a : Nat) (c : Cell) (cs : List Cell) :
    live h a (c :: cs) =
      (if c.used then [(a + h, c.size)] else []) ++ live h (a + (h + c.size)) cs := rfl

theorem live_append (a : Nat) (xs ys : List Cell) :
    live h a (xs ++ ys) = live h a xs ++ live h (a + extent h xs) ys := by
  induction xs generalizing a with
  | nil => simp
  | cons c cs ih => simp [live_cons, ih, Nat.add_assoc]

/-- A live block is a used cell with the cells before it. -/
theorem mem_live_iff {a p n : Nat} {cs : List Cell} :
    (p, n) ∈ live h a cs ↔
      ∃ xs ys, cs = xs ++ ⟨n, true⟩ :: ys ∧ p = a + extent h xs + h := by
  induction cs generalizing a with
  | nil => simp
  | cons d cs ih =>
      rw [live_cons, List.mem_append, ih]
      constructor
      · rintro (hd | ⟨xs, ys, rfl, rfl⟩)
        · obtain ⟨s, u⟩ := d
          cases u with
          | false => simp at hd
          | true =>
              obtain ⟨rfl, rfl⟩ : p = a + h ∧ n = s := by simpa using hd
              exact ⟨[], cs, rfl, by simp⟩
        · exact ⟨d :: xs, ys, rfl, by simp [Nat.add_assoc]⟩
      · rintro ⟨xs, ys, hcs, rfl⟩
        cases xs with
        | nil =>
            obtain ⟨rfl, rfl⟩ := List.cons.inj hcs
            exact Or.inl (by simp)
        | cons x xs =>
            obtain ⟨rfl, rfl⟩ := List.cons.inj hcs
            exact Or.inr ⟨xs, ys, rfl, by simp [Nat.add_assoc]⟩

theorem mem_live_bounds {a p n : Nat} {cs : List Cell} (hp : (p, n) ∈ live h a cs) :
    a + h ≤ p ∧ p + n ≤ a + extent h cs := by
  obtain ⟨xs, ys, rfl, rfl⟩ := (mem_live_iff h).mp hp
  rw [extent_append, extent_cons]
  dsimp only
  omega

/-- Distinct cells in use have distinct payload addresses. -/
theorem live_nodup (hh : 0 < h) (a : Nat) (cs : List Cell) :
    ((live h a cs).map Prod.fst).Nodup := by
  induction cs generalizing a with
  | nil => simp
  | cons c cs ih =>
      rw [live_cons]
      cases c.used with
      | false => simpa using ih _
      | true =>
          have hnot : a + h ∉ (live h (a + (h + c.size)) cs).map Prod.fst := by
            intro hm
            obtain ⟨⟨p, n⟩, hm, rfl⟩ := List.mem_map.mp hm
            have := mem_live_bounds h hm
            omega
          simpa using ⟨by simpa using hnot, ih _⟩

/-- The payloads of two cells in use do not overlap. -/
theorem live_apart {a p n q k : Nat} {cs : List Cell} (hp : (p, n) ∈ live h a cs)
    (hq : (q, k) ∈ live h a cs) (hne : p ≠ q) : p + n ≤ q ∨ q + k ≤ p := by
  induction cs generalizing a with
  | nil => simp at hp
  | cons c cs ih =>
      rw [live_cons, List.mem_append] at hp hq
      have hhead : ∀ x y, (x, y) ∈ (if c.used then [(a + h, c.size)] else []) →
          x = a + h ∧ y = c.size := by
        intro x y hxy
        split at hxy
        · exact Prod.mk.inj (List.mem_singleton.mp hxy)
        · cases hxy
      rcases hp with hp | hp
      · obtain ⟨rfl, rfl⟩ := hhead p n hp
        rcases hq with hq | hq
        · exact absurd (hhead q k hq).1.symm hne
        · have hbound := mem_live_bounds h hq
          omega
      · rcases hq with hq | hq
        · obtain ⟨rfl, rfl⟩ := hhead q k hq
          have hbound := mem_live_bounds h hp
          omega
        · exact ih hp hq

/-! ## Edits -/

/-- Cut the cell to `n` payload bytes if the rest can hold a header and `q`
bytes; the rest becomes a free cell. -/
def split (q : Nat) (c : Cell) (n : Nat) : List Cell :=
  if n + (h + q) ≤ c.size then [⟨n, c.used⟩, ⟨c.size - (h + n), false⟩] else [c]

/-- Take in the right neighbour if it is free. -/
def absorb (c : Cell) : List Cell → List Cell
  | ⟨s, false⟩ :: ys => ⟨c.size + (h + s), c.used⟩ :: ys
  | ys => c :: ys

/-- Free the cell between `xs` and `ys` and merge it with both neighbours. -/
def release (xs : List Cell) (c : Cell) (ys : List Cell) : List Cell :=
  match xs.getLast? with
  | some ⟨s, false⟩ => xs.dropLast ++ absorb h ⟨s, false⟩ (absorb h ⟨c.size, false⟩ ys)
  | _ => xs ++ absorb h ⟨c.size, false⟩ ys

theorem extent_split (q : Nat) (c : Cell) (n : Nat) :
    extent h (split h q c n) = h + c.size := by
  unfold split
  split
  · simp only [extent_cons, extent_nil]
    omega
  · simp

theorem split_ne_nil (q : Nat) (c : Cell) (n : Nat) : split h q c n ≠ [] := by
  unfold split
  split <;> simp

theorem extent_absorb (c : Cell) (ys : List Cell) :
    extent h (absorb h c ys) = h + c.size + extent h ys := by
  unfold absorb
  split
  · simp only [extent_cons]
    omega
  · rfl

/-- `release` where the left neighbour is free. -/
theorem release_free_left (xs : List Cell) (s : Nat) (c : Cell) (ys : List Cell) :
    release h (xs ++ [⟨s, false⟩]) c ys =
      xs ++ absorb h ⟨s, false⟩ (absorb h ⟨c.size, false⟩ ys) := by
  simp [release]

/-- `release` where there is no free left neighbour. -/
theorem release_used_left {xs : List Cell} (hx : ∀ s, xs.getLast? ≠ some ⟨s, false⟩)
    (c : Cell) (ys : List Cell) : release h xs c ys = xs ++ absorb h ⟨c.size, false⟩ ys := by
  unfold release
  split
  · rename_i s hs
    exact absurd hs (hx s)
  · rfl

/-- The two shapes of a left neighbourhood. -/
theorem left_cases (xs : List Cell) :
    (∃ xs' s, xs = xs' ++ [⟨s, false⟩]) ∨ ∀ s, xs.getLast? ≠ some ⟨s, false⟩ := by
  rcases List.eq_nil_or_concat xs with rfl | ⟨xs', ⟨s, u⟩, rfl⟩
  · exact Or.inr (by simp)
  · cases u with
    | false => exact Or.inl ⟨xs', s, by simp⟩
    | true => exact Or.inr (by simp)

theorem extent_release (xs : List Cell) (c : Cell) (ys : List Cell) :
    extent h (release h xs c ys) = extent h (xs ++ c :: ys) := by
  rcases left_cases xs with ⟨xs, s, rfl⟩ | hx
  · rw [release_free_left]
    simp only [extent_append, extent_absorb, extent_cons, extent_nil]
    omega
  · rw [release_used_left h hx]
    simp only [extent_append, extent_absorb, extent_cons]

/-! ## Cells in use under the edits -/

theorem live_absorb_free (a s : Nat) (ys : List Cell) :
    live h a (absorb h ⟨s, false⟩ ys) = live h (a + (h + s)) ys := by
  unfold absorb
  split <;> simp [live_cons, Nat.add_assoc]

/-- Releasing a cell takes away exactly that cell. -/
theorem live_release (a : Nat) (xs : List Cell) (c : Cell) (ys : List Cell) :
    live h a (release h xs c ys) =
      live h a xs ++ live h (a + extent h xs + (h + c.size)) ys := by
  rcases left_cases xs with ⟨xs, s, rfl⟩ | hx
  · rw [release_free_left]
    simp [live_append, live_absorb_free, live_cons, Nat.add_assoc]
  · rw [release_used_left h hx]
    simp [live_append, live_absorb_free, Nat.add_assoc]

/-- A cell in use that is split keeps its address; its size becomes the first
part's. -/
theorem live_split (q a : Nat) (s n : Nat) :
    ∃ k, live h a (split h q ⟨s, true⟩ n) = [(a + h, k)] ∧ (n ≤ s → n ≤ k) := by
  unfold split
  split
  · exact ⟨n, by simp [live_cons], fun _ => le_refl n⟩
  · exact ⟨s, by simp [live_cons], fun hn => hn⟩

/-! ## Alignment -/

/-- Every block but the last has a size divisible by `k`, so that with `k ∣ h`
every block starts on a multiple of `k`. -/
def SizesAligned (k : Nat) (cs : List Cell) : Prop := ∀ c ∈ cs.dropLast, k ∣ c.size

theorem sizesAligned_cons_iff {k : Nat} {c : Cell} {cs : List Cell} :
    SizesAligned k (c :: cs) ↔ (cs ≠ [] → k ∣ c.size) ∧ SizesAligned k cs := by
  cases cs with
  | nil => simp [SizesAligned]
  | cons d cs => simp [SizesAligned, List.dropLast_cons_of_ne_nil]

theorem sizesAligned_append_iff {k : Nat} {xs ys : List Cell} (hne : ys ≠ []) :
    SizesAligned k (xs ++ ys) ↔ (∀ c ∈ xs, k ∣ c.size) ∧ SizesAligned k ys := by
  simp only [SizesAligned, List.dropLast_append_of_ne_nil hne, List.mem_append]
  constructor
  · exact fun hc => ⟨fun c hx => hc c (Or.inl hx), fun c hy => hc c (Or.inr hy)⟩
  · rintro ⟨hx, hy⟩ c (hc | hc)
    · exact hx c hc
    · exact hy c hc

variable {h}

theorem absorb_ne_nil (c : Cell) (ys : List Cell) : absorb h c ys ≠ [] := by
  unfold absorb
  split <;> simp

/-- A free cell stays free while it takes in its neighbour. -/
theorem absorb_free (h s : Nat) (ys : List Cell) :
    ∃ k zs, absorb h ⟨s, false⟩ ys = ⟨k, false⟩ :: zs := by
  unfold absorb
  split <;> exact ⟨_, _, rfl⟩

theorem sizesAligned_absorb {k : Nat} (hk : k ∣ h) {c : Cell} {ys : List Cell}
    (hc : SizesAligned k (c :: ys)) : SizesAligned k (absorb h c ys) := by
  unfold absorb
  split
  · rename_i s ys
    rw [sizesAligned_cons_iff, sizesAligned_cons_iff] at hc
    rw [sizesAligned_cons_iff]
    exact ⟨fun hy => Nat.dvd_add (hc.1 (by simp)) (Nat.dvd_add hk (hc.2.1 hy)), hc.2.2⟩
  · exact hc

theorem sizesAligned_release {k : Nat} (hk : k ∣ h) {xs : List Cell} {c : Cell} {ys : List Cell}
    (hc : SizesAligned k (xs ++ c :: ys)) : SizesAligned k (release h xs c ys) := by
  rw [sizesAligned_append_iff (by simp), sizesAligned_cons_iff] at hc
  have hcy : SizesAligned k (absorb h ⟨c.size, false⟩ ys) :=
    sizesAligned_absorb hk (sizesAligned_cons_iff.mpr hc.2)
  rcases left_cases xs with ⟨xs, s, rfl⟩ | hx
  · rw [release_free_left, sizesAligned_append_iff (absorb_ne_nil _ _)]
    refine ⟨fun d hd => hc.1 d (by simp [hd]), sizesAligned_absorb hk ?_⟩
    exact sizesAligned_cons_iff.mpr ⟨fun _ => hc.1 ⟨s, false⟩ (by simp), hcy⟩
  · rw [release_used_left h hx, sizesAligned_append_iff (absorb_ne_nil _ _)]
    exact ⟨hc.1, hcy⟩

theorem sizesAligned_split {k q n : Nat} (hk : k ∣ h) (hn : k ∣ n) {xs : List Cell} {c : Cell}
    {ys : List Cell} (u : Bool) (hc : SizesAligned k (xs ++ c :: ys)) :
    SizesAligned k (xs ++ (split h q ⟨c.size, u⟩ n ++ ys)) := by
  rw [sizesAligned_append_iff (by simp), sizesAligned_cons_iff] at hc
  unfold split
  split
  · rw [sizesAligned_append_iff (by simp)]
    refine ⟨hc.1, ?_⟩
    simp only [List.cons_append, List.nil_append, sizesAligned_cons_iff]
    exact ⟨fun _ => hn, fun hy => Nat.dvd_sub (hc.2.1 hy) (Nat.dvd_add hk hn), hc.2.2⟩
  · rw [sizesAligned_append_iff (by simp)]
    exact ⟨hc.1, sizesAligned_cons_iff.mpr hc.2⟩

variable (h)

/-! ## First fit -/

/-- The first free cell of at least `n` bytes, with the cells around it. -/
def firstFit (n : Nat) : List Cell → Option (List Cell × Cell × List Cell)
  | [] => none
  | c :: cs =>
    if c.used = false ∧ n ≤ c.size then some ([], c, cs)
    else (firstFit n cs).map fun r => (c :: r.1, r.2)

theorem firstFit_some {n : Nat} {cs xs ys : List Cell} {c : Cell}
    (hf : firstFit n cs = some (xs, c, ys)) : cs = xs ++ c :: ys ∧ c.used = false ∧ n ≤ c.size := by
  induction cs generalizing xs with
  | nil => simp [firstFit] at hf
  | cons d cs ih =>
      rw [firstFit] at hf
      split at hf
      · rename_i hd
        obtain ⟨rfl, rfl, rfl⟩ : [] = xs ∧ d = c ∧ cs = ys := by simpa using hf
        exact ⟨rfl, hd⟩
      · obtain ⟨⟨xs', c', ys'⟩, hr, he⟩ := Option.map_eq_some_iff.mp hf
        obtain ⟨rfl, rfl, rfl⟩ : d :: xs' = xs ∧ c' = c ∧ ys' = ys := by simpa using he
        obtain ⟨rfl, hrest⟩ := ih hr
        exact ⟨rfl, hrest⟩

/-- Nothing fits when every cell is in use. -/
theorem firstFit_of_used {n : Nat} {cs : List Cell} (hu : ∀ c ∈ cs, c.used = true) :
    firstFit n cs = none := by
  induction cs with
  | nil => rfl
  | cons d cs ih =>
      have hd : d.used = true := hu d (by simp)
      rw [firstFit, if_neg (by simp [hd]), ih fun c hc => hu c (by simp [hc])]
      rfl

/-- A cell in use is not the one first fit takes, so it stays in use. -/
theorem live_firstFit {q n a : Nat} {cs xs ys : List Cell} {c : Cell}
    (hf : firstFit n cs = some (xs, c, ys)) :
    ∃ k, n ≤ k ∧ (live h a (xs ++ (split h q ⟨c.size, true⟩ n ++ ys))).Perm
      ((a + extent h xs + h, k) :: live h a cs) := by
  obtain ⟨rfl, hu, hn⟩ := firstFit_some hf
  obtain ⟨k, hk, hkn⟩ := live_split h q (a + extent h xs) c.size n
  refine ⟨k, hkn hn, ?_⟩
  simp only [live_append, live_cons, hk, hu, extent_split]
  simp

/-! ## Coalesced tilings -/

/-- No two neighbouring cells are both free. -/
def Coalesced : List Cell → Prop
  | c :: d :: cs => (c.used = true ∨ d.used = true) ∧ Coalesced (d :: cs)
  | _ => True

/-- The first cell, if there is one, is in use. -/
def HeadUsed (cs : List Cell) : Prop := ∀ s, cs.head? ≠ some ⟨s, false⟩

theorem coalesced_cons_iff {c : Cell} {cs : List Cell} :
    Coalesced (c :: cs) ↔ (c.used = true ∨ HeadUsed cs) ∧ Coalesced cs := by
  cases cs with
  | nil => simp [Coalesced, HeadUsed]
  | cons d cs =>
      obtain ⟨s, u⟩ := d
      cases u <;> simp [Coalesced, HeadUsed]

theorem coalesced_append_iff {xs ys : List Cell} :
    Coalesced (xs ++ ys) ↔ Coalesced xs ∧ Coalesced ys ∧
      ((∀ s, xs.getLast? ≠ some ⟨s, false⟩) ∨ HeadUsed ys) := by
  induction xs with
  | nil => simp [Coalesced]
  | cons c cs ih =>
      rw [List.cons_append, coalesced_cons_iff, ih, coalesced_cons_iff]
      cases cs with
      | nil =>
          obtain ⟨s, u⟩ := c
          cases u <;> simp [Coalesced, HeadUsed, and_comm]
      | cons d cs =>
          simp only [List.cons_append, HeadUsed, List.head?_cons, List.getLast?_cons_cons]
          tauto

theorem coalesced_absorb {c : Cell} {ys : List Cell} (hy : Coalesced ys) :
    Coalesced (absorb h c ys) := by
  unfold absorb
  split
  · rename_i s ys
    rw [coalesced_cons_iff] at hy ⊢
    have hys : HeadUsed ys := by simpa using hy.1
    exact ⟨Or.inr hys, hy.2⟩
  · rename_i hne
    rw [coalesced_cons_iff]
    refine ⟨Or.inr ?_, hy⟩
    intro s hs
    cases ys with
    | nil => simp at hs
    | cons d ys =>
        obtain rfl : d = ⟨s, false⟩ := by simpa using hs
        exact hne s ys rfl

/-- Releasing a cell in use keeps a coalesced tiling coalesced. -/
theorem coalesced_release {xs : List Cell} {c : Cell} {ys : List Cell}
    (hc : Coalesced (xs ++ c :: ys)) : Coalesced (release h xs c ys) := by
  rw [coalesced_append_iff, coalesced_cons_iff] at hc
  obtain ⟨hxs, ⟨-, hys⟩, -⟩ := hc
  rcases left_cases xs with ⟨xs, s, rfl⟩ | hx
  · rw [release_free_left, coalesced_append_iff]
    rw [coalesced_append_iff] at hxs
    refine ⟨hxs.1, coalesced_absorb h (coalesced_absorb h hys), Or.inl ?_⟩
    rcases hxs.2.2 with hl | hl
    · exact hl
    · exact absurd rfl (hl s)
  · rw [release_used_left h hx, coalesced_append_iff]
    exact ⟨hxs, coalesced_absorb h hys, Or.inl hx⟩

/-- Splitting off a free rest keeps a tiling coalesced when the right neighbour
of the cell is in use (or the cell is not split at all). -/
theorem coalesced_split {q n : Nat} {xs : List Cell} {c : Cell} {ys : List Cell}
    (hc : Coalesced (xs ++ c :: ys)) (hy : n + (h + q) ≤ c.size → HeadUsed ys) :
    Coalesced (xs ++ (split h q ⟨c.size, true⟩ n ++ ys)) := by
  rw [coalesced_append_iff, coalesced_cons_iff] at hc
  obtain ⟨hxs, ⟨-, hys⟩, -⟩ := hc
  unfold split
  split
  · rename_i hn
    rw [coalesced_append_iff]
    refine ⟨hxs, ?_, Or.inr (by simp [HeadUsed])⟩
    have hfree : Coalesced (⟨c.size - (h + n), false⟩ :: ys) :=
      coalesced_cons_iff.mpr ⟨Or.inr (hy hn), hys⟩
    exact coalesced_cons_iff.mpr ⟨Or.inl rfl, hfree⟩
  · rw [coalesced_append_iff]
    refine ⟨hxs, ?_, Or.inr (by simp [HeadUsed])⟩
    simpa [coalesced_cons_iff] using hys

/-- A coalesced tiling with no cell in use is a single free cell. -/
theorem single_of_no_used {cs : List Cell} (hc : Coalesced cs) (hne : cs ≠ [])
    (hu : ∀ c ∈ cs, c.used = false) : ∃ s, cs = [⟨s, false⟩] := by
  cases cs with
  | nil => exact absurd rfl hne
  | cons c cs =>
      have hcu : c.used = false := hu c (by simp)
      cases cs with
      | nil => exact ⟨c.size, by rw [← hcu]⟩
      | cons d cs =>
          have hdu : d.used = false := hu d (by simp)
          rcases hc.1 with h1 | h1
          · simp [hcu] at h1
          · simp [hdu] at h1

theorem used_false_of_live_nil {a : Nat} {cs : List Cell} (hn : live h a cs = []) :
    ∀ c ∈ cs, c.used = false := by
  induction cs generalizing a with
  | nil => simp
  | cons c cs ih =>
      rw [live_cons, List.append_eq_nil_iff] at hn
      intro d hd
      rcases List.mem_cons.mp hd with rfl | hd
      · cases hdu : d.used with
        | false => rfl
        | true => simp [hdu] at hn
      · exact ih hn.2 d hd

end Tiling
