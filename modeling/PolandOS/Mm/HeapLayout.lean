import PolandOS.Mm.Heap
import PolandOS.Lib.Tiling

/-! # What the heap's memory spells out

`Linked` relates the headers in memory to a tiling: the block of every cell
carries the magic number, its size and used flag, the address of the cell before
it and the address of the cell after it. The lemmas below say how each group of
header writes in `heap.c` edits the tiling.
-/

namespace PolandOS.Heap

open ByteMem Tiling

/-- The five fields of a `BlockHeader`. -/
@[ext] structure Header where
  magic : Nat
  used : Nat
  size : Nat
  prev : Nat
  next : Nat
deriving DecidableEq

/-- The header stored at an address. -/
def header (m : Mem) (b : Nat) : Header :=
  ⟨magic m b, used m b, size m b, prev m b, next m b⟩

section Fields

variable {m : Mem} {b : Nat} {h : Header}

theorem magic_of_header (hh : header m b = h) : magic m b = h.magic := by
  subst hh
  rfl

theorem used_of_header (hh : header m b = h) : used m b = h.used := by
  subst hh
  rfl

theorem size_of_header (hh : header m b = h) : size m b = h.size := by
  subst hh
  rfl

theorem prev_of_header (hh : header m b = h) : prev m b = h.prev := by
  subst hh
  rfl

theorem next_of_header (hh : header m b = h) : next m b = h.next := by
  subst hh
  rfl

end Fields

/-- A header depends only on its 32 bytes. -/
theorem header_congr {m m' : Mem} {b : Nat}
    (h : ∀ i < 32, m' (byteAt b i) = m (byteAt b i)) : header m' b = header m b := by
  have hread : ∀ off n, off + n ≤ 32 → readLE m' (b + off) n = readLE m (b + off) n := by
    intro off n hon
    apply readLE_congr
    intro i hi
    have := h (off + i) (by omega)
    simpa [byteAt, Nat.add_assoc] using this
  ext
  · exact hread 0 4 (by omega)
  · exact hread 4 4 (by omega)
  · exact hread 8 8 (by omega)
  · exact hread 16 8 (by omega)
  · exact hread 24 8 (by omega)

/-- A field write changes only the bytes of its own header. -/
theorem writeLE_header_frame (m : Mem) {b off n x : Nat} (v : Nat) (hoff : off + n ≤ 32)
    (hx : ∀ i < 32, x ≠ byteAt b i) : writeLE m (b + off) n v x = m x := by
  apply writeLE_frame
  intro i hi
  have := hx (off + i) (by omega)
  simpa [byteAt, Nat.add_assoc] using this

/-- Two headers inside the address space that do not overlap. -/
def HdrApart (a b : Nat) : Prop :=
  a + 32 ≤ 2 ^ 64 ∧ b + 32 ≤ 2 ^ 64 ∧ (a + 32 ≤ b ∨ b + 32 ≤ a)

theorem header_write_ne (m : Mem) {a b : Nat} (off n v : Nat) (hoff : off + n ≤ 32)
    (h : HdrApart a b) : header (writeLE m (a + off) n v) b = header m b := by
  apply header_congr
  intro i hi
  apply writeLE_header_frame m v hoff
  intro j hj
  rw [byteAt_eq (by have := h.2.1; omega), byteAt_eq (by have := h.1; omega)]
  have := h.2.2
  omega

section FieldWrites

variable (m : Mem) {a b : Nat} (v : Nat)

theorem header_setMagic_ne (h : HdrApart a b) : header (setMagic m a v) b = header m b :=
  header_write_ne m 0 4 v (by omega) h

theorem header_setUsed_ne (h : HdrApart a b) : header (setUsed m a v) b = header m b :=
  header_write_ne m 4 4 v (by omega) h

theorem header_setSize_ne (h : HdrApart a b) : header (setSize m a v) b = header m b :=
  header_write_ne m 8 8 v (by omega) h

theorem header_setPrev_ne (h : HdrApart a b) : header (setPrev m a v) b = header m b :=
  header_write_ne m 16 8 v (by omega) h

theorem header_setNext_ne (h : HdrApart a b) : header (setNext m a v) b = header m b :=
  header_write_ne m 24 8 v (by omega) h

/-- Reading the field at `off` after writing the one at `off'`. -/
theorem read_write_field (off n off' n' : Nat) (hb : b + 32 ≤ 2 ^ 64)
    (h : off + n ≤ 32 ∧ off' + n' ≤ 32 ∧ (off + n ≤ off' ∨ off' + n' ≤ off)) :
    readLE (writeLE m (b + off') n' v) (b + off) n = readLE m (b + off) n :=
  readLE_writeLE_apart m v (apart_of_le (by omega) (by omega) (by omega))

theorem header_setMagic (hb : b + 32 ≤ 2 ^ 64) (hv : v < 2 ^ 32) :
    header (setMagic m b v) b = { header m b with magic := v } := by
  ext
  · exact (readLE_writeLE m v (by omega)).trans (Nat.mod_eq_of_lt hv)
  · exact read_write_field m v 4 4 0 4 hb (by decide)
  · exact read_write_field m v 8 8 0 4 hb (by decide)
  · exact read_write_field m v 16 8 0 4 hb (by decide)
  · exact read_write_field m v 24 8 0 4 hb (by decide)

theorem header_setUsed (hb : b + 32 ≤ 2 ^ 64) (hv : v < 2 ^ 32) :
    header (setUsed m b v) b = { header m b with used := v } := by
  ext
  · exact read_write_field m v 0 4 4 4 hb (by decide)
  · exact (readLE_writeLE m v (by omega)).trans (Nat.mod_eq_of_lt hv)
  · exact read_write_field m v 8 8 4 4 hb (by decide)
  · exact read_write_field m v 16 8 4 4 hb (by decide)
  · exact read_write_field m v 24 8 4 4 hb (by decide)

theorem header_setSize (hb : b + 32 ≤ 2 ^ 64) (hv : v < 2 ^ 64) :
    header (setSize m b v) b = { header m b with size := v } := by
  ext
  · exact read_write_field m v 0 4 8 8 hb (by decide)
  · exact read_write_field m v 4 4 8 8 hb (by decide)
  · exact (readLE_writeLE m v (by omega)).trans (Nat.mod_eq_of_lt hv)
  · exact read_write_field m v 16 8 8 8 hb (by decide)
  · exact read_write_field m v 24 8 8 8 hb (by decide)

theorem header_setPrev (hb : b + 32 ≤ 2 ^ 64) (hv : v < 2 ^ 64) :
    header (setPrev m b v) b = { header m b with prev := v } := by
  ext
  · exact read_write_field m v 0 4 16 8 hb (by decide)
  · exact read_write_field m v 4 4 16 8 hb (by decide)
  · exact read_write_field m v 8 8 16 8 hb (by decide)
  · exact (readLE_writeLE m v (by omega)).trans (Nat.mod_eq_of_lt hv)
  · exact read_write_field m v 24 8 16 8 hb (by decide)

theorem header_setNext (hb : b + 32 ≤ 2 ^ 64) (hv : v < 2 ^ 64) :
    header (setNext m b v) b = { header m b with next := v } := by
  ext
  · exact read_write_field m v 0 4 24 8 hb (by decide)
  · exact read_write_field m v 4 4 24 8 hb (by decide)
  · exact read_write_field m v 8 8 24 8 hb (by decide)
  · exact read_write_field m v 16 8 24 8 hb (by decide)
  · exact (readLE_writeLE m v (by omega)).trans (Nat.mod_eq_of_lt hv)

end FieldWrites

/-! ## Memory spells out a tiling -/

/-- The pointer to the first of the cells laid out at `a`; `nxt` if there is
none. -/
def firstPtr (nxt a : Nat) : List Cell → Nat
  | [] => nxt
  | _ :: _ => a

/-- The address of the last of the cells laid out at `a`; `p` if there is none. -/
def lastPtr (p a : Nat) : List Cell → Nat
  | [] => p
  | c :: cs => lastPtr a (a + (32 + c.size)) cs

theorem lastPtr_concat (p a : Nat) (xs : List Cell) (c : Cell) :
    lastPtr p a (xs ++ [c]) = a + extent 32 xs := by
  induction xs generalizing p a with
  | nil => rfl
  | cons d xs ih =>
      rw [List.cons_append, lastPtr, ih, extent_cons]
      omega

/-- The headers from `a` on spell out `cells`; `p` is the block before the first
and `nxt` what the last one's `next` holds. -/
def Linked (m : Mem) (p a : Nat) : List Cell → Nat → Prop
  | [], _ => True
  | c :: cs, nxt =>
    header m a = ⟨heapMagic, if c.used then 1 else 0, c.size, p, firstPtr nxt (a + (32 + c.size)) cs⟩ ∧
      Linked m a (a + (32 + c.size)) cs nxt

theorem linked_append {m : Mem} {p a : Nat} {xs ys : List Cell} {nxt : Nat} :
    Linked m p a (xs ++ ys) nxt ↔
      Linked m p a xs (firstPtr nxt (a + extent 32 xs) ys) ∧
        Linked m (lastPtr p a xs) (a + extent 32 xs) ys nxt := by
  induction xs generalizing p a with
  | nil => simp [Linked, lastPtr]
  | cons c cs ih =>
      have hptr : firstPtr nxt (a + (32 + c.size)) (cs ++ ys) =
          firstPtr (firstPtr nxt (a + extent 32 (c :: cs)) ys) (a + (32 + c.size)) cs := by
        cases cs with
        | nil => simp [firstPtr]
        | cons d cs => rfl
      simp only [List.cons_append, Linked, ih, hptr, lastPtr, extent_cons, Nat.add_assoc, and_assoc]

/-- `Linked` depends only on the headers of its blocks. -/
theorem linked_frame {m m' : Mem} {p a : Nat} {cs : List Cell} {nxt : Nat}
    (h : ∀ b ∈ addrs 32 a cs, header m' b = header m b) (hl : Linked m p a cs nxt) :
    Linked m' p a cs nxt := by
  induction cs generalizing p a with
  | nil => trivial
  | cons c cs ih =>
      obtain ⟨hh, ht⟩ := hl
      exact ⟨(h a (by simp)).trans hh, ih (fun b hb => h b (by simp [hb])) ht⟩

/-- A list of blocks whose first one was given another predecessor. -/
theorem linked_reparent {m m' : Mem} {p p' a : Nat} {cs : List Cell} {nxt : Nat}
    (hd : cs ≠ [] → header m' a = { header m a with prev := p' })
    (h : ∀ b ∈ addrs 32 a cs, b ≠ a → header m' b = header m b) (hl : Linked m p a cs nxt) :
    Linked m' p' a cs nxt := by
  cases cs with
  | nil => trivial
  | cons c cs =>
      obtain ⟨hh, ht⟩ := hl
      refine ⟨by rw [hd (by simp), hh], linked_frame (fun b hb => ?_) ht⟩
      have := mem_addrs_bounds 32 hb
      exact h b (by simp [hb]) (by omega)

/-- The header of one cell of a linked list. -/
theorem Linked.header_eq {m : Mem} {p a : Nat} {xs ys : List Cell} {c : Cell} {nxt : Nat}
    (hl : Linked m p a (xs ++ c :: ys) nxt) :
    header m (a + extent 32 xs) =
      ⟨heapMagic, if c.used then 1 else 0, c.size, lastPtr p a xs,
        firstPtr nxt (a + extent 32 xs + (32 + c.size)) ys⟩ :=
  (linked_append.mp hl).2.1

/-! ## Edits -/

/-- Replacing the cells `mid`, laid out from `a` to `e`, by others of the same
extent. Headers outside `a .. e` stay as they were, but for the one at `e`,
which is given the last new cell as predecessor. -/
theorem linked_replace {m m' : Mem} {p lo : Nat} (a e : Nat) {xs : List Cell}
    (mid mid' : List Cell) {ys : List Cell} {nxt : Nat}
    (ha : a = lo + extent 32 xs) (he : e = a + extent 32 mid)
    (hb : lo + extent 32 (xs ++ (mid ++ ys)) ≤ 2 ^ 64)
    (hl : Linked m p lo (xs ++ (mid ++ ys)) nxt) (hne : mid ≠ []) (hne' : mid' ≠ [])
    (hext : extent 32 mid' = extent 32 mid)
    (hout : ∀ b, b + 32 ≤ 2 ^ 64 → b + 32 ≤ a ∨ e + 32 ≤ b → header m' b = header m b)
    (hmid : Linked m' (lastPtr p lo xs) a mid' (firstPtr nxt e ys))
    (hhead : ys ≠ [] →
      header m' e = { header m e with prev := lastPtr (lastPtr p lo xs) a mid' }) :
    Linked m' p lo (xs ++ (mid' ++ ys)) nxt := by
  subst ha he
  rw [linked_append, linked_append] at hl
  obtain ⟨hl1, -, hl3⟩ := hl
  simp only [extent_append] at hb
  have hfirst : ∀ l : List Cell, l ≠ [] → ∀ a, firstPtr nxt a (l ++ ys) = a := by
    intro l hlne a
    cases l with
    | nil => exact absurd rfl hlne
    | cons c cs => rfl
  rw [hfirst mid hne] at hl1
  rw [linked_append, linked_append, hfirst mid' hne', hext]
  refine ⟨linked_frame ?_ hl1, hmid, linked_reparent hhead ?_ hl3⟩
  · intro b hbx
    have := mem_addrs_bounds 32 hbx
    exact hout b (by omega) (by omega)
  · intro b hby hne
    cases ys with
    | nil => simp at hby
    | cons d ys =>
        rw [addrs_cons, List.mem_cons] at hby
        rw [extent_cons] at hb
        have := mem_addrs_bounds 32 (hby.resolve_left hne)
        exact hout b (by omega) (by omega)

/-- The writes of `splitBlock`, with what the code reads between them. -/
theorem splitBlock_eq {m : Mem} {a n sz nx b : Nat} (hsz : size m a = sz) (hnx : next m a = nx)
    (hb : b = a + (32 + n)) (hn : n + 32 ≤ sz) (hend : a + 32 + sz ≤ 2 ^ 64) :
    let m5 := setNext (setPrev (setSize (setUsed (setMagic m b heapMagic) b 0) b (sz - (32 + n)))
      b a) b nx
    splitBlock m a n = setSize (setNext (if nx ≠ 0 then setPrev m5 nx b else m5) a b) a n := by
  intro m5
  have hab : HdrApart b a := ⟨by omega, by omega, by omega⟩
  have hread : ∀ m', header m' a = header m a → size m' a = sz ∧ next m' a = nx := fun m' h =>
    ⟨(size_of_header h).trans hsz, (next_of_header h).trans hnx⟩
  have hsz2 : size (setUsed (setMagic m b heapMagic) b 0) a = sz := by
    refine (hread _ ?_).1
    rw [header_setUsed_ne _ _ hab, header_setMagic_ne _ _ hab]
  have hnx4 : next (setPrev (setSize (setUsed (setMagic m b heapMagic) b 0) b (sz - (32 + n))) b a)
      a = nx := by
    refine (hread _ ?_).2
    rw [header_setPrev_ne _ _ hab, header_setSize_ne _ _ hab, header_setUsed_ne _ _ hab,
      header_setMagic_ne _ _ hab]
  have hnx5 : next m5 a = nx := by
    refine (hread _ ?_).2
    rw [header_setNext_ne _ _ hab, header_setPrev_ne _ _ hab, header_setSize_ne _ _ hab,
      header_setUsed_ne _ _ hab, header_setMagic_ne _ _ hab]
  have hm5 : m5 = setNext (setPrev (setSize (setUsed (setMagic m b heapMagic) b 0) b
      (sz - (32 + n))) b a) b nx := rfl
  simp only [splitBlock, headerAligned_eq, add64_eq (show 32 + n < 2 ^ 64 by omega),
    add64_eq (show a + (32 + n) < 2 ^ 64 by omega), ← hb, hsz2,
    sub64_eq (show sz < 2 ^ 64 by omega) (show 32 + n ≤ sz by omega), hnx4, ← hm5, hnx5]

/-- The headers after `splitBlock`, for a block inside the address space whose
successor, if any, lies behind it. -/
structure SplitHeaders (m m' : Mem) (a n b sz nx : Nat) : Prop where
  left : header m' a = { header m a with size := n, next := b }
  right : header m' b = ⟨heapMagic, 0, sz, a, nx⟩
  succ : nx ≠ 0 → header m' nx = { header m nx with prev := b }
  other : ∀ h, h + 32 ≤ 2 ^ 64 → h + 32 ≤ a ∨ b + 32 ≤ h → (nx ≠ 0 → nx + 32 ≤ h ∨ h + 32 ≤ nx) →
    header m' h = header m h

/-- The fields of the headers behind a split. -/
theorem splitBlock_headers {m : Mem} {a n sz nx : Nat} (hsz : size m a = sz) (hnx : next m a = nx)
    (hn : n + 32 ≤ sz) (hb : a + 32 + sz ≤ 2 ^ 64) (hx : nx ≠ 0 → a + 32 + sz ≤ nx ∧ nx + 32 ≤ 2 ^ 64) :
    SplitHeaders m (splitBlock m a n) a n (a + (32 + n)) (sz - (32 + n)) nx := by
  rw [splitBlock_eq hsz hnx rfl hn hb]
  set b := a + (32 + n) with hbdef
  have hba : HdrApart a b := ⟨by omega, by omega, by omega⟩
  -- the five fields of the new block
  set m5 := setNext (setPrev
    (setSize (setUsed (setMagic m b heapMagic) b 0) b (sz - (32 + n))) b a) b nx with hm5
  have h5 : ∀ h, HdrApart b h → header m5 h = header m h := by
    intro h hh
    rw [hm5, header_setNext_ne _ _ hh, header_setPrev_ne _ _ hh, header_setSize_ne _ _ hh,
      header_setUsed_ne _ _ hh, header_setMagic_ne _ _ hh]
  have h5b : header m5 b = ⟨heapMagic, 0, sz - (32 + n), a, nx⟩ := by
    have hnx : nx < 2 ^ 64 := by
      by_cases h0 : nx = 0
      · omega
      · have := (hx h0).2
        omega
    have hb32 : b + 32 ≤ 2 ^ 64 := by omega
    rw [hm5, header_setNext _ _ hb32 hnx, header_setPrev _ _ hb32 (by omega),
      header_setSize _ _ hb32 (by omega), header_setUsed _ _ hb32 (by decide),
      header_setMagic _ _ hb32 (by decide)]
  set m6 := if nx ≠ 0 then setPrev m5 nx b else m5 with hm6
  have h6 : ∀ h, h + 32 ≤ 2 ^ 64 → (nx ≠ 0 → nx + 32 ≤ h ∨ h + 32 ≤ nx) →
      header m6 h = header m5 h := by
    intro h hh hd
    rw [hm6]
    split
    · rename_i h0
      exact header_setPrev_ne _ _ ⟨(hx h0).2, hh, hd h0⟩
    · rfl
  constructor
  · rw [header_setSize _ _ hba.1 (by omega), header_setNext _ _ hba.1 (by omega),
      h6 a (by omega) fun h0 => by have := hx h0; omega, h5 a ⟨by omega, by omega, by omega⟩]
  · rw [header_setSize_ne _ _ hba, header_setNext_ne _ _ hba,
      h6 b (by omega) fun h0 => by have := hx h0; omega, h5b]
  · intro h0
    have hxa : HdrApart a nx := by have := hx h0; exact ⟨by omega, by omega, by omega⟩
    have hxb : HdrApart b nx := by have := hx h0; exact ⟨by omega, by omega, by omega⟩
    rw [header_setSize_ne _ _ hxa, header_setNext_ne _ _ hxa, hm6, if_pos h0,
      header_setPrev _ _ hxa.2.1 (by omega), h5 nx hxb]
  · intro h hh hout hd
    have hha : HdrApart a h := ⟨by omega, hh, by omega⟩
    rw [header_setSize_ne _ _ hha, header_setNext_ne _ _ hha, h6 h hh hd,
      h5 h ⟨by omega, hh, by omega⟩]

/-- The writes of `mergeBlocks`, with what the code reads between them. -/
theorem mergeBlocks_eq {m : Mem} {a b s t nx : Nat} (hs : size m a = s) (ht : size m b = t)
    (hnx : next m b = nx) (hab : b = a + (32 + s)) (hb : b + 32 + t ≤ 2 ^ 64) :
    let m2 := setNext (setSize m a (s + (32 + t))) a nx
    mergeBlocks m a b = setMagic (if nx ≠ 0 then setPrev m2 nx a else m2) b 0 := by
  intro m2
  have hAB : HdrApart a b := ⟨by omega, by omega, by omega⟩
  have hread : ∀ m', header m' b = header m b → next m' b = nx := fun m' h =>
    (next_of_header h).trans hnx
  have hnx1 : next (setSize m a (s + (32 + t))) b = nx := hread _ (header_setSize_ne _ _ hAB)
  have hnx2 : next m2 b = nx := by
    refine hread _ ?_
    rw [header_setNext_ne _ _ hAB, header_setSize_ne _ _ hAB]
  have hm2 : m2 = setNext (setSize m a (s + (32 + t))) a nx := rfl
  simp only [mergeBlocks, headerAligned_eq, hs, ht, add64_eq (show 32 + t < 2 ^ 64 by omega),
    add64_eq (show s + (32 + t) < 2 ^ 64 by omega), hnx1, ← hm2, hnx2]

/-- The headers after `mergeBlocks` of two neighbouring blocks. -/
structure MergeHeaders (m m' : Mem) (a b sz nx : Nat) : Prop where
  left : header m' a = { header m a with size := sz, next := nx }
  right : header m' b = { header m b with magic := 0 }
  succ : nx ≠ 0 → header m' nx = { header m nx with prev := a }
  other : ∀ h, h + 32 ≤ 2 ^ 64 → h + 32 ≤ a ∨ b + 32 ≤ h → (nx ≠ 0 → nx + 32 ≤ h ∨ h + 32 ≤ nx) →
    header m' h = header m h

/-- The fields of the headers behind a merge of two neighbours. -/
theorem mergeBlocks_headers {m : Mem} {a b s t nx : Nat} (hs : size m a = s) (ht : size m b = t)
    (hnx : next m b = nx) (hab : b = a + (32 + s)) (hb : b + 32 + t ≤ 2 ^ 64)
    (hx : nx ≠ 0 → b + 32 + t ≤ nx ∧ nx + 32 ≤ 2 ^ 64) :
    MergeHeaders m (mergeBlocks m a b) a b (s + (32 + t)) nx := by
  have hba : HdrApart b a := ⟨by omega, by omega, by omega⟩
  have hAB : HdrApart a b := ⟨by omega, by omega, by omega⟩
  have hnx64 : nx < 2 ^ 64 := by
    by_cases h0 : nx = 0
    · omega
    · have := (hx h0).2
      omega
  rw [mergeBlocks_eq hs ht hnx hab hb]
  -- the first header is changed, then that of the successor, then the second one is wiped out
  set m2 := setNext (setSize m a (s + (32 + t))) a nx with hm2
  have h2 : ∀ h, HdrApart a h → header m2 h = header m h := by
    intro h hh
    rw [hm2, header_setNext_ne _ _ hh, header_setSize_ne _ _ hh]
  constructor
  · rw [header_setMagic_ne _ _ hba]
    have h2a : header m2 a = { header m a with size := s + (32 + t), next := nx } := by
      rw [hm2, header_setNext _ _ hAB.1 hnx64, header_setSize _ _ hAB.1 (by omega)]
    split
    · rename_i h0
      have := hx h0
      rw [header_setPrev_ne _ _ ⟨by omega, by omega, by omega⟩, h2a]
    · exact h2a
  · rw [header_setMagic _ _ hba.1 (by decide)]
    split
    · rename_i h0
      have := hx h0
      rw [header_setPrev_ne _ _ ⟨by omega, by omega, by omega⟩, h2 b hAB]
    · rw [h2 b hAB]
  · intro h0
    have := hx h0
    rw [header_setMagic_ne _ _ ⟨by omega, by omega, by omega⟩, if_pos h0,
      header_setPrev _ _ (by omega) (by omega), h2 nx ⟨by omega, by omega, by omega⟩]
  · intro h hh hout hd
    rw [header_setMagic_ne _ _ ⟨by omega, hh, by omega⟩]
    split
    · rename_i h0
      have := hx h0
      rw [header_setPrev_ne _ _ ⟨by omega, hh, hd h0⟩, h2 h ⟨by omega, hh, by omega⟩]
    · exact h2 h ⟨by omega, hh, by omega⟩

/-! ## Bytes that change -/

/-- A byte of the header of one of these blocks. -/
def InHeader (bs : List Nat) (x : Nat) : Prop := ∃ b ∈ bs, b ≤ x ∧ x < b + 32

/-- Outside the headers of these blocks no byte has changed. -/
def HeadersOnly (bs : List Nat) (m m' : Mem) : Prop := ∀ x, ¬InHeader bs x → m' x = m x

theorem InHeader.mono {bs bs' : List Nat} (hsub : bs ⊆ bs') {x : Nat} (h : InHeader bs x) :
    InHeader bs' x := by
  rcases h with ⟨b, hb, hx⟩
  exact ⟨b, hsub hb, hx⟩

theorem HeadersOnly.refl (bs : List Nat) (m : Mem) : HeadersOnly bs m m := fun _ _ => rfl

theorem HeadersOnly.trans {bs : List Nat} {m m' m'' : Mem} (h : HeadersOnly bs m m')
    (h' : HeadersOnly bs m' m'') : HeadersOnly bs m m'' := fun x hx => (h' x hx).trans (h x hx)

theorem HeadersOnly.mono {bs bs' : List Nat} {m m' : Mem} (hsub : bs ⊆ bs')
    (h : HeadersOnly bs m m') : HeadersOnly bs' m m' := fun x hx => h x fun hin => hx (hin.mono hsub)

/-- A write to a field. -/
theorem headersOnly_field {bs : List Nat} {b : Nat} (hb : b ∈ bs) (hin : b + 32 ≤ 2 ^ 64) (m : Mem)
    (off n v : Nat) (hoff : off + n ≤ 32) : HeadersOnly bs m (writeLE m (b + off) n v) := by
  intro x hx
  apply writeLE_header_frame m v hoff
  intro i hi hxi
  rw [byteAt_eq (by omega)] at hxi
  exact hx ⟨b, hb, by omega, by omega⟩

theorem headersOnly_setMagic {bs : List Nat} {b : Nat} (hb : b ∈ bs) (hin : b + 32 ≤ 2 ^ 64)
    (m : Mem) (v : Nat) : HeadersOnly bs m (setMagic m b v) :=
  headersOnly_field hb hin m 0 4 v (by omega)

theorem headersOnly_setUsed {bs : List Nat} {b : Nat} (hb : b ∈ bs) (hin : b + 32 ≤ 2 ^ 64)
    (m : Mem) (v : Nat) : HeadersOnly bs m (setUsed m b v) :=
  headersOnly_field hb hin m 4 4 v (by omega)

theorem headersOnly_setSize {bs : List Nat} {b : Nat} (hb : b ∈ bs) (hin : b + 32 ≤ 2 ^ 64)
    (m : Mem) (v : Nat) : HeadersOnly bs m (setSize m b v) :=
  headersOnly_field hb hin m 8 8 v (by omega)

theorem headersOnly_setPrev {bs : List Nat} {b : Nat} (hb : b ∈ bs) (hin : b + 32 ≤ 2 ^ 64)
    (m : Mem) (v : Nat) : HeadersOnly bs m (setPrev m b v) :=
  headersOnly_field hb hin m 16 8 v (by omega)

theorem headersOnly_setNext {bs : List Nat} {b : Nat} (hb : b ∈ bs) (hin : b + 32 ≤ 2 ^ 64)
    (m : Mem) (v : Nat) : HeadersOnly bs m (setNext m b v) :=
  headersOnly_field hb hin m 24 8 v (by omega)

/-- The block behind another one is given a predecessor, if there is one. -/
theorem headersOnly_setPrevNext {bs : List Nat} {nx : Nat} (m : Mem) (v : Nat)
    (hx : nx ≠ 0 → nx ∈ bs ∧ nx + 32 ≤ 2 ^ 64) :
    HeadersOnly bs m (if nx ≠ 0 then setPrev m nx v else m) := by
  split
  · rename_i h0
    exact headersOnly_setPrev (hx h0).1 (hx h0).2 m v
  · exact .refl bs m

theorem splitBlock_headersOnly {bs : List Nat} {m : Mem} {a n sz nx : Nat} (hsz : size m a = sz)
    (hnx : next m a = nx) (hn : n + 32 ≤ sz) (hend : a + 32 + sz ≤ 2 ^ 64) (ha : a ∈ bs)
    (hb : a + (32 + n) ∈ bs) (hx : nx ≠ 0 → nx ∈ bs ∧ nx + 32 ≤ 2 ^ 64) :
    HeadersOnly bs m (splitBlock m a n) := by
  rw [splitBlock_eq hsz hnx rfl hn hend]
  have hin : a + 32 ≤ 2 ^ 64 := by omega
  have hinb : a + (32 + n) + 32 ≤ 2 ^ 64 := by omega
  refine .trans ?_ (headersOnly_setSize ha hin _ _)
  refine .trans ?_ (headersOnly_setNext ha hin _ _)
  refine .trans ?_ (headersOnly_setPrevNext _ _ hx)
  refine .trans ?_ (headersOnly_setNext hb hinb _ _)
  refine .trans ?_ (headersOnly_setPrev hb hinb _ _)
  refine .trans ?_ (headersOnly_setSize hb hinb _ _)
  refine .trans ?_ (headersOnly_setUsed hb hinb _ _)
  exact headersOnly_setMagic hb hinb _ _

theorem mergeBlocks_headersOnly {bs : List Nat} {m : Mem} {a b s t nx : Nat} (hs : size m a = s)
    (ht : size m b = t) (hnx : next m b = nx) (hab : b = a + (32 + s)) (hend : b + 32 + t ≤ 2 ^ 64)
    (ha : a ∈ bs) (hb : b ∈ bs) (hx : nx ≠ 0 → nx ∈ bs ∧ nx + 32 ≤ 2 ^ 64) :
    HeadersOnly bs m (mergeBlocks m a b) := by
  rw [mergeBlocks_eq hs ht hnx hab hend]
  have hin : a + 32 ≤ 2 ^ 64 := by omega
  refine .trans ?_ (headersOnly_setMagic hb (by omega) _ _)
  refine .trans ?_ (headersOnly_setPrevNext _ _ hx)
  refine .trans ?_ (headersOnly_setNext ha hin _ _)
  exact headersOnly_setSize ha hin _ _

/-- No byte of a payload is in a header. -/
theorem payload_not_inHeader {a p n x : Nat} {cs : List Cell} (hp : (p, n) ∈ live 32 a cs)
    (hx : p ≤ x ∧ x < p + n) : ¬InHeader (addrs 32 a cs) x := by
  rintro ⟨b, hb, hbx⟩
  obtain ⟨xs, ys, rfl, rfl⟩ := (mem_live_iff 32).mp hp
  rw [addrs_append, addrs_cons, List.mem_append, List.mem_cons] at hb
  dsimp only at hb
  rcases hb with hb | hb | hb
  · have hbounds := mem_addrs_bounds 32 hb
    omega
  · omega
  · have hbounds := mem_addrs_bounds 32 hb
    omega

/-- The list of blocks `bs` has become the longer list `bs'`, and only headers have changed. -/
structure Grows (bs bs' : List Nat) (m m' : Mem) : Prop where
  sub : bs ⊆ bs'
  frame : HeadersOnly bs' m m'

/-- The list of blocks `bs` has become the shorter list `bs'`: only headers have changed, and
those that are no longer in the list have lost the magic number. -/
structure Retires (bs bs' : List Nat) (m m' : Mem) : Prop where
  sub : bs' ⊆ bs
  frame : HeadersOnly bs m m'
  retired : ∀ b ∈ bs, b ∉ bs' → magic m' b = 0 ∧ 16 ∣ prev m' b

theorem Retires.refl (bs : List Nat) (m : Mem) : Retires bs bs m m where
  sub _ hb := hb
  frame := .refl bs m
  retired _ hb hb' := absurd hb hb'

/-- What has left the list stays as it is, as its header is apart from those that are left. -/
theorem Retires.trans {bs bs' bs'' : List Nat} {m m' m'' : Mem}
    (hin : ∀ b ∈ bs, b + 32 ≤ 2 ^ 64)
    (hap : ∀ b ∈ bs, ∀ b' ∈ bs, b ≠ b' → b + 32 ≤ b' ∨ b' + 32 ≤ b) (h : Retires bs bs' m m')
    (h' : Retires bs' bs'' m' m'') : Retires bs bs'' m m'' where
  sub _ hb := h.sub (h'.sub hb)
  frame := h.frame.trans (h'.frame.mono h.sub)
  retired := by
    intro b hb hb''
    by_cases hb' : b ∈ bs'
    · exact h'.retired b hb' hb''
    · have hheader : header m'' b = header m' b := by
        apply header_congr
        intro i hi
        rw [byteAt_eq (by have := hin b hb; omega)]
        refine h'.frame _ ?_
        rintro ⟨b₂, hb₂, hle, hlt⟩
        rcases hap b hb b₂ (h.sub hb₂) (fun he => hb' (he ▸ hb₂)) with hbefore | hbehind
        · omega
        · omega
      have hmagic : magic m'' b = magic m' b :=
        (magic_of_header hheader).trans (magic_of_header rfl).symm
      have hprev : prev m'' b = prev m' b :=
        (prev_of_header hheader).trans (prev_of_header rfl).symm
      rw [hmagic, hprev]
      exact h.retired b hb hb'

section Edits

variable {m : Mem} {p lo a : Nat} {xs ys : List Cell} {c d : Cell} {nxt : Nat}

/-- `blk->used = u`. -/
theorem linked_setUsed (ha : a = lo + extent 32 xs)
    (hb : lo + extent 32 (xs ++ c :: ys) ≤ 2 ^ 64)
    (hl : Linked m p lo (xs ++ c :: ys) nxt) (u : Bool) :
    Linked (setUsed m a (if u then 1 else 0)) p lo (xs ++ ⟨c.size, u⟩ :: ys) nxt := by
  have hc := hl.header_eq
  have hbound := hb
  rw [← ha] at hc
  simp only [extent_append, extent_cons] at hb
  have hself : header (setUsed m a (if u then 1 else 0)) a =
      { header m a with used := if u then 1 else 0 } :=
    header_setUsed m _ (by omega) (by split <;> decide)
  have hother : ∀ b, b + 32 ≤ 2 ^ 64 → b + 32 ≤ a ∨ a + 32 ≤ b →
      header (setUsed m a (if u then 1 else 0)) b = header m b :=
    fun b hb h => header_setUsed_ne m _ ⟨by omega, hb, h.symm⟩
  refine linked_replace a (a + (32 + c.size)) [c] [⟨c.size, u⟩] ha (by simp) hbound hl
    (by simp) (by simp) (by simp) ?_ ?_ ?_
  · intro b hb hout
    exact hother b hb (by omega)
  · simp only [Linked, hself, hc, and_true]
    rfl
  · intro hy
    obtain ⟨d, ys, rfl⟩ := List.exists_cons_of_ne_nil hy
    have hd := (linked_append.mp hl).2.2.1
    rw [← ha] at hd
    rw [extent_cons] at hb
    rw [hother _ (by omega) (by omega), hd]
    rfl

/-- `maybe_split`: the cell is split in place. -/
theorem linked_maybeSplit {n : Nat} (ha : a = lo + extent 32 xs)
    (hb : lo + extent 32 (xs ++ c :: ys) ≤ 2 ^ 64)
    (hn : n ≤ c.size) (hroom : c.size + 48 < 2 ^ 64)
    (hl : Linked m p lo (xs ++ c :: ys) 0) :
    Linked (maybeSplit m a n) p lo (xs ++ (split 32 16 c n ++ ys)) 0 := by
  have hc := hl.header_eq
  have hbound := hb
  rw [← ha] at hc
  simp only [extent_append, extent_cons] at hb
  have hsize : size m a = c.size := size_of_header hc
  simp only [maybeSplit, split, headerAligned_eq, align, hsize,
    add64_eq (show n + (32 + 16) < 2 ^ 64 by omega)]
  split
  swap
  · exact hl
  rename_i hfit
  -- the successor, if there is one, is right behind the block
  set nx := firstPtr 0 (a + (32 + c.size)) ys with hnxdef
  have hnx : nx ≠ 0 → ys ≠ [] ∧ nx = a + (32 + c.size) := by
    intro h0
    cases ys with
    | nil => exact absurd rfl h0
    | cons d ys => exact ⟨by simp, rfl⟩
  have hnxlt : nx ≠ 0 → a + 32 + c.size ≤ nx ∧ nx + 32 ≤ 2 ^ 64 := by
    intro h0
    obtain ⟨hy, he⟩ := hnx h0
    obtain ⟨d, ys', rfl⟩ := List.exists_cons_of_ne_nil hy
    rw [extent_cons] at hb
    omega
  have hnext : next m a = nx := next_of_header hc
  have hs := splitBlock_headers hsize hnext (show n + 32 ≤ c.size by omega)
    (by omega) hnxlt
  refine linked_replace a (a + (32 + c.size)) [c] _ ha (by simp) hbound hl (by simp) (by simp)
    ?_ ?_ ?_ ?_
  · simp only [extent_cons, extent_nil]
    omega
  · intro h hh hout
    exact hs.other h hh (by omega) fun h0 => by have := hnx h0; omega
  · refine ⟨?_, hs.right, trivial⟩
    rw [hs.left, hc]
    rfl
  · intro hy
    obtain ⟨d, ys, rfl⟩ := List.exists_cons_of_ne_nil hy
    exact hs.succ (by simp only [hnxdef, firstPtr]; omega)

/-- The two neighbours become one cell. -/
theorem linked_mergeBlocks (ha : a = lo + extent 32 xs)
    (hb : lo + extent 32 (xs ++ c :: d :: ys) ≤ 2 ^ 64)
    (hl : Linked m p lo (xs ++ c :: d :: ys) 0) :
    Linked (mergeBlocks m a (a + (32 + c.size))) p lo
      (xs ++ ⟨c.size + (32 + d.size), c.used⟩ :: ys) 0 := by
  have hc := hl.header_eq
  have hbound := hb
  rw [← ha] at hc
  simp only [extent_append, extent_cons] at hb
  have hd := (linked_append.mp hl).2.2.1
  rw [← ha] at hd
  -- the second block, and the successor of both
  set b := a + (32 + c.size) with hbdef
  set nx := firstPtr 0 (b + (32 + d.size)) ys with hnxdef
  have hnx : nx ≠ 0 → ys ≠ [] ∧ nx = b + (32 + d.size) := by
    intro h0
    cases ys with
    | nil => exact absurd rfl h0
    | cons d ys => exact ⟨by simp, rfl⟩
  have hnxlt : nx ≠ 0 → b + 32 + d.size ≤ nx ∧ nx + 32 ≤ 2 ^ 64 := by
    intro h0
    obtain ⟨hy, he⟩ := hnx h0
    obtain ⟨e, ys', rfl⟩ := List.exists_cons_of_ne_nil hy
    rw [extent_cons] at hb
    omega
  have hsa : size m a = c.size := size_of_header hc
  have hsb : size m b = d.size := size_of_header hd
  have hnb : next m b = nx := next_of_header hd
  have hs := mergeBlocks_headers hsa hsb hnb hbdef (by omega) hnxlt
  refine linked_replace a (b + (32 + d.size)) [c, d] [⟨c.size + (32 + d.size), c.used⟩] ha
    (by simp only [extent_cons, extent_nil]; omega) hbound hl (by simp) (by simp) ?_ ?_ ?_ ?_
  · simp only [extent_cons, extent_nil]
    omega
  · intro h hh hout
    exact hs.other h hh (by omega) fun h0 => by have := hnx h0; omega
  · simp only [Linked, hs.left, hc, and_true]
    rfl
  · intro hy
    obtain ⟨e, ys, rfl⟩ := List.exists_cons_of_ne_nil hy
    exact hs.succ (by simp only [hnxdef, firstPtr]; omega)

/-- The block behind a cell, where there is one. -/
theorem firstPtr_mem {e : Nat} {cs : List Cell} (h : firstPtr 0 e cs ≠ 0) :
    firstPtr 0 e cs ∈ addrs 32 e cs := by
  cases cs with
  | nil => exact absurd rfl h
  | cons c cs => exact List.mem_cons_self

/-- `maybe_split` writes headers of the cells it leaves. -/
theorem headersOnly_maybeSplit {n : Nat} (ha : a = lo + extent 32 xs)
    (hb : lo + extent 32 (xs ++ c :: ys) ≤ 2 ^ 64) (hroom : c.size + 48 < 2 ^ 64)
    (hn : n ≤ c.size) (hl : Linked m p lo (xs ++ c :: ys) 0) :
    HeadersOnly (addrs 32 lo (xs ++ (split 32 16 c n ++ ys))) m (maybeSplit m a n) := by
  have hc := hl.header_eq
  rw [← ha] at hc
  have hsize : size m a = c.size := size_of_header hc
  have hnext : next m a = firstPtr 0 (a + (32 + c.size)) ys := next_of_header hc
  simp only [extent_append, extent_cons] at hb
  simp only [maybeSplit, split, headerAligned_eq, align, hsize,
    add64_eq (show n + (32 + 16) < 2 ^ 64 by omega)]
  by_cases hfit : n + (32 + 16) ≤ c.size
  · have hend : a + (32 + n) + (32 + (c.size - (32 + n))) = a + (32 + c.size) := by omega
    rw [if_pos hfit, if_pos hfit, addrs_append, ← ha, List.cons_append, List.singleton_append,
      addrs_cons, addrs_cons, hend]
    refine splitBlock_headersOnly hsize hnext (by omega) (by omega) (by simp) (by simp) ?_
    intro h0
    have hmem := firstPtr_mem h0
    have hbounds := mem_addrs_bounds 32 hmem
    exact ⟨by simp [hmem], by omega⟩
  · rw [if_neg hfit, if_neg hfit]
    exact .refl _ _

/-- A cell that is split stays where it is. -/
theorem addrs_split_sub (lo : Nat) (xs ys : List Cell) (c : Cell) (u : Bool) (n : Nat) :
    addrs 32 lo (xs ++ c :: ys) ⊆ addrs 32 lo (xs ++ (split 32 16 ⟨c.size, u⟩ n ++ ys)) := by
  intro b hb
  rw [addrs_append, addrs_cons] at hb
  rw [addrs_append, addrs_append, extent_split]
  rcases List.mem_append.mp hb with hb | hb
  · exact List.mem_append_left _ hb
  · refine List.mem_append_right _ ?_
    rcases List.mem_cons.mp hb with rfl | hb
    · refine List.mem_append_left _ ?_
      unfold split
      split <;> exact List.mem_cons_self
    · exact List.mem_append_right _ hb

/-- A merge writes headers of the cells it starts from. -/
theorem headersOnly_mergeBlocks (ha : a = lo + extent 32 xs)
    (hb : lo + extent 32 (xs ++ c :: d :: ys) ≤ 2 ^ 64)
    (hl : Linked m p lo (xs ++ c :: d :: ys) 0) :
    HeadersOnly (addrs 32 lo (xs ++ c :: d :: ys)) m (mergeBlocks m a (a + (32 + c.size))) := by
  have hc := hl.header_eq
  rw [← ha] at hc
  have hd := (linked_append.mp hl).2.2.1
  rw [← ha] at hd
  have hsa : size m a = c.size := size_of_header hc
  have hsb : size m (a + (32 + c.size)) = d.size := size_of_header hd
  have hnb : next m (a + (32 + c.size)) =
      firstPtr 0 (a + (32 + c.size) + (32 + d.size)) ys := next_of_header hd
  simp only [extent_append, extent_cons] at hb
  rw [addrs_append, ← ha, addrs_cons, addrs_cons]
  refine mergeBlocks_headersOnly hsa hsb hnb rfl (by omega) (by simp) (by simp) ?_
  intro h0
  have hmem := firstPtr_mem h0
  have hbounds := mem_addrs_bounds 32 hmem
  exact ⟨by simp [hmem], by omega⟩

/-- The cell on the right loses its header. -/
theorem retires_mergeBlocks (ha : a = lo + extent 32 xs) (hal : 16 ∣ a)
    (hb : lo + extent 32 (xs ++ c :: d :: ys) ≤ 2 ^ 64)
    (hl : Linked m p lo (xs ++ c :: d :: ys) 0) :
    Retires (addrs 32 lo (xs ++ c :: d :: ys))
      (addrs 32 lo (xs ++ ⟨c.size + (32 + d.size), c.used⟩ :: ys)) m
      (mergeBlocks m a (a + (32 + c.size))) := by
  have hc := hl.header_eq
  rw [← ha] at hc
  have hd := (linked_append.mp hl).2.2.1
  rw [← ha] at hd
  have hframe := headersOnly_mergeBlocks ha hb hl
  have hsa : size m a = c.size := size_of_header hc
  have hsb : size m (a + (32 + c.size)) = d.size := size_of_header hd
  have hpb : prev m (a + (32 + c.size)) = a := prev_of_header hd
  have hend : a + (32 + (c.size + (32 + d.size))) = a + (32 + c.size) + (32 + d.size) := by omega
  have hold : addrs 32 lo (xs ++ c :: d :: ys) = addrs 32 lo xs ++
      a :: (a + (32 + c.size)) :: addrs 32 (a + (32 + c.size) + (32 + d.size)) ys := by
    rw [addrs_append, addrs_cons, addrs_cons, ← ha]
  have hnew : addrs 32 lo (xs ++ ⟨c.size + (32 + d.size), c.used⟩ :: ys) = addrs 32 lo xs ++
      a :: addrs 32 (a + (32 + c.size) + (32 + d.size)) ys := by
    rw [addrs_append, addrs_cons, ← ha, hend]
  simp only [extent_append, extent_cons] at hb
  have hx : next m (a + (32 + c.size)) ≠ 0 →
      a + (32 + c.size) + 32 + d.size ≤ next m (a + (32 + c.size)) ∧
        next m (a + (32 + c.size)) + 32 ≤ 2 ^ 64 := by
    have hnb : next m (a + (32 + c.size)) =
        firstPtr 0 (a + (32 + c.size) + (32 + d.size)) ys := next_of_header hd
    rw [hnb]
    intro h0
    have hbounds := mem_addrs_bounds 32 (firstPtr_mem h0)
    omega
  have hs := mergeBlocks_headers hsa hsb rfl rfl (by omega) hx
  have hmagic : magic (mergeBlocks m a (a + (32 + c.size))) (a + (32 + c.size)) = 0 :=
    magic_of_header hs.right
  have hprev : prev (mergeBlocks m a (a + (32 + c.size))) (a + (32 + c.size)) = a :=
    (prev_of_header hs.right).trans hpb
  rw [hold] at hframe
  rw [hold, hnew]
  refine ⟨?_, hframe, ?_⟩
  · intro b hb
    rcases List.mem_append.mp hb with hb | hb
    · exact List.mem_append_left _ hb
    · refine List.mem_append_right _ ?_
      rcases List.mem_cons.mp hb with rfl | hb
      · exact List.mem_cons_self
      · exact List.mem_cons_of_mem _ (List.mem_cons_of_mem _ hb)
  · intro b hb hb'
    -- only the right one of the two cells is gone
    have hgone : b = a + (32 + c.size) := by
      by_contra hne
      refine hb' ?_
      rcases List.mem_append.mp hb with hb | hb
      · exact List.mem_append_left _ hb
      · refine List.mem_append_right _ ?_
        rcases List.mem_cons.mp hb with rfl | hb
        · exact List.mem_cons_self
        · exact List.mem_cons_of_mem _ ((List.mem_cons.mp hb).resolve_left hne)
    rw [hgone, hprev]
    exact ⟨hmagic, hal⟩

end Edits

end PolandOS.Heap
