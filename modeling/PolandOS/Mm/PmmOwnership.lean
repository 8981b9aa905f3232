import PolandOS.Mm.Pmm
import PolandOS.Lib.Runs

/-! # Frame ownership

The clients of the frame manager hold frames: those they were given and have not
given back. The invariant of runs is that a clear bit is a usable frame that
belongs neither to the bitmap nor to a client. It is established by the passes of
`pmm_init`, and each call keeps it.

* `pmm_ownership`: in every reachable state every call returns, and a range it
  returns is usable, apart from the bitmap and from every frame held, and zeroed,
  with no other byte changed.
-/

namespace PolandOS.Pmm

open ByteMem BitArray Runs

/-! ## Clients -/

/-- The manager and the frames that clients hold. -/
structure World where
  pmm : PmmState
  held : List Nat

inductive Call where
  | alloc
  | allocPages (count : Nat)
  | free (phys : Nat)
  /-- A client stores a byte through the direct map. -/
  | store (phys : Nat) (byte : UInt8)
deriving DecidableEq

/-- The frames of a returned range are held; 0 means that there is none. -/
def hold (phys n : Nat) (held : List Nat) : List Nat :=
  if phys = 0 then held else List.range' (phys / pageSize) n ++ held

/-- One call: the address returned and what its caller holds afterwards. -/
def exec (w : World) : Call → Except Halt (Nat × World)
  | .alloc =>
    let r := pmmAlloc w.pmm
    .ok (r.1, ⟨r.2, hold r.1 1 w.held⟩)
  | .allocPages n => (pmmAllocPages w.pmm n).map fun r => (r.1, ⟨r.2, hold r.1 n w.held⟩)
  | .free p => .ok (0, ⟨pmmFree w.pmm p, w.held.erase (p / pageSize)⟩)
  | .store p b =>
    .ok (0, { w with pmm := { w.pmm with
      mem := set w.pmm.mem (byteAt w.pmm.hhdmOffset p) b } })

/-- Clients free and write only frames they hold. -/
def Admissible (w : World) : Call → Prop
  | .alloc => True
  | .allocPages n => n < 2 ^ 64
  | .free p => p / pageSize ∈ w.held
  | .store p _ => p / pageSize ∈ w.held

def Step (w : World) (c : Call) (w' : World) : Prop :=
  Admissible w c ∧ ∃ p, exec w c = .ok (p, w')

/-- The number of frames a call asks for. -/
def Call.pages : Call → Nat
  | .alloc => 1
  | .allocPages n => n
  | _ => 0

/-! ## What is promised -/

/-- Usable entries are page-aligned ranges of the address space. -/
structure MemmapOk (entries : List MemmapEntry) : Prop where
  aligned : ∀ e ∈ entries, e.type = memmapUsable → pageSize ∣ e.base ∧ pageSize ∣ e.length
  fits : ∀ e ∈ entries, e.type = memmapUsable → e.base < 2 ^ 64 ∧ e.base + e.length ≤ 2 ^ 64

/-- The physical address of the bitmap. -/
def bitmapPhys (s : PmmState) : Nat := sub64 s.bitmap s.hhdmOffset

/-- The range of `n` frames from `phys` on, as handed out between `s` and `s'`
while the frames `held` are held. -/
structure Granted (entries : List MemmapEntry) (s : PmmState) (held : List Nat) (phys n : Nat)
    (s' : PmmState) : Prop where
  aligned : pageSize ∣ phys
  usable : ∀ a, phys ≤ a → a < phys + n * pageSize →
    ∃ e ∈ entries, e.type = memmapUsable ∧ e.base ≤ a ∧ a < e.base + e.length
  bitmap : bitmapPhys s + bitmapSize s.bitmapFrames ≤ phys ∨ phys + n * pageSize ≤ bitmapPhys s
  held : ∀ f ∈ held, f * pageSize + pageSize ≤ phys ∨ phys + n * pageSize ≤ f * pageSize
  zeroed : ∀ i < n * pageSize, s'.mem (byteAt s.hhdmOffset (phys + i)) = 0
  frame : ∀ x, (∀ i < n * pageSize, x ≠ byteAt s.hhdmOffset (phys + i)) →
    (∀ i < bitmapSize s.bitmapFrames, x ≠ byteAt s.bitmap i) → s'.mem x = s.mem x
  bits : ∀ f < s.bitmapFrames, bitmapTest s' f =
    (bitmapTest s f || decide (phys / pageSize ≤ f ∧ f < phys / pageSize + n))

/-! ## The bitmap functions -/

section

variable {s : PmmState} {f g n : Nat}

theorem bitmapTest_bitmapClear (hf : f < 2 ^ 64) (hg : g < 2 ^ 64) :
    bitmapTest (bitmapClear s f) g = (bitmapTest s g && !decide (f = g)) :=
  test_clearBit hf hg

theorem bitmapTest_markUsed (hf : f < 2 ^ 64) (hg : g < 2 ^ 64) :
    bitmapTest (markUsed s f) g = (bitmapTest s g || decide (f = g)) :=
  test_setBit hf hg

/-- The direct map and the place of the bitmap are unchanged. -/
structure SameLayout (s s' : PmmState) : Prop where
  bitmap : s'.bitmap = s.bitmap
  hhdmOffset : s'.hhdmOffset = s.hhdmOffset
  bitmapFrames : s'.bitmapFrames = s.bitmapFrames
  lastFree : s'.lastFree = s.lastFree

theorem SameLayout.refl (s : PmmState) : SameLayout s s := ⟨rfl, rfl, rfl, rfl⟩

theorem SameLayout.trans {t u : PmmState} (h : SameLayout s t) (h' : SameLayout t u) :
    SameLayout s u :=
  ⟨h'.bitmap.trans h.bitmap, h'.hhdmOffset.trans h.hhdmOffset,
    h'.bitmapFrames.trans h.bitmapFrames, h'.lastFree.trans h.lastFree⟩

theorem markUsed_layout : SameLayout s (markUsed s f) := ⟨rfl, rfl, rfl, rfl⟩

theorem clearFrames_layout (s : PmmState) (f n : Nat) : SameLayout s (clearFrames s f n) := by
  induction n generalizing s f with
  | zero => exact .refl s
  | succ n ih =>
      rw [clearFrames]
      refine SameLayout.trans ?_ (ih _ _)
      split
      · exact ⟨rfl, rfl, rfl, rfl⟩
      · exact .refl s

/-- A bit that is clear afterwards was clear before, or is in the range. -/
theorem of_clearFrames (hf : f + n ≤ 2 ^ 64) (hg : g < 2 ^ 64)
    (h : bitmapTest (clearFrames s f n) g = false) :
    bitmapTest s g = false ∨ (f ≤ g ∧ g < f + n) := by
  induction n generalizing s f with
  | zero => exact Or.inl h
  | succ n ih =>
      rw [clearFrames] at h
      rcases ih (by omega) h with h | h
      · split at h
        · rw [bitmapTest_bitmapClear (by omega) hg, Bool.and_eq_false_iff] at h
          rcases h with h | h
          · exact Or.inl h
          · obtain rfl : f = g := by simpa using h
            exact Or.inr ⟨le_rfl, by omega⟩
        · exact Or.inl h
      · exact Or.inr ⟨by omega, by omega⟩

/-- Frame `f` lies inside a usable entry. -/
def UsableFrame (entries : List MemmapEntry) (f : Nat) : Prop :=
  ∃ e ∈ entries, e.type = memmapUsable ∧ e.base ≤ f * pageSize ∧
    f * pageSize + pageSize ≤ e.base + e.length

theorem clearUsable_layout (s : PmmState) (entries : List MemmapEntry) :
    SameLayout s (clearUsable s entries) := by
  induction entries generalizing s with
  | nil => exact .refl s
  | cons e entries ih =>
      rw [clearUsable]
      split
      · refine SameLayout.trans ?_ (ih _)
        exact SameLayout.trans (t := { s with totalMem := add64 s.totalMem e.length })
          ⟨rfl, rfl, rfl, rfl⟩ (clearFrames_layout _ _ _)
      · exact ih s

/-- The frames of an aligned entry lie inside it. -/
theorem entry_frame {e : MemmapEntry} (hb : pageSize ∣ e.base) (hl : pageSize ∣ e.length)
    (h : e.base / pageSize ≤ f ∧ f < e.base / pageSize + e.length / pageSize) :
    e.base ≤ f * pageSize ∧ f * pageSize + pageSize ≤ e.base + e.length := by
  unfold pageSize at *
  omega

/-- A frame that is clear behind the loop was clear or is usable. -/
theorem of_clearUsable {entries : List MemmapEntry} (hmap : MemmapOk entries) (hg : g < 2 ^ 64)
    (h : bitmapTest (clearUsable s entries) g = false) :
    bitmapTest s g = false ∨ UsableFrame entries g := by
  induction entries generalizing s with
  | nil => exact Or.inl h
  | cons e entries ih =>
      have hrest : MemmapOk entries :=
        ⟨fun d hd => hmap.aligned d (by simp [hd]), fun d hd => hmap.fits d (by simp [hd])⟩
      have hlift : UsableFrame entries g → UsableFrame (e :: entries) g := by
        rintro ⟨d, hd, h⟩
        exact ⟨d, by simp [hd], h⟩
      rw [clearUsable] at h
      split at h
      · rename_i hu
        obtain ⟨hb, hl⟩ := hmap.aligned e (by simp) hu
        obtain ⟨-, hfits⟩ := hmap.fits e (by simp) hu
        have hroom : e.base / pageSize + e.length / pageSize ≤ 2 ^ 64 := by
          unfold pageSize
          omega
        rcases ih hrest h with h | h
        · rcases of_clearFrames hroom hg h with h | h
          · exact Or.inl h
          · exact Or.inr ⟨e, by simp, hu, entry_frame hb hl h⟩
        · exact Or.inr (hlift h)
      · exact (ih hrest h).imp_right hlift

theorem markBitmapPages_layout (s : PmmState) (f n : Nat) :
    SameLayout s (markBitmapPages s f n) := by
  induction n generalizing s f with
  | zero => exact .refl s
  | succ n ih =>
      rw [markBitmapPages]
      refine SameLayout.trans ?_ (ih _ _)
      split
      · exact .refl s
      · exact markUsed_layout

/-- A bit that is clear afterwards was clear before, and is not in the range. -/
theorem of_markBitmapPages (hf : f + n ≤ 2 ^ 64) (hg : g < 2 ^ 64)
    (h : bitmapTest (markBitmapPages s f n) g = false) :
    bitmapTest s g = false ∧ ¬(f ≤ g ∧ g < f + n) := by
  induction n generalizing s f with
  | zero => exact ⟨h, by omega⟩
  | succ n ih =>
      rw [markBitmapPages] at h
      obtain ⟨h, hout⟩ := ih (by omega) h
      split at h
      · rename_i hset
        refine ⟨h, fun hin => ?_⟩
        obtain rfl : f = g := by omega
        simp [hset] at h
      · rw [bitmapTest_markUsed (by omega) hg, Bool.or_eq_false_iff] at h
        obtain ⟨h, hne⟩ := h
        have hne : f ≠ g := by simpa using hne
        exact ⟨h, by omega⟩

theorem markPages_layout (s : PmmState) (f n : Nat) : SameLayout s (markPages s f n) := by
  induction n generalizing s f with
  | zero => exact .refl s
  | succ n ih =>
      rw [markPages]
      exact markUsed_layout.trans (ih _ _)

theorem bitmapTest_markPages (hf : f + n < 2 ^ 64) (hg : g < 2 ^ 64) :
    bitmapTest (markPages s f n) g = (bitmapTest s g || decide (f ≤ g ∧ g < f + n)) := by
  induction n generalizing s f with
  | zero =>
      have hno : ¬(f ≤ g ∧ g < f + 0) := by omega
      rw [decide_eq_false hno, Bool.or_false]
      rfl
  | succ n ih =>
      rw [markPages, add64_eq (show f + 1 < 2 ^ 64 by omega), ih (by omega),
        bitmapTest_markUsed (by omega) hg, Bool.or_assoc, ← Bool.decide_or]
      congr 2
      apply propext
      omega

theorem markPages_frame {x : Nat} (hf : f + n < 2 ^ 64)
    (h : ∀ g, f ≤ g → g < f + n → x ≠ byteAt s.bitmap (g / 8)) :
    (markPages s f n).mem x = s.mem x := by
  induction n generalizing s f with
  | zero => rfl
  | succ n ih =>
      have htail := ih (s := markUsed s f) (f := f + 1) (by omega)
        fun g h1 h2 => h g (by omega) (by omega)
      rw [markPages, add64_eq (show f + 1 < 2 ^ 64 by omega), htail]
      exact setBit_frame (h f (by omega) (by omega))

/-- The inner loop has looked at every bit. -/
theorem pagesClear_iff (hf : f + n < 2 ^ 64) :
    pagesClear s f n = true ↔ ∀ g, f ≤ g → g < f + n → bitmapTest s g = false := by
  induction n generalizing f with
  | zero =>
      refine iff_of_true rfl fun g h1 h2 => ?_
      omega
  | succ n ih =>
      rw [pagesClear, add64_eq (show f + 1 < 2 ^ 64 by omega)]
      cases hset : bitmapTest s f with
      | true =>
          refine iff_of_false (by simp) fun h => ?_
          simp [h f le_rfl (by omega)] at hset
      | false =>
          simp only [Bool.false_eq_true, if_false]
          rw [ih (by omega)]
          constructor
          · intro h g h1 h2
            rcases Nat.eq_or_lt_of_le h1 with rfl | h1
            · exact hset
            · exact h g h1 (by omega)
          · intro h g h1 h2
            exact h g (by omega) (by omega)

end

/-! ## The invariant -/

theorem bitmapSize_eq {frames : Nat} (h : frames < 2 ^ 52) :
    bitmapSize frames = ((frames + 7) / 8 + 4095) / 4096 * 4096 := by
  have hbytes : sub64 (add64 frames bitsPerByte) 1 / bitsPerByte = (frames + 7) / 8 := by
    simp only [bitsPerByte]
    rw [add64_eq (by omega), sub64_eq (by omega) (by omega)]
    omega
  simp only [bitmapSize, hbytes, pageSize]
  rw [add64_eq (by omega), sub64_eq (by omega) (by omega)]
  refine (and_mask (k := 12) (by omega) (by decide)).trans ?_
  omega

/-- Frame `f` may be handed out: it is usable and holds no page of the bitmap. -/
def Ownable (entries : List MemmapEntry) (s : PmmState) (f : Nat) : Prop :=
  UsableFrame entries f ∧
    (f * pageSize + pageSize ≤ bitmapPhys s ∨
      bitmapPhys s + bitmapSize s.bitmapFrames ≤ f * pageSize)

structure Inv (entries : List MemmapEntry) (s : PmmState) (held : List Nat) : Prop where
  /-- The bitmap is a page-aligned physical range, seen through the direct map. -/
  place : s.bitmap = byteAt s.hhdmOffset (bitmapPhys s)
  aligned : pageSize ∣ bitmapPhys s
  room : bitmapPhys s + bitmapSize s.bitmapFrames ≤ 2 ^ 64
  small : s.bitmapFrames < 2 ^ 52
  hint : s.lastFree ≤ s.bitmapFrames
  clear : ∀ f < s.bitmapFrames, bitmapTest s f = false → Ownable entries s f ∧ f ∉ held
  owned : ∀ f ∈ held, f < s.bitmapFrames ∧ Ownable entries s f
  nodup : held.Nodup

/-- The bitmap is a page-aligned physical range, seen through the direct map. -/
structure Placed (s : PmmState) : Prop where
  place : s.bitmap = byteAt s.hhdmOffset (bitmapPhys s)
  aligned : pageSize ∣ bitmapPhys s
  room : bitmapPhys s + bitmapSize s.bitmapFrames ≤ 2 ^ 64
  small : s.bitmapFrames < 2 ^ 52

section

variable {entries : List MemmapEntry} {s s' : PmmState} {held : List Nat} {f i n : Nat}

theorem Inv.placed (hi : Inv entries s held) : Placed s :=
  ⟨hi.place, hi.aligned, hi.room, hi.small⟩

/-- The byte of a bit lies inside the bitmap. -/
theorem Placed.byte_lt (hi : Placed s) (hf : f < s.bitmapFrames) :
    f / 8 < bitmapSize s.bitmapFrames := by
  rw [bitmapSize_eq hi.small]
  omega

/-- Writes apart from the bitmap leave its bits alone. -/
theorem Placed.test_frame (hi : Placed s) {m m' : Mem} {a k : Nat}
    (hm : ∀ x, (∀ j < k, x ≠ byteAt s.hhdmOffset (a + j)) → m' x = m x) (ha : a + k ≤ 2 ^ 64)
    (hap : a + k ≤ bitmapPhys s ∨ bitmapPhys s + bitmapSize s.bitmapFrames ≤ a)
    (hf : f < s.bitmapFrames) : test m' s.bitmap f = test m s.bitmap f := by
  apply test_congr
  rw [hi.place, byteAt_byteAt]
  apply hm
  intro j hj hne
  have hlt := hi.byte_lt hf
  have hroom := hi.room
  have := byteAt_inj (by omega) (by omega) hne
  omega

/-- Frames of one run of usable, free frames make one usable range. -/
theorem usable_range (h : ∀ f, i ≤ f → f < i + n → Ownable entries s f) {a : Nat}
    (h1 : i * pageSize ≤ a) (h2 : a < i * pageSize + n * pageSize) :
    ∃ e ∈ entries, e.type = memmapUsable ∧ e.base ≤ a ∧ a < e.base + e.length := by
  have hf : i ≤ a / pageSize ∧ a / pageSize < i + n ∧ a / pageSize * pageSize ≤ a ∧
      a < a / pageSize * pageSize + pageSize := by
    unfold pageSize at *
    omega
  obtain ⟨e, he, hu, hlo, hhi⟩ := (h (a / pageSize) hf.1 hf.2.1).1
  exact ⟨e, he, hu, by omega, by omega⟩

/-- Frames apart from the bitmap's whole pages make one range apart from them. -/
theorem bitmap_apart (hb : pageSize ∣ bitmapPhys s)
    (hs : pageSize ∣ bitmapSize s.bitmapFrames) (hn : 0 < n) (hz : 0 < bitmapSize s.bitmapFrames)
    (h : ∀ f, i ≤ f → f < i + n → f * pageSize + pageSize ≤ bitmapPhys s ∨
      bitmapPhys s + bitmapSize s.bitmapFrames ≤ f * pageSize) :
    bitmapPhys s + bitmapSize s.bitmapFrames ≤ i * pageSize ∨
      i * pageSize + n * pageSize ≤ bitmapPhys s := by
  by_contra hcon
  -- the first page of the later of the two ranges lies in both
  have hfirst := h (max i (bitmapPhys s / pageSize)) (by omega)
    (by unfold pageSize at *; omega)
  unfold pageSize at *
  omega

/-- A call that leaves the layout alone keeps the invariant if it keeps what is
said about bits and owners. -/
theorem Inv.update (hi : Inv entries s held) {held' : List Nat} (hlay : s'.bitmap = s.bitmap ∧
      s'.hhdmOffset = s.hhdmOffset ∧ s'.bitmapFrames = s.bitmapFrames)
    (hhint : s'.lastFree ≤ s.bitmapFrames)
    (hclear : ∀ f < s.bitmapFrames, bitmapTest s' f = false → Ownable entries s f ∧ f ∉ held')
    (howned : ∀ f ∈ held', f < s.bitmapFrames ∧ Ownable entries s f) (hnodup : held'.Nodup) :
    Inv entries s' held' := by
  obtain ⟨hb, hh, hf⟩ := hlay
  have hphys : bitmapPhys s' = bitmapPhys s := by simp only [bitmapPhys, hb, hh]
  have hown : ∀ f, Ownable entries s' f ↔ Ownable entries s f := fun f => by
    simp only [Ownable, hphys, hf]
  refine ⟨?_, ?_, ?_, ?_, ?_, ?_, ?_, hnodup⟩
  · rw [hb, hh, hphys]
    exact hi.place
  · rw [hphys]
    exact hi.aligned
  · rw [hphys, hf]
    exact hi.room
  · rw [hf]
    exact hi.small
  · rw [hf]
    exact hhint
  · simp only [hf, hown]
    exact hclear
  · simp only [hf, hown]
    exact howned

theorem Inv.setUsed (hi : Inv entries s held) (u : Nat) :
    Inv entries { s with usedMem := u } held :=
  hi.update ⟨rfl, rfl, rfl⟩ hi.hint hi.clear hi.owned hi.nodup

theorem Inv.forget (hi : Inv entries s (List.range' i n ++ held)) : Inv entries s held :=
  hi.update ⟨rfl, rfl, rfl⟩ hi.hint
    (fun f hf h => ⟨(hi.clear f hf h).1, fun hm => (hi.clear f hf h).2 (by simp [hm])⟩)
    (fun f hf => hi.owned f (by simp [hf])) (List.nodup_append.mp hi.nodup).2.1

/-- The bits of the frames `i .. i + n` are set and then their bytes are cleared. -/
structure Takes (s : PmmState) (i n : Nat) (s' : PmmState) (m : Mem) : Prop where
  inside : i + n ≤ s.bitmapFrames
  bits : ∀ g < 2 ^ 64, test m s.bitmap g = (bitmapTest s g || decide (i ≤ g ∧ g < i + n))
  frame : ∀ x, (∀ j < bitmapSize s.bitmapFrames, x ≠ byteAt s.bitmap j) → m x = s.mem x
  mem : s'.mem = memset m (byteAt s.hhdmOffset (i * pageSize)) 0 (n * pageSize)
  layout : s'.bitmap = s.bitmap ∧ s'.hhdmOffset = s.hhdmOffset ∧
    s'.bitmapFrames = s.bitmapFrames

variable {m : Mem}

/-- The bytes outside the frames are those that the bits were set in. -/
theorem Takes.memset_frame (h : Takes s i n s' m) {x : Nat}
    (hx : ∀ j < n * pageSize, x ≠ byteAt s.hhdmOffset (i * pageSize + j)) : s'.mem x = m x := by
  rw [h.mem]
  apply ByteMem.memset_frame
  intro j hj
  rw [byteAt_byteAt]
  exact hx j hj

/-- Frames apart from the bitmap can be cleared without touching its bits. -/
theorem Takes.test (h : Takes s i n s' m) (hi : Placed s)
    (hapart : bitmapPhys s + bitmapSize s.bitmapFrames ≤ i * pageSize ∨
      i * pageSize + n * pageSize ≤ bitmapPhys s) (hf : f < s.bitmapFrames) :
    bitmapTest s' f = (bitmapTest s f || decide (i ≤ f ∧ f < i + n)) := by
  have hsmall := hi.small
  have hin := h.inside
  have hend : i * pageSize + n * pageSize ≤ 2 ^ 64 := by
    unfold pageSize
    omega
  rw [← h.bits f (by omega), bitmapTest, h.layout.1]
  exact hi.test_frame (fun x => h.memset_frame) hend hapart.symm hf

/-- The whole pages of the bitmap are apart from frames that are. -/
theorem Placed.apart (hi : Placed s) (hn : 0 < n) (hin : i + n ≤ s.bitmapFrames)
    (h : ∀ f, i ≤ f → f < i + n → f * pageSize + pageSize ≤ bitmapPhys s ∨
      bitmapPhys s + bitmapSize s.bitmapFrames ≤ f * pageSize) :
    bitmapPhys s + bitmapSize s.bitmapFrames ≤ i * pageSize ∨
      i * pageSize + n * pageSize ≤ bitmapPhys s := by
  have hsize := bitmapSize_eq hi.small
  refine bitmap_apart hi.aligned ?_ hn ?_ h
  · rw [hsize]
    exact Nat.dvd_mul_left _ _
  · omega

/-- The frames `i .. i + n` are clear and are taken. -/
theorem Inv.grant (hi : Inv entries s held) (hn : 0 < n) (h : Takes s i n s' m)
    (hclear : ∀ f, i ≤ f → f < i + n → bitmapTest s f = false)
    (hhint : s'.lastFree ≤ s.bitmapFrames) :
    Granted entries s held (i * pageSize) n s' ∧
      Inv entries s' (List.range' i n ++ held) := by
  have hin := h.inside
  -- clear bits are usable frames that nobody holds and that are not the bitmap
  have hown : ∀ f, i ≤ f → f < i + n → Ownable entries s f ∧ f ∉ held :=
    fun f h1 h2 => hi.clear f (by omega) (hclear f h1 h2)
  have hapart := hi.placed.apart hn hin fun f h1 h2 => (hown f h1 h2).1.2
  have hquot : i * pageSize / pageSize = i := Nat.mul_div_cancel _ (by decide)
  have htest : ∀ f < s.bitmapFrames,
      bitmapTest s' f = (bitmapTest s f || decide (i ≤ f ∧ f < i + n)) :=
    fun f => h.test hi.placed hapart
  refine ⟨⟨Nat.dvd_mul_left _ _, fun a => usable_range fun f h1 h2 => (hown f h1 h2).1, hapart,
    ?_, ?_, ?_, by rwa [hquot]⟩, hi.update h.layout hhint ?_ ?_ ?_⟩
  · intro f hf
    by_contra hcon
    refine (hown f ?_ ?_).2 hf
    · unfold pageSize at hcon
      omega
    · unfold pageSize at hcon
      omega
  · intro j hj
    rw [h.mem, ← byteAt_byteAt]
    exact memset_fill _ _ hj
  · intro x h1 h2
    rw [h.memset_frame h1, h.frame x h2]
  · intro f hf h
    rw [htest f hf, Bool.or_eq_false_iff] at h
    have hout : ¬(i ≤ f ∧ f < i + n) := by simpa using h.2
    obtain ⟨ho, hnot⟩ := hi.clear f hf h.1
    refine ⟨ho, fun hm => ?_⟩
    rcases List.mem_append.mp hm with hm | hm
    · rw [List.mem_range'_1] at hm
      exact hout hm
    · exact hnot hm
  · intro f hf
    rcases List.mem_append.mp hf with hf | hf
    · rw [List.mem_range'_1] at hf
      exact ⟨by omega, (hown f hf.1 hf.2).1⟩
    · exact hi.owned f hf
  · refine List.nodup_append.mpr ⟨List.nodup_range', hi.nodup, ?_⟩
    rintro f hf g hg rfl
    rw [List.mem_range'_1] at hf
    exact (hown f hf.1 hf.2).2 hg

/-! ## The calls -/

theorem phys_eq (hi : Placed s) (hf : f < s.bitmapFrames) :
    mul64 f pageSize = f * pageSize := by
  have := hi.small
  refine Nat.mod_eq_of_lt ?_
  unfold pageSize
  omega

theorem add64_byteAt (a b : Nat) : add64 a b = byteAt b a := by
  unfold add64 byteAt
  rw [Nat.add_comm]

theorem takes_takeFrame (hi : Placed s) (hf : f < s.bitmapFrames) :
    Takes s f 1 (takeFrame s f).2 (markUsed s f).mem where
  inside := hf
  bits := by
    intro g hg
    have hsmall := hi.small
    have hg' := bitmapTest_markUsed (s := s) (show f < 2 ^ 64 by omega) hg
    have hone : f = g ↔ f ≤ g ∧ g < f + 1 := by
      rw [Nat.lt_succ_iff]
      exact Nat.eq_iff_le_and_ge
    rw [bitmapTest, markUsed_layout.bitmap] at hg'
    rw [hg', decide_eq_decide.mpr hone]
  frame x hx := setBit_frame (hx _ (hi.byte_lt hf))
  mem := by
    simp only [takeFrame, markUsed_layout.hhdmOffset, add64_byteAt, phys_eq hi hf, Nat.one_mul]
  layout := by
    simp only [takeFrame, markUsed_layout.bitmap, markUsed_layout.hhdmOffset,
      markUsed_layout.bitmapFrames, and_self]

theorem takeFrame_hint (hi : Placed s) (hf : f < s.bitmapFrames) :
    (takeFrame s f).2.lastFree = f + 1 := by
  have hsmall := hi.small
  exact add64_eq (by omega)

theorem takeFrame_spec (hi : Inv entries s held) (hf : f < s.bitmapFrames)
    (hclear : bitmapTest s f = false) :
    (takeFrame s f).1 = f * pageSize ∧ Granted entries s held (f * pageSize) 1 (takeFrame s f).2 ∧
      Inv entries (takeFrame s f).2 (List.range' f 1 ++ held) := by
  refine ⟨phys_eq hi.placed hf, hi.grant Nat.one_pos (takes_takeFrame hi.placed hf) ?_ ?_⟩
  · intro g h1 h2
    obtain rfl : g = f := Nat.le_antisymm (Nat.le_of_lt_succ h2) h1
    exact hclear
  · rw [takeFrame_hint hi.placed hf]
    exact hf

/-- The frames of a run that is taken are marked and zeroed, and nothing else. -/
theorem takes_takePages (hi : Placed s) (hn : 0 < n) (hin : i + n ≤ s.bitmapFrames) :
    Takes s i n (takePages s i n).2 (markPages s i n).mem where
  inside := hin
  bits := by
    intro g hg
    have hsmall := hi.small
    rw [← (markPages_layout s i n).bitmap]
    exact bitmapTest_markPages (by omega) hg
  frame x hx := by
    have hsmall := hi.small
    exact markPages_frame (by omega) fun g h1 h2 => hx _ (hi.byte_lt (by omega))
  mem := by
    have hsmall := hi.small
    have hphys := phys_eq hi (show i < s.bitmapFrames by omega)
    have hlen : mul64 n pageSize = n * pageSize := by
      refine Nat.mod_eq_of_lt ?_
      unfold pageSize
      omega
    simp only [takePages, (markPages_layout s i n).hhdmOffset, add64_byteAt, hphys, hlen]
  layout :=
    have hlay := markPages_layout s i n
    ⟨hlay.bitmap, hlay.hhdmOffset, hlay.bitmapFrames⟩

theorem takePages_spec (hi : Inv entries s held) (hn : 0 < n) (hin : i + n ≤ s.bitmapFrames)
    (hclear : ∀ f, i ≤ f → f < i + n → bitmapTest s f = false) :
    (takePages s i n).1 = i * pageSize ∧
      Granted entries s held (i * pageSize) n (takePages s i n).2 ∧
      Inv entries (takePages s i n).2 (List.range' i n ++ held) :=
  ⟨phys_eq hi.placed (by omega), hi.grant hn (takes_takePages hi.placed hn hin) hclear
    ((markPages_layout s i n).lastFree.le.trans hi.hint)⟩

/-- A search loop takes the first clear frame of its range. -/
theorem allocLoop_spec {r : Nat × PmmState} (h : allocLoop s i n = some r) :
    ∃ f, i ≤ f ∧ f < i + n ∧ bitmapTest s f = false ∧ r = takeFrame s f ∧
      ∀ g, i ≤ g → g < f → bitmapTest s g = true := by
  induction n generalizing i with
  | zero => cases h
  | succ n ih =>
      rw [allocLoop] at h
      cases hset : bitmapTest s i with
      | true =>
          rw [if_pos hset] at h
          obtain ⟨f, h1, h2, h3, h4, h5⟩ := ih h
          refine ⟨f, by omega, by omega, h3, h4, fun g hg hlt => ?_⟩
          rcases Nat.eq_or_lt_of_le hg with rfl | hg
          · exact hset
          · exact h5 g hg hlt
      | false =>
          rw [if_neg (by simp [hset])] at h
          exact ⟨i, le_rfl, by omega, hset, (Option.some.inj h).symm,
            fun g hg hlt => absurd hlt (by omega)⟩

/-- It takes none if there is none. -/
theorem allocLoop_none (h : allocLoop s i n = none) {f : Nat} (hi : i ≤ f) (hf : f < i + n) :
    bitmapTest s f = true := by
  induction n generalizing i with
  | zero => omega
  | succ n ih =>
      rw [allocLoop] at h
      cases hset : bitmapTest s i with
      | true =>
          rw [if_pos hset] at h
          rcases Nat.eq_or_lt_of_le hi with rfl | hi
          · exact hset
          · exact ih h hi (by omega)
      | false =>
          rw [if_neg (by simp [hset])] at h
          cases h

theorem pmmAlloc_spec (hi : Inv entries s held) :
    pmmAlloc s = (0, s) ∨
      ∃ f, (pmmAlloc s).1 = f * pageSize ∧
        Granted entries s held (f * pageSize) 1 (pmmAlloc s).2 ∧
        Inv entries (pmmAlloc s).2 (List.range' f 1 ++ held) := by
  have hhint := hi.hint
  unfold pmmAlloc
  split
  · rename_i r hr
    obtain ⟨f, h1, h2, hclear, rfl, -⟩ := allocLoop_spec hr
    exact Or.inr ⟨f, takeFrame_spec hi (by omega) hclear⟩
  · split
    · rename_i r hr
      obtain ⟨f, h1, h2, hclear, rfl, -⟩ := allocLoop_spec hr
      exact Or.inr ⟨f, takeFrame_spec hi (by omega) hclear⟩
    · exact Or.inl rfl

/-- Where a run of `count` clear frames starts. -/
def RunStarts (s : PmmState) (count : Nat) : Set Nat :=
  {f | f + count ≤ s.bitmapFrames ∧ ∀ g, f ≤ g → g < f + count → bitmapTest s g = false}

/-- The outer loop takes the first run from `i` on, if there is one. -/
theorem allocPagesLoop_first (hsmall : s.bitmapFrames < 2 ^ 52) {count fuel : Nat}
    (hcount : 0 < count) (hc : count < 2 ^ 64) (hi : i ≤ s.bitmapFrames)
    (hfuel : s.bitmapFrames < i + fuel) (hfit : i = 0 ∨ count ≤ s.bitmapFrames) :
    (allocPagesLoop s count fuel i = .ok (0, s) ∧ ∀ f, i ≤ f → f ∉ RunStarts s count) ∨
      ∃ f, i ≤ f ∧ f ∈ RunStarts s count ∧ (∀ g, i ≤ g → g < f → g ∉ RunStarts s count) ∧
        allocPagesLoop s count fuel i = .ok (takePages s f count) := by
  induction fuel generalizing i with
  | zero => omega
  | succ fuel ih =>
      have hadd : add64 i count = i + count := add64_eq (by omega)
      rw [allocPagesLoop, hadd]
      by_cases hin : i + count ≤ s.bitmapFrames
      swap
      · rw [if_neg hin]
        refine .inl ⟨rfl, fun f hf hmem => hin ?_⟩
        have hend := hmem.1
        omega
      rw [if_pos hin]
      have hiff := pagesClear_iff (s := s) (show i + count < 2 ^ 64 by omega)
      by_cases hpages : pagesClear s i count = true
      · rw [if_pos hpages]
        exact .inr ⟨i, le_rfl, ⟨hin, hiff.mp hpages⟩, fun g hg hlt => absurd hlt (by omega), rfl⟩
      · -- no run starts here
        have hnot : i ∉ RunStarts s count := fun hmem => hpages (hiff.mpr hmem.2)
        rw [if_neg hpages, add64_eq (by omega)]
        rcases ih (i := i + 1) (by omega) (by omega) (.inr (by omega)) with
          ⟨hloop, hnone⟩ | ⟨f, hf, hmem, hfirst, hloop⟩
        · refine .inl ⟨hloop, fun f hf => ?_⟩
          rcases Nat.eq_or_lt_of_le hf with rfl | hf
          · exact hnot
          · exact hnone f hf
        · refine .inr ⟨f, by omega, hmem, fun g hg hlt => ?_, hloop⟩
          rcases Nat.eq_or_lt_of_le hg with rfl | hg
          · exact hnot
          · exact hfirst g hg hlt

theorem pmmAllocPages_spec (hi : Inv entries s held) {count : Nat} (hc : count < 2 ^ 64) :
    pmmAllocPages s count = .ok (0, s) ∨
      ∃ f s', pmmAllocPages s count = .ok (f * pageSize, s') ∧
        Granted entries s held (f * pageSize) count s' ∧
        Inv entries s' (List.range' f count ++ held) := by
  have hsmall := hi.small
  unfold pmmAllocPages
  split
  · exact Or.inl rfl
  next hne =>
    have hfuel : s.bitmapFrames < 0 + 2 ^ 64 := by omega
    rcases allocPagesLoop_first hsmall (Nat.pos_of_ne_zero hne) hc (Nat.zero_le _) hfuel
      (.inl rfl) with ⟨hloop, -⟩ | ⟨f, -, ⟨hin, hclear⟩, -, hloop⟩
    · exact .inl hloop
    · obtain ⟨h1, h2, h3⟩ := takePages_spec hi (Nat.pos_of_ne_zero hne) hin hclear
      exact .inr ⟨f, _, by rw [hloop, ← h1], h2, h3⟩

/-- A held frame is given back. -/
theorem pmmFree_inv (hi : Inv entries s held) {p : Nat} (hp : p / pageSize ∈ held) :
    Inv entries (pmmFree s p) (held.erase (p / pageSize)) := by
  obtain ⟨hlt, hown⟩ := hi.owned _ hp
  have hsmall := hi.small
  have hset : bitmapTest s (p / pageSize) = true := by
    by_contra hclear
    exact (hi.clear _ hlt (by simpa using hclear)).2 hp
  have hf64 : p / pageSize < 2 ^ 64 := by omega
  unfold pmmFree
  simp only
  rw [if_neg (by omega), if_pos hset]
  refine hi.update ⟨rfl, rfl, rfl⟩ ?_ ?_ ?_ (hi.nodup.erase _)
  · change (if p / pageSize < s.lastFree then p / pageSize else s.lastFree) ≤ s.bitmapFrames
    split
    · exact hlt.le
    · exact hi.hint
  · intro g hg h
    have hclear := bitmapTest_bitmapClear (s := s) hf64 (show g < 2 ^ 64 by omega)
    unfold bitmapTest at h hclear
    rcases Bool.and_eq_false_iff.mp (hclear.symm.trans h) with h | h
    · obtain ⟨ho, hnot⟩ := hi.clear g hg h
      exact ⟨ho, fun hm => hnot (List.mem_of_mem_erase hm)⟩
    · obtain rfl : p / pageSize = g := by simpa using h
      exact ⟨hown, fun hm => (hi.nodup.mem_erase_iff.mp hm).1 rfl⟩
  · intro g hg
    exact hi.owned g (List.mem_of_mem_erase hg)

/-- A client writes into a frame it holds. -/
theorem store_inv (hi : Inv entries s held) {p : Nat} {b : UInt8} (hp : p / pageSize ∈ held) :
    Inv entries { s with mem := set s.mem (byteAt s.hhdmOffset p) b } held := by
  obtain ⟨hlt, -, hap⟩ := hi.owned _ hp
  have hsmall := hi.small
  refine hi.update ⟨rfl, rfl, rfl⟩ hi.hint ?_ hi.owned hi.nodup
  intro f hf h
  refine hi.clear f hf ?_
  refine (hi.placed.test_frame (a := p) (k := 1) (fun x hx => set_ne _ _ ?_) ?_ ?_ hf).symm.trans h
  · simpa using hx 0 (by decide)
  · unfold pageSize at *
    omega
  · unfold pageSize at *
    omega

/-! ## pmm_init -/

theorem placeBitmap_spec {size hhdmOffset : Nat} (h : placeBitmap entries size hhdmOffset ≠ 0) :
    ∃ e ∈ entries, e.type = memmapUsable ∧ size ≤ e.length ∧
      placeBitmap entries size hhdmOffset = add64 e.base hhdmOffset := by
  unfold placeBitmap at h ⊢
  cases hfind : entries.find? fun e => e.type = memmapUsable ∧ size ≤ e.length with
  | none =>
      rw [hfind] at h
      exact absurd rfl h
  | some e =>
      have he := List.find?_some hfind
      simp only [decide_eq_true_eq] at he
      exact ⟨e, List.mem_of_find?_eq_some hfind, he.1, he.2, rfl⟩

/-- The passes over a bitmap whose bits are all set: afterwards a clear bit is a
usable frame outside the bitmap. -/
theorem passes_inv (hmap : MemmapOk entries) {e : MemmapEntry} (he : e ∈ entries)
    (hu : e.type = memmapUsable) (hsize : bitmapSize s.bitmapFrames ≤ e.length)
    (hsmall : s.bitmapFrames < 2 ^ 52) (hh : s.hhdmOffset < 2 ^ 64)
    (hplace : s.bitmap = add64 e.base s.hhdmOffset) (hhint : s.lastFree = 0)
    (hset : ∀ f < s.bitmapFrames, bitmapTest s f = true) :
    Inv entries (markBitmapPages (clearUsable s entries) (bitmapPhys s / pageSize)
      (bitmapSize s.bitmapFrames / pageSize)) [] := by
  obtain ⟨hdvd, -⟩ := hmap.aligned e he hu
  obtain ⟨hlt, hfits⟩ := hmap.fits e he hu
  have hsz := bitmapSize_eq hsmall
  -- the bitmap is at the start of the entry, and all its bits are set before the loops
  have hphys : bitmapPhys s = e.base := by
    rw [bitmapPhys, hplace]
    unfold add64 sub64
    omega
  have hlay := (clearUsable_layout s entries).trans (markBitmapPages_layout _
    (bitmapPhys s / pageSize) (bitmapSize s.bitmapFrames / pageSize))
  set s' := markBitmapPages (clearUsable s entries) (bitmapPhys s / pageSize)
    (bitmapSize s.bitmapFrames / pageSize) with hs'
  have hphys' : bitmapPhys s' = e.base := by
    rw [← hphys, bitmapPhys, bitmapPhys, hlay.bitmap, hlay.hhdmOffset]
  refine ⟨?_, ?_, ?_, ?_, ?_, ?_, by simp, List.nodup_nil⟩
  · rw [hphys', hlay.bitmap, hlay.hhdmOffset, hplace, add64_byteAt]
  · rw [hphys']
    exact hdvd
  · rw [hphys', hlay.bitmapFrames]
    omega
  · rw [hlay.bitmapFrames]
    exact hsmall
  · rw [hlay.lastFree, hhint]
    exact Nat.zero_le _
  · intro f hf h
    rw [hlay.bitmapFrames] at hf
    have hroom : bitmapPhys s / pageSize + bitmapSize s.bitmapFrames / pageSize ≤ 2 ^ 64 := by
      rw [hphys]
      unfold pageSize
      omega
    obtain ⟨h, hout⟩ := of_markBitmapPages hroom (by omega) h
    refine ⟨⟨?_, ?_⟩, by simp⟩
    · -- a clear bit was cleared by the first loop, so that its frame is usable
      refine (of_clearUsable hmap (by omega) h).resolve_left fun h => ?_
      simp [hset f hf] at h
    · rw [hphys] at hout
      rw [hphys', hlay.bitmapFrames]
      unfold pageSize at *
      omega

/-- After `pmm_init` a clear bit is a usable frame outside the bitmap. -/
theorem pmmInit_inv {m : Mem} {hhdmOff : Nat} {s₀ : PmmState} (hmap : MemmapOk entries)
    (hh : hhdmOff < 2 ^ 64) (h : pmmInit (.boot m) entries hhdmOff = .ok s₀) :
    Inv entries s₀ [] := by
  obtain ⟨⟨highest, maxPhys⟩, hscan⟩ : ∃ r, scanEntries (PmmState.boot m).maxPhys entries = r :=
    ⟨_, rfl⟩
  have hsmall : sub64 (add64 highest pageSize) 1 / pageSize < 2 ^ 52 := by
    have := sub64_lt (add64 highest pageSize) 1
    unfold pageSize at *
    omega
  simp only [pmmInit, hscan] at h
  split at h
  · cases h
  rename_i hne
  obtain ⟨e, he, hu, hsize, hplace⟩ := placeBitmap_spec hne
  obtain rfl := Except.ok.inj h
  refine Inv.setUsed (passes_inv (s := ⟨_, hhdmOff, _, _, 0, 0, 0, maxPhys⟩) hmap he hu hsize
    hsmall hh hplace rfl ?_) _
  intro f hf
  refine test_memset ?_
  rw [bitmapSize_eq hsmall]
  change f < sub64 (add64 highest pageSize) 1 / pageSize at hf
  omega

/-! ## Every run -/

/-- Every admissible call from a state of the invariant returns and keeps it. -/
theorem exec_spec {w : World} (hi : Inv entries w.pmm w.held) {c : Call} (hadm : Admissible w c) :
    ∃ p w', exec w c = .ok (p, w') ∧ (p ≠ 0 → Granted entries w.pmm w.held p c.pages w'.pmm) ∧
      Inv entries w'.pmm w'.held := by
  -- what a successful search leaves is what its caller holds
  have hgrant : ∀ {f n : Nat} {s' : PmmState}, Granted entries w.pmm w.held (f * pageSize) n s' →
      Inv entries s' (List.range' f n ++ w.held) →
      Inv entries s' (hold (f * pageSize) n w.held) := by
    intro f n s' _ hinv
    unfold hold
    split
    · exact hinv.forget
    · rwa [Nat.mul_div_cancel _ (by decide)]
  cases c with
  | alloc =>
      refine ⟨_, _, rfl, ?_⟩
      rcases pmmAlloc_spec hi with h | ⟨f, hp, hg, hinv⟩
      · rw [h]
        exact ⟨fun h0 => absurd rfl h0, hi⟩
      · rw [hp]
        exact ⟨fun _ => hg, hgrant hg hinv⟩
  | allocPages n =>
      rcases pmmAllocPages_spec hi hadm with h | ⟨f, s', h, hg, hinv⟩
      · exact ⟨0, w, by simp [exec, h, Except.map, hold], fun h0 => absurd rfl h0, hi⟩
      · exact ⟨f * pageSize, ⟨s', hold (f * pageSize) n w.held⟩, by simp [exec, h, Except.map],
          fun _ => hg, hgrant hg hinv⟩
  | free p => exact ⟨0, _, rfl, fun h0 => absurd rfl h0, pmmFree_inv hi hadm⟩
  | store p b => exact ⟨0, _, rfl, fun h0 => absurd rfl h0, store_inv hi hadm⟩

/-- One step keeps the invariant. -/
theorem Step.inv {w w' : World} {c : Call} (h : Step w c w') (hi : Inv entries w.pmm w.held) :
    Inv entries w'.pmm w'.held := by
  obtain ⟨hadm, p, hexec⟩ := h
  obtain ⟨q, w'', hexec', -, hi'⟩ := exec_spec hi hadm
  obtain ⟨rfl, rfl⟩ := Prod.mk.inj (Except.ok.inj (hexec.symm.trans hexec'))
  exact hi'

theorem run_inv {m : Mem} {hhdmOff : Nat} {s₀ : PmmState} {w : World} (hmap : MemmapOk entries)
    (hh : hhdmOff < 2 ^ 64) (hinit : pmmInit (.boot m) entries hhdmOff = .ok s₀)
    (hrun : Run Step ⟨s₀, []⟩ w) : Inv entries w.pmm w.held :=
  hrun.invariant (I := fun w => Inv entries w.pmm w.held) (pmmInit_inv hmap hh hinit)
    fun _ _ _ hi h => h.inv hi

/-- In every state of every run every call returns, and a range that it returns
lies in usable memory, apart from the bitmap and from every frame still held;
its bytes are zero and no byte outside it and the bitmap has changed. -/
theorem pmm_ownership {m : Mem} {hhdmOff : Nat} {s₀ : PmmState} {w : World}
    (hmap : MemmapOk entries) (hh : hhdmOff < 2 ^ 64)
    (hinit : pmmInit (.boot m) entries hhdmOff = .ok s₀) (hrun : Run Step ⟨s₀, []⟩ w)
    {c : Call} (hadm : Admissible w c) :
    ∃ p w', exec w c = .ok (p, w') ∧
      (p ≠ 0 → Granted entries w.pmm w.held p c.pages w'.pmm) := by
  obtain ⟨p, w', hexec, hg, -⟩ := exec_spec (run_inv hmap hh hinit hrun) hadm
  exact ⟨p, w', hexec, hg⟩

end

/-! ## A run -/

instance (w : World) (c : Call) : Decidable (Admissible w c) := by
  unfold Admissible
  split <;> infer_instance

/-- Calls one after another, as long as they are admissible. -/
def play : List Call → World → Option World
  | [], w => some w
  | c :: calls, w =>
    if Admissible w c then (exec w c).toOption.bind fun r => play calls r.2 else none

theorem run_play {calls : List Call} {w₀ w w' : World} (hrun : Run Step w₀ w)
    (h : play calls w = some w') : Run Step w₀ w' := by
  induction calls generalizing w with
  | nil =>
      cases h
      exact hrun
  | cons c calls ih =>
      rw [play] at h
      split at h
      case isFalse => cases h
      case isTrue hadm =>
        rcases Option.bind_eq_some_iff.mp h with ⟨⟨p, w₁⟩, hexec, hrest⟩
        cases hcall : exec w c with
        | error e =>
            rw [hcall] at hexec
            cases hexec
        | ok r =>
            rw [hcall] at hexec
            cases hexec
            exact ih (hrun.tail ⟨hadm, p, hcall⟩) hrest

/-- One usable region of four pages, which also holds the bitmap. -/
def fourPages : List MemmapEntry := [⟨0x1000, 0x4000, 0⟩]

/-- Two pages are taken; the first one is written to and given back. -/
def usedCalls : List Call := [.alloc, .alloc, .store 0x2000 7, .free 0x2000]

/-- It is granted again, and cleared. -/
theorem pmm_ownership_used : ∃ s₀ w w',
    pmmInit (.boot fun _ => 0) fourPages 0xFFFF800000000000 = .ok s₀ ∧
    Run Step ⟨s₀, []⟩ w ∧ w.held = [3] ∧ exec w .alloc = .ok (0x2000, w') ∧
    Granted fourPages w.pmm w.held 0x2000 1 w'.pmm := by
  have hmap : MemmapOk fourPages := ⟨by decide, by decide⟩
  obtain ⟨s₀, hs⟩ : ∃ s₀, pmmInit (.boot fun _ => 0) fourPages 0xFFFF800000000000 = .ok s₀ :=
    ⟨_, rfl⟩
  have hplay : ((pmmInit (.boot fun _ => 0) fourPages 0xFFFF800000000000).toOption.bind fun s =>
      (play usedCalls ⟨s, []⟩).map fun w => (w.held, (pmmAlloc w.pmm).1)) =
        some ([3], 0x2000) := by decide +kernel
  rw [hs] at hplay
  rcases Option.map_eq_some_iff.mp hplay with ⟨w, hw, hpair⟩
  obtain ⟨hheld, hphys⟩ := Prod.mk.inj hpair
  obtain ⟨p, w', hexec, hg⟩ :=
    pmm_ownership hmap (by decide) hs (run_play .refl hw) (c := .alloc) trivial
  obtain rfl : p = 0x2000 := by
    rw [← hphys]
    exact (Prod.mk.inj (Except.ok.inj hexec)).1.symm
  exact ⟨s₀, w, w', hs, run_play .refl hw, hheld, hexec, hg (by decide)⟩

end PolandOS.Pmm
