import Mathlib.Tactic.Common

/-! # Rectangles in the framebuffer

`fb_fill_rect` of `kernel/drivers/fb.c`, by the pixels that it paints.
-/

namespace PolandOS.Fb

/-- `fb_addr`, `fb_width` and `fb_height`. -/
structure Framebuffer where
  addr : UInt64
  width : UInt32
  height : UInt32

/-- Where a side that starts at `start` ends on a screen of this size. -/
def clipEnd (start extent limit : UInt32) : UInt32 :=
  let end64 := start.toUInt64 + extent.toUInt64
  if end64 < limit.toUInt64 then end64.toUInt32 else limit

/-- The numbers from `start` on, up to `stop`. -/
def span (start stop : UInt32) : List UInt32 :=
  (List.range (stop - start).toNat).map fun i => start + i.toUInt32

/-- `fb_fill_rect`: the pixels that it paints, column and row. -/
def fbFillRect (fb : Framebuffer) (x y w h : UInt32) : List (UInt32 × UInt32) :=
  if fb.addr = 0 then []
  else
    let yEnd := clipEnd y h fb.height
    let xEnd := clipEnd x w fb.width
    if x ≥ xEnd ∨ y ≥ yEnd then []
    else (span y yEnd).flatMap fun row => (span x xEnd).map fun col => (col, row)

variable {fb : Framebuffer} {x y w h col row start extent limit stop : UInt32}

theorem toNat_clipEnd : (clipEnd start extent limit).toNat =
    min (start.toNat + extent.toNat) limit.toNat := by
  have hstart := start.toNat_lt
  have hextent := extent.toNat_lt
  have hsum : (start.toUInt64 + extent.toUInt64).toNat = start.toNat + extent.toNat := by
    rw [UInt64.toNat_add, UInt32.toNat_toUInt64, UInt32.toNat_toUInt64]
    omega
  unfold clipEnd
  dsimp only
  split
  next hlt =>
    rw [UInt64.lt_iff_toNat_lt, hsum, UInt32.toNat_toUInt64] at hlt
    have hlimit := limit.toNat_lt
    rw [UInt64.toNat_toUInt32, hsum]
    omega
  next hge =>
    rw [UInt64.lt_iff_toNat_lt, hsum, UInt32.toNat_toUInt64] at hge
    omega

theorem mem_span (hle : start ≤ stop) :
    col ∈ span start stop ↔ start.toNat ≤ col.toNat ∧ col.toNat < stop.toNat := by
  have hnat := UInt32.le_iff_toNat_le.mp hle
  have hsub : (stop - start).toNat = stop.toNat - start.toNat := UInt32.toNat_sub_of_le _ _ hle
  have hstop := stop.toNat_lt
  -- no sum in the span wraps around
  have hadd : ∀ i < stop.toNat - start.toNat,
      (start + i.toUInt32).toNat = start.toNat + i := by
    intro i hi
    have hi' : i.toUInt32.toNat = i := Nat.mod_eq_of_lt (by omega)
    rw [UInt32.toNat_add, hi']
    omega
  simp only [span, List.mem_map, List.mem_range, hsub]
  constructor
  · rintro ⟨i, hi, rfl⟩
    rw [hadd i hi]
    omega
  · rintro ⟨hlo, hhi⟩
    refine ⟨col.toNat - start.toNat, by omega, UInt32.toNat_inj.mp ?_⟩
    rw [hadd _ (by omega)]
    omega

/-- A pixel is painted if it lies in the rectangle and on the screen. -/
theorem mem_fbFillRect : (col, row) ∈ fbFillRect fb x y w h ↔ fb.addr ≠ 0 ∧
    (x.toNat ≤ col.toNat ∧ col.toNat < x.toNat + w.toNat ∧ col.toNat < fb.width.toNat) ∧
      y.toNat ≤ row.toNat ∧ row.toNat < y.toNat + h.toNat ∧ row.toNat < fb.height.toNat := by
  have hxEnd : (clipEnd x w fb.width).toNat = _ := toNat_clipEnd
  have hyEnd : (clipEnd y h fb.height).toNat = _ := toNat_clipEnd
  unfold fbFillRect
  split
  next haddr => simp [haddr]
  next haddr =>
    dsimp only
    split
    next hempty =>
      rw [ge_iff_le, ge_iff_le, UInt32.le_iff_toNat_le, UInt32.le_iff_toNat_le] at hempty
      simp only [List.not_mem_nil, false_iff]
      omega
    next hsome =>
      rw [ge_iff_le, ge_iff_le, not_or, UInt32.not_le, UInt32.not_le] at hsome
      simp only [List.mem_flatMap, List.mem_map, Prod.mk.injEq, ↓existsAndEq, and_true]
      rw [mem_span (UInt32.le_of_lt hsome.1), mem_span (UInt32.le_of_lt hsome.2), hxEnd, hyEnd]
      constructor
      · intro h
        refine ⟨haddr, ?_⟩
        omega
      · intro h
        omega

end PolandOS.Fb
