import Mathlib.Data.List.Basic
import PolandOS.Lib.ByteMem
import PolandOS.Drivers.Fb

/-! # Pixels in memory

`fb_putpixel` and `fb_fill_rect` of `kernel/drivers/fb.c`, by the bytes that they store.

* `fill_rect_eq_pixels`: filling a rectangle is putting each of its pixels, in any order.
-/

namespace PolandOS.Fb

open ByteMem

/-- The framebuffer as `fb_init` sets it up. -/
structure Screen extends Framebuffer where
  pitch : UInt32
  redMaskSize : UInt8
  redMaskShift : UInt8
  greenMaskSize : UInt8
  greenMaskShift : UInt8
  blueMaskSize : UInt8
  blueMaskShift : UInt8
  bytesPerPixel : UInt8

/-- `mask_for_size`. -/
def maskForSize (bits : UInt8) : UInt32 :=
  if bits = 0 then 0
  else if bits ≥ 32 then 0xFFFFFFFF
  else (1 <<< bits.toUInt32) - 1

/-- `scale_8_to_n`. -/
def scale8ToN (c8 : UInt32) (bits : UInt8) : UInt32 :=
  let maxv := maskForSize bits
  if maxv = 0 then 0
  else if maxv = 255 then c8
  else (c8 * maxv + 127) / 255

namespace Screen

variable (s : Screen)

/-- `pack_color`. -/
def packColor (rgb : UInt32) : UInt32 :=
  let r := (rgb >>> 16) &&& 0xFF
  let g := (rgb >>> 8) &&& 0xFF
  let b := rgb &&& 0xFF
  let pr := scale8ToN r s.redMaskSize <<< s.redMaskShift.toUInt32
  let pg := scale8ToN g s.greenMaskSize <<< s.greenMaskShift.toUInt32
  let pb := scale8ToN b s.blueMaskSize <<< s.blueMaskShift.toUInt32
  pr ||| pg ||| pb

/-- `(u8)(packed >> (8u * i))`. -/
def packedByte (packed : UInt32) (i : Nat) : UInt8 := (packed >>> (8 * i).toUInt32).toUInt8

/-- The address of a pixel. -/
def pixelAddr (x y : UInt32) : Nat :=
  s.addr.toNat + y.toNat * s.pitch.toNat + x.toNat * s.bytesPerPixel.toNat

/-- `fb_putpixel`. -/
def fbPutpixel (x y color : UInt32) (m : Mem) : Mem :=
  if s.addr = 0 ∨ x ≥ s.width ∨ y ≥ s.height then m
  else
    let packed := s.packColor color
    (List.range s.bytesPerPixel.toNat).foldl
      (fun m i => set m (byteAt (s.pixelAddr x y) i) (packedByte packed i)) m

/-- `fb_fill_rect`. Pixels of four bytes are stored as words. -/
def fbFillRect (x y w h color : UInt32) (m : Mem) : Mem :=
  if s.addr = 0 then m
  else
    let yEnd := clipEnd y h s.height
    let xEnd := clipEnd x w s.width
    if x ≥ xEnd ∨ y ≥ yEnd then m
    else if s.bytesPerPixel = 4 then
      let packed := s.packColor color
      (span y yEnd).foldl (fun m row =>
        let line := s.addr.toNat + row.toNat * s.pitch.toNat + x.toNat * 4
        (span x xEnd).foldl (fun m col =>
          writeLE m (line + 4 * (col - x).toNat) 4 packed.toNat) m) m
    else
      (span y yEnd).foldl (fun m row =>
        (span x xEnd).foldl (fun m col => s.fbPutpixel col row color m) m) m

/-! ## Stores -/

variable {s} {x y w h color col row : UInt32} {m : Mem}

/-- The bytes of a pixel, if it is on the screen. -/
def pixelStores (s : Screen) (color : UInt32) (p : UInt32 × UInt32) : List (Nat × UInt8) :=
  if s.addr = 0 ∨ p.1 ≥ s.width ∨ p.2 ≥ s.height then []
  else (List.range s.bytesPerPixel.toNat).map fun i =>
    (byteAt (s.pixelAddr p.1 p.2) i, packedByte (s.packColor color) i)

theorem fbPutpixel_eq : s.fbPutpixel x y color m = store m (s.pixelStores color (x, y)) := by
  unfold fbPutpixel pixelStores
  split
  · rfl
  · rw [store, List.foldl_map]

/-- Pixels that are put one after another. -/
theorem foldl_fbPutpixel (ps : List (UInt32 × UInt32)) :
    ps.foldl (fun m p => s.fbPutpixel p.1 p.2 color m) m =
      store m (ps.flatMap (s.pixelStores color)) := by
  induction ps generalizing m with
  | nil => rfl
  | cons p ps ih => rw [List.foldl_cons, ih, fbPutpixel_eq, List.flatMap_cons, store_append]

theorem packedByte_eq (packed : UInt32) {i : Nat} (hi : i < 4) :
    packedByte packed i = UInt8.ofNat (packed.toNat / 256 ^ i) := by
  have hshift : (8 * i).toUInt32.toNat = 8 * i := Nat.mod_eq_of_lt (by omega)
  apply UInt8.toNat_inj.mp
  rw [packedByte, UInt32.toNat_toUInt8, UInt32.toNat_shiftRight, hshift, UInt8.toNat_ofNat',
    Nat.mod_eq_of_lt (by omega : 8 * i < 32), Nat.shiftRight_eq_div_pow, Nat.pow_mul]

/-- A word that is stored is a pixel of four bytes. -/
theorem writeLE_pixel (hbytes : s.bytesPerPixel = 4) (haddr : s.addr ≠ 0) (hcol : col < s.width)
    (hrow : row < s.height) (hx : x ≤ col) :
    writeLE m (s.addr.toNat + row.toNat * s.pitch.toNat + x.toNat * 4 + 4 * (col - x).toNat) 4
      (s.packColor color).toNat = s.fbPutpixel col row color m := by
  have hle := UInt32.le_iff_toNat_le.mp hx
  have hsub : (col - x).toNat = col.toNat - x.toNat := UInt32.toNat_sub_of_le _ _ hx
  have hfour : s.bytesPerPixel.toNat = 4 := by rw [hbytes]; rfl
  have hpixel : s.addr.toNat + row.toNat * s.pitch.toNat + x.toNat * 4 + 4 * (col - x).toNat =
      s.pixelAddr col row := by
    rw [pixelAddr, hsub, hfour]
    omega
  have hon : ¬(s.addr = 0 ∨ col ≥ s.width ∨ row ≥ s.height) := by
    simp [haddr, hcol, hrow]
  rw [writeLE_eq_store, fbPutpixel_eq, pixelStores, if_neg hon, hpixel, hfour]
  congr 1
  refine List.map_congr_left fun i hi => ?_
  rw [packedByte_eq _ (List.mem_range.mp hi)]

/-- Both paths put the pixels of the rectangle that are on the screen, row by row. -/
theorem fbFillRect_eq_foldl : s.fbFillRect x y w h color m =
    (Fb.fbFillRect s.toFramebuffer x y w h).foldl (fun m p => s.fbPutpixel p.1 p.2 color m) m := by
  unfold fbFillRect Fb.fbFillRect
  split
  case isTrue => rfl
  case isFalse haddr =>
    dsimp only
    split
    case isTrue => rfl
    case isFalse hsome =>
      rw [List.foldl_flatMap]
      simp only [List.foldl_map]
      split
      case isFalse => rfl
      case isTrue hbytes =>
        -- the fast path stores whole words; on pixels of four bytes that is what
        -- `fb_putpixel` does
        rw [ge_iff_le, ge_iff_le, not_or, UInt32.not_le, UInt32.not_le] at hsome
        have hx : (clipEnd x w s.width).toNat = _ := toNat_clipEnd
        have hy : (clipEnd y h s.height).toNat = _ := toNat_clipEnd
        refine List.foldl_ext _ _ _ fun m row hrow => ?_
        refine List.foldl_ext _ _ _ fun m col hcol => ?_
        rw [mem_span (UInt32.le_of_lt hsome.1)] at hcol
        rw [mem_span (UInt32.le_of_lt hsome.2)] at hrow
        refine writeLE_pixel hbytes haddr ?_ ?_ (UInt32.le_iff_toNat_le.mpr hcol.1)
        · rw [UInt32.lt_iff_toNat_lt]
          omega
        · rw [UInt32.lt_iff_toNat_lt]
          omega

/-! ## Bytes of different pixels -/

theorem row_offset_inj {pitch y y' a a' : Nat} (ha : a < pitch) (ha' : a' < pitch)
    (h : y * pitch + a = y' * pitch + a') : y = y' ∧ a = a' := by
  have hpos : 0 < pitch := by omega
  have hy : y = y' := by
    have hdiv := congrArg (· / pitch) h
    simpa [Nat.add_comm _ a, Nat.add_comm _ a', Nat.add_mul_div_right _ _ hpos,
      Nat.div_eq_of_lt ha, Nat.div_eq_of_lt ha'] using hdiv
  subst hy
  exact ⟨rfl, by omega⟩

/-- A pixel on the screen. -/
def OnScreen (s : Screen) (p : UInt32 × UInt32) : Prop := p.1 < s.width ∧ p.2 < s.height

/-- The offset of a byte of a pixel. -/
def byteOffset (s : Screen) (p : UInt32 × UInt32) (i : Nat) : Nat :=
  p.2.toNat * s.pitch.toNat + (p.1.toNat * s.bytesPerPixel.toNat + i)

theorem byteAt_pixelAddr (p : UInt32 × UInt32) (i : Nat) :
    byteAt (s.pixelAddr p.1 p.2) i = byteAt s.addr.toNat (s.byteOffset p i) := by
  unfold byteAt pixelAddr byteOffset
  congr 1
  omega

/-- A row holds the bytes of its pixels. -/
def RowsFit (s : Screen) : Prop := s.width.toNat * s.bytesPerPixel.toNat ≤ s.pitch.toNat

theorem column_offset_lt (hfit : s.RowsFit) {p : UInt32 × UInt32} {i : Nat}
    (hp : p.1 < s.width) (hi : i < s.bytesPerPixel.toNat) :
    p.1.toNat * s.bytesPerPixel.toNat + i < s.pitch.toNat := by
  have hcol := UInt32.lt_iff_toNat_lt.mp hp
  calc p.1.toNat * s.bytesPerPixel.toNat + i
      < p.1.toNat * s.bytesPerPixel.toNat + s.bytesPerPixel.toNat := by omega
    _ = (p.1.toNat + 1) * s.bytesPerPixel.toNat := by rw [Nat.succ_mul]
    _ ≤ s.width.toNat * s.bytesPerPixel.toNat := Nat.mul_le_mul_right _ hcol
    _ ≤ s.pitch.toNat := hfit

theorem byteOffset_lt (hfit : s.RowsFit) {p : UInt32 × UInt32} {i : Nat} (hp : s.OnScreen p)
    (hi : i < s.bytesPerPixel.toNat) : s.byteOffset p i < s.height.toNat * s.pitch.toNat := by
  have hrow := UInt32.lt_iff_toNat_lt.mp hp.2
  calc s.byteOffset p i
      < p.2.toNat * s.pitch.toNat + s.pitch.toNat :=
        Nat.add_lt_add_left (column_offset_lt hfit hp.1 hi) _
    _ = (p.2.toNat + 1) * s.pitch.toNat := by rw [Nat.succ_mul]
    _ ≤ s.height.toNat * s.pitch.toNat := Nat.mul_le_mul_right _ hrow

theorem size_lt (s : Screen) : s.height.toNat * s.pitch.toNat < 2 ^ 64 := by
  have hheight := s.height.toNat_lt
  have hpitch := s.pitch.toNat_lt
  calc s.height.toNat * s.pitch.toNat
      ≤ (2 ^ 32 - 1) * (2 ^ 32 - 1) := Nat.mul_le_mul (by omega) (by omega)
    _ < 2 ^ 64 := by decide

/-- No two pixels of the screen share a byte. -/
theorem pixel_byte_inj (hfit : s.RowsFit) {p q : UInt32 × UInt32} {i j : Nat} (hp : s.OnScreen p)
    (hq : s.OnScreen q) (hi : i < s.bytesPerPixel.toNat) (hj : j < s.bytesPerPixel.toNat)
    (heq : byteAt (s.pixelAddr p.1 p.2) i = byteAt (s.pixelAddr q.1 q.2) j) : p = q ∧ i = j := by
  have hsize := s.size_lt
  have hoffp := byteOffset_lt hfit hp hi
  have hoffq := byteOffset_lt hfit hq hj
  rw [byteAt_pixelAddr, byteAt_pixelAddr] at heq
  -- equal addresses are equal offsets, since the screen is smaller than the address space
  have hoff := byteAt_inj (by omega) (by omega) heq
  rcases row_offset_inj (column_offset_lt hfit hp.1 hi) (column_offset_lt hfit hq.1 hj) hoff
    with ⟨hrow, hrest⟩
  rcases row_offset_inj hi hj hrest with ⟨hcol, hij⟩
  exact ⟨Prod.ext (UInt32.toNat_inj.mp hcol) (UInt32.toNat_inj.mp hrow), hij⟩

/-! ## Rectangles -/

theorem mem_pixelStores {p : UInt32 × UInt32} {a : Nat × UInt8} :
    a ∈ s.pixelStores color p ↔ s.addr ≠ 0 ∧ s.OnScreen p ∧ ∃ i < s.bytesPerPixel.toNat,
      a = (byteAt (s.pixelAddr p.1 p.2) i, packedByte (s.packColor color) i) := by
  unfold pixelStores OnScreen
  split
  case isTrue hoff =>
    simp only [List.not_mem_nil, false_iff]
    rintro ⟨haddr, ⟨hcol, hrow⟩, -⟩
    rcases hoff with h | h | h
    · exact haddr h
    · exact absurd hcol (UInt32.not_lt.mpr h)
    · exact absurd hrow (UInt32.not_lt.mpr h)
  case isFalse hon =>
    rw [ge_iff_le, ge_iff_le, not_or, not_or, UInt32.not_le, UInt32.not_le] at hon
    simp only [List.mem_map, List.mem_range, hon, ne_eq, not_false_eq_true, and_self, true_and,
      eq_comm]

/-- Filling a rectangle is putting each of its pixels once or more, in any order. Its sides
do not wrap around. -/
theorem fill_rect_eq_pixels (s : Screen) (hfit : s.RowsFit) (x y w h color : UInt32)
    (ps : List (UInt32 × UInt32))
    (hps : ∀ p, p ∈ ps ↔ (x.toNat ≤ p.1.toNat ∧ p.1.toNat < x.toNat + w.toNat) ∧
      y.toNat ≤ p.2.toNat ∧ p.2.toNat < y.toNat + h.toNat) (m : Mem) :
    s.fbFillRect x y w h color m = ps.foldl (fun m p => s.fbPutpixel p.1 p.2 color m) m := by
  rw [fbFillRect_eq_foldl, foldl_fbPutpixel, foldl_fbPutpixel]
  apply store_congr
  · intro a
    simp only [List.mem_flatMap, mem_pixelStores]
    refine exists_congr fun p => and_congr_left fun ha => ?_
    rcases ha with ⟨haddr, hon, -⟩
    have hcol := UInt32.lt_iff_toNat_lt.mp hon.1
    have hrow := UInt32.lt_iff_toNat_lt.mp hon.2
    rw [hps, mem_fbFillRect]
    constructor
    · rintro ⟨-, hx, hy⟩
      omega
    · intro hin
      exact ⟨haddr, by omega⟩
  -- two stores to one address are stores of the same byte, so their order does not matter
  · intro a ha b hb heq
    rcases List.mem_flatMap.mp ha with ⟨p, -, hp⟩
    rcases List.mem_flatMap.mp hb with ⟨q, -, hq⟩
    rcases mem_pixelStores.mp hp with ⟨-, honp, i, hi, rfl⟩
    rcases mem_pixelStores.mp hq with ⟨-, honq, j, hj, rfl⟩
    rcases pixel_byte_inj hfit honp honq hi hj heq with ⟨-, rfl⟩
    rfl

/-- Three by three pixels of four bytes each, with a gap behind each row. -/
def deep : Screen :=
  { addr := 4096, width := 3, height := 3, pitch := 16, redMaskSize := 8, redMaskShift := 16,
    greenMaskSize := 8, greenMaskShift := 8, blueMaskSize := 8, blueMaskShift := 0,
    bytesPerPixel := 4 }

/-- The pixels of a rectangle that sticks out at the right, one of them twice. -/
def sticksOut : List (UInt32 × UInt32) := [(3, 2), (1, 1), (2, 2), (1, 2), (3, 1), (2, 1), (1, 1)]

theorem fill_rect_eq_pixels_deep :
    deep.fbFillRect 1 1 3 2 0x123456 (fun a => UInt8.ofNat a) =
      sticksOut.foldl (fun m p => deep.fbPutpixel p.1 p.2 0x123456 m) fun a => UInt8.ofNat a := by
  have hfit : deep.RowsFit := by
    unfold Screen.RowsFit
    decide
  refine fill_rect_eq_pixels deep hfit 1 1 3 2 0x123456 sticksOut ?_ _
  rintro ⟨col, row⟩
  have hcol : ∀ n : UInt32, col = n ↔ col.toNat = n.toNat := fun n => UInt32.toNat_inj.symm
  have hrow : ∀ n : UInt32, row = n ↔ row.toNat = n.toNat := fun n => UInt32.toNat_inj.symm
  have hone : (1 : UInt32).toNat = 1 := rfl
  have htwo : (2 : UInt32).toNat = 2 := rfl
  have hthree : (3 : UInt32).toNat = 3 := rfl
  simp only [sticksOut, List.mem_cons, List.not_mem_nil, or_false, Prod.mk.injEq, hcol, hrow]
  omega

end Screen

end PolandOS.Fb
