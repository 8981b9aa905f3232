import PolandOS.Drivers.Pixels

/-! # Characters in memory

`draw_char` and `fb_scroll` of `kernel/drivers/fb.c`, by the colours of the pixels they leave.
-/

namespace PolandOS.Fb

open ByteMem

/-- `font_data`: the sixteen rows of each character, the first one in the highest byte. -/
def fontData : List Nat :=
  [0x00000000000000000000000000000000, 0x00007E81A58181BD99817E0000000000,
   0x00007EFFDBFFFFC3E7FF7E0000000000, 0x0000006CFEFEFE7C3810000000000000,
   0x00000010387CFE7C3810000000000000, 0x0000183C3CE7E7E718183C0000000000,
   0x0000183C7EFFFF7E18183C0000000000, 0x0000000000183C3C1800000000000000,
   0xFFFFFFFFFFE7C3C3E7FFFFFFFFFFFFFF, 0x000000003C664242663C000000000000,
   0xFFFFFFFFC399BDBD99C3FFFFFFFFFFFF, 0x00001E0E1A3278CCCCCC780000000000,
   0x00003C6666663C187E18180000000000, 0x00003F333F30303070F0E00000000000,
   0x00007F637F63636367E7E6C000000000, 0x00000018DB3CE73CDB18000000000000,
   0x0080C0E0F0F8FEF8F0E0C08000000000, 0x0002060E1E3EFE3E1E0E060200000000,
   0x0000183C7E1818187E3C180000000000, 0x00006666666666660066660000000000,
   0x00007FDBDBDB7B1B1B1B1B0000000000, 0x007CC660386CC6C66C380CC67C000000,
   0x000000000000FEFEFEFE000000000000, 0x0000183C7E1818187E3C187E00000000,
   0x0000183C7E1818181818180000000000, 0x00001818181818187E3C180000000000,
   0x00000000180CFE0C1800000000000000, 0x000000003060FE603000000000000000,
   0x0000000000C0C0C0FE00000000000000, 0x000000002466FF662400000000000000,
   0x0000000010387CFEFE00000000000000, 0x00000000FEFE7C381000000000000000,
   0x00000000000000000000000000000000, 0x0000183C3C3C18180018180000000000,
   0x00666666240000000000000000000000, 0x0000006C6CFE6C6CFE6C6C0000000000,
   0x18187CC6C2C07C060686C67C18180000, 0x00000000C2C60C183066C60000000000,
   0x0000386C6C3876DCCCCC760000000000, 0x00303030600000000000000000000000,
   0x00000C183030303030180C0000000000, 0x000030180C0C0C0C0C18300000000000,
   0x00000000663CFF3C6600000000000000, 0x000000181818FF181818000000000000,
   0x00000000000000000018183000000000, 0x000000000000FF000000000000000000,
   0x00000000000000000018180000000000, 0x0000000002060C183060C08000000000,
   0x00007CC6C6CED6E6C6C67C0000000000, 0x000018387818181818187E0000000000,
   0x00007CC6060C183060C6FE0000000000, 0x00007CC606063C0606C67C0000000000,
   0x00000C1C3C6CCCFE0C0C1E0000000000, 0x0000FEC0C0C0FC0606C67C0000000000,
   0x00003860C0C0FCC6C6C67C0000000000, 0x0000FEC606060C183030300000000000,
   0x00007CC6C6C67CC6C6C67C0000000000, 0x00007CC6C6C67E06060C780000000000,
   0x00000018180000001818000000000000, 0x00000018180000001818300000000000,
   0x000000060C1830180C06000000000000, 0x0000000000FE0000FE00000000000000,
   0x0000006030180C183060000000000000, 0x00007CC6C60C18180018180000000000,
   0x00007CC6C6DEDEDEDCC07C0000000000, 0x000010386CC6C6FEC6C6C60000000000,
   0x0000FC6666667C666666FC0000000000, 0x00003C66C2C0C0C0C2663C0000000000,
   0x0000F86C66666666666CF80000000000, 0x0000FE66626878686266FE0000000000,
   0x0000FE66626878686060F00000000000, 0x00003C66C2C0C0DEC6663A0000000000,
   0x0000C6C6C6C6FEC6C6C6C60000000000, 0x00003C181818181818183C0000000000,
   0x00001E0C0C0C0C0CCCCC780000000000, 0x0000E6666C6C786C6C66E60000000000,
   0x0000F060606060606266FE0000000000, 0x0000C6EEFEFED6C6C6C6C60000000000,
   0x0000C6E6F6FEDECEC6C6C60000000000, 0x00007CC6C6C6C6C6C6C67C0000000000,
   0x0000FC6666667C606060F00000000000, 0x00007CC6C6C6C6C6C6D67C1C00000000,
   0x0000FC6666667C6C6666E60000000000, 0x00007CC6C660380CC6C67C0000000000,
   0x0000FFDB9918181818183C0000000000, 0x0000C6C6C6C6C6C6C6C67C0000000000,
   0x0000C6C6C6C6C6C66C38100000000000, 0x0000C6C6C6C6D6D6FEEE6C0000000000,
   0x0000C6C66C7C387C6CC6C60000000000, 0x0000CCCCCC7830303030780000000000,
   0x0000FEC6860C183060C2FE0000000000, 0x00003C303030303030303C0000000000,
   0x00000080C06030180C06020000000000, 0x00003C0C0C0C0C0C0C0C3C0000000000,
   0x10386CC6000000000000000000000000, 0x0000000000000000000000FF00000000,
   0x30180C00000000000000000000000000, 0x0000000000780C7CCCCC760000000000,
   0x0000E06060786C6666667C0000000000, 0x00000000007CC6C0C0C67C0000000000,
   0x00001C0C0C3C6CCCCCCC760000000000, 0x00000000007CC6FEC0C67C0000000000,
   0x00001C3632307C303030780000000000, 0x000000000076CCCCCC7C0CCC78000000,
   0x0000E060606C76666666E60000000000, 0x000018180038181818183C0000000000,
   0x00000606000E0606060666663C000000, 0x0000E06060666C786C66E60000000000,
   0x000038181818181818183C0000000000, 0x0000000000ECFED6D6D6C60000000000,
   0x0000000000DC66666666660000000000, 0x00000000007CC6C6C6C67C0000000000,
   0x0000000000DC6666667C6060F0000000, 0x000000000076CCCCCC7C0C0C1E000000,
   0x0000000000DC76666060F00000000000, 0x00000000007CC6701CC67C0000000000,
   0x0000103030FC303030361C0000000000, 0x0000000000CCCCCCCCCC760000000000,
   0x0000000000C6C6C6C66C380000000000, 0x0000000000C6C6D6D6FE6C0000000000,
   0x0000000000C66C38386CC60000000000, 0x0000000000C6C6C6C67E060CF8000000,
   0x0000000000FECC183066FE0000000000, 0x00000E181818701818180E0000000000,
   0x00001818181800181818180000000000, 0x0000701818180E181818700000000000,
   0x000076DC000000000000000000000000, 0x00000010386CC6C6FE00000000000000]

/-- A row of a character, the leftmost pixel in the highest bit. -/
def glyphRow (idx : UInt8) (row : Nat) : UInt8 :=
  (fontData.getD idx.toNat 0 >>> (8 * (15 - row))).toUInt8

/-- The character that is drawn for another. -/
def glyphIndex (c : UInt8) : UInt8 := if c > 0x7F then '?'.toUInt8 else c

/-- The colours of the pixels of a character, by row and column. -/
abbrev Glyph := Nat → Nat → UInt32

/-- What is drawn for a character. -/
def glyphOf (fg bg : UInt32) (c : UInt8) : Glyph := fun row col =>
  if glyphRow (glyphIndex c) row &&& (0x80 >>> col.toUInt8) ≠ 0 then fg else bg

namespace Screen

/-- `draw_char`. -/
def drawChar (s : Screen) (cx cy : UInt32) (c : UInt8) (fg bg : UInt32) (m : Mem) : Mem :=
  let px := cx * 8
  let py := cy * 16
  (List.range 16).foldl (fun m row =>
    (List.range 8).foldl (fun m col =>
      s.fbPutpixel (px + col.toUInt32) (py + row.toUInt32) (glyphOf fg bg c row col) m) m) m

/-- `fb_scroll`. -/
def fbScroll (s : Screen) (bg : UInt32) (m : Mem) : Mem :=
  let copyBytes := s.pitch * (s.height - 16)
  let src := byteAt s.addr.toNat (s.pitch * 16).toNat
  s.fbFillRect 0 (s.height - 16) s.width 16 bg (memmove m s.addr.toNat src copyBytes.toNat)

/-! ## Pixels that are painted -/

variable {s : Screen} {m : Mem} {p : UInt32 × UInt32} {color : UInt32}

/-- A pixel of the screen has a colour. -/
def HasColor (s : Screen) (m : Mem) (p : UInt32 × UInt32) (color : UInt32) : Prop :=
  ∀ i < s.bytesPerPixel.toNat,
    m (byteAt (s.pixelAddr p.1 p.2) i) = packedByte (s.packColor color) i

/-- Pixels that are put one after another, each with its colour. -/
def paint (s : Screen) (ps : List ((UInt32 × UInt32) × UInt32)) (m : Mem) : Mem :=
  ps.foldl (fun m q => s.fbPutpixel q.1.1 q.1.2 q.2 m) m

theorem hasColor_fbPutpixel (hfit : s.RowsFit) (haddr : s.addr ≠ 0) (hp : s.OnScreen p) :
    s.HasColor (s.fbPutpixel p.1 p.2 color m) p color := by
  intro i hi
  rw [fbPutpixel_eq]
  refine store_mem m (mem_pixelStores.mpr ⟨haddr, hp, i, hi, rfl⟩) ?_
  intro w hw heq
  rcases mem_pixelStores.mp hw with ⟨-, -, j, hj, rfl⟩
  rw [(pixel_byte_inj hfit hp hp hj hi heq).2]

/-- Another pixel keeps its colour. -/
theorem hasColor_fbPutpixel_ne (hfit : s.RowsFit) (hp : s.OnScreen p) {q : UInt32 × UInt32}
    (hne : p ≠ q) {other : UInt32} (h : s.HasColor m p color) :
    s.HasColor (s.fbPutpixel q.1 q.2 other m) p color := by
  intro i hi
  rw [fbPutpixel_eq, store_frame m, h i hi]
  intro w hw heq
  rcases mem_pixelStores.mp hw with ⟨-, hq, j, hj, rfl⟩
  exact hne (pixel_byte_inj hfit hp hq hi hj heq).1

theorem hasColor_paint_frame (hfit : s.RowsFit) (hp : s.OnScreen p)
    {ps : List ((UInt32 × UInt32) × UInt32)} (hps : ∀ q ∈ ps, p ≠ q.1)
    (h : s.HasColor m p color) : s.HasColor (s.paint ps m) p color := by
  induction ps generalizing m with
  | nil => exact h
  | cons q ps ih =>
      rcases List.forall_mem_cons.mp hps with ⟨hq, hrest⟩
      exact ih hrest (hasColor_fbPutpixel_ne hfit hp hq h)

/-- A pixel that is painted, always in the same colour. -/
theorem hasColor_paint (hfit : s.RowsFit) (haddr : s.addr ≠ 0) (hp : s.OnScreen p)
    {ps : List ((UInt32 × UInt32) × UInt32)} (hmem : (p, color) ∈ ps)
    (hsame : ∀ q ∈ ps, q.1 = p → q.2 = color) : s.HasColor (s.paint ps m) p color := by
  induction ps generalizing m with
  | nil => cases hmem
  | cons q ps ih =>
      rcases List.forall_mem_cons.mp hsame with ⟨-, hrest⟩
      change s.HasColor (s.paint ps (s.fbPutpixel q.1.1 q.1.2 q.2 m)) p color
      by_cases hlater : (p, color) ∈ ps
      · exact ih hlater hrest
      · have hq : (p, color) = q := (List.mem_cons.mp hmem).resolve_right hlater
        subst hq
        refine hasColor_paint_frame hfit hp ?_ (hasColor_fbPutpixel hfit haddr hp)
        rintro ⟨q, c⟩ hq rfl
        have hc : c = color := hrest _ hq rfl
        exact hlater (hc ▸ hq)

/-! ## Rectangles -/

variable {x y w h : UInt32}

theorem fbFillRect_eq_paint : s.fbFillRect x y w h color m =
    s.paint ((Fb.fbFillRect s.toFramebuffer x y w h).map (·, color)) m := by
  rw [fbFillRect_eq_foldl, paint, List.foldl_map]

/-- The pixels of a rectangle get its colour. -/
theorem hasColor_fbFillRect (hfit : s.RowsFit) (haddr : s.addr ≠ 0) (hp : s.OnScreen p)
    (hx : x.toNat ≤ p.1.toNat ∧ p.1.toNat < x.toNat + w.toNat)
    (hy : y.toNat ≤ p.2.toNat ∧ p.2.toNat < y.toNat + h.toNat) :
    s.HasColor (s.fbFillRect x y w h color m) p color := by
  have hcol := UInt32.lt_iff_toNat_lt.mp hp.1
  have hrow := UInt32.lt_iff_toNat_lt.mp hp.2
  rw [fbFillRect_eq_paint]
  refine hasColor_paint hfit haddr hp (List.mem_map.mpr ⟨p, ?_, rfl⟩) ?_
  · exact mem_fbFillRect.mpr ⟨haddr, ⟨hx.1, hx.2, hcol⟩, hy.1, hy.2, hrow⟩
  · intro q hq _
    rcases List.mem_map.mp hq with ⟨q, -, rfl⟩
    rfl

/-- Pixels above a rectangle keep their colours. -/
theorem hasColor_fbFillRect_above (hfit : s.RowsFit) (hp : s.OnScreen p) {other : UInt32}
    (hy : p.2.toNat < y.toNat) (hcolor : s.HasColor m p color) :
    s.HasColor (s.fbFillRect x y w h other m) p color := by
  rw [fbFillRect_eq_paint]
  refine hasColor_paint_frame hfit hp ?_ hcolor
  intro q hq heq
  rcases List.mem_map.mp hq with ⟨q, hmem, rfl⟩
  rcases q with ⟨col, row⟩
  have hrow := (mem_fbFillRect.mp hmem).2.2.1
  have hp2 : p.2 = row := congrArg Prod.snd heq
  rw [hp2] at hy
  omega

/-! ## Cells -/

/-- The pixel of a column and a row. -/
def pixelAt (x y : Nat) : UInt32 × UInt32 := (x.toUInt32, y.toUInt32)

section Cells

variable {x y cx cy row col : Nat}

theorem toNat_toUInt32_of_lt {n : Nat} {bound : UInt32} (h : n < bound.toNat) :
    n.toUInt32.toNat = n := Nat.mod_eq_of_lt (h.trans bound.toNat_lt)

theorem pixelAt_onScreen (hx : x < s.width.toNat) (hy : y < s.height.toNat) :
    s.OnScreen (pixelAt x y) := by
  refine ⟨UInt32.lt_iff_toNat_lt.mpr ?_, UInt32.lt_iff_toNat_lt.mpr ?_⟩
  · exact (toNat_toUInt32_of_lt hx).trans_lt hx
  · exact (toNat_toUInt32_of_lt hy).trans_lt hy

/-- Pixels of the screen are told apart. -/
theorem pixelAt_inj {x' y' : Nat} (hx : x < s.width.toNat) (hx' : x' < s.width.toNat)
    (hy : y < s.height.toNat) (hy' : y' < s.height.toNat) (h : pixelAt x y = pixelAt x' y') :
    x = x' ∧ y = y' := by
  have hcol : x.toUInt32.toNat = x'.toUInt32.toNat := congrArg (fun p => p.1.toNat) h
  have hrow : y.toUInt32.toNat = y'.toUInt32.toNat := congrArg (fun p => p.2.toNat) h
  rw [toNat_toUInt32_of_lt hx, toNat_toUInt32_of_lt hx'] at hcol
  rw [toNat_toUInt32_of_lt hy, toNat_toUInt32_of_lt hy'] at hrow
  exact ⟨hcol, hrow⟩

/-- The pixels that `draw_char` puts. -/
def charPixels (cx cy : Nat) (g : Glyph) : List ((UInt32 × UInt32) × UInt32) :=
  (List.range 16).flatMap fun row =>
    (List.range 8).map fun col => (pixelAt (8 * cx + col) (16 * cy + row), g row col)

theorem drawChar_eq_paint (cx cy : UInt32) (c : UInt8) (fg bg : UInt32) :
    s.drawChar cx cy c fg bg m = s.paint (charPixels cx.toNat cy.toNat (glyphOf fg bg c)) m := by
  have hpixel : ∀ (a : UInt32) (k i : Nat),
      a * k.toUInt32 + i.toUInt32 = (k * a.toNat + i).toUInt32 := by
    intro a k i
    apply UInt32.toNat_inj.mp
    simp [UInt32.toNat_add, UInt32.toNat_mul, Nat.toUInt32, UInt32.toNat_ofNat', Nat.mul_comm]
  unfold drawChar charPixels paint
  rw [List.foldl_flatMap]
  simp only [List.foldl_map, pixelAt]
  refine List.foldl_ext _ _ _ fun m row _ => List.foldl_ext _ _ _ fun m col _ => ?_
  rw [← hpixel cx 8 col, ← hpixel cy 16 row]
  rfl

theorem mem_charPixels {g : Glyph} {q : (UInt32 × UInt32) × UInt32} : q ∈ charPixels cx cy g ↔
    ∃ row < 16, ∃ col < 8, (pixelAt (8 * cx + col) (16 * cy + row), g row col) = q := by
  simp only [charPixels, List.mem_flatMap, List.mem_map, List.mem_range]

variable {fg bg : UInt32} {c : UInt8}

/-- The pixels of a visible cell get the colours of the character. -/
theorem hasColor_drawChar (hfit : s.RowsFit) (haddr : s.addr ≠ 0) {cx cy : UInt32}
    (hx : 8 * cx.toNat + 8 ≤ s.width.toNat) (hy : 16 * cy.toNat + 16 ≤ s.height.toNat)
    (hrow : row < 16) (hcol : col < 8) :
    s.HasColor (s.drawChar cx cy c fg bg m) (pixelAt (8 * cx.toNat + col) (16 * cy.toNat + row))
      (glyphOf fg bg c row col) := by
  rw [drawChar_eq_paint]
  refine hasColor_paint hfit haddr (pixelAt_onScreen (by omega) (by omega)) ?_ ?_
  · exact mem_charPixels.mpr ⟨row, hrow, col, hcol, rfl⟩
  · intro q hq heq
    rcases mem_charPixels.mp hq with ⟨row', hrow', col', hcol', rfl⟩
    have hinj := pixelAt_inj (s := s) (by omega) (by omega) (by omega) (by omega) heq
    have hr : row' = row := by omega
    have hc : col' = col := by omega
    rw [hr, hc]

/-- Pixels outside of it keep theirs. -/
theorem hasColor_drawChar_ne (hfit : s.RowsFit) {cx cy : UInt32}
    (hcx : 8 * cx.toNat + 8 ≤ s.width.toNat) (hcy : 16 * cy.toNat + 16 ≤ s.height.toNat)
    (hx : x < s.width.toNat) (hy : y < s.height.toNat)
    (hout : x / 8 ≠ cx.toNat ∨ y / 16 ≠ cy.toNat) (h : s.HasColor m (pixelAt x y) color) :
    s.HasColor (s.drawChar cx cy c fg bg m) (pixelAt x y) color := by
  rw [drawChar_eq_paint]
  refine hasColor_paint_frame hfit (pixelAt_onScreen hx hy) ?_ h
  intro q hq heq
  rcases mem_charPixels.mp hq with ⟨row, hrow, col, hcol, rfl⟩
  have hinj := pixelAt_inj (s := s) hx (by omega) hy (by omega) heq
  omega

/-! ## Scrolling -/

/-- The framebuffer is an object of the address space. -/
structure Mapped (s : Screen) : Prop where
  addr : s.addr ≠ 0
  rowsFit : s.RowsFit
  bytes : 0 < s.bytesPerPixel.toNat
  size : s.addr.toNat + s.height.toNat * s.pitch.toNat ≤ 2 ^ 64

/-- The lengths that `fb_scroll` computes do not wrap around. -/
def ScrollFits (s : Screen) : Prop :=
  s.pitch.toNat * (s.height.toNat - 16) < 2 ^ 32 ∧ s.pitch.toNat * 16 < 2 ^ 32

theorem toNat_height_sub (hheight : 16 ≤ s.height.toNat) :
    (s.height - 16).toNat = s.height.toNat - 16 :=
  UInt32.toNat_sub_of_le _ _ (UInt32.le_iff_toNat_le.mpr hheight)

theorem Mapped.pitch_pos (hs : s.Mapped) (hx : x < s.width.toNat) : 0 < s.pitch.toNat := by
  have hbytes := hs.bytes
  have hfit : s.width.toNat * s.bytesPerPixel.toNat ≤ s.pitch.toNat := hs.rowsFit
  have hwidth : 0 < s.width.toNat * s.bytesPerPixel.toNat := Nat.mul_pos (by omega) hbytes
  omega

/-- A byte of the moved rows, which lies sixteen rows further. -/
theorem memmove_row (hs : s.Mapped) (hfits : s.ScrollFits) (hheight : 16 ≤ s.height.toNat)
    {off : Nat} (hpitch : 0 < s.pitch.toNat) (hy : y + 16 < s.height.toNat)
    (hoff : off < s.pitch.toNat) :
    memmove m s.addr.toNat (byteAt s.addr.toNat (s.pitch * 16).toNat)
        (s.pitch * (s.height - 16)).toNat (byteAt s.addr.toNat (y * s.pitch.toNat + off)) =
      m (byteAt s.addr.toNat ((y + 16) * s.pitch.toNat + off)) := by
  -- the lengths are computed in 32 bits; here they do not wrap around
  have hcopy : (s.pitch * (s.height - 16)).toNat = (s.height.toNat - 16) * s.pitch.toNat := by
    rw [UInt32.toNat_mul, toNat_height_sub hheight, Nat.mod_eq_of_lt hfits.1, Nat.mul_comm]
  have hsrc : (s.pitch * 16).toNat = 16 * s.pitch.toNat := by
    rw [UInt32.toNat_mul, Nat.mul_comm]
    exact Nat.mod_eq_of_lt (by have := hfits.2; change 16 * _ < _; omega)
  have hsize := hs.size
  have hsplit : s.height.toNat * s.pitch.toNat =
      16 * s.pitch.toNat + (s.height.toNat - 16) * s.pitch.toNat := by
    rw [← Nat.add_mul, Nat.add_sub_cancel' hheight]
  have hmoved : y * s.pitch.toNat + off < (s.height.toNat - 16) * s.pitch.toNat := calc
    y * s.pitch.toNat + off < y * s.pitch.toNat + s.pitch.toNat := by omega
    _ = (y + 1) * s.pitch.toNat := by rw [Nat.succ_mul]
    _ ≤ (s.height.toNat - 16) * s.pitch.toNat := Nat.mul_le_mul_right _ (by omega)
  have hnext : (y + 16) * s.pitch.toNat + off = 16 * s.pitch.toNat + (y * s.pitch.toNat + off) := by
    rw [Nat.add_mul]
    omega
  rw [hcopy, hsrc, hnext, byteAt_eq (i := 16 * s.pitch.toNat) (by omega), byteAt_eq (by omega),
    byteAt_eq (by omega), memmove_down m (by omega) (by omega) hmoved, Nat.add_assoc]

/-- The rows behind the first sixteen are moved up. -/
theorem hasColor_fbScroll_up (hs : s.Mapped) (hfits : s.ScrollFits)
    (hheight : 16 ≤ s.height.toNat) (hx : x < s.width.toNat) (hy : y + 16 < s.height.toNat)
    (h : s.HasColor m (pixelAt x (y + 16)) color) :
    s.HasColor (s.fbScroll bg m) (pixelAt x y) color := by
  have hsub := toNat_height_sub hheight
  have hon : s.OnScreen (pixelAt x y) := pixelAt_onScreen hx (by omega)
  -- the row is above the part that is filled, so the move alone decides
  refine hasColor_fbFillRect_above hs.rowsFit hon ?_ fun i hi => ?_
  · rw [hsub]
    change y.toUInt32.toNat < _
    have hrow : y.toUInt32.toNat = y := toNat_toUInt32_of_lt (show y < s.height.toNat by omega)
    omega
  have hpixel : ∀ y' < s.height.toNat, byteAt (s.pixelAddr (pixelAt x y').1 (pixelAt x y').2) i =
      byteAt s.addr.toNat (y' * s.pitch.toNat + (x * s.bytesPerPixel.toNat + i)) := by
    intro y' hy'
    have hcol : (pixelAt x y').1.toNat = x := toNat_toUInt32_of_lt hx
    have hrow : (pixelAt x y').2.toNat = y' := toNat_toUInt32_of_lt hy'
    rw [byteAt_pixelAddr, byteOffset, hcol, hrow]
  have hoff : x * s.bytesPerPixel.toNat + i < s.pitch.toNat := by
    have hcol : (pixelAt x y).1.toNat = x := toNat_toUInt32_of_lt hx
    have hlt := column_offset_lt hs.rowsFit hon.1 hi
    rwa [hcol] at hlt
  rw [hpixel y (by omega), memmove_row hs hfits hheight (hs.pitch_pos hx) hy hoff, ← hpixel _ hy]
  exact h i hi

/-- The last sixteen rows are filled. -/
theorem hasColor_fbScroll_bottom (hs : s.Mapped) (hheight : 16 ≤ s.height.toNat)
    (hx : x < s.width.toNat) (hlow : s.height.toNat ≤ y + 16) (hy : y < s.height.toNat) :
    s.HasColor (s.fbScroll bg m) (pixelAt x y) bg := by
  have hsub := toNat_height_sub hheight
  have hcol : (pixelAt x y).1.toNat = x := toNat_toUInt32_of_lt hx
  have hrow : (pixelAt x y).2.toNat = y := toNat_toUInt32_of_lt hy
  have hzero : (0 : UInt32).toNat = 0 := rfl
  have hsixteen : (16 : UInt32).toNat = 16 := rfl
  refine hasColor_fbFillRect hs.rowsFit hs.addr (pixelAt_onScreen hx hy) ?_ ?_
  · rw [hcol, hzero]
    omega
  · rw [hrow, hsub, hsixteen]
    omega

end Cells

end Screen

end PolandOS.Fb
