import PolandOS.Lib.Terminal
import PolandOS.Lib.Traces
import PolandOS.Text.Printf
import PolandOS.Drivers.Glyphs

/-! # The text console

`fb_init` and `fb_putchar` of `kernel/drivers/fb.c`.

* `console_refines_terminal`: the console is a terminal, as long as no tab reaches the right
  edge and scrolling stays within 32 bits
-/

namespace PolandOS.Fb

open ByteMem

/-! ## The console -/

/-- The state of the driver. -/
structure Console where
  screen : Screen
  cursorX : UInt32
  cursorY : UInt32
  fgColor : UInt32
  bgColor : UInt32
  cols : UInt32
  rows : UInt32
  mem : Mem

/-- `FB_BLACK`. -/
def fbBlack : UInt32 := 0x000000

/-- `'\b'`. -/
def backspaceChar : UInt8 := 8

namespace Console

/-- `draw_char` at the cursor, in the colours of the console. -/
def drawAtCursor (con : Console) (c : UInt8) : Console :=
  { con with mem :=
      con.screen.drawChar con.cursorX con.cursorY c con.fgColor con.bgColor con.mem }

/-- The loop for a tab, which goes round at most eight times. -/
def tabLoop (next : UInt32) : Nat → Console → Console
  | 0, con => con
  | fuel + 1, con =>
    if con.cursorX < next ∧ con.cursorX < con.cols then
      tabLoop next fuel { con.drawAtCursor ' '.toUInt8 with cursorX := con.cursorX + 1 }
    else con

/-- What `fb_putchar` does for a character, before it looks whether to scroll. -/
def placeChar (con : Console) (c : UInt8) : Console :=
  if c = '\n'.toUInt8 then { con with cursorX := 0, cursorY := con.cursorY + 1 }
  else if c = '\r'.toUInt8 then { con with cursorX := 0 }
  else if c = backspaceChar then
    if con.cursorX > 0 then { con with cursorX := con.cursorX - 1 }.drawAtCursor ' '.toUInt8
    else con
  else if c = '\t'.toUInt8 then tabLoop ((con.cursorX + 8) &&& ~~~7) 8 con
  else
    let con := { con.drawAtCursor c with cursorX := con.cursorX + 1 }
    if con.cursorX ≥ con.cols then { con with cursorX := 0, cursorY := con.cursorY + 1 } else con

/-- Scroll if the cursor is below the last row. -/
def scrollIfBelow (con : Console) : Console :=
  if con.cursorY ≥ con.rows then
    { con with mem := con.screen.fbScroll con.bgColor con.mem, cursorY := con.rows - 1 }
  else con

/-- `fb_putchar`. -/
def fbPutchar (con : Console) (c : UInt8) : Console :=
  if con.screen.addr = 0 then con else (con.placeChar c).scrollIfBelow

/-- `fb_clear`. -/
def fbClear (con : Console) (color : UInt32) : Console :=
  if con.screen.addr = 0 then con
  else { con with
    mem := con.screen.fbFillRect 0 0 con.screen.width con.screen.height color con.mem
    cursorX := 0
    cursorY := 0 }

/-! ## Initialisation -/

/-- `kprintf` with at most one argument, as far as it goes to the screen. -/
def kprintf (con : Console) (fmt : Printf.CString) (arg : UInt64) : Console :=
  match Printf.kvprintf (fun _ => ⟨[], by decide⟩) (fmt.chars.length + 1) con.mem fmt fun _ => arg with
  | .ok (text, _) => text.foldl fbPutchar con
  | .error _ => con

def noDepthMessage : Printf.CString :=
  ⟨"[BLAD] FB: nieprawidlowe bpp=0, wymuszam 1 bajt/piksel\n".toList.map Printf.chr, by decide⟩

def deepMessage : Printf.CString :=
  ⟨"[BLAD] FB: nieobslugiwane bpp=%u, ograniczam do 32bpp zapisu\n".toList.map Printf.chr,
    by decide⟩

def noMasksMessage : Printf.CString :=
  ⟨"[INFO] FB: brak masek, uzywam domyslnego mapowania dla %ubpp\n".toList.map Printf.chr,
    by decide⟩

/-- The arguments of `fb_init`. -/
structure Mode where
  addr : UInt64
  width : UInt32
  height : UInt32
  pitch : UInt32
  bpp : UInt16
  redMaskSize : UInt8
  redMaskShift : UInt8
  greenMaskSize : UInt8
  greenMaskShift : UInt8
  blueMaskSize : UInt8
  blueMaskShift : UInt8

/-- The screen with another size of its pixels. -/
def withBytes (con : Console) (bytes : UInt8) : Console :=
  { con with screen := { con.screen with bytesPerPixel := bytes } }

/-- The memory of the mode, before its pixels are looked at. -/
def setGeometry (con : Console) (mode : Mode) : Console :=
  { con with screen := { con.screen with
    addr := mode.addr, width := mode.width, height := mode.height, pitch := mode.pitch
    bytesPerPixel := ((mode.bpp.toUInt32 + 7) / 8).toUInt8 } }

/-- The pixels of the mode, of one to four bytes. -/
def setPixels (con : Console) (mode : Mode) : Console :=
  let con := con.setGeometry mode
  let con :=
    if con.screen.bytesPerPixel = 0 then (con.kprintf noDepthMessage 0).withBytes 1 else con
  if con.screen.bytesPerPixel > 4 then
    (con.kprintf deepMessage mode.bpp.toUInt64).withBytes 4
  else con

/-- Sizes and shifts of the masks of red, green and blue. -/
def withMasks (con : Console) (redSize redShift greenSize greenShift blueSize blueShift : UInt8) :
    Console :=
  { con with screen := { con.screen with
    redMaskSize := redSize, redMaskShift := redShift, greenMaskSize := greenSize
    greenMaskShift := greenShift, blueMaskSize := blueSize, blueMaskShift := blueShift } }

/-- The masks of the mode, or common ones if it has none. -/
def setMasks (con : Console) (mode : Mode) : Console :=
  let con := con.withMasks mode.redMaskSize mode.redMaskShift mode.greenMaskSize
    mode.greenMaskShift mode.blueMaskSize mode.blueMaskShift
  if mode.redMaskSize = 0 ∧ mode.greenMaskSize = 0 ∧ mode.blueMaskSize = 0 then
    let con := if mode.bpp = 16 then con.withMasks 5 11 6 5 5 0 else con.withMasks 8 16 8 8 8 0
    con.kprintf noMasksMessage mode.bpp.toUInt64
  else con

/-- `fb_init`. -/
def fbInit (con : Console) (mode : Mode) : Console :=
  let con := (con.setPixels mode).setMasks mode
  { con with cols := mode.width / 8, rows := mode.height / 16 }.fbClear fbBlack

/-! ## The terminal -/

/-- An empty cell. -/
def blank (con : Console) : Glyph := fun _ _ => con.bgColor

/-- What a character means for the terminal. -/
def keyOf (con : Console) (c : UInt8) : Terminal.Key Glyph :=
  if c = '\n'.toUInt8 then .newline
  else if c = '\r'.toUInt8 then .return
  else if c = backspaceChar then .backspace
  else if c = '\t'.toUInt8 then .tab
  else .glyph (glyphOf con.fgColor con.bgColor c)

/-- The call ends a row. -/
def EndsRow (con : Console) (c : UInt8) : Prop :=
  c = '\n'.toUInt8 ∨ c ∉ ['\r'.toUInt8, backspaceChar, '\t'.toUInt8] ∧
    con.cols.toNat ≤ con.cursorX.toNat + 1

/-- The condition on a call. A tab stays inside the row; and where the console scrolls, the
lengths do not wrap around, and what is below the last row of cells, if there is anything, has
the colour of an empty cell. -/
def Sound (con : Console) (c : UInt8) : Prop :=
  (c = '\t'.toUInt8 → Terminal.tabStop con.cursorX.toNat < con.cols.toNat) ∧
    (con.EndsRow c → con.rows.toNat ≤ con.cursorY.toNat + 1 →
      con.screen.ScrollFits ∧ (16 ∣ con.screen.height.toNat ∨
        con.screen.packColor con.bgColor = con.screen.packColor fbBlack))

variable {con : Console} {cols rows : Nat} {t : Terminal Glyph cols rows}

/-- The console shows the terminal: the cursor is where it should be, and each cell has the
colours that it should have. Below the last row all is empty. -/
structure Represents (con : Console) (t : Terminal Glyph cols rows) : Prop where
  mapped : con.screen.Mapped
  colCount : con.cols.toNat = cols
  rowCount : con.rows.toNat = rows
  width : cols = con.screen.width.toNat / 8
  height : rows = con.screen.height.toNat / 16
  cursorX : con.cursorX.toNat = t.x.val
  cursorY : con.cursorY.toNat = t.y.val
  cell : ∀ (i : Fin cols) (j : Fin rows) (row col : Nat), row < 16 → col < 8 →
    con.screen.HasColor con.mem (Screen.pixelAt (8 * i.val + col) (16 * j.val + row))
      (t.cell i j row col)
  strip : ∃ color, (color = fbBlack ∨ color = con.bgColor) ∧
    ∀ x y, x < con.screen.width.toNat → 16 * rows ≤ y → y < con.screen.height.toNat →
      con.screen.HasColor con.mem (Screen.pixelAt x y) color

/-- The cursor may be moved anywhere. -/
theorem Represents.moveTo (h : Represents con t) {x y : UInt32} {x' : Fin cols} {y' : Fin rows}
    (hx : x.toNat = x'.val) (hy : y.toNat = y'.val) :
    Represents { con with cursorX := x, cursorY := y } { t with x := x', y := y' } :=
  { h with cursorX := hx, cursorY := hy }

/-- A character is drawn in the cell where the cursor stands, and only there. -/
theorem Represents.drawAtCursor (h : Represents con t) (c : UInt8) :
    Represents (con.drawAtCursor c) (t.write (glyphOf con.fgColor con.bgColor c)) := by
  have hxlt := t.x.isLt
  have hylt := t.y.isLt
  have hwidth := h.width
  have hheight := h.height
  have hx := h.cursorX
  have hy := h.cursorY
  have hfit := h.mapped.rowsFit
  have hright : 8 * con.cursorX.toNat + 8 ≤ con.screen.width.toNat := by omega
  have hbottom : 16 * con.cursorY.toNat + 16 ≤ con.screen.height.toNat := by omega
  refine { h with cell := fun i j row col hrow hcol => ?_, strip := ?_ }
  · have hi := i.isLt
    have hj := j.isLt
    change con.screen.HasColor _ _ ((if i = t.x ∧ j = t.y then _ else t.cell i j) row col)
    -- inside the cell the glyph's bits decide, and the other cells keep their pixels
    by_cases hij : i = t.x ∧ j = t.y
    · rw [if_pos hij, hij.1, hij.2, ← hx, ← hy]
      exact Screen.hasColor_drawChar hfit h.mapped.addr hright hbottom hrow hcol
    · rw [if_neg hij]
      refine Screen.hasColor_drawChar_ne hfit hright hbottom (by omega) (by omega) ?_
        (h.cell i j row col hrow hcol)
      rw [Fin.ext_iff, Fin.ext_iff] at hij
      omega
  -- the strip lies below every cell
  · rcases h.strip with ⟨color, hcolor, hstrip⟩
    refine ⟨color, hcolor, fun x y hx' hlow hy' => ?_⟩
    exact Screen.hasColor_drawChar_ne hfit hright hbottom hx' hy' (.inr (by omega))
      (hstrip x y hx' hlow hy')

/-- Inside the grid nothing is scrolled. -/
theorem Represents.scrollIfBelow (h : Represents con t) : con.scrollIfBelow = con := by
  have hlt : ¬con.cursorY ≥ con.rows := by
    rw [ge_iff_le, UInt32.le_iff_toNat_le, h.rowCount, h.cursorY]
    exact Nat.not_le_of_lt t.y.isLt
  rw [Console.scrollIfBelow, if_neg hlt]

/-- Colours that are packed alike are the same on the screen. -/
theorem hasColor_congr {s : Screen} {m : Mem} {p : UInt32 × UInt32} {a b : UInt32}
    (hab : s.packColor a = s.packColor b) (h : s.HasColor m p a) : s.HasColor m p b := by
  unfold Screen.HasColor at h ⊢
  rwa [← hab]

/-- The grid is scrolled by one row. -/
theorem Represents.scroll (h : Represents con t) (hfits : con.screen.ScrollFits)
    (hstrip : 16 ∣ con.screen.height.toNat ∨
      con.screen.packColor con.bgColor = con.screen.packColor fbBlack) :
    Represents { con with mem := con.screen.fbScroll con.bgColor con.mem } (t.scroll con.blank) := by
  have hylt := t.y.isLt
  have hwidth := h.width
  have hheight := h.height
  have hsixteen : 16 ≤ con.screen.height.toNat := by omega
  refine { h with cell := fun i j row col hrow hcol => ?_, strip := ?_ }
  · have hi := i.isLt
    have hj := j.isLt
    have hx : 8 * i.val + col < con.screen.width.toNat := by omega
    change con.screen.HasColor _ _
      ((if hj : j.val + 1 < rows then t.cell i ⟨j.val + 1, hj⟩ else con.blank) row col)
    -- each row is the one below it, but for the last one
    by_cases hnext : j.val + 1 < rows
    · have hcell := h.cell i ⟨j.val + 1, hnext⟩ row col hrow hcol
      have hy : 16 * (j.val + 1) + row = 16 * j.val + row + 16 := by omega
      rw [hy] at hcell
      rw [dif_pos hnext]
      exact Screen.hasColor_fbScroll_up h.mapped hfits hsixteen hx (by omega) hcell
    · rw [dif_neg hnext]
      by_cases hbottom : con.screen.height.toNat ≤ 16 * j.val + row + 16
      · exact Screen.hasColor_fbScroll_bottom h.mapped hsixteen hx hbottom (by omega)
      · -- what is moved into the last row comes from below the grid
        rcases h.strip with ⟨color, hcolor, hbelow⟩
        have hpack : con.screen.packColor color = con.screen.packColor con.bgColor := by
          rcases hstrip with hdvd | hpack
          · omega
          · rcases hcolor with rfl | rfl
            · exact hpack.symm
            · rfl
        have hmoved := hbelow _ (16 * j.val + row + 16) hx (by omega) (by omega)
        exact Screen.hasColor_fbScroll_up h.mapped hfits hsixteen hx (by omega)
          (hasColor_congr hpack hmoved)
  · refine ⟨con.bgColor, .inr rfl, fun x y hx hlow hy => ?_⟩
    have hbottom : con.screen.height.toNat ≤ y + 16 := by omega
    exact Screen.hasColor_fbScroll_bottom h.mapped hsixteen hx hbottom hy

/-- To the next row. -/
theorem Represents.lineFeed (h : Represents con t)
    (hsound : con.rows.toNat ≤ con.cursorY.toNat + 1 →
      con.screen.ScrollFits ∧ (16 ∣ con.screen.height.toNat ∨
        con.screen.packColor con.bgColor = con.screen.packColor fbBlack)) :
    Represents ({ con with cursorY := con.cursorY + 1 } : Console).scrollIfBelow
      (t.lineFeed con.blank) := by
  have hylt := t.y.isLt
  have hrows := h.rowCount
  have hy := h.cursorY
  have hbound := con.rows.toNat_lt
  have hnext : (con.cursorY + 1).toNat = t.y.val + 1 := by
    rw [UInt32.toNat_add, hy]
    exact Nat.mod_eq_of_lt (by change t.y.val + 1 < _; omega)
  unfold Terminal.lineFeed
  -- only in the last row the cursor leaves the grid, and the console scrolls
  by_cases hlt : t.y.val + 1 < rows
  · rw [dif_pos hlt]
    have hmoved : Represents { con with cursorY := con.cursorY + 1 }
        { t with y := ⟨t.y.val + 1, hlt⟩ } := h.moveTo h.cursorX hnext
    rw [hmoved.scrollIfBelow]
    exact hmoved
  · rw [dif_neg hlt]
    rcases hsound (by omega) with ⟨hfits, hstrip⟩
    have hbelow : con.cursorY + 1 ≥ con.rows := by
      rw [ge_iff_le, UInt32.le_iff_toNat_le]
      omega
    have hlast : (con.rows - 1).toNat = t.y.val := by
      rw [UInt32.toNat_sub_of_le _ _ (UInt32.le_iff_toNat_le.mpr (by change 1 ≤ _; omega))]
      change con.rows.toNat - 1 = _
      omega
    rw [Console.scrollIfBelow, if_pos hbelow]
    exact (h.scroll hfits hstrip).moveTo h.cursorX hlast

/-! ## One call -/

/-- A space is an empty cell. -/
theorem glyphOf_space (con : Console) : glyphOf con.fgColor con.bgColor ' '.toUInt8 = con.blank := by
  have hidx : glyphIndex ' '.toUInt8 = 32 := by decide
  have hfont : fontData.getD (32 : UInt8).toNat 0 = 0 := by decide
  have hrow : ∀ row, glyphRow 32 row = 0 := by
    intro row
    rw [glyphRow, hfont, Nat.zero_shiftRight]
    rfl
  funext row col
  rw [glyphOf, hidx, hrow, UInt8.zero_and, if_neg (not_not.mpr rfl)]
  rfl

theorem and_not_seven {n : Nat} (hn : n < 2 ^ 32) : n &&& 4294967288 = n / 8 * 8 := by
  have hmask : 4294967288 = (2 ^ 29 - 1) * 2 ^ 3 := by decide
  have hshift : n / 8 * 8 = n >>> 3 <<< 3 := by rw [Nat.shiftRight_eq_div_pow, Nat.shiftLeft_eq]
  apply Nat.eq_of_testBit_eq
  intro i
  rw [Nat.testBit_and, hmask, hshift, Nat.testBit_mul_two_pow, Nat.testBit_two_pow_sub_one,
    Nat.testBit_shiftLeft, Nat.testBit_shiftRight]
  by_cases hi : 3 ≤ i
  · have hadd : 3 + (i - 3) = i := by omega
    rw [hadd]
    by_cases hlow : i < 32
    · have hlt : i - 3 < 29 := by omega
      simp [hi, hlt]
    · have hbit : n.testBit i = false :=
        Nat.testBit_lt_two_pow (hn.trans_le (Nat.pow_le_pow_right (by decide) (by omega)))
      simp [hbit]
  · simp [hi]

/-- `(cursor_x + 8) & ~7u`. -/
theorem toNat_tabStop {x : UInt32} (hx : x.toNat + 8 < 2 ^ 32) :
    ((x + 8) &&& ~~~7).toNat = Terminal.tabStop x.toNat := by
  have hmask : (~~~7 : UInt32).toNat = 4294967288 := by decide
  have hadd : (x + 8).toNat = x.toNat + 8 := by
    rw [UInt32.toNat_add]
    exact Nat.mod_eq_of_lt hx
  rw [UInt32.toNat_and, hmask, hadd, and_not_seven hx, Terminal.tabStop]
  omega

theorem Represents.drawSpace (h : Represents con t) :
    Represents (con.drawAtCursor ' '.toUInt8) (t.write con.blank) := by
  rw [← glyphOf_space]
  exact h.drawAtCursor _

/-- The loop empties the cells up to the tab stop. -/
theorem Represents.tabLoop (h : Represents con t) {next : UInt32} {stop : Fin cols}
    (hnext : next.toNat = stop.val) {fuel : Nat} (hle : t.x.val ≤ stop.val)
    (hfuel : stop.val - t.x.val ≤ fuel) :
    Represents (con.tabLoop next fuel) { t.wipe con.blank stop.val with x := stop } := by
  have hx := h.cursorX
  have hstop := stop.isLt
  induction fuel generalizing con t with
  | zero =>
      rw [Terminal.wipe_here con.blank (Fin.ext (by omega))]
      exact h
  | succ fuel ih =>
      rw [Console.tabLoop]
      by_cases hhere : stop = t.x
      · have hend : ¬(con.cursorX < next ∧ con.cursorX < con.cols) := by
          rw [UInt32.lt_iff_toNat_lt, hx, hnext, hhere]
          exact fun hlt => Nat.lt_irrefl _ hlt.1
        rw [if_neg hend, Terminal.wipe_here con.blank hhere]
        exact h
      · have hlt : t.x.val < stop.val := by
          have hne : stop.val ≠ t.x.val := fun heq => hhere (Fin.ext heq)
          omega
        have hgo : con.cursorX < next ∧ con.cursorX < con.cols := by
          rw [UInt32.lt_iff_toNat_lt, UInt32.lt_iff_toNat_lt, hx, hnext, h.colCount]
          exact ⟨hlt, t.x.isLt⟩
        have hstep : (con.cursorX + 1).toNat = t.x.val + 1 := by
          have hbound := next.toNat_lt
          rw [UInt32.toNat_add, hx]
          exact Nat.mod_eq_of_lt (by change t.x.val + 1 < _; omega)
        have hdrawn : Represents { con.drawAtCursor ' '.toUInt8 with cursorX := con.cursorX + 1 }
            { t.write con.blank with x := ⟨t.x.val + 1, by omega⟩ } :=
          h.drawSpace.moveTo hstep h.cursorY
        have hrest := ih hdrawn hlt (by change _ - (t.x.val + 1) ≤ _; omega) hstep
        change Represents _ { Terminal.wipe con.blank _ stop.val with x := stop } at hrest
        rw [Terminal.wipe_next con.blank hlt] at hrest
        rw [if_pos hgo]
        exact hrest

theorem Represents.backspace (h : Represents con t) :
    Represents (if con.cursorX > 0 then
        ({ con with cursorX := con.cursorX - 1 } : Console).drawAtCursor ' '.toUInt8 else con)
      (t.backspace con.blank) := by
  have hgo : con.cursorX > 0 ↔ 0 < t.x.val := by
    rw [gt_iff_lt, UInt32.lt_iff_toNat_lt, h.cursorX]
    exact Iff.rfl
  unfold Terminal.backspace
  by_cases hpos : 0 < t.x.val
  · have hprev : (con.cursorX - 1).toNat = t.x.val - 1 := by
      have hone : (1 : UInt32).toNat = 1 := rfl
      have hle : 1 ≤ con.cursorX := by
        rw [UInt32.le_iff_toNat_le, h.cursorX]
        exact hpos
      rw [UInt32.toNat_sub_of_le _ _ hle, h.cursorX, hone]
    have hmoved : Represents { con with cursorX := con.cursorX - 1 }
        { t with x := ⟨t.x.val - 1, by omega⟩ } := h.moveTo hprev h.cursorY
    rw [if_pos hpos, if_pos (hgo.mpr hpos)]
    exact hmoved.drawSpace
  · rw [if_neg hpos, if_neg (mt hgo.mp hpos)]
    exact h

theorem Represents.tab (h : Represents con t) (hstop : Terminal.tabStop t.x.val < cols) :
    Represents (con.tabLoop ((con.cursorX + 8) &&& ~~~7) 8) (t.tab con.blank) := by
  have hxlt := t.x.isLt
  have hwidth := h.width
  have hscreen := con.screen.width.toNat_lt
  have hx := h.cursorX
  have hnext : ((con.cursorX + 8) &&& ~~~7).toNat = Terminal.tabStop t.x.val := by
    rw [toNat_tabStop (by omega), hx]
  have hrange : t.x.val ≤ Terminal.tabStop t.x.val ∧ Terminal.tabStop t.x.val - t.x.val ≤ 8 := by
    unfold Terminal.tabStop
    omega
  unfold Terminal.tab
  dsimp only
  rw [dif_pos hstop]
  exact h.tabLoop hnext hrange.1 hrange.2

/-- An ordinary character goes to the cell where the cursor stood. -/
theorem Represents.glyph (h : Represents con t) (c : UInt8)
    (hsound : con.cols.toNat ≤ con.cursorX.toNat + 1 → con.rows.toNat ≤ con.cursorY.toNat + 1 →
      con.screen.ScrollFits ∧ (16 ∣ con.screen.height.toNat ∨
        con.screen.packColor con.bgColor = con.screen.packColor fbBlack)) :
    Represents (if con.cursorX + 1 ≥ con.cols then
        { con.drawAtCursor c with cursorX := 0, cursorY := con.cursorY + 1 }
      else { con.drawAtCursor c with cursorX := con.cursorX + 1 } : Console).scrollIfBelow
      ((t.write (glyphOf con.fgColor con.bgColor c)).advance con.blank) := by
  have hx := h.cursorX
  have hxlt := t.x.isLt
  have hcols := h.colCount
  have hbound := con.cols.toNat_lt
  have hdrawn := h.drawAtCursor c
  have hnext : (con.cursorX + 1).toNat = t.x.val + 1 := by
    rw [UInt32.toNat_add, hx]
    exact Nat.mod_eq_of_lt (by change t.x.val + 1 < _; omega)
  have hedge : con.cursorX + 1 ≥ con.cols ↔ ¬t.x.val + 1 < cols := by
    rw [ge_iff_le, UInt32.le_iff_toNat_le, hnext, hcols, Nat.not_lt]
  unfold Terminal.advance
  by_cases hlt : t.x.val + 1 < cols
  -- a character in the last column wraps to the next row at once
  · have hmoved : Represents { con.drawAtCursor c with cursorX := con.cursorX + 1 }
        { t.write (glyphOf con.fgColor con.bgColor c) with x := ⟨t.x.val + 1, hlt⟩ } :=
      hdrawn.moveTo hnext h.cursorY
    have hwrite : (t.write (glyphOf con.fgColor con.bgColor c)).x.val + 1 < cols := hlt
    rw [dif_pos hwrite, if_neg fun hge => hedge.mp hge hlt, hmoved.scrollIfBelow]
    exact hmoved
  · have hreturned : Represents { con.drawAtCursor c with cursorX := 0 }
        (t.write (glyphOf con.fgColor con.bgColor c)).carriageReturn := hdrawn.moveTo rfl h.cursorY
    have hwrite : ¬(t.write (glyphOf con.fgColor con.bgColor c)).x.val + 1 < cols := hlt
    rw [dif_neg hwrite, if_pos (hedge.mpr hlt)]
    exact hreturned.lineFeed (hsound (by omega))

/-- A call is a step of the terminal. -/
theorem Represents.fbPutchar (h : Represents con t) {c : UInt8} (hsound : con.Sound c) :
    Represents (con.fbPutchar c) (t.step con.blank (con.keyOf c)) := by
  have hreturned : Represents { con with cursorX := 0 } t.carriageReturn := h.moveTo rfl h.cursorY
  rcases hsound with ⟨htab, hscroll⟩
  unfold Console.fbPutchar placeChar keyOf
  rw [if_neg h.mapped.addr]
  by_cases hnewline : c = '\n'.toUInt8
  · rw [if_pos hnewline, if_pos hnewline]
    exact hreturned.lineFeed (hscroll (.inl hnewline))
  rw [if_neg hnewline, if_neg hnewline]
  by_cases hreturn : c = '\r'.toUInt8
  · rw [if_pos hreturn, if_pos hreturn, hreturned.scrollIfBelow]
    exact hreturned
  rw [if_neg hreturn, if_neg hreturn]
  by_cases hback : c = backspaceChar
  · rw [if_pos hback, if_pos hback, h.backspace.scrollIfBelow]
    exact h.backspace
  rw [if_neg hback, if_neg hback]
  by_cases htabc : c = '\t'.toUInt8
  · have hstop : Terminal.tabStop t.x.val < cols := by
      rw [← h.cursorX, ← h.colCount]
      exact htab htabc
    rw [if_pos htabc, if_pos htabc, (h.tab hstop).scrollIfBelow]
    exact h.tab hstop
  rw [if_neg htabc, if_neg htabc]
  refine h.glyph c fun hedge => hscroll (.inr ⟨?_, hedge⟩)
  simp [hreturn, hback, htabc]

/-! ## What calls leave alone -/

/-- The same screen and colours, and as many columns and rows. -/
structure SameSetup (con con' : Console) : Prop where
  screen : con'.screen = con.screen
  fgColor : con'.fgColor = con.fgColor
  bgColor : con'.bgColor = con.bgColor
  cols : con'.cols = con.cols
  rows : con'.rows = con.rows

theorem SameSetup.refl (con : Console) : SameSetup con con := ⟨rfl, rfl, rfl, rfl, rfl⟩

theorem SameSetup.trans {con' con'' : Console} (h : SameSetup con con')
    (h' : SameSetup con' con'') : SameSetup con con'' :=
  ⟨h'.screen.trans h.screen, h'.fgColor.trans h.fgColor, h'.bgColor.trans h.bgColor,
    h'.cols.trans h.cols, h'.rows.trans h.rows⟩

theorem tabLoop_same (next : UInt32) (fuel : Nat) (con : Console) :
    SameSetup con (con.tabLoop next fuel) := by
  induction fuel generalizing con with
  | zero => exact .refl con
  | succ fuel ih =>
      rw [tabLoop]
      split
      · have hstep : SameSetup con
            { con.drawAtCursor ' '.toUInt8 with cursorX := con.cursorX + 1 } :=
          ⟨rfl, rfl, rfl, rfl, rfl⟩
        exact hstep.trans (ih _)
      · exact .refl con

/-- A character changes pixels and the cursor, and nothing of the setup. -/
theorem fbPutchar_same (con : Console) (c : UInt8) : SameSetup con (con.fbPutchar c) := by
  have hscroll : ∀ con : Console, SameSetup con con.scrollIfBelow := by
    intro con
    unfold Console.scrollIfBelow
    split
    · exact ⟨rfl, rfl, rfl, rfl, rfl⟩
    · exact .refl con
  -- every branch changes the cursor and the memory only
  have hplace : SameSetup con (con.placeChar c) := by
    unfold placeChar
    split
    · exact ⟨rfl, rfl, rfl, rfl, rfl⟩
    split
    · exact ⟨rfl, rfl, rfl, rfl, rfl⟩
    split
    · split <;> exact ⟨rfl, rfl, rfl, rfl, rfl⟩
    split
    · exact tabLoop_same _ _ con
    · dsimp only
      split <;> exact ⟨rfl, rfl, rfl, rfl, rfl⟩
  unfold Console.fbPutchar
  split
  · exact .refl con
  · exact hplace.trans (hscroll _)

theorem foldl_fbPutchar_same (cs : List UInt8) (con : Console) :
    SameSetup con (cs.foldl Console.fbPutchar con) := by
  induction cs generalizing con with
  | nil => exact .refl con
  | cons c cs ih => exact (fbPutchar_same con c).trans (ih _)

theorem kprintf_same (con : Console) (fmt : Printf.CString) (arg : UInt64) :
    SameSetup con (con.kprintf fmt arg) := by
  unfold kprintf
  split
  · exact foldl_fbPutchar_same _ con
  · exact .refl con

/-! ## Runs -/

/-- Calls in a row are steps of the terminal in a row. -/
theorem Represents.run (h : Represents con t) {cs : List UInt8}
    (hsound : Logging.Along Console.fbPutchar Sound con cs) :
    Represents (cs.foldl Console.fbPutchar con)
      (cs.foldl (fun t c => t.step con.blank (con.keyOf c)) t) := by
  induction cs generalizing con t with
  | nil => exact h
  | cons c cs ih =>
      -- the colours of the console are the same at every call, so the keys and the empty
      -- cell are
      have hsame := fbPutchar_same con c
      have hblank : (con.fbPutchar c).blank = con.blank := by
        unfold blank
        rw [hsame.bgColor]
      have hkey : (con.fbPutchar c).keyOf = con.keyOf := by
        unfold keyOf
        rw [hsame.fgColor, hsame.bgColor]
      have hrest := ih (h.fbPutchar hsound.1) hsound.2
      rw [hblank, hkey] at hrest
      exact hrest

/-! ## From the beginning -/

/-- The bytes of a pixel, as many as the driver uses. -/
def pixelBytes (bpp : UInt16) : UInt8 :=
  let bytes := ((bpp.toUInt32 + 7) / 8).toUInt8
  if bytes = 0 then 1 else if bytes > 4 then 4 else bytes

/-- A mode with at least one column and one row, of a framebuffer in the address space. -/
structure Mode.Valid (mode : Mode) : Prop where
  addr : mode.addr ≠ 0
  width : 8 ≤ mode.width.toNat
  height : 16 ≤ mode.height.toNat
  pitch : mode.width.toNat * (pixelBytes mode.bpp).toNat ≤ mode.pitch.toNat
  size : mode.addr.toNat + mode.height.toNat * mode.pitch.toNat ≤ 2 ^ 64

/-- The terminal of a mode, all in one colour. -/
def Mode.terminal (mode : Mode) (h : mode.Valid) (color : UInt32) :
    Terminal Glyph (mode.width.toNat / 8) (mode.height.toNat / 16) :=
  .clear (fun _ _ => color) (Nat.div_pos h.width (by decide)) (Nat.div_pos h.height (by decide))

/-- The screen has the geometry of the mode, and the colours are as before. -/
structure HasMode (old : Console) (mode : Mode) (bytes : UInt8) (con : Console) : Prop where
  addr : con.screen.addr = mode.addr
  width : con.screen.width = mode.width
  height : con.screen.height = mode.height
  pitch : con.screen.pitch = mode.pitch
  bytes : con.screen.bytesPerPixel = bytes
  fgColor : con.fgColor = old.fgColor
  bgColor : con.bgColor = old.bgColor

section Modes

variable {old con' : Console} {mode : Mode} {bytes : UInt8}

theorem HasMode.of_same (h : HasMode old mode bytes con) (hsame : SameSetup con con') :
    HasMode old mode bytes con' := by
  rcases hsame with ⟨hscreen, hfg, hbg, -, -⟩
  exact ⟨hscreen ▸ h.addr, hscreen ▸ h.width, hscreen ▸ h.height, hscreen ▸ h.pitch,
    hscreen ▸ h.bytes, hfg.trans h.fgColor, hbg.trans h.bgColor⟩

theorem HasMode.kprintf (h : HasMode old mode bytes con) (fmt : Printf.CString) (arg : UInt64) :
    HasMode old mode bytes (con.kprintf fmt arg) := h.of_same (kprintf_same con fmt arg)

theorem HasMode.withBytes (h : HasMode old mode bytes con) (bytes' : UInt8) :
    HasMode old mode bytes' (con.withBytes bytes') := { h with bytes := rfl }

theorem setPixels_hasMode (old : Console) (mode : Mode) :
    HasMode old mode (pixelBytes mode.bpp) (old.setPixels mode) := by
  have hmode : HasMode old mode ((mode.bpp.toUInt32 + 7) / 8).toUInt8 (old.setGeometry mode) :=
    ⟨rfl, rfl, rfl, rfl, rfl, rfl, rfl⟩
  unfold setPixels pixelBytes
  -- the messages are printed on the half-initialised screen, which keeps its geometry
  generalize old.setGeometry mode = con at hmode ⊢
  generalize ((mode.bpp.toUInt32 + 7) / 8).toUInt8 = bytes at hmode ⊢
  dsimp only
  rw [hmode.bytes]
  by_cases hzero : bytes = 0
  · have hone := (hmode.kprintf noDepthMessage 0).withBytes 1
    rw [if_pos hzero, if_pos hzero, hone.bytes, if_neg (by decide)]
    exact hone
  · rw [if_neg hzero, if_neg hzero, hmode.bytes]
    split
    · exact (hmode.kprintf _ _).withBytes 4
    · exact hmode

theorem setMasks_hasMode (h : HasMode old mode bytes con) :
    HasMode old mode bytes (con.setMasks mode) := by
  have hmasks : ∀ {con : Console} (a b c d e f : UInt8), HasMode old mode bytes con →
      HasMode old mode bytes (con.withMasks a b c d e f) := fun _ _ _ _ _ _ h => { h with }
  unfold setMasks
  dsimp only
  split
  · refine HasMode.kprintf ?_ _ _
    split
    · exact hmasks _ _ _ _ _ _ (hmasks _ _ _ _ _ _ h)
    · exact hmasks _ _ _ _ _ _ (hmasks _ _ _ _ _ _ h)
  · exact hmasks _ _ _ _ _ _ h

theorem pixelBytes_pos (bpp : UInt16) : 0 < (pixelBytes bpp).toNat := by
  unfold pixelBytes
  dsimp only
  split
  · decide
  split
  · decide
  · rename_i hzero _
    exact Nat.pos_of_ne_zero fun h => hzero (UInt8.toNat_inj.mp h)

/-- After `fb_init` the screen is black, and the cursor is in the corner. -/
theorem fbInit_represents (old : Console) (hmode : mode.Valid) :
    Represents (old.fbInit mode) (mode.terminal hmode fbBlack) ∧
      (old.fbInit mode).fgColor = old.fgColor ∧ (old.fbInit mode).bgColor = old.bgColor := by
  have hset := setMasks_hasMode (setPixels_hasMode old mode)
  unfold fbInit
  generalize (old.setPixels mode).setMasks mode = con at hset ⊢
  -- `fb_clear` paints every pixel, whatever the messages have left on the screen
  rcases con with ⟨screen, cursorX, cursorY, fg, bg, cols, rows, mem⟩
  have haddr : screen.addr = mode.addr := hset.addr
  have hwidth : screen.width = mode.width := hset.width
  have hheight : screen.height = mode.height := hset.height
  have hpitch : screen.pitch = mode.pitch := hset.pitch
  have hbytes : screen.bytesPerPixel = pixelBytes mode.bpp := hset.bytes
  have hmapped : screen.Mapped := by
    refine ⟨haddr ▸ hmode.addr, ?_, hbytes ▸ pixelBytes_pos _, ?_⟩
    · rw [Screen.RowsFit, hwidth, hbytes, hpitch]
      exact hmode.pitch
    · rw [haddr, hheight, hpitch]
      exact hmode.size
  have hblack : ∀ x y, x < screen.width.toNat → y < screen.height.toNat →
      screen.HasColor (screen.fbFillRect 0 0 screen.width screen.height fbBlack mem)
        (Screen.pixelAt x y) fbBlack := by
    intro x y hx hy
    have hcol : (Screen.pixelAt x y).1.toNat = x := Screen.toNat_toUInt32_of_lt hx
    have hrow : (Screen.pixelAt x y).2.toNat = y := Screen.toNat_toUInt32_of_lt hy
    have hzero : (0 : UInt32).toNat = 0 := rfl
    refine Screen.hasColor_fbFillRect hmapped.rowsFit hmapped.addr (Screen.pixelAt_onScreen hx hy)
      ?_ ?_
    · rw [hcol, hzero]
      omega
    · rw [hrow, hzero]
      omega
  unfold fbClear
  rw [if_neg hmapped.addr]
  refine ⟨?_, hset.fgColor, hset.bgColor⟩
  refine ⟨hmapped, ?_, ?_, ?_, ?_, rfl, rfl, fun i j row col hrow hcol => ?_, ?_⟩
  · exact UInt32.toNat_div _ _
  · exact UInt32.toNat_div _ _
  · rw [← hwidth]
  · rw [← hheight]
  · have hi := i.isLt
    have hj := j.isLt
    have hcols : screen.width.toNat = mode.width.toNat := congrArg _ hwidth
    have hrows : screen.height.toNat = mode.height.toNat := congrArg _ hheight
    exact hblack _ _ (by omega) (by omega)
  · exact ⟨fbBlack, .inl rfl, fun x y hx _ hy => hblack x y hx hy⟩

end Modes

/-- The console never loses a character. After `fb_init` it is a black terminal, and every
sequence of characters takes it to what the terminal becomes, with the cursor inside, if no tab
reaches the right edge and no scrolling goes wrong. -/
theorem console_refines_terminal (old : Console) (mode : Mode) (hmode : mode.Valid)
    (cs : List UInt8) (hsound : Logging.Along Console.fbPutchar Sound (old.fbInit mode) cs) :
    Represents (cs.foldl Console.fbPutchar (old.fbInit mode))
      (cs.foldl (fun t c => t.step old.blank (old.keyOf c)) (mode.terminal hmode fbBlack)) := by
  rcases fbInit_represents old hmode with ⟨hinit, hfg, hbg⟩
  have hblank : (old.fbInit mode).blank = old.blank := by
    unfold blank
    rw [hbg]
  have hkey : (old.fbInit mode).keyOf = old.keyOf := by
    unfold keyOf
    rw [hfg, hbg]
  have hrun := hinit.run hsound
  rwa [hblank, hkey] at hrun

instance (con : Console) (c : UInt8) : Decidable (con.Sound c) := by
  unfold Sound EndsRow Screen.ScrollFits
  infer_instance

/-- A screen of that many columns and two rows, of four bytes each pixel. -/
def smallMode (cols : UInt32) : Mode :=
  { addr := 4096, width := 8 * cols, height := 32, pitch := 32 * cols, bpp := 32
    redMaskSize := 8, redMaskShift := 16, greenMaskSize := 8, greenMaskShift := 8
    blueMaskSize := 8, blueMaskShift := 0 }

/-- The driver before `fb_init`. -/
def unset : Console :=
  { screen := { addr := 0, width := 0, height := 0, pitch := 0, redMaskSize := 8
                redMaskShift := 16, greenMaskSize := 8, greenMaskShift := 8, blueMaskSize := 8
                blueMaskShift := 0, bytesPerPixel := 4 }
    cursorX := 0, cursorY := 0, fgColor := 0xFFFFFF, bgColor := fbBlack, cols := 0, rows := 0
    mem := fun _ => 0 }

theorem smallMode_valid : (smallMode 16).Valid :=
  ⟨by decide, by decide, by decide, by decide, by decide⟩

/-- A tab, two characters and two new rows, the second of which scrolls. -/
def scrolls : List UInt8 := "\tA\nB\n".toList.map Char.toUInt8

theorem console_refines_terminal_scrolls :
    Represents (scrolls.foldl Console.fbPutchar (unset.fbInit (smallMode 16)))
      (scrolls.foldl (fun t c => t.step unset.blank (unset.keyOf c))
        ((smallMode 16).terminal smallMode_valid fbBlack)) :=
  console_refines_terminal unset (smallMode 16) smallMode_valid scrolls (by decide)

/-- A tab that reaches the right edge leaves the cursor there, in no cell. -/
theorem tab_leaves_grid :
    ((unset.fbInit (smallMode 2)).fbPutchar '\t'.toUInt8).cursorX = 2 ∧
      (unset.fbInit (smallMode 2)).cols = 2 ∧
      ∀ t : Terminal Glyph 2 2,
        ¬Represents ((unset.fbInit (smallMode 2)).fbPutchar '\t'.toUInt8) t := by
  have hcursor : ((unset.fbInit (smallMode 2)).fbPutchar '\t'.toUInt8).cursorX = 2 := by
    decide
  refine ⟨hcursor, by decide, fun t h => ?_⟩
  have hx := h.cursorX
  rw [hcursor] at hx
  exact absurd t.x.isLt (by rw [← hx]; decide)

end Console

end PolandOS.Fb
