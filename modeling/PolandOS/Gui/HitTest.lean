import PolandOS.Drivers.Fb
import PolandOS.Gui.Windows
import PolandOS.Lib.Overlay

/-! # The window under the pointer

`wm_window_at` compares signed coordinates, `fb_fill_rect` is given them as unsigned ones.
`hit_test_agrees_iff` says when the window that is found is the one that is seen.
-/

namespace PolandOS.Gui

open Runs Overlay Fb

/-! ## Finding and drawing -/

/-- `win->flags & WIN_FLAG_VISIBLE`. -/
def GUIWindow.visible (w : GUIWindow) : Bool := w.flags &&& winFlagVisible != 0

/-- The comparisons of `wm_window_at`. -/
def GUIWindow.contains (w : GUIWindow) (x y : Int32) : Bool :=
  x ≥ w.x && x < w.x + w.width && y ≥ w.y && y < w.y + w.height

/-- The loop of `wm_window_at`, with so many windows to go. -/
def windowAtBelow (wm : Wm) (x y : Int32) : Nat → Option Nat
  | 0 => none
  | i + 1 =>
    let w := wm.windows (wm.winOrder i)
    if !w.visible then windowAtBelow wm x y i
    else if w.contains x y then some (wm.winOrder i)
    else windowAtBelow wm x y i

/-- `wm_window_at`. -/
def wmWindowAt (wm : Wm) (x y : Int32) : Option Nat := windowAtBelow wm x y wm.winCount

/-- The outer frame of `wm_draw_window`: the pixels that it paints. -/
def drawFrame (fb : Framebuffer) (w : GUIWindow) : List (UInt32 × UInt32) :=
  if !w.visible then []
  else fbFillRect fb w.x.toUInt32 w.y.toUInt32 w.width.toUInt32 w.height.toUInt32

/-- `wm_draw_all`, as far as the outer frames go: which window paints which pixels. -/
def wmDrawAll (fb : Framebuffer) (wm : Wm) : List (Nat × List (UInt32 × UInt32)) :=
  (List.range wm.winCount).map fun i =>
    (wm.winOrder i, drawFrame fb (wm.windows (wm.winOrder i)))

/-- The window whose frame is painted last at a pixel. -/
def paintedLast (fb : Framebuffer) (wm : Wm) (x y : Int32) : Option Nat :=
  (topmost (fun (e : Nat × List (UInt32 × UInt32)) p => p ∈ e.2) (wmDrawAll fb wm)
    (x.toUInt32, y.toUInt32)).map Prod.fst

/-- A pixel of the screen. -/
def OnScreen (fb : Framebuffer) (x y : Int32) : Prop :=
  fb.addr ≠ 0 ∧ 0 ≤ x ∧ 0 ≤ y ∧ x.toUInt32 < fb.width ∧ y.toUInt32 < fb.height

/-! ## Rectangles -/

/-- The point lies in the rectangle of the window. -/
def GUIWindow.Covers (w : GUIWindow) (x y : Int32) : Prop :=
  (w.x.toInt ≤ x.toInt ∧ x.toInt < w.x.toInt + w.width.toInt) ∧
    w.y.toInt ≤ y.toInt ∧ y.toInt < w.y.toInt + w.height.toInt

instance (w : GUIWindow) (x y : Int32) : Decidable (w.Covers x y) :=
  inferInstanceAs (Decidable (_ ∧ _))

/-- No coordinate of the window is negative. -/
def GUIWindow.FromOrigin (w : GUIWindow) : Prop := 0 ≤ w.x.toInt ∧ 0 ≤ w.y.toInt

instance (w : GUIWindow) : Decidable w.FromOrigin := inferInstanceAs (Decidable (_ ∧ _))

/-- No far edge of the window is beyond the range of `i32`. -/
def GUIWindow.EndsInRange (w : GUIWindow) : Prop :=
  w.x.toInt + w.width.toInt < 2 ^ 31 ∧ w.y.toInt + w.height.toInt < 2 ^ 31

instance (w : GUIWindow) : Decidable w.EndsInRange := inferInstanceAs (Decidable (_ ∧ _))

/-- Its size is positive. -/
def GUIWindow.Sized (w : GUIWindow) : Prop := 0 < w.width.toInt ∧ 0 < w.height.toInt

instance (w : GUIWindow) : Decidable w.Sized := inferInstanceAs (Decidable (_ ∧ _))

theorem toInt_lt (a : Int32) : -2 ^ 31 ≤ a.toInt ∧ a.toInt < 2 ^ 31 := ⟨a.le_toInt, a.toInt_lt⟩

/-- A side from `a` on, as `wm_window_at` sees it. -/
theorem lt_add_iff {a n x : Int32} (hn : 0 < n.toInt) (hax : a ≤ x) :
    x < a + n ↔ x.toInt < a.toInt + n.toInt ∧ a.toInt + n.toInt < 2 ^ 31 := by
  have ha := toInt_lt a
  have hn' := toInt_lt n
  have hx := toInt_lt x
  rw [Int32.le_iff_toInt_le] at hax
  rw [Int32.lt_iff_toInt_lt, Int32.toInt_add]
  -- where the sum wraps around, it is negative and smaller than `a`
  by_cases hwrap : a.toInt + n.toInt < 2 ^ 31
  · rw [Int.bmod_eq_of_le (by omega) (by omega)]
    omega
  · have hbmod : (a.toInt + n.toInt).bmod (2 ^ 32) = a.toInt + n.toInt - 2 ^ 32 := by
      rw [Int.bmod_def]
      omega
    rw [hbmod]
    omega

theorem contains_iff {w : GUIWindow} (hw : w.Sized) (x y : Int32) :
    w.contains x y = true ↔ w.Covers x y ∧ w.EndsInRange := by
  unfold GUIWindow.contains GUIWindow.Covers GUIWindow.EndsInRange
  simp only [Bool.and_eq_true, decide_eq_true_eq, ge_iff_le]
  constructor
  · rintro ⟨⟨⟨hx, hx'⟩, hy⟩, hy'⟩
    rw [lt_add_iff hw.1 hx] at hx'
    rw [lt_add_iff hw.2 hy] at hy'
    rw [Int32.le_iff_toInt_le] at hx hy
    exact ⟨⟨⟨hx, hx'.1⟩, hy, hy'.1⟩, hx'.2, hy'.2⟩
  · rintro ⟨⟨⟨hx, hx'⟩, hy, hy'⟩, hxEnd, hyEnd⟩
    rw [← Int32.le_iff_toInt_le] at hx hy
    exact ⟨⟨⟨hx, (lt_add_iff hw.1 hx).mpr ⟨hx', hxEnd⟩⟩, hy⟩,
      (lt_add_iff hw.2 hy).mpr ⟨hy', hyEnd⟩⟩

/-- The cast of a coordinate to `u32`. -/
theorem toNat_toUInt32_cases (a : Int32) :
    0 ≤ a.toInt ∧ (a.toUInt32.toNat : Int) = a.toInt ∨
      a.toInt < 0 ∧ (a.toUInt32.toNat : Int) = a.toInt + 2 ^ 32 := by
  have hnat : a.toUInt32.toNat = a.toBitVec.toNat := rfl
  have hint : a.toInt = a.toBitVec.toInt := rfl
  have hlt := a.toBitVec.isLt
  rw [hnat, hint, BitVec.toInt_eq_toNat_cond]
  split <;> omega

/-- A side from `a` on, as `fb_fill_rect` sees it, at a coordinate that is not negative. -/
theorem fill_iff {a n x : Int32} (hn : 0 < n.toInt) (hx : 0 ≤ x.toInt) :
    (a.toUInt32.toNat ≤ x.toUInt32.toNat ∧
      x.toUInt32.toNat < a.toUInt32.toNat + n.toUInt32.toNat) ↔
        (a.toInt ≤ x.toInt ∧ x.toInt < a.toInt + n.toInt) ∧ 0 ≤ a.toInt := by
  have hx' := toInt_lt x
  have ha := toInt_lt a
  rcases toNat_toUInt32_cases x with ⟨-, hxNat⟩ | ⟨hneg, -⟩
  swap
  · omega
  rcases toNat_toUInt32_cases n with ⟨-, hnNat⟩ | ⟨hneg, -⟩
  swap
  · omega
  rcases toNat_toUInt32_cases a with ⟨hpos, haNat⟩ | ⟨hneg, haNat⟩
  · omega
  · -- a side that starts left of the screen starts behind every pixel
    omega

variable {fb : Framebuffer}

theorem mem_drawFrame {w : GUIWindow} (hw : w.Sized) {x y : Int32} (hp : OnScreen fb x y) :
    (x.toUInt32, y.toUInt32) ∈ drawFrame fb w ↔
      w.visible = true ∧ w.Covers x y ∧ w.FromOrigin := by
  rcases hp with ⟨haddr, hx, hy, hxw, hyh⟩
  rw [Int32.le_iff_toInt_le] at hx hy
  rw [UInt32.lt_iff_toNat_lt] at hxw hyh
  have hxfill := fill_iff (a := w.x) hw.1 hx
  have hyfill := fill_iff (a := w.y) hw.2 hy
  unfold drawFrame
  cases hvisible : w.visible with
  | false => simp
  | true =>
      rw [if_neg (by decide), mem_fbFillRect]
      simp only [haddr, ne_eq, not_false_eq_true, true_and, hxw, hyh, and_true, hxfill, hyfill]
      unfold GUIWindow.Covers GUIWindow.FromOrigin
      constructor
      · rintro ⟨⟨hcx, hox⟩, hcy, hoy⟩
        exact ⟨⟨hcx, hcy⟩, hox, hoy⟩
      · rintro ⟨⟨hcx, hcy⟩, hox, hoy⟩
        exact ⟨⟨hcx, hox⟩, hcy, hoy⟩

/-! ## The topmost window -/

/-- The windows from the bottom to the top, by their slots. -/
def Wm.zOrder (wm : Wm) : List Nat := (List.range wm.winCount).map wm.winOrder

theorem wmWindowAt_eq (wm : Wm) (x y : Int32) : wmWindowAt wm x y =
    topmost (fun win (p : Int32 × Int32) =>
      (wm.windows win).visible = true ∧ (wm.windows win).contains p.1 p.2 = true) wm.zOrder
        (x, y) := by
  unfold wmWindowAt Wm.zOrder
  induction wm.winCount with
  | zero => rfl
  | succ n ih =>
      rw [List.range_succ, List.map_append, List.map_singleton, topmost_concat, windowAtBelow, ih]
      by_cases hvisible : (wm.windows (wm.winOrder n)).visible = true
      · simp [hvisible]
      · simp [hvisible]

theorem paintedLast_eq (fb : Framebuffer) (wm : Wm) (x y : Int32) : paintedLast fb wm x y =
    topmost (fun win (p : Int32 × Int32) =>
      (p.1.toUInt32, p.2.toUInt32) ∈ drawFrame fb (wm.windows win)) wm.zOrder (x, y) := by
  unfold paintedLast wmDrawAll Wm.zOrder
  rw [topmost_map, topmost_map, Option.map_map]
  rfl

/-- The window is seen at a point, by one of the two. -/
def GUIWindow.Shows (w : GUIWindow) (x y : Int32) : Prop :=
  w.visible = true ∧ w.Covers x y ∧ (w.FromOrigin ∨ w.EndsInRange)

instance (w : GUIWindow) (x y : Int32) : Decidable (w.Shows x y) :=
  inferInstanceAs (Decidable (_ ∧ _))

/-- At one pixel: the search and the painter agree exactly if the window on top is drawn from
the origin and its ends do not wrap around. -/
theorem windowAt_eq_paintedLast_iff {wm : Wm} (hsize : ∀ win ∈ wm.zOrder, (wm.windows win).Sized)
    {x y : Int32} (hp : OnScreen fb x y) :
    wmWindowAt wm x y = paintedLast fb wm x y ↔
      ∀ win, topmost (fun win (p : Int32 × Int32) => (wm.windows win).Shows p.1 p.2) wm.zOrder
        (x, y) = some win → (wm.windows win).FromOrigin ∧ (wm.windows win).EndsInRange := by
  have hfound : topmost (fun win (p : Int32 × Int32) => (wm.windows win).visible = true ∧
      (wm.windows win).contains p.1 p.2 = true) wm.zOrder (x, y) =
        topmost (fun win p => (wm.windows win).visible = true ∧ (wm.windows win).Covers p.1 p.2 ∧
          (wm.windows win).EndsInRange) wm.zOrder (x, y) :=
    topmost_congr fun win hwin => and_congr_right fun _ => contains_iff (hsize win hwin) x y
  have hdrawn : topmost (fun win (p : Int32 × Int32) =>
      (p.1.toUInt32, p.2.toUInt32) ∈ drawFrame fb (wm.windows win)) wm.zOrder (x, y) =
        topmost (fun win p => (wm.windows win).visible = true ∧ (wm.windows win).Covers p.1 p.2 ∧
          (wm.windows win).FromOrigin) wm.zOrder (x, y) :=
    topmost_congr fun win hwin => mem_drawFrame (hsize win hwin) hp
  have hshows : topmost (fun win (p : Int32 × Int32) => (wm.windows win).Shows p.1 p.2) wm.zOrder
      (x, y) = topmost (fun win (p : Int32 × Int32) =>
        ((wm.windows win).visible = true ∧ (wm.windows win).Covers p.1 p.2 ∧
          (wm.windows win).EndsInRange) ∨ (wm.windows win).visible = true ∧
            (wm.windows win).Covers p.1 p.2 ∧ (wm.windows win).FromOrigin) wm.zOrder (x, y) := by
    refine topmost_congr fun win _ => ?_
    unfold GUIWindow.Shows
    rw [← and_or_left, ← and_or_left, or_comm]
  rw [wmWindowAt_eq, paintedLast_eq, hfound, hdrawn, topmost_eq_iff, ← hshows]
  refine forall_congr' fun win => forall_congr' fun htop => ?_
  rcases covers_of_topmost htop with ⟨hvisible, hcovers, -⟩
  constructor
  · rintro ⟨⟨-, -, hends⟩, -, -, hfrom⟩
    exact ⟨hfrom, hends⟩
  · rintro ⟨hfrom, hends⟩
    exact ⟨⟨hvisible, hcovers, hends⟩, hvisible, hcovers, hfrom⟩

/-- Hit testing agrees with drawing where every window that is uppermost somewhere on the
screen starts at coordinates that are not negative (and ends in the range of `i32`). -/
theorem hit_test_agrees_iff (fb : Framebuffer) (wm : Wm)
    (hsize : ∀ win ∈ wm.zOrder, (wm.windows win).Sized) :
    (∀ x y, OnScreen fb x y → wmWindowAt wm x y = paintedLast fb wm x y) ↔
      ∀ x y, OnScreen fb x y → ∀ win,
        topmost (fun win (p : Int32 × Int32) => (wm.windows win).Shows p.1 p.2) wm.zOrder
          (x, y) = some win → (wm.windows win).FromOrigin ∧ (wm.windows win).EndsInRange :=
  forall_congr' fun _ => forall_congr' fun _ => forall_congr' fun hp =>
    windowAt_eq_paintedLast_iff hsize hp

/-! ## A window that is dragged -/

/-- A screen. -/
def screen : Framebuffer := ⟨1, 1024, 768⟩

/-- The window manager with one window, opened by its title bar and dragged here. -/
def draggedTo (x : Int32) : World :=
  let W := World.boot.open [0x50] 50 50 280 120 0
  ⟨W.wm.assign 0 fun w => { w with x := x }, W.handles⟩

theorem run_draggedTo (x : Int32) : Run WorldStep .boot (draggedTo x) := by
  have hopen : Run WorldStep .boot (World.boot.open [0x50] 50 50 280 120 0) :=
    (run_open .refl rfl).mono fun _ _ _ hstep => hstep.2
  exact hopen.tail (e := .assign 0) (.assign (by decide) fun _ => rfl)

theorem hit_test_agrees_iff_right :
    wmWindowAt (draggedTo 700).wm 710 60 = paintedLast screen (draggedTo 700).wm 710 60 := by
  have hscreen : OnScreen screen 710 60 := by
    unfold OnScreen
    decide
  refine (hit_test_agrees_iff screen (draggedTo 700).wm ?_).mpr ?_ 710 60 hscreen
  · decide
  · intro x y _ win hwin
    rcases topmost_eq_some.mp hwin with ⟨before, after, hlist, -, -⟩
    have hmem : win ∈ (draggedTo 700).wm.zOrder := by
      rw [hlist]
      simp
    have hzero : win = 0 := List.mem_singleton.mp hmem
    subst hzero
    decide

/-- A window that hangs over the left edge is found, and not drawn. -/
theorem overhanging_window_found :
    ¬∀ (fb : Framebuffer) (W : World) (x y : Int32), Run WorldStep .boot W →
      (∀ win ∈ W.wm.zOrder, (W.wm.windows win).Sized) → OnScreen fb x y →
      wmWindowAt W.wm x y = paintedLast fb W.wm x y := by
  intro h
  have hscreen : OnScreen screen 10 60 := by
    unfold OnScreen
    decide
  have hagrees := h screen (draggedTo (-20)) 10 60 (run_draggedTo _) (by decide) hscreen
  rw [windowAt_eq_paintedLast_iff (by decide) hscreen] at hagrees
  exact absurd (hagrees 0 (by decide)).1 (by decide)

end PolandOS.Gui
