import Mathlib.Data.List.Sort
import PolandOS.Gui.HitTest

/-! # How the windows are stacked

`win_order` of `kernel/gui/window.c` over whole runs of the window manager.

* `raised_iff`: the order is a permutation of the slots, the active window is the topmost one,
  and a window that is raised is found at all of its points where its far edges are in the
  range of `i32`
* `stacking_kept_iff`: a window that is destroyed leaves the others stacked as they were exactly
  where they were stacked by their slots
-/

namespace PolandOS.Gui

open Runs Overlay Fb
open scoped List

/-! ## Runs of the window manager -/

/-- `wm_init`, which leaves the Z-order as it is. -/
def wmInit (wm : Wm) : Wm :=
  { wm with
    windows := fun _ => .zero
    winCount := 0
    nextId := 1
    activeWin := none }

/-- The calls with any arguments. A pointer to a slot that is not in use is passed like any
other. -/
inductive WmStep : Wm → WmCall → Wm → Prop
  | create {wm : Wm} {title : List UInt8} {x y w h : Int32} {flags : UInt32} :
      WmStep wm (.create title x y w h flags) (wmCreateWindow title x y w h flags wm).2
  | destroy {wm : Wm} {win : Nat} : WmStep wm (.destroy win) (wmDestroyWindow win wm)
  | bringToFront {wm : Wm} {win : Nat} : WmStep wm (.bringToFront win) (wmBringToFront win wm)
  | assign {wm : Wm} {win : Nat} {f : GUIWindow → GUIWindow} : (∀ w, (f w).id = w.id) →
      WmStep wm (.assign win) (wm.assign win f)

/-- The slots in use are stacked, each of them once, and the topmost window is the active one. -/
structure Wm.Ordered (wm : Wm) : Prop where
  perm : wm.zOrder.Perm (List.range wm.winCount)
  idle : wm.activeWin = none ↔ wm.winCount = 0
  top : 0 < wm.winCount → wm.activeWin = some (wm.winOrder (wm.winCount - 1))

/-- The windows but one, from the bottom to the top. -/
def Wm.others (wm : Wm) (win : Nat) : List Nat := wm.zOrder.filter (· != win)

variable {wm wm' wm₀ : Wm} {win : Nat} {c : WmCall}

theorem Wm.Ordered.nodup (h : wm.Ordered) : wm.zOrder.Nodup := h.perm.nodup_iff.mpr List.nodup_range

theorem Wm.Ordered.mem_zOrder (h : wm.Ordered) : win ∈ wm.zOrder ↔ win < wm.winCount := by
  rw [h.perm.mem_iff, List.mem_range]

theorem Wm.length_zOrder (wm : Wm) : wm.zOrder.length = wm.winCount := by
  rw [Wm.zOrder, List.length_map, List.length_range]

theorem Wm.getElem_zOrder (wm : Wm) {i : Nat} (h : i < wm.zOrder.length) :
    wm.zOrder[i] = wm.winOrder i := by
  have hmap := List.getElem_map wm.winOrder (h := h)
  rwa [List.getElem_range] at hmap

/-! ## What the calls do to the order -/

theorem wmCreateWindow_of_room (title : List UInt8) (x y w h : Int32) (flags : UInt32)
    (hroom : wm.winCount < winMaxWindows) : wmCreateWindow title x y w h flags wm =
      (some wm.winCount, (wmCreateWindow title x y w h flags wm).2) := by
  unfold wmCreateWindow
  rw [if_neg (Nat.not_le.mpr hroom)]

theorem wmCreateWindow_of_full (title : List UInt8) (x y w h : Int32) (flags : UInt32)
    (hfull : ¬wm.winCount < winMaxWindows) :
    wmCreateWindow title x y w h flags wm = (none, wm) := by
  unfold wmCreateWindow
  rw [if_pos (Nat.not_lt.mp hfull)]

theorem activeWin_wmCreateWindow (title : List UInt8) (x y w h : Int32) (flags : UInt32)
    (hroom : wm.winCount < winMaxWindows) :
    (wmCreateWindow title x y w h flags wm).2.activeWin = some wm.winCount := by
  unfold wmCreateWindow
  rw [if_neg (Nat.not_le.mpr hroom)]

theorem zOrder_wmCreateWindow (title : List UInt8) (x y w h : Int32) (flags : UInt32)
    (hroom : wm.winCount < winMaxWindows) :
    (wmCreateWindow title x y w h flags wm).2.zOrder = wm.zOrder ++ [wm.winCount] := by
  unfold wmCreateWindow Wm.zOrder
  rw [if_neg (Nat.not_le.mpr hroom)]
  dsimp only
  rw [List.range_succ, List.map_append, List.map_singleton, Function.update_self]
  congr 1
  apply List.map_congr_left
  intro i hi
  rw [Function.update_of_ne (List.mem_range.mp hi).ne]

theorem wmDestroyWindow_of_not_lt (hwin : ¬win < wm.winCount) : wmDestroyWindow win wm = wm := by
  unfold wmDestroyWindow
  rw [if_neg hwin]

theorem zOrder_wmDestroyWindow (hwin : win < wm.winCount) :
    (wmDestroyWindow win wm).zOrder = List.range (wm.winCount - 1) := by
  unfold wmDestroyWindow Wm.zOrder
  rw [if_pos hwin]
  dsimp only
  calc (List.range (wm.winCount - 1)).map
        (fun i => if i < wm.winCount - 1 then i else wm.winOrder i)
      = (List.range (wm.winCount - 1)).map id := by
        apply List.map_congr_left
        intro i hi
        rw [if_pos (List.mem_range.mp hi), id]
    _ = List.range (wm.winCount - 1) := List.map_id _

/-- The loop of `wm_bring_to_front` moves a part of the order down by one. -/
theorem map_rotate (f : Nat → Nat) {n idx : Nat} (hidx : idx < n) :
    (List.range n).map (fun i => if idx ≤ i ∧ i < n - 1 then f (i + 1)
      else if i = n - 1 then f idx else f i) = ((List.range n).map f).eraseIdx idx ++ [f idx] := by
  have hlen : (((List.range n).map f).eraseIdx idx).length = n - 1 := by
    rw [List.length_eraseIdx_of_lt (by simpa using hidx), List.length_map, List.length_range]
  apply List.ext_getElem
  · rw [List.length_append, hlen, List.length_map, List.length_range, List.length_singleton]
    omega
  · intro i hi hi'
    rw [List.length_map, List.length_range] at hi
    rw [List.getElem_map, List.getElem_range]
    by_cases hlast : i = n - 1
    · rw [if_neg (by omega), if_pos hlast, List.getElem_append_right (by omega)]
      simp only [List.getElem_singleton]
    · rw [List.getElem_append_left (by omega), List.getElem_eraseIdx]
      -- the part from `idx` on has moved down
      by_cases hfrom : i < idx
      · rw [if_neg (by omega), if_neg hlast, dif_pos hfrom, List.getElem_map, List.getElem_range]
      · rw [if_pos (by omega), dif_neg hfrom, List.getElem_map, List.getElem_range]

/-- What `wm_bring_to_front` does with a window that it finds in the order. -/
theorem wmBringToFront_of_mem (hwin : win ∈ wm.zOrder) :
    ∃ idx < wm.winCount, wm.winOrder idx = win ∧ wmBringToFront win wm =
      { wm with
        winOrder := fun i =>
          if idx ≤ i ∧ i < wm.winCount - 1 then wm.winOrder (i + 1)
          else if i = wm.winCount - 1 then wm.winOrder idx
          else wm.winOrder i
        activeWin := some win } := by
  unfold wmBringToFront
  cases hfind : (List.range wm.winCount).find? fun i => wm.winOrder i = win with
  | none =>
      exfalso
      rcases List.mem_map.mp hwin with ⟨i, hi, heq⟩
      exact List.find?_eq_none.mp hfind i hi (decide_eq_true heq)
  | some idx =>
      have hfound := List.find?_some hfind
      exact ⟨idx, List.mem_range.mp (List.mem_of_find?_eq_some hfind), of_decide_eq_true hfound, rfl⟩

theorem wmBringToFront_of_not_mem (hwin : win ∉ wm.zOrder) : wmBringToFront win wm = wm := by
  unfold wmBringToFront
  cases hfind : (List.range wm.winCount).find? fun i => wm.winOrder i = win with
  | none => rfl
  | some idx =>
      have hfound := List.find?_some hfind
      have hmem : win ∈ wm.zOrder :=
        List.mem_map.mpr ⟨idx, List.mem_of_find?_eq_some hfind, of_decide_eq_true hfound⟩
      exact absurd hmem hwin

theorem zOrder_wmBringToFront (h : wm.zOrder.Nodup) (hwin : win ∈ wm.zOrder) :
    (wmBringToFront win wm).zOrder = wm.others win ++ [win] := by
  rcases wmBringToFront_of_mem hwin with ⟨idx, hidx, heq, hraised⟩
  have hlt : idx < wm.zOrder.length := by
    rw [wm.length_zOrder]
    exact hidx
  have herase : wm.others win = wm.zOrder.eraseIdx idx := by
    rw [Wm.others, ← h.erase_eq_filter, ← heq, ← wm.getElem_zOrder hlt, h.erase_getElem]
  rw [hraised, herase, ← heq]
  exact map_rotate wm.winOrder hidx

theorem activeWin_wmBringToFront (hwin : win ∈ wm.zOrder) :
    (wmBringToFront win wm).activeWin = some win := by
  rcases wmBringToFront_of_mem hwin with ⟨idx, -, -, hraised⟩
  rw [hraised]

theorem Wm.winOrder_last {l : List Nat} (h : wm.zOrder = l ++ [win]) :
    wm.winOrder (wm.winCount - 1) = win := by
  have hlen : wm.winCount = l.length + 1 := by
    rw [← wm.length_zOrder, h, List.length_append, List.length_singleton]
  have hlast : wm.zOrder[l.length]? = some win := by
    rw [h, List.getElem?_concat_length]
  rcases List.getElem?_eq_some_iff.mp hlast with ⟨hlt, heq⟩
  rw [wm.getElem_zOrder] at heq
  rw [hlen, Nat.add_sub_cancel, heq]

/-- The others stay in their order. -/
theorem others_wmBringToFront (h : wm.zOrder.Nodup) (hwin : win ∈ wm.zOrder) :
    (wmBringToFront win wm).others win = wm.others win := by
  have hself : [win].filter (· != win) = [] := by simp
  rw [Wm.others, zOrder_wmBringToFront h hwin, List.filter_append, hself, List.append_nil,
    Wm.others, List.filter_filter]
  simp only [Bool.and_self]

/-! ## Every state that is reached -/

theorem Wm.Ordered.init (wm : Wm) : (wmInit wm).Ordered := by
  constructor
  · exact List.Perm.refl _
  · exact ⟨fun _ => rfl, fun _ => rfl⟩
  · intro hpos
    exact absurd hpos (Nat.lt_irrefl 0)

theorem Wm.Ordered.create (hwm : wm.Ordered) (title : List UInt8) (x y w h : Int32)
    (flags : UInt32) : (wmCreateWindow title x y w h flags wm).2.Ordered := by
  by_cases hroom : wm.winCount < winMaxWindows
  · have horder := zOrder_wmCreateWindow title x y w h flags hroom
    have hactive := activeWin_wmCreateWindow title x y w h flags hroom
    have hcount := (wmCreateWindow_some (wmCreateWindow_of_room title x y w h flags hroom)).2.1
    constructor
    · rw [horder, hcount, List.range_succ]
      exact hwm.perm.append_right _
    · rw [hactive, hcount]
      simp only [reduceCtorEq, Nat.add_eq_zero_iff, one_ne_zero, and_false]
    · intro _
      rw [hactive, Wm.winOrder_last horder]
  · rw [wmCreateWindow_of_full title x y w h flags hroom]
    exact hwm

/-- The slots behind the one that goes move down, and the order of the windows names each of
them once. -/
theorem Wm.Ordered.destroy (h : wm.Ordered) (win : Nat) : (wmDestroyWindow win wm).Ordered := by
  by_cases hwin : win < wm.winCount
  · have horder := zOrder_wmDestroyWindow hwin
    have hcount := winCount_wmDestroyWindow hwin
    have hactive : (wmDestroyWindow win wm).activeWin =
        if wm.winCount - 1 > 0 then some (wm.winCount - 1 - 1) else none := by
      unfold wmDestroyWindow
      rw [if_pos hwin]
    have htop : 0 < wm.winCount - 1 →
        (wmDestroyWindow win wm).winOrder (wm.winCount - 1 - 1) = wm.winCount - 1 - 1 := by
      intro hpos
      unfold wmDestroyWindow
      rw [if_pos hwin]
      exact if_pos (by omega)
    constructor
    · rw [horder, hcount]
    · rw [hactive, hcount]
      split
      · simp only [reduceCtorEq, false_iff]
        omega
      · simp only [true_iff]
        omega
    · rw [hactive, hcount]
      intro hpos
      rw [if_pos hpos, htop hpos]
  · rw [wmDestroyWindow_of_not_lt hwin]
    exact h

theorem Wm.Ordered.bringToFront (h : wm.Ordered) (win : Nat) : (wmBringToFront win wm).Ordered := by
  by_cases hwin : win ∈ wm.zOrder
  · have horder := zOrder_wmBringToFront h.nodup hwin
    have hpos : 0 < wm.winCount := Nat.zero_lt_of_lt (h.mem_zOrder.mp hwin)
    have hactive := activeWin_wmBringToFront hwin
    constructor
    · rw [winCount_wmBringToFront, horder]
      calc wm.others win ++ [win]
          = wm.zOrder.erase win ++ [win] := by rw [Wm.others, h.nodup.erase_eq_filter]
        _ ~ win :: wm.zOrder.erase win := List.perm_append_singleton ..
        _ ~ wm.zOrder := (List.perm_cons_erase hwin).symm
        _ ~ List.range wm.winCount := h.perm
    · rw [hactive, winCount_wmBringToFront]
      simp only [reduceCtorEq, false_iff]
      omega
    · intro _
      rw [hactive, Wm.winOrder_last horder]
  · rw [wmBringToFront_of_not_mem hwin]
    exact h

theorem Wm.Ordered.step (h : wm.Ordered) (hstep : WmStep wm c wm') : wm'.Ordered := by
  cases hstep with
  | create => exact h.create ..
  | destroy => exact h.destroy _
  | bringToFront => exact h.bringToFront _
  | assign _ =>
      -- neither the order nor the active window is touched
      exact ⟨h.perm, h.idle, h.top⟩

theorem ordered_of_run (h : Run WmStep (wmInit wm₀) wm) : wm.Ordered :=
  h.invariant (.init wm₀) fun _ _ _ hwm hstep => hwm.step hstep

theorem Wm.Ordered.activeWin_lt (h : wm.Ordered) (hactive : wm.activeWin = some win) :
    win < wm.winCount := by
  have hpos : 0 < wm.winCount := by
    apply Nat.pos_of_ne_zero
    intro hzero
    rw [h.idle.mpr hzero] at hactive
    cases hactive
  have htop := h.top hpos
  rw [hactive, Option.some.injEq] at htop
  rw [htop, ← h.mem_zOrder]
  exact List.mem_map.mpr ⟨wm.winCount - 1, List.mem_range.mpr (by omega), rfl⟩

/-! ## Windows that are raised -/

/-- A window on top is found where its test finds it, and the next ones elsewhere. -/
theorem wmWindowAt_concat {l : List Nat} (h : wm.zOrder = l ++ [win]) (x y : Int32) :
    wmWindowAt wm x y =
      if (wm.windows win).visible = true ∧ (wm.windows win).contains x y = true then some win
      else topmost (fun win (p : Int32 × Int32) =>
        (wm.windows win).visible = true ∧ (wm.windows win).contains p.1 p.2 = true) l (x, y) := by
  rw [wmWindowAt_eq, h, topmost_concat]

theorem windows_wmBringToFront : (wmBringToFront win wm).windows = wm.windows := by
  unfold wmBringToFront
  split <;> rfl

/-- A window without width or height has no point. -/
theorem GUIWindow.Covers.sized {w : GUIWindow} {x y : Int32} (h : w.Covers x y) : w.Sized := by
  rcases h with ⟨⟨hx, hx'⟩, hy, hy'⟩
  constructor
  · omega
  · omega

/-- The window is found at all of its points, and the others are stacked as they were. -/
def Raised (win : Nat) (wm : Wm) : Prop :=
  (∀ x y, (wm.windows win).Covers x y → wmWindowAt (wmBringToFront win wm) x y = some win) ∧
    (wmBringToFront win wm).others win = wm.others win

/-- The window is on top of all pixels that it covers exactly if its ends do not wrap around. -/
theorem raised_of_ordered (h : wm.Ordered) (hwin : win ∈ wm.zOrder)
    (hvisible : (wm.windows win).visible = true) :
    Raised win wm ↔ ((wm.windows win).Sized → (wm.windows win).EndsInRange) := by
  have horder := zOrder_wmBringToFront h.nodup hwin
  have hfound (x y : Int32) := wmWindowAt_concat horder x y
  simp only [windows_wmBringToFront, hvisible, true_and] at hfound
  constructor
  · rintro ⟨hat, -⟩ hsized
    by_contra hends
    -- at its corner the window is passed over
    have hcorner : (wm.windows win).Covers (wm.windows win).x (wm.windows win).y := by
      rcases hsized with ⟨hwidth, hheight⟩
      constructor
      · omega
      · omega
    have hnot : ¬(wm.windows win).contains (wm.windows win).x (wm.windows win).y = true := by
      intro hcontains
      exact hends ((contains_iff hsized _ _).mp hcontains).2
    have hothers := hat _ _ hcorner
    rw [hfound, if_neg hnot] at hothers
    rcases topmost_eq_some.mp hothers with ⟨before, after, hlist, -⟩
    have hmem : win ∈ wm.others win := by
      rw [hlist]
      simp
    simp [Wm.others] at hmem
  · intro hends
    constructor
    · intro x y hcovers
      rw [hfound, if_pos ((contains_iff hcovers.sized x y).mpr ⟨hcovers, hends hcovers.sized⟩)]
    · exact others_wmBringToFront h.nodup hwin

/-- In every state of every run the order is a permutation of the slots with the active window
on top; and a visible window that is raised is found at all of its points exactly if no far
edge of it is beyond the range of `i32`. -/
theorem raised_iff (h : Run WmStep (wmInit wm₀) wm) :
    wm.Ordered ∧ ∀ win ∈ wm.zOrder, (wm.windows win).visible = true →
      (Raised win wm ↔ ((wm.windows win).Sized → (wm.windows win).EndsInRange)) := by
  have hwm := ordered_of_run h
  constructor
  · exact hwm
  · intro win hwin hvisible
    exact raised_of_ordered hwm hwin hvisible

/-- A window is opened here. -/
def Wm.open (x : Int32) (wm : Wm) : Wm :=
  (wmCreateWindow [0x50] x 50 280 120 winFlagCloseable wm).2

theorem run_opened (h : Run WmStep (wmInit wm₀) wm) (x : Int32) :
    Run WmStep (wmInit wm₀) (wm.open x) := h.tail .create

/-- Three windows, the first one at the bottom. -/
def threeWindows : Wm := (((wmInit .boot).open 50).open 100).open 120

theorem run_threeWindows : Run WmStep (wmInit .boot) threeWindows :=
  run_opened (run_opened (run_opened .refl 50) 100) 120

theorem raised_iff_first : Raised 0 threeWindows :=
  ((raised_iff run_threeWindows).2 0 (by decide) (by decide)).mpr fun _ => by decide

/-- A window that is opened at the right edge of the plane. -/
def edgeWindow : Wm := (wmInit .boot).open 0x7FFFFFF0

/-- It is not found at its points. -/
theorem raised_not_found :
    ¬∀ (wm₀ wm : Wm) (win : Nat) (x y : Int32), Run WmStep (wmInit wm₀) wm → win ∈ wm.zOrder →
      (wm.windows win).visible = true → (wm.windows win).Covers x y →
      wmWindowAt (wmBringToFront win wm) x y = some win := by
  intro h
  have hrun : Run WmStep (wmInit .boot) edgeWindow := run_opened .refl _
  have hfound := h .boot edgeWindow 0 0x7FFFFFF8 60 hrun (by decide) (by decide) (by decide)
  exact absurd hfound (by decide)

/-! ## Windows that are destroyed -/

/-- The slot of another window, behind the destruction of one. -/
def moved (win other : Nat) : Nat := if win < other then other - 1 else other

/-- A window that is not shown. -/
def GUIWindow.hide (w : GUIWindow) : GUIWindow := { w with flags := w.flags &&& ~~~winFlagVisible }

/-- The windows by their slots, as `wm_draw_all` goes through them. -/
def drawOrder (fb : Framebuffer) (wm : Wm) : List Nat := (wmDrawAll fb wm).map Prod.fst

/-- The others are drawn one over another as they were, and `wm_window_at` finds what it would
have found with the window hidden. -/
def StackingKept (win : Nat) (wm : Wm) : Prop :=
  (∀ fb, drawOrder fb (wmDestroyWindow win wm) =
      ((drawOrder fb wm).filter (· != win)).map (moved win)) ∧
    ∀ x y, wmWindowAt (wmDestroyWindow win wm) x y =
      (wmWindowAt (wm.assign win GUIWindow.hide) x y).map (moved win)

theorem drawOrder_eq (fb : Framebuffer) (wm : Wm) : drawOrder fb wm = wm.zOrder := by
  unfold drawOrder wmDrawAll Wm.zOrder
  rw [List.map_map]
  rfl

theorem visible_hide (w : GUIWindow) : w.hide.visible = false := by
  unfold GUIWindow.visible GUIWindow.hide
  rw [UInt32.and_assoc, UInt32.not_and_self, UInt32.and_zero]
  rfl

/-- Each of the others is moved with all of its fields, its number among them. -/
theorem windows_moved {other : Nat} (hwin : win < wm.winCount) (hother : other < wm.winCount)
    (hne : other ≠ win) : (wmDestroyWindow win wm).windows (moved win other) = wm.windows other := by
  unfold wmDestroyWindow moved
  rw [if_pos hwin]
  dsimp only
  by_cases habove : win < other
  · rw [if_pos habove, if_pos (by omega), Nat.sub_add_cancel (by omega)]
  · rw [if_neg habove, if_neg (by omega)]

theorem moved_lt_moved_iff {a b : Nat} (ha : a ≠ win) (hb : b ≠ win) :
    moved win a < moved win b ↔ a < b := by
  unfold moved
  split
  · split
    · omega
    · omega
  · split
    · omega
    · omega

theorem Wm.mem_others {a : Nat} : a ∈ wm.others win ↔ a ∈ wm.zOrder ∧ a ≠ win := by
  rw [Wm.others, List.mem_filter, bne_iff_ne]

theorem Wm.Ordered.length_others (h : wm.Ordered) (hwin : win < wm.winCount) :
    (wm.others win).length = wm.winCount - 1 := by
  rw [Wm.others, ← h.nodup.erase_eq_filter, List.length_erase_of_mem (h.mem_zOrder.mpr hwin),
    wm.length_zOrder]

/-- Numbers in their order with no room between them. -/
theorem eq_range_of_pairwise {l : List Nat} (hl : l.Pairwise (· < ·))
    (hlt : ∀ a ∈ l, a < l.length) : l = List.range l.length := by
  have hnodup : l.Nodup := hl.imp Nat.ne_of_lt
  have hsub : l ⊆ List.range l.length := by
    intro a ha
    exact List.mem_range.mpr (hlt a ha)
  have hperm : l ~ List.range l.length :=
    (List.subperm_of_subset hnodup hsub).perm_of_length_le (by rw [List.length_range])
  apply hperm.eq_of_pairwise _ hl List.pairwise_lt_range
  intro a b _ _ hab hba
  exact absurd hba (Nat.lt_asymm hab)

/-- Behind a destruction the windows are in the order of their slots; that is their order
exactly if they were so before. -/
theorem zOrder_destroy_iff (h : wm.Ordered) (hwin : win < wm.winCount) :
    (wmDestroyWindow win wm).zOrder = (wm.others win).map (moved win) ↔
      (wm.others win).Pairwise (· < ·) := by
  have hpairs : ((wm.others win).map (moved win)).Pairwise (· < ·) ↔
      (wm.others win).Pairwise (· < ·) := by
    rw [List.pairwise_map]
    apply List.Pairwise.iff_of_mem
    intro a b ha hb
    exact moved_lt_moved_iff (Wm.mem_others.mp ha).2 (Wm.mem_others.mp hb).2
  rw [zOrder_wmDestroyWindow hwin]
  constructor
  · intro heq
    rw [← hpairs, ← heq]
    exact List.pairwise_lt_range
  · intro hsorted
    have hlen : ((wm.others win).map (moved win)).length = wm.winCount - 1 := by
      rw [List.length_map, h.length_others hwin]
    have hrange := eq_range_of_pairwise (hpairs.mpr hsorted) (by
      intro b hb
      rcases List.mem_map.mp hb with ⟨a, ha, rfl⟩
      rcases Wm.mem_others.mp ha with ⟨hmem, hne⟩
      have hlt := h.mem_zOrder.mp hmem
      rw [hlen]
      unfold moved
      split <;> omega)
    rw [hrange, hlen]

/-- Where the order of the others is kept, so is what is found. -/
theorem wmWindowAt_of_kept (h : wm.Ordered) (hwin : win < wm.winCount)
    (hkept : (wmDestroyWindow win wm).zOrder = (wm.others win).map (moved win)) (x y : Int32) :
    wmWindowAt (wmDestroyWindow win wm) x y =
      (wmWindowAt (wm.assign win GUIWindow.hide) x y).map (moved win) := by
  have hhidden : (wm.assign win GUIWindow.hide).others win = wm.others win := rfl
  rw [wmWindowAt_eq, wmWindowAt_eq, hkept, topmost_map]
  congr 1
  calc _ = topmost (fun win' (p : Int32 × Int32) =>
          ((wm.assign win GUIWindow.hide).windows win').visible = true ∧
            ((wm.assign win GUIWindow.hide).windows win').contains p.1 p.2 = true)
          (wm.others win) (x, y) := by
        apply topmost_congr
        intro a ha
        rcases Wm.mem_others.mp ha with ⟨hmem, hne⟩
        rw [windows_moved hwin (h.mem_zOrder.mp hmem) hne, windows_assign_of_ne _ hne]
    _ = _ := by
        rw [← hhidden]
        apply topmost_filter
        intro a _ hcovers
        rw [bne_iff_ne]
        rintro rfl
        -- the hidden window is passed over
        rw [windows_assign_self, visible_hide] at hcovers
        exact absurd hcovers.1 Bool.false_ne_true

theorem stackingKept_of_ordered (h : wm.Ordered) (hwin : win < wm.winCount) :
    StackingKept win wm ↔ (wm.others win).Pairwise (· < ·) := by
  rw [← zOrder_destroy_iff h hwin]
  unfold StackingKept
  simp only [drawOrder_eq]
  constructor
  · rintro ⟨hdrawn, -⟩
    exact hdrawn ⟨0, 0, 0⟩
  · intro hkept
    constructor
    · intro _
      exact hkept
    · exact wmWindowAt_of_kept h hwin hkept

/-- A window that is destroyed leaves the others stacked as they were exactly if they were
stacked in the order of their slots. -/
theorem stacking_kept_iff (h : Run WmStep (wmInit wm₀) wm) (hwin : win < wm.winCount) :
    (∀ other < wm.winCount, other ≠ win →
      (wmDestroyWindow win wm).windows (moved win other) = wm.windows other) ∧
        (StackingKept win wm ↔ (wm.others win).Pairwise (· < ·)) := by
  constructor
  · intro other hother hne
    exact windows_moved hwin hother hne
  · exact stackingKept_of_ordered (ordered_of_run h) hwin

theorem stacking_kept_iff_last : StackingKept 2 threeWindows :=
  (stacking_kept_iff run_threeWindows (by decide)).2.mpr (by decide)

/-- The numbers of the windows in the order in which they are drawn. -/
def drawnIds (fb : Framebuffer) (wm : Wm) : List UInt32 :=
  (drawOrder fb wm).map fun win => (wm.windows win).id

/-- Of a window that is raised and another one the raised one falls below, when the third one
is destroyed. -/
theorem raised_falls_below :
    ¬∀ (wm₀ wm : Wm) (win : Nat) (fb : Framebuffer), Run WmStep (wmInit wm₀) wm →
      win < wm.winCount → drawnIds fb (wmDestroyWindow win wm) =
        (drawnIds fb wm).filter (· != (wm.windows win).id) := by
  intro h
  have hrun : Run WmStep (wmInit .boot) (wmBringToFront 0 threeWindows) :=
    run_threeWindows.tail .bringToFront
  have hkept := h .boot (wmBringToFront 0 threeWindows) 2 ⟨0, 0, 0⟩ hrun (by decide)
  exact absurd hkept (by decide)

end PolandOS.Gui
