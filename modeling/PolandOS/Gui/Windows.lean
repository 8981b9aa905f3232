import Mathlib.Logic.Function.Basic
import PolandOS.Gui.Desktop
import PolandOS.Lib.Runs

/-! # Windows and their handles

`kernel/gui/window.c`. A handle of a window is the address of its slot in the pool, and the
windows behind one that is destroyed move down by a slot. `handles_stable` says for which
windows that leaves the handles of the others alone.
-/

namespace PolandOS.Gui

open Runs

/-! ## The window manager -/

/-- `WIN_MAX_WINDOWS`. -/
def winMaxWindows : Nat := 16

/-- `WIN_MAX_TITLE`. -/
def winMaxTitle : Nat := 48

/-- `WIN_FLAG_VISIBLE`. -/
def winFlagVisible : UInt32 := 0x01

/-- `WIN_FLAG_CLOSEABLE`. -/
def winFlagCloseable : UInt32 := Desktop.winFlagCloseable

/-- `GUIWindow`, with the numbers of its callbacks, if it has them. -/
structure GUIWindow where
  title : List UInt8
  x : Int32
  y : Int32
  width : Int32
  height : Int32
  flags : UInt32
  id : UInt32
  onPaint : Option Nat
  onClick : Option Nat
  onKey : Option Nat
deriving DecidableEq, Repr

/-- `memset(win, 0, sizeof(GUIWindow))`. -/
def GUIWindow.zero : GUIWindow := ⟨[], 0, 0, 0, 0, 0, 0, none, none, none⟩

/-- The pool of windows, the Z-order, the number of windows, the next number to give, and
the slot of the active window. -/
structure Wm where
  windows : Nat → GUIWindow
  winOrder : Nat → Nat
  winCount : Nat
  nextId : UInt32
  activeWin : Option Nat

/-- The variables behind `wm_init` at boot. -/
def Wm.boot : Wm := ⟨fun _ => .zero, fun _ => 0, 0, 1, none⟩

/-- `wm_create_window`: the slot of the window, if there was a free one. -/
def wmCreateWindow (title : List UInt8) (x y w h : Int32) (flags : UInt32) (wm : Wm) :
    Option Nat × Wm :=
  if wm.winCount ≥ winMaxWindows then (none, wm)
  else
    let win := { GUIWindow.zero with
      title := title.take (winMaxTitle - 1)
      x, y
      width := w
      height := h
      flags := flags ||| winFlagVisible
      id := wm.nextId }
    (some wm.winCount, {
      windows := Function.update wm.windows wm.winCount win
      winOrder := Function.update wm.winOrder wm.winCount wm.winCount
      winCount := wm.winCount + 1
      nextId := wm.nextId + 1
      activeWin := some wm.winCount })

/-- `wm_destroy_window`. A pointer that is not to a slot in use is like `NULL`. -/
def wmDestroyWindow (win : Nat) (wm : Wm) : Wm :=
  if win < wm.winCount then
    let winCount := wm.winCount - 1
    { wm with
      windows := fun i => if win ≤ i ∧ i < winCount then wm.windows (i + 1) else wm.windows i
      winOrder := fun i => if i < winCount then i else wm.winOrder i
      winCount
      activeWin := if winCount > 0 then some (winCount - 1) else none }
  else wm

/-- `wm_bring_to_front`. -/
def wmBringToFront (win : Nat) (wm : Wm) : Wm :=
  match (List.range wm.winCount).find? fun i => wm.winOrder i = win with
  | none => wm
  | some idx =>
    { wm with
      winOrder := fun i =>
        if idx ≤ i ∧ i < wm.winCount - 1 then wm.winOrder (i + 1)
        else if i = wm.winCount - 1 then wm.winOrder idx
        else wm.winOrder i
      activeWin := some win }

/-- Fields of a window are assigned through its handle. -/
def Wm.assign (win : Nat) (f : GUIWindow → GUIWindow) (wm : Wm) : Wm :=
  { wm with windows := Function.update wm.windows win (f (wm.windows win)) }

/-- What the keyboard part of the desktop sees of a window. -/
def GUIWindow.keys (w : GUIWindow) : Desktop.GuiWindow := ⟨w.flags, w.id, w.onKey⟩

/-- What it sees of the windows. -/
def Wm.keys (wm : Wm) : Desktop.Wm where
  windows := fun i => (wm.windows i).keys
  winOrder := wm.winOrder
  winCount := wm.winCount
  activeWin := wm.activeWin

/-! ## What a handle stands for -/

/-- The window that a handle stands for, while its slot is in use. -/
def Wm.window (wm : Wm) (win : Nat) : Option GUIWindow :=
  if win < wm.winCount then some (wm.windows win) else none

variable {wm : Wm} {win other : Nat}

theorem window_of_lt (h : win < wm.winCount) : wm.window win = some (wm.windows win) := if_pos h

theorem window_of_not_lt (h : ¬win < wm.winCount) : wm.window win = none := if_neg h

theorem windows_assign_self (f : GUIWindow → GUIWindow) :
    (wm.assign win f).windows win = f (wm.windows win) := Function.update_self ..

theorem windows_assign_of_ne (f : GUIWindow → GUIWindow) (h : other ≠ win) :
    (wm.assign win f).windows other = wm.windows other := Function.update_of_ne h ..

@[simp] theorem winCount_wmBringToFront : (wmBringToFront win wm).winCount = wm.winCount := by
  unfold wmBringToFront
  split <;> rfl

/-- The Z-order has no part in it. -/
@[simp] theorem window_wmBringToFront : (wmBringToFront win wm).window other = wm.window other := by
  unfold wmBringToFront
  split <;> rfl

theorem winCount_wmDestroyWindow (hwin : win < wm.winCount) :
    (wmDestroyWindow win wm).winCount = wm.winCount - 1 := by
  unfold wmDestroyWindow
  rw [if_pos hwin]

theorem windows_wmDestroyWindow_below (h : other < win) :
    (wmDestroyWindow win wm).windows other = wm.windows other := by
  unfold wmDestroyWindow
  split
  · exact if_neg (by omega)
  · rfl

theorem window_wmDestroyWindow_below (h : other < win) (hwin : win < wm.winCount) :
    (wmDestroyWindow win wm).window other = wm.window other := by
  have hcount := winCount_wmDestroyWindow hwin
  rw [window_of_lt (by omega), window_of_lt (by omega), windows_wmDestroyWindow_below h]

/-- The last slot is free behind every destruction. -/
theorem window_wmDestroyWindow_last (hwin : win < wm.winCount) :
    (wmDestroyWindow win wm).window (wm.winCount - 1) = none := by
  have hcount := winCount_wmDestroyWindow hwin
  exact window_of_not_lt (by omega)

/-! ## Runs -/

/-- The window manager, and what has been returned to its callers and is not destroyed yet:
for each handle the number of its window. -/
structure World where
  wm : Wm
  handles : Nat → Option UInt32

/-- The callers hold no handle at boot. -/
def World.boot : World := ⟨.boot, fun _ => none⟩

/-- The calls of the window manager, and assignments to the fields of a window. -/
inductive WmCall where
  | create (title : List UInt8) (x y w h : Int32) (flags : UInt32)
  | destroy (win : Nat)
  | bringToFront (win : Nat)
  | assign (win : Nat)

/-- Callers pass the handles that they hold. -/
inductive WorldStep : World → WmCall → World → Prop
  | create {W : World} {title : List UInt8} {x y w h : Int32} {flags : UInt32} {win : Nat}
      {wm : Wm} : wmCreateWindow title x y w h flags W.wm = (some win, wm) →
      WorldStep W (.create title x y w h flags)
        ⟨wm, Function.update W.handles win (some W.wm.nextId)⟩
  | full {W : World} {title : List UInt8} {x y w h : Int32} {flags : UInt32} {wm : Wm} :
      wmCreateWindow title x y w h flags W.wm = (none, wm) →
      WorldStep W (.create title x y w h flags) ⟨wm, W.handles⟩
  | destroy {W : World} {win : Nat} : W.handles win ≠ none →
      WorldStep W (.destroy win) ⟨wmDestroyWindow win W.wm, Function.update W.handles win none⟩
  | bringToFront {W : World} {win : Nat} : W.handles win ≠ none →
      WorldStep W (.bringToFront win) ⟨wmBringToFront win W.wm, W.handles⟩
  | assign {W : World} {win : Nat} {f : GUIWindow → GUIWindow} : W.handles win ≠ none →
      (∀ w, (f w).id = w.id) → WorldStep W (.assign win) ⟨W.wm.assign win f, W.handles⟩

/-- Only the window in the last slot is destroyed. -/
def FromTheEnd (W : World) : WmCall → Prop
  | .destroy win => win + 1 = W.wm.winCount
  | _ => True

/-- The handles that are held are those of the slots in use, each with the window that it was
returned for. -/
structure World.Sound (W : World) : Prop where
  held : ∀ win id, W.handles win = some id → ∃ w, W.wm.window win = some w ∧ w.id = id
  all : ∀ win < W.wm.winCount, W.handles win ≠ none

variable {W W' : World} {c : WmCall}

theorem World.Sound.lt (h : W.Sound) (hwin : W.handles win ≠ none) : win < W.wm.winCount := by
  rcases Option.ne_none_iff_exists'.mp hwin with ⟨id, hid⟩
  rcases h.held win id hid with ⟨w, hw, -⟩
  by_contra hnot
  rw [window_of_not_lt hnot] at hw
  cases hw

/-- What `wm_create_window` does where it returns a handle. -/
theorem wmCreateWindow_some {title : List UInt8} {x y w h : Int32} {flags : UInt32} {wm' : Wm}
    (hcreate : wmCreateWindow title x y w h flags wm = (some win, wm')) :
    win = wm.winCount ∧ wm'.winCount = wm.winCount + 1 ∧ (wm'.windows win).id = wm.nextId ∧
      ∀ i, i ≠ win → wm'.windows i = wm.windows i := by
  unfold wmCreateWindow at hcreate
  split at hcreate
  · cases hcreate
  · cases hcreate
    refine ⟨rfl, rfl, ?_, fun i hi => Function.update_of_ne hi ..⟩
    simp only [Function.update_self]

theorem wmCreateWindow_none {title : List UInt8} {x y w h : Int32} {flags : UInt32} {wm' : Wm}
    (hcreate : wmCreateWindow title x y w h flags wm = (none, wm')) : wm' = wm := by
  unfold wmCreateWindow at hcreate
  split at hcreate
  · cases hcreate
    rfl
  · cases hcreate

/-- The new window has a number that no handle has. -/
theorem World.Sound.create {title : List UInt8} {x y w h : Int32} {flags : UInt32} {wm' : Wm}
    (hW : W.Sound) (hcreate : wmCreateWindow title x y w h flags W.wm = (some win, wm')) :
    World.Sound ⟨wm', Function.update W.handles win (some W.wm.nextId)⟩ := by
  rcases wmCreateWindow_some hcreate with ⟨hwin, hcount, hid, hothers⟩
  constructor
  · intro i id hi
    by_cases hiw : i = win
    · subst hiw
      simp only [Function.update_self] at hi
      cases hi
      exact ⟨_, window_of_lt (by simp only; omega), hid⟩
    · simp only [Function.update_of_ne hiw] at hi
      rcases hW.held i id hi with ⟨w, hw, hwid⟩
      have hlt := hW.lt (Option.ne_none_iff_exists'.mpr ⟨id, hi⟩)
      refine ⟨w, ?_, hwid⟩
      rw [window_of_lt hlt] at hw
      rw [window_of_lt (by simp only; omega), hothers i hiw, hw]
  · intro i hi
    by_cases hiw : i = win
    · subst hiw
      simp
    · simp only [Function.update_of_ne hiw]
      refine hW.all i ?_
      simp only at hi
      omega

/-- Where the last window goes, the others stay where they are. -/
theorem World.Sound.destroy (hW : W.Sound) (hlast : win + 1 = W.wm.winCount) :
    World.Sound ⟨wmDestroyWindow win W.wm, Function.update W.handles win none⟩ := by
  have hcount : (wmDestroyWindow win W.wm).winCount = W.wm.winCount - 1 :=
    winCount_wmDestroyWindow (by omega)
  constructor
  · intro i id hi
    by_cases hiw : i = win
    · subst hiw
      simp at hi
    · simp only [Function.update_of_ne hiw] at hi
      have hlt := hW.lt (Option.ne_none_iff_exists'.mpr ⟨id, hi⟩)
      rw [window_wmDestroyWindow_below (by omega) (by omega)]
      exact hW.held i id hi
  · intro i hi
    simp only at hi
    have hne : i ≠ win := by omega
    simp only [Function.update_of_ne hne]
    exact hW.all i (by omega)

theorem World.Sound.bringToFront (hW : W.Sound) :
    World.Sound ⟨wmBringToFront win W.wm, W.handles⟩ := by
  constructor
  · intro i id hi
    rw [window_wmBringToFront]
    exact hW.held i id hi
  · intro i hi
    rw [winCount_wmBringToFront] at hi
    exact hW.all i hi

theorem World.Sound.assign {f : GUIWindow → GUIWindow} (hW : W.Sound)
    (hf : ∀ w, (f w).id = w.id) : World.Sound ⟨W.wm.assign win f, W.handles⟩ := by
  refine ⟨fun i id hi => ?_, hW.all⟩
  rcases hW.held i id hi with ⟨w, hw, hid⟩
  have hlt := hW.lt (Option.ne_none_iff_exists'.mpr ⟨id, hi⟩)
  refine ⟨_, window_of_lt hlt, ?_⟩
  rw [window_of_lt hlt] at hw
  cases hw
  by_cases hiw : i = win
  · subst hiw
    rw [windows_assign_self, hf]
    exact hid
  · rw [windows_assign_of_ne f hiw]
    exact hid

theorem World.Sound.step (hW : W.Sound) (h : Guarded WorldStep FromTheEnd W c W') : W'.Sound := by
  rcases h with ⟨hend, hstep⟩
  cases hstep with
  | create hcreate => exact hW.create hcreate
  | full hfull =>
      rw [wmCreateWindow_none hfull]
      exact hW
  | destroy => exact hW.destroy hend
  | bringToFront => exact hW.bringToFront
  | assign _ hf => exact hW.assign hf

theorem sound_boot : World.boot.Sound := ⟨nofun, fun _ h => absurd h (Nat.not_lt_zero _)⟩

/-- Wherever only windows in the last slot have been destroyed, every handle stands for the
window that it was returned for; and the next window that is destroyed leaves the handles of
the others alone exactly when it is in the last slot too. -/
theorem handles_stable {W : World} (h : Run (Guarded WorldStep FromTheEnd) .boot W) :
    (∀ win id, W.handles win = some id → ∃ w, W.wm.window win = some w ∧ w.id = id) ∧
      ∀ win, W.handles win ≠ none →
        ((∀ other, other ≠ win → W.handles other ≠ none →
          (wmDestroyWindow win W.wm).window other = W.wm.window other) ↔
            win + 1 = W.wm.winCount) := by
  have hW : W.Sound := h.invariant sound_boot fun _ _ _ hW hstep => hW.step hstep
  refine ⟨hW.held, fun win hwin => ?_⟩
  have hlt := hW.lt hwin
  constructor
  · intro hkept
    by_contra hnot
    -- the last window moves out of its slot
    have hlast := hkept (W.wm.winCount - 1) (by omega) (hW.all _ (by omega))
    rw [window_wmDestroyWindow_last hlt, window_of_lt (by omega)] at hlast
    cases hlast
  · intro hend other hother hheld
    have hother' := hW.lt hheld
    exact window_wmDestroyWindow_below (by omega) hlt

/-! ## Two windows -/

/-- A window is opened in this slot. -/
def World.open (title : List UInt8) (x y w h : Int32) (win : Nat) (W : World) : World :=
  ⟨(wmCreateWindow title x y w h winFlagCloseable W.wm).2,
    Function.update W.handles win (some W.wm.nextId)⟩

theorem run_open {title : List UInt8} {x y w h : Int32} {win : Nat}
    (hrun : Run (Guarded WorldStep FromTheEnd) .boot W)
    (hcreate : (wmCreateWindow title x y w h winFlagCloseable W.wm).1 = some win) :
    Run (Guarded WorldStep FromTheEnd) .boot (W.open title x y w h win) := by
  refine hrun.tail (e := .create title x y w h winFlagCloseable) ⟨trivial, .create ?_⟩
  exact Prod.ext hcreate rfl

/-- The program manager and the box with the version. -/
def twoWindows : World :=
  (World.boot.open [0x50] 50 50 280 120 0).open [0x4F] 100 80 240 130 1

theorem run_twoWindows : Run (Guarded WorldStep FromTheEnd) .boot twoWindows :=
  run_open (run_open .refl rfl) rfl

/-- The second one can go. -/
theorem handles_stable_second :
    (wmDestroyWindow 1 twoWindows.wm).window 0 = twoWindows.wm.window 0 :=
  ((handles_stable run_twoWindows).2 1 (by decide)).mpr rfl 0 (by decide) (by decide)

/-- If the first one goes, the handle of the second one stands for nothing any more. -/
theorem handle_dangles :
    ¬∀ (W : World) (win other : Nat), Run WorldStep .boot W → W.handles win ≠ none →
      W.handles other ≠ none → other ≠ win →
      (wmDestroyWindow win W.wm).window other = W.wm.window other := by
  intro h
  have hrun : Run WorldStep .boot twoWindows := run_twoWindows.mono fun _ _ _ hstep => hstep.2
  exact absurd (h twoWindows 0 1 hrun (by decide) (by decide) (by decide)) (by decide)

end PolandOS.Gui
