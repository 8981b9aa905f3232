import PolandOS.Gui.Stacking

/-! # The desktop and its mouse

The loop of `desktop_run` in `kernel/gui/desktop.c`: its clicks, its keys, the windows that are
dragged, and the functions that open windows. `opens_iff` says when one of these leaves the
windows alone where there is no room for another one.
-/

namespace PolandOS.Gui

open Runs

/-! ## Opening windows -/

/-- `WIN_FLAG_MOVABLE`. -/
def winFlagMovable : UInt32 := 0x04

/-- The bytes of a string. -/
def text (s : String) : List UInt8 := s.toList.map fun c => c.toNat.toUInt8

/-- The number of `pm_paint`. -/
def pmPaint : Nat := 0

/-- The number of `about_paint`. -/
def aboutPaint : Nat := 1

/-- The number of `info_paint`. -/
def infoPaint : Nat := 2

/-- The number of `shell_paint`. -/
def shellPaint : Nat := 3

/-- The number of `pm_click`. -/
def pmClickNumber : Nat := 0

/-- `open_program_manager`. -/
def openProgramManager (wm : Wm) : Wm :=
  match wmCreateWindow (text "Program Manager") 50 50 280 120
      (winFlagMovable ||| winFlagCloseable) wm with
  | (some pm, wm) =>
    wm.assign pm fun w => { w with onPaint := some pmPaint, onClick := some pmClickNumber }
  | (none, wm) => wm

/-- `w->on_paint` is assigned, where `w` is what `wm_get_active` returns. -/
def paintActive (paint : Nat) (wm : Wm) : Wm :=
  match wm.activeWin with
  | some w => wm.assign w fun win => { win with onPaint := some paint }
  | none => wm

/-- `open_about_window`. -/
def openAboutWindow (wm : Wm) : Wm :=
  paintActive aboutPaint (wmCreateWindow (text "O systemie PolandOS") 100 80 240 130
    (winFlagMovable ||| winFlagCloseable) wm).2

/-- `open_info_window`. -/
def openInfoWindow (wm : Wm) : Wm :=
  paintActive infoPaint (wmCreateWindow (text "Informacje") 120 100 260 130
    (winFlagMovable ||| winFlagCloseable) wm).2

/-- `open_shell_window`. -/
def openShellWindow (wm : Wm) : Wm :=
  paintActive shellPaint (wmCreateWindow (text "Powloka") 80 60 320 150
    (winFlagMovable ||| winFlagCloseable) wm).2

/-- The functions that open a window. -/
inductive Opener where
  | programManager
  | about
  | info
  | shell
deriving DecidableEq, Repr

/-- The function itself. -/
def Opener.open : Opener → Wm → Wm
  | programManager => openProgramManager
  | about => openAboutWindow
  | info => openInfoWindow
  | shell => openShellWindow

/-- The paint callback of its windows. -/
def Opener.paint : Opener → Nat
  | programManager => pmPaint
  | about => aboutPaint
  | info => infoPaint
  | shell => shellPaint

/-! ## Clicks -/

/-- `WIN_TITLEBAR_H`. -/
def winTitlebarH : Int32 := 20

/-- `WIN_BORDER_W`. -/
def winBorderW : Int32 := 3

/-- `WIN_TASKBAR_H`. -/
def winTaskbarH : Int32 := 28

/-- `WIN_CLOSE_BTN_W`. -/
def winCloseBtnW : Int32 := 16

/-- `wm_titlebar_hit`. -/
def wmTitlebarHit (win : GUIWindow) (x y : Int32) : Bool :=
  x ≥ win.x + winBorderW && x < win.x + win.width - winBorderW && y ≥ win.y + winBorderW &&
    y < win.y + winBorderW + winTitlebarH

/-- `wm_close_btn_hit`. -/
def wmCloseBtnHit (win : GUIWindow) (x y : Int32) : Bool :=
  if win.flags &&& winFlagCloseable = 0 then false
  else
    let bX := win.x + win.width - winBorderW - winCloseBtnW - 2
    let bY := win.y + winBorderW + 2
    x ≥ bX && x < bX + winCloseBtnW && y ≥ bY && y < bY + winCloseBtnW

/-- `start_menu_hit`, on a screen of this height. -/
def startMenuHit (sh mx my : Int32) : Int :=
  let menuX := 2
  let menuY := sh - winTaskbarH - 140
  let menuW := 160
  if mx < menuX || mx ≥ menuX + menuW then -1
  else
    let itemY := menuY + 8
    if my ≥ itemY && my < itemY + 20 then 0
    else
      let itemY := itemY + 24
      if my ≥ itemY && my < itemY + 20 then 1
      else
        let itemY := itemY + 24
        if my ≥ itemY && my < itemY + 20 then 2
        else
          let itemY := itemY + 38
          if my ≥ itemY && my < itemY + 20 then 3 else -1

/-- `pm_click`. -/
def pmClick (lx ly : Int32) (wm : Wm) : Wm :=
  if lx ≥ 20 && lx < 52 && ly ≥ 10 && ly < 58 then openAboutWindow wm
  else if lx ≥ 90 && lx < 122 && ly ≥ 10 && ly < 58 then openInfoWindow wm
  else if lx ≥ 160 && lx < 192 && ly ≥ 10 && ly < 58 then openShellWindow wm
  else wm

/-- A click callback by its number. There is only `pm_click`. -/
def runClick (callback : Nat) (lx ly : Int32) (wm : Wm) : Wm :=
  if callback = pmClickNumber then pmClick lx ly wm else wm

/-- `DesktopIcon`, without its label. -/
structure DesktopIcon where
  x : Int32
  y : Int32
  iconW : Int32
  iconH : Int32
  onClick : Opener

/-- `MAX_ICONS`. -/
def maxIcons : Nat := 8

/-- `add_icon`. -/
def addIcon (x y : Int32) (onClick : Opener) (icons : List DesktopIcon) : List DesktopIcon :=
  if icons.length ≥ maxIcons then icons else icons ++ [⟨x, y, 48, 48, onClick⟩]

/-- The icons that `desktop_init` registers. -/
def icons : List DesktopIcon :=
  addIcon 10 230 .info (addIcon 10 160 .shell (addIcon 10 90 .about (addIcon 10 20 .programManager [])))

/-- The variables of the desktop. -/
structure DesktopState where
  wm : Wm
  startMenuOpen : Bool
  dragging : Bool
  dragOffX : Int32
  dragOffY : Int32
  dragWin : Option Nat
  prevLeft : Bool
  off : Bool

/-- A click on a window. -/
def clickWindow (hit : Nat) (mx my : Int32) (s : DesktopState) : DesktopState :=
  let wm := wmBringToFront hit s.wm
  let win := wm.windows hit
  if wmCloseBtnHit win mx my then { s with wm := wmDestroyWindow hit wm }
  else if wmTitlebarHit win mx my && win.flags &&& winFlagMovable != 0 then
    { s with
      wm
      dragging := true
      dragWin := some hit
      dragOffX := mx - win.x
      dragOffY := my - win.y }
  else
    match win.onClick with
    | some callback =>
      { s with
        wm := runClick callback (mx - win.x - winBorderW)
          (my - win.y - winBorderW - winTitlebarH) wm }
    | none => { s with wm }

/-- An item of the start menu. -/
def chooseItem (item : Int) (s : DesktopState) : DesktopState :=
  let s := { s with startMenuOpen := false }
  if item = 0 then { s with wm := openProgramManager s.wm }
  else if item = 1 then { s with wm := openAboutWindow s.wm }
  else if item = 2 then { s with wm := openShellWindow s.wm }
  else if item = 3 then { s with off := true }
  else s

/-- `handle_click`. -/
def handleClick (sh mx my : Int32) (leftPressed : Bool) (s : DesktopState) : DesktopState :=
  if !leftPressed then { s with dragging := false, dragWin := none }
  else if s.startMenuOpen then
    if startMenuHit sh mx my ≥ 0 then chooseItem (startMenuHit sh mx my) s
    else { s with startMenuOpen := false }
  else if my ≥ sh - winTaskbarH && mx ≥ 2 && mx < 62 then
    { s with startMenuOpen := !s.startMenuOpen }
  else if my ≥ sh - winTaskbarH then s
  else
    match wmWindowAt s.wm mx my with
    | some hit => clickWindow hit mx my s
    | none =>
      match icons.find? fun ic => mx ≥ ic.x && mx < ic.x + ic.iconW && my ≥ ic.y &&
          my < ic.y + ic.iconH with
      | some ic => { s with wm := ic.onClick.open s.wm }
      | none => s

/-! ## The loop -/

/-- What a round of the loop finds: the state of the mouse, or a character. -/
inductive DesktopEvent where
  | mouse (x y : Int32) (left : Bool)
  | key (key : Char)

/-- A window that is dragged follows the mouse. -/
def dragTo (x y : Int32) (s : DesktopState) : DesktopState :=
  if s.dragging then
    match s.dragWin with
    | some w =>
      { s with wm := s.wm.assign w fun win => { win with x := x - s.dragOffX, y := y - s.dragOffY } }
    | none => s
  else s

/-- The mouse part of a round. -/
def mouseEvent (sh x y : Int32) (left : Bool) (s : DesktopState) : DesktopState :=
  let s := dragTo x y s
  let s' := if left && !s.prevLeft then handleClick sh x y true s else s
  let s' := if !left && s'.prevLeft then handleClick sh x y false s' else s'
  { s' with prevLeft := left }

/-- The keyboard part of a round. -/
def keyEvent (handlers : Nat → Nat → Char → Wm → Wm) (key : Char) (s : DesktopState) :
    DesktopState :=
  if key = Keyboard.esc then
    match s.wm.activeWin with
    | some aw =>
      if (s.wm.windows aw).flags &&& winFlagCloseable ≠ 0 then
        { s with wm := wmDestroyWindow aw s.wm }
      else s
    | none => s
  else
    match s.wm.activeWin with
    | some aw =>
      match (s.wm.windows aw).onKey with
      | some handler => { s with wm := handlers handler aw key s.wm }
      | none => s
    | none => s

/-- A round of the loop. Behind `acpi_power_off` there are none. -/
def desktopStep (handlers : Nat → Nat → Char → Wm → Wm) (sh : Int32) (s : DesktopState)
    (e : DesktopEvent) : DesktopState :=
  if s.off then s
  else
    match e with
    | .mouse x y left => mouseEvent sh x y left s
    | .key key => keyEvent handlers key s

/-- `desktop_run` up to its loop. -/
def desktopStart (wm : Wm) (left : Bool) : DesktopState where
  wm := openProgramManager (wmInit wm)
  startMenuOpen := false
  dragging := false
  dragOffX := 0
  dragOffY := 0
  dragWin := none
  prevLeft := left
  off := false

/-- `desktop_run`, behind these events. -/
def desktopRun (handlers : Nat → Nat → Char → Wm → Wm) (sh : Int32) (wm : Wm) (left : Bool)
    (events : List DesktopEvent) : DesktopState :=
  events.foldl (desktopStep handlers sh) (desktopStart wm left)

/-! ## The windows of the desktop -/

/-- The windows are those of a run of the window manager, with room for no more of them than
there are slots, and none of them has a key callback. -/
structure Wm.Managed (wm wm₀ : Wm) : Prop where
  run : Run WmStep (wmInit wm₀) wm
  count : wm.winCount ≤ winMaxWindows
  keyless : ∀ win, (wm.windows win).onKey = none

variable {wm wm' wm₀ : Wm} {win : Nat} {o : Opener} {s : DesktopState}

theorem Wm.Managed.init (wm : Wm) : (wmInit wm).Managed wm := by
  constructor
  · exact .refl
  · exact Nat.zero_le _
  · intro _
    rfl

theorem Wm.Managed.create (h : wm.Managed wm₀) (title : List UInt8) (x y w ht : Int32)
    (flags : UInt32) : (wmCreateWindow title x y w ht flags wm).2.Managed wm₀ := by
  by_cases hroom : wm.winCount < winMaxWindows
  · have hsome := wmCreateWindow_some (wmCreateWindow_of_room title x y w ht flags hroom)
    constructor
    · exact h.run.tail .create
    · rw [hsome.2.1]
      exact hroom
    · intro win
      by_cases hnew : win = wm.winCount
      · unfold wmCreateWindow
        rw [if_neg (Nat.not_le.mpr hroom), hnew]
        dsimp only
        rw [Function.update_self]
        rfl
      · rw [hsome.2.2.2 win hnew]
        exact h.keyless win
  · rw [wmCreateWindow_of_full title x y w ht flags hroom]
    exact h

theorem Wm.Managed.destroy (h : wm.Managed wm₀) (win : Nat) :
    (wmDestroyWindow win wm).Managed wm₀ := by
  constructor
  · exact h.run.tail .destroy
  · have hcount := h.count
    unfold wmDestroyWindow
    split
    · dsimp only
      omega
    · exact hcount
  · intro other
    unfold wmDestroyWindow
    split
    · dsimp only
      split
      · exact h.keyless _
      · exact h.keyless _
    · exact h.keyless _

theorem Wm.Managed.bringToFront (h : wm.Managed wm₀) (win : Nat) :
    (wmBringToFront win wm).Managed wm₀ := by
  constructor
  · exact h.run.tail .bringToFront
  · rw [winCount_wmBringToFront]
    exact h.count
  · rw [windows_wmBringToFront]
    exact h.keyless

theorem Wm.Managed.assign (h : wm.Managed wm₀) {f : GUIWindow → GUIWindow}
    (hid : ∀ w, (f w).id = w.id) (hkey : ∀ w, (f w).onKey = w.onKey) (win : Nat) :
    (wm.assign win f).Managed wm₀ := by
  constructor
  · exact h.run.tail (.assign hid)
  · exact h.count
  · intro other
    by_cases hother : other = win
    · rw [hother, windows_assign_self, hkey]
      exact h.keyless win
    · rw [windows_assign_of_ne f hother]
      exact h.keyless other

theorem Wm.Managed.paintActive (h : wm.Managed wm₀) (paint : Nat) :
    (paintActive paint wm).Managed wm₀ := by
  unfold Gui.paintActive
  split
  · apply h.assign
    · intro _
      rfl
    · intro _
      rfl
  · exact h

theorem Wm.Managed.openProgramManager (h : wm.Managed wm₀) :
    (openProgramManager wm).Managed wm₀ := by
  have hcreate := h.create (text "Program Manager") 50 50 280 120
    (winFlagMovable ||| winFlagCloseable)
  unfold Gui.openProgramManager
  split
  · rename_i heq
    rw [heq] at hcreate
    apply hcreate.assign
    · intro _
      rfl
    · intro _
      rfl
  · rename_i heq
    rw [heq] at hcreate
    exact hcreate

theorem Wm.Managed.open (h : wm.Managed wm₀) (o : Opener) : (o.open wm).Managed wm₀ := by
  cases o with
  | programManager => exact h.openProgramManager
  | about => exact (h.create ..).paintActive _
  | info => exact (h.create ..).paintActive _
  | shell => exact (h.create ..).paintActive _

theorem Wm.Managed.runClick (h : wm.Managed wm₀) (callback : Nat) (lx ly : Int32) :
    (runClick callback lx ly wm).Managed wm₀ := by
  unfold Gui.runClick pmClick
  split
  · split
    · exact h.open .about
    · split
      · exact h.open .info
      · split
        · exact h.open .shell
        · exact h
  · exact h

theorem managed_clickWindow (h : s.wm.Managed wm₀) (hit : Nat) (mx my : Int32) :
    (clickWindow hit mx my s).wm.Managed wm₀ := by
  have hfront := h.bringToFront hit
  unfold clickWindow
  dsimp only
  split
  · exact hfront.destroy hit
  · split
    · exact hfront
    · split
      · exact hfront.runClick ..
      · exact hfront

theorem managed_chooseItem (h : s.wm.Managed wm₀) (item : Int) :
    (chooseItem item s).wm.Managed wm₀ := by
  unfold chooseItem
  dsimp only
  split
  · exact h.open .programManager
  · split
    · exact h.open .about
    · split
      · exact h.open .shell
      · split
        · exact h
        · exact h

theorem managed_handleClick (h : s.wm.Managed wm₀) (sh mx my : Int32) (leftPressed : Bool) :
    (handleClick sh mx my leftPressed s).wm.Managed wm₀ := by
  unfold handleClick
  split
  · exact h
  · split
    · -- the start menu is open
      split
      · exact managed_chooseItem h _
      · exact h
    · split
      · exact h
      · split
        · exact h
        · split
          · exact managed_clickWindow h ..
          · -- an icon, or nothing
            split
            · exact h.open _
            · exact h

theorem managed_dragTo (h : s.wm.Managed wm₀) (x y : Int32) : (dragTo x y s).wm.Managed wm₀ := by
  unfold dragTo
  split
  · split
    · dsimp only
      apply h.assign
      · intro _
        rfl
      · intro _
        rfl
    · exact h
  · exact h

theorem managed_mouseEvent (h : s.wm.Managed wm₀) (sh x y : Int32) (left : Bool) :
    (mouseEvent sh x y left s).wm.Managed wm₀ := by
  have hdrag := managed_dragTo h x y
  have hpress : (if left && !(dragTo x y s).prevLeft then handleClick sh x y true (dragTo x y s)
      else dragTo x y s).wm.Managed wm₀ := by
    split
    · exact managed_handleClick hdrag ..
    · exact hdrag
  unfold mouseEvent
  dsimp only
  generalize (if left && !(dragTo x y s).prevLeft then handleClick sh x y true (dragTo x y s)
    else dragTo x y s) = s' at hpress ⊢
  split
  · exact managed_handleClick hpress ..
  · exact hpress

theorem managed_keyEvent (h : s.wm.Managed wm₀) (handlers : Nat → Nat → Char → Wm → Wm)
    (key : Char) : (keyEvent handlers key s).wm.Managed wm₀ := by
  unfold keyEvent
  split
  · split
    · split
      · exact h.destroy _
      · exact h
    · exact h
  · split
    · -- no window has a handler
      rw [h.keyless]
      exact h
    · exact h

theorem managed_desktopRun (handlers : Nat → Nat → Char → Wm → Wm) (sh : Int32) (wm : Wm)
    (left : Bool) (events : List DesktopEvent) :
    (desktopRun handlers sh wm left events).wm.Managed wm := by
  unfold desktopRun
  induction events using List.reverseRecOn with
  | nil => exact (Wm.Managed.init wm).openProgramManager
  | append_singleton events e ih =>
      rw [List.foldl_append, List.foldl_cons, List.foldl_nil]
      unfold desktopStep
      split
      · exact ih
      · cases e with
        | mouse x y left => exact managed_mouseEvent ih ..
        | key key => exact managed_keyEvent ih ..

theorem keys_wmDestroyWindow (win : Nat) (wm : Wm) :
    (wmDestroyWindow win wm).keys = Desktop.wmDestroyWindow wm.keys win := by
  unfold wmDestroyWindow Desktop.wmDestroyWindow
  have hcount : wm.keys.winCount = wm.winCount := rfl
  rw [hcount]
  by_cases hwin : win < wm.winCount
  · rw [if_pos hwin, if_pos hwin]
    unfold Wm.keys
    congr 1
    funext i
    dsimp only
    split
    · rfl
    · rfl
  · rw [if_neg hwin, if_neg hwin]

/-- What the keys do to the windows is what the model of the keyboard part says. -/
theorem keys_keyEvent (h : s.wm.Managed wm₀) (handlers : Nat → Nat → Char → Wm → Wm)
    (handlers' : Nat → Nat → Char → Desktop.Wm → Desktop.Wm) (key : Char) :
    (keyEvent handlers key s).wm.keys = Desktop.desktopKey handlers' s.wm.keys key := by
  have hactive : s.wm.keys.activeWin = s.wm.activeWin := rfl
  have hflags (aw : Nat) : (s.wm.keys.windows aw).flags = (s.wm.windows aw).flags := rfl
  have hkey (aw : Nat) : (s.wm.keys.windows aw).onKey = none := h.keyless aw
  unfold keyEvent Desktop.desktopKey Desktop.toHandler
  rw [hactive]
  cases s.wm.activeWin with
  | none => split <;> rfl
  | some aw =>
      dsimp only
      rw [hkey, h.keyless, hflags]
      split
      · -- the Escape key
        have hclose : Desktop.winFlagCloseable = winFlagCloseable := rfl
        rw [hclose]
        by_cases hcloseable : (s.wm.windows aw).flags &&& winFlagCloseable ≠ 0
        · rw [if_pos hcloseable, if_pos hcloseable]
          exact keys_wmDestroyWindow aw s.wm
        · rw [if_neg hcloseable, if_neg hcloseable]
      · rfl

/-! ## Where there is no room -/

/-- A window of this opener is added behind the others, and nothing else happens to the
windows. -/
structure AddsOne (o : Opener) (wm wm' : Wm) : Prop where
  count : wm'.winCount = wm.winCount + 1
  others : ∀ win < wm.winCount, wm'.windows win = wm.windows win
  paint : (wm'.windows wm.winCount).onPaint = some o.paint
  order : wm'.zOrder = wm.zOrder ++ [wm.winCount]

/-- The windows, their order and the active one are what they were. -/
structure Untouched (wm wm' : Wm) : Prop where
  count : wm'.winCount = wm.winCount
  windows : ∀ win < wm.winCount, wm'.windows win = wm.windows win
  order : wm'.zOrder = wm.zOrder
  active : wm'.activeWin = wm.activeWin

/-- An opener adds a window, or leaves a full desktop as it is. -/
def Opens (o : Opener) (wm : Wm) : Prop :=
  AddsOne o wm (o.open wm) ∨ wm.winCount = winMaxWindows ∧ Untouched wm (o.open wm)

/-- There is room for a window, or the opener looks at what it is given, or the active window
has its paint callback anyway. -/
def Careful (o : Opener) (wm : Wm) : Prop :=
  wm.winCount < winMaxWindows ∨ o = .programManager ∨
    ∃ win, wm.activeWin = some win ∧ (wm.windows win).onPaint = some o.paint

/-- A window that is given its paint callback behind its creation. -/
theorem addsOne_assign (title : List UInt8) (x y w h : Int32) (flags : UInt32)
    (hroom : wm.winCount < winMaxWindows) {f : GUIWindow → GUIWindow}
    (hpaint : ∀ w, (f w).onPaint = some o.paint) :
    AddsOne o wm ((wmCreateWindow title x y w h flags wm).2.assign wm.winCount f) := by
  rcases wmCreateWindow_some (wmCreateWindow_of_room title x y w h flags hroom) with
    ⟨-, hcount, -, hothers⟩
  constructor
  · exact hcount
  · intro win hwin
    rw [windows_assign_of_ne f hwin.ne]
    exact hothers win hwin.ne
  · rw [windows_assign_self]
    exact hpaint _
  · exact zOrder_wmCreateWindow title x y w h flags hroom

theorem paintActive_of_some (paint : Nat) (h : wm.activeWin = some win) :
    paintActive paint wm = wm.assign win fun w => { w with onPaint := some paint } := by
  unfold paintActive
  rw [h]

/-- The openers that go through the active window. -/
theorem Opener.open_eq (ho : o ≠ .programManager) : ∃ title x y w h flags, ∀ wm,
    o.open wm = paintActive o.paint (wmCreateWindow title x y w h flags wm).2 := by
  cases o with
  | programManager => exact absurd rfl ho
  | about => exact ⟨_, _, _, _, _, _, fun _ => rfl⟩
  | info => exact ⟨_, _, _, _, _, _, fun _ => rfl⟩
  | shell => exact ⟨_, _, _, _, _, _, fun _ => rfl⟩

theorem addsOne_of_room (o : Opener) (hroom : wm.winCount < winMaxWindows) :
    AddsOne o wm (o.open wm) := by
  by_cases ho : o = .programManager
  · subst ho
    change AddsOne _ wm (openProgramManager wm)
    unfold openProgramManager
    rw [wmCreateWindow_of_room _ _ _ _ _ _ hroom]
    exact addsOne_assign _ _ _ _ _ _ hroom fun _ => rfl
  · rcases Opener.open_eq ho with ⟨title, x, y, w, h, flags, hopen⟩
    rw [hopen, paintActive_of_some _ (activeWin_wmCreateWindow title x y w h flags hroom)]
    exact addsOne_assign _ _ _ _ _ _ hroom fun _ => rfl

theorem AddsOne.not_full (h : AddsOne o wm (o.open wm)) (hmanaged : (o.open wm).Managed wm₀) :
    wm.winCount < winMaxWindows := by
  have hcount := hmanaged.count
  rw [h.count] at hcount
  exact hcount

/-- On a full desktop the program manager is not opened, and the active window is given the
paint callback of any other opener. -/
theorem untouched_iff_of_full (h : wm.Ordered) (hfull : wm.winCount = winMaxWindows) :
    Untouched wm (o.open wm) ↔ Careful o wm := by
  have hroom : ¬wm.winCount < winMaxWindows := by omega
  by_cases ho : o = .programManager
  · subst ho
    have hsame : openProgramManager wm = wm := by
      unfold openProgramManager
      rw [wmCreateWindow_of_full _ _ _ _ _ _ hroom]
    constructor
    · intro _
      exact .inr (.inl rfl)
    · intro _
      change Untouched wm (openProgramManager wm)
      rw [hsame]
      exact ⟨rfl, fun _ _ => rfl, rfl, rfl⟩
  · rcases Opener.open_eq ho with ⟨title, x, y, w, ht, flags, hopen⟩
    have hsome : wm.activeWin ≠ none := by
      intro hnone
      rw [h.idle.mp hnone] at hfull
      exact absurd hfull (by decide)
    rcases Option.ne_none_iff_exists'.mp hsome with ⟨top, hactive⟩
    have htop := h.activeWin_lt hactive
    rw [hopen, wmCreateWindow_of_full _ _ _ _ _ _ hroom, paintActive_of_some _ hactive]
    unfold Careful
    simp only [hroom, ho, hactive, false_or, Option.some.injEq, exists_eq_left']
    constructor
    · intro huntouched
      have hpainted := huntouched.windows top htop
      rw [windows_assign_self] at hpainted
      rw [← hpainted]
    · intro hpaint
      constructor
      · rfl
      · intro win _
        by_cases hwin : win = top
        · rw [hwin, windows_assign_self, ← hpaint]
        · rw [windows_assign_of_ne _ hwin]
      · rfl
      · rfl

theorem opens_iff_of_managed (h : wm.Managed wm₀) (o : Opener) : Opens o wm ↔ Careful o wm := by
  by_cases hroom : wm.winCount < winMaxWindows
  · exact iff_of_true (.inl (addsOne_of_room o hroom)) (.inl hroom)
  · have hfull : wm.winCount = winMaxWindows := Nat.le_antisymm h.count (Nat.not_lt.mp hroom)
    rw [← untouched_iff_of_full (ordered_of_run h.run) hfull]
    constructor
    · rintro (hadds | ⟨-, huntouched⟩)
      · exact absurd (hadds.not_full (h.open o)) hroom
      · exact huntouched
    · intro huntouched
      exact .inr ⟨hfull, huntouched⟩

/-- In every state of the desktop, between two events or behind a click that has raised a
window, an opener adds a window or leaves a full desktop as it is exactly if there is room for
a window, or it is the one for the program manager, or the active window is painted by its
callback already. -/
theorem opens_iff (handlers : Nat → Nat → Char → Wm → Wm) (sh : Int32) (wm : Wm) (left : Bool)
    (events : List DesktopEvent) (o : Opener) :
    (Opens o (desktopRun handlers sh wm left events).wm ↔
        Careful o (desktopRun handlers sh wm left events).wm) ∧
      ∀ hit, Opens o (wmBringToFront hit (desktopRun handlers sh wm left events).wm) ↔
        Careful o (wmBringToFront hit (desktopRun handlers sh wm left events).wm) := by
  have hmanaged := managed_desktopRun handlers sh wm left events
  constructor
  · exact opens_iff_of_managed hmanaged o
  · intro hit
    exact opens_iff_of_managed (hmanaged.bringToFront hit) o

/-! ## A desktop that is full -/

/-- The button of the mouse is pressed and released here. -/
def clickAt (x y : Int32) : List DesktopEvent := [.mouse x y true, .mouse x y false]

/-- The start menu is opened, and its first item is chosen, so many times. -/
def choosePrograms : Nat → List DesktopEvent
  | 0 => []
  | n + 1 => choosePrograms n ++ (clickAt 30 750 ++ clickAt 40 610)

/-- The desktop on a screen of 1024 by 768, with so many more program managers. -/
def crowded (n : Nat) : DesktopState :=
  desktopRun (fun _ _ _ wm => wm) 768 .boot false (choosePrograms n)

theorem crowded_full : (crowded 15).wm.winCount = 16 ∧ (crowded 15).wm.activeWin = some 15 ∧
    ((crowded 15).wm.windows 15).onPaint = some pmPaint := by
  decide +kernel

/-- The program manager on top of the full desktop is painted as the box with the version. -/
theorem painted_over :
    ¬∀ (handlers : Nat → Nat → Char → Wm → Wm) (sh : Int32) (wm : Wm) (left : Bool)
      (events : List DesktopEvent) (o : Opener),
      Opens o (desktopRun handlers sh wm left events).wm := by
  intro h
  have hopens : Opens .about (crowded 15).wm := h ..
  have hmanaged : (crowded 15).wm.Managed .boot := managed_desktopRun ..
  rw [opens_iff_of_managed hmanaged] at hopens
  rcases crowded_full with ⟨hcount, hactive, hpaint⟩
  rcases hopens with hroom | hopener | ⟨win, hwin, hpainted⟩
  · rw [hcount] at hroom
    exact absurd hroom (by decide)
  · cases hopener
  · rw [hactive, Option.some.injEq] at hwin
    rw [← hwin, hpaint] at hpainted
    exact absurd hpainted (by decide)

end PolandOS.Gui
