import PolandOS.Drivers.KeyReader

/-! # The desktop and its keys

The window manager of `kernel/gui/window.c` as far as keys reach it, and the keyboard part
of the loop of `desktop_run` in `kernel/gui/desktop.c`.
-/

namespace PolandOS.Desktop

open Keyboard

/-! ## Windows -/

/-- `WIN_FLAG_CLOSEABLE`. -/
def winFlagCloseable : UInt32 := 0x08

/-- A window, with the number of its `on_key` handler if it has one. -/
structure GuiWindow where
  flags : UInt32
  id : UInt32
  onKey : Option Nat
  deriving DecidableEq, Repr

/-- The pool of windows, the Z-order, the number of windows, and the slot of the active
one. -/
structure Wm where
  windows : Nat → GuiWindow
  winOrder : Nat → Nat
  winCount : Nat
  activeWin : Option Nat

/-- `wm_destroy_window`, on the window in a slot. -/
def wmDestroyWindow (wm : Wm) (idx : Nat) : Wm :=
  if idx < wm.winCount then
    let winCount := wm.winCount - 1
    { windows := fun i => if idx ≤ i ∧ i < winCount then wm.windows (i + 1) else wm.windows i
      winOrder := fun i => if i < winCount then i else wm.winOrder i
      winCount
      activeWin := if winCount > 0 then some (winCount - 1) else none }
  else wm

/-- The windows, in the order of their slots. -/
def Wm.shown (wm : Wm) : List GuiWindow := (List.range wm.winCount).map wm.windows

/-- The window in a slot goes, and those behind it move down. -/
theorem shown_wmDestroyWindow {wm : Wm} {idx : Nat} (h : idx < wm.winCount) :
    (wmDestroyWindow wm idx).shown = wm.shown.eraseIdx idx := by
  unfold wmDestroyWindow
  rw [if_pos h]
  refine List.ext_getElem ?_ fun i hi hi' => ?_
  · simp only [Wm.shown, List.length_map, List.length_range, List.length_eraseIdx, if_pos h]
  · simp only [Wm.shown, List.length_map, List.length_range] at hi
    rw [List.getElem_eraseIdx]
    simp only [Wm.shown, List.getElem_map, List.getElem_range]
    by_cases hidx : i < idx
    · rw [dif_pos hidx, if_neg (by omega)]
    · rw [dif_neg hidx, if_pos (by omega)]

/-! ## Keys -/

/-- The key goes to the handler of the active window, if it has one. -/
def toHandler (handlers : Nat → Nat → Char → Wm → Wm) (wm : Wm) (key : Char) : Wm :=
  match wm.activeWin with
  | some aw =>
    match (wm.windows aw).onKey with
    | some handler => handlers handler aw key wm
    | none => wm
  | none => wm

/-- The keyboard part of the loop, behind a `kb_poll` that gave a key. -/
def desktopKey (handlers : Nat → Nat → Char → Wm → Wm) (wm : Wm) (key : Char) : Wm :=
  if key = esc then
    match wm.activeWin with
    | some aw =>
      if (wm.windows aw).flags &&& winFlagCloseable ≠ 0 then wmDestroyWindow wm aw else wm
    | none => wm
  else toHandler handlers wm key

/-- `desktop_run` as a program that reads keys. In each round it looks once into the ring; the
other parts of a round may change the windows in any way. It notes the windows before and after
each character. -/
def desktopRun (handlers : Nat → Nat → Char → Wm → Wm) : Reader Wm (Wm → Wm) (Wm × Wm) where
  waits _ := true
  read wm key := (desktopKey handlers wm key, (wm, desktopKey handlers wm key))
  other f wm := f wm

/-! ## The Escape action -/

/-- The active window is in this slot, and it can be closed. -/
structure Wm.Closeable (wm : Wm) (aw : Nat) : Prop where
  active : wm.activeWin = some aw
  slot : aw < wm.winCount
  flags : (wm.windows aw).flags &&& winFlagCloseable ≠ 0

/-- The Escape action: the active window is gone, if it could be closed, and the last one of the
others is active. -/
structure EscapeDone (before after : Wm) : Prop where
  closed : ∀ aw, before.Closeable aw → after.shown = before.shown.eraseIdx aw ∧
    after.activeWin = if after.winCount > 0 then some (after.winCount - 1) else none
  kept : (∀ aw, ¬before.Closeable aw) → after = before

/-- No Escape action: the first character of an arrow key does nothing, and any other character
goes to the handler of the active window. -/
def Undisturbed (handlers : Nat → Nat → Char → Wm → Wm) (c : Char) (n : Wm × Wm) : Prop :=
  n.2 = if c = esc then n.1 else toHandler handlers n.1 c

/-- The Escape action is done once for each press of the Escape key, and not for any
other key. -/
def EscapeOnce (handlers : Nat → Nat → Char → Wm → Wm) (hs : List (Handled (Wm × Wm))) : Prop :=
  ∀ h ∈ hs, if h.event.IsEscape then ∃ n, h.notes = [n] ∧ EscapeDone n.1 n.2
    else List.Forall₂ (Undisturbed handlers) h.chars h.notes

/-- Where the first character of an arrow key is read, no window can be closed. -/
def ArrowsSpare (hs : List (Handled (Wm × Wm))) : Prop :=
  ∀ h ∈ hs, h.event.arrow ≠ none → ∀ n ∈ h.notes.head?, ∀ aw, ¬n.1.Closeable aw

variable {handlers : Nat → Nat → Char → Wm → Wm} {wm : Wm} {c : Char}

/-- What the character of the Escape key does, where the active window can be closed. -/
theorem desktopKey_closeable {aw : Nat} (h : wm.Closeable aw) :
    desktopKey handlers wm esc = wmDestroyWindow wm aw := by
  unfold desktopKey
  rw [if_pos rfl, h.active]
  exact if_pos h.flags

/-- And where it cannot. -/
theorem desktopKey_not_closeable (h : ∀ aw, ¬wm.Closeable aw) :
    desktopKey handlers wm esc = wm := by
  unfold desktopKey
  rw [if_pos rfl]
  cases hactive : wm.activeWin with
  | none => rfl
  | some aw =>
      dsimp only
      by_cases hflags : (wm.windows aw).flags &&& winFlagCloseable ≠ 0
      · rw [if_pos hflags]
        exact if_neg fun hslot => h aw ⟨hactive, hslot, hflags⟩
      · exact if_neg hflags

theorem escapeDone_desktopKey (handlers : Nat → Nat → Char → Wm → Wm) (wm : Wm) :
    EscapeDone wm (desktopKey handlers wm esc) where
  closed aw h := by
    rw [desktopKey_closeable h]
    refine ⟨shown_wmDestroyWindow h.slot, ?_⟩
    unfold wmDestroyWindow
    rw [if_pos h.slot]
  kept := desktopKey_not_closeable

/-- A window is destroyed, or none can be. -/
theorem undisturbed_esc_iff :
    Undisturbed handlers esc (wm, desktopKey handlers wm esc) ↔ ∀ aw, ¬wm.Closeable aw := by
  unfold Undisturbed
  rw [if_pos rfl]
  constructor
  · intro heq aw h
    have hcount : (wmDestroyWindow wm aw).winCount = wm.winCount - 1 := by
      unfold wmDestroyWindow
      rw [if_pos h.slot]
    have hslot := h.slot
    rw [desktopKey_closeable h] at heq
    dsimp only at heq
    rw [heq] at hcount
    omega
  · intro hnot
    change desktopKey handlers wm esc = wm
    exact desktopKey_not_closeable hnot

theorem undisturbed_of_ne (h : c ≠ esc) :
    Undisturbed handlers c (wm, desktopKey handlers wm c) := by
  unfold Undisturbed desktopKey
  rw [if_neg h, if_neg h]

theorem undisturbed_all {cs : List Char} {notes : List (Wm × Wm)} (hcs : ∀ c ∈ cs, c ≠ esc)
    (h : List.Forall₂ (fun c n => n.2 = desktopKey handlers n.1 c) cs notes) :
    List.Forall₂ (Undisturbed handlers) cs notes := by
  refine ((List.forall₂_and_left _ _).mpr ⟨hcs, h⟩).imp ?_
  rintro c ⟨before, after⟩ ⟨hne, hafter⟩
  dsimp only at hafter
  rw [hafter]
  exact undisturbed_of_ne hne

/-- The Escape key gives one character, for which the Escape action is done. -/
theorem escapeDone_once {cs : List Char} {notes : List (Wm × Wm)} (hcs : cs <+: [esc])
    (hread : cs ≠ [])
    (h : List.Forall₂ (fun c n => n.2 = desktopKey handlers n.1 c) cs notes) :
    ∃ n, notes = [n] ∧ EscapeDone n.1 n.2 := by
  have hone : cs = [esc] := by
    rcases List.prefix_cons_iff.mp hcs with hnil | ⟨rest, rfl, hrest⟩
    · exact absurd hnil hread
    · rw [List.prefix_nil.mp hrest]
  rw [hone] at h
  rcases h with _ | ⟨hn, hrest⟩
  rename_i n ns
  cases hrest
  refine ⟨n, rfl, ?_⟩
  rw [hn]
  exact escapeDone_desktopKey handlers n.1

/-- An arrow key disturbs nothing exactly if no window can be closed at its first character. -/
theorem undisturbed_arrow_iff (a : Arrow) {cs : List Char} {notes : List (Wm × Wm)}
    (hcs : cs <+: [esc, '[', a.letter]) (hread : cs ≠ [])
    (h : List.Forall₂ (fun c n => n.2 = desktopKey handlers n.1 c) cs notes) :
    List.Forall₂ (Undisturbed handlers) cs notes ↔
      ∀ n ∈ notes.head?, ∀ aw, ¬n.1.Closeable aw := by
  -- behind the Escape character of an arrow key there is none
  have hnone : ∀ c ∈ ['[', a.letter], c ≠ esc := by
    rw [List.forall_mem_cons, List.forall_mem_singleton]
    cases a <;> exact ⟨by decide, by decide⟩
  cases h with
  | nil => exact absurd rfl hread
  | cons hn hrest =>
      rename_i c n cs ns
      obtain ⟨rfl, htail⟩ := List.cons_prefix_cons.mp hcs
      have hothers := undisturbed_all (fun c hc => hnone c (htail.subset hc)) hrest
      rcases n with ⟨before, after⟩
      dsimp only at hn
      subst hn
      rw [List.forall₂_cons, undisturbed_esc_iff, and_iff_left hothers]
      simp

/-- The key events of which a run of the desktop has read characters. -/
def desktopHandled (handlers : Nat → Nat → Char → Wm → Wm) (kb : KbState) (wm : Wm)
    (es : List KeyEvent) (steps : List (KeyStep (Wm → Wm))) : List (Handled (Wm × Wm)) :=
  touched (keyChars kb.mods es)
    (((desktopRun handlers).run ⟨kb, wm, []⟩ steps).log.map Prod.snd)

/-- In every state of every run, the Escape action is done once for each press of the Escape key
and for no other key exactly if no window can be closed where an arrow key comes. -/
theorem escapeOnce_iff {kb : KbState} (hkb : kb.Idle) {es : List KeyEvent}
    {steps : List (KeyStep (Wm → Wm))} (h : Fed (desktopRun handlers) ⟨kb, wm, []⟩ es steps) :
    EscapeOnce handlers (desktopHandled handlers kb wm es steps) ↔
      ArrowsSpare (desktopHandled handlers kb wm es steps) := by
  rcases h.reads hkb with ⟨hreads, hpre⟩
  have hnotes := hreads.forall_log (P := fun c n => n.2 = desktopKey handlers n.1 c)
    fun _ _ => rfl
  have htouched := touched_forall₂ (P := fun c n => n.2 = desktopKey handlers n.1 c) hnotes hpre
  refine forall₂_congr fun h hh => ?_
  rcases htouched h hh with ⟨cs, hmem, hchars, hread, hforall⟩
  have hgives := keyChars_gives hkb.noPrefix _ _ hmem
  rcases h with ⟨e, chars, notes⟩
  dsimp only at hgives hchars hread hforall ⊢
  cases hgives with
  | escape hescape =>
      rw [if_pos hescape, hescape.arrow_eq]
      refine iff_of_true ?_ fun hne => absurd rfl hne
      exact escapeDone_once hchars (hread (List.cons_ne_nil _ _)) hforall
  | arrow harrow =>
      rename_i a
      rw [if_neg (not_isEscape_of_arrow harrow), harrow,
        undisturbed_arrow_iff a hchars (hread (List.cons_ne_nil _ _)) hforall]
      exact (imp_iff_right (Option.some_ne_none a)).symm
  | nothing hescape harrow =>
      rw [if_neg hescape, harrow]
      cases List.prefix_nil.mp hchars
      cases hforall
      exact iff_of_true .nil fun hne => absurd rfl hne
  | char hescape harrow htyped =>
      rw [if_neg hescape, harrow]
      refine iff_of_true (undisturbed_all (fun d hd => ?_) hforall) fun hne => absurd rfl hne
      rw [List.mem_singleton.mp (hchars.subset hd)]
      exact htyped.ne_esc

end PolandOS.Desktop
