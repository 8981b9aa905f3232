import PolandOS.Gui.Desktop
import PolandOS.Shell.Readline

/-! # The keyboard and its readers

An arrow key and the Escape key begin with the same character. `key_agreement` says when
the desktop and the shell take the one for the other: the desktop at an arrow key where a window
can be closed, and the shell at the key behind an Escape key.
-/

namespace PolandOS.Keyboard

open Desktop Shell

/-- The key events that a call of `shell_readline` has handled. -/
def shellHandled (hist : History) (maxlen : Nat) (kb : KbState) (es : List KeyEvent)
    (steps : List (KeyStep Empty)) : List (Handled (Option LineAction × Line)) :=
  handled (keyChars kb.mods es)
    (((shellReadline hist maxlen).run ⟨kb, .start, []⟩ steps).log.map Prod.snd)

/-- In the shell the keys do what they are meant to exactly if the Escape keys come in pairs. -/
theorem shell_interprets_iff {kb : KbState} (hkb : kb.Idle) {es : List KeyEvent} {hist : History}
    {maxlen : Nat} {steps : List (KeyStep Empty)}
    (h : Fed (shellReadline hist maxlen) ⟨kb, .start, []⟩ es steps) :
    Interpreted hist.lines maxlen Readline.start.line (shellHandled hist maxlen kb es steps) ↔
      EscapesPaired false (shellHandled hist maxlen kb es steps) := by
  rcases h.reads hkb with ⟨hreads, hpre⟩
  exact interpreted_iff hreads (keyChars_gives hkb.noPrefix es) hpre

/-- The desktop closes the active window once for each press of the Escape key, and for no other
key, exactly as long as no arrow key comes where a window can be closed; and in a call of
`shell_readline` every key does to the line what it is meant to exactly as long as no key but Tab
follows an odd number of Escape keys. -/
theorem key_agreement (kb : KbState) (hkb : kb.Idle) (es : List KeyEvent) :
    (∀ (handlers : Nat → Nat → Char → Wm → Wm) (wm : Wm) (steps : List (KeyStep (Wm → Wm))),
      Fed (desktopRun handlers) ⟨kb, wm, []⟩ es steps →
      (EscapeOnce handlers (desktopHandled handlers kb wm es steps) ↔
        ArrowsSpare (desktopHandled handlers kb wm es steps))) ∧
    ∀ (hist : History) (maxlen : Nat) (steps : List (KeyStep Empty)),
      Fed (shellReadline hist maxlen) ⟨kb, .start, []⟩ es steps →
      (Interpreted hist.lines maxlen Readline.start.line (shellHandled hist maxlen kb es steps) ↔
        EscapesPaired false (shellHandled hist maxlen kb es steps)) := by
  constructor
  · intro handlers wm steps h
    exact escapeOnce_iff hkb h
  · intro hist maxlen steps h
    exact shell_interprets_iff hkb h

theorem bootKb_idle : bootKb.Idle where
  empty := ⟨by decide, by decide, rfl, fun i a h => (by cases h)⟩
  noPrefix := rfl

def escapeKey : Key := ⟨false, 0x01, by decide, by decide⟩

def upKey : Key := ⟨true, 0x48, by decide, by decide⟩

def aKey : Key := ⟨false, 0x1E, by decide, by decide⟩

/-- A single closeable window without a handler. -/
def oneWindow : Wm := ⟨fun _ => ⟨0x0D, 1, none⟩, id, 1, some 0⟩

/-- The history is empty. -/
def noHistory : History := ⟨fun _ => [], 0, 0⟩

/-- There is one line in the history. -/
def oneLine : History := ⟨fun _ => ['l', 's'], 1, 1⟩

/-- The desktop with one window, and the handlers do nothing. -/
def oneWindowHandled (es : List KeyEvent) (steps : List (KeyStep (Wm → Wm))) :
    List (Handled (Wm × Wm)) :=
  desktopHandled (fun _ _ _ wm => wm) bootKb oneWindow es steps

/-- Escape is pressed and then the Up key. -/
def escapeThenUp : List KeyEvent := [⟨escapeKey, true⟩, ⟨upKey, true⟩]

theorem key_agreement_escape :
    EscapeOnce (fun _ _ _ wm => wm) (oneWindowHandled escapeThenUp
      [.irq 0x01, .poll, .irq 0xE0, .irq 0x48, .poll]) ∧
    Interpreted oneLine.lines 256 Readline.start.line
      (shellHandled oneLine 256 bootKb [⟨aKey, true⟩, ⟨upKey, true⟩]
        [.irq 0x1E, .poll, .irq 0xE0, .irq 0x48, .poll, .poll, .poll]) := by
  constructor
  · refine ((key_agreement bootKb bootKb_idle escapeThenUp).1 _ oneWindow _
      ⟨by decide, by decide⟩).mpr ?_
    have hnone : ∀ h ∈ oneWindowHandled escapeThenUp
        [.irq 0x01, .poll, .irq 0xE0, .irq 0x48, .poll],
        h.event.arrow ≠ none → ∀ n ∈ h.notes.head?, n.1.winCount = 0 := by decide
    intro h hh harrow n hn aw hclose
    have hslot := hclose.slot
    rw [hnone h hh harrow n hn] at hslot
    exact Nat.not_lt_zero aw hslot
  · refine ((key_agreement bootKb bootKb_idle [⟨aKey, true⟩, ⟨upKey, true⟩]).2 oneLine 256 _
      ⟨by decide, by decide⟩).mpr ?_
    decide

/-- An arrow key closes the window of the desktop, and a key behind Escape is lost in the
shell. -/
theorem arrow_taken_for_escape :
    ((desktopRun fun _ _ _ wm => wm).run ⟨bootKb, oneWindow, []⟩
        [.irq 0xE0, .irq 0x48, .poll]).state.winCount = 0 ∧
      ¬EscapeOnce (fun _ _ _ wm => wm)
        (oneWindowHandled [⟨upKey, true⟩] [.irq 0xE0, .irq 0x48, .poll]) ∧
      ¬Interpreted noHistory.lines 256 Readline.start.line
        (shellHandled noHistory 256 bootKb [⟨escapeKey, true⟩, ⟨aKey, true⟩]
          [.irq 0x01, .irq 0x1E, .poll, .poll]) := by
  refine ⟨by decide, ?_, ?_⟩
  · intro h
    have hcount : ∀ e ∈ oneWindowHandled [⟨upKey, true⟩] [.irq 0xE0, .irq 0x48, .poll],
        ¬e.event.IsEscape → ∀ p ∈ e.chars.zip e.notes, p.1 = esc →
          p.2.2.winCount = p.2.1.winCount := by
      intro e he hescape p hp hesc
      have hall := h e he
      rw [if_neg hescape] at hall
      have hsame : p.2.2 = _ := List.forall₂_zip hall hp
      rw [hsame, if_pos hesc]
    revert hcount
    decide
  · rintro ⟨-, -, htaken, -⟩
    revert htaken
    decide

end PolandOS.Keyboard
