import Mathlib.Data.List.Basic
import PolandOS.Lib.RingQueue
import PolandOS.Machine

/-! # The keyboard driver

`kb_irq_handler` and the ring of characters of `kernel/drivers/keyboard.c`, and the key
presses and releases that a keyboard sends as scancodes.
-/

namespace PolandOS.Keyboard

open RingQueue

/-! ## Scancodes and characters -/

/-- `scan_to_ascii`; the rows behind the last one are zero. -/
def scanToAscii : List Char :=
  ['\x00', '\x1b', '1', '2', '3', '4', '5', '6',
   '7', '8', '9', '0', '-', '=', '\x08', '\t',
   'q', 'w', 'e', 'r', 't', 'y', 'u', 'i',
   'o', 'p', '[', ']', '\n', '\x00', 'a', 's',
   'd', 'f', 'g', 'h', 'j', 'k', 'l', ';',
   '\x27', '\x60', '\x00', '\x5c', 'z', 'x', 'c', 'v',
   'b', 'n', 'm', ',', '.', '/', '\x00', '*',
   '\x00', ' ', '\x00', '\x00', '\x00', '\x00', '\x00', '\x00',
   '\x00', '\x00', '\x00', '\x00', '\x00', '\x00', '\x00', '7',
   '8', '9', '-', '4', '5', '6', '+', '1',
   '2', '3', '0', '.', '\x00', '\x00', '\x00', '\x00']

/-- `scan_to_ascii_shift`. -/
def scanToAsciiShift : List Char :=
  ['\x00', '\x1b', '!', '@', '#', '$', '%', '^',
   '&', '*', '(', ')', '_', '+', '\x08', '\t',
   'Q', 'W', 'E', 'R', 'T', 'Y', 'U', 'I',
   'O', 'P', '\x7b', '\x7d', '\n', '\x00', 'A', 'S',
   'D', 'F', 'G', 'H', 'J', 'K', 'L', ':',
   '\x22', '~', '\x00', '|', 'Z', 'X', 'C', 'V',
   'B', 'N', 'M', '<', '>', '?', '\x00', '*',
   '\x00', ' ', '\x00', '\x00', '\x00', '\x00', '\x00', '\x00',
   '\x00', '\x00', '\x00', '\x00', '\x00', '\x00', '\x00', '7',
   '8', '9', '-', '4', '5', '6', '+', '1',
   '2', '3', '0', '.', '\x00', '\x00', '\x00', '\x00']

/-- `KB_BUFFER_SIZE`. -/
def kbBufferSize : Nat := 256

/-- The first character of what an arrow key sends, and the one of the Escape key. -/
def esc : Char := '\x1b'

/-- `shift_held`, `caps_lock` and `e0_prefix`. -/
structure Modifiers where
  shiftHeld : Bool
  capsLock : Bool
  e0Prefix : Bool
  deriving DecidableEq, Repr

/-- The state of the driver. -/
structure KbState where
  ring : RingBuf Char
  mods : Modifiers

/-- The driver after the boot. -/
def bootKb : KbState := ⟨⟨fun _ => '\x00', 0, 0⟩, ⟨false, false, false⟩⟩

/-- `kb_push`. -/
def kbPush (s : KbState) (c : Char) : KbState := { s with ring := s.ring.push kbBufferSize c }

/-- `kb_pop`. -/
def kbPop (s : KbState) : Option (Char × KbState) :=
  match s.ring.pop kbBufferSize with
  | none => none
  | some (c, ring) => some (c, { s with ring })

/-- The character of a key, with `shift_held` and `caps_lock`. -/
def keyChar (mods : Modifiers) (key : UInt8) : Char :=
  if mods.shiftHeld then scanToAsciiShift.getD key.toNat '\x00'
  else
    let c := scanToAscii.getD key.toNat '\x00'
    if mods.capsLock ∧ c ≥ 'a' ∧ c ≤ 'z' then Char.ofNat (c.toNat - 32) else c

/-- `kb_irq_handler`, on the scancode that the data port gives. -/
def kbIrqHandler (s : KbState) (sc : UInt8) : KbState :=
  if sc = 0xE0 then { s with mods := { s.mods with e0Prefix := true } }
  else
    let released := sc &&& 0x80 != 0
    let key := sc &&& 0x7F
    if s.mods.e0Prefix then
      let s := { s with mods := { s.mods with e0Prefix := false } }
      if !released then
        let s := if key = 0x48 then kbPush (kbPush (kbPush s esc) '[') 'A' else s
        let s := if key = 0x50 then kbPush (kbPush (kbPush s esc) '[') 'B' else s
        let s := if key = 0x4D then kbPush (kbPush (kbPush s esc) '[') 'C' else s
        let s := if key = 0x4B then kbPush (kbPush (kbPush s esc) '[') 'D' else s
        if key = 0x1C then kbPush s '\n' else s
      else s
    else if key = 0x2A ∨ key = 0x36 then
      { s with mods := { s.mods with shiftHeld := !released } }
    else if key = 0x3A ∧ !released then
      { s with mods := { s.mods with capsLock := !s.mods.capsLock } }
    else if !released ∧ key < 128 then
      let c := keyChar s.mods key
      if c ≠ '\x00' then kbPush s c else s
    else s

/-! ## What a scancode does -/

/-- The characters of an extended key. -/
def extendedChars (key : UInt8) : List Char :=
  if key = 0x48 then [esc, '[', 'A']
  else if key = 0x50 then [esc, '[', 'B']
  else if key = 0x4D then [esc, '[', 'C']
  else if key = 0x4B then [esc, '[', 'D']
  else if key = 0x1C then ['\n']
  else []

/-- The characters that a scancode gives. -/
def scanChars (mods : Modifiers) (sc : UInt8) : List Char :=
  if sc = 0xE0 ∨ sc &&& 0x80 ≠ 0 then []
  else if mods.e0Prefix then extendedChars (sc &&& 0x7F)
  else if sc &&& 0x7F = 0x2A ∨ sc &&& 0x7F = 0x36 ∨ sc &&& 0x7F = 0x3A then []
  else if keyChar mods (sc &&& 0x7F) = '\x00' then []
  else [keyChar mods (sc &&& 0x7F)]

/-- What a scancode leaves of the modifiers. -/
def scanMods (mods : Modifiers) (sc : UInt8) : Modifiers :=
  if sc = 0xE0 then { mods with e0Prefix := true }
  else if mods.e0Prefix then { mods with e0Prefix := false }
  else if sc &&& 0x7F = 0x2A ∨ sc &&& 0x7F = 0x36 then
    { mods with shiftHeld := sc &&& 0x80 = 0 }
  else if sc &&& 0x7F = 0x3A ∧ sc &&& 0x80 = 0 then { mods with capsLock := !mods.capsLock }
  else mods

/-- The handler pushes the characters of a scancode and updates the modifiers, and the two do
not disturb each other. -/
theorem kbIrqHandler_eq (s : KbState) (sc : UInt8) :
    kbIrqHandler s sc =
      ⟨(scanChars s.mods sc).foldl (RingBuf.push kbBufferSize) s.ring, scanMods s.mods sc⟩ := by
  have hkey : sc &&& 0x7F < 128 := by
    rw [UInt8.lt_iff_toNat_lt, UInt8.toNat_and]
    exact Nat.lt_of_le_of_lt Nat.and_le_right (by decide)
  unfold kbIrqHandler scanChars scanMods
  rcases s with ⟨ring, shiftHeld, capsLock, e0Prefix⟩
  by_cases hpre : sc = 0xE0
  · simp only [hpre, if_true, true_or, List.foldl_nil]
  generalize sc &&& 0x7F = key at hkey ⊢
  by_cases hreleased : sc &&& 0x80 = 0
  · cases e0Prefix with
    | true =>
        simp only [hpre, hreleased, bne_self_eq_false, Bool.not_false, if_true, if_false,
          false_or, ne_eq, not_true]
        unfold extendedChars
        -- each key of its own, as the source asks for all of them in turn
        by_cases hup : key = 0x48
        · simp [hup, kbPush]
        by_cases hdown : key = 0x50
        · simp [hdown, kbPush]
        by_cases hright : key = 0x4D
        · simp [hright, kbPush]
        by_cases hleft : key = 0x4B
        · simp [hleft, kbPush]
        by_cases henter : key = 0x1C
        · simp [henter, kbPush]
        simp only [hup, hdown, hright, hleft, henter, if_false, List.foldl_nil]
    | false =>
        simp only [hpre, hreleased, hkey, bne_self_eq_false, Bool.not_false, if_false, false_or,
          ne_eq, not_true, and_true, Bool.false_eq_true, decide_true]
        by_cases hshift : key = 0x2A ∨ key = 0x36
        · simp only [hshift, if_true, or_assoc.symm, true_or, List.foldl_nil]
        by_cases hcaps : key = 0x3A
        · subst hcaps
          rfl
        simp only [hcaps, (not_or.mp hshift).1, (not_or.mp hshift).2, or_self, if_true,
          if_false]
        by_cases hzero : keyChar ⟨shiftHeld, capsLock, false⟩ key = '\x00'
        · simp only [hzero, not_true, if_true, if_false, List.foldl_nil]
        · simp only [hzero, not_false_eq_true, if_true, if_false, List.foldl_cons, List.foldl_nil]
          rfl
  · have hbit : (sc &&& 0x80 != 0) = true := bne_iff_ne.mpr hreleased
    cases e0Prefix with
    | true => simp [hpre, hreleased, hbit]
    | false =>
        by_cases hshift : key = 0x2A ∨ key = 0x36
        · simp [hpre, hreleased, hbit, hshift]
        · simp [hpre, hreleased, hbit, hshift]

/-- A scancode of which all characters find room. -/
theorem kbIrqHandler_holds {s : KbState} {q : List Char} (h : Holds kbBufferSize s.ring q)
    (sc : UInt8) (hroom : q.length + (scanChars s.mods sc).length < kbBufferSize) :
    Holds kbBufferSize (kbIrqHandler s sc).ring (q ++ scanChars s.mods sc) := by
  rw [kbIrqHandler_eq]
  exact h.pushes _ hroom

theorem kbPop_nil {s : KbState} (h : Holds kbBufferSize s.ring []) : kbPop s = none := by
  unfold kbPop
  rw [h.pop_nil]

theorem kbPop_cons {s : KbState} {c : Char} {q : List Char}
    (h : Holds kbBufferSize s.ring (c :: q)) :
    ∃ ring, kbPop s = some (c, { s with ring }) ∧ Holds kbBufferSize ring q := by
  rcases h.pop_cons with ⟨ring, hpop, hrest⟩
  refine ⟨ring, ?_, hrest⟩
  unfold kbPop
  rw [hpop]

/-- The characters of some scancodes. -/
def scansChars (mods : Modifiers) : List UInt8 → List Char
  | [] => []
  | sc :: scs => scanChars mods sc ++ scansChars (scanMods mods sc) scs

theorem scansChars_append (mods : Modifiers) (scs scs' : List UInt8) :
    scansChars mods (scs ++ scs') =
      scansChars mods scs ++ scansChars (scs.foldl scanMods mods) scs' := by
  induction scs generalizing mods with
  | nil => rfl
  | cons sc scs ih =>
      change scanChars mods sc ++ scansChars _ (scs ++ scs') = _
      rw [ih, ← List.append_assoc]
      rfl

/-! ## Keys -/

/-- A key and the code that it sends, behind a prefix or not. There is no key with the
code of the prefix. -/
structure Key where
  extended : Bool
  code : UInt8
  code_lt : code < 0x80
  code_ne : code ≠ 0x60
  deriving DecidableEq

/-- A press or a release. -/
structure KeyEvent where
  key : Key
  pressed : Bool
  deriving DecidableEq

/-- What the keyboard sends. -/
def KeyEvent.scancodes (e : KeyEvent) : List UInt8 :=
  (if e.key.extended then [0xE0] else []) ++
    [if e.pressed then e.key.code else e.key.code ||| 0x80]

/-- The Escape key is pressed. -/
def KeyEvent.IsEscape (e : KeyEvent) : Prop :=
  e.pressed = true ∧ e.key.extended = false ∧ e.key.code = 0x01

instance (e : KeyEvent) : Decidable e.IsEscape :=
  inferInstanceAs (Decidable (_ ∧ _ ∧ _))

/-- The arrow keys. -/
inductive Arrow
  | up
  | down
  | right
  | left
  deriving DecidableEq, Repr

/-- The last character that an arrow key sends. -/
def Arrow.letter : Arrow → Char
  | up => 'A'
  | down => 'B'
  | right => 'C'
  | left => 'D'

/-- The arrow key that is pressed. -/
def KeyEvent.arrow (e : KeyEvent) : Option Arrow :=
  if e.pressed ∧ e.key.extended then
    if e.key.code = 0x48 then some .up
    else if e.key.code = 0x50 then some .down
    else if e.key.code = 0x4D then some .right
    else if e.key.code = 0x4B then some .left
    else none
  else none

/-- A character of a key other than Escape and the arrow keys. -/
def Typed (c : Char) : Prop := ' ' ≤ c ∧ c < '\x7f' ∨ c = '\x08' ∨ c = '\t' ∨ c = '\n'

instance (c : Char) : Decidable (Typed c) := inferInstanceAs (Decidable (_ ∨ _))

theorem Typed.ne_esc {c : Char} (h : Typed c) : c ≠ esc := by
  intro hesc
  rw [hesc] at h
  revert h
  decide

/-- Escape is no arrow key. -/
theorem KeyEvent.IsEscape.arrow_eq {e : KeyEvent} (h : e.IsEscape) : e.arrow = none := by
  unfold KeyEvent.arrow
  rw [h.2.1]
  exact if_neg fun h => Bool.false_ne_true h.2

theorem not_isEscape_of_arrow {e : KeyEvent} {a : Arrow} (h : e.arrow = some a) :
    ¬e.IsEscape := by
  intro hescape
  rw [hescape.arrow_eq] at h
  cases h

/-- What a key event may give: the Escape key its character, an arrow key three, and
every other event at most one. -/
inductive Gives (e : KeyEvent) : List Char → Prop
  | escape (h : e.IsEscape) : Gives e [esc]
  | arrow {a : Arrow} (h : e.arrow = some a) : Gives e [esc, '[', a.letter]
  | nothing (h : ¬e.IsEscape) (h' : e.arrow = none) : Gives e []
  | char {c : Char} (h : ¬e.IsEscape) (h' : e.arrow = none) (hc : Typed c) : Gives e [c]

/-- A statement about the codes below 0x80. -/
theorem of_code_lt {P : UInt8 → Prop} (h : ∀ n < 0x80, P (UInt8.ofNat n)) {code : UInt8}
    (hcode : code < 0x80) : P code := by
  have hlt := UInt8.lt_iff_toNat_lt.mp hcode
  have hp := h code.toNat hlt
  rwa [UInt8.ofNat_toNat] at hp

/-- A code is no prefix, and its highest bit is clear. -/
theorem Key.pressed_bits (k : Key) :
    k.code ≠ 0xE0 ∧ k.code &&& 0x80 = 0 ∧ k.code &&& 0x7F = k.code :=
  of_code_lt (P := fun c => c ≠ 0xE0 ∧ c &&& 0x80 = 0 ∧ c &&& 0x7F = c) (by decide) k.code_lt

theorem Key.released_bits (k : Key) : k.code ||| 0x80 ≠ 0xE0 ∧ (k.code ||| 0x80) &&& 0x80 ≠ 0 :=
  of_code_lt (P := fun c => c ≠ 0x60 → c ||| 0x80 ≠ 0xE0 ∧ (c ||| 0x80) &&& 0x80 ≠ 0) (by decide)
    k.code_lt k.code_ne

/-- The characters of the keys other than Escape. -/
theorem keyChar_typed (mods : Modifiers) {code : UInt8} (hcode : code < 0x80) (h : code ≠ 1)
    (hzero : keyChar mods code ≠ '\x00') : Typed (keyChar mods code) := by
  rcases mods with ⟨shiftHeld, capsLock, e0Prefix⟩
  revert h hzero
  refine of_code_lt (P := fun c => c ≠ 1 → keyChar ⟨shiftHeld, capsLock, e0Prefix⟩ c ≠ '\x00' →
    Typed (keyChar ⟨shiftHeld, capsLock, e0Prefix⟩ c)) ?_ hcode
  revert shiftHeld capsLock e0Prefix
  decide

theorem scanMods_e0Prefix {mods : Modifiers} {sc : UInt8} (hsc : sc ≠ 0xE0) :
    (scanMods mods sc).e0Prefix = false := by
  rcases mods with ⟨shiftHeld, capsLock, e0Prefix⟩
  unfold scanMods
  rw [if_neg hsc]
  cases e0Prefix with
  | true => rfl
  | false =>
      rw [if_neg Bool.false_ne_true]
      split
      · rfl
      · split <;> rfl

variable {mods : Modifiers}

/-- No prefix is left behind a key event. -/
theorem KeyEvent.e0Prefix_scanMods (e : KeyEvent) :
    (e.scancodes.foldl scanMods mods).e0Prefix = false := by
  have hlast : (if e.pressed then e.key.code else e.key.code ||| 0x80) ≠ 0xE0 := by
    split
    · exact e.key.pressed_bits.1
    · exact e.key.released_bits.1
  unfold KeyEvent.scancodes
  rw [List.foldl_append]
  exact scanMods_e0Prefix hlast

theorem scanChars_released (k : Key) : scanChars mods (k.code ||| 0x80) = [] :=
  if_pos (.inr k.released_bits.2)

theorem KeyEvent.released_isEscape {e : KeyEvent} (h : e.pressed = false) :
    ¬e.IsEscape ∧ e.arrow = none := by
  constructor
  · intro hescape
    rw [hescape.1] at h
    cases h
  · unfold KeyEvent.arrow
    rw [h, if_neg (by simp)]

theorem scansChars_extended (mods : Modifiers) (k : Key) :
    scansChars mods [0xE0, k.code] = extendedChars k.code := by
  rcases k.pressed_bits with ⟨hpre, hbit, hcode⟩
  change scanChars mods 0xE0 ++ (scanChars (scanMods mods 0xE0) k.code ++ []) = _
  have hmods : (scanMods mods 0xE0).e0Prefix = true := rfl
  unfold scanChars
  rw [if_pos (.inl rfl), if_neg (by simp [hpre, hbit]), hmods, if_pos rfl, hcode,
    List.append_nil, List.nil_append]

theorem extendedChars_gives {k : Key} (hextended : k.extended = true) :
    Gives ⟨k, true⟩ (extendedChars k.code) := by
  have hescape : ¬KeyEvent.IsEscape ⟨k, true⟩ := by
    intro h
    have hplain : k.extended = false := h.2.1
    rw [hextended] at hplain
    cases hplain
  have harrow : KeyEvent.arrow ⟨k, true⟩ =
      if k.code = 0x48 then some .up
      else if k.code = 0x50 then some .down
      else if k.code = 0x4D then some .right
      else if k.code = 0x4B then some .left
      else none := if_pos ⟨rfl, hextended⟩
  unfold extendedChars
  split_ifs at harrow ⊢ with hup hdown hright hleft henter
  · exact .arrow harrow
  · exact .arrow harrow
  · exact .arrow harrow
  · exact .arrow harrow
  · exact .char hescape harrow (by decide)
  · exact .nothing hescape harrow

/-- What a press of a key without the prefix gives, by its row of the table. -/
theorem plainChars_gives {k : Key} (hextended : k.extended = false)
    (hmods : mods.e0Prefix = false) : Gives ⟨k, true⟩ (scanChars mods k.code) := by
  rcases k.pressed_bits with ⟨hpre, hbit, hcode⟩
  have harrow : KeyEvent.arrow ⟨k, true⟩ = none := by
    unfold KeyEvent.arrow
    rw [hextended, if_neg (by simp)]
  have hchars : scanChars mods k.code =
      if k.code = 0x2A ∨ k.code = 0x36 ∨ k.code = 0x3A then []
      else if keyChar mods k.code = '\x00' then [] else [keyChar mods k.code] := by
    unfold scanChars
    rw [if_neg (by simp [hpre, hbit]), hmods, if_neg Bool.false_ne_true, hcode]
  rw [hchars]
  by_cases hone : k.code = 1
  · have hkey : keyChar mods 1 = esc := by
      rcases mods with ⟨shiftHeld, capsLock, e0Prefix⟩
      cases shiftHeld
      · cases capsLock <;> rfl
      · rfl
    rw [hone, if_neg (by decide), hkey, if_neg (by decide)]
    exact .escape ⟨rfl, hextended, hone⟩
  · have hescape : ¬KeyEvent.IsEscape ⟨k, true⟩ := fun h => hone h.2.2
    split_ifs with hmodifier hzero
    · exact .nothing hescape harrow
    · exact .nothing hescape harrow
    · exact .char hescape harrow (keyChar_typed mods k.code_lt hone hzero)

/-- What a key event gives, whatever the modifiers are. -/
theorem KeyEvent.gives (e : KeyEvent) (hmods : mods.e0Prefix = false) :
    Gives e (scansChars mods e.scancodes) := by
  rcases e with ⟨k, pressed⟩
  unfold KeyEvent.scancodes
  cases pressed with
  | true =>
      cases hextended : k.extended with
      | true =>
          have hgives := extendedChars_gives hextended
          rwa [← scansChars_extended mods] at hgives
      | false =>
          have hgives := plainChars_gives hextended hmods
          rwa [← List.append_nil (scanChars mods k.code)] at hgives
  | false =>
      have hreleased := KeyEvent.released_isEscape (e := ⟨k, false⟩) rfl
      have hnone : scansChars mods ((if k.extended = true then [0xE0] else []) ++
          [k.code ||| 0x80]) = [] := by
        rw [scansChars_append]
        change _ ++ (scanChars _ _ ++ []) = []
        rw [scanChars_released]
        cases k.extended <;> rfl
      have hgives := Gives.nothing hreleased.1 hreleased.2
      rwa [← hnone] at hgives

/-- The key events with what each of them gives. -/
def keyChars (mods : Modifiers) : List KeyEvent → List (KeyEvent × List Char)
  | [] => []
  | e :: es => (e, scansChars mods e.scancodes) :: keyChars (e.scancodes.foldl scanMods mods) es

theorem flatMap_keyChars (es : List KeyEvent) :
    (keyChars mods es).flatMap Prod.snd = scansChars mods (es.flatMap KeyEvent.scancodes) := by
  induction es generalizing mods with
  | nil => rfl
  | cons e es ih => rw [List.flatMap_cons, scansChars_append, ← ih, keyChars, List.flatMap_cons]

theorem keyChars_gives (hmods : mods.e0Prefix = false) (es : List KeyEvent) :
    ∀ p ∈ keyChars mods es, Gives p.1 p.2 := by
  induction es generalizing mods with
  | nil => exact fun p hp => (by cases hp)
  | cons e es ih =>
      intro p hp
      rcases List.mem_cons.mp hp with rfl | hp
      · exact e.gives hmods
      · exact ih e.e0Prefix_scanMods p hp

end PolandOS.Keyboard
