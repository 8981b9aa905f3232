import PolandOS.Drivers.Keyboard
import PolandOS.Lib.Traces

/-! # The units of the keyboard

An arrow key gives three characters, which `kb_irq_handler` queues one by one, while a reader
may be anywhere in `kb_pop`. `atomic_iff`: the characters that are read belong to whole units
exactly if the ring has room for all of a unit or for nothing of it whenever one is queued.
-/

namespace PolandOS.Keyboard

open RingQueue Logging

/-! ## A reader in steps -/

/-- How far a reader is in `kb_pop`: not begun, the ring found not empty, or a character
taken from its slot. -/
inductive PopState
  | idle
  | found
  | fetched (c : Char)
  deriving DecidableEq, Repr

/-- An interrupt with a scancode, or the next step of the reader. -/
inductive KeyMove
  | irq (sc : UInt8)
  | next
  deriving DecidableEq, Repr

/-- One character, or the three of an arrow key; a scancode may also give nothing. -/
def IsUnit (unit : List Char) : Prop :=
  unit = [] ∨ (∃ c, unit = [c]) ∨ ∃ a : Arrow, unit = [esc, '[', a.letter]

/-- The driver and a reader that calls `kb_getchar` or `kb_poll` again and again, the
characters that it has read, and the units of the keys that had room. -/
structure UnitSystem where
  kb : KbState
  pop : PopState
  read : List Char
  kept : List (List Char)

namespace UnitSystem

/-- The slots that are left. One of them stays free. -/
def room (s : UnitSystem) : Nat := kbBufferSize - 1 - s.kb.ring.count kbBufferSize

/-- One step. The third step of `kb_pop` moves `kb_tail`. -/
def step (s : UnitSystem) : KeyMove → UnitSystem
  | .irq sc =>
    { s with
      kb := kbIrqHandler s.kb sc
      kept := if (scanChars s.kb.mods sc).length ≤ s.room then s.kept ++ [scanChars s.kb.mods sc]
        else s.kept }
  | .next =>
    match s.pop with
    | .idle => if s.kb.ring.tail = s.kb.ring.head then s else { s with pop := .found }
    | .found => { s with pop := .fetched (s.kb.ring.slots s.kb.ring.tail) }
    | .fetched c =>
      { s with
        kb := { s.kb with
          ring := { s.kb.ring with tail := (s.kb.ring.tail + 1) % kbBufferSize } }
        pop := .idle
        read := s.read ++ [c] }

/-- What is read, with what is still in the ring, is made of the units that had room, and
each of these is a unit. -/
def Atomic (s : UnitSystem) : Prop :=
  s.read ++ s.kb.ring.contents kbBufferSize = s.kept.flatten ∧ ∀ unit ∈ s.kept, IsUnit unit

/-- There is room for all of the unit that is queued, or for nothing of it. -/
def AllOrNone (s : UnitSystem) : KeyMove → Prop
  | .irq sc => (scanChars s.kb.mods sc).length ≤ s.room ∨ s.room = 0
  | .next => True

instance (s : UnitSystem) : ∀ m, Decidable (s.AllOrNone m)
  | .irq _ => inferInstanceAs (Decidable (_ ∨ _))
  | .next => inferInstanceAs (Decidable True)

/-- After the boot. -/
def boot : UnitSystem := ⟨bootKb, .idle, [], []⟩

/-! ## Steps -/

/-- A reader on its way knows the first character of the ring. -/
def Knows (q : List Char) : PopState → Prop
  | .idle => True
  | .found => q ≠ []
  | .fetched c => ∃ rest, q = c :: rest

theorem Knows.append {q as : List Char} {p : PopState} (h : Knows q p) : Knows (q ++ as) p := by
  cases p with
  | idle => trivial
  | found => exact List.append_ne_nil_of_left_ne_nil h as
  | fetched c =>
      rcases h with ⟨rest, rfl⟩
      exact ⟨rest ++ as, rfl⟩

/-- What holds of every state: the ring is in order, a reader on its way knows what comes
first, and only units are kept. -/
structure Sound (s : UnitSystem) : Prop where
  holds : Holds kbBufferSize s.kb.ring (s.kb.ring.contents kbBufferSize)
  knows : Knows (s.kb.ring.contents kbBufferSize) s.pop
  units : ∀ unit ∈ s.kept, IsUnit unit

variable {s : UnitSystem}

theorem Sound.of_holds {q : List Char} (h : Holds kbBufferSize s.kb.ring q)
    (hknows : Knows q s.pop) (hunits : ∀ unit ∈ s.kept, IsUnit unit) : s.Sound := by
  have heq := h.contents_eq
  exact ⟨by rwa [heq], by rwa [heq], hunits⟩

theorem isUnit_scanChars (mods : Modifiers) (sc : UInt8) : IsUnit (scanChars mods sc) := by
  unfold scanChars
  split
  · exact .inl rfl
  split
  · unfold extendedChars
    split_ifs
    · exact .inr (.inr ⟨.up, rfl⟩)
    · exact .inr (.inr ⟨.down, rfl⟩)
    · exact .inr (.inr ⟨.right, rfl⟩)
    · exact .inr (.inr ⟨.left, rfl⟩)
    · exact .inr (.inl ⟨'\n', rfl⟩)
    · exact .inl rfl
  split
  · exact .inl rfl
  split
  · exact .inl rfl
  · exact .inr (.inl ⟨_, rfl⟩)

theorem Sound.room_eq (hs : s.Sound) :
    s.room = kbBufferSize - 1 - (s.kb.ring.contents kbBufferSize).length := by
  unfold room
  rw [hs.holds.count_eq]

/-- What an interrupt puts into the ring. -/
theorem Sound.holds_irq (hs : s.Sound) (sc : UInt8) :
    Holds kbBufferSize (s.step (.irq sc)).kb.ring
      (s.kb.ring.contents kbBufferSize ++ (scanChars s.kb.mods sc).take s.room) := by
  have htake := hs.holds.pushes_take (scanChars s.kb.mods sc)
  rw [← hs.room_eq] at htake
  change Holds _ (kbIrqHandler s.kb sc).ring _
  rw [kbIrqHandler_eq]
  exact htake

/-- A step of the reader takes a character from the ring to those that are read, or leaves
both alone. -/
theorem Sound.next (hs : s.Sound) : ∃ q, Holds kbBufferSize (s.step .next).kb.ring q ∧
    Knows q (s.step .next).pop ∧
      (s.step .next).read ++ q = s.read ++ s.kb.ring.contents kbBufferSize := by
  rcases s with ⟨kb, pop, read, kept⟩
  rcases hs with ⟨hholds, hknows, -⟩
  dsimp only at hholds hknows ⊢
  generalize kb.ring.contents kbBufferSize = q at hholds hknows ⊢
  -- the three steps of a poll: is there a character, fetch it, move the head
  cases pop with
  | idle =>
      unfold step
      dsimp only
      split
      next => exact ⟨q, hholds, trivial, rfl⟩
      next hne =>
        refine ⟨q, hholds, ?_, rfl⟩
        rintro rfl
        have hpop := hholds.pop_nil
        unfold RingBuf.pop at hpop
        rw [if_neg hne] at hpop
        cases hpop
  | found =>
      match q, hknows with
      | [], hne => exact absurd rfl hne
      | c :: q, _ =>
          rcases hholds.pop_cons with ⟨ring, hpop, -⟩
          refine ⟨c :: q, hholds, ⟨q, ?_⟩, rfl⟩
          unfold RingBuf.pop at hpop
          split at hpop
          · cases hpop
          · cases hpop
            rfl
  | fetched c =>
      rcases hknows with ⟨rest, rfl⟩
      rcases hholds.pop_cons with ⟨ring, hpop, hrest⟩
      refine ⟨rest, ?_, trivial, List.append_assoc read [c] rest⟩
      unfold RingBuf.pop at hpop
      split at hpop
      · cases hpop
      · cases hpop
        exact hrest

theorem kept_next (s : UnitSystem) : (s.step .next).kept = s.kept := by
  unfold step
  dsimp only
  split
  · split <;> rfl
  · rfl
  · rfl

theorem Sound.step (hs : s.Sound) (m : KeyMove) : (s.step m).Sound := by
  cases m with
  | irq sc =>
      refine .of_holds (hs.holds_irq sc) hs.knows.append fun unit hunit => ?_
      unfold UnitSystem.step at hunit
      dsimp only at hunit
      split at hunit
      · rcases List.mem_append.mp hunit with hold | hnew
        · exact hs.units unit hold
        · rw [List.mem_singleton.mp hnew]
          exact isUnit_scanChars _ _
      · exact hs.units unit hunit
  | next =>
      rcases hs.next with ⟨q, hholds, hknows, -⟩
      refine .of_holds hholds hknows fun unit hunit => ?_
      rw [kept_next] at hunit
      exact hs.units unit hunit

/-- A step keeps the units whole exactly if there is room for all of a unit or for nothing
of it. -/
theorem Sound.atomic_step_iff (hs : s.Sound) (h : s.Atomic) (m : KeyMove) :
    (s.step m).Atomic ↔ s.AllOrNone m := by
  have hunits : ∀ unit ∈ (s.step m).kept, IsUnit unit := (hs.step m).units
  unfold Atomic at h ⊢
  rw [and_iff_left hunits]
  replace h := h.1
  cases m with
  | next =>
      rcases hs.next with ⟨q, hholds, -, hread⟩
      rw [hholds.contents_eq, hread, h, kept_next]
      exact ⟨fun _ => trivial, fun _ => rfl⟩
  | irq sc =>
      rw [(hs.holds_irq sc).contents_eq]
      unfold UnitSystem.step AllOrNone
      dsimp only
      generalize scanChars s.kb.mods sc = unit
      rw [← List.append_assoc, h]
      by_cases hfits : unit.length ≤ s.room
      · rw [if_pos hfits, List.take_of_length_le hfits, List.flatten_append, List.flatten_singleton]
        exact ⟨fun _ => .inl hfits, fun _ => rfl⟩
      · rw [if_neg hfits, List.append_right_eq_self, List.take_eq_nil_iff]
        constructor
        · rintro (hroom | rfl)
          · exact .inr hroom
          · exact absurd (Nat.zero_le _) hfits
        · rintro (hle | hroom)
          · exact absurd hle hfits
          · exact .inl hroom

theorem sound_boot : boot.Sound :=
  .of_holds (q := []) ⟨by decide, by decide, rfl, fun i a h => by cases h⟩ trivial
    fun _ h => by cases h

/-- For all scancodes and every interleaving with the readers: the characters that are read
are, in order, those of the units that had room, each of them whole, exactly if there is room
for all of a unit or for nothing of it whenever one is queued. -/
theorem atomic_iff (moves : List KeyMove) :
    (∀ p, p <+: moves → (p.foldl step boot).Atomic) ↔ Along step AllOrNone boot moves :=
  forall_prefix_iff_along (fun _ m hs => Sound.step hs m)
    (fun _ m hs h => hs.atomic_step_iff h m) sound_boot ⟨by decide, fun _ h => by cases h⟩

/-- A reader that has not begun takes the first character in three steps. -/
theorem Sound.poll {c : Char} {q : List Char} (hs : s.Sound) (hidle : s.pop = .idle)
    (hq : s.kb.ring.contents kbBufferSize = c :: q) :
    (((s.step .next).step .next).step .next).pop = .idle ∧
      (((s.step .next).step .next).step .next).read = s.read ++ [c] ∧
      (((s.step .next).step .next).step .next).kb.ring.contents kbBufferSize = q := by
  rcases s with ⟨kb, pop, read, kept⟩
  cases hidle
  have hholds := hs.holds
  rw [hq] at hholds
  rcases hholds.pop_cons with ⟨ring, hpop, hrest⟩
  unfold RingBuf.pop at hpop
  split at hpop
  case isTrue => cases hpop
  case isFalse hne =>
    cases hpop
    have hfound : UnitSystem.step ⟨kb, .idle, read, kept⟩ .next = ⟨kb, .found, read, kept⟩ :=
      if_neg hne
    rw [hfound]
    exact ⟨rfl, rfl, hrest.contents_eq⟩

/-- Three steps for each character in the ring, and all is read. -/
theorem Sound.drain {q : List Char} (hs : s.Sound) (hidle : s.pop = .idle)
    (hq : s.kb.ring.contents kbBufferSize = q) :
    ((List.replicate (3 * q.length) .next).foldl UnitSystem.step s).read = s.read ++ q ∧
      ((List.replicate (3 * q.length) .next).foldl UnitSystem.step s).kb.ring.contents
        kbBufferSize = [] ∧
      ((List.replicate (3 * q.length) .next).foldl UnitSystem.step s).kept = s.kept := by
  induction q generalizing s with
  | nil => exact ⟨(List.append_nil _).symm, hq, rfl⟩
  | cons c q ih =>
      rcases hs.poll hidle hq with ⟨hpop, hread, hcontents⟩
      have hsound := ((hs.step .next).step .next).step .next
      rcases ih hsound hpop hcontents with ⟨hreads, hempty, hkept⟩
      rw [kept_next, kept_next, kept_next] at hkept
      rw [hread, List.append_assoc] at hreads
      exact ⟨hreads, hempty, hkept⟩

/-- What an interrupt leaves in the ring. -/
theorem Sound.contents_irq (hs : s.Sound) (sc : UInt8) :
    (s.step (.irq sc)).kb.ring.contents kbBufferSize = s.kb.ring.contents kbBufferSize ++
      (scanChars s.kb.mods sc).take (255 - (s.kb.ring.contents kbBufferSize).length) := by
  rw [(hs.holds_irq sc).contents_eq, hs.room_eq]
  rfl

theorem kept_irq (s : UnitSystem) (sc : UInt8) : (s.step (.irq sc)).kept =
    if (scanChars s.kb.mods sc).length ≤ s.room then s.kept ++ [scanChars s.kb.mods sc]
    else s.kept := rfl

theorem pop_irq (s : UnitSystem) (sc : UInt8) : (s.step (.irq sc)).pop = s.pop := rfl

theorem read_irq (s : UnitSystem) (sc : UInt8) : (s.step (.irq sc)).read = s.read := rfl

theorem mods_irq (s : UnitSystem) (sc : UInt8) :
    (s.step (.irq sc)).kb.mods = scanMods s.kb.mods sc := by
  change (kbIrqHandler s.kb sc).mods = _
  rw [kbIrqHandler_eq]

/-- A key that gives one character is pressed as often as there is room. -/
theorem Sound.pressed (sc : UInt8) (c : Char) (n : Nat) (hs : s.Sound)
    (hchars : scanChars s.kb.mods sc = [c]) (hmods : scanMods s.kb.mods sc = s.kb.mods)
    (hroom : (s.kb.ring.contents kbBufferSize).length + n ≤ 255) :
    ∃ t, (List.replicate n (.irq sc)).foldl UnitSystem.step s = t ∧ t.Sound ∧
      t.kb.mods = s.kb.mods ∧ t.pop = s.pop ∧ t.read = s.read ∧
      t.kept.flatten = s.kept.flatten ++ List.replicate n c ∧
      t.kb.ring.contents kbBufferSize =
        s.kb.ring.contents kbBufferSize ++ List.replicate n c := by
  induction n generalizing s with
  | zero => exact ⟨s, rfl, hs, rfl, rfl, rfl, (List.append_nil _).symm, (List.append_nil _).symm⟩
  | succ n ih =>
      have hcontents : (s.step (.irq sc)).kb.ring.contents kbBufferSize =
          s.kb.ring.contents kbBufferSize ++ [c] := by
        rw [hs.contents_irq, hchars, List.take_of_length_le]
        rw [List.length_singleton]
        omega
      have hkept : (s.step (.irq sc)).kept.flatten = s.kept.flatten ++ [c] := by
        rw [kept_irq, hchars, if_pos, List.flatten_append, List.flatten_singleton]
        rw [hs.room_eq, List.length_singleton]
        change 1 ≤ 255 - _
        omega
      have hsame : (s.step (.irq sc)).kb.mods = s.kb.mods := (mods_irq s sc).trans hmods
      have hrest := ih (hs.step (.irq sc)) (by rw [hsame, hchars]) (by rw [hsame, hmods])
        (by rw [hcontents, List.length_append, List.length_singleton]; omega)
      rw [hcontents, hkept, hsame, List.append_assoc, List.append_assoc] at hrest
      exact hrest

/-- A letter key is pressed 253 times and then an arrow key, and all is read. -/
def fullRing : List KeyMove :=
  List.replicate 253 (.irq 0x1E) ++ [.irq 0xE0, .irq 0x48] ++ List.replicate (3 * 255) .next

/-- Of the arrow key two characters are read. -/
theorem arrow_cut_short : ¬(fullRing.foldl step boot).Atomic ∧
    (fullRing.foldl step boot).read = List.replicate 253 'a' ++ [esc, '['] ∧
    (fullRing.foldl step boot).kb.ring.contents kbBufferSize = [] := by
  have hempty : boot.kb.ring.contents kbBufferSize = [] := by decide
  rcases sound_boot.pressed 0x1E 'a' 253 (by decide) (by decide)
    (by rw [hempty]; decide) with ⟨t, ht, hsound, hmods, hidle, hread, hkept, hcontents⟩
  rw [hempty, List.nil_append] at hcontents
  have hlength : (t.kb.ring.contents kbBufferSize).length = 253 := by
    rw [hcontents, List.length_replicate]
  -- the prefix of the arrow key gives nothing, and there is room for two of its characters
  have hprefix : scanChars t.kb.mods 0xE0 = [] := by
    rw [hmods]
    decide
  have hafter : (t.step (.irq 0xE0)).kb.ring.contents kbBufferSize =
      t.kb.ring.contents kbBufferSize := by
    rw [hsound.contents_irq, hprefix, List.take_nil, List.append_nil]
  have hnothing : (t.step (.irq 0xE0)).kept.flatten = t.kept.flatten := by
    rw [kept_irq, hprefix]
    split
    · rw [List.flatten_append, List.flatten_singleton, List.append_nil]
    · rfl
  have harrow : scanChars (t.step (.irq 0xE0)).kb.mods 0x48 = [esc, '[', 'A'] := by
    rw [mods_irq, hmods]
    decide
  obtain ⟨u, hu⟩ : ∃ u, (t.step (.irq 0xE0)).step (.irq 0x48) = u := ⟨_, rfl⟩
  have hqueued : u.kb.ring.contents kbBufferSize = List.replicate 253 'a' ++ [esc, '['] := by
    rw [← hu, (hsound.step _).contents_irq, harrow, hafter, hlength, hcontents]
    rfl
  have hdropped : u.kept = (t.step (.irq 0xE0)).kept := by
    rw [← hu, kept_irq, harrow]
    refine if_neg ?_
    rw [(hsound.step _).room_eq, hafter, hlength]
    decide
  have hpop : u.pop = .idle := by
    rw [← hu, pop_irq, pop_irq, hidle]
    rfl
  have hnone : u.read = [] := by
    rw [← hu, read_irq, read_irq, hread]
    rfl
  have hsound' : u.Sound := by
    rw [← hu]
    exact (hsound.step _).step _
  -- all that is in the ring is read
  have hdrained := hsound'.drain hpop hqueued
  have hcount : (List.replicate 253 'a' ++ [esc, '[']).length = 255 := by
    rw [List.length_append, List.length_replicate]
    rfl
  have hfull : fullRing.foldl step boot = (List.replicate (3 * 255) .next).foldl step u := by
    unfold fullRing
    rw [List.foldl_append, List.foldl_append, ht, ← hu]
    rfl
  rw [hcount, hnone, List.nil_append, ← hfull] at hdrained
  rcases hdrained with ⟨hall, hnoneLeft, hsame⟩
  refine ⟨?_, hall, hnoneLeft⟩
  rintro ⟨hwhole, -⟩
  rw [hall, hnoneLeft, hsame, hdropped, hnothing, hkept, List.append_nil] at hwhole
  have hlengths := congrArg List.length hwhole
  rw [hcount, List.length_append, List.length_replicate] at hlengths
  cases hlengths

end UnitSystem

end PolandOS.Keyboard
