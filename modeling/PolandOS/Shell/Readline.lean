import Mathlib.Data.List.ReduceOption
import PolandOS.Drivers.KeyReader

/-! # The line editor of the shell

`shell_readline` of `kernel/shell/shell.c` with the history it looks into, without what it
draws. `interpreted_iff`: the keys do what they stand for as long as the Escape key is
pressed in pairs.
-/

namespace PolandOS.Shell

open Keyboard

/-! ## History -/

/-- `HISTORY_SIZE`. -/
def historySize : Nat := 16

/-- The ring of lines, the number of lines in it, and where the next one goes. -/
structure History where
  history : Nat → List Char
  historyCount : Nat
  historyHead : Nat

/-- `history_get`. -/
def historyGet (h : History) (rel : Int) : Option (List Char) :=
  if rel < 0 ∨ rel ≥ h.historyCount then none
  else some (h.history ((h.historyHead + historySize * 2 - 1 - rel.toNat) % historySize))

/-! ## The line -/

/-- The line up to its end, the place of the cursor, the entry of the history that is shown
or -1, and the line that was there before. -/
structure Line where
  buf : List Char
  pos : Nat
  histIdx : Int
  saved : List Char
  deriving DecidableEq, Repr

/-- `strncpy(buf, text, maxlen - 1)` with the end behind it, and the cursor there. -/
def Line.copy (l : Line) (maxlen : Nat) (text : List Char) : Line :=
  { l with buf := text.take (maxlen - 1), pos := (text.take (maxlen - 1)).length }

/-- What a branch of the loop does. -/
inductive LineAction
  | historyUp
  | historyDown
  | enter
  | backspace
  | clear
  | insert (c : Char)
  deriving DecidableEq, Repr

/-- The older entry of the history. -/
def historyUp (h : History) (maxlen : Nat) (l : Line) : Line :=
  let l := if l.histIdx = -1 then { l with saved := l.buf } else l
  let next := l.histIdx + 1
  match historyGet h next with
  | some entry => { l.copy maxlen entry with histIdx := next }
  | none => l

/-- The newer entry of the history, or the saved line. -/
def historyDown (h : History) (maxlen : Nat) (l : Line) : Line :=
  if l.histIdx ≤ 0 then
    if l.histIdx = 0 then { l.copy maxlen l.saved with histIdx := -1 } else l
  else
    let next := l.histIdx - 1
    if next < 0 then { l.copy maxlen l.saved with histIdx := -1 }
    else
      match historyGet h next with
      | some entry => { l.copy maxlen entry with histIdx := next }
      | none => { l with pos := l.buf.length }

/-- The branches of the loop. -/
def perform (h : History) (maxlen : Nat) (l : Line) : LineAction → Line
  | .historyUp => historyUp h maxlen l
  | .historyDown => historyDown h maxlen l
  | .enter => l
  | .backspace =>
    if l.pos > 0 then { l with buf := l.buf.eraseIdx (l.pos - 1), pos := l.pos - 1 } else l
  | .clear => { l with buf := [], pos := 0 }
  | .insert c =>
    if l.buf.length < maxlen - 1 then
      { l with buf := l.buf.insertIdx l.pos c, pos := l.pos + 1, histIdx := -1 }
    else l

/-- Which `kb_getchar` of the loop the call is in: the one for `c`, the one for `c2` behind
an Escape character, or the one for `c3` behind a bracket. Or it has returned. -/
inductive Waiting
  | c
  | c2
  | c3
  | returned
  deriving DecidableEq, Repr

/-- The branch that a character takes, and where the call waits then. -/
def branch : Waiting → Char → Waiting × Option LineAction
  | .c, c =>
    if c = esc then (.c2, none)
    else if c = '\n' ∨ c = '\r' then (.returned, some .enter)
    else if c = '\x08' ∨ c = '\x7f' then (.c, some .backspace)
    else if c = '\x15' then (.c, some .clear)
    else if ' ' ≤ c ∧ c < '\x7f' then (.c, some (.insert c))
    else (.c, none)
  | .c2, c2 => if c2 = '[' then (.c3, none) else (.c, none)
  | .c3, c3 =>
    if c3 = 'A' then (.c, some .historyUp)
    else if c3 = 'B' then (.c, some .historyDown)
    else (.c, none)
  | .returned, _ => (.returned, none)

/-- A call of `shell_readline`. -/
structure Readline where
  waiting : Waiting
  line : Line

/-- `shell_readline` as a program that reads keys until it returns. It notes the branch that it
takes at a character, and the line behind it. -/
def shellReadline (h : History) (maxlen : Nat) :
    Reader Readline Empty (Option LineAction × Line) where
  waits s := s.waiting ≠ .returned
  read s c :=
    let (waiting, action) := branch s.waiting c
    let line := match action with
      | some a => perform h maxlen s.line a
      | none => s.line
    (⟨waiting, line⟩, (action, line))
  other e := e.elim

/-- The call begins with an empty line. -/
def Readline.start : Readline := ⟨.c, ⟨[], 0, -1, []⟩⟩

/-! ## What the user sees -/

/-- The text of the line, the entry of the history that is shown, if one is, and the line that
was there before the first one. -/
structure Display where
  text : List Char
  entry : Option Nat
  draft : List Char
  deriving DecidableEq

/-- The next older entry, if there is one. -/
def Display.older (entries : List (List Char)) (maxlen : Nat) (d : Display) : Display :=
  let draft := if d.entry = none then d.text else d.draft
  let next := d.entry.elim 0 (· + 1)
  match entries[next]? with
  | some text => ⟨text.take (maxlen - 1), some next, draft⟩
  | none => { d with draft }

/-- The next newer entry; behind the newest one comes the line that was there before. -/
def Display.newer (entries : List (List Char)) (maxlen : Nat) (d : Display) : Display :=
  match d.entry with
  | none => d
  | some 0 => { d with text := d.draft.take (maxlen - 1), entry := none }
  | some (i + 1) =>
    match entries[i]? with
    | some text => { d with text := text.take (maxlen - 1), entry := some i }
    | none => d

/-- What an action does for the user: one step in the history, or one change of the text. -/
def Display.act (entries : List (List Char)) (maxlen : Nat) (d : Display) : LineAction → Display
  | .historyUp => d.older entries maxlen
  | .historyDown => d.newer entries maxlen
  | .enter => d
  | .backspace => { d with text := d.text.dropLast }
  | .clear => { d with text := [] }
  | .insert c =>
    if d.text.length < maxlen - 1 then { d with text := d.text ++ [c], entry := none } else d

/-- What the user sees of a line. -/
def Line.display (l : Line) : Display :=
  ⟨l.buf, if l.histIdx = -1 then none else some l.histIdx.toNat, l.saved⟩

/-- The lines of the history, of which the newest is the first. -/
def History.lines (h : History) : List (List Char) :=
  (List.range h.historyCount).map fun rel =>
    h.history ((h.historyHead + historySize * 2 - 1 - rel) % historySize)

/-- The cursor is behind the text. -/
structure Line.Sound (l : Line) : Prop where
  pos : l.pos = l.buf.length
  histIdx : -1 ≤ l.histIdx

theorem historyGet_eq (h : History) (rel : Nat) : historyGet h rel = h.lines[rel]? := by
  unfold historyGet History.lines
  rw [List.getElem?_map]
  by_cases hrel : rel < h.historyCount
  · rw [if_neg (by omega), List.getElem?_range hrel]
    rfl
  · rw [if_pos (by omega), List.getElem?_eq_none (by rw [List.length_range]; omega)]
    rfl

/-- No entry is shown, or one is. -/
theorem Line.Sound.cases {l : Line} (h : l.Sound) :
    l.histIdx = -1 ∧ l.display.entry = none ∨
      ∃ n : Nat, l.histIdx = n ∧ l.display.entry = some n := by
  by_cases hnone : l.histIdx = -1
  · exact .inl ⟨hnone, if_pos hnone⟩
  · have hge := h.histIdx
    refine .inr ⟨l.histIdx.toNat, by omega, if_neg hnone⟩

/-- What the user sees where an entry or the line from before is copied into the line. -/
theorem display_copy (l : Line) (maxlen : Nat) (text : List Char) (idx : Int) :
    ({ l.copy maxlen text with histIdx := idx } : Line).display =
      ⟨text.take (maxlen - 1), if idx = -1 then none else some idx.toNat, l.saved⟩ := rfl

theorem sound_copy (l : Line) (maxlen : Nat) (text : List Char) {idx : Int} (h : -1 ≤ idx) :
    ({ l.copy maxlen text with histIdx := idx } : Line).Sound := ⟨rfl, h⟩

/-- The up arrow, on the line as it is shown. -/
theorem historyUp_display (h : History) (maxlen : Nat) {l : Line} (hl : l.Sound) :
    (historyUp h maxlen l).Sound ∧
      (historyUp h maxlen l).display = l.display.older h.lines maxlen := by
  unfold historyUp Display.older
  rcases hl.cases with ⟨hidx, hentry⟩ | ⟨n, hidx, hentry⟩
  · have hnext : (-1 : Int) + 1 = (0 : Nat) := rfl
    rw [if_pos hidx, hentry, if_pos rfl, hidx]
    dsimp only [Option.elim_none]
    rw [hnext, historyGet_eq]
    cases h.lines[0]? with
    | none => exact ⟨⟨hl.pos, le_refl (-1 : Int)⟩, rfl⟩
    | some text => exact ⟨sound_copy _ _ _ (by decide), display_copy ..⟩
  · have hnone : l.histIdx ≠ -1 := by omega
    have hnext : (n : Int) + 1 = (n + 1 : Nat) := rfl
    rw [if_neg hnone, hentry, if_neg nofun]
    dsimp only [Option.elim_some]
    rw [hidx, hnext, historyGet_eq]
    cases h.lines[n + 1]? with
    | none =>
        refine ⟨hl, ?_⟩
        dsimp only
        rw [← hentry]
    | some text =>
        have hne : ((n + 1 : Nat) : Int) ≠ -1 := by omega
        refine ⟨sound_copy _ _ _ (by omega), ?_⟩
        dsimp only
        rw [display_copy, if_neg hne]
        rfl

/-- The down arrow, on the line as it is shown. -/
theorem historyDown_display (h : History) (maxlen : Nat) {l : Line} (hl : l.Sound) :
    (historyDown h maxlen l).Sound ∧
      (historyDown h maxlen l).display = l.display.newer h.lines maxlen := by
  unfold historyDown Display.newer
  rcases hl.cases with ⟨hidx, hentry⟩ | ⟨n, hidx, hentry⟩
  · rw [hentry, if_pos (by omega), if_neg (by omega)]
    exact ⟨hl, rfl⟩
  rw [hentry]
  cases n with
  | zero =>
      rw [if_pos (by omega), if_pos (by omega)]
      exact ⟨sound_copy _ _ _ (by decide), display_copy ..⟩
  | succ n =>
      have hprev : l.histIdx - 1 = n := by omega
      rw [if_neg (by omega)]
      dsimp only
      rw [hprev, if_neg (by omega), historyGet_eq]
      cases h.lines[n]? with
      | none => exact ⟨⟨rfl, hl.histIdx⟩, rfl⟩
      | some text =>
          have hne : (n : Int) ≠ -1 := by omega
          refine ⟨sound_copy _ _ _ (by omega), ?_⟩
          dsimp only
          rw [display_copy, if_neg hne]
          rfl

/-- The branches do for the user what they should. -/
theorem perform_display (h : History) (maxlen : Nat) {l : Line} (hl : l.Sound) (a : LineAction) :
    (perform h maxlen l a).Sound ∧
      (perform h maxlen l a).display = l.display.act h.lines maxlen a := by
  cases a with
  | historyUp => exact historyUp_display h maxlen hl
  | historyDown => exact historyDown_display h maxlen hl
  | enter => exact ⟨hl, rfl⟩
  | backspace =>
      rw [perform, Display.act]
      by_cases hpos : l.pos > 0
      · have hlast : l.buf.eraseIdx (l.pos - 1) = l.buf.dropLast := by
          rw [hl.pos, List.eraseIdx_length_sub_one]
        rw [if_pos hpos, hlast]
        refine ⟨⟨?_, hl.histIdx⟩, rfl⟩
        dsimp only
        rw [List.length_dropLast, hl.pos]
      · have hnil : l.buf = [] := List.eq_nil_of_length_eq_zero (by have := hl.pos; omega)
        have hdisplay : l.display.text = [] := hnil
        rw [if_neg hpos, hdisplay]
        refine ⟨hl, ?_⟩
        rw [List.dropLast_nil, ← hdisplay]
  | clear => exact ⟨⟨rfl, hl.histIdx⟩, rfl⟩
  | insert c =>
      have hend : l.buf.insertIdx l.pos c = l.buf ++ [c] := by
        rw [hl.pos, List.insertIdx_length_self]
      have hlen : l.display.text.length = l.buf.length := rfl
      rw [perform, Display.act, hend, hlen]
      by_cases hroom : l.buf.length < maxlen - 1
      · rw [if_pos hroom, if_pos hroom]
        refine ⟨⟨?_, le_refl (-1 : Int)⟩, rfl⟩
        dsimp only
        rw [List.length_append, hl.pos]
        rfl
      · rw [if_neg hroom, if_neg hroom]
        exact ⟨hl, rfl⟩

/-! ## What keys stand for -/

/-- What an arrow key stands for. -/
def arrowMeaning : Arrow → List LineAction
  | .up => [.historyUp]
  | .down => [.historyDown]
  | .right => []
  | .left => []

/-- What a key event stands for: an arrow key up or down for a step in the history, the
Escape key and the other arrow keys for nothing, and every other one for what its
character does at the beginning of the loop. -/
def meaning (e : KeyEvent) (cs : List Char) : List LineAction :=
  if e.IsEscape then []
  else
    match e.arrow with
    | some a => arrowMeaning a
    | none => cs.filterMap fun c => (branch .c c).2

/-- Every key event took the branches that it stands for. -/
def BranchesTaken (hs : List (Handled (Option LineAction))) : Prop :=
  ∀ h ∈ hs, h.notes.reduceOption = meaning h.event h.chars

/-- The line behind some characters. -/
def lineBehind (l : Line) (notes : List (Option LineAction × Line)) : Line :=
  notes.foldl (fun _ n => n.2) l

/-- Every key event took the branches that it stands for; and behind each, what the user sees is
what these have made of what was seen before. -/
def Interpreted (entries : List (List Char)) (maxlen : Nat) :
    Line → List (Handled (Option LineAction × Line)) → Prop
  | _, [] => True
  | l, h :: rest =>
    (h.notes.map Prod.fst).reduceOption = meaning h.event h.chars ∧
      (lineBehind l h.notes).display =
        (meaning h.event h.chars).foldl (Display.act entries maxlen) l.display ∧
      Interpreted entries maxlen (lineBehind l h.notes) rest

/-- Behind an odd number of Escape keys no key but Tab gives a character. -/
def EscapesPaired {β : Type} : Bool → List (Handled β) → Prop
  | _, [] => True
  | odd, h :: rest =>
    if h.chars = [] then EscapesPaired odd rest
    else if h.event.IsEscape then EscapesPaired (!odd) rest
    else (odd = true → h.chars = ['\t']) ∧ EscapesPaired false rest

instance EscapesPaired.decidable {β : Type} :
    (odd : Bool) → (hs : List (Handled β)) → Decidable (EscapesPaired odd hs)
  | _, [] => .isTrue trivial
  | odd, h :: rest =>
    have (b : Bool) := EscapesPaired.decidable b rest
    inferInstanceAs (Decidable (if h.chars = [] then EscapesPaired odd rest
      else if h.event.IsEscape then EscapesPaired (!odd) rest
      else (odd = true → h.chars = ['\t']) ∧ EscapesPaired false rest))

/-! ## The notes of a call -/

/-- The notes on some characters. -/
def notesFrom : Waiting → List Char → List (Option LineAction)
  | _, [] => []
  | w, c :: cs => if w = .returned then [] else (branch w c).2 :: notesFrom (branch w c).1 cs

theorem notesFrom_returned (cs : List Char) : notesFrom .returned cs = [] := by
  cases cs <;> rfl

theorem notesFrom_cons {w : Waiting} (hw : w ≠ .returned) (c : Char) (cs : List Char) :
    notesFrom w (c :: cs) = (branch w c).2 :: notesFrom (branch w c).1 cs := if_neg hw

/-- The branches that a call takes depend on its characters alone. -/
theorem reads_notes {h : History} {maxlen : Nat} {s t : Readline}
    {log : List (Char × Option LineAction × Line)}
    (hreads : (shellReadline h maxlen).Reads s log t) :
    (log.map Prod.snd).map Prod.fst = notesFrom s.waiting (log.map Prod.fst) := by
  induction hreads with
  | done => rfl
  | read hwaits _ ih =>
      rw [List.map_cons, List.map_cons, List.map_cons, notesFrom_cons (of_decide_eq_true hwaits),
        ih]
      rfl
  | other e => exact e.elim

/-! ## The keys of a call -/

variable {e : KeyEvent} {c : Char} {cs : List Char}

theorem BranchesTaken.cons_iff {h : Handled (Option LineAction)}
    {rest : List (Handled (Option LineAction))} :
    BranchesTaken (h :: rest) ↔ h.notes.reduceOption = meaning h.event h.chars ∧ BranchesTaken rest :=
  List.forall_mem_cons

theorem meaning_other (hescape : ¬e.IsEscape) (harrow : e.arrow = none) :
    meaning e cs = cs.filterMap fun c => (branch .c c).2 := by
  unfold meaning
  rw [if_neg hescape, harrow]

theorem meaning_arrow {a : Arrow} (h : e.arrow = some a) : meaning e cs = arrowMeaning a := by
  unfold meaning
  rw [if_neg (not_isEscape_of_arrow h), h]

/-- Of the characters of the other keys, only Tab does nothing. -/
theorem branch_typed (h : Typed c) (htab : c ≠ '\t') : ∃ a, (branch .c c).2 = some a := by
  simp only [branch, if_neg h.ne_esc]
  split_ifs with henter hback hclear hprint
  · exact ⟨_, rfl⟩
  · exact ⟨_, rfl⟩
  · exact ⟨_, rfl⟩
  · exact ⟨_, rfl⟩
  · exfalso
    rcases h with hprint' | rfl | rfl | rfl
    · exact hprint hprint'
    · exact hback (.inl rfl)
    · exact htab rfl
    · exact henter (.inl rfl)

/-- Behind a character of another key the call waits for the next key, or has returned. -/
theorem branch_typed_waiting (h : Typed c) :
    (branch .c c).1 = .c ∨ (branch .c c).1 = .returned := by
  simp only [branch, if_neg h.ne_esc]
  split_ifs
  · exact .inr rfl
  · exact .inl rfl
  · exact .inl rfl
  · exact .inl rfl
  · exact .inl rfl

/-- Where no characters are left, the remaining key events gave none. -/
theorem handled_nil {β : Type} {groups : List (KeyEvent × List Char)}
    (hgives : ∀ p ∈ groups, Gives p.1 p.2) :
    ∀ h ∈ handled groups ([] : List β), h.chars = [] ∧ h.notes = [] ∧ Gives h.event h.chars := by
  induction groups with
  | nil => exact fun h hh => (by cases hh)
  | cons p groups ih =>
      rcases p with ⟨e, cs⟩
      intro h hh
      cases cs with
      | nil =>
          rcases List.mem_cons.mp hh with rfl | hh
          · exact ⟨rfl, rfl, hgives _ List.mem_cons_self⟩
          · exact ih (fun p hp => hgives p (List.mem_cons_of_mem _ hp)) h hh
      | cons c cs => cases hh

theorem meaning_nil (h : Gives e []) : meaning e [] = [] := by
  cases h with
  | nothing hescape harrow => rw [meaning_other hescape harrow, List.filterMap_nil]

theorem escapesPaired_nil {β : Type} {hs : List (Handled β)} (h : ∀ h ∈ hs, h.chars = [])
    (odd : Bool) : EscapesPaired odd hs := by
  induction hs with
  | nil => trivial
  | cons a hs ih =>
      unfold EscapesPaired
      rw [if_pos (h a List.mem_cons_self)]
      exact ih fun b hb => h b (List.mem_cons_of_mem _ hb)

/-- A call that has returned interprets nothing any more. -/
theorem branchesTaken_returned {groups : List (KeyEvent × List Char)}
    (hgives : ∀ p ∈ groups, Gives p.1 p.2) (odd : Bool) :
    BranchesTaken (handled groups []) ↔
      EscapesPaired odd (handled groups ([] : List (Option LineAction))) := by
  have hnil := handled_nil (β := Option LineAction) hgives
  refine iff_of_true (fun h hh => ?_) (escapesPaired_nil (fun h hh => (hnil h hh).1) odd)
  rcases hnil h hh with ⟨hchars, hnotes, hgives⟩
  rw [hchars] at hgives ⊢
  rw [hnotes, meaning_nil hgives]
  rfl

/-- The character behind an Escape character does nothing of its own. -/
theorem branch_c2 (c : Char) : (branch .c2 c).2 = none := by
  simp only [branch]
  split <;> rfl

/-- Where the call waits behind an even or an odd number of Escape keys. -/
def waitingFor (odd : Bool) : Waiting := if odd then .c2 else .c

/-- The notes begin with those of the first key event. -/
theorem handled_cons {β : Type} (e : KeyEvent) (cs : List Char)
    (groups : List (KeyEvent × List Char)) (notes rest : List β) (h : notes.length = cs.length) :
    handled ((e, cs) :: groups) (notes ++ rest) = ⟨e, cs, notes⟩ :: handled groups rest := by
  have hle : cs.length ≤ (notes ++ rest).length := by
    rw [List.length_append, h]
    exact Nat.le_add_right _ _
  rw [handled, if_pos hle, ← h, List.take_left, List.drop_left]

theorem escapesPaired_cons {β : Type} (odd : Bool) (h : Handled β) (rest : List (Handled β)) :
    EscapesPaired odd (h :: rest) ↔
      if h.chars = [] then EscapesPaired odd rest
      else if h.event.IsEscape then EscapesPaired (!odd) rest
      else (odd = true → h.chars = ['\t']) ∧ EscapesPaired false rest := Iff.rfl

theorem length_notesFrom (w : Waiting) (cs : List Char) : (notesFrom w cs).length ≤ cs.length := by
  induction cs generalizing w with
  | nil => exact Nat.le_refl _
  | cons c cs ih =>
      unfold notesFrom
      split
      · exact Nat.zero_le _
      · exact Nat.succ_le_succ (ih _)

/-- Either not all characters of a key event have been read, or others behind it. -/
theorem prefix_cases {g rest : List Char} (h : cs <+: g ++ rest) :
    cs.length < g.length ∨ ∃ cs', cs = g ++ cs' ∧ cs' <+: rest := by
  by_cases hlt : cs.length < g.length
  · exact .inl hlt
  · have hg := List.prefix_of_prefix_length_le (List.prefix_append g rest) h (Nat.le_of_not_lt hlt)
    rcases hg with ⟨cs', rfl⟩
    exact .inr ⟨cs', rfl, (List.prefix_append_right_inj g).mp h⟩

/-- A key event of which the notes are not what it stands for. -/
theorem branchesTaken_iff_of_ne {h : Handled (Option LineAction)}
    {rest : List (Handled (Option LineAction))}
    (hne : h.notes.reduceOption ≠ meaning h.event h.chars) (hchars : h.chars ≠ [])
    (hescape : ¬h.event.IsEscape) (htab : h.chars ≠ ['\t']) :
    BranchesTaken (h :: rest) ↔ EscapesPaired true (h :: rest) := by
  refine iff_of_false (fun hall => hne (BranchesTaken.cons_iff.mp hall).1) ?_
  rw [escapesPaired_cons, if_neg hchars, if_neg hescape]
  exact fun hpaired => htab (hpaired.1 rfl)

/-- A key event that does what it stands for. -/
theorem branchesTaken_iff_of_eq {h : Handled (Option LineAction)} {odd : Bool}
    {rest : List (Handled (Option LineAction))}
    (heq : h.notes.reduceOption = meaning h.event h.chars) (hchars : h.chars ≠ [])
    (hescape : ¬h.event.IsEscape) (hodd : odd = true → h.chars = ['\t'])
    (hrest : BranchesTaken rest ↔ EscapesPaired false rest) :
    BranchesTaken (h :: rest) ↔ EscapesPaired odd (h :: rest) := by
  rw [BranchesTaken.cons_iff, hrest, escapesPaired_cons, if_neg hchars, if_neg hescape]
  exact and_congr_left' (iff_of_true heq hodd)

section Groups

variable {groups : List (KeyEvent × List Char)}

/-- The keys from here on are interpreted as they mean exactly if the Escape keys come in pairs,
counted with the `odd` one before. -/
def BranchesIff (odd : Bool) (groups : List (KeyEvent × List Char)) (cs : List Char) : Prop :=
  BranchesTaken (handled groups (notesFrom (waitingFor odd) cs)) ↔
    EscapesPaired odd (handled groups (notesFrom (waitingFor odd) cs))

theorem branchesIff_nothing (hescape : ¬e.IsEscape) (harrow : e.arrow = none) {odd : Bool}
    (ih : BranchesIff odd groups cs) : BranchesIff odd ((e, []) :: groups) cs := by
  have hhead : handled ((e, []) :: groups) (notesFrom (waitingFor odd) cs) =
      ⟨e, [], []⟩ :: handled groups (notesFrom (waitingFor odd) cs) := rfl
  unfold BranchesIff at ih ⊢
  rw [hhead, BranchesTaken.cons_iff, ih, escapesPaired_cons, if_pos rfl,
    meaning_nil (.nothing hescape harrow)]
  exact and_iff_right rfl

/-- An Escape character makes the count of the Escape keys odd, or even again. -/
theorem branchesIff_escape (hescape : e.IsEscape) {odd : Bool}
    (ih : BranchesIff (!odd) groups cs) : BranchesIff odd ((e, [esc]) :: groups) ([esc] ++ cs) := by
  have hnotes : notesFrom (waitingFor odd) ([esc] ++ cs) =
      [none] ++ notesFrom (waitingFor !odd) cs := by
    cases odd <;> rfl
  unfold BranchesIff at ih ⊢
  rw [hnotes, handled_cons e [esc] groups [none] _ rfl, BranchesTaken.cons_iff, ih,
    escapesPaired_cons, if_neg (List.cons_ne_nil _ _), if_pos hescape]
  exact and_iff_right (if_pos hescape).symm

theorem branchesIff_arrow {a : Arrow} (harrow : e.arrow = some a)
    (ih : BranchesIff false groups cs) :
    BranchesIff false ((e, [esc, '[', a.letter]) :: groups) ([esc, '[', a.letter] ++ cs) := by
  have hnotes : ∃ b : Option LineAction, b.toList = arrowMeaning a ∧
      notesFrom (waitingFor false) ([esc, '[', a.letter] ++ cs) =
        [none, none, b] ++ notesFrom (waitingFor false) cs := by
    cases a <;> exact ⟨_, rfl, rfl⟩
  rcases hnotes with ⟨b, hb, hnotes⟩
  unfold BranchesIff at ih ⊢
  rw [hnotes, handled_cons e _ groups [none, none, b] _ rfl]
  refine branchesTaken_iff_of_eq ?_ (List.cons_ne_nil _ _) (not_isEscape_of_arrow harrow)
    (fun h => (by cases h)) ih
  rw [meaning_arrow harrow, ← hb]
  cases b <;> rfl

/-- Behind an odd number of Escape keys, the Escape character of an arrow key is taken for the
end of a sequence. -/
theorem branchesIff_arrow_odd {a : Arrow} (harrow : e.arrow = some a) :
    BranchesIff true ((e, [esc, '[', a.letter]) :: groups) ([esc, '[', a.letter] ++ cs) := by
  have hnotes : ∃ b, notesFrom (waitingFor true) ([esc, '[', a.letter] ++ cs) =
      [none, some (.insert '['), some b] ++ notesFrom .c cs := by
    cases a <;> exact ⟨_, rfl⟩
  rcases hnotes with ⟨b, hnotes⟩
  unfold BranchesIff
  rw [hnotes, handled_cons e _ groups [none, some (.insert '['), some b] _ rfl]
  refine branchesTaken_iff_of_ne ?_ (List.cons_ne_nil _ _) (not_isEscape_of_arrow harrow)
    (by simp)
  rw [meaning_arrow harrow]
  cases a <;> exact fun heq => (by cases heq)

theorem meaning_char (hescape : ¬e.IsEscape) (harrow : e.arrow = none) :
    meaning e [c] = [(branch .c c).2].reduceOption := by
  rw [meaning_other hescape harrow]
  rfl

theorem branchesIff_char (hescape : ¬e.IsEscape) (harrow : e.arrow = none) (htyped : Typed c)
    (hgives : ∀ p ∈ groups, Gives p.1 p.2) (ih : BranchesIff false groups cs) :
    BranchesIff false ((e, [c]) :: groups) ([c] ++ cs) := by
  have hnotes : notesFrom (waitingFor false) ([c] ++ cs) =
      [(branch .c c).2] ++ notesFrom (branch .c c).1 cs := rfl
  unfold BranchesIff at ih ⊢
  rw [hnotes, handled_cons e _ groups [(branch .c c).2] _ rfl]
  refine branchesTaken_iff_of_eq (meaning_char hescape harrow).symm (List.cons_ne_nil _ _) hescape
    (fun h => (by cases h)) ?_
  rcases branch_typed_waiting htyped with hnext | hreturned
  · rw [hnext]
    exact ih
  · rw [hreturned, notesFrom_returned]
    exact branchesTaken_returned hgives false

/-- Behind an odd number of Escape keys, a character is swallowed, and only of Tab nothing is
lost. -/
theorem branchesIff_char_odd (hescape : ¬e.IsEscape) (harrow : e.arrow = none)
    (htyped : Typed c) (ih : BranchesIff false groups cs) :
    BranchesIff true ((e, [c]) :: groups) ([c] ++ cs) := by
  have hnotes : notesFrom (waitingFor true) ([c] ++ cs) =
      [none] ++ notesFrom (branch .c2 c).1 cs := by
    change (branch .c2 c).2 :: notesFrom (branch .c2 c).1 cs = _
    rw [branch_c2]
    rfl
  have hmeaning := meaning_char (c := c) hescape harrow
  unfold BranchesIff at ih ⊢
  rw [hnotes, handled_cons e _ groups [none] _ rfl]
  by_cases htab : c = '\t'
  · subst htab
    exact branchesTaken_iff_of_eq hmeaning.symm (List.cons_ne_nil _ _) hescape (fun _ => rfl) ih
  · rcases branch_typed htyped htab with ⟨b, hb⟩
    refine branchesTaken_iff_of_ne ?_ (List.cons_ne_nil _ _) hescape
      (fun h => htab (List.cons_eq_cons.mp h).1)
    rw [hmeaning, hb]
    exact fun heq => (by cases heq)

/-- The characters are interpreted as the keys mean them exactly if the Escape keys come in
pairs. -/
theorem branchesTaken_iff (hgives : ∀ p ∈ groups, Gives p.1 p.2)
    (hpre : cs <+: groups.flatMap Prod.snd) (odd : Bool) : BranchesIff odd groups cs := by
  induction groups generalizing cs odd with
  | nil => exact iff_of_true (fun h hh => (by cases hh)) trivial
  | cons p groups ih =>
      rcases p with ⟨e, g⟩
      have hrest : ∀ p ∈ groups, Gives p.1 p.2 := fun p hp => hgives p (List.mem_cons_of_mem _ hp)
      have hfirst : Gives e g := hgives (e, g) List.mem_cons_self
      rw [List.flatMap_cons] at hpre
      rcases prefix_cases hpre with hshort | ⟨cs', rfl, hpre'⟩
      · -- the key event has not been read to its end
        have hnone : handled ((e, g) :: groups) (notesFrom (waitingFor odd) cs) = [] :=
          if_neg (Nat.not_le_of_lt ((length_notesFrom _ _).trans_lt hshort))
        unfold BranchesIff
        rw [hnone]
        exact iff_of_true (fun h hh => (by cases hh)) trivial
      · cases hfirst with
        | nothing hescape harrow => exact branchesIff_nothing hescape harrow (ih hrest hpre' odd)
        | escape hescape => exact branchesIff_escape hescape (ih hrest hpre' !odd)
        | arrow harrow =>
            cases odd with
            | false => exact branchesIff_arrow harrow (ih hrest hpre' false)
            | true => exact branchesIff_arrow_odd harrow
        | char hescape harrow htyped =>
            cases odd with
            | false =>
                exact branchesIff_char hescape harrow htyped hrest (ih hrest hpre' false)
            | true => exact branchesIff_char_odd hescape harrow htyped (ih hrest hpre' false)

end Groups

/-! ## What the keys do -/

/-- The notes without the lines. -/
def branches (h : Handled (Option LineAction × Line)) : Handled (Option LineAction) :=
  ⟨h.event, h.chars, h.notes.map Prod.fst⟩

theorem handled_branches (groups : List (KeyEvent × List Char))
    (notes : List (Option LineAction × Line)) :
    handled groups (notes.map Prod.fst) = (handled groups notes).map branches := by
  induction groups generalizing notes with
  | nil => rfl
  | cons p groups ih =>
      rcases p with ⟨e, cs⟩
      unfold handled
      rw [List.length_map]
      by_cases hread : cs.length ≤ notes.length
      · rw [if_pos hread, if_pos hread, List.map_cons, ← List.map_drop, ih, branches, List.map_take]
      · rw [if_neg hread, if_neg hread]
        rfl

theorem escapesPaired_branches (odd : Bool) (hs : List (Handled (Option LineAction × Line))) :
    EscapesPaired odd (hs.map branches) ↔ EscapesPaired odd hs := by
  induction hs generalizing odd with
  | nil => exact Iff.rfl
  | cons h hs ih =>
      rw [List.map_cons, escapesPaired_cons, escapesPaired_cons, ih, ih, ih]
      rfl

/-- Each line is what the branch has made of the one before. -/
def Chained (h : History) (maxlen : Nat) : Line → List (Option LineAction × Line) → Prop
  | _, [] => True
  | l, n :: notes => n.2 = n.1.elim l (perform h maxlen l) ∧ Chained h maxlen n.2 notes

theorem chained_append {h : History} {maxlen : Nat} {l : Line}
    {notes notes' : List (Option LineAction × Line)} :
    Chained h maxlen l (notes ++ notes') ↔
      Chained h maxlen l notes ∧ Chained h maxlen (lineBehind l notes) notes' := by
  induction notes generalizing l with
  | nil => exact (and_iff_right trivial).symm
  | cons n notes ih =>
      rw [List.cons_append, Chained, Chained, ih, and_assoc]
      rfl

theorem reads_chained {h : History} {maxlen : Nat} {s t : Readline}
    {log : List (Char × Option LineAction × Line)}
    (hreads : (shellReadline h maxlen).Reads s log t) :
    Chained h maxlen s.line (log.map Prod.snd) := by
  induction hreads with
  | done => trivial
  | read _ _ ih =>
      refine ⟨?_, ih⟩
      rename_i s _ c _ _ _
      change (match (branch s.waiting c).2 with
        | some a => perform h maxlen s.line a
        | none => s.line) = (branch s.waiting c).2.elim s.line (perform h maxlen s.line)
      cases (branch s.waiting c).2 <;> rfl
  | other e => exact e.elim

/-- What the branches have made of a line. -/
theorem Chained.display {h : History} {maxlen : Nat} {l : Line}
    {notes : List (Option LineAction × Line)} (hnotes : Chained h maxlen l notes) (hl : l.Sound) :
    (lineBehind l notes).Sound ∧ (lineBehind l notes).display =
      (notes.map Prod.fst).reduceOption.foldl (Display.act h.lines maxlen) l.display := by
  induction notes generalizing l with
  | nil => exact ⟨hl, rfl⟩
  | cons n notes ih =>
      rcases n with ⟨a, l'⟩
      rcases hnotes with ⟨hline, hrest⟩
      dsimp only at hline hrest
      subst hline
      cases a with
      | none => exact ih hrest hl
      | some a =>
          rcases perform_display h maxlen hl a with ⟨hsound, hdisplay⟩
          rcases ih hrest hsound with ⟨hbehind, heq⟩
          refine ⟨hbehind, heq.trans ?_⟩
          rw [List.map_cons, List.reduceOption_cons_of_some, List.foldl_cons, ← hdisplay]
          rfl

/-- A key event that takes the branches it stands for does what they do. -/
theorem interpreted_iff_branchesTaken {h : History} {maxlen : Nat} {l : Line}
    {groups : List (KeyEvent × List Char)} {notes : List (Option LineAction × Line)}
    (hnotes : Chained h maxlen l notes) (hl : l.Sound) :
    Interpreted h.lines maxlen l (handled groups notes) ↔
      BranchesTaken ((handled groups notes).map branches) := by
  induction groups generalizing l notes with
  | nil => exact iff_of_true trivial fun h hh => (by cases hh)
  | cons p groups ih =>
      rcases p with ⟨e, cs⟩
      unfold handled
      by_cases hread : cs.length ≤ notes.length
      · rw [← List.take_append_drop cs.length notes, chained_append] at hnotes
        rcases hnotes.1.display hl with ⟨hsound, hdisplay⟩
        rw [if_pos hread, Interpreted, List.map_cons, BranchesTaken.cons_iff,
          ← ih hnotes.2 hsound]
        refine and_congr_right fun hmeaning => and_iff_right ?_
        rw [hdisplay, hmeaning]
      · rw [if_neg hread]
        exact iff_of_true trivial fun h hh => (by cases hh)

/-- The keys do what they are meant to exactly if the Escape keys come in pairs. -/
theorem interpreted_iff {h : History} {maxlen : Nat} {t : Readline}
    {log : List (Char × Option LineAction × Line)}
    (hreads : (shellReadline h maxlen).Reads .start log t)
    {groups : List (KeyEvent × List Char)} (hgives : ∀ p ∈ groups, Gives p.1 p.2)
    (hpre : log.map Prod.fst <+: groups.flatMap Prod.snd) :
    Interpreted h.lines maxlen Readline.start.line (handled groups (log.map Prod.snd)) ↔
      EscapesPaired false (handled groups (log.map Prod.snd)) := by
  have hsound : Readline.start.line.Sound := ⟨rfl, le_refl (-1 : Int)⟩
  rw [interpreted_iff_branchesTaken (reads_chained hreads) hsound, ← escapesPaired_branches,
    ← handled_branches, reads_notes hreads]
  exact branchesTaken_iff hgives hpre false

end PolandOS.Shell
