import PolandOS.Shell.HistoryRing

/-! # The line editor in memory

`shell_readline` of `kernel/shell/shell.c` over byte-addressed memory, without what it draws,
and a line editor over strings. `line_editor`: the two agree in every layout where neither the line
nor the history begins right behind `saved`.
-/

namespace PolandOS.Shell.InMemory

open ByteMem Strings Keyboard

/-! ## `shell_readline` -/

/-- The addresses of `buf`, of `saved` and of the history. -/
structure Layout where
  buf : Nat
  saved : Nat
  history : Nat

/-- The memory and the local variables. -/
structure Locals where
  mem : Mem
  pos : Nat
  len : Nat
  histIdx : Int

/-- A call of `shell_readline`, and for which character it waits. -/
structure Call where
  waiting : Waiting
  locals : Locals

section Source

variable (L : Layout) (ring : Ring) (maxlen : Nat)

/-- `history_get`. -/
def entryAt (s : Locals) (rel : Int) : Option Nat :=
  historyGet L.history rel { ring with mem := s.mem }

/-- `len = (int)strlen(buf); pos = len;` -/
def measure (s : Locals) : Option Locals :=
  (strlen s.mem L.buf).map fun len => { s with len := len, pos := len }

/-- `strncpy(buf, text, maxlen - 1); buf[maxlen - 1] = '\0';` and the length. -/
def copyToBuf (s : Locals) (text : Nat) : Option Locals :=
  let mem := strncpy s.mem L.buf text (maxlen - 1)
  measure L { s with mem := set mem (byteAt L.buf (maxlen - 1)) 0 }

/-- `strncpy(saved, buf, maxlen); saved[len] = '\0';` -/
def saveInput (s : Locals) : Locals :=
  { s with mem := set (strncpy s.mem L.saved L.buf maxlen) (byteAt L.saved s.len) 0 }

/-- The older entry of the history. -/
def historyUp (s : Locals) : Option Locals :=
  let s := if s.histIdx = -1 then saveInput L maxlen s else s
  let next := s.histIdx + 1
  match entryAt L ring s next with
  | some entry => copyToBuf L maxlen { s with histIdx := next } entry
  | none => some s

/-- The newer entry of the history, or the saved line. -/
def historyDown (s : Locals) : Option Locals :=
  if s.histIdx ≤ 0 then
    if s.histIdx = 0 then copyToBuf L maxlen { s with histIdx := -1 } L.saved else some s
  else
    let next := s.histIdx - 1
    if next < 0 then copyToBuf L maxlen { s with histIdx := -1 } L.saved
    else
      match entryAt L ring s next with
      | some entry => copyToBuf L maxlen { s with histIdx := next } entry
      | none => measure L s

/-- `for (int i = pos; i < len; i++) buf[i] = buf[i + 1];`, so many rounds. -/
def shiftLeft (m : Mem) (pos : Nat) : Nat → Mem
  | 0 => m
  | n + 1 => shiftLeft (set m (byteAt L.buf pos) (m (byteAt L.buf (pos + 1)))) (pos + 1) n

/-- `for (int i = len; i > pos; i--) buf[i] = buf[i - 1];`, so many rounds. -/
def shiftRight (m : Mem) (pos : Nat) : Nat → Mem
  | 0 => m
  | n + 1 => shiftRight (set m (byteAt L.buf (pos + n + 1)) (m (byteAt L.buf (pos + n)))) pos n

/-- The character before the cursor goes. -/
def backspace (s : Locals) : Locals :=
  if s.pos > 0 then
    let pos := s.pos - 1
    let len := s.len - 1
    let mem := shiftLeft L s.mem pos (len - pos)
    { s with mem := set mem (byteAt L.buf len) 0, pos := pos, len := len }
  else s

/-- A character comes in at the cursor. -/
def insert (s : Locals) (c : UInt8) : Locals :=
  if s.len < maxlen - 1 then
    let mem := set (shiftRight L s.mem s.pos (s.len - s.pos)) (byteAt L.buf s.pos) c
    { mem := set mem (byteAt L.buf (s.len + 1)) 0
      pos := s.pos + 1
      len := s.len + 1
      histIdx := -1 }
  else s

/-- The branches of the loop. -/
def perform (s : Locals) : LineAction → Option Locals
  | .historyUp => historyUp L ring maxlen s
  | .historyDown => historyDown L ring maxlen s
  | .enter => some { s with mem := set s.mem (byteAt L.buf s.len) 0 }
  | .backspace => some (backspace L s)
  | .clear => some { s with mem := set s.mem (byteAt L.buf 0) 0, pos := 0, len := 0 }
  | .insert c => some (insert L maxlen s (UInt8.ofNat c.toNat))

/-- What a character does to a call. -/
def read (call : Call) (c : Char) : Option Call :=
  let (waiting, action) := branch call.waiting c
  match action with
  | some a => (perform L ring maxlen call.locals a).map (⟨waiting, ·⟩)
  | none => some ⟨waiting, call.locals⟩

/-- The beginning of a call, with `saved[0] = '\0'`. -/
def Call.start (mem : Mem) : Call := ⟨.c, ⟨set mem (byteAt L.saved 0) 0, 0, 0, -1⟩⟩

/-- `shell_readline`, as far as the characters go. -/
def shellReadline (mem : Mem) (cs : List Char) : Option Call :=
  cs.foldlM (read L ring maxlen) (Call.start L mem)

end Source

/-! ## A line editor over strings -/

/-- The text that is shown; and while an entry of the history is shown, which one, and the
unfinished line. -/
structure Editor where
  text : List UInt8
  browsing : Option (Nat × List UInt8)
  deriving DecidableEq

/-- What keys there are. -/
inductive EditKey
  | char (c : UInt8)
  | backspace
  | clear
  | older
  | newer
  | enter
  | other
  deriving DecidableEq

/-- Nothing has been typed. -/
def Editor.empty : Editor := ⟨[], none⟩

/-- The next older entry; the line is left unfinished where none was shown. -/
def Editor.older (entries : List (List UInt8)) (e : Editor) : Editor :=
  let (next, unfinished) := match e.browsing with
    | none => (0, e.text)
    | some (i, unfinished) => (i + 1, unfinished)
  match entries[next]? with
  | some entry => ⟨entry, some (next, unfinished)⟩
  | none => e

/-- The next newer entry; below the newest is the unfinished line. -/
def Editor.newer (entries : List (List UInt8)) (e : Editor) : Editor :=
  match e.browsing with
  | none => e
  | some (0, unfinished) => ⟨unfinished, none⟩
  | some (i + 1, unfinished) =>
    match entries[i]? with
    | some entry => ⟨entry, some (i, unfinished)⟩
    | none => e

/-- What a key does. -/
def Editor.press (entries : List (List UInt8)) (e : Editor) : EditKey → Editor
  | .char c => if e.text.length < 255 then ⟨e.text ++ [c], none⟩ else e
  | .backspace => { e with text := e.text.dropLast }
  | .clear => { e with text := [] }
  | .older => e.older entries
  | .newer => e.newer entries
  | .enter => e
  | .other => e

/-- What is shown behind some keys, and whether Enter was among them. -/
def Editor.edit (entries : List (List UInt8)) (e : Editor) : List EditKey → Editor × Bool
  | [] => (e, false)
  | .enter :: _ => (e, true)
  | k :: ks => (e.press entries k).edit entries ks

/-- The key of a character. -/
def keyOf (c : Char) : EditKey :=
  if c = '\n' ∨ c = '\r' then .enter
  else if c = '\x08' ∨ c = '\x7f' then .backspace
  else if c = '\x15' then .clear
  else if ' ' ≤ c ∧ c < '\x7f' then .char (UInt8.ofNat c.toNat)
  else .other

/-- The key of an Escape character, a bracket and a character. -/
def arrowKey (c3 : Char) : EditKey :=
  if c3 = 'A' then .older else if c3 = 'B' then .newer else .other

/-- The keys of a stream: Escape takes one more character with it, and two if the first one is
a bracket. -/
def keysOf : List Char → List EditKey
  | [] => []
  | c :: cs =>
    if c = esc then
      match cs with
      | [] => []
      | ['['] => []
      | '[' :: c3 :: cs => arrowKey c3 :: keysOf cs
      | _ :: cs => .other :: keysOf cs
    else keyOf c :: keysOf cs

/-! ## Layouts -/

/-- The three objects share no byte. -/
structure Layout.Disjoint (L : Layout) : Prop where
  bufSaved : Apart L.buf lineMax L.saved lineMax
  bufHistory : Apart L.buf lineMax L.history (lineMax * historySize)
  savedHistory : Apart L.saved lineMax L.history (lineMax * historySize)

/-- Right behind `saved` is neither of the others. -/
structure Layout.ClearBehind (L : Layout) : Prop where
  buf : byteAt L.saved lineMax ≠ byteAt L.buf 0
  history : byteAt L.saved lineMax ≠ byteAt L.history 0

/-- No byte outside an object has changed. -/
def OnlyAt (a n : Nat) (m m' : Mem) : Prop := ∀ x, (∀ i < n, x ≠ byteAt a i) → m' x = m x

variable {L : Layout} {ring : Ring} {s : Locals} {e : Editor} {m m' : Mem} {a b n k : Nat}
  {cs : List UInt8} {entries : List (List UInt8)}

theorem OnlyAt.string (h : OnlyAt a n m m') (hap : Apart a n b k) (hcs : StringAt m b cs)
    (hlen : cs.length < k) : StringAt m' b cs :=
  hcs.congr fun i hi => h _ fun j hj heq => hap j hj i (by omega) heq.symm

theorem OnlyAt.history {history : Nat} (h : OnlyAt a n m m')
    (hap : Apart a n history (lineMax * historySize)) : SameHistory history m m' :=
  fun i hi => h _ fun j hj heq => hap j hj i hi heq.symm

/-! ## What the memory means -/

/-- The history holds these lines, of which the newest is the first. -/
structure HistoryHolds (history : Nat) (ring : Ring) (m : Mem) (entries : List (List UInt8)) :
    Prop where
  count : ring.historyCount = entries.length
  size : entries.length ≤ historySize
  entry : ∀ i cs, entries[i]? = some cs →
    Slot history m ((ring.historyHead + 2 * historySize - 1 - i) % historySize) cs

theorem HistoryHolds.same {history : Nat} (h : HistoryHolds history ring m entries)
    (hm : SameHistory history m m') : HistoryHolds history ring m' entries :=
  ⟨h.count, h.size, fun i cs hcs => (h.entry i cs hcs).same (Nat.mod_lt _ (by decide)) hm⟩

/-- What `history_push` leaves can be looked into. -/
theorem historyHolds_of_pushed {history : Nat} {r : Ring} {lines : List (List UInt8)}
    (hroom : history + lineMax * historySize ≤ 2 ^ 64) (h : Pushed history r lines) :
    HistoryHolds history r r.mem ((accepted lines).reverse.take historySize) := by
  have hkeeps := h.keeps hroom
  refine ⟨?_, List.length_take_le .., fun i cs hcs => ?_⟩
  · rw [hkeeps.count_eq, List.length_take]
  · rw [List.getElem?_take] at hcs
    split at hcs
    case isTrue hi =>
      have hcount : i < r.historyCount := by
        have hlen := (List.getElem?_eq_some_iff.mp hcs).1
        rw [hkeeps.count_eq]
        omega
      rcases hkeeps.get (by decide) hcount with ⟨cs', hcs', hslot⟩
      cases hcs.symm.trans hcs'
      exact hslot
    case isFalse => cases hcs

/-- The local variables and the memory are those of the editor. -/
structure Represents (L : Layout) (ring : Ring) (entries : List (List UInt8)) (s : Locals)
    (e : Editor) : Prop where
  text : StringAt s.mem L.buf e.text
  short : e.text.length < lineMax
  pos : s.pos = e.text.length
  len : s.len = e.text.length
  history : HistoryHolds L.history ring s.mem entries
  live : e.browsing = none → s.histIdx = -1
  shown : ∀ i u, e.browsing = some (i, u) → s.histIdx = i ∧ i < entries.length ∧
    StringAt s.mem L.saved u ∧ u.length < lineMax

/-- An action leaves the locals of what the key does. -/
def Does (L : Layout) (ring : Ring) (entries : List (List UInt8)) (s : Locals) (a : LineAction)
    (e : Editor) : Prop :=
  ∃ s', perform L ring lineMax s a = some s' ∧ Represents L ring entries s' e

/-! ## The history -/

theorem entryAt_none (h : HistoryHolds L.history ring s.mem entries) {i : Nat}
    (hi : entries[i]? = none) : entryAt L ring s i = none := by
  have hle := List.getElem?_eq_none_iff.mp hi
  have hcount := h.count
  exact if_pos (.inr (by dsimp only; omega))

theorem entryAt_some (h : HistoryHolds L.history ring s.mem entries) {i : Nat}
    (hi : entries[i]? = some cs) :
    ∃ j < historySize, entryAt L ring s i = some (slot L.history j) ∧
      Slot L.history s.mem j cs := by
  have hlt := (List.getElem?_eq_some_iff.mp hi).1
  refine ⟨_, Nat.mod_lt _ (by decide), ?_, h.entry i cs hi⟩
  exact historyGet_of_lt (h.count.symm ▸ hlt) (h.count.symm ▸ h.size)

/-! ## Texts are copied -/

theorem measure_eq (h : StringAt s.mem L.buf cs) :
    measure L s = some { s with len := cs.length, pos := cs.length } := by
  rw [measure, strlen_eq h]
  rfl

theorem copyToBuf_eq {text : Nat} (h : StringAt s.mem text cs) (hlen : cs.length < lineMax)
    (hap : Apart L.buf lineMax text (cs.length + 1)) :
    ∃ m', copyToBuf L lineMax s text =
        some { s with mem := m', len := cs.length, pos := cs.length } ∧
      StringAt m' L.buf cs ∧ OnlyAt L.buf lineMax s.mem m' := by
  have hcopy := strncpy_terminated (by decide : lineMax ≤ 2 ^ 64) h hlen hap
  exact ⟨_, measure_eq hcopy.1, hcopy⟩

/-- The unfinished line is shown again. -/
theorem restores (hL : L.Disjoint) (hhist : HistoryHolds L.history ring s.mem entries)
    (hcs : StringAt s.mem L.saved cs) (hlen : cs.length < lineMax) :
    ∃ s', copyToBuf L lineMax { s with histIdx := -1 } L.saved = some s' ∧
      Represents L ring entries s' ⟨cs, none⟩ := by
  have hap : Apart L.buf lineMax L.saved (cs.length + 1) :=
    fun i hi j hj => hL.bufSaved i hi j (by omega)
  rcases copyToBuf_eq (s := { s with histIdx := -1 }) hcs hlen hap with ⟨m', hm', htext, honly⟩
  refine ⟨_, hm', htext, hlen, rfl, rfl, ?_, fun _ => rfl, fun _ _ h => nomatch h⟩
  exact hhist.same (honly.history hL.bufHistory)

/-- An entry is shown. -/
theorem shows (hL : L.Disjoint) (hhist : HistoryHolds L.history ring s.mem entries) {i : Nat}
    {unfinished : List UInt8} (hi : entries[i]? = some cs)
    (hsaved : StringAt s.mem L.saved unfinished) (hlen : unfinished.length < lineMax) :
    ∃ p s', entryAt L ring s i = some p ∧
      copyToBuf L lineMax { s with histIdx := i } p = some s' ∧
      Represents L ring entries s' ⟨cs, some (i, unfinished)⟩ := by
  rcases entryAt_some hhist hi with ⟨j, hj, hentry, hslot⟩
  have hap : Apart L.buf lineMax (slot L.history j) (cs.length + 1) := by
    intro k hk l hl
    have hshort := hslot.2
    have hin := slot_end_le hj
    rw [byteAt_slot]
    -- the slot is a part of the history, which is apart from `buf`
    exact hL.bufHistory k hk _ (by omega)
  rcases copyToBuf_eq (s := { s with histIdx := i }) hslot.1 hslot.2 hap with
    ⟨m', hm', htext, honly⟩
  refine ⟨_, _, hentry, hm', htext, hslot.2, rfl, rfl, ?_, (fun h => nomatch h), ?_⟩
  · exact hhist.same (honly.history hL.bufHistory)
  · intro _ _ h
    cases h
    exact ⟨rfl, (List.getElem?_eq_some_iff.mp hi).1, honly.string hL.bufSaved hsaved hlen, hlen⟩

/-- What `strncpy` writes behind `saved` is the only byte outside it that changes. -/
theorem saveInput_only (hL : L.Disjoint) (h : Represents L ring entries s e) :
    StringAt (saveInput L lineMax s).mem L.saved e.text ∧
      OnlyAt L.saved (lineMax + 1) s.mem (saveInput L lineMax s).mem := by
  have hshort := h.short
  have hmin : min lineMax (e.text.length + 1) = e.text.length + 1 := by omega
  have hap : Apart L.saved lineMax L.buf (min lineMax (e.text.length + 1)) :=
    fun i hi j hj heq => hL.bufSaved j (by omega) i hi heq.symm
  constructor
  · refine stringAt_of_bytes h.text.ne_zero fun i hi => ?_
    unfold saveInput
    dsimp only
    rw [h.len]
    by_cases hlast : i = e.text.length
    · rw [hlast, set_self, List.getD_eq_getElem?_getD, List.getElem?_eq_none (Nat.le_refl _)]
      rfl
    · rw [set_ne, strncpy_copied (by decide) h.text hap (by omega)]
      intro heq
      have h256 : lineMax = 256 := rfl
      exact hlast (byteAt_inj (by omega) (by omega) heq)
  -- what `saved[len] = '\0'` writes is inside, and `strncpy` writes one byte behind
  · intro x hx
    unfold saveInput
    dsimp only
    rw [h.len, set_ne _ _ (hx _ (by omega))]
    exact strncpy_frame h.text hap (fun i hi => hx i (by omega)) fun _ => hx lineMax (by omega)

/-- Where that byte is none of theirs, the line and the history stay. -/
theorem saveInput_represents (hL : L.Disjoint) (hclear : L.ClearBehind)
    (h : Represents L ring entries s e) (hlive : e.browsing = none) :
    Represents L ring entries (saveInput L lineMax s) e ∧
      StringAt (saveInput L lineMax s).mem L.saved e.text := by
  have h256 : lineMax = 256 := rfl
  rcases saveInput_only hL h with ⟨hsaved, honly⟩
  have hbuf : Apart L.saved (lineMax + 1) L.buf lineMax := by
    intro i hi j hj
    rcases Nat.lt_succ_iff_lt_or_eq.mp hi with hin | rfl
    · exact (hL.bufSaved j hj i hin).symm
    · exact Apart.behind (fun i hi j hj => (hL.bufSaved j hj i hi).symm) (by decide) hclear.buf hj
  have hhist : Apart L.saved (lineMax + 1) L.history (lineMax * historySize) := by
    intro i hi j hj
    rcases Nat.lt_succ_iff_lt_or_eq.mp hi with hin | rfl
    · exact hL.savedHistory i hin j hj
    · exact hL.savedHistory.behind (by decide) hclear.history hj
  refine ⟨⟨honly.string hbuf h.text h.short, h.short, h.pos, h.len,
    h.history.same (honly.history hhist), h.live, ?_⟩, hsaved⟩
  intro i u hsome
  rw [hlive] at hsome
  cases hsome

/-! ## Keys -/

/-- The up arrow saves what is typed and shows the next older line. -/
theorem does_older (hL : L.Disjoint) (hclear : L.ClearBehind)
    (h : Represents L ring entries s e) : Does L ring entries s .historyUp (e.older entries) := by
  -- the text that is unfinished, and where the entry is looked for
  obtain ⟨t, next, u, hup, hnext, ht, hu, hlen, holder⟩ : ∃ t : Locals, ∃ (next : Nat) (u : _),
      (if s.histIdx = -1 then saveInput L lineMax s else s) = t ∧ t.histIdx + 1 = next ∧
      Represents L ring entries t e ∧ StringAt t.mem L.saved u ∧ u.length < lineMax ∧
      e.older entries = match entries[next]? with
        | some entry => ⟨entry, some (next, u)⟩
        | none => e := by
    cases hb : e.browsing with
    | none =>
        have hidx := h.live hb
        have hsaved := saveInput_represents hL hclear h hb
        refine ⟨_, 0, e.text, if_pos hidx, ?_, hsaved.1, hsaved.2, h.short, ?_⟩
        · change s.histIdx + 1 = 0
          rw [hidx]
          rfl
        · rw [Editor.older, hb]
    | some iu =>
        rcases iu with ⟨i, u⟩
        rcases h.shown i u hb with ⟨hidx, -, hsaved, hlen⟩
        refine ⟨s, i + 1, u, if_neg (by omega), by rw [hidx]; rfl, h, hsaved, hlen, ?_⟩
        rw [Editor.older, hb]
  unfold Does perform historyUp
  dsimp only
  rw [hup, hnext, holder]
  cases hentry : entries[next]? with
  | none =>
      rw [entryAt_none ht.history hentry]
      exact ⟨t, rfl, ht⟩
  | some entry =>
      rcases shows hL ht.history hentry hu hlen with ⟨p, s', hp, hs', hrep⟩
      rw [hp]
      exact ⟨s', hs', hrep⟩

/-- The down arrow shows the next younger line, or an empty one. -/
theorem does_newer (hL : L.Disjoint) (h : Represents L ring entries s e) :
    Does L ring entries s .historyDown (e.newer entries) := by
  unfold Does perform historyDown
  dsimp only
  cases hb : e.browsing with
  | none =>
      have hidx := h.live hb
      rw [if_pos (by omega), if_neg (by omega), Editor.newer, hb]
      exact ⟨s, rfl, h⟩
  | some iu =>
      rcases iu with ⟨i, u⟩
      rcases h.shown i u hb with ⟨hidx, hi, hsaved, hlen⟩
      cases i with
      | zero =>
          rw [if_pos (by omega), if_pos (by omega), Editor.newer, hb]
          exact restores hL h.history hsaved hlen
      | succ i =>
          have hprev : s.histIdx - 1 = i := by omega
          have hin : entries[i]? = some entries[i] := List.getElem?_eq_getElem (by omega)
          rcases shows hL h.history hin hsaved hlen with ⟨p, s', hp, hs', hrep⟩
          rw [if_neg (by omega), if_neg (by omega), hprev, hp, Editor.newer, hb]
          dsimp only
          rw [hin]
          exact ⟨s', hs', hrep⟩

/-- A text that is changed in place. -/
theorem represents_changed {t : Locals} (hL : L.Disjoint) (h : Represents L ring entries s e)
    (htext : StringAt t.mem L.buf cs) (hshort : cs.length < lineMax) (hpos : t.pos = cs.length)
    (hlen : t.len = cs.length) (hidx : t.histIdx = s.histIdx)
    (honly : OnlyAt L.buf lineMax s.mem t.mem) :
    Represents L ring entries t { e with text := cs } := by
  refine ⟨htext, hshort, hpos, hlen, h.history.same (honly.history hL.bufHistory),
    fun hb => hidx.trans (h.live hb), ?_⟩
  intro i u hb
  rcases h.shown i u hb with ⟨hshown, hi, hsaved, hu⟩
  exact ⟨hidx.trans hshown, hi, honly.string hL.bufSaved hsaved hu, hu⟩

/-- The line is cut. -/
theorem stringAt_cut (h : StringAt m a cs) (hk : k ≤ cs.length) :
    StringAt (set m (byteAt a k) 0) a (cs.take k) := by
  have hlen := h.length_lt
  have htake : (cs.take k).length = k := List.length_take_of_le hk
  refine stringAt_of_bytes (fun c hc => h.ne_zero c (List.mem_of_mem_take hc)) fun i hi => ?_
  rw [htake] at hi
  rcases Nat.lt_or_eq_of_le hi with hlt | rfl
  · rw [set_ne, h.getD (by omega), List.getD_eq_getElem?_getD, List.getD_eq_getElem?_getD,
      List.getElem?_take_of_lt hlt]
    intro heq
    have hik := byteAt_inj (by omega) (by omega) heq
    omega
  · rw [set_self, List.getD_eq_getElem?_getD, List.getElem?_eq_none (Nat.le_of_eq htake)]
    rfl

theorem onlyAt_set (hk : k < n) (v : UInt8) : OnlyAt a n m (set m (byteAt a k) v) :=
  fun _ hx => set_ne m v (hx k hk)

theorem OnlyAt.trans {m'' : Mem} (h : OnlyAt a n m m') (h' : OnlyAt a n m' m'') :
    OnlyAt a n m m'' := fun x hx => (h' x hx).trans (h x hx)

theorem does_backspace (hL : L.Disjoint) (h : Represents L ring entries s e) :
    Does L ring entries s .backspace { e with text := e.text.dropLast } := by
  have hshort := h.short
  have hlen : e.text.dropLast.length = e.text.length - 1 := List.length_dropLast
  refine ⟨_, rfl, ?_⟩
  unfold backspace
  rw [h.pos, h.len]
  split
  case isTrue hpos =>
    have hcut := stringAt_cut h.text (Nat.sub_le e.text.length 1)
    rw [← List.dropLast_eq_take] at hcut
    -- the cursor is at the end, so that nothing moves
    dsimp only
    rw [Nat.sub_self, shiftLeft]
    exact represents_changed hL h hcut (by omega) hlen.symm hlen.symm rfl
      (onlyAt_set (by omega) 0)
  case isFalse hzero =>
    have hnil : e.text.dropLast = e.text := by
      rw [List.length_eq_zero_iff.mp (by omega : e.text.length = 0), List.dropLast_nil]
    rw [hnil]
    exact h

theorem does_clear (hL : L.Disjoint) (h : Represents L ring entries s e) :
    Does L ring entries s .clear { e with text := [] } := by
  have hcut := stringAt_cut h.text (Nat.zero_le _)
  exact ⟨_, rfl, represents_changed hL h hcut (Nat.zero_lt_succ _) rfl rfl rfl
    (onlyAt_set (Nat.zero_lt_succ _) 0)⟩

/-- A character is added. -/
theorem stringAt_concat {c : UInt8} (h : StringAt m a cs) (hc : c ≠ 0)
    (hlen : cs.length + 1 < 2 ^ 64) :
    StringAt (set (set m (byteAt a cs.length) c) (byteAt a (cs.length + 1)) 0) a (cs ++ [c]) := by
  have hsucc : (cs ++ [c]).length = cs.length + 1 := List.length_append
  refine stringAt_of_bytes (fun d hd => ?_) fun i hi => ?_
  · rcases List.mem_append.mp hd with hd | hd
    · exact h.ne_zero d hd
    · rw [List.mem_singleton.mp hd]
      exact hc
  · rw [hsucc] at hi
    have hne : ∀ j, j ≤ cs.length + 1 → i ≠ j → byteAt a i ≠ byteAt a j := by
      intro j hj hij heq
      exact hij (byteAt_inj (by omega) (by omega) heq)
    rw [List.getD_eq_getElem?_getD]
    rcases Nat.lt_trichotomy i cs.length with hlt | rfl | hgt
    · rw [set_ne _ _ (hne _ (Nat.le_refl _) (by omega)), set_ne _ _ (hne _ (by omega) (by omega)),
        h.getD (by omega), List.getD_eq_getElem?_getD, List.getElem?_append_left hlt]
    · rw [set_ne _ _ (hne _ (Nat.le_refl _) (by omega)), set_self, List.getElem?_concat_length]
      rfl
    · have hi' : i = cs.length + 1 := by omega
      rw [hi', set_self, List.getElem?_eq_none (Nat.le_of_eq hsucc)]
      rfl

theorem does_insert (hL : L.Disjoint) (h : Represents L ring entries s e) {c : Char}
    (hc : UInt8.ofNat c.toNat ≠ 0) :
    Does L ring entries s (.insert c) (e.press entries (.char (UInt8.ofNat c.toNat))) := by
  have h256 : lineMax = 256 := rfl
  refine ⟨_, rfl, ?_⟩
  unfold insert
  dsimp only [Editor.press]
  rw [h.pos, h.len]
  by_cases hroom : e.text.length < 255
  · rw [if_pos hroom, if_pos (by omega), Nat.sub_self, shiftRight]
    have hlen : (e.text ++ [UInt8.ofNat c.toNat]).length = e.text.length + 1 := List.length_append
    have honly : OnlyAt L.buf lineMax s.mem
        (set (set s.mem (byteAt L.buf e.text.length) (UInt8.ofNat c.toNat))
          (byteAt L.buf (e.text.length + 1)) 0) :=
      (onlyAt_set (by omega) _).trans (onlyAt_set (by omega) _)
    refine ⟨stringAt_concat h.text hc (by omega), by rw [hlen]; omega, hlen.symm, hlen.symm,
      h.history.same (honly.history hL.bufHistory), fun _ => rfl, fun _ _ hb => nomatch hb⟩
  · rw [if_neg hroom, if_neg (by omega)]
    exact h

theorem does_enter (hL : L.Disjoint) (h : Represents L ring entries s e) :
    Does L ring entries s .enter e := by
  refine ⟨_, rfl, ?_⟩
  have hcut := stringAt_cut h.text (Nat.le_refl _)
  rw [List.take_length, ← h.len] at hcut
  have hin : s.len < lineMax := h.len ▸ h.short
  exact represents_changed hL h hcut h.short h.pos h.len rfl (onlyAt_set hin 0)

/-! ## Streams -/

/-- The key that a branch of the loop stands for. -/
def keyOfAction : LineAction → EditKey
  | .historyUp => .older
  | .historyDown => .newer
  | .enter => .enter
  | .backspace => .backspace
  | .clear => .clear
  | .insert c => .char (UInt8.ofNat c.toNat)

/-- The editor next to a call that waits for a character. -/
def advance (entries : List (List UInt8)) (p : Waiting × Editor) (c : Char) : Waiting × Editor :=
  ((branch p.1 c).1, match (branch p.1 c).2 with
    | some a => p.2.press entries (keyOfAction a)
    | none => p.2)

/-- Only printable characters are inserted. -/
theorem insert_printable {w : Waiting} {c d : Char} (h : (branch w c).2 = some (.insert d)) :
    UInt8.ofNat d.toNat ≠ 0 := by
  -- the branch that inserts is behind a comparison with both ends of the printable range
  have hprintable : ' ' ≤ d → d < '\x7f' → UInt8.ofNat d.toNat ≠ 0 := by
    intro hlo hhi hzero
    have hlo' : (32 : Nat) ≤ d.toNat := hlo
    have hhi' : d.toNat < 127 := hhi
    have hval := congrArg UInt8.toNat hzero
    rw [UInt8.toNat_ofNat'] at hval
    have hz : (0 : UInt8).toNat = 0 := rfl
    omega
  cases w with
  | c =>
      simp only [branch] at h
      split_ifs at h with _ _ _ _ hrange
      all_goals cases h
      exact hprintable hrange.1 hrange.2
  | c2 =>
      rw [branch_c2] at h
      cases h
  | c3 =>
      simp only [branch] at h
      split_ifs at h
      all_goals cases h
  | returned => cases h

theorem does_branch (hL : L.Disjoint) (hclear : L.ClearBehind)
    (h : Represents L ring entries s e) {w : Waiting} {c : Char} {act : LineAction}
    (hact : (branch w c).2 = some act) :
    Does L ring entries s act (e.press entries (keyOfAction act)) := by
  cases act with
  | historyUp => exact does_older hL hclear h
  | historyDown => exact does_newer hL h
  | enter => exact does_enter hL h
  | backspace => exact does_backspace hL h
  | clear => exact does_clear hL h
  | insert d => exact does_insert hL h (insert_printable hact)

/-- One character. -/
theorem read_represents (hL : L.Disjoint) (hclear : L.ClearBehind) {call : Call}
    (h : Represents L ring entries call.locals e) (c : Char) :
    ∃ call', read L ring lineMax call c = some call' ∧
      call'.waiting = (advance entries (call.waiting, e) c).1 ∧
      Represents L ring entries call'.locals (advance entries (call.waiting, e) c).2 := by
  -- the two agree on which branch is taken, so the cases are those of the branch
  rcases hbranch : branch call.waiting c with ⟨w, - | act⟩
  · refine ⟨⟨w, call.locals⟩, ?_, ?_, ?_⟩
    · rw [read, hbranch]
    · rw [advance, hbranch]
    · rw [advance, hbranch]
      exact h
  · rcases does_branch hL hclear h (congrArg Prod.snd hbranch) with ⟨s', hs', hrep⟩
    refine ⟨⟨w, s'⟩, ?_, ?_, ?_⟩
    · rw [read, hbranch]
      dsimp only
      rw [hs']
      rfl
    · rw [advance, hbranch]
    · rw [advance, hbranch]
      exact hrep

/-- The characters of a stream. -/
theorem reads_represent (hL : L.Disjoint) (hclear : L.ClearBehind) {call : Call}
    (h : Represents L ring entries call.locals e) (cs : List Char) :
    ∃ call', cs.foldlM (read L ring lineMax) call = some call' ∧
      call'.waiting = (cs.foldl (advance entries) (call.waiting, e)).1 ∧
      Represents L ring entries call'.locals (cs.foldl (advance entries) (call.waiting, e)).2 := by
  induction cs generalizing call e with
  | nil => exact ⟨call, rfl, rfl, h⟩
  | cons c cs ih =>
      rcases read_represents hL hclear h c with ⟨call₁, h₁, hwaiting, hrep⟩
      rcases ih hrep with ⟨call', h', hwaiting', hrep'⟩
      rw [hwaiting] at hwaiting' hrep'
      refine ⟨call', ?_, hwaiting', hrep'⟩
      rw [List.foldlM_cons, h₁]
      exact h'

theorem represents_start (hL : L.Disjoint) (hhist : HistoryHolds L.history ring m entries)
    (hbuf : m (byteAt L.buf 0) = 0) :
    Represents L ring entries (Call.start L m).locals Editor.empty := by
  have honly : OnlyAt L.saved lineMax m (set m (byteAt L.saved 0) 0) :=
    onlyAt_set (Nat.zero_lt_succ _) 0
  have htext : StringAt m L.buf [] := hbuf
  refine ⟨honly.string (k := lineMax) ?_ htext (Nat.zero_lt_succ _), Nat.zero_lt_succ _, rfl, rfl,
    hhist.same (honly.history hL.savedHistory), fun _ => rfl, fun _ _ h => nomatch h⟩
  exact fun i hi j hj => (hL.bufSaved j hj i hi).symm

/-- A call that has returned stays. -/
theorem foldl_returned (e : Editor) (cs : List Char) :
    cs.foldl (advance entries) (.returned, e) = (.returned, e) := by
  induction cs with
  | nil => rfl
  | cons c cs ih => exact ih

/-- A character at the beginning of the loop. -/
theorem advance_c {c : Char} (hc : c ≠ esc) (e : Editor) :
    advance entries (.c, e) c =
      (if keyOf c = .enter then .returned else .c, e.press entries (keyOf c)) := by
  simp only [advance, branch, if_neg hc, keyOf]
  split_ifs <;> first | rfl | contradiction

theorem edit_cons {key : EditKey} (hkey : key ≠ .enter) (e : Editor) (keys : List EditKey) :
    e.edit entries (key :: keys) = (e.press entries key).edit entries keys := by
  cases key with
  | enter => exact absurd rfl hkey
  | _ => rfl

theorem arrowKey_ne (c3 : Char) : arrowKey c3 ≠ .enter := by
  unfold arrowKey
  split_ifs
  all_goals exact fun h => nomatch h

theorem advance_arrow (c3 : Char) (e : Editor) (cs : List Char) :
    (esc :: '[' :: c3 :: cs).foldl (advance entries) (.c, e) =
      cs.foldl (advance entries) (.c, e.press entries (arrowKey c3)) := by
  have hc3 : advance entries (.c3, e) c3 = (.c, e.press entries (arrowKey c3)) := by
    simp only [advance, branch, arrowKey]
    split_ifs <;> rfl
  rw [← hc3]
  rfl

/-- The characters of a stream are its keys. -/
theorem edit_keysOf (e : Editor) (cs : List Char) :
    (e.edit entries (keysOf cs)).1 = (cs.foldl (advance entries) (.c, e)).2 ∧
      ((e.edit entries (keysOf cs)).2 = true ↔
        (cs.foldl (advance entries) (.c, e)).1 = .returned) := by
  fun_induction keysOf cs generalizing e with
  | case1 => exact ⟨rfl, by simp [Editor.edit]⟩
  | case2 => exact ⟨rfl, iff_of_false Bool.false_ne_true (fun h => nomatch h)⟩
  | case3 => exact ⟨rfl, iff_of_false Bool.false_ne_true (fun h => nomatch h)⟩
  | case4 c3 cs ih =>
      rw [advance_arrow, edit_cons (arrowKey_ne c3)]
      exact ih _
  | case5 c2 cs hend hnone ih =>
      -- the keys say that this is no arrow: what follows Escape is no bracket
      have hc2 : c2 ≠ '[' := by
        rintro rfl
        cases cs with
        | nil => exact hend rfl rfl
        | cons c3 cs => exact hnone c3 cs rfl rfl
      have hother : (esc :: c2 :: cs).foldl (advance entries) (.c, e) =
          cs.foldl (advance entries) (.c, e) := by
        have hbranch : branch .c2 c2 = (.c, none) := if_neg hc2
        have hadvance : advance entries (.c2, e) c2 = (.c, e) := by
          rw [advance, hbranch]
        change cs.foldl (advance entries) (advance entries (.c2, e) c2) = _
        rw [hadvance]
      rw [hother]
      exact ih e
  | case6 c cs hc ih =>
      rw [List.foldl_cons, advance_c hc]
      -- behind Enter the call ignores what comes, as the editor does
      by_cases henter : keyOf c = .enter
      · rw [if_pos henter, henter, foldl_returned]
        exact ⟨rfl, iff_of_true rfl rfl⟩
      · rw [if_neg henter, edit_cons henter]
        exact ih _

/-! ## Up and down -/

/-- So many arrow keys. -/
def arrows (c3 : Char) (k : Nat) : List Char := (List.replicate k [esc, '[', c3]).flatten

theorem foldl_arrows (c3 : Char) (k : Nat) (e : Editor) :
    (arrows c3 k).foldl (advance entries) (.c, e) =
      (.c, (fun e => e.press entries (arrowKey c3))^[k] e) := by
  induction k generalizing e with
  | zero => rfl
  | succ k ih =>
      have hsplit : arrows c3 (k + 1) = esc :: '[' :: c3 :: arrows c3 k := rfl
      rw [hsplit, advance_arrow, ih]
      rfl

/-- The unfinished line is `u`, and it is fewer than `k` entries below. -/
def Below (entries : List (List UInt8)) (u : List UInt8) (k : Nat) (e : Editor) : Prop :=
  e = ⟨u, none⟩ ∨ ∃ t i, e = ⟨t, some (i, u)⟩ ∧ i < k ∧ i < entries.length

theorem Below.older {u : List UInt8} (h : Below entries u k e) :
    Below entries u (k + 1) (e.older entries) := by
  rcases h with rfl | ⟨t, i, rfl, hik, hi⟩
  · dsimp only [Editor.older]
    cases hentry : entries[0]? with
    | none => exact .inl rfl
    | some entry =>
        have hlen := (List.getElem?_eq_some_iff.mp hentry).1
        exact .inr ⟨entry, 0, rfl, Nat.succ_pos k, hlen⟩
  · dsimp only [Editor.older]
    cases hentry : entries[i + 1]? with
    | none => exact .inr ⟨t, i, rfl, Nat.lt_succ_of_lt hik, hi⟩
    | some entry =>
        have hlen := (List.getElem?_eq_some_iff.mp hentry).1
        exact .inr ⟨entry, i + 1, rfl, Nat.succ_lt_succ hik, hlen⟩

theorem Below.newer {u : List UInt8} (h : Below entries u (k + 1) e) :
    Below entries u k (e.newer entries) := by
  rcases h with rfl | ⟨t, i, rfl, hik, hi⟩
  · exact .inl rfl
  · cases i with
    | zero => exact .inl rfl
    | succ i =>
        have hentry : entries[i]? = some entries[i] := List.getElem?_eq_getElem (by omega)
        dsimp only [Editor.newer]
        rw [hentry]
        exact .inr ⟨_, i, rfl, Nat.lt_of_succ_lt_succ hik, by omega⟩

theorem Below.olders {u : List UInt8} (h : Below entries u 0 e) (k : Nat) :
    Below entries u k ((fun e : Editor => e.older entries)^[k] e) := by
  induction k with
  | zero => exact h
  | succ k ih =>
      rw [Function.iterate_succ_apply']
      exact ih.older

theorem Below.newers {u : List UInt8} (h : Below entries u k e) :
    Below entries u 0 ((fun e : Editor => e.newer entries)^[k] e) := by
  induction k generalizing e with
  | zero => exact h
  | succ k ih =>
      rw [Function.iterate_succ_apply]
      exact ih h.newer

/-- As many steps down as up lead back to the unfinished line. -/
theorem up_down (hlive : e.browsing = none) (k : Nat) :
    (arrows 'A' k ++ arrows 'B' k).foldl (advance entries) (.c, e) = (.c, e) := by
  have hbelow : Below entries e.text 0 e := .inl (by rw [← hlive])
  rw [List.foldl_append, foldl_arrows, foldl_arrows]
  have hback := (hbelow.olders k).newers
  rcases hback with hback | ⟨t, i, -, hi, -⟩
  · refine congrArg (Prod.mk Waiting.c) (hback.trans ?_)
    rw [← hlive]
  · cases hi

/-! ## The editors agree -/

/-- A call is where the editor is: it shows the same text, and it has returned where Enter has
been pressed; the cursor is at the end of the text, and the text is shorter than `buf`. -/
structure Agrees (L : Layout) (entries : List (List UInt8)) (cs : List Char) (call : Call) :
    Prop where
  text : StringAt call.locals.mem L.buf (Editor.empty.edit entries (keysOf cs)).1.text
  returned : (Editor.empty.edit entries (keysOf cs)).2 = true ↔ call.waiting = .returned
  pos : call.locals.pos = call.locals.len
  short : call.locals.len < lineMax
  ends : call.locals.mem (byteAt L.buf call.locals.len) = 0

/-- Outside the history, as many steps down as up show the text again. -/
def ComesBack (L : Layout) (ring : Ring) (m : Mem) (cs : List Char) (call : Call) : Prop :=
  call.waiting = .c → call.locals.histIdx = -1 → ∀ k t, StringAt call.locals.mem L.buf t →
    ∃ call', shellReadline L ring lineMax m (cs ++ (arrows 'A' k ++ arrows 'B' k)) = some call' ∧
      StringAt call'.locals.mem L.buf t

/-- In this layout `shell_readline` is the line editor, for every history and every stream. -/
def EditsLines (L : Layout) : Prop :=
  ∀ ring m entries, HistoryHolds L.history ring m entries → m (byteAt L.buf 0) = 0 →
    ∀ cs, ∃ call, shellReadline L ring lineMax m cs = some call ∧
      Agrees L entries cs call ∧ ComesBack L ring m cs call

/-- By induction on the characters: each does what its action does, until the newline. -/
theorem editsLines_of_clear (hL : L.Disjoint) (hclear : L.ClearBehind) : EditsLines L := by
  intro ring m entries hhist hbuf cs
  have hstart := represents_start hL hhist hbuf
  rcases reads_represent hL hclear hstart cs with ⟨call, hcall, hwaiting, hrep⟩
  have hbegin : (Call.start L m).waiting = .c := rfl
  rw [hbegin] at hwaiting hrep
  have hedit : (Editor.empty.edit entries (keysOf cs)).1 = _ ∧ _ := edit_keysOf Editor.empty cs
  have hend := hrep.text.end
  rw [← hrep.len] at hend
  refine ⟨call, hcall, ⟨?_, ?_, hrep.pos.trans hrep.len.symm, hrep.len ▸ hrep.short, hend⟩, ?_⟩
  · rw [hedit.1]
    exact hrep.text
  · rw [hedit.2, hwaiting]
  -- outside the history the editor has nothing unfinished below what it shows
  · intro hc hidx k t ht
    rcases reads_represent hL hclear hrep (arrows 'A' k ++ arrows 'B' k) with
      ⟨call', hcall', -, hrep'⟩
    have hlive : (cs.foldl (advance entries) (.c, Editor.empty)).2.browsing = none := by
      cases hb : (cs.foldl (advance entries) (.c, Editor.empty)).2.browsing with
      | none => rfl
      | some iu =>
          have hshown := (hrep.shown iu.1 iu.2 hb).1
          rw [hidx] at hshown
          omega
    rw [hc, up_down hlive] at hrep'
    refine ⟨call', ?_, ?_⟩
    · rw [shellReadline, List.foldlM_append]
      rw [hcall]
      exact hcall'
    · rw [ht.unique hrep.text]
      exact hrep'.text

/-- Whatever has been pushed, in a clear layout the lines that are edited come from the last 16
that were accepted. -/
theorem edits_pushed_lines {lines : List (List UInt8)} (hL : L.Disjoint) (hclear : L.ClearBehind)
    (hroom : L.history + lineMax * historySize ≤ 2 ^ 64) (hpushed : Pushed L.history ring lines)
    (hm : SameHistory L.history ring.mem m) (hbuf : m (byteAt L.buf 0) = 0) (cs : List Char) :
    ∃ call, shellReadline L ring lineMax m cs = some call ∧
      Agrees L ((accepted lines).reverse.take historySize) cs call := by
  have hhist := (historyHolds_of_pushed hroom hpushed).same hm
  rcases editsLines_of_clear hL hclear ring m _ hhist hbuf cs with ⟨call, hcall, hagrees, -⟩
  exact ⟨call, hcall, hagrees⟩

/-- In every layout where what stands right behind `saved` is neither the line nor the history,
`shell_readline` is the line editor over strings. -/
theorem line_editor (L : Layout) (hL : L.Disjoint) (hclear : L.ClearBehind) : EditsLines L :=
  editsLines_of_clear hL hclear

theorem line_editor_apart : EditsLines ⟨4096, 8192, 16384⟩ :=
  line_editor ⟨4096, 8192, 16384⟩
    ⟨apart_of_le (by decide) (by decide) (.inl (by decide)),
      apart_of_le (by decide) (by decide) (.inl (by decide)),
      apart_of_le (by decide) (by decide) (.inl (by decide))⟩
    ⟨by decide, by decide⟩

end PolandOS.Shell.InMemory
