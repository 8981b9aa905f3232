import PolandOS.Lib.MemString
import PolandOS.Lib.Words

/-! # Arguments

`parse_args` of `kernel/shell/shell.c` cuts a line in place. `parse_args_splits`: its arguments
are the words of the line, as many as there is room for.
-/

namespace PolandOS.Shell.InMemory

open ByteMem Words

/-! ## `parse_args` -/

section Source

variable (m : Mem)

/-- `while (*p == ' ') p++;`, for so many bytes. -/
def skipSpaces : Nat → Nat → Option Nat
  | 0, _ => none
  | fuel + 1, p => if m (p % 2 ^ 64) = 32 then skipSpaces fuel (p + 1) else some p

/-- `while (*p && *p != ' ') p++;`, for so many bytes. -/
def skipWord : Nat → Nat → Option Nat
  | 0, _ => none
  | fuel + 1, p =>
    if m (p % 2 ^ 64) ≠ 0 ∧ m (p % 2 ^ 64) ≠ 32 then skipWord fuel (p + 1) else some p

end Source

/-- The loop of `parse_args`, with the arguments so far; `count < max_args` is the room that is
left. -/
def parseLoop (m : Mem) (p : Nat) (args : List Nat) : Nat → Option (Mem × List Nat)
  | 0 => some (m, args)
  | room + 1 =>
    if m (p % 2 ^ 64) = 0 then some (m, args)
    else
      (skipSpaces m (2 ^ 64) p).bind fun p =>
        if m (p % 2 ^ 64) = 0 then some (m, args)
        else
          (skipWord m (2 ^ 64) p).bind fun behind =>
            if m (behind % 2 ^ 64) = 0 then parseLoop m behind (args ++ [p]) room
            else parseLoop (set m (behind % 2 ^ 64) 0) (behind + 1) (args ++ [p]) room

/-- `parse_args`: what it returns, the memory and `args`. -/
def parseArgs (m : Mem) (line : Nat) (maxArgs : Int) : Option (Int × Mem × List Nat) :=
  (parseLoop m line [] maxArgs.toNat).map fun (m, args) => (args.length, m, args)

/-! ## The loops -/

/-- A space. -/
def isBlank (c : UInt8) : Bool := c == 32

variable {m m' : Mem} {p fuel room : Nat} {args : List Nat} {cs w rest : List UInt8}

/-- The loop stops behind the blanks. -/
theorem skipSpaces_eq {seps : List UInt8} (h : StringAt m p (seps ++ rest))
    (hseps : ∀ c ∈ seps, isBlank c) (hrest : ∀ c cs, rest = c :: cs → isBlank c = false)
    (hfuel : seps.length < fuel) : skipSpaces m fuel p = some (p + seps.length) := by
  induction seps generalizing p fuel with
  | nil =>
      rcases fuel with - | fuel
      · cases hfuel
      refine if_neg fun hblank => ?_
      cases rest with
      | nil =>
          have hend : m (p % 2 ^ 64) = 0 := h
          rw [hend] at hblank
          cases hblank
      | cons c cs =>
          have hc : c = 32 := h.1.symm.trans hblank
          have hno := hrest c cs rfl
          rw [hc] at hno
          cases hno
  | cons c seps ih =>
      rcases fuel with - | fuel
      · cases hfuel
      rcases List.forall_mem_cons.mp hseps with ⟨hc, hseps⟩
      have hblank : m (p % 2 ^ 64) = 32 := h.1.trans (beq_iff_eq.mp hc)
      rw [skipSpaces, if_pos hblank, ih h.2.2 hseps (Nat.lt_of_succ_lt_succ hfuel),
        List.length_cons, Nat.add_comm seps.length 1, Nat.add_assoc]

theorem skipWord_eq (h : StringAt m p (w ++ rest)) (hw : ∀ c ∈ w, isBlank c = false)
    (hrest : Ends isBlank rest) (hfuel : w.length < fuel) :
    skipWord m fuel p = some (p + w.length) := by
  induction w generalizing p fuel with
  | nil =>
      rcases fuel with - | fuel
      · cases hfuel
      refine if_neg fun hgo => ?_
      cases rest with
      | nil => exact hgo.1 h
      | cons c cs => exact hgo.2 (h.1.trans (beq_iff_eq.mp (hrest c cs rfl)))
  | cons c w ih =>
      rcases fuel with - | fuel
      · cases hfuel
      rcases List.forall_mem_cons.mp hw with ⟨hc, hw⟩
      have hgo : m (p % 2 ^ 64) ≠ 0 ∧ m (p % 2 ^ 64) ≠ 32 := by
        rw [h.1]
        exact ⟨h.2.1, beq_eq_false_iff_ne.mp hc⟩
      rw [skipWord, if_pos hgo, ih h.2.2 hw (Nat.lt_of_succ_lt_succ hfuel), List.length_cons,
        Nat.add_comm w.length 1, Nat.add_assoc]

/-- A line begins with spaces, and the rest of it with a word, if anything is left. -/
theorem line_cases (cs : List UInt8) : ∃ seps rest, cs = seps ++ rest ∧ (∀ c ∈ seps, isBlank c) ∧
    (rest = [] ∨ ∃ w tail, rest = w ++ tail ∧ w ≠ [] ∧ (∀ c ∈ w, isBlank c = false) ∧
      Ends isBlank tail) := by
  refine ⟨cs.takeWhile isBlank, cs.dropWhile isBlank,
    (List.takeWhile_append_dropWhile ..).symm, fun c hc => List.mem_takeWhile_imp hc, ?_⟩
  cases hrest : cs.dropWhile isBlank with
  | nil => exact .inl rfl
  | cons c rest =>
      have hc : isBlank c = false := by
        have hhead := List.head_dropWhile_not (p := isBlank) (l := cs) (by simp [hrest])
        simpa only [hrest, List.head_cons] using hhead
      refine .inr ⟨(c :: rest).takeWhile (!isBlank ·), (c :: rest).dropWhile (!isBlank ·),
        (List.takeWhile_append_dropWhile ..).symm, ?_, fun d hd => ?_, fun d ds hd => ?_⟩
      · rw [List.takeWhile_cons_of_pos (by simp [hc])]
        exact List.cons_ne_nil _ _
      · simpa using List.mem_takeWhile_imp hd
      · have hhead := List.head_dropWhile_not (p := (!isBlank ·)) (l := c :: rest) (by simp [hd])
        simpa only [hd, List.head_cons, Bool.not_eq_false'] using hhead

/-! ## The words -/

/-- The words at `p` have been copied in place, and outside the line nothing has changed. -/
structure Copied (m : Mem) (p : Nat) (cs : List UInt8) (ws : List (Nat × List UInt8)) (m' : Mem) :
    Prop where
  word : ∀ word ∈ ws, StringAt m' (p + word.1) word.2
  outside : ∀ x, (∀ i < cs.length, x ≠ byteAt p i) → m' x = m x

theorem copied_nil : Copied m p cs [] m := ⟨(fun _ h => nomatch h), fun _ _ => rfl⟩

/-- Separators in front of the words. -/
theorem Copied.separators {seps : List UInt8} {ws : List (Nat × List UInt8)}
    (h : Copied m (p + seps.length) rest ws m') :
    Copied m p (seps ++ rest) (ws.map (shift seps.length)) m' := by
  constructor
  · intro word hword
    rcases List.mem_map.mp hword with ⟨word, hmem, rfl⟩
    have hcopy := h.word word hmem
    rwa [Nat.add_assoc] at hcopy
  · intro x hx
    refine h.outside x fun i hi => ?_
    rw [byteAt_add]
    exact hx _ (by rw [List.length_append]; omega)

/-- The last word is ended by the end of the line. -/
theorem copied_last (h : StringAt m p w) : Copied m p w [(0, w)] m := by
  refine ⟨fun word hword => ?_, fun _ _ => rfl⟩
  rw [List.mem_singleton.mp hword]
  exact h

/-- A word is ended by a 0 in place of the space behind it; what follows is behind that. -/
theorem Copied.word_cut {ws : List (Nat × List UInt8)} {c : UInt8}
    (hline : StringAt m p (w ++ c :: rest))
    (h : Copied (set m (byteAt p w.length) 0) (p + w.length + 1) rest ws m') :
    Copied m p (w ++ c :: rest) ((0, w) :: (ws.map (shift 1)).map (shift w.length)) m' := by
  have hlen : (w ++ c :: rest).length = w.length + 1 + rest.length := by
    rw [List.length_append, List.length_cons]
    omega
  have hshort := hline.length_lt
  rw [hlen] at hshort
  have hbehind : ∀ i, byteAt (p + w.length + 1) i = byteAt p (w.length + 1 + i) := by
    intro i
    rw [Nat.add_assoc, byteAt_add]
  constructor
  · intro word hword
    rcases List.mem_cons.mp hword with rfl | hword
    · refine stringAt_of_bytes (fun d hd => hline.ne_zero d (List.mem_append_left _ hd)) ?_
      intro i hi
      have hi : i ≤ w.length := hi
      -- what follows is behind the word
      have hkept : m' (byteAt p i) = set m (byteAt p w.length) 0 (byteAt p i) := by
        refine h.outside _ fun j hj heq => ?_
        rw [hbehind] at heq
        have hin := byteAt_inj (by omega) (by omega) heq
        omega
      change m' (byteAt p i) = w.getD i 0
      rw [hkept]
      rcases Nat.lt_or_eq_of_le hi with hlt | rfl
      · rw [set_ne, hline.getD (by omega), List.getD_eq_getElem?_getD, List.getD_eq_getElem?_getD,
          List.getElem?_append_left hlt]
        intro heq
        have hin := byteAt_inj (by omega) (by omega) heq
        omega
      · rw [set_self, List.getD_eq_getElem?_getD, List.getElem?_eq_none (Nat.le_refl _)]
        rfl
    · rw [List.map_map] at hword
      rcases List.mem_map.mp hword with ⟨word, hmem, rfl⟩
      have hcopy := h.word word hmem
      rwa [Nat.add_assoc, Nat.add_assoc] at hcopy
  · intro x hx
    rw [h.outside x fun i hi => hbehind i ▸ hx _ (by omega), set_ne]
    exact hx _ (by omega)

theorem parseLoop_end (h : m (p % 2 ^ 64) = 0) (room : Nat) (args : List Nat) :
    parseLoop m p args room = some (m, args) := by
  cases room with
  | zero => rfl
  | succ room => exact if_pos h

/-- The 0 in place of a space is in front of what follows. -/
theorem stringAt_behind_cut {c : UInt8} (h : StringAt m p (c :: rest)) :
    StringAt (set m (p % 2 ^ 64) 0) (p + 1) rest := by
  have hshort := h.length_lt
  rw [List.length_cons] at hshort
  refine h.2.2.set_ne 0 fun i hi heq => ?_
  rw [byteAt_succ] at heq
  have hzero : byteAt p (i + 1) = byteAt p 0 := heq
  have hin := byteAt_inj (by omega) (by omega) hzero
  omega

/-- A round in front of spaces only. -/
theorem parseLoop_spaces {seps : List UInt8} (h : StringAt m p seps)
    (hseps : ∀ c ∈ seps, isBlank c) (room : Nat) (args : List Nat) :
    parseLoop m p args (room + 1) = some (m, args) := by
  rw [parseLoop]
  split
  case isTrue => rfl
  case isFalse =>
    have hline : StringAt m p (seps ++ []) := by rwa [List.append_nil]
    have hskip : skipSpaces m (2 ^ 64) p = some (p + seps.length) :=
      skipSpaces_eq hline hseps (fun _ _ hc => nomatch hc) h.length_lt
    have hlast : m ((p + seps.length) % 2 ^ 64) = 0 := h.end
    rw [hskip, Option.bind_some, if_pos hlast]

/-- A round in front of a word, which is cut off behind its last character. -/
theorem parseLoop_word {seps tail : List UInt8} (h : StringAt m p (seps ++ (w ++ tail)))
    (hseps : ∀ c ∈ seps, isBlank c) (hne : w ≠ []) (hw : ∀ c ∈ w, isBlank c = false)
    (htail : Ends isBlank tail) (room : Nat) (args : List Nat) :
    let behind := p + seps.length + w.length
    parseLoop m p args (room + 1) =
      if m (behind % 2 ^ 64) = 0 then parseLoop m behind (args ++ [p + seps.length]) room
      else parseLoop (set m (behind % 2 ^ 64) 0) (behind + 1) (args ++ [p + seps.length]) room := by
  have hfuel := h.length_lt
  rw [List.length_append, List.length_append] at hfuel
  have hword := h.behind
  rcases List.exists_cons_of_ne_nil hne with ⟨d, w, rfl⟩
  -- the line has not ended, neither here nor behind the spaces
  have hfirst : m ((p + seps.length) % 2 ^ 64) ≠ 0 := by
    rw [hword.1]
    exact hword.2.1
  have hhere : m (p % 2 ^ 64) ≠ 0 := by
    intro hend
    have hnil : seps ++ (d :: w ++ tail) = [] := h.unique hend
    rw [List.append_eq_nil_iff] at hnil
    cases hnil.2
  have hskip : skipSpaces m (2 ^ 64) p = some (p + seps.length) := by
    refine skipSpaces_eq h hseps (fun c ds hc => ?_) (by omega)
    cases hc
    exact hw d List.mem_cons_self
  have hskipWord := skipWord_eq hword hw htail (by omega : (d :: w).length < 2 ^ 64)
  dsimp only
  rw [parseLoop, if_neg hhere, hskip, Option.bind_some, if_neg hfirst, hskipWord, Option.bind_some]

/-- The loop finds the words of the line, while there is room for them. -/
theorem parseLoop_eq (h : StringAt m p cs) (room : Nat) (args : List Nat) :
    ∃ m', parseLoop m p args room =
        some (m', args ++ ((words isBlank cs).take room).map (p + ·.1)) ∧
      Copied m p cs ((words isBlank cs).take room) m' := by
  induction room generalizing m p cs args with
  | zero =>
      refine ⟨m, ?_, copied_nil⟩
      rw [List.take_zero, List.map_nil, List.append_nil]
      rfl
  | succ room ih =>
      rcases line_cases cs with ⟨seps, rest, rfl, hseps, rfl | ⟨w, tail, rfl, hne, hw, htail⟩⟩
      · rw [List.append_nil] at h ⊢
        have hnone : words isBlank seps = [] := by
          rw [← List.append_nil seps, words_separators hseps, words_nil, List.map_nil]
        rw [parseLoop_spaces h hseps, hnone, List.take_nil, List.map_nil, List.append_nil]
        exact ⟨m, rfl, copied_nil⟩
      have hword := h.behind
      have hnext := hword.behind
      rw [parseLoop_word h hseps hne hw htail, words_separators hseps, words_append hw hne htail]
      cases tail with
      | nil =>
          have hlast : m ((p + seps.length + w.length) % 2 ^ 64) = 0 := hnext
          rw [if_pos hlast, parseLoop_end hlast, words_nil, List.map_nil, List.map_cons,
            List.map_nil, List.take_succ_cons, List.take_nil]
          rw [List.append_nil] at hword ⊢
          exact ⟨m, rfl, (copied_last hword).separators⟩
      | cons c tail =>
          have hgo : m ((p + seps.length + w.length) % 2 ^ 64) ≠ 0 := by
            rw [hnext.1]
            exact hnext.2.1
          -- the rest of the line is as it was, behind the 0 in place of the space
          rcases ih (stringAt_behind_cut hnext) (args ++ [p + seps.length]) with
            ⟨m', hm', hcopied⟩
          rw [if_neg hgo, hm', words_cons (htail c tail rfl)]
          refine ⟨m', ?_, ?_⟩
          · rw [List.map_cons, List.take_succ_cons, List.map_cons, List.append_assoc]
            refine congrArg (fun l => some (m', args ++ (p + seps.length) :: l)) ?_
            rw [← List.map_take, ← List.map_take, ← List.map_take, List.map_map, List.map_map,
              List.map_map]
            refine List.map_congr_left fun word _ => ?_
            simp only [Function.comp_apply, shift]
            omega
          · rw [← List.map_take, List.take_succ_cons, ← List.map_take, ← List.map_take]
            exact (Copied.word_cut hword hcopied).separators

/-! ## The arguments -/

/-- What `parse_args` returns and leaves behind. -/
structure Splits (m : Mem) (line : Nat) (cs : List UInt8) (maxArgs argc : Int) (m' : Mem)
    (args : List Nat) : Prop where
  returned : argc = max 0 (min maxArgs (words isBlank cs).length)
  argument : ∀ i : Nat, i < argc → ∃ pos w, (words isBlank cs)[i]? = some (pos, w) ∧
    args[i]? = some (line + pos) ∧ StringAt m' (line + pos) w
  outside : ∀ x, (∀ i < cs.length, x ≠ byteAt line i) → m' x = m x

/-- The arguments are the words of the line, as many as there is room for, and nothing outside
the line is written. -/
theorem parse_args_splits (m : Mem) (line : Nat) (cs : List UInt8) (maxArgs : Int)
    (h : StringAt m line cs) :
    ∃ argc m' args, parseArgs m line maxArgs = some (argc, m', args) ∧
      Splits m line cs maxArgs argc m' args := by
  rcases parseLoop_eq h maxArgs.toNat [] with ⟨m', hm', hcopied⟩
  rw [List.nil_append] at hm'
  refine ⟨_, m', _, by rw [parseArgs, hm']; rfl, ?_, fun i hi => ?_, hcopied.outside⟩
  · rw [List.length_map, List.length_take]
    omega
  · rw [List.length_map] at hi
    have hlt : i < ((words isBlank cs).take maxArgs.toNat).length := by omega
    have hentry := List.getElem?_eq_getElem hlt
    refine ⟨_, _, ?_, ?_, hcopied.word _ (List.getElem_mem hlt)⟩
    · rw [List.getElem_take, ← List.getElem?_eq_getElem]
    · rw [List.getElem?_map, hentry]
      rfl

/-- The line ` a  b`. -/
def lineAB : Mem := store (fun _ => 0) [(4096, 32), (4097, 97), (4098, 32), (4099, 32), (4100, 98)]

theorem parse_args_splits_two : ∃ argc m' args, parseArgs lineAB 4096 16 = some (argc, m', args) ∧
    Splits lineAB 4096 [32, 97, 32, 32, 98] 16 argc m' args :=
  parse_args_splits lineAB 4096 [32, 97, 32, 32, 98] 16 (by decide)

/-- With room for fewer than no arguments it returns 0. -/
theorem parse_args_negative : StringAt lineAB 4096 [32, 97, 32, 32, 98] ∧
    (parseArgs lineAB 4096 (-1)).map Prod.fst = some 0 ∧
    min (-1) ((words isBlank [32, 97, 32, 32, 98]).length : Int) = -1 := by
  decide

example : (parseArgs lineAB 4096 16).map (fun r => (r.1, r.2.2)) = some (2, [4097, 4100]) := by
  decide

end PolandOS.Shell.InMemory
