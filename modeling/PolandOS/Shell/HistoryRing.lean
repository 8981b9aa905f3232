import PolandOS.Lib.RecentRing
import PolandOS.Text.Strings
import PolandOS.Shell.Readline

/-! # The history of the shell in memory

`history_push` and `history_get` of `kernel/shell/shell.c` over byte-addressed memory; the
array lies at `history`. `history_is_recent_list`: the history is a list of lines, of which
the last 16 can be looked up.
-/

namespace PolandOS.Shell.InMemory

open ByteMem Strings RecentRing

/-- `LINE_MAX`. -/
def lineMax : Nat := 256

/-- The memory, `history_count` and `history_head`. -/
structure Ring where
  mem : Mem
  historyCount : Nat
  historyHead : Nat

/-- The address of `history[i]`. -/
def slot (history i : Nat) : Nat := history + lineMax * i

/-- `shell_init`. -/
def shellInit (r : Ring) : Ring := { r with historyCount := 0, historyHead := 0 }

/-- `history_count > 0 && strcmp(history[last], line) == 0`. -/
def repeatsLast (history line : Nat) (r : Ring) : Option Bool :=
  let last := (r.historyHead + historySize - 1) % historySize
  if r.historyCount > 0 then (strcmp r.mem (slot history last) line).map (· == 0) else some false

/-- `history_push`. -/
def historyPush (history line : Nat) (r : Ring) : Option Ring :=
  if line = 0 ∨ r.mem (line % 2 ^ 64) = 0 then some r
  else do
    if ← repeatsLast history line r then return r
    let dst := slot history r.historyHead
    let mem := strncpy r.mem dst line (lineMax - 1)
    return {
      mem := set mem (byteAt dst (lineMax - 1)) 0
      historyHead := (r.historyHead + 1) % historySize
      historyCount := if r.historyCount < historySize then r.historyCount + 1 else r.historyCount }

/-- `history_get`; `none` is `NULL`. -/
def historyGet (history : Nat) (rel : Int) (r : Ring) : Option Nat :=
  if rel < 0 ∨ rel ≥ r.historyCount then none
  else
    let idx := ((r.historyHead : Int) - 1 - rel + historySize * 2).tmod historySize
    some (slot history idx.toNat)

/-! ## Callers -/

/-- A line that a caller hands over: a string of at most 255 characters outside the array. -/
structure LineAt (history : Nat) (m : Mem) (line : Nat) (cs : List UInt8) : Prop where
  notNull : line ≠ 0
  string : StringAt m line cs
  short : cs.length ≤ 255
  apart : Apart history (lineMax * historySize) line (cs.length + 1)

/-- The array is as it was. -/
def SameHistory (history : Nat) (m m' : Mem) : Prop :=
  ∀ i < lineMax * historySize, m' (byteAt history i) = m (byteAt history i)

/-- The states behind `shell_init` and calls of `history_push`, with the lines pushed. Between
the calls everything else in memory may change. -/
inductive Pushed (history : Nat) : Ring → List (List UInt8) → Prop
  | init (r : Ring) : Pushed history (shellInit r) []
  | push {r r' : Ring} {lines : List (List UInt8)} {mem : Mem} {line : Nat} {cs : List UInt8} :
      Pushed history r lines → SameHistory history r.mem mem → LineAt history mem line cs →
      historyPush history line { r with mem := mem } = some r' →
      Pushed history r' (lines ++ [cs])

/-- The lines that are kept: the lines that are not empty, without consecutive duplicates. -/
def accepted (lines : List (List UInt8)) : List (List UInt8) :=
  (lines.filter (· ≠ [])).destutter (· ≠ ·)

theorem accepted_concat (lines : List (List UInt8)) (cs : List UInt8) :
    accepted (lines ++ [cs]) =
      if cs = [] ∨ (accepted lines).getLast? = some cs then accepted lines
      else accepted lines ++ [cs] := by
  unfold accepted
  rw [List.filter_append]
  by_cases hcs : cs = []
  · rw [if_pos (.inl hcs), hcs]
    simp
  · have hkeep : [cs].filter (· ≠ []) = [cs] := by simp [hcs]
    rw [hkeep, destutter_concat]
    simp [hcs]

/-! ## The ring -/

variable {history line i : Nat} {r r' : Ring} {m m' : Mem} {cs : List UInt8}
  {lines : List (List UInt8)}

/-- The slot holds the line. -/
def Slot (history : Nat) (m : Mem) (i : Nat) (cs : List UInt8) : Prop :=
  StringAt m (slot history i) cs ∧ cs.length < lineMax

/-- What the ring keeps, of lines of which the newest is the first. -/
abbrev Keeps (history : Nat) (r : Ring) (newestFirst : List (List UInt8)) : Prop :=
  Recent historySize (Slot history r.mem) r.historyHead r.historyCount newestFirst

theorem byteAt_slot (i j : Nat) : byteAt (slot history i) j = byteAt history (lineMax * i + j) :=
  byteAt_add ..

/-- A slot ends inside the array. -/
theorem slot_end_le (hi : i < historySize) : lineMax * i + lineMax ≤ lineMax * historySize := by
  rw [← Nat.mul_succ]
  exact Nat.mul_le_mul_left _ hi

/-- A slot depends on its own bytes only. -/
theorem Slot.congr (h : Slot history m i cs)
    (hm : ∀ j < lineMax, m' (byteAt (slot history i) j) = m (byteAt (slot history i) j)) :
    Slot history m' i cs :=
  ⟨h.1.congr fun j hj => hm j (Nat.lt_of_le_of_lt hj h.2), h.2⟩

theorem Slot.same (h : Slot history m i cs) (hi : i < historySize)
    (hm : SameHistory history m m') : Slot history m' i cs := by
  refine h.congr fun j hj => ?_
  rw [byteAt_slot]
  refine hm _ ?_
  have hle := slot_end_le hi
  omega

theorem Keeps.same (h : Keeps history r lines) (hm : SameHistory history r.mem m) :
    Keeps history { r with mem := m } lines :=
  ⟨h.head_eq, h.count_eq, fun i a hi ha =>
    (h.entry i a hi ha).same (Nat.mod_lt _ (by decide)) hm⟩

theorem slot_apart (hi : i < historySize) (hline : LineAt history m line cs) :
    Apart (slot history i) lineMax line (cs.length + 1) := by
  intro j hj k hk
  rw [byteAt_slot]
  refine hline.apart _ ?_ k hk
  have hle := slot_end_le hi
  omega

/-- The comparison with the newest line. -/
theorem repeatsLast_eq (h : Keeps history r lines) (hline : LineAt history r.mem line cs) :
    ∃ b, repeatsLast history line r = some b ∧ (b = true ↔ lines.head? = some cs) := by
  unfold repeatsLast
  dsimp only
  by_cases hpos : r.historyCount > 0
  · rw [if_pos hpos]
    rcases h.last (by decide) hpos with ⟨newest, hnewest, hslot⟩
    rcases strcmp_eq hslot.1 hline.string with ⟨d, hd, hiff⟩
    rw [hd, hnewest]
    refine ⟨d == 0, rfl, ?_⟩
    rw [beq_iff_eq, hiff, Option.some.injEq]
  -- an empty ring has accepted nothing that could be repeated
  · rw [if_neg hpos]
    have hnone : lines = [] := by
      have hcount := h.count_eq
      have hsize : 0 < historySize := by decide
      exact List.length_eq_zero_iff.mp (by omega)
    exact ⟨false, rfl, by simp [hnone]⟩

/-- What a call does to the lines. -/
theorem historyPush_keeps (hroom : history + lineMax * historySize ≤ 2 ^ 64)
    (h : Keeps history r lines) (hline : LineAt history r.mem line cs) :
    ∃ r', historyPush history line r = some r' ∧
      Keeps history r' (if cs = [] ∨ lines.head? = some cs then lines else cs :: lines) := by
  unfold historyPush
  by_cases hnil : cs = []
  · have hend : r.mem (line % 2 ^ 64) = 0 := by
      have hstring := hline.string
      rw [hnil] at hstring
      exact hstring
    rw [if_pos (.inr hend), if_pos (.inl hnil)]
    exact ⟨r, rfl, h⟩
  have hfirst : r.mem (line % 2 ^ 64) ≠ 0 := by
    rcases List.exists_cons_of_ne_nil hnil with ⟨c, cs', rfl⟩
    rw [hline.string.1]
    exact hline.string.2.1
  have hgo : ¬(line = 0 ∨ r.mem (line % 2 ^ 64) = 0) := by
    rintro (h | h)
    · exact hline.notNull h
    · exact hfirst h
  rw [if_neg hgo]
  rcases repeatsLast_eq h hline with ⟨b, hb, hiff⟩
  rw [hb]
  cases b with
  | true =>
      have hold : cs = [] ∨ lines.head? = some cs := .inr (hiff.mp rfl)
      rw [if_pos hold]
      exact ⟨r, rfl, h⟩
  | false =>
      have hnew : ¬(cs = [] ∨ lines.head? = some cs) := by
        rintro (h | h)
        · exact hnil h
        · exact Bool.false_ne_true (hiff.mpr h)
      rw [if_neg hnew]
      refine ⟨_, rfl, ?_⟩
      -- the line goes to the slot at the head, which is the oldest one where the ring is full
      have hsize : lineMax * historySize = 4096 := rfl
      have hhead : r.historyHead < historySize := by
        rw [h.head_eq]
        exact Nat.mod_lt _ (by decide)
      have hslot : slot history r.historyHead = history + 256 * r.historyHead := rfl
      have hcopy := strncpy_terminated (n := lineMax) (by decide) hline.string
        (Nat.lt_succ_of_le hline.short) (slot_apart hhead hline)
      refine h.push (by decide) ⟨hcopy.1, Nat.lt_succ_of_le hline.short⟩ fun i hi hne b hb => ?_
      refine hb.congr fun j hj => hcopy.2 _ fun k hk heq => hne ?_
      -- bytes of different slots are at different addresses
      have hj' : j < 256 := hj
      have hk' : k < 256 := hk
      have hi' : i < 16 := hi
      have hhead' : r.historyHead < 16 := hhead
      have hslot' : slot history i = history + 256 * i := rfl
      rw [hslot, hslot', byteAt_eq (by omega), byteAt_eq (by omega)] at heq
      omega

/-- The slot of an entry. -/
theorem historyGet_of_lt (hi : i < r.historyCount) (hsize : r.historyCount ≤ historySize) :
    historyGet history i r =
      some (slot history ((r.historyHead + 2 * historySize - 1 - i) % historySize)) := by
  have hin : ¬((i : Int) < 0 ∨ (i : Int) ≥ r.historyCount) := by omega
  have hsum : (r.historyHead : Int) - 1 - i + historySize * 2 =
      (r.historyHead + 2 * historySize - 1 - i : Nat) := by
    have h16 : historySize = 16 := rfl
    omega
  rw [historyGet, if_neg hin]
  dsimp only
  rw [hsum]
  rfl

/-- What is looked up. -/
theorem historyGet_eq (h : Keeps history r lines) (rel : Int) :
    (historyGet history rel r = none ↔ ¬(0 ≤ rel ∧ rel < min historySize lines.length)) ∧
      ∀ p, historyGet history rel r = some p →
        ∃ cs, lines[rel.toNat]? = some cs ∧ StringAt r.mem p cs := by
  have hcount : (r.historyCount : Int) = min historySize lines.length := by
    rw [h.count_eq]
  unfold historyGet
  by_cases hout : rel < 0 ∨ rel ≥ r.historyCount
  · rw [if_pos hout]
    refine ⟨iff_of_true rfl ?_, fun _ hp => nomatch hp⟩
    rw [← hcount]
    omega
  · rw [if_neg hout]
    refine ⟨iff_of_false (fun hn => nomatch hn) ?_, fun p hp => ?_⟩
    · rw [← hcount]
      omega
    -- inside, the subtraction does not go below 0, so the remainder is one of naturals
    · obtain ⟨i, rfl⟩ : ∃ i : Nat, rel = i := ⟨rel.toNat, by omega⟩
      have hi : i < r.historyCount := by omega
      have hsize : r.historyCount ≤ historySize := by
        rw [h.count_eq]
        exact Nat.min_le_left ..
      rcases h.get (by decide) hi with ⟨cs, hcs, hslot⟩
      have hsome : historyGet history i r = _ := historyGet_of_lt hi hsize
      rw [historyGet, if_neg hout] at hsome
      cases hsome.symm.trans hp
      exact ⟨cs, hcs, hslot.1⟩

/-! ## Runs -/

/-- The ring keeps the accepted lines. -/
theorem Pushed.keeps (hroom : history + lineMax * historySize ≤ 2 ^ 64)
    (h : Pushed history r lines) : Keeps history r (accepted lines).reverse := by
  induction h with
  | init r => exact recent_nil
  | push hpushed hsame hline hpush ih =>
      rename_i cs
      rcases historyPush_keeps hroom (ih.same hsame) hline with ⟨r', hr', hkeeps⟩
      cases hpush.symm.trans hr'
      rw [accepted_concat]
      rw [List.head?_reverse] at hkeeps
      split at hkeeps
      case isTrue hold => rwa [if_pos hold]
      case isFalse hnew =>
        rw [if_neg hnew, List.reverse_append]
        exact hkeeps

/-- However often lines are pushed, the calls return, and `history_get` finds the last 16 of
the lines that are not empty, without consecutive duplicates. -/
theorem history_is_recent_list (hroom : history + lineMax * historySize ≤ 2 ^ 64)
    (h : Pushed history r lines) :
    (∀ m line cs, SameHistory history r.mem m → LineAt history m line cs →
      ∃ r', historyPush history line { r with mem := m } = some r') ∧
    ∀ rel : Int,
      (historyGet history rel r = none ↔
        ¬(0 ≤ rel ∧ rel < min historySize (accepted lines).length)) ∧
      ∀ p, historyGet history rel r = some p →
        ∃ cs, (accepted lines).reverse[rel.toNat]? = some cs ∧ StringAt r.mem p cs := by
  have hkeeps := h.keeps hroom
  refine ⟨fun m line cs hsame hline => ?_, fun rel => ?_⟩
  · rcases historyPush_keeps hroom (hkeeps.same hsame) hline with ⟨r', hr', -⟩
    exact ⟨r', hr'⟩
  · have hget := historyGet_eq hkeeps rel
    rwa [List.length_reverse] at hget

/-- The line at 8192, in front of zeros. -/
def typed (m : Mem) (cs : List UInt8) : Mem :=
  fun a => if 8192 ≤ a ∧ a ≤ 8192 + cs.length then cs.getD (a - 8192) 0 else m a

/-- Every list of lines is the list of the lines pushed, in some run. -/
theorem exists_pushed (lines : List (List UInt8))
    (h : ∀ cs ∈ lines, cs.length ≤ 255 ∧ ∀ c ∈ cs, c ≠ 0) : ∃ r, Pushed 4096 r lines := by
  induction lines using List.reverseRecOn with
  | nil => exact ⟨_, .init ⟨fun _ => 0, 0, 0⟩⟩
  | append_singleton lines cs ih =>
      rcases ih fun cs hcs => h cs (List.mem_append_left _ hcs) with ⟨r, hr⟩
      rcases h cs (List.mem_append_right _ (List.mem_singleton_self cs)) with ⟨hlen, hne⟩
      have hsame : SameHistory 4096 r.mem (typed r.mem cs) := by
        intro i hi
        have hbound : lineMax * historySize = 4096 := rfl
        rw [byteAt_eq (by omega), typed, if_neg (by omega)]
      have hline : LineAt 4096 (typed r.mem cs) 8192 cs := by
        refine ⟨by decide, stringAt_of_bytes hne fun i hi => ?_, hlen,
          apart_of_le (by decide) (by omega) (.inl (by decide))⟩
        rw [byteAt_eq (by omega), typed, if_pos (by omega), Nat.add_sub_cancel_left]
      rcases historyPush_keeps (by decide) ((hr.keeps (by decide)).same hsame) hline with
        ⟨r', hr', -⟩
      exact ⟨r', hr.push hsame hline hr'⟩

/-- Twenty lines, each typed twice. -/
def twice : List (List UInt8) := (List.range 40).map fun i => [UInt8.ofNat (65 + i / 2)]

theorem history_is_recent_list_twice : ∃ r, Pushed 4096 r twice ∧
    (∀ m line cs, SameHistory 4096 r.mem m → LineAt 4096 m line cs →
      ∃ r', historyPush 4096 line { r with mem := m } = some r') ∧
    ∀ rel : Int,
      (historyGet 4096 rel r = none ↔
        ¬(0 ≤ rel ∧ rel < min historySize (accepted twice).length)) ∧
      ∀ p, historyGet 4096 rel r = some p →
        ∃ cs, (accepted twice).reverse[rel.toNat]? = some cs ∧ StringAt r.mem p cs := by
  rcases exists_pushed twice (by decide +kernel) with ⟨r, hpushed⟩
  exact ⟨r, hpushed, history_is_recent_list (by decide) hpushed⟩

end PolandOS.Shell.InMemory
