import PolandOS.Lib.MemString

/-! # The string functions of the kernel

`kernel/lib/string.c`, over byte-addressed memory; `memset`, `memcpy` and `memmove` are in
`ByteMem`. A loop over a string ends at the 0, and a loop that never meets one is `none`.

* `strncpy_exact_iff`: `strncpy` writes one byte too many, where the string ends early
* `memmove_moves`: `memmove` copies over every overlap
-/

namespace PolandOS.Strings

open ByteMem

/-! ## The loops -/

/-- `while (s[len]) len++`, for so many bytes. -/
def strlenLoop (m : Mem) : Nat → Nat → Option Nat
  | 0, _ => none
  | fuel + 1, s =>
    if m (s % 2 ^ 64) = 0 then some 0 else (strlenLoop m fuel (s + 1)).map (· + 1)

/-- `strlen`. Behind `2 ^ 64` bytes it would read the first one again. -/
def strlen (m : Mem) (s : Nat) : Option Nat := strlenLoop m (2 ^ 64) s

/-- `while (*a && (*a == *b)) { a++; b++; }` and the difference, for so many bytes. -/
def strcmpLoop (m : Mem) : Nat → Nat → Nat → Option Int
  | 0, _, _ => none
  | fuel + 1, a, b =>
    if m (a % 2 ^ 64) ≠ 0 ∧ m (a % 2 ^ 64) = m (b % 2 ^ 64) then strcmpLoop m fuel (a + 1) (b + 1)
    else some ((m (a % 2 ^ 64)).toNat - (m (b % 2 ^ 64)).toNat)

/-- `strcmp`. -/
def strcmp (m : Mem) (a b : Nat) : Option Int := strcmpLoop m (2 ^ 64) a b

/-- `while (n && (*dst++ = *src++) != '\0') n--;`: the memory, and `dst` and `n` behind it. -/
def strncpyChars (m : Mem) (dst src : Nat) : Nat → Mem × Nat × Nat
  | 0 => (m, dst, 0)
  | n + 1 =>
    let c := m (src % 2 ^ 64)
    let m := set m (dst % 2 ^ 64) c
    if c = 0 then (m, dst + 1, n + 1) else strncpyChars m (dst + 1) (src + 1) n

/-- `strncpy`; its second loop is `while (n--) *dst++ = '\0';`. -/
def strncpy (m : Mem) (dst src n : Nat) : Mem :=
  let (m, dst, n) := strncpyChars m dst src n
  memset m dst 0 n

/-! ## Lengths and comparisons -/

variable {m : Mem} {dst src n : Nat} {cs ds : List UInt8}

theorem strlenLoop_eq {s fuel : Nat} (h : StringAt m s cs) (hfuel : cs.length < fuel) :
    strlenLoop m fuel s = some cs.length := by
  induction cs generalizing s fuel with
  | nil =>
      rcases fuel with - | fuel
      · cases hfuel
      · exact if_pos h
  | cons c cs ih =>
      rcases fuel with - | fuel
      · cases hfuel
      · have hc : m (s % 2 ^ 64) ≠ 0 := by
          rw [h.1]
          exact h.2.1
        rw [strlenLoop, if_neg hc, ih h.2.2 (Nat.lt_of_succ_lt_succ hfuel)]
        rfl

theorem strlen_eq {s : Nat} (h : StringAt m s cs) : strlen m s = some cs.length :=
  strlenLoop_eq h h.length_lt

/-- The loop ends at the first difference or at both ends. -/
theorem strcmpLoop_eq {a b fuel : Nat} (ha : StringAt m a cs) (hb : StringAt m b ds)
    (hfuel : cs.length < fuel) : ∃ r, strcmpLoop m fuel a b = some r ∧ (r = 0 ↔ cs = ds) := by
  induction cs generalizing a b ds fuel with
  | nil =>
      rcases fuel with - | fuel
      · cases hfuel
      · have hz : m (a % 2 ^ 64) = 0 := ha
        rw [strcmpLoop, if_neg fun h => h.1 hz, hz]
        refine ⟨_, rfl, ?_⟩
        cases ds with
        | nil =>
            have hzb : m (b % 2 ^ 64) = 0 := hb
            rw [hzb]
            simp
        | cons d ds =>
            rw [hb.1]
            have hd : d.toNat ≠ 0 := fun h => hb.2.1 (UInt8.toNat_inj.mp h)
            simp [hd]
  | cons c cs ih =>
      rcases fuel with - | fuel
      · cases hfuel
      · rw [strcmpLoop, ha.1]
        cases ds with
        | nil =>
            have hzb : m (b % 2 ^ 64) = 0 := hb
            rw [hzb, if_neg fun h => ha.2.1 h.2]
            have hc : c.toNat ≠ 0 := fun h => ha.2.1 (UInt8.toNat_inj.mp h)
            exact ⟨_, rfl, by simp [hc]⟩
        | cons d ds =>
            rw [hb.1]
            by_cases hcd : c = d
            · subst hcd
              rw [if_pos ⟨ha.2.1, rfl⟩]
              rcases ih ha.2.2 hb.2.2 (Nat.lt_of_succ_lt_succ hfuel) with ⟨r, hr, hiff⟩
              exact ⟨r, hr, hiff.trans (by simp)⟩
            · rw [if_neg fun h => hcd h.2]
              have hne : c.toNat ≠ d.toNat := fun h => hcd (UInt8.toNat_inj.mp h)
              exact ⟨_, rfl, by simp [hcd]; omega⟩

/-- `strcmp` returns 0 for equal strings. -/
theorem strcmp_eq {a b : Nat} (ha : StringAt m a cs) (hb : StringAt m b ds) :
    ∃ r, strcmp m a b = some r ∧ (r = 0 ↔ cs = ds) :=
  strcmpLoop_eq ha hb ha.length_lt

/-! ## Copies -/

/-- The first loop copies the characters, and the 0 behind them where there is room for it.
It reads no more bytes than that, so only these have to be apart from what it writes. -/
theorem strncpyChars_eq (hne : ∀ c ∈ cs, c ≠ 0)
    (hbytes : ∀ i < min n (cs.length + 1), m (byteAt src i) = cs.getD i 0)
    (hap : Apart dst n src (min n (cs.length + 1))) :
    strncpyChars m dst src n =
      if n ≤ cs.length then (memcpy m dst src n, dst + n, 0)
      else (memcpy m dst src (cs.length + 1), dst + (cs.length + 1), n - cs.length) := by
  induction n generalizing m dst src cs with
  | zero => simp [strncpyChars, memcpy]
  | succ n ih =>
      have hfirst : m (src % 2 ^ 64) = cs.getD 0 0 := hbytes 0 (by omega)
      rw [strncpyChars]
      cases cs with
      | nil =>
          rw [hfirst, List.getD_nil, if_pos rfl, List.length_nil, if_neg (Nat.not_succ_le_zero n),
            memcpy, hfirst]
          rfl
      | cons c cs =>
          rcases List.forall_mem_cons.mp hne with ⟨hc, hcs⟩
          rw [hfirst, List.getD_cons_zero, if_neg hc]
          have hlen : min (n + 1) ((c :: cs).length + 1) = min n (cs.length + 1) + 1 := by
            rw [List.length_cons]
            omega
          rw [hlen] at hbytes hap
          -- the first character is written apart from the source
          have hrest : ∀ i < min n (cs.length + 1),
              set m (dst % 2 ^ 64) c (byteAt (src + 1) i) = cs.getD i 0 := by
            intro i hi
            rw [byteAt_succ, set_ne, hbytes (i + 1) (by omega), List.getD_cons_succ]
            exact (hap 0 (Nat.succ_pos n) (i + 1) (by omega)).symm
          have hapart : Apart (dst + 1) n (src + 1) (min n (cs.length + 1)) := by
            intro i hi j hj
            rw [byteAt_succ, byteAt_succ]
            exact hap (i + 1) (by omega) (j + 1) (by omega)
          rw [ih hcs hrest hapart, List.length_cons]
          have hcopy : ∀ k, memcpy m dst src (k + 1) =
              memcpy (set m (dst % 2 ^ 64) c) (dst + 1) (src + 1) k := by
            intro k
            rw [memcpy, hfirst, List.getD_cons_zero]
          have hadd : ∀ k, dst + 1 + k = dst + (k + 1) := fun k => by omega
          rw [hcopy, hcopy, hadd, hadd, Nat.add_sub_add_right]
          exact if_congr (Nat.add_le_add_iff_right).symm rfl rfl

/-- What `strncpy` does to the memory. -/
theorem strncpy_eq (h : StringAt m src cs) (hap : Apart dst n src (min n (cs.length + 1))) :
    strncpy m dst src n =
      if n ≤ cs.length then memcpy m dst src n
      else memset (memcpy m dst src (cs.length + 1)) (dst + (cs.length + 1)) 0 (n - cs.length) := by
  have hbytes : ∀ i < min n (cs.length + 1), m (byteAt src i) = cs.getD i 0 :=
    fun i hi => h.getD (by omega)
  rw [strncpy, strncpyChars_eq h.ne_zero hbytes hap]
  by_cases hn : n ≤ cs.length
  · rw [if_pos hn, if_pos hn]
    rfl
  · rw [if_neg hn, if_neg hn]

/-- The bytes for which there is room are the characters and then 0. -/
theorem strncpy_copied (hn : n < 2 ^ 64) (h : StringAt m src cs)
    (hap : Apart dst n src (min n (cs.length + 1))) {i : Nat} (hi : i < n) :
    strncpy m dst src n (byteAt dst i) = cs.getD i 0 := by
  have hcopy : ∀ k ≤ min n (cs.length + 1), ∀ j < k,
      memcpy m dst src k (byteAt dst j) = cs.getD j 0 := by
    intro k hk j hj
    rw [memcpy_copy m (fun a ha b hb => hap a (by omega) b (by omega)) (by omega) hj]
    exact h.getD (by omega)
  rw [strncpy_eq h hap]
  split
  case isTrue hlong => exact hcopy n (by omega) i hi
  case isFalse hshort =>
    by_cases hin : i < cs.length + 1
    · rw [memset_frame]
      · exact hcopy (cs.length + 1) (by omega) i hin
      · intro j hj heq
        rw [byteAt_add] at heq
        have hij := byteAt_inj (by omega) (by omega) heq
        omega
    · have hpad : byteAt dst i = byteAt (dst + (cs.length + 1)) (i - (cs.length + 1)) := by
        rw [byteAt_add]
        congr 1
        omega
      rw [hpad, memset_fill _ _ (by omega), List.getD_eq_getElem?_getD,
        List.getElem?_eq_none (by omega)]
      rfl

/-- Where the string is shorter than the room, one more byte is set to 0. -/
theorem strncpy_behind (h : StringAt m src cs) (hap : Apart dst n src (min n (cs.length + 1)))
    (hshort : cs.length < n) : strncpy m dst src n (byteAt dst n) = 0 := by
  have hpad : byteAt dst n = byteAt (dst + (cs.length + 1)) (n - (cs.length + 1)) := by
    rw [byteAt_add]
    congr 1
    omega
  rw [strncpy_eq h hap, if_neg (by omega), hpad]
  exact memset_fill _ _ (by omega)

/-- The other bytes stay. -/
theorem strncpy_frame (h : StringAt m src cs) (hap : Apart dst n src (min n (cs.length + 1)))
    {x : Nat} (hx : ∀ i < n, x ≠ byteAt dst i) (hbehind : cs.length < n → x ≠ byteAt dst n) :
    strncpy m dst src n x = m x := by
  rw [strncpy_eq h hap]
  split
  case isTrue => exact memcpy_frame m hx
  case isFalse hshort =>
    rw [memset_frame]
    · exact memcpy_frame m fun i hi => hx i (by omega)
    · intro i hi
      rw [byteAt_add]
      by_cases hlast : cs.length + 1 + i = n
      · rw [hlast]
        exact hbehind (by omega)
      · exact hx _ (by omega)

/-- How callers use it: `strncpy(dst, src, n - 1); dst[n - 1] = '\0';`. What `strncpy` writes
behind its room is inside theirs. -/
theorem strncpy_terminated (hn : n ≤ 2 ^ 64) (h : StringAt m src cs) (hlen : cs.length < n)
    (hap : Apart dst n src (cs.length + 1)) :
    StringAt (set (strncpy m dst src (n - 1)) (byteAt dst (n - 1)) 0) dst cs ∧
      ∀ x, (∀ i < n, x ≠ byteAt dst i) →
        set (strncpy m dst src (n - 1)) (byteAt dst (n - 1)) 0 x = m x := by
  have hap' : Apart dst (n - 1) src (min (n - 1) (cs.length + 1)) :=
    fun i hi j hj => hap i (by omega) j (by omega)
  constructor
  · refine stringAt_of_bytes h.ne_zero fun i hi => ?_
    by_cases hlast : i = n - 1
    · rw [hlast, set_self, List.getD_eq_getElem?_getD, List.getElem?_eq_none (by omega)]
      rfl
    · rw [set_ne, strncpy_copied (by omega) h hap' (by omega)]
      intro heq
      exact hlast (byteAt_inj (by omega) (by omega) heq)
  · intro x hx
    rw [set_ne _ _ (hx (n - 1) (by omega))]
    exact strncpy_frame h hap' (fun i hi => hx i (by omega)) fun _ => hx (n - 1) (by omega)

/-- The room holds the string and then 0, and no other byte is another one. -/
structure Fills (m m' : Mem) (dst n : Nat) (cs : List UInt8) : Prop where
  copied : ∀ i < n, m' (byteAt dst i) = cs.getD i 0
  frame : ∀ x, (∀ i < n, x ≠ byteAt dst i) → m' x = m x

/-- `strncpy` fills the room and nothing else exactly if the string is as long as the room, or
the byte behind the room is 0 already. -/
theorem strncpy_exact_iff (m : Mem) (dst src n : Nat) (cs : List UInt8) (hn : n < 2 ^ 64)
    (h : StringAt m src cs) (hap : Apart dst n src (min n (cs.length + 1))) :
    Fills m (strncpy m dst src n) dst n cs ↔ (n ≤ cs.length ∨ m (byteAt dst n) = 0) := by
  constructor
  · intro hfills
    by_cases hshort : cs.length < n
    · right
      rw [← hfills.frame (byteAt dst n), strncpy_behind h hap hshort]
      intro i hi heq
      have hin := byteAt_inj hn (by omega) heq
      omega
    · exact .inl (Nat.le_of_not_lt hshort)
  · intro hexact
    refine ⟨fun i hi => strncpy_copied hn h hap hi, fun x hx => ?_⟩
    by_cases hbehind : cs.length < n ∧ x = byteAt dst n
    · rcases hbehind with ⟨hshort, rfl⟩
      rw [strncpy_behind h hap hshort, hexact.resolve_left (Nat.not_le_of_lt hshort)]
    · exact strncpy_frame h hap hx fun hshort heq => hbehind ⟨hshort, heq⟩

/-- Each byte is its address, but for the ends of a string at 16 and of a room at 32. -/
def numbered : Mem := fun a => if a = 18 ∨ a = 36 then 0 else UInt8.ofNat a

theorem strncpy_exact_iff_padded :
    Fills numbered (strncpy numbered 32 16 4) 32 4 [16, 17] :=
  (strncpy_exact_iff numbered 32 16 4 [16, 17] (by decide) (by decide)
    (by unfold Apart; decide)).mpr (.inr (by decide))

/-- A memory of ones, but for the end of a string of one character at 16. -/
def ones : Mem := set (fun _ => 1) 17 0

/-- The byte behind a room of two is changed, where the string is shorter. -/
theorem strncpy_writes_behind : StringAt ones 16 [1] ∧ Apart 32 2 16 2 ∧
    ones (byteAt 32 2) = 1 ∧ strncpy ones 32 16 2 (byteAt 32 2) = 0 ∧
    ¬Fills ones (strncpy ones 32 16 2) 32 2 [1] := by
  have hbehind : strncpy ones 32 16 2 (byteAt 32 2) = 0 := by decide
  refine ⟨by decide, by unfold Apart; decide, by decide, hbehind, fun h => ?_⟩
  have hsame : strncpy ones 32 16 2 (byteAt 32 2) = ones (byteAt 32 2) :=
    h.frame _ (by decide)
  rw [hbehind] at hsame
  revert hsame
  decide

/-! ## Overlaps -/

/-- `memmove` leaves at `dst` what was at `src`, and changes nothing else, however the two
ranges overlap. -/
theorem memmove_moves (m : Mem) (dst src n : Nat) (hdst : dst + n ≤ 2 ^ 64)
    (hsrc : src + n ≤ 2 ^ 64) :
    (∀ i < n, memmove m dst src n (dst + i) = m (src + i)) ∧
      ∀ x, (∀ i < n, x ≠ dst + i) → memmove m dst src n x = m x := by
  constructor
  · intro i hi
    rcases Nat.lt_trichotomy dst src with hlt | rfl | hgt
    · exact memmove_down m hlt hsrc hi
    · rw [memmove, if_neg (Nat.lt_irrefl _), if_neg (Nat.lt_irrefl _)]
    · exact memmove_up m hgt hdst hi
  · intro x hx
    refine memmove_frame m fun i hi => ?_
    rw [byteAt_eq (by omega)]
    exact hx i hi

theorem memmove_moves_overlap :
    (∀ i < 5, memmove numbered 21 20 5 (21 + i) = numbered (20 + i)) ∧
      ∀ x, (∀ i < 5, x ≠ 21 + i) → memmove numbered 21 20 5 x = numbered x :=
  memmove_moves numbered 21 20 5 (by decide) (by decide)

end PolandOS.Strings
