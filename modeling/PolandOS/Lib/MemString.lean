import PolandOS.Lib.ByteMem

/-! # Strings in memory

A string is a list of bytes other than 0, with a 0 behind it. `StringAt` says where one
is stored: a loop over a string is an induction on it. A string is where it is exactly
once (`StringAt.unique`), and it stays as long as none of its bytes is written
(`StringAt.congr`).
-/

namespace ByteMem

/-- The string `cs` is stored at `a`. -/
def StringAt (m : Mem) (a : Nat) : List UInt8 → Prop
  | [] => m (a % 2 ^ 64) = 0
  | c :: cs => m (a % 2 ^ 64) = c ∧ c ≠ 0 ∧ StringAt m (a + 1) cs

instance StringAt.decidable (m : Mem) : ∀ (a : Nat) (cs : List UInt8), Decidable (StringAt m a cs)
  | a, [] => inferInstanceAs (Decidable (m (a % 2 ^ 64) = 0))
  | a, _ :: cs =>
    have : Decidable (StringAt m (a + 1) cs) := StringAt.decidable m (a + 1) cs
    inferInstanceAs (Decidable (_ ∧ _ ∧ _))

variable {m m' : Mem} {a b : Nat} {c : UInt8} {cs ds : List UInt8}

theorem StringAt.unique (h : StringAt m a cs) (h' : StringAt m a ds) : cs = ds := by
  induction cs generalizing a ds with
  | nil =>
      cases ds with
      | nil => rfl
      | cons d ds => exact absurd (h'.1.symm.trans h) h'.2.1
  | cons c cs ih =>
      cases ds with
      | nil => exact absurd (h.1.symm.trans h') h.2.1
      | cons d ds => rw [ih h.2.2 h'.2.2, ← h.1, h'.1]

/-- The byte at an offset: the character, or the end. -/
theorem StringAt.getD (h : StringAt m a cs) {i : Nat} (hi : i ≤ cs.length) :
    m (byteAt a i) = cs.getD i 0 := by
  induction cs generalizing a i with
  | nil =>
      cases Nat.le_zero.mp hi
      exact h
  | cons c cs ih =>
      cases i with
      | zero => exact h.1
      | succ i =>
          rw [← byteAt_succ, List.getD_cons_succ]
          exact ih h.2.2 (Nat.le_of_succ_le_succ hi)

theorem StringAt.end (h : StringAt m a cs) : m (byteAt a cs.length) = 0 := by
  rw [h.getD (Nat.le_refl _), List.getD_eq_getElem?_getD, List.getElem?_eq_none (Nat.le_refl _)]
  rfl

theorem StringAt.ne_zero (h : StringAt m a cs) : ∀ c ∈ cs, c ≠ 0 := by
  induction cs generalizing a with
  | nil => exact fun _ hc => nomatch hc
  | cons c cs ih => exact List.forall_mem_cons.mpr ⟨h.2.1, ih h.2.2⟩

/-- What is behind a part of a string is a string. -/
theorem StringAt.behind (h : StringAt m a (cs ++ ds)) : StringAt m (a + cs.length) ds := by
  induction cs generalizing a with
  | nil => exact h
  | cons c cs ih =>
      rw [List.length_cons, Nat.add_comm cs.length 1, ← Nat.add_assoc]
      exact ih h.2.2

/-- A string is stored where its bytes are. -/
theorem stringAt_of_bytes (hne : ∀ c ∈ cs, c ≠ 0)
    (h : ∀ i ≤ cs.length, m (byteAt a i) = cs.getD i 0) : StringAt m a cs := by
  induction cs generalizing a with
  | nil => exact h 0 (Nat.le_refl _)
  | cons c cs ih =>
      rcases List.forall_mem_cons.mp hne with ⟨hc, hcs⟩
      refine ⟨h 0 (Nat.zero_le _), hc, ih hcs fun i hi => ?_⟩
      rw [byteAt_succ]
      exact h (i + 1) (Nat.succ_le_succ hi)

/-- A string depends only on its bytes and the 0 behind them. -/
theorem StringAt.congr (h : StringAt m a cs)
    (hm : ∀ i ≤ cs.length, m' (byteAt a i) = m (byteAt a i)) : StringAt m' a cs :=
  stringAt_of_bytes h.ne_zero fun i hi => (hm i hi).trans (h.getD hi)

theorem StringAt.set_ne (h : StringAt m a cs) {x : Nat} (v : UInt8)
    (hx : ∀ i ≤ cs.length, byteAt a i ≠ x) : StringAt (set m x v) a cs :=
  h.congr fun i hi => ByteMem.set_ne m v (hx i hi)

/-- No string is as long as the address space. -/
theorem StringAt.length_lt (h : StringAt m a cs) : cs.length < 2 ^ 64 := by
  by_contra hlong
  -- the 0 lies at the address of one of the characters
  have hwrap : byteAt a cs.length = byteAt a (cs.length - 2 ^ 64) := by
    unfold byteAt
    omega
  have hin : cs.length - 2 ^ 64 < cs.length := by omega
  have hchar := h.getD (Nat.le_of_lt hin)
  rw [← hwrap, h.end, List.getD_eq_getElem?_getD, List.getElem?_eq_getElem hin] at hchar
  exact h.ne_zero _ (List.getElem_mem hin) hchar.symm

end ByteMem
