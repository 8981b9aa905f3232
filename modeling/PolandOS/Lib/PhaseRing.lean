import Mathlib.Logic.Function.Basic
import Mathlib.Tactic.Common

/-! # Ring buffers with a phase tag

A producer and a consumer share a ring of `N` slots and no counter. Every entry
carries a tag that changes with each round of the producer, so a consumer that
counts its own rounds sees whether the slot in front of it has been filled.
`Holds` says what the slots look like while the entries `unread` are on their
way; `Holds.post` and `Holds.take` keep it, and `Holds.front` and `Holds.idle`
say what the consumer sees.
-/

namespace PhaseRing

variable {α : Type*} {N : Nat}

/-- The tag of the `k`-th entry: it changes with every round. -/
def phaseOf (N k : Nat) : Bool := k / N % 2 == 0

/-- A place in the ring: a slot and the tag of the round. -/
def place (N k : Nat) : Nat × Bool := (k % N, phaseOf N k)

/-- The place behind a place. -/
def next (N : Nat) (p : Nat × Bool) : Nat × Bool :=
  if p.1 + 1 ≥ N then (0, !p.2) else (p.1 + 1, p.2)

theorem phaseOf_add (hN : 0 < N) (k : Nat) : phaseOf N (k + N) = !phaseOf N k := by
  unfold phaseOf
  rw [Nat.add_div_right k hN]
  rcases Nat.mod_two_eq_zero_or_one (k / N) with h | h
  · have h' : (k / N + 1) % 2 = 1 := by omega
    simp [h, h']
  · have h' : (k / N + 1) % 2 = 0 := by omega
    simp [h, h']

/-- The places follow each other. -/
theorem next_place (hN : 0 < N) (k : Nat) : next N (place N k) = place N (k + 1) := by
  have hlt := Nat.mod_lt k hN
  have hsplit := Nat.div_add_mod k N
  unfold next place phaseOf
  by_cases hlast : k % N + 1 ≥ N
  · have hk : k + 1 = N * (k / N + 1) := by
      rw [Nat.mul_succ]
      omega
    have hdiv : (k + 1) / N = k / N + 1 := by rw [hk, Nat.mul_div_cancel_left _ hN]
    have hmod : (k + 1) % N = 0 := by rw [hk, Nat.mul_mod_right]
    rw [if_pos hlast, hdiv, hmod]
    rcases Nat.mod_two_eq_zero_or_one (k / N) with h | h
    · have h' : (k / N + 1) % 2 = 1 := by omega
      simp [h, h']
    · have h' : (k / N + 1) % 2 = 0 := by omega
      simp [h, h']
  · have hk : k + 1 = (k % N + 1) + N * (k / N) := by omega
    have hsmall : k % N + 1 < N := by omega
    have hdiv : (k + 1) / N = k / N := by
      rw [hk, Nat.add_mul_div_left _ _ hN, Nat.div_eq_of_lt hsmall, Nat.zero_add]
    have hmod : (k + 1) % N = k % N + 1 := by
      rw [hk, Nat.add_mul_mod_self_left, Nat.mod_eq_of_lt hsmall]
    rw [if_neg hlast, hdiv, hmod]

/-- Counts less than a round apart have slots of their own. -/
theorem slot_ne {i j : Nat} (hij : i < j) (hj : j < i + N) : i % N ≠ j % N := by
  intro h
  have hsplit := Nat.div_add_mod i N
  have hsplit' := Nat.div_add_mod j N
  have hdiv : i / N < j / N := by
    by_contra hle
    have hmul := Nat.mul_le_mul_left N (Nat.le_of_not_lt hle)
    omega
  have hmul := Nat.mul_le_mul_left N hdiv
  rw [Nat.succ_eq_add_one, Nat.mul_add, Nat.mul_one] at hmul
  omega

/-- `count` entries have been read, and `unread` are on their way. -/
structure Holds (tag : α → Bool) (N : Nat) (slots : Nat → α) (count : Nat) (unread : List α) :
    Prop where
  room : unread.length < N
  entry : ∀ i (h : i < unread.length), slots ((count + i) % N) = unread[i]
  fresh : ∀ i (h : i < unread.length), tag unread[i] = phaseOf N (count + i)
  /-- The other slots carry the tag of the round before. -/
  stale : ∀ k, count + unread.length ≤ k → k < count + N → tag (slots (k % N)) ≠ phaseOf N k

variable {tag : α → Bool} {slots : Nat → α} {count : Nat} {unread : List α} {e : α}

/-- A cleared ring is empty. -/
theorem holds_init (hN : 0 < N) (h : ∀ i < N, tag (slots i) = false) :
    Holds tag N slots 0 [] where
  room := hN
  entry i hi := absurd hi (Nat.not_lt_zero i)
  fresh i hi := absurd hi (Nat.not_lt_zero i)
  stale k _ hk := by
    have hk : k < N := by omega
    rw [Nat.mod_eq_of_lt hk, h k hk]
    simp [phaseOf, Nat.div_eq_of_lt hk]

/-- The producer fills the next slot. -/
theorem Holds.post (h : Holds tag N slots count unread) (hroom : unread.length + 1 < N)
    (he : tag e = phaseOf N (count + unread.length)) :
    Holds tag N (Function.update slots ((count + unread.length) % N) e) count (unread ++ [e]) where
  room := by
    rw [List.length_append]
    exact hroom
  entry i hi := by
    rw [List.length_append, List.length_singleton] at hi
    by_cases hlast : i = unread.length
    · subst hlast
      simp
    · have hi' : i < unread.length := by omega
      have hne : (count + i) % N ≠ (count + unread.length) % N :=
        slot_ne (by omega) (by omega)
      rw [Function.update_of_ne hne, h.entry i hi', List.getElem_append_left hi']
  fresh i hi := by
    rw [List.length_append, List.length_singleton] at hi
    by_cases hlast : i = unread.length
    · subst hlast
      simpa using he
    · have hi' : i < unread.length := by omega
      rw [List.getElem_append_left hi', h.fresh i hi']
  stale k hle hlt := by
    rw [List.length_append, List.length_singleton] at hle
    have hne : k % N ≠ (count + unread.length) % N :=
      (slot_ne (by omega) (by omega)).symm
    rw [Function.update_of_ne hne]
    exact h.stale k (by omega) hlt

/-- The consumer sees the entry that was posted first. -/
theorem Holds.front (h : Holds tag N slots count (e :: unread)) :
    slots (count % N) = e ∧ tag e = phaseOf N count :=
  ⟨h.entry 0 (Nat.zero_lt_succ _), h.fresh 0 (Nat.zero_lt_succ _)⟩

/-- The consumer sees that there is no entry. -/
theorem Holds.idle (h : Holds tag N slots count []) : tag (slots (count % N)) ≠ phaseOf N count :=
  h.stale count (Nat.le_refl _) (Nat.lt_add_of_pos_right h.room)

/-- The consumer goes on to the next slot. -/
theorem Holds.take (h : Holds tag N slots count (e :: unread)) :
    Holds tag N slots (count + 1) unread where
  room := Nat.lt_of_succ_lt h.room
  entry i hi := by
    rw [Nat.add_right_comm, Nat.add_assoc]
    exact h.entry (i + 1) (Nat.succ_lt_succ hi)
  fresh i hi := by
    rw [Nat.add_right_comm, Nat.add_assoc]
    exact h.fresh (i + 1) (Nat.succ_lt_succ hi)
  stale k hle hlt := by
    have hroom := h.room
    by_cases hlast : k = count + N
    · -- the slot that has just been read
      rw [hlast, Nat.add_mod_right, h.front.1, h.front.2, phaseOf_add (by omega)]
      simp
    · exact h.stale k (by rw [List.length_cons]; omega) (by omega)

/-- The ring is full when the slot behind the next one is the consumer's. -/
theorem Holds.full_iff (h : Holds tag N slots count unread) :
    (count + unread.length + 1) % N = count % N ↔ unread.length + 1 = N := by
  have hroom := h.room
  constructor
  · intro heq
    by_contra hne
    exact slot_ne (by omega) (by omega) heq.symm
  · intro heq
    rw [Nat.add_assoc, heq, Nat.add_mod_right]

end PhaseRing
