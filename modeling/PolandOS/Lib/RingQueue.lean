import Mathlib.Data.Nat.ModEq
import Mathlib.Logic.Function.Basic
import Mathlib.Tactic.Common

/-! # Ring buffers with a head and a tail

A ring of `n` slots in which one slot stays free, so that equal indices mean that the
ring is empty. `Holds` says what is on its way; `Holds.push` and `Holds.pop` keep it, as
long as nothing is pushed into a full ring.
-/

namespace RingQueue

/-- The slots, where the next entry goes, and where the next one is taken. -/
structure RingBuf (α : Type) where
  slots : Nat → α
  head : Nat
  tail : Nat

variable {α : Type} {n : Nat} {r : RingBuf α} {a : α} {q : List α}

/-- An entry goes in, and is lost where the ring is full. -/
def RingBuf.push (n : Nat) (r : RingBuf α) (a : α) : RingBuf α :=
  if (r.head + 1) % n ≠ r.tail then
    { r with slots := Function.update r.slots r.head a, head := (r.head + 1) % n }
  else r

/-- An entry is taken. -/
def RingBuf.pop (n : Nat) (r : RingBuf α) : Option (α × RingBuf α) :=
  if r.tail = r.head then none else some (r.slots r.tail, { r with tail := (r.tail + 1) % n })

/-- The number of entries on their way. -/
def RingBuf.count (n : Nat) (r : RingBuf α) : Nat := (r.head + n - r.tail) % n

/-- The entries on their way, as they are in the slots. -/
def RingBuf.contents (n : Nat) (r : RingBuf α) : List α :=
  (List.range (r.count n)).map fun i => r.slots ((r.tail + i) % n)

/-- The entries `q` are on their way. -/
structure Holds (n : Nat) (r : RingBuf α) (q : List α) : Prop where
  tail_lt : r.tail < n
  room : q.length < n
  head_eq : r.head = (r.tail + q.length) % n
  entry : ∀ i a, q[i]? = some a → r.slots ((r.tail + i) % n) = a

/-- Different offsets are in different slots. -/
theorem slot_ne {t i j : Nat} (hi : i < n) (hj : j < n) (h : i ≠ j) : (t + i) % n ≠ (t + j) % n := by
  intro heq
  have hmod : i % n = j % n := Nat.ModEq.add_left_cancel' t heq
  rw [Nat.mod_eq_of_lt hi, Nat.mod_eq_of_lt hj] at hmod
  exact h hmod

/-- Only the slots of the ring matter. -/
theorem Holds.congr {r' : RingBuf α} (h : Holds n r q) (hhead : r'.head = r.head)
    (htail : r'.tail = r.tail) (hslots : ∀ i < n, r'.slots i = r.slots i) : Holds n r' q := by
  refine ⟨htail ▸ h.tail_lt, h.room, ?_, fun i a hi => ?_⟩
  · rw [hhead, htail]
    exact h.head_eq
  · rw [htail, hslots _ (Nat.mod_lt _ (Nat.zero_lt_of_lt h.tail_lt))]
    exact h.entry i a hi

theorem Holds.count_eq (h : Holds n r q) : r.count n = q.length := by
  have htail := h.tail_lt
  have hroom := h.room
  unfold RingBuf.count
  rw [h.head_eq]
  by_cases hwrap : r.tail + q.length < n
  · have hsum : r.tail + q.length + n - r.tail = q.length + n := by omega
    rw [Nat.mod_eq_of_lt hwrap, hsum, Nat.add_mod_right, Nat.mod_eq_of_lt hroom]
  · have hsub : (r.tail + q.length) % n = r.tail + q.length - n := by
      rw [Nat.mod_eq_sub_mod (Nat.le_of_not_lt hwrap), Nat.mod_eq_of_lt (by omega)]
    have hsum : r.tail + q.length - n + n - r.tail = q.length := by omega
    rw [hsub, hsum, Nat.mod_eq_of_lt hroom]

theorem Holds.contents_eq (h : Holds n r q) : r.contents n = q := by
  refine List.ext_getElem? fun i => ?_
  unfold RingBuf.contents
  rw [h.count_eq, List.getElem?_map]
  by_cases hi : i < q.length
  · rw [List.getElem?_range hi, List.getElem?_eq_getElem hi]
    exact congrArg some (h.entry i q[i] (List.getElem?_eq_getElem hi))
  · have hle := Nat.le_of_not_lt hi
    rw [List.getElem?_eq_none (by rwa [List.length_range]), List.getElem?_eq_none hle]
    rfl

/-- Whatever the indices are, the ring holds what is between them. -/
theorem holds_contents (htail : r.tail < n) (hhead : r.head < n) :
    Holds n r (r.contents n) := by
  have hpos : 0 < n := Nat.zero_lt_of_lt htail
  have hlen : (r.contents n).length = r.count n := by simp [RingBuf.contents]
  refine ⟨htail, ?_, ?_, fun i a hi => ?_⟩
  · rw [hlen]
    exact Nat.mod_lt _ hpos
  · have hsum : r.tail + (r.head + n - r.tail) = r.head + n := by omega
    rw [hlen, RingBuf.count, Nat.add_mod_mod, hsum, Nat.add_mod_right, Nat.mod_eq_of_lt hhead]
  · rw [RingBuf.contents, List.getElem?_map, Option.map_eq_some_iff] at hi
    obtain ⟨j, hj, rfl⟩ := hi
    obtain ⟨hlt, rfl⟩ := List.getElem?_eq_some_iff.1 hj
    rw [List.getElem_range]

/-- An element goes to the end, as long as there is room. -/
theorem Holds.push (h : Holds n r q) (hroom : q.length + 1 < n) (a : α) :
    Holds n (r.push n a) (q ++ [a]) := by
  have htail := h.tail_lt
  have hhead : (r.head + 1) % n = (r.tail + (q.length + 1)) % n := by
    rw [h.head_eq, Nat.mod_add_mod, Nat.add_assoc]
  have hfree : (r.head + 1) % n ≠ r.tail := by
    rw [hhead]
    have hne := slot_ne (t := r.tail) hroom (by omega) (Nat.succ_ne_zero q.length)
    change _ ≠ r.tail % n at hne
    rwa [Nat.mod_eq_of_lt htail] at hne
  unfold RingBuf.push
  rw [if_pos hfree]
  refine ⟨htail, ?_, ?_, ?_⟩
  · rw [List.length_append]
    exact hroom
  · rw [List.length_append]
    exact hhead
  · intro i b hi
    dsimp only
    rw [h.head_eq]
    by_cases hlast : i = q.length
    · rw [hlast, List.getElem?_append_right (Nat.le_refl _), Nat.sub_self] at hi
      rw [hlast, Function.update_self]
      exact Option.some.inj hi
    · have hlt : i < q.length := by
        have hbound := (List.getElem?_eq_some_iff.mp hi).1
        rw [List.length_append] at hbound
        have hone : [a].length = 1 := rfl
        omega
      rw [List.getElem?_append_left hlt] at hi
      rw [Function.update_of_ne (slot_ne (by omega) (by omega) hlast)]
      exact h.entry i b hi

/-- A full ring takes nothing. -/
theorem Holds.push_full (h : Holds n r q) (hfull : q.length + 1 = n) (a : α) : r.push n a = r := by
  have htail := h.tail_lt
  have hhead : (r.head + 1) % n = r.tail := by
    rw [h.head_eq, Nat.mod_add_mod, Nat.add_assoc, hfull, Nat.add_mod_right, Nat.mod_eq_of_lt htail]
  unfold RingBuf.push
  rw [if_neg (not_not_intro hhead)]

theorem Holds.pop_nil (h : Holds n r []) : r.pop n = none := by
  unfold RingBuf.pop
  have hhead : r.tail = r.head := by
    rw [h.head_eq]
    exact (Nat.mod_eq_of_lt h.tail_lt).symm
  rw [if_pos hhead]

/-- The oldest element is taken, and the others stay. -/
theorem Holds.pop_cons (h : Holds n r (a :: q)) :
    ∃ r', r.pop n = some (a, r') ∧ Holds n r' q := by
  have htail := h.tail_lt
  have hroom := h.room
  rw [List.length_cons] at hroom
  have hne : r.tail ≠ r.head := by
    rw [h.head_eq, List.length_cons]
    have hslot := slot_ne (t := r.tail) (by omega) hroom (Nat.succ_ne_zero q.length).symm
    change r.tail % n ≠ _ at hslot
    rwa [Nat.mod_eq_of_lt htail] at hslot
  have hfirst : r.slots r.tail = a := by
    have hentry := h.entry 0 a rfl
    rwa [Nat.add_zero, Nat.mod_eq_of_lt htail] at hentry
  refine ⟨{ r with tail := (r.tail + 1) % n }, ?_, ?_⟩
  · unfold RingBuf.pop
    rw [if_neg hne, hfirst]
  · refine ⟨Nat.mod_lt _ (by omega), by omega, ?_, ?_⟩
    · dsimp only
      rw [h.head_eq, List.length_cons, Nat.mod_add_mod]
      congr 1
      omega
    · intro i b hi
      dsimp only
      rw [Nat.mod_add_mod, Nat.add_assoc, Nat.add_comm 1 i]
      exact h.entry (i + 1) b hi

theorem Holds.next (h : Holds n r (a :: q)) : Holds n { r with tail := (r.tail + 1) % n } q := by
  obtain ⟨r', hpop, hrest⟩ := h.pop_cons
  unfold RingBuf.pop at hpop
  split at hpop
  · cases hpop
  · cases hpop
    exact hrest

/-- Some entries go in, one after the other. -/
theorem Holds.pushes (h : Holds n r q) (as : List α) (hroom : q.length + as.length < n) :
    Holds n (as.foldl (RingBuf.push n) r) (q ++ as) := by
  induction as generalizing r q with
  | nil => rwa [List.append_nil]
  | cons a as ih =>
      rw [List.length_cons] at hroom
      have hpush := h.push (by omega) a
      have hrest := ih hpush (by
        rw [List.length_append]
        change q.length + 1 + as.length < n
        omega)
      rwa [List.append_assoc] at hrest

/-- Of some entries as many go in as find room. -/
theorem Holds.pushes_take (h : Holds n r q) (as : List α) :
    Holds n (as.foldl (RingBuf.push n) r) (q ++ as.take (n - 1 - q.length)) := by
  have hroom := h.room
  induction as generalizing r q with
  | nil => rwa [List.take_nil, List.append_nil]
  | cons a as ih =>
      rw [List.foldl_cons]
      by_cases hfull : q.length + 1 = n
      · have hzero : n - 1 - q.length = 0 := by omega
        have hrest := ih h hroom
        rw [hzero, List.take_zero] at hrest
        rwa [h.push_full hfull, hzero, List.take_zero]
      · have hone : n - 1 - q.length = n - 1 - (q.length + 1) + 1 := by omega
        have hpush := h.push (by omega) a
        have hrest := ih hpush hpush.room
        rw [List.length_append, List.append_assoc] at hrest
        rw [hone, List.take_succ_cons]
        exact hrest

end RingQueue
