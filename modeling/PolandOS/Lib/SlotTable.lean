import Mathlib.Algebra.GroupWithZero.Nat
import Mathlib.Data.List.FinRange
import Mathlib.Logic.Function.Basic
import Mathlib.Tactic.Common

/-! # Tables with a fixed number of slots

A map kept in slots: a slot is free, or holds a key and a value. An entry goes into the
slot of its key, else into a free slot, else into slot 0. `lookup_enter` says what is
found afterwards; it rests on `KeysUnique`, which `enter` keeps.
-/

namespace SlotTable

/-- What each slot holds. -/
abbrev Table (n : Nat) (κ β : Type) := Fin n → Option (κ × β)

variable {n : Nat} {κ β : Type} {t : Table n κ β} {k k' : κ} {v : β} {i : Fin n}

/-- No key is in two slots. -/
def KeysUnique (t : Table n κ β) : Prop :=
  ∀ i j k v w, t i = some (k, v) → t j = some (k, w) → i = j

/-- No slot is free. -/
def Full (t : Table n κ β) : Prop := ∀ i, t i ≠ none

/-- An entry is put into a slot. -/
def place (t : Table n κ β) (i : Fin n) (k : κ) (v : β) : Table n κ β :=
  Function.update t i (some (k, v))

variable [DecidableEq κ]

/-- The first slot of a key. -/
def find (t : Table n κ β) (k : κ) : Option (Fin n) :=
  (List.finRange n).find? fun i => decide ((t i).map Prod.fst = some k)

/-- The value of a key. -/
def lookup (t : Table n κ β) (k : κ) : Option β := (find t k).bind fun i => (t i).map Prod.snd

/-- An entry is entered. -/
def enter [NeZero n] (t : Table n κ β) (k : κ) (v : β) : Table n κ β :=
  match find t k with
  | some i => place t i k v
  | none =>
    match (List.finRange n).find? fun i => (t i).isNone with
    | some i => place t i k v
    | none => place t 0 k v

/-! ## What is found -/

omit [DecidableEq κ] in
theorem fst_eq_some_iff : (t i).map Prod.fst = some k ↔ ∃ v, t i = some (k, v) := by
  cases t i with
  | none => simp
  | some e =>
      obtain ⟨k', v⟩ := e
      simp

theorem eq_some_of_find (h : find t k = some i) : ∃ v, t i = some (k, v) := by
  have hkey := List.find?_some h
  exact fst_eq_some_iff.1 (of_decide_eq_true hkey)

theorem find_eq_none : find t k = none ↔ ∀ i v, t i ≠ some (k, v) := by
  unfold find
  rw [List.find?_eq_none]
  constructor
  · intro h i v hi
    exact h i (List.mem_finRange i) (decide_eq_true (fst_eq_some_iff.2 ⟨v, hi⟩))
  · intro h i _ hi
    obtain ⟨v, hv⟩ := fst_eq_some_iff.1 (of_decide_eq_true hi)
    exact h i v hv

theorem lookup_eq_none : lookup t k = none ↔ ∀ i v, t i ≠ some (k, v) := by
  rw [← find_eq_none, lookup]
  cases h : find t k with
  | none => simp
  | some i =>
      obtain ⟨v, hv⟩ := eq_some_of_find h
      simp [hv]

theorem lookup_eq_some (hu : KeysUnique t) : lookup t k = some v ↔ ∃ i, t i = some (k, v) := by
  constructor
  · intro h
    obtain ⟨i, hi, hv⟩ := Option.bind_eq_some_iff.1 h
    obtain ⟨w, hw⟩ := eq_some_of_find hi
    rw [hw] at hv
    cases hv
    exact ⟨i, hw⟩
  · rintro ⟨i, hi⟩
    cases h : find t k with
    | none => exact absurd hi (find_eq_none.1 h i v)
    | some j =>
        obtain ⟨w, hw⟩ := eq_some_of_find h
        cases hu i j k v w hi hw
        rw [hi] at hw
        cases hw
        simp [lookup, h, hi]

/-! ## Placing an entry

No slot but the one that is used may hold the key already.
-/

omit [DecidableEq κ] in
theorem place_eq_some {j : Fin n} {w : β} : place t i k v j = some (k', w) ↔
    (j = i ∧ k' = k ∧ w = v) ∨ (j ≠ i ∧ t j = some (k', w)) := by
  unfold place
  by_cases hj : j = i
  · subst hj
    rw [Function.update_self]
    simp [eq_comm]
  · rw [Function.update_of_ne hj]
    simp [hj]

omit [DecidableEq κ] in
theorem KeysUnique.place (hu : KeysUnique t) (hk : ∀ j w, t j = some (k, w) → j = i) (v : β) :
    KeysUnique (place t i k v) := by
  intro a b c x y ha hb
  rcases place_eq_some.1 ha with ⟨hai, hca, -⟩ | ⟨hai, hold⟩ <;>
    rcases place_eq_some.1 hb with ⟨hbi, hcb, -⟩ | ⟨hbi, hold'⟩
  · exact hai.trans hbi.symm
  · exact absurd (hk b y (hca ▸ hold')) hbi
  · exact absurd (hk a x (hcb ▸ hold)) hai
  · exact hu a b c x y hold hold'

theorem lookup_place_self (hu : KeysUnique t) (hk : ∀ j w, t j = some (k, w) → j = i) (v : β) :
    lookup (place t i k v) k = some v :=
  (lookup_eq_some (hu.place hk v)).2 ⟨i, place_eq_some.2 (.inl ⟨rfl, rfl, rfl⟩)⟩

/-- The key that was in the slot is found no more. -/
theorem lookup_place_old (hu : KeysUnique t) (v : β) (hne : k' ≠ k) {w : β}
    (hold : t i = some (k', w)) : lookup (place t i k v) k' = none := by
  refine lookup_eq_none.2 fun j x hj => ?_
  rcases place_eq_some.1 hj with ⟨-, hkey, -⟩ | ⟨hji, hj⟩
  · exact hne hkey
  · exact hji (hu j i k' x w hj hold)

/-- The others are found as before. -/
theorem lookup_place_of_ne (hu : KeysUnique t) (hk : ∀ j w, t j = some (k, w) → j = i) (v : β)
    (hne : k' ≠ k) (hold : ∀ w, t i ≠ some (k', w)) : lookup (place t i k v) k' = lookup t k' := by
  refine Option.ext fun x => ?_
  rw [lookup_eq_some (hu.place hk v), lookup_eq_some hu]
  refine exists_congr fun j => place_eq_some.trans ?_
  constructor
  · rintro (⟨-, hkey, -⟩ | ⟨-, hj⟩)
    · exact absurd hkey hne
    · exact hj
  · intro hj
    exact .inr ⟨fun hji => hold x (hji ▸ hj), hj⟩

/-! ## Entering an entry -/

/-- The other slots do not hold the key. -/
theorem only_slot (hu : KeysUnique t)
    (hi : (∃ w, t i = some (k, w)) ∨ lookup t k = none) : ∀ j w, t j = some (k, w) → j = i := by
  intro j w hj
  rcases hi with ⟨x, hx⟩ | hmiss
  · exact hu j i k w x hj hx
  · exact absurd hj (lookup_eq_none.1 hmiss j w)

variable [NeZero n]

/-- The slot that is used: the one of the key, or a free one, or slot 0. -/
theorem enter_cases (t : Table n κ β) (k : κ) (v : β) : ∃ i, enter t k v = place t i k v ∧
    ((∃ w, t i = some (k, w)) ∨ (lookup t k = none ∧ t i = none) ∨
      (lookup t k = none ∧ Full t ∧ i = 0)) := by
  unfold enter
  cases hfind : find t k with
  | some i => exact ⟨i, rfl, .inl (eq_some_of_find hfind)⟩
  | none =>
      have hmiss : lookup t k = none := by rw [lookup, hfind, Option.bind_none]
      cases hfree : (List.finRange n).find? fun i => (t i).isNone with
      | some i =>
          have hnone : (t i).isNone = true := List.find?_some (p := fun i => (t i).isNone) hfree
          exact ⟨i, rfl, .inr (.inl ⟨hmiss, Option.isNone_iff_eq_none.1 hnone⟩)⟩
      | none =>
          refine ⟨0, rfl, .inr (.inr ⟨hmiss, fun i hi => ?_, rfl⟩)⟩
          exact List.find?_eq_none.1 hfree i (List.mem_finRange i) (Option.isNone_iff_eq_none.2 hi)

theorem KeysUnique.enter (hu : KeysUnique t) (k : κ) (v : β) : KeysUnique (enter t k v) := by
  obtain ⟨i, hins, hi⟩ := enter_cases t k v
  rw [hins]
  exact hu.place (only_slot hu (hi.imp_right fun h => h.elim And.left And.left)) v

/-- What is found after an entry: it, and what was found before, but for the key that it
has driven out of slot 0. -/
theorem lookup_enter (hu : KeysUnique t) (k : κ) (v : β) :
    lookup (enter t k v) k = some v ∧
    ∀ k' ≠ k, ((lookup t k = none ∧ Full t ∧ ∃ w, t 0 = some (k', w)) →
        lookup (enter t k v) k' = none) ∧
      (¬(lookup t k = none ∧ Full t ∧ ∃ w, t 0 = some (k', w)) →
        lookup (enter t k v) k' = lookup t k') := by
  obtain ⟨i, hins, hi⟩ := enter_cases t k v
  have hk := only_slot hu (hi.imp_right fun h => h.elim And.left And.left)
  rw [hins]
  refine ⟨lookup_place_self hu hk v, fun k' hne => ?_⟩
  rcases hi with ⟨w, hw⟩ | ⟨hmiss, hfree⟩ | ⟨hmiss, hfull, rfl⟩
  · refine ⟨fun h => absurd hw (lookup_eq_none.1 h.1 i w), fun _ => ?_⟩
    refine lookup_place_of_ne hu hk v hne fun x hx => ?_
    rw [hx] at hw
    cases hw
    exact hne rfl
  · refine ⟨fun h => absurd hfree (h.2.1 i), fun _ => ?_⟩
    exact lookup_place_of_ne hu hk v hne (by simp [hfree])
  · constructor
    · rintro ⟨-, -, x, hx⟩
      exact lookup_place_old hu v hne hx
    · exact fun h => lookup_place_of_ne hu hk v hne fun x hx => h ⟨hmiss, hfull, x, hx⟩

end SlotTable
