import Mathlib.Data.List.Induction

/-! # Layers painted one over another

Layers are painted first to last on a background. Each covers some of the points and
gives them its colour; what is seen at a point in the end is the colour of the topmost
layer there, the last that covers it.

* `paint_eq`: painting shows the topmost layer
* `topmost_eq_some`, `topmost_eq_none`: which layer that is
-/

namespace Overlay

variable {ι P C : Type*} (covers : ι → P → Prop) [∀ i p, Decidable (covers i p)]

/-- The layers painted over the background `f`. -/
def paint (colour : ι → C) : List ι → (P → C) → P → C
  | [], f => f
  | i :: l, f => paint colour l fun p => if covers i p then colour i else f p

/-- The last layer that covers a point. -/
def topmost (l : List ι) (p : P) : Option ι := l.reverse.find? fun i => covers i p

variable {covers} {colour : ι → C} {l : List ι} {i : ι} {f : P → C} {p : P}

theorem paint_concat : paint covers colour (l ++ [i]) f p =
    if covers i p then colour i else paint covers colour l f p := by
  induction l generalizing f with
  | nil => rfl
  | cons j l ih => exact ih

theorem topmost_concat : topmost covers (l ++ [i]) p =
    if covers i p then some i else topmost covers l p := by
  unfold topmost
  rw [List.reverse_append, List.reverse_singleton, List.singleton_append, List.find?_cons]
  by_cases h : covers i p
  · simp [h]
  · simp [h]

/-- What is seen at a point. -/
theorem paint_eq (colour : ι → C) (l : List ι) (f : P → C) (p : P) :
    paint covers colour l f p = (topmost covers l p).elim (f p) colour := by
  induction l using List.reverseRecOn with
  | nil => rfl
  | append_singleton l i ih =>
      rw [paint_concat, topmost_concat]
      by_cases h : covers i p
      · simp [h]
      · simp [h, ih]

theorem topmost_eq_none : topmost covers l p = none ↔ ∀ i ∈ l, ¬covers i p := by
  simp [topmost]

/-- The topmost layer covers the point and no later one does. -/
theorem topmost_eq_some : topmost covers l p = some i ↔
    ∃ before after, l = before ++ i :: after ∧ covers i p ∧ ∀ j ∈ after, ¬covers j p := by
  unfold topmost
  rw [List.find?_eq_some_iff_append]
  constructor
  · rintro ⟨hi, after, before, hl, hafter⟩
    refine ⟨before.reverse, after.reverse, ?_, by simpa using hi, fun j hj => ?_⟩
    · rw [← List.reverse_reverse l, hl]
      simp
    · simpa using hafter j (List.mem_reverse.mp hj)
  · rintro ⟨before, after, rfl, hi, hafter⟩
    refine ⟨by simpa using hi, after.reverse, before.reverse, by simp, fun j hj => ?_⟩
    simpa using hafter j (List.mem_reverse.mp hj)

theorem covers_of_topmost (h : topmost covers l p = some i) : covers i p := by
  obtain ⟨_, _, _, hi, _⟩ := topmost_eq_some.mp h
  exact hi

theorem topmost_congr {covers' : ι → P → Prop} [∀ i p, Decidable (covers' i p)]
    (h : ∀ i ∈ l, covers i p ↔ covers' i p) : topmost covers l p = topmost covers' l p := by
  induction l using List.reverseRecOn with
  | nil => rfl
  | append_singleton l i ih =>
      rw [topmost_concat, topmost_concat, ih fun j hj => h j (List.mem_append_left _ hj)]
      exact if_congr (h i (by simp)) rfl rfl

theorem topmost_map {κ : Type*} (f : κ → ι) (l : List κ) : topmost covers (l.map f) p =
    (topmost (fun k p => covers (f k) p) l p).map f := by
  unfold topmost
  rw [← List.map_reverse, List.find?_map]
  rfl

/-- Layers that do not cover the point may be left out. -/
theorem topmost_filter {q : ι → Bool} (h : ∀ i ∈ l, covers i p → q i = true) :
    topmost covers (l.filter q) p = topmost covers l p := by
  induction l using List.reverseRecOn with
  | nil => rfl
  | append_singleton l i ih =>
      have hl : topmost covers (l.filter q) p = topmost covers l p := by
        apply ih
        intro j hj
        exact h j (List.mem_append_left _ hj)
      rw [List.filter_append, topmost_concat]
      by_cases hi : covers i p
      · rw [List.filter_cons_of_pos (h i (by simp) hi), List.filter_nil, topmost_concat, if_pos hi,
          if_pos hi]
      · rw [if_neg hi, ← hl]
        by_cases hq : q i = true
        · rw [List.filter_cons_of_pos hq, List.filter_nil, topmost_concat, if_neg hi]
        · rw [List.filter_cons_of_neg hq, List.filter_nil, List.append_nil]

/-- Two ways to cover the points agree on the topmost layer where the topmost layer of either
is covered both ways. -/
theorem topmost_eq_iff {covers' : ι → P → Prop} [∀ i p, Decidable (covers' i p)] :
    topmost covers l p = topmost covers' l p ↔
      ∀ i, topmost (fun i p => covers i p ∨ covers' i p) l p = some i →
        covers i p ∧ covers' i p := by
  induction l using List.reverseRecOn with
  | nil => simp [topmost]
  | append_singleton l i ih =>
      rw [topmost_concat, topmost_concat, topmost_concat]
      by_cases h : covers i p
      · by_cases h' : covers' i p
        · simp [h, h']
        · -- the layer is seen in one way, and nowhere in the other
          simp only [h, h', if_true, if_false, true_or, Option.some.injEq, forall_eq', and_false,
            iff_false]
          intro hsome
          exact h' (covers_of_topmost hsome.symm)
      · by_cases h' : covers' i p
        · simp only [h, h', if_true, if_false, or_true, Option.some.injEq, forall_eq', false_and,
            iff_false]
          intro hsome
          exact h (covers_of_topmost hsome)
        · simpa [h, h'] using ih

/-- A layer is topmost where no other covers the point. -/
theorem topmost_of_unique (hl : i ∈ l) (hi : covers i p) (huniq : ∀ j ∈ l, covers j p → j = i) :
    topmost covers l p = some i := by
  cases h : topmost covers l p with
  | none => exact absurd hi (topmost_eq_none.mp h i hl)
  | some j =>
      obtain ⟨before, after, rfl, hj, -⟩ := topmost_eq_some.mp h
      rw [huniq j (by simp) hj]

theorem paint_of_unique (hl : i ∈ l) (hi : covers i p) (huniq : ∀ j ∈ l, covers j p → j = i) :
    paint covers colour l f p = colour i := by
  rw [paint_eq, topmost_of_unique hl hi huniq]
  rfl

theorem paint_outside (h : ∀ i ∈ l, ¬covers i p) : paint covers colour l f p = f p := by
  rw [paint_eq, topmost_eq_none.mpr h]
  rfl

end Overlay
