import Mathlib.Data.List.TakeWhile

/-! # Words

The words of a list are its maximal runs of elements that are no separators. `words` gives
them in order, each with the position at which it begins. Separators in front move them
(`words_separators`), and a word in front of a separator is the first one (`words_append`).
-/

namespace Words

variable {α : Type*} {sep : α → Bool} {c : α} {cs w rest : List α} {i : Nat}

/-- A word begins at `i`: no separator is there, and no word goes on from before. -/
def begins (sep : α → Bool) (cs : List α) (i : Nat) : Bool :=
  cs[i]?.any (!sep ·) && (i == 0 || cs[i - 1]?.any sep)

/-- The words, with their positions. -/
def words (sep : α → Bool) (cs : List α) : List (Nat × List α) :=
  ((List.range cs.length).filter (begins sep cs)).map fun i => (i, (cs.drop i).takeWhile (!sep ·))

/-- A word that stands further behind. -/
def shift (k : Nat) (word : Nat × List α) : Nat × List α := (k + word.1, word.2)

theorem words_nil : words sep ([] : List α) = [] := rfl

theorem begins_cons_succ (hc : sep c) : begins sep (c :: cs) (i + 1) = begins sep cs i := by
  cases i with
  | zero => simp [begins, hc]
  | succ i => simp [begins]

theorem words_cons (hc : sep c) : words sep (c :: cs) = (words sep cs).map (shift 1) := by
  have hfirst : begins sep (c :: cs) 0 = false := by simp [begins, hc]
  have hrest : begins sep (c :: cs) ∘ Nat.succ = begins sep cs :=
    funext fun _ => begins_cons_succ hc
  rw [words, List.length_cons, List.range_succ_eq_map, List.filter_cons_of_neg (by simp [hfirst]),
    List.filter_map, hrest, List.map_map, words, List.map_map]
  refine List.map_congr_left fun i _ => ?_
  rw [Function.comp_apply, Function.comp_apply, shift, Nat.add_comm 1 i]
  rfl

theorem shift_shift (j k : Nat) (word : Nat × List α) :
    shift j (shift k word) = shift (j + k) word :=
  Prod.ext (Nat.add_assoc j k word.1).symm rfl

theorem words_separators {seps : List α} (h : ∀ c ∈ seps, sep c) :
    words sep (seps ++ cs) = (words sep cs).map (shift seps.length) := by
  induction seps with
  | nil =>
      have hzero : shift 0 = (id : Nat × List α → _) :=
        funext fun word => Prod.ext (Nat.zero_add _) rfl
      rw [List.length_nil, hzero, List.map_id]
      rfl
  | cons c seps ih =>
      rcases List.forall_mem_cons.mp h with ⟨hc, hseps⟩
      rw [List.cons_append, words_cons hc, ih hseps, List.map_map, List.length_cons]
      refine List.map_congr_left fun word _ => ?_
      rw [Function.comp_apply, shift_shift, Nat.add_comm]

/-- Where the list goes on behind a word. -/
def Ends (sep : α → Bool) (rest : List α) : Prop := ∀ c cs, rest = c :: cs → sep c

theorem begins_append_add (hne : w ≠ []) (hend : Ends sep rest) :
    begins sep (w ++ rest) (w.length + i) = begins sep rest i := by
  have hhere : (w ++ rest)[w.length + i]? = rest[i]? := by
    rw [List.getElem?_append_right (Nat.le_add_right ..), Nat.add_sub_cancel_left]
  have hlen := List.length_pos_iff.mpr hne
  cases i with
  | zero =>
      -- what stands behind the word is a separator
      have hsep : rest[0]?.any (!sep ·) = false := by
        cases rest with
        | nil => rfl
        | cons c cs => simp [hend c cs rfl]
      rw [begins, hhere, hsep, begins, hsep, Bool.false_and, Bool.false_and]
  | succ i =>
      have hbefore : (w ++ rest)[w.length + (i + 1) - 1]? = rest[i]? := by
        rw [List.getElem?_append_right (by omega)]
        congr 1
        omega
      have hpos : (w.length + (i + 1) == 0) = false := by simp
      rw [begins, hhere, hbefore, hpos, begins]
      rfl

theorem begins_append_lt (hw : ∀ c ∈ w, sep c = false) (hi : i < w.length) :
    begins sep (w ++ rest) i = (i == 0) := by
  have hnone : ∀ j < w.length, (w ++ rest)[j]?.any sep = false := by
    intro j hj
    rw [List.getElem?_append_left hj, List.getElem?_eq_getElem hj]
    exact hw _ (List.getElem_mem hj)
  have hhere : (w ++ rest)[i]?.any (!sep ·) = true := by
    rw [List.getElem?_append_left hi, List.getElem?_eq_getElem hi]
    simp [hw _ (List.getElem_mem hi)]
  rw [begins, hhere, hnone (i - 1) (by omega), Bool.or_false, Bool.true_and]

theorem words_append (hw : ∀ c ∈ w, sep c = false) (hne : w ≠ []) (hend : Ends sep rest) :
    words sep (w ++ rest) = (0, w) :: (words sep rest).map (shift w.length) := by
  have hfirst : (List.range w.length).filter (begins sep (w ++ rest)) = [0] := by
    obtain ⟨n, hn⟩ := Nat.exists_eq_succ_of_ne_zero (Nat.ne_of_gt (List.length_pos_iff.mpr hne))
    have hzero : ∀ i ∈ List.range w.length, begins sep (w ++ rest) i = (i == 0) :=
      fun i hi => begins_append_lt hw (List.mem_range.mp hi)
    rw [List.filter_congr hzero, hn, List.range_succ_eq_map, List.filter_cons_of_pos rfl]
    simp [List.filter_map]
  have hrest : begins sep (w ++ rest) ∘ (w.length + ·) = begins sep rest :=
    funext fun _ => begins_append_add hne hend
  have hword : (w ++ rest).takeWhile (!sep ·) = w := by
    have hstop : rest.takeWhile (!sep ·) = [] := by
      cases rest with
      | nil => rfl
      | cons c cs => exact List.takeWhile_cons_of_neg (by simp [hend c cs rfl])
    rw [List.takeWhile_append_of_pos fun c hc => by simp [hw c hc], hstop, List.append_nil]
  rw [words, List.length_append, List.range_add, List.filter_append, hfirst, List.filter_map, hrest,
    List.map_append, List.map_map, words, List.map_map]
  refine congrArg₂ (· :: ·) (congrArg (Prod.mk 0) hword) (List.map_congr_left fun i _ => ?_)
  rw [Function.comp_apply, Function.comp_apply, shift, List.drop_append, List.drop_of_length_le
    (Nat.le_add_right ..), List.nil_append, Nat.add_sub_cancel_left]

end Words
