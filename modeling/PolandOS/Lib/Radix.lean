import Mathlib.Tactic.Common

/-! # Radix trees in a node store

A radix tree of tables: a store gives each node an entry for each index, and
`child d` decodes an entry read at depth `d` into the node it points to, if it
points to one. Nothing in the store itself prevents two entries from pointing to
one node; `Tree` says that no node has two paths. Under it a write to one entry
is seen by the lookups that pass through that entry and by no other.

* `stop_write`: lookups that do not pass through the written entry are unchanged;
* `Tree.write_leaf`, `Tree.write_fresh`: the two kinds of write keep the tree.
-/

namespace Radix

variable {N I E : Type*} (child : Nat → E → Option N)

/-- The node reached from `n`, a node of depth `d`, along a path of indices. -/
def walk (st : N → I → E) : Nat → N → List I → Option N
  | _, n, [] => some n
  | d, n, i :: is =>
    match child d (st n i) with
    | none => none
    | some c => walk st (d + 1) c is

/-- The entry at which a lookup along `i :: is` stops, with its depth: the first
that points to no node, or the last. -/
def stop (st : N → I → E) : Nat → N → I → List I → Nat × E
  | d, n, i, [] => (d, st n i)
  | d, n, i, j :: is =>
    match child d (st n i) with
    | none => (d, st n i)
    | some c => stop st (d + 1) c j is

/-- No node is reached along two paths. -/
def Tree (st : N → I → E) (root : N) : Prop :=
  ∀ p q n, walk child st 0 root p = some n → walk child st 0 root q = some n → p = q

section

variable {child} {st st' : N → I → E} {d : Nat} {n root : N} {p q : List I}

theorem walk_append : walk child st d n (p ++ q) =
    (walk child st d n p).bind fun c => walk child st (d + p.length) c q := by
  induction p generalizing d n with
  | nil => rfl
  | cons i is ih =>
      rw [List.cons_append, walk, walk]
      cases child d (st n i) with
      | none => rfl
      | some c =>
          simp only [ih, List.length_cons]
          rw [Nat.add_assoc, Nat.add_comm 1]

/-- A lookup depends only on the entries it reads. -/
theorem walk_congr (h : ∀ r j s, q = r ++ j :: s → ∀ c, walk child st d n r = some c →
    st' c j = st c j) : walk child st' d n q = walk child st d n q := by
  induction q generalizing d n with
  | nil => rfl
  | cons i is ih =>
      have hentry : st' n i = st n i := h [] i is rfl n rfl
      rw [walk, walk, hentry]
      cases hc : child d (st n i) with
      | none => rfl
      | some c =>
          apply ih
          intro r j s hq b hb
          refine h (i :: r) j s (by rw [hq, List.cons_append]) b ?_
          rw [walk, hc]
          exact hb

theorem stop_congr {i : I} {is : List I} (h : ∀ r j s, i :: is = r ++ j :: s →
    ∀ c, walk child st d n r = some c → st' c j = st c j) :
    stop child st' d n i is = stop child st d n i is := by
  induction is generalizing d n i with
  | nil =>
      have hentry : st' n i = st n i := h [] i [] rfl n rfl
      rw [stop, stop, hentry]
  | cons k is ih =>
      have hentry : st' n i = st n i := h [] i (k :: is) rfl n rfl
      rw [stop, stop, hentry]
      cases hc : child d (st n i) with
      | none => rfl
      | some c =>
          apply ih
          intro r j s hq b hb
          refine h (i :: r) j s (by rw [hq, List.cons_append]) b ?_
          rw [walk, hc]
          exact hb

theorem stop_of_none {i : I} {is : List I} (h : child d (st n i) = none) :
    stop child st d n i is = (d, st n i) := by
  cases is with
  | nil => rfl
  | cons j is => rw [stop, h]

/-- A lookup that gets to a node goes on from there. -/
theorem stop_through {i j : I} {is r : List I} (hp : walk child st d root p = some n)
    (h : i :: is = p ++ j :: r) :
    stop child st d root i is = stop child st (d + p.length) n j r := by
  induction p generalizing d root i is with
  | nil =>
      obtain ⟨rfl, rfl⟩ := List.cons.inj h
      rw [walk] at hp
      rw [Option.some.inj hp]
      rfl
  | cons k p ih =>
      obtain ⟨rfl, rfl⟩ := List.cons.inj h
      rw [walk] at hp
      cases hc : child d (st root i) with
      | none => simp [hc] at hp
      | some c =>
          simp only [hc] at hp
          have hd : d + (i :: p).length = d + 1 + p.length := by
            rw [List.length_cons]
            omega
          rw [hd]
          cases p with
          | nil =>
              change stop child st d root i (j :: r) = _
              rw [stop, hc]
              exact ih hp rfl
          | cons k p =>
              change stop child st d root i (k :: (p ++ j :: r)) = _
              rw [stop, hc]
              exact ih hp rfl

/-- Where a lookup stops: at an entry of a node on its path, which points to no
node unless it is the last. -/
theorem stop_spec {i : I} {is : List I} : ∃ r j s c, i :: is = r ++ j :: s ∧
    walk child st d n r = some c ∧ stop child st d n i is = (d + r.length, st c j) ∧
    (s ≠ [] → child (d + r.length) (st c j) = none) := by
  induction is generalizing d n i with
  | nil => exact ⟨[], i, [], n, rfl, rfl, rfl, fun h => absurd rfl h⟩
  | cons k is ih =>
      cases hc : child d (st n i) with
      | none => exact ⟨[], i, k :: is, n, rfl, rfl, by simp [stop, hc], fun _ => hc⟩
      | some c =>
          obtain ⟨r, j, s, b, hrs, hw, hs, hlast⟩ := ih (d := d + 1) (n := c) (i := k)
          have hd : d + (i :: r).length = d + 1 + r.length := by
            rw [List.length_cons]
            omega
          refine ⟨i :: r, j, s, b, by rw [hrs, List.cons_append], ?_, ?_, ?_⟩
          · rw [walk, hc]
            exact hw
          · rw [stop, hc, hd]
            exact hs
          · rw [hd]
            exact hlast

/-! ## Writing one entry -/

/-- Entry `i` of node `n` is overwritten; the other entries of the tree stay. -/
structure Write (child : Nat → E → Option N) (st st' : N → I → E) (root n : N) (i : I) (e : E) :
    Prop where
  self : st' n i = e
  other : ∀ q c j, walk child st 0 root q = some c → (c ≠ n ∨ j ≠ i) → st' c j = st c j

variable {i : I} {e : E}

/-- Off the written entry nothing is seen of the write. -/
theorem walk_write (ht : Tree child st root) (hp : walk child st 0 root p = some n)
    (hw : Write child st st' root n i e) (hq : ∀ s, q ≠ p ++ i :: s) :
    walk child st' 0 root q = walk child st 0 root q := by
  apply walk_congr
  intro r j s hrs c hc
  by_cases hne : c ≠ n ∨ j ≠ i
  · exact hw.other r c j hc hne
  · obtain ⟨rfl, rfl⟩ : c = n ∧ j = i := by
      rw [not_or, not_not, not_not] at hne
      exact hne
    exact absurd (by rw [hrs, ht r p c hc hp]) (hq s)

theorem stop_write {k : I} {is : List I} (ht : Tree child st root)
    (hp : walk child st 0 root p = some n) (hw : Write child st st' root n i e)
    (hq : ∀ s, k :: is ≠ p ++ i :: s) :
    stop child st' 0 root k is = stop child st 0 root k is := by
  apply stop_congr
  intro r j s hrs c hc
  by_cases hne : c ≠ n ∨ j ≠ i
  · exact hw.other r c j hc hne
  · obtain ⟨rfl, rfl⟩ : c = n ∧ j = i := by
      rw [not_or, not_not, not_not] at hne
      exact hne
    exact absurd (by rw [hrs, ht r p c hc hp]) (hq s)

/-- The path to the written node is not affected. -/
theorem walk_write_node (ht : Tree child st root) (hp : walk child st 0 root p = some n)
    (hw : Write child st st' root n i e) : walk child st' 0 root p = some n := by
  rw [walk_write ht hp hw, hp]
  intro s hs
  have := congrArg List.length hs
  simp at this

/-- Paths through the written entry. -/
theorem walk_write_through {s : List I} (ht : Tree child st root)
    (hp : walk child st 0 root p = some n) (hw : Write child st st' root n i e) :
    walk child st' 0 root (p ++ i :: s) =
      match child p.length e with
      | none => none
      | some c => walk child st' (p.length + 1) c s := by
  rw [walk_append, walk_write_node ht hp hw, Option.bind_some, walk, hw.self, Nat.zero_add]

/-- Writing an entry that points nowhere keeps the tree. -/
theorem Tree.write_leaf (ht : Tree child st root) (hp : walk child st 0 root p = some n)
    (hw : Write child st st' root n i e) (he : child p.length e = none) :
    Tree child st' root := by
  have hold : ∀ q c, walk child st' 0 root q = some c → walk child st 0 root q = some c := by
    intro q c hc
    by_cases hq : ∃ s, q = p ++ i :: s
    · obtain ⟨s, rfl⟩ := hq
      rw [walk_write_through ht hp hw, he] at hc
      cases hc
    · rwa [walk_write ht hp hw fun s hs => hq ⟨s, hs⟩] at hc
  intro q r c hq hr
  exact ht q r c (hold q c hq) (hold r c hr)

/-- What a write of a pointer to a fresh empty node adds: one path. -/
theorem walk_write_fresh {b : N} (ht : Tree child st root) (hp : walk child st 0 root p = some n)
    (hw : Write child st st' root n i e) (he : child p.length e = some b)
    (hempty : ∀ j, child (p.length + 1) (st' b j) = none) {c : N}
    (hc : walk child st' 0 root q = some c) :
    walk child st 0 root q = some c ∨ (q = p ++ [i] ∧ c = b) := by
  by_cases hq : ∃ s, q = p ++ i :: s
  · obtain ⟨s, rfl⟩ := hq
    rw [walk_write_through ht hp hw, he] at hc
    cases s with
    | nil => exact Or.inr ⟨rfl, (Option.some.inj hc).symm⟩
    | cons j s =>
        simp only [walk, hempty] at hc
        cases hc
  · rw [walk_write ht hp hw fun s hs => hq ⟨s, hs⟩] at hc
    exact Or.inl hc

/-- Pointing an entry to a fresh empty node keeps the tree. -/
theorem Tree.write_fresh {b : N} (ht : Tree child st root) (hp : walk child st 0 root p = some n)
    (hw : Write child st st' root n i e) (he : child p.length e = some b)
    (hempty : ∀ j, child (p.length + 1) (st' b j) = none)
    (hfresh : ∀ q, walk child st 0 root q ≠ some b) : Tree child st' root := by
  intro q r c hq hr
  rcases walk_write_fresh ht hp hw he hempty hq with hq | ⟨rfl, rfl⟩
  · rcases walk_write_fresh ht hp hw he hempty hr with hr | ⟨rfl, rfl⟩
    · exact ht q r c hq hr
    · exact absurd hq (hfresh q)
  · rcases walk_write_fresh ht hp hw he hempty hr with hr | ⟨rfl, -⟩
    · exact absurd hr (hfresh r)
    · rfl

end

end Radix
