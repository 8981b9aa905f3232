import Mathlib.Data.Fintype.Card
import Mathlib.Logic.Relation
import Mathlib.Tactic.Common

/-! # Trees of linked siblings

Each node points to its parent, to its first child and to its next sibling. `Tree` says that
the pointers are those of a forest: the lists of children end, no node is in two places, the
parents agree with the lists, and no node is above itself. `tree_link_iff` says when a node
may be put in front of the children of another one.
-/

namespace Siblings

variable {α : Type} {next next' : α → Option α} {o : Option α} {l l' : List α} {a c n p q : α}

/-! ## Lists of siblings -/

/-- The siblings from `o` on are the nodes of the list. -/
inductive IsList (next : α → Option α) : Option α → List α → Prop
  | nil : IsList next none []
  | cons {a : α} {l : List α} (h : IsList next (next a) l) : IsList next (some a) (a :: l)

theorem isList_some_iff : IsList next (some a) l ↔ ∃ l', l = a :: l' ∧ IsList next (next a) l' := by
  constructor
  · intro h
    cases h with
    | cons h => exact ⟨_, rfl, h⟩
  · rintro ⟨l', rfl, h⟩
    exact .cons h

instance IsList.decidable [DecidableEq α] :
    ∀ (o : Option α) (l : List α), Decidable (IsList next o l)
  | none, [] => .isTrue .nil
  | none, _ :: _ => .isFalse fun h => nomatch h
  | some _, [] => .isFalse fun h => nomatch h
  | some a, b :: l =>
    have : Decidable (IsList next (next a) l) := IsList.decidable (next a) l
    decidable_of_iff (a = b ∧ IsList next (next a) l) (by
      constructor
      · rintro ⟨rfl, h⟩
        exact .cons h
      · rintro (_ | h)
        exact ⟨rfl, h⟩)

theorem IsList.unique (h : IsList next o l) (h' : IsList next o l') : l = l' := by
  induction h generalizing l' with
  | nil =>
      cases h'
      rfl
  | cons _ ih =>
      cases h' with
      | cons h' => rw [ih h']

/-- From each of them on there is a list again. -/
theorem IsList.tail_of_mem (h : IsList next o l) (ha : a ∈ l) :
    ∃ pre l', l = pre ++ a :: l' ∧ IsList next (some a) (a :: l') := by
  induction h with
  | nil => cases ha
  | @cons b l h ih =>
      rcases List.mem_cons.mp ha with rfl | ha
      · exact ⟨[], l, rfl, .cons h⟩
      · rcases ih ha with ⟨pre, l', rfl, hlist⟩
        exact ⟨b :: pre, l', rfl, hlist⟩

/-- A list that ends does not come back to a node. -/
theorem IsList.nodup (h : IsList next o l) : l.Nodup := by
  induction h with
  | nil => exact List.nodup_nil
  | @cons a l h ih =>
      refine List.nodup_cons.mpr ⟨fun ha => ?_, ih⟩
      rcases h.tail_of_mem ha with ⟨pre, l', hl, hlist⟩
      have heq := hlist.unique (.cons h)
      have hlen := congrArg List.length hl
      rw [(List.cons.inj heq).2] at hlen
      simp only [List.length_append, List.length_cons] at hlen
      omega

/-- A node that is not in the list may be changed. -/
theorem IsList.congr (h : IsList next o l) (hnext : ∀ a ∈ l, next' a = next a) :
    IsList next' o l := by
  induction h with
  | nil => exact .nil
  | @cons a l h ih =>
      refine .cons ?_
      rw [hnext a List.mem_cons_self]
      exact ih fun b hb => hnext b (List.mem_cons_of_mem _ hb)

/-- Where only `n` is changed, a list with `n` still comes to it. -/
theorem IsList.mem_of_agree (h : IsList next o l) (h' : IsList next' o l')
    (hnext : ∀ a, a ≠ n → next' a = next a) (hn : n ∈ l) : n ∈ l' := by
  induction h generalizing l' with
  | nil => cases hn
  | @cons a l h ih =>
      rcases isList_some_iff.mp h' with ⟨l₁, rfl, h₁⟩
      by_cases ha : n = a
      · exact ha ▸ List.mem_cons_self
      · rw [hnext a (Ne.symm ha)] at h₁
        exact List.mem_cons_of_mem _ (ih h₁ ((List.mem_cons.mp hn).resolve_left ha))

/-- At most so many siblings. -/
def follow (next : α → Option α) : Nat → Option α → List α
  | 0, _ => []
  | _ + 1, none => []
  | k + 1, some a => a :: follow next k (next a)

theorem IsList.follow_eq (h : IsList next o l) {k : Nat} (hk : l.length ≤ k) :
    follow next k o = l := by
  induction h generalizing k with
  | nil => cases k <;> rfl
  | @cons a l h ih =>
      match k, hk with
      | k + 1, hk => exact congrArg (a :: ·) (ih (Nat.le_of_succ_le_succ hk))

theorem IsList.follow_card [Fintype α] (h : IsList next o l) :
    follow next (Fintype.card α) o = l := by
  classical
  exact h.follow_eq h.nodup.length_le_card

/-! ## Trees -/

/-- The pointers of all nodes. -/
structure Links (α : Type) where
  parent : α → Option α
  first : α → Option α
  next : α → Option α

/-- These are the children. -/
def Links.Represents (L : Links α) (kids : α → List α) : Prop :=
  ∀ p, IsList L.next (L.first p) (kids p)

/-- A node is in the list of at most one other, which it has as its parent, and not above
itself. -/
structure Forest (kids : α → List α) (parent : α → Option α) : Prop where
  once : ∀ p q c, c ∈ kids p → c ∈ kids q → p = q
  parent : ∀ p c, c ∈ kids p → parent c = some p
  acyclic : ∀ c, ¬Relation.TransGen (fun p c => c ∈ kids p) c c

/-- The pointers are those of a forest. -/
def Links.Tree (L : Links α) : Prop := ∃ kids, L.Represents kids ∧ Forest kids L.parent

/-- A node is a child of another one. -/
def Links.Child (L : Links α) (p c : α) : Prop := ∃ l, IsList L.next (L.first p) l ∧ c ∈ l

/-- A node is in some list. -/
def Links.Listed (L : Links α) (c : α) : Prop := ∃ p, L.Child p c

/-- A node is the other one or above it. -/
def Links.Above (L : Links α) (c p : α) : Prop := Relation.ReflTransGen L.Child c p

variable {L : Links α} {kids : α → List α}

theorem Links.Represents.child_iff (h : L.Represents kids) : L.Child p c ↔ c ∈ kids p := by
  constructor
  · rintro ⟨l, hl, hc⟩
    rwa [hl.unique (h p)] at hc
  · exact fun hc => ⟨kids p, h p, hc⟩

theorem Links.Represents.child_eq (h : L.Represents kids) : L.Child = fun p c => c ∈ kids p :=
  funext fun _ => funext fun _ => propext h.child_iff

theorem Links.Represents.listed_iff (h : L.Represents kids) : L.Listed c ↔ ∃ p, c ∈ kids p :=
  exists_congr fun _ => h.child_iff

/-- A relation with one more pair, from `p` to `c`. -/
theorem transGen_insert {R R' : α → α → Prop} (hR : ∀ a b, R' a b → R a b ∨ a = p ∧ b = c)
    {b : α} (h : Relation.TransGen R' a b) : Relation.TransGen R a b ∨
      Relation.ReflTransGen R a p ∧ Relation.ReflTransGen R c b := by
  induction h with
  | single h =>
      rcases hR _ _ h with h | ⟨rfl, rfl⟩
      · exact .inl (.single h)
      · exact .inr ⟨.refl, .refl⟩
  | tail _ h ih =>
      rcases hR _ _ h with h | ⟨rfl, rfl⟩
      · rcases ih with hold | ⟨hap, hcb⟩
        · exact .inl (hold.tail h)
        · exact .inr ⟨hap, hcb.tail h⟩
      · rcases ih with hold | ⟨hap, -⟩
        · exact .inr ⟨hold.to_reflTransGen, .refl⟩
        · exact .inr ⟨hap, .refl⟩

/-! ## Changes -/

variable [DecidableEq α]

/-- `c` becomes the first child of `p`. -/
def Links.link (L : Links α) (p c : α) : Links α where
  parent := Function.update L.parent c (some p)
  next := Function.update L.next c (L.first p)
  first := Function.update L.first p (some c)

/-- All pointers of a node are cleared. -/
def Links.clear (L : Links α) (n : α) : Links α where
  parent := Function.update L.parent n none
  next := Function.update L.next n none
  first := Function.update L.first n none

/-- A node that is in no list goes in front of the children of another one. -/
theorem Links.Represents.link (h : L.Represents kids) (hc : ¬L.Listed c) :
    (L.link p c).Represents (Function.update kids p (c :: kids p)) := by
  have hne : ∀ q, ∀ a ∈ kids q, a ≠ c := by
    rintro q a ha rfl
    exact hc (h.listed_iff.mpr ⟨q, ha⟩)
  have hlist : ∀ q, IsList (L.link p c).next (L.first q) (kids q) := fun q =>
    (h q).congr fun a ha => Function.update_of_ne (hne q a ha) _ _
  intro q
  by_cases hq : q = p
  · subst hq
    change IsList _ (Function.update L.first q (some c) q) _
    rw [Function.update_self, Function.update_self]
    refine .cons ?_
    change IsList _ (Function.update L.next c (L.first q) c) _
    rw [Function.update_self]
    exact hlist q
  · change IsList _ (Function.update L.first p (some c) q) _
    rw [Function.update_of_ne hq, Function.update_of_ne hq]
    exact hlist q

theorem mem_update_iff : a ∈ Function.update kids p (c :: kids p) q ↔
    a ∈ kids q ∨ q = p ∧ a = c := by
  by_cases hq : q = p
  · subst hq
    rw [Function.update_self, List.mem_cons]
    simp only [true_and, or_comm]
  · rw [Function.update_of_ne hq]
    simp only [hq, false_and, or_false]

/-- The abstract side of `link`. -/
theorem Forest.link {parent : α → Option α} (h : Forest kids parent) (hc : ∀ q, c ∉ kids q)
    (habove : ¬Relation.ReflTransGen (fun p c => c ∈ kids p) c p) :
    Forest (Function.update kids p (c :: kids p)) (Function.update parent c (some p)) where
  once q q' a ha ha' := by
    rw [mem_update_iff] at ha ha'
    rcases ha with ha | ⟨rfl, rfl⟩
    · rcases ha' with ha' | ⟨rfl, rfl⟩
      · exact h.once q q' a ha ha'
      · exact absurd ha (hc q)
    · rcases ha' with ha' | ⟨rfl, -⟩
      · exact absurd ha' (hc q')
      · rfl
  parent q a ha := by
    rw [mem_update_iff] at ha
    rcases ha with ha | ⟨rfl, rfl⟩
    · have hne : a ≠ c := by
        rintro rfl
        exact hc q ha
      rw [Function.update_of_ne hne]
      exact h.parent q a ha
    · rw [Function.update_self]
  acyclic a ha := by
    rcases transGen_insert (fun _ _ => mem_update_iff.mp) ha with hold | ⟨hap, hca⟩
    · exact h.acyclic a hold
    · exact habove (hca.trans hap)

/-- A node may become the first child of another one exactly if it is in no list, and neither
this one nor above it. -/
theorem tree_link_iff (h : L.Tree) : (L.link p c).Tree ↔ ¬L.Listed c ∧ ¬L.Above c p := by
  rcases h with ⟨kids, hkids, hforest⟩
  have habove : L.Above c p ↔ Relation.ReflTransGen (fun p c => c ∈ kids p) c p := by
    unfold Links.Above
    rw [hkids.child_eq]
  constructor
  · -- in a tree, `c` is in one list only and not above itself
    rintro ⟨kids', hkids', hforest'⟩
    have hp : IsList (L.link p c).next (some c) (kids' p) := by
      have hp := hkids' p
      change IsList _ (Function.update L.first p (some c) p) _ at hp
      rwa [Function.update_self] at hp
    rcases isList_some_iff.mp hp with ⟨l, hl, htail⟩
    have hagree : ∀ a, a ≠ c → (L.link p c).next a = L.next a := fun a ha =>
      Function.update_of_ne ha _ _
    have hcmem : c ∈ kids' p := hl ▸ List.mem_cons_self
    have hunlisted : ¬L.Listed c := by
      intro hlisted
      rcases hkids.listed_iff.mp hlisted with ⟨q, hq⟩
      by_cases hqp : q = p
      · -- the list of `p` comes back to `c`
        subst hqp
        change IsList _ (Function.update L.next c (L.first q) c) l at htail
        rw [Function.update_self] at htail
        have hcl := (hkids q).mem_of_agree htail hagree hq
        have hnodup := (hkids' q).nodup
        rw [hl] at hnodup
        exact (List.nodup_cons.mp hnodup).1 hcl
      · -- `c` is in two lists
        have hq' := hkids' q
        change IsList _ (Function.update L.first p (some c) q) _ at hq'
        rw [Function.update_of_ne hqp] at hq'
        have hcq := (hkids q).mem_of_agree hq' hagree hq
        exact hqp (hforest'.once q p c hcq hcmem)
    refine ⟨hunlisted, fun hca => ?_⟩
    rw [habove] at hca
    have heq : kids' = Function.update kids p (c :: kids p) :=
      funext fun q => (hkids' q).unique (hkids.link hunlisted q)
    have hcp : Relation.ReflTransGen (fun p c => c ∈ kids' p) c p :=
      hca.lift id fun q a ha => heq ▸ mem_update_iff.mpr (.inl ha)
    exact hforest'.acyclic c (Relation.TransGen.tail' hcp hcmem)
  · rintro ⟨hunlisted, hnot⟩
    refine ⟨_, hkids.link hunlisted, hforest.link (fun q hq => ?_) fun h => hnot (habove.mpr h)⟩
    exact hunlisted (hkids.listed_iff.mpr ⟨q, hq⟩)

/-- A node without children may be cleared exactly if it is in no list. -/
theorem tree_clear_iff (h : L.Tree) (hfirst : L.first n = none) :
    (L.clear n).Tree ↔ ¬L.Listed n := by
  rcases h with ⟨kids, hkids, hforest⟩
  have hsame : (L.clear n).first = L.first := by
    change Function.update L.first n none = _
    rw [← hfirst, Function.update_eq_self]
  have hagree : ∀ a, a ≠ n → (L.clear n).next a = L.next a := fun a ha =>
    Function.update_of_ne ha _ _
  constructor
  · rintro ⟨kids', hkids', hforest'⟩ hlisted
    rcases hkids.listed_iff.mp hlisted with ⟨q, hq⟩
    have hq' := hkids' q
    rw [hsame] at hq'
    have hparent := hforest'.parent q n ((hkids q).mem_of_agree hq' hagree hq)
    change Function.update L.parent n none n = _ at hparent
    rw [Function.update_self] at hparent
    cases hparent
  · intro hunlisted
    have hne : ∀ q, ∀ a ∈ kids q, a ≠ n := by
      rintro q a ha rfl
      exact hunlisted (hkids.listed_iff.mpr ⟨q, ha⟩)
    refine ⟨kids, fun q => ?_, hforest.once, fun q a ha => ?_, hforest.acyclic⟩
    · rw [hsame]
      exact (hkids q).congr fun a ha => hagree a (hne q a ha)
    · change Function.update L.parent n none a = _
      rw [Function.update_of_ne (hne q a ha)]
      exact hforest.parent q a ha

end Siblings
