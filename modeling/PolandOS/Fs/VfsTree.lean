import PolandOS.Fs.Vfs

/-! # The tree of the file system

`tree_iff`: the nodes form a tree after any calls of `vfs_create_node` and `vfs_add_child`
exactly if no call puts a node in a second place or below itself, which `vfs_add_child` does
not check. In a tree the walks end, with what `walk` and the lists of children say.
-/

namespace PolandOS.Fs

open Siblings Fuel Logging

/-! ## Calls -/

/-- A call on nodes of the pool. -/
inductive Call
  | create (name : List UInt8) (type : UInt32)
  | addChild (parent child : Option Slot)
  deriving DecidableEq, Repr

namespace Vfs

def step (s : Vfs) : Call → Vfs
  | .create name type => (vfsCreateNode s name type).2
  | .addChild parent child => (vfsAddChild s parent child).2

/-- A call that is refused changes nothing. -/
def RefusesWhole (s : Vfs) : Call → Prop
  | .create name type => (vfsCreateNode s name type).1 = none → s.step (.create name type) = s
  | .addChild parent child =>
      (vfsAddChild s parent child).1 = -1 → s.step (.addChild parent child) = s

/-- A directory gets a node that is in no list, and neither the directory nor above it; and no
node is handed out that is in a list already. -/
def KeepsTree (s : Vfs) : Call → Prop
  | .create _ _ => ∀ h : s.nodeCount < vfsMaxNodes, ¬s.links.Listed ⟨s.nodeCount, h⟩
  | .addChild (some parent) (some child) => (s.nodePool parent).isDir = true →
      ¬s.links.Listed child ∧ ¬s.links.Above child parent
  | .addChild _ _ => True

/-- Both walks end, for every path and every node. -/
def WalksEnd (s : Vfs) : Prop :=
  (∀ path, ∃ r, Settles (vfsLookup s path) (some r)) ∧
    ∀ dir, ∃ lines, Settles (vfsListDir s dir) (some lines)

/-- The nodes that have not been handed out are no directories, and have no children. -/
def Blank (s : Vfs) : Prop :=
  ∀ i : Slot, s.nodeCount ≤ i → (s.nodePool i).children = none ∧ (s.nodePool i).isDir = false

variable {s : Vfs}

/-- A call that returns a failure has changed nothing. -/
theorem refusesWhole (s : Vfs) (call : Call) : s.RefusesWhole call := by
  cases call with
  | create name type =>
      intro h
      by_cases hroom : s.nodeCount < vfsMaxNodes
      · unfold vfsCreateNode at h
        rw [dif_pos hroom] at h
        cases h
      · change (vfsCreateNode s name type).2 = s
        rw [vfsCreateNode_full hroom]
  | addChild parent child =>
      intro h
      match parent, child with
      | none, _ => rfl
      | some _, none => rfl
      | some p, some c =>
          change (vfsAddChild s (some p) (some c)).2 = s
          cases hdir : (s.nodePool p).isDir with
          | true =>
              rw [vfsAddChild_dir hdir] at h
              exact absurd h (by decide : ¬(0 : Int) = -1)
          | false => rw [vfsAddChild_other hdir]

/-- A call hands out the first blank node, or changes nodes that have been handed out. -/
theorem Blank.step (hs : s.Blank) (call : Call) : (s.step call).Blank := by
  cases call with
  | create name type =>
      change Blank (vfsCreateNode s name type).2
      by_cases hroom : s.nodeCount < vfsMaxNodes
      · unfold vfsCreateNode
        rw [dif_pos hroom]
        intro i hi
        change s.nodeCount + 1 ≤ i.val at hi
        have hne : i ≠ ⟨s.nodeCount, hroom⟩ := by
          rintro rfl
          exact absurd hi (Nat.not_succ_le_self _)
        dsimp only
        rw [Function.update_of_ne hne]
        exact hs i (Nat.le_of_succ_le hi)
      · rwa [vfsCreateNode_full hroom]
  | addChild parent child =>
      match parent, child with
      | none, _ => exact hs
      | some _, none => exact hs
      | some p, some c =>
          change Blank (vfsAddChild s (some p) (some c)).2
          cases hdir : (s.nodePool p).isDir with
          | true =>
              rw [vfsAddChild_dir hdir]
              intro i hi
              change s.nodeCount ≤ i.val at hi
              rcases linkNodes_frame s p c i with ⟨-, hsame, hchildren⟩
              rcases hs i hi with ⟨hnone, hfalse⟩
              have hne : i ≠ p := by
                rintro rfl
                rw [hdir] at hfalse
                cases hfalse
              exact ⟨(hchildren hne).trans hnone, hsame.trans hfalse⟩
          | false => rwa [vfsAddChild_other hdir]

/-- A call keeps the tree exactly if it puts no node in a second place or below itself. -/
theorem tree_step_iff (hblank : s.Blank) (htree : s.links.Tree) (call : Call) :
    (s.step call).links.Tree ↔ s.KeepsTree call := by
  cases call with
  | create name type =>
      change (vfsCreateNode s name type).2.links.Tree ↔ _
      by_cases hroom : s.nodeCount < vfsMaxNodes
      · rw [links_vfsCreateNode s name type hroom,
          tree_clear_iff htree (hblank ⟨s.nodeCount, hroom⟩ (Nat.le_refl _)).1]
        exact ⟨fun h _ => h, fun h => h hroom⟩
      · rw [vfsCreateNode_full hroom]
        exact ⟨fun _ h => absurd h hroom, fun _ => htree⟩
  | addChild parent child =>
      match parent, child with
      | none, _ => exact ⟨fun _ => trivial, fun _ => htree⟩
      | some _, none => exact ⟨fun _ => trivial, fun _ => htree⟩
      | some p, some c =>
          change (vfsAddChild s (some p) (some c)).2.links.Tree ↔
            ((s.nodePool p).isDir = true → _)
          cases hdir : (s.nodePool p).isDir with
          | true =>
              rw [vfsAddChild_dir hdir, links_linkNodes, tree_link_iff htree]
              exact ⟨fun h _ => h, fun h => h rfl⟩
          | false =>
              rw [vfsAddChild_other hdir]
              exact ⟨fun _ h => (nomatch h), fun _ => htree⟩

end Vfs

/-! ## Walks -/

/-- The children of a node, from the first one on. -/
def childList (s : Vfs) (p : Slot) : List Slot := follow s.links.next vfsMaxNodes (s.links.first p)

/-- From a node on, to the first child of each name. -/
def walk (s : Vfs) : List (List UInt8) → Slot → Option Slot
  | [], current => some current
  | component :: rest, current =>
    ((childList s current).find? fun child => (s.nodePool child).name = component).bind
      (walk s rest)

/-- The pieces that `vfs_lookup` extracts from a path, one after the other. -/
def pieces : List UInt8 → List (List UInt8)
  | [] => []
  | c :: p =>
    (extractComponent (vfsMaxName - 1) (c :: p)).1 ::
      pieces (skipSlash (extractComponent (vfsMaxName - 1) (c :: p)).2)
termination_by p => p.length
decreasing_by exact length_turn_lt c p

variable {s : Vfs} {o : Option Slot} {l : List Slot}

theorem childList_eq {kids : Slot → List Slot} (h : s.links.Represents kids) (p : Slot) :
    childList s p = kids p := by
  have hcard : Fintype.card Slot = vfsMaxNodes := Fintype.card_fin _
  unfold childList
  rw [← hcard]
  exact (h p).follow_card

/-- In a tree, the children are a list that ends. -/
theorem isList_childList (h : s.links.Tree) (p : Slot) :
    IsList s.links.next (s.links.first p) (childList s p) := by
  rcases h with ⟨kids, hkids, -⟩
  rw [childList_eq hkids]
  exact hkids p

theorem settles_searchChildren (h : IsList s.links.next o l) (component : List UInt8) :
    Settles (fun fuel => searchChildren s component fuel o)
      (some (l.find? fun child => (s.nodePool child).name = component)) := by
  induction h with
  | nil => exact .of_succ (.of_eq fun _ => rfl)
  | @cons child l h ih =>
      by_cases hname : (s.nodePool child).name = component
      · refine .of_succ (.of_eq fun fuel => ?_)
        rw [searchChildren, if_pos hname, List.find?_cons_of_pos (by simpa using hname)]
      · rw [List.find?_cons_of_neg (by simpa using hname)]
        exact .of_succ (ih.congr fun fuel => if_neg hname)

theorem settles_listLoop (h : IsList s.links.next o l) (lines : List Line) :
    Settles (fun fuel => listLoop s fuel o lines) (some (lines ++ l.map fun child =>
      .entry (typeStr (s.nodePool child).type) (s.nodePool child).name)) := by
  induction h generalizing lines with
  | nil =>
      rw [List.map_nil, List.append_nil]
      exact .of_succ (.of_eq fun _ => rfl)
  | @cons child l h ih =>
      rw [List.map_cons, List.append_cons]
      exact .of_succ (ih _)

/-- A turn of the loop of `vfs_lookup`. -/
theorem lookupLoop_cons (s : Vfs) (fuel : Nat) (c : UInt8) (p : List UInt8) (current : Slot) :
    lookupLoop s (fuel + 1) (c :: p) (some current) =
      (searchChildren s (extractComponent (vfsMaxName - 1) (c :: p)).1 fuel
        (s.links.first current)).bind
          (lookupLoop s fuel (skipSlash (extractComponent (vfsMaxName - 1) (c :: p)).2)) := rfl

theorem settles_lookupLoop_none (p : List UInt8) :
    Settles (fun fuel => lookupLoop s fuel p none) (some none) := by
  refine .of_succ (.of_eq fun fuel => ?_)
  cases p <;> rfl

/-- `vfs_lookup` walks along the pieces of the path. -/
theorem settles_lookupLoop (h : s.links.Tree) (p : List UInt8) (current : Slot) :
    Settles (fun fuel => lookupLoop s fuel p (some current)) (some (walk s (pieces p) current)) := by
  induction hn : p.length using Nat.strongRecOn generalizing p current with
  | ind n ih =>
  match p with
  | [] =>
      rw [pieces]
      exact .of_succ (.of_eq fun _ => rfl)
  | c :: p =>
      have hlt := length_turn_lt c p
      have hturn := fun fuel => lookupLoop_cons s fuel c p current
      rw [pieces, walk]
      generalize extractComponent (vfsMaxName - 1) (c :: p) = turn at hlt hturn ⊢
      refine .of_succ (.congr ?_ hturn)
      refine (settles_searchChildren (isList_childList h current) turn.1).bind ?_
      cases (childList s current).find? fun child => (s.nodePool child).name = turn.1 with
      | none => exact settles_lookupLoop_none _
      | some child => exact ih _ (hn ▸ hlt) _ child rfl

theorem Vfs.walksEnd (h : s.links.Tree) : s.WalksEnd := by
  constructor
  · intro path
    unfold vfsLookup
    match path, s.vfsRoot with
    | none, _ => exact ⟨none, .of_eq fun _ => rfl⟩
    | some _, none => exact ⟨none, .of_eq fun _ => rfl⟩
    | some path, some root =>
        by_cases hroot : path = [slash]
        · exact ⟨some root, .of_eq fun _ => if_pos hroot⟩
        · exact ⟨_, (settles_lookupLoop h (skipSlash path) root).congr fun _ => (if_neg hroot)⟩
  · intro dir
    unfold vfsListDir
    match dir with
    | none => exact ⟨_, .of_eq fun _ => rfl⟩
    | some dir =>
        dsimp only
        split
        · exact ⟨_, .of_eq fun _ => rfl⟩
        · exact ⟨_, settles_listLoop (isList_childList h dir) _⟩

/-! ## All calls -/

/-- A tree in which each child is behind its parent in the pool. -/
theorem tree_of_lt (hlist : ∀ p, IsList s.links.next (s.links.first p) (childList s p))
    (hkids : ∀ p, (childList s p).all fun c => s.links.parent c = some p ∧ p < c) :
    s.links.Tree := by
  have hchild : ∀ p, ∀ c ∈ childList s p, s.links.parent c = some p ∧ p < c := fun p c hc =>
    of_decide_eq_true (List.all_eq_true.mp (hkids p) c hc)
  refine ⟨childList s, hlist, ?_, fun p c hc => (hchild p c hc).1, fun c hc => ?_⟩
  · intro p q c hp hq
    have heq := (hchild p c hp).1
    rw [(hchild q c hq).1] at heq
    exact (Option.some.inj heq).symm
  · have hbehind : ∀ {b}, Relation.TransGen (fun p c => c ∈ childList s p) c b → c < b := by
      intro b hb
      induction hb with
      | single h => exact (hchild _ _ h).2
      | tail _ h ih => exact ih.trans (hchild _ _ h).2
    exact lt_irrefl c (hbehind hc)

theorem tree_vfsInit : vfsInit.links.Tree := tree_of_lt (by decide +kernel) (by decide +kernel)

theorem blank_vfsInit : vfsInit.Blank := by
  unfold Vfs.Blank
  decide +kernel

/-- Whatever is called for whichever nodes. -/
theorem forall_tree_iff (calls : List Call) :
    (∀ p, p <+: calls → (p.foldl Vfs.step vfsInit).links.Tree) ↔
      Along Vfs.step Vfs.KeepsTree vfsInit calls :=
  forall_prefix_iff_along (A := fun s : Vfs => s.links.Tree)
    (fun _ call hs => Vfs.Blank.step hs call) (fun _ call hs h => Vfs.tree_step_iff hs h call)
    blank_vfsInit tree_vfsInit

/-- The nodes form a tree, and both walks end. -/
def Vfs.Sound (s : Vfs) : Prop := s.links.Tree ∧ s.WalksEnd

/-- After `vfs_init`, whatever is called for whichever nodes: the nodes always form a tree in
which all walks end, and a call that is refused changes nothing, exactly if no call puts a
node in a second place or below itself. -/
theorem tree_iff (calls : List Call) :
    ((∀ p, p <+: calls → (p.foldl Vfs.step vfsInit).Sound) ∧
      Along Vfs.step Vfs.RefusesWhole vfsInit calls) ↔
        Along Vfs.step Vfs.KeepsTree vfsInit calls := by
  have hrefuses : Along Vfs.step Vfs.RefusesWhole vfsInit calls :=
    along_iff.mpr fun _ call _ => Vfs.refusesWhole _ call
  have hsound : ∀ s : Vfs, s.Sound ↔ s.links.Tree := fun s => and_iff_left_of_imp Vfs.walksEnd
  rw [and_iff_left hrefuses]
  simp only [hsound]
  exact forall_tree_iff calls

/-- A directory of `vfs_init` is added to the root once more, which is not refused, and the
nodes are no tree any more: the list of the root comes back to its first node. -/
theorem added_again : (vfsAddChild vfsInit (some 0) (some 1)).1 = 0 ∧
    ¬([Call.addChild (some 0) (some 1)].foldl Vfs.step vfsInit).Sound := by
  refine ⟨by decide, fun hsound => ?_⟩
  have hkeeps := (Vfs.tree_step_iff blank_vfsInit tree_vfsInit (.addChild (some 0) (some 1))).mp
    hsound.1
  have hdir : (vfsInit.nodePool 0).isDir = true := by decide
  have hmem : (1 : Slot) ∈ childList vfsInit 0 := by decide
  exact (hkeeps hdir).1 ⟨0, childList vfsInit 0, isList_childList tree_vfsInit 0, hmem⟩

end PolandOS.Fs
