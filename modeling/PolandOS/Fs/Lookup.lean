import PolandOS.Fs.VfsTree

/-! # Paths

`vfs_lookup` copies each component of a path into a buffer of 64 bytes, and takes what does
not find room for the next one. `lookup_iff` says when the node that it returns is the one
that the path names.
-/

namespace PolandOS.Fs

open Siblings Fuel Logging

/-! ## Components -/

/-- An empty component at the end does not count. -/
def dropEmptyLast (l : List (List UInt8)) : List (List UInt8) :=
  if l.getLast? = some [] then l.dropLast else l

/-- The components of what is behind a leading slash. -/
def componentsFrom (p : List UInt8) : List (List UInt8) := dropEmptyLast (p.splitOn slash)

/-- The components of a path: it is split at the slashes, and one in front and one behind do
not count. -/
def components (path : List UInt8) : List (List UInt8) := componentsFrom (skipSlash path)

/-- The node that a path names. -/
def reference (s : Vfs) (path : List UInt8) : Option Slot :=
  s.vfsRoot.bind (walk s (components path))

/-- How many bytes of a component find room in the buffer. -/
def room : Nat := vfsMaxName - 1

/-- A component in parts that find room. -/
def chop (c : List UInt8) : List (List UInt8) :=
  (List.range ((c.length - 1) / room + 1)).map fun i => (c.drop (room * i)).take room

variable {c p rest : List UInt8} {s : Vfs}

theorem componentsFrom_nil : componentsFrom [] = [] := rfl

theorem componentsFrom_last (hc : slash ∉ c) (hne : c ≠ []) : componentsFrom c = [c] := by
  unfold componentsFrom dropEmptyLast
  rw [List.splitOn_eq_singleton hc, if_neg]
  intro hlast
  exact hne (Option.some.inj hlast)

theorem componentsFrom_cons (hc : slash ∉ c) :
    componentsFrom (c ++ slash :: rest) = c :: componentsFrom rest := by
  have hne := List.splitOn_ne_nil slash rest
  unfold componentsFrom dropEmptyLast
  rw [List.splitOn_append_cons_self_of_not_mem hc, List.getLast?_cons_of_ne_nil hne]
  split
  · rw [List.dropLast_cons_of_ne_nil hne]
  · rfl

theorem chop_short (h : c.length ≤ room) : chop c = [c] := by
  have hroom : room = 63 := rfl
  have hone : (c.length - 1) / room + 1 = 1 := by
    rw [hroom] at h ⊢
    omega
  unfold chop
  rw [hone, List.range_one, List.map_singleton, Nat.mul_zero, List.drop_zero,
    List.take_of_length_le h]

theorem chop_long (h : room < c.length) : chop c = c.take room :: chop (c.drop room) := by
  have hroom : room = 63 := rfl
  have hmore : (c.length - 1) / room + 1 = ((c.drop room).length - 1) / room + 1 + 1 := by
    rw [List.length_drop]
    rw [hroom] at h ⊢
    omega
  unfold chop
  rw [hmore, List.range_succ_eq_map, List.map_cons, Nat.mul_zero, List.drop_zero, List.map_map]
  refine congrArg (c.take room :: ·) (List.map_congr_left fun i _ => ?_)
  change (c.drop (room * (i + 1))).take room = ((c.drop room).drop (room * i)).take room
  rw [List.drop_drop, Nat.mul_succ, Nat.add_comm]

/-! ## Pieces -/

/-- The end of the path, or a slash. -/
def Ends (rest : List UInt8) : Prop := rest = [] ∨ ∃ r, rest = slash :: r

theorem extractComponent_eq (hc : slash ∉ c) (hrest : Ends rest) (n : Nat) :
    extractComponent n (c ++ rest) = (c.take n, c.drop n ++ rest) := by
  induction n generalizing c with
  | zero => rfl
  | succ n ih =>
      match c, hc with
      | [], _ =>
          rcases hrest with rfl | ⟨r, rfl⟩
          · rfl
          · exact if_pos rfl
      | a :: c, hc =>
          rcases List.ne_and_not_mem_of_not_mem_cons hc with ⟨hne, hc⟩
          rw [List.cons_append, extractComponent, if_neg (Ne.symm hne), ih hc]
          rfl

theorem pieces_append (hc : slash ∉ c) (hrest : Ends rest) (hne : c ++ rest ≠ []) :
    pieces (c ++ rest) = c.take room :: pieces (skipSlash (c.drop room ++ rest)) := by
  have hextract := extractComponent_eq hc hrest room
  match hp : c ++ rest, hne with
  | a :: p, _ =>
      rw [hp] at hextract
      rw [pieces]
      change (extractComponent room (a :: p)).1 :: pieces (skipSlash (extractComponent room _).2) = _
      rw [hextract]

/-- A path up to its first slash. -/
theorem exists_component (p : List UInt8) : ∃ c rest, p = c ++ rest ∧ slash ∉ c ∧ Ends rest := by
  induction p with
  | nil => exact ⟨[], [], rfl, List.not_mem_nil, .inl rfl⟩
  | cons a p ih =>
      rcases ih with ⟨c, rest, rfl, hc, hrest⟩
      by_cases ha : a = slash
      · exact ⟨[], a :: (c ++ rest), rfl, List.not_mem_nil, .inr ⟨_, by rw [ha]⟩⟩
      · exact ⟨a :: c, rest, rfl, List.not_mem_cons_of_ne_of_not_mem (Ne.symm ha) hc, hrest⟩

/-- The pieces are the parts of the components. -/
theorem pieces_eq (p : List UInt8) : pieces p = (componentsFrom p).flatMap chop := by
  -- induction on the rest of the path behind a piece
  induction hn : p.length using Nat.strongRecOn generalizing p with
  | ind n ih =>
  rcases exists_component p with ⟨c, rest, rfl, hc, hrest⟩
  by_cases hnil : c ++ rest = []
  · rw [hnil, componentsFrom_nil, pieces]
    rfl
  rw [List.length_append] at hn
  rw [pieces_append hc hrest hnil]
  by_cases hshort : c.length ≤ room
  · rw [List.take_of_length_le hshort, List.drop_of_length_le hshort, List.nil_append]
    rcases hrest with rfl | ⟨r, rfl⟩
    · rw [List.append_nil] at hnil ⊢
      rw [componentsFrom_last hc hnil, List.flatMap_singleton, chop_short hshort]
      exact congrArg (c :: ·) (by rw [skipSlash, pieces])
    · have hskip : skipSlash (slash :: r) = r := by rw [skipSlash, if_pos rfl]
      rw [List.length_cons] at hn
      rw [hskip, componentsFrom_cons hc, List.flatMap_cons, chop_short hshort,
        ih r.length (by omega) r rfl]
      rfl
  · -- the rest of the component is taken for the next one
    have hlong : room < c.length := Nat.lt_of_not_le hshort
    have hroom : 0 < room := by decide
    have hdrop : c.drop room ≠ [] := by
      rw [ne_eq, List.drop_eq_nil_iff]
      omega
    have hnot : slash ∉ c.drop room := fun h => hc (List.mem_of_mem_drop h)
    have hskip : skipSlash (c.drop room ++ rest) = c.drop room ++ rest := by
      rcases List.exists_cons_of_ne_nil hdrop with ⟨a, l, hd⟩
      rw [hd] at hnot ⊢
      exact if_neg (Ne.symm (List.ne_and_not_mem_of_not_mem_cons hnot).1)
    have hlen : (c.drop room ++ rest).length < n := by
      rw [List.length_append, List.length_drop]
      omega
    rw [hskip, ih _ hlen _ rfl]
    rcases hrest with rfl | ⟨r, rfl⟩
    · rw [List.append_nil] at hnil ⊢
      rw [List.append_nil, componentsFrom_last hc hnil, componentsFrom_last hnot hdrop,
        List.flatMap_singleton, List.flatMap_singleton, chop_long hlong]
    · rw [componentsFrom_cons hc, componentsFrom_cons hnot, List.flatMap_cons, List.flatMap_cons,
        chop_long hlong]
      rfl

/-! ## The node that is found -/

/-- No name is longer than what finds room. -/
def NamesFit (s : Vfs) : Prop := ∀ i, (s.nodePool i).name.length ≤ room

theorem namesFit_vfsInit : NamesFit vfsInit := by
  unfold NamesFit
  decide +kernel

/-- A name is cut when a node is created, and not changed by anything else. -/
theorem NamesFit.step (hs : NamesFit s) (call : Call) : NamesFit (s.step call) := by
  intro i
  cases call with
  | create name type =>
      change ((vfsCreateNode s name type).2.nodePool i).name.length ≤ room
      by_cases hroom : s.nodeCount < vfsMaxNodes
      · unfold vfsCreateNode
        rw [dif_pos hroom]
        dsimp only
        by_cases hi : i = ⟨s.nodeCount, hroom⟩
        · rw [hi, Function.update_self]
          exact List.length_take_le _ _
        · rw [Function.update_of_ne hi]
          exact hs i
      · rw [vfsCreateNode_full hroom]
        exact hs i
  | addChild parent child =>
      match parent, child with
      | none, _ => exact hs i
      | some _, none => exact hs i
      | some p, some c =>
          change ((vfsAddChild s (some p) (some c)).2.nodePool i).name.length ≤ room
          cases hdir : (s.nodePool p).isDir with
          | true =>
              rw [vfsAddChild_dir hdir, (linkNodes_frame s p c i).1]
              exact hs i
          | false =>
              rw [vfsAddChild_other hdir]
              exact hs i

theorem namesFit_run (calls : List Call) : NamesFit (calls.foldl Vfs.step vfsInit) := by
  induction calls using List.reverseRecOn with
  | nil => exact namesFit_vfsInit
  | append_singleton calls call ih =>
      rw [List.foldl_append]
      exact ih.step call

/-- A component that is longer than every name leads to nothing. -/
theorem walk_long (hs : NamesFit s) {cs : List (List UInt8)} (hlong : ∃ c ∈ cs, room < c.length)
    (current : Slot) : walk s cs current = none := by
  induction cs generalizing current with
  | nil =>
      rcases hlong with ⟨c, hc, -⟩
      cases hc
  | cons component cs ih =>
      rw [walk]
      cases hfound : (childList s current).find? fun child =>
          (s.nodePool child).name = component with
      | none => rfl
      | some child =>
          have hname : (s.nodePool child).name = component := by
            simpa using List.find?_some hfound
          rcases hlong with ⟨c, hc, hlt⟩
          rcases List.mem_cons.mp hc with rfl | hc
          · have hle := hs child
            rw [hname] at hle
            exact absurd hle (Nat.not_le.mpr hlt)
          · exact ih ⟨c, hc, hlt⟩ child

theorem flatMap_chop {cs : List (List UInt8)} (h : ∀ c ∈ cs, c.length ≤ room) :
    cs.flatMap chop = cs := by
  induction cs with
  | nil => rfl
  | cons c cs ih =>
      rw [List.flatMap_cons, chop_short (h c List.mem_cons_self),
        ih fun d hd => h d (List.mem_cons_of_mem _ hd)]
      rfl

/-- `vfs_lookup` follows the parts of the components. -/
theorem settles_vfsLookup (h : s.links.Tree) (path : List UInt8) :
    Settles (vfsLookup s (some path))
      (some (s.vfsRoot.bind (walk s ((components path).flatMap chop)))) := by
  unfold vfsLookup components
  cases s.vfsRoot with
  | none => exact .of_eq fun _ => rfl
  | some root =>
      by_cases hroot : path = [slash]
      · subst hroot
        exact .of_eq fun _ => if_pos rfl
      · have hwalk := settles_lookupLoop h (skipSlash path) root
        rw [pieces_eq] at hwalk
        exact hwalk.congr fun _ => if_neg hroot

/-- In a tree. -/
theorem settles_reference_iff (h : s.links.Tree) (hs : NamesFit s) (path : List UInt8) :
    Settles (vfsLookup s (some path)) (some (reference s path)) ↔
      (∀ c ∈ components path, c.length ≤ room) ∨
        s.vfsRoot.bind (walk s ((components path).flatMap chop)) = none := by
  have hlookup := settles_vfsLookup h path
  by_cases hshort : ∀ c ∈ components path, c.length ≤ room
  · rw [flatMap_chop hshort] at hlookup
    exact ⟨fun _ => .inl hshort, fun _ => hlookup⟩
  · have hlong : ∃ c ∈ components path, room < c.length := by
      simpa only [not_forall, not_le, exists_prop] using hshort
    have hnone : reference s path = none := by
      unfold reference
      cases s.vfsRoot with
      | none => rfl
      | some root => exact walk_long hs hlong root
    rw [hnone]
    constructor
    · intro hsettles
      exact .inr (Option.some.inj (hlookup.unique hsettles))
    · rintro (hall | heq)
      · exact absurd hall hshort
      · rwa [heq] at hlookup

/-- For every tree that has been built and every path: `vfs_lookup` returns the node that the
path names exactly if no component is longer than what finds room in the buffer, or there are
no nodes with the parts of the components as their names. -/
theorem lookup_iff (calls : List Call) (h : Along Vfs.step Vfs.KeepsTree vfsInit calls)
    (path : List UInt8) :
    Settles (vfsLookup (calls.foldl Vfs.step vfsInit) (some path))
        (some (reference (calls.foldl Vfs.step vfsInit) path)) ↔
      (∀ c ∈ components path, c.length ≤ room) ∨
        (calls.foldl Vfs.step vfsInit).vfsRoot.bind
          (walk (calls.foldl Vfs.step vfsInit) ((components path).flatMap chop)) = none := by
  have htree := (forall_tree_iff calls).mpr h calls (List.prefix_refl calls)
  exact settles_reference_iff htree (namesFit_run calls) path

/-- A directory with a name of 63 bytes, and a file in it. -/
def longName : List Call :=
  [.create (List.replicate 63 0x61) vfsDirectory, .addChild (some 0) (some 11),
    .create [0x62] vfsFile, .addChild (some 11) (some 12)]

/-- Each of the calls keeps the tree. -/
theorem along_longName : Along Vfs.step Vfs.KeepsTree vfsInit longName := by
  have hlist : ∀ k : Fin 5, ∀ p, IsList
      ((longName.take k).foldl Vfs.step vfsInit).links.next
      (((longName.take k).foldl Vfs.step vfsInit).links.first p)
      (childList ((longName.take k).foldl Vfs.step vfsInit) p) := by decide +kernel
  have hkids : ∀ k : Fin 5, ∀ p, (childList ((longName.take k).foldl Vfs.step vfsInit) p).all
      fun c => ((longName.take k).foldl Vfs.step vfsInit).links.parent c = some p ∧ p < c := by
    decide +kernel
  refine (forall_tree_iff longName).mp fun p hp => ?_
  have hlen : p.length < 5 := Nat.lt_succ_of_le hp.length_le
  rw [List.prefix_iff_eq_take.mp hp]
  exact tree_of_lt (hlist ⟨p.length, hlen⟩) (hkids ⟨p.length, hlen⟩)

/-- The path of the file in it, with both names. -/
def longPath : List UInt8 := [slash] ++ List.replicate 63 0x61 ++ [slash, 0x62]

theorem lookup_iff_long :
    Settles (vfsLookup (longName.foldl Vfs.step vfsInit) (some longPath))
      (some (reference (longName.foldl Vfs.step vfsInit) longPath)) :=
  (lookup_iff longName along_longName longPath).mpr (.inl (by decide))

/-- The file is found under a name of 64 bytes, without a slash. -/
theorem found_without_slash :
    ¬Settles (vfsLookup (longName.foldl Vfs.step vfsInit) (some (List.replicate 63 0x61 ++ [0x62])))
        (some (reference (longName.foldl Vfs.step vfsInit) (List.replicate 63 0x61 ++ [0x62]))) ∧
      vfsLookup (longName.foldl Vfs.step vfsInit) (some (List.replicate 63 0x61 ++ [0x62])) 20 =
        some (some 12) := by
  have htree : (longName.foldl Vfs.step vfsInit).links.Tree :=
    (forall_tree_iff longName).mpr along_longName longName (List.prefix_refl longName)
  refine ⟨?_, by decide⟩
  rw [settles_reference_iff htree (namesFit_run longName)]
  decide

end PolandOS.Fs
