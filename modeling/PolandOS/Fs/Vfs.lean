import Mathlib.Algebra.GroupWithZero.Nat
import PolandOS.Lib.Fuel
import PolandOS.Lib.Siblings
import PolandOS.Lib.Traces

/-! # The virtual file system

`kernel/fs/vfs.c`: the pool of nodes, and what `vfs_create_node`, `vfs_add_child`,
`vfs_init`, `vfs_lookup` and `vfs_list_dir` make of it. A string is the list of its bytes,
without the zero behind them.
-/

namespace PolandOS.Fs

open Siblings

/-! ## Nodes -/

/-- `VFS_MAX_NAME`. -/
def vfsMaxName : Nat := 64

/-- `VFS_MAX_NODES`. -/
def vfsMaxNodes : Nat := 256

instance : NeZero vfsMaxNodes := ⟨by decide⟩

/-- `VFS_FILE`. -/
def vfsFile : UInt32 := 0x01

/-- `VFS_DIRECTORY`. -/
def vfsDirectory : UInt32 := 0x02

/-- `VFS_CHARDEVICE`. -/
def vfsChardevice : UInt32 := 0x03

/-- `VFS_BLOCKDEVICE`. -/
def vfsBlockdevice : UInt32 := 0x04

/-- `VFS_PIPE`. -/
def vfsPipe : UInt32 := 0x05

/-- `VFS_SYMLINK`. -/
def vfsSymlink : UInt32 := 0x06

/-- `VFS_MOUNTPOINT`. -/
def vfsMountpoint : UInt32 := 0x08

/-- A pointer into `node_pool`. -/
abbrev Slot := Fin vfsMaxNodes

/-- `VFSNode`, without the attributes and the callbacks. -/
structure VFSNode where
  name : List UInt8
  type : UInt32
  inode : UInt32
  parent : Option Slot
  children : Option Slot
  next : Option Slot

/-- The variables of `vfs.c`. -/
structure Vfs where
  nodePool : Slot → VFSNode
  nodeCount : Nat
  vfsRoot : Option Slot

/-- What `memset` leaves of a node. -/
def zeroNode : VFSNode := ⟨[], 0, 0, none, none, none⟩

/-- `vfs_create_node`. -/
def vfsCreateNode (s : Vfs) (name : List UInt8) (type : UInt32) : Option Slot × Vfs :=
  if h : s.nodeCount < vfsMaxNodes then
    let node := { zeroNode with
      name := name.take (vfsMaxName - 1)
      type := type
      inode := (s.nodeCount + 1).toUInt32 }
    (some ⟨s.nodeCount, h⟩,
      { s with
        nodePool := Function.update s.nodePool ⟨s.nodeCount, h⟩ node
        nodeCount := s.nodeCount + 1 })
  else (none, s)

/-- What may have children. -/
def VFSNode.isDir (n : VFSNode) : Bool := n.type == vfsDirectory || n.type == vfsMountpoint

/-- The assignments of `vfs_add_child`, in their order. -/
def linkNodes (s : Vfs) (parent child : Slot) : Vfs :=
  let pool := s.nodePool
  let pool := Function.update pool child { pool child with parent := some parent }
  let pool := Function.update pool child { pool child with next := (pool parent).children }
  let pool := Function.update pool parent { pool parent with children := some child }
  { s with nodePool := pool }

/-- `vfs_add_child`. -/
def vfsAddChild (s : Vfs) : Option Slot → Option Slot → Int × Vfs
  | some parent, some child =>
    if !(s.nodePool parent).isDir then (-1, s) else (0, linkNodes s parent child)
  | _, _ => (-1, s)

/-- The bytes of a literal. -/
def str (s : String) : List UInt8 := s.toList.map fun c => c.toNat.toUInt8

/-- `memset` of the pool. -/
def emptyVfs : Vfs := ⟨fun _ => zeroNode, 0, none⟩

/-- `vfs_init`. -/
def vfsInit : Vfs :=
  let s := emptyVfs
  let (root, s) := vfsCreateNode s (str "/") vfsDirectory
  let s := { s with vfsRoot := root }
  let (dev, s) := vfsCreateNode s (str "dev") vfsDirectory
  let (proc, s) := vfsCreateNode s (str "proc") vfsDirectory
  let (sys, s) := vfsCreateNode s (str "sys") vfsDirectory
  let (tmp, s) := vfsCreateNode s (str "tmp") vfsDirectory
  let (home, s) := vfsCreateNode s (str "home") vfsDirectory
  let (etc, s) := vfsCreateNode s (str "etc") vfsDirectory
  let s := (vfsAddChild s root dev).2
  let s := (vfsAddChild s root proc).2
  let s := (vfsAddChild s root sys).2
  let s := (vfsAddChild s root tmp).2
  let s := (vfsAddChild s root home).2
  let s := (vfsAddChild s root etc).2
  let (fb0, s) := vfsCreateNode s (str "fb0") vfsChardevice
  let (tty0, s) := vfsCreateNode s (str "tty0") vfsChardevice
  let (mouse, s) := vfsCreateNode s (str "mouse") vfsChardevice
  let (kbd, s) := vfsCreateNode s (str "kbd") vfsChardevice
  let s := (vfsAddChild s dev fb0).2
  let s := (vfsAddChild s dev tty0).2
  let s := (vfsAddChild s dev mouse).2
  (vfsAddChild s dev kbd).2

/-! ## Walks -/

/-- `'/'`. -/
def slash : UInt8 := 0x2F

/-- The loop that extracts a component, with room for so many bytes: the component, and
what is left of the path. -/
def extractComponent : Nat → List UInt8 → List UInt8 × List UInt8
  | 0, p => ([], p)
  | _ + 1, [] => ([], [])
  | room + 1, c :: p =>
    if c = slash then ([], c :: p)
    else
      let (component, rest) := extractComponent room p
      (c :: component, rest)

/-- The loop over the children, with fuel. -/
def searchChildren (s : Vfs) (component : List UInt8) : Nat → Option Slot → Option (Option Slot)
  | 0, _ => none
  | _ + 1, none => some none
  | fuel + 1, some child =>
    if (s.nodePool child).name = component then some (some child)
    else searchChildren s component fuel (s.nodePool child).next

/-- A slash in front of the path is skipped. -/
def skipSlash : List UInt8 → List UInt8
  | c :: p => if c = slash then p else c :: p
  | [] => []

/-- The loop of `vfs_lookup`. -/
def lookupLoop (s : Vfs) : Nat → List UInt8 → Option Slot → Option (Option Slot)
  | 0, _, _ => none
  | _ + 1, [], current => some current
  | _ + 1, _ :: _, none => some none
  | fuel + 1, c :: p, some current =>
    let (component, p) := extractComponent (vfsMaxName - 1) (c :: p)
    (searchChildren s component fuel (s.nodePool current).children).bind
      (lookupLoop s fuel (skipSlash p))

/-- `vfs_lookup`. -/
def vfsLookup (s : Vfs) (path : Option (List UInt8)) (fuel : Nat) : Option (Option Slot) :=
  match path, s.vfsRoot with
  | some path, some root =>
    if path = [slash] then some (some root) else lookupLoop s fuel (skipSlash path) (some root)
  | _, _ => some none

/-- What `vfs_list_dir` prints. -/
inductive Line
  | nullNode
  | notDirectory (name : List UInt8)
  | header (name : List UInt8)
  | entry (typeStr : String) (name : List UInt8)
  deriving DecidableEq, Repr

/-- `type_str`. -/
def typeStr (type : UInt32) : String :=
  if type = vfsFile then "plik"
  else if type = vfsDirectory then "kat."
  else if type = vfsChardevice then "char"
  else if type = vfsBlockdevice then "blk"
  else if type = vfsPipe then "pipe"
  else if type = vfsSymlink then "link"
  else if type = vfsMountpoint then "mount"
  else "???"

/-- The loop of `vfs_list_dir`. -/
def listLoop (s : Vfs) : Nat → Option Slot → List Line → Option (List Line)
  | 0, _, _ => none
  | _ + 1, none, lines => some lines
  | fuel + 1, some child, lines =>
    let node := s.nodePool child
    listLoop s fuel node.next (lines ++ [.entry (typeStr node.type) node.name])

/-- `vfs_list_dir`. -/
def vfsListDir (s : Vfs) (dir : Option Slot) (fuel : Nat) : Option (List Line) :=
  match dir with
  | none => some [.nullNode]
  | some dir =>
    let node := s.nodePool dir
    if !node.isDir then some [.notDirectory node.name]
    else listLoop s fuel node.children [.header node.name]

theorem length_skipSlash_le (p : List UInt8) : (skipSlash p).length ≤ p.length := by
  unfold skipSlash
  split
  · split
    · exact Nat.le_succ _
    · exact Nat.le_refl _
  · exact Nat.le_refl _

theorem length_extractComponent_le (room : Nat) (p : List UInt8) :
    (extractComponent room p).2.length ≤ p.length := by
  induction room generalizing p with
  | zero => exact Nat.le_refl _
  | succ room ih =>
      match p with
      | [] => exact Nat.le_refl _
      | c :: p =>
          rw [extractComponent]
          split
          · exact Nat.le_refl _
          · exact Nat.le_succ_of_le (ih p)

/-- A turn of the loop of `vfs_lookup` uses up some of the path. -/
theorem length_turn_lt (c : UInt8) (p : List UInt8) :
    (skipSlash (extractComponent (vfsMaxName - 1) (c :: p)).2).length < (c :: p).length := by
  have hroom : vfsMaxName - 1 = 62 + 1 := rfl
  rw [hroom, extractComponent]
  split
  next hc =>
    change (if c = slash then p else c :: p).length < _
    rw [if_pos hc]
    exact Nat.lt_succ_self _
  next =>
    exact Nat.lt_succ_of_le ((length_skipSlash_le _).trans (length_extractComponent_le 62 p))

/-! ## The pointers -/

/-- The pointers of the nodes. -/
def poolLinks (pool : Slot → VFSNode) : Links Slot where
  parent i := (pool i).parent
  first i := (pool i).children
  next i := (pool i).next

def Vfs.links (s : Vfs) : Links Slot := poolLinks s.nodePool

section Pointers

variable {pool : Slot → VFSNode} {i : Slot}

theorem poolLinks_update (n : VFSNode) : poolLinks (Function.update pool i n) =
    ⟨Function.update (poolLinks pool).parent i n.parent,
      Function.update (poolLinks pool).first i n.children,
      Function.update (poolLinks pool).next i n.next⟩ := by
  unfold poolLinks
  congr 1
  · exact Function.comp_update VFSNode.parent pool i n
  · exact Function.comp_update VFSNode.children pool i n
  · exact Function.comp_update VFSNode.next pool i n

variable (v : Option Slot)

/-- Of each assignment, the other pointers know nothing. -/
theorem poolLinks_parent :
    poolLinks (Function.update pool i { pool i with parent := v }) =
      { poolLinks pool with parent := Function.update (poolLinks pool).parent i v } := by
  have hfirst := Function.update_eq_self i (poolLinks pool).first
  have hnext := Function.update_eq_self i (poolLinks pool).next
  rw [poolLinks_update]
  exact congrArg₂ (Links.mk _) hfirst hnext

theorem poolLinks_next :
    poolLinks (Function.update pool i { pool i with next := v }) =
      { poolLinks pool with next := Function.update (poolLinks pool).next i v } := by
  have hparent := Function.update_eq_self i (poolLinks pool).parent
  have hfirst := Function.update_eq_self i (poolLinks pool).first
  rw [poolLinks_update]
  exact congrArg₂ (Links.mk · · _) hparent hfirst

theorem poolLinks_children :
    poolLinks (Function.update pool i { pool i with children := v }) =
      { poolLinks pool with first := Function.update (poolLinks pool).first i v } := by
  have hparent := Function.update_eq_self i (poolLinks pool).parent
  have hnext := Function.update_eq_self i (poolLinks pool).next
  rw [poolLinks_update]
  exact congrArg₂ (Links.mk · _ ·) hparent hnext

end Pointers

/-- What an assignment leaves alone. -/
theorem update_same {β : Type} {pool : Slot → VFSNode} {i : Slot} {n : VFSNode} (g : VFSNode → β)
    (h : g n = g (pool i)) (j : Slot) : g (Function.update pool i n j) = g (pool j) := by
  by_cases hj : j = i
  · rw [hj, Function.update_self, h]
  · rw [Function.update_of_ne hj]

/-- The names and the types stay, and of the children those of the other nodes. -/
theorem linkNodes_frame (s : Vfs) (p c i : Slot) :
    ((linkNodes s p c).nodePool i).name = (s.nodePool i).name ∧
      ((linkNodes s p c).nodePool i).isDir = (s.nodePool i).isDir ∧
        (i ≠ p → ((linkNodes s p c).nodePool i).children = (s.nodePool i).children) := by
  unfold linkNodes
  dsimp only
  refine ⟨?_, ?_, fun hi => ?_⟩
  · refine (update_same VFSNode.name ?_ i).trans ((update_same VFSNode.name ?_ i).trans
      (update_same VFSNode.name ?_ i)) <;> rfl
  · refine (update_same VFSNode.isDir ?_ i).trans ((update_same VFSNode.isDir ?_ i).trans
      (update_same VFSNode.isDir ?_ i)) <;> rfl
  · rw [Function.update_of_ne hi]
    refine (update_same VFSNode.children ?_ i).trans (update_same VFSNode.children ?_ i) <;> rfl

/-- The assignments of `vfs_add_child` put the child in front. -/
theorem links_linkNodes (s : Vfs) (p c : Slot) : (linkNodes s p c).links = s.links.link p c := by
  unfold linkNodes Vfs.links Links.link
  dsimp only
  rw [poolLinks_children, poolLinks_next]
  have hfirst : ∀ v, (Function.update s.nodePool c { s.nodePool c with parent := v } p).children =
      (poolLinks s.nodePool).first p := fun v =>
    congrFun (congrArg Links.first (poolLinks_parent v)) p
  rw [hfirst, poolLinks_parent]

variable {s : Vfs} {name : List UInt8} {type : UInt32} {p c : Slot}

theorem vfsCreateNode_full (h : ¬s.nodeCount < vfsMaxNodes) :
    vfsCreateNode s name type = (none, s) := dif_neg h

theorem vfsAddChild_dir (h : (s.nodePool p).isDir = true) :
    vfsAddChild s (some p) (some c) = (0, linkNodes s p c) := if_neg (by simp [h])

theorem vfsAddChild_other (h : (s.nodePool p).isDir = false) :
    vfsAddChild s (some p) (some c) = (-1, s) := if_pos (by simp [h])

theorem links_vfsCreateNode (s : Vfs) (name : List UInt8) (type : UInt32)
    (h : s.nodeCount < vfsMaxNodes) :
    (vfsCreateNode s name type).2.links = s.links.clear ⟨s.nodeCount, h⟩ := by
  unfold vfsCreateNode
  rw [dif_pos h]
  exact poolLinks_update _

end PolandOS.Fs
