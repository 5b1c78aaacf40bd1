import Nbtrfs.Directory.Guarded
import Nbtrfs.Library.Hierarchy
import Nbtrfs.Namespace.Components

/-!
# The forest of directory trees

Every directory has a B-tree whose root holds the number of its inode. The leaves of a directory's
tree are its entries: a leaf of the type of a directory names the root of another tree, any other
leaf an inode. While every root stands over its leaves and no block is in two trees, `item_search`
is a walk through these entries. It does not test that a component in front of the last one is a
directory, so behind a file it goes on as long as the components have the key of the file's leaf.
-/

namespace Nbtrfs

open Hierarchy (Entry)

/-- The directories of a file system, by the blocks of their root nodes. -/
structure Forest where
  /-- The root node of `/`. -/
  root : Nat
  /-- The root nodes in use. -/
  live : List Nat
  /-- The inode of a directory. -/
  inode : Nat → Nat
  /-- The leaves of a directory's tree. -/
  leaves : Nat → List Leaf

/-- The entry that a leaf stands for. -/
def Leaf.entry (leaf : Leaf) : Entry Nat Nat :=
  if leaf.type = fileTypeDirectory then .directory leaf.value else .file leaf.value

/-- The blocks of the tree of a directory. -/
def Forest.tree (forest : Forest) (dir : Nat) : List Nat :=
  dir :: (forest.leaves dir).map Leaf.block

/-- The blocks of all trees. -/
def Forest.blocks (forest : Forest) : List Nat := forest.live.flatMap forest.tree

/-- The leaf of a key in a directory. -/
def Forest.leaf (forest : Forest) (dir key : Nat) : Option Leaf :=
  (forest.leaves dir).find? fun leaf => leaf.key = key

/-- The entry of a key in a directory. -/
def Forest.entries (forest : Forest) (dir key : Nat) : Option (Entry Nat Nat) :=
  (forest.leaf dir key).map Leaf.entry

/-- The keys that a search goes on with behind a file. -/
def echoes (key : Nat) (keys : List Nat) : Bool := keys.all (· = key)

/-- The walk along keys. -/
def Forest.walk (forest : Forest) (keys : List Nat) : Option (Entry Nat Nat) :=
  Hierarchy.walk echoes forest.entries forest.root keys

/-- What `item_search` returns for an entry. -/
def Forest.pair (forest : Forest) : Option (Entry Nat Nat) → InodeBtreePair
  | none => noPair
  | some (.directory dir) => ⟨forest.inode dir, dir⟩
  | some (.file inodeNumber) => ⟨inodeNumber, 0⟩

/-- A store holds a forest. -/
structure Forest.Held (forest : Forest) (layout : Superblock) (s : Store) : Prop where
  /-- The superblock has the layout. -/
  superblock : ∃ superblock, superblockRead s = some superblock ∧ superblock.SameLayout layout
  /-- The layout has the size of the image. -/
  total : s.totalBlocks = layout.totalBlocks
  /-- The inode bitmap lies behind the block bitmap. -/
  apart : ∀ pnum < s.totalBlocks, bitmapPage pnum < layout.inodeBitmap
  /-- The layout names the root node of `/`. -/
  root : layout.btreeRoot = forest.root
  /-- It is in use. -/
  rootLive : forest.root ∈ forest.live
  /-- The blocks of the trees are allocated once each. -/
  owned : Owned s forest.blocks
  /-- Every tree is a root over its leaves. -/
  tree : ∀ dir ∈ forest.live, ∃ type node,
    FlatRoot s dir (forest.inode dir) type (forest.leaves dir) node ∧
      (dir ≠ forest.root → type = fileTypeDirectory)
  /-- Other blocks have no leaves. -/
  dead : ∀ dir, dir ∉ forest.live → forest.leaves dir = []
  /-- A directory's leaf names a root in use, and not that of `/`. -/
  below : ∀ dir, ∀ leaf ∈ forest.leaves dir, leaf.type = fileTypeDirectory →
    leaf.value ∈ forest.live ∧ leaf.value ≠ forest.root
  /-- No directory is reached in two ways. -/
  unshared : Hierarchy.Unshared echoes forest.entries forest.root

/-- The components of a path that the buffers of the code hold. -/
def IsPath (components : List CString) : Prop :=
  (∀ name ∈ components, IsName name) ∧ (pathOf components).length < pathMax

/-- The keys of components. -/
def pathKeys (components : List CString) : List Nat := components.map pathHash

section

variable {forest : Forest} {layout : Superblock} {s s' : Store}

/-- A directory is one of its own blocks. -/
theorem Forest.mem_tree {dir : Nat} (forest : Forest) : dir ∈ forest.tree dir := List.mem_cons_self

/-- The blocks of a live directory are blocks of the forest. -/
theorem Forest.mem_blocks {dir block : Nat} (live : dir ∈ forest.live)
    (inside : block ∈ forest.tree dir) : block ∈ forest.blocks :=
  List.mem_flatMap.mpr ⟨dir, live, inside⟩

/-- The leaves of a directory are among its blocks. -/
theorem Forest.leaf_mem_tree {dir : Nat} {leaf : Leaf} (inside : leaf ∈ forest.leaves dir) :
    leaf.block ∈ forest.tree dir := List.mem_cons_of_mem dir (List.mem_map_of_mem inside)

/-- A leaf that is found is a leaf of the directory, with the key. -/
theorem Forest.leaf_found {dir key : Nat} {leaf : Leaf} (found : forest.leaf dir key = some leaf) :
    leaf ∈ forest.leaves dir ∧ leaf.key = key := by
  refine ⟨List.mem_of_find?_eq_some found, ?_⟩
  have key := List.find?_some found
  exact of_decide_eq_true key

/-- No leaf of the directory has a key that is not found. -/
theorem Forest.leaf_absent {dir key : Nat} (absent : forest.leaf dir key = none) :
    ∀ leaf ∈ forest.leaves dir, leaf.key ≠ key := by
  intro leaf inside same
  have rejected := List.find?_eq_none.mp absent leaf inside
  exact rejected (decide_eq_true same)

/-- A directory with an entry is in use. -/
theorem Forest.Held.live (held : forest.Held layout s) {dir key : Nat} {leaf : Leaf}
    (found : forest.leaf dir key = some leaf) : dir ∈ forest.live := by
  by_contra outside
  have inside := (Forest.leaf_found found).1
  rw [held.dead dir outside] at inside
  cases inside

/-- A walk ends at a directory in use. -/
theorem Forest.Held.walk_live (held : forest.Held layout s) {keys : List Nat} {dir : Nat}
    (reached : forest.walk keys = some (.directory dir)) : dir ∈ forest.live := by
  rcases List.eq_nil_or_concat keys with rfl | ⟨place, key, rfl⟩
  · obtain rfl := Entry.directory.inj (Option.some.inj reached)
    exact held.rootLive
  · rw [List.concat_eq_append] at reached
    obtain ⟨above, -, entry⟩ := Hierarchy.walk_directory_last reached
    obtain ⟨leaf, found, isEntry⟩ := Option.map_eq_some_iff.mp entry
    have inside := (Forest.leaf_found found).1
    unfold Leaf.entry at isEntry
    split at isEntry
    case isTrue directory =>
      obtain rfl := Entry.directory.inj isEntry
      exact (held.below above leaf inside directory).1
    case isFalse => cases isEntry

/-- The guard of the trees of a forest. -/
def Forest.guard (forest : Forest) (layout : Superblock) (slot : Nat → Inode → Prop) (s : Store) :
    Guard where
  layout
  nodes block := if block ∈ forest.blocks then (s.mem block).node? else none
  bits block := if block ∈ forest.blocks then some true else none
  slot

/-- The guard of a forest lets blocks be allocated. -/
theorem Forest.guard_allocates {slot : Nat → Inode → Prop} :
    (forest.guard layout slot s).Allocates := by
  intro block wrong
  unfold Forest.guard at wrong
  dsimp only at wrong
  split at wrong
  · cases wrong
  · cases wrong

/-- Each block of a forest holds a node. -/
theorem Forest.Held.node (held : forest.Held layout s) {block : Nat}
    (inside : block ∈ forest.blocks) : ∃ node, btreeNodeLoad s block = some node := by
  obtain ⟨dir, live, inTree⟩ := List.mem_flatMap.mp inside
  obtain ⟨type, node, flat, -⟩ := held.tree dir live
  rcases List.mem_cons.mp inTree with rfl | below
  · exact ⟨node, flat.stored.load⟩
  · obtain ⟨leaf, isLeaf, rfl⟩ := List.mem_map.mp below
    obtain ⟨-, leafNode, load, -⟩ := flat.stored.below leaf isLeaf
    exact ⟨leafNode, load⟩

/-- A forest is guarded. -/
theorem Forest.Held.guard (held : forest.Held layout s) {slot : Nat → Inode → Prop}
    (slots : ∀ inodeNumber slots, s.mem (inodePage layout inodeNumber) = .inode slots →
      slot inodeNumber (slots (inodeNumber % inodesPerPage))) :
    (forest.guard layout slot s).Holds s where
  formatted := held.owned.formatted
  superblock := held.superblock
  total := held.total
  apart := held.apart
  node block node wanted := by
    unfold Forest.guard at wanted
    dsimp only at wanted
    split at wanted
    · cases tag : s.mem block with
      | btreeNode inPage =>
        rw [tag] at wanted
        rw [Option.some.inj wanted]
      | super | bitmap | inode | journal | data | untagged =>
        rw [tag] at wanted
        cases wanted
    · cases wanted
  taken block node wanted := by
    unfold Forest.guard at wanted ⊢
    dsimp only at wanted ⊢
    split at wanted
    case isTrue inside => exact if_pos inside
    case isFalse => cases wanted
  bit block value wanted := by
    unfold Forest.guard at wanted
    dsimp only at wanted
    split at wanted
    case isTrue inside =>
      obtain rfl := Option.some.inj wanted
      exact ⟨held.owned.inside block inside, held.owned.allocated block inside⟩
    case isFalse => cases wanted
  slots := slots

/-- The guard keeps the nodes. -/
theorem Forest.Held.load_same (held : forest.Held layout s) {slot : Nat → Inode → Prop}
    (holds : (forest.guard layout slot s).Holds s') {block : Nat} (inside : block ∈ forest.blocks) :
    btreeNodeLoad s' block = btreeNodeLoad s block := by
  obtain ⟨node, load⟩ := held.node inside
  obtain ⟨within, tag⟩ := load_eq_some.mp load
  rw [load, load_eq_some]
  have total : s'.totalBlocks = s.totalBlocks := holds.total.trans held.total.symm
  rw [total]
  refine ⟨within, holds.node block node ?_⟩
  unfold Forest.guard
  dsimp only
  rw [if_pos inside, tag]
  rfl

/-- No node is in block 0 of a guarded store. -/
theorem Guard.Holds.noNode {guard : Guard} (holds : guard.Holds s) : btreeNodeLoad s 0 = none := by
  obtain ⟨superblock, read, -⟩ := holds.superblock
  rw [Option.eq_none_iff_forall_not_mem]
  intro node load
  have tag := (load_eq_some.mp load).2
  rw [superblockRead_page read] at tag
  cases tag

/-- A root over its leaves stays one while its nodes load the same. -/
theorem FlatRoot.congr {root value type : Nat} {leaves : List Leaf} {node : BTreeNode}
    (flat : FlatRoot s root value type leaves node)
    (owned : Owned s' (root :: leaves.map Leaf.block)) (noNode : btreeNodeLoad s' 0 = none)
    (same : ∀ block ∈ root :: leaves.map Leaf.block,
      btreeNodeLoad s' block = btreeNodeLoad s block) : FlatRoot s' root value type leaves node where
  owned := owned
  stored := flat.stored.congr (same root List.mem_cons_self)
    fun leaf inside => same leaf.block (List.mem_cons_of_mem root (List.mem_map_of_mem inside))
  increasing := flat.increasing
  numKeys := flat.numKeys
  value := flat.value
  type := flat.type
  leftSibling := flat.leftSibling
  rightSibling := flat.rightSibling
  noNode := noNode

/-- The blocks of a guarded forest stay owned. -/
theorem Forest.Held.owned_same (held : forest.Held layout s) {slot : Nat → Inode → Prop}
    (holds : (forest.guard layout slot s).Holds s') : Owned s' forest.blocks := by
  have bits : ∀ block ∈ forest.blocks, block < s'.totalBlocks ∧ s'.bit block = some true := by
    intro block inside
    apply holds.bit block true
    exact if_pos inside
  exact ⟨holds.formatted, held.owned.distinct, fun block inside => (bits block inside).1,
    held.owned.nonzero, fun block inside => (bits block inside).2⟩

/-- The blocks of one tree of owned ones are owned. -/
theorem Owned.tree (owned : Owned s forest.blocks) {dir : Nat} (live : dir ∈ forest.live) :
    Owned s (forest.tree dir) := by
  have inside : forest.tree dir ⊆ forest.blocks := fun block inTree => Forest.mem_blocks live inTree
  refine ⟨owned.formatted, ?_, fun block inTree => owned.inside block (inside inTree),
    fun block inTree => owned.nonzero block (inside inTree),
    fun block inTree => owned.allocated block (inside inTree)⟩
  exact (List.nodup_flatMap.mp owned.distinct).1 dir live

/-- A step that keeps the guard of a forest keeps the forest. -/
theorem Forest.Held.guarded (held : forest.Held layout s) {slot : Nat → Inode → Prop}
    (holds : (forest.guard layout slot s).Holds s') : forest.Held layout s' where
  superblock := holds.superblock
  total := holds.total
  apart := holds.apart
  root := held.root
  rootLive := held.rootLive
  owned := held.owned_same holds
  tree dir live := by
    obtain ⟨type, node, flat, kind⟩ := held.tree dir live
    exact ⟨type, node, flat.congr ((held.owned_same holds).tree live) holds.noNode
      fun block inTree => held.load_same holds (Forest.mem_blocks live inTree), kind⟩
  dead := held.dead
  below := held.below
  unshared := held.unshared

/-- The search for a key in a directory. -/
theorem Forest.Held.search (held : forest.Held layout s) {dir : Nat} (live : dir ∈ forest.live)
    (key : Nat) :
    btreeSearch s dir key = some ((forest.leaf dir key).elim 0 Leaf.block) := by
  obtain ⟨type, node, flat, -⟩ := held.tree dir live
  cases found : forest.leaf dir key with
  | none => exact flat.grown.search_absent (Forest.leaf_absent found)
  | some leaf =>
    obtain ⟨inside, rfl⟩ := Forest.leaf_found found
    exact (flat.grown.search inside).1

/-- The leaf of a key is stored. -/
theorem Forest.Held.stored (held : forest.Held layout s) {dir key : Nat} {leaf : Leaf}
    (found : forest.leaf dir key = some leaf) : leaf.block ≠ 0 ∧ StoresLeaf s dir leaf := by
  obtain ⟨type, node, flat, -⟩ := held.tree dir (held.live found)
  exact flat.stored.below leaf (Forest.leaf_found found).1

/-- The search for a key from a leaf. -/
theorem btreeSearch_onLeaf {leaf : Leaf} {parent : Nat} (stored : StoresLeaf s parent leaf)
    (key : Nat) : btreeSearch s leaf.block key = some (if leaf.key = key then leaf.block else 0) := by
  obtain ⟨node, load, holds⟩ := stored
  have read := btreeNodeRead_of_load load
  unfold btreeSearch Store.walkFuel
  rw [btreeSearchFrom, read, Option.bind_eq_bind, Option.bind_some]
  dsimp only
  rw [holds.isLeaf, if_pos rfl, holds.key, holds.blockNumber]

/-- Entering a leaf that names no directory. -/
theorem enterNode_file {leaf : Leaf} {parent : Nat} (stored : StoresLeaf s parent leaf)
    (file : leaf.type ≠ fileTypeDirectory) (node : BTreeNode) :
    ∃ leafNode, enterNode s leaf.block node = some (some leafNode) ∧
      LeafNode leafNode leaf parent := by
  obtain ⟨leafNode, load, holds⟩ := stored
  refine ⟨leafNode, ?_, holds⟩
  rw [enterNode, btreeNodeReload, btreeNodeRead_of_load load]
  show (if leafNode.type = fileTypeDirectory then _ else some (some leafNode)) = _
  rw [holds.type, if_neg file]

/-- Entering the leaf of a directory leads to its root node. -/
theorem Forest.Held.enterNode_directory (held : forest.Held layout s) {dir key : Nat} {leaf : Leaf}
    (found : forest.leaf dir key = some leaf) (directory : leaf.type = fileTypeDirectory)
    (node : BTreeNode) :
    ∃ rootNode, enterNode s leaf.block node = some (some rootNode) ∧
      rootNode.blockNumber = leaf.value ∧ rootNode.value = forest.inode leaf.value ∧
      rootNode.type = fileTypeDirectory := by
  obtain ⟨-, leafNode, load, holds⟩ := held.stored found
  obtain ⟨live, notRoot⟩ := held.below dir leaf (Forest.leaf_found found).1 directory
  obtain ⟨type, rootNode, flat, kind⟩ := held.tree leaf.value live
  refine ⟨rootNode, ?_, flat.stored.holds.blockNumber, flat.value, flat.type.trans (kind notRoot)⟩
  rw [enterNode, btreeNodeReload, btreeNodeRead_of_load load]
  show (if leafNode.type = fileTypeDirectory then btreeNodeRead s leafNode.value else _) = _
  rw [holds.type, if_pos directory, holds.value, btreeNodeRead_of_load flat.stored.load]

/-- The component that a round of `item_search` takes up. -/
theorem split_passed {passed rest : List CString} {token : CString}
    (isPath : IsPath (passed ++ token :: rest)) :
    split (pathOf (passed ++ token :: rest)) (passed.length + 1) = some token := by
  rw [split_pathOf isPath.1]
  simp

/-- The path that a round has passed. -/
theorem extendPath_passed {passed rest : List CString} {token : CString}
    (isPath : IsPath (passed ++ token :: rest)) :
    extendPath (joinPath passed) token = joinPath (passed ++ [token]) := by
  have fits := isPath.2
  rw [pathOf_of_ne_nil (by simp), List.append_cons, joinPath_append, List.length_append] at fits
  exact extendPath_joinPath (by omega)

/-- The round that passes the whole path is the one of the last component. -/
theorem pathOf_eq_passed_iff {passed rest : List CString} {token : CString} :
    pathOf (passed ++ token :: rest) = joinPath (passed ++ [token]) ↔ rest = [] := by
  rw [pathOf_of_ne_nil (by simp), List.append_cons]
  exact joinPath_eq_iff

/-- The loop of `item_search` behind a file, with the components that are passed and those that
follow. -/
theorem itemSearchFrom_behind {leaf : Leaf} {parent : Nat} {node : BTreeNode}
    {passed rest : List CString} (stored : StoresLeaf s parent leaf) (nonzero : leaf.block ≠ 0)
    (file : leaf.type ≠ fileTypeDirectory) (here : LeafNode node leaf parent)
    (isPath : IsPath (passed ++ rest)) (more : rest ≠ []) :
    itemSearchFrom s (pathOf (passed ++ rest)) rest.length (passed.length + 1) node
      (joinPath passed) =
      some (if echoes leaf.key (pathKeys rest) then ⟨leaf.value, 0⟩ else noPair) := by
  induction rest generalizing passed node with
  | nil => exact absurd rfl more
  | cons token rest ih =>
    have step := List.append_cons passed token rest
    have done := @pathOf_eq_passed_iff passed rest token
    rw [List.length_cons, itemSearchFrom, split_passed isPath, Option.bind_eq_bind, Option.bind_some,
      here.blockNumber, btreeSearch_onLeaf stored, Option.bind_eq_bind, Option.bind_some]
    by_cases same : leaf.key = pathHash token
    · obtain ⟨leafNode, enter, holds⟩ := enterNode_file stored file node
      rw [if_pos same, if_neg nonzero, enter, Option.bind_eq_bind, Option.bind_some,
        extendPath_passed isPath]
      dsimp only
      have further : echoes leaf.key (pathKeys (token :: rest)) = echoes leaf.key (pathKeys rest) := by
        simp [echoes, pathKeys, same]
      rw [further]
      by_cases last : rest = []
      · subst last
        rw [if_pos (done.mpr rfl), holds.value, holds.type, if_neg file]
        rfl
      · rw [if_neg (mt done.mp last), step]
        have next := @ih leafNode (passed ++ [token]) holds (by rw [← step]; exact isPath) last
        rw [List.length_append, List.length_singleton] at next
        exact next
    · rw [if_neg same, if_pos rfl]
      have stops : echoes leaf.key (pathKeys (token :: rest)) = false := by
        simp [echoes, pathKeys, Ne.symm same]
      rw [stops]
      rfl

/-- The loop of `item_search` in a directory, with the components that are passed and those that
follow. -/
theorem Forest.Held.itemSearchFrom (held : forest.Held layout s) {dir : Nat}
    (live : dir ∈ forest.live) {node : BTreeNode} (here : node.blockNumber = dir)
    {passed rest : List CString} (isPath : IsPath (passed ++ rest)) (more : rest ≠ []) :
    itemSearchFrom s (pathOf (passed ++ rest)) rest.length (passed.length + 1) node
      (joinPath passed) =
      some (forest.pair (Hierarchy.walk echoes forest.entries dir (pathKeys rest))) := by
  induction rest generalizing passed node dir with
  | nil => exact absurd rfl more
  | cons token rest ih =>
    have step := List.append_cons passed token rest
    have done := @pathOf_eq_passed_iff passed rest token
    have isPath' : IsPath ((passed ++ [token]) ++ rest) := by
      rw [← step]
      exact isPath
    have keys : pathKeys (token :: rest) = pathHash token :: pathKeys rest := rfl
    rw [List.length_cons, Nbtrfs.itemSearchFrom, split_passed isPath, Option.bind_eq_bind,
      Option.bind_some, here, held.search live, Option.bind_eq_bind, Option.bind_some, keys, Hierarchy.walk]
    cases found : forest.leaf dir (pathHash token) with
    | none =>
      have entry : forest.entries dir (pathHash token) = none := by rw [Forest.entries, found]; rfl
      rw [entry]
      rfl
    | some leaf =>
      obtain ⟨nonzero, stored⟩ := held.stored found
      have keyIs := (Forest.leaf_found found).2
      rw [Option.elim_some]
      dsimp only
      rw [if_neg nonzero, extendPath_passed isPath]
      by_cases directory : leaf.type = fileTypeDirectory
      · have entry : forest.entries dir (pathHash token) = some (.directory leaf.value) := by
          rw [Forest.entries, found, Option.map_some, Leaf.entry, if_pos directory]
        obtain ⟨rootNode, enter, own, value, type⟩ := held.enterNode_directory found directory node
        have liveNext := (held.below dir leaf (Forest.leaf_found found).1 directory).1
        rw [entry, enter, Option.bind_eq_bind, Option.bind_some]
        dsimp only
        by_cases last : rest = []
        · subst last
          rw [if_pos (done.mpr rfl), type, if_pos rfl, own, value]
          rfl
        · rw [if_neg (mt done.mp last), step]
          have next := ih liveNext own isPath' last
          rw [List.length_append, List.length_singleton] at next
          exact next
      · have entry : forest.entries dir (pathHash token) = some (.file leaf.value) := by
          rw [Forest.entries, found, Option.map_some, Leaf.entry, if_neg directory]
        obtain ⟨leafNode, enter, holds⟩ := enterNode_file stored directory node
        rw [entry, enter, Option.bind_eq_bind, Option.bind_some]
        dsimp only
        by_cases last : rest = []
        · subst last
          rw [if_pos (done.mpr rfl), holds.type, if_neg directory, holds.value]
          rfl
        · rw [if_neg (mt done.mp last), step]
          have next := itemSearchFrom_behind stored nonzero directory holds isPath' last
          rw [List.length_append, List.length_singleton, keyIs] at next
          rw [next]
          cases echoes (pathHash token) (pathKeys rest) with
          | true => rfl
          | false => rfl

/-- `item_search` is the walk through the entries. -/
theorem Forest.Held.itemSearch (held : forest.Held layout s) {components : List CString}
    (isPath : IsPath components) :
    itemSearch s (pathOf components) = some (forest.pair (forest.walk (pathKeys components))) := by
  obtain ⟨superblock, read, same⟩ := held.superblock
  obtain ⟨type, node, flat, -⟩ := held.tree forest.root held.rootLive
  have root : superblock.btreeRoot = forest.root := same.btreeRoot.trans held.root
  have own := flat.stored.holds.blockNumber
  rw [Nbtrfs.itemSearch, read, Option.bind_eq_bind, Option.bind_some, root, flat.stored.load,
    Option.bind_eq_bind, Option.bind_some]
  by_cases top : components = []
  · subst top
    rw [if_pos (by rfl : pathOf [] = [slash]), own, flat.value]
    rfl
  · have notSlash : pathOf components ≠ [slash] := by
      intro wrong
      have longer := one_lt_joinPath isPath.1 top
      rw [pathOf_of_ne_nil top] at wrong
      rw [wrong] at longer
      exact absurd longer (by decide)
    rw [if_neg notSlash, countL_pathOf isPath.1]
    exact @Forest.Held.itemSearchFrom _ _ _ held _ held.rootLive _ own [] _ isPath top

end

end Nbtrfs
