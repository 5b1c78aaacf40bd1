import Nbtrfs.BTree.Image

/-!
# Deletion

`btree_delete` on a stored tree. `btree_remove_key` is given the parent of the leaf and then
steps to that node's parent once more. Over a root that has no parent the step reads block 0,
fails and stays, so a tree of depth 1 loses the leaf; in a deeper tree the leaf is looked for
among the children of its grandparent, is not found, and is freed while it is still linked.
-/

namespace Nbtrfs

section

variable {s s' : Store}

/-- The tree of a depth below 1 is stored under its own block. -/
theorem Stores.blocks_lt {depth parent : Nat} {tree : Tree depth} (stores : Stores s parent tree) :
    ∀ block ∈ tree.blocks, block < s.totalBlocks := by
  induction depth generalizing parent with
  | zero =>
    intro block inside
    obtain ⟨node, load, -⟩ := stores
    rw [List.mem_singleton.mp inside]
    exact (load_eq_some.mp load).1
  | succ depth ih =>
    obtain ⟨block, children⟩ := tree
    obtain ⟨⟨node, load, -⟩, below⟩ := stores
    intro other inside
    rcases List.mem_cons.mp inside with here | lower
    · rw [here]
      exact (load_eq_some.mp load).1
    · obtain ⟨child, isChild, inChild⟩ := List.mem_flatMap.mp lower
      exact ih (below child isChild).2 other inChild

/-- A tree with a leaf has more blocks than its depth. -/
theorem depth_lt_blocks {depth : Nat} (tree : Tree depth) {leaf : Leaf}
    (inside : leaf ∈ tree.leaves) : depth < tree.blocks.length := by
  induction depth with
  | zero => exact Nat.one_pos
  | succ depth ih =>
    obtain ⟨block, children⟩ := tree
    obtain ⟨child, isChild, inChild⟩ := List.mem_flatMap.mp inside
    have deeper := ih child inChild
    obtain ⟨before, after, rfl⟩ := List.append_of_mem isChild
    show depth + 1 < (block :: (before ++ child :: after).flatMap Tree.blocks).length
    rw [List.length_cons, List.flatMap_append, List.flatMap_cons, List.length_append,
      List.length_append]
    omega

/-- A stored tree without repeated blocks is not deeper than the image is long. -/
theorem Stores.depth_lt {depth parent : Nat} {tree : Tree depth} (stores : Stores s parent tree)
    (distinct : tree.blocks.Nodup) {leaf : Leaf} (inside : leaf ∈ tree.leaves) :
    depth < s.walkFuel := by
  have subset : tree.blocks ⊆ List.range s.totalBlocks := fun block isBlock =>
    List.mem_range.mpr (stores.blocks_lt block isBlock)
  have length := (List.subperm_of_subset distinct subset).length_le
  rw [List.length_range] at length
  have deep := depth_lt_blocks tree inside
  unfold Store.walkFuel
  omega

/-- The search finds a leaf of a stored tree. -/
theorem btreeSearch_leaf {depth parent : Nat} {tree : Tree depth} (stores : Stores s parent tree)
    (increasing : Increasing tree.leaves) (distinct : tree.blocks.Nodup) {leaf : Leaf}
    (inside : leaf ∈ tree.leaves) : btreeSearch s tree.block leaf.key = some leaf.block :=
  btreeSearchFrom_leaf tree parent _ stores increasing (stores.depth_lt distinct inside) inside

/-- An internal node whose children in use are all internal. -/
def OverInner (s : Store) (node : BTreeNode) : Prop :=
  ∀ i ≤ node.numKeys, node.children i ≠ 0 →
    ∃ child, btreeNodeLoad s (node.children i) = some child ∧ child.isLeaf = false

/-- The leaf, its parent and its grandparent in a tree of depth at least 2. -/
theorem Stores.grandparent {depth parent : Nat} {tree : Tree (depth + 2)}
    (stores : Stores s parent tree) {leaf : Leaf} (inside : leaf ∈ tree.leaves) :
    leaf.block ≠ 0 ∧ ∃ node bottom upper, btreeNodeLoad s leaf.block = some node ∧
      btreeNodeLoad s node.parent = some bottom ∧ bottom.isLeaf = false ∧
      (∃ first, btreeNodeLoad s (bottom.children 0) = some first ∧ first.isLeaf = true) ∧
      btreeNodeLoad s bottom.parent = some upper ∧ OverInner s upper := by
  induction depth generalizing parent with
  | zero =>
    obtain ⟨block, children⟩ := tree
    obtain ⟨⟨upper, loadUpper, holdsUpper⟩, below⟩ := stores
    obtain ⟨child, isChild, inChild⟩ := List.mem_flatMap.mp inside
    obtain ⟨-, ⟨bottom, loadBottom, holdsBottom⟩, leaves⟩ := below child isChild
    obtain ⟨last, isLast, same⟩ := List.mem_flatMap.mp inChild
    obtain rfl : leaf = last := List.mem_singleton.mp same
    obtain ⟨nonzero, node, load, holds⟩ := leaves leaf isLast
    obtain ⟨first, rest, split⟩ := List.exists_cons_of_ne_nil (List.ne_nil_of_mem isLast)
    refine ⟨nonzero, node, bottom, upper, load, ?_, holdsBottom.isLeaf, ?_, ?_, ?_⟩
    · rw [holds.parent]
      exact loadBottom
    · obtain ⟨-, firstNode, loadFirst, holdsFirst⟩ := leaves first (by rw [split]; simp)
      have slot := holdsBottom.slots 0 (Nat.zero_le _)
      rw [split] at slot
      refine ⟨firstNode, ?_, holdsFirst.isLeaf⟩
      rw [slot]
      exact loadFirst
    · rw [holdsBottom.parent]
      exact loadUpper
    · intro i bound nonzero'
      have fits := holdsUpper.fits
      have slot := holdsUpper.slots i (by omega)
      rw [List.getElem?_map] at slot
      cases atIndex : children[i]? with
      | none =>
        rw [atIndex] at slot
        exact absurd slot nonzero'
      | some other =>
        rw [atIndex] at slot
        obtain ⟨-, ⟨inner, loadInner, holdsInner⟩, -⟩ :=
          below other (List.mem_of_getElem? atIndex)
        refine ⟨inner, ?_, holdsInner.isLeaf⟩
        rw [slot]
        exact loadInner
  | succ depth ih =>
    obtain ⟨block, children⟩ := tree
    obtain ⟨-, below⟩ := stores
    obtain ⟨child, isChild, inChild⟩ := List.mem_flatMap.mp inside
    exact ih (below child isChild).2 inChild

/-- Over internal children no leaf is found. -/
theorem findLeafChild_overInner {node : BTreeNode} (aboveInner : OverInner s node) (key left i : Nat)
    (bound : i + left ≤ node.numKeys + 1) : findLeafChild s node key left i = some none := by
  induction left generalizing i with
  | zero => rfl
  | succ left ih =>
    have next := ih (i + 1) (by omega)
    by_cases empty : node.children i = 0
    · simp [findLeafChild, empty, next]
    · obtain ⟨child, load, inner⟩ := aboveInner i (by omega) empty
      simp [findLeafChild, empty, load, inner, next]

/-- In a tree of depth at least 2 the node of the leaf's parent is not changed. -/
theorem btreeRemoveKey_deep {block key : Nat} {bottom upper : BTreeNode}
    (load : btreeNodeLoad s block = some bottom) (inner : bottom.isLeaf = false)
    (overLeaf : ∃ first, btreeNodeLoad s (bottom.children 0) = some first ∧ first.isLeaf = true)
    (loadUpper : btreeNodeLoad s bottom.parent = some upper) (aboveInner : OverInner s upper) :
    btreeRemoveKey s block key = some s := by
  obtain ⟨first, loadFirst, isLeaf⟩ := overLeaf
  have descend : removeDescend s key s.walkFuel bottom = some bottom := by
    unfold Store.walkFuel
    simp [removeDescend, inner, loadFirst, isLeaf]
  have reload : btreeNodeReload s bottom.parent bottom = some upper := by
    simp [btreeNodeReload, btreeNodeRead_of_load loadUpper]
  have missing := findLeafChild_overInner aboveInner key (upper.numKeys + 1) 0 (by omega)
  simp [btreeRemoveKey, load, descend, reload, missing]

/-- In a tree of depth at least 2 a deletion clears the bit of the leaf and changes nothing else. -/
theorem btreeDelete_freed {depth : Nat} {tree : Tree (depth + 2)} (formatted : s.Formatted)
    (stores : Stores s 0 tree) (increasing : Increasing tree.leaves)
    (distinct : tree.blocks.Nodup) {leaf : Leaf} (inside : leaf ∈ tree.leaves) :
    leaf.block ≠ 0 ∧ ∃ s', btreeDelete s tree.block leaf.key = some (leaf.block, s') ∧
      BitChange s leaf.block false s' ∧
      ∀ block, btreeNodeLoad s' block = btreeNodeLoad s block := by
  obtain ⟨nonzero, node, bottom, upper, load, loadBottom, inner, overLeaf, loadUpper, aboveInner⟩ :=
    stores.grandparent inside
  have search := btreeSearch_leaf stores increasing distinct inside
  have remove := @btreeRemoveKey_deep s node.parent leaf.key bottom upper loadBottom inner overLeaf
    loadUpper aboveInner
  obtain ⟨s', free, change⟩ := freePage_spec formatted.bitmapped (load_eq_some.mp load).1
  refine ⟨nonzero, s', ?_, change, change.load formatted.bitmapped (load_eq_some.mp load).1⟩
  simp [btreeDelete, search, nonzero, load, remove, free]

/-- After a deletion in a tree of depth at least 2 the search still finds the freed leaf. -/
theorem btreeDelete_deep {depth : Nat} {tree : Tree (depth + 2)} (formatted : s.Formatted)
    (stores : Stores s 0 tree) (increasing : Increasing tree.leaves)
    (distinct : tree.blocks.Nodup) {leaf : Leaf} (inside : leaf ∈ tree.leaves) :
    leaf.block ≠ 0 ∧ ∃ s', btreeDelete s tree.block leaf.key = some (leaf.block, s') ∧
      btreeSearch s' tree.block leaf.key = some leaf.block := by
  obtain ⟨nonzero, s', run, -, loads⟩ :=
    btreeDelete_freed formatted stores increasing distinct inside
  exact ⟨nonzero, s', run,
    btreeSearch_leaf (stores.congr fun block _ => loads block) increasing distinct inside⟩

/-- Dropping a child of a node with keys leaves the node over the other children. -/
theorem dropChild_spec {node : BTreeNode} {block parent place : Nat}
    {children : List (Nat × Option Nat)} (holds : InnerNode node block parent children)
    (keyed : 1 ≤ node.numKeys) (inside : place < children.length) :
    ∃ dropped, dropChild node place = some dropped ∧
      InnerNode dropped block parent (children.eraseIdx place) ∧ SameHead node dropped ∧
      dropped.numKeys + 1 = node.numKeys := by
  have enough := holds.enough
  have extra := holds.extra
  have fits := holds.fits
  have length := List.length_eraseIdx_of_lt inside
  unfold dropChild
  rw [if_neg (by omega)]
  refine ⟨_, rfl, ?_, ⟨rfl, rfl, rfl, rfl⟩, Nat.sub_add_cancel keyed⟩
  refine ⟨holds.isLeaf, holds.blockNumber, holds.parent, ?_, ?_, ?_, ?_, ?_⟩
  · show node.numKeys - 1 ≤ maxKeys
    omega
  · show node.numKeys - 1 ≤ _
    omega
  · show _ ≤ node.numKeys - 1 + 1
    omega
  · intro i small
    have small' : i < node.numKeys - 1 := small
    have shifted : (if place = node.numKeys - 1
        then setAt (shiftDown node.keys place node.numKeys) (node.numKeys - 1) 0
        else shiftDown node.keys place node.numKeys) i =
          shiftDown node.keys place node.numKeys i := by
      split
      · exact if_neg (by omega)
      · rfl
    refine Eq.trans ?_ (congrArg some shifted.symm)
    rw [List.getElem?_eraseIdx]
    unfold shiftDown
    by_cases before : i < place
    · rw [if_pos before, if_neg (by omega)]
      exact holds.keys i (by omega)
    · rw [if_neg before, if_pos (by omega)]
      exact holds.keys (i + 1) (by omega)
  · intro i small
    show setAt (shiftDown node.children place (node.numKeys + 1)) (node.numKeys - 1 + 1) 0 i = _
    rw [List.getElem?_eraseIdx]
    unfold setAt shiftDown
    by_cases last : i = node.numKeys - 1 + 1
    · rw [if_pos last, if_neg (by omega), List.getElem?_eq_none (by omega)]
      rfl
    · rw [if_neg last]
      by_cases before : i < place
      · rw [if_pos before, if_neg (by omega)]
        exact holds.slots i small
      · rw [if_neg before]
        by_cases shifted : i < node.numKeys + 1
        · rw [if_pos (by omega)]
          exact holds.slots (i + 1) (by omega)
        · rw [if_neg (by omega), holds.slots i small, List.getElem?_eq_none (by omega),
            List.getElem?_eq_none (by omega)]

/-- The loop over the children stops at the leaf of the key. -/
theorem findLeafChild_leaf {node : BTreeNode} {block parent place : Nat} {leaves : List Leaf}
    {leaf : Leaf} (holds : InnerNode node block parent
      (leaves.map fun child => (child.block, some child.key)))
    (below : ∀ child ∈ leaves, child.block ≠ 0 ∧
      ∃ node, btreeNodeLoad s child.block = some node ∧ LeafNode node child block)
    (atPlace : leaves[place]? = some leaf)
    (first : ∀ i < place, ∀ child, leaves[i]? = some child → child.key ≠ leaf.key)
    (left i : Nat) (before : i ≤ place) (reaches : place < i + left) :
    findLeafChild s node leaf.key left i = some (some place) := by
  induction left generalizing i with
  | zero => omega
  | succ left ih =>
    have bound := (List.getElem?_eq_some_iff.mp atPlace).1
    have extra := holds.extra
    have fits := holds.fits
    rw [List.length_map] at extra
    obtain ⟨child, atIndex⟩ : ∃ child, leaves[i]? = some child :=
      ⟨_, List.getElem?_eq_getElem (by omega)⟩
    obtain ⟨nonzero, childNode, load, isLeaf⟩ := below child (List.mem_of_getElem? atIndex)
    have slot : node.children i = child.block := by
      rw [holds.slots i (by omega), List.getElem?_map, atIndex]
      rfl
    rw [findLeafChild, slot, if_pos nonzero, load, Option.bind_eq_bind, Option.bind_some,
      isLeaf.isLeaf, isLeaf.key]
    by_cases here : i = place
    · subst here
      rw [atPlace] at atIndex
      obtain rfl := Option.some.inj atIndex
      rw [if_pos ⟨rfl, rfl⟩]
    · have other := first i (by omega) child atIndex
      rw [if_neg (fun both => other both.2)]
      exact ih (i + 1) (by omega) (by omega)

/-- The depth of a stored tree of depth 1 is at most 1. -/
theorem btreeFindDepth_flat {tree : Tree 1} {parent : Nat} (stores : Stores s parent tree)
    (nonempty : 0 < s.totalBlocks) :
    ∃ depth ≤ 1, btreeFindDepth s tree.block = some depth := by
  obtain ⟨block, leaves⟩ := tree
  obtain ⟨⟨node, load, holds⟩, below⟩ := stores
  obtain ⟨fuel, enough⟩ : ∃ fuel, s.walkFuel = fuel + 2 := ⟨s.totalBlocks - 1, by
    unfold Store.walkFuel
    omega⟩
  have slot := holds.slots 0 (Nat.zero_le _)
  have load' : btreeNodeLoad s (@Tree.block 1 (block, leaves)) = some node := load
  cases leaves with
  | nil =>
    have empty : node.children 0 = 0 := slot
    refine ⟨0, Nat.zero_le _, ?_⟩
    simp [btreeFindDepth, load', enough, btreeFindDepthFrom, holds.isLeaf, empty]
  | cons first rest =>
    obtain ⟨nonzero, child, loadChild, isLeaf⟩ := below first List.mem_cons_self
    have slot' : node.children 0 = Leaf.block first := slot
    have nonzero' : Leaf.block first ≠ 0 := nonzero
    refine ⟨1, Nat.le_refl _, ?_⟩
    simp [btreeFindDepth, load', enough, btreeFindDepthFrom, holds.isLeaf, slot', nonzero',
      btreeNodeReload, btreeNodeRead_of_load loadChild, isLeaf.isLeaf]

/-- A root without siblings and parent leaves an underflow as it is. -/
theorem handleUnderflow_root {tree : Tree 1} {current : BTreeNode} (key : Nat)
    (stores : Stores s 0 tree) (nonempty : 0 < s.totalBlocks)
    (load : btreeNodeLoad s tree.block = some current) (left : current.leftSibling = 0)
    (right : current.rightSibling = 0) : handleUnderflow s current key = some s := by
  obtain ⟨depth, small, run⟩ := btreeFindDepth_flat stores nonempty
  obtain ⟨⟨node, load', holds⟩, -⟩ := stores
  have same : btreeNodeLoad s tree.block = some node := load'
  rw [load] at same
  obtain rfl := Option.some.inj same
  have block : current.blockNumber = tree.block := holds.blockNumber
  unfold handleUnderflow
  split
  · simp [btreeBorrowLeft, btreeBorrowRight, left, right, holds.parent, block, run,
      Nat.not_lt.mpr small]
  · rfl

/-- Block 0 is read without success if it is no node. -/
theorem btreeNodeReload_zero (nonempty : 0 < s.totalBlocks) (noNode : btreeNodeLoad s 0 = none)
    (node : BTreeNode) : btreeNodeReload s 0 node = some node := by
  unfold btreeNodeLoad at noNode
  unfold btreeNodeReload
  have read : btreeNodeRead s 0 = some (s.mem 0).node? := by
    rw [btreeNodeRead, Store.get_of_lt nonempty]
    rfl
  rw [read] at noNode ⊢
  have none : (s.mem 0).node? = none := noNode
  rw [none]
  rfl

/-- The blocks reached from a root through the children in use of internal nodes. -/
inductive Reachable (s : Store) (root : Nat) : Nat → Prop where
  /-- The root. -/
  | root : Reachable s root root
  /-- A child in use of a reached internal node. -/
  | child {block i : Nat} {node : BTreeNode} (reached : Reachable s root block)
    (load : btreeNodeLoad s block = some node) (inner : node.isLeaf = false)
    (inUse : i ≤ node.numKeys) (nonzero : node.children i ≠ 0) :
    Reachable s root (node.children i)

/-- In a tree of depth 1 the root and the leaves are reached. -/
theorem reachable_flat {tree : Tree 1} {parent : Nat} (stores : Stores s parent tree)
    {block : Nat} (reached : Reachable s tree.block block) :
    block = tree.block ∨ ∃ leaf ∈ tree.leaves, block = leaf.block := by
  obtain ⟨root, leaves⟩ := tree
  obtain ⟨⟨rootNode, loadRoot, holds⟩, below⟩ := stores
  induction reached with
  | root => exact Or.inl rfl
  | @child block i node reached load inner inUse nonzero ih =>
    rcases ih with here | ⟨leaf, isLeaf, here⟩
    · rw [here] at load
      obtain rfl : rootNode = node := Option.some.inj (loadRoot.symm.trans load)
      have fits := holds.fits
      have slot := holds.slots i (by omega)
      rw [List.getElem?_map] at slot
      cases atIndex : leaves[i]? with
      | none =>
        rw [atIndex] at slot
        exact absurd slot nonzero
      | some child =>
        rw [atIndex] at slot
        right
        refine ⟨child, ?_, slot⟩
        exact List.mem_flatMap.mpr ⟨child, List.mem_of_getElem? atIndex, List.mem_singleton.mpr rfl⟩
    · obtain ⟨child, isChild, same⟩ := List.mem_flatMap.mp isLeaf
      obtain rfl : leaf = child := List.mem_singleton.mp same
      obtain ⟨-, childNode, loadChild, holdsChild⟩ := below leaf isChild
      rw [here] at load
      obtain rfl : childNode = node := Option.some.inj (loadChild.symm.trans load)
      rw [holdsChild.isLeaf] at inner
      cases inner

/-- A stored B+tree of any depth on a formatted store, with its root. -/
structure StoredTree (s : Store) {depth : Nat} (tree : Tree depth) : Prop where
  /-- The block bitmap is in place. -/
  formatted : s.Formatted
  /-- The pages hold the tree, and the root has no parent. -/
  stores : Stores s 0 tree
  /-- The leaf keys increase from left to right. -/
  increasing : Increasing tree.leaves
  /-- No block occurs twice. -/
  distinct : tree.blocks.Nodup
  /-- Block 0 is no B-tree node. -/
  noNode : btreeNodeLoad s 0 = none
  /-- The root has no siblings. -/
  siblings : ∀ node, btreeNodeLoad s tree.block = some node →
    node.leftSibling = 0 ∧ node.rightSibling = 0

/-- What a deletion is to achieve. -/
structure Deleted {depth : Nat} (tree : Tree depth) (leaf : Leaf) (s' : Store) : Prop where
  /-- The key is not found. -/
  gone : btreeSearch s' tree.block leaf.key = some 0
  /-- Every other leaf is found under its key and holds its value. -/
  kept : ∀ other ∈ tree.leaves, other ≠ leaf →
    btreeSearch s' tree.block other.key = some other.block ∧
      ∃ node, btreeNodeLoad s' other.block = some node ∧ node.isLeaf = true ∧
        node.key = other.key ∧ node.value = other.value
  /-- The freed block is not reached from the root. -/
  unreferenced : ¬ Reachable s' tree.block leaf.block

/-- The leaves without one of them are not the leaf, and are all the others. -/
theorem mem_eraseIdx_leaf {leaves : List Leaf} (distinct : leaves.Nodup) {place : Nat} {leaf : Leaf}
    (atPlace : leaves[place]? = some leaf) (other : Leaf) :
    other ∈ leaves.eraseIdx place ↔ other ∈ leaves ∧ other ≠ leaf := by
  obtain ⟨bound, rfl⟩ := List.getElem?_eq_some_iff.mp atPlace
  rw [← distinct.erase_getElem place bound, distinct.mem_erase_iff]
  tauto

/-- Without keys in the root the deletion leaves the arrays of the root. -/
theorem btreeRemoveKey_keyless {node : BTreeNode} {block place key : Nat}
    (load : btreeNodeLoad s block = some node)
    (descend : removeDescend s key s.walkFuel node = some node)
    (reload : btreeNodeReload s node.parent node = some node)
    (found : findLeafChild s node key (node.numKeys + 1) 0 = some (some place))
    (keyless : node.numKeys = 0) : btreeRemoveKey s block key = none := by
  have drop : dropChild node place = none := by simp [dropChild, keyless]
  simp [btreeRemoveKey, load, descend, reload, found, drop]

/-- The leaf's place in a tree of depth 1, and the searches of `btree_remove_key` there. -/
theorem StoredTree.locate {block : Nat} {leaves : List Leaf}
    (stored : StoredTree s (flatTree block leaves)) {leaf : Leaf}
    (inside : leaf ∈ leaves) :
    ∃ node leafNode place, btreeNodeLoad s block = some node ∧
      InnerNode node block 0 (leaves.map fun child => (child.block, some child.key)) ∧
      leaf.block ≠ 0 ∧ btreeNodeLoad s leaf.block = some leafNode ∧ leafNode.parent = block ∧
      leaves[place]? = some leaf ∧ removeDescend s leaf.key s.walkFuel node = some node ∧
      btreeNodeReload s node.parent node = some node ∧
      findLeafChild s node leaf.key (node.numKeys + 1) 0 = some (some place) := by
  obtain ⟨⟨node, load, holds⟩, below⟩ := stored.stores
  obtain ⟨nonzero, leafNode, loadLeaf, holdsLeaf⟩ := below leaf inside
  obtain ⟨place, bound, atPlace⟩ := List.mem_iff_getElem.mp inside
  have atPlace? : leaves[place]? = some leaf := by
    rw [List.getElem?_eq_getElem bound, atPlace]
  have increasing : Increasing leaves := by
    have whole := stored.increasing
    rw [flatTree_leaves] at whole
    exact whole
  have earlier : ∀ i < place, ∀ child, leaves[i]? = some child → child.key ≠ leaf.key := by
    intro i before child atIndex
    have whole := stored.increasing
    have less := increasing_children whole atIndex atPlace? before
      (List.mem_singleton.mpr rfl) (List.mem_singleton.mpr rfl)
    exact Nat.ne_of_lt less
  have extra := holds.extra
  rw [List.length_map] at extra
  have extra' : leaves.length ≤ node.numKeys + 1 := extra
  refine ⟨node, leafNode, place, load, holds, nonzero, loadLeaf, holdsLeaf.parent, atPlace?, ?_, ?_,
    findLeafChild_leaf holds below atPlace? earlier _ 0 (Nat.zero_le _) (by omega)⟩
  · obtain ⟨first, rest, split⟩ := List.exists_cons_of_ne_nil (List.ne_nil_of_mem inside)
    obtain ⟨-, firstNode, loadFirst, holdsFirst⟩ := below first (by
      show first ∈ leaves
      rw [split]
      exact List.mem_cons_self)
    have slot : node.children 0 = first.block := by
      have slot := holds.slots 0 (Nat.zero_le _)
      subst split
      exact slot
    have loadSlot : btreeNodeLoad s (node.children 0) = some firstNode := by
      rw [slot]
      exact loadFirst
    unfold Store.walkFuel
    simp [removeDescend, holds.isLeaf, loadSlot, holdsFirst.isLeaf]
  · rw [holds.parent]
    exact btreeNodeReload_zero stored.formatted.nonempty stored.noNode node

/-- The block of a leaf holds a node. -/
theorem StoredTree.loadLeaf {depth : Nat} {tree : Tree (depth + 1)} (stored : StoredTree s tree)
    {leaf : Leaf} (inside : leaf ∈ tree.leaves) :
    leaf.block ≠ 0 ∧ ∃ node, btreeNodeLoad s leaf.block = some node := by
  cases depth with
  | succ depth =>
    obtain ⟨nonzero, node, -, -, load, -⟩ := stored.stores.grandparent inside
    exact ⟨nonzero, node, load⟩
  | zero =>
    obtain ⟨block, leaves, rfl⟩ : ∃ block leaves, tree = flatTree block leaves :=
      ⟨tree.1, tree.2, rfl⟩
    rw [flatTree_leaves] at inside
    obtain ⟨-, node, -, -, -, nonzero, load, -⟩ := stored.locate inside
    exact ⟨nonzero, node, load⟩

/-- The search finds no key that a tree of depth 1 does not have. -/
theorem StoredTree.search_absent {block key : Nat} {leaves : List Leaf}
    (stored : StoredTree s (flatTree block leaves)) (absent : ∀ leaf ∈ leaves, leaf.key ≠ key) :
    btreeSearch s block key = some 0 := by
  have fuel : 1 < s.walkFuel := by
    have nonempty := stored.formatted.nonempty
    unfold Store.walkFuel
    omega
  apply btreeSearchFrom_absent (flatTree block leaves) 0 _ _ stored.stores fuel
  rw [flatTree_leaves]
  exact absent

/-- Where the deletion of a leaf of a tree of depth 1 has a result, the root has a key. -/
theorem StoredTree.keyed {block : Nat} {leaves : List Leaf}
    (stored : StoredTree s (flatTree block leaves)) {leaf : Leaf} (inside : leaf ∈ leaves)
    {freed : Nat} (run : btreeDelete s block leaf.key = some (freed, s')) :
    ∃ node, btreeNodeLoad s block = some node ∧ 1 ≤ node.numKeys := by
  obtain ⟨node, leafNode, place, load, holds, nonzero, loadLeaf, parent, atPlace, descend, reload,
    found⟩ := stored.locate inside
  refine ⟨node, load, ?_⟩
  by_contra keyless
  have stuck := btreeRemoveKey_keyless load descend reload found (by omega)
  have inTree : leaf ∈ (flatTree block leaves).leaves := by
    rw [flatTree_leaves]
    exact inside
  have search : btreeSearch s block leaf.key = some leaf.block :=
    btreeSearch_leaf stored.stores stored.increasing stored.distinct inTree
  simp [btreeDelete, search, nonzero, loadLeaf, parent, stuck] at run

/-- What a deletion does in a tree of depth 1: the leaf's place is dropped from the root and its
block is freed. -/
structure LeafDropped (s : Store) (block : Nat) (leaves : List Leaf) (leaf : Leaf) (place : Nat)
    (node dropped : BTreeNode) (s1 s' : Store) : Prop where
  /-- The place of the leaf. -/
  atPlace : leaves[place]? = some leaf
  /-- The deletion has a result. -/
  run : btreeDelete s block leaf.key = some (leaf.block, s')
  /-- The root loses the leaf. -/
  change : NodeChange s block dropped s1
  /-- The leaf's block is freed. -/
  freed : BitChange s1 leaf.block false s'
  /-- The other nodes are kept. -/
  other : ∀ block', block' ≠ block → btreeNodeLoad s' block' = btreeNodeLoad s block'
  /-- The tree without the leaf is stored. -/
  stores : Stores s' 0 (flatTree block (leaves.eraseIdx place))
  /-- The root as it is stored. -/
  load : btreeNodeLoad s' block = some dropped
  /-- The other fields of the root are kept. -/
  head : SameHead node dropped
  /-- The root has one key less. -/
  numKeys : dropped.numKeys + 1 = node.numKeys

/-- The deletion of a leaf of a tree of depth 1 whose root has a key. -/
theorem btreeDelete_dropped {block : Nat} {leaves : List Leaf}
    (stored : StoredTree s (flatTree block leaves)) {leaf : Leaf} (inside : leaf ∈ leaves)
    {node : BTreeNode} (load : btreeNodeLoad s block = some node) (keyed : 1 ≤ node.numKeys) :
    ∃ place dropped s1 s', LeafDropped s block leaves leaf place node dropped s1 s' := by
  obtain ⟨node', leafNode, place, load', holds, nonzero, loadLeaf, parent, atPlace, descend, reload,
    found⟩ := stored.locate inside
  obtain rfl := Option.some.inj (load.symm.trans load')
  have inTree : leaf ∈ (flatTree block leaves).leaves := by
    show leaf ∈ (flatTree block leaves).leaves
    rw [flatTree_leaves]
    exact inside
  have search := btreeSearch_leaf stored.stores stored.increasing stored.distinct inTree
  have distinct : (block :: leaves.map Leaf.block).Nodup := by
    have whole := stored.distinct
    rw [flatTree_blocks] at whole
    exact whole
  have notRoot := (List.nodup_cons.mp distinct).1
  have bound := (List.getElem?_eq_some_iff.mp atPlace).1
  obtain ⟨dropped, drop, holds', head, count⟩ :=
    dropChild_spec holds keyed (by rw [List.length_map]; exact bound)
  have siblings := stored.siblings node load
  have loadDropped : btreeNodeLoad s dropped.blockNumber = some node := by
    rw [holds'.blockNumber]
    exact load
  obtain ⟨s1, write, change⟩ := btreeNodeWrite_spec loadDropped
  rw [holds'.blockNumber] at change
  have stores1 : Stores s1 0 (flatTree block (leaves.eraseIdx place)) := by
    refine ⟨⟨dropped, change.here, ?_⟩, fun child isChild => ?_⟩
    · rw [List.eraseIdx_map] at holds'
      exact holds'
    · have inLeaves : child ∈ leaves := List.mem_of_mem_eraseIdx isChild
      obtain ⟨childNonzero, childNode, loadChild, holdsChild⟩ := stored.stores.2 child inLeaves
      refine ⟨childNonzero, childNode, ?_, holdsChild⟩
      have other : Leaf.block child ≠ block := fun same =>
        notRoot (same ▸ List.mem_map_of_mem inLeaves)
      rw [change.other other]
      exact loadChild
  have underflow := @handleUnderflow_root s1 _ dropped leaf.key stores1
    (by rw [change.totalBlocks]; exact stored.formatted.nonempty) change.here
    (head.leftSibling.trans siblings.1) (head.rightSibling.trans siblings.2)
  have remove : btreeRemoveKey s block leaf.key = some s1 := by
    simp [btreeRemoveKey, load, descend, reload, found, drop, write, underflow]
  have formatted1 := (change.sameBitmap.samePages stored.formatted.bitmapped).formatted
    stored.formatted
  have leafInside : leaf.block < s1.totalBlocks := by
    rw [change.totalBlocks]
    exact (load_eq_some.mp loadLeaf).1
  obtain ⟨s2, free, bits⟩ := freePage_spec formatted1.bitmapped leafInside
  have loads := bits.load formatted1.bitmapped leafInside
  refine ⟨place, dropped, s1, s2, atPlace, ?_, change, bits, ?_,
    stores1.congr fun other _ => loads other, (loads block).trans change.here, head, count⟩
  · have search' : btreeSearch s block leaf.key = some leaf.block := search
    simp [btreeDelete, search', nonzero, loadLeaf, parent, remove, free]
  · intro other distinct
    rw [loads, change.other distinct]

/-- The tree of depth 1 without the leaf that was dropped from it. -/
theorem LeafDropped.stored {block place : Nat} {leaves : List Leaf} {leaf : Leaf}
    {node dropped : BTreeNode} {s1 : Store}
    (deleted : LeafDropped s block leaves leaf place node dropped s1 s')
    (stored : StoredTree s (flatTree block leaves)) (load : btreeNodeLoad s block = some node)
    (formatted : s'.Formatted) : StoredTree s' (flatTree block (leaves.eraseIdx place)) where
  formatted := formatted
  stores := deleted.stores
  increasing := by
    have whole := stored.increasing
    rw [flatTree_leaves] at whole ⊢
    unfold Increasing at whole ⊢
    exact whole.sublist ((List.eraseIdx_sublist leaves place).map Leaf.key)
  distinct := by
    have whole := stored.distinct
    rw [flatTree_blocks] at whole ⊢
    exact whole.sublist (((List.eraseIdx_sublist leaves place).map Leaf.block).cons_cons block)
  noNode := by
    have notRoot : 0 ≠ block := by
      rintro rfl
      rw [stored.noNode] at load
      cases load
    exact (deleted.other 0 notRoot).trans stored.noNode
  siblings other loadOther := by
    obtain rfl := Option.some.inj (deleted.load.symm.trans loadOther)
    obtain ⟨left, right⟩ := stored.siblings node load
    exact ⟨deleted.head.leftSibling.trans left, deleted.head.rightSibling.trans right⟩

/-- In a tree of depth 1 whose root has a key the deletion does what it is to. -/
theorem btreeDelete_flat {block : Nat} {leaves : List Leaf}
    (stored : StoredTree s (flatTree block leaves)) {leaf : Leaf}
    (inside : leaf ∈ leaves) (keyed : ∀ node, btreeNodeLoad s block = some node → 1 ≤ node.numKeys) :
    ∃ s', btreeDelete s block leaf.key = some (leaf.block, s') ∧
      Deleted (flatTree block leaves) leaf s' := by
  obtain ⟨node, load, -⟩ := stored.stores.1
  obtain ⟨place, dropped, s1, s2, deleted⟩ :=
    btreeDelete_dropped stored inside load (keyed node load)
  have atPlace := deleted.atPlace
  have stores2 := deleted.stores
  have distinct : (block :: leaves.map Leaf.block).Nodup := by
    have whole := stored.distinct
    rw [flatTree_blocks] at whole
    exact whole
  obtain ⟨notRoot, leavesDistinct⟩ := List.nodup_cons.mp distinct
  have increasing : Increasing leaves := by
    have whole := stored.increasing
    rw [flatTree_leaves] at whole
    exact whole
  have sublist : (leaves.eraseIdx place).Sublist leaves := List.eraseIdx_sublist _ _
  have increasing2 : Increasing (leaves.eraseIdx place) := by
    unfold Increasing at increasing ⊢
    exact increasing.sublist (sublist.map _)
  have leavesNodup : leaves.Nodup := List.Nodup.of_map _ leavesDistinct
  have members := mem_eraseIdx_leaf leavesNodup atPlace
  have fuel : 1 < s2.walkFuel := by
    have inside2 := (load_eq_some.mp deleted.load).1
    unfold Store.walkFuel
    omega
  refine ⟨s2, deleted.run, ?_, ?_, ?_⟩
  · apply btreeSearchFrom_absent (flatTree block (leaves.eraseIdx place)) 0 _ _ stores2 fuel
    intro other isOther
    have isOther' : other ∈ (flatTree block (leaves.eraseIdx place)).leaves := isOther
    rw [flatTree_leaves] at isOther'
    obtain ⟨inLeaves, differs⟩ := (members other).mp isOther'
    have keys : (leaves.map Leaf.key).Nodup := increasing.imp Nat.ne_of_lt
    exact fun same => differs (List.inj_on_of_nodup_map keys inLeaves inside same)
  · intro other isOther differs
    have isOther' : other ∈ (flatTree block leaves).leaves := isOther
    rw [flatTree_leaves] at isOther'
    have remains : other ∈ leaves.eraseIdx place := (members other).mpr ⟨isOther', differs⟩
    refine ⟨?_, ?_⟩
    · apply btreeSearchFrom_leaf (flatTree block (leaves.eraseIdx place)) 0 _ stores2 _ fuel
      · show other ∈ (flatTree block (leaves.eraseIdx place)).leaves
        rw [flatTree_leaves]
        exact remains
      · show Increasing ((flatTree block (leaves.eraseIdx place)).leaves)
        rw [flatTree_leaves]
        exact increasing2
    · obtain ⟨-, otherNode, loadOther, holdsOther⟩ := stores2.2 other remains
      exact ⟨otherNode, loadOther, holdsOther.isLeaf, holdsOther.key, holdsOther.value⟩
  · intro reached
    rcases reachable_flat stores2 reached with isRoot | ⟨other, isOther, same⟩
    · have isRoot' : leaf.block = block := isRoot
      exact notRoot (isRoot' ▸ List.mem_map_of_mem inside)
    · have isOther' : other ∈ (flatTree block (leaves.eraseIdx place)).leaves := isOther
      rw [flatTree_leaves] at isOther'
      obtain ⟨inLeaves, differs⟩ := (members other).mp isOther'
      exact differs (List.inj_on_of_nodup_map leavesDistinct inLeaves inside same.symm)

/-- A deletion does what it is to if and only if the tree has depth 1 and its root has a key. -/
theorem btreeDelete_iff {depth : Nat} (tree : Tree (depth + 1)) (stored : StoredTree s tree)
    (leaf : Leaf) (inside : leaf ∈ tree.leaves) :
    (∃ s', btreeDelete s tree.block leaf.key = some (leaf.block, s') ∧ Deleted tree leaf s') ↔
      depth = 0 ∧ ∃ node, btreeNodeLoad s tree.block = some node ∧ 1 ≤ node.numKeys := by
  cases depth with
  | succ depth =>
    obtain ⟨nonzero, s', run, found⟩ := btreeDelete_deep stored.formatted stored.stores
      stored.increasing stored.distinct inside
    constructor
    · rintro ⟨after, run', deleted⟩
      rw [run] at run'
      obtain rfl : s' = after := (Prod.mk.inj (Option.some.inj run')).2
      have gone := deleted.gone
      rw [found] at gone
      exact absurd (Option.some.inj gone) nonzero
    · rintro ⟨shallow, -⟩
      cases shallow
  | zero =>
    obtain ⟨block, leaves, rfl⟩ : ∃ block leaves, tree = flatTree block leaves :=
      ⟨tree.1, tree.2, rfl⟩
    have inLeaves : leaf ∈ leaves := by
      have whole : leaf ∈ (flatTree block leaves).leaves := inside
      rw [flatTree_leaves] at whole
      exact whole
    constructor
    · rintro ⟨after, run, -⟩
      exact ⟨rfl, stored.keyed inLeaves run⟩
    · rintro ⟨-, node, load, keyed⟩
      apply btreeDelete_flat stored inLeaves
      intro other loadOther
      obtain rfl : node = other := Option.some.inj (load.symm.trans loadOther)
      exact keyed

/-- The image of a tree holds it as a deletion finds it. -/
theorem Tree.image_storedTree {depth : Nat} {tree : Tree (depth + 1)} {total : Nat}
    (small : total ≤ usableBlockSize) (room : 1 < total) (fits : tree.Fits)
    (increasing : Increasing tree.leaves) (distinct : tree.blocks.Nodup)
    (inside : ∀ block ∈ tree.blocks, 1 < block ∧ block < total) :
    StoredTree (tree.image total) tree where
  formatted := nodeStore_formatted small room
  stores := Tree.image_stores fits distinct inside
  increasing := increasing
  distinct := distinct
  noNode := by
    cases load : btreeNodeLoad (tree.image total) 0 with
    | none => rfl
    | some node =>
      have page : nodePage (tree.nodes 0) 0 = .btreeNode node := (load_eq_some.mp load).2
      unfold nodePage at page
      rw [if_neg Nat.zero_ne_one] at page
      cases found : (tree.nodes 0).find? fun node => node.blockNumber == 0 with
      | none =>
        rw [found] at page
        cases page
      | some other =>
        have isNode := List.mem_of_find?_eq_some found
        have number : other.blockNumber = 0 := by simpa using List.find?_some found
        have isBlock : other.blockNumber ∈ tree.blocks := by
          rw [← tree.nodes_blocks 0]
          exact List.mem_map_of_mem isNode
        have later := (inside _ isBlock).1
        omega
  siblings node load := by
    have root := Tree.image_load distinct inside _ (List.mem_cons_self :
      nodeOver (Prod.fst tree) 0 ((Prod.snd tree).map fun child => (child.block, child.maxKey)) ∈
        tree.nodes 0)
    obtain rfl := Option.some.inj (root.symm.trans load)
    exact ⟨rfl, rfl⟩

/-- A root over four leaves. -/
def lowTree : Tree 1 :=
  flatTree 2 [⟨3, 5, 50, 1⟩, ⟨4, 7, 70, 2⟩, ⟨5, 9, 90, 1⟩, ⟨6, 11, 110, 2⟩]

/-- The deletion of the second leaf of the low tree does what it is to: the other three are found. -/
theorem btreeDelete_iff_low :
    ∃ s', btreeDelete (lowTree.image 8) 2 7 = some (4, s') ∧ Deleted lowTree ⟨4, 7, 70, 2⟩ s' := by
  have increasing : Increasing lowTree.leaves := by simp [Increasing, lowTree, flatTree_leaves]
  have stored : StoredTree (lowTree.image 8) lowTree :=
    Tree.image_storedTree (by decide) (by decide) (by decide) increasing (by decide) (by decide)
  obtain ⟨⟨root, load, holds⟩, -⟩ := id stored.stores
  have keyed : 1 ≤ root.numKeys := Nat.le_of_succ_le_succ (Nat.le_trans (by decide) holds.extra)
  exact (btreeDelete_iff lowTree stored ⟨4, 7, 70, 2⟩ (by decide)).mpr ⟨rfl, root, load, keyed⟩

/-- A leaf. -/
def smallLeaf : Leaf := ⟨4, 7, 70, 0⟩

/-- The tree of a root over an internal node over the leaf. -/
def highTree : Tree 2 := (2, [flatTree 3 [smallLeaf]])

/-- The deletion of the leaf of the high tree frees a leaf that the search still finds. -/
theorem btreeDelete_high_false :
    StoredTree (highTree.image 8) highTree ∧ smallLeaf ∈ highTree.leaves ∧
      ¬ ∃ s', btreeDelete (highTree.image 8) 2 7 = some (4, s') ∧ Deleted highTree smallLeaf s' := by
  have inside : smallLeaf ∈ highTree.leaves := List.mem_cons_self
  have stored : StoredTree (highTree.image 8) highTree :=
    Tree.image_storedTree (by decide) (by decide) (by decide) (List.pairwise_singleton _ _)
      (by decide) (by decide)
  refine ⟨stored, inside, ?_⟩
  rintro ⟨after, run, deleted⟩
  obtain ⟨-, s', run', found⟩ := btreeDelete_deep stored.formatted stored.stores stored.increasing
    stored.distinct inside
  obtain rfl : s' = after := (Prod.mk.inj (Option.some.inj (run'.symm.trans run))).2
  have gone := deleted.gone
  rw [found] at gone
  exact absurd (Option.some.inj gone) (by decide)

end

end Nbtrfs
