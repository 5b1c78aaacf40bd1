import Nbtrfs.BTree.Deep

/-!
# The split of a root of any depth

`btree_split_root` of a full root over leaves or over internal nodes. The tree gets one level more with
the same leaves, and every key is the largest one below its child.
-/

namespace Nbtrfs

section

variable {s s' : Store} {depth parent : Nat}

/-- A tree with a root over two nodes that share its children. -/
def tallerTree (root childA childB : Nat) (children : List (Tree depth)) : Tree (depth + 2) :=
  overTree root [overTree childA (firstHalf children), overTree childB (secondHalf children)]

/-- The taller tree has the same leaves in the same order. -/
theorem tallerTree_leaves (root childA childB : Nat) (children : List (Tree depth)) :
    (tallerTree root childA childB children).leaves = (overTree root children).leaves := by
  show [overTree childA (firstHalf children), overTree childB (secondHalf children)].flatMap Tree.leaves =
    children.flatMap Tree.leaves
  calc [overTree childA (firstHalf children), overTree childB (secondHalf children)].flatMap Tree.leaves
      = (firstHalf children).flatMap Tree.leaves ++ (secondHalf children).flatMap Tree.leaves := by
        simp [overTree_leaves]
    _ = children.flatMap Tree.leaves := by
        rw [← List.flatMap_append, halves_append]

/-- The taller tree has two blocks more. -/
theorem tallerTree_blocks (root childA childB : Nat) (children : List (Tree depth)) :
    (childA :: childB :: (overTree root children).blocks).Perm
      (tallerTree root childA childB children).blocks := by
  have blocks : (tallerTree root childA childB children).blocks =
      root :: childA :: ((firstHalf children).flatMap Tree.blocks ++
        childB :: (secondHalf children).flatMap Tree.blocks) := by
    show root :: [overTree childA (firstHalf children),
      overTree childB (secondHalf children)].flatMap Tree.blocks = _
    simp [overTree_blocks]
  rw [blocks, overTree_blocks]
  nth_rewrite 1 [← halves_append children]
  rw [List.flatMap_append]
  have first : (childA :: childB :: root :: ((firstHalf children).flatMap Tree.blocks ++
      (secondHalf children).flatMap Tree.blocks)).Perm (childA :: root :: childB ::
        ((firstHalf children).flatMap Tree.blocks ++ (secondHalf children).flatMap Tree.blocks)) :=
    (List.Perm.swap root childB _).cons childA
  have second := List.Perm.swap root childA (childB ::
    ((firstHalf children).flatMap Tree.blocks ++ (secondHalf children).flatMap Tree.blocks))
  have third : (root :: childA :: childB :: ((firstHalf children).flatMap Tree.blocks ++
      (secondHalf children).flatMap Tree.blocks)).Perm (root :: childA ::
        ((firstHalf children).flatMap Tree.blocks ++
          childB :: (secondHalf children).flatMap Tree.blocks)) :=
    (List.perm_middle.symm.cons childA).cons root
  exact first.trans (second.trans third)

/-- The root of a tree is split into two nodes that are each other's siblings. -/
structure SplitApart (s' : Store) (root parent childA childB : Nat) (node : BTreeNode)
    (children : List (Tree depth)) : Prop where
  /-- The taller tree is stored. -/
  stores : Stores s' parent (tallerTree root childA childB children)
  /-- Its blocks are owned. -/
  owned : Owned s' (tallerTree root childA childB children).blocks
  /-- No node is empty. -/
  filled : (tallerTree root childA childB children).Filled
  /-- The root has two keys and its other fields. -/
  root : ∃ split, btreeNodeLoad s' root = some split ∧ split.numKeys = 2 ∧ SameHead node split
  /-- The first node names the second one. -/
  rightSibling : ∃ nodeA, btreeNodeLoad s' childA = some nodeA ∧ nodeA.rightSibling = childB
  /-- The second node names the first one. -/
  leftSibling : ∃ nodeB, btreeNodeLoad s' childB = some nodeB ∧ nodeB.leftSibling = childA

/-- The halves of the children of a full root are not empty. -/
theorem Over.halves_ne {root : Nat} {node : BTreeNode} {children : List (Tree depth)}
    (stored : Over s root parent node children) (full : node.numKeys = maxKeys) :
    firstHalf children ≠ [] ∧ secondHalf children ≠ [] := by
  obtain ⟨enough, -, -⟩ := stored.counts
  have small : minKeys = 125 := rfl
  have large : maxKeys = 250 := rfl
  constructor
  · apply List.ne_nil_of_length_pos
    rw [firstHalf, List.length_take]
    omega
  · apply List.ne_nil_of_length_pos
    rw [secondHalf, List.length_drop]
    omega

/-- A node over trees without empty nodes. -/
theorem overTree_filled {children : List (Tree depth)} (block : Nat) (nonempty : children ≠ [])
    (filled : ∀ child ∈ children, child.leaves ≠ [] ∧ child.Filled) :
    (overTree block children).leaves ≠ [] ∧ (overTree block children).Filled := by
  refine ⟨?_, filled⟩
  obtain ⟨child, isChild⟩ := List.exists_mem_of_ne_nil _ nonempty
  obtain ⟨leaf, inside⟩ := List.exists_mem_of_ne_nil _ (filled child isChild).1
  exact List.ne_nil_of_mem (List.mem_flatMap.mpr ⟨child, isChild, inside⟩)

/-- `btree_split_root` of a full root: with two free blocks the tree is stored with one level more. -/
theorem btreeSplitRoot_deep {root : Nat} {children : List (Tree depth)} {node : BTreeNode}
    (owned : Owned s (overTree root children).blocks) (stores : Stores s parent (overTree root children))
    (filled : (overTree root children).Filled) (load : btreeNodeLoad s root = some node)
    (full : node.numKeys = maxKeys) (room : 2 ≤ s.freeCount) :
    ∃ childA childB split s', btreeSplitRoot s node = some (split, s') ∧
      SplitApart s' root parent childA childB node children ∧
      (tallerTree root childA childB children).leaves = (overTree root children).leaves := by
  obtain ⟨inner, stored⟩ := stores_over.mp stores
  obtain rfl := Option.some.inj (load.symm.trans stored.load)
  have keyed : ∀ i < maxKeys, ∀ child, children[i]? = some child → child.maxKey = some child.peak := by
    intro i _ child atIndex
    obtain ⟨some_leaf, below⟩ := filled child (List.mem_of_getElem? atIndex)
    rw [Tree.maxKey_eq some_leaf, Tree.peak_eq below some_leaf]
  obtain ⟨childA, childB, split, s', run, result⟩ : ∃ childA childB split s',
      btreeSplitRoot s node = some (split, s') ∧ RootSplit s root parent node children
        (overTree root children).blocks childA childB s' :=
    btreeSplitRoot_trees owned (fun _ inside => inside) owned.distinct room stored full keyed
  obtain ⟨nonemptyA, nonemptyB⟩ := stored.halves_ne full
  obtain ⟨leafA, filledA⟩ := overTree_filled childA nonemptyA
    fun child inside => filled child (List.mem_of_mem_take inside)
  obtain ⟨leafB, filledB⟩ := overTree_filled childB nonemptyB
    fun child inside => filled child (List.mem_of_mem_drop inside)
  have owned' := result.owned.perm (tallerTree_blocks root childA childB children)
  obtain ⟨top, loadTop, count, head, holds⟩ := result.top
  obtain ⟨nodeA, storedA, rightA⟩ := result.left
  obtain ⟨nodeB, storedB, leftB, -⟩ := result.right
  have nonzero := result.owned.nonzero
  refine ⟨childA, childB, split, s', run, ?_, tallerTree_leaves root childA childB children⟩
  refine ⟨?_, owned', ?_, ⟨top, loadTop, count, head⟩, ⟨nodeA, storedA.load, rightA⟩,
    ⟨nodeB, storedB.load, leftB⟩⟩
  · apply stores_over.mpr
    refine ⟨top, loadTop, ?_, List.forall_mem_cons.mpr ⟨⟨?_, stores_over.mpr ⟨nodeA, storedA⟩⟩,
      List.forall_mem_singleton.mpr ⟨?_, stores_over.mpr ⟨nodeB, storedB⟩⟩⟩⟩
    · rw [Tree.peak_eq filledA leafA, Tree.peak_eq filledB leafB, ← Tree.maxKey_eq leafA,
        ← Tree.maxKey_eq leafB] at holds
      exact holds
    · exact nonzero childA List.mem_cons_self
    · exact nonzero childB (List.mem_cons_of_mem _ List.mem_cons_self)
  · exact List.forall_mem_cons.mpr ⟨⟨leafA, filledA⟩, List.forall_mem_singleton.mpr ⟨leafB, filledB⟩⟩

/-- Nodes over one leaf each. -/
def singles (count : Nat) : List (Tree 1) :=
  (List.range count).map fun i => flatTree (3 + 2 * i) [⟨4 + 2 * i, i + 1, 0, 0⟩]

/-- A full root over nodes over one leaf each. -/
def fullTree : Tree 2 := overTree 2 (singles maxKeys)

/-- The root over the full tree. -/
def fullRoot : BTreeNode := nodeOver 2 0 ((singles maxKeys).map fun child => (child.block, child.maxKey))

/-- The blocks of the full tree are consecutive. -/
theorem fullTree_blocks : fullTree.blocks = List.range' 2 501 := by decide +kernel

/-- A full root is split. -/
theorem btreeSplitRoot_deep_full :
    ∃ childA childB split s', btreeSplitRoot (fullTree.image 600) fullRoot = some (split, s') ∧
      SplitApart s' 2 0 childA childB fullRoot (singles maxKeys) ∧
      (tallerTree 2 childA childB (singles maxKeys)).leaves = fullTree.leaves := by
  have distinct : fullTree.blocks.Nodup := by
    rw [fullTree_blocks]
    exact List.nodup_range'
  have inside : ∀ block ∈ fullTree.blocks, 1 < block ∧ block < 600 := by
    rw [fullTree_blocks]
    intro block isBlock
    obtain ⟨first, last⟩ := List.mem_range'_1.mp isBlock
    omega
  have fits : fullTree.Fits := by decide +kernel
  exact btreeSplitRoot_deep (Tree.image_owned (by decide) (by decide) distinct inside)
    (Tree.image_stores fits distinct inside) fits.filled
    (Tree.image_load distinct inside _ List.mem_cons_self) (by decide +kernel)
    (nodeStore_free (by decide) (show [590, 591].Nodup by decide) (by decide +kernel))

/-- Nodes over one leaf each and an empty node. -/
def crowded : List (Tree 1) := singles maxKeys ++ [flatTree 503 []]

/-- A full root over nodes over one leaf each and an empty node as its last child. -/
def crowdedTree : Tree 2 := overTree 2 crowded

/-- The root of the crowded tree. -/
def crowdedRoot : BTreeNode :=
  nodeOver 2 0 (crowded.map fun child => (child.block, child.maxKey))

/-- The blocks of the crowded tree are consecutive. -/
theorem crowdedTree_blocks : crowdedTree.blocks = List.range' 2 502 := by decide +kernel

/-- The crowded tree is stored in its image. -/
theorem crowdedTree_over :
    Over (crowdedTree.image 600) 2 0 crowdedRoot crowded := by
  have distinct : crowdedTree.blocks.Nodup := by
    rw [crowdedTree_blocks]
    exact List.nodup_range'
  have inside : ∀ block ∈ crowdedTree.blocks, 1 < block ∧ block < 600 := by
    rw [crowdedTree_blocks]
    intro block isBlock
    obtain ⟨first, last⟩ := List.mem_range'_1.mp isBlock
    omega
  have loads := Tree.image_load distinct inside
  have fits : ∀ child ∈ crowded, Tree.block child ≠ 0 ∧ Tree.Fits child := by
    decide +kernel
  have keyed : (crowded.map
      fun child => (child.block, child.maxKey)).take maxKeys =
      (singles maxKeys).map fun child => (child.block, child.maxKey) := by decide +kernel
  refine ⟨loads _ List.mem_cons_self, nodeOver_keyed (by decide +kernel) ?_, ?_⟩
  · rw [keyed]
    intro child isChild
    obtain ⟨tree, isTree, rfl⟩ := List.mem_map.mp isChild
    obtain ⟨i, -, rfl⟩ := List.mem_map.mp isTree
    exact ⟨i + 1, rfl⟩
  · intro child isChild
    refine ⟨(fits child isChild).1, stores_of_nodes (fits child isChild).2 2 fun node isNode => ?_⟩
    exact loads node (List.mem_cons_of_mem _ (List.mem_flatMap.mpr ⟨child, isChild, isNode⟩))

/-- With an empty node as the last child of a full root, the split leaves a root whose second key is not
the largest one below its child. -/
theorem btreeSplitRoot_deep_false :
    ¬ ∀ (s : Store) (depth parent root : Nat) (children : List (Tree depth)) (node : BTreeNode),
      Owned s (overTree root children).blocks → Stores s parent (overTree root children) →
      Increasing (overTree root children).leaves → btreeNodeLoad s root = some node →
      node.numKeys = maxKeys → 2 ≤ s.freeCount →
      ∃ split s', btreeSplitRoot s node = some (split, s') ∧
        ∃ grown : Tree (depth + 2), Stores s' parent grown ∧ grown.block = root ∧
          grown.leaves = (overTree root children).leaves := by
  intro claim
  have stored := crowdedTree_over
  have owned : Owned (crowdedTree.image 600) crowdedTree.blocks := by
    apply Tree.image_owned (by decide) (by decide)
    · rw [crowdedTree_blocks]
      exact List.nodup_range'
    · rw [crowdedTree_blocks]
      intro block isBlock
      obtain ⟨first, last⟩ := List.mem_range'_1.mp isBlock
      omega
  have full : crowdedRoot.numKeys = maxKeys := by decide +kernel
  have room : [590, 591].length ≤ (crowdedTree.image 600).freeCount :=
    nodeStore_free (by decide) (by decide) (by decide +kernel)
  have keys : crowdedTree.leaves.map Leaf.key = List.range' 1 maxKeys := by decide +kernel
  have increasing : Increasing crowdedTree.leaves := by
    unfold Increasing
    rw [keys]
    exact List.pairwise_lt_range'
  obtain ⟨split, s', run, grown, stores, root, leaves⟩ := claim (crowdedTree.image 600) 1 0 2 crowded
    crowdedRoot owned (stores_over.mpr ⟨_, stored⟩) increasing stored.load full room
  have keyed : ∀ i < maxKeys, ∀ child, crowded[i]? = some child →
      child.maxKey = some child.peak := by
    intro i small child atIndex
    have inside : i < (singles maxKeys).length := by
      unfold singles
      rw [List.length_map, List.length_range]
      exact small
    unfold crowded at atIndex
    rw [List.getElem?_append_left inside] at atIndex
    obtain ⟨j, -, rfl⟩ := List.mem_map.mp (List.mem_of_getElem? atIndex)
    rfl
  obtain ⟨childA, childB, split', s'', run', result⟩ :
      ∃ childA childB split s', btreeSplitRoot (crowdedTree.image 600) crowdedRoot = some (split, s') ∧
        RootSplit (crowdedTree.image 600) 2 0 crowdedRoot crowded
          crowdedTree.blocks childA childB s' :=
    btreeSplitRoot_trees owned (fun _ inside => inside) owned.distinct room stored full keyed
  obtain ⟨-, rfl⟩ := Prod.mk.inj (Option.some.inj (run.symm.trans run'))
  -- the second key of the root is 0, but all keys are positive
  obtain ⟨top, loadTop, count, -, holds⟩ := result.top
  have zero : top.keys 1 = 0 := by
    have key := holds.keys 1 (by omega)
    exact (Option.some.inj key).symm
  obtain ⟨block, subtrees⟩ := grown
  obtain ⟨inner, holdsGrown⟩ := stores_over.mp stores
  have same : block = 2 := root
  rw [same] at holdsGrown
  obtain rfl := Option.some.inj (loadTop.symm.trans holdsGrown.load)
  obtain ⟨enough, -, -⟩ := holdsGrown.counts
  obtain ⟨second, atSecond⟩ : ∃ child, subtrees[1]? = some child :=
    ⟨_, List.getElem?_eq_getElem (by omega)⟩
  have largest := holdsGrown.keyAt (by omega : 1 < top.numKeys) atSecond
  rw [zero] at largest
  obtain ⟨leaf, isLast, isZero⟩ := Option.map_eq_some_iff.mp largest
  have inTree : leaf ∈ crowdedTree.leaves := by
    have inGrown : leaf ∈ subtrees.flatMap Tree.leaves :=
      List.mem_flatMap.mpr ⟨second, List.mem_of_getElem? atSecond, List.mem_of_getLast? isLast⟩
    have sameLeaves : subtrees.flatMap Tree.leaves = crowdedTree.leaves := leaves
    rwa [sameLeaves] at inGrown
  have isKey : leaf.key ∈ List.range' 1 maxKeys := by
    rw [← keys]
    exact List.mem_map_of_mem inTree
  obtain ⟨positive, -⟩ := List.mem_range'_1.mp isKey
  omega

end

end Nbtrfs
