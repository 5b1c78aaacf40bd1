import Nbtrfs.BTree.Split

/-!
# The target of an insertion

`btree_insertion_search` in a root over leaves and in a root over two nodes over leaves, and the
keys of such a root after a leaf is added to one of its nodes.
-/

namespace Nbtrfs

section

variable {s s' : Store}

/-- In a tree of depth 1 the target is the root. -/
theorem btreeInsertionSearch_flat {root : Nat} {node : BTreeNode} {leaves : List Leaf} (key : Nat)
    (stored : OverLeaves s root 0 node leaves) :
    btreeInsertionSearch s root key = some root := by
  have inside := (load_eq_some.mp stored.load).1
  obtain ⟨depth, small, run⟩ :=
    btreeFindDepth_flat (stores_flatTree.mpr ⟨node, stored⟩) (by omega : 0 < s.totalBlocks)
  rw [flatTree_block] at run
  have number := stored.holds.blockNumber
  simp [btreeInsertionSearch, stored.load, number, run, small]

/-- The two nodes of a split tree, from its root. -/
theorem SplitTree.children {root childA childB : Nat} {leavesA leavesB : List Leaf}
    {node : BTreeNode} (holds : InnerNode node root 0
      [(childA, some (lastKey leavesA)), (childB, some (lastKey leavesB))]) :
    node.children 0 = childA ∧ node.children 1 = childB ∧ node.children 2 = 0 := by
  have room : 2 ≤ maxKeys := by decide
  exact ⟨holds.slots 0 (by omega), holds.slots 1 (by omega), holds.slots 2 room⟩

/-- In a split tree the target is the node whose maximum bounds the key, or the second one. -/
theorem SplitTree.insertionSearch {root childA childB : Nat} {leavesA leavesB : List Leaf}
    (tree : SplitTree s root childA childB leavesA leavesB) (nonempty : leavesA ≠ [])
    (nonzeroA : childA ≠ 0) (nonzeroB : childB ≠ 0) (apart : root ≠ childA) (key : Nat) :
    btreeInsertionSearch s root key = some (if key ≤ lastKey leavesA then childA else childB) := by
  obtain ⟨⟨node, load, count, holds⟩, ⟨nodeA, storedA⟩, ⟨nodeB, storedB⟩⟩ := tree
  obtain ⟨slotA, slotB, slotNone⟩ := SplitTree.children holds
  have number := holds.blockNumber
  obtain ⟨fuel, enough⟩ : ∃ fuel, s.walkFuel = fuel + 3 := ⟨s.totalBlocks - 2, by
    have insideRoot := (load_eq_some.mp load).1
    have insideA := (load_eq_some.mp storedA.load).1
    unfold Store.walkFuel
    omega⟩
  have depth : btreeFindDepth s root = some 2 := by
    obtain ⟨first, rest, isCons⟩ := List.exists_cons_of_ne_nil nonempty
    have atZero : leavesA[0]? = some first := by rw [isCons]; rfl
    obtain ⟨slot, nonzero, child, loadLeaf, isLeaf⟩ := storedA.leafAt (Nat.zero_le _) atZero
    simp [btreeFindDepth, load, enough, btreeFindDepthFrom, holds.isLeaf, slotA, nonzeroA,
      btreeNodeReload, btreeNodeRead_of_load storedA.load, storedA.holds.isLeaf, slot, nonzero,
      btreeNodeRead_of_load loadLeaf, isLeaf.isLeaf]
  have maxA := btreeFindMaximum_overLeaves storedA
  have maxB := btreeFindMaximum_overLeaves storedB
  have last : node.lastChild = some childB := by
    rw [holds.lastChild_eq]
    · rfl
    · intro child isChild
      rcases List.mem_cons.mp isChild with first | second
      · rw [first]
        exact nonzeroA
      · rw [List.mem_singleton.mp second]
        exact nonzeroB
  have reloadA : btreeNodeReload s childA node = some nodeA := by
    simp [btreeNodeReload, btreeNodeRead_of_load storedA.load]
  have reloadB : btreeNodeReload s childB node = some nodeB := by
    simp [btreeNodeReload, btreeNodeRead_of_load storedB.load]
  have numberA := storedA.holds.blockNumber
  have numberB := storedB.holds.blockNumber
  by_cases low : key ≤ lastKey leavesA
  · simp [btreeInsertionSearch, load, slotA, nonzeroA, depth, insertionDescend, insertionIndex,
      count, maxA, low, reloadA, numberA]
  · by_cases middle : key ≤ lastKey leavesB
    · simp [btreeInsertionSearch, load, slotA, slotB, nonzeroA, nonzeroB, depth, insertionDescend,
        insertionIndex, count, maxA, maxB, low, middle, reloadB, numberB]
    · simp [btreeInsertionSearch, load, slotA, slotB, slotNone, nonzeroA, nonzeroB, depth,
        insertionDescend, insertionIndex, count, maxA, maxB, low, middle, last, reloadB, numberB]

/-- The update of the root's keys after a change of one of its two nodes. -/
theorem btreeUpdateParentKeys_split {root childA childB : Nat} {maxA maxB : Option Nat}
    {leavesA leavesB : List Leaf} {node top nodeA nodeB : BTreeNode}
    (nonzeroA : childA ≠ 0) (nonzeroB : childB ≠ 0) (nonzeroRoot : root ≠ 0)
    (apartA : childA ≠ root) (apartB : childB ≠ root) (outsideA : root ∉ leavesA.map Leaf.block)
    (outsideB : root ∉ leavesB.map Leaf.block) (parent : node.parent = root)
    (load : btreeNodeLoad s root = some top) (count : top.numKeys = 2)
    (holds : InnerNode top root 0 [(childA, maxA), (childB, maxB)])
    (storedA : OverLeaves s childA root nodeA leavesA)
    (storedB : OverLeaves s childB root nodeB leavesB) :
    ∃ s', btreeUpdateParentKeys s node = some s' ∧
      SplitTree s' root childA childB leavesA leavesB ∧ ChangesOnly s [root] s' := by
  have slots : NodeSlots top root 0
      ([(childA, lastKey leavesA), (childB, lastKey leavesB)].map Prod.fst) := holds.nodeSlots
  obtain ⟨refreshed, refresh, count', holds'⟩ := @refreshKeys_spec s _ _ _ _ slots (by
    intro child isChild
    rcases List.mem_cons.mp isChild with first | second
    · rw [first]
      exact ⟨nonzeroA, btreeFindMaximum_overLeaves storedA⟩
    · rw [List.mem_singleton.mp second]
      exact ⟨nonzeroB, btreeFindMaximum_overLeaves storedB⟩)
  obtain ⟨s', write, change⟩ := btreeNodeWrite_at holds'.blockNumber load
  have keptA := storedA.congr (change.other apartA) fun leaf inside => change.other fun same =>
    outsideA (same ▸ List.mem_map_of_mem inside)
  have keptB := storedB.congr (change.other apartB) fun leaf inside => change.other fun same =>
    outsideB (same ▸ List.mem_map_of_mem inside)
  refine ⟨s', ?_, ⟨⟨refreshed, change.here, count'.trans count, holds'⟩, ⟨_, keptA⟩, ⟨_, keptB⟩⟩,
    change.changesOnly⟩
  simp [btreeUpdateParentKeys, parent, nonzeroRoot, load, refresh, write]

/-- The root of a tree of depth 1 has no parent to update. -/
theorem btreeUpdateParentKeys_root {node : BTreeNode} (parent : node.parent = 0) :
    btreeUpdateParentKeys s node = some s := by
  unfold btreeUpdateParentKeys
  rw [if_pos parent]

/-- The blocks of a leaf added to a node. -/
theorem not_mem_insertIdx {block place : Nat} {leaves : List Leaf} {leaf : Leaf}
    (distinct : block ≠ leaf.block) (outside : block ∉ leaves.map Leaf.block) :
    block ∉ (leaves.insertIdx place leaf).map Leaf.block := by
  intro inside
  obtain ⟨other, isOther, same⟩ := List.mem_map.mp inside
  rcases List.eq_or_mem_of_mem_insertIdx isOther with here | there
  · exact distinct (by rw [← same, here])
  · exact outside (same ▸ List.mem_map_of_mem there)

/-- A node apart from the target and the new leaf is kept. -/
theorem LeafAdded.kept {block target parent place : Nat} {leaves otherLeaves : List Leaf} {leaf : Leaf}
    {node other : BTreeNode} (added : LeafAdded s target parent leaves place leaf node s')
    (stored : OverLeaves s block parent other otherLeaves) (notLeaf : block ≠ leaf.block)
    (notTarget : block ≠ target) (leafOutside : leaf.block ∉ otherLeaves.map Leaf.block)
    (targetOutside : target ∉ otherLeaves.map Leaf.block) :
    OverLeaves s' block parent other otherLeaves := by
  apply stored.congr (added.changes.other block (by simp [notLeaf, notTarget]))
  intro child inside
  have here : child.block ∈ otherLeaves.map Leaf.block := List.mem_map_of_mem inside
  apply added.changes.other
  simp only [List.mem_cons, List.not_mem_nil, or_false, not_or]
  exact ⟨fun same => leafOutside (same ▸ here), fun same => targetOutside (same ▸ here)⟩

/-- The blocks of a split tree and of a spare leaf are distinct. -/
structure SplitDistinct (root childA childB : Nat) (leavesA leavesB : List Leaf) (leaf : Leaf) :
    Prop where
  /-- The two nodes are apart. -/
  nodes : childA ≠ childB
  /-- The root is neither node. -/
  rootNodes : root ≠ childA ∧ root ≠ childB
  /-- The spare leaf is no internal node. -/
  leafNodes : leaf.block ≠ childA ∧ leaf.block ≠ childB ∧ leaf.block ≠ root
  /-- The internal nodes are not among the first leaves. -/
  outsideA : ∀ block ∈ [root, childA, childB, leaf.block], block ∉ leavesA.map Leaf.block
  /-- The internal nodes are not among the second leaves. -/
  outsideB : ∀ block ∈ [root, childA, childB, leaf.block], block ∉ leavesB.map Leaf.block
  /-- The leaves are distinct. -/
  leaves : ((leavesA ++ leavesB).map Leaf.block).Nodup

/-- The blocks of a spare leaf and a split tree. -/
def splitBlocks (root childA childB : Nat) (leaves : List Leaf) (leaf : Leaf) : List Nat :=
  childA :: childB :: leaf.block :: root :: leaves.map Leaf.block

/-- Owned blocks of a split tree are distinct. -/
theorem Owned.splitDistinct {root childA childB : Nat} {leavesA leavesB : List Leaf} {leaf : Leaf}
    (owned : Owned s (splitBlocks root childA childB (leavesA ++ leavesB) leaf)) :
    SplitDistinct root childA childB leavesA leavesB leaf := by
  have distinct := owned.distinct
  rw [splitBlocks, List.nodup_cons, List.nodup_cons, List.nodup_cons, List.nodup_cons] at distinct
  obtain ⟨notA, notB, notLeaf, notRoot, leaves⟩ := distinct
  simp only [List.map_append, List.mem_cons, List.mem_append, not_or] at notA notB notLeaf notRoot
  refine ⟨notA.1, ⟨Ne.symm notA.2.2.1, Ne.symm notB.2.1⟩,
    ⟨Ne.symm notA.2.1, Ne.symm notB.1, notLeaf.1⟩, ?_, ?_, leaves⟩
  · intro block inside
    simp only [List.mem_cons, List.not_mem_nil, or_false] at inside
    rcases inside with rfl | rfl | rfl | rfl
    · exact notRoot.1
    · exact notA.2.2.2.1
    · exact notB.2.2.1
    · exact notLeaf.2.1
  · intro block inside
    simp only [List.mem_cons, List.not_mem_nil, or_false] at inside
    rcases inside with rfl | rfl | rfl | rfl
    · exact notRoot.2
    · exact notA.2.2.2.2
    · exact notB.2.2.2
    · exact notLeaf.2.2

/-- The internal blocks of a split tree are not block 0. -/
theorem Owned.splitNonzero {root childA childB : Nat} {leaves : List Leaf} {leaf : Leaf}
    (owned : Owned s (splitBlocks root childA childB leaves leaf)) :
    childA ≠ 0 ∧ childB ≠ 0 ∧ leaf.block ≠ 0 ∧ root ≠ 0 := by
  refine ⟨owned.nonzero _ ?_, owned.nonzero _ ?_, owned.nonzero _ ?_, owned.nonzero _ ?_⟩ <;>
    simp [splitBlocks]

/-- A leaf added to the first node of a split tree, and the update of the root's keys. -/
theorem SplitTree.leafAdded_left {root childA childB place : Nat} {leavesA leavesB : List Leaf}
    {leaf : Leaf} {node : BTreeNode} (tree : SplitTree s root childA childB leavesA leavesB)
    (owned : Owned s (splitBlocks root childA childB (leavesA ++ leavesB) leaf))
    (added : LeafAdded s childA root leavesA place leaf node s') :
    ∃ s'', btreeUpdateParentKeys s' node = some s'' ∧ SameBitmap s s'' ∧
      SplitTree s'' root childA childB (leavesA.insertIdx place leaf) leavesB := by
  obtain ⟨⟨top, load, count, holds⟩, -, ⟨nodeB, storedB⟩⟩ := tree
  have apart := owned.splitDistinct
  obtain ⟨nonzeroA, nonzeroB, -, nonzeroRoot⟩ := owned.splitNonzero
  have loadRoot : btreeNodeLoad s' root = some top := by
    rw [added.changes.other root (by simp [apart.rootNodes.1, Ne.symm apart.leafNodes.2.2]), load]
  have keptB := added.kept storedB (Ne.symm apart.leafNodes.2.1) (Ne.symm apart.nodes)
    (apart.outsideB leaf.block (by simp)) (apart.outsideB childA (by simp))
  obtain ⟨s'', update, tree', changes⟩ := btreeUpdateParentKeys_split nonzeroA nonzeroB nonzeroRoot
    (Ne.symm apart.rootNodes.1) (Ne.symm apart.rootNodes.2)
    (not_mem_insertIdx (Ne.symm apart.leafNodes.2.2) (apart.outsideA root (by simp)))
    (apart.outsideB root (by simp)) added.stored.holds.parent loadRoot count holds added.stored keptB
  exact ⟨s'', update, added.changes.bitmap.trans changes.bitmap, tree'⟩

/-- A leaf added to the second node of a split tree, and the update of the root's keys. -/
theorem SplitTree.leafAdded_right {root childA childB place : Nat} {leavesA leavesB : List Leaf}
    {leaf : Leaf} {node : BTreeNode} (tree : SplitTree s root childA childB leavesA leavesB)
    (owned : Owned s (splitBlocks root childA childB (leavesA ++ leavesB) leaf))
    (added : LeafAdded s childB root leavesB place leaf node s') :
    ∃ s'', btreeUpdateParentKeys s' node = some s'' ∧ SameBitmap s s'' ∧
      SplitTree s'' root childA childB leavesA (leavesB.insertIdx place leaf) := by
  obtain ⟨⟨top, load, count, holds⟩, ⟨nodeA, storedA⟩, -⟩ := tree
  have apart := owned.splitDistinct
  obtain ⟨nonzeroA, nonzeroB, -, nonzeroRoot⟩ := owned.splitNonzero
  have loadRoot : btreeNodeLoad s' root = some top := by
    rw [added.changes.other root (by simp [apart.rootNodes.2, Ne.symm apart.leafNodes.2.2]), load]
  have keptA := added.kept storedA (Ne.symm apart.leafNodes.1) apart.nodes
    (apart.outsideA leaf.block (by simp)) (apart.outsideA childB (by simp))
  obtain ⟨s'', update, tree', changes⟩ := btreeUpdateParentKeys_split nonzeroA nonzeroB nonzeroRoot
    (Ne.symm apart.rootNodes.1) (Ne.symm apart.rootNodes.2) (apart.outsideA root (by simp))
    (not_mem_insertIdx (Ne.symm apart.leafNodes.2.2) (apart.outsideB root (by simp)))
    added.stored.holds.parent loadRoot count holds keptA added.stored
  exact ⟨s'', update, added.changes.bitmap.trans changes.bitmap, tree'⟩

end

end Nbtrfs
