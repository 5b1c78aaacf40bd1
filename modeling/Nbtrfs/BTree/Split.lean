import Nbtrfs.BTree.Over

/-!
# Keys of parents and the split of the root

`btree_update_parent_keys` and `btree_split_root`. A full root over trees of any depth becomes a root
over two nodes, the first with 126 of the trees and the second with the others.
-/

namespace Nbtrfs

section

variable {s s' : Store}

/-- A node over child blocks, whatever its keys. -/
structure NodeSlots (node : BTreeNode) (block parent : Nat) (blocks : List Nat) : Prop where
  /-- The node is not a leaf. -/
  isLeaf : node.isLeaf = false
  /-- The node names its block. -/
  blockNumber : node.blockNumber = block
  /-- The node names its parent. -/
  parent : node.parent = parent
  /-- The keys fit the array. -/
  fits : node.numKeys ≤ maxKeys
  /-- There is a child for every key. -/
  enough : node.numKeys ≤ blocks.length
  /-- There is at most one child more than keys. -/
  extra : blocks.length ≤ node.numKeys + 1
  /-- The children are in the first slots and the other slots are 0. -/
  slots : ∀ i ≤ maxKeys, node.children i = blocks[i]?.getD 0

/-- An internal node stands over the blocks of its children. -/
theorem InnerNode.nodeSlots {node : BTreeNode} {block parent : Nat}
    {children : List (Nat × Option Nat)} (holds : InnerNode node block parent children) :
    NodeSlots node block parent (children.map Prod.fst) where
  isLeaf := holds.isLeaf
  blockNumber := holds.blockNumber
  parent := holds.parent
  fits := holds.fits
  enough := by
    rw [List.length_map]
    exact holds.enough
  extra := by
    rw [List.length_map]
    exact holds.extra
  slots i small := by
    rw [holds.slots i small, List.getElem?_map]
    cases children[i]? <;> rfl

/-- A computation that succeeds on every element succeeds on the list. -/
theorem mapM_some {compute : Nat → Option Nat} {result : Nat → Nat} (list : List Nat)
    (succeeds : ∀ element ∈ list, compute element = some (result element)) :
    list.mapM compute = some (list.map result) := by
  induction list with
  | nil => rfl
  | cons first rest ih =>
    rw [List.mapM_cons, succeeds first List.mem_cons_self,
      ih fun element inside => succeeds element (List.mem_cons_of_mem _ inside)]
    rfl

/-- The key loop sets the keys to the maxima of the children. -/
theorem refreshKeys_spec {node : BTreeNode} {block parent : Nat} {children : List (Nat × Nat)}
    (holds : NodeSlots node block parent (children.map Prod.fst))
    (maxima : ∀ child ∈ children, child.1 ≠ 0 ∧ btreeFindMaximum s child.1 = some child.2) :
    ∃ refreshed, refreshKeys s node = some refreshed ∧ refreshed.numKeys = node.numKeys ∧
      InnerNode refreshed block parent (children.map fun child => (child.1, some child.2)) := by
  have fits := holds.fits
  have enough := holds.enough
  have extra := holds.extra
  rw [List.length_map] at enough extra
  have maximumAt : ∀ i ∈ List.range node.numKeys,
      (if node.children i ≠ 0 then btreeFindMaximum s (node.children i) else some (node.keys i)) =
        some ((children[i]?.map Prod.snd).getD 0) := by
    intro i inside
    have small := List.mem_range.mp inside
    obtain ⟨child, atIndex⟩ : ∃ child, children[i]? = some child :=
      ⟨_, List.getElem?_eq_getElem (by omega)⟩
    obtain ⟨nonzero, maximum⟩ := maxima child (List.mem_of_getElem? atIndex)
    have slot : node.children i = child.1 := by
      rw [holds.slots i (by omega), List.getElem?_map, atIndex]
      rfl
    rw [slot, if_pos nonzero, maximum, atIndex]
    rfl
  refine ⟨{ node with keys := fun i => ((List.range node.numKeys).map fun i =>
    (children[i]?.map Prod.snd).getD 0).getD i (node.keys i) }, ?_, rfl, ?_⟩
  · unfold refreshKeys
    rw [if_neg (by omega), mapM_some _ maximumAt]
    rfl
  · refine ⟨holds.isLeaf, holds.blockNumber, holds.parent, fits, ?_, ?_, ?_, ?_⟩
    · rw [List.length_map]
      exact enough
    · rw [List.length_map]
      exact extra
    · intro i small
      have small' : i < node.numKeys := small
      obtain ⟨child, atIndex⟩ : ∃ child, children[i]? = some child :=
        ⟨_, List.getElem?_eq_getElem (by omega)⟩
      rw [List.getElem?_map, atIndex]
      show some child.2 = some (((List.range node.numKeys).map fun i =>
        (children[i]?.map Prod.snd).getD 0).getD i (node.keys i))
      rw [List.getD_eq_getElem?_getD, List.getElem?_map, List.getElem?_range small', Option.map_some,
        Option.getD_some, atIndex]
      rfl
    · intro i small
      show node.children i = _
      rw [holds.slots i small, List.getElem?_map, List.getElem?_map]
      cases children[i]? <;> rfl

/-- The key loop keeps the fields beside the arrays. -/
theorem refreshKeys_head {node refreshed : BTreeNode} (refresh : refreshKeys s node = some refreshed) :
    SameHead node refreshed := by
  unfold refreshKeys at refresh
  split at refresh
  · cases refresh
  · obtain ⟨maxima, -, rest⟩ := Option.bind_eq_some_iff.mp refresh
    obtain rfl := Option.some.inj rest
    exact ⟨rfl, rfl, rfl, rfl⟩

/-- The slots of a node from an index on. -/
theorem NodeSlots.indices {node : BTreeNode} {block parent : Nat} {blocks : List Nat}
    (holds : NodeSlots node block parent blocks) (first bound : Nat) (small : bound ≤ maxKeys + 1) :
    (Nbtrfs.indices first bound).map node.children = (blocks.drop first).take (bound - first)
      ++ List.replicate (bound - max first blocks.length) 0 := by
  apply List.ext_getElem?
  intro i
  unfold Nbtrfs.indices
  rw [List.map_map, List.getElem?_map]
  by_cases inside : i < bound - first
  · rw [List.getElem?_range inside, Option.map_some]
    show some (node.children (first + i)) = _
    rw [holds.slots _ (by omega)]
    by_cases isChild : first + i < blocks.length
    · rw [List.getElem?_append_left (by
        rw [List.length_take, List.length_drop]
        omega), List.getElem?_take_of_lt inside, List.getElem?_drop, List.getElem?_eq_getElem isChild]
      rfl
    · rw [List.getElem?_append_right (by
        rw [List.length_take, List.length_drop]
        omega), List.length_take, List.length_drop, List.getElem?_replicate_of_lt (by omega),
        List.getElem?_eq_none (by omega)]
      rfl
  · rw [List.getElem?_eq_none (by
      rw [List.length_range]
      omega), List.getElem?_eq_none (by
      rw [List.length_append, List.length_take, List.length_drop, List.length_replicate]
      omega)]
    rfl

section

variable {Element : Type}

/-- The children that the first half gets. -/
def firstHalf (children : List Element) : List Element := children.take (minKeys + 1)

/-- The children that the second half gets. -/
def secondHalf (children : List Element) : List Element := children.drop (minKeys + 1)

/-- The halves are the children. -/
theorem halves_append (children : List Element) : firstHalf children ++ secondHalf children = children :=
  List.take_append_drop _ _

end

/-- The copied children of the first half. -/
theorem NodeSlots.copyFrom_first {node : BTreeNode} {block parent : Nat} {blocks : List Nat}
    (holds : NodeSlots node block parent blocks) (i : Nat) (small : i ≤ maxKeys) :
    copyFrom (fun _ => 0) node.children 0 (minKeys + 1) i = (firstHalf blocks)[i]?.getD 0 := by
  unfold copyFrom firstHalf
  by_cases inside : i < minKeys + 1
  · rw [if_pos inside, List.getElem?_take_of_lt inside, Nat.add_zero, holds.slots i small]
  · rw [if_neg inside, List.getElem?_eq_none (by
      rw [List.length_take]
      omega)]
    rfl

/-- The copied children of the second half. -/
theorem NodeSlots.copyFrom_second {node : BTreeNode} {block parent : Nat} {blocks : List Nat}
    (holds : NodeSlots node block parent blocks) (full : node.numKeys = maxKeys) (i : Nat) :
    copyFrom (fun _ => 0) node.children (minKeys + 1) (node.numKeys - minKeys) i =
      (secondHalf blocks)[i]?.getD 0 := by
  have extra := holds.extra
  have half : minKeys + minKeys = maxKeys := rfl
  unfold copyFrom secondHalf
  rw [List.getElem?_drop, Nat.add_comm (minKeys + 1) i]
  by_cases inside : i < node.numKeys - minKeys
  · rw [if_pos inside, holds.slots _ (by omega)]
  · rw [if_neg inside, List.getElem?_eq_none (by omega)]
    rfl

section Trees

variable {depth : Nat}

/-- The children of a full root are shared out to two new nodes. -/
structure Halved (s : Store) (children : List (Tree depth)) (blocks : List Nat) (childA childB : Nat)
    (nodeA nodeB : BTreeNode) (s' : Store) : Prop where
  /-- The new blocks are owned with the old ones. -/
  owned : Owned s' (childA :: childB :: blocks)
  /-- The first new node. -/
  loadA : btreeNodeLoad s' childA = some nodeA
  /-- Its children. -/
  slotsA : NodeSlots nodeA childA 0 ((firstHalf children).map Tree.block)
  /-- Its right sibling. -/
  rightA : nodeA.rightSibling = childB
  /-- The trees below it. -/
  treesA : ∀ child ∈ firstHalf children, child.block ≠ 0 ∧ Stores s' childA child
  /-- The second new node. -/
  loadB : btreeNodeLoad s' childB = some nodeB
  /-- Its children. -/
  slotsB : NodeSlots nodeB childB 0 ((secondHalf children).map Tree.block)
  /-- Its left sibling. -/
  leftB : nodeB.leftSibling = childA
  /-- Its number of keys does not count an extra child. -/
  countB : nodeB.numKeys = minKeys - 1
  /-- The trees below it. -/
  treesB : ∀ child ∈ secondHalf children, child.block ≠ 0 ∧ Stores s' childB child
  /-- The other nodes are kept. -/
  other : ∀ block, block ≠ childA → block ≠ childB → block ∉ children.map Tree.block →
    btreeNodeLoad s' block = btreeNodeLoad s block

/-- The two halves share no block. -/
theorem halves_distinct {children : List (Tree depth)} (distinct : (children.flatMap Tree.blocks).Nodup) :
    ((firstHalf children).flatMap Tree.blocks).Nodup ∧
      ((secondHalf children).flatMap Tree.blocks).Nodup ∧
      ∀ block ∈ (firstHalf children).flatMap Tree.blocks,
        block ∉ (secondHalf children).flatMap Tree.blocks := by
  rw [← halves_append children, List.flatMap_append, List.nodup_append] at distinct
  obtain ⟨distinctA, distinctB, across⟩ := distinct
  exact ⟨distinctA, distinctB, fun block first second => across block first block second rfl⟩

/-- The blocks of the halves are blocks of the children. -/
theorem halves_blocks {children : List (Tree depth)} {block : Nat}
    (outside : block ∉ children.flatMap Tree.blocks) :
    block ∉ (firstHalf children).flatMap Tree.blocks ∧
      block ∉ (secondHalf children).flatMap Tree.blocks := by
  rw [← halves_append children, List.flatMap_append, List.mem_append, not_or] at outside
  exact outside

/-- Sharing out the children of a full root. -/
theorem splitRootChildren_spec {root parent : Nat} {node : BTreeNode} {children : List (Tree depth)}
    {blocks : List Nat} (owned : Owned s blocks)
    (inBlocks : ∀ block ∈ children.flatMap Tree.blocks, block ∈ blocks)
    (distinct : (children.flatMap Tree.blocks).Nodup) (room : 2 ≤ s.freeCount)
    (stored : Over s root parent node children) (full : node.numKeys = maxKeys) :
    ∃ childA childB nodeA nodeB s', splitRootChildren s node = some (childA, childB, s') ∧
      Halved s children blocks childA childB nodeA nodeB s' := by
  obtain ⟨enough, extra, -⟩ := stored.counts
  have half : minKeys + minKeys = maxKeys := rfl
  have small : minKeys = 125 := rfl
  have slots := stored.holds.nodeSlots
  rw [List.map_map] at slots
  have slots' : NodeSlots node root parent (children.map Tree.block) := slots
  obtain ⟨childA, typeA, s1, newA, createdA⟩ := btreeNodeNew_spec owned.formatted (by omega) false
  have owned1 := owned.created createdA
  have count := createdA.freeCount
  obtain ⟨childB, typeB, s2, newB, createdB⟩ := btreeNodeNew_spec owned1.formatted (by omega) false
  have owned2 := owned1.created createdB
  have apart : childA ≠ childB := by
    rintro rfl
    exact (List.nodup_cons.mp owned2.distinct).1 List.mem_cons_self
  have notIn : ∀ block ∈ children.flatMap Tree.blocks, block ≠ childA ∧ block ≠ childB := by
    intro block inside
    constructor
    · rintro rfl
      exact (List.nodup_cons.mp owned1.distinct).1 (inBlocks _ inside)
    · rintro rfl
      exact (List.nodup_cons.mp owned2.distinct).1 (List.mem_cons_of_mem _ (inBlocks _ inside))
  have loadA2 : btreeNodeLoad s2 childA = some (freshNode childA false typeA) := by
    rw [owned1.load_created createdB List.mem_cons_self, createdA.here]
  obtain ⟨s3, modifyA, changeA⟩ := btreeNodeModify_spec loadA2 fun fresh => { fresh with
    rightSibling := childB
    children := copyFrom fresh.children node.children 0 (minKeys + 1)
    numKeys := fresh.numKeys + minKeys }
  have loadB3 : btreeNodeLoad s3 childB = some (freshNode childB false typeB) := by
    rw [changeA.other (Ne.symm apart), createdB.here]
  obtain ⟨s4, modifyB, changeB⟩ := btreeNodeModify_spec loadB3 fun fresh => { fresh with
    leftSibling := childA
    keys := copyFrom fresh.keys node.keys (minKeys + 1) (node.numKeys - (minKeys + 1))
    children := copyFrom fresh.children node.children (minKeys + 1) (node.numKeys - minKeys)
    numKeys := fresh.numKeys + (node.numKeys - (minKeys + 1)) }
  have other4 : ∀ block, block ≠ childA → block ≠ childB →
      btreeNodeLoad s4 block = btreeNodeLoad s block := by
    intro block notA notB
    rw [changeB.other notB, changeA.other notA, createdB.other block notB, createdA.other block notA]
  have stored4 : ∀ child ∈ children, child.block ≠ 0 ∧ Stores s4 root child := by
    intro child isChild
    obtain ⟨present, stores⟩ := stored.below child isChild
    refine ⟨present, stores.congr fun block inside => ?_⟩
    obtain ⟨notA, notB⟩ := notIn block (mem_children_blocks isChild inside)
    exact other4 block notA notB
  have whole := halves_append children
  obtain ⟨distinctA, distinctB, across⟩ := halves_distinct distinct
  have inA : ∀ child ∈ firstHalf children, child ∈ children :=
    fun child inside => List.mem_of_mem_take inside
  have inB : ∀ child ∈ secondHalf children, child ∈ children :=
    fun child inside => List.mem_of_mem_drop inside
  obtain ⟨s5, moveA, movedA, changes5⟩ := @reparent_trees s4 _ root (firstHalf children) childA
    (fun child inside => stored4 child (inA child inside)) distinctA
  have stored5 : ∀ child ∈ secondHalf children, child.block ≠ 0 ∧ Stores s5 root child := by
    intro child isChild
    obtain ⟨present, stores⟩ := stored4 child (inB child isChild)
    refine ⟨present, stores.congr fun block inside => changes5.other block fun first => ?_⟩
    exact across block (children_block_mem first) (mem_children_blocks isChild inside)
  obtain ⟨s6, moveB, movedB, changes6⟩ :=
    @reparent_trees s5 _ root (secondHalf children) childB stored5 distinctB
  have outside : ∀ block, block ∉ children.map Tree.block →
      btreeNodeLoad s6 block = btreeNodeLoad s4 block := by
    intro block out
    rw [← whole, List.map_append, List.mem_append, not_or] at out
    rw [changes6.other block out.2, changes5.other block out.1]
  have bitmap : SameBitmap s2 s6 := changeA.sameBitmap.trans (changeB.sameBitmap.trans
    (changes5.bitmap.trans changes6.bitmap))
  have notChildA : childA ∉ children.map Tree.block :=
    fun inside => (notIn _ (children_block_mem inside)).1 rfl
  have notChildB : childB ∉ children.map Tree.block :=
    fun inside => (notIn _ (children_block_mem inside)).2 rfl
  have loadA := (outside _ notChildA).trans ((changeB.other apart).trans changeA.here)
  have loadB := (outside _ notChildB).trans changeB.here
  refine ⟨childA, childB, _, _, s6, ?_, (owned2.sameBitmap bitmap).perm (List.Perm.swap _ _ _), loadA,
    ?_, rfl, ?_, loadB, ?_, rfl, ?_, ?_, ?_⟩
  rotate_left
  · refine ⟨rfl, rfl, rfl, ?_, ?_, ?_, ?_⟩
    · show 0 + minKeys ≤ maxKeys
      omega
    · show 0 + minKeys ≤ _
      rw [List.length_map, firstHalf, List.length_take]
      omega
    · show _ ≤ 0 + minKeys + 1
      rw [List.length_map, firstHalf, List.length_take]
      omega
    · intro i bound
      have copied := slots'.copyFrom_first i bound
      dsimp only [freshNode]
      rw [firstHalf, List.map_take]
      exact copied
  · intro child isChild
    refine ⟨(stored4 child (inA child isChild)).1, (movedA child isChild).congr fun block inside => ?_⟩
    apply changes6.other
    intro second
    exact across block (mem_children_blocks isChild inside) (children_block_mem second)
  · refine ⟨rfl, rfl, rfl, ?_, ?_, ?_, ?_⟩
    · show 0 + (node.numKeys - (minKeys + 1)) ≤ maxKeys
      omega
    · show 0 + (node.numKeys - (minKeys + 1)) ≤ _
      rw [List.length_map, secondHalf, List.length_drop]
      omega
    · show _ ≤ 0 + (node.numKeys - (minKeys + 1)) + 1
      rw [List.length_map, secondHalf, List.length_drop]
      omega
    · intro i _
      have copied := slots'.copyFrom_second full i
      dsimp only [freshNode]
      rw [secondHalf, List.map_drop]
      exact copied
  · show 0 + (node.numKeys - (minKeys + 1)) = minKeys - 1
    omega
  · exact fun child inside => ⟨(stored5 child inside).1, movedB child inside⟩
  · intro block notA notB out
    rw [outside block out, other4 block notA notB]
  · have slotsA : (indices 0 (minKeys + 1)).map node.children = (firstHalf children).map Tree.block := by
      rw [slots'.indices 0 _ (by omega), Nat.sub_zero, List.drop_zero, List.length_map,
        show minKeys + 1 - max 0 children.length = 0 by omega, firstHalf, List.map_take]
      exact List.append_nil _
    have slotsB : (indices (minKeys + 1) (node.numKeys + 1)).map node.children =
        (secondHalf children).map Tree.block ++
          List.replicate (node.numKeys + 1 - max (minKeys + 1) children.length) 0 := by
      rw [slots'.indices _ _ (by omega), List.take_of_length_le (by
        rw [List.length_drop, List.length_map]
        omega), List.length_map, secondHalf, List.map_drop]
    have moveB' : reparent s5 ((indices (minKeys + 1) (node.numKeys + 1)).map node.children) childB =
        some s6 := by
      rw [slotsB, reparent_append, moveB]
      exact reparent_empty _ _
    simp only [splitRootChildren, newA, newB, modifyA, modifyB, slotsA, moveA, moveB',
      Option.bind_eq_bind, Option.bind_some]

/-- The keys of a node count for its keyed children alone. -/
theorem InnerNode.withKeys {node : BTreeNode} {block parent : Nat} {children other : List (Nat × Option Nat)}
    (holds : InnerNode node block parent children) (blocks : other.map Prod.fst = children.map Prod.fst)
    (keys : ∀ i < node.numKeys, other[i]?.bind Prod.snd = children[i]?.bind Prod.snd) :
    InnerNode node block parent other := by
  have length : other.length = children.length := by
    have lengths := congrArg List.length blocks
    rwa [List.length_map, List.length_map] at lengths
  refine ⟨holds.isLeaf, holds.blockNumber, holds.parent, holds.fits, ?_, ?_, ?_, ?_⟩
  · rw [length]
    exact holds.enough
  · rw [length]
    exact holds.extra
  · intro i small
    rw [keys i small, holds.keys i small]
  · intro i small
    have atIndex := congrArg (fun list => list[i]?.getD 0) blocks
    simp only [List.getElem?_map] at atIndex
    rw [holds.slots i small]
    cases isOther : other[i]? <;> cases isChild : children[i]? <;>
      simp [isOther, isChild] at atIndex ⊢ <;> exact atIndex.symm

/-- Refreshing a new node over trees gives it its keys. -/
theorem refreshPage_spec {block parent : Nat} {node : BTreeNode} {children : List (Tree depth)}
    (load : btreeNodeLoad s block = some node)
    (slots : NodeSlots node block parent (children.map Tree.block))
    (below : ∀ child ∈ children, child.block ≠ 0 ∧ Stores s block child)
    (keyed : ∀ i < node.numKeys, ∀ child, children[i]? = some child → child.maxKey = some child.peak)
    (outside : block ∉ children.flatMap Tree.blocks) :
    ∃ refreshed s', refreshPage s block = some s' ∧ refreshed.numKeys = node.numKeys ∧
      SameHead node refreshed ∧ NodeChange s block refreshed s' ∧
      Over s' block parent refreshed children := by
  have slots' : NodeSlots node block parent
      ((children.map fun child => (child.block, child.peak)).map Prod.fst) := by
    rw [List.map_map]
    exact slots
  obtain ⟨refreshed, refresh, count, holds⟩ := @refreshKeys_spec s _ _ _ _ slots' (by
    intro child isChild
    obtain ⟨tree, inside, rfl⟩ := List.mem_map.mp isChild
    exact ⟨(below tree inside).1, btreeFindMaximum_peak (below tree inside).2⟩)
  obtain ⟨s', modify, change⟩ := btreeNodeModify_spec load fun _ => refreshed
  refine ⟨refreshed, s', ?_, count, refreshKeys_head refresh, change, change.here, ?_, ?_⟩
  · simp [refreshPage, load, refresh, modify]
  · apply holds.withKeys
    · simp only [List.map_map]
      rfl
    · intro i small
      rw [List.map_map, List.getElem?_map, List.getElem?_map]
      cases atIndex : children[i]? with
      | none => rfl
      | some child => exact keyed i (by omega) child atIndex
  · intro child isChild
    obtain ⟨present, stores⟩ := below child isChild
    refine ⟨present, stores.congr fun other inside => change.other ?_⟩
    rintro rfl
    exact outside (mem_children_blocks isChild inside)

/-- Giving the extra child to the second node changes nothing more. -/
theorem splitRootExtra_spec {root parent childB : Nat} {s0 : Store} {node nodeB : BTreeNode}
    {children : List (Tree depth)} (stored : Over s0 root parent node children)
    (half : Over s childB 0 nodeB (secondHalf children)) (count : nodeB.numKeys = minKeys - 1) :
    ∃ s', splitRootExtra s node childB = some s' ∧ ChangesOnly s [] s' := by
  have small : minKeys = 125 := rfl
  have large : maxKeys = 250 := rfl
  have slot := stored.slot (Nat.le_refl maxKeys)
  unfold splitRootExtra
  cases isExtra : children[maxKeys]? with
  | none =>
    rw [isExtra] at slot
    have empty : node.children maxKeys = 0 := slot
    rw [if_neg (by simp [empty])]
    exact ⟨s, rfl, ChangesOnly.refl s _⟩
  | some child =>
    obtain ⟨slot', present⟩ := stored.slotAt isExtra
    have isLast : (secondHalf children)[nodeB.numKeys]? = some child := by
      rw [secondHalf, List.getElem?_drop, count,
        show minKeys + 1 + (minKeys - 1) = maxKeys by omega, isExtra]
    obtain ⟨slotB, -⟩ := half.slotAt isLast
    have same : setAt nodeB.children nodeB.numKeys (node.children maxKeys) = nodeB.children := by
      funext i
      unfold setAt
      split
      · rename_i here
        rw [here, slot', slotB]
      · rfl
    -- the second node has the child already, and the child names it
    obtain ⟨s1, modify, change⟩ := btreeNodeModify_spec half.load fun page => { page with
      children := setAt page.children page.numKeys (node.children maxKeys) }
    have change' : NodeChange s childB nodeB s1 := by
      rw [same] at change
      exact change
    have nothing := change'.changesNothing half.load
    have stores := (half.below child (List.mem_of_getElem? isLast)).2.congr
      fun other _ => nothing.other other List.not_mem_nil
    obtain ⟨last, load⟩ := stores.load
    obtain ⟨number, parentIs⟩ := stores.names load
    have moved : ({ last with parent := childB } : BTreeNode) = last := by
      rw [← parentIs]
    obtain ⟨s2, write, change2⟩ := btreeNodeWrite_at number load
    refine ⟨s2, ?_, nothing.trans (change2.changesNothing load) (List.Subset.refl _) (List.Subset.refl _)⟩
    rw [if_pos (by rw [slot']; exact present), modify, Option.bind_eq_bind, Option.bind_some]
    unfold reparent
    rw [List.foldlM_cons, slot', if_pos present, load]
    simp only [Option.bind_eq_bind, Option.bind_some, moved, write]
    rfl

/-- Setting the parent of a node over trees. -/
theorem Over.setParent {block former parent : Nat} {node : BTreeNode} {children : List (Tree depth)}
    (stored : Over s block former node children) (outside : block ∉ children.flatMap Tree.blocks)
    (change : NodeChange s block { node with parent } s') :
    Over s' block parent { node with parent } children := by
  have holds := stored.holds
  refine ⟨change.here, ?_, fun child isChild => ?_⟩
  · exact ⟨holds.isLeaf, holds.blockNumber, rfl, holds.fits, holds.enough, holds.extra, holds.keys,
      holds.slots⟩
  · obtain ⟨present, stores⟩ := stored.below child isChild
    refine ⟨present, stores.congr fun other inside => change.other ?_⟩
    rintro rfl
    exact outside (mem_children_blocks isChild inside)

/-- A node over trees loads the same while another node changes. -/
theorem Over.kept {block other parent : Nat} {node changed : BTreeNode} {children : List (Tree depth)}
    (stored : Over s block parent node children) (change : NodeChange s other changed s')
    (apart : block ≠ other) (outside : other ∉ children.flatMap Tree.blocks) :
    Over s' block parent node children := by
  apply stored.congr (change.other apart)
  intro child isChild inner inside
  apply change.other
  rintro rfl
  exact outside (mem_children_blocks isChild inside)

/-- The new root stands over the two nodes. -/
theorem overTwo_inner {node : BTreeNode} {root parent childA childB maxA maxB : Nat}
    (number : node.blockNumber = root) (isParent : node.parent = parent) :
    InnerNode (node.overTwo childA childB maxA maxB) root parent
      [(childA, some maxA), (childB, some maxB)] where
  isLeaf := rfl
  blockNumber := number
  parent := isParent
  fits := show 2 ≤ 250 by omega
  enough := Nat.le_refl _
  extra := show 2 ≤ 3 by omega
  keys i small := by
    have small' : i < 2 := small
    interval_cases i <;> rfl
  slots i small := by
    show clearRange (setAt (setAt node.children 0 childA) 1 childB) 2 (maxKeys + 1) i = _
    unfold clearRange setAt
    rcases Nat.lt_or_ge i 2 with low | high
    · interval_cases i <;> rfl
    · rw [if_pos ⟨high, by omega⟩, List.getElem?_eq_none high]
      rfl

/-- The two nodes that a full root is split into. -/
structure RootSplit (s : Store) (root parent : Nat) (node : BTreeNode) (children : List (Tree depth))
    (blocks : List Nat) (childA childB : Nat) (s' : Store) : Prop where
  /-- The new blocks are owned with the old ones. -/
  owned : Owned s' (childA :: childB :: blocks)
  /-- The root over the two nodes, with what `btree_find_maximum` returns for them. -/
  top : ∃ split, btreeNodeLoad s' root = some split ∧ split.numKeys = 2 ∧ SameHead node split ∧
    InnerNode split root parent [(childA, some (overTree childA (firstHalf children)).peak),
      (childB, some (overTree childB (secondHalf children)).peak)]
  /-- The first node. -/
  left : ∃ nodeA, Over s' childA root nodeA (firstHalf children) ∧ nodeA.rightSibling = childB
  /-- The second node. -/
  right : ∃ nodeB, Over s' childB root nodeB (secondHalf children) ∧ nodeB.leftSibling = childA ∧
    nodeB.numKeys = minKeys - 1
  /-- The other nodes are kept. -/
  other : ∀ block, block ≠ root → block ≠ childA → block ≠ childB → block ∉ children.map Tree.block →
    btreeNodeLoad s' block = btreeNodeLoad s block

/-- Splitting a full root over trees. -/
theorem btreeSplitRoot_trees {root parent : Nat} {node : BTreeNode} {children : List (Tree depth)}
    {blocks : List Nat} (owned : Owned s blocks)
    (inBlocks : ∀ block ∈ root :: children.flatMap Tree.blocks, block ∈ blocks)
    (distinct : (root :: children.flatMap Tree.blocks).Nodup) (room : 2 ≤ s.freeCount)
    (stored : Over s root parent node children) (full : node.numKeys = maxKeys)
    (keyed : ∀ i < maxKeys, ∀ child, children[i]? = some child → child.maxKey = some child.peak) :
    ∃ childA childB split s', btreeSplitRoot s node = some (split, s') ∧
      RootSplit s root parent node children blocks childA childB s' := by
  obtain ⟨notRoot, distinct'⟩ := List.nodup_cons.mp distinct
  obtain ⟨childA, childB, nodeA, nodeB, s6, run, halved⟩ := splitRootChildren_spec owned
    (fun block inside => inBlocks block (List.mem_cons_of_mem _ inside)) distinct' room stored full
  have distinct6 := halved.owned.distinct
  simp only [List.nodup_cons, List.mem_cons, not_or] at distinct6
  obtain ⟨⟨notAB, notA⟩, notB, -⟩ := distinct6
  have notARoot : childA ≠ root := by
    rintro rfl
    exact notA (inBlocks _ List.mem_cons_self)
  have notBRoot : childB ≠ root := by
    rintro rfl
    exact notB (inBlocks _ List.mem_cons_self)
  obtain ⟨notAFirst, notASecond⟩ := halves_blocks
    fun inside => notA (inBlocks childA (List.mem_cons_of_mem _ inside))
  obtain ⟨notBFirst, notBSecond⟩ := halves_blocks
    fun inside => notB (inBlocks childB (List.mem_cons_of_mem _ inside))
  obtain ⟨notRootFirst, notRootSecond⟩ := halves_blocks notRoot
  have small : minKeys = 125 := rfl
  have large : maxKeys = 250 := rfl
  obtain ⟨refreshedA, s7, refreshA, -, headA, change7, storedA7⟩ := refreshPage_spec halved.loadA
    halved.slotsA halved.treesA (by
      intro i less child atIndex
      have inFirst := (List.getElem?_eq_some_iff.mp atIndex).1
      rw [firstHalf, List.length_take] at inFirst
      rw [firstHalf, List.getElem?_take_of_lt (by omega)] at atIndex
      exact keyed i (by omega) child atIndex) notAFirst
  have loadB7 : btreeNodeLoad s7 childB = some nodeB := by
    rw [change7.other (Ne.symm notAB), halved.loadB]
  have treesB7 : ∀ child ∈ secondHalf children, child.block ≠ 0 ∧ Stores s7 childB child := by
    intro child isChild
    obtain ⟨present, stores⟩ := halved.treesB child isChild
    refine ⟨present, stores.congr fun block inside => change7.other ?_⟩
    rintro rfl
    exact notASecond (mem_children_blocks isChild inside)
  obtain ⟨refreshedB, s8, refreshB, countB, headB, change8, storedB8⟩ := refreshPage_spec loadB7
    halved.slotsB treesB7 (by
      intro i less child atIndex
      rw [halved.countB] at less
      rw [secondHalf, List.getElem?_drop] at atIndex
      exact keyed _ (by omega) child atIndex) notBSecond
  have storedA8 := storedA7.kept change8 notAB notBFirst
  obtain ⟨s9, extra, nothing⟩ :=
    splitRootExtra_spec stored storedB8 (countB.trans halved.countB)
  have same9 : ∀ block, btreeNodeLoad s9 block = btreeNodeLoad s8 block :=
    fun block => nothing.other block List.not_mem_nil
  have storedA9 := storedA8.congr (same9 childA) fun _ _ other _ => same9 other
  have storedB9 := storedB8.congr (same9 childB) fun _ _ other _ => same9 other
  obtain ⟨s10, modifyA, change10⟩ :=
    btreeNodeModify_spec storedA9.load fun node => { node with parent := root }
  have storedA10 := storedA9.setParent notAFirst change10
  have storedB10 := storedB9.kept change10 (Ne.symm notAB) notASecond
  obtain ⟨s11, modifyB, change11⟩ :=
    btreeNodeModify_spec storedB10.load fun node => { node with parent := root }
  have storedB11 := storedB10.setParent notBSecond change11
  have storedA11 := storedA10.kept change11 notAB notBFirst
  have outside : ∀ block, block ≠ childA → block ≠ childB → block ∉ children.map Tree.block →
      btreeNodeLoad s11 block = btreeNodeLoad s block := by
    intro block otherA otherB notChild
    rw [change11.other otherB, change10.other otherA, same9, change8.other otherB,
      change7.other otherA, halved.other block otherA otherB notChild]
  have loadRoot : btreeNodeLoad s11 root = some node := by
    rw [outside root (Ne.symm notARoot) (Ne.symm notBRoot)
      fun inside => notRoot (children_block_mem inside), stored.load]
  have number := stored.holds.blockNumber
  have maxA : btreeFindMaximum s11 childA = some (overTree childA (firstHalf children)).peak :=
    btreeFindMaximum_peak (stores_over.mpr ⟨_, storedA11⟩)
  have maxB : btreeFindMaximum s11 childB = some (overTree childB (secondHalf children)).peak :=
    btreeFindMaximum_peak (stores_over.mpr ⟨_, storedB11⟩)
  obtain ⟨s12, write, change12⟩ : ∃ s', btreeNodeWrite s11 (node.overTwo childA childB
      (overTree childA (firstHalf children)).peak (overTree childB (secondHalf children)).peak) =
        some s' ∧ NodeChange s11 root (node.overTwo childA childB
      (overTree childA (firstHalf children)).peak (overTree childB (secondHalf children)).peak) s' :=
    btreeNodeWrite_at number loadRoot
  have bitmap : SameBitmap s6 s12 := change7.sameBitmap.trans (change8.sameBitmap.trans
    (nothing.bitmap.trans (change10.sameBitmap.trans (change11.sameBitmap.trans
      change12.sameBitmap))))
  refine ⟨childA, childB, node.overTwo childA childB (overTree childA (firstHalf children)).peak
    (overTree childB (secondHalf children)).peak, s12, ?_, halved.owned.sameBitmap bitmap, ?_, ?_, ?_, ?_⟩
  · simp only [btreeSplitRoot, run, refreshA, refreshB, extra, number, modifyA, modifyB, maxA, maxB,
      write, Option.bind_eq_bind, Option.bind_some]
  · exact ⟨_, change12.here, rfl, ⟨rfl, rfl, rfl, rfl⟩, overTwo_inner number stored.holds.parent⟩
  · exact ⟨_, storedA11.kept change12 notARoot notRootFirst, headA.rightSibling.trans halved.rightA⟩
  · exact ⟨_, storedB11.kept change12 notBRoot notRootSecond, headB.leftSibling.trans halved.leftB,
      countB.trans halved.countB⟩
  · intro block otherRoot otherA otherB notChild
    rw [change12.other otherRoot, outside block otherA otherB notChild]

end Trees

/-- A node over leaves is a node over trees of depth 0. -/
theorem OverLeaves.over {block parent : Nat} {node : BTreeNode} {leaves : List Leaf} :
    OverLeaves s block parent node leaves ↔ @Over 0 s block parent node leaves :=
  ⟨fun stored => ⟨stored.load, stored.holds, stored.below⟩,
    fun stored => ⟨stored.load, stored.holds, stored.below⟩⟩

/-- What `btree_find_maximum` returns for a node over leaves. -/
theorem peak_leaves (block : Nat) (leaves : List Leaf) :
    (flatTree block leaves).peak = lastKey leaves := by
  show leaves.getLast?.elim 0 Leaf.key = (leaves.getLast?.map Leaf.key).getD 0
  cases leaves.getLast? <;> rfl

/-- A root with two keys over two nodes over leaves. -/
structure SplitTree (s : Store) (root childA childB : Nat) (leavesA leavesB : List Leaf) : Prop where
  /-- The root. -/
  top : ∃ node, btreeNodeLoad s root = some node ∧ node.numKeys = 2 ∧ InnerNode node root 0
    [(childA, some (lastKey leavesA)), (childB, some (lastKey leavesB))]
  /-- The first node. -/
  left : ∃ node, OverLeaves s childA root node leavesA
  /-- The second node. -/
  right : ∃ node, OverLeaves s childB root node leavesB

/-- Splitting a full root of a tree of depth 1. -/
theorem btreeSplitRoot_spec {root page : Nat} {node : BTreeNode} {leaves : List Leaf}
    (owned : Owned s (page :: root :: leaves.map Leaf.block)) (room : 2 ≤ s.freeCount)
    (stored : OverLeaves s root 0 node leaves) (full : node.numKeys = maxKeys) :
    ∃ childA childB split s', btreeSplitRoot s node = some (split, s') ∧
      Owned s' (childA :: childB :: page :: root :: leaves.map Leaf.block) ∧
      SplitTree s' root childA childB (firstHalf leaves) (secondHalf leaves) ∧
      (∀ right, btreeNodeLoad s' childB = some right → right.numKeys = minKeys - 1) ∧
      btreeNodeLoad s' page = btreeNodeLoad s page := by
  have blocks : leaves.map Leaf.block = leaves.flatMap (@Tree.blocks 0) := List.map_eq_flatMap
  obtain ⟨notPage, distinct⟩ := List.nodup_cons.mp owned.distinct
  have inBlocks : ∀ block ∈ root :: leaves.flatMap (@Tree.blocks 0),
      block ∈ page :: root :: leaves.map Leaf.block := by
    intro block inside
    rw [← blocks] at inside
    exact List.mem_cons_of_mem _ inside
  obtain ⟨childA, childB, split, s', run, result⟩ := btreeSplitRoot_trees owned inBlocks
    (by rwa [← blocks]) room (OverLeaves.over.mp stored) full (fun _ _ _ _ => rfl)
  refine ⟨childA, childB, split, s', run, result.owned, ?_, ?_, ?_⟩
  · obtain ⟨top, load, count, -, holds⟩ := result.top
    obtain ⟨nodeA, storedA, -⟩ := result.left
    obtain ⟨nodeB, storedB, -⟩ := result.right
    have peakA : (@overTree 0 childA (firstHalf leaves)).peak = lastKey (firstHalf leaves) :=
      peak_leaves childA _
    have peakB : (@overTree 0 childB (secondHalf leaves)).peak = lastKey (secondHalf leaves) :=
      peak_leaves childB _
    rw [peakA, peakB] at holds
    exact ⟨⟨top, load, count, holds⟩, ⟨nodeA, OverLeaves.over.mpr storedA⟩,
      ⟨nodeB, OverLeaves.over.mpr storedB⟩⟩
  · obtain ⟨nodeB, storedB, -, count⟩ := result.right
    intro right load
    rw [← Option.some.inj (storedB.load.symm.trans load)]
    exact count
  · have distinct' := result.owned.distinct
    simp only [List.nodup_cons, List.mem_cons, not_or] at distinct' notPage
    apply result.other
    · exact notPage.1
    · exact Ne.symm distinct'.1.2.1
    · exact Ne.symm distinct'.2.1.1
    · exact notPage.2

end

end Nbtrfs
