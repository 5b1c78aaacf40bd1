import Nbtrfs.BTree.Deep

/-!
# Insertion below a root of any depth

`btree_insert` into a node with room whose largest key is above the new one. The node gets the leaf in
its place, and each key on the way up stays the largest one below its child.
-/

namespace Nbtrfs

/-- A tree and the tree with another node over leaves in the place of one. -/
inductive Replaced (old new : Tree 1) : {depth : Nat} → Tree (depth + 1) → Tree (depth + 1) → Prop
  | node : @Replaced old new 0 old new
  | inside {depth block : Nat} {before after : List (Tree (depth + 1))}
      {child changed : Tree (depth + 1)} : Replaced old new child changed →
      Replaced old new (overTree block (before ++ child :: after))
        (overTree block (before ++ changed :: after))

/-- An element of a list of lists is in one of them. -/
theorem exists_flatMap_split {α β : Type} {part : α → List β} {list : List α} {before after : List β}
    {element : β} (whole : list.flatMap part = before ++ element :: after) :
    ∃ first member last front behind, list = first ++ member :: last ∧
      part member = front ++ element :: behind ∧ before = first.flatMap part ++ front ∧
      after = behind ++ last.flatMap part := by
  induction list generalizing before with
  | nil =>
    rw [List.flatMap_nil] at whole
    simp at whole
  | cons member rest ih =>
    rw [List.flatMap_cons] at whole
    rcases List.append_eq_append_iff.mp whole with ⟨further, isBefore, isRest⟩ | ⟨further, isPart, isAfter⟩
    · obtain ⟨first, other, last, front, behind, rfl, split, rfl, isBehind⟩ := ih isRest
      refine ⟨member :: first, other, last, front, behind, rfl, split, ?_, isBehind⟩
      rw [isBefore, List.flatMap_cons, List.append_assoc]
    · cases further with
      | nil =>
        rw [List.nil_append] at isAfter
        rw [List.append_nil] at isPart
        obtain ⟨first, other, last, front, behind, rfl, split, isFront, isBehind⟩ :=
          @ih [] isAfter.symm
        refine ⟨member :: first, other, last, front, behind, rfl, split, ?_, isBehind⟩
        rw [List.flatMap_cons, List.append_assoc, ← isFront, List.append_nil, isPart]
      | cons head tail =>
        rw [List.cons_append] at isAfter
        obtain ⟨rfl, rfl⟩ := List.cons.inj isAfter
        exact ⟨[], member, rest, before, tail, rfl, isPart, rfl, rfl⟩

section

variable {depth : Nat} {old new : Tree 1}

/-- A node over leaves can be replaced where it stands. -/
theorem exists_replaced {tree : Tree (depth + 1)} {before after : List (Tree 1)} (new : Tree 1)
    (whole : tree.bottoms = before ++ old :: after) :
    ∃ changed, Replaced old new tree changed ∧ changed.bottoms = before ++ new :: after := by
  induction depth generalizing before after with
  | zero =>
    have single : [tree] = before ++ old :: after := whole
    cases before with
    | nil =>
      obtain ⟨rfl, rfl⟩ := List.cons.inj single
      exact ⟨new, .node, rfl⟩
    | cons head tail =>
      have none := (List.cons.inj single).2
      simp at none
  | succ depth ih =>
    obtain ⟨block, children⟩ := tree
    have split : children.flatMap Tree.bottoms = before ++ old :: after := whole
    obtain ⟨first, child, last, front, behind, rfl, inChild, rfl, rfl⟩ := exists_flatMap_split split
    obtain ⟨changed, replaced, bottoms⟩ := ih inChild
    refine ⟨overTree block (first ++ changed :: last), .inside replaced, ?_⟩
    show (first ++ changed :: last).flatMap Tree.bottoms = _
    rw [List.flatMap_append, List.flatMap_cons, bottoms]
    simp

variable {tree changed : Tree (depth + 1)}

/-- The other way round. -/
theorem Replaced.symm (replaced : Replaced old new tree changed) : Replaced new old changed tree := by
  induction replaced with
  | node => exact .node
  | inside _ ih => exact .inside ih

/-- The replaced node is in the tree. -/
theorem Replaced.mem_blocks (replaced : Replaced old new tree changed) : old.block ∈ tree.blocks := by
  induction replaced with
  | node => exact List.mem_cons_self
  | inside _ ih =>
    rw [overTree_blocks, List.flatMap_append, List.flatMap_cons]
    simp [ih]

/-- The root keeps its block. -/
theorem Replaced.block (replaced : Replaced old new tree changed) (same : new.block = old.block) :
    changed.block = tree.block := by
  cases replaced with
  | node => exact same
  | inside _ => rfl

/-- With one block more in the node, there is one more in the tree. -/
theorem Replaced.blocks (replaced : Replaced old new tree changed) {page : Nat}
    (more : new.blocks.Perm (page :: old.blocks)) : changed.blocks.Perm (page :: tree.blocks) := by
  induction replaced with
  | node => exact more
  | @inside depth block before after child changed _ ih =>
    rw [overTree_blocks, overTree_blocks, List.flatMap_append, List.flatMap_append, List.flatMap_cons,
      List.flatMap_cons]
    have first := ((ih.append_right (after.flatMap Tree.blocks)).append_left
      (before.flatMap Tree.blocks)).cons block
    have second : (block :: (before.flatMap Tree.blocks ++
        (page :: (child.blocks ++ after.flatMap Tree.blocks)))).Perm
        (block :: page :: (before.flatMap Tree.blocks ++
          (child.blocks ++ after.flatMap Tree.blocks))) := List.perm_middle.cons block
    exact first.trans (second.trans (List.Perm.swap page block _))

/-- With a leaf in the node there is one in the tree. -/
theorem Replaced.some_leaf (replaced : Replaced old new tree changed) (some_leaf : new.leaves ≠ []) :
    changed.leaves ≠ [] := by
  induction replaced with
  | node => exact some_leaf
  | inside _ ih =>
    rw [overTree_leaves, List.flatMap_append, List.flatMap_cons]
    simp [ih]

/-- A node over leaves has no empty node below it. -/
theorem Tree.filled_bottom (bottom : Tree 1) : bottom.Filled :=
  fun _ _ => ⟨List.cons_ne_nil _ _, trivial⟩

/-- A node with leaves leaves no node empty. -/
theorem Replaced.filled (replaced : Replaced old new tree changed) (some_leaf : new.leaves ≠ [])
    (filled : tree.Filled) : changed.Filled := by
  induction replaced with
  | node => exact new.filled_bottom
  | inside replaced ih =>
    intro child isChild
    rcases List.mem_append.mp isChild with earlier | further
    · exact filled child (List.mem_append_left _ earlier)
    · rcases List.mem_cons.mp further with rfl | later
      · exact ⟨replaced.some_leaf some_leaf,
          ih (filled _ (List.mem_append_right _ List.mem_cons_self)).2⟩
      · exact filled child (List.mem_append_right _ (List.mem_cons_of_mem _ later))

/-- With the largest key of the node, that of the tree is kept. -/
theorem Replaced.maxKey (replaced : Replaced old new tree changed) (oldLeaf : old.leaves ≠ [])
    (newLeaf : new.leaves ≠ []) (same : lastKey new.leaves = lastKey old.leaves) :
    changed.maxKey = tree.maxKey := by
  have largest : lastKey changed.leaves = lastKey tree.leaves := by
    induction replaced with
    | node => exact same
    | @inside depth block before after child changed replaced ih =>
      rw [overTree_leaves, overTree_leaves, List.flatMap_append, List.flatMap_append, List.flatMap_cons,
        List.flatMap_cons]
      by_cases none : after.flatMap Tree.leaves = []
      · rw [none, List.append_nil, List.append_nil, lastKey_append _ (replaced.some_leaf newLeaf),
          lastKey_append _ (replaced.symm.some_leaf oldLeaf), ih]
      · rw [← List.append_assoc, ← List.append_assoc, lastKey_append _ none, lastKey_append _ none]
  rw [Tree.maxKey_eq (replaced.some_leaf newLeaf), Tree.maxKey_eq (replaced.symm.some_leaf oldLeaf),
    largest]

variable {s s' : Store} {parent : Nat}

/-- A tree is stored with another node in the place of one, if the other nodes are kept. -/
theorem Replaced.stores (replaced : Replaced old new tree changed) (oldLeaf : old.leaves ≠ [])
    (newLeaf : new.leaves ≠ []) (sameKey : lastKey new.leaves = lastKey old.leaves)
    (sameBlock : new.block = old.block) (stores : Stores s parent tree) (distinct : tree.blocks.Nodup)
    (kept : ∀ block ∈ tree.blocks, block ≠ old.block → btreeNodeLoad s' block = btreeNodeLoad s block)
    (node : ∀ parent, Stores s parent old → Stores s' parent new) : Stores s' parent changed := by
  induction replaced generalizing parent with
  | node => exact node parent stores
  | @inside depth block before after child changed replaced ih =>
    obtain ⟨inner, stored⟩ := stores_over.mp stores
    rw [overTree_blocks] at distinct kept
    obtain ⟨notBelow, distinct⟩ := List.nodup_cons.mp distinct
    have isChild : child ∈ before ++ child :: after := by simp
    have inBlocks : ∀ other ∈ before ++ child :: after, ∀ block ∈ other.blocks,
        block ∈ (before ++ child :: after).flatMap Tree.blocks :=
      fun other inside block isBlock => List.mem_flatMap.mpr ⟨other, inside, isBlock⟩
    have isOld := replaced.mem_blocks
    have notOld : block ≠ old.block := by
      intro same
      exact notBelow (same ▸ inBlocks child isChild _ isOld)
    have children : ((before ++ changed :: after).map fun child => (child.block, child.maxKey)) =
        (before ++ child :: after).map fun child => (child.block, child.maxKey) := by
      simp only [List.map_append, List.map_cons, replaced.block sameBlock,
        replaced.maxKey oldLeaf newLeaf sameKey]
    rw [List.flatMap_append, List.flatMap_cons, List.nodup_append, List.nodup_append] at distinct
    obtain ⟨-, ⟨distinctChild, -, notAfter⟩, notBefore⟩ := distinct
    apply stores_over.mpr
    refine ⟨inner, (kept block List.mem_cons_self notOld).trans stored.load, ?_, ?_⟩
    · rw [children]
      exact stored.holds
    · have sibling : ∀ other ∈ before ++ child :: after, old.block ∉ other.blocks →
          Tree.block other ≠ 0 ∧ Stores s' block other := by
        intro other inside outside
        obtain ⟨present, storesOther⟩ := stored.below other inside
        refine ⟨present, storesOther.congr fun block isBlock => ?_⟩
        apply kept block (List.mem_cons_of_mem _ (inBlocks other inside block isBlock))
        intro same
        exact outside (same ▸ isBlock)
      intro other inside
      rcases List.mem_append.mp inside with earlier | further
      · apply sibling other (List.mem_append_left _ earlier)
        intro here
        exact notBefore _ (List.mem_flatMap.mpr ⟨other, earlier, here⟩) _
          (List.mem_append_left _ isOld) rfl
      · rcases List.mem_cons.mp further with rfl | later
        · obtain ⟨present, storesChild⟩ := stored.below child isChild
          rw [replaced.block sameBlock]
          refine ⟨present, ih storesChild distinctChild fun block isBlock => ?_⟩
          exact kept block (List.mem_cons_of_mem _ (inBlocks child isChild block isBlock))
        · apply sibling other (List.mem_append_right _ (List.mem_cons_of_mem _ later))
          intro here
          exact notAfter _ isOld _ (List.mem_flatMap.mpr ⟨other, later, here⟩) rfl

end

section

variable {s : Store} {depth parent : Nat} {bottom : Tree 1}

/-- The blocks of a node over leaves are blocks of the tree. -/
theorem Tree.bottom_blocks {tree : Tree (depth + 1)} (isBottom : bottom ∈ tree.bottoms) :
    bottom.blocks.Sublist tree.blocks := by
  induction depth with
  | zero =>
    rw [List.mem_singleton.mp isBottom]
  | succ depth ih =>
    obtain ⟨child, isChild, inChild⟩ := List.mem_flatMap.mp isBottom
    have inBlocks : child.blocks.Sublist ((Prod.snd tree).flatMap Tree.blocks) := by
      rw [List.flatMap_def]
      exact List.sublist_flatten_of_mem (List.mem_map_of_mem isChild)
    exact ((ih inChild).trans inBlocks).trans (List.sublist_cons_self _ _)

/-- The nodes over leaves have blocks of their own. -/
theorem Tree.bottoms_blocks (tree : Tree (depth + 1)) :
    (tree.bottoms.map Tree.block).Sublist tree.blocks := by
  induction depth with
  | zero => exact (List.nil_sublist _).cons_cons _
  | succ depth ih =>
    obtain ⟨block, children⟩ := tree
    apply List.Sublist.cons
    show ((children.flatMap Tree.bottoms).map Tree.block).Sublist (children.flatMap Tree.blocks)
    rw [List.map_flatMap]
    induction children with
    | nil => exact List.Sublist.refl _
    | cons child rest next =>
      rw [List.flatMap_cons, List.flatMap_cons]
      exact (ih child).append next

/-- A node over leaves is stored under its parent. -/
theorem Stores.atBottom {tree : Tree (depth + 1)} (stores : Stores s parent tree)
    (isBottom : bottom ∈ tree.bottoms) : ∃ above, Stores s above bottom := by
  induction depth generalizing parent with
  | zero =>
    rw [List.mem_singleton.mp isBottom]
    exact ⟨parent, stores⟩
  | succ depth ih =>
    obtain ⟨block, children⟩ := tree
    obtain ⟨child, isChild, inChild⟩ := List.mem_flatMap.mp isBottom
    exact ih (stores.2 child isChild).2 inChild

/-- Below a deeper root, a node over leaves has a parent in the tree. -/
theorem Stores.aboveBottom {tree : Tree (depth + 2)} (stores : Stores s parent tree)
    (filled : tree.Filled) (isBottom : bottom ∈ tree.bottoms) :
    ∃ block above top, ∃ children : List (Tree 1), block ∈ tree.blocks ∧
      Over s block above top children ∧ (∀ child ∈ children, child.leaves ≠ [] ∧ child.Filled) ∧
      bottom ∈ children := by
  induction depth generalizing parent with
  | zero =>
    obtain ⟨block, children⟩ := tree
    obtain ⟨top, stored⟩ := stores_over.mp stores
    obtain ⟨child, isChild, inChild⟩ := List.mem_flatMap.mp isBottom
    rw [← List.mem_singleton.mp inChild] at isChild
    exact ⟨block, parent, top, children, List.mem_cons_self, stored, filled, isChild⟩
  | succ depth ih =>
    obtain ⟨root, subtrees⟩ := tree
    obtain ⟨child, isChild, inChild⟩ := List.mem_flatMap.mp isBottom
    obtain ⟨block, above, top, children, isBlock, rest⟩ :=
      ih (stores.2 child isChild).2 (filled child isChild).2 inChild
    exact ⟨block, above, top, children,
      List.mem_cons_of_mem _ (List.mem_flatMap.mpr ⟨child, isChild, isBlock⟩), rest⟩

/-- The keys of a stored node are up to date. -/
theorem Over.refreshKeys {block : Nat} {node : BTreeNode} {children : List (Tree depth)}
    (stored : Over s block parent node children)
    (filled : ∀ child ∈ children, child.leaves ≠ [] ∧ child.Filled) :
    Nbtrfs.refreshKeys s node = some node := by
  obtain ⟨-, -, fits⟩ := stored.counts
  have maxima := stored.maxima filled
  unfold Nbtrfs.refreshKeys
  rw [if_neg (by omega), @mapM_some _ node.keys]
  · rw [Option.bind_eq_bind, Option.bind_some]
    congr 1
    have same : (fun i => ((List.range node.numKeys).map node.keys).getD i (node.keys i)) = node.keys := by
      funext i
      by_cases small : i < node.numKeys
      · simp [small]
      · simp [small]
    rw [same]
  · intro i inside
    obtain ⟨present, maximum⟩ := maxima i (List.mem_range.mp inside)
    rw [if_pos present, maximum]

/-- The update of the keys above a node over leaves of a stored tree changes no node. -/
theorem Stores.updateParentKeys {tree : Tree (depth + 1)} (stores : Stores s 0 tree)
    (filled : tree.Filled) (nonzero : ∀ block ∈ tree.blocks, block ≠ 0)
    (isBottom : bottom ∈ tree.bottoms) {node : BTreeNode}
    (load : btreeNodeLoad s bottom.block = some node) :
    ∃ s', btreeUpdateParentKeys s node = some s' ∧ ChangesOnly s [] s' := by
  cases depth with
  | zero =>
    rw [List.mem_singleton.mp isBottom] at load
    obtain ⟨⟨inner, loadInner, holds⟩, -⟩ := stores
    obtain rfl := Option.some.inj (load.symm.trans loadInner)
    exact ⟨s, btreeUpdateParentKeys_root holds.parent, ChangesOnly.refl s []⟩
  | succ depth =>
    obtain ⟨block, above, top, children, isBlock, stored, below, isChild⟩ :=
      stores.aboveBottom filled isBottom
    obtain ⟨⟨inner, loadInner, holds⟩, -⟩ := (stored.below bottom isChild).2
    obtain rfl := Option.some.inj (load.symm.trans loadInner)
    obtain ⟨s', write, change⟩ := btreeNodeWrite_at stored.holds.blockNumber stored.load
    refine ⟨s', ?_, change.changesNothing stored.load⟩
    unfold btreeUpdateParentKeys
    rw [holds.parent, if_neg (nonzero block isBlock), stored.load, Option.bind_eq_bind,
      Option.bind_some, stored.refreshKeys below, Option.bind_some, write]

end

/-- A leaf is inserted into a stored tree: only the node over leaves that gets it is changed. -/
structure LeafInserted {depth : Nat} (s : Store) (tree : Tree (depth + 1)) (block : Nat) (leaf : Leaf)
    (s' : Store) (grown : Tree (depth + 1)) : Prop where
  /-- The tree is stored. -/
  stores : Stores s' 0 grown
  /-- Its root is the same block. -/
  root : grown.block = tree.block
  /-- There is one block more. -/
  blocks : grown.blocks.Perm (leaf.block :: tree.blocks)
  /-- The blocks are owned. -/
  owned : Owned s' grown.blocks
  /-- The leaf is between the old ones. -/
  leaves : ∃ before after, tree.leaves = before ++ after ∧ grown.leaves = before ++ leaf :: after
  /-- The keys are increasing. -/
  increasing : Increasing grown.leaves
  /-- The other nodes are kept. -/
  other : ∀ other, other ≠ leaf.block → other ≠ block → btreeNodeLoad s' other = btreeNodeLoad s other

section

variable {s : Store} {depth : Nat}

/-- The order of the leaves with a new one in its place below a node. -/
theorem Belongs.splitAt {tree : Tree (depth + 1)} {block key : Nat} {before after : List Leaf}
    {left right : List (Tree 1)} (increasing : Increasing tree.leaves)
    (whole : tree.bottoms = left ++ flatTree block (before ++ after) :: right)
    (less : ∀ other ∈ left, ∀ leaf ∈ other.leaves, leaf.key < key) (split : SplitAt key before after)
    (some_leaf : after ≠ []) :
    tree.leaves = (left.flatMap Tree.leaves ++ before) ++ (after ++ right.flatMap Tree.leaves) ∧
      SplitAt key (left.flatMap Tree.leaves ++ before) (after ++ right.flatMap Tree.leaves) := by
  have leaves : tree.leaves =
      (left.flatMap Tree.leaves ++ before) ++ (after ++ right.flatMap Tree.leaves) := by
    rw [← tree.leaves_bottoms, whole, List.flatMap_append, List.flatMap_cons, flatTree_leaves]
    simp only [List.append_assoc]
  rw [leaves] at increasing
  refine ⟨leaves, ?_, ?_⟩
  · intro leaf inside
    rcases List.mem_append.mp inside with earlier | here
    · obtain ⟨other, isLeft, inOther⟩ := List.mem_flatMap.mp earlier
      exact less other isLeft leaf inOther
    · exact split.smaller leaf here
  · intro leaf inside
    rcases List.mem_append.mp inside with here | later
    · exact split.greater leaf here
    · obtain ⟨next, isNext⟩ := List.exists_mem_of_ne_nil _ some_leaf
      have greater := split.greater next isNext
      have further := increasing.append.2.1.append.2.2 next isNext leaf later
      omega

/-- `btree_insert` of a new key that goes below the largest key of a node with room: the tree is stored
again with the new leaf in its place, and no other node is changed. -/
theorem btreeInsert_deep {tree : Tree (depth + 1)} {block : Nat} {leaves : List Leaf} {node : BTreeNode}
    (owned : Owned s tree.blocks) (stores : Stores s 0 tree) (increasing : Increasing tree.leaves)
    (filled : tree.Filled) (insertion : Insertion)
    (absent : ∀ leaf ∈ tree.leaves, leaf.key ≠ insertion.key) (free : 1 ≤ s.freeCount)
    (search : btreeInsertionSearch s tree.block insertion.key = some block)
    (isBottom : flatTree block leaves ∈ tree.bottoms) (load : btreeNodeLoad s block = some node)
    (room : node.numKeys < maxKeys) (below : insertion.key < lastKey leaves) :
    ∃ page s' grown, btreeInsert s tree.block insertion.key insertion.value insertion.type = some s' ∧
      LeafInserted s tree block (insertion.leaf page) s' grown ∧ grown.Filled := by
  have leavesIn : ∀ leaf ∈ leaves, leaf ∈ tree.leaves := by
    intro leaf inside
    rw [← tree.leaves_bottoms]
    apply List.mem_flatMap.mpr
    exact ⟨_, isBottom, by rwa [flatTree_leaves]⟩
  have nonempty : leaves ≠ [] := by
    rintro rfl
    exact Nat.not_lt_zero _ below
  have some_leaf : tree.leaves ≠ [] := by
    obtain ⟨leaf, inside⟩ := List.exists_mem_of_ne_nil _ nonempty
    exact List.ne_nil_of_mem (leavesIn leaf inside)
  obtain ⟨bottom, belongs, -, target⟩ :=
    btreeInsertionSearch_belongs stores filled some_leaf increasing insertion.key
  obtain ⟨left, right, whole, less, -⟩ := belongs.place
  have same : bottom = flatTree block leaves := by
    apply List.inj_on_of_nodup_map (owned.distinct.sublist tree.bottoms_blocks) _ isBottom
    · exact (Option.some.inj (search.symm.trans target)).symm
    · rw [whole]
      simp
  rw [same] at whole
  have increasingBottom : Increasing leaves := by
    have inTree := increasing
    rw [← tree.leaves_bottoms] at inTree
    have inNode := increasing_child inTree isBottom
    rwa [flatTree_leaves] at inNode
  obtain ⟨before, after, rfl, split⟩ := exists_splitAt insertion.key increasingBottom
    fun leaf inside => absent leaf (leavesIn leaf inside)
  have notLast : after ≠ [] := by
    rintro rfl
    rw [List.append_nil] at nonempty below
    have last := lastKey_lt nonempty split.smaller
    omega
  obtain ⟨page, s1, s2, created⟩ := leafCreated owned free insertion
  have stores2 := stores.congr created.kept
  have search2 := (btreeInsertionSearch_congr stores stores2 filled some_leaf increasing
    insertion.key).trans search
  have load2 : btreeNodeLoad s2 block = some node := by
    rw [created.kept block ((Tree.bottom_blocks isBottom).subset List.mem_cons_self), load]
  obtain ⟨above, storesBottom⟩ := stores2.atBottom isBottom
  obtain ⟨inner, stored⟩ := stores_flatTree.mp storesBottom
  obtain rfl := Option.some.inj (load2.symm.trans stored.load)
  obtain ⟨notIn, distinct⟩ := List.nodup_cons.mp created.owned.distinct
  have sub := Tree.bottom_blocks isBottom
  rw [flatTree_blocks] at sub
  have distinctBottom : (block :: (insertion.leaf page :: (before ++ after)).map Leaf.block).Nodup := by
    have apart : (page :: block :: (before ++ after).map Leaf.block).Nodup :=
      List.nodup_cons.mpr ⟨fun inside => notIn (sub.subset inside), distinct.sublist sub⟩
    exact (List.Perm.swap block page _).nodup apart
  obtain ⟨changed, s3, s4, nonfull, write, -, added⟩ := btreeInsertNonfull_spec stored created.leaf
    (created.owned.nonzero page List.mem_cons_self) distinctBottom room split.smaller split.greater
  have place : min before.length node.numKeys = before.length := by
    obtain ⟨-, extra, -⟩ := stored.counts
    have positive := List.length_pos_iff.mpr notLast
    rw [List.length_append] at extra
    omega
  have storedNew := added.stored
  rw [place, insertIdx_between] at storedNew
  obtain ⟨grown, replaced, bottoms⟩ :=
    exists_replaced (flatTree block (before ++ insertion.leaf page :: after)) whole
  have oldLeaf : (flatTree block (before ++ after)).leaves ≠ [] := by
    rwa [flatTree_leaves]
  have newLeaf : (flatTree block (before ++ insertion.leaf page :: after)).leaves ≠ [] := by
    simp
  have sameKey : lastKey (flatTree block (before ++ insertion.leaf page :: after)).leaves =
      lastKey (flatTree block (before ++ after)).leaves := by
    rw [flatTree_leaves, flatTree_leaves, lastKey_append before notLast,
      lastKey_append before (List.cons_ne_nil _ _), ← List.singleton_append,
      lastKey_append _ notLast]
  have blocks : grown.blocks.Perm (page :: tree.blocks) := by
    apply replaced.blocks
    rw [flatTree_blocks, flatTree_blocks, List.map_append, List.map_append, List.map_cons]
    exact (List.perm_middle.cons block).trans (List.Perm.swap page block _)
  have filled' := replaced.filled newLeaf filled
  have stores4 : Stores s4 0 grown := by
    apply replaced.stores oldLeaf newLeaf sameKey rfl stores2 distinct
    · intro other inside notBlock
      apply added.changes.other
      have notPage : other ≠ page := by
        rintro rfl
        exact notIn inside
      simpa using ⟨notPage, notBlock⟩
    · intro parent storesOld
      obtain ⟨other, storedOld⟩ := stores_flatTree.mp storesOld
      obtain rfl := Option.some.inj (load2.symm.trans storedOld.load)
      have sameParent : above = parent := stored.holds.parent.symm.trans storedOld.holds.parent
      rw [← sameParent]
      exact stores_flatTree.mpr ⟨changed, storedNew⟩
  have owned4 : Owned s4 grown.blocks :=
    (created.owned.perm blocks.symm).sameBitmap added.changes.bitmap
  have isBottom' : flatTree block (before ++ insertion.leaf page :: after) ∈ grown.bottoms := by
    rw [bottoms]
    simp
  obtain ⟨s5, update, changes⟩ :=
    stores4.updateParentKeys filled' owned4.nonzero isBottom' storedNew.load
  obtain ⟨inOrder, order⟩ := Belongs.splitAt increasing whole less split notLast
  have leaves' : grown.leaves = (left.flatMap Tree.leaves ++ before) ++
      insertion.leaf page :: (after ++ right.flatMap Tree.leaves) := by
    rw [← grown.leaves_bottoms, bottoms, List.flatMap_append, List.flatMap_cons, flatTree_leaves]
    simp only [List.append_assoc, List.cons_append]
  refine ⟨page, s5, grown, ?_, ?_, filled'⟩
  · rw [btreeInsert_room created search2 load2 room]
    have nonfull' : btreeInsertNonfull s2 node page = some (changed, s3) := nonfull
    unfold insertInto
    rw [nonfull', Option.bind_eq_bind, Option.bind_some]
    dsimp only
    rw [write, Option.bind_eq_bind, Option.bind_some, update]
  · constructor
    · exact stores4.congr fun other _ => changes.other other List.not_mem_nil
    · exact replaced.block rfl
    · exact blocks
    · exact owned4.sameBitmap changes.bitmap
    · exact ⟨_, _, inOrder, leaves'⟩
    · rw [leaves']
      apply increasing_insert _ order
      rwa [← inOrder]
    · intro other notPage notBlock
      rw [changes.other other List.not_mem_nil, added.changes.other other (by
        simpa using ⟨notPage, notBlock⟩), created.other other notPage]

/-- A key below the largest one of the first node over leaves is inserted there. -/
theorem btreeInsert_deep_two :
    ∃ page s' grown, btreeInsert (twoBottoms.image 8) 2 5 1 0 = some s' ∧
      LeafInserted (twoBottoms.image 8) twoBottoms 3 ⟨page, 5, 1, 0⟩ s' grown ∧ grown.Filled :=
  btreeInsert_deep (Tree.image_owned (by decide) (by decide) (by decide) (by decide))
    (Tree.image_stores twoBottoms_fits (by decide) (by decide))
    (show Increasing [⟨4, 10, 0, 0⟩, ⟨6, 20, 0, 0⟩] by simp [Increasing]) twoBottoms_fits.filled ⟨5, 1, 0⟩
    (by decide) (nodeStore_free (by decide) (List.nodup_singleton 7) (by decide)) (by decide)
    (show flatTree 3 [⟨4, 10, 0, 0⟩] ∈ twoBottoms.bottoms from List.mem_cons_self)
    (load_eq_some.mpr ⟨by decide, rfl⟩) (by decide) (by decide)

/-- With an empty node as a last child, a new key goes to a node where it is not found. -/
theorem btreeInsert_deep_false :
    ¬ ∀ (s : Store) (depth block : Nat) (tree : Tree (depth + 1)) (leaves : List Leaf) (node : BTreeNode)
      (insertion : Insertion), Owned s tree.blocks → Stores s 0 tree → Increasing tree.leaves →
      (∀ leaf ∈ tree.leaves, leaf.key ≠ insertion.key) → 1 ≤ s.freeCount →
      btreeInsertionSearch s tree.block insertion.key = some block →
      flatTree block leaves ∈ tree.bottoms → btreeNodeLoad s block = some node →
      node.numKeys < maxKeys → insertion.key < lastKey leaves →
      ∃ page s' grown,
        btreeInsert s tree.block insertion.key insertion.value insertion.type = some s' ∧
        LeafInserted s tree block (insertion.leaf page) s' grown := by
  intro claim
  have free : [10].length ≤ emptyLastStore.freeCount :=
    nodeStore_free (by decide) (List.nodup_singleton 10) (by decide)
  have owned : Owned emptyLastStore emptyLast.blocks := by
    refine ⟨nodeStore_formatted (by decide) (by decide), by decide, by decide, by decide, ?_⟩
    decide +kernel
  obtain ⟨page, s', grown, insert, inserted⟩ := claim emptyLastStore 2 8 emptyLast [⟨9, 20, 0, 0⟩] _
    ⟨5, 0, 0⟩ owned emptyLastStore_stores
    (show Increasing [⟨5, 10, 0, 0⟩, ⟨9, 20, 0, 0⟩] by simp [Increasing]) (by decide) free (by decide)
    (show flatTree 8 [⟨9, 20, 0, 0⟩] ∈ emptyLast.bottoms from
      List.mem_cons_of_mem _ (List.mem_cons_of_mem _ List.mem_cons_self))
    (load_eq_some.mpr ⟨by decide, rfl⟩) (by decide) (by decide)
  have lost : ((btreeInsert emptyLastStore 2 5 0 0).bind fun s => btreeSearch s 2 5) = some 0 := by
    decide +kernel
  have insert' : btreeInsert emptyLastStore 2 5 0 0 = some s' := insert
  rw [insert', Option.bind_some] at lost
  obtain ⟨before, after, -, leaves⟩ := inserted.leaves
  have isLeaf : (⟨page, 5, 0, 0⟩ : Leaf) ∈ grown.leaves := by
    rw [leaves]
    exact List.mem_append_right _ List.mem_cons_self
  have found : btreeSearch s' grown.block 5 = some page :=
    btreeSearchFrom_leaf grown 0 s'.walkFuel inserted.stores inserted.increasing
      (inserted.stores.depth_lt_total (List.ne_nil_of_mem isLeaf)) isLeaf
  have root : grown.block = 2 := inserted.root
  rw [root, lost] at found
  have zero : page = 0 := (Option.some.inj found).symm
  apply inserted.owned.nonzero page _ zero
  apply inserted.blocks.mem_iff.mpr
  exact List.mem_cons_self

end

end Nbtrfs
