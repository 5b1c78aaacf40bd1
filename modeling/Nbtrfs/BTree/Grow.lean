import Nbtrfs.BTree.Paths

/-!
# One insertion

A permitted insertion keeps the tree and adds its leaf, in a root over leaves and in a split
tree.
-/

namespace Nbtrfs

section

variable {s s' : Store}

section Flat

variable {root : Nat} {node : BTreeNode} {leaves : List Leaf}

/-- The root is the target after the creation of the new leaf, too. -/
theorem LeafCreated.flat {page : Nat} {s1 s2 : Store} {insertion : Insertion}
    (created : LeafCreated s (root :: leaves.map Leaf.block) insertion page s1 s2)
    (stored : OverLeaves s root 0 node leaves) :
    OverLeaves s2 root 0 node leaves ∧ btreeInsertionSearch s2 root insertion.key = some root := by
  have stored2 : OverLeaves s2 root 0 node leaves :=
    stored.congr (created.kept root List.mem_cons_self)
      fun leaf inside => created.kept _ (List.mem_cons_of_mem _ (List.mem_map_of_mem inside))
  exact ⟨stored2, btreeInsertionSearch_flat insertion.key stored2⟩

/-- An insertion into a root with room. -/
theorem btreeInsert_flat_room (owned : Owned s (root :: leaves.map Leaf.block))
    (stored : OverLeaves s root 0 node leaves) (increasing : Increasing leaves)
    (insertion : Insertion) (absent : ∀ leaf ∈ leaves, leaf.key ≠ insertion.key)
    (free : 1 ≤ s.freeCount) (room : node.numKeys < maxKeys)
    (inFront : node.children node.numKeys = 0 ∨ insertion.key < lastKey leaves) :
    ∃ page s' changed before after, leaves = before ++ after ∧
      SplitAt insertion.key before after ∧
      btreeInsert s root insertion.key insertion.value insertion.type = some s' ∧
      Owned s' (root :: (before ++ insertion.leaf page :: after).map Leaf.block) ∧
      OverLeaves s' root 0 changed (before ++ insertion.leaf page :: after) ∧
      Enlarged node changed ∧ s'.freeCount + 1 = s.freeCount ∧
      ∀ block, block ≠ page → block ≠ root → btreeNodeLoad s' block = btreeNodeLoad s block := by
  obtain ⟨page, s1, s2, created⟩ := leafCreated owned free insertion
  obtain ⟨stored2, search⟩ := created.flat stored
  obtain ⟨before, after, rfl, split⟩ := exists_splitAt insertion.key increasing absent
  obtain ⟨s', changed, run, changes, owned', stored', count⟩ := insertInto_flat created.owned
    stored2 created.leaf room split (stored2.place split inFront)
  refine ⟨page, s', changed, before, after, rfl, split, ?_, owned', stored', count, ?_, ?_⟩
  · rw [btreeInsert_room created search stored2.load room]
    exact run
  · rw [(changes.bitmap.samePages created.owned.formatted.bitmapped).freeCount]
    exact created.freeCount
  · intro block notPage notRoot
    have outside : block ∉ [page, root] :=
      List.not_mem_cons_of_ne_of_not_mem notPage fun inside => notRoot (List.mem_singleton.mp inside)
    exact (changes.other block outside).trans (created.other block notPage)

/-- An insertion behind the last leaf of a full root without an extra child. -/
theorem btreeInsert_flat_extra (owned : Owned s (root :: leaves.map Leaf.block))
    (stored : OverLeaves s root 0 node leaves) (insertion : Insertion) (free : 1 ≤ s.freeCount)
    (full : node.numKeys = maxKeys) (empty : node.children maxKeys = 0)
    (behind : lastKey leaves < insertion.key) :
    ∃ page s' changed,
      btreeInsert s root insertion.key insertion.value insertion.type = some s' ∧
      Owned s' (root :: (leaves ++ [insertion.leaf page]).map Leaf.block) ∧
      OverLeaves s' root 0 changed (leaves ++ [insertion.leaf page]) ∧
      changed.numKeys = maxKeys ∧ s'.freeCount + 1 = s.freeCount := by
  obtain ⟨page, s1, s2, created⟩ := leafCreated owned free insertion
  obtain ⟨stored2, search⟩ := created.flat stored
  obtain ⟨length, lastIs⟩ := stored2.full full empty
  obtain ⟨s3, s4, modify, write, update, bitmap, owned', stored'⟩ :=
    insertExtra_flat created.owned stored2 created.leaf full length
  refine ⟨page, s4, _, ?_, owned', stored', full, ?_⟩
  · rw [btreeInsert_extra created search stored2.load full (by rw [lastIs]; exact behind) empty]
    have modify' : btreeNodeModify s2 page (fun node' => { node' with parent := node.blockNumber }) =
        some s3 := modify
    have write' : btreeNodeWrite s3 (node.withLast page) = some s4 := write
    have update' : btreeUpdateParentKeys s4 (node.withLast page) = some s4 := update
    rw [modify', Option.bind_eq_bind, Option.bind_some, write', Option.bind_some, update']
  · rw [(bitmap.samePages created.owned.formatted.bitmapped).freeCount]
    exact created.freeCount

/-- An insertion into a full root splits it and goes on in the split tree. -/
theorem btreeInsert_flat_split (owned : Owned s (root :: leaves.map Leaf.block))
    (stored : OverLeaves s root 0 node leaves) (insertion : Insertion) (free : 3 ≤ s.freeCount)
    (full : node.numKeys = maxKeys)
    (inside : ¬ (node.keys (maxKeys - 1) < insertion.key ∧ node.children maxKeys = 0)) :
    ∃ page childA childB s3,
      Owned s3 (splitBlocks root childA childB (firstHalf leaves ++ secondHalf leaves)
        (insertion.leaf page)) ∧
      SplitTree s3 root childA childB (firstHalf leaves) (secondHalf leaves) ∧
      (∀ right, btreeNodeLoad s3 childB = some right → right.numKeys = minKeys - 1) ∧
      StoresLeaf s3 0 (insertion.leaf page) ∧
      ∀ next second, btreeInsertionSearch s3 root insertion.key = some next →
        btreeNodeLoad s3 next = some second →
        btreeInsert s root insertion.key insertion.value insertion.type =
          insertInto s3 second page := by
  obtain ⟨page, s1, s2, created⟩ := leafCreated owned (by omega) insertion
  obtain ⟨stored2, search⟩ := created.flat stored
  have count := created.freeCount
  obtain ⟨childA, childB, split, s3, run, owned3, tree, countB, kept⟩ :=
    btreeSplitRoot_spec created.owned (by omega) stored2 full
  refine ⟨page, childA, childB, s3, ?_, tree, countB, ?_, ?_⟩
  · rw [halves_append]
    exact owned3
  · obtain ⟨leafNode, load, holds⟩ := created.leaf
    exact ⟨leafNode, kept.trans load, holds⟩
  · intro next second search' load'
    exact btreeInsert_split created search stored2.load full inside stored2.holds.parent run search'
      load'

/-- A permitted insertion into a root over leaves keeps the tree. -/
theorem FlatTree.grow (flat : FlatTree s root leaves) (increasing : Increasing leaves)
    (insertion : Insertion) (absent : ∀ leaf ∈ leaves, leaf.key ≠ insertion.key)
    (permits : InsertPermits s root insertion.key) :
    ∃ page s' grown, btreeInsert s root insertion.key insertion.value insertion.type = some s' ∧
      GrownTree s' root grown ∧ grown.Perm (insertion.leaf page :: leaves) := by
  obtain ⟨node, stored⟩ := flat.node
  obtain ⟨block, target, largest, search, load, maximum, branches⟩ := permits
  rw [btreeInsertionSearch_flat insertion.key stored] at search
  obtain rfl := Option.some.inj search
  obtain rfl := Option.some.inj (stored.load.symm.trans load)
  obtain rfl := Option.some.inj ((btreeFindMaximum_overLeaves stored).symm.trans maximum)
  rcases branches with ⟨free, room, inFront⟩ | ⟨free, full, empty, behind⟩ | ⟨free, full, -, before⟩
  · obtain ⟨page, s', changed, before, after, rfl, split, run, owned, stored', -⟩ :=
      btreeInsert_flat_room flat.owned stored increasing insertion absent free room inFront
    exact ⟨page, s', _, run, ⟨increasing_insert increasing split, Or.inl ⟨owned, changed, stored'⟩⟩,
      List.perm_middle⟩
  · obtain ⟨page, s', changed, run, owned, stored', -⟩ :=
      btreeInsert_flat_extra flat.owned stored insertion free full empty behind
    have split : SplitAt (insertion.leaf page).key leaves [] := by
      refine ⟨fun leaf inside => ?_, by simp⟩
      have bound := le_lastKey increasing inside
      show leaf.key < insertion.key
      omega
    have increasing' := increasing
    rw [← List.append_nil leaves] at increasing'
    exact ⟨page, s', _, run, ⟨increasing_insert increasing' split, Or.inl ⟨owned, changed, stored'⟩⟩,
      List.perm_append_singleton _ _⟩
  · obtain ⟨enough, extra, -⟩ := stored.counts
    have half : minKeys + minKeys = maxKeys := rfl
    have small : minKeys = 125 := rfl
    have inside : ¬ (node.keys (maxKeys - 1) < insertion.key ∧ node.children maxKeys = 0) := by
      rintro ⟨less, empty⟩
      have lastIs := (stored.full full empty).2
      omega
    obtain ⟨page, childA, childB, s3, owned, tree, countB, fresh, run⟩ :=
      btreeInsert_flat_split flat.owned stored insertion free full inside
    have whole := halves_append leaves
    have nonemptyA : firstHalf leaves ≠ [] := by
      intro none
      have length := congrArg List.length none
      rw [firstHalf, List.length_take, List.length_nil] at length
      omega
    have nonemptyB : secondHalf leaves ≠ [] := by
      intro none
      have length := congrArg List.length none
      rw [secondHalf, List.length_drop, List.length_nil] at length
      omega
    obtain ⟨nonzeroA, nonzeroB, -, -⟩ := owned.splitNonzero
    have search := tree.insertionSearch nonemptyA nonzeroA nonzeroB owned.splitDistinct.rootNodes.1
      insertion.key
    have increasing' := increasing
    have absent' := absent
    rw [← whole] at increasing' absent'
    obtain ⟨next, second, largest', search', load', maximum', room, inFront⟩ :
        ∃ next second largest, btreeInsertionSearch s3 root insertion.key = some next ∧
          btreeNodeLoad s3 next = some second ∧ btreeFindMaximum s3 next = some largest ∧
          second.numKeys < maxKeys ∧ insertion.key < largest := by
      obtain ⟨-, ⟨nodeA, storedA⟩, ⟨nodeB, storedB⟩⟩ := tree
      by_cases low : insertion.key ≤ lastKey (firstHalf leaves)
      · rw [if_pos low] at search
        refine ⟨childA, nodeA, _, search, storedA.load, btreeFindMaximum_overLeaves storedA, ?_, ?_⟩
        · have count := storedA.counts.1
          rw [firstHalf, List.length_take] at count
          omega
        · exact lt_lastKey nonemptyA low
            fun leaf isLeaf => absent leaf (List.mem_of_mem_take isLeaf)
      · rw [if_neg low] at search
        refine ⟨childB, nodeB, _, search, storedB.load, btreeFindMaximum_overLeaves storedB, ?_, ?_⟩
        · rw [countB nodeB storedB.load]
          omega
        · rw [← lastKey_append (firstHalf leaves) nonemptyB, whole]
          exact before
    obtain ⟨s', grown, insert, grownTree, perm⟩ := tree.grow owned nonemptyA nonemptyB increasing'
      absent' fresh search' load' maximum' room (Or.inr inFront)
    rw [whole] at perm
    exact ⟨page, s', grown, (run next second search' load').trans insert, grownTree, perm⟩

end Flat

/-- A split tree stays stored while its nodes load the same. -/
theorem SplitTree.congr {root childA childB : Nat} {leavesA leavesB : List Leaf}
    (tree : SplitTree s root childA childB leavesA leavesB)
    (same : ∀ block ∈ childA :: childB :: root :: (leavesA ++ leavesB).map Leaf.block,
      btreeNodeLoad s' block = btreeNodeLoad s block) :
    SplitTree s' root childA childB leavesA leavesB := by
  obtain ⟨⟨node, load, count, holds⟩, ⟨nodeA, storedA⟩, ⟨nodeB, storedB⟩⟩ := tree
  refine ⟨⟨node, (same root (by simp)).trans load, count, holds⟩, ⟨nodeA, ?_⟩, ⟨nodeB, ?_⟩⟩
  · apply storedA.congr (same childA (by simp))
    intro leaf inside
    have inTree : leaf.block ∈ (leavesA ++ leavesB).map Leaf.block :=
      List.mem_map_of_mem (List.mem_append_left _ inside)
    exact same leaf.block (by simp only [List.mem_cons, inTree, or_true])
  · apply storedB.congr (same childB (by simp))
    intro leaf inside
    have inTree : leaf.block ∈ (leavesA ++ leavesB).map Leaf.block :=
      List.mem_map_of_mem (List.mem_append_right _ inside)
    exact same leaf.block (by simp only [List.mem_cons, inTree, or_true])

/-- A permitted insertion into a split tree keeps the tree. -/
theorem TwoTree.grow {root childA childB : Nat} {leavesA leavesB : List Leaf}
    (two : TwoTree s root childA childB leavesA leavesB) (increasing : Increasing (leavesA ++ leavesB))
    (insertion : Insertion) (absent : ∀ leaf ∈ leavesA ++ leavesB, leaf.key ≠ insertion.key)
    (permits : InsertPermits s root insertion.key) :
    ∃ page s' grown, btreeInsert s root insertion.key insertion.value insertion.type = some s' ∧
      GrownTree s' root grown ∧ grown.Perm (insertion.leaf page :: (leavesA ++ leavesB)) := by
  obtain ⟨block, target, largest, search, load, maximum, branches⟩ := permits
  have free : 1 ≤ s.freeCount := by
    rcases branches with ⟨free, -⟩ | ⟨free, -⟩ | ⟨free, -⟩ <;> omega
  obtain ⟨page, s1, s2, created⟩ := leafCreated two.owned free insertion
  have owned2 : Owned s2 (splitBlocks root childA childB (leavesA ++ leavesB)
      (insertion.leaf page)) := by
    apply created.owned.perm
    exact (List.Perm.swap childA page _).trans ((List.Perm.swap childB page _).cons childA)
  have tree2 := two.tree.congr created.kept
  obtain ⟨nonzeroA, nonzeroB, -, -⟩ := owned2.splitNonzero
  have apart := owned2.splitDistinct
  have search2 := tree2.insertionSearch two.nonemptyA nonzeroA nonzeroB apart.rootNodes.1 insertion.key
  have target1 := two.tree.insertionSearch two.nonemptyA nonzeroA nonzeroB apart.rootNodes.1
    insertion.key
  rw [← target1, search] at search2
  have isNode : block = childA ∨ block = childB := by
    rw [search] at target1
    have isTarget := Option.some.inj target1
    split at isTarget
    · exact Or.inl isTarget
    · exact Or.inr isTarget
  obtain ⟨load2, maximum2⟩ : btreeNodeLoad s2 block = some target ∧
      btreeFindMaximum s2 block = some largest := by
    obtain ⟨-, ⟨nodeA, storedA⟩, ⟨nodeB, storedB⟩⟩ := two.tree
    obtain ⟨-, ⟨nodeA2, storedA2⟩, ⟨nodeB2, storedB2⟩⟩ := tree2
    rcases isNode with rfl | rfl
    · exact ⟨(created.kept block (by simp)).trans load, (btreeFindMaximum_overLeaves storedA2).trans
        ((btreeFindMaximum_overLeaves storedA).symm.trans maximum)⟩
    · exact ⟨(created.kept block (by simp)).trans load, (btreeFindMaximum_overLeaves storedB2).trans
        ((btreeFindMaximum_overLeaves storedB).symm.trans maximum)⟩
  rcases branches with ⟨-, room, inFront⟩ | ⟨-, full, empty, behind⟩ | ⟨-, -, isRoot, -⟩
  · obtain ⟨s', grown, insert, grownTree, perm⟩ := tree2.grow owned2 two.nonemptyA two.nonemptyB
      increasing absent created.leaf search2 load2 maximum2 room inFront
    exact ⟨page, s', grown, (btreeInsert_room created search2 load2 room).trans insert, grownTree,
      perm⟩
  · obtain ⟨-, ⟨nodeA2, storedA2⟩, ⟨nodeB2, storedB2⟩⟩ := id tree2
    have notA : ¬ insertion.key ≤ lastKey leavesA := by
      intro low
      rw [search, if_pos low] at target1
      obtain rfl := Option.some.inj target1
      have largestIs := Option.some.inj
        ((btreeFindMaximum_overLeaves storedA2).symm.trans maximum2)
      omega
    rw [search, if_neg notA] at target1
    obtain rfl := Option.some.inj target1
    obtain rfl := Option.some.inj (storedB2.load.symm.trans load2)
    have largestIs := Option.some.inj ((btreeFindMaximum_overLeaves storedB2).symm.trans maximum2)
    obtain ⟨length, lastIs⟩ := storedB2.full full empty
    obtain ⟨s3, s4, s5, modify, write, update, owned', tree'⟩ :=
      insertExtra_right owned2 tree2 storedB2 created.leaf full length
    have modify' : btreeNodeModify s2 page
        (fun node => { node with parent := nodeB2.blockNumber }) = some s3 := modify
    have write' : btreeNodeWrite s3 (nodeB2.withLast page) = some s4 := write
    have update' : btreeUpdateParentKeys s4 (nodeB2.withLast page) = some s5 := update
    have split : SplitAt (insertion.leaf page).key (leavesA ++ leavesB) [] := by
      refine ⟨fun leaf inside => ?_, by simp⟩
      have bound := le_lastKey increasing inside
      rw [lastKey_append leavesA two.nonemptyB] at bound
      show leaf.key < insertion.key
      omega
    have increasing' := increasing
    rw [← List.append_nil (leavesA ++ leavesB)] at increasing'
    have order := increasing_insert increasing' split
    rw [List.append_assoc] at order
    refine ⟨page, s5, leavesA ++ (leavesB ++ [insertion.leaf page]), ?_, ⟨order, Or.inr ⟨childA, _, _, _,
      rfl, owned', tree', two.nonemptyA, by simp⟩⟩, ?_⟩
    · rw [btreeInsert_extra created search2 load2 full (by rw [lastIs]; omega) empty, modify',
        Option.bind_eq_bind, Option.bind_some, write', Option.bind_some, update']
    · rw [← List.append_assoc]
      exact List.perm_append_singleton _ _
  · rcases isNode with same | same
    · exact absurd (isRoot.symm.trans same) apart.rootNodes.1
    · exact absurd (isRoot.symm.trans same) apart.rootNodes.2

/-- A permitted insertion of a new key keeps the tree and adds its leaf. -/
theorem GrownTree.grow {root : Nat} {leaves : List Leaf} (tree : GrownTree s root leaves)
    (insertion : Insertion) (absent : ∀ leaf ∈ leaves, leaf.key ≠ insertion.key)
    (permits : InsertPermits s root insertion.key) :
    ∃ page s' grown, btreeInsert s root insertion.key insertion.value insertion.type = some s' ∧
      GrownTree s' root grown ∧ grown.Perm (insertion.leaf page :: leaves) := by
  obtain ⟨increasing, flat | ⟨childA, childB, leavesA, leavesB, rfl, two⟩⟩ := tree
  · exact flat.grow increasing insertion absent permits
  · exact two.grow increasing insertion absent permits

end

end Nbtrfs
