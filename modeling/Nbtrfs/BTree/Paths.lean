import Nbtrfs.BTree.Target

/-!
# The paths of an insertion

The trees that insertions keep, and what each path of `btree_insert` does to them: a target with
room, a full target whose last slot takes the leaf, and the split of the root.
-/

namespace Nbtrfs

section

variable {s s' : Store}

/-- A root over leaves. -/
structure FlatTree (s : Store) (root : Nat) (leaves : List Leaf) : Prop where
  /-- The blocks are owned. -/
  owned : Owned s (root :: leaves.map Leaf.block)
  /-- The root holds the leaves. -/
  node : ∃ node, OverLeaves s root 0 node leaves

/-- A root over two nodes over leaves. -/
structure TwoTree (s : Store) (root childA childB : Nat) (leavesA leavesB : List Leaf) : Prop where
  /-- The blocks are owned. -/
  owned : Owned s (childA :: childB :: root :: (leavesA ++ leavesB).map Leaf.block)
  /-- The root holds the two nodes. -/
  tree : SplitTree s root childA childB leavesA leavesB
  /-- The first node has leaves. -/
  nonemptyA : leavesA ≠ []
  /-- The second node has leaves. -/
  nonemptyB : leavesB ≠ []

/-- A tree as insertions keep it, with its leaves in the order of their keys. -/
def GrownTree (s : Store) (root : Nat) (leaves : List Leaf) : Prop :=
  Increasing leaves ∧ (FlatTree s root leaves ∨ ∃ childA childB leavesA leavesB,
    leaves = leavesA ++ leavesB ∧ TwoTree s root childA childB leavesA leavesB)

/-- The tree of depth 2 over two nodes over leaves. -/
def twoTree (root childA childB : Nat) (leavesA leavesB : List Leaf) : Tree 2 :=
  (root, [flatTree childA leavesA, flatTree childB leavesB])

/-- The leaves of both children, in order. -/
@[simp] theorem twoTree_leaves (root childA childB : Nat) (leavesA leavesB : List Leaf) :
    (twoTree root childA childB leavesA leavesB).leaves = leavesA ++ leavesB := by
  show (flatTree childA leavesA).leaves ++ ((flatTree childB leavesB).leaves ++ []) = _
  rw [flatTree_leaves, flatTree_leaves, List.append_nil]

/-- The blocks of the tree of depth 2. -/
theorem twoTree_blocks (root childA childB : Nat) (leavesA leavesB : List Leaf) :
    (childA :: childB :: root :: (leavesA ++ leavesB).map Leaf.block).Perm
      (twoTree root childA childB leavesA leavesB).blocks := by
  show List.Perm _ (root :: ((flatTree childA leavesA).blocks ++
    ((flatTree childB leavesB).blocks ++ [])))
  rw [flatTree_blocks, flatTree_blocks, List.append_nil, List.map_append]
  have front : (childA :: childB :: root :: (leavesA.map Leaf.block ++ leavesB.map Leaf.block)).Perm
      (root :: childA :: childB :: (leavesA.map Leaf.block ++ leavesB.map Leaf.block)) :=
    ((List.Perm.swap root childB _).cons childA).trans (List.Perm.swap root childA _)
  exact front.trans ((List.perm_middle.symm.cons childA).cons root)

/-- The largest key of leaves. -/
theorem lastKey_eq {leaves : List Leaf} (nonempty : leaves ≠ []) :
    leaves.getLast?.map Leaf.key = some (lastKey leaves) := by
  obtain ⟨last, isLast⟩ : ∃ last, leaves.getLast? = some last :=
    ⟨_, List.getLast?_eq_some_getLast nonempty⟩
  rw [lastKey, isLast]
  rfl

/-- A root over two nodes over leaves is a stored tree. -/
theorem TwoTree.stores {root childA childB : Nat} {leavesA leavesB : List Leaf}
    (tree : TwoTree s root childA childB leavesA leavesB) :
    Stores s 0 (twoTree root childA childB leavesA leavesB) := by
  obtain ⟨⟨node, load, -, holds⟩, left, right⟩ := tree.tree
  refine ⟨⟨node, load, ?_⟩, ?_⟩
  · show InnerNode node root 0 [(childA, (flatTree childA leavesA).leaves.getLast?.map Leaf.key),
      (childB, (flatTree childB leavesB).leaves.getLast?.map Leaf.key)]
    rw [flatTree_leaves, flatTree_leaves, lastKey_eq tree.nonemptyA, lastKey_eq tree.nonemptyB]
    exact holds
  · intro child isChild
    rcases List.mem_cons.mp isChild with first | second
    · rw [first]
      exact ⟨tree.owned.nonzero childA (by simp), stores_flatTree.mpr left⟩
    · rw [List.mem_singleton.mp second]
      exact ⟨tree.owned.nonzero childB (by simp), stores_flatTree.mpr right⟩

/-- The search finds the leaves of a grown tree. -/
theorem GrownTree.search {root : Nat} {leaves : List Leaf} (tree : GrownTree s root leaves)
    {leaf : Leaf} (inside : leaf ∈ leaves) :
    btreeSearch s root leaf.key = some leaf.block ∧ leaf.block ≠ 0 ∧
      ∃ parent, StoresLeaf s parent leaf := by
  obtain ⟨increasing, flat | ⟨childA, childB, leavesA, leavesB, rfl, two⟩⟩ := tree
  · obtain ⟨node, stored⟩ := flat.node
    have found := btreeSearch_leaf (stores_flatTree.mpr ⟨node, stored⟩)
      (by rw [flatTree_leaves]; exact increasing) (by rw [flatTree_blocks]; exact flat.owned.distinct)
      (by rw [flatTree_leaves]; exact inside)
    exact ⟨found, (stored.below leaf inside).1, root, (stored.below leaf inside).2⟩
  · have found := btreeSearch_leaf two.stores (by rw [twoTree_leaves]; exact increasing)
      ((twoTree_blocks _ _ _ _ _).nodup two.owned.distinct) (by rw [twoTree_leaves]; exact inside)
    obtain ⟨-, ⟨nodeA, storedA⟩, ⟨nodeB, storedB⟩⟩ := two.tree
    rcases List.mem_append.mp inside with first | second
    · exact ⟨found, (storedA.below leaf first).1, childA, (storedA.below leaf first).2⟩
    · exact ⟨found, (storedB.below leaf second).1, childB, (storedB.below leaf second).2⟩

/-- The search finds nothing else in a grown tree. -/
theorem GrownTree.search_absent {root key : Nat} {leaves : List Leaf} (tree : GrownTree s root leaves)
    (absent : ∀ leaf ∈ leaves, leaf.key ≠ key) : btreeSearch s root key = some 0 := by
  obtain ⟨increasing, flat | ⟨childA, childB, leavesA, leavesB, rfl, two⟩⟩ := tree
  · obtain ⟨node, stored⟩ := flat.node
    have inside := (load_eq_some.mp stored.load).1
    exact btreeSearchFrom_absent _ 0 s.walkFuel key (stores_flatTree.mpr ⟨node, stored⟩)
      (by unfold Store.walkFuel; omega) (by rw [flatTree_leaves]; exact absent)
  · obtain ⟨first, rest, isCons⟩ := List.exists_cons_of_ne_nil two.nonemptyA
    have inTree : first ∈ (twoTree root childA childB leavesA leavesB).leaves := by
      rw [twoTree_leaves, isCons]
      exact List.mem_cons_self
    have deep := two.stores.depth_lt ((twoTree_blocks _ _ _ _ _).nodup two.owned.distinct) inTree
    exact btreeSearchFrom_absent _ 0 s.walkFuel key two.stores deep
      (by rw [twoTree_leaves]; exact absent)

/-- What is inserted: a key with its value and type. -/
structure Insertion where
  /-- The key. -/
  key : Nat
  /-- The value. -/
  value : Nat
  /-- The file type. -/
  type : Nat

/-- The leaf of an insertion in a block. -/
def Insertion.leaf (insertion : Insertion) (block : Nat) : Leaf :=
  ⟨block, insertion.key, insertion.value, insertion.type⟩

/-- The new leaf of an insertion, before it is linked. -/
structure LeafCreated (s : Store) (blocks : List Nat) (insertion : Insertion) (page : Nat)
    (s1 s2 : Store) : Prop where
  /-- The leaf is created. -/
  new : btreeNodeNew s true = some (page, s1)
  /-- Its fields are assigned. -/
  modify : btreeNodeModify s1 page (fun node => { node with
    key := insertion.key
    value := insertion.value
    type := insertion.type }) = some s2
  /-- The leaf is stored. -/
  leaf : StoresLeaf s2 0 (insertion.leaf page)
  /-- The page is owned. -/
  owned : Owned s2 (page :: blocks)
  /-- The owned nodes are kept. -/
  kept : ∀ block ∈ blocks, btreeNodeLoad s2 block = btreeNodeLoad s block
  /-- The other nodes are kept, too. -/
  other : ∀ block, block ≠ page → btreeNodeLoad s2 block = btreeNodeLoad s block
  /-- There is one free block less. -/
  freeCount : s2.freeCount + 1 = s.freeCount

/-- The creation of the new leaf. -/
theorem leafCreated {blocks : List Nat} (owned : Owned s blocks) (room : 1 ≤ s.freeCount)
    (insertion : Insertion) :
    ∃ page s1 s2, LeafCreated s blocks insertion page s1 s2 := by
  obtain ⟨page, type, s1, new, created⟩ := btreeNodeNew_spec owned.formatted (by omega) true
  obtain ⟨s2, modify, change⟩ := btreeNodeModify_spec created.here fun node => { node with
    key := insertion.key
    value := insertion.value
    type := insertion.type }
  have owned1 := owned.created created
  refine ⟨page, s1, s2, new, modify, ⟨_, change.here, rfl, rfl, rfl, rfl, rfl, rfl⟩,
    owned1.sameBitmap change.sameBitmap, ?_, ?_, ?_⟩
  · intro block inside
    have notPage : block ≠ page := by
      intro same
      exact (List.nodup_cons.mp owned1.distinct).1 (same ▸ inside)
    rw [change.other notPage, owned.load_created created inside]
  · intro block notPage
    rw [change.other notPage, created.other block notPage]
  · rw [(change.sameBitmap.samePages owned1.formatted.bitmapped).freeCount]
    exact created.freeCount

/-- The part of the leaves before a key and the part after it. -/
structure SplitAt (key : Nat) (before after : List Leaf) : Prop where
  /-- The earlier keys are smaller. -/
  smaller : ∀ leaf ∈ before, leaf.key < key
  /-- The later keys are greater. -/
  greater : ∀ leaf ∈ after, key < leaf.key

/-- Increasing leaves split at a key that none of them has. -/
theorem exists_splitAt {leaves : List Leaf} (key : Nat) (increasing : Increasing leaves)
    (absent : ∀ leaf ∈ leaves, leaf.key ≠ key) :
    ∃ before after, leaves = before ++ after ∧ SplitAt key before after := by
  induction leaves with
  | nil => exact ⟨[], [], rfl, by simp, by simp⟩
  | cons first rest ih =>
    unfold Increasing at increasing ih
    rw [List.map_cons, List.pairwise_cons] at increasing
    rcases Nat.lt_or_ge first.key key with less | more
    · obtain ⟨before, after, rfl, smaller, greater⟩ :=
        ih increasing.2 fun leaf inside => absent leaf (List.mem_cons_of_mem _ inside)
      refine ⟨first :: before, after, rfl, ?_, greater⟩
      intro leaf inside
      rcases List.mem_cons.mp inside with here | there
      · rw [here]
        exact less
      · exact smaller leaf there
    · refine ⟨[], first :: rest, rfl, by simp, ?_⟩
      have notFirst := absent first List.mem_cons_self
      intro leaf inside
      rcases List.mem_cons.mp inside with here | there
      · rw [here]
        omega
      · have larger := increasing.1 leaf.key (List.mem_map_of_mem there)
        omega

/-- A new leaf between the two parts keeps the order. -/
theorem increasing_insert {before after : List Leaf} {leaf : Leaf}
    (increasing : Increasing (before ++ after)) (split : SplitAt leaf.key before after) :
    Increasing (before ++ leaf :: after) := by
  unfold Increasing at increasing ⊢
  rw [List.map_append, List.pairwise_append] at increasing ⊢
  rw [List.map_cons, List.pairwise_cons]
  refine ⟨increasing.1, ⟨?_, increasing.2.1⟩, ?_⟩
  · intro key inside
    obtain ⟨other, isOther, rfl⟩ := List.mem_map.mp inside
    exact split.greater other isOther
  · intro first isFirst second isSecond
    obtain ⟨other, isOther, rfl⟩ := List.mem_map.mp isFirst
    rcases List.mem_cons.mp isSecond with here | there
    · rw [here]
      exact split.smaller other isOther
    · exact increasing.2.2 _ isFirst _ there

/-- The place between the two parts. -/
theorem insertIdx_between (before after : List Leaf) (leaf : Leaf) :
    (before ++ after).insertIdx before.length leaf = before ++ leaf :: after := by
  induction before with
  | nil => rfl
  | cons first rest ih =>
    rw [List.cons_append, List.length_cons, List.insertIdx_succ_cons, ih]
    rfl

/-- The last key of leaves that all have smaller keys than a key is smaller. -/
theorem lastKey_lt {leaves : List Leaf} {key : Nat} (nonempty : leaves ≠ [])
    (smaller : ∀ leaf ∈ leaves, leaf.key < key) : lastKey leaves < key := by
  obtain ⟨last, isLast⟩ : ∃ last, leaves.getLast? = some last :=
    ⟨_, List.getLast?_eq_some_getLast nonempty⟩
  rw [lastKey, isLast]
  exact smaller last (List.mem_of_getLast? isLast)

/-- An absent key that is at most the last one is below it. -/
theorem lt_lastKey {leaves : List Leaf} {key : Nat} (nonempty : leaves ≠ [])
    (atMost : key ≤ lastKey leaves) (absent : ∀ leaf ∈ leaves, leaf.key ≠ key) :
    key < lastKey leaves := by
  obtain ⟨last, isLast, same⟩ := Option.map_eq_some_iff.mp (lastKey_eq nonempty)
  have differs := absent last (List.mem_of_getLast? isLast)
  omega

/-- No key of increasing leaves is greater than the last one. -/
theorem le_lastKey {leaves : List Leaf} (increasing : Increasing leaves) {leaf : Leaf}
    (inside : leaf ∈ leaves) : leaf.key ≤ lastKey leaves := by
  have nonempty : leaves ≠ [] := List.ne_nil_of_mem inside
  have largest := lastKey_eq nonempty
  have tree : leaf ∈ (flatTree 0 leaves).leaves := by
    rw [flatTree_leaves]
    exact inside
  apply le_maxKey (by rw [flatTree_leaves]; exact increasing) tree
  rw [Tree.maxKey, flatTree_leaves, largest]

section Paths

variable {root page block : Nat} {target : BTreeNode} {insertion : Insertion} {blocks : List Nat}
  {s1 s2 : Store}

/-- The path for a target with room. -/
theorem btreeInsert_room (created : LeafCreated s blocks insertion page s1 s2)
    (search : btreeInsertionSearch s2 root insertion.key = some block)
    (load : btreeNodeLoad s2 block = some target) (room : target.numKeys < maxKeys) :
    btreeInsert s root insertion.key insertion.value insertion.type = insertInto s2 target page := by
  have notFull : target.numKeys ≠ maxKeys := by omega
  simp only [btreeInsert, created.new, created.modify, search, load, notFull, if_false,
    Option.bind_eq_bind, Option.bind_some]

/-- The path for a full target whose last slot takes the new leaf. -/
theorem btreeInsert_extra (created : LeafCreated s blocks insertion page s1 s2)
    (search : btreeInsertionSearch s2 root insertion.key = some block)
    (load : btreeNodeLoad s2 block = some target) (full : target.numKeys = maxKeys)
    (behind : target.keys (maxKeys - 1) < insertion.key) (free : target.children maxKeys = 0) :
    btreeInsert s root insertion.key insertion.value insertion.type = (do
      let s ← btreeNodeModify s2 page fun node => { node with parent := target.blockNumber }
      let s ← btreeNodeWrite s (target.withLast page)
      btreeUpdateParentKeys s (target.withLast page)) := by
  simp only [btreeInsert, created.new, created.modify, search, load, Option.bind_eq_bind,
    Option.bind_some]
  rw [if_pos full, if_pos ⟨behind, free⟩]
  rfl

/-- The path for a full root that is split. -/
theorem btreeInsert_split {split : BTreeNode} {s3 : Store}
    (created : LeafCreated s blocks insertion page s1 s2)
    (search : btreeInsertionSearch s2 root insertion.key = some block)
    (load : btreeNodeLoad s2 block = some target) (full : target.numKeys = maxKeys)
    (inside : ¬ (target.keys (maxKeys - 1) < insertion.key ∧ target.children maxKeys = 0))
    (isRoot : target.parent = 0) (run : btreeSplitRoot s2 target = some (split, s3)) {next : Nat}
    {second : BTreeNode} (search' : btreeInsertionSearch s3 root insertion.key = some next)
    (load' : btreeNodeLoad s3 next = some second) :
    btreeInsert s root insertion.key insertion.value insertion.type = insertInto s3 second page := by
  simp only [btreeInsert, created.new, created.modify, search, load, full, inside, if_true, if_false,
    isRoot, ne_eq, not_true_eq_false, run, search', load', Option.bind_eq_bind, Option.bind_some]

end Paths

/-- The blocks of a root over leaves and of a spare leaf are distinct. -/
theorem Owned.flatDistinct {root : Nat} {leaves : List Leaf} {leaf : Leaf}
    (owned : Owned s (leaf.block :: root :: leaves.map Leaf.block)) :
    (root :: (leaf :: leaves).map Leaf.block).Nodup :=
  (List.Perm.swap root leaf.block _).nodup owned.distinct

/-- The blocks of a root over leaves after the new leaf is linked. -/
theorem Owned.flatLinked {root place : Nat} {leaves : List Leaf} {leaf : Leaf}
    (owned : Owned s (leaf.block :: root :: leaves.map Leaf.block)) (inside : place ≤ leaves.length) :
    Owned s (root :: (leaves.insertIdx place leaf).map Leaf.block) := by
  apply owned.perm
  have perm := (List.perm_insertIdx leaf leaves inside).symm.map Leaf.block
  exact (List.Perm.swap root leaf.block _).trans (perm.cons root)

/-- A new leaf in a root with room. -/
theorem insertInto_flat {root : Nat} {node : BTreeNode} {before after : List Leaf} {leaf : Leaf}
    (owned : Owned s (leaf.block :: root :: (before ++ after).map Leaf.block))
    (stored : OverLeaves s root 0 node (before ++ after)) (fresh : StoresLeaf s 0 leaf)
    (room : node.numKeys < maxKeys) (split : SplitAt leaf.key before after)
    (place : before.length ≤ node.numKeys) :
    ∃ s' changed, insertInto s node leaf.block = some s' ∧ ChangesOnly s [leaf.block, root] s' ∧
      Owned s' (root :: (before ++ leaf :: after).map Leaf.block) ∧
      OverLeaves s' root 0 changed (before ++ leaf :: after) ∧ Enlarged node changed := by
  obtain ⟨changed, s1, s2, insert, write, count, added⟩ := btreeInsertNonfull_spec stored fresh
    (owned.nonzero leaf.block List.mem_cons_self) owned.flatDistinct room split.smaller split.greater
  have linked := @Owned.flatLinked s root before.length _ leaf owned (by simp)
  rw [Nat.min_eq_left place] at added
  have here := added.stored
  rw [insertIdx_between] at here linked
  refine ⟨s2, changed, ?_, added.changes, linked.sameBitmap added.changes.bitmap, here, count⟩
  simp [insertInto, insert, write, btreeUpdateParentKeys_root here.holds.parent]

/-- An extra leaf in a full root. -/
theorem insertExtra_flat {root : Nat} {node : BTreeNode} {leaves : List Leaf} {leaf : Leaf}
    (owned : Owned s (leaf.block :: root :: leaves.map Leaf.block))
    (stored : OverLeaves s root 0 node leaves) (fresh : StoresLeaf s 0 leaf)
    (full : node.numKeys = maxKeys) (length : leaves.length = maxKeys) :
    ∃ s1 s2, btreeNodeModify s leaf.block
        (fun page => { page with parent := node.blockNumber }) = some s1 ∧
      btreeNodeWrite s1 (node.withLast leaf.block) = some s2 ∧
      btreeUpdateParentKeys s2 (node.withLast leaf.block) = some s2 ∧ SameBitmap s s2 ∧
      Owned s2 (root :: (leaves ++ [leaf]).map Leaf.block) ∧
      OverLeaves s2 root 0 (node.withLast leaf.block) (leaves ++ [leaf]) := by
  obtain ⟨s1, s2, modify, write, added⟩ := extraChild_spec stored fresh
    (owned.nonzero leaf.block List.mem_cons_self) owned.flatDistinct full length
  have linked := @Owned.flatLinked s root leaves.length _ leaf owned (by simp)
  rw [← length] at added
  have here := added.stored
  rw [List.insertIdx_length_self] at here linked
  rw [stored.holds.blockNumber]
  exact ⟨s1, s2, modify, write, btreeUpdateParentKeys_root here.holds.parent, added.changes.bitmap,
    linked.sameBitmap added.changes.bitmap, here⟩

/-- The blocks of a split tree after the new leaf is linked. -/
theorem Owned.splitLinked {root childA childB : Nat} {leaves linked : List Leaf} {leaf : Leaf}
    (owned : Owned s (splitBlocks root childA childB leaves leaf))
    (perm : (leaf :: leaves).Perm linked) :
    Owned s (childA :: childB :: root :: linked.map Leaf.block) := by
  apply owned.perm
  have swap : (leaf.block :: root :: leaves.map Leaf.block).Perm (root :: linked.map Leaf.block) :=
    (List.Perm.swap root leaf.block _).trans ((perm.map Leaf.block).cons root)
  exact (swap.cons childB).cons childA

/-- The blocks of the first node of a split tree and of a spare leaf are distinct. -/
theorem SplitDistinct.left {root childA childB : Nat} {leavesA leavesB : List Leaf} {leaf : Leaf}
    (apart : SplitDistinct root childA childB leavesA leavesB leaf) :
    (childA :: (leaf :: leavesA).map Leaf.block).Nodup := by
  have leaves := apart.leaves
  rw [List.map_append, List.nodup_append] at leaves
  rw [List.map_cons, List.nodup_cons, List.nodup_cons]
  exact ⟨List.not_mem_cons_of_ne_of_not_mem (Ne.symm apart.leafNodes.1)
    (apart.outsideA childA (by simp)), apart.outsideA leaf.block (by simp), leaves.1⟩

/-- The blocks of the second node of a split tree and of a spare leaf are distinct. -/
theorem SplitDistinct.right {root childA childB : Nat} {leavesA leavesB : List Leaf} {leaf : Leaf}
    (apart : SplitDistinct root childA childB leavesA leavesB leaf) :
    (childB :: (leaf :: leavesB).map Leaf.block).Nodup := by
  have leaves := apart.leaves
  rw [List.map_append, List.nodup_append] at leaves
  rw [List.map_cons, List.nodup_cons, List.nodup_cons]
  exact ⟨List.not_mem_cons_of_ne_of_not_mem (Ne.symm apart.leafNodes.2.1)
    (apart.outsideB childB (by simp)), apart.outsideB leaf.block (by simp), leaves.2.1⟩

/-- A new leaf in the first node of a split tree. -/
theorem insertInto_left {root childA childB : Nat} {node : BTreeNode}
    {before after leavesB : List Leaf} {leaf : Leaf}
    (owned : Owned s (splitBlocks root childA childB ((before ++ after) ++ leavesB) leaf))
    (tree : SplitTree s root childA childB (before ++ after) leavesB)
    (stored : OverLeaves s childA root node (before ++ after)) (fresh : StoresLeaf s 0 leaf)
    (room : node.numKeys < maxKeys) (split : SplitAt leaf.key before after)
    (place : before.length ≤ node.numKeys) :
    ∃ s', insertInto s node leaf.block = some s' ∧
      Owned s' (childA :: childB :: root ::
        ((before ++ leaf :: after) ++ leavesB).map Leaf.block) ∧
      SplitTree s' root childA childB (before ++ leaf :: after) leavesB := by
  obtain ⟨-, -, nonzero, -⟩ := owned.splitNonzero
  obtain ⟨changed, s1, s2, insert, write, -, added⟩ := btreeInsertNonfull_spec stored fresh nonzero
    owned.splitDistinct.left room split.smaller split.greater
  rw [Nat.min_eq_left place] at added
  obtain ⟨s3, update, bitmap, tree'⟩ := tree.leafAdded_left owned added
  rw [insertIdx_between] at tree'
  have perm : (leaf :: ((before ++ after) ++ leavesB)).Perm
      ((before ++ leaf :: after) ++ leavesB) :=
    List.Perm.append_right leavesB List.perm_middle.symm
  refine ⟨s3, ?_, (owned.splitLinked perm).sameBitmap bitmap, tree'⟩
  simp [insertInto, insert, write, update]

/-- A new leaf in the second node of a split tree, in front of the extra child if it has one. -/
theorem insertInto_right {root childA childB : Nat} {node : BTreeNode}
    {leavesA before after : List Leaf} {leaf : Leaf}
    (owned : Owned s (splitBlocks root childA childB (leavesA ++ (before ++ after)) leaf))
    (tree : SplitTree s root childA childB leavesA (before ++ after))
    (stored : OverLeaves s childB root node (before ++ after)) (fresh : StoresLeaf s 0 leaf)
    (room : node.numKeys < maxKeys) (split : SplitAt leaf.key before after) :
    ∃ s', insertInto s node leaf.block = some s' ∧
      SameBitmap s s' ∧ SplitTree s' root childA childB leavesA
        ((before ++ after).insertIdx (min before.length node.numKeys) leaf) := by
  obtain ⟨-, -, nonzero, -⟩ := owned.splitNonzero
  obtain ⟨changed, s1, s2, insert, write, -, added⟩ := btreeInsertNonfull_spec stored fresh nonzero
    owned.splitDistinct.right room split.smaller split.greater
  obtain ⟨s3, update, bitmap, tree'⟩ := tree.leafAdded_right owned added
  refine ⟨s3, ?_, bitmap, tree'⟩
  simp [insertInto, insert, write, update]

/-- An extra leaf in the full second node of a split tree. -/
theorem insertExtra_right {root childA childB : Nat} {node : BTreeNode} {leavesA leavesB : List Leaf}
    {leaf : Leaf} (owned : Owned s (splitBlocks root childA childB (leavesA ++ leavesB) leaf))
    (tree : SplitTree s root childA childB leavesA leavesB)
    (stored : OverLeaves s childB root node leavesB) (fresh : StoresLeaf s 0 leaf)
    (full : node.numKeys = maxKeys) (length : leavesB.length = maxKeys) :
    ∃ s1 s2 s3, btreeNodeModify s leaf.block
        (fun page => { page with parent := node.blockNumber }) = some s1 ∧
      btreeNodeWrite s1 (node.withLast leaf.block) = some s2 ∧
      btreeUpdateParentKeys s2 (node.withLast leaf.block) = some s3 ∧
      Owned s3 (childA :: childB :: root :: (leavesA ++ (leavesB ++ [leaf])).map Leaf.block) ∧
      SplitTree s3 root childA childB leavesA (leavesB ++ [leaf]) := by
  obtain ⟨-, -, nonzero, -⟩ := owned.splitNonzero
  obtain ⟨s1, s2, modify, write, added⟩ := extraChild_spec stored fresh nonzero
    owned.splitDistinct.right full length
  rw [← length] at added
  obtain ⟨s3, update, bitmap, tree'⟩ := tree.leafAdded_right owned added
  rw [List.insertIdx_length_self] at tree'
  rw [stored.holds.blockNumber]
  have perm : (leaf :: (leavesA ++ leavesB)).Perm (leavesA ++ (leavesB ++ [leaf])) := by
    rw [← List.append_assoc]
    exact (List.perm_append_singleton leaf _).symm
  exact ⟨s1, s2, s3, modify, write, update, (owned.splitLinked perm).sameBitmap bitmap, tree'⟩

/-- The insertions that keep the tree: the target has room and the leaf does not come behind an
extra child; or the target is full without an extra child and the leaf comes last; or the root is
full and the leaf does not come last. The allocations of these paths find a free block. -/
def InsertPermits (s : Store) (rootBlock key : Nat) : Prop :=
  ∃ block target largest, btreeInsertionSearch s rootBlock key = some block ∧
    btreeNodeLoad s block = some target ∧ btreeFindMaximum s block = some largest ∧
    ((1 ≤ s.freeCount ∧ target.numKeys < maxKeys ∧
        (target.children target.numKeys = 0 ∨ key < largest)) ∨
      (1 ≤ s.freeCount ∧ target.numKeys = maxKeys ∧ target.children maxKeys = 0 ∧ largest < key) ∨
      (3 ≤ s.freeCount ∧ target.numKeys = maxKeys ∧ block = rootBlock ∧ key < largest))

/-- A leaf that does not come behind an extra child has its place among the children with keys. -/
theorem OverLeaves.place {block parent key : Nat} {node : BTreeNode} {before after : List Leaf}
    (stored : OverLeaves s block parent node (before ++ after)) (split : SplitAt key before after)
    (inFront : node.children node.numKeys = 0 ∨ key < lastKey (before ++ after)) :
    before.length ≤ node.numKeys := by
  obtain ⟨-, extra, fits⟩ := stored.counts
  rw [List.length_append] at extra
  by_contra behind
  have isEmpty : after = [] := List.length_eq_zero_iff.mp (by omega)
  subst isEmpty
  rw [List.append_nil] at stored inFront
  rcases inFront with empty | less
  · obtain ⟨leaf, atIndex⟩ : ∃ leaf, before[node.numKeys]? = some leaf :=
      ⟨_, List.getElem?_eq_getElem (by omega)⟩
    obtain ⟨slot, nonzero, -⟩ := stored.leafAt fits atIndex
    exact nonzero (slot ▸ empty)
  · have nonempty : before ≠ [] := by
      intro none
      rw [none] at behind
      exact behind (Nat.zero_le _)
    have smaller := lastKey_lt nonempty split.smaller
    omega

/-- A full node with an empty last slot has as many leaves as keys, and its last key is the
largest one. -/
theorem OverLeaves.full {block parent : Nat} {node : BTreeNode} {leaves : List Leaf}
    (stored : OverLeaves s block parent node leaves) (full : node.numKeys = maxKeys)
    (empty : node.children maxKeys = 0) :
    leaves.length = maxKeys ∧ node.keys (maxKeys - 1) = lastKey leaves := by
  obtain ⟨enough, extra, -⟩ := stored.counts
  have positive : 0 < maxKeys := by decide
  have length : leaves.length = maxKeys := by
    by_contra other
    obtain ⟨leaf, atIndex⟩ : ∃ leaf, leaves[maxKeys]? = some leaf :=
      ⟨_, List.getElem?_eq_getElem (by omega)⟩
    obtain ⟨slot, nonzero, -⟩ := stored.leafAt (Nat.le_refl _) atIndex
    exact nonzero (slot ▸ empty)
  refine ⟨length, ?_⟩
  have key := stored.holds.keys (maxKeys - 1) (by omega)
  have last : leaves.getLast? = leaves[maxKeys - 1]? := by
    rw [List.getLast?_eq_getElem?, length]
  unfold lastKey
  rw [last]
  rw [leafChildren, List.getElem?_map] at key
  cases atLast : leaves[maxKeys - 1]? with
  | none =>
    rw [atLast] at key
    cases key
  | some leaf =>
    rw [atLast] at key
    exact (Option.some.inj key).symm

/-- The largest key of two lists of leaves. -/
theorem lastKey_append (first : List Leaf) {second : List Leaf} (nonempty : second ≠ []) :
    lastKey (first ++ second) = lastKey second := by
  unfold lastKey
  rw [List.getLast?_append_of_ne_nil _ nonempty]

/-- Insertion into the target of a split tree with room for the leaf. -/
theorem SplitTree.grow {root childA childB block largest : Nat} {node : BTreeNode}
    {leavesA leavesB : List Leaf} {leaf : Leaf}
    (tree : SplitTree s root childA childB leavesA leavesB)
    (owned : Owned s (splitBlocks root childA childB (leavesA ++ leavesB) leaf))
    (nonemptyA : leavesA ≠ []) (nonemptyB : leavesB ≠ [])
    (increasing : Increasing (leavesA ++ leavesB))
    (absent : ∀ other ∈ leavesA ++ leavesB, other.key ≠ leaf.key) (fresh : StoresLeaf s 0 leaf)
    (search : btreeInsertionSearch s root leaf.key = some block)
    (load : btreeNodeLoad s block = some node)
    (maximum : btreeFindMaximum s block = some largest) (room : node.numKeys < maxKeys)
    (inFront : node.children node.numKeys = 0 ∨ leaf.key < largest) :
    ∃ s' leaves, insertInto s node leaf.block = some s' ∧ GrownTree s' root leaves ∧
      leaves.Perm (leaf :: (leavesA ++ leavesB)) := by
  obtain ⟨nonzeroA, nonzeroB, -, -⟩ := owned.splitNonzero
  have apart := owned.splitDistinct
  have target := tree.insertionSearch nonemptyA nonzeroA nonzeroB apart.rootNodes.1 leaf.key
  rw [search] at target
  obtain ⟨-, ⟨nodeA, storedA⟩, ⟨nodeB, storedB⟩⟩ := id tree
  have parts := increasing
  unfold Increasing at parts
  rw [List.map_append, List.pairwise_append] at parts
  obtain ⟨increasingA, increasingB, across⟩ := parts
  by_cases low : leaf.key ≤ lastKey leavesA
  · rw [if_pos low] at target
    obtain rfl := Option.some.inj target
    obtain rfl := Option.some.inj (storedA.load.symm.trans load)
    obtain rfl := Option.some.inj ((btreeFindMaximum_overLeaves storedA).symm.trans maximum)
    obtain ⟨before, after, rfl, split⟩ := exists_splitAt leaf.key increasingA
      fun other inside => absent other (List.mem_append_left _ inside)
    obtain ⟨s', run, owned', tree'⟩ :=
      insertInto_left owned tree storedA fresh room split (storedA.place split inFront)
    have bound := lastKey_eq nonemptyA
    have whole : SplitAt leaf.key before (after ++ leavesB) := by
      refine ⟨split.smaller, fun other inside => ?_⟩
      rcases List.mem_append.mp inside with here | there
      · exact split.greater other here
      · obtain ⟨last, isLast, same⟩ := Option.map_eq_some_iff.mp bound
        have less := across last.key (List.mem_map_of_mem (List.mem_of_getLast? isLast)) other.key
          (List.mem_map_of_mem there)
        omega
    rw [List.append_assoc] at increasing
    have increasing' := increasing_insert increasing whole
    refine ⟨s', (before ++ leaf :: after) ++ leavesB, run, ⟨?_, Or.inr ⟨_, childB, _, _, rfl,
      owned', tree', by simp, nonemptyB⟩⟩, ?_⟩
    · rw [List.append_assoc, List.cons_append]
      exact increasing'
    · exact List.Perm.append_right leavesB List.perm_middle
  · rw [if_neg low] at target
    obtain rfl := Option.some.inj target
    obtain rfl := Option.some.inj (storedB.load.symm.trans load)
    obtain rfl := Option.some.inj ((btreeFindMaximum_overLeaves storedB).symm.trans maximum)
    obtain ⟨before, after, rfl, split⟩ := exists_splitAt leaf.key increasingB
      fun other inside => absent other (List.mem_append_right _ inside)
    obtain ⟨s', run, bitmap, tree'⟩ := insertInto_right owned tree storedB fresh room split
    rw [Nat.min_eq_left (storedB.place split inFront), insertIdx_between] at tree'
    have whole : SplitAt leaf.key (leavesA ++ before) after := by
      refine ⟨fun other inside => ?_, split.greater⟩
      rcases List.mem_append.mp inside with here | there
      · have bound := le_lastKey increasingA here
        omega
      · exact split.smaller other there
    rw [← List.append_assoc] at increasing
    have increasing' := increasing_insert increasing whole
    have perm : (leavesA ++ (before ++ leaf :: after)).Perm (leaf :: (leavesA ++ (before ++ after))) := by
      rw [← List.append_assoc, ← List.append_assoc]
      exact List.perm_middle
    refine ⟨s', leavesA ++ (before ++ leaf :: after), run, ⟨?_, Or.inr ⟨childA, _, _, _, rfl,
      (owned.splitLinked perm.symm).sameBitmap bitmap, tree', nonemptyA, by simp⟩⟩, perm⟩
    rw [← List.append_assoc]
    exact increasing'

end

end Nbtrfs
