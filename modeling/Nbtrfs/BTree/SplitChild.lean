import Nbtrfs.BTree.Lost

/-!
# The split of a full node below the root

`btree_split_child` gives the upper children of a full node to a new node. The new node has to be linked
in its parent, but the parent with the link is not written, or the parent is read again after a split of
its own went the same way. So at some level the new node is in no slot of the node that it names as its
parent, and what is below it is lost.
-/

namespace Nbtrfs

section

variable {s s' : Store} {top depth : Nat} {tree : Tree top}

/-- The subtrees on the ways down from the root of a tree. -/
inductive OnPath {top : Nat} (tree : Tree top) : {depth : Nat} → Tree depth → Prop
  | root : OnPath tree tree
  | child {depth block : Nat} {children : List (Tree depth)} {child : Tree depth}
      (path : OnPath tree (overTree block children)) (isChild : child ∈ children) : OnPath tree child

/-- A subtree is stored as the tree itself or under the block of a subtree that has it as a child. -/
theorem OnPath.above {sub : Tree depth} (path : OnPath tree sub) (stores : Stores s 0 tree) :
    Stores s 0 sub ∨ ∃ block siblings, OnPath tree (overTree block siblings) ∧ sub ∈ siblings ∧
      Stores s block sub := by
  induction path with
  | root => exact Or.inl stores
  | @child depth block children child path isChild ih =>
    right
    have below : ∀ parent, Stores s parent (overTree block children) → Stores s block child := by
      intro parent storesAbove
      obtain ⟨node, stored⟩ := stores_over.mp storesAbove
      exact (stored.below child isChild).2
    refine ⟨block, children, path, isChild, ?_⟩
    rcases ih with isRoot | ⟨parent, -, -, -, isBelow⟩
    · exact below 0 isRoot
    · exact below parent isBelow

/-- A subtree is stored. -/
theorem OnPath.stores {sub : Tree depth} (path : OnPath tree sub) (stores : Stores s 0 tree) :
    ∃ parent, Stores s parent sub := by
  rcases path.above stores with isRoot | ⟨parent, -, -, -, isBelow⟩
  · exact ⟨0, isRoot⟩
  · exact ⟨parent, isBelow⟩

/-- The blocks of a subtree are blocks of the tree. -/
theorem OnPath.sublist {sub : Tree depth} (path : OnPath tree sub) :
    sub.blocks.Sublist tree.blocks := by
  induction path with
  | root => exact List.Sublist.refl _
  | @child depth block children child path isChild ih =>
    have below : child.blocks.Sublist (children.flatMap Tree.blocks) := by
      rw [List.flatMap_def]
      exact List.sublist_flatten_of_mem (List.mem_map_of_mem isChild)
    exact (below.cons block).trans ih

/-- The leaves of a subtree are leaves of the tree. -/
theorem OnPath.leaves {sub : Tree depth} (path : OnPath tree sub) {leaf : Leaf}
    (isLeaf : leaf ∈ sub.leaves) : leaf ∈ tree.leaves := by
  induction path with
  | root => exact isLeaf
  | child path isChild ih => exact ih (List.mem_flatMap.mpr ⟨_, isChild, isLeaf⟩)

/-- The root is not below itself. -/
theorem OnPath.root_outside {block : Nat} {children : List (Tree depth)} {child : Tree depth}
    (path : OnPath tree (overTree block children)) (isChild : child ∈ children)
    (distinct : tree.blocks.Nodup) : tree.block ∉ child.blocks := by
  have whole : tree.blocks = tree.block :: tree.blocks.tail := by
    cases top with
    | zero => rfl
    | succ top => rfl
  have below : (children.flatMap Tree.blocks).Sublist tree.blocks.tail := path.sublist.tail
  rw [whole] at distinct
  intro inside
  exact (List.nodup_cons.mp distinct).1 (below.subset (mem_children_blocks isChild inside))

/-- The upper children of a full node have the new node as their parent, and one of them is whole. -/
structure SplitOff (s : Store) (own : List Nat) (above page : Nat) (children : List (Tree depth))
    (hole spare : Tree depth) (s' : Store) : Prop where
  /-- The new page is owned too. -/
  owned : Owned s' (page :: own)
  /-- Nodes still name their blocks. -/
  names : NamesBlocks s'
  /-- The nodes beside the children are kept. -/
  kept : ∀ block ∈ own, block ∉ children.map Tree.block → btreeNodeLoad s' block = btreeNodeLoad s block
  /-- The whole child is one of the children. -/
  isChild : spare ∈ children
  /-- It is not the child that is being split. -/
  apart : spare ≠ hole
  /-- It has a leaf. -/
  some_leaf : spare.leaves ≠ []
  /-- Its blocks name parents among them or the new page, and the new page names the parent. -/
  parents : ∀ block ∈ page :: spare.blocks, ∀ node, btreeNodeLoad s' block = some node →
    node.parent ∈ page :: spare.blocks ∨ node.parent = above

/-- The steps of `btree_split_child` up to the re-parenting, at a full node whose children are stored but for
one of them. -/
theorem splitOff {s0 s1 s2 s3 : Store} {own : List Nat} {block above page : Nat} {child : BTreeNode}
    {children : List (Tree depth)} {hole : Tree depth} {change : BTreeNode → BTreeNode}
    (names : NamesBlocks s) (owned : Owned s own)
    (inOwn : (overTree block children).blocks ⊆ own)
    (distinct : (children.flatMap Tree.blocks).Nodup)
    (stored : Over s0 block above child children) (full : child.numKeys = maxKeys)
    (same : ∀ tree ∈ children, tree ≠ hole → ∀ block ∈ tree.blocks,
      btreeNodeLoad s block = btreeNodeLoad s0 block)
    (new : btreeNodeNew s false = some (page, s1)) (modify : btreeNodeModify s1 page change = some s2)
    (number : ∀ node, (change node).blockNumber = node.blockNumber)
    (isParent : ∀ node, (change node).parent = above)
    (move : reparent s2 ((indices (minKeys + 1) (child.numKeys + 1)).map child.children) page = some s3) :
    ∃ spare, SplitOff s own above page children hole spare s3 := by
  obtain ⟨type, created⟩ := btreeNodeNew_created owned.formatted new
  have fresh := owned.fresh created
  obtain ⟨former, load, changed⟩ := btreeNodeModify_change modify
  have names1 := created.namesBlocks names
  have names2 : NamesBlocks s2 := by
    apply changed.namesBlocks names1
    rw [number, names1 page former load]
  have moved := reparent_exact names2 move
  have kept2 : ∀ other ∈ own, btreeNodeLoad s2 other = btreeNodeLoad s other := by
    intro other isOwn
    have notPage : other ≠ page := by
      rintro rfl
      exact fresh isOwn
    rw [changed.other notPage, created.other other notPage]
  have few : minKeys = 125 := rfl
  have many : maxKeys = 250 := rfl
  obtain ⟨enough, -, -⟩ := stored.counts
  have listed : ∀ other ∈ (indices (minKeys + 1) (child.numKeys + 1)).map child.children, other ≠ 0 →
      other ∈ children.map Tree.block := by
    intro other inside present
    obtain ⟨i, inIndices, rfl⟩ := List.mem_map.mp inside
    obtain ⟨j, inRange, rfl⟩ := List.mem_map.mp inIndices
    have bound := List.mem_range.mp inRange
    have slot := stored.slot (show minKeys + 1 + j ≤ maxKeys by omega)
    cases atIndex : children[minKeys + 1 + j]? with
    | none =>
      rw [atIndex] at slot
      exact absurd slot present
    | some tree =>
      rw [atIndex] at slot
      rw [slot]
      exact List.mem_map_of_mem (List.mem_of_getElem? atIndex)
  obtain ⟨i, spare, atIndex, lower, upper, apart⟩ : ∃ i spare, children[i]? = some spare ∧
      minKeys + 1 ≤ i ∧ i < maxKeys ∧ spare ≠ hole := by
    have atFirst : children[minKeys + 1]? = some children[minKeys + 1] :=
      List.getElem?_eq_getElem (by omega)
    by_cases first : children[minKeys + 1] = hole
    · have atSecond : children[minKeys + 2]? = some children[minKeys + 2] :=
        List.getElem?_eq_getElem (by omega)
      refine ⟨minKeys + 2, _, atSecond, by omega, by omega, ?_⟩
      rw [← first]
      exact children_differ distinct atSecond atFirst (by omega)
    · exact ⟨minKeys + 1, _, atFirst, by omega, by omega, first⟩
  have isChild := List.mem_of_getElem? atIndex
  have some_leaf : spare.leaves ≠ [] := by
    have largest := stored.keyAt (show i < child.numKeys by omega) atIndex
    intro empty
    unfold Tree.maxKey at largest
    rw [empty] at largest
    cases largest
  obtain ⟨present, storesOld⟩ := stored.below spare isChild
  have spareOwn : ∀ other ∈ spare.blocks, other ∈ own := fun other inside =>
    inOwn (List.mem_cons_of_mem _ (mem_children_blocks isChild inside))
  have stores2 : Stores s2 block spare := by
    apply storesOld.congr
    intro other inside
    rw [kept2 other (spareOwn other inside), same spare isChild apart other inside]
  obtain ⟨root, loadRoot⟩ := stores2.load
  have stores3 : Stores s3 page spare := by
    apply stores2.withParent ((List.nodup_flatMap.mp distinct).1 spare isChild) loadRoot
    · rw [moved.node, loadRoot, Option.map_some, if_pos]
      refine ⟨List.mem_map.mpr ⟨i, ?_, (stored.slotAt atIndex).1⟩, present⟩
      exact List.mem_map.mpr ⟨i - (minKeys + 1), List.mem_range.mpr (by omega), by omega⟩
    · intro other inside notRoot
      have notMoved : ¬ (other ∈ (indices (minKeys + 1) (child.numKeys + 1)).map child.children ∧
          other ≠ 0) := by
        rintro ⟨inList, nonzero⟩
        obtain ⟨tree, isTree, rfl⟩ := List.mem_map.mp (listed other inList nonzero)
        rw [children_apart distinct isTree isChild tree.block_mem inside] at notRoot
        exact notRoot rfl
      rw [moved.node]
      simp only [if_neg notMoved, Option.map_id_fun', id_eq]
  refine ⟨spare, ?_, moved.names, ?_, isChild, apart, some_leaf, ?_⟩
  · exact ((owned.created created).sameBitmap changed.sameBitmap).sameBitmap moved.bitmap
  · intro other isOwn notChild
    have notMoved : ¬ (other ∈ (indices (minKeys + 1) (child.numKeys + 1)).map child.children ∧
        other ≠ 0) := fun inside => notChild (listed other inside.1 inside.2)
    rw [moved.node, ← kept2 other isOwn]
    simp only [if_neg notMoved, Option.map_id_fun', id_eq]
  · intro other inside node loadOther
    rcases List.mem_cons.mp inside with rfl | below
    · right
      rw [moved.node, changed.here, Option.map_some] at loadOther
      rw [← Option.some.inj loadOther, if_neg]
      · exact isParent former
      · rintro ⟨inList, nonzero⟩
        obtain ⟨tree, isTree, same⟩ := List.mem_map.mp (listed _ inList nonzero)
        apply fresh
        rw [← same]
        exact inOwn (List.mem_cons_of_mem _ (mem_children_blocks isTree tree.block_mem))
    · left
      rcases stores3.parents other below node loadOther with within | isRoot
      · exact List.mem_cons_of_mem _ within
      · rw [isRoot]
        exact List.mem_cons_self

section

variable {own : List Nat} {root split : BTreeNode} {childA childB : Nat} {kept : Nat → Prop}

/-- The new nodes of a split root. -/
theorem splitRootChildren_keeps (names : NamesBlocks s) (owned : Owned s own)
    (isOwn : ∀ block, kept block → block ∈ own)
    (outside : ∀ i ≤ maxKeys, root.children i ≠ 0 → ¬ kept (root.children i)) (fits : root.numKeys ≤ maxKeys)
    (run : splitRootChildren s root = some (childA, childB, s')) :
    childA ∉ own ∧ childB ∉ own ∧ Keeps s kept s' := by
  unfold splitRootChildren at run
  obtain ⟨⟨a, s1⟩, newA, run⟩ := Option.bind_eq_some_iff.mp run
  obtain ⟨⟨b, s2⟩, newB, run⟩ := Option.bind_eq_some_iff.mp run
  obtain ⟨s3, modifyA, run⟩ := Option.bind_eq_some_iff.mp run
  obtain ⟨s4, modifyB, run⟩ := Option.bind_eq_some_iff.mp run
  obtain ⟨s5, moveA, run⟩ := Option.bind_eq_some_iff.mp run
  obtain ⟨s6, moveB, run⟩ := Option.bind_eq_some_iff.mp run
  obtain ⟨rfl, rest⟩ := Prod.mk.inj (Option.some.inj run)
  obtain ⟨rfl, rfl⟩ := Prod.mk.inj rest
  obtain ⟨typeA, createdA⟩ := btreeNodeNew_created owned.formatted newA
  have ownedA := owned.created createdA
  obtain ⟨typeB, createdB⟩ := btreeNodeNew_created ownedA.formatted newB
  have freshA := owned.fresh createdA
  have freshB : b ∉ own := fun inside => ownedA.fresh createdB (List.mem_cons_of_mem _ inside)
  have notA : ¬ kept a := fun inside => freshA (isOwn a inside)
  have notB : ¬ kept b := fun inside => freshB (isOwn b inside)
  have few : minKeys = 125 := rfl
  have many : maxKeys = 250 := rfl
  have slots : ∀ first bound, bound ≤ maxKeys + 1 →
      ∀ block ∈ (indices first bound).map root.children, block ≠ 0 → ¬ kept block := by
    intro first bound small block inside
    obtain ⟨i, inIndices, rfl⟩ := List.mem_map.mp inside
    obtain ⟨j, inRange, rfl⟩ := List.mem_map.mp inIndices
    have before := List.mem_range.mp inRange
    exact outside (first + j) (by omega)
  have keeps1 := createdA.keeps names notA
  have keeps2 := createdB.keeps keeps1.names notB
  have keeps3 := btreeNodeModify_keeps keeps2.names modifyA notA fun _ => rfl
  have keeps4 := btreeNodeModify_keeps keeps3.names modifyB notB fun _ => rfl
  have keeps5 := (reparent_exact keeps4.names moveA).keeps (slots 0 (minKeys + 1) (by omega))
  have keeps6 := (reparent_exact keeps5.names moveB).keeps
    (slots (minKeys + 1) (root.numKeys + 1) (by omega))
  exact ⟨freshA, freshB,
    ((((keeps1.trans keeps2).trans keeps3).trans keeps4).trans keeps5).trans keeps6⟩

/-- `btree_split_root` keeps the owned nodes beside the root and its children, whatever is below them. -/
theorem btreeSplitRoot_keeps (names : NamesBlocks s) (owned : Owned s own)
    (isOwn : ∀ block, kept block → block ∈ own) (rootOwn : root.blockNumber ∈ own)
    (load : btreeNodeLoad s root.blockNumber = some root)
    (outside : ∀ i ≤ maxKeys, root.children i ≠ 0 → ¬ kept (root.children i))
    (apart : ∀ i ≤ maxKeys, root.children i ≠ root.blockNumber) (fits : root.numKeys ≤ maxKeys)
    (notRoot : ¬ kept root.blockNumber)
    (run : btreeSplitRoot s root = some (split, s')) :
    Keeps s kept s' ∧ btreeNodeLoad s' root.blockNumber = some split ∧
      ∃ childA childB maxA maxB, childA ∉ own ∧ childB ∉ own ∧
        split = root.overTwo childA childB maxA maxB := by
  unfold btreeSplitRoot at run
  obtain ⟨⟨a, b, s1⟩, children, run⟩ := Option.bind_eq_some_iff.mp run
  obtain ⟨s2, refreshA, run⟩ := Option.bind_eq_some_iff.mp run
  obtain ⟨s3, refreshB, run⟩ := Option.bind_eq_some_iff.mp run
  obtain ⟨s4, extra, run⟩ := Option.bind_eq_some_iff.mp run
  obtain ⟨s5, modifyA, run⟩ := Option.bind_eq_some_iff.mp run
  obtain ⟨s6, modifyB, run⟩ := Option.bind_eq_some_iff.mp run
  obtain ⟨maxA, -, run⟩ := Option.bind_eq_some_iff.mp run
  obtain ⟨maxB, -, run⟩ := Option.bind_eq_some_iff.mp run
  obtain ⟨s7, write, run⟩ := Option.bind_eq_some_iff.mp run
  obtain ⟨rfl, rfl⟩ := Prod.mk.inj (Option.some.inj run)
  have steps : ∀ kept : Nat → Prop, (∀ block, kept block → block ∈ own) →
      (∀ i ≤ maxKeys, root.children i ≠ 0 → ¬ kept (root.children i)) →
      Keeps s kept s6 ∧ a ∉ own ∧ b ∉ own := by
    intro kept isOwn outside
    obtain ⟨freshA, freshB, keeps1⟩ := splitRootChildren_keeps names owned isOwn outside fits children
    have notA : ¬ kept a := fun inside => freshA (isOwn a inside)
    have notB : ¬ kept b := fun inside => freshB (isOwn b inside)
    have keeps2 := refreshPage_keeps keeps1.names refreshA notA
    have keeps3 := refreshPage_keeps keeps2.names refreshB notB
    have keeps4 : Keeps s3 kept s4 := by
      unfold splitRootExtra at extra
      split at extra
      · obtain ⟨middle, modify, move⟩ := Option.bind_eq_some_iff.mp extra
        have keepsModify := btreeNodeModify_keeps keeps3.names modify notB fun _ => rfl
        apply keepsModify.trans
        apply (reparent_exact keepsModify.names move).keeps
        intro block inside present
        rw [List.mem_singleton.mp inside] at present ⊢
        exact outside maxKeys (Nat.le_refl _) present
      · obtain rfl := Option.some.inj extra
        exact ⟨keeps3.names, fun _ _ => rfl⟩
    have keeps5 := btreeNodeModify_keeps keeps4.names modifyA notA fun _ => rfl
    have keeps6 := btreeNodeModify_keeps keeps5.names modifyB notB fun _ => rfl
    exact ⟨((((keeps1.trans keeps2).trans keeps3).trans keeps4).trans keeps5).trans keeps6, freshA,
      freshB⟩
  obtain ⟨keeps6, freshA, freshB⟩ := steps kept isOwn outside
  have rootKept : btreeNodeLoad s6 root.blockNumber = some root := by
    obtain ⟨keepsRoot, -, -⟩ := steps (· = root.blockNumber) (by
      rintro block rfl
      exact rootOwn) fun i small _ => apart i small
    rw [keepsRoot.node _ rfl, load]
  obtain ⟨written, write', change⟩ : ∃ written,
      btreeNodeWrite s6 (root.overTwo a b maxA maxB) = some written ∧
        NodeChange s6 root.blockNumber (root.overTwo a b maxA maxB) written :=
    btreeNodeWrite_at rfl rootKept
  obtain rfl := Option.some.inj (write.symm.trans write')
  exact ⟨keeps6.trans (btreeNodeWrite_keeps keeps6.names write notRoot), change.here, a, b, maxA, maxB,
    freshA, freshB, rfl⟩

end

/-- Blocks with an old leaf that are lost under a node, apart from the blocks that are written later. -/
structure Doomed (tree : Tree top) (own low : List Nat) (s : Store) (inner : List Nat) (above : Nat) :
    Prop where
  /-- The blocks are lost. -/
  lost : Lost s inner (· = above)
  /-- A leaf of the tree is among them. -/
  leaf : ∃ leaf ∈ tree.leaves, leaf.block ∈ inner
  /-- The root is not. -/
  root : tree.block ∉ inner
  /-- Of the owned blocks, only blocks of the tree are among them. -/
  old : ∀ block ∈ inner, block ∈ own → block ∈ tree.blocks
  /-- The low blocks are neither among them nor the node above. -/
  low : ∀ block ∈ low, block ∉ inner ∧ block ≠ above

/-- Lost blocks stay lost under a write of a node that is neither among them nor above. -/
theorem Lost.write {inner : List Nat} {above : Nat} {node : BTreeNode} (lost : Lost s inner (· = above))
    (outside : node.blockNumber ∉ inner) (apart : node.blockNumber ≠ above)
    (write : btreeNodeWrite s node = some s') : Lost s' inner (· = above) := by
  rcases btreeNodeWrite_cases write with change | ⟨rfl, -⟩
  · constructor
    · intro block inside other load
      have notHere : block ≠ node.blockNumber := by
        rintro rfl
        exact outside inside
      rw [change.other notHere] at load
      exact lost.parents block inside other load
    · rintro parent rfl other load
      rw [change.other apart.symm] at load
      exact lost.slots parent rfl other load
  · exact lost

/-- The node above lost blocks may be written without them. -/
theorem Lost.writeAbove {inner : List Nat} {above : Nat} {node : BTreeNode}
    (lost : Lost s inner (· = above)) (number : node.blockNumber = above) (outside : above ∉ inner)
    (slots : ∀ i ≤ maxKeys, i ≤ node.numKeys → node.children i ∉ inner)
    (write : btreeNodeWrite s node = some s') : Lost s' inner (· = above) := by
  rcases btreeNodeWrite_cases write with change | ⟨rfl, -⟩
  · rw [number] at change
    constructor
    · intro block inside other load
      have notHere : block ≠ above := by
        rintro rfl
        exact outside inside
      rw [change.other notHere] at load
      exact lost.parents block inside other load
    · rintro parent rfl other load
      rw [← Option.some.inj (change.here.symm.trans load)]
      exact slots
  · exact lost

/-- Blocks are lost in a store where they load the same and the node above has none of them. -/
theorem lost_of_kept {inner : List Nat} {above : Nat} {node : BTreeNode}
    (parents : ∀ block ∈ inner, ∀ node, btreeNodeLoad s block = some node →
      node.parent ∈ inner ∨ node.parent = above)
    (kept : ∀ block ∈ inner, btreeNodeLoad s' block = btreeNodeLoad s block)
    (load : btreeNodeLoad s' above = some node)
    (slots : ∀ i ≤ maxKeys, i ≤ node.numKeys → node.children i ∉ inner) :
    Lost s' inner (· = above) := by
  constructor
  · intro block inside other loadOther
    rw [kept block inside] at loadOther
    exact parents block inside other loadOther
  · rintro parent rfl other loadOther
    rw [← Option.some.inj (load.symm.trans loadOther)]
    exact slots

/-- Blocks with an old leaf, apart from a node above them, its children and the blocks that are written
later. -/
structure Severed (tree : Tree top) (own low : List Nat) (above : Nat) (siblings : List (Tree depth))
    (inner : List Nat) : Prop where
  /-- A leaf of the tree is among them. -/
  leaf : ∃ leaf ∈ tree.leaves, leaf.block ∈ inner
  /-- The root is not. -/
  root : tree.block ∉ inner
  /-- Of the owned blocks, only blocks of the tree are among them. -/
  old : ∀ block ∈ inner, block ∈ own → block ∈ tree.blocks
  /-- Block 0 is not one of them. -/
  zero : 0 ∉ inner
  /-- The node above is not. -/
  outside : above ∉ inner
  /-- Its children are not. -/
  siblings : ∀ sibling ∈ siblings, sibling.block ∉ inner
  /-- The low blocks are neither among them nor the node above. -/
  low : ∀ block ∈ low, block ∉ inner ∧ block ≠ above

/-- What is severed and lost is doomed. -/
theorem Severed.doomed {own low inner : List Nat} {above : Nat} {siblings : List (Tree depth)}
    (severed : Severed tree own low above siblings inner) (lost : Lost s inner (· = above)) :
    Doomed tree own low s inner above :=
  ⟨lost, severed.leaf, severed.root, severed.old, severed.low⟩

/-- A new page and a child of a node that is split are apart from what stays. -/
theorem severed_spare {own : List Nat} {block child page : Nat} {siblings : List (Tree (depth + 1))}
    {children : List (Tree depth)} {hole spare : Tree depth}
    (path : OnPath tree (overTree block siblings)) (isNode : overTree child children ∈ siblings)
    (distinct : tree.blocks.Nodup) (inOwn : tree.blocks ⊆ own) (owned : Owned s (page :: own))
    (isHole : hole ∈ children) (isChild : spare ∈ children) (apart : spare ≠ hole)
    (some_leaf : spare.leaves ≠ []) :
    Severed tree own (child :: hole.blocks) block siblings (page :: spare.blocks) := by
  have pathChild := path.child isNode
  obtain ⟨notBelow, distinctSiblings⟩ := List.nodup_cons.mp (distinct.sublist path.sublist)
  obtain ⟨notInside, distinctChildren⟩ := List.nodup_cons.mp (distinct.sublist pathChild.sublist)
  have fresh := (List.nodup_cons.mp owned.distinct).1
  have inChild : ∀ tree ∈ children, ∀ other ∈ tree.blocks, other ∈ (overTree child children).blocks :=
    fun tree isTree other inside => List.mem_cons_of_mem _ (mem_children_blocks isTree inside)
  have inTree : ∀ other ∈ (overTree child children).blocks, other ∈ tree.blocks :=
    fun other inside => pathChild.sublist.subset inside
  have pathOwn : ∀ other ∈ tree.blocks, other ≠ page := by
    rintro other inside rfl
    exact fresh (inOwn inside)
  have outside : ∀ other ∈ tree.blocks, other ∉ spare.blocks → other ∉ page :: spare.blocks := by
    intro other inside notSpare either
    rcases List.mem_cons.mp either with isPage | isSpare
    · exact pathOwn other inside isPage
    · exact notSpare isSpare
  have siblingOut : ∀ sibling ∈ siblings, sibling.block ∉ page :: spare.blocks := by
    intro sibling isSibling
    apply outside _ (path.sublist.subset (List.mem_cons_of_mem _
      (mem_children_blocks isSibling sibling.block_mem)))
    intro isSpare
    have same := children_apart distinctSiblings isSibling isNode sibling.block_mem
      (inChild spare isChild _ isSpare)
    rw [same] at isSpare
    exact notInside (mem_children_blocks isChild isSpare)
  have notAbove : ∀ other ∈ (overTree child children).blocks, other ≠ block := by
    rintro other inside rfl
    exact notBelow (mem_children_blocks isNode inside)
  constructor
  · obtain ⟨leaf, isLeaf⟩ := List.exists_mem_of_ne_nil _ some_leaf
    refine ⟨leaf, pathChild.leaves (List.mem_flatMap.mpr ⟨spare, isChild, isLeaf⟩), ?_⟩
    exact List.mem_cons_of_mem _ (Tree.leaf_block_mem isLeaf)
  · apply outside _ tree.block_mem
    intro inside
    exact path.root_outside isNode distinct (inChild spare isChild _ inside)
  · intro other inside isOwn
    rcases List.mem_cons.mp inside with rfl | isSpare
    · exact absurd isOwn fresh
    · exact inTree other (inChild spare isChild other isSpare)
  · intro inside
    have isOwn : 0 ∈ page :: own := by
      rcases List.mem_cons.mp inside with isPage | isSpare
      · rw [isPage]
        exact List.mem_cons_self
      · exact List.mem_cons_of_mem _ (inOwn (inTree 0 (inChild spare isChild 0 isSpare)))
    exact owned.nonzero 0 isOwn rfl
  · apply outside block (path.sublist.subset List.mem_cons_self)
    intro inside
    exact notAbove block (inChild spare isChild block inside) rfl
  · exact siblingOut
  · intro other inside
    rcases List.mem_cons.mp inside with rfl | isLow
    · exact ⟨siblingOut _ isNode, notAbove _ List.mem_cons_self⟩
    · refine ⟨?_, notAbove other (inChild hole isHole other isLow)⟩
      apply outside other (inTree other (inChild hole isHole other isLow))
      intro isSpare
      exact apart (children_apart distinctChildren isChild isHole isSpare isLow)

/-- A split whose link to the new node is in the local parent only. -/
structure Unlinked (s : Store) (own : List Nat) (children : List (Tree depth))
    (node child node' child' : BTreeNode) (s' : Store) : Prop where
  /-- The parent names its block. -/
  number : node'.blockNumber = node.blockNumber
  /-- The nodes beside the children of the split node are kept. -/
  kept : ∀ block ∈ own, block ∉ children.map Tree.block → btreeNodeLoad s' block = btreeNodeLoad s block
  /-- The split node has no new slots. -/
  slots : ∀ i ≤ maxKeys, child'.children i = child.children i ∨ child'.children i = 0

/-- A run of `btree_split_child` loses leaves, whatever is done with the nodes below, and also when the local
parent is written back, unless the link to the new node is in that local parent only. -/
structure SplitLoses (tree : Tree top) (s : Store) (own low : List Nat) (children : List (Tree depth))
    (node child node' child' : BTreeNode) (s' : Store) : Prop where
  /-- Nodes still name their blocks. -/
  names : NamesBlocks s'
  /-- The split node names its block. -/
  number : child'.blockNumber = child.blockNumber
  /-- Blocks are doomed. -/
  doomed : ∃ inner above, Doomed tree own low s' inner above ∧
    ((∀ s'', btreeNodeWrite s' node' = some s'' → Lost s'' inner (· = above)) ∨
      Unlinked s own children node child node' child' s')

/-- The slots that a split leaves in a node. -/
theorem clearRange_slot (array : Nat → Nat) (first bound i : Nat) :
    clearRange array first bound i = array i ∨ clearRange array first bound i = 0 := by
  unfold clearRange
  split
  · exact Or.inr rfl
  · exact Or.inl rfl

/-- The root over two new nodes, and the node of a level below, whose new node is not linked there. -/
structure RootLost (s : Store) (own inner : List Nat) (block : Nat) (upper : BTreeNode) : Prop where
  /-- Nodes still name their blocks. -/
  names : NamesBlocks s
  /-- The blocks are lost. -/
  lost : Lost s inner (· = block)
  /-- The root is stored. -/
  load : btreeNodeLoad s block = some upper
  /-- It has two keys. -/
  count : upper.numKeys = 2
  /-- Its slots are empty or have new nodes. -/
  slots : ∀ i ≤ maxKeys, upper.children i = 0 ∨ upper.children i ∉ own
  /-- From the third one on they are empty. -/
  empty : ∀ i ≤ maxKeys, 2 ≤ i → upper.children i = 0

/-- Blocks below a root without them are lost when the root is split. -/
theorem btreeSplitRoot_loses {own inner : List Nat} {block : Nat} {node upper : BTreeNode}
    (names : NamesBlocks s) (owned : Owned s own) (load : btreeNodeLoad s block = some node)
    (innerOwn : inner ⊆ own) (blockOwn : block ∈ own) (outside : block ∉ inner)
    (slots : ∀ i ≤ maxKeys, node.children i ∉ block :: inner) (fits : node.numKeys ≤ maxKeys)
    (parents : ∀ other ∈ inner, ∀ node, btreeNodeLoad s other = some node →
      node.parent ∈ inner ∨ node.parent = block)
    (run : btreeSplitRoot s node = some (upper, s')) : RootLost s' own inner block upper := by
  obtain rfl := names block node load
  obtain ⟨keeps, loadUpper, childA, childB, maxA, maxB, freshA, freshB, rfl⟩ :=
    @btreeSplitRoot_keeps s s' own node upper (· ∈ inner) names owned innerOwn blockOwn load
      (fun i small _ inside => slots i small (List.mem_cons_of_mem _ inside))
      (fun i small same => slots i small (by
        rw [same]
        exact List.mem_cons_self)) fits outside run
  have empty : ∀ i ≤ maxKeys, 2 ≤ i → (node.overTwo childA childB maxA maxB).children i = 0 := by
    intro i small later
    show clearRange _ 2 (maxKeys + 1) i = 0
    unfold clearRange
    rw [if_pos ⟨later, by omega⟩]
  have fresh : ∀ i ≤ maxKeys, (node.overTwo childA childB maxA maxB).children i = 0 ∨
      (node.overTwo childA childB maxA maxB).children i ∉ own := by
    intro i small
    match i with
    | 0 => exact Or.inr freshA
    | 1 => exact Or.inr freshB
    | i + 2 => exact Or.inl (empty (i + 2) small (Nat.le_add_left 2 i))
  refine ⟨keeps.names, ?_, loadUpper, rfl, fresh, empty⟩
  apply lost_of_kept parents keeps.node loadUpper
  intro i small _ inside
  rcases fresh i small with isEmpty | isFresh
  · rw [isEmpty] at inside
    exact owned.nonzero 0 (innerOwn inside) rfl
  · exact isFresh (innerOwn inside)

/-- The new node of the level below goes behind an empty slot of the root. -/
theorem RootLost.link {own inner : List Nat} {block child page : Nat} {upper linked : BTreeNode}
    (root : RootLost s own inner block upper) (childOwn : child ∈ own) (present : child ≠ 0)
    (zero : 0 ∉ inner) (innerOwn : inner ⊆ own)
    (link : linkChild s upper (firstIndex (fun i => upper.children i == child) (upper.numKeys + 1)) page =
      some linked) :
    linked.blockNumber = upper.blockNumber ∧ ∀ i ≤ maxKeys, i ≤ linked.numKeys → linked.children i ∉ inner := by
  have many : maxKeys = 250 := rfl
  have notFound : firstIndex (fun i => upper.children i == child) (upper.numKeys + 1) = 3 := by
    rw [root.count]
    apply firstIndex_eq (Nat.le_refl _)
    · intro i before
      apply beq_eq_false_iff_ne.mpr
      rintro rfl
      rcases root.slots i (by omega) with isEmpty | isFresh
      · exact present isEmpty
      · exact isFresh childOwn
    · intro below
      exact absurd below (Nat.lt_irrefl _)
  rw [notFound] at link
  obtain ⟨keys, rfl⟩ := linkChild_slots link
  refine ⟨rfl, fun i small keyed inside => ?_⟩
  have bound : i ≤ 3 := by
    have within : i ≤ upper.numKeys + 1 := keyed
    rwa [root.count] at within
  have same : setAt (shiftUp upper.children (3 + 1) (upper.numKeys + 1)) (3 + 1) page i =
      upper.children i := by
    unfold setAt shiftUp
    rw [if_neg (by omega), if_neg (by omega)]
  have inOld : upper.children i ∈ inner := by
    rw [← same]
    exact inside
  rcases root.slots i small with isEmpty | isFresh
  · rw [isEmpty] at inOld
    exact zero inOld
  · exact isFresh (innerOwn inOld)

/-- `btree_split_child` behind the re-parenting: the new page and a whole child are severed from the tree, and
the nodes beside the split one are kept. -/
structure Parted (tree : Tree top) (s0 s : Store) (own : List Nat) (block blockF page : Nat)
    (siblings : List (Tree (depth + 1))) (children : List (Tree depth)) (hole spare : Tree depth)
    (node : BTreeNode) (s' : Store) : Prop where
  /-- The upper children have the new node as their parent. -/
  split : SplitOff s own block page children hole spare s'
  /-- The new page and the whole child are apart from what stays. -/
  severed : Severed tree own (blockF :: hole.blocks) block siblings (page :: spare.blocks)
  /-- No slot of the parent has a block among them. -/
  slots : ∀ i ≤ maxKeys, node.children i ∉ page :: spare.blocks
  /-- The nodes beside the split one are stored as before. -/
  kept : ∀ other ∈ tree.blocks, other ∉ (overTree blockF children).blocks →
    btreeNodeLoad s' other = btreeNodeLoad s0 other
  /-- So is the parent. -/
  load : btreeNodeLoad s' block = some node
  /-- The blocks are owned. -/
  inOwn : page :: spare.blocks ⊆ page :: own

section

variable {s0 s3 : Store} {own : List Nat} {block blockF page : Nat} {siblings : List (Tree (depth + 1))}
  {children : List (Tree depth)} {hole spare : Tree depth} {node child : BTreeNode}

/-- The steps of `btree_split_child` up to the re-parenting, at a full child of a node on a way down. -/
theorem parted {s1 s2 : Store} {change : BTreeNode → BTreeNode} (distinct : tree.blocks.Nodup)
    (path : OnPath tree (overTree block siblings)) (isNode : overTree blockF children ∈ siblings)
    (isHole : hole ∈ children) (names : NamesBlocks s) (owned : Owned s own) (inOwn : tree.blocks ⊆ own)
    (same : ∀ other ∈ tree.blocks, other ∉ hole.blocks → btreeNodeLoad s other = btreeNodeLoad s0 other)
    {parent : Nat} (stored : Over s0 block parent node siblings)
    (storedChild : Over s0 blockF block child children) (full : child.numKeys = maxKeys)
    (new : btreeNodeNew s false = some (page, s1)) (modify : btreeNodeModify s1 page change = some s2)
    (number : ∀ node, (change node).blockNumber = node.blockNumber)
    (isParent : ∀ node, (change node).parent = block)
    (move : reparent s2 ((indices (minKeys + 1) (child.numKeys + 1)).map child.children) page = some s3) :
    ∃ spare, Parted tree s0 s own block blockF page siblings children hole spare node s3 := by
  have pathChild := path.child isNode
  obtain ⟨notBelow, -⟩ := List.nodup_cons.mp (distinct.sublist path.sublist)
  obtain ⟨-, distinctChildren⟩ := List.nodup_cons.mp (distinct.sublist pathChild.sublist)
  have blockApart : block ∉ (overTree blockF children).blocks :=
    fun inside => notBelow (mem_children_blocks isNode inside)
  have childIn : ∀ other ∈ (overTree blockF children).blocks, other ∈ tree.blocks :=
    fun other inside => pathChild.sublist.subset inside
  have sameChildren : ∀ other ∈ children, other ≠ hole → ∀ member ∈ other.blocks,
      btreeNodeLoad s member = btreeNodeLoad s0 member := by
    intro other isOther apart member inside
    apply same member (childIn member (List.mem_cons_of_mem _ (mem_children_blocks isOther inside)))
    intro inHole
    exact apart (children_apart distinctChildren isOther isHole inside inHole)
  obtain ⟨spare, split⟩ := splitOff names owned (fun other inside => inOwn (childIn other inside))
    distinctChildren storedChild full sameChildren new modify number isParent move
  have severed := severed_spare path isNode distinct inOwn split.owned isHole split.isChild split.apart
    split.some_leaf
  have kept : ∀ other ∈ tree.blocks, other ∉ (overTree blockF children).blocks →
      btreeNodeLoad s3 other = btreeNodeLoad s0 other := by
    intro other inside outside
    have notChild : other ∉ children.map Tree.block :=
      fun isChild => outside (List.mem_cons_of_mem _ (children_block_mem isChild))
    have notHole : other ∉ hole.blocks :=
      fun inHole => outside (List.mem_cons_of_mem _ (mem_children_blocks isHole inHole))
    rw [split.kept other (inOwn inside) notChild, same other inside notHole]
  refine ⟨spare, split, severed, ?_, kept, ?_, ?_⟩
  · intro i small
    exact stored.slots_apart severed.zero small fun sibling atIndex =>
      severed.siblings sibling (List.mem_of_getElem? atIndex)
  · rw [kept block (path.sublist.subset List.mem_cons_self) blockApart, stored.load]
  · apply List.cons_subset_cons
    intro other inside
    exact inOwn (childIn other (List.mem_cons_of_mem _ (mem_children_blocks split.isChild inside)))

/-- The severed blocks are lost where the parent has no slot with one of them. -/
theorem Parted.lost (parted : Parted tree s0 s own block blockF page siblings children hole spare node s3)
    {s8 : Store} (kept : ∀ other ∈ page :: spare.blocks, btreeNodeLoad s8 other = btreeNodeLoad s3 other)
    (load : btreeNodeLoad s8 block = some node) : Lost s8 (page :: spare.blocks) (· = block) :=
  lost_of_kept parted.split.parents kept load fun i small _ => parted.slots i small

/-- The two writes at the end of `btree_split_child` leave the severed blocks lost, if no slot of the node that
is written has one of them. -/
theorem Parted.splitLoses
    (parted : Parted tree s0 s own block blockF page siblings children hole spare node s3)
    {child' written upper : BTreeNode} {s5 s6 s8 : Store} (names : NamesBlocks s8)
    (lost : Lost s8 (page :: spare.blocks) (· = block)) (numberChild : child.blockNumber = blockF)
    (number : child'.blockNumber = child.blockNumber) (numberWritten : written.blockNumber = block)
    (numberUpper : upper.blockNumber = block)
    (slotsWritten : ∀ i ≤ maxKeys, i ≤ written.numKeys → written.children i ∉ page :: spare.blocks)
    (slotsUpper : ∀ i ≤ maxKeys, upper.children i ∉ page :: spare.blocks)
    (writeChild : btreeNodeWrite s8 child' = some s5) (writeParent : btreeNodeWrite s5 written = some s6) :
    SplitLoses tree s own (blockF :: hole.blocks) children node child upper child' s6 := by
  obtain ⟨childOut, childNot⟩ := parted.severed.low blockF List.mem_cons_self
  have isChild : child'.blockNumber = blockF := number.trans numberChild
  have lost5 := lost.write (by rwa [isChild]) (by rwa [isChild]) writeChild
  have lost6 := lost5.writeAbove numberWritten parted.severed.outside slotsWritten writeParent
  refine ⟨(names.write writeChild).write writeParent, number, _, block, parted.severed.doomed lost6,
    Or.inl fun s'' write => ?_⟩
  exact lost6.writeAbove numberUpper parted.severed.outside (fun i small _ => slotsUpper i small) write

/-- A parent with room is linked in memory only. -/
theorem Parted.linked
    (parted : Parted tree s0 s own block blockF page siblings children hole spare node s3)
    {child' linked : BTreeNode} {index maxKey : Nat} (number : child'.blockNumber = child.blockNumber)
    (cleared : ∀ i ≤ maxKeys, child'.children i = child.children i ∨ child'.children i = 0)
    (link : linkChild s3 { node with keys := setAt node.keys index maxKey } index page = some linked) :
    SplitLoses tree s own (blockF :: hole.blocks) children node child linked child' s3 := by
  obtain ⟨keys, rfl⟩ := linkChild_slots link
  exact ⟨parted.split.names, number, _, block,
    parted.severed.doomed (parted.lost (fun _ _ => rfl) parted.load), Or.inr ⟨rfl, parted.split.kept, cleared⟩⟩

/-- Blocks that the split of the parent has lost stay lost when the split node and the parent are written. -/
theorem Doomed.splitLoses {inner : List Nat} {above : Nat} {child' written upper : BTreeNode}
    {s5 s6 s7 s8 : Store}
    (doomed : Doomed tree (page :: own) (block :: (overTree blockF children).blocks) s7 inner above)
    (isHole : hole ∈ children) (names : NamesBlocks s8) (lost : Lost s8 inner (· = above))
    (numberChild : child.blockNumber = blockF) (number : child'.blockNumber = child.blockNumber)
    (numberWritten : written.blockNumber = block) (numberUpper : upper.blockNumber = block)
    (writeChild : btreeNodeWrite s8 child' = some s5) (writeParent : btreeNodeWrite s5 written = some s6) :
    SplitLoses tree s own (blockF :: hole.blocks) children node child upper child' s6 := by
  have lowIn : ∀ other ∈ blockF :: hole.blocks, other ∈ block :: (overTree blockF children).blocks := by
    intro other inside
    apply List.mem_cons_of_mem
    rcases List.mem_cons.mp inside with rfl | inHole
    · exact List.mem_cons_self
    · exact List.mem_cons_of_mem _ (mem_children_blocks isHole inHole)
  obtain ⟨childOut, childNot⟩ := doomed.low blockF (lowIn blockF List.mem_cons_self)
  obtain ⟨blockOut, blockNot⟩ := doomed.low block List.mem_cons_self
  have isChild : child'.blockNumber = blockF := number.trans numberChild
  have lost5 := lost.write (by rwa [isChild]) (by rwa [isChild]) writeChild
  have lost6 := lost5.write (by rwa [numberWritten]) (by rwa [numberWritten]) writeParent
  refine ⟨(names.write writeChild).write writeParent, number, inner, above,
    ⟨lost6, doomed.leaf, doomed.root, ?_, fun other inside => doomed.low other (lowIn other inside)⟩,
    Or.inl fun s'' write => lost6.write (by rwa [numberUpper]) (by rwa [numberUpper]) write⟩
  intro other inside isOwn
  exact doomed.old other inside (List.mem_cons_of_mem _ isOwn)

/-- A split of the parent that is linked in the local grandparent only keeps the parent and the severed blocks,
also when the grandparent is written. -/
theorem Parted.again
    (parted : Parted tree s0 s own block blockF page siblings children hole spare node s3)
    (isNode : overTree blockF children ∈ siblings)
    (notBelow : block ∉ siblings.flatMap Tree.blocks) (blockOwn : block ∈ own)
    {blockG : Nat} (grandOwn : blockG ∈ own) (grandApart : blockG ∉ (overTree block siblings).blocks)
    {grand grand' upper : BTreeNode} {s7 s8 : Store} (numberGrand : grand.blockNumber = blockG)
    (unlinked : Unlinked s3 (page :: own) siblings grand node grand' upper s7)
    (write : btreeNodeWrite s7 grand' = some s8) :
    btreeNodeLoad s8 block = some node ∧ Lost s8 (page :: spare.blocks) (· = block) := by
  have kept : ∀ other ∈ page :: own, other ≠ blockG → other ∉ siblings.map Tree.block →
      btreeNodeLoad s8 other = btreeNodeLoad s3 other := by
    intro other isOwn notGrand notSibling
    rw [← unlinked.kept other isOwn notSibling]
    rcases btreeNodeWrite_cases write with change | ⟨rfl, -⟩
    · rw [unlinked.number, numberGrand] at change
      exact change.other notGrand
    · rfl
  have load : btreeNodeLoad s8 block = some node := by
    rw [kept block (List.mem_cons_of_mem _ blockOwn), parted.load]
    · rintro rfl
      exact grandApart List.mem_cons_self
    · exact fun inside => notBelow (children_block_mem inside)
  refine ⟨load, parted.lost ?_ load⟩
  intro other inside
  apply kept other (parted.inOwn inside)
  · rintro rfl
    rcases List.mem_cons.mp inside with isPage | inSpare
    · apply (List.nodup_cons.mp parted.split.owned.distinct).1
      rw [← isPage]
      exact grandOwn
    · apply grandApart
      apply List.mem_cons_of_mem _ (mem_children_blocks isNode _)
      exact List.mem_cons_of_mem _ (mem_children_blocks parted.split.isChild inSpare)
  · intro isSibling
    obtain ⟨sibling, member, rfl⟩ := List.mem_map.mp isSibling
    exact parted.severed.siblings sibling member inside

/-- The slots of a parent that is the root have neither the parent nor a severed block. -/
theorem Parted.slots_apart
    (parted : Parted tree s0 s own block blockF page siblings children hole spare node s3)
    (notBelow : block ∉ siblings.flatMap Tree.blocks) (present : block ≠ 0) {parent : Nat}
    (stored : Over s0 block parent node siblings) :
    ∀ i ≤ maxKeys, node.children i ∉ block :: page :: spare.blocks := by
  intro i small inside
  rcases List.mem_cons.mp inside with same | inInner
  · rw [stored.slot small] at same
    cases atIndex : siblings[i]? with
    | none =>
      rw [atIndex] at same
      exact present same.symm
    | some sibling =>
      rw [atIndex] at same
      apply notBelow
      rw [← same]
      exact mem_children_blocks (List.mem_of_getElem? atIndex) sibling.block_mem
  · exact parted.slots i small inInner

/-- The end of `btree_split_child` where the parent was split below the grandparent. -/
theorem Parted.splitAbove
    (parted : Parted tree s0 s own block blockF page siblings children hole spare node s3)
    (isNode : overTree blockF children ∈ siblings) (isHole : hole ∈ children)
    (notBelow : block ∉ siblings.flatMap Tree.blocks) (blockOwn : block ∈ own)
    (full : ¬ node.numKeys < maxKeys) (numberNode : node.blockNumber = block)
    (numberChild : child.blockNumber = blockF) {blockG index : Nat} (grandOwn : blockG ∈ own)
    (grandApart : blockG ∉ (overTree block siblings).blocks)
    {grand grand' upper current written child' : BTreeNode} {s5 s6 s7 s8 : Store}
    (numberGrand : grand.blockNumber = blockG)
    (deep : SplitLoses tree s3 (page :: own) (block :: (overTree blockF children).blocks) siblings grand node
      grand' upper s7) (writeGrand : btreeNodeWrite s7 grand' = some s8)
    (load : btreeNodeLoad s8 block = some current)
    (link : (if current.numKeys < maxKeys then linkChild s8 current index page else some current) =
      some written) (number : child'.blockNumber = child.blockNumber)
    (writeChild : btreeNodeWrite s8 child' = some s5) (writeParent : btreeNodeWrite s5 written = some s6) :
    SplitLoses tree s own (blockF :: hole.blocks) children node child upper child' s6 := by
  have numberUpper : upper.blockNumber = block := deep.number.trans numberNode
  have names8 := deep.names.write writeGrand
  have numberCurrent := names8 block current load
  obtain ⟨inner, above, doomed, closed | unlinked⟩ := deep.doomed
  · have numberWritten : written.blockNumber = block := by
      split at link
      · obtain ⟨keys, rfl⟩ := linkChild_slots link
        exact numberCurrent
      · obtain rfl := Option.some.inj link
        exact numberCurrent
    exact doomed.splitLoses isHole names8 (closed s8 writeGrand) numberChild number numberWritten numberUpper
      writeChild writeParent
  · -- the grandparent is linked, but the parent that is read again is still full
    obtain ⟨load8, lost8⟩ := parted.again isNode notBelow blockOwn grandOwn grandApart numberGrand unlinked
      writeGrand
    obtain rfl := Option.some.inj (load.symm.trans load8)
    rw [if_neg full] at link
    obtain rfl := Option.some.inj link
    have slotsUpper : ∀ i ≤ maxKeys, upper.children i ∉ page :: spare.blocks := by
      intro i small inside
      rcases unlinked.slots i small with same | isEmpty
      · rw [same] at inside
        exact parted.slots i small inside
      · rw [isEmpty] at inside
        exact parted.severed.zero inside
    exact parted.splitLoses names8 lost8 numberChild number numberCurrent numberUpper
      (fun i small _ => parted.slots i small) slotsUpper writeChild writeParent

/-- The end of `btree_split_child` where the parent is the root: the new node goes behind an empty slot. -/
theorem Parted.splitRoot
    (parted : Parted tree s0 s own block blockF page siblings children hole spare node s3)
    (notBelow : block ∉ siblings.flatMap Tree.blocks) (blockOwn : block ∈ own) (childOwn : blockF ∈ own)
    {parent : Nat} (stored : Over s0 block parent node siblings) (numberChild : child.blockNumber = blockF)
    {upper current written child' : BTreeNode} {s5 s6 s8 : Store}
    (above : btreeSplitRoot s3 node = some (upper, s8)) (load : btreeNodeLoad s8 block = some current)
    (link : (if current.numKeys < maxKeys then linkChild s8 current
      (firstIndex (fun i => current.children i == child.blockNumber) (current.numKeys + 1)) page
      else some current) = some written) (number : child'.blockNumber = child.blockNumber)
    (writeChild : btreeNodeWrite s8 child' = some s5) (writeParent : btreeNodeWrite s5 written = some s6) :
    SplitLoses tree s own (blockF :: hole.blocks) children node child upper child' s6 := by
  have owned := parted.split.owned
  have present := owned.nonzero block (List.mem_cons_of_mem _ blockOwn)
  obtain ⟨-, -, fits⟩ := stored.counts
  have rootLost := btreeSplitRoot_loses parted.split.names owned parted.load parted.inOwn
    (List.mem_cons_of_mem _ blockOwn) parted.severed.outside (parted.slots_apart notBelow present stored) fits
    parted.split.parents above
  obtain rfl := Option.some.inj (load.symm.trans rootLost.load)
  have numberUpper := rootLost.names block current rootLost.load
  rw [if_pos (by rw [rootLost.count]; decide), numberChild] at link
  obtain ⟨numberLinked, slotsLinked⟩ := rootLost.link (List.mem_cons_of_mem _ childOwn)
    (owned.nonzero blockF (List.mem_cons_of_mem _ childOwn)) parted.severed.zero parted.inOwn link
  have slotsUpper : ∀ i ≤ maxKeys, current.children i ∉ page :: spare.blocks := by
    intro i small inside
    rcases rootLost.slots i small with isEmpty | isFresh
    · rw [isEmpty] at inside
      exact parted.severed.zero inside
    · exact isFresh (parted.inOwn inside)
  exact parted.splitLoses rootLost.names rootLost.lost numberChild number (numberLinked.trans numberUpper)
    numberUpper slotsLinked slotsUpper writeChild writeParent

end

/-- `btree_split_child` of a full node below the root loses leaves. The induction is on the fuel, which bounds the
number of levels above. -/
theorem btreeSplitChild_loses {s0 : Store} (stores : Stores s0 0 tree) (distinct : tree.blocks.Nodup)
    {fuel block blockF index : Nat} {siblings : List (Tree (depth + 1))} {children : List (Tree depth)}
    {hole : Tree depth} {own : List Nat} {node child node' child' : BTreeNode}
    (path : OnPath tree (overTree block siblings)) (isNode : overTree blockF children ∈ siblings)
    (isHole : hole ∈ children) (names : NamesBlocks s) (owned : Owned s own) (inOwn : tree.blocks ⊆ own)
    (same : ∀ other ∈ tree.blocks, other ∉ hole.blocks → btreeNodeLoad s other = btreeNodeLoad s0 other)
    (loadNode : btreeNodeLoad s0 block = some node) (loadChild : btreeNodeLoad s0 blockF = some child)
    (full : child.numKeys = maxKeys)
    (run : btreeSplitChild fuel s node index child = some (node', child', s')) :
    SplitLoses tree s own (blockF :: hole.blocks) children node child node' child' s' := by
  induction fuel generalizing depth s s' block blockF index own node child node' child' with
  | zero => cases run
  | succ fuel ih =>
    obtain ⟨parent, storesNode⟩ := path.stores stores
    obtain ⟨inner, stored⟩ := stores_over.mp storesNode
    obtain rfl := Option.some.inj (loadNode.symm.trans stored.load)
    obtain ⟨inner, storedChild⟩ := stores_over.mp (stored.below _ isNode).2
    obtain rfl := Option.some.inj (loadChild.symm.trans storedChild.load)
    obtain ⟨notBelow, -⟩ := List.nodup_cons.mp (distinct.sublist path.sublist)
    have blockOwn : block ∈ own := inOwn (path.sublist.subset List.mem_cons_self)
    rw [btreeSplitChild_eq] at run
    obtain ⟨⟨page, s1⟩, new, run⟩ := Option.bind_eq_some_iff.mp run
    obtain ⟨s2, modify, run⟩ := Option.bind_eq_some_iff.mp run
    obtain ⟨s3, move, run⟩ := Option.bind_eq_some_iff.mp run
    obtain ⟨spare, parted⟩ := Nbtrfs.parted distinct path isNode isHole names owned inOwn same stored
      storedChild full new modify (fun _ => rfl) (fun _ => stored.holds.blockNumber) move
    dsimp only at run
    by_cases room : node.numKeys < maxKeys
    · rw [if_pos room] at run
      obtain ⟨maxKey, -, run⟩ := Option.bind_eq_some_iff.mp run
      obtain ⟨linked, link, run⟩ := Option.bind_eq_some_iff.mp run
      obtain ⟨rfl, rest⟩ := Prod.mk.inj (Option.some.inj run)
      obtain ⟨rfl, rfl⟩ := Prod.mk.inj rest
      exact parted.linked rfl (fun i _ => clearRange_slot child.children _ _ i) link
    · rw [if_neg room] at run
      obtain ⟨⟨upper, s4⟩, above, run⟩ := Option.bind_eq_some_iff.mp run
      obtain ⟨current, loadCurrent, run⟩ := Option.bind_eq_some_iff.mp run
      obtain ⟨written, link, run⟩ := Option.bind_eq_some_iff.mp run
      obtain ⟨s5, writeChild, run⟩ := Option.bind_eq_some_iff.mp run
      obtain ⟨s6, writeParent, run⟩ := Option.bind_eq_some_iff.mp run
      obtain ⟨rfl, rest⟩ := Prod.mk.inj (Option.some.inj run)
      obtain ⟨rfl, rfl⟩ := Prod.mk.inj rest
      have numberChild : child.blockNumber = blockF := storedChild.holds.blockNumber
      have isParent : child.parent = block := storedChild.holds.parent
      dsimp only at loadCurrent
      rw [isParent] at loadCurrent
      by_cases isRoot : node.parent ≠ 0
      · rw [if_pos isRoot] at above
        obtain ⟨grandparent, loadGrand, above⟩ := Option.bind_eq_some_iff.mp above
        obtain ⟨⟨grand, upper', s7⟩, deeper, above⟩ := Option.bind_eq_some_iff.mp above
        obtain ⟨s8, writeGrand, above⟩ := Option.bind_eq_some_iff.mp above
        obtain ⟨rfl, rfl⟩ := Prod.mk.inj (Option.some.inj above)
        obtain ⟨blockG, uncles, pathGrand, isUncle, storesNode'⟩ :
            ∃ blockG uncles, OnPath tree (overTree blockG uncles) ∧ overTree block siblings ∈ uncles ∧
              Stores s0 blockG (overTree block siblings) := by
          rcases path.above stores with storesRoot | below
          · exact absurd (storesRoot.names stored.load).2 isRoot
          · exact below
        have isGrand : node.parent = blockG := (storesNode'.names stored.load).2
        obtain ⟨parentG, storesGrand⟩ := pathGrand.stores stores
        obtain ⟨nodeG, storedGrand⟩ := stores_over.mp storesGrand
        have grandApart : blockG ∉ (overTree block siblings).blocks := fun inside =>
          (List.nodup_cons.mp (distinct.sublist pathGrand.sublist)).1 (mem_children_blocks isUncle inside)
        have grandIn : blockG ∈ tree.blocks := pathGrand.sublist.subset List.mem_cons_self
        have grandNot : blockG ∉ (overTree blockF children).blocks := fun inside =>
          grandApart (List.mem_cons_of_mem _ (mem_children_blocks isNode inside))
        rw [isGrand, parted.kept blockG grandIn grandNot, storedGrand.load] at loadGrand
        obtain rfl := Option.some.inj loadGrand
        obtain ⟨-, -, fits⟩ := stored.counts
        have deep := ih pathGrand isUncle isNode parted.split.names parted.split.owned
          (fun other inside => List.mem_cons_of_mem _ (inOwn inside)) parted.kept storedGrand.load loadNode
          (by omega) deeper
        exact parted.splitAbove isNode isHole notBelow blockOwn room stored.holds.blockNumber numberChild
          (inOwn grandIn) grandApart storedGrand.holds.blockNumber deep writeGrand loadCurrent link rfl
          writeChild writeParent
      · rw [if_neg isRoot] at above
        have childIn : blockF ∈ tree.blocks := (path.child isNode).sublist.subset List.mem_cons_self
        exact parted.splitRoot notBelow blockOwn (inOwn childIn) stored numberChild above loadCurrent link rfl
          writeChild writeParent

end

end Nbtrfs
