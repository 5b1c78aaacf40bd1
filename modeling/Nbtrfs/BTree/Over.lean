import Nbtrfs.BTree.Bottom
import Nbtrfs.BTree.Shape

/-!
# Nodes over trees

An internal node over trees of any depth, the maximum that `btree_find_maximum` returns for it, and the
trees below it under another parent.
-/

namespace Nbtrfs

open Descent

/-- A root over trees. -/
def overTree {depth : Nat} (block : Nat) (children : List (Tree depth)) : Tree (depth + 1) :=
  (block, children)

/-- The leaves of a root over trees. -/
theorem overTree_leaves {depth : Nat} (block : Nat) (children : List (Tree depth)) :
    (overTree block children).leaves = children.flatMap Tree.leaves := rfl

/-- The blocks of a root over trees. -/
theorem overTree_blocks {depth : Nat} (block : Nat) (children : List (Tree depth)) :
    (overTree block children).blocks = block :: children.flatMap Tree.blocks := rfl

section

variable {s s' : Store} {depth parent : Nat}

/-- A stored internal node over trees. -/
structure Over (s : Store) (block parent : Nat) (node : BTreeNode) (children : List (Tree depth)) :
    Prop where
  /-- The block loads the node. -/
  load : btreeNodeLoad s block = some node
  /-- The node has the trees as its children. -/
  holds : InnerNode node block parent (children.map fun child => (child.block, child.maxKey))
  /-- The trees are stored. -/
  below : ∀ child ∈ children, child.block ≠ 0 ∧ Stores s block child

/-- A stored tree is a node over its children. -/
theorem stores_over {block : Nat} {children : List (Tree depth)} :
    Stores s parent (overTree block children) ↔
      ∃ node, Over s block parent node children := by
  constructor
  · rintro ⟨⟨node, load, holds⟩, below⟩
    exact ⟨node, load, holds, below⟩
  · rintro ⟨node, load, holds, below⟩
    exact ⟨⟨node, load, holds⟩, below⟩

section Node

variable {block : Nat} {node : BTreeNode} {children : List (Tree depth)}

/-- A node has at least as many children as keys and at most one more. -/
theorem Over.counts (stored : Over s block parent node children) :
    node.numKeys ≤ children.length ∧ children.length ≤ node.numKeys + 1 ∧ node.numKeys ≤ maxKeys := by
  have enough := stored.holds.enough
  have extra := stored.holds.extra
  rw [List.length_map] at enough extra
  exact ⟨enough, extra, stored.holds.fits⟩

/-- A slot of a node. -/
theorem Over.slot (stored : Over s block parent node children) {i : Nat} (small : i ≤ maxKeys) :
    node.children i = children[i]?.elim 0 Tree.block := by
  rw [stored.holds.slots i small, List.getElem?_map]
  cases children[i]? with
  | none => rfl
  | some child => rfl

/-- A slot with a child. -/
theorem Over.slotAt (stored : Over s block parent node children) {i : Nat} {child : Tree depth}
    (atIndex : children[i]? = some child) : node.children i = child.block ∧ child.block ≠ 0 := by
  obtain ⟨-, extra, fits⟩ := stored.counts
  have inside := (List.getElem?_eq_some_iff.mp atIndex).1
  rw [stored.slot (by omega), atIndex]
  exact ⟨rfl, (stored.below child (List.mem_of_getElem? atIndex)).1⟩

/-- The key of a child. -/
theorem Over.keyAt (stored : Over s block parent node children) {i : Nat} (small : i < node.numKeys)
    {child : Tree depth} (atIndex : children[i]? = some child) :
    child.maxKey = some (node.keys i) := by
  have largest := stored.holds.keys i small
  rw [List.getElem?_map, atIndex] at largest
  exact largest

/-- The last child of a node. -/
theorem Over.lastChild (stored : Over s block parent node children) :
    node.lastChild = children.getLast?.map Tree.block := by
  rw [stored.holds.lastChild_eq, List.getLast?_map, Option.map_map]
  · rfl
  · intro child isChild
    obtain ⟨tree, inside, rfl⟩ := List.mem_map.mp isChild
    exact (stored.below tree inside).1

end Node

/-- The key at the end of the last children, or 0 at a node without children. -/
def Tree.peak : {depth : Nat} → Tree depth → Nat
  | 0, leaf => Leaf.key leaf
  | _ + 1, tree => (Prod.snd tree).getLast?.elim 0 Tree.peak

/-- `btree_find_maximum` follows the last children. -/
theorem btreeFindMaximumFrom_peak {fuel steps : Nat} {tree : Tree depth} (stores : Stores s parent tree)
    (within : Within (ChildOf s) steps tree.block) (enough : steps < fuel) :
    btreeFindMaximumFrom s fuel tree.block = some tree.peak := by
  induction depth generalizing parent steps fuel with
  | zero =>
    obtain ⟨fuel, rfl⟩ := Nat.exists_eq_succ_of_ne_zero (by omega : fuel ≠ 0)
    obtain ⟨node, load, holds⟩ := stores
    show btreeFindMaximumFrom s (fuel + 1) (Leaf.block tree) = some (Leaf.key tree)
    rw [btreeFindMaximumFrom, load, ← holds.key]
    simp [holds.isLeaf]
  | succ depth ih =>
    obtain ⟨fuel, rfl⟩ := Nat.exists_eq_succ_of_ne_zero (by omega : fuel ≠ 0)
    obtain ⟨block, children⟩ := tree
    obtain ⟨node, stored⟩ := stores_over.mp stores
    show btreeFindMaximumFrom s (fuel + 1) block = some (children.getLast?.elim 0 Tree.peak)
    rw [btreeFindMaximumFrom, stored.load]
    simp only [Option.bind_eq_bind, Option.bind_some, stored.holds.isLeaf, Bool.false_eq_true, if_false,
      stored.lastChild]
    cases isLast : children.getLast? with
    | none => rfl
    | some last =>
      have atIndex : children[children.length - 1]? = some last := by
        rw [← List.getLast?_eq_getElem?, isLast]
      obtain ⟨slot, present⟩ := stored.slotAt atIndex
      obtain ⟨-, extra, -⟩ := stored.counts
      have step : ChildOf s block last.block :=
        ⟨node, stored.load, stored.holds.isLeaf, present, children.length - 1, by omega, slot⟩
      cases steps with
      | zero => exact absurd step (within last.block)
      | succ steps =>
        exact ih (stored.below last (List.mem_of_getLast? isLast)).2 (within last.block step)
          (by omega)

/-- `btree_find_maximum` of a stored tree. -/
theorem btreeFindMaximum_peak {tree : Tree depth} (stores : Stores s parent tree) :
    btreeFindMaximum s tree.block = some tree.peak := by
  apply btreeFindMaximumFrom_peak stores stores.shape.within
  have inside := stores.shape.inside
  unfold Store.walkFuel
  omega

/-- A node over trees stays one while its node and the trees load the same. -/
theorem Over.congr {block : Nat} {node : BTreeNode} {children : List (Tree depth)}
    (stored : Over s block parent node children)
    (here : btreeNodeLoad s' block = btreeNodeLoad s block)
    (there : ∀ child ∈ children, ∀ other ∈ child.blocks,
      btreeNodeLoad s' other = btreeNodeLoad s other) :
    Over s' block parent node children := by
  refine ⟨here.trans stored.load, stored.holds, fun child isChild => ?_⟩
  obtain ⟨present, stores⟩ := stored.below child isChild
  exact ⟨present, stores.congr (there child isChild)⟩

/-- The block of a tree is one of its blocks. -/
theorem Tree.block_mem (tree : Tree depth) : tree.block ∈ tree.blocks := by
  cases depth with
  | zero => exact List.mem_cons_self
  | succ depth => exact List.mem_cons_self

/-- The blocks of a child are among those of the children. -/
theorem mem_children_blocks {children : List (Tree depth)} {child : Tree depth} {block : Nat}
    (isChild : child ∈ children) (inside : block ∈ child.blocks) :
    block ∈ children.flatMap Tree.blocks := List.mem_flatMap.mpr ⟨child, isChild, inside⟩

/-- The blocks of the children of a node are among theirs. -/
theorem children_block_mem {children : List (Tree depth)} {block : Nat}
    (inside : block ∈ children.map Tree.block) : block ∈ children.flatMap Tree.blocks := by
  obtain ⟨child, isChild, rfl⟩ := List.mem_map.mp inside
  exact mem_children_blocks isChild child.block_mem

/-- The root of a stored tree names its block and its parent. -/
theorem Stores.names {tree : Tree depth} {node : BTreeNode} (stores : Stores s parent tree)
    (load : btreeNodeLoad s tree.block = some node) :
    node.blockNumber = tree.block ∧ node.parent = parent := by
  cases depth with
  | zero =>
    obtain ⟨leaf, loadLeaf, holds⟩ := stores
    obtain rfl := Option.some.inj (load.symm.trans loadLeaf)
    exact ⟨holds.blockNumber, holds.parent⟩
  | succ depth =>
    obtain ⟨⟨inner, loadInner, holds⟩, -⟩ := stores
    obtain rfl := Option.some.inj (load.symm.trans loadInner)
    exact ⟨holds.blockNumber, holds.parent⟩

/-- A tree is under another parent when its root is re-parented and its other blocks load the same. -/
theorem Stores.withParent {former : Nat} {tree : Tree depth} {node : BTreeNode}
    (stores : Stores s former tree) (distinct : tree.blocks.Nodup)
    (load : btreeNodeLoad s tree.block = some node)
    (here : btreeNodeLoad s' tree.block = some { node with parent })
    (there : ∀ block ∈ tree.blocks, block ≠ tree.block →
      btreeNodeLoad s' block = btreeNodeLoad s block) : Stores s' parent tree := by
  cases depth with
  | zero =>
    obtain ⟨leaf, loadLeaf, holds⟩ := stores
    obtain rfl := Option.some.inj (load.symm.trans loadLeaf)
    exact ⟨_, here, holds.isLeaf, holds.blockNumber, holds.key, holds.value, holds.type, rfl⟩
  | succ depth =>
    obtain ⟨block, children⟩ := tree
    obtain ⟨⟨inner, loadInner, holds⟩, below⟩ := stores
    obtain rfl := Option.some.inj (load.symm.trans loadInner)
    have notBelow : block ∉ children.flatMap Tree.blocks := (List.nodup_cons.mp distinct).1
    refine ⟨⟨_, here, holds.isLeaf, holds.blockNumber, rfl, holds.fits, holds.enough, holds.extra,
      holds.keys, holds.slots⟩, fun child isChild => ⟨(below child isChild).1, ?_⟩⟩
    apply (below child isChild).2.congr
    intro other inside
    have isBelow : other ∈ children.flatMap Tree.blocks :=
      List.mem_flatMap.mpr ⟨child, isChild, inside⟩
    apply there other (List.mem_cons_of_mem _ isBelow)
    rintro rfl
    exact notBelow isBelow

/-- Re-parented trees are under the new parent, and only their roots change. -/
theorem reparent_trees {former : Nat} (children : List (Tree depth)) (parent : Nat)
    (stored : ∀ child ∈ children, child.block ≠ 0 ∧ Stores s former child)
    (distinct : (children.flatMap Tree.blocks).Nodup) :
    ∃ s', reparent s (children.map Tree.block) parent = some s' ∧
      (∀ child ∈ children, Stores s' parent child) ∧ ChangesOnly s (children.map Tree.block) s' := by
  induction children generalizing s with
  | nil => exact ⟨s, rfl, fun _ inside => absurd inside List.not_mem_nil, ChangesOnly.refl s _⟩
  | cons first rest ih =>
    rw [List.flatMap_cons, List.nodup_append] at distinct
    obtain ⟨distinctFirst, distinctRest, across⟩ := distinct
    obtain ⟨present, stores⟩ := stored first List.mem_cons_self
    obtain ⟨node, load⟩ := stores.load
    obtain ⟨number, -⟩ := stores.names load
    obtain ⟨middle, write, change⟩ : ∃ s', btreeNodeWrite s { node with parent } = some s' ∧
        NodeChange s first.block { node with parent } s' := btreeNodeWrite_at number load
    have apart : ∀ child ∈ rest, ∀ block ∈ child.blocks, block ∉ first.blocks :=
      fun child isChild block inside inFirst =>
        across block inFirst block (List.mem_flatMap.mpr ⟨child, isChild, inside⟩) rfl
    have storedRest : ∀ child ∈ rest, child.block ≠ 0 ∧ Stores middle former child := by
      intro child isChild
      obtain ⟨presentChild, storesChild⟩ := stored child (List.mem_cons_of_mem _ isChild)
      refine ⟨presentChild, storesChild.congr fun block inside => change.other ?_⟩
      rintro rfl
      exact apart child isChild _ inside first.block_mem
    obtain ⟨last, run, moved, changes⟩ := ih storedRest distinctRest
    refine ⟨last, ?_, ?_, ?_⟩
    · unfold reparent at run ⊢
      rw [List.map_cons, List.foldlM_cons, if_pos present, load]
      simp only [Option.bind_eq_bind, Option.bind_some, write]
      exact run
    · intro child isChild
      rcases List.mem_cons.mp isChild with rfl | later
      · apply (stores.withParent distinctFirst load change.here fun _ _ => change.other).congr
        intro block inside
        apply changes.other
        intro isRest
        obtain ⟨other, isOther, rfl⟩ := List.mem_map.mp isRest
        exact apart other isOther _ other.block_mem inside
      · exact moved child later
    · rw [List.map_cons]
      exact change.changesOnly.trans changes (List.cons_subset_cons _ (List.nil_subset _))
        (List.subset_cons_self _ _)

/-- Re-parenting two lists of blocks in a row. -/
theorem reparent_append (first second : List Nat) (parent : Nat) :
    reparent s (first ++ second) parent =
      (reparent s first parent).bind fun s => reparent s second parent := by
  unfold reparent
  rw [List.foldlM_append]
  rfl

/-- Empty slots are not re-parented. -/
theorem reparent_empty (count parent : Nat) :
    reparent s (List.replicate count 0) parent = some s := by
  induction count with
  | zero => rfl
  | succ count ih =>
    unfold reparent at ih ⊢
    rw [List.replicate_succ, List.foldlM_cons, if_neg (by simp)]
    exact ih

end

end Nbtrfs
