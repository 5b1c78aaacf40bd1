import Nbtrfs.BTree.Frames

/-!
# Blocks that no tree reaches

Every node of a stored tree names its parent, and the parent has it in a slot. So blocks whose parents are
among them, up to nodes that have none of them in a slot, are in no stored tree.
-/

namespace Nbtrfs

section

variable {s s' : Store}

/-- A leaf's block is a block of the tree. -/
theorem Tree.leaf_block_mem {tree : Tree depth} {leaf : Leaf} (isLeaf : leaf ∈ tree.leaves) :
    leaf.block ∈ tree.blocks := by
  induction depth with
  | zero =>
    rw [List.mem_singleton.mp isLeaf]
    exact List.mem_cons_self
  | succ depth ih =>
    obtain ⟨child, isChild, inChild⟩ := List.mem_flatMap.mp isLeaf
    exact List.mem_cons_of_mem _ (List.mem_flatMap.mpr ⟨child, isChild, ih inChild⟩)

/-- The blocks of a stored tree name parents among them or the parent of the tree. -/
theorem Stores.parents {depth parent : Nat} {tree : Tree depth} (stores : Stores s parent tree) :
    ∀ block ∈ tree.blocks, ∀ node, btreeNodeLoad s block = some node →
      node.parent ∈ tree.blocks ∨ node.parent = parent := by
  induction depth generalizing parent with
  | zero =>
    intro block inside node load
    rw [List.mem_singleton.mp inside] at load
    exact Or.inr (stores.names load).2
  | succ depth ih =>
    obtain ⟨root, children⟩ := tree
    intro block inside node load
    rcases List.mem_cons.mp inside with rfl | below
    · exact Or.inr (stores.names load).2
    · obtain ⟨child, isChild, inChild⟩ := List.mem_flatMap.mp below
      left
      rcases ih (stores.2 child isChild).2 block inChild node load with within | isRoot
      · exact List.mem_cons_of_mem _ (List.mem_flatMap.mpr ⟨child, isChild, within⟩)
      · rw [isRoot]
        exact List.mem_cons_self

/-- A way to a leaf among some blocks enters them from outside. -/
theorem Stores.enters {depth parent : Nat} {tree : Tree depth} {inner : List Nat}
    (stores : Stores s parent tree) {leaf : Leaf} (isLeaf : leaf ∈ tree.leaves)
    (inside : leaf.block ∈ inner) (outside : tree.block ∉ inner) :
    ∃ block node above top, block ∈ inner ∧ btreeNodeLoad s block = some node ∧ node.parent = above ∧
      above ∉ inner ∧ btreeNodeLoad s above = some top ∧
      ∃ i ≤ maxKeys, i ≤ top.numKeys ∧ top.children i = block := by
  induction depth generalizing parent with
  | zero =>
    rw [List.mem_singleton.mp isLeaf] at inside
    exact absurd inside outside
  | succ depth ih =>
    obtain ⟨above, children⟩ := tree
    obtain ⟨top, stored⟩ := stores_over.mp stores
    obtain ⟨child, isChild, inChild⟩ := List.mem_flatMap.mp isLeaf
    obtain ⟨-, storesChild⟩ := stored.below child isChild
    by_cases inInner : child.block ∈ inner
    · obtain ⟨node, load⟩ := storesChild.load
      obtain ⟨i, atIndex⟩ := List.mem_iff_getElem?.mp isChild
      obtain ⟨slot, -⟩ := stored.slotAt atIndex
      obtain ⟨-, extra, fits⟩ := stored.counts
      have bound : i < children.length := (List.getElem?_eq_some_iff.mp atIndex).1
      exact ⟨child.block, node, above, top, inInner, load, (storesChild.names load).2, outside,
        stored.load, i, by omega, by omega, slot⟩
    · exact ih storesChild inChild inInner

/-- Some blocks name parents among them or outside, and no parent outside has one of them as a child. -/
structure Lost (s : Store) (inner : List Nat) (above : Nat → Prop) : Prop where
  /-- The parents of the blocks. -/
  parents : ∀ block ∈ inner, ∀ node, btreeNodeLoad s block = some node →
    node.parent ∈ inner ∨ above node.parent
  /-- The children of the nodes above them. -/
  slots : ∀ parent, above parent → ∀ node, btreeNodeLoad s parent = some node →
    ∀ i ≤ maxKeys, i ≤ node.numKeys → node.children i ∉ inner

/-- No stored tree with another root has a leaf among lost blocks. -/
theorem Lost.no_leaf {inner : List Nat} {above : Nat → Prop} {depth parent : Nat} {tree : Tree depth}
    (lost : Lost s inner above) (outside : tree.block ∉ inner) (stores : Stores s parent tree)
    {leaf : Leaf} (isLeaf : leaf ∈ tree.leaves) : leaf.block ∉ inner := by
  intro inside
  obtain ⟨block, node, other, upper, inInner, load, isParent, notInner, loadUpper, i, small, keyed, slot⟩ :=
    stores.enters isLeaf inside outside
  rcases lost.parents block inInner node load with within | isAbove
  · rw [isParent] at within
    exact notInner within
  · rw [isParent] at isAbove
    apply lost.slots other isAbove upper loadUpper i small keyed
    rw [slot]
    exact inInner

section

variable {depth parent block : Nat} {node : BTreeNode}

/-- A block of two children is a block of one. -/
theorem children_apart {children : List (Tree depth)} (distinct : (children.flatMap Tree.blocks).Nodup)
    {first second : Tree depth} (isFirst : first ∈ children) (isSecond : second ∈ children)
    {shared : Nat} (inFirst : shared ∈ first.blocks) (inSecond : shared ∈ second.blocks) :
    first = second := by
  induction children with
  | nil => cases isFirst
  | cons child rest ih =>
    rw [List.flatMap_cons, List.nodup_append] at distinct
    obtain ⟨-, distinctRest, across⟩ := distinct
    rcases List.mem_cons.mp isFirst with rfl | laterFirst
    · rcases List.mem_cons.mp isSecond with rfl | laterSecond
      · rfl
      · exact absurd rfl (across shared inFirst shared (mem_children_blocks laterSecond inSecond))
    · rcases List.mem_cons.mp isSecond with rfl | laterSecond
      · exact absurd rfl (across shared inSecond shared (mem_children_blocks laterFirst inFirst))
      · exact ih distinctRest laterFirst laterSecond

/-- Two children at different places are different. -/
theorem children_differ {children : List (Tree depth)} (distinct : (children.flatMap Tree.blocks).Nodup)
    {i j : Nat} {first second : Tree depth} (atFirst : children[i]? = some first)
    (atSecond : children[j]? = some second) (apart : i ≠ j) : first ≠ second := by
  have sublist : (children.map Tree.block).Sublist (children.flatMap Tree.blocks) := by
    clear distinct atFirst atSecond
    induction children with
    | nil => exact List.Sublist.refl _
    | cons child rest ih =>
      rw [List.map_cons, List.flatMap_cons, ← List.singleton_append]
      exact (List.singleton_sublist.mpr child.block_mem).append ih
  rintro rfl
  have inside : i < (children.map Tree.block).length := by
    rw [List.length_map]
    exact (List.getElem?_eq_some_iff.mp atFirst).1
  apply apart
  apply (List.getElem?_inj inside (distinct.sublist sublist)).mp
  rw [List.getElem?_map, List.getElem?_map, atFirst, atSecond]

/-- The slots of a node over trees apart from some blocks. -/
theorem Over.slots_apart {children : List (Tree depth)} {inner : List Nat}
    (stored : Over s block parent node children) (zero : 0 ∉ inner) {i : Nat} (small : i ≤ maxKeys)
    (apart : ∀ child, children[i]? = some child → child.block ∉ inner) : node.children i ∉ inner := by
  rw [stored.slot small]
  cases atIndex : children[i]? with
  | none => exact zero
  | some child => exact apart child atIndex

end

end

end Nbtrfs
