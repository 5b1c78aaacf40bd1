import Nbtrfs.BTree.Image
import Nbtrfs.Library.Descent

/-!
# Trees of any shape

The pages of a tree whose leaves may be at different depths. No node of such a tree is below itself,
so a walk down it takes fewer steps than the image has blocks, and `btree_search` finds the leaf with
a key, if the tree has one.
-/

namespace Nbtrfs

open Relation Descent

/-- An internal node over children, given by their blocks and their largest keys. The slots behind
the last child are free. -/
structure KeyedNode (node : BTreeNode) (children : List (Nat × Option Nat)) : Prop where
  /-- The node is not a leaf. -/
  isLeaf : node.isLeaf = false
  /-- The keys fit the array. -/
  fits : node.numKeys ≤ maxKeys
  /-- There is a child for every key. -/
  enough : node.numKeys ≤ children.length
  /-- There is at most one child more than keys. -/
  extra : children.length ≤ node.numKeys + 1
  /-- Each key is the largest one below its child. -/
  keys : ∀ i < node.numKeys, (children[i]?.bind Prod.snd) = some (node.keys i)
  /-- The children are in the first slots. -/
  slots : ∀ i ≤ node.numKeys, node.children i = (children[i]?.elim 0 Prod.fst)

/-- A node whose other slots are 0. -/
theorem InnerNode.keyed {node : BTreeNode} {block parent : Nat} {children : List (Nat × Option Nat)}
    (holds : InnerNode node block parent children) : KeyedNode node children where
  isLeaf := holds.isLeaf
  fits := holds.fits
  enough := holds.enough
  extra := holds.extra
  keys := holds.keys
  slots i small := holds.slots i (Nat.le_trans small holds.fits)

/-- The pages hold a tree with the leaves from left to right. -/
inductive StoredShape (s : Store) : Nat → List Leaf → Prop
  | leaf {leaf : Leaf} {node : BTreeNode} (load : btreeNodeLoad s leaf.block = some node)
      (holds : LeafNode node leaf node.parent) : StoredShape s leaf.block [leaf]
  | inner {block : Nat} {node : BTreeNode} {children : List (Nat × List Leaf)}
      (load : btreeNodeLoad s block = some node)
      (holds : KeyedNode node (children.map fun child => (child.1, child.2.getLast?.map Leaf.key)))
      (nonzero : ∀ child ∈ children, child.1 ≠ 0)
      (below : ∀ child ∈ children, StoredShape s child.1 child.2) :
      StoredShape s block (children.flatMap Prod.snd)

/-- A block is in a child slot of a stored internal node. -/
def ChildOf (s : Store) (block child : Nat) : Prop :=
  ∃ node, btreeNodeLoad s block = some node ∧ node.isLeaf = false ∧ child ≠ 0 ∧
    ∃ i ≤ node.numKeys, node.children i = child

section

variable {s : Store}

/-- The blocks of a tree whose leaves are all at one depth. -/
theorem Stores.shape {depth parent : Nat} {tree : Tree depth} (stores : Stores s parent tree) :
    StoredShape s tree.block tree.leaves := by
  induction depth generalizing parent with
  | zero =>
    obtain ⟨node, load, holds⟩ := stores
    have here : LeafNode node tree node.parent :=
      ⟨holds.isLeaf, holds.blockNumber, holds.key, holds.value, holds.type, rfl⟩
    exact StoredShape.leaf load here
  | succ depth ih =>
    obtain ⟨block, children⟩ := tree
    obtain ⟨⟨node, load, holds⟩, below⟩ := stores
    have leaves : @Tree.leaves (depth + 1) (block, children) =
        (children.map fun child => (child.block, child.leaves)).flatMap Prod.snd := by
      rw [List.flatMap_map]
      rfl
    rw [leaves]
    apply StoredShape.inner load
    · rw [List.map_map]
      exact holds.keyed
    · intro child isChild
      obtain ⟨subtree, inside, rfl⟩ := List.mem_map.mp isChild
      exact (below subtree inside).1
    · intro child isChild
      obtain ⟨subtree, inside, rfl⟩ := List.mem_map.mp isChild
      exact ih (below subtree inside).2

/-- The slot of a child of an internal node. -/
theorem KeyedNode.slot_of {node : BTreeNode} {children : List (Nat × List Leaf)}
    (holds : KeyedNode node (children.map fun child => (child.1, child.2.getLast?.map Leaf.key)))
    {i : Nat} (small : i ≤ node.numKeys) : node.children i = children[i]?.elim 0 Prod.fst := by
  rw [holds.slots i small, List.getElem?_map]
  cases children[i]? with
  | none => rfl
  | some child => rfl

/-- A walk down a stored tree comes to an end. -/
theorem StoredShape.finishes {block : Nat} {leaves : List Leaf}
    (stored : StoredShape s block leaves) : Finishes (ChildOf s) block := by
  induction stored with
  | leaf load holds =>
    apply finishes_of_next
    rintro child ⟨other, load', inner, -⟩
    rw [load] at load'
    rw [← Option.some.inj load', holds.isLeaf] at inner
    cases inner
  | @inner block node children load holds nonzero below ih =>
    apply finishes_of_next
    rintro child ⟨other, load', -, present, i, small, slot⟩
    rw [load] at load'
    obtain rfl := Option.some.inj load'
    rw [holds.slot_of small] at slot
    cases atIndex : children[i]? with
    | none =>
      rw [atIndex] at slot
      exact absurd slot.symm present
    | some found =>
      rw [atIndex] at slot
      rw [← slot]
      exact ih found (List.mem_of_getElem? atIndex)

/-- The root of a stored tree is a block of the image. -/
theorem StoredShape.inside {block : Nat} {leaves : List Leaf}
    (stored : StoredShape s block leaves) : block < s.totalBlocks := by
  cases stored with
  | leaf load => exact (load_eq_some.mp load).1
  | inner load => exact (load_eq_some.mp load).1

/-- A child of a stored tree is the root of a stored tree. -/
theorem StoredShape.child {block child : Nat} {leaves : List Leaf}
    (stored : StoredShape s block leaves) (isChild : ChildOf s block child) :
    ∃ below, StoredShape s child below := by
  obtain ⟨node', load', inner, present, i, small, slot⟩ := isChild
  cases stored with
  | leaf load holds =>
    rw [load] at load'
    rw [← Option.some.inj load', holds.isLeaf] at inner
    cases inner
  | @inner _ node children load holds nonzero below =>
    rw [load] at load'
    obtain rfl := Option.some.inj load'
    rw [holds.slot_of small] at slot
    cases atIndex : children[i]? with
    | none =>
      rw [atIndex] at slot
      exact absurd slot.symm present
    | some found =>
      rw [atIndex] at slot
      rw [← slot]
      exact ⟨found.2, below found (List.mem_of_getElem? atIndex)⟩

/-- Every block below a stored tree is a block of the image. -/
theorem StoredShape.reach {block later : Nat} {leaves : List Leaf}
    (stored : StoredShape s block leaves) (reached : ReflTransGen (ChildOf s) block later) :
    ∃ below, StoredShape s later below := by
  induction reached with
  | refl => exact ⟨leaves, stored⟩
  | tail _ step ih =>
    obtain ⟨_, here⟩ := ih
    exact here.child step

/-- A walk down a stored tree takes fewer steps than the image has blocks. -/
theorem StoredShape.within {block : Nat} {leaves : List Leaf}
    (stored : StoredShape s block leaves) : Within (ChildOf s) (s.totalBlocks - 1) block := by
  have bounded := stored.finishes.within (List.range s.totalBlocks) fun later reached => by
    obtain ⟨_, here⟩ := stored.reach reached
    exact List.mem_range.mpr here.inside
  rwa [List.length_range] at bounded

/-- The block of the leaf with a key, 0 for none. -/
def leafBlock (leaves : List Leaf) (key : Nat) : Nat :=
  (leaves.find? fun leaf => leaf.key == key).elim 0 Leaf.block

/-- Leaves without a key have no block for it. -/
theorem find?_eq_none_of_ne {leaves : List Leaf} {key : Nat}
    (other : ∀ leaf ∈ leaves, leaf.key ≠ key) : leaves.find? (fun leaf => leaf.key == key) = none := by
  rw [List.find?_eq_none]
  intro leaf inside
  simpa using other leaf inside

/-- No leaf of increasing leaves has a greater key than the last one. -/
theorem Increasing.le_last {leaves : List Leaf} (increasing : Increasing leaves) {leaf last : Leaf}
    (inside : leaf ∈ leaves) (isLast : leaves.getLast? = some last) : leaf.key ≤ last.key := by
  obtain ⟨front, whole⟩ := List.getLast?_eq_some_iff.mp isLast
  unfold Increasing at increasing
  rw [whole, List.map_append, List.pairwise_append] at increasing
  rw [whole] at inside
  rcases List.mem_append.mp inside with earlier | final
  · exact Nat.le_of_lt (increasing.2.2 _ (List.mem_map_of_mem earlier) _ (by simp))
  · rw [List.mem_singleton.mp final]

/-- Parts of increasing leaves are increasing, and the first part is below the second. -/
theorem Increasing.append {first second : List Leaf} (increasing : Increasing (first ++ second)) :
    Increasing first ∧ Increasing second ∧
      ∀ left ∈ first, ∀ right ∈ second, left.key < right.key := by
  unfold Increasing at increasing ⊢
  rw [List.map_append, List.pairwise_append] at increasing
  obtain ⟨before, after, across⟩ := increasing
  exact ⟨before, after, fun left isLeft right isRight =>
    across _ (List.mem_map_of_mem isLeft) _ (List.mem_map_of_mem isRight)⟩

/-- The child that the search goes on with has the leaf with the key, if there is one. -/
theorem leafBlock_child {node : BTreeNode} {key : Nat} {children : List (Nat × List Leaf)}
    (holds : KeyedNode node (children.map fun child => (child.1, child.2.getLast?.map Leaf.key)))
    (increasing : Increasing (children.flatMap Prod.snd)) :
    leafBlock (children.flatMap Prod.snd) key =
      (children[firstIndex (fun i => key ≤ node.keys i) node.numKeys]?).elim 0
        fun child => leafBlock child.2 key := by
  obtain ⟨atMost, rejected, accepted⟩ :=
    firstIndex_spec (fun i => decide (key ≤ node.keys i)) node.numKeys
  generalize firstIndex (fun i => decide (key ≤ node.keys i)) node.numKeys = index at *
  have keyAt : ∀ i < node.numKeys, ∀ child, children[i]? = some child →
      ∃ last, child.2.getLast? = some last ∧ last.key = node.keys i := by
    intro i small child atIndex
    have key := holds.keys i small
    rw [List.getElem?_map, atIndex] at key
    exact Option.map_eq_some_iff.mp key
  have extra := holds.extra
  rw [List.length_map] at extra
  have earlier : ∀ leaf ∈ (children.take index).flatMap Prod.snd, leaf.key ≠ key := by
    intro leaf inside
    obtain ⟨child, isChild, inChild⟩ := List.mem_flatMap.mp inside
    obtain ⟨i, atIndex⟩ := List.mem_iff_getElem?.mp isChild
    obtain ⟨less, atIndex⟩ : i < index ∧ children[i]? = some child := by
      rw [List.getElem?_take] at atIndex
      split at atIndex
      · exact ⟨by assumption, atIndex⟩
      · cases atIndex
    obtain ⟨last, isLast, same⟩ := keyAt i (by omega) child atIndex
    obtain ⟨before, after, whole⟩ := List.append_of_mem (List.mem_of_getElem? atIndex)
    rw [whole, List.flatMap_append, List.flatMap_cons] at increasing
    have small := increasing.append.2.1.append.1.le_last inChild isLast
    have below := rejected i less
    simp only [decide_eq_false_iff_not, Nat.not_le] at below
    omega
  cases atIndex : children[index]? with
  | none =>
    have whole : children.take index = children := by
      rw [List.take_of_length_le (List.getElem?_eq_none_iff.mp atIndex)]
    rw [whole] at earlier
    unfold leafBlock
    rw [find?_eq_none_of_ne earlier]
    rfl
  | some child =>
    have whole : children = children.take index ++ child :: children.drop (index + 1) := by
      obtain ⟨inside, here⟩ := List.getElem?_eq_some_iff.mp atIndex
      rw [← here, ← List.drop_eq_getElem_cons inside, List.take_append_drop]
    have later : ∀ leaf ∈ (children.drop (index + 1)).flatMap Prod.snd, leaf.key ≠ key := by
      intro leaf inside
      by_cases keyed : index < node.numKeys
      · obtain ⟨last, isLast, same⟩ := keyAt index keyed child atIndex
        rw [whole, List.flatMap_append, List.flatMap_cons] at increasing
        have less := increasing.append.2.1.append.2.2 last (List.mem_of_getLast? isLast) leaf inside
        have atMost := accepted keyed
        simp only [decide_eq_true_eq] at atMost
        omega
      · rw [List.drop_eq_nil_of_le (by omega)] at inside
        cases inside
    unfold leafBlock
    rw [whole, List.flatMap_append, List.flatMap_cons, List.find?_append, List.find?_append,
      find?_eq_none_of_ne earlier, find?_eq_none_of_ne later, Option.none_or, Option.or_none]
    rfl

/-- The search in a stored tree returns the block of the leaf with the key, when the fuel is enough
for every walk down the tree. -/
theorem btreeSearchFrom_shape {block : Nat} {leaves : List Leaf}
    (stored : StoredShape s block leaves) (increasing : Increasing leaves) (key : Nat)
    {steps fuel : Nat} (within : Within (ChildOf s) steps block) (enough : steps < fuel) :
    btreeSearchFrom s key fuel block = some (leafBlock leaves key) := by
  induction stored generalizing steps fuel with
  | @leaf leaf node load holds =>
    obtain ⟨fuel, rfl⟩ := Nat.exists_eq_succ_of_ne_zero (by omega : fuel ≠ 0)
    rw [btreeSearchFrom, btreeNodeRead_of_load load]
    simp only [Option.bind_eq_bind, Option.bind_some, holds.isLeaf, if_true, holds.key,
      holds.blockNumber, leafBlock, List.find?_singleton, beq_iff_eq]
    by_cases same : leaf.key = key
    · rw [if_pos same, if_pos same]
      rfl
    · rw [if_neg same, if_neg same]
      rfl
  | @inner block node children load holds nonzero below ih =>
    obtain ⟨fuel, rfl⟩ := Nat.exists_eq_succ_of_ne_zero (by omega : fuel ≠ 0)
    have bound := (firstIndex_spec (fun i => decide (key ≤ node.keys i)) node.numKeys).1
    have slot := holds.slot_of bound
    rw [leafBlock_child holds increasing, btreeSearchFrom, btreeNodeRead_of_load load]
    simp only [Option.bind_eq_bind, Option.bind_some, holds.isLeaf, Bool.false_eq_true, if_false,
      slot]
    cases atIndex : children[firstIndex (fun i => key ≤ node.keys i) node.numKeys]? with
    | none => rfl
    | some child =>
      have isChild := List.mem_of_getElem? atIndex
      have present := nonzero child isChild
      have step : ChildOf s block child.1 := by
        rw [atIndex] at slot
        exact ⟨node, load, holds.isLeaf, present, _, bound, slot⟩
      show (if child.1 ≠ 0 then btreeSearchFrom s key fuel child.1 else some 0) = _
      rw [if_pos present]
      cases steps with
      | zero => exact absurd step (within child.1)
      | succ steps =>
        obtain ⟨before, after, whole⟩ := List.append_of_mem isChild
        rw [whole, List.flatMap_append, List.flatMap_cons] at increasing
        exact ih child isChild increasing.append.2.1.append.1 (within child.1 step) (by omega)

/-- `btree_search` in a stored tree of any shape with increasing keys returns the block of the leaf
with the key, and 0 if there is none. -/
theorem btreeSearch_shape {block : Nat} {leaves : List Leaf} (stored : StoredShape s block leaves)
    (increasing : Increasing leaves) (key : Nat) :
    btreeSearch s block key = some (leafBlock leaves key) := by
  have inside := stored.inside
  apply btreeSearchFrom_shape stored increasing key stored.within
  unfold Store.walkFuel
  omega

/-- Two leaves. -/
def unevenLeaves : List Leaf := [⟨2, 10, 0, 0⟩, ⟨3, 20, 0, 0⟩]

/-- A root over a leaf and over a node that has the other leaf. -/
def unevenStore : Store :=
  nodeStore 8 [nodeOver 4 0 [(2, some 10), (5, some 20)], Leaf.node ⟨2, 10, 0, 0⟩ 4,
    nodeOver 5 4 [(3, some 20)], Leaf.node ⟨3, 20, 0, 0⟩ 5]

/-- The leaves are at two depths. -/
theorem unevenStore_stored : StoredShape unevenStore 4 unevenLeaves := by
  have first : StoredShape unevenStore 2 [⟨2, 10, 0, 0⟩] :=
    @StoredShape.leaf unevenStore ⟨2, 10, 0, 0⟩ _ (load_eq_some.mpr ⟨by decide, rfl⟩)
      ⟨rfl, rfl, rfl, rfl, rfl, rfl⟩
  have second : StoredShape unevenStore 3 [⟨3, 20, 0, 0⟩] :=
    @StoredShape.leaf unevenStore ⟨3, 20, 0, 0⟩ _ (load_eq_some.mpr ⟨by decide, rfl⟩)
      ⟨rfl, rfl, rfl, rfl, rfl, rfl⟩
  have below : StoredShape unevenStore 5 [⟨3, 20, 0, 0⟩] := by
    apply @StoredShape.inner unevenStore 5 _ [(3, [⟨3, 20, 0, 0⟩])]
      (load_eq_some.mpr ⟨by decide, rfl⟩)
    · exact (nodeOver_inner (by decide) (by simp)).keyed
    · simp
    · simpa using second
  apply @StoredShape.inner unevenStore 4 _ [(2, [⟨2, 10, 0, 0⟩]), (5, [⟨3, 20, 0, 0⟩])]
    (load_eq_some.mpr ⟨by decide, rfl⟩)
  · exact (nodeOver_inner (by decide) (by simp)).keyed
  · simp
  · simpa using ⟨first, below⟩

/-- The second leaf is found under its key. -/
theorem btreeSearch_shape_uneven : btreeSearch unevenStore 4 20 = some 3 :=
  (btreeSearch_shape unevenStore_stored (by simp [Increasing, unevenLeaves]) 20).trans (by decide)

end

end Nbtrfs
