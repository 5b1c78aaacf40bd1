import Nbtrfs.BTree.Model

/-!
# Trees and the search

What the stored nodes mean. A tree of depth 0 is a leaf with its key, value and type; a tree of
a greater depth is a block with the trees below it. `Stores` says that the pages hold a tree:
an internal node with `n` keys has `n` or `n + 1` children in its first slots, and each key is
the largest one below its child. In a stored tree with increasing leaf keys `btree_search`
finds every leaf under its key and nothing under any other key.
-/

namespace Nbtrfs

/-- A leaf entry and its block. -/
structure Leaf where
  /-- The block of the leaf node. -/
  block : Nat
  /-- The key. -/
  key : Nat
  /-- The value. -/
  value : Nat
  /-- The file type. -/
  type : Nat
  deriving DecidableEq

/-- Trees whose leaves are all at one depth. -/
def Tree : Nat → Type
  | 0 => Leaf
  | depth + 1 => Nat × List (Tree depth)

/-- The block of the root of a tree. -/
def Tree.block : {depth : Nat} → Tree depth → Nat
  | 0, leaf => Leaf.block leaf
  | _ + 1, tree => Prod.fst tree

/-- The leaves of a tree from left to right. -/
def Tree.leaves : {depth : Nat} → Tree depth → List Leaf
  | 0, leaf => [leaf]
  | _ + 1, tree => (Prod.snd tree).flatMap Tree.leaves

/-- The blocks of a tree. -/
def Tree.blocks : {depth : Nat} → Tree depth → List Nat
  | 0, leaf => [Leaf.block leaf]
  | _ + 1, tree => Prod.fst tree :: (Prod.snd tree).flatMap Tree.blocks

/-- A root over leaves. -/
def flatTree (block : Nat) (leaves : List Leaf) : Tree 1 := (block, leaves)

/-- The block of a tree of one node. -/
@[simp] theorem flatTree_block (block : Nat) (leaves : List Leaf) :
    (flatTree block leaves).block = block := rfl

/-- The leaves of a tree of depth 1 are its children. -/
@[simp] theorem flatTree_leaves (block : Nat) (leaves : List Leaf) :
    (flatTree block leaves).leaves = leaves := by
  show leaves.flatMap (fun leaf => [leaf]) = leaves
  rw [List.flatMap_singleton']

/-- The blocks of a tree of depth 1. -/
@[simp] theorem flatTree_blocks (block : Nat) (leaves : List Leaf) :
    (flatTree block leaves).blocks = block :: leaves.map Leaf.block := by
  show block :: leaves.flatMap (fun leaf => [leaf.block]) = block :: leaves.map Leaf.block
  rw [List.map_eq_flatMap]

/-- The key of the last leaf. -/
def Tree.maxKey {depth : Nat} (tree : Tree depth) : Option Nat := tree.leaves.getLast?.map Leaf.key

/-- A node that holds a leaf. -/
structure LeafNode (node : BTreeNode) (leaf : Leaf) (parent : Nat) : Prop where
  /-- The node is a leaf. -/
  isLeaf : node.isLeaf = true
  /-- The node names its block. -/
  blockNumber : node.blockNumber = leaf.block
  /-- The key. -/
  key : node.key = leaf.key
  /-- The value. -/
  value : node.value = leaf.value
  /-- The file type. -/
  type : node.type = leaf.type
  /-- The node names its parent. -/
  parent : node.parent = parent

/-- An internal node over children, given by their blocks and their largest keys. -/
structure InnerNode (node : BTreeNode) (block parent : Nat) (children : List (Nat × Option Nat)) :
    Prop where
  /-- The node is not a leaf. -/
  isLeaf : node.isLeaf = false
  /-- The node names its block. -/
  blockNumber : node.blockNumber = block
  /-- The node names its parent. -/
  parent : node.parent = parent
  /-- The keys fit the array. -/
  fits : node.numKeys ≤ maxKeys
  /-- There is a child for every key. -/
  enough : node.numKeys ≤ children.length
  /-- There is at most one child more than keys. -/
  extra : children.length ≤ node.numKeys + 1
  /-- Each key is the largest one below its child. -/
  keys : ∀ i < node.numKeys, (children[i]?.bind Prod.snd) = some (node.keys i)
  /-- The children are in the first slots and the other slots are 0. -/
  slots : ∀ i ≤ maxKeys, node.children i = (children[i]?.elim 0 Prod.fst)

/-- The pages hold a tree under a parent. -/
def Stores (s : Store) : {depth : Nat} → (parent : Nat) → Tree depth → Prop
  | 0, parent, leaf => ∃ node, btreeNodeLoad s (Leaf.block leaf) = some node ∧
      LeafNode node leaf parent
  | _ + 1, parent, tree =>
    (∃ node, btreeNodeLoad s (Prod.fst tree) = some node ∧
      InnerNode node (Prod.fst tree) parent
        ((Prod.snd tree).map fun child => (child.block, child.maxKey))) ∧
    ∀ child ∈ Prod.snd tree, Tree.block child ≠ 0 ∧ Stores s (Prod.fst tree) child

/-- Strictly increasing keys. -/
def Increasing (leaves : List Leaf) : Prop := (leaves.map Leaf.key).Pairwise (· < ·)

/-- The first accepted index accepts, and the earlier ones do not. -/
theorem firstIndex_spec (accept : Nat → Bool) (bound : Nat) :
    firstIndex accept bound ≤ bound ∧ (∀ i < firstIndex accept bound, accept i = false) ∧
      (firstIndex accept bound < bound → accept (firstIndex accept bound) = true) := by
  unfold firstIndex
  cases found : (List.range bound).find? accept with
  | none =>
    have rejected := List.find?_eq_none.mp found
    refine ⟨Nat.le_refl _, ?_, fun below => absurd below (Nat.lt_irrefl _)⟩
    intro i below
    exact Bool.eq_false_iff.mpr (rejected i (List.mem_range.mpr below))
  | some index =>
    obtain ⟨accepted, inside, earlier⟩ := List.find?_range_eq_some.mp found
    refine ⟨?_, ?_, fun _ => accepted⟩
    · exact Nat.le_of_lt (List.mem_range.mp inside)
    · intro i below
      have rejected := earlier i below
      simpa using rejected

/-- An index that is the first accepted one, or the bound after rejected ones. -/
theorem firstIndex_eq {accept : Nat → Bool} {bound index : Nat} (atMost : index ≤ bound)
    (earlier : ∀ i < index, accept i = false) (accepted : index < bound → accept index = true) :
    firstIndex accept bound = index := by
  obtain ⟨inside, before, here⟩ := firstIndex_spec accept bound
  rcases Nat.lt_trichotomy (firstIndex accept bound) index with less | same | more
  · have rejected := earlier _ less
    rw [here (by omega)] at rejected
    cases rejected
  · exact same
  · have rejected := before index more
    rw [accepted (by omega)] at rejected
    cases rejected

section Search

variable {s : Store}

/-- The block of a stored tree holds a node. -/
theorem Stores.load {depth : Nat} {parent : Nat} {tree : Tree depth}
    (stores : Stores s parent tree) : ∃ node, btreeNodeLoad s tree.block = some node := by
  cases depth with
  | zero =>
    obtain ⟨node, load, -⟩ := stores
    exact ⟨node, load⟩
  | succ depth =>
    obtain ⟨⟨node, load, -⟩, -⟩ := stores
    exact ⟨node, load⟩

/-- A tree whose blocks load the same is stored again. -/
theorem Stores.congr {s' : Store} {depth parent : Nat} {tree : Tree depth}
    (stores : Stores s parent tree)
    (same : ∀ block ∈ tree.blocks, btreeNodeLoad s' block = btreeNodeLoad s block) :
    Stores s' parent tree := by
  induction depth generalizing parent with
  | zero =>
    obtain ⟨node, load, holds⟩ := stores
    exact ⟨node, (same _ (List.mem_singleton.mpr rfl)).trans load, holds⟩
  | succ depth ih =>
    obtain ⟨block, children⟩ := tree
    obtain ⟨⟨node, load, holds⟩, below⟩ := stores
    refine ⟨⟨node, (same block List.mem_cons_self).trans load, holds⟩, fun child isChild => ?_⟩
    refine ⟨(below child isChild).1, ih (below child isChild).2 fun other inside => ?_⟩
    exact same other (List.mem_cons_of_mem _ (List.mem_flatMap.mpr ⟨child, isChild, inside⟩))

/-- A loaded node was read. -/
theorem btreeNodeRead_of_load {block : Nat} {node : BTreeNode}
    (load : btreeNodeLoad s block = some node) : btreeNodeRead s block = some (some node) := by
  unfold btreeNodeLoad at load
  cases read : btreeNodeRead s block with
  | none =>
    rw [read] at load
    cases load
  | some inner =>
    rw [read] at load
    exact congrArg some load

/-- Each leaf of an earlier child has a smaller key than each leaf of a later child. -/
theorem increasing_children {depth : Nat} {children : List (Tree depth)}
    (increasing : Increasing (children.flatMap Tree.leaves)) {i j : Nat} {first second : Tree depth}
    (atFirst : children[i]? = some first) (atSecond : children[j]? = some second) (before : i < j)
    {left right : Leaf} (inFirst : left ∈ first.leaves) (inSecond : right ∈ second.leaves) :
    left.key < right.key := by
  induction children generalizing i j with
  | nil => cases atFirst
  | cons child rest ih =>
    rw [List.flatMap_cons] at increasing
    unfold Increasing at increasing ih
    rw [List.map_append, List.pairwise_append] at increasing
    obtain ⟨_, later, across⟩ := increasing
    obtain ⟨j, rfl⟩ := Nat.exists_eq_succ_of_ne_zero (by omega : j ≠ 0)
    rw [List.getElem?_cons_succ] at atSecond
    cases i with
    | zero =>
      obtain rfl : child = first := Option.some.inj atFirst
      have inRest : right ∈ rest.flatMap Tree.leaves :=
        List.mem_flatMap.mpr ⟨second, List.mem_of_getElem? atSecond, inSecond⟩
      exact across _ (List.mem_map_of_mem inFirst) _ (List.mem_map_of_mem inRest)
    | succ i =>
      rw [List.getElem?_cons_succ] at atFirst
      exact ih later atFirst atSecond (by omega)

/-- The leaves of one child of an increasing tree are increasing. -/
theorem increasing_child {depth : Nat} {children : List (Tree depth)}
    (increasing : Increasing (children.flatMap Tree.leaves)) {child : Tree depth}
    (inside : child ∈ children) : Increasing child.leaves := by
  obtain ⟨before, after, rfl⟩ := List.append_of_mem inside
  unfold Increasing at increasing ⊢
  rw [List.flatMap_append, List.flatMap_cons, List.map_append, List.map_append,
    List.pairwise_append, List.pairwise_append] at increasing
  exact increasing.2.1.1

/-- No leaf has a greater key than the last one. -/
theorem le_maxKey {depth : Nat} {tree : Tree depth} (increasing : Increasing tree.leaves)
    {leaf : Leaf} (inside : leaf ∈ tree.leaves) {bound : Nat} (largest : tree.maxKey = some bound) :
    leaf.key ≤ bound := by
  unfold Tree.maxKey at largest
  obtain ⟨last, isLast, rfl⟩ := Option.map_eq_some_iff.mp largest
  obtain ⟨front, whole⟩ := List.getLast?_eq_some_iff.mp isLast
  rw [whole] at inside increasing
  unfold Increasing at increasing
  rw [List.map_append, List.pairwise_append] at increasing
  rcases List.mem_append.mp inside with earlier | final
  · exact Nat.le_of_lt (increasing.2.2 _ (List.mem_map_of_mem earlier) _ (by simp))
  · rw [List.mem_singleton.mp final]

/-- The search finds every leaf of a stored tree, at any depth below the fuel. -/
theorem btreeSearchFrom_leaf {depth : Nat} (tree : Tree depth) (parent fuel : Nat)
    (stores : Stores s parent tree) (increasing : Increasing tree.leaves) (enough : depth < fuel)
    {leaf : Leaf} (inside : leaf ∈ tree.leaves) :
    btreeSearchFrom s leaf.key fuel tree.block = some leaf.block := by
  induction depth generalizing parent fuel with
  | zero =>
    obtain ⟨fuel, rfl⟩ := Nat.exists_eq_succ_of_ne_zero (by omega : fuel ≠ 0)
    obtain ⟨node, load, holds⟩ := stores
    obtain rfl : leaf = tree := List.mem_singleton.mp inside
    have read := btreeNodeRead_of_load load
    simp [btreeSearchFrom, Tree.block, read, holds.isLeaf, holds.key, holds.blockNumber]
  | succ depth ih =>
    obtain ⟨fuel, rfl⟩ := Nat.exists_eq_succ_of_ne_zero (by omega : fuel ≠ 0)
    obtain ⟨block, children⟩ := tree
    obtain ⟨⟨node, load, holds⟩, below⟩ := stores
    obtain ⟨child, isChild, inChild⟩ := List.mem_flatMap.mp inside
    obtain ⟨place, bound, atPlace⟩ := List.mem_iff_getElem.mp isChild
    have atPlace? : children[place]? = some child := by
      rw [List.getElem?_eq_getElem bound, atPlace]
    have inChildren : place < children.length := bound
    have placeBound : place ≤ node.numKeys := by
      have extra := holds.extra
      rw [List.length_map] at extra
      dsimp only at extra
      omega
    have keyAt : ∀ i < node.numKeys, ∀ other, children[i]? = some other →
        other.maxKey = some (node.keys i) := by
      intro i small other atOther
      have key := holds.keys i small
      rw [List.getElem?_map, atOther] at key
      exact key
    have index : firstIndex (fun i => leaf.key ≤ node.keys i) node.numKeys = place := by
      apply firstIndex_eq placeBound
      · intro i before
        have small : i < node.numKeys := by omega
        obtain ⟨other, atOther⟩ : ∃ other, children[i]? = some other :=
          ⟨_, List.getElem?_eq_getElem (by omega)⟩
        have largest := keyAt i small other atOther
        unfold Tree.maxKey at largest
        obtain ⟨last, isLast, same⟩ := Option.map_eq_some_iff.mp largest
        have less := increasing_children increasing atOther atPlace? before
          (List.mem_of_getLast? isLast) inChild
        rw [same] at less
        exact decide_eq_false (by omega)
      · intro small
        have largest := keyAt place small child atPlace?
        exact decide_eq_true
          (le_maxKey (increasing_child increasing isChild) inChild largest)
    have slot : node.children place = child.block := by
      have fits := holds.fits
      rw [holds.slots place (by omega), List.getElem?_map, atPlace?]
      rfl
    have read := btreeNodeRead_of_load load
    have found := ih child block fuel (below child isChild).2
      (increasing_child increasing isChild) (by omega) inChild
    have nonzero := (below child isChild).1
    show btreeSearchFrom s leaf.key (fuel + 1) block = some leaf.block
    rw [btreeSearchFrom]
    simp only [read, Option.bind_eq_bind, Option.bind_some, holds.isLeaf,
      Bool.false_eq_true, if_false, index, slot]
    rw [if_pos nonzero]
    exact found

/-- The search finds nothing under a key that no leaf has. -/
theorem btreeSearchFrom_absent {depth : Nat} (tree : Tree depth) (parent fuel key : Nat)
    (stores : Stores s parent tree) (enough : depth < fuel)
    (absent : ∀ leaf ∈ tree.leaves, leaf.key ≠ key) :
    btreeSearchFrom s key fuel tree.block = some 0 := by
  induction depth generalizing parent fuel with
  | zero =>
    obtain ⟨fuel, rfl⟩ := Nat.exists_eq_succ_of_ne_zero (by omega : fuel ≠ 0)
    obtain ⟨node, load, holds⟩ := stores
    have read := btreeNodeRead_of_load load
    have other : Leaf.key tree ≠ key := absent tree (List.mem_singleton.mpr rfl)
    simp [btreeSearchFrom, Tree.block, read, holds.isLeaf, holds.key, other]
  | succ depth ih =>
    obtain ⟨fuel, rfl⟩ := Nat.exists_eq_succ_of_ne_zero (by omega : fuel ≠ 0)
    obtain ⟨block, children⟩ := tree
    obtain ⟨⟨node, load, holds⟩, below⟩ := stores
    have read := btreeNodeRead_of_load load
    have bound := (firstIndex_spec (fun i => key ≤ node.keys i) node.numKeys).1
    have fits := holds.fits
    have slot := holds.slots (firstIndex (fun i => key ≤ node.keys i) node.numKeys) (by omega)
    rw [List.getElem?_map] at slot
    show btreeSearchFrom s key (fuel + 1) block = some 0
    rw [btreeSearchFrom]
    simp only [read, Option.bind_eq_bind, Option.bind_some, holds.isLeaf,
      Bool.false_eq_true, if_false]
    cases atIndex : children[firstIndex (fun i => key ≤ node.keys i) node.numKeys]? with
    | none =>
      rw [atIndex] at slot
      rw [slot]
      rfl
    | some child =>
      rw [atIndex] at slot
      have isChild := List.mem_of_getElem? atIndex
      have nonzero := (below child isChild).1
      have found := ih child block fuel (below child isChild).2 (by omega)
        (fun leaf inside => absent leaf (List.mem_flatMap.mpr ⟨child, isChild, inside⟩))
      rw [slot]
      show (if child.block ≠ 0 then btreeSearchFrom s key fuel child.block else some 0) = some 0
      rw [if_pos nonzero]
      exact found

end Search

end Nbtrfs
