import Nbtrfs.BTree.Paths

/-!
# The way to the place of a key

In a stored tree of any depth `btree_find_maximum` returns the largest key and `btree_find_depth` the
depth, if every internal node below the root has a leaf. `btree_insertion_search` then takes the same
way down as `btree_search`.
-/

namespace Nbtrfs

open Descent

/-- Every node below the root has a leaf below it. -/
def Tree.Filled : {depth : Nat} → Tree depth → Prop
  | 0, _ => True
  | _ + 1, tree => ∀ child ∈ Prod.snd tree, Tree.leaves child ≠ [] ∧ Tree.Filled child

/-- The nodes over leaves, from left to right. -/
def Tree.bottoms : {depth : Nat} → Tree (depth + 1) → List (Tree 1)
  | 0, tree => [tree]
  | _ + 1, tree => (Prod.snd tree).flatMap Tree.bottoms

/-- The leaves of a tree are those of the nodes over leaves. -/
theorem Tree.leaves_bottoms {depth : Nat} (tree : Tree (depth + 1)) :
    tree.bottoms.flatMap Tree.leaves = tree.leaves := by
  induction depth with
  | zero =>
    show [tree].flatMap Tree.leaves = tree.leaves
    rw [List.flatMap_singleton]
  | succ depth ih =>
    show ((Prod.snd tree).flatMap Tree.bottoms).flatMap Tree.leaves =
      (Prod.snd tree).flatMap Tree.leaves
    rw [List.flatMap_assoc]
    apply List.flatMap_congr
    intro child _
    exact ih child

/-- A tree that fits its nodes has no empty node. -/
theorem Tree.Fits.filled {depth : Nat} {tree : Tree depth} (fits : tree.Fits) : tree.Filled := by
  induction depth with
  | zero => trivial
  | succ depth ih =>
    intro child isChild
    obtain ⟨-, some_leaf, below⟩ := fits.2 child isChild
    exact ⟨some_leaf, ih below⟩

/-- The largest key of a tree with leaves. -/
theorem Tree.maxKey_eq {depth : Nat} {tree : Tree depth} (some_leaf : tree.leaves ≠ []) :
    tree.maxKey = some (lastKey tree.leaves) := lastKey_eq some_leaf

section

variable {s : Store} {depth parent key : Nat}

/-- A tree with a leaf has a walk of its depth. -/
theorem Stores.depth_le {steps : Nat} {tree : Tree depth} (stores : Stores s parent tree)
    (some_leaf : tree.leaves ≠ []) (within : Within (ChildOf s) steps tree.block) : depth ≤ steps := by
  induction depth generalizing parent steps with
  | zero => exact Nat.zero_le _
  | succ depth ih =>
    obtain ⟨block, children⟩ := tree
    obtain ⟨node, stored⟩ := stores_over.mp stores
    obtain ⟨leaf, inside⟩ := List.exists_mem_of_ne_nil _ some_leaf
    obtain ⟨child, isChild, inChild⟩ := List.mem_flatMap.mp inside
    obtain ⟨i, atIndex⟩ := List.mem_iff_getElem?.mp isChild
    obtain ⟨slot, present⟩ := stored.slotAt atIndex
    obtain ⟨-, extra, -⟩ := stored.counts
    have bound : i < children.length := (List.getElem?_eq_some_iff.mp atIndex).1
    have step : ChildOf s block child.block :=
      ⟨node, stored.load, stored.holds.isLeaf, present, i, by omega, slot⟩
    cases steps with
    | zero => exact absurd step (within child.block)
    | succ steps =>
      have deeper := ih (stored.below child isChild).2 (List.ne_nil_of_mem inChild)
        (within child.block step)
      omega

/-- A stored tree with a leaf is less deep than the image has blocks. -/
theorem Stores.depth_lt_total {tree : Tree depth} (stores : Stores s parent tree)
    (some_leaf : tree.leaves ≠ []) : depth < s.walkFuel := by
  have bound := stores.depth_le some_leaf stores.shape.within
  have inside := stores.shape.inside
  unfold Store.walkFuel
  omega

/-- The last leaf of a tree is below its last child. -/
theorem lastKey_children {children : List (Tree depth)} {last : Tree depth}
    (isLast : children.getLast? = some last) (some_leaf : last.leaves ≠ []) :
    lastKey (children.flatMap Tree.leaves) = lastKey last.leaves := by
  obtain ⟨front, rfl⟩ := List.getLast?_eq_some_iff.mp isLast
  rw [List.flatMap_append, List.flatMap_singleton, lastKey_append _ some_leaf]

/-- Without empty nodes the last children lead to the largest key. -/
theorem Tree.peak_eq {tree : Tree depth} (filled : tree.Filled) (some_leaf : tree.leaves ≠ []) :
    tree.peak = lastKey tree.leaves := by
  induction depth with
  | zero => rfl
  | succ depth ih =>
    obtain ⟨block, children⟩ := tree
    have nonempty : children ≠ [] := by
      rintro rfl
      exact some_leaf rfl
    obtain ⟨last, isLast⟩ : ∃ last, children.getLast? = some last :=
      ⟨_, List.getLast?_eq_some_getLast nonempty⟩
    obtain ⟨lastLeaf, lastFilled⟩ := filled last (List.mem_of_getLast? isLast)
    have largest : lastKey (overTree block children).leaves = lastKey last.leaves :=
      lastKey_children isLast lastLeaf
    show children.getLast?.elim 0 Tree.peak = lastKey (overTree block children).leaves
    rw [largest, isLast, ← ih lastFilled lastLeaf]
    rfl

/-- `btree_find_maximum` of a stored tree is its largest key. -/
theorem btreeFindMaximum_tree {tree : Tree depth} (stores : Stores s parent tree)
    (filled : tree.Filled) (some_leaf : tree.leaves ≠ []) :
    btreeFindMaximum s tree.block = some (lastKey tree.leaves) := by
  rw [btreeFindMaximum_peak stores, Tree.peak_eq filled some_leaf]

/-- The leftmost path of a stored tree has its depth. -/
theorem btreeFindDepthFrom_tree {fuel : Nat} {tree : Tree depth} (stores : Stores s parent tree)
    (filled : tree.Filled) (some_leaf : tree.leaves ≠ []) (enough : depth < fuel) {node : BTreeNode}
    (load : btreeNodeLoad s tree.block = some node) :
    btreeFindDepthFrom s fuel node = some depth := by
  induction depth generalizing parent fuel node with
  | zero =>
    obtain ⟨fuel, rfl⟩ := Nat.exists_eq_succ_of_ne_zero (by omega : fuel ≠ 0)
    obtain ⟨leafNode, loadLeaf, holds⟩ := stores
    obtain rfl := Option.some.inj (load.symm.trans loadLeaf)
    rw [btreeFindDepthFrom, holds.isLeaf, if_pos rfl]
  | succ depth ih =>
    obtain ⟨fuel, rfl⟩ := Nat.exists_eq_succ_of_ne_zero (by omega : fuel ≠ 0)
    obtain ⟨block, children⟩ := tree
    obtain ⟨inner, stored⟩ := stores_over.mp stores
    obtain rfl := Option.some.inj (load.symm.trans stored.load)
    obtain ⟨first, rest, rfl⟩ := List.exists_cons_of_ne_nil (show children ≠ [] by
      rintro rfl
      exact some_leaf rfl)
    have isChild : first ∈ first :: rest := List.mem_cons_self
    obtain ⟨slot, present⟩ := stored.slotAt (show (first :: rest)[0]? = some first from rfl)
    obtain ⟨firstLeaf, firstFilled⟩ := filled first isChild
    obtain ⟨next, loadNext⟩ := (stored.below first isChild).2.load
    have deeper := ih (stored.below first isChild).2 firstFilled firstLeaf (by omega : depth < fuel)
      loadNext
    have reload : btreeNodeReload s first.block node = some next := by
      unfold btreeNodeReload
      rw [btreeNodeRead_of_load loadNext]
      rfl
    rw [btreeFindDepthFrom, stored.holds.isLeaf, if_neg Bool.false_ne_true, slot, if_pos present,
      reload, Option.bind_eq_bind, Option.bind_some, deeper]
    rfl

/-- `btree_find_depth` of a stored tree. -/
theorem btreeFindDepth_tree {tree : Tree depth} (stores : Stores s parent tree)
    (filled : tree.Filled) (some_leaf : tree.leaves ≠ []) :
    btreeFindDepth s tree.block = some depth := by
  obtain ⟨node, load⟩ := stores.load
  unfold btreeFindDepth
  rw [load]
  exact btreeFindDepthFrom_tree stores filled some_leaf (stores.depth_lt_total some_leaf) load

/-- The child loop stops at the first child whose maximum bounds the key. -/
theorem insertionIndex_spec {node : BTreeNode}
    (maxima : ∀ i < node.numKeys, node.children i ≠ 0 ∧
      btreeFindMaximum s (node.children i) = some (node.keys i))
    (left i : Nat) (whole : i + left = node.numKeys) (smaller : ∀ j < i, node.keys j < key) :
    insertionIndex s node key left i i =
      some (firstIndex (fun j => key ≤ node.keys j) node.numKeys) := by
  induction left generalizing i with
  | zero =>
    rw [insertionIndex]
    congr 1
    apply Eq.symm
    apply firstIndex_eq (by omega)
    · intro j before
      have less := smaller j before
      exact decide_eq_false (by omega)
    · intro below
      omega
  | succ left ih =>
    obtain ⟨present, maximum⟩ := maxima i (by omega)
    rw [insertionIndex, if_pos present, maximum, Option.bind_eq_bind, Option.bind_some]
    by_cases bounded : key ≤ node.keys i
    · rw [if_pos bounded]
      congr 1
      apply Eq.symm
      apply firstIndex_eq (by omega)
      · intro j before
        have less := smaller j before
        exact decide_eq_false (by omega)
      · intro _
        exact decide_eq_true bounded
    · rw [if_neg bounded]
      apply ih (i + 1) (by omega)
      intro j before
      rcases Nat.lt_succ_iff_lt_or_eq.mp before with earlier | here
      · exact smaller j earlier
      · rw [here]
        omega

/-- The key of a child is the largest one below it. -/
theorem Over.lastKeyAt {block : Nat} {node : BTreeNode} {children : List (Tree depth)}
    (stored : Over s block parent node children)
    (filled : ∀ child ∈ children, child.leaves ≠ [] ∧ child.Filled) {i : Nat} (small : i < node.numKeys)
    {child : Tree depth} (atIndex : children[i]? = some child) :
    node.keys i = lastKey child.leaves := by
  have largest := stored.keyAt small atIndex
  rw [Tree.maxKey_eq (filled child (List.mem_of_getElem? atIndex)).1] at largest
  exact (Option.some.inj largest).symm

/-- The keys of a node are the maxima of its children. -/
theorem Over.maxima {block : Nat} {node : BTreeNode} {children : List (Tree depth)}
    (stored : Over s block parent node children)
    (filled : ∀ child ∈ children, child.leaves ≠ [] ∧ child.Filled) :
    ∀ i < node.numKeys, node.children i ≠ 0 ∧
      btreeFindMaximum s (node.children i) = some (node.keys i) := by
  intro i small
  obtain ⟨enough, -, -⟩ := stored.counts
  obtain ⟨child, atIndex⟩ : ∃ child, children[i]? = some child :=
    ⟨_, List.getElem?_eq_getElem (by omega)⟩
  have isChild := List.mem_of_getElem? atIndex
  obtain ⟨slot, present⟩ := stored.slotAt atIndex
  rw [slot, stored.lastKeyAt filled small atIndex]
  exact ⟨present, btreeFindMaximum_tree (stored.below child isChild).2 (filled child isChild).2
    (filled child isChild).1⟩

/-- The child that the descent goes on with: the first one whose largest key bounds the key, or the
last one. -/
theorem Over.choose {block : Nat} {node : BTreeNode} {children : List (Tree depth)}
    (stored : Over s block parent node children)
    (filled : ∀ child ∈ children, child.leaves ≠ [] ∧ child.Filled) (nonempty : children ≠ [])
    (key : Nat) :
    ∃ before child after, children = before ++ child :: after ∧
      (∀ other ∈ before, lastKey other.leaves < key) ∧
      (key ≤ lastKey child.leaves ∨ after = []) ∧
      ∀ left, insertionDescend s key (left + 1) node =
        (btreeNodeReload s child.block node).bind (insertionDescend s key left) := by
  obtain ⟨enough, extra, fits⟩ := stored.counts
  have keyAt : ∀ i < node.numKeys, ∀ child, children[i]? = some child →
      node.keys i = lastKey child.leaves :=
    fun i small child atIndex => stored.lastKeyAt filled small atIndex
  have maxima := stored.maxima filled
  have index : insertionIndex s node key node.numKeys 0 0 = some _ :=
    insertionIndex_spec maxima node.numKeys 0 (by omega)
      (fun j before => absurd before (Nat.not_lt_zero j))
  obtain ⟨atMost, rejected, accepted⟩ := firstIndex_spec (fun j => decide (key ≤ node.keys j)) node.numKeys
  generalize firstIndex (fun j => decide (key ≤ node.keys j)) node.numKeys = place at *
  have smaller : ∀ i < place, ∀ child, children[i]? = some child → lastKey child.leaves < key := by
    intro i before child atIndex
    have rejectedHere := rejected i before
    rw [decide_eq_false_iff_not] at rejectedHere
    rw [← keyAt i (by omega) child atIndex]
    omega
  have descend : ∀ left child, (if node.children place ≠ 0 then some (node.children place)
      else node.lastChild) = some child → insertionDescend s key (left + 1) node =
        (btreeNodeReload s child node).bind (insertionDescend s key left) := by
    intro left child chosen
    rw [insertionDescend, index, Option.bind_eq_bind, Option.bind_some, Nat.min_eq_left atMost]
    dsimp only
    rw [chosen]
    rfl
  by_cases inside : place < children.length
  · have atPlace : children[place]? = some children[place] := List.getElem?_eq_getElem inside
    obtain ⟨slot, present⟩ := stored.slotAt atPlace
    refine ⟨children.take place, children[place], children.drop (place + 1), ?_, ?_, ?_, ?_⟩
    · rw [← List.drop_eq_getElem_cons inside, List.take_append_drop]
    · intro other isBefore
      obtain ⟨i, atIndex⟩ := List.mem_iff_getElem?.mp isBefore
      rw [List.getElem?_take] at atIndex
      split at atIndex
      · exact smaller i (by assumption) other atIndex
      · cases atIndex
    · by_cases keyed : place < node.numKeys
      · left
        have bounded := accepted keyed
        rw [decide_eq_true_eq, keyAt place keyed _ atPlace] at bounded
        exact bounded
      · right
        rw [List.drop_eq_nil_of_le (by omega)]
    · intro left
      apply descend
      rw [slot, if_pos present]
  · obtain ⟨last, isLast⟩ : ∃ last, children.getLast? = some last :=
      ⟨_, List.getLast?_eq_some_getLast nonempty⟩
    obtain ⟨front, whole⟩ := List.getLast?_eq_some_iff.mp isLast
    refine ⟨front, last, [], whole, ?_, Or.inr rfl, ?_⟩
    · intro other isBefore
      obtain ⟨i, atIndex⟩ := List.mem_iff_getElem?.mp isBefore
      have bound := (List.getElem?_eq_some_iff.mp atIndex).1
      apply smaller i
      · rw [whole, List.length_append, List.length_singleton] at inside
        omega
      · rw [whole, List.getElem?_append_left bound]
        exact atIndex
    · intro left
      apply descend
      have empty : node.children place = 0 := by
        rw [stored.slot (by omega), List.getElem?_eq_none (by omega)]
        rfl
      rw [empty, stored.lastChild, isLast]
      rfl

/-- A node over leaves is where a key belongs: the leaves before it have smaller keys, and it has a
key that bounds the key or is the last one. -/
structure Belongs {depth : Nat} (tree : Tree (depth + 1)) (key : Nat) (bottom : Tree 1) : Prop where
  /-- Its place among the nodes over leaves. -/
  place : ∃ before after, tree.bottoms = before ++ bottom :: after ∧
    (∀ other ∈ before, ∀ leaf ∈ other.leaves, leaf.key < key) ∧
    (key ≤ lastKey bottom.leaves ∨ after = [])

/-- A key belongs below the child that the descent goes on with. -/
theorem Belongs.ofChild {block : Nat} {before after : List (Tree (depth + 1))} {child : Tree (depth + 1)}
    {bottom : Tree 1} (belongs : Belongs child key bottom) (some_leaf : bottom.leaves ≠ [])
    (increasing : Increasing ((before ++ child :: after).flatMap Tree.leaves))
    (smaller : ∀ other ∈ before, lastKey other.leaves < key)
    (bounded : key ≤ lastKey child.leaves ∨ after = []) :
    Belongs (overTree block (before ++ child :: after)) key bottom := by
  obtain ⟨first, last, whole, less, atMost⟩ := belongs.place
  refine ⟨before.flatMap Tree.bottoms ++ first, last ++ after.flatMap Tree.bottoms, ?_, ?_, ?_⟩
  · show (before ++ child :: after).flatMap Tree.bottoms = _
    rw [List.flatMap_append, List.flatMap_cons, whole]
    simp
  · intro other inside leaf inLeaves
    rcases List.mem_append.mp inside with earlier | here
    · obtain ⟨tree, isBefore, inTree⟩ := List.mem_flatMap.mp earlier
      have inLeaves' : leaf ∈ tree.leaves := by
        rw [← tree.leaves_bottoms]
        exact List.mem_flatMap.mpr ⟨other, inTree, inLeaves⟩
      have increasing' := increasing_child increasing (List.mem_append_left _ isBefore)
      exact Nat.lt_of_le_of_lt (le_lastKey increasing' inLeaves') (smaller tree isBefore)
    · exact less other here leaf inLeaves
  · rcases atMost with here | noneAfter
    · exact Or.inl here
    · have same : lastKey child.leaves = lastKey bottom.leaves := by
        rw [← child.leaves_bottoms, whole, noneAfter]
        exact lastKey_children (by simp) some_leaf
      rcases bounded with below | noneBehind
      · left
        rw [← same]
        exact below
      · right
        rw [noneAfter, noneBehind]
        rfl

/-- The descent ends at the node over leaves where the key belongs. -/
theorem insertionDescend_bottom {tree : Tree (depth + 1)} (stores : Stores s parent tree)
    (filled : tree.Filled) (some_leaf : tree.leaves ≠ []) (increasing : Increasing tree.leaves)
    {node : BTreeNode} (load : btreeNodeLoad s tree.block = some node) (key : Nat) :
    ∃ bottom bottomNode, Belongs tree key bottom ∧ bottom.leaves ≠ [] ∧
      insertionDescend s key depth node = some bottomNode ∧
      btreeNodeLoad s bottom.block = some bottomNode ∧ bottomNode.blockNumber = bottom.block := by
  induction depth generalizing parent node with
  | zero =>
    obtain ⟨block, leaves⟩ := tree
    obtain ⟨inner, stored⟩ := stores_over.mp stores
    obtain rfl := Option.some.inj (load.symm.trans stored.load)
    refine ⟨(block, leaves), node, ⟨[], [], rfl, ?_, Or.inr rfl⟩, some_leaf, rfl, load,
      stored.holds.blockNumber⟩
    intro other none
    cases none
  | succ depth ih =>
    obtain ⟨block, children⟩ := tree
    obtain ⟨inner, stored⟩ := stores_over.mp stores
    obtain rfl := Option.some.inj (load.symm.trans stored.load)
    have nonempty : children ≠ [] := by
      rintro rfl
      exact some_leaf rfl
    obtain ⟨before, child, after, rfl, smaller, bounded, descend⟩ :=
      stored.choose filled nonempty key
    have isChild : child ∈ before ++ child :: after := by simp
    obtain ⟨childLeaf, childFilled⟩ := filled child isChild
    obtain ⟨next, loadNext⟩ := (stored.below child isChild).2.load
    obtain ⟨bottom, bottomNode, belongs, bottomLeaf, run, loadBottom, number⟩ :=
      ih (stored.below child isChild).2 childFilled childLeaf (increasing_child increasing isChild)
        loadNext
    refine ⟨bottom, bottomNode, belongs.ofChild bottomLeaf increasing smaller bounded, bottomLeaf, ?_,
      loadBottom, number⟩
    have reload : btreeNodeReload s child.block node = some next := by
      unfold btreeNodeReload
      rw [btreeNodeRead_of_load loadNext]
      rfl
    rw [descend depth, reload]
    exact run

/-- `btree_insertion_search` ends at the node over leaves where the key belongs. -/
theorem btreeInsertionSearch_belongs {tree : Tree (depth + 1)} (stores : Stores s parent tree)
    (filled : tree.Filled) (some_leaf : tree.leaves ≠ []) (increasing : Increasing tree.leaves)
    (key : Nat) :
    ∃ bottom, Belongs tree key bottom ∧ bottom.leaves ≠ [] ∧
      btreeInsertionSearch s tree.block key = some bottom.block := by
  obtain ⟨node, load⟩ := stores.load
  obtain ⟨bottom, bottomNode, belongs, bottomLeaf, run, loadBottom, number⟩ :=
    insertionDescend_bottom stores filled some_leaf increasing load key
  refine ⟨bottom, belongs, bottomLeaf, ?_⟩
  have levels := btreeFindDepth_tree stores filled some_leaf
  have present : node.children 0 ≠ 0 := by
    obtain ⟨block, children⟩ := tree
    obtain ⟨inner, stored⟩ := stores_over.mp stores
    obtain rfl := Option.some.inj (load.symm.trans stored.load)
    obtain ⟨first, rest, rfl⟩ := List.exists_cons_of_ne_nil (show children ≠ [] by
      rintro rfl
      exact some_leaf rfl)
    obtain ⟨slot, present⟩ := stored.slotAt (show (first :: rest)[0]? = some first from rfl)
    rw [slot]
    exact present
  unfold btreeInsertionSearch
  rw [load, Option.bind_eq_bind, Option.bind_some, if_neg present, levels, Option.bind_eq_bind,
    Option.bind_some]
  cases depth with
  | zero =>
    rw [if_pos (Nat.le_refl _)]
    have same : node = bottomNode := Option.some.inj run
    rw [same, number]
  | succ depth =>
    rw [if_neg (by omega), Nat.add_sub_cancel, run, Option.bind_some, number]

/-- A leaf with the key is a leaf of the node where the key belongs. -/
theorem Belongs.leaf {tree : Tree (depth + 1)} {bottom : Tree 1} (belongs : Belongs tree key bottom)
    (increasing : Increasing tree.leaves) (some_leaf : bottom.leaves ≠ []) {leaf : Leaf}
    (inside : leaf ∈ tree.leaves) (same : leaf.key = key) : leaf ∈ bottom.leaves := by
  obtain ⟨before, after, whole, less, atMost⟩ := belongs.place
  rw [← tree.leaves_bottoms, whole, List.flatMap_append, List.flatMap_cons] at inside increasing
  rcases List.mem_append.mp inside with earlier | further
  · obtain ⟨other, isBefore, inOther⟩ := List.mem_flatMap.mp earlier
    have small := less other isBefore leaf inOther
    omega
  · rcases List.mem_append.mp further with here | later
    · exact here
    · rcases atMost with bounded | none
      · obtain ⟨last, isLast, lastIs⟩ := Option.map_eq_some_iff.mp (lastKey_eq some_leaf)
        have greater := increasing.append.2.1.append.2.2 last (List.mem_of_getLast? isLast) leaf later
        omega
      · rw [none] at later
        cases later

/-- A key belongs to one node over leaves. -/
theorem Belongs.unique {tree : Tree (depth + 1)} {first second : Tree 1} (here : Belongs tree key first)
    (there : Belongs tree key second) (first_leaf : first.leaves ≠ []) (second_leaf : second.leaves ≠ []) :
    first = second := by
  obtain ⟨before, after, whole, less, atMost⟩ := here.place
  obtain ⟨before', after', whole', less', atMost'⟩ := there.place
  have bounded : ∀ {bottom : Tree 1}, bottom.leaves ≠ [] → (∀ leaf ∈ bottom.leaves, leaf.key < key) →
      ¬ key ≤ lastKey bottom.leaves := by
    intro bottom some_leaf smaller bound
    have last := lastKey_lt some_leaf smaller
    omega
  rw [whole] at whole'
  rcases List.append_eq_append_iff.mp whole' with ⟨further, isBefore, isRest⟩ | ⟨further, isBefore, isRest⟩
  · cases further with
    | nil => exact (List.cons.inj isRest).1
    | cons head tail =>
      obtain ⟨rfl, rfl⟩ := List.cons.inj isRest
      have inside : first ∈ before' := by
        rw [isBefore]
        simp
      rcases atMost with bound | none
      · exact absurd bound (bounded first_leaf (less' first inside))
      · simp at none
  · cases further with
    | nil => exact (List.cons.inj isRest).1.symm
    | cons head tail =>
      obtain ⟨rfl, rfl⟩ := List.cons.inj isRest
      have inside : second ∈ before := by
        rw [isBefore]
        simp
      rcases atMost' with bound | none
      · exact absurd bound (bounded second_leaf (less second inside))
      · simp at none

/-- The way down depends on the stored tree alone. -/
theorem btreeInsertionSearch_congr {s' : Store} {tree : Tree (depth + 1)} (stores : Stores s parent tree)
    (stores' : Stores s' parent tree) (filled : tree.Filled) (some_leaf : tree.leaves ≠ [])
    (increasing : Increasing tree.leaves) (key : Nat) :
    btreeInsertionSearch s' tree.block key = btreeInsertionSearch s tree.block key := by
  obtain ⟨bottom, belongs, bottomLeaf, run⟩ :=
    btreeInsertionSearch_belongs stores filled some_leaf increasing key
  obtain ⟨bottom', belongs', bottomLeaf', run'⟩ :=
    btreeInsertionSearch_belongs stores' filled some_leaf increasing key
  rw [run, run', belongs.unique belongs' bottomLeaf bottomLeaf']

/-- Insertion and lookup take the same way down: `btree_insertion_search` ends at the node over leaves
where the key belongs, and a leaf that `btree_search` finds is a child of that node. -/
theorem btreeInsertionSearch_deep {tree : Tree (depth + 1)} (stores : Stores s parent tree)
    (increasing : Increasing tree.leaves) (some_leaf : tree.leaves ≠ []) (filled : tree.Filled)
    (key : Nat) :
    ∃ bottom, btreeInsertionSearch s tree.block key = some bottom.block ∧ Belongs tree key bottom ∧
      ∀ block, btreeSearch s tree.block key = some block → block ≠ 0 →
        ∃ leaf ∈ bottom.leaves, leaf.key = key ∧ leaf.block = block := by
  obtain ⟨bottom, belongs, bottomLeaf, run⟩ :=
    btreeInsertionSearch_belongs stores filled some_leaf increasing key
  refine ⟨bottom, run, belongs, ?_⟩
  intro block found present
  have search := btreeSearchFrom_shape stores.shape increasing key stores.shape.within (by
    have inside := stores.shape.inside
    unfold Store.walkFuel
    omega : s.totalBlocks - 1 < s.walkFuel)
  unfold btreeSearch at found
  rw [search] at found
  have isBlock := Option.some.inj found
  unfold leafBlock at isBlock
  cases isFound : tree.leaves.find? fun leaf => leaf.key == key with
  | none =>
    rw [isFound] at isBlock
    exact absurd isBlock.symm present
  | some leaf =>
    rw [isFound] at isBlock
    have accepted := List.find?_some isFound
    have same : leaf.key = key := by simpa using accepted
    exact ⟨leaf, belongs.leaf increasing bottomLeaf (List.mem_of_find?_eq_some isFound) same, same,
      isBlock⟩

/-- A root over two nodes over leaves. -/
def twoBottoms : Tree 2 := (2, [(3, [⟨4, 10, 0, 0⟩]), (5, [⟨6, 20, 0, 0⟩])])

/-- The root over two nodes fits its nodes. -/
theorem twoBottoms_fits : twoBottoms.Fits := by decide

/-- The first node over leaves is where its key belongs. -/
theorem btreeInsertionSearch_deep_two :
    ∃ bottom, btreeInsertionSearch (twoBottoms.image 8) 2 10 = some bottom.block ∧
      Belongs twoBottoms 10 bottom ∧
      ∀ block, btreeSearch (twoBottoms.image 8) 2 10 = some block → block ≠ 0 →
        ∃ leaf ∈ bottom.leaves, leaf.key = 10 ∧ leaf.block = block :=
  btreeInsertionSearch_deep (Tree.image_stores twoBottoms_fits (by decide) (by decide))
    (show Increasing [⟨4, 10, 0, 0⟩, ⟨6, 20, 0, 0⟩] by simp [Increasing]) (by decide)
    twoBottoms_fits.filled 10

/-- A root over two nodes, the first of them with an empty node as its last child. -/
def emptyLast : Tree 3 :=
  (2, [(3, [(4, [⟨5, 10, 0, 0⟩]), (6, [])]), (7, [(8, [⟨9, 20, 0, 0⟩])])])

/-- The nodes of the tree with an empty node. -/
def emptyLastStore : Store :=
  nodeStore 12 [nodeOver 2 0 [(3, some 10), (7, some 20)],
    { nodeOver 3 2 [(4, some 10), (6, none)] with numKeys := 1 },
    nodeOver 4 3 [(5, some 10)], Leaf.node ⟨5, 10, 0, 0⟩ 4, nodeOver 6 3 [],
    nodeOver 7 2 [(8, some 20)], nodeOver 8 7 [(9, some 20)], Leaf.node ⟨9, 20, 0, 0⟩ 8]

/-- The tree with an empty node is stored. -/
theorem emptyLastStore_stores : Stores emptyLastStore 0 emptyLast := by
  have first : @Stores emptyLastStore 0 4 (⟨5, 10, 0, 0⟩ : Leaf) :=
    ⟨_, load_eq_some.mpr ⟨by decide, rfl⟩, ⟨rfl, rfl, rfl, rfl, rfl, rfl⟩⟩
  have second : @Stores emptyLastStore 0 8 (⟨9, 20, 0, 0⟩ : Leaf) :=
    ⟨_, load_eq_some.mpr ⟨by decide, rfl⟩, ⟨rfl, rfl, rfl, rfl, rfl, rfl⟩⟩
  have keyed : @Stores emptyLastStore 1 3 (4, [⟨5, 10, 0, 0⟩]) :=
    ⟨⟨_, load_eq_some.mpr ⟨by decide, rfl⟩, nodeOver_inner (by decide) (by simp)⟩,
      List.forall_mem_singleton.mpr ⟨by decide, first⟩⟩
  have empty : @Stores emptyLastStore 1 3 (6, []) :=
    ⟨⟨_, load_eq_some.mpr ⟨by decide, rfl⟩, nodeOver_inner (by decide) (by simp)⟩,
      fun _ none => absurd none List.not_mem_nil⟩
  have left : @Stores emptyLastStore 2 2 (3, [(4, [⟨5, 10, 0, 0⟩]), (6, [])]) := by
    refine ⟨⟨_, load_eq_some.mpr ⟨by decide, rfl⟩, ?_⟩, List.forall_mem_cons.mpr
      ⟨⟨by decide, keyed⟩, List.forall_mem_singleton.mpr ⟨by decide, empty⟩⟩⟩
    exact ⟨rfl, rfl, rfl, by decide, by decide, by decide, by decide, fun i _ => rfl⟩
  have below : @Stores emptyLastStore 1 7 (8, [⟨9, 20, 0, 0⟩]) :=
    ⟨⟨_, load_eq_some.mpr ⟨by decide, rfl⟩, nodeOver_inner (by decide) (by simp)⟩,
      List.forall_mem_singleton.mpr ⟨by decide, second⟩⟩
  have right : @Stores emptyLastStore 2 2 (7, [(8, [⟨9, 20, 0, 0⟩])]) :=
    ⟨⟨_, load_eq_some.mpr ⟨by decide, rfl⟩, nodeOver_inner (by decide) (by simp)⟩,
      List.forall_mem_singleton.mpr ⟨by decide, below⟩⟩
  exact ⟨⟨_, load_eq_some.mpr ⟨by decide, rfl⟩, nodeOver_inner (by decide) (by simp)⟩,
    List.forall_mem_cons.mpr ⟨⟨by decide, left⟩, List.forall_mem_singleton.mpr ⟨by decide, right⟩⟩⟩

/-- With an empty node as a last child, insertion goes to another node than the lookup. -/
theorem btreeInsertionSearch_deep_false :
    ¬ ∀ (s : Store) (depth parent key : Nat) (tree : Tree (depth + 1)), Stores s parent tree →
      Increasing tree.leaves → tree.leaves ≠ [] →
      ∃ bottom, btreeInsertionSearch s tree.block key = some bottom.block ∧ Belongs tree key bottom ∧
        ∀ block, btreeSearch s tree.block key = some block → block ≠ 0 →
          ∃ leaf ∈ bottom.leaves, leaf.key = key ∧ leaf.block = block := by
  intro claim
  obtain ⟨bottom, search, ⟨before, after, whole, -⟩, found⟩ :=
    claim emptyLastStore 2 0 10 emptyLast emptyLastStore_stores
      (show Increasing [⟨5, 10, 0, 0⟩, ⟨9, 20, 0, 0⟩] by simp [Increasing]) (by decide)
  have target : btreeInsertionSearch emptyLastStore emptyLast.block 10 = some 8 := by decide
  have isBlock : bottom.block = 8 := Option.some.inj (search.symm.trans target)
  obtain ⟨leaf, inside, key, -⟩ := found 5 (by decide) (by decide)
  have isBottom : bottom ∈ emptyLast.bottoms := by
    rw [whole]
    simp
  have other : ∀ node ∈ emptyLast.bottoms, node.block = 8 → ∀ leaf ∈ node.leaves, leaf.key ≠ 10 := by
    decide
  exact other bottom isBottom isBlock leaf inside key

end

end Nbtrfs
