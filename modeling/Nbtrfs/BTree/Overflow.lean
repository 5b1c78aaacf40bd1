import Nbtrfs.BTree.Paths
import Nbtrfs.BTree.SplitChild

/-!
# Insertion into a full node below the root

The search ends at a node on a way down from the root, `btree_split_child` loses leaves there, and the
insertion that follows does not find them again.
-/

namespace Nbtrfs

section

variable {s s' : Store} {top depth : Nat} {tree : Tree top}

/-- The depth that `btree_find_depth` counts depends on the stored tree alone, and is at most its depth. -/
theorem btreeFindDepthFrom_same {sub : Tree depth} {parent fuel : Nat} {node : BTreeNode}
    (stores : Stores s parent sub)
    (same : ∀ block ∈ sub.blocks, btreeNodeLoad s' block = btreeNodeLoad s block)
    (load : btreeNodeLoad s sub.block = some node) :
    btreeFindDepthFrom s' fuel node = btreeFindDepthFrom s fuel node ∧
      ∀ levels, btreeFindDepthFrom s fuel node = some levels → levels ≤ depth := by
  induction depth generalizing parent fuel node with
  | zero =>
    obtain ⟨leafNode, loadLeaf, holds⟩ := stores
    obtain rfl := Option.some.inj (load.symm.trans loadLeaf)
    cases fuel with
    | zero => exact ⟨rfl, fun levels run => by cases run⟩
    | succ fuel =>
      rw [btreeFindDepthFrom, btreeFindDepthFrom, if_pos holds.isLeaf, if_pos holds.isLeaf]
      exact ⟨rfl, fun levels run => Nat.le_of_eq (Option.some.inj run).symm⟩
  | succ depth ih =>
    obtain ⟨block, children⟩ := sub
    obtain ⟨inner, stored⟩ := stores_over.mp stores
    obtain rfl := Option.some.inj (load.symm.trans stored.load)
    cases fuel with
    | zero => exact ⟨rfl, fun levels run => by cases run⟩
    | succ fuel =>
      have notLeaf : ¬ node.isLeaf = true := by
        rw [stored.holds.isLeaf]
        exact Bool.false_ne_true
      rw [btreeFindDepthFrom, btreeFindDepthFrom, if_neg notLeaf, if_neg notLeaf]
      have slot := stored.slot (Nat.zero_le maxKeys)
      cases atFirst : children[0]? with
      | none =>
        rw [atFirst] at slot
        rw [slot, if_neg (by simp), if_neg (by simp)]
        exact ⟨rfl, fun levels run => by
          rw [← Option.some.inj run]
          exact Nat.zero_le _⟩
      | some first =>
        have isChild := List.mem_of_getElem? atFirst
        obtain ⟨slot, present⟩ := stored.slotAt atFirst
        obtain ⟨next, loadNext⟩ := (stored.below first isChild).2.load
        have sameFirst : ∀ other ∈ first.blocks, btreeNodeLoad s' other = btreeNodeLoad s other :=
          fun other inside => same other (List.mem_cons_of_mem _ (mem_children_blocks isChild inside))
        have reload : btreeNodeReload s first.block node = some next := by
          unfold btreeNodeReload
          rw [btreeNodeRead_of_load loadNext]
          rfl
        have reload' : btreeNodeReload s' first.block node = some next := by
          unfold btreeNodeReload
          rw [btreeNodeRead_of_load ((sameFirst _ first.block_mem).trans loadNext)]
          rfl
        obtain ⟨equal, bound⟩ := @ih first block fuel next (stored.below first isChild).2 sameFirst loadNext
        rw [slot, if_pos present, if_pos present, reload, reload', Option.bind_eq_bind, Option.bind_some,
          Option.bind_eq_bind, Option.bind_some, equal]
        refine ⟨rfl, fun levels run => ?_⟩
        obtain ⟨fewer, deeper, rest⟩ := Option.bind_eq_some_iff.mp run
        have atMost := bound fewer deeper
        have whole : fewer + 1 = levels := Option.some.inj rest
        omega

/-- The child loop depends on the stored trees below alone. -/
theorem insertionIndex_same {block parent key : Nat} {node : BTreeNode} {children : List (Tree depth)}
    (stored : Over s block parent node children) (stored' : Over s' block parent node children)
    (left i childIndex : Nat) (small : i + left ≤ maxKeys + 1) :
    insertionIndex s' node key left i childIndex = insertionIndex s node key left i childIndex := by
  induction left generalizing i childIndex with
  | zero => rfl
  | succ left ih =>
    rw [insertionIndex, insertionIndex]
    by_cases present : node.children i ≠ 0
    · rw [if_pos present, if_pos present]
      have slot := stored.slot (show i ≤ maxKeys by omega)
      cases atIndex : children[i]? with
      | none =>
        rw [atIndex] at slot
        exact absurd slot present
      | some child =>
        rw [atIndex] at slot
        have isChild := List.mem_of_getElem? atIndex
        have maximum : btreeFindMaximum s (node.children i) = some child.peak := by
          rw [slot]
          exact btreeFindMaximum_peak (stored.below child isChild).2
        have maximum' : btreeFindMaximum s' (node.children i) = some child.peak := by
          rw [slot]
          exact btreeFindMaximum_peak (stored'.below child isChild).2
        rw [maximum, maximum', Option.bind_eq_bind, Option.bind_some, Option.bind_some,
          ih (i + 1) (i + 1) (by omega)]
    · rw [if_neg present, if_neg present]
      exact ih (i + 1) childIndex (by omega)

/-- The descent depends on the stored tree alone and stays on a way down from the root. -/
theorem insertionDescend_onPath {block key left : Nat} {node : BTreeNode} {children : List (Tree depth)}
    (stores : Stores s 0 tree)
    (same : ∀ block ∈ tree.blocks, btreeNodeLoad s' block = btreeNodeLoad s block)
    (path : OnPath tree (overTree block children)) (load : btreeNodeLoad s block = some node)
    (few : left ≤ depth) :
    insertionDescend s' key left node = insertionDescend s key left node ∧
      ∀ result, insertionDescend s key left node = some result →
        ∃ (deep last : Nat) (below : List (Tree deep)), OnPath tree (overTree last below) ∧
          result.blockNumber = last := by
  obtain ⟨parent, storesHere⟩ := path.stores stores
  obtain ⟨inner, stored⟩ := stores_over.mp storesHere
  obtain rfl := Option.some.inj (load.symm.trans stored.load)
  have here : ∃ (deep last : Nat) (below : List (Tree deep)), OnPath tree (overTree last below) ∧
      node.blockNumber = last := ⟨depth, block, children, path, stored.holds.blockNumber⟩
  induction left generalizing depth block parent node with
  | zero =>
    refine ⟨rfl, fun result run => ?_⟩
    rw [← Option.some.inj run]
    exact here
  | succ left ih =>
    obtain ⟨depth, rfl⟩ := Nat.exists_eq_succ_of_ne_zero (by omega : depth ≠ 0)
    have sameHere : ∀ other ∈ (overTree block children).blocks,
        btreeNodeLoad s' other = btreeNodeLoad s other :=
      fun other inside => same other (path.sublist.subset inside)
    have stored' : Over s' block parent node children :=
      stored.congr (sameHere block List.mem_cons_self) fun child isChild other inside =>
        sameHere other (List.mem_cons_of_mem _ (mem_children_blocks isChild inside))
    obtain ⟨enough, extra, fits⟩ := stored.counts
    have index := @insertionIndex_same s s' _ block parent key node children stored stored' node.numKeys 0 0
      (by omega)
    rw [insertionDescend, insertionDescend, index]
    cases chosen : insertionIndex s node key node.numKeys 0 0 with
    | none => exact ⟨rfl, fun result run => by cases run⟩
    | some place =>
      simp only [Option.bind_eq_bind, Option.bind_some]
      have isChild : ∀ next, (if node.children (min place node.numKeys) ≠ 0 then
          some (node.children (min place node.numKeys)) else node.lastChild) = some next →
          ∃ child ∈ children, next = Tree.block child := by
        intro next found
        split at found
        · rename_i present
          have slot := stored.slot (show min place node.numKeys ≤ maxKeys by omega)
          cases atIndex : children[min place node.numKeys]? with
          | none =>
            rw [atIndex] at slot
            exact absurd slot present
          | some child =>
            rw [atIndex] at slot
            exact ⟨child, List.mem_of_getElem? atIndex, by rw [← Option.some.inj found, slot]; rfl⟩
        · rw [stored.lastChild] at found
          obtain ⟨child, isLast, rfl⟩ := Option.map_eq_some_iff.mp found
          exact ⟨child, List.mem_of_getLast? isLast, rfl⟩
      cases found : (if node.children (min place node.numKeys) ≠ 0 then
          some (node.children (min place node.numKeys)) else node.lastChild) with
      | none =>
        refine ⟨rfl, fun result run => ?_⟩
        rw [← Option.some.inj run]
        exact here
      | some next =>
        obtain ⟨child, member, rfl⟩ := isChild next found
        obtain ⟨blockC, grandchildren⟩ := child
        obtain ⟨nodeC, storedC⟩ := stores_over.mp (stored.below _ member).2
        have pathC : OnPath tree (overTree blockC grandchildren) := path.child member
        have loadC : btreeNodeLoad s blockC = some nodeC := storedC.load
        have reload : btreeNodeReload s blockC node = some nodeC := by
          unfold btreeNodeReload
          rw [btreeNodeRead_of_load loadC]
          rfl
        have reload' : btreeNodeReload s' blockC node = some nodeC := by
          unfold btreeNodeReload
          rw [btreeNodeRead_of_load ((same blockC (pathC.sublist.subset List.mem_cons_self)).trans loadC)]
          rfl
        show (btreeNodeReload s' blockC node).bind _ = (btreeNodeReload s blockC node).bind _ ∧
          ∀ result, (btreeNodeReload s blockC node).bind _ = some result → _
        rw [reload, reload', Option.bind_some, Option.bind_some]
        exact ih pathC loadC (by omega) block (stored.below _ member).2 storedC
          ⟨depth, blockC, grandchildren, pathC, storedC.holds.blockNumber⟩

/-- `btree_insertion_search` depends on the stored tree alone and ends at a node on a way down from the
root. -/
theorem btreeInsertionSearch_onPath {tree : Tree (top + 1)} (stores : Stores s 0 tree)
    (same : ∀ block ∈ tree.blocks, btreeNodeLoad s' block = btreeNodeLoad s block)
    (total : s'.totalBlocks = s.totalBlocks) (key : Nat) :
    btreeInsertionSearch s' tree.block key = btreeInsertionSearch s tree.block key ∧
      ∀ block, btreeInsertionSearch s tree.block key = some block →
        ∃ (deep : Nat) (below : List (Tree deep)), OnPath tree (overTree block below) := by
  obtain ⟨block, children⟩ := tree
  obtain ⟨node, stored⟩ := stores_over.mp stores
  show btreeInsertionSearch s' block key = btreeInsertionSearch s block key ∧
    ∀ last, btreeInsertionSearch s block key = some last →
      ∃ (deep : Nat) (below : List (Tree deep)), OnPath (overTree block children) (overTree last below)
  have inside : ∀ other ∈ (overTree block children).blocks,
      btreeNodeLoad s' other = btreeNodeLoad s other := same
  have load' : btreeNodeLoad s' block = some node := (inside block List.mem_cons_self).trans stored.load
  have number : node.blockNumber = block := stored.holds.blockNumber
  have atRoot : ∃ (deep : Nat) (below : List (Tree deep)),
      OnPath (overTree block children) (overTree node.blockNumber below) := by
    rw [number]
    exact ⟨top, children, OnPath.root⟩
  have fuel : s'.walkFuel = s.walkFuel := by
    unfold Store.walkFuel
    rw [total]
  have storesRoot : Stores s 0 (overTree block children) := stores
  have loadRoot : btreeNodeLoad s (overTree block children).block = some node := stored.load
  obtain ⟨depths, bound⟩ := @btreeFindDepthFrom_same s s' _ _ _ s.walkFuel _ storesRoot inside loadRoot
  unfold btreeInsertionSearch btreeFindDepth
  rw [load', stored.load]
  simp only [Option.bind_eq_bind, Option.bind_some, fuel, depths]
  split
  · refine ⟨rfl, fun last run => ?_⟩
    rw [← Option.some.inj run]
    exact atRoot
  · cases levels : btreeFindDepthFrom s s.walkFuel node with
    | none => exact ⟨rfl, fun last run => by cases run⟩
    | some levels' =>
      have atMost := bound levels' levels
      rw [Option.bind_some, Option.bind_some]
      split
      · refine ⟨rfl, fun last run => ?_⟩
        rw [← Option.some.inj run]
        exact atRoot
      · have path : OnPath (overTree block children) (overTree block children) := OnPath.root
        obtain ⟨equal, ends⟩ := @insertionDescend_onPath s s' _ _ (overTree block children) block key
          (levels' - 1) node children storesRoot inside path stored.load (by omega)
        rw [equal]
        refine ⟨rfl, fun last run => ?_⟩
        obtain ⟨result, descend, rest⟩ := Option.bind_eq_some_iff.mp run
        obtain ⟨deep, final, below, pathLast, isLast⟩ := ends result descend
        have isNumber : result.blockNumber = last := Option.some.inj rest
        rw [← isNumber, isLast]
        exact ⟨deep, below, pathLast⟩

/-- Lost blocks stay lost under a change of a node that keeps its parent and gets no lost child. -/
theorem Lost.change {inner : List Nat} {above block : Nat} {old changed : BTreeNode}
    (lost : Lost s inner (· = above)) (load : btreeNodeLoad s block = some old)
    (change : NodeChange s block changed s') (parent : block ∈ inner → changed.parent = old.parent)
    (slots : ∀ i ≤ maxKeys, i ≤ changed.numKeys → changed.children i ∉ inner ∨
      ∃ j ≤ maxKeys, j ≤ old.numKeys ∧ changed.children i = old.children j) :
    Lost s' inner (· = above) := by
  constructor
  · intro other inside node loadOther
    by_cases same : other = block
    · subst same
      rw [← Option.some.inj (change.here.symm.trans loadOther), parent inside]
      exact lost.parents other inside old load
    · rw [change.other same] at loadOther
      exact lost.parents other inside node loadOther
  · rintro isAbove rfl node loadOther i small keyed
    by_cases same : isAbove = block
    · subst same
      obtain rfl := Option.some.inj (change.here.symm.trans loadOther)
      rcases slots i small keyed with outside | ⟨j, smallOld, keyedOld, isOld⟩
      · exact outside
      · rw [isOld]
        exact lost.slots isAbove rfl old load j smallOld keyedOld
    · rw [change.other same] at loadOther
      exact lost.slots isAbove rfl node loadOther i small keyed

/-- A write with other keys loses no more and finds nothing again. -/
theorem Lost.rewrite {inner : List Nat} {above block : Nat} {old changed : BTreeNode}
    (lost : Lost s inner (· = above)) (load : btreeNodeLoad s block = some old)
    (write : btreeNodeWrite s changed = some s') (number : changed.blockNumber = block)
    (parent : block ∈ inner → changed.parent = old.parent)
    (slots : ∀ i ≤ maxKeys, i ≤ changed.numKeys → changed.children i ∉ inner ∨
      ∃ j ≤ maxKeys, j ≤ old.numKeys ∧ changed.children i = old.children j) :
    Lost s' inner (· = above) := by
  obtain ⟨written, write', change⟩ := btreeNodeWrite_at number load
  obtain rfl := Option.some.inj (write.symm.trans write')
  exact lost.change load change parent slots

/-- The slots of a node after the insertion of a child. -/
theorem insertedSlot (array : Nat → Nat) (child : Nat) {place count i : Nat} (atMost : place ≤ count)
    (within : i ≤ count + 1) : setAt (shiftUp array place (count + 1)) place child i = child ∨
      ∃ j ≤ count, j ≤ i ∧ setAt (shiftUp array place (count + 1)) place child i = array j := by
  rcases Nat.lt_trichotomy i place with before | here | after
  · right
    refine ⟨i, by omega, Nat.le_refl i, ?_⟩
    unfold setAt shiftUp
    rw [if_neg (by omega), if_neg (by omega)]
  · left
    unfold setAt
    rw [if_pos here]
  · right
    refine ⟨i - 1, by omega, by omega, ?_⟩
    unfold setAt shiftUp
    rw [if_neg (by omega), if_pos ⟨after, within⟩]

/-- The insertion of a leaf with room links the leaf only. -/
theorem insertInto_lost {inner : List Nat} {above block page : Nat} {target : BTreeNode}
    (names : NamesBlocks s) (lost : Lost s inner (· = above))
    (load : btreeNodeLoad s block = some target) (outside : page ∉ inner)
    (run : insertInto s target page = some s') : Lost s' inner (· = above) := by
  unfold insertInto at run
  obtain ⟨⟨changed, s1⟩, insert, run⟩ := Option.bind_eq_some_iff.mp run
  obtain ⟨s2, write, run⟩ := Option.bind_eq_some_iff.mp run
  obtain ⟨names2, lost2⟩ : NamesBlocks s2 ∧ Lost s2 inner (· = above) := by
    unfold btreeInsertNonfull at insert
    split at insert
    · obtain ⟨rfl, rfl⟩ := Prod.mk.inj (Option.some.inj insert)
      refine ⟨names.write write, lost.rewrite load write (names block _ load) (fun _ => rfl) ?_⟩
      exact fun i small keyed => Or.inr ⟨i, small, keyed, rfl⟩
    · obtain ⟨node, loadNode, insert⟩ := Option.bind_eq_some_iff.mp insert
      obtain ⟨position, -, insert⟩ := Option.bind_eq_some_iff.mp insert
      dsimp only at insert
      split at insert
      · cases insert
      · obtain ⟨maxKey, -, insert⟩ := Option.bind_eq_some_iff.mp insert
        obtain ⟨s3, modify, insert⟩ := Option.bind_eq_some_iff.mp insert
        obtain ⟨rfl, rfl⟩ := Prod.mk.inj (Option.some.inj insert)
        obtain ⟨leaf, loadLeaf, change⟩ := btreeNodeModify_change modify
        have names3 := change.namesBlocks names (names page leaf loadLeaf)
        have lost3 := lost.change loadLeaf change (fun inside => absurd inside outside)
          fun i small keyed => Or.inr ⟨i, small, keyed, rfl⟩
        obtain ⟨stored, load3, count, children, parent⟩ : ∃ stored, btreeNodeLoad s3 block = some stored ∧
            stored.numKeys = target.numKeys ∧ stored.children = target.children ∧
            (block ∈ inner → stored.parent = target.parent) := by
          by_cases same : block = page
          · subst same
            obtain rfl := Option.some.inj (load.symm.trans loadLeaf)
            exact ⟨_, change.here, rfl, rfl, fun inside => absurd inside outside⟩
          · exact ⟨target, (change.other same).trans load, rfl, rfl, fun _ => rfl⟩
        refine ⟨names3.write write, lost3.rewrite load3 write (names block target load)
          (fun inside => (parent inside).symm) ?_⟩
        intro i small keyed
        rw [count, children]
        have within : i ≤ target.numKeys + 1 := keyed
        rcases insertedSlot target.children node.blockNumber (Nat.min_le_right position target.numKeys)
          within with isNew | ⟨j, old, before, isOld⟩
        · left
          intro inside
          have isPage := isNew.trans (names page node loadNode)
          apply outside
          rw [← isPage]
          exact inside
        · right
          exact ⟨j, by omega, old, isOld⟩
  unfold btreeUpdateParentKeys at run
  split at run
  · obtain rfl := Option.some.inj run
    exact lost2
  · obtain ⟨parent, loadParent, run⟩ := Option.bind_eq_some_iff.mp run
    obtain ⟨refreshed, refresh, run⟩ := Option.bind_eq_some_iff.mp run
    obtain ⟨keys, rfl⟩ := refreshKeys_keys refresh
    exact lost2.rewrite loadParent run (names2 _ parent loadParent) (fun _ => rfl)
      fun i small keyed => Or.inr ⟨i, small, keyed, rfl⟩

/-- The insertion of a new key keeps the leaves: the tree is stored with the new leaf among the old ones. -/
def InsertKeeps (s : Store) {depth : Nat} (tree : Tree depth) (insertion : Insertion) : Prop :=
  ∃ s' page depth', ∃ grown : Tree depth',
    btreeInsert s tree.block insertion.key insertion.value insertion.type = some s' ∧
    Stores s' 0 grown ∧ grown.block = tree.block ∧
    grown.leaves.Perm (insertion.leaf page :: tree.leaves) ∧ Increasing grown.leaves

/-- An insertion that splits a node below the root loses leaves. -/
theorem btreeInsert_doomed {tree : Tree (top + 1)} (owned : Owned s tree.blocks) (names : NamesBlocks s)
    (stores : Stores s 0 tree) {block : Nat} {target : BTreeNode} (insertion : Insertion)
    (search : btreeInsertionSearch s tree.block insertion.key = some block)
    (load : btreeNodeLoad s block = some target) (full : target.numKeys = maxKeys)
    (below : target.parent ≠ 0)
    (noExtra : ¬ (target.keys (maxKeys - 1) < insertion.key ∧ target.children maxKeys = 0))
    (run : btreeInsert s tree.block insertion.key insertion.value insertion.type = some s') :
    ∃ inner above, Lost s' inner (· = above) ∧ tree.block ∉ inner ∧
      ∃ leaf ∈ tree.leaves, leaf.block ∈ inner := by
  rw [btreeInsert_eq] at run
  obtain ⟨⟨page, s1⟩, new, run⟩ := Option.bind_eq_some_iff.mp run
  obtain ⟨s2, modify, run⟩ := Option.bind_eq_some_iff.mp run
  obtain ⟨type, created⟩ := btreeNodeNew_created owned.formatted new
  obtain ⟨fresh, loadFresh, change⟩ := btreeNodeModify_change modify
  have names1 := created.namesBlocks names
  have names2 := change.namesBlocks names1 (names1 page fresh loadFresh)
  have owned2 := (owned.created created).sameBitmap change.sameBitmap
  have notTree := owned.fresh created
  have kept : ∀ other ∈ tree.blocks, btreeNodeLoad s2 other = btreeNodeLoad s other := by
    intro other inside
    have notPage : other ≠ page := by
      rintro rfl
      exact notTree inside
    rw [change.other notPage, created.other other notPage]
  have stores2 := stores.congr kept
  have total : s2.totalBlocks = s.totalBlocks := change.totalBlocks.trans created.totalBlocks
  obtain ⟨equal, ends⟩ := btreeInsertionSearch_onPath stores kept total insertion.key
  obtain ⟨depth, children, path⟩ := ends block search
  have blockIn : block ∈ tree.blocks := path.sublist.subset List.mem_cons_self
  have load2 : btreeNodeLoad s2 block = some target := (kept block blockIn).trans load
  obtain ⟨parent, siblings, pathParent, isNode, storesNode⟩ :
      ∃ parent siblings, OnPath tree (overTree parent siblings) ∧ overTree block children ∈ siblings ∧
        Stores s2 parent (overTree block children) := by
    rcases path.above stores2 with storesRoot | isBelow
    · exact absurd (storesRoot.names load2).2 below
    · exact isBelow
  obtain ⟨inner, stored⟩ := stores_over.mp storesNode
  obtain rfl := Option.some.inj (load2.symm.trans stored.load)
  obtain ⟨grandparent, storesParent⟩ := pathParent.stores stores2
  obtain ⟨nodeParent, storedParent⟩ := stores_over.mp storesParent
  obtain ⟨hole, isHole⟩ : ∃ hole, hole ∈ children := by
    obtain ⟨enough, -, -⟩ := stored.counts
    have many : maxKeys = 250 := rfl
    exact List.exists_mem_of_length_pos (by omega)
  obtain ⟨targetBlock, search2, run⟩ := Option.bind_eq_some_iff.mp run
  obtain rfl := Option.some.inj (search2.symm.trans (equal.trans search))
  obtain ⟨target', loadTarget, run⟩ := Option.bind_eq_some_iff.mp run
  obtain rfl := Option.some.inj (loadTarget.symm.trans load2)
  rw [if_pos full, if_neg noExtra, if_pos below] at run
  obtain ⟨s3, split, run⟩ := Option.bind_eq_some_iff.mp run
  obtain ⟨node, loadNode, split⟩ := Option.bind_eq_some_iff.mp split
  obtain ⟨maxKey, -, split⟩ := Option.bind_eq_some_iff.mp split
  obtain ⟨⟨node', child', s4⟩, splitChild, split⟩ := Option.bind_eq_some_iff.mp split
  obtain rfl := Option.some.inj split
  rw [stored.holds.parent] at loadNode
  have loses := btreeSplitChild_loses stores2 owned.distinct pathParent isNode isHole names2 owned2
    (fun other inside => List.mem_cons_of_mem _ inside) (fun _ _ _ => rfl) loadNode load2 full splitChild
  obtain ⟨inner, above, doomed, -⟩ := loses.doomed
  obtain ⟨lastBlock, -, run⟩ := Option.bind_eq_some_iff.mp run
  obtain ⟨last, loadLast, run⟩ := Option.bind_eq_some_iff.mp run
  have outside : page ∉ inner := fun inside =>
    notTree (doomed.old page inside List.mem_cons_self)
  exact ⟨inner, above, insertInto_lost loses.names doomed.lost loadLast outside run, doomed.root,
    doomed.leaf⟩

/-- `btree_insert` never keeps the leaves when it splits a full node below the root. -/
theorem btreeInsert_below_loses {tree : Tree (top + 1)} (owned : Owned s tree.blocks)
    (names : NamesBlocks s) (stores : Stores s 0 tree) {block : Nat} {target : BTreeNode}
    (insertion : Insertion) (search : btreeInsertionSearch s tree.block insertion.key = some block)
    (load : btreeNodeLoad s block = some target) (full : target.numKeys = maxKeys)
    (below : target.parent ≠ 0)
    (noExtra : ¬ (target.keys (maxKeys - 1) < insertion.key ∧ target.children maxKeys = 0)) :
    ¬ InsertKeeps s tree insertion := by
  rintro ⟨s', page, depth', grown, run, storesGrown, root, leaves, -⟩
  obtain ⟨inner, above, lost, rootOut, leaf, isLeaf, inside⟩ :=
    btreeInsert_doomed owned names stores insertion search load full below noExtra run
  have isGrown : leaf ∈ grown.leaves := leaves.mem_iff.mpr (List.mem_cons_of_mem _ isLeaf)
  exact lost.no_leaf (by rwa [root]) storesGrown isGrown inside

/-- Leaves with consecutive blocks and even keys. -/
def evenLeaves (block key count : Nat) : List Leaf :=
  (List.range count).map fun i => ⟨block + i, key + 2 * i, 0, 0⟩

/-- A root over a full node and one that is half full. -/
def fullBottom : Tree 2 := overTree 2 [flatTree 3 (evenLeaves 4 2 250), flatTree 254 (evenLeaves 255 502 125)]

/-- The node over the full list of leaves. -/
def fullBottomNode : BTreeNode :=
  nodeOver 3 2 ((evenLeaves 4 2 250).map fun leaf => (leaf.block, some leaf.key))

/-- The blocks of the tree are consecutive. -/
theorem fullBottom_blocks : fullBottom.blocks = List.range' 2 378 := by decide +kernel

/-- The tree fits its nodes. -/
theorem fullBottom_fits : fullBottom.Fits := by decide +kernel

/-- The blocks of the tree are distinct. -/
theorem fullBottom_distinct : fullBottom.blocks.Nodup := by
  rw [fullBottom_blocks]
  exact List.nodup_range'

/-- The blocks of the tree are blocks of its image. -/
theorem fullBottom_inside : ∀ block ∈ fullBottom.blocks, 1 < block ∧ block < 400 := by
  rw [fullBottom_blocks]
  intro block isBlock
  obtain ⟨first, last⟩ := List.mem_range'_1.mp isBlock
  omega

/-- The full node is loaded from the image. -/
theorem fullBottom_load : btreeNodeLoad (fullBottom.image 400) 3 = some fullBottomNode :=
  Tree.image_load fullBottom_distinct fullBottom_inside fullBottomNode
    (List.mem_cons_of_mem _ (List.mem_flatMap.mpr ⟨_, List.mem_cons_self, List.mem_cons_self⟩))

/-- The search for a place for key 1 ends at the full node. -/
theorem fullBottom_search : btreeInsertionSearch (fullBottom.image 400) fullBottom.block 1 = some 3 := by
  decide +kernel

/-- Key 1 does not go behind the last key of the full node. -/
theorem fullBottom_noExtra :
    ¬ (fullBottomNode.keys (maxKeys - 1) < 1 ∧ fullBottomNode.children maxKeys = 0) := by
  decide +kernel

/-- The insertion of key 1 loses leaves. -/
theorem btreeInsert_below_loses_full :
    ¬ InsertKeeps (fullBottom.image 400) fullBottom ⟨1, 0, 0⟩ :=
  btreeInsert_below_loses
    (Tree.image_owned (by decide) (by decide) fullBottom_distinct fullBottom_inside)
    (fun _ _ load => (nodeStore_names load).2)
    (Tree.image_stores fullBottom_fits fullBottom_distinct fullBottom_inside) ⟨1, 0, 0⟩
    fullBottom_search fullBottom_load (by decide +kernel) (by decide) fullBottom_noExtra

/-- A tree of depth 2 with increasing keys and enough free blocks, whose full node over leaves is split,
is not stored again with all its leaves. -/
theorem btreeInsert_below_false :
    ¬ ∀ (s : Store) (depth block : Nat) (tree : Tree (depth + 2)) (insertion : Insertion)
      (target : BTreeNode), Owned s tree.blocks → NamesBlocks s → Stores s 0 tree →
      Increasing tree.leaves → (∀ leaf ∈ tree.leaves, leaf.key ≠ insertion.key) →
      depth + 5 ≤ s.freeCount →
      btreeInsertionSearch s tree.block insertion.key = some block →
      btreeNodeLoad s block = some target → target.numKeys = maxKeys → target.parent ≠ 0 →
      ¬ (target.keys (maxKeys - 1) < insertion.key ∧ target.children maxKeys = 0) →
      InsertKeeps s tree insertion := by
  intro claim
  have keys : fullBottom.leaves.map Leaf.key = List.range' 2 375 2 := by decide +kernel
  have increasing : Increasing fullBottom.leaves := by
    unfold Increasing
    rw [keys]
    exact List.pairwise_lt_range' 2 (by decide)
  have absent : ∀ leaf ∈ fullBottom.leaves, leaf.key ≠ 1 := by
    intro leaf inside
    have isKey : leaf.key ∈ List.range' 2 375 2 := by
      rw [← keys]
      exact List.mem_map_of_mem inside
    obtain ⟨i, -, same⟩ := List.mem_range'.mp isKey
    omega
  have owned := Tree.image_owned (by decide) (by decide) fullBottom_distinct fullBottom_inside
  have stores := Tree.image_stores fullBottom_fits fullBottom_distinct fullBottom_inside
  have names : NamesBlocks (fullBottom.image 400) := fun _ _ load => (nodeStore_names load).2
  have free : [390, 391, 392, 393, 394].length ≤ (fullBottom.image 400).freeCount :=
    nodeStore_free (by decide) (by decide) (by decide +kernel)
  obtain ⟨s', page, depth', grown, run, storesGrown, root, leaves, -⟩ :=
    claim (fullBottom.image 400) 0 3 fullBottom ⟨1, 0, 0⟩ fullBottomNode owned names stores increasing
      absent free fullBottom_search fullBottom_load (by decide +kernel) (by decide) fullBottom_noExtra
  obtain ⟨inner, above, lost, rootOut, leaf, isLeaf, inside⟩ :=
    btreeInsert_doomed owned names stores ⟨1, 0, 0⟩ fullBottom_search fullBottom_load
      (by decide +kernel) (by decide) fullBottom_noExtra run
  have isGrown : leaf ∈ grown.leaves := leaves.mem_iff.mpr (List.mem_cons_of_mem _ isLeaf)
  exact lost.no_leaf (by rwa [root]) storesGrown isGrown inside

end

end Nbtrfs
