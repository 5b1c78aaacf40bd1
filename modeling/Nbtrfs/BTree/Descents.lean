import Nbtrfs.BTree.Shape

/-!
# The descent loops

`btree_find_depth` and `btree_remove_key` go down by reading a child over the node they are at, and
ignore a failed read, which leaves them where they are. On any content of the store their loops come
to an end if and only if the pointers that they follow name B-tree nodes and lead to no node twice.
-/

namespace Nbtrfs

open Relation Descent

/-- One iteration of a loop that goes on from some nodes and reads the node at a pointer over the
current one. An access past the end of the image ends the program. -/
def LoopNext (s : Store) (goesOn : BTreeNode → Prop) (pointer : BTreeNode → Nat)
    (current next : BTreeNode) : Prop :=
  goesOn current ∧ btreeNodeReload s (pointer current) current = some next

/-- The loop of `btree_find_depth` goes on from a node with a first child. -/
def DepthGoesOn (node : BTreeNode) : Prop := node.isLeaf = false ∧ node.children 0 ≠ 0

/-- The loop of `btree_find_depth`. -/
def FindDepthNext (s : Store) : BTreeNode → BTreeNode → Prop :=
  LoopNext s DepthGoesOn fun node => node.children 0

/-- The child index of `btree_remove_key`. -/
def BTreeNode.removeIndex (node : BTreeNode) (key : Nat) : Nat :=
  ((List.range node.numKeys).reverse.find? fun i => key ≤ node.keys (i + 1)).elim 0 (· + 1)

/-- The loop of `btree_remove_key` goes on from a node whose first child is not read as a leaf. A
first child that could not be read is uninitialised and can pass for anything. -/
def RemoveGoesOn (s : Store) (node : BTreeNode) : Prop :=
  node.isLeaf = false ∧ ∃ read, btreeNodeRead s (node.children 0) = some read ∧
    ∀ first, read = some first → first.isLeaf = false

/-- The loop of `btree_remove_key`. -/
def RemoveNext (s : Store) (key : Nat) : BTreeNode → BTreeNode → Prop :=
  LoopNext s (RemoveGoesOn s) fun node => node.children (node.removeIndex key)

/-- A result of the loop of `btree_find_depth` is a finished loop. -/
theorem btreeFindDepthFrom_finishes {s : Store} {fuel depth : Nat} {node : BTreeNode}
    (run : btreeFindDepthFrom s fuel node = some depth) : Finishes (FindDepthNext s) node := by
  induction fuel generalizing node depth with
  | zero => cases run
  | succ fuel ih =>
    apply finishes_of_next
    rintro next ⟨⟨inner, present⟩, reload⟩
    have reload : btreeNodeReload s (node.children 0) node = some next := reload
    rw [btreeFindDepthFrom, inner, if_neg Bool.false_ne_true, if_pos present, reload] at run
    obtain ⟨found, same, run⟩ := Option.bind_eq_some_iff.mp run
    obtain ⟨below, rest, -⟩ := Option.bind_eq_some_iff.mp run
    rw [Option.some.inj same]
    exact ih rest

/-- A result of the loop of `btree_remove_key` is a finished loop. -/
theorem removeDescend_finishes {s : Store} {key fuel : Nat} {node bottom : BTreeNode}
    (run : removeDescend s key fuel node = some bottom) : Finishes (RemoveNext s key) node := by
  induction fuel generalizing node with
  | zero => cases run
  | succ fuel ih =>
    apply finishes_of_next
    rintro next ⟨⟨inner, read, loaded, noLeaf⟩, reload⟩
    have reload : btreeNodeReload s (node.children (node.removeIndex key)) node = some next := reload
    rw [removeDescend, inner, if_neg Bool.false_ne_true] at run
    obtain ⟨first, load, run⟩ := Option.bind_eq_some_iff.mp run
    have sameRead := btreeNodeRead_of_load load
    rw [loaded] at sameRead
    rw [noLeaf first (Option.some.inj sameRead), if_neg Bool.false_ne_true] at run
    unfold BTreeNode.removeIndex at reload
    obtain ⟨found, sameNext, rest⟩ := Option.bind_eq_some_iff.mp run
    rw [reload] at sameNext
    rw [Option.some.inj sameNext]
    exact ih rest

/-- A loop follows a pointer from a block to another node. -/
def Follows (s : Store) (goesOn : BTreeNode → Prop) (pointer : BTreeNode → Nat)
    (block child : Nat) : Prop :=
  ∃ node, btreeNodeLoad s block = some node ∧ goesOn node ∧ pointer node = child ∧
    (btreeNodeLoad s child).isSome

/-- Every pointer that a loop follows from a block on names a B-tree node or is past the end of the
image. -/
def PointersHold (s : Store) (goesOn : BTreeNode → Prop) (pointer : BTreeNode → Nat)
    (start : Nat) : Prop :=
  ∀ block, ReflTransGen (Follows s goesOn pointer) start block →
    ∀ node, btreeNodeLoad s block = some node → goesOn node →
      btreeNodeRead s (pointer node) ≠ some none

section

variable {s : Store} {goesOn : BTreeNode → Prop} {pointer : BTreeNode → Nat}

/-- Reading a node over the current one. -/
theorem btreeNodeReload_of_load {block : Nat} {node current : BTreeNode}
    (load : btreeNodeLoad s block = some node) : btreeNodeReload s block current = some node := by
  unfold btreeNodeReload
  rw [btreeNodeRead_of_load load]
  rfl

/-- A followed pointer is an iteration of the loop. -/
theorem Follows.next {block child : Nat} {node : BTreeNode}
    (follows : Follows s goesOn pointer block child) (load : btreeNodeLoad s block = some node) :
    ∃ next, btreeNodeLoad s child = some next ∧ LoopNext s goesOn pointer node next := by
  obtain ⟨other, load', goes, isChild, present⟩ := follows
  rw [load] at load'
  obtain rfl := Option.some.inj load'
  obtain ⟨next, loadNext⟩ := Option.isSome_iff_exists.mp present
  refine ⟨next, loadNext, goes, ?_⟩
  rw [isChild]
  exact btreeNodeReload_of_load loadNext

/-- Followed pointers are iterations of the loop. -/
theorem follows_reach {block later : Nat} {node : BTreeNode}
    (reached : ReflTransGen (Follows s goesOn pointer) block later)
    (load : btreeNodeLoad s block = some node) :
    ∃ next, btreeNodeLoad s later = some next ∧
      ReflTransGen (LoopNext s goesOn pointer) node next := by
  induction reached with
  | refl => exact ⟨node, load, ReflTransGen.refl⟩
  | tail _ step ih =>
    obtain ⟨middle, loadMiddle, before⟩ := ih
    obtain ⟨next, loadNext, after⟩ := step.next loadMiddle
    exact ⟨next, loadNext, before.tail after⟩

/-- A walk along followed pointers that comes back makes the loop come back. -/
theorem follows_cycle {block later : Nat} {node : BTreeNode}
    (walk : TransGen (Follows s goesOn pointer) block later)
    (load : btreeNodeLoad s block = some node) :
    ∃ next, btreeNodeLoad s later = some next ∧ TransGen (LoopNext s goesOn pointer) node next := by
  obtain ⟨middle, step, rest⟩ := TransGen.head'_iff.mp walk
  obtain ⟨following, loadFollowing, first⟩ := step.next load
  obtain ⟨next, loadNext, further⟩ := follows_reach rest loadFollowing
  exact ⟨next, loadNext, TransGen.head' first further⟩

/-- The loop from a node comes to an end if and only if the followed pointers name nodes and lead to
no node twice. -/
theorem loop_finishes_iff {start : Nat} {node : BTreeNode}
    (load : btreeNodeLoad s start = some node) :
    Finishes (LoopNext s goesOn pointer) node ↔
      PointersHold s goesOn pointer start ∧
        ∀ block, ReflTransGen (Follows s goesOn pointer) start block →
          ¬ TransGen (Follows s goesOn pointer) block block := by
  constructor
  · intro finishes
    constructor
    · intro block reached other loadOther goes failed
      obtain ⟨current, loadCurrent, walk⟩ := follows_reach reached load
      rw [loadOther] at loadCurrent
      obtain rfl := Option.some.inj loadCurrent
      have stuck : LoopNext s goesOn pointer other other := by
        refine ⟨goes, ?_⟩
        unfold btreeNodeReload
        rw [failed]
        rfl
      exact (finishes.reach walk).acyclic (TransGen.single stuck)
    · intro block reached cycle
      obtain ⟨current, loadCurrent, walk⟩ := follows_reach reached load
      obtain ⟨again, loadAgain, loop⟩ := follows_cycle cycle loadCurrent
      rw [loadCurrent] at loadAgain
      rw [← Option.some.inj loadAgain] at loop
      exact (finishes.reach walk).acyclic loop
  · rintro ⟨pointers, acyclic⟩
    have inside : ∀ block, ReflTransGen (Follows s goesOn pointer) start block →
        block ∈ List.range s.totalBlocks := by
      intro block reached
      obtain ⟨_, loadBlock, -⟩ := follows_reach reached load
      exact List.mem_range.mpr (load_eq_some.mp loadBlock).1
    have walks := (within_of_acyclic _ inside acyclic).finishes
    clear acyclic inside
    -- by induction on the walk along the blocks
    induction walks generalizing node with
    | intro block _ ih =>
      apply finishes_of_next
      rintro next ⟨goes, reload⟩
      unfold btreeNodeReload at reload
      cases read : btreeNodeRead s (pointer node) with
      | none =>
        rw [read] at reload
        cases reload
      | some found =>
        cases found with
        | none => exact absurd read (pointers block ReflTransGen.refl node load goes)
        | some child =>
          rw [read] at reload
          obtain rfl := Option.some.inj reload
          have loadChild : btreeNodeLoad s (pointer node) = some child := by
            unfold btreeNodeLoad
            rw [read]
            rfl
          have step : Follows s goesOn pointer block (pointer node) :=
            ⟨node, load, goes, rfl, by rw [loadChild]; rfl⟩
          exact ih _ step loadChild fun later reached =>
            pointers later (ReflTransGen.head step reached)

end

/-- A stored internal node has another B-tree node in a child slot. -/
def ChildPointer (s : Store) (block child : Nat) : Prop :=
  ∃ node, btreeNodeLoad s block = some node ∧ node.isLeaf = false ∧ child ≠ 0 ∧
    (∃ i ≤ node.numKeys, i ≤ maxKeys ∧ node.children i = child) ∧ (btreeNodeLoad s child).isSome

/-- The pointer that `btree_remove_key` follows. -/
def BTreeNode.removeChild (key : Nat) (node : BTreeNode) : Nat := node.children (node.removeIndex key)

/-- What the two descents need of the store. -/
structure DescentsHold (s : Store) (key start : Nat) : Prop where
  /-- The first children that `btree_find_depth` follows are B-tree nodes. -/
  depth : PointersHold s DepthGoesOn (fun node => node.children 0) start
  /-- The children that `btree_remove_key` follows are B-tree nodes. -/
  remove : PointersHold s (RemoveGoesOn s) (BTreeNode.removeChild key) start
  /-- What `btree_remove_key` follows beside child pointers, which is a 0 if block 0 is tagged as a
  B-tree node or a slot past the array if a node has more than `MAX_KEYS` keys, does not lead back. -/
  once : ∀ block child, ReflTransGen (Follows s (RemoveGoesOn s) (BTreeNode.removeChild key)) start block →
    Follows s (RemoveGoesOn s) (BTreeNode.removeChild key) block child → ¬ ChildPointer s block child →
    ¬ ReflTransGen (Follows s (RemoveGoesOn s) (BTreeNode.removeChild key)) child block

section

variable {s : Store} {key start : Nat} {node : BTreeNode}

/-- `btree_find_depth` follows child pointers. -/
theorem Follows.childPointer {block child : Nat}
    (follows : Follows s DepthGoesOn (fun node => node.children 0) block child) :
    ChildPointer s block child := by
  obtain ⟨node, load, ⟨inner, present⟩, isChild, isNode⟩ := follows
  refine ⟨node, load, inner, ?_, ⟨0, Nat.zero_le _, Nat.zero_le _, isChild⟩, isNode⟩
  rw [← isChild]
  exact present

/-- The loop of `btree_find_depth` comes to an end if and only if the first children that it follows
are B-tree nodes. -/
theorem findDepth_finishes_iff (acyclic : ∀ block, ¬ TransGen (ChildPointer s) block block)
    (load : btreeNodeLoad s start = some node) :
    Finishes (FindDepthNext s) node ↔ PointersHold s DepthGoesOn (fun node => node.children 0) start := by
  unfold FindDepthNext
  rw [loop_finishes_iff load]
  constructor
  · intro holds
    exact holds.1
  · intro pointers
    constructor
    · exact pointers
    · intro block _ cycle
      exact acyclic block (TransGen.lift id (fun _ _ follows => Follows.childPointer follows) _ _ cycle)

/-- The loop of `btree_remove_key` comes to an end if and only if the children that it follows are
B-tree nodes and what it follows beside child pointers does not lead back. -/
theorem remove_finishes_iff (acyclic : ∀ block, ¬ TransGen (ChildPointer s) block block)
    (load : btreeNodeLoad s start = some node) :
    Finishes (RemoveNext s key) node ↔
      PointersHold s (RemoveGoesOn s) (BTreeNode.removeChild key) start ∧
      ∀ block child, ReflTransGen (Follows s (RemoveGoesOn s) (BTreeNode.removeChild key)) start block →
        Follows s (RemoveGoesOn s) (BTreeNode.removeChild key) block child →
        ¬ ChildPointer s block child →
        ¬ ReflTransGen (Follows s (RemoveGoesOn s) (BTreeNode.removeChild key)) child block := by
  have loop : RemoveNext s key = LoopNext s (RemoveGoesOn s) (BTreeNode.removeChild key) := rfl
  rw [loop, loop_finishes_iff load]
  constructor
  · rintro ⟨pointers, once⟩
    constructor
    · exact pointers
    · intro block child reached follows _ back
      exact once block reached (TransGen.head' follows back)
  · rintro ⟨pointers, once⟩
    constructor
    · exact pointers
    · intro block reached cycle
      rcases along_or_apart (ChildPointer s) cycle with along | apart
      · exact acyclic block along
      · obtain ⟨here, child, before, follows, noPointer, after⟩ := apart
        exact once here child (reached.trans before) follows noPointer (after.trans before)

/-- Without a cycle of child pointers both descents come to an end if and only if the pointers that
they follow name B-tree nodes. -/
theorem descents_finish_iff (acyclic : ∀ block, ¬ TransGen (ChildPointer s) block block)
    (load : btreeNodeLoad s start = some node) :
    (Finishes (FindDepthNext s) node ∧ Finishes (RemoveNext s key) node) ↔
      DescentsHold s key start := by
  rw [findDepth_finishes_iff acyclic load, remove_finishes_iff acyclic load]
  constructor
  · rintro ⟨depth, remove, once⟩
    exact ⟨depth, remove, once⟩
  · rintro ⟨depth, remove, once⟩
    exact ⟨depth, remove, once⟩

/-- Where the pointers lead down no chain of them is cyclic. -/
theorem acyclic_of_rank (rank : Nat → Nat)
    (falls : ∀ block child, ChildPointer s block child → rank child < rank block) (block : Nat) :
    ¬ TransGen (ChildPointer s) block block := by
  intro cycle
  have lower : ∀ child, TransGen (ChildPointer s) block child → rank child < rank block := by
    intro child chain
    induction chain with
    | single step => exact falls _ _ step
    | tail _ step ih => exact (falls _ _ step).trans ih
  exact lt_irrefl _ (lower block cycle)

/-- In an image of nodes the pointers lead down if those of its nodes do. -/
theorem nodeStore_acyclic {total : Nat} {nodes : List BTreeNode} (rank : Nat → Nat)
    (falls : ∀ node ∈ nodes, node.isLeaf = false → ∀ i ≤ node.numKeys, node.children i ≠ 0 →
      rank (node.children i) < rank node.blockNumber) (block : Nat) :
    ¬ TransGen (ChildPointer (nodeStore total nodes)) block block := by
  refine acyclic_of_rank rank ?_ block
  rintro block child ⟨node, load, inner, present, ⟨i, small, -, rfl⟩, -⟩
  obtain ⟨isNode, rfl⟩ := nodeStore_names load
  exact falls node isNode inner i small present

/-- A root over two nodes, over two leaves and one. -/
def threeLeafNodes : List BTreeNode :=
  [nodeOver 4 0 [(5, some 20), (6, some 30)], nodeOver 5 4 [(2, some 10), (3, some 20)],
    nodeOver 6 4 [(7, some 30)], Leaf.node ⟨2, 10, 0, 0⟩ 5, Leaf.node ⟨3, 20, 0, 0⟩ 5,
    Leaf.node ⟨7, 30, 0, 0⟩ 6]

/-- Its levels. -/
def threeLeafRank (block : Nat) : Nat := if block = 4 then 2 else if block = 5 ∨ block = 6 then 1 else 0

/-- A root whose only child was freed and holds file data now. -/
def reusedStore : Store := nodeStore 8 [nodeOver 4 0 [(2, some 10)]]

/-- Over two nodes both descents come to an end, and their pointers name B-tree nodes. -/
theorem descents_finish_iff_leaves : DescentsHold (nodeStore 8 threeLeafNodes) 30 4 := by
  have root : btreeNodeLoad (nodeStore 8 threeLeafNodes) 4 =
      some (nodeOver 4 0 [(5, some 20), (6, some 30)]) :=
    load_eq_some.mpr ⟨by decide, rfl⟩
  have depth : btreeFindDepthFrom (nodeStore 8 threeLeafNodes) 9
      (nodeOver 4 0 [(5, some 20), (6, some 30)]) = some 2 := by decide
  have descend : removeDescend (nodeStore 8 threeLeafNodes) 30 9
      (nodeOver 4 0 [(5, some 20), (6, some 30)]) =
        some (nodeOver 6 4 [(7, some 30)]) := rfl
  have acyclic := @nodeStore_acyclic 8 threeLeafNodes threeLeafRank (by decide)
  exact (descents_finish_iff acyclic root).mp
    ⟨btreeFindDepthFrom_finishes depth, removeDescend_finishes descend⟩

/-- Over a child that holds file data neither descent comes to an end. -/
theorem descents_reused_false :
    (∀ block, ¬ TransGen (ChildPointer reusedStore) block block) ∧
      ∃ node, btreeNodeLoad reusedStore 4 = some node ∧
        ¬ Finishes (FindDepthNext reusedStore) node ∧ ¬ Finishes (RemoveNext reusedStore 5) node := by
  have root : btreeNodeLoad reusedStore 4 = some (nodeOver 4 0 [(2, some 10)]) :=
    load_eq_some.mpr ⟨by decide, rfl⟩
  have acyclic := @nodeStore_acyclic 8 [nodeOver 4 0 [(2, some 10)]] threeLeafRank (by decide)
  have failed : btreeNodeRead reusedStore 2 = some none := rfl
  refine ⟨acyclic, _, root, ?_, ?_⟩
  · intro finishes
    have pointers := (findDepth_finishes_iff acyclic root).mp finishes
    exact pointers 4 ReflTransGen.refl _ root ⟨rfl, by decide⟩ failed
  · intro finishes
    have pointers := ((remove_finishes_iff acyclic root).mp finishes).1
    have goes : RemoveGoesOn reusedStore (nodeOver 4 0 [(2, some 10)]) :=
      ⟨rfl, none, failed, by simp⟩
    exact pointers 4 ReflTransGen.refl _ root goes failed

end

end Nbtrfs
