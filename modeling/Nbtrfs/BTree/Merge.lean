import Nbtrfs.BTree.Deep
import Nbtrfs.BTree.Lost

/-!
# The merge of two nodes

`btree_merge_children` with the place of its arrays: `children` follows `keys` in the node, so the
assignment to `keys[MAX_KEYS]` goes to `children[0]`. The children of the right node are written to the keys
of the left one, and the first child of the left node is lost.
-/

namespace Nbtrfs

/-- The left node of a merge. Both copy loops assign to `keys`; the last assignment of the second one is
that of `keys[MAX_KEYS]`, which is `children[0]`. -/
def BTreeNode.mergeRight (childA childB : BTreeNode) : BTreeNode :=
  { childA with
    rightSibling := childB.rightSibling
    numKeys := childA.numKeys + (maxKeys - (minKeys + 1))
    keys := fun i => if minKeys + 1 ≤ i ∧ i < maxKeys then childB.children (i - (minKeys + 1))
      else childA.keys i
    children := setAt childA.children 0 (childB.children (maxKeys - (minKeys + 1))) }

/-- The parent of a merge without the right node. The number of keys is a `uint16_t`. -/
def BTreeNode.dropRight (parent : BTreeNode) (index : Nat) : BTreeNode :=
  { parent with
    keys := setAt (shiftDown parent.keys (index + 1) (maxKeys - 1)) (maxKeys - 1) 0
    children := shiftDown parent.children (index + 1) maxKeys
    numKeys := (parent.numKeys + (2 ^ 16 - 1)) % 2 ^ 16 }

/-- The parent keeps its block. -/
theorem BTreeNode.dropRight_blockNumber (parent : BTreeNode) (index : Nat) :
    (parent.dropRight index).blockNumber = parent.blockNumber := by
  unfold BTreeNode.dropRight
  rfl

/-- `btree_merge_children` in memory: the local parent and the store after it. `btree_borrow_left` does not
return -1, so the calls behind its test are not reached. -/
def btreeMergeInPlace (s : Store) (parent : BTreeNode) (index : Nat) : Option (BTreeNode × Store) :=
  let index := if index = maxKeys then index - 1 else index
  if parent.children index = 0 ∨ parent.children (index + 1) = 0 then some (parent, s)
  else do
    let childA ← btreeNodeLoad s (parent.children index)
    let childB ← btreeNodeLoad s (parent.children (index + 1))
    let s ← btreeNodeWrite s (childA.mergeRight childB)
    let parent := parent.dropRight index
    let s ← freePage s childB.blockNumber
    if parent.numKeys < minKeys then
      if parent.parent = 0 then
        if parent.children 1 = 0 then btreePromoteRoot s parent else some (parent, s)
      else do
        let (_, s) ← btreeBorrowLeft s parent
        some (parent, s)
    else some (parent, s)

section

variable {s s' : Store}

/-- A page without a node in the place of one changes no node. -/
theorem load_put_noNode {pnum : Nat} {page : Block} (former : (s.mem pnum).node? = none)
    (noNode : page.node? = none) (block : Nat) :
    btreeNodeLoad (s.put pnum page) block = btreeNodeLoad s block := by
  by_cases same : block = pnum
  · have total : (s.put pnum page).totalBlocks = s.totalBlocks := rfl
    apply load_congr total
    rw [same, Store.put_same, former, noNode]
  · exact load_put_other page same

/-- The decrement of `free_blocks` changes no node. -/
theorem decrementFreeBlocks_load (block : Nat) :
    btreeNodeLoad (decrementFreeBlocks s) block = btreeNodeLoad s block := by
  unfold decrementFreeBlocks
  cases read : superblockRead s with
  | none => rfl
  | some superblock =>
    have page := superblockRead_page read
    have total : (superblockWrite s superblock.decrementFree false).totalBlocks =
        (s.put 0 (.super superblock.decrementFree)).totalBlocks := superblockWrite_totalBlocks _ _ _
    have written : btreeNodeLoad (superblockWrite s superblock.decrementFree false) block =
        btreeNodeLoad (s.put 0 (.super superblock.decrementFree)) block := by
      apply load_congr total
      rw [superblockWrite_mem page]
    rw [written]
    apply load_put_noNode
    · rw [page]
      rfl
    · rfl

/-- `free_page` changes no node. -/
theorem freePage_load {pnum : Nat} (free : freePage s pnum = some s') (block : Nat) :
    btreeNodeLoad s' block = btreeNodeLoad s block := by
  unfold freePage at free
  obtain ⟨page, get, rest⟩ := Option.bind_eq_some_iff.mp free
  obtain rfl := Option.some.inj rest
  have flushed : ∀ store : Store, btreeNodeLoad (store.flush (bitmapPage pnum)) block =
      btreeNodeLoad store block := fun _ => rfl
  rw [flushed, decrementFreeBlocks_load]
  cases page with
  | bitmap words =>
    have isPage : s.mem (bitmapPage pnum) = .bitmap words := by
      unfold Store.get at get
      split at get
      · exact Option.some.inj get
      · cases get
    apply load_put_noNode
    · rw [isPage]
      rfl
    · rfl
  | super | inode | btreeNode | journal | data | untagged => rfl

/-- A node with the parent and the children of another, up to a new parent and emptied slots. -/
structure Looser (parent : Nat) (old changed : BTreeNode) : Prop where
  /-- The parent is the old one or the new one. -/
  parent : changed.parent = old.parent ∨ changed.parent = parent
  /-- A slot is kept or emptied. -/
  children : ∀ i ≤ maxKeys, changed.children i = old.children i ∨ changed.children i = 0

/-- A node is as loose as itself. -/
theorem Looser.refl (parent : Nat) (node : BTreeNode) : Looser parent node node :=
  ⟨Or.inl rfl, fun _ _ => Or.inl rfl⟩

/-- Two changes in a row. -/
theorem Looser.trans {parent : Nat} {first second third : BTreeNode} (before : Looser parent first second)
    (after : Looser parent second third) : Looser parent first third := by
  constructor
  · rcases after.parent with same | new
    · rw [same]
      exact before.parent
    · exact Or.inr new
  · intro i small
    rcases after.children i small with same | empty
    · rw [same]
      exact before.children i small
    · exact Or.inr empty

/-- Every node is a looser one of the same block. -/
structure Loosened (s : Store) (parent : Nat) (s' : Store) : Prop where
  /-- Nodes still name their blocks. -/
  names : NamesBlocks s'
  /-- Each node was there before. -/
  node : ∀ block changed, btreeNodeLoad s' block = some changed →
    ∃ old, btreeNodeLoad s block = some old ∧ Looser parent old changed

/-- Nothing changes. -/
theorem Loosened.of_load {parent : Nat} (names : NamesBlocks s)
    (same : ∀ block, btreeNodeLoad s' block = btreeNodeLoad s block) : Loosened s parent s' := by
  constructor
  · intro block node load
    rw [same] at load
    exact names block node load
  · intro block node load
    rw [same] at load
    exact ⟨node, load, Looser.refl parent node⟩

/-- Two changes in a row. -/
theorem Loosened.trans {s'' : Store} {parent : Nat} (before : Loosened s parent s')
    (after : Loosened s' parent s'') : Loosened s parent s'' := by
  refine ⟨after.names, fun block changed load => ?_⟩
  obtain ⟨middle, loadMiddle, second⟩ := after.node block changed load
  obtain ⟨old, loadOld, first⟩ := before.node block middle loadMiddle
  exact ⟨old, loadOld, first.trans second⟩

/-- The write of a looser node. -/
theorem btreeNodeWrite_loosened {parent : Nat} {old node : BTreeNode} (names : NamesBlocks s)
    (load : btreeNodeLoad s node.blockNumber = some old) (looser : Looser parent old node)
    (write : btreeNodeWrite s node = some s') : Loosened s parent s' := by
  refine ⟨names.write write, fun block changed loadChanged => ?_⟩
  obtain ⟨written, write', change⟩ := btreeNodeWrite_spec load
  obtain rfl := Option.some.inj (write.symm.trans write')
  by_cases same : block = node.blockNumber
  · rw [same, change.here] at loadChanged
    rw [same, ← Option.some.inj loadChanged]
    exact ⟨old, load, looser⟩
  · rw [change.other same] at loadChanged
    exact ⟨changed, loadChanged, Looser.refl parent changed⟩

/-- Re-parenting gives nodes the new parent. -/
theorem reparent_loosened {blocks : List Nat} {parent : Nat} (names : NamesBlocks s)
    (run : reparent s blocks parent = some s') : Loosened s parent s' := by
  induction blocks generalizing s with
  | nil =>
    obtain rfl := Option.some.inj run
    exact .of_load names fun _ => rfl
  | cons block rest ih =>
    unfold reparent at run ih
    rw [List.foldlM_cons] at run
    obtain ⟨middle, first, later⟩ := Option.bind_eq_some_iff.mp run
    have loosened : Loosened s parent middle := by
      by_cases present : block ≠ 0
      · rw [if_pos present] at first
        obtain ⟨child, load, write⟩ := Option.bind_eq_some_iff.mp first
        have number := names block child load
        apply btreeNodeWrite_loosened names _ _ write
        · exact child
        · show btreeNodeLoad s child.blockNumber = some child
          rw [number, load]
        · exact ⟨Or.inr rfl, fun _ _ => Or.inl rfl⟩
      · rw [if_neg present] at first
        obtain rfl := Option.some.inj first
        exact .of_load names fun _ => rfl
    exact loosened.trans (ih loosened.names later)

/-- `btree_borrow_left` empties a slot of the left sibling. -/
theorem btreeBorrowLeft_loosened {node : BTreeNode} {borrowed parent : Nat} (names : NamesBlocks s)
    (run : btreeBorrowLeft s node = some (borrowed, s')) : Loosened s parent s' := by
  unfold btreeBorrowLeft at run
  split at run
  · obtain ⟨-, rfl⟩ := Prod.mk.inj (Option.some.inj run)
    exact .of_load names fun _ => rfl
  · obtain ⟨left, load, rest⟩ := Option.bind_eq_some_iff.mp run
    have number := names _ left load
    split at rest
    · obtain ⟨-, rfl⟩ := Prod.mk.inj (Option.some.inj rest)
      exact .of_load names fun _ => rfl
    · split at rest
      · obtain ⟨written, write, result⟩ := Option.bind_eq_some_iff.mp rest
        obtain ⟨-, rfl⟩ := Prod.mk.inj (Option.some.inj result)
        exact btreeNodeWrite_loosened names (by rw [number, load]) (Looser.refl _ left) write
      · obtain ⟨written, write, result⟩ := Option.bind_eq_some_iff.mp rest
        obtain ⟨-, rfl⟩ := Prod.mk.inj (Option.some.inj result)
        rename_i i found
        apply btreeNodeWrite_loosened names _ _ write
        · exact left
        · show btreeNodeLoad s left.blockNumber = some left
          rw [number, load]
        · refine ⟨Or.inl rfl, fun j _ => ?_⟩
          show setAt left.children i 0 j = left.children j ∨ setAt left.children i 0 j = 0
          unfold setAt
          split
          · exact Or.inr rfl
          · exact Or.inl rfl

/-- Some blocks name parents among them or two nodes outside, one of which has none of them as a child. -/
structure Cut (s : Store) (inner : List Nat) (above top : Nat) : Prop where
  /-- The parents of the blocks. -/
  parents : ∀ block ∈ inner, ∀ node, btreeNodeLoad s block = some node →
    node.parent ∈ inner ∨ node.parent = above ∨ node.parent = top
  /-- The children of the node above them. -/
  slots : ∀ node, btreeNodeLoad s above = some node → ∀ i ≤ maxKeys, node.children i ∉ inner

/-- Blocks stay cut off under looser nodes. -/
theorem Cut.loosened {inner : List Nat} {above top : Nat} (cut : Cut s inner above top)
    (zero : 0 ∉ inner) (loosened : Loosened s top s') : Cut s' inner above top := by
  constructor
  · intro block inside node load
    obtain ⟨old, loadOld, looser⟩ := loosened.node block node load
    rcases looser.parent with same | new
    · rw [same]
      exact cut.parents block inside old loadOld
    · exact Or.inr (Or.inr new)
  · intro node load i small
    obtain ⟨old, loadOld, looser⟩ := loosened.node above node load
    rcases looser.children i small with same | empty
    · rw [same]
      exact cut.slots old loadOld i small
    · rw [empty]
      exact zero

/-- Blocks stay cut off under a write of the second node outside. -/
theorem Cut.writeTop {inner : List Nat} {above top : Nat} {node : BTreeNode}
    (cut : Cut s inner above top) (number : node.blockNumber = top) (outside : top ∉ inner)
    (apart : above ≠ top) (write : btreeNodeWrite s node = some s') : Cut s' inner above top := by
  rcases btreeNodeWrite_cases write with change | ⟨rfl, -⟩
  · rw [number] at change
    constructor
    · intro block inside other load
      have notTop : block ≠ top := by
        rintro rfl
        exact outside inside
      rw [change.other notTop] at load
      exact cut.parents block inside other load
    · intro other load
      rw [change.other apart] at load
      exact cut.slots other load
  · exact cut

/-- No tree below the second node outside has a leaf among blocks that are cut off. -/
theorem Cut.no_leaf {inner : List Nat} {above top depth parent : Nat} {tree : Tree depth}
    (cut : Cut s inner above top) (outside : top ∉ inner)
    (slots : ∀ node, btreeNodeLoad s top = some node → ∀ i ≤ maxKeys, node.children i ∉ inner)
    (stores : Stores s parent tree) (root : tree.block = top) {leaf : Leaf}
    (isLeaf : leaf ∈ tree.leaves) : leaf.block ∉ inner := by
  have lost : Lost s inner fun parent => parent = above ∨ parent = top := by
    constructor
    · exact cut.parents
    · rintro parent (rfl | rfl) node load i small -
      · exact cut.slots node load i small
      · exact slots node load i small
  apply lost.no_leaf _ stores isLeaf
  rwa [root]

section Merge

variable {depth parent block index : Nat} {node : BTreeNode}

/-- The merge of two neighbours keeps the leaves below their parent: the parent is stored again, over a tree
with the same leaves. -/
def MergeKeeps (s : Store) (block index : Nat) (node : BTreeNode) (leaves : List Leaf) : Prop :=
  ∃ merged s' s'', btreeMergeInPlace s node index = some (merged, s') ∧
    btreeNodeWrite s' merged = some s'' ∧ ∃ depth parent, ∃ tree : Tree depth,
      Stores s'' parent tree ∧ tree.block = block ∧ tree.leaves = leaves

/-- A child with a key has a leaf below its first child. -/
theorem Over.first_leaf {first : Tree depth} {rest : List (Tree depth)}
    (stored : Over s block parent node (first :: rest))
    (some_leaf : (overTree block (first :: rest)).leaves ≠ []) : first.leaves ≠ [] := by
  obtain ⟨-, extra, -⟩ := stored.counts
  rcases Nat.eq_zero_or_pos node.numKeys with none | keyed
  · have alone : rest = [] := by
      apply List.eq_nil_of_length_eq_zero
      rw [List.length_cons] at extra
      omega
    rw [alone, overTree_leaves, List.flatMap_singleton] at some_leaf
    exact some_leaf
  · have largest := stored.keyAt keyed (show (first :: rest)[0]? = some first from rfl)
    intro empty
    unfold Tree.maxKey at largest
    rw [empty] at largest
    cases largest

variable {children : List (Tree (depth + 1))} {lefts rights : List (Tree depth)} {first : Tree depth}
  {blockA blockB : Nat} {nodeA nodeB : BTreeNode}

/-- No child of the parent is below the first child of the left node. -/
theorem child_not_below (distinct : (overTree block children).blocks.Nodup)
    (isA : overTree blockA (first :: lefts) ∈ children) :
    ∀ child ∈ children, child.block ∉ first.blocks := by
  intro child isChild below
  have inA : ∀ other ∈ first.blocks, other ∈ (first :: lefts).flatMap Tree.blocks :=
    fun other inside => mem_children_blocks List.mem_cons_self inside
  have distinctBelow : (children.flatMap Tree.blocks).Nodup := (List.nodup_cons.mp distinct).2
  have same := children_apart distinctBelow isChild isA child.block_mem
    (List.mem_cons_of_mem _ (inA _ below))
  have distinctA : (overTree blockA (first :: lefts)).blocks.Nodup :=
    (List.nodup_flatMap.mp distinctBelow).1 _ isA
  rw [same] at below
  exact (List.nodup_cons.mp distinctA).1 (inA _ below)

/-- No child slot of the merged node is below the first child of the left one. -/
theorem mergeRight_slots (distinct : (overTree block children).blocks.Nodup)
    (atA : children[index]? = some (overTree blockA (first :: lefts)))
    (atB : children[index + 1]? = some (overTree blockB rights))
    (storedA : Over s blockA block nodeA (first :: lefts)) (storedB : Over s blockB block nodeB rights)
    (zero : 0 ∉ first.blocks) :
    ∀ i ≤ maxKeys, (nodeA.mergeRight nodeB).children i ∉ first.blocks := by
  have distinctBelow : (children.flatMap Tree.blocks).Nodup := (List.nodup_cons.mp distinct).2
  have isA := List.mem_of_getElem? atA
  have isB := List.mem_of_getElem? atB
  intro i small
  show setAt nodeA.children 0 (nodeB.children (maxKeys - (minKeys + 1))) i ∉ first.blocks
  unfold setAt
  split
  · apply storedB.slots_apart zero (Nat.sub_le _ _)
    intro child atIndex below
    have inB : child.block ∈ (overTree blockB rights).blocks :=
      List.mem_cons_of_mem _ (mem_children_blocks (List.mem_of_getElem? atIndex) child.block_mem)
    have inA : child.block ∈ (overTree blockA (first :: lefts)).blocks :=
      List.mem_cons_of_mem _ (mem_children_blocks List.mem_cons_self below)
    exact children_differ distinctBelow atA atB (by omega)
      (children_apart distinctBelow isA isB inA inB)
  · rename_i notFirst
    have distinctA : (overTree blockA (first :: lefts)).blocks.Nodup :=
      (List.nodup_flatMap.mp distinctBelow).1 _ isA
    have distinctLefts : ((first :: lefts).flatMap Tree.blocks).Nodup := (List.nodup_cons.mp distinctA).2
    apply storedA.slots_apart zero small
    intro child atIndex below
    exact children_differ distinctLefts atIndex (show (first :: lefts)[0]? = some first from rfl) notFirst
      (children_apart distinctLefts (List.mem_of_getElem? atIndex) List.mem_cons_self child.block_mem
        below)

/-- The slots of the parent without the right node are old ones. -/
theorem dropRight_slots {inner : List Nat} (stored : Over s block parent node children) (zero : 0 ∉ inner)
    (apart : ∀ child ∈ children, child.block ∉ inner) :
    ∀ i ≤ maxKeys, (node.dropRight index).children i ∉ inner := by
  intro i small
  show shiftDown node.children (index + 1) maxKeys i ∉ inner
  unfold shiftDown
  split
  · exact stored.slots_apart zero (by omega) fun child atIndex => apart child (List.mem_of_getElem? atIndex)
  · exact stored.slots_apart zero small fun child atIndex => apart child (List.mem_of_getElem? atIndex)

/-- The merge cuts off the blocks below the first child of the left node. -/
theorem btreeMergeInPlace_cut (owned : Owned s (overTree block children).blocks) (names : NamesBlocks s)
    (stored : Over s block parent node children)
    (atA : children[index]? = some (overTree blockA (first :: lefts)))
    (atB : children[index + 1]? = some (overTree blockB rights)) {merged : BTreeNode}
    (run : btreeMergeInPlace s node index = some (merged, s')) :
    Cut s' first.blocks blockA block ∧ merged.blockNumber = block ∧
      ∀ i ≤ maxKeys, merged.children i ∉ first.blocks := by
  have isA := List.mem_of_getElem? atA
  have isB := List.mem_of_getElem? atB
  obtain ⟨slotA, presentA⟩ := stored.slotAt atA
  obtain ⟨slotB, presentB⟩ := stored.slotAt atB
  obtain ⟨nodeA, storedA⟩ := stores_over.mp (stored.below _ isA).2
  obtain ⟨nodeB, storedB⟩ := stores_over.mp (stored.below _ isB).2
  have bound : index + 1 < children.length := (List.getElem?_eq_some_iff.mp atB).1
  obtain ⟨-, extra, fits⟩ := stored.counts
  have distinctBelow : (children.flatMap Tree.blocks).Nodup := (List.nodup_cons.mp owned.distinct).2
  have distinctA : (overTree blockA (first :: lefts)).blocks.Nodup :=
    (List.nodup_flatMap.mp distinctBelow).1 _ isA
  have inA : ∀ other ∈ first.blocks, other ∈ (first :: lefts).flatMap Tree.blocks :=
    fun other inside => mem_children_blocks List.mem_cons_self inside
  have inChildren : ∀ other ∈ (overTree blockA (first :: lefts)).blocks,
      other ∈ children.flatMap Tree.blocks := fun other inside => mem_children_blocks isA inside
  have inAll : ∀ other ∈ first.blocks, other ∈ children.flatMap Tree.blocks :=
    fun other inside => inChildren other (List.mem_cons_of_mem _ (inA other inside))
  have zero : 0 ∉ first.blocks := fun inside =>
    owned.nonzero 0 (List.mem_cons_of_mem _ (inAll 0 inside)) rfl
  have notTop : block ∉ first.blocks := fun inside =>
    (List.nodup_cons.mp owned.distinct).1 (inAll block inside)
  have notA : blockA ∉ first.blocks := fun inside => (List.nodup_cons.mp distinctA).1 (inA _ inside)
  have apart : blockA ≠ block := by
    rintro rfl
    exact (List.nodup_cons.mp owned.distinct).1 (inChildren _ List.mem_cons_self)
  have slots := mergeRight_slots owned.distinct atA atB storedA storedB zero
  have dropped : ∀ i ≤ maxKeys, (node.dropRight index).children i ∉ first.blocks :=
    dropRight_slots stored zero (child_not_below owned.distinct isA)
  have number := (node.dropRight_blockNumber index).trans stored.holds.blockNumber
  have place : (if index = maxKeys then index - 1 else index) = index := if_neg (by omega)
  unfold btreeMergeInPlace at run
  dsimp only at run
  rw [place, slotA, slotB, if_neg (by simpa using ⟨presentA, presentB⟩)] at run
  have loadA : btreeNodeLoad s (overTree blockA (first :: lefts)).block = some nodeA := storedA.load
  have loadB : btreeNodeLoad s (overTree blockB rights).block = some nodeB := storedB.load
  rw [loadA, loadB, Option.bind_eq_bind, Option.bind_some, Option.bind_eq_bind, Option.bind_some] at run
  obtain ⟨s1, write1, run⟩ := Option.bind_eq_some_iff.mp run
  obtain ⟨s2, free, run⟩ := Option.bind_eq_some_iff.mp run
  have numberA : (nodeA.mergeRight nodeB).blockNumber = blockA := storedA.holds.blockNumber
  have names1 := names.write write1
  obtain ⟨written, write1', change⟩ := btreeNodeWrite_at numberA storedA.load
  obtain rfl := Option.some.inj (write1.symm.trans write1')
  have cut1 : Cut s1 first.blocks blockA block := by
    constructor
    · intro other inside otherNode load
      have notHere : other ≠ blockA := by
        rintro rfl
        exact notA inside
      rw [change.other notHere] at load
      have storesFirst := (storedA.below first List.mem_cons_self).2
      rcases storesFirst.parents other inside otherNode load with within | isAbove
      · exact Or.inl within
      · exact Or.inr (Or.inl isAbove)
    · intro otherNode load
      rw [← Option.some.inj (change.here.symm.trans load)]
      exact slots
  have freed : Loosened s1 block s2 := .of_load names1 (freePage_load free)
  have cut2 := cut1.loosened zero freed
  split at run
  · split at run
    · split at run
      · rename_i alone
        have isFirst : index = 0 := by
          by_contra positive
          have kept : (node.dropRight index).children 1 = node.children 1 := by
            show shiftDown node.children (index + 1) maxKeys 1 = node.children 1
            unfold shiftDown
            rw [if_neg (by omega)]
          obtain ⟨second, atSecond⟩ : ∃ child, children[1]? = some child :=
            ⟨_, List.getElem?_eq_getElem (by omega)⟩
          obtain ⟨slot, present⟩ := stored.slotAt atSecond
          rw [kept, slot] at alone
          exact present alone
        subst isFirst
        have onlyChild : (node.dropRight 0).children 0 = blockA := by
          have kept : (node.dropRight 0).children 0 = node.children 0 := by
            show shiftDown node.children 1 maxKeys 0 = node.children 0
            unfold shiftDown
            rw [if_neg (by omega)]
          rw [kept, slotA]
          rfl
        have load2 : btreeNodeLoad s2 blockA = some (nodeA.mergeRight nodeB) := by
          rw [freePage_load free, change.here]
        unfold btreePromoteRoot at run
        rw [onlyChild, load2, Option.bind_eq_bind, Option.bind_some, number] at run
        obtain ⟨s3, write3, run⟩ := Option.bind_eq_some_iff.mp run
        obtain ⟨s4, free4, run⟩ := Option.bind_eq_some_iff.mp run
        obtain ⟨s5, move, run⟩ := Option.bind_eq_some_iff.mp run
        obtain ⟨rfl, rfl⟩ := Prod.mk.inj (Option.some.inj run)
        have names3 := freed.names.write write3
        have cut3 := cut2.writeTop rfl notTop apart write3
        have freed4 : Loosened s3 block s4 := .of_load names3 (freePage_load free4)
        exact ⟨(cut3.loosened zero freed4).loosened zero (reparent_loosened freed4.names move), rfl, slots⟩
      · obtain ⟨rfl, rfl⟩ := Prod.mk.inj (Option.some.inj run)
        exact ⟨cut2, number, dropped⟩
    · obtain ⟨⟨borrowed, s3⟩, borrow, run⟩ := Option.bind_eq_some_iff.mp run
      obtain ⟨rfl, rfl⟩ := Prod.mk.inj (Option.some.inj run)
      exact ⟨cut2.loosened zero (btreeBorrowLeft_loosened freed.names borrow), number, dropped⟩
  · obtain ⟨rfl, rfl⟩ := Prod.mk.inj (Option.some.inj run)
    exact ⟨cut2, number, dropped⟩

/-- The merge of two internal nodes never keeps the leaves below their parent: those below the first child of
the left node are lost. -/
theorem btreeMergeInPlace_loses {childA childB : Tree (depth + 1)}
    (owned : Owned s (overTree block children).blocks) (names : NamesBlocks s)
    (stores : Stores s parent (overTree block children)) (load : btreeNodeLoad s block = some node)
    (atA : children[index]? = some childA) (atB : children[index + 1]? = some childB) :
    ¬ MergeKeeps s block index node (overTree block children).leaves := by
  rintro ⟨merged, s', s'', run, write, newDepth, newParent, tree, storesNew, root, leaves⟩
  obtain ⟨inner, stored⟩ := stores_over.mp stores
  obtain rfl := Option.some.inj (load.symm.trans stored.load)
  obtain ⟨blockA, childrenA⟩ := childA
  obtain ⟨blockB, rights⟩ := childB
  have isA := List.mem_of_getElem? atA
  obtain ⟨nodeA, storedA⟩ := stores_over.mp (stored.below _ isA).2
  have some_leaf : (overTree blockA childrenA).leaves ≠ [] := by
    obtain ⟨-, extra, -⟩ := stored.counts
    have bound : index + 1 < children.length := (List.getElem?_eq_some_iff.mp atB).1
    have largest := stored.keyAt (by omega : index < node.numKeys) atA
    intro empty
    have noKey : Tree.maxKey (overTree blockA childrenA) = none := by
      unfold Tree.maxKey
      rw [empty]
      rfl
    have keyed : Tree.maxKey (overTree blockA childrenA) = some (node.keys index) := largest
    rw [noKey] at keyed
    cases keyed
  obtain ⟨first, lefts, rfl⟩ := List.exists_cons_of_ne_nil (show childrenA ≠ [] by
    rintro rfl
    exact some_leaf rfl)
  obtain ⟨leaf, isLeaf⟩ := List.exists_mem_of_ne_nil _ (storedA.first_leaf some_leaf)
  obtain ⟨cut, number, slots⟩ := btreeMergeInPlace_cut owned names stored atA atB run
  have inA : ∀ other ∈ first.blocks, other ∈ (overTree blockA (first :: lefts)).blocks :=
    fun other inside => List.mem_cons_of_mem _ (mem_children_blocks List.mem_cons_self inside)
  have notTop : block ∉ first.blocks := fun inside =>
    (List.nodup_cons.mp owned.distinct).1 (mem_children_blocks isA (inA block inside))
  have notA : blockA ∉ first.blocks := by
    have distinctA : (overTree blockA (first :: lefts)).blocks.Nodup :=
      (List.nodup_flatMap.mp (List.nodup_cons.mp owned.distinct).2).1 _ isA
    exact fun inside => (List.nodup_cons.mp distinctA).1 (mem_children_blocks List.mem_cons_self inside)
  have apart : blockA ≠ block := by
    rintro rfl
    exact (List.nodup_cons.mp owned.distinct).1 (mem_children_blocks isA List.mem_cons_self)
  have cut' := cut.writeTop number notTop apart write
  have isOld : leaf ∈ (overTree block children).leaves := by
    apply List.mem_flatMap.mpr
    exact ⟨_, isA, List.mem_flatMap.mpr ⟨first, List.mem_cons_self, isLeaf⟩⟩
  rw [← leaves] at isOld
  apply cut'.no_leaf notTop _ storesNew root isOld (Tree.leaf_block_mem isLeaf)
  intro top loadTop
  rcases btreeNodeWrite_cases write with change | ⟨rfl, none⟩
  · rw [number] at change
    rw [← Option.some.inj (change.here.symm.trans loadTop)]
    exact slots
  · rw [number, loadTop] at none
    cases none

/-- The merge of the two nodes over leaves loses a leaf. -/
theorem btreeMergeInPlace_loses_two :
    ¬ MergeKeeps (twoBottoms.image 8) 2 0 (nodeOver 2 0 [(3, some 10), (5, some 20)])
      [⟨4, 10, 0, 0⟩, ⟨6, 20, 0, 0⟩] :=
  @btreeMergeInPlace_loses (twoBottoms.image 8) 0 0 2 0 _
    [(3, [⟨4, 10, 0, 0⟩]), (5, [⟨6, 20, 0, 0⟩])] (3, [⟨4, 10, 0, 0⟩]) (5, [⟨6, 20, 0, 0⟩])
    (Tree.image_owned (by decide) (by decide) (by decide) (by decide))
    (fun _ _ load => (nodeStore_names load).2) (Tree.image_stores twoBottoms_fits (by decide) (by decide))
    (load_eq_some.mpr ⟨by decide, rfl⟩) rfl rfl

/-- After the merge of the two nodes over leaves, the key of the first leaf is not found. -/
theorem btreeMergeInPlace_false :
    ¬ ∀ (s : Store) (depth parent block index : Nat) (node : BTreeNode) (children : List (Tree (depth + 1)))
      (childA childB : Tree (depth + 1)), Owned s (overTree block children).blocks → NamesBlocks s →
      Stores s parent (overTree block children) → btreeNodeLoad s block = some node →
      children[index]? = some childA → children[index + 1]? = some childB →
      (Prod.snd childA).length + (Prod.snd childB).length ≤ maxKeys + 1 →
      MergeKeeps s block index node (overTree block children).leaves := by
  intro claim
  obtain ⟨merged, s', s'', run, write, depth, parent, tree, stores, root, leaves⟩ :=
    claim (twoBottoms.image 8) 0 0 2 0 (nodeOver 2 0 [(3, some 10), (5, some 20)])
      [(3, [⟨4, 10, 0, 0⟩]), (5, [⟨6, 20, 0, 0⟩])] (3, [⟨4, 10, 0, 0⟩]) (5, [⟨6, 20, 0, 0⟩])
      (Tree.image_owned (by decide) (by decide) (by decide) (by decide))
      (fun _ _ load => (nodeStore_names load).2) (Tree.image_stores twoBottoms_fits (by decide) (by decide))
      (load_eq_some.mpr ⟨by decide, rfl⟩) rfl rfl (by decide)
  have lost : ((btreeMergeInPlace (twoBottoms.image 8) (nodeOver 2 0 [(3, some 10), (5, some 20)]) 0).bind
      fun result => (btreeNodeWrite result.2 result.1).bind fun s => btreeSearch s 2 10) = some 0 := by
    decide +kernel
  rw [run, Option.bind_some, write, Option.bind_some] at lost
  have leaves' : tree.leaves = [⟨4, 10, 0, 0⟩, ⟨6, 20, 0, 0⟩] := leaves
  have isLeaf : (⟨4, 10, 0, 0⟩ : Leaf) ∈ tree.leaves := by
    rw [leaves']
    exact List.mem_cons_self
  have found := btreeSearchFrom_leaf tree parent s''.walkFuel stores
    (by rw [leaves']; simp [Increasing]) (stores.depth_lt_total (List.ne_nil_of_mem isLeaf)) isLeaf
  rw [root] at found
  have search : btreeSearch s'' 2 10 = some 4 := found
  rw [search] at lost
  cases lost

end Merge

end

end Nbtrfs
