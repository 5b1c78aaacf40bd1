import Nbtrfs.BTree.Delete

/-!
# Insertion into a node over leaves

What `btree_insert_nonfull` does to a node whose children are leaves, and what the searches for
maxima and for the place of a new key return there. The new leaf goes before the first greater
one, but never behind the last child of a node that has one child more than keys.
-/

namespace Nbtrfs

section

variable {s s' : Store}

/-- Only the nodes of the given blocks change, and the bitmap is kept. -/
structure ChangesOnly (s : Store) (blocks : List Nat) (s' : Store) : Prop where
  /-- The other nodes load as before. -/
  other : ∀ block, block ∉ blocks → btreeNodeLoad s' block = btreeNodeLoad s block
  /-- The bitmap is kept. -/
  bitmap : SameBitmap s s'

/-- A change of one node. -/
theorem NodeChange.changesOnly {block : Nat} {node : BTreeNode}
    (change : NodeChange s block node s') : ChangesOnly s [block] s' :=
  ⟨fun _ outside => change.other (List.ne_of_not_mem_cons outside), change.sameBitmap⟩

/-- A node that is written again changes nothing. -/
theorem NodeChange.changesNothing {block : Nat} {node : BTreeNode} (change : NodeChange s block node s')
    (load : btreeNodeLoad s block = some node) : ChangesOnly s [] s' := by
  refine ⟨fun other _ => ?_, change.sameBitmap⟩
  by_cases same : other = block
  · rw [same, change.here, load]
  · exact change.other same

/-- Nothing changes. -/
theorem ChangesOnly.refl (s : Store) (blocks : List Nat) : ChangesOnly s blocks s :=
  ⟨fun _ _ => rfl, SameBitmap.refl s⟩

/-- Two changes inside the same blocks. -/
theorem ChangesOnly.trans {s'' : Store} {blocks first second : List Nat}
    (before : ChangesOnly s first s') (after : ChangesOnly s' second s'')
    (insideFirst : first ⊆ blocks) (insideSecond : second ⊆ blocks) :
    ChangesOnly s blocks s'' := by
  refine ⟨fun block outside => ?_, before.bitmap.trans after.bitmap⟩
  rw [after.other block fun inside => outside (insideSecond inside),
    before.other block fun inside => outside (insideFirst inside)]

/-- The children of a node over leaves, with their largest keys. -/
def leafChildren (leaves : List Leaf) : List (Nat × Option Nat) :=
  leaves.map fun leaf => (leaf.block, some leaf.key)

/-- A stored leaf under a parent. -/
def StoresLeaf (s : Store) (parent : Nat) (leaf : Leaf) : Prop :=
  ∃ node, btreeNodeLoad s leaf.block = some node ∧ LeafNode node leaf parent

/-- A stored node over leaves. -/
structure OverLeaves (s : Store) (block parent : Nat) (node : BTreeNode) (leaves : List Leaf) :
    Prop where
  /-- The block loads the node. -/
  load : btreeNodeLoad s block = some node
  /-- The node has the leaves as its children. -/
  holds : InnerNode node block parent (leafChildren leaves)
  /-- The leaves are stored. -/
  below : ∀ leaf ∈ leaves, leaf.block ≠ 0 ∧ StoresLeaf s block leaf

/-- A tree of depth 1 is stored as a node over leaves. -/
theorem stores_flatTree {block parent : Nat} {leaves : List Leaf} :
    Stores s parent (flatTree block leaves) ↔ ∃ node, OverLeaves s block parent node leaves := by
  constructor
  · rintro ⟨⟨node, load, holds⟩, below⟩
    exact ⟨node, load, holds, below⟩
  · rintro ⟨node, load, holds, below⟩
    exact ⟨⟨node, load, holds⟩, below⟩

/-- A node over leaves has at least as many leaves as keys and at most one more. -/
theorem OverLeaves.counts {block parent : Nat} {node : BTreeNode} {leaves : List Leaf}
    (stored : OverLeaves s block parent node leaves) :
    node.numKeys ≤ leaves.length ∧ leaves.length ≤ node.numKeys + 1 ∧ node.numKeys ≤ maxKeys := by
  have enough := stored.holds.enough
  have extra := stored.holds.extra
  unfold leafChildren at enough extra
  rw [List.length_map] at enough extra
  exact ⟨enough, extra, stored.holds.fits⟩

/-- A slot of a node over leaves. -/
theorem OverLeaves.slot {block parent : Nat} {node : BTreeNode} {leaves : List Leaf}
    (stored : OverLeaves s block parent node leaves) (i : Nat) (small : i ≤ maxKeys) :
    node.children i = (leaves[i]?.elim 0 Leaf.block) := by
  rw [stored.holds.slots i small, leafChildren, List.getElem?_map]
  cases leaves[i]? <;> rfl

/-- A slot that is not empty has a stored leaf. -/
theorem OverLeaves.leafAt {block parent : Nat} {node : BTreeNode} {leaves : List Leaf}
    (stored : OverLeaves s block parent node leaves) {i : Nat} {leaf : Leaf}
    (small : i ≤ maxKeys) (atIndex : leaves[i]? = some leaf) :
    node.children i = leaf.block ∧ leaf.block ≠ 0 ∧ StoresLeaf s block leaf := by
  refine ⟨?_, stored.below leaf (List.mem_of_getElem? atIndex)⟩
  rw [stored.slot i small, atIndex]
  rfl

/-- Nodes over leaves stay stored under a change of other nodes. -/
theorem OverLeaves.congr {block parent : Nat} {node : BTreeNode} {leaves : List Leaf}
    (stored : OverLeaves s block parent node leaves)
    (here : btreeNodeLoad s' block = btreeNodeLoad s block)
    (there : ∀ leaf ∈ leaves, btreeNodeLoad s' leaf.block = btreeNodeLoad s leaf.block) :
    OverLeaves s' block parent node leaves := by
  refine ⟨here.trans stored.load, stored.holds, fun leaf inside => ?_⟩
  obtain ⟨nonzero, child, load, holds⟩ := stored.below leaf inside
  exact ⟨nonzero, child, (there leaf inside).trans load, holds⟩

/-- The last accepted index of a range. -/
theorem find?_reverse_range {accept : Nat → Bool} {bound last : Nat} (inside : last < bound)
    (accepted : accept last = true) (later : ∀ i, last < i → i < bound → accept i = false) :
    (List.range bound).reverse.find? accept = some last := by
  induction bound with
  | zero => omega
  | succ bound ih =>
    rw [List.range_succ, List.reverse_append, List.reverse_singleton, List.singleton_append,
      List.find?_cons]
    by_cases here : last = bound
    · rw [← here, accepted]
    · rw [later bound (by omega) (by omega)]
      exact ih (by omega) fun i after below => later i after (by omega)

/-- The last child of a node is its last child block. -/
theorem InnerNode.lastChild_eq {node : BTreeNode} {block parent : Nat}
    {children : List (Nat × Option Nat)} (holds : InnerNode node block parent children)
    (nonzero : ∀ child ∈ children, child.1 ≠ 0) :
    node.lastChild = children.getLast?.map Prod.fst := by
  have fits := holds.fits
  have extra := holds.extra
  unfold BTreeNode.lastChild
  cases children with
  | nil =>
    have none : ((List.range (node.numKeys + 1)).reverse.find? fun i => node.children i ≠ 0) =
        none := by
      rw [List.find?_eq_none]
      intro i inside
      have small := List.mem_range.mp (List.mem_reverse.mp inside)
      have slot := holds.slots i (by omega)
      simpa using slot
    rw [none]
    rfl
  | cons first rest =>
    have slotLast := holds.slots rest.length (by
      rw [List.length_cons] at extra
      omega)
    have last : (first :: rest)[rest.length]? = (first :: rest).getLast? := by
      rw [List.getLast?_eq_getElem?]
      rfl
    obtain ⟨child, isLast⟩ : ∃ child, (first :: rest).getLast? = some child :=
      ⟨_, List.getLast?_eq_some_getLast (List.cons_ne_nil _ _)⟩
    rw [last, isLast] at slotLast
    have slotLast' : node.children rest.length = child.1 := slotLast
    have nonzeroLast := nonzero child (List.mem_of_getLast? isLast)
    have found : ((List.range (node.numKeys + 1)).reverse.find? fun i => node.children i ≠ 0) =
        some rest.length := by
      rw [List.length_cons] at extra
      apply find?_reverse_range (by omega)
      · rw [slotLast']
        exact decide_eq_true nonzeroLast
      · intro i after below
        have slot := holds.slots i (by omega)
        rw [List.getElem?_eq_none (by
          rw [List.length_cons]
          omega)] at slot
        have empty : node.children i = 0 := slot
        rw [empty]
        rfl
    rw [found, isLast]
    exact congrArg some slotLast'

/-- The maximum of a leaf is its key. -/
theorem btreeFindMaximum_leaf {parent : Nat} {leaf : Leaf} (stored : StoresLeaf s parent leaf) :
    btreeFindMaximum s leaf.block = some leaf.key := by
  obtain ⟨node, load, holds⟩ := stored
  simp [btreeFindMaximum, Store.walkFuel, btreeFindMaximumFrom, load, holds.isLeaf, holds.key]

/-- The largest key of increasing leaves, 0 for none. -/
def lastKey (leaves : List Leaf) : Nat := (leaves.getLast?.map Leaf.key).getD 0

/-- The maximum of a node over leaves is the key of the last one, or 0. -/
theorem btreeFindMaximum_overLeaves {block parent : Nat} {node : BTreeNode} {leaves : List Leaf}
    (stored : OverLeaves s block parent node leaves) :
    btreeFindMaximum s block = some (lastKey leaves) := by
  have inside := (load_eq_some.mp stored.load).1
  obtain ⟨fuel, enough⟩ : ∃ fuel, s.walkFuel = fuel + 2 := ⟨s.totalBlocks - 1, by
    unfold Store.walkFuel
    omega⟩
  have last : node.lastChild = leaves.getLast?.map Leaf.block := by
    rw [stored.holds.lastChild_eq, leafChildren, List.getLast?_map, Option.map_map]
    · rfl
    · intro child isChild
      obtain ⟨leaf, isLeaf, rfl⟩ := List.mem_map.mp isChild
      exact (stored.below leaf isLeaf).1
  unfold btreeFindMaximum lastKey
  rw [enough, btreeFindMaximumFrom]
  simp only [stored.load, Option.bind_eq_bind, Option.bind_some, stored.holds.isLeaf,
    Bool.false_eq_true, if_false, last]
  cases isLast : leaves.getLast? with
  | none => rfl
  | some leaf =>
    obtain ⟨-, child, load, holds⟩ := stored.below leaf (List.mem_of_getLast? isLast)
    simp [btreeFindMaximumFrom, load, holds.isLeaf, holds.key]

/-- The position loop stops behind the leaves with smaller keys. -/
theorem insertPosition_overLeaves {block parent key : Nat} {node : BTreeNode}
    {before after : List Leaf} (stored : OverLeaves s block parent node (before ++ after))
    (smaller : ∀ leaf ∈ before, leaf.key < key) (greater : ∀ leaf ∈ after, key < leaf.key)
    (left j : Nat) (whole : j + left = node.numKeys + 1) :
    insertPosition s node key left j (min j before.length) = some before.length := by
  obtain ⟨-, extra, fits⟩ := stored.counts
  rw [List.length_append] at extra
  induction left generalizing j with
  | zero =>
    rw [insertPosition, Nat.min_eq_right (by omega)]
  | succ left ih =>
    rw [insertPosition]
    cases atIndex : (before ++ after)[j]? with
    | none =>
      have outside := List.getElem?_eq_none_iff.mp atIndex
      rw [List.length_append] at outside
      rw [stored.slot j (by omega), atIndex, Nat.min_eq_right (by omega)]
      rfl
    | some leaf =>
      obtain ⟨slot, nonzero, child, load, holds⟩ := stored.leafAt (by omega) atIndex
      have next : (if child.key < key then j + 1 else min j before.length) =
          min (j + 1) before.length := by
        rw [holds.key]
        by_cases isBefore : j < before.length
        · rw [List.getElem?_append_left isBefore] at atIndex
          rw [if_pos (smaller leaf (List.mem_of_getElem? atIndex)), Nat.min_eq_left (by omega)]
        · rw [List.getElem?_append_right (by omega)] at atIndex
          have large := greater leaf (List.mem_of_getElem? atIndex)
          rw [if_neg (by omega), Nat.min_eq_right (by omega), Nat.min_eq_right (by omega)]
      rw [slot, if_pos nonzero, load, Option.bind_eq_bind, Option.bind_some, holds.isLeaf,
        if_pos rfl, Option.bind_eq_bind, Option.bind_some, next]
      exact ih (j + 1) (by omega)

/-- A node with room, with a child and its largest key put at a place. -/
def BTreeNode.withChild (node : BTreeNode) (place child key : Nat) : BTreeNode :=
  { node with
    children := setAt (shiftUp node.children place (node.numKeys + 1)) place child
    keys := setAt (shiftUp node.keys place node.numKeys) place key
    numKeys := node.numKeys + 1 }

/-- A child is put among the children. -/
theorem InnerNode.withChild {node : BTreeNode} {block parent place child key : Nat}
    {children : List (Nat × Option Nat)} (holds : InnerNode node block parent children)
    (room : node.numKeys < maxKeys) (inside : place ≤ node.numKeys) :
    InnerNode (node.withChild place child key) block parent
      (children.insertIdx place (child, some key)) := by
  have enough := holds.enough
  have extra := holds.extra
  have length := List.length_insertIdx_of_le_length (Nat.le_trans inside enough)
    ((child, some key) : Nat × Option Nat)
  refine ⟨holds.isLeaf, holds.blockNumber, holds.parent, room, ?_, ?_, ?_, ?_⟩
  · show node.numKeys + 1 ≤ _
    omega
  · show _ ≤ node.numKeys + 1 + 1
    omega
  · intro i small
    have small' : i < node.numKeys + 1 := small
    show _ = some (setAt (shiftUp node.keys place node.numKeys) place key i)
    rw [List.getElem?_insertIdx]
    unfold setAt shiftUp
    rcases Nat.lt_trichotomy i place with less | same | more
    · rw [if_pos less, if_neg (by omega), if_neg (by omega)]
      exact holds.keys i (by omega)
    · rw [if_neg (by omega), if_pos same, if_pos (by omega), if_pos same]
      rfl
    · rw [if_neg (by omega), if_neg (by omega), if_neg (by omega), if_pos (by omega)]
      exact holds.keys (i - 1) (by omega)
  · intro i small
    show setAt (shiftUp node.children place (node.numKeys + 1)) place child i = _
    rw [List.getElem?_insertIdx]
    unfold setAt shiftUp
    rcases Nat.lt_trichotomy i place with less | same | more
    · rw [if_neg (by omega), if_neg (by omega), if_pos less]
      exact holds.slots i small
    · rw [if_pos same, if_neg (by omega), if_pos same, if_pos (by omega)]
      rfl
    · rw [if_neg (by omega)]
      by_cases shifted : i ≤ node.numKeys + 1
      · rw [if_pos (by omega), if_neg (by omega), if_neg (by omega)]
        exact holds.slots (i - 1) (by omega)
      · rw [if_neg (by omega), if_neg (by omega), if_neg (by omega), holds.slots i small, List.getElem?_eq_none (by omega),
          List.getElem?_eq_none (by omega)]

/-- The list of a node's children after an insertion. -/
theorem leafChildren_insertIdx (leaves : List Leaf) (place : Nat) (leaf : Leaf) :
    leafChildren (leaves.insertIdx place leaf) =
      (leafChildren leaves).insertIdx place (leaf.block, some leaf.key) := by
  unfold leafChildren
  rw [List.map_insertIdx]

/-- A leaf is added to a node over leaves. -/
structure LeafAdded (s : Store) (block parent : Nat) (leaves : List Leaf) (place : Nat)
    (leaf : Leaf) (node : BTreeNode) (s' : Store) : Prop where
  /-- The leaf is among the node's leaves. -/
  stored : OverLeaves s' block parent node (leaves.insertIdx place leaf)
  /-- Nothing else changes. -/
  changes : ChangesOnly s [leaf.block, block] s'

/-- Setting the parent of a spare leaf and writing the node that has it adds the leaf. -/
theorem leafAdded_of_writes {s'' : Store} {block parent place : Nat} {node changed leafOld : BTreeNode}
    {leaves : List Leaf} {leaf : Leaf} {leafParent : Nat}
    (stored : OverLeaves s block parent node leaves)
    (fresh : LeafNode leafOld leaf leafParent) (nonzero : leaf.block ≠ 0)
    (distinct : (block :: (leaf :: leaves).map Leaf.block).Nodup)
    (first : NodeChange s leaf.block { leafOld with parent := block } s')
    (second : NodeChange s' block changed s'')
    (holds : InnerNode changed block parent (leafChildren (leaves.insertIdx place leaf))) :
    LeafAdded s block parent leaves place leaf changed s'' := by
  rw [List.map_cons, List.nodup_cons, List.nodup_cons] at distinct
  obtain ⟨notBlock, notLeaf, -⟩ := distinct
  have apart : leaf.block ≠ block := by
    intro same
    exact notBlock (by rw [same]; exact List.mem_cons_self)
  refine ⟨⟨second.here, holds, fun other inside => ?_⟩, ?_⟩
  · by_cases isLeaf : other = leaf
    · subst isLeaf
      refine ⟨nonzero, _, (second.other apart).trans first.here, ?_⟩
      exact ⟨fresh.isLeaf, fresh.blockNumber, fresh.key, fresh.value, fresh.type, rfl⟩
    · have old : other ∈ leaves :=
        (List.eq_or_mem_of_mem_insertIdx inside).resolve_left isLeaf
      have inBlocks : other.block ∈ leaves.map Leaf.block := List.mem_map_of_mem old
      have notHere : other.block ≠ block := by
        intro same
        exact notBlock (List.mem_cons_of_mem _ (same ▸ inBlocks))
      have notThere : other.block ≠ leaf.block := fun same => notLeaf (same ▸ inBlocks)
      obtain ⟨nonzeroOld, child, load, isLeafNode⟩ := stored.below other old
      refine ⟨nonzeroOld, child, ?_, isLeafNode⟩
      rw [second.other notHere, first.other notThere, load]
  · exact first.changesOnly.trans second.changesOnly (List.cons_subset_cons _ (List.nil_subset _))
      (List.subset_cons_self _ _)

/-- A node with one key more. -/
structure Enlarged (node changed : BTreeNode) : Prop where
  /-- There is one key more. -/
  numKeys : changed.numKeys = node.numKeys + 1
  /-- The fields beside the arrays are kept. -/
  head : SameHead node changed

/-- `btree_insert_nonfull` and the write of the node, with room in the node. -/
theorem btreeInsertNonfull_spec {block parent leafParent : Nat} {node : BTreeNode}
    {before after : List Leaf} {leaf : Leaf}
    (stored : OverLeaves s block parent node (before ++ after))
    (fresh : StoresLeaf s leafParent leaf) (nonzero : leaf.block ≠ 0)
    (distinct : (block :: (leaf :: (before ++ after)).map Leaf.block).Nodup)
    (room : node.numKeys < maxKeys) (smaller : ∀ other ∈ before, other.key < leaf.key)
    (greater : ∀ other ∈ after, leaf.key < other.key) :
    ∃ changed s' s'', btreeInsertNonfull s node leaf.block = some (changed, s') ∧
      btreeNodeWrite s' changed = some s'' ∧ Enlarged node changed ∧
      LeafAdded s block parent (before ++ after) (min before.length node.numKeys) leaf changed
        s'' := by
  obtain ⟨leafOld, loadLeaf, holdsLeaf⟩ := fresh
  have position := insertPosition_overLeaves stored smaller greater (node.numKeys + 1) 0 (by omega)
  rw [Nat.zero_min] at position
  have maximum := btreeFindMaximum_leaf ⟨leafOld, loadLeaf, holdsLeaf⟩
  have blockNumber := stored.holds.blockNumber
  obtain ⟨s', modify, first⟩ := btreeNodeModify_spec loadLeaf
    fun node => { node with parent := block }
  have apart : block ≠ leaf.block := by
    intro same
    exact (List.nodup_cons.mp distinct).1 (by rw [same, List.map_cons]; exact List.mem_cons_self)
  have holds := @InnerNode.withChild _ _ _ _ leaf.block leaf.key _ stored.holds room
    (Nat.min_le_right before.length node.numKeys)
  rw [← leafChildren_insertIdx] at holds
  obtain ⟨s'', write, second⟩ :=
    btreeNodeWrite_at holds.blockNumber ((first.other apart).trans stored.load)
  refine ⟨_, s', s'', ?_, write, ⟨rfl, rfl, rfl, rfl, rfl⟩,
    leafAdded_of_writes stored holdsLeaf nonzero distinct first second holds⟩
  have notFull : ¬ maxKeys ≤ node.numKeys := by omega
  simp [btreeInsertNonfull, stored.holds.isLeaf, loadLeaf, holdsLeaf.key, position, notFull,
    holdsLeaf.blockNumber, maximum, blockNumber, modify, BTreeNode.withChild]

/-- A full node with a child in its last slot. -/
def BTreeNode.withLast (node : BTreeNode) (child : Nat) : BTreeNode :=
  { node with children := setAt node.children maxKeys child }

/-- A child is put in the free last slot of a full node. -/
theorem InnerNode.withLast {node : BTreeNode} {block parent child key : Nat}
    {children : List (Nat × Option Nat)} (holds : InnerNode node block parent children)
    (full : node.numKeys = maxKeys) (length : children.length = maxKeys) :
    InnerNode (node.withLast child) block parent
      (children.insertIdx maxKeys (child, some key)) := by
  rw [← length, List.insertIdx_length_self]
  refine ⟨holds.isLeaf, holds.blockNumber, holds.parent, holds.fits, ?_, ?_, ?_, ?_⟩
  · show node.numKeys ≤ _
    rw [List.length_append]
    omega
  · show _ ≤ node.numKeys + 1
    rw [List.length_append, List.length_singleton]
    omega
  · intro i small
    have small' : i < node.numKeys := small
    rw [List.getElem?_append_left (by omega)]
    exact holds.keys i small
  · intro i small
    show setAt node.children maxKeys child i = _
    unfold setAt
    by_cases last : i = maxKeys
    · rw [if_pos last, last, ← length, List.getElem?_concat_length]
      rfl
    · rw [if_neg last, List.getElem?_append_left (by omega)]
      exact holds.slots i small

/-- The extra child of a full node. -/
theorem extraChild_spec {block parent leafParent : Nat} {node : BTreeNode} {leaves : List Leaf}
    {leaf : Leaf} (stored : OverLeaves s block parent node leaves)
    (fresh : StoresLeaf s leafParent leaf) (nonzero : leaf.block ≠ 0)
    (distinct : (block :: (leaf :: leaves).map Leaf.block).Nodup)
    (full : node.numKeys = maxKeys) (length : leaves.length = maxKeys) :
    ∃ s' s'', btreeNodeModify s leaf.block (fun page => { page with parent := block }) = some s' ∧
      btreeNodeWrite s' (node.withLast leaf.block) = some s'' ∧
      LeafAdded s block parent leaves maxKeys leaf (node.withLast leaf.block) s'' := by
  obtain ⟨leafOld, loadLeaf, holdsLeaf⟩ := fresh
  obtain ⟨s', modify, first⟩ := btreeNodeModify_spec loadLeaf
    fun node => { node with parent := block }
  have apart : block ≠ leaf.block := by
    intro same
    exact (List.nodup_cons.mp distinct).1 (by rw [same, List.map_cons]; exact List.mem_cons_self)
  have length' : (leafChildren leaves).length = maxKeys := by
    unfold leafChildren
    rw [List.length_map, length]
  have holds := @InnerNode.withLast _ _ _ leaf.block leaf.key _ stored.holds full length'
  rw [← leafChildren_insertIdx] at holds
  obtain ⟨s'', write, second⟩ :=
    btreeNodeWrite_at holds.blockNumber ((first.other apart).trans stored.load)
  exact ⟨s', s'', modify, write,
    leafAdded_of_writes stored holdsLeaf nonzero distinct first second holds⟩

end

end Nbtrfs
