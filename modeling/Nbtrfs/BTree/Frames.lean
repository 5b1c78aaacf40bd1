import Nbtrfs.BTree.Over

/-!
# What the operations leave alone

The nodes that each part of an insertion keeps, read off its run. Nothing is assumed of the tree, so this
also holds between two steps, where the pages hold no tree.
-/

namespace Nbtrfs

/-- A choice in front of a continuation. -/
theorem bind_ite {α β : Type} {c : Prop} [Decidable c] (first second : Option α)
    (next : α → Option β) :
    (if c then first else second).bind next = if c then first.bind next else second.bind next := by
  split
  · rfl
  · rfl

/-- `btree_split_child` without the join of its branches. -/
theorem btreeSplitChild_eq (fuel : Nat) (s : Store) (node : BTreeNode) (index : Nat)
    (child : BTreeNode) :
    btreeSplitChild (fuel + 1) s node index child =
      (btreeNodeNew s false).bind fun (childB, s) =>
      (btreeNodeModify s childB fun fresh => { fresh with
        parent := node.blockNumber
        leftSibling := child.blockNumber
        keys := copyFrom fresh.keys child.keys (minKeys + 1) (child.numKeys - (minKeys + 1))
        children := copyFrom fresh.children child.children (minKeys + 1) (child.numKeys - minKeys)
        numKeys := fresh.numKeys + (child.numKeys - (minKeys + 1)) }).bind fun s =>
      (reparent s ((indices (minKeys + 1) (child.numKeys + 1)).map child.children) childB).bind
        fun s =>
      let child := { child with
        rightSibling := childB
        keys := clearRange child.keys minKeys (max child.numKeys (minKeys + 1))
        children := clearRange child.children (minKeys + 1) (child.numKeys + 1)
        numKeys := minKeys }
      if node.numKeys < maxKeys then
        (btreeFindMaximum s childB).bind fun maxKey =>
        (linkChild s { node with keys := setAt node.keys index maxKey } index childB).bind fun node =>
        some (node, child, s)
      else
        (if node.parent ≠ 0 then
          (btreeNodeLoad s node.parent).bind fun grandparent =>
          (btreeSplitChild fuel s grandparent
            (firstIndex (fun i => grandparent.children i == node.blockNumber)
              (grandparent.numKeys + 1)) node).bind fun (grandparent, node, s) =>
          (btreeNodeWrite s grandparent).bind fun s => some (node, s)
        else btreeSplitRoot s node).bind fun (node, s) =>
        (btreeNodeLoad s child.parent).bind fun currentParent =>
        (if currentParent.numKeys < maxKeys then
          linkChild s currentParent (firstIndex
            (fun i => currentParent.children i == child.blockNumber)
            (currentParent.numKeys + 1)) childB
        else some currentParent).bind fun currentParent =>
        (btreeNodeWrite s child).bind fun s =>
        (btreeNodeWrite s currentParent).bind fun s => some (node, child, s) := by
  rw [btreeSplitChild]
  simp only [bind_ite, Option.bind_assoc]
  rfl

/-- `btree_insert` without the join of its branches. -/
theorem btreeInsert_eq (s : Store) (rootBlock key value type : Nat) :
    btreeInsert s rootBlock key value type =
      (btreeNodeNew s true).bind fun (page, s) =>
      (btreeNodeModify s page fun node => { node with key, value, type }).bind fun s =>
      (btreeInsertionSearch s rootBlock key).bind fun targetBlock =>
      (btreeNodeLoad s targetBlock).bind fun target =>
      if target.numKeys = maxKeys then
        if target.keys (maxKeys - 1) < key ∧ target.children maxKeys = 0 then
          (btreeNodeModify s page fun node => { node with parent := target.blockNumber }).bind
            fun s =>
          (btreeNodeWrite s { target with
            children := setAt target.children maxKeys page }).bind fun s =>
          btreeUpdateParentKeys s { target with children := setAt target.children maxKeys page }
        else
          (if target.parent ≠ 0 then
            (btreeNodeLoad s target.parent).bind fun parent =>
            (btreeFindMaximum s target.blockNumber).bind fun maxKey =>
            (btreeSplitChild s.walkFuel s parent (keyIndex parent.keys maxKey) target).bind
              fun (_, _, s) => some s
          else (btreeSplitRoot s target).bind fun (_, s) => some s).bind fun s =>
          (btreeInsertionSearch s rootBlock key).bind fun targetBlock =>
          (btreeNodeLoad s targetBlock).bind fun target => insertInto s target page
      else insertInto s target page := by
  unfold btreeInsert
  simp only [bind_ite, Option.bind_assoc]
  rfl

/-- Every node names the block of its page. -/
def NamesBlocks (s : Store) : Prop :=
  ∀ block node, btreeNodeLoad s block = some node → node.blockNumber = block

section

variable {s s' : Store}

/-- A write of a node puts it in its page, if there is a node there, and changes nothing else. -/
theorem btreeNodeWrite_cases {node : BTreeNode} (write : btreeNodeWrite s node = some s') :
    NodeChange s node.blockNumber node s' ∨ s' = s ∧ btreeNodeLoad s node.blockNumber = none := by
  cases load : btreeNodeLoad s node.blockNumber with
  | some old =>
    obtain ⟨written, write', change⟩ := btreeNodeWrite_spec load
    obtain rfl := Option.some.inj (write.symm.trans write')
    exact Or.inl change
  | none =>
    right
    unfold btreeNodeWrite at write
    obtain ⟨page, get, rest⟩ := Option.bind_eq_some_iff.mp write
    have noNode : page.node? = none := by
      unfold btreeNodeLoad btreeNodeRead at load
      rw [get] at load
      exact load
    rw [noNode] at rest
    exact ⟨(Option.some.inj rest).symm, rfl⟩

/-- A write keeps the blocks that nodes name. -/
theorem NamesBlocks.write {node : BTreeNode} (names : NamesBlocks s)
    (write : btreeNodeWrite s node = some s') : NamesBlocks s' := by
  rcases btreeNodeWrite_cases write with change | ⟨rfl, -⟩
  · intro block other load
    by_cases same : block = node.blockNumber
    · rw [same, change.here] at load
      rw [← Option.some.inj load, same]
    · rw [change.other same] at load
      exact names block other load
  · exact names

/-- A created node names its block. -/
theorem NodeCreated.namesBlocks {page type : Nat} {isLeaf : Bool}
    (created : NodeCreated s page (freshNode page isLeaf type) s') (names : NamesBlocks s) :
    NamesBlocks s' := by
  intro block node load
  by_cases same : block = page
  · rw [same, created.here] at load
    rw [← Option.some.inj load, same]
    rfl
  · rw [created.other block same] at load
    exact names block node load

/-- Nodes name their blocks, and the nodes of some blocks load as before. -/
structure Keeps (s : Store) (kept : Nat → Prop) (s' : Store) : Prop where
  /-- Nodes still name their blocks. -/
  names : NamesBlocks s'
  /-- The nodes are kept. -/
  node : ∀ block, kept block → btreeNodeLoad s' block = btreeNodeLoad s block

variable {kept : Nat → Prop}

/-- Nodes that are kept by two steps in a row. -/
theorem Keeps.trans {s'' : Store} (first : Keeps s kept s') (second : Keeps s' kept s'') :
    Keeps s kept s'' := by
  constructor
  · exact second.names
  · intro block isKept
    rw [second.node block isKept, first.node block isKept]

/-- A write keeps the other nodes. -/
theorem btreeNodeWrite_keeps {node : BTreeNode} (names : NamesBlocks s)
    (write : btreeNodeWrite s node = some s') (outside : ¬ kept node.blockNumber) : Keeps s kept s' := by
  constructor
  · exact names.write write
  · intro block isKept
    rcases btreeNodeWrite_cases write with change | ⟨rfl, -⟩
    · apply change.other
      rintro rfl
      exact outside isKept
    · rfl

/-- An assignment through a pointer changes the node of its page. -/
theorem btreeNodeModify_change {block : Nat} {change : BTreeNode → BTreeNode}
    (modify : btreeNodeModify s block change = some s') :
    ∃ node, btreeNodeLoad s block = some node ∧ NodeChange s block (change node) s' := by
  unfold btreeNodeModify at modify
  obtain ⟨node, load, rest⟩ := Option.bind_eq_some_iff.mp modify
  obtain rfl := Option.some.inj rest
  exact ⟨node, load, nodeChange_put load (change node)⟩

/-- A change of a node that still names its block. -/
theorem NodeChange.namesBlocks {block : Nat} {node : BTreeNode} (change : NodeChange s block node s')
    (names : NamesBlocks s) (number : node.blockNumber = block) : NamesBlocks s' := by
  intro other loaded load
  by_cases same : other = block
  · rw [same, change.here] at load
    rw [← Option.some.inj load, number, same]
  · rw [change.other same] at load
    exact names other loaded load

/-- An assignment through a pointer keeps the other nodes. -/
theorem btreeNodeModify_keeps {block : Nat} {change : BTreeNode → BTreeNode} (names : NamesBlocks s)
    (modify : btreeNodeModify s block change = some s') (outside : ¬ kept block)
    (number : ∀ node, (change node).blockNumber = node.blockNumber) : Keeps s kept s' := by
  obtain ⟨node, load, changed⟩ := btreeNodeModify_change modify
  constructor
  · apply changed.namesBlocks names
    rw [number, names block node load]
  · intro other isKept
    apply changed.other
    rintro rfl
    exact outside isKept

/-- A created node is in a page that was not owned. -/
theorem btreeNodeNew_created {isLeaf : Bool} {page : Nat} (formatted : s.Formatted)
    (new : btreeNodeNew s isLeaf = some (page, s')) :
    ∃ type, NodeCreated s page (freshNode page isLeaf type) s' := by
  by_cases room : 0 < s.freeCount
  · obtain ⟨other, type, s'', run, created⟩ := btreeNodeNew_spec formatted room isLeaf
    obtain ⟨rfl, rfl⟩ := Prod.mk.inj (Option.some.inj (new.symm.trans run))
    exact ⟨type, created⟩
  · have full := allocPage_full formatted (Nat.eq_zero_of_not_pos room)
    unfold btreeNodeNew btreeNodeCreate at new
    rw [full] at new
    cases new

/-- An owned page is not given to a new node. -/
theorem Owned.fresh {blocks : List Nat} {page : Nat} {node : BTreeNode} (owned : Owned s blocks)
    (created : NodeCreated s page node s') : page ∉ blocks :=
  (List.nodup_cons.mp (owned.created created).distinct).1

/-- A creation keeps the nodes of owned blocks. -/
theorem NodeCreated.keeps {page type : Nat} {isLeaf : Bool}
    (created : NodeCreated s page (freshNode page isLeaf type) s') (names : NamesBlocks s)
    (outside : ¬ kept page) : Keeps s kept s' := by
  constructor
  · exact created.namesBlocks names
  · intro block isKept
    apply created.other
    rintro rfl
    exact outside isKept

/-- Re-parenting changes the parents of the given nodes, and nothing else. -/
structure Reparented (s : Store) (blocks : List Nat) (parent : Nat) (s' : Store) : Prop where
  /-- Nodes still name their blocks. -/
  names : NamesBlocks s'
  /-- The bitmap is kept. -/
  bitmap : SameBitmap s s'
  /-- The nodes in the blocks get the parent. -/
  node : ∀ block, btreeNodeLoad s' block = (btreeNodeLoad s block).map fun node =>
    if block ∈ blocks ∧ block ≠ 0 then { node with parent } else node

/-- What the run of a re-parenting did. -/
theorem reparent_exact {blocks : List Nat} {parent : Nat} (names : NamesBlocks s)
    (run : reparent s blocks parent = some s') : Reparented s blocks parent s' := by
  induction blocks generalizing s with
  | nil =>
    obtain rfl := Option.some.inj run
    refine ⟨names, SameBitmap.refl _, fun block => ?_⟩
    simp
  | cons first rest ih =>
    unfold reparent at run ih
    rw [List.foldlM_cons] at run
    obtain ⟨middle, step, later⟩ := Option.bind_eq_some_iff.mp run
    by_cases present : first ≠ 0
    · rw [if_pos present] at step
      obtain ⟨child, load, write⟩ := Option.bind_eq_some_iff.mp step
      have number := names first child load
      obtain ⟨written, write', change⟩ : ∃ written,
          btreeNodeWrite s { child with parent } = some written ∧
            NodeChange s first { child with parent } written := btreeNodeWrite_at number load
      obtain rfl := Option.some.inj (write.symm.trans write')
      obtain ⟨namesLater, bitmap, node⟩ := ih (change.namesBlocks names number) later
      refine ⟨namesLater, change.sameBitmap.trans bitmap, fun block => ?_⟩
      rw [node block]
      by_cases same : block = first
      · rw [same, change.here, load]
        simp [present]
      · rw [change.other same]
        simp [same]
    · rw [if_neg present] at step
      obtain rfl := Option.some.inj step
      obtain ⟨namesLater, bitmap, node⟩ := ih names later
      refine ⟨namesLater, bitmap, fun block => ?_⟩
      rw [node block]
      have zero : first = 0 := by omega
      by_cases same : block = first
      · rw [same, zero]
        simp
      · simp [same]

/-- Re-parenting keeps the other nodes. -/
theorem Reparented.keeps {blocks : List Nat} {parent : Nat} (moved : Reparented s blocks parent s')
    (outside : ∀ block ∈ blocks, block ≠ 0 → ¬ kept block) : Keeps s kept s' := by
  constructor
  · exact moved.names
  · intro block isKept
    have notMoved : ¬ (block ∈ blocks ∧ block ≠ 0) :=
      fun inside => outside block inside.1 inside.2 isKept
    rw [moved.node block]
    simp only [if_neg notMoved, Option.map_id_fun', id_eq]

/-- The key loop changes the keys. -/
theorem refreshKeys_keys {node refreshed : BTreeNode} (refresh : refreshKeys s node = some refreshed) :
    ∃ keys, refreshed = { node with keys } := by
  unfold refreshKeys at refresh
  split at refresh
  · cases refresh
  · obtain ⟨maxima, -, rest⟩ := Option.bind_eq_some_iff.mp refresh
    exact ⟨_, (Option.some.inj rest).symm⟩

/-- New keys in the page of a node keep the other nodes. -/
theorem refreshPage_keeps {block : Nat} (names : NamesBlocks s) (run : refreshPage s block = some s')
    (outside : ¬ kept block) : Keeps s kept s' := by
  unfold refreshPage at run
  obtain ⟨node, load, run⟩ := Option.bind_eq_some_iff.mp run
  obtain ⟨refreshed, refresh, run⟩ := Option.bind_eq_some_iff.mp run
  obtain ⟨keys, rfl⟩ := refreshKeys_keys refresh
  obtain ⟨former, -, change⟩ := btreeNodeModify_change run
  constructor
  · exact change.namesBlocks names (names block node load)
  · intro other isKept
    apply change.other
    rintro rfl
    exact outside isKept

/-- The link of a new child behind an index. -/
theorem linkChild_slots {node linked : BTreeNode} {index child : Nat}
    (link : linkChild s node index child = some linked) :
    ∃ keys, linked = { node with
      keys
      children := setAt (shiftUp node.children (index + 1) (node.numKeys + 1)) (index + 1) child
      numKeys := node.numKeys + 1 } := by
  unfold linkChild at link
  split at link
  · cases link
  · obtain ⟨keys, rfl⟩ := refreshKeys_keys link
    exact ⟨keys, rfl⟩

end

end Nbtrfs
