import Nbtrfs.BTree.Tree
import Nbtrfs.Store.Format

/-!
# Stored nodes under the operations

How the nodes that `btree_node_read` finds change under writes, allocation and release.
-/

namespace Nbtrfs

section

variable {s s' : Store}

/-- A loaded node is the content of a page of the image. -/
theorem load_eq_some {block : Nat} {node : BTreeNode} :
    btreeNodeLoad s block = some node ↔
      block < s.totalBlocks ∧ s.mem block = .btreeNode node := by
  unfold btreeNodeLoad btreeNodeRead Store.get
  by_cases inside : block < s.totalBlocks
  · cases s.mem block <;> simp [inside, Block.node?]
  · simp [inside]

/-- Two stores of one size with the same nodes in a page load the same from it. -/
theorem load_congr {block : Nat} (total : s'.totalBlocks = s.totalBlocks)
    (same : (s'.mem block).node? = (s.mem block).node?) :
    btreeNodeLoad s' block = btreeNodeLoad s block := by
  unfold btreeNodeLoad btreeNodeRead Store.get
  rw [total]
  by_cases inside : block < s.totalBlocks
  · rw [if_pos inside, if_pos inside]
    simpa using same
  · rw [if_neg inside, if_neg inside]

/-- A page of the image loads the node that was put there. -/
theorem load_put_same {block : Nat} (inside : block < s.totalBlocks) (node : BTreeNode) :
    btreeNodeLoad (s.put block (.btreeNode node)) block = some node :=
  load_eq_some.mpr ⟨inside, Store.put_same _ _ _⟩

/-- Other pages load as before. -/
theorem load_put_other {block other : Nat} (page : Block) (distinct : other ≠ block) :
    btreeNodeLoad (s.put block page) other = btreeNodeLoad s other :=
  load_congr rfl (by rw [Store.put_other _ _ _ _ distinct])

/-- The change of one node: the other nodes, the bitmap and the size are kept. -/
structure NodeChange (s : Store) (block : Nat) (node : BTreeNode) (s' : Store) : Prop where
  /-- The page holds the node. -/
  here : btreeNodeLoad s' block = some node
  /-- The other pages are kept. -/
  mem : ∀ other, other ≠ block → s'.mem other = s.mem other
  /-- The page held a node before. -/
  former : ∃ old, btreeNodeLoad s block = some old
  /-- The image keeps its size. -/
  totalBlocks : s'.totalBlocks = s.totalBlocks
  /-- Former content reads as before. -/
  residue : s'.residue = s.residue

/-- The other nodes load as before. -/
theorem NodeChange.other {block : Nat} {node : BTreeNode} (change : NodeChange s block node s')
    {other : Nat} (distinct : other ≠ block) : btreeNodeLoad s' other = btreeNodeLoad s other :=
  load_congr change.totalBlocks (by rw [change.mem other distinct])

/-- Putting a node over a node is a change of that node. -/
theorem nodeChange_put {block : Nat} {old : BTreeNode} (former : btreeNodeLoad s block = some old)
    (node : BTreeNode) : NodeChange s block node (s.put block (.btreeNode node)) where
  here := load_put_same (load_eq_some.mp former).1 node
  mem _ distinct := Store.put_other _ _ _ _ distinct
  former := ⟨old, former⟩
  totalBlocks := rfl
  residue := rfl

/-- `btree_node_write` over a node writes it. -/
theorem btreeNodeWrite_spec {node old : BTreeNode}
    (former : btreeNodeLoad s node.blockNumber = some old) :
    ∃ s', btreeNodeWrite s node = some s' ∧ NodeChange s node.blockNumber node s' := by
  obtain ⟨inside, page⟩ := load_eq_some.mp former
  refine ⟨_, ?_, nodeChange_put former node⟩
  simp [btreeNodeWrite, Store.get_of_lt inside, page, Block.node?]

/-- `btree_node_write` of a node of a block. -/
theorem btreeNodeWrite_at {node old : BTreeNode} {block : Nat} (number : node.blockNumber = block)
    (former : btreeNodeLoad s block = some old) :
    ∃ s', btreeNodeWrite s node = some s' ∧ NodeChange s block node s' := by
  subst number
  exact btreeNodeWrite_spec former

/-- Assignments through a pointer into a node's page. -/
theorem btreeNodeModify_spec {block : Nat} {old : BTreeNode}
    (former : btreeNodeLoad s block = some old) (change : BTreeNode → BTreeNode) :
    ∃ s', btreeNodeModify s block change = some s' ∧ NodeChange s block (change old) s' := by
  refine ⟨_, ?_, nodeChange_put former (change old)⟩
  simp [btreeNodeModify, former]

/-- The bitmap is the same in two stores. -/
structure SameBitmap (s s' : Store) : Prop where
  /-- The image keeps its size. -/
  totalBlocks : s'.totalBlocks = s.totalBlocks
  /-- The bitmap pages are kept. -/
  pages : ∀ pnum words, s.mem pnum = .bitmap words → s'.mem pnum = .bitmap words

/-- The bitmap is its own. -/
theorem SameBitmap.refl (s : Store) : SameBitmap s s := ⟨rfl, fun _ _ page => page⟩

/-- The bitmap is the same after two steps that keep it. -/
theorem SameBitmap.trans {s'' : Store} (first : SameBitmap s s') (second : SameBitmap s' s'') :
    SameBitmap s s'' :=
  ⟨second.totalBlocks.trans first.totalBlocks,
    fun pnum words page => second.pages pnum words (first.pages pnum words page)⟩

/-- A change of a node keeps the bitmap. -/
theorem NodeChange.sameBitmap {block : Nat} {node : BTreeNode}
    (change : NodeChange s block node s') : SameBitmap s s' := by
  refine ⟨change.totalBlocks, fun pnum words page => ?_⟩
  have distinct : pnum ≠ block := by
    intro same
    obtain ⟨old, former⟩ := change.former
    rw [same, (load_eq_some.mp former).2] at page
    cases page
  rw [change.mem _ distinct, page]

/-- The same bitmap has the same pages of the block bitmap. -/
theorem SameBitmap.samePages (same : SameBitmap s s') (bitmapped : s.Bitmapped) :
    SamePages s s' := by
  refine ⟨same.totalBlocks, fun pnum inside => ?_⟩
  obtain ⟨-, words, page⟩ := bitmapped pnum inside
  rw [page, same.pages _ words page]

/-- A change of a bit changes no node. -/
theorem BitChange.load {pnum : Nat} {value : Bool} (change : BitChange s pnum value s')
    (bitmapped : s.Bitmapped) (inside : pnum < s.totalBlocks) (block : Nat) :
    btreeNodeLoad s' block = btreeNodeLoad s block := by
  apply load_congr change.totalBlocks
  by_cases zero : block = 0
  · subst zero
    cases read : superblockRead s with
    | none => rw [change.noSuper read]
    | some superblock =>
      have read' := change.superblock
      rw [read] at read'
      unfold superblockRead at read read'
      cases page : s.mem 0 <;> cases page' : s'.mem 0 <;> simp [page, page'] at read read' ⊢
      all_goals rfl
  · by_cases isPage : block = bitmapPage pnum
    · obtain ⟨-, words, page⟩ := bitmapped pnum inside
      obtain ⟨words', page'⟩ := change.page
      rw [isPage, page, page']
      rfl
    · rw [change.mem block zero isPage]

/-- The fields of a node beside its place and its arrays. -/
structure SameHead (node changed : BTreeNode) : Prop where
  /-- The value is kept. -/
  value : changed.value = node.value
  /-- The type is kept. -/
  type : changed.type = node.type
  /-- The left sibling is kept. -/
  leftSibling : changed.leftSibling = node.leftSibling
  /-- The right sibling is kept. -/
  rightSibling : changed.rightSibling = node.rightSibling

/-- A created node: a free page becomes the fresh node and is allocated. -/
structure NodeCreated (s : Store) (page : Nat) (node : BTreeNode) (s' : Store) : Prop where
  /-- The page is not block 0. -/
  nonzero : page ≠ 0
  /-- The page was free. -/
  free : s.bit page = some false
  /-- The page holds the node. -/
  here : btreeNodeLoad s' page = some node
  /-- The other nodes are kept. -/
  other : ∀ block, block ≠ page → btreeNodeLoad s' block = btreeNodeLoad s block
  /-- The page's bit is set and the other bits are kept. -/
  bits : ∀ pnum < s.totalBlocks, s'.bit pnum = if pnum = page then some true else s.bit pnum
  /-- The store stays formatted. -/
  formatted : s'.Formatted
  /-- There is one free block less. -/
  freeCount : s'.freeCount + 1 = s.freeCount
  /-- The image keeps its size. -/
  totalBlocks : s'.totalBlocks = s.totalBlocks

/-- With a free block `btree_node_create` succeeds. -/
theorem btreeNodeNew_spec (formatted : s.Formatted) (room : 0 < s.freeCount) (isLeaf : Bool) :
    ∃ page type s', btreeNodeNew s isLeaf = some (page, s') ∧
      NodeCreated s page (freshNode page isLeaf type) s' := by
  obtain ⟨page, taken, run, allocated⟩ := allocPage_formatted formatted room
  have inside : page < taken.totalBlocks := by
    rw [allocated.change.totalBlocks]
    exact allocated.inside
  have pages := allocated.samePages formatted (.btreeNode (freshNode page isLeaf
    (taken.residue.nodeType (taken.mem page))))
  refine ⟨page, taken.residue.nodeType (taken.mem page), _, ?_, allocated.nonzero, allocated.free,
    load_put_same inside _, ?_, ?_, pages.formatted allocated.formatted, ?_,
    allocated.change.totalBlocks⟩
  · simp [btreeNodeNew, btreeNodeCreate, run, allocated.nonzero, Store.get_of_lt inside]
  · intro block distinct
    rw [load_put_other _ distinct, allocated.change.load formatted.bitmapped allocated.inside]
  · intro pnum bound
    rw [← allocated.change.totalBlocks] at bound
    rw [pages.bit bound, allocated.change.bits]
  · rw [pages.freeCount]
    exact allocated.freeCount

/-- Blocks that are allocated once each, on a formatted store. -/
structure Owned (s : Store) (blocks : List Nat) : Prop where
  /-- The store is formatted. -/
  formatted : s.Formatted
  /-- No block occurs twice. -/
  distinct : blocks.Nodup
  /-- The blocks are blocks of the image. -/
  inside : ∀ block ∈ blocks, block < s.totalBlocks
  /-- Block 0 is not one of them. -/
  nonzero : ∀ block ∈ blocks, block ≠ 0
  /-- The blocks are allocated. -/
  allocated : ∀ block ∈ blocks, s.bit block = some true

/-- Blocks stay owned while the bitmap is kept. -/
theorem Owned.sameBitmap {blocks : List Nat} (owned : Owned s blocks) (same : SameBitmap s s') :
    Owned s' blocks where
  formatted := (same.samePages owned.formatted.bitmapped).formatted owned.formatted
  distinct := owned.distinct
  inside block isBlock := by
    rw [same.totalBlocks]
    exact owned.inside block isBlock
  nonzero := owned.nonzero
  allocated block isBlock := by
    rw [(same.samePages owned.formatted.bitmapped).bit (owned.inside block isBlock)]
    exact owned.allocated block isBlock

/-- The blocks in another order. -/
theorem Owned.perm {blocks other : List Nat} (owned : Owned s blocks) (perm : blocks.Perm other) :
    Owned s other where
  formatted := owned.formatted
  distinct := perm.nodup owned.distinct
  inside block isBlock := owned.inside block (perm.mem_iff.mpr isBlock)
  nonzero block isBlock := owned.nonzero block (perm.mem_iff.mpr isBlock)
  allocated block isBlock := owned.allocated block (perm.mem_iff.mpr isBlock)

/-- A created node's page is owned too. -/
theorem Owned.created {blocks : List Nat} {page : Nat} {node : BTreeNode} (owned : Owned s blocks)
    (created : NodeCreated s page node s') : Owned s' (page :: blocks) := by
  have pageInside : page < s.totalBlocks := by
    rw [← created.totalBlocks]
    exact (load_eq_some.mp created.here).1
  have fresh : page ∉ blocks := by
    intro inside
    have set := owned.allocated page inside
    rw [created.free] at set
    cases set
  refine ⟨created.formatted, List.nodup_cons.mpr ⟨fresh, owned.distinct⟩, ?_, ?_, ?_⟩
  · intro block isBlock
    rw [created.totalBlocks]
    rcases List.mem_cons.mp isBlock with here | there
    · rw [here]
      exact pageInside
    · exact owned.inside block there
  · intro block isBlock
    rcases List.mem_cons.mp isBlock with here | there
    · rw [here]
      exact created.nonzero
    · exact owned.nonzero block there
  · intro block isBlock
    rcases List.mem_cons.mp isBlock with here | there
    · rw [here, created.bits page pageInside, if_pos rfl]
    · rw [created.bits block (owned.inside block there)]
      split
      · rfl
      · exact owned.allocated block there

/-- The nodes of owned blocks are kept by a creation. -/
theorem Owned.load_created {blocks : List Nat} {page : Nat} {node : BTreeNode}
    (owned : Owned s blocks) (created : NodeCreated s page node s') {block : Nat}
    (inside : block ∈ blocks) : btreeNodeLoad s' block = btreeNodeLoad s block := by
  apply created.other
  intro same
  have set := owned.allocated block inside
  rw [same, created.free] at set
  cases set

end

end Nbtrfs
