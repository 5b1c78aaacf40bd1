import Nbtrfs.Directory.Frames
import Nbtrfs.Fuse.Quiet
import Nbtrfs.Fuse.Run
import Nbtrfs.Namespace.Atomic
import Nbtrfs.Namespace.Removal

/-!
# What unlinking releases

`_unlink` deactivates the entries of a name, frees their inodes and takes the name out of the B-tree
of its directory. Of the block bitmap this clears the bit of the name's leaf and no other one:
`inode_free` clears the slot that holds the block pointers, and nothing frees the blocks that they
lead to.
-/

namespace Nbtrfs

/-- An entry of a pointer block. -/
def PointsTo (s : Store) (pointers block : Nat) : Prop :=
  ∃ bytes index, s.mem pointers = .data bytes ∧ index < pointersPerPage ∧
    pointerAt bytes index = block

/-- The blocks of a file: its data blocks and the pointer blocks that lead to them. -/
def FileHas (s : Store) (inode : Inode) (block : Nat) : Prop :=
  block ≠ 0 ∧ ((∃ index < directPointers, inode.directBlocks index = block) ∨
    block = inode.indirectBlock ∨ PointsTo s inode.indirectBlock block ∨
    block = inode.doubleIndirectBlock ∨ PointsTo s inode.doubleIndirectBlock block ∨
    ∃ lower, PointsTo s inode.doubleIndirectBlock lower ∧ PointsTo s lower block)

/-- The name of a path is the last one of a regular file: the leaf of the name in the B-tree of its
directory, and the file's inode. -/
structure LastName (layout : Superblock) (s : Store) (path : CString) {depth : Nat}
    (tree : Tree (depth + 1)) (leaf : Leaf) (inode : Inode) : Prop where
  /-- The image is formatted. -/
  holds : (layout.keeping fun _ => none).Holds s
  /-- The directory is found, with its B-tree. -/
  search : ∃ pair, itemSearch s (parentPath path (countL path)) = some pair ∧
    pair.btreeBlock = tree.block
  /-- The B-tree is stored. -/
  stored : StoredTree s tree
  /-- The leaf is in it. -/
  inside : leaf ∈ tree.leaves
  /-- It is that of the name. -/
  key : leaf.key = pathHash (getName path)
  /-- It is that of a file. -/
  file : leaf.type ≠ fileTypeDirectory
  /-- It leads to the inode. -/
  load : inodeLoad s leaf.value = some inode
  /-- No other name does. -/
  last : inode.referenceCount = 1

/-- What the removal of the last name is to do to the block bitmap: the bits of the leaf and of the
file's blocks are clear, and the others are kept. -/
structure Released (s : Store) (leaf : Nat) (inode : Inode) (s' : Store) : Prop where
  /-- The bit of the leaf. -/
  entry : s'.bit leaf = some false
  /-- The bits of the file. -/
  file : ∀ block < s.totalBlocks, FileHas s inode block → s'.bit block = some false
  /-- The other bits. -/
  others : ∀ block < s.totalBlocks, block ≠ leaf → ¬ FileHas s inode block →
    s'.bit block = s.bit block

/-- A change that keeps the block bitmap and the nodes. -/
structure KeepsIndex (layout : Superblock) (s s' : Store) : Prop where
  /-- The image stays formatted. -/
  holds : (layout.keeping fun _ => none).Holds s'
  /-- The image keeps its size. -/
  totalBlocks : s'.totalBlocks = s.totalBlocks
  /-- The bits are kept. -/
  bits : ∀ block < s.totalBlocks, s'.bit block = s.bit block
  /-- The nodes are kept. -/
  nodes : ∀ block, btreeNodeRead s' block = btreeNodeRead s block

/-- The run of `_unlink` behind a store: the bits other than that of the leaf are kept, and the tree
has the leaf, or has lost it after its bit was cleared. -/
structure Unlinking (layout : Superblock) (s : Store) (root key leaf : Nat) (s' : Store) :
    Prop where
  /-- The image stays formatted. -/
  holds : (layout.keeping fun _ => none).Holds s'
  /-- The image keeps its size. -/
  totalBlocks : s'.totalBlocks = s.totalBlocks
  /-- The leaf is in the image. -/
  inside : leaf < s.totalBlocks
  /-- The other bits are kept. -/
  others : ∀ block < s.totalBlocks, block ≠ leaf → s'.bit block = s.bit block
  /-- The tree with or without the leaf. -/
  tree : (∃ depth, ∃ tree : Tree (depth + 1), StoredTree s' tree ∧ tree.block = root ∧
      ∃ entry ∈ tree.leaves, entry.key = key ∧ entry.block = leaf) ∨
    s'.bit leaf = some false ∧ ∃ leaves, StoredTree s' (flatTree root leaves) ∧
      ∀ entry ∈ leaves, entry.key ≠ key

section

variable {s s' : Store} {layout : Superblock}

/-- Nodes are read from the pages. -/
theorem nodeRead_same (mem : s'.mem = s.mem) (total : s'.totalBlocks = s.totalBlocks)
    (block : Nat) : btreeNodeRead s' block = btreeNodeRead s block := by
  unfold btreeNodeRead Store.get
  rw [mem, total]

/-- Assigning a page without a node over another one. -/
theorem nodeRead_put {page : Nat} {content : Block} (former : (s.mem page).node? = none)
    (new : content.node? = none) (block : Nat) :
    btreeNodeRead (s.put page content) block = btreeNodeRead s block := by
  unfold btreeNodeRead Store.get
  have size : (s.put page content).totalBlocks = s.totalBlocks := rfl
  rw [size]
  by_cases same : block = page
  · rw [same, Store.put_same]
    split
    · rw [Option.map_some, Option.map_some, former, new]
    · rfl
  · rw [Store.put_other _ _ _ _ same]

/-- Assigning bytes of a data block keeps the nodes. -/
theorem writeBytes_nodes {page offset : Nat} {piece : List UInt8}
    (run : writeBytes s page offset piece = some s') (block : Nat) :
    btreeNodeRead s' block = btreeNodeRead s block := by
  obtain ⟨former, tag, rfl⟩ := writeBytes_cases run
  exact nodeRead_put (by rw [tag]; rfl) rfl block

/-- Assigning `entry_count` keeps the nodes. -/
theorem storeEntryCount_nodes {node : Inode} {former count : Nat} {writeThrough : Bool}
    (run : storeEntryCount s node former count writeThrough = some s') (block : Nat) :
    btreeNodeRead s' block = btreeNodeRead s block := by
  unfold storeEntryCount at run
  obtain ⟨first, -, run⟩ := Option.bind_eq_some_iff.mp run
  obtain ⟨s1, set, run⟩ := Option.bind_eq_some_iff.mp run
  obtain ⟨bytes, tag, rfl⟩ := setEntryCount_cases set
  have assigned := @nodeRead_put s first
    (.data (LittleEndian.store bytes 0 directoryBlockSize count)) (by rw [tag]; rfl) rfl block
  split at run
  · have kept := diskWriteBlockAs_keeps run
    exact (nodeRead_same kept.mem kept.totalBlocks block).trans assigned
  · obtain rfl := Option.some.inj run
    exact assigned

/-- `inode_free` keeps the nodes. -/
theorem inodeFree_nodes {inodeNumber : Nat} {writeThrough : Bool}
    (run : inodeFree s inodeNumber writeThrough = some s') (block : Nat) :
    btreeNodeRead s' block = btreeNodeRead s block := by
  unfold inodeFree at run
  obtain ⟨superblock, read, run⟩ := Option.bind_eq_some_iff.mp run
  obtain ⟨ibm, get, run⟩ := Option.bind_eq_some_iff.mp run
  obtain ⟨-, rfl⟩ := Store.get_eq_some get
  split at run
  case h_1 =>
    obtain rfl := Option.some.inj run
    rfl
  case h_2 changed put =>
    have cleared : ∀ other, btreeNodeRead (s.put (superblock.inodeBitmap +
        inodeNumber / usableBlockSize) changed) other = btreeNodeRead s other := by
      cases tag : s.mem (superblock.inodeBitmap + inodeNumber / usableBlockSize) with
      | bitmap words =>
        rw [tag] at put
        obtain rfl := Option.some.inj put
        exact nodeRead_put (by rw [tag]; rfl) rfl
      | super | inode | btreeNode | journal | data | untagged =>
        rw [tag] at put
        cases put
    obtain ⟨content, get1, run⟩ := Option.bind_eq_some_iff.mp run
    obtain ⟨-, tag⟩ := Store.get_eq_some get1
    cases content with
    | inode slots =>
      obtain rfl := Option.some.inj run
      have assigned := @nodeRead_put _ _ (.inode (setSlot slots (inodeNumber % inodesPerPage)
        zeroInode)) (by rw [tag]; rfl) rfl block
      split
      · exact assigned.trans (cleared block)
      · exact assigned.trans (cleared block)
    | super | bitmap | btreeNode | journal | data | untagged =>
      obtain rfl := Option.some.inj run
      exact cleared block

/-- A change that keeps every guard of bits and the nodes. -/
theorem keepsIndex_of (holds : (layout.keeping fun _ => none).Holds s)
    (guarded : ∀ bits, (layout.keeping bits).Holds s → (layout.keeping bits).Holds s')
    (nodes : ∀ block, btreeNodeRead s' block = btreeNodeRead s block) : KeepsIndex layout s s' := by
  have all : (layout.keeping fun block =>
      if block < s.totalBlocks then s.bit block else none).Holds s := by
    apply holds.keeping
    intro block value wanted
    split at wanted
    case isTrue inside => exact ⟨inside, wanted⟩
    case isFalse => cases wanted
  have all' := guarded _ all
  refine ⟨guarded _ holds, all'.total.trans all.total.symm, fun block inside => ?_, nodes⟩
  have word := holds.formatted.bitmapped.bit inside
  rw [word]
  exact (all'.bit block _ ((if_pos inside).trans word)).2

/-- Changes of the image under the cache. -/
theorem KeepsPages.index (kept : KeepsPages s s') (holds : (layout.keeping fun _ => none).Holds s) :
    KeepsIndex layout s s' :=
  keepsIndex_of holds (fun _ guarded => guarded.same kept.mem kept.totalBlocks)
    (nodeRead_same kept.mem kept.totalBlocks)

/-- Nodes that are read alike load alike. -/
theorem KeepsIndex.load (kept : KeepsIndex layout s s') (block : Nat) :
    btreeNodeLoad s' block = btreeNodeLoad s block := by
  unfold btreeNodeLoad
  rw [kept.nodes]

/-- A stored tree is kept. -/
theorem KeepsIndex.tree (kept : KeepsIndex layout s s') {depth : Nat} {tree : Tree depth}
    (stored : StoredTree s tree) : StoredTree s' tree where
  formatted := kept.holds.formatted
  stores := stored.stores.congr fun block _ => kept.load block
  increasing := stored.increasing
  distinct := stored.distinct
  noNode := (kept.load 0).trans stored.noNode
  siblings node load := stored.siblings node ((kept.load tree.block).symm.trans load)

/-- Clearing the bit of a node keeps the format. -/
theorem Guard.Holds.nodeFreed (holds : (layout.keeping fun _ => none).Holds s) {block : Nat}
    (nonzero : block ≠ 0) {node : BTreeNode} (load : btreeNodeLoad s block = some node)
    (change : BitChange s block false s') : (layout.keeping fun _ => none).Holds s' := by
  obtain ⟨inside, tag⟩ := load_eq_some.mp load
  apply holds.bitChange change inside
  · apply change.formatted_freed holds.formatted nonzero
    apply holds.formatted.not_page_of_tag
    intro words page
    rw [page] at tag
    cases tag
  · rintro wanted ⟨⟩

/-- `btree_delete` of the key clears the bit of the leaf. -/
theorem Unlinking.delete {root key leaf freed : Nat} {after : Store}
    (going : Unlinking layout s root key leaf s')
    (run : btreeDelete s' root key = some (freed, after)) :
    Unlinking layout s root key leaf after ∧ after.bit leaf = some false := by
  rcases going.tree with ⟨depth, tree, stored, rfl, entry, inside, rfl, rfl⟩ |
    ⟨clear, leaves, stored, absent⟩
  · obtain ⟨nonzero, node, load⟩ := stored.loadLeaf inside
    cases depth with
    | succ depth =>
      obtain ⟨-, other, run', change, loads⟩ := btreeDelete_freed stored.formatted stored.stores
        stored.increasing stored.distinct inside
      obtain rfl : other = after := (Prod.mk.inj (Option.some.inj (run'.symm.trans run))).2
      have holds := going.holds.nodeFreed nonzero load change
      have stored' : StoredTree other tree := by
        refine ⟨holds.formatted, stored.stores.congr fun block _ => loads block, stored.increasing,
          stored.distinct, (loads 0).trans stored.noNode, fun node loadRoot => ?_⟩
        exact stored.siblings node ((loads tree.block).symm.trans loadRoot)
      refine ⟨⟨holds, change.totalBlocks.trans going.totalBlocks, going.inside, ?_,
        Or.inl ⟨depth + 1, tree, stored', rfl, entry, inside, rfl, rfl⟩⟩, ?_⟩
      · intro block within apart
        rw [change.bits, if_neg apart]
        exact going.others block within apart
      · rw [change.bits, if_pos rfl]
    | zero =>
      obtain ⟨block, leaves, rfl⟩ : ∃ block leaves, tree = flatTree block leaves :=
        ⟨tree.1, tree.2, rfl⟩
      rw [flatTree_leaves] at inside
      obtain ⟨root, loadRoot, keyed⟩ := stored.keyed inside run
      obtain ⟨place, dropped, s1, other, deleted⟩ :=
        btreeDelete_dropped stored inside loadRoot keyed
      obtain rfl : other = after :=
        (Prod.mk.inj (Option.some.inj (deleted.run.symm.trans run))).2
      have once := stored.distinct
      rw [flatTree_blocks] at once
      have apart : entry.block ≠ block := by
        intro same
        have below : entry.block ∈ leaves.map Leaf.block := List.mem_map_of_mem inside
        rw [same] at below
        exact (List.nodup_cons.mp once).1 below
      have plain : (Guard.plain layout fun _ _ => True).Holds s' := going.holds
      have plain1 := plain.nodeChange deleted.change
      have holds := Guard.Holds.nodeFreed plain1 nonzero ((deleted.change.other apart).trans load)
        deleted.freed
      have same := deleted.change.sameBitmap.samePages stored.formatted.bitmapped
      refine ⟨⟨holds, ?_, going.inside, ?_, Or.inr ⟨?_, leaves.eraseIdx place,
        deleted.stored stored loadRoot holds.formatted, ?_⟩⟩, ?_⟩
      · exact (deleted.freed.totalBlocks.trans deleted.change.totalBlocks).trans going.totalBlocks
      · intro other within apart
        have within' : other < s'.totalBlocks := by
          rw [going.totalBlocks]
          exact within
        rw [deleted.freed.bits, if_neg apart, same.bit within']
        exact going.others other within apart
      · rw [deleted.freed.bits, if_pos rfl]
      · intro other remains same
        have increasing := stored.increasing
        rw [flatTree_leaves] at increasing
        have keys : (leaves.map Leaf.key).Nodup := increasing.imp Nat.ne_of_lt
        obtain ⟨isLeaf, differs⟩ :=
          (mem_eraseIdx_leaf (List.Nodup.of_map _ keys) deleted.atPlace other).mp remains
        exact differs (List.inj_on_of_nodup_map keys isLeaf inside same)
      · rw [deleted.freed.bits, if_pos rfl]
  · have search : btreeSearch s' root key = some 0 := stored.search_absent absent
    rw [btreeDelete, search, Option.bind_eq_bind, Option.bind_some, if_pos rfl] at run
    obtain rfl := (Prod.mk.inj (Option.some.inj run)).2
    exact ⟨going, clear⟩

/-- A change that keeps the index. -/
theorem Unlinking.kept {root key leaf : Nat} {after : Store}
    (going : Unlinking layout s root key leaf s') (kept : KeepsIndex layout s' after) :
    Unlinking layout s root key leaf after where
  holds := kept.holds
  totalBlocks := kept.totalBlocks.trans going.totalBlocks
  inside := going.inside
  others block within apart := by
    have within' : block < s'.totalBlocks := by
      rw [going.totalBlocks]
      exact within
    exact (kept.bits block within').trans (going.others block within apart)
  tree := by
    have within : leaf < s'.totalBlocks := by
      rw [going.totalBlocks]
      exact going.inside
    rcases going.tree with ⟨depth, tree, stored, root, entry⟩ | ⟨clear, leaves, stored, absent⟩
    · exact Or.inl ⟨depth, tree, kept.tree stored, root, entry⟩
    · exact Or.inr ⟨(kept.bits leaf within).trans clear, leaves, kept.tree stored, absent⟩

/-- Where the search finds nothing, the bit of the leaf was cleared. -/
theorem Unlinking.searched {root key leaf : Nat} (going : Unlinking layout s root key leaf s')
    (search : btreeSearch s' root key = some 0) : s'.bit leaf = some false := by
  rcases going.tree with ⟨depth, tree, stored, rfl, entry, inside, rfl, rfl⟩ | ⟨clear, -⟩
  · have found := btreeSearch_leaf stored.stores stored.increasing stored.distinct inside
    obtain zero := Option.some.inj (found.symm.trans search)
    exact absurd zero (stored.loadLeaf inside).1
  · exact clear

/-- The steps of a removal keep the bits and the tree. -/
theorem unlinking_keeps (layout : Superblock) (s : Store) (root key leaf : Nat) :
    RemovalKeeps root key (Unlinking layout s root key leaf) where
  write _ _ _ _ _ going run := going.kept (keepsIndex_of going.holds
    (fun _ guarded => guarded.writeBytes run) (writeBytes_nodes run))
  count _ _ _ _ _ _ going run := going.kept (keepsIndex_of going.holds
    (fun _ guarded => guarded.storeEntryCount run) (storeEntryCount_nodes run))
  free _ _ _ _ going run := going.kept (keepsIndex_of going.holds
    (fun _ guarded => guarded.inodeFree trivial run) (inodeFree_nodes run))
  image _ _ going kept := going.kept (kept.index going.holds)
  delete _ _ _ going run := (going.delete run).1

/-- `_unlink` clears the bit of the leaf and keeps the others. -/
theorem Unlinking.unlink {leaf : Nat} {path : CString} {pair : InodeBtreePair}
    {writeThrough : Bool} {after : Store}
    (going : Unlinking layout s pair.btreeBlock (pathHash (getName path)) leaf s')
    (search : itemSearch s' (parentPath path (countL path)) = some pair)
    (run : unlink s' path writeThrough = some after) :
    Unlinking layout s pair.btreeBlock (pathHash (getName path)) leaf after ∧
      after.bit leaf = some false := by
  obtain ⟨s1, going1, ⟨searched, rfl⟩ | ⟨freed, delete⟩⟩ :=
    (unlinking_keeps layout s pair.btreeBlock (pathHash (getName path)) leaf).unlink going search run
  · exact ⟨going1, going1.searched searched⟩
  · exact going1.delete delete

/-- An append that replays nothing keeps the nodes. -/
theorem JournalOnly.nodes {superblock : Superblock} (change : JournalOnly superblock s s')
    (read : superblockRead s = some superblock) (block : Nat) :
    btreeNodeRead s' block = btreeNodeRead s block := by
  unfold btreeNodeRead Store.get
  rw [change.totalBlocks]
  have same : (s'.mem block).node? = (s.mem block).node? := by
    by_cases zero : block = 0
    · obtain ⟨freeBlocks, journalHead, read'⟩ := change.superblock
      rw [zero, superblockRead_page read, superblockRead_page read']
      rfl
    · rcases change.mem block zero with kept | ⟨⟨old, tag⟩, new, tag'⟩
      · rw [kept]
      · rw [tag, tag']
        rfl
  split
  · rw [Option.map_some, Option.map_some, same]
  · rfl

/-- The store behind the append of `nbtrfs_unlink`. -/
theorem LastName.appended {path : CString} {depth : Nat} {tree : Tree (depth + 1)} {leaf : Leaf}
    {inode : Inode} (name : LastName layout s path tree leaf inode)
    (append : quietAppend (localEntry (.unlink path)) s = some s') :
    KeepsIndex layout s s' ∧ itemSearch s' (parentPath path (countL path)) =
      itemSearch s (parentPath path (countL path)) := by
  obtain ⟨superblock, read, -⟩ := name.holds.superblock
  have only := quietAppend_only read rfl append
  obtain ⟨freeBlocks, journalHead, read'⟩ := only.superblock
  refine ⟨keepsIndex_of name.holds (fun _ guarded => guarded.appendPlain rfl append)
    (only.nodes read), itemSearch_congr only.totalBlocks (only.nodes read) read read' rfl _⟩

/-- In front of the call the tree has the leaf. -/
theorem LastName.unlinking {path : CString} {depth : Nat} {tree : Tree (depth + 1)} {leaf : Leaf}
    {inode : Inode} (name : LastName layout s path tree leaf inode) :
    Unlinking layout s tree.block (pathHash (getName path)) leaf.block s where
  holds := name.holds
  totalBlocks := rfl
  inside := by
    obtain ⟨-, node, load⟩ := name.stored.loadLeaf name.inside
    exact (load_eq_some.mp load).1
  others _ _ _ := rfl
  tree := Or.inl ⟨depth, tree, name.stored, rfl, leaf, name.inside, name.key, rfl⟩

/-- `nbtrfs_unlink` of the last name clears the bit of the leaf and keeps the others. -/
theorem LastName.bits {path : CString} {depth : Nat} {tree : Tree (depth + 1)} {leaf : Leaf}
    {inode : Inode} (name : LastName layout s path tree leaf inode)
    (run : nbtrfsUnlink quietAppend s path = some s') :
    s'.bit leaf.block = some false ∧
      ∀ block < s.totalBlocks, block ≠ leaf.block → s'.bit block = s.bit block := by
  obtain ⟨s1, append, unlinked⟩ := Option.bind_eq_some_iff.mp run
  obtain ⟨kept, same⟩ := name.appended append
  obtain ⟨pair, search, root⟩ := name.search
  have going := name.unlinking.kept kept
  rw [← root] at going
  obtain ⟨gone, clear⟩ := going.unlink (same.trans search) unlinked
  exact ⟨clear, gone.others⟩

/-- `nbtrfs_unlink` of the last name of a file, whose append replays nothing, releases what it is to
if and only if no block of the file is allocated, other than that of the leaf. -/
theorem nbtrfsUnlink_released_iff {locals : Locals} {host : Host} {path : CString} {depth : Nat}
    {tree : Tree (depth + 1)} {leaf : Leaf} {inode : Inode}
    (name : LastName layout s path tree leaf inode)
    (run : nbtrfsUnlink (appendEntry locals host) s path = some s')
    (quiet : (nbtrfsUnlink quietAppend s path).isSome = true) :
    Released s leaf.block inode s' ↔
      ∀ block < s.totalBlocks, FileHas s inode block → block ≠ leaf.block →
        s.bit block = some false := by
  have same := (nbtrfsUnlink_below (quietAppend_below locals host) s path).eq_of_isSome quiet
  obtain ⟨clear, others⟩ := name.bits (same.trans run)
  constructor
  · intro released block inside has apart
    rw [← others block inside apart]
    exact released.file block inside has
  · intro free
    refine ⟨clear, fun block inside has => ?_,
      fun block inside apart _ => others block inside apart⟩
    by_cases same : block = leaf.block
    · rw [same]
      exact clear
    · rw [others block inside same]
      exact free block inside has same

end

/-- The image of 400 blocks whose root directory has one file, with an inode for the file. -/
def namedImage (inode : Inode) : Store :=
  packedImage.put 3 (.inode fun slot =>
    if slot = 0 then zeroInode.withDirect 0 8 else if slot = 1 then inode else zeroInode)

/-- A file without blocks. -/
def emptyFile : Inode :=
  { zeroInode with inodeNumber := 1, mode := fileTypeRegular, referenceCount := 1 }

/-- A file of one block. -/
def oneBlockFile : Inode := { emptyFile.withDirect 0 10 with size := usableBlockSize }

/-- The leaf of the file. -/
def namedLeaf : Leaf := ⟨9, pathHash [97], 1, fileTypeRegular⟩

/-- The file has one name. -/
theorem namedImage_lastName (inode : Inode) (last : inode.referenceCount = 1) :
    LastName emptyLayout (namedImage inode) (pathOf [[97]]) (flatTree 7 [namedLeaf]) namedLeaf
      inode := by
  have holds : (emptyLayout.keeping fun _ => none).Holds (namedImage inode) :=
    packedImage_holds.put (packedImage_holds.spare rfl) fun _ _ _ _ => trivial
  have stores : Stores (namedImage inode) 0 (flatTree 7 [namedLeaf]) := by
    refine ⟨⟨_, rfl, ⟨rfl, rfl, rfl, by decide, by decide, by decide, ?_, ?_⟩⟩,
      fun child isChild => ?_⟩
    · intro i below
      obtain rfl : i = 0 := Nat.lt_one_iff.mp below
      rfl
    · intro i _
      cases i with
      | zero => rfl
      | succ i => rfl
    · obtain rfl : child = namedLeaf := List.mem_singleton.mp isChild
      exact ⟨by decide, _, rfl, rfl, rfl, rfl, rfl, rfl, rfl⟩
  refine ⟨holds, ⟨⟨0, 7⟩, rfl, rfl⟩, ⟨holds.formatted, stores, List.pairwise_singleton _ _,
    by decide, rfl, ?_⟩, List.mem_singleton.mpr rfl, by decide +kernel, by decide, rfl, last⟩
  intro node load
  obtain rfl := Option.some.inj load
  exact ⟨rfl, rfl⟩

/-- The image after the call. -/
def afterUnlink (inode : Inode) : Store :=
  (nbtrfsUnlink (appendEntry zeroLocals zeroHost) (namedImage inode) (pathOf [[97]])).getD
    (namedImage inode)

/-- The call has a result. -/
theorem afterUnlink_run {inode : Inode}
    (quiet : (nbtrfsUnlink quietAppend (namedImage inode) (pathOf [[97]])).isSome = true) :
    nbtrfsUnlink (appendEntry zeroLocals zeroHost) (namedImage inode) (pathOf [[97]]) =
      some (afterUnlink inode) := by
  obtain ⟨after, run⟩ := Option.isSome_iff_exists.mp quiet
  have same := nbtrfsUnlink_below (quietAppend_below zeroLocals zeroHost) _ _ after run
  unfold afterUnlink
  rw [same]
  rfl

/-- The pointers of the file without blocks are those to the superblock, which points nowhere. -/
theorem emptyFile_blocks {block : Nat} : ¬ FileHas (namedImage emptyFile) emptyFile block := by
  have none : ∀ other, ¬ PointsTo (namedImage emptyFile) 0 other := by
    rintro other ⟨bytes, index, page, -⟩
    cases page
  rintro ⟨nonzero, ⟨index, within, direct⟩ | indirect | points | indirect | points |
    ⟨lower, points, -⟩⟩
  · exact nonzero direct.symm
  · exact nonzero indirect
  · exact none block points
  · exact nonzero indirect
  · exact none block points
  · exact none lower points

/-- Unlinking the file without blocks releases the leaf of its name and nothing else. -/
theorem nbtrfsUnlink_released_iff_empty :
    Released (namedImage emptyFile) 9 emptyFile (afterUnlink emptyFile) :=
  (nbtrfsUnlink_released_iff (namedImage_lastName emptyFile rfl)
    (afterUnlink_run (by decide +kernel)) (by decide +kernel)).mpr
      fun _ _ has _ => absurd has emptyFile_blocks

/-- Unlinking the file of one block leaves the bit of the block. -/
theorem nbtrfsUnlink_released_false :
    ¬ ∀ (locals : Locals) (host : Host) (layout : Superblock) (s s' : Store) (path : CString)
        (depth : Nat) (tree : Tree (depth + 1)) (leaf : Leaf) (inode : Inode),
      LastName layout s path tree leaf inode →
      nbtrfsUnlink (appendEntry locals host) s path = some s' → Released s leaf.block inode s' := by
  intro all
  have quiet : (nbtrfsUnlink quietAppend (namedImage oneBlockFile) (pathOf [[97]])).isSome = true := by
    decide +kernel
  have released := all zeroLocals zeroHost _ _ _ _ _ _ _ _ (namedImage_lastName oneBlockFile rfl)
    (afterUnlink_run quiet)
  have clear := released.file 10 (show 10 < 400 by decide)
    ⟨by decide, Or.inl ⟨0, by decide, rfl⟩⟩
  have taken : (afterUnlink oneBlockFile).bit 10 = some true := by decide +kernel
  rw [taken] at clear
  cases clear

end Nbtrfs
