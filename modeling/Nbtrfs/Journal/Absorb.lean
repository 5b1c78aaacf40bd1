import Nbtrfs.Journal.Replay
import Nbtrfs.Namespace.Attributes

/-!
# Entries that a store absorbs

A journal entry is replayed on the store as it is, not on the one that it was logged for. Where the
names it adds are there already, the names it removes are gone and the blocks it enters are in
place, the replay assigns the mode, size or creation time of one inode and leaves the rest alone.
-/

namespace Nbtrfs

/-- The pages in memory are kept. -/
structure KeepsPages (s s' : Store) : Prop where
  /-- The pages. -/
  mem : s'.mem = s.mem
  /-- The image keeps its size. -/
  totalBlocks : s'.totalBlocks = s.totalBlocks
  /-- Former content reads as before. -/
  residue : s'.residue = s.residue

/-- `disk_write_block` changes the image under the cache. -/
theorem diskWriteBlockAs_keeps {s s' : Store} {page pnum : Nat}
    (run : diskWriteBlockAs s page pnum = some s') : KeepsPages s s' := by
  unfold diskWriteBlockAs at run
  obtain ⟨content, -, run⟩ := Option.bind_eq_some_iff.mp run
  split at run
  case isTrue =>
    obtain rfl := Option.some.inj run
    exact ⟨rfl, rfl, rfl⟩
  case isFalse => cases run

/-- A block number is at an index of an inode already. -/
def MappedTo (s : Store) (node : Inode) (blockIndex physicalBlock : Nat) : Prop :=
  blockIndex < directPointers ∧ node.directBlocks blockIndex = physicalBlock ∨
    directPointers ≤ blockIndex ∧ blockIndex - directPointers < pointersPerPage ∧
      (∃ bytes, s.get node.indirectBlock = some (.data bytes) ∧
        pointerAt bytes (blockIndex - directPointers) = physicalBlock) ∧
      ∃ content, s.get physicalBlock = some (.data content)

/-- The leaf of a name as its `MKNOD` left it: the root node for a directory, or the inode. -/
def LeafInPlace (s : Store) (leaf : BTreeNode) (rootBlock inodeNumber : Nat) : Prop :=
  if leaf.type = fileTypeDirectory then
    leaf.value = rootBlock ∧ ∃ root, btreeNodeLoad s rootBlock = some root ∧
      root.blockNumber = rootBlock ∧ root.isLeaf = false ∧ root.type = fileTypeDirectory ∧
      root.value = inodeNumber
  else leaf.value = inodeNumber

/-- Replaying a transaction at a time assigns attributes only. The attributes before and after it
are given; the names and blocks are those of a store. -/
inductive Absorbs (s : Store) (time : Nat) (attributes : Nat → Attributes) :
    Transaction → (Nat → Attributes) → Prop where
  /-- Nothing is replayed. -/
  | uninitialized : Absorbs s time attributes .uninitialized attributes
  /-- The name is there, with the inode. -/
  | mknod {path : CString} {mode rootBlock inodeNumber block : Nat} {node : Inode}
      {pair : InodeBtreePair} {leaf : BTreeNode} (allocated : inodeNumber ≠ 0)
      (load : inodeLoad s inodeNumber = some node) (numbered : node.inodeNumber = inodeNumber)
      (parent : itemSearch s (parentPath path (countL path)) = some pair)
      (found : btreeSearch s pair.btreeBlock (pathHash (getName path)) = some block)
      (present : block ≠ 0) (loadLeaf : btreeNodeLoad s block = some leaf)
      (own : leaf.blockNumber = block) (inPlace : LeafInPlace s leaf rootBlock inodeNumber) :
      Absorbs s time attributes (.mknod path mode rootBlock inodeNumber)
        (setAttributes attributes inodeNumber
          { attributes inodeNumber with mode, creationTime := time })
  /-- The name is gone. -/
  | unlink {path : CString} {pair : InodeBtreePair}
      (parent : itemSearch s (parentPath path (countL path)) = some pair)
      (single : SingleIndirect s (parentPath path (countL path)))
      (unlisted : directoryExistsEntry s (parentPath path (countL path)) (getName path) = some none)
      (absent : btreeSearch s pair.btreeBlock (pathHash (getName path)) = some 0) :
      Absorbs s time attributes (.unlink path) attributes
  /-- The directory of the target is gone. -/
  | link {source target : CString} {pair : InodeBtreePair}
      (parent : itemSearch s (parentPath target (countL target)) = some pair)
      (gone : pair.isDirectory (parentPath target (countL target)) = false) :
      Absorbs s time attributes (.link source target) attributes
  /-- The mode of the inode that the path leads to. -/
  | chmod {path : CString} {mode : Nat} {node : Inode} {pair : InodeBtreePair}
      (found : itemSearch s path = some pair) (load : inodeLoad s pair.inodeNumber = some node)
      (numbered : node.inodeNumber = pair.inodeNumber) :
      Absorbs s time attributes (.chmod path mode)
        (setAttributes attributes pair.inodeNumber { attributes pair.inodeNumber with mode })
  /-- The size of the inode that the path leads to, when no block is mapped behind it. -/
  | truncate {path : CString} {size : Nat} {node : Inode} {pair : InodeBtreePair}
      (found : itemSearch s path = some pair) (load : inodeLoad s pair.inodeNumber = some node)
      (numbered : node.inodeNumber = pair.inodeNumber)
      (unmapped : ∀ i ∈ truncateIndices (node.withAttributes (attributes pair.inodeNumber)) size,
        node.doubleIndirectBlock = 0 ∧ ∃ mapped block, inodeGetBlock s node i = some (mapped, block) ∧
          ¬ (mapped = true ∧ assigned 0 block ≠ 0)) :
      Absorbs s time attributes (.truncate path size)
        (setAttributes attributes pair.inodeNumber { attributes pair.inodeNumber with size })
  /-- The block is mapped. -/
  | write {inodeNumber blockIndex physicalBlock size : Nat} {node : Inode}
      (load : inodeLoad s inodeNumber = some node) (numbered : node.inodeNumber = inodeNumber)
      (mapped : MappedTo s node blockIndex physicalBlock) :
      Absorbs s time attributes (.write inodeNumber blockIndex physicalBlock size) attributes
  /-- The target is there. -/
  | renamed {source target : CString} {pair : InodeBtreePair} {block : Nat}
      (parent : itemSearch s (parentPath target (countL target)) = some pair)
      (found : btreeSearch s pair.btreeBlock (pathHash (getName target)) = some block)
      (present : block ≠ 0) : Absorbs s time attributes (.rename source target) attributes
  /-- The directory of the target is gone. -/
  | rename {source target : CString} {pair : InodeBtreePair}
      (parent : itemSearch s (parentPath target (countL target)) = some pair)
      (gone : pair.isDirectory (parentPath target (countL target)) = false) :
      Absorbs s time attributes (.rename source target) attributes

section

variable {s s1 s2 s3 : Store} {attributes : Nat → Attributes}

/-- Nothing changes. -/
theorem KeepsPages.refl (s : Store) : KeepsPages s s := ⟨rfl, rfl, rfl⟩

/-- One after the other. -/
theorem KeepsPages.trans (first : KeepsPages s1 s2) (second : KeepsPages s2 s3) :
    KeepsPages s1 s3 :=
  ⟨second.mem.trans first.mem, second.totalBlocks.trans first.totalBlocks,
    second.residue.trans first.residue⟩

/-- Kept pages hold the same entries. -/
theorem KeepsPages.entries (kept : KeepsPages s1 s2) : EntriesKept s1 s2 := by
  intro block entry tag
  rw [kept.mem]
  exact tag

/-- Kept pages leave the relation. -/
theorem SameButAttributes.kept (same : SameButAttributes attributes s s1)
    (kept : KeepsPages s1 s2) : SameButAttributes attributes s s2 :=
  same.ofMem kept.mem kept.totalBlocks kept.residue

/-- Assigning a page what it holds. -/
theorem put_self {block : Nat} {page : Block} (tag : s.mem block = page) :
    KeepsPages s (s.put block page) := by
  refine ⟨?_, rfl, rfl⟩
  funext other
  by_cases here : other = block
  · rw [here, Store.put_same, tag]
  · exact Store.put_other _ _ _ _ here

/-- A node that is loaded is in its page. -/
theorem btreeNodeLoad_page {block : Nat} {node : BTreeNode}
    (load : btreeNodeLoad s block = some node) :
    block < s.totalBlocks ∧ s.mem block = .btreeNode node := by
  unfold btreeNodeLoad btreeNodeRead at load
  cases get : s.get block with
  | none =>
    rw [get] at load
    cases load
  | some page =>
    obtain ⟨inside, tag⟩ := Store.get_eq_some get
    rw [get] at load
    cases page with
    | btreeNode found =>
      obtain rfl := Option.some.inj load
      exact ⟨inside, tag⟩
    | super | bitmap | inode | journal | data | untagged => cases load

/-- Writing a node that is in its page. -/
theorem btreeNodeWrite_same {block : Nat} {node : BTreeNode}
    (load : btreeNodeLoad s block = some node) (own : node.blockNumber = block)
    (run : btreeNodeWrite s node = some s1) : KeepsPages s s1 := by
  obtain ⟨inside, tag⟩ := btreeNodeLoad_page load
  unfold btreeNodeWrite at run
  rw [own, Store.get_of_lt inside, tag] at run
  obtain rfl := Option.some.inj run
  exact put_self tag

/-- Nodes are loaded from the pages. -/
theorem KeepsPages.nodeRead (kept : KeepsPages s1 s2) (block : Nat) :
    btreeNodeRead s2 block = btreeNodeRead s1 block := by
  unfold btreeNodeRead Store.get
  rw [kept.mem, kept.totalBlocks]

/-- `btree_write` writes to the image only. -/
theorem btreeWrite_keeps {block : Nat} (run : btreeWrite s block = some s1) : KeepsPages s s1 := by
  have loop : ∀ fuel s block s1, btreeWriteFrom fuel s block = some s1 → KeepsPages s s1 := by
    intro fuel
    induction fuel with
    | zero =>
      intro s block s1 wrong
      cases wrong
    | succ fuel ih =>
      intro s block s1 run
      have children : ∀ (blocks : List Nat) (s s1 : Store),
          blocks.foldlM (btreeWriteFrom fuel) s = some s1 → KeepsPages s s1 := by
        intro blocks
        induction blocks with
        | nil =>
          intro s s1 done
          obtain rfl := Option.some.inj done
          exact .refl s
        | cons block blocks rest =>
          intro s s1 fold
          rw [List.foldlM_cons] at fold
          cases first : btreeWriteFrom fuel s block with
          | none =>
            rw [first] at fold
            cases fold
          | some middle =>
            rw [first] at fold
            exact (ih s block middle first).trans (rest middle s1 fold)
      rw [btreeWriteFrom] at run
      cases read : btreeNodeRead s block with
      | none =>
        rw [read] at run
        cases run
      | some found =>
        rw [read, Option.bind_eq_bind, Option.bind_some] at run
        cases found with
        | none =>
          obtain rfl := Option.some.inj run
          exact .refl s
        | some node =>
          have written := children _ _ _ run
          exact ⟨written.mem, written.totalBlocks, written.residue⟩
  exact loop _ _ _ _ run

/-- Truncation goes past indices that are not mapped. -/
theorem truncateBlocks_unmapped {node : Inode} {indices : List Nat}
    (unmapped : ∀ i ∈ indices, ∃ mapped block, inodeGetBlock s node i = some (mapped, block) ∧
      ¬ (mapped = true ∧ assigned 0 block ≠ 0)) :
    truncateBlocks indices s node = some (node, s) := by
  induction indices with
  | nil => rfl
  | cons i indices ih =>
    obtain ⟨mapped, block, get, nothing⟩ := unmapped i List.mem_cons_self
    rw [truncateBlocks, get, Option.bind_eq_bind, Option.bind_some]
    show (if mapped = true ∧ assigned 0 block ≠ 0 then _ else _) = _
    rw [if_neg nothing]
    exact ih fun other member => unmapped other (List.mem_cons_of_mem i member)

/-- A change of attributes by what was there before. -/
theorem setAttributes_self (attributes : Nat → Attributes) (inodeNumber : Nat) :
    setAttributes attributes inodeNumber (attributes inodeNumber) = attributes := by
  funext other
  unfold setAttributes
  by_cases here : other = inodeNumber
  · rw [if_pos here, here]
  · rw [if_neg here]

/-- `_chmod` assigns the mode. -/
theorem chmod_absorbed (same : SameButAttributes attributes s s1) {path : CString}
    {mode : Nat} {node : Inode} {pair : InodeBtreePair} (found : itemSearch s path = some pair)
    (load : inodeLoad s pair.inodeNumber = some node)
    (numbered : node.inodeNumber = pair.inodeNumber) {done writeThrough : Bool}
    (run : chmod s1 path mode writeThrough = some (done, s2)) :
    SameButAttributes (setAttributes attributes pair.inodeNumber
      { attributes pair.inodeNumber with mode }) s s2 ∧ EntriesKept s1 s2 := by
  have read : inodeRead s1 pair.inodeNumber =
      some (some (node.withAttributes (attributes pair.inodeNumber))) := by
    have load' := same.inodeLoad pair.inodeNumber
    rw [load] at load'
    exact Option.join_eq_some_iff.mp load'
  unfold chmod at run
  rw [same.itemSearch, found, Option.bind_eq_bind, Option.bind_some] at run
  rw [read] at run
  apply same.inodeStore load numbered { attributes pair.inodeNumber with mode }
  show (inodeWrite s1 _ writeThrough).map Prod.snd = some s2
  have written : inodeWrite s1 (node.withAttributes { attributes pair.inodeNumber with mode })
      writeThrough = some (done, s2) := run
  rw [written]
  rfl

/-- `_truncate` assigns the size when nothing is mapped behind it. -/
theorem truncate_absorbed (same : SameButAttributes attributes s s1) {path : CString}
    {size : Nat} {node : Inode} {pair : InodeBtreePair} (found : itemSearch s path = some pair)
    (load : inodeLoad s pair.inodeNumber = some node)
    (numbered : node.inodeNumber = pair.inodeNumber)
    (unmapped : ∀ i ∈ truncateIndices (node.withAttributes (attributes pair.inodeNumber)) size,
      node.doubleIndirectBlock = 0 ∧ ∃ mapped block, inodeGetBlock s node i = some (mapped, block) ∧
        ¬ (mapped = true ∧ assigned 0 block ≠ 0)) {writeThrough : Bool}
    (run : truncate s1 path size writeThrough = some s2) :
    SameButAttributes (setAttributes attributes pair.inodeNumber
      { attributes pair.inodeNumber with size }) s s2 ∧ EntriesKept s1 s2 := by
  have passed := @truncateBlocks_unmapped s1 (node.withAttributes (attributes pair.inodeNumber))
    (truncateIndices (node.withAttributes (attributes pair.inodeNumber)) size) (by
      intro i member
      obtain ⟨single, mapped, block, get, nothing⟩ := unmapped i member
      exact ⟨mapped, block, (same.inodeGetBlock single _ i).trans get, nothing⟩)
  unfold truncate at run
  rw [same.itemSearch, found, Option.bind_eq_bind, Option.bind_some] at run
  have load' := same.inodeLoad pair.inodeNumber
  rw [load, Option.map_some] at load'
  rw [load', Option.bind_eq_bind, Option.bind_some, truncateInode, passed] at run
  exact same.inodeStore load numbered { attributes pair.inodeNumber with size } run

/-- The replay of a `WRITE` of a mapped block changes nothing. -/
theorem replayWrite_absorbed (same : SameButAttributes attributes s s1)
    {inodeNumber blockIndex physicalBlock : Nat} {node : Inode}
    (load : inodeLoad s inodeNumber = some node) (numbered : node.inodeNumber = inodeNumber)
    (mapped : MappedTo s node blockIndex physicalBlock)
    (run : replayWrite s1 inodeNumber blockIndex physicalBlock = some s2) :
    SameButAttributes attributes s s2 ∧ EntriesKept s1 s2 := by
  have load' := same.inodeLoad inodeNumber
  rw [load, Option.map_some] at load'
  unfold replayWrite at run
  rw [load', Option.bind_eq_bind, Option.bind_some] at run
  cases set : inodeSetBlock s1 (node.withAttributes (attributes inodeNumber)) blockIndex
      physicalBlock with
  | none =>
    rw [set] at run
    cases run
  | some result =>
    obtain ⟨done, node', middle⟩ := result
    rw [set] at run
    have kept : node' = node.withAttributes (attributes inodeNumber) ∧
        SameButAttributes attributes s middle ∧ EntriesKept s1 middle := by
      rcases mapped with ⟨direct, here⟩ | ⟨behind, small, ⟨bytes, get, here⟩, content, target⟩
      · have unchanged : (node.withAttributes (attributes inodeNumber)).withDirect blockIndex
            physicalBlock = node.withAttributes (attributes inodeNumber) := by
          unfold Inode.withDirect
          congr 1
          funext other
          by_cases equal : other = blockIndex
          · rw [if_pos equal, equal]
            exact here.symm
          · exact if_neg equal
        unfold inodeSetBlock at set
        rw [if_pos direct, unchanged] at set
        have set' : ((inodeStore s1 (node.withAttributes (attributes inodeNumber)) true).bind fun s =>
            some (true, node.withAttributes (attributes inodeNumber), s)) =
            some (done, node', middle) := set
        cases store : inodeStore s1 (node.withAttributes (attributes inodeNumber)) true with
        | none =>
          rw [store] at set'
          cases set'
        | some stored =>
          rw [store] at set'
          obtain ⟨-, rest⟩ := Prod.mk.inj (Option.some.inj set')
          obtain ⟨rfl, rfl⟩ := Prod.mk.inj rest
          have step := same.inodeStore load numbered (attributes inodeNumber) store
          rw [setAttributes_self] at step
          exact ⟨rfl, step⟩
      · obtain ⟨superblock, journalHead, read, read'⟩ := same.superblock
        obtain ⟨inside, tag⟩ := Store.get_eq_some get
        obtain ⟨targetInside, targetTag⟩ := Store.get_eq_some target
        have linked : node.indirectBlock ≠ 0 := by
          intro zero
          rw [zero, superblockRead_page read] at tag
          cases tag
        have nonzero : physicalBlock ≠ 0 := by
          intro zero
          rw [zero, superblockRead_page read] at targetTag
          cases targetTag
        have tag1 : s1.mem node.indirectBlock = .data bytes := by
          rw [(same.pages node.indirectBlock).content (by rw [tag]; trivial), tag]
        have targetTag1 : s1.mem physicalBlock = .data content := by
          rw [(same.pages physicalBlock).content (by rw [targetTag]; trivial), targetTag]
        have inside1 : node.indirectBlock < s1.totalBlocks := by
          rw [same.totalBlocks]
          exact inside
        have targetInside1 : physicalBlock < s1.totalBlocks := by
          rw [same.totalBlocks]
          exact targetInside
        have entered : setPointer bytes (blockIndex - directPointers) physicalBlock = bytes := by
          rw [← here]
          exact LittleEndian.store_load bytes (8 * (blockIndex - directPointers)) 8
        have link : linkPointer s1 node.indirectBlock (blockIndex - directPointers) physicalBlock =
            some ((((s1.put node.indirectBlock (.data bytes)).flush node.indirectBlock).put
              physicalBlock (.data content)).flush physicalBlock) := by
          have pages := put_self tag1
          have again : ((s1.put node.indirectBlock (.data bytes)).flush node.indirectBlock).mem
              physicalBlock = .data content := by
            rw [Store.flush_mem, pages.mem]
            exact targetTag1
          rw [linkPointer, writePointer_data tag1 inside1 small, entered, Option.bind_eq_bind,
            Option.bind_some, diskWriteBlockAs_self (by exact inside1), Option.bind_some,
            tagData_of_lt (by exact targetInside1), Option.bind_some, again,
            diskWriteBlockAs_self (by exact targetInside1)]
          rfl
        have part : blockIndex ≤ pointersPerPage + directPointers := by omega
        unfold inodeSetBlock at set
        rw [if_neg (Nat.not_lt.mpr behind), if_pos part, inodeSetIndirect,
          if_neg (fun all => nonzero all.2.1)] at set
        have set' : (if node.indirectBlock = 0 then _ else
            (linkPointer s1 node.indirectBlock (blockIndex - directPointers) physicalBlock).bind
              fun s => some (true, node.withAttributes (attributes inodeNumber), s)) =
            some (done, node', middle) := set
        rw [if_neg linked, link] at set'
        obtain ⟨-, rest⟩ := Prod.mk.inj (Option.some.inj set')
        obtain ⟨rfl, rfl⟩ := Prod.mk.inj rest
        have pages : KeepsPages s1 ((((s1.put node.indirectBlock (.data bytes)).flush
            node.indirectBlock).put physicalBlock (.data content)).flush physicalBlock) := by
          have first := put_self tag1
          have second := @put_self ((s1.put node.indirectBlock (.data bytes)).flush
            node.indirectBlock) physicalBlock (.data content) (by
              rw [Store.flush_mem, first.mem]
              exact targetTag1)
          exact ⟨second.mem.trans first.mem, rfl, rfl⟩
        exact ⟨rfl, same.kept pages, pages.entries⟩
    obtain ⟨rfl, same', entries⟩ := kept
    have step := same'.inodeStore load numbered (attributes inodeNumber) run
    rw [setAttributes_self] at step
    exact ⟨step.1, entries.trans step.2⟩

/-- Nodes are loaded the same. -/
theorem SameButAttributes.nodeLoad (same : SameButAttributes attributes s s1) (block : Nat) :
    btreeNodeLoad s1 block = btreeNodeLoad s block := by
  unfold btreeNodeLoad
  rw [same.nodeRead]

/-- Reading over a node a node that loads. -/
theorem btreeNodeReload_load {block : Nat} {node : BTreeNode}
    (load : btreeNodeLoad s block = some node) (former : BTreeNode) :
    btreeNodeReload s block former = some node := by
  have read : btreeNodeRead s block = some (some node) := Option.join_eq_some_iff.mp load
  unfold btreeNodeReload
  rw [read]
  rfl

/-- A leaf that is in place is written back as it is. -/
theorem replayPresent_absorbed {block rootBlock inodeNumber : Nat} {leaf : BTreeNode}
    (loadLeaf : btreeNodeLoad s block = some leaf) (own : leaf.blockNumber = block)
    (inPlace : LeafInPlace s leaf rootBlock inodeNumber) {written : Bool}
    (run : replayPresent s block rootBlock inodeNumber = some (written, s1)) : KeepsPages s s1 := by
  unfold replayPresent at run
  rw [loadLeaf, Option.bind_eq_bind, Option.bind_some] at run
  unfold LeafInPlace at inPlace
  by_cases directory : leaf.type = fileTypeDirectory
  · rw [if_pos directory] at inPlace run
    obtain ⟨value, root, loadRoot, ownRoot, inner, type, valueRoot⟩ := inPlace
    have sameLeaf : { leaf with value := rootBlock } = leaf := by
      rw [← value]
    have sameRoot : { root with
        isLeaf := false, type := fileTypeDirectory, value := inodeNumber } = root := by
      rw [← type, ← valueRoot, ← inner]
    simp only [replayDirectory, sameLeaf, Option.bind_eq_bind] at run
    cases first : btreeNodeWrite s leaf with
    | none =>
      rw [first] at run
      cases run
    | some middle =>
      have kept := btreeNodeWrite_same loadLeaf own first
      have loadRoot' : btreeNodeLoad middle rootBlock = some root := by
        unfold btreeNodeLoad
        rw [kept.nodeRead]
        exact loadRoot
      simp only [first, Option.bind_some, btreeNodeReload_load loadRoot', inner, Bool.false_eq_true,
        if_false] at run
      have run' : ((btreeNodeWrite middle
          { root with isLeaf := false, type := fileTypeDirectory, value := inodeNumber }).bind
            fun s => some (true, s)) = some (written, s1) := run
      rw [sameRoot] at run'
      cases second : btreeNodeWrite middle root with
      | none =>
        rw [second] at run'
        cases run'
      | some last =>
        rw [second] at run'
        obtain ⟨-, rfl⟩ := Prod.mk.inj (Option.some.inj run')
        exact kept.trans (btreeNodeWrite_same loadRoot' ownRoot second)
  · rw [if_neg directory] at inPlace run
    have sameLeaf : { leaf with value := inodeNumber } = leaf := by
      rw [← inPlace]
    rw [sameLeaf] at run
    cases first : btreeNodeWrite s leaf with
    | none =>
      rw [first] at run
      cases run
    | some last =>
      rw [first] at run
      obtain ⟨-, rfl⟩ := Prod.mk.inj (Option.some.inj run)
      exact btreeNodeWrite_same loadLeaf own first

/-- What is in place stays so when attributes change. -/
theorem SameButAttributes.inPlace (same : SameButAttributes attributes s s1) {leaf : BTreeNode}
    {rootBlock inodeNumber : Nat} (inPlace : LeafInPlace s leaf rootBlock inodeNumber) :
    LeafInPlace s1 leaf rootBlock inodeNumber := by
  unfold LeafInPlace at inPlace ⊢
  rw [same.nodeLoad]
  exact inPlace

/-- The replay of a `MKNOD` whose name is in place assigns the mode and the creation time. -/
theorem replayMknod_absorbed {host : Host} (same : SameButAttributes attributes s s1)
    {path : CString} {mode rootBlock inodeNumber block : Nat} {node : Inode} {pair : InodeBtreePair}
    {leaf : BTreeNode} (load : inodeLoad s inodeNumber = some node)
    (numbered : node.inodeNumber = inodeNumber)
    (parent : itemSearch s (parentPath path (countL path)) = some pair)
    (found : btreeSearch s pair.btreeBlock (pathHash (getName path)) = some block)
    (present : block ≠ 0) (loadLeaf : btreeNodeLoad s block = some leaf)
    (own : leaf.blockNumber = block) (inPlace : LeafInPlace s leaf rootBlock inodeNumber)
    (run : replayMknod host s1 path mode rootBlock inodeNumber = some s2) :
    SameButAttributes (setAttributes attributes inodeNumber
      { attributes inodeNumber with mode, creationTime := host.time }) s s2 ∧ EntriesKept s1 s2 := by
  have load' := same.inodeLoad inodeNumber
  rw [load, Option.map_some] at load'
  unfold replayMknod at run
  rw [load', Option.bind_eq_bind, Option.bind_some] at run
  let new : Attributes := { attributes inodeNumber with mode, creationTime := host.time }
  change (inodeStore s1 (node.withAttributes new) true).bind _ = some s2 at run
  cases store : inodeStore s1 (node.withAttributes new) true with
  | none =>
    rw [store] at run
    cases run
  | some stored =>
    obtain ⟨same', entries⟩ := same.inodeStore load numbered new store
    simp only [store, Option.bind_eq_bind, Option.bind_some, same'.itemSearch, parent,
      same'.btreeSearch, found, if_neg present] at run
    have loadLeaf' : btreeNodeLoad stored block = some leaf := (same'.nodeLoad block).trans loadLeaf
    cases replay : replayPresent stored block rootBlock inodeNumber with
    | none =>
      rw [replay] at run
      cases run
    | some result =>
      obtain ⟨written, replayed⟩ := result
      have kept := replayPresent_absorbed loadLeaf' own (same'.inPlace inPlace) replay
      rw [replay] at run
      have run'' : (if written then btreeWrite replayed pair.btreeBlock else some replayed) =
          some s2 := run
      have all : KeepsPages stored s2 := by
        cases written with
        | true => exact kept.trans (btreeWrite_keeps run'')
        | false =>
          obtain rfl := Option.some.inj run''
          exact kept
      exact ⟨same'.kept all, entries.trans all.entries⟩

/-- `_unlink` of a name that is gone changes nothing. -/
theorem unlink_absorbed (same : SameButAttributes attributes s s1) {path : CString}
    {pair : InodeBtreePair} (parent : itemSearch s (parentPath path (countL path)) = some pair)
    (single : SingleIndirect s (parentPath path (countL path)))
    (unlisted : directoryExistsEntry s (parentPath path (countL path)) (getName path) = some none)
    (absent : btreeSearch s pair.btreeBlock (pathHash (getName path)) = some 0)
    (writeThrough : Bool) : unlink s1 path writeThrough = some s1 := by
  simp only [unlink, same.itemSearch, parent, same.directoryExistsEntry single, unlisted,
    same.btreeSearch, absent, Option.bind_eq_bind, Option.bind_some]
  rfl

/-- `_link` into a directory that is gone changes nothing. -/
theorem link_absorbed {append : Append} {locals : Locals} (same : SameButAttributes attributes s s1)
    {source target : CString} {pair : InodeBtreePair}
    (parent : itemSearch s (parentPath target (countL target)) = some pair)
    (gone : pair.isDirectory (parentPath target (countL target)) = false) {done writeThrough : Bool}
    (run : link append locals s1 source target writeThrough = some (done, s2)) :
    done = false ∧ s2 = s1 := by
  have unlisted : directoryExistsEntry s1 (parentPath target (countL target)) (getName target) =
      some none := by
    unfold directoryExistsEntry
    rw [same.itemSearch, parent, Option.bind_eq_bind, Option.bind_some, gone]
    exact if_neg Bool.false_ne_true
  have refused : ∀ inodeNumber type result,
      directoryAddEntry append locals s1 (parentPath target (countL target)) (getName target)
        inodeNumber type writeThrough = some result → result = (false, s1) := by
    intro inodeNumber type result added
    unfold directoryAddEntry at added
    rw [same.itemSearch, parent, Option.bind_eq_bind, Option.bind_some, gone] at added
    by_cases long : nameMax ≤ (getName target).length
    · rw [if_pos long] at added
      cases added
    · rw [if_neg long, if_neg Bool.false_ne_true] at added
      exact (Option.some.inj added).symm
  cases search : itemSearch s1 source with
  | none =>
    simp only [link, search] at run
    cases run
  | some fromPair =>
    cases load : inodeLoad s1 fromPair.inodeNumber with
    | none =>
      simp only [link, search, load, Option.bind_eq_bind, Option.bind_some] at run
      cases run
    | some inode =>
      simp only [link, search, load, unlisted, Option.bind_eq_bind, Option.bind_some] at run
      cases added : directoryAddEntry append locals s1 (parentPath target (countL target))
          (getName target) fromPair.inodeNumber (inode.mode &&& fileTypeMask) writeThrough with
      | none =>
        rw [added] at run
        cases run
      | some result =>
        obtain rfl := refused _ _ _ added
        rw [added, Option.bind_some, if_neg Bool.false_ne_true] at run
        obtain ⟨rfl, rfl⟩ := Prod.mk.inj (Option.some.inj run)
        exact ⟨rfl, rfl⟩

/-- `_rename` to a name that is there, or into a directory that is gone, changes nothing. -/
theorem rename_absorbed {append : Append} {locals : Locals} {reread : Store → Option CString}
    (same : SameButAttributes attributes s s1) {source target : CString} {pair : InodeBtreePair}
    (parent : itemSearch s (parentPath target (countL target)) = some pair)
    (refused : (∃ block, btreeSearch s pair.btreeBlock (pathHash (getName target)) = some block ∧
      block ≠ 0) ∨ pair.isDirectory (parentPath target (countL target)) = false)
    {done writeThrough : Bool}
    (run : rename append locals reread s1 source target writeThrough = some (done, s2)) :
    s2 = s1 := by
  unfold rename at run
  rw [same.itemSearch, parent, Option.bind_eq_bind, Option.bind_some, same.btreeSearch] at run
  cases search : btreeSearch s pair.btreeBlock (pathHash (getName target)) with
  | none =>
    rw [search] at run
    cases run
  | some block =>
    rw [search, Option.bind_eq_bind, Option.bind_some] at run
    by_cases present : block ≠ 0
    · rw [if_pos present] at run
      exact (Prod.mk.inj (Option.some.inj run)).2.symm
    · rw [if_neg present] at run
      rcases refused with ⟨other, found, nonzero⟩ | gone
      · rw [search] at found
        rw [Option.some.inj found] at present
        exact absurd nonzero present
      · cases linked : link append locals s1 source target writeThrough with
        | none =>
          rw [linked] at run
          cases run
        | some result =>
          obtain ⟨added, middle⟩ := result
          obtain ⟨rfl, rfl⟩ := link_absorbed same parent gone linked
          rw [linked] at run
          exact (Prod.mk.inj (Option.some.inj run)).2.symm

/-- The replay of an entry that a store absorbs assigns the attributes and leaves the rest of the
store and the journal alone. -/
theorem replayTransaction_absorbed {append : Append} {locals : Locals} {host : Host} {block : Nat}
    {attributes' : Nat → Attributes} (same : SameButAttributes attributes s s1)
    {entry : JournalEntry} (page : entryAt s1 block = some entry)
    (absorbs : Absorbs s host.time attributes entry.transaction attributes') {returned : Bool}
    (run : replayTransaction append locals host block s1 = some (returned, s2)) :
    SameButAttributes attributes' s s2 ∧ EntriesKept s1 s2 ∧ returned = false := by
  unfold replayTransaction at run
  rw [page, Option.bind_eq_bind, Option.bind_some] at run
  generalize entry.transaction = transaction at absorbs run
  have finish : ∀ {result : Option Store}, (result.bind fun s => some (false, s)) =
      some (returned, s2) → result = some s2 ∧ returned = false := by
    intro result ends
    cases result with
    | none => cases ends
    | some last =>
      obtain ⟨rfl, rfl⟩ := Prod.mk.inj (Option.some.inj ends)
      exact ⟨rfl, rfl⟩
  have finishPair : ∀ {result : Option (Bool × Store)},
      (result.bind fun done => some (false, done.2)) = some (returned, s2) →
        ∃ done, result = some (done, s2) ∧ returned = false := by
    intro result ends
    cases result with
    | none => cases ends
    | some last =>
      obtain ⟨done, last⟩ := last
      obtain ⟨rfl, rfl⟩ := Prod.mk.inj (Option.some.inj ends)
      exact ⟨done, rfl, rfl⟩
  cases absorbs with
  | uninitialized =>
    obtain ⟨rfl, rfl⟩ := Prod.mk.inj (Option.some.inj run)
    exact ⟨same, (KeepsPages.refl s1).entries, rfl⟩
  | mknod allocated load numbered parent found present loadLeaf own inPlace =>
    simp only [if_neg allocated] at run
    obtain ⟨replay, last⟩ := finish run
    obtain ⟨same', entries⟩ :=
      replayMknod_absorbed same load numbered parent found present loadLeaf own inPlace replay
    exact ⟨same', entries, last⟩
  | unlink parent single unlisted absent =>
    obtain ⟨replay, last⟩ := finish run
    rw [unlink_absorbed same parent single unlisted absent] at replay
    obtain rfl := Option.some.inj replay
    exact ⟨same, (KeepsPages.refl _).entries, last⟩
  | link parent gone =>
    obtain ⟨done, linked, last⟩ := finishPair run
    obtain ⟨-, rfl⟩ := link_absorbed same parent gone linked
    exact ⟨same, (KeepsPages.refl _).entries, last⟩
  | chmod found load numbered =>
    obtain ⟨done, changed, last⟩ := finishPair run
    obtain ⟨same', entries⟩ := chmod_absorbed same found load numbered changed
    exact ⟨same', entries, last⟩
  | truncate found load numbered unmapped =>
    obtain ⟨replay, last⟩ := finish run
    obtain ⟨same', entries⟩ := truncate_absorbed same found load numbered unmapped replay
    exact ⟨same', entries, last⟩
  | write load numbered mapped =>
    obtain ⟨replay, last⟩ := finish run
    obtain ⟨same', entries⟩ := replayWrite_absorbed same load numbered mapped replay
    exact ⟨same', entries, last⟩
  | @renamed source target pair block parent found present =>
    obtain ⟨done, renamed, last⟩ := finishPair run
    obtain rfl := rename_absorbed same parent (Or.inl ⟨block, found, present⟩) renamed
    exact ⟨same, (KeepsPages.refl _).entries, last⟩
  | rename parent gone =>
    obtain ⟨done, renamed, last⟩ := finishPair run
    obtain rfl := rename_absorbed same parent (Or.inr gone) renamed
    exact ⟨same, (KeepsPages.refl _).entries, last⟩

end

end Nbtrfs
