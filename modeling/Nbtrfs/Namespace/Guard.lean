import Nbtrfs.BTree.FlatMap
import Nbtrfs.BTree.Frames
import Nbtrfs.Journal.Ring
import Nbtrfs.Mkfs.Layout
import Nbtrfs.Namespace.Attributes

/-!
# Guarded pages

Most of the code writes through a tag: a pointer goes into a data block, an entry into a journal
block, an inode into a table block. A guard names what a step is not to touch: the nodes of some
blocks, bits of the block bitmap, and a property of the slots of the inode table. Every step of the
inode, directory and journal code keeps a guard under a condition on what it writes.
-/

namespace Nbtrfs

/-- What steps are to keep. -/
structure Guard where
  /-- The layout of the image. -/
  layout : Superblock
  /-- The node that a block holds. -/
  nodes : Nat → Option BTreeNode
  /-- The bit that a block has. -/
  bits : Nat → Option Bool
  /-- What an inode may be in its slot. -/
  slot : Nat → Inode → Prop

/-- A guard holds of a store. -/
structure Guard.Holds (guard : Guard) (s : Store) : Prop where
  /-- The block bitmap is in place. -/
  formatted : s.Formatted
  /-- The superblock has the layout. -/
  superblock : ∃ superblock, superblockRead s = some superblock ∧
    superblock.SameLayout guard.layout
  /-- The layout has the size of the image. -/
  total : s.totalBlocks = guard.layout.totalBlocks
  /-- The inode bitmap lies behind the block bitmap. -/
  apart : ∀ pnum < s.totalBlocks, bitmapPage pnum < guard.layout.inodeBitmap
  /-- The nodes are in their blocks. -/
  node : ∀ block node, guard.nodes block = some node → s.mem block = .btreeNode node
  /-- Their blocks are allocated. -/
  taken : ∀ block node, guard.nodes block = some node → guard.bits block = some true
  /-- The bits are as they are to be. -/
  bit : ∀ block value, guard.bits block = some value →
    block < s.totalBlocks ∧ s.bit block = some value
  /-- The slots are as they are to be. -/
  slots : ∀ inodeNumber slots, s.mem (inodePage guard.layout inodeNumber) = .inode slots →
    guard.slot inodeNumber (slots (inodeNumber % inodesPerPage))

/-- A block that the guard leaves to others. -/
structure Guard.Spare (guard : Guard) (block : Nat) : Prop where
  /-- It is not block 0. -/
  nonzero : block ≠ 0
  /-- It is no page of the block bitmap. -/
  noPage : ∀ pnum < guard.layout.totalBlocks, bitmapPage pnum ≠ block
  /-- No node of the guard is in it. -/
  free : guard.nodes block = none

/-- The guard has no clear bit, so that blocks may be allocated. -/
def Guard.Allocates (guard : Guard) : Prop := ∀ block, guard.bits block ≠ some false

/-- Another inode than before in its pointers only. -/
def Inode.Repointed (inode inode' : Inode) : Prop :=
  ∃ directBlocks indirectBlock doubleIndirectBlock,
    inode' = { inode with directBlocks, indirectBlock, doubleIndirectBlock }

/-- The inode may be written with any pointers. -/
def Guard.Accepts (guard : Guard) (inode : Inode) : Prop :=
  ∀ inode', inode.Repointed inode' → guard.slot inode.inodeNumber inode'

/-- A block that is neither the superblock nor a bitmap nor a node. -/
def Block.isLoose : Block → Bool
  | .super _ => false
  | .bitmap _ => false
  | .btreeNode _ => false
  | _ => true

/-- A block that holds no inodes. -/
def Block.noTable (block : Block) : Prop := ∀ slots, block ≠ .inode slots

section

variable {guard : Guard} {s s' : Store}

/-- A guard depends on the pages and the size of the image. -/
theorem Guard.Holds.same (holds : guard.Holds s) (mem : s'.mem = s.mem)
    (total : s'.totalBlocks = s.totalBlocks) : guard.Holds s' := by
  have pages : SamePages s s' := ⟨total, fun pnum _ => by rw [mem]⟩
  have read : superblockRead s' = superblockRead s := by
    unfold superblockRead
    rw [mem]
  constructor
  · exact pages.formatted holds.formatted
  · rw [read]
    exact holds.superblock
  · exact total.trans holds.total
  · rw [total]
    exact holds.apart
  · rw [mem]
    exact holds.node
  · exact holds.taken
  · intro block value wanted
    have given := holds.bit block value wanted
    rw [total, pages.bit given.1]
    exact given
  · rw [mem]
    exact holds.slots

/-- A block is spare by its tag. -/
theorem Guard.Holds.spare (holds : guard.Holds s) {block : Nat}
    (loose : (s.mem block).isLoose = true) : guard.Spare block := by
  constructor
  · rintro rfl
    obtain ⟨superblock, read, -⟩ := holds.superblock
    rw [superblockRead_page read] at loose
    cases loose
  · rw [← holds.total]
    apply holds.formatted.not_page_of_tag
    intro words page
    rw [page] at loose
    cases loose
  · cases wanted : guard.nodes block with
    | none => rfl
    | some node =>
      rw [holds.node block node wanted] at loose
      cases loose

/-- A free block is spare. -/
theorem Guard.Holds.spare_free (holds : guard.Holds s) {block : Nat}
    (clear : s.bit block = some false) : guard.Spare block := by
  constructor
  · rintro rfl
    rw [holds.formatted.zero] at clear
    cases clear
  · rw [← holds.total]
    exact holds.formatted.not_page clear
  · cases wanted : guard.nodes block with
    | none => rfl
    | some node =>
      have set := (holds.bit block true (holds.taken block node wanted)).2
      rw [set] at clear
      cases clear

/-- Assigning a spare page. -/
theorem Guard.Holds.put (holds : guard.Holds s) {block : Nat} (spare : guard.Spare block)
    {page : Block} (accepts : ∀ inodeNumber slots, inodePage guard.layout inodeNumber = block →
      page = .inode slots → guard.slot inodeNumber (slots (inodeNumber % inodesPerPage))) :
    guard.Holds (s.put block page) := by
  have pages : SamePages s (s.put block page) := by
    refine ⟨rfl, fun pnum inside => Store.put_other _ _ _ _ ?_⟩
    rw [holds.total] at inside
    exact spare.noPage pnum inside
  constructor
  · exact pages.formatted holds.formatted
  · obtain ⟨superblock, read, same⟩ := holds.superblock
    refine ⟨superblock, superblockRead_of_page ?_, same⟩
    rw [Store.put_other _ _ _ _ (Ne.symm spare.nonzero)]
    exact superblockRead_page read
  · exact holds.total
  · exact holds.apart
  · intro other node wanted
    have distinct : other ≠ block := by
      rintro rfl
      rw [spare.free] at wanted
      cases wanted
    rw [Store.put_other _ _ _ _ distinct]
    exact holds.node other node wanted
  · exact holds.taken
  · intro other value wanted
    have given := holds.bit other value wanted
    exact ⟨given.1, (pages.bit given.1).trans given.2⟩
  · intro inodeNumber slots tag
    by_cases here : inodePage guard.layout inodeNumber = block
    · rw [here, Store.put_same] at tag
      exact accepts inodeNumber slots here tag
    · rw [Store.put_other _ _ _ _ here] at tag
      exact holds.slots inodeNumber slots tag

/-- Assigning a spare page that holds no inodes. -/
theorem Guard.Holds.putPlain (holds : guard.Holds s) {block : Nat} (spare : guard.Spare block)
    {page : Block} (plain : page.noTable) : guard.Holds (s.put block page) :=
  holds.put spare fun _ slots _ tag => absurd tag (plain slots)

/-- Writing to the image. -/
theorem Guard.Holds.flush (holds : guard.Holds s) (block : Nat) : guard.Holds (s.flush block) :=
  holds.same rfl rfl

/-- Writing a page under the number of a block to the image. -/
theorem Guard.Holds.diskWriteAs (holds : guard.Holds s) {page pnum : Nat}
    (run : diskWriteBlockAs s page pnum = some s') : guard.Holds s' := by
  unfold diskWriteBlockAs at run
  obtain ⟨content, -, run⟩ := Option.bind_eq_some_iff.mp run
  split at run
  · obtain rfl := Option.some.inj run
    exact holds.same rfl rfl
  · cases run

/-- Writing a page under the number of a spare block. -/
theorem Guard.Holds.writeAs (holds : guard.Holds s) {page pnum : Nat} (spare : guard.Spare pnum)
    (plain : (s.mem page).noTable) (run : writeBlockAs s page pnum = some s') :
    guard.Holds s' := by
  unfold writeBlockAs at run
  obtain ⟨content, get, run⟩ := Option.bind_eq_some_iff.mp run
  obtain ⟨-, rfl⟩ := Store.get_eq_some get
  split at run
  · obtain rfl := Option.some.inj run
    exact holds.putPlain spare plain
  · cases run

/-- Writing a superblock of the layout. -/
theorem Guard.Holds.superblockWrite (holds : guard.Holds s) {superblock : Superblock}
    (same : superblock.SameLayout guard.layout) (writeThrough : Bool) :
    guard.Holds (Nbtrfs.superblockWrite s superblock writeThrough) := by
  obtain ⟨former, read, -⟩ := holds.superblock
  have page := superblockRead_page read
  have mem := superblockWrite_mem page superblock writeThrough
  have total := superblockWrite_totalBlocks s superblock writeThrough
  have other : ∀ block, block ≠ 0 →
      (Nbtrfs.superblockWrite s superblock writeThrough).mem block = s.mem block := by
    intro block nonzero
    rw [mem, Store.put_other _ _ _ _ nonzero]
  have pages : SamePages s (Nbtrfs.superblockWrite s superblock writeThrough) :=
    ⟨total, fun pnum _ => other _ (bitmapPage_ne_zero pnum)⟩
  constructor
  · exact pages.formatted holds.formatted
  · refine ⟨superblock, superblockRead_of_page ?_, same⟩
    rw [mem, Store.put_same]
  · exact total.trans holds.total
  · rw [total]
    exact holds.apart
  · intro block node wanted
    have tag := holds.node block node wanted
    rw [other]
    · exact tag
    · rintro rfl
      rw [page] at tag
      cases tag
  · exact holds.taken
  · intro block value wanted
    have given := holds.bit block value wanted
    rw [total, pages.bit given.1]
    exact given
  · intro inodeNumber slots tag
    apply holds.slots inodeNumber slots
    rw [← tag, other]
    intro zero
    rw [mem, zero, Store.put_same] at tag
    cases tag

/-- The change of a bit that the guard does not fix otherwise. -/
theorem Guard.Holds.bitChange (holds : guard.Holds s) {pnum : Nat} {value : Bool}
    (change : BitChange s pnum value s') (inside : pnum < s.totalBlocks)
    (formatted : s'.Formatted) (agrees : ∀ wanted, guard.bits pnum = some wanted → wanted = value) :
    guard.Holds s' := by
  obtain ⟨superblock, read, same⟩ := holds.superblock
  have read' := change.superblock
  rw [read] at read'
  obtain ⟨-, words, page⟩ := holds.formatted.bitmapped pnum inside
  obtain ⟨words', page'⟩ := change.page
  constructor
  · exact formatted
  · exact ⟨superblock.decrementFree, read',
      ⟨same.totalBlocks, same.inodeBitmap, same.rootInode, same.btreeRoot, same.journalStart⟩⟩
  · exact change.totalBlocks.trans holds.total
  · rw [change.totalBlocks]
    exact holds.apart
  · intro block node wanted
    have tag := holds.node block node wanted
    rw [change.mem]
    · exact tag
    · rintro rfl
      rw [superblockRead_page read] at tag
      cases tag
    · rintro rfl
      rw [page] at tag
      cases tag
  · exact holds.taken
  · intro block value' wanted
    obtain ⟨within, given⟩ := holds.bit block value' wanted
    rw [change.totalBlocks, change.bits]
    refine ⟨within, ?_⟩
    by_cases here : block = pnum
    · rw [if_pos here]
      rw [here] at wanted
      rw [agrees value' wanted]
    · rw [if_neg here]
      exact given
  · intro inodeNumber slots tag
    apply holds.slots inodeNumber slots
    rw [← tag, change.mem]
    · intro zero
      rw [zero, superblockRead_page read'] at tag
      cases tag
    · intro here
      rw [here, page'] at tag
      cases tag

/-- `alloc_page` keeps the guard, and what it returns is spare. -/
theorem Guard.Holds.allocPage (holds : guard.Holds s) (allocates : guard.Allocates) {page : Nat}
    (run : allocPage s = some (page, s')) : guard.Holds s' ∧ (page ≠ 0 → guard.Spare page) := by
  rcases allocPage_cases holds.formatted run with ⟨zero, rfl, -⟩ | allocated
  · exact ⟨holds, fun nonzero => absurd zero nonzero⟩
  · refine ⟨holds.bitChange allocated.change allocated.inside allocated.formatted ?_,
      fun _ => holds.spare_free allocated.free⟩
    intro wanted fixed
    cases wanted with
    | true => rfl
    | false => exact absurd fixed (allocates page)

/-- An inode repoints to itself. -/
theorem Inode.Repointed.refl (inode : Inode) : inode.Repointed inode := ⟨_, _, _, rfl⟩

/-- Pointers over pointers. -/
theorem Inode.Repointed.trans {first second third : Inode} (before : first.Repointed second)
    (after : second.Repointed third) : first.Repointed third := by
  obtain ⟨_, _, _, rfl⟩ := before
  obtain ⟨_, _, _, rfl⟩ := after
  exact ⟨_, _, _, rfl⟩

/-- The pointers do not number the inode. -/
theorem Inode.Repointed.inodeNumber {inode inode' : Inode} (same : inode.Repointed inode') :
    inode'.inodeNumber = inode.inodeNumber := by
  obtain ⟨_, _, _, rfl⟩ := same
  rfl

/-- An inode is accepted with other pointers, too. -/
theorem Guard.Accepts.repointed {inode inode' : Inode} (accepts : guard.Accepts inode)
    (same : inode.Repointed inode') : guard.Accepts inode' := by
  intro other further
  rw [same.inodeNumber]
  exact accepts other (same.trans further)

/-- A superblock of the layout finds the table blocks of the guard. -/
theorem Guard.Holds.inodePage (holds : guard.Holds s) {superblock : Superblock}
    (read : superblockRead s = some superblock) (inodeNumber : Nat) :
    inodePage superblock inodeNumber = Nbtrfs.inodePage guard.layout inodeNumber := by
  obtain ⟨other, readOther, same⟩ := holds.superblock
  obtain rfl := Option.some.inj (read.symm.trans readOther)
  exact inodePage_congr same.totalBlocks same.inodeBitmap inodeNumber

/-- Assigning a slot of a table block. -/
theorem Guard.Holds.putSlot (holds : guard.Holds s) {inodeNumber : Nat} {slots : Nat → Inode}
    (tag : s.mem (Nbtrfs.inodePage guard.layout inodeNumber) = .inode slots) {inode : Inode}
    (accepts : guard.slot inodeNumber inode) :
    guard.Holds (s.put (Nbtrfs.inodePage guard.layout inodeNumber)
      (.inode (setSlot slots (inodeNumber % inodesPerPage) inode))) := by
  apply holds.put
  · apply holds.spare
    rw [tag]
    rfl
  · intro other changed here page
    obtain rfl := Block.inode.inj page
    unfold setSlot
    by_cases same : other % inodesPerPage = inodeNumber % inodesPerPage
    · rw [if_pos same, inodePage_inj here same]
      exact accepts
    · rw [if_neg same]
      apply holds.slots
      rw [here]
      exact tag

/-- `inode_write` of an inode that the guard accepts. -/
theorem Guard.Holds.inodeWrite (holds : guard.Holds s) {inode : Inode} {done writeThrough : Bool}
    (accepts : guard.slot inode.inodeNumber inode)
    (run : inodeWrite s inode writeThrough = some (done, s')) : guard.Holds s' := by
  unfold Nbtrfs.inodeWrite at run
  obtain ⟨superblock, read, run⟩ := Option.bind_eq_some_iff.mp run
  rw [holds.inodePage read] at run
  obtain ⟨content, get, run⟩ := Option.bind_eq_some_iff.mp run
  obtain ⟨-, tag⟩ := Store.get_eq_some get
  cases content with
  | inode slots =>
    obtain ⟨-, rfl⟩ := Prod.mk.inj (Option.some.inj run)
    have written := holds.putSlot tag accepts
    split
    · exact written.flush _
    · exact written
  | super | bitmap | btreeNode | journal | data | untagged =>
    obtain ⟨-, rfl⟩ := Prod.mk.inj (Option.some.inj run)
    exact holds

/-- An `inode_write` whose result is not looked at. -/
theorem Guard.Holds.inodeStore (holds : guard.Holds s) {inode : Inode} {writeThrough : Bool}
    (accepts : guard.slot inode.inodeNumber inode)
    (run : inodeStore s inode writeThrough = some s') : guard.Holds s' := by
  unfold Nbtrfs.inodeStore at run
  obtain ⟨⟨done, after⟩, written, rfl⟩ := Option.map_eq_some_iff.mp run
  exact holds.inodeWrite accepts written

/-- An inode that was written is read back. -/
theorem inodeReload_stored {inode inode' : Inode} {writeThrough : Bool}
    (run : inodeStore s inode writeThrough = some s')
    (reload : inodeReload s' inode.inodeNumber inode = some inode') : inode' = inode := by
  unfold inodeStore inodeWrite at run
  obtain ⟨⟨done, after⟩, written, rfl⟩ := Option.map_eq_some_iff.mp run
  obtain ⟨superblock, read, written⟩ := Option.bind_eq_some_iff.mp written
  obtain ⟨content, get, written⟩ := Option.bind_eq_some_iff.mp written
  obtain ⟨inside, tag⟩ := Store.get_eq_some get
  unfold inodeReload inodeRead at reload
  obtain ⟨found, loaded, rfl⟩ := Option.map_eq_some_iff.mp reload
  obtain ⟨superblock', read', loaded⟩ := Option.bind_eq_some_iff.mp loaded
  obtain ⟨content', get', loaded⟩ := Option.bind_eq_some_iff.mp loaded
  obtain ⟨-, tag'⟩ := Store.get_eq_some get'
  cases content with
  | inode slots =>
    obtain ⟨-, rfl⟩ := Prod.mk.inj (Option.some.inj written)
    have notZero : inodePage superblock inode.inodeNumber ≠ 0 := by
      intro zero
      rw [zero, superblockRead_page read] at tag
      cases tag
    have mem : ∀ block, (if writeThrough then (s.put (inodePage superblock inode.inodeNumber)
        (.inode (setSlot slots (inode.inodeNumber % inodesPerPage) inode))).flush
          (inodePage superblock inode.inodeNumber)
        else s.put (inodePage superblock inode.inodeNumber)
          (.inode (setSlot slots (inode.inodeNumber % inodesPerPage) inode))).mem block =
        (s.put (inodePage superblock inode.inodeNumber)
          (.inode (setSlot slots (inode.inodeNumber % inodesPerPage) inode))).mem block := by
      intro block
      cases writeThrough
      · rfl
      · rfl
    have page := superblockRead_page read'
    dsimp only at page tag'
    rw [mem, Store.put_other _ _ _ _ (Ne.symm notZero), superblockRead_page read] at page
    obtain rfl := Block.super.inj page
    rw [mem, Store.put_same] at tag'
    subst tag'
    obtain rfl := Option.some.inj loaded
    show setSlot slots _ inode _ = inode
    exact if_pos rfl
  | super | bitmap | btreeNode | journal | data | untagged =>
    obtain ⟨-, rfl⟩ := Prod.mk.inj (Option.some.inj written)
    obtain rfl := Option.some.inj (read.symm.trans read')
    obtain rfl := tag.symm.trans tag'
    obtain rfl := Option.some.inj loaded
    rfl

end

end Nbtrfs
