import Nbtrfs.Fuse.Content

/-!
# Writing a file

`nbtrfs_write` on a file without holes: one round of its loop maps the page if it is the next one
and lays a piece of the buffer over it, so the rounds together lay the buffer over the bytes of the
file. Blocks of other files, the B-trees and the other inodes are left alone.
-/

namespace Nbtrfs

/-- An append that touches journal blocks and the superblock only. -/
structure TouchesJournal (append : Append) : Prop where
  /-- It returns on every image with a superblock and leaves the other pages alone. -/
  run : ∀ entry s superblock, superblockRead s = some superblock →
    ∃ s' freeBlocks journalHead, append entry s = some s' ∧
      superblockRead s' = some (superblock.withCounters freeBlocks journalHead) ∧
      (∀ block, block ≠ 0 → (∀ old, s.mem block ≠ .journal old) → s'.mem block = s.mem block) ∧
      s'.totalBlocks = s.totalBlocks ∧ s'.residue = s.residue

/-- A change of a file with a number of mapped indices: its own blocks and its slot, and the counters
of the superblock. -/
abbrev FileChange (superblock : Superblock) (inode : Inode) (pages : Nat) (s s' : Store) : Prop :=
  Undisturbed (OwnBlock s inode pages) (inodePage superblock inode.inodeNumber)
    (inode.inodeNumber % inodesPerPage) s s'

/-- Another inode than before in its pointers only. -/
def SameButPointers (inode inode' : Inode) : Prop :=
  ∃ directBlocks indirectBlock, inode' = { inode with directBlocks, indirectBlock }

/-- The free blocks that mapping the indices from a number of pages up to another takes. -/
def blocksNeeded (inode : Inode) (pages target : Nat) : Nat :=
  (target - pages) +
    if pages < target ∧ inode.indirectBlock = 0 ∧ directPointers < target then 1 else 0

section

variable {s s' : Store} {superblock : Superblock} {inode inode' : Inode} {pages : Nat}
  {append : Append} {locals : Locals}

/-- A change of journal blocks and of the counters of the superblock leaves the files alone. -/
theorem undisturbed_journal (formatted : s.Formatted) (read : superblockRead s = some superblock)
    {freeBlocks journalHead : Nat}
    (read' : superblockRead s' = some (superblock.withCounters freeBlocks journalHead))
    (kept : ∀ block, block ≠ 0 → (∀ old, s.mem block ≠ .journal old) →
      s'.mem block = s.mem block)
    (total : s'.totalBlocks = s.totalBlocks) (residue : s'.residue = s.residue) :
    (∀ page slot, Undisturbed (fun _ => False) page slot s s') ∧ SamePages s s' := by
  have samePages : SamePages s s' := by
    refine ⟨total, fun pnum inside => kept _ (bitmapPage_ne_zero pnum) ?_⟩
    intro old tag
    obtain ⟨-, words, page⟩ := formatted.bitmapped pnum inside
    rw [page] at tag
    cases tag
  refine ⟨fun page slot => ?_, samePages⟩
  constructor
  · exact total
  · exact residue
  · exact samePages.formatted formatted
  · intro other readOther
    obtain rfl := Option.some.inj (read.symm.trans readOther)
    exact ⟨freeBlocks, journalHead, read'⟩
  · intro block inside set
    rw [samePages.bit inside]
    exact set
  · intro block _ _ _ content
    apply kept block (content_ne_zero read content)
    intro old tag
    rw [tag] at content
    exact content
  · intro block _ _ _ slots tag
    rw [kept block (table_ne_zero read tag) (fun old wrong => by rw [tag] at wrong; cases wrong)]
    exact ⟨slots, tag, fun _ => Or.inr rfl⟩

/-- An append leaves the files alone. -/
theorem TouchesJournal.undisturbed (journal : TouchesJournal append) (formatted : s.Formatted)
    (read : superblockRead s = some superblock) (entry : JournalEntry) :
    ∃ s', append entry s = some s' ∧
      (∀ page slot, Undisturbed (fun _ => False) page slot s s') ∧ SamePages s s' := by
  obtain ⟨s', freeBlocks, journalHead, run, read', kept, total, residue⟩ :=
    journal.run entry s superblock read
  exact ⟨s', run, undisturbed_journal formatted read read' kept total residue⟩

/-- The single indirect block is a content block. -/
theorem IndirectReady.content (ready : IndirectReady s inode) (linked : inode.indirectBlock ≠ 0) :
    (s.mem inode.indirectBlock).isContent := by
  obtain ⟨-, -, bytes, tag⟩ := ready linked
  rw [tag]
  trivial

/-- A change that leaves the single indirect block alone keeps it in place. -/
theorem Undisturbed.indirectReady {ours : Nat → Prop} {page slot : Nat}
    (change : Undisturbed ours page slot s s') (ready : IndirectReady s inode)
    (notOurs : inode.indirectBlock ≠ 0 → ¬ ours inode.indirectBlock) : IndirectReady s' inode := by
  intro linked
  obtain ⟨inside, set, bytes, tag⟩ := ready linked
  refine ⟨?_, change.bits _ inside set, bytes, ?_⟩
  · rw [change.totalBlocks]
    exact inside
  · rw [change.mem _ inside set (notOurs linked) (ready.content linked), tag]

/-- Such a change keeps the block map. -/
theorem Undisturbed.blockPointer {ours : Nat → Prop} {page slot : Nat}
    (change : Undisturbed ours page slot s s') (ready : IndirectReady s inode)
    (notOurs : inode.indirectBlock ≠ 0 → ¬ ours inode.indirectBlock) (index : Nat) :
    Nbtrfs.blockPointer s' inode index = Nbtrfs.blockPointer s inode index := by
  apply blockPointer_congr (fun _ => rfl) rfl
  intro linked
  obtain ⟨inside, set, -⟩ := ready linked
  exact change.mem _ inside set (notOurs linked) (ready.content linked)

/-- The content of a mapped page. -/
theorem FileView.content (view : FileView s superblock inode pages) {index : Nat}
    (mapped : index < pages) : (s.mem (blockPointer s inode index)).isContent := by
  obtain ⟨bytes, tag⟩ := view.data index mapped
  rw [tag]
  trivial

/-- A file after its next page is mapped to a block of zero bytes. -/
structure PageMapped (s : Store) (superblock : Superblock) (inode : Inode) (pages pnum : Nat)
    (inode' : Inode) (s' : Store) : Prop where
  /-- The file has one more page. -/
  view : ∃ freeBlocks journalHead,
    FileView s' (superblock.withCounters freeBlocks journalHead) inode' (pages + 1)
  /-- The inode changes in its pointers only. -/
  fields : SameButPointers inode inode'
  /-- The block is at the next index and the others are kept. -/
  pointer : ∀ other < pointersPerPage,
    blockPointer s' inode' other = if other = pages then pnum else blockPointer s inode other
  /-- The page is blank. -/
  blank : s'.mem pnum = .data fun _ => 0
  /-- The other pages are kept. -/
  kept : ∀ index < pages,
    s'.mem (blockPointer s inode index) = s.mem (blockPointer s inode index)
  /-- The rest is left alone. -/
  frame : FileChange superblock inode pages s s'
  /-- The block was free. -/
  fresh : s.bit pnum = some false
  /-- The single indirect block is the one before or was free. -/
  indirect : inode'.indirectBlock = inode.indirectBlock ∨
    inode.indirectBlock = 0 ∧ s.bit inode'.indirectBlock ≠ some true
  /-- The blocks are taken from the free ones. -/
  freeCount : s'.freeCount + (1 + pointerBlocks inode pages) = s.freeCount

/-- A file after its next index is mapped to a free block that holds some bytes. The getter does not
see an index behind the two parts. -/
structure PageEntered (s : Store) (superblock : Superblock) (inode : Inode) (pages pnum : Nat)
    (content : Nat → UInt8) (inode' : Inode) (s' : Store) : Prop where
  /-- The file has the page. -/
  view : ∃ freeBlocks journalHead, FileView s' (superblock.withCounters freeBlocks journalHead)
    inode' (min (pages + 1) pointersPerPage)
  /-- The inode changes in its pointers only. -/
  fields : SameButPointers inode inode'
  /-- The block is at the next index and the others are kept. -/
  pointer : ∀ other < pointersPerPage,
    blockPointer s' inode' other = if other = pages then pnum else blockPointer s inode other
  /-- The page has the bytes. -/
  filled : s'.mem pnum = .data content
  /-- The other pages are kept. -/
  kept : ∀ index < pages,
    s'.mem (blockPointer s inode index) = s.mem (blockPointer s inode index)
  /-- The rest is left alone. -/
  frame : FileChange superblock inode pages s s'
  /-- The single indirect block is the one before or was free. -/
  indirect : inode'.indirectBlock = inode.indirectBlock ∨
    inode.indirectBlock = 0 ∧ s.bit inode'.indirectBlock ≠ some true
  /-- The blocks are taken from the free ones. -/
  freeCount : s'.freeCount + (1 + pointerBlocks inode pages) = s.freeCount

section

variable {pnum : Nat} {s1 : Store}

/-- A page that is allocated and filled leaves the rest alone. -/
theorem FileView.filled (view : FileView s superblock inode pages) (allocated : Allocated s pnum s1)
    (content : Nat → UInt8) :
    SamePages s1 (s1.put pnum (.data content)) ∧
      ∀ page slot, Undisturbed (fun _ => False) page slot s (s1.put pnum (.data content)) := by
  have total1 := allocated.change.totalBlocks
  have noPage : ∀ other < s1.totalBlocks, bitmapPage other ≠ pnum := by
    rw [total1]
    exact view.formatted.not_page allocated.free
  constructor
  · exact allocated.samePages view.formatted _
  · intro page slot
    have put : Undisturbed (· = pnum) page slot s1 (s1.put pnum (.data content)) :=
      undisturbed_put allocated.formatted allocated.nonzero noPage _
    exact (allocated.undisturbed view.formatted view.read).trans put
      fun _ _ set same => allocated.notTaken set same

/-- It is ready to be mapped. -/
theorem FileView.mapReady (view : FileView s superblock inode pages)
    (allocated : Allocated s pnum s1) (content : Nat → UInt8) :
    MapReady (s1.put pnum (.data content)) superblock.decrementFree inode pnum := by
  obtain ⟨samePages, cleared⟩ := view.filled allocated content
  have total1 := allocated.change.totalBlocks
  have read1 : superblockRead s1 = some superblock.decrementFree := by
    rw [allocated.change.superblock, view.read]
    rfl
  have width := view.width
  have inside := allocated.inside
  constructor
  · exact samePages.formatted allocated.formatted
  · apply superblockRead_of_page
    rw [Store.put_other _ _ _ _ (Ne.symm allocated.nonzero)]
    exact superblockRead_page read1
  · rw [inodePage_decrementFree, show (s1.put pnum (.data content)).totalBlocks = s.totalBlocks
      from total1]
    exact view.table
  · exact (cleared 0 0).indirectReady view.indirect (fun _ absurd => absurd)
  · exact allocated.nonzero
  · rw [show (s1.put pnum (.data content)).totalBlocks = s.totalBlocks from total1]
    exact inside
  · omega
  · rw [samePages.bit (by rw [total1]; exact allocated.inside), allocated.change.bits, if_pos rfl]
  · exact ⟨_, Store.put_same _ _ _⟩
  · intro same
    by_cases unlinked : inode.indirectBlock = 0
    · exact allocated.nonzero (same.trans unlinked)
    · exact allocated.notTaken (view.indirect unlinked).2.1 same.symm

/-- A file after its next index is mapped to a block that was free and its inode is stored. -/
structure PageLinked (s : Store) (superblock : Superblock) (inode : Inode) (pages pnum : Nat)
    (content : Nat → UInt8) (inode' : Inode) (s' : Store) : Prop where
  /-- The block was free. -/
  allocated : pnum ≠ 0 ∧ pnum < s.totalBlocks ∧ s.bit pnum ≠ some true
  /-- The inode changes in its pointers only. -/
  fields : SameButPointers inode inode'
  /-- The block is at the next index and the others are kept. -/
  pointer : ∀ other < pointersPerPage,
    blockPointer s' inode' other = if other = pages then pnum else blockPointer s inode other
  /-- The block is taken. -/
  taken : s'.bit pnum = some true
  /-- The page has the bytes. -/
  filled : s'.mem pnum = .data content
  /-- The inode is in its slot. -/
  slot : ∃ slots, s'.mem (inodePage superblock inode.inodeNumber) = .inode slots ∧
    slots (inode.inodeNumber % inodesPerPage) = inode'
  /-- The single indirect block is in place. -/
  ready : IndirectReady s' inode'
  /-- It is the one before or was free. -/
  indirect : inode'.indirectBlock = inode.indirectBlock ∨
    inode.indirectBlock = 0 ∧ s.bit inode'.indirectBlock ≠ some true
  /-- It is not the block of the page. -/
  apart : pnum ≠ inode'.indirectBlock
  /-- The rest is left alone. -/
  frame : Undisturbed (fun block => block = inode.indirectBlock ∧ inode.indirectBlock ≠ 0)
    (inodePage superblock inode.inodeNumber) (inode.inodeNumber % inodesPerPage) s s'

section

variable {content : Nat → UInt8}

/-- The pointers do not number the inode. -/
theorem SameButPointers.inodeNumber (same : SameButPointers inode inode') :
    inode'.inodeNumber = inode.inodeNumber := by
  obtain ⟨_, _, rfl⟩ := same
  rfl

/-- The block is not one of the file. -/
theorem PageLinked.new (linked : PageLinked s superblock inode pages pnum content inode' s')
    (view : FileView s superblock inode pages) {index : Nat} (below : index < pages) :
    blockPointer s inode index ≠ pnum := by
  intro same
  obtain ⟨-, -, free⟩ := linked.allocated
  rw [← same] at free
  exact free (view.set index below)

/-- An index of the file is the new one, which leads to the block, or an earlier one. -/
theorem PageLinked.index (linked : PageLinked s superblock inode pages pnum content inode' s')
    {index : Nat} (below : index < min (pages + 1) pointersPerPage) :
    index = pages ∧ blockPointer s' inode' index = pnum ∨
      index < pages ∧ blockPointer s' inode' index = blockPointer s inode index := by
  have pointer := linked.pointer index (by omega)
  by_cases here : index = pages
  · rw [if_pos here] at pointer
    exact Or.inl ⟨here, pointer⟩
  · rw [if_neg here] at pointer
    exact Or.inr ⟨by omega, pointer⟩

/-- The earlier pages are kept. -/
theorem PageLinked.kept (linked : PageLinked s superblock inode pages pnum content inode' s')
    (view : FileView s superblock inode pages) {index : Nat} (below : index < pages) :
    s'.mem (blockPointer s inode index) = s.mem (blockPointer s inode index) :=
  linked.frame.mem _ (view.inside index below) (view.set index below)
    (fun own => view.apart index below own.1) (view.content below)

/-- The pages are distinct. -/
theorem PageLinked.distinct (linked : PageLinked s superblock inode pages pnum content inode' s')
    (view : FileView s superblock inode pages) {index other : Nat}
    (below : index < min (pages + 1) pointersPerPage)
    (otherBelow : other < min (pages + 1) pointersPerPage)
    (same : blockPointer s' inode' index = blockPointer s' inode' other) : index = other := by
  rcases linked.index below with ⟨rfl, here⟩ | ⟨before, here⟩
  · rcases linked.index otherBelow with ⟨rfl, -⟩ | ⟨otherBefore, there⟩
    · rfl
    · rw [here, there] at same
      exact absurd same.symm (linked.new view otherBefore)
  · rcases linked.index otherBelow with ⟨rfl, there⟩ | ⟨otherBefore, there⟩
    · rw [here, there] at same
      exact absurd same (linked.new view before)
    · rw [here, there] at same
      exact view.distinct index before other otherBefore same

/-- None of them is the single indirect block. -/
theorem PageLinked.pages_apart (linked : PageLinked s superblock inode pages pnum content inode' s')
    (view : FileView s superblock inode pages) {index : Nat}
    (below : index < min (pages + 1) pointersPerPage) :
    blockPointer s' inode' index ≠ inode'.indirectBlock := by
  rcases linked.index below with ⟨-, here⟩ | ⟨before, here⟩
  · rw [here]
    exact linked.apart
  · rw [here]
    rcases linked.indirect with same | ⟨-, free⟩
    · rw [same]
      exact view.apart index before
    · intro same
      rw [← same] at free
      exact free (view.set index before)

/-- The file has the page. -/
theorem PageLinked.view (linked : PageLinked s superblock inode pages pnum content inode' s')
    (view : FileView s superblock inode pages) : ∃ freeBlocks journalHead,
    FileView s' (superblock.withCounters freeBlocks journalHead) inode'
      (min (pages + 1) pointersPerPage) := by
  obtain ⟨freeBlocks, journalHead, read⟩ := linked.frame.superblock superblock view.read
  obtain ⟨nonzero, inside, -⟩ := linked.allocated
  have total := linked.frame.totalBlocks
  have place : inodePage (superblock.withCounters freeBlocks journalHead) inode'.inodeNumber =
      inodePage superblock inode.inodeNumber := by
    rw [inodePage_withCounters, linked.fields.inodeNumber]
  refine ⟨freeBlocks, journalHead, ?_⟩
  constructor
  · exact linked.frame.formatted
  · rw [total]
    exact view.width
  · exact read
  · rw [place, total]
    exact view.table
  · rw [place]
    exact linked.frame.bits _ view.table view.tableSet
  · rw [place, linked.fields.inodeNumber]
    exact linked.slot
  · exact linked.ready
  · intro index above below
    rw [linked.pointer index below, if_neg (by omega)]
    exact view.unmapped index (by omega) below
  · intro index below
    rcases linked.index below with ⟨-, here⟩ | ⟨before, here⟩
    · rwa [here]
    · rw [here]
      exact view.nonzero index before
  · intro index below
    rcases linked.index below with ⟨-, here⟩ | ⟨before, here⟩
    · rwa [here, total]
    · rw [here, total]
      exact view.inside index before
  · intro index below
    rcases linked.index below with ⟨-, here⟩ | ⟨before, here⟩
    · rw [here]
      exact linked.taken
    · rw [here]
      exact linked.frame.bits _ (view.inside index before) (view.set index before)
  · intro index below
    rcases linked.index below with ⟨-, here⟩ | ⟨before, here⟩
    · rw [here]
      exact ⟨_, linked.filled⟩
    · rw [here, linked.kept view before]
      exact view.data index before
  · exact fun index below other otherBelow => linked.distinct view below otherBelow
  · exact fun index below => linked.pages_apart view below
  · exact Nat.min_le_right _ _

/-- A new single indirect block was free before the page was allocated, too. -/
theorem FileView.indirect_free (view : FileView s superblock inode pages)
    (allocated : Allocated s pnum s1) {s3 : Store}
    (mapped : BlockMapped (s1.put pnum (.data content)) superblock.decrementFree inode pages pnum
      inode' s3) : inode'.indirectBlock = inode.indirectBlock ∨
    inode.indirectBlock = 0 ∧ s.bit inode'.indirectBlock ≠ some true := by
  obtain ⟨-, cleared⟩ := view.filled allocated content
  have total3 : s3.totalBlocks = s.totalBlocks :=
    mapped.frame.totalBlocks.trans allocated.change.totalBlocks
  rcases mapped.indirect with same | ⟨unlinked, free⟩
  · exact Or.inl same
  · refine Or.inr ⟨unlinked, fun set => ?_⟩
    have inside : inode'.indirectBlock < s.totalBlocks := by
      by_cases zero : inode'.indirectBlock = 0
      · rw [zero]
        exact view.formatted.nonempty
      · rw [← total3]
        exact (mapped.ready zero).1
    rw [(cleared 0 0).bits _ inside set] at free
    cases free

/-- The single indirect block of the mapped file is not the page. -/
theorem FileView.indirect_apart (view : FileView s superblock inode pages)
    (allocated : Allocated s pnum s1) {s3 : Store}
    (mapped : BlockMapped (s1.put pnum (.data content)) superblock.decrementFree inode pages pnum
      inode' s3) : pnum ≠ inode'.indirectBlock := by
  have ready := view.mapReady allocated content
  intro same
  rcases mapped.indirect with kept | ⟨-, free⟩
  · exact ready.apart (same.trans kept)
  · rw [← same, ready.set] at free
    cases free

/-- The inode stays in the slot that it was stored in. -/
theorem FileView.slot_stored (view : FileView s superblock inode pages) {s3 s4 : Store}
    (first : Undisturbed (fun block => block = inode.indirectBlock ∧ inode.indirectBlock ≠ 0)
      (inodePage superblock inode.inodeNumber) (inode.inodeNumber % inodesPerPage) s s3)
    (written : SlotWritten s3 (inodePage superblock inode.inodeNumber) inode' s4)
    (number : inode'.inodeNumber = inode.inodeNumber)
    (logging : Undisturbed (fun _ => False) 0 0 s4 s') :
    ∃ slots, s'.mem (inodePage superblock inode.inodeNumber) = .inode slots ∧
      slots (inode.inodeNumber % inodesPerPage) = inode' := by
  have storing := written.undisturbed first.formatted
  obtain ⟨slots, tag, -⟩ := view.slot
  have notIndirect : ¬ (inodePage superblock inode.inodeNumber = inode.indirectBlock ∧
      inode.indirectBlock ≠ 0) := by
    rintro ⟨same, linked⟩
    obtain ⟨-, -, bytes, page⟩ := view.indirect linked
    rw [same, page] at tag
    cases tag
  obtain ⟨slots3, tag3, -⟩ := first.table _ view.table view.tableSet notIndirect slots tag
  have inside3 : inodePage superblock inode.inodeNumber < s3.totalBlocks := by
    rw [first.totalBlocks]
    exact view.table
  have set4 := storing.bits _ inside3 (first.bits _ view.table view.tableSet)
  rw [← storing.totalBlocks] at inside3
  obtain ⟨slots5, tag5, same⟩ :=
    logging.table _ inside3 set4 (fun absurd => absurd) _ (written.slots slots3 tag3)
  refine ⟨slots5, tag5, ?_⟩
  rcases same (inode.inodeNumber % inodesPerPage) with ⟨zero, -⟩ | kept
  · exact absurd zero (table_ne_zero view.read tag)
  · rw [kept, number]
    exact if_pos rfl

/-- A page that is allocated, filled, mapped and logged is linked, and the store of the inode and the log
take no block. -/
theorem FileView.pageLinked (view : FileView s superblock inode pages) (allocated : Allocated s pnum s1)
    {s3 s4 : Store} {writeThrough : Bool}
    (mapped : BlockMapped (s1.put pnum (.data content)) superblock.decrementFree inode pages pnum
      inode' s3)
    (stored : inodeStore s3 inode' writeThrough = some s4)
    (logging : ∀ page slot, Undisturbed (fun _ => False) page slot s4 s') :
    PageLinked s superblock inode pages pnum content inode' s' ∧ s4.freeCount = s3.freeCount := by
  obtain ⟨-, cleared⟩ := view.filled allocated content
  have ready := view.mapReady allocated content
  have total1 := allocated.change.totalBlocks
  have entering := mapped.frame
  rw [inodePage_decrementFree] at entering
  have fields : SameButPointers inode inode' := mapped.fields
  obtain ⟨freeBlocks, journalHead, read3⟩ := entering.superblock _ ready.read
  have total3 : s3.totalBlocks = s.totalBlocks := entering.totalBlocks.trans total1
  have place : inodePage (superblock.decrementFree.withCounters freeBlocks journalHead)
      inode'.inodeNumber = inodePage superblock inode.inodeNumber := by
    rw [inodePage_withCounters, inodePage_decrementFree, fields.inodeNumber]
  have table3 : inodePage (superblock.decrementFree.withCounters freeBlocks journalHead)
      inode'.inodeNumber < s3.totalBlocks := by
    rw [place, total3]
    exact view.table
  obtain ⟨after, stored', written⟩ := inodeStore_spec read3 inode' table3 writeThrough
  obtain rfl : after = s4 := Option.some.inj (stored'.symm.trans stored)
  rw [place] at written
  have storing := written.undisturbed entering.formatted
  rw [fields.inodeNumber] at storing
  have first : Undisturbed (fun block => block = inode.indirectBlock ∧ inode.indirectBlock ≠ 0)
      (inodePage superblock inode.inodeNumber) (inode.inodeNumber % inodesPerPage) s s3 :=
    ((cleared _ _).mono (fun _ _ _ absurd => absurd.elim)).trans entering (fun _ _ _ own => own)
  have last : Undisturbed (fun _ => False) (inodePage superblock inode.inodeNumber)
      (inode.inodeNumber % inodesPerPage) s3 s' :=
    storing.trans (logging _ _) (fun _ _ _ absurd => absurd)
  have set3 : s3.bit pnum = some true :=
    entering.bits pnum (show pnum < s1.totalBlocks by rw [total1]; exact allocated.inside) ready.set
  have inside3 : pnum < s3.totalBlocks := by
    rw [total3]
    exact allocated.inside
  have filled3 : s3.mem pnum = .data content := mapped.page.trans (Store.put_same _ _ _)
  refine ⟨?_, (written.samePages entering.formatted.bitmapped).freeCount⟩
  constructor
  · exact ⟨allocated.nonzero, allocated.inside, fun set => allocated.notTaken set rfl⟩
  · exact fields
  · intro other below
    rw [last.blockPointer mapped.ready (fun _ absurd => absurd), mapped.pointer other below,
      (cleared 0 0).blockPointer view.indirect (fun _ absurd => absurd)]
  · exact last.bits pnum inside3 set3
  · rw [last.mem pnum inside3 set3 (fun absurd => absurd) (by rw [filled3]; trivial), filled3]
  · exact view.slot_stored first written fields.inodeNumber (logging 0 0)
  · exact last.indirectReady mapped.ready (fun _ absurd => absurd)
  · exact view.indirect_free allocated mapped
  · exact view.indirect_apart allocated mapped
  · exact first.trans last (fun _ _ _ absurd => absurd.elim)

/-- A page that is allocated, filled, mapped and logged. -/
theorem FileView.entered (view : FileView s superblock inode pages) (allocated : Allocated s pnum s1)
    {content : Nat → UInt8} {s3 s4 : Store} {writeThrough : Bool}
    (mapped : BlockMapped (s1.put pnum (.data content)) superblock.decrementFree inode pages pnum
      inode' s3)
    (stored : inodeStore s3 inode' writeThrough = some s4)
    (logging : ∀ page slot, Undisturbed (fun _ => False) page slot s4 s')
    (samePages5 : SamePages s4 s') :
    PageEntered s superblock inode pages pnum content inode' s' := by
  obtain ⟨linked, sameCount⟩ := view.pageLinked allocated mapped stored logging
  obtain ⟨samePages2, -⟩ := view.filled allocated content
  constructor
  · exact linked.view view
  · exact linked.fields
  · exact linked.pointer
  · exact linked.filled
  · exact fun index below => linked.kept view below
  · apply linked.frame.mono
    intro block _ _ own
    exact Or.inl (Or.inr ⟨own.1.symm, own.2⟩)
  · exact linked.indirect
  · have taken := allocated.freeCount
    have mapping := mapped.freeCount
    rw [samePages2.freeCount] at mapping
    rw [samePages5.freeCount, sameCount]
    omega

end

end

/-- A page that is not mapped is allocated, cleared, mapped and logged. -/
theorem fileBlockAt_fresh (view : FileView s superblock inode pages)
    (journal : TouchesJournal append) (small : pages < pointersPerPage)
    (room : 1 + pointerBlocks inode pages ≤ s.freeCount) (size : Nat) :
    ∃ pnum inode' s', fileBlockAt append locals s inode pages size = some (pnum, inode', s') ∧
      pnum ≠ 0 ∧ PageMapped s superblock inode pages pnum inode' s' := by
  obtain ⟨pnum, s1, alloc, allocated⟩ :=
    allocPage_formatted view.formatted (show 0 < s.freeCount by omega)
  let s2 := s1.put pnum (.data fun _ => 0)
  have ready : MapReady s2 superblock.decrementFree inode pnum := view.mapReady allocated _
  have samePages2 : SamePages s1 s2 := (view.filled allocated _).1
  have room2 : pointerBlocks inode pages ≤ s2.freeCount := by
    have taken := allocated.freeCount
    rw [samePages2.freeCount]
    omega
  obtain ⟨inode', s3, mapRun, mapped⟩ := inodeSetBlock_mapped ready small.le room2
  have entering := mapped.frame
  obtain ⟨freeBlocks, journalHead, read3⟩ := entering.superblock _ ready.read
  have number : inode'.inodeNumber = inode.inodeNumber := by
    obtain ⟨_, _, same⟩ := mapped.fields
    rw [same]
  have place : inodePage (superblock.decrementFree.withCounters freeBlocks journalHead)
      inode'.inodeNumber = inodePage superblock.decrementFree inode.inodeNumber := by
    rw [inodePage_withCounters, number]
  obtain ⟨s4, stored, written⟩ := inodeStore_spec read3 inode'
    (by rw [place, entering.totalBlocks]; exact ready.table) false
  have storing := written.undisturbed entering.formatted
  have read4 := written.superblockRead read3
  obtain ⟨s5, logged, logging, samePages5⟩ := journal.undisturbed storing.formatted read4
    { blockNumber := 0
      synced := locals.synced s4
      transaction := .write inode'.inodeNumber pages pnum size }
  have run : fileBlockAt append locals s inode pages size = some (pnum, inode', s5) := by
    obtain ⟨flag, block, get, same, -⟩ := @inodeGetBlock_pointer s inode view.indirect pages small
    rw [view.unmapped pages (Nat.le_refl _) small] at same
    rw [fileBlockAt, get, Option.bind_eq_bind, Option.bind_some]
    show (if assigned 0 block ≠ 0 then _ else _) = _
    rw [if_neg (fun wrong => wrong same), alloc, Option.bind_eq_bind, Option.bind_some]
    show (if pnum = 0 then _ else _) = _
    rw [if_neg allocated.nonzero]
    show (inodeSetBlock s2 inode pages pnum).bind _ = _
    rw [mapRun, Option.bind_some]
    show (inodeStore s3 inode' false).bind _ = _
    rw [stored, Option.bind_some]
    show (append _ s4).bind _ = _
    rw [logged, Option.bind_some]
  have entered := view.entered allocated mapped stored logging samePages5
  have more : min (pages + 1) pointersPerPage = pages + 1 := Nat.min_eq_left small
  refine ⟨pnum, inode', s5, run, allocated.nonzero, ?_⟩
  constructor
  · rw [← more]
    exact entered.view
  · exact entered.fields
  · exact entered.pointer
  · exact entered.filled
  · exact entered.kept
  · exact entered.frame
  · exact allocated.free
  · exact entered.indirect
  · exact entered.freeCount

/-- A file after a piece is written at a position. -/
structure PieceWritten (s : Store) (superblock : Superblock) (inode : Inode) (pages position : Nat)
    (piece : List UInt8) (pages' : Nat) (inode' : Inode) (s' : Store) : Prop where
  /-- The file has the pages. -/
  view : ∃ freeBlocks journalHead,
    FileView s' (superblock.withCounters freeBlocks journalHead) inode' pages'
  /-- The inode changes in its pointers only. -/
  fields : SameButPointers inode inode'
  /-- The piece is laid over the bytes. -/
  bytes : ∀ place, place < pages * usableBlockSize ∨ position ≤ place ∧ place < position + piece.length →
    fileByte s' inode' place = overlay (fileByte s inode) position piece place
  /-- The rest is left alone. -/
  frame : FileChange superblock inode pages s s'
  /-- Its blocks are those before or were free. -/
  own : ∀ block < s.totalBlocks, s.bit block = some true → OwnBlock s' inode' pages' block →
    OwnBlock s inode pages block

/-- Assigning a mapped page other bytes keeps the view. -/
theorem FileView.put (view : FileView s superblock inode pages) {index : Nat}
    (mapped : index < pages) (bytes : Nat → UInt8) :
    FileView (s.put (blockPointer s inode index) (.data bytes)) superblock inode pages ∧
      (∀ other, blockPointer (s.put (blockPointer s inode index) (.data bytes)) inode other =
        blockPointer s inode other) ∧
      FileChange superblock inode pages s (s.put (blockPointer s inode index) (.data bytes)) := by
  have noPage := view.formatted.content_not_page (view.content mapped)
  have change : ∀ page slot, Undisturbed (· = blockPointer s inode index) page slot s
      (s.put (blockPointer s inode index) (.data bytes)) := fun page slot =>
    undisturbed_put view.formatted (view.nonzero index mapped) noPage _
  have notIndirect : inode.indirectBlock ≠ 0 → ¬ inode.indirectBlock = blockPointer s inode index :=
    fun _ same => view.apart index mapped same.symm
  have pointer : ∀ other, blockPointer (s.put (blockPointer s inode index) (.data bytes)) inode
      other = blockPointer s inode other :=
    fun other => (change 0 0).blockPointer view.indirect notIndirect other
  have samePages : SamePages s (s.put (blockPointer s inode index) (.data bytes)) :=
    ⟨rfl, fun pnum inside => Store.put_other _ _ _ _ (noPage pnum inside)⟩
  refine ⟨?_, pointer, (change _ _).mono fun block _ _ own => Or.inl (Or.inl ⟨index, mapped, own.symm⟩)⟩
  constructor
  · exact (change 0 0).formatted
  · exact view.width
  · apply superblockRead_of_page
    rw [Store.put_other _ _ _ _ (Ne.symm (view.nonzero index mapped))]
    exact superblockRead_page view.read
  · exact view.table
  · exact (change 0 0).bits _ view.table view.tableSet
  · obtain ⟨slots, tag, slot⟩ := view.slot
    refine ⟨slots, ?_, slot⟩
    rw [Store.put_other _ _ _ _ ?_, tag]
    intro same
    obtain ⟨content, page⟩ := view.data index mapped
    rw [same, page] at tag
    cases tag
  · exact (change 0 0).indirectReady view.indirect notIndirect
  · intro other above below
    rw [pointer other]
    exact view.unmapped other above below
  · intro other below
    rw [pointer other]
    exact view.nonzero other below
  · intro other below
    rw [pointer other]
    exact view.inside other below
  · intro other below
    rw [pointer other]
    exact (change 0 0).bits _ (view.inside other below) (view.set other below)
  · intro other below
    rw [pointer other]
    by_cases here : blockPointer s inode other = blockPointer s inode index
    · rw [here]
      exact ⟨bytes, Store.put_same _ _ _⟩
    · rw [Store.put_other _ _ _ _ here]
      exact view.data other below
  · intro other below third thirdBelow
    rw [pointer other, pointer third]
    exact view.distinct other below third thirdBelow
  · intro other below
    rw [pointer other]
    exact view.apart other below
  · exact view.bound

/-- Pointers over pointers. -/
theorem SameButPointers.trans {inode'' : Inode} (first : SameButPointers inode inode')
    (second : SameButPointers inode' inode'') : SameButPointers inode inode'' := by
  obtain ⟨_, _, rfl⟩ := first
  obtain ⟨directBlocks, indirectBlock, rfl⟩ := second
  exact ⟨directBlocks, indirectBlock, rfl⟩

/-- The pointers do not give the size. -/
theorem SameButPointers.size (same : SameButPointers inode inode') : inode'.size = inode.size := by
  obtain ⟨_, _, rfl⟩ := same
  rfl

/-- A piece behind another one. -/
theorem PieceWritten.trans {s'' : Store} {inode'' : Inode} {position pages' pages'' : Nat}
    {freeBlocks journalHead : Nat} {first second : List UInt8}
    (one : PieceWritten s superblock inode pages position first pages' inode' s')
    (two : PieceWritten s' (superblock.withCounters freeBlocks journalHead) inode' pages'
      (position + first.length) second pages'' inode'' s'')
    (more : pages ≤ pages') (reach : position + first.length ≤ pages' * usableBlockSize) :
    PieceWritten s superblock inode pages position (first ++ second) pages'' inode'' s'' where
  view := by
    obtain ⟨freeBlocks', journalHead', view⟩ := two.view
    exact ⟨freeBlocks', journalHead', view⟩
  fields := one.fields.trans two.fields
  bytes place covered := by
    have grows : pages * usableBlockSize ≤ pages' * usableBlockSize := Nat.mul_le_mul_right _ more
    rw [List.length_append] at covered
    rw [two.bytes place (by omega), overlay_append]
    apply overlay_congr
    intro outside
    exact one.bytes place (by omega)
  frame := by
    have frame := two.frame
    unfold FileChange at frame
    rw [inodePage_withCounters, one.fields.inodeNumber] at frame
    exact one.frame.trans frame one.own
  own block inside set own := by
    have inside' : block < s'.totalBlocks := by
      rw [one.frame.totalBlocks]
      exact inside
    exact one.own block inside set (two.own block inside' (one.frame.bits block inside set) own)

/-- Mapping the next page writes nothing. -/
theorem PageMapped.written {pnum : Nat} (mapped : PageMapped s superblock inode pages pnum inode' s')
    (small : pages < pointersPerPage) (position : Nat) :
    PieceWritten s superblock inode pages position [] (pages + 1) inode' s' where
  view := mapped.view
  fields := mapped.fields
  bytes place covered := by
    have nothing : ([] : List UInt8).length = 0 := rfl
    have below : place / usableBlockSize < pages := page_lt (by omega)
    rw [overlay_nil, fileByte, fileByte, mapped.pointer _ (by omega), if_neg (by omega),
      mapped.kept _ below, mapped.frame.residue]
  frame := mapped.frame
  own block _ set own := by
    rcases own with ⟨index, below, same⟩ | ⟨same, linked⟩
    · rw [mapped.pointer index (by omega)] at same
      by_cases here : index = pages
      · rw [if_pos here] at same
        rw [← same, mapped.fresh] at set
        cases set
      · rw [if_neg here] at same
        exact Or.inl ⟨index, by omega, same⟩
    · rcases mapped.indirect with kept | ⟨-, free⟩
      · rw [kept] at same linked
        exact Or.inr ⟨same, linked⟩
      · rw [same] at free
        exact absurd set free

/-- A piece within a mapped page. -/
theorem writePayload_mapped (view : FileView s superblock inode pages) {position : Nat}
    (mapped : position / usableBlockSize < pages) {piece : List UInt8}
    (fits : position % usableBlockSize + piece.length ≤ usableBlockSize) :
    ∃ s', writePayload s (blockPointer s inode (position / usableBlockSize))
        (position % usableBlockSize) piece = some s' ∧
      PieceWritten s superblock inode pages position piece pages inode s' ∧
      s'.freeCount = s.freeCount := by
  obtain ⟨content, page⟩ := view.data _ mapped
  obtain ⟨view', pointer, frame⟩ :=
    view.put mapped (overlay content (position % usableBlockSize) piece)
  have noPage := view.formatted.content_not_page (view.content mapped)
  refine ⟨s.put (blockPointer s inode (position / usableBlockSize))
    (.data (overlay content (position % usableBlockSize) piece)), ?_, ?_, ?_⟩
  · rw [writePayload, Store.get_of_lt (view.inside _ mapped), page]
    rfl
  · constructor
    · exact ⟨superblock.freeBlocks, superblock.journalHead, view'⟩
    · exact ⟨inode.directBlocks, inode.indirectBlock, rfl⟩
    · intro place covered
      have split := position_split position
      have split' := position_split place
      have small := Nat.mod_lt place (show 0 < usableBlockSize by decide)
      rw [fileByte, pointer]
      show s.residue.payload _ _ = _
      by_cases here : place / usableBlockSize = position / usableBlockSize
      · rw [here] at split' ⊢
        rw [Store.put_same]
        show overlay content (position % usableBlockSize) piece (place % usableBlockSize) = _
        by_cases outside : place < position ∨ position + piece.length ≤ place
        · rw [overlay_outside _ _ _ outside, overlay_outside _ _ _ (by omega), fileByte, here, page]
          rfl
        · obtain ⟨offset, rfl⟩ : ∃ offset, place = position + offset := ⟨place - position, by omega⟩
          have inside : offset < piece.length := by omega
          have shifted : (position + offset) % usableBlockSize = position % usableBlockSize + offset :=
            by omega
          rw [shifted, overlay_inside _ _ _ inside, overlay_inside _ _ _ inside]
      · have outside : place < position ∨ position + piece.length ≤ place := by
          by_contra within
          apply here
          apply Nat.div_eq_of_lt_le
          · omega
          · rw [Nat.succ_mul]
            omega
        have below : place / usableBlockSize < pages := page_lt (by omega)
        have distinct : blockPointer s inode (place / usableBlockSize) ≠
            blockPointer s inode (position / usableBlockSize) :=
          fun same => here (view.distinct _ below _ mapped same)
        rw [Store.put_other _ _ _ _ distinct, overlay_outside _ _ _ outside, fileByte]
    · exact frame
    · intro block _ _ own
      rcases own with ⟨index, below, same⟩ | linked
      · rw [pointer] at same
        exact Or.inl ⟨index, below, same⟩
      · exact Or.inr linked
  · have samePages : SamePages s (s.put (blockPointer s inode (position / usableBlockSize))
        (.data (overlay content (position % usableBlockSize) piece))) :=
      ⟨rfl, fun pnum inside => Store.put_other _ _ _ _ (noPage pnum inside)⟩
    exact samePages.freeCount

/-- A page that is mapped is used as it is. -/
theorem fileBlockAt_mapped (view : FileView s superblock inode pages) {index : Nat}
    (mapped : index < pages) (size : Nat) :
    fileBlockAt append locals s inode index size = some (blockPointer s inode index, inode, s) := by
  obtain ⟨block, run, same⟩ := view.get mapped
  rw [fileBlockAt, run, Option.bind_eq_bind, Option.bind_some]
  show (if assigned 0 block ≠ 0 then some (assigned 0 block, inode, s) else _) = _
  rw [same, if_pos (view.nonzero index mapped)]

/-- Mapped pages need no block. -/
theorem blocksNeeded_covered (inode : Inode) {target : Nat} (covered : target ≤ pages) :
    blocksNeeded inode pages target = 0 := by
  rw [blocksNeeded, if_neg (fun both => Nat.not_lt.mpr covered both.1)]
  omega

/-- A direct page is mapped without a single indirect block. -/
theorem fileBlockAt_direct {index size pnum : Nat} (direct : index < directPointers)
    (run : fileBlockAt append locals s inode index size = some (pnum, inode', s')) :
    inode'.indirectBlock = inode.indirectBlock := by
  rw [fileBlockAt, inodeGetBlock_direct s inode direct, Option.bind_eq_bind, Option.bind_some] at run
  dsimp only at run
  split at run
  · obtain ⟨-, same⟩ := Prod.mk.inj (Option.some.inj run)
    rw [(Prod.mk.inj same).1]
  · obtain ⟨⟨page, s1⟩, -, run⟩ := Option.bind_eq_some_iff.mp run
    dsimp only at run
    split at run
    · obtain ⟨-, same⟩ := Prod.mk.inj (Option.some.inj run)
      rw [(Prod.mk.inj same).1]
    · obtain ⟨⟨success, mapped, s2⟩, set, run⟩ := Option.bind_eq_some_iff.mp run
      obtain ⟨s3, -, run⟩ := Option.bind_eq_some_iff.mp run
      obtain ⟨s4, -, run⟩ := Option.bind_eq_some_iff.mp run
      rw [inodeSetBlock, if_pos direct] at set
      obtain ⟨s5, -, set⟩ := Option.bind_eq_some_iff.mp set
      obtain ⟨-, same⟩ := Prod.mk.inj (Option.some.inj set)
      obtain ⟨-, same'⟩ := Prod.mk.inj (Option.some.inj run)
      rw [← (Prod.mk.inj same').1, ← (Prod.mk.inj same).1]
      rfl

/-- Mapping the next page takes the blocks that it needs. -/
theorem blocksNeeded_step {target free free' : Nat}
    (linked : directPointers ≤ pages → inode'.indirectBlock ≠ 0)
    (before : inode'.indirectBlock = 0 → inode.indirectBlock = 0)
    (direct : pages < directPointers → inode'.indirectBlock = inode.indirectBlock)
    (needed : pages < target) (taken : free' + (1 + pointerBlocks inode pages) = free) :
    free' + blocksNeeded inode pages target = free + blocksNeeded inode' (pages + 1) target := by
  unfold blocksNeeded
  unfold pointerBlocks at taken
  by_cases unlinked : inode'.indirectBlock = 0
  · have former := before unlinked
    have low : ¬ directPointers ≤ pages := fun behind => linked behind unlinked
    rw [if_neg (fun both => low both.1)] at taken
    by_cases high : directPointers < target
    · rw [if_pos ⟨needed, former, high⟩, if_pos ⟨by omega, unlinked, high⟩]
      omega
    · rw [if_neg (fun both => high both.2.2), if_neg (fun both => high both.2.2)]
      omega
  · by_cases fresh : directPointers ≤ pages ∧ inode.indirectBlock = 0
    · rw [if_pos fresh] at taken
      rw [if_pos ⟨needed, fresh.2, by omega⟩, if_neg (fun both => unlinked both.2.1)]
      omega
    · have former : ¬ (pages < target ∧ inode.indirectBlock = 0 ∧ directPointers < target) := by
        rintro ⟨-, former, -⟩
        have low : pages < directPointers := by
          by_contra behind
          exact fresh ⟨Nat.not_lt.mp behind, former⟩
        exact unlinked ((direct low).trans former)
      rw [if_neg fresh] at taken
      rw [if_neg former, if_neg (fun both => unlinked both.2.1)]
      omega

/-- A round of the loop of `nbtrfs_write`: a piece within the page of a position, which is mapped or
the next one. -/
theorem writeRound (view : FileView s superblock inode pages) (journal : TouchesJournal append)
    {position target : Nat} {piece : List UInt8} (next : position ≤ pages * usableBlockSize)
    (small : position / usableBlockSize < pointersPerPage)
    (fits : position % usableBlockSize + piece.length ≤ usableBlockSize)
    (needed : position / usableBlockSize < target)
    (room : blocksNeeded inode pages target ≤ s.freeCount) (size : Nat) :
    ∃ pnum inode' taken s', fileBlockAt append locals s inode (position / usableBlockSize) size =
        some (pnum, inode', taken) ∧ pnum ≠ 0 ∧
      writePayload taken pnum (position % usableBlockSize) piece = some s' ∧
      PieceWritten s superblock inode pages position piece
        (max pages (position / usableBlockSize + 1)) inode' s' ∧
      s'.freeCount + blocksNeeded inode pages target =
        s.freeCount + blocksNeeded inode' (max pages (position / usableBlockSize + 1)) target := by
  by_cases mapped : position / usableBlockSize < pages
  · obtain ⟨s', run, written, free⟩ := writePayload_mapped view mapped fits
    refine ⟨_, inode, s, s', fileBlockAt_mapped view mapped size, view.nonzero _ mapped, run, ?_, ?_⟩
    · rw [Nat.max_eq_left (by omega)]
      exact written
    · rw [Nat.max_eq_left (by omega), free]
  · have here : position / usableBlockSize = pages := by
      have split := position_split position
      have grows : (pages + 1) * usableBlockSize ≤ position / usableBlockSize * usableBlockSize ∨
          position / usableBlockSize ≤ pages := by
        by_cases above : pages + 1 ≤ position / usableBlockSize
        · exact Or.inl (Nat.mul_le_mul_right _ above)
        · exact Or.inr (by omega)
      have positive : 0 < usableBlockSize := by decide
      rw [Nat.succ_mul] at grows
      omega
    have needed' : pages < target := by omega
    have room' : 1 + pointerBlocks inode pages ≤ s.freeCount := by
      unfold blocksNeeded at room
      unfold pointerBlocks
      split at room
      · split
        · omega
        · omega
      · split
        · omega
        · omega
    obtain ⟨pnum, inode', taken, get, nonzero, mapping⟩ :=
      @fileBlockAt_fresh s superblock inode pages append locals view journal (by omega) room' size
    obtain ⟨freeBlocks, journalHead, view'⟩ := mapping.view
    have place : blockPointer taken inode' (position / usableBlockSize) = pnum := by
      rw [mapping.pointer _ small, if_pos here]
    have reach : position ≤ (pages + 1) * usableBlockSize := by
      rw [Nat.succ_mul]
      omega
    obtain ⟨s', run, written, free⟩ := writePayload_mapped view'
      (show position / usableBlockSize < pages + 1 by omega) fits
    rw [place] at run
    refine ⟨pnum, inode', taken, s', by rw [here]; exact get, nonzero, run, ?_, ?_⟩
    · rw [here, Nat.max_eq_right (by omega)]
      exact (mapping.written (by omega) position).trans written (by omega) reach
    · rw [here, Nat.max_eq_right (by omega), free]
      have linked : directPointers ≤ pages → inode'.indirectBlock ≠ 0 := by
        intro behind unlinked
        apply view'.nonzero pages (by omega)
        rw [blockPointer, if_neg (by omega), if_pos unlinked]
      have before : inode'.indirectBlock = 0 → inode.indirectBlock = 0 := by
        intro unlinked
        rcases mapping.indirect with same | ⟨former, -⟩
        · rw [← same]
          exact unlinked
        · exact former
      exact blocksNeeded_step linked before (fun low => fileBlockAt_direct low get) needed'
        mapping.freeCount

/-- The loop of `nbtrfs_write` lays the buffer over the file. -/
theorem writeLoop_spec (journal : TouchesJournal append) (size fuel : Nat) {buffer : List UInt8}
    {offset : Nat} (bytesWritten : Nat) (view : FileView s superblock inode pages)
    (enough : buffer.length < fuel) (next : offset ≤ pages * usableBlockSize)
    (limit : offset + buffer.length ≤ pointersPerPage * usableBlockSize)
    (room : blocksNeeded inode pages (pagesFor (offset + buffer.length)) ≤ s.freeCount) :
    ∃ inode' s', writeLoop append locals size fuel buffer offset bytesWritten inode s =
        some (true, bytesWritten + buffer.length, inode', s') ∧
      PieceWritten s superblock inode pages offset buffer
        (max pages (pagesFor (offset + buffer.length))) inode' s' ∧
      s'.freeCount + blocksNeeded inode pages (pagesFor (offset + buffer.length)) = s.freeCount := by
  induction fuel generalizing buffer offset bytesWritten s superblock inode pages with
  | zero => omega
  | succ fuel ih =>
    rw [writeLoop]
    by_cases done : buffer = []
    · rw [if_pos done]
      subst done
      have covered : pagesFor (offset + ([] : List UInt8).length) ≤ pages := by
        rw [List.length_nil, Nat.add_zero]
        unfold pagesFor
        unfold usableBlockSize at next ⊢
        omega
      refine ⟨inode, s, rfl, ?_, by rw [blocksNeeded_covered inode covered, Nat.add_zero]⟩
      rw [Nat.max_eq_left covered]
      constructor
      · exact ⟨superblock.freeBlocks, superblock.journalHead, view⟩
      · exact ⟨inode.directBlocks, inode.indirectBlock, rfl⟩
      · intro place _
        rw [overlay_nil]
      · exact Undisturbed.refl _ _ _ view.formatted
      · exact fun _ _ _ own => own
    · rw [if_neg done]
      have positive : 0 < buffer.length := List.length_pos_iff.mpr done
      have small := Nat.mod_lt offset (show 0 < usableBlockSize by decide)
      have split := position_split offset
      generalize count : min (usableBlockSize - offset % usableBlockSize) buffer.length = bytes
      have some_bytes : 0 < bytes := by omega
      have length : (buffer.take bytes).length = bytes := by
        rw [List.length_take]
        omega
      have rest : (buffer.drop bytes).length = buffer.length - bytes := List.length_drop
      have page : offset / usableBlockSize < pointersPerPage := page_lt (by omega)
      have needed : offset / usableBlockSize < pagesFor (offset + buffer.length) := by
        unfold pagesFor
        unfold usableBlockSize
        omega
      obtain ⟨pnum, inode', taken, s', get, nonzero, write, round, count'⟩ :=
        @writeRound s superblock inode pages append locals view journal offset _ (buffer.take bytes)
          next page (by omega) needed room size
      obtain ⟨freeBlocks, journalHead, view'⟩ := round.view
      have reach : offset + bytes ≤ max pages (offset / usableBlockSize + 1) * usableBlockSize := by
        have more : (offset / usableBlockSize + 1) * usableBlockSize ≤
            max pages (offset / usableBlockSize + 1) * usableBlockSize :=
          Nat.mul_le_mul_right _ (Nat.le_max_right _ _)
        rw [Nat.succ_mul] at more
        omega
      have whole : offset + bytes + (buffer.drop bytes).length = offset + buffer.length := by omega
      have shorter : (buffer.drop bytes).length < fuel := by omega
      obtain ⟨inode'', s'', run, loop, rest'⟩ := ih (bytesWritten + bytes) view' shorter reach
        (by omega) (by rw [whole]; omega)
      rw [whole] at loop rest'
      refine ⟨inode'', s'', ?_, ?_, by omega⟩
      · rw [get, Option.bind_eq_bind, Option.bind_some]
        show (if pnum = 0 then _ else (writePayload taken pnum (offset % usableBlockSize)
          (buffer.take (min (usableBlockSize - offset % usableBlockSize) buffer.length))).bind _) = _
        rw [if_neg nonzero, count, write, Option.bind_some, run, rest]
        congr 3
        omega
      · have loop' : PieceWritten s' (superblock.withCounters freeBlocks journalHead) inode'
            (max pages (offset / usableBlockSize + 1)) (offset + (buffer.take bytes).length)
            (buffer.drop bytes) (max (max pages (offset / usableBlockSize + 1))
              (pagesFor (offset + buffer.length))) inode'' s'' := by
          rw [length]
          exact loop
        have joined := round.trans loop' (Nat.le_max_left _ _) (by rw [length]; exact reach)
        rw [List.take_append_drop] at joined
        have pagesSame : max (max pages (offset / usableBlockSize + 1))
            (pagesFor (offset + buffer.length)) = max pages (pagesFor (offset + buffer.length)) := by
          omega
        rw [pagesSame] at joined
        exact joined

end

end Nbtrfs
