import Nbtrfs.Inode.BlockMap

/-!
# Mapping a block of a file

What the block map and the inode table of a file look like after one more block is mapped, and
what such a change leaves alone: allocated blocks of other files, the nodes of the B-trees and the
other slots of the inode table.
-/

namespace Nbtrfs

/-- A superblock with other counters. -/
def Superblock.withCounters (superblock : Superblock) (freeBlocks journalHead : Nat) : Superblock :=
  { superblock with freeBlocks, journalHead }

/-- The table does not move with the counters. -/
@[simp] theorem inodePage_withCounters (superblock : Superblock)
    (freeBlocks journalHead inodeNumber : Nat) :
    inodePage (superblock.withCounters freeBlocks journalHead) inodeNumber =
      inodePage superblock inodeNumber :=
  @inodePage_congr superblock (superblock.withCounters freeBlocks journalHead) rfl rfl inodeNumber

/-- A block that holds the data of a file or a node of a B-tree. -/
def Block.isContent : Block → Prop
  | .data _ => True
  | .btreeNode _ => True
  | _ => False

/-- A change that takes free blocks, assigns blocks of its own, one slot of one table block, the
counters of the superblock and journal blocks, and leaves the rest alone. -/
structure Undisturbed (ours : Nat → Prop) (page slot : Nat) (s s' : Store) : Prop where
  /-- The image keeps its size. -/
  totalBlocks : s'.totalBlocks = s.totalBlocks
  /-- Former content reads as before. -/
  residue : s'.residue = s.residue
  /-- The bitmap stays in place. -/
  formatted : s'.Formatted
  /-- Block 0 stays the superblock. -/
  superblock : ∀ superblock, superblockRead s = some superblock →
    ∃ freeBlocks journalHead,
      superblockRead s' = some (superblock.withCounters freeBlocks journalHead)
  /-- Allocated blocks stay allocated. -/
  bits : ∀ block < s.totalBlocks, s.bit block = some true → s'.bit block = some true
  /-- Allocated data and nodes of others are kept. -/
  mem : ∀ block < s.totalBlocks, s.bit block = some true → ¬ ours block →
    (s.mem block).isContent → s'.mem block = s.mem block
  /-- Allocated table blocks change in the slot only. -/
  table : ∀ block < s.totalBlocks, s.bit block = some true → ¬ ours block →
    ∀ slots, s.mem block = .inode slots → ∃ slots', s'.mem block = .inode slots' ∧
      ∀ other, block = page ∧ other = slot ∨ slots' other = slots other

section

variable {s s' : Store} {superblock : Superblock} {inode : Inode} {page slot : Nat}

/-- A content block is no page of the block bitmap. -/
theorem Store.Formatted.content_not_page (formatted : s.Formatted) {block : Nat}
    (content : (s.mem block).isContent) : ∀ pnum < s.totalBlocks, bitmapPage pnum ≠ block := by
  apply formatted.not_page_of_tag
  intro words tag
  rw [tag] at content
  exact content

/-- The superblock is no content block. -/
theorem content_ne_zero (read : superblockRead s = some superblock) {block : Nat}
    (content : (s.mem block).isContent) : block ≠ 0 := by
  rintro rfl
  rw [superblockRead_page read] at content
  exact content

/-- The superblock is no table block. -/
theorem table_ne_zero (read : superblockRead s = some superblock) {block : Nat}
    {slots : Nat → Inode} (tag : s.mem block = .inode slots) : block ≠ 0 := by
  rintro rfl
  rw [superblockRead_page read] at tag
  cases tag

/-- A table block is no page of the block bitmap. -/
theorem Store.Formatted.table_not_page (formatted : s.Formatted) {block : Nat}
    {slots : Nat → Inode} (tag : s.mem block = .inode slots) :
    ∀ pnum < s.totalBlocks, bitmapPage pnum ≠ block := by
  apply formatted.not_page_of_tag
  intro words same
  rw [tag] at same
  cases same

/-- No change. -/
theorem Undisturbed.refl (ours : Nat → Prop) (page slot : Nat) (formatted : s.Formatted) :
    Undisturbed ours page slot s s where
  totalBlocks := rfl
  residue := rfl
  formatted := formatted
  superblock superblock read := ⟨superblock.freeBlocks, superblock.journalHead, read⟩
  bits _ _ set := set
  mem _ _ _ _ _ := rfl
  table _ _ _ _ slots tag := ⟨slots, tag, fun _ => Or.inr rfl⟩

/-- Two changes, the second with blocks of its own that the first may have taken. -/
theorem Undisturbed.trans {ours ours' : Nat → Prop} {s'' : Store}
    (first : Undisturbed ours page slot s s') (second : Undisturbed ours' page slot s' s'')
    (taken : ∀ block < s.totalBlocks, s.bit block = some true → ours' block → ours block) :
    Undisturbed ours page slot s s'' where
  totalBlocks := second.totalBlocks.trans first.totalBlocks
  residue := second.residue.trans first.residue
  formatted := second.formatted
  superblock superblock read := by
    obtain ⟨freeBlocks, journalHead, read'⟩ := first.superblock superblock read
    obtain ⟨freeBlocks', journalHead', read''⟩ := second.superblock _ read'
    exact ⟨freeBlocks', journalHead', read''⟩
  bits block inside set := by
    have inside' : block < s'.totalBlocks := by rwa [first.totalBlocks]
    exact second.bits block inside' (first.bits block inside set)
  mem block inside set notOurs content := by
    have inside' : block < s'.totalBlocks := by rwa [first.totalBlocks]
    have kept := first.mem block inside set notOurs content
    rw [← kept] at content
    rw [second.mem block inside' (first.bits block inside set)
      (fun own => notOurs (taken block inside set own)) content, kept]
  table block inside set notOurs slots tag := by
    have inside' : block < s'.totalBlocks := by rwa [first.totalBlocks]
    obtain ⟨slots', tag', same⟩ := first.table block inside set notOurs slots tag
    obtain ⟨slots'', tag'', same'⟩ := second.table block inside' (first.bits block inside set)
      (fun own => notOurs (taken block inside set own)) slots' tag'
    refine ⟨slots'', tag'', fun other => ?_⟩
    rcases same' other with here | kept'
    · exact Or.inl here
    · rcases same other with here | kept
      · exact Or.inl here
      · exact Or.inr (kept'.trans kept)

/-- More blocks of its own, or fewer if the others were kept. -/
theorem Undisturbed.mono {ours ours' : Nat → Prop} (change : Undisturbed ours page slot s s')
    (more : ∀ block < s.totalBlocks, s.bit block = some true → ours block →
      ours' block ∨ s'.mem block = s.mem block) :
    Undisturbed ours' page slot s s' where
  totalBlocks := change.totalBlocks
  residue := change.residue
  formatted := change.formatted
  superblock := change.superblock
  bits := change.bits
  mem block inside set notOurs content := by
    by_cases own : ours block
    · exact (more block inside set own).resolve_left notOurs
    · exact change.mem block inside set own content
  table block inside set notOurs slots tag := by
    by_cases own : ours block
    · rw [(more block inside set own).resolve_left notOurs]
      exact ⟨slots, tag, fun _ => Or.inr rfl⟩
    · exact change.table block inside set own slots tag

/-- Taking a free block. -/
theorem Allocated.undisturbed {pnum : Nat} (allocated : Allocated s pnum s')
    (formatted : s.Formatted) (read : superblockRead s = some superblock) :
    Undisturbed (fun _ => False) page slot s s' where
  totalBlocks := allocated.change.totalBlocks
  residue := allocated.change.residue
  formatted := allocated.formatted
  superblock other read' := by
    refine ⟨other.decrementFree.freeBlocks, other.journalHead, ?_⟩
    rw [allocated.change.superblock, read']
    rfl
  bits block _ set := by
    rw [allocated.change.bits]
    split
    · rfl
    · exact set
  mem block _ _ _ content :=
    allocated.change.mem block (content_ne_zero read content)
      (Ne.symm (formatted.content_not_page content pnum allocated.inside))
  table block _ _ _ slots tag := by
    rw [allocated.change.mem block (table_ne_zero read tag)
      (Ne.symm (formatted.table_not_page tag pnum allocated.inside))]
    exact ⟨slots, tag, fun _ => Or.inr rfl⟩

/-- Assigning a page that is neither block 0 nor a page of the block bitmap. -/
theorem undisturbed_put (formatted : s.Formatted) {block : Nat} (nonzero : block ≠ 0)
    (noPage : ∀ pnum < s.totalBlocks, bitmapPage pnum ≠ block) (content : Block) :
    Undisturbed (· = block) page slot s (s.put block content) := by
  have samePages : SamePages s (s.put block content) :=
    ⟨rfl, fun pnum inside => Store.put_other _ _ _ _ (noPage pnum inside)⟩
  constructor
  · rfl
  · rfl
  · exact samePages.formatted formatted
  · intro superblock read
    refine ⟨superblock.freeBlocks, superblock.journalHead, ?_⟩
    apply superblockRead_of_page
    rw [Store.put_other _ _ _ _ (Ne.symm nonzero)]
    exact superblockRead_page read
  · intro other inside set
    rw [samePages.bit inside]
    exact set
  · intro other _ _ notOurs _
    exact Store.put_other _ _ _ _ notOurs
  · intro other _ _ notOurs slots tag
    rw [Store.put_other _ _ _ _ notOurs]
    exact ⟨slots, tag, fun _ => Or.inr rfl⟩

/-- Writing an inode to its slot. -/
theorem SlotWritten.undisturbed (written : SlotWritten s page inode s') (formatted : s.Formatted) :
    Undisturbed (fun _ => False) page (inode.inodeNumber % inodesPerPage) s s' where
  totalBlocks := written.totalBlocks
  residue := written.residue
  formatted := (written.samePages formatted.bitmapped).formatted formatted
  superblock superblock read :=
    ⟨superblock.freeBlocks, superblock.journalHead, written.superblockRead read⟩
  bits block inside set := by
    rw [(written.samePages formatted.bitmapped).bit inside]
    exact set
  mem block _ _ _ content := by
    apply written.other
    intro slots tag
    rw [tag] at content
    exact content
  table block _ _ _ slots tag := by
    by_cases here : block = page
    · rw [here] at tag ⊢
      refine ⟨_, written.slots slots tag, fun other => ?_⟩
      by_cases same : other = inode.inodeNumber % inodesPerPage
      · exact Or.inl ⟨rfl, same⟩
      · exact Or.inr (if_neg same)
    · rw [written.mem block here]
      exact ⟨slots, tag, fun _ => Or.inr rfl⟩

/-- Entering a block into a pointer block. -/
theorem PointerLinked.undisturbed {pointers index physicalBlock : Nat}
    (entered : PointerLinked s pointers index physicalBlock s') (formatted : s.Formatted)
    (pointersNonzero : pointers ≠ 0) (nonzero : physicalBlock ≠ 0)
    (pointersPage : ∀ pnum < s.totalBlocks, bitmapPage pnum ≠ pointers)
    (blockPage : ∀ pnum < s.totalBlocks, bitmapPage pnum ≠ physicalBlock) :
    Undisturbed (fun block => block = pointers ∨ block = physicalBlock) page slot s s' := by
  have samePages : SamePages s s' := ⟨entered.totalBlocks, fun pnum inside =>
    entered.mem _ (pointersPage pnum inside) (blockPage pnum inside)⟩
  have others : ∀ block, ¬ (block = pointers ∨ block = physicalBlock) →
      s'.mem block = s.mem block := by
    intro block notOurs
    rw [not_or] at notOurs
    exact entered.mem block notOurs.1 notOurs.2
  constructor
  · exact entered.totalBlocks
  · exact entered.residue
  · exact samePages.formatted formatted
  · intro superblock read
    refine ⟨superblock.freeBlocks, superblock.journalHead, ?_⟩
    apply superblockRead_of_page
    rw [entered.mem 0 (Ne.symm pointersNonzero) (Ne.symm nonzero)]
    exact superblockRead_page read
  · intro block inside set
    rw [samePages.bit inside]
    exact set
  · intro block _ _ notOurs _
    exact others block notOurs
  · intro block _ _ notOurs slots tag
    rw [others block notOurs]
    exact ⟨slots, tag, fun _ => Or.inr rfl⟩

/-- Making a single indirect block. -/
theorem IndirectCreated.undisturbed {pointers : Nat}
    (created : IndirectCreated s superblock inode pointers s') (formatted : s.Formatted)
    (read : superblockRead s = some superblock) :
    Undisturbed (fun _ => False) (inodePage superblock inode.inodeNumber)
      (inode.inodeNumber % inodesPerPage) s s' := by
  have distinct : ∀ block, s.bit block = some true → block ≠ pointers := by
    rintro block set rfl
    rw [created.free] at set
    cases set
  constructor
  · exact created.totalBlocks
  · exact created.residue
  · exact created.formatted
  · intro other read'
    obtain rfl := Option.some.inj (read.symm.trans read')
    exact ⟨superblock.decrementFree.freeBlocks, superblock.journalHead, created.read⟩
  · intro block inside set
    rw [created.bits block inside]
    split
    · rfl
    · exact set
  · intro block _ set _ content
    apply created.other block (content_ne_zero read content) (formatted.content_not_page content)
      (distinct block set)
    right
    intro slots tag
    rw [tag] at content
    exact content
  · intro block _ set _ slots tag
    by_cases here : block = inodePage superblock inode.inodeNumber
    · rw [here] at tag set ⊢
      refine ⟨_, created.slot slots tag (Ne.symm (distinct _ set)), fun other => ?_⟩
      by_cases same : other = inode.inodeNumber % inodesPerPage
      · exact Or.inl ⟨rfl, same⟩
      · exact Or.inr (if_neg same)
    · rw [created.other block (table_ne_zero read tag) (formatted.table_not_page tag)
        (distinct block set) (Or.inl here)]
      exact ⟨slots, tag, fun _ => Or.inr rfl⟩

/-- The block at an index of the direct and single indirect parts, 0 for none. -/
def blockPointer (s : Store) (inode : Inode) (index : Nat) : Nat :=
  if index < directPointers then inode.directBlocks index
  else if inode.indirectBlock = 0 then 0
  else
    match s.mem inode.indirectBlock with
    | .data bytes => pointerAt bytes (index - directPointers)
    | _ => 0

/-- The single indirect block, if there is one, is an allocated data block. -/
def IndirectReady (s : Store) (inode : Inode) : Prop :=
  inode.indirectBlock ≠ 0 → inode.indirectBlock < s.totalBlocks ∧
    s.bit inode.indirectBlock = some true ∧ ∃ bytes, s.mem inode.indirectBlock = .data bytes

/-- What `inode_get_block` assigns, and that it succeeds at a mapped index. -/
theorem inodeGetBlock_pointer (indirect : IndirectReady s inode) {index : Nat}
    (small : index < pointersPerPage) :
    ∃ mapped block, inodeGetBlock s inode index = some (mapped, block) ∧
      assigned 0 block = blockPointer s inode index ∧
      (blockPointer s inode index ≠ 0 → mapped = true) := by
  by_cases direct : index < directPointers
  · refine ⟨_, _, inodeGetBlock_direct s inode direct, ?_, ?_⟩
    · rw [blockPointer, if_pos direct]
      rfl
    · rw [blockPointer, if_pos direct]
      exact decide_eq_true
  · have behind : directPointers ≤ index := Nat.not_lt.mp direct
    by_cases unlinked : inode.indirectBlock = 0
    · refine ⟨_, _, inodeGetBlock_unlinked s behind small unlinked, ?_, ?_⟩
      · rw [blockPointer, if_neg direct, if_pos unlinked]
        rfl
      · rw [blockPointer, if_neg direct, if_pos unlinked]
        exact fun absurd => (absurd rfl).elim
    · obtain ⟨inside, -, bytes, tag⟩ := indirect unlinked
      refine ⟨_, _, inodeGetBlock_indirect behind small unlinked inside tag, ?_, fun _ => rfl⟩
      rw [blockPointer, if_neg direct, if_neg unlinked, tag]
      rfl

/-- The block map depends on the page of the single indirect block only. -/
theorem blockPointer_congr {inode' : Inode} {index : Nat}
    (direct : index < directPointers → inode'.directBlocks index = inode.directBlocks index)
    (indirect : inode'.indirectBlock = inode.indirectBlock)
    (page : inode.indirectBlock ≠ 0 → s'.mem inode.indirectBlock = s.mem inode.indirectBlock) :
    blockPointer s' inode' index = blockPointer s inode index := by
  unfold blockPointer
  rw [indirect]
  by_cases isDirect : index < directPointers
  · rw [if_pos isDirect, if_pos isDirect, direct isDirect]
  · rw [if_neg isDirect, if_neg isDirect]
    by_cases unlinked : inode.indirectBlock = 0
    · rw [if_pos unlinked, if_pos unlinked]
    · rw [if_neg unlinked, if_neg unlinked, page unlinked]

/-- The blocks that the setter takes for the map itself. -/
def pointerBlocks (inode : Inode) (index : Nat) : Nat :=
  if directPointers ≤ index ∧ inode.indirectBlock = 0 then 1 else 0

/-- A block map after a block is entered at an index. -/
structure BlockMapped (s : Store) (superblock : Superblock) (inode : Inode)
    (index physicalBlock : Nat) (inode' : Inode) (s' : Store) : Prop where
  /-- The inode changes in its pointers only. -/
  fields : ∃ directBlocks indirectBlock, inode' = { inode with directBlocks, indirectBlock }
  /-- The block is at the index and the others are kept. -/
  pointer : ∀ other < pointersPerPage, blockPointer s' inode' other =
    if other = index then physicalBlock else blockPointer s inode other
  /-- The single indirect block is the one before or a new one. -/
  indirect : inode'.indirectBlock = inode.indirectBlock ∨
    inode.indirectBlock = 0 ∧ s.bit inode'.indirectBlock = some false
  /-- It is in place. -/
  ready : IndirectReady s' inode'
  /-- The page of the block is kept. -/
  page : s'.mem physicalBlock = s.mem physicalBlock
  /-- The rest is left alone. -/
  frame : Undisturbed (fun block => block = inode.indirectBlock ∧ inode.indirectBlock ≠ 0)
    (inodePage superblock inode.inodeNumber) (inode.inodeNumber % inodesPerPage) s s'
  /-- A new single indirect block is taken from the free blocks. -/
  freeCount : s'.freeCount + pointerBlocks inode index = s.freeCount

/-- What mapping a block needs. -/
structure MapReady (s : Store) (superblock : Superblock) (inode : Inode) (physicalBlock : Nat) :
    Prop where
  /-- The bitmap is in place. -/
  formatted : s.Formatted
  /-- Block 0 is the superblock. -/
  read : superblockRead s = some superblock
  /-- The table block is in the image. -/
  table : inodePage superblock inode.inodeNumber < s.totalBlocks
  /-- The single indirect block is in place. -/
  indirect : IndirectReady s inode
  /-- The block is not block 0. -/
  nonzero : physicalBlock ≠ 0
  /-- The block is in the image. -/
  inside : physicalBlock < s.totalBlocks
  /-- Its number has 64 bits. -/
  fits : physicalBlock < pointerBound
  /-- It is allocated. -/
  set : s.bit physicalBlock = some true
  /-- It is a data block. -/
  data : ∃ bytes, s.mem physicalBlock = .data bytes
  /-- It is not the single indirect block. -/
  apart : physicalBlock ≠ inode.indirectBlock

/-- A direct pointer. -/
theorem BlockMapped.direct {index physicalBlock : Nat}
    (ready : MapReady s superblock inode physicalBlock) (direct : index < directPointers)
    (written : SlotWritten s (inodePage superblock inode.inodeNumber)
      (inode.withDirect index physicalBlock) s') :
    BlockMapped s superblock inode index physicalBlock (inode.withDirect index physicalBlock) s' := by
  have samePages := written.samePages ready.formatted.bitmapped
  have dataKept : ∀ block bytes, s.mem block = .data bytes → s'.mem block = s.mem block := by
    intro block bytes tag
    apply written.other
    intro slots wrong
    rw [tag] at wrong
    cases wrong
  constructor
  · exact ⟨_, inode.indirectBlock, rfl⟩
  · intro other _
    by_cases same : other = index
    · rw [if_pos same, same, blockPointer, if_pos direct]
      exact if_pos rfl
    · rw [if_neg same]
      apply blockPointer_congr
      · exact fun _ => if_neg same
      · rfl
      · intro linked
        obtain ⟨-, -, bytes, tag⟩ := ready.indirect linked
        exact dataKept _ bytes tag
  · exact Or.inl rfl
  · intro linked
    obtain ⟨inside, set, bytes, tag⟩ := ready.indirect linked
    refine ⟨by rw [written.totalBlocks]; exact inside, (samePages.bit inside).trans set, bytes, ?_⟩
    exact (dataKept _ bytes tag).trans tag
  · obtain ⟨bytes, tag⟩ := ready.data
    exact dataKept _ bytes tag
  · exact (written.undisturbed ready.formatted).mono fun _ _ _ absurd => absurd.elim
  · rw [samePages.freeCount, pointerBlocks, if_neg (by omega), Nat.add_zero]

/-- An entry of a single indirect block that is in place. -/
theorem BlockMapped.linked {index physicalBlock : Nat}
    (ready : MapReady s superblock inode physicalBlock) (behind : directPointers ≤ index)
    (linked : inode.indirectBlock ≠ 0)
    (entered : PointerLinked s inode.indirectBlock (index - directPointers) physicalBlock s') :
    BlockMapped s superblock inode index physicalBlock inode s' := by
  obtain ⟨inside, set, bytes, tag⟩ := ready.indirect linked
  obtain ⟨content, page⟩ := ready.data
  have pointersPage : ∀ pnum < s.totalBlocks, bitmapPage pnum ≠ inode.indirectBlock :=
    ready.formatted.content_not_page (by rw [tag]; trivial)
  have blockPage : ∀ pnum < s.totalBlocks, bitmapPage pnum ≠ physicalBlock :=
    ready.formatted.content_not_page (by rw [page]; trivial)
  have samePages : SamePages s s' := ⟨entered.totalBlocks, fun pnum below =>
    entered.mem _ (pointersPage pnum below) (blockPage pnum below)⟩
  have kept : s'.mem physicalBlock = s.mem physicalBlock := by
    rw [entered.block ready.apart, page]
    rfl
  constructor
  · exact ⟨inode.directBlocks, inode.indirectBlock, rfl⟩
  · intro other below
    by_cases direct : other < directPointers
    · rw [if_neg (by omega), blockPointer, blockPointer, if_pos direct, if_pos direct]
    · rw [blockPointer, blockPointer, if_neg direct, if_neg direct, if_neg linked, if_neg linked,
        entered.entry bytes tag, tag]
      show pointerAt (setPointer bytes (index - directPointers) physicalBlock) _ = _
      by_cases same : other = index
      · rw [if_pos same, same, pointerAt_setPointer_same _ _ _ ready.fits]
      · rw [if_neg same, pointerAt_setPointer_other _ _ _ _ (by omega)]
  · exact Or.inl rfl
  · intro _
    refine ⟨by rw [entered.totalBlocks]; exact inside, (samePages.bit inside).trans set, _,
      entered.entry bytes tag⟩
  · exact kept
  · apply (entered.undisturbed ready.formatted linked ready.nonzero pointersPage blockPage).mono
    intro block _ _ own
    rcases own with same | same
    · exact Or.inl ⟨same, linked⟩
    · rw [same]
      exact Or.inr kept
  · rw [samePages.freeCount, pointerBlocks, if_neg (by omega), Nat.add_zero]

/-- An entry of a new single indirect block. -/
theorem BlockMapped.created {index physicalBlock pointers : Nat} {created : Store}
    (ready : MapReady s superblock inode physicalBlock) (behind : directPointers ≤ index)
    (unlinked : inode.indirectBlock = 0)
    (made : IndirectCreated s superblock inode pointers created)
    (entered : PointerLinked created pointers (index - directPointers) physicalBlock s') :
    BlockMapped s superblock inode index physicalBlock { inode with indirectBlock := pointers } s' := by
  obtain ⟨content, page⟩ := ready.data
  have first := made.undisturbed ready.formatted ready.read
  have page' : created.mem physicalBlock = .data content := by
    rw [first.mem _ ready.inside ready.set (fun absurd => absurd) (by rw [page]; trivial), page]
  have readyCreated : MapReady created superblock.decrementFree
      { inode with indirectBlock := pointers } physicalBlock := by
    constructor
    · exact made.formatted
    · exact made.read
    · rw [inodePage_decrementFree, made.totalBlocks]
      exact ready.table
    · intro _
      refine ⟨by rw [made.totalBlocks]; exact made.inside, ?_, _, made.entries⟩
      rw [made.bits pointers made.inside, if_pos rfl]
    · exact ready.nonzero
    · rw [made.totalBlocks]
      exact ready.inside
    · exact ready.fits
    · exact first.bits _ ready.inside ready.set
    · exact ⟨content, page'⟩
    · rintro rfl
      have free := made.free
      rw [ready.set] at free
      cases free
  have second := BlockMapped.linked readyCreated behind made.nonzero entered
  constructor
  · exact ⟨inode.directBlocks, pointers, rfl⟩
  · intro other below
    rw [second.pointer other below]
    by_cases same : other = index
    · rw [if_pos same, if_pos same]
    · rw [if_neg same, if_neg same]
      unfold blockPointer
      by_cases direct : other < directPointers
      · rw [if_pos direct, if_pos direct]
      · rw [if_neg direct, if_neg direct, if_neg made.nonzero, if_pos unlinked, made.entries]
        exact pointerAt_zero _
  · exact Or.inr ⟨unlinked, made.free⟩
  · exact second.ready
  · rw [second.page, page', page]
  · have frame := second.frame
    rw [inodePage_decrementFree] at frame
    have entering : Undisturbed (fun block => block = pointers)
        (inodePage superblock inode.inodeNumber) (inode.inodeNumber % inodesPerPage) created s' := by
      apply frame.mono
      intro block _ _ own
      exact Or.inl own.1
    have fresh : ∀ block < s.totalBlocks, s.bit block = some true → block = pointers → False := by
      rintro block - set rfl
      rw [made.free] at set
      cases set
    exact (first.trans entering fresh).mono fun _ _ _ absurd => absurd.elim
  · have taken := made.freeCount
    have kept := second.freeCount
    unfold pointerBlocks at kept ⊢
    rw [if_neg (fun both => made.nonzero both.2)] at kept
    rw [if_pos ⟨behind, unlinked⟩]
    omega

/-- With a free block for each new pointer block `inode_set_block` maps a block. -/
theorem inodeSetBlock_mapped {index physicalBlock : Nat}
    (ready : MapReady s superblock inode physicalBlock) (small : index ≤ pointersPerPage)
    (room : pointerBlocks inode index ≤ s.freeCount) :
    ∃ inode' s', inodeSetBlock s inode index physicalBlock = some (true, inode', s') ∧
      BlockMapped s superblock inode index physicalBlock inode' s' := by
  by_cases direct : index < directPointers
  · obtain ⟨s', run, written⟩ := inodeSetBlock_direct ready.read ready.table direct physicalBlock
    exact ⟨_, s', run, BlockMapped.direct ready direct written⟩
  · have behind : directPointers ≤ index := Nat.not_lt.mp direct
    by_cases unlinked : inode.indirectBlock = 0
    · have inodeReady : InodeReady s superblock inode :=
        ⟨ready.formatted, ready.read, ready.table, fun linked => absurd unlinked linked⟩
      have free : 0 < s.freeCount := by
        rw [pointerBlocks, if_pos ⟨behind, unlinked⟩] at room
        omega
      obtain ⟨pointers, created, s', run, made, entered⟩ := inodeSetBlock_unlinked inodeReady
        behind small unlinked ready.nonzero ready.inside free
      exact ⟨_, s', run, BlockMapped.created ready behind unlinked made entered⟩
    · obtain ⟨inside, -, bytes, tag⟩ := ready.indirect unlinked
      obtain ⟨s', run, entered⟩ := inodeSetBlock_linked behind small unlinked tag inside
        ready.nonzero ready.inside
      exact ⟨_, s', run, BlockMapped.linked ready behind unlinked entered⟩

/-- Without a free block `inode_set_block` makes no single indirect block and maps nothing. -/
theorem inodeSetBlock_full {index physicalBlock : Nat} (formatted : s.Formatted)
    (full : s.freeCount = 0) (unlinked : inode.indirectBlock = 0) (behind : directPointers ≤ index)
    (small : index ≤ pointersPerPage) (nonzero : physicalBlock ≠ 0) :
    inodeSetBlock s inode index physicalBlock = some (false, inode, s) := by
  have missing : newIndirectBlock s inode = some (false, inode, s) := by
    have same : { inode with indirectBlock := 0 } = inode := by rw [← unlinked]
    rw [newIndirectBlock, allocPage_full formatted full, Option.bind_eq_bind, Option.bind_some]
    dsimp only
    rw [if_pos rfl, same]
  rw [inodeSetBlock_part s inode behind small, inodeSetIndirect,
    if_neg (fun both => nonzero both.2.1), Option.bind_eq_bind, Option.bind_some]
  dsimp only
  rw [if_pos unlinked, missing, Option.bind_eq_bind, Option.bind_some]
  rfl

end

end Nbtrfs
