import Nbtrfs.Inode.Model
import Nbtrfs.Store.Format

/-!
# The block map of an inode

`inode_get_block` and `inode_set_block` on the direct and single indirect parts. Both split the
range at index 12. The getter ends the single indirect part at index 511, the setter at 523, and
the double indirect part never reports success, so the two agree on the indices below 511.
-/

namespace Nbtrfs

section

variable {s s' : Store}

/-- A block number fits the eight bytes of an entry. -/
def pointerBound : Nat := 2 ^ 64

/-- A written entry reads back. -/
theorem pointerAt_setPointer_same (bytes : Nat → UInt8) (index pointer : Nat)
    (fits : pointer < pointerBound) : pointerAt (setPointer bytes index pointer) index = pointer := by
  apply LittleEndian.load_store_same
  calc
    pointer < 2 ^ 64 := fits
    _ = 256 ^ 8 := by decide

/-- The other entries are kept. -/
theorem pointerAt_setPointer_other (bytes : Nat → UInt8) (index pointer other : Nat)
    (distinct : other ≠ index) :
    pointerAt (setPointer bytes index pointer) other = pointerAt bytes other := by
  apply LittleEndian.load_store_disjoint
  omega

/-- The entries of a cleared block are 0. -/
theorem pointerAt_zero (index : Nat) : pointerAt (fun _ => 0) index = 0 :=
  LittleEndian.load_zero _ _

/-- A write of an inode into a slot of a table block. -/
structure SlotWritten (s : Store) (page : Nat) (inode : Inode) (s' : Store) : Prop where
  /-- The other pages are kept. -/
  mem : ∀ other, other ≠ page → s'.mem other = s.mem other
  /-- The slot of the inode is written. -/
  slots : ∀ slots, s.mem page = .inode slots →
    s'.mem page = .inode (setSlot slots (inode.inodeNumber % inodesPerPage) inode)
  /-- A block of another type is kept. -/
  noTable : (∀ slots, s.mem page ≠ .inode slots) → s'.mem page = s.mem page
  /-- The image changes in the table block only. -/
  disk : ∀ other, other ≠ page → s'.disk other = s.disk other
  /-- The image keeps its size. -/
  totalBlocks : s'.totalBlocks = s.totalBlocks
  /-- Former content reads as before. -/
  residue : s'.residue = s.residue

/-- `inode_write` writes the slot. -/
theorem inodeStore_spec {superblock : Superblock} (read : superblockRead s = some superblock)
    (inode : Inode) (inside : inodePage superblock inode.inodeNumber < s.totalBlocks)
    (writeThrough : Bool) :
    ∃ s', inodeStore s inode writeThrough = some s' ∧
      SlotWritten s (inodePage superblock inode.inodeNumber) inode s' := by
  have page := Store.get_of_lt inside
  cases tag : s.mem (inodePage superblock inode.inodeNumber) with
  | inode slots =>
    rw [tag] at page
    have run : inodeStore s inode writeThrough =
        some (if writeThrough then (s.put (inodePage superblock inode.inodeNumber) (.inode (setSlot
          slots (inode.inodeNumber % inodesPerPage) inode))).flush
            (inodePage superblock inode.inodeNumber)
          else s.put (inodePage superblock inode.inodeNumber) (.inode (setSlot slots
            (inode.inodeNumber % inodesPerPage) inode))) := by
      simp [inodeStore, inodeWrite, read, page]
    refine ⟨_, run, ?_⟩
    cases writeThrough with
    | false =>
      refine ⟨fun other distinct => Store.put_other _ _ _ _ distinct, ?_, ?_, fun _ _ => rfl, rfl,
        rfl⟩
      · intro others same
        obtain rfl : slots = others := Block.inode.inj (tag.symm.trans same)
        exact Store.put_same _ _ _
      · exact fun none => absurd tag (none slots)
    | true =>
      refine ⟨fun other distinct => Store.put_other _ _ _ _ distinct, ?_, ?_, ?_, rfl, rfl⟩
      · intro others same
        obtain rfl : slots = others := Block.inode.inj (tag.symm.trans same)
        exact Store.put_same _ _ _
      · exact fun none => absurd tag (none slots)
      · exact fun other distinct => if_neg distinct
  | super | bitmap | btreeNode | journal | data | untagged =>
    rw [tag] at page
    refine ⟨s, by simp [inodeStore, inodeWrite, read, page], fun _ _ => rfl, ?_, fun _ => rfl,
      fun _ _ => rfl, rfl, rfl⟩
    intro slots same
    rw [tag] at same
    cases same

/-- A written inode is read back, or the read fails as the write did. -/
theorem SlotWritten.reload {superblock : Superblock} {inode : Inode}
    (written : SlotWritten s (inodePage superblock inode.inodeNumber) inode s')
    (read : superblockRead s' = some superblock)
    (inside : inodePage superblock inode.inodeNumber < s.totalBlocks) :
    inodeReload s' inode.inodeNumber inode = some inode := by
  have inside' : inodePage superblock inode.inodeNumber < s'.totalBlocks := by
    rw [written.totalBlocks]
    exact inside
  have page := Store.get_of_lt inside'
  cases tag : s.mem (inodePage superblock inode.inodeNumber) with
  | inode slots =>
    rw [written.slots slots tag] at page
    simp [inodeReload, inodeRead, read, page, setSlot]
  | super | bitmap | btreeNode | journal | data | untagged =>
    have kept := written.noTable (by
      intro slots same
      rw [tag] at same
      cases same)
    rw [kept, tag] at page
    simp [inodeReload, inodeRead, read, page]

/-- A table write keeps a page of another type. -/
theorem SlotWritten.other {page : Nat} {inode : Inode} (written : SlotWritten s page inode s')
    {block : Nat} (noInode : ∀ slots, s.mem block ≠ .inode slots) : s'.mem block = s.mem block := by
  by_cases same : block = page
  · rw [same]
    rw [same] at noInode
    exact written.noTable noInode
  · exact written.mem block same

/-- A table write keeps the superblock. -/
theorem SlotWritten.superblockRead {page : Nat} {inode : Inode}
    (written : SlotWritten s page inode s') {superblock : Superblock}
    (read : Nbtrfs.superblockRead s = some superblock) :
    Nbtrfs.superblockRead s' = some superblock := by
  have zero : s'.mem 0 = s.mem 0 := by
    apply written.other
    intro slots same
    unfold Nbtrfs.superblockRead at read
    rw [same] at read
    cases read
  unfold Nbtrfs.superblockRead at read ⊢
  rw [zero]
  exact read

/-- An inode is read from its slot of the table. -/
theorem inodeRead_slot {superblock : Superblock} {inodeNumber : Nat} {slots : Nat → Inode}
    (read : Nbtrfs.superblockRead s = some superblock)
    (inside : inodePage superblock inodeNumber < s.totalBlocks)
    (tag : s.mem (inodePage superblock inodeNumber) = .inode slots) :
    inodeRead s inodeNumber = some (some (slots (inodeNumber % inodesPerPage))) := by
  rw [inodeRead, read, Option.bind_eq_bind, Option.bind_some, Store.get_of_lt inside, tag]
  rfl

/-- An inode that is read comes from a page of the table. -/
theorem inodeLoad_table {inodeNumber : Nat} {inode : Inode}
    (load : inodeLoad s inodeNumber = some inode) :
    ∃ superblock slots, Nbtrfs.superblockRead s = some superblock ∧
      inodePage superblock inodeNumber < s.totalBlocks ∧
      s.mem (inodePage superblock inodeNumber) = .inode slots ∧
      slots (inodeNumber % inodesPerPage) = inode := by
  unfold inodeLoad inodeRead at load
  cases read : Nbtrfs.superblockRead s with
  | none =>
    rw [read] at load
    cases load
  | some superblock =>
    rw [read, Option.bind_eq_bind, Option.bind_some] at load
    cases get : s.get (inodePage superblock inodeNumber) with
    | none =>
      rw [get] at load
      cases load
    | some page =>
      obtain ⟨inside, tag⟩ := Store.get_eq_some get
      rw [get] at load
      cases page with
      | inode slots => exact ⟨superblock, slots, rfl, inside, tag, Option.some.inj load⟩
      | super | bitmap | btreeNode | journal | data | untagged => cases load

/-- A block number is entered into a pointer block and its block is a data block. -/
structure PointerLinked (s : Store) (pointers index physicalBlock : Nat) (s' : Store) : Prop where
  /-- The entry is written. -/
  entry : ∀ bytes, s.mem pointers = .data bytes →
    s'.mem pointers = .data (setPointer bytes index physicalBlock)
  /-- The block is a data block with the bytes it had. -/
  block : physicalBlock ≠ pointers →
    s'.mem physicalBlock = s.residue.asData (s.mem physicalBlock)
  /-- The other pages are kept. -/
  mem : ∀ other, other ≠ pointers → other ≠ physicalBlock → s'.mem other = s.mem other
  /-- The image changes in the two blocks only. -/
  disk : ∀ other, other ≠ pointers → other ≠ physicalBlock → s'.disk other = s.disk other
  /-- The image keeps its size. -/
  totalBlocks : s'.totalBlocks = s.totalBlocks
  /-- Former content reads as before. -/
  residue : s'.residue = s.residue

/-- Assigning an entry of a data block. -/
theorem writePointer_data {pointers index pointer : Nat} {bytes : Nat → UInt8}
    (page : s.mem pointers = .data bytes) (inside : pointers < s.totalBlocks)
    (small : index < pointersPerPage) :
    writePointer s pointers index pointer =
      some (s.put pointers (.data (setPointer bytes index pointer))) := by
  have get := Store.get_of_lt inside
  rw [page] at get
  simp [writePointer, get, small]

/-- Writing a page to its own place on the image. -/
theorem diskWriteBlockAs_self {pnum : Nat} (inside : pnum < s.totalBlocks) :
    diskWriteBlockAs s pnum pnum = some (s.flush pnum) := by
  simp only [diskWriteBlockAs, Store.get_of_lt inside, Option.bind_eq_bind, Option.bind_some]
  rw [if_pos inside]
  rfl

/-- Tagging a page of the image. -/
theorem tagData_of_lt {pnum : Nat} (inside : pnum < s.totalBlocks) :
    tagData s pnum = some (s.put pnum (s.residue.asData (s.mem pnum))) := by
  simp [tagData, Store.get_of_lt inside]

/-- Entering a block number into a data block. -/
theorem linkPointer_spec {pointers index physicalBlock : Nat} {bytes : Nat → UInt8}
    (page : s.mem pointers = .data bytes) (pageInside : pointers < s.totalBlocks)
    (small : index < pointersPerPage) (inside : physicalBlock < s.totalBlocks) :
    ∃ s', linkPointer s pointers index physicalBlock = some s' ∧
      PointerLinked s pointers index physicalBlock s' := by
  have run : linkPointer s pointers index physicalBlock =
      some ((((s.put pointers (.data (setPointer bytes index physicalBlock))).flush pointers).put
        physicalBlock (s.residue.asData ((s.put pointers (.data (setPointer bytes index
          physicalBlock))).mem physicalBlock))).flush physicalBlock) := by
    rw [linkPointer, writePointer_data page pageInside small, Option.bind_eq_bind, Option.bind_some,
      diskWriteBlockAs_self (by exact pageInside), Option.bind_some, tagData_of_lt (by exact inside),
      Option.bind_some, diskWriteBlockAs_self (by exact inside)]
    rfl
  refine ⟨_, run, ?_, ?_, ?_, ?_, rfl, rfl⟩
  · intro others same
    obtain rfl : bytes = others := Block.data.inj (page.symm.trans same)
    rw [Store.flush_mem]
    by_cases equal : pointers = physicalBlock
    · rw [← equal, Store.put_same, Store.put_same]
      rfl
    · rw [Store.put_other _ _ _ _ equal, Store.flush_mem, Store.put_same]
  · intro distinct
    rw [Store.flush_mem, Store.put_same, Store.put_other _ _ _ _ distinct]
  · intro other notPointers notBlock
    rw [Store.flush_mem, Store.put_other _ _ _ _ notBlock, Store.flush_mem,
      Store.put_other _ _ _ _ notPointers]
  · intro other notPointers notBlock
    show (if other = physicalBlock then _ else (if other = pointers then _ else s.disk other)) = _
    rw [if_neg notBlock, if_neg notPointers]

/-- What a block map needs of the store: the superblock and the bitmap are in place, the inode has
a table block, and its single indirect block, if it has one, is a data block. -/
structure InodeReady (s : Store) (superblock : Superblock) (inode : Inode) : Prop where
  /-- The bitmap is in place. -/
  formatted : s.Formatted
  /-- Block 0 is the superblock. -/
  read : superblockRead s = some superblock
  /-- The table block is a block of the image. -/
  table : inodePage superblock inode.inodeNumber < s.totalBlocks
  /-- The single indirect block is a data block of the image. -/
  pointers : inode.indirectBlock ≠ 0 →
    inode.indirectBlock < s.totalBlocks ∧ ∃ bytes, s.mem inode.indirectBlock = .data bytes

/-- Writing a page under its own number changes nothing. -/
theorem writeBlockAs_self {pnum : Nat} (inside : pnum < s.totalBlocks) :
    writeBlockAs s pnum pnum = some (s.put pnum (s.mem pnum)) := by
  simp only [writeBlockAs, Store.get_of_lt inside, Option.bind_eq_bind, Option.bind_some]
  rw [if_pos inside]

/-- A table write keeps the block bitmap. -/
theorem SlotWritten.samePages {page : Nat} {inode : Inode} (written : SlotWritten s page inode s')
    (bitmapped : s.Bitmapped) : SamePages s s' := by
  refine ⟨written.totalBlocks, fun pnum inside => written.other ?_⟩
  intro slots same
  obtain ⟨-, words, tag⟩ := bitmapped pnum inside
  rw [tag] at same
  cases same

/-- A new single indirect block of an inode. -/
structure IndirectCreated (s : Store) (superblock : Superblock) (inode : Inode) (page : Nat)
    (s' : Store) : Prop where
  /-- The page is not block 0. -/
  nonzero : page ≠ 0
  /-- The page is a block of the image. -/
  inside : page < s.totalBlocks
  /-- The page was free. -/
  free : s.bit page = some false
  /-- Its entries are 0. -/
  entries : s'.mem page = .data fun _ => 0
  /-- The superblock counts one free block less. -/
  read : superblockRead s' = some superblock.decrementFree
  /-- The page's bit is set and the other bits are kept. -/
  bits : ∀ pnum < s.totalBlocks, s'.bit pnum = if pnum = page then some true else s.bit pnum
  /-- The store stays formatted. -/
  formatted : s'.Formatted
  /-- There is one free block less. -/
  freeCount : s'.freeCount + 1 = s.freeCount
  /-- The inode is written to its slot. -/
  slot : ∀ slots, s.mem (inodePage superblock inode.inodeNumber) = .inode slots →
    page ≠ inodePage superblock inode.inodeNumber →
    s'.mem (inodePage superblock inode.inodeNumber) =
      .inode (setSlot slots (inode.inodeNumber % inodesPerPage) { inode with indirectBlock := page })
  /-- The other pages are kept. -/
  other : ∀ block, block ≠ 0 → (∀ pnum < s.totalBlocks, bitmapPage pnum ≠ block) → block ≠ page →
    (block ≠ inodePage superblock inode.inodeNumber ∨ ∀ slots, s.mem block ≠ .inode slots) →
    s'.mem block = s.mem block
  /-- The image keeps its size. -/
  totalBlocks : s'.totalBlocks = s.totalBlocks
  /-- Former content reads as before. -/
  residue : s'.residue = s.residue

/-- With a free block a new single indirect block is made. -/
theorem newIndirectBlock_spec {superblock : Superblock} {inode : Inode}
    (ready : InodeReady s superblock inode) (room : 0 < s.freeCount) :
    ∃ page s', newIndirectBlock s inode =
        some (true, { inode with indirectBlock := page }, s') ∧
      IndirectCreated s superblock inode page s' := by
  obtain ⟨page, taken, run, allocated⟩ := allocPage_formatted ready.formatted room
  have total := allocated.change.totalBlocks
  have inside : page < taken.totalBlocks := by
    rw [total]
    exact allocated.inside
  have notPage := ready.formatted.not_page allocated.free
  let s1 := taken.put page (taken.residue.asData (taken.mem page))
  have pages1 : SamePages taken s1 := allocated.samePages ready.formatted _
  have formatted1 := pages1.formatted allocated.formatted
  have read1 : superblockRead s1 = some superblock.decrementFree := by
    have zero : s1.mem 0 = taken.mem 0 := Store.put_other _ _ _ _ (Ne.symm allocated.nonzero)
    have read : superblockRead taken = some superblock.decrementFree := by
      rw [allocated.change.superblock, ready.read]
      rfl
    unfold superblockRead at read ⊢
    rw [zero]
    exact read
  let linked : Inode := { inode with indirectBlock := page }
  have table1 : inodePage superblock.decrementFree linked.inodeNumber < s1.totalBlocks := by
    rw [inodePage_decrementFree, show s1.totalBlocks = s.totalBlocks from total]
    exact ready.table
  obtain ⟨s2, stored, written⟩ := inodeStore_spec read1 linked table1 true
  have read2 := written.superblockRead read1
  have reload := written.reload read2 table1
  rw [inodePage_decrementFree] at written
  have pages2 : SamePages s1 s2 := written.samePages formatted1.bitmapped
  have total2 : s2.totalBlocks = s.totalBlocks := written.totalBlocks.trans total
  let s3 := s2.put page (.data fun _ => 0)
  have inside3 : page < s3.totalBlocks := by
    show page < s2.totalBlocks
    rw [total2]
    exact allocated.inside
  have cleared : s3.mem page = .data fun _ => 0 := Store.put_same _ _ _
  let s4 := (s3.put page (s3.mem page)).flush page
  have finish : newIndirectBlock s inode = some (true, linked, s4) := by
    unfold newIndirectBlock
    rw [run, Option.bind_eq_bind, Option.bind_some]
    show (if page = 0 then some (false, linked, taken) else _) = _
    rw [if_neg allocated.nonzero, tagData_of_lt inside, Option.bind_eq_bind, Option.bind_some]
    show (inodeStore s1 linked true).bind _ = _
    rw [stored, Option.bind_some]
    show (inodeReload s2 linked.inodeNumber linked).bind _ = _
    rw [reload, Option.bind_some]
    show (writeBlockAs s3 page page).bind _ = _
    rw [writeBlockAs_self inside3, Option.bind_some]
    show (diskWriteBlockAs (s3.put page (s3.mem page)) page page).bind _ = _
    have again : page < (s3.put page (s3.mem page)).totalBlocks := inside3
    rw [diskWriteBlockAs_self again, Option.bind_some]
  have mem4 : ∀ block, block ≠ page → s4.mem block = s2.mem block := by
    intro block distinct
    show (s3.put page (s3.mem page)).mem block = s2.mem block
    rw [Store.put_other _ _ _ _ distinct]
    exact Store.put_other _ _ _ _ distinct
  have pages4 : SamePages s1 s4 := by
    refine ⟨pages2.totalBlocks, fun pnum bound => ?_⟩
    have bound' : pnum < s.totalBlocks := by
      rw [← total]
      exact bound
    rw [mem4 _ (notPage pnum bound'), pages2.pages pnum bound]
  refine ⟨page, s4, finish, allocated.nonzero, allocated.inside, allocated.free, ?_, ?_, ?_,
    pages4.formatted formatted1, ?_, ?_, ?_, total2, ?_⟩
  · show (s3.put page (s3.mem page)).mem page = _
    rw [Store.put_same, cleared]
  · unfold superblockRead at read2 ⊢
    rw [mem4 0 (Ne.symm allocated.nonzero)]
    exact read2
  · intro pnum bound
    rw [← total] at bound
    rw [pages4.bit bound, pages1.bit bound, allocated.change.bits]
  · rw [pages4.freeCount, pages1.freeCount]
    exact allocated.freeCount
  · intro slots tag apart
    have zero : inodePage superblock inode.inodeNumber ≠ 0 := by
      intro same
      have read := ready.read
      unfold superblockRead at read
      rw [← same, tag] at read
      cases read
    have noBitmap : inodePage superblock inode.inodeNumber ≠ bitmapPage page := by
      intro same
      obtain ⟨-, words, bitmap⟩ := ready.formatted.bitmapped page allocated.inside
      rw [← same, tag] at bitmap
      cases bitmap
    have tagged : s1.mem (inodePage superblock inode.inodeNumber) =
        taken.mem (inodePage superblock inode.inodeNumber) := Store.put_other _ _ _ _ (Ne.symm apart)
    rw [allocated.change.mem _ zero noBitmap, tag] at tagged
    rw [mem4 _ (Ne.symm apart)]
    exact written.slots slots tagged
  · intro block notZero noBitmap distinct noSlot
    have kept1 : s1.mem block = taken.mem block := Store.put_other _ _ _ _ distinct
    rw [allocated.change.mem block notZero (Ne.symm (noBitmap page allocated.inside))] at kept1
    rw [mem4 block distinct]
    rcases noSlot with notTable | noInode
    · rw [written.mem block notTable, kept1]
    · rw [written.other (by rw [kept1]; exact noInode), kept1]
  · show s2.residue = s.residue
    rw [written.residue]
    exact allocated.change.residue

/-- A direct pointer is assigned, and it is a success if it is not 0. -/
theorem inodeGetBlock_direct (s : Store) (inode : Inode) {index : Nat}
    (direct : index < directPointers) :
    inodeGetBlock s inode index =
      some (decide (inode.directBlocks index ≠ 0), some (inode.directBlocks index)) := by
  unfold inodeGetBlock
  rw [if_pos direct]

/-- Without a single indirect block nothing is assigned. -/
theorem inodeGetBlock_unlinked (s : Store) {inode : Inode} {index : Nat}
    (indirect : directPointers ≤ index) (small : index < pointersPerPage)
    (unlinked : inode.indirectBlock = 0) : inodeGetBlock s inode index = some (false, none) := by
  rw [inodeGetBlock, if_neg (Nat.not_lt.mpr indirect), if_pos small, if_pos unlinked]

/-- An entry of the single indirect block is assigned, and it is a success even if it is 0. -/
theorem inodeGetBlock_indirect {inode : Inode} {index : Nat} {bytes : Nat → UInt8}
    (indirect : directPointers ≤ index) (small : index < pointersPerPage)
    (linked : inode.indirectBlock ≠ 0) (inside : inode.indirectBlock < s.totalBlocks)
    (page : s.mem inode.indirectBlock = .data bytes) :
    inodeGetBlock s inode index = some (true, some (pointerAt bytes (index - directPointers))) := by
  have get := Store.get_of_lt inside
  rw [page] at get
  rw [inodeGetBlock, if_neg (Nat.not_lt.mpr indirect), if_pos small, if_neg linked, get]
  rfl

/-- A direct pointer is entered into the inode and its slot. -/
theorem inodeSetBlock_direct {superblock : Superblock} {inode : Inode}
    (read : superblockRead s = some superblock)
    (table : inodePage superblock inode.inodeNumber < s.totalBlocks) {index : Nat}
    (direct : index < directPointers) (physicalBlock : Nat) :
    ∃ s', inodeSetBlock s inode index physicalBlock =
        some (true, inode.withDirect index physicalBlock, s') ∧
      SlotWritten s (inodePage superblock inode.inodeNumber)
        (inode.withDirect index physicalBlock) s' := by
  obtain ⟨s', stored, written⟩ :=
    inodeStore_spec read (inode.withDirect index physicalBlock) table true
  have run : inodeSetBlock s inode index physicalBlock =
      some (true, inode.withDirect index physicalBlock, s') := by
    rw [inodeSetBlock, if_pos direct]
    show (inodeStore s (inode.withDirect index physicalBlock) true).bind _ = _
    rw [stored, Option.bind_some]
  exact ⟨s', run, written⟩

/-- The setter takes the single indirect part for an index that is not direct. -/
theorem inodeSetBlock_part (s : Store) (inode : Inode) {index : Nat}
    (indirect : directPointers ≤ index) (small : index ≤ pointersPerPage) (physicalBlock : Nat) :
    inodeSetBlock s inode index physicalBlock = inodeSetIndirect s inode index physicalBlock := by
  rw [inodeSetBlock, if_neg (Nat.not_lt.mpr indirect), if_pos (by omega)]

/-- An entry of the single indirect block. -/
theorem inodeSetBlock_linked {inode : Inode} {index physicalBlock : Nat} {bytes : Nat → UInt8}
    (indirect : directPointers ≤ index) (small : index ≤ pointersPerPage)
    (linked : inode.indirectBlock ≠ 0) (page : s.mem inode.indirectBlock = .data bytes)
    (pageInside : inode.indirectBlock < s.totalBlocks) (nonzero : physicalBlock ≠ 0)
    (inside : physicalBlock < s.totalBlocks) :
    ∃ s', inodeSetBlock s inode index physicalBlock = some (true, inode, s') ∧
      PointerLinked s inode.indirectBlock (index - directPointers) physicalBlock s' := by
  have direct : 0 < directPointers := by decide
  obtain ⟨s', run, entered⟩ :=
    @linkPointer_spec s inode.indirectBlock (index - directPointers) physicalBlock bytes page
      pageInside (by omega) inside
  have kept : ¬ (index = directPointers ∧ physicalBlock = 0 ∧ inode.indirectBlock ≠ 0) :=
    fun cleared => nonzero cleared.2.1
  refine ⟨s', ?_, entered⟩
  rw [inodeSetBlock_part s inode indirect small, inodeSetIndirect, if_neg kept,
    Option.bind_eq_bind, Option.bind_some]
  dsimp only
  rw [if_neg linked, Option.bind_eq_bind, Option.bind_some]
  show (linkPointer s inode.indirectBlock (index - directPointers) physicalBlock).bind _ = _
  rw [run, Option.bind_some]

/-- An entry of a new single indirect block. -/
theorem inodeSetBlock_unlinked {superblock : Superblock} {inode : Inode}
    {index physicalBlock : Nat} (ready : InodeReady s superblock inode)
    (indirect : directPointers ≤ index) (small : index ≤ pointersPerPage)
    (unlinked : inode.indirectBlock = 0) (nonzero : physicalBlock ≠ 0)
    (inside : physicalBlock < s.totalBlocks) (room : 0 < s.freeCount) :
    ∃ page created s', inodeSetBlock s inode index physicalBlock =
        some (true, { inode with indirectBlock := page }, s') ∧
      IndirectCreated s superblock inode page created ∧
      PointerLinked created page (index - directPointers) physicalBlock s' := by
  have direct : 0 < directPointers := by decide
  obtain ⟨page, created, made, facts⟩ := newIndirectBlock_spec ready room
  have pageInside : page < created.totalBlocks := by
    rw [facts.totalBlocks]
    exact facts.inside
  have inside' : physicalBlock < created.totalBlocks := by
    rw [facts.totalBlocks]
    exact inside
  obtain ⟨s', run, entered⟩ :=
    @linkPointer_spec created page (index - directPointers) physicalBlock _ facts.entries
      pageInside (by omega) inside'
  have kept : ¬ (index = directPointers ∧ physicalBlock = 0 ∧ inode.indirectBlock ≠ 0) :=
    fun cleared => nonzero cleared.2.1
  refine ⟨page, created, s', ?_, facts, entered⟩
  rw [inodeSetBlock_part s inode indirect small, inodeSetIndirect, if_neg kept,
    Option.bind_eq_bind, Option.bind_some]
  dsimp only
  rw [if_pos unlinked, made, Option.bind_eq_bind, Option.bind_some]
  show (linkPointer created page (index - directPointers) physicalBlock).bind _ = _
  rw [run, Option.bind_some]

/-- What the getter answers for another index after a block was set. An index of the single
indirect part has no block before that part exists; once the setter has made it, the getter
succeeds there with block 0. -/
def KeptBlock (s : Store) (inode : Inode) (s' : Store) (inode' : Inode) (index other : Nat) :
    Prop :=
  if inode.indirectBlock = 0 ∧ directPointers ≤ index ∧ directPointers ≤ other
  then inodeGetBlock s inode other = some (false, none) ∧
    inodeGetBlock s' inode' other = some (true, some 0)
  else inodeGetBlock s' inode' other = inodeGetBlock s inode other

/-- The pointer blocks behind the getter's answers are kept by a write of a direct pointer. -/
theorem inodeGetBlock_withDirect {superblock : Superblock} {inode : Inode}
    (ready : InodeReady s superblock inode) {index physicalBlock : Nat}
    (written : SlotWritten s (inodePage superblock inode.inodeNumber)
      (inode.withDirect index physicalBlock) s')
    {other : Nat} (small : other < pointersPerPage) (distinct : other ≠ index) :
    inodeGetBlock s' (inode.withDirect index physicalBlock) other = inodeGetBlock s inode other := by
  by_cases direct : other < directPointers
  · rw [inodeGetBlock_direct s' _ direct, inodeGetBlock_direct s _ direct]
    have kept : (inode.withDirect index physicalBlock).directBlocks other =
        inode.directBlocks other := if_neg distinct
    rw [kept]
  · have indirect : directPointers ≤ other := Nat.not_lt.mp direct
    by_cases unlinked : inode.indirectBlock = 0
    · rw [inodeGetBlock_unlinked s indirect small unlinked]
      exact inodeGetBlock_unlinked s' indirect small unlinked
    · obtain ⟨inside, bytes, page⟩ := ready.pointers unlinked
      rw [inodeGetBlock_indirect indirect small unlinked inside page]
      apply inodeGetBlock_indirect indirect small
      · exact unlinked
      · rw [written.totalBlocks]
        exact inside
      · have noInode : ∀ slots, s.mem inode.indirectBlock ≠ .inode slots := by
          intro slots same
          rw [page] at same
          cases same
        exact (written.other noInode).trans page

/-- The getter's answers after an entry of the single indirect block was written. -/
theorem PointerLinked.get {inode : Inode} {bytes : Nat → UInt8} {index physicalBlock : Nat}
    (entered : PointerLinked s inode.indirectBlock (index - directPointers) physicalBlock s')
    (page : s.mem inode.indirectBlock = .data bytes) (linked : inode.indirectBlock ≠ 0)
    (inside : inode.indirectBlock < s.totalBlocks) (indirect : directPointers ≤ index)
    (fits : physicalBlock < pointerBound) {other : Nat} (small : other < pointersPerPage)
    (part : directPointers ≤ other) :
    inodeGetBlock s' inode other = some (true, some (if other = index then physicalBlock
      else pointerAt bytes (other - directPointers))) := by
  have inside' : inode.indirectBlock < s'.totalBlocks := by
    rw [entered.totalBlocks]
    exact inside
  rw [inodeGetBlock_indirect part small linked inside' (entered.entry bytes page)]
  by_cases same : other = index
  · rw [if_pos same, same, pointerAt_setPointer_same bytes _ _ fits]
  · have apart : other - directPointers ≠ index - directPointers := by omega
    rw [if_neg same, pointerAt_setPointer_other bytes _ _ _ apart]

/-- Below the end of the getter's single indirect part the block map is a map: a block that was set
is found, and the other indices keep theirs. -/
theorem inodeSetBlock_map {superblock : Superblock} {inode : Inode}
    (ready : InodeReady s superblock inode) {index physicalBlock : Nat}
    (small : index < pointersPerPage) (nonzero : physicalBlock ≠ 0)
    (inside : physicalBlock < s.totalBlocks) (fits : physicalBlock < pointerBound)
    (room : directPointers ≤ index → inode.indirectBlock = 0 → 0 < s.freeCount) :
    ∃ inode' s', inodeSetBlock s inode index physicalBlock = some (true, inode', s') ∧
      inodeGetBlock s' inode' index = some (true, some physicalBlock) ∧
      ∀ other < pointersPerPage, other ≠ index → KeptBlock s inode s' inode' index other := by
  by_cases direct : index < directPointers
  · obtain ⟨s', run, written⟩ := inodeSetBlock_direct ready.read ready.table direct physicalBlock
    refine ⟨inode.withDirect index physicalBlock, s', run, ?_, ?_⟩
    · have assigned : (inode.withDirect index physicalBlock).directBlocks index = physicalBlock :=
        if_pos rfl
      rw [inodeGetBlock_direct s' _ direct, assigned, decide_eq_true nonzero]
    · intro other smallOther distinct
      have apart : ¬ (inode.indirectBlock = 0 ∧ directPointers ≤ index ∧ directPointers ≤ other) :=
        fun parts => absurd parts.2.1 (Nat.not_le.mpr direct)
      rw [KeptBlock, if_neg apart]
      exact inodeGetBlock_withDirect ready written smallOther distinct
  · have indirect : directPointers ≤ index := Nat.not_lt.mp direct
    by_cases unlinked : inode.indirectBlock = 0
    · obtain ⟨page, created, s', run, made, entered⟩ :=
        inodeSetBlock_unlinked ready indirect small.le unlinked nonzero inside
          (room indirect unlinked)
      let linked : Inode := { inode with indirectBlock := page }
      have pageInside : linked.indirectBlock < created.totalBlocks := by
        rw [made.totalBlocks]
        exact made.inside
      have answers := fun other (smallOther : other < pointersPerPage) =>
        @PointerLinked.get created s' linked _ index physicalBlock entered made.entries made.nonzero
          pageInside indirect fits other smallOther
      refine ⟨linked, s', run, ?_, ?_⟩
      · rw [answers index small indirect, if_pos rfl]
      · intro other smallOther distinct
        by_cases part : directPointers ≤ other
        · rw [KeptBlock, if_pos ⟨unlinked, indirect, part⟩, answers other smallOther part,
            if_neg distinct, pointerAt_zero]
          exact ⟨inodeGetBlock_unlinked s part smallOther unlinked, rfl⟩
        · rw [KeptBlock, if_neg fun parts => part parts.2.2,
            inodeGetBlock_direct s' _ (Nat.not_le.mp part),
            inodeGetBlock_direct s _ (Nat.not_le.mp part)]
    · obtain ⟨pageInside, bytes, page⟩ := ready.pointers unlinked
      obtain ⟨s', run, entered⟩ :=
        inodeSetBlock_linked indirect small.le unlinked page pageInside nonzero inside
      have answers := fun other (smallOther : other < pointersPerPage) =>
        @PointerLinked.get s s' inode _ index physicalBlock entered page unlinked pageInside indirect
          fits other smallOther
      refine ⟨inode, s', run, ?_, ?_⟩
      · rw [answers index small indirect, if_pos rfl]
      · intro other smallOther distinct
        rw [KeptBlock, if_neg fun parts => unlinked parts.1]
        by_cases part : directPointers ≤ other
        · rw [answers other smallOther part, if_neg distinct]
          exact (inodeGetBlock_indirect part smallOther unlinked pageInside page).symm
        · rw [inodeGetBlock_direct s' _ (Nat.not_le.mp part),
            inodeGetBlock_direct s _ (Nat.not_le.mp part)]

end

/-- The superblock of an image of 16 blocks with the inode table in block 3. -/
def smallSuperblock : Superblock where
  magicNumber := 0x53465452424e
  blockSize := blockSize
  totalBlocks := 16
  freeBlocks := 8
  inodeBitmap := 2
  rootInode := 0
  btreeRoot := 7
  journalStart := 0
  journalHead := 0
  volumeName := []
  creationTime := 0
  lastMountTime := 0

/-- The image with an inode in every slot; the blocks from 8 on are free, and the others hold a
pointer block with number 5 in its entry 1. -/
def smallImage (inode : Inode) : Store where
  totalBlocks := 16
  mem block :=
    if block = 0 then .super smallSuperblock
    else if block = 1 ∨ block = 2 then .bitmap fun word => if word = 0 then 0xff#64 else 0
    else if block = 3 then .inode fun _ => inode
    else .data (setPointer (fun _ => 0) 1 5)
  disk _ := .untagged fun _ => 0
  residue := ⟨fun _ => 0, fun _ _ => 0⟩

/-- An inode with a single indirect block. -/
def indirectInode (indirectBlock : Nat) : Inode := { zeroInode with indirectBlock }

/-- The small image is ready for its inodes. -/
theorem smallImage_ready (indirectBlock : Nat) (inside : indirectBlock = 0 ∨ indirectBlock = 4) :
    InodeReady (smallImage (indirectInode indirectBlock)) smallSuperblock
      (indirectInode indirectBlock) where
  formatted := by
    have page : ∀ pnum < 16, bitmapPage pnum = 1 := by decide
    refine ⟨?_, show 0 < 16 by decide, rfl, ?_⟩
    · intro pnum small
      rw [page pnum small]
      exact ⟨show 1 < 16 by decide, _, rfl⟩
    · intro pnum small
      rw [page pnum small]
      rfl
  read := rfl
  table := by
    show inodePage smallSuperblock 0 < 16
    decide
  pointers linked := by
    have four : indirectBlock = 4 := inside.resolve_left linked
    rw [four]
    exact ⟨show 4 < 16 by decide, _, rfl⟩

/-- Block 6 is entered at index 13 of an inode without a single indirect block. -/
theorem inodeSetBlock_map_created :
    ∃ inode' s', inodeSetBlock (smallImage (indirectInode 0)) (indirectInode 0) 13 6 =
        some (true, inode', s') ∧ inodeGetBlock s' inode' 13 = some (true, some 6) ∧
      ∀ other < pointersPerPage, other ≠ 13 →
        KeptBlock (smallImage (indirectInode 0)) (indirectInode 0) s' inode' 13 other := by
  have room : 0 < (smallImage (indirectInode 0)).freeCount :=
    Finset.card_pos.mpr ⟨8, mem_freeSet.mpr ⟨show 8 < 16 by decide, rfl⟩⟩
  exact inodeSetBlock_map (smallImage_ready 0 (Or.inl rfl)) (by decide) (by decide)
    (show 6 < 16 by decide) (by decide) fun _ _ => room

/-- The getter's answer at an index after the setter ran at another. -/
def getAfterSet (s : Store) (inode : Inode) (index physicalBlock other : Nat) :
    Option (Bool × Option Nat) := do
  let (_, inode', s') ← inodeSetBlock s inode index physicalBlock
  inodeGetBlock s' inode' other

/-- In the double indirect part the setter clears the single indirect block, so index 13 loses its
block 5. At index 511 the getter does not find the allocated block 6 that the setter entered. Index
13 has no block before index 12 is set, and block 0 after. -/
theorem inodeSetBlock_map_false :
    (smallImage (indirectInode 4)).bit 6 = some true ∧
    inodeGetBlock (smallImage (indirectInode 4)) (indirectInode 4) 13 = some (true, some 5) ∧
    getAfterSet (smallImage (indirectInode 4)) (indirectInode 4) 600 6 13 = some (true, some 0) ∧
    getAfterSet (smallImage (indirectInode 4)) (indirectInode 4) 511 6 511 = some (false, none) ∧
    inodeGetBlock (smallImage (indirectInode 0)) (indirectInode 0) 13 = some (false, none) ∧
    getAfterSet (smallImage (indirectInode 0)) (indirectInode 0) 12 6 13 = some (true, some 0) := by
  decide +kernel

end Nbtrfs
