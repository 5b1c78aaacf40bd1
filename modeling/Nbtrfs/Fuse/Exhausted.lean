import Nbtrfs.Fuse.Quiet
import Nbtrfs.Fuse.Run
import Nbtrfs.Journal.Room

/-!
# Writing until the image is full

`nbtrfs_write` on a file without holes with any number of free blocks. The loop leaves when a data
block is missing, and then the size is not stored. When the single indirect block is missing, the
page at index 12 is written to a block that the file does not map.
-/

namespace Nbtrfs

/-- The bytes that a call of `nbtrfs_write` returns the number of are read back, and the file reaches
to their end. -/
def WriteKept (s : Store) (path : CString) (inodeNumber : Nat) (buffer : List UInt8)
    (offset count : Nat) : Prop :=
  0 < count → nbtrfsRead s path count offset = some ((count : Int), buffer.take count) ∧
    ∃ inode, inodeRead s inodeNumber = some (some inode) ∧ offset + count ≤ inode.size

section

variable {s s' : Store} {superblock : Superblock} {inode inode' : Inode} {pages : Nat}
  {append : Append} {locals : Locals}

/-- With too few free blocks the last one is taken before a data block or before the single indirect
block. -/
theorem blocksNeeded_exceeded {free target : Nat}
    (linked : directPointers < pages → inode.indirectBlock ≠ 0)
    (exceeds : free < blocksNeeded inode pages target) :
    (∃ full, pages ≤ full ∧ full < target ∧ blocksNeeded inode pages full = free) ∨
    inode.indirectBlock = 0 ∧ pages ≤ directPointers ∧ directPointers < target ∧
      blocksNeeded inode pages directPointers + 1 = free := by
  unfold blocksNeeded at exceeds ⊢
  by_cases crossing : pages < target ∧ inode.indirectBlock = 0 ∧ directPointers < target
  · rw [if_pos crossing] at exceeds
    have low : pages ≤ directPointers := Nat.not_lt.mp fun above => linked above crossing.2.1
    by_cases few : free ≤ directPointers - pages
    · refine Or.inl ⟨pages + free, by omega, by omega, ?_⟩
      rw [if_neg (by omega)]
      omega
    · by_cases last : free = directPointers - pages + 1
      · refine Or.inr ⟨crossing.2.1, low, crossing.2.2, ?_⟩
        rw [if_neg (by omega)]
        omega
      · refine Or.inl ⟨pages + free - 1, by omega, by omega, ?_⟩
        rw [if_pos ⟨by omega, crossing.2.1, by omega⟩]
        omega
  · rw [if_neg crossing] at exceeds
    refine Or.inl ⟨pages + free, by omega, by omega, ?_⟩
    rw [if_neg (fun both => crossing ⟨by omega, both.2.1, by omega⟩)]
    omega

/-- A view with pages behind the direct ones has a single indirect block. -/
theorem FileView.linked (view : FileView s superblock inode pages) (behind : directPointers < pages) :
    inode.indirectBlock ≠ 0 := by
  intro unlinked
  apply view.nonzero directPointers behind
  rw [blockPointer, if_neg (Nat.lt_irrefl _), if_pos unlinked]

/-- The loop of `nbtrfs_write` over two parts of a buffer that meet at the start of a page. -/
theorem writeLoop_append {size fuel start bytesWritten bytesWritten' offset : Nat}
    {first second : List UInt8} (aligned : (offset + first.length) % usableBlockSize = 0)
    (enough : first.length + second.length < fuel)
    (run : writeLoop append locals size start first offset bytesWritten inode s =
      some (true, bytesWritten', inode', s')) :
    ∃ rest, second.length < rest ∧
      writeLoop append locals size fuel (first ++ second) offset bytesWritten inode s =
        writeLoop append locals size rest second (offset + first.length) bytesWritten' inode' s' := by
  induction start generalizing fuel first offset bytesWritten inode s with
  | zero => cases run
  | succ start ih =>
    rw [writeLoop] at run
    by_cases done : first = []
    · subst done
      rw [if_pos rfl] at run
      obtain ⟨-, same⟩ := Prod.mk.inj (Option.some.inj run)
      obtain ⟨rfl, same'⟩ := Prod.mk.inj same
      obtain ⟨rfl, rfl⟩ := Prod.mk.inj same'
      exact ⟨fuel, by simpa using enough, rfl⟩
    · rw [if_neg done] at run
      have positive : 0 < first.length := List.length_pos_iff.mpr done
      obtain ⟨fuel, rfl⟩ : ∃ left, fuel = left + 1 := ⟨fuel - 1, by omega⟩
      have page : usableBlockSize - offset % usableBlockSize ≤ first.length := by
        have small := Nat.mod_lt offset (show 0 < usableBlockSize by decide)
        unfold usableBlockSize at aligned small ⊢
        omega
      have bytes : min (usableBlockSize - offset % usableBlockSize) (first ++ second).length =
          min (usableBlockSize - offset % usableBlockSize) first.length := by
        rw [List.length_append]
        omega
      have whole : first ++ second ≠ [] := fun empty => done (List.append_eq_nil_iff.mp empty).1
      rw [writeLoop, if_neg whole]
      obtain ⟨⟨pnum, inode1, s1⟩, get, run⟩ := Option.bind_eq_some_iff.mp run
      rw [get, Option.bind_eq_bind, Option.bind_some]
      dsimp only at run ⊢
      rw [bytes]
      split at run
      · cases run
      · rename_i nonzero
        obtain ⟨s2, write, run⟩ := Option.bind_eq_some_iff.mp run
        have fits : min (usableBlockSize - offset % usableBlockSize) first.length ≤ first.length :=
          Nat.min_le_right _ _
        have some_bytes : 0 < min (usableBlockSize - offset % usableBlockSize) first.length := by
          have small := Nat.mod_lt offset (show 0 < usableBlockSize by decide)
          omega
        generalize min (usableBlockSize - offset % usableBlockSize) first.length = count at *
        rw [if_neg nonzero, List.take_append_of_le_length fits, write, Option.bind_eq_bind,
          Option.bind_some, List.drop_append_of_le_length fits]
        have length : (first.drop count).length = first.length - count := List.length_drop
        have reach : offset + count + (first.drop count).length = offset + first.length := by omega
        obtain ⟨rest, more, same⟩ := @ih s2 inode1 fuel (bytesWritten + count) (offset + count)
          (first.drop count) (by rw [reach]; exact aligned) (by omega) run
        rw [reach] at same
        exact ⟨rest, more, same⟩

/-- Without a free block a missing page is not found. -/
theorem fileBlockAt_full {index size : Nat} {mapped : Bool} {block : Option Nat}
    (formatted : s.Formatted) (full : s.freeCount = 0)
    (get : inodeGetBlock s inode index = some (mapped, block)) (missing : assigned 0 block = 0) :
    fileBlockAt append locals s inode index size = some (0, inode, s) := by
  rw [fileBlockAt, get, Option.bind_eq_bind, Option.bind_some]
  dsimp only
  rw [if_neg (fun wrong => wrong missing), allocPage_full formatted full, Option.bind_eq_bind,
    Option.bind_some]
  exact if_pos rfl

/-- So the loop leaves there. -/
theorem writeLoop_full {size fuel offset bytesWritten : Nat} {buffer : List UInt8} {mapped : Bool}
    {block : Option Nat} (formatted : s.Formatted) (full : s.freeCount = 0)
    (get : inodeGetBlock s inode (offset / usableBlockSize) = some (mapped, block))
    (missing : assigned 0 block = 0) (more : buffer ≠ []) :
    writeLoop append locals size (fuel + 1) buffer offset bytesWritten inode s =
      some (false, bytesWritten, inode, s) := by
  rw [writeLoop, if_neg more, fileBlockAt_full formatted full get missing, Option.bind_eq_bind,
    Option.bind_some]
  exact if_pos rfl

/-- The loop over direct pages makes no single indirect block. -/
theorem writeLoop_direct {size fuel bytesWritten bytesWritten' offset : Nat} {buffer : List UInt8}
    {completed : Bool} (direct : offset + buffer.length ≤ directPointers * usableBlockSize)
    (run : writeLoop append locals size fuel buffer offset bytesWritten inode s =
      some (completed, bytesWritten', inode', s')) :
    inode'.indirectBlock = inode.indirectBlock := by
  induction fuel generalizing buffer offset bytesWritten inode s with
  | zero => cases run
  | succ fuel ih =>
    rw [writeLoop] at run
    by_cases done : buffer = []
    · rw [if_pos done] at run
      obtain ⟨-, same⟩ := Prod.mk.inj (Option.some.inj run)
      rw [(Prod.mk.inj (Prod.mk.inj same).2).1]
    · rw [if_neg done] at run
      have positive : 0 < buffer.length := List.length_pos_iff.mpr done
      obtain ⟨⟨pnum, inode1, s1⟩, get, run⟩ := Option.bind_eq_some_iff.mp run
      have first := fileBlockAt_direct (page_lt (by omega)) get
      dsimp only at run
      split at run
      · obtain ⟨-, same⟩ := Prod.mk.inj (Option.some.inj run)
        rw [← (Prod.mk.inj (Prod.mk.inj same).2).1, first]
      · obtain ⟨s2, -, run⟩ := Option.bind_eq_some_iff.mp run
        rw [ih _ run, first]
        rw [List.length_drop]
        omega

/-- The loop of `nbtrfs_write` up to a page that the free blocks reach. -/
theorem writeLoop_upTo (view : FileView s superblock inode pages) (journal : TouchesJournal append)
    {buffer : List UInt8} {offset full : Nat} (next : offset ≤ pages * usableBlockSize)
    (limit : offset + buffer.length ≤ pointersPerPage * usableBlockSize) (more : pages ≤ full)
    (stops : full < pagesFor (offset + buffer.length))
    (room : blocksNeeded inode pages full ≤ s.freeCount) :
    ∃ fuel inode1 s1, writeLoop append locals buffer.length (buffer.length + 1) buffer offset 0 inode
        s = writeLoop append locals buffer.length (fuel + 1)
          (buffer.drop (full * usableBlockSize - offset)) (full * usableBlockSize)
          (full * usableBlockSize - offset) inode1 s1 ∧
      (buffer.drop (full * usableBlockSize - offset)).length < fuel + 1 ∧
      PieceWritten s superblock inode pages offset (buffer.take (full * usableBlockSize - offset))
        full inode1 s1 ∧
      s1.freeCount + blocksNeeded inode pages full = s.freeCount ∧
      (full ≤ directPointers → inode1.indirectBlock = inode.indirectBlock) := by
  have grows : pages * usableBlockSize ≤ full * usableBlockSize := Nat.mul_le_mul_right _ more
  have behind : full * usableBlockSize < offset + buffer.length := by
    unfold pagesFor usableBlockSize at stops
    unfold usableBlockSize
    omega
  have length : (buffer.take (full * usableBlockSize - offset)).length =
      full * usableBlockSize - offset := by
    rw [List.length_take]
    omega
  have reach : offset + (buffer.take (full * usableBlockSize - offset)).length =
      full * usableBlockSize := by omega
  have whole : pagesFor (full * usableBlockSize) = full := by
    unfold pagesFor usableBlockSize
    omega
  obtain ⟨inode1, s1, run, written, free⟩ := @writeLoop_spec s superblock inode pages append locals
    journal buffer.length ((buffer.take (full * usableBlockSize - offset)).length + 1) _ offset 0 view
    (Nat.lt_succ_self _) next (by omega) (by rw [reach, whole]; exact room)
  rw [reach, whole] at written free
  rw [Nat.max_eq_right more] at written
  have split := List.take_append_drop (full * usableBlockSize - offset) buffer
  have rest : (buffer.drop (full * usableBlockSize - offset)).length =
      buffer.length - (full * usableBlockSize - offset) := List.length_drop
  obtain ⟨fuel, enough, parts⟩ := @writeLoop_append s s1 inode inode1 append locals buffer.length
    (buffer.length + 1) _ 0 _ offset _ (buffer.drop (full * usableBlockSize - offset))
    (by rw [reach]; exact Nat.mul_mod_left _ _) (by omega) run
  rw [split, reach, Nat.zero_add, length] at parts
  obtain ⟨fuel, rfl⟩ : ∃ left, fuel = left + 1 := ⟨fuel - 1, by omega⟩
  refine ⟨fuel, inode1, s1, parts, enough, written, free, fun direct => ?_⟩
  apply writeLoop_direct _ run
  rw [reach]
  exact Nat.mul_le_mul_right _ direct

/-- Bytes are left behind a page that the buffer ends behind. -/
theorem drop_nonempty {buffer : List UInt8} {offset full : Nat}
    (next : offset ≤ full * usableBlockSize) (stops : full < pagesFor (offset + buffer.length)) :
    buffer.drop (full * usableBlockSize - offset) ≠ [] := by
  apply List.length_pos_iff.mp
  rw [List.length_drop]
  unfold pagesFor usableBlockSize at stops
  unfold usableBlockSize at next ⊢
  omega

/-- The last page of a buffer is one of the direct and single indirect ones. -/
theorem page_limit {offset length full : Nat}
    (limit : offset + length ≤ pointersPerPage * usableBlockSize)
    (stops : full < pagesFor (offset + length)) : full < pointersPerPage := by
  unfold pagesFor usableBlockSize at stops
  unfold usableBlockSize at limit
  omega

/-- A buffer that ends behind a page is written up to the page when its blocks are the last free
ones. -/
theorem writeInode_stopped (view : FileView s superblock inode pages)
    (journal : TouchesJournal append) {buffer : List UInt8} {offset full : Nat}
    (next : offset ≤ pages * usableBlockSize)
    (limit : offset + buffer.length ≤ pointersPerPage * usableBlockSize) (more : pages ≤ full)
    (stops : full < pagesFor (offset + buffer.length))
    (last : blocksNeeded inode pages full = s.freeCount) :
    ∃ inode' s', writeInode append locals s inode buffer offset =
        some (((full * usableBlockSize - offset : Nat) : Int), s') ∧
      PieceWritten s superblock inode pages offset
        (buffer.take (full * usableBlockSize - offset)) full inode' s' := by
  obtain ⟨fuel, inode1, s1, run, -, written, free, -⟩ :=
    @writeLoop_upTo s superblock inode pages append locals view journal buffer offset full next limit
      more stops (by omega)
  obtain ⟨freeBlocks, journalHead, view1⟩ := written.view
  have here := page_limit limit stops
  have index : full * usableBlockSize / usableBlockSize = full := Nat.mul_div_cancel _ (by decide)
  obtain ⟨mapped, block, get, missing, -⟩ := inodeGetBlock_pointer view1.indirect here
  rw [view1.unmapped full (Nat.le_refl _) here] at missing
  refine ⟨inode1, s1, ?_, written⟩
  rw [writeInode, run, writeLoop_full view1.formatted (by omega) (by rw [index]; exact get) missing
    (drop_nonempty (next.trans (Nat.mul_le_mul_right _ more)) stops), Option.bind_eq_bind, Option.bind_some]
  rfl

/-- A full image whose file has an inode without a single indirect block in its slot. -/
structure Orphaned (s : Store) (superblock : Superblock) (inode : Inode) (pages : Nat)
    (inode' : Inode) (s' : Store) : Prop where
  /-- The rest is left alone. -/
  frame : FileChange superblock inode pages s s'
  /-- The inode is in the slot. -/
  slot : ∃ slots, s'.mem (inodePage superblock inode.inodeNumber) = .inode slots ∧
    slots (inode.inodeNumber % inodesPerPage) = inode'
  /-- It keeps its number. -/
  number : inode'.inodeNumber = inode.inodeNumber
  /-- It has no single indirect block. -/
  unlinked : inode'.indirectBlock = 0
  /-- No block is free. -/
  full : s'.freeCount = 0

/-- Its inode is read. -/
theorem Orphaned.inodeRead (orphaned : Orphaned s superblock inode pages inode' s')
    (view : FileView s superblock inode pages) :
    Nbtrfs.inodeRead s' inode.inodeNumber = some (some inode') := by
  obtain ⟨slots, tag, here⟩ := orphaned.slot
  obtain ⟨freeBlocks, journalHead, read'⟩ := orphaned.frame.superblock superblock view.read
  have inside : inodePage superblock inode.inodeNumber < s'.totalBlocks := by
    rw [orphaned.frame.totalBlocks]
    exact view.table
  rw [inodeRead_slot read' inside tag, here]

/-- Assigning a data block that was free before keeps it. -/
theorem Orphaned.put (orphaned : Orphaned s superblock inode pages inode' s') {pnum : Nat}
    {content : Nat → UInt8} (nonzero : pnum ≠ 0) (free : s.bit pnum = some false)
    (tag : s'.mem pnum = .data content) (bytes : Nat → UInt8) :
    Orphaned s superblock inode pages inode' (s'.put pnum (.data bytes)) := by
  have formatted := orphaned.frame.formatted
  have noPage : ∀ other < s'.totalBlocks, bitmapPage other ≠ pnum :=
    formatted.content_not_page (by rw [tag]; trivial)
  have samePages : SamePages s' (s'.put pnum (.data bytes)) :=
    ⟨rfl, fun other inside => Store.put_other _ _ _ _ (noPage other inside)⟩
  constructor
  · apply orphaned.frame.trans (undisturbed_put formatted nonzero noPage _)
    intro block _ set same
    rw [same, free] at set
    cases set
  · obtain ⟨slots, page, here⟩ := orphaned.slot
    refine ⟨slots, ?_, here⟩
    rw [Store.put_other, page]
    intro same
    rw [same, tag] at page
    cases page
  · exact orphaned.number
  · exact orphaned.unlinked
  · rw [samePages.freeCount]
    exact orphaned.full

/-- Storing another size keeps it. -/
theorem Orphaned.resized (orphaned : Orphaned s superblock inode pages inode' s')
    (view : FileView s superblock inode pages) (size : Nat) :
    ∃ s'', inodeStore s' (inode'.resized size) false = some s'' ∧
      Orphaned s superblock inode pages (inode'.resized size) s'' := by
  have formatted := orphaned.frame.formatted
  obtain ⟨freeBlocks, journalHead, read'⟩ := orphaned.frame.superblock superblock view.read
  have place : inodePage (superblock.withCounters freeBlocks journalHead)
      (inode'.resized size).inodeNumber = inodePage superblock inode.inodeNumber := by
    rw [inodePage_withCounters]
    exact congrArg _ orphaned.number
  obtain ⟨s'', run, written⟩ := inodeStore_spec read' (inode'.resized size)
    (by rw [place, orphaned.frame.totalBlocks]; exact view.table) false
  rw [place] at written
  have change := written.undisturbed formatted
  have number : (inode'.resized size).inodeNumber = inode.inodeNumber := orphaned.number
  rw [number] at change
  refine ⟨s'', run, orphaned.frame.trans change (fun _ _ _ absurd => absurd.elim), ?_, number,
    orphaned.unlinked, ?_⟩
  · obtain ⟨slots, page, -⟩ := orphaned.slot
    refine ⟨_, written.slots slots page, ?_⟩
    rw [number]
    exact if_pos rfl
  · rw [(written.samePages formatted.bitmapped).freeCount]
    exact orphaned.full

/-- The page at index 12 takes the last free block, and the file does not map it. -/
theorem fileBlockAt_orphan (view : FileView s superblock inode directPointers)
    (journal : TouchesJournal append) (unlinked : inode.indirectBlock = 0) (last : s.freeCount = 1)
    (size : Nat) :
    ∃ pnum s', fileBlockAt append locals s inode directPointers size = some (pnum, inode, s') ∧
      pnum ≠ 0 ∧ pnum < s'.totalBlocks ∧ s.bit pnum = some false ∧
      (∃ content, s'.mem pnum = .data content) ∧
      Orphaned s superblock inode directPointers inode s' := by
  have small : directPointers < pointersPerPage := by decide
  obtain ⟨pnum, s1, alloc, allocated⟩ :=
    allocPage_formatted view.formatted (show 0 < s.freeCount by omega)
  obtain ⟨samePages, cleared⟩ := view.filled allocated fun _ => 0
  have ready := view.mapReady allocated fun _ => 0
  let s2 := s1.put pnum (.data fun _ => 0)
  have full : s2.freeCount = 0 := by
    have taken := allocated.freeCount
    rw [samePages.freeCount]
    omega
  have unset : inodeSetBlock s2 inode directPointers pnum = some (false, inode, s2) :=
    inodeSetBlock_full ready.formatted full unlinked (Nat.le_refl _) small.le ready.nonzero
  obtain ⟨s3, stored, written⟩ := inodeStore_spec ready.read inode ready.table false
  rw [inodePage_decrementFree] at written
  have storing := written.undisturbed ready.formatted
  have read3 := written.superblockRead ready.read
  obtain ⟨s4, logged, logging, samePages4⟩ := journal.undisturbed storing.formatted read3
    { blockNumber := 0
      synced := locals.synced s3
      transaction := .write inode.inodeNumber directPointers pnum size }
  have run : fileBlockAt append locals s inode directPointers size = some (pnum, inode, s4) := by
    rw [fileBlockAt, inodeGetBlock_unlinked s (Nat.le_refl _) small unlinked, Option.bind_eq_bind,
      Option.bind_some]
    show (if assigned 0 none ≠ 0 then _ else _) = _
    rw [if_neg (fun wrong => wrong rfl), alloc, Option.bind_eq_bind, Option.bind_some]
    show (if pnum = 0 then _ else _) = _
    rw [if_neg allocated.nonzero]
    show (inodeSetBlock s2 inode directPointers pnum).bind _ = _
    rw [unset, Option.bind_some]
    show (inodeStore s2 inode false).bind _ = _
    rw [stored, Option.bind_some]
    show (append _ s3).bind _ = _
    rw [logged, Option.bind_some]
  have last : Undisturbed (fun _ => False) (inodePage superblock inode.inodeNumber)
      (inode.inodeNumber % inodesPerPage) s2 s4 :=
    storing.trans (logging _ _) (fun _ _ _ absurd => absurd)
  have whole : Undisturbed (fun _ => False) (inodePage superblock inode.inodeNumber)
      (inode.inodeNumber % inodesPerPage) s s4 :=
    (cleared _ _).trans last (fun _ _ _ absurd => absurd)
  have inside : pnum < s4.totalBlocks := by
    rw [whole.totalBlocks]
    exact allocated.inside
  have blank : s4.mem pnum = .data fun _ => 0 := by
    have tag : s2.mem pnum = .data fun _ => 0 := Store.put_same _ _ _
    rw [last.mem pnum ready.inside ready.set (fun absurd => absurd) (by rw [tag]; trivial), tag]
  refine ⟨pnum, s4, run, allocated.nonzero, inside, allocated.free, ⟨_, blank⟩, ?_⟩
  constructor
  · exact whole.mono fun _ _ _ absurd => absurd.elim
  · obtain ⟨slots, tag, -⟩ := view.slot
    obtain ⟨slots2, tag2, -⟩ := (cleared 0 0).table _ view.table view.tableSet
      (fun absurd => absurd) slots tag
    have tag3 := written.slots slots2 tag2
    have set2 := (cleared 0 0).bits _ view.table view.tableSet
    have inside2 : inodePage superblock inode.inodeNumber < s2.totalBlocks := by
      rw [(cleared 0 0).totalBlocks]
      exact view.table
    have inside3 : inodePage superblock inode.inodeNumber < s3.totalBlocks := by
      rw [storing.totalBlocks]
      exact inside2
    obtain ⟨slots4, tag4, same⟩ := (logging 0 0).table _ inside3 (storing.bits _ inside2 set2)
      (fun absurd => absurd) _ tag3
    refine ⟨slots4, tag4, ?_⟩
    rcases same (inode.inodeNumber % inodesPerPage) with ⟨zero, -⟩ | kept
    · exact absurd zero (table_ne_zero view.read tag)
    · rw [kept]
      exact if_pos rfl
  · rfl
  · exact unlinked
  · rw [samePages4.freeCount, (written.samePages ready.formatted.bitmapped).freeCount]
    exact full

/-- It stays so behind a piece that was written before. -/
theorem PieceWritten.orphaned {position freeBlocks journalHead : Nat} {piece : List UInt8}
    {pages' : Nat} {inode1 : Inode} {s1 : Store}
    (written : PieceWritten s superblock inode pages position piece pages' inode1 s1)
    (orphaned : Orphaned s1 (superblock.withCounters freeBlocks journalHead) inode1 pages' inode' s') :
    Orphaned s superblock inode pages inode' s' := by
  have number := written.fields.inodeNumber
  have frame := orphaned.frame
  have slot := orphaned.slot
  unfold FileChange at frame
  rw [inodePage_withCounters, number] at frame slot
  exact ⟨written.frame.trans frame written.own, slot, orphaned.number.trans number,
    orphaned.unlinked, orphaned.full⟩

/-- The loop of `nbtrfs_write` from the page at index 12 on, with one free block left: one page is
written to a block that the file does not map. -/
theorem writeLoop_orphan (view : FileView s superblock inode directPointers)
    (journal : TouchesJournal append) (unlinked : inode.indirectBlock = 0) (last : s.freeCount = 1)
    {size fuel bytesWritten : Nat} {buffer : List UInt8} (more : buffer ≠ [])
    (enough : buffer.length < fuel + 1) :
    ∃ s', writeLoop append locals size (fuel + 1) buffer (directPointers * usableBlockSize)
        bytesWritten inode s = some (decide (buffer.length ≤ usableBlockSize),
          bytesWritten + min usableBlockSize buffer.length, inode, s') ∧
      Orphaned s superblock inode directPointers inode s' := by
  have positive : 0 < buffer.length := List.length_pos_iff.mpr more
  have index : directPointers * usableBlockSize / usableBlockSize = directPointers := by decide
  have start : directPointers * usableBlockSize % usableBlockSize = 0 := by decide
  obtain ⟨pnum, s1, get, nonzero, inside, free, ⟨content, tag⟩, orphaned⟩ :=
    @fileBlockAt_orphan s superblock inode append locals view journal unlinked last size
  have orphaned' := orphaned.put nonzero free tag
    (overlay content 0 (buffer.take (min usableBlockSize buffer.length)))
  have write : writePayload s1 pnum 0 (buffer.take (min usableBlockSize buffer.length)) =
      some (s1.put pnum (.data (overlay content 0
        (buffer.take (min usableBlockSize buffer.length))))) := by
    rw [writePayload, Store.get_of_lt inside, tag]
    rfl
  refine ⟨_, ?_, orphaned'⟩
  rw [writeLoop, if_neg more, index, get, Option.bind_eq_bind, Option.bind_some]
  dsimp only
  rw [if_neg nonzero, start, Nat.sub_zero, write, Option.bind_eq_bind, Option.bind_some]
  obtain ⟨fuel, rfl⟩ : ∃ left, fuel = left + 1 := ⟨fuel - 1, by omega⟩
  by_cases fits : buffer.length ≤ usableBlockSize
  · have nothing : buffer.drop (min usableBlockSize buffer.length) = [] := by
      apply List.drop_eq_nil_of_le
      omega
    rw [nothing, writeLoop, if_pos rfl, decide_eq_true fits]
  · have rest : buffer.drop (min usableBlockSize buffer.length) ≠ [] := by
      apply List.length_pos_iff.mp
      rw [List.length_drop]
      omega
    have whole : min usableBlockSize buffer.length = usableBlockSize := by omega
    have next : inodeGetBlock (s1.put pnum (.data (overlay content 0
        (buffer.take (min usableBlockSize buffer.length))))) inode
          ((directPointers * usableBlockSize + min usableBlockSize buffer.length) / usableBlockSize) =
        some (false, none) := by
      rw [whole]
      exact inodeGetBlock_unlinked _ (by decide) (by decide) unlinked
    rw [writeLoop_full orphaned'.frame.formatted orphaned'.full next rfl rest, decide_eq_false fits]

/-- A buffer that ends behind the direct pages, with a block for the page at index 12 and none for
the single indirect block. -/
theorem writeInode_orphaned (view : FileView s superblock inode pages)
    (journal : TouchesJournal append) {buffer : List UInt8} {offset : Nat}
    (next : offset ≤ pages * usableBlockSize)
    (limit : offset + buffer.length ≤ pointersPerPage * usableBlockSize)
    (unlinked : inode.indirectBlock = 0) (low : pages ≤ directPointers)
    (stops : directPointers < pagesFor (offset + buffer.length))
    (last : blocksNeeded inode pages directPointers + 1 = s.freeCount) :
    ∃ (count : Nat) (inode' : Inode) (s' : Store),
      writeInode append locals s inode buffer offset = some ((count : Int), s') ∧
      directPointers * usableBlockSize < offset + count ∧
      Orphaned s superblock inode pages inode' s' := by
  obtain ⟨fuel, inode1, s1, run, enough, written, free, direct⟩ :=
    @writeLoop_upTo s superblock inode pages append locals view journal buffer offset directPointers
      next limit low stops (by omega)
  obtain ⟨freeBlocks, journalHead, view1⟩ := written.view
  have rest := drop_nonempty (next.trans (Nat.mul_le_mul_right _ low)) stops
  obtain ⟨s2, run', orphaned⟩ := @writeLoop_orphan s1 _ inode1 append locals view1 journal
    ((direct (Nat.le_refl _)).trans unlinked) (by omega) buffer.length fuel
    (directPointers * usableBlockSize - offset) _ rest enough
  rw [run'] at run
  have positive := List.length_pos_iff.mpr rest
  have beyond : directPointers * usableBlockSize < offset + (directPointers * usableBlockSize - offset
      + min usableBlockSize (buffer.drop (directPointers * usableBlockSize - offset)).length) := by
    have page : 0 < usableBlockSize := by decide
    omega
  generalize directPointers * usableBlockSize - offset + min usableBlockSize
    (buffer.drop (directPointers * usableBlockSize - offset)).length = count at run beyond
  unfold writeInode
  rw [run, Option.bind_eq_bind, Option.bind_some]
  dsimp only
  split
  · obtain ⟨s3, stored, orphaned'⟩ := orphaned.resized view1 (offset + count)
    refine ⟨count, inode1.resized (offset + count), s3, ?_, beyond, written.orphaned orphaned'⟩
    show (inodeStore s2 (inode1.resized (offset + count)) false).bind _ = _
    rw [stored, Option.bind_some]
  · exact ⟨count, inode1, s2, rfl, beyond, written.orphaned orphaned⟩

/-- A loop of `nbtrfs_read` that reads all it is asked for went through mapped pages. -/
theorem readLoop_complete {fuel remaining offset : Nat} {buffer bytes : List UInt8} {result : Int}
    (run : readLoop s inode fuel remaining offset buffer = some (result, bytes)) :
    result ≤ ((buffer.length + remaining : Nat) : Int) ∧
      (result = ((buffer.length + remaining : Nat) : Int) → ∀ position, offset ≤ position →
        position < offset + remaining →
          ∃ block, inodeGetBlock s inode (position / usableBlockSize) = some (true, block)) := by
  induction fuel generalizing remaining offset buffer with
  | zero => cases run
  | succ fuel ih =>
    rw [readLoop] at run
    by_cases done : remaining = 0
    · rw [if_pos done] at run
      obtain ⟨rfl, -⟩ := Prod.mk.inj (Option.some.inj run)
      exact ⟨by omega, fun _ position above below => by omega⟩
    · rw [if_neg done] at run
      obtain ⟨⟨mapped, block⟩, get, run⟩ := Option.bind_eq_some_iff.mp run
      dsimp only at run
      split at run
      · obtain ⟨rfl, -⟩ := Prod.mk.inj (Option.some.inj run)
        exact ⟨by omega, fun whole => by omega⟩
      · rename_i found
        split at run
        · obtain ⟨rfl, -⟩ := Prod.mk.inj (Option.some.inj run)
          exact ⟨by omega, fun whole => by omega⟩
        · obtain ⟨page, -, run⟩ := Option.bind_eq_some_iff.mp run
          obtain ⟨most, later⟩ := ih run
          have small := Nat.mod_lt offset (show 0 < usableBlockSize by decide)
          rw [List.length_append, segment_length] at most later
          refine ⟨by omega, fun whole position above below => ?_⟩
          by_cases here : position / usableBlockSize = offset / usableBlockSize
          · rw [here]
            have success : mapped = true := by simpa using found
            rw [success] at get
            exact ⟨block, get⟩
          · apply later (by omega) position _ (by omega)
            have split := position_split position
            have split' := position_split offset
            have order : offset / usableBlockSize ≤ position / usableBlockSize :=
              Nat.div_le_div_right above
            have next : (offset / usableBlockSize + 1) * usableBlockSize ≤
                position / usableBlockSize * usableBlockSize :=
              Nat.mul_le_mul_right _ (by omega)
            rw [Nat.succ_mul] at next
            omega

/-- The page that is not mapped is not read back. -/
theorem Orphaned.unreadable (orphaned : Orphaned s superblock inode pages inode' s')
    (view : FileView s superblock inode pages) {path : CString} {live : Nat → Prop}
    (lookup : Lookup s superblock path live)
    (found : itemSearch s path = some ⟨inode.inodeNumber, 0⟩) (regular : inode.inodeNumber ≠ 0)
    {count offset : Nat} (before : offset ≤ directPointers * usableBlockSize)
    (beyond : directPointers * usableBlockSize < offset + count) (bytes : List UInt8) :
    nbtrfsRead s' path count offset ≠ some ((count : Int), bytes) := by
  intro read
  have search : itemSearch s' path = some ⟨inode'.inodeNumber, 0⟩ := by
    rw [orphaned.number, ← found]
    exact view.itemSearch lookup orphaned.frame
  have stored : Nbtrfs.inodeRead s' inode'.inodeNumber = some (some inode') := by
    rw [orphaned.number]
    exact orphaned.inodeRead view
  rw [nbtrfsRead_found search (by rw [orphaned.number]; exact regular) stored] at read
  split at read
  · have zero := (Prod.mk.inj (Option.some.inj read)).1
    omega
  · dsimp only at read
    have clipped : (if inode'.size < (offset + count) % 2 ^ 64 then inode'.size - offset
        else count) ≤ count := by
      split
      · have wrapped := Nat.mod_le (offset + count) (2 ^ 64)
        omega
      · exact Nat.le_refl _
    have bound := bmod_le (if inode'.size < (offset + count) % 2 ^ 64 then inode'.size - offset
      else count)
    generalize (Int.bmod ((if inode'.size < (offset + count) % 2 ^ 64 then inode'.size - offset
      else count : Nat) : Int) (2 ^ 32)).toNat = remaining at read bound
    obtain ⟨most, mapped⟩ := readLoop_complete read
    rw [List.length_nil, Nat.zero_add] at most mapped
    have whole : remaining = count := by omega
    obtain ⟨block, get⟩ := mapped (by rw [whole]) (directPointers * usableBlockSize) before
      (by omega)
    have index : directPointers * usableBlockSize / usableBlockSize = directPointers := by decide
    rw [index, inodeGetBlock_unlinked s' (Nat.le_refl _) (by decide) orphaned.unlinked] at get
    cases get

/-- A piece of the buffer that lies in the file is kept. -/
theorem FileView.writeKept {superblock' : Superblock} {pages' : Nat}
    (view : FileView s' superblock' inode' pages') {path : CString}
    (search : Nbtrfs.itemSearch s' path = some ⟨inode'.inodeNumber, 0⟩)
    (regular : inode'.inodeNumber ≠ 0) (covered : inode'.size ≤ pages' * usableBlockSize) {array : Nat → UInt8} {buffer : List UInt8}
    {offset count : Nat} (part : count ≤ buffer.length) (reach : offset + count ≤ inode'.size)
    (bytes : ∀ place, offset ≤ place → place < offset + count →
      fileByte s' inode' place = overlay array offset (buffer.take count) place) :
    WriteKept s' path inode'.inodeNumber buffer offset count := by
  intro _
  have most : pages' * usableBlockSize ≤ pointersPerPage * usableBlockSize :=
    Nat.mul_le_mul_right _ view.bound
  have limit : pointersPerPage * usableBlockSize < 2 ^ 64 := by decide
  have length : (buffer.take count).length = count := by
    rw [List.length_take]
    omega
  refine ⟨?_, inode', view.inodeRead, reach⟩
  rw [nbtrfsRead_view view search regular covered (by omega), Nat.min_eq_left (by omega)]
  have piece := segment_overlay array offset (buffer.take count)
  rw [length] at piece
  rw [← piece]
  congr 2
  apply segment_congr
  intro index below
  exact bytes _ (Nat.le_add_right _ _) (by omega)

/-- With a block for every missing page the whole buffer is kept. -/
theorem writeInode_kept (view : FileView s superblock inode pages) (journal : TouchesJournal append)
    (covered : inode.size ≤ pages * usableBlockSize) {path : CString} {live : Nat → Prop}
    (lookup : Lookup s superblock path live)
    (found : itemSearch s path = some ⟨inode.inodeNumber, 0⟩) (regular : inode.inodeNumber ≠ 0)
    {buffer : List UInt8} {offset : Nat} (within : offset ≤ inode.size)
    (limit : offset + buffer.length ≤ pointersPerPage * usableBlockSize)
    (room : blocksNeeded inode pages (pagesFor (offset + buffer.length)) ≤ s.freeCount) :
    ∃ s', writeInode append locals s inode buffer offset = some ((buffer.length : Int), s') ∧
      WriteKept s' path inode.inodeNumber buffer offset buffer.length := by
  obtain ⟨inode1, s1, run, written, -⟩ := @writeLoop_spec s superblock inode pages append locals
    journal buffer.length (buffer.length + 1) buffer offset 0 view (by omega) (by omega) limit room
  obtain ⟨inode', s', run', ⟨freeBlocks, journalHead, view'⟩, number, size, bytes, frame⟩ :=
    writeInode_completed run written
  have search : itemSearch s' path = some ⟨inode'.inodeNumber, 0⟩ := by
    rw [number, ← found]
    exact view.itemSearch lookup frame
  have first : pages * usableBlockSize ≤
      max pages (pagesFor (offset + buffer.length)) * usableBlockSize :=
    Nat.mul_le_mul_right _ (Nat.le_max_left _ _)
  have second : pagesFor (offset + buffer.length) * usableBlockSize ≤
      max pages (pagesFor (offset + buffer.length)) * usableBlockSize :=
    Nat.mul_le_mul_right _ (Nat.le_max_right _ _)
  have end' := pagesFor_spec (offset + buffer.length)
  refine ⟨s', run', ?_⟩
  rw [← number]
  apply view'.writeKept search (by rw [number]; exact regular) (by omega) (Nat.le_refl _) (by omega)
    (fun place above below => ?_)
  · exact fileByte s inode
  · rw [bytes place (by omega), List.take_length]
    exact written.bytes place (Or.inr ⟨above, below⟩)

/-- A write of an inode without holes keeps the bytes it returns the number of if and only if there
is a free block for every block it needs, or none at all and the file fills its pages. -/
theorem writeInode_partial_iff {path : CString} {live : Nat → Prop} {buffer : List UInt8} {offset : Nat}
    (view : FileView s superblock inode pages) (covered : inode.size ≤ pages * usableBlockSize)
    (journal : TouchesJournal append) (lookup : Lookup s superblock path live)
    (found : itemSearch s path = some ⟨inode.inodeNumber, 0⟩) (regular : inode.inodeNumber ≠ 0)
    (within : offset ≤ inode.size)
    (limit : offset + buffer.length ≤ pointersPerPage * usableBlockSize) :
    (∃ (count : Nat) (s' : Store),
      writeInode append locals s inode buffer offset = some ((count : Int), s') ∧
        WriteKept s' path inode.inodeNumber buffer offset count) ↔
    blocksNeeded inode pages (pagesFor (offset + buffer.length)) ≤ s.freeCount ∨
      s.freeCount = 0 ∧ pages * usableBlockSize = inode.size := by
  have next := within.trans covered
  constructor
  · rintro ⟨count, s', run, kept⟩
    by_contra condition
    obtain ⟨exceeds, some_free⟩ := not_or.mp condition
    rcases blocksNeeded_exceeded view.linked (Nat.not_le.mp exceeds) with
      ⟨full, more, stops, last⟩ | ⟨unlinked, low, stops, last⟩
    · -- the loop stopped at a page, and the size is the one before
      obtain ⟨inode', s1, run', written⟩ := @writeInode_stopped s superblock inode pages append
        locals view journal buffer offset full next limit more stops last
      obtain ⟨same, rfl⟩ := Prod.mk.inj (Option.some.inj (run.symm.trans run'))
      obtain ⟨freeBlocks, journalHead, view'⟩ := written.view
      have grows : pages * usableBlockSize ≤ full * usableBlockSize := Nat.mul_le_mul_right _ more
      have reach : full * usableBlockSize ≤ inode.size := by
        by_cases nothing : count = 0
        · omega
        · obtain ⟨-, stored, read, size⟩ := kept (by omega)
          rw [← written.fields.inodeNumber, view'.inodeRead] at read
          obtain rfl := Option.some.inj (Option.some.inj read)
          rw [written.fields.size] at size
          omega
      have aligned : full * usableBlockSize = pages * usableBlockSize := by omega
      have same : full = pages := Nat.eq_of_mul_eq_mul_right (by decide) aligned
      rw [same, blocksNeeded_covered inode (Nat.le_refl _)] at last
      exact some_free ⟨last.symm, by omega⟩
    · obtain ⟨count', inode', s1, run', beyond, orphaned⟩ := @writeInode_orphaned s superblock inode
        pages append locals view journal buffer offset next limit unlinked low stops last
      obtain ⟨same, rfl⟩ := Prod.mk.inj (Option.some.inj (run.symm.trans run'))
      have before : offset ≤ directPointers * usableBlockSize :=
        next.trans (Nat.mul_le_mul_right _ low)
      obtain rfl : count = count' := by omega
      exact orphaned.unreadable view lookup found regular before beyond _ (kept (by omega)).1
  · intro condition
    by_cases room : blocksNeeded inode pages (pagesFor (offset + buffer.length)) ≤ s.freeCount
    · obtain ⟨s', run, kept⟩ := @writeInode_kept s superblock inode pages append locals view journal
        covered path live lookup found regular buffer offset within limit room
      exact ⟨buffer.length, s', run, kept⟩
    · obtain ⟨full, aligned⟩ := condition.resolve_left room
      have stops : pages < pagesFor (offset + buffer.length) := by
        by_contra reached
        exact room ((blocksNeeded_covered inode (Nat.not_lt.mp reached)).le.trans (Nat.zero_le _))
      obtain ⟨inode', s', run, written⟩ := @writeInode_stopped s superblock inode pages append
        locals view journal buffer offset pages next limit (Nat.le_refl _) stops
        (by rw [full]; exact blocksNeeded_covered inode (Nat.le_refl _))
      obtain ⟨freeBlocks, journalHead, view'⟩ := written.view
      have number := written.fields.inodeNumber
      have size := written.fields.size
      have behind : pages * usableBlockSize < offset + buffer.length := by
        unfold pagesFor usableBlockSize at stops
        unfold usableBlockSize
        omega
      have search : itemSearch s' path = some ⟨inode'.inodeNumber, 0⟩ := by
        rw [number, ← found]
        exact view.itemSearch lookup written.frame
      refine ⟨_, s', run, ?_⟩
      rw [← number]
      apply view'.writeKept search (by rw [number]; exact regular) (by omega) (by omega) (by omega)
        (fun place above below => ?_)
      · exact fileByte s inode
      · exact written.bytes place (Or.inl (by omega))

/-- With the entries that a write appends, the append that replays nothing is below one that touches
the journal only. -/
theorem quietAppend_belowSettled : quietAppend.BelowPlain settledAppend := by
  intro entry s plain s' run
  rw [settledAppend, plain, if_neg Bool.false_ne_true, run]
  rfl

/-- `nbtrfs_write` on a file without holes, whose appends replay nothing, keeps the bytes it returns
the number of if and only if there is a free block for every block it needs, or none at all and the
file fills its pages. -/
theorem nbtrfsWrite_partial_iff {host : Host} {path : CString} {live : Nat → Prop}
    {buffer : List UInt8} {offset : Nat} (view : FileView s superblock inode pages)
    (covered : inode.size ≤ pages * usableBlockSize) (lookup : Lookup s superblock path live)
    (found : itemSearch s path = some ⟨inode.inodeNumber, 0⟩) (regular : inode.inodeNumber ≠ 0)
    (within : offset ≤ inode.size)
    (limit : offset + buffer.length ≤ pointersPerPage * usableBlockSize)
    (quiet : (nbtrfsWrite quietAppend locals host s path buffer offset).isSome = true) :
    (∃ (count : Nat) (s' : Store),
      nbtrfsWrite (appendEntry locals host) locals host s path buffer offset =
          some ((count : Int), s') ∧
        WriteKept s' path inode.inodeNumber buffer offset count) ↔
    blocksNeeded inode pages (pagesFor (offset + buffer.length)) ≤ s.freeCount ∨
      s.freeCount = 0 ∧ pages * usableBlockSize = inode.size := by
  rw [nbtrfsWrite_found found regular view.inodeRead] at quiet
  have source := writeInode_below (quietAppend_below locals host).plain locals s inode buffer offset
  have settled := writeInode_below quietAppend_belowSettled locals s inode buffer offset
  rw [nbtrfsWrite_found found regular view.inodeRead, ← source.eq_of_isSome quiet,
    settled.eq_of_isSome quiet]
  exact writeInode_partial_iff view covered settledAppend_touches lookup found regular within limit

end

/-- The file with two bytes less. -/
def shortFile : Inode := { pageFile with size := usableBlockSize - 2 }

/-- Its image, with every block in use. -/
def fullImage : Store :=
  (pageFileImage.put 1 (.bitmap fun _ => BitVec.allOnes 64)).put 3 (.inode fun _ => shortFile)

/-- The bitmap is in place. -/
theorem fullImage_formatted : fullImage.Formatted := by
  have page : ∀ pnum < 16, bitmapPage pnum = 1 := by decide
  refine ⟨?_, show 0 < 16 by decide, by decide +kernel, ?_⟩
  · intro pnum small
    rw [page pnum small]
    exact ⟨show 1 < 16 by decide, _, rfl⟩
  · intro pnum small
    rw [page pnum small]
    decide +kernel

/-- The file has one page. -/
theorem fullImage_view : FileView fullImage journalSuperblock shortFile 1 :=
  onePage_view fullImage_formatted (by decide) rfl (by decide) (by decide +kernel)
    ⟨fun _ => shortFile, rfl, rfl⟩ rfl (fun _ => rfl) (by decide) (show 5 < 16 by decide)
    (by decide +kernel) ⟨_, rfl⟩

/-- The nodes that lead to it. -/
theorem fullImage_lookup :
    Lookup fullImage journalSuperblock [47, 97] fun block => block = 7 ∨ block = 6 := by
  have kept : ∀ block, block = 7 ∨ block = 6 → fullImage.mem block = pageFileImage.mem block := by
    rintro block (rfl | rfl)
    · rfl
    · rfl
  have set : ∀ block, block = 7 ∨ block = 6 → fullImage.bit block = some true := by
    rintro block (rfl | rfl)
    · decide +kernel
    · decide +kernel
  have total : fullImage.totalBlocks = pageFileImage.totalBlocks := rfl
  exact pageFileImage_lookup.same total kept set rfl rfl

/-- Two bytes that fit into the page are kept. -/
theorem nbtrfsWrite_partial_iff_fits :
    ∃ (count : Nat) (s' : Store), nbtrfsWrite (appendEntry zeroLocals zeroHost) zeroLocals zeroHost
        fullImage [47, 97] [1, 2] (usableBlockSize - 2) = some ((count : Int), s') ∧
      WriteKept s' [47, 97] 1 [1, 2] (usableBlockSize - 2) count :=
  (@nbtrfsWrite_partial_iff fullImage journalSuperblock shortFile 1 zeroLocals zeroHost [47, 97] _
    [1, 2] (usableBlockSize - 2) fullImage_view (by decide) fullImage_lookup (by decide +kernel)
    (by decide) (by decide) (by decide) (by decide +kernel)).mpr (Or.inl (by decide +kernel))

/-- Of three bytes two are written, and the file does not grow. -/
theorem nbtrfsWrite_partial_false :
    ¬ ∀ (s : Store) (superblock : Superblock) (inode : Inode) (pages : Nat) (locals : Locals)
        (host : Host) (path : CString) (live : Nat → Prop) (buffer : List UInt8) (offset : Nat),
      FileView s superblock inode pages → inode.size ≤ pages * usableBlockSize →
      Lookup s superblock path live →
      itemSearch s path = some ⟨inode.inodeNumber, 0⟩ → inode.inodeNumber ≠ 0 →
      offset ≤ inode.size → offset + buffer.length ≤ pointersPerPage * usableBlockSize →
      ∃ (count : Nat) (s' : Store),
        nbtrfsWrite (appendEntry locals host) locals host s path buffer offset =
            some ((count : Int), s') ∧
          WriteKept s' path inode.inodeNumber buffer offset count := by
  intro all
  obtain ⟨count, s', run, kept⟩ := all fullImage journalSuperblock shortFile 1 zeroLocals zeroHost
    [47, 97] _ [1, 2, 3] (usableBlockSize - 2) fullImage_view (by decide) fullImage_lookup
    (by decide +kernel) (by decide) (by decide) (by decide)
  have stopped : (nbtrfsWrite (appendEntry zeroLocals zeroHost) zeroLocals zeroHost
      fullImage [47, 97] [1, 2, 3] (usableBlockSize - 2)).map (fun result =>
        (result.1, (inodeRead result.2 1).map fun read => read.map Inode.size)) =
      some (2, some (some (usableBlockSize - 2))) := by
    decide +kernel
  rw [run, Option.map_some] at stopped
  obtain ⟨two, size⟩ := Prod.mk.inj (Option.some.inj stopped)
  obtain ⟨-, inode, read, reach⟩ := kept (by omega)
  rw [show shortFile.inodeNumber = 1 from rfl] at read
  rw [read] at size
  have same : inode.size = usableBlockSize - 2 := Option.some.inj (Option.some.inj size)
  omega

end Nbtrfs
