import Nbtrfs.Fuse.Write
import Nbtrfs.Namespace.Lookup

/-!
# Reading back what was written

`nbtrfs_write` followed by `nbtrfs_read`: on the file itself the buffer is found at its place and the
rest of the content is kept, and every other file reads as before.
-/

namespace Nbtrfs

/-- An allocated data block that is none of a file's own. -/
structure Foreign (s : Store) (ours : Nat → Prop) (block : Nat) : Prop where
  /-- It is a block of the image. -/
  inside : block < s.totalBlocks
  /-- It is allocated. -/
  set : s.bit block = some true
  /-- It holds data. -/
  data : ∃ bytes, s.mem block = .data bytes
  /-- It is none of them. -/
  notOurs : ¬ ours block

/-- Another file: it is found, its inode is in an allocated table block, and the blocks that reading
it goes through are foreign. -/
structure ForeignFile (s : Store) (superblock : Superblock) (ours : Nat → Prop) (inode : Inode) :
    Prop where
  /-- The table block is in the image. -/
  table : inodePage superblock inode.inodeNumber < s.totalBlocks
  /-- The table block is allocated. -/
  tableSet : s.bit (inodePage superblock inode.inodeNumber) = some true
  /-- The inode is in its slot. -/
  slot : ∃ slots, s.mem (inodePage superblock inode.inodeNumber) = .inode slots ∧
    slots (inode.inodeNumber % inodesPerPage) = inode
  /-- The single indirect block is foreign. -/
  indirect : inode.indirectBlock ≠ 0 → Foreign s ours inode.indirectBlock
  /-- So are the double indirect block and the blocks behind its entries. -/
  double : ∀ index, index * usableBlockSize < inode.size → pointersPerPage ≤ index →
    inode.doubleIndirectBlock ≠ 0 → Foreign s ours inode.doubleIndirectBlock ∧
      ∀ page lower, doublePage index = some page →
        readPointer s inode.doubleIndirectBlock page = some lower → Foreign s ours lower
  /-- So are the blocks of its content. -/
  content : ∀ index, index * usableBlockSize < inode.size → ∀ flag block,
    inodeGetBlock s inode index = some (flag, some block) → block ≠ 0 → Foreign s ours block

section

variable {s s' : Store} {superblock : Superblock} {inode : Inode} {pages page slot : Nat}
  {ours : Nat → Prop}

/-- A foreign block is kept. -/
theorem Foreign.get {block : Nat} (foreign : Foreign s ours block)
    (change : Undisturbed ours page slot s s') : s'.get block = s.get block := by
  obtain ⟨bytes, tag⟩ := foreign.data
  have kept := change.mem block foreign.inside foreign.set foreign.notOurs (by rw [tag]; trivial)
  rw [Store.get_of_lt foreign.inside, Store.get_of_lt (by rw [change.totalBlocks]; exact foreign.inside),
    kept]

/-- A pointer in a foreign block is read as before. -/
theorem Foreign.readPointer {block : Nat} (foreign : Foreign s ours block)
    (change : Undisturbed ours page slot s s') (index : Nat) :
    Nbtrfs.readPointer s' block index = Nbtrfs.readPointer s block index := by
  rw [Nbtrfs.readPointer, Nbtrfs.readPointer, foreign.get change, change.residue]

/-- The blocks of another file are found as before. -/
theorem ForeignFile.inodeGetBlock (file : ForeignFile s superblock ours inode)
    (change : Undisturbed ours page slot s s') {index : Nat}
    (below : index * usableBlockSize < inode.size) :
    Nbtrfs.inodeGetBlock s' inode index = Nbtrfs.inodeGetBlock s inode index := by
  unfold Nbtrfs.inodeGetBlock
  by_cases direct : index < directPointers
  · rw [if_pos direct, if_pos direct]
  · rw [if_neg direct, if_neg direct]
    by_cases single : index < pointersPerPage
    · rw [if_pos single, if_pos single]
      by_cases unlinked : inode.indirectBlock = 0
      · rw [if_pos unlinked, if_pos unlinked]
      · rw [if_neg unlinked, if_neg unlinked, (file.indirect unlinked).get change]
    · rw [if_neg single, if_neg single]
      by_cases unlinked : inode.doubleIndirectBlock = 0
      · rw [if_pos unlinked, if_pos unlinked]
      · rw [if_neg unlinked, if_neg unlinked]
        obtain ⟨foreign, lowers⟩ := file.double index below (Nat.not_lt.mp single) unlinked
        cases entry : doublePage index with
        | none => rfl
        | some page =>
          rw [Option.bind_eq_bind, Option.bind_some, Option.bind_some, foreign.readPointer change]
          cases found : Nbtrfs.readPointer s inode.doubleIndirectBlock page with
          | none => rfl
          | some lower =>
            rw [Option.bind_some, Option.bind_some]
            have last := (lowers page lower entry found).readPointer change (doublePosition index).2
            rw [last]

/-- The loop of `nbtrfs_read` reads another file as before. -/
theorem ForeignFile.readLoop (file : ForeignFile s superblock ours inode)
    (change : Undisturbed ours page slot s s') (fuel remaining offset : Nat) (buffer : List UInt8)
    (within : offset + remaining ≤ inode.size) :
    Nbtrfs.readLoop s' inode fuel remaining offset buffer =
      Nbtrfs.readLoop s inode fuel remaining offset buffer := by
  induction fuel generalizing remaining offset buffer with
  | zero => rfl
  | succ fuel ih =>
    rw [Nbtrfs.readLoop, Nbtrfs.readLoop]
    by_cases done : remaining = 0
    · rw [if_pos done, if_pos done]
    · have below : offset / usableBlockSize * usableBlockSize < inode.size := by
        have split := position_split offset
        omega
      rw [if_neg done, if_neg done, file.inodeGetBlock change below]
      cases found : Nbtrfs.inodeGetBlock s inode (offset / usableBlockSize) with
      | none => rfl
      | some result =>
        obtain ⟨flag, block⟩ := result
        rw [Option.bind_eq_bind, Option.bind_some, Option.bind_eq_bind, Option.bind_some]
        cases block with
        | none => rfl
        | some pnum =>
          show (if !flag then _ else if pnum = 0 then _ else _) =
            (if !flag then _ else if pnum = 0 then _ else _)
          by_cases zero : pnum = 0
          · rw [if_pos zero, if_pos zero]
          · have foreign := file.content _ below flag pnum found zero
            rw [if_neg zero, if_neg zero]
            show (if !flag then _ else (s'.get pnum).bind _) = (if !flag then _ else (s.get pnum).bind _)
            rw [foreign.get change]
            cases page : s.get pnum with
            | none => rfl
            | some content =>
              rw [Option.bind_some, Option.bind_some, change.residue, ih]
              omega

/-- The inode of another file is read as before. -/
theorem ForeignFile.inodeRead {own : Inode} (file : ForeignFile s superblock ours inode)
    (read : superblockRead s = some superblock)
    (change : Undisturbed ours (inodePage superblock own.inodeNumber)
      (own.inodeNumber % inodesPerPage) s s')
    (notOurs : ∀ block, ours block → (s.mem block).isContent)
    (other : inode.inodeNumber ≠ own.inodeNumber) :
    Nbtrfs.inodeRead s' inode.inodeNumber = some (some inode) := by
  obtain ⟨slots, tag, here⟩ := file.slot
  have foreign : ¬ ours (inodePage superblock inode.inodeNumber) := by
    intro own
    have content := notOurs _ own
    rw [tag] at content
    exact content
  obtain ⟨slots', tag', same⟩ := change.table _ file.table file.tableSet foreign slots tag
  obtain ⟨freeBlocks, journalHead, read'⟩ := change.superblock superblock read
  have inside : inodePage superblock inode.inodeNumber < s'.totalBlocks := by
    rw [change.totalBlocks]
    exact file.table
  rw [inodeRead_slot read' inside tag']
  rcases same (inode.inodeNumber % inodesPerPage) with ⟨samePage, sameSlot⟩ | kept
  · apply absurd _ other
    have split := Nat.div_add_mod inode.inodeNumber inodesPerPage
    have split' := Nat.div_add_mod own.inodeNumber inodesPerPage
    have quotient : inode.inodeNumber / inodesPerPage = own.inodeNumber / inodesPerPage := by
      unfold inodePage at samePage
      omega
    rw [← split, ← split', quotient, sameSlot]
  · rw [kept, here]

/-- The inode of another file. -/
theorem ForeignFile.inodeRead_before (file : ForeignFile s superblock ours inode)
    (read : superblockRead s = some superblock) :
    Nbtrfs.inodeRead s inode.inodeNumber = some (some inode) := by
  obtain ⟨slots, tag, here⟩ := file.slot
  rw [inodeRead_slot read file.table tag, here]

/-- A non-negative number is at least its residue around 0. -/
theorem bmod_le (size : Nat) : (Int.bmod size (2 ^ 32)).toNat ≤ size := by
  have upper := @Int.bmod_lt size (2 ^ 32) (by decide)
  have lower := @Int.le_bmod size (2 ^ 32) (by decide)
  have same := Int.bmod_emod (x := (size : Int)) (m := 2 ^ 32)
  omega

/-- `nbtrfs_read` of another file after a change of a file. -/
theorem ForeignFile.nbtrfsRead {own : Inode} (file : ForeignFile s superblock ours inode)
    (change : Undisturbed ours (inodePage superblock own.inodeNumber)
      (own.inodeNumber % inodesPerPage) s s')
    (notOurs : ∀ block, ours block → ∃ bytes, s.mem block = .data bytes)
    (other : inode.inodeNumber ≠ own.inodeNumber) {path : CString} {live : Nat → Prop}
    (lookup : Lookup s superblock path live)
    (found : itemSearch s path = some ⟨inode.inodeNumber, 0⟩) (regular : inode.inodeNumber ≠ 0)
    {requested offset : Nat} (range : offset + requested < 2 ^ 64) :
    Nbtrfs.nbtrfsRead s' path requested offset = Nbtrfs.nbtrfsRead s path requested offset := by
  obtain ⟨freeBlocks, journalHead, read'⟩ := change.superblock superblock lookup.read
  have kept : ∀ block, live block → s'.mem block = s.mem block := by
    intro block alive
    obtain ⟨node, tag, -⟩ := lookup.node block alive
    apply change.mem block (lookup.inside block alive) (lookup.set block alive)
    · intro own
      obtain ⟨bytes, data⟩ := notOurs block own
      rw [tag] at data
      cases data
    · rw [tag]
      trivial
  have search := lookup.itemSearch_same change.totalBlocks kept read' rfl
  have inodeAfter : Nbtrfs.inodeRead s' inode.inodeNumber = some (some inode) := by
    apply file.inodeRead lookup.read change _ other
    intro block own
    obtain ⟨bytes, data⟩ := notOurs block own
    rw [data]
    trivial
  rw [nbtrfsRead_found (search.trans found) regular inodeAfter,
    nbtrfsRead_found found regular (file.inodeRead_before lookup.read)]
  by_cases past : inode.size ≤ offset
  · rw [if_pos past, if_pos past]
  · rw [if_neg past, if_neg past]
    apply file.readLoop change
    have clipped : (if inode.size < (offset + requested) % 2 ^ 64 then inode.size - offset
        else requested) ≤ inode.size - offset := by
      rw [Nat.mod_eq_of_lt range]
      split
      · exact Nat.le_refl _
      · omega
    generalize (if inode.size < (offset + requested) % 2 ^ 64 then inode.size - offset
      else requested) = count at clipped ⊢
    have bound := bmod_le count
    omega

/-- An inode with another size. -/
def Inode.resized (inode : Inode) (size : Nat) : Inode := { inode with size }

/-- Writing the inode of a file with another size. -/
theorem FileView.resized (view : FileView s superblock inode pages) {size : Nat}
    (written : SlotWritten s (inodePage superblock inode.inodeNumber) (inode.resized size) s') :
    FileView s' superblock (inode.resized size) pages ∧
      (∀ index, blockPointer s' (inode.resized size) index = blockPointer s inode index) ∧
      (∀ index < pages, s'.mem (blockPointer s inode index) = s.mem (blockPointer s inode index)) ∧
      FileChange superblock inode pages s s' := by
  have change := written.undisturbed view.formatted
  have pointer : ∀ index, blockPointer s' (inode.resized size) index = blockPointer s inode index :=
    fun index => change.blockPointer view.indirect (fun _ absurd => absurd) index
  have kept : ∀ index < pages,
      s'.mem (blockPointer s inode index) = s.mem (blockPointer s inode index) := fun index below =>
    change.mem _ (view.inside index below) (view.set index below) (fun absurd => absurd)
      (view.content below)
  refine ⟨?_, pointer, kept, change.mono fun _ _ _ absurd => absurd.elim⟩
  constructor
  · exact change.formatted
  · rw [change.totalBlocks]
    exact view.width
  · exact written.superblockRead view.read
  · rw [change.totalBlocks]
    exact view.table
  · exact change.bits _ view.table view.tableSet
  · obtain ⟨slots, tag, -⟩ := view.slot
    exact ⟨_, written.slots slots tag, if_pos rfl⟩
  · exact change.indirectReady view.indirect (fun _ absurd => absurd)
  · intro index above below
    rw [pointer]
    exact view.unmapped index above below
  · intro index below
    rw [pointer]
    exact view.nonzero index below
  · intro index below
    rw [pointer, change.totalBlocks]
    exact view.inside index below
  · intro index below
    rw [pointer]
    exact change.bits _ (view.inside index below) (view.set index below)
  · intro index below
    rw [pointer, kept index below]
    exact view.data index below
  · intro index below other otherBelow
    rw [pointer, pointer]
    exact view.distinct index below other otherBelow
  · intro index below
    rw [pointer]
    exact view.apart index below
  · exact view.bound

/-- A file after `nbtrfs_write` of a buffer at an offset. -/
structure FileWritten (s : Store) (superblock : Superblock) (inode : Inode) (offset : Nat)
    (buffer : List UInt8) (inode' : Inode) (s' : Store) : Prop where
  /-- The pages are mapped. -/
  view : ∃ freeBlocks journalHead,
    FileView s' (superblock.withCounters freeBlocks journalHead) inode' (pagesFor inode'.size)
  /-- The inode keeps its number. -/
  number : inode'.inodeNumber = inode.inodeNumber
  /-- The file reaches at least to the end of the buffer. -/
  size : inode'.size = max inode.size (offset + buffer.length)
  /-- The buffer is laid over the bytes. -/
  bytes : ∀ place < inode'.size,
    fileByte s' inode' place = overlay (fileByte s inode) offset buffer place
  /-- The rest is left alone. -/
  frame : FileChange superblock inode (pagesFor inode.size) s s'

/-- The blocks for the larger of two sizes. -/
theorem pagesFor_max (first second : Nat) :
    pagesFor (max first second) = max (pagesFor first) (pagesFor second) := by
  unfold pagesFor usableBlockSize
  omega

/-- `nbtrfs_write` of an inode that was read, behind a loop that found every block. -/
theorem writeInode_completed {append : Append} {locals : Locals} {buffer : List UInt8} {offset : Nat}
    {pages' : Nat} {inode1 : Inode} {s1 : Store}
    (run : writeLoop append locals buffer.length (buffer.length + 1) buffer offset 0 inode s =
      some (true, 0 + buffer.length, inode1, s1))
    (written : PieceWritten s superblock inode pages offset buffer pages' inode1 s1) :
    ∃ inode' s', writeInode append locals s inode buffer offset = some ((buffer.length : Int), s') ∧
      (∃ freeBlocks journalHead,
        FileView s' (superblock.withCounters freeBlocks journalHead) inode' pages') ∧
      inode'.inodeNumber = inode.inodeNumber ∧
      inode'.size = max inode.size (offset + buffer.length) ∧
      (∀ place < pages' * usableBlockSize, fileByte s' inode' place = fileByte s1 inode1 place) ∧
      FileChange superblock inode pages s s' := by
  rw [Nat.zero_add] at run
  obtain ⟨freeBlocks, journalHead, view1⟩ := written.view
  have number := written.fields.inodeNumber
  have size := written.fields.size
  by_cases grows : inode.size < offset + buffer.length
  · obtain ⟨s2, stored, slot⟩ := inodeStore_spec view1.read
      (inode1.resized (offset + buffer.length)) view1.table false
    obtain ⟨view2, pointer, kept, frame⟩ := view1.resized slot
    refine ⟨inode1.resized (offset + buffer.length), s2, ?_, ⟨freeBlocks, journalHead, view2⟩,
      number, ?_, ?_, ?_⟩
    · rw [writeInode, run, Option.bind_eq_bind, Option.bind_some]
      show (if true = true ∧ inode1.size < offset + buffer.length then
        (inodeStore s1 (inode1.resized (offset + buffer.length)) false).bind _ else _) = _
      rw [size, if_pos ⟨rfl, grows⟩, stored, Option.bind_some]
    · show offset + buffer.length = _
      omega
    · intro place below
      rw [fileByte, fileByte, pointer, kept _ (page_lt below), frame.residue]
    · unfold FileChange at frame
      rw [inodePage_withCounters, number] at frame
      exact written.frame.trans frame written.own
  · refine ⟨inode1, s1, ?_, ⟨freeBlocks, journalHead, view1⟩, number, ?_, fun _ _ => rfl,
      written.frame⟩
    · rw [writeInode, run, Option.bind_eq_bind, Option.bind_some]
      show (if true = true ∧ inode1.size < offset + buffer.length then _ else _) = _
      rw [size, if_neg (fun both => grows both.2)]
    · omega

/-- `nbtrfs_write` of an inode that was read. -/
theorem writeInode_spec {append : Append} {locals : Locals} {buffer : List UInt8} {offset : Nat}
    (view : FileView s superblock inode (pagesFor inode.size)) (journal : TouchesJournal append)
    (within : offset ≤ inode.size)
    (limit : offset + buffer.length ≤ pointersPerPage * usableBlockSize)
    (room : blocksNeeded inode (pagesFor inode.size) (pagesFor (offset + buffer.length)) ≤
      s.freeCount) :
    ∃ inode' s', writeInode append locals s inode buffer offset =
        some ((buffer.length : Int), s') ∧
      FileWritten s superblock inode offset buffer inode' s' := by
  have covered := pagesFor_spec inode.size
  obtain ⟨inode1, s1, run, written, -⟩ := @writeLoop_spec s superblock inode (pagesFor inode.size)
    append locals journal buffer.length (buffer.length + 1) buffer offset 0 view (by omega)
    (by omega) limit room
  obtain ⟨inode', s', run', view', number, size, bytes, frame⟩ := writeInode_completed run written
  rw [← pagesFor_max, ← size] at view' bytes
  refine ⟨inode', s', run', view', number, size, fun place below => ?_, frame⟩
  rw [bytes place (Nat.lt_of_lt_of_le below (pagesFor_spec inode'.size))]
  apply written.bytes
  rw [size] at below
  omega

/-- The rest of `nbtrfs_write` behind the reading of the inode. -/
theorem nbtrfsWrite_found {append : Append} {locals : Locals} {host : Host} {path : CString}
    (found : itemSearch s path = some ⟨inode.inodeNumber, 0⟩) (regular : inode.inodeNumber ≠ 0)
    (read : Nbtrfs.inodeRead s inode.inodeNumber = some (some inode)) (buffer : List UInt8)
    (offset : Nat) :
    nbtrfsWrite append locals host s path buffer offset =
      writeInode append locals s inode buffer offset := by
  unfold nbtrfsWrite
  rw [found, Option.bind_eq_bind, Option.bind_some]
  show (if inode.inodeNumber ≠ 0 ∨ (0 : Nat) ≠ 0 then
    if (0 : Nat) ≠ 0 then _ else (Nbtrfs.inodeRead s inode.inodeNumber).bind _ else _) = _
  rw [if_pos (Or.inl regular), if_neg (fun wrong => wrong rfl), read, Option.bind_some]

/-- The blocks of a file are data blocks. -/
theorem FileView.ownData (view : FileView s superblock inode pages) {block : Nat}
    (own : OwnBlock s inode pages block) : ∃ bytes, s.mem block = .data bytes := by
  rcases own with ⟨index, below, same⟩ | ⟨same, linked⟩
  · rw [← same]
    exact view.data index below
  · rw [← same]
    exact (view.indirect linked).2.2

/-- A path leads where it led after a change of a file. -/
theorem FileView.itemSearch (view : FileView s superblock inode pages) {path : CString}
    {live : Nat → Prop} (lookup : Lookup s superblock path live)
    (change : FileChange superblock inode pages s s') :
    Nbtrfs.itemSearch s' path = Nbtrfs.itemSearch s path := by
  obtain ⟨_, _, read'⟩ := change.superblock superblock view.read
  apply lookup.itemSearch_same change.totalBlocks _ read' rfl
  intro block alive
  obtain ⟨node, tag, -⟩ := lookup.node block alive
  apply change.mem block (lookup.inside block alive) (lookup.set block alive)
  · intro own
    obtain ⟨bytes, data⟩ := view.ownData own
    rw [tag] at data
    cases data
  · rw [tag]
    trivial

/-- On a file without holes whose blocks are its own `nbtrfs_write` writes the whole buffer, the size
grows to its end, every range reads as the former content with the buffer laid over it, and every
other file reads as before. -/
theorem nbtrfsWrite_content {append : Append} {locals : Locals} {host : Host} {path : CString}
    {live : Nat → Prop} {buffer : List UInt8} {offset : Nat}
    (view : FileView s superblock inode (pagesFor inode.size)) (journal : TouchesJournal append)
    (lookup : Lookup s superblock path live)
    (found : itemSearch s path = some ⟨inode.inodeNumber, 0⟩) (regular : inode.inodeNumber ≠ 0)
    (within : offset ≤ inode.size)
    (limit : offset + buffer.length ≤ pointersPerPage * usableBlockSize)
    (room : blocksNeeded inode (pagesFor inode.size) (pagesFor (offset + buffer.length)) ≤
      s.freeCount) :
    ∃ s', nbtrfsWrite append locals host s path buffer offset = some ((buffer.length : Int), s') ∧
      (∃ inode', Nbtrfs.inodeRead s' inode.inodeNumber = some (some inode') ∧
        inode'.size = max inode.size (offset + buffer.length)) ∧
      (∀ requested start, start + requested < 2 ^ 64 →
        nbtrfsRead s' path requested start =
          some (((min requested (max inode.size (offset + buffer.length) - start) : Nat) : Int),
            segment (overlay (fileByte s inode) offset buffer) start
              (min requested (max inode.size (offset + buffer.length) - start)))) ∧
      ∀ other otherInode otherLive, Lookup s superblock other otherLive →
        itemSearch s other = some ⟨otherInode.inodeNumber, 0⟩ → otherInode.inodeNumber ≠ 0 →
        otherInode.inodeNumber ≠ inode.inodeNumber →
        ForeignFile s superblock (OwnBlock s inode (pagesFor inode.size)) otherInode →
        ∀ requested start, start + requested < 2 ^ 64 →
          nbtrfsRead s' other requested start = nbtrfsRead s other requested start := by
  obtain ⟨inode', s', run, written⟩ := @writeInode_spec s superblock inode append locals buffer
    offset view journal within limit room
  obtain ⟨freeBlocks, journalHead, view'⟩ := written.view
  have search : itemSearch s' path = some ⟨inode'.inodeNumber, 0⟩ := by
    rw [written.number, ← found]
    exact view.itemSearch lookup written.frame
  refine ⟨s', ?_, ⟨inode', ?_, written.size⟩, ?_, ?_⟩
  · rw [nbtrfsWrite_found found regular view.inodeRead]
    exact run
  · rw [← written.number]
    exact view'.inodeRead
  · intro requested start range
    rw [nbtrfsRead_view view' search (by rw [written.number]; exact regular)
      (pagesFor_spec inode'.size) range, written.size]
    congr 2
    apply segment_congr
    intro index below
    apply written.bytes
    rw [written.size]
    omega
  · intro other otherInode otherLive otherLookup otherFound otherRegular distinct file requested
      start range
    exact file.nbtrfsRead written.frame (fun _ => view.ownData) distinct otherLookup otherFound otherRegular range

end

/-- An append over an entry that was applied, which replays nothing. -/
def recordEntry : Append := fun entry s =>
  match superblockRead s with
  | none => none
  | some superblock =>
    match s.mem superblock.journalBlock with
    | .journal _ => some (((superblockWrite s superblock.advanceHead true).put
        superblock.journalBlock (.journal { entry with blockNumber := superblock.journalBlock })).flush
          superblock.journalBlock)
    | _ => some s

/-- It touches its journal block and the superblock only. -/
theorem recordEntry_touches : TouchesJournal recordEntry := by
  constructor
  intro entry s superblock read
  have page := superblockRead_page read
  by_cases journal : ∃ old, s.mem superblock.journalBlock = .journal old
  · obtain ⟨old, tag⟩ := journal
    have run : recordEntry entry s = some (((superblockWrite s superblock.advanceHead true).put
        superblock.journalBlock (.journal { entry with blockNumber := superblock.journalBlock })).flush
          superblock.journalBlock) := by
      unfold recordEntry
      simp only [read, tag]
    have apart : superblock.journalBlock ≠ 0 := by
      intro zero
      rw [zero, page] at tag
      cases tag
    have mem := superblockWrite_mem page superblock.advanceHead true
    refine ⟨_, superblock.freeBlocks, superblock.advanceHead.journalHead, run, ?_, ?_, ?_, ?_⟩
    · apply superblockRead_of_page
      show ((superblockWrite s superblock.advanceHead true).put _ _).mem 0 = _
      rw [Store.put_other _ _ _ _ (Ne.symm apart), mem, Store.put_same]
      rfl
    · intro block nonzero noJournal
      show ((superblockWrite s superblock.advanceHead true).put _ _).mem block = _
      have distinct : block ≠ superblock.journalBlock := by
        rintro rfl
        exact noJournal old tag
      rw [Store.put_other _ _ _ _ distinct, mem, Store.put_other _ _ _ _ nonzero]
    · exact superblockWrite_totalBlocks s superblock.advanceHead true
    · show (superblockWrite s superblock.advanceHead true).residue = _
      unfold superblockWrite
      rw [page]
      rfl
  · have run : recordEntry entry s = some s := by
      unfold recordEntry
      simp only [read]
      cases tag : s.mem superblock.journalBlock with
      | journal old => exact absurd ⟨old, tag⟩ journal
      | super | bitmap | inode | btreeNode | data | untagged => rfl
    exact ⟨s, superblock.freeBlocks, superblock.journalHead, run, read, fun _ _ _ => rfl, rfl, rfl⟩

/-- A regular file of one full block. -/
def pageFile : Inode :=
  { zeroInode with
    inodeNumber := 1, mode := fileTypeRegular, size := usableBlockSize, referenceCount := 1
    directBlocks := fun index => if index = 0 then 5 else 0 }

/-- The superblock of the small image with a journal. -/
def journalSuperblock : Superblock := { smallSuperblock with journalStart := 4 }

/-- The small image with the file as `/a` and a journal block. -/
def pageFileImage : Store :=
  ((((smallImage pageFile).put 0 (.super journalSuperblock)).put 4
    (.journal ⟨4, true, .uninitialized⟩)).put 6
      (.btreeNode { freshNode 6 true fileTypeRegular with key := pathHash [97], value := 1 })).put 7
        (.btreeNode { freshNode 7 false fileTypeDirectory with
          numKeys := 1, keys := fun _ => pathHash [97], children := fun i => if i = 0 then 6 else 0 })

/-- An inode with one mapped block is a view of one page. -/
theorem onePage_view {s : Store} {superblock : Superblock} {inode : Inode} {block : Nat}
    (formatted : s.Formatted) (width : s.totalBlocks ≤ pointerBound)
    (read : superblockRead s = some superblock)
    (table : inodePage superblock inode.inodeNumber < s.totalBlocks)
    (tableSet : s.bit (inodePage superblock inode.inodeNumber) = some true)
    (slot : ∃ slots, s.mem (inodePage superblock inode.inodeNumber) = .inode slots ∧
      slots (inode.inodeNumber % inodesPerPage) = inode)
    (unlinked : inode.indirectBlock = 0)
    (only : ∀ index, inode.directBlocks index = if index = 0 then block else 0)
    (nonzero : block ≠ 0) (inside : block < s.totalBlocks) (set : s.bit block = some true)
    (data : ∃ bytes, s.mem block = .data bytes) : FileView s superblock inode 1 := by
  have pointer : ∀ index, blockPointer s inode index = if index = 0 then block else 0 := by
    intro index
    rw [blockPointer, only]
    by_cases first : index = 0
    · rw [first]
      rfl
    · rw [if_neg first, if_pos unlinked, ite_self]
  have first : ∀ index < 1, blockPointer s inode index = block := by
    intro index below
    rw [pointer, if_pos (by omega)]
  constructor
  · exact formatted
  · exact width
  · exact read
  · exact table
  · exact tableSet
  · exact slot
  · exact fun linked => absurd unlinked linked
  · intro index above _
    rw [pointer, if_neg (by omega)]
  · intro index below
    rw [first index below]
    exact nonzero
  · intro index below
    rw [first index below]
    exact inside
  · intro index below
    rw [first index below]
    exact set
  · intro index below
    rw [first index below]
    exact data
  · intro index below other otherBelow _
    omega
  · intro index below
    rw [first index below, unlinked]
    exact nonzero
  · decide

/-- The bitmap of the image is in place. -/
theorem pageFileImage_formatted : pageFileImage.Formatted := by
  have page : ∀ pnum < 16, bitmapPage pnum = 1 := by decide
  refine ⟨?_, show 0 < 16 by decide, by decide +kernel, ?_⟩
  · intro pnum small
    rw [page pnum small]
    exact ⟨show 1 < 16 by decide, _, rfl⟩
  · intro pnum small
    rw [page pnum small]
    decide +kernel

/-- The nodes that lead to the file. -/
theorem pageFileImage_lookup :
    Lookup pageFileImage journalSuperblock [47, 97] fun block => block = 7 ∨ block = 6 := by
  constructor
  · rfl
  · exact Or.inl rfl
  · rintro block (rfl | rfl)
    · decide
    · decide
  · rintro block (rfl | rfl)
    · decide +kernel
    · decide +kernel
  · rintro block (rfl | rfl)
    · exact ⟨_, rfl, rfl⟩
    · exact ⟨_, rfl, rfl⟩
  · rintro block node (rfl | rfl) tag inner i token _ nonzero
    · obtain rfl := Block.btreeNode.inj tag
      exact Or.inr (if_pos (ite_ne_right_iff.mp nonzero).1)
    · obtain rfl := Block.btreeNode.inj tag
      cases inner
  · rintro block node (rfl | rfl) tag leaf directory
    · obtain rfl := Block.btreeNode.inj tag
      cases leaf
    · obtain rfl := Block.btreeNode.inj tag
      exact absurd directory (by decide)

/-- Two bytes behind the full block are written to a new block and read back. -/
theorem nbtrfsWrite_content_page :
    ∃ s', nbtrfsWrite recordEntry ⟨fun _ => false, fun _ => 0, fun _ _ => 0⟩ ⟨0, 0, 0⟩ pageFileImage
        [47, 97] [1, 2] usableBlockSize = some (2, s') ∧
      ∀ requested start, start + requested < 2 ^ 64 →
        nbtrfsRead s' [47, 97] requested start =
          some (((min requested (usableBlockSize + 2 - start) : Nat) : Int),
            segment (overlay (fileByte pageFileImage pageFile) usableBlockSize [1, 2]) start
              (min requested (usableBlockSize + 2 - start))) := by
  have view : FileView pageFileImage journalSuperblock pageFile 1 :=
    onePage_view pageFileImage_formatted (by decide) rfl (by decide) (by decide +kernel)
      ⟨fun _ => pageFile, rfl, rfl⟩ rfl (fun _ => rfl) (by decide) (show 5 < 16 by decide)
      (by decide +kernel) ⟨_, rfl⟩
  have room : 0 < pageFileImage.freeCount :=
    Finset.card_pos.mpr ⟨8, mem_freeSet.mpr ⟨show 8 < 16 by decide, by decide +kernel⟩⟩
  obtain ⟨s', run, -, reads, -⟩ := @nbtrfsWrite_content pageFileImage journalSuperblock pageFile
    recordEntry ⟨fun _ => false, fun _ => 0, fun _ _ => 0⟩ ⟨0, 0, 0⟩ [47, 97] _ [1, 2]
    usableBlockSize view recordEntry_touches pageFileImage_lookup (by decide +kernel) (by decide) (by decide)
    (by decide) room
  exact ⟨s', run, reads⟩

end Nbtrfs
