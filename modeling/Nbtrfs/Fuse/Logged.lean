import Nbtrfs.Fuse.Files
import Nbtrfs.Journal.Room

/-!
# Writes with room in the journal

A write appends one entry for each page that it maps. With room for these entries the append of the
source touches the journal only, so reads and writes of many files do what their contents do.
-/

namespace Nbtrfs

section

variable {s s' : Store} {superblock : Superblock} {inode : Inode} {pages start slots count : Nat}
  {locals : Locals}

/-- Allocating a block and clearing it. -/
theorem Allocated.filled_leavesJournal {pnum : Nat} {s1 : Store} (allocated : Allocated s pnum s1)
    (read : superblockRead s = some superblock) (formatted : s.Formatted) (content : Nat → UInt8) :
    LeavesJournal s (s1.put pnum (.data content)) := by
  have alloc := allocated.leavesJournal read formatted
  have samePages := allocated.samePages formatted (.data content)
  constructor
  · exact alloc.total
  · intro other read'
    obtain ⟨other', read1, same⟩ := alloc.superblock other read'
    refine ⟨other', superblockRead_of_page ?_, same⟩
    rw [Store.put_other _ _ _ _ (Ne.symm allocated.nonzero)]
    exact superblockRead_page read1
  · intro block entry inside set tag
    rw [Store.put_other _ _ _ _ (allocated.notTaken set)]
    exact alloc.pages block entry inside set tag
  · intro block inside set
    rw [samePages.bit (by rw [alloc.total]; exact inside)]
    exact alloc.bits block inside set

/-- A page that is mapped is logged by the append of the source. -/
theorem fileBlockAt_logged (view : FileView s superblock inode pages)
    (small : pages < pointersPerPage) (free : 1 + pointerBlocks inode pages ≤ s.freeCount)
    (room : JournalRoom start slots (count + 1) s) (host : Host) (size : Nat) :
    ∃ pnum inode' s', fileBlockAt settledAppend locals s inode pages size = some (pnum, inode', s') ∧
      fileBlockAt (appendEntry locals host) locals s inode pages size = some (pnum, inode', s') ∧
      s'.Formatted ∧ (∃ superblock', superblockRead s' = some superblock') ∧
      JournalRoom start slots count s' := by
  obtain ⟨pnum, s1, alloc, allocated⟩ :=
    allocPage_formatted view.formatted (show 0 < s.freeCount by omega)
  let s2 := s1.put pnum (.data fun _ => 0)
  have ready : MapReady s2 superblock.decrementFree inode pnum := view.mapReady allocated _
  have samePages2 : SamePages s1 s2 := (view.filled allocated _).1
  have room2 : pointerBlocks inode pages ≤ s2.freeCount := by
    have taken := allocated.freeCount
    rw [samePages2.freeCount]
    omega
  obtain ⟨inode', s3, mapRun, mapped⟩ := inodeSetBlock_mapped ready small.le room2
  have entering := mapped.frame
  obtain ⟨freeBlocks, journalHead, read3⟩ := entering.superblock _ ready.read
  have number : inode'.inodeNumber = inode.inodeNumber := by
    obtain ⟨_, _, same⟩ := mapped.fields
    rw [same]
  have place : inodePage (superblock.decrementFree.withCounters freeBlocks journalHead)
      inode'.inodeNumber = inodePage superblock.decrementFree inode.inodeNumber := by
    rw [inodePage_withCounters, number]
  obtain ⟨s4, stored, written⟩ := inodeStore_spec read3 inode'
    (by rw [place, entering.totalBlocks]; exact ready.table) false
  have storing := written.undisturbed entering.formatted
  have room4 : JournalRoom start slots (count + 1) s4 :=
    ((room.leaves (allocated.filled_leavesJournal view.read view.formatted _)).leaves
      (ready.leavesJournal small.le room2 mapRun)).leaves (written.leavesJournal entering.formatted)
  obtain ⟨s5, settled, logged, room5⟩ := @JournalRoom.settled s4 start slots count room4
    storing.formatted
    { blockNumber := 0
      synced := locals.synced s4
      transaction := .write inode'.inodeNumber pages pnum size } rfl locals host
  obtain ⟨last, same, logging, -⟩ := settledAppend_touches.undisturbed storing.formatted
    (written.superblockRead read3)
    { blockNumber := 0
      synced := locals.synced s4
      transaction := .write inode'.inodeNumber pages pnum size }
  obtain rfl : s5 = last := Option.some.inj (settled.symm.trans same)
  have run : ∀ append : Append, append
        { blockNumber := 0
          synced := locals.synced s4
          transaction := .write inode'.inodeNumber pages pnum size } s4 = some s5 →
      fileBlockAt append locals s inode pages size = some (pnum, inode', s5) := by
    intro append appended
    obtain ⟨flag, block, get, same, -⟩ := @inodeGetBlock_pointer s inode view.indirect pages small
    rw [view.unmapped pages (Nat.le_refl _) small] at same
    rw [fileBlockAt, get, Option.bind_eq_bind, Option.bind_some]
    show (if assigned 0 block ≠ 0 then _ else _) = _
    rw [if_neg (fun wrong => wrong same), alloc, Option.bind_eq_bind, Option.bind_some]
    show (if pnum = 0 then _ else _) = _
    rw [if_neg allocated.nonzero]
    show (inodeSetBlock s2 inode pages pnum).bind _ = _
    rw [mapRun, Option.bind_some]
    show (inodeStore s3 inode' false).bind _ = _
    rw [stored, Option.bind_some]
    show (append _ s4).bind _ = _
    rw [appended, Option.bind_some]
  obtain ⟨freeBlocks', journalHead', read5⟩ :=
    (logging 0 0).superblock _ (written.superblockRead read3)
  exact ⟨pnum, inode', s5, run _ settled, run _ logged, (logging 0 0).formatted, ⟨_, read5⟩, room5⟩

/-- What a write behind the mapped pages needs is enough for the next page. -/
theorem blocksNeeded_page (inode : Inode) {target : Nat} (more : pages < target) :
    1 + pointerBlocks inode pages ≤ blocksNeeded inode pages target := by
  unfold blocksNeeded pointerBlocks
  by_cases links : directPointers ≤ pages ∧ inode.indirectBlock = 0
  · rw [if_pos links, if_pos ⟨more, links.2, by omega⟩]
    omega
  · rw [if_neg links]
    omega

/-- A round of the loop of `nbtrfs_write` with the append of the source. -/
theorem writeRound_logged (view : FileView s superblock inode pages) {position size : Nat}
    (next : position ≤ pages * usableBlockSize) (small : position / usableBlockSize < pointersPerPage)
    (free : position / usableBlockSize < pages ∨ 1 + pointerBlocks inode pages ≤ s.freeCount)
    (room : JournalRoom start slots
      (count + (max pages (position / usableBlockSize + 1) - pages)) s) (host : Host)
    {pnum pageOffset : Nat} {inode' : Inode} {taken : Store} {piece : List UInt8}
    (get : fileBlockAt settledAppend locals s inode (position / usableBlockSize) size =
      some (pnum, inode', taken))
    (write : writePayload taken pnum pageOffset piece = some s') :
    fileBlockAt (appendEntry locals host) locals s inode (position / usableBlockSize) size =
        some (pnum, inode', taken) ∧ JournalRoom start slots count s' := by
  by_cases mapped : position / usableBlockSize < pages
  · rw [fileBlockAt_mapped view mapped size] at get
    rw [fileBlockAt_mapped view mapped size, get]
    obtain ⟨-, same⟩ := Prod.mk.inj (Option.some.inj get)
    obtain ⟨-, rfl⟩ := Prod.mk.inj same
    rw [Nat.max_eq_left (by omega), Nat.sub_self, Nat.add_zero] at room
    exact ⟨rfl, room.leaves (writePayload_leavesJournal view.formatted view.read write)⟩
  · have here : position / usableBlockSize = pages := by
      have split := position_split position
      have below : position / usableBlockSize ≤ pages := by
        apply Nat.div_le_of_le_mul
        rw [Nat.mul_comm]
        exact next
      omega
    rw [here] at get small ⊢
    rw [here, Nat.max_eq_right (by omega), Nat.add_sub_cancel_left] at room
    obtain ⟨page, inode1, s1, settled, logged, formatted, ⟨superblock', read⟩, room1⟩ :=
      @fileBlockAt_logged s superblock inode pages start slots count locals view small
        (free.resolve_left mapped) room host size
    obtain ⟨rfl, same⟩ := Prod.mk.inj (Option.some.inj (settled.symm.trans get))
    obtain ⟨rfl, rfl⟩ := Prod.mk.inj same
    exact ⟨logged, room1.leaves (writePayload_leavesJournal formatted read write)⟩

/-- The loop of `nbtrfs_write` with the append of the source. -/
theorem writeLoop_logged (host : Host) (size fuel : Nat) {buffer : List UInt8} {offset : Nat}
    (bytesWritten : Nat) (view : FileView s superblock inode pages)
    (next : offset ≤ pages * usableBlockSize)
    (limit : offset + buffer.length ≤ pointersPerPage * usableBlockSize)
    (free : blocksNeeded inode pages (pagesFor (offset + buffer.length)) ≤ s.freeCount)
    (room : JournalRoom start slots
      (count + (max pages (pagesFor (offset + buffer.length)) - pages)) s)
    {result : Bool × Nat × Inode × Store}
    (run : writeLoop settledAppend locals size fuel buffer offset bytesWritten inode s = some result) :
    writeLoop (appendEntry locals host) locals size fuel buffer offset bytesWritten inode s =
        some result ∧ JournalRoom start slots count result.2.2.2 := by
  induction fuel generalizing buffer offset bytesWritten s superblock inode pages with
  | zero => cases run
  | succ fuel ih =>
    rw [writeLoop] at run ⊢
    by_cases done : buffer = []
    · rw [if_pos done] at run ⊢
      obtain rfl := Option.some.inj run
      subst done
      have covered : pagesFor (offset + ([] : List UInt8).length) ≤ pages := by
        rw [List.length_nil, Nat.add_zero]
        unfold pagesFor
        unfold usableBlockSize at next ⊢
        omega
      rw [Nat.max_eq_left covered, Nat.sub_self, Nat.add_zero] at room
      exact ⟨rfl, room⟩
    · rw [if_neg done] at run ⊢
      have positive : 0 < buffer.length := List.length_pos_iff.mpr done
      have within := Nat.mod_lt offset (show 0 < usableBlockSize by decide)
      have split := position_split offset
      generalize piece : min (usableBlockSize - offset % usableBlockSize) buffer.length = bytes
      have length : (buffer.take bytes).length = bytes := by
        rw [List.length_take]
        omega
      have rest : (buffer.drop bytes).length = buffer.length - bytes := List.length_drop
      have page : offset / usableBlockSize < pointersPerPage := page_lt (by omega)
      have needed : offset / usableBlockSize < pagesFor (offset + buffer.length) := by
        unfold pagesFor
        unfold usableBlockSize
        omega
      obtain ⟨pnum, inode', taken, s', get, nonzero, write, round, count''⟩ :=
        @writeRound s superblock inode pages settledAppend locals view settledAppend_touches offset _
          (buffer.take bytes) next page (by omega) needed free size
      obtain ⟨freeBlocks, journalHead, view'⟩ := round.view
      have reach : offset + bytes ≤ max pages (offset / usableBlockSize + 1) * usableBlockSize := by
        have more : (offset / usableBlockSize + 1) * usableBlockSize ≤
            max pages (offset / usableBlockSize + 1) * usableBlockSize :=
          Nat.mul_le_mul_right _ (Nat.le_max_right _ _)
        rw [Nat.succ_mul] at more
        omega
      have whole : offset + bytes + (buffer.drop bytes).length = offset + buffer.length := by omega
      have enough : offset / usableBlockSize < pages ∨ 1 + pointerBlocks inode pages ≤ s.freeCount := by
        by_cases mapped : offset / usableBlockSize < pages
        · exact Or.inl mapped
        · exact Or.inr (Nat.le_trans (blocksNeeded_page inode (by omega)) free)
      obtain ⟨logged, room'⟩ := @writeRound_logged s s' superblock inode pages start slots
        (count + (max (max pages (offset / usableBlockSize + 1)) (pagesFor (offset + buffer.length)) -
          max pages (offset / usableBlockSize + 1))) locals view offset size next page enough
        (by
          refine cast (congrArg (fun number => JournalRoom start slots number s) ?_) room
          omega) host pnum _ inode' taken _ get write
      rw [get, Option.bind_eq_bind, Option.bind_some] at run
      rw [logged, Option.bind_eq_bind, Option.bind_some]
      dsimp only at run ⊢
      rw [if_neg nonzero, piece] at run ⊢
      rw [write, Option.bind_eq_bind, Option.bind_some] at run
      rw [write, Option.bind_eq_bind, Option.bind_some]
      exact ih _ view' reach (by omega) (by rw [whole]; omega) (by rw [whole]; exact room') run

/-- `nbtrfs_write` of an inode that was read, with the append of the source. -/
theorem writeInode_logged (host : Host) {buffer : List UInt8} {offset : Nat}
    (view : FileView s superblock inode (pagesFor inode.size)) (within : offset ≤ inode.size)
    (limit : offset + buffer.length ≤ pointersPerPage * usableBlockSize)
    (free : blocksNeeded inode (pagesFor inode.size) (pagesFor (offset + buffer.length)) ≤
      s.freeCount)
    (room : JournalRoom start slots (count + (max (pagesFor inode.size)
      (pagesFor (offset + buffer.length)) - pagesFor inode.size)) s) {result : Int × Store}
    (run : writeInode settledAppend locals s inode buffer offset = some result) :
    writeInode (appendEntry locals host) locals s inode buffer offset = some result ∧
      JournalRoom start slots count result.2 := by
  have covered := pagesFor_spec inode.size
  obtain ⟨inode1, s1, loop, piece, -⟩ := @writeLoop_spec s superblock inode (pagesFor inode.size)
    settledAppend locals settledAppend_touches buffer.length (buffer.length + 1) buffer offset 0 view
    (by omega) (by omega) limit free
  obtain ⟨logged, room1⟩ := writeLoop_logged host buffer.length (buffer.length + 1) 0 view
    (by omega) limit free room loop
  obtain ⟨freeBlocks, journalHead, view1⟩ := piece.view
  rw [writeInode, loop, Option.bind_eq_bind, Option.bind_some] at run
  rw [writeInode, logged, Option.bind_eq_bind, Option.bind_some]
  dsimp only at run ⊢
  split at run
  case isTrue grows =>
    rw [if_pos grows]
    obtain ⟨s2, stored, slot⟩ := inodeStore_spec view1.read
      (inode1.resized (offset + (0 + buffer.length))) view1.table false
    change (inodeStore s1 (inode1.resized (offset + (0 + buffer.length))) false).bind _ = _ at run
    rw [stored, Option.bind_some] at run
    obtain rfl := Option.some.inj run
    refine ⟨?_, room1.leaves (slot.leavesJournal view1.formatted)⟩
    show (inodeStore s1 (inode1.resized (offset + (0 + buffer.length))) false).bind _ = _
    rw [stored, Option.bind_some]
  case isFalse grows =>
    rw [if_neg grows]
    obtain rfl := Option.some.inj run
    exact ⟨rfl, room1⟩

end

section

variable {File : Type} [DecidableEq File] {path : File → CString} {s : Store} {superblock : Superblock}
  {inode : File → Inode} {content : File → Content} {start slots count : Nat}

/-- The entries that a call appends. -/
def ContentCall.logged (content : File → Content) : ContentCall File → Nat
  | .read _ _ _ => 0
  | .write file buffer offset =>
    pagesFor ((content file).write offset buffer).size - pagesFor (content file).size

/-- The entries that calls append. -/
def allLogged : (File → Content) → List (ContentCall File) → Nat
  | _, [] => 0
  | content, call :: calls => call.logged content + allLogged (call.after content) calls

/-- `nbtrfs_write` with the append of the source lays the buffer over the content. -/
theorem HoldsFiles.write_logged (files : HoldsFiles s superblock path inode content) (file : File)
    {buffer : List UInt8} {offset : Nat}
    (legal : (ContentCall.write file buffer offset).Legal content)
    (free : (ContentCall.write file buffer offset).taken content ≤ s.freeCount)
    (room : JournalRoom start slots
      (count + (ContentCall.write file buffer offset).logged content) s)
    (locals : Locals) (host : Host) :
    ∃ s' freeBlocks journalHead inode',
      nbtrfsWrite (appendEntry locals host) locals host s (path file) buffer offset =
        some ((buffer.length : Int), s') ∧
      HoldsFiles s' (superblock.withCounters freeBlocks journalHead) path inode'
        ((ContentCall.write file buffer offset).after content) ∧
      s.freeCount ≤ s'.freeCount + (ContentCall.write file buffer offset).taken content ∧
      JournalRoom start slots count s' := by
  obtain ⟨s', freeBlocks, journalHead, inode', run, files', taken⟩ :=
    @HoldsFiles.write File path s superblock inode content settledAppend locals host _ files
      settledAppend_touches file buffer offset legal free
  obtain ⟨within, limit⟩ := legal
  have view := files.view file
  have size := files.size file
  have needed := view.needed (pagesFor (offset + buffer.length))
  have enough : blocksNeeded (inode file) (pagesFor (inode file).size)
      (pagesFor (offset + buffer.length)) ≤ s.freeCount := by
    apply Nat.le_trans needed
    rw [size, ← pagesFor_max]
    exact free
  rw [nbtrfsWrite_found (files.found file) (files.regular file) view.inodeRead] at run
  obtain ⟨logged, room'⟩ := @writeInode_logged s superblock (inode file) start slots count locals host
    buffer offset view (by rw [size]; exact within) limit enough
    (by
      rw [size, ← pagesFor_max]
      exact room) _ run
  refine ⟨s', freeBlocks, journalHead, inode', ?_, files', taken, room'⟩
  rw [nbtrfsWrite_found (files.found file) (files.regular file) view.inodeRead]
  exact logged

/-- Reads and writes of many files in any order return what their contents return, and the store holds
the contents behind them. -/
theorem files_served (calls : List (ContentCall File))
    (files : HoldsFiles s superblock path inode content)
    (room : JournalRoom start slots (allLogged content calls) s) (legal : AllLegal content calls)
    (free : allTaken content calls ≤ s.freeCount) (locals : Locals) (host : Host) :
    ∃ s' freeBlocks journalHead inode',
      performAll (appendEntry locals host) locals host s (calls.map (ContentCall.request path)) =
        some (answers content calls, s') ∧
      HoldsFiles s' (superblock.withCounters freeBlocks journalHead) path inode'
        (contentsAfter content calls) := by
  induction calls generalizing s superblock inode content with
  | nil => exact ⟨s, superblock.freeBlocks, superblock.journalHead, inode, rfl, files⟩
  | cons call calls ih =>
    obtain ⟨here, later⟩ := legal
    rw [allTaken] at free
    rw [allLogged, Nat.add_comm] at room
    cases call with
    | read file requested start =>
      obtain ⟨s', freeBlocks, journalHead, inode', run, files'⟩ :=
        ih files (room.mono (Nat.le_add_right _ _)) later (Nat.le_trans (Nat.le_add_left _ _) free)
      refine ⟨s', freeBlocks, journalHead, inode', ?_, files'⟩
      rw [List.map_cons, performAll, ContentCall.request, Request.perform, files.read file here]
      show (performAll _ locals host s _).bind _ = _
      rw [run]
      rfl
    | write file buffer offset =>
      obtain ⟨s1, freeBlocks, journalHead, inode1, write, files1, taken, room1⟩ :=
        files.write_logged file here (by omega) room locals host
      obtain ⟨s', freeBlocks', journalHead', inode', run, files'⟩ :=
        ih files1 room1 later (by omega)
      refine ⟨s', freeBlocks', journalHead', inode', ?_, files'⟩
      rw [List.map_cons, performAll, ContentCall.request, Request.perform, write]
      show (performAll _ locals host s1 _).bind _ = _
      rw [run]
      rfl

end

/-- The inodes of two files of one full block each. -/
def pairInode (file : Bool) : Inode :=
  { zeroInode with
    inodeNumber := if file then 2 else 1, mode := fileTypeRegular, size := usableBlockSize
    referenceCount := 1
    directBlocks := fun index => if index = 0 then (if file then 9 else 8) else 0 }

/-- Their paths `/a` and `/b`. -/
def pairPath (file : Bool) : CString := if file then [slash, 98] else [slash, 97]

/-- The image of 400 blocks with the two files and a journal of four blocks. -/
def pairImage : Store where
  totalBlocks := 400
  mem block :=
    if block = 3 then .inode fun slot => pairInode (slot = 2)
    else if block = 7 then
      .btreeNode { freshNode 7 false fileTypeDirectory with
        numKeys := 2, keys := fun i => if i = 0 then pathHash [97] else pathHash [98]
        children := fun i => if i = 0 then 14 else if i = 1 then 15 else 0 }
    else if block = 8 then .data fun _ => 97
    else if block = 9 then .data fun _ => 98
    else if block = 14 then
      .btreeNode { freshNode 14 true fileTypeRegular with key := pathHash [97], value := 1 }
    else if block = 15 then
      .btreeNode { freshNode 15 true fileTypeRegular with key := pathHash [98], value := 2 }
    else emptyImage.mem block
  disk _ := .untagged fun _ => 0
  residue := ⟨fun _ => 0, fun _ _ => 0⟩

/-- Their contents. -/
def pairContent (file : Bool) : Content := ⟨usableBlockSize, fun _ => if file then 98 else 97⟩

/-- The bitmap of the image is in place. -/
theorem pairImage_formatted : pairImage.Formatted := by
  have page : ∀ pnum < 400, bitmapPage pnum = 1 := by
    intro pnum small
    unfold bitmapPage usableBlockSize
    omega
  refine ⟨?_, show 0 < 400 by decide, by decide +kernel, ?_⟩
  · intro pnum small
    rw [page pnum small]
    exact ⟨show 1 < 400 by decide, _, rfl⟩
  · intro pnum small
    rw [page pnum small]
    decide +kernel

/-- One page is all of a file. -/
theorem pairInode_pages (file : Bool) : pagesFor (pairInode file).size = 1 := by
  revert file
  decide

/-- The files are views of one page. -/
theorem pairImage_view (file : Bool) : FileView pairImage emptyLayout (pairInode file) 1 := by
  cases file with
  | false =>
    exact @onePage_view pairImage emptyLayout (pairInode false) 8 pairImage_formatted (by decide) rfl
      (by decide) (by decide +kernel) ⟨_, rfl, rfl⟩ rfl (fun _ => rfl) (by decide)
      (show 8 < 400 by decide) (by decide +kernel) ⟨_, rfl⟩
  | true =>
    exact @onePage_view pairImage emptyLayout (pairInode true) 9 pairImage_formatted (by decide) rfl
      (by decide) (by decide +kernel) ⟨_, rfl, rfl⟩ rfl (fun _ => rfl) (by decide)
      (show 9 < 400 by decide) (by decide +kernel) ⟨_, rfl⟩

/-- The nodes that lead to them. -/
theorem pairImage_lookup (path : CString) :
    Lookup pairImage emptyLayout path fun block => block = 7 ∨ block = 14 ∨ block = 15 := by
  constructor
  · rfl
  · exact Or.inl rfl
  · rintro block (rfl | rfl | rfl)
    · decide
    · decide
    · decide
  · rintro block (rfl | rfl | rfl)
    · decide +kernel
    · decide +kernel
    · decide +kernel
  · rintro block (rfl | rfl | rfl)
    · exact ⟨_, rfl, rfl⟩
    · exact ⟨_, rfl, rfl⟩
    · exact ⟨_, rfl, rfl⟩
  · rintro block node (rfl | rfl | rfl) tag inner i token _ nonzero
    · obtain rfl := Block.btreeNode.inj tag
      dsimp only at nonzero ⊢
      split at nonzero
      case isTrue first => exact Or.inr (Or.inl (if_pos first))
      case isFalse first =>
        rw [if_neg first]
        split at nonzero
        case isTrue second => exact Or.inr (Or.inr (if_pos second))
        case isFalse => exact absurd rfl nonzero
    · obtain rfl := Block.btreeNode.inj tag
      cases inner
    · obtain rfl := Block.btreeNode.inj tag
      cases inner
  · rintro block node (rfl | rfl | rfl) tag leaf directory
    · obtain rfl := Block.btreeNode.inj tag
      cases leaf
    · obtain rfl := Block.btreeNode.inj tag
      exact absurd directory (by decide)
    · obtain rfl := Block.btreeNode.inj tag
      exact absurd directory (by decide)

/-- Its blocks are found. -/
theorem pairImage_own {file : Bool} {block : Nat}
    (own : OwnBlock pairImage (pairInode file) 1 block) : block = if file then 9 else 8 := by
  rcases own with ⟨index, below, rfl⟩ | ⟨-, linked⟩
  · obtain rfl : index = 0 := by omega
    rfl
  · exact absurd rfl linked

/-- The image holds the files. -/
theorem pairImage_holds : HoldsFiles pairImage emptyLayout pairPath pairInode pairContent where
  view file := by
    rw [pairInode_pages]
    exact pairImage_view file
  lookup file := ⟨_, pairImage_lookup _⟩
  found := by decide +kernel
  regular := by decide
  numbers := by decide
  apart file other distinct block own own' := by
    rw [pairInode_pages] at own own'
    have here := (pairImage_own own).symm.trans (pairImage_own own')
    cases file with
    | false =>
      cases other with
      | false => exact distinct rfl
      | true => exact absurd here (by decide)
    | true =>
      cases other with
      | false => exact absurd here (by decide)
      | true => exact distinct rfl
  size _ := rfl
  bytes file place below := by
    have first : place / usableBlockSize = 0 := Nat.div_eq_of_lt below
    rw [fileByte, first]
    cases file with
    | false => rfl
    | true => rfl

/-- The journal has room for three entries. -/
theorem pairImage_room : JournalRoom 10 3 3 pairImage := by
  have ring : ∀ slot < 3, pairImage.mem (10 + slot) = .journal ⟨10 + slot, true, .uninitialized⟩ := by
    intro slot small
    match slot, small with
    | 0, _ => rfl
    | 1, _ => rfl
    | 2, _ => rfl
  refine ⟨⟨0, [⟨10, true, .uninitialized⟩, ⟨11, true, .uninitialized⟩, ⟨12, true, .uninitialized⟩],
    ⟨⟨emptyLayout, rfl, rfl, rfl, rfl⟩, by decide, by decide,
      ⟨fun slot => ⟨10 + slot, true, .uninitialized⟩, ⟨by decide, rfl, ?_⟩, ring⟩, ?_⟩, by decide,
      ?_⟩, ?_⟩
  · intro i small
    match i, small with
    | 0, _ => rfl
    | 1, _ => rfl
    | 2, _ => rfl
  · intro slot small entry page
    rw [ring slot small] at page
    obtain rfl := Block.journal.inj page
    exact Or.inr rfl
  · decide
  · decide +kernel

/-- Two bytes appended to one file and three laid over the other, with reads between them. -/
def pairCalls : List (ContentCall Bool) :=
  [.write false [1, 2] usableBlockSize, .read true 2 0, .write true [3, 4, 5] 1,
    .read false 4 (usableBlockSize - 2), .read true 4 0]

/-- Two files are written in turn, one of them over the end of its first page, and read back. -/
theorem files_served_pair :
    ∃ s', (performAll (appendEntry ⟨fun _ => false, fun _ => 0, fun _ _ => 0⟩ ⟨0, 0, 0⟩)
        ⟨fun _ => false, fun _ => 0, fun _ _ => 0⟩ ⟨0, 0, 0⟩ pairImage
        (pairCalls.map (ContentCall.request pairPath))) =
      some ([.content 2 [], .content 2 [98, 98], .content 3 [], .content 4 [97, 97, 1, 2],
        .content 4 [98, 3, 4, 5]], s') := by
  have free : allTaken pairContent pairCalls ≤ pairImage.freeCount :=
    Finset.card_pos.mpr ⟨16, mem_freeSet.mpr ⟨show 16 < 400 by decide, by decide +kernel⟩⟩
  have legal : AllLegal pairContent pairCalls :=
    ⟨⟨by decide, by decide⟩, show 0 + 2 < 2 ^ 64 by decide, ⟨by decide, by decide⟩,
      show usableBlockSize - 2 + 4 < 2 ^ 64 by decide, show 0 + 4 < 2 ^ 64 by decide, trivial⟩
  obtain ⟨s', -, -, -, run, -⟩ := files_served pairCalls pairImage_holds
    (pairImage_room.mono (by decide)) legal free ⟨fun _ => false, fun _ => 0, fun _ _ => 0⟩ ⟨0, 0, 0⟩
  have replies : answers pairContent pairCalls = [.content 2 [], .content 2 [98, 98], .content 3 [],
      .content 4 [97, 97, 1, 2], .content 4 [98, 3, 4, 5]] := by decide +kernel
  rw [replies] at run
  exact ⟨s', run⟩

end Nbtrfs
