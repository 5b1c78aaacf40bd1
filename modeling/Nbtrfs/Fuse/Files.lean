import Mathlib.Logic.Function.Basic
import Nbtrfs.Directory.Frames
import Nbtrfs.Fuse.Served

/-!
# Sessions on many files

Reads and writes of any number of files in any order. Each file is a size and its bytes, a read is a
segment of them, and a write lays its buffer over them and leaves the other files alone. The store of
blocks does what these contents do as long as the image has blocks for what is written, and the append
to the journal stays within the journal.
-/

namespace Nbtrfs

/-- What a file holds. -/
structure Content where
  /-- The number of bytes. -/
  size : Nat
  /-- The bytes. -/
  bytes : Nat → UInt8

/-- The bytes that a read returns. -/
def Content.read (content : Content) (requested start : Nat) : List UInt8 :=
  segment content.bytes start (min requested (content.size - start))

/-- The content with a buffer laid over it. -/
def Content.write (content : Content) (offset : Nat) (buffer : List UInt8) : Content :=
  ⟨max content.size (offset + buffer.length), overlay content.bytes offset buffer⟩

/-- A call on one of the files. -/
inductive ContentCall (File : Type) where
  /-- `nbtrfs_read`. -/
  | read (file : File) (requested start : Nat)
  /-- `nbtrfs_write`. -/
  | write (file : File) (buffer : List UInt8) (offset : Nat)

/-- The blocks that a file with a number of pages has: its pages and its single indirect block. -/
def blocksFor (pages : Nat) : Nat := pages + if directPointers < pages then 1 else 0

section

variable {File : Type}

/-- The call of the callback. -/
def ContentCall.request (path : File → CString) : ContentCall File → Request
  | .read file requested start => .read (path file) requested start
  | .write file buffer offset => .write (path file) buffer offset

/-- What it returns. -/
def ContentCall.reply (content : File → Content) : ContentCall File → Reply
  | .read file requested start =>
    .content ((content file).read requested start).length ((content file).read requested start)
  | .write _ buffer _ => .content buffer.length []

/-- The contents after a call. -/
def ContentCall.after [DecidableEq File] (content : File → Content) : ContentCall File → File → Content
  | .read _ _ _ => content
  | .write file buffer offset => Function.update content file ((content file).write offset buffer)

/-- A read whose end is a `size_t`, or a write that starts in the file or at its end and stays within the
direct blocks and the single indirect block. -/
def ContentCall.Legal (content : File → Content) : ContentCall File → Prop
  | .read _ requested start => start + requested < 2 ^ 64
  | .write file buffer offset => offset ≤ (content file).size ∧
      offset + buffer.length ≤ pointersPerPage * usableBlockSize

/-- The blocks that a call takes at most. -/
def ContentCall.taken (content : File → Content) : ContentCall File → Nat
  | .read _ _ _ => 0
  | .write file buffer offset =>
    blocksFor (pagesFor ((content file).write offset buffer).size) -
      blocksFor (pagesFor (content file).size)

variable [DecidableEq File]

/-- What calls return one after another. -/
def answers : (File → Content) → List (ContentCall File) → List Reply
  | _, [] => []
  | content, call :: calls => call.reply content :: answers (call.after content) calls

/-- The contents after calls. -/
def contentsAfter (content : File → Content) (calls : List (ContentCall File)) : File → Content :=
  calls.foldl ContentCall.after content

/-- Every call is legal where it is made. -/
def AllLegal : (File → Content) → List (ContentCall File) → Prop
  | _, [] => True
  | content, call :: calls => call.Legal content ∧ AllLegal (call.after content) calls

/-- The blocks that calls take at most. -/
def allTaken : (File → Content) → List (ContentCall File) → Nat
  | _, [] => 0
  | content, call :: calls => call.taken content + allTaken (call.after content) calls

end

section

variable {s s' : Store} {superblock : Superblock} {inode own : Inode} {pages ownPages : Nat}

/-- A change of a file keeps another one: its view, its map and its pages. -/
theorem FileView.beside (view : FileView s superblock inode pages)
    (change : FileChange superblock own ownPages s s')
    (data : ∀ block, OwnBlock s own ownPages block → ∃ bytes, s.mem block = .data bytes)
    (apart : ∀ block, OwnBlock s inode pages block → ¬ OwnBlock s own ownPages block)
    (other : inode.inodeNumber ≠ own.inodeNumber) {superblock' : Superblock}
    (read : superblockRead s' = some superblock')
    (layout : ∀ number, inodePage superblock' number = inodePage superblock number) :
    FileView s' superblock' inode pages ∧
      (∀ index, blockPointer s' inode index = blockPointer s inode index) ∧
      ∀ index < pages, s'.mem (blockPointer s inode index) = s.mem (blockPointer s inode index) := by
  have notIndirect : inode.indirectBlock ≠ 0 → ¬ OwnBlock s own ownPages inode.indirectBlock :=
    fun linked => apart _ (Or.inr ⟨rfl, linked⟩)
  have pointer := fun index => change.blockPointer view.indirect notIndirect index
  have kept : ∀ index < pages,
      s'.mem (blockPointer s inode index) = s.mem (blockPointer s inode index) := by
    intro index below
    exact change.mem _ (view.inside index below) (view.set index below)
      (apart _ (Or.inl ⟨index, below, rfl⟩)) (view.content below)
  refine ⟨?_, pointer, kept⟩
  constructor
  · exact change.formatted
  · rw [change.totalBlocks]
    exact view.width
  · exact read
  · rw [layout, change.totalBlocks]
    exact view.table
  · rw [layout]
    exact change.bits _ view.table view.tableSet
  · rw [layout]
    obtain ⟨slots, tag, slot⟩ := view.slot
    have notTable : ¬ OwnBlock s own ownPages (inodePage superblock inode.inodeNumber) := by
      intro mine
      obtain ⟨bytes, page⟩ := data _ mine
      rw [tag] at page
      cases page
    obtain ⟨slots', tag', same⟩ := change.table _ view.table view.tableSet notTable slots tag
    refine ⟨slots', tag', ?_⟩
    rcases same (inode.inodeNumber % inodesPerPage) with ⟨samePage, sameSlot⟩ | kept
    · apply absurd _ other
      have split := Nat.div_add_mod inode.inodeNumber inodesPerPage
      have split' := Nat.div_add_mod own.inodeNumber inodesPerPage
      have quotient : inode.inodeNumber / inodesPerPage = own.inodeNumber / inodesPerPage := by
        unfold inodePage at samePage
        omega
      rw [← split, ← split', quotient, sameSlot]
    · rw [kept, slot]
  · exact change.indirectReady view.indirect notIndirect
  · intro index above below
    rw [pointer index]
    exact view.unmapped index above below
  · intro index below
    rw [pointer index]
    exact view.nonzero index below
  · intro index below
    rw [pointer index, change.totalBlocks]
    exact view.inside index below
  · intro index below
    rw [pointer index]
    exact change.bits _ (view.inside index below) (view.set index below)
  · intro index below
    rw [pointer index, kept index below]
    exact view.data index below
  · intro index below third thirdBelow same
    rw [pointer index, pointer third] at same
    exact view.distinct index below third thirdBelow same
  · intro index below
    rw [pointer index]
    exact view.apart index below
  · exact view.bound

/-- A change of a file keeps the nodes of a lookup. -/
theorem FileView.live (view : FileView s superblock own ownPages)
    (change : FileChange superblock own ownPages s s') {path : CString} {live : Nat → Prop}
    (lookup : Lookup s superblock path live) {block : Nat} (alive : live block) :
    s'.mem block = s.mem block := by
  obtain ⟨node, tag, -⟩ := lookup.node block alive
  apply change.mem block (lookup.inside block alive) (lookup.set block alive)
  · intro mine
    obtain ⟨bytes, data⟩ := view.ownData mine
    rw [tag] at data
    cases data
  · rw [tag]
    trivial

/-- A lookup goes on with the same nodes after a change of a file. -/
theorem Lookup.beside {path : CString} {live : Nat → Prop} (lookup : Lookup s superblock path live)
    (view : FileView s superblock own ownPages) (change : FileChange superblock own ownPages s s')
    {superblock' : Superblock} (read : superblockRead s' = some superblock')
    (root : superblock'.btreeRoot = superblock.btreeRoot) : Lookup s' superblock' path live := by
  have kept : ∀ {block : Nat}, live block → s'.mem block = s.mem block := view.live change lookup
  constructor
  · exact read
  · rw [root]
    exact lookup.root
  · intro block alive
    rw [change.totalBlocks]
    exact lookup.inside block alive
  · intro block alive
    exact change.bits block (lookup.inside block alive) (lookup.set block alive)
  · intro block alive
    rw [kept alive]
    exact lookup.node block alive
  · intro block node alive tag
    rw [kept alive] at tag
    exact lookup.child block node alive tag
  · intro block node alive tag
    rw [kept alive] at tag
    exact lookup.directory block node alive tag

/-- The inode of a view is the one in its slot. -/
theorem FileView.same_inode {inode' : Inode} {pages' freeBlocks journalHead freeBlocks' journalHead' : Nat}
    (view : FileView s (superblock.withCounters freeBlocks journalHead) inode pages)
    (view' : FileView s (superblock.withCounters freeBlocks' journalHead') inode' pages')
    (number : inode'.inodeNumber = inode.inodeNumber) : inode' = inode := by
  obtain ⟨slots, tag, slot⟩ := view.slot
  obtain ⟨slots', tag', slot'⟩ := view'.slot
  rw [inodePage_withCounters] at tag tag'
  rw [number, tag] at tag'
  obtain rfl := Block.inode.inj tag'
  rw [← slot, ← slot', number]

/-- `nbtrfs_write` of an inode that was read, with the blocks that it takes: they were free. -/
theorem writeInode_taken {append : Append} {locals : Locals} {buffer : List UInt8} {offset : Nat}
    (view : FileView s superblock inode (pagesFor inode.size)) (journal : TouchesJournal append)
    (within : offset ≤ inode.size)
    (limit : offset + buffer.length ≤ pointersPerPage * usableBlockSize)
    (room : blocksNeeded inode (pagesFor inode.size) (pagesFor (offset + buffer.length)) ≤
      s.freeCount) :
    ∃ inode' s', writeInode append locals s inode buffer offset =
        some ((buffer.length : Int), s') ∧
      FileWritten s superblock inode offset buffer inode' s' ∧
      (∀ block < s.totalBlocks, s.bit block = some true →
        OwnBlock s' inode' (pagesFor inode'.size) block →
          OwnBlock s inode (pagesFor inode.size) block) ∧
      s'.freeCount + blocksNeeded inode (pagesFor inode.size) (pagesFor (offset + buffer.length)) =
        s.freeCount := by
  have covered := pagesFor_spec inode.size
  obtain ⟨inode1, s1, loop, piece, taken⟩ := @writeLoop_spec s superblock inode (pagesFor inode.size)
    append locals journal buffer.length (buffer.length + 1) buffer offset 0 view (by omega)
    (by omega) limit room
  obtain ⟨inode', s', run, written⟩ := @writeInode_spec s superblock inode append locals buffer offset
    view journal within limit room
  refine ⟨inode', s', run, written, ?_⟩
  obtain ⟨freeBlocks, journalHead, view1⟩ := piece.view
  obtain ⟨freeBlocks', journalHead', view'⟩ := written.view
  have number := piece.fields.inodeNumber
  have pages : pagesFor inode'.size =
      max (pagesFor inode.size) (pagesFor (offset + buffer.length)) := by
    rw [written.size, pagesFor_max]
  rw [pages] at view' ⊢
  rw [writeInode, loop, Option.bind_eq_bind, Option.bind_some] at run
  dsimp only at run
  split at run
  case isTrue grows =>
    obtain ⟨s2, stored, slot⟩ := inodeStore_spec view1.read
      (inode1.resized (offset + (0 + buffer.length))) view1.table false
    obtain ⟨view2, pointer, -, -⟩ := view1.resized slot
    change (inodeStore s1 (inode1.resized (offset + (0 + buffer.length))) false).bind _ = _ at run
    rw [stored, Option.bind_some] at run
    obtain ⟨-, rfl⟩ := Prod.mk.inj (Option.some.inj run)
    obtain rfl := view2.same_inode view' (written.number.trans number.symm)
    constructor
    · intro block inside set own
      apply piece.own block inside set
      rcases own with ⟨index, below, same⟩ | linked
      · rw [pointer] at same
        exact Or.inl ⟨index, below, same⟩
      · exact Or.inr linked
    · rw [(slot.samePages view1.formatted.bitmapped).freeCount]
      exact taken
  case isFalse =>
    obtain ⟨-, rfl⟩ := Prod.mk.inj (Option.some.inj run)
    obtain rfl := view1.same_inode view' (written.number.trans number.symm)
    exact ⟨piece.own, taken⟩

/-- The blocks of a file are allocated. -/
theorem FileView.ownSet (view : FileView s superblock inode pages) {block : Nat}
    (mine : OwnBlock s inode pages block) : block < s.totalBlocks ∧ s.bit block = some true := by
  rcases mine with ⟨index, below, rfl⟩ | ⟨rfl, linked⟩
  · exact ⟨view.inside index below, view.set index below⟩
  · obtain ⟨inside, set, -⟩ := view.indirect linked
    exact ⟨inside, set⟩

/-- A file with the same map has the same blocks. -/
theorem ownBlock_congr (pointer : ∀ index, blockPointer s' inode index = blockPointer s inode index)
    {block : Nat} (mine : OwnBlock s' inode pages block) : OwnBlock s inode pages block := by
  rcases mine with ⟨index, below, same⟩ | linked
  · exact Or.inl ⟨index, below, (pointer index).symm.trans same⟩
  · exact Or.inr linked

/-- What a write needs is at most what a longer file has more. -/
theorem FileView.needed (view : FileView s superblock inode pages) (target : Nat) :
    blocksNeeded inode pages target ≤ blocksFor (max pages target) - blocksFor pages := by
  unfold blocksNeeded blocksFor
  have behind : directPointers < pages → inode.indirectBlock ≠ 0 := by
    intro more unlinked
    apply view.nonzero directPointers more
    rw [blockPointer, if_neg (Nat.lt_irrefl _), if_pos unlinked]
  by_cases more : pages < target
  · rw [Nat.max_eq_right (by omega)]
    by_cases linked : directPointers < pages
    · rw [if_neg (fun both => behind linked both.2.1), if_pos (by omega), if_pos linked]
      omega
    · rw [if_neg linked]
      split
      case isTrue takes =>
        rw [if_pos takes.2.2]
        omega
      case isFalse => split <;> omega
  · rw [if_neg (fun both => more both.1)]
    omega

end

section

variable {File : Type} {path : File → CString}

/-- The files of a store: they are found under their paths, no two of them share an inode or a block, and
they hold the contents. -/
structure HoldsFiles (s : Store) (superblock : Superblock) (path : File → CString)
    (inode : File → Inode) (content : File → Content) : Prop where
  /-- The pages are mapped. -/
  view : ∀ file, FileView s superblock (inode file) (pagesFor (inode file).size)
  /-- The paths are looked up in allocated nodes. -/
  lookup : ∀ file, ∃ live, Lookup s superblock (path file) live
  /-- They lead to the inodes. -/
  found : ∀ file, itemSearch s (path file) = some ⟨(inode file).inodeNumber, 0⟩
  /-- An inode has a number. -/
  regular : ∀ file, (inode file).inodeNumber ≠ 0
  /-- The inodes are distinct. -/
  numbers : ∀ file other, file ≠ other → (inode file).inodeNumber ≠ (inode other).inodeNumber
  /-- No block is in two files. -/
  apart : ∀ file other, file ≠ other → ∀ block,
    OwnBlock s (inode file) (pagesFor (inode file).size) block →
      ¬ OwnBlock s (inode other) (pagesFor (inode other).size) block
  /-- The sizes are those of the contents. -/
  size : ∀ file, (inode file).size = (content file).size
  /-- So are the bytes. -/
  bytes : ∀ file, ∀ place < (content file).size,
    fileByte s (inode file) place = (content file).bytes place

variable {s : Store} {superblock : Superblock} {inode : File → Inode} {content : File → Content}
  {append : Append} {locals : Locals} {host : Host}

/-- `nbtrfs_read` returns a segment of the content. -/
theorem HoldsFiles.read (files : HoldsFiles s superblock path inode content) (file : File)
    {requested start : Nat} (range : start + requested < 2 ^ 64) :
    nbtrfsRead s (path file) requested start =
      some ((((content file).read requested start).length : Int),
        (content file).read requested start) := by
  have read := nbtrfsRead_view (files.view file) (files.found file) (files.regular file)
    (pagesFor_spec _) range
  have same : segment (fileByte s (inode file)) start (min requested ((inode file).size - start)) =
      (content file).read requested start := by
    rw [Content.read, files.size]
    apply segment_congr
    intro index below
    apply files.bytes file
    omega
  rw [same, files.size] at read
  have length : ((content file).read requested start).length =
      min requested ((content file).size - start) := segment_length _ _ _
  rw [read, length]

/-- `nbtrfs_write` lays the buffer over the content and keeps the other files. -/
theorem HoldsFiles.write [DecidableEq File] (files : HoldsFiles s superblock path inode content)
    (journal : TouchesJournal append) (file : File) {buffer : List UInt8} {offset : Nat}
    (legal : (ContentCall.write file buffer offset).Legal content)
    (room : (ContentCall.write file buffer offset).taken content ≤ s.freeCount) :
    ∃ s' freeBlocks journalHead inode',
      nbtrfsWrite append locals host s (path file) buffer offset = some ((buffer.length : Int), s') ∧
      HoldsFiles s' (superblock.withCounters freeBlocks journalHead) path inode'
        ((ContentCall.write file buffer offset).after content) ∧
      s.freeCount ≤ s'.freeCount + (ContentCall.write file buffer offset).taken content := by
  obtain ⟨within, limit⟩ := legal
  have view := files.view file
  have need := view.needed (pagesFor (offset + buffer.length))
  have size := files.size file
  have enough : (ContentCall.write file buffer offset).taken content =
      blocksFor (max (pagesFor (inode file).size) (pagesFor (offset + buffer.length))) -
        blocksFor (pagesFor (inode file).size) := by
    rw [ContentCall.taken, Content.write, pagesFor_max, size]
  rw [enough] at room ⊢
  rw [← size] at within
  obtain ⟨written, s', run, change, own, taken⟩ := @writeInode_taken s superblock (inode file) append
    locals buffer offset view journal within limit (by omega)
  obtain ⟨freeBlocks, journalHead, view'⟩ := change.view
  refine ⟨s', freeBlocks, journalHead, Function.update inode file written, ?_, ?_, by omega⟩
  · rw [nbtrfsWrite_found (files.found file) (files.regular file) view.inodeRead]
    exact run
  · have beside : ∀ other, other ≠ file →
        FileView s' (superblock.withCounters freeBlocks journalHead) (inode other)
          (pagesFor (inode other).size) ∧
        (∀ index, blockPointer s' (inode other) index = blockPointer s (inode other) index) ∧
        ∀ index < pagesFor (inode other).size,
          s'.mem (blockPointer s (inode other) index) = s.mem (blockPointer s (inode other) index) :=
      fun other distinct => (files.view other).beside change.frame (fun _ => view.ownData)
        (files.apart other file distinct) (files.numbers other file distinct) view'.read
        (inodePage_withCounters superblock freeBlocks journalHead)
    have apart : ∀ other, other ≠ file → ∀ block, OwnBlock s' written (pagesFor written.size) block →
        ¬ OwnBlock s' (inode other) (pagesFor (inode other).size) block := by
      intro other distinct block mine theirs
      have before := ownBlock_congr (beside other distinct).2.1 theirs
      obtain ⟨inside, set⟩ := (files.view other).ownSet before
      exact files.apart other file distinct block before (own block inside set mine)
    constructor
    · intro other
      by_cases same : other = file
      · rw [same, Function.update_self]
        exact view'
      · rw [Function.update_of_ne same]
        exact (beside other same).1
    · intro other
      obtain ⟨live, lookup⟩ := files.lookup other
      exact ⟨live, lookup.beside view change.frame view'.read rfl⟩
    · intro other
      obtain ⟨live, lookup⟩ := files.lookup other
      rw [view.itemSearch lookup change.frame, files.found other]
      by_cases same : other = file
      · rw [same, Function.update_self, change.number]
      · rw [Function.update_of_ne same]
    · intro other
      by_cases same : other = file
      · rw [same, Function.update_self, change.number]
        exact files.regular file
      · rw [Function.update_of_ne same]
        exact files.regular other
    · intro one other distinct
      by_cases first : one = file
      · rw [first, Function.update_self, Function.update_of_ne (first ▸ distinct.symm), change.number]
        exact files.numbers file other (first ▸ distinct)
      · rw [Function.update_of_ne first]
        by_cases second : other = file
        · rw [second, Function.update_self, change.number]
          exact files.numbers one file first
        · rw [Function.update_of_ne second]
          exact files.numbers one other distinct
    · intro one other distinct block
      by_cases first : one = file
      · rw [first, Function.update_self, Function.update_of_ne (first ▸ distinct.symm)]
        exact apart other (first ▸ distinct.symm) block
      · rw [Function.update_of_ne first]
        by_cases second : other = file
        · rw [second, Function.update_self]
          exact fun theirs mine => apart one first block mine theirs
        · rw [Function.update_of_ne second]
          intro theirs others
          exact files.apart one other distinct block (ownBlock_congr (beside one first).2.1 theirs)
            (ownBlock_congr (beside other second).2.1 others)
    · intro other
      by_cases same : other = file
      · rw [same, ContentCall.after, Function.update_self, Function.update_self, change.size, size]
        rfl
      · rw [ContentCall.after, Function.update_of_ne same, Function.update_of_ne same]
        exact files.size other
    · intro other place below
      by_cases same : other = file
      · rw [same, ContentCall.after, Function.update_self] at below ⊢
        rw [Function.update_self]
        have reach : place < written.size := by
          rw [change.size, size]
          exact below
        rw [change.bytes place reach]
        apply overlay_congr
        intro outside
        apply files.bytes file
        rw [change.size] at reach
        omega
      · rw [ContentCall.after, Function.update_of_ne same] at below ⊢
        rw [Function.update_of_ne same]
        obtain ⟨-, pointer, kept⟩ := beside other same
        have page : place / usableBlockSize < pagesFor (inode other).size := by
          have covered := pagesFor_spec (inode other).size
          have sized := files.size other
          exact page_lt (by omega)
        rw [fileByte, pointer, kept _ page, change.frame.residue]
        exact files.bytes other place below

end

end Nbtrfs
