import Nbtrfs.Mkfs.Model
import Nbtrfs.Store.AllocatorRun

/-!
# The layout of a formatted image

On a zeroed image `disk_format` tags the bitmaps, the inode table and the journal one after the
other and allocates exactly the blocks up to the root node behind them. Allocation goes through
the blocks in order, so the regions that are tagged and the blocks that are allocated are the same.
-/

namespace Nbtrfs

/-- The blocks that a block bitmap of one bit a block takes. -/
def bitmapBlocks (totalBlocks : Nat) : Nat := (totalBlocks + 4091) / 4092

/-- The blocks that the inode bitmap takes. -/
def inodeBitmapBlocks (totalBlocks : Nat) : Nat := (totalBlocks + 16367) / 16368

/-- The blocks of the inode table. -/
def inodeTableBlocks (totalBlocks : Nat) : Nat := totalBlocks / 4 / 22

/-- The blocks of the journal. -/
def journalBlocks (totalBlocks : Nat) : Nat := totalBlocks / 100

/-- The first block of the inode table. -/
def tableStart (totalBlocks : Nat) : Nat :=
  1 + bitmapBlocks totalBlocks + inodeBitmapBlocks totalBlocks

/-- The first block of the journal. -/
def journalStart (totalBlocks : Nat) : Nat := tableStart totalBlocks + inodeTableBlocks totalBlocks

/-- The block of the root node. -/
def rootBlock (totalBlocks : Nat) : Nat := journalStart totalBlocks + journalBlocks totalBlocks

/-- The image has a journal, an inode table and room for the regions. -/
structure Formattable (totalBlocks : Nat) : Prop where
  /-- There is a journal. -/
  journal : 1 ≤ journalBlocks totalBlocks
  /-- There is an inode table. -/
  table : 1 ≤ inodeTableBlocks totalBlocks
  /-- The regions and the root node fit. -/
  room : rootBlock totalBlocks + 1 ≤ totalBlocks

/-- The code's size of the block bitmap is rounded up. -/
theorem blockBitmapSpace_eq (totalBlocks : Nat) :
    blockBitmapSpace totalBlocks = bitmapBlocks totalBlocks := by
  unfold blockBitmapSpace bitmapBlocks usableBlockSize
  split <;> omega

/-- The code's size of the inode bitmap is rounded up. -/
theorem calculateInodeBitmapSize_eq (superblock : Superblock) :
    calculateInodeBitmapSize superblock = inodeBitmapBlocks superblock.totalBlocks := by
  unfold calculateInodeBitmapSize inodeBitmapBlocks usableBlockSize
  split <;> omega

/-- The code's size of the inode table. -/
theorem calculateInodeTableSize_eq (superblock : Superblock) :
    calculateInodeTableSize superblock = inodeTableBlocks superblock.totalBlocks := rfl

/-- The bitmap pages of the image's blocks are the first blocks. -/
theorem bitmapPage_le {totalBlocks pnum : Nat} (inside : pnum < totalBlocks) :
    bitmapPage pnum ≤ bitmapBlocks totalBlocks := by
  unfold bitmapPage bitmapBlocks usableBlockSize
  omega

section

variable {s s' : Store}

/-- Tagging changes the blocks of its range. -/
structure Tagged (s : Store) (first count : Nat) (content : Block) (s' : Store) : Prop where
  /-- The blocks of the range are tagged. -/
  range : ∀ block, first ≤ block → block < first + count → s'.mem block = content
  /-- The other pages are kept. -/
  other : ∀ block, block < first ∨ first + count ≤ block → s'.mem block = s.mem block
  /-- The image keeps its size. -/
  totalBlocks : s'.totalBlocks = s.totalBlocks
  /-- Former content reads as before. -/
  residue : s'.residue = s.residue

/-- Blocks of one content are tagged alike. -/
theorem tagBlocks_spec {tag : Block → Option Block} {former content : Block}
    (tags : tag former = some content) (count first : Nat)
    (inside : first + count ≤ s.totalBlocks)
    (same : ∀ block, first ≤ block → block < first + count → s.mem block = former) :
    ∃ s', tagBlocks tag count first s = some s' ∧ Tagged s first count content s' := by
  induction count generalizing first s with
  | zero => exact ⟨s, rfl, fun block after before => by omega, fun _ _ => rfl, rfl, rfl⟩
  | succ count ih =>
    have page := same first (Nat.le_refl _) (by omega)
    have get : s.get first = some former := by
      rw [Store.get_of_lt (by omega), page]
    obtain ⟨s', run, tagged⟩ := @ih (s.put first content) (first + 1)
      (by rw [Store.put_totalBlocks]; omega) (fun block after before => by
        rw [Store.put_other _ _ _ _ (by omega)]
        exact same block (by omega) (by omega))
    refine ⟨s', ?_, ?_, ?_, tagged.totalBlocks, tagged.residue⟩
    · rw [tagBlocks, get, Option.bind_eq_bind, Option.bind_some, tags]
      exact run
    · intro block after before
      by_cases here : block = first
      · rw [tagged.other block (Or.inl (by omega)), here, Store.put_same]
      · exact tagged.range block (by omega) (by omega)
    · intro block outside
      rw [tagged.other block (by omega), Store.put_other _ _ _ _ (by omega)]

/-- The blocks below a bound are allocated and the others are free. -/
structure Filled (s : Store) (bound : Nat) : Prop where
  /-- The bitmap is in place. -/
  bitmapped : s.Bitmapped
  /-- The bits of the bitmap pages. -/
  bits : ∀ pnum, bitmapPage pnum ≤ bitmapBlocks s.totalBlocks →
    s.bit pnum = some (decide (pnum < bound))

/-- What allocation keeps. -/
structure KeepsRegions (s s' : Store) : Prop where
  /-- The pages behind the block bitmap are kept. -/
  mem : ∀ block, bitmapBlocks s.totalBlocks < block → s'.mem block = s.mem block
  /-- The superblock keeps its geometry. -/
  superblock : ∀ superblock, superblockRead s = some superblock →
    ∃ superblock', superblockRead s' = some superblock' ∧
      superblock'.totalBlocks = superblock.totalBlocks ∧
      superblock'.inodeBitmap = superblock.inodeBitmap
  /-- The image keeps its size. -/
  totalBlocks : s'.totalBlocks = s.totalBlocks

/-- Nothing changes. -/
theorem KeepsRegions.refl (s : Store) : KeepsRegions s s :=
  ⟨fun _ _ => rfl, fun superblock read => ⟨superblock, read, rfl, rfl⟩, rfl⟩

/-- Two allocations. -/
theorem KeepsRegions.trans {s'' : Store} (first : KeepsRegions s s') (second : KeepsRegions s' s'') :
    KeepsRegions s s'' where
  mem block behind := by
    rw [second.mem block (by rw [first.totalBlocks]; exact behind), first.mem block behind]
  superblock superblock read := by
    obtain ⟨middle, read', total, start⟩ := first.superblock superblock read
    obtain ⟨last, read'', total', start'⟩ := second.superblock middle read'
    exact ⟨last, read'', total'.trans total, start'.trans start⟩
  totalBlocks := second.totalBlocks.trans first.totalBlocks

/-- Allocation takes the first block that is not allocated. -/
theorem Filled.alloc {bound : Nat} (filled : Filled s bound) (inside : bound < s.totalBlocks) :
    ∃ s', allocPage s = some (bound, s') ∧ Filled s' (bound + 1) ∧ KeepsRegions s s' := by
  have bit : ∀ pnum < s.totalBlocks, s.bit pnum = some (decide (pnum < bound)) :=
    fun pnum below => filled.bits pnum (bitmapPage_le below)
  have free : s.bit bound = some false := by
    rw [bit bound inside]
    simp
  rcases allocPage_scan filled.bitmapped with
    ⟨pnum, s', run, below, clear, least, change⟩ | ⟨-, full⟩
  · have same : pnum = bound := by
      rw [bit pnum below] at clear
      have notBelow : ¬ pnum < bound := of_decide_eq_false (Option.some.inj clear)
      by_contra distinct
      exact least bound (by omega) free
    subst same
    refine ⟨s', run, ⟨change.bitmapped filled.bitmapped, fun other page => ?_⟩, ?_, ?_,
      change.totalBlocks⟩
    · rw [change.totalBlocks] at page
      rw [change.bits, filled.bits other page]
      by_cases here : other = pnum
      · rw [if_pos here, here]
        simp
      · rw [if_neg here]
        congr 2
        apply propext
        omega
    · intro block behind
      have page := bitmapPage_le inside
      exact change.mem block (by omega) (by omega)
    · intro superblock read
      have read' := change.superblock
      rw [read] at read'
      exact ⟨superblock.decrementFree, read', rfl, rfl⟩
  · exact absurd free (full bound inside)

/-- A number of allocations takes as many blocks. -/
theorem Filled.allocs {bound : Nat} (filled : Filled s bound) (nonzero : bound ≠ 0) (count : Nat)
    (inside : bound + count ≤ s.totalBlocks) :
    ∃ s', allocPages count s = some (true, s') ∧ Filled s' (bound + count) ∧ KeepsRegions s s' := by
  induction count generalizing s bound with
  | zero => exact ⟨s, rfl, filled, KeepsRegions.refl s⟩
  | succ count ih =>
    obtain ⟨middle, run, filled', kept⟩ := filled.alloc (by omega)
    obtain ⟨s', runs, filled'', kept'⟩ :=
      ih filled' (Nat.succ_ne_zero bound) (by rw [kept.totalBlocks]; omega)
    refine ⟨s', ?_, ?_, kept.trans kept'⟩
    · rw [allocPages, run, Option.bind_eq_bind, Option.bind_some]
      show (if bound = 0 then some (false, middle) else allocPages count middle) = _
      rw [if_neg nonzero, runs]
    · rw [show bound + (count + 1) = bound + 1 + count by omega]
      exact filled''

/-- An allocated inode in a zeroed slot. -/
def freshInode (host : Host) (inodeNumber mode : Nat) : Inode :=
  { zeroInode with
    inodeNumber
    mode
    ownerId := host.userId
    groupId := host.groupId
    referenceCount := 1 }

/-- What the allocation of the first inode changes, by the block of its bit and the block of its
slot. -/
structure FirstInode (s : Store) (bitmap table : Nat) (inode : Inode) (s' : Store) : Prop where
  /-- The first bit of the inode bitmap is set. -/
  bits : ∀ position, bitmapGet (s'.mem bitmap) position = some (decide (position = 0))
  /-- The inode bitmap stays a bitmap. -/
  page : ∃ words, s'.mem bitmap = .bitmap words
  /-- The first slot of the table is written. -/
  slot : s'.mem table = .inode (setSlot (fun _ => zeroInode) 0 inode)
  /-- The other pages are kept. -/
  other : ∀ block, block ≠ bitmap → block ≠ table → s'.mem block = s.mem block
  /-- The image keeps its size. -/
  totalBlocks : s'.totalBlocks = s.totalBlocks

/-- The first `inode_allocate` on a zeroed inode bitmap returns inode 0. -/
theorem inodeAllocate_first (host : Host) (mode : Nat) {superblock : Superblock}
    (read : superblockRead s = some superblock)
    (bitmap : s.mem superblock.inodeBitmap = .bitmap fun _ => 0)
    (table : s.mem (inodePage superblock 0) = .inode fun _ => zeroInode)
    (bitmapInside : superblock.inodeBitmap < s.totalBlocks)
    (tableInside : inodePage superblock 0 < s.totalBlocks) :
    ∃ s', inodeAllocate host s mode true = some (some 0, s') ∧
      FirstInode s superblock.inodeBitmap (inodePage superblock 0) (freshInode host 0 mode) s' := by
  have notZero : (0 : Nat) ≠ superblock.inodeBitmap := by
    intro same
    unfold superblockRead at read
    rw [same, bitmap] at read
    cases read
  have apart : inodePage superblock 0 ≠ superblock.inodeBitmap := by
    intro same
    rw [same, bitmap] at table
    cases table
  obtain ⟨changed, put⟩ := exists_bitmapPut bitmap 0 true
  have clear : bitmapGet (s.mem superblock.inodeBitmap) 0 = some false := by
    rw [bitmap]
    decide
  let s1 := s.put superblock.inodeBitmap changed
  have read1 : superblockRead s1 = some superblock := by
    unfold superblockRead at read ⊢
    rw [Store.put_other _ _ _ _ notZero]
    exact read
  have table1 : s1.get (inodePage superblock 0) = some (.inode fun _ => zeroInode) := by
    have inside1 : inodePage superblock 0 < s1.totalBlocks := tableInside
    rw [Store.get_of_lt inside1, Store.put_other _ _ _ _ apart, table]
  let slots := setSlot (fun _ => zeroInode) 0 (freshInode host 0 mode)
  let s2 := (s1.put (inodePage superblock 0) (.inode slots)).flush (inodePage superblock 0)
  have load : inodeRead s1 0 = some (some zeroInode) := by
    rw [inodeRead, read1, Option.bind_eq_bind, Option.bind_some]
    show (s1.get (inodePage superblock 0)).bind _ = _
    rw [table1]
    rfl
  have write : inodeWrite s1 (freshInode host 0 mode) true = some (true, s2) := by
    rw [inodeWrite, read1, Option.bind_eq_bind, Option.bind_some]
    show (s1.get (inodePage superblock 0)).bind _ = _
    rw [table1, Option.bind_some]
    rfl
  obtain ⟨fuel, enough⟩ : ∃ fuel, (s.totalBlocks + 1) * usableBlockSize = fuel + 1 :=
    Nat.exists_eq_succ_of_ne_zero (Nat.mul_ne_zero (Nat.succ_ne_zero _) (by decide))
  have run : inodeAllocate host s mode true = some (some 0, s2.flush superblock.inodeBitmap) := by
    rw [inodeAllocate, read, Option.bind_eq_bind, Option.bind_some, enough, inodeAllocateFrom]
    simp only [Nat.zero_div, Nat.zero_mod, Nat.add_zero, Store.get_of_lt bitmapInside,
      Option.bind_eq_bind, Option.bind_some, clear, put]
    show (inodeRead s1 0).bind _ = _
    rw [load, Option.bind_some]
    show (inodeWrite s1 (freshInode host 0 mode) true).bind _ = _
    rw [write, Option.bind_some]
    rfl
  refine ⟨_, run, ?_, ?_, ?_, ?_, rfl⟩
  · intro position
    have page : (s2.flush superblock.inodeBitmap).mem superblock.inodeBitmap = changed := by
      show (s1.put (inodePage superblock 0) (.inode slots)).mem superblock.inodeBitmap = changed
      rw [Store.put_other _ _ _ _ (Ne.symm apart), Store.put_same]
    rw [page, bitmapGet_bitmapPut put, bitmap]
    by_cases zero : position = 0
    · rw [if_pos zero, decide_eq_true zero]
    · rw [if_neg zero, decide_eq_false zero]
      show some (wordBit 0 (position % 64)) = some false
      rw [wordBit_eq _ _ (Nat.mod_lt _ (by decide))]
      simp
  · have page : s2.mem superblock.inodeBitmap = changed := by
      show (s1.put (inodePage superblock 0) (.inode slots)).mem superblock.inodeBitmap = changed
      rw [Store.put_other _ _ _ _ (Ne.symm apart), Store.put_same]
    rw [bitmap] at put
    exact ⟨_, page.trans (Option.some.inj put).symm⟩
  · show (s1.put (inodePage superblock 0) (.inode slots)).mem (inodePage superblock 0) = _
    rw [Store.put_same]
  · intro block notBitmap notTable
    show (s1.put (inodePage superblock 0) (.inode slots)).mem block = _
    rw [Store.put_other _ _ _ _ notTable, Store.put_other _ _ _ _ notBitmap]

end

/-- A 64-bit field of zero bytes. -/
theorem field64_zero (offset : Nat) : field64 (fun _ => 0) offset = 0 := LittleEndian.load_zero _ _

/-- A 32-bit field of zero bytes. -/
theorem field32_zero (offset : Nat) : field32 (fun _ => 0) offset = 0 := LittleEndian.load_zero _ _

/-- An inode of zero bytes. -/
theorem inodeAt_zero (offset : Nat) : inodeAt (fun _ => 0) offset = zeroInode := by
  unfold inodeAt zeroInode
  simp only [field64_zero, field32_zero]

/-- A zeroed block becomes an empty bitmap. -/
theorem asBitmap_zero : Block.asBitmap (.untagged fun _ => 0) = some (.bitmap fun _ => 0) := by
  simp only [Block.asBitmap, field64_zero]
  rfl

/-- A zeroed block becomes an empty block of the inode table. -/
theorem asInode_zero :
    Block.asInode (.untagged fun _ => 0) = some (.inode fun _ => zeroInode) := by
  simp only [Block.asInode, inodeAt_zero]

/-- A zeroed block becomes an unused journal block. -/
theorem asJournal_zero : Block.asJournal (.untagged fun _ => 0) =
    some (.journal ⟨0, false, .uninitialized⟩) := by
  simp only [Block.asJournal, field64_zero]
  rfl

/-- The tagged regions of a zeroed image. -/
structure Regions (totalBlocks : Nat) (s : Store) : Prop where
  /-- The bitmaps are empty. -/
  bitmaps : ∀ block, 1 ≤ block → block < tableStart totalBlocks →
    s.mem block = .bitmap fun _ => 0
  /-- The inode table is empty. -/
  table : ∀ block, tableStart totalBlocks ≤ block → block < journalStart totalBlocks →
    s.mem block = .inode fun _ => zeroInode
  /-- The journal is unused. -/
  journal : ∀ block, journalStart totalBlocks ≤ block → block < rootBlock totalBlocks →
    s.mem block = .journal ⟨0, false, .uninitialized⟩
  /-- The image keeps its size. -/
  totalBlocks : s.totalBlocks = totalBlocks

/-- The superblock that formatting starts from. -/
structure Initial (totalBlocks : Nat) (superblock : Superblock) : Prop where
  /-- The size of the image. -/
  size : superblock.totalBlocks = totalBlocks
  /-- The inode bitmap follows the block bitmap. -/
  start : superblock.inodeBitmap = 1 + bitmapBlocks totalBlocks

/-- The regions end where they are computed to end. -/
theorem Initial.ends {totalBlocks : Nat} {superblock : Superblock}
    (initial : Initial totalBlocks superblock) :
    bitmapEnd superblock = tableStart totalBlocks ∧
      tableEnd superblock = journalStart totalBlocks ∧
      calculateInodeTableSize superblock = inodeTableBlocks totalBlocks ∧
      calculateJournalSize superblock = journalBlocks totalBlocks := by
  have bitmap : bitmapEnd superblock = tableStart totalBlocks := by
    rw [bitmapEnd, calculateInodeBitmapSize_eq, initial.size, initial.start, tableStart]
  have table : calculateInodeTableSize superblock = inodeTableBlocks totalBlocks := by
    rw [calculateInodeTableSize_eq, initial.size]
  refine ⟨bitmap, ?_, table, ?_⟩
  · rw [tableEnd, bitmap, table, journalStart]
  · rw [calculateJournalSize, initial.size, journalBlocks]

/-- The first block of the inode table holds inode 0. -/
theorem Initial.inodePage {totalBlocks : Nat} {superblock : Superblock}
    (initial : Initial totalBlocks superblock) :
    inodePage superblock 0 = tableStart totalBlocks := by
  have bitmap := initial.ends.1
  unfold bitmapEnd at bitmap
  rw [Nbtrfs.inodePage, bitmap, Nat.zero_div, Nat.add_zero]

/-- `superblock_initialize` on a zeroed image. -/
theorem superblockInitialize_zero (host : Host) (residue : Residue) {totalBlocks : Nat}
    (nonempty : 0 < totalBlocks) {volumeName : CString} (short : volumeName.length ≤ 31) :
    ∃ s superblock, superblockInitialize host (zeroImage totalBlocks residue) volumeName = some s ∧
      superblockRead s = some superblock ∧ Initial totalBlocks superblock ∧
      superblock.freeBlocks = totalBlocks ∧ s.totalBlocks = totalBlocks ∧
      ∀ block, block ≠ 0 → s.mem block = .untagged fun _ => 0 := by
  have get : (zeroImage totalBlocks residue).get 0 = some (.untagged fun _ => 0) :=
    Store.get_of_lt nonempty
  let superblock : Superblock := { superblockAt (fun _ => 0) with
    magicNumber
    blockSize
    totalBlocks
    freeBlocks := totalBlocks
    inodeBitmap := 1 + blockBitmapSpace totalBlocks
    volumeName
    creationTime := host.time }
  have run : superblockInitialize host (zeroImage totalBlocks residue) volumeName =
      some ((zeroImage totalBlocks residue).put 0 (.super superblock)) := by
    rw [superblockInitialize, if_neg (Nat.not_lt.mpr short), get]
    rfl
  have start : superblock.inodeBitmap = 1 + bitmapBlocks totalBlocks := by
    rw [← blockBitmapSpace_eq]
  refine ⟨_, superblock, run, ?_, ⟨rfl, start⟩, rfl, rfl,
    fun block distinct => Store.put_other _ _ _ _ distinct⟩
  unfold superblockRead
  rw [Store.put_same]

/-- The regions of a zeroed image are tagged. -/
theorem tagRegions_zero {totalBlocks : Nat} (room : rootBlock totalBlocks ≤ totalBlocks) {s : Store}
    {superblock : Superblock} (initial : Initial totalBlocks superblock)
    (total : s.totalBlocks = totalBlocks)
    (zero : ∀ block, block ≠ 0 → s.mem block = .untagged fun _ => 0) :
    ∃ s', tagRegions superblock s = some s' ∧ Regions totalBlocks s' ∧ s'.mem 0 = s.mem 0 ∧
      ∀ block, rootBlock totalBlocks ≤ block → s'.mem block = .untagged fun _ => 0 := by
  obtain ⟨bitmap, table, tableSize, journalSize⟩ := initial.ends
  have tables : tableStart totalBlocks + inodeTableBlocks totalBlocks = journalStart totalBlocks :=
    rfl
  have journals : journalStart totalBlocks + journalBlocks totalBlocks = rootBlock totalBlocks := rfl
  have positive : 1 ≤ tableStart totalBlocks := by
    unfold tableStart
    omega
  obtain ⟨s1, run1, tagged1⟩ := @tagBlocks_spec s _ _ _ asBitmap_zero
    (tableStart totalBlocks - 1) 1 (by omega) fun block after before => zero block (by omega)
  obtain ⟨s2, run2, tagged2⟩ := @tagBlocks_spec s1 _ _ _ asInode_zero
    (inodeTableBlocks totalBlocks) (tableStart totalBlocks) (by rw [tagged1.totalBlocks]; omega)
    fun block after before => by
      rw [tagged1.other block (by omega)]
      exact zero block (by omega)
  obtain ⟨s3, run3, tagged3⟩ := @tagBlocks_spec s2 _ _ _ asJournal_zero
    (journalBlocks totalBlocks) (journalStart totalBlocks) (by rw [tagged2.totalBlocks, tagged1.totalBlocks]; omega)
    fun block after before => by
      rw [tagged2.other block (by omega), tagged1.other block (by omega)]
      exact zero block (by omega)
  refine ⟨s3, ?_, ⟨?_, ?_, ?_, ?_⟩, ?_, ?_⟩
  · rw [tagRegions, bitmap, tableSize, journalSize, table, run1, Option.bind_eq_bind,
      Option.bind_some, run2, Option.bind_some, run3]
  · intro block after before
    rw [tagged3.other block (by omega), tagged2.other block (by omega)]
    exact tagged1.range block after (by omega)
  · intro block after before
    rw [tagged3.other block (by omega)]
    exact tagged2.range block after (by omega)
  · intro block after before
    exact tagged3.range block after (by omega)
  · rw [tagged3.totalBlocks, tagged2.totalBlocks, tagged1.totalBlocks, total]
  · rw [tagged3.other 0 (by omega), tagged2.other 0 (by omega), tagged1.other 0 (by omega)]
  · intro block behind
    rw [tagged3.other block (by omega), tagged2.other block (by omega),
      tagged1.other block (by omega)]
    exact zero block (by omega)

/-- The layout of a formatted image. -/
structure Laid (host : Host) (totalBlocks : Nat) (s : Store) : Prop where
  /-- The superblock names the regions, the root node and the root inode. -/
  superblock : ∃ superblock, superblockRead s = some superblock ∧
    superblock.totalBlocks = totalBlocks ∧
    superblock.inodeBitmap = 1 + bitmapBlocks totalBlocks ∧
    superblock.journalStart = journalStart totalBlocks ∧ superblock.journalHead = 0 ∧
    superblock.btreeRoot = rootBlock totalBlocks ∧ superblock.rootInode = 0
  /-- The bitmaps are tagged. -/
  bitmaps : ∀ block, 1 ≤ block → block < tableStart totalBlocks →
    ∃ words, s.mem block = .bitmap words
  /-- The inode table is tagged, and holds the root inode only. -/
  table : ∀ block, tableStart totalBlocks ≤ block → block < journalStart totalBlocks →
    s.mem block = .inode (if block = tableStart totalBlocks
      then setSlot (fun _ => zeroInode) 0 (freshInode host 0 rootMode) else fun _ => zeroInode)
  /-- The journal is tagged, and unused. -/
  journal : ∀ block, journalStart totalBlocks ≤ block → block < rootBlock totalBlocks →
    s.mem block = .journal ⟨0, false, .uninitialized⟩
  /-- The root node is an empty node whose value is inode 0. -/
  root : ∃ type, s.mem (rootBlock totalBlocks) =
    .btreeNode { freshNode (rootBlock totalBlocks) false type with value := 0 }
  /-- The blocks up to the root node are allocated and no others. -/
  blocks : ∀ pnum, bitmapPage pnum ≤ bitmapBlocks totalBlocks →
    s.bit pnum = some (decide (pnum ≤ rootBlock totalBlocks))
  /-- Inode 0 is allocated and no other. -/
  inodes : ∀ inode, inode / usableBlockSize < inodeBitmapBlocks totalBlocks →
    bitmapGet (s.mem (1 + bitmapBlocks totalBlocks + inode / usableBlockSize))
      (inode % usableBlockSize) = some (decide (inode = 0))
  /-- The image keeps its size. -/
  totalBlocks : s.totalBlocks = totalBlocks

section

variable {host : Host} {totalBlocks : Nat} {s : Store}

/-- A bit of an empty bitmap page is clear. -/
theorem bitmapGet_empty (position : Nat) :
    bitmapGet (.bitmap fun _ => 0) position = some false := by
  show some (wordBit 0 (position % 64)) = some false
  rw [wordBit_eq _ _ (Nat.mod_lt _ (by decide))]
  simp

/-- No block of tagged regions is allocated. -/
theorem Regions.filled (regions : Regions totalBlocks s)
    (room : rootBlock totalBlocks ≤ totalBlocks) (_ : 0 < totalBlocks) : Filled s 0 := by
  have order : bitmapBlocks totalBlocks < tableStart totalBlocks := by
    unfold tableStart inodeBitmapBlocks
    omega
  have inside : tableStart totalBlocks ≤ rootBlock totalBlocks := by
    unfold rootBlock journalStart
    omega
  have positive : ∀ pnum, 1 ≤ bitmapPage pnum := fun pnum => Nat.le_add_right 1 _
  constructor
  · intro pnum below
    rw [regions.totalBlocks] at below ⊢
    have page := bitmapPage_le below
    exact ⟨by omega, _, regions.bitmaps _ (positive pnum) (by omega)⟩
  · intro pnum page
    rw [regions.totalBlocks] at page
    unfold Store.bit
    rw [regions.bitmaps _ (positive pnum) (by omega), bitmapGet_empty]
    simp

/-- The regions lie one behind the other. -/
theorem Formattable.order (formattable : Formattable totalBlocks) :
    1 + bitmapBlocks totalBlocks < tableStart totalBlocks ∧
      tableStart totalBlocks < journalStart totalBlocks ∧
      journalStart totalBlocks < rootBlock totalBlocks := by
  have room := formattable.room
  have journal := formattable.journal
  have table := formattable.table
  refine ⟨?_, ?_, ?_⟩
  · unfold tableStart inodeBitmapBlocks
    omega
  · unfold journalStart
    omega
  · unfold rootBlock
    omega

/-- The tagged regions with a fresh node in the block of the root. -/
structure Rooted (totalBlocks : Nat) (regions s : Store) (type : Nat) : Prop where
  /-- The root node is fresh. -/
  node : s.mem (rootBlock totalBlocks) = .btreeNode (freshNode (rootBlock totalBlocks) false type)
  /-- The blocks up to it are allocated. -/
  bits : ∀ pnum, bitmapPage pnum ≤ bitmapBlocks totalBlocks →
    s.bit pnum = some (decide (pnum ≤ rootBlock totalBlocks))
  /-- The block bitmap is tagged. -/
  bitmaps : ∀ block, 1 ≤ block → block ≤ bitmapBlocks totalBlocks → ∃ words, s.mem block = .bitmap words
  /-- The other regions are the tagged ones. -/
  other : ∀ block, bitmapBlocks totalBlocks < block → block ≠ rootBlock totalBlocks →
    s.mem block = regions.mem block
  /-- The superblock names the regions. -/
  superblock : ∃ superblock, superblockRead s = some superblock ∧ Initial totalBlocks superblock
  /-- The image keeps its size. -/
  totalBlocks : s.totalBlocks = totalBlocks

/-- `btree_node_new` takes the block of the root. -/
theorem Filled.rooted (formattable : Formattable totalBlocks) {regions : Store}
    (tagged : Regions totalBlocks regions) (kept : KeepsRegions regions s)
    (filled : Filled s (rootBlock totalBlocks)) {former : Superblock}
    (read : superblockRead s = some former) (initial : Initial totalBlocks former) :
    ∃ rooted type, btreeNodeNew s false = some (rootBlock totalBlocks, rooted) ∧
      Rooted totalBlocks regions rooted type := by
  have room := formattable.room
  obtain ⟨bitmapOrder, tableOrder, journalOrder⟩ := formattable.order
  have total : s.totalBlocks = totalBlocks := kept.totalBlocks.trans tagged.totalBlocks
  obtain ⟨taken, alloc, filled1, kept1⟩ := filled.alloc (by omega)
  have total1 : taken.totalBlocks = totalBlocks := kept1.totalBlocks.trans total
  obtain ⟨superblock, read1, size, start⟩ := kept1.superblock former read
  let type := taken.residue.nodeType (taken.mem (rootBlock totalBlocks))
  let rooted := taken.put (rootBlock totalBlocks)
    (.btreeNode (freshNode (rootBlock totalBlocks) false type))
  have new : btreeNodeNew s false = some (rootBlock totalBlocks, rooted) := by
    have inside : rootBlock totalBlocks < taken.totalBlocks := by omega
    have nonzero : rootBlock totalBlocks ≠ 0 := by omega
    simp only [btreeNodeNew, btreeNodeCreate, alloc, nonzero, Store.get_of_lt inside, if_false,
      Option.bind_eq_bind, Option.bind_some]
    rfl
  have low : ∀ block, block ≤ bitmapBlocks totalBlocks → rooted.mem block = taken.mem block :=
    fun block small => Store.put_other _ _ _ _ (by omega)
  refine ⟨rooted, type, new, Store.put_same _ _ _, ?_, ?_, ?_, ⟨superblock, ?_, ?_⟩, total1⟩
  · intro pnum small
    have bits := filled1.bits pnum (by rw [total1]; exact small)
    unfold Store.bit at bits ⊢
    rw [low _ small, bits]
    congr 2
    apply propext
    exact Nat.lt_succ_iff
  · intro block positive small
    have pnum : (block - 1) * usableBlockSize < totalBlocks ∧
        bitmapPage ((block - 1) * usableBlockSize) = block := by
      unfold bitmapBlocks at small
      unfold bitmapPage usableBlockSize
      omega
    obtain ⟨-, words, tag⟩ := filled1.bitmapped _ (by rw [total1]; exact pnum.1)
    rw [pnum.2] at tag
    exact ⟨words, (low block small).trans tag⟩
  · intro block behind notRoot
    rw [Store.put_other _ _ _ _ notRoot, kept1.mem block (by rw [total]; exact behind)]
    apply kept.mem
    rw [tagged.totalBlocks]
    exact behind
  · unfold superblockRead at read1 ⊢
    rw [low 0 (Nat.zero_le _)]
    exact read1
  · exact ⟨size.trans initial.size, start.trans initial.start⟩

/-- The root inode is the first one. -/
theorem Rooted.firstInode {regions : Store} {type : Nat} (rooted : Rooted totalBlocks regions s type)
    (formattable : Formattable totalBlocks) (tagged : Regions totalBlocks regions) :
    ∃ numbered, inodeAllocate host s rootMode true = some (some 0, numbered) ∧
      FirstInode s (1 + bitmapBlocks totalBlocks) (tableStart totalBlocks)
        (freshInode host 0 rootMode) numbered := by
  have room := formattable.room
  have total := rooted.totalBlocks
  obtain ⟨bitmapOrder, tableOrder, journalOrder⟩ := formattable.order
  obtain ⟨superblock, read, initial⟩ := rooted.superblock
  have bitmap : s.mem superblock.inodeBitmap = .bitmap fun _ => 0 := by
    rw [initial.start, rooted.other _ (by omega) (by omega)]
    exact tagged.bitmaps _ (by omega) bitmapOrder
  have table : s.mem (inodePage superblock 0) = .inode fun _ => zeroInode := by
    rw [initial.inodePage, rooted.other _ (by omega) (by omega)]
    exact tagged.table _ (Nat.le_refl _) tableOrder
  obtain ⟨numbered, allocated, first⟩ := inodeAllocate_first host rootMode read bitmap table
    (by rw [initial.start]; omega) (by rw [initial.inodePage]; omega)
  rw [initial.start, initial.inodePage] at first
  exact ⟨numbered, allocated, first⟩

/-- The root node gets its value, and the superblock is written. -/
theorem Rooted.finish {regions numbered : Store} {type : Nat} (rooted : Rooted totalBlocks regions s type)
    (formattable : Formattable totalBlocks)
    (first : FirstInode s (1 + bitmapBlocks totalBlocks) (tableStart totalBlocks)
      (freshInode host 0 rootMode) numbered) (final : Superblock) :
    ∃ valued s', btreeNodeModify numbered (rootBlock totalBlocks) (fun node => { node with value := 0 }) =
        some valued ∧ superblockWrite valued final true = s' ∧ s'.mem 0 = .super final ∧
      s'.mem (rootBlock totalBlocks) =
        .btreeNode { freshNode (rootBlock totalBlocks) false type with value := 0 } ∧
      (∀ block, block ≠ 0 → block ≠ rootBlock totalBlocks → s'.mem block = numbered.mem block) ∧
      s'.totalBlocks = totalBlocks := by
  have room := formattable.room
  obtain ⟨bitmapOrder, tableOrder, journalOrder⟩ := formattable.order
  have total : numbered.totalBlocks = totalBlocks := first.totalBlocks.trans rooted.totalBlocks
  have rootNode : numbered.mem (rootBlock totalBlocks) =
      .btreeNode (freshNode (rootBlock totalBlocks) false type) := by
    rw [first.other _ (by omega) (by omega)]
    exact rooted.node
  let valued := numbered.put (rootBlock totalBlocks)
    (.btreeNode { freshNode (rootBlock totalBlocks) false type with value := 0 })
  have modify : btreeNodeModify numbered (rootBlock totalBlocks) (fun node =>
      { node with value := 0 }) = some valued := by
    have load : btreeNodeLoad numbered (rootBlock totalBlocks) =
        some (freshNode (rootBlock totalBlocks) false type) := by
      have inside : rootBlock totalBlocks < numbered.totalBlocks := by omega
      unfold btreeNodeLoad btreeNodeRead
      rw [Store.get_of_lt inside, rootNode]
      rfl
    rw [btreeNodeModify, load]
    rfl
  have superPage : ∃ content, valued.mem 0 = .super content := by
    obtain ⟨superblock, read, -⟩ := rooted.superblock
    refine ⟨superblock, ?_⟩
    rw [Store.put_other _ _ _ _ (by omega), first.other 0 (by omega) (by omega)]
    exact superblockRead_page read
  obtain ⟨content, superPage⟩ := superPage
  have write : superblockWrite valued final true = (valued.put 0 (.super final)).flush 0 := by
    unfold superblockWrite
    rw [superPage]
    rfl
  refine ⟨valued, _, modify, write, Store.put_same valued 0 (.super final), ?_, ?_, total⟩
  · show (valued.put 0 (.super final)).mem (rootBlock totalBlocks) = _
    rw [Store.put_other _ _ _ _ (by omega)]
    exact Store.put_same _ _ _
  · intro block notZero notRoot
    show (valued.put 0 (.super final)).mem block = _
    rw [Store.put_other _ _ _ _ notZero, Store.put_other _ _ _ _ notRoot]

/-- The root node and its inode complete the layout. -/
theorem Rooted.laid {regions numbered s' : Store} {type : Nat}
    (rooted : Rooted totalBlocks regions s type) (formattable : Formattable totalBlocks)
    (tagged : Regions totalBlocks regions)
    (first : FirstInode s (1 + bitmapBlocks totalBlocks) (tableStart totalBlocks)
      (freshInode host 0 rootMode) numbered) {final : Superblock} (read : s'.mem 0 = .super final)
    (same : Initial totalBlocks final) (start : final.journalStart = journalStart totalBlocks)
    (head : final.journalHead = 0) (root : final.btreeRoot = rootBlock totalBlocks)
    (inode : final.rootInode = 0)
    (node : s'.mem (rootBlock totalBlocks) =
      .btreeNode { freshNode (rootBlock totalBlocks) false type with value := 0 })
    (mem : ∀ block, block ≠ 0 → block ≠ rootBlock totalBlocks → s'.mem block = numbered.mem block)
    (total : s'.totalBlocks = totalBlocks) : Laid host totalBlocks s' := by
  have room := formattable.room
  obtain ⟨bitmapOrder, tableOrder, journalOrder⟩ := formattable.order
  have kept : ∀ block, bitmapBlocks totalBlocks < block → block ≠ rootBlock totalBlocks →
      block ≠ 1 + bitmapBlocks totalBlocks → block ≠ tableStart totalBlocks →
      s'.mem block = regions.mem block := by
    intro block behind notRoot notBitmap notTable
    rw [mem block (by omega) notRoot, first.other block notBitmap notTable,
      rooted.other block behind notRoot]
  have low : ∀ block, 1 ≤ block → block ≤ bitmapBlocks totalBlocks → s'.mem block = s.mem block := by
    intro block positive small
    rw [mem block (by omega) (by omega), first.other block (by omega) (by omega)]
  constructor
  · refine ⟨final, ?_, same.size, same.start, start, head, root, inode⟩
    unfold superblockRead
    rw [read]
  · intro block after before
    by_cases small : block ≤ bitmapBlocks totalBlocks
    · rw [low block after small]
      exact rooted.bitmaps block after small
    · by_cases inodes : block = 1 + bitmapBlocks totalBlocks
      · rw [inodes, mem _ (by omega) (by omega)]
        exact first.page
      · rw [kept block (by omega) (by omega) inodes (by omega)]
        exact ⟨_, tagged.bitmaps block after before⟩
  · intro block after before
    by_cases firstTable : block = tableStart totalBlocks
    · rw [if_pos firstTable, mem block (by omega) (by omega), firstTable]
      exact first.slot
    · rw [if_neg firstTable, kept block (by omega) (by omega) (by omega) firstTable]
      exact tagged.table block after before
  · intro block after before
    rw [kept block (by omega) (by omega) (by omega) (by omega)]
    exact tagged.journal block after before
  · exact ⟨type, node⟩
  · intro pnum small
    have positive : 1 ≤ bitmapPage pnum := Nat.le_add_right 1 _
    have bits := rooted.bits pnum small
    unfold Store.bit at bits ⊢
    rw [low _ positive small, bits]
  · intro inode small
    have tables : tableStart totalBlocks =
        1 + bitmapBlocks totalBlocks + inodeBitmapBlocks totalBlocks := rfl
    by_cases first' : inode / usableBlockSize = 0
    · have same : inode % usableBlockSize = inode := by
        apply Nat.mod_eq_of_lt
        exact (Nat.div_eq_zero_iff.mp first').resolve_left (by decide)
      rw [first', same, Nat.add_zero, mem _ (by omega) (by omega)]
      exact first.bits inode
    · have high : inode ≠ 0 := by
        rintro rfl
        exact first' (Nat.zero_div _)
      have behind : 0 < inode / usableBlockSize := Nat.pos_of_ne_zero first'
      generalize inode / usableBlockSize = page at *
      rw [kept _ (by omega) (by omega) (by omega) (by omega),
        tagged.bitmaps _ (by omega) (by omega), bitmapGet_empty, decide_eq_false high]
  · exact total

/-- The end of the format: with the blocks before the root allocated, the root node, its inode and
the superblock complete the layout. -/
theorem formatRoot_laid (formattable : Formattable totalBlocks) {regions : Store}
    (tagged : Regions totalBlocks regions) (kept : KeepsRegions regions s)
    (filled : Filled s (rootBlock totalBlocks)) {former superblock : Superblock}
    (read : superblockRead s = some former) (initial : Initial totalBlocks former)
    (same : Initial totalBlocks superblock)
    (start : superblock.journalStart = journalStart totalBlocks)
    (head : superblock.journalHead = 0) :
    ∃ s', formatRoot host superblock s = some s' ∧ Laid host totalBlocks s' := by
  obtain ⟨store, type, new, rooted⟩ := Filled.rooted formattable tagged kept filled read initial
  obtain ⟨numbered, allocated, first⟩ := rooted.firstInode formattable tagged
  let final : Superblock := { superblock with rootInode := 0, btreeRoot := rootBlock totalBlocks }
  obtain ⟨valued, s', modify, write, page, node, mem, total⟩ := rooted.finish formattable first final
  refine ⟨s', ?_, rooted.laid formattable tagged first page ⟨same.size, same.start⟩ start head rfl rfl node
    mem total⟩
  unfold formatRoot
  rw [new, Option.bind_eq_bind, Option.bind_some]
  show (inodeAllocate host store rootMode true).bind _ = _
  rw [allocated, Option.bind_some]
  show (btreeNodeModify numbered (rootBlock totalBlocks) (fun node =>
    { node with value := 0 })).bind _ = _
  rw [modify, Option.bind_some]
  exact congrArg some write

/-- The phases of `disk_format` one after the other. -/
theorem diskFormat_phases (host : Host) (residue : Residue) {totalBlocks : Nat}
    (formattable : Formattable totalBlocks) {volumeName : CString}
    (short : volumeName.length ≤ 31) :
    ∃ s, diskFormat host (zeroImage totalBlocks residue) volumeName = some (true, s) ∧
      Laid host totalBlocks s := by
  have room := formattable.room
  have journal := formattable.journal
  obtain ⟨-, -, journalOrder⟩ := formattable.order
  have positive : 1 ≤ journalStart totalBlocks := by
    unfold journalStart tableStart
    omega
  obtain ⟨s1, superblock, init, read, initial, -, total1, zero⟩ :=
    superblockInitialize_zero host residue (show 0 < totalBlocks by omega) short
  obtain ⟨s2, tags, regions, superPage, -⟩ := tagRegions_zero (by omega) initial total1 zero
  have read2 : superblockRead s2 = some superblock := by
    unfold superblockRead at read ⊢
    rw [superPage]
    exact read
  obtain ⟨-, ends, -, journalSize⟩ := initial.ends
  obtain ⟨s3, alloc3, filled3, kept3⟩ :=
    (regions.filled (by omega) (by omega)).alloc (by rw [regions.totalBlocks]; omega)
  have total3 := kept3.totalBlocks.trans regions.totalBlocks
  obtain ⟨s4, alloc4, filled4, kept4⟩ := filled3.allocs (by omega) (journalStart totalBlocks - 1)
    (by rw [total3]; omega)
  have total4 := kept4.totalBlocks.trans total3
  rw [show 0 + 1 + (journalStart totalBlocks - 1) = journalStart totalBlocks by omega] at filled4
  obtain ⟨s5, alloc5, filled5, kept5⟩ := filled4.alloc (by rw [total4]; omega)
  have total5 := kept5.totalBlocks.trans total4
  obtain ⟨s6, alloc6, filled6, kept6⟩ := filled5.allocs (by omega) (journalBlocks totalBlocks - 1)
    (by rw [total5]; unfold rootBlock at room; omega)
  have bound : journalStart totalBlocks + 1 + (journalBlocks totalBlocks - 1) =
      rootBlock totalBlocks := by
    unfold rootBlock
    omega
  rw [bound] at filled6
  have kept := ((kept3.trans kept4).trans kept5).trans kept6
  obtain ⟨former, read6, size, start⟩ := kept.superblock superblock read2
  let named : Superblock :=
    { superblock with journalStart := journalStart totalBlocks, journalHead := 0 }
  have sameRegions : Initial totalBlocks named := ⟨initial.size, initial.start⟩
  obtain ⟨s7, root, laid⟩ := @formatRoot_laid host totalBlocks s6 formattable s2 regions kept filled6
    former named read6 ⟨size.trans initial.size, start.trans initial.start⟩ sameRegions rfl rfl
  refine ⟨s7, ?_, laid⟩
  rw [diskFormat, init, Option.bind_eq_bind, Option.bind_some]
  show (superblockRead s1).bind _ = _
  rw [read, Option.bind_some]
  show (tagRegions superblock s1).bind _ = _
  rw [tags, Option.bind_some]
  show (allocPage s2).bind _ = _
  rw [alloc3, Option.bind_some]
  show (allocPages (tableEnd superblock - 1) s3).bind _ = _
  rw [ends, alloc4, Option.bind_some]
  show (allocPage s4).bind _ = _
  rw [alloc5, Option.bind_some]
  show (allocPages (calculateJournalSize superblock - 1) s5).bind _ = _
  rw [journalSize, alloc6, Option.bind_some]
  show (formatRoot host named s6).bind _ = _
  rw [root]
  rfl

/-- `disk_format` lays out every zeroed image that has a journal, an inode table and room. -/
theorem diskFormat_laid (host : Host) (residue : Residue) {totalBlocks : Nat}
    (formattable : Formattable totalBlocks) {volumeName : CString}
    (short : volumeName.length ≤ 31) :
    ∃ s, diskFormat host (zeroImage totalBlocks residue) volumeName = some (true, s) ∧
      Laid host totalBlocks s :=
  diskFormat_phases host residue formattable short

/-- An image of 200 blocks is laid out. -/
theorem diskFormat_laid_200 :
    ∃ s, diskFormat ⟨1000, 1000, 0⟩ (zeroImage 200 ⟨fun _ => 0, fun _ _ => 0⟩) [] =
      some (true, s) ∧ Laid ⟨1000, 1000, 0⟩ 200 s :=
  diskFormat_laid _ _ ⟨by decide, by decide, by decide⟩ (by decide)

end

end Nbtrfs
