import Nbtrfs.Store.Allocator
import Nbtrfs.Library.LittleEndian

/-!
# The inode code

`inode.c` on the block store. The inode table follows the inode bitmap, with 22 inodes in a
block. A pointer block holds 511 block numbers of eight bytes; there is no result where the code
writes past its last one, writes a number into a block that is no data block, or goes on with a
superblock that a failed read left uninitialised.
-/

namespace Nbtrfs

/-- `sizeof(Inode)`. -/
def inodeSize : Nat := 184

/-- Inodes in a block of the table. -/
def inodesPerPage : Nat := usableBlockSize / inodeSize

/-- `calculate_inode_bitmap_size`. -/
def calculateInodeBitmapSize (superblock : Superblock) : Nat :=
  if superblock.totalBlocks % (4 * usableBlockSize) ≠ 0
  then superblock.totalBlocks / (4 * usableBlockSize) + 1
  else superblock.totalBlocks / (4 * usableBlockSize)

/-- `calculate_inode_table_size`. -/
def calculateInodeTableSize (superblock : Superblock) : Nat :=
  superblock.totalBlocks / 4 / inodesPerPage

/-- `calculate_journal_size`. -/
def calculateJournalSize (superblock : Superblock) : Nat := superblock.totalBlocks / 100

/-- The table block of an inode. -/
def inodePage (superblock : Superblock) (inodeNumber : Nat) : Nat :=
  superblock.inodeBitmap + calculateInodeBitmapSize superblock + inodeNumber / inodesPerPage

/-- The table is where the size and the inode bitmap put it. -/
theorem inodePage_congr {superblock other : Superblock}
    (total : other.totalBlocks = superblock.totalBlocks)
    (start : other.inodeBitmap = superblock.inodeBitmap) (inodeNumber : Nat) :
    inodePage other inodeNumber = inodePage superblock inodeNumber := by
  unfold inodePage calculateInodeBitmapSize
  rw [total, start]

/-- The table does not move when a block is taken. -/
@[simp] theorem inodePage_decrementFree (superblock : Superblock) (inodeNumber : Nat) :
    inodePage superblock.decrementFree inodeNumber = inodePage superblock inodeNumber :=
  inodePage_congr superblock.decrementFree_totalBlocks superblock.decrementFree_inodeBitmap
    inodeNumber

/-- The slots of a table block, with one of them changed. -/
def setSlot (slots : Nat → Inode) (index : Nat) (inode : Inode) : Nat → Inode :=
  fun other => if other = index then inode else slots other

/-- `inode_read`; the inner `none` stands for -1. -/
def inodeRead (s : Store) (inodeNumber : Nat) : Option (Option Inode) := do
  let superblock ← superblockRead s
  match ← s.get (inodePage superblock inodeNumber) with
  | .inode slots => some (some (slots (inodeNumber % inodesPerPage)))
  | _ => some none

/-- An unchecked `inode_read` into an uninitialised inode. -/
def inodeLoad (s : Store) (inodeNumber : Nat) : Option Inode := (inodeRead s inodeNumber).join

/-- An unchecked `inode_read` over an inode, which stays as it is if the read fails. -/
def inodeReload (s : Store) (inodeNumber : Nat) (inode : Inode) : Option Inode :=
  (inodeRead s inodeNumber).map fun read => read.getD inode

/-- `inode_write`: whether it succeeds, and the store after it. -/
def inodeWrite (s : Store) (inode : Inode) (writeThrough : Bool) : Option (Bool × Store) := do
  let superblock ← superblockRead s
  let page := inodePage superblock inode.inodeNumber
  match ← s.get page with
  | .inode slots =>
    let written := s.put page (.inode (setSlot slots (inode.inodeNumber % inodesPerPage) inode))
    some (true, if writeThrough then written.flush page else written)
  | _ => some (false, s)

/-- An `inode_write` whose result is not looked at. -/
def inodeStore (s : Store) (inode : Inode) (writeThrough : Bool) : Option Store :=
  (inodeWrite s inode writeThrough).map Prod.snd

/-- What the calls to the host return. -/
structure Host where
  /-- `getuid()`. -/
  userId : Nat
  /-- `getgid()`. -/
  groupId : Nat
  /-- `time(NULL)`. -/
  time : Nat

/-- The loop of `inode_allocate` from an inode on, with the number of inodes left. -/
def inodeAllocateFrom (host : Host) (s : Store) (superblock : Superblock) (mode : Nat)
    (writeThrough : Bool) : Nat → Nat → Option (Option Nat × Store)
  | 0, _ => none
  | left + 1, ii => do
    let ibmn := superblock.inodeBitmap + ii / usableBlockSize
    let bit := ii % usableBlockSize
    let ibm ← s.get ibmn
    match bitmapGet ibm bit, bitmapPut ibm bit true with
    | some false, some changed => do
      let s := s.put ibmn changed
      match ← inodeRead s ii with
      | none => some (none, s)
      | some inode => do
        let inode := { inode with
          inodeNumber := ii
          mode
          ownerId := host.userId
          groupId := host.groupId
          referenceCount := 1 }
        let (written, s) ← inodeWrite s inode writeThrough
        if written then some (some ii, if writeThrough then s.flush ibmn else s)
        else some (none, s)
    | some true, _ => inodeAllocateFrom host s superblock mode writeThrough left (ii + 1)
    | _, _ => some (none, s)

/-- `inode_allocate`; the inner `none` stands for -1. The walk through the inode bitmap ends at
a block of another type. -/
def inodeAllocate (host : Host) (s : Store) (mode : Nat) (writeThrough : Bool) :
    Option (Option Nat × Store) := do
  let superblock ← superblockRead s
  inodeAllocateFrom host s superblock mode writeThrough ((s.totalBlocks + 1) * usableBlockSize) 0

/-- An inode of zero bytes. -/
def zeroInode : Inode where
  inodeNumber := 0
  mode := 0
  size := 0
  blockCount := 0
  directBlocks _ := 0
  indirectBlock := 0
  doubleIndirectBlock := 0
  creationTime := 0
  modificationTime := 0
  accessTime := 0
  referenceCount := 0
  ownerId := 0
  groupId := 0

/-- `inode_free`, which returns 0 in every case. -/
def inodeFree (s : Store) (inodeNumber : Nat) (writeThrough : Bool) : Option Store := do
  let superblock ← superblockRead s
  let ibmn := superblock.inodeBitmap + inodeNumber / usableBlockSize
  let ibm ← s.get ibmn
  match bitmapPut ibm (inodeNumber % usableBlockSize) false with
  | none => some s
  | some changed => do
    let s := s.put ibmn changed
    let page := inodePage superblock inodeNumber
    match ← s.get page with
    | .inode slots =>
      let s := s.put page (.inode (setSlot slots (inodeNumber % inodesPerPage) zeroInode))
      some (if writeThrough then (s.flush page).flush ibmn else s)
    | _ => some s

/-- `USABLE_BLOCK_SIZE / sizeof(uint64_t)`. -/
def pointersPerPage : Nat := usableBlockSize / 8

/-- The direct pointers of an inode. -/
def directPointers : Nat := 12

/-- The bytes after the tag of a block. -/
def Residue.payload (residue : Residue) : Block → Nat → UInt8
  | .data bytes => bytes
  | .untagged bytes => bytes
  | other => residue.bytes other

/-- The assignment of `BLOCK_TYPE_DATA` to the tag of a block. -/
def Residue.asData (residue : Residue) (block : Block) : Block := .data (residue.payload block)

/-- The block number at an index of a pointer block. -/
def pointerAt (bytes : Nat → UInt8) (index : Nat) : Nat := LittleEndian.load bytes (8 * index) 8

/-- The bytes of a pointer block with another block number at an index. -/
def setPointer (bytes : Nat → UInt8) (index pointer : Nat) : Nat → UInt8 :=
  LittleEndian.store bytes (8 * index) 8 pointer

/-- Read a block number through a pointer into a page, whatever its tag. -/
def readPointer (s : Store) (page index : Nat) : Option Nat := do
  let block ← s.get page
  if index < pointersPerPage then some (pointerAt (s.residue.payload block) index) else none

/-- Assign a block number through a pointer into a data page. -/
def writePointer (s : Store) (page index pointer : Nat) : Option Store := do
  match ← s.get page with
  | .data bytes =>
    if index < pointersPerPage then some (s.put page (.data (setPointer bytes index pointer))) else none
  | _ => none

/-- `write_block` of the content of one page under the number of a block. -/
def writeBlockAs (s : Store) (page pnum : Nat) : Option Store := do
  let content ← s.get page
  if pnum < s.totalBlocks then some (s.put pnum content) else none

/-- `disk_write_block` of the content of one page under the number of a block. -/
def diskWriteBlockAs (s : Store) (page pnum : Nat) : Option Store := do
  let content ← s.get page
  if pnum < s.totalBlocks
  then some { s with disk := fun other => if other = pnum then content else s.disk other }
  else none

/-- Tag a page as a data block. -/
def tagData (s : Store) (pnum : Nat) : Option Store := do
  let block ← s.get pnum
  some (s.put pnum (s.residue.asData block))

/-- The index in the double indirect part as the code computes it, an `int`. -/
def doubleBlockIndex (blockIndex : Nat) : Int :=
  Int.bmod (blockIndex - (pointersPerPage + directPointers)) (2 ^ 32)

/-- The position of an index in the double indirect part: the entry of the double indirect block
and the entry of the block below it. A negative index converts to a huge unsigned one. -/
def doublePosition (blockIndex : Nat) : Int × Nat :=
  let index := ((doubleBlockIndex blockIndex) % (2 ^ 64)).toNat
  (Int.bmod (index / pointersPerPage : Nat) (2 ^ 32), index % pointersPerPage)

/-- The entry of the double indirect block, if it is one of its entries. -/
def doublePage (blockIndex : Nat) : Option Nat :=
  if 0 ≤ (doublePosition blockIndex).1 then some (doublePosition blockIndex).1.toNat else none

/-- `inode_get_block`: whether it succeeds, and what it assigns to `*physical_block`. -/
def inodeGetBlock (s : Store) (inode : Inode) (blockIndex : Nat) : Option (Bool × Option Nat) :=
  if blockIndex < directPointers then
    some (inode.directBlocks blockIndex ≠ 0, some (inode.directBlocks blockIndex))
  else if blockIndex < pointersPerPage then
    if inode.indirectBlock = 0 then some (false, none)
    else do
      match ← s.get inode.indirectBlock with
      | .data bytes => some (true, some (pointerAt bytes (blockIndex - directPointers)))
      | _ => some (false, none)
  else
    if inode.doubleIndirectBlock = 0 then some (false, none)
    else do
      let page ← doublePage blockIndex
      let lower ← readPointer s inode.doubleIndirectBlock page
      let pointer ← readPointer s lower (doublePosition blockIndex).2
      if pointer = 0 then some (false, none) else some (true, some pointer)

/-- The value of a local that `inode_get_block` was given the address of. -/
def assigned (former : Nat) (result : Option Nat) : Nat := result.getD former

/-- A new pointer block: allocated, tagged, in the inode and on the image, and cleared. -/
def newIndirectBlock (s : Store) (inode : Inode) : Option (Bool × Inode × Store) := do
  let (page, s) ← allocPage s
  let inode := { inode with indirectBlock := page }
  if page = 0 then some (false, inode, s)
  else do
    let s ← tagData s page
    let s ← inodeStore s inode true
    let inode ← inodeReload s inode.inodeNumber inode
    let s := s.put page (.data fun _ => 0)
    let s ← writeBlockAs s page inode.indirectBlock
    let s ← diskWriteBlockAs s page inode.indirectBlock
    some (true, inode, s)

/-- Enter a block number into a pointer block and tag the block as data, both on the image, too. -/
def linkPointer (s : Store) (pointers index physicalBlock : Nat) : Option Store := do
  let s ← writePointer s pointers index physicalBlock
  let s ← diskWriteBlockAs s pointers pointers
  let s ← tagData s physicalBlock
  diskWriteBlockAs s physicalBlock physicalBlock

/-- The single indirect part of `inode_set_block`. -/
def inodeSetIndirect (s : Store) (inode : Inode) (blockIndex physicalBlock : Nat) :
    Option (Bool × Inode × Store) := do
  let s ←
    if blockIndex = directPointers ∧ physicalBlock = 0 ∧ inode.indirectBlock ≠ 0
    then freePage s inode.indirectBlock else some s
  let (ready, inode, s) ←
    if inode.indirectBlock = 0 then newIndirectBlock s inode else some (true, inode, s)
  if !ready then some (false, inode, s)
  else do
    let s ← linkPointer s inode.indirectBlock (blockIndex - directPointers) physicalBlock
    some (true, inode, s)

/-- A new double indirect block. It is written under the number of the single indirect one. -/
def newDoubleIndirectBlock (s : Store) (inode : Inode) : Option (Bool × Inode × Store) := do
  let (page, s) ← allocPage s
  let inode := { inode with doubleIndirectBlock := page }
  if page = 0 then some (false, inode, s)
  else do
    let s ← tagData s page
    let s ← inodeStore s inode true
    let inode ← inodeReload s inode.inodeNumber inode
    let s := s.put page (.data fun _ => 0)
    let s ← writeBlockAs s page inode.indirectBlock
    let s ← diskWriteBlockAs s page inode.indirectBlock
    some (true, inode, s)

/-- The releases in the double indirect part of `inode_set_block`. -/
def freeDoublePages (s : Store) (inode : Inode) (page pageIndex physicalBlock : Nat) :
    Option Store :=
  if pageIndex = 0 ∧ physicalBlock = 0 then do
    let s ←
      if inode.doubleIndirectBlock ≠ 0 then do
        let lower ← readPointer s inode.doubleIndirectBlock page
        if lower ≠ 0 then freePage s lower else some s
      else some s
    if page = 0 then freePage s inode.doubleIndirectBlock else some s
  else some s

/-- The double indirect part of `inode_set_block`, which never returns 0. -/
def inodeSetDouble (s : Store) (inode : Inode) (blockIndex physicalBlock : Nat) :
    Option (Bool × Inode × Store) := do
  let page ← doublePage blockIndex
  let pageIndex := (doublePosition blockIndex).2
  let s ← freeDoublePages s inode page pageIndex physicalBlock
  let (ready, inode, s) ←
    if inode.doubleIndirectBlock = 0 then newDoubleIndirectBlock s inode else some (true, inode, s)
  if !ready then some (false, inode, s)
  else do
    let lower ← readPointer s inode.doubleIndirectBlock page
    let (lower, s) ←
      if lower = 0 then do
        let (fresh, s) ← allocPage s
        let s ← writePointer s inode.doubleIndirectBlock page fresh
        if fresh = 0 then some (0, s)
        else do
          let s ← tagData s fresh
          let s ← diskWriteBlockAs s fresh inode.indirectBlock
          some (fresh, s)
      else some (lower, s)
    if lower = 0 then some (false, inode, s)
    else do
      let s ← writePointer s lower pageIndex physicalBlock
      let s ← writeBlockAs s lower physicalBlock
      let s ← diskWriteBlockAs s lower inode.indirectBlock
      some (false, inode, s)

/-- An inode with another direct pointer. -/
def Inode.withDirect (inode : Inode) (index physicalBlock : Nat) : Inode :=
  { inode with directBlocks := fun other =>
      if other = index then physicalBlock else inode.directBlocks other }

/-- `inode_set_block`: whether it succeeds, the inode and the store after it. -/
def inodeSetBlock (s : Store) (inode : Inode) (blockIndex physicalBlock : Nat) :
    Option (Bool × Inode × Store) :=
  if blockIndex < directPointers then do
    let inode := inode.withDirect blockIndex physicalBlock
    let s ← inodeStore s inode true
    some (true, inode, s)
  else if blockIndex ≤ pointersPerPage + directPointers then
    inodeSetIndirect s inode blockIndex physicalBlock
  else inodeSetDouble s inode blockIndex physicalBlock

end Nbtrfs
