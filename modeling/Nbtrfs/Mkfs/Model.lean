import Nbtrfs.Inode.Model
import Nbtrfs.BTree.Model

/-!
# Formatting

`disk_format` and what it calls, on an image whose blocks carry no tag, such as a zeroed file.
The cache is compiled out of `mkfs`, so the pages are the image. A block keeps its bytes when it
is tagged, and the structures read from them stand at the offsets of the C structures.
-/

namespace Nbtrfs

/-- A 64-bit field at an offset. -/
def field64 (bytes : Nat → UInt8) (offset : Nat) : Nat := LittleEndian.load bytes offset 8

/-- A 32-bit field at an offset. -/
def field32 (bytes : Nat → UInt8) (offset : Nat) : Nat := LittleEndian.load bytes offset 4

/-- A C string in an array of some length. -/
def stringAt (bytes : Nat → UInt8) (offset length : Nat) : CString :=
  ((List.range length).map fun index => bytes (offset + index)).takeWhile (· ≠ 0)

/-- An `Inode` at an offset. -/
def inodeAt (bytes : Nat → UInt8) (offset : Nat) : Inode where
  inodeNumber := field64 bytes offset
  mode := field32 bytes (offset + 8)
  size := field64 bytes (offset + 16)
  blockCount := field64 bytes (offset + 24)
  directBlocks index := field64 bytes (offset + 32 + 8 * index)
  indirectBlock := field64 bytes (offset + 128)
  doubleIndirectBlock := field64 bytes (offset + 136)
  creationTime := field64 bytes (offset + 144)
  modificationTime := field64 bytes (offset + 152)
  accessTime := field64 bytes (offset + 160)
  referenceCount := field64 bytes (offset + 168)
  ownerId := field32 bytes (offset + 176)
  groupId := field32 bytes (offset + 180)

/-- The `Superblock` of a block. -/
def superblockAt (bytes : Nat → UInt8) : Superblock where
  magicNumber := field64 bytes 0
  blockSize := field64 bytes 8
  totalBlocks := field64 bytes 16
  freeBlocks := field64 bytes 24
  inodeBitmap := field64 bytes 32
  rootInode := field64 bytes 40
  btreeRoot := field64 bytes 48
  journalStart := field64 bytes 56
  journalHead := field64 bytes 64
  volumeName := stringAt bytes 72 32
  creationTime := field64 bytes 104
  lastMountTime := field64 bytes 112

/-- The bitmap that a block without a tag becomes. -/
def Block.asBitmap : Block → Option Block
  | .untagged bytes => some (.bitmap fun word => BitVec.ofNat 64 (field64 bytes (8 * word)))
  | _ => none

/-- The inode table block that a block without a tag becomes. -/
def Block.asInode : Block → Option Block
  | .untagged bytes => some (.inode fun slot => inodeAt bytes (inodeSize * slot))
  | _ => none

/-- The journal block that a block without a tag becomes, with `UNINITIALIZED` assigned. -/
def Block.asJournal : Block → Option Block
  | .untagged bytes => some (.journal ⟨field64 bytes 8, bytes 16 ≠ 0, .uninitialized⟩)
  | _ => none

/-- Tag the blocks from a first one on. -/
def tagBlocks (tag : Block → Option Block) : Nat → Nat → Store → Option Store
  | 0, _, s => some s
  | left + 1, i, s => do
    let block ← s.get i
    let tagged ← tag block
    tagBlocks tag left (i + 1) (s.put i tagged)

/-- The magic number of the file system. -/
def magicNumber : Nat := 0x53465452424e

/-- The blocks of the block bitmap. -/
def blockBitmapSpace (totalBlocks : Nat) : Nat :=
  if totalBlocks % usableBlockSize ≠ 0 then totalBlocks / usableBlockSize + 1
  else totalBlocks / usableBlockSize

/-- `superblock_initialize`. A volume name that is too long leaves block 0 without a tag. -/
def superblockInitialize (host : Host) (s : Store) (volumeName : CString) : Option Store := do
  if 31 < volumeName.length then none
  else
    match ← s.get 0 with
    | .untagged bytes =>
      some (s.put 0 (.super { superblockAt bytes with
        magicNumber
        blockSize
        totalBlocks := s.totalBlocks
        freeBlocks := s.totalBlocks
        inodeBitmap := 1 + blockBitmapSpace s.totalBlocks
        volumeName
        creationTime := host.time }))
    | _ => none

/-- A number of `alloc_page` calls that must succeed. -/
def allocPages : Nat → Store → Option (Bool × Store)
  | 0, s => some (true, s)
  | left + 1, s => do
    let (page, s) ← allocPage s
    if page = 0 then some (false, s) else allocPages left s

/-- `S_IFDIR | 0755`. -/
def rootMode : Nat := fileTypeDirectory + 0o755

/-- The end of the inode bitmap. -/
def bitmapEnd (superblock : Superblock) : Nat :=
  superblock.inodeBitmap + calculateInodeBitmapSize superblock

/-- The end of the inode table. -/
def tableEnd (superblock : Superblock) : Nat :=
  bitmapEnd superblock + calculateInodeTableSize superblock

/-- The tags of the bitmaps, the inode table and the journal. -/
def tagRegions (superblock : Superblock) (s : Store) : Option Store := do
  let s ← tagBlocks Block.asBitmap (bitmapEnd superblock - 1) 1 s
  let s ← tagBlocks Block.asInode (calculateInodeTableSize superblock) (bitmapEnd superblock) s
  tagBlocks Block.asJournal (calculateJournalSize superblock) (tableEnd superblock) s

/-- The end of `disk_format`: the root node, its inode and the superblock. -/
def formatRoot (host : Host) (superblock : Superblock) (s : Store) : Option Store := do
  let (page, s) ← btreeNodeNew s false
  let (inode, s) ← inodeAllocate host s rootMode true
  let value := inode.getD (2 ^ 64 - 1)
  let s ← btreeNodeModify s page fun node => { node with value }
  some (superblockWrite s { superblock with rootInode := value, btreeRoot := page } true)

/-- `disk_format`: whether it succeeds, and the image after it. -/
def diskFormat (host : Host) (s : Store) (volumeName : CString) : Option (Bool × Store) := do
  let s ← superblockInitialize host s volumeName
  let superblock ← superblockRead s
  let s ← tagRegions superblock s
  let (_, s) ← allocPage s
  let (ready, s) ← allocPages (tableEnd superblock - 1) s
  if !ready then some (false, s)
  else do
    let (journalStart, s) ← allocPage s
    let (ready, s) ← allocPages (calculateJournalSize superblock - 1) s
    if !ready then some (false, s)
    else do
      let s ← formatRoot host { superblock with journalStart, journalHead := 0 } s
      some (true, s)

/-- An image of zero bytes. -/
def zeroImage (totalBlocks : Nat) (residue : Residue) : Store where
  totalBlocks
  mem _ := .untagged fun _ => 0
  disk _ := .untagged fun _ => 0
  residue

/-- The image as it is mounted: the pages are read from it. -/
def mounted (s : Store) : Store := { s with disk := s.mem }

end Nbtrfs
