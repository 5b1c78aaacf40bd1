import Nbtrfs.Config

/-!
# Blocks and the block store

The content of a block by its type tag, and the store of blocks that the file system works on.
`Store.get` is `get_block`: the cache answers as an array of blocks, so a page is what was last
written through it. `disk` is the image under the cache, which `disk_write_block` writes.
An access past the end of the image has no result.

A block keeps its bytes when only its tag is assigned. Where the code reads such bytes under
the new type, the model takes them from `Residue`, as a function of the former block.
-/

namespace Nbtrfs

/-- C strings without the final NUL. -/
abbrev CString := List UInt8

/-- `Superblock`. -/
structure Superblock where
  /-- File system identifier. -/
  magicNumber : Nat
  /-- Size of each block. -/
  blockSize : Nat
  /-- Total blocks in the file system. -/
  totalBlocks : Nat
  /-- Number of free blocks. -/
  freeBlocks : Nat
  /-- Location of the start of the inode bitmap. -/
  inodeBitmap : Nat
  /-- Root directory inode number. -/
  rootInode : Nat
  /-- Root of the B-tree index. -/
  btreeRoot : Nat
  /-- First page of the journal. -/
  journalStart : Nat
  /-- Position of the next journal entry, relative to the start. -/
  journalHead : Nat
  /-- Volume label. -/
  volumeName : CString
  /-- Creation timestamp. -/
  creationTime : Nat
  /-- Last mount timestamp. -/
  lastMountTime : Nat

/-- `Inode`. -/
structure Inode where
  /-- Inode identifier. -/
  inodeNumber : Nat
  /-- File type and permissions. -/
  mode : Nat
  /-- File size in bytes. -/
  size : Nat
  /-- Number of blocks used. -/
  blockCount : Nat
  /-- The twelve direct block pointers. -/
  directBlocks : Nat → Nat
  /-- Single indirect block pointer. -/
  indirectBlock : Nat
  /-- Double indirect block pointer. -/
  doubleIndirectBlock : Nat
  /-- Creation timestamp. -/
  creationTime : Nat
  /-- Last modification timestamp. -/
  modificationTime : Nat
  /-- Last access timestamp. -/
  accessTime : Nat
  /-- Hard link count. -/
  referenceCount : Nat
  /-- Owner user ID. -/
  ownerId : Nat
  /-- Group ID. -/
  groupId : Nat

/-- `BTreeNode`. The arrays have `maxKeys` keys and one more child. -/
structure BTreeNode where
  /-- The block where the node is stored. -/
  blockNumber : Nat
  /-- Whether the node is a leaf. -/
  isLeaf : Bool
  /-- File type of the entry. -/
  type : Nat
  /-- Key of a leaf. -/
  key : Nat
  /-- Value of a leaf, or of a directory root. -/
  value : Nat
  /-- Number of keys, a `uint16_t`. -/
  numKeys : Nat
  /-- Separator keys. -/
  keys : Nat → Nat
  /-- Child blocks, 0 for none. -/
  children : Nat → Nat
  /-- Parent block, 0 for a root. -/
  parent : Nat
  /-- Left sibling block. -/
  leftSibling : Nat
  /-- Right sibling block. -/
  rightSibling : Nat

/-- The union of `journal_entry_t`, by `transaction_type_t`. -/
inductive Transaction where
  /-- `UNINITIALIZED`. -/
  | uninitialized
  /-- `MKNOD`. -/
  | mknod (path : CString) (mode btreeBlock inodeNumber : Nat)
  /-- `UNLINK`. -/
  | unlink (path : CString)
  /-- `LINK`. -/
  | link (source target : CString)
  /-- `CHMOD`. -/
  | chmod (path : CString) (mode : Nat)
  /-- `TRUNCATE`. -/
  | truncate (path : CString) (size : Nat)
  /-- `WRITE`. -/
  | write (inodeNumber blockIndex physicalBlock size : Nat)
  /-- `RENAME`. -/
  | rename (source target : CString)

/-- `journal_entry_t`. -/
structure JournalEntry where
  /-- The journal block of the entry. -/
  blockNumber : Nat
  /-- Whether the entry was applied. -/
  synced : Bool
  /-- The logged operation. -/
  transaction : Transaction

/-- A block, by its `block_type_t` tag. -/
inductive Block where
  /-- `BLOCK_TYPE_SUPER`. -/
  | super (superblock : Superblock)
  /-- `BLOCK_TYPE_BITMAP`, in 64-bit words. -/
  | bitmap (words : Nat → BitVec 64)
  /-- `BLOCK_TYPE_INODE`, by slot. -/
  | inode (slots : Nat → Inode)
  /-- `BLOCK_TYPE_BTREE_NODE`. -/
  | btreeNode (node : BTreeNode)
  /-- `BLOCK_TYPE_JOURNAL`. -/
  | journal (entry : JournalEntry)
  /-- `BLOCK_TYPE_DATA`, by byte. -/
  | data (bytes : Nat → UInt8)
  /-- Any other tag, by byte. -/
  | untagged (bytes : Nat → UInt8)

/-- What the former content of a block reads as under a new tag. -/
structure Residue where
  /-- The `type` field of a new B-tree node, which `btree_node_create` does not assign. -/
  nodeType : Block → Nat
  /-- The payload of a block that becomes a data block. -/
  bytes : Block → Nat → UInt8

/-- The blocks that the file system works on. -/
structure Store where
  /-- Number of blocks in the image. -/
  totalBlocks : Nat
  /-- The pages that `get_block` returns. -/
  mem : Nat → Block
  /-- The image under the cache. -/
  disk : Nat → Block
  /-- How former content reads. -/
  residue : Residue

/-- `get_block`. -/
def Store.get (s : Store) (pnum : Nat) : Option Block :=
  if pnum < s.totalBlocks then some (s.mem pnum) else none

/-- Assign the page of a block. -/
def Store.put (s : Store) (pnum : Nat) (block : Block) : Store :=
  { s with mem := fun other => if other = pnum then block else s.mem other }

/-- `disk_write_block` of a block's page. -/
def Store.flush (s : Store) (pnum : Nat) : Store :=
  { s with disk := fun other => if other = pnum then s.mem pnum else s.disk other }

/-- The page that is put. -/
@[simp] theorem Store.put_same (s : Store) (pnum : Nat) (block : Block) :
    (s.put pnum block).mem pnum = block := by simp [Store.put]

/-- The other pages are kept. -/
@[simp] theorem Store.put_other (s : Store) (pnum other : Nat) (block : Block)
    (distinct : other ≠ pnum) : (s.put pnum block).mem other = s.mem other := by
  simp [Store.put, distinct]

/-- A put keeps the size of the image. -/
@[simp] theorem Store.put_totalBlocks (s : Store) (pnum : Nat) (block : Block) :
    (s.put pnum block).totalBlocks = s.totalBlocks := rfl

/-- A flush keeps the pages. -/
@[simp] theorem Store.flush_mem (s : Store) (pnum : Nat) : (s.flush pnum).mem = s.mem := rfl

/-- An access inside the image returns the page. -/
theorem Store.get_of_lt {s : Store} {pnum : Nat} (inside : pnum < s.totalBlocks) :
    s.get pnum = some (s.mem pnum) := if_pos inside

/-- A page that is returned is a block of the image. -/
theorem Store.get_eq_some {s : Store} {pnum : Nat} {block : Block}
    (get : s.get pnum = some block) : pnum < s.totalBlocks ∧ s.mem pnum = block := by
  unfold Store.get at get
  split at get
  case isTrue inside => exact ⟨inside, Option.some.inj get⟩
  case isFalse => cases get

end Nbtrfs
