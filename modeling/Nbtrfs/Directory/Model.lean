import Nbtrfs.Namespace.Path
import Nbtrfs.Inode.Model
import Nbtrfs.Library.Overlay

/-!
# Directories

`directory.c` on the block store. The blocks of a directory hold entries of 280 bytes; the first
block holds the number of entries in front of them. Appending to the journal is a parameter.
There is no result where a name is longer than its field, where a block loses its data tag while
an entry is written into it, or where a B-tree node that could not be created is used.
-/

namespace Nbtrfs

/-- What the uninitialised parts of local variables hold, by the store they are declared in. -/
structure Locals where
  /-- The `synced` flag of a `WRITE` entry. -/
  synced : Store → Bool
  /-- The size in a `WRITE` entry of a directory. -/
  size : Store → Nat
  /-- The bytes of `new_file`. -/
  newFile : Store → Nat → UInt8

/-- Appending an entry to the journal. -/
abbrev Append := JournalEntry → Store → Option Store

/-- `NAME_MAX`. -/
def nameMax : Nat := 256

/-- `sizeof(DirEntry)`. -/
def dirEntrySize : Nat := 280

/-- `sizeof(DirectoryBlock)`. -/
def directoryBlockSize : Nat := 2

/-- The place of `name` in an entry. -/
def nameOffset : Nat := 16

/-- The place of `active` in an entry. -/
def activeOffset : Nat := 272

/-- `DirEntry`. -/
structure DirEntry where
  /-- Inode number of the entry. -/
  inodeNumber : Nat
  /-- B-tree block number, if a directory. -/
  btreeBlock : Nat
  /-- Name of the entry. -/
  name : CString
  /-- Is this directory entry active? -/
  active : Bool
deriving DecidableEq

/-- Where an entry of a directory block begins, behind the tag. -/
def entryOffset (i j : Nat) : Nat := (if i = 0 then directoryBlockSize else 0) + dirEntrySize * j

/-- `UINT16_MAX`, the bound on the blocks that a scan goes through. -/
def scanBlocks : Nat := 2 ^ 16 - 1

/-- Entries of a block that `directory_add_entry` uses: all but the last one. -/
def addSlots (i : Nat) : Nat :=
  (if i = 0 then (usableBlockSize - directoryBlockSize) / dirEntrySize
    else usableBlockSize / dirEntrySize) - 1

/-- Entries of a block that `directory_remove_entry` and `directory_exists_entry` compare. -/
def scanSlots : Nat := (usableBlockSize - directoryBlockSize) / dirEntrySize - 1

/-- Entries of a block that `directory_list` looks at. -/
def listSlots : Nat := usableBlockSize / dirEntrySize

/-- The `active` flag of an entry. -/
def entryActive (bytes : Nat → UInt8) (offset : Nat) : Bool := bytes (offset + activeOffset) ≠ 0

/-- `strcmp` of the name of an entry with a name, if they are equal. -/
def nameMatches (bytes : Nat → UInt8) (offset : Nat) (name : CString) : Bool :=
  segment bytes (offset + nameOffset) (name.length + 1) = name ++ [0]

/-- The inode number of an entry. -/
def entryInode (bytes : Nat → UInt8) (offset : Nat) : Nat := LittleEndian.load bytes offset 8

/-- A copy of an entry. -/
def readEntry (bytes : Nat → UInt8) (offset : Nat) : DirEntry where
  inodeNumber := entryInode bytes offset
  btreeBlock := LittleEndian.load bytes (offset + 8) 8
  name := (segment bytes (offset + nameOffset) nameMax).takeWhile (· ≠ 0)
  active := entryActive bytes offset

/-- `new_file`, with a B-tree block for a directory. -/
def newFile (former : Nat → UInt8) (inodeNumber : Nat) (btreeBlock : Option Nat) (name : CString) :
    Nat → UInt8 :=
  let entry := LittleEndian.store former 0 8 inodeNumber
  let entry := overlay entry nameOffset (name ++ [0])
  let entry := overlay entry activeOffset [1]
  match btreeBlock with
  | none => entry
  | some btreeBlock => LittleEndian.store entry 8 8 btreeBlock

/-- `entry_count` of the first block. -/
def entryCount (bytes : Nat → UInt8) : Nat := LittleEndian.load bytes 0 directoryBlockSize

/-- Assign bytes through a pointer into a data page. -/
def writeBytes (s : Store) (page offset : Nat) (piece : List UInt8) : Option Store := do
  match ← s.get page with
  | .data bytes => some (s.put page (.data (overlay bytes offset piece)))
  | _ => none

/-- Assign `entry_count` through a pointer into a data page. -/
def setEntryCount (s : Store) (page count : Nat) : Option Store := do
  match ← s.get page with
  | .data bytes => some (s.put page (.data (LittleEndian.store bytes 0 directoryBlockSize count)))
  | _ => none

/-- The first block of a directory as `inode_get_block` assigns it over another number. -/
def firstBlock (s : Store) (node : Inode) (former : Nat) : Option Nat := do
  let (_, block) ← inodeGetBlock s node 0
  some (assigned former block)

/-- Assign `entry_count` and write the first block of a directory to the image. -/
def storeEntryCount (s : Store) (node : Inode) (former count : Nat) (writeThrough : Bool) :
    Option Store := do
  let block ← firstBlock s node former
  let s ← setEntryCount s block count
  if writeThrough then diskWriteBlockAs s block block else some s

/-- Whether a search of a directory's path found one. -/
def InodeBtreePair.isDirectory (pair : InodeBtreePair) (path : CString) : Bool :=
  pair.inodeNumber ≠ 0 || path = [slash]

/-- The block at an index of a directory, 0 for none. A missing one is allocated, mapped, tagged
and logged; the rest of its content stays. -/
def directoryBlockAt (append : Append) (locals : Locals) (s : Store) (node : Inode) (i : Nat)
    (writeThrough : Bool) : Option (Nat × Inode × Store) := do
  let (_, mapped) ← inodeGetBlock s node i
  if assigned 0 mapped ≠ 0 then some (assigned 0 mapped, node, s)
  else do
    let (block, s) ← allocPage s
    if block = 0 then some (0, node, s)
    else do
      let (_, node, s) ← inodeSetBlock s node i block
      let s ← tagData s block
      let s ← inodeStore s node writeThrough
      let s ← append
        { blockNumber := 0
          synced := locals.synced s
          transaction := .write node.inodeNumber i block (locals.size s) } s
      let s ← if i = 0 then setEntryCount s block 0 else some s
      some (block, node, s)

/-- The loop of `directory_add_entry` over the entries of a block, with the number of entries left:
the entry to use, if any, and the active entries counted. -/
def addSlot (bytes : Nat → UInt8) (i numberOfEntries : Nat) : Nat → Nat → Nat → Option Nat × Nat
  | 0, _, count => (none, count)
  | left + 1, j, count =>
    if !entryActive bytes (entryOffset i j) || count = numberOfEntries then (some j, count)
    else addSlot bytes i numberOfEntries left (j + 1) ((count + 1) % 2 ^ 16)

/-- Enter a name into the B-tree of its directory: the B-tree block of a new directory, and the
store after it. `btree_insert` returns 0 in every case. -/
def insertName (s : Store) (btreeBlock : Nat) (name : CString) (targetInode type : Nat) :
    Option (Option Nat × Store) :=
  if type = fileTypeDirectory then do
    let (dirRootPage, s) ← btreeNodeNew s false
    let s ← btreeNodeModify s dirRootPage fun node =>
      { node with value := targetInode, type := fileTypeDirectory }
    let s ← btreeInsert s btreeBlock (pathHash name) dirRootPage type
    some (some dirRootPage, s)
  else do
    let s ← btreeInsert s btreeBlock (pathHash name) targetInode type
    some (none, s)

/-- The use of an entry in `directory_add_entry`, with the number of entries after it. -/
def placeEntry (locals : Locals) (s : Store) (pair : InodeBtreePair) (node : Inode)
    (block offset numberOfEntries : Nat) (name : CString) (targetInode type : Nat) :
    Option Store := do
  let former := locals.newFile s
  let (btreeBlock, s) ← insertName s pair.btreeBlock name targetInode type
  let s ← writeBytes s block offset
    (segment (newFile former targetInode btreeBlock name) 0 dirEntrySize)
  let s ← diskWriteBlockAs s block block
  let s ← storeEntryCount s node block numberOfEntries true
  btreeWrite s pair.btreeBlock

/-- The loop of `directory_add_entry` over blocks, with the number of blocks left: whether it
succeeds, and the store after it. -/
def addEntryFrom (append : Append) (locals : Locals) (pair : InodeBtreePair) (name : CString)
    (targetInode type : Nat) (writeThrough : Bool) :
    Nat → Nat → Inode → Nat → Nat → Store → Option (Bool × Store)
  | 0, _, _, _, _, s => some (false, s)
  | left + 1, i, node, numberOfEntries, count, s => do
    let (block, node, s) ← directoryBlockAt append locals s node i writeThrough
    if block = 0 then some (false, s)
    else
      match ← s.get block with
      | .data bytes =>
        let numberOfEntries := if i = 0 then entryCount bytes else numberOfEntries
        match addSlot bytes i numberOfEntries (addSlots i) 0 count with
        | (some j, _) => do
          let s ← placeEntry locals s pair node block (entryOffset i j)
            ((numberOfEntries + 1) % 2 ^ 16) name targetInode type
          some (true, s)
        | (none, count) =>
          addEntryFrom append locals pair name targetInode type writeThrough left (i + 1) node
            numberOfEntries count s
      | _ => some (false, s)

/-- `directory_add_entry`: whether it returns 0, and the store after it. -/
def directoryAddEntry (append : Append) (locals : Locals) (s : Store) (path name : CString)
    (targetInode type : Nat) (writeThrough : Bool) : Option (Bool × Store) := do
  let pair ← itemSearch s path
  if nameMax ≤ name.length then none
  else if pair.isDirectory path then do
    let node ← inodeReload s pair.inodeNumber zeroInode
    addEntryFrom append locals pair name targetInode type writeThrough scanBlocks 0 node 0 0 s
  else some (false, s)

/-- The loop over the entries of a block that looks for an accepted one, with the number of entries
left: the entry, if any, and the active entries counted. The first entry of a block is not
counted. -/
def scanSlot (accept : Nat → Bool) (bytes : Nat → UInt8) (i : Nat) : Nat → Nat → Nat → Option Nat × Nat
  | 0, _, count => (none, count)
  | left + 1, j, count =>
    if accept (entryOffset i j) then (some j, count)
    else scanSlot accept bytes i left (j + 1)
      (if entryActive bytes (entryOffset i (j + 1)) then (count + 1) % 2 ^ 16 else count)

/-- The comparison of `number_of_entries`, an `int16_t`, with `count`. -/
def countReached (numberOfEntries count : Nat) : Bool :=
  numberOfEntries = count && numberOfEntries < 2 ^ 15

/-- The removal of the name of a freed inode from the B-tree of its directory. -/
def removeName (s : Store) (btreeBlock : Nat) (name : CString) (writeThrough : Bool) :
    Option Store := do
  let treeNodeBlock ← btreeSearch s btreeBlock (pathHash name)
  let s ←
    if treeNodeBlock ≠ 0 then do
      let (_, s) ← btreeDelete s btreeBlock (pathHash name)
      btreeWrite s btreeBlock
    else some s
  if writeThrough then btreeWrite s btreeBlock else some s

/-- The match of `directory_remove_entry`: the inode of the entry as it is read over a former one,
and the store after it. -/
def deactivateEntry (s : Store) (pair : InodeBtreePair) (dirNode fileNode : Inode)
    (block offset numberOfEntries : Nat) (bytes : Nat → UInt8) (name : CString)
    (writeThrough : Bool) : Option (Inode × Store) := do
  let s ← writeBytes s block (offset + activeOffset) [0]
  let inodeNumber := entryInode bytes offset
  let fileNode ← inodeReload s inodeNumber fileNode
  let s ←
    if fileNode.referenceCount = 1 then do
      let s ← inodeFree s inodeNumber writeThrough
      removeName s pair.btreeBlock name writeThrough
    else some s
  let s ← diskWriteBlockAs s block block
  let s ← storeEntryCount s dirNode block numberOfEntries writeThrough
  some (fileNode, s)

/-- The loop of `directory_remove_entry` over blocks, with the number of blocks left: whether an
entry was found, and the store after it. It goes on behind a match. -/
def removeEntryFrom (pair : InodeBtreePair) (dirNode : Inode) (name : CString)
    (writeThrough : Bool) :
    Nat → Nat → Inode → Nat → Nat → Bool → Store → Option (Bool × Store)
  | 0, _, _, _, _, found, s => some (found, s)
  | left + 1, i, fileNode, numberOfEntries, count, found, s => do
    let (_, mapped) ← inodeGetBlock s dirNode i
    let block := assigned 0 mapped
    if block = 0 then some (found, s)
    else
      match ← s.get block with
      | .data bytes =>
        let numberOfEntries := if i = 0 then entryCount bytes else numberOfEntries
        if countReached numberOfEntries count then some (found, s)
        else
          match scanSlot (nameMatches bytes · name) bytes i scanSlots 0 count with
          | (some j, count) => do
            let numberOfEntries := (numberOfEntries + (2 ^ 16 - 1)) % 2 ^ 16
            let (fileNode, s) ← deactivateEntry s pair dirNode fileNode block (entryOffset i j)
              numberOfEntries bytes name writeThrough
            removeEntryFrom pair dirNode name writeThrough left (i + 1) fileNode numberOfEntries
              count true s
          | (none, count) =>
            removeEntryFrom pair dirNode name writeThrough left (i + 1) fileNode numberOfEntries
              count found s
      | _ => some (found, s)

/-- `directory_remove_entry`: whether it returns 0, and the store after it. -/
def directoryRemoveEntry (s : Store) (path name : CString) (writeThrough : Bool) :
    Option (Bool × Store) := do
  let pair ← itemSearch s path
  if pair.isDirectory path then do
    let dirNode ← inodeReload s pair.inodeNumber zeroInode
    removeEntryFrom pair dirNode name writeThrough scanBlocks 0 zeroInode 0 0 false s
  else some (false, s)

/-- The loop of `directory_exists_entry` over blocks, with the number of blocks left. -/
def existsEntryFrom (s : Store) (dirNode : Inode) (name : CString) :
    Nat → Nat → Nat → Nat → Option (Option DirEntry)
  | 0, _, _, _ => some none
  | left + 1, i, numberOfEntries, count => do
    let (_, mapped) ← inodeGetBlock s dirNode i
    let block := assigned 0 mapped
    if block = 0 then some none
    else
      match ← s.get block with
      | .data bytes =>
        let numberOfEntries := if i = 0 then entryCount bytes else numberOfEntries
        if countReached numberOfEntries count then some none
        else
          match scanSlot (fun offset => nameMatches bytes offset name && entryActive bytes offset)
            bytes i scanSlots 0 count with
          | (some j, _) => some (some (readEntry bytes (entryOffset i j)))
          | (none, count) => existsEntryFrom s dirNode name left (i + 1) numberOfEntries count
      | _ => some none

/-- `directory_exists_entry`: the entry that it copies, if it returns true. -/
def directoryExistsEntry (s : Store) (path name : CString) : Option (Option DirEntry) := do
  let pair ← itemSearch s path
  if pair.isDirectory path then do
    let dirNode ← inodeReload s pair.inodeNumber zeroInode
    existsEntryFrom s dirNode name scanBlocks 0 0 0
  else some none

/-- The loop of `directory_list` over the entries of a block, with the number of entries left. -/
def listSlot (bytes : Nat → UInt8) (i entryCount : Nat) :
    Nat → Nat → List DirEntry → List DirEntry
  | 0, _, entries => entries
  | left + 1, j, entries =>
    if entries.length < entryCount then
      listSlot bytes i entryCount left (j + 1)
        (if entryActive bytes (entryOffset i j)
          then entries ++ [readEntry bytes (entryOffset i j)] else entries)
    else entries

/-- The loop of `directory_list` over blocks, with the number of blocks left, the block of the
round before, and the `entry_count` of the first block. -/
def listEntriesFrom (s : Store) (node : Inode) :
    Nat → Nat → Nat → Nat → List DirEntry → Option (List DirEntry)
  | 0, _, _, _, entries => some entries
  | left + 1, i, former, count, entries => do
    let (_, mapped) ← inodeGetBlock s node i
    let block := assigned former mapped
    if block = 0 then some entries
    else
      match ← s.get block with
      | .data bytes =>
        let count := if i = 0 then entryCount bytes else count
        if count = entries.length then some entries
        else
          listEntriesFrom s node left (i + 1) block count
            (listSlot bytes i count listSlots 0 entries)
      | _ => some entries

/-- `directory_list`. -/
def directoryList (s : Store) (path : CString) : Option (List DirEntry) := do
  let pair ← itemSearch s path
  if pair.isDirectory path then do
    let node ← inodeReload s pair.inodeNumber zeroInode
    listEntriesFrom s node scanBlocks 0 0 0 []
  else some []

end Nbtrfs
