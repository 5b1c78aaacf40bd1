import Nbtrfs.Namespace.Operations
import Nbtrfs.Journal.Model

/-!
# Replaying a journal entry

The case distinction of `sync_entry`, which passes pointers into the journal page on to the
operations, and `initialize_journal_entry` and `sync_journal` on top of it. A replay may append an
entry itself: the appends nest, and each of them follows an allocation, so they nest no deeper than
the image has blocks.
-/

namespace Nbtrfs

/-- The C string at the beginning of the union of an entry. In a `WRITE` entry it is the inode
number up to its first zero byte. -/
def Transaction.firstPath : Transaction → CString
  | .uninitialized => []
  | .mknod path _ _ _ => path
  | .unlink path => path
  | .link source _ => source
  | .chmod path _ => path
  | .truncate path _ => path
  | .write inodeNumber _ _ _ =>
    (segment (LittleEndian.store (fun _ => 0) 0 8 inodeNumber) 0 8).takeWhile (· ≠ 0)
  | .rename source _ => source

/-- A `MKNOD` transaction with another inode number. -/
def Transaction.withInode (inodeNumber : Nat) : Transaction → Transaction
  | .mknod path mode btreeBlock _ => .mknod path mode btreeBlock inodeNumber
  | transaction => transaction

/-- The assignment of `*out_inode` to the entry of a journal page. -/
def assignInode (block inodeNumber : Nat) (s : Store) : Option Store := do
  let entry ← entryAt s block
  assignEntry s block { entry with transaction := entry.transaction.withInode inodeNumber }

/-- The replay of a `MKNOD` whose name is missing: whether the tree is written, and the store after
it. -/
def replayMissing (s : Store) (btreeBlock : Nat) (name : CString) (mode inodeNumber : Nat) :
    Option (Bool × Store) :=
  let type := mode &&& fileTypeMask
  if type = fileTypeDirectory then do
    let (blockNum, s) ← btreeNodeCreate s false
    if blockNum = 0 then some (false, s)
    else do
      let s ← btreeInsert s btreeBlock (pathHash name) blockNum type
      let treeNode ← btreeNodeLoad s blockNum
      let s ← btreeNodeWrite s { treeNode with type := fileTypeDirectory, value := inodeNumber }
      some (true, s)
  else do
    let s ← btreeInsert s btreeBlock (pathHash name) inodeNumber type
    some (true, s)

/-- The replay of a `MKNOD` whose name is there, as a leaf for a directory: the root node to write,
if any, and the store after it. -/
def replayDirectory (s : Store) (blockNum : Nat) (treeNode : BTreeNode) (rootBlock : Nat) :
    Option (Option BTreeNode × Store) := do
  let treeNode := { treeNode with value := rootBlock }
  let s ← btreeNodeWrite s treeNode
  let treeNode ← btreeNodeReload s rootBlock treeNode
  if treeNode.isLeaf then do
    let treeNode ← btreeNodeReload s blockNum treeNode
    let (page, s) ← btreeNodeCreate s false
    if page = 0 then some (none, s)
    else do
      let treeNode := { treeNode with value := page }
      let s ← btreeNodeWrite s treeNode
      let treeNode ← btreeNodeReload s page treeNode
      some (some treeNode, s)
  else some (some treeNode, s)

/-- The replay of a `MKNOD` whose name is there: whether the tree is written, and the store after
it. -/
def replayPresent (s : Store) (blockNum rootBlock inodeNumber : Nat) : Option (Bool × Store) := do
  let treeNode ← btreeNodeLoad s blockNum
  if treeNode.type = fileTypeDirectory then do
    match ← replayDirectory s blockNum treeNode rootBlock with
    | (none, s) => some (false, s)
    | (some treeNode, s) =>
      let s ← btreeNodeWrite s { treeNode with type := fileTypeDirectory, value := inodeNumber }
      some (true, s)
  else do
    let s ← btreeNodeWrite s { treeNode with value := inodeNumber }
    some (true, s)

/-- The replay of a `MKNOD` with an inode number. -/
def replayMknod (host : Host) (s : Store) (path : CString) (mode rootBlock inodeNumber : Nat) :
    Option Store := do
  let node ← inodeLoad s inodeNumber
  let s ← inodeStore s { node with creationTime := host.time, mode } true
  let name := getName path
  let pair ← itemSearch s (parentPath path (countL path))
  let blockNum ← btreeSearch s pair.btreeBlock (pathHash name)
  let (written, s) ←
    if blockNum = 0 then replayMissing s pair.btreeBlock name mode inodeNumber
    else replayPresent s blockNum rootBlock inodeNumber
  if written then btreeWrite s pair.btreeBlock else some s

/-- The replay of a `WRITE`. -/
def replayWrite (s : Store) (inodeNumber blockIndex physicalBlock : Nat) : Option Store := do
  let node ← inodeLoad s inodeNumber
  let (_, node, s) ← inodeSetBlock s node blockIndex physicalBlock
  inodeStore s node true

/-- What `sync_entry` does for the entry of a journal block: whether it returns there. -/
def replayTransaction (append : Append) (locals : Locals) (host : Host) (block : Nat) (s : Store) :
    Option (Bool × Store) := do
  let entry ← entryAt s block
  match entry.transaction with
  | .uninitialized => some (false, s)
  | .mknod path mode rootBlock inodeNumber =>
    if inodeNumber = 0 then do
      let (_, _, s) ← mknod append locals host (assignInode block) s path mode true
      some (true, s)
    else do
      let s ← replayMknod host s path mode rootBlock inodeNumber
      some (false, s)
  | .unlink path => do
    let s ← unlink s path true
    some (false, s)
  | .link source target => do
    let (_, s) ← link append locals s source target true
    some (false, s)
  | .chmod path mode => do
    let (_, s) ← chmod s path mode true
    some (false, s)
  | .truncate path size => do
    let s ← truncate s path size true
    some (false, s)
  | .write inodeNumber blockIndex physicalBlock _ => do
    let s ← replayWrite s inodeNumber blockIndex physicalBlock
    some (false, s)
  | .rename source target => do
    let reread := fun s => (entryAt s block).map fun entry => entry.transaction.firstPath
    let (_, s) ← rename append locals reread s source target true
    some (false, s)

section

variable (locals : Locals) (host : Host)

/-- `initialize_journal_entry` with a bound on how deep the appends nest. -/
def appendWithin : Nat → Append
  | 0, _, _ => none
  | depth + 1, entry, s => do
    let (_, s) ← initializeJournalEntry
      (syncEntry (replayTransaction (appendWithin depth) locals host)) s entry
    some s

/-- `initialize_journal_entry`. -/
def appendEntry : Append := fun entry s => appendWithin locals host (s.totalBlocks + 1) entry s

/-- `sync_entry` on the entry of a journal block. -/
def syncJournalEntry (block : Nat) (s : Store) : Option Store :=
  syncEntry (replayTransaction (appendEntry locals host) locals host) block s

/-- `sync_journal` at mount. -/
def mountJournal (s : Store) : Option Store :=
  (syncJournal (syncJournalEntry locals host) s).map Prod.snd

end

end Nbtrfs
