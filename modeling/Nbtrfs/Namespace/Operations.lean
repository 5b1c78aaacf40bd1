import Nbtrfs.Directory.Model
import Nbtrfs.Namespace.Truncate

/-!
# Operations on names

`_mknod`, `_unlink`, `_link`, `_chmod` and `_rename` of `metadata-api.c`. An `int` that holds an
inode number is exact on images of fewer than 2^31 inodes. There is no result where the code goes
on with an inode that a failed read left uninitialised.
-/

namespace Nbtrfs

section

variable (append : Append) (locals : Locals)

/-- `_mknod`: what it assigns to `*out_inode`, whether it returns 0, and the store after it.
`assign` is the assignment, for a pointer into a page. -/
def mknod (host : Host) (assign : Nat → Store → Option Store) (s : Store) (path : CString)
    (mode : Nat) (writeThrough : Bool) : Option (Option Nat × Bool × Store) := do
  match ← inodeAllocate host s mode true with
  | (none, s) => some (none, false, s)
  | (some allocated, s) =>
    match ← inodeRead s allocated with
    | none => some (none, false, s)
    | some node => do
      let s ← assign node.inodeNumber s
      let (written, s) ← inodeWrite s { node with creationTime := host.time, mode } writeThrough
      if written then do
        let (added, s) ← directoryAddEntry append locals s (parentPath path (countL path))
          (getName path) node.inodeNumber (mode &&& fileTypeMask) writeThrough
        some (some node.inodeNumber, added, s)
      else some (some node.inodeNumber, false, s)

/-- `_unlink`, which returns 0 in every case. -/
def unlink (s : Store) (path : CString) (writeThrough : Bool) : Option Store := do
  let parent := parentPath path (countL path)
  let name := getName path
  let pair ← itemSearch s parent
  let entry ← directoryExistsEntry s parent name
  let s ←
    if entry.isSome then do
      let (_, s) ← directoryRemoveEntry s parent name writeThrough
      some s
    else some s
  let treeNodeBlock ← btreeSearch s pair.btreeBlock (pathHash name)
  if treeNodeBlock ≠ 0 then do
    let (_, s) ← btreeDelete s pair.btreeBlock (pathHash name)
    some s
  else some s

/-- An inode with one more link, a `uint64_t`. -/
def Inode.linked (inode : Inode) : Inode :=
  { inode with referenceCount := (inode.referenceCount + 1) % 2 ^ 64 }

/-- `_link` to a name that its directory has already. -/
def linkExisting (s : Store) (inode : Inode) (parent name : CString) (entry : DirEntry) :
    Option Store := do
  let pair ← itemSearch s parent
  let s ← inodeStore s inode.linked true
  let treeNodeBlock ← btreeSearch s pair.btreeBlock (pathHash name)
  let s ←
    if treeNodeBlock = 0 then
      btreeInsert s pair.btreeBlock (pathHash name) entry.inodeNumber (inode.mode &&& fileTypeMask)
    else some s
  btreeWrite s pair.btreeBlock

/-- `_link`: whether it returns 0, and the store after it. -/
def link (s : Store) (source target : CString) (writeThrough : Bool) : Option (Bool × Store) := do
  let fromPair ← itemSearch s source
  let inode ← inodeLoad s fromPair.inodeNumber
  let parent := parentPath target (countL target)
  let name := getName target
  match ← directoryExistsEntry s parent name with
  | some entry => do
    let s ← linkExisting s inode parent name entry
    some (true, s)
  | none => do
    let (added, s) ← directoryAddEntry append locals s parent name fromPair.inodeNumber
      (inode.mode &&& fileTypeMask) writeThrough
    if added then do
      let s ← inodeStore s inode.linked writeThrough
      some (true, s)
    else some (false, s)

/-- `_chmod`: whether it returns 0, and the store after it. -/
def chmod (s : Store) (path : CString) (mode : Nat) (writeThrough : Bool) :
    Option (Bool × Store) := do
  let pair ← itemSearch s path
  match ← inodeRead s pair.inodeNumber with
  | none => some (false, s)
  | some node => inodeWrite s { node with mode } writeThrough

/-- `_rename`: whether it returns 0, and the store after it. `reread` is what the pointer to the
source holds after the link. -/
def rename (reread : Store → Option CString) (s : Store) (source target : CString)
    (writeThrough : Bool) : Option (Bool × Store) := do
  let pair ← itemSearch s (parentPath target (countL target))
  let existing ← btreeSearch s pair.btreeBlock (pathHash (getName target))
  if existing ≠ 0 then some (false, s)
  else do
    let (linked, s) ← link append locals s source target writeThrough
    if linked then do
      let source ← reread s
      let s ← unlink s source writeThrough
      some (true, s)
    else some (false, s)

end

end Nbtrfs
