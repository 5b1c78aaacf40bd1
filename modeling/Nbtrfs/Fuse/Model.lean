import Nbtrfs.Journal.Replay

/-!
# The file system calls

The callbacks of `fuse.c` that change files, on the block store. Appending to the journal is a
parameter; `appendEntry` is what the code calls. An `off_t` is taken as not negative, the sum of an
offset and a size wraps at 64 bits, and a size that an `int` holds is exact below 2^31.
-/

namespace Nbtrfs

/-- `-ENOENT`. -/
def enoent : Int := -2

/-- `-EISDIR`. -/
def eisdir : Int := -21

section

variable (append : Append) (locals : Locals) (host : Host)

/-- A local journal entry. -/
def localEntry (transaction : Transaction) : JournalEntry where
  blockNumber := 0
  synced := false
  transaction

/-- `nbtrfs_mknod`: whether it returns 0, and the store after it. -/
def nbtrfsMknod (s : Store) (path : CString) (mode : Nat) : Option (Bool × Store) := do
  let (inodeNumber, done, s) ← mknod append locals host (fun _ s => some s) s path mode false
  let s ← append (localEntry (.mknod path mode 0 (inodeNumber.getD 0))) s
  some (done, s)

/-- `nbtrfs_mkdir`. -/
def nbtrfsMkdir (s : Store) (path : CString) (mode : Nat) : Option (Bool × Store) :=
  nbtrfsMknod append locals host s path (mode ||| fileTypeDirectory)

/-- `nbtrfs_unlink`, which returns 0 in every case. -/
def nbtrfsUnlink (s : Store) (path : CString) : Option Store := do
  let s ← append (localEntry (.unlink path)) s
  unlink s path false

/-- `nbtrfs_link`. -/
def nbtrfsLink (s : Store) (source target : CString) : Option (Bool × Store) := do
  let s ← append (localEntry (.link source target)) s
  link append locals s source target false

/-- `nbtrfs_rmdir`. -/
def nbtrfsRmdir (s : Store) (path : CString) : Option Store := nbtrfsUnlink append s path

/-- `nbtrfs_rename`. -/
def nbtrfsRename (s : Store) (source target : CString) : Option (Bool × Store) := do
  let s ← append (localEntry (.rename source target)) s
  rename append locals (fun _ => some source) s source target false

/-- `nbtrfs_chmod`. -/
def nbtrfsChmod (s : Store) (path : CString) (mode : Nat) : Option (Bool × Store) := do
  let s ← append (localEntry (.chmod path mode)) s
  chmod s path mode false

/-- `nbtrfs_truncate`, which returns 0 in every case. -/
def nbtrfsTruncate (s : Store) (path : CString) (size : Nat) : Option Store := do
  let s ← append (localEntry (.truncate path size)) s
  truncate s path size false

/-- The loop of `nbtrfs_read`, with the bytes read so far: the result and the bytes in the buffer. A
negative result is a failure of `inode_get_block`. -/
def readLoop (s : Store) (node : Inode) : Nat → Nat → Nat → List UInt8 → Option (Int × List UInt8)
  | 0, _, _, _ => none
  | fuel + 1, remaining, offset, buffer =>
    if remaining = 0 then some (buffer.length, buffer)
    else do
      let (mapped, block) ← inodeGetBlock s node (offset / usableBlockSize)
      let pnum := assigned 0 block
      if !mapped then some (-1, buffer)
      else if pnum = 0 then some (buffer.length, buffer)
      else do
        let page ← s.get pnum
        let bytes := min (usableBlockSize - offset % usableBlockSize) remaining
        readLoop s node fuel (remaining - bytes) (offset + bytes)
          (buffer ++ segment (s.residue.payload page) (offset % usableBlockSize) bytes)

/-- `nbtrfs_read`: the result, and the bytes it copied to the buffer. A size that is no positive
`int` reads nothing. -/
def nbtrfsRead (s : Store) (path : CString) (size offset : Nat) : Option (Int × List UInt8) := do
  let pair ← itemSearch s path
  if pair.inodeNumber = 0 ∧ pair.btreeBlock = 0 then some (enoent, [])
  else if pair.btreeBlock ≠ 0 then some (eisdir, [])
  else
    match ← inodeRead s pair.inodeNumber with
    | none => some (-1, [])
    | some node =>
      if node.size ≤ offset then some (0, [])
      else
        let size := if node.size < (offset + size) % 2 ^ 64 then node.size - offset else size
        let remaining := (Int.bmod size (2 ^ 32)).toNat
        readLoop s node (remaining + 1) remaining offset []

/-- The block at an index of a file that is written, 0 for none. A missing one is allocated, tagged,
cleared, mapped and logged. -/
def fileBlockAt (s : Store) (node : Inode) (pageIndex size : Nat) : Option (Nat × Inode × Store) := do
  let (_, mapped) ← inodeGetBlock s node pageIndex
  if assigned 0 mapped ≠ 0 then some (assigned 0 mapped, node, s)
  else do
    let (pnum, s) ← allocPage s
    if pnum = 0 then some (0, node, s)
    else do
      let s := s.put pnum (.data fun _ => 0)
      let (_, node, s) ← inodeSetBlock s node pageIndex pnum
      let s ← inodeStore s node false
      let s ← append
        { blockNumber := 0
          synced := locals.synced s
          transaction := .write node.inodeNumber pageIndex pnum size } s
      some (pnum, node, s)

/-- `memcpy` to the bytes after the tag of a page, whatever its tag. -/
def writePayload (s : Store) (pnum offset : Nat) (piece : List UInt8) : Option Store := do
  match ← s.get pnum with
  | .data bytes => some (s.put pnum (.data (overlay bytes offset piece)))
  | .untagged bytes => some (s.put pnum (.untagged (overlay bytes offset piece)))
  | _ => none

/-- The loop of `nbtrfs_write`, with the bytes written so far: whether every block was found, the
bytes written, the inode and the store after it. -/
def writeLoop (size : Nat) : Nat → List UInt8 → Nat → Nat → Inode → Store →
    Option (Bool × Nat × Inode × Store)
  | 0, _, _, _, _, _ => none
  | fuel + 1, buffer, offset, bytesWritten, node, s =>
    if buffer = [] then some (true, bytesWritten, node, s)
    else do
      let (pnum, node, s) ← fileBlockAt append locals s node (offset / usableBlockSize) size
      if pnum = 0 then some (false, bytesWritten, node, s)
      else do
        let pageOffset := offset % usableBlockSize
        let bytes := min (usableBlockSize - pageOffset) buffer.length
        let s ← writePayload s pnum pageOffset (buffer.take bytes)
        writeLoop size fuel (buffer.drop bytes) (offset + bytes) (bytesWritten + bytes) node s

/-- `nbtrfs_write` of an inode that was read. -/
def writeInode (s : Store) (node : Inode) (buffer : List UInt8) (offset : Nat) :
    Option (Int × Store) := do
  let (completed, bytesWritten, node, s) ←
    writeLoop append locals buffer.length (buffer.length + 1) buffer offset 0 node s
  if completed ∧ node.size < offset + bytesWritten then do
    let s ← inodeStore s { node with size := offset + bytesWritten } false
    some (bytesWritten, s)
  else some (bytesWritten, s)

/-- `nbtrfs_write`, which creates a file that is missing. -/
def nbtrfsWrite (s : Store) (path : CString) (buffer : List UInt8) (offset : Nat) :
    Option (Int × Store) := do
  let pair ← itemSearch s path
  if pair.inodeNumber ≠ 0 ∨ pair.btreeBlock ≠ 0 then
    if pair.btreeBlock ≠ 0 then some (eisdir, s)
    else
      match ← inodeRead s pair.inodeNumber with
      | none => some (0, s)
      | some node => writeInode append locals s node buffer offset
  else do
    let (_, s) ← nbtrfsMknod append locals host s path (fileTypeRegular ||| 0o644)
    let pair ← itemSearch s path
    match ← inodeRead s pair.inodeNumber with
    | none => some (0, s)
    | some node => writeInode append locals s node buffer offset

end

end Nbtrfs
