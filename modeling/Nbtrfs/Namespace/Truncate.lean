import Nbtrfs.Namespace.Path
import Nbtrfs.Inode.Model

/-!
# Truncation

`_truncate` of `metadata-api.c`. The size is an `off_t` that is not negative, compared with the
64-bit size of the inode.
-/

namespace Nbtrfs

/-- The blocks that a size needs, in 64-bit arithmetic. -/
def sizeBlocks (size : Nat) : Nat := (size + (usableBlockSize - 1)) % 2 ^ 64 / usableBlockSize

/-- The loop of `_truncate` over block indices. -/
def truncateBlocks : List Nat → Store → Inode → Option (Inode × Store)
  | [], s, inode => some (inode, s)
  | i :: indices, s, inode => do
    let (mapped, physicalBlock) ← inodeGetBlock s inode i
    let physicalBlock := assigned 0 physicalBlock
    if mapped ∧ physicalBlock ≠ 0 then do
      let s ← freePage s physicalBlock
      let (_, inode, s) ← inodeSetBlock s inode i 0
      truncateBlocks indices s inode
    else truncateBlocks indices s inode

/-- The block indices that `_truncate` goes through. -/
def truncateIndices (inode : Inode) (size : Nat) : List Nat :=
  if size < inode.size
  then List.range' (sizeBlocks size) (sizeBlocks inode.size - sizeBlocks size)
  else []

/-- `_truncate` of an inode that was read. -/
def truncateInode (s : Store) (inode : Inode) (size : Nat) (writeThrough : Bool) :
    Option Store := do
  let (inode, s) ← truncateBlocks (truncateIndices inode size) s inode
  inodeStore s { inode with size } writeThrough

/-- `_truncate`, which returns 0 in every case. -/
def truncate (s : Store) (path : CString) (size : Nat) (writeThrough : Bool) : Option Store := do
  let pair ← itemSearch s path
  let inode ← inodeLoad s pair.inodeNumber
  truncateInode s inode size writeThrough

end Nbtrfs
