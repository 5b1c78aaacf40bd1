import Mathlib.Tactic

/-!
# Configuration constants

The sizes that `config.h` fixes for every image. A block is 4096 bytes, of which the first
four hold the block's type tag; the bytes after the tag are the usable ones.
-/

namespace Nbtrfs

/-- `BLOCK_SIZE`. -/
def blockSize : Nat := 4096

/-- `USABLE_BLOCK_SIZE`: the bytes of a block after its type tag. -/
def usableBlockSize : Nat := 4092

/-- `MAX_KEYS`. -/
def maxKeys : Nat := 250

/-- `MIN_KEYS`. -/
def minKeys : Nat := maxKeys / 2

/-- `HASHMAP_SIZE`. -/
def hashmapSize : Nat := 32

/-- `PATH_MAX`. -/
def pathMax : Nat := 2030

/-- `S_IFMT`. -/
def fileTypeMask : Nat := 0xf000

/-- `FILE_TYPE_DIRECTORY`, which is `S_IFDIR`. -/
def fileTypeDirectory : Nat := 0x4000

/-- `FILE_TYPE_REGULAR`, which is `S_IFREG`. -/
def fileTypeRegular : Nat := 0x8000

/-- `INT_MAX`. An `int` that holds it has no successor. -/
def intMax : Nat := 2 ^ 31 - 1

end Nbtrfs
