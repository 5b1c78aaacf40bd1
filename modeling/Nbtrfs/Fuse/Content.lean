import Nbtrfs.Fuse.Model
import Nbtrfs.Inode.Mapping

/-!
# The content of a file

A file without holes whose blocks are its own, the bytes it holds by position, and `nbtrfs_read`
on it: every range that lies in the file is read as the segment of its bytes.
-/

namespace Nbtrfs

/-- The blocks that a number of bytes needs. -/
def pagesFor (size : Nat) : Nat := (size + (usableBlockSize - 1)) / usableBlockSize

/-- The byte at a position of a file. -/
def fileByte (s : Store) (inode : Inode) (position : Nat) : UInt8 :=
  s.residue.payload (s.mem (blockPointer s inode (position / usableBlockSize)))
    (position % usableBlockSize)

/-- The blocks of a file with a number of mapped indices: its data and its single indirect block. -/
def OwnBlock (s : Store) (inode : Inode) (pages block : Nat) : Prop :=
  (∃ index < pages, blockPointer s inode index = block) ∨
    inode.indirectBlock = block ∧ inode.indirectBlock ≠ 0

/-- A file whose indices below a number are mapped to distinct allocated data blocks, and no index
from there on. -/
structure FileView (s : Store) (superblock : Superblock) (inode : Inode) (pages : Nat) : Prop where
  /-- The block bitmap is in place. -/
  formatted : s.Formatted
  /-- Block numbers have 64 bits. -/
  width : s.totalBlocks ≤ pointerBound
  /-- Block 0 is the superblock. -/
  read : superblockRead s = some superblock
  /-- The table block is in the image. -/
  table : inodePage superblock inode.inodeNumber < s.totalBlocks
  /-- The table block is allocated. -/
  tableSet : s.bit (inodePage superblock inode.inodeNumber) = some true
  /-- The inode is in its slot. -/
  slot : ∃ slots, s.mem (inodePage superblock inode.inodeNumber) = .inode slots ∧
    slots (inode.inodeNumber % inodesPerPage) = inode
  /-- The single indirect block is in place. -/
  indirect : IndirectReady s inode
  /-- No index from the number on is mapped. -/
  unmapped : ∀ index, pages ≤ index → index < pointersPerPage → blockPointer s inode index = 0
  /-- The indices below are mapped. -/
  nonzero : ∀ index < pages, blockPointer s inode index ≠ 0
  /-- Their blocks are in the image. -/
  inside : ∀ index < pages, blockPointer s inode index < s.totalBlocks
  /-- They are allocated. -/
  set : ∀ index < pages, s.bit (blockPointer s inode index) = some true
  /-- They are data blocks. -/
  data : ∀ index < pages, ∃ bytes, s.mem (blockPointer s inode index) = .data bytes
  /-- They are distinct. -/
  distinct : ∀ index < pages, ∀ other < pages,
    blockPointer s inode index = blockPointer s inode other → index = other
  /-- None is the single indirect block. -/
  apart : ∀ index < pages, blockPointer s inode index ≠ inode.indirectBlock
  /-- There are no more indices than the two parts have. -/
  bound : pages ≤ pointersPerPage

section

variable {s s' : Store} {superblock : Superblock} {inode : Inode} {pages : Nat}

/-- A position lies in the blocks of its page. -/
theorem position_split (position : Nat) : position / usableBlockSize * usableBlockSize +
    position % usableBlockSize = position := by
  rw [Nat.mul_comm]
  exact Nat.div_add_mod _ _

/-- A position below the end of a number of pages is in one of them. -/
theorem page_lt {position : Nat} (below : position < pages * usableBlockSize) :
    position / usableBlockSize < pages := Nat.div_lt_of_lt_mul (by rwa [Nat.mul_comm])

/-- The pages that a number of bytes needs hold them. -/
theorem pagesFor_spec (size : Nat) : size ≤ pagesFor size * usableBlockSize := by
  unfold pagesFor usableBlockSize
  omega

/-- A mapped index is found. -/
theorem FileView.get (view : FileView s superblock inode pages) {index : Nat}
    (mapped : index < pages) :
    ∃ block, inodeGetBlock s inode index = some (true, block) ∧
      assigned 0 block = blockPointer s inode index := by
  have bound := view.bound
  obtain ⟨flag, block, run, same, success⟩ :=
    @inodeGetBlock_pointer s inode view.indirect index (by omega)
  rw [success (view.nonzero index mapped)] at run
  exact ⟨block, run, same⟩

/-- The bytes of a page from a position on. -/
theorem segment_fileByte (s : Store) (inode : Inode) {position count : Nat}
    (within : position % usableBlockSize + count ≤ usableBlockSize) :
    segment (s.residue.payload (s.mem (blockPointer s inode (position / usableBlockSize))))
      (position % usableBlockSize) count = segment (fileByte s inode) position count := by
  apply segment_congr
  intro index small
  have positive : 0 < usableBlockSize := by decide
  have page : (position + index) / usableBlockSize = position / usableBlockSize := by
    have split := position_split position
    apply Nat.div_eq_of_lt_le
    · omega
    · rw [Nat.succ_mul]
      omega
  have offset : (position + index) % usableBlockSize = position % usableBlockSize + index := by
    have split := position_split position
    have whole := position_split (position + index)
    rw [page] at whole
    omega
  rw [fileByte, page, offset]

/-- The indices below a number are mapped to blocks of the image. -/
def PagesFound (s : Store) (inode : Inode) (pages : Nat) : Prop :=
  ∀ index < pages, (∃ block, inodeGetBlock s inode index = some (true, block) ∧
    assigned 0 block = blockPointer s inode index) ∧ blockPointer s inode index ≠ 0 ∧
      blockPointer s inode index < s.totalBlocks

/-- Those of a view are. -/
theorem FileView.found (view : FileView s superblock inode pages) : PagesFound s inode pages :=
  fun _ mapped => ⟨view.get mapped, view.nonzero _ mapped, view.inside _ mapped⟩

/-- The loop of `nbtrfs_read` reads a range that lies in the mapped pages. -/
theorem readLoop_spec (found : PagesFound s inode pages) (fuel remaining offset : Nat)
    (buffer : List UInt8) (enough : remaining < fuel)
    (within : offset + remaining ≤ pages * usableBlockSize) :
    readLoop s inode fuel remaining offset buffer =
      some (((buffer.length + remaining : Nat) : Int),
        buffer ++ segment (fileByte s inode) offset remaining) := by
  induction fuel generalizing remaining offset buffer with
  | zero => omega
  | succ fuel ih =>
    rw [readLoop]
    by_cases done : remaining = 0
    · rw [if_pos done, done, segment_zero, List.append_nil, Nat.add_zero]
    · have mapped : offset / usableBlockSize < pages := page_lt (by omega)
      obtain ⟨⟨block, run, same⟩, nonzero, inside⟩ := found _ mapped
      have small := Nat.mod_lt offset (show 0 < usableBlockSize by decide)
      rw [if_neg done, run, Option.bind_eq_bind, Option.bind_some]
      show (if !true then _ else if assigned 0 block = 0 then _ else _) = _
      rw [same, if_neg (by decide), if_neg nonzero, Store.get_of_lt inside, Option.bind_eq_bind,
        Option.bind_some]
      generalize count : min (usableBlockSize - offset % usableBlockSize) remaining = bytes
      have some_bytes : 0 < bytes := by omega
      have fits : bytes ≤ remaining := by omega
      show readLoop s inode fuel (remaining - bytes) (offset + bytes) _ = _
      rw [segment_fileByte s inode (by omega), ih _ _ _ (by omega) (by omega), List.length_append,
        segment_length, List.append_assoc, ← segment_add, show bytes + (remaining - bytes) =
          remaining by omega, show buffer.length + bytes + (remaining - bytes) =
          buffer.length + remaining by omega]

/-- The stored inode of a view is read. -/
theorem FileView.inodeRead (view : FileView s superblock inode pages) :
    Nbtrfs.inodeRead s inode.inodeNumber = some (some inode) := by
  obtain ⟨slots, tag, slot⟩ := view.slot
  rw [inodeRead_slot view.read view.table tag, slot]

/-- A size that an `int` holds is one. -/
theorem bmod_small {size : Nat} (small : size < 2 ^ 31) : (Int.bmod size (2 ^ 32)).toNat = size := by
  rw [Int.bmod_eq_of_le (by omega) (by omega)]
  exact Int.toNat_natCast size

/-- The rest of `nbtrfs_read` behind the reading of the inode. -/
theorem nbtrfsRead_found {path : CString} (found : itemSearch s path = some ⟨inode.inodeNumber, 0⟩)
    (regular : inode.inodeNumber ≠ 0)
    (read : Nbtrfs.inodeRead s inode.inodeNumber = some (some inode)) (requested offset : Nat) :
    nbtrfsRead s path requested offset =
      if inode.size ≤ offset then some (0, [])
      else
        let size := if inode.size < (offset + requested) % 2 ^ 64 then inode.size - offset
          else requested
        readLoop s inode ((Int.bmod size (2 ^ 32)).toNat + 1) (Int.bmod size (2 ^ 32)).toNat offset
          [] := by
  unfold nbtrfsRead
  rw [found, Option.bind_eq_bind, Option.bind_some]
  show (if inode.inodeNumber = 0 ∧ 0 = 0 then _ else if (0 : Nat) ≠ 0 then _ else _) = _
  rw [if_neg (fun both => regular both.1), if_neg (fun wrong => wrong rfl), read,
    Option.bind_eq_bind, Option.bind_some]

/-- `nbtrfs_read` of a file whose range lies in mapped pages: the bytes of the range as far as the
file goes. -/
theorem nbtrfsRead_pages {path : CString} (search : itemSearch s path = some ⟨inode.inodeNumber, 0⟩)
    (regular : inode.inodeNumber ≠ 0)
    (read : Nbtrfs.inodeRead s inode.inodeNumber = some (some inode))
    (found : PagesFound s inode pages) (bound : pages ≤ pointersPerPage)
    (covered : inode.size ≤ pages * usableBlockSize) {requested offset : Nat}
    (range : offset + requested < 2 ^ 64) :
    nbtrfsRead s path requested offset = some (((min requested (inode.size - offset) : Nat) : Int),
      segment (fileByte s inode) offset (min requested (inode.size - offset))) := by
  have limit : inode.size < 2 ^ 31 := by
    have most : pages * usableBlockSize ≤ pointersPerPage * usableBlockSize :=
      Nat.mul_le_mul_right _ bound
    have value : pointersPerPage * usableBlockSize < 2 ^ 31 := by decide
    omega
  rw [nbtrfsRead_found search regular read]
  by_cases past : inode.size ≤ offset
  · rw [if_pos past, Nat.sub_eq_zero_of_le past, Nat.min_zero, segment_zero]
    rfl
  · rw [if_neg past]
    have count : (if inode.size < (offset + requested) % 2 ^ 64 then inode.size - offset
        else requested) = min requested (inode.size - offset) := by
      rw [Nat.mod_eq_of_lt range]
      split
      · omega
      · omega
    dsimp only
    rw [count, bmod_small (by omega), readLoop_spec found _ _ _ _ (by omega) (by omega),
      List.length_nil, Nat.zero_add, List.nil_append]

/-- `nbtrfs_read` of a view. -/
theorem nbtrfsRead_view (view : FileView s superblock inode pages) {path : CString}
    (found : itemSearch s path = some ⟨inode.inodeNumber, 0⟩) (regular : inode.inodeNumber ≠ 0)
    (covered : inode.size ≤ pages * usableBlockSize) {requested offset : Nat}
    (range : offset + requested < 2 ^ 64) :
    nbtrfsRead s path requested offset = some (((min requested (inode.size - offset) : Nat) : Int),
      segment (fileByte s inode) offset (min requested (inode.size - offset))) :=
  nbtrfsRead_pages found regular view.inodeRead view.found view.bound covered range

end

end Nbtrfs
