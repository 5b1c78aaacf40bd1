import Nbtrfs.Fuse.Content
import Nbtrfs.Namespace.TruncateFrame
import Nbtrfs.Namespace.Attributes

/-!
# Truncating a file and growing it again

Two calls of `_truncate` on a file of at most 12 blocks, to a smaller size and to a larger one, and
what `nbtrfs_read` finds then. The first call unmaps the blocks behind the new size and leaves the
rest of the last block as it was; the second one maps nothing.
-/

namespace Nbtrfs

/-- A regular file of at most 12 blocks, with or without holes. -/
structure DirectFile (s : Store) (superblock : Superblock) (inode : Inode) (path : CString) :
    Prop where
  /-- Its block map is in the image. -/
  file : FileAt s superblock inode
  /-- The inode is in its slot. -/
  read : inodeRead s inode.inodeNumber = some (some inode)
  /-- The path leads to it. -/
  search : itemSearch s path = some ⟨inode.inodeNumber, 0⟩
  /-- It is not the root. -/
  regular : inode.inodeNumber ≠ 0
  /-- It has at most 12 blocks. -/
  small : inode.size ≤ directPointers * usableBlockSize
  /-- The mapped blocks are data blocks. -/
  data : ∀ index < directPointers, inode.directBlocks index ≠ 0 →
    ∃ bytes, s.mem (inode.directBlocks index) = .data bytes

/-- An inode without the direct blocks at some indices. -/
def Inode.withoutDirect (inode : Inode) (indices : List Nat) : Inode :=
  { inode with directBlocks := fun index => if index ∈ indices then 0 else inode.directBlocks index }

/-- An inode after `_truncate`. -/
def Inode.truncated (inode : Inode) (size : Nat) : Inode :=
  { inode.withoutDirect (truncateIndices inode size) with size }

section

variable {s s' : Store} {superblock : Superblock} {inode : Inode} {path : CString}

/-- The blocks of a small size are counted without overflow. -/
theorem sizeBlocks_small {size : Nat} (small : size ≤ directPointers * usableBlockSize) :
    sizeBlocks size = pagesFor size ∧ pagesFor size ≤ directPointers := by
  unfold directPointers usableBlockSize at small
  unfold sizeBlocks pagesFor directPointers usableBlockSize
  rw [Nat.mod_eq_of_lt (by omega)]
  omega

/-- The loop of `_truncate` clears the direct pointers at its indices. -/
theorem truncateBlocks_inode {indices : List Nat} (direct : ∀ index ∈ indices, index < directPointers)
    {inode' : Inode} (run : truncateBlocks indices s inode = some (inode', s')) :
    inode' = inode.withoutDirect indices := by
  induction indices generalizing s inode with
  | nil =>
    obtain ⟨rfl, -⟩ := Prod.mk.inj (Option.some.inj run)
    simp [Inode.withoutDirect]
  | cons index indices ih =>
    have later : ∀ other ∈ indices, other < directPointers :=
      fun other inside => direct other (List.mem_cons_of_mem _ inside)
    have here := direct index List.mem_cons_self
    rw [truncateBlocks, inodeGetBlock_direct s inode here, Option.bind_eq_bind, Option.bind_some]
      at run
    dsimp only [assigned, Option.getD_some] at run
    by_cases zero : inode.directBlocks index = 0
    · rw [if_neg (fun both => both.2 zero)] at run
      rw [ih later run]
      unfold Inode.withoutDirect
      congr 1
      funext other
      by_cases same : other = index
      · rw [same, zero, ite_self, ite_self]
      · simp [same]
    · rw [if_pos ⟨by simpa using zero, zero⟩] at run
      obtain ⟨s1, -, run⟩ := Option.bind_eq_some_iff.mp run
      obtain ⟨⟨success, inode1, s2⟩, set, run⟩ := Option.bind_eq_some_iff.mp run
      rw [inodeSetBlock, if_pos here] at set
      obtain ⟨s3, -, set⟩ := Option.bind_eq_some_iff.mp set
      obtain ⟨-, same⟩ := Prod.mk.inj (Option.some.inj set)
      obtain ⟨rfl, -⟩ := Prod.mk.inj same
      rw [ih later run]
      unfold Inode.withoutDirect Inode.withDirect
      congr 1
      funext other
      by_cases same : other = index
      · simp [same]
      · simp [same]

/-- Nodes are read as before a truncation. -/
theorem Truncated.nodeRead {slot : Nat} {freed : List Nat} (file : FileAt s superblock inode)
    (change : Truncated s superblock (inodePage superblock inode.inodeNumber) slot freed s')
    (inside : ∀ pnum ∈ freed, pnum < s.totalBlocks) (block : Nat) :
    btreeNodeRead s' block = btreeNodeRead s block := by
  unfold btreeNodeRead Store.get
  rw [change.totalBlocks]
  by_cases zero : block = 0
  · obtain ⟨freeBlocks, tag⟩ := change.superblock
    rw [zero, tag, superblockRead_page file.read]
    split <;> rfl
  · by_cases page : block = inodePage superblock inode.inodeNumber
    · obtain ⟨slots, tag⟩ := file.table
      obtain ⟨slots', tag', -⟩ := change.table slots tag
      rw [page, tag, tag']
      split <;> rfl
    · by_cases bitmap : ∃ pnum ∈ freed, block = bitmapPage pnum
      · obtain ⟨pnum, member, same⟩ := bitmap
        obtain ⟨-, words, tag⟩ := file.bitmapped pnum (inside pnum member)
        obtain ⟨words', tag'⟩ := change.bitmaps _ words tag
        rw [same, tag, tag']
        split <;> rfl
      · rw [change.mem block zero page (fun pnum member same => bitmap ⟨pnum, member, same⟩)]

/-- `_truncate` of the file: the inode has lost its blocks behind the size, and the data blocks are
as before. -/
theorem DirectFile.truncate (direct : DirectFile s superblock inode path) {size : Nat}
    (small : size ≤ directPointers * usableBlockSize) (writeThrough : Bool) :
    ∃ s' superblock', Nbtrfs.truncate s path size writeThrough = some s' ∧
      DirectFile s' superblock' (inode.truncated size) path ∧
      ∀ block bytes, s'.mem block = .data bytes ↔ s.mem block = .data bytes := by
  have file := direct.file
  have indices : ∀ index ∈ truncateIndices inode size, index < directPointers := by
    intro index member
    unfold truncateIndices at member
    split at member
    · rw [List.mem_range'_1, (sizeBlocks_small direct.small).1, (sizeBlocks_small small).1] at member
      have few := (sizeBlocks_small direct.small).2
      omega
    · cases member
  obtain ⟨inode1, s1, freed, freeBlocks, run, change, page1, file1, number, indirect, freedBy⟩ :=
    truncateBlocks_direct _ s superblock inode file
      (fun index member mapped => absurd (indices index member) (Nat.not_lt.mpr mapped.1))
  have shape := truncateBlocks_inode indices run
  obtain ⟨s2, store, written⟩ := inodeStore_spec file1.read { inode1 with size := size }
    file1.inside writeThrough
  have second := written.truncated file1.read
  have truncated : { inode1 with size := size } = inode.truncated size := by rw [shape]; rfl
  have place : inodePage (superblock.withFree freeBlocks) (inode.truncated size).inodeNumber =
      inodePage superblock inode.inodeNumber := inodePage_withFree _ _ _
  rw [truncated] at store written second
  rw [place] at written second
  have whole : Truncated s superblock (inodePage superblock inode.inodeNumber)
      (inode.inodeNumber % inodesPerPage) (freed ++ []) s2 := change.trans second
  rw [List.append_nil] at whole
  have inside : ∀ pnum ∈ freed, pnum < s.totalBlocks := fun pnum member => (freedBy pnum member).1
  obtain ⟨freeBlocks', page2⟩ := whole.superblock
  have same := Truncated.data file whole inside
  have kept : ∀ index, (inode.truncated size).directBlocks index = inode.directBlocks index ∨
      (inode.truncated size).directBlocks index = 0 := by
    intro index
    by_cases member : index ∈ truncateIndices inode size
    · exact Or.inr (if_pos member)
    · exact Or.inl (if_neg member)
  refine ⟨s2, superblock.withFree freeBlocks', ?_, ?_, same⟩
  · unfold Nbtrfs.truncate truncateInode
    rw [direct.search, Option.bind_eq_bind, Option.bind_some]
    show (inodeLoad s inode.inodeNumber).bind _ = _
    rw [inodeLoad, direct.read, Option.join_some, Option.bind_some, run, Option.bind_eq_bind,
      Option.bind_some]
    dsimp only
    rw [truncated]
    exact store
  · have file2 : FileAt s2 (superblock.withFree freeBlocks') (inode.truncated size) :=
      whole.fileAt file inside page2 rfl kept rfl rfl
    constructor
    · exact file2
    · obtain ⟨slots, tag⟩ := file1.table
      rw [number, inodePage_withFree] at tag
      have stored := written.slots slots tag
      unfold inodeRead
      rw [file2.read, Option.bind_eq_bind, Option.bind_some, Store.get_of_lt file2.inside]
      rw [inodePage_withFree]
      show (some (s2.mem (inodePage superblock inode.inodeNumber))).bind _ = _
      rw [stored, Option.bind_some]
      show some (some (if _ then _ else _)) = _
      rw [if_pos rfl]
    · rw [itemSearch_congr whole.totalBlocks (whole.nodeRead file inside) file.read file2.read rfl]
      exact direct.search
    · exact direct.regular
    · exact small
    · intro index below mapped
      rcases kept index with same' | cleared
      · rw [same'] at mapped ⊢
        obtain ⟨bytes, tag⟩ := direct.data index below mapped
        exact ⟨bytes, (same _ _).mpr tag⟩
      · exact absurd cleared mapped

/-- The direct blocks of a file are its first pages. -/
theorem DirectFile.found (direct : DirectFile s superblock inode path) {pages : Nat}
    (few : pages ≤ directPointers) (mapped : ∀ index < pages, inode.directBlocks index ≠ 0) :
    PagesFound s inode pages := by
  intro index below
  have here : index < directPointers := Nat.lt_of_lt_of_le below few
  have pointer : blockPointer s inode index = inode.directBlocks index := if_pos here
  rw [pointer]
  refine ⟨⟨some (inode.directBlocks index), ?_, rfl⟩, mapped index below,
    direct.file.direct index here⟩
  rw [inodeGetBlock_direct s inode here]
  simp [mapped index below]

/-- A file of at most 12 blocks is read as far as its blocks are mapped. -/
theorem DirectFile.reads (direct : DirectFile s superblock inode path)
    (mapped : ∀ index < pagesFor inode.size, inode.directBlocks index ≠ 0) {offset count : Nat}
    (within : offset + count ≤ inode.size) :
    nbtrfsRead s path count offset =
      some ((count : Int), segment (fileByte s inode) offset count) := by
  have few := (sizeBlocks_small direct.small).2
  have bound : pagesFor inode.size ≤ pointersPerPage := few.trans (by decide)
  have limit : directPointers * usableBlockSize < 2 ^ 64 := by decide
  have small := direct.small
  have range : offset + count < 2 ^ 64 := by omega
  rw [nbtrfsRead_pages direct.search direct.regular direct.read (direct.found few mapped) bound
    (pagesFor_spec inode.size) range, Nat.min_eq_left (by omega)]

/-- A block that is not mapped is not read. -/
theorem DirectFile.unmapped (direct : DirectFile s superblock inode path) {offset : Nat}
    (inside : offset < inode.size) (hole : inode.directBlocks (offset / usableBlockSize) = 0) :
    nbtrfsRead s path 1 offset = some (-1, []) := by
  have small := direct.small
  have here : offset / usableBlockSize < directPointers := page_lt (by omega)
  have limit : directPointers * usableBlockSize < 2 ^ 31 := by decide
  have whole : offset + 1 < 2 ^ 64 := by omega
  have one : (Int.bmod ((1 : Nat) : Int) (2 ^ 32)).toNat = 1 := by decide
  have clipped : ¬ inode.size < (offset + 1) % 2 ^ 64 := by
    rw [Nat.mod_eq_of_lt whole]
    omega
  rw [nbtrfsRead_found direct.search direct.regular direct.read, if_neg (by omega)]
  dsimp only
  rw [if_neg clipped, one, readLoop, if_neg one_ne_zero, inodeGetBlock_direct s inode here,
    Option.bind_eq_bind, Option.bind_some, hole]
  rfl

end

end Nbtrfs
