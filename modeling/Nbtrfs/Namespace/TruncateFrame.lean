import Nbtrfs.Namespace.Truncate
import Nbtrfs.Inode.BlockMap

/-!
# What truncation changes

`_truncate` clears a direct pointer in the inode and releases its block. An entry of the single
indirect block is cleared by entering block 0 there, and entering a block tags it as a data block:
block 0 loses its tag in the cache and on the image.
-/

namespace Nbtrfs

/-- A superblock with another number of free blocks. -/
def Superblock.withFree (superblock : Superblock) (freeBlocks : Nat) : Superblock :=
  { superblock with freeBlocks }

/-- The table does not move with the number of free blocks. -/
theorem inodePage_withFree (superblock : Superblock) (freeBlocks inodeNumber : Nat) :
    inodePage (superblock.withFree freeBlocks) inodeNumber = inodePage superblock inodeNumber :=
  @inodePage_congr superblock (superblock.withFree freeBlocks) rfl rfl inodeNumber

/-- A truncation that changes one slot of one table block, the bits of the blocks that it frees
and `free_blocks` only. -/
structure Truncated (s : Store) (superblock : Superblock) (page slot : Nat) (freed : List Nat)
    (s' : Store) : Prop where
  /-- The bits of the freed blocks are clear and the others are kept. -/
  bits : ∀ other, s'.bit other = if other ∈ freed then some false else s.bit other
  /-- Bitmap pages stay bitmap pages. -/
  bitmaps : ∀ block words, s.mem block = .bitmap words → ∃ words', s'.mem block = .bitmap words'
  /-- The superblock changes in `free_blocks` only. -/
  superblock : ∃ freeBlocks, s'.mem 0 = .super (superblock.withFree freeBlocks)
  /-- The table block changes in the slot only. -/
  table : ∀ slots, s.mem page = .inode slots →
    ∃ slots', s'.mem page = .inode slots' ∧ ∀ other, other ≠ slot → slots' other = slots other
  /-- The other pages are kept. -/
  mem : ∀ block, block ≠ 0 → block ≠ page → (∀ pnum ∈ freed, block ≠ bitmapPage pnum) →
    s'.mem block = s.mem block
  /-- The image is kept elsewhere, in block 0 as well. -/
  disk : ∀ block, block ≠ page → (∀ pnum ∈ freed, block ≠ bitmapPage pnum) →
    s'.disk block = s.disk block
  /-- The image keeps its size. -/
  totalBlocks : s'.totalBlocks = s.totalBlocks

/-- A file that `inode_set_block` has mapped. -/
structure FileAt (s : Store) (superblock : Superblock) (inode : Inode) : Prop where
  /-- Block 0 is the superblock. -/
  read : superblockRead s = some superblock
  /-- The block bitmap is in place. -/
  bitmapped : s.Bitmapped
  /-- The inode is in a table block. -/
  table : ∃ slots, s.mem (inodePage superblock inode.inodeNumber) = .inode slots
  /-- The table block is in the image. -/
  inside : inodePage superblock inode.inodeNumber < s.totalBlocks
  /-- The direct blocks are in the image. -/
  direct : ∀ index < directPointers, inode.directBlocks index < s.totalBlocks
  /-- The single indirect block is in the image. -/
  indirect : inode.indirectBlock < s.totalBlocks
  /-- So are the blocks it holds. -/
  pointers : ∀ bytes, s.mem inode.indirectBlock = .data bytes →
    ∀ index < pointersPerPage, pointerAt bytes index < s.totalBlocks
  /-- There is no double indirect block. -/
  double : inode.doubleIndirectBlock = 0

/-- The block map has a block at an index behind the direct ones. -/
def MappedBehind (s : Store) (inode : Inode) (index : Nat) : Prop :=
  directPointers ≤ index ∧ index < pointersPerPage ∧ inode.indirectBlock ≠ 0 ∧
    ∃ bytes, s.mem inode.indirectBlock = .data bytes ∧ pointerAt bytes (index - directPointers) ≠ 0

section

variable {s s' : Store} {superblock : Superblock} {inode : Inode}

/-- Nothing changes. -/
theorem Truncated.refl (page slot : Nat) (read : superblockRead s = some superblock) :
    Truncated s superblock page slot [] s where
  bits other := by simp
  bitmaps block words tag := ⟨words, tag⟩
  superblock := ⟨superblock.freeBlocks, superblockRead_page read⟩
  table slots tag := ⟨slots, tag, fun _ _ => rfl⟩
  mem _ _ _ _ := rfl
  disk _ _ _ := rfl
  totalBlocks := rfl

/-- Two truncations. -/
theorem Truncated.trans {s'' : Store} {page slot : Nat} {freed others : List Nat} {freeBlocks : Nat}
    (first : Truncated s superblock page slot freed s')
    (second : Truncated s' (superblock.withFree freeBlocks) page slot others s'') :
    Truncated s superblock page slot (freed ++ others) s'' where
  bits other := by
    rw [second.bits, first.bits]
    by_cases late : other ∈ others
    · simp [late]
    · simp [late]
  bitmaps block words tag := by
    obtain ⟨words', tag'⟩ := first.bitmaps block words tag
    exact second.bitmaps block words' tag'
  superblock := second.superblock
  table slots tag := by
    obtain ⟨slots', tag', same⟩ := first.table slots tag
    obtain ⟨slots'', tag'', same'⟩ := second.table slots' tag'
    exact ⟨slots'', tag'', fun other apart => (same' other apart).trans (same other apart)⟩
  mem block notZero notPage notFreed := by
    rw [second.mem block notZero notPage (fun pnum member =>
      notFreed pnum (List.mem_append_right _ member)), first.mem block notZero notPage
        (fun pnum member => notFreed pnum (List.mem_append_left _ member))]
  disk block notPage notFreed := by
    rw [second.disk block notPage (fun pnum member =>
      notFreed pnum (List.mem_append_right _ member)), first.disk block notPage
        (fun pnum member => notFreed pnum (List.mem_append_left _ member))]
  totalBlocks := second.totalBlocks.trans first.totalBlocks

/-- A table block is neither block 0 nor a bitmap page. -/
theorem FileAt.page_ne (file : FileAt s superblock inode) :
    inodePage superblock inode.inodeNumber ≠ 0 ∧
      ∀ pnum < s.totalBlocks, inodePage superblock inode.inodeNumber ≠ bitmapPage pnum := by
  obtain ⟨slots, tag⟩ := file.table
  constructor
  · intro zero
    rw [zero, superblockRead_page file.read] at tag
    cases tag
  · intro pnum inside same
    obtain ⟨-, words, page⟩ := file.bitmapped pnum inside
    rw [same, page] at tag
    cases tag

/-- Releasing a block is such a change. -/
theorem BitChange.truncated {pnum : Nat} (change : BitChange s pnum false s')
    (file : FileAt s superblock inode) (inside : pnum < s.totalBlocks) :
    Truncated s superblock (inodePage superblock inode.inodeNumber)
      (inode.inodeNumber % inodesPerPage) [pnum] s' where
  bits other := by
    rw [change.bits]
    simp
  bitmaps block words tag := by
    by_cases zero : block = 0
    · rw [zero, superblockRead_page file.read] at tag
      cases tag
    · by_cases page : block = bitmapPage pnum
      · rw [page]
        exact change.page
      · rw [change.mem block zero page]
        exact ⟨words, tag⟩
  superblock := by
    have read := change.superblock
    rw [file.read] at read
    exact ⟨_, superblockRead_page read⟩
  table slots tag := by
    rw [change.mem _ file.page_ne.1 (file.page_ne.2 pnum inside)]
    exact ⟨slots, tag, fun _ _ => rfl⟩
  mem block notZero _ notFreed := change.mem block notZero (notFreed pnum (List.mem_singleton_self _))
  disk block _ notFreed := change.disk block (notFreed pnum (List.mem_singleton_self _))
  totalBlocks := change.totalBlocks

/-- Writing the inode is such a change. -/
theorem SlotWritten.truncated {page : Nat} (written : SlotWritten s page inode s')
    (read : Nbtrfs.superblockRead s = some superblock) :
    Truncated s superblock page (inode.inodeNumber % inodesPerPage) [] s' where
  bits other := by
    by_cases bitmap : ∃ words, s.mem (bitmapPage other) = .bitmap words
    · obtain ⟨words, tag⟩ := bitmap
      unfold Store.bit
      rw [written.other (fun slots same => by rw [tag] at same; cases same)]
      simp
    · have noBit : ∀ store : Store, (∀ words, store.mem (bitmapPage other) ≠ .bitmap words) →
          store.bit other = none := by
        intro store noBitmap
        unfold Store.bit
        cases tag : store.mem (bitmapPage other) with
        | bitmap words => exact absurd tag (noBitmap words)
        | super | inode | btreeNode | journal | data | untagged => rfl
      have before : ∀ words, s.mem (bitmapPage other) ≠ .bitmap words :=
        fun words tag => bitmap ⟨words, tag⟩
      rw [noBit s before, noBit s' ?_]
      · simp
      · intro words tag
        by_cases table : ∃ slots, s.mem (bitmapPage other) = .inode slots
        · obtain ⟨slots, inodes⟩ := table
          by_cases same : bitmapPage other = page
          · rw [same] at tag inodes
            rw [written.slots slots inodes] at tag
            cases tag
          · rw [written.mem _ same] at tag
            exact before words tag
        · rw [written.other (fun slots inodes => table ⟨slots, inodes⟩)] at tag
          exact before words tag
  bitmaps block words tag := by
    rw [written.other (fun slots same => by rw [tag] at same; cases same)]
    exact ⟨words, tag⟩
  superblock := ⟨superblock.freeBlocks, superblockRead_page (written.superblockRead read)⟩
  table slots tag :=
    ⟨_, written.slots slots tag, fun other apart => if_neg apart⟩
  mem block _ notPage _ := written.mem block notPage
  disk block notPage _ := written.disk block notPage
  totalBlocks := written.totalBlocks

/-- A data block is none of the blocks that a truncation changes. -/
theorem Truncated.data {slot : Nat} {freed : List Nat} (file : FileAt s superblock inode)
    (change : Truncated s superblock (inodePage superblock inode.inodeNumber) slot freed s')
    (inside : ∀ pnum ∈ freed, pnum < s.totalBlocks) (block : Nat) (bytes : Nat → UInt8) :
    s'.mem block = .data bytes ↔ s.mem block = .data bytes := by
  by_cases zero : block = 0
  · obtain ⟨freeBlocks, tag⟩ := change.superblock
    rw [zero, tag, superblockRead_page file.read]
    constructor
    · intro wrong
      cases wrong
    · intro wrong
      cases wrong
  · by_cases page : block = inodePage superblock inode.inodeNumber
    · obtain ⟨slots, tag⟩ := file.table
      obtain ⟨slots', tag', -⟩ := change.table slots tag
      rw [page, tag, tag']
      constructor
      · intro wrong
        cases wrong
      · intro wrong
        cases wrong
    · by_cases bitmap : ∃ pnum ∈ freed, block = bitmapPage pnum
      · obtain ⟨pnum, member, same⟩ := bitmap
        obtain ⟨-, words, tag⟩ := file.bitmapped pnum (inside pnum member)
        obtain ⟨words', tag'⟩ := change.bitmaps _ words tag
        rw [same, tag, tag']
        constructor
        · intro wrong
          cases wrong
        · intro wrong
          cases wrong
      · rw [change.mem block zero page (fun pnum member same => bitmap ⟨pnum, member, same⟩)]

/-- The file after such a change, with fewer direct blocks. -/
theorem Truncated.fileAt {slot freeBlocks : Nat} {freed : List Nat} {inode' : Inode}
    (file : FileAt s superblock inode)
    (change : Truncated s superblock (inodePage superblock inode.inodeNumber) slot freed s')
    (inside : ∀ pnum ∈ freed, pnum < s.totalBlocks)
    (superPage : s'.mem 0 = .super (superblock.withFree freeBlocks))
    (number : inode'.inodeNumber = inode.inodeNumber)
    (direct : ∀ index, inode'.directBlocks index = inode.directBlocks index ∨
      inode'.directBlocks index = 0)
    (indirect : inode'.indirectBlock = inode.indirectBlock)
    (double : inode'.doubleIndirectBlock = inode.doubleIndirectBlock) :
    FileAt s' (superblock.withFree freeBlocks) inode' where
  read := superblockRead_of_page superPage
  bitmapped pnum small := by
    rw [change.totalBlocks] at small ⊢
    obtain ⟨pageInside, words, tag⟩ := file.bitmapped pnum small
    exact ⟨pageInside, change.bitmaps _ words tag⟩
  table := by
    obtain ⟨slots, tag⟩ := file.table
    obtain ⟨slots', tag', -⟩ := change.table slots tag
    rw [number, inodePage_withFree]
    exact ⟨slots', tag'⟩
  inside := by
    rw [number, inodePage_withFree, change.totalBlocks]
    exact file.inside
  direct index small := by
    rw [change.totalBlocks]
    rcases direct index with same | cleared
    · rw [same]
      exact file.direct index small
    · rw [cleared]
      exact Nat.lt_of_le_of_lt (Nat.zero_le _) file.inside
  indirect := by
    rw [indirect, change.totalBlocks]
    exact file.indirect
  pointers bytes tag index small := by
    rw [indirect, Truncated.data file change inside] at tag
    rw [change.totalBlocks]
    exact file.pointers bytes tag index small
  double := double.trans file.double

/-- The mapped indices behind the direct ones are the same after such a change. -/
theorem Truncated.mappedBehind {slot : Nat} {freed : List Nat} {inode' : Inode}
    (file : FileAt s superblock inode)
    (change : Truncated s superblock (inodePage superblock inode.inodeNumber) slot freed s')
    (inside : ∀ pnum ∈ freed, pnum < s.totalBlocks)
    (indirect : inode'.indirectBlock = inode.indirectBlock) (index : Nat) :
    MappedBehind s' inode' index ↔ MappedBehind s inode index := by
  unfold MappedBehind
  rw [indirect]
  simp only [Truncated.data file change inside]

/-- Behind the direct blocks `inode_get_block` succeeds with a block other than 0 exactly at the
mapped indices. -/
theorem inodeGetBlock_behind (file : FileAt s superblock inode) {index : Nat}
    (behind : directPointers ≤ index) :
    ∃ mapped block, inodeGetBlock s inode index = some (mapped, block) ∧
      ((mapped = true ∧ assigned 0 block ≠ 0) ↔ MappedBehind s inode index) ∧
      (MappedBehind s inode index → ∃ bytes, s.mem inode.indirectBlock = .data bytes ∧
        assigned 0 block = pointerAt bytes (index - directPointers)) := by
  by_cases small : index < pointersPerPage
  · by_cases unlinked : inode.indirectBlock = 0
    · refine ⟨false, none, inodeGetBlock_unlinked s behind small unlinked, ?_, ?_⟩
      · constructor
        · rintro ⟨wrong, -⟩
          cases wrong
        · exact fun mapped => absurd unlinked mapped.2.2.1
      · exact fun mapped => absurd unlinked mapped.2.2.1
    · by_cases data : ∃ bytes, s.mem inode.indirectBlock = .data bytes
      · obtain ⟨bytes, tag⟩ := data
        refine ⟨true, _, inodeGetBlock_indirect behind small unlinked file.indirect tag, ?_,
          fun _ => ⟨bytes, tag, rfl⟩⟩
        constructor
        · rintro ⟨-, nonzero⟩
          exact ⟨behind, small, unlinked, bytes, tag, nonzero⟩
        · rintro ⟨-, -, -, others, tag', nonzero⟩
          obtain rfl := Block.data.inj (tag.symm.trans tag')
          exact ⟨rfl, nonzero⟩
      · have get := Store.get_of_lt file.indirect
        have result : inodeGetBlock s inode index = some (false, none) := by
          rw [inodeGetBlock, if_neg (Nat.not_lt.mpr behind), if_pos small, if_neg unlinked, get]
          cases tag : s.mem inode.indirectBlock with
          | data bytes => exact absurd ⟨bytes, tag⟩ data
          | super | bitmap | inode | btreeNode | journal | untagged => rfl
        have none : ¬ MappedBehind s inode index := by
          rintro ⟨-, -, -, bytes, tag, -⟩
          exact data ⟨bytes, tag⟩
        refine ⟨false, Option.none, result, ?_, fun mapped => absurd mapped none⟩
        constructor
        · rintro ⟨wrong, -⟩
          cases wrong
        · exact fun mapped => absurd mapped none
  · have none : ¬ MappedBehind s inode index := fun mapped => small mapped.2.1
    refine ⟨false, Option.none, ?_, ?_, fun mapped => absurd mapped none⟩
    · rw [inodeGetBlock, if_neg (Nat.not_lt.mpr behind), if_neg small, if_pos file.double]
    · constructor
      · rintro ⟨wrong, -⟩
        cases wrong
      · exact fun mapped => absurd mapped none

/-- The loop as long as it finds no block behind the direct ones. -/
theorem truncateBlocks_direct (indices : List Nat) :
    ∀ (s : Store) (superblock : Superblock) (inode : Inode), FileAt s superblock inode →
      (∀ index ∈ indices, ¬ MappedBehind s inode index) →
        ∃ inode' s' freed freeBlocks, truncateBlocks indices s inode = some (inode', s') ∧
          Truncated s superblock (inodePage superblock inode.inodeNumber)
            (inode.inodeNumber % inodesPerPage) freed s' ∧
          s'.mem 0 = .super (superblock.withFree freeBlocks) ∧
          FileAt s' (superblock.withFree freeBlocks) inode' ∧
          inode'.inodeNumber = inode.inodeNumber ∧
          inode'.indirectBlock = inode.indirectBlock ∧
          ∀ pnum ∈ freed, pnum < s.totalBlocks ∧ pnum ≠ 0 ∧ ∃ index ∈ indices,
            index < directPointers ∧ inode.directBlocks index = pnum := by
  induction indices with
  | nil =>
    intro s superblock inode file _
    exact ⟨inode, s, [], superblock.freeBlocks, rfl, Truncated.refl _ _ file.read,
      superblockRead_page file.read, file, rfl, rfl, fun pnum member => by cases member⟩
  | cons index indices ih =>
    intro s superblock inode file unmapped
    have step : ∃ inode' s' freed freeBlocks, truncateBlocks (index :: indices) s inode =
          truncateBlocks indices s' inode' ∧
        Truncated s superblock (inodePage superblock inode.inodeNumber)
          (inode.inodeNumber % inodesPerPage) freed s' ∧
        s'.mem 0 = .super (superblock.withFree freeBlocks) ∧
        FileAt s' (superblock.withFree freeBlocks) inode' ∧
        inode'.inodeNumber = inode.inodeNumber ∧
        inode'.indirectBlock = inode.indirectBlock ∧
        (∀ other, inode'.directBlocks other = inode.directBlocks other ∨
          inode'.directBlocks other = 0) ∧
        ∀ pnum ∈ freed, pnum < s.totalBlocks ∧ index < directPointers ∧
          inode.directBlocks index = pnum ∧ pnum ≠ 0 := by
      have stay : ∀ mapped block, inodeGetBlock s inode index = some (mapped, block) →
          ¬ (mapped = true ∧ assigned 0 block ≠ 0) →
            truncateBlocks (index :: indices) s inode = truncateBlocks indices s inode := by
        intro mapped block get skip
        rw [truncateBlocks, get, Option.bind_eq_bind, Option.bind_some]
        exact if_neg skip
      by_cases direct : index < directPointers
      · have get := inodeGetBlock_direct s inode direct
        by_cases zero : inode.directBlocks index = 0
        · refine ⟨inode, s, [], superblock.freeBlocks, stay _ _ get ?_,
            Truncated.refl _ _ file.read, superblockRead_page file.read, file, rfl, rfl,
            fun _ => Or.inl rfl, fun pnum member => by cases member⟩
          rintro ⟨-, nonzero⟩
          exact nonzero zero
        · have inside := file.direct index direct
          obtain ⟨s1, free, change⟩ := freePage_spec file.bitmapped inside
          have first := change.truncated file inside
          have single : ∀ pnum ∈ [inode.directBlocks index], pnum < s.totalBlocks := by
            intro pnum member
            rw [List.mem_singleton.mp member]
            exact inside
          obtain ⟨freeBlocks, page1⟩ := first.superblock
          have file1 : FileAt s1 (superblock.withFree freeBlocks) inode :=
            first.fileAt file single page1 rfl (fun _ => Or.inl rfl) rfl rfl
          obtain ⟨s2, set, written⟩ := inodeSetBlock_direct file1.read file1.inside direct 0
          have second := written.truncated file1.read
          rw [inodePage_withFree] at second
          obtain ⟨freeBlocks', page2⟩ := second.superblock
          have cleared : ∀ other, (inode.withDirect index 0).directBlocks other =
              inode.directBlocks other ∨ (inode.withDirect index 0).directBlocks other = 0 := by
            intro other
            show (if other = index then 0 else inode.directBlocks other) = _ ∨
              (if other = index then 0 else inode.directBlocks other) = 0
            by_cases same : other = index
            · exact Or.inr (if_pos same)
            · exact Or.inl (if_neg same)
          have both := first.trans second
          rw [List.append_nil] at both
          refine ⟨inode.withDirect index 0, s2, [inode.directBlocks index], freeBlocks', ?_, both,
            page2, both.fileAt file single page2 rfl cleared rfl rfl, rfl, rfl, cleared, ?_⟩
          · rw [truncateBlocks, get, Option.bind_eq_bind, Option.bind_some]
            show (if _ then _ else _) = _
            rw [if_pos ⟨decide_eq_true zero, zero⟩]
            show (freePage s (inode.directBlocks index)).bind _ = _
            rw [free, Option.bind_some]
            show (inodeSetBlock s1 inode index 0).bind _ = _
            rw [set]
            rfl
          · intro pnum member
            rw [List.mem_singleton.mp member]
            exact ⟨inside, direct, rfl, zero⟩
      · obtain ⟨mapped, block, get, found, -⟩ := inodeGetBlock_behind file (Nat.le_of_not_lt direct)
        refine ⟨inode, s, [], superblock.freeBlocks, stay _ _ get ?_,
          Truncated.refl _ _ file.read, superblockRead_page file.read, file, rfl, rfl,
          fun _ => Or.inl rfl, fun pnum member => by cases member⟩
        exact fun both => unmapped index List.mem_cons_self (found.mp both)
    obtain ⟨inode1, s1, freed1, freeBlocks1, run1, change1, page1, file1, number1, indirect1,
      direct1, freedBy1⟩ := step
    have inside1 : ∀ pnum ∈ freed1, pnum < s.totalBlocks := fun pnum member =>
      (freedBy1 pnum member).1
    obtain ⟨inode2, s2, freed2, freeBlocks2, run2, change2, page2, file2, number2, indirect2,
      freedBy2⟩ := ih s1 _ inode1 file1 (fun other member mapped =>
        unmapped other (List.mem_cons_of_mem _ member)
          ((change1.mappedBehind file inside1 indirect1 other).mp mapped))
    rw [number1, inodePage_withFree] at change2
    refine ⟨inode2, s2, freed1 ++ freed2, freeBlocks2, run1.trans run2, change1.trans change2,
      page2, file2, number2.trans number1, indirect2.trans indirect1, ?_⟩
    intro pnum member
    rcases List.mem_append.mp member with early | late
    · obtain ⟨inside, direct, value, nonzero⟩ := freedBy1 pnum early
      exact ⟨inside, nonzero, index, List.mem_cons_self, direct, value⟩
    · obtain ⟨inside, nonzero, other, among, direct, value⟩ := freedBy2 pnum late
      rw [change1.totalBlocks] at inside
      refine ⟨inside, nonzero, other, List.mem_cons_of_mem _ among, direct, ?_⟩
      rcases direct1 other with same | cleared
      · rw [← same]
        exact value
      · exact absurd (value.symm.trans cleared) nonzero

/-- Block 0 is a data block in the cache. -/
def ZeroData (s : Store) : Prop := ∃ bytes, s.mem 0 = .data bytes

/-- Without a superblock nothing is read from block 0. -/
theorem ZeroData.read (zero : ZeroData s) : superblockRead s = none := by
  obtain ⟨bytes, tag⟩ := zero
  unfold superblockRead
  rw [tag]

/-- Entering block 0 makes it a data block, in the cache and on the image. -/
theorem linkPointer_zero {pointers index : Nat} (run : linkPointer s pointers index 0 = some s') :
    ZeroData s' ∧ ∃ bytes, s'.disk 0 = .data bytes := by
  unfold linkPointer at run
  obtain ⟨s1, -, run⟩ := Option.bind_eq_some_iff.mp run
  obtain ⟨s2, -, run⟩ := Option.bind_eq_some_iff.mp run
  obtain ⟨s3, tag, write⟩ := Option.bind_eq_some_iff.mp run
  obtain ⟨block, -, tagged⟩ := Option.bind_eq_some_iff.mp tag
  obtain rfl := Option.some.inj tagged
  obtain ⟨content, get, written⟩ := Option.bind_eq_some_iff.mp write
  have page : (s2.put 0 (s2.residue.asData block)).mem 0 = s2.residue.asData block :=
    Store.put_same _ _ _
  obtain ⟨-, same⟩ := Store.get_eq_some get
  rw [page] at same
  split at written
  case isTrue =>
    obtain rfl := Option.some.inj written
    refine ⟨⟨_, page⟩, s2.residue.payload block, ?_⟩
    show (if 0 = 0 then content else (s2.put 0 (s2.residue.asData block)).disk 0) =
      s2.residue.asData block
    rw [if_pos rfl]
    exact same.symm
  case isFalse => cases written

/-- Releasing a block does not bring the superblock back. -/
theorem freePage_zeroData {pnum : Nat} (zero : ZeroData s) (run : freePage s pnum = some s') :
    ZeroData s' := by
  have lost := zero.read
  obtain ⟨bytes, tag⟩ := zero
  unfold freePage at run
  obtain ⟨pbm, -, run⟩ := Option.bind_eq_some_iff.mp run
  obtain rfl := Option.some.inj run
  refine ⟨bytes, ?_⟩
  show (decrementFreeBlocks _).mem 0 = _
  cases bitmapPut pbm (pnum - (bitmapPage pnum - 1) * usableBlockSize) false with
  | none =>
    show (decrementFreeBlocks s).mem 0 = _
    unfold decrementFreeBlocks
    rw [lost]
    exact tag
  | some changed =>
    have page : (s.put (bitmapPage pnum) changed).mem 0 = .data bytes := by
      rw [Store.put_other _ _ _ _ (bitmapPage_ne_zero pnum).symm]
      exact tag
    show (decrementFreeBlocks (s.put (bitmapPage pnum) changed)).mem 0 = _
    unfold decrementFreeBlocks
    rw [ZeroData.read ⟨bytes, page⟩]
    exact page

/-- Clearing an entry of the single indirect block. -/
theorem inodeSetBlock_clear {index : Nat} (behind : directPointers ≤ index)
    (small : index < pointersPerPage) (linked : inode.indirectBlock ≠ 0) :
    inodeSetBlock s inode index 0 =
      (if index = directPointers then freePage s inode.indirectBlock else some s).bind fun s =>
        (linkPointer s inode.indirectBlock (index - directPointers) 0).map fun s =>
          (true, inode, s) := by
  rw [inodeSetBlock_part s inode behind small.le, inodeSetIndirect]
  by_cases same : index = directPointers
  · rw [if_pos ⟨same, rfl, linked⟩, if_pos same]
    cases freePage s inode.indirectBlock with
    | none => rfl
    | some s1 =>
      rw [Option.bind_eq_bind, Option.bind_some]
      dsimp only
      rw [if_neg linked]
      show (linkPointer s1 inode.indirectBlock (index - directPointers) 0).bind _ = Option.map _ _
      cases linkPointer s1 inode.indirectBlock (index - directPointers) 0 with
      | none => rfl
      | some s2 => rfl
  · rw [if_neg (fun all => same all.1), if_neg same, Option.bind_eq_bind, Option.bind_some]
    dsimp only
    rw [if_neg linked]
    show (linkPointer s inode.indirectBlock (index - directPointers) 0).bind _ = Option.map _ _
    cases linkPointer s inode.indirectBlock (index - directPointers) 0 with
    | none => rfl
    | some s2 => rfl

/-- Once block 0 is a data block, the loop leaves it one. -/
theorem truncateBlocks_zeroData (indices : List Nat) :
    ∀ (s : Store) (inode inode' : Inode) (s' : Store), ZeroData s →
      inode.doubleIndirectBlock = 0 → (∀ index ∈ indices, directPointers ≤ index) →
        truncateBlocks indices s inode = some (inode', s') → ZeroData s' := by
  induction indices with
  | nil =>
    intro s inode inode' s' zero _ _ run
    obtain ⟨-, rfl⟩ := Prod.mk.inj (Option.some.inj run)
    exact zero
  | cons index indices ih =>
    intro s inode inode' s' zero double behind run
    have rest : ∀ other ∈ indices, directPointers ≤ other := fun other member =>
      behind other (List.mem_cons_of_mem _ member)
    have here := behind index List.mem_cons_self
    rw [truncateBlocks] at run
    obtain ⟨⟨mapped, block⟩, get, run⟩ := Option.bind_eq_some_iff.mp run
    dsimp only at run
    split at run
    case isFalse => exact ih s inode inode' s' zero double rest run
    case isTrue found =>
      obtain ⟨s1, free, run⟩ := Option.bind_eq_some_iff.mp run
      obtain ⟨⟨_, inode2, s2⟩, cleared, run⟩ := Option.bind_eq_some_iff.mp run
      have zero1 := freePage_zeroData zero free
      have part : index < pointersPerPage ∧ inode.indirectBlock ≠ 0 := by
        rw [inodeGetBlock, if_neg (Nat.not_lt.mpr here)] at get
        by_cases small : index < pointersPerPage
        · refine ⟨small, fun unlinked => ?_⟩
          rw [if_pos small, if_pos unlinked] at get
          obtain ⟨rfl, -⟩ := Prod.mk.inj (Option.some.inj get)
          exact Bool.false_ne_true found.1
        · rw [if_neg small, if_pos double] at get
          obtain ⟨rfl, -⟩ := Prod.mk.inj (Option.some.inj get)
          exact absurd found.1 Bool.false_ne_true
      rw [inodeSetBlock_clear here part.1 part.2] at cleared
      obtain ⟨s3, -, linked⟩ := Option.bind_eq_some_iff.mp cleared
      obtain ⟨s4, link, same⟩ := Option.map_eq_some_iff.mp linked
      obtain ⟨-, same⟩ := Prod.mk.inj same
      obtain ⟨rfl, rfl⟩ := Prod.mk.inj same
      exact ih s4 inode inode' s' (linkPointer_zero link).1 double rest run

/-- The blocks of a file: the direct ones, the single indirect one and those it holds. -/
def FileBlock (s : Store) (inode : Inode) (pnum : Nat) : Prop :=
  (∃ index < directPointers, inode.directBlocks index = pnum) ∨ pnum = inode.indirectBlock ∨
    ∃ bytes index, s.mem inode.indirectBlock = .data bytes ∧ pointerAt bytes index = pnum

/-- What a truncation of a file may change: its slot of the inode table, its pointer block, the bits
of its blocks and `free_blocks`. -/
structure TruncateFrame (s : Store) (superblock : Superblock) (inode : Inode) (s' : Store) :
    Prop where
  /-- Block 0 is the superblock in the cache, with another `free_blocks` at most. -/
  zero : ∃ freeBlocks, s'.mem 0 = .super (superblock.withFree freeBlocks)
  /-- Block 0 is a superblock on the image. -/
  image : ∃ former, s'.disk 0 = .super former
  /-- The other slots of the table block are kept. -/
  table : ∃ slots slots', s.mem (inodePage superblock inode.inodeNumber) = .inode slots ∧
    s'.mem (inodePage superblock inode.inodeNumber) = .inode slots' ∧
    ∀ other, other ≠ inode.inodeNumber % inodesPerPage → slots' other = slots other
  /-- Only bits of blocks of the file are cleared. -/
  bits : ∀ pnum, s'.bit pnum = s.bit pnum ∨ s'.bit pnum = some false ∧ FileBlock s inode pnum
  /-- The other pages are kept. -/
  mem : ∀ block, block ≠ 0 → block ≠ inodePage superblock inode.inodeNumber →
    block ≠ inode.indirectBlock → (∀ pnum < s.totalBlocks, block ≠ bitmapPage pnum) →
      s'.mem block = s.mem block
  /-- So is the image. -/
  disk : ∀ block, block ≠ 0 → block ≠ inodePage superblock inode.inodeNumber →
    block ≠ inode.indirectBlock → (∀ pnum < s.totalBlocks, block ≠ bitmapPage pnum) →
      s'.disk block = s.disk block

/-- The loop over two lists of indices. -/
theorem truncateBlocks_append (before after : List Nat) (s : Store) (inode : Inode) :
    truncateBlocks (before ++ after) s inode =
      (truncateBlocks before s inode).bind fun (inode, s) => truncateBlocks after s inode := by
  induction before generalizing s inode with
  | nil => rfl
  | cons index before ih =>
    rw [List.cons_append, truncateBlocks, truncateBlocks]
    cases inodeGetBlock s inode index with
    | none => rfl
    | some result =>
      obtain ⟨mapped, block⟩ := result
      show (if _ then _ else _) = Option.bind (if _ then _ else _) _
      split
      case isFalse => exact ih s inode
      case isTrue =>
        cases freePage s (assigned 0 block) with
        | none => rfl
        | some s1 =>
          show (inodeSetBlock s1 inode index 0).bind _ =
            ((inodeSetBlock s1 inode index 0).bind _).bind _
          cases inodeSetBlock s1 inode index 0 with
          | none => rfl
          | some result =>
            obtain ⟨done, inode', s2⟩ := result
            exact ih s2 inode'

/-- Without a mapped block behind the direct ones, a truncation stays in its frame. -/
theorem truncateInode_frame (file : FileAt s superblock inode)
    (image : ∃ former, s.disk 0 = .super former) {size : Nat} (writeThrough : Bool)
    (unmapped : ∀ index ∈ truncateIndices inode size, ¬ MappedBehind s inode index) :
    ∃ s', truncateInode s inode size writeThrough = some s' ∧
      TruncateFrame s superblock inode s' := by
  obtain ⟨inode1, s1, freed, freeBlocks, run, change, page1, file1, number, -, freedBy⟩ :=
    truncateBlocks_direct _ s superblock inode file unmapped
  obtain ⟨s2, store, written⟩ := inodeStore_spec file1.read { inode1 with size := size }
    file1.inside writeThrough
  have second := written.truncated file1.read
  have place : inodePage (superblock.withFree freeBlocks) ({ inode1 with size := size }).inodeNumber =
      inodePage superblock inode.inodeNumber := by
    rw [inodePage_withFree]
    show inodePage superblock inode1.inodeNumber = _
    rw [number]
  have slot : ({ inode1 with size := size }).inodeNumber % inodesPerPage =
      inode.inodeNumber % inodesPerPage := by
    show inode1.inodeNumber % inodesPerPage = _
    rw [number]
  rw [place, slot] at second
  have whole := change.trans second
  rw [List.append_nil] at whole
  have inside : ∀ pnum ∈ freed, pnum < s.totalBlocks := fun pnum member => (freedBy pnum member).1
  refine ⟨s2, ?_, whole.superblock, ?_, ?_, ?_, ?_, ?_⟩
  · unfold truncateInode
    rw [run]
    exact store
  · obtain ⟨former, tag⟩ := image
    refine ⟨former, ?_⟩
    rw [whole.disk 0 file.page_ne.1.symm (fun pnum _ => (bitmapPage_ne_zero pnum).symm)]
    exact tag
  · obtain ⟨slots, tag⟩ := file.table
    obtain ⟨slots', tag', same⟩ := whole.table slots tag
    exact ⟨slots, slots', tag, tag', same⟩
  · intro pnum
    rw [whole.bits]
    by_cases member : pnum ∈ freed
    · obtain ⟨-, -, index, -, direct, value⟩ := freedBy pnum member
      rw [if_pos member]
      exact Or.inr ⟨rfl, Or.inl ⟨index, direct, value⟩⟩
    · rw [if_neg member]
      exact Or.inl rfl
  · intro block notZero notPage _ notBitmap
    exact whole.mem block notZero notPage fun pnum member => notBitmap pnum (inside pnum member)
  · intro block _ notPage _ notBitmap
    exact whole.disk block notPage fun pnum member => notBitmap pnum (inside pnum member)

/-- The first mapped block behind the direct ones makes block 0 a data block, and then the
truncation does not get to its end. -/
theorem truncateInode_exposes (file : FileAt s superblock inode) {size : Nat} (writeThrough : Bool)
    (mapped : ∃ index ∈ truncateIndices inode size, MappedBehind s inode index) :
    truncateInode s inode size writeThrough = none ∧
      ∃ before after inode' s', truncateIndices inode size = before ++ after ∧
        truncateBlocks before s inode = some (inode', s') ∧ ZeroData s' ∧
        ∃ bytes, s'.disk 0 = .data bytes := by
  classical
  obtain ⟨found, member, holds⟩ := mapped
  obtain ⟨index, first⟩ : ∃ index, (truncateIndices inode size).find?
      (fun index => decide (MappedBehind s inode index)) = some index := by
    rw [← Option.isSome_iff_exists, List.find?_isSome]
    exact ⟨found, member, decide_eq_true holds⟩
  obtain ⟨here, before, after, split, clear⟩ := List.find?_eq_some_iff_append.mp first
  have here := of_decide_eq_true here
  have clear : ∀ other ∈ before, ¬ MappedBehind s inode other := fun other member => by
    simpa using clear other member
  have ordered : ∀ other ∈ after, index < other := by
    have increasing : (truncateIndices inode size).Pairwise (· < ·) := by
      unfold truncateIndices
      split
      · exact List.pairwise_lt_range'
      · exact List.Pairwise.nil
    rw [split, List.pairwise_append] at increasing
    exact (List.pairwise_cons.mp increasing.2.1).1
  obtain ⟨inode1, s1, freed, freeBlocks, run, change, page1, file1, number, indirect, freedBy⟩ :=
    truncateBlocks_direct before s superblock inode file clear
  have inside : ∀ pnum ∈ freed, pnum < s.totalBlocks := fun pnum member => (freedBy pnum member).1
  have here1 := (change.mappedBehind file inside indirect index).mpr here
  obtain ⟨behind, small, linked, bytes, tag, nonzero⟩ := here1
  obtain ⟨mapped, block, get, exactly, value⟩ := inodeGetBlock_behind file1 behind
  have both := exactly.mpr ⟨behind, small, linked, bytes, tag, nonzero⟩
  obtain ⟨bytes', tag', value⟩ := value ⟨behind, small, linked, bytes, tag, nonzero⟩
  have target : assigned 0 block < s1.totalBlocks := by
    rw [value]
    exact file1.pointers bytes' tag' _ (by omega)
  obtain ⟨s2, free, bit2⟩ := freePage_spec file1.bitmapped target
  have change2 := bit2.truncated file1 target
  have inside2 : ∀ pnum ∈ [assigned 0 block], pnum < s1.totalBlocks := by
    intro pnum member
    rw [List.mem_singleton.mp member]
    exact target
  obtain ⟨freeBlocks2, page2⟩ := change2.superblock
  have file2 := change2.fileAt file1 inside2 page2 rfl (fun _ => Or.inl rfl) rfl rfl
  have tag2 := (Truncated.data file1 change2 inside2 _ _).mpr tag
  obtain ⟨s3, release, tag3, total3⟩ : ∃ s3, (if index = directPointers then
      freePage s2 inode1.indirectBlock else some s2) = some s3 ∧
        s3.mem inode1.indirectBlock = .data bytes ∧ s3.totalBlocks = s2.totalBlocks := by
    by_cases same : index = directPointers
    · obtain ⟨s3, free3, bit3⟩ := freePage_spec file2.bitmapped file2.indirect
      have change3 := bit3.truncated file2 file2.indirect
      have inside3 : ∀ pnum ∈ [inode1.indirectBlock], pnum < s2.totalBlocks := by
        intro pnum member
        rw [List.mem_singleton.mp member]
        exact file2.indirect
      rw [if_pos same]
      exact ⟨s3, free3, (Truncated.data file2 change3 inside3 _ _).mpr tag2, bit3.totalBlocks⟩
    · rw [if_neg same]
      exact ⟨s2, rfl, tag2, rfl⟩
  have bound := file2.indirect
  obtain ⟨s4, link, -⟩ := @linkPointer_spec s3 inode1.indirectBlock (index - directPointers) 0 bytes
    tag3 (by rw [total3]; exact bound) (by omega) (by omega)
  have step : truncateBlocks [index] s1 inode1 = some (inode1, s4) := by
    rw [truncateBlocks, get, Option.bind_eq_bind, Option.bind_some]
    show (if mapped = true ∧ assigned 0 block ≠ 0 then _ else _) = _
    rw [if_pos both]
    show (freePage s1 (assigned 0 block)).bind _ = _
    rw [free, Option.bind_some]
    show (inodeSetBlock s2 inode1 index 0).bind _ = _
    rw [inodeSetBlock_clear behind small linked, release, Option.bind_some, link]
    rfl
  have reached : truncateBlocks (before ++ [index]) s inode = some (inode1, s4) := by
    rw [truncateBlocks_append, run]
    exact step
  obtain ⟨zero, image⟩ := linkPointer_zero link
  have whole : truncateIndices inode size = (before ++ [index]) ++ after := by
    rw [split, List.append_assoc]
    rfl
  refine ⟨?_, before ++ [index], after, inode1, s4, whole, reached, zero, image⟩
  unfold truncateInode
  rw [whole, truncateBlocks_append, reached, Option.bind_eq_bind, Option.bind_some]
  cases rest : truncateBlocks after s4 inode1 with
  | none =>
    show (truncateBlocks after s4 inode1).bind _ = none
    rw [rest]
    rfl
  | some result =>
    obtain ⟨inode5, s5⟩ := result
    have zero5 := truncateBlocks_zeroData after s4 inode1 inode5 s5 zero file1.double
      (fun other member => Nat.le_of_lt (Nat.lt_of_le_of_lt behind (ordered other member))) rest
    show (truncateBlocks after s4 inode1).bind _ = none
    rw [rest]
    show inodeStore s5 { inode5 with size := size } writeThrough = none
    unfold inodeStore inodeWrite
    rw [zero5.read]
    rfl

/-- `_truncate` changes the file's slot, its pointer block, the bits of its blocks and `free_blocks`
only, if and only if it clears no mapped block behind the direct ones. Otherwise its loop makes
block 0 a data block, in the cache and on the image. -/
theorem truncate_frame_iff {path : CString} (file : FileAt s superblock inode)
    (image : ∃ former, s.disk 0 = .super former)
    (search : itemSearch s path = some ⟨inode.inodeNumber, 0⟩)
    (load : inodeLoad s inode.inodeNumber = some inode) (size : Nat) (writeThrough : Bool) :
    ((∃ s', truncate s path size writeThrough = some s' ∧ TruncateFrame s superblock inode s') ↔
      ∀ index ∈ truncateIndices inode size, ¬ MappedBehind s inode index) ∧
    ((∃ index ∈ truncateIndices inode size, MappedBehind s inode index) →
      ∃ before after inode' s', truncateIndices inode size = before ++ after ∧
        truncateBlocks before s inode = some (inode', s') ∧ ZeroData s' ∧
        ∃ bytes, s'.disk 0 = .data bytes) := by
  have run : truncate s path size writeThrough = truncateInode s inode size writeThrough := by
    unfold truncate
    rw [search, Option.bind_eq_bind, Option.bind_some]
    show (inodeLoad s inode.inodeNumber).bind _ = _
    rw [load, Option.bind_some]
  rw [run]
  constructor
  · constructor
    · rintro ⟨s', done, -⟩ index member mapped
      have lost := (truncateInode_exposes file writeThrough ⟨index, member, mapped⟩).1
      rw [lost] at done
      cases done
    · exact fun unmapped => truncateInode_frame file image writeThrough unmapped
  · exact fun mapped => (truncateInode_exposes file writeThrough mapped).2

end

/-- A file of 14 blocks, of which the last one is mapped, to block 5. -/
def longFile : Inode :=
  { indirectInode 4 with
    inodeNumber := 1, mode := fileTypeRegular, size := 14 * usableBlockSize, referenceCount := 1 }

/-- The small image with the file as `/a`. -/
def longFileImage : Store :=
  let named := ((smallImage longFile).put 7 (.btreeNode
    { freshNode 7 false fileTypeDirectory with
      numKeys := 1, keys := fun _ => pathHash [97], children := fun i => if i = 0 then 8 else 0 })).put
        8 (.btreeNode { freshNode 8 true fileTypeRegular with key := pathHash [97], value := 1 })
  { named with disk := named.mem }

/-- Truncating the file to 8 blocks clears its last block. -/
theorem truncate_frame_iff_longFile :
    ((∃ s', truncate longFileImage [47, 97] (8 * usableBlockSize) false = some s' ∧
        TruncateFrame longFileImage smallSuperblock longFile s') ↔
      ∀ index ∈ truncateIndices longFile (8 * usableBlockSize),
        ¬ MappedBehind longFileImage longFile index) ∧
    ((∃ index ∈ truncateIndices longFile (8 * usableBlockSize),
        MappedBehind longFileImage longFile index) →
      ∃ before after inode' s',
        truncateIndices longFile (8 * usableBlockSize) = before ++ after ∧
        truncateBlocks before longFileImage longFile = some (inode', s') ∧ ZeroData s' ∧
        ∃ bytes, s'.disk 0 = .data bytes) := by
  have file : FileAt longFileImage smallSuperblock longFile := by
    have page : ∀ pnum < 16, bitmapPage pnum = 1 := by decide
    refine ⟨rfl, ?_, ⟨fun _ => longFile, rfl⟩, by decide, ?_, by decide, ?_, rfl⟩
    · intro pnum small
      rw [page pnum small]
      exact ⟨show 1 < 16 by decide, _, rfl⟩
    · intro index _
      show 0 < 16
      decide
    · intro bytes tag index _
      obtain rfl : setPointer (fun _ => 0) 1 5 = bytes := Block.data.inj tag
      show _ < 16
      by_cases entry : index = 1
      · rw [entry, pointerAt_setPointer_same _ _ _ (by decide)]
        decide
      · rw [pointerAt_setPointer_other _ _ _ _ entry, pointerAt_zero]
        decide
  have search : itemSearch longFileImage [47, 97] = some ⟨1, 0⟩ := by decide +kernel
  exact truncate_frame_iff file ⟨smallSuperblock, rfl⟩ search rfl (8 * usableBlockSize) false

/-- Whether block 0 is a superblock. -/
def Block.isSuper : Block → Bool
  | .super _ => true
  | _ => false

/-- Truncating the file to 8 blocks makes block 0 another block, in the cache and on the image, and
the truncation does not get to its end. -/
theorem truncate_longFile :
    (longFileImage.mem 0).isSuper = true ∧ (longFileImage.disk 0).isSuper = true ∧
    itemSearch longFileImage [47, 97] = some ⟨1, 0⟩ ∧
    ((truncateBlocks (truncateIndices longFile (8 * usableBlockSize)) longFileImage longFile).map
      fun (_, s) => ((s.mem 0).isSuper, (s.disk 0).isSuper)) = some (false, false) ∧
    (truncate longFileImage [47, 97] (8 * usableBlockSize) false).isNone = true := by
  decide +kernel

end Nbtrfs
