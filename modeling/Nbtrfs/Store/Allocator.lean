import Nbtrfs.Store.Block

/-!
# Bitmaps, the superblock and the page allocator

`bitmap.c`, the superblock access of `superblock.c`, and `alloc_page` and `free_page` of
`disk.c`. The block bitmap starts at block 1 and one of its blocks covers `usableBlockSize`
blocks, one bit each.
-/

namespace Nbtrfs

/-- The bit of a word at a position below 64, as `bitmap_get` extracts it. -/
def wordBit (word : BitVec 64) (position : Nat) : Bool :=
  (word &&& (1#64 <<< position)) >>> position == 1#64

/-- A word with the bit at a position set or cleared, as `bitmap_put` does. -/
def setWordBit (word : BitVec 64) (position : Nat) (value : Bool) : BitVec 64 :=
  if value then word ||| (1#64 <<< position) else word &&& ~~~(1#64 <<< position)

/-- `bitmap_get`; `none` stands for -1. -/
def bitmapGet (bm : Block) (ii : Nat) : Option Bool :=
  match bm with
  | .bitmap words => some (wordBit (words (ii / 64)) (ii % 64))
  | _ => none

/-- `bitmap_put`: the page after the change; `none` stands for -1. -/
def bitmapPut (bm : Block) (ii : Nat) (value : Bool) : Option Block :=
  match bm with
  | .bitmap words => some (.bitmap fun other =>
      if other = ii / 64 then setWordBit (words other) (ii % 64) value else words other)
  | _ => none

/-- The mask of a position has that bit alone. -/
theorem mask_getLsbD (position i : Nat) (small : i < 64) :
    (1#64 <<< position).getLsbD i = decide (i = position) := by
  rw [BitVec.getLsbD_shiftLeft, BitVec.getLsbD_one]
  by_cases below : i < position
  · have differs : i ≠ position := by omega
    simp [below, differs]
  · by_cases same : i = position
    · simp [same]
      omega
    · have apart : ¬ i - position = 0 := by omega
      simp [same, apart]

/-- Extracting a bit with the mask and the shift is reading it. -/
theorem wordBit_eq (word : BitVec 64) (position : Nat) (small : position < 64) :
    wordBit word position = word.getLsbD position := by
  have extract : (word &&& (1#64 <<< position)) >>> position =
      if word.getLsbD position then 1#64 else 0#64 := by
    apply BitVec.eq_of_getLsbD_eq
    intro i bound
    rw [BitVec.getLsbD_ushiftRight, BitVec.getLsbD_and]
    by_cases zero : i = 0
    · subst zero
      rw [Nat.add_zero, mask_getLsbD _ _ small]
      cases word.getLsbD position <;> simp
    · have cleared : (word.getLsbD (position + i) &&
          (1#64 <<< position).getLsbD (position + i)) = false := by
        by_cases inside : position + i < 64
        · rw [mask_getLsbD _ _ inside]
          simp [zero]
        · rw [BitVec.getLsbD_of_ge _ _ (by omega), Bool.false_and]
      rw [cleared]
      cases word.getLsbD position <;> simp [zero]
  rw [wordBit, extract]
  cases word.getLsbD position <;> rfl

/-- A changed bit reads as its new value and the others as before. -/
theorem wordBit_setWordBit (word : BitVec 64) (position other : Nat) (value : Bool)
    (small : other < 64) :
    wordBit (setWordBit word position value) other =
      if other = position then value else wordBit word other := by
  rw [wordBit_eq _ _ small, wordBit_eq _ _ small, setWordBit]
  have mask := mask_getLsbD position other small
  by_cases same : other = position
  · rw [if_pos same]
    cases value
    · rw [if_neg Bool.false_ne_true, BitVec.getLsbD_and, BitVec.getLsbD_not, mask]
      simp [same]
    · rw [if_pos rfl, BitVec.getLsbD_or, mask]
      simp [same]
  · rw [if_neg same]
    cases value
    · rw [if_neg Bool.false_ne_true, BitVec.getLsbD_and, BitVec.getLsbD_not, mask]
      simp [same, small]
    · rw [if_pos rfl, BitVec.getLsbD_or, mask]
      simp [same]

/-- A changed bit of a bitmap page reads as its new value and the others as before. -/
theorem bitmapGet_bitmapPut {bm changed : Block} {ii : Nat} {value : Bool}
    (put : bitmapPut bm ii value = some changed) (other : Nat) :
    bitmapGet changed other = if other = ii then some value else bitmapGet bm other := by
  cases bm with
  | bitmap words =>
    obtain rfl : (.bitmap fun at_ =>
      if at_ = ii / 64 then setWordBit (words at_) (ii % 64) value else words at_) = changed :=
      Option.some.inj put
    show some (wordBit (if other / 64 = ii / 64 then setWordBit (words (other / 64)) (ii % 64) value
      else words (other / 64)) (other % 64)) = if other = ii then some value
      else some (wordBit (words (other / 64)) (other % 64))
    by_cases word : other / 64 = ii / 64
    · rw [if_pos word, wordBit_setWordBit _ _ _ _ (Nat.mod_lt _ (by omega))]
      by_cases same : other = ii
      · simp [same]
      · have apart : other % 64 ≠ ii % 64 := by omega
        simp [same, apart]
    · have same : other ≠ ii := fun equal => word (by rw [equal])
      simp [word, same]
  | super | inode | btreeNode | journal | data | untagged => cases put

/-- `superblock_read`; `none` stands for -1. -/
def superblockRead (s : Store) : Option Superblock :=
  match s.mem 0 with
  | .super superblock => some superblock
  | _ => none

/-- `superblock_write`, which does nothing if block 0 has another tag. -/
def superblockWrite (s : Store) (superblock : Superblock) (writeThrough : Bool) : Store :=
  match s.mem 0 with
  | .super _ =>
    let written := s.put 0 (.super superblock)
    if writeThrough then written.flush 0 else written
  | _ => s

/-- A superblock that was read is in block 0. -/
theorem superblockRead_page {s : Store} {superblock : Superblock}
    (read : superblockRead s = some superblock) : s.mem 0 = .super superblock := by
  unfold superblockRead at read
  cases page : s.mem 0 with
  | super content =>
    rw [page] at read
    rw [Option.some.inj read]
  | bitmap | inode | btreeNode | journal | data | untagged =>
    rw [page] at read
    cases read

/-- A superblock in block 0 is read. -/
theorem superblockRead_of_page {s : Store} {superblock : Superblock}
    (page : s.mem 0 = .super superblock) : superblockRead s = some superblock := by
  unfold superblockRead
  rw [page]

/-- A superblock that is written over one is in block 0. -/
theorem superblockWrite_mem {s : Store} {former : Superblock} (page : s.mem 0 = .super former)
    (superblock : Superblock) (writeThrough : Bool) :
    (superblockWrite s superblock writeThrough).mem = (s.put 0 (.super superblock)).mem := by
  unfold superblockWrite
  rw [page]
  cases writeThrough
  · rfl
  · rfl

/-- Writing the superblock keeps the size of the image. -/
theorem superblockWrite_totalBlocks (s : Store) (superblock : Superblock) (writeThrough : Bool) :
    (superblockWrite s superblock writeThrough).totalBlocks = s.totalBlocks := by
  unfold superblockWrite
  split
  · cases writeThrough
    · rfl
    · rfl
  · rfl

/-- The decrement of the 64-bit `free_blocks`. -/
def Superblock.decrementFree (superblock : Superblock) : Superblock :=
  { superblock with
    freeBlocks := if superblock.freeBlocks = 0 then 2 ^ 64 - 1 else superblock.freeBlocks - 1 }

/-- The decrement keeps the number of blocks. -/
@[simp] theorem Superblock.decrementFree_totalBlocks (superblock : Superblock) :
    superblock.decrementFree.totalBlocks = superblock.totalBlocks := rfl

/-- The decrement keeps the place of the inode bitmap. -/
@[simp] theorem Superblock.decrementFree_inodeBitmap (superblock : Superblock) :
    superblock.decrementFree.inodeBitmap = superblock.inodeBitmap := rfl

/-- The read, decrement and write of `free_blocks` in `alloc_page` and `free_page`. If the
read fails the write does nothing either. -/
def decrementFreeBlocks (s : Store) : Store :=
  match superblockRead s with
  | some superblock => superblockWrite s superblock.decrementFree false
  | none => s

/-- The block bitmap page that covers a block. -/
def bitmapPage (pnum : Nat) : Nat := 1 + pnum / usableBlockSize

/-- The loop of `alloc_page` from a block on, with the number of blocks left and the bitmap
page of the block before. Block 0 is both the first block and the failure value. -/
def allocPageFrom (s : Store) : Nat → Nat → Nat → Option (Nat × Store)
  | 0, _, _ => some (0, s)
  | left + 1, ii, pbmn => do
    let pbmn := if ii % usableBlockSize = 0 ∧ ii ≠ 0 then pbmn + 1 else pbmn
    let pbm ← s.get pbmn
    let bit := ii - (pbmn - 1) * usableBlockSize
    if bitmapGet pbm bit = some false then
      match bitmapPut pbm bit true with
      | none => some (0, s)
      | some pbm => some (ii, (decrementFreeBlocks (s.put pbmn pbm)).flush pbmn)
    else allocPageFrom s left (ii + 1) pbmn

/-- `alloc_page`; 0 stands for failure. -/
def allocPage (s : Store) : Option (Nat × Store) := allocPageFrom s s.totalBlocks 0 1

/-- `free_page`, which decrements `free_blocks` as `alloc_page` does. -/
def freePage (s : Store) (pnum : Nat) : Option Store := do
  let pbmn := bitmapPage pnum
  let pbm ← s.get pbmn
  let bit := pnum - (pbmn - 1) * usableBlockSize
  let s := match bitmapPut pbm bit false with
    | none => s
    | some pbm => s.put pbmn pbm
  some ((decrementFreeBlocks s).flush pbmn)

/-- The bitmap's answer for a block; `none` if its bitmap page has another tag. -/
def Store.bit (s : Store) (pnum : Nat) : Option Bool :=
  bitmapGet (s.mem (bitmapPage pnum)) (pnum % usableBlockSize)

/-- Every block of the image has a bitmap page inside the image. -/
def Store.Bitmapped (s : Store) : Prop :=
  ∀ pnum < s.totalBlocks, bitmapPage pnum < s.totalBlocks ∧
    ∃ words, s.mem (bitmapPage pnum) = .bitmap words

/-- A change of one block's bit, with the decrement of `free_blocks`. -/
structure BitChange (s : Store) (pnum : Nat) (value : Bool) (s' : Store) : Prop where
  /-- The block's bit has the value and the other bits are kept. -/
  bits : ∀ other, s'.bit other = if other = pnum then some value else s.bit other
  /-- The bitmap page stays a bitmap. -/
  page : ∃ words, s'.mem (bitmapPage pnum) = .bitmap words
  /-- The superblock loses one free block. -/
  superblock : superblockRead s' = (superblockRead s).map Superblock.decrementFree
  /-- A block 0 of another type is kept. -/
  noSuper : superblockRead s = none → s'.mem 0 = s.mem 0
  /-- The other pages are kept. -/
  mem : ∀ other, other ≠ 0 → other ≠ bitmapPage pnum → s'.mem other = s.mem other
  /-- The image changes in the bitmap page only. -/
  disk : ∀ other, other ≠ bitmapPage pnum → s'.disk other = s.disk other
  /-- The image keeps its size. -/
  totalBlocks : s'.totalBlocks = s.totalBlocks
  /-- Former content reads as before. -/
  residue : s'.residue = s.residue

/-- A bitmap page is never block 0. -/
theorem bitmapPage_ne_zero (pnum : Nat) : bitmapPage pnum ≠ 0 := by
  have positive : 0 < bitmapPage pnum := Nat.add_pos_left Nat.one_pos _
  omega

/-- The bit of a block inside its bitmap page, as the code computes it. -/
theorem bit_position (pnum : Nat) :
    pnum - (bitmapPage pnum - 1) * usableBlockSize = pnum % usableBlockSize := by
  unfold bitmapPage usableBlockSize
  omega

/-- Two blocks of one bitmap page with one position are the same. -/
theorem bitmapPage_position_inj {pnum other : Nat} (page : bitmapPage other = bitmapPage pnum)
    (position : other % usableBlockSize = pnum % usableBlockSize) : other = pnum := by
  unfold bitmapPage usableBlockSize at page
  unfold usableBlockSize at position
  omega

/-- `decrement_free_blocks` changes block 0 at most. -/
theorem decrementFreeBlocks_other (s : Store) (other : Nat) (distinct : other ≠ 0) :
    (decrementFreeBlocks s).mem other = s.mem other := by
  unfold decrementFreeBlocks superblockRead
  cases tag : s.mem 0 <;> simp [superblockWrite, tag, distinct]

/-- The superblock after the decrement. -/
theorem decrementFreeBlocks_read (s : Store) :
    superblockRead (decrementFreeBlocks s) =
      (superblockRead s).map Superblock.decrementFree := by
  unfold decrementFreeBlocks superblockRead
  cases tag : s.mem 0 <;> simp [superblockWrite, tag]

/-- The decrement keeps the image, its size and the residue. -/
theorem decrementFreeBlocks_frame (s : Store) :
    (decrementFreeBlocks s).disk = s.disk ∧
      (decrementFreeBlocks s).totalBlocks = s.totalBlocks ∧
      (decrementFreeBlocks s).residue = s.residue := by
  unfold decrementFreeBlocks superblockRead
  cases tag : s.mem 0 <;> simp [superblockWrite, tag, Store.put]

/-- Writing a changed bitmap page with the decrement and the flush changes one bit. -/
theorem bitChange_of_put {s : Store} {pnum : Nat} {value : Bool} {changed : Block}
    (put : bitmapPut (s.mem (bitmapPage pnum)) (pnum % usableBlockSize) value = some changed) :
    BitChange s pnum value
      ((decrementFreeBlocks (s.put (bitmapPage pnum) changed)).flush (bitmapPage pnum)) := by
  have notSuper := bitmapPage_ne_zero pnum
  have page : (decrementFreeBlocks (s.put (bitmapPage pnum) changed)).mem (bitmapPage pnum) =
      changed := by
    rw [decrementFreeBlocks_other _ _ notSuper, Store.put_same]
  have read : superblockRead (s.put (bitmapPage pnum) changed) = superblockRead s := by
    unfold superblockRead
    rw [Store.put_other _ _ _ _ (Ne.symm notSuper)]
  have frame := decrementFreeBlocks_frame (s.put (bitmapPage pnum) changed)
  refine ⟨?_, ?_, ?_, ?_, ?_, ?_, frame.2.1, frame.2.2⟩
  · intro other
    show bitmapGet ((decrementFreeBlocks (s.put (bitmapPage pnum) changed)).mem
      (bitmapPage other)) (other % usableBlockSize) = _
    by_cases samePage : bitmapPage other = bitmapPage pnum
    · rw [samePage, page, bitmapGet_bitmapPut put]
      by_cases same : other = pnum
      · rw [if_pos same, if_pos (by rw [same])]
      · rw [if_neg same, if_neg (fun position => same (bitmapPage_position_inj samePage position))]
        unfold Store.bit
        rw [samePage]
    · rw [decrementFreeBlocks_other _ _ (bitmapPage_ne_zero other),
        Store.put_other _ _ _ _ samePage, if_neg (fun same => samePage (by rw [same]))]
      rfl
  · cases bm : s.mem (bitmapPage pnum) with
    | bitmap words =>
      rw [bm] at put
      exact ⟨_, page.trans (Option.some.inj put).symm⟩
    | super | inode | btreeNode | journal | data | untagged =>
      rw [bm] at put
      cases put
  · show superblockRead (decrementFreeBlocks (s.put (bitmapPage pnum) changed)) = _
    rw [decrementFreeBlocks_read, read]
  · intro missing
    show (decrementFreeBlocks (s.put (bitmapPage pnum) changed)).mem 0 = s.mem 0
    unfold decrementFreeBlocks
    rw [read, missing]
    exact Store.put_other _ _ _ _ (Ne.symm notSuper)
  · intro other notZero notPage
    show (decrementFreeBlocks (s.put (bitmapPage pnum) changed)).mem other = s.mem other
    rw [decrementFreeBlocks_other _ _ notZero, Store.put_other _ _ _ _ notPage]
  · intro other notPage
    show (if other = bitmapPage pnum then _
      else (decrementFreeBlocks (s.put (bitmapPage pnum) changed)).disk other) = s.disk other
    rw [if_neg notPage, frame.1]
    rfl

/-- A bitmap page can be changed. -/
theorem exists_bitmapPut {bm : Block} {words : Nat → BitVec 64} (tag : bm = .bitmap words)
    (ii : Nat) (value : Bool) : ∃ changed, bitmapPut bm ii value = some changed := by
  subst tag
  exact ⟨_, rfl⟩

/-- `free_page` clears the block's bit. -/
theorem freePage_spec {s : Store} (bitmapped : s.Bitmapped) {pnum : Nat}
    (inside : pnum < s.totalBlocks) :
    ∃ s', freePage s pnum = some s' ∧ BitChange s pnum false s' := by
  obtain ⟨pageInside, words, page⟩ := bitmapped pnum inside
  obtain ⟨changed, put⟩ := exists_bitmapPut page (pnum % usableBlockSize) false
  refine ⟨_, ?_, bitChange_of_put put⟩
  simp only [freePage, Store.get_of_lt pageInside, Option.bind_eq_bind, Option.bind_some,
    bit_position, put]

/-- The scan of `alloc_page` stops at the first clear bit, if there is one. -/
theorem allocPageFrom_spec {s : Store} (bitmapped : s.Bitmapped) (left ii pbmn : Nat)
    (whole : ii + left = s.totalBlocks) (page : pbmn = 1 + (ii - 1) / usableBlockSize) :
    (∃ pnum s', allocPageFrom s left ii pbmn = some (pnum, s') ∧ ii ≤ pnum ∧
      pnum < s.totalBlocks ∧ s.bit pnum = some false ∧
      (∀ other, ii ≤ other → other < pnum → s.bit other ≠ some false) ∧
      BitChange s pnum true s') ∨
    (allocPageFrom s left ii pbmn = some (0, s) ∧
      ∀ pnum, ii ≤ pnum → pnum < s.totalBlocks → s.bit pnum ≠ some false) := by
  induction left generalizing ii pbmn with
  | zero => exact Or.inr ⟨rfl, fun pnum after inside => by omega⟩
  | succ left ih =>
    have inside : ii < s.totalBlocks := by omega
    have current : (if ii % usableBlockSize = 0 ∧ ii ≠ 0 then pbmn + 1 else pbmn) =
        bitmapPage ii := by
      rw [page]
      unfold bitmapPage usableBlockSize
      split <;> omega
    obtain ⟨pageInside, words, tag⟩ := bitmapped ii inside
    rw [allocPageFrom]
    simp only [current, Store.get_of_lt pageInside, Option.bind_eq_bind, Option.bind_some,
      bit_position]
    by_cases clear : bitmapGet (s.mem (bitmapPage ii)) (ii % usableBlockSize) = some false
    · left
      obtain ⟨changed, put⟩ := exists_bitmapPut tag (ii % usableBlockSize) true
      rw [if_pos clear, put]
      exact ⟨ii, _, rfl, Nat.le_refl _, inside, clear, fun other after before => by omega,
        bitChange_of_put put⟩
    · rw [if_neg clear]
      have next : bitmapPage ii = 1 + (ii + 1 - 1) / usableBlockSize := rfl
      rcases ih (ii + 1) (bitmapPage ii) (by omega) next with found | none
      · left
        obtain ⟨pnum, s', run, after, below, free, least, change⟩ := found
        refine ⟨pnum, s', run, by omega, below, free, fun other later before => ?_, change⟩
        by_cases here : other = ii
        · subst here
          exact clear
        · exact least other (by omega) before
      · right
        refine ⟨none.1, fun pnum after below => ?_⟩
        by_cases here : pnum = ii
        · subst here
          exact clear
        · exact none.2 pnum (by omega) below

/-- `alloc_page` takes the first block whose bit is clear, if there is one. -/
theorem allocPage_scan {s : Store} (bitmapped : s.Bitmapped) :
    (∃ pnum s', allocPage s = some (pnum, s') ∧ pnum < s.totalBlocks ∧ s.bit pnum = some false ∧
      (∀ other < pnum, s.bit other ≠ some false) ∧ BitChange s pnum true s') ∨
    (allocPage s = some (0, s) ∧ ∀ pnum < s.totalBlocks, s.bit pnum ≠ some false) := by
  rcases allocPageFrom_spec bitmapped s.totalBlocks 0 1 (Nat.zero_add _)
    (by unfold usableBlockSize; rfl) with ⟨pnum, s', run, -, inside, clear, least, change⟩ | none
  · exact Or.inl ⟨pnum, s', run, inside, clear, fun other => least other (Nat.zero_le _), change⟩
  · exact Or.inr ⟨none.1, fun pnum => none.2 pnum (Nat.zero_le _)⟩

/-- If block 0 is allocated and some block is free, `alloc_page` returns a free block and sets
its bit. -/
theorem allocPage_spec {s : Store} (bitmapped : s.Bitmapped) (zero : s.bit 0 = some true)
    (free : ∃ pnum < s.totalBlocks, s.bit pnum = some false) :
    ∃ pnum s', allocPage s = some (pnum, s') ∧ pnum ≠ 0 ∧ pnum < s.totalBlocks ∧
      s.bit pnum = some false ∧ BitChange s pnum true s' := by
  rcases allocPage_scan bitmapped with ⟨pnum, s', run, inside, clear, -, change⟩ | ⟨-, none⟩
  · refine ⟨pnum, s', run, ?_, inside, clear, change⟩
    intro isZero
    rw [isZero, zero] at clear
    cases clear
  · obtain ⟨pnum, inside, clear⟩ := free
    exact absurd clear (none pnum inside)

/-- A change of one bit keeps the bitmap pages. -/
theorem BitChange.bitmapped {s s' : Store} {pnum : Nat} {value : Bool}
    (change : BitChange s pnum value s') (bitmapped : s.Bitmapped) : s'.Bitmapped := by
  intro other inside
  rw [change.totalBlocks] at inside ⊢
  obtain ⟨pageInside, words, tag⟩ := bitmapped other inside
  refine ⟨pageInside, ?_⟩
  by_cases same : bitmapPage other = bitmapPage pnum
  · rw [same]
    exact change.page
  · rw [change.mem _ (bitmapPage_ne_zero other) same]
    exact ⟨words, tag⟩

end Nbtrfs
