import Nbtrfs.Store.Allocator
import Mathlib.Data.Finset.Card

/-!
# Formatted stores

A store is `Formatted` if the block bitmap is in place and covers its own pages and block 0, so
that no allocated page is one of them. Allocation keeps the format and takes one free block, and
so does every change that keeps the pages of the block bitmap.
-/

namespace Nbtrfs

/-- The block bitmap is in place, and block 0 and the bitmap pages are allocated. -/
structure Store.Formatted (s : Store) : Prop where
  /-- Every block has a bitmap page. -/
  bitmapped : s.Bitmapped
  /-- The image is not empty. -/
  nonempty : 0 < s.totalBlocks
  /-- Block 0 is allocated. -/
  zero : s.bit 0 = some true
  /-- The bitmap pages are allocated. -/
  pages : ∀ pnum < s.totalBlocks, s.bit (bitmapPage pnum) = some true

/-- The free blocks by the bitmap. -/
def Store.freeSet (s : Store) : Finset Nat :=
  (Finset.range s.totalBlocks).filter fun pnum => s.bit pnum = some false

/-- The number of free blocks by the bitmap. -/
def Store.freeCount (s : Store) : Nat := s.freeSet.card

section

variable {s s' : Store}

/-- A block is free if its bit is clear. -/
theorem mem_freeSet {pnum : Nat} :
    pnum ∈ s.freeSet ↔ pnum < s.totalBlocks ∧ s.bit pnum = some false := by
  rw [Store.freeSet, Finset.mem_filter, Finset.mem_range]

/-- The pages of the block bitmap are the same in two stores. -/
structure SamePages (s s' : Store) : Prop where
  /-- The image keeps its size. -/
  totalBlocks : s'.totalBlocks = s.totalBlocks
  /-- The bitmap pages are kept. -/
  pages : ∀ pnum < s.totalBlocks, s'.mem (bitmapPage pnum) = s.mem (bitmapPage pnum)

/-- The same pages have the same bits. -/
theorem SamePages.bit (same : SamePages s s') {pnum : Nat} (inside : pnum < s.totalBlocks) :
    s'.bit pnum = s.bit pnum := by
  unfold Store.bit
  rw [same.pages pnum inside]

/-- The same pages are a bitmap. -/
theorem SamePages.bitmapped (same : SamePages s s') (bitmapped : s.Bitmapped) : s'.Bitmapped := by
  intro pnum inside
  rw [same.totalBlocks] at inside ⊢
  rw [same.pages pnum inside]
  exact bitmapped pnum inside

/-- The same pages keep the format. -/
theorem SamePages.formatted (same : SamePages s s') (formatted : s.Formatted) : s'.Formatted where
  bitmapped := same.bitmapped formatted.bitmapped
  nonempty := by
    rw [same.totalBlocks]
    exact formatted.nonempty
  zero := (same.bit formatted.nonempty).trans formatted.zero
  pages pnum inside := by
    rw [same.totalBlocks] at inside
    rw [same.bit (formatted.bitmapped pnum inside).1]
    exact formatted.pages pnum inside

/-- The same pages have the same free blocks. -/
theorem SamePages.freeSet (same : SamePages s s') : s'.freeSet = s.freeSet := by
  ext pnum
  rw [mem_freeSet, mem_freeSet, same.totalBlocks]
  constructor
  · rintro ⟨inside, clear⟩
    rw [same.bit inside] at clear
    exact ⟨inside, clear⟩
  · rintro ⟨inside, clear⟩
    rw [← same.bit inside] at clear
    exact ⟨inside, clear⟩

/-- The same pages have as many free blocks. -/
theorem SamePages.freeCount (same : SamePages s s') : s'.freeCount = s.freeCount := by
  unfold Store.freeCount
  rw [same.freeSet]

/-- A block that is not allocated is no page of the block bitmap. -/
theorem Store.Formatted.not_page (formatted : s.Formatted) {block : Nat}
    (free : s.bit block = some false) : ∀ pnum < s.totalBlocks, bitmapPage pnum ≠ block := by
  intro pnum inside same
  have set := formatted.pages pnum inside
  rw [same, free] at set
  cases set

/-- A block with another tag than a bitmap is no page of the block bitmap. -/
theorem Store.Formatted.not_page_of_tag (formatted : s.Formatted) {block : Nat}
    (noBitmap : ∀ words, s.mem block ≠ .bitmap words) :
    ∀ pnum < s.totalBlocks, bitmapPage pnum ≠ block := by
  intro pnum inside same
  obtain ⟨-, words, page⟩ := formatted.bitmapped pnum inside
  rw [same] at page
  exact noBitmap words page

/-- Allocating a block keeps the format. -/
theorem BitChange.formatted {pnum : Nat} (change : BitChange s pnum true s')
    (formatted : s.Formatted) : s'.Formatted where
  bitmapped := change.bitmapped formatted.bitmapped
  nonempty := by
    rw [change.totalBlocks]
    exact formatted.nonempty
  zero := by
    rw [change.bits]
    split
    · rfl
    · exact formatted.zero
  pages other inside := by
    rw [change.totalBlocks] at inside
    rw [change.bits]
    split
    · rfl
    · exact formatted.pages other inside

/-- Allocating a free block takes it out of the free ones. -/
theorem BitChange.freeCount {pnum : Nat} (change : BitChange s pnum true s')
    (inside : pnum < s.totalBlocks) (free : s.bit pnum = some false) :
    s'.freeCount + 1 = s.freeCount := by
  have erased : s'.freeSet = s.freeSet.erase pnum := by
    ext other
    rw [Finset.mem_erase, mem_freeSet, mem_freeSet, change.totalBlocks, change.bits]
    by_cases same : other = pnum <;> simp [same]
  unfold Store.freeCount
  rw [erased]
  exact Finset.card_erase_add_one (mem_freeSet.mpr ⟨inside, free⟩)

/-- An allocation: a free block is returned and its bit is set. -/
structure Allocated (s : Store) (page : Nat) (s' : Store) : Prop where
  /-- The page is not block 0. -/
  nonzero : page ≠ 0
  /-- The page is a block of the image. -/
  inside : page < s.totalBlocks
  /-- The page was free. -/
  free : s.bit page = some false
  /-- Its bit is set. -/
  change : BitChange s page true s'
  /-- The store stays formatted. -/
  formatted : s'.Formatted
  /-- There is one free block less. -/
  freeCount : s'.freeCount + 1 = s.freeCount

/-- A block that was in use is another one. -/
theorem Allocated.notTaken {page block : Nat} (allocated : Allocated s page s')
    (set : s.bit block = some true) : block ≠ page := by
  rintro rfl
  rw [allocated.free] at set
  cases set

/-- With a free block `alloc_page` succeeds. -/
theorem allocPage_formatted (formatted : s.Formatted) (room : 0 < s.freeCount) :
    ∃ page s', allocPage s = some (page, s') ∧ Allocated s page s' := by
  have free : ∃ pnum < s.totalBlocks, s.bit pnum = some false := by
    obtain ⟨pnum, inside⟩ := Finset.card_pos.mp room
    exact ⟨pnum, mem_freeSet.mp inside⟩
  obtain ⟨page, s', run, nonzero, inside, clear, change⟩ :=
    allocPage_spec formatted.bitmapped formatted.zero free
  exact ⟨page, s', run, nonzero, inside, clear, change, change.formatted formatted,
    change.freeCount inside clear⟩

/-- Without one it returns 0. -/
theorem allocPage_full (formatted : s.Formatted) (full : s.freeCount = 0) :
    allocPage s = some (0, s) := by
  rcases allocPage_scan formatted.bitmapped with ⟨pnum, s', -, inside, clear, -⟩ | ⟨run, -⟩
  · have free : pnum ∈ s.freeSet := mem_freeSet.mpr ⟨inside, clear⟩
    exact absurd full (Finset.card_ne_zero_of_mem free)
  · exact run

/-- A call of `alloc_page` either fails on a full image or takes a free block. -/
theorem allocPage_cases (formatted : s.Formatted) {page : Nat}
    (run : allocPage s = some (page, s')) :
    (page = 0 ∧ s' = s ∧ s.freeCount = 0) ∨ Allocated s page s' := by
  by_cases full : s.freeCount = 0
  · have failed := (allocPage_full formatted full).symm.trans run
    obtain ⟨zero, same⟩ := Prod.mk.inj (Option.some.inj failed)
    exact Or.inl ⟨zero.symm, same.symm, full⟩
  · obtain ⟨other, after, taken, allocated⟩ :=
      allocPage_formatted formatted (Nat.pos_of_ne_zero full)
    obtain ⟨rfl, rfl⟩ := Prod.mk.inj (Option.some.inj (taken.symm.trans run))
    exact Or.inr allocated

/-- `alloc_page` goes by the bitmap. -/
theorem allocPage_same (formatted : s.Formatted) (same : SamePages s s') {page : Nat} {s1 : Store}
    (run : allocPage s = some (page, s1)) (nonzero : page ≠ 0) :
    ∃ s2, allocPage s' = some (page, s2) := by
  have first : ∀ s : Store, s.Formatted → ∀ page s1, allocPage s = some (page, s1) → page ≠ 0 →
      s.bit page = some false ∧ page < s.totalBlocks ∧
        ∀ other < page, s.bit other ≠ some false := by
    intro s formatted page s1 run nonzero
    rcases allocPage_scan formatted.bitmapped with
      ⟨found, s2, taken, inside, free, before, -⟩ | ⟨failed, -⟩
    · obtain ⟨rfl, -⟩ := Prod.mk.inj (Option.some.inj (taken.symm.trans run))
      exact ⟨free, inside, before⟩
    · exact absurd (Prod.mk.inj (Option.some.inj (failed.symm.trans run))).1.symm nonzero
  have formatted' := same.formatted formatted
  obtain ⟨free, inside, before⟩ := first s formatted page s1 run nonzero
  have room : 0 < s'.freeCount := by
    rw [same.freeCount]
    exact Finset.card_pos.mpr ⟨page, mem_freeSet.mpr ⟨inside, free⟩⟩
  obtain ⟨other, s2, run', allocated⟩ := allocPage_formatted formatted' room
  obtain ⟨free', inside', before'⟩ := first s' formatted' other s2 run' allocated.nonzero
  rw [same.totalBlocks] at inside'
  rw [same.bit inside'] at free'
  rcases Nat.lt_trichotomy other page with less | rfl | more
  · exact absurd free' (before other less)
  · exact ⟨s2, run'⟩
  · rw [← same.bit inside] at free
    exact absurd free (before' page more)

/-- On a full image every bit is set. -/
theorem Store.Formatted.bit_of_full (formatted : s.Formatted) (full : s.freeCount = 0) {pnum : Nat}
    (inside : pnum < s.totalBlocks) : s.bit pnum = some true := by
  obtain ⟨-, words, page⟩ := formatted.bitmapped pnum inside
  have notFree : pnum ∉ s.freeSet := by
    rw [Finset.card_eq_zero.mp full]
    exact Finset.notMem_empty pnum
  have bit : s.bit pnum = some (wordBit (words (pnum % usableBlockSize / 64))
      (pnum % usableBlockSize % 64)) := by
    rw [Store.bit, page]
    rfl
  cases value : wordBit (words (pnum % usableBlockSize / 64)) (pnum % usableBlockSize % 64) with
  | true => rw [bit, value]
  | false =>
    rw [value] at bit
    exact absurd (mem_freeSet.mpr ⟨inside, bit⟩) notFree

/-- Writing an allocated page keeps the bitmap. -/
theorem Allocated.samePages {page : Nat} (allocated : Allocated s page s') (formatted : s.Formatted)
    (content : Block) : SamePages s' (s'.put page content) := by
  refine ⟨rfl, fun pnum inside => Store.put_other _ _ _ _ ?_⟩
  rw [allocated.change.totalBlocks] at inside
  exact formatted.not_page allocated.free pnum inside

end

end Nbtrfs
