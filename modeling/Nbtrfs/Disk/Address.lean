import Nbtrfs.Config
import Mathlib.Order.CompletePartialOrder
import Mathlib.Order.Interval.Set.Basic

/-!
# Block addressing

`disk_get_block` takes the block number as a 32-bit `int` and adds the `int` product
`BLOCK_SIZE * pnum` to the base of the mapped image. Block numbers are `uint64_t`
everywhere else. The product is exact below block 2^19, that is on the first 2 GiB of an
image, and on no block after that.
-/

namespace Nbtrfs

/-- Conversion to a 32-bit signed `int`, wrapping modulo 2^32. -/
def toInt32 (value : Int) : Int := Int.bmod value (2 ^ 32)

/-- `disk_get_block`: the byte offset from the base of the mapped image. The parameter is an
`int`, so the block number wraps first and the product wraps again. -/
def diskGetBlock (pnum : Nat) : Int := toInt32 (blockSize * toInt32 pnum)

/-- The first block number whose product with `BLOCK_SIZE` leaves the positive `int` range. -/
def addressable : Nat := 2 ^ 19

/-- Below the addressable bound neither conversion wraps. -/
theorem diskGetBlock_exact (pnum : Nat) (small : pnum < addressable) :
    diskGetBlock pnum = blockSize * pnum := by
  unfold addressable at small
  have narrow : toInt32 pnum = pnum :=
    Int.bmod_eq_of_le (by omega) (by omega)
  rw [diskGetBlock, narrow]
  exact Int.bmod_eq_of_le (by unfold blockSize; omega) (by unfold blockSize; omega)

/-- A 32-bit `int` stays below 2^31. -/
theorem toInt32_lt (value : Int) : toInt32 value < 2 ^ 31 := by
  have bound := @Int.bmod_lt value (2 ^ 32) (by decide)
  unfold toInt32
  omega

/-- From the addressable bound on the offset differs from the block's place in the image. -/
theorem diskGetBlock_wraps (pnum : Nat) (large : addressable ≤ pnum) :
    diskGetBlock pnum ≠ blockSize * pnum := by
  have bound := toInt32_lt (blockSize * toInt32 pnum)
  unfold addressable at large
  unfold diskGetBlock
  unfold blockSize at bound ⊢
  omega

/-- The bytes that `disk_read_block` and `disk_write_block` touch for a block. -/
def touched (pnum : Nat) : Set Int := Set.Ico (diskGetBlock pnum) (diskGetBlock pnum + blockSize)

/-- The bytes of an image of a number of blocks. -/
def imageBytes (totalBlocks : Nat) : Set Int := Set.Ico 0 (blockSize * totalBlocks : Int)

/-- Every block of the image is found at its own place, inside the image and apart from
every other block. -/
structure ExactAddressing (totalBlocks : Nat) : Prop where
  /-- The computed offset is the block's place. -/
  offset : ∀ pnum < totalBlocks, diskGetBlock pnum = blockSize * pnum
  /-- No byte outside the mapped image is touched. -/
  inside : ∀ pnum < totalBlocks, touched pnum ⊆ imageBytes totalBlocks
  /-- Distinct blocks share no byte. -/
  apart : ∀ left < totalBlocks, ∀ right < totalBlocks, left ≠ right →
    Disjoint (touched left) (touched right)

/-- Blocks at their own places lie inside an image that holds them. -/
theorem touched_subset_image (pnum totalBlocks : Nat) (small : pnum < totalBlocks)
    (exact : diskGetBlock pnum = blockSize * pnum) : touched pnum ⊆ imageBytes totalBlocks := by
  intro byte inBlock
  simp only [touched, imageBytes, exact, Set.mem_Ico, blockSize] at inBlock ⊢
  omega

/-- Distinct blocks at their own places are disjoint. -/
theorem touched_disjoint (left right : Nat) (distinct : left ≠ right)
    (exactLeft : diskGetBlock left = blockSize * left)
    (exactRight : diskGetBlock right = blockSize * right) :
    Disjoint (touched left) (touched right) := by
  rw [Set.disjoint_left]
  intro byte inLeft inRight
  simp only [touched, exactLeft, exactRight, Set.mem_Ico, blockSize] at inLeft inRight
  omega

/-- The addressing of an image is exact if and only if the image has at most 2^19 blocks. -/
theorem exactAddressing_iff (totalBlocks : Nat) :
    ExactAddressing totalBlocks ↔ totalBlocks ≤ addressable := by
  constructor
  · intro exact
    by_contra large
    exact diskGetBlock_wraps addressable (Nat.le_refl _) (exact.offset addressable (by omega))
  · intro small
    have offset : ∀ pnum < totalBlocks, diskGetBlock pnum = blockSize * pnum :=
      fun pnum inside => diskGetBlock_exact pnum (by omega)
    exact ⟨offset, fun pnum inside => touched_subset_image pnum _ inside (offset pnum inside),
      fun left hl right hr distinct =>
        touched_disjoint left right distinct (offset left hl) (offset right hr)⟩

/-- On the 4096 MB image that the makefile builds, block 2^19 is looked for 2 GiB before the
image, so its addressing is not exact. -/
theorem exactAddressing_image_false :
    (4096 * 2 ^ 20 / blockSize < 2 ^ 31 ∧ 2 ^ 19 < 4096 * 2 ^ 20 / blockSize ∧
      diskGetBlock (2 ^ 19) = -(2 ^ 31)) ∧ ¬ ExactAddressing (4096 * 2 ^ 20 / blockSize) := by
  refine ⟨by decide, fun exact => ?_⟩
  exact diskGetBlock_wraps (2 ^ 19) (by decide) (exact.offset (2 ^ 19) (by decide))

end Nbtrfs
