import Nbtrfs.BTree.NodeSteps
import Nbtrfs.Directory.Guarded

/-!
# The B-tree code under a guard

An insertion writes to blocks that hold a node and to blocks that it allocates. So it keeps every
guard that fixes no nodes, whatever the tree looks like.
-/

namespace Nbtrfs

/-- A node holds no inodes. -/
theorem noTable_node (node : BTreeNode) : (Block.btreeNode node).noTable := by
  rintro slots ⟨⟩

section

variable {guard : Guard} {s s' : Store}

/-- A block with a node that is not the guard's is spare. -/
theorem Guard.Holds.spare_node (holds : guard.Holds s) {block : Nat} {node : BTreeNode}
    (tag : s.mem block = .btreeNode node) (free : guard.nodes block = none) :
    guard.Spare block := by
  constructor
  · rintro rfl
    obtain ⟨superblock, read, -⟩ := holds.superblock
    rw [superblockRead_page read] at tag
    cases tag
  · rw [← holds.total]
    apply holds.formatted.not_page_of_tag
    intro words page
    rw [page] at tag
    cases tag
  · exact free

/-- Changing a node that is not the guard's. -/
theorem Guard.Holds.putNode (holds : guard.Holds s) {block : Nat} {node node' : BTreeNode}
    (tag : s.mem block = .btreeNode node) (free : guard.nodes block = none) :
    guard.Holds (s.put block (.btreeNode node')) :=
  holds.putPlain (holds.spare_node tag free) (noTable_node node')

/-- The steps of the B-tree code keep a guard without nodes. -/
theorem Guard.Holds.nodeSteps (holds : guard.Holds s) (noNodes : ∀ block, guard.nodes block = none)
    (allocates : guard.Allocates) (steps : NodeSteps s s') : guard.Holds s' := by
  induction steps with
  | refl => exact holds
  | tail _ step ih =>
    cases step with
    | write tag => exact ih.putNode tag (noNodes _)
    | create alloc nonzero =>
      obtain ⟨holds', fresh⟩ := ih.allocPage allocates alloc
      exact holds'.putPlain (fresh nonzero) (noTable_node _)

end

end Nbtrfs
