import Mathlib.Logic.Relation
import Nbtrfs.BTree.Frames

/-!
# What an insertion is made of

An insertion writes nodes over nodes and turns free blocks into nodes, and does nothing else, whatever
the tree looks like. So it keeps what these two steps keep.
-/

namespace Nbtrfs

/-- A step of the B-tree code. -/
inductive NodeStep (s : Store) : Store → Prop
  /-- A node is written over a node. -/
  | write {block : Nat} {node node' : BTreeNode} (tag : s.mem block = .btreeNode node) :
    NodeStep s (s.put block (.btreeNode node'))
  /-- A free block is made a node. -/
  | create {page : Nat} {taken : Store} {node : BTreeNode}
    (alloc : allocPage s = some (page, taken)) (nonzero : page ≠ 0) :
    NodeStep s (taken.put page (.btreeNode node))

/-- Steps of the B-tree code one after the other. -/
abbrev NodeSteps : Store → Store → Prop := Relation.ReflTransGen NodeStep

section

variable {s s' s'' : Store}

/-- `btree_node_create`. -/
theorem btreeNodeNew_steps {isLeaf : Bool} {page : Nat}
    (run : btreeNodeNew s isLeaf = some (page, s')) : NodeSteps s s' := by
  unfold btreeNodeNew btreeNodeCreate at run
  obtain ⟨⟨created, s1⟩, create, run⟩ := Option.bind_eq_some_iff.mp run
  obtain ⟨⟨block, s2⟩, alloc, create⟩ := Option.bind_eq_some_iff.mp create
  dsimp only at create run
  split at create
  case isTrue =>
    obtain ⟨rfl, -⟩ := Prod.mk.inj (Option.some.inj create)
    rw [if_pos rfl] at run
    cases run
  case isFalse nonzero =>
    obtain ⟨former, -, create⟩ := Option.bind_eq_some_iff.mp create
    obtain ⟨rfl, rfl⟩ := Prod.mk.inj (Option.some.inj create)
    rw [if_neg nonzero] at run
    obtain ⟨rfl, rfl⟩ := Prod.mk.inj (Option.some.inj run)
    exact .single (.create alloc nonzero)

/-- `btree_node_write`. -/
theorem btreeNodeWrite_steps {node : BTreeNode} (run : btreeNodeWrite s node = some s') :
    NodeSteps s s' := by
  unfold btreeNodeWrite at run
  obtain ⟨page, get, run⟩ := Option.bind_eq_some_iff.mp run
  obtain ⟨-, tag⟩ := Store.get_eq_some get
  obtain rfl := Option.some.inj run
  split
  case isTrue isNode =>
    cases page with
    | btreeNode former => exact .single (.write tag)
    | super | bitmap | inode | journal | data | untagged => cases isNode
  case isFalse => exact .refl

/-- An assignment through a pointer to a node. -/
theorem btreeNodeModify_steps {block : Nat} {change : BTreeNode → BTreeNode}
    (run : btreeNodeModify s block change = some s') : NodeSteps s s' := by
  unfold btreeNodeModify at run
  obtain ⟨node, load, run⟩ := Option.bind_eq_some_iff.mp run
  obtain rfl := Option.some.inj run
  exact .single (.write (load_eq_some.mp load).2)

/-- `btree_insert_nonfull`. -/
theorem btreeInsertNonfull_steps {root root' : BTreeNode} {page : Nat}
    (run : btreeInsertNonfull s root page = some (root', s')) : NodeSteps s s' := by
  unfold btreeInsertNonfull at run
  split at run
  case isTrue =>
    obtain ⟨-, rfl⟩ := Prod.mk.inj (Option.some.inj run)
    exact .refl
  case isFalse =>
    obtain ⟨node, -, run⟩ := Option.bind_eq_some_iff.mp run
    obtain ⟨position, -, run⟩ := Option.bind_eq_some_iff.mp run
    dsimp only at run
    split at run
    case isTrue => cases run
    case isFalse =>
      obtain ⟨maxKey, -, run⟩ := Option.bind_eq_some_iff.mp run
      obtain ⟨s1, modify, run⟩ := Option.bind_eq_some_iff.mp run
      obtain ⟨-, rfl⟩ := Prod.mk.inj (Option.some.inj run)
      exact btreeNodeModify_steps modify

/-- `btree_update_parent_keys`. -/
theorem btreeUpdateParentKeys_steps {node : BTreeNode}
    (run : btreeUpdateParentKeys s node = some s') : NodeSteps s s' := by
  unfold btreeUpdateParentKeys at run
  split at run
  case isTrue =>
    obtain rfl := Option.some.inj run
    exact .refl
  case isFalse =>
    obtain ⟨parent, -, run⟩ := Option.bind_eq_some_iff.mp run
    obtain ⟨parent', -, run⟩ := Option.bind_eq_some_iff.mp run
    exact btreeNodeWrite_steps run

/-- The insertion into a target with room. -/
theorem insertInto_steps {target : BTreeNode} {page : Nat}
    (run : insertInto s target page = some s') : NodeSteps s s' := by
  unfold insertInto at run
  obtain ⟨⟨target', s1⟩, insert, run⟩ := Option.bind_eq_some_iff.mp run
  obtain ⟨s2, write, run⟩ := Option.bind_eq_some_iff.mp run
  calc
    NodeSteps s s1 := btreeInsertNonfull_steps insert
    NodeSteps s1 s2 := btreeNodeWrite_steps write
    NodeSteps s2 s' := btreeUpdateParentKeys_steps run

/-- The loop that gives children another parent. -/
theorem reparent_steps {children : List Nat} {parent : Nat}
    (run : reparent s children parent = some s') : NodeSteps s s' := by
  induction children generalizing s with
  | nil =>
    obtain rfl := Option.some.inj run
    exact .refl
  | cons block children ih =>
    unfold reparent at run
    rw [List.foldlM_cons] at run
    obtain ⟨s1, first, run⟩ := Option.bind_eq_some_iff.mp run
    have step : NodeSteps s s1 := by
      split at first
      case isTrue =>
        obtain ⟨child, -, first⟩ := Option.bind_eq_some_iff.mp first
        exact btreeNodeWrite_steps first
      case isFalse =>
        obtain rfl := Option.some.inj first
        exact .refl
    exact step.trans (ih run)

/-- The new nodes of a split root. -/
theorem splitRootChildren_steps {root : BTreeNode} {childA childB : Nat}
    (run : splitRootChildren s root = some (childA, childB, s')) : NodeSteps s s' := by
  unfold splitRootChildren at run
  obtain ⟨⟨a, s1⟩, newA, run⟩ := Option.bind_eq_some_iff.mp run
  obtain ⟨⟨b, s2⟩, newB, run⟩ := Option.bind_eq_some_iff.mp run
  obtain ⟨s3, modifyA, run⟩ := Option.bind_eq_some_iff.mp run
  obtain ⟨s4, modifyB, run⟩ := Option.bind_eq_some_iff.mp run
  obtain ⟨s5, parentA, run⟩ := Option.bind_eq_some_iff.mp run
  obtain ⟨s6, parentB, run⟩ := Option.bind_eq_some_iff.mp run
  obtain ⟨-, rest⟩ := Prod.mk.inj (Option.some.inj run)
  obtain ⟨-, rfl⟩ := Prod.mk.inj rest
  calc
    NodeSteps s s1 := btreeNodeNew_steps newA
    NodeSteps s1 s2 := btreeNodeNew_steps newB
    NodeSteps s2 s3 := btreeNodeModify_steps modifyA
    NodeSteps s3 s4 := btreeNodeModify_steps modifyB
    NodeSteps s4 s5 := reparent_steps parentA
    NodeSteps s5 s6 := reparent_steps parentB

/-- New keys in the page of a node. -/
theorem refreshPage_steps {block : Nat} (run : refreshPage s block = some s') :
    NodeSteps s s' := by
  unfold refreshPage at run
  obtain ⟨node, -, run⟩ := Option.bind_eq_some_iff.mp run
  obtain ⟨node', -, run⟩ := Option.bind_eq_some_iff.mp run
  exact btreeNodeModify_steps run

/-- The extra child of a split root. -/
theorem splitRootExtra_steps {root : BTreeNode} {childB : Nat}
    (run : splitRootExtra s root childB = some s') : NodeSteps s s' := by
  unfold splitRootExtra at run
  split at run
  case isTrue =>
    obtain ⟨s1, modify, run⟩ := Option.bind_eq_some_iff.mp run
    exact (btreeNodeModify_steps modify).trans (reparent_steps run)
  case isFalse =>
    obtain rfl := Option.some.inj run
    exact .refl

/-- `btree_split_root`. -/
theorem btreeSplitRoot_steps {root root' : BTreeNode}
    (run : btreeSplitRoot s root = some (root', s')) : NodeSteps s s' := by
  unfold btreeSplitRoot at run
  obtain ⟨⟨a, b, s1⟩, children, run⟩ := Option.bind_eq_some_iff.mp run
  obtain ⟨s2, refreshA, run⟩ := Option.bind_eq_some_iff.mp run
  obtain ⟨s3, refreshB, run⟩ := Option.bind_eq_some_iff.mp run
  obtain ⟨s4, extra, run⟩ := Option.bind_eq_some_iff.mp run
  obtain ⟨s5, modifyA, run⟩ := Option.bind_eq_some_iff.mp run
  obtain ⟨s6, modifyB, run⟩ := Option.bind_eq_some_iff.mp run
  obtain ⟨maxA, -, run⟩ := Option.bind_eq_some_iff.mp run
  obtain ⟨maxB, -, run⟩ := Option.bind_eq_some_iff.mp run
  obtain ⟨s7, write, run⟩ := Option.bind_eq_some_iff.mp run
  obtain ⟨-, rfl⟩ := Prod.mk.inj (Option.some.inj run)
  calc
    NodeSteps s s1 := splitRootChildren_steps children
    NodeSteps s1 s2 := refreshPage_steps refreshA
    NodeSteps s2 s3 := refreshPage_steps refreshB
    NodeSteps s3 s4 := splitRootExtra_steps extra
    NodeSteps s4 s5 := btreeNodeModify_steps modifyA
    NodeSteps s5 s6 := btreeNodeModify_steps modifyB
    NodeSteps s6 s7 := btreeNodeWrite_steps write

/-- `btree_split_child`. -/
theorem btreeSplitChild_steps {fuel index : Nat} {node child node' child' : BTreeNode}
    (run : btreeSplitChild fuel s node index child = some (node', child', s')) :
    NodeSteps s s' := by
  induction fuel generalizing s node index child node' child' s' with
  | zero => cases run
  | succ fuel ih =>
    rw [btreeSplitChild_eq] at run
    obtain ⟨⟨childB, s1⟩, new, run⟩ := Option.bind_eq_some_iff.mp run
    obtain ⟨s2, modify, run⟩ := Option.bind_eq_some_iff.mp run
    obtain ⟨s3, parent, run⟩ := Option.bind_eq_some_iff.mp run
    have steps3 : NodeSteps s s3 := by
      calc
        NodeSteps s s1 := btreeNodeNew_steps new
        NodeSteps s1 s2 := btreeNodeModify_steps modify
        NodeSteps s2 s3 := reparent_steps parent
    dsimp only at run
    split at run
    case isTrue =>
      obtain ⟨maxKey, -, run⟩ := Option.bind_eq_some_iff.mp run
      obtain ⟨linked, -, run⟩ := Option.bind_eq_some_iff.mp run
      obtain ⟨-, rest⟩ := Prod.mk.inj (Option.some.inj run)
      obtain ⟨-, rfl⟩ := Prod.mk.inj rest
      exact steps3
    case isFalse =>
      obtain ⟨⟨upper, s4⟩, split, run⟩ := Option.bind_eq_some_iff.mp run
      have steps4 : NodeSteps s3 s4 := by
        split at split
        case isTrue =>
          obtain ⟨grandparent, -, split⟩ := Option.bind_eq_some_iff.mp split
          obtain ⟨⟨grandparent', upper', s5⟩, deeper, split⟩ := Option.bind_eq_some_iff.mp split
          obtain ⟨s6, write, split⟩ := Option.bind_eq_some_iff.mp split
          obtain ⟨-, rfl⟩ := Prod.mk.inj (Option.some.inj split)
          exact (ih deeper).trans (btreeNodeWrite_steps write)
        case isFalse => exact btreeSplitRoot_steps split
      obtain ⟨currentParent, -, run⟩ := Option.bind_eq_some_iff.mp run
      obtain ⟨currentParent', -, run⟩ := Option.bind_eq_some_iff.mp run
      obtain ⟨s5, writeChild, run⟩ := Option.bind_eq_some_iff.mp run
      obtain ⟨s6, writeParent, run⟩ := Option.bind_eq_some_iff.mp run
      obtain ⟨-, rest⟩ := Prod.mk.inj (Option.some.inj run)
      obtain ⟨-, rfl⟩ := Prod.mk.inj rest
      calc
        NodeSteps s s3 := steps3
        NodeSteps s3 s4 := steps4
        NodeSteps s4 s5 := btreeNodeWrite_steps writeChild
        NodeSteps s5 s6 := btreeNodeWrite_steps writeParent

/-- `btree_insert`. -/
theorem btreeInsert_steps {rootBlock key value type : Nat}
    (run : btreeInsert s rootBlock key value type = some s') : NodeSteps s s' := by
  rw [btreeInsert_eq] at run
  obtain ⟨⟨page, s1⟩, new, run⟩ := Option.bind_eq_some_iff.mp run
  obtain ⟨s2, modify, run⟩ := Option.bind_eq_some_iff.mp run
  have steps2 : NodeSteps s s2 := (btreeNodeNew_steps new).trans (btreeNodeModify_steps modify)
  obtain ⟨targetBlock, -, run⟩ := Option.bind_eq_some_iff.mp run
  obtain ⟨target, -, run⟩ := Option.bind_eq_some_iff.mp run
  split at run
  case isTrue =>
    split at run
    case isTrue =>
      obtain ⟨s3, parent, run⟩ := Option.bind_eq_some_iff.mp run
      obtain ⟨s4, write, run⟩ := Option.bind_eq_some_iff.mp run
      calc
        NodeSteps s s2 := steps2
        NodeSteps s2 s3 := btreeNodeModify_steps parent
        NodeSteps s3 s4 := btreeNodeWrite_steps write
        NodeSteps s4 s' := btreeUpdateParentKeys_steps run
    case isFalse =>
      obtain ⟨s3, split, run⟩ := Option.bind_eq_some_iff.mp run
      have steps3 : NodeSteps s2 s3 := by
        split at split
        case isTrue =>
          obtain ⟨parent, -, split⟩ := Option.bind_eq_some_iff.mp split
          obtain ⟨maxKey, -, split⟩ := Option.bind_eq_some_iff.mp split
          obtain ⟨⟨node, child, s4⟩, child, split⟩ := Option.bind_eq_some_iff.mp split
          obtain rfl := Option.some.inj split
          exact btreeSplitChild_steps child
        case isFalse =>
          obtain ⟨⟨root, s4⟩, root, split⟩ := Option.bind_eq_some_iff.mp split
          obtain rfl := Option.some.inj split
          exact btreeSplitRoot_steps root
      obtain ⟨targetBlock', -, run⟩ := Option.bind_eq_some_iff.mp run
      obtain ⟨target', -, run⟩ := Option.bind_eq_some_iff.mp run
      calc
        NodeSteps s s2 := steps2
        NodeSteps s2 s3 := steps3
        NodeSteps s3 s' := insertInto_steps run
  case isFalse => exact steps2.trans (insertInto_steps run)

/-- A change of nodes, free blocks, the block bitmap and the count of free blocks. -/
structure NodesOnly (s s' : Store) : Prop where
  /-- The image keeps its size. -/
  totalBlocks : s'.totalBlocks = s.totalBlocks
  /-- Former content reads as before. -/
  residue : s'.residue = s.residue
  /-- The bitmap stays in place. -/
  formatted : s'.Formatted
  /-- The superblock changes in the count of free blocks. -/
  superblock : ∀ superblock, superblockRead s = some superblock →
    ∃ freeBlocks, superblockRead s' = some { superblock with freeBlocks }
  /-- Allocated blocks stay allocated. -/
  bits : ∀ block < s.totalBlocks, s.bit block = some true → s'.bit block = some true
  /-- Other allocated blocks are kept. -/
  mem : ∀ block < s.totalBlocks, s.bit block = some true → block ≠ 0 →
    (∀ pnum < s.totalBlocks, bitmapPage pnum ≠ block) →
    (∀ node, s.mem block ≠ .btreeNode node) → s'.mem block = s.mem block

/-- No change. -/
theorem NodesOnly.refl (formatted : s.Formatted) : NodesOnly s s where
  totalBlocks := rfl
  residue := rfl
  formatted := formatted
  superblock superblock read := ⟨superblock.freeBlocks, read⟩
  bits _ _ set := set
  mem _ _ _ _ _ _ := rfl

/-- Two changes. -/
theorem NodesOnly.trans (first : NodesOnly s s') (second : NodesOnly s' s'') :
    NodesOnly s s'' where
  totalBlocks := second.totalBlocks.trans first.totalBlocks
  residue := second.residue.trans first.residue
  formatted := second.formatted
  superblock superblock read := by
    obtain ⟨freeBlocks, read'⟩ := first.superblock superblock read
    obtain ⟨freeBlocks', read''⟩ := second.superblock _ read'
    exact ⟨freeBlocks', read''⟩
  bits block inside set := by
    have inside' : block < s'.totalBlocks := by rwa [first.totalBlocks]
    exact second.bits block inside' (first.bits block inside set)
  mem block inside set nonzero noPage noNode := by
    have kept := first.mem block inside set nonzero noPage noNode
    have inside' : block < s'.totalBlocks := by rwa [first.totalBlocks]
    rw [second.mem block inside' (first.bits block inside set) nonzero, kept]
    · rwa [first.totalBlocks]
    · rwa [kept]

/-- A step changes nodes and free blocks only. -/
theorem NodeStep.only (formatted : s.Formatted) {superblock : Superblock}
    (read : superblockRead s = some superblock) (step : NodeStep s s') : NodesOnly s s' := by
  cases step with
  | @write block node node' tag =>
    have nonzero : block ≠ 0 := by
      rintro rfl
      rw [superblockRead_page read] at tag
      cases tag
    have noPage := formatted.not_page_of_tag fun words page => by
      rw [tag] at page
      cases page
    have samePages : SamePages s (s.put block (.btreeNode node')) :=
      ⟨rfl, fun pnum inside => Store.put_other _ _ _ _ (noPage pnum inside)⟩
    constructor
    · rfl
    · rfl
    · exact samePages.formatted formatted
    · intro other readOther
      refine ⟨other.freeBlocks, superblockRead_of_page ?_⟩
      rw [Store.put_other _ _ _ _ (Ne.symm nonzero)]
      exact superblockRead_page readOther
    · intro other inside set
      rw [samePages.bit inside]
      exact set
    · intro other inside set _ _ noNode
      apply Store.put_other
      rintro rfl
      exact noNode node tag
  | @create page taken node alloc nonzero =>
    rcases allocPage_cases formatted alloc with ⟨zero, -, -⟩ | allocated
    · exact absurd zero nonzero
    · have samePages := allocated.samePages formatted (.btreeNode node)
      constructor
      · exact allocated.change.totalBlocks
      · exact allocated.change.residue
      · exact samePages.formatted allocated.formatted
      · intro other readOther
        refine ⟨other.decrementFree.freeBlocks, superblockRead_of_page ?_⟩
        have taken := allocated.change.superblock
        rw [readOther] at taken
        rw [Store.put_other _ _ _ _ (Ne.symm nonzero)]
        exact superblockRead_page taken
      · intro other inside set
        rw [samePages.bit (by rwa [allocated.change.totalBlocks]), allocated.change.bits]
        split
        · rfl
        · exact set
      · intro other inside set otherNonzero noPage _
        rw [Store.put_other _ _ _ _ (allocated.notTaken set)]
        exact allocated.change.mem other otherNonzero (Ne.symm (noPage page allocated.inside))

/-- So do all steps. -/
theorem NodeSteps.only (formatted : s.Formatted) {superblock : Superblock}
    (read : superblockRead s = some superblock) (steps : NodeSteps s s') : NodesOnly s s' := by
  induction steps with
  | refl => exact .refl formatted
  | tail _ step ih =>
    obtain ⟨freeBlocks, read'⟩ := ih.superblock superblock read
    exact ih.trans (step.only ih.formatted read')

end

end Nbtrfs
