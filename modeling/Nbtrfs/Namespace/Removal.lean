import Nbtrfs.Directory.Guarded
import Nbtrfs.Namespace.Operations

/-!
# Removing names

`directory_remove_entry` goes on behind a match, so one call may deactivate several entries, free an
inode for each and take the name out of the B-tree each time; `_unlink` takes it out once more. What
the single steps keep is kept by the whole call.
-/

namespace Nbtrfs

/-- A property of stores that the steps of a removal keep: those that write entries and inodes, those
that change the image only, and the deletion of the key from a B-tree. -/
structure RemovalKeeps (root key : Nat) (kept : Store → Prop) : Prop where
  /-- Bytes of a data block. -/
  write : ∀ s s' page offset piece, kept s → writeBytes s page offset piece = some s' → kept s'
  /-- `entry_count`. -/
  count : ∀ s s' node former count writeThrough, kept s →
    storeEntryCount s node former count writeThrough = some s' → kept s'
  /-- `inode_free`. -/
  free : ∀ s s' inodeNumber writeThrough, kept s →
    inodeFree s inodeNumber writeThrough = some s' → kept s'
  /-- The image under the cache. -/
  image : ∀ s s', kept s → KeepsPages s s' → kept s'
  /-- `btree_delete`. -/
  delete : ∀ s s' freed, kept s → btreeDelete s root key = some (freed, s') → kept s'

/-- `removeName` step by step. -/
theorem removeName_eq (s : Store) (btreeBlock : Nat) (name : CString) (writeThrough : Bool) :
    removeName s btreeBlock name writeThrough =
      (btreeSearch s btreeBlock (pathHash name)).bind fun treeNodeBlock =>
      (if treeNodeBlock ≠ 0 then
          (btreeDelete s btreeBlock (pathHash name)).bind fun (_, s) => btreeWrite s btreeBlock
        else some s).bind fun s =>
      if writeThrough then btreeWrite s btreeBlock else some s := by
  unfold removeName
  simp only [bind_ite, Option.bind_assoc]
  rfl

/-- The match of `directory_remove_entry` step by step. -/
theorem deactivateEntry_eq (s : Store) (pair : InodeBtreePair) (dirNode fileNode : Inode)
    (block offset numberOfEntries : Nat) (bytes : Nat → UInt8) (name : CString)
    (writeThrough : Bool) :
    deactivateEntry s pair dirNode fileNode block offset numberOfEntries bytes name writeThrough =
      (writeBytes s block (offset + activeOffset) [0]).bind fun s =>
      (inodeReload s (entryInode bytes offset) fileNode).bind fun fileNode =>
      (if fileNode.referenceCount = 1 then
          (inodeFree s (entryInode bytes offset) writeThrough).bind fun s =>
            removeName s pair.btreeBlock name writeThrough
        else some s).bind fun s =>
      (diskWriteBlockAs s block block).bind fun s =>
      (storeEntryCount s dirNode block numberOfEntries writeThrough).bind fun s =>
      some (fileNode, s) := by
  unfold deactivateEntry
  simp only [bind_ite, Option.bind_assoc]
  rfl

/-- `_unlink` step by step. -/
theorem unlink_eq (s : Store) (path : CString) (writeThrough : Bool) :
    unlink s path writeThrough =
      (itemSearch s (parentPath path (countL path))).bind fun pair =>
      (directoryExistsEntry s (parentPath path (countL path)) (getName path)).bind fun entry =>
      (if entry.isSome then
          (directoryRemoveEntry s (parentPath path (countL path)) (getName path)
            writeThrough).bind fun (_, s) => some s
        else some s).bind fun s =>
      (btreeSearch s pair.btreeBlock (pathHash (getName path))).bind fun treeNodeBlock =>
      if treeNodeBlock ≠ 0 then
        (btreeDelete s pair.btreeBlock (pathHash (getName path))).bind fun (_, s) => some s
      else some s := by
  unfold unlink
  simp only [bind_ite, Option.bind_assoc]
  rfl

section

variable {s s' : Store} {kept : Store → Prop} {pair : InodeBtreePair} {name : CString}
  {writeThrough : Bool}

/-- Taking the name of a freed inode out of the B-tree. -/
theorem RemovalKeeps.removeName {root : Nat} (keeps : RemovalKeeps root (pathHash name) kept)
    (here : kept s) (run : removeName s root name writeThrough = some s') : kept s' := by
  rw [removeName_eq] at run
  obtain ⟨treeNodeBlock, -, run⟩ := Option.bind_eq_some_iff.mp run
  obtain ⟨s1, taken, run⟩ := Option.bind_eq_some_iff.mp run
  have kept1 : kept s1 := by
    split at taken
    case isTrue =>
      obtain ⟨⟨freed, s2⟩, delete, write⟩ := Option.bind_eq_some_iff.mp taken
      exact keeps.image s2 s1 (keeps.delete s s2 freed here delete) (btreeWrite_keeps write)
    case isFalse =>
      obtain rfl := Option.some.inj taken
      exact here
  split at run
  · exact keeps.image s1 s' kept1 (btreeWrite_keeps run)
  · obtain rfl := Option.some.inj run
    exact kept1

/-- The match of `directory_remove_entry`. -/
theorem RemovalKeeps.deactivateEntry {block offset numberOfEntries : Nat}
    {dirNode fileNode fileNode' : Inode} {bytes : Nat → UInt8}
    (keeps : RemovalKeeps pair.btreeBlock (pathHash name) kept) (here : kept s)
    (run : deactivateEntry s pair dirNode fileNode block offset numberOfEntries bytes name
      writeThrough = some (fileNode', s')) : kept s' := by
  rw [deactivateEntry_eq] at run
  obtain ⟨s1, write, run⟩ := Option.bind_eq_some_iff.mp run
  have kept1 := keeps.write s s1 _ _ _ here write
  obtain ⟨fileNode1, -, run⟩ := Option.bind_eq_some_iff.mp run
  obtain ⟨s2, release, run⟩ := Option.bind_eq_some_iff.mp run
  have kept2 : kept s2 := by
    split at release
    case isTrue =>
      obtain ⟨s3, free, remove⟩ := Option.bind_eq_some_iff.mp release
      exact keeps.removeName (keeps.free s1 s3 _ _ kept1 free) remove
    case isFalse =>
      obtain rfl := Option.some.inj release
      exact kept1
  obtain ⟨s4, flush, run⟩ := Option.bind_eq_some_iff.mp run
  obtain ⟨s5, count, run⟩ := Option.bind_eq_some_iff.mp run
  obtain ⟨-, rfl⟩ := Prod.mk.inj (Option.some.inj run)
  exact keeps.count s4 s5 _ _ _ _ (keeps.image s2 s4 kept2 (diskWriteBlockAs_keeps flush)) count

/-- The loop of `directory_remove_entry` over blocks. -/
theorem RemovalKeeps.removeEntryFrom {left i numberOfEntries count : Nat} {dirNode fileNode : Inode}
    {found removed : Bool} (keeps : RemovalKeeps pair.btreeBlock (pathHash name) kept)
    (here : kept s)
    (run : removeEntryFrom pair dirNode name writeThrough left i fileNode numberOfEntries count found
      s = some (removed, s')) : kept s' := by
  induction left generalizing i fileNode numberOfEntries count found s with
  | zero =>
    obtain ⟨-, rfl⟩ := Prod.mk.inj (Option.some.inj run)
    exact here
  | succ left ih =>
    rw [Nbtrfs.removeEntryFrom] at run
    obtain ⟨⟨done, mapped⟩, -, run⟩ := Option.bind_eq_some_iff.mp run
    dsimp only at run
    split at run
    case isTrue =>
      obtain ⟨-, rfl⟩ := Prod.mk.inj (Option.some.inj run)
      exact here
    case isFalse =>
      obtain ⟨content, get, run⟩ := Option.bind_eq_some_iff.mp run
      cases content with
      | data bytes =>
        dsimp only at run
        generalize (if i = 0 then entryCount bytes else numberOfEntries) = number at run
        split at run
        case isTrue =>
          obtain ⟨-, rfl⟩ := Prod.mk.inj (Option.some.inj run)
          exact here
        case isFalse =>
          split at run
          case h_1 j counted hit =>
            obtain ⟨⟨fileNode1, s1⟩, deactivate, run⟩ := Option.bind_eq_some_iff.mp run
            exact ih (keeps.deactivateEntry here deactivate) run
          case h_2 => exact ih here run
      | super | bitmap | inode | btreeNode | journal | untagged =>
        obtain ⟨-, rfl⟩ := Prod.mk.inj (Option.some.inj run)
        exact here

/-- `_unlink` ends with a search for the key, and deletes what that finds. -/
theorem RemovalKeeps.unlink {path : CString}
    (keeps : RemovalKeeps pair.btreeBlock (pathHash (getName path)) kept) (here : kept s)
    (search : itemSearch s (parentPath path (countL path)) = some pair)
    (run : unlink s path writeThrough = some s') :
    ∃ s1, kept s1 ∧
      (btreeSearch s1 pair.btreeBlock (pathHash (getName path)) = some 0 ∧ s' = s1 ∨
        ∃ freed, btreeDelete s1 pair.btreeBlock (pathHash (getName path)) = some (freed, s')) := by
  rw [unlink_eq] at run
  obtain ⟨pair', search', run⟩ := Option.bind_eq_some_iff.mp run
  obtain rfl := Option.some.inj (search.symm.trans search')
  obtain ⟨entry, -, run⟩ := Option.bind_eq_some_iff.mp run
  obtain ⟨s1, removed, run⟩ := Option.bind_eq_some_iff.mp run
  have kept1 : kept s1 := by
    split at removed
    case isFalse =>
      obtain rfl := Option.some.inj removed
      exact here
    case isTrue =>
      obtain ⟨⟨done, s2⟩, remove, same⟩ := Option.bind_eq_some_iff.mp removed
      obtain rfl : s2 = s1 := Option.some.inj same
      unfold directoryRemoveEntry at remove
      rw [search, Option.bind_eq_bind, Option.bind_some] at remove
      split at remove
      case isTrue =>
        obtain ⟨dirNode, -, loop⟩ := Option.bind_eq_some_iff.mp remove
        exact keeps.removeEntryFrom here loop
      case isFalse =>
        obtain ⟨-, rfl⟩ := Prod.mk.inj (Option.some.inj remove)
        exact here
  refine ⟨s1, kept1, ?_⟩
  obtain ⟨treeNodeBlock, searched, run⟩ := Option.bind_eq_some_iff.mp run
  split at run
  case isTrue =>
    obtain ⟨⟨freed, s2⟩, delete, same⟩ := Option.bind_eq_some_iff.mp run
    obtain rfl : s2 = s' := Option.some.inj same
    exact Or.inr ⟨freed, delete⟩
  case isFalse zero =>
    rw [Decidable.not_not.mp zero] at searched
    exact Or.inl ⟨searched, (Option.some.inj run).symm⟩

end

end Nbtrfs
