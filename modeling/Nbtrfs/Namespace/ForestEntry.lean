import Nbtrfs.Namespace.ForestChange

/-!
# Entries of directories in the forest

`directory_add_entry` and `directory_remove_entry` on a store that holds a forest. Adding a name
enters a leaf, and a root node for a new directory; removing one takes the leaf out when the inode
is freed. Everything else that they do keeps the trees.
-/

namespace Nbtrfs

open Hierarchy (Entry)

/-- What `item_search` returns for keys. -/
def Forest.resolve (forest : Forest) (keys : List Nat) : InodeBtreePair :=
  forest.pair (forest.walk keys)

/-- What a search finds that goes on with more keys from an entry. A directory is taken as empty. -/
def goesOn (key : Nat) : Option (Entry Nat Nat) → List Nat → Option (Entry Nat Nat)
  | none, _ => none
  | some (.directory dir), rest => if rest = [] then some (.directory dir) else none
  | some (.file inodeNumber), rest => if echoes key rest then some (.file inodeNumber) else none

/-- Another forest differs in one entry, and an entry for a directory is one for an empty one. -/
structure Forest.Assigned (forest forest' : Forest) (place : List Nat) (key : Nat)
    (entry : Option (Entry Nat Nat)) : Prop where
  /-- The directories keep their inodes. -/
  inode : ∀ dir ∈ forest.live, forest'.inode dir = forest.inode dir
  /-- Searches elsewhere find the same. -/
  around : ∀ keys, ¬ place ++ [key] <+: keys → forest'.walk keys = forest.walk keys
  /-- Searches through the entry find what it is. -/
  through : ∀ rest, forest'.walk (place ++ [key] ++ rest) = goesOn key entry rest

section

variable {forest forest' : Forest} {layout : Superblock} {s s' : Store}
  {slot : Nat → Inode → Prop} {place : List Nat} {dir : Nat}

/-- A forest and its slots are guarded. -/
theorem Forest.Held.guards (held : forest.Held layout s)
    (plain : (Guard.plain layout slot).Holds s) : (forest.guard layout slot s).Holds s :=
  held.guard plain.slots

/-- The entry of a new name. -/
def newEntry (type inodeNumber : Nat) (btreeBlock : Option Nat) : Entry Nat Nat :=
  if type = fileTypeDirectory then .directory (btreeBlock.getD 0) else .file inodeNumber

/-- The insertion into the B-tree of a directory. -/
theorem Forest.Held.insertName (held : forest.Held layout s)
    (plain : (Guard.plain layout slot).Holds s)
    (reached : forest.walk place = some (.directory dir)) {name : CString}
    (absent : forest.leaf dir (pathHash name) = none)
    (room : (forest.leaves dir).length < maxKeys) {targetInode type : Nat}
    {btreeBlock : Option Nat}
    (run : insertName s dir name targetInode type = some (btreeBlock, s')) :
    ∃ forest', forest'.Held layout s' ∧ (Guard.plain layout slot).Holds s' ∧
      forest.Assigned forest' place (pathHash name) (some (newEntry type targetInode btreeBlock)) ∧
      (forest'.pair (some (newEntry type targetInode btreeBlock))).inodeNumber = targetInode := by
  unfold Nbtrfs.insertName at run
  split at run
  case isTrue directory =>
    obtain ⟨⟨new, s1⟩, create, run⟩ := Option.bind_eq_some_iff.mp run
    obtain ⟨s2, modify, run⟩ := Option.bind_eq_some_iff.mp run
    obtain ⟨s3, insert, run⟩ := Option.bind_eq_some_iff.mp run
    obtain ⟨rfl, rfl⟩ := Prod.mk.inj (Option.some.inj run)
    obtain ⟨held2, plain2, notLive⟩ := held.addRoot plain create modify
    have apart : new ≠ dir := by
      rintro rfl
      exact notLive (held.walk_live reached)
    have notRoot : new ≠ forest.root := by
      rintro rfl
      exact notLive held.rootLive
    have unreached : ∀ keys, forest.walk keys ≠ some (.directory new) :=
      fun keys walked => notLive (held.walk_live walked)
    have fits : (forest.addRoot new targetInode).Fits dir new :=
      ⟨List.mem_cons_self, notRoot, apart, held.dead new notLive, unreached⟩
    obtain ⟨page, grown, perm, held3, plain3⟩ := @Forest.Held.insert (forest.addRoot new targetInode)
      layout s2 s3 slot held2 plain2 place dir reached ⟨pathHash name, new, type⟩ absent room
      (fun _ => fits) insert
    have keys := held3.keys dir
    have here : ((forest.addRoot new targetInode).withLeaves dir grown).leaves dir = grown :=
      if_pos rfl
    rw [here] at keys
    have entries := Forest.entries_insert keys perm
    have isNew : newEntry type targetInode (some new) = .directory new := if_pos directory
    have isLeaf : (Insertion.leaf ⟨pathHash name, new, type⟩ page).entry = .directory new :=
      if_pos directory
    rw [isLeaf] at entries
    have empty : ∀ key, forest.entries new key = none := by
      intro key
      unfold Forest.entries Forest.leaf
      rw [held.dead new notLive]
      rfl
    rw [isNew]
    refine ⟨(forest.addRoot new targetInode).withLeaves dir grown, held3, plain3, ⟨?_, ?_, ?_⟩, ?_⟩
    · intro other live
      have differs : other ≠ new := by
        rintro rfl
        exact notLive live
      exact if_neg differs
    · intro keys elsewhere
      unfold Forest.walk
      rw [entries]
      exact Hierarchy.walk_assign_around held.unshared reached elsewhere
    · intro rest
      unfold Forest.walk
      rw [entries]
      exact Hierarchy.walk_assign_new held.unshared reached empty apart rest
    · exact if_pos rfl
  case isFalse file =>
    obtain ⟨s1, insert, run⟩ := Option.bind_eq_some_iff.mp run
    obtain ⟨rfl, rfl⟩ := Prod.mk.inj (Option.some.inj run)
    obtain ⟨page, grown, perm, held1, plain1⟩ := @Forest.Held.insert forest layout s s1 slot held
      plain place dir reached ⟨pathHash name, targetInode, type⟩ absent room
      (fun directory => absurd directory file) insert
    have keys := held1.keys dir
    have here : (forest.withLeaves dir grown).leaves dir = grown := if_pos rfl
    rw [here] at keys
    have entries := Forest.entries_insert keys perm
    have isNew : newEntry type targetInode none = .file targetInode := if_neg file
    have isLeaf : (Insertion.leaf ⟨pathHash name, targetInode, type⟩ page).entry =
        .file targetInode := if_neg file
    rw [isLeaf] at entries
    rw [isNew]
    refine ⟨forest.withLeaves dir grown, held1, plain1, ⟨fun _ _ => rfl, ?_, ?_⟩, rfl⟩
    · intro keys elsewhere
      unfold Forest.walk
      rw [entries]
      exact Hierarchy.walk_assign_around held.unshared reached elsewhere
    · intro rest
      unfold Forest.walk
      rw [entries]
      exact Hierarchy.walk_assign_through held.unshared reached rest

/-- The use of an entry by `directory_add_entry`. -/
theorem Forest.Held.placeEntry (held : forest.Held layout s)
    (plain : (Guard.plain layout slot).Holds s) {pair : InodeBtreePair}
    (reached : forest.walk place = some (.directory pair.btreeBlock)) {name : CString}
    (absent : forest.leaf pair.btreeBlock (pathHash name) = none)
    (room : (forest.leaves pair.btreeBlock).length < maxKeys) {locals : Locals} {node : Inode}
    {block offset numberOfEntries targetInode type : Nat}
    (run : placeEntry locals s pair node block offset numberOfEntries name targetInode type =
      some s') :
    ∃ forest' btreeBlock, forest'.Held layout s' ∧ (Guard.plain layout slot).Holds s' ∧
      forest.Assigned forest' place (pathHash name) (some (newEntry type targetInode btreeBlock)) ∧
      (forest'.pair (some (newEntry type targetInode btreeBlock))).inodeNumber = targetInode := by
  unfold Nbtrfs.placeEntry at run
  obtain ⟨⟨btreeBlock, s1⟩, insert, run⟩ := Option.bind_eq_some_iff.mp run
  obtain ⟨forest', held1, plain1, assigned, inode⟩ := held.insertName plain reached absent room insert
  obtain ⟨s2, write, run⟩ := Option.bind_eq_some_iff.mp run
  obtain ⟨s3, flush, run⟩ := Option.bind_eq_some_iff.mp run
  obtain ⟨s4, count, run⟩ := Option.bind_eq_some_iff.mp run
  have holds2 := (held1.guards plain1).writeBytes write
  have holds4 := (holds2.diskWriteAs flush).storeEntryCount count
  have holds := holds4.btreeWrite run
  exact ⟨forest', btreeBlock, held1.guarded holds, holds.plain, assigned, inode⟩

end

end Nbtrfs
