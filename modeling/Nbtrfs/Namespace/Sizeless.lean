import Nbtrfs.Namespace.Renamed

/-!
# Calls for names in an image without contents

As long as no file has been written, no inode of the table has a size. The calls that make, link, rename
and remove names keep this, so a new directory has nothing to truncate, and every such call takes a forest
to the forest with the one name changed.
-/

namespace Nbtrfs

open Hierarchy (Entry)

/-- An inode without a size. -/
def sizeless : Nat → Inode → Prop := fun _ inode => inode.size = 0

/-- This looks at sizes only. -/
theorem sizeless_sizes : SizesOnly sizeless where
  same _ _ _ here size := size.trans here
  empty _ _ size := size

/-- Such an inode may be written anywhere. -/
theorem sizeless_portable (inodeNumber : Nat) : Portable sizeless inodeNumber :=
  fun _ here _ _ size => size.trans here

/-- A store that holds a forest, where no inode has a size. -/
structure Forest.Bare (forest : Forest) (layout : Superblock) (s : Store) : Prop where
  /-- The forest is held. -/
  held : forest.Held layout s
  /-- No inode has a size. -/
  sizes : (Guard.plain layout sizeless).Holds s

section

variable {forest forest' : Forest} {layout : Superblock} {s s' : Store} {locals : Locals}
  {host : Host} {place place' : List CString} {name name' : CString} {dir mode : Nat} {leaf : Leaf}

/-- An append of another entry than that of a new directory. -/
theorem Forest.Bare.append (bare : forest.Bare layout s) {entry : JournalEntry}
    (plain : entry.transaction.isDirectory = false) (run : quietAppend entry s = some s') :
    forest.Bare layout s' where
  held := bare.held.guarded (bare.held.treesOnly.appendPlain plain run)
  sizes := bare.sizes.appendPlain plain run

/-- `nbtrfs_mknod` of a name that its directory does not have. -/
theorem Forest.Bare.nbtrfsMknod (bare : forest.Bare layout s) (isPath : IsPath (place ++ [name]))
    (reached : forest.walk (pathKeys place) = some (.directory dir))
    (absent : forest.leaf dir (pathHash name) = none)
    (room : (forest.leaves dir).length < maxKeys)
    (run : nbtrfsMknod quietAppend locals host s (pathOf (place ++ [name])) mode = some (true, s')) :
    ∃ forest' inodeNumber btreeBlock,
      (inodeAllocate host s mode true).bind Prod.fst = some inodeNumber ∧ forest'.Bare layout s' ∧
      forest.Assigned forest' (pathKeys place) (pathHash name)
        (some (newEntry (mode &&& fileTypeMask) inodeNumber btreeBlock)) ∧
      (forest'.pair (some (newEntry (mode &&& fileTypeMask) inodeNumber btreeBlock))).inodeNumber =
        inodeNumber := by
  obtain ⟨⟨result, done, s1⟩, made, run⟩ := Option.bind_eq_some_iff.mp run
  obtain ⟨s2, logged, run⟩ := Option.bind_eq_some_iff.mp run
  obtain ⟨rfl, rfl⟩ := Prod.mk.inj (Option.some.inj run)
  obtain ⟨inodeNumber, s3, node, allocate, read, rfl⟩ := mknod_taken made
  have number : node.inodeNumber = inodeNumber := by
    obtain ⟨superblock, -, taken⟩ := Option.bind_eq_some_iff.mp allocate
    exact (inodeAllocateFrom_taken taken).2 node read
  rw [number] at made logged
  obtain ⟨forest', btreeBlock, held1, plain1, assigned, own⟩ := bare.held.mknod bare.sizes
    sizeless_sizes isPath reached (sizeless_portable _) absent room
    (fun other _ _ => sizeless_portable other) made
  have first : (inodeAllocate host s mode true).bind Prod.fst = some inodeNumber := by
    rw [allocate]
    rfl
  have holds1 := held1.guards plain1
  have prepared : ∀ transaction s4, prepareEntry s1 (localEntry (.mknod (pathOf (place ++ [name]))
      mode 0 inodeNumber)).transaction = some (transaction, s4) →
        (forest'.guard layout sizeless s1).Holds s4 := by
    intro transaction s4 prepare
    by_cases directory : mode &&& fileTypeMask = fileTypeDirectory
    · unfold localEntry prepareEntry at prepare
      dsimp only at prepare
      rw [if_pos directory] at prepare
      obtain ⟨pair, search, prepare⟩ := Option.bind_eq_some_iff.mp prepare
      obtain ⟨s5, truncated, prepare⟩ := Option.bind_eq_some_iff.mp prepare
      obtain ⟨-, rfl⟩ := Prod.mk.inj (Option.some.inj prepare)
      exact holds1.truncateEmpty sizeless_sizes search (fun _ here => here) truncated
    · have plain : (localEntry (.mknod (pathOf (place ++ [name])) mode 0
          inodeNumber)).transaction.isDirectory = false := decide_eq_false directory
      rw [prepareEntry_same plain prepare]
      exact holds1
  have holds2 := Guard.Holds.quietAppend prepared logged
  exact ⟨forest', inodeNumber, btreeBlock, first, ⟨held1.guarded holds2, holds2.plain⟩, assigned, own⟩

/-- `_link` to a name that its directory does not have keeps the inodes without sizes. -/
theorem Forest.Bare.link (bare : forest.Bare layout s) {source : List CString}
    (isPath : IsPath (place ++ [name]))
    (reached : forest.walk (pathKeys place) = some (.directory dir))
    (absent : forest.leaf dir (pathHash name) = none)
    (room : (forest.leaves dir).length < maxKeys)
    (unlisted : directoryExistsEntry s (pathOf place) name = some none) {writeThrough : Bool}
    (run : link quietAppend locals s (pathOf source) (pathOf (place ++ [name])) writeThrough =
      some (true, s')) : (Guard.plain layout sizeless).Holds s' := by
  have held := bare.held
  have parent := isPath.parent
  have isName := isPath.1 name (List.mem_append_right _ (List.mem_singleton.mpr rfl))
  unfold Nbtrfs.link at run
  obtain ⟨pair, search, run⟩ := Option.bind_eq_some_iff.mp run
  obtain ⟨inode, load, run⟩ := Option.bind_eq_some_iff.mp run
  obtain ⟨entry, exists_, run⟩ := Option.bind_eq_some_iff.mp run
  rw [parentPath_pathOf parent.1 isName, getName_pathOf place isName, unlisted] at exists_
  obtain rfl := Option.some.inj exists_
  obtain ⟨⟨added, s1⟩, add, run⟩ := Option.bind_eq_some_iff.mp run
  rw [parentPath_pathOf parent.1 isName, getName_pathOf place isName] at add
  dsimp only at run
  split at run
  case isTrue done =>
    obtain ⟨s2, store, run⟩ := Option.bind_eq_some_iff.mp run
    obtain ⟨-, rfl⟩ := Prod.mk.inj (Option.some.inj run)
    rw [done] at add
    obtain ⟨forest', btreeBlock, held', plain, -, -⟩ := held.directoryAddEntry bare.sizes
      sizeless_sizes parent reached (sizeless_portable _) absent room add
    have read : inodeRead s pair.inodeNumber = some (some inode) := Option.join_eq_some_iff.mp load
    have size : inode.size = 0 := bare.sizes.slot_read read
    have linked : sizeless inode.linked.inodeNumber inode.linked := size
    exact plain.inodeStore linked store
  case isFalse =>
    obtain ⟨wrong, -⟩ := Prod.mk.inj (Option.some.inj run)
    cases wrong

/-- `_unlink` of a name of a forest keeps the inodes without sizes. -/
theorem Forest.Bare.unlink (bare : forest.Bare layout s) (isPath : IsPath (place ++ [name]))
    (reached : forest.walk (pathKeys place) = some (.directory dir))
    (found : forest.leaf dir (pathHash name) = some leaf) {writeThrough : Bool}
    (run : unlink s (pathOf (place ++ [name])) writeThrough = some s') :
    (Guard.plain layout sizeless).Holds s' := by
  have parent := isPath.parent
  have isName := isPath.1 name (List.mem_append_right _ (List.mem_singleton.mpr rfl))
  have key := (Forest.leaf_found found).2
  have search : Nbtrfs.itemSearch s (pathOf place) = some ⟨forest.inode dir, dir⟩ := by
    rw [bare.held.itemSearch parent, reached]
    rfl
  rw [← parentPath_pathOf parent.1 isName] at search
  rw [← key] at found
  have trees := losing_keeps bare.held reached found
  have delete : ∀ s1 s2 freed, forest.Losing layout dir leaf s1 →
      (Guard.plain layout sizeless).Holds s1 → btreeDelete s1 dir leaf.key = some (freed, s2) →
      (Guard.plain layout sizeless).Holds s2 := by
    rintro s1 s2 freed ⟨forest1, rfl | without, held1⟩ sizes1 deleted
    · obtain ⟨s3, rest, run', -, -, plain, -⟩ := held1.erase sizes1 reached found
      obtain rfl := (Prod.mk.inj (Option.some.inj (run'.symm.trans deleted))).2
      exact plain
    · have live : dir ∈ forest1.live := by
        obtain ⟨rest, -, rfl⟩ := without
        exact bare.held.walk_live reached
      have searched := held1.search live leaf.key
      rw [without.absent (bare.held.keys dir)] at searched
      rw [btreeDelete, searched, Option.bind_eq_bind, Option.bind_some] at deleted
      obtain rfl := (Prod.mk.inj (Option.some.inj deleted)).2
      exact sizes1
  have keeps : RemovalKeeps dir leaf.key
      (fun s => forest.Losing layout dir leaf s ∧ (Guard.plain layout sizeless).Holds s) := by
    constructor
    · exact fun s s' page offset piece here write =>
        ⟨trees.write s s' page offset piece here.1 write, here.2.writeBytes write⟩
    · exact fun s s' node former count through here store =>
        ⟨trees.count s s' node former count through here.1 store, here.2.storeEntryCount store⟩
    · exact fun s s' number through here free =>
        ⟨trees.free s s' number through here.1 free, here.2.inodeFree rfl free⟩
    · exact fun s s' here kept =>
        ⟨trees.image s s' here.1 kept, here.2.same kept.mem kept.totalBlocks⟩
    · exact fun s s' freed here deleted =>
        ⟨trees.delete s s' freed here.1 deleted, delete s s' freed here.1 here.2 deleted⟩
  rw [key, ← getName_pathOf place isName] at keeps
  obtain ⟨s1, ⟨losing, sizes⟩, ⟨-, rfl⟩ | ⟨freed, deleted⟩⟩ := RemovalKeeps.unlink keeps
    ⟨⟨forest, Or.inl rfl, bare.held⟩, bare.sizes⟩ search run
  · exact sizes
  · rw [getName_pathOf place isName, ← key] at deleted
    exact delete s1 s' freed losing sizes deleted

end

end Nbtrfs
