import Nbtrfs.Namespace.Created
import Nbtrfs.Namespace.Removal

/-!
# Taking names out of the forest, and linking them

`_unlink` on a store that holds a forest takes the leaf of the name out of its directory, whatever
the directory blocks hold. `_link` to a name that its directory does not have enters a leaf for the
inode; of a directory it makes a new root node, without leaves.
-/

namespace Nbtrfs

open Hierarchy (Entry)

/-- A forest without one leaf of a directory. -/
def Forest.Without (forest forest' : Forest) (dir : Nat) (leaf : Leaf) : Prop :=
  ∃ rest, (forest.leaves dir).Perm (leaf :: rest) ∧ forest' = forest.withLeaves dir rest

/-- The run of `_unlink` behind a store: the forest is held with the leaf or without it. -/
def Forest.Losing (forest : Forest) (layout : Superblock) (dir : Nat) (leaf : Leaf) (s : Store) :
    Prop :=
  ∃ forest', (forest' = forest ∨ forest.Without forest' dir leaf) ∧ forest'.Held layout s

section

variable {forest forest' : Forest} {layout : Superblock} {s s' : Store} {place : List Nat}
  {dir : Nat} {leaf : Leaf}

/-- The other leaves do not have its key. -/
theorem Forest.Without.absent (without : forest.Without forest' dir leaf)
    (keys : ((forest.leaves dir).map Leaf.key).Nodup) : forest'.leaf dir leaf.key = none := by
  obtain ⟨rest, perm, rfl⟩ := without
  have keys' := (perm.map Leaf.key).nodup_iff.mp keys
  rw [List.map_cons, List.nodup_cons] at keys'
  have leaves : (forest.withLeaves dir rest).leaves dir = rest := if_pos rfl
  unfold Forest.leaf
  rw [leaves, List.find?_eq_none]
  intro other inside accepted
  exact keys'.1 (of_decide_eq_true accepted ▸ List.mem_map_of_mem inside)

/-- Without a leaf the walks through it end. -/
theorem Forest.Without.assigned (without : forest.Without forest' dir leaf)
    (held : forest.Held layout s) (reached : forest.walk place = some (.directory dir)) :
    forest.Assigned forest' place leaf.key none := by
  obtain ⟨rest, perm, rfl⟩ := without
  have entries := Forest.entries_erase (held.keys dir) perm
  refine ⟨fun _ _ => rfl, fun keys elsewhere => ?_, fun keys => ?_⟩
  · unfold Forest.walk
    rw [entries]
    exact Hierarchy.walk_assign_around held.unshared reached elsewhere
  · unfold Forest.walk
    rw [entries]
    exact Hierarchy.walk_assign_through held.unshared reached keys

/-- A step that keeps every guard without nodes and bits of its own. -/
theorem Forest.Losing.kept (losing : forest.Losing layout dir leaf s)
    (guarded : ∀ guard : Guard, (∀ inodeNumber inode, guard.slot inodeNumber inode) →
      guard.Holds s → guard.Holds s') : forest.Losing layout dir leaf s' := by
  obtain ⟨forest', kind, held⟩ := losing
  exact ⟨forest', kind, held.guarded (guarded _ (fun _ _ => trivial) held.treesOnly)⟩

/-- `btree_delete` of the key takes the leaf out. -/
theorem Forest.Losing.delete (losing : forest.Losing layout dir leaf s)
    (held : ∃ s, forest.Held layout s) (reached : forest.walk place = some (.directory dir))
    (found : forest.leaf dir leaf.key = some leaf) {freed : Nat}
    (run : btreeDelete s dir leaf.key = some (freed, s')) :
    ∃ forest', forest.Without forest' dir leaf ∧ forest'.Held layout s' := by
  obtain ⟨forest', rfl | without, held'⟩ := losing
  · obtain ⟨s1, rest, run', perm, held1, -⟩ := held'.erase held'.treesOnly.plain reached found
    obtain rfl : s1 = s' := (Prod.mk.inj (Option.some.inj (run'.symm.trans run))).2
    exact ⟨_, ⟨rest, perm, rfl⟩, held1⟩
  · obtain ⟨former, held⟩ := held
    have absent := without.absent (held.keys dir)
    have live : dir ∈ forest'.live := by
      obtain ⟨rest, -, rfl⟩ := without
      exact held.walk_live reached
    have search := held'.search live leaf.key
    rw [absent] at search
    rw [btreeDelete, search, Option.bind_eq_bind, Option.bind_some] at run
    obtain rfl : s = s' := (Prod.mk.inj (Option.some.inj run)).2
    exact ⟨forest', without, held'⟩

/-- The steps of a removal keep a forest that has the leaf or has lost it. -/
theorem losing_keeps (held : forest.Held layout s)
    (reached : forest.walk place = some (.directory dir))
    (found : forest.leaf dir leaf.key = some leaf) :
    RemovalKeeps dir leaf.key (forest.Losing layout dir leaf) where
  write _ _ _ _ _ losing run := losing.kept fun _ _ holds => holds.writeBytes run
  count _ _ _ _ _ _ losing run := losing.kept fun _ _ holds => holds.storeEntryCount run
  free _ _ _ _ losing run := losing.kept fun _ slots holds => holds.inodeFree (slots _ _) run
  image _ _ losing kept := losing.kept fun _ _ holds => holds.same kept.mem kept.totalBlocks
  delete _ _ _ losing run := by
    obtain ⟨forest', without, held'⟩ := losing.delete ⟨s, held⟩ reached found run
    exact ⟨forest', Or.inr without, held'⟩

/-- `_unlink` of a name takes its leaf out. -/
theorem Forest.Held.unlink (held : forest.Held layout s) {components : List CString}
    {name : CString} (isPath : IsPath (components ++ [name]))
    (reached : forest.walk (pathKeys components) = some (.directory dir))
    (found : forest.leaf dir (pathHash name) = some leaf) {writeThrough : Bool}
    (run : unlink s (pathOf (components ++ [name])) writeThrough = some s') :
    ∃ forest', forest'.Held layout s' ∧
      forest.Assigned forest' (pathKeys components) (pathHash name) none := by
  have parent := isPath.parent
  have isName := isPath.1 name (List.mem_append_right _ (List.mem_singleton.mpr rfl))
  have key := (Forest.leaf_found found).2
  have search : Nbtrfs.itemSearch s (pathOf components) = some ⟨forest.inode dir, dir⟩ := by
    rw [held.itemSearch parent, reached]
    rfl
  have below := parentPath_pathOf parent.1 isName
  have last := getName_pathOf components isName
  rw [← key] at found
  have keeps := losing_keeps held reached found
  rw [key, ← last] at keeps
  rw [← below] at search
  have gone : ∀ {s1 : Store} {forest1 : Forest}, forest.Without forest1 dir leaf →
      forest1.Held layout s1 → ∃ forest', forest'.Held layout s1 ∧
        forest.Assigned forest' (pathKeys components) (pathHash name) none := by
    intro s1 forest1 without held1
    have assigned := without.assigned held reached
    rw [key] at assigned
    exact ⟨forest1, held1, assigned⟩
  obtain ⟨s1, losing, ⟨searched, rfl⟩ | ⟨freed, delete⟩⟩ :=
    RemovalKeeps.unlink keeps ⟨forest, Or.inl rfl, held⟩ search run
  · obtain ⟨forest1, rfl | without, held1⟩ := losing
    · rw [last, held1.search (held1.walk_live reached), ← key, found] at searched
      exact absurd (Option.some.inj searched) (held1.stored found).1
    · exact gone without held1
  · rw [last, ← key] at delete
    obtain ⟨forest1, without, held1⟩ := losing.delete ⟨s, held⟩ reached found delete
    exact gone without held1

/-- Block 0 is no node, so that a search there finds nothing to delete. -/
theorem Forest.Held.delete_nowhere (held : forest.Held layout s) {key freed : Nat}
    (run : btreeDelete s 0 key = some (freed, s')) : s = s' := by
  obtain ⟨superblock, read, -⟩ := held.superblock
  obtain ⟨block, search, run⟩ := Option.bind_eq_some_iff.mp run
  unfold btreeSearch Store.walkFuel at search
  rw [btreeSearchFrom] at search
  obtain ⟨found, node, search⟩ := Option.bind_eq_some_iff.mp search
  obtain ⟨page, get, rfl⟩ := Option.map_eq_some_iff.mp node
  obtain ⟨-, rfl⟩ := Store.get_eq_some get
  rw [superblockRead_page read] at search
  obtain rfl := Option.some.inj search
  rw [if_pos rfl] at run
  exact (Prod.mk.inj (Option.some.inj run)).2

/-- `_unlink` of a path whose parent is no directory keeps the forest. -/
theorem Forest.Held.unlink_elsewhere (held : forest.Held layout s) {components : List CString}
    {name : CString} (isPath : IsPath (components ++ [name]))
    (nowhere : ∀ dir, forest.walk (pathKeys components) ≠ some (.directory dir))
    {writeThrough : Bool}
    (run : Nbtrfs.unlink s (pathOf (components ++ [name])) writeThrough = some s') :
    forest.Held layout s' := by
  have parent := isPath.parent
  have isName := isPath.1 name (List.mem_append_right _ (List.mem_singleton.mpr rfl))
  have search := held.itemSearch parent
  have noRoot : (forest.pair (forest.walk (pathKeys components))).btreeBlock = 0 := by
    cases walked : forest.walk (pathKeys components) with
    | none => rfl
    | some entry =>
      cases entry with
      | file inodeNumber => rfl
      | directory dir => exact absurd walked (nowhere dir)
  rw [← parentPath_pathOf parent.1 isName] at search
  have keeps : RemovalKeeps (forest.pair (forest.walk (pathKeys components))).btreeBlock
      (pathHash (getName (pathOf (components ++ [name])))) (forest.Held layout) := by
    rw [noRoot]
    constructor
    · exact fun _ _ _ _ _ held write => held.guarded (held.treesOnly.writeBytes write)
    · exact fun _ _ _ _ _ _ held count => held.guarded (held.treesOnly.storeEntryCount count)
    · exact fun _ _ _ _ held free => held.guarded (held.treesOnly.inodeFree trivial free)
    · exact fun _ _ held kept => held.guarded (held.treesOnly.same kept.mem kept.totalBlocks)
    · intro _ _ _ held delete
      obtain rfl := held.delete_nowhere delete
      exact held
  obtain ⟨s1, held1, ⟨-, rfl⟩ | ⟨freed, delete⟩⟩ := keeps.unlink held search run
  · exact held1
  · rw [noRoot] at delete
    obtain rfl := held1.delete_nowhere delete
    exact held1

/-- `_link` to a name that its directory does not have. -/
theorem Forest.Held.link (held : forest.Held layout s) {source components : List CString}
    {name : CString} (isSource : IsPath source) (isPath : IsPath (components ++ [name]))
    (reached : forest.walk (pathKeys components) = some (.directory dir))
    (absent : forest.leaf dir (pathHash name) = none)
    (room : (forest.leaves dir).length < maxKeys)
    (unlisted : directoryExistsEntry s (pathOf components) name = some none) {locals : Locals}
    {writeThrough : Bool}
    (run : link quietAppend locals s (pathOf source) (pathOf (components ++ [name])) writeThrough =
      some (true, s')) :
    ∃ forest' inode btreeBlock, forest'.Held layout s' ∧
      inodeLoad s (forest.resolve (pathKeys source)).inodeNumber = some inode ∧
      forest.Assigned forest' (pathKeys components) (pathHash name)
        (some (newEntry (inode.mode &&& fileTypeMask)
          (forest.resolve (pathKeys source)).inodeNumber btreeBlock)) ∧
      (forest'.pair (some (newEntry (inode.mode &&& fileTypeMask)
        (forest.resolve (pathKeys source)).inodeNumber btreeBlock))).inodeNumber =
          (forest.resolve (pathKeys source)).inodeNumber := by
  have parent := isPath.parent
  have isName := isPath.1 name (List.mem_append_right _ (List.mem_singleton.mpr rfl))
  unfold Nbtrfs.link at run
  obtain ⟨pair, search, run⟩ := Option.bind_eq_some_iff.mp run
  rw [held.itemSearch isSource] at search
  obtain rfl := Option.some.inj search
  obtain ⟨inode, load, run⟩ := Option.bind_eq_some_iff.mp run
  obtain ⟨entry, exists_, run⟩ := Option.bind_eq_some_iff.mp run
  rw [parentPath_pathOf parent.1 isName, getName_pathOf components isName, unlisted] at exists_
  obtain rfl := Option.some.inj exists_
  obtain ⟨⟨added, s1⟩, add, run⟩ := Option.bind_eq_some_iff.mp run
  rw [parentPath_pathOf parent.1 isName, getName_pathOf components isName] at add
  dsimp only at run
  split at run
  case isTrue done =>
    obtain ⟨s2, store, run⟩ := Option.bind_eq_some_iff.mp run
    obtain ⟨-, rfl⟩ := Prod.mk.inj (Option.some.inj run)
    rw [done] at add
    obtain ⟨forest', btreeBlock, held', -, assigned, inodeNumber⟩ :=
      held.directoryAddEntry held.treesOnly.plain SizesOnly.trivial parent reached
        (fun _ _ _ _ _ => trivial) absent room add
    exact ⟨forest', inode, btreeBlock, held'.guarded (held'.treesOnly.inodeStore trivial store), load,
      assigned, inodeNumber⟩
  case isFalse =>
    obtain ⟨wrong, -⟩ := Prod.mk.inj (Option.some.inj run)
    cases wrong

end

end Nbtrfs
