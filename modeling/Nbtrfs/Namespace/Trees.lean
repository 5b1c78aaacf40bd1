import Nbtrfs.Library.NameTree
import Nbtrfs.Namespace.Sizeless

/-!
# The tree of names over a run

A tree of names says what each path is: a directory or a file, and its inode. The calls that make, link,
rename and remove names change the tree at their paths, and the store stays one whose searches lead every
path to what it is in the tree. The names are those of a type whose bytes have distinct hashes.
-/

namespace Nbtrfs

open Hierarchy (Entry)
open NameTree (Node WellFormed Spells Behind)

/-- What an entry is, with its inode. -/
def Forest.node (forest : Forest) : Entry Nat Nat → Node Nat
  | .directory dir => .directory (forest.inode dir)
  | .file inodeNumber => .file inodeNumber

/-- What keys lead to. -/
def Forest.shown (forest : Forest) (keys : List Nat) : Option (Node Nat) :=
  (forest.walk keys).map forest.node

/-- What a new name is. -/
def made (type inodeNumber : Nat) : Node Nat :=
  if type = fileTypeDirectory then .directory inodeNumber else .file inodeNumber

section

variable {Name : Type}

/-- The keys that the root node of a directory's tree has. -/
def treeCount (s : Store) (path : CString) : Option Nat := do
  let pair ← itemSearch s path
  let node ← btreeNodeLoad s pair.btreeBlock
  some node.numKeys

/-- The calls that make, link, rename and remove the name of a path, and the change of a mode. -/
inductive PathCall (Name : Type) where
  /-- `nbtrfs_mknod`. -/
  | mknod (mode : Nat)
  /-- `nbtrfs_mkdir`. -/
  | mkdir (mode : Nat)
  /-- `nbtrfs_link`. -/
  | link (source : List Name)
  /-- `nbtrfs_rename`. -/
  | rename (source : List Name)
  /-- `nbtrfs_unlink`. -/
  | unlink
  /-- `nbtrfs_rmdir`. -/
  | rmdir
  /-- `nbtrfs_chmod`. -/
  | chmod (mode : Nat)

/-- The call of a path: whether it returns 0, and the store after it. -/
def PathCall.run (bytes : Name → CString) (locals : Locals) (host : Host) (s : Store)
    (path : List Name) : PathCall Name → Option (Bool × Store)
  | .mknod mode => nbtrfsMknod quietAppend locals host s (pathOf (path.map bytes)) mode
  | .mkdir mode => nbtrfsMkdir quietAppend locals host s (pathOf (path.map bytes)) mode
  | .link source =>
    nbtrfsLink quietAppend locals s (pathOf (source.map bytes)) (pathOf (path.map bytes))
  | .rename source =>
    nbtrfsRename quietAppend locals s (pathOf (source.map bytes)) (pathOf (path.map bytes))
  | .unlink => (nbtrfsUnlink quietAppend s (pathOf (path.map bytes))).map fun s => (true, s)
  | .rmdir => (nbtrfsRmdir quietAppend s (pathOf (path.map bytes))).map fun s => (true, s)
  | .chmod mode => nbtrfsChmod quietAppend s (pathOf (path.map bytes)) mode

/-- The inode that a new name gets. -/
def takenInode (host : Host) (s : Store) (mode : Nat) : Nat :=
  ((inodeAllocate host s mode true).bind Prod.fst).getD 0

/-- The tree after a call. -/
def PathCall.after [DecidableEq Name] (host : Host) (s : Store) (tree : List Name → Option (Node Nat)) (path : List Name) :
    PathCall Name → List Name → Option (Node Nat)
  | .mknod mode =>
    NameTree.add tree path (Nbtrfs.made (mode &&& fileTypeMask) (takenInode host s mode))
  | .mkdir mode =>
    NameTree.add tree path (Nbtrfs.made ((mode ||| fileTypeDirectory) &&& fileTypeMask)
      (takenInode host s (mode ||| fileTypeDirectory)))
  | .link source =>
    match tree source with
    | some node => NameTree.add tree path node
    | none => tree
  | .rename source =>
    match tree source with
    | some node => NameTree.remove (NameTree.add tree path node) source
    | none => tree
  | .unlink => NameTree.remove tree path
  | .rmdir => NameTree.remove tree path
  | .chmod _ => tree

/-- A name that is new in a directory of the tree. -/
def NewName (tree : List Name → Option (Node Nat)) (place : List Name) (name : Name) : Prop :=
  (∃ id, tree place = some (.directory id)) ∧ tree (place ++ [name]) = none

/-- What a call asks of the tree: new names are new in their directories, links and renames have files
as their sources, and removed names are there. -/
def PathCall.Legal (tree : List Name → Option (Node Nat)) (place : List Name) (name : Name) :
    PathCall Name → Prop
  | .mknod _ => NewName tree place name
  | .mkdir _ => NewName tree place name
  | .link source => NewName tree place name ∧ ∃ id, tree source = some (.file id)
  | .rename source => NewName tree place name ∧ ∃ id, tree source = some (.file id)
  | .unlink => tree (place ++ [name]) ≠ none
  | .rmdir => tree (place ++ [name]) ≠ none
  | .chmod _ => True

/-- The directory has room for a name in its root node. -/
def HasRoom (s : Store) (place : List CString) : Prop :=
  ∃ count < maxKeys, treeCount s (pathOf place) = some count

/-- The inode of a source is no directory, and no entry of the directory is left over that has the name,
once the journal entry is appended. -/
def Linkable (s : Store) (source place : List CString) (name : CString) (transaction : Transaction) :
    Prop :=
  IsPath source ∧ HasRoom s place ∧ (∃ type ≠ fileTypeDirectory, linkedType s source = some type) ∧
    ∀ s1, quietAppend (localEntry transaction) s = some s1 →
      directoryExistsEntry s1 (pathOf place) name = some none

/-- What a call asks of the store. -/
def PathCall.Ready (bytes : Name → CString) (s : Store) (place : List Name) (name : Name) :
    PathCall Name → Prop
  | .mknod _ => HasRoom s (place.map bytes)
  | .mkdir _ => HasRoom s (place.map bytes)
  | .link source => Linkable s (source.map bytes) (place.map bytes) (bytes name)
      (.link (pathOf (source.map bytes)) (pathOf ((place ++ [name]).map bytes)))
  | .rename source => Linkable s (source.map bytes) (place.map bytes) (bytes name)
      (.rename (pathOf (source.map bytes)) (pathOf ((place ++ [name]).map bytes)))
  | .unlink => True
  | .rmdir => True
  | .chmod _ => True

/-- The key of a name. -/
def nameKey (bytes : Name → CString) (name : Name) : Nat := pathHash (bytes name)

/-- A store without contents shows a tree of names. -/
structure Forest.ShowsTree (forest : Forest) (layout : Superblock) (s : Store)
    (bytes : Name → CString) (tree : List Name → Option (Node Nat)) : Prop where
  /-- The store holds a forest, and no inode has a size. -/
  bare : forest.Bare layout s
  /-- The root is a directory, and so is what a path is in. -/
  well : WellFormed tree
  /-- Every path leads to what it is in the tree. -/
  spells : Spells (nameKey bytes) forest.shown tree

variable {forest forest' : Forest} {layout : Superblock} {s s' : Store} {bytes : Name → CString}
  {tree : List Name → Option (Node Nat)} {place path : List Name} {name : Name} {node : Node Nat}
  {id dir : Nat} {locals : Locals} {host : Host}

/-- The keys of a path. -/
theorem map_nameKey (bytes : Name → CString) (path : List Name) :
    path.map (nameKey bytes) = pathKeys (path.map bytes) := by
  unfold pathKeys
  rw [List.map_map]
  rfl

/-- The keys of a name in a directory. -/
theorem nameKey_concat (bytes : Name → CString) (place : List Name) (name : Name) :
    (place ++ [name]).map (nameKey bytes) = pathKeys (place.map bytes) ++ [pathHash (bytes name)] := by
  rw [List.map_append, map_nameKey]
  rfl

/-- A directory of the tree is reached. -/
theorem Forest.ShowsTree.reached (shows_ : forest.ShowsTree layout s bytes tree)
    (directory : tree place = some (.directory id)) :
    ∃ dir, forest.walk (pathKeys (place.map bytes)) = some (.directory dir) ∧ forest.inode dir = id := by
  have walked := shows_.spells.named place _ directory
  rw [map_nameKey] at walked
  obtain ⟨entry, found, same⟩ := Option.map_eq_some_iff.mp walked
  cases entry with
  | directory dir => exact ⟨dir, found, Node.directory.inj same⟩
  | file inodeNumber => cases same

/-- What a directory has for a name. -/
theorem Forest.shown_last (reached : forest.walk (pathKeys (place.map bytes)) = some (.directory dir)) :
    forest.shown ((place ++ [name]).map (nameKey bytes)) =
      ((forest.leaf dir (pathHash (bytes name))).map Leaf.entry).map forest.node := by
  rw [nameKey_concat, Forest.shown]
  unfold Forest.walk at reached ⊢
  rw [Hierarchy.walk_last reached rfl]
  rfl

/-- A name that the tree does not have in a directory has no leaf. -/
theorem Forest.ShowsTree.absent (shows_ : forest.ShowsTree layout s bytes tree)
    (directory : tree place = some (.directory id)) (absent : tree (place ++ [name]) = none)
    (reached : forest.walk (pathKeys (place.map bytes)) = some (.directory dir)) :
    forest.leaf dir (pathHash (bytes name)) = none := by
  have nothing := shows_.spells.nothing (place ++ [name]) absent
    (shows_.well.absent_not_behind directory)
  rw [Forest.shown_last reached] at nothing
  exact Option.map_eq_none_iff.mp (Option.map_eq_none_iff.mp nothing)

/-- A name that the tree has in a directory has one. -/
theorem Forest.ShowsTree.leaf (shows_ : forest.ShowsTree layout s bytes tree)
    (named : tree (place ++ [name]) = some node)
    (reached : forest.walk (pathKeys (place.map bytes)) = some (.directory dir)) :
    ∃ leaf, forest.leaf dir (pathHash (bytes name)) = some leaf := by
  have found := shows_.spells.named _ _ named
  rw [Forest.shown_last reached] at found
  obtain ⟨entry, entered, -⟩ := Option.map_eq_some_iff.mp found
  obtain ⟨leaf, isLeaf, -⟩ := Option.map_eq_some_iff.mp entered
  exact ⟨leaf, isLeaf⟩

/-- What is found for a path of the tree. -/
theorem Forest.ShowsTree.search (shows_ : forest.ShowsTree layout s bytes tree)
    (isPath : IsPath (path.map bytes)) (file : tree path = some (.file id)) :
    itemSearch s (pathOf (path.map bytes)) = some ⟨id, 0⟩ := by
  have walked := shows_.spells.named path _ file
  rw [map_nameKey] at walked
  obtain ⟨entry, found, same⟩ := Option.map_eq_some_iff.mp walked
  cases entry with
  | directory dir => cases same
  | file inodeNumber =>
    obtain rfl := Node.file.inj same
    rw [shows_.bare.held.itemSearch isPath, found]
    rfl

/-- Keys that do not go through a changed name lead to what they led to. -/
theorem Forest.Assigned.shown_around {keys at_ : List Nat} {key : Nat}
    {entry : Option (Entry Nat Nat)} (assigned : forest.Assigned forest' at_ key entry)
    (held : forest.Held layout s) (around : ¬ at_ ++ [key] <+: keys) :
    forest'.shown keys = forest.shown keys := by
  unfold Forest.shown
  rw [assigned.around keys around]
  cases walked : forest.walk keys with
  | none => rfl
  | some found =>
    cases found with
    | file inodeNumber => rfl
    | directory dir =>
      have inode := assigned.inode dir (held.walk_live walked)
      show some (Node.directory (forest'.inode dir)) = _
      rw [inode]
      rfl

/-- The leaves of a directory are counted by its root node. -/
theorem Forest.Held.treeCount (held : forest.Held layout s) {place : List CString}
    (isPath : IsPath place) (reached : forest.walk (pathKeys place) = some (.directory dir)) :
    treeCount s (pathOf place) = some (forest.leaves dir).length := by
  obtain ⟨type, node, flat, -⟩ := held.tree dir (held.walk_live reached)
  rw [Nbtrfs.treeCount, held.itemSearch isPath, reached, Option.bind_eq_bind, Option.bind_some]
  show (btreeNodeLoad s dir).bind _ = _
  rw [flat.stored.load, Option.bind_some, flat.numKeys]

/-- Room for a name is room for a leaf. -/
theorem Forest.Held.room (held : forest.Held layout s) {place : List CString} (isPath : IsPath place)
    (reached : forest.walk (pathKeys place) = some (.directory dir)) (room : HasRoom s place) :
    (forest.leaves dir).length < maxKeys := by
  obtain ⟨count, small, counted⟩ := room
  rw [held.treeCount isPath reached] at counted
  rw [Option.some.inj counted]
  exact small

/-- The bytes of a name in a directory. -/
theorem map_concat (bytes : Name → CString) (place : List Name) (name : Name) :
    (place ++ [name]).map bytes = place.map bytes ++ [bytes name] := List.map_append

/-- An append keeps the tree. -/
theorem Forest.ShowsTree.append (shows_ : forest.ShowsTree layout s bytes tree) {entry : JournalEntry}
    (plain : entry.transaction.isDirectory = false) (run : quietAppend entry s = some s') :
    forest.ShowsTree layout s' bytes tree :=
  ⟨shows_.bare.append plain run, shows_.well, shows_.spells⟩

/-- An append keeps the room. -/
theorem Forest.ShowsTree.hasRoom (shows_ : forest.ShowsTree layout s bytes tree)
    {entry : JournalEntry} (plain : entry.transaction.isDirectory = false)
    (append : quietAppend entry s = some s') (new : NewName tree place name)
    (isPath : IsPath ((place ++ [name]).map bytes)) (room : HasRoom s (place.map bytes)) :
    HasRoom s' (place.map bytes) := by
  obtain ⟨⟨id, directory⟩, -⟩ := new
  obtain ⟨dir, reached, -⟩ := shows_.reached directory
  rw [map_concat] at isPath
  obtain ⟨count, small, counted⟩ := room
  refine ⟨count, small, ?_⟩
  rw [← counted, shows_.bare.held.treeCount isPath.parent reached,
    (shows_.append plain append).bare.held.treeCount isPath.parent reached]

/-- The inode of a file of the tree that is linked is no directory. -/
theorem Forest.ShowsTree.regular (shows_ : forest.ShowsTree layout s bytes tree) {source : List Name}
    (isSource : IsPath (source.map bytes)) (file : tree source = some (.file id))
    (kind : ∃ type ≠ fileTypeDirectory, linkedType s (source.map bytes) = some type)
    {entry : JournalEntry} (plain : entry.transaction.isDirectory = false)
    (append : quietAppend entry s = some s') :
    ∀ inode, inodeLoad s' id = some inode → inode.mode &&& fileTypeMask ≠ fileTypeDirectory := by
  obtain ⟨type, regular, linked⟩ := kind
  intro inode load
  have before := shows_.bare.held.load_appended plain append load
  have found : foundInode s (source.map bytes) = some id := by
    rw [foundInode, shows_.search isSource file]
    rfl
  rw [linkedType, found, Option.bind_eq_bind, Option.bind_some, before] at linked
  obtain rfl := Option.some.inj linked
  exact regular

/-- `nbtrfs_chmod`. -/
theorem Forest.ShowsTree.nbtrfsChmod (shows_ : forest.ShowsTree layout s bytes tree)
    {path : CString} {mode : Nat} (run : nbtrfsChmod quietAppend s path mode = some (true, s')) :
    forest.ShowsTree layout s' bytes tree := by
  obtain ⟨s1, append, run⟩ := Option.bind_eq_some_iff.mp run
  obtain ⟨bare, well, spells⟩ := shows_.append rfl append
  obtain ⟨pair, -, run⟩ := Option.bind_eq_some_iff.mp run
  obtain ⟨found, read, run⟩ := Option.bind_eq_some_iff.mp run
  cases found with
  | none =>
    obtain ⟨wrong, -⟩ := Prod.mk.inj (Option.some.inj run)
    cases wrong
  | some inode =>
    have size : inode.size = 0 := bare.sizes.slot_read read
    have changed : sizeless inode.inodeNumber { inode with mode } := size
    have sizes := bare.sizes.inodeWrite changed run
    have held := bare.held.guarded (bare.held.treesOnly.inodeWrite True.intro run)
    exact ⟨⟨held, sizes⟩, well, spells⟩

variable [DecidableEq Name]

/-- A new name is added to the tree. -/
theorem Forest.ShowsTree.made (shows_ : forest.ShowsTree layout s bytes tree)
    (injective : Function.Injective (nameKey bytes)) (directory : tree place = some (.directory id))
    (absent : tree (place ++ [name]) = none) {type inodeNumber : Nat} {btreeBlock : Option Nat}
    (bare : forest'.Bare layout s')
    (assigned : forest.Assigned forest' (pathKeys (place.map bytes)) (pathHash (bytes name))
      (some (newEntry type inodeNumber btreeBlock)))
    (own : (forest'.pair (some (newEntry type inodeNumber btreeBlock))).inodeNumber = inodeNumber) :
    forest'.ShowsTree layout s' bytes
      (NameTree.add tree (place ++ [name]) (made type inodeNumber)) := by
  refine ⟨bare, shows_.well.add directory absent, ?_⟩
  apply shows_.spells.add shows_.well injective absent
  · intro keys around
    rw [nameKey_concat] at around
    exact assigned.shown_around shows_.bare.held around
  · rw [nameKey_concat, Forest.shown]
    have through := assigned.through []
    rw [List.append_nil] at through
    rw [through]
    unfold newEntry at own ⊢
    unfold Nbtrfs.made
    split at own
    case isTrue kind =>
      rw [if_pos kind, if_pos kind]
      exact congrArg (fun number => some (Node.directory number)) own
    case isFalse kind =>
      rw [if_neg kind, if_neg kind]
      rfl
  · intro number kind rest more
    unfold Nbtrfs.made at kind
    split at kind
    case isTrue directory =>
      rw [nameKey_concat, Forest.shown, assigned.through, newEntry, if_pos directory, goesOn,
        if_neg more]
      rfl
    case isFalse => cases kind

/-- A removed name is removed with all that is below it. -/
theorem Forest.ShowsTree.removed (shows_ : forest.ShowsTree layout s bytes tree)
    (injective : Function.Injective (nameKey bytes)) (bare : forest'.Bare layout s')
    (assigned : forest.Assigned forest' (pathKeys (place.map bytes)) (pathHash (bytes name)) none) :
    forest'.ShowsTree layout s' bytes (NameTree.remove tree (place ++ [name])) := by
  refine ⟨bare, shows_.well.remove (by simp), ?_⟩
  apply shows_.spells.remove injective
  · intro keys around
    rw [nameKey_concat] at around
    exact assigned.shown_around shows_.bare.held around
  · intro rest
    rw [nameKey_concat, Forest.shown, assigned.through]
    rfl

/-- `nbtrfs_mknod`. -/
theorem Forest.ShowsTree.mknod (shows_ : forest.ShowsTree layout s bytes tree)
    (injective : Function.Injective (nameKey bytes)) (isPath : IsPath ((place ++ [name]).map bytes))
    (new : NewName tree place name) (room : HasRoom s (place.map bytes)) {mode : Nat}
    (run : nbtrfsMknod quietAppend locals host s (pathOf ((place ++ [name]).map bytes)) mode =
      some (true, s')) :
    ∃ forest' : Forest, forest'.ShowsTree layout s' bytes
      (NameTree.add tree (place ++ [name])
        (Nbtrfs.made (mode &&& fileTypeMask) (takenInode host s mode))) := by
  obtain ⟨⟨id, directory⟩, absent⟩ := new
  obtain ⟨dir, reached, -⟩ := shows_.reached directory
  rw [map_concat] at isPath run
  obtain ⟨forest', inodeNumber, btreeBlock, taken, bare, assigned, own⟩ :=
    shows_.bare.nbtrfsMknod isPath reached (shows_.absent directory absent reached)
      (shows_.bare.held.room isPath.parent reached room) run
  have number : takenInode host s mode = inodeNumber := by
    rw [takenInode, taken]
    rfl
  rw [number]
  exact ⟨forest', shows_.made injective directory absent bare assigned own⟩

/-- `_link` of a file. -/
theorem Forest.ShowsTree.link (shows_ : forest.ShowsTree layout s bytes tree)
    (injective : Function.Injective (nameKey bytes)) (isPath : IsPath ((place ++ [name]).map bytes))
    (new : NewName tree place name) (room : HasRoom s (place.map bytes)) {source : List Name}
    (isSource : IsPath (source.map bytes)) (file : tree source = some (.file id))
    (regular : ∀ inode, inodeLoad s id = some inode → inode.mode &&& fileTypeMask ≠ fileTypeDirectory)
    (unlisted : directoryExistsEntry s (pathOf (place.map bytes)) (bytes name) = some none)
    {writeThrough : Bool}
    (run : link quietAppend locals s (pathOf (source.map bytes)) (pathOf ((place ++ [name]).map bytes))
      writeThrough = some (true, s')) :
    ∃ forest' : Forest, forest'.ShowsTree layout s' bytes
      (NameTree.add tree (place ++ [name]) (.file id)) := by
  obtain ⟨⟨above, directory⟩, absent⟩ := new
  obtain ⟨dir, reached, -⟩ := shows_.reached directory
  have found := shows_.search isSource file
  rw [shows_.bare.held.itemSearch isSource] at found
  rw [map_concat] at isPath run
  have held := shows_.bare.held
  have noLeaf := shows_.absent directory absent reached
  have fits := held.room isPath.parent reached room
  obtain ⟨forest', inode, btreeBlock, held', load, assigned, own⟩ :=
    held.link isSource isPath reached noLeaf fits unlisted run
  have sizes := shows_.bare.link isPath reached noLeaf fits unlisted run
  have number : (forest.resolve (pathKeys (source.map bytes))).inodeNumber = id :=
    congrArg InodeBtreePair.inodeNumber (Option.some.inj found)
  rw [number] at load assigned own
  have isFile : Nbtrfs.made (inode.mode &&& fileTypeMask) id = .file id := if_neg (regular inode load)
  rw [← isFile]
  exact ⟨forest', shows_.made injective directory absent ⟨held', sizes⟩ assigned own⟩

/-- `_unlink` of a path of the tree. -/
theorem Forest.ShowsTree.unlink (shows_ : forest.ShowsTree layout s bytes tree)
    (injective : Function.Injective (nameKey bytes)) (isPath : IsPath ((place ++ [name]).map bytes))
    (named : tree (place ++ [name]) ≠ none) {writeThrough : Bool}
    (run : unlink s (pathOf ((place ++ [name]).map bytes)) writeThrough = some s') :
    ∃ forest' : Forest, forest'.ShowsTree layout s' bytes
      (NameTree.remove tree (place ++ [name])) := by
  obtain ⟨id, directory⟩ := shows_.well.above place name named
  obtain ⟨dir, reached, -⟩ := shows_.reached directory
  obtain ⟨node, isNode⟩ := Option.ne_none_iff_exists'.mp named
  obtain ⟨leaf, found⟩ := shows_.leaf isNode reached
  rw [map_concat] at isPath run
  obtain ⟨forest', held', assigned⟩ := shows_.bare.held.unlink isPath reached found run
  have sizes := shows_.bare.unlink isPath reached found run
  exact ⟨forest', shows_.removed injective ⟨held', sizes⟩ assigned⟩

/-- `nbtrfs_link` of a file. -/
theorem Forest.ShowsTree.nbtrfsLink (shows_ : forest.ShowsTree layout s bytes tree)
    (injective : Function.Injective (nameKey bytes)) (isPath : IsPath ((place ++ [name]).map bytes))
    (new : NewName tree place name) {source : List Name} (file : tree source = some (.file id))
    (linkable : Linkable s (source.map bytes) (place.map bytes) (bytes name)
      (.link (pathOf (source.map bytes)) (pathOf ((place ++ [name]).map bytes))))
    (run : nbtrfsLink quietAppend locals s (pathOf (source.map bytes))
      (pathOf ((place ++ [name]).map bytes)) = some (true, s')) :
    ∃ forest' : Forest, forest'.ShowsTree layout s' bytes
      (NameTree.add tree (place ++ [name]) (.file id)) := by
  obtain ⟨isSource, room, kind, unlisted⟩ := linkable
  obtain ⟨s1, append, run⟩ := Option.bind_eq_some_iff.mp run
  have shows1 := shows_.append rfl append
  exact shows1.link injective isPath new (shows_.hasRoom rfl append new isPath room) isSource file
    (shows_.regular isSource file kind rfl append) (unlisted s1 append) run

/-- `nbtrfs_rename` of a file. -/
theorem Forest.ShowsTree.nbtrfsRename (shows_ : forest.ShowsTree layout s bytes tree)
    (injective : Function.Injective (nameKey bytes)) (isPath : IsPath ((place ++ [name]).map bytes))
    (new : NewName tree place name) {source : List Name} (file : tree source = some (.file id))
    (linkable : Linkable s (source.map bytes) (place.map bytes) (bytes name)
      (.rename (pathOf (source.map bytes)) (pathOf ((place ++ [name]).map bytes))))
    (run : nbtrfsRename quietAppend locals s (pathOf (source.map bytes))
      (pathOf ((place ++ [name]).map bytes)) = some (true, s')) :
    ∃ forest' : Forest, forest'.ShowsTree layout s' bytes
      (NameTree.remove (NameTree.add tree (place ++ [name]) (.file id)) source) := by
  obtain ⟨isSource, room, kind, unlisted⟩ := linkable
  obtain ⟨s1, append, run⟩ := Option.bind_eq_some_iff.mp run
  have shows1 := shows_.append rfl append
  obtain ⟨pair, s2, -, -, link, unlink⟩ := rename_cases run
  obtain ⟨forest1, shows2⟩ := shows1.link injective isPath new
    (shows_.hasRoom rfl append new isPath room) isSource file
    (shows_.regular isSource file kind rfl append) (unlisted s1 append) link
  obtain ⟨place', name', rfl⟩ : ∃ place' name', source = place' ++ [name'] := by
    rcases List.eq_nil_or_concat source with rfl | ⟨place', name', rfl⟩
    · obtain ⟨root, here⟩ := shows_.well.root
      rw [here] at file
      cases file
    · exact ⟨place', name', List.concat_eq_append⟩
  apply shows2.unlink injective isSource _ unlink
  rw [NameTree.add, Function.update_of_ne, file]
  · exact Option.some_ne_none _
  · intro same
    rw [same, new.2] at file
    cases file

/-- `nbtrfs_unlink` and `nbtrfs_rmdir` of a path of the tree. -/
theorem Forest.ShowsTree.nbtrfsUnlink (shows_ : forest.ShowsTree layout s bytes tree)
    (injective : Function.Injective (nameKey bytes)) (isPath : IsPath ((place ++ [name]).map bytes))
    (named : tree (place ++ [name]) ≠ none)
    (run : (nbtrfsUnlink quietAppend s (pathOf ((place ++ [name]).map bytes))).map
      (fun s => (true, s)) = some (true, s')) :
    ∃ forest' : Forest, forest'.ShowsTree layout s' bytes
      (NameTree.remove tree (place ++ [name])) := by
  obtain ⟨after, removed, same⟩ := Option.map_eq_some_iff.mp run
  obtain ⟨-, rfl⟩ := Prod.mk.inj same
  obtain ⟨s1, append, run⟩ := Option.bind_eq_some_iff.mp removed
  exact (shows_.append rfl append).unlink injective isPath named run

/-- A call that a tree allows takes a store that shows it to one that shows the tree after the call. -/
theorem Forest.ShowsTree.step (shows_ : forest.ShowsTree layout s bytes tree)
    (injective : Function.Injective (nameKey bytes)) (isPath : IsPath ((place ++ [name]).map bytes))
    {call : PathCall Name} (legal : call.Legal tree place name) (ready : call.Ready bytes s place name)
    (run : call.run bytes locals host s (place ++ [name]) = some (true, s')) :
    ∃ forest' : Forest, forest'.ShowsTree layout s' bytes (call.after host s tree (place ++ [name])) := by
  cases call with
  | mknod mode => exact shows_.mknod injective isPath legal ready run
  | mkdir mode => exact shows_.mknod injective isPath legal ready run
  | link source =>
    obtain ⟨new, id, file⟩ := legal
    rw [PathCall.after, file]
    exact shows_.nbtrfsLink injective isPath new file ready run
  | rename source =>
    obtain ⟨new, id, file⟩ := legal
    rw [PathCall.after, file]
    exact shows_.nbtrfsRename injective isPath new file ready run
  | unlink => exact shows_.nbtrfsUnlink injective isPath legal run
  | rmdir => exact shows_.nbtrfsUnlink injective isPath legal run
  | chmod mode => exact ⟨forest, shows_.nbtrfsChmod run⟩

/-- A run of calls that the tree before each allows, with the store and the tree after it. -/
inductive PathRun (bytes : Name → CString) :
    Store → (List Name → Option (Node Nat)) → List (List Name × Name × PathCall Name) → Store →
      (List Name → Option (Node Nat)) → Prop where
  /-- No call. -/
  | nil (s : Store) (tree : List Name → Option (Node Nat)) : PathRun bytes s tree [] s tree
  /-- A call and a run. -/
  | cons {s s1 s' : Store} {tree tree' : List Name → Option (Node Nat)} {place : List Name}
      {name : Name} {call : PathCall Name} {calls : List (List Name × Name × PathCall Name)}
      (locals : Locals) (host : Host) (isPath : IsPath ((place ++ [name]).map bytes))
      (legal : call.Legal tree place name) (ready : call.Ready bytes s place name)
      (run : call.run bytes locals host s (place ++ [name]) = some (true, s1))
      (rest : PathRun bytes s1 (call.after host s tree (place ++ [name])) calls s' tree') :
      PathRun bytes s tree ((place, name, call) :: calls) s' tree'

/-- A run takes a store that shows a tree to one that shows the tree after it. -/
theorem Forest.ShowsTree.run (injective : Function.Injective (nameKey bytes))
    {tree' : List Name → Option (Node Nat)} {calls : List (List Name × Name × PathCall Name)}
    (shows_ : forest.ShowsTree layout s bytes tree) (run : PathRun bytes s tree calls s' tree') :
    ∃ forest' : Forest, forest'.ShowsTree layout s' bytes tree' := by
  induction run generalizing forest with
  | nil => exact ⟨forest, shows_⟩
  | cons locals host isPath legal ready ran _ ih =>
    obtain ⟨forest1, shows1⟩ := shows_.step injective isPath legal ready ran
    exact ih shows1

end

end Nbtrfs
