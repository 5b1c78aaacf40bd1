import Nbtrfs.Directory.Frames
import Nbtrfs.Namespace.Atomic
import Nbtrfs.Namespace.Collisions
import Nbtrfs.Namespace.Relinked

/-!
# Names as a path map

The calls that make or remove one name, and the inodes that paths resolve to in front of them and
behind. The name itself resolves to what the call is to give it. Other paths keep their inodes unless
they have the hashes of the name, with the hash of a file's name repeated behind it, or lie below a
directory that is removed. Among all paths there are such ones, as names of 18 bytes with the hash of
a given one can be computed; so what is said is said of the paths of any set.
-/

namespace Nbtrfs

open Hierarchy (Entry)

/-- The inode that a path resolves to, 0 for none. -/
def foundInode (s : Store) (components : List CString) : Option Nat :=
  (itemSearch s (pathOf components)).map InodeBtreePair.inodeNumber

/-- The file type that a link to a path gets, which is the one in the inode. -/
def linkedType (s : Store) (source : List CString) : Option Nat := do
  let inodeNumber ← foundInode s source
  let inode ← inodeLoad s inodeNumber
  some (inode.mode &&& fileTypeMask)

/-- A search goes on behind a new name: at its end, and behind a file as long as the keys are the
file's. -/
def GoesOn (type key : Nat) (rest : List Nat) : Prop :=
  rest = [] ∨ type ≠ fileTypeDirectory ∧ echoes key rest = true

/-- Whether a search goes on is decidable. -/
instance (type key : Nat) (rest : List Nat) : Decidable (GoesOn type key rest) :=
  inferInstanceAs (Decidable (_ ∨ _))

section

variable {forest forest' : Forest} {layout : Superblock} {s s' : Store} {dir type : Nat}

/-- The inode of a path in a store that holds a forest. -/
theorem Forest.Held.foundInode (held : forest.Held layout s) {components : List CString}
    (isPath : IsPath components) :
    foundInode s components = some (forest.resolve (pathKeys components)).inodeNumber := by
  rw [Nbtrfs.foundInode, held.itemSearch isPath]
  rfl

/-- The keys of a path in a directory. -/
theorem pathKeys_concat (place : List CString) (name : CString) :
    pathKeys (place ++ [name]) = pathKeys place ++ [pathHash name] := List.map_append

/-- The keys of two paths. -/
theorem pathKeys_append (components suffix : List CString) :
    pathKeys (components ++ suffix) = pathKeys components ++ pathKeys suffix := List.map_append

/-- A path around a changed entry leads to the inode that it led to. -/
theorem Forest.Assigned.inode_around {keys place : List Nat} {key : Nat}
    {entry : Option (Entry Nat Nat)} (assigned : forest.Assigned forest' place key entry)
    (held : forest.Held layout s) (around : ¬ place ++ [key] <+: keys) :
    (forest'.resolve keys).inodeNumber = (forest.resolve keys).inodeNumber := by
  unfold Forest.resolve
  rw [assigned.around keys around]
  cases walked : forest.walk keys with
  | none => rfl
  | some found =>
    cases found with
    | file inodeNumber => rfl
    | directory dir => exact assigned.inode dir (held.walk_live walked)

/-- A path through a new name leads to its inode or nowhere. -/
theorem Forest.Assigned.inode_through {place : List Nat} {key inodeNumber : Nat}
    {btreeBlock : Option Nat}
    (assigned : forest.Assigned forest' place key (some (newEntry type inodeNumber btreeBlock)))
    (own : (forest'.pair (some (newEntry type inodeNumber btreeBlock))).inodeNumber = inodeNumber)
    (rest : List Nat) :
    (forest'.resolve (place ++ [key] ++ rest)).inodeNumber =
      if GoesOn type key rest then inodeNumber else 0 := by
  unfold Forest.resolve
  rw [assigned.through rest]
  have goesOn_new : goesOn key (some (newEntry type inodeNumber btreeBlock)) rest =
      if GoesOn type key rest then some (newEntry type inodeNumber btreeBlock) else none := by
    unfold newEntry
    by_cases directory : type = fileTypeDirectory
    · rw [if_pos directory, goesOn]
      have same : GoesOn type key rest ↔ rest = [] :=
        ⟨fun goes => goes.resolve_right fun file => file.1 directory, Or.inl⟩
      simp only [same]
    · rw [if_neg directory, goesOn]
      have same : GoesOn type key rest ↔ echoes key rest = true := by
        constructor
        · rintro (rfl | ⟨-, goes⟩)
          · rfl
          · exact goes
        · exact fun goes => Or.inr ⟨directory, goes⟩
      simp only [same]
  rw [goesOn_new]
  split
  · exact own
  · rfl

/-- The new name itself leads to its inode. -/
theorem Forest.Assigned.inode_new {place : List Nat} {key inodeNumber : Nat} {btreeBlock : Option Nat}
    (assigned : forest.Assigned forest' place key (some (newEntry type inodeNumber btreeBlock)))
    (own : (forest'.pair (some (newEntry type inodeNumber btreeBlock))).inodeNumber = inodeNumber) :
    (forest'.resolve (place ++ [key])).inodeNumber = inodeNumber := by
  have through := assigned.inode_through own []
  have ends : GoesOn type key [] := Or.inl rfl
  rw [List.append_nil, if_pos ends] at through
  exact through

/-- Behind a name that a directory does not have there is nothing. -/
theorem Forest.resolve_absent {place : List Nat} {key : Nat}
    (reached : forest.walk place = some (.directory dir)) (absent : forest.leaf dir key = none)
    (rest : List Nat) : forest.walk (place ++ [key] ++ rest) = none := by
  unfold Forest.walk at reached ⊢
  rw [List.append_assoc, Hierarchy.walk_append reached, List.singleton_append, Hierarchy.walk,
    Forest.entries, absent]
  rfl

end

section

variable {s s' : Store} {host : Host} {superblock : Superblock}

/-- `inode_allocate` takes an inode that is not in use, and numbers its slot. -/
theorem inodeAllocateFrom_taken {mode left ii inodeNumber : Nat} {writeThrough : Bool}
    (run : inodeAllocateFrom host s superblock mode writeThrough left ii =
      some (some inodeNumber, s')) :
    superblock.inodeBit s inodeNumber = some false ∧
      ∀ inode, inodeRead s' inodeNumber = some (some inode) → inode.inodeNumber = inodeNumber := by
  induction left generalizing ii with
  | zero => cases run
  | succ left ih =>
    rw [inodeAllocateFrom] at run
    obtain ⟨ibm, get, run⟩ := Option.bind_eq_some_iff.mp run
    obtain ⟨-, rfl⟩ := Store.get_eq_some get
    split at run
    case h_1 changed clear put =>
      obtain ⟨found, -, run⟩ := Option.bind_eq_some_iff.mp run
      cases found with
      | none =>
        obtain ⟨wrong, -⟩ := Prod.mk.inj (Option.some.inj run)
        cases wrong
      | some former =>
        obtain ⟨⟨written, s2⟩, write, run⟩ := Option.bind_eq_some_iff.mp run
        dsimp only at run
        split at run
        case isTrue =>
          obtain ⟨number, rfl⟩ := Prod.mk.inj (Option.some.inj run)
          obtain rfl := Option.some.inj number
          refine ⟨clear, fun inode read => ?_⟩
          have load : inodeReload s2 ii (host.takes mode ii former) = some inode := by
            rw [inodeReload]
            cases writeThrough with
            | true => exact congrArg (Option.map _) read
            | false => exact congrArg (Option.map _) read
          have store : inodeStore (s.put (superblock.inodeBitmap + ii / usableBlockSize) changed)
              (host.takes mode ii former) writeThrough = some s2 := congrArg (Option.map _) write
          rw [inodeReload_stored store load]
          rfl
        case isFalse =>
          obtain ⟨wrong, -⟩ := Prod.mk.inj (Option.some.inj run)
          cases wrong
    case h_2 => exact ih run
    case h_3 =>
      obtain ⟨wrong, -⟩ := Prod.mk.inj (Option.some.inj run)
      cases wrong

end

/-- The inodes of a forest in a store: that of `/` is in use, and neither an inode that is not in use
nor that of a directory has a size. -/
structure Forest.Clean (forest : Forest) (layout : Superblock) (s : Store) : Prop where
  /-- The first inode is in use. -/
  first : layout.inodeBit s 0 = some true
  /-- Other inodes than those of files have no size. -/
  empty : ∀ inodeNumber slots, s.mem (inodePage layout inodeNumber) = .inode slots →
    (layout.inodeBit s inodeNumber = some false ∨
      ∃ dir ∈ forest.live, forest.inode dir = inodeNumber) →
    (slots (inodeNumber % inodesPerPage)).size = 0

/-- What has no size in the slots of a store. -/
def NoSize (layout : Superblock) (s : Store) (inodeNumber : Nat) : Prop :=
  ∀ slots, s.mem (inodePage layout inodeNumber) = .inode slots →
    (slots (inodeNumber % inodesPerPage)).size = 0

/-- Such an inode gets no size. -/
def keepsSize (layout : Superblock) (s : Store) (inodeNumber : Nat) (inode : Inode) : Prop :=
  NoSize layout s inodeNumber → inode.size = 0

/-- This looks at sizes only. -/
theorem keepsSize_sizes (layout : Superblock) (s : Store) : SizesOnly (keepsSize layout s) where
  same _ _ _ here size empty := size.trans (here empty)
  empty _ _ size _ := size

/-- An inode without a size may be written anywhere. -/
theorem portable_noSize {layout : Superblock} {s : Store} {inodeNumber : Nat}
    (empty : NoSize layout s inodeNumber) : Portable (keepsSize layout s) inodeNumber :=
  fun _ here _ _ size _ => size.trans (here empty)

section

variable {forest forest' : Forest} {layout : Superblock} {s s' : Store} {locals : Locals}
  {host : Host} {place : List CString} {name : CString} {dir mode : Nat}

/-- The slots of a store have the sizes that they have. -/
theorem Forest.Held.keepsSize (held : forest.Held layout s) :
    (Guard.plain layout (keepsSize layout s)).Holds s :=
  (held.guard fun _ slots tag empty => empty slots tag).plain

/-- `inode_allocate` takes an inode without a size, and not the first one. -/
theorem Forest.Clean.taken (clean : forest.Clean layout s) (held : forest.Held layout s)
    {inodeNumber : Nat} {s1 : Store}
    (run : inodeAllocate host s mode true = some (some inodeNumber, s1)) :
    inodeNumber ≠ 0 ∧ NoSize layout s inodeNumber ∧
      ∀ inode, inodeRead s1 inodeNumber = some (some inode) → inode.inodeNumber = inodeNumber := by
  unfold inodeAllocate at run
  obtain ⟨superblock, read, run⟩ := Option.bind_eq_some_iff.mp run
  obtain ⟨other, readOther, same⟩ := held.superblock
  obtain rfl := Option.some.inj (read.symm.trans readOther)
  obtain ⟨clear, numbered⟩ := inodeAllocateFrom_taken run
  rw [Superblock.inodeBit, same.inodeBitmap] at clear
  refine ⟨?_, fun slots tag => clean.empty inodeNumber slots tag (Or.inl clear), numbered⟩
  rintro rfl
  cases clean.first.symm.trans clear

/-- A call of `_mknod` that returns 0 hands out the inode that it has taken. -/
theorem mknod_taken {append : Append} {path : CString} {writeThrough : Bool} {result : Option Nat}
    (run : mknod append locals host (fun _ s => some s) s path mode writeThrough =
      some (result, true, s')) :
    ∃ allocated s1 node, inodeAllocate host s mode true = some (some allocated, s1) ∧
      inodeRead s1 allocated = some (some node) ∧ result = some node.inodeNumber := by
  unfold mknod at run
  obtain ⟨⟨allocated, s1⟩, allocate, run⟩ := Option.bind_eq_some_iff.mp run
  cases allocated with
  | none =>
    obtain ⟨-, wrong⟩ := Prod.mk.inj (Option.some.inj run)
    cases (Prod.mk.inj wrong).1
  | some number =>
    obtain ⟨found, read, run⟩ := Option.bind_eq_some_iff.mp run
    cases found with
    | none =>
      obtain ⟨-, wrong⟩ := Prod.mk.inj (Option.some.inj run)
      cases (Prod.mk.inj wrong).1
    | some node =>
      refine ⟨number, s1, node, allocate, read, ?_⟩
      dsimp only at run
      rw [Option.bind_eq_bind, Option.bind_some] at run
      obtain ⟨⟨written, s2⟩, -, run⟩ := Option.bind_eq_some_iff.mp run
      dsimp only at run
      split at run
      · obtain ⟨⟨added, s3⟩, -, run⟩ := Option.bind_eq_some_iff.mp run
        exact (Prod.mk.inj (Option.some.inj run)).1.symm
      · exact (Prod.mk.inj (Option.some.inj run)).1.symm

/-- The truncation of a new directory in front of its journal entry keeps the sizes. -/
theorem Guard.Holds.truncateEmpty {guard : Guard} (holds : guard.Holds s) (sizes : SizesOnly guard.slot)
    {path : CString} {pair : InodeBtreePair} (search : itemSearch s path = some pair)
    (empty : ∀ inode, guard.slot pair.inodeNumber inode → inode.size = 0)
    (run : truncate s path 0 true = some s') : guard.Holds s' := by
  unfold truncate at run
  rw [search, Option.bind_eq_bind, Option.bind_some] at run
  obtain ⟨inode, load, run⟩ := Option.bind_eq_some_iff.mp run
  have read : inodeRead s pair.inodeNumber = some (some inode) := Option.join_eq_some_iff.mp load
  have noSize := empty inode (holds.slot_read read)
  have indices : truncateIndices inode 0 = [] := by
    unfold truncateIndices
    rw [noSize, if_neg (Nat.lt_irrefl 0)]
  unfold truncateInode at run
  rw [indices] at run
  obtain ⟨⟨same, s1⟩, keep, store⟩ := Option.bind_eq_some_iff.mp run
  obtain ⟨rfl, rfl⟩ := Prod.mk.inj (Option.some.inj keep)
  refine holds.inodeStore ?_ store
  exact sizes.empty _ _ rfl

/-- `nbtrfs_mknod` of a name that its directory does not have. -/
theorem Forest.Held.nbtrfsMknod (held : forest.Held layout s) (clean : forest.Clean layout s)
    (isPath : IsPath (place ++ [name]))
    (reached : forest.walk (pathKeys place) = some (.directory dir))
    (absent : forest.leaf dir (pathHash name) = none)
    (room : (forest.leaves dir).length < maxKeys)
    (run : nbtrfsMknod quietAppend locals host s (pathOf (place ++ [name])) mode = some (true, s')) :
    ∃ forest' inodeNumber btreeBlock,
      (inodeAllocate host s mode true).bind Prod.fst = some inodeNumber ∧ inodeNumber ≠ 0 ∧
      forest'.Held layout s' ∧
      forest.Assigned forest' (pathKeys place) (pathHash name)
        (some (newEntry (mode &&& fileTypeMask) inodeNumber btreeBlock)) ∧
      (forest'.pair (some (newEntry (mode &&& fileTypeMask) inodeNumber btreeBlock))).inodeNumber =
        inodeNumber := by
  obtain ⟨⟨result, done, s1⟩, made, run⟩ := Option.bind_eq_some_iff.mp run
  obtain ⟨s2, logged, run⟩ := Option.bind_eq_some_iff.mp run
  obtain ⟨rfl, rfl⟩ := Prod.mk.inj (Option.some.inj run)
  obtain ⟨inodeNumber, s3, node, allocate, read, rfl⟩ := mknod_taken made
  obtain ⟨nonzero, noSize, numbered⟩ := clean.taken held allocate
  have number := numbered node read
  rw [number] at made logged
  have live := held.walk_live reached
  have parent : NoSize layout s (forest.inode dir) :=
    fun slots tag => clean.empty _ slots tag (Or.inr ⟨dir, live, rfl⟩)
  obtain ⟨forest', btreeBlock, held1, plain1, assigned, own⟩ := held.mknod held.keepsSize
    (keepsSize_sizes layout s) isPath reached (portable_noSize parent) absent room
    (fun other s4 allocate' => portable_noSize (clean.taken held allocate').2.1) made
  have holds1 := held1.guards plain1
  have first : (inodeAllocate host s mode true).bind Prod.fst = some inodeNumber := by
    rw [allocate]
    rfl
  have prepared : ∀ transaction s4, prepareEntry s1 (localEntry (.mknod (pathOf (place ++ [name]))
      mode 0 inodeNumber)).transaction = some (transaction, s4) →
        (forest'.guard layout (Nbtrfs.keepsSize layout s) s1).Holds s4 := by
    intro transaction s4 prepare
    by_cases directory : mode &&& fileTypeMask = fileTypeDirectory
    · unfold localEntry prepareEntry at prepare
      dsimp only at prepare
      rw [if_pos directory] at prepare
      obtain ⟨pair, search, prepare⟩ := Option.bind_eq_some_iff.mp prepare
      obtain ⟨s5, truncated, prepare⟩ := Option.bind_eq_some_iff.mp prepare
      obtain ⟨-, rfl⟩ := Prod.mk.inj (Option.some.inj prepare)
      apply holds1.truncateEmpty (keepsSize_sizes layout s) search _ truncated
      rw [held1.itemSearch isPath] at search
      obtain rfl := Option.some.inj search
      have new := assigned.inode_new own
      rw [← pathKeys_concat, Forest.resolve] at new
      intro inode here
      rw [new] at here
      exact here noSize
    · have plain : (localEntry (.mknod (pathOf (place ++ [name])) mode 0
          inodeNumber)).transaction.isDirectory = false := decide_eq_false directory
      rw [prepareEntry_same plain prepare]
      exact holds1
  exact ⟨forest', inodeNumber, btreeBlock, first, nonzero,
    held1.guarded (Guard.Holds.quietAppend prepared logged), assigned, own⟩

/-- An inode that is read behind an append was there before. -/
theorem Forest.Held.load_appended (held : forest.Held layout s) {entry : JournalEntry}
    (plain : entry.transaction.isDirectory = false) (append : quietAppend entry s = some s')
    {inodeNumber : Nat} {inode : Inode} (load : inodeLoad s' inodeNumber = some inode) :
    inodeLoad s inodeNumber = some inode := by
  obtain ⟨superblock, read, -⟩ := held.superblock
  have only := quietAppend_only read plain append
  obtain ⟨freeBlocks, journalHead, read'⟩ := only.superblock
  obtain ⟨superblock', slots, readAgain, inside, tag, rfl⟩ := inodeLoad_table load
  obtain rfl := Option.some.inj (read'.symm.trans readAgain)
  rw [inodePage_withCounters, only.totalBlocks] at inside
  have nonzero := table_ne_zero read' tag
  rw [inodePage_withCounters] at tag nonzero
  rcases only.mem _ nonzero with kept | ⟨-, new, tag'⟩
  · rw [kept] at tag
    rw [inodeLoad, inodeRead_slot read inside tag]
    rfl
  · rw [tag] at tag'
    cases tag'

/-- `nbtrfs_link` to a name that its directory does not have. -/
theorem Forest.Held.nbtrfsLink (held : forest.Held layout s) {source : List CString}
    (isSource : IsPath source) (isPath : IsPath (place ++ [name]))
    (reached : forest.walk (pathKeys place) = some (.directory dir))
    (absent : forest.leaf dir (pathHash name) = none)
    (room : (forest.leaves dir).length < maxKeys)
    (unlisted : ∀ s1, quietAppend (localEntry (.link (pathOf source) (pathOf (place ++ [name])))) s =
      some s1 → directoryExistsEntry s1 (pathOf place) name = some none)
    (run : nbtrfsLink quietAppend locals s (pathOf source) (pathOf (place ++ [name])) =
      some (true, s')) :
    ∃ forest' inodeNumber type btreeBlock, Nbtrfs.foundInode s source = some inodeNumber ∧
      linkedType s source = some type ∧ forest'.Held layout s' ∧
      forest.Assigned forest' (pathKeys place) (pathHash name)
        (some (newEntry type inodeNumber btreeBlock)) ∧
      (forest'.pair (some (newEntry type inodeNumber btreeBlock))).inodeNumber = inodeNumber := by
  obtain ⟨s1, append, run⟩ := Option.bind_eq_some_iff.mp run
  have held1 := held.guarded (held.treesOnly.appendPlain rfl append)
  obtain ⟨forest', inode, btreeBlock, held', load, assigned, own⟩ :=
    held1.link isSource isPath reached absent room (unlisted s1 append) run
  have found := held.foundInode isSource
  refine ⟨forest', _, _, btreeBlock, found, ?_, held', assigned, own⟩
  rw [linkedType, found, Option.bind_eq_bind, Option.bind_some, held.load_appended rfl append load]
  rfl

/-- `nbtrfs_unlink` of a path in a directory that leads anywhere. -/
theorem Forest.Held.nbtrfsUnlink (held : forest.Held layout s) (isPath : IsPath (place ++ [name]))
    (reached : forest.walk (pathKeys place) = some (.directory dir)) {entry : Entry Nat Nat}
    (found : forest.walk (pathKeys (place ++ [name])) = some entry)
    (run : nbtrfsUnlink quietAppend s (pathOf (place ++ [name])) = some s') :
    ∃ forest', forest'.Held layout s' ∧
      forest.Assigned forest' (pathKeys place) (pathHash name) none := by
  obtain ⟨s1, append, run⟩ := Option.bind_eq_some_iff.mp run
  have held1 := held.guarded (held.treesOnly.appendPlain rfl append)
  rw [pathKeys_concat, Forest.walk, Hierarchy.walk_last reached rfl] at found
  obtain ⟨leaf, isLeaf, -⟩ := Option.map_eq_some_iff.mp found
  exact held1.unlink isPath reached isLeaf run

/-- A call gives a path an object, and among the paths that are looked at every other one keeps its
own. -/
structure Refines (looked : List CString → Prop) (s s' : Store) (components : List CString)
    (object : Option Nat) : Prop where
  /-- The path of the call. -/
  own : foundInode s' components = object
  /-- Other paths. -/
  others : ∀ other, looked other → IsPath other → other ≠ components →
    foundInode s' other = foundInode s other

/-- No other path that is looked at has the hashes of a new name, with what a search goes on with
behind it. -/
def NewAlone (looked : List CString → Prop) (components : List CString) (key type : Nat) : Prop :=
  ∀ other, looked other → IsPath other → other ≠ components → ∀ rest,
    pathKeys other = pathKeys components ++ rest → ¬ GoesOn type key rest

/-- No other path that is looked at and has the hashes of a path, or goes on behind them, leads
anywhere. -/
def RemovedAlone (looked : List CString → Prop) (s : Store) (components : List CString) : Prop :=
  ∀ other, looked other → IsPath other → other ≠ components →
    pathKeys components <+: pathKeys other → foundInode s other = some 0

/-- A new name changes no other path if and only if it is alone. -/
theorem Forest.Assigned.refines_new_iff {looked : List CString → Prop} {type inodeNumber : Nat}
    {btreeBlock : Option Nat} (held : forest.Held layout s) (held' : forest'.Held layout s')
    (isPath : IsPath (place ++ [name])) (reached : forest.walk (pathKeys place) = some (.directory dir))
    (absent : forest.leaf dir (pathHash name) = none)
    (assigned : forest.Assigned forest' (pathKeys place) (pathHash name)
      (some (newEntry type inodeNumber btreeBlock)))
    (own : (forest'.pair (some (newEntry type inodeNumber btreeBlock))).inodeNumber = inodeNumber)
    (nonzero : inodeNumber ≠ 0) :
    Refines looked s s' (place ++ [name]) (some inodeNumber) ↔
      NewAlone looked (place ++ [name]) (pathHash name) type := by
  have before : ∀ {other : List CString} {rest : List Nat}, IsPath other →
      pathKeys other = pathKeys place ++ [pathHash name] ++ rest → foundInode s other = some 0 := by
    intro other rest isOther same
    rw [held.foundInode isOther, same, Forest.resolve, Forest.resolve_absent reached absent rest]
    rfl
  have after : ∀ {other : List CString} {rest : List Nat}, IsPath other →
      pathKeys other = pathKeys place ++ [pathHash name] ++ rest →
        foundInode s' other = some (if GoesOn type (pathHash name) rest then inodeNumber else 0) := by
    intro other rest isOther same
    rw [held'.foundInode isOther, same, assigned.inode_through own rest]
  constructor
  · intro refines other isLooked isOther differs rest same goes
    rw [pathKeys_concat] at same
    have kept := refines.others other isLooked isOther differs
    rw [after isOther same, before isOther same, if_pos goes] at kept
    exact nonzero (Option.some.inj kept)
  · intro alone
    constructor
    · rw [held'.foundInode isPath, pathKeys_concat, assigned.inode_new own]
    · intro other isLooked isOther differs
      by_cases through : pathKeys place ++ [pathHash name] <+: pathKeys other
      · obtain ⟨rest, same⟩ := through
        have ends := alone other isLooked isOther differs rest (by rw [pathKeys_concat, same])
        rw [after isOther same.symm, before isOther same.symm, if_neg ends]
      · rw [held'.foundInode isOther, held.foundInode isOther, assigned.inode_around held through]

/-- A removed name changes no other path if and only if it was alone. -/
theorem Forest.Assigned.refines_removed_iff {looked : List CString → Prop}
    (held : forest.Held layout s) (held' : forest'.Held layout s') (isPath : IsPath (place ++ [name]))
    (assigned : forest.Assigned forest' (pathKeys place) (pathHash name) none) :
    Refines looked s s' (place ++ [name]) (some 0) ↔ RemovedAlone looked s (place ++ [name]) := by
  have after : ∀ {other : List CString}, IsPath other →
      pathKeys place ++ [pathHash name] <+: pathKeys other → foundInode s' other = some 0 := by
    rintro other isOther ⟨rest, same⟩
    rw [held'.foundInode isOther, ← same, Forest.resolve, assigned.through rest]
    rfl
  constructor
  · intro refines other isLooked isOther differs under
    rw [pathKeys_concat] at under
    rw [← refines.others other isLooked isOther differs, after isOther under]
  · intro alone
    constructor
    · apply after isPath
      rw [pathKeys_concat]
    · intro other isLooked isOther differs
      by_cases through : pathKeys place ++ [pathHash name] <+: pathKeys other
      · have under : pathKeys (place ++ [name]) <+: pathKeys other := by
          rw [pathKeys_concat]
          exact through
        rw [after isOther through, alone other isLooked isOther differs under]
      · rw [held'.foundInode isOther, held.foundInode isOther, assigned.inode_around held through]

/-- The calls that make or remove the name of a path. -/
inductive NameCall where
  /-- `nbtrfs_mknod`. -/
  | mknod (mode : Nat)
  /-- `nbtrfs_mkdir`. -/
  | mkdir (mode : Nat)
  /-- `nbtrfs_link`. -/
  | link (source : List CString)
  /-- `nbtrfs_unlink`. -/
  | unlink
  /-- `nbtrfs_rmdir`. -/
  | rmdir

/-- The call of a path: whether it returns 0, and the store after it. -/
def NameCall.run (append : Append) (locals : Locals) (host : Host) (s : Store) (path : CString) :
    NameCall → Option (Bool × Store)
  | .mknod mode => nbtrfsMknod append locals host s path mode
  | .mkdir mode => nbtrfsMkdir append locals host s path mode
  | .link source => nbtrfsLink append locals s (pathOf source) path
  | .unlink => (nbtrfsUnlink append s path).map fun s => (true, s)
  | .rmdir => (nbtrfsRmdir append s path).map fun s => (true, s)

/-- A call does the same with an append below. -/
theorem NameCall.run_below {append other : Append} (below : append.Below other) (s : Store)
    (path : CString) (call : NameCall) :
    Below (call.run append locals host s path) (call.run other locals host s path) := by
  cases call with
  | mknod mode => exact nbtrfsMknod_below below locals host s path mode
  | mkdir mode => exact nbtrfsMknod_below below locals host s path _
  | link source => exact nbtrfsLink_below below locals s (pathOf source) path
  | unlink => exact (nbtrfsUnlink_below below s path).map _
  | rmdir => exact (nbtrfsUnlink_below below s path).map _

/-- The inode that a call gives its path: the new one, that of the source of a link, or none. -/
def NameCall.object (host : Host) (s : Store) : NameCall → Option Nat
  | .mknod mode => (inodeAllocate host s mode true).bind Prod.fst
  | .mkdir mode => (inodeAllocate host s (mode ||| fileTypeDirectory) true).bind Prod.fst
  | .link source => foundInode s source
  | .unlink => some 0
  | .rmdir => some 0

/-- A name that its directory does not have, with room for it. -/
def Forest.Unused (forest : Forest) (dir key : Nat) : Prop :=
  forest.leaf dir key = none ∧ (forest.leaves dir).length < maxKeys

/-- What a call is for: new names are unused, `nbtrfs_unlink` removes a regular file, and
`nbtrfs_rmdir` a directory. -/
def NameCall.Applies (forest : Forest) (layout : Superblock) (s : Store) (place : List CString)
    (name : CString) (dir : Nat) : NameCall → Prop
  | .mknod _ => forest.Clean layout s ∧ forest.Unused dir (pathHash name)
  | .mkdir _ => forest.Clean layout s ∧ forest.Unused dir (pathHash name)
  | .link source => IsPath source ∧ foundInode s source ≠ some 0 ∧
      forest.Unused dir (pathHash name) ∧
      ∀ s1, quietAppend (localEntry (.link (pathOf source) (pathOf (place ++ [name])))) s = some s1 →
        directoryExistsEntry s1 (pathOf place) name = some none
  | .unlink => ∃ inodeNumber, forest.walk (pathKeys (place ++ [name])) = some (.file inodeNumber)
  | .rmdir => ∃ below, forest.walk (pathKeys (place ++ [name])) = some (.directory below)

/-- What other paths must not be: for a new name those that it would be found under, for a removed one
those that lead anywhere below it. -/
def NameCall.Alone (looked : List CString → Prop) (s : Store) (components : List CString)
    (key : Nat) : NameCall → Prop
  | .mknod mode => NewAlone looked components key (mode &&& fileTypeMask)
  | .mkdir mode => NewAlone looked components key ((mode ||| fileTypeDirectory) &&& fileTypeMask)
  | .link source => ∀ type, linkedType s source = some type → NewAlone looked components key type
  | .unlink => RemovedAlone looked s components
  | .rmdir => RemovedAlone looked s components

/-- A call that returns 0 and replays nothing gives its path the object, and every other path that is
looked at keeps its own, if and only if the path is alone among these. -/
theorem nameCall_refines_iff (looked : List CString → Prop) (held : forest.Held layout s)
    (isPath : IsPath (place ++ [name]))
    (reached : forest.walk (pathKeys place) = some (.directory dir)) (call : NameCall)
    (applies : call.Applies forest layout s place name dir)
    (run : call.run (appendEntry locals host) locals host s (pathOf (place ++ [name])) =
      some (true, s'))
    (quiet : (call.run quietAppend locals host s (pathOf (place ++ [name]))).isSome = true) :
    Refines looked s s' (place ++ [name]) (call.object host s) ↔
      call.Alone looked s (place ++ [name]) (pathHash name) := by
  have below := @NameCall.run_below locals host _ _ (quietAppend_below locals host) s
    (pathOf (place ++ [name])) call
  rw [← below.eq_of_isSome quiet] at run
  have created : ∀ {mode : Nat}, forest.Clean layout s → forest.Unused dir (pathHash name) →
      nbtrfsMknod quietAppend locals host s (pathOf (place ++ [name])) mode = some (true, s') →
        (Refines looked s s' (place ++ [name]) ((inodeAllocate host s mode true).bind Prod.fst) ↔
          NewAlone looked (place ++ [name]) (pathHash name) (mode &&& fileTypeMask)) := by
    rintro mode clean ⟨absent, room⟩ run
    obtain ⟨forest', inodeNumber, btreeBlock, taken, nonzero, held', assigned, own⟩ :=
      held.nbtrfsMknod clean isPath reached absent room run
    rw [taken]
    exact assigned.refines_new_iff held held' isPath reached absent own nonzero
  have removed : ∀ {entry : Entry Nat Nat},
      forest.walk (pathKeys (place ++ [name])) = some entry →
      nbtrfsUnlink quietAppend s (pathOf (place ++ [name])) = some s' →
        (Refines looked s s' (place ++ [name]) (some 0) ↔
          RemovedAlone looked s (place ++ [name])) := by
    intro entry found run
    obtain ⟨forest', held', assigned⟩ := held.nbtrfsUnlink isPath reached found run
    exact assigned.refines_removed_iff held held' isPath
  cases call with
  | mknod mode => exact created applies.1 applies.2 run
  | mkdir mode => exact created applies.1 applies.2 run
  | link source =>
    obtain ⟨isSource, resolves, ⟨absent, room⟩, unlisted⟩ := applies
    obtain ⟨forest', inodeNumber, type, btreeBlock, found, kind, held', assigned, own⟩ :=
      held.nbtrfsLink isSource isPath reached absent room unlisted run
    have nonzero : inodeNumber ≠ 0 := by
      rintro rfl
      exact resolves found
    have same : NameCall.Alone looked s (place ++ [name]) (pathHash name) (.link source) ↔
        NewAlone looked (place ++ [name]) (pathHash name) type := by
      constructor
      · exact fun alone => alone type kind
      · intro alone other kind'
        rw [← Option.some.inj (kind.symm.trans kind')]
        exact alone
    rw [same, NameCall.object, found]
    exact assigned.refines_new_iff held held' isPath reached absent own nonzero
  | unlink =>
    obtain ⟨inodeNumber, found⟩ := applies
    obtain ⟨s1, unlinked, same⟩ := Option.map_eq_some_iff.mp run
    obtain ⟨-, rfl⟩ := Prod.mk.inj same
    exact removed found unlinked
  | rmdir =>
    obtain ⟨below, found⟩ := applies
    obtain ⟨s1, unlinked, same⟩ := Option.map_eq_some_iff.mp run
    obtain ⟨-, rfl⟩ := Prod.mk.inj same
    exact removed found unlinked

end

/-- The inodes of the empty image. -/
theorem emptyForest_clean : emptyForest.Clean emptyLayout emptyImage := by
  constructor
  · decide +kernel
  · intro inodeNumber slots tag _
    have zeroed : ∀ block slots, emptyImage.mem block = .inode slots → slots = fun _ => zeroInode := by
      intro block slots tag
      unfold emptyImage at tag
      dsimp only at tag
      split_ifs at tag
      exact (Block.inode.inj tag).symm
    rw [zeroed _ slots tag]
    rfl

/-- The empty image behind a call for the path `/a`. -/
def calledImage (call : NameCall) : Store :=
  ((call.run quietAppend zeroLocals zeroHost emptyImage (pathOf [[97]])).map Prod.snd).getD emptyImage

/-- It is what the call leaves. -/
theorem calledImage_run {call : NameCall}
    (result : (call.run quietAppend zeroLocals zeroHost emptyImage (pathOf [[97]])).map Prod.fst =
      some true) :
    call.run quietAppend zeroLocals zeroHost emptyImage (pathOf [[97]]) =
      some (true, calledImage call) := by
  obtain ⟨⟨done, s⟩, run, rfl⟩ := Option.map_eq_some_iff.mp result
  rw [calledImage, run]
  rfl

/-- Paths of names of one size. -/
def OfSize (size : Nat) (components : List CString) : Prop :=
  ∀ name ∈ components, name.length = size

/-- Of at most six bytes, names of one size have different hashes, and so have their paths. -/
theorem OfSize.eq_of_pathKeys {size : Nat} (few : size ≤ 6) {components components' : List CString}
    (ofSize : OfSize size components) (ofSize' : OfSize size components')
    (same : pathKeys components = pathKeys components') : components = components' := by
  induction components generalizing components' with
  | nil => exact (List.map_eq_nil_iff.mp same.symm).symm
  | cons name rest ih =>
    cases components' with
    | nil => cases same
    | cons name' rest' =>
      obtain ⟨hash, keys⟩ := List.cons.inj same
      have length := ofSize name List.mem_cons_self
      have length' := ofSize' name' List.mem_cons_self
      have names : name = name' :=
        hashFrom_window (length.trans length'.symm) (length.le.trans few) hash
      rw [names, ih (fun other inside => ofSize other (List.mem_cons_of_mem _ inside))
        (fun other inside => ofSize' other (List.mem_cons_of_mem _ inside)) keys]

/-- A path with the keys of another one in front lies behind it. -/
theorem OfSize.prefix_of_pathKeys {size : Nat} (few : size ≤ 6) {components other : List CString}
    (ofSize : OfSize size components) (ofSize' : OfSize size other)
    (behind : pathKeys components <+: pathKeys other) : components <+: other := by
  have same : pathKeys components = pathKeys (other.take components.length) := by
    have front := List.prefix_iff_eq_take.mp behind
    rw [pathKeys, List.length_map] at front
    rw [pathKeys, front, pathKeys, pathKeys, List.map_take]
  have taken : OfSize size (other.take components.length) :=
    fun name inside => ofSize' name (List.mem_of_mem_take inside)
  rw [ofSize.eq_of_pathKeys few taken same]
  exact List.take_prefix _ _

/-- A name is of its size. -/
theorem ofSize_singleton (name : CString) : OfSize name.length [name] :=
  fun _ inside => congrArg List.length (List.mem_singleton.mp inside)

/-- Uninitialised variables whose `synced` flags are set. -/
def setLocals : Locals := { zeroLocals with synced := fun _ => true }

/-- The directory `/d` and behind it a file on the empty image. -/
def directoryRun (file : List CString) : Option (Bool × Bool × Store) := do
  let (made, s) ← nbtrfsMkdir quietAppend setLocals zeroHost emptyImage (pathOf [[100]]) 0
  let (made', s) ← nbtrfsMknod quietAppend setLocals zeroHost s (pathOf file) fileTypeRegular
  some (made, made', s)

/-- The image with both. -/
def directoryImage (file : List CString) : Store :=
  ((directoryRun file).map fun run => run.2.2).getD emptyImage

/-- A call of `nbtrfs_mknod` that returns 0 has taken an inode. -/
theorem created_of_run {s s' : Store} {locals : Locals} {host : Host} {path : CString} {mode : Nat}
    (run : nbtrfsMknod quietAppend locals host s path mode = some (true, s')) :
    ∃ inodeNumber, Created quietAppend locals host s path mode inodeNumber s' := by
  obtain ⟨⟨result, done, s1⟩, made, run⟩ := Option.bind_eq_some_iff.mp run
  obtain ⟨s2, logged, run⟩ := Option.bind_eq_some_iff.mp run
  obtain ⟨rfl, rfl⟩ := Prod.mk.inj (Option.some.inj run)
  obtain ⟨inodeNumber, s3, node, -, -, rfl⟩ := mknod_taken made
  exact ⟨node.inodeNumber, s1, made, logged⟩

/-- In front of the file the image holds a forest with an empty directory. -/
theorem directoryImage_held {file : List CString}
    (result : (directoryRun file).map (fun run => (run.1, run.2.1)) = some (true, true)) :
    ∃ (forest : Forest) (s : Store) (dir inodeNumber : Nat), forest.Held emptyLayout s ∧
      emptyForest.Assigned forest [] (pathHash [100]) (some (.directory dir)) ∧
      forest.leaves dir = [] ∧
      Created quietAppend setLocals zeroHost s (pathOf file) fileTypeRegular inodeNumber
        (directoryImage file) := by
  obtain ⟨⟨made, made', s⟩, run, same⟩ := Option.map_eq_some_iff.mp result
  obtain ⟨rfl, rfl⟩ := Prod.mk.inj same
  have image : directoryImage file = s := by
    rw [directoryImage, run]
    rfl
  rw [image]
  unfold directoryRun at run
  obtain ⟨⟨made, s1⟩, one, rest⟩ := Option.bind_eq_some_iff.mp run
  obtain ⟨⟨made', s2⟩, two, rest⟩ := Option.bind_eq_some_iff.mp rest
  obtain ⟨rfl, results⟩ := Prod.mk.inj (Option.some.inj rest)
  obtain ⟨rfl, rfl⟩ := Prod.mk.inj results
  obtain ⟨forest, inodeNumber, btreeBlock, -, -, held, assigned, -⟩ :=
    @Forest.Held.nbtrfsMknod emptyForest _ _ _ _ _ [] [100] 7 _ emptyForest_held emptyForest_clean
      ⟨by decide, by decide⟩ rfl rfl (by decide) one
  have entry : newEntry ((0 ||| fileTypeDirectory) &&& fileTypeMask) inodeNumber btreeBlock =
      .directory (btreeBlock.getD 0) := if_pos (by decide)
  rw [entry] at assigned
  have reached : forest.walk (pathKeys [[100]]) = some (.directory (btreeBlock.getD 0)) :=
    assigned.through []
  have none : ∀ key, forest.leaf (btreeBlock.getD 0) key = none :=
    fun key => Forest.leaf_none reached (assigned.through [key])
  obtain ⟨fileNumber, created⟩ := created_of_run two
  refine ⟨forest, s1, _, fileNumber, held, assigned, ?_, created⟩
  rw [List.eq_nil_iff_forall_not_mem]
  intro leaf inside
  exact Forest.leaf_absent (none leaf.key) leaf inside rfl

/-- A name beside an empty directory in a root directory that has no other one leaves the directory
empty. -/
theorem Forest.Held.beside {forest : Forest} {layout : Superblock} {s s' : Store} {locals : Locals}
    {host : Host} {start : Forest} {directory file : CString} {dir mode inodeNumber : Nat}
    (held : forest.Held layout s) (empty : ∀ key, start.walk [key] = none)
    (assigned : start.Assigned forest [] (pathHash directory) (some (.directory dir)))
    (differ : pathHash directory ≠ pathHash file) (isPath : IsPath [file])
    (regular : mode &&& fileTypeMask ≠ fileTypeDirectory)
    (created : Created quietAppend locals host s (pathOf [file]) mode inodeNumber s') :
    ∃ forest' : Forest, forest'.Held layout s' ∧
      (∀ rest, forest'.walk (pathHash directory :: rest) =
        goesOn (pathHash directory) (some (.directory dir)) rest) ∧
      (forest'.leaves forest'.root).length < maxKeys := by
  have top : ∀ forest : Forest, forest.walk [] = some (.directory forest.root) := fun _ => rfl
  have apart : ∀ {key key' : Nat} {rest : List Nat}, key ≠ key' → ¬ [] ++ [key] <+: key' :: rest :=
    fun differs inside => differs (List.cons_prefix_cons.mp inside).1
  have nowhere : ∀ key, pathHash directory ≠ key → forest.leaf forest.root key = none := by
    intro key other
    apply Forest.leaf_none (top forest)
    rw [List.nil_append, assigned.around _ (apart other), empty key]
  have only : ∀ leaf ∈ forest.leaves forest.root, leaf.key ∈ [pathHash directory] := by
    intro leaf inside
    by_contra other
    rw [List.mem_singleton] at other
    exact Forest.leaf_absent (nowhere leaf.key (Ne.symm other)) leaf inside rfl
  obtain ⟨forest', held', assigned'⟩ := @Forest.Held.created forest _ _ _ _ _ [] file _ held isPath
    (top forest) (nowhere _ differ) (held.room_few (by rw [List.length_singleton]; decide) only) _ _
    regular created
  refine ⟨forest', held', fun rest => ?_, ?_⟩
  · rw [assigned'.around _ (apart differ.symm)]
    exact assigned.through rest
  · have two : ∀ leaf ∈ forest'.leaves forest'.root, leaf.key ∈ [pathHash directory, pathHash file] := by
      intro leaf inside
      by_contra other
      rw [List.mem_cons, List.mem_singleton, not_or] at other
      have absent : forest'.leaf forest'.root leaf.key = none := by
        apply Forest.leaf_none (top forest')
        rw [List.nil_append, assigned'.around _ (apart (Ne.symm other.2)),
          assigned.around _ (apart (Ne.symm other.1)), empty leaf.key]
      exact Forest.leaf_absent absent leaf inside rfl
    exact held'.room_few (by rw [List.length_cons, List.length_singleton]; decide) two

/-- Behind the file `/x` the directory `/d` is still empty. -/
theorem directoryImage_beside :
    ∃ (forest : Forest) (dir : Nat), forest.Held emptyLayout (directoryImage [[120]]) ∧
      (∀ rest, forest.walk (pathHash [100] :: rest) =
        goesOn (pathHash [100]) (some (.directory dir)) rest) ∧
      (forest.leaves forest.root).length < maxKeys := by
  obtain ⟨forest, s, dir, inodeNumber, held, assigned, -, created⟩ :=
    @directoryImage_held [[120]] (by decide +kernel)
  obtain ⟨forest', held', walked, room⟩ := held.beside (fun _ => rfl) assigned (by decide +kernel)
    ⟨by decide, by decide⟩ (by decide) created
  exact ⟨forest', dir, held', walked, room⟩

/-- The image behind the call that removes `/d`. -/
def removedImage : Store :=
  ((NameCall.rmdir.run quietAppend zeroLocals zeroHost (directoryImage [[120]])
    (pathOf [[100]])).map Prod.snd).getD emptyImage

/-- The call has a result, which is that of the source. -/
theorem removedImage_run :
    NameCall.rmdir.run (appendEntry zeroLocals zeroHost) zeroLocals zeroHost (directoryImage [[120]])
      (pathOf [[100]]) = some (true, removedImage) ∧
    (NameCall.rmdir.run quietAppend zeroLocals zeroHost (directoryImage [[120]])
      (pathOf [[100]])).isSome = true := by
  have result : (NameCall.rmdir.run quietAppend zeroLocals zeroHost (directoryImage [[120]])
      (pathOf [[100]])).map Prod.fst = some true := by decide +kernel
  obtain ⟨⟨done, s⟩, run, same⟩ := Option.map_eq_some_iff.mp result
  obtain rfl : done = true := same
  have source := NameCall.run_below (quietAppend_below zeroLocals zeroHost) _ _ _ _ run
  rw [removedImage, source, run]
  exact ⟨rfl, rfl⟩

/-- Removing the directory `/d` beside the file `/x`, for the paths of names of one byte: `/x` is kept
and nothing else is found. -/
theorem nameCall_refines_iff_directory :
    Refines (OfSize 1) (directoryImage [[120]]) removedImage [[100]] (some 0) := by
  obtain ⟨forest, dir, held, walked, -⟩ := directoryImage_beside
  have own : forest.walk (pathKeys ([] ++ [[100]])) = some (.directory dir) := walked []
  refine (nameCall_refines_iff (OfSize 1) held ⟨by decide, by decide⟩ rfl .rmdir ⟨dir, own⟩
    removedImage_run.1 removedImage_run.2).mpr ?_
  intro other ofSize isOther differs behind
  obtain ⟨rest, rfl⟩ := (ofSize_singleton [100]).prefix_of_pathKeys (by decide) ofSize behind
  cases rest with
  | nil => exact absurd rfl differs
  | cons name rest =>
    rw [held.foundInode isOther, Forest.resolve]
    exact congrArg (fun found => some (forest.pair found).inodeNumber) (walked (pathKeys (name :: rest)))

/-- The file `/a`, which `/a/a` leads to as well. -/
theorem nameCall_refines_false :
    ¬ ∀ (forest : Forest) (layout : Superblock) (s s' : Store) (locals : Locals) (host : Host)
        (place : List CString) (name : CString) (dir : Nat) (call : NameCall),
      forest.Held layout s → IsPath (place ++ [name]) →
      forest.walk (pathKeys place) = some (.directory dir) →
      call.Applies forest layout s place name dir →
      call.run (appendEntry locals host) locals host s (pathOf (place ++ [name])) = some (true, s') →
      Refines (fun _ => True) s s' (place ++ [name]) (call.object host s) := by
  intro all
  have run := @calledImage_run (.mknod fileTypeRegular) (by decide +kernel)
  have source := NameCall.run_below (quietAppend_below zeroLocals zeroHost) _ _ _ _ run
  have refines := all emptyForest emptyLayout emptyImage (calledImage (.mknod fileTypeRegular))
    zeroLocals zeroHost [] [97] 7 (.mknod fileTypeRegular) emptyForest_held ⟨by decide, by decide⟩ rfl
    ⟨emptyForest_clean, rfl, by decide⟩ source
  have before : foundInode emptyImage [[97], [97]] = some 0 := by decide +kernel
  have after : foundInode (calledImage (.mknod fileTypeRegular)) [[97], [97]] = some 1 := by
    decide +kernel
  have kept := refines.others [[97], [97]] trivial ⟨by decide, by decide⟩ (by decide)
  rw [before, after] at kept
  cases kept

end Nbtrfs
