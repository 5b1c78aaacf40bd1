import Nbtrfs.Fuse.Quiet
import Nbtrfs.Fuse.Run
import Nbtrfs.Namespace.ForestEntry

/-!
# Creating names

`nbtrfs_mknod` of a file on a store that holds a forest, and two of them in one directory. A search
compares the keys of the components, so the paths of names with one key lead to the same object.
-/

namespace Nbtrfs

open Hierarchy (Entry)

/-- A call of `nbtrfs_mknod` that returns 0, with the inode that it takes. -/
def Created (append : Append) (locals : Locals) (host : Host) (s : Store) (path : CString)
    (mode inodeNumber : Nat) (s' : Store) : Prop :=
  ∃ s1, mknod append locals host (fun _ s => some s) s path mode false =
      some (some inodeNumber, true, s1) ∧
    append (localEntry (.mknod path mode 0 inodeNumber)) s1 = some s'

section

variable {forest : Forest} {layout : Superblock} {s s' : Store} {locals : Locals} {host : Host}
  {place : List CString} {name : CString} {dir : Nat}

/-- It is a call that returns 0. -/
theorem Created.run {append : Append} {path : CString} {mode inodeNumber : Nat}
    (created : Created append locals host s path mode inodeNumber s') :
    nbtrfsMknod append locals host s path mode = some (true, s') := by
  obtain ⟨s1, made, logged⟩ := created
  rw [nbtrfsMknod, made, Option.bind_eq_bind, Option.bind_some]
  dsimp only
  rw [Option.getD_some, logged, Option.bind_eq_bind, Option.bind_some]

/-- The call takes the same inode with an append below, where it has a result with that one. -/
theorem Created.below {append other : Append} (below : append.Below other) {path : CString}
    {mode inodeNumber : Nat} (created : Created other locals host s path mode inodeNumber s')
    (result : (nbtrfsMknod append locals host s path mode).isSome = true) :
    Created append locals host s path mode inodeNumber s' := by
  obtain ⟨s1, made, logged⟩ := created
  obtain ⟨value, run⟩ := Option.isSome_iff_exists.mp result
  obtain ⟨⟨taken, done, s2⟩, made2, run⟩ := Option.bind_eq_some_iff.mp run
  obtain ⟨s3, logged2, -⟩ := Option.bind_eq_some_iff.mp run
  have same := mknod_below below locals host _ s path mode false _ made2
  obtain ⟨rfl, rest⟩ := Prod.mk.inj (Option.some.inj (same.symm.trans made))
  obtain ⟨rfl, rfl⟩ := Prod.mk.inj rest
  obtain rfl : s3 = s' := Option.some.inj ((below _ _ _ logged2).symm.trans logged)
  exact ⟨s2, made2, logged2⟩

/-- A guard of the trees alone, that takes any inode in any slot. -/
theorem Forest.Held.treesOnly (held : forest.Held layout s) :
    (forest.guard layout (fun _ _ => True) s).Holds s :=
  held.guard fun _ _ _ => trivial

/-- The directory of a path is a path. -/
theorem IsPath.parent (isPath : IsPath (place ++ [name])) : IsPath place := by
  constructor
  · exact fun other inside => isPath.1 other (List.mem_append_left _ inside)
  · have fits := isPath.2
    rw [pathOf_concat, List.length_append] at fits
    by_cases empty : place = []
    · rw [empty]
      decide
    · rw [pathOf_of_ne_nil empty]
      omega

/-- What the slot of an inode holds may be written to any slot, as long as the size stays. -/
def Portable (slot : Nat → Inode → Prop) (inodeNumber : Nat) : Prop :=
  ∀ inode, slot inodeNumber inode → ∀ other inode', inode'.size = inode.size → slot other inode'

/-- A property of slots that a new file or directory keeps: it looks at the sizes of the slots at most,
and lets every slot be empty. -/
structure SizesOnly (slot : Nat → Inode → Prop) : Prop where
  /-- A slot may be written with its size. -/
  same : ∀ inodeNumber inode inode', slot inodeNumber inode → inode'.size = inode.size →
    slot inodeNumber inode'
  /-- A slot may be empty. -/
  empty : ∀ inodeNumber inode, inode.size = 0 → slot inodeNumber inode

/-- No property at all. -/
theorem SizesOnly.trivial : SizesOnly fun _ _ => True where
  same _ _ _ _ _ := True.intro
  empty _ _ _ := True.intro

section

variable {slot : Nat → Inode → Prop}

/-- `directory_add_entry` of a name that its directory does not have. -/
theorem Forest.Held.directoryAddEntry (held : forest.Held layout s)
    (plain : (Guard.plain layout slot).Holds s) (sizes : SizesOnly slot) (isPath : IsPath place)
    (reached : forest.walk (pathKeys place) = some (.directory dir))
    (portable : Portable slot (forest.inode dir))
    (absent : forest.leaf dir (pathHash name) = none)
    (room : (forest.leaves dir).length < maxKeys) {targetInode type : Nat} {writeThrough : Bool}
    (run : directoryAddEntry quietAppend locals s (pathOf place) name targetInode type writeThrough =
      some (true, s')) :
    ∃ forest' btreeBlock, forest'.Held layout s' ∧ (Guard.plain layout slot).Holds s' ∧
      forest.Assigned forest' (pathKeys place) (pathHash name)
        (some (newEntry type targetInode btreeBlock)) ∧
      (forest'.pair (some (newEntry type targetInode btreeBlock))).inodeNumber = targetInode := by
  have holds := held.guards plain
  unfold Nbtrfs.directoryAddEntry at run
  obtain ⟨pair, search, run⟩ := Option.bind_eq_some_iff.mp run
  rw [held.itemSearch isPath, reached] at search
  obtain rfl := Option.some.inj search
  split at run
  · cases run
  · split at run
    · obtain ⟨node, reload, run⟩ := Option.bind_eq_some_iff.mp run
      have accepts : (forest.guard layout slot s).Accepts node := by
        rintro _ ⟨_, _, _, rfl⟩
        obtain ⟨found, read, rfl⟩ := Option.map_eq_some_iff.mp reload
        cases found with
        | none => exact sizes.empty _ _ rfl
        | some inode => exact portable inode (holds.slot_read read) _ _ rfl
      have walks : (forest.guard layout slot s).Walks 0 node s :=
        ⟨holds, accepts, fun behind => absurd behind (by decide)⟩
      rcases walks.addEntryFrom Forest.guard_allocates run with ⟨wrong, -⟩ |
        ⟨-, s1, node1, block, offset, entries, holds1, placed⟩
      · cases wrong
      · exact (held.guarded holds1).placeEntry holds1.plain reached absent room placed
    · cases run

/-- `_mknod` of a name that its directory does not have. -/
theorem Forest.Held.mknod (held : forest.Held layout s) (plain : (Guard.plain layout slot).Holds s)
    (sizes : SizesOnly slot) (isPath : IsPath (place ++ [name]))
    (reached : forest.walk (pathKeys place) = some (.directory dir))
    (portable : Portable slot (forest.inode dir))
    (absent : forest.leaf dir (pathHash name) = none)
    (room : (forest.leaves dir).length < maxKeys) {mode inodeNumber : Nat} {writeThrough : Bool}
    (free : ∀ number s1, inodeAllocate host s mode true = some (some number, s1) →
      Portable slot number)
    (run : mknod quietAppend locals host (fun _ s => some s) s (pathOf (place ++ [name])) mode
      writeThrough = some (some inodeNumber, true, s')) :
    ∃ forest' btreeBlock, forest'.Held layout s' ∧ (Guard.plain layout slot).Holds s' ∧
      forest.Assigned forest' (pathKeys place) (pathHash name)
        (some (newEntry (mode &&& fileTypeMask) inodeNumber btreeBlock)) ∧
      (forest'.pair (some (newEntry (mode &&& fileTypeMask) inodeNumber btreeBlock))).inodeNumber =
        inodeNumber := by
  have holds := held.guards plain
  have parent := isPath.parent
  have isName := isPath.1 name (List.mem_append_right _ (List.mem_singleton.mpr rfl))
  unfold Nbtrfs.mknod at run
  obtain ⟨⟨allocated, s1⟩, allocate, run⟩ := Option.bind_eq_some_iff.mp run
  have holds1 := holds.inodeAllocate (fun number inode here => sizes.same number inode _ here rfl)
    allocate
  cases allocated with
  | none =>
    obtain ⟨wrong, -⟩ := Prod.mk.inj (Option.some.inj run)
    cases wrong
  | some number =>
    obtain ⟨found, read, run⟩ := Option.bind_eq_some_iff.mp run
    cases found with
    | none =>
      obtain ⟨wrong, -⟩ := Prod.mk.inj (Option.some.inj run)
      cases wrong
    | some node =>
      dsimp only at run
      rw [Option.bind_eq_bind, Option.bind_some] at run
      obtain ⟨⟨written, s2⟩, write, run⟩ := Option.bind_eq_some_iff.mp run
      have accepts := free number s1 allocate node (holds1.slot_read read)
      have holds2 : (forest.guard layout slot s).Holds s2 := by
        refine holds1.inodeWrite ?_ write
        exact accepts _ _ rfl
      dsimp only at run
      split at run
      · obtain ⟨⟨added, s3⟩, add, run⟩ := Option.bind_eq_some_iff.mp run
        obtain ⟨number', rest⟩ := Prod.mk.inj (Option.some.inj run)
        obtain ⟨rfl, rfl⟩ := Prod.mk.inj rest
        rw [parentPath_pathOf parent.1 isName, getName_pathOf place isName,
          Option.some.inj number'] at add
        exact (held.guarded holds2).directoryAddEntry holds2.plain sizes parent reached portable absent
          room add
      · obtain ⟨-, rest⟩ := Prod.mk.inj (Option.some.inj run)
        obtain ⟨wrong, -⟩ := Prod.mk.inj rest
        cases wrong

end

/-- Creating a file adds its name. -/
theorem Forest.Held.created (held : forest.Held layout s) (isPath : IsPath (place ++ [name]))
    (reached : forest.walk (pathKeys place) = some (.directory dir))
    (absent : forest.leaf dir (pathHash name) = none)
    (room : (forest.leaves dir).length < maxKeys) {mode inodeNumber : Nat}
    (file : mode &&& fileTypeMask ≠ fileTypeDirectory)
    (created : Created quietAppend locals host s (pathOf (place ++ [name])) mode inodeNumber s') :
    ∃ forest', forest'.Held layout s' ∧
      forest.Assigned forest' (pathKeys place) (pathHash name) (some (.file inodeNumber)) := by
  obtain ⟨s1, made, logged⟩ := created
  obtain ⟨forest', btreeBlock, held', -, assigned, -⟩ := held.mknod held.treesOnly.plain
    SizesOnly.trivial isPath reached (fun _ _ _ _ _ => trivial) absent room
    (fun _ _ _ _ _ _ _ _ => trivial) made
  have holds := held'.treesOnly
  have entry : newEntry (mode &&& fileTypeMask) inodeNumber btreeBlock = .file inodeNumber :=
    if_neg file
  rw [entry] at assigned
  have plain : (localEntry (.mknod (pathOf (place ++ [name])) mode 0
      inodeNumber)).transaction.isDirectory = false := decide_eq_false file
  exact ⟨forest', held'.guarded (holds.appendPlain plain logged), assigned⟩

/-- The loop of `item_search` from two paths whose remaining components have the same keys. -/
theorem itemSearchFrom_keys {passed rest passed' rest' : List CString}
    (isPath : IsPath (passed ++ rest)) (isPath' : IsPath (passed' ++ rest'))
    (keys : pathKeys rest = pathKeys rest') (node : BTreeNode) :
    itemSearchFrom s (pathOf (passed ++ rest)) rest.length (passed.length + 1) node
        (joinPath passed) =
      itemSearchFrom s (pathOf (passed' ++ rest')) rest'.length (passed'.length + 1) node
        (joinPath passed') := by
  induction rest generalizing passed passed' rest' node with
  | nil =>
    obtain rfl : rest' = [] := List.map_eq_nil_iff.mp keys.symm
    rfl
  | cons token rest ih =>
    cases rest' with
    | nil => exact absurd keys (by simp [pathKeys])
    | cons token' rest' =>
      obtain ⟨key, keys'⟩ := List.cons.inj keys
      have more := congrArg List.length keys'
      rw [List.length_map, List.length_map] at more
      have last := @pathOf_eq_passed_iff passed rest token
      have last' := @pathOf_eq_passed_iff passed' rest' token'
      rw [List.length_cons, List.length_cons, itemSearchFrom, itemSearchFrom, split_passed isPath,
        split_passed isPath', Option.bind_eq_bind, Option.bind_some, Option.bind_eq_bind, Option.bind_some,
        show pathHash token = pathHash token' from key]
      cases search : btreeSearch s node.blockNumber (pathHash token') with
      | none => rfl
      | some nodeBlock =>
        rw [Option.bind_eq_bind, Option.bind_some, Option.bind_some]
        by_cases missing : nodeBlock = 0
        · rw [if_pos missing, if_pos missing]
        · rw [if_neg missing, if_neg missing]
          dsimp only
          rw [extendPath_passed isPath, extendPath_passed isPath']
          cases enter : enterNode s nodeBlock node with
          | none => rfl
          | some entered =>
            rw [Option.bind_some, Option.bind_some]
            cases entered with
            | none => rfl
            | some next =>
              dsimp only
              by_cases done : rest = []
              · have done' : rest' = [] := by
                  rw [done] at more
                  exact List.length_eq_zero_iff.mp more.symm
                rw [if_pos (last.mpr done), if_pos (last'.mpr done')]
              · have done' : rest' ≠ [] := by
                  intro empty
                  rw [empty] at more
                  exact done (List.length_eq_zero_iff.mp more)
                rw [if_neg (fun same => done (last.mp same)),
                  if_neg (fun same => done' (last'.mp same)), List.append_cons passed,
                  List.append_cons passed']
                rw [List.append_cons] at isPath isPath'
                have next := ih isPath isPath' keys' next
                rw [List.length_append, List.length_append, List.length_singleton,
                  List.length_singleton] at next
                exact next

/-- Paths whose components have the same keys lead to the same object. -/
theorem itemSearch_keys {components components' : List CString} (isPath : IsPath components)
    (isPath' : IsPath components') (keys : pathKeys components = pathKeys components') :
    itemSearch s (pathOf components) = itemSearch s (pathOf components') := by
  have more := congrArg List.length keys
  rw [pathKeys, pathKeys, List.length_map, List.length_map] at more
  by_cases top : components = []
  · rw [top] at more
    rw [top, List.length_eq_zero_iff.mp more.symm]
  · have top' : components' ≠ [] := by
      intro empty
      rw [empty] at more
      exact top (List.length_eq_zero_iff.mp more)
    have notSlash : ∀ path : List CString, IsPath path → path ≠ [] → pathOf path ≠ [slash] := by
      intro path isPath nonempty wrong
      have longer := one_lt_joinPath isPath.1 nonempty
      rw [pathOf_of_ne_nil nonempty] at wrong
      rw [wrong] at longer
      exact absurd longer (by decide)
    unfold itemSearch
    cases read : superblockRead s with
    | none => rfl
    | some superblock =>
      rw [Option.bind_eq_bind, Option.bind_some, Option.bind_eq_bind, Option.bind_some]
      cases load : btreeNodeLoad s superblock.btreeRoot with
      | none => rfl
      | some node =>
        rw [Option.bind_some, Option.bind_some, if_neg (notSlash components isPath top),
          if_neg (notSlash components' isPath' top'), countL_pathOf isPath.1,
          countL_pathOf isPath'.1]
        exact @itemSearchFrom_keys s [] components [] components' isPath isPath' keys node

/-- A name that leads nowhere from a directory has no leaf there. -/
theorem Forest.leaf_none {place : List Nat} {key : Nat}
    (reached : forest.walk place = some (.directory dir))
    (nowhere : forest.walk (place ++ [key]) = none) : forest.leaf dir key = none := by
  unfold Forest.walk at reached nowhere
  rw [Hierarchy.walk_last reached rfl] at nowhere
  exact Option.map_eq_none_iff.mp nowhere

/-- A directory whose leaves have few keys has room. -/
theorem Forest.Held.room_few (held : forest.Held layout s) {keys : List Nat}
    (few : keys.length < maxKeys) (only : ∀ leaf ∈ forest.leaves dir, leaf.key ∈ keys) :
    (forest.leaves dir).length < maxKeys := by
  have inside : (forest.leaves dir).map Leaf.key ⊆ keys := by
    intro key isKey
    obtain ⟨leaf, isLeaf, rfl⟩ := List.mem_map.mp isKey
    exact only leaf isLeaf
  have most := (List.subperm_of_subset (held.keys dir) inside).length_le
  rw [List.length_map] at most
  omega

/-- Two files that are created in an empty directory, by calls that replay nothing, are found under
their own names if and only if the names have different keys. -/
theorem created_apart_iff (held : forest.Held layout s) {first second : CString}
    (isFirst : IsPath (place ++ [first])) (isSecond : IsPath (place ++ [second]))
    (reached : forest.walk (pathKeys place) = some (.directory dir))
    (empty : forest.leaves dir = []) {locals' : Locals} {host' : Host}
    {mode mode' inodeNumber inodeNumber' : Nat} {s1 s2 : Store}
    (file : mode &&& fileTypeMask ≠ fileTypeDirectory)
    (file' : mode' &&& fileTypeMask ≠ fileTypeDirectory)
    (one : Created (appendEntry locals host) locals host s (pathOf (place ++ [first])) mode
      inodeNumber s1)
    (two : Created (appendEntry locals' host') locals' host' s1 (pathOf (place ++ [second])) mode'
      inodeNumber' s2)
    (quiet : (nbtrfsMknod quietAppend locals host s (pathOf (place ++ [first])) mode).isSome = true)
    (quiet' :
      (nbtrfsMknod quietAppend locals' host' s1 (pathOf (place ++ [second])) mode').isSome = true)
    (apart : inodeNumber ≠ inodeNumber') :
    (itemSearch s2 (pathOf (place ++ [first])) = some ⟨inodeNumber, 0⟩ ∧
      itemSearch s2 (pathOf (place ++ [second])) = some ⟨inodeNumber', 0⟩) ↔
    pathHash first ≠ pathHash second := by
  have keysOf : ∀ name, pathKeys (place ++ [name]) = pathKeys place ++ [pathHash name] :=
    fun name => List.map_append
  have one := one.below (quietAppend_below locals host) quiet
  have two := two.below (quietAppend_below locals' host') quiet'
  constructor
  · rintro ⟨own, own'⟩ same
    have keys : pathKeys (place ++ [first]) = pathKeys (place ++ [second]) := by
      rw [keysOf, keysOf, same]
    rw [itemSearch_keys isFirst isSecond keys, own'] at own
    exact apart (congrArg InodeBtreePair.inodeNumber (Option.some.inj own)).symm
  · intro differ
    have none : ∀ key, forest.leaf dir key = none := by
      intro key
      rw [Forest.leaf, empty]
      rfl
    obtain ⟨forest1, held1, assigned1⟩ := held.created isFirst reached (none _)
      (by rw [empty]; decide) file one
    have shorter : ∀ key, ¬ pathKeys place ++ [key] <+: pathKeys place := by
      intro key inside
      have longer := inside.length_le
      rw [List.length_append, List.length_singleton] at longer
      omega
    have reached1 : forest1.walk (pathKeys place) = some (.directory dir) := by
      rw [assigned1.around _ (shorter _)]
      exact reached
    have other : ∀ key, pathHash first ≠ key → ¬ pathKeys place ++ [pathHash first] <+:
        pathKeys place ++ [key] := by
      intro key differs inside
      have same := inside.eq_of_length (by simp)
      exact differs (List.singleton_inj.mp (List.append_cancel_left same))
    have absent1 : ∀ key, pathHash first ≠ key → forest1.leaf dir key = Option.none := by
      intro key differs
      apply Forest.leaf_none reached1
      rw [assigned1.around _ (other key differs), Forest.walk, Hierarchy.walk_last reached rfl,
        Forest.entries, none key]
      rfl
    have only : ∀ leaf ∈ forest1.leaves dir, leaf.key = pathHash first := by
      intro leaf inside
      by_contra differs
      exact Forest.leaf_absent (absent1 leaf.key (Ne.symm differs)) leaf inside rfl
    have room1 := @Forest.Held.room_few _ _ _ _ held1 [pathHash first]
      (by rw [List.length_singleton]; decide) fun leaf inside =>
        List.mem_singleton.mpr (only leaf inside)
    obtain ⟨forest2, held2, assigned2⟩ := held1.created isSecond reached1 (absent1 _ differ) room1
      file' two
    have first1 : forest1.walk (pathKeys (place ++ [first])) = some (.file inodeNumber) := by
      have through := assigned1.through []
      rw [List.append_nil] at through
      rw [keysOf]
      exact through
    have second2 : forest2.walk (pathKeys (place ++ [second])) = some (.file inodeNumber') := by
      have through := assigned2.through []
      rw [List.append_nil] at through
      rw [keysOf]
      exact through
    have around : ¬ pathKeys place ++ [pathHash second] <+: pathKeys (place ++ [first]) := by
      intro inside
      rw [keysOf] at inside
      have same := inside.eq_of_length (by simp)
      exact differ (List.singleton_inj.mp (List.append_cancel_left same)).symm
    constructor
    · rw [held2.itemSearch isFirst, assigned2.around _ around, first1]
      rfl
    · rw [held2.itemSearch isSecond, second2]
      rfl

end

/-- An empty root directory in block 7 of an image of 400 blocks with a journal of four. -/
def emptyImage : Store where
  totalBlocks := 400
  mem block :=
    if block = 0 then .super { smallSuperblock with totalBlocks := 400, journalStart := 10 }
    else if block = 1 then .bitmap fun word => if word = 0 then 0xffff#64 else 0
    else if block = 2 then .bitmap fun word => if word = 0 then 1#64 else 0
    else if block = 3 then .inode fun _ => zeroInode
    else if block = 7 then .btreeNode (freshNode 7 false fileTypeDirectory)
    else if 10 ≤ block ∧ block < 14 then .journal ⟨block, true, .uninitialized⟩
    else .untagged fun _ => 0
  disk _ := .untagged fun _ => 0
  residue := ⟨fun _ => 0, fun _ _ => 0⟩

/-- Its directory. -/
def emptyForest : Forest where
  root := 7
  live := [7]
  inode _ := 0
  leaves _ := []

/-- The layout of the image. -/
def emptyLayout : Superblock := { smallSuperblock with totalBlocks := 400, journalStart := 10 }

/-- The image holds the directory. -/
theorem emptyForest_held : emptyForest.Held emptyLayout emptyImage := by
  have page : ∀ pnum < 400, bitmapPage pnum = 1 := by
    intro pnum small
    unfold bitmapPage usableBlockSize
    omega
  have formatted : emptyImage.Formatted := by
    refine ⟨?_, show 0 < 400 by decide, by decide +kernel, ?_⟩
    · intro pnum small
      rw [page pnum small]
      exact ⟨show 1 < 400 by decide, _, rfl⟩
    · intro pnum small
      rw [page pnum small]
      decide +kernel
  have owned : Owned emptyImage [7] := by
    refine ⟨formatted, by decide, ?_, by decide, ?_⟩
    · show ∀ block ∈ [7], block < 400
      decide
    · intro block inside
      rw [List.mem_singleton.mp inside]
      decide +kernel
  constructor
  · exact ⟨emptyLayout, rfl, rfl, rfl, rfl, rfl, rfl⟩
  · rfl
  · intro pnum inside
    rw [page pnum inside]
    decide
  · rfl
  · exact List.mem_singleton.mpr rfl
  · exact owned
  · intro dir live
    obtain rfl : dir = 7 := List.mem_singleton.mp live
    refine ⟨fileTypeDirectory, _, ⟨owned, ⟨rfl, ?_, ?_⟩, List.Pairwise.nil, rfl, rfl, rfl, rfl, rfl,
      rfl⟩, fun other => absurd rfl other⟩
    · refine ⟨rfl, rfl, rfl, by decide, by decide, by decide, ?_, fun _ _ => rfl⟩
      intro i below
      exact absurd below (Nat.not_lt_zero i)
    · intro leaf inside
      cases inside
  · exact fun _ _ => rfl
  · intro dir leaf inside
    cases inside
  · intro keys keys' dir reached reached'
    have root : ∀ keys, emptyForest.walk keys = some (.directory dir) → keys = [] := by
      intro keys walked
      cases keys with
      | nil => rfl
      | cons key keys => cases walked
    rw [root keys reached, root keys' reached']

/-- What both calls take, and what the searches of both names find after them. -/
def createBoth (first second : CString) :
    Option ((Option Nat × Bool) × (Option Nat × Bool) × Option InodeBtreePair ×
      Option InodeBtreePair) := do
  let (inode, done, s) ← mknod quietAppend zeroLocals zeroHost (fun _ s => some s) emptyImage
    (pathOf [first]) fileTypeRegular false
  let s ← quietAppend (localEntry (.mknod (pathOf [first]) fileTypeRegular 0 (inode.getD 0))) s
  let (inode', done', s) ← mknod quietAppend zeroLocals zeroHost (fun _ s => some s) s
    (pathOf [second]) fileTypeRegular false
  let s ← quietAppend (localEntry (.mknod (pathOf [second]) fileTypeRegular 0 (inode'.getD 0))) s
  some ((inode, done), (inode', done'), itemSearch s (pathOf [first]), itemSearch s (pathOf [second]))

/-- The call is one of the source where it replays nothing. -/
theorem Created.loud {s s' : Store} {path : CString} {mode inodeNumber : Nat}
    (created : Created quietAppend zeroLocals zeroHost s path mode inodeNumber s') :
    Created (appendEntry zeroLocals zeroHost) zeroLocals zeroHost s path mode inodeNumber s' ∧
      (nbtrfsMknod quietAppend zeroLocals zeroHost s path mode).isSome = true := by
  have below := quietAppend_below zeroLocals zeroHost
  refine ⟨?_, Option.isSome_iff_exists.mpr ⟨_, created.run⟩⟩
  obtain ⟨s1, made, logged⟩ := created
  exact ⟨s1, mknod_below below zeroLocals zeroHost _ s path mode false _ made, below _ _ _ logged⟩

/-- The two calls of such a run. -/
theorem createBoth_created {first second : CString} {inodeNumber inodeNumber' : Nat}
    {found found' : Option InodeBtreePair}
    (run : createBoth first second =
      some ((some inodeNumber, true), (some inodeNumber', true), found, found')) :
    ∃ s1 s2, Created quietAppend zeroLocals zeroHost emptyImage (pathOf [first]) fileTypeRegular
        inodeNumber s1 ∧
      Created quietAppend zeroLocals zeroHost s1 (pathOf [second]) fileTypeRegular inodeNumber' s2 ∧
      itemSearch s2 (pathOf [first]) = found ∧ itemSearch s2 (pathOf [second]) = found' := by
  unfold createBoth at run
  obtain ⟨⟨inode, done, s⟩, made, run⟩ := Option.bind_eq_some_iff.mp run
  obtain ⟨s1, logged, run⟩ := Option.bind_eq_some_iff.mp run
  obtain ⟨⟨inode', done', s'⟩, made', run⟩ := Option.bind_eq_some_iff.mp run
  obtain ⟨s2, logged', run⟩ := Option.bind_eq_some_iff.mp run
  obtain ⟨taken, rest⟩ := Prod.mk.inj (Option.some.inj run)
  obtain ⟨taken', searches⟩ := Prod.mk.inj rest
  obtain ⟨searched, searched'⟩ := Prod.mk.inj searches
  obtain ⟨rfl, rfl⟩ := Prod.mk.inj taken
  obtain ⟨rfl, rfl⟩ := Prod.mk.inj taken'
  exact ⟨s1, s2, ⟨s, made, logged⟩, ⟨s', made', logged'⟩, searched, searched'⟩

/-- The names `a` and `b`, each of which is found. -/
theorem created_apart_iff_letters :
    ∃ s1 s2, Created (appendEntry zeroLocals zeroHost) zeroLocals zeroHost emptyImage (pathOf [[97]])
        fileTypeRegular 1 s1 ∧
      Created (appendEntry zeroLocals zeroHost) zeroLocals zeroHost s1 (pathOf [[98]])
        fileTypeRegular 2 s2 ∧
      itemSearch s2 (pathOf [[97]]) = some ⟨1, 0⟩ ∧ itemSearch s2 (pathOf [[98]]) = some ⟨2, 0⟩ := by
  have run : createBoth [97] [98] =
      some ((some 1, true), (some 2, true), some ⟨1, 0⟩, some ⟨2, 0⟩) := by
    decide +kernel
  obtain ⟨s1, s2, one, two, -⟩ := createBoth_created run
  obtain ⟨one, quiet⟩ := one.loud
  obtain ⟨two, quiet'⟩ := two.loud
  have apart : pathHash [97] ≠ pathHash [98] := by decide +kernel
  exact ⟨s1, s2, one, two, (@created_apart_iff emptyForest emptyLayout emptyImage _ _ [] 7
    emptyForest_held [97] [98] ⟨by decide, by decide⟩ ⟨by decide, by decide⟩ rfl rfl _ _ _ _ _ _ s1 s2
    (by decide) (by decide) one two quiet quiet' (by decide)).mpr apart⟩

/-- Two names of 20 characters with one key. The second file is found under both. -/
theorem created_apart_false :
    ¬ ∀ (forest : Forest) (layout : Superblock) (s s1 s2 : Store) (locals : Locals) (host : Host)
        (place : List CString) (dir : Nat) (first second : CString)
        (mode inodeNumber inodeNumber' : Nat), forest.Held layout s →
      IsPath (place ++ [first]) → IsPath (place ++ [second]) → first ≠ second →
      forest.walk (pathKeys place) = some (.directory dir) → forest.leaves dir = [] →
      mode &&& fileTypeMask ≠ fileTypeDirectory →
      Created (appendEntry locals host) locals host s (pathOf (place ++ [first])) mode inodeNumber
        s1 →
      Created (appendEntry locals host) locals host s1 (pathOf (place ++ [second])) mode inodeNumber'
        s2 →
      inodeNumber ≠ inodeNumber' →
      itemSearch s2 (pathOf (place ++ [first])) = some ⟨inodeNumber, 0⟩ ∧
        itemSearch s2 (pathOf (place ++ [second])) = some ⟨inodeNumber', 0⟩ := by
  intro all
  have run : createBoth
      [56, 121, 110, 48, 105, 89, 67, 75, 89, 72, 108, 73, 106, 52, 45, 66, 119, 80, 113, 107]
      [71, 82, 101, 76, 85, 114, 77, 52, 119, 77, 113, 102, 103, 57, 121, 122, 86, 51, 75, 81] =
      some ((some 1, true), (some 2, true), some ⟨2, 0⟩, some ⟨2, 0⟩) := by
    decide +kernel
  obtain ⟨s1, s2, one, two, found, -⟩ := createBoth_created run
  have own := (all emptyForest emptyLayout emptyImage s1 s2 _ _ [] 7 _ _ _ 1 2 emptyForest_held
    ⟨by decide, by decide⟩ ⟨by decide, by decide⟩ (by decide) rfl rfl (by decide) one.loud.1
    two.loud.1 (by decide)).1
  rw [List.nil_append, found] at own
  cases own

end Nbtrfs
