import Nbtrfs.Inode.Allocator
import Nbtrfs.Namespace.Trees

/-!
# The tree of names of a formatted image

A formatted image has a root directory without names, and no inode with a size. A run of calls that starts
there ends in a store where `item_search` finds for each path what it is in the tree.
-/

namespace Nbtrfs

open Hierarchy (Entry)
open NameTree (Node WellFormed Spells Behind)

/-- The root directory of a formatted image. -/
def formattedForest (totalBlocks : Nat) : Forest where
  root := rootBlock totalBlocks
  live := [rootBlock totalBlocks]
  inode _ := 0
  leaves _ := []

/-- A tree without names. -/
def rootTree {Name : Type} : List Name → Option (Node Nat)
  | [] => some (.directory 0)
  | _ :: _ => none

section

variable {host : Host} {residue : Residue} {totalBlocks : Nat} {volumeName : CString}
  {layout : Superblock} {s : Store}

/-- `disk_format` leaves the blocks behind the root node without a tag. -/
theorem diskFormat_behind (formattable : Formattable totalBlocks)
    (format : diskFormat host (zeroImage totalBlocks residue) volumeName = some (true, s)) {block : Nat}
    (behind : rootBlock totalBlocks < block) : s.mem block = .untagged fun _ => 0 := by
  obtain ⟨-, tagged, ready, superblock, state, run⟩ := diskFormat_root format
  obtain ⟨-, s1, node, number, entered, root, -, kept, allocate, rfl⟩ := state.steps run
  obtain ⟨former, read, initial⟩ := state.former
  obtain ⟨former1, read1, size1, start1⟩ := kept.superblock former read
  have initial1 : Initial totalBlocks former1 :=
    ⟨size1.trans initial.size, start1.trans initial.start⟩
  have journal := formattable.journal
  have room := formattable.room
  have page : rootPage totalBlocks = rootBlock totalBlocks := by
    unfold rootPage rootBlock
    omega
  obtain ⟨bitmapOrder, tableOrder, journalOrder⟩ := formattable.order
  rw [page] at allocate ⊢
  have total : ready.totalBlocks = totalBlocks :=
    state.kept.totalBlocks.trans state.regions.totalBlocks
  have same : ∀ other, bitmapBlocks totalBlocks < other → other ≠ rootBlock totalBlocks →
      (s1.put (rootBlock totalBlocks) (.btreeNode node)).mem other = tagged.mem other := by
    intro other after notRoot
    rw [Store.put_other _ _ _ _ notRoot, kept.mem other (by rw [total]; exact after),
      state.kept.mem other (by rw [state.regions.totalBlocks]; exact after)]
  have readRooted :
      superblockRead (s1.put (rootBlock totalBlocks) (.btreeNode node)) = some former1 := by
    unfold superblockRead at read1 ⊢
    rw [Store.put_other _ _ _ _ (by omega)]
    exact read1
  have inside : (s1.put (rootBlock totalBlocks) (.btreeNode node)).totalBlocks = totalBlocks :=
    kept.totalBlocks.trans total
  obtain ⟨numbered, allocated, first⟩ := inodeAllocate_first host rootMode readRooted
    (by rw [initial1.start, same _ (by omega) (by omega)]
        exact state.regions.bitmaps _ (by omega) bitmapOrder)
    (by rw [initial1.inodePage, same _ (by omega) (by omega)]
        exact state.regions.table _ (Nat.le_refl _) tableOrder)
    (by rw [initial1.start, inside]; omega) (by rw [initial1.inodePage, inside]; omega)
  rw [initial1.start, initial1.inodePage] at first
  obtain ⟨-, rfl⟩ := Prod.mk.inj (Option.some.inj (allocated.symm.trans allocate))
  have readRoot : superblockRead (numbered.put (rootBlock totalBlocks) (.btreeNode root)) =
      some former1 := by
    unfold superblockRead at readRooted ⊢
    rw [Store.put_other _ _ _ _ (by omega), first.other 0 (by omega) (by omega)]
    exact readRooted
  rw [superblockWrite_mem (superblockRead_page readRoot), Store.put_other _ _ _ _ (by omega),
    Store.put_other _ _ _ _ (by omega), first.other block (by omega) (by omega),
    same block (by omega) (by omega)]
  exact state.behind block (by omega)

/-- The blocks up to the root node are allocated. -/
theorem Laid.formatted (laid : Laid host totalBlocks s) (formattable : Formattable totalBlocks) :
    s.Formatted := by
  have room := formattable.room
  have bitmap : bitmapBlocks totalBlocks < tableStart totalBlocks := by
    unfold tableStart
    omega
  have order : tableStart totalBlocks ≤ rootBlock totalBlocks := by
    unfold rootBlock journalStart
    omega
  have allocated : ∀ block ≤ bitmapBlocks totalBlocks, s.bit block = some true := by
    intro block small
    have here : bitmapPage block ≤ bitmapBlocks totalBlocks := bitmapPage_le (by omega)
    rw [laid.blocks block here, decide_eq_true (by omega)]
  constructor
  · intro pnum inside
    rw [laid.totalBlocks] at inside
    have page := bitmapPage_le inside
    refine ⟨?_, laid.bitmaps _ (Nat.le_add_right 1 _) (by omega)⟩
    rw [laid.totalBlocks]
    omega
  · rw [laid.totalBlocks]
    omega
  · exact allocated 0 (Nat.zero_le _)
  · intro pnum inside
    rw [laid.totalBlocks] at inside
    exact allocated _ (bitmapPage_le inside)

/-- A formatted image holds the root directory. -/
theorem Laid.held (laid : Laid host totalBlocks s) (formattable : Formattable totalBlocks)
    (read : superblockRead s = some layout) : (formattedForest totalBlocks).Held layout s := by
  obtain ⟨superblock, read', size, start, -, -, root, -⟩ := laid.superblock
  obtain rfl : superblock = layout := Option.some.inj (read'.symm.trans read)
  obtain ⟨type, page⟩ := laid.root
  have room := formattable.room
  have nonzero : rootBlock totalBlocks ≠ 0 := by
    unfold rootBlock journalStart tableStart
    omega
  have within : rootBlock totalBlocks < s.totalBlocks := by
    rw [laid.totalBlocks]
    omega
  have owned : Owned s [rootBlock totalBlocks] := by
    refine ⟨laid.formatted formattable, List.nodup_singleton _, ?_, ?_, ?_⟩
    · intro block inside
      rw [List.mem_singleton.mp inside]
      exact within
    · intro block inside
      rw [List.mem_singleton.mp inside]
      exact nonzero
    · intro block inside
      rw [List.mem_singleton.mp inside, laid.blocks _ (bitmapPage_le (by omega)),
        decide_eq_true (Nat.le_refl _)]
  have noNode : btreeNodeLoad s 0 = none := by
    rw [Option.eq_none_iff_forall_not_mem]
    intro node load
    have tag := (load_eq_some.mp load).2
    rw [superblockRead_page read] at tag
    cases tag
  constructor
  · exact ⟨superblock, read, Superblock.SameLayout.refl superblock⟩
  · rw [laid.totalBlocks, size]
  · intro pnum inside
    rw [laid.totalBlocks] at inside
    rw [start]
    have small := bitmapPage_le inside
    omega
  · exact root
  · exact List.mem_singleton.mpr rfl
  · exact owned
  · intro dir live
    obtain rfl : dir = rootBlock totalBlocks := List.mem_singleton.mp live
    refine ⟨type, _, ⟨owned, ⟨load_eq_some.mpr ⟨within, page⟩, ?_, ?_⟩, List.Pairwise.nil, rfl, rfl,
      rfl, rfl, rfl, noNode⟩, fun other => absurd rfl other⟩
    · refine ⟨rfl, rfl, rfl, Nat.zero_le _, Nat.zero_le _, Nat.zero_le _, ?_, fun _ _ => rfl⟩
      intro i below
      exact absurd below (Nat.not_lt_zero i)
    · intro leaf inside
      cases inside
  · exact fun _ _ => rfl
  · intro dir leaf inside
    cases inside
  · intro keys keys' dir reached reached'
    have root : ∀ keys, (formattedForest totalBlocks).walk keys = some (.directory dir) →
        keys = [] := by
      intro keys walked
      cases keys with
      | nil => rfl
      | cons key keys => cases walked
    rw [root keys reached, root keys' reached']

/-- A formatted image has no inode with a size. -/
theorem diskFormat_bare (formattable : Formattable totalBlocks)
    (format : diskFormat host (zeroImage totalBlocks residue) volumeName = some (true, s))
    (laid : Laid host totalBlocks s) (read : superblockRead s = some layout) :
    (formattedForest totalBlocks).Bare layout s := by
  have held := laid.held formattable read
  refine ⟨held, held.owned.formatted, held.superblock, held.total, held.apart, nofun, nofun, nofun, ?_⟩
  obtain ⟨superblock, read', size, start, -⟩ := laid.superblock
  obtain rfl : superblock = layout := Option.some.inj (read'.symm.trans read)
  have initial : Initial totalBlocks superblock := ⟨size, start⟩
  intro inodeNumber slots tag
  rw [show (Guard.plain superblock sizeless).layout = superblock from rfl,
    initial.inodePage_eq] at tag
  rcases Nat.lt_or_ge (tableStart totalBlocks + inodeNumber / inodesPerPage)
    (journalStart totalBlocks) with table | after
  · rw [laid.table _ (Nat.le_add_right _ _) table] at tag
    obtain rfl := Block.inode.inj tag
    unfold Guard.plain sizeless setSlot
    dsimp only
    split
    case isTrue =>
      dsimp only
      split
      · rfl
      · rfl
    case isFalse => rfl
  · rcases Nat.lt_trichotomy (tableStart totalBlocks + inodeNumber / inodesPerPage)
      (rootBlock totalBlocks) with journal | root | behind
    · rw [laid.journal _ after journal] at tag
      cases tag
    · obtain ⟨type, page⟩ := laid.root
      rw [root, page] at tag
      cases tag
    · rw [diskFormat_behind formattable format behind] at tag
      cases tag

variable {Name : Type} {bytes : Name → CString}

/-- A formatted image shows the tree without names. -/
theorem diskFormat_shows (formattable : Formattable totalBlocks)
    (format : diskFormat host (zeroImage totalBlocks residue) volumeName = some (true, s)) :
    ∃ layout, (formattedForest totalBlocks).ShowsTree layout (mounted s) bytes rootTree := by
  have short : volumeName.length ≤ 31 := by
    by_contra long
    rw [diskFormat, superblockInitialize, if_pos (by omega)] at format
    cases format
  obtain ⟨after, format', laid⟩ := diskFormat_laid host residue formattable short
  obtain rfl : after = s := (Prod.mk.inj (Option.some.inj (format'.symm.trans format))).2
  obtain ⟨layout, read, -⟩ := laid.superblock
  obtain ⟨held, sizes⟩ := diskFormat_bare formattable format laid read
  have mountedHolds : ∀ {guard : Guard}, guard.Holds after → guard.Holds (mounted after) :=
    fun holds => holds.same rfl rfl
  refine ⟨layout, ⟨held.guarded (mountedHolds held.treesOnly), mountedHolds sizes⟩, ⟨⟨0, rfl⟩, ?_⟩,
    ?_, ?_⟩
  · intro place name named
    cases place with
    | nil => exact absurd rfl named
    | cons => exact absurd rfl named
  · intro path node named
    cases path with
    | nil =>
      obtain rfl := Option.some.inj named
      rfl
    | cons => cases named
  · intro path absent _
    cases path with
    | nil => cases absent
    | cons name path => rfl

/-- What `item_search` finds in a store that shows a tree. -/
theorem Forest.ShowsTree.itemSearch {forest : Forest} {tree : List Name → Option (Node Nat)}
    (shows_ : forest.ShowsTree layout s bytes tree) {path : List Name}
    (isPath : IsPath (path.map bytes)) :
    (∀ id, tree path = some (.directory id) →
      ∃ block ≠ 0, Nbtrfs.itemSearch s (pathOf (path.map bytes)) = some ⟨id, block⟩) ∧
    (∀ id, tree path = some (.file id) →
      Nbtrfs.itemSearch s (pathOf (path.map bytes)) = some ⟨id, 0⟩) ∧
    (tree path = none → ¬ Behind tree path →
      Nbtrfs.itemSearch s (pathOf (path.map bytes)) = some noPair) := by
  have held := shows_.bare.held
  refine ⟨fun id directory => ?_, fun id file => shows_.search isPath file, fun absent ahead => ?_⟩
  · obtain ⟨dir, reached, rfl⟩ := shows_.reached directory
    refine ⟨dir, held.owned.nonzero dir (Forest.mem_blocks (held.walk_live reached) (Forest.mem_tree forest)), ?_⟩
    rw [held.itemSearch isPath, reached]
    rfl
  · have nothing := shows_.spells.nothing path absent ahead
    rw [map_nameKey] at nothing
    rw [held.itemSearch isPath, Option.map_eq_none_iff.mp nothing]
    rfl

variable [DecidableEq Name]

/-- After a run of calls from a formatted image `item_search` finds for each path what it is in the tree
of names: the directories with their inodes and root nodes, the files with their inodes, and nothing for
the other paths, but for those that go on behind a file. -/
theorem formatted_names_shown (injective : Function.Injective (nameKey bytes))
    (formattable : Formattable totalBlocks)
    (format : diskFormat host (zeroImage totalBlocks residue) volumeName = some (true, s))
    {s' : Store} {calls : List (List Name × Name × PathCall Name)}
    {tree : List Name → Option (Node Nat)} (run : PathRun bytes (mounted s) rootTree calls s' tree)
    {path : List Name} (isPath : IsPath (path.map bytes)) :
    (∀ id, tree path = some (.directory id) →
      ∃ block ≠ 0, itemSearch s' (pathOf (path.map bytes)) = some ⟨id, block⟩) ∧
    (∀ id, tree path = some (.file id) →
      itemSearch s' (pathOf (path.map bytes)) = some ⟨id, 0⟩) ∧
    (tree path = none → ¬ Behind tree path →
      itemSearch s' (pathOf (path.map bytes)) = some noPair) := by
  obtain ⟨layout, shows_⟩ :=
    @diskFormat_shows host residue totalBlocks volumeName s Name bytes formattable format
  obtain ⟨forest, shows'⟩ := shows_.run injective run
  exact shows'.itemSearch isPath

end

/-- Two names. -/
def letter : Bool → CString
  | false => [97]
  | true => [98]

/-- A directory and a file are made in `/`, and the file is moved into the directory. -/
def movingCalls : List (List Bool × Bool × PathCall Bool) :=
  [([], false, .mkdir 0o755), ([], true, .mknod (fileTypeRegular + 0o644)), ([false], true, .rename [true])]

/-- The store after a call that returns 0. -/
def succeeded : Option (Bool × Store) → Option Store
  | some (true, s) => some s
  | _ => none

/-- It is the store of the call. -/
theorem succeeded_eq {result : Option (Bool × Store)} {s : Store} (done : succeeded result = some s) :
    result = some (true, s) := by
  unfold succeeded at done
  split at done
  case h_1 => rw [Option.some.inj done]
  case h_2 => cases done

/-- The stores of the run, from a formatted image of 1000 blocks. -/
def movingStores : Option (Store × Store × Store × Store) := do
  let locals : Locals := ⟨fun _ => false, fun _ => 0, fun _ _ => 0⟩
  let s ← succeeded (diskFormat ⟨0, 0, 0⟩ (zeroImage 1000 ⟨fun _ => 0, fun _ _ => 0⟩) [])
  let s1 ← succeeded (PathCall.run letter locals ⟨0, 0, 0⟩ (mounted s) [false] (.mkdir 0o755))
  let s2 ← succeeded
    (PathCall.run letter locals ⟨0, 0, 0⟩ s1 [true] (.mknod (fileTypeRegular + 0o644)))
  let s3 ← succeeded (PathCall.run letter locals ⟨0, 0, 0⟩ s2 [false, true] (.rename [true]))
  some (s, s1, s2, s3)

/-- What the calls ask of the stores, and the inode of the file. -/
def movingReady (s s1 s2 : Store) : Bool :=
  treeCount (mounted s) (pathOf []) = some 0 ∧ treeCount s1 (pathOf []) = some 1 ∧
    treeCount s2 (pathOf [[97]]) = some 0 ∧ linkedType s2 [[98]] = some fileTypeRegular ∧
    takenInode ⟨0, 0, 0⟩ s1 (fileTypeRegular + 0o644) = 2 ∧
    (quietAppend (localEntry (.rename (pathOf [[98]]) (pathOf [[97], [98]]))) s2).all fun s =>
      (directoryExistsEntry s (pathOf [[97]]) [98]).map Option.isNone = some true

/-- On a formatted image a directory and a file are made and the file is moved into the directory. -/
theorem formatted_names_shown_moved : ∃ s s' tree,
    diskFormat ⟨0, 0, 0⟩ (zeroImage 1000 ⟨fun _ => 0, fun _ _ => 0⟩) [] = some (true, s) ∧
      PathRun letter (mounted s) rootTree movingCalls s' tree ∧
      itemSearch s' (pathOf [[97], [98]]) = some ⟨2, 0⟩ ∧ itemSearch s' (pathOf [[98]]) = some noPair := by
  have ready : movingStores.any (fun (s, s1, s2, _) => movingReady s s1 s2) = true := by decide +kernel
  obtain ⟨⟨s, s1, s2, s3⟩, stores, checked⟩ := (Option.any_eq_true _ _).mp ready
  obtain ⟨first, second, third, kind, number, unlisted⟩ := of_decide_eq_true checked
  unfold movingStores at stores
  obtain ⟨t, format, stores⟩ := Option.bind_eq_some_iff.mp stores
  obtain ⟨t1, mkdir, stores⟩ := Option.bind_eq_some_iff.mp stores
  obtain ⟨t2, mknod, stores⟩ := Option.bind_eq_some_iff.mp stores
  obtain ⟨t3, rename, stores⟩ := Option.bind_eq_some_iff.mp stores
  obtain ⟨rfl, rest⟩ := Prod.mk.inj (Option.some.inj stores)
  obtain ⟨rfl, last⟩ := Prod.mk.inj rest
  obtain ⟨rfl, -⟩ := Prod.mk.inj last
  have noEntry : ∀ appended,
      quietAppend (localEntry (.rename (pathOf [[98]]) (pathOf [[97], [98]]))) t2 = some appended →
      directoryExistsEntry appended (pathOf [[97]]) [98] = some none := by
    intro appended append
    rw [append] at unlisted
    obtain ⟨entry, listed, isNone⟩ := Option.map_eq_some_iff.mp (of_decide_eq_true unlisted)
    rw [listed, Option.isNone_iff_eq_none.mp isNone]
  have injective : Function.Injective (nameKey letter) := by decide +kernel
  let tree1 := (PathCall.mkdir 0o755).after ⟨0, 0, 0⟩ (mounted t) rootTree [false]
  let tree2 := (PathCall.mknod (fileTypeRegular + 0o644)).after ⟨0, 0, 0⟩ t1 tree1 [true]
  let tree3 := (PathCall.rename [true]).after ⟨0, 0, 0⟩ t2 tree2 [false, true]
  have run3 : PathRun letter t2 tree2 [([false], true, .rename [true])] t3 tree3 :=
    .cons _ _ ⟨by decide, by decide⟩ ⟨⟨⟨_, rfl⟩, rfl⟩, ⟨_, rfl⟩⟩
      ⟨⟨by decide, by decide⟩, ⟨0, by decide, third⟩, ⟨_, by decide, kind⟩, noEntry⟩
      (succeeded_eq rename) (.nil t3 _)
  have run2 : PathRun letter t1 tree1 (movingCalls.drop 1) t3 tree3 :=
    .cons _ _ ⟨by decide, by decide⟩ ⟨⟨_, rfl⟩, rfl⟩ ⟨1, by decide, second⟩ (succeeded_eq mknod) run3
  have run : PathRun letter (mounted t) rootTree movingCalls t3 tree3 :=
    .cons _ _ ⟨by decide, by decide⟩ ⟨⟨_, rfl⟩, rfl⟩ ⟨0, by decide, first⟩ (succeeded_eq mkdir) run2
  have shown := fun path => @formatted_names_shown _ _ _ _ _ Bool letter _ injective
    ⟨by decide, by decide, by decide⟩ (succeeded_eq format) _ _ _ run path
  refine ⟨t, t3, tree3, succeeded_eq format, run, ?_, ?_⟩
  · rw [← number]
    exact (shown [false, true] ⟨by decide, by decide⟩).2.1 _ rfl
  · refine (shown [true] ⟨by decide, by decide⟩).2.2 rfl ?_
    rintro ⟨front, rest, id, more, same, file⟩
    obtain rfl : front = [] := by
      cases front with
      | nil => rfl
      | cons name front =>
        have length := congrArg List.length same
        rw [List.length_append, List.length_cons, List.length_cons, List.length_nil] at length
        exact absurd (List.eq_nil_of_length_eq_zero (by omega)) more
    cases file

end Nbtrfs
