import Nbtrfs.Directory.Readers
import Nbtrfs.Namespace.PathMap

/-!
# Looking at files

`nbtrfs_access`, `nbtrfs_getattr` and `nbtrfs_readdir`. The names of a listing come from the blocks of
a directory, and each is looked up again as a path, through the B-trees; a name that is not found
fails an assertion and ends the program. Where `directory_list` has read no block, `entries` is
released as an uninitialised pointer, which has no defined result.
-/

namespace Nbtrfs

/-- Whether a search has found anything. -/
def InodeBtreePair.found (pair : InodeBtreePair) : Bool :=
  pair.inodeNumber ≠ 0 || pair.btreeBlock ≠ 0

/-- `nbtrfs_access`: whether it returns 0. -/
def nbtrfsAccess (s : Store) (path : CString) : Option Bool :=
  (itemSearch s path).map InodeBtreePair.found

/-- What `nbtrfs_getattr` assigns of a `struct stat`. -/
structure Stat where
  /-- File type and permissions. -/
  stMode : Nat
  /-- File size in bytes. -/
  stSize : Nat
  /-- Owner user ID. -/
  stUid : Nat
  /-- Group ID. -/
  stGid : Nat
  /-- Hard link count. -/
  stNlink : Nat
  /-- Creation timestamp. -/
  stCtime : Nat
  /-- Last modification timestamp. -/
  stMtime : Nat
  /-- Last access timestamp. -/
  stAtime : Nat
  /-- Inode number. -/
  stIno : Nat
deriving DecidableEq

/-- The attributes of an inode that a search has found. -/
def Inode.stat (node : Inode) (inodeNumber : Nat) : Stat where
  stMode := node.mode
  stSize := node.size
  stUid := node.ownerId
  stGid := node.groupId
  stNlink := node.referenceCount
  stCtime := node.creationTime
  stMtime := node.modificationTime
  stAtime := node.accessTime
  stIno := inodeNumber

/-- `nbtrfs_getattr`; the inner `none` stands for `-ENOENT`. -/
def nbtrfsGetattr (s : Store) (path : CString) : Option (Option Stat) := do
  let pair ← itemSearch s path
  if pair.found then do
    let node ← inodeLoad s pair.inodeNumber
    some (some (node.stat pair.inodeNumber))
  else some none

/-- The content of `absolute` for a name in a directory, cut off at its end. -/
def absolutePath (path name : CString) : CString :=
  (if 0 < countL path then path ++ slash :: name else path ++ name).take (pathMax - 1)

/-- The loop of `nbtrfs_readdir` over the entries of a directory: what it fills in, if no assertion
fails. -/
def fillEntries (s : Store) (path : CString) :
    List DirEntry → Option (Option (List (CString × Stat)))
  | [] => some (some [])
  | entry :: entries => do
    match ← nbtrfsGetattr s (absolutePath path entry.name) with
    | none => some none
    | some stat => do
      let rest ← fillEntries s path entries
      some (rest.map ((entry.name, stat) :: ·))

/-- What `nbtrfs_readdir` fills in for `..`, if no assertion fails. -/
def fillParent (s : Store) (path : CString) : Option (Option (List (CString × Stat))) :=
  if 0 < countL path then
    (nbtrfsGetattr s (parentPath path (countL path))).map fun attributes =>
      attributes.map fun stat => [([46, 46], stat)]
  else some (some [])

/-- Whether `directory_list` assigns `*entries`, which it does at its first block. -/
def assignsEntries (s : Store) (path : CString) : Option Bool := do
  let pair ← itemSearch s path
  if pair.isDirectory path then do
    let node ← inodeReload s pair.inodeNumber zeroInode
    let (_, mapped) ← inodeGetBlock s node 0
    if assigned 0 mapped = 0 then some false
    else
      match ← s.get (assigned 0 mapped) with
      | .data _ => some true
      | _ => some false
  else some false

/-- `nbtrfs_readdir`: what it fills in; the inner `none` stands for a failed assertion. -/
def nbtrfsReaddir (s : Store) (path : CString) : Option (Option (List (CString × Stat))) := do
  match ← nbtrfsGetattr s path with
  | none => some none
  | some own =>
    match ← fillParent s path with
    | none => some none
    | some parent => do
      let entries ← directoryList s path
      match ← fillEntries s path entries with
      | none => some none
      | some listed => do
        let ready ← assignsEntries s path
        if ready then some (some (([46], own) :: parent ++ listed)) else none

/-- The attributes that `nbtrfs_getattr` gives to the object of keys. -/
def Forest.stat (forest : Forest) (s : Store) (keys : List Nat) : Stat :=
  ((inodeLoad s (forest.resolve keys).inodeNumber).getD zeroInode).stat
    (forest.resolve keys).inodeNumber

/-- Every object that a path leads to has an inode in the table. -/
def Forest.Tabled (forest : Forest) (s : Store) : Prop :=
  ∀ keys, (forest.resolve keys).found = true →
    ∃ node, inodeLoad s (forest.resolve keys).inodeNumber = some node

/-- The name of every entry of a directory leads somewhere. -/
def Forest.Finds (forest : Forest) (place : List CString) (entries : List DirEntry) : Prop :=
  ∀ entry ∈ entries, (forest.resolve (pathKeys (place ++ [entry.name]))).found = true

/-- Whether entries are found is decidable. -/
instance (forest : Forest) (place : List CString) (entries : List DirEntry) :
    Decidable (forest.Finds place entries) := inferInstanceAs (Decidable (∀ _ ∈ _, _))

section

variable {forest : Forest} {layout : Superblock} {s : Store} {place : List CString} {dir m : Nat}
  {node : Inode} {bytes : Nat → Nat → UInt8}

/-- `nbtrfs_getattr` of a path. -/
theorem Forest.Held.getattr (held : forest.Held layout s) (tabled : forest.Tabled s)
    {components : List CString} (isPath : IsPath components) :
    nbtrfsGetattr s (pathOf components) =
      some (if (forest.resolve (pathKeys components)).found
        then some (forest.stat s (pathKeys components)) else none) := by
  rw [nbtrfsGetattr, held.itemSearch isPath, Option.bind_eq_bind, Option.bind_some]
  change (if (forest.resolve (pathKeys components)).found = true then _ else _) = _
  by_cases found : (forest.resolve (pathKeys components)).found = true
  · obtain ⟨inode, load⟩ := tabled (pathKeys components) found
    have load' : inodeLoad s (forest.pair (forest.walk (pathKeys components))).inodeNumber =
        some inode := load
    rw [if_pos found, if_pos found, load', Forest.stat, load]
    rfl
  · rw [if_neg found, if_neg found]

/-- `absolute` is the path of the name. -/
theorem absolutePath_pathOf {name : CString} (isPath : IsPath (place ++ [name])) :
    absolutePath (pathOf place) name = pathOf (place ++ [name]) := by
  have names : ∀ other ∈ place, IsName other :=
    fun other inside => isPath.1 other (List.mem_append_left _ inside)
  have whole : (if 0 < countL (pathOf place) then pathOf place ++ slash :: name
      else pathOf place ++ name) = pathOf (place ++ [name]) := by
    rw [countL_pathOf names]
    by_cases empty : place = []
    · rw [empty, if_neg (by simp), pathOf_concat]
      rfl
    · rw [if_pos (List.length_pos_of_ne_nil empty), pathOf_concat, pathOf_of_ne_nil empty]
  have short := isPath.2
  rw [absolutePath, whole, List.take_of_length_le (by omega)]

/-- A search that ends at a directory in use has found it. -/
theorem Forest.Held.directory_found (held : forest.Held layout s) {keys : List Nat}
    (reached : forest.walk keys = some (.directory dir)) : (forest.resolve keys).found = true := by
  have nonzero := held.owned.nonzero dir
    (Forest.mem_blocks (held.walk_live reached) forest.mem_tree)
  rw [Forest.resolve, reached, InodeBtreePair.found, Bool.or_eq_true]
  exact Or.inr (decide_eq_true nonzero)

/-- The loop over the entries of a directory. -/
theorem Forest.Held.fillEntries (held : forest.Held layout s) (tabled : forest.Tabled s)
    {entries : List DirEntry} (paths : ∀ entry ∈ entries, IsPath (place ++ [entry.name])) :
    fillEntries s (pathOf place) entries =
      some (if forest.Finds place entries
        then some (entries.map fun entry =>
          (entry.name, forest.stat s (pathKeys (place ++ [entry.name])))) else none) := by
  induction entries with
  | nil =>
    have all : forest.Finds place [] := fun entry inside => by cases inside
    rw [Nbtrfs.fillEntries, if_pos all, List.map_nil]
  | cons entry entries ih =>
    have isPath := paths entry List.mem_cons_self
    have later := ih fun other inside => paths other (List.mem_cons_of_mem _ inside)
    rw [Nbtrfs.fillEntries, absolutePath_pathOf isPath, held.getattr tabled isPath,
      Option.bind_eq_bind, Option.bind_some]
    by_cases found : (forest.resolve (pathKeys (place ++ [entry.name]))).found = true
    · rw [if_pos found]
      dsimp only
      rw [later, Option.bind_eq_bind, Option.bind_some]
      by_cases all : forest.Finds place entries
      · have whole : forest.Finds place (entry :: entries) := by
          intro other inside
          rcases List.mem_cons.mp inside with rfl | below
          · exact found
          · exact all other below
        rw [if_pos all, if_pos whole]
        rfl
      · have fails : ¬ forest.Finds place (entry :: entries) :=
          fun whole => all fun other inside => whole other (List.mem_cons_of_mem _ inside)
        rw [if_neg all, if_neg fails]
        rfl
    · have fails : ¬ forest.Finds place (entry :: entries) :=
        fun whole => found (whole entry List.mem_cons_self)
      rw [if_neg found, if_neg fails]

/-- What a listing has for the directory above. -/
def Forest.above (forest : Forest) (s : Store) (place : List CString) : List (CString × Stat) :=
  if place = [] then [] else [([46, 46], forest.stat s (pathKeys place.dropLast))]

/-- The directory above is always found. -/
theorem Forest.Held.fillParent (held : forest.Held layout s) (tabled : forest.Tabled s)
    (isPath : IsPath place) (reached : forest.walk (pathKeys place) = some (.directory dir)) :
    fillParent s (pathOf place) = some (some (forest.above s place)) := by
  rcases List.eq_nil_or_concat place with rfl | ⟨front, name, rfl⟩
  · rfl
  · rw [List.concat_eq_append] at isPath reached ⊢
    have names : ∀ other ∈ front, IsName other :=
      fun other inside => isPath.1 other (List.mem_append_left _ inside)
    have isName := isPath.1 name (List.mem_append_right _ List.mem_cons_self)
    rw [pathKeys_concat] at reached
    obtain ⟨up, walked, -⟩ := Hierarchy.walk_directory_last reached
    have found : (forest.resolve (pathKeys front)).found = true := held.directory_found walked
    have isFront : IsPath front := by
      refine ⟨names, ?_⟩
      have short := isPath.2
      rw [pathOf_concat, List.length_append, List.length_cons] at short
      by_cases empty : front = []
      · rw [empty]
        decide
      · rw [pathOf_of_ne_nil empty]
        omega
    have positive : 0 < countL (pathOf (front ++ [name])) := by
      rw [countL_pathOf isPath.1, List.length_append]
      exact Nat.succ_pos _
    rw [Nbtrfs.fillParent, if_pos positive, parentPath_pathOf names isName,
      held.getattr tabled isFront, if_pos found, Forest.above, if_neg (by simp),
      List.dropLast_concat]
    rfl

/-- `directory_list` assigns `*entries` if the directory has a block. -/
theorem MappedDirectory.assigns (directory : MappedDirectory s node m bytes) {path : CString}
    {pair : InodeBtreePair} (search : itemSearch s path = some pair)
    (isDirectory : pair.isDirectory path = true)
    (read : inodeReload s pair.inodeNumber zeroInode = some node) :
    assignsEntries s path = some (decide (0 < m)) := by
  rw [assignsEntries, search, Option.bind_eq_bind, Option.bind_some, if_pos isDirectory, read,
    Option.bind_eq_bind, Option.bind_some]
  rcases Nat.eq_zero_or_pos m with rfl | positive
  · obtain ⟨success, mapped, get, none⟩ := directory.ended
    rw [get, Option.bind_eq_bind, Option.bind_some]
    dsimp only
    rw [if_pos none]
    rfl
  · obtain ⟨success, pnum, get, nonzero, page⟩ := directory.block 0 positive
    have filled : ¬ assigned 0 (some pnum) = 0 := nonzero
    have content : s.get (assigned 0 (some pnum)) = some (.data (bytes 0)) := page
    rw [get, Option.bind_eq_bind, Option.bind_some]
    dsimp only
    rw [if_neg filled, content, decide_eq_true positive]
    rfl

/-- A listing of a directory whose B-tree and blocks are in order. If it has no block there is no
defined result. Otherwise the program ends if and only if a name in the blocks does not lead anywhere,
and else the listing has each name with the attributes of what its path leads to. -/
theorem nbtrfsReaddir_outcome (held : forest.Held layout s) (tabled : forest.Tabled s)
    (isPath : IsPath place) (reached : forest.walk (pathKeys place) = some (.directory dir))
    (numbered : forest.inode dir ≠ 0 ∨ place = [])
    (read : inodeReload s (forest.inode dir) zeroInode = some node)
    (directory : MappedDirectory s node m bytes)
    (paths : ∀ entry ∈ directoryEntries bytes m, IsPath (place ++ [entry.name])) :
    nbtrfsReaddir s (pathOf place) =
      if forest.Finds place (directoryEntries bytes m) then
        if 0 < m
        then some (some (([46], forest.stat s (pathKeys place)) :: forest.above s place ++
          (directoryEntries bytes m).map fun entry =>
            (entry.name, forest.stat s (pathKeys (place ++ [entry.name])))))
        else none
      else some none := by
  have search := held.itemSearch isPath
  rw [reached] at search
  have isDirectory : (forest.pair (some (.directory dir))).isDirectory (pathOf place) = true := by
    rw [InodeBtreePair.isDirectory, Bool.or_eq_true, decide_eq_true_iff, decide_eq_true_iff]
    exact numbered.imp_right fun empty => by rw [empty]; rfl
  have listed : directoryList s (pathOf place) = some (directoryEntries bytes m) := by
    have enough : m < scanBlocks := lt_of_le_of_lt directory.few (by decide)
    rw [directoryList, search, Option.bind_eq_bind, Option.bind_some, if_pos isDirectory]
    have reload : inodeReload s (forest.pair (some (.directory dir))).inodeNumber zeroInode =
        some node := read
    rw [reload, Option.bind_eq_bind, Option.bind_some]
    exact (listEntriesFrom_spec directory (Nat.zero_add m) enough (fun _ => rfl)
      (fun nonzero => absurd rfl nonzero) (fun later => absurd later (lt_irrefl 0))
      (Nat.zero_add _)).trans (by rw [List.nil_append]; rfl)
  rw [nbtrfsReaddir, held.getattr tabled isPath, if_pos (held.directory_found reached),
    Option.bind_eq_bind, Option.bind_some]
  dsimp only
  rw [held.fillParent tabled isPath reached, Option.bind_eq_bind, Option.bind_some]
  dsimp only
  rw [listed, Option.bind_eq_bind, Option.bind_some, held.fillEntries tabled paths,
    Option.bind_eq_bind, Option.bind_some]
  by_cases all : forest.Finds place (directoryEntries bytes m)
  · rw [if_pos all, if_pos all]
    dsimp only
    rw [directory.assigns search isDirectory read, Option.bind_some]
    by_cases positive : 0 < m
    · rw [if_pos positive, if_pos (decide_eq_true positive)]
    · rw [if_neg positive, if_neg (by simpa using positive)]
  · rw [if_neg all, if_neg all]

end

/-- The empty image with the file `/a`. -/
def listedImage : Store := calledImage (.mknod fileTypeRegular)

/-- The block of its root directory behind the tag. -/
def listedBlock : Nat → UInt8 := listedImage.residue.payload (listedImage.mem 16)

/-- The inode of its root directory. -/
def listedRoot : Inode := (inodeReload listedImage 0 zeroInode).getD zeroInode

/-- The name is the only one in the directory. -/
theorem listedImage_entries : directoryEntries (fun _ => listedBlock) 1 = [⟨1, 0, [97], true⟩] := by
  decide +kernel

/-- Whether a block is tagged as data. -/
def Block.isData : Block → Bool
  | .data _ => true
  | _ => false

/-- The root directory has one block. -/
theorem listedImage_directory : MappedDirectory listedImage listedRoot 1 fun _ => listedBlock := by
  have data : (listedImage.get 16).any Block.isData = true := by decide +kernel
  obtain ⟨page, get, isData⟩ := (Option.any_eq_true _ _).mp data
  have content : page = .data listedBlock := by
    obtain ⟨-, tag⟩ := Store.get_eq_some get
    unfold listedBlock
    rw [tag]
    cases page with
    | data bytes => rfl
    | super | bitmap | inode | btreeNode | journal | untagged => cases isData
  have entries := listedImage_entries
  constructor
  · decide
  · intro i inside
    obtain rfl : i = 0 := by omega
    exact ⟨true, 16, by decide +kernel, by decide, get.trans (congrArg some content)⟩
  · exact ⟨false, some 0, by decide +kernel, rfl⟩
  · intro i inside j from13 below14
    have slots : scanSlots = 13 ∧ listSlots = 14 := ⟨rfl, rfl⟩
    obtain rfl : i = 0 := by omega
    obtain rfl : j = 13 := by omega
    decide +kernel
  · intro _
    rw [entries]
    decide +kernel
  · rw [entries]
    decide
  · intro i inside
    obtain rfl : i = 0 := by omega
    decide +kernel
  · rw [entries]
    decide

/-- The listing of the root directory. -/
theorem nbtrfsReaddir_outcome_file :
    ∃ own file, nbtrfsReaddir listedImage [slash] = some (some [([46], own), ([97], file)]) ∧
      file.stIno = 1 := by
  have run : nbtrfsMknod quietAppend zeroLocals zeroHost emptyImage (pathOf ([] ++ [[97]]))
      fileTypeRegular = some (true, listedImage) :=
    @calledImage_run (.mknod fileTypeRegular) (by decide +kernel)
  have isPath : IsPath ([] ++ [[97]]) := ⟨by decide, by decide⟩
  have isRoot : IsPath [] := ⟨by decide, by decide⟩
  obtain ⟨forest, inodeNumber, btreeBlock, taken, -, held, assigned, own⟩ :=
    emptyForest_held.nbtrfsMknod emptyForest_clean isPath rfl rfl (by decide) run
  have first : (inodeAllocate zeroHost emptyImage fileTypeRegular true).bind Prod.fst = some 1 := by
    decide +kernel
  obtain rfl := Option.some.inj (taken.symm.trans first)
  have root : (⟨forest.inode forest.root, forest.root⟩ : InodeBtreePair) = ⟨0, 7⟩ := by
    have search := held.itemSearch isRoot
    have computed : itemSearch listedImage (pathOf []) = some ⟨0, 7⟩ := by decide +kernel
    exact Option.some.inj (search.symm.trans computed)
  obtain ⟨zero, seven⟩ := InodeBtreePair.mk.inj root
  have file : (forest.resolve (pathKeys ([] ++ [[97]]))).inodeNumber = 1 := assigned.inode_new own
  have tabled : forest.Tabled listedImage := by
    intro keys found
    have loads : (inodeLoad listedImage 0).isSome = true ∧ (inodeLoad listedImage 1).isSome = true := by
      decide +kernel
    by_cases through : pathKeys [] ++ [pathHash [97]] <+: keys
    · obtain ⟨rest, rfl⟩ := through
      have number := assigned.inode_through own rest
      have walked := assigned.through rest
      rw [number]
      split
      · exact Option.isSome_iff_exists.mp loads.2
      · exact Option.isSome_iff_exists.mp loads.1
    · have number := assigned.inode_around emptyForest_held through
      rw [number]
      cases keys with
      | nil => exact Option.isSome_iff_exists.mp loads.1
      | cons key keys => exact Option.isSome_iff_exists.mp loads.1
  have read : inodeReload listedImage (forest.inode forest.root) zeroInode = some listedRoot := by
    have filled : (inodeReload listedImage 0 zeroInode).isSome = true := by decide +kernel
    obtain ⟨node, reload⟩ := Option.isSome_iff_exists.mp filled
    rw [zero, listedRoot, reload]
    rfl
  have outcome := nbtrfsReaddir_outcome held tabled
    isRoot rfl (Or.inr rfl) read
    listedImage_directory (by
      rw [listedImage_entries]
      intro entry inside
      rw [List.mem_singleton.mp inside]
      exact isPath)
  have finds : forest.Finds [] (directoryEntries (fun _ => listedBlock) 1) := by
    rw [listedImage_entries]
    intro entry inside
    rw [List.mem_singleton.mp inside, InodeBtreePair.found, Bool.or_eq_true]
    exact Or.inl (decide_eq_true (by rw [file]; decide))
  rw [if_pos finds, if_pos Nat.one_pos, listedImage_entries] at outcome
  exact ⟨_, _, outcome, file⟩

end Nbtrfs
