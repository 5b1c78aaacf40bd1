import Nbtrfs.Namespace.Forest
import Nbtrfs.Fuse.ReadBack

/-!
# What a path names

The entries of a directory have names, and the leaves of its B-tree have the keys of the names. The
object of a path is found by a walk along its names, which ends at a file. `item_search` compares
keys only, and behind a file it goes on with the key of the file.
-/

namespace Nbtrfs

open Hierarchy (Entry)

/-- The names of the entries of a forest, by the directories they are in. -/
structure Forest.NamedBy (forest : Forest) (names : Nat → CString → Option (Entry Nat Nat)) :
    Prop where
  /-- An entry is under the key of its name. -/
  under : ∀ dir name entry, names dir name = some entry →
    forest.entries dir (pathHash name) = some entry
  /-- Every entry has a name. -/
  spelled : ∀ dir key entry, forest.entries dir key = some entry →
    ∃ name, names dir name = some entry ∧ pathHash name = key
  /-- No two names of a directory have one key. -/
  distinct : ∀ dir name other, (names dir name).isSome → (names dir other).isSome →
    pathHash name = pathHash other → name = other
  /-- A file has another inode than the root. -/
  file : ∀ dir name inodeNumber, names dir name = some (.file inodeNumber) → inodeNumber ≠ 0

/-- The object of a path. -/
def Forest.object (forest : Forest) (names : Nat → CString → Option (Entry Nat Nat))
    (components : List CString) : Option (Entry Nat Nat) :=
  Hierarchy.walk Hierarchy.ends names forest.root components

/-- A path of an object has the keys of another path, up to further components that all have the key
of the file that it names. -/
def Forest.Mistaken (forest : Forest) (names : Nat → CString → Option (Entry Nat Nat))
    (components other : List CString) : Prop :=
  other ≠ components ∧ ∃ entry, forest.object names other = some entry ∧
    (pathKeys components = pathKeys other ∨
      ∃ front name rest inodeNumber, entry = .file inodeNumber ∧ other = front ++ [name] ∧
        rest ≠ [] ∧ pathKeys components = pathKeys other ++ rest ∧ echoes (pathHash name) rest = true)

section

variable {forest : Forest} {layout : Superblock} {s : Store}
  {names : Nat → CString → Option (Entry Nat Nat)} {components : List CString}

/-- A file that is named has another inode than the root. -/
theorem Forest.NamedBy.nonzero (named : forest.NamedBy names) {inodeNumber : Nat}
    (reached : forest.object names components = some (.file inodeNumber)) : inodeNumber ≠ 0 := by
  unfold Forest.object at reached
  generalize forest.root = root at reached
  induction components generalizing root with
  | nil => cases reached
  | cons name components ih =>
    rw [Hierarchy.walk] at reached
    cases found : names root name with
    | none =>
      rw [found] at reached
      cases reached
    | some entry =>
      rw [found] at reached
      cases entry with
      | directory next => exact ih next reached
      | file file =>
        dsimp only at reached
        split at reached
        · obtain rfl := Entry.file.inj (Option.some.inj reached)
          exact named.file root name file found
        · cases reached

/-- A path of names that is walked is walked along its keys. -/
theorem Forest.NamedBy.walk (named : forest.NamedBy names) {entry : Entry Nat Nat}
    (reached : forest.object names components = some entry) :
    Hierarchy.walk Hierarchy.ends forest.entries forest.root (pathKeys components) = some entry :=
  Hierarchy.walk_named named.under reached

/-- The search of the code finds something if and only if the path names an object or is mistaken for
another path. -/
theorem Forest.NamedBy.walk_iff (named : forest.NamedBy names) {entry : Entry Nat Nat} :
    forest.walk (pathKeys components) = some entry ↔ forest.object names components = some entry ∨
      ∃ other, forest.object names other = some entry ∧
        forest.Mistaken names components other := by
  have stops : ∀ key, echoes key [] = true := fun _ => rfl
  unfold Forest.walk
  rw [Hierarchy.walk_iff_ends stops]
  constructor
  · rintro (reached | ⟨front, key, rest, file, keys, more, goes, reached, rfl⟩)
    · obtain ⟨other, same, named'⟩ := Hierarchy.walk_spelled named.spelled reached
      by_cases own : other = components
      · rw [own] at named'
        exact Or.inl named'
      · exact Or.inr ⟨other, named', own, entry, named', Or.inl same.symm⟩
    · obtain ⟨other, same, named'⟩ := Hierarchy.walk_spelled named.spelled reached
      obtain ⟨before, last, rfl, sameFront, sameLast⟩ := List.map_eq_append_iff.mp same
      obtain ⟨name, rfl, sameName⟩ := List.map_eq_singleton_iff.mp sameLast
      have keys' : pathKeys components = pathKeys (before ++ [name]) ++ rest := by
        rw [keys, pathKeys, same]
        simp
      refine Or.inr ⟨before ++ [name], named', ?_, _, named',
        Or.inr ⟨before, name, rest, file, rfl, rfl, more, keys', ?_⟩⟩
      · intro own
        rw [← own] at keys'
        exact more (List.append_right_eq_self.mp keys'.symm)
      · rw [sameName]
        exact goes
  · rintro (reached | ⟨other, reached, -, entry', reached', same | rest⟩)
    · exact Or.inl (named.walk reached)
    · refine Or.inl ?_
      rw [same]
      exact named.walk reached
    · obtain rfl := Option.some.inj (reached.symm.trans reached')
      obtain ⟨front, name, rest, inodeNumber, rfl, rfl, more, keys, goes⟩ := rest
      have reached'' := named.walk reached
      have split : pathKeys (front ++ [name]) = pathKeys front ++ [pathHash name] := List.map_append
      rw [split] at reached''
      refine Or.inr ⟨pathKeys front, pathHash name, rest, inodeNumber, ?_, more, goes, reached'', rfl⟩
      rw [keys, split, List.append_assoc, List.singleton_append]

/-- A path that is mistaken for another one names nothing. -/
theorem Forest.NamedBy.nameless (named : forest.NamedBy names) {other : List CString}
    (mistaken : forest.Mistaken names components other) : forest.object names components = none := by
  obtain ⟨differs, entry, reached, same | rest⟩ := mistaken
  · cases own : forest.object names components with
    | none => rfl
    | some entry' =>
      exact absurd (Hierarchy.walk_named_injective named.distinct reached own same.symm) differs
  · obtain ⟨front, name, rest, inodeNumber, rfl, rfl, more, keys, -⟩ := rest
    have behind := Hierarchy.walk_ends_behind more (named.walk reached)
    cases own : forest.object names components with
    | none => rfl
    | some entry' =>
      have walked := named.walk own
      rw [keys, behind] at walked
      cases walked

/-- What is found is no pair of a missing path. -/
theorem Forest.Held.pair_found (held : forest.Held layout s) (named : forest.NamedBy names)
    {entry : Entry Nat Nat} (reached : forest.object names components = some entry) :
    forest.pair (some entry) ≠ noPair := by
  cases entry with
  | directory dir =>
    have walked : forest.walk (pathKeys components) = some (.directory dir) :=
      named.walk_iff.mpr (Or.inl reached)
    have nonzero := held.owned.nonzero dir
      (Forest.mem_blocks (held.walk_live walked) forest.mem_tree)
    intro same
    exact nonzero (congrArg InodeBtreePair.btreeBlock same)
  | file inodeNumber =>
    intro same
    exact named.nonzero reached (congrArg InodeBtreePair.inodeNumber same)

/-- `item_search` returns the inode and the root node of the object that the path names, and nothing
for a path that names none, if and only if the path is not mistaken for another one. -/
theorem itemSearch_object_iff (held : forest.Held layout s) (named : forest.NamedBy names)
    (isPath : IsPath components) :
    itemSearch s (pathOf components) = some (forest.pair (forest.object names components)) ↔
      ∀ other, ¬ forest.Mistaken names components other := by
  rw [held.itemSearch isPath]
  constructor
  · intro same other mistaken
    obtain ⟨-, entry, reached, -⟩ := id mistaken
    have walked : forest.walk (pathKeys components) = some entry :=
      named.walk_iff.mpr (Or.inr ⟨other, reached, mistaken⟩)
    rw [walked, named.nameless mistaken] at same
    exact held.pair_found named reached (Option.some.inj same)
  · intro clear
    congr 2
    cases walked : forest.walk (pathKeys components) with
    | none =>
      cases own : forest.object names components with
      | none => rfl
      | some entry =>
        rw [named.walk_iff.mpr (Or.inl own)] at walked
        cases walked
    | some entry =>
      rcases named.walk_iff.mp walked with own | ⟨other, -, mistaken⟩
      · exact own.symm
      · exact absurd mistaken (clear other)

end

/-- The leaf of the file `/a` in block 6. -/
def fileLeaf : Leaf := ⟨6, pathHash [97], 1, fileTypeRegular⟩

/-- The root directory in block 7, over the leaf of the file. -/
def fileForest : Forest where
  root := 7
  live := [7]
  inode _ := 0
  leaves dir := if dir = 7 then [fileLeaf] else []

/-- The name of the file. -/
def fileNames (dir : Nat) (name : CString) : Option (Entry Nat Nat) :=
  if dir = 7 ∧ name = [97] then some (.file 1) else none

/-- The image with the file, whose leaf names its parent. -/
def fileImage : Store :=
  pageFileImage.put 6
    (.btreeNode { freshNode 6 true fileTypeRegular with key := pathHash [97], value := 1, parent := 7 })

/-- The leaf is the only entry. -/
theorem fileForest_leaf {dir key : Nat} {leaf : Leaf} (found : fileForest.leaf dir key = some leaf) :
    dir = 7 ∧ leaf = fileLeaf ∧ key = pathHash [97] := by
  obtain ⟨inside, rfl⟩ := Forest.leaf_found found
  have leaves : fileForest.leaves dir = if dir = 7 then [fileLeaf] else [] := rfl
  rw [leaves] at inside
  split at inside
  case isTrue here =>
    obtain rfl := List.mem_singleton.mp inside
    exact ⟨here, rfl, rfl⟩
  case isFalse => cases inside

/-- Its name names it. -/
theorem fileForest_named : fileForest.NamedBy fileNames where
  under dir name entry found := by
    unfold fileNames at found
    split at found
    case isTrue same =>
      obtain ⟨rfl, rfl⟩ := same
      obtain rfl := Option.some.inj found
      decide +kernel
    case isFalse => cases found
  spelled dir key entry found := by
    obtain ⟨leaf, isLeaf, rfl⟩ := Option.map_eq_some_iff.mp found
    obtain ⟨rfl, rfl, rfl⟩ := fileForest_leaf isLeaf
    exact ⟨[97], rfl, rfl⟩
  distinct dir name other first second _ := by
    unfold fileNames at first second
    split at first
    case isTrue same =>
      split at second
      case isTrue same' => rw [same.2, same'.2]
      case isFalse => cases second
    case isFalse => cases first
  file dir name inodeNumber found := by
    unfold fileNames at found
    split at found
    case isTrue =>
      obtain rfl := Entry.file.inj (Option.some.inj found)
      decide
    case isFalse => cases found

/-- The image holds the directory. -/
theorem fileForest_held : fileForest.Held journalSuperblock fileImage := by
  have page : ∀ pnum < 16, bitmapPage pnum = 1 := by decide
  have samePages : SamePages pageFileImage fileImage := by
    refine ⟨rfl, fun pnum inside => ?_⟩
    rw [page pnum inside]
    rfl
  have leafOnly : ∀ leaf ∈ [fileLeaf], leaf = fileLeaf := fun _ => List.mem_singleton.mp
  have owned : Owned fileImage [7, 6] := by
    refine ⟨samePages.formatted pageFileImage_formatted, by decide, ?_, by decide, ?_⟩
    · show ∀ block ∈ [7, 6], block < 16
      decide
    · intro block inside
      rcases List.mem_cons.mp inside with rfl | below
      · decide +kernel
      · rw [List.mem_singleton.mp below]
        decide +kernel
  constructor
  · exact ⟨journalSuperblock, rfl, rfl, rfl, rfl, rfl, rfl⟩
  · rfl
  · intro pnum inside
    rw [page pnum inside]
    decide
  · rfl
  · exact List.mem_singleton.mpr rfl
  · exact owned
  · intro dir live
    obtain rfl : dir = 7 := List.mem_singleton.mp live
    refine ⟨fileTypeDirectory, _, ⟨owned, ⟨rfl, ?_, ?_⟩, List.pairwise_singleton _ _, rfl, rfl, rfl,
      rfl, rfl, rfl⟩, fun other => absurd rfl other⟩
    · refine ⟨rfl, rfl, rfl, by decide, by decide, by decide, ?_, ?_⟩
      · intro i below
        obtain rfl : i = 0 := Nat.lt_one_iff.mp below
        rfl
      · intro i _
        cases i with
        | zero => rfl
        | succ i => rfl
    · intro leaf inside
      rw [leafOnly leaf inside]
      exact ⟨by decide, _, rfl, rfl, rfl, rfl, rfl, rfl, rfl⟩
  · intro dir dead
    have other : dir ≠ 7 := fun same => dead (List.mem_singleton.mpr same)
    exact if_neg other
  · intro dir leaf inside directory
    have leaves : fileForest.leaves dir = if dir = 7 then [fileLeaf] else [] := rfl
    rw [leaves] at inside
    split at inside
    · rw [leafOnly leaf inside] at directory
      exact absurd directory (by decide)
    · cases inside
  · have root : ∀ keys dir, fileForest.walk keys = some (.directory dir) → keys = [] := by
      intro keys dir reached
      rcases List.eq_nil_or_concat keys with rfl | ⟨place, key, rfl⟩
      · rfl
      · rw [List.concat_eq_append] at reached
        obtain ⟨above, -, entry⟩ := Hierarchy.walk_directory_last reached
        obtain ⟨leaf, found, isEntry⟩ := Option.map_eq_some_iff.mp entry
        obtain ⟨-, rfl, -⟩ := fileForest_leaf found
        cases isEntry
    intro keys keys' dir reached reached'
    rw [root keys dir reached, root keys' dir reached']

/-- The directory and the file are the only objects. -/
theorem fileForest_object {components : List CString} {entry : Entry Nat Nat}
    (object : fileForest.object fileNames components = some entry) :
    components = [] ∨ components = [[97]] := by
  cases components with
  | nil => exact Or.inl rfl
  | cons name rest =>
    unfold Forest.object at object
    rw [Hierarchy.walk] at object
    by_cases here : fileForest.root = 7 ∧ name = [97]
    · have named : fileNames fileForest.root name = some (.file 1) := if_pos here
      rw [named] at object
      dsimp only at object
      split at object
      case isTrue last =>
        rw [here.2, List.isEmpty_iff.mp last]
        exact Or.inr rfl
      case isFalse => cases object
    · have nameless : fileNames fileForest.root name = none := if_neg here
      rw [nameless] at object
      cases object

/-- The path of the file is not mistaken, and the file is found. -/
theorem itemSearch_object_iff_file :
    itemSearch fileImage (pathOf [[97]]) =
      some (fileForest.pair (fileForest.object fileNames [[97]])) := by
  refine (itemSearch_object_iff fileForest_held fileForest_named ⟨by decide, by decide⟩).mpr ?_
  rintro other ⟨differs, entry, object, mistaken⟩
  obtain rfl := (fileForest_object object).resolve_right differs
  rcases mistaken with same | ⟨front, name, rest, inodeNumber, -, last, -⟩
  · cases same
  · exact absurd last.symm (List.concat_ne_nil _ _)

/-- `/a/a` names nothing, and the search finds the file `/a`. -/
theorem itemSearch_object_false :
    ¬ ∀ (forest : Forest) (layout : Superblock) (s : Store)
        (names : Nat → CString → Option (Entry Nat Nat)) (components : List CString),
      forest.Held layout s → forest.NamedBy names → IsPath components →
        itemSearch s (pathOf components) = some (forest.pair (forest.object names components)) := by
  intro all
  have nothing := all fileForest journalSuperblock fileImage fileNames [[97], [97]] fileForest_held
    fileForest_named ⟨by decide, by decide⟩
  have found : itemSearch fileImage (pathOf [[97], [97]]) = some ⟨1, 0⟩ := by decide +kernel
  rw [found] at nothing
  revert nothing
  decide

end Nbtrfs
