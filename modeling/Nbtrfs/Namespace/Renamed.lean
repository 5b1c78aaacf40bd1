import Nbtrfs.Namespace.PathMap

/-!
# Moving names

`_rename` links the target and unlinks the source. The entry that the link makes is a new directory
without entries, or a file, which a search finds again behind itself; what was behind the source is
not looked at. So what is behind the target is what the new entry lets resolve there.
-/

namespace Nbtrfs

open Hierarchy (Entry)

/-- A move of a subtree, as far as it is looked at: what was behind the source is behind the target,
and everything else is where it was. -/
structure Moved (looked : List CString → Prop) (s s' : Store) (source target : List CString) :
    Prop where
  /-- The target leads to what the source led to. -/
  subtree : ∀ suffix, looked (target ++ suffix) → IsPath (source ++ suffix) →
    IsPath (target ++ suffix) → foundInode s' (target ++ suffix) = foundInode s (source ++ suffix)
  /-- The source leads nowhere. -/
  gone : ∀ suffix, looked (source ++ suffix) → IsPath (source ++ suffix) →
    foundInode s' (source ++ suffix) = some 0
  /-- Other paths lead to what they led to. -/
  elsewhere : ∀ other, looked other → IsPath other → ¬ source <+: other → ¬ target <+: other →
    foundInode s' other = foundInode s other

/-- What has to hold in front of a call that moves a subtree, as far as it is looked at. -/
structure Movable (looked : List CString → Prop) (s : Store) (place : List CString) (name : CString)
    (place' : List CString) (name' : CString) (type : Nat) : Prop where
  /-- The source is in a directory. -/
  inside : ∃ pair, itemSearch s (pathOf place) = some pair ∧ pair.btreeBlock ≠ 0
  /-- The target is not below a path with the hashes of the source. -/
  apart : ¬ pathKeys (place ++ [name]) <+: pathKeys (place' ++ [name'])
  /-- Behind the source there is nothing but what the new name leads to. -/
  subtree : ∀ suffix, looked (place' ++ [name'] ++ suffix) → IsPath (place ++ [name] ++ suffix) →
    IsPath (place' ++ [name'] ++ suffix) → foundInode s (place ++ [name] ++ suffix) =
      if GoesOn type (pathHash name') (pathKeys suffix) then foundInode s (place ++ [name]) else some 0
  /-- No other path with the hashes of the source leads anywhere. -/
  source : ∀ other, looked other → IsPath other → ¬ place ++ [name] <+: other →
    pathKeys (place ++ [name]) <+: pathKeys other → foundInode s other = some 0
  /-- No other path has the hashes of the target. -/
  target : ∀ other, looked other → IsPath other → ¬ place' ++ [name'] <+: other → ∀ rest,
    pathKeys other = pathKeys (place' ++ [name']) ++ rest → ¬ GoesOn type (pathHash name') rest

section

variable {forest forest' : Forest} {layout : Superblock} {s s' : Store} {place place' : List CString}
  {name name' : CString} {dir : Nat} {type : Nat} {looked : List CString → Prop}

/-- What a call leaves of the forest in front of it: the source leads nowhere, the target to the new
entry, and other paths to what they led to. -/
structure Forest.Shifted (forest forest' : Forest) (source target : List Nat) (type key : Nat) :
    Prop where
  /-- Behind the source. -/
  gone : ∀ rest, (forest'.resolve (source ++ rest)).inodeNumber = 0
  /-- Behind the target. -/
  made : ¬ source <+: target → ∀ rest, (forest'.resolve (target ++ rest)).inodeNumber =
    if GoesOn type key rest then (forest.resolve source).inodeNumber else 0
  /-- Elsewhere. -/
  around : ∀ keys, ¬ source <+: keys → ¬ target <+: keys →
    (forest'.resolve keys).inodeNumber = (forest.resolve keys).inodeNumber

/-- A shift moves a subtree if and only if the subtree is what the new entry leads to and no other path
has the keys of the source or the target. -/
theorem Forest.Shifted.moved_iff (held : forest.Held layout s) (held' : forest'.Held layout s')
    (shifted : forest.Shifted forest' (pathKeys (place ++ [name])) (pathKeys (place' ++ [name'])) type
      (pathHash name'))
    (isSource : IsPath (place ++ [name])) (isTarget : IsPath (place' ++ [name']))
    (inside : ∃ pair, itemSearch s (pathOf place) = some pair ∧ pair.btreeBlock ≠ 0)
    (resolves : foundInode s (place ++ [name]) ≠ some 0)
    (missing : ∀ rest, forest.walk (pathKeys (place' ++ [name']) ++ rest) = none)
    (looks : looked (place' ++ [name'])) :
    Moved looked s s' (place ++ [name]) (place' ++ [name']) ↔
      Movable looked s place name place' name' type := by
  rw [held.foundInode isSource] at resolves
  have nonzero : (forest.resolve (pathKeys (place ++ [name]))).inodeNumber ≠ 0 :=
    fun zero => resolves (congrArg some zero)
  have absent : ∀ rest,
      (forest.resolve (pathKeys (place' ++ [name']) ++ rest)).inodeNumber = 0 := by
    intro rest
    unfold Forest.resolve
    rw [missing rest]
    rfl
  have notAbove : ¬ pathKeys (place' ++ [name']) <+: pathKeys (place ++ [name]) := by
    rintro ⟨rest, same⟩
    exact nonzero (same ▸ absent rest)
  constructor
  · intro moved
    have apart : ¬ pathKeys (place ++ [name]) <+: pathKeys (place' ++ [name']) := by
      rintro ⟨rest, same⟩
      have own := moved.subtree [] (by rwa [List.append_nil]) (by rwa [List.append_nil])
        (by rwa [List.append_nil])
      rw [List.append_nil, List.append_nil, held'.foundInode isTarget, held.foundInode isSource,
        ← same, shifted.gone rest] at own
      exact nonzero (Option.some.inj own).symm
    refine ⟨inside, apart, ?_, ?_, ?_⟩
    · intro suffix isLooked isBehind isBehind'
      rw [← moved.subtree suffix isLooked isBehind isBehind', held'.foundInode isBehind',
        pathKeys_append, shifted.made apart, held.foundInode isSource]
      split
      · rfl
      · rfl
    · intro other isLooked isOther notBelow under
      obtain ⟨rest, same⟩ := under
      have notTarget : ¬ place' ++ [name'] <+: other := by
        rintro ⟨suffix, rfl⟩
        rw [pathKeys_append (place' ++ [name'])] at same
        rcases List.prefix_or_prefix_of_prefix ⟨rest, same⟩ (List.prefix_append _ _) with wrong | wrong
        · exact apart wrong
        · exact notAbove wrong
      rw [← moved.elsewhere other isLooked isOther notBelow notTarget, held'.foundInode isOther,
        ← same, shifted.gone rest]
    · intro other isLooked isOther notBelow rest same goes
      have notSource : ¬ place ++ [name] <+: other := by
        rintro ⟨suffix, rfl⟩
        rw [pathKeys_append (place ++ [name])] at same
        rcases List.prefix_or_prefix_of_prefix ⟨rest, same.symm⟩ (List.prefix_append _ _) with
          wrong | wrong
        · exact notAbove wrong
        · exact apart wrong
      have kept := moved.elsewhere other isLooked isOther notSource notBelow
      rw [held'.foundInode isOther, held.foundInode isOther, same, shifted.made apart, if_pos goes,
        absent rest] at kept
      exact nonzero (Option.some.inj kept)
  · intro movable
    refine ⟨?_, ?_, ?_⟩
    · intro suffix isLooked isBehind isBehind'
      rw [movable.subtree suffix isLooked isBehind isBehind', held'.foundInode isBehind',
        pathKeys_append, shifted.made movable.apart, held.foundInode isSource]
      split
      · rfl
      · rfl
    · intro suffix isLooked isBehind
      rw [held'.foundInode isBehind, pathKeys_append, shifted.gone]
    · intro other isLooked isOther notBelow notBelow'
      by_cases source : pathKeys (place ++ [name]) <+: pathKeys other
      · rw [movable.source other isLooked isOther notBelow source, held'.foundInode isOther]
        obtain ⟨rest, same⟩ := source
        rw [← same, shifted.gone rest]
      · rw [held'.foundInode isOther, held.foundInode isOther]
        by_cases target : pathKeys (place' ++ [name']) <+: pathKeys other
        · obtain ⟨rest, same⟩ := target
          have ends := movable.target other isLooked isOther notBelow' rest same.symm
          rw [← same, shifted.made movable.apart, if_neg ends, absent rest]
        · rw [shifted.around _ source target]

/-- A `_rename` that returns 0 is a `_link` to a name without a leaf and an `_unlink`. -/
theorem rename_cases {append : Append} {locals : Locals} {source target : CString}
    {writeThrough : Bool}
    (run : rename append locals (fun _ => some source) s source target writeThrough =
      some (true, s')) :
    ∃ pair s1, itemSearch s (parentPath target (countL target)) = some pair ∧
      btreeSearch s pair.btreeBlock (pathHash (getName target)) = some 0 ∧
      link append locals s source target writeThrough = some (true, s1) ∧
      unlink s1 source writeThrough = some s' := by
  unfold rename at run
  obtain ⟨pair, search, run⟩ := Option.bind_eq_some_iff.mp run
  obtain ⟨existing, searched, run⟩ := Option.bind_eq_some_iff.mp run
  split at run
  case isTrue =>
    obtain ⟨wrong, -⟩ := Prod.mk.inj (Option.some.inj run)
    cases wrong
  case isFalse zero =>
    rw [Decidable.not_not.mp zero] at searched
    obtain ⟨⟨linked, s1⟩, link, run⟩ := Option.bind_eq_some_iff.mp run
    cases linked with
    | false =>
      obtain ⟨wrong, -⟩ := Prod.mk.inj (Option.some.inj run)
      cases wrong
    | true =>
      obtain ⟨s2, unlink, run⟩ := Option.bind_eq_some_iff.mp run
      obtain ⟨-, rfl⟩ := Prod.mk.inj (Option.some.inj run)
      exact ⟨pair, s1, search, searched, link, unlink⟩

/-- A name that a search does not find has no leaf. -/
theorem Forest.Held.absent (held : forest.Held layout s) (live : dir ∈ forest.live) {key : Nat}
    (searched : btreeSearch s dir key = some 0) : forest.leaf dir key = none := by
  rw [held.search live] at searched
  cases found : forest.leaf dir key with
  | none => rfl
  | some leaf =>
    rw [found] at searched
    exact absurd (Option.some.inj searched) (held.stored found).1

/-- The parent of a path is a directory if a search finds a B-tree there. -/
theorem Forest.Held.directory_iff (held : forest.Held layout s) {components : List CString}
    (isPath : IsPath components) :
    (∃ pair, Nbtrfs.itemSearch s (pathOf components) = some pair ∧ pair.btreeBlock ≠ 0) ↔
      ∃ dir, forest.walk (pathKeys components) = some (.directory dir) := by
  rw [held.itemSearch isPath]
  constructor
  · rintro ⟨pair, found, nonzero⟩
    obtain rfl := Option.some.inj found
    cases walked : forest.walk (pathKeys components) with
    | none =>
      rw [walked] at nonzero
      exact absurd rfl nonzero
    | some entry =>
      cases entry with
      | directory dir => exact ⟨dir, rfl⟩
      | file inodeNumber =>
        rw [walked] at nonzero
        exact absurd rfl nonzero
  · rintro ⟨dir, walked⟩
    refine ⟨_, rfl, ?_⟩
    rw [walked]
    exact held.owned.nonzero dir (Forest.mem_blocks (held.walk_live walked) forest.mem_tree)

/-- The link of a `_rename`. -/
theorem Forest.Held.renameLink (held : forest.Held layout s) (isSource : IsPath (place ++ [name]))
    (isTarget : IsPath (place' ++ [name']))
    (reached' : forest.walk (pathKeys place') = some (.directory dir))
    (room : (forest.leaves dir).length < maxKeys)
    (unlisted : directoryExistsEntry s (pathOf place') name' = some none)
    (kind : linkedType s (place ++ [name]) = some type) {locals : Locals} {writeThrough : Bool}
    (run : rename quietAppend locals (fun _ => some (pathOf (place ++ [name]))) s
      (pathOf (place ++ [name])) (pathOf (place' ++ [name'])) writeThrough = some (true, s')) :
    ∃ forest1 s1 inodeNumber btreeBlock, forest1.Held layout s1 ∧
      Nbtrfs.unlink s1 (pathOf (place ++ [name])) writeThrough = some s' ∧
      (forest.resolve (pathKeys (place ++ [name]))).inodeNumber = inodeNumber ∧
      forest.Assigned forest1 (pathKeys place') (pathHash name')
        (some (newEntry type inodeNumber btreeBlock)) ∧
      (forest1.pair (some (newEntry type inodeNumber btreeBlock))).inodeNumber = inodeNumber ∧
      forest.leaf dir (pathHash name') = none := by
  have parent := isTarget.parent
  have isName := isTarget.1 name' (List.mem_append_right _ (List.mem_singleton.mpr rfl))
  obtain ⟨pair, s1, search, searched, link, unlink⟩ := rename_cases run
  rw [parentPath_pathOf parent.1 isName, held.itemSearch parent, reached'] at search
  obtain rfl := Option.some.inj search
  rw [getName_pathOf place' isName] at searched
  have absent := held.absent (held.walk_live reached') searched
  obtain ⟨forest1, inode, btreeBlock, held1, load, assigned, own⟩ :=
    held.link isSource isTarget reached' absent room unlisted link
  have same : inode.mode &&& fileTypeMask = type := by
    rw [linkedType, held.foundInode isSource, Option.bind_eq_bind, Option.bind_some, load] at kind
    exact Option.some.inj kind
  rw [same] at assigned own
  exact ⟨forest1, s1, _, btreeBlock, held1, unlink, rfl, assigned, own, absent⟩

/-- A source that leads to an inode does not lie behind the target, where there is nothing yet. -/
theorem Forest.notBehind {source target : List Nat}
    (resolves : (forest.resolve source).inodeNumber ≠ 0)
    (missing : ∀ rest, forest.walk (target ++ rest) = none) : ¬ target <+: source := by
  rintro ⟨rest, rfl⟩
  apply resolves
  rw [Forest.resolve, missing rest]
  rfl

/-- Taking the source out of the forest that has the target. -/
theorem Forest.Assigned.shifted {forest1 : Forest} {place place' : List Nat}
    {key key' inodeNumber : Nat} {btreeBlock : Option Nat} {s1 : Store}
    (held : forest.Held layout s) (held1 : forest1.Held layout s1)
    (made : forest.Assigned forest1 place' key' (some (newEntry type inodeNumber btreeBlock)))
    (own : (forest1.pair (some (newEntry type inodeNumber btreeBlock))).inodeNumber = inodeNumber)
    (gone : forest1.Assigned forest' place key none)
    (resolves : (forest.resolve (place ++ [key])).inodeNumber = inodeNumber)
    (notBehind : ¬ place' ++ [key'] <+: place ++ [key]) :
    forest.Shifted forest' (place ++ [key]) (place' ++ [key']) type key' := by
  refine ⟨?_, ?_, ?_⟩
  · intro rest
    rw [Forest.resolve, gone.through rest]
    rfl
  · intro apart rest
    have around : ¬ place ++ [key] <+: place' ++ [key'] ++ rest := by
      intro under
      rcases List.prefix_or_prefix_of_prefix under (List.prefix_append _ rest) with wrong | wrong
      · exact apart wrong
      · exact notBehind wrong
    rw [gone.inode_around held1 around, made.inode_through own rest, resolves]
  · intro keys notSource notTarget
    rw [gone.inode_around held1 notSource, made.inode_around held notTarget]

/-- A `_rename` that returns 0 and replays nothing moves the subtree, as far as it is looked at, if and
only if the source is in a directory, there is nothing behind it but what the new name leads to, and no
other path that is looked at has the hashes of the source or of the target. -/
theorem rename_moves_iff (looked : List CString → Prop) (looksSource : looked (place ++ [name]))
    (looksTarget : looked (place' ++ [name'])) (held : forest.Held layout s)
    (isSource : IsPath (place ++ [name])) (isTarget : IsPath (place' ++ [name']))
    (reached' : forest.walk (pathKeys place') = some (.directory dir))
    (room : (forest.leaves dir).length < maxKeys)
    (unlisted : directoryExistsEntry s (pathOf place') name' = some none)
    (resolves : foundInode s (place ++ [name]) ≠ some 0)
    (kind : linkedType s (place ++ [name]) = some type) {locals : Locals} {host : Host}
    {writeThrough : Bool}
    (run : rename (appendEntry locals host) locals (fun _ => some (pathOf (place ++ [name]))) s
      (pathOf (place ++ [name])) (pathOf (place' ++ [name'])) writeThrough = some (true, s'))
    (quiet : (rename quietAppend locals (fun _ => some (pathOf (place ++ [name]))) s
      (pathOf (place ++ [name])) (pathOf (place' ++ [name'])) writeThrough).isSome = true) :
    Moved looked s s' (place ++ [name]) (place' ++ [name']) ↔
      Movable looked s place name place' name' type := by
  have below := rename_below (quietAppend_below locals host) locals
    (fun _ => some (pathOf (place ++ [name]))) s (pathOf (place ++ [name])) (pathOf (place' ++ [name']))
    writeThrough
  rw [← below.eq_of_isSome quiet] at run
  obtain ⟨forest1, s1, inodeNumber, btreeBlock, held1, unlink, source, made, own, absent⟩ :=
    held.renameLink isSource isTarget reached' room unlisted kind run
  have missing : ∀ rest, forest.walk (pathKeys (place' ++ [name']) ++ rest) = none := by
    intro rest
    rw [pathKeys_concat]
    exact Forest.resolve_absent reached' absent rest
  have nonzero : (forest.resolve (pathKeys (place ++ [name]))).inodeNumber ≠ 0 := by
    intro zero
    apply resolves
    rw [held.foundInode isSource, zero]
  have notBehind := Forest.notBehind nonzero missing
  rw [pathKeys_concat, pathKeys_concat] at notBehind
  have beside : ¬ pathKeys place' ++ [pathHash name'] <+: pathKeys place :=
    fun inside => notBehind (inside.trans (List.prefix_append _ _))
  by_cases inside : ∃ there, forest.walk (pathKeys place) = some (.directory there)
  · obtain ⟨there, reached⟩ := inside
    have reached1 : forest1.walk (pathKeys place) = some (.directory there) := by
      rw [made.around _ beside, reached]
    obtain ⟨leaf, found⟩ : ∃ leaf, forest1.leaf there (pathHash name) = some leaf := by
      have walked := made.around _ notBehind
      unfold Forest.walk at walked reached1 reached
      rw [Hierarchy.walk_last reached1 rfl, Hierarchy.walk_last reached rfl] at walked
      cases found : forest1.leaf there (pathHash name) with
      | some leaf => exact ⟨leaf, rfl⟩
      | none =>
        rw [Forest.entries, found] at walked
        rw [pathKeys_concat, Forest.resolve, Forest.walk, Hierarchy.walk_last reached rfl,
          ← walked] at nonzero
        exact absurd rfl nonzero
    obtain ⟨forest2, held2, gone⟩ := held1.unlink isSource reached1 found unlink
    rw [pathKeys_concat] at source
    have shifted := made.shifted held held1 own gone source notBehind
    rw [← pathKeys_concat, ← pathKeys_concat] at shifted
    exact shifted.moved_iff held held2 isSource isTarget
      ((held.directory_iff isSource.parent).mpr ⟨there, reached⟩) resolves missing looksTarget
  · have held2 := held1.unlink_elsewhere isSource (fun there reached1 => inside ⟨there, by
      rw [← made.around _ beside, reached1]⟩) unlink
    constructor
    · intro moved
      have gone := moved.gone [] (by rwa [List.append_nil]) (by rwa [List.append_nil])
      rw [List.append_nil, held2.foundInode isSource, pathKeys_concat,
        made.inode_around held notBehind, ← pathKeys_concat] at gone
      exact absurd (Option.some.inj gone) nonzero
    · intro movable
      exact absurd ((held.directory_iff isSource.parent).mp movable.inside) inside

end

/-- With the file `/d/x` the image holds a forest whose root has `/d` only. -/
theorem directoryImage_below :
    ∃ forest : Forest, forest.Held emptyLayout (directoryImage [[100], [120]]) ∧
      (forest.leaves forest.root).length < maxKeys := by
  obtain ⟨forest, s, dir, inodeNumber, held, assigned, empty, created⟩ :=
    @directoryImage_held [[100], [120]] (by decide +kernel)
  have reached : forest.walk (pathKeys [[100]]) = some (.directory dir) := assigned.through []
  have none : ∀ key, forest.leaf dir key = none :=
    fun key => Forest.leaf_none reached (assigned.through [key])
  obtain ⟨forest', held', assigned'⟩ := @Forest.Held.created forest _ _ _ _ _ [[100]] [120] _ held
    ⟨by decide, by decide⟩ reached (none _) (by rw [empty]; decide) _ _ (by decide) created
  have top : forest'.walk [] = some (.directory forest'.root) := rfl
  refine ⟨forest', held', @Forest.Held.room_few _ _ _ _ held' [pathHash [100]]
    (by rw [List.length_singleton]; decide) fun leaf inside => ?_⟩
  by_contra other
  rw [List.mem_singleton] at other
  have around : ¬ pathKeys [[100]] ++ [pathHash [120]] <+: [leaf.key] := by
    intro longer
    have more := longer.length_le
    rw [List.length_append, pathKeys, List.length_map, List.length_singleton,
      List.length_singleton, List.length_singleton] at more
    exact absurd more (by decide)
  have around1 : ¬ pathKeys [] ++ [pathHash [100]] <+: [leaf.key] := by
    intro same
    exact other (List.cons_prefix_cons.mp same).1.symm
  have nowhere : forest'.walk ([] ++ [leaf.key]) = Option.none := by
    rw [List.nil_append, assigned'.around _ around, assigned.around _ around1]
    rfl
  exact Forest.leaf_absent (Forest.leaf_none top nowhere) leaf inside rfl

/-- The image behind the call that renames `/d` to `/e`. -/
def renamedImage (file : List CString) : Store :=
  ((rename quietAppend zeroLocals (fun _ => some (pathOf [[100]])) (directoryImage file)
    (pathOf [[100]]) (pathOf [[101]]) false).map Prod.snd).getD emptyImage

/-- Where the call returns 0 it is that of the source. -/
theorem renamedImage_run {file : List CString}
    (result : (rename quietAppend zeroLocals (fun _ => some (pathOf [[100]])) (directoryImage file)
      (pathOf [[100]]) (pathOf [[101]]) false).map Prod.fst = some true) :
    rename (appendEntry zeroLocals zeroHost) zeroLocals (fun _ => some (pathOf [[100]]))
      (directoryImage file) (pathOf [[100]]) (pathOf [[101]]) false = some (true, renamedImage file) ∧
    (rename quietAppend zeroLocals (fun _ => some (pathOf [[100]])) (directoryImage file)
      (pathOf [[100]]) (pathOf [[101]]) false).isSome = true := by
  obtain ⟨⟨done, s⟩, run, same⟩ := Option.map_eq_some_iff.mp result
  obtain rfl : done = true := same
  have source := rename_below (quietAppend_below zeroLocals zeroHost) zeroLocals _ _ _ _ _ _ run
  rw [renamedImage, source, run]
  exact ⟨rfl, rfl⟩

/-- The empty directory `/d` as `/e` beside the file `/x`, for the paths of names of one byte. -/
theorem rename_moves_iff_directory :
    Moved (OfSize 1) (directoryImage [[120]]) (renamedImage [[120]]) [[100]] [[101]] := by
  obtain ⟨forest, dir, held, walked, room⟩ := directoryImage_beside
  obtain ⟨run, quiet⟩ := @renamedImage_run [[120]] (by decide +kernel)
  refine (@rename_moves_iff forest emptyLayout _ _ [] [] [100] [101] _ fileTypeDirectory (OfSize 1)
    (ofSize_singleton [100]) (ofSize_singleton [101]) held ⟨by decide, by decide⟩
    ⟨by decide, by decide⟩ rfl room (by decide +kernel) (by decide +kernel) (by decide +kernel) _ _ _
    run quiet).mpr ?_
  refine ⟨⟨⟨0, 7⟩, by decide +kernel, by decide⟩, by decide +kernel, ?_, ?_, ?_⟩
  · intro suffix _ isBehind _
    cases suffix with
    | nil =>
      have ends : GoesOn fileTypeDirectory (pathHash [101]) (pathKeys []) := Or.inl rfl
      rw [if_pos ends, List.append_nil]
    | cons name rest =>
      have ends : ¬ GoesOn fileTypeDirectory (pathHash [101]) (pathKeys (name :: rest)) := by
        rintro (empty | ⟨file, -⟩)
        · cases empty
        · exact file rfl
      rw [if_neg ends, held.foundInode isBehind, Forest.resolve]
      exact congrArg (fun found => some (forest.pair found).inodeNumber)
        (walked (pathKeys (name :: rest)))
  · intro other ofSize _ notBelow behind
    exact absurd ((ofSize_singleton [100]).prefix_of_pathKeys (by decide) ofSize behind) notBelow
  · intro other ofSize _ notBelow rest same _
    exact notBelow ((ofSize_singleton [101]).prefix_of_pathKeys (by decide) ofSize ⟨rest, same.symm⟩)

/-- The file `/d/x` is not found as `/e/x`. -/
theorem rename_moves_false :
    ¬ ∀ (forest : Forest) (layout : Superblock) (s s' : Store) (locals : Locals) (host : Host)
        (place place' : List CString) (name name' : CString) (dir dir' type : Nat)
        (writeThrough : Bool),
      forest.Held layout s → IsPath (place ++ [name]) → IsPath (place' ++ [name']) →
      forest.walk (pathKeys place) = some (.directory dir) →
      forest.walk (pathKeys place') = some (.directory dir') →
      (forest.leaves dir').length < maxKeys →
      directoryExistsEntry s (pathOf place') name' = some none →
      foundInode s (place' ++ [name']) = some 0 →
      foundInode s (place ++ [name]) ≠ some 0 → linkedType s (place ++ [name]) = some type →
      ¬ place ++ [name] <+: place' ++ [name'] →
      rename (appendEntry locals host) locals (fun _ => some (pathOf (place ++ [name]))) s
        (pathOf (place ++ [name])) (pathOf (place' ++ [name'])) writeThrough = some (true, s') →
      Moved (fun _ => True) s s' (place ++ [name]) (place' ++ [name']) := by
  intro all
  obtain ⟨forest, held, room⟩ := directoryImage_below
  obtain ⟨run, -⟩ := @renamedImage_run [[100], [120]] (by decide +kernel)
  have moved := all forest emptyLayout (directoryImage [[100], [120]]) (renamedImage [[100], [120]])
    zeroLocals zeroHost [] [] [100] [101] forest.root forest.root fileTypeDirectory false held
    ⟨by decide, by decide⟩ ⟨by decide, by decide⟩ rfl rfl room (by decide +kernel) (by decide +kernel)
    (by decide +kernel) (by decide +kernel) (by decide) run
  have before : foundInode (directoryImage [[100], [120]]) [[100], [120]] = some 2 := by decide +kernel
  have after : foundInode (renamedImage [[100], [120]]) [[101], [120]] = some 0 := by decide +kernel
  have kept := moved.subtree [[120]] trivial ⟨by decide, by decide⟩ ⟨by decide, by decide⟩
  rw [List.nil_append, List.nil_append, List.singleton_append, List.singleton_append, before,
    after] at kept
  cases kept

end Nbtrfs
