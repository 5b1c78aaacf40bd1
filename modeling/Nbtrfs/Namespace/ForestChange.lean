import Nbtrfs.Namespace.Forest
import Nbtrfs.Namespace.GuardedTree

/-!
# Changes of the forest

A new root node makes a directory that no entry names, an insertion enters a leaf and a deletion
takes one out. Each keeps the forest, and changes the entry of one key of one directory at most.
-/

namespace Nbtrfs

open Hierarchy (Entry)

/-- The forest with one more directory, without leaves. -/
def Forest.addRoot (forest : Forest) (dir inodeNumber : Nat) : Forest where
  root := forest.root
  live := dir :: forest.live
  inode other := if other = dir then inodeNumber else forest.inode other
  leaves := forest.leaves

/-- The forest with other leaves in a directory. -/
def Forest.withLeaves (forest : Forest) (dir : Nat) (leaves : List Leaf) : Forest where
  root := forest.root
  live := forest.live
  inode := forest.inode
  leaves other := if other = dir then leaves else forest.leaves other

/-- A guard of the layout and of the slots only. -/
def Guard.plain (layout : Superblock) (slot : Nat → Inode → Prop) : Guard where
  layout
  nodes _ := none
  bits _ := none
  slot

section

variable {forest : Forest} {layout : Superblock} {s s' : Store} {slot : Nat → Inode → Prop}

/-- A guard without blocks lets blocks be allocated. -/
theorem Guard.plain_allocates (layout : Superblock) (slot : Nat → Inode → Prop) :
    (Guard.plain layout slot).Allocates := by
  rintro block ⟨⟩

/-- The layout and the slots of a guard. -/
theorem Guard.Holds.plain {guard : Guard} (holds : guard.Holds s) :
    (Guard.plain guard.layout guard.slot).Holds s where
  formatted := holds.formatted
  superblock := holds.superblock
  total := holds.total
  apart := holds.apart
  node := by rintro block node ⟨⟩
  taken := by rintro block node ⟨⟩
  bit := by rintro block value ⟨⟩
  slots := holds.slots

/-- A change of a node keeps the layout and the slots. -/
theorem Guard.Holds.nodeChange (plain : (Guard.plain layout slot).Holds s) {block : Nat}
    {node : BTreeNode} (change : NodeChange s block node s') :
    (Guard.plain layout slot).Holds s' := by
  obtain ⟨former, load⟩ := change.former
  have put : ∀ other, (s.put block (.btreeNode node)).mem other = s'.mem other := by
    intro other
    by_cases here : other = block
    · rw [here, Store.put_same, (load_eq_some.mp change.here).2]
    · rw [Store.put_other _ _ _ _ here, change.mem other here]
  have held := @Guard.Holds.putNode _ _ plain block former node (load_eq_some.mp load).2 rfl
  exact held.same (funext fun other => (put other).symm) change.totalBlocks

/-- The blocks of one directory and those of the others. -/
theorem Forest.blocks_split {dir : Nat} (live : dir ∈ forest.live) (once : forest.live.Nodup) :
    ∃ rest, forest.blocks.Perm (forest.tree dir ++ rest) ∧
      ∀ leaves, (forest.withLeaves dir leaves).blocks.Perm
        ((dir :: leaves.map Leaf.block) ++ rest) := by
  obtain ⟨before, after, split⟩ := List.append_of_mem live
  rw [split] at once
  have outside : ∀ other ∈ before ++ after, other ≠ dir := by
    rintro other inside rfl
    exact (List.nodup_cons.mp (List.nodup_middle.mp once)).1 inside
  refine ⟨(before ++ after).flatMap forest.tree, ?_, ?_⟩
  · unfold Forest.blocks
    rw [split]
    exact List.perm_middle.flatMap_right _
  · intro leaves
    have moved : ((before ++ dir :: after).flatMap (forest.withLeaves dir leaves).tree).Perm
        ((dir :: (before ++ after)).flatMap (forest.withLeaves dir leaves).tree) :=
      List.perm_middle.flatMap_right _
    have here : (forest.withLeaves dir leaves).tree dir = dir :: leaves.map Leaf.block := by
      simp [Forest.tree, Forest.withLeaves]
    have others : (before ++ after).flatMap (forest.withLeaves dir leaves).tree =
        (before ++ after).flatMap forest.tree := by
      apply List.flatMap_congr
      intro other inside
      simp [Forest.tree, Forest.withLeaves, outside other inside]
    have blocks : (forest.withLeaves dir leaves).blocks =
        (before ++ dir :: after).flatMap (forest.withLeaves dir leaves).tree := by
      unfold Forest.blocks
      rw [← split]
      rfl
    rw [blocks]
    rw [List.flatMap_cons, here, others] at moved
    exact moved

/-- No root occurs twice. -/
theorem Forest.Held.once (held : forest.Held layout s) : forest.live.Nodup := by
  have apart := (List.nodup_flatMap.mp held.owned.distinct).2
  apply apart.imp
  intro first second disjoint same
  exact disjoint (forest.mem_tree) (by rw [same]; exact forest.mem_tree)

/-- The keys of a directory's leaves are different. -/
theorem Forest.Held.keys (held : forest.Held layout s) (dir : Nat) :
    ((forest.leaves dir).map Leaf.key).Nodup := by
  by_cases live : dir ∈ forest.live
  · obtain ⟨type, node, flat, -⟩ := held.tree dir live
    exact flat.increasing.imp Nat.ne_of_lt
  · rw [held.dead dir live]
    exact List.nodup_nil

/-- The leaf of a key among leaves of different keys. -/
theorem find_leaf_iff {leaves : List Leaf} (keys : (leaves.map Leaf.key).Nodup) {key : Nat}
    {leaf : Leaf} :
    leaves.find? (fun leaf => leaf.key = key) = some leaf ↔ leaf ∈ leaves ∧ leaf.key = key := by
  constructor
  · intro found
    have accepted := List.find?_some found
    exact ⟨List.mem_of_find?_eq_some found, of_decide_eq_true accepted⟩
  · rintro ⟨inside, rfl⟩
    cases found : leaves.find? fun other => other.key = leaf.key with
    | none =>
      have rejected := List.find?_eq_none.mp found leaf inside
      exact absurd (decide_eq_true rfl) rejected
    | some other =>
      have accepted := List.find?_some found
      have same : other.key = leaf.key := of_decide_eq_true accepted
      rw [List.inj_on_of_nodup_map keys (List.mem_of_find?_eq_some found) inside same]

/-- The leaf of a key is the same in another order. -/
theorem find_leaf_perm {leaves other : List Leaf} (keys : (leaves.map Leaf.key).Nodup)
    (perm : leaves.Perm other) (key : Nat) :
    leaves.find? (fun leaf => leaf.key = key) = other.find? fun leaf => leaf.key = key := by
  have keys' : (other.map Leaf.key).Nodup := (perm.map Leaf.key).nodup_iff.mp keys
  apply Option.ext
  intro leaf
  rw [find_leaf_iff keys, find_leaf_iff keys', perm.mem_iff]

/-- A new leaf changes the entry of its key. -/
theorem Forest.entries_insert {dir : Nat} {leaf : Leaf} {grown : List Leaf}
    (keys : (grown.map Leaf.key).Nodup) (perm : grown.Perm (leaf :: forest.leaves dir)) :
    (forest.withLeaves dir grown).entries =
      Hierarchy.assign forest.entries dir leaf.key (some leaf.entry) := by
  funext other key
  by_cases here : other = dir
  · subst here
    have found := find_leaf_perm keys perm key
    unfold Forest.entries Forest.leaf
    have leaves : (forest.withLeaves other grown).leaves other = grown := if_pos rfl
    rw [leaves, found]
    by_cases same : key = leaf.key
    · rw [same, Hierarchy.assign_same, List.find?_cons_of_pos (by simp)]
      rfl
    · rw [Hierarchy.assign_other (fun both => same both.2),
        List.find?_cons_of_neg (by simpa using fun equal => same equal.symm)]
  · rw [Hierarchy.assign_other (fun both => here both.1)]
    unfold Forest.entries Forest.leaf
    have leaves : (forest.withLeaves dir grown).leaves other = forest.leaves other := if_neg here
    rw [leaves]

/-- A leaf that is taken out leaves no entry of its key. -/
theorem Forest.entries_erase {dir : Nat} {leaf : Leaf} {rest : List Leaf}
    (keys : ((forest.leaves dir).map Leaf.key).Nodup)
    (perm : (forest.leaves dir).Perm (leaf :: rest)) :
    (forest.withLeaves dir rest).entries =
      Hierarchy.assign forest.entries dir leaf.key none := by
  have keys' := (perm.map Leaf.key).nodup_iff.mp keys
  rw [List.map_cons, List.nodup_cons] at keys'
  funext other key
  by_cases here : other = dir
  · subst here
    have found := find_leaf_perm keys perm key
    unfold Forest.entries Forest.leaf
    have leaves : (forest.withLeaves other rest).leaves other = rest := if_pos rfl
    rw [leaves]
    by_cases same : key = leaf.key
    · rw [same, Hierarchy.assign_same, Option.map_eq_none_iff, List.find?_eq_none]
      intro found inside accepted
      exact keys'.1 (of_decide_eq_true accepted ▸ List.mem_map_of_mem inside)
    · rw [Hierarchy.assign_other (fun both => same both.2)]
      show _ = ((forest.leaves other).find? fun leaf => leaf.key = key).map Leaf.entry
      rw [found, List.find?_cons_of_neg (by simpa using fun equal => same equal.symm)]
  · rw [Hierarchy.assign_other (fun both => here both.1)]
    unfold Forest.entries Forest.leaf
    have leaves : (forest.withLeaves dir rest).leaves other = forest.leaves other := if_neg here
    rw [leaves]

/-- A block that `alloc_page` returns was free. -/
theorem allocPage_free (formatted : s.Formatted) {page : Nat} (nonzero : page ≠ 0)
    (run : allocPage s = some (page, s')) : 1 ≤ s.freeCount := by
  rcases allocPage_cases formatted run with ⟨failed, -, -⟩ | allocated
  · exact absurd failed nonzero
  · have less := allocated.freeCount
    omega

/-- A node that was created found a free block. -/
theorem btreeNodeNew_free (formatted : s.Formatted) {isLeaf : Bool} {page : Nat}
    (run : btreeNodeNew s isLeaf = some (page, s')) : 1 ≤ s.freeCount := by
  unfold btreeNodeNew btreeNodeCreate at run
  obtain ⟨⟨created, s1⟩, create, run⟩ := Option.bind_eq_some_iff.mp run
  obtain ⟨⟨block, s2⟩, alloc, create⟩ := Option.bind_eq_some_iff.mp create
  dsimp only at create run
  split at create
  case isTrue =>
    obtain ⟨rfl, -⟩ := Prod.mk.inj (Option.some.inj create)
    rw [if_pos rfl] at run
    cases run
  case isFalse nonzero => exact allocPage_free formatted nonzero alloc

/-- One directory's leaves are others now, and the blocks of the other trees load as before. -/
theorem Forest.Held.rebuilt (held : forest.Held layout s) {dir : Nat} (live : dir ∈ forest.live)
    (plain : (Guard.plain layout slot).Holds s') {type : Nat} {leaves : List Leaf}
    {node : BTreeNode} (flat : FlatRoot s' dir (forest.inode dir) type leaves node)
    (kind : dir ≠ forest.root → type = fileTypeDirectory)
    (owned : Owned s' (forest.withLeaves dir leaves).blocks)
    (same : ∀ block ∈ forest.blocks, block ∉ forest.tree dir →
      btreeNodeLoad s' block = btreeNodeLoad s block)
    (below : ∀ leaf ∈ leaves, leaf.type = fileTypeDirectory →
      leaf.value ∈ forest.live ∧ leaf.value ≠ forest.root)
    (unshared : Hierarchy.Unshared echoes (forest.withLeaves dir leaves).entries forest.root) :
    (forest.withLeaves dir leaves).Held layout s' := by
  have others : ∀ other, other ≠ dir → (forest.withLeaves dir leaves).leaves other =
      forest.leaves other := fun other apart => if_neg apart
  have here : (forest.withLeaves dir leaves).leaves dir = leaves := if_pos rfl
  constructor
  · exact plain.superblock
  · exact plain.total
  · exact plain.apart
  · exact held.root
  · exact held.rootLive
  · exact owned
  · intro other otherLive
    by_cases apart : other = dir
    · subst apart
      rw [here]
      exact ⟨type, node, flat, kind⟩
    · obtain ⟨type', node', flat', kind'⟩ := held.tree other otherLive
      rw [others other apart]
      refine ⟨type', node', flat'.congr ?_ plain.noNode ?_, kind'⟩
      · have ownedTree := owned.tree otherLive
        unfold Forest.tree at ownedTree
        rw [others other apart] at ownedTree
        exact ownedTree
      · intro block inTree
        apply same block (Forest.mem_blocks otherLive inTree)
        intro inDir
        have disjoint := (List.nodup_flatMap.mp held.owned.distinct).2
        have symmetric : Std.Symm (Function.onFun List.Disjoint forest.tree) :=
          ⟨fun _ _ far => far.symm⟩
        exact (disjoint.forall otherLive live apart) inTree inDir
  · intro other dead
    have apart : other ≠ dir := by
      rintro rfl
      exact dead live
    rw [others other apart]
    exact held.dead other dead
  · intro other leaf inside
    by_cases apart : other = dir
    · subst apart
      rw [here] at inside
      exact below leaf inside
    · rw [others other apart] at inside
      exact held.below other leaf inside
  · exact unshared

/-- A directory that another one may get an entry of: it is empty, and no entry names it yet. -/
structure Forest.Fits (forest : Forest) (dir new : Nat) : Prop where
  /-- It is in use. -/
  live : new ∈ forest.live
  /-- It is not that of `/`. -/
  notRoot : new ≠ forest.root
  /-- It is another one. -/
  apart : new ≠ dir
  /-- It is empty. -/
  empty : forest.leaves new = []
  /-- It is not reached. -/
  fresh : ∀ keys, forest.walk keys ≠ some (.directory new)

/-- An insertion into a directory with room. -/
theorem Forest.Held.insert (held : forest.Held layout s)
    (plain : (Guard.plain layout slot).Holds s) {place : List Nat} {dir : Nat}
    (reached : forest.walk place = some (.directory dir)) {insertion : Insertion}
    (absent : forest.leaf dir insertion.key = none) (room : (forest.leaves dir).length < maxKeys)
    (fits : insertion.type = fileTypeDirectory → forest.Fits dir insertion.value)
    (run : btreeInsert s dir insertion.key insertion.value insertion.type = some s') :
    ∃ page grown, grown.Perm (insertion.leaf page :: forest.leaves dir) ∧
      (forest.withLeaves dir grown).Held layout s' ∧ (Guard.plain layout slot).Holds s' := by
  have live := held.walk_live reached
  obtain ⟨type, node, flat, kind⟩ := held.tree dir live
  have inside : dir :: (forest.leaves dir).map Leaf.block ⊆ forest.blocks :=
    fun block inTree => Forest.mem_blocks live inTree
  have free : 1 ≤ s.freeCount := by
    have whole := run
    rw [btreeInsert_eq] at whole
    obtain ⟨⟨page, s1⟩, new, -⟩ := Option.bind_eq_some_iff.mp whole
    exact btreeNodeNew_free held.owned.formatted new
  obtain ⟨s1, page, grown, changed, insert, flat', perm, owned, same⟩ :=
    flat.insertBeside held.owned inside (Forest.leaf_absent absent) free room
  obtain rfl := Option.some.inj (insert.symm.trans run)
  have plain' := plain.nodeSteps (fun _ => rfl) (Guard.plain_allocates layout slot)
    (btreeInsert_steps run)
  have keys : (grown.map Leaf.key).Nodup := flat'.increasing.imp Nat.ne_of_lt
  have entries := @Forest.entries_insert forest dir (insertion.leaf page) grown keys perm
  refine ⟨page, grown, perm, held.rebuilt live plain' flat' kind ?_ ?_ ?_ ?_, plain'⟩
  · obtain ⟨rest, before, after⟩ := Forest.blocks_split live held.once
    apply owned.perm
    have moved : (page :: forest.blocks).Perm
        ((dir :: (insertion.leaf page :: forest.leaves dir).map Leaf.block) ++ rest) :=
      (before.cons page).trans (List.Perm.swap dir page _)
    have grownBlocks := ((perm.map Leaf.block).cons dir).append_right rest
    exact moved.trans (grownBlocks.symm.trans (after grown).symm)
  · intro block isBlock outside
    apply same block
    · rintro rfl
      exact (List.nodup_cons.mp owned.distinct).1 isBlock
    · rintro rfl
      exact outside forest.mem_tree
  · intro leaf isLeaf directory
    rcases List.mem_cons.mp (perm.mem_iff.mp isLeaf) with rfl | old
    · exact ⟨(fits directory).live, (fits directory).notRoot⟩
    · exact held.below dir leaf old directory
  · rw [entries]
    by_cases directory : insertion.type = fileTypeDirectory
    · have entry : (insertion.leaf page).entry = .directory insertion.value := if_pos directory
      rw [entry]
      have new := fits directory
      apply held.unshared.assign_new reached _ new.apart new.fresh
      intro key
      unfold Forest.entries Forest.leaf
      rw [new.empty]
      rfl
    · have entry : (insertion.leaf page).entry = .file insertion.value := if_neg directory
      rw [entry]
      apply held.unshared.assign_file reached
      rintro next ⟨⟩

/-- `btree_node_create` and the assignments to the new node make a directory. -/
theorem Forest.Held.addRoot (held : forest.Held layout s)
    (plain : (Guard.plain layout slot).Holds s) {page inodeNumber : Nat} {s1 : Store}
    (new : btreeNodeNew s false = some (page, s1))
    (modify : btreeNodeModify s1 page (fun node =>
      { node with value := inodeNumber, type := fileTypeDirectory }) = some s') :
    (forest.addRoot page inodeNumber).Held layout s' ∧ (Guard.plain layout slot).Holds s' ∧
      page ∉ forest.live := by
  have plain' := plain.nodeSteps (fun _ => rfl) (Guard.plain_allocates layout slot)
    ((btreeNodeNew_steps new).trans (btreeNodeModify_steps modify))
  obtain ⟨page', type, s2, new', created⟩ :=
    btreeNodeNew_spec held.owned.formatted (btreeNodeNew_free held.owned.formatted new) false
  obtain ⟨rfl, rfl⟩ := Prod.mk.inj (Option.some.inj (new'.symm.trans new))
  obtain ⟨s3, modify', change⟩ := btreeNodeModify_spec created.here fun node =>
    { node with value := inodeNumber, type := fileTypeDirectory }
  obtain rfl := Option.some.inj (modify'.symm.trans modify)
  have owned := (held.owned.created created).sameBitmap change.sameBitmap
  have fresh : page' ∉ forest.blocks := (List.nodup_cons.mp owned.distinct).1
  have notLive : page' ∉ forest.live :=
    fun live => fresh (Forest.mem_blocks live forest.mem_tree)
  have empty : forest.leaves page' = [] := held.dead page' notLive
  have same : ∀ block ∈ forest.blocks, btreeNodeLoad s3 block = btreeNodeLoad s block := by
    intro block inside
    have apart : block ≠ page' := by
      rintro rfl
      exact fresh inside
    rw [change.other apart, created.other block apart]
  have blocks : (forest.addRoot page' inodeNumber).blocks = page' :: forest.blocks := by
    unfold Forest.blocks Forest.addRoot
    rw [List.flatMap_cons]
    unfold Forest.tree
    dsimp only
    rw [empty]
    rfl
  have ownedAll : Owned s3 (forest.addRoot page' inodeNumber).blocks := by
    rw [blocks]
    exact owned
  refine ⟨?_, plain', notLive⟩
  constructor
  · exact plain'.superblock
  · exact plain'.total
  · exact plain'.apart
  · exact held.root
  · exact List.mem_cons_of_mem page' held.rootLive
  · exact ownedAll
  · intro dir live
    have ownedTree := ownedAll.tree live
    by_cases here : dir = page'
    · subst here
      have leaves : (forest.addRoot dir inodeNumber).leaves dir = [] := empty
      have value : (forest.addRoot dir inodeNumber).inode dir = inodeNumber := if_pos rfl
      unfold Forest.tree at ownedTree
      rw [leaves] at ownedTree ⊢
      rw [value]
      have inner : ∀ node, node = { freshNode dir false type with
          value := inodeNumber
          type := fileTypeDirectory } → InnerNode node dir 0 (leafChildren []) := by
        rintro node rfl
        exact ⟨rfl, rfl, rfl, Nat.zero_le _, Nat.zero_le _, Nat.zero_le _,
          fun i small => absurd small (Nat.not_lt_zero i), fun i _ => rfl⟩
      exact ⟨fileTypeDirectory, _, ⟨ownedTree, ⟨change.here, inner _ rfl, by simp⟩,
        List.Pairwise.nil, rfl, rfl, rfl, rfl, rfl, plain'.noNode⟩, fun _ => rfl⟩
    · rcases List.mem_cons.mp live with rfl | before
      · exact absurd rfl here
      · obtain ⟨type', node, flat, kind⟩ := held.tree dir before
        have value : (forest.addRoot page' inodeNumber).inode dir = forest.inode dir := if_neg here
        rw [value]
        refine ⟨type', node, flat.congr ownedTree plain'.noNode ?_, kind⟩
        exact fun block inTree => same block (Forest.mem_blocks before inTree)
  · intro dir dead
    exact held.dead dir fun live => dead (List.mem_cons_of_mem page' live)
  · intro dir leaf inside directory
    obtain ⟨live, notRoot⟩ := held.below dir leaf inside directory
    exact ⟨List.mem_cons_of_mem page' live, notRoot⟩
  · exact held.unshared

/-- A deletion of a leaf takes it out and clears the bit of its block. -/
theorem Forest.Held.erase (held : forest.Held layout s)
    (plain : (Guard.plain layout slot).Holds s) {place : List Nat} {dir : Nat}
    (reached : forest.walk place = some (.directory dir)) {key : Nat} {leaf : Leaf}
    (found : forest.leaf dir key = some leaf) :
    ∃ s' rest, btreeDelete s dir key = some (leaf.block, s') ∧
      (forest.leaves dir).Perm (leaf :: rest) ∧ (forest.withLeaves dir rest).Held layout s' ∧
      (Guard.plain layout slot).Holds s' ∧ s'.totalBlocks = s.totalBlocks ∧
      ∀ block < s.totalBlocks,
        s'.bit block = if block = leaf.block then some false else s.bit block := by
  have live := held.walk_live reached
  obtain ⟨inside, rfl⟩ := Forest.leaf_found found
  obtain ⟨type, node, flat, kind⟩ := held.tree dir live
  obtain ⟨s', at_, dropped, atPlace, run, flat', s1, change, freed⟩ := flat.delete inside
  have perm : (forest.leaves dir).Perm (leaf :: (forest.leaves dir).eraseIdx at_) := by
    obtain ⟨bound, same⟩ := List.getElem?_eq_some_iff.mp atPlace
    have whole := (List.getElem_cons_eraseIdx_perm bound).symm
    rw [same] at whole
    exact whole
  obtain ⟨others, before, after⟩ := Forest.blocks_split live held.once
  have blocks : forest.blocks.Perm (leaf.block ::
      (forest.withLeaves dir ((forest.leaves dir).eraseIdx at_)).blocks) := by
    have split := ((perm.map Leaf.block).cons dir).append_right others
    exact (before.trans split).trans
      ((List.Perm.swap leaf.block dir _).trans ((after _).symm.cons leaf.block))
  have isBlock : leaf.block ∈ forest.blocks := Forest.mem_blocks live (Forest.leaf_mem_tree inside)
  have notRoot : leaf.block ≠ dir := by
    intro same
    have once := (List.nodup_flatMap.mp held.owned.distinct).1 dir live
    have below : leaf.block ∈ (forest.leaves dir).map Leaf.block := List.mem_map_of_mem inside
    rw [same] at below
    exact (List.nodup_cons.mp once).1 below
  obtain ⟨leafNode, load⟩ := held.node isBlock
  have load1 : btreeNodeLoad s1 leaf.block = some leafNode := (change.other notRoot).trans load
  have noBitmap : ∀ words, s1.mem leaf.block ≠ .bitmap words := by
    intro words page
    have tag := (load_eq_some.mp load1).2
    rw [page] at tag
    cases tag
  have owned1 := held.owned.sameBitmap change.sameBitmap
  have owned := owned1.freed blocks noBitmap freed
  have plain1 := plain.nodeChange change
  have plain' : (Guard.plain layout slot).Holds s' := by
    apply plain1.bitChange freed (owned1.inside leaf.block isBlock) owned.formatted
    rintro wanted ⟨⟩
  refine ⟨s', _, run, perm, held.rebuilt live plain' flat' kind owned ?_ ?_ ?_, plain', ?_, ?_⟩
  · intro block isBlock' outside
    have notDir : block ≠ dir := by
      rintro rfl
      exact outside forest.mem_tree
    have notLeaf : block ≠ leaf.block := by
      rintro rfl
      exact outside (Forest.leaf_mem_tree inside)
    obtain ⟨otherNode, otherLoad⟩ := held.node isBlock'
    have otherLoad1 := (change.other notDir).trans otherLoad
    obtain ⟨within, tag⟩ := load_eq_some.mp otherLoad1
    rw [otherLoad]
    apply load_eq_some.mpr
    rw [freed.totalBlocks]
    refine ⟨within, ?_⟩
    rw [freed.mem, tag]
    · exact owned1.nonzero block isBlock'
    · rintro rfl
      obtain ⟨-, words, page⟩ := owned1.formatted.bitmapped leaf.block
        (owned1.inside leaf.block isBlock)
      rw [page] at tag
      cases tag
  · intro other isOther
    exact held.below dir other (List.mem_of_mem_eraseIdx isOther)
  · rw [Forest.entries_erase (held.keys dir) perm]
    apply held.unshared.assign_file reached
    rintro next ⟨⟩
  · exact freed.totalBlocks.trans change.totalBlocks
  · intro block within
    rw [freed.bits,
      (change.sameBitmap.samePages held.owned.formatted.bitmapped).bit within]

end

end Nbtrfs
