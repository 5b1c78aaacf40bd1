import Nbtrfs.BTree.Grow

/-!
# Insertion

Runs of `btree_insert` on a root made by `btree_node_create`. The tree keeps all its leaves
while it is a root over leaves or, after one split, a root over two nodes over leaves, and while
no new leaf comes behind the extra child of a node and no full node below the root is to be
split.
-/

namespace Nbtrfs

section

variable {s s' : Store}

/-- A run of `btree_insert` calls on one root. -/
def btreeInsertRun (s : Store) (root : Nat) (insertions : List Insertion) : Option Store :=
  insertions.foldlM (fun s insertion =>
    btreeInsert s root insertion.key insertion.value insertion.type) s

/-- Every insertion of a run is permitted in the state it is made in. -/
def InsertRunPermits : Store → Nat → List Insertion → Prop
  | _, _, [] => True
  | s, root, insertion :: rest => InsertPermits s root insertion.key ∧
      ∀ s', btreeInsert s root insertion.key insertion.value insertion.type = some s' →
        InsertRunPermits s' root rest

/-- The entry of an insertion is found: the search returns a leaf with its key, value and type. -/
def Found (s : Store) (root : Nat) (insertion : Insertion) : Prop :=
  ∃ block node, btreeSearch s root insertion.key = some block ∧ block ≠ 0 ∧
    btreeNodeLoad s block = some node ∧ node.isLeaf = true ∧ node.key = insertion.key ∧
    node.value = insertion.value ∧ node.type = insertion.type

/-- What a run of insertions is to leave behind. -/
def Inserted (s : Store) (root : Nat) (insertions : List Insertion) : Prop :=
  (∀ insertion ∈ insertions, Found s root insertion) ∧
    ∀ key, key ∉ insertions.map Insertion.key → btreeSearch s root key = some 0

/-- The entries of leaves. -/
def entries (leaves : List Leaf) : List (Nat × Nat × Nat) :=
  leaves.map fun leaf => (leaf.key, leaf.value, leaf.type)

/-- The entry of an insertion. -/
def Insertion.entry (insertion : Insertion) : Nat × Nat × Nat :=
  (insertion.key, insertion.value, insertion.type)

/-- A permitted run keeps the tree and adds the entries of its insertions. -/
theorem GrownTree.run {root : Nat} {leaves : List Leaf} (insertions : List Insertion)
    (tree : GrownTree s root leaves)
    (distinct : (leaves.map Leaf.key ++ insertions.map Insertion.key).Nodup)
    (permits : InsertRunPermits s root insertions) :
    ∃ s' grown, btreeInsertRun s root insertions = some s' ∧ GrownTree s' root grown ∧
      (entries grown).Perm (entries leaves ++ insertions.map Insertion.entry) := by
  induction insertions generalizing s leaves with
  | nil => exact ⟨s, leaves, rfl, tree, by simp⟩
  | cons first rest ih =>
    obtain ⟨here, later⟩ := permits
    rw [List.map_cons, List.nodup_middle, List.nodup_cons, List.mem_append, not_or] at distinct
    obtain ⟨⟨notIn, notLater⟩, restDistinct⟩ := distinct
    obtain ⟨page, s1, grown, insert, tree1, perm⟩ := tree.grow first
      (fun leaf inside same => notIn (same ▸ List.mem_map_of_mem inside)) here
    have keys : (grown.map Leaf.key).Perm (first.key :: leaves.map Leaf.key) := perm.map Leaf.key
    have distinct1 : (grown.map Leaf.key ++ rest.map Insertion.key).Nodup := by
      apply (keys.symm.append_right (rest.map Insertion.key)).nodup
      rw [List.cons_append, List.nodup_cons, List.mem_append, not_or]
      exact ⟨⟨notIn, notLater⟩, restDistinct⟩
    obtain ⟨s2, last, run, tree2, perm2⟩ := ih tree1 distinct1 (later s1 insert)
    refine ⟨s2, last, ?_, tree2, ?_⟩
    · unfold btreeInsertRun at run ⊢
      rw [List.foldlM_cons, insert]
      exact run
    · have first' : (entries grown).Perm (first.entry :: entries leaves) :=
        perm.map fun leaf : Leaf => (leaf.key, leaf.value, leaf.type)
      rw [List.map_cons]
      exact perm2.trans ((first'.append_right _).trans List.perm_middle.symm)

/-- The search finds exactly the entries of a grown tree. -/
theorem GrownTree.inserted {root : Nat} {leaves : List Leaf} {insertions : List Insertion}
    (tree : GrownTree s root leaves)
    (perm : (entries leaves).Perm (insertions.map Insertion.entry)) : Inserted s root insertions := by
  constructor
  · intro insertion inside
    have isEntry : insertion.entry ∈ entries leaves :=
      perm.mem_iff.mpr (List.mem_map_of_mem inside)
    obtain ⟨leaf, isLeaf, same⟩ := List.mem_map.mp isEntry
    obtain ⟨key, value, type⟩ : leaf.key = insertion.key ∧ leaf.value = insertion.value ∧
        leaf.type = insertion.type := by simpa [Insertion.entry] using same
    obtain ⟨found, nonzero, parent, node, load, holds⟩ := tree.search isLeaf
    rw [key] at found
    exact ⟨leaf.block, node, found, nonzero, load, holds.isLeaf, holds.key.trans key,
      holds.value.trans value, holds.type.trans type⟩
  · intro key outside
    apply tree.search_absent
    intro leaf isLeaf same
    have inEntries : (leaf.key, leaf.value, leaf.type) ∈ entries leaves :=
      List.mem_map.mpr ⟨leaf, isLeaf, rfl⟩
    have isEntry := perm.mem_iff.mp inEntries
    obtain ⟨insertion, inside, entry⟩ := List.mem_map.mp isEntry
    have keyIs : insertion.key = leaf.key := congrArg Prod.fst entry
    exact outside (same ▸ keyIs ▸ List.mem_map_of_mem inside)

/-- With a free block `btree_node_create` returns a fresh node. -/
theorem btreeNodeCreate_created {s0 : Store} {root : Nat} (formatted : s0.Formatted)
    (free : 1 ≤ s0.freeCount) (create : btreeNodeCreate s0 false = some (root, s)) :
    ∃ type, NodeCreated s0 root (freshNode root false type) s := by
  obtain ⟨page, type, s1, new, created⟩ := btreeNodeNew_spec formatted (by omega) false
  have same : btreeNodeNew s0 false = if root = 0 then none else some (root, s) := by
    simp [btreeNodeNew, create]
  rw [same] at new
  split at new
  · cases new
  · obtain ⟨rfl, rfl⟩ := Prod.mk.inj (Option.some.inj new)
    exact ⟨type, created⟩

/-- A fresh node is a node without leaves. -/
theorem NodeCreated.overLeaves {s0 : Store} {root type : Nat}
    (created : NodeCreated s0 root (freshNode root false type) s) :
    OverLeaves s root 0 (freshNode root false type) [] := by
  refine ⟨created.here, ?_, by simp⟩
  exact ⟨rfl, rfl, rfl, Nat.zero_le _, Nat.zero_le _, Nat.zero_le _,
    fun i small => absurd small (Nat.not_lt_zero i), fun i _ => rfl⟩

/-- A new root is a tree without leaves. -/
theorem btreeNodeCreate_flat {s0 : Store} {root : Nat} (formatted : s0.Formatted)
    (free : 1 ≤ s0.freeCount) (create : btreeNodeCreate s0 false = some (root, s)) :
    Owned s [root] ∧ (∃ node, node.numKeys = 0 ∧ OverLeaves s root 0 node []) ∧
      s.freeCount + 1 = s0.freeCount := by
  obtain ⟨type, created⟩ := btreeNodeCreate_created formatted free create
  have empty : Owned s0 [] := ⟨formatted, List.nodup_nil, by simp, by simp, by simp⟩
  exact ⟨empty.created created, ⟨_, rfl, created.overLeaves⟩, created.freeCount⟩

/-- Runs of insertions of distinct keys on a new root: while each insertion is permitted, the run
has a result in which every inserted entry is found and no other key is. -/
theorem btreeInsertRun_inserted {s0 : Store} {root : Nat} (formatted : s0.Formatted)
    (free : 1 ≤ s0.freeCount) (create : btreeNodeCreate s0 false = some (root, s))
    (insertions : List Insertion) (distinct : (insertions.map Insertion.key).Nodup)
    (permits : InsertRunPermits s root insertions) :
    ∃ s', btreeInsertRun s root insertions = some s' ∧ Inserted s' root insertions := by
  obtain ⟨owned, ⟨node, -, stored⟩, -⟩ := btreeNodeCreate_flat formatted free create
  have tree : GrownTree s root [] := ⟨List.Pairwise.nil, Or.inl ⟨owned, node, stored⟩⟩
  obtain ⟨s', grown, run, tree', perm⟩ := tree.run insertions distinct permits
  exact ⟨s', run, tree'.inserted perm⟩

/-- A fresh image whose first two blocks are allocated: the superblock and the bitmap. -/
def freeStore (totalBlocks : Nat) : Store where
  totalBlocks
  mem block :=
    if block = 1 then .bitmap fun word =>
      if word = 0 then setWordBit (setWordBit 0 0 true) 1 true else 0
    else .untagged fun _ => 0
  disk _ := .untagged fun _ => 0
  residue := ⟨fun _ => 0, fun _ _ => 0⟩

/-- The bits of the fresh image. -/
theorem freeStore_bit {totalBlocks pnum : Nat} (small : pnum < usableBlockSize) :
    (freeStore totalBlocks).bit pnum = some (decide (pnum < 2)) := by
  have page : bitmapPage pnum = 1 := by
    unfold bitmapPage
    rw [Nat.div_eq_of_lt small]
  have zero : ∀ position < 64, wordBit 0 position = false := by
    intro position below
    rw [wordBit_eq _ _ below]
    exact BitVec.getLsbD_zero
  unfold Store.bit
  rw [page, Nat.mod_eq_of_lt small]
  show some (wordBit (if pnum / 64 = 0 then setWordBit (setWordBit 0 0 true) 1 true else 0)
    (pnum % 64)) = _
  have below : pnum % 64 < 64 := Nat.mod_lt _ (by omega)
  congr 1
  by_cases first : pnum / 64 = 0
  · rw [if_pos first, wordBit_setWordBit _ _ _ _ below, wordBit_setWordBit _ _ _ _ below,
      zero _ below]
    have same : pnum % 64 = pnum := by omega
    rw [same]
    by_cases one : pnum = 1
    · simp [one]
    · by_cases none : pnum = 0
      · simp [none]
      · simp [one, none]
        omega
  · rw [if_neg first, zero _ below]
    exact (decide_eq_false (by omega)).symm

/-- The fresh image is formatted, and all but two of its blocks are free. -/
theorem freeStore_formatted {totalBlocks : Nat} (large : 2 ≤ totalBlocks)
    (small : totalBlocks ≤ usableBlockSize) :
    (freeStore totalBlocks).Formatted ∧ (freeStore totalBlocks).freeCount + 2 = totalBlocks := by
  have page : ∀ pnum < totalBlocks, bitmapPage pnum = 1 := by
    intro pnum below
    unfold bitmapPage
    rw [Nat.div_eq_of_lt (by omega)]
  refine ⟨⟨?_, ?_, ?_, ?_⟩, ?_⟩
  · intro pnum below
    have below' : pnum < totalBlocks := below
    rw [page pnum below']
    exact ⟨large, _, rfl⟩
  · exact (by omega : 0 < totalBlocks)
  · exact freeStore_bit (by omega)
  · intro pnum below
    rw [page pnum below]
    exact freeStore_bit (by omega)
  · have free : ((Finset.range totalBlocks).filter fun pnum =>
        (freeStore totalBlocks).bit pnum = some false) = Finset.Ico 2 totalBlocks := by
      ext pnum
      rw [Finset.mem_filter, Finset.mem_range, Finset.mem_Ico]
      constructor
      · rintro ⟨below, clear⟩
        rw [freeStore_bit (by omega)] at clear
        have large' := of_decide_eq_false (Option.some.inj clear)
        omega
      · rintro ⟨from2, below⟩
        refine ⟨below, ?_⟩
        rw [freeStore_bit (by omega)]
        exact congrArg some (decide_eq_false (by omega))
    show ((Finset.range totalBlocks).filter fun pnum =>
      (freeStore totalBlocks).bit pnum = some false).card + 2 = totalBlocks
    rw [free, Nat.card_Ico]
    omega

/-- The insertion of a key with the key as its value. -/
def keyInsertion (key : Nat) : Insertion := ⟨key, key, 0⟩

/-- The keys 1, 2, and so on. -/
def ascending (count : Nat) : List Insertion := (List.range count).map fun i => keyInsertion (i + 1)

/-- The next ascending key goes behind the leaves of a root without an extra child. -/
theorem btreeInsert_ascending {root count : Nat} {node : BTreeNode} {leaves : List Leaf}
    (owned : Owned s (root :: leaves.map Leaf.block)) (stored : OverLeaves s root 0 node leaves)
    (increasing : Increasing leaves) (keys : leaves.map Leaf.key = (List.range count).map (· + 1))
    (numKeys : node.numKeys = min count maxKeys) (small : count ≤ maxKeys)
    (free : 1 ≤ s.freeCount) :
    ∃ page s' changed, btreeInsert s root (count + 1) (count + 1) 0 = some s' ∧
      Owned s' (root :: (leaves ++ [(keyInsertion (count + 1)).leaf page]).map Leaf.block) ∧
      OverLeaves s' root 0 changed (leaves ++ [(keyInsertion (count + 1)).leaf page]) ∧
      changed.numKeys = min (count + 1) maxKeys ∧ s'.freeCount + 1 = s.freeCount := by
  have length : leaves.length = count := by
    have lengths := congrArg List.length keys
    rwa [List.length_map, List.length_map, List.length_range] at lengths
  have bound : ∀ leaf ∈ leaves, leaf.key < count + 1 := by
    intro leaf inside
    have isKey : leaf.key ∈ (List.range count).map (· + 1) := keys ▸ List.mem_map_of_mem inside
    obtain ⟨i, below, same⟩ := List.mem_map.mp isKey
    have below' := List.mem_range.mp below
    omega
  have empty : node.children count = 0 := by
    rw [stored.slot count small, List.getElem?_eq_none (by omega)]
    rfl
  rcases Nat.lt_or_ge count maxKeys with room | full
  · have numKeys' : node.numKeys = count := by omega
    obtain ⟨page, s', changed, before, after, whole, split, run, owned', stored', enlarged, free',
        -⟩ := btreeInsert_flat_room owned stored increasing (keyInsertion (count + 1))
        (fun leaf inside => Nat.ne_of_lt (bound leaf inside)) free (by omega)
        (Or.inl (by rw [numKeys']; exact empty))
    have none : after = [] := by
      rw [List.eq_nil_iff_forall_not_mem]
      intro leaf inside
      have greater := split.greater leaf inside
      have smaller := bound leaf (by rw [whole]; exact List.mem_append_right _ inside)
      exact absurd greater (Nat.lt_asymm smaller)
    rw [none, List.append_nil] at whole
    rw [none, ← whole] at owned' stored'
    have count' := enlarged.numKeys
    exact ⟨page, s', changed, run, owned', stored', by omega, free'⟩
  · have isFull : node.numKeys = maxKeys := by omega
    have behind : lastKey leaves < count + 1 := by
      have nonempty : leaves ≠ [] := by
        intro none
        rw [none, List.length_nil] at length
        have positive : 0 < maxKeys := by decide
        omega
      exact lastKey_lt nonempty bound
    obtain ⟨page, s', changed, run, owned', stored', count', free'⟩ :=
      btreeInsert_flat_extra owned stored (keyInsertion (count + 1)) free isFull
        (by rw [show maxKeys = count by omega]; exact empty) behind
    exact ⟨page, s', changed, run, owned', stored', by omega, free'⟩

/-- The state of a root after ascending insertions without a split. -/
structure Ascended (s : Store) (root count : Nat) (node : BTreeNode) (leaves : List Leaf) : Prop where
  /-- The blocks are owned. -/
  owned : Owned s (root :: leaves.map Leaf.block)
  /-- The root holds the leaves. -/
  stored : OverLeaves s root 0 node leaves
  /-- The keys. -/
  keys : leaves.map Leaf.key = (List.range count).map (· + 1)
  /-- The number of keys does not count the extra child. -/
  numKeys : node.numKeys = min count maxKeys

/-- The keys of the leaves are increasing. -/
theorem Ascended.increasing {root count : Nat} {node : BTreeNode} {leaves : List Leaf}
    (state : Ascended s root count node leaves) : Increasing leaves := by
  unfold Increasing
  rw [state.keys, List.pairwise_map]
  exact List.pairwise_lt_range.imp fun less => Nat.succ_lt_succ less

/-- Ascending keys fill the root without a split. -/
theorem btreeInsertRun_ascending {root : Nat} {node : BTreeNode} (owned : Owned s [root])
    (numKeys : node.numKeys = 0) (stored : OverLeaves s root 0 node []) (count : Nat)
    (small : count ≤ maxKeys + 1) (free : count ≤ s.freeCount) :
    ∃ s' changed leaves, btreeInsertRun s root (ascending count) = some s' ∧
      Ascended s' root count changed leaves ∧ s'.freeCount + count = s.freeCount := by
  induction count with
  | zero =>
    refine ⟨s, node, [], rfl, ⟨owned, stored, rfl, ?_⟩, rfl⟩
    rw [numKeys, Nat.zero_min]
  | succ count ih =>
    obtain ⟨s1, node1, leaves, run, state, free1⟩ := ih (by omega) (by omega)
    obtain ⟨page, s2, changed, insert, owned', stored', numKeys', free2⟩ :=
      btreeInsert_ascending state.owned state.stored state.increasing state.keys state.numKeys
        (by omega) (by omega)
    refine ⟨s2, changed, _, ?_, ⟨owned', stored', ?_, numKeys'⟩, by omega⟩
    · unfold btreeInsertRun ascending at run ⊢
      rw [List.range_succ, List.map_append, List.foldlM_append, run]
      simp only [List.map_cons, List.map_nil, List.foldlM_cons, List.foldlM_nil, keyInsertion, insert,
        Option.bind_eq_bind, Option.bind_some, Option.pure_def]
    · rw [List.map_append, state.keys, List.range_succ, List.map_append]
      rfl

/-- The last leaf stays last when a leaf is put in front of it. -/
theorem lastKey_insertIdx {leaves : List Leaf} (leaf : Leaf) (nonempty : leaves ≠ []) :
    lastKey (leaves.insertIdx (leaves.length - 1) leaf) = lastKey leaves := by
  obtain ⟨front, last, rfl⟩ : ∃ front last, leaves = front ++ [last] :=
    ⟨_, _, (List.dropLast_append_getLast nonempty).symm⟩
  rw [List.length_append, List.length_singleton, Nat.add_sub_cancel, insertIdx_between, lastKey,
    lastKey, List.getLast?_append_of_ne_nil _ (List.cons_ne_nil _ _), List.getLast?_cons_cons,
    List.getLast?_concat]
  rfl

/-- In a split tree a key above both maxima is not found. -/
theorem SplitTree.search_above {root childA childB key : Nat} {leavesA leavesB : List Leaf}
    (tree : SplitTree s root childA childB leavesA leavesB) (aboveA : lastKey leavesA < key)
    (aboveB : lastKey leavesB < key) : btreeSearch s root key = some 0 := by
  obtain ⟨⟨node, load, count, holds⟩, -, -⟩ := tree
  obtain ⟨-, -, none⟩ := SplitTree.children holds
  have keyA : node.keys 0 = lastKey leavesA := (Option.some.inj (holds.keys 0 (by omega))).symm
  have keyB : node.keys 1 = lastKey leavesB := (Option.some.inj (holds.keys 1 (by omega))).symm
  have index : firstIndex (fun i => key ≤ node.keys i) node.numKeys = 2 := by
    apply firstIndex_eq (by omega)
    · intro i below
      interval_cases i
      · rw [keyA]
        exact decide_eq_false (by omega)
      · rw [keyB]
        exact decide_eq_false (by omega)
    · intro below
      omega
  simp [btreeSearch, Store.walkFuel, btreeSearchFrom, btreeNodeRead_of_load load, holds.isLeaf, index,
    none]

/-- After 251 ascending keys the next one splits the root and is put in front of the extra child of
the second node, whose maximum stays 251: the search does not find 252. -/
theorem btreeInsert_ascending_lost {root : Nat} {node : BTreeNode} {leaves : List Leaf}
    (state : Ascended s root (maxKeys + 1) node leaves) (free : 3 ≤ s.freeCount) :
    ∃ s', btreeInsert s root (maxKeys + 2) (maxKeys + 2) 0 = some s' ∧
      btreeSearch s' root (maxKeys + 2) = some 0 := by
  have full : node.numKeys = maxKeys := by
    have numKeys := state.numKeys
    omega
  have length : leaves.length = maxKeys + 1 := by
    have lengths := congrArg List.length state.keys
    rwa [List.length_map, List.length_map, List.length_range] at lengths
  have bound : ∀ leaf ∈ leaves, leaf.key < maxKeys + 2 := by
    intro leaf inside
    have isKey : leaf.key ∈ (List.range (maxKeys + 1)).map (· + 1) :=
      state.keys ▸ List.mem_map_of_mem inside
    obtain ⟨i, below, same⟩ := List.mem_map.mp isKey
    have below' := List.mem_range.mp below
    omega
  have inside : ¬ (node.keys (maxKeys - 1) < (keyInsertion (maxKeys + 2)).key ∧
      node.children maxKeys = 0) := by
    rintro ⟨-, empty⟩
    have short := (state.stored.full full empty).1
    omega
  obtain ⟨page, childA, childB, s3, owned, tree, countB, fresh, run⟩ :=
    btreeInsert_flat_split state.owned state.stored (keyInsertion (maxKeys + 2)) free full inside
  have half : minKeys + minKeys = maxKeys := rfl
  have small : minKeys = 125 := rfl
  have lengthA : (firstHalf leaves).length = minKeys + 1 := by
    rw [firstHalf, List.length_take]
    omega
  have lengthB : (secondHalf leaves).length = minKeys := by
    rw [secondHalf, List.length_drop]
    omega
  have nonemptyA : firstHalf leaves ≠ [] := List.ne_nil_of_length_pos (by omega)
  have nonemptyB : secondHalf leaves ≠ [] := List.ne_nil_of_length_pos (by omega)
  have boundA := lastKey_lt nonemptyA fun leaf isLeaf => bound leaf (List.mem_of_mem_take isLeaf)
  have smaller : ∀ leaf ∈ secondHalf leaves, leaf.key < maxKeys + 2 :=
    fun leaf isLeaf => bound leaf (List.mem_of_mem_drop isLeaf)
  have boundB := lastKey_lt nonemptyB smaller
  obtain ⟨nonzeroA, nonzeroB, -, -⟩ := owned.splitNonzero
  have search := tree.insertionSearch nonemptyA nonzeroA nonzeroB owned.splitDistinct.rootNodes.1
    (maxKeys + 2)
  rw [if_neg (by omega)] at search
  obtain ⟨-, -, ⟨nodeB, storedB⟩⟩ := id tree
  have numKeysB := countB nodeB storedB.load
  have owned' := owned
  rw [← List.append_nil (secondHalf leaves)] at owned' tree storedB
  obtain ⟨s', insert, -, tree'⟩ := insertInto_right owned' tree storedB fresh (by omega)
    ⟨smaller, by simp⟩
  rw [List.append_nil, show min (secondHalf leaves).length nodeB.numKeys =
    (secondHalf leaves).length - 1 by omega] at tree'
  refine ⟨s', (run childB nodeB search storedB.load).trans insert, ?_⟩
  apply tree'.search_above boundA
  rw [lastKey_insertIdx _ nonemptyB]
  exact boundB

/-- A new root on a fresh image. -/
theorem freeStore_create {totalBlocks : Nat} (large : 3 ≤ totalBlocks)
    (small : totalBlocks ≤ usableBlockSize) :
    ∃ root s node, btreeNodeCreate (freeStore totalBlocks) false = some (root, s) ∧ Owned s [root] ∧
      node.numKeys = 0 ∧ OverLeaves s root 0 node [] ∧ s.freeCount + 3 = totalBlocks := by
  obtain ⟨formatted, count⟩ := freeStore_formatted (by omega) small
  obtain ⟨page, type, s, new, -⟩ := btreeNodeNew_spec formatted (by omega) false
  have create : btreeNodeCreate (freeStore totalBlocks) false = some (page, s) := by
    unfold btreeNodeNew at new
    obtain ⟨⟨root, after⟩, create, rest⟩ := Option.bind_eq_some_iff.mp new
    dsimp only at rest
    split at rest
    · cases rest
    · rw [create, rest]
  obtain ⟨owned, ⟨node, empty, stored⟩, free⟩ := btreeNodeCreate_flat formatted (by omega) create
  exact ⟨page, s, node, create, owned, empty, stored, by omega⟩

/-- A root over leaves with room for all keys of a run permits the run, in every order of the keys. -/
theorem insertRunPermits_flat {root : Nat} {node : BTreeNode} {leaves : List Leaf}
    (insertions : List Insertion) (owned : Owned s (root :: leaves.map Leaf.block))
    (stored : OverLeaves s root 0 node leaves) (increasing : Increasing leaves)
    (numKeys : node.numKeys = leaves.length)
    (distinct : (leaves.map Leaf.key ++ insertions.map Insertion.key).Nodup)
    (small : leaves.length + insertions.length ≤ maxKeys)
    (free : insertions.length ≤ s.freeCount) : InsertRunPermits s root insertions := by
  induction insertions generalizing s node leaves with
  | nil => trivial
  | cons first rest ih =>
    rw [List.length_cons] at small free
    rw [List.map_cons, List.nodup_middle, List.nodup_cons, List.mem_append, not_or] at distinct
    obtain ⟨⟨notIn, notLater⟩, restDistinct⟩ := distinct
    have none : node.children node.numKeys = 0 := by
      rw [stored.slot node.numKeys (by omega), numKeys, List.getElem?_eq_none (Nat.le_refl _)]
      rfl
    refine ⟨⟨root, node, _, btreeInsertionSearch_flat _ stored, stored.load,
      btreeFindMaximum_overLeaves stored, Or.inl ⟨by omega, by omega, Or.inl none⟩⟩, ?_⟩
    intro s' insert
    obtain ⟨page, s1, changed, before, after, rfl, split, insert', owned', stored', enlarged, free',
        -⟩ := btreeInsert_flat_room owned stored increasing first
      (fun leaf inside same => notIn (same ▸ List.mem_map_of_mem inside)) (by omega) (by omega)
      (Or.inl none)
    obtain rfl := Option.some.inj (insert'.symm.trans insert)
    have grown : (before ++ first.leaf page :: after).length = (before ++ after).length + 1 := by
      rw [List.length_append, List.length_cons, List.length_append]
      omega
    have keys : ((before ++ first.leaf page :: after).map Leaf.key).Perm
        (first.key :: (before ++ after).map Leaf.key) := by
      have moved : (before ++ first.leaf page :: after).Perm (first.leaf page :: (before ++ after)) :=
        List.perm_middle
      exact moved.map Leaf.key
    apply ih owned' stored' (increasing_insert increasing split)
    · rw [enlarged.numKeys, numKeys, grown]
    · apply (keys.symm.append_right (rest.map Insertion.key)).nodup
      rw [List.cons_append, List.nodup_cons, List.mem_append, not_or]
      exact ⟨⟨notIn, notLater⟩, restDistinct⟩
    · rw [grown]
      omega
    · omega

/-- Five keys out of order on a new root: all of them are found, and nothing else. -/
theorem btreeInsertRun_inserted_five :
    let insertions : List Insertion := [⟨30, 3, 1⟩, ⟨10, 1, 2⟩, ⟨50, 5, 1⟩, ⟨20, 2, 2⟩, ⟨40, 4, 1⟩]
    ∃ root s s', btreeNodeCreate (freeStore 8) false = some (root, s) ∧
      btreeInsertRun s root insertions = some s' ∧ Inserted s' root insertions := by
  intro insertions
  have fits : 8 ≤ usableBlockSize := by decide
  obtain ⟨formatted, count⟩ := freeStore_formatted (by omega) fits
  obtain ⟨root, s, node, create, owned, empty, stored, free⟩ := freeStore_create (by omega) fits
  have distinct : (insertions.map Insertion.key).Nodup := by decide
  have permits : InsertRunPermits s root insertions := by
    apply insertRunPermits_flat insertions owned stored List.Pairwise.nil empty distinct (by decide)
    show 5 ≤ s.freeCount
    omega
  obtain ⟨s', run, inserted⟩ := btreeInsertRun_inserted formatted (by omega) create insertions
    distinct permits
  exact ⟨root, s, s', create, run, inserted⟩

/-- The keys 1 to 252 in ascending order: the last one is not found. -/
theorem btreeInsertRun_ascending_false :
    ∃ root s s', btreeNodeCreate (freeStore 1000) false = some (root, s) ∧
      ((ascending 252).map Insertion.key).Nodup ∧
      btreeInsertRun s root (ascending 252) = some s' ∧ btreeSearch s' root 252 = some 0 ∧
      ¬ Inserted s' root (ascending 252) := by
  have fits : 1000 ≤ usableBlockSize := by decide
  have max : maxKeys = 250 := rfl
  obtain ⟨root, s, node, create, owned, empty, stored, free⟩ := freeStore_create (by omega) fits
  obtain ⟨s1, node1, leaves, run, state, free1⟩ :=
    btreeInsertRun_ascending owned empty stored 251 (by omega) (by omega)
  obtain ⟨s', insert, lost⟩ := btreeInsert_ascending_lost state (by omega)
  have keys : (ascending 252).map Insertion.key = (List.range 252).map (· + 1) := by
    rw [ascending, List.map_map]
    rfl
  refine ⟨root, s, s', create, ?_, ?_, lost, ?_⟩
  · rw [keys]
    exact List.nodup_range.map Nat.succ_injective
  · unfold btreeInsertRun ascending at run ⊢
    have insert' : btreeInsert s1 root (251 + 1) (251 + 1) 0 = some s' := insert
    rw [show 252 = 251 + 1 by rfl, List.range_succ, List.map_append, List.foldlM_append, run]
    simp only [List.map_cons, List.map_nil, List.foldlM_cons, List.foldlM_nil, keyInsertion, insert',
      Option.bind_eq_bind, Option.bind_some, Option.pure_def]
  · rintro ⟨found, -⟩
    have inside : keyInsertion 252 ∈ ascending 252 :=
      List.mem_map.mpr ⟨251, List.mem_range.mpr (by omega), rfl⟩
    obtain ⟨block, leaf, search, nonzero, -⟩ := found _ inside
    have search' : btreeSearch s' root 252 = some block := search
    have lost' : btreeSearch s' root 252 = some 0 := lost
    rw [lost'] at search'
    exact nonzero (Option.some.inj search').symm

end

end Nbtrfs
