import Nbtrfs.BTree.Insert

/-!
# A root over leaves as a finite map

Runs of `btree_insert`, `btree_delete` and `btree_search` on one root. While at most `maxKeys`
leaves are live, the leaves stay the children of the root in the order of their keys, one key for
each, and a search finds the live entries and nothing else.
-/

namespace Nbtrfs

section

variable {s s' : Store}

/-- Freeing a block that is neither block 0 nor a bitmap page keeps the format. -/
theorem BitChange.formatted_freed {pnum : Nat} (change : BitChange s pnum false s')
    (formatted : s.Formatted) (nonzero : pnum ≠ 0)
    (noPage : ∀ other < s.totalBlocks, bitmapPage other ≠ pnum) : s'.Formatted where
  bitmapped := change.bitmapped formatted.bitmapped
  nonempty := by
    rw [change.totalBlocks]
    exact formatted.nonempty
  zero := by
    rw [change.bits, if_neg (Ne.symm nonzero)]
    exact formatted.zero
  pages other inside := by
    rw [change.totalBlocks] at inside
    rw [change.bits, if_neg (noPage other inside)]
    exact formatted.pages other inside

/-- The other owned blocks stay owned when one is freed. -/
theorem Owned.freed {blocks rest : List Nat} {block : Nat} (owned : Owned s blocks)
    (perm : blocks.Perm (block :: rest)) (noBitmap : ∀ words, s.mem block ≠ .bitmap words)
    (change : BitChange s block false s') : Owned s' rest := by
  have owned' := owned.perm perm
  obtain ⟨notRest, restDistinct⟩ := List.nodup_cons.mp owned'.distinct
  have noPage := owned.formatted.not_page_of_tag noBitmap
  refine ⟨change.formatted_freed owned.formatted (owned'.nonzero block List.mem_cons_self) noPage,
    restDistinct, ?_, ?_, ?_⟩
  · intro other inside
    rw [change.totalBlocks]
    exact owned'.inside other (List.mem_cons_of_mem block inside)
  · exact fun other inside => owned'.nonzero other (List.mem_cons_of_mem block inside)
  · intro other inside
    have distinct : other ≠ block := by
      rintro rfl
      exact notRest inside
    rw [change.bits, if_neg distinct]
    exact owned'.allocated other (List.mem_cons_of_mem block inside)

/-- A root over its live leaves, one key for each, without parent and siblings. -/
structure FlatRoot (s : Store) (root value type : Nat) (leaves : List Leaf) (node : BTreeNode) :
    Prop where
  /-- The blocks are owned. -/
  owned : Owned s (root :: leaves.map Leaf.block)
  /-- The root holds the leaves. -/
  stored : OverLeaves s root 0 node leaves
  /-- The keys of the leaves increase. -/
  increasing : Increasing leaves
  /-- There is one key for each leaf. -/
  numKeys : node.numKeys = leaves.length
  /-- The root's value. -/
  value : node.value = value
  /-- The root's type. -/
  type : node.type = type
  /-- There is no left sibling. -/
  leftSibling : node.leftSibling = 0
  /-- There is no right sibling. -/
  rightSibling : node.rightSibling = 0
  /-- Block 0 is no B-tree node. -/
  noNode : btreeNodeLoad s 0 = none

variable {root value type : Nat} {leaves : List Leaf} {node : BTreeNode}

/-- A root over leaves is a grown tree. -/
theorem FlatRoot.grown (flat : FlatRoot s root value type leaves node) :
    GrownTree s root leaves :=
  ⟨flat.increasing, Or.inl ⟨flat.owned, node, flat.stored⟩⟩

/-- A root over leaves is a stored tree of depth 1. -/
theorem FlatRoot.tree (flat : FlatRoot s root value type leaves node) :
    StoredTree s (flatTree root leaves) where
  formatted := flat.owned.formatted
  stores := stores_flatTree.mpr ⟨node, flat.stored⟩
  increasing := by
    rw [flatTree_leaves]
    exact flat.increasing
  distinct := by
    rw [flatTree_blocks]
    exact flat.owned.distinct
  noNode := flat.noNode
  siblings other load := by
    have load' : btreeNodeLoad s root = some other := load
    obtain rfl := Option.some.inj (flat.stored.load.symm.trans load')
    exact ⟨flat.leftSibling, flat.rightSibling⟩

/-- A new leaf beside blocks is a new leaf beside some of them. -/
theorem LeafCreated.part {blocks part : List Nat} {insertion : Insertion} {page : Nat}
    {s1 s2 : Store} (created : LeafCreated s blocks insertion page s1 s2) (inside : part ⊆ blocks)
    (distinct : part.Nodup) : LeafCreated s part insertion page s1 s2 where
  new := created.new
  modify := created.modify
  leaf := created.leaf
  owned := by
    have owned := created.owned
    have within : page :: part ⊆ page :: blocks := List.cons_subset_cons page inside
    refine ⟨owned.formatted, ?_, fun block isBlock => owned.inside block (within isBlock),
      fun block isBlock => owned.nonzero block (within isBlock),
      fun block isBlock => owned.allocated block (within isBlock)⟩
    refine List.nodup_cons.mpr ⟨fun isPart => ?_, distinct⟩
    exact (List.nodup_cons.mp owned.distinct).1 (inside isPart)
  kept block isBlock := created.kept block (inside isBlock)
  other := created.other
  freeCount := created.freeCount

/-- An insertion into a root with room, beside other blocks that are owned. -/
theorem FlatRoot.insertBeside {root value type : Nat} {leaves : List Leaf} {node : BTreeNode}
    {blocks : List Nat} (flat : FlatRoot s root value type leaves node) (owned : Owned s blocks)
    (inside : root :: leaves.map Leaf.block ⊆ blocks) {insertion : Insertion}
    (absent : ∀ leaf ∈ leaves, leaf.key ≠ insertion.key) (free : 1 ≤ s.freeCount)
    (room : leaves.length < maxKeys) :
    ∃ s' page grown changed, btreeInsert s root insertion.key insertion.value insertion.type =
        some s' ∧ FlatRoot s' root value type grown changed ∧
      grown.Perm (insertion.leaf page :: leaves) ∧ Owned s' (page :: blocks) ∧
      ∀ block, block ≠ page → block ≠ root → btreeNodeLoad s' block = btreeNodeLoad s block := by
  have empty : node.children node.numKeys = 0 := by
    rw [flat.stored.slot _ flat.stored.counts.2.2, List.getElem?_eq_none (by rw [flat.numKeys])]
    rfl
  obtain ⟨page, s1, s2, whole⟩ := leafCreated owned free insertion
  have created := whole.part inside flat.owned.distinct
  obtain ⟨stored2, search⟩ := created.flat flat.stored
  obtain ⟨before, after, rfl, split⟩ := exists_splitAt insertion.key flat.increasing absent
  have hasRoom : node.numKeys < maxKeys := by
    rw [flat.numKeys]
    exact room
  obtain ⟨s3, changed, run, changes, owned', stored', enlarged⟩ := insertInto_flat created.owned
    stored2 created.leaf hasRoom split (stored2.place split (Or.inl empty))
  have kept : ∀ block, block ≠ page → block ≠ root →
      btreeNodeLoad s3 block = btreeNodeLoad s block := by
    intro block notPage notRoot
    have outside : block ∉ [page, root] :=
      List.not_mem_cons_of_ne_of_not_mem notPage fun isRoot => notRoot (List.mem_singleton.mp isRoot)
    exact (changes.other block outside).trans (created.other block notPage)
  have pageOwned : page ∈ root :: (before ++ insertion.leaf page :: after).map Leaf.block := by
    rw [List.map_append]
    exact List.mem_cons_of_mem root (List.mem_append_right _ List.mem_cons_self)
  refine ⟨s3, page, before ++ insertion.leaf page :: after, changed, ?_, ?_, List.perm_middle,
    whole.owned.sameBitmap changes.bitmap, kept⟩
  · rw [btreeInsert_room created search stored2.load hasRoom]
    exact run
  refine ⟨owned', stored', increasing_insert flat.increasing split, ?_,
    enlarged.head.value.trans flat.value, enlarged.head.type.trans flat.type,
    enlarged.head.leftSibling.trans flat.leftSibling,
    enlarged.head.rightSibling.trans flat.rightSibling, ?_⟩
  · rw [enlarged.numKeys, flat.numKeys]
    simp only [List.length_append, List.length_cons]
    rfl
  · rw [kept 0 (Ne.symm (owned'.nonzero page pageOwned))
      (Ne.symm (owned'.nonzero root List.mem_cons_self))]
    exact flat.noNode

/-- An insertion of a new key while there is room. -/
theorem FlatRoot.insert (flat : FlatRoot s root value type leaves node) (insertion : Insertion)
    (absent : ∀ leaf ∈ leaves, leaf.key ≠ insertion.key) (free : 1 ≤ s.freeCount)
    (room : leaves.length < maxKeys) :
    ∃ s' page grown changed, btreeInsert s root insertion.key insertion.value insertion.type =
        some s' ∧ FlatRoot s' root value type grown changed ∧
      grown.Perm (insertion.leaf page :: leaves) := by
  obtain ⟨s', page, grown, changed, run, flat', perm, -⟩ :=
    flat.insertBeside flat.owned (List.Subset.refl _) absent free room
  exact ⟨s', page, grown, changed, run, flat', perm⟩

/-- A deletion of the key of a leaf. -/
theorem FlatRoot.delete (flat : FlatRoot s root value type leaves node) {leaf : Leaf}
    (inside : leaf ∈ leaves) :
    ∃ s' place dropped, leaves[place]? = some leaf ∧
      btreeDelete s root leaf.key = some (leaf.block, s') ∧
      FlatRoot s' root value type (leaves.eraseIdx place) dropped ∧
      ∃ s1, NodeChange s root dropped s1 ∧ BitChange s1 leaf.block false s' := by
  have keyed : 1 ≤ node.numKeys := by
    rw [flat.numKeys]
    exact List.length_pos_of_mem inside
  obtain ⟨place, dropped, s1, s', deleted⟩ :=
    btreeDelete_dropped flat.tree inside flat.stored.load keyed
  obtain ⟨bound, atPlace⟩ := List.getElem?_eq_some_iff.mp deleted.atPlace
  obtain ⟨node', stored⟩ := stores_flatTree.mp deleted.stores
  obtain rfl := Option.some.inj (deleted.load.symm.trans stored.load)
  have notRoot := (List.nodup_cons.mp flat.owned.distinct).1
  have leafBlock : leaf.block ∈ leaves.map Leaf.block := List.mem_map_of_mem inside
  obtain ⟨leafNonzero, leafNode, loadLeaf, -⟩ := flat.stored.below leaf inside
  have apart : leaf.block ≠ root := by
    rintro same
    exact notRoot (same ▸ leafBlock)
  have noBitmap : ∀ words, s1.mem leaf.block ≠ .bitmap words := by
    intro words page
    have load1 : btreeNodeLoad s1 leaf.block = some leafNode :=
      (deleted.change.other apart).trans loadLeaf
    have tag := (load_eq_some.mp load1).2
    rw [page] at tag
    cases tag
  have perm : (root :: leaves.map Leaf.block).Perm
      (leaf.block :: root :: (leaves.eraseIdx place).map Leaf.block) := by
    have moved : leaves.Perm (leaf :: leaves.eraseIdx place) := by
      have whole := (List.getElem_cons_eraseIdx_perm bound).symm
      rw [atPlace] at whole
      exact whole
    exact ((moved.map Leaf.block).cons root).trans (List.Perm.swap leaf.block root _)
  have owned1 := flat.owned.sameBitmap deleted.change.sameBitmap
  refine ⟨s', place, dropped, deleted.atPlace, deleted.run, ?_, s1, deleted.change, deleted.freed⟩
  refine ⟨owned1.freed perm noBitmap deleted.freed, stored, ?_, ?_,
    deleted.head.value.trans flat.value, deleted.head.type.trans flat.type,
    deleted.head.leftSibling.trans flat.leftSibling,
    deleted.head.rightSibling.trans flat.rightSibling, ?_⟩
  · have increasing := flat.increasing
    unfold Increasing at increasing ⊢
    exact increasing.sublist ((List.eraseIdx_sublist leaves place).map Leaf.key)
  · have count := deleted.numKeys
    rw [flat.numKeys] at count
    rw [List.length_eraseIdx_of_lt bound]
    omega
  · rw [deleted.other 0 (Ne.symm (flat.owned.nonzero root List.mem_cons_self))]
    exact flat.noNode

end

/-- A call on one root. -/
inductive TreeCall where
  /-- `btree_insert`. -/
  | insert (insertion : Insertion)
  /-- `btree_delete`. -/
  | delete (key : Nat)
  /-- `btree_search`. -/
  | search (key : Nat)

/-- One call. -/
def treeStep (root : Nat) (s : Store) : TreeCall → Option Store
  | .insert insertion => btreeInsert s root insertion.key insertion.value insertion.type
  | .delete key => (btreeDelete s root key).map Prod.snd
  | .search key => (btreeSearch s root key).map fun _ => s

/-- A run of calls. -/
def treeRun (root : Nat) (s : Store) (calls : List TreeCall) : Option Store :=
  calls.foldlM (treeStep root) s

/-- The live entries after a call. -/
def liveAfter (live : List Insertion) : TreeCall → List Insertion
  | .insert insertion => insertion :: live
  | .delete key => live.filter fun insertion => insertion.key ≠ key
  | .search _ => live

/-- The live entries after a run. -/
def liveRun (live : List Insertion) (calls : List TreeCall) : List Insertion :=
  calls.foldl liveAfter live

/-- An insertion is of a key that is not live, finds a free block and room for one leaf more. -/
def TreePermits (s : Store) (live : List Insertion) : TreeCall → Prop
  | .insert insertion =>
    insertion.key ∉ live.map Insertion.key ∧ live.length < maxKeys ∧ 1 ≤ s.freeCount
  | _ => True

/-- Every call of a run is permitted in the state it is made in. -/
def TreeRunPermits (root : Nat) : Store → List Insertion → List TreeCall → Prop
  | _, _, [] => True
  | s, live, call :: calls => TreePermits s live call ∧
      ∀ s', treeStep root s call = some s' → TreeRunPermits root s' (liveAfter live call) calls

/-- Every insertion of a run is of a key that is not live and finds room for one leaf more. -/
def CallsFit : List Insertion → List TreeCall → Prop
  | _, [] => True
  | live, call :: calls => (match call with
      | .insert insertion =>
        insertion.key ∉ live.map Insertion.key ∧ live.length < maxKeys
      | _ => True) ∧ CallsFit (liveAfter live call) calls

section

variable {s : Store} {root value type : Nat} {leaves : List Leaf} {node : BTreeNode}

/-- The leaves without the one of a key. -/
theorem FlatRoot.eraseIdx_perm (flat : FlatRoot s root value type leaves node) {place : Nat}
    {leaf : Leaf} (atPlace : leaves[place]? = some leaf) :
    (leaves.eraseIdx place).Perm (leaves.filter fun other => other.key ≠ leaf.key) := by
  have keys : (leaves.map Leaf.key).Nodup := flat.increasing.imp Nat.ne_of_lt
  have distinct : leaves.Nodup := List.Nodup.of_map _ keys
  apply (List.perm_ext_iff_of_nodup (distinct.sublist (List.eraseIdx_sublist leaves place))
    (distinct.filter _)).mpr
  intro other
  rw [mem_eraseIdx_leaf distinct atPlace, List.mem_filter, decide_eq_true_eq]
  have here := List.mem_of_getElem? atPlace
  constructor
  · rintro ⟨inside, differs⟩
    exact ⟨inside, fun same => differs (List.inj_on_of_nodup_map keys inside here same)⟩
  · rintro ⟨inside, differs⟩
    exact ⟨inside, fun same => differs (by rw [same])⟩

/-- A leaf has the key of a live entry. -/
theorem live_key {live : List Insertion}
    (perm : (entries leaves).Perm (live.map Insertion.entry)) (key : Nat) :
    key ∈ live.map Insertion.key ↔ key ∈ leaves.map Leaf.key := by
  have keys : (leaves.map Leaf.key).Perm (live.map Insertion.key) := by
    have first := perm.map fun entry : Nat × Nat × Nat => entry.1
    unfold entries at first
    rw [List.map_map, List.map_map] at first
    exact first
  exact keys.symm.mem_iff

/-- One permitted call keeps a root over the leaves of the live entries. -/
theorem FlatRoot.step (flat : FlatRoot s root value type leaves node) {live : List Insertion}
    (perm : (entries leaves).Perm (live.map Insertion.entry)) (call : TreeCall)
    (permits : TreePermits s live call) :
    ∃ s' kept changed, treeStep root s call = some s' ∧
      FlatRoot s' root value type kept changed ∧
      (entries kept).Perm ((liveAfter live call).map Insertion.entry) := by
  cases call with
  | insert insertion =>
    obtain ⟨notLive, room, free⟩ := permits
    rw [live_key perm] at notLive
    have absent : ∀ leaf ∈ leaves, leaf.key ≠ insertion.key :=
      fun leaf inside same => notLive (same ▸ List.mem_map_of_mem inside)
    have count := perm.length_eq
    unfold entries at count
    rw [List.length_map, List.length_map] at count
    obtain ⟨s', page, grown, changed, run, flat', perm'⟩ :=
      flat.insert insertion absent free (by omega)
    refine ⟨s', grown, changed, run, flat', ?_⟩
    have first : (entries grown).Perm (insertion.entry :: entries leaves) :=
      perm'.map fun leaf : Leaf => (leaf.key, leaf.value, leaf.type)
    exact first.trans (perm.cons insertion.entry)
  | delete key =>
    by_cases isKey : key ∈ leaves.map Leaf.key
    · obtain ⟨leaf, inside, rfl⟩ := List.mem_map.mp isKey
      obtain ⟨s', place, dropped, atPlace, run, flat', -⟩ := flat.delete inside
      refine ⟨s', leaves.eraseIdx place, dropped, ?_, flat', ?_⟩
      · rw [treeStep, run]
        rfl
      · have kept := (flat.eraseIdx_perm atPlace).map
          fun other : Leaf => (other.key, other.value, other.type)
        have filtered := perm.filter fun entry => entry.1 ≠ leaf.key
        unfold entries at filtered
        rw [List.filter_map, List.filter_map] at filtered
        exact kept.trans filtered
    · have absent : ∀ leaf ∈ leaves, leaf.key ≠ key :=
        fun leaf inside same => isKey (same ▸ List.mem_map_of_mem inside)
      have search := flat.grown.search_absent absent
      refine ⟨s, leaves, node, ?_, flat, ?_⟩
      · simp [treeStep, btreeDelete, search]
      · have all : live.filter (fun insertion => insertion.key ≠ key) = live := by
          rw [List.filter_eq_self]
          intro insertion inside
          rw [decide_eq_true_eq]
          rintro rfl
          exact isKey ((live_key perm _).mp (List.mem_map_of_mem inside))
        rw [liveAfter, all]
        exact perm
  | search key =>
    obtain ⟨block, search⟩ : ∃ block, btreeSearch s root key = some block := by
      by_cases isKey : key ∈ leaves.map Leaf.key
      · obtain ⟨leaf, inside, rfl⟩ := List.mem_map.mp isKey
        exact ⟨leaf.block, (flat.grown.search inside).1⟩
      · exact ⟨0, flat.grown.search_absent fun leaf inside same =>
          isKey (same ▸ List.mem_map_of_mem inside)⟩
    refine ⟨s, leaves, node, ?_, flat, perm⟩
    rw [treeStep, search]
    rfl

/-- A call takes one free block at most. -/
theorem FlatRoot.step_freeCount (flat : FlatRoot s root value type leaves node)
    {live : List Insertion} (perm : (entries leaves).Perm (live.map Insertion.entry))
    {call : TreeCall} (permits : TreePermits s live call) {s' : Store}
    (step : treeStep root s call = some s') : s.freeCount ≤ s'.freeCount + 1 := by
  cases call with
  | insert insertion =>
    obtain ⟨notLive, room, free⟩ := permits
    rw [live_key perm] at notLive
    have count := perm.length_eq
    unfold entries at count
    rw [List.length_map, List.length_map] at count
    have numKeys := flat.numKeys
    have none : node.children node.numKeys = 0 := by
      rw [flat.stored.slot _ flat.stored.counts.2.2, List.getElem?_eq_none (by rw [numKeys])]
      rfl
    obtain ⟨page, s1, changed, before, after, -, -, run, -, -, -, freeCount, -⟩ :=
      btreeInsert_flat_room flat.owned flat.stored flat.increasing insertion
        (fun leaf inside same => notLive (same ▸ List.mem_map_of_mem inside)) free (by omega)
        (Or.inl none)
    obtain rfl := Option.some.inj (run.symm.trans step)
    exact freeCount.ge
  | delete key =>
    by_cases isKey : key ∈ leaves.map Leaf.key
    · obtain ⟨leaf, inside, rfl⟩ := List.mem_map.mp isKey
      obtain ⟨s2, place, dropped, -, run, -, s1, change, freed⟩ := flat.delete inside
      rw [treeStep, run] at step
      obtain rfl : s2 = s' := Option.some.inj step
      have kept := (change.sameBitmap.samePages flat.owned.formatted.bitmapped).freeCount
      have more : s1.freeCount ≤ s2.freeCount := by
        apply Finset.card_le_card
        intro other free
        rw [mem_freeSet] at free ⊢
        rw [freed.totalBlocks, freed.bits]
        refine ⟨free.1, ?_⟩
        split
        · rfl
        · exact free.2
      omega
    · have absent : ∀ leaf ∈ leaves, leaf.key ≠ key :=
        fun leaf inside same => isKey (same ▸ List.mem_map_of_mem inside)
      have search := flat.grown.search_absent absent
      have run : treeStep root s (.delete key) = some s := by
        simp [treeStep, btreeDelete, search]
      obtain rfl := Option.some.inj (run.symm.trans step)
      exact Nat.le_succ _
  | search key =>
    obtain ⟨block, -, same⟩ := Option.map_eq_some_iff.mp step
    rw [same]
    exact Nat.le_succ _

/-- With a free block for each call, a run is permitted if it inserts no live key and the live keys
fit into one node. -/
theorem FlatRoot.runPermits (flat : FlatRoot s root value type leaves node) {live : List Insertion}
    (perm : (entries leaves).Perm (live.map Insertion.entry)) (calls : List TreeCall)
    (fresh : CallsFit live calls) (free : calls.length ≤ s.freeCount) :
    TreeRunPermits root s live calls := by
  induction calls generalizing s leaves node live with
  | nil => trivial
  | cons call calls ih =>
    rw [List.length_cons] at free
    have here : TreePermits s live call := by
      cases call with
      | insert insertion => exact ⟨fresh.1.1, fresh.1.2, by omega⟩
      | delete key => trivial
      | search key => trivial
    refine ⟨here, fun s' step => ?_⟩
    obtain ⟨s1, kept, changed, step', flat', perm'⟩ := flat.step perm call here
    obtain rfl := Option.some.inj (step'.symm.trans step)
    have taken := flat.step_freeCount perm here step
    exact ih flat' perm' fresh.2 (by omega)

/-- A permitted run keeps a root over the leaves of the live entries. -/
theorem FlatRoot.run (flat : FlatRoot s root value type leaves node) {live : List Insertion}
    (perm : (entries leaves).Perm (live.map Insertion.entry)) (calls : List TreeCall)
    (permits : TreeRunPermits root s live calls) :
    ∃ s' kept changed, treeRun root s calls = some s' ∧
      FlatRoot s' root value type kept changed ∧
      (entries kept).Perm ((liveRun live calls).map Insertion.entry) := by
  induction calls generalizing s leaves node live with
  | nil => exact ⟨s, leaves, node, rfl, flat, perm⟩
  | cons call calls ih =>
    obtain ⟨here, later⟩ := permits
    obtain ⟨middle, kept, changed, step, flat', perm'⟩ := flat.step perm call here
    obtain ⟨s', last, final, run, flat'', perm''⟩ := ih flat' perm' (later middle step)
    refine ⟨s', last, final, ?_, flat'', perm''⟩
    unfold treeRun at run ⊢
    rw [List.foldlM_cons, step]
    exact run

/-- A root over leaves is a finite map: after every permitted run on an empty root, each live entry
is found with its value and type and no other key is found, the leaves stand in the order of their
keys, one key for each, and the root keeps its block, value and type. -/
theorem treeRun_map (empty : FlatRoot s root value type [] node) (calls : List TreeCall)
    (permits : TreeRunPermits root s [] calls) :
    ∃ s' leaves changed, treeRun root s calls = some s' ∧
      FlatRoot s' root value type leaves changed ∧
      leaves.length = (liveRun [] calls).length ∧ Inserted s' root (liveRun [] calls) := by
  obtain ⟨s', leaves, changed, run, flat, perm⟩ :=
    @FlatRoot.run s root value type [] node empty [] (List.Perm.refl _) calls permits
  refine ⟨s', leaves, changed, run, flat, ?_, flat.grown.inserted perm⟩
  have count := perm.length_eq
  unfold entries at count
  rw [List.length_map, List.length_map] at count
  exact count

/-- A root that `btree_node_create` makes is empty. -/
theorem btreeNodeCreate_flatRoot {s0 : Store} (formatted : s0.Formatted) (free : 1 ≤ s0.freeCount)
    (noNode : btreeNodeLoad s0 0 = none) (create : btreeNodeCreate s0 false = some (root, s)) :
    ∃ type, FlatRoot s root 0 type [] (freshNode root false type) := by
  obtain ⟨type, created⟩ := btreeNodeCreate_created formatted free create
  have none : Owned s0 [] := ⟨formatted, List.nodup_nil, by simp, by simp, by simp⟩
  refine ⟨type, none.created created, created.overLeaves, List.Pairwise.nil, rfl, rfl, rfl, rfl, rfl,
    ?_⟩
  rw [created.other 0 (Ne.symm created.nonzero)]
  exact noNode

/-- A run on a new root: three keys out of order, the deletion of one of them and of a key that was
never inserted, and two keys more, one of them the deleted one with another value. -/
def mixedCalls : List TreeCall :=
  [.insert ⟨30, 3, 1⟩, .insert ⟨10, 1, 2⟩, .insert ⟨20, 2, 1⟩, .delete 10, .delete 7, .search 20,
    .insert ⟨15, 5, 2⟩, .insert ⟨10, 9, 1⟩, .delete 30]

/-- After the run three entries are live, the deleted key with its new value. -/
theorem treeRun_map_mixed :
    ∃ root s type s' leaves changed, btreeNodeCreate (freeStore 12) false = some (root, s) ∧
      treeRun root s mixedCalls = some s' ∧ FlatRoot s' root 0 type leaves changed ∧
      leaves.length = 3 ∧ Inserted s' root [⟨10, 9, 1⟩, ⟨15, 5, 2⟩, ⟨20, 2, 1⟩] := by
  have fits : 12 ≤ usableBlockSize := by decide
  obtain ⟨formatted, count⟩ := freeStore_formatted (by omega) fits
  obtain ⟨root, s, node, create, -, -, -, free⟩ := freeStore_create (by omega) fits
  obtain ⟨type, empty⟩ := btreeNodeCreate_flatRoot formatted (by omega) rfl create
  have permits : TreeRunPermits root s [] mixedCalls := by
    apply empty.runPermits (List.Perm.refl _) mixedCalls
    · simp [CallsFit, mixedCalls, liveAfter, maxKeys]
    · show 9 ≤ s.freeCount
      omega
  obtain ⟨s', leaves, changed, run, flat, length, found⟩ := treeRun_map empty _ permits
  exact ⟨root, s, type, s', leaves, changed, create, run, flat, length, found⟩

end

end Nbtrfs
