import Nbtrfs.Namespace.Path
import Nbtrfs.Inode.Mapping

/-!
# What a lookup depends on

The search of a path reads the root of a directory, follows one child of each inner node down to a
leaf, and goes on at the root node of a directory. A change that keeps these nodes keeps the result.
-/

namespace Nbtrfs

/-- The nodes that the search of a path reads are among some allocated nodes. -/
structure Lookup (s : Store) (superblock : Superblock) (path : CString) (live : Nat → Prop) :
    Prop where
  /-- Block 0 is the superblock. -/
  read : superblockRead s = some superblock
  /-- The root of the index is one of them. -/
  root : live superblock.btreeRoot
  /-- They are blocks of the image. -/
  inside : ∀ block, live block → block < s.totalBlocks
  /-- They are allocated. -/
  set : ∀ block, live block → s.bit block = some true
  /-- They are nodes that know their blocks. -/
  node : ∀ block, live block → ∃ node, s.mem block = .btreeNode node ∧ node.blockNumber = block
  /-- The child for a component is one of them. -/
  child : ∀ block node, live block → s.mem block = .btreeNode node → node.isLeaf = false →
    ∀ i token, split path i = some token →
      node.children (firstIndex (fun j => pathHash token ≤ node.keys j) node.numKeys) ≠ 0 →
      live (node.children (firstIndex (fun j => pathHash token ≤ node.keys j) node.numKeys))
  /-- The root node of a directory is one of them. -/
  directory : ∀ block node, live block → s.mem block = .btreeNode node → node.isLeaf = true →
    node.type = fileTypeDirectory → live node.value

section

variable {s s' : Store} {superblock : Superblock} {path : CString} {live : Nat → Prop}

/-- A live node is read. -/
theorem Lookup.nodeRead (lookup : Lookup s superblock path live) {block : Nat}
    (alive : live block) : ∃ node, btreeNodeRead s block = some (some node) ∧
      s.mem block = .btreeNode node ∧ node.blockNumber = block := by
  obtain ⟨node, tag, own⟩ := lookup.node block alive
  refine ⟨node, ?_, tag, own⟩
  rw [btreeNodeRead, Store.get_of_lt (lookup.inside block alive), tag]
  rfl

/-- It is read the same after a change that keeps it. -/
theorem Lookup.nodeRead_same (lookup : Lookup s superblock path live)
    (total : s'.totalBlocks = s.totalBlocks)
    (kept : ∀ block, live block → s'.mem block = s.mem block) {block : Nat} (alive : live block) :
    btreeNodeRead s' block = btreeNodeRead s block := by
  have inside := lookup.inside block alive
  rw [btreeNodeRead, btreeNodeRead, Store.get_of_lt inside,
    Store.get_of_lt (by rw [total]; exact inside), kept block alive]

/-- The search for a component gives the same leaf. -/
theorem Lookup.btreeSearchFrom_same (lookup : Lookup s superblock path live)
    (total : s'.totalBlocks = s.totalBlocks)
    (kept : ∀ block, live block → s'.mem block = s.mem block) {i : Nat} {token : CString}
    (component : split path i = some token) (fuel : Nat) {block : Nat} (alive : live block) :
    btreeSearchFrom s' (pathHash token) fuel block = btreeSearchFrom s (pathHash token) fuel block ∧
      ∀ leaf, btreeSearchFrom s (pathHash token) fuel block = some leaf → leaf ≠ 0 →
        live leaf ∧ ∃ node, s.mem leaf = .btreeNode node ∧ node.isLeaf = true := by
  induction fuel generalizing block with
  | zero =>
    constructor
    · rfl
    · intro leaf wrong
      cases wrong
  | succ fuel ih =>
    obtain ⟨node, run, tag, own⟩ := lookup.nodeRead alive
    have unfolded : ∀ store, btreeNodeRead store block = some (some node) →
        btreeSearchFrom store (pathHash token) (fuel + 1) block =
          if node.isLeaf then some (if node.key = pathHash token then node.blockNumber else 0)
          else if node.children (firstIndex (fun j => pathHash token ≤ node.keys j) node.numKeys) ≠ 0
          then btreeSearchFrom store (pathHash token) fuel
            (node.children (firstIndex (fun j => pathHash token ≤ node.keys j) node.numKeys))
          else some 0 := by
      intro store read
      rw [btreeSearchFrom, read]
      rfl
    rw [unfolded s run, unfolded s' ((lookup.nodeRead_same total kept alive).trans run)]
    cases leafNode : node.isLeaf with
    | true =>
      constructor
      · rfl
      · intro leaf found nonzero
        rw [if_pos rfl] at found
        by_cases hit : node.key = pathHash token
        · rw [if_pos hit, own] at found
          obtain rfl := Option.some.inj found
          exact ⟨alive, node, tag, leafNode⟩
        · rw [if_neg hit] at found
          exact absurd (Option.some.inj found).symm nonzero
    | false =>
      rw [if_neg Bool.false_ne_true, if_neg Bool.false_ne_true]
      by_cases next : node.children
          (firstIndex (fun j => pathHash token ≤ node.keys j) node.numKeys) ≠ 0
      · rw [if_pos next, if_pos next]
        exact ih (lookup.child block node alive tag leafNode i token component next)
      · rw [if_neg next, if_neg next]
        constructor
        · rfl
        · intro leaf found nonzero
          exact absurd (Option.some.inj found).symm nonzero

/-- The step to a component's node is the same, and ends at a live node. -/
theorem Lookup.enterNode_same (lookup : Lookup s superblock path live)
    (total : s'.totalBlocks = s.totalBlocks)
    (kept : ∀ block, live block → s'.mem block = s.mem block) {leaf : Nat} (alive : live leaf)
    {leafNode : BTreeNode} (tag : s.mem leaf = .btreeNode leafNode) (isLeaf : leafNode.isLeaf = true)
    (node : BTreeNode) :
    enterNode s' leaf node = enterNode s leaf node ∧
      ∀ next, enterNode s leaf node = some (some next) → live next.blockNumber := by
  obtain ⟨found, run, tag', own⟩ := lookup.nodeRead alive
  obtain rfl := Block.btreeNode.inj (tag.symm.trans tag')
  have unfolded : ∀ store, btreeNodeRead store leaf = some (some leafNode) →
      enterNode store leaf node = if leafNode.type = fileTypeDirectory
        then btreeNodeRead store leafNode.value else some (some leafNode) := by
    intro store read
    rw [enterNode, btreeNodeReload, read]
    rfl
  rw [unfolded s run, unfolded s' ((lookup.nodeRead_same total kept alive).trans run)]
  by_cases directory : leafNode.type = fileTypeDirectory
  · rw [if_pos directory, if_pos directory]
    have aliveRoot := lookup.directory leaf leafNode alive tag isLeaf directory
    constructor
    · exact lookup.nodeRead_same total kept aliveRoot
    · intro next read
      obtain ⟨root, rootRun, -, rootOwn⟩ := lookup.nodeRead aliveRoot
      rw [rootRun] at read
      obtain rfl := Option.some.inj (Option.some.inj read)
      rw [rootOwn]
      exact aliveRoot
  · rw [if_neg directory, if_neg directory]
    constructor
    · rfl
    · intro next same
      obtain rfl := Option.some.inj (Option.some.inj same)
      rw [own]
      exact alive

/-- The loop over the components gives the same result. -/
theorem Lookup.itemSearchFrom_same (lookup : Lookup s superblock path live)
    (total : s'.totalBlocks = s.totalBlocks)
    (kept : ∀ block, live block → s'.mem block = s.mem block) (left i : Nat) (node : BTreeNode)
    (currPath : CString) (alive : live node.blockNumber) :
    itemSearchFrom s' path left i node currPath = itemSearchFrom s path left i node currPath := by
  induction left generalizing i node currPath with
  | zero => rfl
  | succ left ih =>
    rw [itemSearchFrom, itemSearchFrom]
    cases component : split path i with
    | none => rfl
    | some token =>
      rw [Option.bind_eq_bind, Option.bind_some, Option.bind_eq_bind, Option.bind_some]
      have fuel : s'.walkFuel = s.walkFuel := by
        unfold Store.walkFuel
        rw [total]
      have search := @Lookup.btreeSearchFrom_same s s' superblock path live lookup total kept i token
        component s.walkFuel _ alive
      unfold btreeSearch
      rw [fuel, search.1]
      cases found : btreeSearchFrom s (pathHash token) s.walkFuel node.blockNumber with
      | none => rfl
      | some leaf =>
        rw [Option.bind_some, Option.bind_some]
        by_cases zero : leaf = 0
        · rw [if_pos zero, if_pos zero]
        · rw [if_neg zero, if_neg zero]
          obtain ⟨aliveLeaf, leafNode, tag, isLeaf⟩ := search.2 leaf found zero
          have enter := lookup.enterNode_same total kept aliveLeaf tag isLeaf node
          show (enterNode s' leaf node).bind _ = (enterNode s leaf node).bind _
          rw [enter.1]
          cases entered : enterNode s leaf node with
          | none => rfl
          | some read =>
            rw [Option.bind_some, Option.bind_some]
            cases read with
            | none => rfl
            | some next =>
              show (if path = extendPath currPath token then _ else _) =
                (if path = extendPath currPath token then _ else _)
              by_cases final : path = extendPath currPath token
              · rw [if_pos final, if_pos final]
              · rw [if_neg final, if_neg final]
                exact ih _ next _ (enter.2 next entered)

/-- A store with the live nodes in place has the nodes of the search. -/
theorem Lookup.same (lookup : Lookup s superblock path live)
    (total : s'.totalBlocks = s.totalBlocks)
    (kept : ∀ block, live block → s'.mem block = s.mem block)
    (set : ∀ block, live block → s'.bit block = some true) {superblock' : Superblock}
    (read : superblockRead s' = some superblock')
    (root : superblock'.btreeRoot = superblock.btreeRoot) : Lookup s' superblock' path live where
  read := read
  root := by
    rw [root]
    exact lookup.root
  inside block alive := by
    rw [total]
    exact lookup.inside block alive
  set := set
  node block alive := by
    rw [kept block alive]
    exact lookup.node block alive
  child block node alive tag := by
    rw [kept block alive] at tag
    exact lookup.child block node alive tag
  directory block node alive tag := by
    rw [kept block alive] at tag
    exact lookup.directory block node alive tag

/-- A change that keeps the live nodes and the root of the index keeps the search. -/
theorem Lookup.itemSearch_same (lookup : Lookup s superblock path live)
    (total : s'.totalBlocks = s.totalBlocks)
    (kept : ∀ block, live block → s'.mem block = s.mem block) {superblock' : Superblock}
    (read : superblockRead s' = some superblock')
    (root : superblock'.btreeRoot = superblock.btreeRoot) :
    itemSearch s' path = itemSearch s path := by
  obtain ⟨node, run, -, own⟩ := lookup.nodeRead lookup.root
  have run' := (lookup.nodeRead_same total kept lookup.root).trans run
  rw [itemSearch, itemSearch, read, lookup.read, Option.bind_eq_bind, Option.bind_some,
    Option.bind_eq_bind, Option.bind_some, root, btreeNodeLoad, btreeNodeLoad, run, run']
  show (if path = [slash] then _ else _) = (if path = [slash] then _ else _)
  by_cases isRoot : path = [slash]
  · rw [if_pos isRoot, if_pos isRoot]
  · rw [if_neg isRoot, if_neg isRoot]
    apply lookup.itemSearchFrom_same total kept
    rw [own]
    exact lookup.root

end

end Nbtrfs
