import Nbtrfs.Store.Allocator

/-!
# The B-tree code

`btr.c` on the block store. A local `BTreeNode` is a value; a node that `btree_node_create`
returns is a pointer into its page, so assignments through it change the page
(`btreeNodeModify`). There is no result where the code uses a node that a failed read left
uninitialised, writes past `keys[MAX_KEYS - 1]` or `children[MAX_KEYS]`, or follows more blocks
than the image has, which is to go round for ever. A read past the end of an array finds some
value. An `int` that holds a block number is exact on images of fewer than 2^31 blocks.
-/

namespace Nbtrfs

/-- The node in a page, if the page is tagged as one. -/
def Block.node? : Block → Option BTreeNode
  | .btreeNode node => some node
  | _ => none

/-- `btree_node_read`; the inner `none` stands for -1. -/
def btreeNodeRead (s : Store) (block : Nat) : Option (Option BTreeNode) :=
  (s.get block).map Block.node?

/-- An unchecked `btree_node_read` into an uninitialised node. -/
def btreeNodeLoad (s : Store) (block : Nat) : Option BTreeNode := (btreeNodeRead s block).join

/-- An unchecked `btree_node_read` over a node, which stays as it is if the read fails. -/
def btreeNodeReload (s : Store) (block : Nat) (node : BTreeNode) : Option BTreeNode :=
  (btreeNodeRead s block).map fun read => read.getD node

/-- `btree_node_write`. -/
def btreeNodeWrite (s : Store) (node : BTreeNode) : Option Store := do
  let page ← s.get node.blockNumber
  some (if page.node?.isSome then s.put node.blockNumber (.btreeNode node) else s)

/-- Assignments through a pointer into a node's page. -/
def btreeNodeModify (s : Store) (block : Nat) (change : BTreeNode → BTreeNode) : Option Store := do
  let node ← btreeNodeLoad s block
  some (s.put block (.btreeNode (change node)))

/-- The node that `btree_node_create` writes; `type` is not assigned. -/
def freshNode (page : Nat) (isLeaf : Bool) (type : Nat) : BTreeNode where
  blockNumber := page
  isLeaf
  type
  key := 0
  value := 0
  numKeys := 0
  keys _ := 0
  children _ := 0
  parent := 0
  leftSibling := 0
  rightSibling := 0

/-- `btree_node_create`: the new page, 0 for failure. -/
def btreeNodeCreate (s : Store) (isLeaf : Bool) : Option (Nat × Store) := do
  let (page, s) ← allocPage s
  if page = 0 then some (0, s)
  else do
    let former ← s.get page
    some (page, s.put page (.btreeNode (freshNode page isLeaf (s.residue.nodeType former))))

/-- A created node whose pointer is dereferenced without a test. -/
def btreeNodeNew (s : Store) (isLeaf : Bool) : Option (Nat × Store) := do
  let (page, s) ← btreeNodeCreate s isLeaf
  if page = 0 then none else some (page, s)

/-- The bound on every walk: a walk through more blocks never ends. -/
def Store.walkFuel (s : Store) : Nat := s.totalBlocks + 1

/-- The first index below a bound that is accepted, or the bound. -/
def firstIndex (accept : Nat → Bool) (bound : Nat) : Nat :=
  ((List.range bound).find? accept).getD bound

/-- Assign one element. -/
def setAt (array : Nat → Nat) (index value : Nat) : Nat → Nat :=
  fun other => if other = index then value else array other

/-- The loop `for (j = last; j > first; j--) a[j] = a[j - 1]`. -/
def shiftUp (array : Nat → Nat) (first last : Nat) : Nat → Nat :=
  fun other => if first < other ∧ other ≤ last then array (other - 1) else array other

/-- The loop `for (j = first; j < bound; j++) a[j] = a[j + 1]`. -/
def shiftDown (array : Nat → Nat) (first bound : Nat) : Nat → Nat :=
  fun other => if first ≤ other ∧ other < bound then array (other + 1) else array other

/-- The loop `for (i = first; i < bound; i++) a[i] = 0`. -/
def clearRange (array : Nat → Nat) (first bound : Nat) : Nat → Nat :=
  fun other => if first ≤ other ∧ other < bound then 0 else array other

/-- The loop `for (i = 0; i < count; i++) a[i] = b[i + start]`. -/
def copyFrom (array source : Nat → Nat) (start count : Nat) : Nat → Nat :=
  fun other => if other < count then source (other + start) else array other

/-- The recursion of `btree_search`; 0 stands for not found. -/
def btreeSearchFrom (s : Store) (key : Nat) : Nat → Nat → Option Nat
  | 0, _ => none
  | fuel + 1, block => do
    match ← btreeNodeRead s block with
    | none => some 0
    | some node =>
      if node.isLeaf then some (if node.key = key then node.blockNumber else 0)
      else
        let childIdx := firstIndex (fun i => key ≤ node.keys i) node.numKeys
        if node.children childIdx ≠ 0 then btreeSearchFrom s key fuel (node.children childIdx)
        else some 0

/-- `btree_search`. -/
def btreeSearch (s : Store) (nodeBlock key : Nat) : Option Nat :=
  btreeSearchFrom s key s.walkFuel nodeBlock

/-- The loop of `btree_find_depth`. -/
def btreeFindDepthFrom (s : Store) : Nat → BTreeNode → Option Nat
  | 0, _ => none
  | fuel + 1, node =>
    if node.isLeaf then some 0
    else if node.children 0 ≠ 0 then do
      let next ← btreeNodeReload s (node.children 0) node
      let depth ← btreeFindDepthFrom s fuel next
      some (depth + 1)
    else some 0

/-- `btree_find_depth`. -/
def btreeFindDepth (s : Store) (nodeBlock : Nat) : Option Nat := do
  let node ← btreeNodeLoad s nodeBlock
  btreeFindDepthFrom s s.walkFuel node

/-- The rightmost child that is not 0. -/
def BTreeNode.lastChild (node : BTreeNode) : Option Nat :=
  ((List.range (node.numKeys + 1)).reverse.find? fun i => node.children i ≠ 0).map node.children

/-- The recursion of `btree_find_maximum`. -/
def btreeFindMaximumFrom (s : Store) : Nat → Nat → Option Nat
  | 0, _ => none
  | fuel + 1, block => do
    let root ← btreeNodeLoad s block
    if root.isLeaf then some root.key
    else
      match root.lastChild with
      | some child => btreeFindMaximumFrom s fuel child
      | none => some 0

/-- `btree_find_maximum`. -/
def btreeFindMaximum (s : Store) (rootBlock : Nat) : Option Nat :=
  btreeFindMaximumFrom s s.walkFuel rootBlock

/-- The position loop of `btree_insert_nonfull`, from a child on. -/
def insertPosition (s : Store) (root : BTreeNode) (key : Nat) : Nat → Nat → Nat → Option Nat
  | 0, _, position => some position
  | left + 1, j, position =>
    if root.children j ≠ 0 then do
      let child ← btreeNodeLoad s (root.children j)
      let position ←
        if child.isLeaf then some (if child.key < key then j + 1 else position)
        else do
          let maxKey ← btreeFindMaximum s child.blockNumber
          some (if maxKey < key then j + 1 else j)
      insertPosition s root key left (j + 1) position
    else some position

/-- `btree_insert_nonfull`: the local node and the store after it. With `MAX_KEYS` keys the
shift would write `children[MAX_KEYS + 1]`. -/
def btreeInsertNonfull (s : Store) (root : BTreeNode) (page : Nat) :
    Option (BTreeNode × Store) :=
  if root.isLeaf then some (root, s)
  else do
    let node ← btreeNodeLoad s page
    let position ← insertPosition s root node.key (root.numKeys + 1) 0 0
    let childPos := min position root.numKeys
    if maxKeys ≤ root.numKeys then none
    else do
      let maxKey ← btreeFindMaximum s node.blockNumber
      let children := setAt (shiftUp root.children childPos (root.numKeys + 1)) childPos
        node.blockNumber
      let keys := setAt (shiftUp root.keys childPos root.numKeys) childPos maxKey
      let s ← btreeNodeModify s page fun node => { node with parent := root.blockNumber }
      some ({ root with children, keys, numKeys := root.numKeys + 1 }, s)

/-- The child loop of `btree_insertion_search`, from a child on. -/
def insertionIndex (s : Store) (node : BTreeNode) (key : Nat) : Nat → Nat → Nat → Option Nat
  | 0, _, childIndex => some childIndex
  | left + 1, i, childIndex =>
    if node.children i ≠ 0 then do
      let childMax ← btreeFindMaximum s (node.children i)
      if key ≤ childMax then some i else insertionIndex s node key left (i + 1) (i + 1)
    else insertionIndex s node key left (i + 1) childIndex

/-- The descent loop of `btree_insertion_search`, with the number of levels left. -/
def insertionDescend (s : Store) (key : Nat) : Nat → BTreeNode → Option BTreeNode
  | 0, node => some node
  | left + 1, node => do
    let index ← insertionIndex s node key node.numKeys 0 0
    let childIndex := min index node.numKeys
    let child := if node.children childIndex ≠ 0 then some (node.children childIndex)
      else node.lastChild
    match child with
    | none => some node
    | some child => do
      let next ← btreeNodeReload s child node
      insertionDescend s key left next

/-- `btree_insertion_search`. -/
def btreeInsertionSearch (s : Store) (rootBlock key : Nat) : Option Nat := do
  let root ← btreeNodeLoad s rootBlock
  if root.children 0 = 0 then some root.blockNumber
  else do
    let depth ← btreeFindDepth s rootBlock
    if depth ≤ 1 then some root.blockNumber
    else do
      let node ← insertionDescend s key (depth - 1) root
      some node.blockNumber

/-- The loop that sets each key of a node to the maximum of its child. -/
def refreshKeys (s : Store) (node : BTreeNode) : Option BTreeNode :=
  if maxKeys < node.numKeys then none
  else do
    let maxima ← (List.range node.numKeys).mapM fun i =>
      if node.children i ≠ 0 then btreeFindMaximum s (node.children i) else some (node.keys i)
    some { node with keys := fun i => maxima.getD i (node.keys i) }

/-- `btree_update_parent_keys`. -/
def btreeUpdateParentKeys (s : Store) (node : BTreeNode) : Option Store :=
  if node.parent = 0 then some s
  else do
    let parent ← btreeNodeLoad s node.parent
    let parent ← refreshKeys s parent
    btreeNodeWrite s parent

/-- Read each child, set its parent and write it back. -/
def reparent (s : Store) (children : List Nat) (parent : Nat) : Option Store :=
  children.foldlM (fun s block =>
    if block ≠ 0 then do
      let child ← btreeNodeLoad s block
      btreeNodeWrite s { child with parent }
    else some s) s

/-- The indices from a first one up to and without a bound. -/
def indices (first bound : Nat) : List Nat := (List.range (bound - first)).map (first + ·)

/-- The new nodes of `btree_split_root`, which share out the children. The loops that copy a
child and re-parent it work on different pages, so the copies are made first. -/
def splitRootChildren (s : Store) (root : BTreeNode) : Option (Nat × Nat × Store) := do
  let (childA, s) ← btreeNodeNew s false
  let (childB, s) ← btreeNodeNew s false
  let s ← btreeNodeModify s childA fun node => { node with
    rightSibling := childB
    children := copyFrom node.children root.children 0 (minKeys + 1)
    numKeys := node.numKeys + minKeys }
  let s ← btreeNodeModify s childB fun node => { node with
    leftSibling := childA
    keys := copyFrom node.keys root.keys (minKeys + 1) (root.numKeys - (minKeys + 1))
    children := copyFrom node.children root.children (minKeys + 1) (root.numKeys - minKeys)
    numKeys := node.numKeys + (root.numKeys - (minKeys + 1)) }
  let s ← reparent s ((indices 0 (minKeys + 1)).map root.children) childA
  let s ← reparent s ((indices (minKeys + 1) (root.numKeys + 1)).map root.children) childB
  some (childA, childB, s)

/-- Set each key in the page of a new node to the maximum of its child. -/
def refreshPage (s : Store) (block : Nat) : Option Store := do
  let node ← btreeNodeLoad s block
  let node ← refreshKeys s node
  btreeNodeModify s block fun _ => node

/-- The last child of a root with an extra child, given to the second new node. -/
def splitRootExtra (s : Store) (root : BTreeNode) (childB : Nat) : Option Store :=
  if root.children maxKeys ≠ 0 then do
    let s ← btreeNodeModify s childB fun node =>
      { node with children := setAt node.children node.numKeys (root.children maxKeys) }
    reparent s [root.children maxKeys] childB
  else some s

/-- A root over two nodes. -/
def BTreeNode.overTwo (root : BTreeNode) (childA childB maxA maxB : Nat) : BTreeNode :=
  { root with
    isLeaf := false
    numKeys := 2
    keys := setAt (setAt (clearRange root.keys 1 maxKeys) 0 maxA) 1 maxB
    children := clearRange (setAt (setAt root.children 0 childA) 1 childB) 2 (maxKeys + 1) }

/-- `btree_split_root`: the local root and the store after it. -/
def btreeSplitRoot (s : Store) (root : BTreeNode) : Option (BTreeNode × Store) := do
  let (childA, childB, s) ← splitRootChildren s root
  let s ← refreshPage s childA
  let s ← refreshPage s childB
  let s ← splitRootExtra s root childB
  let s ← btreeNodeModify s childA fun node => { node with parent := root.blockNumber }
  let s ← btreeNodeModify s childB fun node => { node with parent := root.blockNumber }
  let maxA ← btreeFindMaximum s childA
  let maxB ← btreeFindMaximum s childB
  let root := root.overTwo childA childB maxA maxB
  let s ← btreeNodeWrite s root
  some (root, s)

/-- Link a new child after an index of a node with room, then refresh the keys. -/
def linkChild (s : Store) (node : BTreeNode) (index child : Nat) : Option BTreeNode :=
  if maxKeys ≤ index then none
  else refreshKeys s { node with
    children := setAt (shiftUp node.children (index + 1) (node.numKeys + 1)) (index + 1) child
    numKeys := node.numKeys + 1 }

/-- `btree_split_child`: the local nodes and the store after it. On the path for a parent with
room neither local node is written back. -/
def btreeSplitChild : Nat → Store → BTreeNode → Nat → BTreeNode →
    Option (BTreeNode × BTreeNode × Store)
  | 0, _, _, _, _ => none
  | fuel + 1, s, node, index, child => do
    let (childB, s) ← btreeNodeNew s false
    let s ← btreeNodeModify s childB fun fresh => { fresh with
      parent := node.blockNumber
      leftSibling := child.blockNumber
      keys := copyFrom fresh.keys child.keys (minKeys + 1) (child.numKeys - (minKeys + 1))
      children := copyFrom fresh.children child.children (minKeys + 1) (child.numKeys - minKeys)
      numKeys := fresh.numKeys + (child.numKeys - (minKeys + 1)) }
    let s ← reparent s ((indices (minKeys + 1) (child.numKeys + 1)).map child.children) childB
    let child := { child with
      rightSibling := childB
      keys := clearRange child.keys minKeys (max child.numKeys (minKeys + 1))
      children := clearRange child.children (minKeys + 1) (child.numKeys + 1)
      numKeys := minKeys }
    if node.numKeys < maxKeys then do
      let maxKey ← btreeFindMaximum s childB
      let node ← linkChild s { node with keys := setAt node.keys index maxKey } index childB
      some (node, child, s)
    else do
      let (node, s) ←
        if node.parent ≠ 0 then do
          let grandparent ← btreeNodeLoad s node.parent
          let parentIndex := firstIndex (fun i => grandparent.children i == node.blockNumber)
            (grandparent.numKeys + 1)
          let (grandparent, node, s) ← btreeSplitChild fuel s grandparent parentIndex node
          let s ← btreeNodeWrite s grandparent
          some (node, s)
        else btreeSplitRoot s node
      let currentParent ← btreeNodeLoad s child.parent
      let newIndex := firstIndex (fun i => currentParent.children i == child.blockNumber)
        (currentParent.numKeys + 1)
      let currentParent ←
        if currentParent.numKeys < maxKeys then linkChild s currentParent newIndex childB
        else some currentParent
      let s ← btreeNodeWrite s child
      let s ← btreeNodeWrite s currentParent
      some (node, child, s)

/-- The loop that looks for a child's place by its maximum among a parent's keys. -/
def keyIndex (keys : Nat → Nat) (bound : Nat) : Nat :=
  firstIndex (fun i => !(decide (keys i < bound) && keys i != 0)) maxKeys

/-- Insert the page of a new leaf into a target with room and refresh the parent's keys. -/
def insertInto (s : Store) (target : BTreeNode) (page : Nat) : Option Store := do
  let (target, s) ← btreeInsertNonfull s target page
  let s ← btreeNodeWrite s target
  btreeUpdateParentKeys s target

/-- `btree_insert`. After a split the target is read again, so the local nodes of the split are
dropped. The last write of the new node goes through its own page and changes nothing. -/
def btreeInsert (s : Store) (rootBlock key value type : Nat) : Option Store := do
  let (page, s) ← btreeNodeNew s true
  let s ← btreeNodeModify s page fun node => { node with key, value, type }
  let targetBlock ← btreeInsertionSearch s rootBlock key
  let target ← btreeNodeLoad s targetBlock
  if target.numKeys = maxKeys then
    if target.keys (maxKeys - 1) < key ∧ target.children maxKeys = 0 then do
      let target := { target with children := setAt target.children maxKeys page }
      let s ← btreeNodeModify s page fun node => { node with parent := target.blockNumber }
      let s ← btreeNodeWrite s target
      btreeUpdateParentKeys s target
    else do
      let s ←
        if target.parent ≠ 0 then do
          let parent ← btreeNodeLoad s target.parent
          let maxKey ← btreeFindMaximum s target.blockNumber
          let (_, _, s) ← btreeSplitChild s.walkFuel s parent (keyIndex parent.keys maxKey) target
          some s
        else do
          let (_, s) ← btreeSplitRoot s target
          some s
      let targetBlock ← btreeInsertionSearch s rootBlock key
      let target ← btreeNodeLoad s targetBlock
      insertInto s target page
  else insertInto s target page

/-- `btree_borrow_left`: the borrowed child, 0 for none. -/
def btreeBorrowLeft (s : Store) (node : BTreeNode) : Option (Nat × Store) :=
  if node.leftSibling = 0 then some (0, s)
  else do
    let left ← btreeNodeLoad s node.leftSibling
    if left.numKeys ≤ minKeys then some (0, s)
    else
      match (List.range (left.numKeys + 1)).reverse.find? fun i => left.children i ≠ 0 with
      | none => do
        let s ← btreeNodeWrite s left
        some (0, s)
      | some i => do
        let s ← btreeNodeWrite s { left with
          keys := if i < left.numKeys then setAt left.keys i 0 else left.keys
          children := setAt left.children i 0
          numKeys := left.numKeys - 1 }
        some (left.children i, s)

/-- `btree_borrow_right`: the borrowed child, 0 for none. -/
def btreeBorrowRight (s : Store) (node : BTreeNode) : Option (Nat × Store) :=
  if node.rightSibling = 0 then some (0, s)
  else do
    let right ← btreeNodeLoad s node.rightSibling
    if right.numKeys ≤ minKeys then some (0, s)
    else do
      let s ← btreeNodeWrite s { right with
        keys := setAt (shiftDown right.keys 0 maxKeys) (maxKeys - 1) 0
        children := setAt (shiftDown right.children 0 (maxKeys + 1)) maxKeys 0
        numKeys := right.numKeys - 1 }
      some (right.children 0, s)

/-- `btree_promote_root`: the local root and the store after it. -/
def btreePromoteRoot (s : Store) (root : BTreeNode) : Option (BTreeNode × Store) := do
  let child ← btreeNodeLoad s (root.children 0)
  let promoted := { child with blockNumber := root.blockNumber, parent := 0 }
  let s ← btreeNodeWrite s promoted
  let s ← freePage s child.blockNumber
  let s ← reparent s ((List.range (promoted.numKeys + 1)).map promoted.children)
    promoted.blockNumber
  some (promoted, s)

/-- `btree_merge_children`: the local parent and the store after it. With two children to
merge, the copy loop that runs up to `MAX_KEYS` assigns `keys[MAX_KEYS]`. -/
def btreeMergeChildren (s : Store) (parent : BTreeNode) (index : Nat) :
    Option (BTreeNode × Store) :=
  let index := if index = maxKeys then index - 1 else index
  if parent.children index = 0 ∨ parent.children (index + 1) = 0 then some (parent, s) else none

/-- The descent loop of `btree_remove_key`, down to a node whose first child is a leaf. -/
def removeDescend (s : Store) (key : Nat) : Nat → BTreeNode → Option BTreeNode
  | 0, _ => none
  | fuel + 1, current =>
    if current.isLeaf then some current
    else do
      let firstChild ← btreeNodeLoad s (current.children 0)
      if firstChild.isLeaf then some current
      else do
        let childIdx := ((List.range current.numKeys).reverse.find? fun i =>
          key ≤ current.keys (i + 1)).elim 0 (· + 1)
        let next ← btreeNodeReload s (current.children childIdx) current
        removeDescend s key fuel next

/-- The loop of `btree_remove_key` that looks for the leaf of a key among the children. -/
def findLeafChild (s : Store) (node : BTreeNode) (key : Nat) : Nat → Nat → Option (Option Nat)
  | 0, _ => some none
  | left + 1, i =>
    if node.children i ≠ 0 then do
      let child ← btreeNodeLoad s (node.children i)
      if child.isLeaf ∧ child.key = key then some (some i)
      else findLeafChild s node key left (i + 1)
    else findLeafChild s node key left (i + 1)

/-- A node without the child at an index. The number of keys is a `uint16_t`: from 0 it wraps,
and the clearing of the slot after the last child leaves the array. -/
def dropChild (node : BTreeNode) (index : Nat) : Option BTreeNode :=
  if node.numKeys = 0 then none
  else
    let numKeys := node.numKeys - 1
    let keys := shiftDown node.keys index node.numKeys
    some { node with
      keys := if index = numKeys then setAt keys numKeys 0 else keys
      children := setAt (shiftDown node.children index (node.numKeys + 1)) (numKeys + 1) 0
      numKeys }

/-- The underflow handling of `btree_remove_key`. -/
def handleUnderflow (s : Store) (current : BTreeNode) (key : Nat) : Option Store :=
  if current.numKeys < minKeys then do
    let (borrowed, s) ← btreeBorrowLeft s current
    if borrowed ≠ 0 then some s
    else do
      let (borrowed, s) ← btreeBorrowRight s current
      if borrowed ≠ 0 then some s
      else if current.parent ≠ 0 then do
        let grandparent ← btreeNodeLoad s current.parent
        let (grandparent, s) ← btreeMergeChildren s grandparent (keyIndex grandparent.keys key)
        btreeNodeWrite s grandparent
      else do
        let depth ← btreeFindDepth s current.blockNumber
        if 1 < depth then do
          let (current, s) ← btreeMergeChildren s current 0
          let s ← btreeNodeWrite s current
          let (_, s) ← btreePromoteRoot s current
          some s
        else some s
  else some s

/-- `btree_remove_key`. -/
def btreeRemoveKey (s : Store) (rootBlock key : Nat) : Option Store := do
  let root ← btreeNodeLoad s rootBlock
  let bottom ← removeDescend s key s.walkFuel root
  let current ← btreeNodeReload s bottom.parent bottom
  match ← findLeafChild s current key (current.numKeys + 1) 0 with
  | none => some s
  | some index => do
    let current ← dropChild current index
    let s ← btreeNodeWrite s current
    handleUnderflow s current key

/-- `btree_delete`: the block of the deleted leaf, 0 for not found. -/
def btreeDelete (s : Store) (rootBlock key : Nat) : Option (Nat × Store) := do
  let block ← btreeSearch s rootBlock key
  if block = 0 then some (0, s)
  else do
    let node ← btreeNodeLoad s block
    let s ← btreeRemoveKey s node.parent key
    let s ← freePage s block
    some (block, s)

/-- The recursion of `btree_write`, which writes the nodes of a tree to the image. -/
def btreeWriteFrom : Nat → Store → Nat → Option Store
  | 0, _, _ => none
  | fuel + 1, s, block => do
    match ← btreeNodeRead s block with
    | none => some s
    | some node => do
      let s := { s with disk := fun other =>
        if other = node.blockNumber then s.mem block else s.disk other }
      let count := firstIndex (fun i => node.children i == 0) (node.numKeys + 1)
      ((List.range count).map node.children).foldlM (btreeWriteFrom fuel) s

/-- `btree_write`. -/
def btreeWrite (s : Store) (block : Nat) : Option Store := btreeWriteFrom s.walkFuel s block

end Nbtrfs
