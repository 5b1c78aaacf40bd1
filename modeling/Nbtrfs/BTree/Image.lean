import Nbtrfs.BTree.Nodes

/-!
# Images of trees

Every tree with a fan-out that the nodes can hold is stored in some image: one bitmap page, the nodes
of the tree, and free blocks.
-/

namespace Nbtrfs

/-- The words of a bitmap with given bits. -/
def bitmapWords (bits : Nat → Bool) (word : Nat) : BitVec 64 :=
  (BitVec.iunfoldr (fun (position : Fin 64) state => (state, bits (64 * word + position))) ()).2

/-- The blocks that an image of nodes has allocated. -/
def nodeBits (nodes : List BTreeNode) (block : Nat) : Bool :=
  block ≤ 1 || nodes.any fun node => node.blockNumber == block

/-- The page of a block in an image of nodes. -/
def nodePage (nodes : List BTreeNode) (block : Nat) : Block :=
  if block = 1 then .bitmap (bitmapWords (nodeBits nodes))
  else (nodes.find? fun node => node.blockNumber == block).elim (.untagged fun _ => 0) .btreeNode

/-- An image that holds nodes. -/
def nodeStore (total : Nat) (nodes : List BTreeNode) : Store where
  totalBlocks := total
  mem := nodePage nodes
  disk := nodePage nodes
  residue := ⟨fun _ => 0, fun _ _ => 0⟩

/-- A bit of a bitmap with given bits. -/
theorem bitmapGet_bitmapWords (bits : Nat → Bool) (index : Nat) :
    bitmapGet (.bitmap (bitmapWords bits)) index = some (bits index) := by
  have small : index % 64 < 64 := Nat.mod_lt _ (by decide)
  have whole : 64 * (index / 64) + index % 64 = index := Nat.div_add_mod index 64
  show some (wordBit (bitmapWords bits (index / 64)) (index % 64)) = some (bits index)
  rw [wordBit_eq _ _ small]
  unfold bitmapWords
  rw [BitVec.iunfoldr_getLsbD (fun _ => ()) ⟨index % 64, small⟩ fun _ => rfl]
  simp only [whole]

section

variable {total : Nat} {nodes : List BTreeNode}

/-- The node of a block in an image of nodes. -/
theorem nodeStore_load {node : BTreeNode} (distinct : (nodes.map BTreeNode.blockNumber).Nodup)
    (isNode : node ∈ nodes) (inside : node.blockNumber < total) (noBitmap : node.blockNumber ≠ 1) :
    btreeNodeLoad (nodeStore total nodes) node.blockNumber = some node := by
  have found : nodes.find? (fun other => other.blockNumber == node.blockNumber) = some node := by
    cases search : nodes.find? fun other => other.blockNumber == node.blockNumber with
    | none =>
      have rejected := List.find?_eq_none.mp search node isNode
      simp at rejected
    | some other =>
      have accepted := List.find?_some search
      have same : other.blockNumber = node.blockNumber := by simpa using accepted
      rw [List.inj_on_of_nodup_map distinct (List.mem_of_find?_eq_some search) isNode same]
  apply load_eq_some.mpr
  constructor
  · exact inside
  · show nodePage nodes node.blockNumber = .btreeNode node
    unfold nodePage
    rw [if_neg noBitmap, found]
    rfl

/-- What is read from an image is one of its nodes, which name their blocks. -/
theorem nodeStore_names {block : Nat} {node : BTreeNode}
    (load : btreeNodeLoad (nodeStore total nodes) block = some node) :
    node ∈ nodes ∧ node.blockNumber = block := by
  have page : nodePage nodes block = .btreeNode node := (load_eq_some.mp load).2
  unfold nodePage at page
  split at page
  · cases page
  · cases found : nodes.find? fun node => node.blockNumber == block with
    | none =>
      rw [found] at page
      cases page
    | some other =>
      have accepted := List.find?_some found
      have isNode := List.mem_of_find?_eq_some found
      rw [found] at page
      rw [← Block.btreeNode.inj page]
      exact ⟨isNode, by simpa using accepted⟩

/-- A block of a small image has its bit on the only bitmap page. -/
theorem nodeStore_bit (small : total ≤ usableBlockSize) {block : Nat} (inside : block < total) :
    (nodeStore total nodes).bit block = some (nodeBits nodes block) := by
  have page : bitmapPage block = 1 := by
    unfold bitmapPage
    rw [Nat.div_eq_of_lt (by omega)]
  unfold Store.bit
  rw [page, Nat.mod_eq_of_lt (by omega)]
  exact bitmapGet_bitmapWords _ _

/-- A small image of nodes is formatted. -/
theorem nodeStore_formatted (small : total ≤ usableBlockSize) (room : 1 < total) :
    (nodeStore total nodes).Formatted := by
  have page : ∀ block < total, bitmapPage block = 1 := by
    intro block inside
    unfold bitmapPage
    rw [Nat.div_eq_of_lt (by omega)]
  constructor
  · intro block inside
    rw [page block inside]
    exact ⟨room, _, rfl⟩
  · show 0 < total
    omega
  · rw [nodeStore_bit small (by omega)]
    rfl
  · intro block inside
    rw [page block inside, nodeStore_bit small room]
    rfl

/-- Free blocks of an image are counted. -/
theorem nodeStore_free (small : total ≤ usableBlockSize) {blocks : List Nat} (distinct : blocks.Nodup)
    (free : ∀ block ∈ blocks, block < total ∧ nodeBits nodes block = false) :
    blocks.length ≤ (nodeStore total nodes).freeCount := by
  rw [← List.toFinset_card_of_nodup distinct]
  apply Finset.card_le_card
  intro block isFree
  obtain ⟨inside, clear⟩ := free block (List.mem_toFinset.mp isFree)
  rw [mem_freeSet, nodeStore_bit small inside, clear]
  exact ⟨inside, rfl⟩

end

/-- The node of a leaf. -/
def Leaf.node (leaf : Leaf) (parent : Nat) : BTreeNode :=
  { freshNode leaf.block true leaf.type with key := leaf.key, value := leaf.value, parent }

/-- The node over children with their largest keys. -/
def nodeOver (block parent : Nat) (children : List (Nat × Option Nat)) : BTreeNode :=
  { freshNode block false 0 with
    parent
    numKeys := min children.length maxKeys
    keys := fun i => (children[i]?.bind Prod.snd).getD 0
    children := fun i => children[i]?.elim 0 Prod.fst }

/-- The nodes of a tree. -/
def Tree.nodes : {depth : Nat} → (parent : Nat) → Tree depth → List BTreeNode
  | 0, parent, leaf => [Leaf.node leaf parent]
  | _ + 1, parent, tree =>
    nodeOver (Prod.fst tree) parent ((Prod.snd tree).map fun child => (child.block, child.maxKey)) ::
      (Prod.snd tree).flatMap (Tree.nodes (Prod.fst tree))

/-- The nodes of a tree can hold its fan-out. -/
def Tree.Fits : {depth : Nat} → Tree depth → Prop
  | 0, _ => True
  | _ + 1, tree =>
    (Prod.snd tree).length ≤ maxKeys + 1 ∧
    ∀ child ∈ Prod.snd tree, Tree.block child ≠ 0 ∧ child.leaves ≠ [] ∧ Tree.Fits child

/-- Whether a tree fits its nodes is decidable. -/
instance Tree.decidableFits : {depth : Nat} → (tree : Tree depth) → Decidable tree.Fits
  | 0, _ => inferInstanceAs (Decidable True)
  | depth + 1, tree =>
    have : ∀ child : Tree depth, Decidable child.Fits := Tree.decidableFits
    inferInstanceAs (Decidable ((Prod.snd tree).length ≤ maxKeys + 1 ∧
      ∀ child ∈ Prod.snd tree, Tree.block child ≠ 0 ∧ child.leaves ≠ [] ∧ Tree.Fits child))

/-- The image of a tree. -/
def Tree.image {depth : Nat} (tree : Tree depth) (total : Nat) : Store :=
  nodeStore total (tree.nodes 0)

section

variable {depth : Nat}

/-- The nodes of a tree are at its blocks. -/
theorem Tree.nodes_blocks (parent : Nat) (tree : Tree depth) :
    (tree.nodes parent).map BTreeNode.blockNumber = tree.blocks := by
  induction depth generalizing parent with
  | zero => rfl
  | succ depth ih =>
    show Prod.fst tree :: ((Prod.snd tree).flatMap (Tree.nodes (Prod.fst tree))).map
      BTreeNode.blockNumber = Prod.fst tree :: (Prod.snd tree).flatMap Tree.blocks
    rw [List.map_flatMap]
    congr 1
    apply List.flatMap_congr
    intro child _
    exact ih (Prod.fst tree) child

/-- A tree with leaves has a largest key. -/
theorem Tree.maxKey_of_leaves {tree : Tree depth} (some_leaf : tree.leaves ≠ []) :
    ∃ key, tree.maxKey = some key := by
  unfold Tree.maxKey
  rw [List.getLast?_eq_some_getLast some_leaf]
  exact ⟨_, rfl⟩

/-- The node over children whose first ones have largest keys is over these children. -/
theorem nodeOver_keyed {block parent : Nat} {children : List (Nat × Option Nat)}
    (fits : children.length ≤ maxKeys + 1)
    (keyed : ∀ child ∈ children.take maxKeys, ∃ key, child.2 = some key) :
    InnerNode (nodeOver block parent children) block parent children := by
  refine ⟨rfl, rfl, rfl, Nat.min_le_right _ _, Nat.min_le_left _ _, ?_, ?_, fun i _ => rfl⟩
  · show children.length ≤ min children.length maxKeys + 1
    omega
  · intro i small
    have inside : i < children.length := Nat.lt_of_lt_of_le small (Nat.min_le_left _ _)
    have few : i < maxKeys := Nat.lt_of_lt_of_le small (Nat.min_le_right _ _)
    obtain ⟨key, isKey⟩ := keyed children[i] (List.mem_take_iff_getElem.mpr
      ⟨i, Nat.lt_min.mpr ⟨few, inside⟩, rfl⟩)
    show children[i]?.bind Prod.snd = some ((children[i]?.bind Prod.snd).getD 0)
    rw [List.getElem?_eq_getElem inside, Option.bind_some, isKey]
    rfl

/-- The node over children with largest keys is over these children. -/
theorem nodeOver_inner {block parent : Nat} {children : List (Nat × Option Nat)}
    (fits : children.length ≤ maxKeys + 1) (keyed : ∀ child ∈ children, ∃ key, child.2 = some key) :
    InnerNode (nodeOver block parent children) block parent children :=
  nodeOver_keyed fits fun child isChild => keyed child (List.mem_of_mem_take isChild)

/-- A tree is stored where its nodes are loaded. -/
theorem stores_of_nodes {s : Store} {tree : Tree depth} (fits : tree.Fits) (parent : Nat)
    (loads : ∀ node ∈ tree.nodes parent, btreeNodeLoad s node.blockNumber = some node) :
    Stores s parent tree := by
  induction depth generalizing parent with
  | zero =>
    refine ⟨Leaf.node tree parent, loads _ (List.mem_singleton.mpr rfl), ?_⟩
    exact ⟨rfl, rfl, rfl, rfl, rfl, rfl⟩
  | succ depth ih =>
    obtain ⟨block, children⟩ := tree
    obtain ⟨few, below⟩ := fits
    refine ⟨⟨_, loads _ List.mem_cons_self, ?_⟩, fun child isChild => ⟨(below child isChild).1, ?_⟩⟩
    · apply nodeOver_inner
      · rw [List.length_map]
        exact few
      · intro child isChild
        obtain ⟨subtree, inside, rfl⟩ := List.mem_map.mp isChild
        exact Tree.maxKey_of_leaves (below subtree inside).2.1
    · apply ih (below child isChild).2.2
      intro node isNode
      apply loads
      exact List.mem_cons_of_mem _ (List.mem_flatMap.mpr ⟨child, isChild, isNode⟩)

/-- The nodes of a tree are loaded from its image. -/
theorem Tree.image_load {tree : Tree depth} {total : Nat} (distinct : tree.blocks.Nodup)
    (inside : ∀ block ∈ tree.blocks, 1 < block ∧ block < total) :
    ∀ node ∈ tree.nodes 0, btreeNodeLoad (tree.image total) node.blockNumber = some node := by
  have blocks := tree.nodes_blocks 0
  intro node isNode
  have isBlock : node.blockNumber ∈ tree.blocks := by
    rw [← blocks]
    exact List.mem_map_of_mem isNode
  obtain ⟨later, bound⟩ := inside _ isBlock
  exact nodeStore_load (by rw [blocks]; exact distinct) isNode bound (by omega)

/-- A tree is stored in its image. -/
theorem Tree.image_stores {tree : Tree depth} {total : Nat} (fits : tree.Fits)
    (distinct : tree.blocks.Nodup) (inside : ∀ block ∈ tree.blocks, 1 < block ∧ block < total) :
    Stores (tree.image total) 0 tree :=
  stores_of_nodes fits 0 (Tree.image_load distinct inside)

/-- The blocks of a tree are allocated in its image. -/
theorem Tree.image_owned {tree : Tree depth} {total : Nat} (small : total ≤ usableBlockSize)
    (room : 1 < total) (distinct : tree.blocks.Nodup)
    (inside : ∀ block ∈ tree.blocks, 1 < block ∧ block < total) :
    Owned (tree.image total) tree.blocks := by
  refine ⟨nodeStore_formatted small room, distinct, fun block isBlock => (inside block isBlock).2,
    ?_, ?_⟩
  · intro block isBlock
    have later := (inside block isBlock).1
    omega
  · intro block isBlock
    rw [← tree.nodes_blocks 0] at isBlock
    obtain ⟨node, isNode, rfl⟩ := List.mem_map.mp isBlock
    have bound := inside node.blockNumber (by
      rw [← tree.nodes_blocks 0]
      exact List.mem_map_of_mem isNode)
    unfold Tree.image
    rw [nodeStore_bit small bound.2]
    have set : (tree.nodes 0).any (fun other => other.blockNumber == node.blockNumber) = true :=
      List.any_eq_true.mpr ⟨node, isNode, by simp⟩
    unfold nodeBits
    rw [set, Bool.or_true]

end

end Nbtrfs
