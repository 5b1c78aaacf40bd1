import Nbtrfs.BTree.Shape

/-!
# Writing a tree to the image

`btree_write` returns the number of nodes that it wrote, which its callers drop. On a cached tree of
any shape it writes the page of every node, changes no other block of the image, and counts the
nodes.
-/

namespace Nbtrfs

open Relation Descent

/-- `btree_write` with its result, -1 for a page of another type. -/
def btreeWriteCountFrom : Nat → Store → Nat → Option (Int × Store)
  | 0, _, _ => none
  | fuel + 1, s, block => do
    match ← btreeNodeRead s block with
    | none => some (-1, s)
    | some node => do
      let s := { s with disk := fun other =>
        if other = node.blockNumber then s.mem block else s.disk other }
      let count := firstIndex (fun i => node.children i == 0) (node.numKeys + 1)
      ((List.range count).map node.children).foldlM (fun (written : Int × Store) child => do
        let (below, s) ← btreeWriteCountFrom fuel written.2 child
        some (written.1 + below, s)) (1, s)

/-- `btree_write` with its result. -/
def btreeWriteCount (s : Store) (block : Nat) : Option (Int × Store) :=
  btreeWriteCountFrom s.walkFuel s block

/-- A fold whose counter is dropped. -/
theorem foldlM_count {State : Type} (step : State → Nat → Option State)
    (counted : State → Nat → Option (Int × State))
    (same : ∀ state child, step state child = (counted state child).map Prod.snd)
    (children : List Nat) (count : Int) (state : State) :
    children.foldlM step state = (children.foldlM (fun (written : Int × State) child => do
      let (below, state) ← counted written.2 child
      some (written.1 + below, state)) (count, state)).map Prod.snd := by
  induction children generalizing count state with
  | nil => rfl
  | cons child children ih =>
    rw [List.foldlM_cons, List.foldlM_cons, same]
    cases run : counted state child with
    | none => rfl
    | some result => exact ih (count + result.1) result.2

/-- Without its result it is the recursion that the callers use. -/
theorem btreeWriteFrom_eq_count (fuel : Nat) (s : Store) (block : Nat) :
    btreeWriteFrom fuel s block = (btreeWriteCountFrom fuel s block).map Prod.snd := by
  induction fuel generalizing s block with
  | zero => rfl
  | succ fuel ih =>
    rw [btreeWriteFrom, btreeWriteCountFrom]
    cases btreeNodeRead s block with
    | none => rfl
    | some read =>
      cases read with
      | none => rfl
      | some node => exact foldlM_count _ _ ih _ _ _

/-- A node over child blocks, which names its block. -/
structure SlotNode (node : BTreeNode) (block : Nat) (children : List Nat) : Prop where
  /-- The node names its block. -/
  blockNumber : node.blockNumber = block
  /-- The keys fit the array. -/
  fits : node.numKeys ≤ maxKeys
  /-- There is a child for every key. -/
  enough : node.numKeys ≤ children.length
  /-- There is at most one child more than keys. -/
  extra : children.length ≤ node.numKeys + 1
  /-- No child is 0. -/
  nonzero : ∀ child ∈ children, child ≠ 0
  /-- The children are in the first slots. -/
  slots : ∀ i ≤ node.numKeys, node.children i = children[i]?.getD 0
  /-- A leaf has no keys and no children. -/
  leaf : node.isLeaf = true → node.numKeys = 0 ∧ children = []

/-- The pages hold a tree of nodes. The list has the block of each node, a parent before its
children. -/
inductive CachedTree (s : Store) : Nat → List Nat → Prop
  | node {block : Nat} {node : BTreeNode} {children : List (Nat × List Nat)}
      (load : btreeNodeLoad s block = some node)
      (holds : SlotNode node block (children.map Prod.fst))
      (below : ∀ child ∈ children, CachedTree s child.1 child.2) :
      CachedTree s block (block :: children.flatMap Prod.snd)

section

variable {s t t' : Store}

/-- The loop stops behind the last child. -/
theorem SlotNode.count {node : BTreeNode} {block : Nat} {children : List Nat}
    (holds : SlotNode node block children) :
    firstIndex (fun i => node.children i == 0) (node.numKeys + 1) = children.length := by
  apply firstIndex_eq holds.extra
  · intro i small
    have extra := holds.extra
    have present := holds.nonzero _ (List.getElem_mem small)
    rw [holds.slots i (by omega), List.getElem?_eq_getElem small]
    simpa using present
  · intro small
    rw [holds.slots _ (by omega), List.getElem?_eq_none (Nat.le_refl _)]
    rfl

/-- The loop goes through the children. -/
theorem SlotNode.map_children {node : BTreeNode} {block : Nat} {children : List Nat}
    (holds : SlotNode node block children) :
    (List.range children.length).map node.children = children := by
  apply List.ext_getElem
  · simp
  · intro i _ small
    have extra := holds.extra
    rw [List.getElem_map, List.getElem_range, holds.slots i (by omega),
      List.getElem?_eq_getElem small]
    rfl

/-- The children of a cached node are in its slots. -/
theorem SlotNode.childOf {node : BTreeNode} {block : Nat} {children : List Nat}
    (holds : SlotNode node block children) (load : btreeNodeLoad s block = some node) (child : Nat) :
    ChildOf s block child ↔ child ∈ children := by
  constructor
  · rintro ⟨other, load', -, present, i, small, slot⟩
    rw [load] at load'
    obtain rfl := Option.some.inj load'
    rw [holds.slots i small] at slot
    cases atIndex : children[i]? with
    | none =>
      rw [atIndex] at slot
      exact absurd slot.symm present
    | some found =>
      rw [atIndex] at slot
      rw [← slot]
      exact List.mem_of_getElem? atIndex
  · intro isChild
    obtain ⟨i, atIndex⟩ := List.mem_iff_getElem?.mp isChild
    have inside := (List.getElem?_eq_some_iff.mp atIndex).1
    have extra := holds.extra
    have small : i ≤ node.numKeys := by omega
    have inner : node.isLeaf = false := by
      cases isLeaf : node.isLeaf with
      | false => rfl
      | true =>
        rw [(holds.leaf isLeaf).2] at isChild
        cases isChild
    refine ⟨node, load, inner, holds.nonzero child isChild, i, small, ?_⟩
    rw [holds.slots i small, atIndex]
    rfl

/-- A walk down a cached tree comes to an end. -/
theorem CachedTree.finishes {block : Nat} {blocks : List Nat} (cached : CachedTree s block blocks) :
    Finishes (ChildOf s) block := by
  induction cached with
  | @node block node children load holds below ih =>
    apply finishes_of_next
    intro child step
    have isChild := (holds.childOf load child).mp step
    obtain ⟨found, inside, rfl⟩ := List.mem_map.mp isChild
    exact ih found inside

/-- Every block below a cached tree is the root of a cached tree. -/
theorem CachedTree.reach {block later : Nat} {blocks : List Nat} (cached : CachedTree s block blocks)
    (reached : ReflTransGen (ChildOf s) block later) : ∃ below, CachedTree s later below := by
  induction reached with
  | refl => exact ⟨blocks, cached⟩
  | tail _ step ih =>
    obtain ⟨_, here⟩ := ih
    cases here with
    | @node _ node children load holds below =>
      have isChild := (holds.childOf load _).mp step
      obtain ⟨found, inside, rfl⟩ := List.mem_map.mp isChild
      exact ⟨found.2, below found inside⟩

/-- A walk down a cached tree takes fewer steps than the image has blocks. -/
theorem CachedTree.within {block : Nat} {blocks : List Nat} (cached : CachedTree s block blocks) :
    Within (ChildOf s) (s.totalBlocks - 1) block := by
  have bounded := cached.finishes.within (List.range s.totalBlocks) fun later reached => by
    obtain ⟨_, here⟩ := cached.reach reached
    cases here with
    | node load => exact List.mem_range.mpr (load_eq_some.mp load).1
  rwa [List.length_range] at bounded

/-- The pages of the given blocks are written to the image. -/
structure PagesWritten (s : Store) (blocks : List Nat) (s' : Store) : Prop where
  /-- The pages are kept. -/
  mem : s'.mem = s.mem
  /-- The image keeps its size. -/
  totalBlocks : s'.totalBlocks = s.totalBlocks
  /-- The blocks have the content of their pages and the other blocks are kept. -/
  disk : ∀ pnum, s'.disk pnum = if pnum ∈ blocks then s.mem pnum else s.disk pnum

/-- Nothing is written. -/
theorem PagesWritten.refl (s : Store) : PagesWritten s [] s :=
  ⟨rfl, rfl, fun _ => by simp⟩

/-- Two lists of pages are written one after the other. -/
theorem PagesWritten.append {first second : List Nat} (before : PagesWritten s first t)
    (after : PagesWritten t second t') : PagesWritten s (first ++ second) t' := by
  refine ⟨after.mem.trans before.mem, after.totalBlocks.trans before.totalBlocks, fun pnum => ?_⟩
  rw [after.disk, before.mem, before.disk]
  by_cases inSecond : pnum ∈ second <;> by_cases inFirst : pnum ∈ first <;> simp [inSecond, inFirst]

/-- The loop over the children writes their trees, if the recursion does. -/
theorem writeChildren_spec {fuel : Nat} (children : List (Nat × List Nat)) (count : Int)
    (mem : t.mem = s.mem) (total : t.totalBlocks = s.totalBlocks)
    (recursion : ∀ child ∈ children, ∀ t : Store, t.mem = s.mem → t.totalBlocks = s.totalBlocks →
      ∃ t', btreeWriteCountFrom fuel t child.1 = some ((child.2.length : Int), t') ∧
        PagesWritten t child.2 t') :
    ∃ t', (children.map Prod.fst).foldlM (fun (written : Int × Store) child => do
        let (below, s) ← btreeWriteCountFrom fuel written.2 child
        some (written.1 + below, s)) (count, t) =
          some (count + ((children.flatMap Prod.snd).length : Int), t') ∧
        PagesWritten t (children.flatMap Prod.snd) t' := by
  induction children generalizing count t with
  | nil =>
    refine ⟨t, ?_, PagesWritten.refl t⟩
    simp
  | cons child children ih =>
    obtain ⟨middle, run, written⟩ := recursion child List.mem_cons_self t mem total
    obtain ⟨last, rest, writtenRest⟩ := ih (count + (child.2.length : Int))
      (written.mem.trans mem) (written.totalBlocks.trans total)
      fun other inside => recursion other (List.mem_cons_of_mem _ inside)
    refine ⟨last, ?_, ?_⟩
    · rw [List.map_cons, List.foldlM_cons, run]
      simp only [Option.bind_eq_bind, Option.bind_some]
      rw [List.flatMap_cons, List.length_append, Nat.cast_add, ← add_assoc]
      exact rest
    · rw [List.flatMap_cons]
      exact written.append writtenRest

/-- The recursion writes a cached tree and counts its nodes, when the fuel is enough for every walk
down the tree. -/
theorem btreeWriteCountFrom_spec {block : Nat} {blocks : List Nat}
    (cached : CachedTree s block blocks) {steps fuel : Nat}
    (within : Within (ChildOf s) steps block) (enough : steps < fuel)
    (mem : t.mem = s.mem) (total : t.totalBlocks = s.totalBlocks) :
    ∃ t', btreeWriteCountFrom fuel t block = some ((blocks.length : Int), t') ∧
      PagesWritten t blocks t' := by
  induction cached generalizing steps fuel t with
  | @node block node children load holds below ih =>
    obtain ⟨fuel, rfl⟩ := Nat.exists_eq_succ_of_ne_zero (by omega : fuel ≠ 0)
    have load' : btreeNodeLoad t block = some node := by
      rw [load_congr total (by rw [mem])]
      exact load
    let middle : Store := { t with disk := fun other =>
      if other = node.blockNumber then t.mem block else t.disk other }
    have first : PagesWritten t [block] middle := by
      refine ⟨rfl, rfl, fun pnum => ?_⟩
      show (if pnum = node.blockNumber then t.mem block else t.disk pnum) = _
      rw [holds.blockNumber]
      by_cases here : pnum = block
      · rw [here]
        simp
      · simp [here]
    obtain ⟨last, run, written⟩ := @writeChildren_spec s middle fuel children 1 mem
      total fun child isChild t mem total => by
        have step : ChildOf s block child.1 :=
          (holds.childOf load child.1).mpr (List.mem_map_of_mem isChild)
        cases steps with
        | zero => exact absurd step (within child.1)
        | succ steps => exact ih child isChild (within child.1 step) (by omega) mem total
    refine ⟨last, ?_, first.append written⟩
    have counted := holds.count
    have walked := holds.map_children
    rw [btreeWriteCountFrom, btreeNodeRead_of_load load']
    simp only [Option.bind_eq_bind, Option.bind_some]
    rw [counted, walked, List.length_cons, Nat.cast_add, Nat.cast_one, add_comm (_ : Int) 1]
    exact run

/-- `btree_write` of a cached tree writes the page of each node and no other block, and returns the
number of nodes. -/
theorem btreeWriteCount_tree {block : Nat} {blocks : List Nat} (cached : CachedTree s block blocks) :
    ∃ s', btreeWriteCount s block = some ((blocks.length : Int), s') ∧
      btreeWrite s block = some s' ∧ PagesWritten s blocks s' := by
  obtain ⟨s', run, written⟩ := @btreeWriteCountFrom_spec s s block blocks cached _ s.walkFuel
    cached.within (by
      unfold Store.walkFuel
      omega) rfl rfl
  refine ⟨s', run, ?_, written⟩
  unfold btreeWrite
  rw [btreeWriteFrom_eq_count, run]
  rfl

/-- The uneven tree in the cache, over an empty image. -/
def cachedStore : Store := { unevenStore with disk := fun _ => .untagged fun _ => 0 }

/-- The tree is cached. -/
theorem cachedStore_cached : CachedTree cachedStore 4 [4, 2, 5, 3] := by
  have first : CachedTree cachedStore 2 [2] := by
    refine @CachedTree.node cachedStore 2 (Leaf.node ⟨2, 10, 0, 0⟩ 4) []
      (load_eq_some.mpr ⟨by decide, rfl⟩) ?_ (by simp)
    exact ⟨rfl, by decide, by decide, by decide, by simp, fun _ _ => rfl, by decide⟩
  have second : CachedTree cachedStore 3 [3] := by
    refine @CachedTree.node cachedStore 3 (Leaf.node ⟨3, 20, 0, 0⟩ 5) []
      (load_eq_some.mpr ⟨by decide, rfl⟩) ?_ (by simp)
    exact ⟨rfl, by decide, by decide, by decide, by simp, fun _ _ => rfl, by decide⟩
  have below : CachedTree cachedStore 5 [5, 3] := by
    refine @CachedTree.node cachedStore 5 (nodeOver 5 4 [(3, some 20)]) [(3, [3])]
      (load_eq_some.mpr ⟨by decide, rfl⟩) ?_ (by simpa using second)
    exact ⟨rfl, by decide, by decide, by decide, by simp, by decide, by decide⟩
  refine @CachedTree.node cachedStore 4 (nodeOver 4 0 [(2, some 10), (5, some 20)])
    [(2, [2]), (5, [5, 3])] (load_eq_some.mpr ⟨by decide, rfl⟩) ?_
    (by simpa using ⟨first, below⟩)
  exact ⟨rfl, by decide, by decide, by decide, by simp, by decide, by decide⟩

/-- The four nodes of the tree are written. -/
theorem btreeWriteCount_tree_uneven :
    ∃ s', btreeWriteCount cachedStore 4 = some (4, s') ∧ btreeWrite cachedStore 4 = some s' ∧
      PagesWritten cachedStore [4, 2, 5, 3] s' :=
  btreeWriteCount_tree cachedStore_cached

end

end Nbtrfs
