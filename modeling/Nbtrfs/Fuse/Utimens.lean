import Nbtrfs.Cache.Pins
import Nbtrfs.Mkfs.Model
import Nbtrfs.Namespace.Path

/-!
# Setting times over the cache

`nbtrfs_utimens` and all that it calls, with every access to the cache in its place: the search of the
path, and the inode read and written. `inode_write` without write-through pins the inode's table block
each time. There is no result where the code goes on with a superblock or a root node that a failed
read left uninitialised.
-/

namespace Nbtrfs

/-- What the cache reads in a block. -/
def blockTags (freedIsData : Block → Bool) : PageTags Block where
  isData
    | .data _ => true
    | _ => false
  freedIsData

namespace Cached

/-- An unchecked `superblock_read` into an uninitialised superblock. -/
def superblockRead : CacheProgram Block Superblock := do
  match ← getBlock 0 0 with
  | .super superblock => pure superblock
  | _ => .undefined

/-- `btree_node_read`; `none` stands for -1. -/
def btreeNodeRead (block : Nat) : CacheProgram Block (Option BTreeNode) := do
  let page ← getBlock 0 block
  pure page.node?

/-- The recursion of `btree_search`; 0 stands for not found. -/
def btreeSearchFrom (key : Nat) : Nat → Nat → CacheProgram Block Nat
  | 0, _ => .undefined
  | fuel + 1, block => do
    match ← btreeNodeRead block with
    | none => pure 0
    | some node =>
      if node.isLeaf then pure (if node.key = key then node.blockNumber else 0)
      else
        let childIdx := firstIndex (fun i => key ≤ node.keys i) node.numKeys
        if node.children childIdx ≠ 0 then btreeSearchFrom key fuel (node.children childIdx)
        else pure 0

/-- The node that a component leads to: the leaf, or the root node of a directory; `none` if a
directory has no root node. -/
def enterNode (nodeBlock : Nat) (node : BTreeNode) : CacheProgram Block (Option BTreeNode) := do
  let read ← btreeNodeRead nodeBlock
  let node := read.getD node
  if node.type = fileTypeDirectory then btreeNodeRead node.value else pure (some node)

/-- The loop of `item_search` from a component on, with the number of components left. `depth` bounds
the walk through a tree. -/
def itemSearchFrom (depth : Nat) (path : CString) :
    Nat → Nat → BTreeNode → CString → CacheProgram Block InodeBtreePair
  | 0, _, _, _ => pure noPair
  | left + 1, i, node, currPath =>
    match split path i with
    | none => .undefined
    | some token => do
      let nodeBlock ← btreeSearchFrom (pathHash token) depth node.blockNumber
      if nodeBlock = 0 then pure noPair
      else
        let currPath := extendPath currPath token
        match ← enterNode nodeBlock node with
        | none => pure noPair
        | some node =>
          if path = currPath then
            pure ⟨node.value, if node.type = fileTypeDirectory then node.blockNumber else 0⟩
          else itemSearchFrom depth path left (i + 1) node currPath

/-- `item_search`. -/
def itemSearch (depth : Nat) (path : CString) : CacheProgram Block InodeBtreePair := do
  let superblock ← superblockRead
  match ← btreeNodeRead superblock.btreeRoot with
  | none => .undefined
  | some node =>
    if path = [slash] then pure ⟨node.value, node.blockNumber⟩
    else itemSearchFrom depth path (countL path) 1 node []

/-- `inode_read`; `none` stands for -1. -/
def inodeRead (inodeNumber : Nat) : CacheProgram Block (Option Inode) := do
  let superblock ← superblockRead
  match ← getBlock 0 (inodePage superblock inodeNumber) with
  | .inode slots => pure (some (slots (inodeNumber % inodesPerPage)))
  | _ => pure none

/-- `inode_write`: whether it succeeds. -/
def inodeWrite (inode : Inode) (writeThrough : Bool) : CacheProgram Block Bool := do
  let superblock ← superblockRead
  let page := inodePage superblock inode.inodeNumber
  match ← getBlock 0 page with
  | .inode slots =>
    let written := Block.inode (setSlot slots (inode.inodeNumber % inodesPerPage) inode)
    assignPage page written
    if writeThrough then
      diskWriteBlock page written
      decreasePinCount 0 page
    else
      writeBlock written 0 page
      increasePinCount 0 page
    pure true
  | _ => pure false

/-- `struct timespec`. -/
structure Timespec where
  /-- Seconds. -/
  tvSec : Int
  /-- Nanoseconds. -/
  tvNsec : Int

/-- A time as the inode keeps it, in nanoseconds, a `uint64_t`. -/
def Timespec.stamp (time : Timespec) : Nat :=
  ((time.tvSec * 1000000000 + time.tvNsec) % 2 ^ 64).toNat

/-- `nbtrfs_utimens`: whether it returns 0. -/
def nbtrfsUtimens (depth : Nat) (path : CString) (access modification : Timespec) :
    CacheProgram Block Bool := do
  let pair ← itemSearch depth path
  match ← inodeRead pair.inodeNumber with
  | none => pure false
  | some node =>
    let node := { node with
      accessTime := access.stamp
      modificationTime := modification.stamp }
    inodeWrite node false

/-- A cache of one slot over a formatted image. -/
def oneSlot : Option (Machine Block) :=
  (diskFormat ⟨1000, 1000, 0⟩ (zeroImage 100 ⟨fun _ => 0, fun _ _ => 0⟩) []).map fun result =>
    ⟨allocCache 1 fun _ => ⟨false, 0, 0, 0, none, none, none⟩,
      ⟨result.2.totalBlocks, result.2.mem⟩⟩

/-- Set the times of the root directory. -/
def touchRoot : CacheProgram Block Bool := nbtrfsUtimens 101 [slash] ⟨0, 0⟩ ⟨1, 0⟩

/-- The first call succeeds and leaves the table block pinned in the only slot; the second does not
return. -/
theorem touchRoot_computed : oneSlot.any (fun machine =>
    (touchRoot.run (blockTags fun _ => false) machine).map Prod.fst = some true ∧
    ((touchRoot.andThen fun _ => touchRoot).run (blockTags fun _ => false) machine).isNone = true ∧
    (touchRoot.runFor (blockTags fun _ => false) 9 machine).any fun reached =>
      pciLookup reached.2.cache.pci 0 = none ∧ reached.2.cache.freeList = [] ∧
      (reached.2.cache.entries 0).pinCount = 1) = true := by
  decide +kernel

end Cached

/-- With one slot, after the times of the root directory were set the superblock is missing, no slot
is free and every slot of the recency list is pinned, so that setting them again does not return. -/
theorem scanEnds_false :
    ∃ start calls machine, Cached.oneSlot = some start ∧
      (Cached.touchRoot.run (blockTags fun _ => false) start).map Prod.fst = some true ∧
      Cached.touchRoot.runFor (blockTags fun _ => false) 9 start = some (calls, machine) ∧
      pciLookup machine.cache.pci 0 = none ∧ machine.cache.freeList = [] ∧
      ¬ machine.cache.ScanEnds ∧
      (Cached.touchRoot.andThen fun _ => Cached.touchRoot).run (blockTags fun _ => false) start =
        none := by
  obtain ⟨start, made, computed⟩ := (Option.any_eq_true _ _).mp Cached.touchRoot_computed
  obtain ⟨succeeds, stuck, reached⟩ := of_decide_eq_true computed
  obtain ⟨⟨calls, machine⟩, run, found⟩ := (Option.any_eq_true _ _).mp reached
  obtain ⟨missing, full, pinned⟩ := of_decide_eq_true found
  refine ⟨start, calls, machine, made, succeeds, run, missing, full, ?_, Option.isNone_iff_eq_none.mp stuck⟩
  obtain ⟨result, -, rfl⟩ := Option.map_eq_some_iff.mp made
  obtain ⟨recent, pending, tidy, -, size⟩ := (allocCache_tidy ⟨result.2.totalBlocks, result.2.mem⟩ 1
    fun _ => ⟨false, 0, 0, 0, none, none, none⟩).runFor 9 run
  rw [tidy.scan_iff full]
  rintro ⟨entry, inside, unpinned⟩
  have bound : entry.2 < 1 := by
    rw [show (1 : Nat) = machine.cache.cacheSize from size.symm]
    exact List.mem_range.mp (tidy.slots.mem_iff.mp
      (List.mem_append_left _ (List.mem_map_of_mem inside)))
  rw [Nat.lt_one_iff.mp bound, pinned] at unpinned
  cases unpinned

end Nbtrfs
