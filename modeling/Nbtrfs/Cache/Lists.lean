import Nbtrfs.Config
import Nbtrfs.Library.Chains
import Nbtrfs.Library.CircularList

/-!
# The lists and hash maps of the block cache

`pci.c`, `fl.c`, `dl.c`, `lru.c` and `gdl.c`. The recency list and the global dirty list are
circular lists; the primary cache index and the per-inode dirty lists are chained hash maps;
the free list is a plain list of slot indices. Dereferencing NULL or a released node has no
result.
-/

namespace Nbtrfs

/-- The bucket of a 64-bit number: `% HASHMAP_SIZE`. -/
def hashmapBucket (number : Nat) : Nat := number % hashmapSize

/-- `PCI_HM`: block number to slot index. -/
abbrev PciHm := Chains.Table Nat Nat

/-- `pci_lookup`; `none` stands for -1. -/
def pciLookup (hashmap : PciHm) (blockNumber : Nat) : Option Nat :=
  Chains.lookup hashmapBucket hashmap blockNumber

/-- `pci_insert`. -/
def pciInsert (hashmap : PciHm) (blockNumber index : Nat) : PciHm :=
  Chains.insert hashmapBucket hashmap blockNumber index

/-- `pci_delete`. The local `prev` is not initialised; `stray` says that it holds something
other than NULL on entry. A block that is not in its chain leaves `curr` NULL, which is
dereferenced; the first node of a chain is unlinked through `prev`. -/
def pciDelete (stray : Bool) (hashmap : PciHm) (blockNumber : Nat) : Option PciHm :=
  match hashmap (hashmapBucket blockNumber) with
  | [] => none
  | first :: rest =>
    if first.1 = blockNumber then
      if stray then none else some (Chains.setChain hashmap (hashmapBucket blockNumber) rest)
    else if (rest.lookup blockNumber).isNone then none
    else some (Chains.erase hashmapBucket hashmap blockNumber)

/-- With `prev` NULL on entry, deleting a present block removes its pair. -/
theorem pciDelete_present {hashmap : PciHm} {blockNumber index : Nat}
    (present : pciLookup hashmap blockNumber = some index) :
    pciDelete false hashmap blockNumber = some (Chains.erase hashmapBucket hashmap blockNumber) := by
  unfold pciLookup Chains.lookup at present
  unfold pciDelete Chains.erase
  cases chain : hashmap (hashmapBucket blockNumber) with
  | nil => simp [chain] at present
  | cons first rest =>
    obtain ⟨key, held⟩ := first
    by_cases same : key = blockNumber
    · simp [same]
    · rw [chain, List.lookup_cons, beq_false_of_ne (Ne.symm same)] at present
      simp only [same, present, Option.isNone_some, if_false, beq_false_of_ne same,
        List.eraseP_cons, Bool.false_eq_true]

/-- `fl_push`. -/
def flPush (list : List Nat) (index : Nat) : List Nat := index :: list

/-- `fl_pop`, with the index its caller reads from the head first. -/
def flPop : List Nat → Option (Nat × List Nat)
  | [] => none
  | index :: rest => some (index, rest)

/-- A node of a `DL_LL` list: `dl_index` and `block_number`. -/
abbrev DlNode := Nat × Nat

/-- `DL_HM`: inode number to the list of its dirty blocks. -/
abbrev DlHm := Chains.Table Nat (List DlNode)

/-- `dl_push`. -/
def dlPush (list : List DlNode) (blockNumber : Nat) : List DlNode :=
  match list with
  | [] => [(1, blockNumber)]
  | head :: _ => (head.1 + 1, blockNumber) :: list

/-- `dl_lookup`. -/
def dlLookup (hashmap : DlHm) (inodeNumber : Nat) : Option (List DlNode) :=
  Chains.lookup hashmapBucket hashmap inodeNumber

/-- `dl_find_block`, as a test. -/
def dlFindBlock (list : List DlNode) (blockNumber : Nat) : Bool :=
  list.any fun node => node.2 == blockNumber

/-- `dl_insert`. -/
def dlInsert (hashmap : DlHm) (inodeNumber blockNumber : Nat) : DlHm :=
  match dlLookup hashmap inodeNumber with
  | none => Chains.insert hashmapBucket hashmap inodeNumber (dlPush [] blockNumber)
  | some list =>
    if dlFindBlock list blockNumber then hashmap
    else Chains.assign hashmapBucket hashmap inodeNumber (dlPush list blockNumber)

/-- `dl_delete`. -/
def dlDelete (hashmap : DlHm) (inodeNumber : Nat) : DlHm :=
  Chains.erase hashmapBucket hashmap inodeNumber

/-- `dl_remove_block`. -/
def dlRemoveBlock (hashmap : DlHm) (inodeNumber blockNumber : Nat) : DlHm :=
  match dlLookup hashmap inodeNumber with
  | none => hashmap
  | some list =>
    if dlFindBlock list blockNumber then
      let rest := list.eraseP fun node => node.2 == blockNumber
      let updated := Chains.assign hashmapBucket hashmap inodeNumber rest
      if rest = [] then dlDelete updated inodeNumber else updated
    else hashmap

/-- `lru_push` and its callers' assignment of the head pointer: the address of the new node
and the list with that node first. The length is an `int`. -/
def lruPush (lru : CircularList Nat) (index : Nat) : Option (Nat × CircularList Nat) :=
  if lru.size < intMax then do
    let (node, pushed) ← lru.push index
    some (node, { pushed with head := some node })
  else none

/-- `lru_pop`: the index of the node at an address and the list without it. -/
def lruPop (lru : CircularList Nat) (node : Nat) : Option (Nat × CircularList Nat) := do
  let (index, _, popped) ← lru.unlink node
  some (index, popped)

/-- `gdl_push` and its callers' assignment of the head pointer. -/
def gdlPush (gdl : CircularList Nat) (index : Nat) : Option (Nat × CircularList Nat) :=
  lruPush gdl index

/-- `gdl_pop` through a pointer that may be NULL, which leaves the list as it is; the
returned index is -1 then. -/
def gdlPop (gdl : CircularList Nat) : Option Nat → Option (Option Nat × CircularList Nat)
  | none => some (none, gdl)
  | some node => do
    let (index, _, popped) ← gdl.unlink node
    some (some index, popped)

/-- A push puts the index first. -/
theorem lruPush_holds {lru : CircularList Nat} {list : List (Nat × Nat)} (holds : lru.Holds list)
    (room : list.length < intMax) (index : Nat) :
    ∃ pushed, lruPush lru index = some (lru.fresh, pushed) ∧ pushed.fresh = lru.fresh + 1 ∧
      pushed.Holds ((lru.fresh, index) :: list) := by
  obtain ⟨pushed, run, fresh, stored⟩ := CircularList.push_holds holds index
  rw [← holds.size] at room
  exact ⟨{ pushed with head := some lru.fresh }, by simp [lruPush, room, run], fresh, stored⟩

/-- A pop erases the node it names. -/
theorem lruPop_holds {lru : CircularList Nat} {left right : List (Nat × Nat)} {node index : Nat}
    (holds : lru.Holds (left ++ (node, index) :: right)) :
    ∃ popped, lruPop lru node = some (index, popped) ∧ popped.fresh = lru.fresh ∧
      popped.Holds (left ++ right) := by
  obtain ⟨after, popped, run, fresh, stored⟩ := CircularList.unlink_holds holds
  exact ⟨popped, by simp [lruPop, run], fresh, stored⟩

/-- A pop through a valid pointer erases the node it names. -/
theorem gdlPop_holds {gdl : CircularList Nat} {left right : List (Nat × Nat)} {node index : Nat}
    (holds : gdl.Holds (left ++ (node, index) :: right)) :
    ∃ popped, gdlPop gdl (some node) = some (some index, popped) ∧
      popped.Holds (left ++ right) := by
  obtain ⟨after, popped, run, -, stored⟩ := CircularList.unlink_holds holds
  exact ⟨popped, by simp [gdlPop, run], stored⟩

end Nbtrfs
