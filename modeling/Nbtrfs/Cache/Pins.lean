import Nbtrfs.Cache.Program

/-!
# The end of the eviction scan

The scan of `get_block` walks back over the recency list until it meets a slot without pins. Every
slot in use holds another block and a pinned block stays in its slot, so there is such a slot exactly
if fewer blocks hold pins than the cache has slots.
-/

namespace Nbtrfs

variable {Page α : Type}

/-- The block that a call pins. -/
def CacheCall.pinned : CacheCall Page → Option Nat
  | .pin _ pnum => some pnum
  | .get _ _ | .write _ _ _ | .unpin _ _ | .sync => none

/-- The blocks that hold pins after calls: more were taken than dropped. -/
def pinnedBlocks (calls : List (CacheCall Page)) : List Nat :=
  (calls.filterMap CacheCall.pinned).dedup.filter fun block => 0 < pinsAfterRun 0 block calls

/-- The scan of `get_block` ends: some slot of the recency list has no pins, and the walk back from
the tail meets it. -/
structure Cache.ScanEnds (cache : Cache Page) : Prop where
  /-- A slot of the recency list has no pins. -/
  unpinned : ∃ recent, cache.lru.Holds recent ∧
    ∃ entry ∈ recent, (cache.entries entry.2).pinCount = 0
  /-- The walk back ends after some number of nodes. -/
  ends : ∃ fuel first tail curr, cache.lru.head = some first ∧ cache.lru.heap first = some tail ∧
    cache.lru.findBack cache.evictable fuel tail.prev = some curr

/-- A block that no call pins keeps its pins or loses some. -/
theorem pinsAfterRun_le {block : Nat} {calls : List (CacheCall Page)}
    (never : block ∉ calls.filterMap CacheCall.pinned) (pins : Nat) :
    pinsAfterRun pins block calls ≤ pins := by
  induction calls generalizing pins with
  | nil => exact Nat.le_refl pins
  | cons call calls ih =>
    have later : block ∉ calls.filterMap CacheCall.pinned := by
      intro inside
      apply never
      obtain ⟨made, member, pinned⟩ := List.mem_filterMap.mp inside
      exact List.mem_filterMap.mpr ⟨made, List.mem_cons_of_mem _ member, pinned⟩
    have first : pinsAfter pins block call ≤ pins := by
      cases call with
      | get inum pnum | write buf inum pnum | sync => exact Nat.le_refl pins
      | unpin inum pnum =>
        rw [pinsAfter]
        split <;> omega
      | pin inum pnum =>
        have differs : block ≠ pnum := by
          rintro rfl
          apply never
          exact List.mem_filterMap.mpr ⟨.pin inum block, List.mem_cons_self, rfl⟩
        rw [pinsAfter, if_neg differs]
    exact (ih later _).trans first

/-- The blocks that hold pins are those with a positive count. -/
theorem mem_pinnedBlocks (calls : List (CacheCall Page)) (block : Nat) :
    block ∈ pinnedBlocks calls ↔ 0 < pinsAfterRun 0 block calls := by
  rw [pinnedBlocks, List.mem_filter, List.mem_dedup, decide_eq_true_iff]
  constructor
  · exact And.right
  · intro positive
    refine ⟨?_, positive⟩
    by_contra never
    have none := pinsAfterRun_le never 0
    omega

/-- No block is listed twice. -/
theorem pinnedBlocks_nodup (calls : List (CacheCall Page)) : (pinnedBlocks calls).Nodup :=
  (List.nodup_dedup _).filter _

section Scan

variable {tags : PageTags Page} {machine : Machine Page} {recent pending : List (Nat × Nat)}

/-- The blocks of the slots in use, in the order of the recency list. -/
def Machine.blocks (machine : Machine Page) (recent : List (Nat × Nat)) : List Nat :=
  recent.map fun entry => (machine.cache.entries entry.2).blockNumber

/-- Every slot in use holds another block. -/
theorem Tidy.blocks_nodup (tidy : Tidy machine recent pending) : (machine.blocks recent).Nodup := by
  have slots := (List.nodup_append.mp tidy.nodup).1
  apply List.Nodup.map_on _ (List.Nodup.of_map _ slots)
  intro entry inside other also same
  have equal := tidy.block_unique inside also same.symm
  exact List.inj_on_of_nodup_map slots inside also equal.symm

/-- The pins of a block in use are those of its slot. -/
theorem Tidy.pins_entry (tidy : Tidy machine recent pending) {entry : Nat × Nat}
    (inside : entry ∈ recent) :
    machine.pins (machine.cache.entries entry.2).blockNumber =
      (machine.cache.entries entry.2).pinCount :=
  Machine.pins_of_lookup (tidy.kept entry.1 entry.2 inside).found

/-- A block with pins is in a slot. -/
theorem Tidy.pinned_inside (tidy : Tidy machine recent pending) {block : Nat}
    (pinned : 0 < machine.pins block) : block ∈ machine.blocks recent := by
  cases present : pciLookup machine.cache.pci block with
  | none =>
    rw [Machine.pins_of_missing present] at pinned
    cases pinned
  | some slot =>
    obtain ⟨node, inside, held⟩ := tidy.hit present
    exact List.mem_map.mpr ⟨(node, slot), inside, held⟩

/-- With no free slot as many blocks are held as the cache has slots. -/
theorem Tidy.blocks_length (tidy : Tidy machine recent pending) (full : machine.cache.freeList = []) :
    (machine.blocks recent).length = machine.cache.cacheSize := by
  have length := tidy.slots.length_eq
  rw [full, List.append_nil, List.length_map, List.length_range] at length
  rw [Machine.blocks, List.length_map, length]

/-- With no free slot, some slot in use has no pins exactly if fewer blocks have pins than the cache
has slots. -/
theorem Tidy.unpinned_iff (tidy : Tidy machine recent pending) (full : machine.cache.freeList = [])
    {pinned : List Nat} (nodup : pinned.Nodup)
    (holds : ∀ block, block ∈ pinned ↔ 0 < machine.pins block) :
    (∃ entry ∈ recent, (machine.cache.entries entry.2).pinCount = 0) ↔
      pinned.length < machine.cache.cacheSize := by
  rw [← tidy.blocks_length full]
  have inside : pinned ⊆ machine.blocks recent :=
    fun block member => tidy.pinned_inside ((holds block).mp member)
  constructor
  · rintro ⟨entry, member, unpinned⟩
    have held : (machine.cache.entries entry.2).blockNumber ∈ machine.blocks recent :=
      List.mem_map.mpr ⟨entry, member, rfl⟩
    have absent : (machine.cache.entries entry.2).blockNumber ∉ pinned := by
      intro wrong
      have positive := (holds _).mp wrong
      rw [tidy.pins_entry member, unpinned] at positive
      cases positive
    have extended : (machine.cache.entries entry.2).blockNumber :: pinned ⊆ machine.blocks recent :=
      List.cons_subset.mpr ⟨held, inside⟩
    exact (List.Nodup.subperm (List.nodup_cons.mpr ⟨absent, nodup⟩) extended).length_le
  · intro fewer
    by_contra every
    have whole : machine.blocks recent ⊆ pinned := by
      intro block member
      obtain ⟨entry, used, rfl⟩ := List.mem_map.mp member
      rw [holds, tidy.pins_entry used]
      apply Nat.pos_of_ne_zero
      intro unpinned
      exact every ⟨entry, used, unpinned⟩
    have bound := (tidy.blocks_nodup.subperm whole).length_le
    omega

/-- The walk back ends exactly if some slot of the recency list has no pins. -/
theorem Tidy.scan_iff (tidy : Tidy machine recent pending) (full : machine.cache.freeList = []) :
    machine.cache.ScanEnds ↔ ∃ entry ∈ recent, (machine.cache.entries entry.2).pinCount = 0 := by
  constructor
  · rintro ⟨-, fuel, first, tail, curr, head, tailFound, scan⟩
    by_contra every
    obtain ⟨node, found, before⟩ := tidy.lru.head_prev head
    obtain rfl := Option.some.inj (tailFound.symm.trans found)
    have nonempty : recent ≠ [] := by
      rintro rfl
      rw [tidy.lru.head] at head
      cases head
    have rejected : ∀ entry ∈ recent, machine.cache.evictable entry.2 = false := by
      intro entry inside
      rw [Cache.evictable, beq_eq_false_iff_ne]
      intro unpinned
      exact every ⟨entry, inside, unpinned⟩
    have stuck := CircularList.findBack_none tidy.lru rejected fuel
      (CircularList.lastOr_mem recent 0 nonempty)
    rw [before, stuck] at scan
    cases scan
  · rintro ⟨entry, inside, unpinned⟩
    refine ⟨⟨recent, tidy.lru, entry, inside, unpinned⟩, ?_⟩
    have bound : entry.2 < machine.cache.cacheSize :=
      List.mem_range.mp (tidy.slots.mem_iff.mp
        (List.mem_append_left _ (List.mem_map_of_mem inside)))
    have victim : ∃ slot < machine.cache.cacheSize, machine.cache.evictable slot = true :=
      ⟨entry.2, bound, beq_iff_eq.mpr unpinned⟩
    obtain ⟨left, node, slot, right, after, pending', -, -, run, -⟩ :=
      @Tidy.evicts _ ⟨fun _ => false, fun _ => false⟩ _ _ _ tidy full victim
    obtain ⟨first, head, run⟩ := Option.bind_eq_some_iff.mp run
    obtain ⟨tail, tailFound, run⟩ := Option.bind_eq_some_iff.mp run
    obtain ⟨curr, scan, -⟩ := Option.bind_eq_some_iff.mp run
    exact ⟨_, first, tail, curr, head, tailFound, scan⟩

end Scan

/-- Wherever code over the cache has come, if a block is missing and no slot is free, then the
eviction scan ends if and only if fewer blocks hold pins than the cache has slots. -/
theorem scanEnds_iff (tags : PageTags Page) (image : Image Page) (cacheSize : Nat)
    (uninitialised : Nat → CacheEntry Page) (program : CacheProgram Page α) (count : Nat)
    {calls : List (CacheCall Page)} {machine : Machine Page}
    (run : program.runFor tags count ⟨allocCache cacheSize uninitialised, image⟩ =
      some (calls, machine))
    (full : machine.cache.freeList = []) :
    machine.cache.ScanEnds ↔ (pinnedBlocks calls).length < cacheSize := by
  obtain ⟨recent, pending, tidy, pins, size⟩ :=
    (allocCache_tidy image cacheSize uninitialised).runFor count run
  rw [tidy.scan_iff full]
  have holds : ∀ block, block ∈ pinnedBlocks calls ↔ 0 < machine.pins block := by
    intro block
    rw [mem_pinnedBlocks, pins]
    rfl
  have exact_ := tidy.unpinned_iff full (pinnedBlocks_nodup calls) holds
  rw [size] at exact_
  exact exact_

/-- Through two slots, one of them pinned: the scan for a third block ends. -/
theorem scanEnds_iff_two_slots :
    ∃ calls machine,
      (CacheProgram.call (.get 5 1) fun _ => .call (.pin 5 1) fun _ => .assign 1 7 <| .flush 1 7 <|
        .call (.get 5 2) fun _ => .done ()).runFor ⟨fun _ => true, fun _ => true⟩ 5
        ⟨allocCache 2 fun _ => ⟨true, 3, 9, 9, some 9, some 9, some 9⟩, ⟨3, fun pnum => pnum⟩⟩ =
          some (calls, machine) ∧
      machine.cache.freeList = [] ∧ (pinnedBlocks calls).length = 1 ∧ machine.cache.ScanEnds := by
  have ends : ((CacheProgram.call (.get 5 1) fun _ => .call (.pin 5 1) fun _ => .assign 1 7 <|
      .flush 1 7 <| .call (.get 5 2) fun _ => .done ()).runFor ⟨fun _ => true, fun _ => true⟩ 5
      ⟨allocCache 2 fun _ => ⟨true, 3, 9, 9, some 9, some 9, some 9⟩, ⟨3, fun pnum => pnum⟩⟩).any
        (fun (reached : List (CacheCall Nat) × Machine Nat) =>
          decide (reached.2.cache.freeList = [] ∧ (pinnedBlocks reached.1).length = 1)) = true := by
    decide +kernel
  obtain ⟨⟨calls, machine⟩, run, reached⟩ := (Option.any_eq_true _ _).mp ends
  obtain ⟨full, pinned⟩ := of_decide_eq_true reached
  refine ⟨calls, machine, run, full, pinned, ?_⟩
  rw [scanEnds_iff ⟨fun _ => true, fun _ => true⟩ ⟨3, fun pnum => pnum⟩ 2
    (fun _ => ⟨true, 3, 9, 9, some 9, some 9, some 9⟩) _ 5 run full, pinned]
  decide

end Nbtrfs
